import Lpmud.Functions.Hash

/-!
# Every function is found

The second pass of `hash_func` puts the functions whose slot was taken into the slots that are still
free, and links each behind the chain of its own slot (`Chained`, `plugAll_spec`). At the end every
slot is in the chain of one hash value, and a search that starts in a chain of another one runs to
its end without a find. The table is what it is meant to be exactly when all indices fit into a
`short` (`finds_iff`).
-/

namespace Lpmud.Functions

open Function List Option

namespace Filling

variable {names : List Name} {n i : ℕ} {s : Filling} {prev next idx : ℕ → Option ℕ}
  {holes colls l : List ℕ}

/-! ### The second pass -/

theorem segment_range (a k : ℕ) (hak : a + k = n) :
    Segment (fun p ↦ if p = 0 then none else some (p - 1))
      (fun p ↦ if p + 1 = n then none else some (p + 1))
      (if a = 0 then none else some (a - 1)) (List.range' a k) none := by
  induction k generalizing a with
  | zero => trivial
  | succ k ih =>
    rw [List.range'_succ, segment_cons]
    refine ⟨rfl, ?_, by simpa using ih (a + 1) (by omega)⟩
    cases k with
    | zero => simp [← hak]
    | succ k =>
      rw [List.range'_succ, if_neg (by omega)]
      rfl

theorem isSpread_prepare (table : ℕ → FunctionHash) (hashIdx : ℕ → BitVec 16)
    (hpos : 0 < names.length) (hle : names.length ≤ 2 ^ 15) :
    IsSpread names 0 (prepare names.length table hashIdx) := by
  refine ⟨fun p ↦ if p = 0 then none else some (p - 1),
    fun p ↦ if p + 1 = names.length then none else some (p + 1), fun _ ↦ none,
    List.range' 0 names.length, [], ⟨segment_range 0 names.length (by omega), nodup_range',
    fun p hp ↦ ?_, fun p hp ↦ ?_, fun p hp ↦ ?_, ?_⟩, fun p hp ↦ ?_, ⟨nofun, fun p hp h ↦ ?_⟩,
    fun p hp name hname ↦ ?_, nofun, nofun, .nil, rfl, rfl, by simp⟩
  · simpa using hp
  · simp only [prepare]
    split
    next => rfl
    next => exact toInt_toShort (p := p + 1) (by omega)
  · simp only [prepare]
    split
    next h => simp [h]
    next h =>
      rw [ref_some]
      omega
  · obtain ⟨k, hk⟩ := Nat.exists_eq_succ_of_ne_zero hpos.ne'
    rw [hk, List.range'_succ]
    rfl
  · simpa [prepare] using hp
  · exact absurd rfl h
  · cases hname

/-- The invariant of the second pass: behind every slot that is the slot of a function there is the
chain of all slots whose functions belong there. -/
structure Chained (names : List Name) (s : Filling) (next idx : ℕ → Option ℕ)
    (holes colls : List ℕ) (chain : ℕ → List ℕ) : Prop where
  holds : Holds names names.length colls s.table idx
  next_eq : ∀ p < names.length, (s.table p).nextHashedFunction.toInt = ref (next p)
  idx_eq : ∀ j < names.length, (s.hashIdx j).toInt = ref (idx j)
  free : PtrPath next holes.head? holes
  firstHole : s.firstHole = ref holes.head?
  mem_holes : ∀ p, p ∈ holes ↔ p < names.length ∧ (s.table p).name = none
  path : PtrPath idx colls.head? colls
  firstCollision : s.firstCollision = ref colls.head?
  collided : ∀ j ∈ colls, j < names.length
  chain_path : ∀ name ∈ names,
    PtrPath next (some (ptrHash name names.length)) (chain (ptrHash name names.length))
  mem_chain : ∀ name ∈ names, ∀ p, p ∈ chain (ptrHash name names.length) ↔
    p < names.length ∧ ∃ nm, (s.table p).name = some nm ∧
      ptrHash nm names.length = ptrHash name names.length
  length_eq : holes.length = colls.length

theorem Spread.chained (h : Spread names names.length s prev next idx holes colls) :
    Chained names s next idx holes colls fun p ↦ [p] := by
  have hlinks : ∀ {o l}, Segment prev next o l none → PtrPath next l.head? l := by
    intro o l hl
    induction l generalizing o with
    | nil => exact .nil
    | cons a l ih =>
      refine .cons ?_
      rw [hl.2.1, or_none]
      exact ih hl.2.2
  have hhome : ∀ name ∈ names, ∃ nm, (s.table (ptrHash name names.length)).name = some nm ∧
      ptrHash nm names.length = ptrHash name names.length := by
    intro name hmem
    obtain ⟨j, hj, rfl⟩ := getElem_of_mem hmem
    have hslot := ptrHash_lt names[j] (Nat.zero_lt_of_lt hj)
    have hname : names[j]? = some names[j] := List.getElem?_eq_getElem hj
    have hsome : (s.table (ptrHash names[j] names.length)).name ≠ none := by
      by_cases hcoll : j ∈ colls
      · exact (h.collided j hcoll).2 _ hname
      · obtain ⟨p, hp, -, hpname, -⟩ := h.holds.placed j hj hcoll
        rw [hname] at hpname
        rw [(h.alone p hp _ hpname).2, hpname]
        simp
    obtain ⟨nm, hnm⟩ := ne_none_iff_exists'.1 hsome
    exact ⟨nm, hnm, (h.alone _ hslot nm hnm).2⟩
  refine ⟨h.holds, h.links.next_eq, h.idx_eq, hlinks h.links.linked, h.links.firstHole,
    fun p ↦ ⟨fun hp ↦ ?_, fun hp ↦ (h.mem_holes p hp.1).2 hp.2⟩, h.path, h.firstCollision,
    fun j hj ↦ (h.collided j hj).1, fun name hmem ↦ ?_, fun name hmem p ↦ ?_, ?_⟩
  · have hlt := h.links.lt_size p hp
    exact ⟨hlt, (h.mem_holes p hlt).1 hp⟩
  · obtain ⟨nm, hnm, -⟩ := hhome name hmem
    have hslot := ptrHash_lt name (length_pos_of_mem hmem)
    refine .cons ?_
    rw [(h.alone _ hslot nm hnm).1]
    exact .nil
  · rw [mem_singleton]
    constructor
    · rintro rfl
      exact ⟨ptrHash_lt name (length_pos_of_mem hmem), hhome name hmem⟩
    · rintro ⟨hp, nm, hnm, heq⟩
      exact (h.alone p hp nm hnm).2.symm.trans heq
  · have := h.length_eq
    omega

theorem chainEnd_spec {table : ℕ → FunctionHash} {p q fuel : ℕ}
    (h : PtrPath next (some p) (l ++ [q])) (hlt : ∀ r ∈ l ++ [q], r < n)
    (hnext : ∀ r ∈ l ++ [q], (table r).nextHashedFunction.toInt = ref (next r))
    (hfuel : l.length < fuel) : chainEnd n table fuel p = some q := by
  induction fuel generalizing p l with
  | zero => exact absurd hfuel (Nat.not_lt_zero _)
  | succ fuel ih =>
    cases l with
    | nil =>
      rw [nil_append] at h
      cases h with
      | cons h =>
        have hq : next q = none := by
          generalize next q = o at h
          cases h
          rfl
        rw [chainEnd, if_pos]
        rw [hnext q (by simp), hq]
        rfl
    | cons p l =>
      rw [cons_append] at h
      cases h with
      | cons h =>
        obtain ⟨r, hr⟩ : ∃ r, next p = some r := by
          generalize next p = o at h
          cases h' : l ++ [q] with
          | nil => simp at h'
          | cons r t =>
            rw [h'] at h
            cases h with
            | cons => exact ⟨r, rfl⟩
        have hmem : r ∈ l ++ [q] := by
          rw [hr] at h
          exact h.mem_iff.2 ⟨r, rfl, .refl⟩
        have hne : ref (some r) ≠ -1 := by simp
        rw [chainEnd, hnext p (by simp), hr, if_neg hne, ref_some,
          inside_natCast (hlt r (mem_cons_of_mem p hmem))]
        rw [hr] at h
        exact ih h (fun r hr ↦ hlt r (mem_cons_of_mem p hr))
          (fun r hr ↦ hnext r (mem_cons_of_mem p hr)) (Nat.lt_of_succ_lt_succ hfuel)

theorem Chained.lt_of_mem_chain {chain : ℕ → List ℕ} {name : Name} {p : ℕ}
    (h : Chained names s next idx holes colls chain) (hmem : name ∈ names)
    (hp : p ∈ chain (ptrHash name names.length)) : p < names.length :=
  ((h.mem_chain name hmem p).1 hp).1

theorem length_le_of_path {o : Option ℕ} (h : PtrPath next o l) (hlt : ∀ p ∈ l, p < n) :
    l.length ≤ n := by
  have hle : l.length ≤ (List.range n).length :=
    h.length_le fun p hp ↦ mem_range.2 (hlt p hp)
  rwa [length_range] at hle

/-- What one round of the second pass writes: the function `first` is put into the free slot `i`,
which is linked behind the slot `q`. -/
structure Plugged (s s' : Filling) (i first q : ℕ) (name : Name) : Prop where
  name : ∀ p, (s'.table p).name = if p = i then some name else (s.table p).name
  funcIndex : ∀ p, (s'.table p).funcIndex = if p = i then toShort first else (s.table p).funcIndex
  next : ∀ p, (s'.table p).nextHashedFunction =
    if p = q then toShort i else if p = i then toShort (-1) else (s.table p).nextHashedFunction
  hashIdx : s'.hashIdx = update s.hashIdx first (toShort i)
  firstHole : s'.firstHole = (s.table i).nextHashedFunction.toInt
  firstCollision : s'.firstCollision = (s.hashIdx first).toInt

theorem occupy_self (s : Filling) (i first : ℕ) (name : Name) :
    (s.occupy i first name).table i = ⟨some name, toShort (-1), toShort first⟩ :=
  update_self ..

theorem occupy_of_ne (s : Filling) {i p : ℕ} (first : ℕ) (name : Name) (h : p ≠ i) :
    (s.occupy i first name).table p = s.table p :=
  update_of_ne h ..

theorem plugged {first q : ℕ} {name : Name} (hqi : q ≠ i) :
    Plugged s { (s.occupy i first name).setNext q (toShort i) with
      firstCollision := (s.hashIdx first).toInt } i first q name := by
  refine ⟨fun p ↦ ?_, fun p ↦ ?_, fun p ↦ ?_, rfl, rfl, rfl⟩
  all_goals
    dsimp only [setNext]
    by_cases hpq : p = q
    · simp [hpq, hqi, occupy_of_ne s first name hqi]
    · rw [update_of_ne hpq]
      by_cases hpi : p = i
      · simp [hpi, hqi.symm, occupy_self]
      · simp [hpq, hpi, occupy_of_ne s first name hpi]

section Plug

variable {first q : ℕ} {chain : ℕ → List ℕ} {name : Name}

theorem Chained.hole (h : Chained names s next idx (i :: holes) colls chain) :
    i < names.length ∧ (s.table i).name = none ∧ i ∉ holes ∧ next i = holes.head? ∧
      PtrPath next holes.head? holes := by
  obtain ⟨hi, hfree⟩ := (h.mem_holes i).1 mem_cons_self
  have hpath : PtrPath next (next i) holes := by
    cases h.free with
    | cons h => exact h
  have hhead : next i = holes.head? := by
    generalize next i = o at hpath
    cases hpath <;> rfl
  rw [hhead] at hpath
  exact ⟨hi, hfree, (nodup_cons.1 h.free.nodup).1, hhead, hpath⟩

theorem Chained.collision (h : Chained names s next idx holes (first :: colls) chain) :
    first < names.length ∧ first ∉ colls ∧ idx first = colls.head? ∧
      PtrPath idx colls.head? colls := by
  have hpath : PtrPath idx (idx first) colls := by
    cases h.path with
    | cons h => exact h
  have hhead : idx first = colls.head? := by
    generalize idx first = o at hpath
    cases hpath <;> rfl
  rw [hhead] at hpath
  exact ⟨h.collided first mem_cons_self, (nodup_cons.1 h.path.nodup).1, hhead, hpath⟩

theorem Chained.exists_last (h : Chained names s next idx holes colls chain) (hmem : name ∈ names) :
    ∃ l q, chain (ptrHash name names.length) = l ++ [q] := by
  have hpath := h.chain_path name hmem
  rcases eq_nil_or_concat (chain (ptrHash name names.length)) with hnil | ⟨l, q, hl⟩
  · rw [hnil] at hpath
    cases hpath
  · exact ⟨l, q, by rw [hl, concat_eq_append]⟩

theorem Chained.notMem_holes {nm : Name} {p : ℕ} (h : Chained names s next idx holes colls chain)
    (hmem : nm ∈ names) (hp : p ∈ chain (ptrHash nm names.length)) : p ∉ holes := by
  intro hmem'
  obtain ⟨-, nm', hnm', -⟩ := (h.mem_chain nm hmem p).1 hp
  rw [((h.mem_holes p).1 hmem').2] at hnm'
  cases hnm'

theorem Chained.disjoint {a b : Name} {p : ℕ} (h : Chained names s next idx holes colls chain)
    (ha : a ∈ names) (hb : b ∈ names) (hp : p ∈ chain (ptrHash a names.length))
    (hp' : p ∈ chain (ptrHash b names.length)) :
    ptrHash a names.length = ptrHash b names.length := by
  obtain ⟨-, nm, hnm, heq⟩ := (h.mem_chain a ha p).1 hp
  obtain ⟨-, nm', hnm', heq'⟩ := (h.mem_chain b hb p).1 hp'
  obtain rfl := some.inj (hnm.symm.trans hnm')
  exact heq.symm.trans heq'

/-- The functions that have slots, when `first` has been put into the slot `i`. -/
theorem Holds.plugged {s' : Filling} (h : Holds names names.length (first :: colls) s.table idx)
    (hp : Plugged s s' i first q name) (hname : names[first]? = some name)
    (hle : names.length ≤ 2 ^ 15) (hi : i < names.length) (hfree : (s.table i).name = none)
    (hfirst : first ∉ colls) :
    Holds names names.length colls s'.table (update idx first (some i)) := by
  have hlt : first < names.length := (List.getElem?_eq_some_iff.1 hname).1
  refine ⟨fun j hj hmem ↦ ?_, fun p hplt hocc ↦ ?_⟩
  · by_cases hjf : j = first
    · refine ⟨i, hi, by rw [hjf, update_self], ?_, ?_⟩
      · rw [hp.name, if_pos rfl, hjf, hname]
      · rw [hp.funcIndex, if_pos rfl, hjf, toInt_toShort (hlt.trans_le hle)]
    · obtain ⟨p, hplt, hjp, hpname, hpidx⟩ := h.placed j hj (by simp [hjf, hmem])
      have hpi : p ≠ i := by
        rintro rfl
        rw [hfree] at hpname
        exact absurd hpname.symm (by simp [hj])
      refine ⟨p, hplt, ?_, ?_, ?_⟩
      · rw [update_of_ne hjf, hjp]
      · rw [hp.name, if_neg hpi, hpname]
      · rw [hp.funcIndex, if_neg hpi, hpidx]
  · by_cases hpi : p = i
    · exact ⟨first, hlt, hfirst, by rw [hpi, update_self]⟩
    · rw [hp.name, if_neg hpi] at hocc
      obtain ⟨j, hj, hmem, hjp⟩ := h.occupied p hplt hocc
      rw [mem_cons, not_or] at hmem
      exact ⟨j, hj, hmem.2, by rw [update_of_ne hmem.1, hjp]⟩

/-- **One round keeps the invariant**: the slot `i` is now the last one of the chain that ended
with `q`. -/
theorem Chained.plugged {s' : Filling}
    (h : Chained names s next idx (i :: holes) (first :: colls) chain)
    (hp : Plugged s s' i first q name) (hname : names[first]? = some name)
    (hle : names.length ≤ 2 ^ 15) (hl : chain (ptrHash name names.length) = l ++ [q]) :
    Chained names s' (update (update next i none) q (some i))
      (update idx first (some i)) holes colls
      fun p ↦ if p = ptrHash name names.length then l ++ [q, i] else chain p := by
  obtain ⟨hi, hfree, hiholes, hnexti, hholes⟩ := h.hole
  obtain ⟨hfirst, hfirst', hidx, hcolls⟩ := h.collision
  have hmem := mem_of_getElem? hname
  have hqchain : q ∈ chain (ptrHash name names.length) := by simp [hl]
  have hnot {nm : Name} {p : ℕ} (hnm : nm ∈ names) (hpc : p ∈ chain (ptrHash nm names.length)) :
      p ≠ i := fun hpi ↦ h.notMem_holes hnm hpc (by simp [hpi])
  have hqi : q ≠ i := hnot hmem hqchain
  refine ⟨h.holds.plugged hp hname hle hi hfree hfirst', fun p hplt ↦ ?_, fun j hj ↦ ?_, ?_, ?_,
    fun p ↦ ?_, hcolls.update hfirst', ?_, fun j hj ↦ h.collided j (mem_cons_of_mem first hj),
    fun nm hnm ↦ ?_, fun nm hnm p ↦ ?_, by simpa using h.length_eq⟩
  · rw [hp.next]
    by_cases hpq : p = q
    · rw [if_pos hpq, hpq, update_self, ref_some, toInt_toShort (hi.trans_le hle)]
    · rw [if_neg hpq, update_of_ne hpq]
      by_cases hpi : p = i
      · simp [hpi]
      · rw [if_neg hpi, update_of_ne hpi, h.next_eq p hplt]
  · rw [hp.hashIdx]
    by_cases hjf : j = first
    · rw [hjf, update_self, update_self, ref_some,
        toInt_toShort (hi.trans_le hle)]
    · rw [update_of_ne hjf, update_of_ne hjf, h.idx_eq j hj]
  · exact (hholes.update hiholes).update fun hq ↦
      h.notMem_holes hmem hqchain (mem_cons_of_mem i hq)
  · rw [hp.firstHole, h.next_eq i hi, hnexti]
  · rw [hp.name]
    by_cases hpi : p = i
    · simp [hpi, hiholes]
    · have := h.mem_holes p
      rw [mem_cons, or_iff_right hpi] at this
      rw [if_neg hpi, this]
  · rw [hp.firstCollision, h.idx_eq first hfirst, hidx]
  · by_cases hh : ptrHash nm names.length = ptrHash name names.length
    · rw [if_pos hh, hh]
      have hpath := h.chain_path name hmem
      rw [hl] at hpath
      have hlast : PtrPath (update next i none) (some i) [i] := by
        refine .cons ?_
        rw [update_self]
        exact .nil
      exact (hpath.update fun hmem' ↦ hnot hmem (by rwa [hl]) rfl).redirect hlast
        (by simpa using hqi)
    · rw [if_neg hh]
      exact ((h.chain_path nm hnm).update fun hi' ↦ hnot hnm hi' rfl).update fun hq ↦
        hh (h.disjoint hnm hmem hq hqchain)
  · by_cases hpi : p = i
    · subst hpi
      rw [hp.name, if_pos rfl]
      by_cases hh : ptrHash nm names.length = ptrHash name names.length
      · rw [if_pos hh, hh]
        simp [hi]
      · rw [if_neg hh, h.mem_chain nm hnm p, hfree]
        refine iff_of_false (by simp) ?_
        rintro ⟨-, nm', hnm', heq⟩
        obtain rfl := some.inj hnm'
        exact hh heq.symm
    · rw [hp.name, if_neg hpi, ← h.mem_chain nm hnm p]
      by_cases hh : ptrHash nm names.length = ptrHash name names.length
      · rw [if_pos hh, hh, hl]
        simp [hpi]
      · rw [if_neg hh]

/-- **A collision goes to the first free slot**, and to the end of the chain of its own. -/
theorem plug_spec {fuel : ℕ} (h : Chained names s next idx holes (first :: colls) chain)
    (hle : names.length ≤ 2 ^ 15) (hfuel : names.length < fuel) :
    ∃ s' next' idx' holes' chain', s.plug fuel names = some s' ∧
      Chained names s' next' idx' holes' colls chain' := by
  have hfirst := h.collided first mem_cons_self
  have hname : names[first]? = some names[first] := List.getElem?_eq_getElem hfirst
  have hmem := mem_of_getElem? hname
  obtain ⟨i, holes, rfl⟩ : ∃ i t, holes = i :: t :=
    exists_cons_of_length_eq_add_one h.length_eq
  obtain ⟨l, q, hl⟩ := h.exists_last hmem
  have hpath := h.chain_path _ hmem
  rw [hl] at hpath
  have hin {r : ℕ} (hr : r ∈ l ++ [q]) : r < names.length ∧ r ≠ i :=
    ⟨h.lt_of_mem_chain hmem (by rwa [hl]),
      fun hri ↦ h.notMem_holes hmem (hl ▸ hr) (by simp [hri])⟩
  have hend : chainEnd names.length (s.occupy i first names[first]).table fuel
      (ptrHash names[first] names.length) = some q := by
    refine chainEnd_spec hpath (fun r hr ↦ (hin hr).1) (fun r hr ↦ ?_) ?_
    · rw [occupy_of_ne s first _ (hin hr).2, h.next_eq r (hin hr).1]
    · have := length_le_of_path hpath fun r hr ↦ (hin hr).1
      rw [length_append, length_singleton] at this
      omega
  have hi' : inside names.length s.firstHole = some i := by
    rw [h.firstHole]
    exact inside_natCast h.hole.1
  have hfirst' : inside names.length s.firstCollision = some first := by
    rw [h.firstCollision]
    exact inside_natCast hfirst
  refine ⟨_, _, _, _, _, ?_, h.plugged (plugged (hin (r := q) (by simp)).2) hname hle hl⟩
  simp only [plug, hi', hfirst', hname, hend, bind_eq_bind, bind_some]

end Plug

/-- **The second pass**, by induction on the collisions that are left. -/
theorem plugAll_spec {fuel rounds : ℕ} {chain : ℕ → List ℕ}
    (h : Chained names s next idx holes colls chain) (hle : names.length ≤ 2 ^ 15)
    (hfuel : names.length < fuel) (hrounds : colls.length < rounds) :
    ∃ s' next' idx' chain', s.plugAll fuel names rounds = some s' ∧
      Chained names s' next' idx' [] [] chain' := by
  induction colls generalizing s next idx holes chain rounds with
  | nil =>
    obtain ⟨rounds, rfl⟩ := Nat.exists_eq_succ_of_ne_zero (Nat.ne_zero_of_lt hrounds)
    obtain rfl := length_eq_zero_iff.1 h.length_eq
    exact ⟨s, next, idx, chain, if_pos h.firstCollision, h⟩
  | cons first colls ih =>
    obtain ⟨rounds, rfl⟩ := Nat.exists_eq_succ_of_ne_zero (Nat.ne_zero_of_lt hrounds)
    obtain ⟨s', next', idx', holes', chain', hs', h'⟩ := plug_spec h hle hfuel
    rw [plugAll, if_neg (by rw [h.firstCollision]; simp), hs']
    exact ih h' (Nat.lt_of_succ_lt_succ hrounds)

end Filling

/-! ### What is found -/

section Select

variable {n : ℕ} {table : ℕ → FunctionHash} {next : ℕ → Option ℕ} {o : Option ℕ} {l : List ℕ}
  {name : Name}

theorem select_spec {fuel : ℕ} (h : PtrPath next o l) (hlt : ∀ p ∈ l, p < n)
    (hnext : ∀ p ∈ l, (table p).nextHashedFunction.toInt = ref (next p)) (hfuel : l.length < fuel)
    (stray : ℤ → Option Name) :
    select stray n table name fuel (ref o) =
      some (ref (l.find? fun p ↦ (table p).name = some name)) := by
  induction h generalizing fuel with
  | nil =>
    obtain ⟨fuel, rfl⟩ := Nat.exists_eq_succ_of_ne_zero (Nat.ne_zero_of_lt hfuel)
    simp [select, nameAt]
  | @cons p l h ih =>
    obtain ⟨fuel, rfl⟩ := Nat.exists_eq_succ_of_ne_zero (Nat.ne_zero_of_lt hfuel)
    have hp : inside n p = some p := inside_natCast (hlt p mem_cons_self)
    have hname : nameAt stray n table (ref (some p)) = some (table p).name := by
      rw [nameAt, ref_some, if_neg (Int.natCast_nonneg p).not_gt, hp, map_some]
    rw [select, hname, bind_eq_bind, bind_some, List.find?_cons]
    by_cases hfound : (table p).name = some name
    · rw [if_neg fun h ↦ h.1 hfound.symm, decide_eq_true hfound]
    · rw [if_pos ⟨fun h ↦ hfound h.symm, Int.natCast_nonneg p⟩, decide_eq_false hfound, ref_some,
        hp, bind_eq_bind, bind_some, hnext p mem_cons_self]
      exact ih (fun q hq ↦ hlt q (mem_cons_of_mem p hq))
        (fun q hq ↦ hnext q (mem_cons_of_mem p hq)) (Nat.lt_of_succ_lt_succ hfuel)

theorem lookup_spec {fuel : ℕ} (h : PtrPath next (some (ptrHash name n)) l)
    (hlt : ∀ p ∈ l, p < n) (hnext : ∀ p ∈ l, (table p).nextHashedFunction.toInt = ref (next p))
    (hfuel : n < fuel) (stray : ℤ → Option Name) :
    lookup fuel stray n table name =
      some ((l.find? fun p ↦ (table p).name = some name).map
        fun p ↦ (table p).funcIndex.toInt) := by
  have hpos : n ≠ 0 := by
    cases h with
    | cons h => exact (Nat.zero_lt_of_lt (hlt _ mem_cons_self)).ne'
  have hlen := Filling.length_le_of_path h hlt
  rw [lookup, if_neg hpos, ← ref_some, select_spec h hlt hnext (by omega) stray,
    bind_eq_bind, bind_some]
  cases hfind : l.find? fun p ↦ (table p).name = some name with
  | none => simp
  | some p =>
    have hp := hlt p (mem_of_find?_eq_some hfind)
    simp [inside_natCast hp]

end Select

namespace Filling

variable {names : List Name} {s : Filling} {next idx : ℕ → Option ℕ} {chain : ℕ → List ℕ}

theorem Chained.findsEvery (h : Chained names s next idx [] [] chain) (hnodup : names.Nodup) :
    FindsEvery names s.table s.hashIdx := by
  have hpath {name : Name} (hmem : name ∈ names) : PtrPath (nextSlot s.table)
      (some (ptrHash name names.length)) (chain (ptrHash name names.length)) :=
    (h.chain_path name hmem).congr fun p hp ↦ nextSlot_eq (h.next_eq p (h.lt_of_mem_chain hmem hp))
  have hfull {p : ℕ} (hp : p < names.length) : (s.table p).name ≠ none := fun hnone ↦
    absurd ((h.mem_holes p).2 ⟨hp, hnone⟩) not_mem_nil
  have hplaced {j : ℕ} (hj : j < names.length) := h.holds.placed j hj not_mem_nil
  have hmem_of {q : ℕ} {name : Name} (hq : q < names.length)
      (hname : (s.table q).name = some name) :
      ∃ j < names.length, idx j = some q ∧ names[j]? = some name := by
    obtain ⟨j, hj, -, hjq⟩ := h.holds.occupied q hq (by simp [hname])
    obtain ⟨q', -, hjq', hname', -⟩ := hplaced hj
    obtain rfl := some.inj (hjq.symm.trans hjq')
    exact ⟨j, hj, hjq, hname'.symm.trans hname⟩
  have hfound : ∀ (i : ℕ) (name : Name), names[i]? = some name → ∃ p,
      Found names.length s.table s.hashIdx i name (chain (ptrHash name names.length)) p := by
    intro i name hname
    have hi : i < names.length := (List.getElem?_eq_some_iff.1 hname).1
    have hmem := mem_of_getElem? hname
    obtain ⟨p, hp, hip, hpname, hpidx⟩ := hplaced hi
    rw [hname] at hpname
    refine ⟨p, hpath hmem, fun q hq ↦ h.lt_of_mem_chain hmem hq,
      (h.mem_chain name hmem p).2 ⟨hp, name, hpname, rfl⟩, fun q hq ↦ ⟨fun hqname ↦ ?_, ?_⟩, hpidx,
      by rw [h.idx_eq i hi, hip, ref_some]⟩
    · obtain ⟨j, hj, hjq, hjname⟩ := hmem_of hq hqname
      obtain rfl : j = i := (List.Nodup.getElem_inj_iff hnodup).1 (by
        rw [List.getElem?_eq_getElem hj] at hjname
        rw [List.getElem?_eq_getElem hi] at hname
        exact some.inj (hjname.trans hname.symm))
      exact some.inj (hjq.symm.trans hip)
    · rintro rfl
      exact hpname
  refine ⟨fun i name hname ↦ ⟨_, hfound i name hname⟩, fun a ha b hb hne l l' hl hl' ↦ ?_,
    fun i name hname fuel hfuel stray ↦ ?_, fun name hmem fuel hfuel stray ↦ ?_⟩
  · obtain rfl := hl.unique (hpath ha)
    obtain rfl := hl'.unique (hpath hb)
    intro p hp hp'
    obtain ⟨-, nm, hnm, heq⟩ := (h.mem_chain a ha p).1 hp
    obtain ⟨-, nm', hnm', heq'⟩ := (h.mem_chain b hb p).1 hp'
    obtain rfl := some.inj (hnm.symm.trans hnm')
    exact hne (heq.symm.trans heq')
  · have hmem := mem_of_getElem? hname
    obtain ⟨p, hp⟩ := hfound i name hname
    rw [lookup_spec (h.chain_path name hmem) hp.lt_size
      (fun q hq ↦ h.next_eq q (hp.lt_size q hq)) hfuel]
    cases hfind : (chain (ptrHash name names.length)).find?
        fun p ↦ (s.table p).name = some name with
    | none =>
      have := List.find?_eq_none.1 hfind p hp.mem_chain
      have hpname := (hp.unique p (hp.lt_size p hp.mem_chain)).2 rfl
      simp [hpname] at this
    | some q =>
      have hq : (s.table q).name = some name := by simpa using List.find?_some hfind
      obtain rfl := (hp.unique q (hp.lt_size q (mem_of_find?_eq_some hfind))).1 hq
      exact congrArg (fun i ↦ some (some i)) hp.funcIndex
  · rcases Nat.eq_zero_or_pos names.length with hzero | hpos
    · rw [lookup, if_pos hzero]
    · have hslot := ptrHash_lt name hpos
      obtain ⟨nm, hnm⟩ := ne_none_iff_exists'.1 (hfull hslot)
      obtain ⟨j, -, -, hj⟩ := hmem_of hslot hnm
      have hnm' := mem_of_getElem? hj
      -- the slot may be in the chain of another one
      have hin : ptrHash name names.length ∈ chain (ptrHash nm names.length) :=
        (h.mem_chain nm hnm' _).2 ⟨hslot, nm, hnm, rfl⟩
      obtain ⟨l, l', hl⟩ := append_of_mem hin
      have hrest := h.chain_path nm hnm'
      rw [hl] at hrest
      have hlt {q : ℕ} (hq : q ∈ ptrHash name names.length :: l') : q < names.length :=
        h.lt_of_mem_chain hnm' (by
          rw [hl]
          exact mem_append_right l hq)
      rw [lookup_spec (.cons hrest.drop) (fun q hq ↦ hlt hq) (fun q hq ↦ h.next_eq q (hlt hq))
        hfuel]
      rw [List.find?_eq_none.2 fun q hq hqname ↦ ?_]
      · rfl
      · obtain ⟨k, -, -, hk⟩ := hmem_of (hlt hq) (by simpa using hqname)
        exact hmem (mem_of_getElem? hk)

end Filling

/-- `hash_func` returns a table that finds every function, when it has enough rounds. -/
def Finds (names : List Name) (table : ℕ → FunctionHash) (hashIdx : ℕ → BitVec 16) : Prop :=
  ∃ rounds, ∀ fuel > rounds, ∃ t, hashFunc fuel names table hashIdx = some t ∧
    FindsEvery names t.1 t.2

section Finds

variable {names : List Name} (table : ℕ → FunctionHash) (hashIdx : ℕ → BitVec 16)

theorem finds_of_le (hnodup : names.Nodup) (hle : names.length ≤ 2 ^ 15) :
    Finds names table hashIdx := by
  refine ⟨names.length, fun fuel hfuel ↦ ?_⟩
  rcases Nat.eq_zero_or_pos names.length with hzero | hpos
  · obtain rfl := length_eq_zero_iff.1 hzero
    exact ⟨_, if_pos rfl, nofun, nofun, nofun, fun _ _ _ _ _ ↦ if_pos rfl⟩
  · obtain ⟨s, hs, prev, next, idx, holes, colls, hspread⟩ := Filling.hashAll_spec []
      hle (Filling.isSpread_prepare table hashIdx hpos hle)
    have hchained := hspread.chained
    have hrounds : colls.length < fuel :=
      (Filling.length_le_of_path hchained.path hchained.collided).trans_lt hfuel
    obtain ⟨s', next', idx', chain', hs', h'⟩ :=
      Filling.plugAll_spec hchained hle hfuel hrounds
    refine ⟨(s'.table, s'.hashIdx), ?_, h'.findsEvery hnodup⟩
    rw [nil_append, length_nil] at hs
    rw [nil_append] at hs'
    rw [hashFunc, if_neg hpos.ne', hs, bind_eq_bind, bind_some, hs']
    rfl

theorem not_finds (hlt : 2 ^ 15 < names.length) : ¬Finds names table hashIdx := by
  rintro ⟨rounds, hrounds⟩
  obtain ⟨t, -, ht⟩ := hrounds (rounds + 1) (Nat.lt_succ_self rounds)
  obtain ⟨chain, p, hp⟩ := ht.found _ _ (List.getElem?_eq_getElem hlt)
  have hidx := hp.funcIndex
  have := BitVec.toInt_lt (x := (t.1 p).funcIndex)
  omega

/-- **When every function is found.** -/
theorem finds_iff (hnodup : names.Nodup) : Finds names table hashIdx ↔ names.length ≤ 2 ^ 15 :=
  ⟨fun h ↦ Nat.le_of_not_lt fun hlt ↦ not_finds table hashIdx hlt h,
    finds_of_le table hashIdx hnodup⟩

end Finds

/-- Three functions, the first two of them with the same slot. -/
theorem finds_iff_collision :
    Finds [⟨8, by decide⟩, ⟨32, by decide⟩, ⟨16, by decide⟩] (fun _ ↦ ⟨none, 0, 0⟩) (fun _ ↦ 0) ↔
      3 ≤ 2 ^ 15 :=
  finds_iff _ _ (by decide)

/-- The names of `2 ^ 15 + 1` functions, eight bytes apart. -/
def manyNames : List Name :=
  (List.finRange (2 ^ 15 + 1)).map fun i ↦ ⟨.ofNat 64 (8 * (i.val + 1)), fun h ↦ by
    have hzero : 8 * (i.val + 1) % 2 ^ 64 = 0 := by simpa using congrArg BitVec.toNat h
    omega⟩

/-- The index of the last of these functions is stored as -32768. -/
theorem not_finds_many :
    manyNames.Nodup ∧ ¬Finds manyNames (fun _ ↦ ⟨none, 0, 0⟩) (fun _ ↦ 0) := by
  refine ⟨(nodup_finRange _).map fun i j hij ↦ ?_, not_finds _ _ (by simp [manyNames])⟩
  have h := congrArg BitVec.toNat (congrArg Subtype.val hij)
  simp only [BitVec.toNat_ofNat] at h
  omega

end Lpmud.Functions
