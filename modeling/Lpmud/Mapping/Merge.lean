import Lpmud.Mapping.Sound

/-!
# Adding mappings to mappings

What a loop of assignments makes of a mapping (`assignAll_live`), for keys of every kind that are
alive: a key that is found gets its value, and another one is added, until the table cannot be
extended any more. A float that is not a number is never found, so it is added every time.

`+` puts the pairs of both mappings into a new one, `+=` those of the second one into the first one
(`addMapping_spec`, `addtoMapping_spec`). They have the same pairs in the end, but the new table may
be larger than the first one can get.
-/

namespace Lpmud.Mapping

open List

variable {w : World} {m m' : Mapping} {a k v : Svalue}

/-! ### Keys that are alive -/

theorem distinct_of_perm {ps qs : List Apair} (hperm : ps.Perm qs)
    (hps : ∀ p ∈ ps, w.dead p.arg = false)
    (h : ps.Pairwise fun p q ↦ equalSvalue w p.arg q.arg = false) :
    qs.Pairwise fun p q ↦ equalSvalue w p.arg q.arg = false := by
  have hlive : Distinct w (ps.map Apair.arg) := pairwise_map.2 (h.imp fun hne _ _ ↦ hne)
  exact (pairwise_map.1 (hlive.perm (hperm.map _))).imp_of_mem fun hp hq hne ↦
    hne (hps _ (hperm.mem_iff.2 hp)) (hps _ (hperm.mem_iff.2 hq))

/-- A mapping whose keys are alive, no two of them equal. -/
structure Live (w : World) (m : Mapping) : Prop extends Filled m where
  dead : ∀ p ∈ m.stored, w.dead p.arg = false
  distinct : m.stored.Pairwise fun p q ↦ equalSvalue w p.arg q.arg = false

/-- How many pairs a mapping can have before an error is raised: the table is extended up to 4096
buckets. -/
def capacity (m : Mapping) : ℕ :=
  max m.mcard (fsize 4096)

theorem fsize_4096 : fsize 4096 = 10240 := by
  simp only [fsize, FILL_FACTOR]

theorem fsize_8192 : fsize 8192 = 20480 := by
  simp only [fsize, FILL_FACTOR]

theorem fsize_le {i j : ℕ} (h : i ≤ j) : fsize i ≤ fsize j := by
  simp only [fsize, FILL_FACTOR]
  omega

theorem Shape.capacity_eq (h : m.Shape) (hsize : m.size ≤ 4096) : m.capacity = fsize 4096 := by
  rw [capacity, h.mcard]
  exact max_eq_right (fsize_le hsize)

theorem Shape.capacity_le (h : m.Shape) : m.capacity ≤ 20480 :=
  max_le h.mcard_le (by rw [fsize_4096]; omega)

theorem Shape.capacity_eq_mcard (h : m.Shape) (hsize : 2048 < m.size) : m.capacity = m.mcard := by
  obtain ⟨k, -, hk⟩ := h.size
  have hlt : 11 < k := (Nat.pow_lt_pow_iff_right (a := 2) (by decide)).1 (hk ▸ hsize)
  have hle : 2 ^ 12 ≤ 2 ^ k := Nat.pow_le_pow_right (by decide) hlt
  rw [capacity, h.mcard]
  exact max_eq_left (fsize_le (hk ▸ hle))

/-- **Assigning to a key that is not found** adds a pair, if the mapping can have one more. -/
theorem Filled.assign_new (hm : m.Filled) (hnew : m.found w k = false) :
    (short (m.stored.length + 1 : ℕ) ≤ m.capacity ∧
      ∃ m', m.assign w k v = .ok m' ∧ m'.Filled ∧ m'.capacity = m.capacity ∧
        m'.stored.Perm (⟨k, v, hashsvalue k⟩ :: m.stored)) ∨
    (m.capacity < short (m.stored.length + 1 : ℕ) ∧ ∃ m', m.assign w k v = .error m') := by
  have hfind : findPair w (hashsvalue k) k (fun _ ↦ v) (m.pairs (slot m.size (hashsvalue k))) =
      none := by
    rw [← Option.isNone_iff_eq_none, ← Option.not_isSome, findPair_isSome]
    exact congrArg (!·) hnew
  have hmcard := hm.mcard
  have hmax := hm.toShape.mcard_le
  rcases hm.toShape.getMapLvalue_new hfind with
    ⟨m', herr, -, -, -, hlarge, hover⟩ | ⟨m', hok, hgrown⟩
  · -- a table that cannot be extended is full
    have hcap := hm.toShape.capacity_eq_mcard hlarge
    exact .inr ⟨hcap ▸ hover, m', herr⟩
  left
  have hlen' : m'.stored.length = m.stored.length + 1 := hgrown.stored.length_eq
  have hmcard' := hgrown.shape.mcard
  rcases hgrown.size with ⟨hroom, hsize⟩ | ⟨-, hsmall, hsize⟩
  · have hcap : m'.capacity = m.capacity := by rw [capacity, capacity, hmcard', hsize, ← hmcard]
    have hle : m.mcard ≤ m.capacity := le_max_left ..
    refine ⟨by omega, m', hok, ⟨hgrown.shape, fun hsmall ↦ ?_⟩, hcap, hgrown.stored⟩
    have hfill := hm.fill (hsize ▸ hsmall)
    rw [short_eq (by omega)] at hroom
    rw [hsize, ← hmcard] at hmcard'
    omega
  · have hfill := hm.fill hsmall
    have hlt := fsize_lt hm.toShape.size_pos
    have hcap := hm.toShape.capacity_eq (by omega)
    have hcap' := hgrown.shape.capacity_eq (by omega)
    have hle := fsize_le hsmall
    rw [← hsize, ← hmcard, ← hmcard'] at hlt
    rw [← hmcard] at hle
    have hroom : short (m.stored.length + 1 : ℕ) ≤ m.capacity := by
      rw [hcap, short_eq (by omega)]
      simp only [fsize, FILL_FACTOR] at hle ⊢
      omega
    exact ⟨hroom, m', hok, ⟨hgrown.shape, fun _ ↦ by omega⟩, hcap'.trans hcap.symm, hgrown.stored⟩

/-- **A loop of assignments to keys that are not found** adds all of them, if there is room. -/
theorem Filled.assignAll_new {ps : List (Svalue × Svalue)} :
    ∀ {m : Mapping}, m.Filled → m.stored.length + ps.length ≤ m.capacity →
      (∀ p ∈ ps, ∀ e ∈ m.keys, sameKey w p.1 e = false) →
      ps.Pairwise (fun p q ↦ sameKey w q.1 p.1 = false) →
      ∃ m', Mapping.assignAll w m ps = .ok m' ∧
        (entries m'.stored).Perm (ps ++ entries m.stored) := by
  induction ps with
  | nil => exact fun _ _ _ _ ↦ ⟨_, rfl, .refl _⟩
  | cons p ps ih =>
    intro m hm hlen hnew hdistinct
    obtain ⟨k, v⟩ := p
    obtain ⟨hhead, hdistinct⟩ := pairwise_cons.1 hdistinct
    rw [length_cons] at hlen
    have hfound : m.found w k = false := by
      rw [hm.toShape.found_eq, any_eq_false]
      intro e he
      rw [hnew _ mem_cons_self e he]
      exact Bool.false_ne_true
    have hmax := hm.toShape.capacity_le
    rcases hm.assign_new (v := v) hfound with ⟨-, m₁, hok, h₁, hcap, hperm⟩ | ⟨hover, -⟩
    · have hlen₁ := hperm.length_eq
      rw [length_cons] at hlen₁
      obtain ⟨m', hok', hperm'⟩ := ih h₁ (by omega) (fun q hq e he ↦ by
        rcases mem_cons.1 ((hperm.map Apair.arg).mem_iff.1 he) with rfl | he
        · exact hhead q hq
        · exact hnew q (mem_cons_of_mem _ hq) e he) hdistinct
      refine ⟨m', ?_, ?_⟩
      · rw [Mapping.assignAll, hok]
        exact hok'
      · refine hperm'.trans (((hperm.map _).append_left ps).trans ?_)
        exact perm_middle
    · rw [short_eq (by omega)] at hover
      omega

/-- The pair of an equal key gets the value. -/
def setEqual (w : World) (k v : Svalue) (p : Apair) : Apair :=
  if equalSvalue w k p.arg then { p with val := v } else p

theorem setEqual_index (w : World) (k v : Svalue) (p : Apair) :
    index (setEqual w k v p) = index p := by
  rw [setEqual]
  split <;> rfl

theorem map_setEqual_of_forall {ps : List Apair} (hps : ∀ p ∈ ps, equalSvalue w k p.arg = false) :
    ps.map (setEqual w k v) = ps :=
  (map_congr_left fun p hp ↦ if_neg (by simp [hps p hp])).trans ps.map_id

theorem findPair_of_equal (hk : w.dead k = false) {ps : List Apair}
    (hps : ∀ p ∈ ps, w.dead p.arg = false ∧ p.hashval = hashsvalue p.arg)
    (hdistinct : ps.Pairwise fun p q ↦ equalSvalue w p.arg q.arg = false)
    (hmem : ∃ p ∈ ps, equalSvalue w k p.arg = true) :
    findPair w (hashsvalue k) k (fun _ ↦ v) ps = some (ps.map (setEqual w k v)) := by
  induction ps with
  | nil => simp at hmem
  | cons p ps ih =>
    obtain ⟨hp, hhash⟩ := hps p mem_cons_self
    obtain ⟨hhead, hdistinct⟩ := pairwise_cons.1 hdistinct
    rw [findPair, map_cons, setEqual]
    cases hequal : equalSvalue w k p.arg with
    | true =>
      have hfound : p.hashval = hashsvalue k :=
        hhash.trans (hashsvalue_of_equalSvalue hk hp hequal).symm
      have hrest : ∀ q ∈ ps, equalSvalue w k q.arg = false := fun q hq ↦ by
        rw [Bool.eq_false_iff]
        intro hkq
        have hpq := equalSvalue_trans hp hk (hps q (mem_cons_of_mem p hq)).1
          (equalSvalue_symm hk hp hequal) hkq
        rw [hhead q hq] at hpq
        cases hpq
      rw [if_pos (by simp [hfound]), if_pos rfl, map_setEqual_of_forall hrest]
    | false =>
      have hrest : ∃ q ∈ ps, equalSvalue w k q.arg = true := by
        obtain ⟨q, hq, hkq⟩ := hmem
        rcases mem_cons.1 hq with rfl | hq
        · rw [hequal] at hkq
          cases hkq
        · exact ⟨q, hq, hkq⟩
      rw [if_neg (by simp), if_neg Bool.false_ne_true,
        ih (fun q hq ↦ hps q (mem_cons_of_mem p hq)) hdistinct hrest]
      rfl

namespace Live

theorem mem_chain (hm : Live w m) (hk : w.dead k = false) {p : Apair} (hp : p ∈ m.stored)
    (hequal : equalSvalue w k p.arg = true) : p ∈ m.pairs (slot m.size (hashsvalue k)) := by
  obtain ⟨i, hi, hmem⟩ := Buckets.mem_elems.1 hp
  have hslot : slot m.size p.hashval = i := hm.toShape.placed i hi p hmem
  rwa [hashsvalue_of_equalSvalue hk (hm.dead p hp) hequal, ← hm.toShape.hash p hp, hslot]

theorem map (hm : Live w m) (m' : Mapping) {f : Apair → Apair} (hf : ∀ p, index (f p) = index p)
    (hsize : m'.size = m.size) (hmcard : m'.mcard = m.mcard) (hcard : m'.card = m.card)
    (hpairs : ∀ i < m.size, m'.pairs i = (m.pairs i).map f) :
    Live w m' ∧ m'.stored = m.stored.map f := by
  obtain ⟨hshape, hstored⟩ := hm.toShape.map hf hsize hmcard hcard hpairs
  have harg (p : Apair) : (f p).arg = p.arg := congrArg Prod.fst (hf p)
  refine ⟨⟨⟨hshape, fun hle ↦ ?_⟩, fun p hp ↦ ?_, ?_⟩, hstored⟩
  · rw [hstored, length_map, hmcard]
    exact hm.fill (hsize ▸ hle)
  · rw [hstored] at hp
    obtain ⟨q, hq, rfl⟩ := mem_map.1 hp
    rw [harg]
    exact hm.dead q hq
  · rw [hstored, pairwise_map]
    simpa only [harg] using hm.distinct

/-- **Assigning to a key that is there** changes the value of its pair. -/
theorem assign_old (hm : Live w m) (hk : w.dead k = false)
    (hold : ∃ p ∈ m.stored, equalSvalue w k p.arg = true) :
    ∃ m', m.assign w k v = .ok m' ∧ Live w m' ∧ m'.size = m.size ∧ m'.mcard = m.mcard ∧
      m'.stored = m.stored.map (setEqual w k v) := by
  have hslot := slot_lt hm.toShape.size_pos (hashsvalue k)
  obtain ⟨p, hp, hequal⟩ := hold
  have hmem {q : Apair} (hq : q ∈ m.pairs (slot m.size (hashsvalue k))) : q ∈ m.stored :=
    Buckets.mem_elems.2 ⟨_, hslot, hq⟩
  have hdistinct : (m.pairs (slot m.size (hashsvalue k))).Pairwise
      fun p q ↦ equalSvalue w p.arg q.arg = false := by
    refine hm.distinct.sublist ?_
    rw [stored, Buckets.elems, flatMap_def]
    exact sublist_flatten_of_mem (mem_map_of_mem (mem_range.2 hslot))
  have hfind := findPair_of_equal (v := v) hk
    (fun q hq ↦ ⟨hm.dead q (hmem hq), hm.toShape.hash q (hmem hq)⟩) hdistinct
    ⟨p, hm.mem_chain hk hp hequal, hequal⟩
  have hpairs : ∀ i < m.size, Function.update m.pairs (slot m.size (hashsvalue k))
      ((m.pairs (slot m.size (hashsvalue k))).map (setEqual w k v)) i =
      (m.pairs i).map (setEqual w k v) := by
    intro i hi
    rcases eq_or_ne i (slot m.size (hashsvalue k)) with rfl | hne
    · rw [Function.update_self]
    · -- the other chains do not have the key
      rw [Function.update_of_ne hne, map_setEqual_of_forall]
      intro q hq
      rw [Bool.eq_false_iff]
      intro hkq
      have hq' : q ∈ m.stored := Buckets.mem_elems.2 ⟨i, hi, hq⟩
      have hplaced : slot m.size q.hashval = i := hm.toShape.placed i hi q hq
      rw [hm.toShape.hash q hq', ← hashsvalue_of_equalSvalue hk (hm.dead q hq') hkq] at hplaced
      exact hne hplaced.symm
  obtain ⟨hlive, hstored⟩ := hm.map { m with pairs := Function.update m.pairs _ _ }
    (setEqual_index w k v) rfl rfl rfl hpairs
  exact ⟨_, by rw [assign, getMapLvalue, hfind], hlive, rfl, rfl, hstored⟩

/-- **Assigning to a key that is not there** adds a pair, if the mapping can have one more. -/
theorem assign_new (hm : Live w m) (hk : w.dead k = false)
    (hnew : ∀ p ∈ m.stored, equalSvalue w k p.arg = false) :
    (short (m.stored.length + 1 : ℕ) ≤ m.capacity ∧
      ∃ m', m.assign w k v = .ok m' ∧ Live w m' ∧ m'.capacity = m.capacity ∧
        m'.stored.Perm (⟨k, v, hashsvalue k⟩ :: m.stored)) ∨
    (m.capacity < short (m.stored.length + 1 : ℕ) ∧ ∃ m', m.assign w k v = .error m') := by
  have hfound : m.found w k = false := by
    rw [hm.toShape.found_eq, any_eq_false]
    intro e he hsame
    obtain ⟨p, hp, rfl⟩ := mem_map.1 he
    rw [sameKey, hnew p hp, Bool.and_false] at hsame
    cases hsame
  rcases hm.toFilled.assign_new (v := v) hfound with ⟨hroom, m', hok, hfilled, hcap, hperm⟩ | herr
  · have hdead : ∀ p ∈ m'.stored, w.dead p.arg = false := fun p hp ↦ by
      rcases mem_cons.1 (hperm.mem_iff.1 hp) with rfl | hp
      · exact hk
      · exact hm.dead p hp
    refine .inl ⟨hroom, m', hok, ⟨hfilled, hdead, ?_⟩, hcap, hperm⟩
    refine distinct_of_perm hperm.symm (fun p hp ↦ hdead p (hperm.mem_iff.2 hp)) ?_
    exact pairwise_cons.2 ⟨hnew, hm.distinct⟩
  · exact .inr herr

end Live

/-! ### Loops of assignments -/

/-- What the assignments of a list mean, one after the other. -/
def puts (w : World) (contents ps : List (Svalue × Svalue)) : List (Svalue × Svalue) :=
  ps.foldl (fun contents p ↦ put w contents p.1 p.2) contents

theorem put_perm {cs ds : List (Svalue × Svalue)} (h : cs.Perm ds) (k v : Svalue) :
    (put w cs k v).Perm (put w ds k v) := by
  rw [put, put, h.any_eq]
  split
  · exact h.map _
  · exact h.cons _

theorem puts_perm (ps : List (Svalue × Svalue)) : ∀ {cs ds : List (Svalue × Svalue)}, cs.Perm ds →
    (puts w cs ps).Perm (puts w ds ps) := by
  induction ps with
  | nil => exact fun h ↦ h
  | cons p ps ih => exact fun h ↦ ih (put_perm h p.1 p.2)

theorem length_le_put (cs : List (Svalue × Svalue)) (k v : Svalue) :
    cs.length ≤ (put w cs k v).length ∧ (put w cs k v).length ≤ cs.length + 1 := by
  rw [put]
  split
  · rw [length_map]
    exact ⟨le_rfl, Nat.le_succ _⟩
  · exact ⟨Nat.le_succ _, le_rfl⟩

theorem length_le_puts (w : World) (ps : List (Svalue × Svalue)) : ∀ cs : List (Svalue × Svalue),
    cs.length ≤ (puts w cs ps).length ∧ (puts w cs ps).length ≤ cs.length + ps.length := by
  induction ps with
  | nil => exact fun cs ↦ ⟨le_rfl, le_rfl⟩
  | cons p ps ih =>
    intro cs
    have hput := length_le_put (w := w) cs p.1 p.2
    have hputs := ih (put w cs p.1 p.2)
    rw [puts, foldl_cons, length_cons]
    rw [puts] at hputs
    omega

theorem puts_new {ps : List (Svalue × Svalue)} : ∀ {cs : List (Svalue × Svalue)},
    (∀ p ∈ ps, ∀ q ∈ cs, equalSvalue w p.1 q.1 = false) →
    ps.Pairwise (fun p q ↦ equalSvalue w q.1 p.1 = false) → puts w cs ps = ps.reverse ++ cs := by
  induction ps with
  | nil => exact fun _ _ ↦ rfl
  | cons p ps ih =>
    intro cs hnew hdistinct
    obtain ⟨hhead, hdistinct⟩ := pairwise_cons.1 hdistinct
    have hput : put w cs p.1 p.2 = p :: cs := by
      rw [put, if_neg]
      rw [any_eq_true]
      rintro ⟨q, hq, hequal⟩
      rw [hnew p mem_cons_self q hq] at hequal
      cases hequal
    rw [puts, foldl_cons, hput, reverse_cons, append_assoc]
    refine ih (fun q hq r hr ↦ ?_) hdistinct
    rcases mem_cons.1 hr with rfl | hr
    · exact hhead q hq
    · exact hnew q (mem_cons_of_mem p hq) r hr

/-- No key of a list is equal to the key of a pair. -/
def untouched (w : World) (ps : List (Svalue × Svalue)) (q : Svalue × Svalue) : Bool :=
  ps.all fun p ↦ !equalSvalue w p.1 q.1

theorem untouched_cons (w : World) (p : Svalue × Svalue) (ps : List (Svalue × Svalue))
    (q : Svalue × Svalue) :
    untouched w (p :: ps) q = (!equalSvalue w p.1 q.1 && untouched w ps q) :=
  all_cons

theorem length_le_puts' {ps : List (Svalue × Svalue)} : ∀ {cs : List (Svalue × Svalue)},
    (∀ p ∈ ps, w.dead p.1 = false) → (∀ q ∈ cs, w.dead q.1 = false) →
    ps.Pairwise (fun p q ↦ equalSvalue w p.1 q.1 = false) →
    ps.length + cs.countP (untouched w ps) ≤
      (puts w cs ps).length := by
  induction ps with
  | nil =>
    intro cs _ _ _
    rw [length_nil, Nat.zero_add]
    exact countP_le_length
  | cons p ps ih =>
    intro cs hps hcs hdistinct
    obtain ⟨hhead, hdistinct⟩ := pairwise_cons.1 hdistinct
    have hp := hps p mem_cons_self
    have htail : ∀ q ∈ ps, w.dead q.1 = false := fun q hq ↦ hps q (mem_cons_of_mem p hq)
    have hput : ∀ q ∈ put w cs p.1 p.2, w.dead q.1 = false := by
      intro q hq
      rw [put] at hq
      split at hq
      · obtain ⟨r, hr, rfl⟩ := mem_map.1 hq
        split <;> exact hcs r hr
      · rcases mem_cons.1 hq with rfl | hq
        · exact hp
        · exact hcs q hq
    -- nothing that is equal to the first key is equal to another one
    have hothers {q : Svalue × Svalue} (hq : w.dead q.1 = false)
        (hpq : equalSvalue w p.1 q.1 = true) : untouched w ps q = true := by
      refine all_eq_true.2 fun r hr ↦ ?_
      rw [Bool.not_eq_true', Bool.eq_false_iff]
      intro hrq
      have hpr := equalSvalue_trans hp hq (htail r hr) hpq (equalSvalue_symm (htail r hr) hq hrq)
      rw [hhead r hr] at hpr
      cases hpr
    have hrest := ih htail hput hdistinct
    change _ ≤ (puts w (put w cs p.1 p.2) ps).length
    have hmono (q : Svalue × Svalue) : untouched w (p :: ps) q = true → untouched w ps q = true :=
      fun h ↦ by
        rw [untouched_cons, Bool.and_eq_true] at h
        exact h.2
    have hcount : cs.countP (untouched w (p :: ps)) + 1 ≤
        (put w cs p.1 p.2).countP (untouched w ps) := by
      rw [put]
      split
      case isTrue hany =>
        obtain ⟨q, hq, hpq⟩ := any_eq_true.1 hany
        have hkey (r : Svalue × Svalue) :
            (if equalSvalue w p.1 r.1 then (r.1, p.2) else r).1 = r.1 := by split <;> rfl
        have hsame : untouched w ps ∘ (fun r ↦ if equalSvalue w p.1 r.1 then (r.1, p.2) else r) =
            untouched w ps := funext fun r ↦ by
          simp only [Function.comp_apply, untouched, hkey]
        rw [countP_map, hsame]
        obtain ⟨s, t, rfl⟩ := append_of_mem hq
        have hs := s.countP_mono_left fun q _ ↦ hmono q
        have ht := t.countP_mono_left fun q _ ↦ hmono q
        rw [countP_append, countP_append,
          countP_cons_of_pos (hothers (hcs q hq) hpq),
          countP_cons_of_neg (by simp [untouched_cons, hpq])]
        omega
      case isFalse =>
        have hnot : untouched w ps p = true := by
          refine all_eq_true.2 fun r hr ↦ ?_
          rw [Bool.not_eq_true', Bool.eq_false_iff]
          intro hrp
          have hpr := equalSvalue_symm (htail r hr) hp hrp
          rw [hhead r hr] at hpr
          cases hpr
        rw [countP_cons_of_pos hnot]
        exact Nat.succ_le_succ (cs.countP_mono_left fun q _ ↦ hmono q)
    rw [length_cons]
    omega

theorem length_entries (ps : List Apair) : (entries ps).length = ps.length :=
  length_map _

/-- A mapping can get `n` pairs: the number of pairs, as a `short`, does not get too large on the
way. -/
def Fits (m : Mapping) (n : ℕ) : Prop :=
  ∀ i : ℕ, m.stored.length < i → i ≤ n → short i ≤ m.capacity

theorem Shape.fits_iff (h : m.Shape) (hlen : m.stored.length < 32767) {n : ℕ} :
    m.Fits n ↔ n ≤ m.stored.length ∨ n ≤ m.capacity := by
  have hmax := h.capacity_le
  constructor
  · intro hfits
    by_contra hnot
    push Not at hnot
    have hover := hfits (max m.stored.length m.capacity + 1) (by omega) (by omega)
    rw [short_eq (by omega)] at hover
    omega
  · rintro hle i hlt hi
    rw [short_eq (by omega)]
    omega

/-- **A loop of assignments** makes of a mapping what its assignments mean, unless the table gets
too large. -/
theorem assignAll_live (ps : List (Svalue × Svalue)) : ∀ {m : Mapping}, Live w m →
    (∀ p ∈ ps, w.dead p.1 = false) →
    (m.Fits (puts w (entries m.stored) ps).length →
      ∃ m', assignAll w m ps = .ok m' ∧ (entries m'.stored).Perm (puts w (entries m.stored) ps)) ∧
    (¬m.Fits (puts w (entries m.stored) ps).length → ∃ m', assignAll w m ps = .error m') := by
  induction ps with
  | nil =>
    intro m _ _
    refine ⟨fun _ ↦ ⟨m, rfl, .refl _⟩, fun hnot ↦ absurd (fun i hlt hle ↦ ?_) hnot⟩
    rw [puts, foldl_nil, length_entries] at hle
    omega
  | cons p ps ih =>
    intro m hm hps
    obtain ⟨k, v⟩ := p
    have hk : w.dead k = false := hps (k, v) mem_cons_self
    have htail : ∀ p ∈ ps, w.dead p.1 = false := fun p hp ↦ hps p (mem_cons_of_mem _ hp)
    have hcons : puts w (entries m.stored) ((k, v) :: ps) =
        puts w (put w (entries m.stored) k v) ps := rfl
    rw [hcons]
    cases hany : (entries m.stored).any fun p ↦ equalSvalue w k p.1 with
    | true =>
      obtain ⟨q, hq, hequal⟩ := any_eq_true.1 hany
      obtain ⟨r, hr, rfl⟩ := mem_map.1 hq
      obtain ⟨m₁, hok, hm₁, hsize, hmcard, hstored⟩ := hm.assign_old (v := v) hk ⟨r, hr, hequal⟩
      have hput : put w (entries m.stored) k v = entries m₁.stored := by
        rw [put, if_pos hany, hstored, entries, entries, map_map, map_map]
        refine map_congr_left fun p _ ↦ ?_
        simp only [Function.comp_apply, setEqual]
        split <;> rfl
      have hfits (n : ℕ) : m.Fits n ↔ m₁.Fits n := by
        rw [Fits, Fits, capacity, capacity, hmcard, hstored, length_map]
      have hassign : assignAll w m ((k, v) :: ps) = assignAll w m₁ ps := by
        rw [assignAll, hok]
        rfl
      rw [hput, hassign, hfits]
      exact ih hm₁ htail
    | false =>
      have hnew : ∀ q ∈ m.stored, equalSvalue w k q.arg = false := fun q hq ↦ by
        rw [Bool.eq_false_iff]
        exact any_eq_false.1 hany (q.arg, q.val) (mem_map_of_mem hq)
      have hput : put w (entries m.stored) k v = (k, v) :: entries m.stored := by
        rw [put, if_neg (by simp [hany])]
      have hle := (length_le_puts w ps ((k, v) :: entries m.stored)).1
      rw [length_cons, length_entries] at hle
      rw [hput]
      rcases hm.assign_new (v := v) hk hnew with
        ⟨hroom, m₁, hok, hm₁, hcap, hperm⟩ | ⟨hfull, m₁, herr⟩
      · have hentries : (entries m₁.stored).Perm ((k, v) :: entries m.stored) := hperm.map _
        have hputs := puts_perm (w := w) ps hentries
        have hlen₁ : m₁.stored.length = m.stored.length + 1 := hperm.length_eq
        have hassign : assignAll w m ((k, v) :: ps) = assignAll w m₁ ps := by
          rw [assignAll, hok]
          rfl
        have hfits (n : ℕ) : m.Fits n ↔ m₁.Fits n := by
          rw [Fits, Fits, hcap, hlen₁]
          refine ⟨fun h i hlt ↦ h i (by omega), fun h i hlt ↦ ?_⟩
          rcases Nat.eq_or_lt_of_le hlt with rfl | hlt
          · exact fun _ ↦ hroom
          · exact h i hlt
        obtain ⟨hok', herr'⟩ := ih hm₁ htail
        rw [hputs.length_eq, ← hfits] at hok' herr'
        rw [hassign]
        refine ⟨fun hroom ↦ ?_, herr'⟩
        obtain ⟨m', hok', hperm'⟩ := hok' hroom
        exact ⟨m', hok', hperm'.trans hputs⟩
      · exact ⟨fun hfits ↦ absurd (hfits _ (Nat.lt_succ_self _) hle) (not_le.2 hfull),
          fun _ ↦ ⟨m₁, by rw [assignAll, herr]; rfl⟩⟩

/-! ### New tables -/

theorem live_allocateMap (w : World) (msize : ℤ) : Live w (allocateMap msize) := by
  have hnil := stored_allocateMap msize
  refine ⟨filled_allocateMap msize, fun p hp ↦ ?_, ?_⟩
  · rw [hnil] at hp
    exact absurd hp not_mem_nil
  · rw [hnil]
    exact .nil

theorem sizeLoop_large {u : ℕ} : ∀ i ≤ 13, ∀ n, i ≤ n → (0 < i → 2 ^ (i - 1) ≤ u) →
    sizeLoop n (2 ^ (13 - i)) u = 8192 := by
  intro i
  induction i generalizing u with
  | zero =>
    intro _ n _ _
    cases n with
    | zero => rfl
    | succ n =>
      rw [sizeLoop, if_neg fun h ↦ absurd h.2 (by decide)]
      rfl
  | succ i ih =>
    intro hi n hn hu
    obtain ⟨n, rfl⟩ := Nat.exists_eq_add_of_le' (Nat.le_of_add_left_le hn)
    have hu' := hu (Nat.succ_pos i)
    have hpos : 0 < u := (Nat.two_pow_pos _).trans_le hu'
    have hsize : 2 ^ (13 - (i + 1)) < MAX_MAPPING_SIZE :=
      (Nat.pow_le_pow_right (by decide) (by omega : 13 - (i + 1) ≤ 12)).trans_lt (by decide)
    rw [sizeLoop, if_pos ⟨hpos.ne', hsize⟩, Nat.shiftLeft_eq, ← Nat.pow_succ,
      show (13 - (i + 1)).succ = 13 - i by omega]
    refine ih (by omega) n (by omega) fun hpos ↦ ?_
    rw [Nat.shiftRight_eq_div_pow, Nat.le_div_iff_mul_le (by decide), ← Nat.pow_add]
    rwa [show i - 1 + 1 = i + 1 - 1 by omega]

/-- What `allocate_map` shifts, for a number of pairs that may be negative as a `short`. -/
theorem le_toNat_of_large {n : ℕ} (hlarge : 10240 ≤ n) (hn : n ≤ 65533) :
    4096 ≤ (BitVec.ofInt 32 ((short n * 100).tdiv FILL_FACTOR)).toNat := by
  rcases Nat.lt_or_ge n 32768 with hlt | hge
  · have hdiv : (short n * 100).tdiv FILL_FACTOR = (n * 100 / 250 : ℕ) := by
      rw [short_eq (by omega)]
      exact (Int.ofNat_tdiv (n * 100) 250).symm
    rw [hdiv, BitVec.ofInt_natCast, BitVec.toNat_ofNat, Nat.mod_eq_of_lt (by omega)]
    omega
  · have hshort : short n = -(65536 - n : ℕ) := by
      rw [short, Int.bmod_def]
      omega
    have hdiv : (short n * 100).tdiv FILL_FACTOR = -((65536 - n) * 100 / 250 : ℕ) := by
      rw [hshort, Int.neg_mul, Int.neg_tdiv]
      exact congrArg Neg.neg (Int.ofNat_tdiv ((65536 - n) * 100) 250).symm
    rw [hdiv, BitVec.ofInt_neg, BitVec.ofInt_natCast, BitVec.toNat_neg, BitVec.toNat_ofNat,
      Nat.mod_eq_of_lt (by omega : (65536 - n) * 100 / 250 < 2 ^ 32), Nat.mod_eq_of_lt (by omega)]
    omega

/-- The table that `+` makes for `n` pairs can have as many. -/
theorem capacity_allocateMap {n : ℕ} (hn : n ≤ 65532) :
    if n < 10240 then 10240 ≤ (allocateMap (short n)).capacity
    else (allocateMap (short n)).capacity = 20480 := by
  split
  · rw [← fsize_4096]
    exact le_max_right ..
  · have hsize := sizeLoop_large 13 le_rfl 32 (by decide) fun _ ↦
      le_toNat_of_large (n := n) (by omega) (by omega)
    rw [Nat.sub_self, Nat.pow_zero] at hsize
    rw [capacity, (allocateMap_table _).mcard]
    simp only [allocateMap]
    rw [hsize, fsize_8192, fsize_4096]
    exact max_eq_left (by omega)

/-! ### Adding mappings -/

/-- After `check_for_destr` a mapping has only keys that are alive. -/
theorem Sound.live (h : Sound w m) : Live w (m.checkForDestr w) := by
  obtain ⟨hsound, hdead⟩ := h.checkForDestr
  have halive : ∀ p ∈ (m.checkForDestr w).stored, w.dead p.arg = false :=
    fun p hp ↦ hdead _ (mem_map_of_mem hp)
  refine ⟨hsound.toFilled, halive, ?_⟩
  exact (pairwise_map.1 hsound.distinct).imp_of_mem fun hp hq h ↦ h (halive _ hp) (halive _ hq)

section Add

variable {x y : Mapping}

/-- The pairs that two mappings have together. -/
def union (w : World) (x y : Mapping) : List (Svalue × Svalue) :=
  puts w (entries x.stored) (entries y.stored)

theorem Live.entries (hy : Live w y) : ∀ p ∈ entries y.stored, w.dead p.1 = false := by
  intro p hp
  obtain ⟨q, hq, rfl⟩ := mem_map.1 hp
  exact hy.dead q hq

theorem Live.length_le_union (hx : Live w x) (hy : Live w y) :
    y.stored.length ≤ (union w x y).length := by
  have hle := length_le_puts' hy.entries hx.entries (pairwise_map.2 hy.distinct)
  rw [length_entries] at hle
  exact (Nat.le_add_right ..).trans hle

/-- **`+=`** puts the pairs of the second mapping into the first one, unless it gets too large. -/
theorem addtoMapping_spec (hx : Live w x) (hy : Live w y) :
    (x.Fits (union w x y).length →
      ∃ m, addtoMapping w x y = .ok m ∧ (Mapping.entries m.stored).Perm (union w x y)) ∧
    (¬x.Fits (union w x y).length → ∃ m, addtoMapping w x y = .error m) :=
  assignAll_live _ hx hy.entries

/-- The table that `+` makes can have 20480 pairs, if it has to. -/
theorem fits_allocateMap (hx : Live w x) (hy : Live w y) :
    (allocateMap (short (x.card + y.card))).Fits (union w x y).length ↔
      (union w x y).length ≤ 20480 := by
  have hnil := stored_allocateMap (short (x.card + y.card))
  have hshape := (live_allocateMap w (short (x.card + y.card))).toShape
  have hmax := hshape.capacity_le
  have hx' : x.stored.length ≤ (union w x y).length := by
    rw [← length_entries]
    exact (length_le_puts w _ _).1
  have hy' := hx.length_le_union hy
  have hle := (length_le_puts w (Mapping.entries y.stored) (Mapping.entries x.stored)).2
  rw [length_entries, length_entries] at hle
  rw [hshape.fits_iff (by rw [hnil]; decide), hnil, length_nil]
  by_cases hlarge : 32767 ≤ x.stored.length ∨ 32767 ≤ y.stored.length
  · omega
  · have hcard : x.card + y.card = (x.stored.length + y.stored.length : ℕ) := by
      rw [hx.card, hy.card, short_eq (by omega), short_eq (by omega), Int.natCast_add]
    have hcap := capacity_allocateMap (n := x.stored.length + y.stored.length) (by omega)
    rw [hcard, union] at *
    split at hcap <;> omega

/-- **`+`** puts the pairs of both mappings into a new one, unless there are more than 20480. -/
theorem addMapping_spec (hx : Live w x) (hy : Live w y) :
    ((union w x y).length ≤ 20480 →
      ∃ m, addMapping w x y = .ok m ∧ (Mapping.entries m.stored).Perm (union w x y)) ∧
    (¬(union w x y).length ≤ 20480 → ∃ m, addMapping w x y = .error m) := by
  have hnil := stored_allocateMap (short (x.card + y.card))
  have hnew := live_allocateMap w (short (x.card + y.card))
  -- the keys of the first mapping are new
  have hfirst : puts w [] (Mapping.entries x.stored) = (Mapping.entries x.stored).reverse := by
    have hswap := distinct_of_perm x.stored.reverse_perm.symm hx.dead hx.distinct
    rw [pairwise_reverse] at hswap
    have hpairs : (Mapping.entries x.stored).Pairwise fun p q ↦ equalSvalue w q.1 p.1 = false :=
      pairwise_map.2 hswap
    rw [puts_new (fun _ _ _ h ↦ absurd h not_mem_nil) hpairs, append_nil]
  have hputs : (puts w (Mapping.entries (allocateMap (short (x.card + y.card))).stored)
      (Mapping.entries x.stored ++ Mapping.entries y.stored)).Perm (union w x y) := by
    rw [hnil, puts, foldl_append]
    change (puts w (puts w [] (Mapping.entries x.stored)) (Mapping.entries y.stored)).Perm _
    rw [hfirst]
    exact puts_perm _ (reverse_perm _)
  obtain ⟨hok, herr⟩ := assignAll_live (Mapping.entries x.stored ++ Mapping.entries y.stored) hnew
    fun p hp ↦ (mem_append.1 hp).elim (hx.entries p) (hy.entries p)
  rw [hputs.length_eq, fits_allocateMap hx hy, assignAll_append] at hok herr
  refine ⟨fun hroom ↦ ?_, herr⟩
  obtain ⟨m, hm, hperm⟩ := hok hroom
  exact ⟨m, hm, hperm.trans hputs⟩

end Add

end Lpmud.Mapping
