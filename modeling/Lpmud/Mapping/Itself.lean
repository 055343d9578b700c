import Lpmud.Mapping.Merge

/-!
# A mapping that is added to itself

What `addto_mapping` does to a mapping that is given to it twice (`addtoItself_spec`): every pair is
assigned to itself, and its value is 0 after that. Only a float that is not a number does not find
its pair, and gets a second one. This is the whole story as long as the table is not extended under
the loops for such keys.
-/

namespace Lpmud.Mapping

open Function List

variable {w : World} {m : Mapping} {p : Apair} {F B : List Apair} {c i n : ℕ}

/-- A pair whose key is not equal to itself. -/
def loose (w : World) (p : Apair) : Bool :=
  !equalSvalue w p.arg p.arg

/-- A pair that has been assigned to itself. -/
def cleared (w : World) (p : Apair) : Apair :=
  if loose w p then p else { p with val := const0 }

theorem arg_cleared (w : World) (p : Apair) : (cleared w p).arg = p.arg := by
  rw [cleared]
  split <;> rfl

theorem loose_eq_false : loose w p = false ↔ equalSvalue w p.arg p.arg = true := by
  rw [loose, Bool.not_eq_false']

theorem equalSvalue_of_loose (hp : loose w p = true) (v : Svalue) :
    equalSvalue w v p.arg = false ∧ equalSvalue w p.arg v = false :=
  equalSvalue_of_not_refl (by rwa [loose, Bool.not_eq_true'] at hp) v

/-- A mapping whose chain `c` is another one, with `k` more pairs. -/
def withChain (m : Mapping) (c : ℕ) (ps : List Apair) (k : ℕ) : Mapping :=
  { m with pairs := update m.pairs c ps, card := m.card + k }

theorem findPair_of_before {f : Svalue → Svalue} (hhash : p.hashval = hashsvalue p.arg)
    (hp : loose w p = false) (hF : ∀ q ∈ F, equalSvalue w p.arg q.arg = false) :
    findPair w (hashsvalue p.arg) p.arg f (F ++ p :: B) =
      some (F ++ { p with val := f p.val } :: B) := by
  induction F with
  | nil =>
    rw [nil_append, findPair, loose_eq_false.1 hp, Bool.and_true,
      if_pos (decide_eq_true hhash)]
    rfl
  | cons q F ih =>
    rw [cons_append, findPair, hF q mem_cons_self, Bool.and_false,
      if_neg Bool.false_ne_true, ih fun q hq ↦ hF q (mem_cons_of_mem _ hq)]
    rfl

/-- What the loops are at: the pair `p` of the chain `c`, with `F` before it and `B` behind it. -/
structure At (w : World) (m : Mapping) (c : ℕ) (F : List Apair) (p : Apair) (B : List Apair) :
    Prop where
  chain : m.pairs c = F ++ p :: B
  hash : p.hashval = hashsvalue p.arg
  slot : slot m.size (hashsvalue p.arg) = c
  before : ∀ q ∈ F, equalSvalue w p.arg q.arg = false

theorem At.loop (h : At w m c F p B) {m' : Mapping} (hsize : m'.size = m.size)
    (hassign : m.assign w p.arg (if loose w p then p.val else const0) = .ok m') :
    addtoItselfLoop w (n + 1) m i c (B.length + 1) = addtoItselfLoop w n m' i c B.length := by
  have hlen : (F ++ p :: B).length - (B.length + 1) = F.length := by
    rw [length_append, length_cons, Nat.add_sub_cancel]
  have hany : F.any (fun q ↦ q.hashval = hashsvalue p.arg && equalSvalue w p.arg q.arg) = false :=
    any_eq_false.2 fun q hq ↦ by simp [h.before q hq]
  have hfound : (if (decide (p.hashval = hashsvalue p.arg) && equalSvalue w p.arg p.arg) &&
      !F.any (fun q ↦ q.hashval = hashsvalue p.arg && equalSvalue w p.arg q.arg) then const0
      else p.val) = if loose w p then p.val else const0 := by
    rw [hany, decide_eq_true h.hash, Bool.true_and, Bool.not_false, Bool.and_true, loose]
    cases equalSvalue w p.arg p.arg <;> rfl
  rw [addtoItselfLoop]
  dsimp only
  rw [h.chain, hlen, drop_left, take_left]
  dsimp only
  rw [hfound, hassign]
  exact if_pos hsize

/-- **A pair that finds itself** is cleared. -/
theorem At.clear (h : At w m c F p B) (hp : loose w p = false) :
    addtoItselfLoop w (n + 1) m i c (B.length + 1) =
      addtoItselfLoop w n (m.withChain c (F ++ cleared w p :: B) 0) i c B.length := by
  refine h.loop rfl ?_
  rw [assign, getMapLvalue, h.slot, h.chain, findPair_of_before h.hash hp h.before, cleared, hp]
  simp [withChain]

/-- **A pair that does not find itself** gets a second one, at the head of its chain. -/
theorem At.double (h : At w m c F p B) (hp : loose w p = true) {k : ℕ} (hcard : m.card = k)
    (hroom : k < m.mcard) (hmcard : m.mcard ≤ 20480) :
    addtoItselfLoop w (n + 1) m i c (B.length + 1) =
      addtoItselfLoop w n (m.withChain c (p :: F ++ cleared w p :: B) 1) i c B.length := by
  refine h.loop rfl ?_
  have hnone (f : Svalue → Svalue) : findPair w (hashsvalue p.arg) p.arg f (F ++ p :: B) = none :=
    findPair_eq_none fun q _ ↦ (equalSvalue_of_loose hp q.arg).2
  have hshort : short (m.card + 1) = m.card + 1 := by
    rw [hcard]
    exact short_eq (n := k + 1) (by omega)
  have hpair : (⟨p.arg, p.val, hashsvalue p.arg⟩ : Apair) = p := by rw [← h.hash]
  rw [assign, getMapLvalue, h.slot, h.chain, hnone]
  dsimp only
  rw [newpair, newpair, hshort, if_neg (by dsimp only; omega), hp, if_pos rfl, hpair, Buckets.add,
    h.hash, h.slot, h.chain, cleared, hp]
  rfl

theorem withChain_withChain (m : Mapping) (c : ℕ) (ps qs : List Apair) (k l : ℕ) :
    (m.withChain c ps k).withChain c qs l = m.withChain c qs (k + l) := by
  simp only [withChain, update_idem, Int.natCast_add, Int.add_assoc]

/-- There is room for a second pair for each pair that does not find itself. -/
def RoomFor (m : Mapping) (k : ℕ) : Prop :=
  k = 0 ∨ ∃ l : ℕ, m.card = l ∧ l + k ≤ m.mcard ∧ m.mcard ≤ 20480

/-- What becomes of a chain. -/
def doubled (w : World) (ps : List Apair) : List Apair :=
  (ps.filter (loose w)).reverse ++ ps.map (cleared w)

/-- **The inner loop**, from the pairs `B` on. -/
theorem loop_chain : ∀ {m : Mapping} {F : List Apair}, m.pairs c = F ++ B →
    (∀ p ∈ B, p.hashval = hashsvalue p.arg ∧ slot m.size (hashsvalue p.arg) = c) →
    (∀ p ∈ B, ∀ q ∈ F, equalSvalue w p.arg q.arg = false) →
    B.Pairwise (fun p q ↦ equalSvalue w q.arg p.arg = false) → m.RoomFor (B.countP (loose w)) →
    addtoItselfLoop w (n + B.length) m i c B.length = addtoItselfLoop w n
      (m.withChain c ((B.filter (loose w)).reverse ++ F ++ B.map (cleared w))
        (B.countP (loose w))) i c 0 := by
  induction B with
  | nil =>
    intro m F hchain _ _ _ _
    rw [append_nil] at hchain
    simp [withChain, ← hchain]
  | cons p B ih =>
    intro m F hchain hB hbefore hpairs hroom
    obtain ⟨hhash, hslot⟩ := hB p mem_cons_self
    obtain ⟨hhead, hpairs⟩ := pairwise_cons.1 hpairs
    have hat : At w m c F p B := ⟨hchain, hhash, hslot, hbefore p mem_cons_self⟩
    have htail : ∀ q ∈ B, q.hashval = hashsvalue q.arg ∧ slot m.size (hashsvalue q.arg) = c :=
      fun q hq ↦ hB q (mem_cons_of_mem p hq)
    have hbefore' : ∀ q ∈ B, ∀ r ∈ F ++ [cleared w p], equalSvalue w q.arg r.arg = false := by
      intro q hq r hr
      rcases mem_append.1 hr with hr | hr
      · exact hbefore q (mem_cons_of_mem p hq) r hr
      · rw [mem_singleton.1 hr, arg_cleared]
        exact hhead q hq
    rw [length_cons, ← Nat.add_assoc, map_cons]
    cases hp : loose w p with
    | false =>
      rw [countP_cons_of_neg (by simp [hp])] at hroom ⊢
      rw [hat.clear hp, ih (m := m.withChain c (F ++ cleared w p :: B) 0)
        (F := F ++ [cleared w p]) (by simp [withChain]) htail hbefore' hpairs
        (by simpa [RoomFor, withChain] using hroom), withChain_withChain,
        filter_cons_of_neg (by simp [hp]), Nat.zero_add]
      simp
    | true =>
      rw [countP_cons_of_pos hp] at hroom ⊢
      obtain ⟨k, hk, hle, hmcard⟩ := hroom.resolve_left (Nat.succ_ne_zero _)
      rw [hat.double hp hk (by omega) hmcard, ih (m := m.withChain c (p :: F ++ cleared w p :: B) 1)
        (F := p :: F ++ [cleared w p]) (by simp [withChain]) htail ?_ hpairs
        (.inr ⟨k + 1, by simp [withChain, hk], by simp only [withChain]; omega, hmcard⟩),
        withChain_withChain, filter_cons_of_pos hp, Nat.add_comm 1]
      · simp
      · intro q hq r hr
        rcases mem_cons.1 hr with rfl | hr
        · exact (equalSvalue_of_loose hp _).1
        · exact hbefore' q hq r hr

/-- A chain that the loops have not come to. -/
structure Ready (w : World) (m : Mapping) (c : ℕ) : Prop where
  placed : ∀ p ∈ m.pairs c, p.hashval = hashsvalue p.arg ∧ slot m.size (hashsvalue p.arg) = c
  distinct : (m.pairs c).Pairwise fun p q ↦ equalSvalue w q.arg p.arg = false

/-- **The outer loop**, from the chain `i` on. -/
theorem loop_chains (d : ℕ) : ∀ {m : Mapping} {i : ℕ}, i + d + 1 = m.size →
    (∀ j, i ≤ j → j < m.size → Ready w m j) →
    m.RoomFor (((List.range' i (d + 1)).flatMap m.pairs).countP (loose w)) →
    ∃ m', addtoItselfLoop w (n + (((List.range' i (d + 1)).flatMap m.pairs).length + (d + 1))) m i i
        (m.pairs i).length = .ok m' ∧ m'.size = m.size ∧
      ∀ j, m'.pairs j = if i ≤ j ∧ j < m.size then doubled w (m.pairs j) else m.pairs j := by
  induction d with
  | zero =>
    intro m i hsize hready hroom
    obtain ⟨hplaced, hdistinct⟩ := hready i le_rfl (by omega)
    rw [List.range'_one, flatMap_singleton] at hroom ⊢
    have hloop := loop_chain (n := n + 1) (i := i) (F := []) rfl hplaced
      (fun _ _ _ h ↦ absurd h not_mem_nil) hdistinct hroom
    rw [append_nil] at hloop
    refine ⟨m.withChain i (doubled w (m.pairs i)) ((m.pairs i).countP (loose w)), ?_, rfl,
      fun j ↦ ?_⟩
    · rw [Nat.add_comm _ (0 + 1), ← Nat.add_assoc, hloop, addtoItselfLoop,
        if_neg (by change ¬i + 1 < m.size; omega)]
      rfl
    · rcases eq_or_ne j i with rfl | hne
      · rw [if_pos ⟨le_rfl, by omega⟩]
        exact update_self ..
      · rw [if_neg (by omega)]
        exact update_of_ne hne ..
  | succ d ih =>
    intro m i hsize hready hroom
    obtain ⟨hplaced, hdistinct⟩ := hready i le_rfl (by omega)
    rw [List.range'_succ, flatMap_cons] at hroom ⊢
    rw [countP_append] at hroom
    -- the chain `i` first, which leaves those behind it as they are
    have hfirst : m.RoomFor ((m.pairs i).countP (loose w)) := by
      refine hroom.imp (by omega) ?_
      rintro ⟨l, hl, hle, hmcard⟩
      exact ⟨l, hl, by omega, hmcard⟩
    have hloop (n : ℕ) := loop_chain (n := n + 1) (i := i) (F := []) rfl hplaced
      (fun _ _ _ h ↦ absurd h not_mem_nil) hdistinct hfirst
    rw [append_nil] at hloop
    obtain ⟨m₁, hm₁⟩ : ∃ m₁, m.withChain i (doubled w (m.pairs i))
      ((m.pairs i).countP (loose w)) = m₁ := ⟨_, rfl⟩
    have hpairs : ∀ j, i + 1 ≤ j → m₁.pairs j = m.pairs j := fun j hj ↦ by
      rw [← hm₁]
      exact update_of_ne (by omega) ..
    have hrest : (List.range' (i + 1) (d + 1)).flatMap m₁.pairs =
        (List.range' (i + 1) (d + 1)).flatMap m.pairs :=
      flatMap_congr fun j hj ↦ hpairs j (mem_range'_1.1 hj).1
    have hsize₁ : m₁.size = m.size := by rw [← hm₁, withChain]
    have hroom₁ : m₁.RoomFor (((List.range' (i + 1) (d + 1)).flatMap m₁.pairs).countP
        (loose w)) := by
      rw [hrest]
      refine hroom.imp (by omega) ?_
      rintro ⟨l, hl, hle, hmcard⟩
      refine ⟨l + (m.pairs i).countP (loose w), ?_, ?_, ?_⟩
      · rw [← hm₁, withChain, hl, Int.natCast_add]
      · have hmcard₁ : m₁.mcard = m.mcard := by rw [← hm₁, withChain]
        omega
      · rwa [← hm₁, withChain]
    obtain ⟨m', hm', hsize', hpairs'⟩ := ih (m := m₁) (i := i + 1) (by omega)
      (fun j hj hlt ↦ by
        obtain ⟨hplaced, hdistinct⟩ := hready j (by omega) (by omega)
        exact ⟨by rwa [hpairs j hj, hsize₁], by rwa [hpairs j hj]⟩) hroom₁
    rw [hrest] at hm'
    refine ⟨m', ?_, hsize'.trans hsize₁, fun j ↦ ?_⟩
    · rw [length_append, show n + ((m.pairs i).length +
        ((List.range' (i + 1) (d + 1)).flatMap m.pairs).length + (d + 1 + 1)) = n +
          (((List.range' (i + 1) (d + 1)).flatMap m.pairs).length + (d + 1)) + 1 +
            (m.pairs i).length by omega, hloop]
      change addtoItselfLoop w _ (m.withChain i (doubled w (m.pairs i)) _) i i 0 = _
      rw [hm₁, addtoItselfLoop, if_pos (by omega)]
      exact hm'
    · rw [hpairs' j, hsize₁]
      rcases lt_trichotomy j i with hlt | rfl | hlt
      · rw [if_neg (by omega), if_neg (by omega), ← hm₁]
        exact update_of_ne hlt.ne ..
      · rw [if_neg (by omega), if_pos (by omega), ← hm₁]
        exact update_self ..
      · rw [hpairs j hlt]
        exact if_congr (by omega) rfl rfl

/-- **A mapping that is added to itself**: every value is cleared, except under keys that are not
equal to themselves, which get a second pair. -/
theorem addtoItself_spec (h : Live w m) (hroom : m.stored.countP (loose w) = 0 ∨
    m.stored.length + m.stored.countP (loose w) ≤ m.mcard) :
    ∃ m', addtoItself w m = .ok m' ∧
      m'.stored.Perm (m.stored.filter (loose w) ++ m.stored.map (cleared w)) := by
  have hpos := h.toShape.size_pos
  obtain ⟨d, hd⟩ : ∃ d, m.size = d + 1 := ⟨m.size - 1, by omega⟩
  have hstored : (List.range' 0 (d + 1)).flatMap m.pairs = m.stored := by
    rw [← range_eq_range', ← hd]
    rfl
  have hready (j : ℕ) (hj : j < m.size) : Ready w m j := by
    have hmem {p : Apair} (hp : p ∈ m.pairs j) : p ∈ m.stored := Buckets.mem_elems.2 ⟨j, hj, hp⟩
    refine ⟨fun p hp ↦ ?_, ?_⟩
    · have hhash := h.hash p (hmem hp)
      exact ⟨hhash, hhash ▸ h.placed j hj p hp⟩
    · have hchain : (m.pairs j).Pairwise fun p q ↦ equalSvalue w p.arg q.arg = false := by
        refine h.distinct.sublist ?_
        rw [stored, Buckets.elems, flatMap_def]
        exact sublist_flatten_of_mem (mem_map_of_mem (mem_range.2 hj))
      have hrev := distinct_of_perm (m.pairs j).reverse_perm.symm (fun p hp ↦ h.dead p (hmem hp))
        hchain
      exact pairwise_reverse.1 hrev
  have hmcard := h.toShape.mcard_le
  have hroom' : m.RoomFor (m.stored.countP (loose w)) := hroom.imp_right fun hle ↦
    ⟨m.stored.length, by rw [h.card]; exact short_eq (by omega), hle, hmcard⟩
  obtain ⟨m', hm', hsize', hpairs'⟩ := loop_chains (w := w) (n := 2 ^ 32) d (i := 0) (m := m)
    (by omega) (fun j _ hj ↦ hready j hj) (by rwa [hstored])
  rw [hstored, Nat.add_comm m.stored.length, ← hd] at hm'
  refine ⟨m', hm', ?_⟩
  have hflat : m'.stored = (List.range m.size).flatMap fun j ↦
      ((m.pairs j).filter (loose w)).reverse ++ (m.pairs j).map (cleared w) := by
    rw [stored, hsize']
    refine flatMap_congr fun j hj ↦ ?_
    rw [hpairs' j, if_pos ⟨Nat.zero_le j, mem_range.1 hj⟩, doubled]
  rw [hflat, stored, Buckets.elems, filter_flatMap, map_flatMap]
  refine (flatMap_append_perm ..).symm.trans (List.Perm.append_right _ ?_)
  exact List.Perm.flatMap_left _ fun j _ ↦ reverse_perm _

theorem entries_cleared : (entries m.stored).Perm (entries (m.stored.map (cleared w))) ↔
    ∀ p ∈ m.stored, loose w p = false → p.val = const0 := by
  constructor
  · intro hperm p hp hloose
    have hmem : (p.arg, p.val) ∈ entries (m.stored.map (cleared w)) :=
      hperm.mem_iff.1 (mem_map_of_mem hp)
    rw [entries, map_map] at hmem
    obtain ⟨q, -, heq⟩ := mem_map.1 hmem
    rw [Function.comp_apply, arg_cleared] at heq
    obtain ⟨harg, hval⟩ := Prod.mk.inj heq
    rw [loose, ← harg] at hloose
    rw [cleared, loose, hloose, if_neg Bool.false_ne_true] at hval
    exact hval.symm
  · intro h
    have hmap : m.stored.map (cleared w) = m.stored := by
      refine (map_congr_left fun p hp ↦ ?_).trans (map_id _)
      rw [cleared]
      split
      next => rfl
      next hloose => rw [← h p hp (Bool.eq_false_iff.2 hloose)]; rfl
    rw [hmap]

/-! ### The sum of a mapping and itself -/

theorem puts_known : ∀ {ps cs : List (Svalue × Svalue)}, (∀ p ∈ ps, equalSvalue w p.1 p.1 = true →
      p ∈ cs ∧ ∀ q ∈ cs, equalSvalue w p.1 q.1 = true → q.2 = p.2) →
    puts w cs ps = (ps.filter fun p ↦ !equalSvalue w p.1 p.1).reverse ++ cs := by
  intro ps
  induction ps with
  | nil => exact fun _ ↦ rfl
  | cons p ps ih =>
    intro cs hknown
    change puts w (put w cs p.1 p.2) ps = _
    cases hp : equalSvalue w p.1 p.1 with
    | true =>
      obtain ⟨hmem, hval⟩ := hknown p mem_cons_self hp
      have hput : put w cs p.1 p.2 = cs := by
        rw [put, if_pos (any_eq_true.2 ⟨p, hmem, hp⟩)]
        refine (map_congr_left fun q hq ↦ ?_).trans (map_id cs)
        split
        next hequal => exact Prod.ext rfl (hval q hq hequal).symm
        next => rfl
      rw [hput, ih fun q hq ↦ hknown q (mem_cons_of_mem p hq),
        filter_cons_of_neg (by simp [hp])]
    | false =>
      have hput : put w cs p.1 p.2 = p :: cs :=
        if_neg (by simp [(equalSvalue_of_not_refl hp _).2])
      rw [hput, @ih (p :: cs) ?_, filter_cons_of_pos (by simp [hp]), reverse_cons,
        append_assoc, singleton_append]
      intro q hq hrefl
      obtain ⟨hmem, hval⟩ := hknown q (mem_cons_of_mem p hq) hrefl
      refine ⟨mem_cons_of_mem p hmem, fun r hr hequal ↦ ?_⟩
      rcases mem_cons.1 hr with rfl | hr
      · rw [(equalSvalue_of_not_refl hp _).1] at hequal
        cases hequal
      · exact hval r hr hequal

theorem Live.eq_of_equal (h : Live w m) {p q : Apair} (hp : p ∈ m.stored) (hq : q ∈ m.stored)
    (hequal : equalSvalue w p.arg q.arg = true) : p = q := by
  have hall : m.stored.Pairwise fun p q ↦ (equalSvalue w p.arg q.arg = true → p = q) ∧
      (equalSvalue w q.arg p.arg = true → q = p) := by
    refine h.distinct.imp_of_mem fun {a b} ha hb hne ↦ ⟨fun heq ↦ ?_, fun heq ↦ ?_⟩
    · rw [hne] at heq
      cases heq
    · rw [equalSvalue_symm (h.dead b hb) (h.dead a ha) heq] at hne
      cases hne
  have hget := pairwise_iff_getElem.1 hall
  obtain ⟨i, hi, rfl⟩ := getElem_of_mem hp
  obtain ⟨j, hj, rfl⟩ := getElem_of_mem hq
  rcases lt_trichotomy i j with hlt | rfl | hlt
  · exact (hget i j hi hj hlt).1 hequal
  · rfl
  · exact (hget j i hj hi hlt).2 hequal

/-- **A mapping and itself** have the pairs of the mapping together, and a second one for each key
that is not equal to itself. -/
theorem union_self (h : Live w m) :
    union w m m = (entries (m.stored.filter (loose w))).reverse ++ entries m.stored := by
  rw [union, puts_known]
  · rw [entries, entries, filter_map]
    rfl
  · intro p hp _
    refine ⟨hp, fun q hq hequal ↦ ?_⟩
    obtain ⟨a, ha, rfl⟩ := mem_map.1 hp
    obtain ⟨b, hb, rfl⟩ := mem_map.1 hq
    rw [h.eq_of_equal ha hb hequal]

end Lpmud.Mapping
