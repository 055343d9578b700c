import Lpmud.Interpret.Operators

/-!
# Sweeping out what stands for 0

`check_for_destr` of `interpret.c` goes through an array or a mapping: destructed objects and
functions that cannot be called are to become 0, and pairs with such a key are to be taken out.

For a mapping it does that, in two loops over the chains: the first one sets values to 0, the second
one unlinks pairs, and counts each of them (`unlinkDead_spec`). For an array the test for functions
says `continue` in both of its branches, so only objects are set to 0 (`sweeps_iff`).
-/

namespace Lpmud.Mapping

open Function List

variable {w : World} {m : Mapping} {c : ℤ} {ps : List Apair}

/-! ### The loops over a mapping -/

/-- The first loop of `check_for_destr`, along a chain. -/
def clearVals (w : World) (ps : List Apair) : List Apair :=
  ps.map fun p ↦ if w.dead p.val then { p with val := const0 } else p

/-- The second loop, from a pointer `pp` into a chain on: when a pair is unlinked, the pointer leads
to the next one, and it stays. -/
def unlinkDead (w : World) : ℤ → List Apair → List Apair × ℤ
  | card, [] => ([], card)
  | card, p :: ps =>
    if w.dead p.arg then unlinkDead w (short (card - 1)) ps
    else
      let (ps, card) := unlinkDead w card ps
      (p :: ps, card)

def clearBucket (w : World) (m : Mapping) (i : ℕ) : Mapping :=
  { m with pairs := update m.pairs i (clearVals w (m.pairs i)) }

def unlinkBucket (w : World) (m : Mapping) (i : ℕ) : Mapping :=
  let (ps, card) := unlinkDead w m.card (m.pairs i)
  { m with pairs := update m.pairs i ps, card := card }

/-- `check_for_destr` for a mapping, loop by loop. -/
def sweep (w : World) (m : Mapping) : Mapping :=
  (List.range m.size).foldl (unlinkBucket w) ((List.range m.size).foldl (clearBucket w) m)

theorem short_sub (c d : ℤ) : short (short c - d) = short (c - d) := by
  rw [short, short, short, Int.bmod_sub_bmod]

theorem short_short (c : ℤ) : short (short c) = short c := by
  simpa using short_sub c 0

theorem unlinkDead_spec (hc : short c = c) : unlinkDead w c ps =
    (ps.filter fun p ↦ !w.dead p.arg, short (c - ps.countP fun p ↦ w.dead p.arg)) := by
  induction ps generalizing c with
  | nil => simp [unlinkDead, hc]
  | cons p ps ih =>
    rw [unlinkDead]
    cases hdead : w.dead p.arg with
    | true =>
      rw [if_pos rfl, ih (short_short _), short_sub, filter_cons_of_neg (by simp [hdead]),
        countP_cons_of_pos (p := fun p : Apair ↦ w.dead p.arg) hdead, Int.natCast_succ]
      congr 2
      omega
    | false =>
      rw [if_neg Bool.false_ne_true, ih hc, filter_cons_of_pos (by simp [hdead]),
        countP_cons_of_neg (p := fun p : Apair ↦ w.dead p.arg) (by simp [hdead])]

theorem foldl_clearBucket (w : World) (m : Mapping) (n : ℕ) :
    (List.range n).foldl (clearBucket w) m =
      { m with pairs := fun i ↦ if i < n then clearVals w (m.pairs i) else m.pairs i } := by
  induction n with
  | zero => simp
  | succ n ih =>
    rw [range_succ, foldl_append, ih, foldl_cons, foldl_nil, clearBucket]
    congr 1
    funext i
    dsimp only
    rcases Nat.lt_trichotomy i n with hlt | rfl | hgt
    · rw [update_of_ne hlt.ne, if_pos hlt, if_pos (Nat.lt_succ_of_lt hlt)]
    · rw [update_self, if_neg (Nat.lt_irrefl i), if_pos (Nat.lt_succ_self i)]
    · rw [update_of_ne hgt.ne', if_neg (by omega), if_neg (by omega)]

theorem foldl_unlinkBucket (hc : short m.card = m.card) (n : ℕ) :
    (List.range n).foldl (unlinkBucket w) m =
      { m with
        pairs := fun i ↦ if i < n then (m.pairs i).filter fun p ↦ !w.dead p.arg else m.pairs i
        card := short (m.card - (m.pairs.elems n).countP fun p ↦ w.dead p.arg) } := by
  induction n with
  | zero => simp [Buckets.elems, hc]
  | succ n ih =>
    rw [range_succ, foldl_append, ih, foldl_cons, foldl_nil, unlinkBucket]
    dsimp only
    rw [if_neg (Nat.lt_irrefl n), unlinkDead_spec (short_short _), short_sub, Buckets.elems_succ,
      countP_append]
    congr 1
    · dsimp only
      congr 1
      push_cast
      omega
    · funext i
      dsimp only
      rcases Nat.lt_trichotomy i n with hlt | rfl | hgt
      · rw [update_of_ne hlt.ne, if_pos hlt, if_pos (Nat.lt_succ_of_lt hlt)]
      · rw [update_self, if_pos (Nat.lt_succ_self i)]
      · rw [update_of_ne hgt.ne', if_neg (by omega), if_neg (by omega)]

/-- The loops leave the table that `checkForDestr` says they do. -/
theorem sweep_eq (h : m.Shape) (w : World) :
    (m.sweep w).size = m.size ∧ (m.sweep w).card = (m.checkForDestr w).card ∧
      (m.sweep w).stored = (m.checkForDestr w).stored := by
  have hcard : short m.card = m.card := by rw [h.card, short_short]
  have hcount : ((Buckets.elems (fun i ↦ if i < m.size then clearVals w (m.pairs i) else m.pairs i)
      m.size).countP fun p ↦ w.dead p.arg) = m.stored.countP fun p ↦ w.dead p.arg := by
    rw [stored, Buckets.elems, Buckets.elems, countP_flatMap, countP_flatMap]
    congr 1
    refine map_congr_left fun i hi ↦ ?_
    simp only [Function.comp_apply, if_pos (mem_range.1 hi), clearVals, countP_map]
    refine countP_congr fun p _ ↦ ?_
    simp only [Function.comp_apply]
    split <;> rfl
  rw [sweep, foldl_clearBucket, foldl_unlinkBucket]
  case hc => exact hcard
  refine ⟨rfl, ?_, ?_⟩
  · dsimp only
    rw [hcount]
    rfl
  · rw [stored, stored, Buckets.elems, Buckets.elems]
    refine flatMap_congr fun i hi ↦ ?_
    simp only [if_pos (mem_range.1 hi)]
    rfl

end Lpmud.Mapping

namespace Lpmud.Interpret

open Function List
open Mapping (sweep_eq short_eq)

variable {w : World}

/-- What `check_for_destr` is to make of an array: nothing in it stands for 0, and all elements that
did not are where they were. -/
structure SweptArray (w : World) (v r : List Svalue) : Prop where
  dead : ∀ x ∈ r, w.dead x = false
  length : r.length = v.length
  kept : ∀ (i : ℕ) (x : Svalue), v[i]? = some x → w.dead x = false → r[i]? = some x

/-- What it is to make of a mapping: no key and no value stands for 0, the pairs with other keys are
there, in their order and with their values, but for values that have become 0, and the number
of pairs is right. -/
structure SweptMapping (w : World) (m r : Mapping) : Prop where
  key : ∀ p ∈ r.stored, w.dead p.arg = false
  val : ∀ p ∈ r.stored, w.dead p.val = false
  kept : r.stored = (m.stored.filter fun p ↦ !w.dead p.arg).map fun p ↦
    if w.dead p.val then { p with val := const0 } else p
  card : r.card = r.stored.length

/-- **Arrays are swept just when they have no functions that cannot be called.** -/
theorem sweptArray_iff (w : World) (v : List Svalue) :
    SweptArray w v (checkForDestr w v) ↔ ∀ f, .function f ∈ v → w.legalClosure f = true := by
  constructor
  · intro h f hf
    have hmem : Svalue.function f ∈ checkForDestr w v := mem_map.2 ⟨_, hf, rfl⟩
    simpa [World.dead] using h.dead _ hmem
  · intro hv
    refine ⟨fun x hx ↦ ?_, length_map _, fun i x hi hx ↦ ?_⟩
    · obtain ⟨y, hy, rfl⟩ := mem_map.1 hx
      cases y with
      | object ob =>
        dsimp only
        split
        · rfl
        · exact Bool.eq_false_iff.2 ‹_›
      | function f => simp [World.dead, hv f hy]
      | _ => rfl
    · rw [checkForDestr, List.getElem?_map, hi]
      cases x with
      | object ob =>
        rw [World.dead] at hx
        simp [hx]
      | _ => rfl

/-- **Mappings are swept just when not too many pairs are left.** -/
theorem sweptMapping_iff {m : Mapping} (h : m.Shape) (w : World) :
    SweptMapping w m (m.sweep w) ↔ (m.stored.countP fun p ↦ !w.dead p.arg) ≤ 32767 := by
  obtain ⟨-, hcard, hstored⟩ := sweep_eq h w
  have hshape := (h.checkForDestr w).1
  have hset (p : Apair) :
      (if w.dead p.val then { p with val := const0 } else p).arg = p.arg := by
    split <;> rfl
  have hkept : (m.checkForDestr w).stored = (m.stored.filter fun p ↦ !w.dead p.arg).map fun p ↦
      if w.dead p.val then { p with val := const0 } else p := by
    rw [Mapping.stored_checkForDestr, filter_map]
    refine congrArg (List.map _) (filter_congr fun p _ ↦ ?_)
    rw [Function.comp_apply, hset]
  have hlen : (m.checkForDestr w).stored.length = m.stored.countP fun p ↦ !w.dead p.arg := by
    rw [hkept, length_map, countP_eq_length_filter]
  constructor
  · intro hswept
    have hlt : Lpmud.short (m.checkForDestr w).stored.length < 2 ^ 15 := Int.bmod_lt (by decide)
    rw [← hshape.card, ← hcard, hswept.card, hstored, hlen] at hlt
    omega
  · intro hle
    refine ⟨fun p hp ↦ ?_, fun p hp ↦ ?_, hstored.trans hkept, ?_⟩
    · rw [hstored, hkept] at hp
      obtain ⟨q, hq, rfl⟩ := mem_map.1 hp
      rw [hset]
      simpa using (mem_filter.1 hq).2
    · rw [hstored, hkept] at hp
      obtain ⟨q, -, rfl⟩ := mem_map.1 hp
      split
      · rfl
      · exact Bool.eq_false_iff.2 ‹_›
    · rw [hcard, hstored, hshape.card, short_eq (hlen.trans_le hle)]

/-- **What `check_for_destr` sweeps.** -/
theorem swept_iff (w : World) (v : List Svalue) {m : Mapping} (h : m.Shape) :
    (SweptArray w v (checkForDestr w v) ↔ ∀ f, .function f ∈ v → w.legalClosure f = true) ∧
      (SweptMapping w m (m.sweep w) ↔ (m.stored.countP fun p ↦ !w.dead p.arg) ≤ 32767) :=
  ⟨sweptArray_iff w v, sweptMapping_iff h w⟩

/-- A mapping with a destructed object as a key, and one as a value. -/
def objectMapping : Mapping :=
  ((Mapping.allocateMap 0).newpair (.object 16) const0 (hashsvalue (.object 16))).newpair
    (.number 5) (.object 16) (hashsvalue (.number 5))

/-- The mapping, and an array with the object, are swept. -/
theorem swept_iff_objects :
    let w : World := ⟨fun ob ↦ ob = 16, fun _ ↦ true⟩
    let v : List Svalue := [.object 16, .number 3, .object 32]
    objectMapping.stored.length = 2 ∧ (objectMapping.sweep w).stored.length = 1 ∧
      SweptArray w v (checkForDestr w v) ∧
      SweptMapping w objectMapping (objectMapping.sweep w) := by
  intro w v
  have h : objectMapping.Shape :=
    ((Mapping.allocateMap_table 0).toShape.newpair (.object 16) const0).newpair _ _
  obtain ⟨harray, hmapping⟩ := swept_iff w v h
  exact ⟨rfl, rfl, harray.2 fun _ _ ↦ rfl, hmapping.2 (by decide)⟩

/-- A function that cannot be called stays in an array. -/
theorem not_swept : ¬∀ (w : World) (v : List Svalue), SweptArray w v (checkForDestr w v) := by
  intro h
  have hall := (sweptArray_iff ⟨fun _ ↦ false, fun _ ↦ false⟩ [.function 1]).1 (h _ _)
  exact absurd (hall 1 (mem_singleton_self _)) Bool.false_ne_true

end Lpmud.Interpret
