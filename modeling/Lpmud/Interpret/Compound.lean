import Lpmud.Interpret.Operators
import Lpmud.Mapping.Itself

/-!
# Compound assignment

When `x OP= y` does what `x OP y` does (`agree_iff`), for all operators and all values. Where it
does not, one of the two functions misses what the other one does:

* `+=` does not put a number in front of a string,
* `&` takes the elements of the second array that are in the first one, `&=` those of the first one
  that are in the second one, which may be in another order or more of them,
* `+` makes a table that is as large as it gets, `+=` extends the one that is there, which stops
  at half the size,
* `+=` loses the values of a mapping that is added to itself,
* a variable with a destructed object, or with a function that cannot be called, is read as 0, but a
  pointer to it gives the object or the function.

Besides, both are stopped by the machine where a quotient is too large.

The values are compared as they are, arrays by their elements and mappings by their pairs.
-/

namespace Lpmud.Interpret

open List
open Object (MAX_ARRAY_SIZE)
open Mapping (addKey loose sameKey union)

variable {w : World}

/-! ### The elements of an array as a set -/

/-- Whether a value is found among the elements of an array. -/
def inArray (w : World) (arr : List Svalue) (v : Svalue) : Bool :=
  (arr.foldl (addKey w) []).any (sameKey w v)

theorem mem_foldl_addKey {k : Svalue} (arr : List Svalue) : ∀ {ks : List Svalue}, k ∈ ks →
    k ∈ arr.foldl (addKey w) ks := by
  induction arr with
  | nil => exact fun h ↦ h
  | cons e arr ih =>
    intro ks hk
    refine ih ?_
    rw [addKey]
    split
    · exact hk
    · exact mem_cons_of_mem e hk

/-- **The mapping of an array** has its elements as keys. -/
theorem exists_makeMapping (w : World) (item : Svalue) (items : List Svalue)
    (hlen : (item :: items).length ≤ MAX_ARRAY_SIZE) :
    ∃ m, ((Mapping.makeMapping w (some (item :: items)) none).bind fun m ↦
      m.assign w item (.number 1)) = .ok m ∧
      ∀ v, m.found w v = inArray w (item :: items) v := by
  have hnil := Mapping.stored_allocateMap (item :: items).length
  obtain ⟨m, hok, hm, hkeys, hle⟩ := (Mapping.filled_allocateMap (item :: items).length).assignAll
    (w := w) ((item :: items).zipIdx.map fun p ↦ (p.1, .number (.ofNat 32 p.2))) (by
      rw [hnil, length_map, length_zipIdx, length_nil, Nat.zero_add]
      exact hlen.trans (by decide))
  have hfst : (((item :: items).zipIdx.map fun p ↦
      ((p.1, .number (.ofNat 32 p.2)) : Svalue × Svalue)).map Prod.fst) = item :: items := by
    rw [map_map]
    exact zipIdx_map_fst 0 _
  rw [hnil, length_map, length_zipIdx, length_nil, Nat.zero_add] at hle
  rw [hfst, Mapping.keys_allocateMap] at hkeys
  have hfound (v : Svalue) : m.found w v = inArray w (item :: items) v := by
    rw [hm.found_eq, hkeys.any_eq, inArray]
  have hmake : Mapping.makeMapping w (some (item :: items)) none = .ok m := hok
  rw [hmake]
  change ∃ m', m.assign w item (.number 1) = .ok m' ∧ _
  rcases hm.assign w item (.number 1) with ⟨-, m', hok', hm', hkeys'⟩ |
    ⟨hnot, m', hok', hm', hkeys'⟩ | ⟨-, hover, -⟩
  · refine ⟨m', hok', fun v ↦ ?_⟩
    rw [hm'.found_eq, hkeys', ← hm.found_eq, hfound]
  · -- a float that is not a number is there twice
    have hself : equalSvalue w item item = false := by
      have hmem : item ∈ m.keys :=
        hkeys.symm.mem_iff.1 (mem_foldl_addKey items mem_cons_self)
      rw [hm.found_eq, any_eq_false] at hnot
      have hsame := hnot item hmem
      rw [sameKey, decide_eq_true rfl, Bool.true_and] at hsame
      exact Bool.eq_false_iff.2 hsame
    refine ⟨m', hok', fun v ↦ ?_⟩
    rw [hm'.found_eq, hkeys'.any_eq, any_cons, sameKey,
      (Mapping.equalSvalue_of_not_refl hself v).1, Bool.and_false, Bool.false_or, ← hm.found_eq,
      hfound]
  · have hmax : m.stored.length ≤ 5000 := hle.trans hlen
    rw [Mapping.short_eq (by omega)] at hover
    omega

/-- **Intersecting arrays** takes the elements of the first one that are in the second one. -/
theorem intersectArray_eq {arr1 arr2 : List Svalue} (h1 : arr1.length ≤ MAX_ARRAY_SIZE)
    (h2 : arr2.length ≤ MAX_ARRAY_SIZE) :
    intersectArray w arr1 arr2 = .ok (arr1.filter (inArray w arr2)) := by
  rw [intersectArray, setManipulateArray]
  have hlen (r : List Svalue) (hr : r.Sublist arr1) : allocateArray r.length = .ok () :=
    if_neg (not_lt.2 (hr.length_le.trans h1))
  split
  case isTrue hempty =>
    have hnone : arr1.filter (inArray w arr2) = [] := by
      rcases hempty with hempty | hempty <;>
        obtain rfl := length_eq_zero_iff.1 (Nat.lt_one_iff.1 hempty)
      · rfl
      · exact filter_eq_nil_iff.2 fun _ _ ↦ Bool.false_ne_true
    rw [hnone]
    rfl
  case isFalse hne =>
    cases arr2 with
    | nil => exact absurd (.inr Nat.zero_lt_one) hne
    | cons item items =>
      obtain ⟨m, hok, hfound⟩ := exists_makeMapping w item items h2
      rw [headD_cons, hok]
      dsimp only
      rw [hlen _ filter_sublist]
      exact congrArg _ (filter_congr fun v _ ↦ hfound v)

/-! ### Agreement -/

/-- The same value: the same elements in the same order for arrays, the same pairs for mappings. -/
def Operand.Same : Operand → Operand → Prop
  | .mapping m, .mapping m' => (Mapping.entries m.stored).Perm (Mapping.entries m'.stored)
  | v, v' => v = v'

/-- Both give the same value, or both raise an error. A trap is neither. -/
def Agree : Except Failure Operand → Except Failure Operand → Prop
  | .ok v, .ok v' => v.Same v'
  | .error .trap, _ => False
  | _, .error .trap => False
  | .error _, .error _ => True
  | _, _ => False

/-- The values that the operands of an operator can have. -/
def Operand.Valid (w : World) : Operand → Prop
  | .pointer item => item.length ≤ MAX_ARRAY_SIZE
  | .mapping m => Mapping.Sound w m
  | _ => True

/-- `0 OP y` has a value. -/
def ZeroHasValue : Op → Operand → Prop
  | .divide, .number n | .mod, .number n => n ≠ 0
  | _, .number _ => True
  | .add, .string _ => True
  | _, _ => False

/-- A mapping that may be added to itself: there is room for a second pair for each key that is not
equal to itself, and everything under the other keys is 0 anyway. -/
def Idempotent (w : World) (m : Mapping) : Prop :=
  (union w m m).length ≤ (if m.stored.any (loose w) then m.mcard else 20480) ∧
    ∀ p ∈ m.stored, loose w p = false → p.val = const0

/-- What `x OP= y` needs to do what `x OP y` does, if `x` does not stand for 0; and whether `y` is
`x` itself. -/
def Uniform (w : World) : Op → Bool → Operand → Operand → Prop
  | .add, _, .number _, .string _ => False
  | .add, true, .mapping m, .mapping _ => Idempotent w (m.checkForDestr w)
  | .add, false, .mapping m1, .mapping m2 =>
    let n := (union w (m1.checkForDestr w) (m2.checkForDestr w)).length
    n ≤ 20480 ↔ (m1.checkForDestr w).Fits n
  | .and, _, .pointer p, .pointer r => p.filter (inArray w r) = r.filter (inArray w p)
  | .divide, _, .number m, .number n => ¬(m = INT_MIN ∧ n = -1)
  | .mod, _, .number m, .number n => ¬(m = INT_MIN ∧ n = -1)
  | _, _, _, _ => True

/-- A mapping with a key that is not equal to itself is added to itself, and extended under the
loops that go over it. -/
def Rebuilt (w : World) : Op → Bool → Operand → Prop
  | .add, true, .mapping m =>
    (m.checkForDestr w).stored.any (loose w) = true ∧
      (m.checkForDestr w).mcard < (union w (m.checkForDestr w) (m.checkForDestr w)).length
  | _, _, _ => False

variable {fpu : FloatUnit} {x y : Operand} {itself : Bool}

theorem same_refl (x : Operand) : x.Same x := by
  cases x with
  | mapping m => exact List.Perm.refl _
  | _ => rfl

theorem agree_refl {r : Except Failure Operand} (h : r ≠ .error .trap) : Agree r r := by
  cases r with
  | ok v => exact same_refl v
  | error e =>
    cases e with
    | trap => exact h rfl
    | _ => trivial

theorem agree_float (f : fpu.Double) : Agree (fpu.floatAsgOp f) (fpu.pushFloat f) := by
  rw [FloatUnit.floatAsgOp, FloatUnit.pushFloat]
  split
  · trivial
  · rfl

theorem agree_numberOp (op : Op) (sym : String)
    {f g : BitVec 32 → BitVec 32 → Except Failure (BitVec 32)} (x y : Operand)
    (h : ∀ m n, Agree ((f m n).map .number) ((g m n).map .number)) :
    Agree (numberOp op f x y) (numberOpEq sym g x y) := by
  cases x with
  | number m =>
    cases y with
    | number n => exact h m n
    | _ => trivial
  | _ => trivial

theorem agree_number (op : Op) (sym : String) (f : BitVec 32 → BitVec 32 → BitVec 32)
    (x y : Operand) : Agree (numberOp op (fun m n ↦ .ok (f m n)) x y)
      (numberOpEq sym (fun m n ↦ .ok (f m n)) x y) :=
  agree_numberOp op sym x y fun _ _ ↦ rfl

theorem agree_division (op : Op) (sym t t' : String) (f : BitVec 32 → BitVec 32 → BitVec 32)
    (x y : Operand) :
    Agree (numberOp op (division (.error t) f) x y) (numberOpEq sym (division (.error t') f) x y) ↔
      ∀ m n, x = .number m → y = .number n → ¬(m = INT_MIN ∧ n = -1) := by
  cases x with
  | number m =>
    cases y with
    | number n =>
      have hall : (∀ m' n', Operand.number m = .number m' → Operand.number n = .number n' →
          ¬(m' = INT_MIN ∧ n' = -1)) ↔ ¬(m = INT_MIN ∧ n = -1) :=
        ⟨fun h ↦ h m n rfl rfl, by rintro h _ _ ⟨⟩ ⟨⟩; exact h⟩
      rw [hall, numberOp, numberOpEq, division, division]
      by_cases hn : n = 0
      · rw [if_pos hn, if_pos hn]
        exact iff_of_true trivial fun h ↦ absurd (hn ▸ h.2) (by decide)
      rw [if_neg hn, if_neg hn]
      by_cases htrap : m = INT_MIN ∧ n = -1
      · rw [if_pos htrap]
        exact iff_of_false id (not_not.2 htrap)
      · rw [if_neg htrap]
        exact iff_of_true rfl htrap
    | _ => exact iff_of_true trivial nofun
  | _ => exact iff_of_true trivial nofun

theorem assignOp_dead (fpu : FloatUnit) (hx : x.dead w = true) (itself : Bool) (op : Op)
    (y : Operand) : ∃ e, assignOp fpu w itself op x y = .error e ∧ e ≠ .trap := by
  cases x with
  | object ob => cases op <;> cases y <;> exact ⟨_, rfl, nofun⟩
  | function f => cases op <;> cases y <;> exact ⟨_, rfl, nofun⟩
  | _ => cases hx

/-- `0 OP y` has a value, or is an error. -/
theorem binary_zero (fpu : FloatUnit) (w : World) (op : Op) (y : Operand) :
    (ZeroHasValue op y ∧ ∃ v, binary fpu w op (.number 0) y = .ok v) ∨
      (¬ZeroHasValue op y ∧ ∃ e, binary fpu w op (.number 0) y = .error e ∧ e ≠ .trap) := by
  cases y with
  | number n =>
    have hdivision (t : String) (f : BitVec 32 → BitVec 32 → BitVec 32) :
        (n ≠ 0 ∧ ∃ v, (division (.error t) f 0 n).map Operand.number = .ok v) ∨
          (¬n ≠ 0 ∧ ∃ e, (division (.error t) f 0 n).map Operand.number = .error e ∧
            e ≠ .trap) := by
      by_cases hn : n = 0
      · rw [division, if_pos hn]
        exact .inr ⟨not_not.2 hn, _, rfl, nofun⟩
      · rw [division, if_neg hn, if_neg fun h ↦ absurd h.1 (by decide)]
        exact .inl ⟨hn, _, rfl⟩
    cases op with
    | divide => exact hdivision _ _
    | mod => exact hdivision _ _
    | _ => exact .inl ⟨trivial, _, rfl⟩
  | string s =>
    cases op with
    | add => exact .inl ⟨trivial, _, rfl⟩
    | _ => exact .inr ⟨id, _, rfl, nofun⟩
  | _ => cases op <;> exact .inr ⟨id, _, rfl, nofun⟩

/-! ### Results that are no traps -/

theorem map_ne_trap {α β : Type} {r : Except Failure α} (h : r ≠ .error .trap) (f : α → β) :
    r.map f ≠ .error .trap := by
  cases r with
  | ok v => nofun
  | error e =>
    rintro ⟨⟩
    exact h rfl

theorem allocateArray_ne_trap (n : ℕ) : allocateArray n ≠ .error .trap := by
  rw [allocateArray]
  split <;> nofun

theorem setManipulateArray_ne_trap (p r : List Svalue) (op : SetArr) :
    setManipulateArray w p r op ≠ .error .trap := by
  unfold setManipulateArray
  split
  · cases op with
    | subtract => nofun
    | intersect => exact map_ne_trap (allocateArray_ne_trap 0) _
  · split
    · nofun
    · exact map_ne_trap (allocateArray_ne_trap _) _

theorem unionArray_ne_trap (p r : List Svalue) : unionArray w p r ≠ .error .trap := by
  rw [unionArray]
  split
  · nofun
  split
  · nofun
  split
  · nofun
  · exact map_ne_trap (allocateArray_ne_trap _) _

/-! ### The operators one by one -/

/-- **A mapping that is added to itself.** -/
theorem agree_itself {m : Mapping} (h : Mapping.Sound w m) (y : Mapping) :
    (Uniform w .add true (.mapping m) (.mapping y) →
      Agree (fAdd fpu w (.mapping m) (.mapping m)) (fAddEq fpu w true (.mapping m) (.mapping m))) ∧
    (Agree (fAdd fpu w (.mapping m) (.mapping m)) (fAddEq fpu w true (.mapping m) (.mapping m)) →
      Uniform w .add true (.mapping m) (.mapping y) ∨ Rebuilt w .add true (.mapping m)) := by
  have hlive := h.live
  rw [fAdd, fAddEq, Uniform, Rebuilt, Idempotent, if_pos rfl]
  generalize m.checkForDestr w = m at hlive ⊢
  have hmcard := hlive.toShape.mcard_le
  have hlen : (union w m m).length = m.stored.countP (loose w) + m.stored.length := by
    rw [Mapping.union_self hlive, length_append, length_reverse, Mapping.length_entries,
      Mapping.length_entries, countP_eq_length_filter]
  by_cases hrebuilt : m.stored.any (loose w) = true ∧ m.mcard < (union w m m).length
  · refine ⟨fun hu ↦ ?_, fun _ ↦ .inr hrebuilt⟩
    rw [if_pos hrebuilt.1] at hu
    exact absurd hu.1 (not_le.2 hrebuilt.2)
  have hroom : m.stored.countP (loose w) = 0 ∨
      m.stored.length + m.stored.countP (loose w) ≤ m.mcard := by
    by_cases hany : m.stored.any (loose w) = true
    · right
      have hle := not_lt.1 (mt (And.intro hany) hrebuilt)
      omega
    · left
      rw [countP_eq_zero]
      exact any_eq_false.1 (Bool.eq_false_iff.2 hany)
  obtain ⟨m', hm', hperm'⟩ := Mapping.addtoItself_spec hlive hroom
  obtain ⟨hok, herr⟩ := Mapping.addMapping_spec hlive hlive
  have hlimit : (union w m m).length ≤ (if m.stored.any (loose w) then m.mcard else 20480) ↔
      (union w m m).length ≤ 20480 := by
    split
    next hany => exact ⟨fun h ↦ h.trans hmcard, fun _ ↦ not_lt.1 (mt (And.intro hany) hrebuilt)⟩
    next => exact Iff.rfl
  rw [hm', hlimit]
  suffices hiff : Agree (ofMapping (m.addMapping w m)) (ofMapping (.ok m')) ↔
      (union w m m).length ≤ 20480 ∧ ∀ p ∈ m.stored, loose w p = false → p.val = const0 from
    ⟨hiff.2, fun h ↦ .inl (hiff.1 h)⟩
  by_cases hsize : (union w m m).length ≤ 20480
  · obtain ⟨r, hr, hperm⟩ := hok hsize
    rw [hr, and_iff_right hsize, ← Mapping.entries_cleared]
    have hentries : (Mapping.entries m'.stored).Perm (Mapping.entries (m.stored.filter (loose w)) ++
        Mapping.entries (m.stored.map (Mapping.cleared w))) := by
      rw [Mapping.entries, Mapping.entries, Mapping.entries, ← map_append]
      exact hperm'.map _
    rw [Mapping.union_self hlive] at hperm
    have hperm := hperm.trans ((reverse_perm _).append_right _)
    constructor
    · exact fun hsame ↦
        (perm_append_left_iff _).1 (hperm.symm.trans (List.Perm.trans hsame hentries))
    · exact fun hsame ↦ hperm.trans ((hsame.append_left _).trans hentries.symm)
  · obtain ⟨r, hr⟩ := herr hsize
    rw [hr]
    exact iff_of_false id fun h ↦ hsize h.1

/-- **Adding mappings.** -/
theorem agree_mapping {m1 m2 : Mapping} (h1 : Mapping.Sound w m1) (h2 : Mapping.Sound w m2) :
    Agree (fAdd fpu w (.mapping m1) (.mapping m2))
        (fAddEq fpu w false (.mapping m1) (.mapping m2)) ↔
      Uniform w .add false (.mapping m1) (.mapping m2) := by
  obtain ⟨hok, herr⟩ := Mapping.addMapping_spec h1.live h2.live
  obtain ⟨hok', herr'⟩ := Mapping.addtoMapping_spec h1.live h2.live
  rw [fAdd, fAddEq, Uniform, if_neg Bool.false_ne_true]
  by_cases hroom : (union w (m1.checkForDestr w) (m2.checkForDestr w)).length ≤ 20480 <;>
    by_cases hfits : (m1.checkForDestr w).Fits
      (union w (m1.checkForDestr w) (m2.checkForDestr w)).length
  · obtain ⟨m, hm, hperm⟩ := hok hroom
    obtain ⟨m', hm', hperm'⟩ := hok' hfits
    rw [hm, hm']
    exact iff_of_true (hperm.trans hperm'.symm) (iff_of_true hroom hfits)
  · obtain ⟨m, hm, -⟩ := hok hroom
    obtain ⟨m', hm'⟩ := herr' hfits
    rw [hm, hm']
    exact iff_of_false id fun h ↦ hfits (h.1 hroom)
  · obtain ⟨m, hm⟩ := herr hroom
    obtain ⟨m', hm', -⟩ := hok' hfits
    rw [hm, hm']
    exact iff_of_false id fun h ↦ hroom (h.2 hfits)
  · obtain ⟨m, hm⟩ := herr hroom
    obtain ⟨m', hm'⟩ := herr' hfits
    rw [hm, hm']
    exact iff_of_true trivial (iff_of_false hroom hfits)

theorem agree_add (hx : x.Valid w) (hy : y.Valid w) :
    Agree (fAdd fpu w x y) (fAddEq fpu w false x y) ↔ Uniform w .add false x y := by
  cases x with
  | number m =>
    cases y with
    | number n => exact iff_of_true (congrArg Operand.number (BitVec.add_comm n m)) trivial
    | string t => exact iff_of_false id id
    | _ => exact iff_of_true trivial trivial
  | float f =>
    cases y with
    | float g => exact iff_of_true (agree_float _) trivial
    | _ => exact iff_of_true trivial trivial
  | string s =>
    cases y with
    | string t =>
      refine iff_of_true (agree_refl ?_) trivial
      rw [fAdd]
      split <;> nofun
    | number n => exact iff_of_true rfl trivial
    | _ => exact iff_of_true trivial trivial
  | pointer p =>
    cases y with
    | pointer r =>
      exact iff_of_true
        (agree_refl (map_ne_trap (map_ne_trap (allocateArray_ne_trap _) _) _)) trivial
    | _ => exact iff_of_true trivial trivial
  | mapping m1 =>
    cases y with
    | mapping m2 => exact agree_mapping hx hy
    | _ => exact iff_of_true trivial trivial
  | object ob => cases y <;> exact iff_of_true trivial trivial
  | function f => cases y <;> exact iff_of_true trivial trivial

theorem agree_and (hx : x.Valid w) (hy : y.Valid w) :
    Agree (fAnd w x y) (fAndEq w x y) ↔ Uniform w .and itself x y := by
  cases x with
  | number m =>
    have h := agree_number .and "&" (· &&& ·) (.number m) y
    cases y <;> exact iff_of_true h trivial
  | pointer p =>
    cases y with
    | pointer r =>
      rw [fAnd, fAndEq, intersectArray_eq hx hy, intersectArray_eq hy hx, Uniform]
      exact ⟨fun h ↦ (Operand.pointer.inj h).symm, fun h ↦ congrArg Operand.pointer h.symm⟩
    | _ => exact iff_of_true trivial trivial
  | _ => cases y <;> exact iff_of_true trivial trivial

theorem agree_subtract (x y : Operand) : Agree (fSubtract fpu w x y) (fSubEq fpu w x y) := by
  cases x with
  | number m =>
    have h := agree_number .subtract "-" (· - ·) (.number m) y
    cases y <;> exact h
  | float f =>
    cases y with
    | float g =>
      refine agree_refl ?_
      rw [fSubtract, FloatUnit.floatAsgOp]
      split <;> nofun
    | _ => trivial
  | pointer p =>
    cases y with
    | pointer r => exact agree_refl (map_ne_trap (setManipulateArray_ne_trap _ _ _) _)
    | _ => trivial
  | _ => cases y <;> trivial

theorem agree_multiply (x y : Operand) : Agree (fMultiply fpu x y) (fMultEq fpu x y) := by
  cases x with
  | number m =>
    have h := agree_number .multiply "*" (· * ·) (.number m) y
    cases y <;> exact h
  | float f =>
    cases y with
    | float g => exact agree_float _
    | _ => trivial
  | _ => cases y <;> trivial

theorem agree_divide (x y : Operand) :
    Agree (fDivide fpu x y) (fDivEq fpu x y) ↔ Uniform w .divide itself x y := by
  cases x with
  | number m =>
    have h := agree_division .divide "/" "Division by zero\n" "Division by 0\n" BitVec.sdiv
      (.number m) y
    cases y with
    | number n =>
      exact h.trans ⟨fun h ↦ h m n rfl rfl, by rintro h _ _ ⟨⟩ ⟨⟩; exact h⟩
    | _ => exact iff_of_true (h.2 nofun) trivial
  | float f =>
    cases y with
    | float g =>
      refine iff_of_true ?_ trivial
      rw [fDivide, fDivEq]
      split
      · trivial
      · exact agree_float _
    | _ => exact iff_of_true trivial trivial
  | _ => cases y <;> exact iff_of_true trivial trivial

theorem agree_mod (x y : Operand) : Agree (fMod x y) (fModEq x y) ↔ Uniform w .mod itself x y := by
  have h := agree_division .mod "%" "Modulus by zero.\n" "Division by 0\n" BitVec.srem x y
  cases x with
  | number m =>
    cases y with
    | number n =>
      exact h.trans ⟨fun h ↦ h m n rfl rfl, by rintro h _ _ ⟨⟩ ⟨⟩; exact h⟩
    | _ => exact iff_of_true (h.2 nofun) trivial
  | _ => cases y <;> exact iff_of_true (h.2 nofun) trivial

theorem agree_or (x y : Operand) : Agree (fOr w x y) (fOrEq w x y) := by
  cases x with
  | number m =>
    have h := agree_number .or "|" (· ||| ·) (.number m) y
    cases y <;> exact h
  | pointer p =>
    cases y with
    | pointer r => exact agree_refl (map_ne_trap (unionArray_ne_trap p r) _)
    | _ => trivial
  | _ => cases y <;> trivial

theorem agree_alive (hx : x.Valid w) (hy : y.Valid w) (op : Op)
    (h : op = .add → itself = true → ∀ m, x ≠ .mapping m) :
    Agree (binary fpu w op x y) (assignOp fpu w itself op x y) ↔ Uniform w op itself x y := by
  cases op with
  | add =>
    cases itself with
    | false => exact agree_add hx hy
    | true =>
      have hadd : Agree (fAdd fpu w x y) (fAddEq fpu w false x y) ↔ Uniform w .add false x y :=
        agree_add hx hy
      cases x with
      | mapping m => exact absurd rfl (h rfl rfl m)
      | _ => cases y <;> exact hadd
  | and => exact agree_and hx hy
  | subtract => exact iff_of_true (agree_subtract x y) trivial
  | multiply => exact iff_of_true (agree_multiply x y) trivial
  | divide => exact agree_divide x y
  | mod => exact agree_mod x y
  | or => exact iff_of_true (agree_or x y) trivial
  | xor => exact iff_of_true (agree_number .xor "^" (· ^^^ ·) x y) trivial
  | lsh => exact iff_of_true (agree_number .lsh "<<" lsh x y) trivial
  | rsh => exact iff_of_true (agree_number .rsh ">>" rsh x y) trivial

/-- **Compound assignment agrees with the plain operator** exactly when

* the variable stands for 0 and `0 OP y` is an error, or
* it does not, and the case is not one of those that are written differently: a number in front of
  a string, mappings that one function has room for and the other one has not, a mapping that is
  added to itself and has values, or arrays whose common elements do not stand in the same order and
  number in both; and no quotient that is too large.

Of a mapping whose table is extended while it is added to itself, only the first half is known. -/
theorem agree_iff (fpu : FloatUnit) (w : World) (op : Op) (x : Operand) (r : Right)
    (hx : x.Valid w) (hy : (r.value w x).Valid w) :
    ((x.dead w = true ∧ ¬ZeroHasValue op (r.value w x)) ∨
        (x.dead w = false ∧ Uniform w op r.isItself x (r.value w x)) →
      Agree (plain fpu w op x r) (compound fpu w op x r)) ∧
    (Agree (plain fpu w op x r) (compound fpu w op x r) →
      ((x.dead w = true ∧ ¬ZeroHasValue op (r.value w x)) ∨
        (x.dead w = false ∧ Uniform w op r.isItself x (r.value w x))) ∨
      Rebuilt w op r.isItself x) := by
  cases hdead : x.dead w with
  | true =>
    obtain ⟨e, he, hne⟩ := assignOp_dead fpu hdead r.isItself op (r.value w x)
    have hplain : plain fpu w op x r = binary fpu w op (.number 0) (r.value w x) := by
      rw [plain, fetch, hdead, if_pos rfl]
    rw [hplain, compound, he]
    obtain ⟨hzero, v, hv⟩ | ⟨hzero, e', he', hne'⟩ := binary_zero fpu w op (r.value w x)
    · rw [hv]
      refine ⟨?_, ?_⟩
      · rintro (⟨-, h⟩ | ⟨⟨⟩, -⟩)
        exact absurd hzero h
      · intro h
        cases e <;> cases h
    · rw [he']
      exact ⟨fun _ ↦ by cases e <;> cases e' <;> trivial,
        fun _ ↦ .inl (.inl ⟨rfl, hzero⟩)⟩
  | false =>
    have hplain : plain fpu w op x r = binary fpu w op x (r.value w x) := by
      rw [plain, fetch, hdead, if_neg Bool.false_ne_true]
    rw [hplain, compound]
    suffices hboth : (Uniform w op r.isItself x (r.value w x) →
        Agree (binary fpu w op x (r.value w x))
          (assignOp fpu w r.isItself op x (r.value w x))) ∧
        (Agree (binary fpu w op x (r.value w x)) (assignOp fpu w r.isItself op x (r.value w x)) →
          Uniform w op r.isItself x (r.value w x) ∨ Rebuilt w op r.isItself x) from
      ⟨fun h ↦ hboth.1 (h.elim (fun h ↦ absurd h.1 (by decide)) And.right),
        fun h ↦ (hboth.2 h).imp_left fun h ↦ .inr ⟨rfl, h⟩⟩
    by_cases hitself : op = .add ∧ r.isItself = true ∧ ∃ m, x = .mapping m
    · obtain ⟨rfl, hr, m, rfl⟩ := hitself
      cases r with
      | itself =>
        rw [Right.value, fetch, hdead, if_neg Bool.false_ne_true]
        exact @agree_itself w fpu m hx m
      | other y => cases hr
    · have halive : Agree (binary fpu w op x (r.value w x))
          (assignOp fpu w r.isItself op x (r.value w x)) ↔
            Uniform w op r.isItself x (r.value w x) :=
        agree_alive hx hy op fun hop hr m hm ↦ hitself ⟨hop, hr, m, hm⟩
      exact ⟨halive.2, fun h ↦ .inl (halive.1 h)⟩

instance : Inhabited FloatUnit :=
  ⟨{ Double := CFloat, add := fun x _ ↦ x, sub := fun x _ ↦ x, mul := fun x _ ↦ x,
     div := fun x _ ↦ x, overflow := fun _ ↦ false, underflow := fun _ ↦ false, toFloat := id }⟩

instance : Inhabited World :=
  ⟨⟨fun _ ↦ false, fun _ ↦ true⟩⟩

/-- `({ 1, 2 }) & ({ 2, 1 })` is `({ 2, 1 })`, and `&=` leaves `({ 1, 2 })`; with itself, an array
gives itself both times. -/
theorem agree_iff_and :
    ¬Agree
      (plain default default .and (.pointer [.number 1, .number 2])
        (.other (.pointer [.number 2, .number 1])))
      (compound default default .and (.pointer [.number 1, .number 2])
        (.other (.pointer [.number 2, .number 1]))) ∧
    Agree (plain default default .and (.pointer [.number 1, .number 2]) .itself)
      (compound default default .and (.pointer [.number 1, .number 2]) .itself) := by
  have hvalid (a b : Svalue) : (Operand.pointer [a, b]).Valid default :=
    show 2 ≤ MAX_ARRAY_SIZE by decide
  constructor
  · intro hagree
    rcases (agree_iff _ _ _ _ (.other (.pointer [.number 2, .number 1])) (hvalid _ _)
      (hvalid _ _)).2 hagree with (⟨hdead, -⟩ | ⟨-, hsame⟩) | hrebuilt
    · cases hdead
    · have hlists : [Svalue.number 1, .number 2] = [.number 2, .number 1] := hsame
      simp at hlists
    · exact hrebuilt
  · exact (agree_iff _ _ _ _ .itself (hvalid _ _) (hvalid _ _)).1 (.inr ⟨rfl, rfl⟩)

/-- `1 + "a"` is `"1a"`, and `+=` raises an error. -/
theorem not_agree : ¬∀ fpu w op x r, Operand.Valid w x → (Right.value w x r).Valid w →
    Agree (plain fpu w op x r) (compound fpu w op x r) := fun h ↦
  h default default .add (.number 1) (.other (.string (.ofBytes [97]))) trivial trivial

end Lpmud.Interpret
