import Lpmud.Interpret.Operators

/-!
# Arrays as sets

`-`, `&` and `|` of arrays are made with a mapping: the elements of one array become its keys, and
those of the other one are looked up. A scan would compare each with each (`scan`).

A key is looked for among those with its hash value. Values that are equal have the same one, but
for those that stand for 0: a destructed object is equal to 0 and to every other destructed object,
and has the hash value of its address. And a key that is equal to one that is there is not added,
which makes a difference for a function that cannot be called: it is equal to 0, but not to a
destructed object that has been taken for it. These are the values that are missed (`Missed`), and
with them the operations are what the scan makes of them or not (`matchesScan_iff`).
-/

namespace Lpmud.Interpret

open List
open Object (MAX_ARRAY_SIZE)
open Mapping (sameKey addKey)

/-! ### Values that stand for 0 -/

section Equality

variable {w : World} {x e k : Svalue} {f : Addr}

/-- 0, or a destructed object. -/
def isZero (w : World) : Svalue → Bool
  | .number n => n == 0
  | .object ob => w.destructed ob
  | _ => false

theorem equalSvalue_of_isZero (hx : isZero w x = true) : equalSvalue w x e = isZero w e := by
  cases x with
  | number n =>
    obtain rfl : n = 0 := by simpa [isZero] using hx
    cases e with
    | number n' => exact Bool.beq_comm
    | object ob => simp [equalSvalue, isZero]
    | _ => rfl
  | object ob =>
    rw [isZero] at hx
    cases e with
    | object ob' =>
      simp only [equalSvalue, isZero, hx, Bool.true_and, Bool.or_eq_left_iff_imp, beq_iff_eq]
      rintro rfl
      exact hx
    | _ => simp [equalSvalue, isZero, hx]
  | _ => simp [isZero] at hx

theorem equalSvalue_illegal (hf : w.legalClosure f = false) :
    equalSvalue w (.function f) e = true ↔ e = const0 ∨ e = .function f := by
  cases e with
  | number n => simp [equalSvalue, hf, const0]
  | function g => simp [equalSvalue, const0, eq_comm (a := g)]
  | _ => simp [equalSvalue, const0]

theorem CFloat.eq_congr {a b c : CFloat} (h : a.eq b = true) : b.eq c = a.eq c := by
  simp only [CFloat.eq, Bool.and_eq_true, Bool.not_eq_true', Bool.or_eq_true, beq_iff_eq] at h ⊢
  obtain ⟨⟨ha, hb⟩, rfl | ⟨ha0, hb0⟩⟩ := h
  · rfl
  · rw [ha, hb]
    by_cases hc : c.isZero = true
    · simp [ha0, hb0, hc]
    · have hne {d : CFloat} (hd : d.isZero = true) : (d == c) = false := by
        rw [beq_eq_false_iff_ne]
        rintro rfl
        exact hc hd
      simp [hc, hne ha0, hne hb0]

theorem equalSvalue_congr (hx : isZero w x = false)
    (hfun : ∀ f, x = .function f → w.legalClosure f = true) (h : equalSvalue w x e = true) :
    equalSvalue w e k = equalSvalue w x k := by
  cases x with
  | number n =>
    cases e with
    | number n' =>
      obtain rfl : n = n' := by simpa [equalSvalue] using h
      rfl
    | object ob =>
      rw [equalSvalue, Bool.and_eq_true] at h
      rw [isZero, h.1] at hx
      cases hx
    | _ => cases h
  | float a =>
    cases e with
    | float b =>
      cases k with
      | float c => exact CFloat.eq_congr h
      | _ => rfl
    | _ => cases h
  | string s =>
    cases e with
    | string t =>
      obtain rfl : s = t := by simpa [equalSvalue] using h
      rfl
    | _ => cases h
  | object ob =>
    rw [isZero] at hx
    cases e with
    | object ob' =>
      obtain rfl : ob = ob' := by simpa [equalSvalue, hx] using h
      rfl
    | number n => simp [equalSvalue, hx] at h
    | _ => cases h
  | pointer vec item =>
    cases e with
    | pointer vec' item' =>
      obtain rfl : vec = vec' := by simpa [equalSvalue] using h
      cases k <;> rfl
    | _ => cases h
  | mapping map pairs =>
    cases e with
    | mapping map' pairs' =>
      obtain rfl : map = map' := by simpa [equalSvalue] using h
      cases k <;> rfl
    | _ => cases h
  | function f =>
    have hf := hfun f rfl
    cases e with
    | function g =>
      obtain rfl : f = g := by simpa [equalSvalue] using h
      rfl
    | number n => simp [equalSvalue, hf] at h
    | _ => cases h

theorem sameKey_trans (hfun : ∀ f, x = .function f → w.legalClosure f = true)
    (hxe : sameKey w x e = true) (hek : sameKey w e k = true) : sameKey w x k = true := by
  rw [sameKey, Bool.and_eq_true, decide_eq_true_eq] at hxe hek ⊢
  refine ⟨hek.1.trans hxe.1, ?_⟩
  by_cases hx : isZero w x = true
  · rw [equalSvalue_of_isZero hx] at hxe ⊢
    rw [equalSvalue_of_isZero hxe.2] at hek
    exact hek.2
  · rw [← equalSvalue_congr (Bool.eq_false_iff.2 hx) hfun hxe.2]
    exact hek.2

end Equality

/-! ### The keys of an array -/

section Keys

variable {w : World} {x e : Svalue} {f : Addr} {b ks : List Svalue}

/-- Which keys are found among those that an array gives, but for functions that cannot be
called. -/
theorem any_foldl_addKey (hfun : ∀ f, x = .function f → w.legalClosure f = true)
    (b ks : List Svalue) :
    (b.foldl (addKey w) ks).any (sameKey w x) = true ↔
      ks.any (sameKey w x) = true ∨ b.any (sameKey w x) = true := by
  induction b generalizing ks with
  | nil => simp
  | cons e b ih =>
    rw [foldl_cons, ih, any_cons, Bool.or_eq_true, ← or_assoc]
    refine or_congr ?_ Iff.rfl
    rw [addKey]
    split
    case isTrue h =>
      refine (or_iff_left_of_imp fun hxe ↦ ?_).symm
      obtain ⟨k, hk, hek⟩ := any_eq_true.1 h
      exact any_eq_true.2 ⟨k, hk, sameKey_trans hfun hxe hek⟩
    case isFalse => rw [any_cons, Bool.or_eq_true, or_comm]

theorem sameKey_illegal (hf : w.legalClosure f = false) :
    sameKey w (.function f) e = true ↔ e = const0 ∨ e = .function f := by
  rw [sameKey, Bool.and_eq_true, decide_eq_true_eq, equalSvalue_illegal hf, and_iff_right_iff_imp]
  rintro (rfl | rfl) <;> rfl

/-- A function that cannot be called is found if it is there, or if 0 is there and no destructed
object has been taken for it. -/
theorem any_foldl_illegal (hf : w.legalClosure f = false) (b ks : List Svalue) :
    (b.foldl (addKey w) ks).any (sameKey w (.function f)) = true ↔
      ks.any (sameKey w (.function f)) = true ∨ .function f ∈ b ∨
        ks.any (sameKey w const0) = false ∧ b.find? (sameKey w const0) = some const0 := by
  have hzero : ∀ f, const0 = .function f → w.legalClosure f = true := nofun
  have hrefl : sameKey w const0 const0 = true := rfl
  induction b generalizing ks with
  | nil => simp
  | cons e b ih =>
    refine (ih (addKey w ks e)).trans ?_
    rw [mem_cons, List.find?_cons]
    by_cases hef : e = .function f
    · -- the function is there, or it is added
      refine iff_of_true (.inl ?_) (.inr (.inl (.inl hef.symm)))
      rw [addKey]
      split
      case isTrue h => exact hef ▸ h
      case isFalse =>
        rw [any_cons, (sameKey_illegal hf).2 (.inr hef), Bool.true_or]
    have hne : ¬(.function f = e) := fun h ↦ hef h.symm
    rw [addKey]
    split
    case isTrue h =>
      -- nothing is added, and what is like 0 is there already
      by_cases hlike : sameKey w const0 e = true
      · have hany : ks.any (sameKey w const0) = true := by
          obtain ⟨k, hk, hek⟩ := any_eq_true.1 h
          exact any_eq_true.2 ⟨k, hk, sameKey_trans hzero hlike hek⟩
        simp [hany, hne]
      · simp [hlike, hne]
    case isFalse h =>
      by_cases he : e = const0
      · subst he
        have hnone : ks.any (sameKey w const0) = false := Bool.eq_false_iff.2 h
        have hfound : sameKey w (.function f) const0 = true := (sameKey_illegal hf).2 (.inl rfl)
        simp [hfound, hnone, hrefl]
      · have hnot : sameKey w (.function f) e = false :=
          Bool.eq_false_iff.2 fun h ↦ ((sameKey_illegal hf).1 h).elim he hef
        by_cases hlike : sameKey w const0 e = true
        · simp [hnot, hlike, hne, he]
        · simp [hnot, hlike, hne]

/-- **The values that are missed**: they are equal to an element of the array, but either no such
element has their hash value, or it is a function that cannot be called, which is not there itself,
and a destructed object with the hash value of 0 stands in front of the first 0. -/
def Missed (w : World) (x : Svalue) (b : List Svalue) : Prop :=
  b.any (equalSvalue w x) = true ∧
    ((∀ e ∈ b, equalSvalue w x e = true → hashsvalue e ≠ hashsvalue x) ∨
      ∃ f, x = .function f ∧ w.legalClosure f = false ∧ .function f ∉ b ∧
        b.find? (sameKey w const0) ≠ some const0)

/-- **Which values are found**: those that a scan would find, and that are not missed. -/
theorem found_keys_iff : (b.foldl (addKey w) []).any (sameKey w x) = true ↔
    b.any (equalSvalue w x) = true ∧ ¬Missed w x b := by
  by_cases hfun : ∀ f, x = .function f → w.legalClosure f = true
  · rw [any_foldl_addKey hfun, any_nil, any_eq_true, any_eq_true]
    simp only [Bool.false_eq_true, false_or, sameKey, Bool.and_eq_true, decide_eq_true_eq]
    constructor
    · rintro ⟨e, he, hhash, hequal⟩
      refine ⟨⟨e, he, hequal⟩, ?_⟩
      rintro ⟨-, hall | ⟨f, rfl, hf, -⟩⟩
      · exact hall e he hequal hhash
      · rw [hfun f rfl] at hf
        cases hf
    · rintro ⟨hany, hnot⟩
      by_contra hnone
      exact hnot ⟨any_eq_true.2 hany, .inl fun e he hequal hhash ↦
        hnone ⟨e, he, hhash, hequal⟩⟩
  · push Not at hfun
    obtain ⟨f, rfl, hf⟩ := hfun
    have hf : w.legalClosure f = false := Bool.eq_false_iff.2 hf
    have hmem : b.find? (sameKey w const0) = some const0 → const0 ∈ b := mem_of_find?_eq_some
    have hhash {e : Svalue} (h : equalSvalue w (.function f) e = true) :
        hashsvalue e = hashsvalue (.function f) := by
      obtain rfl | rfl := (equalSvalue_illegal hf).1 h <;> rfl
    rw [any_foldl_illegal hf, Missed]
    simp only [any_nil, any_eq_true, Bool.false_eq_true, false_or, true_and,
      Svalue.function.injEq, exists_eq_left', hf, equalSvalue_illegal hf]
    constructor
    · intro h
      have hex : ∃ e ∈ b, e = const0 ∨ e = .function f :=
        h.elim (fun h ↦ ⟨_, h, .inr rfl⟩) fun h ↦ ⟨_, hmem h, .inl rfl⟩
      refine ⟨hex, ?_⟩
      rintro ⟨-, hall | ⟨hnot, hfind⟩⟩
      · obtain ⟨e, he, hequal⟩ := hex
        exact hall e he hequal (hhash ((equalSvalue_illegal hf).2 hequal))
      · exact h.elim hnot hfind
    · rintro ⟨hex, hnot⟩
      by_contra hnone
      rw [not_or] at hnone
      exact hnot ⟨hex, .inr hnone⟩

theorem missed_append {h : Svalue} (hb : h ∈ b) : Missed w x (b ++ [h]) ↔ Missed w x b := by
  have hmem (e : Svalue) : e ∈ b ++ [h] ↔ e ∈ b := by
    rw [mem_append, mem_singleton, or_iff_left_iff_imp]
    rintro rfl
    exact hb
  have hfind : (b ++ [h]).find? (sameKey w const0) = b.find? (sameKey w const0) := by
    rw [List.find?_append]
    cases hnone : b.find? (sameKey w const0) with
    | some e => rfl
    | none =>
      have hnot := List.find?_eq_none.1 hnone h hb
      rw [Option.none_or, List.find?_singleton, if_neg hnot]
  simp only [Missed, any_eq_true, hmem, hfind]

end Keys

/-! ### The operations -/

section Operations

variable {w : World} {a b : List Svalue}

/-- Whether a scan of the array finds an equal element. -/
def scan (w : World) (b : List Svalue) (x : Svalue) : Bool :=
  b.any (equalSvalue w x)

theorem found_assignAll (msize : ℤ) (ps : List (Svalue × Svalue)) (hps : ps.length ≤ 10240) :
    ∃ m, Mapping.assignAll w (Mapping.allocateMap msize) ps = .ok m ∧ ∀ x,
      m.found w x = true ↔ scan w (ps.map Prod.fst) x = true ∧ ¬Missed w x (ps.map Prod.fst) := by
  obtain ⟨m, hok, hm, hkeys, -⟩ := (Mapping.filled_allocateMap msize).assignAll (w := w) ps
    (by rwa [Mapping.stored_allocateMap, length_nil, Nat.zero_add])
  refine ⟨m, hok, fun x ↦ ?_⟩
  rw [Mapping.keys_allocateMap] at hkeys
  rw [hm.toShape.found_eq, hkeys.any_eq, found_keys_iff, scan]

/-- The mapping of `set_manipulate_array`. -/
theorem found_makeMapping (hb : b ≠ []) (hlen : b.length ≤ MAX_ARRAY_SIZE) :
    ∃ m, ((Mapping.makeMapping w (some b) none).bind fun m ↦
        m.assign w (b.headD const0) (.number 1)) = .ok m ∧
      ∀ x, m.found w x = true ↔ scan w b x = true ∧ ¬Missed w x b := by
  have hhead : b.headD const0 ∈ b := by
    cases b with
    | nil => exact absurd rfl hb
    | cons e b => exact mem_cons_self
  have hfst : (b.zipIdx.map fun p ↦ (p.1, Svalue.number (.ofNat 32 p.2))).map Prod.fst = b := by
    rw [map_map]
    exact zipIdx_map_fst 0 b
  obtain ⟨m, hok, hfound⟩ := found_assignAll (w := w) b.length
    ((b.zipIdx.map fun p ↦ (p.1, .number (.ofNat 32 p.2))) ++ [(b.headD const0, .number 1)]) (by
        simp only [MAX_ARRAY_SIZE] at hlen
        simp only [length_append, length_map, length_zipIdx, length_singleton]
        omega)
  refine ⟨m, ?_, fun x ↦ ?_⟩
  · rw [Mapping.assignAll_append] at hok
    rw [Mapping.makeMapping, ← hok]
    congr 1
    funext m
    rw [Mapping.assignAll]
    cases m.assign w (b.headD const0) (.number 1) <;> rfl
  · rw [hfound, map_append, hfst, map_singleton, missed_append hhead, scan, scan,
      any_append]
    refine and_congr_left fun _ ↦ ?_
    rw [Bool.or_eq_true, or_iff_left_iff_imp, any_cons, any_nil, Bool.or_false]
    exact fun h ↦ any_eq_true.2 ⟨_, hhead, h⟩

theorem filter_eq_filter_iff {α : Type} {p q : α → Bool} {l : List α} :
    l.filter p = l.filter q ↔ ∀ x ∈ l, p x = q x := by
  refine ⟨fun h x hx ↦ ?_, filter_congr⟩
  have hmem : x ∈ l.filter p ↔ x ∈ l.filter q := by rw [h]
  rw [mem_filter, mem_filter, and_iff_right hx, and_iff_right hx] at hmem
  exact Bool.eq_iff_iff.2 hmem

theorem found_eq_scan_iff {x : Svalue} {found : Bool}
    (hfound : found = true ↔ scan w b x = true ∧ ¬Missed w x b) :
    found = scan w b x ↔ ¬Missed w x b := by
  rw [Bool.eq_iff_iff, hfound, and_iff_left_iff_imp]
  exact ⟨fun h hmissed ↦ h hmissed.1 hmissed, fun h _ ↦ h⟩

theorem allocateArray_eq {n : ℕ} (h : n ≤ MAX_ARRAY_SIZE) : allocateArray n = .ok () := by
  rw [allocateArray, if_neg (Nat.not_lt.2 h)]

/-- The operations are what a scan makes of them. -/
structure MatchesScan (w : World) (a b : List Svalue) : Prop where
  subtract : subtractArray w a b = .ok (a.filter fun x ↦ !scan w b x)
  intersect : intersectArray w a b = .ok (a.filter fun x ↦ scan w b x)
  union : unionArray w a b = .ok (a ++ b.filter fun x ↦ !scan w a x)

theorem setManipulateArray_iff (ha : a.length ≤ MAX_ARRAY_SIZE) (hb : b.length ≤ MAX_ARRAY_SIZE) :
    (subtractArray w a b = .ok (a.filter fun x ↦ !scan w b x) ↔ ∀ x ∈ a, ¬Missed w x b) ∧
      (intersectArray w a b = .ok (a.filter fun x ↦ scan w b x) ↔ ∀ x ∈ a, ¬Missed w x b) := by
  rw [subtractArray, intersectArray, setManipulateArray, setManipulateArray]
  by_cases hempty : a.length < 1 ∨ b.length < 1
  · rw [if_pos hempty, if_pos hempty]
    rcases hempty with h | h
    · obtain rfl := length_eq_zero_iff.1 (Nat.lt_one_iff.1 h)
      exact ⟨iff_of_true rfl nofun, iff_of_true rfl nofun⟩
    · obtain rfl := length_eq_zero_iff.1 (Nat.lt_one_iff.1 h)
      have hnot : ∀ x ∈ a, ¬Missed w x [] := fun x _ hmissed ↦ nomatch hmissed.1
      refine ⟨iff_of_true ?_ hnot, iff_of_true ?_ hnot⟩
      · simp [scan]
      · simp [scan, allocateArray, Except.map]
  · have hne : b ≠ [] := by
      rintro rfl
      exact hempty (.inr Nat.one_pos)
    obtain ⟨m, hok, hfound⟩ := found_makeMapping (w := w) hne hb
    have hsize (p : Svalue → Bool) : allocateArray (a.filter p).length = .ok () :=
      allocateArray_eq ((length_filter_le p a).trans ha)
    rw [if_neg hempty, if_neg hempty, hok]
    dsimp only
    rw [hsize, hsize, Except.map, Except.map, Except.ok.injEq, Except.ok.injEq,
      filter_eq_filter_iff, filter_eq_filter_iff]
    constructor
    · refine forall₂_congr fun x _ ↦ ?_
      rw [← found_eq_scan_iff (hfound x), Bool.not_inj_iff]
    · exact forall₂_congr fun x _ ↦ found_eq_scan_iff (hfound x)

theorem unionArray_iff (ha : a.length ≤ MAX_ARRAY_SIZE) (hb : b.length ≤ MAX_ARRAY_SIZE) :
    unionArray w a b = .ok (a ++ b.filter fun x ↦ !scan w a x) ↔
      (∀ x ∈ b, ¬Missed w x a) ∧
        (a ++ b.filter fun x ↦ !scan w a x).length ≤ MAX_ARRAY_SIZE := by
  rw [unionArray]
  by_cases hanil : a = []
  · subst hanil
    have hall : (b.filter fun x ↦ !scan w [] x) = b := filter_eq_self.2 fun _ _ ↦ rfl
    rw [if_pos length_nil, nil_append, hall]
    exact iff_of_true rfl ⟨fun x _ hmissed ↦ (nomatch hmissed.1), hb⟩
  rw [if_neg (length_eq_zero_iff.not.2 hanil)]
  by_cases hbnil : b = []
  · subst hbnil
    rw [if_pos length_nil, filter_nil, append_nil]
    exact iff_of_true rfl ⟨nofun, ha⟩
  rw [if_neg (length_eq_zero_iff.not.2 hbnil)]
  have hfst : (a.map fun v ↦ (v, Svalue.number 1)).map Prod.fst = a := by
    rw [map_map]
    exact map_id a
  obtain ⟨m, hok, hfound⟩ := found_assignAll (w := w) a.length
    (a.map fun v ↦ (v, .number 1)) (by
      simp only [MAX_ARRAY_SIZE] at ha
      rw [length_map]
      omega)
  rw [hfst] at hfound
  -- what is not found is what the scan does not find
  have hset : (b.filter fun x ↦ !m.found w x) = (b.filter fun x ↦ !scan w a x) ↔
      ∀ x ∈ b, ¬Missed w x a := by
    rw [filter_eq_filter_iff]
    refine forall₂_congr fun x _ ↦ ?_
    rw [← found_eq_scan_iff (hfound x), Bool.not_inj_iff]
  rw [hok, length_append]
  dsimp only
  constructor
  · intro h
    by_cases hsize : a.length + (b.filter fun x ↦ !m.found w x).length ≤ MAX_ARRAY_SIZE
    · rw [allocateArray_eq hsize, Except.map, Except.ok.injEq, append_cancel_left_eq] at h
      exact ⟨hset.1 h, h ▸ hsize⟩
    · rw [allocateArray, if_pos (Nat.not_le.1 hsize)] at h
      exact nomatch h
  · rintro ⟨hnone, hsize⟩
    rw [hset.2 hnone, allocateArray_eq hsize, Except.map]

/-- **The operations on arrays are the scans just when no value is missed**, and when the union is
not too large. -/
theorem matchesScan_iff (ha : a.length ≤ MAX_ARRAY_SIZE) (hb : b.length ≤ MAX_ARRAY_SIZE) :
    MatchesScan w a b ↔ (∀ x ∈ a, ¬Missed w x b) ∧ (∀ x ∈ b, ¬Missed w x a) ∧
      (a ++ b.filter fun x ↦ !scan w a x).length ≤ MAX_ARRAY_SIZE := by
  obtain ⟨hsubtract, hintersect⟩ := setManipulateArray_iff (w := w) ha hb
  have hunion := unionArray_iff (w := w) ha hb
  constructor
  · rintro ⟨h, -, hu⟩
    exact ⟨hsubtract.1 h, hunion.1 hu⟩
  · rintro ⟨h, hu⟩
    exact ⟨hsubtract.2 h, hintersect.2 h, hunion.2 hu⟩

theorem not_missed {x : Svalue} {b : List Svalue} (hx : x.IsKey w) (hb : ∀ e ∈ b, e.IsKey w) :
    ¬Missed w x b := by
  rintro ⟨hany, h | ⟨f, rfl, -⟩⟩
  · obtain ⟨e, he, heq⟩ := any_eq_true.1 hany
    exact h e he heq (by rw [(equalSvalue_iff hx (hb e he)).1 heq])
  · exact hx

/-- Arrays that have a number and an object in common. -/
theorem matchesScan_iff_common :
    MatchesScan .calm [.number 1, .object 16, .number 2, .number 2]
      [.object 16, .number 2, const0] := by
  have ha : ∀ x ∈ [Svalue.number 1, .object 16, .number 2, .number 2], x.IsKey .calm := by
    simp [Svalue.IsKey]
  have hb : ∀ x ∈ [Svalue.object 16, .number 2, const0], x.IsKey .calm := by
    simp [Svalue.IsKey, const0]
  exact (matchesScan_iff (by decide) (by decide)).2
    ⟨fun x hx ↦ not_missed (ha x hx) hb, fun x hx ↦ not_missed (hb x hx) ha, by decide⟩

/-- The number 0 and a destructed object at the address 16 are equal, but `&` does not find the one
in an array of the other. -/
theorem not_matchesScan : ¬∀ (w : World) (a b : List Svalue), a.length ≤ MAX_ARRAY_SIZE →
    b.length ≤ MAX_ARRAY_SIZE → MatchesScan w a b := by
  intro hall
  have hagree := hall ⟨fun _ ↦ true, fun _ ↦ true⟩ [const0] [.object 16] (by decide) (by decide)
  have hmissed : Missed ⟨fun _ ↦ true, fun _ ↦ true⟩ const0 [.object 16] := by
    refine ⟨rfl, .inl fun e he _ ↦ ?_⟩
    rw [mem_singleton.1 he]
    decide
  exact ((setManipulateArray_iff (by decide) (by decide)).2.1 hagree.intersect) const0
    (mem_singleton_self _) hmissed

end Operations

end Lpmud.Interpret
