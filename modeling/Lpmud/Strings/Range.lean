import Lpmud.Svalue
import Mathlib.Data.BitVec

/-!
# Parts of strings and arrays

`s[from..to]`, for strings and arrays (`f_range` of `interpret.c` and `slice_array` of `array.c`),
and `extract(s, from, to)`, for strings (`f_extract`). A negative position counts from the end.

The two are written independently. Both take the elements whose index lies between the positions;
but where `from` lies before the beginning even when it is counted from the end, a range begins at
the first element, and `extract` goes on with a negative index (`subrange_iff`).

Both put the length of a string into an `int`, which is the length of one of less than `2 ^ 31`
characters.
-/

namespace Lpmud.Subrange

open List

/-- The `type[0]` of `[ .. ]`: a string or an array. -/
inductive Sequence where
  | string (s : CString)
  | array (item : List Svalue)

/-- How an efun or an operator ends: with a value, with an error about its argument, or after it has
read outside of the string or the array. -/
inductive Result where
  | value (v : Sequence)
  | badArg (arg : ℕ)
  | outside

/-- `len = strlen(s)`, an `int`. -/
def strlen (s : CString) : ℤ :=
  (BitVec.ofNat 32 s.bytes.length).toInt

/-- A position, counted from the end if it is negative. -/
def position (len : ℤ) (i : BitVec 32) : ℤ :=
  if i.toInt < 0 then len + i.toInt else i.toInt

/-- `make_mstring(s + from)`. -/
def tailFrom (s : CString) (from' : ℤ) : Result :=
  if 0 ≤ from' ∧ from' ≤ s.bytes.length then
    .value (.string (CString.ofBytes (s.bytes.drop from'.toNat)))
  else .outside

/-- `allocate_mstring` and `strncpy`, of `n` characters. -/
def copyFrom (s : CString) (from' n : ℤ) : Result :=
  if 0 ≤ from' ∧ from' ≤ s.bytes.length then
    .value (.string (CString.ofBytes ((s.bytes.drop from'.toNat).take n.toNat)))
  else .outside

/-- The end of `f_extract` and of `f_range`, when `from` is below the length. -/
def upTo (s : CString) (from' to' : ℤ) : Result :=
  let len := strlen s
  if to' < from' then .value (.string (CString.ofBytes []))
  else
    let t := if to' ≥ len then len - 1 else to'
    if t = len - 1 then tailFrom s from' else copyFrom s from' (t - from' + 1)

/-- `f_extract`, with up to two positions. -/
def extract : Sequence → List (BitVec 32) → Result
  | .array _, _ => .badArg 1
  | .string s, [] => .value (.string s)
  | .string s, from' :: rest =>
    let f := position (strlen s) from'
    if f ≥ strlen s then .value (.string (CString.ofBytes []))
    else
      match rest with
      | [] => tailFrom s f
      | to' :: _ => upTo s f (position (strlen s) to')

/-- The loop of `slice_array`, over the indices of the slice. -/
def copyItems (item : List Svalue) : ℤ → ℕ → Option (List Svalue)
  | _, 0 => some []
  | i, n + 1 =>
    if i < 0 then none
    else
      match item[i.toNat]? with
      | none => none
      | some v => (copyItems item (i + 1) n).map (v :: ·)

/-- `slice_array`. The slice is not larger than the array, so `allocate_array` raises no error. -/
def sliceArray (item : List Svalue) (from' to' : BitVec 32) : Option (List Svalue) :=
  let size : ℤ := item.length
  let f := position item.length from'
  let f := if f < 0 then 0 else f
  if f ≥ size then some []
  else
    let t := position item.length to'
    let t := if t ≥ size then size - 1 else t
    if t < f then some [] else copyItems item f (t - f + 1).toNat

/-- `f_range`, on two numbers. -/
def range : Sequence → BitVec 32 → BitVec 32 → Result
  | .array item, from', to' =>
    match sliceArray item from' to' with
    | some d => .value (.array d)
    | none => .outside
  | .string s, from', to' =>
    let f := position (strlen s) from'
    let f := if f < 0 then 0 else f
    if f ≥ strlen s then .value (.string (CString.ofBytes []))
    else upTo s f (position (strlen s) to')

theorem range_array (item : List Svalue) (from' to' : BitVec 32) :
    range (.array item) from' to' =
      match sliceArray item from' to' with
      | some d => .value (.array d)
      | none => .outside :=
  rfl

theorem range_string (s : CString) (from' to' : BitVec 32) :
    range (.string s) from' to' =
      let f := if position (strlen s) from' < 0 then 0 else position (strlen s) from'
      if f ≥ strlen s then .value (.string (CString.ofBytes []))
      else upTo s f (position (strlen s) to') :=
  rfl

/-! ### What a range is -/

/-- The elements of a list whose index is not below `lo` and not above `hi`. -/
def between {α : Type} (l : List α) (lo hi : ℤ) : List α :=
  (l.zipIdx.filter fun x ↦ lo ≤ x.2 ∧ (x.2 : ℤ) ≤ hi).map Prod.fst

/-- **The part of a string or an array between two positions.** -/
def Sequence.part (from' to' : BitVec 32) : Sequence → Sequence
  | .string s => .string (CString.ofBytes
      (between s.bytes (position s.bytes.length from') (position s.bytes.length to')))
  | .array item => .array (between item (position item.length from') (position item.length to'))

/-- Its length is an `int`: that of an array always is. -/
def Sequence.Short : Sequence → Prop
  | .string s => s.bytes.length < 2 ^ 31
  | .array _ => True

/-- A string, and `from` is not before its beginning, or else nothing is between the positions. -/
def Sequence.Inside (from' to' : BitVec 32) : Sequence → Prop
  | .string s => 0 ≤ position s.bytes.length from' ∨
      position s.bytes.length to' < position s.bytes.length from'
  | .array _ => False

theorem filter_zipIdx {α : Type} (l : List α) (lo hi : ℤ) : ∀ k : ℕ,
    ((l.zipIdx k).filter fun x ↦ lo ≤ x.2 ∧ (x.2 : ℤ) ≤ hi).map Prod.fst =
      (l.take (hi + 1 - k).toNat).drop (lo - k).toNat := by
  induction l with
  | nil => simp
  | cons x l ih =>
    intro k
    have hrest := ih (k + 1)
    push_cast at hrest
    rw [zipIdx_cons]
    by_cases hlo : lo ≤ k
    · by_cases hhi : (k : ℤ) ≤ hi
      · rw [filter_cons_of_pos (by simp [hlo, hhi]), map_cons, hrest]
        rw [show (hi + 1 - k).toNat = (hi + 1 - (k + 1)).toNat + 1 by omega, take_succ_cons,
          show (lo - k).toNat = 0 by omega, show (lo - (k + 1)).toNat = 0 by omega,
          drop_zero, drop_zero]
      · rw [filter_cons_of_neg (by simp [hhi]), hrest,
          show (hi + 1 - k).toNat = 0 by omega, show (hi + 1 - (k + 1)).toNat = 0 by omega]
        simp
    · rw [filter_cons_of_neg (by simp [hlo]), hrest]
      rcases le_or_gt (hi + 1) k with hhi | hhi
      · rw [show (hi + 1 - k).toNat = 0 by omega, show (hi + 1 - (k + 1)).toNat = 0 by omega]
        simp
      · rw [show (hi + 1 - k).toNat = (hi + 1 - (k + 1)).toNat + 1 by omega, take_succ_cons,
          show (lo - k).toNat = (lo - (k + 1)).toNat + 1 by omega, drop_succ_cons]

theorem between_eq {α : Type} (l : List α) (lo hi : ℤ) :
    between l lo hi = (l.take (hi + 1).toNat).drop lo.toNat := by
  rw [between, filter_zipIdx l lo hi 0]
  simp

theorem between_of_neg {α : Type} (l : List α) {lo : ℤ} (hlo : lo < 0) (hi : ℤ) :
    between l 0 hi = between l lo hi := by
  rw [between_eq, between_eq, Int.toNat_of_nonpos hlo.le, Int.toNat_zero]

theorem between_of_lt {α : Type} (l : List α) {lo hi : ℤ} (h : hi < lo) : between l lo hi = [] := by
  rw [between_eq, drop_eq_nil_iff, length_take]
  omega

theorem between_of_length_le {α : Type} {l : List α} {lo : ℤ} (h : l.length ≤ lo) (hi : ℤ) :
    between l lo hi = [] := by
  rw [between_eq, drop_eq_nil_iff, length_take]
  omega

/-! ### Strings -/

variable {s : CString} {item : List Svalue} {from' to' : BitVec 32}

theorem strlen_eq (hs : s.bytes.length < 2 ^ 31) : strlen s = s.bytes.length := by
  rw [strlen, BitVec.toInt_eq_toNat_of_lt]
  all_goals
    rw [BitVec.toNat_ofNat]
    omega

theorem upTo_eq (hs : s.bytes.length < 2 ^ 31) {f : ℤ} (h0 : 0 ≤ f) (hf : f < s.bytes.length)
    (t : ℤ) : upTo s f t = .value (.string (CString.ofBytes (between s.bytes f t))) := by
  rw [upTo, strlen_eq hs]
  by_cases hlt : t < f
  · rw [if_pos hlt, between_of_lt _ hlt]
  rw [if_neg hlt]
  have hin : 0 ≤ f ∧ f ≤ s.bytes.length := ⟨h0, hf.le⟩
  by_cases hend : (s.bytes.length : ℤ) - 1 ≤ t
  · have ht : (if t ≥ s.bytes.length then (s.bytes.length : ℤ) - 1 else t) =
        s.bytes.length - 1 := by
      split <;> omega
    simp only [ht, ↓reduceIte]
    rw [tailFrom, if_pos hin, between_eq, take_of_length_le (by omega)]
  · have ht : (if t ≥ s.bytes.length then (s.bytes.length : ℤ) - 1 else t) = t :=
      if_neg (by omega)
    simp only [ht]
    rw [if_neg (by omega), copyFrom, if_pos hin, between_eq, drop_take]
    congr 5
    omega

theorem upTo_neg (hs : s.bytes.length < 2 ^ 31) {f : ℤ} (h0 : f < 0) {t : ℤ} (hle : f ≤ t) :
    upTo s f t = .outside := by
  have hout : ¬(0 ≤ f ∧ f ≤ s.bytes.length) := by omega
  rw [upTo, strlen_eq hs, if_neg (not_lt.2 hle)]
  simp only [tailFrom, copyFrom, if_neg hout, ite_self]

/-! ### Arrays -/

theorem copyItems_eq (n : ℕ) : ∀ i : ℕ, i + n ≤ item.length →
    copyItems item i n = some ((item.drop i).take n) := by
  induction n with
  | zero => exact fun i _ ↦ by rw [copyItems, take_zero]
  | succ n ih =>
    intro i hi
    have hlt : i < item.length := by omega
    rw [copyItems, if_neg (by omega), Int.toNat_natCast, List.getElem?_eq_getElem hlt]
    have hnext := ih (i + 1) (by omega)
    push_cast at hnext
    dsimp only
    rw [hnext, Option.map_some, drop_eq_getElem_cons hlt, take_succ_cons]

/-- **A slice of an array has the elements between the positions.** -/
theorem sliceArray_eq (item : List Svalue) (from' to' : BitVec 32) :
    sliceArray item from' to' =
      some (between item (position item.length from') (position item.length to')) := by
  rw [sliceArray]
  generalize position item.length from' = lo
  generalize position item.length to' = hi
  have hbegin : between item (if lo < 0 then 0 else lo) hi = between item lo hi := by
    by_cases hlo : lo < 0
    · rw [if_pos hlo, between_of_neg _ hlo]
    · rw [if_neg hlo]
  have h0 : 0 ≤ if lo < 0 then 0 else lo := by split <;> omega
  rw [← hbegin]
  generalize (if lo < 0 then 0 else lo) = f at *
  dsimp only
  by_cases hf : f ≥ item.length
  · rw [if_pos hf, between_of_length_le hf]
  rw [if_neg hf]
  obtain ⟨i, rfl⟩ := Int.eq_ofNat_of_zero_le h0
  by_cases hlt : (if hi ≥ item.length then (item.length : ℤ) - 1 else hi) < i
  · rw [if_pos hlt, between_of_lt]
    split at hlt <;> omega
  rw [if_neg hlt]
  have hn : (i : ℤ) + (if hi ≥ item.length then (item.length : ℤ) - 1 else hi) - i + 1 ≤
      item.length := by
    split <;> omega
  rw [copyItems_eq _ i (by omega), between_eq, drop_take, Int.toNat_natCast]
  congr 1
  by_cases hhi : hi ≥ item.length
  · rw [if_pos hhi] at hlt ⊢
    rw [take_of_length_le, take_of_length_le]
    all_goals
      rw [length_drop]
      omega
  · rw [if_neg hhi] at hlt ⊢
    congr 1
    omega

/-! ### Both together -/

/-- **A range is the part between the positions.** -/
theorem range_eq {v : Sequence} (hv : v.Short) (from' to' : BitVec 32) :
    range v from' to' = .value (v.part from' to') := by
  cases v with
  | array item => rw [range_array, sliceArray_eq, Sequence.part]
  | string s =>
    have hs : s.bytes.length < 2 ^ 31 := hv
    rw [range_string, strlen_eq hs, Sequence.part]
    generalize position s.bytes.length from' = lo
    generalize position s.bytes.length to' = hi
    by_cases hlo : lo < 0
    · simp only [if_pos hlo]
      by_cases hlen : (0 : ℤ) ≥ s.bytes.length
      · rw [if_pos hlen, ← between_of_neg _ hlo, between_of_length_le hlen]
      · rw [if_neg hlen, upTo_eq hs le_rfl (not_le.1 hlen), between_of_neg _ hlo]
    · simp only [if_neg hlo]
      by_cases hlen : lo ≥ s.bytes.length
      · rw [if_pos hlen, between_of_length_le hlen]
      · rw [if_neg hlen, upTo_eq hs (not_lt.1 hlo) (not_le.1 hlen)]

/-- **`extract` takes the same part of a string as a range exactly when `from` is not before the
beginning**, or nothing is between the positions. A range takes the right part in any case. -/
theorem subrange_iff (v : Sequence) (hv : v.Short) (from' to' : BitVec 32) :
    range v from' to' = .value (v.part from' to') ∧
      (extract v [from', to'] = .value (v.part from' to') ↔ v.Inside from' to') := by
  refine ⟨range_eq hv from' to', ?_⟩
  cases v with
  | array item => exact ⟨nofun, False.elim⟩
  | string s =>
    have hs : s.bytes.length < 2 ^ 31 := hv
    rw [extract, strlen_eq hs, Sequence.part, Sequence.Inside]
    generalize position s.bytes.length from' = lo
    generalize position s.bytes.length to' = hi
    by_cases hlen : lo ≥ s.bytes.length
    · rw [if_pos hlen, between_of_length_le hlen]
      exact ⟨fun _ ↦ Or.inl (by omega), fun _ ↦ rfl⟩
    rw [if_neg hlen]
    rcases lt_or_ge lo 0 with hlo | hlo
    · rcases lt_or_ge hi lo with hlt | hle
      · rw [upTo, if_pos hlt, between_of_lt _ hlt]
        exact ⟨fun _ ↦ Or.inr hlt, fun _ ↦ rfl⟩
      · rw [upTo_neg hs hlo hle]
        exact ⟨nofun, fun h ↦ by omega⟩
    · rw [upTo_eq hs hlo (not_le.1 hlen)]
      exact ⟨fun _ ↦ Or.inl hlo, fun _ ↦ rfl⟩

/-- Both on the string "abc", from the last but one character to the last one. -/
theorem subrange_iff_last :
    range (.string (CString.ofBytes [0x61, 0x62, 0x63])) (-2) 2 =
        .value (.string (CString.ofBytes [0x62, 0x63])) ∧
      (extract (.string (CString.ofBytes [0x61, 0x62, 0x63])) [-2, 2] =
          .value (.string (CString.ofBytes [0x62, 0x63])) ↔
        Sequence.Inside (-2) 2 (.string (CString.ofBytes [0x61, 0x62, 0x63]))) :=
  subrange_iff (.string (CString.ofBytes [0x61, 0x62, 0x63]))
    (show [(0x61 : UInt8), 0x62, 0x63].length < 2 ^ 31 by decide) (-2) 2

/-- Three characters, from the tenth before the end up to the second one: `extract` reads before the
string. -/
theorem not_subrange : ¬∀ (v : Sequence) (from' to' : BitVec 32),
    extract v [from', to'] = .value (v.part from' to') := by
  intro h
  have hbad := h (.string (CString.ofBytes [0x61, 0x62, 0x63])) (-10) 1
  have hout : extract (.string (CString.ofBytes [0x61, 0x62, 0x63])) [-10, 1] = .outside := rfl
  rw [hout] at hbad
  cases hbad

end Lpmud.Subrange
