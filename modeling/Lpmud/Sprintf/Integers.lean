import Lpmud.Lib.Decimal
import Lpmud.Sprintf.Buffer

/-!
# Integers

`%d` leaves an integer to the `sprintf` of C. For `%O` it is `numadd` that makes the digits: it
counts them with a power of ten that is an `int`, and goes on counting when that has wrapped.
-/

namespace Lpmud.Sprintf

open List Abortable

/-! ### The digits of numadd -/

/-- What an `int` wraps to. -/
def wrap (z : ℤ) : ℤ :=
  z.bmod (2 ^ 32)

/-- Storage for a string of some length: it is extended when it is too small. -/
def makeRoom (size len : ℕ) : Print ℕ :=
  if len ≥ size then
    let size := size + (len + 1)
    if size ≥ BUFF_SIZE then ERROR .buffOverflow else pure size
  else pure size

/-- The loop of `numadd` that counts the digits but one. It makes 30 rounds at most. -/
def countDigits (num : ℤ) : (rounds : ℕ) → (i : ℤ) → (j : ℕ) → ℕ
  | 0, _, j => j
  | rounds + 1, i, j => if num ≥ i then countDigits num rounds (wrap (i * 10)) (j + 1) else j

/-- The loop of `numadd` that makes the digits, from the last one on. -/
def makeDigits (num : ℤ) : ℕ → Bytes
  | 0 => []
  | j + 1 => makeDigits (num.tdiv 10) j ++ [UInt8.ofNat (num.tmod 10 + 48).toNat]

/-- `numadd`, with the string that it adds to and the size of its storage. -/
def numadd (dst : Bytes) (size : ℕ) (num : BitVec 32) : Print (Bytes × ℕ) := do
  let nve := num.toInt < 0
  let num := if nve then wrap (num.toInt * -1) else num.toInt
  let j := countDigits num 30 10 0
  let i := dst.length + if nve then 1 else 0
  let size ← makeRoom size (i + j)
  let dst := if nve then dst ++ [45] else dst
  pure (dst ++ makeDigits num (j + 1), size)

/-! ### The conversions for integers -/

abbrev INFO_T : FormatInfo := 0xF
abbrev INFO_T_INT : FormatInfo := 0x8
abbrev INFO_T_CHAR : FormatInfo := 0x9
abbrev INFO_T_OCT : FormatInfo := 0xA
abbrev INFO_T_HEX : FormatInfo := 0xB
abbrev INFO_T_C_HEX : FormatInfo := 0xC
abbrev INFO_PP : FormatInfo := 0xC0
abbrev INFO_PP_SPACE : FormatInfo := 0x40
abbrev INFO_PP_PLUS : FormatInfo := 0x80

/-- An integer in decimal. -/
def decimal (z : ℤ) : Bytes :=
  if z < 0 then 45 :: Decimal.numeral z.natAbs else Decimal.numeral z.natAbs

/-- What is in front of a positive integer. -/
def positive (finfo : FormatInfo) : Bytes :=
  if finfo &&& INFO_PP = INFO_PP_SPACE then [SPACE]
  else if finfo &&& INFO_PP = INFO_PP_PLUS then [43]
  else []

/-- The digits of an unsigned number, with the letters behind the ten digits. -/
def unsigned (base : ℕ) (letter : ℕ) (n : ℕ) : Bytes :=
  let digit (d : ℕ) := UInt8.ofNat (if d < 10 then 48 + d else letter + d - 10)
  if n = 0 then [digit 0] else ((Nat.digits base n).map digit).reverse

/-- What the `sprintf` of C makes of an integer. -/
def intString (finfo : FormatInfo) (n : BitVec 32) : Bytes :=
  let conv := finfo &&& INFO_T
  if conv = INFO_T_INT then
    (if n.toInt < 0 then [] else positive finfo) ++ decimal n.toInt
  else if conv = INFO_T_CHAR then
    [UInt8.ofNat n.toNat].takeWhile (· ≠ 0)
  else if conv = INFO_T_OCT then unsigned 8 0 n.toNat
  else if conv = INFO_T_HEX then unsigned 16 97 n.toNat
  else unsigned 16 65 n.toNat

/-- A string of C that was printed to a place of its own, in its field. -/
def addField (temp : Bytes) (pad : Pad) (fs : BitVec 32) (finfo : FormatInfo)
    (trailing : Bool) (tmpl : ℕ) : Print PUnit :=
  if tmpl < fs.toNat then
    addJustified (temp.takeWhile (· ≠ 0)) pad fs finfo trailing
  else
    addChars temp

/-- An integer with its precision: a NUL is put where it is to be cut off. -/
def cutInteger (n prec : BitVec 32) (finfo : FormatInfo) : Bytes :=
  let temp := intString finfo n
  if prec ≠ 0 ∧ prec.toInt < temp.length then temp.set prec.toNat 0 else temp

/-- The part of `string_print_formatted` for the integer types. -/
def addInteger (n : BitVec 32) (pad : Pad) (fs prec : BitVec 32) (finfo : FormatInfo)
    (trailing : Bool) : Print PUnit :=
  -- the length is that of the string that is not cut off
  addField (cutInteger n prec finfo) pad fs finfo trailing (intString finfo n).length

/-! ### Counting digits -/

/-- The powers of ten of `numadd`. -/
def power (k : ℕ) : ℤ :=
  wrap (10 ^ (k + 1))

theorem wrap_mul_ten (k : ℕ) : wrap (power k * 10) = power (k + 1) := by
  rw [power, power, wrap, wrap, wrap, Int.bmod_mul_bmod]
  rfl

theorem power_eq {k : ℕ} (h : k ≤ 8) : power k = 10 ^ (k + 1) := by
  revert k
  decide

theorem power_le {k : ℕ} (h : k ≤ 9) : power k ≤ 1410065408 := by
  revert k
  decide

theorem le_countDigits (num : ℤ) (rounds : ℕ) : ∀ i j, j ≤ countDigits num rounds i j := by
  induction rounds with
  | zero => exact fun _ j ↦ le_rfl
  | succ rounds ih =>
    intro i j
    rw [countDigits]
    split
    · exact Nat.le_of_succ_le (ih _ (j + 1))
    · exact le_rfl

theorem countDigits_le (num : ℤ) (rounds : ℕ) : ∀ i j, countDigits num rounds i j ≤ j + rounds := by
  induction rounds with
  | zero => exact fun _ j ↦ le_rfl
  | succ rounds ih =>
    intro i j
    rw [countDigits]
    split
    · exact (ih _ (j + 1)).trans (by omega)
    · exact Nat.le_add_right j _

/-- **As long as no power is too large**, the digits are counted. -/
theorem countDigits_spec {m : ℕ} (hm : m < 1410065408) : ∀ d k, k + d = 9 → k = 0 ∨ 10 ^ k ≤ m →
    m < 10 ^ (countDigits m (d + 21) (power k) k + 1) ∧
      (countDigits m (d + 21) (power k) k = 0 ∨ 10 ^ countDigits m (d + 21) (power k) k ≤ m) := by
  intro d
  induction d with
  | zero =>
    intro k hk hge
    obtain rfl : k = 9 := hk
    have hcount : countDigits m (0 + 21) (power 9) 9 = 9 :=
      if_neg (by change ¬(1410065408 : ℤ) ≤ m; omega)
    rw [hcount]
    exact ⟨by omega, hge⟩
  | succ d ih =>
    intro k hk hge
    have hpower : power k = ((10 ^ (k + 1) : ℕ) : ℤ) := by
      rw [power_eq (by omega)]
      norm_cast
    rw [Nat.add_right_comm, countDigits]
    split
    next hle =>
      rw [wrap_mul_ten]
      exact ih (k + 1) (by omega) (.inr (by omega))
    next hlt => exact ⟨by omega, hge⟩

/-- **When a power has wrapped**, too many digits are counted. -/
theorem ten_le_countDigits {m : ℕ} (hm : 1410065408 ≤ m) : 10 ≤ countDigits m 30 10 0 := by
  have hall : ∀ d k, k + d = 10 → 10 ≤ countDigits m (d + 20) (power k) k := by
    intro d
    induction d with
    | zero =>
      intro k hk
      obtain rfl : k = 10 := hk
      exact le_countDigits _ _ _ _
    | succ d ih =>
      intro k hk
      have hle := power_le (k := k) (by omega)
      rw [Nat.add_right_comm, countDigits, if_pos (by omega), wrap_mul_ten]
      exact ih (k + 1) (by omega)
  exact hall 10 0 rfl

/-! ### Making digits -/

@[simp]
theorem length_makeDigits (num : ℤ) (j : ℕ) : (makeDigits num j).length = j := by
  induction j generalizing num with
  | zero => rfl
  | succ j ih => rw [makeDigits, length_append, ih, length_singleton]

theorem makeDigits_eq (k : ℕ) : ∀ {m : ℕ}, m < 10 ^ (k + 1) → k = 0 ∨ 10 ^ k ≤ m →
    makeDigits m (k + 1) = Decimal.numeral m := by
  have hlast (m : ℕ) : UInt8.ofNat ((m : ℤ).tmod 10 + 48).toNat = Decimal.digit (m % 10) := by
    rw [Decimal.digit, Int.tmod_eq_emod_of_nonneg (Int.natCast_nonneg m)]
    congr 1
    omega
  induction k with
  | zero =>
    intro m hlt _
    have hmod : m % 10 = m := Nat.mod_eq_of_lt hlt
    rw [makeDigits, hlast, hmod, Decimal.numeral_of_lt hlt]
    rfl
  | succ k ih =>
    intro m hlt hge
    have hle := hge.resolve_left (Nat.succ_ne_zero k)
    rw [Nat.pow_succ] at hlt hle
    have hpos := Nat.pow_pos (n := k) (show 0 < 10 by decide)
    have hdiv : (m : ℤ).tdiv 10 = ((m / 10 : ℕ) : ℤ) := by
      rw [Int.tdiv_eq_ediv_of_nonneg (Int.natCast_nonneg m)]
      rfl
    rw [makeDigits, hdiv, ih (by omega) (.inr (by omega)), hlast,
      ← Decimal.numeral_of_le (by omega)]

/-! ### Integers in decimal -/

/-- **An integer is printed in decimal**, by `%d` without a width where there is room for it, and by
`numadd` when there is storage for it. -/
structure InDecimal (n : BitVec 32) : Prop where
  conversion : ∀ pad trailing s s', addInteger n pad 0 0 INFO_T_INT trailing s = (some .unit, s') ↔
    s.Room (decimal n.toInt) ∧ s' = s.put (decimal n.toInt)
  numadd : ∀ dst size, numadd dst size n =
    (makeRoom size (dst.length + ((decimal n.toInt).length - 1)) >>= fun size ↦
      pure (dst ++ decimal n.toInt, size))

theorem addInteger_iff (n : BitVec 32) (pad : Pad) (trailing : Bool) (s s' : State) :
    addInteger n pad 0 0 INFO_T_INT trailing s = (some .unit, s') ↔
      s.Room (decimal n.toInt) ∧ s' = s.put (decimal n.toInt) := by
  have hstring : intString INFO_T_INT n = decimal n.toInt := by
    show (if n.toInt < 0 then [] else []) ++ decimal n.toInt = _
    rw [ite_self]
    rfl
  have hwidth : ¬(decimal n.toInt).length < BitVec.toNat (0 : BitVec 32) := Nat.not_lt_zero _
  rw [addInteger, cutInteger, hstring, if_neg fun h ↦ h.1 rfl, addField, if_neg hwidth]
  exact addChars_iff _

/-- The absolute value, as `numadd` computes it. -/
theorem wrap_neg {n : BitVec 32} (h : n.toInt < 0) (hmin : -2 ^ 31 < n.toInt) :
    wrap (n.toInt * -1) = n.toInt.natAbs := by
  have hbmod : wrap (n.toInt * -1) = n.toInt * -1 := by
    rw [wrap]
    exact Int.bmod_eq_of_le (by omega) (by omega)
  rw [hbmod]
  omega

theorem numadd_eq {n : BitVec 32} (hlow : -1410065408 < n.toInt) (hhigh : n.toInt < 1410065408)
    (dst : Bytes) (size : ℕ) : numadd dst size n =
      (makeRoom size (dst.length + ((decimal n.toInt).length - 1)) >>= fun size ↦
        pure (dst ++ decimal n.toInt, size)) := by
  obtain ⟨hlt, hge⟩ := countDigits_spec (m := n.toInt.natAbs) (by omega) 9 0 rfl (.inl rfl)
  have hdigits := makeDigits_eq _ hlt hge
  change makeDigits _ (countDigits n.toInt.natAbs 30 10 0 + 1) = _ at hdigits
  have hlen := congrArg List.length hdigits
  rw [length_makeDigits] at hlen
  rw [numadd, decimal]
  dsimp only
  rcases lt_or_ge n.toInt 0 with hneg | hpos
  · rw [if_pos hneg, if_pos hneg, if_pos hneg, if_pos hneg, wrap_neg hneg (by omega), hdigits]
    have hstorage : dst.length + ((45 :: Decimal.numeral n.toInt.natAbs).length - 1) =
        dst.length + 1 + countDigits n.toInt.natAbs 30 10 0 := by
      rw [length_cons, ← hlen]
      omega
    rw [hstorage, append_assoc]
    rfl
  · have habs : ((n.toInt.natAbs : ℕ) : ℤ) = n.toInt := by omega
    rw [habs] at hdigits hlen
    rw [if_neg hpos.not_gt, if_neg hpos.not_gt, if_neg hpos.not_gt, if_neg hpos.not_gt, hdigits]
    have hstorage : dst.length + ((Decimal.numeral n.toInt.natAbs).length - 1) =
        dst.length + 0 + countDigits n.toInt 30 10 0 := by
      rw [← hlen]
      omega
    rw [hstorage]

/-- A state to print in. -/
def State.empty : State where
  mem _ := []
  front _ := 0
  buff := []
  curpos := 0
  clean := none
  cleans := 0
  saves := []
  steps := []
  stop := none

theorem makeRoom_of_lt {size len : ℕ} (h : len < size) : makeRoom size len = pure size :=
  if_neg (Nat.not_le.2 h)

/-- How many characters `numadd` adds. -/
theorem numadd_length {n : BitVec 32} {text : Bytes} {size : ℕ} {s s' : State}
    (h : numadd [] 512 n s = (some (text, size), s')) :
    text.length = (if n.toInt < 0 then 1 else 0) +
      (countDigits (if n.toInt < 0 then wrap (n.toInt * -1) else n.toInt) 30 10 0 + 1) := by
  rw [numadd] at h
  dsimp only at h
  generalize (if n.toInt < 0 then wrap (n.toInt * -1) else n.toInt) = num at h ⊢
  have hle := countDigits_le num 30 10 0
  have hroom : ([] : Bytes).length + (if n.toInt < 0 then 1 else 0) +
      countDigits num 30 10 0 < 512 := by
    rw [length_nil]
    split <;> omega
  rw [makeRoom_of_lt hroom, pure_bind] at h
  cases h
  rw [length_append, length_makeDigits]
  split <;> rfl

theorem length_numeral {m : ℕ} (hle : 10 ^ 9 ≤ m) (hlt : m < 10 ^ 10) :
    (Decimal.numeral m).length = 10 := by
  rw [← makeDigits_eq 9 hlt (.inr hle), length_makeDigits]

theorem InDecimal.bounds {n : BitVec 32} (h : InDecimal n) :
    -1410065408 < n.toInt ∧ n.toInt < 1410065408 := by
  by_contra hout
  have hmin := BitVec.le_toInt n
  have hmax := BitVec.toInt_lt (x := n)
  have hlen := length_numeral (m := n.toInt.natAbs) (by omega) (by omega)
  have hdecimal : (decimal n.toInt).length = (if n.toInt < 0 then 1 else 0) + 10 := by
    rw [decimal]
    split
    · rw [length_cons, hlen]
    · rw [hlen]
  have hrun := congrFun (h.numadd [] 512) State.empty
  rw [makeRoom_of_lt (by rw [hdecimal, length_nil]; split <;> omega), pure_bind] at hrun
  have hcount := numadd_length hrun
  rw [nil_append, hdecimal] at hcount
  -- one digit for each power of ten, and for those that have wrapped
  split at hcount
  next hneg =>
    rcases eq_or_lt_of_le hmin with heq | hlt
    · rw [← heq] at hcount
      exact absurd hcount (by decide)
    · rw [wrap_neg hneg hlt] at hcount
      have hten := ten_le_countDigits (m := n.toInt.natAbs) (by omega)
      omega
  next hpos =>
    have habs : ((n.toInt.natAbs : ℕ) : ℤ) = n.toInt := by omega
    have hten := ten_le_countDigits (m := n.toInt.natAbs) (by omega)
    rw [habs] at hten
    omega

/-- **When an integer is printed in decimal.** -/
theorem inDecimal_iff (n : BitVec 32) :
    InDecimal n ↔ -1410065408 < n.toInt ∧ n.toInt < 1410065408 :=
  ⟨InDecimal.bounds, fun ⟨hlow, hhigh⟩ ↦ ⟨addInteger_iff n, numadd_eq hlow hhigh⟩⟩

/-- 2000000000 is printed with zeros in front of it. -/
theorem not_inDecimal : ¬InDecimal 2000000000 :=
  fun h ↦ absurd h.bounds.2 (by decide)

end Lpmud.Sprintf
