import Mathlib.Data.Nat.Digits.Defs

/-!
# Decimal numerals

Numbers as ASCII digits, most significant first, and the number that a sequence of digits stands
for.
-/

namespace Decimal

open List

/-- Whether a byte is an ASCII digit. -/
def isDigit (c : UInt8) : Bool :=
  48 ≤ c && c ≤ 57

/-- The digit of a number below 10. -/
def digit (d : ℕ) : UInt8 :=
  UInt8.ofNat (48 + d)

/-- The numeral of a number. -/
def numeral (n : ℕ) : List UInt8 :=
  if n = 0 then [digit 0] else ((Nat.digits 10 n).map digit).reverse

/-- The number that a sequence of digits stands for. -/
def value (s : List UInt8) : ℕ :=
  s.foldl (fun n c ↦ n * 10 + (c.toNat - 48)) 0

theorem toNat_digit {d : ℕ} (h : d < 10) : (digit d).toNat = 48 + d := by
  rw [digit, UInt8.toNat_ofNat']
  omega

theorem isDigit_digit {d : ℕ} (h : d < 10) : isDigit (digit d) = true := by
  have hd := toNat_digit h
  rw [isDigit, Bool.and_eq_true, decide_eq_true_eq, decide_eq_true_eq, UInt8.le_iff_toNat_le,
    UInt8.le_iff_toNat_le, hd]
  exact ⟨Nat.le_add_right _ _, by change 48 + d ≤ 57; omega⟩

theorem numeral_ne_nil (n : ℕ) : numeral n ≠ [] := by
  rw [numeral]
  split
  next => exact cons_ne_nil _ _
  next h =>
    rw [Ne, reverse_eq_nil_iff, map_eq_nil_iff, Nat.digits_eq_nil_iff_eq_zero]
    exact h

theorem isDigit_of_mem_numeral {n : ℕ} {c : UInt8} (hc : c ∈ numeral n) : isDigit c = true := by
  rw [numeral] at hc
  split at hc
  next => exact mem_singleton.1 hc ▸ rfl
  next =>
    obtain ⟨d, hd, rfl⟩ := mem_map.1 (mem_reverse.1 hc)
    exact isDigit_digit (Nat.digits_lt_base (by decide) hd)

theorem numeral_of_lt {n : ℕ} (h : n < 10) : numeral n = [digit n] := by
  rw [numeral]
  split
  next hzero => rw [hzero]
  next hne =>
    rw [Nat.digits_of_lt 10 n hne h]
    rfl

theorem numeral_of_le {n : ℕ} (h : 10 ≤ n) : numeral n = numeral (n / 10) ++ [digit (n % 10)] := by
  have hdiv : n / 10 ≠ 0 := Nat.ne_of_gt (Nat.div_pos h (by decide))
  rw [numeral, numeral, if_neg (by omega), if_neg hdiv,
    Nat.digits_def' (by decide) (Nat.lt_of_lt_of_le (by decide) h), map_cons,
    reverse_cons]

/-- **A numeral stands for its number.** -/
theorem value_numeral (n : ℕ) : value (numeral n) = n := by
  have hfold : ∀ l : List ℕ, (∀ d ∈ l, d < 10) →
      (l.map digit).foldr (fun c n ↦ n * 10 + (c.toNat - 48)) 0 = Nat.ofDigits 10 l := by
    intro l
    induction l with
    | nil => exact fun _ ↦ rfl
    | cons d l ih =>
      intro hl
      have hd := toNat_digit (hl d mem_cons_self)
      rw [map_cons, foldr_cons, ih fun d' hd' ↦ hl d' (mem_cons_of_mem d hd'), hd,
        Nat.ofDigits_cons]
      omega
  rw [value, numeral]
  split
  next h => rw [h]; rfl
  next =>
    rw [foldl_reverse, hfold _ fun d hd ↦ Nat.digits_lt_base (by decide) hd,
      Nat.ofDigits_digits]

end Decimal
