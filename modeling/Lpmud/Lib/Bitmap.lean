import Mathlib.Logic.Function.Basic
import Mathlib.Data.Nat.Basic

/-!
# Bitmaps

A table of bits that is kept in machine words: reading a bit, setting and clearing one, and
finding the first one that is set. Everything is characterised by which bits are set (`test`), so
that nothing behind this file has to know about words.
-/

/-- A bitmap in words of `w` bits. -/
abbrev Bitmap (w : ℕ) : Type := ℕ → BitVec w

namespace Bitmap

open Function

variable {w : ℕ}

/-- Whether bit `b` is set. -/
def test (m : Bitmap w) (b : ℕ) : Bool :=
  (m (b / w)).getLsbD (b % w)

/-- Set bit `b`. -/
def set (m : Bitmap w) (b : ℕ) : Bitmap w :=
  update m (b / w) (m (b / w) ||| 1#w <<< (b % w))

/-- Clear bit `b`. -/
def clear (m : Bitmap w) (b : ℕ) : Bitmap w :=
  update m (b / w) (m (b / w) &&& ~~~(1#w <<< (b % w)))

theorem eq_of_div_of_mod {b c : ℕ} (hdiv : c / w = b / w) (hmod : c % w = b % w) : c = b := by
  rw [← Nat.div_add_mod c w, ← Nat.div_add_mod b w, hdiv, hmod]

theorem getLsbD_one_shiftLeft {i j : ℕ} (hj : j < w) :
    (1#w <<< i).getLsbD j = decide (j = i) := by
  rw [BitVec.getLsbD_shiftLeft, BitVec.getLsbD_one, Bool.eq_iff_iff]
  simp only [Bool.and_eq_true, decide_eq_true_eq, Bool.not_eq_true', decide_eq_false_iff_not]
  omega

theorem test_set (hw : 0 < w) (m : Bitmap w) (b c : ℕ) :
    (m.set b).test c = (decide (c = b) || m.test c) := by
  rw [test, set, test]
  by_cases hdiv : c / w = b / w
  · rw [hdiv, update_self, BitVec.getLsbD_or,
      getLsbD_one_shiftLeft (Nat.mod_lt _ hw), Bool.or_comm]
    congr 1
    exact decide_eq_decide.2 ⟨eq_of_div_of_mod hdiv, fun h ↦ h ▸ rfl⟩
  · have hne : c ≠ b := fun h ↦ hdiv (by rw [h])
    rw [update_of_ne hdiv, decide_eq_false hne, Bool.false_or]

theorem test_clear (hw : 0 < w) (m : Bitmap w) (b c : ℕ) :
    (m.clear b).test c = (decide (c ≠ b) && m.test c) := by
  rw [test, clear, test]
  by_cases hdiv : c / w = b / w
  · rw [hdiv, update_self, BitVec.getLsbD_and, BitVec.getLsbD_not,
      getLsbD_one_shiftLeft (Nat.mod_lt _ hw), Bool.and_comm]
    congr 1
    rw [decide_eq_true (Nat.mod_lt _ hw), Bool.true_and, ← decide_not]
    exact decide_eq_decide.2 (not_congr ⟨eq_of_div_of_mod hdiv, fun h ↦ h ▸ rfl⟩)
  · have hne : c ≠ b := fun h ↦ hdiv (by rw [h])
    rw [update_of_ne hdiv, decide_eq_true hne, Bool.true_and]

/-! ### Finding a bit -/

/-- Shift right until the lowest bit is set, in at most `n` steps. -/
def ffsLoop : ℕ → BitVec w → ℕ
  | 0, _ => 0
  | n + 1, v => if v.getLsbD 0 then 0 else ffsLoop n (v >>> 1) + 1

/-- The number of the lowest bit that is set. -/
def ffs (v : BitVec w) : ℕ :=
  ffsLoop w v

theorem ffsLoop_spec (n : ℕ) : ∀ v : BitVec w, (∃ i < n, v.getLsbD i = true) →
    v.getLsbD (ffsLoop n v) = true ∧ ∀ j < ffsLoop n v, v.getLsbD j = false := by
  induction n with
  | zero => exact fun _ ⟨_, h, _⟩ ↦ absurd h (Nat.not_lt_zero _)
  | succ n ih =>
    rintro v ⟨i, hi, hv⟩
    rw [ffsLoop]
    by_cases h0 : v.getLsbD 0 = true
    · rw [if_pos h0]
      exact ⟨h0, fun j hj ↦ absurd hj (Nat.not_lt_zero j)⟩
    · rw [if_neg h0]
      have hshift (j : ℕ) : (v >>> 1).getLsbD j = v.getLsbD (j + 1) := by
        rw [BitVec.getLsbD_ushiftRight, Nat.add_comm]
      rcases i with - | i
      · exact absurd hv h0
      obtain ⟨hset, hlow⟩ := ih (v >>> 1) ⟨i, Nat.lt_of_succ_lt_succ hi, (hshift i).trans hv⟩
      refine ⟨(hshift _).symm.trans hset, fun j hj ↦ ?_⟩
      rcases j with - | j
      · exact Bool.eq_false_iff.2 h0
      · exact (hshift j).symm.trans (hlow j (Nat.lt_of_succ_lt_succ hj))

theorem ffs_spec {v : BitVec w} (hv : v ≠ 0#w) :
    ffs v < w ∧ v.getLsbD (ffs v) = true ∧ ∀ j < ffs v, v.getLsbD j = false := by
  obtain ⟨i, hi⟩ : ∃ i, v.getLsbD i = true := by
    by_contra hall
    refine hv (BitVec.eq_of_getLsbD_eq fun i _ ↦ ?_)
    rw [BitVec.getLsbD_zero]
    exact Bool.eq_false_iff.2 fun h ↦ hall ⟨i, h⟩
  obtain ⟨hset, hlow⟩ := ffsLoop_spec w v ⟨i, BitVec.lt_of_getLsbD hi, hi⟩
  exact ⟨BitVec.lt_of_getLsbD hset, hset, hlow⟩

/-- The first word that is not zero, among the `n` words from `k` on. -/
def findWord (m : Bitmap w) : ℕ → ℕ → Option ℕ
  | 0, _ => none
  | n + 1, k => if m k ≠ 0#w then some k else findWord m n (k + 1)

theorem findWord_spec (m : Bitmap w) (n : ℕ) : ∀ k,
    match findWord m n k with
    | some j => k ≤ j ∧ j < k + n ∧ m j ≠ 0#w ∧ ∀ i, k ≤ i → i < j → m i = 0#w
    | none => ∀ i, k ≤ i → i < k + n → m i = 0#w := by
  induction n with
  | zero => exact fun k i hk hi ↦ absurd hk (Nat.not_le.2 hi)
  | succ n ih =>
    intro k
    rw [findWord]
    by_cases hk : m k ≠ 0#w
    · rw [if_pos hk]
      exact ⟨le_rfl, by omega, hk, fun i hi hlt ↦ absurd hi (Nat.not_le.2 hlt)⟩
    · rw [if_neg hk]
      rw [not_not] at hk
      have hnext := ih (k + 1)
      cases hfind : findWord m n (k + 1) with
      | none =>
        rw [hfind] at hnext
        intro i hi hlt
        rcases Nat.eq_or_lt_of_le hi with rfl | hi
        · exact hk
        · exact hnext i hi (by omega)
      | some j =>
        rw [hfind] at hnext
        obtain ⟨hj, hlt, hne, hlow⟩ := hnext
        refine ⟨by omega, by omega, hne, fun i hi hij ↦ ?_⟩
        rcases Nat.eq_or_lt_of_le hi with rfl | hi
        · exact hk
        · exact hlow i hi hij

/-- The first bit that is set, in the `n` words from `k` on. -/
def find (m : Bitmap w) (n k : ℕ) : Option ℕ :=
  (findWord m n k).map fun j ↦ j * w + ffs (m j)

theorem test_eq_false_of_word {m : Bitmap w} {c : ℕ} (h : m (c / w) = 0#w) : m.test c = false := by
  rw [test, h, BitVec.getLsbD_zero]

theorem find_eq_some (hw : 0 < w) {m : Bitmap w} {n k b : ℕ} (h : m.find n k = some b) :
    m.test b = true ∧ k * w ≤ b ∧ b < (k + n) * w ∧ ∀ c, k * w ≤ c → c < b → m.test c = false := by
  obtain ⟨j, hj, rfl⟩ := Option.map_eq_some_iff.1 h
  have hspec := m.findWord_spec n k
  rw [hj] at hspec
  obtain ⟨hkj, hlt, hne, hlow⟩ := hspec
  obtain ⟨hffs, hset, hbelow⟩ := ffs_spec hne
  have hdiv (i : ℕ) (hi : i < w) : (j * w + i) / w = j := by
    rw [Nat.mul_comm, Nat.mul_add_div hw, Nat.div_eq_of_lt hi, Nat.add_zero]
  have hmod (i : ℕ) (hi : i < w) : (j * w + i) % w = i := by
    rw [Nat.mul_comm, Nat.mul_add_mod, Nat.mod_eq_of_lt hi]
  refine ⟨by rw [test, hdiv _ hffs, hmod _ hffs, hset], ?_, ?_, fun c hkc hcb ↦ ?_⟩
  · exact Nat.le_trans (Nat.mul_le_mul_right w hkj) (Nat.le_add_right _ _)
  · have hsucc : (j + 1) * w ≤ (k + n) * w := Nat.mul_le_mul_right w hlt
    rw [Nat.add_mul, Nat.one_mul] at hsucc
    omega
  · rcases Nat.lt_or_ge c (j * w) with hcj | hcj
    · exact test_eq_false_of_word (hlow _ ((Nat.le_div_iff_mul_le hw).2 hkc)
        ((Nat.div_lt_iff_lt_mul hw).2 hcj))
    · obtain ⟨i, rfl⟩ := Nat.exists_eq_add_of_le hcj
      have hi : i < ffs (m j) := by omega
      rw [test, hdiv _ (Nat.lt_trans hi hffs), hmod _ (Nat.lt_trans hi hffs)]
      exact hbelow i hi

theorem find_eq_none (hw : 0 < w) {m : Bitmap w} {n k : ℕ} (h : m.find n k = none) {c : ℕ}
    (hkc : k * w ≤ c) (hcn : c < (k + n) * w) : m.test c = false := by
  have hspec := m.findWord_spec n k
  rw [Option.map_eq_none_iff.1 h] at hspec
  exact test_eq_false_of_word (hspec _ ((Nat.le_div_iff_mul_le hw).2 hkc)
    ((Nat.div_lt_iff_lt_mul hw).2 hcn))

end Bitmap
