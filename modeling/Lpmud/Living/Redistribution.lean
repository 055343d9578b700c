import Lpmud.Living.Experience
import Mathlib.Tactic.Linarith

/-!
# When the redistribution of the experience is sane

`updateAccExp` should give without taking when there is more experience than is accumulated, and
take without giving when there is less, and come no farther from the total than it was. It does so
for every distribution it gets through; but what it takes from a stat is computed through two
products and a division by the total, and these do not fit for every distribution, although a
factor is chosen for that. `redistributes_iff` says when they do.
-/

namespace Lpmud.Experience

open Wrapping Living

variable {expToStat : ℤ → ℤ} {l l' : Living} {il : Fin SS_NO_STATS}

/-- The experience `l'` after the redistribution is a sane one. -/
structure Sane (l l' : Living) : Prop where
  gains : l.accumulated < l.expPoints →
    (∀ il, l.accExp il ≤ l'.accExp il) ∧ l'.accumulated ≤ l.expPoints
  loses : l.expPoints < l.accumulated →
    (∀ il, 0 ≤ l'.accExp il ∧ l'.accExp il ≤ l.accExp il) ∧
      |l'.accumulated - l.expPoints| ≤ |l.accumulated - l.expPoints|

/-- `update_acc_exp` raises no error, nothing overflows, and what comes out is sane. -/
def Redistributes (expToStat : ℤ → ℤ) (l : Living) : Prop :=
  ∃ l', (l.updateAccExp expToStat).Ends l' ∧ Sane l l'

/-- What there is can be redistributed. When something is missing, a stat with a negative
preference would have to give more than it has (so that it keeps all of it), and what the others
get is there. When something is too much, there is some experience at all, less than two billions
are too much and are there, and the scaled values fit. -/
structure Redistributable (l : Living) : Prop where
  gains : 1000 < l.missing →
    (∀ il, l.learnPref il < 0 → l.accExp il + l.learnPref il * (l.missing / 100) < 0 ∧
      -2147483648 ≤ l.learnPref il * (l.missing / 100)) ∧
    (∑ il, max (l.learnPref il) 0) * (l.missing / 100) ≤ l.missing
  loses : l.missing < -1000 →
    0 < l.expPoints ∧ l.magnitude ≤ 2000000000 ∧
      ∀ il, l.accExp il * scale l.magnitude ≤ 2147483647 ∧
        -l.missing * (l.accExp il * scale l.magnitude / l.expPoints) ≤ 2147483648

/-! ### Giving -/

theorem accExp_le_accumulated (hl : l.Valid) (il : Fin SS_NO_STATS) :
    l.accExp il ≤ l.accumulated :=
  Finset.single_le_sum (fun il _ ↦ hl.accExp_nonneg il) (Finset.mem_univ il)

theorem new_eq_add_max {acc pref q : ℤ} (hacc : 0 ≤ acc) (hq : 0 ≤ q)
    (hneg : pref < 0 → acc + pref * q < 0) :
    (if 0 ≤ acc + pref * q then acc + pref * q else acc) = acc + max pref 0 * q := by
  rcases lt_or_ge pref 0 with hpref | hpref
  · rw [if_neg (not_le.2 (hneg hpref)), max_eq_right hpref.le, zero_mul, add_zero]
  · have hshare : 0 ≤ pref * q := Int.mul_nonneg hpref hq
    rw [if_pos (by omega), max_eq_left hpref]

theorem sum_add_mul (acc pref : Fin SS_NO_STATS → ℤ) (q : ℤ) :
    ∑ il, (acc il + max (pref il) 0 * q) = ∑ il, acc il + (∑ il, max (pref il) 0) * q := by
  rw [Finset.sum_add_distrib, Finset.sum_mul]

theorem max_mul_le (l : Living) {q : ℤ} (hq : 0 ≤ q) (il : Fin SS_NO_STATS) :
    max (l.learnPref il) 0 * q ≤ (∑ il, max (l.learnPref il) 0) * q :=
  Int.mul_le_mul_of_nonneg_right
    (Finset.single_le_sum (f := fun il ↦ max (l.learnPref il) 0)
      (fun _ _ ↦ le_max_right _ _) (Finset.mem_univ il)) hq

theorem accumulated_setAll_gain (hl : l.Valid) {q : ℤ} (hq : 0 ≤ q)
    (hneg : ∀ il, l.learnPref il < 0 → l.accExp il + l.learnPref il * q < 0) :
    (l.setAll fun il ↦ l.accExp il + l.learnPref il * q).accumulated =
      l.accumulated + (∑ il, max (l.learnPref il) 0) * q := by
  rw [accumulated, accumulated, ← sum_add_mul]
  refine Finset.sum_congr rfl fun il _ ↦ ?_
  rw [setAll_accExp]
  exact new_eq_add_max (hl.accExp_nonneg il) hq (hneg il)

theorem accumulated_accExpToStats :
    (l.accExpToStats expToStat).accumulated = l.accumulated := by
  rw [accumulated, accExpToStats_accExp, accumulated]

theorem redistributes_iff_of_gains (hl : l.Valid) (h : 1000 < l.missing) :
    Redistributes expToStat l ↔ Redistributable l := by
  have hlt : l.accumulated < l.expPoints := by
    rw [missing] at h
    omega
  have hq : 0 < l.missing / 100 := by
    rw [← Int.add_one_le_iff, zero_add, Int.le_ediv_iff_mul_le (by decide)]
    omega
  have hexp := (fits_iff.1 hl.expPoints_fits).2
  have hmissing : l.missing = l.expPoints - l.accumulated := rfl
  simp only [Redistributes, ends_updateAccExp_of_gains hl h]
  constructor
  · rintro ⟨_, ⟨hgives, rfl⟩, hsane⟩
    obtain ⟨hle, hsum⟩ := hsane.gains hlt
    have hneg (il : Fin SS_NO_STATS) (hpref : l.learnPref il < 0) :
        l.accExp il + l.learnPref il * (l.missing / 100) < 0 := by
      by_contra hnew
      have hshare : l.learnPref il * (l.missing / 100) < 0 := Int.mul_neg_of_neg_of_pos hpref hq
      have hil := hle il
      rw [accExpToStats_accExp, setAll_accExp, if_pos (not_lt.1 hnew)] at hil
      omega
    rw [accumulated_accExpToStats, accumulated_setAll_gain hl hq.le hneg] at hsum
    exact ⟨fun _ ↦ ⟨fun il hpref ↦ ⟨hneg il hpref, (fits_iff.1 (hgives il).1).1⟩, by omega⟩,
      fun hloses ↦ absurd hloses (by omega)⟩
  · intro hr
    obtain ⟨hneg, hsum⟩ := hr.gains h
    refine ⟨_, ⟨fun il ↦ ?_, rfl⟩, fun _ ↦ ⟨fun il ↦ ?_, ?_⟩, fun hloses ↦ absurd hloses hlt.not_gt⟩
    · have hacc := accExp_le_accumulated hl il
      have hacc_nonneg := hl.accExp_nonneg il
      have hle := max_mul_le l hq.le il
      rw [Gives, fits_iff, fits_iff]
      rcases lt_or_ge (l.learnPref il) 0 with hpref | hpref
      · obtain ⟨hnew, hshare⟩ := hneg il hpref
        omega
      · rw [max_eq_left hpref] at hle
        have hshare : 0 ≤ l.learnPref il * (l.missing / 100) := Int.mul_nonneg hpref hq.le
        omega
    · rw [accExpToStats_accExp, setAll_accExp,
        new_eq_add_max (hl.accExp_nonneg il) hq.le fun hpref ↦ (hneg il hpref).1]
      exact le_add_of_nonneg_right (Int.mul_nonneg (le_max_right _ _) hq.le)
    · rw [accumulated_accExpToStats,
        accumulated_setAll_gain hl hq.le fun il hpref ↦ (hneg il hpref).1]
      omega

/-! ### Taking -/

theorem mul_sub_left_le {d f exp stat : ℤ} (hd : 0 ≤ d) (hf : 0 < f) (hexp : 0 < exp) :
    exp * (stat - left d f exp stat) ≤ d * stat := by
  have hp : stat * f / exp * exp ≤ stat * f := Int.ediv_mul_le _ hexp.ne'
  have hr : d * (stat * f / exp) / f * f ≤ d * (stat * f / exp) := Int.ediv_mul_le _ hf.ne'
  rw [left, sub_sub_cancel]
  refine le_of_mul_le_mul_right ?_ hf
  calc exp * (d * (stat * f / exp) / f) * f
      = d * (stat * f / exp) / f * f * exp := by ring
    _ ≤ d * (stat * f / exp) * exp := Int.mul_le_mul_of_nonneg_right hr hexp.le
    _ = d * (stat * f / exp * exp) := by ring
    _ ≤ d * (stat * f) := Int.mul_le_mul_of_nonneg_left hp hd
    _ = d * stat * f := by ring

theorem left_le {d f exp stat : ℤ} (hd : 0 ≤ d) (hf : 0 < f) (hexp : 0 < exp) (hstat : 0 ≤ stat) :
    left d f exp stat ≤ stat := by
  have hp : 0 ≤ stat * f / exp := Int.ediv_nonneg (Int.mul_nonneg hstat hf.le) hexp.le
  exact sub_le_self _ (Int.ediv_nonneg (Int.mul_nonneg hd hp) hf.le)

theorem ite_left {d f exp stat : ℤ} (hd : 0 ≤ d) (hf : 0 < f) (hexp : 0 < exp) (hstat : 0 ≤ stat) :
    0 ≤ (if 0 ≤ left d f exp stat then left d f exp stat else stat) ∧
      (if 0 ≤ left d f exp stat then left d f exp stat else stat) ≤ stat ∧
      exp * (stat - if 0 ≤ left d f exp stat then left d f exp stat else stat) ≤ d * stat := by
  split
  next h => exact ⟨h, left_le hd hf hexp hstat, mul_sub_left_le hd hf hexp⟩
  next h =>
    rw [sub_self, mul_zero]
    exact ⟨hstat, le_rfl, Int.mul_nonneg hd hstat⟩

/-- From stats that keep something, and lose no more than their part, no more than twice of what
is too much is taken. -/
theorem abs_sub_le_abs {exp : ℤ} {acc acc' : Fin SS_NO_STATS → ℤ} (hexp : 0 < exp)
    (h : exp < ∑ il, acc il) (hnonneg : ∀ il, 0 ≤ acc' il) (hle : ∀ il, acc' il ≤ acc il)
    (hpart : ∀ il, exp * (acc il - acc' il) ≤ (∑ il, acc il - exp) * acc il) :
    |∑ il, acc' il - exp| ≤ |∑ il, acc il - exp| := by
  have hsum_nonneg : 0 ≤ ∑ il, acc' il := Finset.sum_nonneg fun il _ ↦ hnonneg il
  have hsum_le : ∑ il, acc' il ≤ ∑ il, acc il := Finset.sum_le_sum fun il _ ↦ hle il
  have hsum_part : exp * (∑ il, acc il - ∑ il, acc' il) ≤
      (∑ il, acc il - exp) * ∑ il, acc il := by
    rw [← Finset.sum_sub_distrib, Finset.mul_sum, Finset.mul_sum]
    exact Finset.sum_le_sum fun il _ ↦ hpart il
  generalize ∑ il, acc il = a at *
  generalize ∑ il, acc' il = a' at *
  rw [abs_of_pos (sub_pos.2 h), abs_le]
  refine ⟨?_, by omega⟩
  rcases le_or_gt exp (a - exp) with hfar | hnear
  · omega
  · have htwice : exp * (a - a') ≤ exp * (2 * (a - exp)) := by nlinarith
    have := le_of_mul_le_mul_left htwice hexp
    omega

theorem redistributes_iff_of_loses (hl : l.Valid) (h : l.missing < -1000) :
    Redistributes expToStat l ↔ Redistributable l := by
  have hmissing : l.missing = l.expPoints - l.accumulated := rfl
  have hmagnitude : -l.missing ≤ l.magnitude := le_max_left _ _
  simp only [Redistributes, ends_updateAccExp_of_loses hl h]
  constructor
  · rintro ⟨_, ⟨-, htakes, rfl⟩, -⟩
    obtain ⟨hexp, hscale, -⟩ := htakes 0
    exact ⟨fun hgains ↦ absurd hgains (by omega), fun _ ↦ ⟨hexp, scale_pos_iff.1 hscale,
      fun il ↦ (htakes il).2.2⟩⟩
  · intro hr
    obtain ⟨hexp, hle, hfits⟩ := hr.loses h
    have hscale : 0 < scale l.magnitude := scale_pos_iff.2 hle
    refine ⟨_, ⟨by omega, fun il ↦ ⟨hexp, hscale, hfits il⟩, rfl⟩,
      fun hgains ↦ absurd hgains (by omega), fun hloses ↦ ?_⟩
    have hkept (il : Fin SS_NO_STATS) :=
      ite_left (d := -l.missing) (f := scale l.magnitude) (by omega) hscale hexp
        (hl.accExp_nonneg il)
    have hexcess : l.accumulated - l.expPoints = -l.missing := by omega
    simp only [accumulated, accExpToStats_accExp, setAll_accExp]
    refine ⟨fun il ↦ ⟨(hkept il).1, (hkept il).2.1⟩,
      abs_sub_le_abs hexp hloses (fun il ↦ (hkept il).1) (fun il ↦ (hkept il).2.1) fun il ↦ ?_⟩
    show _ ≤ (l.accumulated - l.expPoints) * _
    rw [hexcess]
    exact (hkept il).2.2

/-! ### The result -/

theorem redistributes_of_near (hl : l.Valid) (h : l.missing ≤ 1000) (h' : -1000 ≤ l.missing) :
    Redistributes expToStat l :=
  ⟨l, (ends_updateAccExp_of_near hl h h').2 rfl, fun hgains ↦ ⟨fun _ ↦ le_rfl, hgains.le⟩,
    fun _ ↦ ⟨fun il ↦ ⟨hl.accExp_nonneg il, le_rfl⟩, le_rfl⟩⟩

theorem sum_max_mul_le (hl : l.Valid) (hpref : ∀ il, 0 ≤ l.learnPref il) :
    (∑ il, max (l.learnPref il) 0) * (l.missing / 100) ≤ l.missing := by
  have hsum : ∑ il, max (l.learnPref il) 0 = 100 :=
    (Finset.sum_congr rfl fun il _ ↦ max_eq_left (hpref il)).trans hl.sum_learnPref
  rw [hsum]
  exact Int.mul_ediv_self_le (by decide)

/-- As long as no preference is negative and no stat has more than there is in all, it is enough
that there is something and that no amount is more than two billions. -/
theorem redistributable_of_le (hl : l.Valid) (hpref : ∀ il, 0 ≤ l.learnPref il)
    (hexp : 0 < l.expPoints) (hle : ∀ il, l.accExp il ≤ l.expPoints)
    (hmagnitude : l.magnitude ≤ 2000000000) : Redistributable l := by
  refine ⟨fun _ ↦ ⟨fun il hneg ↦ absurd hneg (hpref il).not_gt, sum_max_mul_le hl hpref⟩,
    fun hloses ↦ ⟨hexp, hmagnitude, fun il ↦ ?_⟩⟩
  have hscale := scale_nonneg (p := l.magnitude)
  have hscale_le : scale l.magnitude * l.magnitude ≤ 2000000000 :=
    scale_mul_le (hexp.le.trans (le_max_right _ _))
  have hmissing_nonneg : 0 ≤ -l.missing := by omega
  constructor
  · have : l.accExp il * scale l.magnitude ≤ scale l.magnitude * l.magnitude := by
      rw [mul_comm]
      exact Int.mul_le_mul_of_nonneg_left ((hle il).trans (le_max_right _ _)) hscale
    omega
  · have hp : l.accExp il * scale l.magnitude / l.expPoints ≤ scale l.magnitude := by
      refine Int.ediv_le_of_le_mul hexp ?_
      rw [mul_comm]
      exact Int.mul_le_mul_of_nonneg_left (hle il) hscale
    have : -l.missing * (l.accExp il * scale l.magnitude / l.expPoints) ≤
        scale l.magnitude * l.magnitude := by
      rw [mul_comm]
      exact Int.mul_le_mul hp (le_max_left _ _) hmissing_nonneg hscale
    omega

/-- **The experience is redistributed without an error and without an overflow, and so that the
result is sane, exactly when it is `Redistributable`.** -/
theorem redistributes_iff (expToStat : ℤ → ℤ) (hl : l.Valid) :
    Redistributes expToStat l ↔ Redistributable l := by
  rcases lt_or_ge 1000 l.missing with hgains | hgains
  · exact redistributes_iff_of_gains hl hgains
  · rcases lt_or_ge l.missing (-1000) with hloses | hloses
    · exact redistributes_iff_of_loses hl hloses
    · exact iff_of_true (redistributes_of_near hl hgains hloses)
        ⟨fun h ↦ absurd h hgains.not_gt, fun h ↦ absurd h hloses.not_gt⟩

/-- Nine stats that learn about the same. -/
def trained (exp acc : ℤ) : Living where
  expPoints := exp
  accExp _ := acc
  learnPref il := if il = 0 then 12 else 11
  stats _ := 30

theorem valid_trained {exp acc : ℤ} (hexp : 0 ≤ exp) (hexp' : Fits 32 exp) (hacc : 0 ≤ acc)
    (hacc' : Fits 32 acc) : (trained exp acc).Valid where
  expPoints_nonneg := hexp
  expPoints_fits := hexp'
  accExp_nonneg _ := hacc
  accExp_fits _ := hacc'
  learnPref_fits := show ∀ il : Fin SS_NO_STATS, Fits 32 (if il = 0 then 12 else 11) by decide
  sum_learnPref := show ∑ il : Fin SS_NO_STATS, (if il = 0 then 12 else 11) = (100 : ℤ) by decide

/-- Almost half of what was accumulated is lost. The stats are the whole parts of the powers, with
5/18 for the exponent. -/
theorem redistributes_trained :
    Redistributes (fun xp ↦ (List.range 1000).countP fun s ↦ (s + 1) ^ 18 ≤ (10 * xp.toNat) ^ 5)
      (trained 100000 20000) :=
  have hvalid : (trained 100000 20000).Valid :=
    valid_trained (by decide) (by decide) (by decide) (by decide)
  (redistributes_iff _ hvalid).2
    (redistributable_of_le hvalid (by decide) (by decide) (by decide) (by decide))

/-- **With no experience at all, nothing can be taken from what is accumulated**: the division by
the total is an error. -/
theorem not_redistributes :
    ¬∀ (expToStat : ℤ → ℤ) (l : Living), l.Valid → Redistributes expToStat l := by
  intro h
  have hvalid : (trained 0 1000).Valid :=
    valid_trained (by decide) (by decide) (by decide) (by decide)
  have hloses : (trained 0 1000).missing < -1000 := by decide
  have hr := (redistributes_iff_of_loses hvalid hloses).1 (h id _ hvalid)
  exact absurd (hr.loses hloses).1 (by decide)

end Lpmud.Experience
