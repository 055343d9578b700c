import Lpmud.Lib.Wrapping
import Mathlib.Algebra.BigOperators.Fin
import Mathlib.Algebra.Order.BigOperators.Group.Finset

/-!
# The experience of the stats

A living has experience points, and of these it has accumulated some for each of its stats.
`updateAccExp` (`update_acc_exp`) makes the accumulated experience follow the total: what is
missing goes to the stats by the learning preferences, and what is too much is taken from them by
what they have.

The conversion of experience to a stat is done with floats, and is a parameter.
-/

namespace Lpmud.Experience

open List Wrapping

abbrev SS_NO_STATS : ℕ := 9

/-- The experience of a living, and its stats. -/
structure Living where
  expPoints : ℤ
  accExp : Fin SS_NO_STATS → ℤ
  learnPref : Fin SS_NO_STATS → ℤ
  stats : Fin SS_NO_STATS → ℤ

/-- `for (il = SS_STR; il < SS_NO_STATS; il++)` -/
def indices : List (Fin SS_NO_STATS) :=
  List.finRange SS_NO_STATS

namespace Living

def setAccExp (l : Living) (stat : Fin SS_NO_STATS) (val : ℤ) : Living :=
  if val < 0 then l else { l with accExp := Function.update l.accExp stat val }

def setBaseStat (l : Living) (stat : Fin SS_NO_STATS) (val : ℤ) : Living :=
  if val < 1 then l else { l with stats := Function.update l.stats stat val }

def accExpToStats (expToStat : ℤ → ℤ) (l : Living) : Living :=
  indices.foldl (fun l il ↦
    if 0 ≤ l.stats il then l.setBaseStat il (expToStat (l.accExp il)) else l) l

/-- The first loop of `update_acc_exp`: the total, less what is accumulated. -/
def difference (l : Living) : Wrapping 32 ℤ :=
  indices.foldlM (fun sum il ↦ sub sum (l.accExp il)) l.expPoints

/-- What a stat gets when `sum` is a hundredth of what is missing. -/
def gain (sum : ℤ) (l : Living) (il : Fin SS_NO_STATS) : Wrapping 32 Living := do
  let share ← mul (l.learnPref il) sum
  let val ← add (l.accExp il) share
  pure (l.setAccExp il val)

/-- `p = -sum > query_exp() ? -sum : query_exp();` -/
def larger (sum exp : ℤ) : Wrapping 32 ℤ := do
  let less ← neg sum
  if exp < less then neg sum else pure exp

/-- The factor that is to avoid exceeding the largest integer. -/
def factor (sum exp : ℤ) : Wrapping 32 ℤ := do
  let p ← larger sum exp
  if 2000000 < p then div 2000000000 p else pure 1000

/-- What is taken from a stat when the total is `-sum` less than what is accumulated. -/
def lose (sum f : ℤ) (l : Living) (il : Fin SS_NO_STATS) : Wrapping 32 Living := do
  let stat := l.accExp il
  let scaled ← mul stat f
  let p ← div scaled l.expPoints
  let product ← mul sum p
  let change ← div product f
  let val ← add stat change
  pure (l.setAccExp il val)

def updateAccExp (expToStat : ℤ → ℤ) (l : Living) : Wrapping 32 Living := do
  let sum ← l.difference
  if 1000 < sum then
    let sum ← div sum 100
    let l ← indices.foldlM (gain sum) l
    pure (l.accExpToStats expToStat)
  else if sum < -1000 then
    let f ← factor sum l.expPoints
    let l ← indices.foldlM (lose sum f) l
    pure (l.accExpToStats expToStat)
  else
    pure l

/-- Every stat gets its new value, unless that is negative. -/
def setAll (l : Living) (new : Fin SS_NO_STATS → ℤ) : Living :=
  indices.foldl (fun l il ↦ l.setAccExp il (new il)) l

/-- What is accumulated for all the stats. -/
def accumulated (l : Living) : ℤ :=
  ∑ il, l.accExp il

/-- How much more there is than what is accumulated. -/
def missing (l : Living) : ℤ :=
  l.expPoints - l.accumulated

/-- The experience is not negative, the preferences sum up to 100, and all are integers of the
machine. -/
structure Valid (l : Living) : Prop where
  expPoints_nonneg : 0 ≤ l.expPoints
  expPoints_fits : Fits 32 l.expPoints
  accExp_nonneg : ∀ il, 0 ≤ l.accExp il
  accExp_fits : ∀ il, Fits 32 (l.accExp il)
  learnPref_fits : ∀ il, Fits 32 (l.learnPref il)
  sum_learnPref : ∑ il, l.learnPref il = 100

end Living

open Living

variable {expToStat : ℤ → ℤ} {l l' : Living} {il : Fin SS_NO_STATS}

theorem fits_iff {z : ℤ} : Fits 32 z ↔ -2147483648 ≤ z ∧ z < 2147483648 :=
  Iff.rfl

/-! ### The stats do not matter -/

@[simp]
theorem setAccExp_expPoints {val : ℤ} : (l.setAccExp il val).expPoints = l.expPoints := by
  rw [setAccExp]
  split <;> rfl

@[simp]
theorem setAccExp_learnPref {val : ℤ} : (l.setAccExp il val).learnPref = l.learnPref := by
  rw [setAccExp]
  split <;> rfl

theorem setAccExp_accExp_of_ne {val : ℤ} {jl : Fin SS_NO_STATS} (h : jl ≠ il) :
    (l.setAccExp il val).accExp jl = l.accExp jl := by
  rw [setAccExp]
  split
  · rfl
  · exact Function.update_of_ne h _ _

theorem setAccExp_accExp_self {val : ℤ} :
    (l.setAccExp il val).accExp il = if 0 ≤ val then val else l.accExp il := by
  rw [setAccExp]
  split
  next h => rw [if_neg (not_le.2 h)]
  next h => rw [if_pos (not_lt.1 h)]; exact Function.update_self _ _ _

theorem setBaseStat_accExp {val : ℤ} : (l.setBaseStat il val).accExp = l.accExp := by
  rw [setBaseStat]
  split <;> rfl

theorem accExpToStats_accExp : (l.accExpToStats expToStat).accExp = l.accExp := by
  rw [accExpToStats]
  generalize indices = ils
  induction ils generalizing l with
  | nil => rfl
  | cons il ils ih =>
    rw [foldl_cons, ih]
    split
    · exact setBaseStat_accExp
    · rfl

/-! ### The loops -/

/-- A loop in which every stat gets its new value: it ends when each of its steps does, and a new
value that is negative is not set. -/
theorem ends_foldlM {l₀ : Living} {step : Living → Fin SS_NO_STATS → Wrapping 32 Living}
    {ok : Fin SS_NO_STATS → Prop} {new : Fin SS_NO_STATS → ℤ}
    (hstep : ∀ l il l', l.expPoints = l₀.expPoints → l.learnPref = l₀.learnPref →
      l.accExp il = l₀.accExp il → ((step l il).Ends l' ↔ ok il ∧ l' = l.setAccExp il (new il)))
    {ils : List (Fin SS_NO_STATS)} (hnodup : ils.Nodup) (hexp : l.expPoints = l₀.expPoints)
    (hpref : l.learnPref = l₀.learnPref) (hacc : ∀ il ∈ ils, l.accExp il = l₀.accExp il) :
    (ils.foldlM step l).Ends l' ↔
      (∀ il ∈ ils, ok il) ∧ l' = ils.foldl (fun l il ↦ l.setAccExp il (new il)) l := by
  induction ils generalizing l with
  | nil => simp [eq_comm]
  | cons il ils ih =>
    obtain ⟨hil, hnodup⟩ := nodup_cons.1 hnodup
    have hrest : ∀ jl ∈ ils, (l.setAccExp il (new il)).accExp jl = l₀.accExp jl := by
      intro jl hjl
      rw [setAccExp_accExp_of_ne (ne_of_mem_of_not_mem hjl hil)]
      exact hacc jl (mem_cons_of_mem _ hjl)
    rw [foldlM_cons, ends_bind, forall_mem_cons, foldl_cons]
    simp only [hstep l il _ hexp hpref (hacc il mem_cons_self)]
    constructor
    · rintro ⟨_, ⟨hok, rfl⟩, hends⟩
      obtain ⟨hoks, rfl⟩ := (ih hnodup (by simpa) (by simpa) hrest).1 hends
      exact ⟨⟨hok, hoks⟩, rfl⟩
    · rintro ⟨⟨hok, hoks⟩, rfl⟩
      exact ⟨_, ⟨hok, rfl⟩, (ih hnodup (by simpa) (by simpa) hrest).2 ⟨hoks, rfl⟩⟩

theorem foldl_setAccExp_accExp {new : Fin SS_NO_STATS → ℤ} (ils : List (Fin SS_NO_STATS)) :
    (ils.foldl (fun l il ↦ l.setAccExp il (new il)) l).accExp il =
      if il ∈ ils ∧ 0 ≤ new il then new il else l.accExp il := by
  induction ils generalizing l with
  | nil => simp
  | cons jl ils ih =>
    rw [foldl_cons, ih]
    rcases eq_or_ne il jl with rfl | hne
    · rw [setAccExp_accExp_self]
      simp only [mem_cons, true_or, true_and]
      split <;> split <;> simp_all
    · rw [setAccExp_accExp_of_ne hne]
      simp [hne]

theorem setAll_accExp {new : Fin SS_NO_STATS → ℤ} :
    (l.setAll new).accExp il = if 0 ≤ new il then new il else l.accExp il := by
  rw [setAll, foldl_setAccExp_accExp]
  simp [indices]

theorem ends_foldlM_sub {f : Fin SS_NO_STATS → ℤ} (hf : ∀ il, 0 ≤ f il)
    (ils : List (Fin SS_NO_STATS)) {x d : ℤ} (hx : Fits 32 x) :
    (ils.foldlM (fun sum il ↦ sub sum (f il)) x : Wrapping 32 ℤ).Ends d ↔
      -2147483648 ≤ x - (ils.map f).sum ∧ d = x - (ils.map f).sum := by
  rw [fits_iff] at hx
  induction ils generalizing x with
  | nil =>
    rw [foldlM_nil, ends_pure, map_nil, sum_nil, sub_zero, and_iff_right hx.1]
    exact eq_comm
  | cons il ils ih =>
    have hsum : 0 ≤ (ils.map f).sum :=
      sum_nonneg fun _ hy ↦ by
        obtain ⟨jl, -, rfl⟩ := mem_map.1 hy
        exact hf jl
    have hil := hf il
    rw [foldlM_cons, ends_bind, map_cons, sum_cons, ← sub_sub]
    simp only [sub, ends_result (w := 32) (by decide), fits_iff]
    constructor
    · rintro ⟨_, ⟨hfits, rfl⟩, hends⟩
      exact (ih hfits).1 hends
    · rintro ⟨hle, hd⟩
      have hfits : -2147483648 ≤ x - f il ∧ x - f il < 2147483648 := by omega
      exact ⟨_, ⟨hfits, rfl⟩, (ih hfits).2 ⟨hle, hd⟩⟩

theorem ends_difference (hl : l.Valid) {d : ℤ} :
    l.difference.Ends d ↔ -2147483648 ≤ l.missing ∧ d = l.missing := by
  have hsum : (indices.map l.accExp).sum = l.accumulated :=
    (Fin.sum_univ_def l.accExp).symm
  rw [difference, ends_foldlM_sub hl.accExp_nonneg indices hl.expPoints_fits, hsum, missing]

/-! ### Too little is accumulated -/

theorem ends_gain {q : ℤ} :
    (gain q l il).Ends l' ↔
      (Fits 32 (l.learnPref il * q) ∧ Fits 32 (l.accExp il + l.learnPref il * q)) ∧
        l' = l.setAccExp il (l.accExp il + l.learnPref il * q) := by
  simp only [gain, mul, add, ends_bind, ends_result (w := 32) (by decide), ends_pure]
  constructor
  · rintro ⟨_, ⟨hshare, rfl⟩, _, ⟨hval, rfl⟩, rfl⟩
    exact ⟨⟨hshare, hval⟩, rfl⟩
  · rintro ⟨⟨hshare, hval⟩, rfl⟩
    exact ⟨_, ⟨hshare, rfl⟩, _, ⟨hval, rfl⟩, rfl⟩

/-! ### Too much is accumulated -/

/-- The factor, when `p` is the larger one of what is too much and of what there is. -/
def scale (p : ℤ) : ℤ :=
  if 2000000 < p then 2000000000 / p else 1000

theorem ends_larger {d exp p : ℤ} :
    (larger d exp).Ends p ↔ Fits 32 (-d) ∧ p = max (-d) exp := by
  rw [larger, ends_bind]
  simp only [neg, ends_result (w := 32) (by decide)]
  constructor
  · rintro ⟨_, ⟨hfits, rfl⟩, hp⟩
    split at hp
    next h =>
      exact ⟨hfits, ((ends_result (by decide)).1 hp).2.trans (max_eq_left h.le).symm⟩
    next h => exact ⟨hfits, (ends_pure.1 hp).symm.trans (max_eq_right (not_lt.1 h)).symm⟩
  · rintro ⟨hfits, rfl⟩
    refine ⟨_, ⟨hfits, rfl⟩, ?_⟩
    split
    next h => exact (ends_result (by decide)).2 ⟨hfits, max_eq_left h.le⟩
    next h => exact ends_pure.2 (max_eq_right (not_lt.1 h)).symm

theorem scale_nonneg {p : ℤ} : 0 ≤ scale p := by
  rw [scale]
  split
  next h => exact Int.ediv_nonneg (by decide) (by omega)
  next h => decide

theorem scale_mul_le {p : ℤ} (hp : 0 ≤ p) : scale p * p ≤ 2000000000 := by
  rw [scale]
  split
  next h => exact Int.ediv_mul_le _ (by omega)
  next h => omega

theorem scale_pos_iff {p : ℤ} : 0 < scale p ↔ p ≤ 2000000000 := by
  rw [scale]
  split
  next h =>
    rw [← Int.add_one_le_iff, zero_add, Int.le_ediv_iff_mul_le (by omega), one_mul]
  next h => exact iff_of_true (by decide) (by omega)

theorem ends_factor {d exp f : ℤ} :
    (factor d exp).Ends f ↔ Fits 32 (-d) ∧ f = scale (max (-d) exp) := by
  have hscale {p : ℤ} :
      (if 2000000 < p then div 2000000000 p else pure 1000 : Wrapping 32 ℤ).Ends f ↔
        f = scale p := by
    rw [scale]
    split
    next h =>
      have hdiv : Int.tdiv 2000000000 p = 2000000000 / p :=
        Int.tdiv_eq_ediv_of_nonneg (by decide)
      have hnonneg : 0 ≤ 2000000000 / p := Int.ediv_nonneg (by decide) (by omega)
      have hle : 2000000000 / p ≤ 2000000000 := Int.ediv_le_self _ (by decide)
      rw [ends_div (by decide), hdiv, fits_iff]
      omega
    next h => exact ends_pure.trans eq_comm
  rw [factor, ends_bind]
  simp only [ends_larger, hscale]
  constructor
  · rintro ⟨_, ⟨hfits, rfl⟩, hf⟩
    exact ⟨hfits, hf⟩
  · rintro ⟨hfits, hf⟩
    exact ⟨_, ⟨hfits, rfl⟩, hf⟩

/-- What a stat has left, when `d` of `exp` is too much. -/
def left (d f exp stat : ℤ) : ℤ :=
  stat - d * (stat * f / exp) / f

/-- What is taken from a stat is computed without an error, and nothing overflows. -/
def Takes (d f exp stat : ℤ) : Prop :=
  0 < exp ∧ 0 < f ∧ stat * f ≤ 2147483647 ∧ d * (stat * f / exp) ≤ 2147483648

theorem ends_lose {d f : ℤ} (hd : 0 ≤ d) (hf : 0 ≤ f) (hexp : 0 ≤ l.expPoints)
    (hstat : 0 ≤ l.accExp il) (hfits : Fits 32 (l.accExp il)) :
    (lose (-d) f l il).Ends l' ↔ Takes d f l.expPoints (l.accExp il) ∧
      l' = l.setAccExp il (left d f l.expPoints (l.accExp il)) := by
  have hscaled : 0 ≤ l.accExp il * f := Int.mul_nonneg hstat hf
  have hp : (l.accExp il * f).tdiv l.expPoints = l.accExp il * f / l.expPoints :=
    Int.tdiv_eq_ediv_of_nonneg hscaled
  have hp_nonneg : 0 ≤ l.accExp il * f / l.expPoints := Int.ediv_nonneg hscaled hexp
  have hp_le : l.accExp il * f / l.expPoints ≤ l.accExp il * f := Int.ediv_le_self _ hscaled
  have hproduct : 0 ≤ d * (l.accExp il * f / l.expPoints) :=
    Int.mul_nonneg hd hp_nonneg
  have hchange : (-d * (l.accExp il * f / l.expPoints)).tdiv f =
      -(d * (l.accExp il * f / l.expPoints) / f) := by
    rw [neg_mul, Int.neg_tdiv, Int.tdiv_eq_ediv_of_nonneg hproduct]
  have hchange_nonneg : 0 ≤ d * (l.accExp il * f / l.expPoints) / f := Int.ediv_nonneg hproduct hf
  have hchange_le : d * (l.accExp il * f / l.expPoints) / f ≤
      d * (l.accExp il * f / l.expPoints) := Int.ediv_le_self _ hproduct
  simp only [lose, mul, add, ends_bind, ends_result (w := 32) (by decide),
    ends_div (w := 32) (by decide), ends_pure]
  rw [fits_iff] at hfits
  constructor
  · rintro ⟨_, ⟨hscaled_fits, rfl⟩, _, ⟨hexp_ne, -, rfl⟩, _, ⟨hproduct_fits, rfl⟩, _,
      ⟨hf_ne, -, rfl⟩, _, ⟨-, rfl⟩, rfl⟩
    rw [hp] at hproduct_fits ⊢
    rw [hchange, ← sub_eq_add_neg]
    rw [fits_iff] at hscaled_fits
    rw [neg_mul, fits_iff] at hproduct_fits
    exact ⟨⟨by omega, by omega, by omega, by omega⟩, rfl⟩
  · rintro ⟨⟨hexp_pos, hf_pos, hscaled_le, hproduct_le⟩, rfl⟩
    refine ⟨_, ⟨fits_iff.2 (by omega), rfl⟩, _, ⟨hexp_pos.ne', ?_, rfl⟩, _, ⟨?_, rfl⟩, _,
      ⟨hf_pos.ne', ?_, rfl⟩, _, ⟨?_, rfl⟩, ?_⟩
    · rw [hp, fits_iff]
      omega
    · rw [hp, neg_mul, fits_iff]
      omega
    · rw [hp, hchange, fits_iff]
      omega
    · rw [hp, hchange, fits_iff]
      omega
    · rw [hp, hchange, ← sub_eq_add_neg]
      rfl

/-! ### The whole function -/

theorem ends_loop {step : Living → Fin SS_NO_STATS → Wrapping 32 Living}
    {ok : Fin SS_NO_STATS → Prop} {new : Fin SS_NO_STATS → ℤ}
    (hstep : ∀ l₁ il l', l₁.expPoints = l.expPoints → l₁.learnPref = l.learnPref →
      l₁.accExp il = l.accExp il →
        ((step l₁ il).Ends l' ↔ ok il ∧ l' = l₁.setAccExp il (new il))) :
    (indices.foldlM step l).Ends l' ↔ (∀ il, ok il) ∧ l' = l.setAll new := by
  have hnodup : indices.Nodup := nodup_finRange _
  rw [ends_foldlM hstep hnodup rfl rfl fun _ _ ↦ rfl, setAll]
  simp [indices]

/-- The growth is computed without an error, and nothing overflows. -/
def Gives (q acc pref : ℤ) : Prop :=
  Fits 32 (pref * q) ∧ Fits 32 (acc + pref * q)

/-- What is too much or what there is, whichever is more. -/
def Living.magnitude (l : Living) : ℤ :=
  max (-l.missing) l.expPoints

/-- How `update_acc_exp` ends: the accumulated experience of every stat is `new`, unless that is
negative, when the computation goes well for each of them. -/
theorem ends_updateAccExp_of_gains (hl : l.Valid) (h : 1000 < l.missing) :
    (l.updateAccExp expToStat).Ends l' ↔
      (∀ il, Gives (l.missing / 100) (l.accExp il) (l.learnPref il)) ∧
        l' = (l.setAll fun il ↦
          l.accExp il + l.learnPref il * (l.missing / 100)).accExpToStats expToStat := by
  have hfits : l.missing < 2147483648 := by
    have hacc : 0 ≤ l.accumulated := Finset.sum_nonneg fun il _ ↦ hl.accExp_nonneg il
    have hexp := (fits_iff.1 hl.expPoints_fits).2
    rw [missing]
    omega
  have hdiv : l.missing.tdiv 100 = l.missing / 100 := Int.tdiv_eq_ediv_of_nonneg (by omega)
  have hloop (l' : Living) : (indices.foldlM (gain (l.missing / 100)) l).Ends l' ↔
      (∀ il, Gives (l.missing / 100) (l.accExp il) (l.learnPref il)) ∧
        l' = l.setAll fun il ↦ l.accExp il + l.learnPref il * (l.missing / 100) := by
    refine ends_loop fun l₁ il l' _ hpref hacc ↦ ?_
    rw [ends_gain, hpref, hacc, Gives]
  rw [updateAccExp, ends_bind]
  simp only [ends_difference hl]
  constructor
  · rintro ⟨_, ⟨-, rfl⟩, hends⟩
    rw [if_pos h] at hends
    obtain ⟨_, hq, hends⟩ := ends_bind.1 hends
    obtain rfl := ((ends_div (by decide)).1 hq).2.2.trans hdiv
    obtain ⟨_, hends, hl'⟩ := ends_bind.1 hends
    obtain ⟨hok, rfl⟩ := (hloop _).1 hends
    exact ⟨hok, (ends_pure.1 hl').symm⟩
  · rintro ⟨hok, rfl⟩
    refine ⟨_, ⟨by omega, rfl⟩, ?_⟩
    rw [if_pos h]
    refine ends_bind.2 ⟨_, (ends_div (by decide)).2 ⟨by decide, ?_, rfl⟩, ?_⟩
    · rw [hdiv, fits_iff]
      omega
    · rw [hdiv]
      exact ends_bind.2 ⟨_, (hloop _).2 ⟨hok, rfl⟩, ends_pure.2 rfl⟩

theorem ends_updateAccExp_of_loses (hl : l.Valid) (h : l.missing < -1000) :
    (l.updateAccExp expToStat).Ends l' ↔
      -2147483648 < l.missing ∧
      (∀ il, Takes (-l.missing) (scale l.magnitude) l.expPoints (l.accExp il)) ∧
        l' = (l.setAll fun il ↦ left (-l.missing) (scale l.magnitude) l.expPoints
          (l.accExp il)).accExpToStats expToStat := by
  have hloop (l' : Living) : (indices.foldlM (lose l.missing (scale l.magnitude)) l).Ends l' ↔
      (∀ il, Takes (-l.missing) (scale l.magnitude) l.expPoints (l.accExp il)) ∧
        l' = l.setAll fun il ↦ left (-l.missing) (scale l.magnitude) l.expPoints (l.accExp il) := by
    refine ends_loop fun l₁ il l' hexp _ hacc ↦ ?_
    have hlose := @ends_lose l₁ l' il (-l.missing) (scale l.magnitude) (by omega) scale_nonneg
      (hexp ▸ hl.expPoints_nonneg) (hacc ▸ hl.accExp_nonneg il) (hacc ▸ hl.accExp_fits il)
    rwa [neg_neg, hexp, hacc] at hlose
  rw [updateAccExp, ends_bind]
  simp only [ends_difference hl]
  constructor
  · rintro ⟨_, ⟨-, rfl⟩, hends⟩
    rw [if_neg (by omega), if_pos h] at hends
    obtain ⟨_, hf, hends⟩ := ends_bind.1 hends
    obtain ⟨hfits, rfl⟩ := ends_factor.1 hf
    obtain ⟨_, hends, hl'⟩ := ends_bind.1 hends
    obtain ⟨hok, rfl⟩ := (hloop _).1 hends
    rw [fits_iff] at hfits
    exact ⟨by omega, hok, (ends_pure.1 hl').symm⟩
  · rintro ⟨hlt, hok, rfl⟩
    refine ⟨_, ⟨by omega, rfl⟩, ?_⟩
    rw [if_neg (by omega), if_pos h]
    refine ends_bind.2 ⟨_, ends_factor.2 ⟨fits_iff.2 (by omega), rfl⟩, ?_⟩
    exact ends_bind.2 ⟨_, (hloop _).2 ⟨hok, rfl⟩, ends_pure.2 rfl⟩

theorem ends_updateAccExp_of_near (hl : l.Valid) (h : l.missing ≤ 1000) (h' : -1000 ≤ l.missing) :
    (l.updateAccExp expToStat).Ends l' ↔ l' = l := by
  rw [updateAccExp, ends_bind]
  simp only [ends_difference hl]
  constructor
  · rintro ⟨_, ⟨-, rfl⟩, hends⟩
    rw [if_neg (by omega), if_neg (by omega)] at hends
    exact (ends_pure.1 hends).symm
  · rintro rfl
    refine ⟨_, ⟨by omega, rfl⟩, ?_⟩
    rw [if_neg (by omega), if_neg (by omega)]
    exact ends_pure.2 rfl

end Lpmud.Experience
