import Lpmud.Heaps.Money

/-!
# Panic

`cb_query_panic` of `/std/combat/cbase.c`. A living that does not fight calms down: its panic is
halved in every interval of healing. The intervals are counted only when somebody asks, and the
panic is then divided by `1 << n` at once.

A shift looks at five bits of the count. So `1 << n` is negative for `n = 31`, when `cb_query_panic`
does nothing, and is 1 again for `n = 32`. `healsPromptly_iff` says after which times asking in
between makes no difference, and the panic is what it should be.
-/

namespace Lpmud.Panic

open Heaps (int int_eq)

def F_INTERVAL_BETWEEN_PANIC_HEALING : ℤ := 20

/-- The variables `panic` and `panic_time`. -/
structure State where
  panic : ℤ
  panicTime : ℤ
  deriving DecidableEq

/-- `1 << n`. -/
def oneShl (n : ℤ) : ℤ :=
  (1#32 <<< (n % 32).toNat).toInt

/-- `cb_query_panic` at a time, of a living that has enemies or none: the result and the state. -/
def cbQueryPanic (enemy : Bool) (time : ℤ) (s : State) : ℤ × State :=
  if enemy then (s.panic, { s with panicTime := time })
  else
    let n := (int (time - s.panicTime)).tdiv F_INTERVAL_BETWEEN_PANIC_HEALING
    let chk := oneShl n
    if n > 0 ∧ chk > 0 then
      let panic := if s.panic > 0 then s.panic.tdiv chk else s.panic
      (panic, ⟨panic, int (s.panicTime + int (n * F_INTERVAL_BETWEEN_PANIC_HEALING))⟩)
    else (s.panic, s)

/-- A state as it is stored: neither panic nor the time is negative. -/
structure State.Ok (s : State) : Prop where
  panic_nonneg : 0 ≤ s.panic
  panic_lt : s.panic < 2 ^ 31
  time_nonneg : 0 ≤ s.panicTime
  time_lt : s.panicTime < 2 ^ 31

/-- How many intervals have passed. -/
def State.elapsed (s : State) (time : ℤ) : ℕ :=
  ((time - s.panicTime) / F_INTERVAL_BETWEEN_PANIC_HEALING).toNat

/-- Asking at `time₁` makes no difference at `time₂`, and the panic is then halved once for every
interval. -/
def HealsPromptly (s : State) (time₁ time₂ : ℤ) : Prop :=
  cbQueryPanic false time₂ (cbQueryPanic false time₁ s).2 = cbQueryPanic false time₂ s ∧
    (cbQueryPanic false time₂ s).1 = s.panic / 2 ^ s.elapsed time₂

/-- After `n` intervals `cb_query_panic` does nothing. -/
def Idle (n : ℕ) : Prop :=
  n = 0 ∨ n % 32 = 31

instance (n : ℕ) : Decidable (Idle n) :=
  inferInstanceAs (Decidable (_ ∨ _))

/-- When the panic heals as it should, with `n₁` intervals until somebody asks, and `n₂` in all. The
first case is the one that is meant; in the others nothing is left that could be healed. -/
def Prompt (panic : ℤ) (n₁ n₂ : ℕ) : Prop :=
  n₂ < 31 ∨
    n₂ % 32 ≠ 31 ∧ panic < 2 ^ (n₂ % 32) ∧ (Idle n₁ ∨ (n₂ - n₁) % 32 ≠ 31) ∨
    n₂ % 32 = 31 ∧ panic = 0 ∧ Idle n₁

/-! ### What asking does -/

theorem oneShl_eq (n : ℕ) :
    oneShl n = if n % 32 = 31 then -2 ^ 31 else 2 ^ (n % 32) := by
  have hlt : n % 32 < 32 := Nat.mod_lt n (by decide)
  rw [oneShl, show ((n : ℤ) % 32).toNat = n % 32 by omega]
  generalize n % 32 = k at hlt ⊢
  decide +revert

variable {s : State} {time time₁ time₂ : ℤ}

/-- The state after `n` intervals, if the panic is healed then. -/
def State.healed (s : State) (n : ℕ) : State :=
  ⟨s.panic / 2 ^ (n % 32), s.panicTime + n * F_INTERVAL_BETWEEN_PANIC_HEALING⟩

theorem cbQueryPanic_eq (hs : s.Ok) (hpos : 0 ≤ time) (hlt : time < 2 ^ 31) :
    cbQueryPanic false time s =
      if Idle (s.elapsed time) then (s.panic, s)
      else ((s.healed (s.elapsed time)).panic, s.healed (s.elapsed time)) := by
  have htime := hs.time_nonneg
  have htime' := hs.time_lt
  rw [cbQueryPanic, if_neg (by decide), int_eq (by omega) (by omega)]
  obtain hlate | hearly := le_or_gt s.panicTime time
  · obtain ⟨n, hn⟩ : ∃ n, s.elapsed time = n := ⟨_, rfl⟩
    have hdiv : (time - s.panicTime).tdiv F_INTERVAL_BETWEEN_PANIC_HEALING = n := by
      rw [Int.tdiv_eq_ediv_of_nonneg (by omega), ← hn, State.elapsed, Int.toNat_of_nonneg]
      exact Int.ediv_nonneg (by omega) (by decide)
    have hle : (n : ℤ) * F_INTERVAL_BETWEEN_PANIC_HEALING ≤ time - s.panicTime := by
      rw [← hdiv, Int.tdiv_eq_ediv_of_nonneg (by omega)]
      exact Int.ediv_mul_le _ (by decide)
    have hmul : 0 ≤ (n : ℤ) * F_INTERVAL_BETWEEN_PANIC_HEALING :=
      mul_nonneg (Int.natCast_nonneg n) (by decide)
    have hint : int (n * F_INTERVAL_BETWEEN_PANIC_HEALING) = n * F_INTERVAL_BETWEEN_PANIC_HEALING :=
      int_eq (by omega) (by omega)
    have hpanic : (if s.panic > 0 then s.panic.tdiv (2 ^ (n % 32)) else s.panic) =
        s.panic / 2 ^ (n % 32) := by
      have := hs.panic_nonneg
      split
      next => exact Int.tdiv_eq_ediv_of_nonneg this
      next => rw [show s.panic = 0 by omega, Int.zero_ediv]
    rw [hdiv, hn]
    dsimp only
    rw [oneShl_eq, hint, int_eq (by omega) (by omega)]
    by_cases hidle : Idle n
    · rw [if_pos hidle, if_neg]
      rintro ⟨hn0, hchk⟩
      obtain rfl | h31 := hidle
      · omega
      · rw [if_pos h31] at hchk
        omega
    · obtain ⟨hn0, h31⟩ := not_or.1 hidle
      rw [if_neg hidle, if_neg h31, if_pos ⟨by omega, by positivity⟩, hpanic]
      rfl
  · have hdiv : (time - s.panicTime).tdiv F_INTERVAL_BETWEEN_PANIC_HEALING ≤ 0 := by
      have := Int.tdiv_nonneg (show 0 ≤ s.panicTime - time by omega)
        (show 0 ≤ F_INTERVAL_BETWEEN_PANIC_HEALING by decide)
      rw [← Int.neg_sub, Int.neg_tdiv]
      omega
    have hzero : s.elapsed time = 0 :=
      Int.toNat_of_nonpos (Int.ediv_neg_of_neg_of_pos (by omega) (by decide)).le
    rw [hzero, if_pos (show Idle 0 from .inl rfl)]
    exact if_neg fun h ↦ hdiv.not_gt h.1

/-! ### Asking twice -/

theorem elapsed_mono (h : time₁ ≤ time₂) : s.elapsed time₁ ≤ s.elapsed time₂ := by
  simp only [State.elapsed, F_INTERVAL_BETWEEN_PANIC_HEALING]
  omega

theorem elapsed_healed (n : ℕ) : (s.healed n).elapsed time = s.elapsed time - n := by
  simp only [State.elapsed, State.healed, F_INTERVAL_BETWEEN_PANIC_HEALING]
  omega

theorem State.Ok.healed (hs : s.Ok) (hlt : time < 2 ^ 31) (hn : s.elapsed time ≠ 0) :
    (s.healed (s.elapsed time)).Ok where
  panic_nonneg := Int.ediv_nonneg hs.panic_nonneg (by positivity)
  panic_lt := (Int.ediv_le_self _ hs.panic_nonneg).trans_lt hs.panic_lt
  time_nonneg := by
    have := hs.time_nonneg
    simp only [State.healed, F_INTERVAL_BETWEEN_PANIC_HEALING]
    omega
  time_lt := by
    simp only [State.healed, State.elapsed, F_INTERVAL_BETWEEN_PANIC_HEALING] at hn ⊢
    omega

theorem ediv_two_pow_eq_zero {p : ℤ} (hp : 0 ≤ p) (k : ℕ) : p / 2 ^ k = 0 ↔ p < 2 ^ k := by
  refine ⟨fun h ↦ ?_, Int.ediv_eq_zero_of_lt hp⟩
  have := Int.lt_ediv_add_one_mul_self p (show (0 : ℤ) < 2 ^ k by positivity)
  rwa [h, zero_add, one_mul] at this

theorem State.Ok.halved_eq_zero (hs : s.Ok) {n : ℕ} (hn : 31 ≤ n) : s.panic / 2 ^ n = 0 :=
  Int.ediv_eq_zero_of_lt hs.panic_nonneg
    (hs.panic_lt.trans_le (pow_le_pow_right₀ (by decide) hn))

/-- Healing twice is healing at once, unless the bits that are left of the count overflow and there
is something left to be healed. -/
theorem healed_healed (hs : s.Ok) {a b : ℕ} (h : a + b < 32 ∨ s.panic < 2 ^ ((a + b) % 32)) :
    (s.healed a).healed b = s.healed (a + b) := by
  have hpanic : s.panic / 2 ^ (a % 32) / 2 ^ (b % 32) = s.panic / 2 ^ ((a + b) % 32) := by
    rw [Int.ediv_ediv_of_nonneg (by positivity), ← pow_add]
    obtain h | h := h
    · rw [Nat.mod_eq_of_lt h, Nat.mod_eq_of_lt (by omega), Nat.mod_eq_of_lt (by omega)]
    · have hle : (a + b) % 32 ≤ a % 32 + b % 32 := by omega
      rw [Int.ediv_eq_zero_of_lt hs.panic_nonneg h, Int.ediv_eq_zero_of_lt hs.panic_nonneg]
      exact h.trans_le (pow_le_pow_right₀ (by decide) hle)
  simp only [State.healed, hpanic, F_INTERVAL_BETWEEN_PANIC_HEALING]
  rw [State.mk.injEq]
  exact ⟨rfl, by omega⟩

theorem level_iff (hs : s.Ok) (hpos : 0 ≤ time) (hlt : time < 2 ^ 31) :
    (cbQueryPanic false time s).1 = s.panic / 2 ^ s.elapsed time ↔
      s.elapsed time < 31 ∨ s.elapsed time % 32 ≠ 31 ∧ s.panic < 2 ^ (s.elapsed time % 32) ∨
        s.elapsed time % 32 = 31 ∧ s.panic = 0 := by
  rw [cbQueryPanic_eq hs hpos hlt]
  generalize s.elapsed time = n
  obtain hn | hn := Nat.lt_or_ge n 31
  · refine iff_of_true ?_ (.inl hn)
    by_cases hidle : Idle n
    · obtain rfl : n = 0 := by
        obtain h | h := hidle <;> omega
      rw [if_pos hidle, pow_zero, Int.ediv_one]
    · rw [if_neg hidle, State.healed, Nat.mod_eq_of_lt (by omega)]
  · rw [hs.halved_eq_zero hn]
    by_cases hidle : Idle n
    · have h31 : n % 32 = 31 := by
        obtain h | h := hidle <;> omega
      rw [if_pos hidle]
      simp [h31, hn.not_gt]
    · have h31 : n % 32 ≠ 31 := fun h ↦ hidle (.inr h)
      rw [if_neg hidle]
      show s.panic / 2 ^ (n % 32) = 0 ↔ _
      rw [ediv_two_pow_eq_zero hs.panic_nonneg]
      simp [h31, hn.not_gt]

/-- **When asking in between makes no difference.** -/
theorem healsPromptly_iff (hs : s.Ok) (hpos : 0 ≤ time₁) (hle : time₁ ≤ time₂)
    (hlt : time₂ < 2 ^ 31) :
    HealsPromptly s time₁ time₂ ↔ Prompt s.panic (s.elapsed time₁) (s.elapsed time₂) := by
  have hmono : s.elapsed time₁ ≤ s.elapsed time₂ := elapsed_mono hle
  have hlevel := level_iff hs (hpos.trans hle) hlt
  rw [HealsPromptly, hlevel]
  have hfirst := cbQueryPanic_eq hs hpos (hle.trans_lt hlt)
  by_cases hidle₁ : Idle (s.elapsed time₁)
  · -- The first time nothing happens.
    rw [hfirst, if_pos hidle₁, Prompt]
    simp [hidle₁]
  · have hok := hs.healed (hle.trans_lt hlt) fun h ↦ hidle₁ (.inl h)
    rw [hfirst, if_neg hidle₁, cbQueryPanic_eq hok (hpos.trans hle) hlt,
      cbQueryPanic_eq hs (hpos.trans hle) hlt, elapsed_healed]
    generalize s.elapsed time₁ = n₁ at hmono hidle₁ ⊢
    generalize s.elapsed time₂ = n₂ at hmono ⊢
    have hpos₁ : n₁ ≠ 0 := fun h ↦ hidle₁ (.inl h)
    by_cases hidle₂ : Idle n₂
    · -- Only with asking in between the time that is stored has changed.
      have h31 : n₂ % 32 = 31 := hidle₂.resolve_left (by omega)
      refine iff_of_false (fun h ↦ ?_) ?_
      · have htime := congrArg (fun r ↦ r.2.panicTime) h.1
        rw [if_pos hidle₂] at htime
        split at htime <;>
          simp only [State.healed, F_INTERVAL_BETWEEN_PANIC_HEALING] at htime <;> omega
      · rintro (h | h | h)
        · omega
        · exact h.1 h31
        · exact hidle₁ h.2.2
    have h31 : n₂ % 32 ≠ 31 := fun h ↦ hidle₂ (.inr h)
    rw [if_neg hidle₂]
    by_cases hidle : Idle (n₂ - n₁)
    · rw [if_pos hidle]
      obtain hzero | hrest := hidle
      · obtain rfl : n₁ = n₂ := by omega
        simp [Prompt, h31]
      · refine iff_of_false (fun h ↦ ?_) ?_
        · have htime := congrArg (fun r ↦ r.2.panicTime) h.1
          simp only [State.healed, F_INTERVAL_BETWEEN_PANIC_HEALING] at htime
          omega
        · rintro (h | h | h)
          · omega
          · exact h.2.2.elim hidle₁ fun hne ↦ hne hrest
          · exact h31 h.1
    · have hrest : (n₂ - n₁) % 32 ≠ 31 := fun h ↦ hidle (.inr h)
      have hsum : n₁ + (n₂ - n₁) = n₂ := by omega
      rw [if_neg hidle]
      constructor
      · rintro ⟨-, h | h | h⟩
        · exact .inl h
        · exact .inr (.inl ⟨h.1, h.2, .inr hrest⟩)
        · exact absurd h.1 h31
      · intro h
        have hsmall : n₂ < 32 ∨ s.panic < 2 ^ (n₂ % 32) := by
          obtain h | h | h := h
          · exact .inl (by omega)
          · exact .inr h.2.1
          · exact absurd h.1 h31
        rw [healed_healed hs (by rwa [hsum]), hsum]
        refine ⟨rfl, ?_⟩
        obtain h | h | h := h
        · exact .inl h
        · exact .inr (.inl ⟨h.1, h.2.1⟩)
        · exact absurd h.1 h31

instance : Decidable (HealsPromptly s time₁ time₂) :=
  inferInstanceAs (Decidable (_ ∧ _))

/-- Three intervals, in the second of which somebody asks. -/
theorem healsPromptly_iff_three :
    HealsPromptly ⟨100, 1000⟩ 1025 1070 ↔ Prompt 100 1 3 :=
  healsPromptly_iff ⟨by decide, by decide, by decide, by decide⟩ (by decide) (by decide) (by decide)

/-- After 31 intervals a panic of 100 is still there, unless somebody has asked before. -/
theorem not_healsPromptly : ¬∀ (s : State) (time₁ time₂ : ℤ), s.Ok → 0 ≤ time₁ → time₁ ≤ time₂ →
    time₂ < 2 ^ 31 → HealsPromptly s time₁ time₂ := by
  intro h
  have hasked : HealsPromptly ⟨100, 1000⟩ 1400 1620 :=
    h _ _ _ ⟨by decide, by decide, by decide, by decide⟩ (by decide) (by decide) (by decide)
  exact absurd hasked (by decide)

end Lpmud.Panic
