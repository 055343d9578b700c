import Mathlib.Data.Set.Finite.Lattice

/-!
# Iterating a partial step

What is reached when a step that need not be possible is taken again and again, and when this ends:
when a rank grows in finitely many steps only, and falls again and again (`ends_iff`).
-/

universe u

namespace Iteration

open Option

variable {σ : Type u} (step : σ → Option σ)

/-- The state after `n` steps, when they are possible. -/
def iterate (s : σ) : ℕ → Option σ
  | 0 => some s
  | n + 1 => (iterate s n).bind step

/-- At some time no step is possible. -/
def Ends (s : σ) : Prop :=
  ∃ n, iterate step s n = none

variable {step} {s t : σ} {n : ℕ}

theorem iterate_add (s : σ) (m n : ℕ) :
    iterate step s (m + n) = (iterate step s m).bind (iterate step · n) := by
  induction n with
  | zero => simp [iterate]
  | succ n ih => rw [Nat.add_succ, iterate, ih, bind_assoc]; rfl

theorem iterate_succ' (s : σ) (n : ℕ) :
    iterate step s (n + 1) = (step s).bind (iterate step · n) := by
  rw [Nat.add_comm, iterate_add]
  rfl

theorem iterate_eq_none_of_le {m : ℕ} (h : iterate step s m = none) (hle : m ≤ n) :
    iterate step s n = none := by
  obtain ⟨k, rfl⟩ := Nat.exists_eq_add_of_le hle
  rw [iterate_add, h, bind_none]

theorem not_ends {I : σ → Prop} (hstep : ∀ s, I s → ∃ t, step s = some t ∧ I t) (hs : I s) :
    ¬Ends step s := by
  have hrun : ∀ n, ∃ t, iterate step s n = some t ∧ I t := by
    intro n
    induction n with
    | zero => exact ⟨s, rfl, hs⟩
    | succ n ih =>
      obtain ⟨t, ht, hI⟩ := ih
      obtain ⟨t', ht', hI'⟩ := hstep t hI
      exact ⟨t', by rw [iterate, ht, bind_some, ht'], hI'⟩
  rintro ⟨n, hn⟩
  obtain ⟨t, ht, -⟩ := hrun n
  rw [hn] at ht
  cases ht

section Rank

variable {bad : σ → Prop} (falls : σ → Prop) {rank : σ → ℕ}

/-- Without `bad` states the rank does not grow. -/
theorem rank_le (hstep : ∀ s t, step s = some t → ¬bad s → rank t ≤ rank s)
    (hgood : ∀ k t, k < n → iterate step s k = some t → ¬bad t) (h : iterate step s n = some t) :
    rank t ≤ rank s := by
  induction n generalizing t with
  | zero =>
    cases h
    exact le_rfl
  | succ n ih =>
    obtain ⟨u, hu, hut⟩ := bind_eq_some_iff.1 h
    have hrank := ih (fun k t hk ↦ hgood k t (Nat.lt_succ_of_lt hk)) hu
    exact (hstep u t hut (hgood n u (Nat.lt_succ_self n) hu)).trans hrank

/-- **Ranks.** Outside of `bad` states no step lets the rank grow, and steps from the states `falls`
let it fall. When these are met again and again, and there are finitely many `bad` states, it ends;
and when it ends, there were finitely many. -/
theorem ends_iff (rank : σ → ℕ) (hstep : ∀ s t, step s = some t → ¬bad s → rank t ≤ rank s)
    (hfalls : ∀ s t, step s = some t → ¬bad s → falls s → rank t < rank s)
    (hmeets : ∀ s, ∃ n, ∀ t, iterate step s n = some t → falls t) (s : σ) :
    Ends step s ↔ {n | ∃ t, iterate step s n = some t ∧ bad t}.Finite := by
  constructor
  · rintro ⟨n, hn⟩
    refine (Set.finite_lt_nat n).subset ?_
    rintro k ⟨t, ht, -⟩
    by_contra hle
    rw [iterate_eq_none_of_le hn (not_lt.1 hle)] at ht
    cases ht
  · intro hfinite
    obtain ⟨N, hN⟩ := hfinite.bddAbove
    -- from the last `bad` state on, by induction on the rank
    have hends : ∀ b n t, N < n → iterate step s n = some t → rank t < b → Ends step s := by
      intro b
      induction b with
      | zero => exact fun _ _ _ _ h ↦ absurd h (Nat.not_lt_zero _)
      | succ b ih =>
        intro n t hn ht hrank
        have hgood : ∀ k u, iterate step t k = some u → ¬bad u := by
          intro k u hu hbad
          have hmem : n + k ≤ N := hN ⟨u, by rw [iterate_add, ht, bind_some, hu], hbad⟩
          omega
        obtain ⟨k, hk⟩ := hmeets t
        have hreach : iterate step s (n + k) = iterate step t k := by
          rw [iterate_add, ht, bind_some]
        cases hu : iterate step t k with
        | none => exact ⟨n + k, hreach.trans hu⟩
        | some u =>
          cases hv : step u with
          | none => exact ⟨n + k + 1, by rw [iterate, hreach, hu, bind_some, hv]⟩
          | some v =>
            have hle := rank_le hstep (fun k u _ ↦ hgood k u) hu
            have hlt := hfalls u v hv (hgood k u hu) (hk u hu)
            exact ih (n + k + 1) v (by omega)
              (by rw [iterate, hreach, hu, bind_some, hv]) (by omega)
    cases ht : iterate step s (N + 1) with
    | none => exact ⟨N + 1, ht⟩
    | some t => exact hends (rank t + 1) (N + 1) t (Nat.lt_succ_self N) ht (Nat.lt_succ_self _)

end Rank

end Iteration
