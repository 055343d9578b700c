import Mathlib.Logic.Basic

/-!
# Labelled transition systems

States, labels, and the rule every safety argument goes through: an invariant is carried along a
run one step at a time (`ReachableVia.invariant`).

A system is reachable **via** a guard when every step taken so far met the guard. The guard is
a predicate on the state *before* the step together with the label, so a theorem about
`ReachableVia ok` says what holds as long as nobody takes a step that `ok` forbids; plain
reachability is the guard that forbids nothing.
-/

universe u v

/-- A labelled transition system. -/
structure TransitionSystem (σ : Type u) (ι : Type v) where
  /-- The states a run may start in. -/
  Init : σ → Prop
  /-- One step, from a state by a label to a state. -/
  Step : σ → ι → σ → Prop

namespace TransitionSystem

variable {σ : Type u} {ι : Type v} (S : TransitionSystem σ ι)

/-- Reachable by steps all of which meet the guard `ok`. -/
inductive ReachableVia (ok : σ → ι → Prop) : σ → Prop where
  | init {s : σ} : S.Init s → ReachableVia ok s
  | step {s s' : σ} {a : ι} :
      ReachableVia ok s → ok s a → S.Step s a s' → ReachableVia ok s'

/-- Reachable, with no restriction on the steps. -/
def Reachable (s : σ) : Prop :=
  S.ReachableVia (fun _ _ ↦ True) s

variable {S}

/-- **The invariant rule.** What holds initially and is kept by every guarded step holds of
every state the guarded steps reach. -/
theorem ReachableVia.invariant {ok : σ → ι → Prop} {I : σ → Prop}
    (hinit : ∀ s, S.Init s → I s)
    (hstep : ∀ s a s', I s → ok s a → S.Step s a s' → I s')
    {s : σ} (hs : S.ReachableVia ok s) : I s := by
  induction hs with
  | init h => exact hinit _ h
  | step _ hok hst ih => exact hstep _ _ _ ih hok hst

theorem ReachableVia.mono {ok ok' : σ → ι → Prop} (hok : ∀ s a, ok s a → ok' s a) {s : σ}
    (hs : S.ReachableVia ok s) : S.ReachableVia ok' s := by
  induction hs with
  | init h => exact .init h
  | step _ ha hst ih => exact .step ih (hok _ _ ha) hst

theorem Reachable.invariant {I : σ → Prop} (hinit : ∀ s, S.Init s → I s)
    (hstep : ∀ s a s', I s → S.Step s a s' → I s') {s : σ} (hs : S.Reachable s) : I s :=
  ReachableVia.invariant hinit (fun s a s' hI _ h ↦ hstep s a s' hI h) hs

theorem Reachable.init {s : σ} (h : S.Init s) : S.Reachable s :=
  ReachableVia.init h

theorem Reachable.step {s s' : σ} {a : ι} (hs : S.Reachable s) (h : S.Step s a s') :
    S.Reachable s' :=
  ReachableVia.step hs trivial h

/-! ### Runs of what is computed -/

/-- The state after several steps that all meet `ok`, where `step` computes them. -/
def run (step : σ → ι → Option σ) (ok : σ → ι → Prop) [∀ s a, Decidable (ok s a)] (s : σ) :
    List ι → Option σ
  | [] => some s
  | a :: as => if ok s a then (step s a).bind fun s' ↦ run step ok s' as else none

/-- **The rule of computed runs**: they stay among the states that are reachable. -/
theorem ReachableVia.run {step : σ → ι → Option σ} {ok ok' : σ → ι → Prop}
    [∀ s a, Decidable (ok' s a)]
    (hstep : ∀ s a s', ok' s a → step s a = some s' → ok s a ∧ S.Step s a s') {as : List ι} :
    ∀ {s s' : σ}, S.ReachableVia ok s → TransitionSystem.run step ok' s as = some s' →
      S.ReachableVia ok s' := by
  induction as with
  | nil =>
    intro s s' hs h
    exact Option.some.inj h ▸ hs
  | cons a as ih =>
    intro s s' hs h
    rw [TransitionSystem.run] at h
    split at h
    next hok =>
      obtain ⟨s₁, hs₁, hrun⟩ := Option.bind_eq_some_iff.1 h
      obtain ⟨hok, hst⟩ := hstep s a s₁ hok hs₁
      exact ih (hs.step hok hst) hrun
    next => cases h

end TransitionSystem
