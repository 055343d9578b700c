import Mathlib.Logic.Basic

/-!
# Computations that may be cut short

A computation on a state that ends with a value, or is cut short by an error: what it had done
to the state by then **stays done** (nothing is rolled back). So an invariant has to hold wherever
an error can strike, and not only at the end.

`wp E m Q s` says that `m`, started in `s`, either ends with a value and a state in `Q`, or is cut
short in a state in `E`. Its rules take a computation apart statement by statement (`wp_bind`), and
a loop over a list is one invariant on the part of the list still to do (`wp_forM`).
-/

universe u

/-- A computation on states `σ`: a value, unless it is cut short, and the state it leaves. -/
def Abortable (σ α : Type u) : Type u :=
  σ → Option α × σ

namespace Abortable

variable {σ α β : Type u}

instance : Monad (Abortable σ) where
  pure a := fun s ↦ (some a, s)
  bind m f := fun s ↦
    match m s with
    | (some a, s') => f a s'
    | (none, s') => (none, s')

instance : LawfulMonad (Abortable σ) :=
  .mk' _
    (fun m ↦ funext fun s ↦ by
      show (match m s with
        | (some a, s') => _
        | (none, s') => _) = m s
      rcases m s with ⟨_ | a, s'⟩ <;> rfl)
    (fun _ _ ↦ rfl)
    (fun m f g ↦ funext fun s ↦ by
      show (match (match m s with
        | (some a, s') => f a s'
        | (none, s') => (none, s')) with
        | (some b, s') => g b s'
        | (none, s') => (none, s')) = match m s with
        | (some a, s') => _
        | (none, s') => _
      rcases m s with ⟨_ | a, s'⟩ <;> rfl)

/-- The state. -/
def read : Abortable σ σ :=
  fun s ↦ (some s, s)

/-- Replace the state. -/
def modify (f : σ → σ) : Abortable σ PUnit :=
  fun s ↦ (some .unit, f s)

/-- A part of the state that may not be there; reading it cuts the computation short when it is
not. -/
def fetch (f : σ → Option α) : Abortable σ α :=
  fun s ↦ (f s, s)

/-! ### Runs -/

section Runs

variable {m : Abortable σ α} {s s' : σ}

@[simp]
theorem pure_apply (a : α) (s : σ) : (pure a : Abortable σ α) s = (some a, s) :=
  rfl

@[simp]
theorem read_apply (s : σ) : (read : Abortable σ σ) s = (some s, s) :=
  rfl

@[simp]
theorem modify_apply (f : σ → σ) (s : σ) : modify f s = (some .unit, f s) :=
  rfl

theorem bind_of_some {f : α → Abortable σ β} {a : α} (h : m s = (some a, s')) :
    (m >>= f) s = f a s' := by
  show (match m s with
    | (some a, s') => f a s'
    | (none, s') => (none, s')) = _
  rw [h]

theorem bind_of_none {f : α → Abortable σ β} (h : m s = (none, s')) :
    (m >>= f) s = (none, s') := by
  show (match m s with
    | (some a, s') => f a s'
    | (none, s') => (none, s')) = _
  rw [h]

theorem bind_eq_some {f : α → Abortable σ β} {b : β} :
    (m >>= f) s = (some b, s') ↔ ∃ a t, m s = (some a, t) ∧ f a t = (some b, s') := by
  rcases hm : m s with ⟨_ | a, t⟩
  · rw [bind_of_none hm]
    exact iff_of_false (fun h ↦ nomatch congrArg Prod.fst h) fun ⟨_, _, h, _⟩ ↦
      nomatch congrArg Prod.fst h
  · rw [bind_of_some hm]
    refine ⟨fun h ↦ ⟨a, t, rfl, h⟩, ?_⟩
    rintro ⟨_, _, h, hf⟩
    cases h
    exact hf

end Runs

/-! ### What a computation guarantees -/

/-- Started in `s`, the computation ends as `Q` says or is cut short in a state in `E`. -/
def wp (E : σ → Prop) (m : Abortable σ α) (Q : α → σ → Prop) (s : σ) : Prop :=
  match m s with
  | (some a, s') => Q a s'
  | (none, s') => E s'

variable {E : σ → Prop} {m : Abortable σ α} {Q Q' : α → σ → Prop} {s : σ}

@[simp]
theorem wp_pure (a : α) : wp E (pure a) Q = Q a :=
  rfl

@[simp]
theorem wp_bind (f : α → Abortable σ β) (R : β → σ → Prop) :
    wp E (m >>= f) R = wp E m fun a ↦ wp E (f a) R := by
  funext s
  unfold wp
  show (match (match m s with
    | (some a, s') => f a s'
    | (none, s') => (none, s')) with
    | (some b, s') => R b s'
    | (none, s') => E s') = _
  rcases m s with ⟨_ | a, s'⟩ <;> rfl

@[simp]
theorem wp_read {Q : σ → σ → Prop} : wp E read Q = fun s ↦ Q s s :=
  rfl

@[simp]
theorem wp_modify (f : σ → σ) {Q : PUnit → σ → Prop} :
    wp E (modify f) Q = fun s ↦ Q .unit (f s) :=
  rfl

theorem wp_fetch (f : σ → Option α) :
    wp E (fetch f) Q s ↔ (f s = none → E s) ∧ ∀ a, f s = some a → Q a s := by
  unfold wp fetch
  cases hf : f s <;> simp

theorem wp_fetch_some {f : σ → Option α} {a : α} (h : f s = some a) :
    wp E (fetch f) Q s ↔ Q a s := by
  simp [wp_fetch, h]

theorem wp_fetch_none {f : σ → Option α} (h : f s = none) : wp E (fetch f) Q s ↔ E s := by
  simp [wp_fetch, h]

theorem wp_mono (hm : wp E m Q s) (hQ : ∀ a s', Q a s' → Q' a s') : wp E m Q' s := by
  unfold wp at hm ⊢
  rcases hms : m s with ⟨_ | a, s'⟩ <;> rw [hms] at hm
  · exact hm
  · exact hQ a s' hm

theorem wp_mono_error {E' : σ → Prop} (hm : wp E m Q s) (hE : ∀ s', E s' → E' s') :
    wp E' m Q s := by
  unfold wp at hm ⊢
  rcases hms : m s with ⟨_ | a, s'⟩ <;> rw [hms] at hm
  · exact hE s' hm
  · exact hm

theorem wp_and {E' : σ → Prop} (hm : wp E m Q s) (hm' : wp E' m Q' s) :
    wp (fun s ↦ E s ∧ E' s) m (fun a s ↦ Q a s ∧ Q' a s) s := by
  unfold wp at hm hm' ⊢
  rcases hms : m s with ⟨_ | a, s'⟩ <;> rw [hms] at hm hm'
  · exact ⟨hm, hm'⟩
  · exact ⟨hm, hm'⟩

theorem wp_and_of_run (hm : wp E m Q s) (h : ∀ a s', m s = (some a, s') → Q' a s') :
    wp E m (fun a s ↦ Q a s ∧ Q' a s) s := by
  unfold wp at hm ⊢
  rcases hms : m s with ⟨_ | a, s'⟩ <;> rw [hms] at hm
  · exact hm
  · exact ⟨hm, h a s' hms⟩

/-- **The loop rule.** The invariant speaks of the part of the list that is still to do. -/
theorem wp_forM {f : β → Abortable σ PUnit} {I : List β → σ → Prop}
    (hstep : ∀ b l s, I (b :: l) s → wp E (f b) (fun _ ↦ I l) s) :
    ∀ l s, I l s → wp E (l.forM f) (fun _ ↦ I []) s := by
  intro l
  induction l with
  | nil => exact fun s hI ↦ hI
  | cons b l ih =>
    intro s hI
    show wp E (f b >>= fun _ ↦ l.forM f) _ s
    rw [wp_bind]
    exact wp_mono (hstep b l s hI) fun _ s' hI' ↦ ih s' hI'

theorem of_wp {I : σ → Prop} (h : wp I m (fun _ ↦ I) s) : I (m s).2 := by
  unfold wp at h
  rcases hm : m s with ⟨_ | a, s'⟩ <;> simpa [hm] using h

/-! ### Invariants -/

/-- The invariant is kept, wherever the computation ends. -/
def Keeps (I : σ → Prop) (m : Abortable σ α) : Prop :=
  ∀ s, I s → wp I m (fun _ ↦ I) s

section Keeps

variable {I : σ → Prop}

theorem keeps_pure (a : α) : Keeps I (pure a : Abortable σ α) :=
  fun _ hI ↦ hI

theorem keeps_read : Keeps I (read : Abortable σ σ) :=
  fun _ hI ↦ hI

theorem keeps_fetch (f : σ → Option α) : Keeps I (fetch f) := by
  intro s hI
  rw [wp_fetch]
  exact ⟨fun _ ↦ hI, fun _ _ ↦ hI⟩

theorem keeps_modify {f : σ → σ} (h : ∀ s, I s → I (f s)) : Keeps I (modify f) :=
  h

theorem Keeps.bind {f : α → Abortable σ β} (hm : Keeps I m) (hf : ∀ a, Keeps I (f a)) :
    Keeps I (m >>= f) := by
  intro s hI
  rw [wp_bind]
  exact wp_mono (hm s hI) fun a s' hI' ↦ hf a s' hI'

theorem Keeps.ite {c : Prop} [Decidable c] {m' : Abortable σ α} (hm : c → Keeps I m)
    (hm' : ¬c → Keeps I m') : Keeps I (if c then m else m') := by
  by_cases hc : c
  · rw [if_pos hc]
    exact hm hc
  · rw [if_neg hc]
    exact hm' hc

theorem Keeps.wp {J : σ → Prop} (h : Keeps I m) (hs : I s) (hIJ : ∀ s, I s → J s) :
    wp J m (fun _ ↦ J) s :=
  wp_mono (wp_mono_error (h s hs) hIJ) fun _ ↦ hIJ

end Keeps

end Abortable
