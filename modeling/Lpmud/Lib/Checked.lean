import Mathlib.Data.List.Basic

/-!
# Computations that write to arrays and report errors

A computation that writes to arrays of fixed sizes, may report errors, and ends with a value or
without one. Reporting an error does not end it, and what it wrote stays written.

Two things are asked of it. `Safe` says that nothing was written outside the arrays: exactly for
what is done one after the other, so that a condition for it can be read off (`safe_bind`).
`Returns` says that without an error there is a value, and what it is like.
-/

universe u

/-- A write: how many elements the array has, and which one is written. -/
structure Write where
  size : ℕ
  index : ℕ
  deriving DecidableEq

/-- The writes, the errors that are reported, and the value. -/
structure Checked (α : Type u) where
  writes : List Write
  errors : List String
  value : Option α

namespace Checked

open List

variable {α β σ ι : Type u}

instance : Monad Checked where
  pure a := ⟨[], [], some a⟩
  bind x f :=
    match x.value with
    | none => ⟨x.writes, x.errors, none⟩
    | some a => ⟨x.writes ++ (f a).writes, x.errors ++ (f a).errors, (f a).value⟩

/-- A write to element `index` of an array of `size` elements. -/
def write (size index : ℕ) : Checked PUnit :=
  ⟨[⟨size, index⟩], [], some .unit⟩

/-- An error is reported. -/
def report (msg : String) : Checked PUnit :=
  ⟨[], [msg], some .unit⟩

/-- An error is reported, and that is the end. -/
def fail (msg : String) : Checked α :=
  ⟨[], [msg], none⟩

/-- Nothing comes any more. -/
def stuck : Checked α :=
  ⟨[], [], none⟩

theorem bind_eq_of_some {x : Checked α} {a : α} (h : x.value = some a) (f : α → Checked β) :
    x >>= f = ⟨x.writes ++ (f a).writes, x.errors ++ (f a).errors, (f a).value⟩ := by
  show (match x.value with | none => _ | some a => _) = _
  rw [h]

theorem bind_eq_of_none {x : Checked α} (h : x.value = none) (f : α → Checked β) :
    x >>= f = ⟨x.writes, x.errors, none⟩ := by
  show (match x.value with | none => _ | some a => _) = _
  rw [h]

protected theorem map_id (x : Checked α) : id <$> x = x := by
  cases x with
  | mk w e v =>
    cases v with
    | none => rfl
    | some a => exact congrArg₂ (Checked.mk · · (some a)) (append_nil w) (append_nil e)

protected theorem bind_assoc {γ : Type u} (x : Checked α) (f : α → Checked β) (g : β → Checked γ) :
    x >>= f >>= g = x >>= fun a ↦ f a >>= g := by
  cases x with
  | mk w e v =>
    cases v with
    | none => rfl
    | some a =>
      rw [bind_eq_of_some (x := ⟨w, e, some a⟩) (a := a) rfl f,
        bind_eq_of_some (x := ⟨w, e, some a⟩) (a := a) rfl fun a ↦ f a >>= g]
      cases hf : (f a).value with
      | none => rw [bind_eq_of_none hf, bind_eq_of_none rfl]
      | some b =>
        rw [bind_eq_of_some hf, bind_eq_of_some (a := b) rfl, append_assoc, append_assoc]

instance : LawfulMonad Checked :=
  LawfulMonad.mk' Checked Checked.map_id (fun _ _ ↦ rfl) Checked.bind_assoc

theorem value_bind {x : Checked α} {f : α → Checked β} {b : β} :
    (x >>= f).value = some b ↔ ∃ a, x.value = some a ∧ (f a).value = some b := by
  cases h : x.value with
  | none => simp [bind_eq_of_none h]
  | some a => simp [bind_eq_of_some h]

@[simp]
theorem value_pure {a b : α} : (pure a : Checked α).value = some b ↔ a = b :=
  Option.some_inj

/-- If there is a value, it is in `q`. -/
def Yields (x : Checked α) (q : α → Prop) : Prop :=
  ∀ a, x.value = some a → q a

theorem Yields.bind {x : Checked α} {f : α → Checked β} {p : α → Prop} {q : β → Prop}
    (hx : x.Yields p) (hf : ∀ a, p a → (f a).Yields q) : (x >>= f).Yields q := by
  intro b hb
  obtain ⟨a, ha, hb⟩ := value_bind.1 hb
  exact hf a (hx a ha) b hb

theorem yields_true (x : Checked α) : x.Yields fun _ ↦ True :=
  fun _ _ ↦ trivial

theorem yields_pure {a : α} {q : α → Prop} (h : q a) : (pure a : Checked α).Yields q :=
  fun _ ha ↦ value_pure.1 ha ▸ h

theorem yields_fail {msg : String} {q : α → Prop} : (fail msg : Checked α).Yields q :=
  nofun

theorem yields_stuck {q : α → Prop} : (stuck : Checked α).Yields q :=
  nofun

/-! ### Nothing is written outside -/

/-- All writes are inside their arrays. -/
def Safe (x : Checked α) : Prop :=
  ∀ w ∈ x.writes, w.index < w.size

theorem safe_bind {x : Checked α} {f : α → Checked β} :
    (x >>= f).Safe ↔ x.Safe ∧ ∀ a, x.value = some a → (f a).Safe := by
  cases h : x.value with
  | none => simp [bind_eq_of_none h, Safe]
  | some a =>
    rw [bind_eq_of_some h, Safe, forall_mem_append]
    simp [Safe]

@[simp]
theorem safe_pure {a : α} : (pure a : Checked α).Safe :=
  forall_mem_nil _

@[simp]
theorem safe_write {size index : ℕ} : (write size index).Safe ↔ index < size :=
  forall_mem_singleton

@[simp]
theorem safe_report {msg : String} : (report msg).Safe :=
  forall_mem_nil _

@[simp]
theorem safe_fail {msg : String} : (fail msg : Checked α).Safe :=
  forall_mem_nil _

@[simp]
theorem safe_stuck : (stuck : Checked α).Safe :=
  forall_mem_nil _

theorem safe_write_bind {size index : ℕ} {f : PUnit → Checked β} :
    (write size index >>= f).Safe ↔ index < size ∧ (f .unit).Safe := by
  rw [safe_bind, safe_write]
  exact and_congr_right fun _ ↦ ⟨fun h ↦ h .unit rfl, fun h _ _ ↦ h⟩

/-- What is met on the way of a loop: `p` of each element and the state before it. -/
def Along (step : σ → ι → Checked σ) (p : σ → ι → Prop) : List ι → σ → Prop
  | [], _ => True
  | i :: is, s => p s i ∧ ∀ s', (step s i).value = some s' → Along step p is s'

theorem inv_foldlM {step : σ → ι → Checked σ} {inv : σ → Prop}
    (hinv : ∀ s i s', inv s → (step s i).value = some s' → inv s') (is : List ι) :
    ∀ s s', inv s → (is.foldlM step s).value = some s' → inv s' := by
  induction is with
  | nil =>
    intro s s' h hs'
    exact value_pure.1 hs' ▸ h
  | cons i is ih =>
    intro s s' h hs'
    rw [foldlM_cons, value_bind] at hs'
    obtain ⟨t, ht, hs'⟩ := hs'
    exact ih t s' (hinv s i t h ht) hs'

/-- **A loop is safe exactly if each step is**, where it is reached. -/
theorem safe_foldlM {step : σ → ι → Checked σ} {inv : σ → Prop} {p : σ → ι → Prop}
    (hstep : ∀ s i, inv s → ((step s i).Safe ↔ p s i))
    (hinv : ∀ s i s', inv s → (step s i).value = some s' → inv s') (is : List ι) :
    ∀ s, inv s → ((is.foldlM step s).Safe ↔ Along step p is s) := by
  induction is with
  | nil => exact fun s _ ↦ iff_of_true safe_pure trivial
  | cons i is ih =>
    intro s h
    rw [foldlM_cons, safe_bind, hstep s i h, Along]
    exact and_congr_right fun _ ↦ forall₂_congr fun t ht ↦ ih t (hinv s i t h ht)

/-! ### Without an error there is a value -/

/-- Without an error there is a value, and it is in `q`. -/
def Returns (x : Checked α) (q : α → Prop) : Prop :=
  x.errors = [] → ∃ a, x.value = some a ∧ q a

theorem Returns.bind {x : Checked α} {f : α → Checked β} {p : α → Prop} {q : β → Prop}
    (hx : x.Returns p) (hf : ∀ a, p a → (f a).Returns q) : (x >>= f).Returns q := by
  intro herrors
  cases h : x.value with
  | none =>
    rw [bind_eq_of_none h] at herrors
    obtain ⟨a, ha, -⟩ := hx herrors
    rw [h] at ha
    cases ha
  | some a =>
    rw [bind_eq_of_some h] at herrors ⊢
    obtain ⟨hnil, hnil'⟩ := append_eq_nil_iff.1 herrors
    obtain ⟨a', ha', hp⟩ := hx hnil
    obtain rfl := Option.some.inj (h.symm.trans ha')
    exact hf a hp hnil'

theorem Returns.mono {x : Checked α} {p q : α → Prop} (hx : x.Returns p) (h : ∀ a, p a → q a) :
    x.Returns q := by
  intro herrors
  obtain ⟨a, ha, hp⟩ := hx herrors
  exact ⟨a, ha, h a hp⟩

theorem returns_pure {a : α} {q : α → Prop} (h : q a) : (pure a : Checked α).Returns q :=
  fun _ ↦ ⟨a, rfl, h⟩

theorem returns_fail {msg : String} {q : α → Prop} : (fail msg : Checked α).Returns q :=
  nofun

theorem returns_write {size index : ℕ} {q : PUnit → Prop} (h : q .unit) :
    (write size index).Returns q :=
  fun _ ↦ ⟨.unit, rfl, h⟩

theorem returns_report {msg : String} {q : PUnit → Prop} : (report msg).Returns q :=
  nofun

theorem returns_foldlM {step : σ → ι → Checked σ} {inv : List ι → σ → Prop}
    (hstep : ∀ done i s, inv done s → (step s i).Returns (inv (done ++ [i]))) (is : List ι) :
    ∀ done s, inv done s → (is.foldlM step s).Returns (inv (done ++ is)) := by
  induction is with
  | nil =>
    intro done s h
    rw [append_nil]
    exact returns_pure h
  | cons i is ih =>
    intro done s h
    rw [foldlM_cons]
    refine (hstep done i s h).bind fun s' hs' ↦ ?_
    rw [append_cons]
    exact ih _ s' hs'

end Checked
