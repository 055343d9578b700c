import Mathlib.Tactic.Ring

/-!
# Computations on integers that wrap around

The integers of `w` bits wrap around, and that is all a program sees of an overflow. Here a
computation also keeps the exact results of its operations, so that it can be said of a run that
nothing overflowed in it: `x.Ends a` says that, and that the computation comes to `a` without an
error. The rules read `Ends` off a program, both ways: an operation ends with its exact result, if
that fits, and with nothing else.
-/

/-- The exact results of the operations, and the value or an error. -/
structure Wrapping (w : ℕ) (α : Type) where
  results : List ℤ
  value : Except String α

namespace Wrapping

variable {w : ℕ} {α β : Type}

/-- An integer of `w` bits can be `z`. -/
def Fits (w : ℕ) (z : ℤ) : Prop :=
  -2 ^ (w - 1) ≤ z ∧ z < 2 ^ (w - 1)

instance (z : ℤ) : Decidable (Fits w z) :=
  inferInstanceAs (Decidable (_ ∧ _))

instance : Monad (Wrapping w) where
  pure a := ⟨[], .ok a⟩
  bind x f :=
    match x.value with
    | .error msg => ⟨x.results, .error msg⟩
    | .ok a => ⟨x.results ++ (f a).results, (f a).value⟩

/-- An error ends the computation. -/
def fail (msg : String) : Wrapping w α :=
  ⟨[], .error msg⟩

/-- An operation whose exact result is `z`. -/
def result (z : ℤ) : Wrapping w ℤ :=
  ⟨[z], .ok (z.bmod (2 ^ w))⟩

def add (x y : ℤ) : Wrapping w ℤ :=
  result (x + y)

def sub (x y : ℤ) : Wrapping w ℤ :=
  result (x - y)

def mul (x y : ℤ) : Wrapping w ℤ :=
  result (x * y)

def neg (x : ℤ) : Wrapping w ℤ :=
  result (-x)

/-- The division cuts off what is behind the point. -/
def div (x y : ℤ) : Wrapping w ℤ :=
  if y = 0 then fail "Division by zero\n" else result (x.tdiv y)

/-- Nothing overflows, and the computation comes to `a`. -/
def Ends (x : Wrapping w α) (a : α) : Prop :=
  (∀ z ∈ x.results, Fits w z) ∧ x.value = .ok a

theorem ends_bind {x : Wrapping w α} {f : α → Wrapping w β} {b : β} :
    (x >>= f).Ends b ↔ ∃ a, x.Ends a ∧ (f a).Ends b := by
  show (match x.value with | .error _ => _ | .ok a => _ : Wrapping w β).Ends b ↔ _
  cases hx : x.value with
  | error msg => simp [Ends, hx]
  | ok a =>
    simp only [Ends, hx, List.forall_mem_append, Except.ok.injEq]
    constructor
    · rintro ⟨⟨hresults, hf⟩, hb⟩
      exact ⟨a, ⟨hresults, rfl⟩, hf, hb⟩
    · rintro ⟨_, ⟨hresults, rfl⟩, hf, hb⟩
      exact ⟨⟨hresults, hf⟩, hb⟩

@[simp]
theorem ends_pure {a b : α} : (pure a : Wrapping w α).Ends b ↔ a = b := by
  show (⟨[], .ok a⟩ : Wrapping w α).Ends b ↔ _
  simp [Ends]

@[simp]
theorem not_ends_fail {msg : String} {a : α} : ¬(fail msg : Wrapping w α).Ends a :=
  fun h ↦ nomatch h.2

theorem bmod_eq_of_fits (hw : 0 < w) {z : ℤ} (h : Fits w z) : z.bmod (2 ^ w) = z := by
  obtain ⟨v, rfl⟩ : ∃ v, w = v + 1 := ⟨w - 1, by omega⟩
  rw [Fits, Nat.add_sub_cancel] at h
  have htwo : ((2 ^ (v + 1) : ℕ) : ℤ) = 2 * 2 ^ v := by
    push_cast
    ring
  exact Int.bmod_eq_of_le (by omega) (by omega)

theorem ends_result (hw : 0 < w) {z a : ℤ} :
    (result z : Wrapping w ℤ).Ends a ↔ Fits w z ∧ a = z := by
  show (∀ y ∈ [z], Fits w y) ∧ _ ↔ _
  rw [List.forall_mem_singleton]
  refine and_congr_right fun h ↦ ?_
  show Except.ok (z.bmod (2 ^ w)) = Except.ok a ↔ _
  rw [Except.ok.injEq, bmod_eq_of_fits hw h]
  exact eq_comm

theorem ends_div (hw : 0 < w) {x y a : ℤ} :
    (div x y : Wrapping w ℤ).Ends a ↔ y ≠ 0 ∧ Fits w (x.tdiv y) ∧ a = x.tdiv y := by
  rw [div]
  split
  next h => exact iff_of_false not_ends_fail fun hends ↦ hends.1 h
  next h => rw [ends_result hw, and_iff_right h]

end Wrapping
