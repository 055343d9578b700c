import Mathlib.Data.Int.Notation
import Mathlib.Data.List.Basic

/-!
# Computations that access arrays

A computation reads from and writes to arrays of fixed sizes. What it accesses is noted, also where
it is outside of an array; it ends with a value, or it crashes.

`Inside` says that nothing was accessed outside. For what is done one after the other this is read
off with `inside_bind`, and the value with `value_bind`.
-/

universe u

/-- The elements from `lo` up to, and not including, `hi` of an array of `size` elements. -/
structure Access where
  size : ℕ
  lo : ℤ
  hi : ℤ
  deriving DecidableEq

/-- All of them are elements of the array. -/
def Access.Inside (a : Access) : Prop :=
  0 ≤ a.lo ∧ a.hi ≤ a.size

instance (a : Access) : Decidable a.Inside :=
  inferInstanceAs (Decidable (_ ∧ _))

/-- The accesses, and the value. -/
structure Traced (α : Type u) where
  accesses : List Access
  value : Option α

namespace Traced

variable {α β : Type u}

instance : Monad Traced where
  pure a := ⟨[], some a⟩
  bind x f :=
    match x.value with
    | none => ⟨x.accesses, none⟩
    | some a => ⟨x.accesses ++ (f a).accesses, (f a).value⟩

/-- Elements of an array are accessed. -/
def access (size : ℕ) (lo hi : ℤ) : Traced PUnit :=
  ⟨[⟨size, lo, hi⟩], some .unit⟩

/-- That is the end. -/
def crash : Traced α :=
  ⟨[], none⟩

theorem bind_eq_of_some {x : Traced α} {a : α} (h : x.value = some a) (f : α → Traced β) :
    x >>= f = ⟨x.accesses ++ (f a).accesses, (f a).value⟩ := by
  show (match x.value with | none => _ | some a => _) = _
  rw [h]

theorem bind_eq_of_none {x : Traced α} (h : x.value = none) (f : α → Traced β) :
    x >>= f = ⟨x.accesses, none⟩ := by
  show (match x.value with | none => _ | some a => _) = _
  rw [h]

@[simp]
theorem value_pure {a : α} : (pure a : Traced α).value = some a := rfl

@[simp]
theorem value_access {size : ℕ} {lo hi : ℤ} : (access size lo hi).value = some .unit := rfl

@[simp]
theorem value_crash : (crash : Traced α).value = none := rfl

@[simp]
theorem value_bind {x : Traced α} {f : α → Traced β} :
    (x >>= f).value = x.value.bind fun a ↦ (f a).value := by
  cases h : x.value with
  | none => rw [bind_eq_of_none h, Option.bind_none]
  | some a => rw [bind_eq_of_some h, Option.bind_some]

/-- Nothing is accessed outside of its array. -/
def Inside (x : Traced α) : Prop :=
  ∀ a ∈ x.accesses, a.Inside

theorem inside_bind {x : Traced α} {f : α → Traced β} :
    (x >>= f).Inside ↔ x.Inside ∧ ∀ a, x.value = some a → (f a).Inside := by
  cases h : x.value with
  | none => simp [bind_eq_of_none h, Inside]
  | some a =>
    rw [bind_eq_of_some h, Inside, List.forall_mem_append]
    simp [Inside]

@[simp]
theorem inside_access {size : ℕ} {lo hi : ℤ} :
    (access size lo hi).Inside ↔ 0 ≤ lo ∧ hi ≤ size :=
  List.forall_mem_singleton

@[simp]
theorem inside_pure {a : α} : (pure a : Traced α).Inside :=
  List.forall_mem_nil _

end Traced
