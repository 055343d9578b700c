import Mathlib.Data.List.Basic

/-!
# Lists that run through memory

A list of places can be kept in these places themselves: each holds the next one, and the last one
holds a mark (`Chain`). When the same value is written to all of them (`overwrite`), the list is
gone. What else is in memory stays, if the places lie apart.

Memory is anything in which numbers are read and written at places. A place may be more than one
cell, so two places that are different need not lie apart.
-/

universe u

namespace Threaded

variable {M : Type u}

section Chain

variable (get : M → ℕ → ℕ) (mark : ℕ) {m m' : M} {first : ℕ} {ps : List ℕ}

/-- From the place `first` on, memory holds this list of places. -/
def Chain (m : M) : ℕ → List ℕ → Prop
  | first, [] => first = mark
  | first, p :: ps => first = p ∧ p ≠ mark ∧ Chain m (get m p) ps

variable {get mark}

theorem Chain.congr (h : Chain get mark m first ps) (heq : ∀ p ∈ ps, get m' p = get m p) :
    Chain get mark m' first ps := by
  induction ps generalizing first with
  | nil => exact h
  | cons p ps ih =>
    obtain ⟨rfl, hne, h⟩ := h
    obtain ⟨hp, hps⟩ := List.forall_mem_cons.1 heq
    exact ⟨rfl, hne, hp ▸ ih h hps⟩

end Chain

section Overwrite

variable (set : M → ℕ → ℕ → M)

/-- Write a value to places, one after the other. -/
def overwrite (v : ℕ) (m : M) (ps : List ℕ) : M :=
  ps.foldl (fun m p ↦ set m p v) m

variable {set} {get : M → ℕ → ℕ} {Apart : ℕ → ℕ → Prop} {v q : ℕ} {m : M} {ps : List ℕ}

theorem overwrite_of_apart {β : Type*} (read : M → β)
    (hset : ∀ m, ∀ p ∈ ps, read (set m p v) = read m) : read (overwrite set v m ps) = read m := by
  induction ps generalizing m with
  | nil => rfl
  | cons p ps ih =>
    obtain ⟨hp, hps⟩ := List.forall_mem_cons.1 fun p hp m ↦ hset m p hp
    exact (ih fun m p hp ↦ hps p hp m).trans (hp m)

theorem get_overwrite (hget : ∀ m p, get (set m p v) p = v)
    (hset : ∀ m p q, Apart p q → get (set m q v) p = get m p) (hps : ps.Pairwise Apart)
    (hq : q ∈ ps) : get (overwrite set v m ps) q = v := by
  induction ps generalizing m with
  | nil => exact absurd hq List.not_mem_nil
  | cons p ps ih =>
    obtain ⟨hp, hps⟩ := List.pairwise_cons.1 hps
    rcases List.mem_cons.1 hq with rfl | hq
    · show get (overwrite set v (set m q v) ps) q = v
      rw [overwrite_of_apart (get · q) fun m p hp' ↦ hset m q p (hp p hp')]
      exact hget m q
    · exact ih hps hq

end Overwrite

end Threaded
