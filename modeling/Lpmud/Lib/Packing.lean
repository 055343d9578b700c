import Mathlib.Algebra.BigOperators.Group.Finset.Basic
import Mathlib.Algebra.Order.Group.Nat
import Mathlib.Data.List.TakeWhile

/-!
# Packing

The elements of a list, each with a size, are placed one behind the other; an element that occurs
again is not placed again. `place` is where an element begins, and `extent` is what all of them
need.

Different elements do not overlap (`place_disjoint`), and they leave no gaps (`lt_extent_iff`).
-/

namespace Packing

open List

universe u

variable {α : Type u} [DecidableEq α] (size : α → ℕ)

/-- What the elements of a list need. -/
def extent (l : List α) : ℕ :=
  ∑ a ∈ l.toFinset, size a

/-- Where an element begins: behind those that occur before it. -/
def place (l : List α) (a : α) : ℕ :=
  extent size (l.takeWhile (· ≠ a))

variable {size} {l l' : List α} {a b : α} {x : ℕ}

@[simp]
theorem extent_nil : extent size [] = 0 :=
  rfl

theorem extent_congr {size' : α → ℕ} (h : ∀ a ∈ l, size a = size' a) :
    extent size l = extent size' l :=
  Finset.sum_congr rfl fun a ha ↦ h a (mem_toFinset.1 ha)

theorem place_congr {size' : α → ℕ} (h : ∀ a ∈ l, size a = size' a) :
    place size l a = place size' l a :=
  extent_congr fun b hb ↦ h b (takeWhile_subset _ hb)

theorem extent_concat_of_mem (h : a ∈ l) : extent size (l ++ [a]) = extent size l := by
  have hset : (l ++ [a]).toFinset = l.toFinset := by
    ext b
    simp only [toFinset_append, Finset.mem_union, mem_toFinset, mem_singleton]
    exact ⟨fun hb ↦ hb.elim id fun hb ↦ hb ▸ h, Or.inl⟩
  rw [extent, hset, extent]

theorem extent_concat_of_notMem (h : a ∉ l) :
    extent size (l ++ [a]) = extent size l + size a := by
  have hset : (l ++ [a]).toFinset = insert a l.toFinset := by
    ext b
    simp only [toFinset_append, Finset.mem_union, mem_toFinset, mem_singleton,
      Finset.mem_insert]
    exact Or.comm
  rw [extent, hset, Finset.sum_insert (by simpa using h), extent, Nat.add_comm]

theorem place_append_of_mem (h : a ∈ l) : place size (l ++ l') a = place size l a := by
  have htake : (l ++ l').takeWhile (· ≠ a) = l.takeWhile (· ≠ a) := by
    rw [takeWhile_append, if_neg]
    intro hlen
    have hall := takeWhile_eq_self_iff.1 (takeWhile_sublist _ |>.eq_of_length hlen)
    simpa using hall a h
  rw [place, htake, place]

theorem place_append_of_notMem (h : a ∉ l) :
    place size (l ++ a :: l') a = extent size l := by
  have htake : (l ++ a :: l').takeWhile (· ≠ a) = l := by
    rw [takeWhile_append_of_pos, takeWhile_cons_of_neg (by simp), append_nil]
    exact fun b hb ↦ by simpa using ne_of_mem_of_not_mem hb h
  rw [place, htake]

theorem place_add_le (h : a ∈ l) : place size l a + size a ≤ extent size l := by
  induction l using List.reverseRecOn with
  | nil => exact absurd h not_mem_nil
  | append_singleton l b ih =>
    by_cases ha : a ∈ l
    · rw [place_append_of_mem ha]
      by_cases hb : b ∈ l
      · rw [extent_concat_of_mem hb]
        exact ih ha
      · rw [extent_concat_of_notMem hb]
        exact (ih ha).trans (Nat.le_add_right _ _)
    · obtain rfl : a = b := by simpa [ha] using h
      rw [place_append_of_notMem ha, extent_concat_of_notMem ha]

/-- **Different elements do not overlap.** -/
theorem place_disjoint (ha : a ∈ l) (hb : b ∈ l) (hne : a ≠ b) :
    place size l a + size a ≤ place size l b ∨ place size l b + size b ≤ place size l a := by
  induction l using List.reverseRecOn with
  | nil => exact absurd ha not_mem_nil
  | append_singleton l c ih =>
    by_cases hal : a ∈ l <;> by_cases hbl : b ∈ l
    · rw [place_append_of_mem hal, place_append_of_mem hbl]
      exact ih hal hbl
    · obtain rfl : b = c := by simpa [hbl] using hb
      rw [place_append_of_mem hal, place_append_of_notMem hbl]
      exact .inl (place_add_le hal)
    · obtain rfl : a = c := by simpa [hal] using ha
      rw [place_append_of_mem hbl, place_append_of_notMem hal]
      exact .inr (place_add_le hbl)
    · obtain rfl : a = c := by simpa [hal] using ha
      exact absurd (by simpa [hbl] using hb) hne.symm

/-- **There are no gaps.** -/
theorem lt_extent_iff :
    x < extent size l ↔ ∃ a ∈ l, place size l a ≤ x ∧ x < place size l a + size a := by
  refine ⟨fun hx ↦ ?_, fun ⟨a, ha, _, hx⟩ ↦ hx.trans_le (place_add_le ha)⟩
  induction l using List.reverseRecOn with
  | nil => exact absurd hx (Nat.not_lt_zero x)
  | append_singleton l b ih =>
    have hbefore : x < extent size l → ∃ a ∈ l ++ [b],
        place size (l ++ [b]) a ≤ x ∧ x < place size (l ++ [b]) a + size a := by
      intro hx
      obtain ⟨a, ha, hplace⟩ := ih hx
      exact ⟨a, mem_append_left _ ha, by rwa [place_append_of_mem ha]⟩
    by_cases hb : b ∈ l
    · rw [extent_concat_of_mem hb] at hx
      exact hbefore hx
    · rw [extent_concat_of_notMem hb] at hx
      rcases lt_or_ge x (extent size l) with hlt | hge
      · exact hbefore hlt
      · refine ⟨b, mem_append_right _ (mem_singleton_self b), ?_⟩
        rw [place_append_of_notMem hb]
        exact ⟨hge, hx⟩

end Packing
