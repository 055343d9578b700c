import Mathlib.Algebra.Order.Group.Nat
import Mathlib.Data.List.Basic

/-!
# Lists with holes

Some elements of a list may be holes, which further elements are put into: `fill hole xs ys` is the
list `xs` with the elements of `ys` in its holes, in order, and behind `xs` what is left of `ys`
when there are no more holes. If there are too few elements, the last holes stay.

Filling is associative (`fill_assoc`): it does not matter whether the holes of `ys` are filled
before or after `ys` has been put into `xs`.
-/

namespace Holes

open List

universe u

variable {α : Type u} (hole : α → Bool)

/-- The elements of `ys` are put into the holes of `xs`, and what is left of them behind `xs`. -/
def fill : List α → List α → List α
  | [], ys => ys
  | x :: xs, [] => x :: xs
  | x :: xs, y :: ys => if hole x then y :: fill xs ys else x :: fill xs (y :: ys)

variable {hole} {xs ys zs : List α}

@[simp]
theorem fill_nil_left (ys : List α) : fill hole [] ys = ys := by
  cases ys <;> rfl

@[simp]
theorem fill_nil_right (xs : List α) : fill hole xs [] = xs := by
  cases xs <;> rfl

theorem fill_cons_of_hole {x : α} (hx : hole x = true) (xs : List α) (y : α) (ys : List α) :
    fill hole (x :: xs) (y :: ys) = y :: fill hole xs ys :=
  if_pos hx

theorem fill_cons_of_not_hole {x : α} (hx : hole x = false) (xs ys : List α) :
    fill hole (x :: xs) ys = x :: fill hole xs ys := by
  cases ys with
  | nil => rw [fill_nil_right, fill_nil_right]
  | cons y ys => rw [fill, hx, if_neg Bool.false_ne_true]

/-- **Filling is associative.** -/
theorem fill_assoc (xs ys zs : List α) :
    fill hole (fill hole xs ys) zs = fill hole xs (fill hole ys zs) := by
  induction xs generalizing ys zs with
  | nil => rw [fill_nil_left, fill_nil_left]
  | cons x xs ih =>
    cases hx : hole x with
    | false => rw [fill_cons_of_not_hole hx, fill_cons_of_not_hole hx, fill_cons_of_not_hole hx, ih]
    | true =>
      cases ys with
      | nil => rw [fill_nil_right, fill_nil_left]
      | cons y ys =>
        rw [fill_cons_of_hole hx]
        cases hy : hole y with
        | false =>
          rw [fill_cons_of_not_hole hy, fill_cons_of_not_hole hy, fill_cons_of_hole hx, ih]
        | true =>
          cases zs with
          | nil => rw [fill_nil_right, fill_nil_right, fill_cons_of_hole hx]
          | cons z zs =>
            rw [fill_cons_of_hole hy, fill_cons_of_hole hy, fill_cons_of_hole hx, ih]

/-! ### How many holes there are -/

theorem length_fill (xs ys : List α) :
    (fill hole xs ys).length = xs.length + (ys.length - xs.countP hole) := by
  induction xs generalizing ys with
  | nil => simp
  | cons x xs ih =>
    cases hx : hole x with
    | false =>
      rw [fill_cons_of_not_hole hx, length_cons, ih, countP_cons_of_neg (by simp [hx]),
        length_cons]
      omega
    | true =>
      cases ys with
      | nil => simp
      | cons y ys =>
        rw [fill_cons_of_hole hx, length_cons, ih, countP_cons_of_pos hx,
          length_cons, length_cons]
        omega

theorem countP_fill (xs ys : List α) :
    (fill hole xs ys).countP hole = ys.countP hole + (xs.countP hole - ys.length) := by
  induction xs generalizing ys with
  | nil => simp
  | cons x xs ih =>
    cases hx : hole x with
    | false =>
      have hxp : ¬hole x = true := by simp [hx]
      rw [fill_cons_of_not_hole hx, countP_cons_of_neg hxp, ih, countP_cons_of_neg hxp]
    | true =>
      cases ys with
      | nil => simp
      | cons y ys =>
        rw [fill_cons_of_hole hx, countP_cons, ih, countP_cons_of_pos hx,
          countP_cons,
          length_cons]
        omega

theorem fill_of_forall_hole (hxs : ∀ x ∈ xs, hole x = true) (hlen : xs.length ≤ ys.length) :
    fill hole xs ys = ys := by
  induction xs generalizing ys with
  | nil => exact fill_nil_left ys
  | cons x xs ih =>
    cases ys with
    | nil => simp at hlen
    | cons y ys =>
      rw [fill_cons_of_hole (hxs x mem_cons_self),
        ih (fun x hx ↦ hxs x (mem_cons_of_mem _ hx)) (by simpa using hlen)]

end Holes
