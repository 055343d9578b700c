import Mathlib.Order.Lattice.Nat

/-!
# The longest in one pass

The elements of a list that have the greatest length (`longest`), when another element comes to the
end of the list: it takes the place of all of them if it is longer, and joins them if it is as long.
So they can be kept in an array that is filled from the front again when a longer one comes.
-/

namespace Longest

variable {α : Type*} (len : α → ℕ)

/-- The greatest length. -/
def greatest (l : List α) : ℕ := (l.map len).foldr max 0

/-- The elements that no element is longer than. -/
def longest (l : List α) : List α := l.filter fun x ↦ ∀ y ∈ l, len y ≤ len x

variable {len} {l : List α} {x : α}

theorem le_greatest (hx : x ∈ l) : len x ≤ greatest len l := by
  induction l with
  | nil => cases hx
  | cons a l ih =>
    rw [greatest, List.map_cons, List.foldr_cons, ← greatest]
    obtain rfl | hx := List.mem_cons.1 hx
    · exact le_max_left _ _
    · exact (ih hx).trans (le_max_right _ _)

theorem greatest_le {n : ℕ} (h : ∀ x ∈ l, len x ≤ n) : greatest len l ≤ n := by
  induction l with
  | nil => exact Nat.zero_le n
  | cons a l ih =>
    obtain ⟨ha, hl⟩ := List.forall_mem_cons.1 h
    rw [greatest, List.map_cons, List.foldr_cons, ← greatest]
    exact max_le ha (ih hl)

@[simp] theorem greatest_nil : greatest len [] = 0 := rfl

theorem greatest_concat : greatest len (l ++ [x]) = max (greatest len l) (len x) := by
  induction l with
  | nil => exact max_comm _ _
  | cons a l ih =>
    rw [greatest, greatest] at *
    rw [List.cons_append, List.map_cons, List.foldr_cons, ih, List.map_cons, List.foldr_cons,
      max_assoc]

theorem longest_eq (l : List α) : longest len l = l.filter fun x ↦ len x = greatest len l := by
  refine List.filter_congr fun x hx ↦ decide_eq_decide.2 ⟨fun h ↦ ?_, fun h y hy ↦ ?_⟩
  · exact (le_greatest hx).antisymm (greatest_le h)
  · exact h ▸ le_greatest hy

theorem length_longest_le : (longest len l).length ≤ l.length :=
  List.length_filter_le _ _

theorem longest_concat_of_lt (h : greatest len l < len x) : longest len (l ++ [x]) = [x] := by
  have hmax : greatest len (l ++ [x]) = len x := by rw [greatest_concat, max_eq_right h.le]
  rw [longest_eq, hmax, List.filter_append, List.filter_eq_nil_iff.2, List.nil_append]
  · simp
  · exact fun y hy heq ↦ ((le_greatest hy).trans_lt h).ne (of_decide_eq_true heq)

theorem longest_concat_of_eq (h : len x = greatest len l) :
    longest len (l ++ [x]) = longest len l ++ [x] := by
  have hmax : greatest len (l ++ [x]) = greatest len l := by
    rw [greatest_concat, h, max_self]
  rw [longest_eq, hmax, List.filter_append, ← longest_eq]
  simp [h]

theorem longest_ne_nil (h : l ≠ []) : longest len l ≠ [] := by
  induction l using List.reverseRecOn with
  | nil => exact absurd rfl h
  | append_singleton l x ih =>
    obtain hlt | heq | hgt := lt_trichotomy (greatest len l) (len x)
    · rw [longest_concat_of_lt hlt]
      exact List.cons_ne_nil _ _
    · rw [longest_concat_of_eq heq.symm]
      simp
    · have hl : l ≠ [] := by
        rintro rfl
        exact Nat.not_lt_zero _ hgt
      rw [longest_eq, greatest_concat, max_eq_left hgt.le, List.filter_append, ← longest_eq]
      exact List.append_ne_nil_of_left_ne_nil (ih hl) _

theorem take_succ_set {n : ℕ} (h : n < l.length) : (l.set n x).take (n + 1) = l.take n ++ [x] := by
  rw [List.take_succ_eq_append_getElem (by rwa [List.length_set]), List.getElem_set_self,
    List.take_set_of_le le_rfl]

end Longest
