import Mathlib.Data.List.Perm.Subperm
import Mathlib.Data.Nat.Basic
import Mathlib.Order.Basic

/-!
# Buckets

The storage of a chained hash table: numbered buckets, each a chain of elements. A table has its
elements in the buckets below its size, and is `Placed` by a slot function when every element is
in the bucket of its slot.

What happens to a table is said by what happens to the list of its elements, up to order: one
bucket is exchanged (`exists_elems_update`), every bucket loses elements or has them changed
(`elems_subperm`), or all elements are moved to the buckets of another table (`elems_foldl_add`).
-/

/-- Chains of elements under numbers. -/
abbrev Buckets (α : Type*) : Type _ := ℕ → List α

namespace Buckets

open Function List

variable {α β γ : Type*}

/-- No elements. -/
def empty : Buckets α := fun _ ↦ []

/-- The elements of the first `n` buckets, in their order. -/
def elems (b : Buckets α) (n : ℕ) : List α :=
  (List.range n).flatMap b

/-- Every element of the first `n` buckets is in the bucket of its slot. -/
def Placed (slot : α → ℕ) (n : ℕ) (b : Buckets α) : Prop :=
  ∀ i < n, ∀ x ∈ b i, slot x = i

/-- Put an element in front of the chain of its slot. -/
def add (slot : α → ℕ) (b : Buckets α) (x : α) : Buckets α :=
  update b (slot x) (x :: b (slot x))

theorem elems_succ (b : Buckets α) (n : ℕ) : b.elems (n + 1) = b.elems n ++ b n := by
  rw [elems, range_succ, flatMap_append, flatMap_singleton]
  rfl

theorem mem_elems {b : Buckets α} {n : ℕ} {x : α} : x ∈ b.elems n ↔ ∃ i < n, x ∈ b i := by
  simp only [elems, mem_flatMap, mem_range]

@[simp]
theorem elems_empty (n : ℕ) : (empty : Buckets α).elems n = [] :=
  flatMap_eq_nil_iff.2 fun _ _ ↦ rfl

theorem elems_update_of_le (b : Buckets α) {n i : ℕ} (hi : n ≤ i) (l : List α) :
    elems (update b i l) n = b.elems n := by
  refine flatMap_congr fun j hj ↦ ?_
  exact update_of_ne ((mem_range.1 hj).trans_le hi).ne ..

theorem exists_elems_update (b : Buckets α) {n i : ℕ} (hi : i < n) :
    ∃ rest, ∀ l, (elems (update b i l) n).Perm (l ++ rest) := by
  induction n with
  | zero => exact absurd hi (Nat.not_lt_zero i)
  | succ n ih =>
    rcases Nat.lt_succ_iff_lt_or_eq.1 hi with hlt | rfl
    · obtain ⟨rest, hrest⟩ := ih hlt
      refine ⟨rest ++ b n, fun l ↦ ?_⟩
      rw [elems_succ, update_of_ne hlt.ne', ← append_assoc]
      exact (hrest l).append_right (b n)
    · refine ⟨b.elems i, fun l ↦ ?_⟩
      rw [elems_succ, update_self, elems_update_of_le b le_rfl]
      exact perm_append_comm

/-- The elements with the bucket `i` in front. -/
theorem exists_elems (b : Buckets α) {n i : ℕ} (hi : i < n) :
    ∃ rest, (b.elems n).Perm (b i ++ rest) ∧
      ∀ l, (elems (update b i l) n).Perm (l ++ rest) := by
  obtain ⟨rest, hrest⟩ := b.exists_elems_update hi
  refine ⟨rest, ?_, hrest⟩
  have := hrest (b i)
  rwa [update_eq_self] at this

theorem elems_subperm {b : Buckets α} {b' : Buckets β} {f : α → γ} {g : β → γ} {n : ℕ}
    (h : ∀ i < n, ((b' i).map g).Subperm ((b i).map f)) :
    ((b'.elems n).map g).Subperm ((b.elems n).map f) := by
  induction n with
  | zero => exact List.Subperm.refl _
  | succ n ih =>
    rw [elems_succ, elems_succ, map_append, map_append]
    exact (ih fun i hi ↦ h i (Nat.lt_succ_of_lt hi)).append (h n (Nat.lt_succ_self n))

theorem elems_perm {b : Buckets α} {b' : Buckets β} {f : α → γ} {g : β → γ} {n : ℕ}
    (h : ∀ i < n, ((b' i).map g).Perm ((b i).map f)) :
    ((b'.elems n).map g).Perm ((b.elems n).map f) :=
  (elems_subperm fun i hi ↦ (h i hi).subperm).antisymm
    (elems_subperm fun i hi ↦ (h i hi).symm.subperm)

theorem mem_update {b : Buckets α} {i j : ℕ} {l : List α} {x : α}
    (hx : x ∈ update b i l j) : j = i ∧ x ∈ l ∨ x ∈ b j := by
  rcases eq_or_ne j i with rfl | hne
  · rw [update_self] at hx
    exact .inl ⟨rfl, hx⟩
  · rw [update_of_ne hne] at hx
    exact .inr hx

/-! ### Moving the elements -/

variable {slot : α → ℕ} {n : ℕ} {b : Buckets α}

theorem placed_empty : Placed slot n empty :=
  fun _ _ _ hx ↦ absurd hx not_mem_nil

theorem elems_add {x : α} (hx : slot x < n) : ((b.add slot x).elems n).Perm (x :: b.elems n) := by
  obtain ⟨rest, hb, hrest⟩ := b.exists_elems hx
  exact (hrest _).trans ((perm_cons x).2 hb.symm)

theorem mem_add {x y : α} {i : ℕ} (hy : y ∈ b.add slot x i) : y = x ∨ y ∈ b i := by
  rcases mem_update hy with ⟨rfl, hmem⟩ | hmem
  · exact mem_cons.1 hmem
  · exact .inr hmem

theorem mem_foldl_add (l : List α) : ∀ {b : Buckets α} {x : α} {i : ℕ},
    x ∈ l.foldl (add slot) b i → x ∈ l ∨ x ∈ b i := by
  induction l with
  | nil => exact fun hx ↦ .inr hx
  | cons y l ih =>
    intro b x i hx
    rcases ih hx with hx | hx
    · exact .inl (mem_cons_of_mem y hx)
    · rcases mem_add hx with rfl | hx
      · exact .inl mem_cons_self
      · exact .inr hx

theorem Placed.update {i : ℕ} {l : List α} (h : Placed slot n b) (hl : ∀ x ∈ l, slot x = i) :
    Placed slot n (update b i l) := by
  intro j hj x hx
  rcases eq_or_ne j i with rfl | hne
  · rw [update_self] at hx
    exact hl x hx
  · rw [update_of_ne hne] at hx
    exact h j hj x hx

/-- **What can only be in one bucket** is found there. -/
theorem Placed.find?_elems {p : α → Bool} {i : ℕ} (h : Placed slot n b) (hi : i < n)
    (hp : ∀ x, p x = true → slot x = i) : (b.elems n).find? p = (b i).find? p := by
  have hnone : ∀ j < n, j ≠ i → (b j).find? p = none := fun j hj hne ↦
    find?_eq_none.2 fun x hx hpx ↦ hne ((h j hj x hx).symm.trans (hp x hpx))
  clear h
  induction n with
  | zero => exact absurd hi i.not_lt_zero
  | succ n ih =>
    rw [elems_succ, find?_append]
    rcases Nat.lt_succ_iff_lt_or_eq.1 hi with hlt | rfl
    · rw [ih hlt fun j hj ↦ hnone j (by omega), hnone n n.lt_succ_self hlt.ne', Option.or_none]
    · rw [find?_eq_none.2, Option.none_or]
      intro x hx
      obtain ⟨j, hj, hx⟩ := mem_elems.1 hx
      exact find?_eq_none.1 (hnone j (by omega) hj.ne) x hx

theorem Placed.add {x : α} (h : Placed slot n b) (hx : slot x < n) : Placed slot n (b.add slot x) :=
  h.update fun y hy ↦ (mem_cons.1 hy).elim (fun h ↦ h ▸ rfl) (h _ hx y)

theorem elems_foldl_add (l : List α) : ∀ {b : Buckets α}, (∀ x ∈ l, slot x < n) →
    ((l.foldl (add slot) b).elems n).Perm (l ++ b.elems n) := by
  induction l with
  | nil => exact fun _ ↦ List.Perm.refl _
  | cons x l ih =>
    intro b hl
    rw [foldl_cons, cons_append]
    refine (ih fun y hy ↦ hl y (mem_cons_of_mem x hy)).trans ?_
    refine ((elems_add (hl x mem_cons_self)).append_left l).trans ?_
    exact perm_middle

theorem Placed.foldl_add (l : List α) : ∀ {b : Buckets α}, Placed slot n b →
    (∀ x ∈ l, slot x < n) → Placed slot n (l.foldl (Buckets.add slot) b) := by
  induction l with
  | nil => exact fun h _ ↦ h
  | cons x l ih =>
    intro b h hl
    exact ih (h.add (hl x mem_cons_self)) fun y hy ↦ hl y (mem_cons_of_mem x hy)

end Buckets
