import Mathlib.Data.List.Rotate
import Mathlib.Data.List.Perm.Basic
import Mathlib.Data.List.Flatten

/-!
# Quicksort with three parts

The partition of a list around one of its elements, as it is made in place: what is still to be
compared stands between the elements that are as large as the pivot and those that are larger. One
that is smaller changes places with the first of the equal ones, one that is larger with the last
that is still to be compared. The recursion over these parts is `quicksort`.

Nothing is assumed of the comparison, except that an element is as large as itself, without which
the recursion would not end. So the result need not be in order. `pairwise_quicksort` says when it
is, for any relation: when each partition that is made leaves its three parts in order to each
other, and the middle one in order in itself.
-/

namespace Quicksort

open List

variable {α : Type*}

/-- A comparison of two elements, by which each is as large as itself. -/
structure Comparison (α : Type*) where
  /-- How the first compares with the second. -/
  cmp : α → α → Ordering
  /-- An element is as large as itself. -/
  cmp_self : ∀ a, cmp a a = .eq

/-- A list in the middle of its partition. -/
structure Parts (α : Type*) where
  less : List α
  equal : List α
  todo : List α
  greater : List α

namespace Parts

/-- The list itself. -/
def toList (p : Parts α) : List α := p.less ++ (p.equal ++ (p.todo ++ p.greater))

/-- The last element moves to the front. -/
def lastFirst (l : List α) : List α := l.getLast?.toList ++ l.dropLast

@[simp] theorem lastFirst_nil : lastFirst ([] : List α) = [] := rfl

@[simp] theorem lastFirst_concat (l : List α) (y : α) : lastFirst (l ++ [y]) = y :: l := by
  rw [lastFirst, List.getLast?_concat, dropLast_concat]
  rfl

theorem lastFirst_perm (l : List α) : (lastFirst l).Perm l := by
  obtain rfl | ⟨l, y, rfl⟩ := l.eq_nil_or_concat
  · exact .refl _
  · rw [concat_eq_append, lastFirst_concat]
    exact (perm_append_singleton y l).symm

variable (C : Comparison α) (h : α)

/-- The next element is compared with the pivot. -/
def step (p : Parts α) : Parts α :=
  match p.todo with
  | [] => p
  | x :: todo =>
    match C.cmp x h with
    | .lt => { p with less := p.less ++ [x], equal := p.equal.rotate 1, todo := todo }
    | .eq => { p with equal := p.equal ++ [x], todo := todo }
    | .gt => { p with todo := lastFirst todo, greater := x :: p.greater }

/-- What was compared stands where it belongs. -/
structure Placed (p : Parts α) : Prop where
  less : ∀ a ∈ p.less, C.cmp a h = .lt
  equal : ∀ a ∈ p.equal, C.cmp a h = .eq
  greater : ∀ a ∈ p.greater, C.cmp a h = .gt

variable {C h} {p : Parts α}

theorem length_todo_step : (p.step C h).todo.length = p.todo.length - 1 := by
  rw [step]
  split
  next ht => rw [ht]; rfl
  next x todo ht =>
    rw [ht, length_cons, Nat.add_sub_cancel]
    split
    · rfl
    · rfl
    · exact (lastFirst_perm todo).length_eq

theorem step_perm : (p.step C h).toList.Perm p.toList := by
  rw [step]
  split
  next => exact .refl _
  next x todo ht =>
    simp only [toList, ht]
    split
    · show (p.less ++ [x] ++ (p.equal.rotate 1 ++ (todo ++ p.greater))).Perm _
      rw [append_assoc, singleton_append]
      refine .append_left _ (.trans (.cons _ (.append_right _ (rotate_perm _ 1))) ?_)
      exact perm_middle.symm
    · rw [append_assoc, singleton_append, cons_append]
    · refine .append_left _ (.append_left _ (perm_middle.trans ?_))
      exact .cons _ (.append_right _ (lastFirst_perm todo))

theorem Placed.step (hp : p.Placed C h) : (p.step C h).Placed C h := by
  rw [Parts.step]
  split
  next => exact hp
  next x todo ht =>
    split
    next hx =>
      refine ⟨fun a ha ↦ ?_, fun a ha ↦ hp.equal a (mem_rotate.1 ha), hp.greater⟩
      obtain ha | ha := mem_append.1 ha
      · exact hp.less a ha
      · exact mem_singleton.1 ha ▸ hx
    next hx =>
      refine ⟨hp.less, fun a ha ↦ ?_, hp.greater⟩
      obtain ha | ha := mem_append.1 ha
      · exact hp.equal a ha
      · exact mem_singleton.1 ha ▸ hx
    next hx =>
      refine ⟨hp.less, hp.equal, fun a ha ↦ ?_⟩
      obtain rfl | ha := mem_cons.1 ha
      · exact hx
      · exact hp.greater a ha

end Parts

variable (C : Comparison α)

/-- The partition of a list around a pivot, `n` steps of it. -/
def steps (h : α) : ℕ → Parts α → Parts α
  | 0, p => p
  | n + 1, p => steps h n (p.step C h)

/-- The partition of a list around a pivot. -/
def split (h : α) (l : List α) : Parts α := steps C h l.length ⟨[], [], l, []⟩

variable {C} {h : α} {l : List α}

theorem steps_spec : ∀ {n : ℕ} {p : Parts α}, p.todo.length = n → p.Placed C h →
    (steps C h n p).toList.Perm p.toList ∧ (steps C h n p).Placed C h ∧
      (steps C h n p).todo = []
  | 0, p, hn, hp => ⟨.refl _, hp, length_eq_zero_iff.1 hn⟩
  | n + 1, p, hn, hp => by
    have hstep : (p.step C h).todo.length = n := by
      rw [Parts.length_todo_step, hn, Nat.add_sub_cancel]
    obtain ⟨hperm, hplaced, htodo⟩ := steps_spec hstep hp.step
    exact ⟨hperm.trans Parts.step_perm, hplaced, htodo⟩

theorem placed_todo (l : List α) : Parts.Placed C h ⟨[], [], l, []⟩ :=
  ⟨forall_mem_nil _, forall_mem_nil _, forall_mem_nil _⟩

theorem split_placed : (split C h l).Placed C h :=
  (steps_spec rfl (placed_todo l)).2.1

@[simp] theorem split_todo : (split C h l).todo = [] :=
  (steps_spec rfl (placed_todo l)).2.2

theorem split_perm :
    ((split C h l).less ++ ((split C h l).equal ++ (split C h l).greater)).Perm l := by
  have hperm : (split C h l).toList.Perm (Parts.toList ⟨[], [], l, []⟩) :=
    (steps_spec rfl (placed_todo l)).1
  rw [Parts.toList, split_todo, nil_append] at hperm
  exact hperm.trans (.of_eq (append_nil l))

theorem split_length : (split C h l).less.length + (split C h l).equal.length +
    (split C h l).greater.length = l.length := by
  have hlength := (split_perm (C := C) (h := h) (l := l)).length_eq
  rw [length_append, length_append] at hlength
  omega

theorem mem_split {a : α} (ha : a ∈ l) :
    C.cmp a h = .lt ∧ a ∈ (split C h l).less ∨ C.cmp a h = .eq ∧ a ∈ (split C h l).equal ∨
      C.cmp a h = .gt ∧ a ∈ (split C h l).greater := by
  obtain hless | hrest := mem_append.1 (split_perm.mem_iff.2 ha)
  · exact .inl ⟨split_placed.less a hless, hless⟩
  obtain hequal | hgreater := mem_append.1 hrest
  · exact .inr (.inl ⟨split_placed.equal a hequal, hequal⟩)
  · exact .inr (.inr ⟨split_placed.greater a hgreater, hgreater⟩)

theorem mem_split_equal (hmem : h ∈ l) : h ∈ (split C h l).equal := by
  have hself := C.cmp_self h
  obtain ⟨hlt, -⟩ | ⟨-, hequal⟩ | ⟨hgt, -⟩ := mem_split (C := C) (h := h) hmem
  · exact absurd (hself.symm.trans hlt) nofun
  · exact hequal
  · exact absurd (hself.symm.trans hgt) nofun

theorem split_length_lt (hmem : h ∈ l) :
    (split C h l).less.length + (split C h l).greater.length < l.length := by
  have hpos := length_pos_of_mem (mem_split_equal (C := C) hmem)
  have hlength := split_length (C := C) (h := h) (l := l)
  omega

/-! ### The recursion -/

/-- The element in the middle of a list that has two or more. -/
def pivot (l : List α) (hl : 2 ≤ l.length) : α := l.get ⟨l.length / 2, by omega⟩

theorem pivot_mem (hl : 2 ≤ l.length) : pivot l hl ∈ l := get_mem _ _

variable (C)

/-- The parts that a list falls into around the element in its middle. -/
def parts (l : List α) (hl : 2 ≤ l.length) : Parts α := split C (pivot l hl) l

theorem less_length_lt (hl : 2 ≤ l.length) : (parts C l hl).less.length < l.length := by
  have hlt := split_length_lt (C := C) (pivot_mem hl)
  rw [parts]
  omega

theorem greater_length_lt (hl : 2 ≤ l.length) : (parts C l hl).greater.length < l.length := by
  have hlt := split_length_lt (C := C) (pivot_mem hl)
  rw [parts]
  omega

/-- The list, sorted by partitions. -/
def quicksort (l : List α) : List α :=
  if hl : 2 ≤ l.length then
    quicksort (parts C l hl).less ++ ((parts C l hl).equal ++ quicksort (parts C l hl).greater)
  else l
termination_by l.length
decreasing_by
  · exact less_length_lt C hl
  · exact greater_length_lt C hl

/-- The lists that are partitioned on the way. -/
def ranges (l : List α) : List (List α) :=
  if hl : 2 ≤ l.length then
    l :: (ranges (parts C l hl).less ++ ranges (parts C l hl).greater)
  else []
termination_by l.length
decreasing_by
  · exact less_length_lt C hl
  · exact greater_length_lt C hl

variable {C}

theorem quicksort_of_lt (hl : l.length < 2) : quicksort C l = l := by
  rw [quicksort, dif_neg (by omega)]

theorem quicksort_perm (l : List α) : (quicksort C l).Perm l := by
  induction l using quicksort.induct C with
  | case1 l hl ihless ihgreater =>
    rw [quicksort, dif_pos hl]
    exact (ihless.append (.append_left _ ihgreater)).trans split_perm
  | case2 l hl => rw [quicksort, dif_neg hl]

/-- The three parts are in order to each other, and the middle one in itself. -/
structure Ordered (r : α → α → Prop) (p : Parts α) : Prop where
  equal : p.equal.Pairwise r
  less_equal : ∀ a ∈ p.less, ∀ b ∈ p.equal, r a b
  less_greater : ∀ a ∈ p.less, ∀ b ∈ p.greater, r a b
  equal_greater : ∀ a ∈ p.equal, ∀ b ∈ p.greater, r a b

/-- **The result is in order exactly if every partition on the way leaves its parts in order.** -/
theorem pairwise_quicksort (r : α → α → Prop) (l : List α) :
    (quicksort C l).Pairwise r ↔
      ∀ x ∈ ranges C l, ∀ hx : 2 ≤ x.length, Ordered r (parts C x hx) := by
  induction l using quicksort.induct C with
  | case1 l hl ihless ihgreater =>
    rw [quicksort, dif_pos hl, ranges, dif_pos hl, forall_mem_cons, forall_mem_append,
      ← ihless, ← ihgreater, pairwise_append, pairwise_append]
    have hless := fun a ↦ (quicksort_perm (C := C) (parts C l hl).less).mem_iff (a := a)
    have hgreater := fun a ↦ (quicksort_perm (C := C) (parts C l hl).greater).mem_iff (a := a)
    simp only [forall_mem_append, hless, hgreater]
    constructor
    · rintro ⟨hl', ⟨hequal, hg', heg⟩, hcross⟩
      exact ⟨fun _ ↦ ⟨hequal, fun a ha ↦ (hcross a ha).1, fun a ha ↦ (hcross a ha).2, heg⟩,
        hl', hg'⟩
    · rintro ⟨hord, hl', hg'⟩
      obtain ⟨hequal, hle, hlg, heg⟩ := hord hl
      exact ⟨hl', ⟨hequal, hg', heg⟩, fun a ha ↦ ⟨hle a ha, hlg a ha⟩⟩
  | case2 l hl =>
    rw [quicksort, dif_neg hl, ranges, dif_neg hl]
    refine iff_of_true ?_ nofun
    match l with
    | [] => exact .nil
    | [a] => exact pairwise_singleton r a
    | a :: b :: l => exact absurd (Nat.le_add_left 2 l.length) hl

theorem subset_of_mem_ranges {x : List α} (hx : x ∈ ranges C l) : x ⊆ l := by
  induction l using quicksort.induct C with
  | case1 l hl ihless ihgreater =>
    rw [ranges, dif_pos hl] at hx
    have hperm := split_perm (C := C) (h := pivot l hl) (l := l)
    obtain rfl | hx := mem_cons.1 hx
    · exact List.Subset.refl _
    obtain hx | hx := mem_append.1 hx
    · exact fun a ha ↦ hperm.subset (mem_append_left _ (ihless hx ha))
    · exact fun a ha ↦ hperm.subset
        (mem_append_right _ (mem_append_right _ (ihgreater hx ha)))
  | case2 l hl =>
    rw [ranges, dif_neg hl] at hx
    cases hx

/-- **By a comparison that goes with a total preorder the result is in order**, whatever the
comparison says of elements that are not in the list. -/
theorem pairwise_of_preorder {r : α → α → Prop} (htrans : ∀ {a b c}, r a b → r b c → r a c)
    (hle : ∀ a ∈ l, ∀ b ∈ l, C.cmp a b ≠ .gt → r a b)
    (hge : ∀ a ∈ l, ∀ b ∈ l, C.cmp a b ≠ .lt → r b a) : (quicksort C l).Pairwise r := by
  rw [pairwise_quicksort]
  intro x hx hlen
  have hsub := subset_of_mem_ranges hx
  have hpivot := hsub (pivot_mem hlen)
  have hplaced := split_placed (C := C) (h := pivot x hlen) (l := x)
  have hperm := split_perm (C := C) (h := pivot x hlen) (l := x)
  rw [← parts] at hplaced hperm
  have hless : ∀ a ∈ (parts C x hlen).less, r a (pivot x hlen) := fun a ha ↦
    hle a (hsub (hperm.subset (by simp [ha]))) _ hpivot (by simp [hplaced.less a ha])
  have hequal : ∀ a ∈ (parts C x hlen).equal, r a (pivot x hlen) ∧ r (pivot x hlen) a :=
    fun a ha ↦ ⟨hle a (hsub (hperm.subset (by simp [ha]))) _ hpivot (by simp [hplaced.equal a ha]),
      hge a (hsub (hperm.subset (by simp [ha]))) _ hpivot (by simp [hplaced.equal a ha])⟩
  have hgreater : ∀ a ∈ (parts C x hlen).greater, r (pivot x hlen) a := fun a ha ↦
    hge a (hsub (hperm.subset (by simp [ha]))) _ hpivot (by simp [hplaced.greater a ha])
  exact {
    equal := pairwise_of_forall_mem_list fun a ha b hb ↦ htrans (hequal a ha).1 (hequal b hb).2
    less_equal := fun a ha b hb ↦ htrans (hless a ha) (hequal b hb).2
    less_greater := fun a ha b hb ↦ htrans (hless a ha) (hgreater b hb)
    equal_greater := fun a ha b hb ↦ htrans (hequal a ha).1 (hgreater b hb) }

end Quicksort
