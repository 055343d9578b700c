import Mathlib.Data.List.Perm.Subperm

/-!
# Paths of pointers

Nodes of any type, each with a pointer to a next node or to none. `PtrPath next p l` says that
following the pointers from `p` visits the nodes `l`, in this order, and then **ends**. A path never
visits a node twice (`PtrPath.nodup`), since the way on from a node does not depend on how it was
reached.

Two edits are all that a program needs to make with such lists: a pointer is redirected
(`PtrPath.redirect`), or a node is put in front of one (`PtrPath.push`). Everything else is left
alone because the nodes that were written to are not on the way (`PtrPath.congr`, `PtrPath.update`).
-/

universe u

variable {α : Type u}

/-- Following `next` from the pointer `p` visits the nodes `l` and ends. -/
inductive PtrPath (next : α → Option α) : Option α → List α → Prop where
  | nil : PtrPath next none []
  | cons {a : α} {l : List α} : PtrPath next (next a) l → PtrPath next (some a) (a :: l)

/-- The node `a` is reached by following `next` from the pointer `p`. -/
def Reaches (next : α → Option α) (p : Option α) (a : α) : Prop :=
  ∃ b, p = some b ∧ Relation.ReflTransGen (fun x y ↦ next x = some y) b a

namespace PtrPath

open Function List

variable {next next' : α → Option α} {p : Option α} {a b : α} {l l' s t : List α}

theorem unique (h : PtrPath next p l) : ∀ {l'}, PtrPath next p l' → l = l' := by
  induction h with
  | nil =>
    rintro l' ⟨⟩
    rfl
  | cons _ ih =>
    rintro l' (- | h')
    rw [ih h']

theorem drop (h : PtrPath next p (s ++ a :: t)) : PtrPath next (next a) t := by
  induction s generalizing p with
  | nil =>
    cases h with
    | cons h => exact h
  | cons x s ih =>
    cases h with
    | cons h => exact ih h

/-- **A path visits no node twice**: the path behind a node is determined by the node, and it cannot
be a proper part of itself. -/
theorem nodup (h : PtrPath next p l) : l.Nodup := by
  induction h with
  | nil => exact nodup_nil
  | @cons a l h ih =>
    refine nodup_cons.2 ⟨fun ha ↦ ?_, ih⟩
    obtain ⟨s, t, rfl⟩ := append_of_mem ha
    have hlen := congrArg List.length (h.unique h.drop)
    simp only [length_append, length_cons] at hlen
    omega

theorem congr (h : PtrPath next p l) (hn : ∀ a ∈ l, next' a = next a) : PtrPath next' p l := by
  induction h with
  | nil => exact .nil
  | @cons a l _ ih =>
    refine .cons ?_
    rw [hn a mem_cons_self]
    exact ih fun b hb ↦ hn b (mem_cons_of_mem a hb)

theorem mem_iff (h : PtrPath next p l) : a ∈ l ↔ Reaches next p a := by
  induction h with
  | nil => simp [Reaches]
  | @cons x l _ ih =>
    rw [mem_cons, ih]
    constructor
    · rintro (rfl | ⟨b, hb, hab⟩)
      · exact ⟨a, rfl, .refl⟩
      · exact ⟨x, rfl, .head hb hab⟩
    · rintro ⟨b, hb, hab⟩
      obtain rfl := Option.some.inj hb
      rcases Relation.ReflTransGen.cases_head hab with rfl | ⟨c, hc, hca⟩
      · exact .inl rfl
      · exact .inr ⟨c, hc, hca⟩

theorem mem_of_next (h : PtrPath next p l) (ha : a ∈ l) (hb : next a = some b) : b ∈ l := by
  obtain ⟨c, hc, hca⟩ := h.mem_iff.1 ha
  exact h.mem_iff.2 ⟨c, hc, hca.tail hb⟩

theorem not_transGen (h : PtrPath next (some a) l) :
    ¬Relation.TransGen (fun x y ↦ next x = some y) a a := by
  intro hcycle
  obtain ⟨b, hb, hba⟩ := Relation.TransGen.head'_iff.1 hcycle
  have hnodup := h.nodup
  cases h with
  | cons h => exact (nodup_cons.1 hnodup).1 (h.mem_iff.2 ⟨b, hb, hba⟩)

theorem length_le (h : PtrPath next p l) (hl : ∀ a ∈ l, a ∈ l') : l.length ≤ l'.length :=
  (subperm_of_subset h.nodup hl).length_le

variable [DecidableEq α] {q : Option α}

theorem update (h : PtrPath next p l) (ha : a ∉ l) : PtrPath (Function.update next a q) p l := by
  refine h.congr fun b hb ↦ ?_
  rw [update_of_ne]
  rintro rfl
  exact ha hb

theorem push (h : PtrPath next p l) (ha : a ∉ l) :
    PtrPath (Function.update next a p) (some a) (a :: l) := by
  refine .cons ?_
  rw [update_self]
  exact h.update ha

/-- **Redirecting a pointer**: behind the node that was written to, the path goes on where the new
pointer leads. -/
theorem redirect (h : PtrPath next p (s ++ a :: t)) (h' : PtrPath next q t') (ha : a ∉ t') :
    PtrPath (Function.update next a q) p (s ++ a :: t') := by
  induction s generalizing p with
  | nil =>
    cases h with
    | cons => exact h'.push ha
  | cons x s ih =>
    have hx : a ≠ x := by
      rintro rfl
      exact (nodup_cons.1 h.nodup).1 (mem_append_right s mem_cons_self)
    cases h with
    | cons h =>
      refine .cons ?_
      rw [update_of_ne hx.symm]
      exact ih h

theorem exists_update_none (h : PtrPath next p l) (a : α) :
    ∃ l', PtrPath (Function.update next a none) p l' ∧ ∀ b ∈ l', b ∈ l := by
  by_cases hmem : a ∈ l
  · obtain ⟨s, t, rfl⟩ := append_of_mem hmem
    exact ⟨_, h.redirect .nil not_mem_nil, fun b hb ↦ by
      rw [mem_append, mem_singleton] at hb
      rcases hb with hb | rfl <;> simp [*]⟩
  · exact ⟨l, h.update hmem, fun _ hb ↦ hb⟩

/-- **When every path ends**, every path still does after a pointer has been redirected to where a
path starts that does not come back to its node. -/
theorem exists_update (h : ∀ p, ∃ l, PtrPath next p l) (h' : PtrPath next q l') (ha : a ∉ l')
    (p : Option α) : ∃ l, PtrPath (Function.update next a q) p l := by
  obtain ⟨l, hl⟩ := h p
  by_cases hmem : a ∈ l
  · obtain ⟨s, t, rfl⟩ := append_of_mem hmem
    exact ⟨_, hl.redirect h' ha⟩
  · exact ⟨l, hl.update hmem⟩

end PtrPath
