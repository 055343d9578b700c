import Lpmud.Lib.Path

/-!
# Ordered forests

Nodes that may be inside one another: each node has at most one parent, and the children of a node
are kept in a list. `Forest` bundles this with what makes it a forest, so that the two ways of
saying where a node is can never disagree: the children of `b` are the nodes with the parent `b`,
each listed once, and going up from any node comes to an end.

Two operations are enough to rearrange a forest: `detach` takes a node out of its parent, with all
that is below it, and `attach` puts a node without a parent in front of the children of another one
that is not below it.
-/

universe u

/-- An ordered forest. -/
structure Forest (α : Type u) where
  parent : α → Option α
  children : α → List α
  mem_children : ∀ {a b}, a ∈ children b ↔ parent a = some b
  nodup_children : ∀ b, (children b).Nodup
  rooted : ∀ a, ∃ l, PtrPath parent (some a) l

namespace Forest

open Function

variable {α : Type u}

/-- The forest in which no node is inside another. -/
def empty : Forest α where
  parent _ := none
  children _ := []
  mem_children := by simp
  nodup_children _ := List.nodup_nil
  rooted a := ⟨[a], .cons .nil⟩

/-- `a` is `b` or above it. -/
def Above (F : Forest α) (a b : α) : Prop :=
  Reaches F.parent (some b) a

variable (F : Forest α) {a b c : α}

variable {F}

theorem children_disjoint (hb : a ∈ F.children b) (hc : a ∈ F.children c) : b = c :=
  Option.some.inj ((F.mem_children.1 hb).symm.trans (F.mem_children.1 hc))

theorem notMem_children (h : F.parent a = none) (b : α) : a ∉ F.children b := by
  rw [F.mem_children, h]
  exact nofun

theorem children_eq_nil : F.children b = [] ↔ ∀ a, F.parent a ≠ some b := by
  simp only [List.eq_nil_iff_forall_not_mem, F.mem_children, ne_eq]

variable [DecidableEq α] (F)

/-- The node `a` is taken out of its parent. -/
def detach (a : α) : Forest α where
  parent := update F.parent a none
  children b := (F.children b).erase a
  mem_children {x b} := by
    rw [(F.nodup_children b).mem_erase_iff, F.mem_children]
    by_cases hx : x = a
    · simp [hx]
    · simp [hx]
  nodup_children b := (F.nodup_children b).erase a
  rooted x := by
    obtain ⟨l, hl⟩ := F.rooted x
    by_cases ha : a ∈ l
    · obtain ⟨s, t, rfl⟩ := List.append_of_mem ha
      exact ⟨s ++ [a], hl.redirect .nil List.not_mem_nil⟩
    · exact ⟨l, hl.update ha⟩

@[simp] theorem parent_detach (a : α) :
    (F.detach a).parent = update F.parent a none := rfl

@[simp] theorem children_detach (a b : α) : (F.detach a).children b = (F.children b).erase a := rfl

/-- A node that has no parent is put in front of the children of `b`. -/
def attach (a b : α) (ha : F.parent a = none) (hab : ¬F.Above a b) : Forest α where
  parent := update F.parent a (some b)
  children := update F.children b (a :: F.children b)
  mem_children {x c} := by
    by_cases hx : x = a
    · subst hx
      by_cases hc : c = b
      · simp [hc]
      · simp [hc, F.mem_children, ha, Ne.symm hc]
    · by_cases hc : c = b
      · simp [hc, hx, F.mem_children]
      · simp [hc, hx, F.mem_children]
  nodup_children c := by
    by_cases hc : c = b
    · subst hc
      rw [update_self]
      exact List.nodup_cons.2 ⟨notMem_children ha c, F.nodup_children c⟩
    · rw [update_of_ne hc]
      exact F.nodup_children c
  rooted x := by
    obtain ⟨l, hl⟩ := F.rooted x
    obtain ⟨up, hup⟩ := F.rooted b
    by_cases hmem : a ∈ l
    · -- The way up from `x` passes `a`, and goes on through `b`.
      obtain ⟨s, t, rfl⟩ := List.append_of_mem hmem
      exact ⟨s ++ a :: up, hl.redirect hup fun h ↦ hab (hup.mem_iff.1 h)⟩
    · exact ⟨l, hl.update hmem⟩

@[simp] theorem parent_attach (ha : F.parent a = none) (hab : ¬F.Above a b) :
    (F.attach a b ha hab).parent = update F.parent a (some b) := rfl

@[simp] theorem children_attach (ha : F.parent a = none) (hab : ¬F.Above a b) :
    (F.attach a b ha hab).children = update F.children b (a :: F.children b) := rfl

variable {F}

theorem Above.of_detach (h : (F.detach c).Above a b) : F.Above a b := by
  obtain ⟨x, hx, hxa⟩ := h
  refine ⟨x, hx, Relation.ReflTransGen.mono (fun y z hyz ↦ ?_) _ _ hxa⟩
  by_cases hy : y = c
  · simp [hy] at hyz
  · simpa [hy] using hyz

end Forest
