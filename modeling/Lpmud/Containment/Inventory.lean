import Lpmud.Containment.Object
import Lpmud.Lib.Forest

/-!
# Inventories as a forest

A heap **represents** a forest when the pointers of every allocated object spell out the forest.
Each edit of the pointers is then an operation of the forest: taking an object out of its
environment is `Forest.detach` (`Represents.unlink`), putting it into another one is
`Forest.attach` (`Represents.link`).

`Contained` says the same in terms of the pointers alone.
-/

namespace Lpmud.Containment

open Function List

/-- The pointers of the allocated objects spell out the forest `F`. -/
structure Represents (h : Heap) (F : Forest Obj) : Prop where
  super : ∀ a ∈ h.allocated, h.super a = F.parent a
  contains : ∀ b ∈ h.allocated, PtrPath h.nextInv (h.contains b) (F.children b)
  nextInv : ∀ a ∈ h.allocated, F.parent a = none → h.nextInv a = none
  mem : ∀ {a b}, F.parent a = some b → a ∈ h.allocated ∧ b ∈ h.allocated

/-- **The containment of objects is a forest**: what `super` and the inventories say agrees, an
inventory is a list that ends and has each object once, no object is in two of them, and no object
is inside itself. -/
structure Contained (h : Heap) : Prop where
  reaches_iff : ∀ a ∈ h.allocated, ∀ b ∈ h.allocated,
    Reaches h.nextInv (h.contains b) a ↔ h.super a = some b
  inventory : ∀ b ∈ h.allocated, ∃ l, PtrPath h.nextInv (h.contains b) l ∧ l.Nodup ∧
    ∀ a ∈ l, a ∈ h.allocated
  one : ∀ a, ∀ b ∈ h.allocated, ∀ c ∈ h.allocated,
    Reaches h.nextInv (h.contains b) a → Reaches h.nextInv (h.contains c) a → b = c
  super_mem : ∀ a ∈ h.allocated, ∀ b, h.super a = some b → b ∈ h.allocated
  acyclic : ∀ a ∈ h.allocated, ¬Relation.TransGen (fun x y ↦ h.super x = some y) a a

namespace Represents

variable {h h' : Heap} {F : Forest Obj} {a b item dest ob : Obj}

theorem mem_of_mem_children (hF : Represents h F) (ha : a ∈ F.children b) : a ∈ h.allocated :=
  (hF.mem (F.mem_children.1 ha)).1

theorem children_eq_nil (hF : Represents h F) (hb : b ∉ h.allocated) : F.children b = [] :=
  Forest.children_eq_nil.2 fun _ ha ↦ hb (hF.mem ha).2

theorem parent_eq_none (hF : Represents h F) (ha : a ∉ h.allocated) : F.parent a = none := by
  cases hp : F.parent a with
  | none => rfl
  | some b => exact absurd (hF.mem hp).1 ha

theorem congr (hF : Represents h F) (hsuper : h'.super = h.super)
    (hcontains : h'.contains = h.contains) (hnext : h'.nextInv = h.nextInv)
    (hallocated : h'.allocated = h.allocated) : Represents h' F where
  super := by rw [hsuper, hallocated]; exact hF.super
  contains := by rw [hcontains, hnext, hallocated]; exact hF.contains
  nextInv := by rw [hnext, hallocated]; exact hF.nextInv
  mem hp := by rw [hallocated]; exact hF.mem hp

/-- The pointer `next_inv` of an object leads to an object. -/
theorem nextInv_mem (hF : Represents h F) (ha : a ∈ h.allocated) (hb : h.nextInv a = some b) :
    b ∈ h.allocated := by
  cases hp : F.parent a with
  | none =>
    rw [hF.nextInv a ha hp] at hb
    exact nomatch hb
  | some env =>
    exact hF.mem_of_mem_children
      ((hF.contains env (hF.mem hp).2).mem_of_next (F.mem_children.2 hp) hb)

theorem contains_mem (hF : Represents h F) (hb : b ∈ h.allocated) (ha : h.contains b = some a) :
    a ∈ h.allocated := by
  have hl := hF.contains b hb
  refine hF.mem_of_mem_children (b := b) (hl.mem_iff.2 ⟨a, ha, .refl⟩)

/-- All that `a` is in. -/
theorem exists_path (hF : Represents h F) (ha : a ∈ h.allocated) :
    ∃ l, PtrPath h.super (some a) l ∧ PtrPath F.parent (some a) l ∧ l.length < h.bound := by
  obtain ⟨l, hl⟩ := F.rooted a
  have hmem : ∀ b ∈ l, b ∈ h.allocated := by
    intro b hb
    obtain ⟨c, hc, hcb⟩ := hl.mem_iff.1 hb
    obtain rfl := Option.some.inj hc
    rcases Relation.ReflTransGen.cases_tail hcb with rfl | ⟨d, -, hd⟩
    · exact ha
    · exact (hF.mem hd).2
  refine ⟨l, hl.congr fun b hb ↦ hF.super b (hmem b hb), hl, ?_⟩
  exact Nat.lt_succ_of_le (hl.length_le hmem)

/-- The search in `move_object` finds out whether the object would get inside itself. -/
theorem isInside (hF : Represents h F) (item : Obj) (hdest : dest ∈ h.allocated) :
    ∃ b, isInside h item h.bound (some dest) = some b ∧ (b = true ↔ F.Above item dest) := by
  obtain ⟨l, hl, hl', hlen⟩ := hF.exists_path hdest
  refine ⟨_, isInside_eq hl hlen, ?_⟩
  rw [decide_eq_true_iff, hl'.mem_iff, Forest.Above]

theorem length_children_lt (hF : Represents h F) (b : Obj) : (F.children b).length < h.bound := by
  have hsub : (F.children b).length ≤ h.allocated.length :=
    (subperm_of_subset (F.nodup_children b) fun _ ha ↦ hF.mem_of_mem_children ha).length_le
  exact Nat.lt_succ_of_le hsub

/-- Redirecting the pointer to `item` leaves it out of its inventory, and changes no other one. -/
theorem write_linkBehind (hF : Represents h F) {env : Obj} {s t : List Obj}
    (henv : env ∈ h.allocated) (hst : F.children env = s ++ item :: t) :
    let h' := h.write (h.nextInv item) (linkBehind (.contains env) s)
    PtrPath h'.nextInv (h'.contains env) (s ++ t) ∧
      (∀ c, c ≠ env → h'.contains c = h.contains c) ∧
      ∀ a, a ∉ F.children env → h'.nextInv a = h.nextInv a := by
  have hl := hF.contains env henv
  rw [hst] at hl
  rcases eq_nil_or_concat s with rfl | ⟨s, b, rfl⟩
  · refine ⟨?_, fun c hc ↦ ?_, fun a _ ↦ ?_⟩
    · simpa [linkBehind, Heap.write] using hl.drop (s := [])
    · simp [linkBehind, Heap.write, hc]
    · simp [linkBehind, Heap.write]
  · have hbehind : linkBehind (.contains env) (s ++ [b]) = .nextInv b := by
      simp [linkBehind]
    rw [concat_eq_append] at hst hl ⊢
    rw [hbehind]
    have hb : b ∉ t := by
      have hnodup := hl.nodup
      rw [append_assoc] at hnodup
      have hnodup := (nodup_append.1 hnodup).2.1
      exact fun hb ↦ (nodup_cons.1 hnodup).1 (mem_cons_of_mem item hb)
    refine ⟨?_, fun c hc ↦ ?_, fun a ha ↦ ?_⟩
    · have hdrop := hl.drop
      rw [append_assoc] at hl ⊢
      simpa [Heap.write] using hl.redirect hdrop hb
    · simp [Heap.write]
    · have hab : a ≠ b := by
        rintro rfl
        exact ha (by simp [hst])
      simp [Heap.write, hab]

/-- **Taking an object out of its environment.** The loop finds it, and when the pointers of the
object itself are reset it has been detached. -/
theorem unlink (hF : Represents h F) {env : Obj} (hp : F.parent item = some env) :
    ∃ h', removeInv item h.bound h (.contains env) false = some (h', true) ∧
      h'.rest = h.rest ∧ h'.super = h.super ∧ h'.allocated = h.allocated ∧
      Represents ((h'.setNextInv item none).setSuper item none) (F.detach item) := by
  have henv := (hF.mem hp).2
  have hitem := F.mem_children.2 hp
  obtain ⟨s, t, hst⟩ := append_of_mem hitem
  have hlen := hF.length_children_lt env
  have hl := hF.contains env henv
  have hnodup := F.nodup_children env
  rw [hst] at hlen hl hnodup
  obtain ⟨hpath, hcontains, hnext⟩ := hF.write_linkBehind henv hst
  refine ⟨_, removeInv_of_mem hl nofun hlen, by simp, by simp, by simp, ?_⟩
  set h' := h.write (h.nextInv item) (linkBehind (.contains env) s) with hh'
  have hsuper : h'.super = h.super := by simp [hh']
  have hallocated : h'.allocated = h.allocated := by simp [hh']
  obtain ⟨hs, ht, hdisj⟩ := nodup_append.1 hnodup
  have hins : item ∉ s := fun hs ↦ hdisj item hs item mem_cons_self rfl
  have hint : item ∉ t := (nodup_cons.1 ht).1
  refine ⟨fun a ha ↦ ?_, fun c hc ↦ ?_, fun a ha hnone ↦ ?_, fun {a b} hab ↦ ?_⟩
  · rw [Heap.super_setSuper, Heap.super_setNextInv, hsuper, Forest.parent_detach]
    by_cases hai : a = item
    · subst hai
      rw [update_self, update_self]
    · rw [update_of_ne hai, update_of_ne hai]
      exact hF.super a (hallocated ▸ ha)
  · rw [Heap.nextInv_setSuper, Heap.nextInv_setNextInv, Heap.contains_setSuper,
      Heap.contains_setNextInv, Forest.children_detach]
    by_cases hce : c = env
    · subst hce
      rw [hst, erase_append_right _ hins, erase_cons_head]
      exact hpath.update fun h ↦ (mem_append.1 h).elim hins hint
    · have hout : item ∉ F.children c := fun h ↦ hce (Forest.children_disjoint h hitem)
      rw [erase_of_not_mem hout, hcontains c hce]
      refine ((hF.contains c (hallocated ▸ hc)).congr fun a ha ↦ ?_).update hout
      exact hnext a fun h ↦ hce (Forest.children_disjoint ha h)
  · rw [Heap.nextInv_setSuper, Heap.nextInv_setNextInv]
    by_cases hai : a = item
    · rw [hai, update_self]
    · rw [update_of_ne hai]
      rw [Forest.parent_detach, update_of_ne hai] at hnone
      rw [hnext a (Forest.notMem_children hnone env)]
      exact hF.nextInv a (hallocated ▸ ha) hnone
  · rw [Heap.allocated_setSuper, Heap.allocated_setNextInv, hallocated]
    by_cases hai : a = item
    · simp [hai] at hab
    · rw [Forest.parent_detach, update_of_ne hai] at hab
      exact hF.mem hab

/-- **Putting an object into another one.** -/
theorem link (hF : Represents h F) (hitem : item ∈ h.allocated) (hdest : dest ∈ h.allocated)
    (hp : F.parent item = none) (hab : ¬F.Above item dest) :
    Represents (h.link item dest) (F.attach item dest hp hab) := by
  have hne : item ≠ dest := by
    rintro rfl
    exact hab ⟨item, rfl, .refl⟩
  refine ⟨fun a ha ↦ ?_, fun c hc ↦ ?_, fun a ha hnone ↦ ?_, fun {a b} hab' ↦ ?_⟩
  · simp only [Heap.link, Heap.super_setSuper, Heap.super_setContains, Heap.super_setNextInv,
      Forest.parent_attach]
    by_cases hai : a = item
    · rw [hai, update_self, update_self]
    · rw [update_of_ne hai, update_of_ne hai]
      exact hF.super a ha
  · simp only [Heap.link, Heap.nextInv_setSuper, Heap.nextInv_setContains, Heap.nextInv_setNextInv,
      Heap.contains_setSuper, Heap.contains_setContains, Heap.contains_setNextInv,
      Forest.children_attach]
    by_cases hcd : c = dest
    · subst hcd
      rw [update_self, update_self]
      exact (hF.contains c hdest).push (Forest.notMem_children hp c)
    · rw [update_of_ne hcd, update_of_ne hcd]
      exact (hF.contains c hc).update (Forest.notMem_children hp c)
  · rw [Forest.parent_attach] at hnone
    have hai : a ≠ item := by
      rintro rfl
      simp at hnone
    rw [update_of_ne hai] at hnone
    simp only [Heap.link, Heap.nextInv_setSuper, Heap.nextInv_setContains,
      Heap.nextInv_setNextInv, update_of_ne hai]
    exact hF.nextInv a ha hnone
  · rw [Forest.parent_attach] at hab'
    by_cases hai : a = item
    · subst hai
      rw [update_self] at hab'
      exact ⟨hitem, Option.some.inj hab' ▸ hdest⟩
    · rw [update_of_ne hai] at hab'
      exact hF.mem hab'

theorem clear (hF : Represents ((h.setNextInv ob none).setSuper ob none) F)
    (hob : h.contains ob = none) : Represents (h.clear ob) F :=
  hF.congr (by simp) (by simp [hob]) (by simp) rfl

theorem relink (hF : Represents ((h.setNextInv item none).setSuper item none) F)
    (hitem : item ∈ h.allocated) (hdest : dest ∈ h.allocated) (hp : F.parent item = none)
    (hab : ¬F.Above item dest) : Represents (h.link item dest) (F.attach item dest hp hab) :=
  (hF.link hitem hdest hp hab).congr (by simp [Heap.link]) (by simp [Heap.link])
    (by simp [Heap.link]) rfl

theorem reset (hF : Represents h F) (hob : ob ∈ h.allocated) (hp : F.parent ob = none) :
    Represents ((h.setNextInv ob none).setSuper ob none) F := by
  refine hF.congr ?_ (by simp) ?_ rfl
  · simp [← hp, ← hF.super ob hob]
  · simp [← hF.nextInv ob hob hp]

theorem alloc (hF : Represents h F) (hob : ob ∉ h.allocated) {o : Object} (hs : o.super = none)
    (hc : o.contains = none) (hn : o.nextInv = none) : Represents (h.alloc ob o) F := by
  have hobj : ∀ a ∈ h.allocated, (h.alloc ob o).obj a = h.obj a := by
    intro a ha
    refine update_of_ne ?_ o h.obj
    rintro rfl
    exact hob ha
  have hnew : (h.alloc ob o).obj ob = o := update_self ..
  have hnext : ∀ a ∈ h.allocated, (h.alloc ob o).nextInv a = h.nextInv a := fun a ha ↦
    congrArg Object.nextInv (hobj a ha)
  refine ⟨fun a ha ↦ ?_, fun b hb ↦ ?_, fun a ha hnone ↦ ?_, fun hp ↦ ?_⟩
  · rcases mem_cons.1 ha with rfl | ha
    · rw [Heap.super, hnew, hs, hF.parent_eq_none hob]
    · rw [Heap.super, hobj a ha]
      exact hF.super a ha
  · rcases mem_cons.1 hb with rfl | hb
    · rw [Heap.contains, hnew, hc, hF.children_eq_nil hob]
      exact .nil
    · rw [Heap.contains, hobj b hb]
      exact (hF.contains b hb).congr fun a ha ↦ hnext a (hF.mem_of_mem_children ha)
  · rcases mem_cons.1 ha with rfl | ha
    · rw [Heap.nextInv, hnew, hn]
    · rw [hnext a ha]
      exact hF.nextInv a ha hnone
  · exact ⟨mem_cons_of_mem ob (hF.mem hp).1, mem_cons_of_mem ob (hF.mem hp).2⟩

theorem free (hF : Represents h F) (hs : F.parent ob = none) (hc : F.children ob = []) :
    Represents (h.free ob) F := by
  have hmem {a : Obj} (ha : a ∈ (h.free ob).allocated) : a ∈ h.allocated :=
    (mem_filter.1 ha).1
  refine ⟨fun a ha ↦ hF.super a (hmem ha), fun b hb ↦ hF.contains b (hmem hb),
    fun a ha ↦ hF.nextInv a (hmem ha), fun {a b} hp ↦ ?_⟩
  have ha : a ≠ ob := by
    rintro rfl
    rw [hs] at hp
    exact nomatch hp
  have hb : b ≠ ob := by
    rintro rfl
    exact Forest.children_eq_nil.1 hc a hp
  exact ⟨mem_filter.2 ⟨(hF.mem hp).1, by simpa using ha⟩,
    mem_filter.2 ⟨(hF.mem hp).2, by simpa using hb⟩⟩

theorem contained (hF : Represents h F) : Contained h := by
  have hiff : ∀ a, ∀ b ∈ h.allocated, Reaches h.nextInv (h.contains b) a ↔ F.parent a = some b :=
    fun a b hb ↦ by rw [← (hF.contains b hb).mem_iff, F.mem_children]
  refine ⟨fun a ha b hb ↦ ?_, fun b hb ↦ ?_, fun a b hb c hc h₁ h₂ ↦ ?_, fun a ha b hab ↦ ?_,
    fun a ha hcycle ↦ ?_⟩
  · rw [hiff a b hb, hF.super a ha]
  · exact ⟨_, hF.contains b hb, F.nodup_children b, fun a ↦ hF.mem_of_mem_children⟩
  · rw [hiff a b hb] at h₁
    rw [hiff a c hc, h₁] at h₂
    exact Option.some.inj h₂
  · rw [hF.super a ha] at hab
    exact (hF.mem hab).2
  · obtain ⟨l, hl, -, -⟩ := hF.exists_path ha
    exact hl.not_transGen hcycle

end Represents

end Lpmud.Containment
