import Lpmud.Containment.Inventory
import Lpmud.Containment.Machine

/-!
# What every step of the driver keeps

`Inv` is what holds of the driver whenever LPC code can run: the pointers spell out a forest, a
destructed object is nowhere, and all that the driver knows of is allocated. The functions of the
driver are followed one by one; only `link`, `leave` and `finish` touch the three pointers.

`Orderly` is the condition under which `destruct_object` keeps the forest.
-/

namespace Lpmud.Containment

open List Option

/-- Whether a destructor is called in the first `i` programs. -/
def hasDtor (inherit : List Bool) : ℕ → Bool
  | 0 => false
  | i + 1 => inherit.getD i false || hasDtor inherit i

namespace State

/-- Whether `destruct_object` calls a destructor in `ob`. -/
def hasDtors (s : State) (ob : Obj) : Bool :=
  (s.heap.obj ob).created &&
    hasDtor (s.heap.obj ob).prog.inherit (s.heap.obj ob).prog.inherit.length

/-- The object may be cleared: it contains nothing, and it is in no environment. -/
def Vacant (s : State) (ob : Obj) : Prop :=
  s.heap.contains ob = none ∧ s.heap.super ob = none

end State

/-- What is asked for when the driver goes on at a place. -/
def OrderlyAt (s : State) : Frame → Prop
  | .leave ob =>
    (s.heap.obj ob).destructed = true ∨
      if s.hasDtors ob then s.heap.super ob = none else s.heap.contains ob = none
  | .dtors ob i | .dtorReturned ob i =>
    (s.heap.obj ob).destructed = true ∨ hasDtor (s.heap.obj ob).prog.inherit i = true ∨ s.Vacant ob
  | _ => True

/-- **When `destruct_object` and `free` keep the forest.** No object is taken out of its environment
that still has a destructor to be called; an object whose destructors have been called contains
nothing, and has not been moved into another object by them; an object that has no destructors
contains nothing; and a destructed object that is freed contains nothing. -/
def Orderly (s : State) : Event → Prop
  | .free ob => s.heap.contains ob = none
  | .tick => ∀ f ∈ s.stack.head?, OrderlyAt s f
  | _ => True

/-- The invariant. -/
structure Inv (s : State) : Prop where
  forest : ∃ F, Represents s.heap F
  super_eq_none : ∀ a ∈ s.heap.allocated, (s.heap.obj a).destructed = true → s.heap.super a = none
  shadows : ∀ a ∈ s.heap.allocated, ∀ b,
    (s.heap.obj a).shadowing = some b ∨ (s.heap.obj a).shadowed = some b → b ∈ s.heap.allocated
  roots : ∀ a ∈ s.roots, a ∈ s.heap.allocated
  refs : ∀ f ∈ s.stack, ∀ a ∈ f.refs, a ∈ s.heap.allocated
  halted : s.halted = none ∨ s.halted = some .null

namespace Inv

variable {s : State} {ob item dest living other : Obj} {f : Frame} {k : List Frame} {v : Option Ret}

/-! ### The stack -/

theorem init : Inv .init := by
  refine ⟨⟨.empty, ?_⟩, nofun, nofun, nofun, nofun, .inl rfl⟩
  exact ⟨nofun, nofun, nofun, nofun⟩

theorem withStack (h : Inv s) (hk : ∀ f ∈ k, ∀ a ∈ f.refs, a ∈ s.heap.allocated) :
    Inv { s with stack := k } :=
  ⟨h.forest, h.super_eq_none, h.shadows, h.roots, hk, h.halted⟩

theorem push (h : Inv s) (f : Frame) (hf : ∀ a ∈ f.refs, a ∈ s.heap.allocated) : Inv (s.push f) :=
  h.withStack (forall_mem_cons.2 ⟨hf, h.refs⟩)

theorem pop (h : Inv s) (hs : s.stack = f :: k) : Inv { s with stack := k } :=
  h.withStack fun g hg ↦ h.refs g (hs ▸ mem_cons_of_mem f hg)

theorem goOn (h : Inv s) {g : Frame} (hs : s.stack = f :: k)
    (hg : ∀ a ∈ g.refs, a ∈ s.heap.allocated) : Inv { s with stack := g :: k } :=
  (h.pop hs).push g hg

theorem top (h : Inv s) (hs : s.stack = f :: k) : ∀ a ∈ f.refs, a ∈ s.heap.allocated :=
  h.refs f (hs ▸ mem_cons_self)

theorem refs_unwind (h : ∀ f ∈ k, ∀ a ∈ f.refs, a ∈ s.heap.allocated) :
    ∀ f ∈ unwind k, ∀ a ∈ f.refs, a ∈ s.heap.allocated := by
  fun_induction unwind k with
  | case1 ob catches k =>
    have h := forall_mem_cons.1 h
    exact forall_mem_cons.2 ⟨h.1, h.2⟩
  | case2 ob i k =>
    have h := forall_mem_cons.1 h
    exact forall_mem_cons.2 ⟨h.1, h.2⟩
  | case3 f k _ _ ih => exact ih fun g hg ↦ h g (mem_cons_of_mem f hg)
  | case4 => exact nofun

theorem loadReturn (h : Inv s) {v : Option Obj} (hv : ∀ a ∈ v, a ∈ s.heap.allocated) :
    Inv (s.loadReturn v) := by
  rw [State.loadReturn]
  split
  · rename_i k hs
    exact h.goOn hs fun a ha ↦ hv a (by simpa [Frame.refs] using ha)
  · rename_i ob k hs
    refine h.goOn hs fun a ha ↦ ?_
    rcases mem_cons.1 ha with rfl | ha
    · exact h.top hs a mem_cons_self
    · exact hv a (by simpa using ha)
  · exact h

/-! ### Members that are not about containment -/

theorem modify (h : Inv s) (f : Object → Object)
    (hf : ∀ o, (f o).super = o.super ∧ (f o).contains = o.contains ∧ (f o).nextInv = o.nextInv ∧
      (f o).destructed = o.destructed)
    (hshadows : ∀ b, (f (s.heap.obj ob)).shadowing = some b ∨
      (f (s.heap.obj ob)).shadowed = some b → b ∈ s.heap.allocated) :
    Inv (s.modify ob f) := by
  have hsuper : (s.heap.modify ob f).super = s.heap.super :=
    funext fun b ↦ s.heap.member_modify ob b Object.super fun o ↦ (hf o).1
  have hcontains : (s.heap.modify ob f).contains = s.heap.contains :=
    funext fun b ↦ s.heap.member_modify ob b Object.contains fun o ↦ (hf o).2.1
  have hnext : (s.heap.modify ob f).nextInv = s.heap.nextInv :=
    funext fun b ↦ s.heap.member_modify ob b Object.nextInv fun o ↦ (hf o).2.2.1
  have hdestructed : ∀ b, ((s.heap.modify ob f).obj b).destructed = (s.heap.obj b).destructed :=
    fun b ↦ s.heap.member_modify ob b Object.destructed fun o ↦ (hf o).2.2.2
  obtain ⟨F, hF⟩ := h.forest
  refine ⟨⟨F, hF.congr hsuper hcontains hnext rfl⟩, fun a ha hd ↦ ?_, fun a ha b hb ↦ ?_, h.roots,
    h.refs, h.halted⟩
  · change (s.heap.modify ob f).super a = none
    rw [hsuper]
    exact h.super_eq_none a ha (hdestructed a ▸ hd)
  · change ((s.heap.modify ob f).obj a).shadowing = some b ∨
      ((s.heap.modify ob f).obj a).shadowed = some b at hb
    rw [Heap.obj_modify] at hb
    split at hb
    · rename_i hab
      subst hab
      exact hshadows b hb
    · exact h.shadows a ha b hb

theorem setResident (h : Inv s) (hob : ob ∈ s.heap.allocated) (r : Bool) :
    Inv (s.setResident ob r) :=
  h.modify _ (fun _ ↦ ⟨rfl, rfl, rfl, rfl⟩) (h.shadows ob hob)

/-! ### Calls of LPC code -/

theorem deliver (h : Inv s) (hv : ∀ ob, v = some (.object ob) → ob ∈ s.heap.allocated) :
    Inv (s.deliver v) := by
  rw [State.deliver]
  split
  · rename_i k hs
    exact h.withStack (refs_unwind (h.pop hs).refs)
  · rename_i ob k hs
    split
    · exact h.goOn hs fun a ha ↦ h.top hs a ha
    · exact h.pop hs
  · rename_i dest k hs
    split
    · exact h.pop hs
    · exact h.goOn hs fun a ha ↦ h.top hs a ha
  · rename_i ob k hs
    have hob : ob ∈ s.heap.allocated := h.top hs ob mem_cons_self
    dsimp only
    split
    · exact ((h.pop hs).setResident hob false).loadReturn (by rintro a ⟨⟩; exact hob)
    · exact (h.pop hs).loadReturn (by rintro a ⟨⟩; exact hob)
  · rename_i k hs
    have hpop := h.pop hs
    split
    · rename_i ob
      refine ⟨hpop.forest, hpop.super_eq_none, hpop.shadows, fun a ha ↦ ?_, hpop.refs, hpop.halted⟩
      rcases mem_append.1 ha with ha | ha
      · exact h.roots a (mem_append_left _ ha)
      · obtain rfl := mem_singleton.1 ha
        exact hv a rfl
    · exact hpop
  · exact h

theorem applyMaster (h : Inv s) : Inv s.applyMaster := by
  rw [State.applyMaster]
  split
  · exact h.deliver nofun
  · rename_i m hm
    refine h.push _ fun a ha ↦ h.roots a ?_
    obtain rfl : a = m := mem_singleton.1 ha
    simp [State.roots, hm]

theorem error (h : Inv s) (message : String) : Inv (s.error message) := by
  rw [State.error]
  split
  · have hunwind := h.withStack (refs_unwind h.refs)
    exact ⟨hunwind.forest, hunwind.super_eq_none, hunwind.shadows, hunwind.roots, hunwind.refs,
      hunwind.halted⟩
  · exact (h.push .raise fun _ ha ↦ nomatch ha).applyMaster

theorem createObject (h : Inv s) (hob : ob ∈ s.heap.allocated) : Inv (s.createObject ob) := by
  rw [State.createObject]
  split
  · exact h
  · have hcreated := h.modify (fun o ↦ { o with created := true })
      (fun _ ↦ ⟨rfl, rfl, rfl, rfl⟩) (h.shadows ob hob)
    exact hcreated.push (.lpc ob 0) (forall_mem_singleton.2 hob)

theorem meet (h : Inv s) (hliving : living ∈ s.heap.allocated) (hother : other ∈ s.heap.allocated) :
    Inv (s.meet living other) :=
  (h.push (.encounter other) (forall_mem_singleton.2 hother)).push (.lpc living 0)
    (forall_mem_singleton.2 hliving)

/-! ### Moving -/

theorem withHeap (h : Inv s) {h' : Heap} (hF : ∃ F, Represents h' F) (hrest : h'.rest = s.heap.rest)
    (hallocated : h'.allocated = s.heap.allocated)
    (hsuper : ∀ a ∈ s.heap.allocated, (s.heap.obj a).destructed = true → h'.super a = none) :
    Inv { s with heap := h' } := by
  have hmember {β : Type} (g : Object → β) (a : Obj) :
      g (h'.rest a) = g (s.heap.rest a) := by rw [hrest]
  refine ⟨hF, fun a ha hd ↦ ?_, fun a ha b hb ↦ ?_, fun a ha ↦ ?_, fun f hf a ha ↦ ?_, h.halted⟩
  · exact hsuper a (hallocated ▸ ha) (hmember Object.destructed a ▸ hd)
  · refine hallocated.symm ▸ h.shadows a (hallocated ▸ ha) b ?_
    exact hb.imp (hmember Object.shadowing a ▸ ·) (hmember Object.shadowed a ▸ ·)
  · exact hallocated.symm ▸ h.roots a ha
  · exact hallocated.symm ▸ h.refs f hf a ha

/-- The second half of `move_object`, in a heap `h'` in which the object has been taken out of its
environment. -/
theorem moveInto (h : Inv s) {h' : Heap} (hF : ∃ F, Represents (h'.link item dest) F)
    (hrest : h'.rest = s.heap.rest) (hallocated : h'.allocated = s.heap.allocated)
    (hsuper : h'.super = s.heap.super) (hitem : item ∈ s.heap.allocated)
    (hdest : dest ∈ s.heap.allocated) (hlive : (s.heap.obj item).destructed = false) :
    Inv ({ s with heap := h' }.moveInto item dest) := by
  have hlink : Inv { s with heap := h'.link item dest } := by
    refine h.withHeap hF (by simp [Heap.link, hrest]) (by simp [Heap.link, hallocated]) ?_
    intro a ha hd
    have hne : a ≠ item := by
      rintro rfl
      rw [hlive] at hd
      cases hd
    simp [Heap.link, hne, hsuper, h.super_eq_none a ha hd]
  have hitem' : item ∈ (h'.link item dest).allocated := by simpa [Heap.link, hallocated]
  have hdest' : dest ∈ (h'.link item dest).allocated := by simpa [Heap.link, hallocated]
  rw [State.moveInto]
  dsimp only
  split
  · exact (hlink.push (.moveEntered item dest) (by simp [Frame.refs, hitem', hdest'])).meet
      hitem' hdest'
  · refine hlink.push (.moveNext item dest _) ?_
    obtain ⟨F, hF⟩ := hF
    simp only [Frame.refs, forall_mem_cons]
    exact ⟨hitem', hdest', fun a ha ↦ hF.contains_mem hdest' (mem_toList.1 ha)⟩

theorem moveObject (h : Inv s) (hitem : item ∈ s.heap.allocated) (hdest : dest ∈ s.heap.allocated) :
    Inv (s.moveObject item dest) := by
  obtain ⟨F, hF⟩ := h.forest
  obtain ⟨b, hb, habove⟩ := hF.isInside item hdest
  rw [State.moveObject]
  cases hlive : (s.heap.obj item).destructed with
  | true => exact h
  | false =>
    rw [if_neg (by rintro ⟨⟩), hb]
    cases b with
    | true => exact h.error _
    | false =>
      have hab : ¬F.Above item dest := fun h ↦ by cases habove.2 h
      dsimp only
      split
      · exact h.error _
      · have hsuper := hF.super item hitem
        cases hp : F.parent item with
        | none =>
          rw [hsuper, hp]
          exact h.moveInto ⟨_, hF.link hitem hdest hp hab⟩ rfl rfl rfl hitem hdest hlive
        | some env =>
          obtain ⟨h', hremove, hrest, hsame, hallocated, hF'⟩ := hF.unlink hp
          rw [hsuper, hp]
          dsimp only
          rw [hremove]
          have hp' : (F.detach item).parent item = none := by simp
          exact h.moveInto ⟨_, hF'.relink (hallocated ▸ hitem) (hallocated ▸ hdest) hp'
            fun h ↦ hab h.of_detach⟩ hrest hallocated hsame hitem hdest hlive

theorem moveMeet (h : Inv s) (hitem : item ∈ s.heap.allocated) (hdest : dest ∈ s.heap.allocated)
    (hob : ob ∈ s.heap.allocated) {nextOb : Option Obj}
    (hnext : ∀ a ∈ nextOb, a ∈ s.heap.allocated) : Inv (s.moveMeet item dest ob nextOb) := by
  have hrefs : ∀ a ∈ item :: dest :: nextOb.toList, a ∈ s.heap.allocated := by
    simpa [hitem, hdest] using hnext
  rw [State.moveMeet]
  split
  · exact h.error _
  · split
    · exact (h.push (.moveMet item dest nextOb) hrefs).meet hitem hob
    · exact h.push (.moveNext item dest nextOb) hrefs

theorem moveRound (h : Inv s) (hitem : item ∈ s.heap.allocated) (hdest : dest ∈ s.heap.allocated)
    {ob : Option Obj} (hob : ∀ a ∈ ob, a ∈ s.heap.allocated) : Inv (s.moveRound item dest ob) := by
  cases ob with
  | none =>
    rw [State.moveRound]
    split
    · exact h.error _
    · split
      · exact h.meet hdest hitem
      · exact h
  | some ob =>
    have hob : ob ∈ s.heap.allocated := hob ob rfl
    obtain ⟨F, hF⟩ := h.forest
    have hnext : ∀ a ∈ s.heap.nextInv ob, a ∈ s.heap.allocated := fun a ha ↦ hF.nextInv_mem hob ha
    rw [State.moveRound]
    split
    · exact h.push (.moveNext item dest _) (by simpa [Frame.refs, hitem, hdest] using hnext)
    · split
      · exact h.error _
      · split
        · exact (h.push (.moveSeen item dest ob _)
            (by simpa [Frame.refs, hitem, hdest, hob] using hnext)).meet hob hitem
        · exact h.moveMeet hitem hdest hob hnext

/-! ### Loading -/

theorem finishLoad (h : Inv s) (hob : ob ∈ s.heap.allocated) (dontReset saveResident : Bool) :
    Inv (s.finishLoad ob dontReset saveResident) := by
  have hcreate {t : State} (ht : Inv t) (hob : ob ∈ t.heap.allocated) (b : Bool) :
      Inv (if b then (t.push (.loadCreated ob)).createObject ob else t.push (.loadCreated ob)) := by
    have hpush := ht.push (.loadCreated ob) (forall_mem_singleton.2 hob)
    split
    · exact hpush.createObject hob
    · exact hpush
  rw [State.finishLoad]
  cases (s.heap.obj ob).destructed with
  | true => exact hcreate h hob _
  | false => exact hcreate (h.setResident hob _) hob _

theorem returnLoaded (h : Inv s) (hob : ob ∈ s.heap.allocated) : Inv (s.returnLoaded ob) := by
  rw [State.returnLoaded]
  split
  · exact h.loadReturn nofun
  · split
    · exact (h.push (.validResident ob) (forall_mem_singleton.2 hob)).applyMaster
    · exact h.loadReturn (by rintro a ⟨⟩; exact hob)

theorem alloc (h : Inv s) (hob : ob ∉ s.heap.allocated) {o : Object} (hs : o.super = none)
    (hc : o.contains = none) (hn : o.nextInv = none) (h₁ : o.shadowing = none)
    (h₂ : o.shadowed = none) (hk : ∀ f ∈ k, ∀ a ∈ f.refs, a = ob ∨ a ∈ s.heap.allocated) :
    Inv { s with heap := s.heap.alloc ob o, stack := k } := by
  have hnew : (s.heap.alloc ob o).obj ob = o := Function.update_self ..
  have hobj : ∀ a ∈ s.heap.allocated, (s.heap.alloc ob o).obj a = s.heap.obj a := by
    intro a ha
    refine Function.update_of_ne ?_ o s.heap.obj
    rintro rfl
    exact hob ha
  obtain ⟨F, hF⟩ := h.forest
  refine ⟨⟨F, hF.alloc hob hs hc hn⟩, fun a ha hd ↦ ?_, fun a ha b hb ↦ ?_,
    fun a ha ↦ mem_cons_of_mem ob (h.roots a ha),
    fun f hf a ha ↦ mem_cons.2 (hk f hf a ha), h.halted⟩
  · change ((s.heap.alloc ob o).obj a).super = none
    rcases mem_cons.1 ha with rfl | ha
    · rw [hnew, hs]
    · rw [hobj a ha]
      exact h.super_eq_none a ha (hobj a ha ▸ hd)
  · change ((s.heap.alloc ob o).obj a).shadowing = some b ∨
      ((s.heap.alloc ob o).obj a).shadowed = some b at hb
    rcases mem_cons.1 ha with rfl | ha
    · rw [hnew, h₁, h₂] at hb
      exact hb.elim nofun nofun
    · rw [hobj a ha] at hb
      exact mem_cons_of_mem ob (h.shadows a ha b hb)

theorem allocate (h : Inv s) {prog : Program} {s' : State}
    (hs' : s.allocate ob prog = some s') : Inv s' := by
  rw [State.allocate] at hs'
  split at hs'
  · exact nomatch hs'
  · rename_i hob
    have hrest {k : List Frame} {f : Frame} (hs : s.stack = f :: k) :
        ∀ g ∈ k, ∀ a ∈ g.refs, a = ob ∨ a ∈ s.heap.allocated :=
      fun g hg a ha ↦ .inr ((h.pop hs).refs g hg a ha)
    split at hs'
    · rename_i oldOb dontReset k hs
      have hk : ∀ g ∈ Frame.loaded ob dontReset prog.resident :: k, ∀ a ∈ g.refs,
          a = ob ∨ a ∈ s.heap.allocated :=
        forall_mem_cons.2 ⟨fun a ha ↦ .inl (mem_singleton.1 ha), hrest hs⟩
      dsimp only at hs'
      split at hs'
      all_goals obtain rfl := some.inj hs'
      · exact (h.alloc hob rfl rfl rfl rfl rfl hk).applyMaster
      · exact h.alloc hob rfl rfl rfl rfl rfl hk
    · rename_i old k hs
      split at hs'
      · exact nomatch hs'
      · obtain rfl := some.inj hs'
        have hold : old ∈ s.heap.allocated := h.top hs old mem_cons_self
        refine (h.alloc hob rfl rfl rfl rfl rfl (forall_mem_cons.2 ⟨?_, hrest hs⟩)).applyMaster
        simp [Frame.refs, hold]
    · exact nomatch hs'

/-! ### Destructing -/

theorem announce (h : Inv s) (hob : ob ∈ s.heap.allocated) : Inv (s.announce ob) :=
  (h.push (.destructed ob) (forall_mem_singleton.2 hob)).applyMaster

theorem destructObject (h : Inv s) {ob : Option Obj} (hob : ∀ a ∈ ob, a ∈ s.heap.allocated) :
    Inv (s.destructObject ob) := by
  cases ob with
  | none => exact h
  | some ob =>
    have hob : ∀ a ∈ [ob], a ∈ s.heap.allocated := forall_mem_singleton.2 (hob ob rfl)
    rw [State.destructObject]
    split
    · exact h
    · split
      · exact (h.push (.reload ob) hob).push (.load (some ob) true) hob
      · exact h.announce (hob ob mem_cons_self)

theorem swapObjects (h : Inv s) {newOb : Obj} (hob : ob ∈ s.heap.allocated)
    (hnew : newOb ∈ s.heap.allocated) : Inv (s.swapObjects ob newOb) := by
  set o₁ := s.heap.obj ob
  set o₂ := s.heap.obj newOb
  have h₁ := h.modify (fun o ↦ { o with prog := o₂.prog, created := o₂.created })
    (fun _ ↦ ⟨rfl, rfl, rfl, rfl⟩) (h.shadows ob hob)
  have h₂ := h₁.modify (fun o ↦ { o with prog := o₁.prog, created := o₁.created })
    (fun _ ↦ ⟨rfl, rfl, rfl, rfl⟩) (h₁.shadows newOb hnew)
  refine h₂.withStack fun f hf a ha ↦ ?_
  obtain ⟨g, hg, rfl⟩ := mem_map.1 hf
  have hrefs := h.refs g hg
  cases g with
  | lpc ob' catches =>
    obtain rfl := mem_singleton.1 ha
    split
    · exact hnew
    · split
      · exact hob
      · exact hrefs ob' mem_cons_self
  | _ => exact hrefs a ha

theorem replaceObject (h : Inv s) (hob : ob ∈ s.heap.allocated) {newOb : Option Obj}
    (hnew : ∀ a ∈ newOb, a ∈ s.heap.allocated) : Inv (s.replaceObject ob newOb) := by
  cases newOb with
  | none => exact h.error _
  | some newOb =>
    have hnew := hnew newOb rfl
    have hswap {t : State} (ht : Inv t) (hob : ob ∈ t.heap.allocated)
        (hnew : newOb ∈ t.heap.allocated) :
        Inv (if some ob = s.masterOb then
          ((t.swapObjects ob newOb).push (.recreate ob newOb)).applyMaster
          else (t.swapObjects ob newOb).push (.recreate ob newOb)) := by
      have hpush := (ht.swapObjects hob hnew).push (.recreate ob newOb)
        (by simpa [Frame.refs] using ⟨hob, hnew⟩)
      split
      · exact hpush.applyMaster
      · exact hpush
    rw [State.replaceObject]
    split
    · exact hswap (h.setResident hob true) hob hnew
    · exact hswap h hob hnew

theorem recreateObject (h : Inv s) {newOb : Obj} (hob : ob ∈ s.heap.allocated)
    (hnew : newOb ∈ s.heap.allocated) : Inv (s.recreateObject ob newOb) := by
  rw [State.recreateObject]
  split
  · have hcreated := h.modify (fun o ↦ { o with created := true })
      (fun _ ↦ ⟨rfl, rfl, rfl, rfl⟩) (h.shadows ob hob)
    exact (hcreated.push (.retire newOb) (forall_mem_singleton.2 hnew)).push (.lpc ob 0)
      (forall_mem_singleton.2 hob)
  · exact h.push (.retire newOb) (forall_mem_singleton.2 hnew)

theorem setShadowing (h : Inv s) (hob : ob ∈ s.heap.allocated) {p : Option Obj}
    (hp : ∀ a ∈ p, a ∈ s.heap.allocated) :
    Inv (s.modify ob fun o ↦ { o with shadowing := p }) :=
  h.modify _ (fun _ ↦ ⟨rfl, rfl, rfl, rfl⟩) fun b hb ↦
    hb.elim (hp b) fun hb ↦ h.shadows ob hob b (.inr hb)

theorem setShadowed (h : Inv s) (hob : ob ∈ s.heap.allocated) {p : Option Obj}
    (hp : ∀ a ∈ p, a ∈ s.heap.allocated) :
    Inv (s.modify ob fun o ↦ { o with shadowed := p }) :=
  h.modify _ (fun _ ↦ ⟨rfl, rfl, rfl, rfl⟩) fun b hb ↦
    hb.elim (fun hb ↦ h.shadows ob hob b (.inl hb)) (hp b)

theorem resetShadow (h : Inv s) :
    Inv (s.modify ob fun o ↦ { o with shadowing := none, shadowed := none }) :=
  h.modify _ (fun _ ↦ ⟨rfl, rfl, rfl, rfl⟩) fun _ hb ↦ hb.elim nofun nofun

theorem unshadow (h : Inv s) (hob : ob ∈ s.heap.allocated) : Inv (s.unshadow ob) := by
  have hvictim : ∀ a ∈ (s.heap.obj ob).shadowing, a ∈ s.heap.allocated :=
    fun a ha ↦ h.shadows ob hob a (.inl ha)
  have hshadow : ∀ a ∈ (s.heap.obj ob).shadowed, a ∈ s.heap.allocated :=
    fun a ha ↦ h.shadows ob hob a (.inr ha)
  have hreset {t : State} (ht : Inv t) (hob : ob ∈ t.heap.allocated) :
      Inv ((t.modify ob fun o ↦ { o with shadowing := none, shadowed := none }).push (.empty ob)) :=
    ht.resetShadow.push (.empty ob) (forall_mem_singleton.2 hob)
  simp only [State.unshadow]
  split
  next hs =>
    split
    · exact hreset h hob
    next victim hv => exact hreset (h.setShadowed (hvictim victim hv) hshadow) hob
  next shadow hs =>
    split
    · exact hreset (h.setShadowing (hshadow shadow hs) hvictim) hob
    next victim hv =>
      exact hreset ((h.setShadowed (hvictim victim hv) hshadow).setShadowing (hshadow shadow hs)
        hvictim) hob

theorem shadowRound (h : Inv s) (hob : ob ∈ s.heap.allocated) {sob : Option Obj}
    (hsob : ∀ a ∈ sob, a ∈ s.heap.allocated) : Inv (s.shadowRound ob sob) := by
  cases sob with
  | none => exact h.unshadow hob
  | some sob =>
    have hnext : ∀ a ∈ (s.heap.obj sob).shadowed, a ∈ s.heap.allocated := fun a ha ↦
      h.shadows sob (hsob sob rfl) a (.inr ha)
    exact (h.resetShadow.push (.shadowGone ob _) (by simpa [Frame.refs, hob] using hnext)).push
      (.destruct _) (by simpa [Frame.refs] using hnext)

/-- The last part of `destruct_object`, in a heap `h'` in which the object has been taken out of its
environment. -/
theorem finish (h : Inv s) {h' : Heap}
    (hF : ∃ F, Represents ((h'.setNextInv ob none).setSuper ob none) F)
    (hcontains : h'.contains ob = none) (hrest : h'.rest = s.heap.rest)
    (hallocated : h'.allocated = s.heap.allocated) (hsuper : h'.super = s.heap.super)
    (hlive : (s.heap.obj ob).destructed = false) : Inv ({ s with heap := h' }.finish ob) := by
  have hmember {β : Type} (g : Object → β) (a : Obj) : g (h'.rest a) = g (s.heap.rest a) := by
    rw [hrest]
  have hobj {a : Obj} (ha : a ≠ ob) : (h'.clear ob).obj a = h'.obj a := by
    rw [Heap.clear, Heap.obj_modify, if_neg ha]
  have hclear : Inv { s with heap := h'.clear ob } := by
    obtain ⟨F, hF⟩ := hF
    refine ⟨⟨F, hF.clear hcontains⟩, fun a ha hd ↦ ?_, fun a ha b hb ↦ ?_, fun a ha ↦ ?_,
      fun f hf a ha ↦ ?_, h.halted⟩
    · change (h'.clear ob).super a = none
      rw [Heap.super_clear]
      by_cases hab : a = ob
      · rw [hab, Function.update_self]
      · rw [Function.update_of_ne hab, hsuper]
        have hd : ((h'.clear ob).obj a).destructed = true := hd
        rw [hobj hab] at hd
        exact h.super_eq_none a (hallocated ▸ ha) (hmember Object.destructed a ▸ hd)
    · have hshadowing : ((h'.clear ob).obj a).shadowing = (h'.obj a).shadowing :=
        h'.member_modify ob a Object.shadowing fun _ ↦ rfl
      have hshadowed : ((h'.clear ob).obj a).shadowed = (h'.obj a).shadowed :=
        h'.member_modify ob a Object.shadowed fun _ ↦ rfl
      refine hallocated.symm ▸ h.shadows a (hallocated ▸ ha) b ?_
      exact hb.imp (fun hb ↦ hmember Object.shadowing a ▸ hshadowing ▸ hb)
        fun hb ↦ hmember Object.shadowed a ▸ hshadowed ▸ hb
    · exact hallocated.symm ▸ h.roots a ha
    · exact hallocated.symm ▸ h.refs f hf a ha
  have hlive' : (h'.obj ob).destructed = false := (hmember Object.destructed ob).trans hlive
  rw [State.finish, if_neg (by simp [hlive'])]
  dsimp only
  split
  · rename_i hvbfc
    have hroots : ∀ a ∈ ({ s with heap := h'.clear ob, vbfcObject := none } : State).roots,
        a ∈ (h'.clear ob).allocated := fun a ha ↦ by
      refine hclear.roots a ?_
      simp only [State.roots, toList_none, append_nil] at ha
      exact mem_append_left _ ha
    have hnone : Inv { s with heap := h'.clear ob, vbfcObject := none } :=
      ⟨hclear.forest, hclear.super_eq_none, hclear.shadows, hroots, hclear.refs, hclear.halted⟩
    exact (hnone.push .getVbfcObject fun _ ha ↦ nomatch ha).applyMaster
  · exact hclear

theorem finish_vacant (h : Inv s) (hob : ob ∈ s.heap.allocated)
    (hvacant : (s.heap.obj ob).destructed = true ∨ s.Vacant ob) : Inv (s.finish ob) := by
  cases hlive : (s.heap.obj ob).destructed with
  | true =>
    rw [State.finish, if_pos hlive]
    exact ⟨h.forest, h.super_eq_none, h.shadows, h.roots, h.refs, .inr rfl⟩
  | false =>
    obtain ⟨hcontains, hsuper⟩ : s.Vacant ob :=
      hvacant.resolve_left fun hd ↦ by cases hlive.symm.trans hd
    obtain ⟨F, hF⟩ := h.forest
    have hp : F.parent ob = none := (hF.super ob hob).symm.trans hsuper
    exact h.finish ⟨F, hF.reset hob hp⟩ hcontains rfl rfl rfl hlive

end Inv

theorem callDtors_cases (s : State) (ob : Obj) (i : ℕ) :
    (hasDtor (s.heap.obj ob).prog.inherit i = true ∧
      ∃ j, s.callDtors ob i = (s.push (.dtorReturned ob j)).push (.lpc ob 0)) ∨
    (hasDtor (s.heap.obj ob).prog.inherit i = false ∧ s.callDtors ob i = s.finish ob) := by
  induction i with
  | zero => exact .inr ⟨rfl, rfl⟩
  | succ i ih =>
    rw [hasDtor, State.callDtors]
    cases (s.heap.obj ob).prog.inherit.getD i false with
    | true => exact .inl ⟨rfl, i, rfl⟩
    | false => exact ih

theorem callAllDtors_cases (s : State) (ob : Obj) :
    (s.hasDtors ob = true ∧
      ∃ j, s.callAllDtors ob = (s.push (.dtorReturned ob j)).push (.lpc ob 0)) ∨
    (s.hasDtors ob = false ∧ s.callAllDtors ob = s.finish ob) := by
  rw [State.hasDtors, State.callAllDtors]
  cases (s.heap.obj ob).created with
  | true => exact callDtors_cases s ob _
  | false => exact .inr ⟨rfl, rfl⟩

namespace Inv

variable {s : State} {ob : Obj}

theorem callDtor (h : Inv s) (hob : ob ∈ s.heap.allocated) (j : ℕ) :
    Inv ((s.push (.dtorReturned ob j)).push (.lpc ob 0)) :=
  (h.push (.dtorReturned ob j) (forall_mem_singleton.2 hob)).push (.lpc ob 0)
    (forall_mem_singleton.2 hob)

theorem callDtors (h : Inv s) (hob : ob ∈ s.heap.allocated) {i : ℕ}
    (ho : (s.heap.obj ob).destructed = true ∨ hasDtor (s.heap.obj ob).prog.inherit i = true ∨
      s.Vacant ob) : Inv (s.callDtors ob i) := by
  rcases callDtors_cases s ob i with ⟨-, j, hj⟩ | ⟨hno, heq⟩
  · rw [hj]
    exact h.callDtor hob j
  · rw [heq]
    rw [hno] at ho
    exact h.finish_vacant hob (ho.imp_right fun ho ↦ ho.resolve_left (by rintro ⟨⟩))

theorem live_of_super (h : Inv s) (hob : ob ∈ s.heap.allocated) {env : Obj}
    (henv : s.heap.super ob = some env) : (s.heap.obj ob).destructed = false := by
  cases hd : (s.heap.obj ob).destructed with
  | true =>
    rw [h.super_eq_none ob hob hd] at henv
    exact nomatch henv
  | false => rfl

/-- **`destruct_object` takes the object out of its environment**, and clears it, unless it is in no
environment and has a destructor to be called. -/
theorem leave (h : Inv s) (hob : ob ∈ s.heap.allocated) (ho : OrderlyAt s (.leave ob)) :
    Inv (s.leave ob) := by
  obtain ⟨F, hF⟩ := h.forest
  have hsuper := hF.super ob hob
  rw [State.leave]
  cases hp : F.parent ob with
  | none =>
    have hnone : s.heap.super ob = none := hsuper.trans hp
    rw [hnone]
    dsimp only
    rcases callAllDtors_cases s ob with ⟨-, j, hj⟩ | ⟨hno, heq⟩
    · rw [hj]
      exact h.callDtor hob j
    · rw [heq]
      rw [OrderlyAt, hno] at ho
      exact h.finish_vacant hob (ho.imp_right fun hc ↦ ⟨hc, hnone⟩)
  | some env =>
    have hsome : s.heap.super ob = some env := hsuper.trans hp
    have hlive := h.live_of_super hob hsome
    rw [OrderlyAt, hlive, hsome] at ho
    obtain ⟨hno, hcontains⟩ : s.hasDtors ob = false ∧ s.heap.contains ob = none := by
      cases hd : s.hasDtors ob with
      | true =>
        rw [hd] at ho
        exact absurd ho (by simp)
      | false =>
        rw [hd] at ho
        exact ⟨rfl, ho.resolve_left (by rintro ⟨⟩)⟩
    obtain ⟨h', hremove, hrest, hsame, hallocated, hF'⟩ := hF.unlink hp
    rw [hsome]
    dsimp only
    rw [hremove]
    dsimp only
    have hrest' {β : Type} (g : Object → β) : g (h'.rest ob) = g (s.heap.rest ob) := by rw [hrest]
    have hno' : ({ s with heap := h' } : State).hasDtors ob = false := by
      have hcreated : (h'.obj ob).created = (s.heap.obj ob).created := hrest' Object.created
      have hprog : (h'.obj ob).prog = (s.heap.obj ob).prog := hrest' Object.prog
      rw [← hno, State.hasDtors, State.hasDtors]
      simp only [hcreated, hprog]
    have hcontains' : h'.contains ob = none := by
      have hchildren : F.children ob = [] := by
        have hl := hF.contains ob hob
        rw [hcontains] at hl
        generalize F.children ob = l at hl
        cases hl
        rfl
      have hl := hF'.contains ob (by simpa [hallocated] using hob)
      simp only [Forest.children_detach, hchildren, erase_nil, Heap.contains_setSuper,
        Heap.contains_setNextInv] at hl
      generalize h'.contains ob = p at hl ⊢
      cases hl
      rfl
    rcases callAllDtors_cases { s with heap := h' } ob with ⟨hyes, -⟩ | ⟨-, heq⟩
    · cases hno'.symm.trans hyes
    · rw [heq]
      exact h.finish ⟨_, hF'⟩ hcontains' hrest hallocated hsame hlive

end Inv

end Lpmud.Containment
