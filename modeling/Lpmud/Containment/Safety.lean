import Lpmud.Containment.Invariant

/-!
# The containment forest

**As long as every step is orderly, the containment of objects is a forest whenever LPC code can
run** (`containment`), and `move_object` finds every object in the inventory of its environment.

`not_containment` is such a run: `destruct_object` takes an object out of its environment before it
calls its destructors, but leaves `super` as it is; so a destructor that moves its object ends in
the fatal error of `move_object`.
-/

namespace Lpmud.Containment

open List
open Option (ite_none_right_eq_some mem_toList some.inj)

variable {s s' : State} {e : Event}

namespace Inv

theorem currentObject_mem {k : List Frame} {item : Obj} (hk : ∀ f ∈ k, ∀ a ∈ f.refs,
    a ∈ s.heap.allocated) (hitem : State.currentObject k = some item) :
    item ∈ s.heap.allocated := by
  fun_induction State.currentObject k with
  | case1 ob catches k =>
    obtain rfl := some.inj hitem
    exact hk _ mem_cons_self ob mem_cons_self
  | case2 f k _ ih => exact ih (fun g hg ↦ hk g (mem_cons_of_mem f hg)) hitem
  | case3 => exact nomatch hitem

/-- **The driver goes on** at the place `f`. -/
theorem resume (h : Inv s) {f : Frame} (hf : ∀ a ∈ f.refs, a ∈ s.heap.allocated)
    (ho : OrderlyAt s f) (hs' : s.resume f = some s') : Inv s' := by
  obtain ⟨F, hF⟩ := h.forest
  cases f with
  | move dest =>
    rw [State.resume] at hs'
    split at hs'
    · cases hs'
    · rename_i item hitem
      obtain rfl := some.inj hs'
      exact h.moveObject (currentObject_mem h.refs hitem) (hf dest mem_cons_self)
  | moveEntered item dest =>
    obtain rfl := some.inj hs'
    simp only [Frame.refs, forall_mem_cons] at hf
    split
    · exact h
    · refine h.push (.moveNext item dest _) ?_
      simp only [Frame.refs, forall_mem_cons]
      exact ⟨hf.1, hf.2.1, fun a ha ↦ hF.contains_mem hf.2.1 (mem_toList.1 ha)⟩
  | moveNext item dest ob =>
    obtain rfl := some.inj hs'
    simp only [Frame.refs, forall_mem_cons, mem_toList] at hf
    exact h.moveRound hf.1 hf.2.1 hf.2.2
  | moveSeen item dest ob nextOb =>
    obtain rfl := some.inj hs'
    simp only [Frame.refs, forall_mem_cons, mem_toList] at hf
    split
    · exact h
    · exact h.moveMeet hf.1 hf.2.1 hf.2.2.1 hf.2.2.2
  | moveMet item dest nextOb =>
    obtain rfl := some.inj hs'
    split
    · exact h
    · exact h.push (.moveNext item dest nextOb) hf
  | loaded ob dontReset saveResident =>
    obtain rfl := some.inj hs'
    exact h.finishLoad (hf ob mem_cons_self) dontReset saveResident
  | loadCreated ob =>
    obtain rfl := some.inj hs'
    exact h.returnLoaded (hf ob mem_cons_self)
  | cloning ob =>
    rw [State.resume] at hs'
    split at hs'
    · obtain rfl := some.inj hs'
      exact h.error _
    · cases hs'
  | cloned ob newOb =>
    obtain rfl := some.inj hs'
    split
    · exact h
    · exact h.createObject (hf newOb (mem_cons_of_mem ob mem_cons_self))
  | destruct ob =>
    obtain rfl := some.inj hs'
    exact h.destructObject fun a ha ↦ hf a (mem_toList.2 ha)
  | reloaded ob newOb =>
    obtain rfl := some.inj hs'
    simp only [Frame.refs, forall_mem_cons, mem_toList] at hf
    exact h.replaceObject hf.1 hf.2
  | recreate ob newOb =>
    obtain rfl := some.inj hs'
    exact h.recreateObject (hf ob mem_cons_self)
      (hf newOb (mem_cons_of_mem ob mem_cons_self))
  | retire newOb =>
    obtain rfl := some.inj hs'
    have hob := hf newOb mem_cons_self
    exact (h.setResident hob false).announce hob
  | destructed ob =>
    obtain rfl := some.inj hs'
    have hob := hf ob mem_cons_self
    split
    · exact h
    · split
      · refine h.push (.shadows ob _) ?_
        simp only [Frame.refs, forall_mem_cons]
        exact ⟨hob, fun a ha ↦ h.shadows ob hob a (.inr (mem_toList.1 ha))⟩
      · exact h.unshadow hob
  | shadows ob ob2 =>
    obtain rfl := some.inj hs'
    simp only [Frame.refs, forall_mem_cons, mem_toList] at hf
    exact h.shadowRound hf.1 hf.2
  | shadowGone ob ob2 =>
    obtain rfl := some.inj hs'
    split
    · exact h
    · exact h.push (.shadows ob ob2) hf
  | empty ob =>
    obtain rfl := some.inj hs'
    have hob := hf ob mem_cons_self
    split
    · exact h.push (.disconnect ob) hf
    · rename_i sob hsob
      refine (h.push (.destructEnvironmentOf ob sob) ?_).applyMaster
      simpa [Frame.refs] using ⟨hob, hF.contains_mem hob hsob⟩
  | destructEnvironmentOf ob sob =>
    obtain rfl := some.inj hs'
    simp only [Frame.refs, forall_mem_cons] at hf
    have hemptied := h.push (.emptied ob) (forall_mem_singleton.2 hf.1)
    split
    · exact hemptied.push (.destruct (some sob)) (forall_mem_singleton.2 hf.2.1)
    · exact hemptied
  | emptied ob =>
    obtain rfl := some.inj hs'
    split
    · exact h
    · exact h.push (.empty ob) hf
  | disconnect ob =>
    obtain rfl := some.inj hs'
    split
    · exact (h.push (.removeInteractive ob) hf).applyMaster
    · exact h.push (.leave ob) hf
  | removeInteractive ob =>
    obtain rfl := some.inj hs'
    split
    · have hremoved := h.modify (fun o ↦ { o with interactive := false })
        (fun _ ↦ ⟨rfl, rfl, rfl, rfl⟩) (h.shadows ob (hf ob mem_cons_self))
      exact (hremoved.push (.disconnected ob) hf).applyMaster
    · exact h.push (.disconnected ob) hf
  | disconnected ob =>
    obtain rfl := some.inj hs'
    split
    · exact h
    · exact h.push (.leave ob) hf
  | leave ob =>
    obtain rfl := some.inj hs'
    exact h.leave (hf ob mem_cons_self) ho
  | dtors ob i =>
    obtain rfl := some.inj hs'
    exact h.callDtors (hf ob mem_cons_self) ho
  | dtorReturned ob i =>
    obtain rfl := some.inj hs'
    split
    · exact h
    · exact h.callDtors (hf ob mem_cons_self) ho
  | _ => cases hs'

theorem of_isLive {ob : Obj} (hob : s.isLive ob = true) : ob ∈ s.heap.allocated := by
  rw [State.isLive, Bool.and_eq_true, decide_eq_true_iff] at hob
  exact hob.1

theorem of_isObject {p : Option Obj} (hp : s.isObject p = true) :
    ∀ a ∈ p, a ∈ s.heap.allocated := by
  rintro a rfl
  simpa [State.isObject] using hp

theorem assign (h : Inv s) {ob : Obj} {o : Object} (h₁ : s.isObject o.shadowing = true)
    (h₂ : s.isObject o.shadowed = true) : Inv (s.assign ob o) :=
  h.modify _ (fun _ ↦ ⟨rfl, rfl, rfl, rfl⟩) fun b hb ↦ hb.elim (of_isObject h₁ b) (of_isObject h₂ b)

theorem install (h : Inv s) {ob : Obj} (hob : ob ∈ s.heap.allocated) (role : Role) :
    Inv (s.install ob role) := by
  have hroots {t : State} (ht : Inv t) (u : State) (hheap : u.heap = t.heap)
      (hstack : u.stack = t.stack) (hhalted : u.halted = t.halted)
      (hsub : ∀ a ∈ u.roots, a ∈ t.heap.allocated) : Inv u := by
    refine ⟨?_, ?_, ?_, ?_, ?_, ?_⟩
    all_goals simp only [hheap, hstack, hhalted]
    exacts [ht.forest, ht.super_eq_none, ht.shadows, hsub, ht.refs, ht.halted]
  have hold : ∀ a ∈ s.roots, a ∈ s.heap.allocated := h.roots
  simp only [State.roots, mem_append, mem_toList, or_imp, forall_and] at hold
  cases role with
  | auto =>
    refine setResident (hroots h { s with autoOb := some ob } rfl rfl rfl ?_) hob true
    simp only [State.roots, mem_append, mem_toList, or_imp, forall_and]
    exact ⟨⟨⟨by rintro a ⟨⟩; exact hob, hold.1.1.2⟩, hold.1.2⟩, hold.2⟩
  | simulEfun =>
    refine hroots h _ rfl rfl rfl ?_
    simp only [State.roots, mem_append, mem_toList, or_imp, forall_and]
    exact ⟨⟨⟨hold.1.1.1, by rintro a ⟨⟩; exact hob⟩, hold.1.2⟩, hold.2⟩
  | master =>
    refine setResident (hroots h { s with masterOb := some ob } rfl rfl rfl ?_) hob true
    simp only [State.roots, mem_append, mem_toList, or_imp, forall_and]
    exact ⟨⟨hold.1.1, by rintro a ⟨⟩; exact hob⟩, hold.2⟩
  | vbfc =>
    refine hroots h _ rfl rfl rfl ?_
    simp only [State.roots, mem_append, mem_toList, or_imp, forall_and]
    exact ⟨hold.1, by rintro a ⟨⟩; exact hob⟩

theorem free (h : Inv s) {ob : Obj} (hob : ob ∈ s.heap.allocated)
    (hd : (s.heap.obj ob).destructed = true) (href : s.isReferred ob = false)
    (hempty : s.heap.contains ob = none) : Inv { s with heap := s.heap.free ob } := by
  have hmem {a : Obj} (ha : a ∈ s.heap.allocated) (hne : a ≠ ob) :
      a ∈ (s.heap.free ob).allocated := mem_filter.2 ⟨ha, by simpa using hne⟩
  have hold {a : Obj} (ha : a ∈ (s.heap.free ob).allocated) : a ∈ s.heap.allocated :=
    (mem_filter.1 ha).1
  simp only [State.isReferred, Bool.or_eq_false_iff, decide_eq_false_iff_not, any_eq_false,
    decide_eq_true_eq, beq_iff_eq, Bool.or_eq_true, not_or] at href
  obtain ⟨⟨hroot, hframe⟩, hshadow⟩ := href
  obtain ⟨F, hF⟩ := h.forest
  have hp : F.parent ob = none := (hF.super ob hob).symm.trans (h.super_eq_none ob hob hd)
  have hchildren : F.children ob = [] := by
    have hl := hF.contains ob hob
    rw [hempty] at hl
    generalize F.children ob = l at hl
    cases hl
    rfl
  refine ⟨⟨F, hF.free hp hchildren⟩, fun a ha ↦ h.super_eq_none a (hold ha), fun a ha b hb ↦ ?_,
    fun a ha ↦ hmem (h.roots a ha) ?_, fun f hf a ha ↦ hmem (h.refs f hf a ha) ?_, h.halted⟩
  · refine hmem (h.shadows a (hold ha) b hb) ?_
    rintro rfl
    exact hb.elim (fun hb ↦ (hshadow a (hold ha)).1 hb.symm)
      fun hb ↦ (hshadow a (hold ha)).2 hb.symm
  · rintro rfl
    exact hroot ha
  · rintro rfl
    exact hframe f hf ha

theorem act (h : Inv s) (ho : Orderly s e) (hs' : s.act e = some s') : Inv s' := by
  cases e with
  | tick =>
    rw [State.act] at hs'
    split at hs'
    · rename_i f k hs
      exact (h.pop hs).resume (h.top hs) (ho f (by simp [hs])) hs'
    · exact nomatch hs'
  | call ob =>
    obtain ⟨hob, ⟨⟩⟩ := ite_none_right_eq_some.1 hs'
    exact h.push (.lpc ob 0)
      (forall_mem_singleton.2 (of_isLive (Bool.and_eq_true_iff.1 hob).2))
  | ret v =>
    rw [State.act] at hs'
    split at hs'
    · rename_i ob catches k hs
      obtain ⟨hv, ⟨⟩⟩ := ite_none_right_eq_some.1 hs'
      refine (h.pop hs).deliver ?_
      rintro a rfl
      exact of_isLive hv
    · exact nomatch hs'
  | enterCatch =>
    rw [State.act] at hs'
    split at hs'
    · rename_i ob catches k hs
      obtain rfl := some.inj hs'
      exact h.goOn hs (forall_mem_singleton.2 (h.top hs ob mem_cons_self))
    · exact nomatch hs'
  | leaveCatch =>
    rw [State.act] at hs'
    split at hs'
    · rename_i ob catches k hs
      obtain rfl := some.inj hs'
      exact h.goOn hs (forall_mem_singleton.2 (h.top hs ob mem_cons_self))
    · exact nomatch hs'
  | raise message =>
    rw [State.act] at hs'
    split at hs'
    · obtain rfl := some.inj hs'
      exact h.error message
    · exact nomatch hs'
  | assign ob o =>
    obtain ⟨hob, ⟨⟩⟩ := ite_none_right_eq_some.1 hs'
    simp only [Bool.and_eq_true] at hob
    exact h.assign hob.1.2 hob.2
  | moveObject dest =>
    rw [State.act] at hs'
    split at hs'
    · obtain ⟨hdest, ⟨⟩⟩ := ite_none_right_eq_some.1 hs'
      exact (h.push (.validMove dest) (forall_mem_singleton.2 (of_isLive hdest))).applyMaster
    · exact nomatch hs'
  | destruct =>
    rw [State.act] at hs'
    split at hs'
    · rename_i ob catches k hs
      obtain rfl := some.inj hs'
      exact h.push (.destruct (some ob))
        (forall_mem_singleton.2 (h.top hs ob mem_cons_self))
    · exact nomatch hs'
  | debugDestruct ob =>
    obtain ⟨hob, ⟨⟩⟩ := ite_none_right_eq_some.1 hs'
    exact h.push (.destruct (some ob))
      (forall_mem_singleton.2 (of_isLive (Bool.and_eq_true_iff.1 hob).2))
  | cloneObject found =>
    cases found with
    | none =>
      obtain ⟨-, ⟨⟩⟩ := ite_none_right_eq_some.1 hs'
      exact (h.push .clone fun _ ha ↦ nomatch ha).push (.load none true) fun _ ha ↦ nomatch ha
    | some ob =>
      obtain ⟨hob, ⟨⟩⟩ := ite_none_right_eq_some.1 hs'
      exact h.push (.cloning (some ob))
        (forall_mem_singleton.2 (of_isLive (Bool.and_eq_true_iff.1 hob).2))
  | loadObject dontReset =>
    obtain ⟨-, ⟨⟩⟩ := ite_none_right_eq_some.1 hs'
    exact h.push (.load none dontReset) fun _ ha ↦ nomatch ha
  | invalid ob =>
    rw [State.act] at hs'
    split at hs'
    · obtain ⟨hob, ⟨⟩⟩ := ite_none_right_eq_some.1 hs'
      have hob := of_isLive hob
      exact (h.setResident hob false).push (.destruct (some ob)) (forall_mem_singleton.2 hob)
    · exact nomatch hs'
  | inherit =>
    rw [State.act] at hs'
    split at hs'
    · obtain rfl := some.inj hs'
      exact h.push (.load none true) fun _ ha ↦ nomatch ha
    · exact nomatch hs'
  | compileHook =>
    rw [State.act] at hs'
    split at hs'
    · obtain rfl := some.inj hs'
      exact h.applyMaster
    · exact nomatch hs'
  | loadError message =>
    rw [State.act] at hs'
    split at hs'
    · rename_i oldOb dontReset k hs
      obtain rfl := some.inj hs'
      exact (h.pop hs).error message
    · exact nomatch hs'
  | noProgram =>
    rw [State.act] at hs'
    split at hs'
    · rename_i dontReset k hs
      obtain rfl := some.inj hs'
      exact (h.pop hs).error _
    · rename_i oldOb dontReset k hs
      obtain rfl := some.inj hs'
      exact (h.pop hs).loadReturn nofun
    · exact nomatch hs'
  | allocate ob prog => exact h.allocate hs'
  | install role ob =>
    obtain ⟨hob, ⟨⟩⟩ := ite_none_right_eq_some.1 hs'
    exact h.install (of_isLive (Bool.and_eq_true_iff.1 hob).2) role
  | free ob =>
    obtain ⟨hob, ⟨⟩⟩ := ite_none_right_eq_some.1 hs'
    simp only [Bool.and_eq_true, decide_eq_true_eq, Bool.not_eq_true'] at hob
    exact h.free hob.1.1.2 hob.1.2 hob.2 ho

/-- **Every orderly step keeps the invariant.** -/
theorem step (h : Inv s) (ho : Orderly s e) (hs' : driver.Step s e s') : Inv s' := by
  change s.step e = some s' at hs'
  rw [State.step] at hs'
  split at hs'
  · exact nomatch hs'
  · exact h.act ho hs'

end Inv

/-! ### What breaks the forest -/

/-- The message of the fatal error. -/
def failedToFind : Halt := .fatal "Failed to find object in super list\n"

/-- **The containment forest.** As long as every step is orderly, the containment of objects is a
forest whenever LPC code can run, `move_object` finds every object that it takes out of an
inventory, and every loop over objects ends. -/
theorem containment (s : State) (hs : driver.ReachableVia Orderly s) :
    Contained s.heap ∧ s.halted ≠ some failedToFind ∧ s.halted ≠ some .endless := by
  have hinv : Inv s := hs.invariant (fun s hs ↦ hs ▸ .init) fun s e s' h ho hst ↦ h.step ho hst
  obtain ⟨F, hF⟩ := hinv.forest
  refine ⟨hF.contained, ?_, ?_⟩
  all_goals
    rcases hinv.halted with h | h
    all_goals
      rw [h]
      exact nofun

instance (s : State) (f : Frame) : Decidable (OrderlyAt s f) := by
  cases f <;> unfold OrderlyAt State.Vacant <;> infer_instance

instance (s : State) (e : Event) : Decidable (Orderly s e) := by
  cases e <;> unfold Orderly <;> infer_instance

/-- A master `1`, a room `2`, and an object `3`, perhaps with a destructor, that is going to be
moved. -/
def furnished (dtor : Bool) : List Event :=
  let load (ob : Obj) : List Event := [.loadObject true, .allocate ob ⟨[false], false, false⟩]
  let create (ob : Obj) (dtor : Bool) : List Event :=
    [.loadObject false, .allocate ob ⟨[dtor], false, false⟩, .ret none, .tick, .ret none, .tick]
  load 0 ++ [.tick, .tick, .install .auto 0] ++ load 1 ++ [.tick, .tick, .install .master 1] ++
    create 2 false ++ create 3 dtor ++ [.call 3]

/-- The object is moved into the room. -/
def entering : List Event :=
  [.moveObject 2, .ret none, .tick]

/-- Object 3 is cloned; the clone `4` and object 3 enter the room, and the clone is destructed. -/
def cloneInRoom : List Event :=
  furnished false ++
    [.cloneObject (some 3), .allocate 4 ⟨[], false, false⟩, .ret none, .tick, .ret none, .call 4] ++
    entering ++ [.tick, .tick, .ret none, .call 3] ++ entering ++
    [.tick, .tick, .tick, .ret none, .call 4, .destruct, .tick, .ret none, .tick, .tick, .tick,
      .tick]

theorem cloneInRoom_objects : (TransitionSystem.run State.step Orderly .init cloneInRoom).any
    (fun s ↦ s.heap.contains 2 = some 3 && s.heap.super 3 = some 2 &&
      (s.heap.obj 4).destructed) = true := by
  decide +kernel

theorem containment_cloneInRoom : ∃ s : State, s.heap.contains 2 = some 3 ∧
    s.heap.super 3 = some 2 ∧ (s.heap.obj 4).destructed = true ∧ Contained s.heap ∧
    s.halted ≠ some failedToFind ∧ s.halted ≠ some .endless := by
  obtain ⟨s, hrun, hs⟩ := (Option.any_eq_true _ _).1 cloneInRoom_objects
  simp only [Bool.and_eq_true, decide_eq_true_eq] at hs
  exact ⟨s, hs.1.1, hs.1.2, hs.2,
    containment s (.run (fun _ _ _ hok h ↦ ⟨hok, h⟩) (.init rfl) hrun)⟩

/-! ### A run that is not orderly -/

/-- The object has a destructor, which moves it into the room again when it is destructed. -/
def moveInDestructor : List Event :=
  furnished true ++ entering ++
    [.tick, .tick, .destruct, .tick, .ret none, .tick, .tick, .tick, .tick] ++ entering

/-- **A destructor that moves its object ends the driver**: the object is in the inventory of the
room no longer, but the room is still its environment. -/
theorem not_containment : ¬∀ s, driver.Reachable s →
    Contained s.heap ∧ s.halted ≠ some failedToFind := by
  intro hall
  have hrun : (TransitionSystem.run State.step (fun _ _ ↦ True) .init moveInDestructor).map
      State.halted = some (some failedToFind) := by
    decide
  obtain ⟨s, hs, hhalted⟩ := Option.map_eq_some_iff.1 hrun
  exact (hall s (.run (fun _ _ _ _ h ↦ ⟨trivial, h⟩) (.init rfl) hs)).2 hhalted

end Lpmud.Containment
