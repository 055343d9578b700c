import Lpmud.Commands.Actions

/-!
# When the actions of an object are updated

The second half of `update_actions` calls `init`, arbitrary LPC code, and this is where a run
depends on it. Each step is a call, or it goes on to the next object (`proceeds_of_step`); as long
as nobody changes the inventories it brings the end nearer (`rank_lt`), and a call can only leave
what is `Later`. So a run ends just when the inventories are left alone in the end (`ends_iff`), and
with what the first half does (`removing_or_behind`) this is the exact condition (`sweeps_iff`).
-/

namespace Lpmud.UpdateActions

open Option
open Commands (Sentence)
open Containment (Heap Represents)

variable {ρ : Type}

/-! ### The calls -/

/-- What LPC code leaves of a world: the objects are there, and a sentence is an old one or it has a
number that has not been used before. -/
structure Later (w w' : World ρ) : Prop where
  allocated : ∀ a ∈ w.heap.allocated, a ∈ w'.heap.allocated
  made_le : w.made ≤ w'.made
  new : ∀ x, ∀ p ∈ w'.sent x, p ∈ w.sent x ∨ w.made ≤ p.1

namespace Later

variable {w w' w'' : World ρ}

theorem refl (w : World ρ) : Later w w := ⟨fun _ h ↦ h, le_rfl, fun _ _ h ↦ .inl h⟩

theorem trans (h : Later w w') (h' : Later w' w'') : Later w w'' where
  allocated a ha := h'.allocated a (h.allocated a ha)
  made_le := h.made_le.trans h'.made_le
  new x p hp := by
    rcases h'.new x p hp with hp | hp
    · exact h.new x p hp
    · exact .inr (h.made_le.trans hp)

end Later

section Calls

variable {L : Lpc ρ} {item : Obj} {saveCmd : Option Obj} {w w' : World ρ} {s t : State ρ}

theorem Lpc.later_of_ok {c : Option Obj} (h : L.init { w with commandGiver := c } = .ok w') :
    Later w w' :=
  ⟨L.allocated { w with commandGiver := c } w' (.inl h),
    L.made_le { w with commandGiver := c } w' (.inl h),
    L.new { w with commandGiver := c } w' (.inl h)⟩

theorem Lpc.later_of_error {c : Option Obj} (h : L.init { w with commandGiver := c } = .error w') :
    Later w w' :=
  ⟨L.allocated { w with commandGiver := c } w' (.inr h),
    L.made_le { w with commandGiver := c } w' (.inr h),
    L.new { w with commandGiver := c } w' (.inr h)⟩

theorem Later.giveUp (h : Later w w') : Later w (giveUp saveCmd w').world :=
  ⟨h.allocated, h.made_le, h.new⟩

/-- The call of `init` for `pp` comes back with an error, or has taken the object out of its
environment, or one of the two is destructed. -/
def Leaves (L : Lpc ρ) (item : Obj) (ob : Option Obj) (pp : Obj) (w : World ρ) : Prop :=
  ∀ w', L.init { w with commandGiver := some pp } = .ok w' →
    ob ≠ w'.heap.super item ∨ w'.destructed item ∨ ∃ env ∈ ob, w'.destructed env

theorem greet_cases (L : Lpc ρ) (item : Obj) (saveCmd ob next : Option Obj) (go : Control)
    (pp : Obj) (w : World ρ) :
    let t := greet L item saveCmd ob next go pp w
    Later w t.world ∧ ((t.control = .ended .crash ∧ ¬Leaves L item ob pp w ∧
          (ob = none ∨ next = none)) ∨
        (∃ how, t.control = .ended how ∧ how ≠ .crash) ∧
          (Leaves L item ob pp w ∨ ob ≠ none ∧ next ≠ none) ∨
        t.control = go ∧ ob ≠ none ∧ next ≠ none) := by
  intro t
  have ht : t = greet L item saveCmd ob next go pp w := rfl
  rw [greet] at ht
  rcases hinit : L.init { w with commandGiver := some pp } with w' | w'
  · rw [hinit] at ht
    refine ⟨ht ▸ Lpc.later_of_error hinit, .inr (.inl ⟨⟨.error, by rw [ht], nofun⟩, .inl ?_⟩)⟩
    intro w'' h
    rw [hinit] at h
    exact nomatch h
  · have hleaves : Leaves L item ob pp w ↔
        ob ≠ w'.heap.super item ∨ w'.destructed item ∨ ∃ env ∈ ob, w'.destructed env := by
      rw [Leaves, hinit]
      exact ⟨fun h ↦ h w' rfl, fun h w'' heq ↦ Except.ok.inj heq ▸ h⟩
    have hlater := Lpc.later_of_ok hinit
    rw [hinit] at ht
    simp only at ht
    split_ifs at ht with hmoved
    · refine ⟨ht ▸ hlater.giveUp, .inr (.inl ⟨⟨.returned, by rw [ht, giveUp], nofun⟩, .inl ?_⟩)⟩
      rw [hleaves]
      tauto
    · rcases ob with - | env
      · refine ⟨ht ▸ hlater, .inl ⟨by rw [ht], ?_, .inl rfl⟩⟩
        rw [hleaves]
        simp only [mem_def, reduceCtorEq, false_and, exists_false, or_false]
        exact hmoved
      · simp only at ht
        split_ifs at ht with henv
        · refine ⟨ht ▸ hlater.giveUp, .inr (.inl ⟨⟨.returned, by rw [ht, giveUp], nofun⟩, .inl ?_⟩)⟩
          rw [hleaves]
          exact .inr (.inr ⟨env, rfl, henv⟩)
        · rcases next with - | nextOb
          · refine ⟨ht ▸ hlater, .inl ⟨by rw [ht], ?_, .inr rfl⟩⟩
            rw [hleaves]
            simp only [mem_def, some.injEq, exists_eq_left']
            tauto
          · simp only at ht
            split_ifs at ht with hdestr
            · exact ⟨ht ▸ hlater.giveUp, .inr (.inl ⟨⟨.returned, by rw [ht, giveUp], nofun⟩,
                .inr ⟨nofun, nofun⟩⟩)⟩
            · exact ⟨ht ▸ hlater, .inr (.inr ⟨by rw [ht], nofun, nofun⟩)⟩

theorem greetEnvironment_cases (L : Lpc ρ) (item : Obj) (saveCmd : Option Obj) (env : Obj)
    (w : World ρ) :
    let t := greetEnvironment L item saveCmd env w
    Later w t.world ∧ ((∃ how, t.control = .ended how ∧ how ≠ .crash) ∨
      t.control = .initSiblings (some env) (t.world.heap.contains env)) := by
  intro t
  have ht : t = greetEnvironment L item saveCmd env w := rfl
  rw [greetEnvironment] at ht
  split_ifs at ht with hliving
  · rcases hinit : L.init { w with commandGiver := some env } with w' | w'
    · rw [hinit] at ht
      exact ⟨ht ▸ Lpc.later_of_error hinit, .inl ⟨.error, by rw [ht], nofun⟩⟩
    · have hlater := Lpc.later_of_ok hinit
      rw [hinit] at ht
      simp only at ht
      split_ifs at ht
      · exact ⟨ht ▸ hlater.giveUp, .inl ⟨.returned, by rw [ht, giveUp], nofun⟩⟩
      · exact ⟨ht ▸ hlater, .inr (by rw [ht])⟩
  · exact ⟨ht ▸ Later.refl w, .inr (by rw [ht])⟩

/-- The state is in front of a call of `init` for `pp`, who is in an inventory. -/
def State.Greets (item : Obj) (s : State ρ) (ob : Option Obj) (pp : Obj) : Prop :=
  s.world.living pp = true ∧ (s.control = .initContents ob (some pp) ∨
    s.control = .initSiblings ob (some pp) ∧ pp ≠ item)

/-- **The calls that do no harm.** The object has an environment and there is an object behind
`pp`, or the call has such an effect that this is not looked at. -/
def Harmless (L : Lpc ρ) (item : Obj) (s : State ρ) : Prop :=
  ∀ ob pp, s.Greets item ob pp →
    Leaves L item ob pp s.world ∨ ob ≠ none ∧ s.world.heap.nextInv pp ≠ none

/-- The ways through the second half of the function, from a world `w` to a world `w'`. -/
inductive Goes (item : Obj) (w w' : World ρ) : Control → Control → Prop where
  | ended (c : Control) (how : Ending) : Goes item w w' c (.ended how)
  | alone : w.heap.super item = none →
      Goes item w w' .initEnvironment (.initContents none (w'.heap.contains item))
  | siblings (env : Obj) : w.heap.super item = some env →
      Goes item w w' .initEnvironment (.initSiblings (some env) (w'.heap.contains env))
  | contents (ob : Option Obj) :
      Goes item w w' (.initSiblings ob none) (.initContents ob (w'.heap.contains item))
  | nextSibling (ob : Option Obj) (pp : Obj) :
      Goes item w w' (.initSiblings ob (some pp)) (.initSiblings ob (w.heap.nextInv pp))
  | nextContent (ob : Option Obj) (pp : Obj) :
      Goes item w w' (.initContents ob (some pp)) (.initContents ob (w.heap.nextInv pp))

/-- What a step from one place makes of the world and where it leads, and when it is the end of the
driver. -/
structure Proceeds (L : Lpc ρ) (item : Obj) (s t : State ρ) : Prop where
  later : Later s.world t.world
  goes : Goes item s.world t.world s.control t.control
  crash_iff : t.control = .ended .crash ↔ ¬Harmless L item s

theorem Proceeds.of_quiet (hlater : Later s.world t.world)
    (hgoes : Goes item s.world t.world s.control t.control) (hcrash : t.control ≠ .ended .crash)
    (hquiet : ∀ ob pp, ¬s.Greets item ob pp) : Proceeds L item s t :=
  ⟨hlater, hgoes, iff_of_false hcrash (not_not.2 fun ob pp hg ↦ absurd hg (hquiet ob pp))⟩

theorem Proceeds.of_greet {ob : Option Obj} {pp : Obj} {go : Control} (hcrash : go ≠ .ended .crash)
    (hgoes : ∀ w', Goes item s.world w' s.control go)
    (hgreets : ∀ ob' pp', s.Greets item ob' pp' ↔ ob' = ob ∧ pp' = pp) :
    Proceeds L item s
      (greet L item saveCmd ob (s.world.heap.nextInv pp) go pp s.world) := by
  have hharmless : Harmless L item s ↔
      Leaves L item ob pp s.world ∨ ob ≠ none ∧ s.world.heap.nextInv pp ≠ none := by
    simp only [Harmless, hgreets]
    exact ⟨fun h ↦ h ob pp ⟨rfl, rfl⟩, fun h ob' pp' hand ↦ by rw [hand.1, hand.2]; exact h⟩
  obtain ⟨hlater, ⟨hend, hbad⟩ | ⟨⟨how, hend, hne⟩, hfine⟩ | ⟨hend, hfine⟩⟩ :=
    greet_cases L item saveCmd ob (s.world.heap.nextInv pp) go pp s.world
  · refine ⟨hlater, hend ▸ .ended _ _, ?_⟩
    rw [hharmless]
    exact iff_of_true hend (by tauto)
  · refine ⟨hlater, hend ▸ .ended _ _, ?_⟩
    rw [hharmless, hend]
    exact iff_of_false (by simpa using hne) (not_not.2 hfine)
  · refine ⟨hlater, by rw [hend]; exact hgoes _, ?_⟩
    rw [hharmless, hend]
    exact iff_of_false hcrash (not_not.2 (.inr hfine))

/-- **Every step of the second half.** -/
theorem proceeds_of_step (hstep : step L item saveCmd s = some t) (hs : ¬s.control.Removing) :
    Proceeds L item s t := by
  obtain ⟨control, w⟩ := s
  cases control with
  | removeSiblings pp => exact absurd trivial hs
  | removeContents pp => exact absurd trivial hs
  | initEnvironment =>
    have hquiet : ∀ ob pp, ¬State.Greets item ⟨.initEnvironment, w⟩ ob pp := fun ob pp hg ↦ by
      simp [State.Greets] at hg
    rw [step] at hstep
    rcases hsuper : w.heap.super item with - | env
    · simp only [hsuper, some.injEq] at hstep
      subst hstep
      exact .of_quiet (.refl w) (.alone hsuper) (by rintro ⟨⟩) hquiet
    · simp only [hsuper, some.injEq] at hstep
      obtain ⟨hlater, ⟨how, hend, hne⟩ | hend⟩ :=
        greetEnvironment_cases L item saveCmd env w
      · rw [hstep] at hlater hend
        exact .of_quiet hlater (hend ▸ .ended _ how) (by rw [hend]; simpa using hne) hquiet
      · rw [hstep] at hlater hend
        exact .of_quiet hlater (hend ▸ .siblings env hsuper) (by rw [hend]; rintro ⟨⟩) hquiet
  | initSiblings ob pp =>
    rcases pp with - | pp
    · cases hstep
      exact .of_quiet (.refl w) (.contents ob) (by rintro ⟨⟩) (by simp [State.Greets])
    · have hgreets (ob' : Option Obj) (pp' : Obj) :
          State.Greets item ⟨.initSiblings ob (some pp), w⟩ ob' pp' ↔
            (pp ≠ item ∧ w.living pp = true) ∧ ob' = ob ∧ pp' = pp := by
        simp only [State.Greets, reduceCtorEq, Control.initSiblings.injEq, false_or,
          some.injEq]
        constructor
        · rintro ⟨hliving, ⟨rfl, rfl⟩, hne⟩
          exact ⟨⟨hne, hliving⟩, rfl, rfl⟩
        · rintro ⟨⟨hne, hliving⟩, rfl, rfl⟩
          exact ⟨hliving, ⟨rfl, rfl⟩, hne⟩
      simp only [step] at hstep
      split_ifs at hstep with hpp
      · cases hstep
        exact .of_greet (by rintro ⟨⟩) (fun _ ↦ .nextSibling ob pp) fun ob' pp' ↦ by
          rw [hgreets, and_iff_right hpp]
      · cases hstep
        exact .of_quiet (.refl w) (.nextSibling ob pp) (by rintro ⟨⟩) fun ob' pp' hg ↦
          hpp ((hgreets ob' pp').1 hg).1
  | initContents ob pp =>
    rcases pp with - | pp
    · cases hstep
      exact .of_quiet (.refl w) (.ended _ _) (by rintro ⟨⟩) (by simp [State.Greets])
    · have hgreets (ob' : Option Obj) (pp' : Obj) :
          State.Greets item ⟨.initContents ob (some pp), w⟩ ob' pp' ↔
            w.living pp = true ∧ ob' = ob ∧ pp' = pp := by
        simp only [State.Greets, reduceCtorEq, Control.initContents.injEq, false_and, or_false,
          some.injEq]
        constructor
        · rintro ⟨hliving, rfl, rfl⟩
          exact ⟨hliving, rfl, rfl⟩
        · rintro ⟨hliving, rfl, rfl⟩
          exact ⟨hliving, rfl, rfl⟩
      simp only [step] at hstep
      split_ifs at hstep with hpp
      · cases hstep
        exact .of_greet (by rintro ⟨⟩) (fun _ ↦ .nextContent ob pp) fun ob' pp' ↦ by
          rw [hgreets, and_iff_right hpp]
      · cases hstep
        exact .of_quiet (.refl w) (.nextContent ob pp) (by rintro ⟨⟩) fun ob' pp' hg ↦
          hpp ((hgreets ob' pp').1 hg).1
  | ended how => cases hstep

end Calls

/-! ### How far it is to the end -/

/-- The number of objects from a pointer on. -/
noncomputable def walk (h : Heap) (p : Option Obj) : ℕ := by
  classical exact if hp : ∃ l, PtrPath h.nextInv p l then hp.choose.length else 0

section Rank

variable {L : Lpc ρ} {item a : Obj} {saveCmd : Option Obj} {h h' : Heap} {w : World ρ}
    {s t : State ρ}

theorem walk_eq {p : Option Obj} {l : List Obj} (hp : PtrPath h.nextInv p l) :
    walk h p = l.length := by
  have hex : ∃ l, PtrPath h.nextInv p l := ⟨l, hp⟩
  rw [walk, dif_pos hex, hex.choose_spec.unique hp]

theorem walk_congr (hn : h'.nextInv = h.nextInv) : walk h' = walk h := by
  funext p
  rw [walk, walk, hn]

theorem exists_path (hw : ∃ F, Represents h F) (ha : a ∈ h.allocated) :
    ∃ l, PtrPath h.nextInv (h.nextInv a) l := by
  obtain ⟨F, hF⟩ := hw
  rcases hp : F.parent a with - | env
  · exact ⟨[], hF.nextInv a ha hp ▸ .nil⟩
  · obtain ⟨front, rest, hsplit⟩ := List.append_of_mem (F.mem_children.2 hp)
    exact ⟨rest, (hsplit ▸ hF.contains env (hF.mem hp).2).drop⟩

theorem walk_some (hw : ∃ F, Represents h F) (ha : a ∈ h.allocated) :
    walk h (some a) = walk h (h.nextInv a) + 1 := by
  obtain ⟨l, hl⟩ := exists_path hw ha
  rw [walk_eq hl, walk_eq (.cons hl), List.length_cons]

/-- How many rounds are left, if nobody changes the inventories. -/
noncomputable def rank (item : Obj) (s : State ρ) : ℕ :=
  let h := s.world.heap
  match s.control with
  | .initEnvironment => walk h ((h.super item).bind h.contains) + walk h (h.contains item) + 4
  | .initSiblings _ pp => walk h pp + walk h (h.contains item) + 3
  | .initContents _ pp => walk h pp + 1
  | _ => 0

/-- A step that changes the inventories. -/
def Moves (L : Lpc ρ) (item : Obj) (saveCmd : Option Obj) (s : State ρ) : Prop :=
  ∃ t, step L item saveCmd s = some t ∧
    ¬(t.world.heap.nextInv = s.world.heap.nextInv ∧ t.world.heap.contains = s.world.heap.contains)

/-- The variable of the loop, and the object, are there. -/
def InPlace (item : Obj) (s : State ρ) : Prop :=
  item ∈ s.world.heap.allocated ∧ ∀ pp, (∃ ob, s.control = .initSiblings ob (some pp) ∨
    s.control = .initContents ob (some pp)) → pp ∈ s.world.heap.allocated

theorem rank_lt (hstep : step L item saveCmd s = some t) (hs : ¬s.control.Removing)
    (hmoves : ¬Moves L item saveCmd s) (hplace : InPlace item s) : rank item t < rank item s := by
  obtain ⟨hnext, hcontains⟩ : t.world.heap.nextInv = s.world.heap.nextInv ∧
      t.world.heap.contains = s.world.heap.contains := by
    by_contra hne
    exact hmoves ⟨t, hstep, hne⟩
  have hgoes := (proceeds_of_step hstep hs).goes
  obtain ⟨control, w⟩ := s
  obtain ⟨control', w'⟩ := t
  dsimp only at hnext hcontains hgoes
  cases hgoes with
  | ended c how =>
    cases control with
    | removeSiblings pp => exact absurd trivial hs
    | removeContents pp => exact absurd trivial hs
    | ended how => exact nomatch hstep
    | _ => simp only [rank]; omega
  | alone hsuper =>
    simp only [rank, walk_congr hnext, hcontains]
    omega
  | siblings env hsuper =>
    simp only [rank, walk_congr hnext, hcontains, hsuper, bind_some]
    omega
  | contents ob =>
    simp only [rank, walk_congr hnext, hcontains]
    omega
  | nextSibling ob pp =>
    have hpp := walk_some w.forest (hplace.2 pp ⟨ob, .inl rfl⟩)
    simp only [rank, walk_congr hnext, hcontains, hpp]
    omega
  | nextContent ob pp =>
    have hpp := walk_some w.forest (hplace.2 pp ⟨ob, .inr rfl⟩)
    simp only [rank, walk_congr hnext, hpp]
    omega

theorem InPlace.step (hplace : InPlace item s) (hstep : step L item saveCmd s = some t)
    (hs : ¬s.control.Removing) : InPlace item t := by
  obtain ⟨hlater, hgoes, -⟩ := proceeds_of_step hstep hs
  obtain ⟨control, w⟩ := s
  obtain ⟨control', w'⟩ := t
  obtain ⟨F, hF⟩ := w.forest
  obtain ⟨F', hF'⟩ := w'.forest
  have hitem := hlater.allocated item hplace.1
  refine ⟨hitem, ?_⟩
  dsimp only at hgoes hlater hitem
  cases hgoes with
  | ended c how => rintro pp ⟨ob, h | h⟩ <;> exact nomatch h
  | alone hsuper =>
    rintro pp ⟨ob, h | h⟩
    · exact nomatch h
    · exact hF'.contains_mem hitem (Control.initContents.inj h).2
  | siblings env hsuper =>
    have henv : env ∈ w.heap.allocated :=
      (hF.mem ((hF.super item hplace.1).symm.trans hsuper)).2
    rintro pp ⟨ob, h | h⟩
    · exact hF'.contains_mem (hlater.allocated env henv) (Control.initSiblings.inj h).2
    · exact nomatch h
  | contents ob =>
    rintro pp ⟨ob, h | h⟩
    · exact nomatch h
    · exact hF'.contains_mem hitem (Control.initContents.inj h).2
  | nextSibling ob x =>
    rintro pp ⟨ob, h | h⟩
    · exact hlater.allocated pp (hF.nextInv_mem (hplace.2 x ⟨_, .inl rfl⟩)
        (Control.initSiblings.inj h).2)
    · exact nomatch h
  | nextContent ob x =>
    rintro pp ⟨ob, h | h⟩
    · exact nomatch h
    · exact hlater.allocated pp (hF.nextInv_mem (hplace.2 x ⟨_, .inr rfl⟩)
        (Control.initContents.inj h).2)

end Rank

/-! ### Calls that come to their end -/

/-- The objects near another one: its environment, the others that are in there, and its
contents. -/
def Near (h : Heap) (item x : Obj) : Prop :=
  x ∈ h.allocated ∧ (h.super item = some x ∨
    x ≠ item ∧ (∃ env, h.super item = some env ∧ h.super x = some env) ∨ h.super x = some item)

section Sweeps

open Iteration (iterate Ends iterate_add iterate_succ')

variable (L : Lpc ρ) (item : Obj) (saveCmd : Option Obj) (w : World ρ)

/-- **What `update_actions` is for.** It comes to its end, and from when all has been taken away
until then none of the sentences of the object is there that somebody who is near and living had:
all that he has has been added by `init`. -/
structure Sweeps : Prop where
  ends : ∃ n s how, iterate (step L item saveCmd) (start item w) n = some s ∧
    s.control = .ended how ∧ how ≠ .crash
  complete : ∀ n s, iterate (step L item saveCmd) (start item w) n = some s →
    ¬s.control.Removing → ∀ x, Near w.heap item x → w.living x = true →
      ∀ p ∈ w.sent x, p.2.funobj = item → p ∉ s.world.sent x

/-- **When it does that.** The object is the last one of its inventory; those who are near and
living have no sentences of it, but for the environment and the first ones of the two inventories;
`init` is called for nobody who has nobody behind him, and for nobody in the inventory of an object
that has no environment, unless it moves or destructs something; and it does not change the
inventories again and again for ever. -/
structure Orderly : Prop where
  last : w.heap.nextInv item = none
  clean : ∀ x, Near w.heap item x → w.living x = true → ¬w.Swept item x →
    ∀ p ∈ w.sent x, p.2.funobj ≠ item
  harmless : ∀ n s, iterate (step L item saveCmd) (start item w) n = some s →
    ¬s.control.Removing → Harmless L item s
  settles : {n | ∃ s, iterate (step L item saveCmd) (start item w) n = some s ∧
    Moves L item saveCmd s}.Finite

variable {L item saveCmd w} {s t s₀ : State ρ} {m n : ℕ}

theorem step_eq_none : step L item saveCmd s = none ↔ ∃ how, s.control = .ended how := by
  obtain ⟨control, w⟩ := s
  constructor
  · intro h
    cases control with
    | removeSiblings pp => cases pp <;> cases h
    | removeContents pp => cases pp <;> cases h
    | initEnvironment =>
      rw [step] at h
      dsimp only at h
      split at h <;> cases h
    | initSiblings ob pp =>
      cases pp with
      | none => cases h
      | some pp =>
        simp only [step] at h
        split_ifs at h
    | initContents ob pp =>
      cases pp with
      | none => cases h
      | some pp =>
        simp only [step] at h
        split_ifs at h
    | ended how => exact ⟨how, rfl⟩
  · rintro ⟨how, h⟩
    dsimp only at h
    subst h
    rfl

theorem not_removing_of_goes {w w' : World ρ} {c c' : Control} (h : Goes item w w' c c') :
    ¬c'.Removing := by
  cases h <;> exact id

theorem later_of_iterate (hs : ¬s.control.Removing) (hplace : InPlace item s)
    (h : iterate (step L item saveCmd) s n = some t) :
    Later s.world t.world ∧ ¬t.control.Removing ∧ InPlace item t := by
  induction n generalizing t with
  | zero =>
    cases h
    exact ⟨.refl _, hs, hplace⟩
  | succ n ih =>
    obtain ⟨u, hu, hstep⟩ := bind_eq_some_iff.1 h
    obtain ⟨hlater, hremoving, huplace⟩ := ih hu
    obtain ⟨hlater', hgoes, -⟩ := proceeds_of_step hstep hremoving
    exact ⟨hlater.trans hlater', not_removing_of_goes hgoes, huplace.step hstep hremoving⟩

theorem removing_of_iterate (ht : t.control.Removing)
    (h : iterate (step L item saveCmd) s n = some t) : s.control.Removing := by
  induction n generalizing s with
  | zero =>
    cases h
    exact ht
  | succ n ih =>
    rw [iterate_succ'] at h
    obtain ⟨u, hu, hiter⟩ := bind_eq_some_iff.1 h
    by_contra hs
    exact not_removing_of_goes (proceeds_of_step hu hs).goes (ih hiter)

theorem heap_removed : (w.removed item).heap = w.heap := by
  rw [World.removed, World.heap_sweep, World.heap_sweep, World.heap_sweep]

theorem inPlace_removed (hitem : item ∈ w.heap.allocated) :
    InPlace item ⟨.initEnvironment, w.removed item⟩ := by
  refine ⟨heap_removed (w := w) ▸ hitem, ?_⟩
  rintro pp ⟨ob, h | h⟩ <;> exact nomatch h

/-- A state of the run without an object behind it: it is one of the first, or it comes after all
has been taken away. -/
theorem removing_or_behind (L : Lpc ρ) (saveCmd : Option Obj)
    (hnext : w.heap.nextInv item = none) :
    ∃ m, iterate (step L item saveCmd) (start item w) m =
        some ⟨.initEnvironment, w.removed item⟩ ∧
      ∀ n s, iterate (step L item saveCmd) (start item w) n = some s →
        n < m ∧ s.control.Removing ∨ ∃ k, n = m + k ∧ iterate (step L item saveCmd)
          ⟨.initEnvironment, w.removed item⟩ k = some s := by
  obtain ⟨m, s₀, hm, hremoving, hstep⟩ := iterate_removed L saveCmd hnext
  have hall : iterate (step L item saveCmd) (start item w) (m + 1) =
      some ⟨.initEnvironment, w.removed item⟩ := by
    rw [iterate, hm, bind_some, hstep]
  refine ⟨m + 1, hall, fun n s hn ↦ ?_⟩
  rcases Nat.lt_or_ge n (m + 1) with hlt | hge
  · obtain ⟨k, hk⟩ := Nat.exists_eq_add_of_le (Nat.lt_succ_iff.1 hlt)
    rw [hk, iterate_add, hn, bind_some] at hm
    exact .inl ⟨hlt, removing_of_iterate hremoving hm⟩
  · obtain ⟨k, rfl⟩ := Nat.exists_eq_add_of_le hge
    rw [iterate_add, hall, bind_some] at hn
    exact .inr ⟨k, rfl, hn⟩

theorem eq_of_ended {how : Ending} (hs : iterate (step L item saveCmd) s₀ m = some s)
    (hend : s.control = .ended how) (ht : iterate (step L item saveCmd) s₀ n = some t)
    {how' : Ending} (htend : t.control = .ended how') : s = t := by
  have hstop {m n : ℕ} {s t : State ρ} {how : Ending}
      (hs : iterate (step L item saveCmd) s₀ m = some s) (hend : s.control = .ended how)
      (ht : iterate (step L item saveCmd) s₀ n = some t) : n ≤ m := by
    by_contra hlt
    have hnone : iterate (step L item saveCmd) s₀ (m + 1) = none := by
      rw [iterate, hs, bind_some, step_eq_none]
      exact ⟨how, hend⟩
    rw [Iteration.iterate_eq_none_of_le hnone (Nat.not_le.1 hlt)] at ht
    cases ht
  have hmn : m = n := Nat.le_antisymm (hstop ht htend hs) (hstop hs hend ht)
  rw [hmn, ht] at hs
  exact (some.inj hs).symm

/-- **A run without an object behind it ends just when the inventories are left alone in the end.**
-/
theorem ends_iff (hitem : item ∈ w.heap.allocated) (hnext : w.heap.nextInv item = none) :
    Ends (step L item saveCmd) (start item w) ↔
      {n | ∃ s, iterate (step L item saveCmd) (start item w) n = some s ∧
        Moves L item saveCmd s}.Finite := by
  obtain ⟨m, hm, hstates⟩ := removing_or_behind L saveCmd hnext
  have hfalls (s t : State ρ) (hstep : step L item saveCmd s = some t)
      (hgood : ¬(s.control.Removing ∨ Moves L item saveCmd s ∨ ¬InPlace item s)) :
      rank item t < rank item s := by
    rw [not_or, not_or, not_not] at hgood
    exact rank_lt hstep hgood.1 hgood.2.1 hgood.2.2
  have hrank : Ends (step L item saveCmd) (start item w) ↔
      {n | ∃ s, iterate (step L item saveCmd) (start item w) n = some s ∧
        (s.control.Removing ∨ Moves L item saveCmd s ∨ ¬InPlace item s)}.Finite :=
    Iteration.ends_iff (fun _ ↦ True) (rank item)
      (fun s t hstep hgood ↦ (hfalls s t hstep hgood).le)
      (fun s t hstep hgood _ ↦ hfalls s t hstep hgood) (fun s ↦ ⟨0, fun _ _ ↦ trivial⟩) _
  rw [hrank]
  constructor
  · exact fun h ↦ h.subset fun n ⟨s, hs, hmoves⟩ ↦ ⟨s, hs, .inr (.inl hmoves)⟩
  · intro h
    refine ((Set.finite_lt_nat m).union h).subset ?_
    rintro n ⟨s, hs, hbad⟩
    rcases hstates n s hs with ⟨hlt, -⟩ | ⟨k, -, hk⟩
    · exact .inl hlt
    · obtain ⟨-, hremoving, hplace⟩ := later_of_iterate id (inPlace_removed hitem) hk
      rcases hbad with hbad | hmoves | hbad
      · exact absurd hbad hremoving
      · exact .inr ⟨s, hs, hmoves⟩
      · exact absurd hplace hbad

theorem exists_ended (h : Ends (step L item saveCmd) s₀) :
    ∃ n s how, iterate (step L item saveCmd) s₀ n = some s ∧ s.control = .ended how := by
  obtain ⟨n, hn⟩ := h
  induction n with
  | zero => exact nomatch hn
  | succ n ih =>
    rcases hs : iterate (step L item saveCmd) s₀ n with - | s
    · exact ih hs
    · rw [iterate, hs, bind_some] at hn
      obtain ⟨how, hend⟩ := step_eq_none.1 hn
      exact ⟨n, s, how, hs, hend⟩

/-- **The exact condition.** -/
theorem sweeps_iff (L : Lpc ρ) (item : Obj) (saveCmd : Option Obj) (w : World ρ)
    (hitem : item ∈ w.heap.allocated) :
    Sweeps L item saveCmd w ↔ Orderly L item saveCmd w := by
  constructor
  · rintro ⟨⟨n, s, how, hn, hend, hgood⟩, hcomplete⟩
    have hends : Ends (step L item saveCmd) (start item w) := by
      refine ⟨n + 1, ?_⟩
      rw [iterate, hn, bind_some, step_eq_none]
      exact ⟨how, hend⟩
    have hnext : w.heap.nextInv item = none := by
      by_contra hne
      exact not_ends hitem hne hends
    refine ⟨hnext, fun x hnear hliving hswept p hp hfun ↦ ?_, fun k t hk ht ↦ ?_,
      (ends_iff hitem hnext).1 hends⟩
    · obtain ⟨m, hm, -⟩ := removing_or_behind L saveCmd hnext
      refine hcomplete m _ hm id x hnear hliving p hp hfun ?_
      rw [World.mem_sent_removed hfun]
      exact ⟨hp, fun hand ↦ hswept hand.1⟩
    · by_contra hharm
      rcases hstep : step L item saveCmd t with - | u
      · obtain ⟨how, hcontrol⟩ := step_eq_none.1 hstep
        exact hharm fun ob pp hg ↦ by simp [State.Greets, hcontrol] at hg
      · have hcrash := (proceeds_of_step hstep ht).crash_iff.2 hharm
        have hu : iterate (step L item saveCmd) (start item w) (k + 1) = some u := by
          rw [iterate, hk, bind_some, hstep]
        rw [eq_of_ended hu hcrash hn hend, hend] at hcrash
        exact hgood (Control.ended.inj hcrash)
  · rintro ⟨hnext, hclean, hharmless, hsettles⟩
    obtain ⟨m, hm, hstates⟩ := removing_or_behind L saveCmd hnext
    obtain ⟨n, s, how, hn, hend⟩ := exists_ended ((ends_iff hitem hnext).2 hsettles)
    refine ⟨⟨n, s, how, hn, hend, ?_⟩, fun k t hk ht x hnear hliving p hp hfun hpt ↦ ?_⟩
    · rintro rfl
      rcases hstates n s hn with ⟨-, hremoving⟩ | ⟨_ | k, rfl, hk⟩
      · rw [hend] at hremoving
        exact hremoving
      · cases hk
        cases hend
      · obtain ⟨u, hu, hstep⟩ := bind_eq_some_iff.1 hk
        have hremoving := (later_of_iterate id (inPlace_removed hitem) hu).2.1
        refine (proceeds_of_step hstep hremoving).crash_iff.1 hend
          (hharmless (m + k) u ?_ hremoving)
        rw [iterate_add, hm, bind_some, hu]
    · rcases hstates k t hk with ⟨-, hremoving⟩ | ⟨j, -, hj⟩
      · exact ht hremoving
      · obtain ⟨hlater, -, -⟩ := later_of_iterate id (inPlace_removed hitem) hj
        rcases hlater.new x p hpt with hold | hnew
        · rw [World.mem_sent_removed hfun] at hold
          exact hclean x hnear hliving (fun hswept ↦ hold.2 ⟨hswept, hliving⟩) p hp hfun
        · have hmade : (w.removed item).made = w.made := by
            rw [World.removed, World.made_sweep, World.made_sweep, World.made_sweep]
          have hlt := w.lt_made x p hp
          rw [← hmade] at hlt
          exact absurd hnew (Nat.not_le.2 hlt)

end Sweeps

/-! ### A room with two objects -/

/-- A program without anything. -/
def plain : Containment.Program := ⟨[], false, false⟩

/-- Three objects that are nowhere. -/
def objects : Heap :=
  let h : Heap := ⟨fun _ ↦ .null plain, []⟩
  ((h.alloc 1 (.null plain)).alloc 2 (.null plain)).alloc 3 (.null plain)

/-- The object 1, and in it 2 and behind it 3. -/
def roomHeap : Heap := (objects.link 3 1).link 2 1

theorem represents_roomHeap : ∃ F, Represents roomHeap F := by
  have hnull : Represents ⟨fun _ ↦ .null plain, []⟩ (.empty : Forest Obj) :=
    ⟨nofun, nofun, nofun, nofun⟩
  have hobjects : Represents objects .empty :=
    ((hnull.alloc (by decide) rfl rfl rfl).alloc (by decide) rfl rfl rfl).alloc (by decide)
      rfl rfl rfl
  have habove (a b : Obj) (F : Forest Obj) (hb : F.parent b = none) (hab : a ≠ b) :
      ¬F.Above a b := by
    have hpath : PtrPath F.parent (some b) [b] := .cons (hb ▸ .nil)
    rw [Forest.Above, ← hpath.mem_iff, List.mem_singleton]
    exact hab
  have hlinked : Represents (objects.link 3 1) _ := (hobjects.reset (by decide) rfl).relink
    (by decide) (by decide) rfl (habove 3 1 _ rfl (by decide))
  exact ⟨_, (hlinked.reset (by decide) rfl).relink (by decide) (by decide) rfl
    (habove 2 1 _ rfl (by decide))⟩

/-- Nobody is living, and there are no sentences. -/
def room : World Unit where
  heap := roomHeap
  forest := represents_roomHeap
  sent _ := []
  made := 0
  lt_made _ := nofun
  commandGiver := none
  rest := ()

/-- An `init` that does nothing. -/
def idle : Lpc Unit where
  init := .ok
  allocated w w' h a ha := by
    rcases h with h | h
    · cases h
      exact ha
    · exact nomatch h
  made_le w w' h := by
    rcases h with h | h
    · cases h
      exact le_rfl
    · exact nomatch h
  new w w' h x p hp := by
    rcases h with h | h
    · cases h
      exact .inl hp
    · exact nomatch h

/-- The object 2 is not swept, since 3 is behind it. -/
theorem sweeps_iff_room : ¬Sweeps idle 2 none room := fun h ↦
  absurd ((sweeps_iff idle 2 none room (by decide)).1 h).last (by decide)

/-- The call for the object 2, which has another one behind it, does not end. -/
theorem not_sweeps : ¬∀ (ρ : Type) (L : Lpc ρ) (item : Obj) (saveCmd : Option Obj) (w : World ρ),
    item ∈ w.heap.allocated → Sweeps L item saveCmd w := by
  intro h
  obtain ⟨n, s, how, hn, hend, -⟩ := (h Unit idle 2 none room (by decide)).ends
  have hends : Iteration.Ends (step idle 2 none) (start 2 room) := by
    refine ⟨n + 1, ?_⟩
    rw [Iteration.iterate, hn, bind_some, step_eq_none]
    exact ⟨how, hend⟩
  exact not_ends (by decide) (by decide) hends

end Lpmud.UpdateActions
