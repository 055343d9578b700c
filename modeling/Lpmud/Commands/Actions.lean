import Lpmud.Commands.Parser
import Lpmud.Containment.Inventory
import Lpmud.Lib.Iteration

/-!
# The actions of an object

`update_actions` of `simulate.c` takes the sentences of an object away from everybody who is near
it, and then calls its `init`, which adds them anew, once for each of them who is living.

It goes through inventories with a variable `pp`. The two loops that take sentences away do not
advance it: they set it to the object behind `item`, and not to the one behind `pp`. With an object
behind `item` the loop never ends (`not_ends`); without one it ends after the first object
(`iterate_removed`). The loops that call `init` advance, but behind each call they look at
the flags of the next object, and of the environment, also if there is none.

The function is a machine that takes one step for each round of a loop; `init` is arbitrary LPC
code, which may move everything. `sweeps_iff` says exactly when a call of `update_actions` comes to
its end and takes all sentences away.
-/

namespace Lpmud.UpdateActions

open Option
open Commands (Sentence)
open Containment (Heap Represents)

/-! ### The world -/

/-- The objects with their inventories, and the sentences of each object, in the order of its list.
A sentence stands with its number in the order in which sentences are made. -/
structure World (ρ : Type) where
  heap : Heap
  forest : ∃ F, Represents heap F
  sent : Obj → List (ℕ × Sentence)
  made : ℕ
  lt_made : ∀ x, ∀ p ∈ sent x, p.1 < made
  commandGiver : Option Obj
  rest : ρ

variable {ρ : Type}

namespace World

/-- `O_ENABLE_COMMANDS`. -/
def living (w : World ρ) (x : Obj) : Bool := (w.heap.obj x).enableCommands

/-- `O_DESTRUCTED`. -/
def destructed (w : World ρ) (x : Obj) : Bool := (w.heap.obj x).destructed

def removeSent (ob player : Obj) (w : World ρ) : World ρ where
  heap := w.heap
  forest := w.forest
  sent := Function.update w.sent player ((w.sent player).filter fun p ↦ p.2.funobj ≠ ob)
  made := w.made
  lt_made x p hp := by
    by_cases hx : x = player
    · subst hx
      rw [Function.update_self] at hp
      exact w.lt_made x p (List.mem_filter.1 hp).1
    · rw [Function.update_of_ne hx] at hp
      exact w.lt_made x p hp
  commandGiver := w.commandGiver
  rest := w.rest

/-- `remove_sent`, if there is somebody who is living. -/
def sweep (item : Obj) (w : World ρ) : Option Obj → World ρ
  | none => w
  | some x => if w.living x then w.removeSent item x else w

end World

/-- What is called for a living (`USE_ENCOUNTER_NOT_INIT`): its `encounter`, or the `init` of the
object if there is no such function; and what that leaves behind when it returns, or when it ends
with an error. No object is freed before all functions have returned, and the sentences that are
there afterwards and were not there before are new. -/
structure Lpc (ρ : Type) where
  init : World ρ → Except (World ρ) (World ρ)
  allocated : ∀ w w', init w = .ok w' ∨ init w = .error w' →
    ∀ a ∈ w.heap.allocated, a ∈ w'.heap.allocated
  made_le : ∀ w w', init w = .ok w' ∨ init w = .error w' → w.made ≤ w'.made
  new : ∀ w w', init w = .ok w' ∨ init w = .error w' →
    ∀ x, ∀ p ∈ w'.sent x, p ∈ w.sent x ∨ w.made ≤ p.1

/-! ### The machine -/

/-- How `update_actions` ends. A read through a null pointer is the end of the driver. -/
inductive Ending where
  | returned
  | error
  | crash
  deriving DecidableEq

/-- Where `update_actions` is: in front of a round of one of its four loops, with the variable `pp`,
or in front of the call of `init` for the environment. The variable `ob` has the environment that
the object had in the beginning. -/
inductive Control where
  | removeSiblings (pp : Option Obj)
  | removeContents (pp : Option Obj)
  | initEnvironment
  | initSiblings (ob pp : Option Obj)
  | initContents (ob pp : Option Obj)
  | ended (how : Ending)
  deriving DecidableEq

structure State (ρ : Type) where
  control : Control
  world : World ρ

section Machine

variable (L : Lpc ρ) (item : Obj) (saveCmd : Option Obj)

/-- The end of the function that restores `command_giver`. -/
def giveUp (w : World ρ) : State ρ := ⟨.ended .returned, { w with commandGiver := saveCmd }⟩

/-- A call of `init` for a living object of an inventory, and what is looked at behind it. -/
def greet (ob next : Option Obj) (go : Control) (pp : Obj) (w : World ρ) : State ρ :=
  match L.init { w with commandGiver := some pp } with
  | .error w => ⟨.ended .error, w⟩
  | .ok w =>
    if ob ≠ w.heap.super item ∨ w.destructed item then giveUp saveCmd w
    else
      match ob with
      | none => ⟨.ended .crash, w⟩
      | some env =>
        if w.destructed env then giveUp saveCmd w
        else
          match next with
          | none => ⟨.ended .crash, w⟩
          | some nextOb => if w.destructed nextOb then giveUp saveCmd w else ⟨go, w⟩

/-- The call of `init` for the environment. -/
def greetEnvironment (env : Obj) (w : World ρ) : State ρ :=
  if w.living env then
    match L.init { w with commandGiver := some env } with
    | .error w => ⟨.ended .error, w⟩
    | .ok w =>
      if some env ≠ w.heap.super item ∨ w.destructed item ∨ w.destructed env then giveUp saveCmd w
      else ⟨.initSiblings (some env) (w.heap.contains env), w⟩
  else ⟨.initSiblings (some env) (w.heap.contains env), w⟩

/-- One step of `update_actions`. -/
def step (s : State ρ) : Option (State ρ) :=
  let w := s.world
  match s.control with
  | .removeSiblings none => some ⟨.removeContents (w.heap.contains item), w⟩
  | .removeSiblings (some pp) =>
    some ⟨.removeSiblings (w.heap.nextInv item), if pp ≠ item then w.sweep item (some pp) else w⟩
  | .removeContents none => some ⟨.initEnvironment, w⟩
  | .removeContents (some pp) =>
    some ⟨.removeContents (w.heap.nextInv item), w.sweep item (some pp)⟩
  | .initEnvironment =>
    match w.heap.super item with
    | none => some ⟨.initContents none (w.heap.contains item), w⟩
    | some env => some (greetEnvironment L item saveCmd env w)
  | .initSiblings ob none => some ⟨.initContents ob (w.heap.contains item), w⟩
  | .initSiblings ob (some pp) =>
    let next := w.heap.nextInv pp
    if pp ≠ item ∧ w.living pp then
      some (greet L item saveCmd ob next (.initSiblings ob next) pp w)
    else some ⟨.initSiblings ob next, w⟩
  | .initContents _ none => some ⟨.ended .returned, w⟩
  | .initContents ob (some pp) =>
    let next := w.heap.nextInv pp
    if w.living pp then some (greet L item saveCmd ob next (.initContents ob next) pp w)
    else some ⟨.initContents ob next, w⟩
  | .ended _ => none

/-- The beginning of `update_actions`. -/
def start (w : World ρ) : State ρ :=
  match w.heap.super item with
  | none => ⟨.removeContents (w.heap.contains item), w⟩
  | some env => ⟨.removeSiblings (w.heap.contains env), w.sweep item (some env)⟩

end Machine

/-! ### Taking sentences away -/

namespace World

variable {w : World ρ} {item x : Obj} {q : Option Obj} {p : ℕ × Sentence}

theorem sent_removeSent : (w.removeSent item x).sent =
    Function.update w.sent x ((w.sent x).filter fun p ↦ p.2.funobj ≠ item) := rfl

@[simp] theorem heap_sweep : (w.sweep item q).heap = w.heap := by
  cases q with
  | none => rfl
  | some x =>
    rw [sweep]
    split <;> rfl

@[simp] theorem made_sweep : (w.sweep item q).made = w.made := by
  cases q with
  | none => rfl
  | some x =>
    rw [sweep]
    split <;> rfl

@[simp] theorem living_sweep : (w.sweep item q).living = w.living := by
  funext x
  rw [living, heap_sweep, living]

/-- Which sentences of the object are left by `remove_sent`. -/
theorem mem_sent_sweep (hp : p.2.funobj = item) :
    p ∈ (w.sweep item q).sent x ↔ p ∈ w.sent x ∧ ¬(q = some x ∧ w.living x = true) := by
  rcases q with - | y
  · simp [sweep]
  · rw [sweep]
    split_ifs with hy
    · rw [sent_removeSent]
      by_cases hx : x = y
      · subst hx
        simp [hp, hy]
      · simp [Function.update_of_ne hx, Ne.symm hx]
    · refine (and_iff_left ?_).symm
      rintro ⟨hyx, h⟩
      exact hy (some.inj hyx ▸ h)

/-- The first object in the inventory of the environment, if it is another one. -/
def firstSibling (w : World ρ) (item : Obj) : Option Obj :=
  ((w.heap.super item).bind w.heap.contains).filter (· ≠ item)

/-- What the loops leave when they end: they have come to the environment, and to the first object
of each of the two inventories. -/
def removed (item : Obj) (w : World ρ) : World ρ :=
  ((w.sweep item (w.heap.super item)).sweep item (w.firstSibling item)).sweep item
    (w.heap.contains item)

/-- Somebody whom the loops come to. -/
def Swept (w : World ρ) (item x : Obj) : Prop :=
  w.heap.super item = some x ∨ w.firstSibling item = some x ∨ w.heap.contains item = some x

theorem mem_sent_removed (hp : p.2.funobj = item) :
    p ∈ (w.removed item).sent x ↔ p ∈ w.sent x ∧ ¬(w.Swept item x ∧ w.living x = true) := by
  rw [removed, mem_sent_sweep hp, mem_sent_sweep hp, mem_sent_sweep hp, living_sweep, living_sweep,
    living_sweep, Swept]
  tauto

end World

/-! ### The loops that take sentences away -/

section Removing

open Iteration (iterate Ends iterate_succ' iterate_add)

variable {L : Lpc ρ} {item : Obj} {saveCmd : Option Obj} {w : World ρ} {s : State ρ}

/-- The states before the first call. -/
def Control.Removing : Control → Prop
  | .removeSiblings _ => True
  | .removeContents _ => True
  | _ => False

theorem iterate_removed (L : Lpc ρ) (saveCmd : Option Obj) (hnext : w.heap.nextInv item = none) :
    ∃ n s, iterate (step L item saveCmd) (start item w) n = some s ∧ s.control.Removing ∧
      step L item saveCmd s = some ⟨.initEnvironment, w.removed item⟩ := by
  -- the loop over the contents, from the world in which it begins
  have hcontents (v : World ρ) (hv : v.heap = w.heap) :
      ∃ n s, iterate (step L item saveCmd) ⟨.removeContents (w.heap.contains item), v⟩ n = some s ∧
        s.control.Removing ∧ step L item saveCmd s =
          some ⟨.initEnvironment, v.sweep item (w.heap.contains item)⟩ := by
    rcases hc : w.heap.contains item with - | c
    · exact ⟨0, _, rfl, trivial, rfl⟩
    · refine ⟨1, ⟨.removeContents none, v.sweep item (some c)⟩, ?_, trivial, rfl⟩
      rw [iterate_succ', step]
      simp only [hv, hnext]
      rfl
  rcases hs : w.heap.super item with - | env
  · rw [start, hs]
    obtain ⟨n, s, hn, hremoving, hstep⟩ := hcontents w rfl
    refine ⟨n, s, hn, hremoving, ?_⟩
    rw [hstep, World.removed, World.firstSibling, hs]
    rfl
  · have hone (c : Option Obj) (v : World ρ) (hv : v.heap = w.heap) :
        ∃ n, iterate (step L item saveCmd) ⟨.removeSiblings c, v⟩ n =
          some ⟨.removeContents (w.heap.contains item), v.sweep item (c.filter (· ≠ item))⟩ := by
      rcases c with - | c
      · refine ⟨1, ?_⟩
        rw [iterate_succ', ← hv]
        rfl
      · have hsweep : (if c ≠ item then v.sweep item (some c) else v) =
            v.sweep item ((some c).filter (· ≠ item)) := by
          by_cases hitem : c = item
          · rw [if_neg (not_not.2 hitem), filter_some, decide_eq_false (not_not.2 hitem)]
            rfl
          · rw [if_pos hitem, filter_some, decide_eq_true hitem, if_pos rfl]
        have hfirst : step L item saveCmd ⟨.removeSiblings (some c), v⟩ =
            some ⟨.removeSiblings none, v.sweep item ((some c).filter (· ≠ item))⟩ := by
          rw [← hsweep, ← hnext, ← hv]
          rfl
        refine ⟨2, ?_⟩
        rw [iterate_succ', hfirst, bind_some, iterate_succ', step]
        simp only [World.heap_sweep, hv]
        rfl
    obtain ⟨m, hm⟩ := hone (w.heap.contains env) (w.sweep item (some env)) World.heap_sweep
    obtain ⟨n, s, hn, hremoving, hstep⟩ := hcontents ((w.sweep item (some env)).sweep item
      ((w.heap.contains env).filter (· ≠ item))) (by rw [World.heap_sweep, World.heap_sweep])
    refine ⟨m + n, s, ?_, hremoving, ?_⟩
    · rw [start, hs, iterate_add, hm, bind_some, hn]
    · rw [hstep, World.removed, World.firstSibling, hs]
      rfl

/-- **With an object behind it the loop goes on for ever**: the variable has this object in every
round but the first. -/
theorem not_ends (hitem : item ∈ w.heap.allocated) (hnext : w.heap.nextInv item ≠ none) :
    ¬Ends (step L item saveCmd) (start item w) := by
  obtain ⟨F, hF⟩ := w.forest
  obtain ⟨b, hb⟩ := ne_none_iff_exists'.1 hnext
  obtain ⟨env, henv⟩ : ∃ env, F.parent item = some env :=
    ne_none_iff_exists'.1 fun h ↦ hnext (hF.nextInv item hitem h)
  obtain ⟨c, hc⟩ : ∃ c, w.heap.contains env = some c := by
    refine ne_none_iff_exists'.1 fun h ↦ ?_
    have hpath := hF.contains env (hF.mem henv).2
    rw [h] at hpath
    have hmem := F.mem_children.2 henv
    rw [hpath.unique .nil] at hmem
    exact List.not_mem_nil hmem
  refine Iteration.not_ends (I := fun s : State ρ ↦
    (∃ pp, s.control = .removeSiblings (some pp)) ∧ s.world.heap = w.heap) ?_ ?_
  · rintro ⟨control, v⟩ ⟨⟨pp, rfl⟩, hv⟩
    refine ⟨_, rfl, ⟨b, ?_⟩, ?_⟩
    · rw [hv, hb]
    · dsimp only
      split_ifs
      · rw [World.heap_sweep, hv]
      · exact hv
  · rw [start, hF.super item hitem, henv]
    exact ⟨⟨c, congrArg Control.removeSiblings hc⟩, World.heap_sweep⟩

end Removing

end Lpmud.UpdateActions
