import Lpmud.Lib.TransitionSystem
import Mathlib.Algebra.BigOperators.Group.Finset.Basic
import Mathlib.Algebra.Order.Ring.Int

/-!
# Heaps of coins

Objects that stand for many equal items (`/std/heap.c`). A part of a heap is moved by splitting it
before: the heap pretends to be as small as this part, and leaves the rest behind as a copy when it
moves. Heaps with the same unique id merge where they meet.

Which of several heaps is the first one in an inventory is left open, and so is whether there is
place for a heap where it is moved. Integers of LPC have 32 bits.
-/

namespace Lpmud.Heaps

/-! ### Integers -/

/-- An integer of LPC. -/
def int (z : ℤ) : ℤ :=
  z.bmod (2 ^ 32)

theorem int_eq {z : ℤ} (h : -2 ^ 31 ≤ z) (h' : z < 2 ^ 31) : int z = z :=
  Int.bmod_eq_of_le (by omega) (by omega)

theorem int_lt (z : ℤ) : int z < 2 ^ 31 :=
  Int.bmod_lt (by decide)

theorem int_natCast {n : ℕ} (h : n < 2 ^ 31) : int n = n :=
  int_eq (by omega) (by omega)

theorem int_le {z : ℤ} (h : -2 ^ 31 ≤ z) : int z ≤ z := by
  rw [int, Int.bmod_def]
  split <;> omega

theorem int_of_le {z : ℤ} (h : 2 ^ 31 ≤ z) (h' : z < 2 ^ 32) : int z = z - 2 ^ 32 := by
  rw [int, Int.bmod_def]
  split <;> omega

theorem int_add_int (x y : ℤ) : int (x + int y) = int (x + y) :=
  Int.add_bmod_bmod

theorem int_int_add (x y : ℤ) : int (int x + y) = int (x + y) :=
  Int.bmod_add_bmod

/-! ### Heaps -/

/-- Where a heap is: in no environment, in a room, a living or a container, or in the heap that it
was merged into. -/
inductive Place where
  | void
  | room (n : ℕ)
  | heap (h : ℕ)
  deriving DecidableEq

/-- What `set_alarm` delays. -/
inductive Alarm where
  | removeObject
  | restoreHeap
  | mayMerge
  deriving DecidableEq

/-- The variables of a heap, with the properties that matter. -/
structure Heap where
  env : Place
  uniqueId : String
  /-- the unique id that `create_heap` sets, in `gOwn_props` -/
  ownUniqueId : Option String
  itemCount : ℤ
  leaveBehind : ℤ
  noMerge : Bool
  hide : Bool
  invis : Bool
  aboutToDestruct : Bool
  alarms : List Alarm

namespace Heap

variable (x : Heap)

def numHeap : ℤ :=
  int (x.itemCount - x.leaveBehind)

def setHeapSize (num : ℤ) : Heap :=
  if num ≤ 0 then { x with alarms := .removeObject :: x.alarms, itemCount := 0 }
  else { x with itemCount := num }

def splitHeap (num : ℤ) : Heap :=
  if x.itemCount ≤ num then { x with leaveBehind := 0 }
  else
    { x with leaveBehind := int (x.itemCount - num), alarms := .restoreHeap :: x.alarms }

/-- A heap that is split because there is too little place for it. -/
def splitBy (split : Option ℤ) : Heap :=
  split.elim x x.splitHeap

def restoreHeap : Heap :=
  { x with leaveBehind := 0 }

def setNoMerge (i : Bool) : Heap :=
  { x with
    noMerge := i
    alarms := if i && !x.noMerge then .mayMerge :: x.alarms else x.alarms }

/-- The copy that `leave_env` makes, with `config_split`. What `create_heap` sets is kept. -/
def configSplit (old : Place) : Heap :=
  { x with
    env := old
    uniqueId := x.ownUniqueId.getD x.uniqueId
    itemCount := x.leaveBehind
    leaveBehind := 0
    noMerge := false
    alarms := [] }

/-- The heap was merged into another one, and is only kept for its description. -/
def merged : Bool :=
  match x.env with
  | .heap _ => true
  | .void | .room _ => false

end Heap

/-- All heaps. -/
structure State where
  heap : ℕ → Heap
  alive : Finset ℕ

namespace State

variable (s : State)

/-- A heap is changed. -/
def update (h : ℕ) (f : Heap → Heap) : State :=
  { s with heap := Function.update s.heap h (f (s.heap h)) }

/-- A new heap. -/
def insert (h : ℕ) (x : Heap) : State :=
  ⟨Function.update s.heap h x, Insert.insert h s.alive⟩

/-- `t` is a heap in the environment of `h` that `h` can be merged into. -/
structure Candidate (h t : ℕ) : Prop where
  alive : t ∈ s.alive
  ne : t ≠ h
  env : (s.heap t).env = (s.heap h).env
  env_ne : (s.heap h).env ≠ .void
  hide : (s.heap t).hide = false
  invis : (s.heap t).invis = false
  aboutToDestruct : (s.heap t).aboutToDestruct = false
  uniqueId : (s.heap h).uniqueId = (s.heap t).uniqueId

/-- `ob[i]->set_heap_size(item_count + ob[i]->num_heap())`. -/
def enlarge (h t : ℕ) : State :=
  s.update t fun x ↦ x.setHeapSize (int ((s.heap h).itemCount + x.numHeap))

/-- `h` is merged into `t`, and moved there. -/
def absorb (h t : ℕ) : State :=
  (s.enlarge h t).update h fun x ↦ { x with leaveBehind := 0, env := .heap t }

/-- What is in a heap, or in something in it. -/
inductive Inside (h : ℕ) : ℕ → Prop where
  | direct {g : ℕ} : (s.heap g).env = .heap h → Inside h g
  | deep {g k : ℕ} : (s.heap g).env = .heap k → Inside h k → Inside h g

end State

/-- `enter_env` of a heap that has been moved. After a merge it enters the other heap. -/
inductive EnterEnv : State → ℕ → State → Prop where
  | stay {s : State} {h : ℕ} : (s.heap h).noMerge = true ∨ (∀ t, ¬s.Candidate h t) →
    EnterEnv s h s
  | merge {s s' : State} {h t : ℕ} : (s.heap h).noMerge = false → s.Candidate h t →
    EnterEnv (s.absorb h t) h s' →
    EnterEnv s h (s'.update h fun x ↦ { x with alarms := .removeObject :: x.alarms })

/-- `leave_env`, when the heap leaves `old`. -/
inductive LeaveEnv (s : State) (h : ℕ) (old : Place) : State → Prop where
  | whole : (s.heap h).leaveBehind = 0 ∨ (s.heap h).itemCount ≤ (s.heap h).leaveBehind →
    LeaveEnv s h old s
  | copy {c : ℕ} {s' : State} : (s.heap h).leaveBehind ≠ 0 →
    (s.heap h).leaveBehind < (s.heap h).itemCount → c ∉ s.alive →
    EnterEnv (s.insert c ((s.heap h).configSplit old)) c s' →
    LeaveEnv s h old
      (s'.update h fun x ↦
        { x with itemCount := int (x.itemCount - x.leaveBehind), leaveBehind := 0 })

/-- What is in a heap is removed. -/
def RemoveInventory (s : State) (h : ℕ) (s' : State) : Prop :=
  s'.heap = s.heap ∧ ∀ g, g ∈ s'.alive ↔ g ∈ s.alive ∧ ¬s.Inside h g

def RemoveObject (s : State) (h : ℕ) (s' : State) : Prop :=
  ∃ s₁ s₂ s₃, RemoveInventory s h s₁ ∧ LeaveEnv s₁ h (s.heap h).env s₂ ∧
    RemoveInventory s₂ h s₃ ∧ s' = { s₃ with alive := s₃.alive.erase h }

/-- `force_heap_merge`. After the first merge the object is destructed, and calls nothing any
more. -/
inductive ForceHeapMerge (s : State) (h : ℕ) : State → Prop where
  | none : (∀ t, ¬s.Candidate h t) → ForceHeapMerge s h s
  | merge {t : ℕ} {s' : State} : s.Candidate h t → RemoveObject (s.enlarge h t) h s' →
    ForceHeapMerge s h s'

/-- `move_object`, with the part that there is place for. -/
def State.moveObject (s : State) (h dest : ℕ) (split : Option ℤ) : State :=
  s.update h fun x ↦ { x.splitBy split with env := .room dest }

/-- `move`, to a place that is no heap. When there is not enough place for the heap it is split, and
it may still be refused then. -/
inductive Move (s : State) (h dest : ℕ) (split : Option ℤ) : Bool → State → Prop where
  | same {moves : Bool} : (s.heap h).env = .room dest → Move s h dest split moves s
  | refused : (s.heap h).env ≠ .room dest → Move s h dest split false (s.update h (·.splitBy split))
  | appears {s' : State} : (s.heap h).env = .void → EnterEnv (s.moveObject h dest split) h s' →
    Move s h dest split true s'
  | moved {s₁ s' : State} : (s.heap h).env ≠ .room dest → (s.heap h).env ≠ .void →
    LeaveEnv (s.moveObject h dest split) h (s.heap h).env s₁ → EnterEnv s₁ h s' →
    Move s h dest split true s'

/-- Something that happens to a heap. -/
inductive Event where
  | create (h : ℕ) (uniqueId : String) (ownUniqueId : Option String)
  | setHeapSize (h : ℕ) (num : ℤ)
  | splitHeap (h : ℕ) (num : ℤ)
  | restoreHeap (h : ℕ)
  | move (h dest : ℕ) (split : Option ℤ) (moves : Bool)
  | forceHeapMerge (h : ℕ)
  | fire (h : ℕ) (alarm : Alarm)
  | setNoMerge (h : ℕ) (i : Bool)
  /-- `add_prop` -/
  | addProp (h : ℕ) (hide invis aboutToDestruct : Bool)

/-- What happens. The size that a heap is set to is an integer. -/
inductive Step (s : State) : Event → State → Prop where
  | create {h : ℕ} {uniqueId : String} {ownUniqueId : Option String} : h ∉ s.alive →
    Step s (.create h uniqueId ownUniqueId)
      (s.insert h ⟨.void, uniqueId, ownUniqueId, 0, 0, false, false, false, false, []⟩)
  | setHeapSize {h : ℕ} {num : ℤ} : h ∈ s.alive → num < 2 ^ 31 →
    Step s (.setHeapSize h num) (s.update h (·.setHeapSize num))
  | splitHeap {h : ℕ} {num : ℤ} : h ∈ s.alive →
    Step s (.splitHeap h num) (s.update h (·.splitHeap num))
  | restoreHeap {h : ℕ} : h ∈ s.alive → Step s (.restoreHeap h) (s.update h Heap.restoreHeap)
  | move {h dest : ℕ} {split : Option ℤ} {moves : Bool} {s' : State} : h ∈ s.alive →
    Move s h dest split moves s' → Step s (.move h dest split moves) s'
  | forceHeapMerge {h : ℕ} {s' : State} : h ∈ s.alive → ForceHeapMerge s h s' →
    Step s (.forceHeapMerge h) s'
  | removeObject {h : ℕ} {s' : State} : h ∈ s.alive → .removeObject ∈ (s.heap h).alarms →
    RemoveObject s h s' → Step s (.fire h .removeObject) s'
  | restore {h : ℕ} : h ∈ s.alive → .restoreHeap ∈ (s.heap h).alarms →
    Step s (.fire h .restoreHeap)
      (s.update h fun x ↦ { x.restoreHeap with alarms := x.alarms.erase .restoreHeap })
  | mayMerge {h : ℕ} : h ∈ s.alive → .mayMerge ∈ (s.heap h).alarms →
    Step s (.fire h .mayMerge)
      (s.update h fun x ↦ { x with noMerge := false, alarms := x.alarms.erase .mayMerge })
  | setNoMerge {h : ℕ} {i : Bool} : h ∈ s.alive →
    Step s (.setNoMerge h i) (s.update h (·.setNoMerge i))
  | addProp {h : ℕ} {hide invis aboutToDestruct : Bool} : h ∈ s.alive →
    Step s (.addProp h hide invis aboutToDestruct)
      (s.update h fun x ↦ { x with hide, invis, aboutToDestruct })

/-- There are no heaps. -/
def State.init : State :=
  ⟨fun _ ↦ ⟨.void, "", none, 0, 0, false, false, false, false, []⟩, ∅⟩

end Lpmud.Heaps
