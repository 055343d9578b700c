import Lpmud.Containment.Object
import Lpmud.Lib.TransitionSystem

/-!
# Moving, loading, cloning and destructing

`move_object`, `load_object`, `clone_object` and `destruct_object` of `simulate.c` call LPC code in
the middle of their work, and that code may call them again, on any object. The driver is therefore
a machine with a stack: of the LPC functions that are running, and of the C functions that wait for
them. A `Frame` of a C function is one of the places where it goes on, with its local variables.

LPC code is not modelled: at any time it may call a function in another object, return anything,
raise an error, or call one of the four functions. What other efuns do to the members of an object
that are not about containment, such as `enable_commands` and `shadow`, it may do too. An `Event` is
the choice that is made, by LPC code, by the main loop or by what is found in a file; the C code
between two choices is the event `tick`.
-/

namespace Lpmud.Containment

/-- What an LPC function returns, as far as the driver looks at it. -/
inductive Ret where
  | number (n : ℤ)
  | object (ob : Obj)
  | other

/-- `ret && (ret->type != T_NUMBER || ret->u.number == 0)`, with none if there is no function. -/
def refuses : Option Ret → Bool
  | none => false
  | some (.number n) => n == 0
  | some _ => true

/-- An LPC function that is running, or a place where a C function goes on. -/
inductive Frame where
  /-- LPC code in `currentObject`, in this many `catch`. -/
  | lpc (currentObject : Obj) (catches : ℕ)
  /-- `error`, behind `M_RUNTIME_ERROR`. -/
  | raise
  /-- Behind a call of `encounter`: without such a function `init` is called in `ob`. -/
  | encounter (ob : Obj)
  /-- `f_move_object`, behind `M_VALID_MOVE`. -/
  | validMove (dest : Obj)
  /-- `f_move_object`, about to call `move_object`. -/
  | move (dest : Obj)
  /-- `move_object`, behind the meeting of `item` and `dest`. -/
  | moveEntered (item dest : Obj)
  /-- `move_object`, at the head of the loop over the inventory. -/
  | moveNext (item dest : Obj) (ob : Option Obj)
  /-- `move_object`, behind the meeting of `ob` and `item`. -/
  | moveSeen (item dest ob : Obj) (nextOb : Option Obj)
  /-- `move_object`, behind the meeting of `item` and the last `ob`. -/
  | moveMet (item dest : Obj) (nextOb : Option Obj)
  /-- `load_object`, before there is an object. -/
  | load (oldOb : Option Obj) (dontReset : Bool)
  /-- `load_object`, behind `M_LOADED_OBJECT`. -/
  | loaded (ob : Obj) (dontReset saveResident : Bool)
  /-- `load_object`, behind `create_object`. -/
  | loadCreated (ob : Obj)
  /-- `load_object`, behind `M_VALID_RESIDENT`. -/
  | validResident (ob : Obj)
  /-- `clone_object`, waiting for `load_object`. -/
  | clone
  /-- `clone_object`, with the object to clone. -/
  | cloning (ob : Option Obj)
  /-- `clone_object`, behind `M_CLONED_OBJECT`. -/
  | cloned (ob newOb : Obj)
  /-- A call of `destruct_object`. -/
  | destruct (ob : Option Obj)
  /-- `destruct_object`, waiting for `load_object`. -/
  | reload (ob : Obj)
  /-- `destruct_object`, behind `load_object`. -/
  | reloaded (ob : Obj) (newOb : Option Obj)
  /-- `destruct_object`, behind `master_ob_loaded`. -/
  | recreate (ob newOb : Obj)
  /-- `destruct_object`, behind `recreate_object`. -/
  | retire (newOb : Obj)
  /-- `destruct_object`, behind `M_DESTRUCTED_OBJECT`. -/
  | destructed (ob : Obj)
  /-- `destruct_object`, at the head of the loop over the shadows. -/
  | shadows (ob : Obj) (ob2 : Option Obj)
  /-- `destruct_object`, behind the destruction of a shadow. -/
  | shadowGone (ob : Obj) (ob2 : Option Obj)
  /-- `destruct_object`, at the head of the loop over the inventory. -/
  | empty (ob : Obj)
  /-- `destruct_object`, behind `M_DESTRUCT_ENVIRONMENT_OF`. -/
  | destructEnvironmentOf (ob sob : Obj)
  /-- `destruct_object`, at the end of the loop over the inventory. -/
  | emptied (ob : Obj)
  /-- `destruct_object`, behind the loop over the inventory. -/
  | disconnect (ob : Obj)
  /-- `remove_interactive`, behind `save_ed_buffer`. -/
  | removeInteractive (ob : Obj)
  /-- `destruct_object`, behind `remove_interactive`. -/
  | disconnected (ob : Obj)
  /-- `destruct_object`, about to take the object out of its environment. -/
  | leave (ob : Obj)
  /-- `destruct_object`, at the head of the loop over the destructors. -/
  | dtors (ob : Obj) (i : ℕ)
  /-- `destruct_object`, behind a destructor that has returned. -/
  | dtorReturned (ob : Obj) (i : ℕ)
  /-- `destruct_object`, behind `M_GET_VBFC_OBJECT`. -/
  | getVbfcObject

/-- How the driver may come to an end. -/
inductive Halt where
  | fatal (message : String)
  /-- A loop over objects that does not end. -/
  | endless
  /-- An access through a null pointer. -/
  | null
  deriving DecidableEq

/-- The driver. -/
structure State where
  heap : Heap
  autoOb : Option Obj
  simulEfunOb : Option Obj
  masterOb : Option Obj
  vbfcObject : Option Obj
  catchValue : Option String
  stack : List Frame
  halted : Option Halt

namespace State

/-- The driver when it starts. -/
def init : State where
  heap := ⟨fun _ ↦ .null ⟨[], false, false⟩, []⟩
  autoOb := none
  simulEfunOb := none
  masterOb := none
  vbfcObject := none
  catchValue := none
  stack := []
  halted := none

def push (f : Frame) (s : State) : State := { s with stack := f :: s.stack }

def halt (why : Halt) (s : State) : State := { s with halted := some why }

def modify (ob : Obj) (f : Object → Object) (s : State) : State :=
  { s with heap := s.heap.modify ob f }

@[simp] theorem heap_push (f : Frame) (s : State) : (s.push f).heap = s.heap := rfl

@[simp] theorem heap_modify (ob : Obj) (f : Object → Object) (s : State) :
    (s.modify ob f).heap = s.heap.modify ob f := rfl

def setResident (ob : Obj) (resident : Bool) (s : State) : State :=
  s.modify ob fun o ↦ { o with prog := { o.prog with resident := resident } }

end State

/-! ### Errors -/

/-- `longjmp` to the innermost `exception`: a `catch`, a destructor called by `destruct_object`, or
the main loop. -/
def unwind : List Frame → List Frame
  | .lpc ob (catches + 1) :: k => .lpc ob catches :: k
  -- `destruct_object` does not look at `O_DESTRUCTED` when it comes back this way.
  | .dtorReturned ob i :: k => .dtors ob i :: k
  | _ :: k => unwind k
  | [] => []

/-- Whether `error` jumps at once: to a `catch`, or because `M_RUNTIME_ERROR` is running. -/
def jumps : List Frame → Bool
  | .lpc _ (_ + 1) :: _ => true
  | .raise :: _ => true
  | .dtorReturned _ _ :: _ => false
  | _ :: k => jumps k
  | [] => false

namespace State

/-- What becomes of the value that `load_object` returns. -/
def loadReturn (v : Option Obj) (s : State) : State :=
  match s.stack with
  | .clone :: k => { s with stack := .cloning v :: k }
  | .reload ob :: k => { s with stack := .reloaded ob v :: k }
  | _ => s

/-- What becomes of the value that an LPC function returns. -/
def deliver (v : Option Ret) (s : State) : State :=
  match s.stack with
  | .raise :: k => { s with stack := unwind k }
  | .encounter ob :: k => { s with stack := if v.isNone then .lpc ob 0 :: k else k }
  | .validMove dest :: k => { s with stack := if refuses v then k else .move dest :: k }
  | .validResident ob :: k =>
    let s := { s with stack := k }
    (if refuses v then s.setResident ob false else s).loadReturn (some ob)
  | .getVbfcObject :: k =>
    match v with
    | some (.object ob) => { s with stack := k, vbfcObject := some ob }
    | _ => { s with stack := k }
  | _ => s

/-- `apply_master_ob`. -/
def applyMaster (s : State) : State :=
  match s.masterOb with
  | none => s.deliver none
  | some m => s.push (.lpc m 0)

/-- `error`, without `longjmp` where an LPC function is called first. -/
def error (message : String) (s : State) : State :=
  if jumps s.stack then { s with stack := unwind s.stack, catchValue := some ("*" ++ message) }
  else (s.push .raise).applyMaster

def createObject (ob : Obj) (s : State) : State :=
  if (s.heap.obj ob).created then s
  else (s.modify ob fun o ↦ { o with created := true }).push (.lpc ob 0)

/-! ### Moving -/

/-- `encounter` is called in `living`, or else `init` in `other`. -/
def meet (living other : Obj) (s : State) : State :=
  (s.push (.encounter other)).push (.lpc living 0)

/-- The second half of `move_object`: the object is put into `dest`. -/
def moveInto (item dest : Obj) (s : State) : State :=
  let s := { s with heap := s.heap.link item dest }
  if (s.heap.obj item).enableCommands then (s.push (.moveEntered item dest)).meet item dest
  else s.push (.moveNext item dest (s.heap.contains dest))

def moveObject (item dest : Obj) (s : State) : State :=
  if (s.heap.obj item).destructed then s
  else
    match isInside s.heap item s.heap.bound (some dest) with
    | none => s.halt .endless
    | some true => s.error "Can't move object inside itself.\n"
    | some false =>
      if (s.heap.obj item).shadowing.isSome then
        s.error "Can't move an object that is shadowing.\n"
      else
        match s.heap.super item with
        | none => s.moveInto item dest
        | some env =>
          match removeInv item s.heap.bound s.heap (.contains env) false with
          | none => s.halt .endless
          | some (_, false) => s.halt (.fatal "Failed to find object in super list\n")
          | some (h, true) => { s with heap := h }.moveInto item dest

/-- The end of the round for `ob` in the loop of `move_object`. -/
def moveMeet (item dest ob : Obj) (nextOb : Option Obj) (s : State) : State :=
  if (s.heap.obj item).destructed then
    s.error "The object to be moved was destructed at call of init()\n"
  else if (s.heap.obj item).enableCommands then
    (s.push (.moveMet item dest nextOb)).meet item ob
  else s.push (.moveNext item dest nextOb)

/-- One round of the loop of `move_object`. -/
def moveRound (item dest : Obj) (s : State) : Option Obj → State
  | none =>
    if (s.heap.obj dest).destructed then
      s.error "The destination to move to was destructed at call of init()\n"
    else if (s.heap.obj dest).enableCommands then s.meet dest item
    else s
  | some ob =>
    let nextOb := s.heap.nextInv ob
    if ob = item then s.push (.moveNext item dest nextOb)
    else if (s.heap.obj ob).destructed then
      s.error "An object was destructed at call of init()\n"
    else if (s.heap.obj ob).enableCommands then
      (s.push (.moveSeen item dest ob nextOb)).meet ob item
    else s.moveMeet item dest ob nextOb

/-! ### Loading and cloning -/

/-- `load_object`, behind `M_LOADED_OBJECT`. -/
def finishLoad (ob : Obj) (dontReset saveResident : Bool) (s : State) : State :=
  let o := s.heap.obj ob
  let s := if o.destructed then s else s.setResident ob (o.prog.resident || saveResident)
  let s := s.push (.loadCreated ob)
  if !o.destructed && !dontReset then s.createObject ob else s

/-- `load_object`, behind `create_object`. -/
def returnLoaded (ob : Obj) (s : State) : State :=
  if (s.heap.obj ob).destructed then s.loadReturn none
  else if s.masterOb.isSome && (s.heap.obj ob).prog.resident then
    (s.push (.validResident ob)).applyMaster
  else s.loadReturn (some ob)

/-- Whether `clone_object` refuses to clone the object. -/
def badClone (s : State) : Option Obj → Bool
  | none => true
  | some ob =>
    let o := s.heap.obj ob
    o.super.isSome || o.clone || o.prog.noClone

/-! ### Destructing -/

/-- `master_ob`, `auto_ob` and `simul_efun_ob` stay loaded. -/
def isSpecial (s : State) (ob : Obj) : Bool :=
  some ob == s.autoOb || some ob == s.masterOb || some ob == s.simulEfunOb

/-- `destruct_object` calls `M_DESTRUCTED_OBJECT`. -/
def announce (ob : Obj) (s : State) : State :=
  (s.push (.destructed ob)).applyMaster

/-- `destruct_object`, up to the first call. -/
def destructObject (s : State) : Option Obj → State
  | none => s
  | some ob =>
    let o := s.heap.obj ob
    if o.destructed then s
    else if (!o.clone && o.prog.resident) || s.isSpecial ob then
      (s.push (.reload ob)).push (.load (some ob) true)
    else s.announce ob

/-- `stack_swap_objects`, for one LPC function. -/
def swapFrame (ob₁ ob₂ : Obj) : Frame → Frame
  | .lpc ob catches => .lpc (if ob = ob₁ then ob₂ else if ob = ob₂ then ob₁ else ob) catches
  | f => f

def swapObjects (ob₁ ob₂ : Obj) (s : State) : State :=
  let o₁ := s.heap.obj ob₁
  let o₂ := s.heap.obj ob₂
  let s := s.modify ob₁ fun o ↦ { o with prog := o₂.prog, created := o₂.created }
  let s := s.modify ob₂ fun o ↦ { o with prog := o₁.prog, created := o₁.created }
  { s with stack := s.stack.map (swapFrame ob₁ ob₂) }

/-- `destruct_object`, behind `load_object`. -/
def replaceObject (ob : Obj) (s : State) : Option Obj → State
  | none => s.error "Can not compile the new %s, aborting destruction of the old.\n"
  | some newOb =>
    let s := if s.isSpecial ob then s.setResident ob true else s
    let s := (s.swapObjects ob newOb).push (.recreate ob newOb)
    if some ob = s.masterOb then s.applyMaster else s

def recreateObject (ob newOb : Obj) (s : State) : State :=
  if (s.heap.obj newOb).created then
    ((s.modify ob fun o ↦ { o with created := true }).push (.retire newOb)).push (.lpc ob 0)
  else s.push (.retire newOb)

/-- `destruct_object` takes the object out of the chain of shadows. -/
def unshadow (ob : Obj) (s : State) : State :=
  let o := s.heap.obj ob
  let s := match o.shadowing with
    | none => s
    | some victim => s.modify victim fun p ↦ { p with shadowed := o.shadowed }
  let s := match o.shadowed with
    | none => s
    | some shadow => s.modify shadow fun p ↦ { p with shadowing := o.shadowing }
  (s.modify ob fun p ↦ { p with shadowing := none, shadowed := none }).push (.empty ob)

/-- One round of the loop over the shadows. The shadow behind `sob` is destructed. -/
def shadowRound (ob : Obj) (s : State) : Option Obj → State
  | none => s.unshadow ob
  | some sob =>
    let ob2 := (s.heap.obj sob).shadowed
    let s := s.modify sob fun p ↦ { p with shadowing := none, shadowed := none }
    (s.push (.shadowGone ob ob2)).push (.destruct ob2)

/-- The last part of `destruct_object`. The object is taken out of the list of all objects, which
goes through `prev_all`; that is null if the object has been destructed already. -/
def finish (ob : Obj) (s : State) : State :=
  if (s.heap.obj ob).destructed then s.halt .null
  else
    let s := { s with heap := s.heap.clear ob }
    if s.vbfcObject = some ob then
      ({ s with vbfcObject := none }.push .getVbfcObject).applyMaster
    else s

/-- The loop over the destructors, and what follows it. -/
def callDtors (ob : Obj) : ℕ → State → State
  | 0, s => s.finish ob
  | i + 1, s =>
    if (s.heap.obj ob).prog.inherit.getD i false then
      (s.push (.dtorReturned ob i)).push (.lpc ob 0)
    else callDtors ob i s

/-- The destructors are called if the object has been created. -/
def callAllDtors (ob : Obj) (s : State) : State :=
  if (s.heap.obj ob).created then s.callDtors ob (s.heap.obj ob).prog.inherit.length
  else s.finish ob

/-- `destruct_object` takes the object out of its environment. -/
def leave (ob : Obj) (s : State) : State :=
  match s.heap.super ob with
  | none => s.callAllDtors ob
  | some env =>
    match removeInv ob s.heap.bound s.heap (.contains env) false with
    | none => s.halt .endless
    | some (h, _) => { s with heap := h }.callAllDtors ob

/-! ### Going on -/

/-- The object that the innermost LPC function runs in. -/
def currentObject : List Frame → Option Obj
  | .lpc ob _ :: _ => some ob
  | _ :: k => currentObject k
  | [] => none

/-- The C code from the place `f` to the next call. The places where a value is waited for, and the
choices of LPC code and of `load_object`, are not passed this way. -/
def resume (s : State) : Frame → Option State
  | .move dest =>
    match currentObject s.stack with
    | none => none
    | some item => some (s.moveObject item dest)
  | .moveEntered item dest =>
    some <| if (s.heap.obj dest).destructed || s.heap.super item != some dest then s
      else s.push (.moveNext item dest (s.heap.contains dest))
  | .moveNext item dest ob => some (s.moveRound item dest ob)
  | .moveSeen item dest ob nextOb =>
    some <| if s.heap.super item != some dest then s else s.moveMeet item dest ob nextOb
  | .moveMet item dest nextOb =>
    some <| if s.heap.super item != some dest then s else s.push (.moveNext item dest nextOb)
  | .loaded ob dontReset saveResident => some (s.finishLoad ob dontReset saveResident)
  | .loadCreated ob => some (s.returnLoaded ob)
  | .cloning ob =>
    if s.badClone ob then
      some (s.error
        "Cloning a bad object! (No Master, Master in environment or Master is clone)\n")
    else none
  | .cloned ob newOb =>
    some <| if (s.heap.obj newOb).destructed || (s.heap.obj ob).created then s
      else s.createObject newOb
  | .destruct ob => some (s.destructObject ob)
  | .reloaded ob newOb => some (s.replaceObject ob newOb)
  | .recreate ob newOb => some (s.recreateObject ob newOb)
  | .retire newOb => some ((s.setResident newOb false).announce newOb)
  | .destructed ob =>
    let o := s.heap.obj ob
    some <| if o.destructed then s
      else if o.shadowed.isSome && o.shadowing.isNone then s.push (.shadows ob o.shadowed)
      else s.unshadow ob
  | .shadows ob ob2 => some (s.shadowRound ob ob2)
  | .shadowGone ob ob2 =>
    some <| if (s.heap.obj ob).destructed then s else s.push (.shadows ob ob2)
  | .empty ob =>
    some <| match s.heap.contains ob with
      | none => s.push (.disconnect ob)
      | some sob => (s.push (.destructEnvironmentOf ob sob)).applyMaster
  | .destructEnvironmentOf ob sob =>
    let s := s.push (.emptied ob)
    some <| if s.heap.contains ob = some sob then s.push (.destruct (some sob)) else s
  | .emptied ob => some <| if (s.heap.obj ob).destructed then s else s.push (.empty ob)
  | .disconnect ob =>
    some <| if (s.heap.obj ob).interactive then (s.push (.removeInteractive ob)).applyMaster
      else s.push (.leave ob)
  | .removeInteractive ob =>
    some <| if (s.heap.obj ob).interactive then
        ((s.modify ob fun o ↦ { o with interactive := false }).push (.disconnected ob)).applyMaster
      else s.push (.disconnected ob)
  | .disconnected ob => some <| if (s.heap.obj ob).destructed then s else s.push (.leave ob)
  | .leave ob => some (s.leave ob)
  | .dtors ob i => some (s.callDtors ob i)
  | .dtorReturned ob i =>
    some <| if (s.heap.obj ob).destructed then s else s.callDtors ob i
  | _ => none

end State

/-! ### Steps -/

/-- The objects that `main` keeps. -/
inductive Role where
  | auto
  | simulEfun
  | master
  | vbfc

/-- The choices that are made. -/
inductive Event where
  /-- The C code goes on. -/
  | tick
  /-- LPC code or the main loop calls a function in `ob`. -/
  | call (ob : Obj)
  /-- An LPC function returns. -/
  | ret (v : Option Ret)
  | enterCatch
  | leaveCatch
  /-- LPC code raises an error. -/
  | raise (message : String)
  /-- Another efun changes members of `ob` to those of `o`, but for the three pointers. -/
  | assign (ob : Obj) (o : Object)
  /-- `f_move_object`. -/
  | moveObject (dest : Obj)
  /-- `f_destruct`. -/
  | destruct
  /-- The debug command `destruct`. -/
  | debugDestruct (ob : Obj)
  /-- `f_clone_object`; the object may have to be loaded. -/
  | cloneObject (found : Option Obj)
  | loadObject (dontReset : Bool)
  /-- `load_object` finds an object that was left behind, and destructs it. -/
  | invalid (ob : Obj)
  /-- `load_object` loads an inherited file first. -/
  | inherit
  /-- The compiler calls the master. -/
  | compileHook
  | loadError (message : String)
  /-- The file does not compile. -/
  | noProgram
  /-- There is a new object, for `load_object` or `clone_object`. -/
  | allocate (ob : Obj) (prog : Program)
  /-- `main` keeps an object that it has loaded. -/
  | install (role : Role) (ob : Obj)
  /-- The last reference to a destructed object goes. -/
  | free (ob : Obj)

/-- The objects that a frame knows. -/
def Frame.refs : Frame → List Obj
  | .lpc ob _ | .encounter ob | .validMove ob | .move ob | .loaded ob _ _ | .loadCreated ob
  | .validResident ob | .reload ob | .retire ob | .destructed ob | .empty ob | .emptied ob
  | .disconnect ob | .removeInteractive ob | .disconnected ob | .leave ob | .dtors ob _
  | .dtorReturned ob _ => [ob]
  | .moveEntered item dest => [item, dest]
  | .moveNext item dest ob => item :: dest :: ob.toList
  | .moveSeen item dest ob nextOb => item :: dest :: ob :: nextOb.toList
  | .moveMet item dest nextOb => item :: dest :: nextOb.toList
  | .load ob _ | .cloning ob | .destruct ob => ob.toList
  | .cloned ob newOb | .recreate ob newOb | .destructEnvironmentOf ob newOb => [ob, newOb]
  | .reloaded ob ob2 | .shadows ob ob2 | .shadowGone ob ob2 => ob :: ob2.toList
  | .raise | .clone | .getVbfcObject => []

namespace State

/-- Whether it is the turn of LPC code or of the main loop. -/
def atLpc (s : State) : Bool :=
  match s.stack with
  | [] | .lpc _ _ :: _ => true
  | _ => false

/-- Whether an object is there and not destructed. -/
def isLive (s : State) (ob : Obj) : Bool :=
  decide (ob ∈ s.heap.allocated) && !(s.heap.obj ob).destructed

/-- The objects that the driver itself refers to. -/
def roots (s : State) : List Obj :=
  s.autoOb.toList ++ s.simulEfunOb.toList ++ s.masterOb.toList ++ s.vbfcObject.toList

/-- Whether a shadow pointer is null or leads to an object. -/
def isObject (s : State) (p : Option Obj) : Bool :=
  p.toList.all fun ob ↦ decide (ob ∈ s.heap.allocated)

/-- Whether an object may be referred to. An object that is destructed while a C function knows it
stays in `obj_list_destruct` until the main loop. -/
def isReferred (s : State) (ob : Obj) : Bool :=
  decide (ob ∈ s.roots) || s.stack.any (fun f ↦ decide (ob ∈ f.refs)) ||
    s.heap.allocated.any fun a ↦
      some ob == (s.heap.obj a).shadowing || some ob == (s.heap.obj a).shadowed

/-- The members of `o`, except those that say where an object is and what it is. -/
def assign (ob : Obj) (o : Object) (s : State) : State :=
  s.modify ob fun p ↦ { p with
    enableCommands := o.enableCommands
    created := o.created
    interactive := o.interactive
    shadowing := o.shadowing
    shadowed := o.shadowed
    prog := o.prog }

/-- `load_object` and `clone_object` have a new object. -/
def allocate (ob : Obj) (prog : Program) (s : State) : Option State :=
  if ob ∈ s.heap.allocated then none
  else
    match s.stack with
    | .load _ dontReset :: k =>
      let s := { s with stack := .loaded ob dontReset prog.resident :: k }
      if s.masterOb.isSome then
        some { s with heap := s.heap.alloc ob (.null { prog with resident := false }) }.applyMaster
      else some { s with heap := s.heap.alloc ob (.null prog) }
    | .cloning (some old) :: k =>
      if s.badClone (some old) then none
      else
        let o := { Object.null (s.heap.obj old).prog with clone := true }
        some { s with heap := s.heap.alloc ob o, stack := .cloned old ob :: k }.applyMaster
    | _ => none

/-- `main` keeps an object. -/
def install (ob : Obj) (s : State) : Role → State
  | .auto => { s with autoOb := some ob }.setResident ob true
  | .simulEfun => { s with simulEfunOb := some ob }
  | .master => { s with masterOb := some ob }.setResident ob true
  | .vbfc => { s with vbfcObject := some ob }

/-- Whether LPC code can return the value: an object that is there. -/
def canReturn (s : State) : Option Ret → Bool
  | some (.object ob) => s.isLive ob
  | _ => true

/-- What a choice leads to. -/
def act (s : State) : Event → Option State
  | .tick =>
    match s.stack with
    | f :: k => { s with stack := k }.resume f
    | _ => none
  | .call ob => if s.atLpc && s.isLive ob then some (s.push (.lpc ob 0)) else none
  | .ret v =>
    match s.stack with
    | .lpc _ _ :: k => if s.canReturn v then some ({ s with stack := k }.deliver v) else none
    | _ => none
  | .enterCatch =>
    match s.stack with
    | .lpc ob catches :: k => some { s with stack := .lpc ob (catches + 1) :: k }
    | _ => none
  | .leaveCatch =>
    match s.stack with
    | .lpc ob (catches + 1) :: k => some { s with stack := .lpc ob catches :: k }
    | _ => none
  | .raise message =>
    match s.stack with
    | .lpc _ _ :: _ => some (s.error message)
    | _ => none
  | .assign ob o =>
    if s.atLpc && s.isLive ob && s.isObject o.shadowing && s.isObject o.shadowed then
      some (s.assign ob o)
    else none
  | .moveObject dest =>
    match s.stack with
    | .lpc _ _ :: _ => if s.isLive dest then some (s.push (.validMove dest)).applyMaster else none
    | _ => none
  | .destruct =>
    match s.stack with
    | .lpc ob _ :: _ => some (s.push (.destruct (some ob)))
    | _ => none
  | .debugDestruct ob =>
    if s.atLpc && s.isLive ob then some (s.push (.destruct (some ob))) else none
  | .cloneObject found =>
    match found with
    | none => if s.atLpc then some ((s.push .clone).push (.load none true)) else none
    | some ob => if s.atLpc && s.isLive ob then some (s.push (.cloning (some ob))) else none
  | .loadObject dontReset => if s.atLpc then some (s.push (.load none dontReset)) else none
  | .invalid ob =>
    match s.stack with
    | .load (some _) _ :: _ =>
      if s.isLive ob then some ((s.setResident ob false).push (.destruct (some ob))) else none
    | _ => none
  | .inherit =>
    match s.stack with
    | .load _ _ :: _ => some (s.push (.load none true))
    | _ => none
  | .compileHook =>
    match s.stack with
    | .load _ _ :: _ => some s.applyMaster
    | _ => none
  | .loadError message =>
    match s.stack with
    | .load _ _ :: k => some ({ s with stack := k }.error message)
    | _ => none
  | .noProgram =>
    match s.stack with
    | .load none _ :: k => some ({ s with stack := k }.error "Error in loading object\n")
    | .load (some _) _ :: k => some ({ s with stack := k }.loadReturn none)
    | _ => none
  | .allocate ob prog => s.allocate ob prog
  | .install role ob => if s.stack.isEmpty && s.isLive ob then some (s.install ob role) else none
  | .free ob =>
    if s.atLpc && decide (ob ∈ s.heap.allocated) && (s.heap.obj ob).destructed &&
        !s.isReferred ob then
      some { s with heap := s.heap.free ob }
    else none

/-- One step of the driver. -/
def step (s : State) (e : Event) : Option State :=
  if s.halted.isSome then none else s.act e

end State

/-- The driver as a transition system. -/
def driver : TransitionSystem State Event where
  Init s := s = .init
  Step s e s' := s.step e = some s'

end Lpmud.Containment
