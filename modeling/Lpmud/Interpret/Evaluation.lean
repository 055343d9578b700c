import Lpmud.Svalue
import Lpmud.Lib.Iteration

/-!
# Evaluation

The machine that runs LPC (`eval_instruction` of `interpret.c`), as far as calls, errors and the
limit on evaluations are concerned: the value stack, the control stack, the exception frames and the
contexts that are linked to them, and the functions of C that wait for a function of LPC.

What an instruction or an efun does with its arguments and with the world is a parameter. An efun is
a tree of what it does until it returns (`Efun`), so that each efun returns when the functions it
calls do. The values of local variables are part of the world; on the value stack they only take
their place.
-/

namespace Lpmud.Evaluation

open List

/-- `MAX_COST`. -/
abbrev MAX_COST : ℕ := 500000

/-- `EXTRA_COST`. -/
abbrev EXTRA_COST : ℕ := 1000

/-- `MAX_TRACE`. -/
abbrev MAX_TRACE : ℕ := 0x100

/-- `EVALUATOR_STACK_SIZE`. -/
abbrev EVALUATOR_STACK_SIZE : ℕ := 4000

/-- The string that is written in this way in C. -/
def text (s : String) : CString :=
  .ofBytes (s.toList.map fun c ↦ c.toNat.toUInt8)

/-- The text of an error as it is caught: all system errors get a `*` at the start. -/
def emsg (msg : CString) : Svalue :=
  .string (.ofBytes (42 :: msg.bytes))

/-! ### Programs -/

/-- What an efun does, from where it is now. -/
inductive Efun (W : Type) where
  /-- it returns -/
  | done (v : Svalue)
  /-- `error` -/
  | error (msg : CString)
  /-- `throw_error`, with what is thrown in `catch_value` -/
  | throw (v : Svalue)
  /-- it looks at the world and changes it -/
  | act (f : W → W) (next : W → Efun W)
  /-- `eval_cost++` -/
  | charge (next : Efun W)
  /-- `call_function`, with arguments that are pushed before -/
  | call (ob : Obj) (fun_ : ℕ) (args : List Svalue) (next : Svalue → Efun W)
  /-- the call of a destructor in `destruct_object` -/
  | destructor (ob : Obj) (fun_ : ℕ) (next : Efun W)
  /-- the call of the exit function in `free_ed_buffer` -/
  | exitEd (ob : Obj) (fun_ : ℕ) (next : Efun W)

/-- An instruction. -/
inductive Instr (W : Type) where
  /-- an instruction or an efun that takes so many arguments and leaves a value -/
  | efun (numArg : ℕ) (body : List Svalue → Efun W)
  | fPopValue
  | fJump (addr : ℕ)
  /-- a jump that is taken for some values -/
  | fBranch (taken : Svalue → Bool) (addr : ℕ)
  /-- a call of a function of the same object -/
  | fCall (fun_ : ℕ) (numArg : ℕ)
  | fReturn
  /-- `F_CATCH`, with the address behind the `catch` -/
  | fCatch (addr : ℕ)
  | fEndCatch

/-- A function of a program, as an object has it. Where it begins depends on how many arguments it
is called with. -/
structure Function where
  prog : ℕ
  inhOffset : ℕ
  numArg : ℕ
  numLocal : ℕ
  entry : ℕ → ℕ

/-- The programs of a game, with what the driver calls when there was an error. -/
structure Mudlib (W : Type) where
  code : ℕ → ℕ → Instr W
  function : Obj → ℕ → Function
  /-- the master object and `runtime_error` -/
  masterOb : Obj
  runtimeError : ℕ
  progName : ℕ → CString
  srccodePosition : ℕ → ℕ → CString

/-! ### The machine -/

/-- What `save_control_context` saves. -/
structure Registers where
  currentObject : Option Obj
  previousOb : Option Obj
  currentProg : Option ℕ
  pc : ℕ
  fp : ℕ
  inhOffset : ℕ
  deriving DecidableEq

/-- `struct control_stack`: where a call came from, and the function that was called. -/
structure ControlStack where
  saved : Registers
  numLocalVariables : ℕ
  externCall : Bool

/-- The functions of C that have an exception frame. -/
inductive Handler where
  | backend
  | fCatch
  | destructor
  | exitEd
  deriving DecidableEq

def Handler.eCatch : Handler → Bool
  | backend | destructor => false
  | fCatch | exitEd => true

/-- `struct gdexception`: a function of C, and how many functions waited before it. -/
structure Gdexception where
  handler : Handler
  depth : ℕ
  deriving DecidableEq

/-- `struct error_context_stack`. -/
structure ErrorContext where
  cstack : Registers
  exception : List Gdexception
  saveCsp : ℕ
  saveCommandGiver : Option Obj
  saveSp : ℕ

/-- A function of C that waits for a function of LPC. -/
inductive Activation (W : Type) where
  | efun (next : Svalue → Efun W)
  | destructor (next : Efun W)
  | exitEd (next : Efun W)
  /-- `F_CATCH` -/
  | fCatch
  /-- `error`, which calls the master object -/
  | runtimeError

/-- The machine. The value stack has its top first; `csp` and the fields `saveCsp` and `saveSp` are
numbers of elements. -/
structure Machine (W : Type) where
  stack : List Svalue
  controlStack : ℕ → ControlStack
  csp : ℕ
  regs : Registers
  commandGiver : Option Obj
  exception : List Gdexception
  ecsp : List ErrorContext
  catchLevel : ℤ
  catchValue : Svalue
  evalCost : ℕ
  numError : ℕ
  /-- the functions of C, from the innermost one on -/
  waiting : List (Activation W)
  world : W

/-- What is done next: an instruction, or some more of an efun. -/
inductive Task (W : Type) where
  | instruction
  | efun (e : Efun W)

/-- What comes of a step. -/
inductive Outcome (W : Type) where
  | next (m : Machine W) (t : Task W)
  /-- `error` -/
  | error (m : Machine W) (msg : CString)
  /-- `throw_error` -/
  | throw (m : Machine W) (v : Svalue)
  /-- the evaluation has ended -/
  | stop

variable {W : Type}

/-- The machine with its next task. -/
abbrev State (W : Type) : Type :=
  Machine W × Task W

/-- The state that comes of a step without an error. -/
def Outcome.state? : Outcome W → Option (State W)
  | .next m t => some (m, t)
  | _ => none

/-- The last `n` elements of a list, if it has more. -/
def cut {α : Type} (n : ℕ) (l : List α) : List α :=
  l.drop (l.length - n)

theorem cut_suffix {α : Type} (n : ℕ) (l : List α) : cut n l <:+ l :=
  drop_suffix _ _

theorem length_cut_le {α : Type} (n : ℕ) (l : List α) : (cut n l).length ≤ n := by
  rw [cut, length_drop]
  omega

theorem cut_cons {α : Type} {n : ℕ} (a : α) (l : List α) :
    cut n (a :: l) = if l.length < n then a :: l else cut n l := by
  rw [cut, cut, length_cons]
  split_ifs with h
  · rw [Nat.sub_eq_zero_of_le h, drop_zero]
  · rw [Nat.succ_sub (not_lt.1 h), drop_succ_cons]

theorem suffix_drop {α : Type} {l l' : List α} {n : ℕ} (h : l <:+ l')
    (hn : l.length + n ≤ l'.length) : l <:+ l'.drop n := by
  obtain ⟨front, rfl⟩ := h
  rw [length_append] at hn
  rw [drop_append_of_le_length (by omega)]
  exact suffix_append ..

theorem suffix_cut {α : Type} {l l' : List α} {n : ℕ} (h : l <:+ l') (hn : l.length ≤ n) :
    l <:+ cut n l' := by
  have hlen := h.length_le
  rcases le_total n l'.length with hle | hle
  · exact suffix_drop h (by omega)
  · rw [cut, Nat.sub_eq_zero_of_le hle]
    exact h

theorem cut_of_suffix {α : Type} {l l' : List α} (h : l <:+ l') : cut l.length l' = l := by
  obtain ⟨front, rfl⟩ := h
  rw [cut, length_append, Nat.add_sub_cancel]
  exact drop_left

namespace Machine

variable (m : Machine W)

/-- Takes values from the stack. -/
def pop (n : ℕ) : Option (List Svalue × Machine W) :=
  if n ≤ m.stack.length then some (m.stack.take n, { m with stack := m.stack.drop n })
  else none

theorem pop_eq {m m' : Machine W} {n : ℕ} {vs : List Svalue} (h : m.pop n = some (vs, m')) :
    m' = { m with stack := m.stack.drop n } := by
  rw [pop] at h
  split_ifs at h
  cases h
  rfl

/-- `push_svalue`, where there is still place for it. -/
def push (vs : List Svalue) (k : Machine W → Outcome W) : Outcome W :=
  if m.stack.length + vs.length ≤ EVALUATOR_STACK_SIZE then k { m with stack := vs ++ m.stack }
  else .error m (text "stack overflow\n")

/-- `push_pop_error_context (1)`, where `pc` is saved with another value. -/
def pushErrorContext (pc : ℕ) : Machine W :=
  { m with
    ecsp := ⟨{ m.regs with pc }, m.exception, m.csp, m.commandGiver, m.stack.length⟩ :: m.ecsp }

/-- `push_pop_error_context (0)`, and `push_pop_error_context (-1)` after an error. -/
def popErrorContext (error : Bool) : Option (Machine W) :=
  match m.ecsp with
  | [] => none
  | p :: ecsp =>
    let m' := { m with exception := p.exception, ecsp, regs := p.cstack }
    some <|
      if error then
        { m' with
          csp := p.saveCsp
          stack := cut p.saveSp m.stack
          commandGiver := p.saveCommandGiver }
      else m'

/-- `push_control_stack`, and `setup_new_frame` for a function that is called with arguments which
are on the stack. -/
def enter (f : Function) (numArg : ℕ) (ob previousOb : Option Obj) (externCall : Bool) :
    Outcome W :=
  if MAX_TRACE ≤ m.csp then .error m (text "Too deep recursion.\n")
  else
    let numLocalVariables := f.numArg + f.numLocal
    let frame := ⟨m.regs, numLocalVariables, externCall⟩
    let m' := { m with
      controlStack := Function.update m.controlStack m.csp frame
      csp := m.csp + 1
      stack := m.stack.drop (numArg - f.numArg) }
    m'.push (.replicate (numLocalVariables - min numArg f.numArg) (.number 0)) fun m ↦
      .next
        { m with
          regs :=
            { currentObject := ob
              previousOb
              currentProg := f.prog
              pc := f.entry (min numArg f.numArg)
              fp := m.stack.length - numLocalVariables
              inhOffset := f.inhOffset } }
        .instruction

/-- `call_function`, while a function of C waits. -/
def callFunction (P : Mudlib W) (ob : Obj) (fun_ : ℕ) (args : List Svalue) (a : Activation W) :
    Outcome W :=
  { m with waiting := a :: m.waiting }.push args.reverse fun m ↦
    m.enter (P.function ob fun_) args.length ob m.regs.currentObject true

/-! ### Errors -/

/-- What `F_CATCH` does after an error. -/
def caught : Option (State W) := do
  let m ← m.popErrorContext true
  let m := { m with catchLevel := m.catchLevel - 1 }
  if m.stack.length + 1 ≤ EVALUATOR_STACK_SIZE then
    some
      ({ m with
          stack := m.catchValue :: m.stack
          -- a limit that was exceeded cannot really be caught
          evalCost :=
            if m.evalCost = 0 then if m.catchLevel = 0 then MAX_COST - EXTRA_COST else MAX_COST
            else m.evalCost
          catchValue := .number 1 },
        .instruction)
  else some (m, .efun (.error (text "Stack overflow\n")))

/-- `longjmp` to the innermost exception frame. Nothing is known of what happens when the function
with this frame has returned. -/
def longjmp : Option (State W) :=
  match m.exception with
  | [] => none
  | frame :: _ =>
    match frame.handler, cut (frame.depth + 1) m.waiting with
    | .fCatch, .fCatch :: waiting => { m with waiting }.caught
    | .destructor, .destructor next :: waiting =>
      ({ m with waiting }.popErrorContext true).map fun m ↦ (m, .efun next)
    | .exitEd, .exitEd next :: waiting =>
      -- `clear_state`
      some ({ m with
        waiting
        stack := []
        csp := 0
        commandGiver := none
        regs := { m.regs with currentObject := none, previousOb := none, currentProg := none } },
        .efun next)
    | _, _ => none

/-- What `error` does when no `catch` catches the error: `reset_machine` and `runtime_error` in the
master object. -/
def callRuntimeError (P : Mudlib W) (msg : CString) : Outcome W :=
  let prog := m.regs.currentProg.getD 0
  { m with stack := [], csp := 0 }.callFunction P P.masterOb P.runtimeError
    [emsg msg, (m.regs.currentObject.map Svalue.object).getD (.number 0),
      .string (P.progName prog), .string (P.srccodePosition prog m.regs.pc)]
    .runtimeError

def error (P : Mudlib W) (msg : CString) : Option (State W) :=
  if m.exception.head?.any fun frame ↦ frame.handler.eCatch then
    { m with catchValue := emsg msg }.longjmp
  else
    let m := { m with numError := m.numError + 1 }
    if m.numError ≤ 1 then (m.callRuntimeError P msg).state?
    else { m with numError := m.numError - 1 }.longjmp

/-- `throw_error`, after `catch_value` was assigned. -/
def doThrowError (P : Mudlib W) (v : Svalue) : Option (State W) :=
  let m := { m with catchValue := v }
  if m.exception.head?.any fun frame ↦ frame.handler.eCatch then m.longjmp
  else
    match v with
    | .string s => m.error P s
    | _ => m.error P (text "Throw with no catch.\n")

/-! ### Steps -/

/-- A function of LPC has returned to the function of C that called it. -/
def returnTo (v : Svalue) : Outcome W :=
  match m.waiting with
  | .efun next :: waiting => .next { m with waiting } (.efun (next v))
  | .destructor next :: waiting =>
    match { m with waiting }.popErrorContext false with
    | some m => .next m (.efun next)
    | none => .stop
  | .exitEd next :: waiting => .next { m with waiting } (.efun next)
  | .runtimeError :: waiting =>
    match { m with waiting, numError := m.numError - 1 }.longjmp with
    | some (m, t) => .next m t
    | none => .stop
  | .fCatch :: _ | [] => .stop

/-- A step of an efun. -/
def stepEfun (P : Mudlib W) : Efun W → Outcome W
  | .done v => m.push [v] fun m ↦ .next m .instruction
  | .error msg => .error m msg
  | .throw v => .throw m v
  | .act f next => .next { m with world := f m.world } (.efun (next m.world))
  | .charge next => .next { m with evalCost := m.evalCost + 1 } (.efun next)
  | .call ob fun_ args next => m.callFunction P ob fun_ args (.efun next)
  | .destructor ob fun_ next =>
    let m' := m.pushErrorContext m.regs.pc
    { m' with exception := [⟨.destructor, m.waiting.length⟩] }.callFunction P ob fun_ []
      (.destructor next)
  | .exitEd ob fun_ next =>
    { m with exception := [⟨.exitEd, m.waiting.length⟩], evalCost := 0 }.callFunction P ob fun_ []
      (.exitEd next)

/-- What an instruction does, when `pc` is behind it. -/
def execute (P : Mudlib W) : Instr W → Outcome W
  | .efun numArg body =>
    match m.pop numArg with
    | some (args, m) => .next m (.efun (body args.reverse))
    | none => .stop
  | .fPopValue =>
    match m.pop 1 with
    | some (_, m) => .next m .instruction
    | none => .stop
  | .fJump addr => .next { m with regs := { m.regs with pc := addr } } .instruction
  | .fBranch taken addr =>
    match m.pop 1 with
    | some ([v], m) =>
      .next (if taken v then { m with regs := { m.regs with pc := addr } } else m) .instruction
    | _ => .stop
  | .fCall fun_ numArg =>
    match m.pop numArg, m.regs.currentObject with
    | some _, some ob =>
      m.enter (P.function ob fun_) numArg m.regs.currentObject m.regs.previousOb false
    | _, _ => .stop
  | .fReturn =>
    let frame := m.controlStack (m.csp - 1)
    match m.pop (frame.numLocalVariables + 1) with
    | some (v :: _, m) =>
      if m.csp = 0 then .stop
      else
        let m := { m with csp := m.csp - 1, regs := frame.saved }
        if frame.externCall then m.returnTo v
        else .next { m with stack := v :: m.stack } .instruction
    | _ => .stop
  | .fCatch addr =>
    let m' := m.pushErrorContext addr
    .next
      { m' with
        catchLevel := m.catchLevel + 1
        exception := ⟨.fCatch, m.waiting.length⟩ :: m.exception
        waiting := .fCatch :: m.waiting }
      .instruction
  | .fEndCatch =>
    match m.waiting with
    | .fCatch :: waiting =>
      match { m with waiting }.popErrorContext true with
      | some m =>
        { m with catchLevel := m.catchLevel - 1 }.push [.number 0] fun m ↦
          .next { m with catchValue := .number 1 } .instruction
      | none => .stop
    | _ => .stop

/-- The instruction at `pc`. -/
def instr? (P : Mudlib W) : Option (Instr W) :=
  m.regs.currentProg.map fun prog ↦ P.code prog m.regs.pc

/-- `pc++` and `eval_cost++`. -/
def fetch : Machine W :=
  { m with regs := { m.regs with pc := m.regs.pc + 1 }, evalCost := m.evalCost + 1 }

/-- What is done for the next task, before an error is handled. -/
def perform (P : Mudlib W) : Task W → Outcome W
  | .efun e => m.stepEfun P e
  | .instruction =>
    match m.instr? P with
    | none => .stop
    | some i =>
      if MAX_COST < m.fetch.evalCost then
        .error { m.fetch with evalCost := 0 } (text "Too long evaluation. Execution aborted.\n")
      else m.fetch.execute P i

end Machine

/-- How a step goes on. -/
def Outcome.handle (P : Mudlib W) : Outcome W → Option (State W)
  | .next m t => some (m, t)
  | .error m msg => m.error P msg
  | .throw m v => m.doThrowError P v
  | .stop => none

/-- A step of an evaluation. -/
def step (P : Mudlib W) (s : State W) : Option (State W) :=
  (s.1.perform P s.2).handle P

/-- A function of C that is called by the backend, with the frame for its errors. -/
def idle (w : W) : Machine W where
  stack := []
  controlStack _ := ⟨⟨none, none, none, 0, 0, 0⟩, 0, false⟩
  csp := 0
  regs := ⟨none, none, none, 0, 0, 0⟩
  commandGiver := none
  exception := [⟨.backend, 0⟩]
  ecsp := []
  catchLevel := 0
  catchValue := .number 1
  evalCost := 0
  numError := 0
  waiting := []
  world := w

/-- The call of a function by the backend. -/
def entry (P : Mudlib W) (w : W) (ob : Obj) (fun_ : ℕ) (args : List Svalue) : Option (State W) :=
  ((idle w).push args.reverse fun m ↦
    m.enter (P.function ob fun_) args.length ob none true).handle P

end Lpmud.Evaluation
