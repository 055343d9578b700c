import Lpmud.Lib.TransitionSystem
import Lpmud.Lib.WaitingLine
import Lpmud.Svalue
import Mathlib.Data.List.ReduceOption

/-!
# The login queue

`queue.c`: who wants to log in while the game is full waits in the array `q`. The driver tells the
master when a connection is gone (`remove_interactive`), and the master calls `dequeue`.

`enqueue`, `dequeue` and `set_vip` call objects of the queue: `remove_object` ends the connection of
the object, and in `advance(0)` the object hands its connection on to a player, or fails and ends
it. Until such a call returns, other connections may end too, and every end calls `dequeue` again.
So an operation that has called out is suspended as a `Frame`, with its local variables, and other
events come before the one that resumes it (`ret`). `advance` of another number only writes, as
`catch_tell` does.

An entry of `q` is `none` where the code has put a 0. The state keeps a history of what happened to
the queue, which no operation reads. The alarm that calls `inform_queue` is left out; that call is
an event. So are the texts that are written.
-/

namespace Lpmud.LoginQueue

def MAX_PLAY : ℤ := 80

def WIZARDS_PER_MORTAL_SLOT : ℕ := 3

/-- What `queue.c` asks of other objects. -/
structure Mud where
  /-- `MASTER_OB(ob) == LOGIN_OBJECT`. -/
  isLogin : Obj → Bool
  /-- `query_pl_name` of a login object. -/
  plName : Obj → CString
  /-- `query_wiz_level` is not 0. -/
  wizLevel : Obj → Bool
  /-- `SECURITY`. -/
  security : Obj

/-- An operation that waits for an object it has called. -/
inductive Frame where
  /-- `enqueue` waits for `q[pos]->remove_object()`. -/
  | enqueue (pos : ℕ) (ob : Obj)
  /-- `dequeue` waits for `advance(0)` of `ob`, which was `q[index]`. -/
  | dequeue (index size : ℕ) (free : ℤ) (ob : Obj)
  /-- `set_vip` waits for `advance(0)` of `ob`, which was `q[pos]`. -/
  | setVip (pos : ℕ) (ob : Obj)
  deriving DecidableEq

/-- The queue, the interactive objects of the driver, the operations that are suspended, from the
innermost, and the history. -/
structure State where
  q : List (Option Obj) := []
  vip : List CString := []
  users : List Obj := []
  calls : List Frame := []
  log : List (Happening Obj) := []
  deriving DecidableEq

namespace State

variable (m : Mud) (s : State)

def interactive (ob : Option Obj) : Bool :=
  ob.any (· ∈ s.users)

/-- The history goes on. -/
def note (h : Happening Obj) : State :=
  { s with log := s.log ++ [h] }

/-- An error in LPC ends everything that is suspended. -/
def error : State :=
  { s with calls := [] }

def validateQueue : State :=
  { s with q := (s.q.filter Option.isSome).filter s.interactive }

/-- `member_array(name, q->query_pl_name())`. -/
def memberArray (name : CString) : Option ℕ :=
  (s.q.map (Option.map m.plName)).idxOf? (some name)

/-- `slots_free`, called for `previous`. -/
def slotsFree (previous : Obj) : ℤ :=
  let list := s.users.filter fun ob ↦ ob ≠ previous ∧ some ob ∉ s.q
  let wizards := (list.filter m.wizLevel).length
  MAX_PLAY - (list.length - wizards +
    ((wizards + WIZARDS_PER_MORTAL_SLOT - 1) / WIZARDS_PER_MORTAL_SLOT : ℕ))

/-! ### `dequeue` -/

/-- The loop of `dequeue`, with `left` passes to go, and what follows it. -/
def advanceLoop (size : ℕ) (free : ℤ) : ℕ → State → State
  | 0, s => { s with q := if size > free then s.q.drop free.toNat else [] }
  | left + 1, s =>
    let index := size - (left + 1)
    match s.q[index]? with
    | none => s.error
    | some none => advanceLoop size free left s
    | some (some ob) =>
      if index < free then
        { s.note (.letIn ob) with calls := .dequeue index size free ob :: s.calls }
      else advanceLoop size free left (s.note (.told ob (index - free + 1)))

/-- `dequeue`, called by `previous`. -/
def dequeue (previous ob : Obj) : State :=
  let s := s.validateQueue
  if some ob ∈ s.q then { s.note (.leave ob) with q := s.q.filter (· ≠ some ob) }
  else
    let free := s.slotsFree m previous
    if free > 0 then
      (s.note (.opens free.toNat)).advanceLoop s.q.length free s.q.length
    else s

/-- `remove_interactive` of the driver, and of the master. What the master does next does not
concern the queue. -/
def removeInteractive (ob : Obj) : State :=
  ({ s.note (.leave ob) with users := s.users.erase ob }).dequeue m m.security ob

/-! ### The other operations -/

def enqueue (ob : Obj) : State :=
  if !m.isLogin ob then s
  else
    let s := s.validateQueue
    match s.memberArray m (m.plName ob) with
    | some pos =>
      match s.q[pos]? with
      | some (some old) =>
        ({ s.note (.takeOver old ob) with
          calls := .enqueue pos ob :: s.calls }).removeInteractive m old
      | _ => s.error
    | none =>
      let s := s.validateQueue
      let q := s.q ++ [some ob]
      { s.note (.arrive ob q.length) with q := q }

/-- `set_vip`, where `arch` says that the arch soul calls it. -/
def setVip (arch : Bool) (v : CString) : State :=
  if !arch then s
  else if v ∈ s.vip then s
  else
    let s := s.validateQueue
    match s.memberArray m v with
    | some pos =>
      match s.q[pos]? with
      | some (some ob) => { s.note (.favour ob) with calls := .setVip pos ob :: s.calls }
      | _ => s.error
    | none => { s with vip := s.vip ++ [v] }

def unvip (arch : Bool) (v : CString) : State :=
  if !arch then s else { s with vip := s.vip.filter (· ≠ v) }

def informQueue : State :=
  let s := s.validateQueue
  { s with
    log := s.log ++ s.q.zipIdx.filterMap fun (ob, index) ↦ ob.map fun ob ↦ .told ob (index + 1) }

def queryPosition (name : CString) : ℤ :=
  match s.validateQueue.memberArray m name with
  | some pos => pos
  | none => -1

/-- The innermost of the calls returns. -/
def ret : Option State :=
  match s.calls with
  | [] => none
  | .enqueue pos ob :: calls =>
    some (if pos < s.q.length then
      { s.note (.told ob (pos + 1)) with calls := calls, q := s.q.set pos (some ob) }
    else s.error)
  | .dequeue index size free _ :: calls =>
    some (({ s with calls := calls }).advanceLoop size free (size - (index + 1)))
  | .setVip pos _ :: calls =>
    some (if pos < s.q.length then { s with calls := calls, q := s.q.set pos none } else s.error)

/-- The object whose `advance(0)` is running. -/
def called : Option Obj :=
  match s.calls with
  | .dequeue _ _ _ ob :: _ | .setVip _ ob :: _ => some ob
  | _ => none

end State

/-! ### Runs -/

/-- What happens between the operations, or while one is suspended. -/
inductive Event where
  /-- Somebody connects, and gets a new object. -/
  | connect (ob : Obj)
  /-- `exec(ob, obfrom)`. -/
  | exec (ob obfrom : Obj)
  /-- The connection of `ob` ends. -/
  | close (ob : Obj)
  /-- The master calls `dequeue` of an object that is no longer connected. -/
  | dequeue (ob : Obj)
  /-- A login object wants to log in a player. -/
  | enqueue (ob : Obj)
  | setVip (arch : Bool) (v : CString)
  | unvip (arch : Bool) (v : CString)
  /-- The alarm. -/
  | informQueue
  /-- `query_queue`, `query_position` or `queue_list`. -/
  | query
  /-- The call that was made last returns. -/
  | ret
  deriving DecidableEq

/-- One event, where it can happen. A login object that waits in the queue hands its connection on
only from its `advance`; `enqueue` is called by a connected object. -/
def State.step (m : Mud) (s : State) : Event → Option State
  | .connect ob =>
    if ob ∈ s.users ∨ some ob ∈ s.q then none else some { s with users := s.users ++ [ob] }
  | .exec ob obfrom =>
    if ob ∉ s.users ∧ obfrom ∈ s.users ∧ !m.isLogin ob ∧
        (some obfrom ∈ s.q → s.called = some obfrom) then
      some { s with users := s.users.map fun u ↦ if u = obfrom then ob else u }
    else none
  | .close ob => if ob ∈ s.users then some (s.removeInteractive m ob) else none
  | .dequeue ob => if ob ∈ s.users then none else some (s.dequeue m m.security ob)
  | .enqueue ob => if s.calls = [] ∧ ob ∈ s.users then some (s.enqueue m ob) else none
  | .setVip arch v => if s.calls = [] then some (s.setVip m arch v) else none
  | .unvip arch v => if s.calls = [] then some (s.unvip arch v) else none
  | .informQueue => if s.calls = [] then some s.informQueue else none
  | .query => some s.validateQueue
  | .ret => s.ret

/-- The queue, with nobody there at first. -/
def loginQueue (m : Mud) : TransitionSystem State Event where
  Init s := s = {}
  Step s e s' := s.step m e = some s'

/-- A list of events, one after the other. -/
def run (m : Mud) (s : State) (es : List Event) : Option State :=
  es.foldlM (State.step m) s

theorem run_cons {m : Mud} {s : State} {e : Event} {es : List Event} :
    run m s (e :: es) = (s.step m e).bind fun s ↦ run m s es :=
  List.foldlM_cons

end Lpmud.LoginQueue
