import Lpmud.Telnet.Session

/-!
# A service connection

The service port of `tcpsvc.c`: requests come in as lines, the master object is asked about each,
and what it answers is sent back. One queue, the canonical queue, holds the line as far as it has
come in, and later the response as far as it has not been sent.

Every handler returns an `Option`: it is `none` where a queue function is called without the space
or the data that it assumes, and nothing else makes it `none`. What runs outside is a parameter:
the answers of the socket, and that of the master object. Beside the connection a history is kept,
of the bytes that came in and went out, and of what the master object was asked.
-/

namespace Lpmud.Tcpsvc

open Telnet (NdMask)

abbrev TCPSVC_RAWQ_SIZE : ℕ := 1536
abbrev TCPSVC_CANQ_SIZE : ℕ := 1536
abbrev TCPSVC_MAX : ℕ := 32

def LF : UInt8 := 10

/-- A message of the service, as bytes. -/
def message (s : String) : Bytes :=
  s.toList.map Char.toUInt8 ++ [LF]

/-- `"ERROR Service request too long.\n"`. -/
def requestTooLong : Bytes := message "ERROR Service request too long."

/-- `"ERROR Service calls not supported.\n"`. -/
def notSupported : Bytes := message "ERROR Service calls not supported."

/-- `"ERROR Service response too long.\n"`. -/
def responseTooLong : Bytes := message "ERROR Service response too long."

/-- `"ERROR Too many services in use.\n"`. -/
def tooMany : Bytes := message "ERROR Too many services in use."

/-! ### The control block -/

/-- The flags of a service (`TF_CLOSE`, `TF_ENABC`, `TF_ENABR`). -/
structure Flags where
  close : Bool := false
  enabc : Bool := false
  enabr : Bool := false
  deriving DecidableEq, Repr

/-- The control block of a service (`tcpsvc_t`), with the mask of its network descriptor. -/
structure TcpsvcT where
  flags : Flags
  canq : Nqueue TCPSVC_CANQ_SIZE
  rawq : Nqueue TCPSVC_RAWQ_SIZE
  nd : NdMask

def tcpsvcAlloc : TcpsvcT where
  flags := { enabc := true }
  canq := .nqAlloc _ (by decide)
  rawq := .nqAlloc _ (by decide)
  nd := {}

def tcpsvcDisconnect (tsp : TcpsvcT) : TcpsvcT :=
  if tsp.flags.close then tsp else { tsp with flags.close := true, nd.c := true }

/-! ### Reading -/

/-- The end of `tcpsvc_read`: do not read while the raw queue is full. -/
def tcpsvcReadEnd (tsp : TcpsvcT) : TcpsvcT :=
  { tsp with flags.enabr := true, nd.r := false }

/-- `tcpsvc_read` after a `recv()` that did not end the connection. -/
def tcpsvcReadGo (tsp : TcpsvcT) : TcpsvcT :=
  let tsp' : TcpsvcT :=
    if tsp.flags.enabc then { tsp with flags.enabc := false, nd.c := true } else tsp
  if tsp'.rawq.nqFull then tcpsvcReadEnd tsp' else tsp'

/-- `tcpsvc_read`: `r` is the answer of `recv()`. The result tells what was added to the raw
queue. -/
def tcpsvcRead (r : Telnet.RecvResult) (tsp : TcpsvcT) : Option (TcpsvcT × Bytes) :=
  if tsp.rawq.nqFull then some (tcpsvcReadEnd tsp, [])
  else
    match r with
    | .data b bs =>
      (tsp.rawq.nqRecv (b :: bs)).map fun (q, cs) ↦ (tcpsvcReadGo { tsp with rawq := q }, cs)
    | .failed false => some (tcpsvcReadGo tsp, [])
    | .failed true => some (tcpsvcDisconnect tsp, [])
    | .eof => some (tcpsvcDisconnect tsp, [])

/-! ### Writing -/

/-- `tcpsvc_write` behind the `nq_send`. -/
def tcpsvcWriteGo (tsp : TcpsvcT) : TcpsvcT :=
  if tsp.canq.nqEmpty then { tsp with canq := tsp.canq.nqInit, nd.w := false, nd.c := true }
  else tsp

/-- `tcpsvc_write`: the socket answers `rs`. The result tells what was sent. -/
def tcpsvcWrite (rs : List SendResult) (tsp : TcpsvcT) : TcpsvcT × Bytes :=
  if tsp.canq.nqEmpty then (tcpsvcWriteGo tsp, [])
  else
    let (q, fatal) := tsp.canq.nqSend rs
    let tsp' : TcpsvcT := { tsp with canq := q }
    (if fatal then tcpsvcDisconnect tsp' else tcpsvcWriteGo tsp', tsp.canq.nqSent rs)

/-! ### The clean-up -/

/-- What `tcpsvc_cleanup` does when the raw queue is used up. -/
def tcpsvcIdle (tsp : TcpsvcT) : TcpsvcT :=
  let tsp' : TcpsvcT :=
    if tsp.flags.enabr then { tsp with flags.enabr := false, nd.r := true } else tsp
  { tsp' with rawq := tsp.rawq.nqInit, flags.enabc := true, nd.c := false }

/-- The loop of `tcpsvc_cleanup`: take the bytes up to a newline over from the raw queue. The
result tells whether there was one. Each round takes a byte off the raw queue, so its length plus
one is fuel enough. -/
def tcpsvcTake : ℕ → TcpsvcT → Option (TcpsvcT × Bool)
  | 0, _ => none
  | n + 1, tsp =>
    if tsp.rawq.nqEmpty then some (tcpsvcIdle tsp, false)
    else
      tsp.rawq.nqGetc.bind fun (c, q) ↦
        let tsp' : TcpsvcT := { tsp with rawq := q }
        if c = LF then some (tsp', true)
        else if tsp'.canq.nqFull then tcpsvcTake n tsp'
        else (tsp'.canq.nqPutc c).bind fun q ↦ tcpsvcTake n { tsp' with canq := q }

/-- Respond with an error, and disconnect. -/
def tcpsvcError (text : Bytes) (tsp : TcpsvcT) : Option TcpsvcT :=
  (tsp.canq.nqInit.nqPuts text).map fun q ↦ tcpsvcDisconnect { tsp with canq := q }

/-- Respond with what the master object answered, which is `none` where there was an error or no
such function. -/
def tcpsvcRespond (answer : Option Svalue) (tsp : TcpsvcT) : Option TcpsvcT :=
  match answer with
  | some (.string s) =>
    if TCPSVC_CANQ_SIZE < s.bytes.length then tcpsvcError responseTooLong tsp
    else (tsp.canq.nqInit.nqPuts s.bytes).map fun q ↦ { tsp with canq := q }
  | _ => tcpsvcError notSupported tsp

/-- What was made of a line: the string that the master object was given, if it was asked, what
it answered, and the response. -/
structure Exchange where
  request : Option Bytes
  answer : Option Svalue
  response : Bytes

/-- What `tcpsvc_cleanup` does with a complete line, of which the canonical queue has taken what
fits. -/
def tcpsvcServe (answer : Option Svalue) (tsp : TcpsvcT) : Option (TcpsvcT × Exchange) :=
  let tsp₁ : TcpsvcT := { tsp with nd.c := false, nd.w := true }
  if tsp₁.canq.nqFull then
    (tcpsvcError requestTooLong tsp₁).map fun tsp' ↦ (tsp', ⟨none, none, tsp'.canq.toList⟩)
  else
    (tsp₁.canq.nqPutc 0).bind fun q ↦
      (tcpsvcRespond answer { tsp₁ with canq := q }).map fun tsp' ↦
        (tsp', ⟨some q.nqString, answer, tsp'.canq.toList⟩)

/-- A service is live until `tcpsvc_shutdown`. -/
inductive Service where
  | live (tsp : TcpsvcT)
  | closed

def tcpsvcCleanup (answer : Option Svalue) (tsp : TcpsvcT) : Option (Service × List Exchange) :=
  if tsp.flags.close then some (.closed, [])
  else
    (tcpsvcTake (tsp.rawq.nqLen + 1) tsp).bind fun
      | (tsp', false) => some (.live tsp', [])
      | (tsp', true) => (tcpsvcServe answer tsp').map fun (tsp'', e) ↦ (.live tsp'', [e])

/-- The end of `tcpsvc_accept`, where `count` services are in use. The result tells what the new
connection is told right away. -/
def tcpsvcAccept (count : ℕ) : Option (TcpsvcT × Bytes) :=
  if TCPSVC_MAX < count + 1 then
    (tcpsvcAlloc.canq.nqPuts tooMany).map fun q ↦
      (tcpsvcDisconnect { tcpsvcAlloc with canq := q, nd.w := true }, tooMany)
  else some ({ tcpsvcAlloc with nd.r := true }, [])

/-! ### The life of a connection -/

/-- A connection with its history. -/
structure Conn where
  service : Service
  /-- What it was told when it was accepted. -/
  greeting : Bytes
  /-- The bytes that came in. -/
  received : Bytes := []
  /-- The bytes that went out. -/
  sent : Bytes := []
  /-- What was made of the lines, in the order of time. -/
  exchanges : List Exchange := []
  /-- The peer has closed the connection, or it has failed, or the driver was shut down. -/
  lost : Bool := false

/-- What happens to a connection. -/
inductive Event where
  /-- The read callback. -/
  | read (r : Telnet.RecvResult)
  /-- The write callback. -/
  | write (rs : List SendResult)
  /-- The clean-up callback, with the answer of the master object if it is asked. -/
  | cleanup (answer : Option Svalue)
  /-- The driver is shut down. -/
  | shutdown

/-- A callback is called while it is enabled. -/
def TcpsvcT.Allows (tsp : TcpsvcT) : Event → Prop
  | .read _ => tsp.nd.r = true
  | .write _ => tsp.nd.w = true
  | .cleanup _ => tsp.nd.c = true
  | .shutdown => True

instance (tsp : TcpsvcT) (e : Event) : Decidable (tsp.Allows e) :=
  match e with
  | .read _ => inferInstanceAs (Decidable (_ = true))
  | .write _ => inferInstanceAs (Decidable (_ = true))
  | .cleanup _ => inferInstanceAs (Decidable (_ = true))
  | .shutdown => inferInstanceAs (Decidable True)

/-- Nothing happens to a closed connection. -/
def Conn.Allows (c : Conn) (e : Event) : Prop :=
  match c.service with
  | .live tsp => tsp.Allows e
  | .closed => False

instance (c : Conn) (e : Event) : Decidable (c.Allows e) :=
  match h : c.service with
  | .live tsp => decidable_of_iff (tsp.Allows e) (by rw [Conn.Allows, h])
  | .closed => .isFalse (by rw [Conn.Allows, h]; exact id)

/-- One event of a live connection. -/
def Conn.stepLive (c : Conn) (tsp : TcpsvcT) : Event → Option Conn
  | .read r =>
    (tcpsvcRead r tsp).map fun (tsp', cs) ↦
      { c with service := .live tsp', received := c.received ++ cs
               lost := c.lost || (tsp'.flags.close && !tsp.flags.close) }
  | .write rs =>
    let (tsp', cs) := tcpsvcWrite rs tsp
    some { c with service := .live tsp', sent := c.sent ++ cs
                  lost := c.lost || (tsp'.flags.close && !tsp.flags.close) }
  | .cleanup answer =>
    (tcpsvcCleanup answer tsp).map fun (service, es) ↦
      { c with service, exchanges := c.exchanges ++ es }
  | .shutdown => some { c with service := .closed, lost := true }

/-- One event. -/
def Conn.step (c : Conn) (e : Event) : Option Conn :=
  match c.service with
  | .live tsp => c.stepLive tsp e
  | .closed => none

/-- Events, one after the other, each while it is allowed. -/
def Conn.run (c : Conn) : List Event → Option Conn
  | [] => some c
  | e :: es => if c.Allows e then (c.step e).bind fun c' ↦ c'.run es else none

/-- Connections as a transition system. -/
def connections : TransitionSystem Conn Event where
  Init c := ∃ count tsp greeting,
    tcpsvcAccept count = some (tsp, greeting) ∧ c = { service := .live tsp, greeting := greeting }
  Step c e c' := c.Allows e ∧ c.step e = some c'

/-- A connection that has just been accepted. -/
def accepted : Conn where
  service := .live { tcpsvcAlloc with nd.r := true }
  greeting := []

theorem reachable_accepted : connections.Reachable accepted :=
  .init ⟨0, _, _, rfl, rfl⟩

theorem reachable_of_run {es : List Event} : ∀ {c c' : Conn},
    connections.Reachable c → c.run es = some c' → connections.Reachable c' := by
  induction es with
  | nil =>
    intro c c' hc h
    cases h
    exact hc
  | cons e es ih =>
    intro c c' hc h
    rw [Conn.run] at h
    split at h
    · next he =>
      obtain ⟨c₁, hstep, hrun⟩ := Option.bind_eq_some_iff.1 h
      exact ih (hc.step ⟨he, hstep⟩) hrun
    · cases h

end Lpmud.Tcpsvc
