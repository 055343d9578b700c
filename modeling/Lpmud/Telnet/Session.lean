import Lpmud.Lib.TransitionSystem
import Lpmud.Nqueue
import Lpmud.Telnet.Option

/-!
# A telnet session

The session handlers of `telnet.c`: the input state machine, the line editing, the option
replies, flow control and the callbacks of the network descriptor, as functions on the control
block `telnet_t`.

Every function that writes to a queue returns an `Option`: it is `none` where a queue function
was called without the space or the data it assumes, or where the option queue is used before it
exists. Nothing else makes it `none`.

What runs outside the session is a parameter of the handler that calls it: the answers of the
socket, and what LPC code does while it handles a connection, a line of input or a disconnection:
the calls it makes on this session, and where an error in it jumps out of the handler (`Lpc`). A
line passed to `interactive_input` is part of the handler's result.
-/

namespace Lpmud.Telnet

/-! ### Constants -/

abbrev TELNET_CANQ_SIZE : ℕ := 512
abbrev TELNET_RAWQ_SIZE : ℕ := 256
abbrev TELNET_OPTQ_SIZE : ℕ := 512
abbrev TELNET_OUTQ_SIZE : ℕ := 8192 + 1024
abbrev TELNET_OUTQ_LOWAT : ℕ := 256
abbrev TELNET_OUTQ_HIWAT : ℕ := TELNET_OUTQ_SIZE - 256

/-- The space the output queue must have for raw queue processing to continue. -/
abbrev TELNET_OUTQ_REQUIRED : ℕ := 12

def NUL : UInt8 := 0
def BEL : UInt8 := 7
def BS : UInt8 := 8
def LF : UInt8 := 10
def CR : UInt8 := 13
def DEL : UInt8 := 127

def IAC : UInt8 := 255
def DONT : UInt8 := 254
def DO : UInt8 := 253
def WONT : UInt8 := 252
def WILL : UInt8 := 251
def SB : UInt8 := 250
def GA : UInt8 := 249
def EL : UInt8 := 248
def EC : UInt8 := 247
def AYT : UInt8 := 246
def DM : UInt8 := 242
def SE : UInt8 := 240

/-- The command byte of a negotiation message. -/
def OptMsg.byte : OptMsg → UInt8
  | .WILL => Telnet.WILL
  | .WONT => Telnet.WONT
  | .DO => Telnet.DO
  | .DONT => Telnet.DONT

/-- What `telnet_ayt` prints of `GAME_VERSION` and `PATCH_LEVEL`: `[CD.04.06]`, CR, LF. -/
def version : Bytes :=
  ['[', 'C', 'D', '.', '0', '4', '.', '0', '6', ']'].map Char.toUInt8 ++ [CR, LF]

/-- What `telnet_write` prints after output was lost. -/
def truncated : Bytes :=
  ['*', '*', '*', ' ', 'T', 'r', 'u', 'n', 'c', 'a', 't', 'e', 'd', '.', ' ', '*', '*', '*'].map
    Char.toUInt8 ++ [CR, LF]

/-! ### The control block -/

/-- Telnet input states (`TS_DATA` … `TS_IAC_DONT`). -/
inductive InputState where
  | DATA | CR | IAC | IAC_SB | IAC_SB_DATA | IAC_SB_IAC | IAC_WILL | IAC_WONT | IAC_DO | IAC_DONT
  deriving DecidableEq, Repr

/-- The telnet flags (`TF_ATTACH` … `TF_SGA`). -/
structure Flags where
  attach : Bool := false
  enabr : Bool := false
  enabw : Bool := false
  flowc : Bool := false
  ovflcanq : Bool := false
  ovfloptq : Bool := false
  ovfloutq : Bool := false
  synch : Bool := false
  urgent : Bool := false
  ga : Bool := false
  sga : Bool := false
  deriving DecidableEq, Repr

/-- The callbacks enabled for the session's network descriptor (`ND_R`, `ND_W`, `ND_X`,
`ND_C`). -/
structure NdMask where
  r : Bool := false
  w : Bool := false
  x : Bool := false
  c : Bool := false
  deriving DecidableEq, Repr

/-- The telnet control block (`telnet_t`), with the mask of its network descriptor. -/
structure TelnetT where
  flags : Flags
  state : InputState
  opt : UInt8
  optb : OptIndex → Opt
  rawq : Nqueue TELNET_RAWQ_SIZE
  canq : Nqueue TELNET_CANQ_SIZE
  optq : Option (Nqueue TELNET_OPTQ_SIZE)
  outq : Nqueue TELNET_OUTQ_SIZE
  nd : NdMask

def telnetAlloc : TelnetT where
  flags := { enabw := true }
  state := .DATA
  opt := 0
  optb := fun _ ↦ .fresh
  rawq := .nqAlloc _ (by decide)
  canq := .nqAlloc _ (by decide)
  optq := none
  outq := .nqAlloc _ (by decide)
  nd := {}

def telnetAttach (tp : TelnetT) : TelnetT :=
  { tp with flags.attach := true }

def telnetDetach (tp : TelnetT) : TelnetT :=
  if tp.flags.attach then { tp with flags.attach := false, nd.c := true } else tp

/-- `telnet_flush`: the socket answers `rs`. -/
def telnetFlush (rs : List SendResult) (tp : TelnetT) : TelnetT :=
  if tp.outq.nqEmpty then tp else { tp with outq := (tp.outq.nqSend rs).1 }

def telnetEnabr (tp : TelnetT) : TelnetT :=
  if tp.flags.enabr then { tp with flags.enabr := false, nd.r := true } else tp

def telnetEnabw (tp : TelnetT) : TelnetT :=
  if tp.flags.enabw then { tp with flags.enabw := false, nd.w := true } else tp

/-! ### Output -/

/-- One byte of output as it goes over the wire. -/
def encapsulate (c : UInt8) : Bytes :=
  if c = LF then [CR, LF] else if c = IAC then [IAC, IAC] else [c]

/-- The copy loop of `telnet_output`: encapsulate the C string until the buffer holds
`TELNET_OUTQ_SIZE` bytes. -/
def encapsulateAll (bp : Bytes) : Bytes → Bytes
  | [] => bp
  | c :: cp =>
    if bp.length < TELNET_OUTQ_SIZE ∧ c ≠ NUL then encapsulateAll (bp ++ encapsulate c) cp
    else bp

/-- `telnet_output`; `rs` are the socket's answers should the queue be flushed. -/
def telnetOutput (rs : List SendResult) (cp : Bytes) (tp : TelnetT) : Option TelnetT :=
  if tp.flags.ovfloutq then some tp
  else
    let buf := encapsulateAll [] cp
    if buf = [] then some tp
    else
      let tp' := if TELNET_OUTQ_HIWAT ≤ tp.outq.nqLen + buf.length then telnetFlush rs tp else tp
      if TELNET_OUTQ_HIWAT ≤ tp'.outq.nqLen + buf.length then
        some (telnetEnabw { tp' with flags.ovfloutq := true })
      else
        (tp'.outq.nqPuts buf).map fun q ↦ telnetEnabw { tp' with outq := q }

/-- Put a reply of the state machine on the output queue, byte by byte. -/
def telnetReply (bs : Bytes) (tp : TelnetT) : Option TelnetT :=
  (bs.foldlM Nqueue.nqPutc tp.outq).map fun q ↦ telnetEnabw { tp with outq := q }

def telnetSendGa : TelnetT → Option TelnetT :=
  telnetReply [IAC, GA]

/-- `telnet_send_will`, `telnet_send_wont`, `telnet_send_do`, `telnet_send_dont`. -/
def telnetSend (m : OptMsg) (opt : UInt8) : TelnetT → Option TelnetT :=
  telnetReply [IAC, m.byte, opt]

/-! ### Option handlers -/

/-- The acknowledgement hooks: only suppressing go-aheads has an effect, and only on the
local-to-remote side. -/
def telnetAck (opt : UInt8) (tp : TelnetT) : Option Bool → TelnetT
  | none => tp
  | some b => if opt = TELOPT_SGA then { tp with flags.sga := b } else tp

/-- Take what an option handler did to block `i` and send its reply. -/
def telnetOptStep (i : OptIndex) (opt : UInt8) (tp : TelnetT) (s : OptStep) : Option TelnetT :=
  let tp' : TelnetT := { tp with optb := fun j ↦ if j = i then s.opt else tp.optb j }
  let sent := match s.reply with
    | none => some tp'
    | some m => telnetSend m opt tp'
  sent.map fun tp'' ↦ telnetAck opt tp'' s.ackUs

def telnetNegLenab (opt : UInt8) (tp : TelnetT) : Option TelnetT :=
  match telnetGetOptp opt with
  | none => some tp
  | some i => telnetOptStep i opt tp (tp.optb i).negLenab

def telnetNegLdisab (opt : UInt8) (tp : TelnetT) : Option TelnetT :=
  match telnetGetOptp opt with
  | none => some tp
  | some i => telnetOptStep i opt tp (tp.optb i).negLdisab

def telnetWill (opt : UInt8) (tp : TelnetT) : Option TelnetT :=
  match telnetGetOptp opt with
  | none => telnetSend .DONT opt tp
  | some i => telnetOptStep i opt tp ((tp.optb i).recvWill (telnetRenabp opt))

def telnetWont (opt : UInt8) (tp : TelnetT) : Option TelnetT :=
  match telnetGetOptp opt with
  | none => some tp
  | some i => telnetOptStep i opt tp (tp.optb i).recvWont

def telnetDo (opt : UInt8) (tp : TelnetT) : Option TelnetT :=
  if opt = TELOPT_TM then telnetSend .WILL opt tp
  else match telnetGetOptp opt with
    | none => telnetSend .WONT opt tp
    | some i => telnetOptStep i opt tp ((tp.optb i).recvDo (telnetLenabp opt))

def telnetDont (opt : UInt8) (tp : TelnetT) : Option TelnetT :=
  match telnetGetOptp opt with
  | none => some tp
  | some i => telnetOptStep i opt tp (tp.optb i).recvDont

def telnetEnableEcho (tp : TelnetT) : Option TelnetT :=
  if tp.outq.nqAvail < 3 then some tp else telnetNegLenab TELOPT_ECHO tp

def telnetDisableEcho (tp : TelnetT) : Option TelnetT :=
  if tp.outq.nqAvail < 3 then some tp else telnetNegLdisab TELOPT_ECHO tp

/-! ### Calls from outside the session -/

/-- The entry points the rest of the driver has into a session. -/
inductive Call where
  | output (cp : Bytes) (rs : List SendResult)
  | enableEcho
  | disableEcho
  | detach
  deriving DecidableEq, Repr

def Call.run : Call → TelnetT → Option TelnetT
  | .output cp rs => telnetOutput rs cp
  | .enableEcho => telnetEnableEcho
  | .disableEcho => telnetDisableEcho
  | .detach => fun tp ↦ some (telnetDetach tp)

/-- LPC code makes some calls, one after the other. -/
def runCalls (calls : List Call) (tp : TelnetT) : Option TelnetT :=
  calls.foldlM (fun tp c ↦ c.run tp) tp

/-- Where LPC code leaves a handler. What `interactive_input` and `remove_interactive` print runs
LPC code in a snooper outside of any `setjmp` of theirs, and so does all of `new_player`: an error
there jumps to `backend`, before the handler has passed on the line or detached the session, or
behind that. -/
inductive Exit where
  | returned
  | before
  | behind
  deriving DecidableEq, Repr

/-- What LPC code does to a session while a handler runs it. -/
structure Lpc where
  calls : List Call := []
  exit : Exit := .returned
  deriving DecidableEq, Repr

/-- An error jumps out of `interactive_input`, and out of the handlers that called it. -/
def Lpc.jumps (lpc : Lpc) (tp : TelnetT) : Bool :=
  tp.flags.attach && lpc.exit != .returned

/-- `telnet_disconnect`: `remove_interactive` says goodbye and detaches the session. -/
def telnetDisconnect (lpc : Lpc) (tp : TelnetT) : Option TelnetT :=
  if tp.flags.attach then
    (runCalls lpc.calls tp).map fun tp' ↦ if lpc.exit = .before then tp' else telnetDetach tp'
  else some tp

/-! ### Input -/

def telnetCanqPutc (c : UInt8) (tp : TelnetT) : Option TelnetT :=
  if tp.flags.ovflcanq || tp.flags.synch then some tp
  else if !tp.canq.nqFull then (tp.canq.nqPutc c).map fun q ↦ { tp with canq := q }
  else
    let tp' : TelnetT := { tp with flags.ovflcanq := true }
    if 0 < tp'.outq.nqAvail then telnetReply [BEL] tp' else some tp'

def telnetOptqPutc (c : UInt8) (tp : TelnetT) : Option TelnetT :=
  if tp.flags.ovfloptq then some tp
  else tp.optq.bind fun q ↦
    if !q.nqFull then (q.nqPutc c).map fun q' ↦ { tp with optq := some q' }
    else some { tp with flags.ovfloptq := true }

/-- The string `telnet_eol` passes on: nothing where the queue has no room for the NUL. -/
def telnetEolString (tp : TelnetT) : Option (TelnetT × Bytes) :=
  if tp.canq.nqFull then some ({ tp with flags.ovflcanq := false }, [])
  else (tp.canq.nqPutc NUL).map fun q ↦ ({ tp with canq := q }, q.nqString)

/-- `interactive_input`, when there is an interactive object. -/
def interactiveInput (lpc : Lpc) (cp : Bytes) (tp : TelnetT) :
    Option (TelnetT × List Bytes) :=
  if tp.flags.attach then
    (runCalls lpc.calls tp).map fun tp' ↦ (tp', if lpc.exit = .before then [] else [cp])
  else some (tp, [])

/-- `telnet_eol`, with the line it passed to the interactive object, if any. -/
def telnetEol (lpc : Lpc) (tp : TelnetT) : Option (TelnetT × List Bytes) :=
  if tp.flags.synch then some (tp, [])
  else
    (telnetEolString tp).bind fun (tp₁, cp) ↦
      (interactiveInput lpc cp tp₁).map fun (tp₂, lines) ↦
        (if lpc.jumps tp then tp₂ else { tp₂ with canq := tp₂.canq.nqInit, flags.ga := false },
          lines)

def telnetDm (tp : TelnetT) : TelnetT :=
  if tp.flags.urgent then tp else { tp with flags.synch := false }

def telnetAyt (tp : TelnetT) : Option TelnetT :=
  (tp.outq.nqPuts version).map fun q ↦ telnetEnabw { tp with outq := q }

def telnetEc (tp : TelnetT) : Option TelnetT :=
  if tp.flags.ovflcanq || tp.flags.synch then some tp
  else if tp.canq.nqEmpty then some tp
  else tp.canq.nqUnputc.map fun q ↦ { tp with canq := q }

def telnetEl (tp : TelnetT) : TelnetT :=
  if tp.flags.ovflcanq || tp.flags.synch then tp else { tp with canq := tp.canq.nqInit }

def telnetSb (opt : UInt8) (tp : TelnetT) : TelnetT :=
  { tp with optq := some (tp.optq.getD (.nqAlloc _ (by decide))), opt := opt }

def telnetSe (tp : TelnetT) : Option TelnetT :=
  tp.optq.map fun q ↦ { tp with flags.ovfloptq := false, optq := some q.nqInit }

/-- What `telnet_input` does with one byte: the control block it leaves and, where it returns,
the lines it has passed on. -/
abbrev ByteResult := Option (TelnetT × Option (List Bytes))

/-- Go on with the next byte. -/
def next (tp : Option TelnetT) : ByteResult :=
  tp.map fun tp' ↦ (tp', none)

/-- Return from `telnet_input`. -/
def done (r : Option (TelnetT × List Bytes)) : ByteResult :=
  r.map fun (tp, lines) ↦ (tp, some lines)

/-- The command behind an IAC; the state is `DATA` again unless the command says otherwise. -/
def telnetCommand (c : UInt8) (tp : TelnetT) : Option TelnetT :=
  if c = DM then some (telnetDm tp)
  else if c = AYT then telnetAyt tp
  else if c = EC then telnetEc tp
  else if c = EL then some (telnetEl tp)
  else if c = SB then some { tp with state := .IAC_SB }
  else if c = WILL then some { tp with state := .IAC_WILL }
  else if c = WONT then some { tp with state := .IAC_WONT }
  else if c = DO then some { tp with state := .IAC_DO }
  else if c = DONT then some { tp with state := .IAC_DONT }
  else if c = IAC then telnetCanqPutc c tp
  else some tp

/-- The body of the loop of `telnet_input`, for the byte just taken from the raw queue. -/
def telnetByte (lpc : Lpc) (c : UInt8) (tp : TelnetT) : ByteResult :=
  match tp.state with
  | .DATA =>
    if c = NUL then next (some tp)
    else if c = BS then next (telnetEc tp)
    else if c = LF then done (telnetEol lpc tp)
    else if c = Telnet.CR then next (some { tp with state := .CR })
    else if c = DEL then next (telnetEc tp)
    else if c = Telnet.IAC then next (some { tp with state := .IAC })
    else next (telnetCanqPutc c tp)
  | .CR =>
    -- A jump out of `telnet_eol` leaves the state as it is.
    done ((telnetEol lpc tp).map fun (tp', lines) ↦
      (if !tp.flags.synch && lpc.jumps tp then tp' else { tp' with state := .DATA }, lines))
  | .IAC => next (telnetCommand c { tp with state := .DATA })
  | .IAC_SB => next (some { telnetSb c tp with state := .IAC_SB_DATA })
  | .IAC_SB_DATA =>
    if c = Telnet.IAC then next (some { tp with state := .IAC_SB_IAC })
    else next (telnetOptqPutc c tp)
  | .IAC_SB_IAC =>
    let tp' : TelnetT := { tp with state := .IAC_SB_DATA }
    if c = SE then next ((telnetSe tp').map fun tp'' ↦ { tp'' with state := .DATA })
    else if c = Telnet.IAC then next (telnetOptqPutc c tp')
    else next (some tp')
  | .IAC_WILL => next ((telnetWill c tp).map fun tp' ↦ { tp' with state := .DATA })
  | .IAC_WONT => next ((telnetWont c tp).map fun tp' ↦ { tp' with state := .DATA })
  | .IAC_DO => next ((telnetDo c tp).map fun tp' ↦ { tp' with state := .DATA })
  | .IAC_DONT => next ((telnetDont c tp).map fun tp' ↦ { tp' with state := .DATA })

/-- What `telnet_input` does when the raw queue is used up. -/
def telnetInputDone (tp : TelnetT) : Option TelnetT :=
  let sent :=
    if !(tp.flags.sga || tp.flags.ga) && 2 ≤ tp.outq.nqAvail then
      telnetSendGa { tp with flags.ga := true }
    else some tp
  sent.map fun tp' ↦
    let tp'' := telnetEnabr { tp' with rawq := tp'.rawq.nqInit }
    { tp'' with nd.c := false }

/-- The loop of `telnet_input`. Each round takes a byte off the raw queue, so its length plus
one is fuel enough. -/
def telnetInputLoop (lpc : Lpc) : ℕ → TelnetT → Option (TelnetT × List Bytes)
  | 0, _ => none
  | n + 1, tp =>
    if tp.rawq.nqEmpty then (telnetInputDone tp).map fun tp' ↦ (tp', [])
    else if tp.outq.nqAvail < TELNET_OUTQ_REQUIRED then
      some ({ tp with flags.flowc := true, nd.c := false }, [])
    else
      tp.rawq.nqGetc.bind fun (c, q) ↦
        (telnetByte lpc c { tp with rawq := q }).bind fun
          | (tp', some lines) => some (tp', lines)
          | (tp', none) => telnetInputLoop lpc n tp'

def telnetInput (lpc : Lpc) (tp : TelnetT) : Option (TelnetT × List Bytes) :=
  telnetInputLoop lpc (tp.rawq.nqLen + 1) tp

/-! ### The callbacks of the network descriptor -/

/-- What a `recv()` answers. -/
inductive RecvResult where
  | data (b : UInt8) (bs : Bytes)
  | eof
  | failed (fatal : Bool)
  deriving DecidableEq, Repr

/-- The bytes a `recv()` hands over. -/
def RecvResult.bytes : RecvResult → Bytes
  | .data b bs => b :: bs
  | _ => []

/-- The end of `telnet_read`: block the raw queue while it is full. -/
def telnetReadEnd (tp : TelnetT) : TelnetT :=
  { tp with flags.enabr := true, nd.r := false }

/-- `telnet_read` after a `recv()` that did not end the session. -/
def telnetReadGo (tp : TelnetT) : TelnetT :=
  let tp₁ : TelnetT := if tp.flags.flowc then tp else { tp with nd.c := true }
  let tp₂ := telnetEnabr tp₁
  if tp₂.rawq.nqFull then telnetReadEnd tp₂ else tp₂

/-- `telnet_read`: `atMark` is the answer of `at_mark`, `r` that of `recv()`. The result tells
what was added to the raw queue. -/
def telnetRead (atMark : Bool) (r : RecvResult) (lpc : Lpc) (tp : TelnetT) :
    Option (TelnetT × Bytes) :=
  if tp.rawq.nqFull then some (telnetReadEnd tp, [])
  else
    let tp₁ : TelnetT :=
      if tp.flags.urgent && atMark then { tp with flags.urgent := false, nd.x := true } else tp
    match r with
    | .data b bs =>
      (tp₁.rawq.nqRecv (b :: bs)).map fun (q, cs) ↦ (telnetReadGo { tp₁ with rawq := q }, cs)
    | .failed false => some (telnetReadGo tp₁, [])
    | .failed true => (telnetDisconnect lpc tp₁).map fun tp' ↦ (tp', [])
    | .eof => (telnetDisconnect lpc tp₁).map fun tp' ↦ (tp', [])

/-- `telnet_write`: once the queue is below the low-water mark, say that output was lost. -/
def telnetWriteNotice (tp : TelnetT) : Option TelnetT :=
  if tp.flags.ovfloutq && tp.outq.nqLen < TELNET_OUTQ_LOWAT then
    (tp.outq.nqPuts truncated).map fun q ↦ { tp with flags.ovfloutq := false, outq := q }
  else some tp

/-- `telnet_write`: below the high-water mark, input that flow control held back goes on. -/
def telnetWriteFlowc (tp : TelnetT) : TelnetT :=
  if tp.flags.flowc && tp.outq.nqLen < TELNET_OUTQ_HIWAT then
    { tp with flags.flowc := false, nd.c := true }
  else tp

/-- `telnet_write`: with nothing left to write, stop writing. -/
def telnetWriteEnd (tp : TelnetT) : TelnetT :=
  if tp.outq.nqEmpty then { tp with outq := tp.outq.nqInit, flags.enabw := true, nd.w := false }
  else tp

/-- `telnet_write` behind the `nq_send`. -/
def telnetWriteGo (tp : TelnetT) : Option TelnetT :=
  (telnetWriteNotice tp).map fun tp' ↦ telnetWriteEnd (telnetWriteFlowc tp')

/-- `telnet_write`: the socket answers `rs`. -/
def telnetWrite (rs : List SendResult) (lpc : Lpc) (tp : TelnetT) : Option TelnetT :=
  let (q, fatal) := if tp.outq.nqEmpty then (tp.outq, false) else tp.outq.nqSend rs
  let tp' : TelnetT := { tp with outq := q }
  if fatal then telnetDisconnect lpc tp' else telnetWriteGo tp'

def telnetException (tp : TelnetT) : TelnetT :=
  { tp with flags.synch := true, flags.urgent := true, canq := tp.canq.nqInit, nd.x := false }

/-! ### The life of a session -/

/-- A session is live until `telnet_cleanup` finds it detached and shuts it down. -/
inductive Session where
  | live (tp : TelnetT)
  | closed

/-- What happens to a session. -/
inductive Event where
  /-- The read callback. -/
  | read (atMark : Bool) (r : RecvResult) (lpc : Lpc)
  /-- The write callback. -/
  | write (rs : List SendResult) (lpc : Lpc)
  /-- The exception callback: urgent data. -/
  | exception
  /-- The clean-up callback. -/
  | cleanup (lpc : Lpc)
  /-- A call from the rest of the driver, at any other time. -/
  | call (c : Call)
  deriving DecidableEq, Repr

/-- The bytes an event added to the raw queue and the lines it passed on. -/
structure Traffic where
  received : Bytes := []
  lines : List Bytes := []

def Traffic.append (t u : Traffic) : Traffic :=
  ⟨t.received ++ u.received, t.lines ++ u.lines⟩

@[simp] theorem Traffic.append_nil (t : Traffic) : t.append {} = t := by
  simp [Traffic.append]

def telnetCleanup (lpc : Lpc) (tp : TelnetT) : Option (Session × Traffic) :=
  if tp.flags.attach then
    (telnetInput lpc tp).map fun (tp', lines) ↦ (.live tp', { lines := lines })
  else some (.closed, {})

/-- One event of a live session. -/
def TelnetT.step (tp : TelnetT) : Event → Option (Session × Traffic)
  | .read atMark r lpc =>
    (telnetRead atMark r lpc tp).map fun (tp', cs) ↦ (.live tp', { received := cs })
  | .write rs lpc => (telnetWrite rs lpc tp).map fun tp' ↦ (.live tp', {})
  | .exception => some (.live (telnetException tp), {})
  | .cleanup lpc => telnetCleanup lpc tp
  | .call c => (c.run tp).map fun tp' ↦ (.live tp', {})

/-- One event; nothing happens to a closed session. -/
def Session.step : Session → Event → Option (Session × Traffic)
  | .live tp, e => tp.step e
  | .closed, _ => none

/-- A session handles events, one after the other, with the traffic of all of them. -/
def Session.run : Session → List Event → Option (Session × Traffic)
  | s, [] => some (s, {})
  | s, e :: es =>
    (s.step e).bind fun (s', t) ↦ (s'.run es).map fun (s'', u) ↦ (s'', t.append u)

/-- The end of `telnet_accept`: attach the session and wait for input. -/
def telnetAcceptEnd (tp : TelnetT) : TelnetT :=
  let tp' := telnetAttach tp
  { tp' with nd.r := true, nd.x := true, nd.c := true }

/-- `telnet_accept`, where `new_player` accepts the connection or is left by an error. Its LPC code
runs before the session is attached. -/
def telnetAccept (lpc : Lpc) : Option TelnetT :=
  (runCalls lpc.calls telnetAlloc).map fun tp ↦
    if lpc.exit = .returned then telnetAcceptEnd tp else tp

/-- The session of a connection that is accepted as `lpc` says, as a transition system. -/
def sessionOf (lpc : Lpc) : TransitionSystem Session Event where
  Init s := ∃ tp, telnetAccept lpc = some tp ∧ s = .live tp
  Step s e s' := ∃ t, s.step e = some (s', t)

/-- Sessions as a transition system. -/
def sessions : TransitionSystem Session Event where
  Init s := ∃ lpc, (sessionOf lpc).Init s
  Step s e s' := ∃ t, s.step e = some (s', t)

theorem Session.run_cons {s s'' : Session} {e : Event} {es : List Event} {v : Traffic}
    (h : s.run (e :: es) = some (s'', v)) :
    ∃ s' t u, s.step e = some (s', t) ∧ s'.run es = some (s'', u) ∧ v = t.append u := by
  rw [Session.run, Option.bind_eq_some_iff] at h
  obtain ⟨⟨s', t⟩, hst, h⟩ := h
  obtain ⟨⟨s₁, u⟩, hrun, h⟩ := Option.map_eq_some_iff.1 h
  cases h
  exact ⟨s', t, u, hst, hrun, rfl⟩

theorem reachableVia_of_run {ok : Session → Event → Prop} {es : List Event}
    (hes : ∀ e ∈ es, ∀ s, ok s e) : ∀ {s s' : Session} {t : Traffic},
    sessions.ReachableVia ok s → s.run es = some (s', t) → sessions.ReachableVia ok s' := by
  induction es with
  | nil =>
    intro s s' t hs h
    cases h
    exact hs
  | cons e es ih =>
    intro s s' t hs h
    obtain ⟨s₁, t₁, u, hst, hrun, -⟩ := Session.run_cons h
    exact ih (fun e' he' ↦ hes e' (List.mem_cons_of_mem e he'))
      (hs.step (hes e List.mem_cons_self s) ⟨t₁, hst⟩) hrun

end Lpmud.Telnet
