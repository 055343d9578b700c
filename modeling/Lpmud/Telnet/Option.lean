import Mathlib.Data.UInt

/-!
# Telnet option negotiation: one option block

The option blocks of `telnet.h` and the handlers of `telnet.c` that work on them, as functions
from a block to a block and the reply it sends.

A block has two sides, `us` and `him`, and every handler works on one of them. The four request
handlers are two functions (`Side.negEnab`, `Side.negDisab`) read at either side, and the four
message handlers are two more (`Side.recvEnab`, `Side.recvDisab`); what differs between the
sides is only which message words a reply uses. Each handler of the source keeps its own name
below, as that function at its own side.
-/

namespace Lpmud.Telnet

/-! ### Words of the protocol -/

/-- The four negotiation commands, under the names of `arpa/telnet.h`. -/
inductive OptMsg where
  | WILL | WONT | DO | DONT
  deriving DecidableEq, Repr

/-- Option states (`OS_NO`, `OS_YES`, `OS_WANTNO`, `OS_WANTYES`). -/
inductive OptState where
  | NO | YES | WANTNO | WANTYES
  deriving DecidableEq, Repr

/-- Option queue states (`OQ_EMPTY`, `OQ_OPPOSITE`). -/
inductive OptQueue where
  | EMPTY | OPPOSITE
  deriving DecidableEq, Repr

/-- The indices of the option blocks (`OP_ECHO`, `OP_SGA`, `OP_CDM`). -/
inductive OptIndex where
  | ECHO | SGA | CDM
  deriving DecidableEq, Repr

def TELOPT_ECHO : UInt8 := 1
def TELOPT_SGA : UInt8 := 3
def TELOPT_TM : UInt8 := 6
def TELOPT_CDM : UInt8 := 205

/-- The block of an option, `none` for an option the server has no interest in. -/
def telnetGetOptp (opt : UInt8) : Option OptIndex :=
  if opt = TELOPT_ECHO then some .ECHO
  else if opt = TELOPT_SGA then some .SGA
  else if opt = TELOPT_CDM then some .CDM
  else none

/-- Enable an option in the local-to-remote direction? -/
def telnetLenabp (opt : UInt8) : Bool :=
  opt = TELOPT_ECHO || opt = TELOPT_SGA || opt = TELOPT_CDM

/-- Enable an option in the remote-to-local direction? -/
def telnetRenabp (opt : UInt8) : Bool :=
  opt = TELOPT_SGA

/-! ### One side of a block -/

/-- One side of an option block: its state and its queue bit. -/
structure Side where
  st : OptState
  q : OptQueue
  deriving DecidableEq, Repr

/-- What a handler does on one side: the side it leaves, the reply it sends (`some true` asks
for the option, `some false` refuses it) and the acknowledgement it makes (`some true` calls the
`ack_*enab` hook, `some false` the `ack_*disab` one). -/
structure SideStep where
  side : Side
  reply : Option Bool := none
  ack : Option Bool := none
  deriving DecidableEq, Repr

namespace Side

/-- The side of a fresh block. -/
def fresh : Side := ⟨.NO, .EMPTY⟩

/-- Ask to enable the option (`telnet_neg_lenab`, `telnet_neg_renab`). -/
def negEnab (s : Side) : SideStep :=
  match s.st with
  | .NO => { side := { s with st := .WANTYES }, reply := some true }
  | .YES => { side := s }
  | .WANTNO =>
    match s.q with
    | .EMPTY => { side := { s with q := .OPPOSITE } }
    | .OPPOSITE => { side := s }
  | .WANTYES =>
    match s.q with
    | .EMPTY => { side := s }
    | .OPPOSITE => { side := { s with q := .EMPTY } }

/-- Ask to disable the option (`telnet_neg_ldisab`, `telnet_neg_rdisab`). -/
def negDisab (s : Side) : SideStep :=
  match s.st with
  | .NO => { side := s }
  | .YES => { side := { s with st := .WANTNO }, reply := some false }
  | .WANTNO =>
    match s.q with
    | .EMPTY => { side := s }
    | .OPPOSITE => { side := { s with q := .EMPTY } }
  | .WANTYES =>
    match s.q with
    | .EMPTY => { side := { s with q := .OPPOSITE } }
    | .OPPOSITE => { side := s }

/-- Receive the message that enables the option (`telnet_will`, `telnet_do`); `accept` is the
answer of the side's own `*enabp` predicate. -/
def recvEnab (accept : Bool) (s : Side) : SideStep :=
  match s.st with
  | .NO =>
    if accept then { side := { s with st := .YES }, reply := some true, ack := some true }
    else { side := s, reply := some false }
  | .YES => { side := s }
  | .WANTNO =>
    match s.q with
    | .EMPTY => { side := { s with st := .NO }, ack := some false }
    | .OPPOSITE => { side := ⟨.YES, .EMPTY⟩, ack := some true }
  | .WANTYES =>
    match s.q with
    | .EMPTY => { side := { s with st := .YES }, ack := some true }
    | .OPPOSITE => { side := ⟨.WANTNO, .EMPTY⟩, reply := some false }

/-- Receive the message that disables the option (`telnet_wont`, `telnet_dont`). -/
def recvDisab (s : Side) : SideStep :=
  match s.st with
  | .NO => { side := s }
  | .YES => { side := { s with st := .NO }, reply := some false, ack := some false }
  | .WANTNO =>
    match s.q with
    | .EMPTY => { side := { s with st := .NO }, ack := some false }
    | .OPPOSITE => { side := ⟨.WANTYES, .EMPTY⟩, reply := some true }
  | .WANTYES =>
    match s.q with
    | .EMPTY => { side := { s with st := .NO }, ack := some false }
    | .OPPOSITE => { side := ⟨.NO, .EMPTY⟩, ack := some false }

/-- Receive either message. -/
def recv (accept : Bool) (s : Side) : Bool → SideStep
  | true => s.recvEnab accept
  | false => s.recvDisab

/-- The queue bit waits for an answer: it is set only while one is outstanding. -/
def QueueOk (s : Side) : Prop :=
  s.q = .OPPOSITE → s.st = .WANTNO ∨ s.st = .WANTYES

end Side

/-! ### The block -/

/-- A telnet option block (`opt_t`): `o_us`/`o_usq` and `o_him`/`o_himq`. -/
structure Opt where
  us : Side
  him : Side
  deriving DecidableEq, Repr

/-- What a handler does to a block. -/
structure OptStep where
  opt : Opt
  /-- The message sent, if any. -/
  reply : Option OptMsg
  /-- The acknowledgement made on the local-to-remote side. -/
  ackUs : Option Bool := none
  /-- The acknowledgement made on the remote-to-local side. -/
  ackHim : Option Bool := none
  deriving DecidableEq, Repr

/-- The words of the local-to-remote side. -/
def usMsg : Bool → OptMsg
  | true => .WILL
  | false => .WONT

/-- The words of the remote-to-local side. -/
def himMsg : Bool → OptMsg
  | true => .DO
  | false => .DONT

namespace Opt

def fresh : Opt := ⟨.fresh, .fresh⟩

/-- Run a side handler on the local-to-remote side. -/
def onUs (o : Opt) (f : Side → SideStep) : OptStep :=
  let r := f o.us
  { opt := { o with us := r.side }, reply := r.reply.map usMsg, ackUs := r.ack }

/-- Run a side handler on the remote-to-local side. -/
def onHim (o : Opt) (f : Side → SideStep) : OptStep :=
  let r := f o.him
  { opt := { o with him := r.side }, reply := r.reply.map himMsg, ackHim := r.ack }

/-- The block part of `telnet_neg_lenab`. -/
def negLenab (o : Opt) : OptStep := o.onUs Side.negEnab

/-- The block part of `telnet_neg_ldisab`. -/
def negLdisab (o : Opt) : OptStep := o.onUs Side.negDisab

/-- The block part of `telnet_neg_renab`. -/
def negRenab (o : Opt) : OptStep := o.onHim Side.negEnab

/-- The block part of `telnet_neg_rdisab`, which the source keeps but does not compile. -/
def negRdisab (o : Opt) : OptStep := o.onHim Side.negDisab

/-- The block part of `telnet_will`; `accept` is `telnet_renabp` of the option. -/
def recvWill (accept : Bool) (o : Opt) : OptStep := o.onHim (Side.recvEnab accept)

/-- The block part of `telnet_wont`. -/
def recvWont (o : Opt) : OptStep := o.onHim Side.recvDisab

/-- The block part of `telnet_do`; `accept` is `telnet_lenabp` of the option. -/
def recvDo (accept : Bool) (o : Opt) : OptStep := o.onUs (Side.recvEnab accept)

/-- The block part of `telnet_dont`. -/
def recvDont (o : Opt) : OptStep := o.onUs Side.recvDisab

end Opt

end Lpmud.Telnet
