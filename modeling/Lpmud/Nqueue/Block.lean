import Lpmud.Nqueue

/-!
# Network queues in memory

The same functions of `nqueue.c` as they work on memory: a header of four unsigned shorts, and the
bytes behind it. Nothing is assumed here of the header; a function ends with `none` where it
accesses a byte that is not one of the queue's, or does not end.

`nq_recv` and `nq_send` depend on the socket. A `recv()` that is asked for so many bytes gets no
more than these, and a `send()` takes no more than it is offered. Both functions add to the counter
of their caller, if there is one.
-/

namespace Lpmud

/-- An integer stored as `u_short`. -/
def ushort (n : ℤ) : ℕ :=
  (n % 65536).toNat

/-- A queue in memory (`nqueue_t`), with the bytes behind the header. -/
structure NqBlock where
  nqSize : ℕ
  nqLen : ℕ
  nqRptr : ℕ
  nqWptr : ℕ
  bytes : Bytes
  deriving DecidableEq

/-- What one `recv()` answers: an error, or the bytes that have arrived. -/
inductive RecvResult where
  | failed
  | received (bs : Bytes)

namespace NqBlock

variable (nq : NqBlock)

def nqInit : NqBlock :=
  { nq with nqLen := 0, nqRptr := 0, nqWptr := 0 }

/-- `nq_alloc`, with what is in the memory that is allocated. -/
def nqAlloc (size : ℕ) (bytes : Bytes) : NqBlock :=
  nqInit { nqSize := size, nqLen := 0, nqRptr := 0, nqWptr := 0, bytes }

def nqAvail : ℕ :=
  ushort (nq.nqSize - nq.nqLen)

def nqEmpty : Bool :=
  nq.nqLen = 0

def nqFull : Bool :=
  nq.nqLen = nq.nqSize

/-- Read `n` bytes at a position of the queue. -/
def load (i n : ℕ) : Option Bytes :=
  if i + n ≤ nq.bytes.length then some ((nq.bytes.drop i).take n) else none

/-- Write bytes at a position of the queue. -/
def store (i : ℕ) (cs : Bytes) : Option NqBlock :=
  if i + cs.length ≤ nq.bytes.length then
    some { nq with bytes := nq.bytes.take i ++ cs ++ nq.bytes.drop (i + cs.length) }
  else none

/-- The read pointer goes over `n` bytes, which are no longer in the queue. -/
def passed (n : ℕ) : NqBlock :=
  let rptr := ushort (nq.nqRptr + n)
  { nq with
    nqLen := ushort (nq.nqLen - n)
    nqRptr := if rptr = nq.nqSize then 0 else rptr }

/-- The write pointer goes over `n` bytes, which are now in the queue. -/
def filled (n : ℕ) : NqBlock :=
  let wptr := ushort (nq.nqWptr + n)
  { nq with
    nqLen := ushort (nq.nqLen + n)
    nqWptr := if wptr = nq.nqSize then 0 else wptr }

def nqGetc : Option (UInt8 × NqBlock) :=
  nq.bytes[nq.nqRptr]?.map fun c ↦ (c, nq.passed 1)

def nqUngetc (c : UInt8) : Option NqBlock :=
  let rptr := if nq.nqRptr = 0 then ushort (nq.nqSize - 1) else nq.nqRptr - 1
  { nq with nqLen := ushort (nq.nqLen + 1), nqRptr := rptr }.store rptr [c]

def nqPutc (c : UInt8) : Option NqBlock :=
  (nq.store nq.nqWptr [c]).map (filled · 1)

/-- The room for one contiguous write, as `nq_puts` and `nq_recv` compute it. -/
def space : ℤ :=
  if nq.nqRptr > nq.nqWptr then nq.nqRptr - nq.nqWptr else nq.nqSize - nq.nqWptr

/-- The loop of `nq_puts`. -/
def nqPutsLoop : ℕ → NqBlock → Bytes → Option NqBlock
  | _, nq, [] => some nq
  | 0, _, _ :: _ => none
  | n + 1, nq, cp => do
    let size := (min nq.space cp.length).toNat
    let nq' ← nq.store nq.nqWptr (cp.take size)
    nqPutsLoop n (nq'.filled size) (cp.drop size)

def nqPuts (cp : CString) : Option NqBlock :=
  nqPutsLoop cp.bytes.length nq cp.bytes

def nqUnputc : NqBlock :=
  { nq with
    nqLen := ushort (nq.nqLen - 1)
    nqWptr := if nq.nqWptr = 0 then ushort (nq.nqSize - 1) else nq.nqWptr - 1 }

/-- The counter of the caller, if there is one, after so many bytes. -/
def counted (uip : Option UInt32) (cc : ℕ) : Option UInt32 :=
  uip.map (· + UInt32.ofNat cc)

/-- `nq_recv`: what it returns, the counter and the queue. The bytes that are asked for may all
arrive, so there has to be room for them. -/
def nqRecv (uip : Option UInt32) (r : RecvResult) : Option (ℤ × Option UInt32 × NqBlock) :=
  let len := nq.space.toNat
  if nq.nqWptr + len ≤ nq.bytes.length then
    match r with
    | .failed => some (-1, uip, nq)
    | .received bs =>
      let cs := bs.take len
      if cs = [] then some (0, uip, nq)
      else (nq.store nq.nqWptr cs).map fun nq' ↦
        (cs.length, counted uip cs.length, nq'.filled cs.length)
  else none

/-- What `nq_send` does: the value it returns, the counter and the queue afterwards, and the bytes
that the socket took. -/
structure Sending where
  cc : ℤ
  uip : Option UInt32
  nq : NqBlock
  out : Bytes

/-- The loop of `nq_send`. The socket answers one `send()` after the other. -/
def nqSendLoop : ℕ → NqBlock → (ℕ → SendResult) → ℤ → Option UInt32 → Option Sending
  | n, nq, answers, cc, uip =>
    if nq.nqLen = 0 then some ⟨cc, uip, nq, []⟩
    else match n with
      | 0 => none
      | n + 1 => do
        let len := (min (nq.nqSize - nq.nqRptr : ℤ) nq.nqLen).toNat
        let offered ← nq.load nq.nqRptr len
        match answers 0 with
        | .failed _ => some ⟨-1, uip, nq, []⟩
        | .sent k =>
          let cc := min k len
          let nq' := if 0 < cc then nq.passed cc else nq
          let uip' := if 0 < cc then counted uip cc else uip
          if cc ≠ len then some ⟨cc, uip', nq', offered.take cc⟩
          else do
            let rest ← nqSendLoop n nq' (fun i ↦ answers (i + 1)) cc uip'
            some { rest with out := offered.take cc ++ rest.out }

def nqSend (uip : Option UInt32) (answers : ℕ → SendResult) : Option Sending :=
  nqSendLoop nq.nqLen nq answers 0 uip

end NqBlock

end Lpmud
