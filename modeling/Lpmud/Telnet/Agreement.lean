import Lpmud.Lib.TransitionSystem
import Lpmud.Telnet.Option

/-!
# Telnet option negotiation: agreement of the two endpoints

Two endpoints that both run the handlers of `telnet.c` for one option, joined by two FIFO
channels. A step is a local request at either endpoint or the delivery of the oldest message to
either endpoint, in any order.

The two directions of an option do not interact: a `WILL` or `WONT` speaks of the sender's `us`
side and the receiver's `him` side, a `DO` or `DONT` of the sender's `him` side and the
receiver's `us` side. So the invariant is stated for one direction at a time (`Inflight`): the
states of the two sides together determine the messages that may be in flight between them, and
at most two are. It is symmetric in the two sides, which halves the case analysis.

Nor does negotiation go on for ever: the messages in flight and those that are still owed are paid
for by the requests, two for each (`deliveries_le`).
-/

namespace Lpmud.Telnet

open Option Function

/-! ### The two endpoints and their channels -/

/-- The two endpoints of a connection. -/
inductive Peer where
  | near | far
  deriving DecidableEq, Repr

def Peer.other : Peer → Peer
  | .near => .far
  | .far => .near

@[simp] theorem Peer.other_other (e : Peer) : e.other.other = e := by cases e <;> rfl

@[simp] theorem Peer.other_ne (e : Peer) : e.other ≠ e := by cases e <;> decide

@[simp] theorem Peer.ne_other (e : Peer) : e ≠ e.other := by cases e <;> decide

theorem Peer.eq_or_eq_other (e d : Peer) : d = e ∨ d = e.other := by
  cases e <;> cases d <;> decide

/-- The local requests. -/
inductive Request where
  | lenab | ldisab | renab | rdisab
  deriving DecidableEq, Repr

/-- The option block of both endpoints, and for each endpoint the messages on their way to it,
oldest first. -/
structure Link where
  opt : Peer → Opt
  chan : Peer → List OptMsg

/-- A fresh connection. -/
def Link.fresh : Link := ⟨fun _ ↦ Opt.fresh, fun _ ↦ []⟩

/-- What an endpoint does on a local request. An option without a block is not negotiated. -/
def onRequest (opt : UInt8) (o : Opt) (r : Request) : Opt × Option OptMsg :=
  match telnetGetOptp opt with
  | none => (o, none)
  | some _ =>
    let s := match r with
      | .lenab => o.negLenab
      | .ldisab => o.negLdisab
      | .renab => o.negRenab
      | .rdisab => o.negRdisab
    (s.opt, s.reply)

/-- What an endpoint does on a message: `telnet_will`, `telnet_wont`, `telnet_do`,
`telnet_dont`, with their answers for an option without a block and for a timing mark. -/
def onMessage (opt : UInt8) (o : Opt) (m : OptMsg) : Opt × Option OptMsg :=
  if m = .DO ∧ opt = TELOPT_TM then (o, some .WILL)
  else match telnetGetOptp opt with
    | none =>
      match m with
      | .WILL => (o, some .DONT)
      | .DO => (o, some .WONT)
      | .WONT => (o, none)
      | .DONT => (o, none)
    | some _ =>
      let s := match m with
        | .WILL => o.recvWill (telnetRenabp opt)
        | .WONT => o.recvWont
        | .DO => o.recvDo (telnetLenabp opt)
        | .DONT => o.recvDont
      (s.opt, s.reply)

/-- Endpoint `e` takes the block `o` and sends `m` to the other endpoint. -/
def Link.act (l : Link) (e : Peer) (p : Opt × Option OptMsg) : Link where
  opt := update l.opt e p.1
  chan := update l.chan e.other (l.chan e.other ++ p.2.toList)

/-- The steps of the connection. -/
inductive LinkAct where
  | request (e : Peer) (r : Request)
  | deliver (e : Peer)
  deriving DecidableEq, Repr

/-- One step; `none` where there is no message to deliver. -/
def Link.step (opt : UInt8) (l : Link) : LinkAct → Option Link
  | .request e r => some (l.act e (onRequest opt (l.opt e) r))
  | .deliver e =>
    match l.chan e with
    | [] => none
    | m :: rest =>
      some ({ l with chan := update l.chan e rest }.act e (onMessage opt (l.opt e) m))

/-- The connection as a transition system. -/
def negotiation (opt : UInt8) : TransitionSystem Link LinkAct where
  Init l := l = Link.fresh
  Step l a l' := l.step opt a = some l'

/-! ### One direction -/

/-- The messages of a channel that speak of the sender's `us` side, as requests to enable
(`true`) or disable (`false`). -/
def usMsgs (l : List OptMsg) : List Bool :=
  l.filterMap fun
    | .WILL => some true
    | .WONT => some false
    | _ => none

/-- The messages of a channel that speak of the sender's `him` side. -/
def himMsgs (l : List OptMsg) : List Bool :=
  l.filterMap fun
    | .DO => some true
    | .DONT => some false
    | _ => none

@[simp] theorem usMsgs_append (l k : List OptMsg) : usMsgs (l ++ k) = usMsgs l ++ usMsgs k :=
  List.filterMap_append

@[simp] theorem himMsgs_append (l k : List OptMsg) :
    himMsgs (l ++ k) = himMsgs l ++ himMsgs k :=
  List.filterMap_append

@[simp] theorem usMsgs_reply_us (r : Option Bool) : usMsgs (r.map usMsg).toList = r.toList := by
  rcases r with - | - | - <;> rfl

@[simp] theorem himMsgs_reply_us (r : Option Bool) : himMsgs (r.map usMsg).toList = [] := by
  rcases r with - | - | - <;> rfl

@[simp] theorem usMsgs_reply_him (r : Option Bool) : usMsgs (r.map himMsg).toList = [] := by
  rcases r with - | - | - <;> rfl

@[simp] theorem himMsgs_reply_him (r : Option Bool) :
    himMsgs (r.map himMsg).toList = r.toList := by
  rcases r with - | - | - <;> rfl

/-- **The invariant of one direction.** `Inflight a b f g` relates the states `a` and `b` of the
two sides that speak to each other to the requests `f` on their way from `a` to `b` and `g` on
their way from `b` to `a`. -/
inductive Inflight : OptState → OptState → List Bool → List Bool → Prop where
  /-- Nothing is outstanding. -/
  | no : Inflight .NO .NO [] []
  | yes : Inflight .YES .YES [] []
  /-- One side has asked and the other has not heard of it. -/
  | ask_yes : Inflight .WANTYES .NO [true] []
  | ask_yes' : Inflight .NO .WANTYES [] [true]
  | ask_no : Inflight .WANTNO .YES [false] []
  | ask_no' : Inflight .YES .WANTNO [] [false]
  /-- The other side has answered and the answer is on its way. -/
  | agreed : Inflight .WANTYES .YES [] [true]
  | agreed' : Inflight .YES .WANTYES [true] []
  | refused : Inflight .WANTYES .NO [] [false]
  | refused' : Inflight .NO .WANTYES [false] []
  | stopped : Inflight .WANTNO .NO [] [false]
  | stopped' : Inflight .NO .WANTNO [false] []
  /-- Both sides have asked for the same thing: each request answers the other. -/
  | both_yes : Inflight .WANTYES .WANTYES [true] [true]
  | both_no : Inflight .WANTNO .WANTNO [false] [false]
  /-- The answer is on its way with a request of the answering side behind it. -/
  | off_on : Inflight .WANTYES .WANTYES [] [false, true]
  | off_on' : Inflight .WANTYES .WANTYES [false, true] []
  | no_off_on : Inflight .WANTNO .WANTYES [] [false, true]
  | no_off_on' : Inflight .WANTYES .WANTNO [false, true] []
  | on_off : Inflight .WANTYES .WANTNO [] [true, false]
  | on_off' : Inflight .WANTNO .WANTYES [true, false] []

theorem Inflight.symm {a b : OptState} {f g : List Bool} (h : Inflight a b f g) :
    Inflight b a g f := by
  cases h <;> constructor

/-- The invariant of one direction together with both queue bits. -/
structure DirOk (us him : Side) (f g : List Bool) : Prop where
  inflight : Inflight us.st him.st f g
  us_queue : us.QueueOk
  him_queue : him.QueueOk

namespace DirOk

variable {us him : Side} {f g : List Bool}

theorem symm (h : DirOk us him f g) : DirOk him us g f :=
  ⟨h.inflight.symm, h.him_queue, h.us_queue⟩

theorem fresh : DirOk .fresh .fresh [] [] :=
  ⟨.no, nofun, nofun⟩

theorem negEnab (h : DirOk us him f g) :
    DirOk us.negEnab.side him (f ++ us.negEnab.reply.toList) g := by
  obtain ⟨a, q⟩ := us
  obtain ⟨b, q'⟩ := him
  obtain ⟨hin, hq, hhim⟩ := h
  change Inflight a b f g at hin
  refine ⟨?_, ?_, hhim⟩
  · cases hin <;> cases q <;> constructor
  · cases a <;> cases q <;> simp_all [Side.negEnab, Side.QueueOk]

theorem negDisab (h : DirOk us him f g) :
    DirOk us.negDisab.side him (f ++ us.negDisab.reply.toList) g := by
  obtain ⟨a, q⟩ := us
  obtain ⟨b, q'⟩ := him
  obtain ⟨hin, hq, hhim⟩ := h
  change Inflight a b f g at hin
  refine ⟨?_, ?_, hhim⟩
  · cases hin <;> cases q <;> constructor
  · cases a <;> cases q <;> simp_all [Side.negDisab, Side.QueueOk]

theorem recv {m : Bool} (accept : Bool) (h : DirOk us him f (m :: g)) :
    DirOk (us.recv accept m).side him (f ++ (us.recv accept m).reply.toList) g := by
  obtain ⟨a, q⟩ := us
  obtain ⟨b, q'⟩ := him
  obtain ⟨hin, hq, hhim⟩ := h
  change Inflight a b f (m :: g) at hin
  refine ⟨?_, ?_, hhim⟩
  · cases hin <;> cases q <;> cases accept <;> constructor
  · cases a <;> cases q <;> cases m <;> cases accept <;>
      simp_all [Side.recv, Side.recvEnab, Side.recvDisab, Side.QueueOk]

theorem agree (h : DirOk us him [] []) :
    us.st = him.st ∧ (us.st = .YES ∨ us.st = .NO) ∧ us.q = .EMPTY ∧ him.q = .EMPTY := by
  obtain ⟨a, q⟩ := us
  obtain ⟨b, q'⟩ := him
  obtain ⟨hin, hq, hq'⟩ := h
  change Inflight a b [] [] at hin
  cases hin <;> cases q <;> cases q' <;> simp_all [Side.QueueOk]

end DirOk

/-! ### Both directions -/

/-- The invariant of the connection: both directions are in order. -/
def LinkOk (l : Link) : Prop :=
  ∀ e, DirOk (l.opt e).us (l.opt e.other).him (usMsgs (l.chan e.other)) (himMsgs (l.chan e))

theorem LinkOk.fresh : LinkOk .fresh :=
  fun _ ↦ DirOk.fresh

/-- An action on the `us` side of `e` concerns only the direction that starts at `e`. -/
theorem LinkOk.act_us {l : Link} {e : Peer} {f : Side → SideStep}
    (hdir : DirOk (f (l.opt e).us).side (l.opt e.other).him
      (usMsgs (l.chan e.other) ++ (f (l.opt e).us).reply.toList) (himMsgs (l.chan e)))
    (hrev : DirOk (l.opt e.other).us (l.opt e).him
      (usMsgs (l.chan e)) (himMsgs (l.chan e.other))) :
    LinkOk (l.act e (((l.opt e).onUs f).opt, ((l.opt e).onUs f).reply)) := by
  intro d
  rcases e.eq_or_eq_other d with rfl | rfl
  · simpa [Link.act, Opt.onUs] using hdir
  · simpa [Link.act, Opt.onUs] using hrev

/-- An action on the `him` side of `e` concerns only the direction that ends at `e`. -/
theorem LinkOk.act_him {l : Link} {e : Peer} {f : Side → SideStep}
    (hdir : DirOk (f (l.opt e).him).side (l.opt e.other).us
      (himMsgs (l.chan e.other) ++ (f (l.opt e).him).reply.toList) (usMsgs (l.chan e)))
    (hrev : DirOk (l.opt e).us (l.opt e.other).him
      (usMsgs (l.chan e.other)) (himMsgs (l.chan e))) :
    LinkOk (l.act e (((l.opt e).onHim f).opt, ((l.opt e).onHim f).reply)) := by
  intro d
  rcases e.eq_or_eq_other d with rfl | rfl
  · simpa [Link.act, Opt.onHim] using hrev
  · simpa [Link.act, Opt.onHim] using hdir.symm

theorem LinkOk.request {opt : UInt8} {i : OptIndex} (hi : telnetGetOptp opt = some i) {l : Link}
    (h : LinkOk l) (e : Peer) (r : Request) : LinkOk (l.act e (onRequest opt (l.opt e) r)) := by
  have hrev : DirOk (l.opt e.other).us (l.opt e).him (usMsgs (l.chan e))
      (himMsgs (l.chan e.other)) := by simpa using h e.other
  simp only [onRequest, hi]
  cases r with
  | lenab => exact LinkOk.act_us (h e).negEnab hrev
  | ldisab => exact LinkOk.act_us (h e).negDisab hrev
  | renab => exact LinkOk.act_him hrev.symm.negEnab (h e)
  | rdisab => exact LinkOk.act_him hrev.symm.negDisab (h e)

theorem ne_TELOPT_TM {opt : UInt8} {i : OptIndex} (hi : telnetGetOptp opt = some i) :
    opt ≠ TELOPT_TM := by
  rintro rfl
  rw [show telnetGetOptp TELOPT_TM = none from by decide] at hi
  cases hi

theorem LinkOk.deliver {opt : UInt8} {i : OptIndex} (hi : telnetGetOptp opt = some i) {l : Link}
    (h : LinkOk l) {e : Peer} {m : OptMsg} {rest : List OptMsg} (hc : l.chan e = m :: rest) :
    LinkOk ({ l with chan := update l.chan e rest }.act e
      (onMessage opt (l.opt e) m)) := by
  set l' : Link := { l with chan := update l.chan e rest } with hl'
  have hself : l'.chan e = rest := by simp [hl']
  have hother : l'.chan e.other = l.chan e.other := by simp [hl']
  have hdir : DirOk (l'.opt e).us (l'.opt e.other).him (usMsgs (l'.chan e.other))
      (himMsgs (m :: rest)) := by rw [hother, ← hc]; exact h e
  have hrev : DirOk (l'.opt e).him (l'.opt e.other).us (himMsgs (l'.chan e.other))
      (usMsgs (m :: rest)) := by
    rw [hother, ← hc]
    simpa using (h e.other).symm
  simp only [onMessage, hi, ne_TELOPT_TM hi, and_false, if_false]
  cases m with
  | WILL => exact LinkOk.act_him (hself ▸ hrev.recv (m := true) _) (hself ▸ hdir)
  | WONT => exact LinkOk.act_him (hself ▸ hrev.recv (m := false) true) (hself ▸ hdir)
  | DO => exact LinkOk.act_us (hself ▸ hdir.recv (m := true) _) (hself ▸ hrev.symm)
  | DONT => exact LinkOk.act_us (hself ▸ hdir.recv (m := false) true) (hself ▸ hrev.symm)

theorem LinkOk.step {opt : UInt8} {i : OptIndex} (hi : telnetGetOptp opt = some i) {l l' : Link}
    (h : LinkOk l) {a : LinkAct} (hs : l.step opt a = some l') : LinkOk l' := by
  cases a with
  | request e r =>
    obtain rfl := some.inj hs
    exact h.request hi e r
  | deliver e =>
    rw [Link.step] at hs
    split at hs
    · cases hs
    · obtain rfl := some.inj hs
      exact h.deliver hi (by assumption)

theorem Link.step_unknown {opt : UInt8} (hi : telnetGetOptp opt = none) {a : LinkAct} {l : Link}
    (hs : Link.fresh.step opt a = some l) : l = .fresh := by
  cases a with
  | request e r =>
    obtain rfl := some.inj hs
    simp [Link.act, onRequest, hi, Link.fresh]
  | deliver e => cases hs

theorem LinkOk.of_reachable {opt : UInt8} {l : Link} (h : (negotiation opt).Reachable l) :
    LinkOk l := by
  rcases hi : telnetGetOptp opt with - | i
  · have : l = .fresh := h.invariant (fun _ h0 ↦ h0) (fun s a s' hs hst ↦ by
      subst hs
      exact Link.step_unknown hi hst)
    exact this ▸ LinkOk.fresh
  · exact h.invariant (fun s hs ↦ hs ▸ LinkOk.fresh) fun s a s' hs hst ↦ hs.step hi hst

/-- **Agreement.** In every reachable state of the connection a queue bit is set only while its
side waits for an answer; and once both channels are empty, each endpoint's `us` state is the
other's `him` state, it is `YES` or `NO`, and both queue bits are empty. -/
theorem negotiation_agreement (opt : UInt8) (l : Link) (h : (negotiation opt).Reachable l) :
    (∀ e, (l.opt e).us.QueueOk ∧ (l.opt e).him.QueueOk) ∧
      ((∀ e, l.chan e = []) → ∀ e,
        (l.opt e).us.st = (l.opt e.other).him.st ∧
        ((l.opt e).us.st = .YES ∨ (l.opt e).us.st = .NO) ∧
        (l.opt e).us.q = .EMPTY ∧ (l.opt e.other).him.q = .EMPTY) := by
  have hok := LinkOk.of_reachable h
  refine ⟨fun e ↦ ⟨(hok e).us_queue, ?_⟩, fun hempty e ↦ ?_⟩
  · simpa using (hok e.other).him_queue
  · have hdir := hok e
    rw [hempty, hempty] at hdir
    exact hdir.agree

/-- Agreement read at the connection in which the near endpoint's request to suppress go-aheads
has been granted: both ends then say `YES`. -/
theorem negotiation_agreement_granted :
    ∃ l, (negotiation TELOPT_SGA).Reachable l ∧ (l.opt .near).us.st = .YES ∧
      (l.opt .far).him.st = .YES ∧ (l.opt .near).us.QueueOk := by
  have h₀ : (negotiation TELOPT_SGA).Reachable Link.fresh := .init rfl
  have h₁ := h₀.step (show Link.fresh.step TELOPT_SGA (.request .near .lenab) = some _ from rfl)
  have h₂ := h₁.step (show Link.step TELOPT_SGA _ (.deliver .far) = some _ from rfl)
  have h₃ := h₂.step (show Link.step TELOPT_SGA _ (.deliver .near) = some _ from rfl)
  have hagree := negotiation_agreement TELOPT_SGA _ h₃
  have hnear := hagree.2 (by rintro (_ | _) <;> rfl) .near
  exact ⟨_, h₃, rfl, hnear.1.symm.trans rfl, (hagree.1 .near).1⟩

/-! ### Deliveries come to an end -/

/-- The messages that a side waits for, other than those on their way to it: the answer to its
request, and for the queue bit a request to the other side and the answer to that. -/
def Side.owed (s : Side) (coming : List Bool) : ℕ :=
  (if (s.st = .WANTNO ∨ s.st = .WANTYES) ∧ coming = [] then 1 else 0) +
    if s.q = .OPPOSITE then 2 else 0

/-- How many deliveries one direction has ahead of it. -/
def ahead (us him : Side) (f g : List Bool) : ℕ :=
  f.length + g.length + us.owed g + him.owed f

theorem ahead_comm (us him : Side) (f g : List Bool) : ahead us him f g = ahead him us g f := by
  rw [ahead, ahead]
  omega

namespace DirOk

variable {us him : Side} {f g : List Bool}

theorem ahead_recv {m : Bool} (accept : Bool) (h : DirOk us him f (m :: g)) :
    ahead (us.recv accept m).side him (f ++ (us.recv accept m).reply.toList) g <
      ahead us him f (m :: g) := by
  obtain ⟨a, q⟩ := us
  obtain ⟨b, q'⟩ := him
  have hin : Inflight a b f (m :: g) := h.inflight
  cases hin <;> cases q <;> cases q' <;> cases accept <;> decide

theorem ahead_neg (h : DirOk us him f g) :
    ahead us.negEnab.side him (f ++ us.negEnab.reply.toList) g ≤ ahead us him f g + 2 ∧
      ahead us.negDisab.side him (f ++ us.negDisab.reply.toList) g ≤ ahead us him f g + 2 := by
  obtain ⟨a, q⟩ := us
  obtain ⟨b, q'⟩ := him
  have hin : Inflight a b f g := h.inflight
  cases hin <;> cases q <;> cases q' <;> decide

end DirOk

/-- How many deliveries both directions have ahead of them, seen from an endpoint. -/
def Link.ahead (l : Link) (e : Peer) : ℕ :=
  Telnet.ahead (l.opt e).us (l.opt e.other).him (usMsgs (l.chan e.other)) (himMsgs (l.chan e)) +
    Telnet.ahead (l.opt e).him (l.opt e.other).us (himMsgs (l.chan e.other)) (usMsgs (l.chan e))

theorem Link.ahead_eq (l : Link) (d e : Peer) : l.ahead d = l.ahead e := by
  rcases e.eq_or_eq_other d with rfl | rfl
  · rfl
  · rw [ahead, ahead, Peer.other_other, Nat.add_comm]
    exact congrArg₂ _ (ahead_comm ..) (ahead_comm ..)

/-- Whether a step is a request. -/
def LinkAct.isRequest : LinkAct → Bool
  | .request _ _ => true
  | .deliver _ => false

namespace LinkOk

variable {opt : UInt8} {i : OptIndex} (hi : telnetGetOptp opt = some i) {l l' : Link}

theorem rev (h : LinkOk l) (e : Peer) : DirOk (l.opt e).him (l.opt e.other).us
    (himMsgs (l.chan e.other)) (usMsgs (l.chan e)) := by
  simpa using (h e.other).symm

include hi

theorem ahead_request (h : LinkOk l) (e : Peer) (r : Request) :
    (l.act e (onRequest opt (l.opt e) r)).ahead e ≤ l.ahead e + 2 := by
  have hus := (h e).ahead_neg
  have hhim := (h.rev e).ahead_neg
  rw [Link.ahead, Link.ahead]
  cases r
  all_goals
    simp [onRequest, hi, Link.act, Opt.negLenab, Opt.negLdisab, Opt.negRenab, Opt.negRdisab,
      Opt.onUs, Opt.onHim]
    omega

theorem ahead_deliver (h : LinkOk l) {e : Peer} (hst : l.step opt (.deliver e) = some l') :
    l'.ahead e < l.ahead e := by
  rw [Link.step] at hst
  split at hst
  next => cases hst
  next m rest hc =>
    obtain rfl := some.inj hst
    have hus := h e
    have hhim := h.rev e
    rw [Link.ahead, Link.ahead]
    simp only [hc, onMessage, hi, ne_TELOPT_TM hi, and_false, if_false] at hus hhim ⊢
    cases m
    all_goals simp [Link.act, Opt.recvWill, Opt.recvWont, Opt.recvDo, Opt.recvDont, Opt.onHim,
      Opt.onUs]
    case WILL => exact Nat.add_lt_add_left (hhim.ahead_recv (m := true) _) _
    case WONT => exact Nat.add_lt_add_left (hhim.ahead_recv (m := false) true) _
    case DO => exact Nat.add_lt_add_right (hus.ahead_recv (m := true) _) _
    case DONT => exact Nat.add_lt_add_right (hus.ahead_recv (m := false) true) _

theorem ahead_run {acts : List LinkAct} (d : Peer) : ∀ {l l' : Link}, LinkOk l →
    acts.foldlM (Link.step opt) l = some l' →
      acts.countP (!·.isRequest) + l'.ahead d ≤ l.ahead d + 2 * acts.countP (·.isRequest) := by
  induction acts with
  | nil =>
    intro l l' h hrun
    obtain rfl := some.inj hrun
    exact (Nat.zero_add _).le
  | cons a acts ih =>
    intro l l' h hrun
    obtain ⟨l₁, hst, hrun⟩ := bind_eq_some_iff.1 hrun
    have hrest := ih (h.step hi hst) hrun
    cases a with
    | request e r =>
      obtain rfl := some.inj hst
      have hone := h.ahead_request hi e r
      rw [Link.ahead_eq _ e d, l.ahead_eq e d] at hone
      simp [LinkAct.isRequest] at hrest ⊢
      omega
    | deliver e =>
      have hone := h.ahead_deliver hi hst
      rw [l₁.ahead_eq e d, l.ahead_eq e d] at hone
      simp [LinkAct.isRequest] at hrest ⊢
      omega

end LinkOk

/-- **Negotiation does not loop.** In every run of a connection, in whatever order requests are made
and messages delivered, there are at most two deliveries for each request. -/
theorem deliveries_le {opt : UInt8} {i : OptIndex} (hi : telnetGetOptp opt = some i)
    {acts : List LinkAct} {l : Link} (hrun : acts.foldlM (Link.step opt) .fresh = some l) :
    acts.countP (!·.isRequest) ≤ 2 * acts.countP (·.isRequest) := by
  have hle := LinkOk.fresh.ahead_run hi .near hrun
  have hfresh : Link.fresh.ahead .near = 0 := rfl
  omega

/-- The near endpoint asks to suppress go-aheads, and is answered. -/
theorem deliveries_le_granted : List.countP (fun a : LinkAct ↦ !a.isRequest)
    [.request .near .lenab, .deliver .far, .deliver .near] ≤ 2 :=
  @deliveries_le TELOPT_SGA .SGA rfl [.request .near .lenab, .deliver .far, .deliver .near] _ rfl

end Lpmud.Telnet
