import Lpmud.Telnet.Space

/-!
# What wakes a session up

A session runs only when a callback of its network descriptor is called, so whatever is left to do
must have a callback enabled that does it. `awake_iff` says that this is so after any events, in any
order, unless an error jumped out of `new_player` when the connection was accepted:

* while there is output, or output was dropped, or input is held back by flow control, the write
  callback is enabled; this is what ends flow control;
* while the read callback is disabled, or there is raw input, the clean-up callback is enabled,
  which goes on with the input, unless flow control holds the input back;
* a session that has been detached has the clean-up callback enabled, which shuts it down.

The flags `TF_ENABW` and `TF_ENABR` say which callbacks have been disabled. Output, replies and
option negotiation leave it alone (`Still`): they do nothing to readiness but enable the write
callback. The calls of LPC code may also detach the session (`Calm`).
-/

namespace Lpmud.Telnet

open Option

/-- The write callback is enabled when it is needed. -/
def OutputAwake (tp : TelnetT) : Prop :=
  tp.nd.w = !tp.flags.enabw ∧
    (tp.outq.nqEmpty = false ∨ tp.flags.flowc = true ∨ tp.flags.ovfloutq = true → tp.nd.w = true)

/-- The clean-up callback is enabled when it is needed. -/
def InputAwake (tp : TelnetT) : Prop :=
  tp.nd.r = !tp.flags.enabr ∧
    (tp.nd.r = false ∨ tp.rawq.nqEmpty = false → tp.nd.c = true ∨ tp.flags.flowc = true) ∧
    (tp.flags.attach = false → tp.nd.c = true)

/-- **A session with work left will be woken up.** -/
structure Awake (tp : TelnetT) : Prop where
  output : OutputAwake tp
  input : InputAwake tp

/-- A step that does nothing to readiness, unless it enables the write callback. -/
structure Still (tp tp' : TelnetT) : Prop where
  output : OutputAwake tp → OutputAwake tp'
  rawq : tp'.rawq = tp.rawq
  r : tp'.nd.r = tp.nd.r
  c : tp'.nd.c = tp.nd.c
  attach : tp'.flags.attach = tp.flags.attach
  enabr : tp'.flags.enabr = tp.flags.enabr
  flowc : tp'.flags.flowc = tp.flags.flowc

/-- A step that may also detach the session. -/
structure Calm (tp tp' : TelnetT) : Prop where
  output : OutputAwake tp → OutputAwake tp'
  input : InputAwake tp → InputAwake tp'
  enabr : tp'.flags.enabr = tp.flags.enabr

theorem Still.refl (tp : TelnetT) : Still tp tp :=
  ⟨id, rfl, rfl, rfl, rfl, rfl, rfl⟩

theorem Still.trans {a b c : TelnetT} (h : Still a b) (k : Still b c) : Still a c :=
  ⟨k.output ∘ h.output, k.rawq.trans h.rawq, k.r.trans h.r, k.c.trans h.c, k.attach.trans h.attach,
    k.enabr.trans h.enabr, k.flowc.trans h.flowc⟩

theorem Still.calm {tp tp' : TelnetT} (h : Still tp tp') : Calm tp tp' := by
  refine ⟨h.output, fun hi ↦ ?_, h.enabr⟩
  rw [InputAwake, h.rawq, h.r, h.c, h.attach, h.enabr, h.flowc]
  exact hi

theorem Calm.trans {a b c : TelnetT} (h : Calm a b) (k : Calm b c) : Calm a c :=
  ⟨k.output ∘ h.output, k.input ∘ h.input, k.enabr.trans h.enabr⟩

theorem Calm.awake {tp tp' : TelnetT} (h : Calm tp tp') (ha : Awake tp) : Awake tp' :=
  ⟨h.output ha.output, h.input ha.input⟩

/-! ### Output -/

theorem still_enabw {tp : TelnetT} (q : Nqueue TELNET_OUTQ_SIZE) (ovfloutq : Bool) :
    Still tp (telnetEnabw { tp with outq := q, flags.ovfloutq := ovfloutq }) := by
  rw [telnetEnabw]
  cases henabw : tp.flags.enabw with
  | true => exact ⟨fun _ ↦ ⟨rfl, fun _ ↦ rfl⟩, rfl, rfl, rfl, rfl, rfl, rfl⟩
  | false =>
    refine ⟨fun h ↦ ⟨h.1, fun _ ↦ ?_⟩, rfl, rfl, rfl, rfl, rfl, rfl⟩
    exact h.1.trans (by rw [henabw]; rfl)

theorem still_telnetReply {bs : Bytes} {tp tp' : TelnetT} (h : telnetReply bs tp = some tp') :
    Still tp tp' := by
  obtain ⟨q, -, rfl⟩ := map_eq_some_iff.1 h
  exact still_enabw q tp.flags.ovfloutq

theorem still_telnetFlush (rs : List SendResult) (tp : TelnetT) : Still tp (telnetFlush rs tp) := by
  rw [telnetFlush]
  split
  · exact .refl tp
  · rename_i hne
    exact ⟨fun h ↦ ⟨h.1, fun _ ↦ h.2 (.inl (Bool.eq_false_iff.2 hne))⟩, rfl, rfl, rfl, rfl, rfl,
      rfl⟩

theorem still_telnetOutput {rs : List SendResult} {cp : Bytes} {tp tp' : TelnetT}
    (h : telnetOutput rs cp tp = some tp') : Still tp tp' := by
  simp only [telnetOutput] at h
  split at h
  · cases h
    exact .refl tp
  split at h
  · cases h
    exact .refl tp
  set tp₁ := if TELNET_OUTQ_HIWAT ≤ tp.outq.nqLen + (encapsulateAll [] cp).length then
    telnetFlush rs tp else tp with htp₁
  have hflush : Still tp tp₁ := by
    rw [htp₁]
    split
    · exact still_telnetFlush rs tp
    · exact .refl tp
  split at h
  · cases h
    exact hflush.trans (still_enabw tp₁.outq true)
  · obtain ⟨q, -, rfl⟩ := map_eq_some_iff.1 h
    exact hflush.trans (still_enabw q tp₁.flags.ovfloutq)

/-! ### Option handlers -/

theorem still_telnetAck (opt : UInt8) (tp : TelnetT) (a : Option Bool) :
    Still tp (telnetAck opt tp a) := by
  cases a with
  | none => exact .refl tp
  | some b =>
    rw [telnetAck]
    split
    · exact ⟨id, rfl, rfl, rfl, rfl, rfl, rfl⟩
    · exact .refl tp

theorem still_telnetOptStep {i : OptIndex} {opt : UInt8} {tp tp' : TelnetT} {s : OptStep}
    (h : telnetOptStep i opt tp s = some tp') : Still tp tp' := by
  obtain ⟨tp₁, hsent, rfl⟩ := map_eq_some_iff.1 h
  refine Still.trans ?_ (still_telnetAck opt tp₁ s.ackUs)
  have hoptb : Still tp { tp with optb := fun j ↦ if j = i then s.opt else tp.optb j } :=
    ⟨id, rfl, rfl, rfl, rfl, rfl, rfl⟩
  split at hsent
  · cases hsent
    exact hoptb
  · exact hoptb.trans (still_telnetReply hsent)

section Negotiation

variable {opt : UInt8} {tp tp' : TelnetT}

theorem still_telnetNegLenab (h : telnetNegLenab opt tp = some tp') : Still tp tp' := by
  rw [telnetNegLenab] at h
  split at h
  · cases h
    exact .refl tp
  · exact still_telnetOptStep h

theorem still_telnetNegLdisab (h : telnetNegLdisab opt tp = some tp') : Still tp tp' := by
  rw [telnetNegLdisab] at h
  split at h
  · cases h
    exact .refl tp
  · exact still_telnetOptStep h

theorem still_telnetWill (h : telnetWill opt tp = some tp') : Still tp tp' := by
  rw [telnetWill] at h
  split at h
  · exact still_telnetReply h
  · exact still_telnetOptStep h

theorem still_telnetWont (h : telnetWont opt tp = some tp') : Still tp tp' := by
  rw [telnetWont] at h
  split at h
  · cases h
    exact .refl tp
  · exact still_telnetOptStep h

theorem still_telnetDo (h : telnetDo opt tp = some tp') : Still tp tp' := by
  rw [telnetDo] at h
  split at h
  · exact still_telnetReply h
  split at h
  · exact still_telnetReply h
  · exact still_telnetOptStep h

theorem still_telnetDont (h : telnetDont opt tp = some tp') : Still tp tp' := by
  rw [telnetDont] at h
  split at h
  · cases h
    exact .refl tp
  · exact still_telnetOptStep h

end Negotiation

/-! ### Calls from outside the session -/

theorem calm_telnetDetach (tp : TelnetT) : Calm tp (telnetDetach tp) := by
  rw [telnetDetach]
  split
  · exact ⟨id, fun h ↦ ⟨h.1, fun _ ↦ .inl rfl, fun _ ↦ rfl⟩, rfl⟩
  · exact (Still.refl tp).calm

theorem Call.calm {c : Call} {tp tp' : TelnetT} (h : c.run tp = some tp') : Calm tp tp' := by
  cases c with
  | output cp rs => exact (still_telnetOutput h).calm
  | enableEcho =>
    change telnetEnableEcho tp = some tp' at h
    rw [telnetEnableEcho] at h
    split at h
    · cases h
      exact (Still.refl tp).calm
    · exact (still_telnetNegLenab h).calm
  | disableEcho =>
    change telnetDisableEcho tp = some tp' at h
    rw [telnetDisableEcho] at h
    split at h
    · cases h
      exact (Still.refl tp).calm
    · exact (still_telnetNegLdisab h).calm
  | detach =>
    cases h
    exact calm_telnetDetach tp

theorem calm_runCalls {calls : List Call} : ∀ {tp tp' : TelnetT}, runCalls calls tp = some tp' →
    Calm tp tp' := by
  induction calls with
  | nil =>
    intro tp tp' h
    cases h
    exact (Still.refl tp).calm
  | cons c calls ih =>
    intro tp tp' h
    obtain ⟨tp₁, hc, hcalls⟩ := bind_eq_some_iff.1 (List.foldlM_cons.symm.trans h)
    exact (Call.calm hc).trans (ih hcalls)

theorem calm_telnetDisconnect {lpc : Lpc} {tp tp' : TelnetT}
    (h : telnetDisconnect lpc tp = some tp') : Calm tp tp' := by
  rw [telnetDisconnect] at h
  split at h
  · obtain ⟨tp₁, hcalls, rfl⟩ := map_eq_some_iff.1 h
    split
    · exact calm_runCalls hcalls
    · exact (calm_runCalls hcalls).trans (calm_telnetDetach tp₁)
  · cases h
    exact (Still.refl tp).calm

/-! ### Input -/

section Input

variable {c : UInt8} {lpc : Lpc} {tp tp' : TelnetT}

theorem still_telnetCanqPutc (h : telnetCanqPutc c tp = some tp') : Still tp tp' := by
  simp only [telnetCanqPutc] at h
  split at h
  · cases h
    exact .refl tp
  split at h
  · obtain ⟨q, -, rfl⟩ := map_eq_some_iff.1 h
    exact ⟨id, rfl, rfl, rfl, rfl, rfl, rfl⟩
  have hfull : Still tp { tp with flags.ovflcanq := true } := ⟨id, rfl, rfl, rfl, rfl, rfl, rfl⟩
  split at h
  · exact hfull.trans (still_telnetReply h)
  · cases h
    exact hfull

theorem still_telnetOptqPutc (h : telnetOptqPutc c tp = some tp') : Still tp tp' := by
  rw [telnetOptqPutc] at h
  split at h
  · cases h
    exact .refl tp
  obtain ⟨q, -, h⟩ := bind_eq_some_iff.1 h
  split at h
  · obtain ⟨q', -, rfl⟩ := map_eq_some_iff.1 h
    exact ⟨id, rfl, rfl, rfl, rfl, rfl, rfl⟩
  · cases h
    exact ⟨id, rfl, rfl, rfl, rfl, rfl, rfl⟩

theorem still_telnetEc (h : telnetEc tp = some tp') : Still tp tp' := by
  obtain ⟨q, hec, -⟩ := telnetEc_spec tp
  rw [hec] at h
  cases h
  exact ⟨id, rfl, rfl, rfl, rfl, rfl, rfl⟩

theorem still_telnetEl (tp : TelnetT) : Still tp (telnetEl tp) := by
  rw [telnetEl_eq]
  exact ⟨id, rfl, rfl, rfl, rfl, rfl, rfl⟩

theorem still_telnetDm (tp : TelnetT) : Still tp (telnetDm tp) := by
  rw [telnetDm]
  split
  · exact .refl tp
  · exact ⟨id, rfl, rfl, rfl, rfl, rfl, rfl⟩

theorem still_telnetAyt (h : telnetAyt tp = some tp') : Still tp tp' := by
  obtain ⟨q, -, rfl⟩ := map_eq_some_iff.1 h
  exact still_enabw q tp.flags.ovfloutq

theorem still_telnetSe (h : telnetSe tp = some tp') : Still tp tp' := by
  obtain ⟨q, -, rfl⟩ := map_eq_some_iff.1 h
  exact ⟨id, rfl, rfl, rfl, rfl, rfl, rfl⟩

theorem still_state (tp : TelnetT) (state : InputState) : Still tp { tp with state := state } :=
  ⟨id, rfl, rfl, rfl, rfl, rfl, rfl⟩

theorem still_telnetCommand (h : telnetCommand c tp = some tp') : Still tp tp' := by
  revert h
  refine telnetCommand_cases (P := fun r ↦ r = some tp' → Still tp tp') ?_ still_telnetAyt
    still_telnetEc ?_ still_telnetCanqPutc ?_ ?_
  · rintro ⟨⟩
    exact still_telnetDm tp
  · rintro ⟨⟩
    exact still_telnetEl tp
  · rintro st - - ⟨⟩
    exact still_state tp st
  · rintro ⟨⟩
    exact .refl tp

/-- **An end of line** may run LPC code. -/
theorem calm_telnetEol {lines : List Bytes} (h : telnetEol lpc tp = some (tp', lines)) :
    Calm tp tp' := by
  rw [telnetEol] at h
  split at h
  · cases h
    exact (Still.refl tp).calm
  obtain ⟨⟨tp₁, cp⟩, hstring, h⟩ := bind_eq_some_iff.1 h
  obtain ⟨⟨tp₂, lines'⟩, hinput, h⟩ := map_eq_some_iff.1 h
  cases h
  have hfirst : Still tp tp₁ := by
    rw [telnetEolString] at hstring
    split at hstring
    · cases hstring
      exact ⟨id, rfl, rfl, rfl, rfl, rfl, rfl⟩
    · obtain ⟨q, -, h⟩ := map_eq_some_iff.1 hstring
      cases h
      exact ⟨id, rfl, rfl, rfl, rfl, rfl, rfl⟩
  have hsecond : Calm tp₁ tp₂ := by
    rw [interactiveInput] at hinput
    split at hinput
    · obtain ⟨tp₃, hcalls, h⟩ := map_eq_some_iff.1 hinput
      cases h
      exact calm_runCalls hcalls
    · cases hinput
      exact (Still.refl tp₁).calm
  have hboth := hfirst.calm.trans hsecond
  split
  · exact hboth
  · exact hboth.trans ⟨id, id, rfl⟩

/-- What one byte of input does: only LPC code that is run for a line can detach the session. -/
structure ByteCalm (tp : TelnetT) (r : ByteResult) : Prop where
  next : ∀ tp', r = some (tp', none) → Still tp tp'
  done : ∀ tp' lines, r = some (tp', some lines) → Calm tp tp'

theorem byteCalm_next {r : Option TelnetT} (h : ∀ tp', r = some tp' → Still tp tp') :
    ByteCalm tp (next r) := by
  refine ⟨fun tp' hr ↦ ?_, fun tp' lines hr ↦ ?_⟩
  · obtain ⟨tp₁, hr, ⟨⟩⟩ := map_eq_some_iff.1 hr
    exact h _ hr
  · obtain ⟨tp₁, -, ⟨⟩⟩ := map_eq_some_iff.1 hr

theorem byteCalm_done {r : Option (TelnetT × List Bytes)}
    (h : ∀ tp' lines, r = some (tp', lines) → Calm tp tp') : ByteCalm tp (done r) := by
  refine ⟨fun tp' hr ↦ ?_, fun tp' lines hr ↦ ?_⟩
  · obtain ⟨⟨tp₁, lines⟩, -, ⟨⟩⟩ := map_eq_some_iff.1 hr
  · obtain ⟨⟨tp₁, lines⟩, hr, ⟨⟩⟩ := map_eq_some_iff.1 hr
    exact h _ _ hr

theorem still_map_state {r : Option TelnetT} (h : ∀ tp', r = some tp' → Still tp tp')
    (state : InputState) (h' : r.map (fun t ↦ { t with state := state }) = some tp') :
    Still tp tp' := by
  obtain ⟨tp₁, hr, rfl⟩ := map_eq_some_iff.1 h'
  exact (h tp₁ hr).trans (still_state tp₁ state)

theorem byteCalm_telnetByte (lpc : Lpc) (c : UInt8) (tp : TelnetT) :
    ByteCalm tp (telnetByte lpc c tp) := by
  rw [telnetByte]
  cases tp.state with
  | DATA =>
    dsimp only
    split_ifs
    · exact byteCalm_next fun _ h ↦ by cases h; exact .refl tp
    · exact byteCalm_next fun _ ↦ still_telnetEc
    · exact byteCalm_done fun _ _ ↦ calm_telnetEol
    · exact byteCalm_next fun _ h ↦ by cases h; exact still_state tp _
    · exact byteCalm_next fun _ ↦ still_telnetEc
    · exact byteCalm_next fun _ h ↦ by cases h; exact still_state tp _
    · exact byteCalm_next fun _ ↦ still_telnetCanqPutc
  | CR =>
    refine byteCalm_done fun tp' lines h ↦ ?_
    obtain ⟨⟨tp₁, lines'⟩, heol, ⟨⟩⟩ := map_eq_some_iff.1 h
    split
    · exact calm_telnetEol heol
    · exact (calm_telnetEol heol).trans (still_state tp₁ .DATA).calm
  | IAC => exact byteCalm_next fun _ h ↦ (still_state tp .DATA).trans (still_telnetCommand h)
  | IAC_SB =>
    refine byteCalm_next fun _ h ↦ ?_
    cases h
    exact ⟨id, rfl, rfl, rfl, rfl, rfl, rfl⟩
  | IAC_SB_DATA =>
    dsimp only
    split_ifs
    · exact byteCalm_next fun _ h ↦ by cases h; exact still_state tp _
    · exact byteCalm_next fun _ ↦ still_telnetOptqPutc
  | IAC_SB_IAC =>
    have hstate := still_state tp .IAC_SB_DATA
    dsimp only
    split_ifs
    · exact byteCalm_next fun _ h ↦
        hstate.trans (still_map_state (fun _ ↦ still_telnetSe) .DATA h)
    · exact byteCalm_next fun _ h ↦ hstate.trans (still_telnetOptqPutc h)
    · exact byteCalm_next fun _ h ↦ by cases h; exact hstate
  | IAC_WILL => exact byteCalm_next fun _ ↦ still_map_state (fun _ ↦ still_telnetWill) .DATA
  | IAC_WONT => exact byteCalm_next fun _ ↦ still_map_state (fun _ ↦ still_telnetWont) .DATA
  | IAC_DO => exact byteCalm_next fun _ ↦ still_map_state (fun _ ↦ still_telnetDo) .DATA
  | IAC_DONT => exact byteCalm_next fun _ ↦ still_map_state (fun _ ↦ still_telnetDont) .DATA

end Input

/-! ### The callbacks of the network descriptor -/

section Callbacks

variable {lpc : Lpc} {tp tp' : TelnetT}

theorem awake_telnetInputDone (h : telnetInputDone tp = some tp') (ha : Awake tp)
    (hattach : tp.flags.attach = true) : Awake tp' := by
  obtain ⟨tp₁, hsent, rfl⟩ := map_eq_some_iff.1 h
  have hstill : Still tp tp₁ := by
    split at hsent
    · exact Still.trans (b := { tp with flags.ga := true }) ⟨id, rfl, rfl, rfl, rfl, rfl, rfl⟩
        (still_telnetReply hsent)
    · cases hsent
      exact .refl tp
  have hr : tp₁.nd.r = !tp₁.flags.enabr := by
    rw [hstill.r, hstill.enabr]
    exact ha.input.1
  have hattach₁ : tp₁.flags.attach = true := hstill.attach.trans hattach
  cases henabr : tp₁.flags.enabr with
  | true =>
    simp only [telnetEnabr, henabr, if_true]
    refine ⟨hstill.output ha.output, rfl, fun hor ↦ ?_, fun hdet ↦ ?_⟩
    · rcases hor with ⟨⟨⟩⟩ | ⟨⟨⟩⟩
    · cases hattach₁.symm.trans hdet
  | false =>
    simp only [telnetEnabr, henabr, Bool.false_eq_true, if_false]
    refine ⟨hstill.output ha.output, hr, fun hor ↦ ?_, fun hdet ↦ ?_⟩
    · rw [henabr] at hr
      rcases hor with hoff | ⟨⟨⟩⟩
      cases hr.symm.trans hoff
    · cases hattach₁.symm.trans hdet

/-- **The loop of `telnet_input`** leaves the clean-up callback enabled until the raw queue is used
up, or holds the input back while there is output. -/
theorem awake_telnetInputLoop {n : ℕ} {lines : List Bytes}
    (h : telnetInputLoop lpc n tp = some (tp', lines)) (ha : Awake tp)
    (hattach : tp.flags.attach = true) : Awake tp' := by
  induction n generalizing tp with
  | zero => cases h
  | succ n ih =>
    rw [telnetInputLoop] at h
    split at h
    · obtain ⟨tp₁, hdone, ⟨⟩⟩ := map_eq_some_iff.1 h
      exact awake_telnetInputDone hdone ha hattach
    rename_i hraw
    split at h
    · rename_i hfull
      cases h
      -- the output queue is nearly full, so the write callback is enabled
      have hout : tp.outq.nqEmpty = false := by
        rw [Nqueue.nqEmpty, decide_eq_false_iff_not]
        rw [Nqueue.nqAvail] at hfull
        change 9216 - tp.outq.nqLen < 12 at hfull
        omega
      refine ⟨⟨ha.output.1, fun _ ↦ ha.output.2 (.inl hout)⟩, ha.input.1, fun _ ↦ .inr rfl, ?_⟩
      intro hdet
      cases hattach.symm.trans hdet
    · obtain ⟨⟨c, q⟩, -, h⟩ := bind_eq_some_iff.1 h
      obtain ⟨⟨tp₁, o⟩, hbyte, h⟩ := bind_eq_some_iff.1 h
      have hc := ha.input.2.1 (.inr (Bool.eq_false_iff.2 hraw))
      have hpop : Awake { tp with rawq := q } :=
        ⟨ha.output, ha.input.1, fun _ ↦ hc, ha.input.2.2⟩
      have hcalm := byteCalm_telnetByte lpc c { tp with rawq := q }
      cases o with
      | none =>
        have hstill := hcalm.next tp₁ hbyte
        exact ih h (hstill.calm.awake hpop) (hstill.attach.trans hattach)
      | some lines =>
        cases h
        exact (hcalm.done _ _ hbyte).awake hpop

theorem awake_telnetReadEnd (ho : OutputAwake tp) (hc : tp.nd.c = true ∨ tp.flags.flowc = true)
    (hdet : tp.flags.attach = false → tp.nd.c = true) : Awake (telnetReadEnd tp) :=
  ⟨ho, rfl, fun _ ↦ hc, hdet⟩

theorem awake_telnetReadGo (ho : OutputAwake tp) (hr : tp.nd.r = !tp.flags.enabr)
    (hdet : tp.flags.attach = false → tp.nd.c = true) : Awake (telnetReadGo tp) := by
  obtain ⟨tp₁, htp₁, ho₁, hr₁, hc₁, hdet₁⟩ : ∃ tp₁,
      (if tp.flags.flowc then tp else { tp with nd.c := true }) = tp₁ ∧ OutputAwake tp₁ ∧
      tp₁.nd.r = (!tp₁.flags.enabr) ∧ (tp₁.nd.c = true ∨ tp₁.flags.flowc = true) ∧
      (tp₁.flags.attach = false → tp₁.nd.c = true) := by
    refine ⟨_, rfl, ?_⟩
    split
    · rename_i hflowc
      exact ⟨ho, hr, .inr hflowc, hdet⟩
    · exact ⟨ho, hr, .inl rfl, fun _ ↦ rfl⟩
  obtain ⟨tp₂, htp₂, ha₂⟩ : ∃ tp₂, telnetEnabr tp₁ = tp₂ ∧
      OutputAwake tp₂ ∧ (tp₂.nd.c = true ∨ tp₂.flags.flowc = true) ∧
      tp₂.nd.r = (!tp₂.flags.enabr) ∧ (tp₂.flags.attach = false → tp₂.nd.c = true) := by
    refine ⟨_, rfl, ?_⟩
    rw [telnetEnabr]
    split
    · exact ⟨ho₁, hc₁, rfl, hdet₁⟩
    · exact ⟨ho₁, hc₁, hr₁, hdet₁⟩
  obtain ⟨ho₂, hc₂, hr₂, hdet₂⟩ := ha₂
  simp only [telnetReadGo, htp₁, htp₂]
  split
  · exact awake_telnetReadEnd ho₂ hc₂ hdet₂
  · exact ⟨ho₂, hr₂, fun _ ↦ hc₂, hdet₂⟩

/-- **Reading** stops only if there is input to go on with. -/
theorem awake_telnetRead {atMark : Bool} {r : RecvResult} {cs : Bytes}
    (h : telnetRead atMark r lpc tp = some (tp', cs)) (ha : Awake tp) : Awake tp' := by
  rw [telnetRead] at h
  split at h
  · rename_i hfull
    cases h
    have hraw : tp.rawq.nqEmpty = false := by
      rw [Nqueue.nqFull, decide_eq_true_iff] at hfull
      rw [Nqueue.nqEmpty, hfull]
      rfl
    exact awake_telnetReadEnd ha.output (ha.input.2.1 (.inr hraw)) ha.input.2.2
  obtain ⟨tp₁, htp₁, hstill⟩ : ∃ tp₁, (if tp.flags.urgent && atMark then
      { tp with flags.urgent := false, nd.x := true } else tp) = tp₁ ∧ Still tp tp₁ := by
    refine ⟨_, rfl, ?_⟩
    split
    · exact ⟨id, rfl, rfl, rfl, rfl, rfl, rfl⟩
    · exact .refl tp
  have ha₁ : Awake tp₁ := hstill.calm.awake ha
  simp only [htp₁] at h
  rcases r with ⟨b, bs⟩ | - | - | -
  · obtain ⟨⟨q, cs'⟩, -, ⟨⟩⟩ := map_eq_some_iff.1 h
    exact awake_telnetReadGo ha₁.output ha₁.input.1 ha₁.input.2.2
  · obtain ⟨tp₂, hdisc, ⟨⟩⟩ := map_eq_some_iff.1 h
    exact (calm_telnetDisconnect hdisc).awake ha₁
  · cases h
    exact awake_telnetReadGo ha₁.output ha₁.input.1 ha₁.input.2.2
  · obtain ⟨tp₂, hdisc, ⟨⟩⟩ := map_eq_some_iff.1 h
    exact (calm_telnetDisconnect hdisc).awake ha₁

theorem still_telnetWriteNotice (h : telnetWriteNotice tp = some tp') :
    Still tp tp' ∧ (tp'.flags.ovfloutq = true → tp'.outq.nqEmpty = false) := by
  rw [telnetWriteNotice] at h
  split at h
  · rename_i hlow
    obtain ⟨q, -, rfl⟩ := map_eq_some_iff.1 h
    have hovfl := (Bool.and_eq_true_iff.1 hlow).1
    exact ⟨⟨fun ho ↦ ⟨ho.1, fun _ ↦ ho.2 (.inr (.inr hovfl))⟩, rfl, rfl, rfl, rfl, rfl, rfl⟩,
      by rintro ⟨⟩⟩
  · rename_i hlow
    cases h
    refine ⟨.refl tp, fun hovfl ↦ ?_⟩
    rw [hovfl, Bool.true_and, decide_eq_true_iff] at hlow
    rw [Nqueue.nqEmpty, decide_eq_false_iff_not]
    change ¬tp.outq.nqLen < 256 at hlow
    omega

theorem calm_telnetWriteFlowc (tp : TelnetT) : Calm tp (telnetWriteFlowc tp) ∧
    ((telnetWriteFlowc tp).flags.flowc = true → (telnetWriteFlowc tp).outq.nqEmpty = false) := by
  rw [telnetWriteFlowc]
  split
  · have hflowc : ¬false = true := by rintro ⟨⟩
    exact ⟨⟨fun ho ↦ ⟨ho.1, fun hor ↦ ho.2 (hor.imp_right fun h ↦ .inr (h.resolve_left hflowc))⟩,
      fun hi ↦ ⟨hi.1, fun _ ↦ .inl rfl, fun _ ↦ rfl⟩, rfl⟩, by rintro ⟨⟩⟩
  · rename_i hhigh
    refine ⟨(Still.refl tp).calm, fun hflowc ↦ ?_⟩
    rw [hflowc, Bool.true_and, decide_eq_true_iff] at hhigh
    rw [Nqueue.nqEmpty, decide_eq_false_iff_not]
    change ¬tp.outq.nqLen < 8960 at hhigh
    omega

/-- **Writing** stops only if there is nothing left to write. -/
theorem awake_telnetWriteGo (h : telnetWriteGo tp = some tp') (ha : Awake tp) : Awake tp' := by
  obtain ⟨tp₁, hnotice, rfl⟩ := map_eq_some_iff.1 h
  obtain ⟨hstill, hovfl⟩ := still_telnetWriteNotice hnotice
  obtain ⟨hcalm, hflowc⟩ := calm_telnetWriteFlowc tp₁
  have ha₂ := hcalm.awake (hstill.calm.awake ha)
  have hovfl₂ : (telnetWriteFlowc tp₁).flags.ovfloutq = true →
      (telnetWriteFlowc tp₁).outq.nqEmpty = false := by
    rw [telnetWriteFlowc]
    split <;> exact hovfl
  rw [telnetWriteEnd]
  split
  · rename_i hempty
    refine ⟨⟨rfl, fun hor ↦ ?_⟩, ha₂.input⟩
    rcases hor with ⟨⟨⟩⟩ | hf | ho
    · exact absurd hempty (by rw [hflowc hf]; exact Bool.false_ne_true)
    · exact absurd hempty (by rw [hovfl₂ ho]; exact Bool.false_ne_true)
  · exact ha₂

theorem awake_telnetWrite {rs : List SendResult} (h : telnetWrite rs lpc tp = some tp')
    (ha : Awake tp) : Awake tp' := by
  have hsend : ∀ q, (tp.outq.nqEmpty = true → q = tp.outq) → Still tp { tp with outq := q } := by
    intro q hq
    refine ⟨fun ho ↦ ⟨ho.1, fun hor ↦ ?_⟩, rfl, rfl, rfl, rfl, rfl, rfl⟩
    cases hempty : tp.outq.nqEmpty with
    | true =>
      dsimp only at hor
      rw [hq hempty] at hor
      exact ho.2 hor
    | false => exact ho.2 (.inl hempty)
  obtain ⟨q, fatal, hp, hq⟩ : ∃ q fatal,
      (if tp.outq.nqEmpty then (tp.outq, false) else tp.outq.nqSend rs) = (q, fatal) ∧
      (tp.outq.nqEmpty = true → q = tp.outq) := by
    cases hempty : tp.outq.nqEmpty with
    | true => exact ⟨_, _, if_pos rfl, fun _ ↦ rfl⟩
    | false => exact ⟨_, _, if_neg Bool.false_ne_true, by rintro ⟨⟩⟩
  simp only [telnetWrite, hp] at h
  have ha₁ := (hsend q hq).calm.awake ha
  split at h
  · exact (calm_telnetDisconnect h).awake ha₁
  · exact awake_telnetWriteGo h ha₁

end Callbacks

/-! ### Any events, in any order -/

theorem awake_telnetAccept {lpc : Lpc} (hlpc : lpc.exit = .returned) {tp : TelnetT}
    (h : telnetAccept lpc = some tp) : Awake tp := by
  obtain ⟨tp₁, hcalls, h⟩ := map_eq_some_iff.1 h
  rw [if_pos hlpc] at h
  subst h
  have hcalm := calm_runCalls hcalls
  have halloc : OutputAwake telnetAlloc := ⟨rfl, by decide⟩
  refine ⟨hcalm.output halloc, ?_, fun _ ↦ .inl rfl, fun _ ↦ rfl⟩
  change true = !tp₁.flags.enabr
  rw [hcalm.enabr]
  rfl

/-- Nothing will wake the session up, as long as it is not attached. -/
structure Asleep (tp : TelnetT) : Prop where
  attach : tp.flags.attach = false
  r : tp.nd.r = false
  c : tp.nd.c = false
  flowc : tp.flags.flowc = false

theorem Asleep.of_still {tp tp' : TelnetT} (hs : Asleep tp) (h : Still tp tp') : Asleep tp' :=
  ⟨h.attach.trans hs.attach, h.r.trans hs.r, h.c.trans hs.c, h.flowc.trans hs.flowc⟩

theorem Asleep.call {c : Call} {tp tp' : TelnetT} (hs : Asleep tp) (h : c.run tp = some tp') :
    Asleep tp' := by
  cases c with
  | output cp rs => exact hs.of_still (still_telnetOutput h)
  | enableEcho =>
    change telnetEnableEcho tp = some tp' at h
    rw [telnetEnableEcho] at h
    split at h
    · cases h
      exact hs
    · exact hs.of_still (still_telnetNegLenab h)
  | disableEcho =>
    change telnetDisableEcho tp = some tp' at h
    rw [telnetDisableEcho] at h
    split at h
    · cases h
      exact hs
    · exact hs.of_still (still_telnetNegLdisab h)
  | detach =>
    obtain rfl : telnetDetach tp = tp' := some.inj h
    rw [telnetDetach, if_neg (by rw [hs.attach]; rintro ⟨⟩)]
    exact hs

theorem Asleep.runCalls {calls : List Call} : ∀ {tp tp' : TelnetT}, Asleep tp →
    runCalls calls tp = some tp' → Asleep tp' := by
  induction calls with
  | nil =>
    intro tp tp' hs h
    cases h
    exact hs
  | cons c calls ih =>
    intro tp tp' hs h
    obtain ⟨tp₁, hc, hcalls⟩ := bind_eq_some_iff.1 (List.foldlM_cons.symm.trans h)
    exact ih (hs.call hc) hcalls

theorem awake_step {s s' : Session} {e : Event} (hs : s.Ok Awake) (h : sessions.Step s e s') :
    s'.Ok Awake := by
  obtain ⟨t, h⟩ := h
  cases s with
  | closed => cases h
  | live tp =>
    cases e with
    | read atMark r lpc =>
      obtain ⟨⟨tp₁, cs⟩, hread, ⟨⟩⟩ := map_eq_some_iff.1 h
      exact awake_telnetRead hread hs
    | write rs lpc =>
      obtain ⟨tp₁, hwrite, ⟨⟩⟩ := map_eq_some_iff.1 h
      exact awake_telnetWrite hwrite hs
    | exception =>
      cases h
      exact (show Calm tp (telnetException tp) from ⟨id, id, rfl⟩).awake hs
    | call c =>
      obtain ⟨tp₁, hcall, ⟨⟩⟩ := map_eq_some_iff.1 h
      exact (Call.calm hcall).awake hs
    | cleanup lpc =>
      change telnetCleanup lpc tp = some (s', t) at h
      rw [telnetCleanup] at h
      split at h
      · rename_i hattach
        obtain ⟨⟨tp₁, lines⟩, hinput, ⟨⟩⟩ := map_eq_some_iff.1 h
        exact awake_telnetInputLoop hinput hs hattach
      · cases h
        trivial

theorem awake_of_sessionOf {lpc : Lpc} (hlpc : lpc.exit = .returned) {s : Session}
    (hs : (sessionOf lpc).Reachable s) : s.Ok Awake := by
  refine hs.invariant ?_ ?_
  · rintro _ ⟨tp, h, rfl⟩
    exact awake_telnetAccept hlpc h
  · exact fun _ _ _ hs h ↦ awake_step hs h

theorem exists_not_awake {lpc : Lpc} (hlpc : lpc.exit ≠ .returned) :
    ∃ tp, (sessionOf lpc).Reachable (.live tp) ∧ ¬Awake tp := by
  obtain ⟨tp, hcalls, -⟩ := runCalls_spec lpc.calls telnetAlloc
  have hasleep : Asleep tp :=
    Asleep.runCalls (show Asleep telnetAlloc from ⟨rfl, rfl, rfl, rfl⟩) hcalls
  refine ⟨tp, .init ⟨tp, ?_, rfl⟩, fun hawake ↦ ?_⟩
  · rw [telnetAccept, hcalls, map_some, if_neg hlpc]
  rcases hawake.input.2.1 (.inl hasleep.r) with hc | hflowc
  · rw [hasleep.c] at hc
    cases hc
  · rw [hasleep.flowc] at hflowc
    cases hflowc

/-- **A session with work left is woken up**, exactly if no error jumped out of `new_player`: after
any events, in any order, the write callback is enabled while there is output, or output was
dropped, or input is held back; and while the read callback is disabled or there is raw input, the
clean-up callback is enabled, or flow control holds the input back. -/
theorem awake_iff (lpc : Lpc) :
    (∀ s, (sessionOf lpc).Reachable s → s.Ok Awake) ↔ lpc.exit = .returned := by
  refine ⟨fun hall ↦ ?_, fun hlpc s hs ↦ awake_of_sessionOf hlpc hs⟩
  by_contra hlpc
  obtain ⟨tp, hreach, hnot⟩ := exists_not_awake hlpc
  exact hnot (hall _ hreach)

/-- **An error in** `logon` leaves a session that nothing wakes up. -/
theorem not_awake : ¬∀ s, sessions.Reachable s → s.Ok Awake := by
  intro hall
  obtain ⟨tp, hreach, hnot⟩ :=
    exists_not_awake (show ({ exit := .behind } : Lpc).exit ≠ .returned from nofun)
  refine hnot (hall (.live tp) ?_)
  exact hreach.invariant (I := sessions.Reachable) (fun s hs ↦ .init ⟨_, hs⟩)
    fun _ _ _ hs hst ↦ TransitionSystem.Reachable.step hs hst

end Lpmud.Telnet
