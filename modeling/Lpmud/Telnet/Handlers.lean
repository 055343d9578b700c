import Lpmud.Telnet.Session

/-!
# What the session handlers do

One lemma for each handler of `Session.lean`: given the space it relies on, it succeeds, and
the lemma says which parts of the control block it can have changed. Output, replies, option
negotiation and the calls of LPC code all leave the input side alone (`Frame`), so the facts
about lines and about the input queues never look inside them.
-/

namespace Lpmud.Telnet

open List Option

/-- The input side of the control block is untouched: the parser, the raw, canonical and option
queues, and the flags that guard them. -/
structure Frame (tp tp' : TelnetT) : Prop where
  state : tp'.state = tp.state
  rawq : tp'.rawq = tp.rawq
  canq : tp'.canq = tp.canq
  optq : tp'.optq = tp.optq
  ovflcanq : tp'.flags.ovflcanq = tp.flags.ovflcanq
  synch : tp'.flags.synch = tp.flags.synch

theorem Frame.refl (tp : TelnetT) : Frame tp tp :=
  ⟨rfl, rfl, rfl, rfl, rfl, rfl⟩

theorem Frame.trans {a b c : TelnetT} (h : Frame a b) (k : Frame b c) : Frame a c :=
  ⟨k.state.trans h.state, k.rawq.trans h.rawq, k.canq.trans h.canq, k.optq.trans h.optq,
    k.ovflcanq.trans h.ovflcanq, k.synch.trans h.synch⟩

/-- A reply: the input side and the attachment are untouched, and the output queue has grown by
`n` bytes at most. -/
structure Replied (n : ℕ) (tp tp' : TelnetT) : Prop where
  frame : Frame tp tp'
  attach : tp'.flags.attach = tp.flags.attach
  outq : tp'.outq.nqLen ≤ tp.outq.nqLen + n

theorem Replied.refl (n : ℕ) (tp : TelnetT) : Replied n tp tp :=
  ⟨.refl tp, rfl, Nat.le_add_right _ _⟩

/-! ### Output -/

theorem telnetEnabw_frame (tp : TelnetT) : Frame tp (telnetEnabw tp) := by
  rw [telnetEnabw]
  split <;> exact ⟨rfl, rfl, rfl, rfl, rfl, rfl⟩

theorem Frame.enabw {tp tp' : TelnetT} (h : Frame tp tp') : Frame tp (telnetEnabw tp') :=
  h.trans (telnetEnabw_frame tp')

@[simp] theorem telnetEnabw_outq (tp : TelnetT) : (telnetEnabw tp).outq = tp.outq := by
  rw [telnetEnabw]
  split <;> rfl

@[simp] theorem telnetEnabw_attach (tp : TelnetT) :
    (telnetEnabw tp).flags.attach = tp.flags.attach := by
  rw [telnetEnabw]
  split <;> rfl

theorem telnetEnabr_frame (tp : TelnetT) : Frame tp (telnetEnabr tp) := by
  rw [telnetEnabr]
  split <;> exact ⟨rfl, rfl, rfl, rfl, rfl, rfl⟩

theorem telnetFlush_frame (rs : List SendResult) (tp : TelnetT) :
    Frame tp (telnetFlush rs tp) := by
  rw [telnetFlush]
  split <;> exact ⟨rfl, rfl, rfl, rfl, rfl, rfl⟩

theorem telnetDetach_frame (tp : TelnetT) : Frame tp (telnetDetach tp) := by
  rw [telnetDetach]
  split <;> exact ⟨rfl, rfl, rfl, rfl, rfl, rfl⟩

theorem foldlM_nqPutc {size : ℕ} (bs : Bytes) : ∀ {q : Nqueue size},
    bs.length ≤ q.nqAvail → ∃ q', bs.foldlM Nqueue.nqPutc q = some q' ∧
      q'.toList = q.toList ++ bs := by
  induction bs with
  | nil => exact fun _ ↦ ⟨_, rfl, (append_nil _).symm⟩
  | cons b bs ih =>
    intro q h
    rw [Nqueue.nqAvail, length_cons] at h
    obtain ⟨q₁, h₁, hl₁, -⟩ := q.nqPutc_eq_some (c := b) (by omega)
    have hlen : q₁.nqLen = q.nqLen + 1 := by
      rw [← q₁.length_toList, hl₁, length_append, q.length_toList, length_singleton]
    obtain ⟨q₂, h₂, hl₂⟩ := ih (q := q₁) (by rw [Nqueue.nqAvail]; omega)
    refine ⟨q₂, ?_, ?_⟩
    · rw [foldlM_cons, h₁]
      exact h₂
    · rw [hl₂, hl₁, append_assoc, singleton_append]

theorem telnetReply_spec {b : Bytes} {t : TelnetT} (h : b.length ≤ t.outq.nqAvail) :
    ∃ t', telnetReply b t = some t' ∧ Replied b.length t t' := by
  obtain ⟨q, hq, hl⟩ := foldlM_nqPutc b h
  refine ⟨_, by rw [telnetReply, hq, map_some], ⟨?_, by simp, le_of_eq ?_⟩⟩
  · exact Frame.enabw ⟨rfl, rfl, rfl, rfl, rfl, rfl⟩
  · rw [telnetEnabw_outq, ← Nqueue.length_toList, hl, length_append, Nqueue.length_toList]

/-- **Output is always accepted**: it is queued, flushed or dropped, but never written without
room. -/
theorem telnetOutput_spec (rs : List SendResult) (cp : Bytes) (tp : TelnetT) :
    ∃ tp', telnetOutput rs cp tp = some tp' ∧ Frame tp tp' := by
  simp only [telnetOutput]
  split
  · exact ⟨tp, rfl, .refl tp⟩
  split
  · exact ⟨tp, rfl, .refl tp⟩
  set tp₁ := if TELNET_OUTQ_HIWAT ≤ tp.outq.nqLen + (encapsulateAll [] cp).length then
    telnetFlush rs tp else tp
  have hf : Frame tp tp₁ := by
    simp only [tp₁]
    split
    · exact telnetFlush_frame rs tp
    · exact .refl tp
  split
  · exact ⟨_, rfl, hf.trans (Frame.enabw ⟨rfl, rfl, rfl, rfl, rfl, rfl⟩)⟩
  · rename_i hlow
    have hroom : (encapsulateAll [] cp).length ≤ tp₁.outq.nqAvail := by
      have : TELNET_OUTQ_HIWAT ≤ TELNET_OUTQ_SIZE := by decide
      rw [Nqueue.nqAvail]
      omega
    obtain ⟨q, hq, -, -⟩ := tp₁.outq.nqPuts_eq_some hroom
    refine ⟨_, by rw [hq, map_some], ?_⟩
    exact hf.trans (Frame.enabw ⟨rfl, rfl, rfl, rfl, rfl, rfl⟩)

/-! ### Option handlers -/

theorem telnetSend_spec (m : OptMsg) (opt : UInt8) {t : TelnetT} (h : 3 ≤ t.outq.nqAvail) :
    ∃ t', telnetSend m opt t = some t' ∧ Replied 3 t t' :=
  telnetReply_spec (b := [IAC, m.byte, opt]) h

theorem telnetAck_replied {n : ℕ} (opt : UInt8) (a : Option Bool) {tp tp' : TelnetT}
    (h : Replied n tp tp') : Replied n tp (telnetAck opt tp' a) := by
  cases a with
  | none => exact h
  | some b =>
    rw [telnetAck]
    split
    · exact ⟨h.frame.trans ⟨rfl, rfl, rfl, rfl, rfl, rfl⟩, h.attach, h.outq⟩
    · exact h

theorem telnetOptStep_spec {i : OptIndex} {opt : UInt8} {tp : TelnetT} (s : OptStep)
    (h : 3 ≤ tp.outq.nqAvail) :
    ∃ tp', telnetOptStep i opt tp s = some tp' ∧ Replied 3 tp tp' := by
  set tp₁ : TelnetT := { tp with optb := fun j ↦ if j = i then s.opt else tp.optb j } with htp₁
  rcases hr : s.reply with - | m
  · refine ⟨telnetAck opt tp₁ s.ackUs, ?_, telnetAck_replied opt _ ?_⟩
    · simp only [telnetOptStep, hr, map_some, htp₁]
    · exact ⟨⟨rfl, rfl, rfl, rfl, rfl, rfl⟩, rfl, Nat.le_add_right _ _⟩
  · obtain ⟨tp₂, h₂, hr₂⟩ := telnetSend_spec m opt (t := tp₁) h
    refine ⟨telnetAck opt tp₂ s.ackUs, ?_, telnetAck_replied opt _ ?_⟩
    · simp only [telnetOptStep, hr, ← htp₁, h₂, map_some]
    · exact ⟨Frame.trans (b := tp₁) ⟨rfl, rfl, rfl, rfl, rfl, rfl⟩ hr₂.frame, hr₂.attach, hr₂.outq⟩

section Negotiation

variable {opt : UInt8} {tp : TelnetT} (h : 3 ≤ tp.outq.nqAvail)
include h

theorem telnetNegLenab_spec :
    ∃ tp', telnetNegLenab opt tp = some tp' ∧ Replied 3 tp tp' := by
  rw [telnetNegLenab]
  split
  · exact ⟨tp, rfl, .refl 3 tp⟩
  · exact telnetOptStep_spec _ h

theorem telnetNegLdisab_spec :
    ∃ tp', telnetNegLdisab opt tp = some tp' ∧ Replied 3 tp tp' := by
  rw [telnetNegLdisab]
  split
  · exact ⟨tp, rfl, .refl 3 tp⟩
  · exact telnetOptStep_spec _ h

theorem telnetWill_spec : ∃ tp', telnetWill opt tp = some tp' ∧ Replied 3 tp tp' := by
  rw [telnetWill]
  split
  · exact telnetSend_spec _ _ h
  · exact telnetOptStep_spec _ h

theorem telnetWont_spec : ∃ tp', telnetWont opt tp = some tp' ∧ Replied 3 tp tp' := by
  rw [telnetWont]
  split
  · exact ⟨tp, rfl, .refl 3 tp⟩
  · exact telnetOptStep_spec _ h

theorem telnetDo_spec : ∃ tp', telnetDo opt tp = some tp' ∧ Replied 3 tp tp' := by
  rw [telnetDo]
  split
  · exact telnetSend_spec _ _ h
  split
  · exact telnetSend_spec _ _ h
  · exact telnetOptStep_spec _ h

theorem telnetDont_spec : ∃ tp', telnetDont opt tp = some tp' ∧ Replied 3 tp tp' := by
  rw [telnetDont]
  split
  · exact ⟨tp, rfl, .refl 3 tp⟩
  · exact telnetOptStep_spec _ h

end Negotiation

/-! ### Calls from outside the session -/

theorem telnetEnableEcho_spec (tp : TelnetT) :
    ∃ tp', telnetEnableEcho tp = some tp' ∧ Frame tp tp' := by
  rw [telnetEnableEcho]
  split
  · exact ⟨tp, rfl, .refl tp⟩
  · rename_i h
    obtain ⟨tp', h', hr⟩ : ∃ tp', telnetNegLenab TELOPT_ECHO tp = some tp' ∧ Replied 3 tp tp' :=
      telnetNegLenab_spec (Nat.not_lt.1 h)
    exact ⟨tp', h', hr.frame⟩

theorem telnetDisableEcho_spec (tp : TelnetT) :
    ∃ tp', telnetDisableEcho tp = some tp' ∧ Frame tp tp' := by
  rw [telnetDisableEcho]
  split
  · exact ⟨tp, rfl, .refl tp⟩
  · rename_i h
    obtain ⟨tp', h', hr⟩ : ∃ tp', telnetNegLdisab TELOPT_ECHO tp = some tp' ∧ Replied 3 tp tp' :=
      telnetNegLdisab_spec (Nat.not_lt.1 h)
    exact ⟨tp', h', hr.frame⟩

theorem Call.run_spec (c : Call) (tp : TelnetT) : ∃ tp', c.run tp = some tp' ∧ Frame tp tp' := by
  cases c with
  | output cp rs => exact telnetOutput_spec rs cp tp
  | enableEcho => exact telnetEnableEcho_spec tp
  | disableEcho => exact telnetDisableEcho_spec tp
  | detach => exact ⟨_, rfl, telnetDetach_frame tp⟩

theorem runCalls_spec (calls : List Call) :
    ∀ tp, ∃ tp', runCalls calls tp = some tp' ∧ Frame tp tp' := by
  induction calls with
  | nil => exact fun tp ↦ ⟨tp, rfl, .refl tp⟩
  | cons c calls ih =>
    intro tp
    obtain ⟨tp₁, h₁, hf₁⟩ := c.run_spec tp
    obtain ⟨tp₂, h₂, hf₂⟩ := ih tp₁
    refine ⟨tp₂, ?_, hf₁.trans hf₂⟩
    rw [runCalls, foldlM_cons, h₁]
    exact h₂

theorem telnetDisconnect_spec (lpc : Lpc) (tp : TelnetT) :
    ∃ tp', telnetDisconnect lpc tp = some tp' ∧ Frame tp tp' := by
  rw [telnetDisconnect]
  split
  · obtain ⟨tp', h, hf⟩ := runCalls_spec lpc.calls tp
    refine ⟨_, by rw [h, map_some], ?_⟩
    split
    · exact hf
    · exact hf.trans (telnetDetach_frame tp')
  · exact ⟨tp, rfl, .refl tp⟩

/-- `interactive_input` passes the line on where there is somebody to pass it to, unless an error
jumps out of it. -/
theorem interactiveInput_spec (lpc : Lpc) (cp : Bytes) (tp : TelnetT) :
    ∃ tp' lines, interactiveInput lpc cp tp = some (tp', lines) ∧ Frame tp tp' ∧
      (lpc.jumps tp = false → lines = if tp.flags.attach then [cp] else []) := by
  rw [interactiveInput]
  by_cases hattach : tp.flags.attach = true
  · obtain ⟨tp', h, hf⟩ := runCalls_spec lpc.calls tp
    rw [if_pos hattach, if_pos hattach]
    refine ⟨tp', _, by rw [h, map_some], hf, fun hjumps ↦ ?_⟩
    rw [Lpc.jumps, hattach, Bool.true_and, bne_eq_false_iff_eq] at hjumps
    rw [if_neg (by rw [hjumps]; exact nofun)]
  · rw [if_neg hattach, if_neg hattach]
    exact ⟨tp, [], rfl, .refl tp, fun _ ↦ rfl⟩

/-! ### Line editing

The handlers of the canonical queue, case by case. While the line is in overflow or in a synch
they do nothing. -/

/-- Input to the current line is ignored. -/
def TelnetT.Deaf (tp : TelnetT) : Prop :=
  tp.flags.ovflcanq = true ∨ tp.flags.synch = true

instance (tp : TelnetT) : Decidable tp.Deaf :=
  inferInstanceAs (Decidable (_ ∨ _))

theorem TelnetT.deaf_iff (tp : TelnetT) :
    (tp.flags.ovflcanq || tp.flags.synch) = true ↔ tp.Deaf := by
  rw [Bool.or_eq_true, Deaf]

theorem telnetCanqPutc_deaf {c : UInt8} {tp : TelnetT} (h : tp.Deaf) :
    telnetCanqPutc c tp = some tp := by
  rw [telnetCanqPutc, if_pos (tp.deaf_iff.2 h)]

theorem telnetCanqPutc_room {c : UInt8} {tp : TelnetT} (h : ¬tp.Deaf)
    (hlen : tp.canq.nqLen < TELNET_CANQ_SIZE) :
    ∃ q, telnetCanqPutc c tp = some { tp with canq := q } ∧
      q.toList = tp.canq.toList ++ [c] ∧ q.nqRptr = tp.canq.nqRptr := by
  obtain ⟨q, hq, hl, hr⟩ := tp.canq.nqPutc_eq_some (c := c) hlen
  refine ⟨q, ?_, hl, hr⟩
  rw [telnetCanqPutc, if_neg (mt tp.deaf_iff.1 h),
    if_pos (by simpa [Nqueue.nqFull] using hlen.ne), hq, map_some]

theorem telnetCanqPutc_full {c : UInt8} {tp : TelnetT} (h : ¬tp.Deaf)
    (hlen : tp.canq.nqLen = TELNET_CANQ_SIZE) :
    ∃ tp', telnetCanqPutc c tp = some tp' ∧
      Replied 1 { tp with flags.ovflcanq := true } tp' := by
  have hfull : tp.canq.nqFull = true := decide_eq_true hlen
  rw [telnetCanqPutc, if_neg (mt tp.deaf_iff.1 h), if_neg (by simp [hfull])]
  by_cases hav : 0 < tp.outq.nqAvail
  · rw [if_pos hav]
    exact telnetReply_spec (b := [BEL]) hav
  · rw [if_neg hav]
    exact ⟨_, rfl, .refl 1 _⟩

theorem telnetEc_spec (tp : TelnetT) :
    ∃ q, telnetEc tp = some { tp with canq := q } ∧ (tp.Deaf → q = tp.canq) := by
  rw [telnetEc]
  by_cases h : tp.Deaf
  · rw [if_pos (tp.deaf_iff.2 h)]
    exact ⟨tp.canq, rfl, fun _ ↦ rfl⟩
  · rw [if_neg (mt tp.deaf_iff.1 h)]
    by_cases hempty : tp.canq.toList = []
    · rw [if_pos (by simpa using hempty)]
      exact ⟨tp.canq, rfl, fun _ ↦ rfl⟩
    · rw [if_neg (by simpa using hempty)]
      obtain ⟨q, hq, -, -⟩ := tp.canq.nqUnputc_eq_some hempty
      exact ⟨q, by rw [hq, map_some], fun hd ↦ absurd hd h⟩

theorem telnetEl_eq (tp : TelnetT) :
    telnetEl tp = { tp with canq := if tp.Deaf then tp.canq else tp.canq.nqInit } := by
  rw [telnetEl]
  by_cases h : tp.Deaf
  · rw [if_pos (tp.deaf_iff.2 h), if_pos h]
  · rw [if_neg (mt tp.deaf_iff.1 h), if_neg h]

theorem telnetEol_synch {lpc : Lpc} {tp : TelnetT} (h : tp.flags.synch = true) :
    telnetEol lpc tp = some (tp, []) :=
  if_pos h

/-- The line an end of line passes on: the canonical queue, or nothing where it is full. -/
def TelnetT.line (tp : TelnetT) : Bytes :=
  if tp.canq.nqLen = TELNET_CANQ_SIZE then [] else (tp.canq.nqPutc NUL).elim [] Nqueue.nqString

/-- **An end of line** outside a synch clears the overflow flag exactly where the queue was full.
Unless an error jumps out of it, it passes the line on and leaves an empty queue. -/
theorem telnetEol_spec (lpc : Lpc) {tp : TelnetT} (h : tp.flags.synch = false) :
    ∃ tp' lines, telnetEol lpc tp = some (tp', lines) ∧
      tp'.state = tp.state ∧ tp'.rawq = tp.rawq ∧ tp'.optq = tp.optq ∧ tp'.flags.synch = false ∧
      (tp'.flags.ovflcanq =
        if tp.canq.nqLen = TELNET_CANQ_SIZE then false else tp.flags.ovflcanq) ∧
      (lpc.jumps tp = false → lines = (if tp.flags.attach then [tp.line] else []) ∧
        tp'.canq.toList = [] ∧ tp'.canq.nqRptr = 0) := by
  have hstring : ∃ tp₁, telnetEolString tp = some (tp₁, tp.line) ∧ tp₁.state = tp.state ∧
      tp₁.rawq = tp.rawq ∧ tp₁.optq = tp.optq ∧ tp₁.flags.synch = tp.flags.synch ∧
      tp₁.flags.attach = tp.flags.attach ∧ tp₁.flags.ovflcanq =
        if tp.canq.nqLen = TELNET_CANQ_SIZE then false else tp.flags.ovflcanq := by
    rw [telnetEolString, TelnetT.line]
    by_cases hfull : tp.canq.nqLen = TELNET_CANQ_SIZE
    · rw [if_pos (show tp.canq.nqFull = true from decide_eq_true hfull), if_pos hfull, if_pos hfull]
      exact ⟨_, rfl, rfl, rfl, rfl, rfl, rfl, rfl⟩
    · have hlt : tp.canq.nqLen < TELNET_CANQ_SIZE := lt_of_le_of_ne tp.canq.len_le hfull
      obtain ⟨q, hq, -, -⟩ := tp.canq.nqPutc_eq_some (c := NUL) hlt
      rw [if_neg (by simpa [Nqueue.nqFull] using hfull), if_neg hfull, if_neg hfull, hq]
      exact ⟨_, rfl, rfl, rfl, rfl, rfl, rfl, rfl⟩
  obtain ⟨tp₁, h₁, hst, hraw, hopt, hsy, hat, hov⟩ := hstring
  obtain ⟨tp₂, lines, h₂, hf, hlines⟩ := interactiveInput_spec lpc tp.line tp₁
  have hjumps : lpc.jumps tp₁ = lpc.jumps tp := by rw [Lpc.jumps, Lpc.jumps, hat]
  rw [hjumps, hat] at hlines
  have heol : telnetEol lpc tp = some
      (if lpc.jumps tp then tp₂ else { tp₂ with canq := tp₂.canq.nqInit, flags.ga := false },
        lines) := by
    rw [telnetEol, if_neg (by simp [h])]
    simp only [h₁, bind_some, h₂, map_some]
  have hsynch := hf.synch.trans (hsy.trans h)
  cases hj : lpc.jumps tp with
  | true =>
    -- the error skips the reset of the queue
    rw [if_pos hj] at heol
    exact ⟨tp₂, lines, heol, hf.state.trans hst, hf.rawq.trans hraw, hf.optq.trans hopt, hsynch,
      hf.ovflcanq.trans hov, by rintro ⟨⟩⟩
  | false =>
    rw [if_neg (by simp [hj])] at heol
    exact ⟨_, lines, heol, hf.state.trans hst, hf.rawq.trans hraw, hf.optq.trans hopt, hsynch,
      hf.ovflcanq.trans hov, fun _ ↦ ⟨hlines hj, rfl, rfl⟩⟩

/-! ### The callbacks of the network descriptor -/

/-- With the raw queue used up, `telnet_input` resets it, and may send a go-ahead. -/
theorem telnetInputDone_spec (tp : TelnetT) :
    ∃ tp', telnetInputDone tp = some tp' ∧ Frame { tp with rawq := tp'.rawq } tp' ∧
      tp'.rawq.toList = [] := by
  obtain ⟨tp₁, h₁, hf₁⟩ : ∃ tp₁,
      (if !(tp.flags.sga || tp.flags.ga) && 2 ≤ tp.outq.nqAvail then
        telnetSendGa { tp with flags.ga := true } else some tp) = some tp₁ ∧ Frame tp tp₁ := by
    split
    · rename_i hga
      have h2 : 2 ≤ tp.outq.nqAvail := of_decide_eq_true (Bool.and_eq_true_iff.1 hga).2
      obtain ⟨tp₁, h, hr⟩ := telnetReply_spec (t := { tp with flags.ga := true })
        (b := [IAC, GA]) h2
      exact ⟨tp₁, h, Frame.trans (b := { tp with flags.ga := true }) ⟨rfl, rfl, rfl, rfl, rfl, rfl⟩
        hr.frame⟩
    · exact ⟨tp, rfl, .refl tp⟩
  set u : TelnetT := telnetEnabr { tp₁ with rawq := tp₁.rawq.nqInit } with hu
  have hfu : Frame { tp₁ with rawq := tp₁.rawq.nqInit } u := telnetEnabr_frame _
  refine ⟨{ u with nd.c := false }, congrArg (Option.map _) h₁, ?_, ?_⟩
  · exact ⟨hfu.state.trans hf₁.state, rfl, hfu.canq.trans hf₁.canq, hfu.optq.trans hf₁.optq,
      hfu.ovflcanq.trans hf₁.ovflcanq, hfu.synch.trans hf₁.synch⟩
  · change u.rawq.toList = []
    rw [hfu.rawq]
    rfl

theorem telnetReadEnd_frame (tp : TelnetT) : Frame tp (telnetReadEnd tp) :=
  ⟨rfl, rfl, rfl, rfl, rfl, rfl⟩

theorem telnetReadGo_frame (tp : TelnetT) : Frame tp (telnetReadGo tp) := by
  set u : TelnetT := telnetEnabr (if tp.flags.flowc then tp else { tp with nd.c := true }) with hu
  have hfu : Frame tp u := by
    rw [hu]
    split
    · exact telnetEnabr_frame tp
    · exact Frame.trans (b := { tp with nd.c := true }) ⟨rfl, rfl, rfl, rfl, rfl, rfl⟩
        (telnetEnabr_frame _)
  have hgo : telnetReadGo tp = if u.rawq.nqFull then telnetReadEnd u else u := rfl
  rw [hgo]
  split
  · exact hfu.trans (telnetReadEnd_frame u)
  · exact hfu

/-- **Reading** appends what the socket handed over to the raw queue, and nothing else is
touched on the input side. -/
theorem telnetRead_spec (atMark : Bool) (r : RecvResult) (lpc : Lpc) (tp : TelnetT) :
    ∃ tp' cs, telnetRead atMark r lpc tp = some (tp', cs) ∧
      Frame { tp with rawq := tp'.rawq } tp' ∧ tp'.rawq.toList = tp.rawq.toList ++ cs ∧
      cs <+: r.bytes := by
  -- A callback that leaves the raw queue alone.
  have idle {tp' : TelnetT} (hf : Frame tp tp') : Frame { tp with rawq := tp'.rawq } tp' ∧
      tp'.rawq.toList = tp.rawq.toList ++ [] ∧ [] <+: r.bytes :=
    ⟨⟨hf.state, rfl, hf.canq, hf.optq, hf.ovflcanq, hf.synch⟩, by rw [hf.rawq, append_nil],
      nil_prefix⟩
  rw [telnetRead]
  split
  · exact ⟨_, [], rfl, idle (telnetReadEnd_frame tp)⟩
  rename_i hfull
  obtain ⟨u, hu, hfu⟩ : ∃ u, (if tp.flags.urgent && atMark then
      { tp with flags.urgent := false, nd.x := true } else tp) = u ∧ Frame tp u := by
    refine ⟨_, rfl, ?_⟩
    split
    · exact ⟨rfl, rfl, rfl, rfl, rfl, rfl⟩
    · exact .refl tp
  simp only [hu]
  have hdisc := telnetDisconnect_spec lpc u
  rcases r with ⟨b, bs⟩ | - | - | -
  · have hlt : u.rawq.nqLen < TELNET_RAWQ_SIZE := by
      rw [hfu.rawq]
      exact lt_of_le_of_ne tp.rawq.len_le (by simpa [Nqueue.nqFull] using hfull)
    obtain ⟨q, cs, hq, hl, hcs⟩ := Nqueue.nqRecv_eq_some (b :: bs) hlt
    have hgo := telnetReadGo_frame { u with rawq := q }
    refine ⟨telnetReadGo { u with rawq := q }, cs, by simp only [hq, map_some], ?_, ?_, hcs⟩
    · exact ⟨hgo.state.trans hfu.state, rfl, hgo.canq.trans hfu.canq, hgo.optq.trans hfu.optq,
        hgo.ovflcanq.trans hfu.ovflcanq, hgo.synch.trans hfu.synch⟩
    · rw [hgo.rawq, ← hfu.rawq]
      exact hl
  · obtain ⟨tp', h, hf⟩ := hdisc
    exact ⟨tp', [], by simp only [h, map_some], idle (hfu.trans hf)⟩
  · exact ⟨_, [], rfl, idle (hfu.trans (telnetReadGo_frame u))⟩
  · obtain ⟨tp', h, hf⟩ := hdisc
    exact ⟨tp', [], by simp only [h, map_some], idle (hfu.trans hf)⟩

/-- Once the queue is below the low-water mark, there is room for the notice of what was
lost. -/
theorem telnetWriteNotice_spec (tp : TelnetT) :
    ∃ tp', telnetWriteNotice tp = some tp' ∧ Frame tp tp' := by
  rw [telnetWriteNotice]
  split
  · rename_i hlow
    have hlt : tp.outq.nqLen < 256 := of_decide_eq_true (Bool.and_eq_true_iff.1 hlow).2
    have hroom : truncated.length ≤ tp.outq.nqAvail := by
      rw [Nqueue.nqAvail]
      change 20 ≤ 9216 - tp.outq.nqLen
      omega
    obtain ⟨q, hq, -, -⟩ := tp.outq.nqPuts_eq_some hroom
    exact ⟨{ tp with flags.ovfloutq := false, outq := q }, by rw [hq, map_some],
      ⟨rfl, rfl, rfl, rfl, rfl, rfl⟩⟩
  · exact ⟨tp, rfl, .refl tp⟩

theorem telnetWriteFlowc_frame (tp : TelnetT) : Frame tp (telnetWriteFlowc tp) := by
  rw [telnetWriteFlowc]
  split <;> exact ⟨rfl, rfl, rfl, rfl, rfl, rfl⟩

theorem telnetWriteEnd_frame (tp : TelnetT) : Frame tp (telnetWriteEnd tp) := by
  rw [telnetWriteEnd]
  split <;> exact ⟨rfl, rfl, rfl, rfl, rfl, rfl⟩

theorem telnetWriteGo_spec (tp : TelnetT) :
    ∃ tp', telnetWriteGo tp = some tp' ∧ Frame tp tp' := by
  obtain ⟨u, hu, hf⟩ := telnetWriteNotice_spec tp
  exact ⟨telnetWriteEnd (telnetWriteFlowc u), by rw [telnetWriteGo, hu, map_some],
    hf.trans ((telnetWriteFlowc_frame u).trans (telnetWriteEnd_frame _))⟩

/-- **Writing** leaves the input side alone. -/
theorem telnetWrite_spec (rs : List SendResult) (lpc : Lpc) (tp : TelnetT) :
    ∃ tp', telnetWrite rs lpc tp = some tp' ∧ Frame tp tp' := by
  rw [telnetWrite]
  generalize (if tp.outq.nqEmpty then (tp.outq, false) else tp.outq.nqSend rs) = p
  rcases p with ⟨q, fatal⟩
  have hq : Frame tp { tp with outq := q } := ⟨rfl, rfl, rfl, rfl, rfl, rfl⟩
  dsimp only
  split
  · obtain ⟨tp', h, hf⟩ := telnetDisconnect_spec lpc { tp with outq := q }
    exact ⟨tp', h, hq.trans hf⟩
  · obtain ⟨tp', h, hf⟩ := telnetWriteGo_spec { tp with outq := q }
    exact ⟨tp', h, hq.trans hf⟩

end Lpmud.Telnet
