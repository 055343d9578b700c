import Lpmud.Telnet.Space

/-!
# The lines of a stream

What `telnet_input` makes of a stream without telnet commands and editing characters: its lines,
in order, each passed on once. The specification is a scanner that reads the stream from the
left and knows nothing of queues, chunks or flow control (`LineScan`). The session simulates it:
at every moment the canonical queue holds the beginning of the line the scanner is in
(`InputOk`), whichever way the stream was cut into chunks and however often the parser was
stopped and resumed.

This is so while `interactive_input` returns. Where an error in LPC code jumps out of it, the line
stays in the canonical queue, in front of the next one.

A line ends with LF, or with CR and the byte behind it. NULs outside such a pair do not belong
to any line.
-/

namespace Lpmud.Telnet

open List

/-! ### The scanner -/

/-- A scanner in the middle of a stream: whether a CR waits for its second byte, the bytes of
the current line, and the complete lines. -/
structure LineScan where
  cr : Bool := false
  cur : Bytes := []
  lines : List Bytes := []
  deriving DecidableEq

/-- One byte; `drop` says which bytes do not belong to a line. -/
def LineScan.byte (drop : UInt8 → Bool) (s : LineScan) (c : UInt8) : LineScan :=
  if s.cr ∨ c = LF then { lines := s.lines ++ [s.cur] }
  else if c = CR then { s with cr := true }
  else if drop c then s
  else { s with cur := s.cur ++ [c] }

/-- The scan of a stream. -/
def scan (drop : UInt8 → Bool) (cs : Bytes) : LineScan :=
  cs.foldl (LineScan.byte drop) {}

/-- The bytes that are neither telnet commands nor editing characters. -/
def Plain (c : UInt8) : Prop :=
  c ≠ IAC ∧ c ≠ BS ∧ c ≠ DEL

/-- An event that brings nothing but plain bytes, and no urgent data, and no error that jumps out of
`interactive_input`. -/
def Event.Plain : Event → Prop
  | .read _ r _ => ∀ c ∈ r.bytes, Telnet.Plain c
  | .exception => False
  | .cleanup lpc => lpc.exit = .returned
  | _ => True

/-! ### One byte -/

/-- The session simulates the scanner: the canonical queue holds the current line, as far as it
fits. -/
structure InputOk (s : LineScan) (tp : TelnetT) : Prop where
  state : tp.state = if s.cr then .CR else .DATA
  canq : tp.canq.toList = s.cur.take TELNET_CANQ_SIZE
  rptr : tp.canq.nqRptr = 0
  nul : 0 ∉ s.cur
  overflow : tp.flags.ovflcanq = true ↔ TELNET_CANQ_SIZE < s.cur.length
  synch : tp.flags.synch = false

theorem InputOk.of_frame {s : LineScan} {tp tp' : TelnetT} (h : InputOk s tp)
    {q : Nqueue TELNET_RAWQ_SIZE} (hf : Frame { tp with rawq := q } tp') : InputOk s tp' := by
  refine ⟨hf.state.trans h.state, ?_, ?_, h.nul, ?_, hf.synch.trans h.synch⟩
  · rw [hf.canq]
    exact h.canq
  · rw [hf.canq]
    exact h.rptr
  · rw [hf.ovflcanq]
    exact h.overflow

/-- What the line handler gets for a line: a line that leaves no room for the NUL is passed on
empty. -/
def deliver (l : Bytes) : Bytes :=
  if l.length < TELNET_CANQ_SIZE then l else []

theorem InputOk.canq_len {s : LineScan} {tp : TelnetT} (h : InputOk s tp) :
    tp.canq.nqLen = min TELNET_CANQ_SIZE s.cur.length := by
  rw [← tp.canq.length_toList, h.canq, length_take]

theorem InputOk.line_eq {s : LineScan} {tp : TelnetT} (h : InputOk s tp) :
    tp.line = deliver s.cur := by
  rw [TelnetT.line, deliver]
  by_cases hlen : s.cur.length < TELNET_CANQ_SIZE
  · have hcanq : tp.canq.nqLen < TELNET_CANQ_SIZE := by
      rw [h.canq_len]
      omega
    obtain ⟨q, hq, hl, hr⟩ := tp.canq.nqPutc_eq_some (c := NUL) hcanq
    rw [h.canq, take_of_length_le hlen.le] at hl
    rw [if_neg hcanq.ne, if_pos hlen, hq]
    exact Nqueue.nqString_eq (hr.trans h.rptr) hl h.nul
  · rw [if_pos (by rw [h.canq_len]; omega), if_neg hlen]

theorem InputOk.putc {s : LineScan} {tp : TelnetT} (h : InputOk s tp) {c : UInt8} (hc : c ≠ 0) :
    ∃ tp', telnetCanqPutc c tp = some tp' ∧ InputOk { s with cur := s.cur ++ [c] } tp' ∧
      tp'.rawq = tp.rawq ∧ tp'.flags.attach = tp.flags.attach := by
  have hnul : 0 ∉ s.cur ++ [c] := by
    simpa [h.nul] using hc.symm
  by_cases ho : tp.flags.ovflcanq = true
  · -- The line is in overflow already.
    have hlen := h.overflow.1 ho
    refine ⟨tp, telnetCanqPutc_deaf (.inl ho), ⟨h.state, ?_, h.rptr, hnul, ?_, h.synch⟩, rfl, rfl⟩
    · rw [h.canq, take_append_of_le_length hlen.le]
    · simp only [length_append, length_singleton, ho, true_iff]
      omega
  have hdeaf : ¬tp.Deaf := fun hd ↦ hd.elim ho (by simp [h.synch])
  have hle : s.cur.length ≤ TELNET_CANQ_SIZE := Nat.not_lt.1 (mt h.overflow.2 ho)
  have hlen : tp.canq.nqLen = s.cur.length := by
    rw [h.canq_len]
    omega
  rcases Nat.lt_or_ge s.cur.length TELNET_CANQ_SIZE with hlt | hge
  · obtain ⟨q, hq, hl, hr⟩ := telnetCanqPutc_room (c := c) hdeaf (by rw [hlen]; exact hlt)
    refine ⟨_, hq, ⟨h.state, ?_, hr.trans h.rptr, hnul, ?_, h.synch⟩, rfl, rfl⟩
    · rw [h.canq, take_of_length_le hle] at hl
      rw [take_of_length_le (by rw [length_append]; exact hlt)]
      exact hl
    · change tp.flags.ovflcanq = true ↔ _
      simp only [ho, length_append, length_singleton]
      exact ⟨(by rintro ⟨⟩), fun h' ↦ absurd hlt (by omega)⟩
  · obtain ⟨tp', h', hr⟩ := telnetCanqPutc_full (c := c) hdeaf (by rw [hlen]; omega)
    refine ⟨tp', h', ⟨hr.frame.state.trans h.state, ?_, ?_, hnul, ?_, hr.frame.synch.trans h.synch⟩,
      hr.frame.rawq, hr.attach⟩
    · rw [hr.frame.canq, take_append_of_le_length hge]
      exact h.canq
    · rw [hr.frame.canq]
      exact h.rptr
    · rw [hr.frame.ovflcanq, length_append, length_singleton]
      simp only [true_iff]
      omega

theorem Lpc.jumps_of_returned {lpc : Lpc} (h : lpc.exit = .returned) (tp : TelnetT) :
    lpc.jumps tp = false := by
  rw [Lpc.jumps, h, bne_self_eq_false, Bool.and_false]

theorem InputOk.eol {s : LineScan} {tp : TelnetT} (h : InputOk s tp) {lpc : Lpc}
    (hlpc : lpc.exit = .returned) (hat : tp.flags.attach = true) :
    ∃ tp', telnetEol lpc tp = some (tp', [deliver s.cur]) ∧ tp'.rawq = tp.rawq ∧
      InputOk { lines := s.lines ++ [s.cur] } { tp' with state := .DATA } ∧
      tp'.state = tp.state := by
  obtain ⟨tp', lines, h', hst, hraw, -, hsy, hov, hdone⟩ := telnetEol_spec lpc h.synch
  obtain ⟨rfl, hempty, hr⟩ := hdone (Lpc.jumps_of_returned hlpc tp)
  rw [if_pos hat, h.line_eq] at h'
  refine ⟨tp', h', hraw, ⟨rfl, hempty, hr, not_mem_nil, ?_, hsy⟩, hst⟩
  have hclear : tp'.flags.ovflcanq = false := by
    rw [hov]
    split
    · rfl
    · rename_i hne
      refine Bool.eq_false_iff.2 fun ho ↦ hne ?_
      have := h.overflow.1 ho
      rw [h.canq_len]
      omega
  simp [hclear]

/-- **One plain byte**: the session makes the step the scanner makes, and passes on the line the
scanner completes. -/
theorem InputOk.byte {s : LineScan} {tp : TelnetT} (h : InputOk s tp) {lpc : Lpc}
    (hlpc : lpc.exit = .returned) (hat : tp.flags.attach = true) {c : UInt8} (hc : Plain c) :
    ∃ tp' r, telnetByte lpc c tp = some (tp', r) ∧ tp'.rawq = tp.rawq ∧
      InputOk (s.byte (· = NUL) c) tp' ∧
      (r = none ∧ tp'.flags.attach = true ∧ (s.byte (· = NUL) c).lines = s.lines ∨
        r = some [deliver s.cur] ∧ (s.byte (· = NUL) c).lines = s.lines ++ [s.cur]) := by
  obtain ⟨hiac, hbs, hdel⟩ := hc
  rw [telnetByte, h.state]
  rcases hcr : s.cr with - | -
  · have hst : tp.state = .DATA := by simpa [hcr] using h.state
    simp only [Bool.false_eq_true, if_false]
    by_cases h0 : c = NUL
    · subst h0
      have hbyte : s.byte (· = NUL) NUL = s := by
        rw [LineScan.byte, if_neg (by simp [hcr, NUL, LF]), if_neg (by decide), if_pos (by decide)]
      rw [if_pos rfl, hbyte]
      exact ⟨tp, none, rfl, rfl, h, .inl ⟨rfl, hat, rfl⟩⟩
    rw [if_neg h0, if_neg hbs]
    by_cases h1 : c = LF
    · obtain ⟨tp', h', hraw, hok, hst'⟩ := h.eol hlpc hat
      have hbyte : s.byte (· = NUL) c = { lines := s.lines ++ [s.cur] } := if_pos (.inr h1)
      rw [if_pos h1, h', hbyte]
      refine ⟨tp', _, rfl, hraw, ?_, .inr ⟨rfl, rfl⟩⟩
      have heta : ({ tp' with state := .DATA } : TelnetT) = tp' := by rw [← hst, ← hst']
      rwa [heta] at hok
    rw [if_neg h1]
    by_cases h2 : c = CR
    · have hbyte : s.byte (· = NUL) c = { s with cr := true } := by
        rw [LineScan.byte, if_neg (by simp [hcr, h1]), if_pos h2]
      rw [if_pos h2, hbyte]
      exact ⟨{ tp with state := .CR }, none, rfl, rfl,
        ⟨rfl, h.canq, h.rptr, h.nul, h.overflow, h.synch⟩, .inl ⟨rfl, hat, rfl⟩⟩
    have hbyte : s.byte (· = NUL) c = { s with cur := s.cur ++ [c] } := by
      rw [LineScan.byte, if_neg (by simp [hcr, h1]), if_neg h2, if_neg (by simpa using h0)]
    obtain ⟨tp', h', hok, hraw, hat'⟩ := h.putc h0
    rw [if_neg h2, if_neg hdel, if_neg hiac, hbyte, h']
    exact ⟨tp', none, rfl, hraw, hok, .inl ⟨rfl, hat'.trans hat, rfl⟩⟩
  · obtain ⟨tp', h', hraw, hok, -⟩ := h.eol hlpc hat
    have hbyte : s.byte (· = NUL) c = { lines := s.lines ++ [s.cur] } := if_pos (.inl hcr)
    simp only [if_true]
    rw [hbyte]
    rw [h', Lpc.jumps_of_returned hlpc, Bool.and_false]
    exact ⟨{ tp' with state := .DATA }, some [deliver s.cur], rfl, hraw, hok, .inr ⟨rfl, rfl⟩⟩

/-! ### One call of the parser -/

/-- What a handler does to the stream: it has taken some bytes off the raw queue and passed on
the lines they complete. -/
def Consumed (s : LineScan) (tp tp' : TelnetT) (lines : List Bytes) : Prop :=
  ∃ cs new, tp.rawq.toList = cs ++ tp'.rawq.toList ∧
    InputOk (cs.foldl (LineScan.byte (· = NUL)) s) tp' ∧
    (cs.foldl (LineScan.byte (· = NUL)) s).lines = s.lines ++ new ∧ lines = new.map deliver

theorem Consumed.nil {s : LineScan} {tp tp' : TelnetT} (h : InputOk s tp')
    (hraw : tp.rawq.toList = tp'.rawq.toList) : Consumed s tp tp' [] :=
  ⟨[], [], hraw, h, (append_nil _).symm, rfl⟩

theorem telnetInputLoop_consumed {lpc : Lpc} (hlpc : lpc.exit = .returned) (n : ℕ) :
    ∀ {s : LineScan} {tp tp' : TelnetT} {lines : List Bytes}, InputOk s tp →
      tp.flags.attach = true → (∀ c ∈ tp.rawq.toList, Plain c) →
      telnetInputLoop lpc n tp = some (tp', lines) → Consumed s tp tp' lines := by
  induction n with
  | zero => exact fun _ _ _ h ↦ nomatch h
  | succ n ih =>
    intro s tp tp' lines hok hat hplain h
    rw [telnetInputLoop] at h
    split at h
    · rename_i hempty
      obtain ⟨tp₁, h₁, hf, hraw⟩ := telnetInputDone_spec tp
      rw [h₁] at h
      cases h
      exact .nil (hok.of_frame hf) (by rw [hraw, tp.rawq.nqEmpty_iff.1 hempty])
    split at h
    · cases h
      exact .nil ⟨hok.state, hok.canq, hok.rptr, hok.nul, hok.overflow, hok.synch⟩ rfl
    · rename_i hempty _
      obtain ⟨c, l, hl⟩ := exists_cons_of_ne_nil (mt tp.rawq.nqEmpty_iff.2 hempty)
      obtain ⟨q, hq, hql⟩ := Nqueue.nqGetc_eq_some hl
      rw [hl] at hplain
      have hok₀ : InputOk s { tp with rawq := q } :=
        ⟨hok.state, hok.canq, hok.rptr, hok.nul, hok.overflow, hok.synch⟩
      obtain ⟨tp₁, r, h₁, hraw, hok₁, hr⟩ :=
        hok₀.byte hlpc hat (hplain c mem_cons_self)
      simp only [hq, Option.bind_some, h₁] at h
      have hraw₁ : tp₁.rawq.toList = l := by rw [hraw, ← hql]
      rcases hr with ⟨rfl, hat₁, hlines⟩ | ⟨rfl, hlines⟩
      · obtain ⟨cs, new, hcs, hok', hnew, rfl⟩ := ih hok₁ hat₁
          (fun b hb ↦ hplain b (mem_cons_of_mem c (hraw₁ ▸ hb))) h
        refine ⟨c :: cs, new, ?_, hok', ?_, rfl⟩
        · rw [hl, ← hraw₁, hcs, cons_append]
        · rw [foldl_cons, hnew, hlines]
      · cases h
        exact ⟨[c], [s.cur], by rw [hl, hraw₁]; rfl, hok₁, hlines, rfl⟩

theorem InputOk.spaceOk {s : LineScan} {tp : TelnetT} (h : InputOk s tp) : SpaceOk tp := by
  refine .of_state ?_ ?_ <;> rw [h.state] <;> split <;> nofun

/-! ### Runs -/

/-- What an event, or a run of events, does to the stream: of the bytes that waited and the
bytes that came in, it has consumed the first part, and passed on the lines that part completes;
the rest waits. -/
def Session.Consumed (s : LineScan) (waiting : Bytes) (s' : Session) (t : Traffic) : Prop :=
  ∃ cs rest new, waiting ++ t.received = cs ++ rest ∧
    (cs.foldl (LineScan.byte (· = NUL)) s).lines = s.lines ++ new ∧ t.lines = new.map deliver ∧
    s'.Ok fun tp ↦ InputOk (cs.foldl (LineScan.byte (· = NUL)) s) tp ∧ tp.rawq.toList = rest

theorem Session.Consumed.idle {s : LineScan} {tp : TelnetT} {waiting : Bytes} {t : Traffic}
    (h : InputOk s tp) (hraw : tp.rawq.toList = waiting ++ t.received) (hlines : t.lines = []) :
    Session.Consumed s waiting (.live tp) t :=
  ⟨[], tp.rawq.toList, [], hraw.symm, (append_nil _).symm, hlines, h, rfl⟩

/-- **One event** of a session whose waiting bytes are plain. -/
theorem InputOk.step {s : LineScan} {tp : TelnetT} (h : InputOk s tp)
    (hplain : ∀ c ∈ tp.rawq.toList, Plain c) {e : Event} (he : e.Plain) {s' : Session}
    {t : Traffic} (hst : tp.step e = some (s', t)) :
    Session.Consumed s tp.rawq.toList s' t ∧ ∀ c ∈ t.received, Plain c := by
  cases e with
  | read atMark r lpc =>
    obtain ⟨tp', cs, h', hf, hraw, hcs⟩ := telnetRead_spec atMark r lpc tp
    rw [TelnetT.step, h'] at hst
    cases hst
    exact ⟨.idle (h.of_frame hf) hraw rfl, fun c hc ↦ he c (hcs.subset hc)⟩
  | write rs lpc =>
    obtain ⟨tp', h', hf⟩ := telnetWrite_spec rs lpc tp
    rw [TelnetT.step, h'] at hst
    cases hst
    exact ⟨.idle (h.of_frame (q := tp.rawq) hf) (by rw [hf.rawq, append_nil]) rfl,
      by rintro c ⟨⟩⟩
  | exception => exact he.elim
  | cleanup lpc =>
    rw [TelnetT.step, telnetCleanup] at hst
    split at hst
    · rename_i hat
      obtain ⟨⟨tp', lines⟩, h', heq⟩ := Option.map_eq_some_iff.1 hst
      cases heq
      obtain ⟨cs, new, hcs, hok, hnew, hlines⟩ := telnetInputLoop_consumed he _ h hat hplain h'
      exact ⟨⟨cs, tp'.rawq.toList, new, by rw [append_nil, hcs], hnew, hlines, hok, rfl⟩,
        by rintro c ⟨⟩⟩
    · cases hst
      exact ⟨⟨[], tp.rawq.toList, [], append_nil _, (append_nil _).symm, rfl, trivial⟩,
        by rintro c ⟨⟩⟩
  | call c =>
    obtain ⟨tp', h', hf⟩ := c.run_spec tp
    rw [TelnetT.step, h'] at hst
    cases hst
    exact ⟨.idle (h.of_frame (q := tp.rawq) hf) (by rw [hf.rawq, append_nil]) rfl,
      by rintro c ⟨⟩⟩

/-- **A run** of plain events, from the left. -/
theorem InputOk.run {es : List Event} : ∀ {s : LineScan} {tp : TelnetT}, InputOk s tp →
    (∀ c ∈ tp.rawq.toList, Plain c) → (∀ e ∈ es, e.Plain) → ∀ {s' : Session} {t : Traffic},
    (Session.live tp).run es = some (s', t) →
    Session.Consumed s tp.rawq.toList s' t ∧ ∀ c ∈ t.received, Plain c := by
  induction es with
  | nil =>
    intro s tp h hplain _ s' t hrun
    cases hrun
    exact ⟨.idle h (append_nil _).symm rfl, nofun⟩
  | cons e es ih =>
    intro s tp h hplain hes s' t hrun
    obtain ⟨s₁, t₁, u, hst, hrun, rfl⟩ := Session.run_cons hrun
    obtain ⟨⟨cs, rest, new, hcs, hnew, hlines, hok⟩, hrecv⟩ :=
      h.step hplain (hes e mem_cons_self) hst
    have hrest : ∀ c ∈ rest, Plain c := by
      intro c hc
      have hmem : c ∈ tp.rawq.toList ++ t₁.received := hcs ▸ mem_append_right cs hc
      exact (mem_append.1 hmem).elim (hplain c) (hrecv c)
    rcases s₁ with tp₁ | -
    · obtain ⟨hok₁, rfl⟩ := hok
      obtain ⟨⟨cs₂, rest₂, new₂, hcs₂, hnew₂, hlines₂, hok₂⟩, hrecv₂⟩ :=
        ih hok₁ hrest (fun e' he' ↦ hes e' (mem_cons_of_mem e he')) hrun
      refine ⟨⟨cs ++ cs₂, rest₂, new ++ new₂, ?_, ?_, ?_, ?_⟩, ?_⟩
      · rw [Traffic.append, ← append_assoc, hcs, append_assoc, hcs₂, append_assoc]
      · rw [foldl_append, hnew₂, hnew, append_assoc]
      · rw [Traffic.append, hlines, hlines₂, map_append]
      · rw [foldl_append]
        exact hok₂
      · exact fun c hc ↦ (mem_append.1 hc).elim (hrecv c) (hrecv₂ c)
    · -- Nothing happens to a closed session.
      cases es with
      | cons e' es => exact absurd hrun (by simp [Session.run, Session.step])
      | nil =>
        cases hrun
        rw [Traffic.append_nil]
        exact ⟨⟨cs, rest, new, hcs, hnew, hlines, trivial⟩, hrecv⟩

theorem telnetAccept_inputOk {lpc : Lpc} {tp : TelnetT} (h : telnetAccept lpc = some tp) :
    InputOk {} tp ∧ tp.rawq.toList = [] := by
  obtain ⟨tp', h', hf⟩ := runCalls_spec lpc.calls telnetAlloc
  rw [telnetAccept, h', Option.map_some] at h
  obtain rfl := Option.some.inj h
  have hinit : InputOk {} telnetAlloc :=
    ⟨rfl, rfl, rfl, not_mem_nil, by simp [telnetAlloc], rfl⟩
  have hok : InputOk {} tp' := hinit.of_frame (q := telnetAlloc.rawq) hf
  split
  · exact ⟨⟨hok.state, hok.canq, hok.rptr, hok.nul, hok.overflow, hok.synch⟩,
      congrArg Nqueue.toList hf.rawq⟩
  · exact ⟨hok, congrArg Nqueue.toList hf.rawq⟩

/-- The lines of a stream are passed on one for one, and those that meet `short` as they are. -/
def DeliveredVerbatim (short : Bytes → Prop) (lines delivered : List Bytes) : Prop :=
  List.Forall₂ (fun l d ↦ short l → d = l) lines delivered

theorem deliveredVerbatim_deliver (lines : List Bytes) :
    DeliveredVerbatim (·.length < TELNET_CANQ_SIZE) lines (lines.map deliver) := by
  rw [DeliveredVerbatim, forall₂_map_right_iff]
  exact forall₂_same.2 fun l _ hl ↦ if_pos hl

/-- In every run in which a session gets nothing but plain bytes, what it has received is a part
it has consumed and a part that waits in the raw queue, and the complete lines of the consumed
part have been passed on one for one and in order: those that meet `short` byte for byte, but for
the bytes `drop` takes out. -/
def Verbatim (drop : UInt8 → Bool) (short : Bytes → Prop) : Prop :=
  ∀ (lpc : Lpc) (tp₀ : TelnetT), telnetAccept lpc = some tp₀ →
    ∀ es : List Event, (∀ e ∈ es, e.Plain) → ∀ (s : Session) (t : Traffic),
      (Session.live tp₀).run es = some (s, t) → ∃ consumed rest,
        t.received = consumed ++ rest ∧ s.Ok (fun tp ↦ tp.rawq.toList = rest) ∧
        DeliveredVerbatim short (scan drop consumed).lines t.lines

/-- The parser does not stall: in every such run, while the session is attached and has space
for replies, its next call consumes at least a byte of what waits. -/
def Progressing : Prop :=
  ∀ (lpc : Lpc) (tp₀ : TelnetT), telnetAccept lpc = some tp₀ →
    ∀ es : List Event, (∀ e ∈ es, e.Plain) → ∀ (tp : TelnetT) (t : Traffic),
      (Session.live tp₀).run es = some (.live tp, t) → tp.flags.attach = true →
        TELNET_OUTQ_REQUIRED ≤ tp.outq.nqAvail → tp.rawq.toList ≠ [] →
        ∀ lpc, ∃ tp' u, tp.step (.cleanup lpc) = some (.live tp', u) ∧
          tp'.rawq.toList.length < tp.rawq.toList.length

/-- **Lines are delivered verbatim**, NULs dropped, where they leave room for the NUL behind
them. -/
theorem lines_delivered : Verbatim (· = NUL) (·.length < TELNET_CANQ_SIZE) ∧ Progressing := by
  refine ⟨fun _ tp₀ h₀ es hes s t hrun ↦ ?_, fun _ tp₀ h₀ es hes tp t hrun ↦ ?_⟩
  all_goals
    obtain ⟨hok, hraw⟩ := telnetAccept_inputOk h₀
    obtain ⟨⟨cs, rest, new, hcs, hnew, hlines, hend⟩, hrecv⟩ := hok.run (by simp [hraw]) hes hrun
    rw [hraw, nil_append] at hcs
  · refine ⟨cs, rest, hcs, ?_, ?_⟩
    · cases s with
      | live tp => exact hend.2
      | closed => trivial
    · rw [scan, hnew, hlines]
      exact deliveredVerbatim_deliver new
  · obtain ⟨hok', -⟩ := hend
    intro hat hav hne lpc
    obtain ⟨tp', lines, h', -, -, hlt⟩ := telnetInput_spec lpc hok'.spaceOk
    refine ⟨tp', { lines := lines }, ?_, ?_⟩
    · rw [TelnetT.step, telnetCleanup, if_pos hat, h', Option.map_some]
    · rw [Nqueue.length_toList, Nqueue.length_toList]
      exact hlt (Bool.eq_false_iff.2 (mt tp.rawq.nqEmpty_iff.1 hne)) hav

/-- An error behind the line `a` has it delivered twice, and `b` not at all. -/
example : ((telnetAccept {}).bind fun tp ↦ (Session.live tp).run
    [.read false (.data 97 [LF, 98, LF]) {}, .cleanup { exit := .behind }, .cleanup {}]).map
      (fun (_, t) ↦ t.lines) = some [[97], [97]] := by decide +kernel

/-! ### Where a line is not delivered as it was received -/

/-- After `es` a session has consumed everything, and has passed on `d` for the single line
`l`. -/
def passes (drop : UInt8 → Bool) (es : List Event) (l d : Bytes) : Bool :=
  ((telnetAccept {}).bind fun tp ↦ (Session.live tp).run es).any fun
    | (.live tp, t) => tp.rawq.nqEmpty && t.lines == [d] && (scan drop t.received).lines == [l]
    | (.closed, _) => false

theorem not_verbatim_of_passes {drop : UInt8 → Bool} {short : Bytes → Prop}
    (es : List Event) (l d : Bytes) (h : passes drop es l d = true)
    (hes : ∀ e ∈ es, e.Plain) (hl : short l) (hne : d ≠ l) : ¬Verbatim drop short := by
  intro hall
  obtain ⟨tp₀, h₀, -⟩ := telnetAccept_spec {}
  rw [passes, h₀, Option.bind_some, Option.any_eq_true] at h
  obtain ⟨⟨s, t⟩, hrun, hs⟩ := h
  rcases s with tp | -
  · simp only [Bool.and_eq_true, beq_iff_eq, Nqueue.nqEmpty_iff] at hs
    obtain ⟨⟨hraw, hlines⟩, hscan⟩ := hs
    obtain ⟨consumed, rest, hcs, hrest, hdel⟩ := hall {} tp₀ h₀ es hes _ t hrun
    obtain rfl : [] = rest := hraw.symm.trans hrest
    rw [append_nil] at hcs
    rw [← hcs, hscan, hlines, DeliveredVerbatim, forall₂_cons] at hdel
    exact hne (hdel.1 hl)
  · exact Bool.false_ne_true hs

instance (c : UInt8) : Decidable (Plain c) :=
  inferInstanceAs (Decidable (_ ∧ _))

instance (e : Event) : Decidable e.Plain :=
  match e with
  | .read _ r _ => inferInstanceAs (Decidable (∀ c ∈ r.bytes, Telnet.Plain c))
  | .write _ _ => isTrue trivial
  | .exception => isFalse id
  | .cleanup lpc => inferInstanceAs (Decidable (lpc.exit = .returned))
  | .call _ => isTrue trivial

/-- The line `a`, NUL, `b` in one chunk. -/
def nulLine : List Event :=
  [.read false (.data 97 [0, 98, 10]) {}, .cleanup {}]

/-- A line of `TELNET_CANQ_SIZE` bytes, in three chunks. -/
def fullLine : List Event :=
  [.read false (.data 97 (List.replicate 255 97)) {}, .cleanup {},
    .read false (.data 97 (List.replicate 255 97)) {}, .cleanup {},
    .read false (.data 10 []) {}, .cleanup {}]

set_option maxRecDepth 10000 in
/-- A NUL is dropped from its line; and a line that fills the canonical queue is not delivered
as it was received, NULs or no NULs. -/
theorem not_verbatim : ¬Verbatim (fun _ ↦ false) (·.length ≤ TELNET_CANQ_SIZE) ∧
    ¬Verbatim (· = NUL) (·.length ≤ TELNET_CANQ_SIZE) := by
  constructor
  · exact not_verbatim_of_passes nulLine [97, 0, 98] [97, 98] (by decide) (by decide)
      (by decide) (by decide)
  · exact not_verbatim_of_passes fullLine (List.replicate 512 97) [] (by decide +kernel)
      (by decide +kernel) (by simp) (by decide)

end Lpmud.Telnet
