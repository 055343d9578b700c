import Lpmud.Telnet.Handlers

/-!
# Space on the session's queues

No queue of a session is written without room, and the overflow flag of the canonical queue
says what it should. Both are invariants of the byte step of `telnet_input`, and the byte step
is analysed once for the two of them (`telnetByte_spec`).

The output queue needs no invariant of its own: the parser looks before every byte whether
`TELNET_OUTQ_REQUIRED` bytes are free, and what one byte makes it send is at most that long.
The option queue needs one, because it is allocated by the first subnegotiation and used by the
states behind it (`SpaceOk`).

The overflow flag is another matter. Every handler of the input side keeps `OverflowOk`; urgent
data does not, since `telnet_exception` empties the canonical queue and leaves the flag. So the
second invariant holds of the runs in which no urgent data arrives while the flag is set.
-/

namespace Lpmud.Telnet

open Option

/-- Inside a subnegotiation the option queue exists. -/
def SpaceOk (tp : TelnetT) : Prop :=
  tp.state = .IAC_SB_DATA ∨ tp.state = .IAC_SB_IAC → tp.optq.isSome = true

/-- The overflow flag is set only while the canonical queue is full, and not in a synch. -/
structure OverflowOk (tp : TelnetT) : Prop where
  full : tp.flags.ovflcanq = true → tp.canq.nqLen = TELNET_CANQ_SIZE
  synch : tp.flags.synch = true → tp.flags.ovflcanq = false

theorem OverflowOk.of_frame {tp tp' : TelnetT} (h : OverflowOk tp) (hf : Frame tp tp') :
    OverflowOk tp' := by
  refine ⟨fun ho ↦ ?_, fun hs ↦ ?_⟩
  · rw [hf.canq]
    exact h.full (hf.ovflcanq ▸ ho)
  · rw [hf.ovflcanq]
    exact h.synch (hf.synch ▸ hs)

/-- The effect of a handler that works on the current line and sends at most `n` bytes. -/
structure Quiet (n : ℕ) (tp tp' : TelnetT) : Prop where
  state : tp'.state = tp.state
  rawq : tp'.rawq = tp.rawq
  optq : tp'.optq = tp.optq
  outq : tp'.outq.nqLen ≤ tp.outq.nqLen + n
  overflow : OverflowOk tp → OverflowOk tp'

namespace Quiet

variable {n : ℕ} {tp tp' : TelnetT}

theorem of_replied (h : Replied n tp tp') : Quiet n tp tp' :=
  ⟨h.frame.state, h.frame.rawq, h.frame.optq, h.outq, fun ho ↦ ho.of_frame h.frame⟩

theorem refl (n : ℕ) (tp : TelnetT) : Quiet n tp tp :=
  of_replied (.refl n tp)

theorem setCanq (n : ℕ) {tp : TelnetT} {q : Nqueue TELNET_CANQ_SIZE}
    (hq : tp.Deaf → q = tp.canq) : Quiet n tp { tp with canq := q } := by
  refine ⟨rfl, rfl, rfl, Nat.le_add_right _ _, fun ho ↦ ⟨fun h ↦ ?_, ho.synch⟩⟩
  change q.nqLen = TELNET_CANQ_SIZE
  rw [hq (Or.inl h)]
  exact ho.full h

end Quiet

/-! ### The handlers of the parser -/

theorem telnetCanqPutc_quiet (c : UInt8) (tp : TelnetT) :
    ∃ tp', telnetCanqPutc c tp = some tp' ∧ Quiet 1 tp tp' := by
  by_cases hd : tp.Deaf
  · exact ⟨tp, telnetCanqPutc_deaf hd, .refl 1 tp⟩
  by_cases hlen : tp.canq.nqLen = TELNET_CANQ_SIZE
  · obtain ⟨tp', h, hr⟩ := telnetCanqPutc_full (c := c) hd hlen
    refine ⟨tp', h, hr.frame.state, hr.frame.rawq, hr.frame.optq, hr.outq, fun _ ↦ ?_⟩
    have ho : OverflowOk { tp with flags.ovflcanq := true } :=
      ⟨fun _ ↦ hlen, fun hs ↦ absurd (Or.inr hs) hd⟩
    exact ho.of_frame hr.frame
  · obtain ⟨q, h, -, -⟩ := telnetCanqPutc_room (c := c) hd (lt_of_le_of_ne tp.canq.len_le hlen)
    exact ⟨_, h, .setCanq 1 fun h' ↦ absurd h' hd⟩

theorem telnetEc_quiet (tp : TelnetT) : ∃ tp', telnetEc tp = some tp' ∧ Quiet 0 tp tp' := by
  obtain ⟨q, h, hq⟩ := telnetEc_spec tp
  exact ⟨_, h, .setCanq 0 hq⟩

theorem telnetEl_quiet (tp : TelnetT) : Quiet 0 tp (telnetEl tp) := by
  rw [telnetEl_eq]
  exact .setCanq 0 fun h ↦ if_pos h

theorem telnetDm_quiet (tp : TelnetT) : Quiet 0 tp (telnetDm tp) := by
  rw [telnetDm]
  split
  · exact .refl 0 tp
  · exact ⟨rfl, rfl, rfl, le_rfl, fun ho ↦ ⟨ho.full, nofun⟩⟩

theorem telnetAyt_quiet {t : TelnetT} (h : TELNET_OUTQ_REQUIRED ≤ t.outq.nqAvail) :
    ∃ t', telnetAyt t = some t' ∧ Quiet TELNET_OUTQ_REQUIRED t t' := by
  have hlen : version.length = TELNET_OUTQ_REQUIRED := rfl
  obtain ⟨q, hq, hl, -⟩ := t.outq.nqPuts_eq_some (hlen ▸ h)
  refine ⟨_, by rw [telnetAyt, hq, map_some], .of_replied ⟨?_, by simp, le_of_eq ?_⟩⟩
  · exact Frame.enabw ⟨rfl, rfl, rfl, rfl, rfl, rfl⟩
  · rw [telnetEnabw_outq, ← Nqueue.length_toList, hl, List.length_append, Nqueue.length_toList,
      hlen]

/-- Every end of line leaves the overflow flag clear, in a state where it says what it
should. -/
theorem telnetEol_overflow (lpc : Lpc) {tp : TelnetT} (ho : OverflowOk tp) :
    ∃ tp' lines, telnetEol lpc tp = some (tp', lines) ∧ OverflowOk tp' ∧
      tp'.flags.ovflcanq = false := by
  rcases hs : tp.flags.synch with - | -
  · obtain ⟨tp', lines, h, -, -, -, hs', hov, -⟩ := telnetEol_spec lpc hs
    have hclear : tp'.flags.ovflcanq = false := by
      rw [hov]
      split
      · rfl
      · rename_i hne
        exact Bool.eq_false_iff.2 fun h' ↦ hne (ho.full h')
    exact ⟨tp', lines, h, ⟨fun h' ↦ absurd h' (by simp [hclear]), fun _ ↦ hclear⟩, hclear⟩
  · exact ⟨tp, _, telnetEol_synch hs, ho, ho.synch hs⟩

theorem telnetEol_total (lpc : Lpc) (tp : TelnetT) :
    ∃ tp' lines, telnetEol lpc tp = some (tp', lines) ∧ tp'.state = tp.state ∧
      tp'.rawq = tp.rawq ∧ tp'.optq = tp.optq := by
  rcases hs : tp.flags.synch with - | -
  · obtain ⟨tp', lines, h, hst, hraw, hopt, -⟩ := telnetEol_spec lpc hs
    exact ⟨tp', lines, h, hst, hraw, hopt⟩
  · exact ⟨tp, _, telnetEol_synch hs, rfl, rfl, rfl⟩

theorem telnetOptqPutc_spec {t : TelnetT} (c : UInt8) (h : t.optq.isSome = true) :
    ∃ t', telnetOptqPutc c t = some t' ∧ Quiet 0 { t with optq := t'.optq } t' ∧
      t'.optq.isSome = true := by
  obtain ⟨q, hq⟩ := isSome_iff_exists.1 h
  rw [telnetOptqPutc]
  split
  · exact ⟨t, rfl, .refl 0 t, h⟩
  · rw [hq, bind_some]
    by_cases hfull : q.nqLen = TELNET_OPTQ_SIZE
    · rw [if_neg (by simpa [Nqueue.nqFull] using hfull)]
      exact ⟨_, rfl, ⟨rfl, rfl, rfl, le_rfl, fun ho ↦ ⟨ho.full, ho.synch⟩⟩, rfl⟩
    · obtain ⟨q', hq', -, -⟩ := q.nqPutc_eq_some (c := c) (lt_of_le_of_ne q.len_le hfull)
      rw [if_pos (by simpa [Nqueue.nqFull] using hfull), hq', map_some]
      exact ⟨_, rfl, .refl 0 _, rfl⟩

theorem telnetSe_spec {t : TelnetT} (h : t.optq.isSome = true) :
    ∃ q, telnetSe t = some { t with flags.ovfloptq := false, optq := some q } := by
  obtain ⟨q, hq⟩ := isSome_iff_exists.1 h
  exact ⟨q.nqInit, by rw [telnetSe, hq, map_some]⟩

/-! ### One byte -/

/-- What one byte of input does to the two invariants and to the queues. -/
structure ByteOk (tp tp' : TelnetT) (r : Option (List Bytes)) : Prop where
  rawq : tp'.rawq = tp.rawq
  space : SpaceOk tp'
  overflow : OverflowOk tp → OverflowOk tp'
  outq : r = none → tp'.outq.nqLen ≤ tp.outq.nqLen + TELNET_OUTQ_REQUIRED

theorem SpaceOk.of_state {tp : TelnetT} (h₁ : tp.state ≠ .IAC_SB_DATA)
    (h₂ : tp.state ≠ .IAC_SB_IAC) : SpaceOk tp :=
  fun h ↦ (h.elim h₁ h₂).elim

/-- A handler of the line, run from a control block `u` that differs from `t` in the parser's
state or the option queue only. -/
theorem ByteOk.of_quiet {n : ℕ} {t u v : TelnetT} (hn : n ≤ TELNET_OUTQ_REQUIRED)
    (hq : Quiet n u v) (h₁ : u.rawq = t.rawq) (h₂ : u.outq = t.outq)
    (h₃ : OverflowOk t → OverflowOk u) (hs : SpaceOk v) : ByteOk t v none := by
  refine ⟨hq.rawq.trans h₁, hs, fun h ↦ hq.overflow (h₃ h), fun _ ↦ ?_⟩
  have := hq.outq
  rw [h₂] at this
  exact this.trans (Nat.add_le_add_left hn _)

theorem ByteOk.setState (t : TelnetT) (s : InputState) (hs : SpaceOk { t with state := s }) :
    ByteOk t { t with state := s } none :=
  .of_quiet (t := t) (Nat.zero_le _) (.refl 0 _) rfl rfl (fun ho ↦ ⟨ho.full, ho.synch⟩) hs

theorem telnetCommand_cases {P : Option TelnetT → Prop} {c : UInt8} {tp : TelnetT}
    (hdm : P (some (telnetDm tp))) (hayt : P (telnetAyt tp)) (hec : P (telnetEc tp))
    (hel : P (some (telnetEl tp))) (hcanq : P (telnetCanqPutc c tp))
    (hstate : ∀ st, st ≠ .IAC_SB_DATA → st ≠ .IAC_SB_IAC → P (some { tp with state := st }))
    (hsame : P (some tp)) : P (telnetCommand c tp) :=
  iteInduction (motive := P) (fun _ ↦ hdm) fun _ ↦
  iteInduction (motive := P) (fun _ ↦ hayt) fun _ ↦
  iteInduction (motive := P) (fun _ ↦ hec) fun _ ↦
  iteInduction (motive := P) (fun _ ↦ hel) fun _ ↦
  iteInduction (motive := P) (fun _ ↦ hstate _ nofun nofun) fun _ ↦
  iteInduction (motive := P) (fun _ ↦ hstate _ nofun nofun) fun _ ↦
  iteInduction (motive := P) (fun _ ↦ hstate _ nofun nofun) fun _ ↦
  iteInduction (motive := P) (fun _ ↦ hstate _ nofun nofun) fun _ ↦
  iteInduction (motive := P) (fun _ ↦ hstate _ nofun nofun) fun _ ↦
  iteInduction (motive := P) (fun _ ↦ hcanq) fun _ ↦ hsame

theorem telnetCommand_spec (c : UInt8) {tp : TelnetT}
    (hav : TELNET_OUTQ_REQUIRED ≤ tp.outq.nqAvail) :
    ∃ tp', telnetCommand c { tp with state := .DATA } = some tp' ∧ ByteOk tp tp' none := by
  have quiet {n : ℕ} {tp' : TelnetT} (hn : n ≤ TELNET_OUTQ_REQUIRED)
      (hq : Quiet n { tp with state := .DATA } tp') : ByteOk tp tp' none :=
    .of_quiet (t := tp) hn hq rfl rfl (fun ho ↦ ⟨ho.full, ho.synch⟩)
      (.of_state (by simp [hq.state]) (by simp [hq.state]))
  have hzero := Nat.zero_le TELNET_OUTQ_REQUIRED
  refine telnetCommand_cases (P := fun r ↦ ∃ tp', r = some tp' ∧ ByteOk tp tp' none)
    ⟨_, rfl, quiet hzero (telnetDm_quiet _)⟩ ?_ ?_ ⟨_, rfl, quiet hzero (telnetEl_quiet _)⟩ ?_
    (fun st h₁ h₂ ↦ ⟨_, rfl, .setState tp _ (.of_state h₁ h₂)⟩)
    ⟨_, rfl, .setState tp _ (.of_state nofun nofun)⟩
  · obtain ⟨tp', h, hq⟩ := telnetAyt_quiet (t := { tp with state := .DATA }) hav
    exact ⟨tp', h, quiet le_rfl hq⟩
  · obtain ⟨tp', h, hq⟩ := telnetEc_quiet { tp with state := .DATA }
    exact ⟨tp', h, quiet hzero hq⟩
  · obtain ⟨tp', h, hq⟩ := telnetCanqPutc_quiet c { tp with state := .DATA }
    exact ⟨tp', h, quiet (by decide) hq⟩

/-- **One byte of input**, taken while the output queue has the required space, is processed
without overrunning a queue; what it makes the session send fits into that space. -/
theorem telnetByte_spec {t : TelnetT} (lpc : Lpc) (c : UInt8) (hs : SpaceOk t)
    (hav : TELNET_OUTQ_REQUIRED ≤ t.outq.nqAvail) :
    ∃ t' r, telnetByte lpc c t = some (t', r) ∧ ByteOk t t' r := by
  rename TelnetT => tp
  have h3 : 3 ≤ tp.outq.nqAvail := le_trans (by decide) hav
  -- A handler that leaves the state alone, in a state outside a subnegotiation.
  have quiet {n : ℕ} {f : Option TelnetT} (hn : n ≤ TELNET_OUTQ_REQUIRED)
      (h₁ : tp.state ≠ .IAC_SB_DATA) (h₂ : tp.state ≠ .IAC_SB_IAC)
      (hf : ∃ tp', f = some tp' ∧ Quiet n tp tp') :
      ∃ tp' r, next f = some (tp', r) ∧ ByteOk tp tp' r := by
    obtain ⟨tp', rfl, hq⟩ := hf
    exact ⟨tp', none, rfl, .of_quiet hn hq rfl rfl id (.of_state (hq.state ▸ h₁) (hq.state ▸ h₂))⟩
  -- An option message, after which the state is `DATA`.
  have option {f : Option TelnetT} (hf : ∃ tp', f = some tp' ∧ Replied 3 tp tp') :
      ∃ tp' r, next (f.map fun tp' ↦ { tp' with state := .DATA }) = some (tp', r) ∧
        ByteOk tp tp' r := by
    obtain ⟨tp', rfl, hr⟩ := hf
    have ho (h : OverflowOk tp) := (Quiet.of_replied hr).overflow h
    exact ⟨_, none, rfl, hr.frame.rawq, .of_state (by simp) (by simp),
      fun h ↦ ⟨(ho h).full, (ho h).synch⟩,
      fun _ ↦ hr.outq.trans (Nat.add_le_add_left (by decide) _)⟩
  rw [telnetByte]
  split
  · rename_i hst
    have h₁ : tp.state ≠ .IAC_SB_DATA := by simp [hst]
    have h₂ : tp.state ≠ .IAC_SB_IAC := by simp [hst]
    split
    · exact quiet (Nat.zero_le _) h₁ h₂ ⟨tp, rfl, .refl 0 tp⟩
    split
    · exact quiet (Nat.zero_le _) h₁ h₂ (telnetEc_quiet tp)
    split
    · obtain ⟨tp', lines, h, hst', hraw, hopt⟩ := telnetEol_total lpc tp
      refine ⟨tp', some lines, by rw [h]; rfl, hraw, .of_state (hst' ▸ h₁) (hst' ▸ h₂),
        fun ho ↦ ?_, nofun⟩
      obtain ⟨tp'', lines', h', ho', -⟩ := telnetEol_overflow lpc ho
      rw [h] at h'
      cases h'
      exact ho'
    split
    · exact ⟨_, none, rfl, .setState tp _ (.of_state (by simp) (by simp))⟩
    split
    · exact quiet (Nat.zero_le _) h₁ h₂ (telnetEc_quiet tp)
    split
    · exact ⟨_, none, rfl, .setState tp _ (.of_state (by simp) (by simp))⟩
    · exact quiet (by decide) h₁ h₂ (telnetCanqPutc_quiet c tp)
  · rename_i hst
    obtain ⟨tp', lines, h, hst', hraw, hopt⟩ := telnetEol_total lpc tp
    have hover (ho : OverflowOk tp) : OverflowOk tp' := by
      obtain ⟨tp'', lines', h', ho', -⟩ := telnetEol_overflow lpc ho
      rw [h] at h'
      cases h'
      exact ho'
    rw [h, map_some]
    dsimp only
    split
    · exact ⟨tp', some lines, rfl, hraw, .of_state (by simp [hst', hst]) (by simp [hst', hst]),
        hover, nofun⟩
    · exact ⟨{ tp' with state := .DATA }, some lines, rfl, hraw, .of_state nofun nofun,
        fun ho ↦ ⟨(hover ho).full, (hover ho).synch⟩, nofun⟩
  · obtain ⟨tp', h, hb⟩ := telnetCommand_spec c hav
    exact ⟨tp', none, by rw [h]; rfl, hb⟩
  · exact ⟨_, none, rfl, .of_quiet (t := tp) (Nat.zero_le _) (.refl 0 _) rfl rfl
      (fun ho ↦ ⟨ho.full, ho.synch⟩) fun _ ↦ rfl⟩
  · rename_i hst
    split
    · exact ⟨_, none, rfl, .setState tp _ fun _ ↦ hs (.inl hst)⟩
    · obtain ⟨tp', h, hq, hopt⟩ := telnetOptqPutc_spec c (hs (.inl hst))
      exact ⟨tp', none, by rw [h]; rfl, .of_quiet (t := tp) (Nat.zero_le _) hq rfl rfl
        (fun ho ↦ ⟨ho.full, ho.synch⟩) fun _ ↦ hopt⟩
  · rename_i hst
    dsimp only
    split
    · obtain ⟨q, hq⟩ := telnetSe_spec (t := { tp with state := .IAC_SB_DATA }) (hs (.inr hst))
      exact ⟨{ tp with flags.ovfloptq := false, optq := some q, state := .DATA }, none,
        by rw [hq]; rfl, rfl, .of_state (by simp) (by simp),
        fun ho ↦ ⟨ho.full, ho.synch⟩, fun _ ↦ Nat.le_add_right _ _⟩
    split
    · obtain ⟨tp', h, hq, hopt⟩ :=
        telnetOptqPutc_spec (t := { tp with state := .IAC_SB_DATA }) c (hs (.inr hst))
      exact ⟨tp', none, by rw [h]; rfl, .of_quiet (t := tp) (Nat.zero_le _) hq rfl rfl
        (fun ho ↦ ⟨ho.full, ho.synch⟩) fun _ ↦ hopt⟩
    · exact ⟨_, none, rfl, .setState tp _ fun _ ↦ hs (.inr hst)⟩
  · exact option (telnetWill_spec h3)
  · exact option (telnetWont_spec h3)
  · exact option (telnetDo_spec h3)
  · exact option (telnetDont_spec h3)

/-! ### One call of a handler -/

/-- What every handler guarantees: it succeeds, keeps the option queue where it is needed and,
urgent data apart, keeps the overflow flag in step with the canonical queue. -/
structure StepOk (tp tp' : TelnetT) : Prop where
  space : SpaceOk tp → SpaceOk tp'
  overflow : OverflowOk tp → OverflowOk tp'

theorem StepOk.trans {t u v : TelnetT} (h : StepOk t u) (k : StepOk u v) : StepOk t v :=
  ⟨fun hs ↦ k.space (h.space hs), fun ho ↦ k.overflow (h.overflow ho)⟩

theorem StepOk.of_frame {tp tp' : TelnetT} (hf : Frame tp tp') : StepOk tp tp' := by
  refine ⟨fun hs h ↦ ?_, fun ho ↦ ho.of_frame hf⟩
  rw [hf.optq]
  exact hs (hf.state ▸ h)

theorem StepOk.of_frame_rawq {tp tp' : TelnetT} {q : Nqueue TELNET_RAWQ_SIZE}
    (hf : Frame { tp with rawq := q } tp') : StepOk tp tp' :=
  StepOk.trans (u := { tp with rawq := q }) ⟨id, fun ho ↦ ⟨ho.full, ho.synch⟩⟩ (.of_frame hf)

/-- The loop of `telnet_input` never runs out of fuel; and it takes a byte off the raw queue where
there is one, and space for replies. -/
theorem telnetInputLoop_spec (lpc : Lpc) (n : ℕ) : ∀ {tp : TelnetT}, SpaceOk tp →
    tp.rawq.nqLen < n →
    ∃ tp' lines, telnetInputLoop lpc n tp = some (tp', lines) ∧ StepOk tp tp' ∧
      tp'.rawq.nqLen ≤ tp.rawq.nqLen ∧
      (tp.rawq.nqEmpty = false → TELNET_OUTQ_REQUIRED ≤ tp.outq.nqAvail →
        tp'.rawq.nqLen < tp.rawq.nqLen) := by
  induction n with
  | zero => exact fun _ h ↦ absurd h (Nat.not_lt_zero _)
  | succ n ih =>
    intro tp hs hn
    rw [telnetInputLoop]
    split
    · rename_i hempty
      obtain ⟨tp', h, hf, hraw⟩ := telnetInputDone_spec tp
      refine ⟨tp', [], by rw [h, map_some], .of_frame_rawq hf, ?_, ?_⟩
      · rw [← tp'.rawq.length_toList, hraw]
        exact Nat.zero_le _
      · rw [hempty]
        exact nofun
    split
    · rename_i hfull
      exact ⟨_, [], rfl, ⟨id, fun ho ↦ ⟨ho.full, ho.synch⟩⟩, le_rfl,
        fun _ hav ↦ absurd hfull (Nat.not_lt.2 hav)⟩
    · rename_i hempty hav
      obtain ⟨c, l, hl⟩ := List.exists_cons_of_ne_nil (mt tp.rawq.nqEmpty_iff.2 hempty)
      obtain ⟨q, hq, hql⟩ := Nqueue.nqGetc_eq_some hl
      have hlt : q.nqLen < tp.rawq.nqLen := by
        rw [← q.length_toList, hql, ← tp.rawq.length_toList, hl, List.length_cons]
        exact Nat.lt_succ_self _
      obtain ⟨tp₁, r, h₁, hb⟩ := telnetByte_spec (t := { tp with rawq := q }) lpc c hs
        (Nat.not_lt.1 hav)
      have hok : StepOk tp tp₁ := ⟨fun _ ↦ hb.space, fun ho ↦ hb.overflow ⟨ho.full, ho.synch⟩⟩
      have hraw : tp₁.rawq.nqLen < tp.rawq.nqLen := by
        rw [hb.rawq]
        exact hlt
      rw [hq, bind_some]
      simp only [h₁, bind_some]
      cases r with
      | some lines => exact ⟨tp₁, lines, rfl, hok, hraw.le, fun _ _ ↦ hraw⟩
      | none =>
        obtain ⟨tp', lines, h', hok', hle, -⟩ := ih hb.space (by omega)
        exact ⟨tp', lines, h', hok.trans hok', hle.trans hraw.le, fun _ _ ↦ hle.trans_lt hraw⟩

theorem telnetInput_spec (lpc : Lpc) {tp : TelnetT} (hs : SpaceOk tp) :
    ∃ tp' lines, telnetInput lpc tp = some (tp', lines) ∧ StepOk tp tp' ∧
      tp'.rawq.nqLen ≤ tp.rawq.nqLen ∧
      (tp.rawq.nqEmpty = false → TELNET_OUTQ_REQUIRED ≤ tp.outq.nqAvail →
        tp'.rawq.nqLen < tp.rawq.nqLen) :=
  telnetInputLoop_spec lpc _ hs (Nat.lt_succ_self _)

/-! ### Runs -/

/-- What the two invariants are about is a live session. -/
def Session.Ok (P : TelnetT → Prop) : Session → Prop
  | .live tp => P tp
  | .closed => True

theorem Session.Ok.imp {P Q : TelnetT → Prop} {s : Session} (h : s.Ok P)
    (hPQ : ∀ tp, P tp → Q tp) : s.Ok Q := by
  cases s with
  | live tp => exact hPQ tp h
  | closed => trivial

/-- **One event.** A session with its option queue in place handles every event, and stays so;
all events but urgent data keep the overflow flag in step with the queue. -/
theorem TelnetT.step_spec {tp : TelnetT} (hs : SpaceOk tp) (e : Event) :
    ∃ s t, tp.step e = some (s, t) ∧ s.Ok SpaceOk ∧
      (e ≠ .exception → OverflowOk tp → s.Ok OverflowOk) := by
  -- A handler that leaves the session live.
  have live {tp' : TelnetT} (h : StepOk tp tp') :
      (Session.live tp').Ok SpaceOk ∧
        (e ≠ .exception → OverflowOk tp → (Session.live tp').Ok OverflowOk) :=
    ⟨h.space hs, fun _ ↦ h.overflow⟩
  cases e with
  | read atMark r lpc =>
    obtain ⟨tp', cs, h, hf, -⟩ := telnetRead_spec atMark r lpc tp
    exact ⟨.live tp', _, by rw [TelnetT.step, h]; rfl, live (.of_frame_rawq hf)⟩
  | write rs lpc =>
    obtain ⟨tp', h, hf⟩ := telnetWrite_spec rs lpc tp
    exact ⟨.live tp', _, by rw [TelnetT.step, h]; rfl, live (.of_frame hf)⟩
  | exception => exact ⟨.live (telnetException tp), _, rfl, hs, fun h ↦ absurd rfl h⟩
  | cleanup lpc =>
    rw [TelnetT.step, telnetCleanup]
    split
    · obtain ⟨tp', lines, h, hok, -⟩ := telnetInput_spec lpc hs
      exact ⟨.live tp', _, by rw [h]; rfl, live hok⟩
    · exact ⟨.closed, _, rfl, trivial, fun _ _ ↦ trivial⟩
  | call c =>
    obtain ⟨tp', h, hf⟩ := c.run_spec tp
    exact ⟨.live tp', _, by rw [TelnetT.step, h]; rfl, live (.of_frame hf)⟩

theorem telnetAccept_spec (lpc : Lpc) :
    ∃ tp, telnetAccept lpc = some tp ∧ SpaceOk tp ∧ OverflowOk tp := by
  obtain ⟨tp, h, hf⟩ := runCalls_spec lpc.calls telnetAlloc
  have hs : SpaceOk tp := .of_state (by simp [hf.state, telnetAlloc])
    (by simp [hf.state, telnetAlloc])
  have hinit : OverflowOk telnetAlloc := ⟨(nomatch ·), (nomatch ·)⟩
  have ho : OverflowOk tp := hinit.of_frame hf
  refine ⟨_, by rw [telnetAccept, h, map_some], ?_⟩
  split
  · exact ⟨hs, ho.full, ho.synch⟩
  · exact ⟨hs, ho⟩

theorem spaceOk_of_reachable {s : Session} (h : sessions.Reachable s) : s.Ok SpaceOk := by
  refine h.invariant ?_ ?_
  · rintro _ ⟨lpc, tp, h, rfl⟩
    obtain ⟨tp', h', hs, -⟩ := telnetAccept_spec lpc
    rw [h] at h'
    cases h'
    exact hs
  · rintro (tp | -) e s' hs ⟨t, hst⟩
    · obtain ⟨s'', t', h', hs', -⟩ := TelnetT.step_spec hs e
      change tp.step e = some (s', t) at hst
      rw [hst] at h'
      cases h'
      exact hs'
    · exact absurd hst (by simp [Session.step])

/-- **No queue is ever written without room.** A session is accepted without overrunning a
queue; in every state it can reach, it handles every event without overrunning one; and what one
byte of input makes it send, it sends into `TELNET_OUTQ_REQUIRED` bytes that were free. -/
theorem queue_space (lpc : Lpc) (s : Session) (hs : sessions.Reachable s) (e : Event) :
    telnetAccept lpc ≠ none ∧ (s ≠ .closed → s.step e ≠ none) ∧
      ∀ (tp : TelnetT), s = .live tp → ∀ (c : UInt8) (lpc : Lpc),
        TELNET_OUTQ_REQUIRED ≤ tp.outq.nqAvail →
        ∃ tp' r, telnetByte lpc c tp = some (tp', r) ∧
          (r = none → tp'.outq.nqLen ≤ tp.outq.nqLen + TELNET_OUTQ_REQUIRED) := by
  refine ⟨?_, fun hc ↦ ?_, ?_⟩
  · obtain ⟨tp, h, -⟩ := telnetAccept_spec lpc
    simp [h]
  · cases s with
    | closed => exact absurd rfl hc
    | live tp =>
      obtain ⟨s', t, h, -⟩ := TelnetT.step_spec (spaceOk_of_reachable hs) e
      simp [Session.step, h]
  · rintro tp rfl c lpc hav
    obtain ⟨tp', r, h, hb⟩ := telnetByte_spec lpc c (spaceOk_of_reachable hs) hav
    exact ⟨tp', r, h, hb.outq⟩

/-- What a session is like after some events. -/
def leaves (es : List Event) (p : TelnetT → Bool) : Bool :=
  ((telnetAccept {}).bind fun tp ↦ (Session.live tp).run es).any fun (s, _) ↦ match s with
    | .live tp => p tp
    | .closed => false

theorem reachable_of_leaves {ok : Session → Event → Prop} {es : List Event}
    (hes : ∀ e ∈ es, ∀ s, ok s e) {p : TelnetT → Bool} (h : leaves es p = true) :
    ∃ tp, sessions.ReachableVia ok (.live tp) ∧ p tp = true := by
  obtain ⟨tp₀, h₀, -⟩ := telnetAccept_spec {}
  rw [leaves, h₀, bind_some, any_eq_true] at h
  obtain ⟨⟨s, t⟩, hrun, hs⟩ := h
  have hreach := reachableVia_of_run hes (.init ⟨{}, tp₀, h₀, rfl⟩) hrun
  rcases s with tp | -
  · exact ⟨tp, hreach, hs⟩
  · cases hs

/-- A session has got a request for an option that it refuses, and a line behind which the next one
begins; then an `IAC AYT`, cut off behind the `IAC`. -/
def talking : List Event :=
  [.read false (.data IAC [DO, 99, 97, LF, 98]) {}, .cleanup {}, .cleanup {},
    .read false (.data IAC []) {}, .cleanup {}, .read false (.data AYT [99]) {}]

/-- A session with bytes in its raw, its canonical and its output queue, which is about to answer an
`IAC AYT`. -/
def Asked (tp : TelnetT) : Prop :=
  tp.state = .IAC ∧ tp.rawq.toList = [AYT, 99] ∧ tp.canq.toList = [98] ∧
    tp.outq.nqEmpty = false ∧ TELNET_OUTQ_REQUIRED ≤ tp.outq.nqAvail

instance (tp : TelnetT) : Decidable (Asked tp) :=
  inferInstanceAs (Decidable (_ ∧ _))

theorem leaves_talking : leaves talking (fun tp ↦ decide (Asked tp)) = true := by
  decide +kernel

/-- The answer fits behind what is in the output queue already. -/
theorem queue_space_asked : ∃ tp, Asked tp ∧ (Session.live tp).step (.cleanup {}) ≠ none ∧
    ∃ tp' r, telnetByte {} AYT tp = some (tp', r) ∧
      (r = none → tp'.outq.nqLen ≤ tp.outq.nqLen + TELNET_OUTQ_REQUIRED) := by
  obtain ⟨tp, hreach, hasked⟩ := reachable_of_leaves (fun _ _ _ ↦ trivial) leaves_talking
  have hasked : Asked tp := of_decide_eq_true hasked
  obtain ⟨-, hstep, hbyte⟩ := queue_space {} _ hreach (.cleanup {})
  exact ⟨tp, hasked, hstep nofun, hbyte tp rfl AYT {} hasked.2.2.2.2⟩

end Lpmud.Telnet
