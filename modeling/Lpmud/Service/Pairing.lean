import Lpmud.Service.Tcpsvc

/-!
# Requests and responses

Each complete line that comes in on a service connection is handled once, in the order of the
lines, and what goes out is the responses in that order, however the bytes were split on the way in
and however much the socket took at a time (`paired`).

The canonical queue is shared: while the write callback is enabled it holds what has not been sent
of a response, and else what has come in of the next line. `History` says this, and `Control` says
which callbacks are enabled; together they are the invariant.
-/

namespace Lpmud.Tcpsvc

open List Option

/-! ### Lines -/

/-- The complete lines of a stream. -/
def lines (xs : Bytes) : List Bytes :=
  (xs.splitOn LF).dropLast

/-- Lines as a stream. -/
def written (ls : List Bytes) : Bytes :=
  ls.flatMap (· ++ [LF])

theorem lines_of_notMem {xs : Bytes} (h : LF ∉ xs) : lines xs = [] := by
  rw [lines, splitOn_eq_singleton h]
  rfl

theorem lines_written_append {ls : List Bytes} (h : ∀ l ∈ ls, LF ∉ l) (xs : Bytes) :
    lines (written ls ++ xs) = ls ++ lines xs := by
  induction ls with
  | nil => rfl
  | cons l ls ih =>
    obtain ⟨hl, hls⟩ := forall_mem_cons.1 h
    have hcons : written (l :: ls) ++ xs = l ++ LF :: (written ls ++ xs) := by simp [written]
    rw [hcons, lines, splitOn_append_cons_self, splitOn_eq_singleton hl,
      singleton_append, dropLast_cons_of_ne_nil (splitOn_ne_nil _ _),
      cons_append, ← ih hls, lines]

theorem written_concat (ls : List Bytes) (l : Bytes) :
    written (ls ++ [l]) = written ls ++ (l ++ [LF]) := by
  simp [written]

/-! ### What a line is answered -/

/-- The response to an answer of the master object. -/
def responseTo : Option Svalue → Bytes
  | some (.string s) => if TCPSVC_CANQ_SIZE < s.bytes.length then responseTooLong else s.bytes
  | _ => notSupported

/-- What has to be made of a line: the master object is asked about its bytes, as a C string, and
the response is its answer. A line that is too long is answered with an error. -/
def Exchange.Of (line : Bytes) (e : Exchange) : Prop :=
  if line.length < TCPSVC_CANQ_SIZE then
    e.request = some (line.takeWhile (· ≠ 0)) ∧ e.response = responseTo e.answer
  else e.request = none ∧ e.response = requestTooLong

/-- The line was not answered with an error. -/
def Exchange.Served (e : Exchange) : Prop :=
  e.request.isSome ∧ ∃ s, e.answer = some (.string s) ∧ s.bytes.length ≤ TCPSVC_CANQ_SIZE

section Handlers

variable {tsp : TcpsvcT}

theorem length_message_le :
    ∀ text ∈ [requestTooLong, notSupported, responseTooLong, tooMany],
      text.length ≤ TCPSVC_CANQ_SIZE := by
  decide

theorem tcpsvcError_eq {text : Bytes} (htext : text.length ≤ TCPSVC_CANQ_SIZE)
    (hclose : tsp.flags.close = false) :
    ∃ q : Nqueue TCPSVC_CANQ_SIZE, q.toList = text ∧ tcpsvcError text tsp =
      some { tsp with canq := q, flags.close := true, nd.c := true } := by
  obtain ⟨q, hq, hlist, -⟩ := @Nqueue.nqPuts_eq_some _ tsp.canq.nqInit text htext
  refine ⟨q, by rw [hlist, Nqueue.toList_nqInit, nil_append], ?_⟩
  rw [tcpsvcError, hq, map_some, tcpsvcDisconnect, if_neg (by simp [hclose])]

theorem tcpsvcRespond_eq (answer : Option Svalue) (hclose : tsp.flags.close = false)
    (hc : tsp.nd.c = false) :
    ∃ (q : Nqueue TCPSVC_CANQ_SIZE) (bad : Bool), q.toList = responseTo answer ∧
      (bad = false ↔ ∃ s, answer = some (.string s) ∧ s.bytes.length ≤ TCPSVC_CANQ_SIZE) ∧
      tcpsvcRespond answer tsp = some { tsp with canq := q, flags.close := bad, nd.c := bad } := by
  have herror : ∀ text ∈ [requestTooLong, notSupported, responseTooLong, tooMany],
      ∃ q : Nqueue TCPSVC_CANQ_SIZE, q.toList = text ∧ tcpsvcError text tsp =
        some { tsp with canq := q, flags.close := true, nd.c := true } :=
    fun text htext ↦ tcpsvcError_eq (length_message_le text htext) hclose
  by_cases hs : ∃ s, answer = some (.string s)
  · obtain ⟨s, rfl⟩ := hs
    rw [tcpsvcRespond, responseTo]
    split
    · next hlong =>
      obtain ⟨q, hq, h⟩ := herror responseTooLong (by simp)
      refine ⟨q, true, hq, ?_, h⟩
      simpa using hlong
    · next hshort =>
      have hroom : s.bytes.length ≤ tsp.canq.nqInit.nqAvail := Nat.le_of_not_lt hshort
      obtain ⟨q, h, hq, -⟩ := Nqueue.nqPuts_eq_some hroom
      refine ⟨q, false, by rw [hq, Nqueue.toList_nqInit, nil_append], ?_, ?_⟩
      · simpa using hshort
      · rw [h, map_some]
        show some { tsp with
          canq := q, flags.close := tsp.flags.close, nd.c := tsp.nd.c } = _
        rw [hclose, hc]
  · obtain ⟨q, hq, h⟩ := herror notSupported (by simp)
    refine ⟨q, true, ?_, ?_, ?_⟩
    · rw [hq, responseTo]
      exact fun s hs' ↦ hs ⟨s, hs'⟩
    · exact ⟨by rintro ⟨⟩, fun h ↦ absurd (h.imp fun _ h ↦ h.1) hs⟩
    · rw [tcpsvcRespond, h]
      exact fun s hs' ↦ hs ⟨s, hs'⟩

theorem exists_takeWhile_append_nul (line : Bytes) :
    ∃ r, line ++ [0] = line.takeWhile (· ≠ 0) ++ 0 :: r := by
  induction line with
  | nil => exact ⟨[], rfl⟩
  | cons b line ih =>
    obtain rfl | hb := Decidable.eq_or_ne b 0
    · exact ⟨line ++ [0], rfl⟩
    · obtain ⟨r, hr⟩ := ih
      refine ⟨r, ?_⟩
      rw [takeWhile_cons_of_pos (by simpa using hb), cons_append, hr, cons_append]

/-- **Serving a line** that the canonical queue has taken as far as it fits. -/
theorem tcpsvcServe_eq (answer : Option Svalue) {line : Bytes}
    (hclose : tsp.flags.close = false) (hrptr : tsp.canq.nqRptr = 0)
    (hline : tsp.canq.toList = line.take TCPSVC_CANQ_SIZE) :
    ∃ (q : Nqueue TCPSVC_CANQ_SIZE) (bad : Bool) (e : Exchange),
      e.Of line ∧ q.toList = e.response ∧ (bad = false ↔ e.Served) ∧
      tcpsvcServe answer tsp = some
        ({ tsp with canq := q, flags.close := bad, nd.w := true, nd.c := bad }, e) := by
  rw [tcpsvcServe]
  split
  · next hfull =>
    rw [Nqueue.nqFull_iff, hline, length_take] at hfull
    obtain ⟨q, hq, h⟩ := @tcpsvcError_eq { tsp with nd.c := false, nd.w := true } _
      (length_message_le requestTooLong (by simp)) hclose
    refine ⟨q, true, ⟨none, none, q.toList⟩, ?_, rfl, ⟨nofun, fun hs ↦ absurd hs.1 nofun⟩, ?_⟩
    · rw [Exchange.Of, if_neg (by omega)]
      exact ⟨rfl, hq⟩
    · rw [h]
      rfl
  · next hfull =>
    rw [Nqueue.nqFull_iff, hline, length_take] at hfull
    have hshort : line.length < TCPSVC_CANQ_SIZE := by omega
    rw [take_of_length_le hshort.le] at hline
    have hlen : tsp.canq.nqLen < TCPSVC_CANQ_SIZE := by rwa [← Nqueue.length_toList, hline]
    obtain ⟨q₀, hputc, hq₀, hr₀⟩ := Nqueue.nqPutc_eq_some (c := 0) hlen
    obtain ⟨q, bad, hq, hbad, h⟩ := @tcpsvcRespond_eq
      { tsp with canq := q₀, nd.c := false, nd.w := true } answer hclose rfl
    have hstring : q₀.nqString = line.takeWhile (· ≠ 0) := by
      obtain ⟨r, hr⟩ := exists_takeWhile_append_nul line
      refine Nqueue.nqString_eq (hr₀.trans hrptr) (by rw [hq₀, hline, hr]) fun hmem ↦ ?_
      simpa using mem_takeWhile_imp hmem
    refine ⟨q, bad, ⟨some q₀.nqString, answer, q.toList⟩, ?_, rfl, ?_, ?_⟩
    · rw [Exchange.Of, if_pos hshort]
      exact ⟨congrArg some hstring, hq⟩
    · rw [hbad]
      exact (and_iff_right rfl).symm
    · dsimp only at h ⊢
      rw [hputc, bind_some, h]
      rfl

theorem take_take_append (xs ys : Bytes) (n : ℕ) :
    (xs.take n ++ ys).take n = (xs ++ ys).take n := by
  simp only [take_append, take_take, length_take, min_self]
  congr 2
  omega

/-- **Taking bytes over**, up to a newline or to the end of the raw queue. -/
theorem tcpsvcTake_eq (n : ℕ) : ∀ tsp : TcpsvcT, tsp.rawq.toList.length < n →
    ∃ (q : Nqueue TCPSVC_CANQ_SIZE) (r : Nqueue TCPSVC_RAWQ_SIZE),
      q.nqRptr = tsp.canq.nqRptr ∧
      ((∃ l, tsp.rawq.toList = l ++ LF :: r.toList ∧ LF ∉ l ∧
          q.toList = (tsp.canq.toList ++ l).take TCPSVC_CANQ_SIZE ∧
          tcpsvcTake n tsp = some ({ tsp with canq := q, rawq := r }, true)) ∨
        (LF ∉ tsp.rawq.toList ∧ r.toList = [] ∧
          q.toList = (tsp.canq.toList ++ tsp.rawq.toList).take TCPSVC_CANQ_SIZE ∧
          tcpsvcTake n tsp = some (tcpsvcIdle { tsp with canq := q, rawq := r }, false))) := by
  induction n with
  | zero => exact fun _ h ↦ absurd h (Nat.not_lt_zero _)
  | succ n ih =>
    intro tsp hn
    have hcan : tsp.canq.toList.length ≤ TCPSVC_CANQ_SIZE := by
      rw [Nqueue.length_toList]
      exact tsp.canq.len_le
    cases hraw : tsp.rawq.toList with
    | nil =>
      refine ⟨tsp.canq, tsp.rawq, rfl, .inr ⟨not_mem_nil, hraw, ?_, ?_⟩⟩
      · rw [append_nil, take_of_length_le hcan]
      · rw [tcpsvcTake, if_pos ((Nqueue.nqEmpty_iff _).2 hraw)]
    | cons c rest =>
      obtain ⟨r, hgetc, hr⟩ := Nqueue.nqGetc_eq_some hraw
      have hrest : rest.length < n := by
        rw [hraw, length_cons] at hn
        omega
      have hne : ¬tsp.rawq.nqEmpty = true := by simp [hraw]
      rw [tcpsvcTake, if_neg hne, hgetc, bind_some]
      dsimp only
      split
      · next hc =>
        subst hc hr
        refine ⟨tsp.canq, r, rfl, .inl ⟨[], rfl, not_mem_nil, ?_, rfl⟩⟩
        rw [append_nil, take_of_length_le hcan]
      · next hc =>
        -- the byte goes behind the line, unless there is no room for it
        obtain ⟨q₀, hr₀, hq₀, hstep⟩ : ∃ q₀ : Nqueue TCPSVC_CANQ_SIZE,
            q₀.nqRptr = tsp.canq.nqRptr ∧
            q₀.toList = (tsp.canq.toList ++ [c]).take TCPSVC_CANQ_SIZE ∧
            (if tsp.canq.nqFull then tcpsvcTake n { tsp with rawq := r }
              else (tsp.canq.nqPutc c).bind fun q ↦
                tcpsvcTake n { tsp with rawq := r, canq := q }) =
              tcpsvcTake n { tsp with canq := q₀, rawq := r } := by
          split
          · next hfull =>
            refine ⟨tsp.canq, rfl, ?_, rfl⟩
            rw [Nqueue.nqFull_iff] at hfull
            rw [take_append_of_le_length hfull.ge, take_of_length_le hcan]
          · next hfull =>
            rw [Nqueue.nqFull_iff, Nqueue.length_toList] at hfull
            have hlt : tsp.canq.nqLen < TCPSVC_CANQ_SIZE := lt_of_le_of_ne tsp.canq.len_le hfull
            obtain ⟨q₀, hputc, hq₀, hr₀⟩ := Nqueue.nqPutc_eq_some (c := c) hlt
            refine ⟨q₀, hr₀, ?_, by rw [hputc, bind_some]⟩
            rw [hq₀, take_of_length_le]
            rw [length_append, Nqueue.length_toList]
            exact hlt
        rw [hstep]
        obtain ⟨q, r', hrptr, hih⟩ := ih { tsp with canq := q₀, rawq := r } (hr ▸ hrest)
        have happ : ∀ xs, (q₀.toList ++ xs).take TCPSVC_CANQ_SIZE =
            (tsp.canq.toList ++ c :: xs).take TCPSVC_CANQ_SIZE := by
          intro xs
          rw [hq₀, take_take_append, append_assoc, singleton_append]
        refine ⟨q, r', hrptr.trans hr₀, ?_⟩
        obtain ⟨l, hl, hnotMem, hq, h⟩ | ⟨hnotMem, hr', hq, h⟩ := hih
        · refine .inl ⟨c :: l, ?_, ?_, hq.trans (happ l), h⟩
          · rw [cons_append, ← hl, ← hr]
          · exact not_mem_cons_of_ne_of_not_mem (Ne.symm hc) hnotMem
        · dsimp only at hnotMem hq
          rw [hr] at hnotMem hq
          exact .inr ⟨not_mem_cons_of_ne_of_not_mem (Ne.symm hc) hnotMem, hr',
            hq.trans (happ rest), h⟩

/-! ### Which callbacks are enabled -/

/-- The callbacks that are enabled, and the flags: while a response is sent there is no clean-up,
and when neither is to be done the service reads. -/
structure Control (tsp : TcpsvcT) : Prop where
  closing : tsp.flags.close = true → tsp.nd.c = true
  exclusive : tsp.flags.close = false → tsp.nd.w = true → tsp.nd.c = false
  enabc : tsp.flags.close = false →
    (tsp.flags.enabc = true ↔ tsp.nd.w = false ∧ tsp.nd.c = false)
  enabr : tsp.flags.close = false → (tsp.flags.enabr = true ↔ tsp.nd.r = false)
  waiting : tsp.nd.w = false → tsp.nd.c = false → tsp.nd.r = true ∧ tsp.rawq.toList = []

theorem Control.disconnect (h : Control tsp) : Control (tcpsvcDisconnect tsp) := by
  rw [tcpsvcDisconnect]
  split
  · exact h
  · exact ⟨fun _ ↦ rfl, nofun, nofun, nofun, nofun⟩

theorem Control.readEnd (h : Control tsp) (hbusy : tsp.nd.w = false → tsp.nd.c = true) :
    Control (tcpsvcReadEnd tsp) where
  closing := h.closing
  exclusive := h.exclusive
  enabc := h.enabc
  enabr := fun _ ↦ iff_of_true rfl rfl
  waiting := fun hw hc ↦ absurd (hbusy hw) (ne_true_of_eq_false hc)

theorem Control.readGo (h : Control tsp) (q : Nqueue TCPSVC_RAWQ_SIZE) :
    Control (tcpsvcReadGo { tsp with rawq := q }) := by
  obtain ⟨tsp', htsp', hcontrol, hbusy⟩ : ∃ tsp' : TcpsvcT,
      (if tsp.flags.enabc then
        { tsp with rawq := q, flags.enabc := false, nd.c := true }
        else { tsp with rawq := q }) = tsp' ∧
      Control tsp' ∧ (tsp'.nd.w = false → tsp'.nd.c = true) := by
    refine ⟨_, rfl, ?_⟩
    split
    · next henabc =>
      refine ⟨⟨fun _ ↦ rfl, fun hclose hw ↦ ?_, fun _ ↦ ⟨nofun, nofun⟩, h.enabr, nofun⟩,
        fun _ ↦ rfl⟩
      -- where the clean-up waits for input, nothing is being sent
      exact absurd hw (ne_true_of_eq_false ((h.enabc hclose).1 henabc).1)
    · next henabc =>
      have hbusy : tsp.nd.w = false → tsp.nd.c = true := by
        intro hw
        cases hclose : tsp.flags.close with
        | true => exact h.closing hclose
        | false =>
          refine eq_true_of_ne_false fun hc ↦ henabc ?_
          exact (h.enabc hclose).2 ⟨hw, hc⟩
      exact ⟨⟨h.closing, h.exclusive, h.enabc, h.enabr,
        fun hw hc ↦ absurd (hbusy hw) (ne_true_of_eq_false hc)⟩, hbusy⟩
  rw [tcpsvcReadGo, htsp']
  split
  · exact hcontrol.readEnd hbusy
  · exact hcontrol

theorem Control.writeGo (h : Control tsp) (q : Nqueue TCPSVC_CANQ_SIZE) (hw : tsp.nd.w = true) :
    Control (tcpsvcWriteGo { tsp with canq := q }) := by
  rw [tcpsvcWriteGo]
  split
  · refine ⟨fun _ ↦ rfl, nofun, fun hclose ↦ ⟨fun henabc ↦ ?_, nofun⟩, h.enabr, nofun⟩
    exact absurd hw (ne_true_of_eq_false ((h.enabc hclose).1 henabc).1)
  · exact ⟨h.closing, h.exclusive, h.enabc, h.enabr, h.waiting⟩

theorem Control.idle (h : Control tsp) (hclose : tsp.flags.close = false)
    (hc : tsp.nd.c = true) {q : Nqueue TCPSVC_CANQ_SIZE} {r : Nqueue TCPSVC_RAWQ_SIZE} :
    Control (tcpsvcIdle { tsp with canq := q, rawq := r }) := by
  have hw : tsp.nd.w = false :=
    eq_false_of_ne_true fun hw ↦ absurd hc (ne_true_of_eq_false (h.exclusive hclose hw))
  rw [tcpsvcIdle]
  split
  · exact ⟨fun h ↦ absurd h (ne_true_of_eq_false hclose), fun _ _ ↦ rfl,
      fun _ ↦ iff_of_true rfl ⟨hw, rfl⟩, fun _ ↦ iff_of_false nofun nofun, fun _ _ ↦ ⟨rfl, rfl⟩⟩
  · next henabr =>
    have hr : tsp.nd.r = true := eq_true_of_ne_false fun hr ↦ henabr ((h.enabr hclose).2 hr)
    exact ⟨fun h ↦ absurd h (ne_true_of_eq_false hclose), fun _ _ ↦ rfl,
      fun _ ↦ iff_of_true rfl ⟨hw, rfl⟩, h.enabr, fun _ _ ↦ ⟨hr, rfl⟩⟩

theorem Control.serve (h : Control tsp) (hclose : tsp.flags.close = false)
    (hc : tsp.nd.c = true) (q : Nqueue TCPSVC_CANQ_SIZE) (r : Nqueue TCPSVC_RAWQ_SIZE)
    (bad : Bool) : Control { tsp with
      canq := q, rawq := r, flags.close := bad, nd.w := true, nd.c := bad } where
  closing := id
  exclusive := fun hbad _ ↦ hbad
  enabc := fun _ ↦ by
    refine iff_of_false (fun henabc ↦ ?_) nofun
    exact absurd hc (ne_true_of_eq_false ((h.enabc hclose).1 henabc).2)
  enabr := fun _ ↦ h.enabr hclose
  waiting := nofun

/-! ### The handlers, with what they do to the queues -/

/-- What has not been sent of a response. -/
def TcpsvcT.pending (tsp : TcpsvcT) : Bytes :=
  if tsp.nd.w then tsp.canq.toList else []

theorem close_tcpsvcDisconnect : (tcpsvcDisconnect tsp).flags.close = true := by
  rw [tcpsvcDisconnect]
  split
  · assumption
  · rfl

theorem tcpsvcRead_spec (r : Telnet.RecvResult) (h : Control tsp) : ∃ tsp' cs,
    tcpsvcRead r tsp = some (tsp', cs) ∧ Control tsp' ∧
      tsp'.rawq.toList = tsp.rawq.toList ++ cs ∧ tsp'.canq = tsp.canq ∧
      tsp'.nd.w = tsp.nd.w ∧ (tsp.flags.close = true → tsp'.flags.close = true) := by
  have hend : Control (tcpsvcDisconnect tsp) ∧
      (tcpsvcDisconnect tsp).rawq.toList = tsp.rawq.toList ++ [] ∧
      (tcpsvcDisconnect tsp).canq = tsp.canq ∧ (tcpsvcDisconnect tsp).nd.w = tsp.nd.w ∧
      (tsp.flags.close = true → (tcpsvcDisconnect tsp).flags.close = true) := by
    refine ⟨h.disconnect, ?_, ?_, ?_, fun _ ↦ close_tcpsvcDisconnect⟩
    all_goals rw [tcpsvcDisconnect]; split <;> simp
  have hgo (q : Nqueue TCPSVC_RAWQ_SIZE) (cs : Bytes) (hq : q.toList = tsp.rawq.toList ++ cs) :
      Control (tcpsvcReadGo { tsp with rawq := q }) ∧
      (tcpsvcReadGo { tsp with rawq := q }).rawq.toList = tsp.rawq.toList ++ cs ∧
      (tcpsvcReadGo { tsp with rawq := q }).canq = tsp.canq ∧
      (tcpsvcReadGo { tsp with rawq := q }).nd.w = tsp.nd.w ∧
      (tsp.flags.close = true → (tcpsvcReadGo { tsp with rawq := q }).flags.close = true) := by
    refine ⟨h.readGo q, ?_, ?_, ?_, fun hclose ↦ ?_⟩
    all_goals
      rw [tcpsvcReadGo, tcpsvcReadEnd]
      dsimp only
      split <;> split <;> first | exact hq | rfl | exact hclose
  rw [tcpsvcRead.eq_def]
  split
  · next hfull =>
    rw [Nqueue.nqFull_iff] at hfull
    refine ⟨_, _, rfl, h.readEnd fun hw ↦ ?_, (append_nil _).symm, rfl, rfl, id⟩
    -- a full queue is not empty
    refine eq_true_of_ne_false fun hc ↦ ?_
    rw [(h.waiting hw hc).2] at hfull
    cases hfull
  · next hfull =>
    have hlen : tsp.rawq.nqLen < TCPSVC_RAWQ_SIZE := by
      rw [Nqueue.nqFull_iff, Nqueue.length_toList] at hfull
      exact lt_of_le_of_ne tsp.rawq.len_le hfull
    cases r with
    | data b bs =>
      obtain ⟨q, cs, hrecv, hq, -⟩ := Nqueue.nqRecv_eq_some (b :: bs) hlen
      dsimp only
      exact ⟨_, cs, by rw [hrecv, map_some], hgo q cs hq⟩
    | eof => exact ⟨_, _, rfl, hend⟩
    | failed fatal =>
      cases fatal with
      | true => exact ⟨_, _, rfl, hend⟩
      | false => exact ⟨_, _, rfl, hgo tsp.rawq [] (append_nil _).symm⟩

theorem tcpsvcWrite_spec (rs : List SendResult) (h : Control tsp) (hw : tsp.nd.w = true) :
    ∃ tsp' cs, tcpsvcWrite rs tsp = (tsp', cs) ∧ Control tsp' ∧ tsp'.rawq = tsp.rawq ∧
      cs ++ tsp'.pending = tsp.canq.toList ∧
      (tsp'.nd.w = false → tsp'.canq.toList = [] ∧ tsp'.canq.nqRptr = 0) ∧
      (tsp.flags.close = true → tsp'.flags.close = true) := by
  have hgo (q : Nqueue TCPSVC_CANQ_SIZE) (cs : Bytes)
      (hq : cs ++ q.toList = tsp.canq.toList) :
      Control (tcpsvcWriteGo { tsp with canq := q }) ∧
      (tcpsvcWriteGo { tsp with canq := q }).rawq = tsp.rawq ∧
      cs ++ (tcpsvcWriteGo { tsp with canq := q }).pending = tsp.canq.toList ∧
      ((tcpsvcWriteGo { tsp with canq := q }).nd.w = false →
        (tcpsvcWriteGo { tsp with canq := q }).canq.toList = [] ∧
        (tcpsvcWriteGo { tsp with canq := q }).canq.nqRptr = 0) ∧
      (tsp.flags.close = true →
        (tcpsvcWriteGo { tsp with canq := q }).flags.close = true) := by
    refine ⟨h.writeGo q hw, ?_⟩
    rw [tcpsvcWriteGo, TcpsvcT.pending]
    split
    · next hempty =>
      rw [Nqueue.nqEmpty_iff] at hempty
      refine ⟨rfl, ?_, fun _ ↦ ⟨rfl, rfl⟩, id⟩
      rw [← hq, hempty]
      rfl
    · refine ⟨rfl, ?_, fun hw' ↦ absurd hw (ne_true_of_eq_false hw'), id⟩
      exact hq
  rw [tcpsvcWrite]
  split
  · exact ⟨_, _, rfl, hgo tsp.canq [] rfl⟩
  · have hsent := Nqueue.nqSent_append_toList rs tsp.canq
    generalize tsp.canq.nqSend rs = p at hsent
    obtain ⟨q, fatal⟩ := p
    refine ⟨_, _, rfl, ?_⟩
    dsimp only at hsent ⊢
    split
    · have hcontrol : Control { tsp with canq := q } :=
        ⟨h.closing, h.exclusive, h.enabc, h.enabr, h.waiting⟩
      refine ⟨hcontrol.disconnect, ?_, ?_, ?_, fun _ ↦ close_tcpsvcDisconnect⟩
      · rw [tcpsvcDisconnect]
        split <;> rfl
      · rw [tcpsvcDisconnect, TcpsvcT.pending]
        split <;> exact hsent
      · rw [tcpsvcDisconnect]
        split <;> exact fun hw' ↦ absurd hw (ne_true_of_eq_false hw')
    · exact hgo q _ hsent

end Handlers

/-! ### The history of a connection -/

/-- All that a connection is told: what it was told when it was accepted, and the responses. -/
def Conn.owed (c : Conn) : Bytes :=
  c.greeting ++ c.exchanges.flatMap Exchange.response

/-- A connection that is being closed has a reason for it, and an error is the last response. -/
structure Standing (c : Conn) (close : Bool) : Prop where
  last : ∀ e ∈ c.exchanges.dropLast, e.Served
  served : close = false → ∀ e ∈ c.exchanges, e.Served
  reason : close = true → c.lost = true ∨ c.greeting ≠ [] ∨ ∃ e ∈ c.exchanges, ¬e.Served

/-- The lines `done` have been handled, and what came in behind them is the beginning of the next
one, `part`, and the bytes of the raw queue. -/
structure History (c : Conn) (tsp : TcpsvcT) (done : List Bytes) (part : Bytes) :
    Prop where
  received : c.received = written done ++ (part ++ tsp.rawq.toList)
  done_line : ∀ l ∈ done, LF ∉ l
  part_line : LF ∉ part
  exchanged : List.Forall₂ Exchange.Of done c.exchanges
  sent : c.sent ++ tsp.pending = c.owed
  response : tsp.nd.w = true → part = []
  request : tsp.nd.w = false →
    tsp.canq.toList = part.take TCPSVC_CANQ_SIZE ∧ tsp.canq.nqRptr = 0

/-- The invariant. -/
def Conn.Inv (c : Conn) : Prop :=
  match c.service with
  | .live tsp => Control tsp ∧ Standing c tsp.flags.close ∧ ∃ done part, History c tsp done part
  | .closed => Standing c true ∧ ∃ done rest, c.received = written done ++ rest ∧
      (∀ l ∈ done, LF ∉ l) ∧ List.Forall₂ Exchange.Of done c.exchanges ∧ c.sent <+: c.owed

section Steps

variable {c c' : Conn} {tsp : TcpsvcT} {done : List Bytes} {part : Bytes}

theorem Standing.mono {close close' : Bool} (h : Standing c close)
    (hclose : close = true → close' = true) {service : Service} {received sent : Bytes} :
    Standing { c with service, received, sent, lost := c.lost || (close' && !close) } close' where
  last := h.last
  served := fun hopen ↦ h.served (eq_false_of_ne_true fun h ↦ by simp [hclose h] at hopen)
  reason := by
    intro hc
    cases hold : close with
    | true => exact (h.reason hold).imp_left fun hlost ↦ by simp [hlost]
    | false =>
      refine .inl ?_
      simp [hc]

/-- **Reading** appends to what came in. -/
theorem History.read (h : History c tsp done part) {tsp' : TcpsvcT} {cs : Bytes}
    (hraw : tsp'.rawq.toList = tsp.rawq.toList ++ cs) (hcanq : tsp'.canq = tsp.canq)
    (hw : tsp'.nd.w = tsp.nd.w) {service : Service} {lost : Bool} :
    History { c with service, received := c.received ++ cs, lost } tsp' done part where
  received := by
    show c.received ++ cs = _
    rw [h.received, hraw]
    simp only [append_assoc]
  done_line := h.done_line
  part_line := h.part_line
  exchanged := h.exchanged
  sent := by
    have hpending : tsp'.pending = tsp.pending := by
      rw [TcpsvcT.pending, TcpsvcT.pending, hw, hcanq]
    rw [hpending]
    exact h.sent
  response := fun h' ↦ h.response (hw ▸ h')
  request := fun h' ↦ hcanq ▸ h.request (hw ▸ h')

/-- **Writing** sends the front of the response. -/
theorem History.write (h : History c tsp done part) (hw : tsp.nd.w = true) {tsp' : TcpsvcT}
    {cs : Bytes} (hraw : tsp'.rawq = tsp.rawq)
    (hcanq : cs ++ tsp'.pending = tsp.canq.toList)
    (hend : tsp'.nd.w = false → tsp'.canq.toList = [] ∧ tsp'.canq.nqRptr = 0)
    {service : Service} {lost : Bool} :
    History { c with service, sent := c.sent ++ cs, lost } tsp' done part where
  received := hraw ▸ h.received
  done_line := h.done_line
  part_line := h.part_line
  exchanged := h.exchanged
  sent := by
    show c.sent ++ cs ++ tsp'.pending = c.owed
    rw [append_assoc, hcanq, ← h.sent, TcpsvcT.pending, if_pos hw]
  response := fun _ ↦ h.response hw
  request := fun hw' ↦ by
    rw [h.response hw, take_nil]
    exact hend hw'

/-- **The clean-up** hands a line over, or takes in what there is of it. -/
theorem inv_cleanup (answer : Option Svalue) (hlive : c.service = .live tsp) (h : c.Inv)
    (hc : tsp.nd.c = true) :
    ∃ service es, tcpsvcCleanup answer tsp = some (service, es) ∧
      { c with service, exchanges := c.exchanges ++ es }.Inv := by
  rw [Conn.Inv, hlive] at h
  obtain ⟨hcontrol, hstanding, done, part, h⟩ := h
  rw [tcpsvcCleanup]
  cases hclose : tsp.flags.close with
  | true =>
    rw [hclose] at hstanding
    refine ⟨_, _, if_pos rfl, ?_⟩
    rw [Conn.Inv]
    dsimp only
    simp only [append_nil]
    refine ⟨⟨hstanding.last, nofun, hstanding.reason⟩, done, _, h.received, h.done_line,
      h.exchanged, ?_⟩
    show c.sent <+: c.owed
    exact ⟨_, h.sent⟩
  | false =>
    have hw : tsp.nd.w = false := eq_false_of_ne_true fun hw ↦
      absurd hc (ne_true_of_eq_false (hcontrol.exclusive hclose hw))
    obtain ⟨hcanq, hrptr⟩ := h.request hw
    rw [if_neg Bool.false_ne_true]
    obtain ⟨q, r, hqr, htake⟩ := tcpsvcTake_eq (tsp.rawq.nqLen + 1) tsp
      (by rw [Nqueue.length_toList]; exact Nat.lt_succ_self _)
    simp only [hcanq, take_take_append] at htake
    obtain ⟨l, hl, hline, hq, htake⟩ | ⟨hline, hr, hq, htake⟩ := htake
    · obtain ⟨q', bad, e, hof, hq', hbad, hserve⟩ := @tcpsvcServe_eq
        { tsp with canq := q, rawq := r } answer (part ++ l) hclose (hqr.trans hrptr) hq
      rw [htake, bind_some]
      dsimp only
      rw [hserve, map_some]
      refine ⟨_, _, rfl, ?_⟩
      rw [Conn.Inv]
      have hserved := hstanding.served hclose
      refine ⟨hcontrol.serve hclose hc q' r bad, ⟨?_, fun hgood ↦ ?_, fun hb ↦ ?_⟩,
        done ++ [part ++ l], [], ?_⟩
      · show ∀ e' ∈ (c.exchanges ++ [e]).dropLast, e'.Served
        rwa [dropLast_concat]
      · exact forall_mem_append.2 ⟨hserved, forall_mem_singleton.2 (hbad.1 hgood)⟩
      · refine .inr (.inr ⟨e, mem_append_right _ (mem_singleton.2 rfl), fun hs ↦ ?_⟩)
        exact absurd hb (ne_true_of_eq_false (hbad.2 hs))
      · have hnew : LF ∉ part ++ l := fun hmem ↦
          (mem_append.1 hmem).elim h.part_line hline
        refine ⟨?_, ?_, not_mem_nil, ?_, ?_, fun _ ↦ rfl, nofun⟩
        · show c.received = _
          rw [h.received, hl, written_concat]
          simp
        · exact forall_mem_append.2 ⟨h.done_line, forall_mem_singleton.2 hnew⟩
        · exact rel_append h.exchanged (.cons hof .nil)
        · have hsent := h.sent
          rw [TcpsvcT.pending, hw, if_neg Bool.false_ne_true, append_nil] at hsent
          show c.sent ++ q'.toList = _
          rw [hsent, hq', Conn.owed, Conn.owed]
          simp
    · obtain ⟨tsp', htsp', hcontrol', hcanq', hraw', hw', hclose'⟩ : ∃ tsp',
          tcpsvcIdle { tsp with canq := q, rawq := r } = tsp' ∧ Control tsp' ∧ tsp'.canq = q ∧
          tsp'.rawq.toList = [] ∧ tsp'.nd.w = false ∧ tsp'.flags.close = false := by
        refine ⟨_, rfl, hcontrol.idle hclose hc, ?_⟩
        rw [tcpsvcIdle]
        dsimp only
        split <;> exact ⟨rfl, rfl, hw, hclose⟩
      refine ⟨_, _, by rw [htake, bind_some, htsp'], ?_⟩
      rw [Conn.Inv, append_nil]
      refine ⟨hcontrol', ?_, done, part ++ tsp.rawq.toList, ?_⟩
      · rw [hclose', ← hclose]
        exact ⟨hstanding.last, hstanding.served, hstanding.reason⟩
      · refine ⟨?_, h.done_line, ?_, h.exchanged, ?_, fun hw'' ↦ ?_, fun _ ↦ ?_⟩
        · rw [hraw', append_nil]
          exact h.received
        · exact fun hmem ↦ (mem_append.1 hmem).elim h.part_line hline
        · have hsent := h.sent
          rw [TcpsvcT.pending, hw] at hsent
          rw [TcpsvcT.pending, hw']
          exact hsent
        · exact absurd hw'' (ne_true_of_eq_false hw')
        · rw [hcanq']
          exact ⟨hq, hqr.trans hrptr⟩

/-- **The step lemma**: a callback that is enabled has all the room that it needs, and keeps the
invariant. -/
theorem inv_step (h : c.Inv) {e : Event} (he : c.Allows e) : ∃ c', c.step e = some c' ∧ c'.Inv := by
  rw [Conn.Allows] at he
  rw [Conn.step]
  cases hlive : c.service with
  | closed =>
    rw [hlive] at he
    exact he.elim
  | live tsp =>
    rw [hlive] at he
    dsimp only at he ⊢
    cases e with
    | cleanup answer =>
      obtain ⟨service, es, hcleanup, hinv⟩ := inv_cleanup answer hlive h he
      exact ⟨_, by rw [Conn.stepLive, hcleanup, map_some], hinv⟩
    | read r =>
      rw [Conn.Inv, hlive] at h
      obtain ⟨hcontrol, hstanding, done, part, h⟩ := h
      obtain ⟨tsp', cs, hread, hcontrol', hraw, hcanq, hw, hclose⟩ := tcpsvcRead_spec r hcontrol
      refine ⟨_, by rw [Conn.stepLive, hread, map_some], ?_⟩
      exact ⟨hcontrol', hstanding.mono hclose, done, part, h.read hraw hcanq hw⟩
    | write rs =>
      rw [Conn.Inv, hlive] at h
      obtain ⟨hcontrol, hstanding, done, part, h⟩ := h
      obtain ⟨tsp', cs, hwrite, hcontrol', hraw, hcanq, hend, hclose⟩ :=
        tcpsvcWrite_spec rs hcontrol he
      refine ⟨_, by rw [Conn.stepLive, hwrite], ?_⟩
      exact ⟨hcontrol', hstanding.mono hclose, done, part, h.write he hraw hcanq hend⟩
    | shutdown =>
      rw [Conn.Inv, hlive] at h
      obtain ⟨-, hstanding, done, part, h⟩ := h
      exact ⟨_, rfl, ⟨hstanding.last, nofun, fun _ ↦ .inl rfl⟩, done, _, h.received, h.done_line,
        h.exchanged, _, h.sent⟩

end Steps

/-! ### Any events, in any order -/

theorem inv_init {c : Conn} (h : connections.Init c) : c.Inv := by
  obtain ⟨count, tsp, greeting, haccept, rfl⟩ := h
  rw [tcpsvcAccept] at haccept
  split at haccept
  · have hroom : tooMany.length ≤ tcpsvcAlloc.canq.nqAvail := length_message_le tooMany (by simp)
    obtain ⟨q, hputs, hq, -⟩ := Nqueue.nqPuts_eq_some hroom
    rw [hputs, map_some] at haccept
    cases haccept
    refine ⟨⟨fun _ ↦ rfl, nofun, nofun, nofun, nofun⟩, ⟨nofun, nofun, fun _ ↦ .inr (.inl ?_)⟩,
      [], [], rfl, nofun, not_mem_nil, .nil, ?_, fun _ ↦ rfl, nofun⟩
    · exact append_ne_nil_of_right_ne_nil _ (cons_ne_nil _ _)
    · exact hq.trans (append_nil _).symm
  · cases haccept
    exact ⟨⟨nofun, nofun, fun _ ↦ iff_of_true rfl ⟨rfl, rfl⟩, fun _ ↦ ⟨nofun, nofun⟩,
      fun _ _ ↦ ⟨rfl, rfl⟩⟩, ⟨nofun, nofun, nofun⟩, [], [], rfl, nofun, not_mem_nil, .nil, rfl,
      nofun, fun _ ↦ ⟨rfl, rfl⟩⟩

theorem inv_of_reachable {c : Conn} (h : connections.Reachable c) : c.Inv := by
  refine h.invariant (fun _ ↦ inv_init) fun c e c' hinv hstep ↦ ?_
  obtain ⟨c₁, hc₁, hinv'⟩ := inv_step hinv hstep.1
  rw [hstep.2] at hc₁
  exact some.inj hc₁ ▸ hinv'

/-- The lines that have been handled: as many as there were exchanges, from the first on. -/
def Conn.handled (c : Conn) : List Bytes :=
  (lines c.received).take c.exchanges.length

/-- What came in behind them. -/
def Conn.unhandled (c : Conn) : Bytes :=
  c.received.drop (written c.handled).length

/-- The connection is closed, or about to be. -/
def Conn.Closing (c : Conn) : Prop :=
  match c.service with
  | .live tsp => tsp.flags.close = true
  | .closed => True

/-- The service works as it should. -/
structure Conn.Paired (c : Conn) : Prop where
  /-- The lines are handled in order, each once and by its own bytes. -/
  exchanged : List.Forall₂ Exchange.Of c.handled c.exchanges
  /-- Nothing is handled after an error. -/
  last : ∀ e ∈ c.exchanges.dropLast, e.Served
  /-- A connection is closed only if it was refused, lost, or told of an error. -/
  reason : c.Closing → c.lost = true ∨ c.greeting ≠ [] ∨ ∃ e ∈ c.exchanges, ¬e.Served
  /-- What goes out is the responses, in order. -/
  sent : c.sent <+: c.owed
  /-- What has not gone out of them is in the canonical queue. -/
  pending : ∀ tsp, c.service = .live tsp → c.sent ++ tsp.pending = c.owed
  /-- While a response is sent, what else came in is in the raw queue. -/
  response : ∀ tsp, c.service = .live tsp → tsp.nd.w = true → c.unhandled = tsp.rawq.toList
  /-- Else the canonical queue holds what it has room for of the next line. -/
  request : ∀ tsp, c.service = .live tsp → tsp.nd.w = false →
    ∃ part, LF ∉ part ∧ c.unhandled = part ++ tsp.rawq.toList ∧
      tsp.canq.toList = part.take TCPSVC_CANQ_SIZE
  /-- When nothing is to be sent or cleaned up, every line has been handled, and the service
  reads. -/
  waiting : ∀ tsp, c.service = .live tsp → tsp.nd.w = false → tsp.nd.c = false →
    tsp.nd.r = true ∧ c.handled = lines c.received
  /-- No queue is ever used without the space or the data that is needed. -/
  room : ∀ e, c.Allows e → (c.step e).isSome

theorem handled_eq {c : Conn} {done : List Bytes} {rest : Bytes}
    (hreceived : c.received = written done ++ rest) (hdone : ∀ l ∈ done, LF ∉ l)
    (hexchanged : List.Forall₂ Exchange.Of done c.exchanges) :
    c.handled = done ∧ c.unhandled = rest ∧ lines c.received = done ++ lines rest := by
  have hlines : lines c.received = done ++ lines rest := by
    rw [hreceived, lines_written_append hdone]
  have hhandled : c.handled = done := by
    rw [Conn.handled, hlines, ← hexchanged.length_eq, take_left]
  refine ⟨hhandled, ?_, hlines⟩
  rw [Conn.unhandled, hhandled, hreceived, drop_left]

/-- **Requests and responses are paired**: after any events, in any order, the lines that were
handled are the first complete lines, each of them was handled once and by its own bytes, and what
has gone out is the responses in the same order. -/
theorem paired {c : Conn} (h : connections.Reachable c) : c.Paired := by
  have hinv := inv_of_reachable h
  have hroom : ∀ e, c.Allows e → (c.step e).isSome := by
    intro e he
    obtain ⟨c', hc', -⟩ := inv_step hinv he
    exact isSome_of_eq_some hc'
  rw [Conn.Inv] at hinv
  cases hlive : c.service with
  | live tsp =>
    rw [hlive] at hinv
    obtain ⟨hcontrol, hstanding, done, part, h⟩ := hinv
    obtain ⟨hhandled, hunhandled, hlines⟩ := handled_eq h.received h.done_line h.exchanged
    refine ⟨hhandled ▸ h.exchanged, hstanding.last, fun hclosing ↦ ?_, ⟨_, h.sent⟩, ?_, ?_, ?_, ?_,
      hroom⟩
    · rw [Conn.Closing, hlive] at hclosing
      exact hstanding.reason hclosing
    all_goals
      intro tsp' htsp'
      obtain rfl := Service.live.inj (hlive.symm.trans htsp')
    · exact h.sent
    · intro hw
      rw [hunhandled, h.response hw, nil_append]
    · exact fun hw ↦ ⟨part, h.part_line, hunhandled, (h.request hw).1⟩
    · intro hw hc
      obtain ⟨hr, hraw⟩ := hcontrol.waiting hw hc
      refine ⟨hr, ?_⟩
      rw [hhandled, hlines, hraw, append_nil, lines_of_notMem h.part_line, append_nil]
  | closed =>
    rw [hlive] at hinv
    obtain ⟨hstanding, done, rest, hreceived, hdone, hexchanged, hsent⟩ := hinv
    obtain ⟨hhandled, -, -⟩ := handled_eq hreceived hdone hexchanged
    refine ⟨hhandled ▸ hexchanged, hstanding.last, fun _ ↦ hstanding.reason rfl, hsent, ?_, ?_, ?_,
      ?_, hroom⟩
    all_goals exact fun tsp htsp ↦ absurd (hlive.symm.trans htsp) nofun

/-- A line comes in in two chunks, is answered, and the answer goes out in two parts. -/
theorem paired_chunks : ∃ c : Conn, c.exchanges.length = 1 ∧ c.Paired := by
  have hrun : (accepted.run [.read (.data 97 []), .cleanup none, .read (.data 98 [10]),
      .cleanup (some (.string ⟨[111, 107, 10], by decide⟩)), .write [.sent 2], .write [.sent 1],
      .cleanup none]).map (·.exchanges.length) = some 1 := by
    decide
  obtain ⟨c, hc, hlen⟩ := map_eq_some_iff.1 hrun
  exact ⟨c, hlen, paired (reachable_of_run reachable_accepted hc)⟩

/-- Nothing is left to be done: the connection is closed, or waits for input. -/
def Conn.Settled (c : Conn) : Prop :=
  match c.service with
  | .live tsp => tsp.nd.w = false ∧ tsp.nd.c = false
  | .closed => True

/-- Every complete line has been handled once nothing is left to be done. -/
def Conn.Answered (c : Conn) : Prop :=
  c.Settled → c.exchanges.length = (lines c.received).length

/-- Two lines come in, and the master object has no function for the first: the connection is closed
when the error has been sent. -/
theorem not_answered : ¬∀ c, connections.Reachable c → c.Answered := by
  intro h
  have hrun : ((accepted.run
      [.read (.data 97 [10, 98, 10]), .cleanup none, .write [.sent 100], .cleanup none]).map
        fun c ↦ (c.service matches .closed, c.exchanges.length, (lines c.received).length)) =
      some (true, 1, 2) := by
    decide
  obtain ⟨c, hc, heq⟩ := map_eq_some_iff.1 hrun
  have hanswered := h c (reachable_of_run reachable_accepted hc)
  simp only [Prod.mk.injEq] at heq
  rw [Conn.Answered, Conn.Settled, heq.2.1, heq.2.2] at hanswered
  cases hservice : c.service with
  | live tsp => simp [hservice] at heq
  | closed =>
    rw [hservice] at hanswered
    exact absurd (hanswered trivial) (by decide)

end Lpmud.Tcpsvc
