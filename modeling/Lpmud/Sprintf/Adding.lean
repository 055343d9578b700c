import Lpmud.Sprintf.Print

/-!
# How adding ends

Whatever only adds characters ends with the characters in the buffer, or stops: when there is no
room for them, when the pad string is empty, or when the first loop for a string in the middle reads
something behind the pad string that is not there. Nothing but the buffer is changed.
-/

namespace Lpmud.Sprintf

open Abortable

/-- How a state is when adding has stopped: the buffer overflows only when there are so many
characters that there is no room for them. -/
def State.Stopped (n : ℕ) (ok : Stop → Prop) (s s' : State) : Prop :=
  ∃ buff curpos stop, s' = { s with buff := buff, curpos := curpos, stop := some stop } ∧
    s.buff.length ≤ buff.length ∧
      (stop = .jump .buffOverflow ∧ BUFF_SIZE < s.buff.length + n ∨
        ok stop ∧ buff.length ≤ BUFF_SIZE)

/-- How a state is when some characters have been added. -/
def State.Added (n : ℕ) (s s' : State) : Prop :=
  ∃ cs, s' = s.put cs ∧ cs.length ≤ n ∧ s'.buff.length ≤ BUFF_SIZE

/-- Printing that adds so many characters at most, or stops. -/
def Adding (n : ℕ) (ok : Stop → Prop) (m : Print PUnit) : Prop :=
  ∀ s : State, s.buff.length ≤ BUFF_SIZE → wp (s.Stopped n ok) m (fun _ ↦ s.Added n) s

variable {n n' : ℕ} {ok ok' : Stop → Prop} {m m' : Print PUnit} {s s' s'' : State}

theorem length_put (s : State) (cs : Bytes) :
    (s.put cs).buff.length = s.buff.length + cs.length :=
  List.length_append

theorem State.Stopped.mono (h : s.Stopped n ok s') (hn : n ≤ n') (hok : ∀ x, ok x → ok' x) :
    s.Stopped n' ok' s' := by
  obtain ⟨buff, curpos, stop, hs', hle, hstop⟩ := h
  refine ⟨buff, curpos, stop, hs', hle, hstop.imp (fun h ↦ ⟨h.1, by omega⟩) fun h ↦ ?_⟩
  exact ⟨hok stop h.1, h.2⟩

theorem State.Added.mono (h : s.Added n s') (hn : n ≤ n') : s.Added n' s' := by
  obtain ⟨cs, hs', hle, hbuff⟩ := h
  exact ⟨cs, hs', hle.trans hn, hbuff⟩

theorem State.Stopped.full (h : s.Stopped n ok s') (hn : BUFF_SIZE < n') : s.Stopped n' ok s' := by
  obtain ⟨buff, curpos, stop, hs', hle, hstop⟩ := h
  exact ⟨buff, curpos, stop, hs', hle, hstop.imp_left fun h ↦ ⟨h.1, by omega⟩⟩

theorem State.Added.full (h : s.Added n s') (hn : BUFF_SIZE < n') : s.Added n' s' := by
  obtain ⟨cs, rfl, -, hbuff⟩ := h
  have hlen := length_put s cs
  exact ⟨cs, rfl, by omega, hbuff⟩

theorem State.Added.stopped (h : s.Added n s') (h' : s'.Stopped n' ok s'') :
    s.Stopped (n + n') ok s'' := by
  obtain ⟨cs, rfl, hle, -⟩ := h
  obtain ⟨buff, curpos, stop, rfl, hbuff, hstop⟩ := h'
  rw [length_put] at hbuff hstop
  refine ⟨buff, curpos, stop, rfl, by omega, hstop.imp_left fun h ↦ ⟨h.1, by omega⟩⟩

theorem State.Added.trans (h : s.Added n s') (h' : s'.Added n' s'') : s.Added (n + n') s'' := by
  obtain ⟨cs, rfl, hle, -⟩ := h
  obtain ⟨cs', rfl, hle', hbuff⟩ := h'
  refine ⟨cs ++ cs', put_put s cs cs', ?_, hbuff⟩
  rw [List.length_append]
  omega

theorem Adding.mono (h : Adding n ok m) (hn : n ≤ n') (hok : ∀ x, ok x → ok' x) :
    Adding n' ok' m := fun s hs ↦
  wp_mono (wp_mono_error (h s hs) fun _ h' ↦ h'.mono hn hok) fun _ _ h' ↦ h'.mono hn

theorem adding_pure : Adding n ok (pure .unit) := fun s hs ↦
  ⟨[], (put_nil s).symm, Nat.zero_le n, hs⟩

theorem Adding.bind (hm : Adding n ok m) (hm' : Adding n' ok m') :
    Adding (n + n') ok (m >>= fun _ ↦ m') := by
  intro s hs
  rw [wp_bind]
  refine wp_mono (wp_mono_error (hm s hs) fun s' h ↦ h.mono (Nat.le_add_right n n') fun _ ↦ id) ?_
  intro _ s' hadded
  have hs' : s'.buff.length ≤ BUFF_SIZE := by
    obtain ⟨-, -, -, hbuff⟩ := hadded
    exact hbuff
  exact wp_mono (wp_mono_error (hm' s' hs') fun s'' ↦ hadded.stopped) fun _ s'' ↦ hadded.trans

theorem adding_halt {stop : Stop} (h : ok stop) : Adding n ok (halt stop) := fun s hs ↦
  ⟨s.buff, s.curpos, stop, rfl, le_rfl, .inr ⟨h, hs⟩⟩

theorem adding_addChar (x : UInt8) : Adding 1 ok (addChar x) := by
  intro s hs
  rcases Nat.lt_or_ge s.buff.length BUFF_SIZE with hlt | hge
  · rw [wp, addChar_of_lt x hlt]
    exact ⟨[x], rfl, le_rfl, (length_put s [x]).trans_le hlt⟩
  · rw [wp, addChar_of_le x hge]
    refine ⟨s.buff ++ [x], s.curpos, _, rfl, ?_, .inl ⟨rfl, Nat.lt_succ_of_le hge⟩⟩
    rw [List.length_append]
    exact Nat.le_add_right _ _

theorem adding_addChars (cs : Bytes) : Adding cs.length ok (addChars cs) := by
  induction cs with
  | nil => exact adding_pure
  | cons c cs ih =>
    show Adding _ ok (addChar c >>= fun _ ↦ addChars cs)
    exact ((adding_addChar c).bind ih).mono (Nat.add_comm _ _).le fun _ ↦ id

theorem Adding.there {α : Type} {o : Except Stop α} {f : α → Print PUnit}
    (herror : ∀ stop, o = .error stop → ok stop) (hok : ∀ a, o = .ok a → Adding n ok (f a)) :
    Adding n ok (there o >>= f) := by
  cases o with
  | error stop => exact adding_halt (herror stop rfl)
  | ok a => exact hok a rfl

/-! ### Loops -/

theorem Pad.char_error {pad : Pad} {i : ℕ} {stop : Stop} (h : pad.char i = .error stop) :
    stop = .fault := by
  rw [Pad.char] at h
  split at h
  next => exact (Except.error.inj h).symm
  next hne =>
    have hlt : i % strlen pad.chars < pad.chars.length :=
      (Nat.mod_lt i (Nat.pos_of_ne_zero hne)).trans_le (List.takeWhile_sublist _).length_le
    rw [Pad.get, List.getElem?_eq_getElem hlt] at h
    cases h

theorem PadLoop.adding_round {loop : PadLoop} {pad : Pad} {fuel i : ℕ} {bound : BitVec 32}
    (hfault : ok .fault) (htest : ∀ stop, loop.test i = .error stop → ok stop)
    (hnext : ∀ j bound', j = walk loop.marked i 1 →
      bound' = loop.next (if loop.marked i then loop.skip bound else bound) →
        Adding n ok (loop.run pad fuel j bound')) (hmore : loop.more i bound) :
    Adding (n + 1) ok (loop.run pad (fuel + 1) i bound) := by
  rw [PadLoop.run, if_pos hmore]
  refine .there htest fun c hc ↦ .there (fun stop h ↦ Pad.char_error h ▸ hfault) fun x _ ↦ ?_
  rw [Nat.add_comm]
  have hmarked : loop.marked i = decide (c = BACKSLASH) := by
    rw [PadLoop.marked, hc]
  refine (adding_addChar x).bind (hnext _ _ ?_ ?_)
  · rw [walk, walk, hmarked]
    by_cases hback : c = BACKSLASH
    · rw [if_pos hback, decide_eq_true hback, if_pos rfl]
    · rw [if_neg hback, decide_eq_false hback, if_neg Bool.false_ne_true]
  · rw [hmarked]
    by_cases hback : c = BACKSLASH
    · rw [if_pos hback, decide_eq_true hback, if_pos rfl]
    · rw [if_neg hback, decide_eq_false hback, if_neg Bool.false_ne_true]

/-- **A loop that counts** adds as many characters as it counts, unless it reads something that is
not there. -/
theorem PadLoop.Counts.adding_run {loop : PadLoop} {rounds : ℕ → BitVec 32 → ℕ → Prop}
    (h : loop.Counts rounds) {pad : Pad} (hfault : ok .fault) {c : ℕ} :
    ∀ {fuel i bound}, rounds i bound c → c < fuel →
      (∀ k < c, ∀ stop, loop.test (walk loop.marked i k) = .error stop → ok stop) →
        Adding c ok (loop.run pad fuel i bound) := by
  induction c with
  | zero =>
    intro fuel i bound hrounds hfuel _
    obtain ⟨fuel, rfl⟩ := Nat.exists_eq_add_of_lt hfuel
    rw [Nat.zero_add, PadLoop.run, h.done i bound hrounds, if_neg Bool.false_ne_true]
    exact adding_pure
  | succ c ih =>
    intro fuel i bound hrounds hfuel htest
    obtain ⟨fuel, rfl⟩ : ∃ n, fuel = n + 1 := ⟨fuel - 1, by omega⟩
    refine PadLoop.adding_round hfault (htest 0 (Nat.succ_pos c)) ?_ (h.more i bound c hrounds)
    rintro _ _ rfl rfl
    refine ih ?_ (Nat.lt_of_succ_lt_succ hfuel) fun k hk stop ↦ ?_
    · rw [walk, walk]
      split
      · exact h.skip i bound c hrounds
      · exact h.next i bound c hrounds
    · rw [← walk_succ]
      exact htest (k + 1) (Nat.succ_lt_succ hk) stop

/-- **Any loop** stops when the buffer is full, if not before. -/
theorem PadLoop.adding_run {loop : PadLoop} {pad : Pad} (hfault : ok .fault)
    (htest : ∀ i stop, loop.test i = .error stop → ok stop) (hn : BUFF_SIZE < n) {fuel : ℕ} :
    ∀ {i bound} {s : State}, s.buff.length ≤ BUFF_SIZE → BUFF_SIZE + 1 < fuel + s.buff.length →
      wp (s.Stopped n ok) (loop.run pad fuel i bound) (fun _ ↦ s.Added n) s := by
  induction fuel with
  | zero => exact fun hs hfuel ↦ absurd hfuel (by omega)
  | succ fuel ih =>
    intro i bound s hs hfuel
    by_cases hmore : loop.more i bound
    swap
    · rw [PadLoop.run, if_neg hmore]
      exact adding_pure s hs
    rw [PadLoop.run, if_pos hmore]
    cases hc : loop.test i with
    | error stop => exact adding_halt (htest i stop hc) s hs
    | ok c =>
      show wp _ (there (pad.char _) >>= _) _ s
      generalize (if c = BACKSLASH then (i + 1, loop.skip bound) else (i, bound)) = here
      cases hx : pad.char here.1 with
      | error stop => exact adding_halt (Pad.char_error hx ▸ hfault) s hs
      | ok x =>
        show wp _ (addChar x >>= fun _ ↦ loop.run pad fuel (here.1 + 1) (loop.next here.2)) _ s
        rcases Nat.lt_or_ge s.buff.length BUFF_SIZE with hlt | hge
        · have hput : (s.put [x]).buff.length = s.buff.length + 1 := length_put s [x]
          have hadded : s.Added 1 (s.put [x]) := ⟨[x], rfl, le_rfl, by omega⟩
          rw [wp, bind_of_some (addChar_of_lt x hlt)]
          have hrun := @ih (here.1 + 1) (loop.next here.2) (s.put [x]) (by omega) (by omega)
          refine wp_mono (wp_mono_error hrun fun s' h' ↦ ?_) fun _ s' h' ↦ ?_
          · exact (hadded.stopped h').full hn
          · exact (hadded.trans h').full hn
        · have hstop : wp (s.Stopped 1 ok) (addChar x) (fun _ ↦ s.Added 1) s :=
            adding_addChar x s hs
          rw [wp, addChar_of_le x hge] at hstop
          rw [wp, bind_of_none (addChar_of_le x hge)]
          exact hstop.full hn

theorem PadLoop.adding_all_of_full {loop : PadLoop} {pad : Pad} (hfault : ok .fault)
    (htest : ∀ i stop, loop.test i = .error stop → ok stop) (hn : BUFF_SIZE < n)
    (bound : BitVec 32) : Adding n ok (loop.all pad bound) :=
  fun _ hs ↦ loop.adding_run hfault htest hn hs (by omega)

theorem PadLoop.Counts.adding_all {loop : PadLoop} {rounds : ℕ → BitVec 32 → ℕ → Prop}
    (h : loop.Counts rounds) {pad : Pad} (htest : loop.test = pad.char) (hfault : ok .fault) {c : ℕ}
    {bound : BitVec 32} (hrounds : c ≤ BUFF_SIZE → rounds 0 bound c) :
    Adding c ok (loop.all pad bound) := by
  have hok (i : ℕ) (stop : Stop) (h : loop.test i = .error stop) : ok stop := by
    rw [htest] at h
    exact Pad.char_error h ▸ hfault
  rcases Nat.lt_or_ge BUFF_SIZE c with hfull | hc
  · exact PadLoop.adding_all_of_full hfault hok hfull bound
  · exact h.adding_run hfault (hrounds hc) (by omega) fun k _ ↦ hok _

/-! ### Fields -/

/-- How many rounds the first loop for a string in the middle is to make. -/
def leadLength (len : ℕ) (fs : BitVec 32) : ℕ :=
  let rest := fs.setWidth 64 - BitVec.ofNat 64 len
  ((rest / 2 + rest % 2).setWidth 32).toInt.toNat

/-- How many rounds the second one is to make. -/
def trailLength (len : ℕ) (fs : BitVec 32) : ℕ :=
  ((fs.setWidth 64 - BitVec.ofNat 64 len) / 2).setWidth 32 |>.toInt.toNat

/-- How many characters `add_justified` adds. -/
def fieldLength (len : ℕ) (fs : BitVec 32) (finfo : FormatInfo) (trailing : Bool) : ℕ :=
  let rest := (fs - BitVec.ofNat 32 len).toNat
  if finfo &&& INFO_J = INFO_J_LEFT then len + if trailing then rest else 0
  else if finfo &&& INFO_J = INFO_J_CENTRE then
    leadLength len fs + (len + if trailing then trailLength len fs else 0)
  else rest + len

/-- Whatever the first loop for a string in the middle tests is there. -/
def LeadThere (pad : Bytes) (len : ℕ) (fs : BitVec 32) : Prop :=
  ∀ k < leadLength len fs, len = 0 ∨ walk (leadMarked pad len) 0 k % len < pad.length

/-- Why adding a string in its field stops, with room for it. -/
def FieldStop (len : ℕ) (pad : Pad) (fs : BitVec 32) (finfo : FormatInfo) (stop : Stop) : Prop :=
  stop = .fault ∨ stop = pad.past ∧ finfo &&& INFO_J = INFO_J_CENTRE ∧
    (BUFF_SIZE < leadLength len fs ∨ ¬LeadThere pad.chars len fs)

theorem intRounds_toInt {j : BitVec 32} (hj : 0 ≤ j.toInt) (hc : j.toInt.toNat ≤ BUFF_SIZE) :
    intRounds 0 j j.toInt.toNat := by
  change _ ≤ 10000 at hc
  exact ⟨by omega, by omega⟩

theorem adding_trailLoop {pad : Pad} {j : BitVec 32} (hfault : ok .fault) :
    Adding j.toInt.toNat ok ((trailLoop pad).all pad j) := by
  rcases lt_or_ge j.toInt 0 with hneg | hpos
  · rw [PadLoop.all_of_not_more]
    · exact adding_pure
    · rw [trailLoop, decide_eq_false_iff_not]
      omega
  · exact (counts_trailLoop pad).adding_all rfl hfault (intRounds_toInt hpos)

theorem marked_leadLoop (pad : Pad) (len : ℕ) :
    (leadLoop pad len).marked = leadMarked pad.chars len := by
  funext i
  rw [PadLoop.marked, leadLoop, leadMarked, List.getD_eq_getElem?_getD]
  by_cases h : len = 0
  · subst h
    rfl
  · simp only [if_neg h, Pad.get]
    cases pad.chars[i % len]? with
    | none => exact (decide_eq_false fun hback ↦ absurd hback.2 (by decide)).symm
    | some c => simp [h]

theorem leadLoop_test_error {pad : Pad} {len i : ℕ} {stop : Stop}
    (h : (leadLoop pad len).test i = .error stop) :
    stop = pad.past ∧ ¬(len = 0 ∨ i % len < pad.chars.length) := by
  rw [leadLoop] at h
  dsimp only at h
  split at h
  next => cases h
  next hlen =>
    rw [Pad.get] at h
    cases hc : pad.chars[i % len]? with
    | some c =>
      rw [hc] at h
      cases h
    | none =>
      rw [hc] at h
      refine ⟨(Except.error.inj h).symm, fun hor ↦ ?_⟩
      exact absurd (hor.resolve_left hlen) (Nat.not_lt.2 (List.getElem?_eq_none_iff.1 hc))

theorem adding_leadLoop {pad : Pad} {len : ℕ} {fs j : BitVec 32} {finfo : FormatInfo}
    (hj : j.toInt.toNat = leadLength len fs) (hcentre : finfo &&& INFO_J = INFO_J_CENTRE) :
    Adding (leadLength len fs) (FieldStop len pad fs finfo) ((leadLoop pad len).all pad j) := by
  have hfault : FieldStop len pad fs finfo .fault := .inl rfl
  rcases lt_or_ge j.toInt 0 with hneg | hpos
  · rw [PadLoop.all_of_not_more]
    · exact adding_pure
    · rw [leadLoop, decide_eq_false_iff_not]
      omega
  rcases Nat.lt_or_ge BUFF_SIZE (leadLength len fs) with hfull | hc
  · refine PadLoop.adding_all_of_full hfault (fun i stop h ↦ .inr ?_) hfull j
    exact ⟨(leadLoop_test_error h).1, hcentre, .inl hfull⟩
  · have hrounds : intRounds 0 j (leadLength len fs) := hj ▸ intRounds_toInt hpos (hj ▸ hc)
    refine (counts_leadLoop pad len).adding_run hfault hrounds (by omega) fun k hk stop h ↦ ?_
    obtain ⟨hstop, hread⟩ := leadLoop_test_error h
    rw [marked_leadLoop] at hread
    exact .inr ⟨hstop, hcentre, .inr fun hthere ↦ hread (hthere k hk)⟩

/-- **How `add_justified` ends.** -/
theorem adding_addJustified (str : Bytes) (pad : Pad) (fs : BitVec 32) (finfo : FormatInfo)
    (trailing : Bool) : Adding (fieldLength str.length fs finfo trailing)
      (FieldStop str.length pad fs finfo) (addJustified str pad fs finfo trailing) := by
  have hfault : FieldStop str.length pad fs finfo .fault := .inl rfl
  have hstr : Adding str.length (FieldStop str.length pad fs finfo) (addChars str) :=
    adding_addChars str
  rw [addJustified, fieldLength]
  dsimp only
  split
  next =>
    refine hstr.bind ?_
    split
    · exact (counts_leftLoop pad).adding_all rfl hfault fun _ ↦ rfl
    · exact adding_pure
  next =>
    split
    next hcentre =>
      refine (adding_leadLoop rfl hcentre).bind (hstr.bind ?_)
      split
      · exact adding_trailLoop hfault
      · exact adding_pure
    next =>
      refine Adding.bind ?_ hstr
      refine (counts_rightLoop pad).adding_all rfl hfault fun hc ↦ ⟨(Nat.zero_add _).symm, ?_⟩
      change _ ≤ 10000 at hc
      omega

end Lpmud.Sprintf
