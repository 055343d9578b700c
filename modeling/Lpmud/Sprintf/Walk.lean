import Lpmud.Sprintf.Adding
import Lpmud.Sprintf.Justify

/-!
# A walk over sprintf

What holds of a state of `string_print_formatted` wherever it is, and of the state that it stops in,
is shown one operation at a time (`Respects`). The walk over the program is made once, for anything
that the operations respect (`walks_scanFormat`).

It keeps to the strings: every pointer into a string that is given points to one of its characters
or to its NUL. It also shows that the rounds of all loops are enough.
-/

namespace Lpmud.Sprintf

open Function List Option Abortable

variable {len : Addr → ℕ} {I E : State → Prop} {s s' : State} {p : Ptr}

/-! ### Strings -/

/-- The strings that are given have a NUL at the end, and nothing was written behind the buffer. -/
structure State.Sound (len : Addr → ℕ) (s : State) : Prop where
  length : ∀ a, (s.mem (.given a)).length = len a
  nul : ∀ a, (s.mem (.given a)).getLast? = some 0
  buff : s.buff.length ≤ BUFF_SIZE

/-- A pointer to a character of a string or to its NUL, if the string is one that is given. -/
def Ptr.Inside (len : Addr → ℕ) (p : Ptr) : Prop :=
  ∀ a, p.block = .given a → p.offset < len a

/-- The byte at a pointer. -/
def State.byte (s : State) (p : Ptr) : Option UInt8 :=
  (s.mem p.block)[p.offset]?

theorem head?_bytes (s : State) (p : Ptr) : (s.bytes p).head? = s.byte p :=
  List.head?_drop

theorem State.Sound.exists_byte (h : s.Sound len) {a : Addr} (hp : p.Inside len)
    (hblock : p.block = .given a) : ∃ c, s.byte p = some c := by
  refine ⟨_, List.getElem?_eq_getElem ?_⟩
  rw [hblock, h.length]
  exact hp a hblock

theorem length_stringAt_lt {l : Bytes} (h : (0 : UInt8) ∈ l) :
    (stringAt l).length < l.length := by
  induction l with
  | nil => exact absurd h not_mem_nil
  | cons c l ih =>
    by_cases hc : c = 0
    · subst hc
      exact Nat.succ_pos l.length
    · rw [stringAt_cons hc]
      exact Nat.succ_lt_succ (ih (mem_of_ne_of_mem (Ne.symm hc) h))

/-- **Up to the end of its string** a pointer can be moved. -/
theorem State.Sound.inside_add (h : s.Sound len) (hp : p.Inside len) {k : ℕ}
    (hk : k ≤ (stringAt (s.bytes p)).length) : (p.add k).Inside len := by
  intro a hblock
  have hlt : p.offset < (s.mem p.block).length := by
    rw [show p.block = .given a from hblock, h.length]
    exact hp a hblock
  have hnul : (0 : UInt8) ∈ s.bytes p := by
    have hlast := h.nul a
    rw [← show p.block = .given a from hblock] at hlast
    refine mem_of_getLast? ?_
    rw [State.bytes, List.getLast?_drop, if_neg (Nat.not_le.2 hlt)]
    exact hlast
  have hlen := length_stringAt_lt hnul
  have hdrop : (s.bytes p).length = (s.mem p.block).length - p.offset := length_drop
  have hmem := h.length a
  rw [← show p.block = .given a from hblock] at hmem
  show p.offset + k < len a
  omega

theorem State.Sound.inside_succ (h : s.Sound len) (hp : p.Inside len) {c : UInt8}
    (hbyte : s.byte p = some c) (hc : c ≠ 0) : (p.add 1).Inside len := by
  refine h.inside_add hp ?_
  rw [← head?_bytes] at hbyte
  obtain ⟨l, hl⟩ := List.head?_eq_some_iff.1 hbyte
  rw [hl, stringAt_cons hc]
  exact Nat.le_add_left 1 _

theorem length_takeWhile_space_le (l : Bytes) :
    (l.takeWhile (· = SPACE)).length ≤ (stringAt l).length := by
  induction l with
  | nil => exact le_rfl
  | cons c l ih =>
    by_cases hc : c = SPACE
    · subst hc
      exact Nat.succ_le_succ ih
    · rw [takeWhile_cons_of_neg (by simp [hc])]
      exact Nat.zero_le _

/-! ### Writing -/

theorem sound_poke (hs : s.Sound len) (p : Ptr) : (s.poke p 0).Sound len := by
  have hmem (a : Addr) : (s.poke p 0).mem (.given a) = s.mem (.given a) ∨
      (s.poke p 0).mem (.given a) = (s.mem (.given a)).set p.offset 0 := by
    by_cases hblock : p.block = .given a
    · rw [← hblock]
      exact .inr (update_self _ _ _)
    · exact .inl (update_of_ne (Ne.symm hblock) _ _)
  refine ⟨fun a ↦ ?_, fun a ↦ ?_, hs.buff⟩
  · rcases hmem a with heq | heq <;> rw [heq]
    · exact hs.length a
    · exact length_set.trans (hs.length a)
  · rcases hmem a with heq | heq <;> rw [heq]
    · exact hs.nul a
    · have hnul := hs.nul a
      rw [List.getLast?_eq_getElem?] at hnul ⊢
      rw [length_set, List.getElem?_set]
      split
      next heq =>
        rw [if_pos (List.getElem?_eq_some_iff.1 (heq ▸ hnul)).1]
      next => exact hnul

theorem poke_poke {c : UInt8} (hbyte : s.byte p = some c) :
    ((s.poke p 0).poke p c).mem = s.mem := by
  obtain ⟨hlt, hc⟩ := List.getElem?_eq_some_iff.1 hbyte
  rw [State.poke, State.poke]
  dsimp only
  rw [update_self, set_set, update_idem, ← hc, set_getElem_self,
    update_eq_self]

/-! ### What an operation does -/

/-- A pad string has an end, if only that of the string that it is in. -/
def Closed : Bytes → Bool
  | [] => false
  | c :: l =>
    if c = 0 ∨ c = QUOTE then true
    else if c = BACKSLASH then
      match l with
      | [] => false
      | _ :: l => Closed l
    else Closed l

/-- What goes wrong without being checked where something is read. -/
def Stop.Reads (stop : Stop) : Prop :=
  stop = .fault ∨ ∃ b, stop = .past b

/-- What goes wrong without being checked. -/
def Stop.Unchecked (stop : Stop) : Prop :=
  stop.Reads ∨ stop = .overrun

theorem reads_pad (s : State) (pad : PadPtr) : (s.pad pad).past.Reads := by
  cases pad with
  | blank => exact .inl rfl
  | zero => exact .inl rfl
  | quoted p => exact .inr ⟨p.block, rfl⟩

/-- **What all operations respect**: `I` is kept by those that go on, and `E` holds when one of them
stops. -/
structure Respects (I E : State → Prop) : Prop where
  note : ∀ s step, I s → I { s with steps := step :: s.steps }
  add : ∀ s buff curpos, I s → s.buff.length ≤ buff.length → buff.length ≤ BUFF_SIZE →
    I { s with buff := buff, curpos := curpos }
  clean : ∀ s mem clean cleans, I s → (∀ a, mem (.given a) = s.mem (.given a)) →
    I { s with mem := mem, clean := clean, cleans := cleans }
  saveChar : ∀ s p c, I s → s.byte p = some c →
    I ({ s with saves := (p, c) :: s.saves }.poke p 0)
  jump : ∀ s x, I s → E { s with stop := some (.jump x) }
  fault : ∀ s, I s → E { s with stop := some .fault }
  past : ∀ s n, I s → E { s with stop := some (.past (.clean n)) }
  temp : ∀ s n, I s → TEMP_SIZE ≤ n →
    E { s with steps := .temp n :: s.steps, stop := some .overrun }
  raise : ∀ s message, I s →
    E { s with steps := .raise s.saves.length :: s.steps, stop := some (.raise message) }
  text : ∀ s s' n, I s →
    { s with steps := .add s.buff.length n :: s.steps }.Stopped n (fun _ ↦ False) s' → E s'
  field : ∀ s s' len pad fs finfo trailing, I s → pad.past.Reads →
    { s with steps := .field s.buff.length 0 len pad fs finfo trailing :: s.steps }.Stopped
      (fieldLength len fs finfo trailing) (FieldStop len pad fs finfo) s' → E s'
  segment : ∀ s s' p c len pad fs finfo trailing, I s → pad.past.Reads → s.byte p = some c →
    { s.poke p 0 with
      steps := .field s.buff.length c len pad fs finfo trailing :: s.steps }.Stopped
        (fieldLength len fs finfo trailing) (FieldStop len pad fs finfo) s' → E s'
  quote : ∀ s p a, I s → p.block = .given a → ¬Closed (s.bytes p) →
    E { s with steps := .quote (s.bytes p) :: s.steps, stop := some (.past (.given a)) }

/-- A computation that keeps to the strings, with what is known of its value. -/
def Walks {α : Type} (len : Addr → ℕ) (I E : State → Prop) (m : Print α) (R : α → Prop) : Prop :=
  ∀ s : State, s.Sound len → I s → wp E m (fun a s' ↦ s'.Sound len ∧ I s' ∧ R a) s

section Walks

variable {α β : Type} {m : Print α} {R R' : α → Prop}

theorem walks_pure {a : α} (h : R a) : Walks len I E (pure a) R :=
  fun _ hs hI ↦ ⟨hs, hI, h⟩

theorem Walks.bind {f : α → Print β} {R' : β → Prop} (hm : Walks len I E m R)
    (hf : ∀ a, R a → Walks len I E (f a) R') : Walks len I E (m >>= f) R' := by
  intro s hs hI
  rw [wp_bind]
  exact wp_mono (hm s hs hI) fun a s' ⟨hs', hI', ha⟩ ↦ hf a ha s' hs' hI'

theorem Walks.mono (hm : Walks len I E m R) (h : ∀ a, R a → R' a) : Walks len I E m R' :=
  fun s hs hI ↦ wp_mono (hm s hs hI) fun a _ ⟨hs', hI', ha⟩ ↦ ⟨hs', hI', h a ha⟩

theorem Walks.ite {c : Prop} [Decidable c] {m' : Print α} (hm : c → Walks len I E m R)
    (hm' : ¬c → Walks len I E m' R) : Walks len I E (if c then m else m') R := by
  split
  next h => exact hm h
  next h => exact hm' h

theorem Walks.ite_bind {c : Prop} [Decidable c] {m m' : Print β} {R' : β → Prop} {f : β → Print α}
    (hm : c → Walks len I E m R') (hm' : ¬c → Walks len I E m' R')
    (hf : ∀ b, R' b → Walks len I E (f b) R) :
    Walks len I E (if c then m >>= f else m' >>= f) R :=
  .ite (fun h ↦ (hm h).bind hf) fun h ↦ (hm' h).bind hf

theorem walks_read : Walks len I E read (State.Sound len) :=
  fun _ hs hI ↦ ⟨hs, hI, hs⟩

theorem walks_forM {f : β → Print PUnit} {l : List β}
    (h : ∀ b ∈ l, Walks len I E (f b) fun _ ↦ True) : Walks len I E (l.forM f) fun _ ↦ True := by
  induction l with
  | nil => exact walks_pure trivial
  | cons b l ih =>
    show Walks len I E (f b >>= fun _ ↦ l.forM f) _
    exact (h b mem_cons_self).bind fun _ _ ↦ ih fun b' hb' ↦ h b' (mem_cons_of_mem b hb')

end Walks

/-! ### Operations -/

section Operations

variable (h : Respects I E)

include h

theorem walks_halt_fault {α : Type} {R : α → Prop} : Walks len I E (halt .fault) R :=
  fun s _ hI ↦ h.fault s hI

theorem walks_ERROR {α : Type} {R : α → Prop} (x : FormatError) : Walks len I E (ERROR x) R :=
  fun s _ hI ↦ h.jump s x hI

theorem walks_raise {α : Type} {R : α → Prop} (message : String) :
    Walks len I E (raise message) R :=
  fun s _ hI ↦ h.raise s message hI

theorem walks_newLine : Walks len I E (modify fun s ↦ { s with curpos := 0 }) fun _ ↦ True :=
  fun s hs hI ↦ ⟨⟨hs.length, hs.nul, hs.buff⟩, h.add s s.buff 0 hI le_rfl hs.buff, trivial⟩

theorem walks_clean {f : State → State} {mem : State → Block → Bytes}
    {clean : State → Option ℕ} {cleans : State → ℕ}
    (hf : ∀ s, f s = { s with mem := mem s, clean := clean s, cleans := cleans s })
    (hmem : ∀ s a, mem s (.given a) = s.mem (.given a)) :
    Walks len I E (modify f) fun _ ↦ True := by
  intro s hs hI
  have hI' := h.clean s (mem s) (clean s) (cleans s) hI (hmem s)
  show (f s).Sound len ∧ I (f s) ∧ True
  rw [hf]
  refine ⟨⟨fun a ↦ ?_, fun a ↦ ?_, hs.buff⟩, hI', trivial⟩
  · exact (congrArg List.length (hmem s a)).trans (hs.length a)
  · exact (congrArg List.getLast? (hmem s a)).trans (hs.nul a)

/-- **What only adds, and is noted.** -/
theorem walks_adding {step : State → Step} {m : Print PUnit} {n : State → ℕ} {ok : Stop → Prop}
    (hm : ∀ s, Adding (n s) ok m)
    (hstop : ∀ s s', I s → { s with steps := step s :: s.steps }.Stopped (n s) ok s' → E s') :
    Walks len I E (note step >>= fun _ ↦ m) fun _ ↦ True := by
  intro s hs hI
  rw [wp_bind]
  show wp E m _ { s with steps := step s :: s.steps }
  have hadd := hm s { s with steps := step s :: s.steps } hs.buff
  refine wp_mono (wp_mono_error hadd fun s' ↦ hstop s s' hI) ?_
  rintro _ _ ⟨cs, rfl, -, hbuff⟩
  refine ⟨⟨hs.length, hs.nul, hbuff⟩, ?_, trivial⟩
  refine h.add { s with steps := step s :: s.steps } _ _ (h.note s _ hI) ?_ hbuff
  rw [length_append]
  exact Nat.le_add_right _ _

theorem walks_addText (cs : Bytes) : Walks len I E (addText cs) fun _ ↦ True :=
  walks_adding h (fun _ ↦ adding_addChars cs) fun s s' ↦ h.text s s' cs.length

theorem walks_justify (str : Bytes) {pad : Pad} (hpad : pad.past.Reads) (fs : BitVec 32)
    (finfo : FormatInfo) (trailing : Bool) :
    Walks len I E (justify 0 str pad fs finfo trailing) fun _ ↦ True :=
  walks_adding h (fun _ ↦ adding_addJustified str pad fs finfo trailing)
    fun s s' hI ↦ h.field s s' str.length pad fs finfo trailing hI hpad

/-- **What is read of a string that is given is there.** -/
theorem wp_peek {Q : UInt8 → State → Prop} (hp : p.Inside len) (hs : s.Sound len) (hI : I s)
    (hQ : ∀ c, s.byte p = some c → Q c s) : wp E (peek p) Q s := by
  show wp E (there _) Q s
  rw [head?_bytes]
  cases hbyte : s.byte p with
  | some c => exact hQ c hbyte
  | none =>
    cases hblock : p.block with
    | given a =>
      obtain ⟨c, hc⟩ := hs.exists_byte hp hblock
      exact nomatch hbyte.symm.trans hc
    | clean n => exact h.past s n hI

theorem walks_peek (hp : p.Inside len) :
    Walks len I E (peek p) fun c ↦ c ≠ 0 → (p.add 1).Inside len :=
  fun _ hs hI ↦ wp_peek h hp hs hI fun _ hbyte ↦ ⟨hs, hI, hs.inside_succ hp hbyte⟩

/-- `SAVE_CHAR` -/
theorem walks_saveChar (hp : p.Inside len) : Walks len I E (saveChar p) fun _ ↦ True := by
  intro s hs hI
  rw [saveChar, wp_bind]
  refine wp_peek h hp hs hI fun c hbyte ↦ ?_
  have hs' : State.Sound len { s with saves := (p, c) :: s.saves } := ⟨hs.length, hs.nul, hs.buff⟩
  exact ⟨sound_poke hs' p, h.saveChar s p c hI hbyte, trivial⟩

/-- **A segment**: when it does not stop, its string is what it was before. -/
theorem walks_addSegment {c : Cst} {done : ℕ} (hp : (p.add done).Inside len) (trailing : Bool) :
    Walks len I E (addSegment c p done trailing) fun _ ↦ True := by
  intro s hs hI
  rw [addSegment, takeOut, wp_bind, wp_bind]
  refine wp_peek h hp hs hI fun save hbyte ↦ ?_
  show wp E (justify save (stringAt ((s.poke (p.add done) 0).bytes p))
    ((s.poke (p.add done) 0).pad c.pad) c.size c.info trailing >>= fun _ ↦
      putBack (p.add done) save) _ (s.poke (p.add done) 0)
  have hpad := reads_pad (s.poke (p.add done) 0) c.pad
  generalize stringAt ((s.poke (p.add done) 0).bytes p) = str
  generalize State.pad (s.poke (p.add done) 0) c.pad = pad at hpad ⊢
  rw [justify, wp_bind, wp_bind]
  have hadd := adding_addJustified str pad c.size c.info trailing
    { s.poke (p.add done) 0 with
      steps := .field s.buff.length save str.length pad c.size c.info trailing :: s.steps } hs.buff
  rw [note, wp_modify]
  refine wp_mono (wp_mono_error hadd fun s' ↦
    h.segment s s' (p.add done) save str.length pad c.size c.info trailing hI hpad hbyte) ?_
  rintro _ _ ⟨cs, rfl, -, hbuff⟩
  -- all that has changed is the buffer
  have hback : ((s.poke (p.add done) 0).poke (p.add done) save).mem = s.mem := poke_poke hbyte
  refine ⟨⟨fun a ↦ ?_, fun a ↦ ?_, hbuff⟩, ?_, trivial⟩
  · exact (congrArg (fun mem ↦ (mem (.given a)).length) hback).trans (hs.length a)
  · exact (congrArg (fun mem ↦ (mem (.given a)).getLast?) hback).trans (hs.nul a)
  · have hle : s.buff.length ≤ (s.buff ++ cs).length := by
      rw [length_append]
      exact Nat.le_add_right _ _
    have hI' := h.add _ (s.buff ++ cs) (s.curpos + cs.length) (h.note s
      (.field s.buff.length save str.length pad c.size c.info trailing) hI) hle hbuff
    dsimp only at hI'
    rw [← hback] at hI'
    exact hI'

/-! ### Columns and tables -/

theorem walks_nextSegment (hp : p.Inside len) :
    Walks len I E (nextSegment p) fun r ↦ r.1.Inside len := by
  refine (walks_peek h hp).bind fun c hc ↦ .ite (fun _ ↦ walks_pure hp) fun hne ↦ ?_
  exact (walks_peek h (hc hne)).bind fun _ _ ↦ walks_pure (hc hne)

theorem walks_addColumn {c : Cst} (hp : p.Inside len) (next trailing : Bool) :
    Walks len I E (addColumn c p next trailing) fun r ↦ r.2.Inside len := by
  refine walks_read.bind fun s hs ↦ ?_
  have hbreak : (p.add (columnBreak c.prec.toNat (s.bytes p))).Inside len :=
    hs.inside_add hp ((columnBreak_le_length _ _).trans (length_restOfLine_le _))
  refine (walks_addSegment h hbreak _).bind fun _ _ ↦ (walks_nextSegment h hbreak).bind ?_
  rintro ⟨q, completed⟩ hq
  exact walks_read.bind fun _ _ ↦ walks_pure hq

/-- All columns of a table that are left are in its string. -/
def TabInside (len : Addr → ℕ) (tab : List (Option Ptr)) : Prop :=
  ∀ q, some q ∈ tab → q.Inside len

theorem walks_addTableColumns {c : Cst} {nocols : ℕ} {next trailing : Bool}
    {tab : List (Option Ptr)} : ∀ {i}, TabInside len tab →
      Walks len I E (addTableColumns c nocols next trailing i tab) fun r ↦ TabInside len r.1 := by
  induction tab with
  | nil =>
    intro i htab
    exact .ite (fun _ ↦ walks_halt_fault h) fun _ ↦ walks_pure htab
  | cons col tab ih =>
    intro i htab
    cases col with
    | none => exact walks_pure htab
    | some p =>
      rw [addTableColumns]
      refine .ite (fun _ ↦ ?_) fun _ ↦ walks_pure htab
      refine walks_read.bind fun s hs ↦ ?_
      have hend : (p.add (restOfLine (s.bytes p)).length).Inside len :=
        hs.inside_add (htab p mem_cons_self) (length_restOfLine_le _)
      refine (walks_addSegment h hend _).bind fun _ _ ↦ (walks_nextSegment h hend).bind ?_
      rintro ⟨q, completed⟩ hq
      refine (ih fun q hq ↦ htab q (mem_cons_of_mem _ hq)).bind ?_
      rintro ⟨tab, i⟩ htab'
      refine walks_pure fun q' hq' ↦ ?_
      rcases mem_cons.1 hq' with heq | hmem
      · cases completed with
        | true => exact nomatch heq
        | false =>
          obtain rfl := some.inj heq
          exact hq
      · exact htab' q' hmem

theorem walks_addTable {c : Cst} {nocols : ℕ} {tab : List (Option Ptr)} (htab : TabInside len tab)
    (next trailing : Bool) : Walks len I E (addTable c nocols tab next trailing) fun r ↦
      ∀ tab, r = some tab → TabInside len tab := by
  refine (walks_addTableColumns h htab).bind ?_
  rintro ⟨tab, i⟩ htab
  refine .ite (fun _ ↦ (walks_addText h _).bind fun _ _ ↦ ?_) fun _ ↦ ?_
  all_goals
    split
    · exact walks_pure fun _ heq ↦ some.inj heq ▸ htab
    · exact walks_pure (by rintro _ ⟨⟩)
    · exact walks_halt_fault h

theorem walks_addStart (c : Cst) : Walks len I E (addStart c) fun _ ↦ True :=
  walks_read.bind fun _ _ ↦ walks_addText h _

/-- What is still to be printed of a column or a table is in its string. -/
def Cst.Inside (len : Addr → ℕ) (c : Cst) : Prop :=
  match c.d with
  | .col col => col.Inside len
  | .tab _ tab => TabInside len tab

theorem walks_columnRound {csts : List Cst} : ∀ {stat}, (∀ c ∈ csts, c.Inside len) →
    Walks len I E (columnRound stat csts) fun r ↦ ∀ c ∈ r.2, c.Inside len := by
  induction csts with
  | nil => exact fun _ ↦ walks_pure nofun
  | cons c csts ih =>
    intro stat hcsts
    have hc := hcsts c mem_cons_self
    have hrest (c : Cst) (hc : c ∈ csts) := hcsts c (mem_cons_of_mem _ hc)
    rcases c with ⟨d, pad, start, size, prec, info⟩
    cases d with
    | col col =>
      refine walks_read.bind fun s hs ↦ (walks_addStart h _).bind fun _ _ ↦ ?_
      refine (walks_addColumn h (hs.inside_add hc ?_) _ _).bind ?_
      · split
        · exact Nat.zero_le _
        · exact length_takeWhile_space_le _
      rintro ⟨ret, col⟩ hcol
      refine (ih hrest).bind ?_
      rintro ⟨stat, csts⟩ hcsts
      refine walks_pure fun c' hc' ↦ ?_
      dsimp only at hc'
      split at hc'
      · rcases mem_cons.1 hc' with rfl | hmem
        · exact hcol
        · exact hcsts c' hmem
      · exact hcsts c' hc'
    | tab nocols tab =>
      refine (walks_addStart h _).bind fun _ _ ↦ (walks_addTable h hc _ _).bind fun left hleft ↦ ?_
      refine (ih hrest).bind ?_
      rintro ⟨stat, csts⟩ hcsts
      refine walks_pure fun c' hc' ↦ ?_
      cases left with
      | none => exact hcsts c' hc'
      | some tab =>
        rcases mem_cons.1 hc' with rfl | hmem
        · exact hleft tab rfl
        · exact hcsts c' hmem

end Operations

/-! ### Rounds -/

theorem Respects.filled (h : Respects I E) (n : ℕ) :
    Respects (fun s ↦ I s ∧ n ≤ s.buff.length) E where
  note s step hI := ⟨h.note s step hI.1, hI.2⟩
  add s buff curpos hI hle hbuff := ⟨h.add s buff curpos hI.1 hle hbuff, hI.2.trans hle⟩
  clean s mem clean cleans hI hmem := ⟨h.clean s mem clean cleans hI.1 hmem, hI.2⟩
  saveChar s p c hI hbyte := ⟨h.saveChar s p c hI.1 hbyte, hI.2⟩
  jump s x hI := h.jump s x hI.1
  fault s hI := h.fault s hI.1
  past s n hI := h.past s n hI.1
  temp s n hI := h.temp s n hI.1
  raise s message hI := h.raise s message hI.1
  text s s' n hI := h.text s s' n hI.1
  field s s' len pad fs finfo trailing hI := h.field s s' len pad fs finfo trailing hI.1
  segment s s' p c len pad fs finfo trailing hI :=
    h.segment s s' p c len pad fs finfo trailing hI.1
  quote s p a hI := h.quote s p a hI.1

theorem length_of_addText {cs : Bytes} (hrun : addText cs s = (some .unit, s')) :
    s'.buff.length = s.buff.length + cs.length := by
  obtain ⟨_, t, ht, hadd⟩ := bind_eq_some.1 hrun
  cases ht
  obtain ⟨-, rfl⟩ := (addChars_iff cs).1 hadd
  exact length_put _ cs

/-- **The lines of columns and tables**: in every round but the last one a line end is added, so
that the buffer is full before there are no rounds left. -/
theorem walks_columnRounds (h : Respects I E) {format : Ptr} (hformat : format.Inside len)
    {fuel : ℕ} : ∀ {stat csts n}, BUFF_SIZE < fuel + n → (∀ c ∈ csts, c.Inside len) →
      Walks len (fun s ↦ I s ∧ n ≤ s.buff.length) E (columnRounds format fuel stat csts)
        fun _ ↦ True := by
  induction fuel with
  | zero =>
    intro stat csts n hfuel hcsts s hs hI
    cases csts with
    | nil => exact ⟨hs, hI, trivial⟩
    | cons c csts =>
      have hbuff := hs.buff
      omega
  | succ fuel ih =>
    intro stat csts n hfuel hcsts
    cases csts with
    | nil => exact walks_pure trivial
    | cons c csts =>
      refine (walks_columnRound (h.filled n) hcsts).bind ?_
      rintro ⟨stat, csts⟩ hcsts
      refine (walks_peek (h.filled n) hformat).bind fun c _ ↦ ?_
      cases csts with
      | nil =>
        have hrest : Walks len (fun s ↦ I s ∧ n ≤ s.buff.length) E
            ((modify fun s ↦ { s with curpos := 0 }) >>= fun _ ↦ columnRounds format fuel stat [])
              fun _ ↦ True := by
          refine (walks_newLine (h.filled n)).bind fun _ _ ↦ ?_
          cases fuel <;> exact walks_pure trivial
        exact .ite (fun _ ↦ (walks_addText (h.filled n) _).bind fun _ _ ↦ hrest) fun _ ↦ hrest
      | cons c csts =>
        show Walks _ _ _ (addText [NEWLINE] >>= fun _ ↦ modify _ >>= fun _ ↦ _) _
        intro s hs hI
        rw [wp_bind]
        have hadd := wp_and_of_run (walks_addText h [NEWLINE] s hs hI.1)
          fun _ s' ↦ length_of_addText
        refine wp_mono hadd fun _ s' ⟨⟨hs', hI', _⟩, hlen⟩ ↦ ?_
        have hrest := (walks_newLine (h.filled (n + 1))).bind fun _ _ ↦
          @ih stat (c :: csts) (n + 1) (by omega) hcsts
        have hle : n + 1 ≤ s'.buff.length := hlen ▸ Nat.succ_le_succ hI.2
        exact wp_mono (hrest s' hs' ⟨hI', hle⟩) fun _ s'' ⟨hs'', hI'', _⟩ ↦
          ⟨hs'', ⟨hI''.1, Nat.le_of_succ_le hI''.2⟩, trivial⟩

/-! ### LPC values -/

section Values

variable (h : Respects I E)

include h

theorem walks_makeRoom (size n : ℕ) : Walks len I E (makeRoom size n) fun _ ↦ True :=
  .ite (fun _ ↦ .ite (fun _ ↦ walks_ERROR h _) fun _ ↦ walks_pure trivial) fun _ ↦
    walks_pure trivial

theorem walks_stradd (dst : Bytes) (size : ℕ) (add : Bytes) :
    Walks len I E (stradd dst size add) fun _ ↦ True :=
  (walks_makeRoom h _ _).bind fun _ _ ↦ walks_pure trivial

theorem walks_numadd (dst : Bytes) (size : ℕ) (num : BitVec 32) :
    Walks len I E (numadd dst size num) fun _ ↦ True :=
  (walks_makeRoom h _ _).bind fun _ _ ↦ walks_pure trivial

theorem walks_addObject (w : World) (callMaster : Bool) (ob : Obj) (str : Bytes) (size : ℕ) :
    Walks len I E (addObject w callMaster ob str size) fun _ ↦ True := by
  refine (walks_stradd h _ _ _).bind fun _ _ ↦ .ite (fun _ ↦ ?_) fun _ ↦ walks_pure trivial
  cases w.objectName ob with
  | error message => exact walks_raise h message
  | ok name =>
    cases name with
    | none => exact walks_pure trivial
    | some name =>
      exact (walks_stradd h _ _ _).bind fun _ _ ↦ (walks_stradd h _ _ _).bind fun _ _ ↦
        walks_stradd h _ _ _

end Values

mutual

theorem walks_svalueToString (h : Respects I E) (w : World) (callMaster : Bool) (obj : Value)
    (str : Bytes) (size : ℕ) (indent : ℤ) (trailing : Bool) :
    Walks len I E (svalueToString w callMaster obj str size indent trailing) fun _ ↦ True := by
  have hadd (dst : Bytes) (size : ℕ) (add : Bytes) :
      Walks len I E (stradd dst size add) fun _ ↦ True := walks_stradd h dst size add
  rw [svalueToString]
  refine .ite_bind (fun _ ↦ hadd _ _ _) (fun _ ↦ walks_pure trivial) ?_
  rintro ⟨str, size⟩ -
  have hend (r : Bytes × ℕ) : Walks len I E (match r with
      | (str, size) => if trailing then stradd str size (ascii ",\n") >>= fun r ↦ match r with
          | (str, _) => pure str
        else pure str) fun _ ↦ True := by
    obtain ⟨str, size⟩ := r
    exact .ite (fun _ ↦ (hadd _ _ _).bind fun _ _ ↦ walks_pure trivial) fun _ ↦ walks_pure trivial
  cases obj with
  | invalid => exact (hadd _ _ _).bind fun _ _ ↦ hend _
  | lvalue v =>
    exact (hadd _ _ _).bind fun _ _ ↦
      (walks_svalueToString h w callMaster v _ _ _ _).bind fun _ _ ↦
        (walks_pure (R := fun _ ↦ True) trivial).bind fun _ _ ↦ hend _
  | number n => exact (walks_numadd h _ _ n).bind fun _ _ ↦ hend _
  | float x => exact (hadd _ _ _).bind fun _ _ ↦ hend _
  | string a =>
    exact (hadd _ _ _).bind fun _ _ ↦ walks_read.bind fun _ _ ↦ (hadd _ _ _).bind fun _ _ ↦
      (hadd _ _ _).bind fun _ _ ↦ hend _
  | pointer item =>
    match item with
    | [] => exact (hadd _ _ _).bind fun _ _ ↦ hend _
    | v :: item =>
      exact (hadd _ _ _).bind fun _ _ ↦ (walks_numadd h _ _ _).bind fun _ _ ↦
        (hadd _ _ _).bind fun _ _ ↦
          (walks_itemsToString h w callMaster (v :: item) _ _ _).bind fun _ _ ↦
            (hadd _ _ _).bind fun _ _ ↦ hend _
  | object ob =>
    exact .ite_bind (fun _ ↦ walks_numadd h _ _ _) (fun _ ↦ walks_addObject h w callMaster ob _ _)
      fun _ _ ↦ hend _
  | mapping pairs =>
    match pairs with
    | [] => exact (hadd _ _ _).bind fun _ _ ↦ hend _
    | pair :: pairs =>
      exact (hadd _ _ _).bind fun _ _ ↦ (walks_numadd h _ _ _).bind fun _ _ ↦
        (hadd _ _ _).bind fun _ _ ↦
          (walks_pairsToString h w callMaster (pair :: pairs) _ _ _).bind fun _ _ ↦
            (hadd _ _ _).bind fun _ _ ↦ hend _
  | function f =>
    exact (hadd _ _ _).bind fun _ _ ↦ (hadd _ _ _).bind fun _ _ ↦ (hadd _ _ _).bind fun _ _ ↦
      hend _

theorem walks_itemsToString (h : Respects I E) (w : World) (callMaster : Bool) (item : List Value)
    (str : Bytes) (size : ℕ) (indent : ℤ) :
    Walks len I E (itemsToString w callMaster item str size indent) fun _ ↦ True := by
  cases item with
  | nil =>
    rw [itemsToString]
    exact walks_pure trivial
  | cons v item =>
    rw [itemsToString]
    exact (walks_svalueToString h w callMaster v _ _ _ _).bind fun _ _ ↦
      walks_itemsToString h w callMaster item _ _ _

theorem walks_pairsToString (h : Respects I E) (w : World) (callMaster : Bool)
    (pairs : List (Value × Value)) (str : Bytes) (size : ℕ) (indent : ℤ) :
    Walks len I E (pairsToString w callMaster pairs str size indent) fun _ ↦ True := by
  match pairs with
  | [] =>
    rw [pairsToString]
    exact walks_pure trivial
  | (arg, val) :: pairs =>
    rw [pairsToString]
    exact (walks_svalueToString h w callMaster arg _ _ _ _).bind fun _ _ ↦
      (walks_stradd h _ _ _).bind fun _ _ ↦
        (walks_svalueToString h w callMaster val _ _ _ _).bind fun _ _ ↦
          walks_pairsToString h w callMaster pairs _ _ _

end

/-! ### Conversions -/

theorem lt_of_mem_tableBreaks {len b : ℕ} {text : Bytes} :
    ∀ {cols n fs}, b ∈ tableBreaks len cols n fs text → b < fs + text.length := by
  induction text with
  | nil =>
    intro cols n fs h
    cases cols <;> exact absurd h not_mem_nil
  | cons c text ih =>
    intro cols n fs h
    rw [length_cons]
    cases cols with
    | zero => exact absurd h not_mem_nil
    | succ cols =>
      rw [tableBreaks] at h
      split at h
      · have hlt := ih h
        omega
      · split at h
        · rcases mem_cons.1 h with rfl | hmem
          · omega
          · have hlt := ih hmem
            omega
        · have hlt := ih h
          omega

theorem tablePrec_lt {text : Bytes} {fs prec : ℕ} (hfs : fs < 2 ^ 32) (hprec : prec < 2 ^ 31) :
    tablePrec text fs prec < 2 ^ 31 := by
  rw [tablePrec]
  split
  · exact hprec
  · dsimp only
    split
    · decide
    · generalize Nat.max (scanTable text 1 0 0).2.2 (scanTable text 1 0 0).2.1 = max
      have hle : fs / (max + 2) ≤ fs / 2 := Nat.div_le_div_left (Nat.le_add_left 2 _) (by decide)
      exact hle.trans_lt (by omega)

theorem tableShape_le (n prec : ℕ) : (tableShape n prec).2 ≤ prec := by
  have hle : (if n < prec then n else prec) ≤ prec := by
    split <;> omega
  rw [tableShape]
  generalize (if n < prec then n else prec) = prec' at hle ⊢
  dsimp only
  generalize (if n / prec * prec' < n then n / prec + 1 else n / prec) = len
  split
  · exact (Nat.sub_le _ _).trans hle
  · exact hle

theorem toInt_ofNat_nonneg {n : ℕ} (hn : n < 2 ^ 31) : 0 ≤ (BitVec.ofNat 32 n).toInt := by
  have hnat : (BitVec.ofNat 32 n).toNat = n := Nat.mod_eq_of_lt (by omega)
  rw [BitVec.toInt_eq_toNat_of_lt (by omega)]
  exact Int.natCast_nonneg _

theorem length_cutInteger (n prec : BitVec 32) (finfo : FormatInfo) :
    (cutInteger n prec finfo).length = (intString finfo n).length := by
  rw [cutInteger]
  split
  · exact length_set
  · rfl

section Conversions

variable (h : Respects I E)

include h

omit h in
theorem given_ne_clean (a : Addr) (n : ℕ) : Block.given a ≠ .clean n :=
  nofun

theorem walks_writeNul {isClean : Bool} {q : Ptr} (hq : q.Inside len)
    (hclean : isClean → ∃ n, q.block = .clean n) :
    Walks len I E (writeNul isClean q) fun _ ↦ True := by
  refine .ite (fun hc ↦ ?_) fun _ ↦ walks_saveChar h hq
  obtain ⟨n, hblock⟩ := hclean hc
  refine walks_clean h (fun _ ↦ rfl) fun s a ↦ update_of_ne ?_ _ _
  rw [hblock]
  exact given_ne_clean a n

theorem walks_addNewTable {isClean : Bool} (hp : p.Inside len)
    (hclean : isClean → ∃ n, p.block = .clean n) {spec : Spec} (hprec : 0 ≤ spec.prec.toInt)
    (trailing : Bool) : Walks len I E (addNewTable p isClean spec trailing) fun r ↦
      0 ≤ r.1.prec.toInt ∧ ∀ c, r.2 = some c → c.Inside len := by
  refine walks_read.bind fun s hs ↦ ?_
  have hbreaks {n cols b : ℕ} (hb : b ∈ tableBreaks n cols 0 0 (stringAt (s.bytes p))) :
      b + 1 ≤ (stringAt (s.bytes p)).length := by
    have hlt := lt_of_mem_tableBreaks hb
    omega
  refine Walks.bind (R := fun _ ↦ True) (walks_forM fun b hb ↦ ?_) fun _ _ ↦ ?_
  · exact walks_writeNul h (hs.inside_add hp (Nat.le_of_succ_le (hbreaks hb))) hclean
  · have htab {n cols : ℕ} : TabInside len (some p ::
        (tableBreaks n cols 0 0 (stringAt (s.bytes p))).map fun b ↦ some (p.add (b + 1))) := by
      intro q hq
      rcases mem_cons.1 hq with heq | hmem
      · exact some.inj heq ▸ hp
      · obtain ⟨b, hb, heq⟩ := mem_map.1 hmem
        exact some.inj heq ▸ hs.inside_add hp (hbreaks hb)
    refine (walks_addTable h htab _ _).bind fun left hleft ↦ walks_pure ⟨?_, fun c hc ↦ ?_⟩
    · refine toInt_ofNat_nonneg ((tableShape_le _ _).trans_lt (tablePrec_lt spec.fs.isLt ?_))
      have hcond := BitVec.toInt_eq_toNat_cond spec.prec
      split at hcond <;> omega
    obtain ⟨tab, rfl, rfl⟩ := map_eq_some_iff.1 hc
    exact hleft tab rfl

theorem walks_addNewColumn (hp : p.Inside len) (spec : Spec) (c : UInt8) (trailing : Bool) :
    Walks len I E (addNewColumn p spec c trailing) fun r ↦ ∀ c, r = some c → c.Inside len := by
  refine walks_read.bind fun s _ ↦ (walks_addColumn h hp _ _).bind ?_
  rintro ⟨ret, col⟩ hcol
  have hleft {cst : Cst} : Walks len I E
      (pure (if ret = 0 then some { cst with d := .col col } else none))
        fun r ↦ ∀ c, r = some c → c.Inside len := by
    refine walks_pure fun c' hc' ↦ ?_
    split at hc'
    · obtain rfl := some.inj hc'
      exact hcol
    · exact nomatch hc'
  exact .ite (fun _ ↦ (walks_addText h _).bind fun _ _ ↦ hleft) fun _ ↦ hleft

theorem walks_cutString {isClean : Bool} {n : ℕ} (hn : ∀ k ≤ n, (p.add k).Inside len)
    (hclean : isClean → ∃ n, p.block = .clean n) {prec : BitVec 32} (hprec : 0 ≤ prec.toInt) :
    Walks len I E (cutString p isClean prec n) fun _ ↦ True := by
  refine .ite (fun hlt ↦ ?_) fun _ ↦ walks_pure trivial
  have hcond := BitVec.toInt_eq_toNat_cond prec
  refine (walks_writeNul h (hn prec.toNat ?_) hclean).bind fun _ _ ↦ walks_pure trivial
  split at hcond <;> omega

theorem walks_addPlain {format : Ptr} (hformat : format.Inside len) (n : ℕ) (spec : Spec)
    (more : Bool) : Walks len I E (addPlain p n spec format more) fun _ ↦ True := by
  refine .ite (fun _ ↦ ?_) fun _ ↦ walks_read.bind fun _ _ ↦ walks_addText h _
  exact (walks_peek h hformat).bind fun _ _ ↦ walks_read.bind fun s _ ↦
    walks_justify h _ (reads_pad s spec.pad) _ _ _

/-- **Strings.** -/
theorem walks_addString {isClean : Bool} (hp : p.Inside len)
    (hclean : isClean → ∃ n, p.block = .clean n) {spec : Spec} (hprec : 0 ≤ spec.prec.toInt)
    {format : Ptr} (hformat : format.Inside len) (more : Bool) {csts : List Cst}
    (hcsts : ∀ c ∈ csts, c.Inside len) :
    Walks len I E (addString p isClean spec format more csts) fun r ↦
      0 ≤ r.1.prec.toInt ∧ ∀ c ∈ r.2, c.Inside len := by
  have hall {left : Option Cst} (hleft : ∀ c, left = some c → c.Inside len) :
      ∀ c ∈ csts ++ left.toList, c.Inside len := by
    intro c hc
    rcases mem_append.1 hc with hmem | hmem
    · exact hcsts c hmem
    · exact hleft c (mem_toList.1 hmem)
  refine walks_read.bind fun s hs ↦ .ite (fun _ ↦ ?_) fun _ ↦ ?_
  · refine .ite (fun _ ↦ walks_ERROR h _) fun _ ↦ (walks_peek h hformat).bind fun c _ ↦ ?_
    refine .ite (fun _ ↦ ?_) fun _ ↦ ?_
    · exact (walks_addNewColumn h hp spec c _).bind fun left hleft ↦
        walks_pure ⟨hprec, hall hleft⟩
    · exact (walks_addNewTable h hp hclean hprec _).bind fun left hleft ↦
        walks_pure ⟨hleft.1, hall hleft.2⟩
  · refine (walks_cutString h (fun k ↦ hs.inside_add hp) hclean hprec).bind fun slen _ ↦ ?_
    exact (walks_addPlain h hformat slen spec more).bind fun _ _ ↦ walks_pure ⟨hprec, hcsts⟩

theorem walks_addField {step : State → Step} {temp : Bytes} {pad : Pad} {fs : BitVec 32}
    {finfo : FormatInfo} {trailing : Bool} (hpad : pad.past.Reads)
    (hstep : ∀ s, step s = s.fieldStep temp pad fs finfo trailing) :
    Walks len I E (note step >>= fun _ ↦ addField temp pad fs finfo trailing temp.length)
      fun _ ↦ True := by
  obtain rfl : step = _ := funext hstep
  rw [addField]
  split
  next hlt =>
    have hadd (_ : State) := adding_addJustified (temp.takeWhile (· ≠ 0)) pad fs finfo trailing
    refine walks_adding h hadd fun s s' hI hstop ↦ ?_
    rw [State.fieldStep, if_pos hlt] at hstop
    exact h.field s s' _ pad fs finfo trailing hI hpad hstop
  next hge =>
    have hadd (_ : State) : Adding temp.length (fun _ ↦ False) (addChars temp) :=
      adding_addChars temp
    refine walks_adding h hadd fun s s' hI hstop ↦ ?_
    rw [State.fieldStep, if_neg hge] at hstop
    exact h.text s s' _ hI hstop

theorem walks_printTemp (n : ℕ) : Walks len I E (printTemp n) fun _ ↦ True := by
  intro s hs hI
  rw [printTemp, wp_bind]
  show wp E (if TEMP_SIZE ≤ n then halt .overrun else pure PUnit.unit) _
    { s with steps := .temp n :: s.steps }
  split
  next hle => exact h.temp s n hI hle
  next => exact ⟨⟨hs.length, hs.nul, hs.buff⟩, h.note s _ hI, trivial⟩

/-- **Integers and floats.** -/
theorem walks_addNumber (w : World) (carg : Value) (spec : Spec) {format : Ptr}
    (hformat : format.Inside len) (more : Bool) :
    Walks len I E (addNumber w carg spec format more) fun _ ↦ True := by
  refine (walks_peek h hformat).bind fun c _ ↦ walks_read.bind fun s _ ↦ ?_
  refine .ite (fun _ ↦ ?_) fun _ ↦ ?_
  · refine .ite (fun _ ↦ walks_ERROR h _) fun _ ↦ ?_
    cases carg with
    | number n =>
      dsimp only
      rw [addInteger, ← length_cutInteger n spec.prec spec.finfo]
      exact walks_addField h (reads_pad s spec.pad) fun _ ↦ rfl
    | _ => exact walks_raise h _
  · refine .ite (fun _ ↦ ?_) fun _ ↦ walks_ERROR h _
    cases carg with
    | float x =>
      exact (walks_printTemp h _).bind fun _ _ ↦ walks_addField h (reads_pad s spec.pad) fun _ ↦ rfl
    | _ => exact walks_raise h _

theorem walks_makeClean (w : World) (callMaster : Bool) (v : Value) :
    Walks len I E (makeClean w callMaster v) fun p ↦ ∃ n, p = ⟨.clean n, 0⟩ := by
  refine walks_read.bind fun s _ ↦ ?_
  refine (walks_clean h (fun _ ↦ rfl) fun _ _ ↦ rfl).bind fun _ _ ↦ ?_
  refine (walks_svalueToString h w callMaster v _ _ _ _).bind fun text _ ↦ ?_
  refine (walks_clean h (fun _ ↦ rfl) fun s' a ↦ ?_).bind fun _ _ ↦ walks_pure ⟨_, rfl⟩
  exact update_of_ne (given_ne_clean a _) _ _

theorem walks_freeClean : Walks len I E (modify State.freeClean) fun _ ↦ True := by
  refine walks_clean h (fun _ ↦ rfl) fun s a ↦ ?_
  cases s.clean with
  | none => rfl
  | some n => exact update_of_ne (given_ne_clean a n) _ _

/-- **A conversion.** -/
theorem walks_addConversion (w : World) (callMaster : Bool) (carg : Value) {spec : Spec}
    (hprec : 0 ≤ spec.prec.toInt) {format : Ptr} (hformat : format.Inside len) (more : Bool)
    {csts : List Cst} (hcsts : ∀ c ∈ csts, c.Inside len) :
    Walks len I E (addConversion w callMaster carg spec format more csts) fun r ↦
      0 ≤ r.1.prec.toInt ∧ ∀ c ∈ r.2, c.Inside len := by
  have hfree (done : Spec × List Cst)
      (hdone : 0 ≤ done.1.prec.toInt ∧ ∀ c ∈ done.2, c.Inside len) :
      Walks len I E (modify State.freeClean >>= fun _ ↦ pure done) fun r ↦
        0 ≤ r.1.prec.toInt ∧ ∀ c ∈ r.2, c.Inside len :=
    (walks_freeClean h).bind fun _ _ ↦ walks_pure hdone
  refine .ite (fun _ ↦ ?_) fun _ ↦ .ite (fun _ ↦ ?_) fun _ ↦ .ite (fun _ ↦ ?_) fun _ ↦
    .ite (fun _ ↦ ?_) fun _ ↦ ?_
  · refine (walks_makeClean h w callMaster carg).bind ?_
    rintro _ ⟨n, rfl⟩
    have hinside : Ptr.Inside len ⟨.clean n, 0⟩ := fun a ha ↦ absurd ha.symm (given_ne_clean a n)
    have hclean : true → ∃ m, (⟨.clean n, 0⟩ : Ptr).block = .clean m := fun _ ↦ ⟨n, rfl⟩
    refine (walks_addString h hinside hclean ?_ hformat more hcsts).bind hfree
    exact hprec
  · exact Walks.bind (walks_ERROR h _) hfree
  · exact (walks_addText h _).bind fun _ _ ↦ (walks_pure ⟨hprec, hcsts⟩).bind hfree
  · cases carg with
    | string a =>
      intro s hs hI
      have hpos : 0 < len a := by
        rw [← hs.length a]
        exact length_pos_of_mem (mem_of_getLast? (hs.nul a))
      have hinside : Ptr.Inside len ⟨.given a, 0⟩ := by
        rintro _ ⟨⟩
        exact hpos
      have hclean (hc : false = true) : ∃ n, (⟨.given a, 0⟩ : Ptr).block = .clean n :=
        absurd hc Bool.false_ne_true
      exact (walks_addString h hinside hclean hprec hformat more hcsts).bind hfree s hs hI
    | _ => exact Walks.bind (walks_ERROR h _) hfree
  · exact (walks_addNumber h w carg spec hformat more).bind fun _ _ ↦
      (walks_pure ⟨hprec, hcsts⟩).bind hfree

theorem walks_addConversions (w : World) (callMaster : Bool) {format : Ptr}
    (hformat : format.Inside len) {item : List Value} : ∀ {spec : Spec} {csts : List Cst},
      0 ≤ spec.prec.toInt → (∀ c ∈ csts, c.Inside len) →
        Walks len I E (addConversions w callMaster format item spec csts)
          fun r ↦ ∀ c ∈ r, c.Inside len := by
  induction item with
  | nil => exact fun _ hcsts ↦ walks_pure hcsts
  | cons carg item ih =>
    intro spec csts hprec hcsts
    refine (walks_addConversion h w callMaster carg hprec hformat _ hcsts).bind ?_
    rintro ⟨spec, csts⟩ ⟨hprec, hcsts⟩
    exact ih hprec hcsts

end Conversions

/-! ### The format string -/

theorem inside_format {a : Addr} {fpos : ℕ} :
    (Ptr.add ⟨.given a, 0⟩ fpos).Inside len ↔ fpos < len a := by
  constructor
  · intro h
    have hlt := h a rfl
    rwa [Ptr.add, Nat.zero_add] at hlt
  · rintro h _ ⟨⟩
    rwa [Ptr.add, Nat.zero_add]

theorem ne_zero_of_isDigit {c : UInt8} (hc : isDigit c) : c ≠ 0 := by
  rintro rfl
  exact absurd hc (by decide)

theorem bytes_eq_cons {c : UInt8} (hbyte : s.byte p = some c) :
    s.bytes p = c :: s.bytes (p.add 1) := by
  obtain ⟨hlt, rfl⟩ := List.getElem?_eq_some_iff.1 hbyte
  exact drop_eq_getElem_cons hlt

@[simp]
theorem closed_backslash (c : UInt8) (l : Bytes) :
    Closed (BACKSLASH :: c :: l) = Closed l := by
  rw [Closed.eq_def]
  rfl

theorem closed_cons {c : UInt8} {l : Bytes} (hc : c ≠ 0) (hquote : c ≠ QUOTE)
    (hback : c ≠ BACKSLASH) : Closed (c :: l) = Closed l := by
  rw [Closed.eq_def]
  dsimp only
  rw [if_neg (not_or.2 ⟨hc, hquote⟩), if_neg hback]

section Scanner

variable {a : Addr} {argv : List Value} (h : Respects I E)

include h

theorem walks_getNextArg (arg : ℕ) : Walks len I E (getNextArg argv arg) fun _ ↦ True :=
  .ite (fun _ ↦ walks_ERROR h _) fun _ ↦ walks_pure trivial

theorem walks_starArg (arg : ℕ) : Walks len I E (starArg argv arg) fun _ ↦ True := by
  rw [starArg]
  split
  · exact walks_pure trivial
  · exact walks_ERROR h _

theorem walks_peek_format {fpos : ℕ} (hfpos : fpos < len a) :
    Walks len I E (peek (Ptr.add ⟨.given a, 0⟩ fpos)) fun c ↦ c ≠ 0 → fpos + 1 < len a :=
  (walks_peek h (inside_format.2 hfpos)).mono fun _ hsucc hc ↦ inside_format.1 (hsucc hc)

theorem walks_scanDigits {fuel : ℕ} : ∀ {fpos n}, fpos < len a → len a < fuel + fpos →
    Walks len I E (scanDigits ⟨.given a, 0⟩ fuel fpos n) fun r ↦ fpos ≤ r.1 ∧ r.1 < len a := by
  induction fuel with
  | zero => exact fun hfpos hfuel ↦ absurd hfuel (by omega)
  | succ fuel ih =>
    intro fpos n hfpos hfuel
    refine (walks_peek_format h hfpos).bind fun c hc ↦ .ite (fun hdigit ↦ ?_) fun _ ↦ ?_
    · have hsucc := hc (ne_zero_of_isDigit hdigit)
      exact (ih hsucc (by omega)).mono fun _ hr ↦ ⟨Nat.le_of_succ_le hr.1, hr.2⟩
    · exact walks_pure ⟨le_rfl, hfpos⟩

/-- **Digits and stars.** -/
theorem walks_scanNumber {fuel fpos : ℕ} (hfpos : fpos + 1 < len a)
    (hfuel : len a < fuel + (fpos + 1)) (c : UInt8) (arg : ℕ) (spec : Spec) :
    Walks len I E (scanNumber ⟨.given a, 0⟩ argv fuel c fpos arg spec)
      fun r ↦ fpos < r.1 ∧ r.1 < len a := by
  have hstar (f : BitVec 32 → Spec) : Walks len I E
      (starArg argv arg >>= fun n ↦ getNextArg argv arg >>= fun arg ↦ pure (fpos + 1, arg, f n))
        fun r ↦ fpos < r.1 ∧ r.1 < len a :=
    (walks_starArg h arg).bind fun _ _ ↦ (walks_getNextArg h arg).bind fun _ _ ↦
      walks_pure ⟨Nat.lt_succ_self fpos, hfpos⟩
  have hdigits (n : BitVec 32) (f : BitVec 32 → Spec) : Walks len I E
      (scanDigits ⟨.given a, 0⟩ fuel (fpos + 1) n >>= fun r ↦ pure (r.1, arg, f r.2))
        fun r ↦ fpos < r.1 ∧ r.1 < len a :=
    (walks_scanDigits h hfpos hfuel).bind fun _ hr ↦ walks_pure hr
  refine .ite (fun _ ↦ .ite (fun _ ↦ hstar _) fun _ ↦ hdigits _ fun n ↦ { spec with prec := n })
    fun _ ↦ ?_
  refine (walks_peek_format h hfpos).bind fun c' _ ↦ ?_
  let prec (fs : BitVec 32) := if spec.prec = PREC_COLON then fs else spec.prec
  refine .ite (fun _ ↦ hdigits _ fun n ↦ { spec with fs := n, prec := prec n, pad := .zero })
    fun _ ↦ .ite (fun _ ↦ hstar _) fun _ ↦ hdigits _ fun n ↦ { spec with fs := n, prec := prec n }

/-- **A pad string** that has no end is read up to its end and further. -/
theorem wp_scanPad {pad fuel : ℕ} : ∀ {fpos}, fpos ≤ len a →
    len a < fuel + fpos → s.Sound len → I s →
      (¬Closed (s.bytes (Ptr.add ⟨.given a, 0⟩ fpos)) →
        E { s with stop := some (.past (.given a)) }) →
      wp E (scanPad ⟨.given a, 0⟩ pad fuel fpos)
        (fun close s' ↦ s'.Sound len ∧ I s' ∧ fpos ≤ close ∧ close + 1 < len a) s := by
  induction fuel with
  | zero => exact fun hfpos hfuel ↦ absurd hfuel (by omega)
  | succ fuel ih =>
    intro fpos hfpos hfuel hs hI hclosed
    rcases Nat.lt_or_ge fpos (len a) with hlt | hge
    swap
    · have hnone : s.byte (Ptr.add ⟨.given a, 0⟩ fpos) = none := by
        refine List.getElem?_eq_none ((hs.length a).trans_le ?_)
        rw [Ptr.add, Nat.zero_add]
        exact hge
      rw [scanPad, wp_bind]
      show wp E (there _) _ s
      rw [head?_bytes, hnone]
      refine hclosed ?_
      rw [List.head?_eq_none_iff.1 ((head?_bytes _ _).trans hnone)]
      exact Bool.false_ne_true
    rw [scanPad, wp_bind]
    refine wp_peek h (inside_format.2 hlt) hs hI fun c hbyte ↦ ?_
    have hcons := bytes_eq_cons hbyte
    have hsucc (hc : c ≠ 0) : fpos + 1 < len a :=
      inside_format.1 (hs.inside_succ (inside_format.2 hlt) hbyte hc)
    split
    next => exact walks_ERROR h _ s hs hI
    next hc =>
      split
      next hback =>
        have hrun := @ih (fpos + 2) (hsucc hc) (by omega) hs hI fun hopen ↦ hclosed ?_
        · exact wp_mono hrun fun _ _ ⟨hs', hI', hle, hlt'⟩ ↦ ⟨hs', hI', by omega, hlt'⟩
        · obtain ⟨x, hx⟩ := hs.exists_byte (inside_format.2 (hsucc hc)) rfl
          have hcons' : s.bytes ((Ptr.add ⟨.given a, 0⟩ fpos).add 1) =
            x :: s.bytes (Ptr.add ⟨.given a, 0⟩ (fpos + 2)) := bytes_eq_cons hx
          rw [hcons, hcons', hback, closed_backslash]
          exact hopen
      next hback =>
        split
        next hquote =>
          refine Walks.ite (fun _ ↦ walks_ERROR h _) (fun _ ↦ ?_) s hs hI
          refine (walks_saveChar h (inside_format.2 hlt)).bind fun _ _ ↦ ?_
          exact walks_pure ⟨le_rfl, hsucc hc⟩
        next hquote =>
          have hrun := @ih (fpos + 1) (hsucc hc).le (by omega) hs hI fun hopen ↦ hclosed ?_
          · exact wp_mono hrun fun _ _ ⟨hs', hI', hle, hlt'⟩ ↦ ⟨hs', hI', by omega, hlt'⟩
          · rw [hcons, closed_cons hc hquote hback]
            exact hopen

/-- **A conversion** is scanned. -/
theorem walks_scanSpec {fuel : ℕ} : ∀ {fpos arg spec}, fpos < len a → len a < fuel + fpos →
    Walks len I E (scanSpec ⟨.given a, 0⟩ argv fuel fpos arg spec)
      fun r ↦ fpos ≤ r.1 ∧ r.1 < len a := by
  induction fuel with
  | zero => exact fun hfpos hfuel ↦ absurd hfuel (by omega)
  | succ fuel ih =>
    intro fpos arg spec hfpos hfuel
    have hnext {fpos' arg' : ℕ} {spec' : Spec} (hlt : fpos < fpos') (hfpos' : fpos' < len a) :
        Walks len I E (scanSpec ⟨.given a, 0⟩ argv fuel fpos' arg' spec')
          fun r ↦ fpos ≤ r.1 ∧ r.1 < len a :=
      (ih hfpos' (by omega)).mono fun _ hr ↦ ⟨hlt.le.trans hr.1, hr.2⟩
    rw [scanSpec]
    refine .ite (fun _ ↦ walks_pure ⟨le_rfl, hfpos⟩) fun _ ↦ ?_
    refine (walks_peek_format h hfpos).bind fun c hc ↦ .ite (fun _ ↦ walks_pure ⟨le_rfl, hfpos⟩) ?_
    intro hne
    have hsucc := hc hne
    refine .ite (fun _ ↦ ?_) fun _ ↦ .ite (fun _ ↦ ?_) fun _ ↦ ?_
    · exact (walks_scanNumber h hsucc (by omega) c arg spec).bind fun r hr ↦ hnext hr.1 hr.2
    · intro s hs hI
      rw [wp_bind]
      let step : Step := .quote (s.bytes (Ptr.add ⟨.given a, 0⟩ (fpos + 1)))
      have hs' : State.Sound len { s with steps := step :: s.steps } := ⟨hs.length, hs.nul, hs.buff⟩
      show wp E _ _ { s with steps := step :: s.steps }
      rw [wp_bind]
      have hscan := @wp_scanPad len I E _ a h (fpos + 1) fuel (fpos + 1) hsucc.le (by omega) hs'
        (h.note s _ hI) fun hopen ↦ h.quote s (Ptr.add ⟨.given a, 0⟩ (fpos + 1)) a hI rfl hopen
      refine wp_mono hscan fun close s' ⟨hs', hI', hle, hlt⟩ ↦ ?_
      exact hnext (by omega) hlt s' hs' hI'
    · exact .ite (fun _ ↦ hnext (Nat.lt_succ_self fpos) hsucc) fun _ ↦
        .ite (fun _ ↦ hnext (Nat.lt_succ_self fpos) hsucc) fun _ ↦
          hnext (Nat.lt_succ_self fpos) hsucc

theorem walks_addNewLine {α : Type} {R : α → Prop} {m : Print α} (hm : Walks len I E m R) :
    Walks len I E (addText [NEWLINE] >>= fun _ ↦
      (modify fun s ↦ { s with curpos := 0 }) >>= fun _ ↦ m) R :=
  (walks_addText h _).bind fun _ _ ↦ (walks_newLine h).bind fun _ _ ↦ hm

/-- **The format string** is scanned. -/
theorem walks_scanFormat (w : World) (callMaster : Bool) {fuel : ℕ} : ∀ {fpos arg csts},
    fpos < len a → len a < fuel + fpos → (∀ c ∈ csts, c.Inside len) →
      Walks len I E (scanFormat w callMaster ⟨.given a, 0⟩ argv fuel fpos arg csts)
        fun _ ↦ True := by
  induction fuel with
  | zero => exact fun hfpos hfuel ↦ absurd hfuel (by omega)
  | succ fuel ih =>
    intro fpos arg csts hfpos hfuel hcsts
    have hnil (c : Cst) (hc : c ∈ []) : c.Inside len := absurd hc not_mem_nil
    refine (walks_peek_format h hfpos).bind fun c hc ↦ .ite (fun _ ↦ ?_) fun hend ↦ ?_
    · refine .ite (fun _ ↦ ?_) fun _ ↦ ?_
      · refine .ite (fun _ ↦ walks_pure trivial) fun hne ↦ ?_
        exact walks_addNewLine h (ih (hc hne) (by omega) hnil)
      · refine walks_addNewLine h ?_
        have hrounds (s : State) (hs : s.Sound len) (hI : I s) :=
          @walks_columnRounds len I E h _ (inside_format.2 hfpos) (BUFF_SIZE + 2) 0 csts 0
            (by decide) hcsts s hs ⟨hI, Nat.zero_le _⟩
        have hrest : Walks len I E (peek (Ptr.add ⟨.given a, 0⟩ fpos) >>= fun c ↦
            if c = 0 then pure .unit
            else scanFormat w callMaster ⟨.given a, 0⟩ argv fuel (fpos + 1) arg [])
              fun _ ↦ True :=
          (walks_peek_format h hfpos).bind fun c hc ↦ .ite (fun _ ↦ walks_pure trivial) fun hne ↦
            ih (hc hne) (by omega) hnil
        refine Walks.bind (R := fun _ ↦ True) (fun s hs hI ↦ ?_) fun stat _ ↦ ?_
        · exact wp_mono (hrounds s hs hI) fun _ _ ⟨hs', hI', _⟩ ↦ ⟨hs', hI'.1, trivial⟩
        · exact .ite (fun _ ↦ (walks_addText h _).bind fun _ _ ↦ hrest) fun _ ↦ hrest
    · have hsucc := hc fun hnul ↦ hend (.inr hnul)
      refine .ite (fun _ ↦ ?_) fun _ ↦ (walks_addText h _).bind fun _ _ ↦ ih hsucc (by omega) hcsts
      refine (walks_peek_format h hsucc).bind fun c' hc' ↦ .ite (fun hpercent ↦ ?_) fun _ ↦ ?_
      · have hne : c' ≠ 0 := hpercent ▸ by decide
        exact (walks_addText h _).bind fun _ _ ↦ ih (hc' hne) (by omega) hcsts
      · refine (walks_getNextArg h arg).bind fun arg _ ↦ ?_
        refine (walks_scanSpec h hsucc (by omega)).bind ?_
        rintro ⟨fpos', arg, spec⟩ ⟨hle, hlt⟩
        refine .ite (fun _ ↦ walks_ERROR h _) fun hprec ↦ ?_
        exact (walks_addConversions h w callMaster (inside_format.2 hlt) (not_lt.1 hprec)
          hcsts).bind fun csts hcsts ↦ ih hlt (by change fpos + 1 ≤ fpos' at hle; omega) hcsts

end Scanner

/-! ### Calls -/

/-- A call of `string_print_formatted`, and the strings that there are when it is made. -/
structure Call where
  w : World
  callMaster : Bool
  formatStr : Addr
  argv : List Value
  strings : Addr → CString
  front : Block → UInt8

/-- The state that a call is made in. -/
def Call.load (c : Call) (s : State) : State :=
  { s with
    mem := fun b ↦ match b with
      | .given a => (c.strings a).bytes ++ [0]
      | .clean _ => []
    front := c.front }

def Call.run (c : Call) (s : State) : Outcome × State :=
  stringPrintFormatted c.w c.callMaster c.formatStr c.argv (c.load s)

/-- The state that the format string begins to be scanned in. -/
def Call.enter (c : Call) (s : State) : State :=
  { c.load s with buff := [], curpos := 0, steps := [], stop := none }

/-- **A call** ends in a state in `I`, or is cut short in one in `E`. -/
theorem Respects.run (h : Respects I E) (c : Call) (hI : I (c.enter s)) :
    (∃ t : State, I t ∧ t.buff.length ≤ BUFF_SIZE ∧
      c.run s = (.buff (stringAt t.buff), t.restore)) ∨ ∃ t, E t ∧ c.run s = t.exit := by
  have hlen (a : Addr) : ((c.strings a).bytes ++ [0]).length = (c.strings a).bytes.length + 1 :=
    length_append
  have hs : State.Sound (fun a ↦ ((c.strings a).bytes ++ [0]).length) (c.enter s) :=
    ⟨fun _ ↦ rfl, fun a ↦ List.getLast?_concat, Nat.zero_le _⟩
  let format : Ptr := ⟨.given c.formatStr, 0⟩
  let scan : Print PUnit := scanFormat c.w c.callMaster format c.argv
    (((c.enter s).mem format.block).length + 2) 0 0 [] >>= fun _ ↦ addText [0]
  have hscan : Walks (fun a ↦ ((c.strings a).bytes ++ [0]).length) I E scan fun _ ↦ True := by
    refine (walks_scanFormat h c.w c.callMaster ?_ ?_ fun _ hc ↦ absurd hc not_mem_nil).bind
      fun _ _ ↦ walks_addText h [0]
    · rw [hlen]
      exact Nat.succ_pos _
    · show _ < ((c.strings c.formatStr).bytes ++ [0]).length + 2 + 0
      omega
  have hrun := hscan (c.enter s) hs hI
  unfold wp at hrun
  rw [Call.run, stringPrintFormatted]
  split
  next t hend =>
    rw [show scan (c.enter s) = _ from hend] at hrun
    exact .inl ⟨t, hrun.2.1, hrun.1.buff, rfl⟩
  next t hend =>
    rw [show scan (c.enter s) = _ from hend] at hrun
    exact .inr ⟨t, hrun, rfl⟩

end Lpmud.Sprintf
