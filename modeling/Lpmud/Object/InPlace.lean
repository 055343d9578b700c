import Lpmud.Lib.Abortable
import Lpmud.Object.RoundTrip

/-!
# Restoring in place

`restore_one` as it works on memory: the text is in a buffer, behind a pointer that is moved on
through it, the value that is read goes where the caller says, and strings are made in the buffer
itself, over the text they are read from. Reading or writing outside of the buffer is an error here
(`Failure.overrun`).

Every call has a pointer of its own, which it hands on to `restore_array` or `restore_mapping`, and
stores back through that of its caller only where it has read a value. So a call that fails leaves
its caller's pointer and the caller's values alone (`restoreOne_failed`).
-/

namespace Lpmud.Object.InPlace

open Function

/-! ### Memory -/

/-- Where a value is stored: in the variable of the caller, in `tmp` of `restore_array`, in `arg` of
`restore_mapping`, or where the `val` points to that it got from `get_map_lvalue`. -/
inductive Dest where
  | caller
  | item (depth i : ℕ)
  | arg (depth : ℕ)
  | val (depth : ℕ)
  deriving DecidableEq

/-- How deep the function is called that a variable belongs to. -/
def Dest.depth : Dest → ℕ
  | .caller => 0
  | .item depth _ => depth
  | .arg depth => depth
  | .val depth => depth

/-- The buffer, the pointers into it, by the depth of the calls they belong to, the values, how many
addresses have been given out, and what went wrong if something did. -/
structure Decoder where
  buf : Bytes
  cursor : ℕ → ℕ
  value : Dest → Svalue
  next : ℕ
  why : Option Failure

/-- A computation of the decoder, which an error can cut short. -/
abbrev Decode : Type → Type :=
  Abortable Decoder

/-- Raise an error. -/
def abort {α : Type} (f : Failure) : Decode α :=
  fun d ↦ (none, { d with why := some f })

/-- Read a byte. -/
def load (p : ℕ) : Decode UInt8 := do
  let d ← .read
  match d.buf[p]? with
  | some c => pure c
  | none => abort .overrun

/-- Write a byte. -/
def store (p : ℕ) (c : UInt8) : Decode Unit := do
  let d ← .read
  if p < d.buf.length then .modify fun d ↦ { d with buf := d.buf.set p c }
  else abort .overrun

/-- What functions of the C library see of the string at `p`. -/
def cstring (p : ℕ) : Decode Bytes := do
  let d ← .read
  if 0 ∈ d.buf.drop p then pure ((d.buf.drop p).takeWhile (· != 0)) else abort .overrun

/-- The pointer of a call. -/
def cursor (depth : ℕ) : Decode ℕ := do
  let d ← .read
  pure (d.cursor depth)

/-- Move the pointer of a call. -/
def setCursor (depth p : ℕ) : Decode Unit :=
  .modify fun d ↦ { d with cursor := update d.cursor depth p }

/-- A value. -/
def value (v : Dest) : Decode Svalue := do
  let d ← .read
  pure (d.value v)

/-- Assign a value, and free the old one. -/
def setValue (v : Dest) (x : Svalue) : Decode Unit :=
  .modify fun d ↦ { d with value := update d.value v x }

/-- The address of a new array or mapping. -/
def newAddr (e : Env) : Decode Addr := do
  let d ← .read
  .modify fun d ↦ { d with next := d.next + 1 }
  pure (e.alloc d.next)

/-! ### Reading -/

/-- The loop over the characters of a string, which are read at `p` and written at `q`. -/
def unescape : ℕ → ℕ → ℕ → Decode (ℕ × ℕ)
  | 0, _, _ => abort .rounds
  | n + 1, p, q => do
    let c ← load p
    if c = 0 ∨ c = QUOTE then pure (p, q)
    else if c = BACKSLASH then
      let c' ← load (p + 1)
      store q (if c' = LETTER_N then LF else c')
      unescape n (p + 2) (q + 1)
    else
      store q (if c = CR then LF else c)
      unescape n (p + 1) (q + 1)

/-- The loop over the characters of a number. -/
def skipNumber : ℕ → ℕ → Decode ℕ
  | 0, _ => abort .rounds
  | n + 1, p => do
    let c ← load p
    if isNumeric c then skipNumber n (p + 1) else pure p

/-- The end of `restore_one` where a value has been read. -/
def finish (depth : ℕ) (v : Dest) (x : Svalue) (s : ℕ) : Decode Bool := do
  setValue v x
  setCursor depth s
  pure true

/-- What `restore_one` does with what it gets from `restore_array` or `restore_mapping`. -/
def deliver {α : Type} (depth : ℕ) (v : Dest) (mk : α → Svalue) : Option α → Decode Bool
  | none => pure false
  | some x => do
    let s ← cursor (depth + 1)
    finish depth v (mk x) s

/-- `restore_one` for a string. -/
def restoreString (depth : ℕ) (v : Dest) (s : ℕ) : Decode Bool := do
  let d ← .read
  let (p, q) ← unescape d.buf.length (s + 1) s
  store q 0
  let c ← load p
  if c ≠ QUOTE then pure false
  else
    let bs ← cstring s
    finish depth v (.string (.ofBytes bs)) (p + 1)

/-- The object with the time and the name that were read, if it is still the same. -/
def foundObject (e : Env) (ct : ℤ) (name : Bytes) : Svalue :=
  match e.findObject name with
  | some ob => if e.created ob = ct then .object ob else .number 0
  | none => .number 0

/-- `restore_one` for an object. -/
def restoreReference (e : Env) (depth : ℕ) (v : Dest) (s : ℕ) : Decode Bool := do
  let t ← cstring (s + 1)
  match behind DOLLAR t, e.scanObject (DOLLAR :: t) with
  | some t', some (ct, name) =>
    if name.length ≥ NAME_SIZE then abort .overrun
    else finish depth v (foundObject e ct name) (s + 1 + (t.length - t'.length))
  | _, _ => pure false

/-- `restore_one` for a float. -/
def restoreFloat (e : Env) (depth : ℕ) (v : Dest) (s : ℕ) : Decode Bool := do
  let t ← cstring (s + 1)
  match behind HASH t, e.scanFloat (HASH :: t) with
  | some t', some x => finish depth v (.float x) (s + 1 + (t.length - t'.length))
  | _, _ => pure false

/-- `restore_one` for a number. -/
def restoreNumber (depth : ℕ) (v : Dest) (s : ℕ) : Decode Bool := do
  let t ← cstring s
  let d ← .read
  let s' ← skipNumber d.buf.length s
  finish depth v (.number (atoi t)) s'

/-- `allocate_array`, for the `i` elements in `tmp`. -/
def allocateItems (e : Env) (depth i : ℕ) : Decode Svalue := do
  let d ← .read
  if i > MAX_ARRAY_SIZE then abort .arraySize
  else if i = 0 then pure (.pointer e.nullVector [])
  else
    let addr ← newAddr e
    pure (.pointer addr ((List.range i).map fun k ↦ d.value (.item depth k)))

/-- The end of a loop where a closing bracket has been read at `s`. -/
def closing {α : Type} (depth s : ℕ) (m : Decode α) : Decode (Option α) := do
  setCursor depth (s + 1)
  let c ← load (s + 1)
  if c = RPAREN then
    setCursor depth (s + 2)
    let x ← m
    pure (some x)
  else pure none

/-- The character that the pointer is at, which is moved behind it. -/
def advance (depth : ℕ) : Decode UInt8 := do
  let s ← cursor depth
  setCursor depth (s + 1)
  load s

mutual

/-- `restore_one`, called from `depth`. -/
def restoreOne (e : Env) : ℕ → ℕ → Dest → Decode Bool
  | 0, _, _ => abort .rounds
  | n + 1, depth, v => do
    let s ← cursor depth
    let c ← load s
    if c = LPAREN then
      let c' ← load (s + 1)
      if c' = LBRACKET then
        setCursor (depth + 1) (s + 2)
        let addr ← newAddr e
        let map ← restoreMapping e n (depth + 1) (.allocateMap 0)
        deliver depth v (fun m ↦ .mapping addr (Mapping.entries m.stored)) map
      else if c' = LBRACE then
        setCursor (depth + 1) (s + 2)
        let vec ← restoreArray e n (depth + 1) 0
        deliver depth v (fun vec ↦ vec) vec
      else pure false
    else if c = QUOTE then restoreString depth v s
    else if c = DOLLAR then restoreReference e depth v s
    else if c = HASH then restoreFloat e depth v s
    else if isNumeric c then restoreNumber depth v s
    else pure false

/-- The loop of `restore_array`, with the number of elements that have been read. The pointer `str`
is that of the caller, at `depth`. -/
def restoreArray (e : Env) : ℕ → ℕ → ℕ → Decode (Option Svalue)
  | 0, _, _ => abort .rounds
  | n + 1, depth, i => do
    let s ← cursor depth
    let c ← load s
    if c = RBRACE then closing depth s (allocateItems e depth i)
    else
      setValue (.item depth i) const0
      let read ← restoreOne e n depth (.item depth i)
      if read then
        let c ← advance depth
        if c = COMMA then restoreArray e n depth (i + 1) else pure none
      else pure none

/-- The loop of `restore_mapping`, with the mapping made so far. What `val` points to is put into
the mapping when it has been read; what it was before makes no difference. -/
def restoreMapping (e : Env) : ℕ → ℕ → Mapping → Decode (Option Mapping)
  | 0, _, _ => abort .rounds
  | n + 1, depth, m => do
    let s ← cursor depth
    let c ← load s
    if c = RBRACKET then closing depth s (pure m)
    else
      setValue (.arg depth) const0
      let read ← restoreOne e n depth (.arg depth)
      if read then
        let c ← advance depth
        if c = COLON then
          let arg ← value (.arg depth)
          match m.getMapLvalue e.world arg id with
          | .error _ => abort .tooLarge
          | .ok _ =>
            let read ← restoreOne e n depth (.val depth)
            if read then
              let c ← advance depth
              if c = COMMA then
                let val ← value (.val depth)
                match m.getMapLvalue e.world arg fun _ ↦ val with
                | .error _ => abort .tooLarge
                | .ok m' => restoreMapping e n depth m'
              else pure none
            else pure none
        else pure none
      else pure none

end

/-! ### What belongs to the callers -/

/-- The pointers and the values of all calls above `depth` are what they were. -/
structure Spares (depth : ℕ) (d d' : Decoder) : Prop where
  cursor : ∀ k < depth, d'.cursor k = d.cursor k
  value : ∀ w : Dest, w.depth < depth → d'.value w = d.value w

/-- All of this but the pointer of the caller, at `depth`, and the value `v`. -/
structure SparesBut (depth : ℕ) (v : Dest) (d d' : Decoder) : Prop where
  cursor : ∀ k < depth, d'.cursor k = d.cursor k
  value : ∀ w : Dest, w.depth ≤ depth → w ≠ v → d'.value w = d.value w

variable {e : Env} {depth D n p q i : ℕ} {v : Dest} {x : Svalue} {d₀ d d' : Decoder}

theorem Spares.refl (depth : ℕ) (d : Decoder) : Spares depth d d :=
  ⟨fun _ _ ↦ rfl, fun _ _ ↦ rfl⟩

theorem Spares.trans (h : Spares D d₀ d) (h' : Spares D d d') : Spares D d₀ d' :=
  ⟨fun k hk ↦ (h'.cursor k hk).trans (h.cursor k hk),
    fun w hw ↦ (h'.value w hw).trans (h.value w hw)⟩

theorem SparesBut.spares (h : SparesBut D v d d') (hv : v.depth = D) : Spares D d d' :=
  ⟨h.cursor, fun w hw ↦ h.value w hw.le fun heq ↦ absurd hw (by rw [heq, hv]; exact lt_irrefl D)⟩

section Keeps

open Abortable

theorem keeps_abort {α : Type} (f : Failure) : Keeps (Spares D d₀) (abort f : Decode α) :=
  fun _ h ↦ ⟨h.cursor, h.value⟩

theorem keeps_load (p : ℕ) : Keeps (Spares D d₀) (load p) := by
  refine keeps_read.bind fun d ↦ ?_
  cases d.buf[p]? with
  | none => exact keeps_abort _
  | some c => exact keeps_pure c

theorem keeps_store (p : ℕ) (c : UInt8) : Keeps (Spares D d₀) (store p c) :=
  keeps_read.bind fun _ ↦
    .ite (fun _ ↦ keeps_modify fun _ h ↦ ⟨h.cursor, h.value⟩) fun _ ↦ keeps_abort _

theorem keeps_cstring (p : ℕ) : Keeps (Spares D d₀) (cstring p) :=
  keeps_read.bind fun _ ↦ .ite (fun _ ↦ keeps_pure _) fun _ ↦ keeps_abort _

theorem keeps_cursor (depth : ℕ) : Keeps (Spares D d₀) (cursor depth) :=
  keeps_read.bind fun _ ↦ keeps_pure _

theorem keeps_value (v : Dest) : Keeps (Spares D d₀) (value v) :=
  keeps_read.bind fun _ ↦ keeps_pure _

theorem keeps_newAddr (e : Env) : Keeps (Spares D d₀) (newAddr e) :=
  keeps_read.bind fun _ ↦
    (keeps_modify fun _ h ↦ ⟨h.cursor, h.value⟩).bind fun _ ↦ keeps_pure _

theorem keeps_setCursor (hD : D ≤ depth) (p : ℕ) : Keeps (Spares D d₀) (setCursor depth p) :=
  keeps_modify fun d h ↦ ⟨fun k hk ↦
    (update_of_ne (hk.trans_le hD).ne p d.cursor).trans (h.cursor k hk), h.value⟩

theorem keeps_setValue (hD : D ≤ v.depth) (x : Svalue) : Keeps (Spares D d₀) (setValue v x) :=
  keeps_modify fun d h ↦ ⟨h.cursor, fun w hw ↦ (update_of_ne
    (fun heq ↦ absurd hD (by rw [← heq]; exact hw.not_ge)) x d.value).trans (h.value w hw)⟩

theorem keeps_advance (hD : D ≤ depth) : Keeps (Spares D d₀) (advance depth) :=
  (keeps_cursor depth).bind fun _ ↦ (keeps_setCursor hD _).bind fun _ ↦ keeps_load _

theorem keeps_unescape (n p q : ℕ) : Keeps (Spares D d₀) (unescape n p q) := by
  induction n generalizing p q with
  | zero => exact keeps_abort _
  | succ n ih =>
    refine (keeps_load p).bind fun c ↦ .ite (fun _ ↦ keeps_pure _) fun _ ↦ .ite (fun _ ↦ ?_) ?_
    · exact (keeps_load _).bind fun _ ↦ (keeps_store _ _).bind fun _ ↦ ih _ _
    · exact fun _ ↦ (keeps_store _ _).bind fun _ ↦ ih _ _

theorem keeps_skipNumber (n p : ℕ) : Keeps (Spares D d₀) (skipNumber n p) := by
  induction n generalizing p with
  | zero => exact keeps_abort _
  | succ n ih => exact (keeps_load p).bind fun _ ↦ .ite (fun _ ↦ ih _) fun _ ↦ keeps_pure _

theorem keeps_allocateItems (e : Env) (depth i : ℕ) :
    Keeps (Spares D d₀) (allocateItems e depth i) :=
  keeps_read.bind fun _ ↦ .ite (fun _ ↦ keeps_abort _) fun _ ↦ .ite (fun _ ↦ keeps_pure _) fun _ ↦
    (keeps_newAddr e).bind fun _ ↦ keeps_pure _

theorem keeps_closing {α : Type} {m : Decode α} (hD : D ≤ depth) (hm : Keeps (Spares D d₀) m) :
    Keeps (Spares D d₀) (closing depth p m) :=
  (keeps_setCursor hD _).bind fun _ ↦ (keeps_load _).bind fun _ ↦
    .ite (fun _ ↦ (keeps_setCursor hD _).bind fun _ ↦ hm.bind fun _ ↦ keeps_pure _)
      fun _ ↦ keeps_pure _

/-- **What `restore_one` leaves alone**: if it fails or is cut short, everything that belongs to
its callers. -/
def SparesOne (depth : ℕ) (v : Dest) (d : Decoder) (m : Decode Bool) : Prop :=
  ∀ d', Spares (depth + 1) d d' →
    wp (Spares (depth + 1) d) m (fun b d' ↦
      if b then SparesBut depth v d d' else Spares (depth + 1) d d') d'

theorem sparesOne_false : SparesOne depth v d (pure false) :=
  fun _ h ↦ h

theorem SparesOne.bind {α : Type} {m : Decode α} {f : α → Decode Bool}
    (hm : Keeps (Spares (depth + 1) d) m) (hf : ∀ a, SparesOne depth v d (f a)) :
    SparesOne depth v d (m >>= f) := by
  intro d' h
  rw [wp_bind]
  exact wp_mono (hm d' h) hf

theorem SparesOne.ite {c : Prop} [Decidable c] {m m' : Decode Bool}
    (hm : SparesOne depth v d m) (hm' : SparesOne depth v d m') :
    SparesOne depth v d (if c then m else m') := by
  split
  · exact hm
  · exact hm'

theorem sparesOne_finish (x : Svalue) (s : ℕ) : SparesOne depth v d (finish depth v x s) :=
  fun d' h ↦ ⟨fun k hk ↦
      (update_of_ne hk.ne s d'.cursor).trans (h.cursor k (Nat.lt_succ_of_lt hk)),
    fun w hw hne ↦
      (update_of_ne hne x d'.value).trans (h.value w (Nat.lt_succ_of_le hw))⟩

theorem sparesOne_deliver {α : Type} (mk : α → Svalue) (o : Option α) :
    SparesOne depth v d (deliver depth v mk o) := by
  cases o with
  | none => exact sparesOne_false
  | some x => exact .bind (keeps_cursor _) fun _ ↦ sparesOne_finish _ _

theorem sparesOne_restoreString (s : ℕ) : SparesOne depth v d (restoreString depth v s) :=
  .bind keeps_read fun _ ↦ .bind (keeps_unescape _ _ _) fun _ ↦ .bind (keeps_store _ _) fun _ ↦
    .bind (keeps_load _) fun _ ↦ .ite sparesOne_false <|
      .bind (keeps_cstring _) fun _ ↦ sparesOne_finish _ _

theorem sparesOne_abort (f : Failure) : SparesOne depth v d (abort f) :=
  fun _ h ↦ ⟨h.cursor, h.value⟩

theorem sparesOne_restoreReference (s : ℕ) :
    SparesOne depth v d (restoreReference e depth v s) := by
  refine .bind (keeps_cstring _) fun t ↦ ?_
  split
  · exact .ite (sparesOne_abort _) (sparesOne_finish _ _)
  · exact sparesOne_false

theorem sparesOne_restoreFloat (s : ℕ) : SparesOne depth v d (restoreFloat e depth v s) := by
  refine .bind (keeps_cstring _) fun t ↦ ?_
  split
  · exact sparesOne_finish _ _
  · exact sparesOne_false

theorem sparesOne_restoreNumber (s : ℕ) : SparesOne depth v d (restoreNumber depth v s) :=
  .bind (keeps_cstring _) fun _ ↦ .bind keeps_read fun _ ↦ .bind (keeps_skipNumber _ _) fun _ ↦
    sparesOne_finish _ _

theorem SparesOne.keeps {m : Decode Bool} (h : ∀ d, SparesOne D v d m) (hv : v.depth = D) :
    Keeps (Spares D d₀) m := by
  intro d hd
  have hspares : ∀ d', Spares (D + 1) d d' → Spares D d₀ d' := fun d' h ↦
    hd.trans ⟨fun k hk ↦ h.cursor k (Nat.lt_succ_of_lt hk),
      fun w hw ↦ h.value w (Nat.lt_succ_of_lt hw)⟩
  refine wp_mono (wp_mono_error (h d d (.refl _ _)) hspares) ?_
  rintro (- | -) d' h
  · exact hspares d' h
  · exact hd.trans (h.spares hv)

/-- **What the three functions leave alone.** The recursion is that of the functions. -/
theorem spares (e : Env) (n : ℕ) :
    (∀ depth v d, SparesOne depth v d (restoreOne e n depth v)) ∧
      (∀ D i d₀, Keeps (Spares D d₀) (restoreArray e n D i)) ∧
      ∀ D m d₀, Keeps (Spares D d₀) (restoreMapping e n D m) := by
  induction n with
  | zero =>
    refine ⟨fun depth v d ↦ ?_, fun D i d₀ ↦ ?_, fun D m d₀ ↦ ?_⟩
    · rw [restoreOne]
      exact fun _ h ↦ ⟨h.cursor, h.value⟩
    · rw [restoreArray]
      exact keeps_abort _
    · rw [restoreMapping]
      exact keeps_abort _
  | succ n ih =>
    obtain ⟨ihone, iharray, ihmapping⟩ := ih
    have hone : ∀ D v d₀, v.depth = D → Keeps (Spares D d₀) (restoreOne e n D v) :=
      fun D v _ hv ↦ SparesOne.keeps (ihone D v) hv
    refine ⟨fun depth v d ↦ ?_, fun D i d₀ ↦ ?_, fun D m d₀ ↦ ?_⟩
    · rw [restoreOne]
      refine .bind (keeps_cursor _) fun s ↦ .bind (keeps_load _) fun c ↦ .ite ?_ ?_
      · refine .bind (keeps_load _) fun c' ↦ .ite ?_ (.ite ?_ sparesOne_false)
        · exact .bind (keeps_setCursor le_rfl _) fun _ ↦ .bind (keeps_newAddr e) fun _ ↦
            .bind (ihmapping _ _ _) fun _ ↦ sparesOne_deliver _ _
        · exact .bind (keeps_setCursor le_rfl _) fun _ ↦ .bind (iharray _ _ _) fun _ ↦
            sparesOne_deliver _ _
      · exact .ite (sparesOne_restoreString s) <| .ite (sparesOne_restoreReference s) <|
          .ite (sparesOne_restoreFloat s) <| .ite (sparesOne_restoreNumber s) sparesOne_false
    · rw [restoreArray]
      refine (keeps_cursor _).bind fun s ↦ (keeps_load _).bind fun c ↦
        .ite (fun _ ↦ keeps_closing le_rfl (keeps_allocateItems e D i)) fun _ ↦ ?_
      refine (keeps_setValue (v := .item D i) le_rfl _).bind fun _ ↦ (hone D _ _ rfl).bind fun b ↦
        .ite (fun _ ↦ (keeps_advance le_rfl).bind fun c ↦ ?_) fun _ ↦ keeps_pure _
      exact .ite (fun _ ↦ iharray _ _ _) fun _ ↦ keeps_pure _
    · rw [restoreMapping]
      refine (keeps_cursor _).bind fun s ↦ (keeps_load _).bind fun c ↦
        .ite (fun _ ↦ keeps_closing le_rfl (keeps_pure m)) fun _ ↦ ?_
      refine (keeps_setValue (v := .arg D) le_rfl _).bind fun _ ↦ (hone D _ _ rfl).bind fun b ↦
        .ite (fun _ ↦ (keeps_advance le_rfl).bind fun c ↦ ?_) fun _ ↦ keeps_pure _
      refine .ite (fun _ ↦ (keeps_value _).bind fun arg ↦ ?_) fun _ ↦ keeps_pure _
      cases m.getMapLvalue e.world arg id with
      | error _ => exact keeps_abort _
      | ok _ =>
        refine (hone D _ _ rfl).bind fun b ↦
          .ite (fun _ ↦ (keeps_advance le_rfl).bind fun c ↦ ?_) fun _ ↦ keeps_pure _
        refine .ite (fun _ ↦ (keeps_value _).bind fun val ↦ ?_) fun _ ↦ keeps_pure _
        cases m.getMapLvalue e.world arg fun _ ↦ val with
        | error _ => exact keeps_abort _
        | ok m' => exact ihmapping _ _ _

/-- **A call that fails leaves no trace**: its destination and the pointer of its caller, and all
that belongs to its callers, are what they were. -/
theorem restoreOne_failed (e : Env) (n depth : ℕ) (v : Dest) (d d' : Decoder)
    (hv : v.depth ≤ depth) (h : restoreOne e n depth v d = (some false, d')) :
    d'.value v = d.value v ∧ d'.cursor depth = d.cursor depth ∧ Spares (depth + 1) d d' := by
  have hspares := (spares e n).1 depth v d d (.refl _ _)
  rw [wp, h] at hspares
  have hfailed : Spares (depth + 1) d d' := hspares
  exact ⟨hfailed.value v (Nat.lt_succ_of_le hv), hfailed.cursor depth (Nat.lt_succ_self _),
    hfailed⟩

end Keeps

/-- `f_str2val` calls `restore_one`, with a pointer to the beginning of the string; `x` stands for
what is in the variables before. -/
def start (text : CString) (x : Svalue) (next : ℕ) : Decoder where
  buf := text.bytes ++ [0]
  cursor _ := 0
  value _ := x
  next := next
  why := none

/-- An array that breaks off behind its first element. -/
def brokenArray : Decoder :=
  start (.ofBytes [LPAREN, LBRACE, QUOTE, LETTER_N, QUOTE, COMMA, AT]) (.number 5) 0

theorem restoreOne_failed_array :
    (restoreOne bare 15 0 .caller brokenArray).2.value .caller = .number 5 ∧
      (restoreOne bare 15 0 .caller brokenArray).2.cursor 0 = 0 ∧
      Spares 1 brokenArray (restoreOne bare 15 0 .caller brokenArray).2 := by
  have hfailed : (restoreOne bare 15 0 .caller brokenArray).1 = some false := by
    decide +kernel
  exact restoreOne_failed bare 15 0 .caller brokenArray _ le_rfl (Prod.ext hfailed rfl)

end Lpmud.Object.InPlace
