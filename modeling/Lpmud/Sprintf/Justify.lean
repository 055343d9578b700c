import Lpmud.Sprintf.Print

/-!
# Fields that are too small

`add_justified` subtracts the length of a string from the size of its field, as unsigned numbers.
Where a single string is printed, its length is compared with the size first. Columns and tables do
not compare: a column may have a precision that is larger than its size, and the words of a table
may be longer than its columns are wide.
-/

namespace Lpmud.Sprintf

open List

variable {s : State} {p : Ptr}

/-! ### What add_justified is called with -/

/-- What `add_column` and `add_table` call `add_justified` with. -/
def State.segment (s : State) (p : Ptr) (done : ℕ) : Bytes :=
  stringAt ((s.poke (p.add done) 0).bytes p)

/-- How many characters of padding are missing in a field. -/
def padCount (size : ℕ) (seg : Bytes) : ℤ :=
  size - seg.length

theorem stringAt_cons {c : UInt8} (hc : c ≠ 0) (l : Bytes) :
    stringAt (c :: l) = c :: stringAt l :=
  takeWhile_cons_of_pos (by simp [hc])

theorem stringAt_set {l : Bytes} {done : ℕ} (h : done ≤ (stringAt l).length) :
    stringAt (l.set done 0) = (stringAt l).take done := by
  induction l generalizing done with
  | nil => rw [set_nil, stringAt, takeWhile_nil, take_nil]
  | cons c l ih =>
    by_cases hc : c = 0
    · subst hc
      obtain rfl := Nat.le_zero.1 h
      rfl
    · rw [stringAt_cons hc] at h ⊢
      cases done with
      | zero => rfl
      | succ done =>
        rw [set_cons_succ, take_succ_cons, ← ih (Nat.le_of_succ_le_succ h), stringAt_cons hc]

theorem segment_eq {done : ℕ} (h : done ≤ (stringAt (s.bytes p)).length) :
    s.segment p done = (stringAt (s.bytes p)).take done := by
  have hbytes : (s.poke (p.add done) 0).bytes p = (s.bytes p).set done 0 := by
    have hmem : (s.poke (p.add done) 0).mem p.block =
        (s.mem p.block).set (p.offset + done) 0 := Function.update_self _ _ _
    rw [State.bytes, hmem, drop_set, if_neg (Nat.not_lt.2 (Nat.le_add_right _ _)),
      Nat.add_sub_cancel_left]
    rfl
  rw [State.segment, hbytes, stringAt_set h]

/-! ### Columns -/

theorem restOfLine_take (prec : ℕ) (text : Bytes) :
    restOfLine (text.take prec) = (restOfLine text).take prec :=
  take_takeWhile.symm

theorem restOfLine_cons (c : UInt8) (text : Bytes) :
    restOfLine (c :: text) = if c ≠ 0 ∧ c ≠ NEWLINE then c :: restOfLine text else [] := by
  rw [restOfLine, takeWhile_cons]
  by_cases hc : c ≠ 0 ∧ c ≠ NEWLINE
  · rw [if_pos hc, if_pos (decide_eq_true hc)]
    rfl
  · rw [if_neg hc, if_neg fun h ↦ hc (of_decide_eq_true h)]

theorem getD_length_restOfLine (text : Bytes) :
    text.getD (restOfLine text).length 0 = 0 ∨ text.getD (restOfLine text).length 0 = NEWLINE := by
  induction text with
  | nil => exact .inl rfl
  | cons c text ih =>
    rw [restOfLine_cons]
    split
    next => exact ih
    next hc => exact (not_and_or.1 hc).imp not_not.1 not_not.1

theorem getD_of_lt_restOfLine {text : Bytes} {i : ℕ} (h : i < (restOfLine text).length) :
    text.getD i 0 ≠ 0 ∧ text.getD i 0 ≠ NEWLINE := by
  induction text generalizing i with
  | nil => exact absurd h (Nat.not_lt_zero i)
  | cons c text ih =>
    rw [restOfLine_cons] at h
    split at h
    next hc =>
      cases i with
      | zero => exact hc
      | succ i => exact ih (Nat.lt_of_succ_lt_succ h)
    next => exact absurd h (Nat.not_lt_zero i)

/-- **Where a segment ends**, by the length of the line. -/
theorem columnBreak_eq (prec : ℕ) (text : Bytes) : columnBreak prec text =
    if (restOfLine text).length ≤ prec then (restOfLine text).length
    else if lastBlank text prec = 0 then prec else lastBlank text prec := by
  have hend : lineEnd prec text = min prec (restOfLine text).length := by
    rw [lineEnd, restOfLine_take, length_take]
  rw [columnBreak, hend]
  by_cases hle : (restOfLine text).length ≤ prec
  · rw [if_pos hle, Nat.min_eq_right hle]
    refine if_neg fun h ↦ ?_
    rcases getD_length_restOfLine text with hend | hend
    · exact h.1 hend
    · exact h.2 hend
  · rw [if_neg hle, Nat.min_eq_left (Nat.le_of_not_le hle)]
    exact if_pos (getD_of_lt_restOfLine (Nat.lt_of_not_le hle))

/-- **A segment fits** when the precision is not larger than the size, when the line fits, or when
the line is too long for the column and its last blank before the end of the column is one that
fits. -/
def FitsColumn (prec size : ℕ) (text : Bytes) : Prop :=
  prec ≤ size ∨ (restOfLine text).length ≤ size ∨ prec < (restOfLine text).length ∧
    ∃ i, 0 < i ∧ i ≤ size ∧ text.getD i 0 = SPACE ∧
      ∀ j, size < j → j ≤ prec → text.getD j 0 ≠ SPACE

theorem columnBreak_le_iff {prec size : ℕ} {text : Bytes} :
    columnBreak prec text ≤ size ↔ FitsColumn prec size text := by
  rw [columnBreak_eq, FitsColumn]
  obtain ⟨hle, hblank, hall⟩ := lastBlank_spec text prec
  split
  next hshort => omega
  next hlong =>
    split
    next hzero =>
      rw [hzero] at hall
      refine ⟨.inl, ?_⟩
      rintro (h | h | ⟨-, i, hpos, hi, hspace, -⟩)
      · exact h
      · omega
      · by_contra hlt
        exact hall i hpos (by omega) hspace
    next hne =>
      constructor
      · intro h
        refine .inr (.inr ⟨Nat.lt_of_not_le hlong, _, Nat.pos_of_ne_zero hne, h, hblank hne, ?_⟩)
        exact fun j hj hj' ↦ hall j (h.trans_lt hj) hj'
      · rintro (h | h | ⟨-, i, hpos, hi, -, hnone⟩)
        · exact hle.trans h
        · omega
        · by_contra hlt
          exact hnone _ (Nat.lt_of_not_le hlt) hle (hblank hne)

theorem length_restOfLine_le (text : Bytes) :
    (restOfLine text).length ≤ (stringAt text).length := by
  induction text with
  | nil => exact le_rfl
  | cons c text ih =>
    rw [restOfLine_cons]
    split
    next hc =>
      rw [stringAt_cons hc.1]
      exact Nat.succ_le_succ ih
    next => exact Nat.zero_le _

theorem columnBreak_le_length (prec : ℕ) (text : Bytes) :
    columnBreak prec text ≤ (restOfLine text).length := by
  have hle := (lastBlank_spec text prec).1
  rw [columnBreak_eq]
  split
  · exact le_rfl
  · split <;> omega

theorem padCount_segment {size done : ℕ} (h : done ≤ (restOfLine (s.bytes p)).length) :
    0 ≤ padCount size (s.segment p done) ↔ done ≤ size := by
  have hle := h.trans (length_restOfLine_le (s.bytes p))
  rw [segment_eq hle, padCount, length_take_of_le hle]
  omega

/-! ### Tables -/

/-- The words of a table. -/
def tableWords (text : Bytes) : List Bytes :=
  text.splitOn NEWLINE

/-- The words of a table fit, if there is a precision into the part of the field that it says for
each column, otherwise into the whole field. -/
def FitsTable (text : Bytes) (fs prec : ℕ) : Prop :=
  if prec = 0 then ∀ word ∈ tableWords text, word.length ≤ fs
  else ∀ word ∈ tableWords text, word.length ≤ fs / prec

theorem tableWords_cons (c : UInt8) (text : Bytes) : tableWords (c :: text) =
    if c = NEWLINE then [] :: tableWords text else (tableWords text).modifyHead (c :: ·) := by
  rw [tableWords, List.splitOn, splitOnP_cons_eq_if_modifyHead]
  simp only [beq_iff_eq]
  rfl

theorem tableWords_ne_nil (text : Bytes) : tableWords text ≠ [] :=
  splitOnP_ne_nil _ text

/-- **The longest word** is the longest of those that the scan has seen. The first word of the text
goes on where the scan is. -/
theorem scanTable_le_iff (k : ℕ) : ∀ {text : Bytes} {n len max : ℕ},
    (scanTable text n len max).2.2 ≤ k ∧ (scanTable text n len max).2.1 ≤ k ↔
      max ≤ k ∧ len + ((tableWords text).headD []).length ≤ k ∧
        ∀ word ∈ (tableWords text).tail, word.length ≤ k := by
  intro text
  induction text with
  | nil =>
    intro n len max
    rw [scanTable]
    simp [tableWords]
  | cons c text ih =>
    intro n len max
    obtain ⟨word, words, hwords⟩ := exists_cons_of_ne_nil (tableWords_ne_nil text)
    rw [scanTable, tableWords_cons, hwords]
    rw [hwords] at ih
    split
    next =>
      rw [ih]
      simp only [headD_cons, tail_cons, length_nil, forall_mem_cons,
        Nat.max_le, Nat.zero_add, Nat.add_zero, and_assoc]
    next =>
      rw [ih]
      simp only [modifyHead_cons, headD_cons, tail_cons, length_cons]
      rw [Nat.add_right_comm, Nat.add_assoc len]

theorem longest_le_iff (k : ℕ) {text : Bytes} :
    Nat.max (scanTable text 1 0 0).2.2 (scanTable text 1 0 0).2.1 ≤ k ↔
      ∀ word ∈ tableWords text, word.length ≤ k := by
  obtain ⟨word, words, hwords⟩ := exists_cons_of_ne_nil (tableWords_ne_nil text)
  rw [Nat.max_le, scanTable_le_iff, hwords, forall_mem_cons]
  simp

theorem tableSize_fits_iff (text : Bytes) (fs prec : ℕ) :
    (∀ word ∈ tableWords text, 0 ≤ padCount (tableSize text fs prec) word) ↔
      FitsTable text fs prec := by
  have hcount (size : ℕ) : (∀ word ∈ tableWords text, 0 ≤ padCount size word) ↔
      ∀ word ∈ tableWords text, word.length ≤ size := by
    simp only [padCount]
    refine forall₂_congr fun word _ ↦ ?_
    omega
  rw [hcount, FitsTable, tableSize, tablePrec]
  by_cases hprec : prec = 0
  · rw [if_neg (not_not.2 hprec), if_pos hprec]
    dsimp only
    rw [← longest_le_iff, ← longest_le_iff]
    generalize Nat.max (scanTable text 1 0 0).2.2 (scanTable text 1 0 0).2.1 = max
    split
    next hzero => rw [Nat.div_one]
    next hne =>
      -- there is room for two blanks behind the longest word
      have hle : max + 2 ≤ fs := Nat.le_of_not_lt fun hlt ↦ hne (Nat.div_eq_of_lt hlt)
      have hdiv : max + 2 ≤ fs / (fs / (max + 2)) :=
        (Nat.le_div_iff_mul_le (Nat.pos_of_ne_zero hne)).2 (Nat.mul_div_le fs (max + 2))
      omega
  · rw [if_pos hprec, if_neg hprec]

/-! ### When fields are filled -/

/-- What `add_justified` is to add: the string in its field, with as many characters as the field
has, or the string, unless padding behind the string is not asked for. -/
structure Fills (str padStr : CString) (past : Stop) (fs : BitVec 32) (finfo : FormatInfo)
    (trailing : Bool) (s : State) : Prop where
  run : addJustified str.bytes (.ofString padStr past) fs finfo trailing s =
    (some .unit, s.put (justified str.bytes padStr.bytes fs.toNat finfo trailing))
  length : trailing ∨ finfo &&& INFO_J ≠ INFO_J_LEFT ∧ finfo &&& INFO_J ≠ INFO_J_CENTRE →
    (justified str.bytes padStr.bytes fs.toNat finfo trailing).length =
      max fs.toNat str.bytes.length

/-- **When fields are filled**, and no column or table has a segment that is too long for its
field. -/
theorem justification_iff (str padStr : CString) (past : Stop) (fs : BitVec 32) (finfo : FormatInfo)
    (trailing : Bool) (s : State) (c : Cst) (p : Ptr) (text : Bytes) (width prec : ℕ) :
    (Fills str padStr past fs finfo trailing s ↔
      s.Room (justified str.bytes padStr.bytes fs.toNat finfo trailing) ∧
        CanPad str.bytes padStr.bytes fs.toNat finfo trailing) ∧
    (0 ≤ padCount c.size.toNat (s.segment p (columnBreak c.prec.toNat (s.bytes p))) ↔
      FitsColumn c.prec.toNat c.size.toNat (s.bytes p)) ∧
    (0 ≤ padCount c.size.toNat (s.segment p (restOfLine (s.bytes p)).length) ↔
      (restOfLine (s.bytes p)).length ≤ c.size.toNat) ∧
    ((∀ word ∈ tableWords text, 0 ≤ padCount (tableSize text width prec) word) ↔
      FitsTable text width prec) := by
  refine ⟨?_, ?_, ?_, tableSize_fits_iff text width prec⟩
  · rw [← @fills_iff s str padStr past]
    exact ⟨Fills.run, fun h ↦ ⟨h, length_justified⟩⟩
  · rw [padCount_segment (columnBreak_le_length _ _), columnBreak_le_iff]
  · exact padCount_segment le_rfl

/-- `abc` in the middle of a field of ten characters: with blanks as padding, the third test for a
backslash is behind the pad string. And a word of six characters in a column of precision ten does
not fit into a field of five. -/
theorem not_fills :
    ¬Fills ⟨[97, 98, 99], by decide⟩ ⟨[32], by decide⟩ .fault 10 INFO_J_CENTRE true .empty ∧
      ¬0 ≤ padCount 5 (columnSegment 10 [97, 98, 99, 100, 101, 102]) := by
  refine ⟨fun h ↦ ?_, by decide⟩
  have hpad := (fills_iff.1 h.run).2
  rw [CanPad, if_neg (by decide), if_pos (by decide)] at hpad
  have hread := (hpad (by decide)).2.1 2 (by decide)
  exact absurd hread (by decide)

end Lpmud.Sprintf
