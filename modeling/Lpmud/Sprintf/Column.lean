import Lpmud.Sprintf.Buffer

/-!
# Columns

In column mode a string is cut into segments that are not longer than the column is wide. A line is
broken at the last blank that is not too far to the right; a word that is longer than the column is
broken where the column ends. The character at which a line is broken is left out.

For a blank or the end of a line this loses nothing. Where a word is broken it loses a character of
the word (`lossless_iff`).
-/

namespace Lpmud.Sprintf

open List Option

/-- The rest of a line. -/
def restOfLine (text : Bytes) : Bytes :=
  text.takeWhile fun c ↦ c ≠ 0 ∧ c ≠ NEWLINE

/-- The first loop of `add_column`: the end of the line, if it is not too far to the right. -/
def lineEnd (prec : ℕ) (text : Bytes) : ℕ :=
  (restOfLine (text.take prec)).length

/-- The second loop of `add_column`, back to a blank. -/
def lastBlank (text : Bytes) : ℕ → ℕ
  | 0 => 0
  | done + 1 => if text.getD (done + 1) 0 = SPACE then done + 1 else lastBlank text done

/-- Where `add_column` ends the segment. -/
def columnBreak (prec : ℕ) (text : Bytes) : ℕ :=
  let done := lineEnd prec text
  if text.getD done 0 ≠ 0 ∧ text.getD done 0 ≠ NEWLINE then
    let save := done
    let done := lastBlank text done
    if done = 0 then save else done
  else done

/-- What `add_column` adds. -/
def columnSegment (prec : ℕ) (text : Bytes) : Bytes :=
  text.take (columnBreak prec text)

/-- What is to be printed of a column after it was broken: blanks are passed over, but not at the
beginning of a line. -/
def nextLine (c : UInt8) (rest : Bytes) : Bytes :=
  if c = NEWLINE then rest else rest.dropWhile (· = SPACE)

/-- The segments that a column is printed in, one for each call of `add_column`. -/
def columnSegments (prec : ℕ) : (fuel : ℕ) → Bytes → Option (List Bytes)
  | 0, _ => none
  | fuel + 1, text =>
    match text.drop (columnBreak prec text) with
    | [] | [_] => some [columnSegment prec text]
    | c :: rest => (columnSegments prec fuel (nextLine c rest)).map (columnSegment prec text :: ·)

/-- What a line may be broken at. -/
def Breaking (c : UInt8) : Prop :=
  c = SPACE ∨ c = NEWLINE

instance : DecidablePred Breaking := fun _ ↦ inferInstanceAs (Decidable (_ ∨ _))

/-- The text is the segments, with blanks and line ends between them. -/
inductive Rendered : List Bytes → Bytes → Prop where
  | nil : Rendered [] []
  | cons {seg gap text : Bytes} {segs : List Bytes} :
      (∀ c ∈ gap, Breaking c) → Rendered segs text → Rendered (seg :: segs) (seg ++ (gap ++ text))

/-- **A column that loses nothing**: the process ends, no segment is wider than the column, and the
segments are the text but for blanks and line ends between them. -/
def Lossless (prec : ℕ) (text : Bytes) : Prop :=
  ∃ segs, columnSegments prec (text.length + 1) text = some segs ∧ Rendered segs text ∧
    ∀ seg ∈ segs, seg.length ≤ prec

/-- What is behind these characters is at the beginning of a line. -/
def AtLineStart (before : Bytes) : Prop :=
  ∀ c, before.getLast? = some c → c = NEWLINE

/-- **Every line can be broken**: no word is longer than the column is wide, nor as long as the
column is wide and behind a single blank at the beginning of a line. -/
def Breakable (prec : ℕ) (text : Bytes) : Prop :=
  ∀ before c word behind, text = before ++ c :: (word ++ behind) → word.length = prec →
    (∀ x ∈ word, ¬Breaking x) → Breaking c ∧ ¬(c = SPACE ∧ AtLineStart before)

variable {prec : ℕ} {text : Bytes}

/-! ### Where a segment ends -/

theorem lastBlank_spec (text : Bytes) (n : ℕ) : lastBlank text n ≤ n ∧
    (lastBlank text n ≠ 0 → text.getD (lastBlank text n) 0 = SPACE) ∧
      ∀ i, lastBlank text n < i → i ≤ n → text.getD i 0 ≠ SPACE := by
  induction n with
  | zero => exact ⟨le_rfl, fun h ↦ absurd rfl h, fun i hpos hle ↦ absurd hpos (Nat.not_lt.2 hle)⟩
  | succ n ih =>
    rw [lastBlank]
    split
    next h => exact ⟨le_rfl, fun _ ↦ h, fun i hlt hle ↦ absurd hlt (Nat.not_lt.2 hle)⟩
    next h =>
      obtain ⟨hle, hblank, hall⟩ := ih
      refine ⟨Nat.le_succ_of_le hle, hblank, fun i hlt hle' ↦ ?_⟩
      rcases Nat.le_succ_iff.1 hle' with hle' | rfl
      · exact hall i hlt hle'
      · exact h

/-- The first loop stops at the end of the text, at the end of the line or at the end of the
column. -/
theorem lineEnd_cases (prec : ℕ) (hnul : 0 ∉ text) :
    ∃ line rest, text = line ++ rest ∧ lineEnd prec text = line.length ∧ line.length ≤ prec ∧
      NEWLINE ∉ line ∧ ∀ c ∈ rest.head?, c ≠ NEWLINE → line.length = prec := by
  induction text generalizing prec with
  | nil => exact ⟨[], [], rfl, by rw [lineEnd, take_nil]; rfl, Nat.zero_le _, nofun, nofun⟩
  | cons x text ih =>
    rw [mem_cons, not_or] at hnul
    cases prec with
    | zero => exact ⟨[], x :: text, rfl, rfl, le_rfl, nofun, fun _ _ _ ↦ rfl⟩
    | succ prec =>
      by_cases hx : x = NEWLINE
      · refine ⟨[], x :: text, rfl, ?_, Nat.zero_le _, nofun, fun c hc hne ↦ ?_⟩
        · rw [lineEnd, take_succ_cons, restOfLine, takeWhile_cons_of_neg (by simp [hx])]
        · rw [List.head?_cons, mem_some_iff] at hc
          exact absurd (hc ▸ hx) hne
      · obtain ⟨line, rest, rfl, hend, hle, hline, hrest⟩ := ih prec hnul.2
        refine ⟨x :: line, rest, rfl, ?_, Nat.succ_le_succ hle, ?_, fun c hc hne ↦ ?_⟩
        · rw [lineEnd, take_succ_cons, restOfLine,
            takeWhile_cons_of_pos (by simp [hx, Ne.symm hnul.1]), length_cons,
            length_cons]
          exact congrArg Nat.succ hend
        · rw [mem_cons, not_or]
          exact ⟨Ne.symm hx, hline⟩
        · exact congrArg Nat.succ (hrest c hc hne)

/-- **Where a segment ends**: at the end of the text, at the end of the line, at a blank, or at the
end of the column where there is none of these. -/
theorem columnBreak_cases (hprec : 0 < prec) (hnul : 0 ∉ text) :
    columnBreak prec text = text.length ∧ text.length ≤ prec ∧ NEWLINE ∉ text ∨
      ∃ seg c rest, text = seg ++ c :: rest ∧ columnBreak prec text = seg.length ∧
        seg.length ≤ prec ∧ NEWLINE ∉ seg ∧
          (c = NEWLINE ∨ c = SPACE ∧ seg ≠ [] ∨
            ¬Breaking c ∧ seg.length = prec ∧ SPACE ∉ seg.tail) := by
  obtain ⟨line, rest, rfl, hend, hle, hline, hrest⟩ := lineEnd_cases prec hnul
  rw [columnBreak, hend]
  cases rest with
  | nil =>
    rw [append_nil]
    have hnone : line.getD line.length 0 = 0 := by
      rw [getD_eq_getElem?_getD, List.getElem?_eq_none le_rfl]
      rfl
    rw [if_neg fun h ↦ h.1 hnone]
    exact .inl ⟨rfl, hle, hline⟩
  | cons c rest =>
    have hc : (line ++ c :: rest).getD line.length 0 = c := by
      rw [getD_eq_getElem?_getD, List.getElem?_append_right le_rfl, Nat.sub_self]
      rfl
    rw [hc]
    right
    by_cases hnl : c = NEWLINE
    · exact ⟨line, c, rest, rfl, if_neg fun h ↦ h.2 hnl, hle, hline, .inl hnl⟩
    · have hfull := hrest c rfl hnl
      have hc0 : c ≠ 0 := fun h ↦ hnul (mem_append_right _ (h ▸ mem_cons_self))
      rw [if_pos ⟨hc0, hnl⟩]
      obtain ⟨hle', hblank, hall⟩ := lastBlank_spec (line ++ c :: rest) line.length
      rcases Nat.eq_zero_or_pos (lastBlank (line ++ c :: rest) line.length) with hzero | hpos
      · rw [hzero] at hall
        refine ⟨line, c, rest, rfl, if_pos hzero, hle, hline, .inr (.inr ⟨?_, hfull, ?_⟩)⟩
        · rintro (hb | hb)
          · exact hall line.length (by omega) le_rfl (hc.trans hb)
          · exact hnl hb
        · intro hmem
          obtain ⟨i, hi⟩ := mem_iff_getElem?.1 hmem
          rw [List.getElem?_tail] at hi
          obtain ⟨hlt, -⟩ := List.getElem?_eq_some_iff.1 hi
          refine hall (i + 1) (Nat.succ_pos i) hlt.le ?_
          rw [getD_eq_getElem?_getD, List.getElem?_append_left hlt, hi]
          rfl
      · rw [if_neg (Nat.ne_of_gt hpos)]
        have hb := hblank (Nat.ne_of_gt hpos)
        generalize lastBlank (line ++ c :: rest) line.length = b at hpos hle' hb ⊢
        have hlt : b < (line ++ c :: rest).length := by
          rw [length_append, length_cons]
          omega
        rw [getD_eq_getElem?_getD, List.getElem?_eq_getElem hlt, getD_some] at hb
        have hlen : ((line ++ c :: rest).take b).length = b := length_take_of_le hlt.le
        refine ⟨(line ++ c :: rest).take b, SPACE, (line ++ c :: rest).drop (b + 1), ?_, hlen.symm,
          hlen.trans_le (hle'.trans hle), fun hmem ↦ hline ?_, .inr (.inl ⟨rfl, fun hnil ↦ ?_⟩)⟩
        · rw [← hb, getElem_cons_drop, take_append_drop]
        · rw [take_append_of_le_length hle'] at hmem
          exact mem_of_mem_take hmem
        · rw [hnil] at hlen
          exact Nat.ne_of_gt hpos hlen.symm

/-! ### The whole column -/

theorem exists_nextLine (c : UInt8) (rest : Bytes) :
    ∃ blanks, rest = blanks ++ nextLine c rest ∧ (∀ x ∈ blanks, x = SPACE) ∧
      (c = NEWLINE → blanks = []) ∧
        (c = NEWLINE ∨ ∀ x, (nextLine c rest).head? = some x → x ≠ SPACE) := by
  rw [nextLine]
  split
  next h => exact ⟨[], rfl, nofun, fun _ ↦ rfl, .inl h⟩
  next h =>
    refine ⟨rest.takeWhile (· = SPACE), takeWhile_append_dropWhile.symm, fun x hx ↦ ?_,
      fun hc ↦ absurd hc h, .inr fun x hx ↦ ?_⟩
    · simpa using mem_takeWhile_imp hx
    · have hnot := List.head?_dropWhile_not (· = SPACE) rest
      rw [hx] at hnot
      simpa using hnot

theorem not_mem_nextLine {seg rest : Bytes} {c : UInt8} (hnul : 0 ∉ seg ++ c :: rest) :
    0 ∉ nextLine c rest := by
  intro hmem
  obtain ⟨blanks, hrest, -⟩ := exists_nextLine c rest
  refine hnul (mem_append_right _ (mem_cons_of_mem _ ?_))
  rw [hrest]
  exact mem_append_right _ hmem

theorem columnSegments_end (h : columnBreak prec text = text.length) :
    columnSegments prec (fuel + 1) text = some [text] := by
  rw [columnSegments, columnSegment, h, drop_length, take_length]

theorem columnSegments_step {seg rest : Bytes} {c : UInt8}
    (h : columnBreak prec (seg ++ c :: rest) = seg.length) :
    columnSegments prec (fuel + 1) (seg ++ c :: rest) = if rest = [] then some [seg] else
      (columnSegments prec fuel (nextLine c rest)).map (seg :: ·) := by
  rw [columnSegments, columnSegment, h, drop_left, take_left]
  cases rest with
  | nil => rfl
  | cons x rest => rfl

/-- **The process ends**, and no segment is wider than the column. -/
theorem exists_columnSegments (hprec : 0 < prec) : ∀ {text fuel}, 0 ∉ text → text.length < fuel →
    ∃ segs, columnSegments prec fuel text = some segs ∧ ∀ seg ∈ segs, seg.length ≤ prec := by
  intro text fuel
  induction fuel generalizing text with
  | zero => exact fun _ h ↦ absurd h (Nat.not_lt_zero _)
  | succ fuel ih =>
    intro hnul hfuel
    rcases columnBreak_cases hprec hnul with ⟨hend, hle, -⟩ | ⟨seg, c, rest, rfl, hend, hle, -⟩
    · exact ⟨[text], columnSegments_end hend, fun seg hseg ↦ mem_singleton.1 hseg ▸ hle⟩
    · rw [columnSegments_step hend]
      split
      next => exact ⟨[seg], rfl, fun _ hseg ↦ mem_singleton.1 hseg ▸ hle⟩
      next =>
        obtain ⟨blanks, hrest, -⟩ := exists_nextLine c rest
        have hnul' := not_mem_nextLine hnul
        have hlen := congrArg List.length hrest
        rw [length_append] at hlen hfuel
        rw [length_cons] at hfuel
        obtain ⟨segs, hsegs, hall⟩ := ih hnul' (by omega)
        rw [hsegs]
        exact ⟨seg :: segs, rfl, forall_mem_cons.2 ⟨hle, hall⟩⟩

/-- The rest of a text can be broken, behind what is in front of it. -/
def BreakableFrom (prec : ℕ) (front text : Bytes) : Prop :=
  ∀ before c word behind, text = before ++ c :: (word ++ behind) → word.length = prec →
    (∀ x ∈ word, ¬Breaking x) → Breaking c ∧ ¬(c = SPACE ∧ AtLineStart (front ++ before))

/-- Where a segment begins: at the beginning of a line, or not at a blank. -/
def SegmentStart (front text : Bytes) : Prop :=
  AtLineStart front ∨ ∀ x, text.head? = some x → x ≠ SPACE

theorem atLineStart_concat {front : Bytes} {c : UInt8} :
    AtLineStart (front ++ [c]) ↔ c = NEWLINE := by
  rw [AtLineStart, List.getLast?_concat]
  exact ⟨fun h ↦ h c rfl, fun h x hx ↦ some.inj hx ▸ h⟩

theorem not_atLineStart {front l : Bytes} (hne : l ≠ []) (hnl : NEWLINE ∉ l) :
    ¬AtLineStart (front ++ l) := by
  intro h
  have hlast := h (l.getLast hne) (by
    rw [List.getLast?_append, List.getLast?_eq_some_getLast hne, some_or])
  exact hnl (hlast ▸ getLast_mem hne)

theorem segmentStart_nextLine (front seg : Bytes) {blanks rest : Bytes} {c : UInt8}
    (hnone : c = NEWLINE → blanks = [])
    (hstart : c = NEWLINE ∨ ∀ x, (nextLine c rest).head? = some x → x ≠ SPACE) :
    SegmentStart (front ++ (seg ++ c :: blanks)) (nextLine c rest) := by
  refine hstart.imp (fun hc ↦ ?_) id
  rw [hnone hc, ← append_assoc]
  exact atLineStart_concat.2 hc

theorem not_breakableFrom {front seg rest : Bytes} {c : UInt8} (hprec : 0 < prec)
    (hstart : SegmentStart front (seg ++ c :: rest)) (hnl : NEWLINE ∉ seg) (hc : ¬Breaking c)
    (hlen : seg.length = prec) (htail : SPACE ∉ seg.tail) :
    ¬BreakableFrom prec front (seg ++ c :: rest) := by
  intro hbreak
  obtain ⟨x, word, rfl⟩ : ∃ x word, seg = x :: word :=
    exists_cons_of_length_pos (hlen ▸ hprec)
  rw [mem_cons, not_or] at hnl
  obtain ⟨hx, hblank⟩ := hbreak [] x (word ++ [c]) rest (by simp) (by simpa using hlen) (by
    intro y hy
    rcases mem_append.1 hy with hy | hy
    · rintro (rfl | rfl)
      · exact htail hy
      · exact hnl.2 hy
    · exact mem_singleton.1 hy ▸ hc)
  rw [append_nil] at hblank
  have hspace : x = SPACE := hx.resolve_right (Ne.symm hnl.1)
  rcases hstart with hstart | hstart
  · exact hblank ⟨hspace, hstart⟩
  · exact hstart x rfl hspace

theorem BreakableFrom.rest {front seg text : Bytes}
    (h : BreakableFrom prec front (seg ++ text)) : BreakableFrom prec (front ++ seg) text := by
  intro before c word behind htext
  rw [append_assoc]
  exact h (seg ++ before) c word behind (by rw [htext, append_assoc])

/-- **A text that can be broken** is rendered. -/
theorem rendered_of_breakable (hprec : 0 < prec) : ∀ {front text segs}, 0 ∉ text →
    SegmentStart front text → BreakableFrom prec front text →
      columnSegments prec fuel text = some segs → Rendered segs text := by
  induction fuel with
  | zero => exact fun _ _ _ h ↦ nomatch h
  | succ fuel ih =>
    intro front text segs hnul hstart hbreak hsegs
    rcases columnBreak_cases hprec hnul with ⟨hend, -⟩ | ⟨seg, c, rest, rfl, hend, -, hnl, hcase⟩
    · rw [columnSegments_end hend] at hsegs
      obtain rfl := some.inj hsegs
      have hself : Rendered [text] (text ++ ([] ++ [])) := .cons nofun .nil
      rwa [append_nil, append_nil] at hself
    · have hc : Breaking c := by
        rcases hcase with hc | ⟨hc, -⟩ | ⟨hc, hlen, htail⟩
        · exact .inr hc
        · exact .inl hc
        · exact absurd hbreak (not_breakableFrom hprec hstart hnl hc hlen htail)
      rw [columnSegments_step hend] at hsegs
      obtain ⟨blanks, hrest, hblanks, hnone, hnext⟩ := exists_nextLine c rest
      split at hsegs
      next hnil =>
        obtain rfl := some.inj hsegs
        subst hnil
        have hself : Rendered [seg] (seg ++ ([c] ++ [])) :=
          .cons (fun x hx ↦ mem_singleton.1 hx ▸ hc) .nil
        exact hself
      next =>
        obtain ⟨segs, hsegs', rfl⟩ := map_eq_some_iff.1 hsegs
        have hnul' := not_mem_nextLine hnul
        have htail : Rendered segs (nextLine c rest) := by
          refine ih hnul' (segmentStart_nextLine front seg hnone hnext) (.rest ?_) hsegs'
          rwa [append_assoc, cons_append, ← hrest]
        have hself : Rendered (seg :: segs) (seg ++ ((c :: blanks) ++ nextLine c rest)) :=
          .cons (forall_mem_cons.2 ⟨hc, fun x hx ↦ .inl (hblanks x hx)⟩) htail
        rwa [cons_append, ← hrest] at hself

/-- The characters of words. -/
def wordChars (text : Bytes) : ℕ :=
  text.countP fun c ↦ ¬Breaking c

@[simp]
theorem wordChars_append (s t : Bytes) : wordChars (s ++ t) = wordChars s + wordChars t :=
  countP_append

theorem wordChars_cons (c : UInt8) (text : Bytes) :
    wordChars (c :: text) = wordChars text + if Breaking c then 0 else 1 := by
  rw [wordChars, countP_cons, wordChars]
  by_cases hc : Breaking c <;> simp [hc]

theorem wordChars_eq_zero (h : ∀ c ∈ text, Breaking c) : wordChars text = 0 :=
  countP_eq_zero.2 fun c hc ↦ by simpa using h c hc

theorem Rendered.wordChars_eq {segs : List Bytes} (h : Rendered segs text) :
    wordChars segs.flatten = wordChars text := by
  induction h with
  | nil => rfl
  | cons hgap _ ih =>
    rw [flatten_cons, wordChars_append, wordChars_append, wordChars_append, ih,
      wordChars_eq_zero hgap, Nat.zero_add]

/-- Behind a segment that ends at a blank or at the end of a line the text can be broken if what is
left of it can. -/
theorem breakableFrom_of_rest {front seg blanks text : Bytes} {c : UInt8} (hc : Breaking c)
    (hlen : seg.length ≤ prec) (hnl : NEWLINE ∉ seg) (hseg : c = SPACE → seg ≠ [])
    (hblanks : ∀ x ∈ blanks, x = SPACE) (hnone : c = NEWLINE → blanks = [])
    (h : BreakableFrom prec (front ++ (seg ++ c :: blanks)) text) :
    BreakableFrom prec front (seg ++ c :: (blanks ++ text)) := by
  intro before x word behind htext hword hvisible
  -- the character is the one at which the segment ends
  have hend : seg = before → x = c → Breaking x ∧ ¬(x = SPACE ∧ AtLineStart (front ++ before)) := by
    rintro rfl rfl
    exact ⟨hc, fun ⟨hx, hline⟩ ↦ not_atLineStart (hseg hx) hnl hline⟩
  rcases append_eq_append_iff.1 htext with ⟨mid, rfl, hmid⟩ | ⟨mid, rfl, hmid⟩
  · cases mid with
    | nil => exact hend (append_nil seg).symm (List.cons.inj hmid).1.symm
    | cons y mid =>
      obtain ⟨rfl, hrest⟩ := List.cons.inj hmid
      rcases append_eq_append_iff.1 hrest with ⟨mid', rfl, hmid'⟩ | ⟨mid', rfl, hmid'⟩
      · have htail := h mid' x word behind hmid' hword hvisible
        rwa [append_assoc, append_assoc, cons_append] at htail
      · cases mid' with
        | nil =>
          have htail := h [] x word behind hmid'.symm hword hvisible
          rwa [append_nil, append_nil] at htail
        | cons z mid' =>
          -- the character is a blank that is passed over
          obtain ⟨rfl, -⟩ := List.cons.inj hmid'
          have hx := hblanks x (mem_append_right _ mem_cons_self)
          have hc' : c ≠ NEWLINE := fun hc ↦
            append_ne_nil_of_right_ne_nil mid (cons_ne_nil x mid') (hnone hc)
          refine ⟨.inl hx, fun ⟨_, hline⟩ ↦ not_atLineStart (by simp) ?_ hline⟩
          rw [mem_append, mem_cons, not_or, not_or]
          refine ⟨hnl, hc'.symm, fun hmem ↦ ?_⟩
          exact absurd (hblanks _ (mem_append_left _ hmem)) (by decide)
  · cases mid with
    | nil => exact hend (append_nil before) (List.cons.inj hmid).1
    | cons y mid =>
      -- the segment ends in the word
      obtain ⟨rfl, hrest⟩ := List.cons.inj hmid
      rw [length_append, length_cons] at hlen
      rcases append_eq_append_iff.1 hrest with ⟨mid', rfl, -⟩ | ⟨mid', rfl, hmid'⟩
      · rw [length_append] at hlen
        omega
      · cases mid' with
        | nil =>
          rw [append_nil] at hword
          omega
        | cons z mid' =>
          obtain ⟨rfl, -⟩ := List.cons.inj hmid'
          exact absurd hc (hvisible c (mem_append_right _ mem_cons_self))

/-- **Every word that is broken loses a character**: if all of them are there, the text can be
broken. -/
theorem breakable_of_wordChars (hprec : 0 < prec) : ∀ {front text segs}, 0 ∉ text →
    SegmentStart front text → columnSegments prec fuel text = some segs →
      wordChars segs.flatten ≤ wordChars text ∧
        (wordChars text ≤ wordChars segs.flatten → BreakableFrom prec front text) := by
  induction fuel with
  | zero => exact fun _ _ h ↦ nomatch h
  | succ fuel ih =>
    intro front text segs hnul hstart hsegs
    rcases columnBreak_cases hprec hnul with
      ⟨hend, hle, -⟩ | ⟨seg, c, rest, rfl, hend, hle, hnl, hcase⟩
    · rw [columnSegments_end hend] at hsegs
      obtain rfl := some.inj hsegs
      rw [flatten_singleton]
      refine ⟨le_rfl, fun _ before c word behind htext hword _ ↦ ?_⟩
      -- the whole text is in the column
      have hlen := congrArg List.length htext
      rw [length_append, length_cons, length_append] at hlen
      omega
    · obtain ⟨blanks, hrest, hblanks, hnone, hnext⟩ := exists_nextLine c rest
      rw [columnSegments_step hend] at hsegs
      -- what comes behind the segment
      obtain ⟨segs', hsegs', hle', hback⟩ : ∃ segs', segs = seg :: segs' ∧
          wordChars segs'.flatten ≤ wordChars rest ∧
          (wordChars rest ≤ wordChars segs'.flatten →
            BreakableFrom prec (front ++ (seg ++ c :: blanks)) (nextLine c rest)) := by
        split at hsegs
        next hnil =>
          subst hnil
          refine ⟨[], (some.inj hsegs).symm, le_rfl, fun _ before x word behind htext ↦ ?_⟩
          have hnext : nextLine c [] = [] := ite_self _
          rw [hnext] at htext
          exact absurd htext.symm (append_ne_nil_of_right_ne_nil before (cons_ne_nil _ _))
        next =>
          obtain ⟨segs', hsegs', rfl⟩ := map_eq_some_iff.1 hsegs
          have hnul' := not_mem_nextLine hnul
          have hchars := congrArg wordChars hrest
          rw [wordChars_append, wordChars_eq_zero fun x hx ↦ .inl (hblanks x hx),
            Nat.zero_add] at hchars
          rw [hchars]
          exact ⟨segs', rfl, ih hnul' (segmentStart_nextLine front seg hnone hnext) hsegs'⟩
      subst hsegs'
      rw [flatten_cons, wordChars_append, wordChars_append, wordChars_cons]
      by_cases hc : Breaking c
      · rw [if_pos hc]
        refine ⟨by omega, fun hge ↦ ?_⟩
        have hseg : c = SPACE → seg ≠ [] := by
          rintro rfl
          rcases hcase with hcase | hcase | hcase
          · exact absurd hcase (by decide)
          · exact hcase.2
          · exact absurd hc hcase.1
        have hbreak := breakableFrom_of_rest hc hle hnl hseg hblanks hnone (hback (by omega))
        rwa [← hrest] at hbreak
      · rw [if_neg hc]
        exact ⟨by omega, fun hge ↦ by omega⟩

/-- **When a column loses nothing.** -/
theorem lossless_iff (hprec : 0 < prec) (str : CString) :
    Lossless prec str.bytes ↔ Breakable prec str.bytes := by
  have hstart : SegmentStart [] str.bytes := .inl nofun
  constructor
  · rintro ⟨segs, hsegs, hrendered, -⟩
    exact (breakable_of_wordChars hprec str.noNul hstart hsegs).2 hrendered.wordChars_eq.ge
  · intro hbreak
    obtain ⟨segs, hsegs, hle⟩ :=
      exists_columnSegments hprec str.noNul (Nat.lt_succ_self str.bytes.length)
    exact ⟨segs, hsegs, rendered_of_breakable hprec str.noNul hstart hbreak hsegs, hle⟩

/-- Two words in a column of width three. -/
theorem lossless_iff_words : 0 < 3 ∧ (Lossless 3 [97, 98, 32, 99] ↔ Breakable 3 [97, 98, 32, 99]) :=
  ⟨by decide, lossless_iff (by decide) ⟨[97, 98, 32, 99], by decide⟩⟩

/-- `abcdef` in a column of width three is printed as `abc` and `ef`. -/
theorem not_lossless : ¬Lossless 3 [97, 98, 99, 100, 101, 102] := by
  rintro ⟨segs, hsegs, hrendered, -⟩
  have hrun : columnSegments 3 7 [97, 98, 99, 100, 101, 102] = some [[97, 98, 99], [101, 102]] := by
    decide
  obtain rfl := some.inj (hrun.symm.trans hsegs)
  exact absurd hrendered.wordChars_eq (by decide)

end Lpmud.Sprintf
