import Lpmud.Lib.Ragged
import Lpmud.Sprintf.Walk

/-!
# Tables

In table mode the words of a list, one in each line, are printed in columns. How many columns there
are to be is given, or follows from the longest word; how many words are in a column follows from
that, and then there may be fewer columns that have any. The list is cut into columns where it is,
with a NUL behind each of them but the last, and then printed row by row.

A row ends at the first column that is at its end, and the table is completed when the first column
is. A column is taken to be at its end when there is a NUL behind the line end of a word: an empty
word that is the last one of its column is not printed, and neither are the words of its row in the
columns to the right. The number of columns is kept in 16 bits. Apart from this all words are
printed, each of them once (`laysOut_iff`).
-/

namespace Lpmud.Sprintf

open List Abortable Ragged

/-! ### The words of a list -/

/-- A line end behind the last word is not the beginning of another one. -/
def trimWords (words : List Bytes) : List Bytes :=
  if 1 < words.length ∧ words.getLast? = some [] then words.dropLast else words

/-- The words of a list. -/
def listWords (text : Bytes) : List Bytes :=
  trimWords (tableWords text)

variable {text : Bytes} {word : Bytes} {words : List Bytes}

theorem tableWords_eq_singleton_nil_iff : tableWords text = [[]] ↔ text = [] := by
  cases text with
  | nil => simp [tableWords]
  | cons c text =>
    obtain ⟨word, words, hwords⟩ := exists_cons_of_ne_nil (tableWords_ne_nil text)
    rw [tableWords_cons, hwords]
    split <;> simp

theorem trimWords_cons (hnil : words ≠ []) (hwords : words ≠ [[]]) :
    trimWords (word :: words) = word :: trimWords words := by
  obtain ⟨w, ws, rfl⟩ := exists_cons_of_ne_nil hnil
  rw [trimWords, trimWords, List.getLast?_cons_cons, dropLast_cons_cons]
  cases ws with
  | nil =>
    have hne : w ≠ [] := fun hw ↦ hwords (by rw [hw])
    simp [hne]
  | cons w' ws =>
    rw [length_cons, length_cons, length_cons]
    split
    next h => rw [if_pos ⟨by omega, h.2⟩]
    next h => rw [if_neg fun h' ↦ h ⟨by omega, h'.2⟩]

theorem trimWords_sublist (words : List Bytes) : (trimWords words).Sublist words := by
  rw [trimWords]
  split
  next => exact dropLast_sublist words
  next => exact List.Sublist.refl words

theorem length_trimWords_le (words : List Bytes) :
    (trimWords words).length ≤ words.length :=
  (trimWords_sublist words).length_le

theorem trimWords_ne_nil (hnil : words ≠ []) : trimWords words ≠ [] := by
  rw [trimWords]
  split
  next h =>
    refine ne_nil_of_length_pos ?_
    rw [length_dropLast]
    omega
  next => exact hnil

theorem listWords_ne_nil (text : Bytes) : listWords text ≠ [] :=
  trimWords_ne_nil (tableWords_ne_nil text)

theorem length_trimWords_modifyHead (c : UInt8) (words : List Bytes) :
    (trimWords (words.modifyHead (c :: ·))).length =
      if words.length = 1 then 1 else (trimWords words).length := by
  match words with
  | [] => rfl
  | [_] => rfl
  | w :: w' :: ws =>
    have hne : ¬(w :: w' :: ws).length = 1 := by simp
    rw [modifyHead_cons, if_neg hne, trimWords, trimWords]
    simp only [length_cons, List.getLast?_cons_cons, dropLast_cons_cons]
    split <;> rfl

theorem scanTable_fst : ∀ {text : Bytes} {n len max : ℕ},
    (scanTable text n len max).1 + 1 = n + (listWords text).length
  | [], n, len, max => rfl
  | c :: text, n, len, max => by
    rw [scanTable, listWords, tableWords_cons]
    obtain rfl | hc := eq_or_ne c NEWLINE
    · rw [if_pos rfl, if_pos rfl]
      obtain rfl | htext := eq_or_ne text []
      · rfl
      · rw [if_neg htext, scanTable_fst, trimWords_cons (tableWords_ne_nil text)
          (mt tableWords_eq_singleton_nil_iff.1 htext), length_cons, listWords]
        omega
    · rw [if_neg hc, if_neg hc, scanTable_fst, length_trimWords_modifyHead, listWords]
      split
      next hone =>
        have hle := length_trimWords_le (tableWords text)
        have hpos := length_pos_of_ne_nil (listWords_ne_nil text)
        rw [listWords] at hpos
        omega
      next => rfl

/-! ### The columns -/

/-- The columns of a list, cut behind every `len` words. There are `cols` columns still to begin,
and `n` words in the column so far. -/
def tableColumns (len : ℕ) : (cols n : ℕ) → Bytes → List Bytes
  | 0, _, text => [text]
  | _ + 1, _, [] => [[]]
  | cols + 1, n, c :: text =>
    if c ≠ NEWLINE then (tableColumns len (cols + 1) n text).modifyHead (c :: ·)
    else if n + 1 ≥ len then [] :: tableColumns len cols 0 text
    else (tableColumns len (cols + 1) (n + 1) text).modifyHead (c :: ·)

theorem map_tableWords_modifyHead {c : UInt8} (hc : c ≠ NEWLINE) (cols : List Bytes) :
    (cols.modifyHead (c :: ·)).map tableWords =
      (cols.map tableWords).modifyHead fun words ↦ words.modifyHead (c :: ·) := by
  cases cols with
  | nil => rfl
  | cons col cols =>
    rw [modifyHead_cons, map_cons, map_cons, modifyHead_cons, tableWords_cons,
      if_neg hc]

theorem map_tableWords_modifyHead_newline (cols : List Bytes) :
    (cols.modifyHead (NEWLINE :: ·)).map tableWords =
      (cols.map tableWords).modifyHead ([] :: ·) := by
  cases cols with
  | nil => rfl
  | cons col cols =>
    rw [modifyHead_cons, map_cons, map_cons, modifyHead_cons, tableWords_cons,
      if_pos rfl]

theorem cut_modifyHead (len cols : ℕ) {first : ℕ} (hfirst : 0 < first) (c : UInt8)
    (words : List Bytes) :
    cut len cols first (words.modifyHead (c :: ·)) =
      (cut len cols first words).modifyHead fun words ↦ words.modifyHead (c :: ·) := by
  cases cols with
  | zero => rfl
  | succ cols =>
    obtain ⟨k, rfl⟩ := Nat.exists_eq_add_one.2 hfirst
    cases words with
    | nil => rfl
    | cons word words =>
      rw [modifyHead_cons, cut, cut, length_cons, length_cons]
      split
      next => rfl
      next => rfl

/-- **The columns have the words of the list**, `len` of them each. -/
theorem map_tableWords_tableColumns {len : ℕ} : ∀ {cols n : ℕ} {text : Bytes}, n < len →
    (tableColumns len cols n text).map tableWords = cut len cols (len - n) (tableWords text)
  | 0, n, text, _ => by rw [tableColumns, cut, map_singleton]
  | cols + 1, n, [], hn => by
    have hle : (tableWords []).length ≤ len - n := by
      show 1 ≤ len - n
      omega
    rw [tableColumns, cut, if_pos hle, map_singleton]
  | cols + 1, n, c :: text, hn => by
    rw [tableColumns, tableWords_cons]
    obtain rfl | hc := eq_or_ne c NEWLINE
    · rw [if_neg (not_not.2 rfl), if_pos rfl, cut, length_cons]
      have hpos := length_pos_of_ne_nil (tableWords_ne_nil text)
      split
      next hge =>
        obtain hfirst : len - n = 1 := by omega
        have hlong : ¬(tableWords text).length + 1 ≤ 1 := by omega
        rw [hfirst, if_neg hlong, map_cons, map_tableWords_tableColumns (by omega),
          Nat.sub_zero]
        rfl
      next hlt =>
        obtain ⟨k, hk⟩ : ∃ k, len - n = k + 1 := ⟨len - n - 1, by omega⟩
        have hk' : len - (n + 1) = k := by omega
        rw [map_tableWords_modifyHead_newline, map_tableWords_tableColumns (by omega), hk, hk', cut]
        obtain hle | hlong := le_or_gt (tableWords text).length k
        · rw [if_pos hle, if_pos (Nat.succ_le_succ hle)]
          rfl
        · rw [if_neg (Nat.not_le.2 hlong), if_neg (Nat.not_le.2 (Nat.succ_lt_succ hlong))]
          rfl
    · rw [if_pos hc, if_neg hc, map_tableWords_modifyHead hc, map_tableWords_tableColumns hn,
        cut_modifyHead len _ (by omega)]

theorem tableShape_spec {n prec : ℕ} (hn : 0 < n) (hprec : 0 < prec) :
    0 < (tableShape n prec).1 ∧ 0 < (tableShape n prec).2 ∧
      ((tableShape n prec).2 - 1) * (tableShape n prec).1 < n ∧
      n ≤ (tableShape n prec).2 * (tableShape n prec).1 := by
  have hdiv := Nat.div_add_mod n prec
  have hmod := Nat.mod_lt n hprec
  rw [tableShape]
  dsimp only
  generalize hq : n / prec = q at hdiv
  obtain hlt | hle := Nat.lt_or_ge n prec
  · -- one word in each column
    rw [Nat.div_eq_of_lt hlt] at hq
    subst hq
    rw [if_pos hlt, Nat.zero_mul, if_pos hn, if_neg (by omega)]
    omega
  · have hq0 : 0 < q := hq ▸ Nat.div_pos hle hprec
    rw [if_neg (Nat.not_lt.2 hle), Nat.mul_comm q]
    obtain hr | hr := Nat.eq_zero_or_pos (n % prec)
    · -- the columns are all full
      rw [if_neg (by omega), if_neg fun h ↦ h.2 hr]
      rw [Nat.sub_mul, Nat.one_mul]
      have hle' : q ≤ prec * q := Nat.le_mul_of_pos_left q hprec
      omega
    · rw [if_pos (by omega), if_pos ⟨by omega, Nat.ne_of_gt hr⟩]
      -- as many columns are left out as would be empty
      have hfull := Nat.div_mul_le_self (prec - n % prec) (q + 1)
      have hnext : prec - n % prec < (q + 1) * ((prec - n % prec) / (q + 1) + 1) :=
        Nat.lt_mul_div_succ (prec - n % prec) (Nat.succ_pos q)
      have hfew := Nat.div_le_self (prec - n % prec) (q + 1)
      generalize (prec - n % prec) / (q + 1) = e at hfull hnext hfew
      have hall : prec * (q + 1) = prec * q + prec := Nat.mul_succ prec q
      rw [Nat.mul_comm, Nat.succ_mul] at hnext
      rw [Nat.sub_mul, Nat.sub_mul, Nat.one_mul]
      refine ⟨Nat.succ_pos q, by omega, ?_, ?_⟩ <;> omega

/-! ### Rows -/

/-- Where a column goes on below its first word, if it does: not if there is a NUL behind the word,
or behind the character that the word ends at. -/
def nextCell (text : Bytes) : Option Bytes :=
  match text.drop (restOfLine text).length with
  | [] | [_] => none
  | _ :: text => some text

/-- A row: the words that `add_table` prints, and what is left of the columns. -/
def tableRow : (nocols : ℕ) → List (Option Bytes) →
    List Bytes × List (Option Bytes)
  | nocols + 1, some text :: tab =>
    let (row, tab) := tableRow nocols tab
    (restOfLine text :: row, nextCell text :: tab)
  | _, tab => ([], tab)

/-- The rows that are printed until the table is completed. -/
def tableRows (nocols : ℕ) : (fuel : ℕ) → List (Option Bytes) →
    Option (List (List Bytes))
  | 0, _ => none
  | fuel + 1, tab =>
    match tableRow nocols tab with
    | (row, some text :: tab) => (tableRows nocols fuel (some text :: tab)).map (row :: ·)
    | (row, _) => some [row]

/-- The words of a column that are printed. -/
def cellWords (entry : Option Bytes) : List Bytes :=
  entry.elim [] listWords

theorem tableWords_append_newline {line rest : Bytes} (hline : NEWLINE ∉ line) :
    tableWords (line ++ NEWLINE :: rest) = line :: tableWords rest := by
  induction line with
  | nil => rw [nil_append, tableWords_cons, if_pos rfl]
  | cons c line ih =>
    rw [mem_cons, not_or] at hline
    rw [cons_append, tableWords_cons, if_neg (Ne.symm hline.1), ih hline.2,
      modifyHead_cons]

theorem tableWords_of_not_mem {line : Bytes} (hline : NEWLINE ∉ line) :
    tableWords line = [line] := by
  induction line with
  | nil => rfl
  | cons c line ih =>
    rw [mem_cons, not_or] at hline
    rw [tableWords_cons, if_neg (Ne.symm hline.1), ih hline.2, modifyHead_cons]

theorem line_cases (hnul : 0 ∉ text) : NEWLINE ∉ restOfLine text ∧
    (text = restOfLine text ∨ ∃ rest, text = restOfLine text ++ NEWLINE :: rest) := by
  induction text with
  | nil => exact ⟨nofun, .inl rfl⟩
  | cons c text ih =>
    rw [mem_cons, not_or] at hnul
    obtain ⟨hline, htext⟩ := ih hnul.2
    rw [restOfLine_cons]
    obtain rfl | hc := eq_or_ne c NEWLINE
    · rw [if_neg fun h ↦ h.2 rfl]
      exact ⟨nofun, .inr ⟨text, rfl⟩⟩
    · rw [if_pos ⟨Ne.symm hnul.1, hc⟩, mem_cons, not_or]
      refine ⟨⟨hc.symm, hline⟩, ?_⟩
      exact htext.imp (congrArg (c :: ·)) fun ⟨rest, hrest⟩ ↦ ⟨rest, congrArg (c :: ·) hrest⟩

/-- **A column goes on with its other words.** -/
theorem listWords_eq (hnul : 0 ∉ text) :
    listWords text = restOfLine text :: cellWords (nextCell text) := by
  obtain ⟨hline, htext⟩ := line_cases hnul
  rw [nextCell, listWords]
  generalize restOfLine text = line at hline htext
  obtain rfl | ⟨rest, rfl⟩ := htext
  · rw [drop_length, tableWords_of_not_mem hline]
    rfl
  · rw [drop_left, tableWords_append_newline hline]
    cases rest with
    | nil => rfl
    | cons c rest =>
      exact trimWords_cons (tableWords_ne_nil _)
        (mt tableWords_eq_singleton_nil_iff.1 (cons_ne_nil c rest))

/-- The columns of a table are strings. -/
def NoNuls (tab : List (Option Bytes)) : Prop :=
  ∀ text, some text ∈ tab → 0 ∉ text

theorem not_mem_nextCell {text' : Bytes} (hnul : 0 ∉ text) (h : nextCell text = some text') :
    0 ∉ text' := by
  rw [nextCell] at h
  split at h
  next => exact nomatch h
  next => exact nomatch h
  next c text'' _ hdrop =>
    obtain rfl := Option.some.inj h
    exact fun hmem ↦ hnul (mem_of_mem_drop (hdrop ▸ mem_cons_of_mem c hmem))

/-- **A row of a table** is one of its words: as many columns are looked at as there are to be. -/
theorem tableRow_spec : ∀ {nocols : ℕ} {tab : List (Option Bytes)}, NoNuls tab →
    (tableRow nocols tab).1 = cells ((tab.map cellWords).take nocols) ∧
      (tableRow nocols tab).2.map cellWords =
        below ((tab.map cellWords).take nocols) ++ (tab.map cellWords).drop nocols ∧
      NoNuls (tableRow nocols tab).2
  | 0, tab, hnul => ⟨by cases tab <;> rfl, by cases tab <;> rfl, by cases tab <;> exact hnul⟩
  | nocols + 1, [], hnul => ⟨rfl, rfl, hnul⟩
  | nocols + 1, none :: tab, hnul => ⟨rfl, by
      show [] :: tab.map cellWords =
        [] :: ((tab.map cellWords).take nocols ++ (tab.map cellWords).drop nocols)
      rw [take_append_drop], hnul⟩
  | nocols + 1, some text :: tab, hnul => by
    have htext := hnul text mem_cons_self
    have htab : NoNuls tab := fun text' h ↦ hnul text' (mem_cons_of_mem _ h)
    obtain ⟨hrow, hleft, hnuls⟩ := @tableRow_spec nocols tab htab
    have hcell : cellWords (some text) = restOfLine text :: cellWords (nextCell text) :=
      listWords_eq htext
    rw [tableRow, map_cons, take_succ_cons, drop_succ_cons, hcell]
    dsimp only
    refine ⟨congrArg (restOfLine text :: ·) hrow, ?_, fun text' h ↦ ?_⟩
    · rw [map_cons, hleft]
      rfl
    · obtain h | h := mem_cons.1 h
      · exact not_mem_nextCell htext h.symm
      · exact hnuls text' h

/-- **The rows of a table** are those of its words. -/
theorem tableRows_eq {nocols : ℕ} (fuel : ℕ) : ∀ {tab : List (Option Bytes)},
    NoNuls tab → tableRows (nocols + 1) fuel tab =
      rows fuel ((tab.map cellWords).take (nocols + 1)) := by
  induction fuel with
  | zero => exact fun _ ↦ rfl
  | succ fuel ih =>
    intro tab hnul
    obtain ⟨hrow, hleft, hnuls⟩ := @tableRow_spec (nocols + 1) tab hnul
    have htake := take_below_append_drop (nocols + 1) (tab.map cellWords)
    rw [tableRows, rows, ← hrow]
    generalize tableRow (nocols + 1) tab = r at hrow hleft hnuls
    obtain ⟨row, left⟩ := r
    dsimp only at hrow hleft hnuls ⊢
    -- The first column is at its end if it has no words left.
    have hend (hhead : (left.map cellWords).headD [] = []) :
        (below ((tab.map cellWords).take (nocols + 1))).headD [] = [] := by
      rw [hleft] at hhead
      cases hbelow : below ((tab.map cellWords).take (nocols + 1)) with
      | nil => rfl
      | cons col cols =>
        rw [hbelow] at hhead
        exact hhead
    rcases left with - | ⟨- | text, left⟩
    · exact (if_pos (hend rfl)).symm
    · exact (if_pos (hend rfl)).symm
    · have hne : (below ((tab.map cellWords).take (nocols + 1))).headD [] ≠ [] := by
        rw [← htake, ← hleft]
        exact listWords_ne_nil text
      dsimp only
      rw [if_neg hne, ih hnuls, hleft, htake]

theorem tableRows_zero (fuel : ℕ) (tab : List (Option Bytes)) :
    tableRows 0 fuel (some text :: tab) = none := by
  induction fuel with
  | zero => rfl
  | succ fuel ih =>
    show (tableRows 0 fuel (some text :: tab)).map ([] :: ·) = none
    rw [ih, Option.map_none]

/-! ### All words once -/

/-- How many words are in a column of a table, and how many columns there are. -/
def tableDims (text : Bytes) (fs prec : ℕ) : ℕ × ℕ :=
  tableShape (scanTable text 1 0 0).1 (tablePrec text fs prec)

/-- The columns that a table begins with. -/
def tableLayout (text : Bytes) (fs prec : ℕ) : List Bytes :=
  tableColumns (tableDims text fs prec).1 ((tableDims text fs prec).2 - 1) 0 text

/-- **A table shows a list**: all columns that there is an entry for are set, they have the words
of the list in their order, all but the last as many as are to be in a column, and each word is
printed once before the table is completed. -/
structure LaysOut (text : Bytes) (fs prec : ℕ) : Prop where
  initialised : (tableLayout text fs prec).length = (tableDims text fs prec).2
  assigned : ((tableLayout text fs prec).map tableWords).flatten = tableWords text
  full : ∀ col ∈ (tableLayout text fs prec).dropLast,
    (tableWords col).length = (tableDims text fs prec).1
  printed : ∃ fuel rows, tableRows ((tableDims text fs prec).2 % 2 ^ 16) fuel
    ((tableLayout text fs prec).map some) = some rows ∧ rows.flatten.Perm (listWords text)

/-- No column but the last ends in an empty word that another one is in front of. -/
def EndsInWords (text : Bytes) (fs prec : ℕ) : Prop :=
  (tableDims text fs prec).1 = 1 ∨ ∀ j, j + 1 < (tableDims text fs prec).2 →
    (listWords text)[(j + 1) * (tableDims text fs prec).1 - 1]? ≠ some []

theorem not_mem_tableColumns {len : ℕ} : ∀ {cols n : ℕ} {text : Bytes}, 0 ∉ text →
    ∀ col ∈ tableColumns len cols n text, 0 ∉ col
  | 0, _, text, hnul, col, hcol => by
    rw [tableColumns] at hcol
    obtain rfl := mem_singleton.1 hcol
    exact hnul
  | cols + 1, _, [], hnul, col, hcol => by
    obtain rfl := mem_singleton.1 hcol
    exact hnul
  | cols + 1, n, c :: text, hnul, col, hcol => by
    rw [mem_cons, not_or] at hnul
    have hhead {k : ℕ} (hcol : col ∈ (tableColumns len (cols + 1) k text).modifyHead (c :: ·)) :
        0 ∉ col := by
      have hall := @not_mem_tableColumns len (cols + 1) k text hnul.2
      cases hcols : tableColumns len (cols + 1) k text with
      | nil =>
        rw [hcols] at hcol
        exact nomatch hcol
      | cons col' cols' =>
        rw [hcols] at hcol hall
        obtain rfl | hcol := mem_cons.1 hcol
        · rw [mem_cons, not_or]
          exact ⟨hnul.1, hall col' mem_cons_self⟩
        · exact hall col (mem_cons_of_mem col' hcol)
    rw [tableColumns] at hcol
    split at hcol
    next => exact hhead hcol
    next =>
      split at hcol
      next =>
        obtain rfl | hcol := mem_cons.1 hcol
        · exact nofun
        · exact not_mem_tableColumns hnul.2 col hcol
      next => exact hhead hcol

theorem tablePrec_pos (text : Bytes) (fs prec : ℕ) : 0 < tablePrec text fs prec := by
  rw [tablePrec]
  split
  next hprec => exact Nat.pos_of_ne_zero hprec
  next =>
    dsimp only
    split
    next => exact Nat.one_pos
    next hne => exact Nat.pos_of_ne_zero hne

theorem map_tableWords_tableLayout (text : Bytes) (fs prec : ℕ) {len cols : ℕ}
    (hdims : tableDims text fs prec = (len, cols)) :
    0 < len ∧ 0 < cols ∧ (cols - 1) * len < (listWords text).length ∧
      (listWords text).length ≤ cols * len ∧
      (tableLayout text fs prec).map tableWords = (List.range (cols - 1)).map
        (fun j ↦ ((tableWords text).drop (j * len)).take len) ++
          [(tableWords text).drop ((cols - 1) * len)] := by
  have hscan := @scanTable_fst text 1 0 0
  have hn : (scanTable text 1 0 0).1 = (listWords text).length := by omega
  have hpos := length_pos_of_ne_nil (listWords_ne_nil text)
  obtain ⟨hlen, hcols, hlt, hle⟩ := tableShape_spec (hn ▸ hpos) (tablePrec_pos text fs prec)
  have hshape : tableShape (scanTable text 1 0 0).1 (tablePrec text fs prec) = (len, cols) := hdims
  rw [hshape] at hlen hcols hlt hle
  rw [hn] at hlt hle
  refine ⟨hlen, hcols, hlt, hle, ?_⟩
  rw [tableLayout, hdims, map_tableWords_tableColumns hlen, Nat.sub_zero]
  exact cut_eq (hlt.trans_le (length_trimWords_le _))

theorem trimWords_append {pre last : List Bytes} (hlast : last ≠ [])
    (h : pre.length < (trimWords (pre ++ last)).length) :
    trimWords (pre ++ last) = pre ++ trimWords last := by
  have hpos := length_pos_of_ne_nil hlast
  rw [trimWords, List.getLast?_append_of_ne_nil _ hlast, length_append] at h ⊢
  rw [trimWords]
  split at h
  next hempty =>
    rw [dropLast_append_of_ne_nil hlast, length_append, length_dropLast] at h
    rw [if_pos hempty, if_pos ⟨by omega, hempty.2⟩, dropLast_append_of_ne_nil hlast]
  next hword =>
    rw [if_neg hword, if_neg fun hempty ↦ hword ⟨by omega, hempty.2⟩]

theorem trimWords_eq_self_iff {col : List Bytes} (hcol : col ≠ []) :
    trimWords col = col ↔ col.length = 1 ∨ col.getLast? ≠ some [] := by
  have hpos := length_pos_of_ne_nil hcol
  rw [trimWords]
  split
  next h =>
    refine iff_of_false (fun heq ↦ ?_) (not_or.2 ⟨by omega, not_not.2 h.2⟩)
    have hlen := congrArg List.length heq
    rw [length_dropLast] at hlen
    omega
  next h =>
    refine iff_of_true rfl ((em (col.length = 1)).imp_right fun hone ↦ ?_)
    exact fun hempty ↦ h ⟨by omega, hempty⟩

theorem length_flatten_trimWords_le (cols : List (List Bytes)) :
    (cols.map trimWords).flatten.length ≤ cols.flatten.length := by
  rw [length_flatten, length_flatten, map_map]
  exact sum_le_sum fun col _ ↦ length_trimWords_le col

theorem trimWords_eq_self_of_length {cols : List (List Bytes)}
    (h : cols.flatten.length ≤ (cols.map trimWords).flatten.length) :
    ∀ col ∈ cols, trimWords col = col := by
  induction cols with
  | nil => exact nofun
  | cons col cols ih =>
    have hle := length_trimWords_le col
    have hles := length_flatten_trimWords_le cols
    rw [map_cons, flatten_cons, flatten_cons, length_append,
      length_append] at h
    refine forall_mem_cons.2 ⟨?_, ih (by omega)⟩
    exact (trimWords_sublist col).eq_of_length (by omega)

/-- What the columns of a table are, by their words: the full ones, and the last one. -/
structure Columns (text : Bytes) (fs prec len cols : ℕ) (full : List (List Bytes))
    (last : List Bytes) : Prop where
  words : (tableLayout text fs prec).map tableWords = full ++ [last]
  length_full : full.length + 1 = cols
  length_of_mem : ∀ col ∈ full, col.length = len
  last_ne_nil : last ≠ []
  length_last : (trimWords last).length ≤ len
  flatten_words : full.flatten ++ last = tableWords text
  flatten_eq : full.flatten ++ trimWords last = listWords text
  getLast? : ∀ j (hj : j < full.length), full[j].getLast? = (listWords text)[(j + 1) * len - 1]?

theorem exists_columns (text : Bytes) (fs prec : ℕ) {len cols : ℕ}
    (hdims : tableDims text fs prec = (len, cols)) :
    0 < len ∧ ∃ full last, Columns text fs prec len cols full last := by
  obtain ⟨hlen, hcols, hlt, hle, hwords⟩ := map_tableWords_tableLayout text fs prec hdims
  have hlong : (cols - 1) * len < (tableWords text).length := hlt.trans_le (length_trimWords_le _)
  have hflat := flatten_cut len (cols - 1) len (tableWords text)
  rw [cut_eq hlong, flatten_append, flatten_singleton] at hflat
  have hlast : ((tableWords text).drop ((cols - 1) * len)).length =
      (tableWords text).length - (cols - 1) * len := length_drop
  generalize hfull : (List.range (cols - 1)).map
    (fun j ↦ ((tableWords text).drop (j * len)).take len) = full at hwords hflat
  generalize (tableWords text).drop ((cols - 1) * len) = last at hwords hflat hlast
  have hnil : last ≠ [] := ne_nil_of_length_pos (by omega)
  have hsum := congrArg List.length hflat
  rw [length_append] at hsum
  have hcol : ∀ j (hj : j < full.length), (j + 1) * len ≤ (cols - 1) * len ∧
      full[j] = ((tableWords text).drop (j * len)).take len := by
    subst hfull
    intro j hj
    rw [length_map, length_range] at hj
    exact ⟨Nat.mul_le_mul_right len hj, by rw [getElem_map, getElem_range]⟩
  have hflatten : full.flatten ++ trimWords last = listWords text := by
    rw [listWords, ← hflat] at hlt ⊢
    exact (trimWords_append hnil (by omega)).symm
  have hcollen (j : ℕ) (hj : j < full.length) : full[j].length = len := by
    obtain ⟨hbound, hj⟩ := hcol j hj
    rw [Nat.succ_mul] at hbound
    rw [hj, length_take, length_drop]
    omega
  refine ⟨hlen, full, last, hwords, ?_, fun col hmem ↦ ?_, hnil, ?_, hflat, hflatten, fun j hj ↦ ?_⟩
  · rw [← hfull, length_map, length_range]
    omega
  · obtain ⟨j, hj, rfl⟩ := getElem_of_mem hmem
    exact hcollen j hj
  · have hsum' := congrArg List.length hflatten
    have hmul : cols * len = (cols - 1) * len + len := by
      rw [← Nat.succ_mul, Nat.succ_eq_add_one, Nat.sub_add_cancel hcols]
    rw [length_append] at hsum'
    omega
  · obtain ⟨hbound, hj'⟩ := hcol j hj
    have hindex : (j + 1) * len - 1 < full.flatten.length := by
      rw [Nat.succ_mul] at hbound ⊢
      omega
    have hfront : (tableWords text)[(j + 1) * len - 1]? = full.flatten[(j + 1) * len - 1]? := by
      rw [← hflat, List.getElem?_append_left hindex]
    rw [List.getLast?_eq_getElem?, hcollen j hj, ← hflatten, List.getElem?_append_left hindex,
      ← hfront, hj', List.getElem?_take_of_lt (by omega), List.getElem?_drop, Nat.succ_mul,
      Nat.add_sub_assoc hlen]

variable {fs prec len cols : ℕ} {full : List (List Bytes)} {last : List Bytes}

theorem Columns.map_cellWords (h : Columns text fs prec len cols full last) :
    ((tableLayout text fs prec).map some).map cellWords =
      full.map trimWords ++ [trimWords last] := by
  have hlist : (tableLayout text fs prec).map listWords =
      ((tableLayout text fs prec).map tableWords).map trimWords := by
    rw [map_map]
    rfl
  rw [map_map]
  show (tableLayout text fs prec).map listWords = _
  rw [hlist, h.words, map_append, map_singleton]

theorem Columns.endsInWords_iff (h : Columns text fs prec len cols full last) (hlen : 0 < len)
    (hdims : tableDims text fs prec = (len, cols)) :
    EndsInWords text fs prec ↔ ∀ col ∈ full, trimWords col = col := by
  have hne (j : ℕ) (hj : j < full.length) : full[j] ≠ [] := by
    refine ne_nil_of_length_pos ?_
    rw [h.length_of_mem _ (getElem_mem hj)]
    exact hlen
  have hself (j : ℕ) (hj : j < full.length) : trimWords full[j] = full[j] ↔
      len = 1 ∨ (listWords text)[(j + 1) * len - 1]? ≠ some [] := by
    rw [trimWords_eq_self_iff (hne j hj), h.length_of_mem _ (getElem_mem hj), h.getLast? j hj]
  rw [EndsInWords, hdims, forall_mem_iff_getElem]
  dsimp only
  rw [← h.length_full]
  constructor
  · intro hends j hj
    exact (hself j hj).2 (hends.imp_right fun hends ↦ hends j (Nat.succ_lt_succ hj))
  · intro hall
    refine (em (len = 1)).imp_right fun hone j hj ↦ ?_
    exact ((hself j (Nat.lt_of_succ_lt_succ hj)).1 (hall j _)).resolve_left hone

theorem Columns.printed (h : Columns text fs prec len cols full last)
    (hnuls : NoNuls ((tableLayout text fs prec).map some))
    (hall : ∀ col ∈ full, trimWords col = col) :
    ∃ fuel rows, tableRows cols fuel ((tableLayout text fs prec).map some) = some rows ∧
      rows.flatten.Perm (listWords text) := by
  have hmap : full.map trimWords = full := (map_congr_left hall).trans (map_id full)
  have hfalling : Falling (full ++ [trimWords last]) := by
    refine pairwise_append.2 ⟨pairwise_of_forall_mem_list fun col hcol col' hcol' ↦ ?_,
      pairwise_singleton _ _, fun col hcol col' hcol' ↦ ?_⟩
    · rw [h.length_of_mem col hcol, h.length_of_mem col' hcol']
    · rw [h.length_of_mem col hcol, mem_singleton.1 hcol']
      exact h.length_last
  obtain ⟨fuel, rs, hrs, hperm⟩ := exists_rows hfalling
  refine ⟨fuel, rs, ?_, ?_⟩
  · rw [← h.length_full, tableRows_eq fuel hnuls, h.map_cellWords, hmap,
      take_of_length_le (by simp), hrs]
  · rwa [flatten_append, flatten_singleton, h.flatten_eq] at hperm

theorem Columns.of_printed (h : Columns text fs prec len cols full last)
    (hnuls : NoNuls ((tableLayout text fs prec).map some)) {nocols fuel : ℕ}
    {rs : List (List Bytes)}
    (hrows : tableRows nocols fuel ((tableLayout text fs prec).map some) = some rs)
    (hperm : rs.flatten.Perm (listWords text)) :
    cols ≤ nocols ∧ ∀ col ∈ full, trimWords col = col := by
  cases nocols with
  | zero =>
    cases hlayout : tableLayout text fs prec with
    | nil =>
      have hwords := congrArg List.length h.words
      rw [hlayout] at hwords
      simp at hwords
    | cons col cols =>
      rw [hlayout, map_cons, tableRows_zero] at hrows
      exact nomatch hrows
  | succ m =>
    rw [tableRows_eq fuel hnuls, h.map_cellWords] at hrows
    have hle := length_flatten_le_of_rows hrows
    have htotal := hperm.length_eq
    rw [← h.flatten_eq, length_append] at htotal
    have hsplit := take_append_drop (m + 1) (full.map trimWords ++ [trimWords last])
    have hsum := congrArg (fun cols ↦ cols.flatten.length) hsplit
    simp only [flatten_append, length_append, flatten_singleton] at hsum
    have hcut := length_flatten_trimWords_le full
    refine ⟨?_, trimWords_eq_self_of_length (by omega)⟩
    -- No column is left out, since all of them have words.
    have hnone : ((full.map trimWords ++ [trimWords last]).drop (m + 1)).flatten = [] :=
      length_eq_zero_iff.1 (by omega)
    rw [flatten_eq_nil_iff] at hnone
    have hlen := h.length_full
    by_contra hlt
    have hlast : trimWords last ∈ (full.map trimWords ++ [trimWords last]).drop (m + 1) := by
      rw [drop_append_of_le_length (by rw [length_map]; omega)]
      exact mem_append_right _ (mem_singleton_self _)
    exact trimWords_ne_nil h.last_ne_nil (hnone _ hlast)

/-- **When a table shows a list**: there are not more than 65535 columns, and no column but the
last ends in an empty word that another one is in front of. -/
theorem laysOut_iff (text : CString) (fs prec : ℕ) : LaysOut text.bytes fs prec ↔
    (tableDims text.bytes fs prec).2 < 2 ^ 16 ∧ EndsInWords text.bytes fs prec := by
  obtain ⟨⟨len, cols⟩, hdims⟩ : ∃ dims, tableDims text.bytes fs prec = dims := ⟨_, rfl⟩
  obtain ⟨hlen, full, last, h⟩ := exists_columns text.bytes fs prec hdims
  have hnuls : NoNuls ((tableLayout text.bytes fs prec).map some) := by
    intro col hcol
    obtain ⟨col', hcol', hsome⟩ := mem_map.1 hcol
    obtain rfl := Option.some.inj hsome
    exact not_mem_tableColumns text.noNul col' hcol'
  rw [h.endsInWords_iff hlen hdims, hdims]
  dsimp only
  constructor
  · rintro ⟨-, -, -, fuel, rs, hrows, hperm⟩
    rw [hdims] at hrows
    obtain ⟨hcols, hall⟩ := h.of_printed hnuls hrows hperm
    exact ⟨hcols.trans_lt (Nat.mod_lt _ (by decide)), hall⟩
  · rintro ⟨hcols, hall⟩
    refine ⟨?_, ?_, fun col hcol ↦ ?_, ?_⟩
    · have hwords := congrArg List.length h.words
      rw [length_map, length_append, length_singleton, h.length_full] at hwords
      rw [hwords, hdims]
    · rw [h.words, flatten_append, flatten_singleton, h.flatten_words]
    · have hmem := mem_map_of_mem (f := tableWords) hcol
      rw [map_dropLast, h.words, dropLast_concat] at hmem
      rw [hdims]
      exact h.length_of_mem _ hmem
    · rw [hdims]
      dsimp only
      rw [Nat.mod_eq_of_lt hcols]
      exact h.printed hnuls hall

/-- Four words in two columns: `x`, an empty one, `y` and `z`. The first column is at its end after
`x`, and `z` is not printed. -/
theorem not_laysOut : ¬∀ (text : CString) (fs prec : ℕ), LaysOut text.bytes fs prec := by
  intro hall
  obtain ⟨-, -, -, fuel, rs, hrows, hperm⟩ := hall ⟨[120, 10, 10, 121, 10, 122], by decide⟩ 20 2
  cases fuel with
  | zero => exact nomatch hrows
  | succ fuel =>
    have hrow : some [[[120], [121]]] = some rs := hrows
    obtain rfl := Option.some.inj hrow
    exact absurd hperm.length_eq (by decide)

end Lpmud.Sprintf
