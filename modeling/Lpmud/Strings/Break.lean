import Lpmud.Strings.Explode
import Mathlib.Data.BitVec

/-!
# Breaking a string into lines

`break_string` of `parse.c` goes through a string once and replaces spaces by newlines, and then, if
there is an indent, copies the lines into a new block with the indent before each of them.

What it may do is said by a list of lines (`Line`): each one has a text, and ends with a newline
that has replaced a space, with one that was there before, or with the end of the string. The same
list is read in two ways, with the indents and the newlines (`written`), and without them
(`original`).

`string_copy` and `xalloc` get memory for whatever they are asked for; the argument of `xalloc` is
an `unsigned int`. The length of a string is put into an `int`, which is the length of one of less
than `2 ^ 31` characters.
-/

namespace Lpmud.BreakString

open List Option Explode

abbrev space : UInt8 := 0x20

abbrev newline : UInt8 := 0x0a

/-- How `break_string` ends: with a string, with the error of `allocate_array` when there are too
many lines, with a call of `fatal` by `explode_string`, or after an access outside of a buffer. -/
inductive Result where
  | string (s : Bytes)
  | illegalSize
  | fatal
  | outside
  deriving DecidableEq

/-- The size of the block that `xalloc` returns. -/
def xalloc (size : ℤ) : ℕ :=
  let n := (size % 2 ^ 32).toNat
  if n = 0 then 1 else n

/-- The block for an indent of `l` spaces: the loop writes the spaces, and a NUL goes behind them.
-/
def spaces (l : ℤ) : Option Bytes :=
  if l.toNat + 1 ≤ xalloc (l + 1) then some (List.replicate l.toNat space) else none

/-! ### Splitting -/

/-- The string, the last space in the line that has been begun, or -1, and the newline before this
line, or 0. -/
structure Split where
  fstr : Bytes
  space : ℤ
  nchar : ℤ

/-- `fstr[i] = c`. -/
def store (fstr : Bytes) (i : ℤ) (c : UInt8) : Option Bytes :=
  if 0 ≤ i ∧ i < fstr.length then some (fstr.set i.toNat c) else none

/-- One round of "Split with newlines", where `w` is `width - indlen`. -/
def splitStep (w : ℤ) (s : Split) (il : ℕ) : Option Split :=
  match s.fstr[il]? with
  | none => none
  | some c =>
    let last : ℤ := if c = space then il else s.space
    if il - s.nchar ≥ w ∧ last ≥ 0 then
      (store s.fstr last newline).map fun fstr ↦ ⟨fstr, -1, last⟩
    else some { s with space := last }

/-- `strlen`, put into an `int`. -/
def strlen (s : Bytes) : BitVec 32 :=
  BitVec.ofNat 32 s.length

/-- "Split with newlines". -/
def splitLoop (w : ℤ) (fstr : Bytes) : Option Bytes :=
  ((List.range (strlen fstr).toInt.toNat).foldlM (splitStep w) ⟨fstr, -1, 0⟩).map Split.fstr

/-! ### Indenting -/

/-- `strcat`, to a string in a block of `size` bytes. -/
def strcat (size : ℕ) (out s : Bytes) : Option Bytes :=
  if out.length + s.length + 1 ≤ size then some (out ++ s) else none

/-- "Calculate size of the indented string". -/
def indentedSize (indlen : BitVec 32) (lines : List Bytes) : BitVec 32 :=
  lines.foldl (fun nchar line ↦ nchar + (indlen + strlen line + 1)) 0

/-- The loop over all lines but the last, and the last one. -/
def fill (size : ℕ) (istr : Bytes) : List Bytes → Bytes → Option Bytes
  | [], out => some out
  | [line], out => do
    let out ← strcat size out istr
    strcat size out line
  | line :: lines, out => do
    let out ← strcat size out istr
    let out ← strcat size out line
    let out ← strcat size out [newline]
    fill size istr lines out

/-- The part of `break_string` that follows "Explode into array". -/
def indentLines (istr fstr : Bytes) (lines : List Bytes) : Option Bytes := do
  let last ← fstr.getLast?
  let size := xalloc ((indentedSize (strlen istr) lines).toInt + 1)
  let out ← fill size istr lines []
  if last = newline then strcat size out [newline] else some out

/-- `width` after it was adjusted; where there is no indent string, `indlen` is 0. -/
def lineWidth (width : BitVec 32) (istr : Option Bytes) : BitVec 32 :=
  let width := if width.toInt < 1 then 1 else width
  match istr with
  | none => width
  | some istr => if width.toInt ≤ (strlen istr).toInt then strlen istr + 1 else width

/-- `break_string`, with an indent string or a null pointer. -/
def breakWith (str : CString) (width : BitVec 32) (istr : Option Bytes) : Result :=
  let indlen := istr.elim 0 strlen
  match splitLoop (lineWidth width istr - indlen).toInt str.bytes with
  | none => .outside
  | some fstr =>
    if indlen = 0 then .string fstr
    else
      match explodeString (CString.ofBytes fstr) (CString.ofBytes [newline]) with
      | .illegalSize => .illegalSize
      | .fatal => .fatal
      | .array lines => (indentLines (istr.getD []) fstr (strings lines)).elim .outside .string

def breakString (str : CString) (width : BitVec 32) : Option Svalue → Result
  | none => breakWith str width none
  | some (.number n) =>
    if n.toInt < 1000 then
      match spaces n.toInt with
      | none => .outside
      | some istr => breakWith str width (some istr)
    else .string str.bytes
  | some (.string s) => breakWith str width (some s.bytes)
  | some _ => .string str.bytes

/-! ### Lines -/

/-- How a line ends: with a newline that has replaced a space, with a newline that was there, or
with the string. -/
inductive Stop where
  | replaced
  | kept
  | last
  deriving DecidableEq

/-- How it ends in the new string. -/
def Stop.written : Stop → Bytes
  | .replaced | .kept => [newline]
  | .last => []

/-- How it ended before. -/
def Stop.original : Stop → Bytes
  | .replaced => [space]
  | .kept => [newline]
  | .last => []

/-- A line, without its indent. -/
structure Line where
  text : Bytes
  stop : Stop

/-- The lines, each with its indent. -/
def written (istr : Bytes) (ls : List Line) : Bytes :=
  ls.flatMap fun l ↦ istr ++ l.text ++ l.stop.written

/-- The lines without indents, with the spaces that were replaced. -/
def original (ls : List Line) : Bytes :=
  ls.flatMap fun l ↦ l.text ++ l.stop.original

/-- A space at which the text can be broken so that one of the parts is a text again. -/
def Breakable (text : Bytes) : Prop :=
  ∃ a b, text = a ++ space :: b ∧ (a ≠ [] ∨ b ≠ [])

/-- A list of lines: there is no newline in a line, only the last one ends with the string, and then
it is not empty. -/
structure Proper (ls : List Line) : Prop where
  newline_notMem : ∀ l ∈ ls, newline ∉ l.text
  stop_ne : ∀ l ∈ ls.dropLast, l.stop ≠ .last
  text_ne : ∀ l ∈ ls, l.stop = .last → l.text ≠ []

/-- What `r` may be: the lines of `str`, some of them ended by a newline in place of a space, with
the indent before each of them, and none longer than the width that could be broken. -/
structure Layout (str istr r : Bytes) (width : ℤ) (ls : List Line) : Prop extends
    Proper ls where
  written_eq : written istr ls = r
  original_eq : original ls = str
  fits : ∀ l ∈ ls, (istr.length + l.text.length : ℤ) ≤ width ∨ ¬Breakable l.text

/-! ### The lines of a text -/

section Lines

variable {stop : Stop} {text cur istr : Bytes} {l : Line} {ls ms : List Line}

@[simp]
theorem written_nil : written istr [] = [] :=
  rfl

@[simp]
theorem written_cons : written istr (l :: ls) =
    istr ++ l.text ++ l.stop.written ++ written istr ls :=
  rfl

@[simp]
theorem written_append : written istr (ls ++ ms) = written istr ls ++ written istr ms :=
  flatMap_append

@[simp]
theorem original_nil : original [] = [] :=
  rfl

@[simp]
theorem original_cons : original (l :: ls) = l.text ++ l.stop.original ++ original ls :=
  rfl

@[simp]
theorem original_append : original (ls ++ ms) = original ls ++ original ms :=
  flatMap_append

/-- The lines of a text that ends with `stop`; the first of them begins with `cur`. -/
def linesOf (stop : Stop) : Bytes → Bytes → List Line
  | [], cur => if stop = .last ∧ cur = [] then [] else [⟨cur, stop⟩]
  | c :: text, cur =>
    if c = newline then ⟨cur, .kept⟩ :: linesOf stop text [] else linesOf stop text (cur ++ [c])

attribute [local simp] linesOf in
theorem written_linesOf : written [] (linesOf stop text cur) = cur ++ text ++ stop.written := by
  fun_induction linesOf stop text cur with
  | case1 cur h => simp [h.1, h.2, Stop.written]
  | case2 cur h => simp
  | case3 text cur ih => simp [ih, Stop.written]
  | case4 c text cur hc ih => simp [ih]

theorem original_linesOf : original (linesOf stop text cur) = cur ++ text ++ stop.original := by
  fun_induction linesOf stop text cur with
  | case1 cur h => simp [h.1, h.2, Stop.original]
  | case2 cur h => simp
  | case3 text cur ih => simp [ih, Stop.original]
  | case4 c text cur hc ih => simp [ih]

theorem mem_linesOf (hcur : newline ∉ cur) (h : l ∈ linesOf stop text cur) :
    newline ∉ l.text ∧ l.text.length ≤ (cur ++ text).length ∧ l.text ⊆ cur ++ text := by
  fun_induction linesOf stop text cur with
  | case1 => exact absurd h not_mem_nil
  | case2 cur hstop =>
    obtain rfl := mem_singleton.1 h
    simp [hcur]
  | case3 text cur ih =>
    rcases mem_cons.1 h with rfl | h
    · simp [hcur]
    · obtain ⟨hnew, hlen, hsub⟩ := ih not_mem_nil h
      refine ⟨hnew, ?_, fun x hx ↦ ?_⟩
      · simp only [nil_append, length_append, length_cons] at hlen ⊢
        omega
      · exact mem_append_right _ (mem_cons_of_mem _ (hsub hx))
  | case4 c text cur hc ih =>
    have hcur' : newline ∉ cur ++ [c] := by simp [hcur, Ne.symm hc]
    simpa using ih hcur' h

theorem stop_of_mem_linesOf (h : l ∈ linesOf stop text cur) : l.stop = stop ∨ l.stop = .kept := by
  fun_induction linesOf stop text cur with
  | case1 => exact absurd h not_mem_nil
  | case2 cur hstop => exact Or.inl (mem_singleton.1 h ▸ rfl)
  | case3 text cur ih =>
    rcases mem_cons.1 h with rfl | h
    · exact Or.inr rfl
    · exact ih h
  | case4 c text cur hc ih => exact ih h

theorem proper_linesOf (hcur : newline ∉ cur) : Proper (linesOf .last text cur) where
  newline_notMem := fun _ hl ↦ (mem_linesOf hcur hl).1
  stop_ne := by
    clear hcur
    intro l hl
    induction text generalizing cur with
    | nil =>
      rw [linesOf] at hl
      split at hl <;> exact absurd hl not_mem_nil
    | cons c text ih =>
      rw [linesOf] at hl
      split at hl
      · rcases hrest : linesOf .last text [] with - | ⟨m, ms⟩
        · rw [hrest] at hl
          exact absurd hl not_mem_nil
        · rw [hrest, dropLast_cons_of_ne_nil (cons_ne_nil m ms), mem_cons] at hl
          rcases hl with rfl | hl
          · exact nofun
          · exact ih (hrest ▸ hl)
      · exact ih hl
  text_ne := by
    clear hcur
    intro l hl hstop
    induction text generalizing cur with
    | nil =>
      rw [linesOf] at hl
      split at hl
      · exact absurd hl not_mem_nil
      · next h =>
        obtain rfl := mem_singleton.1 hl
        exact fun hcur ↦ h ⟨rfl, hcur⟩
    | cons c text ih =>
      rw [linesOf] at hl
      split at hl
      · rcases mem_cons.1 hl with rfl | hl
        · exact absurd hstop nofun
        · exact ih hl
      · exact ih hl

end Lines

/-! ### Splitting -/

/-- A text that is not longer than `w`, or has no space. -/
def Short (w : ℤ) (text : Bytes) : Prop :=
  text.length ≤ w ∨ space ∉ text

/-- The string before position `il` has fallen into lines and into the beginning of one more line,
`seg`, which has no space, or is short up to here and has its last space at `s.space`. -/
structure Splits (w : ℤ) (str : Bytes) (il : ℕ) (s : Split) (ls : List Line)
    (seg : Bytes) : Prop where
  fstr_eq : s.fstr = written [] ls ++ seg ++ str.drop il
  take_eq : original ls ++ seg = str.take il
  lines : ∀ l ∈ ls, newline ∉ l.text ∧ l.stop ≠ .last ∧ Short w l.text
  length_eq : (written [] ls).length + seg.length = il
  nchar_eq : s.nchar = ((written [] ls).length - 1 : ℕ)
  space_eq : s.space = -1 ∧ space ∉ seg ∨ il - s.nchar ≤ w ∧ ∃ a b, seg = a ++ space :: b ∧
    space ∉ b ∧ s.space = ((written [] ls).length + a.length : ℕ)

section Splitting

variable {w : ℤ} {str : Bytes} {il : ℕ} {s : Split} {ls : List Line} {seg : Bytes}

theorem Splits.short (h : Splits w str il s ls seg) : Short w seg := by
  rcases h.space_eq with ⟨-, hno⟩ | ⟨hle, -⟩
  · exact Or.inr hno
  · have hlen := h.length_eq
    have hnchar := h.nchar_eq
    exact Or.inl (by omega)

theorem splits_zero (w : ℤ) (str : Bytes) : Splits w str 0 ⟨str, -1, 0⟩ [] [] where
  fstr_eq := rfl
  take_eq := rfl
  lines := nofun
  length_eq := rfl
  nchar_eq := rfl
  space_eq := Or.inl ⟨rfl, not_mem_nil⟩

/-- The lines of `a`, when the space behind it is replaced. -/
theorem Splits.break (h : Splits w str il s ls seg) {a b rest : Bytes} {c : UInt8}
    (hrest : str.drop il = c :: rest) (hseg : seg ++ [c] = a ++ space :: b) (hb : space ∉ b)
    (ha : Short w a) :
    Splits w str (il + 1)
      ⟨written [] ls ++ a ++ newline :: b ++ rest, -1, ((written [] ls).length + a.length : ℕ)⟩
      (ls ++ linesOf .replaced a []) b where
  fstr_eq := by
    have hdrop : str.drop (il + 1) = rest := by
      rw [← tail_drop, hrest, tail_cons]
    simp [written_linesOf, Stop.written, hdrop]
  take_eq := by
    have htake : str.take (il + 1) = str.take il ++ [c] := by
      rw [take_add_one, ← List.head?_drop, hrest]
      rfl
    rw [htake, ← h.take_eq, append_assoc, hseg, original_append, original_linesOf]
    simp [Stop.original]
  lines := by
    intro l hl
    rcases mem_append.1 hl with hl | hl
    · exact h.lines l hl
    · obtain ⟨hnew, hlen, hsub⟩ := mem_linesOf not_mem_nil hl
      refine ⟨hnew, ?_, ha.imp (fun hle ↦ ?_) fun hno hmem ↦ hno (hsub hmem)⟩
      · rcases stop_of_mem_linesOf hl with hstop | hstop <;> rw [hstop] <;> exact nofun
      · rw [nil_append] at hlen
        omega
  length_eq := by
    have hlen := congrArg List.length hseg
    have hold := h.length_eq
    simp only [written_append, written_linesOf, Stop.written, length_append, length_cons,
      length_nil] at hlen ⊢
    omega
  nchar_eq := by simp [written_linesOf, Stop.written]
  space_eq := Or.inl ⟨rfl, hb⟩

theorem Splits.go (h : Splits w str il s ls seg) {rest : Bytes} {c : UInt8} {last : ℤ}
    (hrest : str.drop il = c :: rest)
    (hlast : last = -1 ∧ space ∉ seg ++ [c] ∨ il + 1 - s.nchar ≤ w ∧ ∃ a b,
      seg ++ [c] = a ++ space :: b ∧ space ∉ b ∧
        last = ((written [] ls).length + a.length : ℕ)) :
    Splits w str (il + 1) { s with space := last } ls (seg ++ [c]) where
  fstr_eq := by
    have hdrop : str.drop (il + 1) = rest := by
      rw [← tail_drop, hrest, tail_cons]
    rw [hdrop, h.fstr_eq, hrest]
    simp
  take_eq := by
    rw [take_add_one, ← List.head?_drop, hrest, ← append_assoc, h.take_eq]
    rfl
  lines := h.lines
  length_eq := by
    rw [length_append, length_singleton, ← h.length_eq, Nat.add_assoc]
  nchar_eq := h.nchar_eq
  space_eq := hlast

/-- **One round keeps the invariant.** -/
theorem Splits.step (h : Splits w str il s ls seg) (hil : il < str.length) :
    ∃ s' ls' seg', splitStep w s il = some s' ∧ Splits w str (il + 1) s' ls' seg' := by
  obtain ⟨c, rest, hrest⟩ := exists_cons_of_ne_nil (mt drop_eq_nil_iff.1 hil.not_ge)
  have hget : s.fstr[il]? = some c := by
    rw [h.fstr_eq, hrest, List.getElem?_append_right (by simp [h.length_eq])]
    simp [h.length_eq]
  -- the last space of the line, with the new character
  obtain ⟨last, hlast, hcases⟩ : ∃ last : ℤ, (if c = space then (il : ℤ) else s.space) = last ∧
      (last = -1 ∧ space ∉ seg ++ [c] ∨ 0 ≤ last ∧ ∃ a b, seg ++ [c] = a ++ space :: b ∧
        space ∉ b ∧ last = ((written [] ls).length + a.length : ℕ) ∧ Short w a) := by
    refine ⟨_, rfl, ?_⟩
    by_cases hc : c = space
    · rw [if_pos hc]
      refine Or.inr ⟨Int.natCast_nonneg il, seg, [], by rw [hc], not_mem_nil, ?_, h.short⟩
      rw [h.length_eq]
    · rw [if_neg hc]
      rcases h.space_eq with ⟨hspace, hno⟩ | ⟨hle, a, b, rfl, hb, hspace⟩
      · exact Or.inl ⟨hspace, by simp [hno, Ne.symm hc]⟩
      · refine Or.inr ⟨by omega, a, b ++ [c], by simp, by simp [hb, Ne.symm hc], hspace, ?_⟩
        have hlen := h.length_eq
        have hnchar := h.nchar_eq
        rw [length_append] at hlen
        exact Or.inl (by omega)
  rw [splitStep, hget]
  dsimp only
  rw [hlast]
  rcases hcases with ⟨hneg, hno⟩ | ⟨hpos, a, b, hseg, hb, hpoint, ha⟩
  · rw [if_neg (by omega)]
    exact ⟨_, _, _, rfl, h.go hrest (Or.inl ⟨hneg, hno⟩)⟩
  · by_cases hwide : (il : ℤ) - s.nchar ≥ w
    · have hfstr : s.fstr = (written [] ls ++ a) ++ space :: (b ++ rest) := by
        rw [h.fstr_eq, hrest, ← singleton_append, append_assoc, ← append_assoc seg,
          hseg]
        simp
      have hstore : store s.fstr last newline =
          some (written [] ls ++ a ++ newline :: b ++ rest) := by
        rw [store, hfstr, if_pos ⟨hpos, by simp; omega⟩, hpoint, Int.toNat_natCast,
          ← length_append, set_append_right _ _ le_rfl, Nat.sub_self]
        simp
      rw [if_pos ⟨hwide, hpos⟩, hstore]
      exact ⟨_, _, _, rfl, hpoint ▸ h.break hrest hseg hb ha⟩
    · rw [if_neg (by omega)]
      exact ⟨_, _, _, rfl, h.go hrest (Or.inr ⟨by omega, a, b, hseg, hb, hpoint⟩)⟩

theorem splits_loop (w : ℤ) (str : Bytes) (hil : il ≤ str.length) :
    ∃ s ls seg, (List.range il).foldlM (splitStep w) ⟨str, -1, 0⟩ = some s ∧
      Splits w str il s ls seg := by
  induction il with
  | zero => exact ⟨_, _, _, rfl, splits_zero w str⟩
  | succ il ih =>
    obtain ⟨s, ls, seg, hrun, hs⟩ := ih (by omega)
    obtain ⟨s', ls', seg', hstep, hs'⟩ := hs.step (by omega)
    refine ⟨s', ls', seg', ?_, hs'⟩
    rw [range_succ, foldlM_append, hrun]
    simp [hstep]

theorem strlen_toInt (h : str.length < 2 ^ 31) : (strlen str).toInt = str.length := by
  rw [strlen, BitVec.toInt_eq_toNat_of_lt]
  all_goals
    rw [BitVec.toNat_ofNat]
    omega

/-- **The string is split into lines that are short**, and only spaces are replaced. -/
theorem splitLoop_spec (w : ℤ) (hlen : str.length < 2 ^ 31) :
    ∃ ls, splitLoop w str = some (written [] ls) ∧ original ls = str ∧ Proper ls ∧
      ∀ l ∈ ls, Short w l.text := by
  obtain ⟨s, ls, seg, hrun, hs⟩ := splits_loop w str (le_refl str.length)
  have hproper := @proper_linesOf seg [] not_mem_nil
  refine ⟨ls ++ linesOf .last seg [], ?_, ?_, ⟨?_, ?_, ?_⟩, ?_⟩
  · rw [splitLoop, strlen_toInt hlen, Int.toNat_natCast, hrun, map_some, hs.fstr_eq]
    simp [written_linesOf, Stop.written]
  · have htake := hs.take_eq
    rw [take_length] at htake
    rw [original_append, original_linesOf, ← htake]
    simp [Stop.original]
  · intro l hl
    rcases mem_append.1 hl with hl | hl
    · exact (hs.lines l hl).1
    · exact hproper.newline_notMem l hl
  · intro l hl
    rw [dropLast_append] at hl
    split at hl
    · exact (hs.lines l (dropLast_subset _ hl)).2.1
    · rcases mem_append.1 hl with hl | hl
      · exact (hs.lines l hl).2.1
      · exact hproper.stop_ne l hl
  · intro l hl hstop
    rcases mem_append.1 hl with hl | hl
    · exact absurd hstop (hs.lines l hl).2.1
    · exact hproper.text_ne l hl hstop
  · intro l hl
    rcases mem_append.1 hl with hl | hl
    · exact (hs.lines l hl).2.2
    · obtain ⟨-, hle, hsub⟩ := mem_linesOf not_mem_nil hl
      refine hs.short.imp (fun hshort ↦ ?_) fun hno hmem ↦ hno (hsub hmem)
      rw [nil_append] at hle
      omega

end Splitting

/-! ### Indenting -/

section Indenting

variable {istr text : Bytes} {l : Line} {ls : List Line}

theorem Proper.tail (h : Proper (l :: ls)) : Proper ls where
  newline_notMem := fun m hm ↦ h.newline_notMem m (mem_cons_of_mem l hm)
  stop_ne := by
    intro m hm
    have hne : ls ≠ [] := fun hnil ↦ not_mem_nil (hnil ▸ dropLast_subset _ hm)
    refine h.stop_ne m ?_
    rw [dropLast_cons_of_ne_nil hne]
    exact mem_cons_of_mem l hm
  text_ne := fun m hm ↦ h.text_ne m (mem_cons_of_mem l hm)

theorem Stop.written_of_ne {stop : Stop} (h : stop ≠ .last) : stop.written = [newline] := by
  cases stop with
  | replaced | kept => rfl
  | last => exact absurd rfl h

theorem Proper.eq_nil_of_last (h : Proper (l :: ls)) (hstop : l.stop = .last) : ls = [] := by
  by_contra hne
  refine h.stop_ne l ?_ hstop
  rw [dropLast_cons_of_ne_nil hne]
  exact mem_cons_self

/-- **The array of the lines.** -/
theorem kept_pieces_written (h : Proper ls) :
    kept (pieces [newline] (written [] ls) []) = ls.map Line.text := by
  induction ls with
  | nil => rw [written_nil, pieces, kept_singleton, if_pos rfl, map_nil]
  | cons l ls ih =>
    have hnew := h.newline_notMem l mem_cons_self
    by_cases hstop : l.stop = .last
    · have hne := h.text_ne l mem_cons_self hstop
      obtain rfl := h.eq_nil_of_last hstop
      rw [written_cons, hstop, Stop.written, append_nil, written_nil, append_nil,
        nil_append, pieces_of_notMem hnew, nil_append, kept_singleton, if_neg hne]
      rfl
    · rw [written_cons, Stop.written_of_ne hstop, nil_append, append_assoc,
        singleton_append, pieces_append_cons hnew, kept_cons pieces_ne_nil, ih h.tail]
      rfl

theorem written_ne_nil (h : Proper (l :: ls)) : written [] (l :: ls) ≠ [] := by
  rw [written_cons]
  by_cases hstop : l.stop = .last
  · simp [h.text_ne l mem_cons_self hstop]
  · simp [Stop.written_of_ne hstop]

theorem strcat_bind (size : ℕ) (out s t : Bytes) :
    (strcat size out s).bind (strcat size · t) = strcat size out (s ++ t) := by
  simp only [strcat, length_append]
  by_cases hs : out.length + s.length + 1 ≤ size
  · rw [if_pos hs, bind_some, length_append, append_assoc,
      Nat.add_assoc out.length]
  · rw [if_neg hs, if_neg (by omega), bind_none]

theorem fill_eq (size : ℕ) {lines : List Bytes} (h : lines ≠ []) (out : Bytes) :
    fill size istr lines out =
      strcat size out ([newline].intercalate (lines.map (istr ++ ·))) := by
  fun_induction fill size istr lines out with
  | case1 => exact absurd rfl h
  | case2 line out =>
    rw [map_singleton, intercalate_singleton]
    exact strcat_bind size out istr line
  | case3 line lines out hne ih =>
    have hmap : lines.map (istr ++ ·) ≠ [] := mt map_eq_nil_iff.1 fun hnil ↦ hne hnil
    rw [map_cons, intercalate_cons_of_ne_nil hmap, ← strcat_bind, ← strcat_bind,
      ← strcat_bind, bind_assoc, bind_assoc]
    simp only [bind_eq_bind, ih _ fun hnil ↦ hne hnil]

theorem written_eq (h : Proper ls) : written istr ls =
    [newline].intercalate ((ls.map Line.text).map (istr ++ ·)) ++
      if (written [] ls).getLast? = some newline then [newline] else [] := by
  induction ls with
  | nil => simp
  | cons l ls ih =>
    have hnew := h.newline_notMem l mem_cons_self
    rcases ls with - | ⟨m, ls⟩
    · by_cases hstop : l.stop = .last
      · have hlast : l.text.getLast? ≠ some newline := fun hl ↦ hnew (mem_of_getLast? hl)
        simp [hstop, Stop.written, hlast]
      · simp [Stop.written_of_ne hstop]
    · have hstop : l.stop ≠ .last := fun hl ↦ cons_ne_nil m ls (h.eq_nil_of_last hl)
      have hlast : (written [] (l :: m :: ls)).getLast? = (written [] (m :: ls)).getLast? := by
        rw [written_cons, List.getLast?_append_of_ne_nil _ (written_ne_nil h.tail)]
      have hmap : ((l :: m :: ls).map Line.text).map (istr ++ ·) =
          (istr ++ l.text) :: ((m :: ls).map Line.text).map (istr ++ ·) := rfl
      have hrest : ((m :: ls).map Line.text).map (istr ++ ·) ≠ [] := cons_ne_nil _ _
      rw [written_cons, ih h.tail, hlast, hmap, intercalate_cons_of_ne_nil hrest,
        Stop.written_of_ne hstop]
      simp only [append_assoc]

/-- The bytes that are counted for the lines. -/
def counted (istr : Bytes) (lines : List Bytes) : ℕ :=
  (lines.map fun line ↦ istr.length + line.length + 1).sum

theorem indentedSize_eq (istr : Bytes) (lines : List Bytes) :
    indentedSize (strlen istr) lines = BitVec.ofNat 32 (counted istr lines) := by
  have hfrom : ∀ n : ℕ, lines.foldl (fun nchar line ↦ nchar + (strlen istr + strlen line + 1))
      (BitVec.ofNat 32 n) = BitVec.ofNat 32 (n + counted istr lines) := by
    induction lines with
    | nil => exact fun n ↦ rfl
    | cons line lines ih =>
      intro n
      have hline : strlen istr + strlen line + 1 =
          BitVec.ofNat 32 (istr.length + line.length + 1) := by
        rw [BitVec.ofNat_add, BitVec.ofNat_add]
        rfl
      have hcons : counted istr (line :: lines) = istr.length + line.length + 1 +
          counted istr lines := rfl
      rw [foldl_cons, hline, ← BitVec.ofNat_add, ih, hcons, Nat.add_assoc]
  exact (hfrom 0).trans (by rw [Nat.zero_add])

theorem xalloc_ofNat (n : ℕ) : xalloc ((BitVec.ofNat 32 n).toInt + 1) =
    if (n + 1) % 2 ^ 32 = 0 then 1 else (n + 1) % 2 ^ 32 := by
  have hmod : ((BitVec.ofNat 32 n).toInt + 1) % 2 ^ 32 = ((n + 1) % 2 ^ 32 : ℕ) := by
    have hbmod : (BitVec.ofNat 32 n).toInt % (2 ^ 32 : ℕ) = n % (2 ^ 32 : ℕ) := by
      rw [BitVec.toInt_ofNat', Int.bmod_emod]
    omega
  rw [xalloc, hmod, Int.toNat_natCast]

theorem length_written (h : Proper ls) (hne : ls ≠ []) :
    (written istr ls).length ≤ counted istr (ls.map Line.text) ∧
      counted istr (ls.map Line.text) ≤ (written istr ls).length + 1 := by
  induction ls with
  | nil => exact absurd rfl hne
  | cons l ls ih =>
    have hcons : counted istr ((l :: ls).map Line.text) =
        istr.length + l.text.length + 1 + counted istr (ls.map Line.text) := rfl
    by_cases hstop : l.stop = .last
    · obtain rfl := h.eq_nil_of_last hstop
      have hzero : counted istr ([].map Line.text) = 0 := rfl
      rw [hcons, hzero, written_cons, hstop, Stop.written]
      simp only [written_nil, length_append, length_nil]
      omega
    · rw [hcons, written_cons, Stop.written_of_ne hstop]
      simp only [length_append, length_singleton]
      rcases ls with - | ⟨m, ls⟩
      · have hzero : counted istr ([].map Line.text) = 0 := rfl
        rw [hzero]
        simp
      · have := ih h.tail (cons_ne_nil m ls)
        omega

/-- **The indented lines fit into the block** exactly if its size does not overflow. -/
theorem indentLines_written (h : Proper ls) (hne : ls ≠ []) :
    indentLines istr (written [] ls) (ls.map Line.text) =
      if counted istr (ls.map Line.text) + 1 < 2 ^ 32 then some (written istr ls) else none := by
  obtain ⟨l, ms, rfl⟩ := exists_cons_of_ne_nil hne
  obtain ⟨c, hc⟩ : ∃ c, (written [] (l :: ms)).getLast? = some c :=
    ⟨_, List.getLast?_eq_some_getLast (written_ne_nil h)⟩
  have hstrcat : indentLines istr (written [] (l :: ms)) ((l :: ms).map Line.text) =
      strcat (xalloc ((indentedSize (strlen istr) ((l :: ms).map Line.text)).toInt + 1)) []
        (written istr (l :: ms)) := by
    rw [indentLines, hc, written_eq h, hc]
    simp only [bind_eq_bind, bind_some,
      fill_eq _ (cons_ne_nil l.text (ms.map Line.text)), map_cons, some.injEq]
    by_cases hnew : c = newline
    · simp only [if_pos hnew]
      exact strcat_bind _ _ _ _
    · simp only [if_neg hnew, append_nil]
      exact bind_fun_some _
  obtain ⟨hle, hge⟩ := @length_written istr _ h hne
  rw [hstrcat, indentedSize_eq, xalloc_ofNat, strcat, nil_append, length_nil,
    Nat.zero_add]
  by_cases hfits : counted istr ((l :: ms).map Line.text) + 1 < 2 ^ 32
  · rw [if_pos hfits, Nat.mod_eq_of_lt hfits, if_neg (Nat.succ_ne_zero _), if_pos (by omega)]
  · have hless : (if (counted istr ((l :: ms).map Line.text) + 1) % 2 ^ 32 = 0 then 1
        else (counted istr ((l :: ms).map Line.text) + 1) % 2 ^ 32) <
          (written istr (l :: ms)).length + 1 := by
      split <;> omega
    rw [if_neg hfits, if_neg (not_le.2 hless)]

theorem length_original (ls : List Line) : (original ls).length = (written [] ls).length := by
  induction ls with
  | nil => rfl
  | cons l ls ih =>
    rw [original_cons, written_cons, length_append, length_append, length_append,
      length_append, length_append, ih, length_nil, Nat.zero_add]
    cases l.stop <;> rfl

theorem Proper.original_eq_nil_iff (h : Proper ls) : original ls = [] ↔ ls = [] := by
  refine ⟨fun hnil ↦ ?_, fun hnil ↦ hnil ▸ rfl⟩
  rcases ls with - | ⟨l, ls⟩
  · rfl
  · have hlen := length_original (l :: ls)
    rw [hnil] at hlen
    exact absurd (length_eq_zero_iff.1 hlen.symm) (written_ne_nil h)

theorem nul_notMem_written (h : 0 ∉ original ls) : 0 ∉ written [] ls := by
  induction ls with
  | nil => exact not_mem_nil
  | cons l ls ih =>
    simp only [original_cons, written_cons, mem_append, not_or] at h ⊢
    refine ⟨⟨⟨not_mem_nil, h.1.1⟩, ?_⟩, ih h.2⟩
    cases l.stop <;> decide

theorem ofBytes_bytes (h : 0 ∉ text) : (CString.ofBytes text).bytes = text :=
  takeWhile_eq_self_iff.2 fun _ hc ↦ bne_iff_ne.2 fun hnul ↦ h (hnul ▸ hc)

end Indenting

/-! ### The whole function -/

section Whole

variable {str : CString} {width : BitVec 32} {istr : Option Bytes}

theorem strlen_eq_zero_iff {s : Bytes} (h : s.length < 2 ^ 31) : strlen s = 0 ↔ s = [] := by
  refine ⟨fun hzero ↦ ?_, fun hnil ↦ hnil ▸ rfl⟩
  have hlen := strlen_toInt h
  rw [hzero] at hlen
  exact length_eq_zero_iff.1 (by simpa using hlen.symm)

theorem lineWidth_spec (h : (istr.getD []).length < 2 ^ 31) :
    (lineWidth width istr - istr.elim 0 strlen).toInt = 1 ∨
      (lineWidth width istr - istr.elim 0 strlen).toInt =
        width.toInt - (istr.getD []).length := by
  cases istr with
  | none =>
    simp only [lineWidth, elim_none, getD_none, length_nil]
    split
    · exact Or.inl rfl
    · exact Or.inr (by simp)
  | some istr =>
    rw [getD_some] at h
    simp only [lineWidth, elim_some, getD_some]
    have hlen := strlen_toInt h
    obtain ⟨w, hw⟩ : ∃ w, (if width.toInt < 1 then 1 else width) = w := ⟨_, rfl⟩
    rw [hw]
    by_cases hle : w.toInt ≤ (strlen istr).toInt
    · rw [if_pos hle]
      exact Or.inl (by rw [BitVec.add_comm, BitVec.add_sub_cancel]; rfl)
    · have hlt := w.toInt_lt
      rw [if_neg hle, BitVec.toInt_sub, hlen, Int.bmod_eq_of_le (by omega) (by omega)]
      by_cases hneg : width.toInt < 1
      · rw [if_pos hneg] at hw
        rw [← hw] at hle ⊢
        have hone : (1 : BitVec 32).toInt = 1 := rfl
        exact Or.inl (by omega)
      · rw [if_neg hneg] at hw
        exact Or.inr (by rw [hw])

/-- How `break_string` ends, by the lines. -/
theorem breakWith_eq (hstr : str.bytes.length < 2 ^ 31) (hindent : (istr.getD []).length < 2 ^ 31) :
    ∃ ls, splitLoop (lineWidth width istr - istr.elim 0 strlen).toInt str.bytes =
        some (written [] ls) ∧ original ls = str.bytes ∧ Proper ls ∧
      (∀ l ∈ ls, Short (lineWidth width istr - istr.elim 0 strlen).toInt l.text) ∧
      breakWith str width istr =
        if istr.getD [] = [] then .string (written [] ls)
        else if ls.length > Object.MAX_ARRAY_SIZE then .illegalSize
        else if ls ≠ [] ∧ counted (istr.getD []) (ls.map Line.text) + 1 < 2 ^ 32 then
          .string (written (istr.getD []) ls)
        else .outside := by
  obtain ⟨ls, hsplit, horiginal, hproper, hshort⟩ :=
    splitLoop_spec (lineWidth width istr - istr.elim 0 strlen).toInt hstr
  refine ⟨ls, hsplit, horiginal, hproper, hshort, ?_⟩
  have hindlen : istr.elim 0 strlen = 0 ↔ istr.getD [] = [] := by
    cases istr with
    | none => exact ⟨fun _ ↦ rfl, fun _ ↦ rfl⟩
    | some istr => exact strlen_eq_zero_iff hindent
  rw [breakWith, hsplit]
  dsimp only
  by_cases hnil : istr.getD [] = []
  · rw [if_pos (hindlen.2 hnil), if_pos hnil]
  rw [if_neg (mt hindlen.1 hnil), if_neg hnil]
  have hnul : 0 ∉ written [] ls := nul_notMem_written (horiginal ▸ str.noNul)
  have hdel : (CString.ofBytes [newline]).bytes = [newline] := rfl
  rw [explodeString_eq _ _ (cons_ne_nil _ _), ofBytes_bytes hnul, hdel,
    kept_pieces_written hproper, length_map, allocateArray]
  by_cases hmany : ls.length > Object.MAX_ARRAY_SIZE
  · rw [if_pos hmany, if_pos hmany]
  rw [if_neg hmany, if_neg hmany]
  dsimp only
  have hpieces : ∀ piece ∈ ls.map Line.text, 0 ∉ piece := by
    intro piece hpiece hmem
    obtain ⟨l, hl, rfl⟩ := mem_map.1 hpiece
    refine str.noNul (horiginal ▸ mem_flatMap.2 ⟨l, hl, mem_append_left _ hmem⟩)
  rw [strings_map_element hpieces]
  by_cases hempty : ls = []
  · rw [if_neg fun h ↦ h.1 hempty, hempty]
    rfl
  · rw [indentLines_written hproper hempty]
    by_cases hfits : counted (istr.getD []) (ls.map Line.text) + 1 < 2 ^ 32
    · rw [if_pos hfits, if_pos ⟨hempty, hfits⟩]
      rfl
    · rw [if_neg hfits, if_neg fun h ↦ hfits h.2]
      rfl

theorem Short.fits {w : ℤ} {istr text : Bytes} {width : ℤ} (h : Short w text)
    (hw : w = 1 ∨ w = width - istr.length) :
    (istr.length + text.length : ℤ) ≤ width ∨ ¬Breakable text := by
  rcases h with hle | hno
  · rcases hw with rfl | rfl
    · refine Or.inr ?_
      rintro ⟨a, b, rfl, hparts⟩
      have hlen : a.length + b.length = 0 := by
        rw [length_append, length_cons] at hle
        omega
      rcases hparts with ha | hb
      · exact ha (length_eq_zero_iff.1 (by omega))
      · exact hb (length_eq_zero_iff.1 (by omega))
    · exact Or.inl (by omega)
  · refine Or.inr ?_
    rintro ⟨a, b, rfl, -⟩
    exact hno (mem_append_right a mem_cons_self)

end Whole

/-- The indent string for an indent that `break_string` accepts. -/
def indentString : Option Svalue → Option Bytes
  | none => some []
  | some (.number n) => if n.toInt < 1000 then some (List.replicate n.toInt.toNat space) else none
  | some (.string s) => some s.bytes
  | some _ => none

/-- With an indent that is accepted, only the layout of the string changes, unless it has more lines
than an array can have elements. -/
def OnlyLayout (str : CString) (width : BitVec 32) (indent : Option Svalue) : Prop :=
  ∀ istr, indentString indent = some istr →
    match breakString str width indent with
    | .string r => ∃ ls, Layout str.bytes istr r width.toInt ls
    | .illegalSize => True
    | .fatal | .outside => False

/-- The lines of the string when it is split at the width. -/
def linesAt (str : CString) (width : BitVec 32) (istr : Bytes) : List Bytes :=
  let w := lineWidth width (some istr) - strlen istr
  kept (pieces [newline] ((splitLoop w.toInt str.bytes).getD []) [])

/-- There is no indent, or the string is not empty and the bytes of its lines, with an indent and a
newline for each of them, can be counted. -/
def Fits (str : CString) (width : BitVec 32) (istr : Bytes) : Prop :=
  istr = [] ∨ str.bytes ≠ [] ∧
    ((linesAt str width istr).length ≤ Object.MAX_ARRAY_SIZE →
      counted istr (linesAt str width istr) + 1 < 2 ^ 32)

/-- With an indent string, only the layout changes if the indented string fits, and otherwise an
access is made outside of a buffer. -/
theorem breakWith_iff {str : CString} {width : BitVec 32} {istr : Bytes}
    (hstr : str.bytes.length < 2 ^ 31) (hindent : istr.length < 2 ^ 31) :
    (match breakWith str width (some istr) with
      | .string r => ∃ ls, Layout str.bytes istr r width.toInt ls
      | .illegalSize => True
      | .fatal | .outside => False) ↔ Fits str width istr := by
  obtain ⟨ls, hsplit, horiginal, hproper, hshort, hend⟩ :=
    @breakWith_eq str width (some istr) hstr hindent
  have hlines : linesAt str width istr = ls.map Line.text := by
    rw [elim_some] at hsplit
    rw [linesAt, hsplit, getD_some, kept_pieces_written hproper]
  have hlayout : Layout str.bytes istr (written istr ls) width.toInt ls :=
    { hproper with
      written_eq := rfl
      original_eq := horiginal
      fits := fun l hl ↦ (hshort l hl).fits (lineWidth_spec hindent) }
  rw [hend, Fits, hlines, length_map, getD_some]
  by_cases hnil : istr = []
  · rw [if_pos hnil]
    exact ⟨fun _ ↦ Or.inl hnil, fun _ ↦ ⟨ls, hnil ▸ hlayout⟩⟩
  rw [if_neg hnil, or_iff_right hnil]
  have hempty : str.bytes = [] ↔ ls = [] := horiginal ▸ hproper.original_eq_nil_iff
  by_cases hmany : ls.length > Object.MAX_ARRAY_SIZE
  · rw [if_pos hmany]
    refine iff_of_true trivial ⟨fun h ↦ ?_, fun hle ↦ absurd hle (not_le.2 hmany)⟩
    rw [hempty.1 h] at hmany
    exact absurd hmany (Nat.not_lt_zero _)
  · rw [if_neg hmany]
    by_cases hfits : ls ≠ [] ∧ counted istr (ls.map Line.text) + 1 < 2 ^ 32
    · rw [if_pos hfits]
      exact iff_of_true ⟨ls, hlayout⟩ ⟨mt hempty.1 hfits.1, fun _ ↦ hfits.2⟩
    · rw [if_neg hfits]
      exact iff_of_false not_false fun h ↦ hfits ⟨mt hempty.2 h.1, h.2 (not_lt.1 hmany)⟩

theorem spaces_eq {l : ℤ} (hl : l < 1000) (hmin : -2 ^ 31 ≤ l) :
    spaces l = some (List.replicate l.toNat space) := by
  have hplace : l.toNat + 1 ≤ xalloc (l + 1) := by
    rw [xalloc]
    split <;> omega
  exact if_pos hplace

/-- **`break_string` only changes the layout, if the indented string fits**: it is not empty where
there is an indent, and the bytes of its lines, with an indent and a newline for each of them, are
less than `2 ^ 32 - 1`. -/
theorem onlyLayout_iff (str : CString) (width : BitVec 32) (indent : Option Svalue)
    (hstr : str.bytes.length < 2 ^ 31)
    (hindent : ∀ s : CString, indent = some (.string s) → s.bytes.length < 2 ^ 31) :
    OnlyLayout str width indent ↔
      ∀ istr, indentString indent = some istr → Fits str width istr := by
  refine forall_congr' fun istr ↦ imp_congr_right fun histr ↦ ?_
  rcases indent with - | v
  · -- without an indent there is nothing that could go wrong
    obtain rfl := some.inj histr
    obtain ⟨ls, -, horiginal, hproper, hshort, hend⟩ :=
      @breakWith_eq str width none hstr (by simp)
    rw [breakString, hend, getD_none, if_pos rfl]
    refine iff_of_true
      ⟨ls, { hproper with written_eq := rfl, original_eq := horiginal, fits := ?_ }⟩ (Or.inl rfl)
    exact fun l hl ↦ (hshort l hl).fits (lineWidth_spec (by simp))
  · cases v with
    | number n =>
      rw [indentString] at histr
      by_cases hn : n.toInt < 1000
      · rw [if_pos hn] at histr
        obtain rfl := some.inj histr
        rw [breakString, if_pos hn, spaces_eq hn n.le_toInt]
        exact breakWith_iff hstr (by rw [length_replicate]; omega)
      · rw [if_neg hn] at histr
        exact absurd histr nofun
    | string s =>
      obtain rfl := some.inj histr
      exact breakWith_iff hstr (hindent s rfl)
    | float | object | pointer | mapping | function => exact absurd histr nofun

/-- Two words, with an indent of two spaces. -/
theorem onlyLayout_iff_words :
    OnlyLayout (.ofBytes [0x61, 0x20, 0x62]) 3 (some (.number 2)) ↔
      ∀ istr, indentString (some (.number 2)) = some istr →
        Fits (.ofBytes [0x61, 0x20, 0x62]) 3 istr :=
  onlyLayout_iff _ _ _ (by decide) nofun

/-- An empty string with an indent: the character before the string is read. -/
theorem not_onlyLayout : ¬OnlyLayout (.ofBytes []) 10 (some (.number 2)) := by
  intro h
  have hmatch := h [0x20, 0x20] (by decide)
  have hend : breakString (.ofBytes []) 10 (some (.number 2)) = .outside := by
    have hindent : spaces 2 = some [0x20, 0x20] := by decide
    obtain ⟨ls, -, horiginal, hproper, -, hend⟩ :=
      @breakWith_eq (.ofBytes []) 10 (some [0x20, 0x20]) (by decide) (by decide)
    obtain rfl := hproper.original_eq_nil_iff.1 horiginal
    have hnumber : (2 : BitVec 32).toInt = 2 := by decide
    rw [breakString, hnumber, if_pos (by decide), hindent]
    exact hend
  rw [hend] at hmatch
  exact hmatch

end Lpmud.BreakString
