import Mathlib.Data.List.Basic
import Mathlib.Algebra.Order.Group.Int

/-!
# Line numbers

The table of line numbers that is written while a program is compiled (`store_line_number_info`,
`end_lineno_info`), and the program that reads it (`inner_get_srccode_position`).

The table says for each stretch of code how long it is, and which line follows. Four things go wrong
with it. Nothing is read for the offsets 0 and 1, so that they always belong to line 0
(`getSrccodePosition_of_le`); the first two offsets of each stretch are read as those of the one
before; a line that is not the next one is not corrected by one; and when a stretch is written, the
line of the call is forgotten.
-/

namespace Lpmud.Compiler.LineNumbers

/-! ### Writing the table -/

/-- The block `A_LINENUMBERS` with what is remembered of the calls before. -/
structure Lineno where
  block : List ℕ
  prevLine : ℕ
  prevFile : ℕ
  prevCode : ℕ
  lastLine : ℕ
  lastFile : ℕ
  lastCode : ℕ

def initLinenoInfo : Lineno :=
  ⟨[], 0, 0, 0, 0, 0, 0⟩

namespace Lineno

/-- `add_to_mem_block`. -/
def add (s : Lineno) (bytes : List ℕ) : Lineno :=
  { s with block := s.block ++ bytes.map (· % 256) }

/-- A round of the loop for long stretches of code, up to the offset `code`. -/
def storeRound (code : ℕ) (s : Lineno) : Lineno :=
  let s := { s.add [0x00] with lastLine := s.lastLine + 1, lastCode := s.lastCode + 0xF0 }
  if s.lastCode < code then { s.add [0xF9] with lastLine := s.lastLine - 1 } else s

/-- The loop, with at most `fuel` rounds. -/
def storeLong (code : ℕ) : ℕ → Lineno → Lineno
  | 0, s => s
  | fuel + 1, s =>
    if 0xF0 ≤ code - s.lastCode then storeLong code fuel (s.storeRound code) else s

/-- What is left of the code up to the offset `code`. -/
def storeShort (code : ℕ) (s : Lineno) : Lineno :=
  if s.lastCode < code then { s.add [code - s.lastCode] with lastLine := s.lastLine + 1 } else s

/-- The length of the code from `last_code` to the offset `code`. -/
def storeCode (code : ℕ) (s : Lineno) : Lineno :=
  storeShort code (storeLong code (code - s.lastCode) s)

/-- The position `prev_file`, `prev_line`, as it follows on `last_file`, `last_line`. -/
def storePosition (s : Lineno) : Lineno :=
  if s.lastFile ≠ s.prevFile then
    { s.add [0xF8, s.prevFile, s.prevLine / 256, s.prevLine] with
      lastFile := s.prevFile, lastLine := s.prevLine }
  else if s.lastLine ≠ s.prevLine then
    let s' :=
      if s.lastLine < s.prevLine ∧ s.prevLine - s.lastLine ≤ 0x7 then
        s.add [0xF0 + (s.prevLine - s.lastLine)]
      else if s.prevLine < s.lastLine ∧ s.lastLine - s.prevLine ≤ 0x7 then
        s.add [0xF8 + (s.lastLine - s.prevLine)]
      else s.add [0xF0, s.prevLine / 256, s.prevLine]
    { s' with lastLine := s.prevLine }
  else s

/-- `store_line_number_info`, where `code` is the size of the program. -/
def storeLineNumberInfo (code file line : ℕ) (s : Lineno) : Lineno :=
  if file = s.prevFile ∧ line = s.prevLine then s
  else if code = s.prevCode then { s with prevLine := line, prevFile := file }
  else if s.prevLine = s.lastLine ∧ s.prevFile = s.lastFile then
    { s with prevCode := code, prevLine := line, prevFile := file }
  else
    storePosition { storeCode s.prevCode s with lastCode := s.prevCode, prevCode := code }

/-- `end_lineno_info`. What it does with `last_line` is not looked at any more. -/
def endLinenoInfo (code : ℕ) (s : Lineno) : List ℕ :=
  (storeCode code s).block

end Lineno

/-! ### Reading the table -/

/-- Where the reader is. -/
structure Cursor where
  code : ℤ
  line : ℤ
  file : ℕ
  deriving DecidableEq

/-- What is done for a byte that is not followed by others: some lines forward or backward, or some
code, which is followed by the next line. -/
def Cursor.read (l : ℕ) (cur : Cursor) : Cursor :=
  if 0xF0 < l ∧ l < 0xF8 then { cur with line := cur.line + (l - 0xF0) }
  else if 0xF8 < l then { cur with line := cur.line - (l - 0xF8) }
  else { cur with code := cur.code + if l = 0x00 then 0xF0 else l, line := cur.line + 1 }

/-- The loop of `inner_get_srccode_position`, which ends at the offset `code`. There are always
two bytes behind a jump, and three behind a file. -/
def readLoop (code : ℤ) : Cursor → List ℕ → Cursor
  | cur, [] => cur
  | cur, 0xF8 :: file :: hi :: lo :: rest =>
    if cur.code < code then readLoop code { cur with file, line := 256 * hi + lo } rest else cur
  | cur, 0xF0 :: hi :: lo :: rest =>
    if cur.code < code then readLoop code { cur with line := 256 * hi + lo } rest else cur
  | cur, l :: rest => if cur.code < code then readLoop code (cur.read l) rest else cur

/-- `inner_get_srccode_position`: the number of the file, and the line. -/
def getSrccodePosition (code : ℕ) (lineno : List ℕ) : ℕ × ℤ :=
  let cur := readLoop (code - 1) ⟨0, 1, 0⟩ lineno
  (cur.file, cur.line - 1)

/-! ### Compilations -/

/-- What happens while a program is compiled. -/
inductive Event where
  /-- so much code is emitted -/
  | emit (size : ℕ)
  /-- `store_line_number_info` -/
  | store (file line : ℕ)

/-- The size of the program and the line numbers after some events. -/
def run : ℕ × Lineno → List Event → ℕ × Lineno
  | s, [] => s
  | (code, s), .emit size :: events => run (code + size, s) events
  | (code, s), .store file line :: events =>
    run (code, s.storeLineNumberInfo code file line) events

/-- The table of a program. -/
def table (events : List Event) : List ℕ :=
  let (code, s) := run (0, initLinenoInfo) events
  s.endLinenoInfo code

/-- The code from `start` to `stop` with what was passed to the call that closed it. -/
structure Stretch where
  start : ℕ
  stop : ℕ
  file : ℕ
  line : ℕ
  deriving DecidableEq

/-- The stretches that are closed, where the first begins at `start` and the program has the size
`code`. -/
def closed (start code : ℕ) : List Event → List Stretch
  | [] => []
  | .emit size :: events => closed start (code + size) events
  | .store file line :: events => ⟨start, code, file, line⟩ :: closed code code events

/-- **The table can be read**: each offset has the file and the line that were passed to the call
that closed its stretch. -/
def RoundTrip (events : List Event) : Prop :=
  ∀ s ∈ closed 0 0 events, ∀ code, s.start ≤ code → code < s.stop →
    getSrccodePosition code (table events) = (s.file, (s.line : ℤ))

/-! ### Offsets at the start -/

variable {code : ℤ} {cur : Cursor} {bytes : List ℕ}

theorem readLoop_of_le (h : code ≤ cur.code) : readLoop code cur bytes = cur := by
  rw [readLoop.eq_def]
  split
  · rfl
  all_goals exact if_neg (not_lt.2 h)

theorem getSrccodePosition_of_le {code : ℕ} (h : code ≤ 1) (lineno : List ℕ) :
    getSrccodePosition code lineno = (0, 0) := by
  rw [getSrccodePosition, readLoop_of_le (by dsimp only; omega)]
  rfl

theorem exists_first_closed {code : ℕ} {events : List Event}
    (h : ∃ s ∈ closed 0 code events, s.start < s.stop) :
    ∃ s ∈ closed 0 code events, s.start = 0 ∧ 0 < s.stop := by
  induction events generalizing code with
  | nil =>
    obtain ⟨_, hmem, -⟩ := h
    exact absurd hmem List.not_mem_nil
  | cons event events ih =>
    cases event with
    | emit size => exact ih h
    | store file line =>
      rcases Nat.eq_zero_or_pos code with rfl | hpos
      · have htail : ∃ s ∈ closed 0 0 events, s.start < s.stop := by
          obtain ⟨s, hmem, hlt⟩ := h
          rcases List.mem_cons.1 hmem with rfl | hmem
          · exact absurd hlt (lt_irrefl _)
          · exact ⟨s, hmem, hlt⟩
        obtain ⟨s, hmem, hs⟩ := ih htail
        exact ⟨s, .tail _ hmem, hs⟩
      · exact ⟨_, .head _, rfl, hpos⟩

theorem line_of_mem_closed {s : Stretch} {events : List Event} {start code : ℕ}
    (h : s ∈ closed start code events) : .store s.file s.line ∈ events := by
  induction events generalizing start code with
  | nil => exact absurd h List.not_mem_nil
  | cons event events ih =>
    cases event with
    | emit size => exact .tail _ (ih h)
    | store file line =>
      rcases List.mem_cons.1 h with rfl | h
      · exact .head _
      · exact .tail _ (ih h)

/-! ### Programs with code in each line -/

/-- The lines from the number `line` on, which have so much code each. -/
def lines (line : ℕ) : List ℕ → List Event
  | [] => []
  | size :: sizes => .emit size :: .store 0 line :: lines (line + 1) sizes

theorem mem_lines {file line first : ℕ} {sizes : List ℕ}
    (h : .store file line ∈ lines first sizes) : file = 0 ∧ first ≤ line := by
  induction sizes generalizing first with
  | nil => exact absurd h List.not_mem_nil
  | cons size sizes ih =>
    simp only [lines, List.mem_cons, reduceCtorEq, false_or, Event.store.injEq] at h
    rcases h with ⟨rfl, rfl⟩ | h
    · exact ⟨rfl, le_rfl⟩
    · exact ⟨(ih h).1, Nat.le_of_succ_le (ih h).2⟩

/-! ### The round trip -/

/-- **The table can be read** exactly when no call closes a stretch that has code. Lines are counted
from 1. -/
theorem roundTrip_iff {events : List Event}
    (h : ∀ file line, .store file line ∈ events → 1 ≤ line) :
    RoundTrip events ↔ ∀ s ∈ closed 0 0 events, s.stop ≤ s.start := by
  constructor
  · intro hround
    by_contra hcode
    push Not at hcode
    obtain ⟨s, hmem, hstart, hstop⟩ := exists_first_closed hcode
    have hzero := hround s hmem 0 hstart.le hstop
    rw [getSrccodePosition_of_le zero_le_one] at hzero
    have hline := h s.file s.line (line_of_mem_closed hmem)
    have := congrArg Prod.snd hzero
    dsimp only at this
    omega
  · intro hcode s hmem code hstart hstop
    have := hcode s hmem
    omega

/-- With code in two of three lines the table cannot be read, and without any it can. -/
theorem roundTrip_iff_lines : ¬RoundTrip (lines 1 [5, 0, 7]) ∧ RoundTrip (lines 1 [0, 0, 0]) :=
  ⟨mt (roundTrip_iff fun _ _ h ↦ (mem_lines h).2).1 (by decide),
    (roundTrip_iff fun _ _ h ↦ (mem_lines h).2).2 (by decide)⟩

/-- A program with five bytes of code in each of its first three lines. The code of the third is
read as that of the second. -/
theorem not_roundTrip : ¬∀ events : List Event,
    (∀ file line, .store file line ∈ events → 1 ≤ line) → RoundTrip events := by
  intro hall
  have hround := hall (lines 1 [5, 5, 5, 5]) (fun _ _ h ↦ (mem_lines h).2) ⟨10, 15, 0, 3⟩
    (by decide) 13 (by decide) (by decide)
  revert hround
  decide

end Lpmud.Compiler.LineNumbers
