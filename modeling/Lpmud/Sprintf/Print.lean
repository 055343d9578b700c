import Lpmud.Sprintf.Column
import Lpmud.Sprintf.Values

/-!
# string_print_formatted

The scanner of format strings, with columns and tables. A column or a table that is not done when
its first line is printed goes on below it when the line of the format string ends.

The strings that are printed are changed in the meantime. A NUL is put at the end of a pad string,
of a string that is cut off and of every column of a table, and what it replaces is saved
(`SAVE_CHAR`) to be put back at the end, or when `ERROR` jumps. In `add_column` and `add_table` a
NUL is there for as long as a segment is printed.
-/

namespace Lpmud.Sprintf

open Abortable

abbrev PERCENT : UInt8 := 37
abbrev QUOTE : UInt8 := 39
abbrev STAR : UInt8 := 42
abbrev DIGIT_0 : UInt8 := 48

abbrev INFO_T_ERROR : FormatInfo := 0x1
abbrev INFO_T_NULL : FormatInfo := 0x2
abbrev INFO_T_LPC : FormatInfo := 0x3
abbrev INFO_T_STRING : FormatInfo := 0x4
abbrev INFO_T_FLOAT_E : FormatInfo := 0x5
abbrev INFO_T_FLOAT_F : FormatInfo := 0x6
abbrev INFO_T_FLOAT_G : FormatInfo := 0x7
abbrev INFO_ARRAY : FormatInfo := 0x100
abbrev INFO_COLS : FormatInfo := 0x200
abbrev INFO_TABLE : FormatInfo := 0x400

/-- Whether some flags are set. -/
def FormatInfo.has (finfo flags : FormatInfo) : Bool :=
  finfo &&& flags ≠ 0

/-- Characters are added. -/
def addText (cs : Bytes) : Print PUnit := do
  note fun s ↦ .add s.buff.length cs.length
  addChars cs

/-- A string is added in its field, with a NUL in the place of `save` if that is not one. -/
def justify (save : UInt8) (str : Bytes) (pad : Pad) (fs : BitVec 32) (finfo : FormatInfo)
    (trailing : Bool) : Print PUnit := do
  note fun s ↦ .field s.buff.length save str.length pad fs finfo trailing
  addJustified str pad fs finfo trailing

/-! ### Strings -/

def Ptr.add (p : Ptr) (n : ℕ) : Ptr :=
  { p with offset := p.offset + n }

/-- What there is from a pointer on. -/
def State.bytes (s : State) (p : Ptr) : Bytes :=
  (s.mem p.block).drop p.offset

/-- The byte in front of a pointer. -/
def State.before (s : State) (p : Ptr) : UInt8 :=
  if p.offset = 0 then s.front p.block else (s.mem p.block).getD (p.offset - 1) 0

/-- Write a byte. -/
def State.poke (s : State) (p : Ptr) (c : UInt8) : State :=
  { s with mem := Function.update s.mem p.block ((s.mem p.block).set p.offset c) }

/-- Read a byte. -/
def peek (p : Ptr) : Print UInt8 := do
  let s ← read
  there ((s.bytes p).head?.elim (.error (.past p.block)) .ok)

/-- `SAVE_CHAR`, and a NUL in its place. -/
def saveChar (p : Ptr) : Print PUnit := do
  let c ← peek p
  modify fun s ↦ { s with saves := (p, c) :: s.saves }
  modify fun s ↦ s.poke p 0

/-- A NUL is written to a string, which is put back later if the string is an argument. -/
def writeNul (isClean : Bool) (p : Ptr) : Print PUnit :=
  if isClean then modify fun s ↦ s.poke p 0 else saveChar p

/-- A NUL in the place of a character that is put back soon. -/
def takeOut (p : Ptr) : Print UInt8 := do
  let save ← peek p
  modify fun s ↦ s.poke p 0
  pure save

/-- The character is put back. -/
def putBack (p : Ptr) (save : UInt8) : Print PUnit :=
  modify fun s ↦ s.poke p save

/-- Where a pad string is. -/
inductive PadPtr where
  | blank
  | zero
  | quoted (p : Ptr)

/-- What is at the place of a pad string. -/
def State.pad (s : State) : PadPtr → Pad
  | .blank => ⟨[SPACE, 0], .fault⟩
  | .zero => ⟨[DIGIT_0, 0], .fault⟩
  | .quoted p => ⟨s.bytes p, .past p.block⟩

/-! ### Columns and tables -/

/-- What is still to be printed of a column, or of the columns of a table. -/
inductive CstData where
  | col (col : Ptr)
  | tab (nocols : ℕ) (tab : List (Option Ptr))

/-- A column or a table that is not done (`cst`). -/
structure Cst where
  d : CstData
  pad : PadPtr
  start : ℕ
  size : BitVec 32
  prec : BitVec 32
  info : FormatInfo

/-- A segment of a column or of a table is printed, with a NUL at its end. -/
def addSegment (c : Cst) (p : Ptr) (done : ℕ) (trailing : Bool) : Print PUnit := do
  let save ← takeOut (p.add done)
  let s ← read
  justify save (stringAt (s.bytes p)) (s.pad c.pad) c.size c.info trailing
  putBack (p.add done) save

/-- Where the next segment begins, and whether there is none: if this or the next character is a
NUL. -/
def nextSegment (p : Ptr) : Print (Ptr × Bool) := do
  if (← peek p) = 0 then
    pure (p, true)
  else
    pure (p.add 1, decide ((← peek (p.add 1)) = 0))

/-- `add_column`, with what it returns and where the column goes on. -/
def addColumn (c : Cst) (col : Ptr) (next trailing : Bool) : Print (ℕ × Ptr) := do
  let s ← read
  let done := columnBreak c.prec.toNat (s.bytes col)
  addSegment c col done (trailing || next)
  let (col, completed) ← nextSegment (col.add done)
  let s ← read
  pure (if completed then if s.before col = NEWLINE then 2 else 1 else 0, col)

/-- The loop of `add_table` for the columns from the `i`-th one on: what is left of them, and with
which column it ends. -/
def addTableColumns (c : Cst) (nocols : ℕ) (next trailing : Bool) :
    ℕ → List (Option Ptr) → Print (List (Option Ptr) × ℕ)
  | i, some p :: tab =>
    if i < nocols then do
      let s ← read
      let done := (restOfLine (s.bytes p)).length
      addSegment c p done (trailing || decide (i + 1 < nocols) || next)
      let (p, completed) ← nextSegment (p.add done)
      let (tab, i) ← addTableColumns c nocols next trailing (i + 1) tab
      pure ((if completed then none else some p) :: tab, i)
    else pure (some p :: tab, i)
  | i, none :: tab => pure (none :: tab, i)
  | i, [] => if i < nocols then halt .fault else pure ([], i)

/-- `add_table`, with the columns that are left, if the table is not completed. -/
def addTable (c : Cst) (nocols : ℕ) (tab : List (Option Ptr)) (next trailing : Bool) :
    Print (Option (List (Option Ptr))) := do
  let (tab, i) ← addTableColumns c nocols next trailing 0 tab
  if trailing then
    addText (List.replicate ((nocols - i) * c.size.toNat) SPACE)
  match tab with
  | some p :: tab => pure (some (some p :: tab))
  | none :: _ => pure none
  | [] => halt .fault

/-- Blanks up to the position where a column or a table begins. -/
def addStart (c : Cst) : Print PUnit := do
  let s ← read
  addText (List.replicate (c.start - s.curpos) SPACE)

/-- One line of every column and of every table. What the last `add_column` returned is kept. -/
def columnRound : ℕ → List Cst → Print (ℕ × List Cst)
  | stat, [] => pure (stat, [])
  | stat, c :: csts =>
    match c.d with
    | .col col => do
      let s ← read
      let blanks := if s.before col = NEWLINE then 0
        else ((s.bytes col).takeWhile (· = SPACE)).length
      addStart c
      let (ret, col) ← addColumn c (col.add blanks) (!csts.isEmpty) false
      let (stat, csts) ← columnRound ret csts
      pure (stat, if ret = 0 then { c with d := .col col } :: csts else csts)
    | .tab nocols tab => do
      addStart c
      let left ← addTable c nocols tab (!csts.isEmpty) false
      let (stat, csts) ← columnRound stat csts
      pure (stat, left.elim csts fun tab ↦ { c with d := .tab nocols tab } :: csts)

/-- The lines of columns and tables that are left. There is no room in the buffer for more rounds
than `fuel`. -/
def columnRounds (format : Ptr) : (fuel stat : ℕ) → List Cst → Print ℕ
  | _, stat, [] => pure stat
  | 0, _, _ => halt .rounds
  | fuel + 1, stat, csts => do
    let (stat, csts) ← columnRound stat csts
    if !csts.isEmpty || decide ((← peek format) = NEWLINE) then
      addText [NEWLINE]
    modify fun s ↦ { s with curpos := 0 }
    columnRounds format fuel stat csts

/-! ### Conversions -/

/-- What a conversion says: the field size, the precision, the pad string and the flags. -/
structure Spec where
  fs : BitVec 32
  prec : BitVec 32
  pad : PadPtr
  finfo : FormatInfo

/-- The words of a table: how many there are, the length of the last one, and the longest of the
others. -/
def scanTable : Bytes → (n len max : ℕ) → ℕ × ℕ × ℕ
  | [], n, len, max => (n, len, max)
  | c :: text, n, len, max =>
    if c = NEWLINE then scanTable text (if text = [] then n else n + 1) 0 (Nat.max max len)
    else scanTable text n (len + 1) max

/-- How many columns a table is to have, before it is known how many are filled. -/
def tablePrec (text : Bytes) (fs prec : ℕ) : ℕ :=
  if prec ≠ 0 then prec
  else
    let (_, len, max) := scanTable text 1 0 0
    -- at least two separating spaces
    let prec := fs / (Nat.max max len + 2)
    if prec = 0 then 1 else prec

/-- The width of the columns of a table. -/
def tableSize (text : Bytes) (fs prec : ℕ) : ℕ :=
  fs / tablePrec text fs prec

/-- How many words are in a column, and how many columns are filled. -/
def tableShape (n prec : ℕ) : ℕ × ℕ :=
  let len := n / prec
  let prec := if n < prec then n else prec
  let len := if len * prec < n then len + 1 else len
  (len, if len > 1 ∧ n % prec ≠ 0 then prec - (prec - n % prec) / len else prec)

/-- Where a table is cut into columns of `len` words. There are `cols` columns still to begin, and
`n` words in the column so far. -/
def tableBreaks (len : ℕ) : (cols n fs : ℕ) → Bytes → List ℕ
  | 0, _, _, _ => []
  | _ + 1, _, _, [] => []
  | cols + 1, n, fs, c :: text =>
    if c ≠ NEWLINE then tableBreaks len (cols + 1) n (fs + 1) text
    else if n + 1 ≥ len then fs :: tableBreaks len cols 0 (fs + 1) text
    else tableBreaks len (cols + 1) (n + 1) (fs + 1) text

/-- The part for tables: the new table, what is left of it when its first line is printed, and what
`fs` and `prec` are then. -/
def addNewTable (p : Ptr) (isClean : Bool) (spec : Spec) (trailing : Bool) :
    Print (Spec × Option Cst) := do
  let s ← read
  let text := stringAt (s.bytes p)
  let size := tableSize text spec.fs.toNat spec.prec.toNat
  let (n, _) := scanTable text 1 0 0
  let (len, prec) := tableShape n (tablePrec text spec.fs.toNat spec.prec.toNat)
  let breaks := tableBreaks len (prec - 1) 0 0 text
  breaks.forM fun b ↦ writeNul isClean (p.add b)
  -- `fs` has gone over the string
  let fs := if prec = 1 then spec.fs
    else if breaks.length = prec - 1 then .ofNat 32 (breaks.getLast?.getD 0)
    else .ofNat 32 text.length
  let tab := some p :: breaks.map fun b ↦ some (p.add (b + 1))
  let c : Cst := ⟨.tab (prec % 2 ^ 16) tab, spec.pad, s.curpos, .ofNat 32 size, 0, spec.finfo⟩
  let left ← addTable c (prec % 2 ^ 16) tab false trailing
  pure ({ spec with fs := fs, prec := .ofNat 32 prec },
    left.map fun tab ↦ { c with d := .tab (prec % 2 ^ 16) tab })

/-- The part for columns: the column that is left when its first line is printed. -/
def addNewColumn (p : Ptr) (spec : Spec) (c : UInt8) (trailing : Bool) : Print (Option Cst) := do
  let s ← read
  let prec := if spec.prec ≠ 0 then spec.prec else spec.fs
  let cst : Cst := ⟨.col p, spec.pad, s.curpos, spec.fs, prec, spec.finfo⟩
  let (ret, col) ← addColumn cst p false trailing
  if ret = 2 ∧ c = 0 then
    addText [NEWLINE]
  pure (if ret = 0 then some { cst with d := .col col } else none)

/-- A string is cut off at its precision. -/
def cutString (p : Ptr) (isClean : Bool) (prec : BitVec 32) (slen : ℕ) : Print ℕ := do
  if prec ≠ 0 ∧ prec.toInt < slen then
    writeNul isClean (p.add prec.toNat)
    pure prec.toNat
  else pure slen

/-- The part for strings that are neither columns nor tables. -/
def addPlain (p : Ptr) (slen : ℕ) (spec : Spec) (format : Ptr) (more : Bool) : Print PUnit := do
  if spec.fs ≠ 0 ∧ spec.fs.toNat > slen then
    let c ← peek format
    let s ← read
    let trailing := decide (c ≠ NEWLINE ∧ c ≠ 0) || more || s.before (p.add slen) ≠ NEWLINE
    justify 0 (stringAt (s.bytes p)) (s.pad spec.pad) spec.fs spec.finfo trailing
  else
    let s ← read
    addText ((s.bytes p).take slen)

/-- The part for strings. -/
def addString (p : Ptr) (isClean : Bool) (spec : Spec) (format : Ptr) (more : Bool)
    (csts : List Cst) : Print (Spec × List Cst) := do
  let s ← read
  let slen := (stringAt (s.bytes p)).length
  if spec.finfo.has INFO_COLS || spec.finfo.has INFO_TABLE then
    if spec.fs = 0 then
      ERROR .cstRequiresFs
    else
      let c ← peek format
      let trailing := decide (c ≠ NEWLINE ∧ c ≠ 0) || more
      if spec.finfo.has INFO_COLS then
        let left ← addNewColumn p spec c trailing
        pure (spec, csts ++ left.toList)
      else
        let (spec, left) ← addNewTable p isClean spec trailing
        pure (spec, csts ++ left.toList)
  else
    let slen ← cutString p isClean spec.prec slen
    addPlain p slen spec format more
    pure (spec, csts)

/-- What `error` is called with when an argument is not a number. -/
def incorrectArg (conv : String) : String :=
  "ERROR: (s)printf(): incorrect argument type to %" ++ conv ++ ".\n"

/-- The letter of a conversion for integers or floats. -/
def convLetter (finfo : FormatInfo) : String :=
  let conv := finfo &&& INFO_T
  if conv = INFO_T_INT then "d"
  else if conv = INFO_T_CHAR then "c"
  else if conv = INFO_T_OCT then "o"
  else if conv = INFO_T_HEX then "x"
  else if conv = INFO_T_C_HEX then "X"
  else if conv = INFO_T_FLOAT_E then "e"
  else if conv = INFO_T_FLOAT_F then "f"
  else "g"

/-- The step in which a string of C is added in its field. -/
def State.fieldStep (s : State) (temp : Bytes) (pad : Pad) (fs : BitVec 32)
    (finfo : FormatInfo) (trailing : Bool) : Step :=
  if temp.length < fs.toNat then
    .field s.buff.length 0 (stringAt temp).length pad fs finfo trailing
  else .add s.buff.length temp.length

/-- The size of `temp`, which integers fit into. -/
abbrev TEMP_SIZE : ℕ := 100

/-- So many characters and a NUL are written to `temp`, with whatever precision. -/
def printTemp (n : ℕ) : Print PUnit := do
  note fun _ ↦ .temp n
  if TEMP_SIZE ≤ n then halt .overrun

/-- The part for integers and for floats. -/
def addNumber (w : World) (carg : Value) (spec : Spec) (format : Ptr) (more : Bool) :
    Print PUnit := do
  let conv := spec.finfo &&& INFO_T
  let c ← peek format
  let s ← read
  let pad := s.pad spec.pad
  let trailing := decide (c ≠ NEWLINE ∧ c ≠ 0) || more
  if spec.finfo.has INFO_T_INT then
    if conv > INFO_T_C_HEX then ERROR .badIntType
    else
      match carg with
      | .number n => do
        let temp := cutInteger n spec.prec spec.finfo
        note fun s ↦ s.fieldStep temp pad spec.fs spec.finfo trailing
        addInteger n pad spec.fs spec.prec spec.finfo trailing
      | _ => raise (incorrectArg (convLetter spec.finfo))
  else if conv = INFO_T_FLOAT_E ∨ conv = INFO_T_FLOAT_F ∨ conv = INFO_T_FLOAT_G then
    match carg with
    | .float x =>
      let temp := (w.printFloat spec.finfo spec.prec x).bytes
      printTemp temp.length
      note fun s ↦ s.fieldStep temp pad spec.fs spec.finfo trailing
      addField temp pad spec.fs spec.finfo trailing temp.length
    | _ => raise (incorrectArg (convLetter spec.finfo))
  else ERROR .undefinedType

/-- The string that an LPC value is printed to. -/
def makeClean (w : World) (callMaster : Bool) (v : Value) : Print Ptr := do
  let s ← read
  modify fun s ↦ { s with clean := some s.cleans, cleans := s.cleans + 1 }
  let text ← svalueToString w callMaster v [] 512 0 false
  modify fun s' ↦ { s' with mem := Function.update s'.mem (.clean s.cleans) (text ++ [0]) }
  pure ⟨.clean s.cleans, 0⟩

/-- The string that an LPC value was printed to is freed. -/
def State.freeClean (s : State) : State :=
  { s with
    mem := s.clean.elim s.mem fun n ↦ Function.update s.mem (.clean n) []
    clean := none }

/-- A conversion, for an argument or for an element of it. -/
def addConversion (w : World) (callMaster : Bool) (carg : Value) (spec : Spec) (format : Ptr)
    (more : Bool) (csts : List Cst) : Print (Spec × List Cst) := do
  let conv := spec.finfo &&& INFO_T
  let done ← if conv = INFO_T_LPC then do
      let p ← makeClean w callMaster carg
      -- what is a string from here on stays one for all elements of an array
      let spec := { spec with finfo := (spec.finfo ^^^ INFO_T_LPC) ||| INFO_T_STRING }
      addString p true spec format more csts
    else if conv = INFO_T_ERROR then ERROR .invalidFormatStr
    else if conv = INFO_T_NULL then do
      addText [PERCENT]
      pure (spec, csts)
    else if conv = INFO_T_STRING then
      match carg with
      | .string a => addString ⟨.given a, 0⟩ false spec format more csts
      | _ => ERROR .incorrectArgS
    else do
      addNumber w carg spec format more
      pure (spec, csts)
  modify State.freeClean
  pure done

/-- The loop over the elements of an array; any other argument is the only one. -/
def addConversions (w : World) (callMaster : Bool) (format : Ptr) :
    List Value → Spec → List Cst → Print (List Cst)
  | [], _, csts => pure csts
  | carg :: item, spec, csts => do
    let (spec, csts) ← addConversion w callMaster carg spec format (!item.isEmpty) csts
    addConversions w callMaster format item spec csts

/-! ### The format string -/

/-- `GET_NEXT_ARG`, with the number of arguments that are taken. -/
def getNextArg (argv : List Value) (arg : ℕ) : Print ℕ :=
  if arg ≥ argv.length then ERROR .toFewArgs else pure (arg + 1)

def isDigit (c : UInt8) : Bool :=
  48 ≤ c && c ≤ 57

/-- A loop over digits, with where it ends. -/
def scanDigits (format : Ptr) : (fuel fpos : ℕ) → BitVec 32 → Print (ℕ × BitVec 32)
  | 0, _, _ => halt .rounds
  | fuel + 1, fpos, n => do
    let c ← peek (format.add fpos)
    if isDigit c then
      scanDigits format fuel (fpos + 1) (n * 10 + .ofNat 32 (c.toNat - 48))
    else pure (fpos, n)

/-- The loop over a pad string, with where its end is. A backslash passes over whatever is behind
it. -/
def scanPad (format : Ptr) (pad : ℕ) : (fuel fpos : ℕ) → Print ℕ
  | 0, _ => halt .rounds
  | fuel + 1, fpos => do
    let c ← peek (format.add fpos)
    if c = 0 then
      ERROR .unexpectedEos
    else if c = BACKSLASH then
      scanPad format pad fuel (fpos + 2)
    else if c = QUOTE then
      if fpos = pad then ERROR .nullPs
      else
        saveChar (format.add fpos)
        pure fpos
    else scanPad format pad fuel (fpos + 1)

/-- The value of `*`. -/
def starArg (argv : List Value) (arg : ℕ) : Print (BitVec 32) :=
  match argv[arg - 1]? with
  | some (.number n) => pure n
  | _ => ERROR .invalidStar

/-- While a precision is looked for, behind a dot and behind a colon. -/
abbrev PREC_DOT : BitVec 32 := -1
abbrev PREC_COLON : BitVec 32 := -2

/-- A digit or a star in a conversion, with where it ends. -/
def scanNumber (format : Ptr) (argv : List Value) (fuel : ℕ) (c : UInt8) (fpos arg : ℕ)
    (spec : Spec) : Print (ℕ × ℕ × Spec) := do
  if spec.prec = PREC_DOT then
    if c = STAR then
      let n ← starArg argv arg
      let arg ← getNextArg argv arg
      pure (fpos + 1, arg, { spec with prec := n })
    else
      let (fpos, n) ← scanDigits format fuel (fpos + 1) (.ofNat 32 (c.toNat - 48))
      pure (fpos, arg, { spec with prec := n })
  else
    let c' ← peek (format.add (fpos + 1))
    -- behind a colon, the field size is the precision too
    let prec (fs : BitVec 32) := if spec.prec = PREC_COLON then fs else spec.prec
    if c = DIGIT_0 ∧ (isDigit c' ∧ c' ≠ DIGIT_0 ∨ c' = STAR) then
      let (fpos, n) ← scanDigits format fuel (fpos + 1) spec.fs
      pure (fpos, arg, { spec with fs := n, prec := prec n, pad := .zero })
    else if c = STAR then
      let n ← starArg argv arg
      let arg ← getNextArg argv arg
      pure (fpos + 1, arg, { spec with fs := n, prec := prec n })
    else
      let (fpos, n) ← scanDigits format fuel (fpos + 1) (.ofNat 32 (c.toNat - 48))
      pure (fpos, arg, { spec with fs := n, prec := prec n })

/-- The flag of a character in a conversion. -/
def flag (c : UInt8) : FormatInfo :=
  if c = SPACE then INFO_PP_SPACE
  else if c = 43 then INFO_PP_PLUS
  else if c = 45 then INFO_J_LEFT
  else if c = 124 then INFO_J_CENTRE
  else if c = 64 then INFO_ARRAY
  else if c = 61 then INFO_COLS
  else if c = 35 then INFO_TABLE
  else if c = PERCENT then INFO_T_NULL
  else if c = 79 then INFO_T_LPC
  else if c = 115 then INFO_T_STRING
  else if c = 100 ∨ c = 105 then INFO_T_INT
  else if c = 99 then INFO_T_CHAR
  else if c = 111 then INFO_T_OCT
  else if c = 120 then INFO_T_HEX
  else if c = 88 then INFO_T_C_HEX
  else if c = 101 then INFO_T_FLOAT_E
  else if c = 102 then INFO_T_FLOAT_F
  else if c = 103 then INFO_T_FLOAT_G
  else INFO_T_ERROR

/-- The loop over a conversion, with where it ends and how many arguments are taken. -/
def scanSpec (format : Ptr) (argv : List Value) :
    (fuel fpos arg : ℕ) → Spec → Print (ℕ × ℕ × Spec)
  | 0, _, _, _ => halt .rounds
  | fuel + 1, fpos, arg, spec =>
    if spec.finfo.has INFO_T then pure (fpos, arg, spec)
    else do
      let c ← peek (format.add fpos)
      if c = 0 then
        pure (fpos, arg, { spec with finfo := spec.finfo ||| INFO_T_ERROR })
      else if isDigit c ∨ c = STAR then
        let (fpos, arg, spec) ← scanNumber format argv fuel c fpos arg spec
        scanSpec format argv fuel fpos arg spec
      else if c = QUOTE then
        note fun s ↦ .quote (s.bytes (format.add (fpos + 1)))
        let close ← scanPad format (fpos + 1) fuel (fpos + 1)
        let spec := { spec with pad := .quoted (format.add (fpos + 1)) }
        scanSpec format argv fuel (close + 1) arg spec
      else if c = 46 then
        scanSpec format argv fuel (fpos + 1) arg { spec with prec := PREC_DOT }
      else if c = 58 then
        scanSpec format argv fuel (fpos + 1) arg { spec with prec := PREC_COLON }
      else
        scanSpec format argv fuel (fpos + 1) arg { spec with finfo := spec.finfo ||| flag c }

/-- The loop over the format string. -/
def scanFormat (w : World) (callMaster : Bool) (format : Ptr) (argv : List Value) :
    (fuel fpos arg : ℕ) → List Cst → Print PUnit
  | 0, _, _, _ => halt .rounds
  | fuel + 1, fpos, arg, csts => do
    let c ← peek (format.add fpos)
    if c = NEWLINE ∨ c = 0 then
      if csts.isEmpty then
        if c = 0 then
          pure .unit
        else
          addText [NEWLINE]
          modify fun s ↦ { s with curpos := 0 }
          scanFormat w callMaster format argv fuel (fpos + 1) arg []
      else
        addText [NEWLINE]
        modify fun s ↦ { s with curpos := 0 }
        let stat ← columnRounds (format.add fpos) (BUFF_SIZE + 2) 0 csts
        if stat = 2 then
          addText [NEWLINE]
        if (← peek (format.add fpos)) = 0 then
          pure .unit
        else scanFormat w callMaster format argv fuel (fpos + 1) arg []
    else if c = PERCENT then
      if (← peek (format.add (fpos + 1))) = PERCENT then
        addText [PERCENT]
        scanFormat w callMaster format argv fuel (fpos + 2) arg csts
      else
        let arg ← getNextArg argv arg
        let (fpos, arg, spec) ← scanSpec format argv fuel (fpos + 1) arg ⟨0, 0, .blank, 0⟩
        if spec.prec.toInt < 0 then ERROR .precExpected
        else
          let item := if spec.finfo.has INFO_ARRAY then
              match argv[arg - 1]? with
              | some (.pointer item) => item
              | _ => []
            else argv[arg - 1]?.toList
          let csts ← addConversions w callMaster (format.add fpos) item spec csts
          scanFormat w callMaster format argv fuel fpos arg csts
    else
      addText [c]
      scanFormat w callMaster format argv fuel (fpos + 1) arg csts

/-- What is saved is put back. -/
def State.restore (s : State) : State :=
  s.saves.foldl (fun s (p, c) ↦ s.poke p c) { s with saves := [] }

/-- How a call ends. -/
inductive Outcome where
  | buff (s : Bytes)
  | error (message : String)
  | fault (stop : Option Stop)
  deriving DecidableEq

/-- Where a call ends that is cut short: `ERROR` has jumped, or not. -/
def State.exit (s : State) : Outcome × State :=
  match s.stop with
  -- error handling
  | some (.jump x) => (.error ("ERROR: (s)printf(): " ++ x.err ++ "\n"), s.freeClean.restore)
  | some (.raise message) => (.error message, s)
  | stop => (.fault stop, s)

/-- `string_print_formatted`. A call begins with what calls before it have left in the variables of
`sprintf.c`, the buffer excepted. -/
def stringPrintFormatted (w : World) (callMaster : Bool) (formatStr : Addr) (argv : List Value)
    (s : State) : Outcome × State :=
  let format : Ptr := ⟨.given formatStr, 0⟩
  let s := { s with buff := [], curpos := 0, steps := [], stop := none }
  match (do
    scanFormat w callMaster format argv ((s.mem format.block).length + 2) 0 0 []
    addText [0]) s with
  | (some _, s) => (.buff (stringAt s.buff), s.restore)
  | (none, s) => s.exit

end Lpmud.Sprintf
