import Lpmud.Object.Save
import Mathlib.Data.List.Infix

/-!
# `sscanf`

`find_percent` and `inter_sscanf` of `interpret.c`, on texts without the NUL behind them. Scanning a
float is a parameter.

Of a run the matches are kept: for each character of the format that was matched by itself, and for
each value that was assigned, what was left of the format and of the string behind it.
-/

namespace Lpmud.Sscanf

abbrev PERCENT : UInt8 := 37
abbrev PLUS : UInt8 := 43
abbrev MINUS : UInt8 := 45
abbrev LETTER_D : UInt8 := 100
abbrev LETTER_F : UInt8 := 102
abbrev LETTER_S : UInt8 := 115

/-- A value that is assigned to a variable. -/
inductive Scanned where
  | number (n : BitVec 32)
  | float (x : CFloat)
  | string (s : Bytes)

/-- A match, by what is left behind it, with the value if one was assigned. -/
structure Match where
  value : Option Scanned
  fmt : Bytes
  inString : Bytes

/-- The errors. -/
inductive Failure where
  /-- `Bad type : '%%%c' in sscanf fmt string.` -/
  | badType (c : UInt8)
  /-- `Illegal to have 2 adjacent %%s in fmt string in sscanf.` -/
  | adjacent
  /-- `Floating pointer overflow.` -/
  | overflow
  deriving DecidableEq

/-- The matches, and the number that is returned. -/
structure Run where
  trace : List Match
  result : Except Failure ℕ

namespace Run

/-- A run that ends. -/
def stop (numberOfMatches : ℕ) : Run :=
  ⟨[], .ok numberOfMatches⟩

def fail (e : Failure) : Run :=
  ⟨[], .error e⟩

/-- A match comes first. -/
def prepend (m : Match) (r : Run) : Run :=
  ⟨m :: r.trace, r.result⟩

/-- The values that are assigned, to one variable after the other. -/
def values (r : Run) : List Scanned :=
  r.trace.filterMap Match.value

end Run

/-! ### Numbers -/

def isSpace (c : UInt8) : Bool :=
  c == 32 || (9 ≤ c && c ≤ 13)

/-- `strtol` with base 10, for a `long` of 64 bits, and the conversion to `int`. Without a number
there is nothing. -/
def strtol (s : Bytes) : Option (BitVec 32 × Bytes) :=
  let s := s.dropWhile isSpace
  let negative := s.head? = some MINUS
  let s := if s.head? = some MINUS ∨ s.head? = some PLUS then s.tail else s
  let digits := s.takeWhile Decimal.isDigit
  if digits = [] then none
  else
    let n : ℤ := if negative then -Decimal.value digits else Decimal.value digits
    some (BitVec.ofInt 32 (max (-2 ^ 63) (min n (2 ^ 63 - 1))), s.dropWhile Decimal.isDigit)

/-! ### The functions -/

def findPercent : Bytes → Option Bytes
  | [] => none
  | c :: str =>
    if c = PERCENT then
      -- `str++` goes to the second one, and that is the next to be looked at
      if str.head? = some PERCENT then findPercent str else some (c :: str)
    else findPercent str

/-- The search for the text `text`: what is in front of it, and what is behind it. -/
def search (text : Bytes) : Bytes → Option (Bytes × Bytes)
  | [] => none
  | c :: s =>
    if text <+: c :: s then some ([], (c :: s).drop text.length)
    else (search text s).map fun (front, back) ↦ (c :: front, back)

section Scan

/- `chkfloatrange` of what `strtod` reads, and what it leaves; without a float there is nothing. -/
variable (strtod : Bytes → Option (Option CFloat × Bytes))

/-- The loop that follows a number: characters that are the same are skipped, and what is done
`next` needs a `%`. -/
def skipText (next : Bytes → Bytes → Run) (numberOfMatches : ℕ) :
    Bytes → Bytes → Run
  | [], _ => .stop numberOfMatches
  | c :: fmt, [] => if c = PERCENT then next (c :: fmt) [] else .stop numberOfMatches
  | c :: fmt, d :: inString =>
    if c = d then .prepend ⟨none, fmt, inString⟩ (skipText next numberOfMatches fmt inString)
    else if c = PERCENT then next (c :: fmt) (d :: inString)
    else .stop numberOfMatches

/-- The loop of `inter_sscanf` over the variables that are left. The format is at a `%`, or at its
end. -/
def scanArgs : (numArg : ℕ) → (fmt inString : Bytes) → (numberOfMatches : ℕ) → Run
  | 0, _, _, numberOfMatches => .stop numberOfMatches
  | _ + 1, [], inString, numberOfMatches =>
    -- what is left goes to the next variable
    if inString = [] then .stop numberOfMatches
    else .prepend ⟨some (.string inString), [], inString⟩ (.stop (numberOfMatches + 1))
  | _ + 1, [_], _, _ => .fail (.badType 0)
  | numArg + 1, _ :: type :: fmt, inString, numberOfMatches =>
    if type = LETTER_D then
      match strtol inString with
      | none => .stop numberOfMatches
      | some (n, inString) =>
        .prepend ⟨some (.number n), fmt, inString⟩
          (skipText (fun fmt inString ↦ scanArgs numArg fmt inString (numberOfMatches + 1))
            (numberOfMatches + 1) fmt inString)
    else if type = LETTER_F then
      match strtod inString with
      | none => .stop numberOfMatches
      | some (none, _) => .fail .overflow
      | some (some x, inString) =>
        .prepend ⟨some (.float x), fmt, inString⟩
          (skipText (fun fmt inString ↦ scanArgs numArg fmt inString (numberOfMatches + 1))
            (numberOfMatches + 1) fmt inString)
    else if type = LETTER_S then
      let cp := (findPercent fmt).getD []
      if findPercent fmt = some fmt then .fail .adjacent
      else if cp = fmt then
        .prepend ⟨some (.string inString), fmt, inString⟩ (.stop (numberOfMatches + 1))
      else
        match search (fmt.take (fmt.length - cp.length)) inString with
        | none => .stop numberOfMatches
        | some (front, back) =>
          .prepend ⟨some (.string front), cp, back⟩
            (scanArgs numArg cp back (numberOfMatches + 1))
    else .fail (.badType type)

/-- The loop of `inter_sscanf` over the text in front of the first `%`, which is at `cp`. -/
def leadingText (cp : Option Bytes) (numArg : ℕ) : Bytes → Bytes → Run
  | [], inString => if cp = some [] then scanArgs strtod numArg [] inString 0 else .stop 0
  | c :: fmt, inString =>
    if cp = some (c :: fmt) then scanArgs strtod numArg (c :: fmt) inString 0
    else
      match inString with
      | [] => .stop 0
      | d :: inString =>
        if c = d then .prepend ⟨none, fmt, inString⟩ (leadingText cp numArg fmt inString)
        else .stop 0

/-- `inter_sscanf`, with `numArg` variables. -/
def interSscanf (fmt inString : Bytes) (numArg : ℕ) : Run :=
  leadingText strtod (findPercent fmt) numArg fmt inString

end Scan

end Lpmud.Sscanf
