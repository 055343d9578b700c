import Lpmud.Lex.Characters
import Lpmud.Lib.Scanner

/-!
# The condition of `#if`

`cond_get_exp` of `lex.c`, with its tables. The text is what `add_input` has put in front of the
input; the NUL behind it is put back whenever it has been read, and is the end of the list here.
What is done at an identifier (a macro, or `defined`) is up to the macros: the reader ends there.

Beside the errors there are notes of three places where the code does something else than C, though
it goes on: a digit that is as large as the base, a hexadecimal number without digits, and a `?`
directly behind an operand of another conditional.
-/

namespace Lpmud.Lex.Condition

open Scanner

/-! ### The tables -/

@[match_pattern] abbrev BNOT : ℕ := 1
@[match_pattern] abbrev LNOT : ℕ := 2
@[match_pattern] abbrev UMINUS : ℕ := 3
@[match_pattern] abbrev UPLUS : ℕ := 4

@[match_pattern] abbrev MULT : ℕ := 1
@[match_pattern] abbrev DIV : ℕ := 2
@[match_pattern] abbrev MOD : ℕ := 3
@[match_pattern] abbrev BPLUS : ℕ := 4
@[match_pattern] abbrev BMINUS : ℕ := 5
@[match_pattern] abbrev LSHIFT : ℕ := 6
@[match_pattern] abbrev RSHIFT : ℕ := 7
@[match_pattern] abbrev LESS : ℕ := 8
@[match_pattern] abbrev LEQ : ℕ := 9
@[match_pattern] abbrev GREAT : ℕ := 10
@[match_pattern] abbrev GEQ : ℕ := 11
@[match_pattern] abbrev EQ : ℕ := 12
@[match_pattern] abbrev NEQ : ℕ := 13
@[match_pattern] abbrev BAND : ℕ := 14
@[match_pattern] abbrev XOR : ℕ := 15
@[match_pattern] abbrev BOR : ℕ := 16
@[match_pattern] abbrev LAND : ℕ := 17
@[match_pattern] abbrev LOR : ℕ := 18
@[match_pattern] abbrev QMARK : ℕ := 19

/-- `_optab`, which begins with the blank. -/
def optab : List ℕ :=
  [0, 4, 0, 0, 0, 26, 56, 0, 0, 0, 18, 14, 0, 10, 0, 22,
    0, 0, 0, 0, 0, 0, 0, 0, 0, 0, 0, 0, 30, 50, 40, 74,
    0, 0, 0, 0, 0, 0, 0, 0, 0, 0, 0, 0, 0, 0, 0, 0,
    0, 0, 0, 0, 0, 0, 0, 0, 0, 0, 0, 0, 0, 0, 70, 0,
    0, 0, 0, 0, 0, 0, 0, 0, 0, 0, 0, 0, 0, 0, 0, 0,
    0, 0, 0, 0, 0, 0, 0, 0, 0, 0, 0, 0, 63, 0, 1]

def optab1 (c : UInt8) : ℕ :=
  optab.getD (c.toNat - 32) 0

/-- `optab2`: a unary operator, and then what may follow the character, which operator it is then,
and its priority. The characters are `=` (61), `<` (60), `>` (62), `&` (38) and `|` (124). -/
def optab2 : List ℕ :=
  [BNOT, 0, 0, LNOT, 61, NEQ, 7, 0, 0, UMINUS, 0, BMINUS, 10, UPLUS, 0, BPLUS, 10,
    0, 0, MULT, 11, 0, 0, DIV, 11, 0, 0, MOD, 11,
    0, 60, LSHIFT, 9, 61, LEQ, 8, 0, LESS, 8, 0, 62, RSHIFT, 9, 61, GEQ, 8, 0, GREAT, 8,
    0, 61, EQ, 7, 0, 0, 0, 38, LAND, 3, 0, BAND, 6, 0, 124, LOR, 2, 0, BOR, 4,
    0, 0, XOR, 5, 0, 0, QMARK, 1]

/-! ### The reader -/

/-- An error that is reported, or a place where the code leaves C. -/
inductive Note where
  | error (msg : String)
  | digit
  | noDigits
  | conditional
  deriving DecidableEq

/-- A division traps, there is an identifier, or the model has run out of its steps. -/
inductive Crash where
  | trap
  | identifier
  | fuel
  deriving DecidableEq

abbrev Reader :=
  Scanner Crash Note UInt8

def lexerror (msg : String) : Reader PUnit :=
  note (.error msg)

def exgetc : Reader (Option UInt8) := fun s ↦
  match s with
  | [] => .ok (none, [], [])
  | c :: s =>
    if isAlpha c || c == UNDERSCORE then .error .identifier else .ok (some c, s, [])

/-- `do c = exgetc(); while (isspace(c));`. -/
def skipBlanks : Reader (Option UInt8)
  | [] => exgetc []
  | c :: s => if isSpace c then skipBlanks s else exgetc (c :: s)

/-- What `x` is for a digit or letter. -/
def digitValue (c : UInt8) : Option ℕ :=
  if isDigit c then some (c.toNat - 48)
  else if isUpper c then some (c.toNat - 65 + 10)
  else if isLower c then some (c.toNat - 97 + 10)
  else none

/-- The loop over the digits. -/
def digits (base : ℕ) : (value : Int32) → (s : Bytes) → Int32 × Bytes × List Note
  | value, [] => (value, [], [])
  | value, c :: s =>
    match digitValue c with
    | none => (value, c :: s, [])
    | some x =>
      if base < x then (value, c :: s, [])
      else
        let r := digits base (value * Int32.ofNat base + Int32.ofNat x) s
        if x = base then (r.1, r.2.1, .digit :: r.2.2) else r

/-- A number that begins with `c`. -/
def number (c : UInt8) : Reader Int32 := fun s ↦
  if c ≠ ZERO then .ok (digits 10 0 (c :: s))
  else
    match s with
    | [] => .ok (digits 8 0 [])
    | d :: s =>
      if d = 120 ∨ d = 88 then
        if (s.head?.bind digitValue).any (· < 16) then .ok (digits 16 0 s)
        else
          let r := digits 16 0 s
          .ok (r.1, r.2.1, .noDigits :: r.2.2)
      else .ok (digits 8 0 (d :: s))

/-- The unary operators. -/
def unary (op : ℕ) (value : Int32) : Option Int32 :=
  match op with
  | BNOT => some (~~~value)
  | LNOT => some (if value = 0 then 1 else 0)
  | UMINUS => some (-value)
  | UPLUS => some value
  | _ => none

/-- The search for a binary operator from `optab1[c]` on, with the character behind it: what has to
follow it (0 for anything), the operator and its priority. -/
def findOp (value2 : Option UInt8) : List ℕ → Option (ℕ × ℕ × ℕ)
  | second :: op :: priority :: rows =>
    if second = 0 then if op = 0 then none else some (0, op, priority)
    else if value2.map UInt8.toNat = some second then some (second, op, priority)
    else findOp value2 rows
  | _ => none

/-- A comparison, or a logical operator. -/
def truth (p : Prop) [Decidable p] : Int32 :=
  if p then 1 else 0

/-- A division that traps. -/
def Traps (value value2 : Int32) : Prop :=
  value2 = 0 ∨ value = Int32.minValue ∧ value2 = -1

instance (value value2 : Int32) : Decidable (Traps value value2) :=
  inferInstanceAs (Decidable (_ ∨ _))

/-- The binary operators. -/
def binary (op : ℕ) (value value2 : Int32) : Except Crash Int32 :=
  match op with
  | MULT => .ok (value * value2)
  | DIV => if Traps value value2 then .error .trap else .ok (value / value2)
  | MOD => if Traps value value2 then .error .trap else .ok (value % value2)
  | BPLUS => .ok (value + value2)
  | BMINUS => .ok (value - value2)
  | LSHIFT => .ok (value <<< value2)
  | RSHIFT => .ok (value.toUInt32 >>> value2.toUInt32).toInt32
  | LESS => .ok (truth (value < value2))
  | LEQ => .ok (truth (value ≤ value2))
  | GREAT => .ok (truth (value2 < value))
  | GEQ => .ok (truth (value2 ≤ value))
  | EQ => .ok (truth (value = value2))
  | NEQ => .ok (truth (value ≠ value2))
  | BAND => .ok (value &&& value2)
  | XOR => .ok (value ^^^ value2)
  | BOR => .ok (value ||| value2)
  | LAND => .ok (truth (value ≠ 0 ∧ value2 ≠ 0))
  | LOR => .ok (truth (value ≠ 0 ∨ value2 ≠ 0))
  | _ => .ok value

/-- A computation without reading. -/
def compute (x : Except Crash Int32) : Reader Int32 := fun s ↦
  match x with
  | .error e => .error e
  | .ok value => .ok (value, s, [])

/-- Whether the character behind an operand of a conditional is another `?`. -/
def again (c : Option UInt8) : Reader PUnit := fun s ↦
  .ok (.unit, s, if c = some QUESTION then [.conditional] else [])

/-- The beginning of `cond_get_exp`, with its first character: `cond` is the call of itself with a
priority, and `loop` the loop over the operators behind a value. -/
def operand (cond : ℕ → Reader Int32) (loop : Int32 → Reader Int32) : Option UInt8 → Reader Int32
  | none => do
    lexerror "missing expression in #if"
    pure 0
  | some c =>
    if c = LPAREN then do
      let value ← cond 0
      let c ← skipBlanks
      if c ≠ some RPAREN then lexerror "bracket not paired in #if"
      loop value
    else if isPunct c then
      if optab1 c = 0 then do
        lexerror "illegal character in #if"
        pure 0
      else do
        let value ← cond 12
        match unary (optab2.getD (optab1 c - 1) 0) value with
        | some value => loop value
        | none => do
          lexerror "illegal unary operator in #if"
          pure 0
    else if isDigit c then do
      let value ← number c
      loop value
    else do
      lexerror "illegal character in #if"
      pure 0

/-- The operator `op` is applied to the value and what is behind it. -/
def applyOp (cond : ℕ → Reader Int32) (loop : Int32 → Reader Int32) (op priority : ℕ)
    (value : Int32) : Reader Int32 := do
  let value2 ← cond priority
  if op = QMARK then do
    let c ← skipBlanks
    if c = some COLON then do
      let value3 ← cond 1
      again (← peek)
      loop (if value ≠ 0 then value2 else value3)
    else do
      again c
      lexerror "'?' without ':' in #if"
      putBack c
      pure 0
  else do
    let value ← compute (binary op value value2)
    loop value

/-- One turn of the loop over the operators, with its first character. -/
def operator (cond : ℕ → Reader Int32) (loop : Int32 → Reader Int32) (priority : ℕ)
    (value : Int32) : Option UInt8 → Reader Int32
  | none => pure value
  | some c =>
    if isPunct c = true ∧ optab1 c ≠ 0 then do
      let value2 ← next
      match findOp value2 (optab2.drop (optab1 c)) with
      | none => do
        putBack value2
        lexerror "illegal operator use in #if"
        pure 0
      | some (second, op, opPriority) =>
        if opPriority ≤ priority then do
          putBack value2
          putBack (some c)
          pure value
        else do
          putBack (if second = 0 then value2 else none)
          applyOp cond loop op opPriority value
    else do
      putBack (some c)
      pure value

mutual

def condGetExp : (fuel priority : ℕ) → Reader Int32
  | 0, _ => crash .fuel
  | n + 1, priority => skipBlanks >>= operand (condGetExp n) (operators n priority)

/-- The loop over the operators behind `value`. -/
def operators : (fuel priority : ℕ) → (value : Int32) → Reader Int32
  | 0, _, _ => crash .fuel
  | n + 1, priority, value =>
    skipBlanks >>= operator (condGetExp n) (operators n priority) priority value

end

/-- The evaluation of the text behind `#if`, in which the whole text has to be read. -/
def evaluate (text : Bytes) : Except Crash (Int32 × List Note) :=
  (condGetExp (text.length + 1) 0 text).map fun r ↦
    (r.1, if r.2.1 = [] then r.2.2 else r.2.2 ++ [.error "Condition too complex in #if"])

end Lpmud.Lex.Condition
