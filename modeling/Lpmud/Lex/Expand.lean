import Lpmud.Lex.Define

/-!
# Macro expansion

`expand_define` of `lex.c`. The arguments are collected in a buffer, one behind the other, with a
table of where they begin, and the text of the macro is put together in another one. All three are
of fixed sizes, and every write to them is kept.

What is read behind the name of the macro is given as `cmygetc` and `mygetc` deliver it, without the
comments outside of quotes, up to the end of the file.
-/

namespace Lpmud.Lex.Macro

open Checked

abbrev DEFMAX : ℕ := 10000
abbrev EXPANDMAX : ℕ := 25000

/-! ### The arguments -/

/-- The arguments that have been read, the one that is being read, and how much of the buffer is in
use (`q`). -/
structure Args where
  args : List Bytes
  arg : Bytes
  q : ℕ

/-- Where the loop over the arguments is: outside of quotes, inside of quotes `quote`, or there
behind a backslash; and how many parentheses are open. Then it is behind the last `)`. -/
inductive Collecting where
  | outside (parcnt : ℕ) (s : Args)
  | inside (quote : UInt8) (parcnt : ℕ) (s : Args)
  | escaped (quote : UInt8) (parcnt : ℕ) (s : Args)
  | ended (args : List Bytes) (input : Bytes)

/-- A character is put into the argument, if there is room. -/
def putArg (s : Args) (c : UInt8) : Checked Args :=
  if DEFMAX - 5 ≤ s.q then fail "Macro argument overflow"
  else do
    write DEFMAX s.q
    pure ⟨s.args, s.arg ++ [c], s.q + 1⟩

/-- One character of the arguments. -/
def collect : Collecting → UInt8 → Checked Collecting
  | .outside parcnt s, c =>
    if c = COMMA ∧ parcnt = 0 then do
      write DEFMAX s.q
      write NARGS (s.args.length + 1)
      if s.args.length + 1 = NARGS then fail "Maximum macro argument count exceeded"
      else pure (.outside parcnt ⟨s.args ++ [s.arg], [], s.q + 1⟩)
    else if c = RPAREN ∧ parcnt = 0 then do
      write DEFMAX s.q
      if s.args.length + 1 = NARGS then fail "Maximum macro argument count exceeded"
      else pure (.ended (s.args ++ [s.arg]) [])
    else do
      let s ← putArg s c
      if c = QUOTE ∨ c = APOSTROPHE then pure (.inside c parcnt s)
      else if c = LPAREN then pure (.outside (parcnt + 1) s)
      else if c = RPAREN then pure (.outside (parcnt - 1) s)
      else pure (.outside parcnt s)
  | .inside quote parcnt s, c =>
    if c = BACKSLASH then do
      write DEFMAX s.q
      pure (.escaped quote parcnt ⟨s.args, s.arg ++ [c], s.q + 1⟩)
    else if c = NEWLINE then fail "Newline in string"
    else do
      let s ← putArg s c
      if c = quote then pure (.outside parcnt s) else pure (.inside quote parcnt s)
  | .escaped quote parcnt s, c => do
    let s ← putArg s c
    pure (.inside quote parcnt s)
  | .ended args input, c => pure (.ended args (input ++ [c]))

/-- The loop over the arguments: they, and what is behind the `)`. -/
def collectArgs (input : Bytes) : Checked (List Bytes × Bytes) := do
  write NARGS 0
  match ← input.foldlM collect (.outside 0 ⟨[], [], 0⟩) with
  | .ended args input => pure (args, input)
  | _ => fail "Unexpected end of file"

/-- The argument list of a macro call. -/
def arguments (input : Bytes) : Checked (List Bytes × Bytes) :=
  let input := input.dropWhile isSpace
  if input.head? = some LPAREN then
    let input := input.tail.dropWhile isSpace
    if input.head? = some RPAREN then pure ([], input.tail) else collectArgs input
  else fail "Missing '(' in macro call"

/-! ### The expansion -/

/-- The expansion so far, and whether a marker has been read. -/
structure Expansion where
  b : Bytes
  marked : Bool

/-- One character is put to the end of the expansion, which must not fill the buffer. -/
def putChar (b : Bytes) (c : UInt8) : Checked Bytes := do
  write DEFMAX b.length
  if b.length + 1 < DEFMAX then pure (b ++ [c]) else fail "Macro expansion overflow"

/-- A NUL ends a string. -/
def asString (arg : Bytes) : Bytes :=
  arg.takeWhile (· ≠ 0)

/-- One character of the text of the macro. A marker with any other character behind it than the
marker or the letter of a parameter is not there (`returns_handleDefine`). -/
def expand (args : List Bytes) (s : Expansion) (c : UInt8) : Checked Expansion :=
  if s.marked then
    if c = MARKS then do
      write DEFMAX s.b.length
      pure ⟨s.b ++ [MARKS], false⟩
    else if c < MARKS then stuck
    else
      match args[c.toNat - 64 - 1]? with
      | none => stuck
      | some arg => do
        let b ← (asString arg).foldlM putChar s.b
        pure ⟨b, false⟩
  else if c = MARKS then pure ⟨s.b, true⟩
  else do
    let b ← putChar s.b c
    pure ⟨b, false⟩

/-- `add_input`, where `nbuf` characters are to be read already: what is put in front of them. -/
def addInput (nbuf : ℕ) (p : Bytes) : Checked Bytes :=
  if DEFMAX - 10 ≤ nbuf + p.length then fail "Macro expansion buffer overflow" else pure p

/-- `expand_define` for the macro `p`: what is put in front of the input, and the rest of that. -/
def expandDefine (nexpands nbuf : ℕ) (p : Defn) (input : Bytes) :
    Checked (Bytes × Bytes) :=
  if EXPANDMAX < nexpands then fail "Too many macro expansions"
  else
    match p.nargs with
    | none => do
      let text ← addInput nbuf p.exps
      pure (text, input)
    | some nargs => do
      let (args, input) ← arguments input
      if args.length = nargs then do
        let s ← p.exps.foldlM (expand args) ⟨[], false⟩
        write DEFMAX s.b.length
        let text ← addInput nbuf s.b
        pure (text, input)
      else fail "Wrong number of macro arguments"

end Lpmud.Lex.Macro
