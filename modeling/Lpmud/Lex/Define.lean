import Lpmud.Lex.Characters
import Lpmud.Lib.Checked

/-!
# Macro definitions

`handle_define` of `lex.c`. In the text of a macro with parameters a parameter is stored as the
marker and a letter, and the marker itself twice. The table of the parameters, the buffers for the
names and the one for the text are of fixed sizes, and every write to them is kept.

Comments are gone from the lines. What `refill` reads, one line after the other, is given with
whether it reports the line as too long; at the end of the file there are no more lines. Where
`p[-2]` is in front of `yytext`, it is the byte `before`. In front of `yyt` there is a blank.
-/

namespace Lpmud.Lex.Macro

/-- The marker. -/
abbrev MARKS : UInt8 := 64

abbrev NARGS : ℕ := 25
abbrev NSIZE : ℕ := 256
abbrev MLEN : ℕ := 8192

/-- A macro (`struct defn`). Without a parameter list `nargs` is -1. -/
structure Defn where
  name : Bytes
  nargs : Option ℕ
  exps : Bytes

/-- A line that `refill` reads. -/
structure Line where
  text : Bytes
  tooLong : Bool

open Checked

/-! ### The beginning of the line -/

/-- `GETALPHA` for a buffer that has `q` so far: the name, and what is behind it. -/
def getAlpha (q : Bytes) : Bytes → Checked (Bytes × Bytes)
  | [] => do
    write NSIZE q.length
    pure (q, [])
  | c :: p =>
    if isAlunum c then do
      write NSIZE q.length
      if q.length < NSIZE - 1 then getAlpha (q ++ [c]) p
      else fail "Name too long"
    else do
      write NSIZE q.length
      pure (q, c :: p)

def skipWhite (p : Bytes) : Bytes :=
  p.dropWhile isSpace

/-- The loop over the parameters, `k` of which the table has room for. It ends at the `)`. -/
def paramLoop : (k : ℕ) → (args : List Bytes) → (p : Bytes) →
    Checked (List Bytes × Bytes)
  | 0, args, p => pure (args, p)
  | k + 1, args, p => do
    write NARGS args.length
    let (arg, p) ← getAlpha [] p
    match skipWhite p with
    | [] => fail "Missing ',' in #define parameter list"
    | c :: p =>
      if c = RPAREN then pure (args ++ [arg], c :: p)
      else if c = COMMA then paramLoop k (args ++ [arg]) (skipWhite p)
      else fail "Missing ',' in #define parameter list"

/-- The parameter list behind the `(`: the parameters, and what is behind the `)`. -/
def parameters (p : Bytes) : Checked (List Bytes × Bytes) := do
  let p := skipWhite p
  if p.head? = some RPAREN then pure ([], p.tail)
  else do
    let (args, p) ← paramLoop NARGS [] p
    if args.length = NARGS then fail "Too many macro arguments"
    else pure (args, p.tail)

/-! ### The text -/

/-- The text so far (what is in front of `q`), and the identifier that is being read (from `ids` to
`p`; there is none if it is empty). -/
structure Body where
  q : Bytes
  ids : Bytes

/-- The end of an identifier: if it is a parameter it is replaced. -/
def endId (args : List Bytes) (s : Body) : Checked Body :=
  if s.ids = [] then pure s
  else
    match args.findIdx? (· = s.ids) with
    | none => pure ⟨s.q, []⟩
    | some n => do
      let q := s.q.take (s.q.length - s.ids.length)
      write MLEN q.length
      write MLEN (q.length + 1)
      pure ⟨q ++ [MARKS, UInt8.ofNat (n + 64 + 1)], []⟩

/-- A character is put to the end of the text, and the marker twice. -/
def putText (s : Body) (c : UInt8) : Checked Body := do
  write MLEN s.q.length
  if c = MARKS then do
    write MLEN (s.q.length + 1)
    if s.q.length + 1 < MLEN - 2 then pure ⟨s.q ++ [MARKS, MARKS], s.ids⟩
    else fail "Macro text too long"
  else if s.q.length < MLEN - 2 then pure ⟨s.q ++ [c], s.ids⟩
  else fail "Macro text too long"

/-- One character of the text of a macro with parameters. -/
def bodyChar (args : List Bytes) (s : Body) (c : UInt8) : Checked Body :=
  if isAlunum c then putText ⟨s.q, s.ids ++ [c]⟩ c
  else do
    let s ← endId args s
    putText s c

/-- One character of the text of a macro without parameters. -/
def plainChar (s : Body) (c : UInt8) : Checked Body := do
  write MLEN s.q.length
  if s.q.length < MLEN - 2 then pure ⟨s.q ++ [c], s.ids⟩
  else fail "Macro text too long"

/-- `q -= 2`. -/
def Body.back (s : Body) : Body :=
  ⟨s.q.take (s.q.length - 2), s.ids⟩

/-- What the loop over the text comes to: a character, or the end of a line behind a backslash,
where `refill` reads the next one, which may be too long. -/
inductive Meets where
  | char (c : UInt8)
  | refill (tooLong : Bool)
  | endless

/-- The text on one line, with a blank at its end, and the lines that continue it. In front of the
text is the character `prev`. At the end of the file `refill` reads a line of a blank only, and
again, if there is a backslash in front of it. -/
def textOf (before : UInt8) :
    (lines : List Line) → (prev : UInt8) → (line : Bytes) → List Meets
  | lines, prev, line =>
    line.map .char ++ .char SPACE ::
      if line.getLast?.getD prev = BACKSLASH then
        match lines with
        | [] => .refill false :: .char SPACE :: if before = BACKSLASH then [.endless] else []
        | l :: lines => .refill l.tooLong :: textOf before lines before l.text
      else []

/-- The loop over the text, which does `step` for a character. -/
def bodyStep (step : Body → UInt8 → Checked Body) (s : Body) : Meets → Checked Body
  | .char c => step s c
  | .refill tooLong => do
    if tooLong then report "Line too long"
    pure s.back
  | .endless => stuck

/-- `*--q = 0`. -/
def endBody (s : Body) : Checked Bytes := do
  write MLEN (s.q.length - 1)
  pure s.q.dropLast

/-- `handle_define`, with what `yyt` points to and the lines behind it, up to `add_define`. -/
def handleDefine (before : UInt8) (yyt : Bytes) (lines : List Line) : Checked Defn := do
  let (namebuf, p) ← getAlpha [] yyt
  if p.head? = some LPAREN then do
    let (args, p) ← parameters p.tail
    let mtext ← (textOf before lines RPAREN p).foldlM (bodyStep (bodyChar args)) ⟨[], []⟩
    let exps ← endBody mtext
    pure ⟨namebuf, some args.length, exps⟩
  else do
    let mtext ← (textOf before lines (namebuf.getLast?.getD SPACE) p).foldlM
      (bodyStep plainChar) ⟨[], []⟩
    let exps ← endBody mtext
    pure ⟨namebuf, none, exps⟩

end Lpmud.Lex.Macro
