import Lpmud.Strings.Explode

/-!
# Commands and patterns

`parse` of `parse.c`, the efun `parse_command`, goes through the elements of a pattern and the words
of a command with an index for each of them. `one_parse` tries one element at one word, `sub_parse`
the alternatives that are separated by `"/"`, and `parse` itself looks for the place where the
element behind a `"%s"` matches.

The elements that look for objects or read a numeral (`%i`, `%l`, `%o`, `%d`) are a parameter. A
fill-in value goes to the next of the arguments, as long as there is one.
-/

namespace Lpmud.ParseCommand

open Explode

/-- A word of a command, or an element of a pattern. -/
abbrev Word : Type := Bytes

/-- The delimiter `" "`. -/
def SPACE : CString := ⟨[32], by decide⟩

/-- The element `"/"`. -/
def SLASH : Word := [47]

/-- The element `"%s"`. -/
def REST : Word := [37, 115]

/-- What `one_parse` gives: the fill-in value, the next word, and whether it failed. An optional
element that is not there fails with 2. -/
structure OneParse where
  pval : Option Svalue
  cix : ℕ
  fail : ℕ

/-- What the elements do that look for objects or read a numeral, for the letter of the element. -/
abbrev Directives : Type := UInt8 → Word → List Word → ℕ → OneParse

/-- A quoted word against a word: `str1` has a character behind the word. -/
def sameWord (str1 str2 : Word) : Bool :=
  str1.take (str1.length - 1) = str2.take (str1.length - 1) ∧ str1.length = str2.length + 1

/-- `one_parse`: the element `pat` at the word `cix`. -/
def oneParse (other : Directives) (pat : Word) (wvec : List Word) (cix : ℕ) : OneParse :=
  match wvec[cix]? with
  | none => ⟨none, cix, if pat.head? = some 91 then 0 else 1⟩
  | some word =>
    let ch := if pat.head? = some 37 then pat.getD 1 0 else pat.getD 0 0
    if ch = 105 ∨ ch = 108 ∨ ch = 111 ∨ ch = 100 then other ch pat wvec cix
    -- a double %s in the pattern is skipped
    else if ch = 115 then ⟨none, cix, 0⟩
    else if ch = 119 then ⟨some (element word), cix + 1, 0⟩
    else if ch = 39 then
      if sameWord (pat.drop 1) word then ⟨none, cix + 1, 0⟩ else ⟨none, cix, 1⟩
    else if ch = 91 then
      if sameWord (pat.drop 1) word then ⟨none, cix + 1, 0⟩ else ⟨none, cix, 2⟩
    -- invalid patterns are skipped
    else ⟨none, cix, 0⟩

section Patterns

variable (other : Directives) (patvec wvec : List Word)

/-- Consecutive `"/"` are skipped, from `pix` on; the result tells whether there are any. There are
`n` elements from there on. -/
def skipSlash : ℕ → ℕ → ℕ × Bool
  | 0, pix => (pix, false)
  | n + 1, pix =>
    if patvec[pix]? = some SLASH then ((skipSlash n (pix + 1)).1, true) else (pix, false)

/-- The alternatives behind the one that matched are skipped. -/
def skipAlternatives : ℕ → ℕ → ℕ
  | 0, pix => pix
  | n + 1, pix => if patvec[pix + 1]? = some SLASH then skipAlternatives n (pix + 2) else pix

/-- What `sub_parse` gives. -/
structure SubParse where
  pval : Option Svalue
  pix : ℕ
  cix : ℕ
  fail : Bool

/-- `sub_parse` behind the alternative that matched. -/
def subParseDone (pval : Option Svalue) (pix cix : ℕ) : SubParse :=
  let pix' := skipAlternatives patvec patvec.length pix
  ⟨pval, if patvec.length ≤ pix' then patvec.length - 1 else pix', cix, false⟩

/-- The loop of `sub_parse`, where `r` is what the alternative `pix` gave. Each round goes on to a
later alternative, so the number of elements is fuel enough. -/
def subParseLoop (cixIn : ℕ) : ℕ → ℕ → OneParse → SubParse
  | 0, pix, _ => ⟨none, pix, cixIn, true⟩
  | n + 1, pix, r =>
    if r.fail = 0 then subParseDone patvec r.pval pix r.cix
    else
      let (pix', skipped) := skipSlash patvec patvec.length (pix + 1)
      if skipped ∧ pix' < patvec.length then
        subParseLoop cixIn n pix' (oneParse other (patvec.getD pix' []) wvec cixIn)
      else if (if skipped then 0 else r.fail) = 2 then
        subParseDone patvec r.pval (pix' - 1) cixIn
      else ⟨none, pix' - 1, cixIn, true⟩

/-- `sub_parse`: the element `pix`, or one of its alternatives, at the word `cix`. -/
def subParse (pix cix : ℕ) : SubParse :=
  subParseLoop other patvec wvec cix patvec.length pix
    (oneParse other (patvec.getD pix []) wvec cix)

/-- `slice_words`: the words from `lo` up to, and not including, `hi`. -/
def sliceWords (lo hi : ℕ) : Svalue :=
  if lo < hi then
    element (implodeString (((wvec.drop lo).take (hi - lo)).map element) SPACE).2.out
  else element []

/-- `stack_put`, to a list of arguments, of which some have no value yet. -/
def stackPut (pval : Svalue) (pos : ℕ) (args : List (Option Svalue)) : List (Option Svalue) :=
  if args.length ≤ pos then args else args.set pos (some pval)

/-- The loop behind a `"%s"`: try the element `pix` from the word `ocix` on, one word further for
each fail. The result tells the word as well. -/
def restLoop (pix : ℕ) : ℕ → ℕ → SubParse × ℕ
  | 0, ocix => (⟨none, pix, ocix, true⟩, ocix)
  | n + 1, ocix =>
    let r := subParse other patvec wvec pix ocix
    if r.fail then
      if ocix + 1 < wvec.length then restLoop pix n (ocix + 1)
      else (⟨none, pix, ocix + 1, true⟩, ocix + 1)
    else (r, ocix)

/-- The variables of `parse`. -/
structure State where
  pix : ℕ
  cix : ℕ
  six : ℕ
  fail : Bool
  args : List (Option Svalue)

/-- A match, with its fill-in value if there is one. -/
def State.fill (s : State) (r : SubParse) : State :=
  match r.pval with
  | some v =>
    { s with pix := r.pix, cix := r.cix, six := s.six + 1, args := stackPut v s.six s.args }
  | none => { s with pix := r.pix, cix := r.cix }

/-- `"%s"` with an element behind it. -/
def parseRest (s : State) : State :=
  let (r, ocix) := restLoop other patvec wvec (s.pix + 1) (wvec.length - s.cix + 1) s.cix
  let text := sliceWords wvec s.cix ocix
  if r.fail then { s with pix := r.pix, cix := r.cix, fail := true }
  else
    match r.pval with
    | some v =>
      { s with
        pix := r.pix, cix := r.cix, six := s.six + 2
        args := stackPut text s.six (stackPut v (s.six + 1) s.args) }
    | none =>
      { s with pix := r.pix, cix := r.cix, six := s.six + 1, args := stackPut text s.six s.args }

/-- One round of the loop of `parse`. -/
def parseElement (s : State) : State :=
  if patvec[s.pix]? = some REST then
    if s.pix = patvec.length - 1 then
      { s with
        cix := wvec.length, six := s.six + 1
        args := stackPut (sliceWords wvec s.cix wvec.length) s.six s.args }
    else parseRest other patvec wvec s
  else if patvec[s.pix]? = some SLASH then s
  else
    let r := subParse other patvec wvec s.pix s.cix
    if r.fail then { s with pix := r.pix, cix := r.cix, fail := true } else s.fill r

/-- The loop of `parse`, with `n` elements from `pix` on. -/
def parseLoop : ℕ → State → State
  | 0, s => s
  | n + 1, s =>
    if s.pix < patvec.length then
      let s' := parseElement other patvec wvec s
      if s'.fail then s' else parseLoop n { s' with pix := s'.pix + 1 }
    else s

/-- The empty elements at the beginning are skipped. -/
def skipEmpty : ℕ → ℕ → ℕ
  | 0, pix => pix
  | n + 1, pix => if patvec[pix]? = some [] then skipEmpty n (pix + 1) else pix

/-- `parse` with the elements of the pattern and the words of the command. -/
def parseWords (args : List (Option Svalue)) : Bool × List (Option Svalue) :=
  let s := parseLoop other patvec wvec patvec.length
    { pix := skipEmpty patvec patvec.length 0, cix := 0, six := 0, fail := false, args := args }
  (!(s.fail || s.cix < wvec.length), s.args)

end Patterns

/-- How `parse` ends: with a truth value and the arguments, or with an error, if one of the arrays
would be too large. -/
inductive Outcome where
  | done (matched : Bool) (args : List (Option Svalue))
  | error

def parse (other : Directives) (cmd pattern : CString) (args : List (Option Svalue)) : Outcome :=
  if cmd.bytes = [] ∨ pattern.bytes = [] then .done false args
  else
    match explodeString cmd SPACE, explodeString pattern SPACE with
    | .array wvec, .array patvec =>
      let (matched, args') := parseWords other (strings patvec) (strings wvec) args
      .done matched args'
    | _, _ => .error

end Lpmud.ParseCommand
