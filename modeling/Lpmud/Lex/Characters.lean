import Lpmud.Svalue

/-!
# Characters

The characters and the character classes of the lexer, as bytes.
-/

namespace Lpmud.Lex

abbrev TAB : UInt8 := 9
abbrev NEWLINE : UInt8 := 10
abbrev SPACE : UInt8 := 32
abbrev QUOTE : UInt8 := 34
abbrev APOSTROPHE : UInt8 := 39
abbrev LPAREN : UInt8 := 40
abbrev RPAREN : UInt8 := 41
abbrev COMMA : UInt8 := 44
abbrev ZERO : UInt8 := 48
abbrev COLON : UInt8 := 58
abbrev QUESTION : UInt8 := 63
abbrev BACKSLASH : UInt8 := 92
abbrev UNDERSCORE : UInt8 := 95

def isDigit (c : UInt8) : Bool :=
  48 ≤ c && c ≤ 57

def isUpper (c : UInt8) : Bool :=
  65 ≤ c && c ≤ 90

def isLower (c : UInt8) : Bool :=
  97 ≤ c && c ≤ 122

def isAlpha (c : UInt8) : Bool :=
  isUpper c || isLower c

def isAlunum (c : UInt8) : Bool :=
  isDigit c || isAlpha c || c == UNDERSCORE

def isSpace (c : UInt8) : Bool :=
  c == SPACE || (TAB ≤ c && c ≤ 13)

def isPunct (c : UInt8) : Bool :=
  33 ≤ c && c ≤ 126 && !isDigit c && !isAlpha c

theorem forall_byte {p : UInt8 → Prop} (h : ∀ n < 256, p (UInt8.ofNat n)) (c : UInt8) : p c := by
  have := h c.toNat c.toNat_lt
  rwa [UInt8.ofNat_toNat] at this

/-- Blanks. -/
def Blank (w : Bytes) : Prop :=
  ∀ c ∈ w, isSpace c = true

theorem Blank.append {w w' : Bytes} (h : Blank w) (h' : Blank w') : Blank (w ++ w') :=
  fun _ hc ↦ (List.mem_append.1 hc).elim (h _) (h' _)

theorem exists_blank (s : Bytes) : ∃ w, Blank w ∧ s = w ++ s.dropWhile isSpace :=
  ⟨s.takeWhile isSpace, fun _ hc ↦ List.mem_takeWhile_imp hc, List.takeWhile_append_dropWhile.symm⟩

end Lpmud.Lex
