import Lpmud.Lib.Decimal
import Lpmud.Lib.Traced
import Lpmud.Svalue

/-!
# Numerals

`number_parse` of `parse.c` reads a numeral from the words of a command: a number in digits, a word
for all, a cardinal numeral or an ordinal one. Of the numerals from twenty on the units are a word
of their own. The endings of the words are in lists (`Lists`); for a cardinal numeral the place in
its list says which one it is, for an ordinal numeral the stem is in a list, and the ending says the
case.

A word is copied to a buffer on the stack that has as many characters as the first word, without the
NUL. The accesses to the buffers and to the words are noted. Where the program reads outside of a
word it finds what is in memory there (`Memory`).
-/

namespace Lpmud.Numeral

/-- The bytes of a text. -/
def chars (s : String) : Bytes :=
  s.toList.map fun c ↦ UInt8.ofNat c.toNat

/-- The lists of endings and of stems. There are no shorter numerals than those of three letters. -/
structure Lists where
  je : List Bytes
  dw : List Bytes
  tr : List Bytes
  cz : List Bytes
  pi : List Bytes
  sz : List Bytes
  si : List Bytes
  os : List Bytes
  dz : List Bytes
  ord1 : List Bytes
  ord11 : List Bytes
  ord20 : List Bytes
  ending_ne : ∀ w ∈ je ++ dw ++ tr ++ cz ++ pi ++ sz ++ si ++ os ++ dz, w ≠ []
  stem_le : ∀ w ∈ ord1 ++ ord11 ++ ord20, 2 ≤ w.length

/-- The lists of the program. -/
def lists : Lists where
  je := ["den", "dnego", "dnemu", "dnym", "dna", "dnej", "dno", "denascie", "denastu",
    "denastoma"].map chars
  dw := ["a", "aj", "och", "om", "oma", "ie", "anascie", "unastu", "unastoma", "adziescia",
    "udziestu", "udziestoma"].map chars
  tr := ["zy", "zech", "zej", "zem", "zema", "zynascie", "zynastu", "zynastoma", "zydziesci",
    "zydziestu", "zydziestoma"].map chars
  cz := ["tery", "terech", "terem", "terema", "terej", "ternastu", "ternascie", "ternastoma",
    "terdziesci", "terdziestu", "terdziestoma"].map chars
  pi := ["ec", "eciu", "ecioma", "etnascie", "etnastu", "etnastoma", "ecdziesiat",
    "ecdziesieciu", "ecdziesiecioma"].map chars
  sz := ["esc", "esciu", "escioma", "esnascie", "esnastu", "esnastoma", "escdziesiat",
    "escdziesieciu", "escdziesiecioma"].map chars
  si := ["edem", "edmiu", "edmioma", "edemnascie", "edemnastu", "edemnastoma", "edemdziesiat",
    "edemdziesieciu", "edemdziesiecioma"].map chars
  os := ["iem", "miu", "mioma", "iemnascie", "iemnastu", "iemnastoma", "iemdziesiat",
    "iemdziesieciu", "iemdziesiecioma"].map chars
  dz := ["iewiec", "iewieciu", "iewiecioma", "iesiec", "iesieciu", "iesiecioma", "iewietnascie",
    "iewietnastu", "iewietnastoma", "iewiecdziesiat", "iewiecdziesieciu",
    "iewiecdziesiecioma"].map chars
  ord1 := ["pierwsz", "drug", "trzec", "czwart", "piat", "szost", "siodm", "osm",
    "dziewiat"].map chars
  ord11 := ["dziesiat", "jedenast", "dwunast", "trzynast", "czternast", "pietnast", "szesnast",
    "siedemnast", "osiemnast", "dziewietnast"].map chars
  ord20 := ["dwudziest", "trzydziest", "czterdziest", "piecdziesiat", "szescdziesiat",
    "siedemdziesiat", "osiemdziesiat", "dziewiecdziesiat"].map chars
  ending_ne := by decide
  stem_le := by decide

/-- What is in memory in front of `str`, and the string that is found two characters behind the
beginning of a word that is shorter than that. -/
structure Memory where
  before : ℤ → UInt8
  beyond : Bytes

/-! ### Strings -/

/-- `strcpy` of the string `s` to a buffer of `size` characters. It stands at `i` in an array of
`room` characters. -/
def strcpy (size room i : ℕ) (s : Bytes) : Traced Bytes := do
  .access room i (i + s.length + 1)
  .access size 0 (s.length + 1)
  pure s

/-- `word + 2`. -/
def afterTwo (mem : Memory) (word : Bytes) : Bytes :=
  if 2 ≤ word.length then word.drop 2 else mem.beyond

/-- `str[i]`, in a buffer of `size` characters. -/
def charAt (mem : Memory) (size : ℕ) (str : Bytes) (i : ℤ) : Traced UInt8 := do
  .access size i (i + 1)
  pure (if i < 0 then mem.before i else str.getD i.toNat 0)

/-- `strncpy(tmp, str + i, n); tmp[n] = 0`, in buffers of `size` characters. A negative length is a
large one. -/
def strncpy (mem : Memory) (size : ℕ) (str : Bytes) (i n : ℤ) : Traced Bytes := do
  if n < 0 then
    .access size 0 (2 ^ 64 + n)
    .crash
  else
    .access size i (i + n)
    .access size 0 (n + 1)
    let copied := (List.range n.toNat).map fun (k : ℕ) ↦
      if i + k < 0 then mem.before (i + k) else str.getD (i + k).toNat 0
    pure (copied.takeWhile (· ≠ 0))

/-- What `sscanf` finds where a number should be: the end, something else, or a number. -/
inductive Scan where
  | eof
  | mismatch
  | number (z : ℤ)
  deriving DecidableEq

def isSpace (c : UInt8) : Bool :=
  c = 32 ∨ 9 ≤ c ∧ c ≤ 13

/-- The digits of a number, behind the sign. -/
def scanDigits (sign : ℤ) (s : Bytes) : Scan :=
  let digits := s.takeWhile Decimal.isDigit
  if digits = [] then .mismatch else .number (sign * Decimal.value digits)

/-- `sscanf(s, "%d", ..)`, before the number becomes an `int`. -/
def scanNumber (s : Bytes) : Scan :=
  match s.dropWhile isSpace with
  | [] => .eof
  | c :: s =>
    if c = 45 then scanDigits (-1) s
    else if c = 43 then scanDigits 1 s
    else scanDigits 1 (c :: s)

/-- The number as a `long`, which is as large as possible if it does not fit, and then as an `int`.
-/
def toInt (z : ℤ) : ℤ :=
  (max (-2 ^ 63) (min z (2 ^ 63 - 1))).bmod (2 ^ 32)

/-! ### Words -/

/-- The words for all, in each case. -/
def allWords (przyp : ℤ) : Option (List Bytes) :=
  if przyp = 0 then some [chars "wszystko", chars "wszyscy"]
  else if przyp = 1 then some [chars "wszystkich", chars "wszystkiego"]
  else if przyp = 2 then some [chars "wszystkim", chars "wszystkiemu"]
  else if przyp = 3 then some [chars "wszystko", chars "wszystkich", chars "wszystkie"]
  else if przyp = 4 then some [chars "wszystkim", chars "wszystkimi"]
  else if przyp = 5 then some [chars "wszystkim", chars "wszystkich"]
  else none

def memberArray (s : Bytes) (arr : List Bytes) : Option ℕ :=
  arr.findIdx? (· == s)

/-- The cardinal numerals with the same first two letters: their endings, from which place on they
are other numerals than the units, and which ones. -/
structure Cardinal where
  buf : Bytes
  endings : List Bytes
  cut : ℕ
  unit : ℕ
  others : ℕ → ℕ

/-- The numeral with the ending `member`. -/
def Cardinal.value (c : Cardinal) (member : ℕ) : ℕ :=
  if member < c.cut then c.unit else c.others member

section Program

variable (L : Lists) (mem : Memory) (przyp : ℤ)

def je : Cardinal :=
  ⟨chars "je", L.je, 7, 1, fun _ ↦ 11⟩

def dw : Cardinal :=
  ⟨chars "dw", L.dw, 6, 2, fun member ↦ if member < 9 then 12 else 20⟩

def tr : Cardinal :=
  ⟨chars "tr", L.tr, 5, 3, fun member ↦ if member < 8 then 13 else 30⟩

def cz : Cardinal :=
  ⟨chars "cz", L.cz, 5, 4, fun member ↦ if member < 8 then 14 else 40⟩

def pi : Cardinal :=
  ⟨chars "pi", L.pi, 3, 5, fun member ↦ if member < 6 then 15 else 50⟩

def sz : Cardinal :=
  ⟨chars "sz", L.sz, 3, 6, fun member ↦ if member < 6 then 16 else 60⟩

def si : Cardinal :=
  ⟨chars "si", L.si, 3, 7, fun member ↦ if member < 6 then 17 else 70⟩

def os : Cardinal :=
  ⟨chars "os", L.os, 3, 8, fun member ↦ if member < 6 then 18 else 80⟩

def dz : Cardinal :=
  ⟨chars "dz", L.dz, 3, 9, fun member ↦ if member < 6 then 10 else if member < 9 then 19 else 90⟩

/-- The cardinal numerals whose first two letters are `buf`. -/
def cardinals (buf : Bytes) : Option Cardinal :=
  [je L, dw L, tr L, cz L, pi L, sz L, si L, os L, dz L].find? (·.buf == buf)

/-- The cardinal numeral that the first word is, or 0. -/
def firstCardinal (buf tmp : Bytes) : ℕ :=
  match cardinals L buf with
  | none => 0
  | some c => (memberArray tmp c.endings).elim 0 c.value

/-- What is added for the second word: the units, 0, or the -1 of `member_array`. -/
def secondCardinal (buf tmp : Bytes) : ℤ :=
  match cardinals L buf with
  | none => 0
  | some c =>
    match memberArray tmp c.endings with
    | none => -1
    | some member => if member < c.cut then c.unit else 0

/-- The endings of ordinal numerals: `x` from 1 to 5 with `buf`, `x == 6`, and `x == 7`. -/
inductive Ending where
  | buf (suffix : Bytes)
  | m
  | y
  deriving DecidableEq

/-- The ending that the last letter of a word belongs to. -/
def ending (c : UInt8) : Option Ending :=
  if c = 111 then some (.buf (chars "ego"))
  else if c = 117 then some (.buf (chars "emu"))
  else if c = 106 then some (.buf (chars "ej"))
  else if c = 101 then some (.buf (chars "e"))
  else if c = 97 then some (.buf (chars "a"))
  else if c = 109 then some .m
  else if c = 105 ∨ c = 121 then some .y
  else none

/-- The stem of an ordinal numeral with this ending, if it is one. -/
def stem (size : ℕ) (x : Ending) (str : Bytes) : Traced (Option Bytes) := do
  let str_len : ℤ := str.length
  match x with
  | .y =>
    let tmp ← strncpy mem size str 0 (str_len - 1)
    pure (some tmp)
  | .buf suffix =>
    let szf : ℤ := suffix.length
    let tmp ← strncpy mem size str (str_len - szf) szf
    if tmp ≠ suffix then pure none
    else
      let c ← charAt mem size str (str_len - (szf + 1))
      if c ≠ 105 then
        let tmp ← strncpy mem size str 0 (str_len - szf)
        pure (some tmp)
      else
        let tmp ← strncpy mem size str 0 (str_len - (szf + 1))
        pure (some tmp)
  | .m =>
    let c ← charAt mem size str (str_len - 2)
    if c = 121 ∨ c = 105 then
      let tmp ← strncpy mem size str 0 (str_len - 2)
      pure (some tmp)
    else pure none

/-- A stem is looked for in the lists. Behind tens there have to be units with the same ending, if
there is another word. -/
def ordinalStem (size : ℕ) (x : Ending) (tmp : Bytes) (next : Option Bytes) :
    Traced (Option (ℤ × ℕ)) :=
  match memberArray tmp L.ord1, memberArray tmp L.ord11, memberArray tmp L.ord20 with
  | some member, _, _ => pure (some (-(member + 1), 1))
  | none, some member, _ => pure (some (-(member + 10), 1))
  | none, none, none => pure none
  | none, none, some member =>
    match next with
    | none => pure (some (-((member + 2) * 10), 1))
    | some word => do
      let str ← strcpy size (word.length + 1) 0 word
      match ← stem mem size x str with
      | none => pure none
      | some tmp =>
        match memberArray tmp L.ord1 with
        | some unit => pure (some (-((member + 2) * 10 + (unit + 1)), 2))
        | none => pure none

/-- "Analiza pod katem liczebnika porzadkowego". The result is the numeral and how many words it
has, or nothing when it is not one. -/
def ordinal (size : ℕ) (str : Bytes) (next : Option Bytes) :
    Traced (Option (ℤ × ℕ)) := do
  let c ← charAt mem size str (str.length - 1)
  match ending c with
  | none => pure none
  | some x =>
    match ← stem mem size x str with
    | none => pure none
    | some tmp => ordinalStem L mem size x tmp next

/-- "Analiza pod katem liczebnika glownego", and then the other one. -/
def cardinal (size : ℕ) (str : Bytes) (next : Option Bytes) :
    Traced (Option (ℤ × ℕ)) := do
  let buf := str.take 2
  let tmp ← strcpy size size 2 (str.drop 2)
  let liczba := firstCardinal L buf tmp
  if liczba = 0 then ordinal L mem size str next
  else if liczba < 20 then pure (some (liczba, 1))
  else
    match next with
    | none => pure (some (liczba, 1))
    | some word =>
      .access (word.length + 1) 0 (min 2 (word.length + 1))
      let buf := word.take 2
      let tmp ← strcpy size (word.length + 1) 2 (afterTwo mem word)
      let member := secondCardinal L buf tmp
      if member ≠ 0 then pure (some (liczba + member, 2)) else pure (some (liczba, 1))

/-- The numeral that the word in `str` begins, with `next` behind it. -/
def numeral (size : ℕ) (str : Bytes) (next : Option Bytes) :
    Traced (Option (ℤ × ℕ)) :=
  match scanNumber str with
  | .eof => pure (some (0, 1))
  | .number z => pure (if 0 ≤ toInt z then some (toInt z, 1) else none)
  | .mismatch =>
    if str.length < 3 then pure none
    else
      match allWords przyp with
      | none => pure none
      | some words =>
        if words.contains str then pure (some (0, 1)) else cardinal L mem size str next

/-- `number_parse`. The result is the numeral and the place of the word behind it, or nothing when
it fails. -/
def numberParse (wvec : List CString) (cix : ℕ) : Traced (Option (ℤ × ℕ)) := do
  .access wvec.length cix (cix + 1)
  match wvec[cix]? with
  | none => .crash
  | some word =>
    let size := word.bytes.length
    let str ← strcpy size (size + 1) 0 word.bytes
    let found ← numeral L mem przyp size str (wvec[cix + 1]?.map CString.bytes)
    pure (found.map fun p ↦ (p.1, cix + p.2))

/-! ### Pronouns -/

abbrev R_MESKI : ℤ := 0

abbrev R_ZENSKI : ℤ := 1

abbrev R_NIJAKI : ℤ := 2

abbrev R_MESKOOS : ℤ := 3

abbrev R_NIEMESKOOS : ℤ := 4

/-- A pronoun: its gender, or `f` when the gender depends on what the object has been asked for. -/
inductive Pronoun where
  | rodzaj (r : ℤ)
  | f (n : ℕ)
  deriving DecidableEq

/-- The pronoun that a word is. -/
def pronoun (str : Bytes) : Option Pronoun :=
  if przyp = 1 then
    if str = chars "niego" ∨ str = chars "go" then some (.f 1)
    else if str = chars "niej" ∨ str = chars "jej" then some (.rodzaj R_ZENSKI)
    else if str = chars "nich" ∨ str = chars "ich" then some (.f 2)
    else none
  else if przyp = 2 then
    if str = chars "mu" then some (.f 1)
    else if str = chars "jej" then some (.rodzaj R_ZENSKI)
    else if str = chars "im" then some (.f 2)
    else none
  else if przyp = 3 then
    if str = chars "niego" ∨ str = chars "go" then some (.rodzaj R_MESKI)
    else if str = chars "nia" ∨ str = chars "ja" then some (.rodzaj R_ZENSKI)
    else if str = chars "nie" ∨ str = chars "je" then some (.f 3)
    else if str = chars "nich" ∨ str = chars "ich" then some (.rodzaj R_MESKOOS)
    else none
  else if przyp = 4 then
    if str = chars "nim" then some (.f 1)
    else if str = chars "nia" then some (.rodzaj R_ZENSKI)
    else if str = chars "nimi" then some (.f 2)
    else none
  else if przyp = 5 then
    if str = chars "nim" then some (.f 1)
    else if str = chars "niej" then some (.rodzaj R_ZENSKI)
    else if str = chars "nich" then some (.f 2)
    else none
  else none

/-- The gender, where `bitZaimkow` is what the object that gives the command says about it. -/
def Pronoun.gender (bitZaimkow : Option Svalue) : Pronoun → Option ℤ
  | .rodzaj r => some r
  | .f n =>
    match bitZaimkow with
    | some (.number bits) =>
      if n = 1 then some (if bits &&& 1 ≠ 0 then R_MESKI else R_NIJAKI)
      else if n = 2 then some (if bits &&& 2 ≠ 0 then R_NIEMESKOOS else R_MESKOOS)
      else some (if bits &&& 4 ≠ 0 then R_NIJAKI else R_NIEMESKOOS)
    | _ => none

/-- `zaimek_parse`. `obiektyZaimka` are the objects for a gender; if there is no such function, a
null pointer is read. -/
def zaimekParse (bitZaimkow : Option Svalue) (obiektyZaimka : ℤ → Option Svalue)
    (wvec : List CString) (cix : ℕ) : Traced (Option (List Svalue × ℕ)) := do
  .access wvec.length cix (cix + 1)
  match wvec[cix]? with
  | none => .crash
  | some word =>
    let size := word.bytes.length
    let str ← strcpy size (size + 1) 0 word.bytes
    match (pronoun przyp str).bind (Pronoun.gender bitZaimkow) with
    | none => pure none
    | some rodzaj =>
      match obiektyZaimka rodzaj with
      | none => do
        .access 0 0 1
        .crash
      | some (.pointer _ item) => pure (if item.isEmpty then none else some (item, cix + 1))
      | some _ => pure none

end Program

/-! ### The buffers -/

section Buffers

variable {L : Lists} {mem : Memory} {przyp : ℤ} {bitZaimkow : Option Svalue}
  {obiektyZaimka : ℤ → Option Svalue} {wvec : List CString} {cix : ℕ}

theorem not_inside_strcpy {room i : ℕ} (s : Bytes) : ¬(strcpy s.length room i s).Inside := by
  intro h
  obtain ⟨-, hcopied⟩ := Traced.inside_bind.1 h
  obtain ⟨hwritten, -⟩ := Traced.inside_bind.1 (hcopied .unit rfl)
  obtain ⟨-, hle⟩ := Traced.inside_access.1 hwritten
  omega

/-- What begins by copying a word to such a buffer goes outside of it, and where there is no word
the program goes outside of the array. -/
theorem not_inside_of_copies {α : Type} {f : CString → Bytes → Traced α} :
    ¬(do
      .access wvec.length cix (cix + 1)
      match wvec[cix]? with
      | none => .crash
      | some word =>
        let str ← strcpy word.bytes.length (word.bytes.length + 1) 0 word.bytes
        f word str : Traced α).Inside := by
  intro h
  obtain ⟨hindex, hcopied⟩ := Traced.inside_bind.1 h
  obtain ⟨-, hlt⟩ := Traced.inside_access.1 hindex
  have hcopies := hcopied .unit rfl
  rw [List.getElem?_eq_getElem (by omega)] at hcopies
  exact not_inside_strcpy _ (Traced.inside_bind.1 hcopies).1

theorem not_inside_numberParse : ¬(numberParse L mem przyp wvec cix).Inside :=
  not_inside_of_copies

theorem not_inside_zaimekParse :
    ¬(zaimekParse przyp bitZaimkow obiektyZaimka wvec cix).Inside :=
  not_inside_of_copies

/-- Reading a numeral or a pronoun stays in bounds. -/
structure InBounds (L : Lists) (mem : Memory) (przyp : ℤ) (bitZaimkow : Option Svalue)
    (obiektyZaimka : ℤ → Option Svalue) (wvec : List CString) (cix : ℕ) : Prop where
  numberParse : (numberParse L mem przyp wvec cix).Inside
  zaimekParse : (zaimekParse przyp bitZaimkow obiektyZaimka wvec cix).Inside

/-- No word is read in bounds. -/
theorem not_inBounds (L : Lists) (mem : Memory) (przyp : ℤ) (bitZaimkow : Option Svalue)
    (obiektyZaimka : ℤ → Option Svalue) (wvec : List CString) (cix : ℕ) :
    ¬InBounds L mem przyp bitZaimkow obiektyZaimka wvec cix ∧
      ¬(Numeral.numberParse L mem przyp wvec cix).Inside ∧
        ¬(Numeral.zaimekParse przyp bitZaimkow obiektyZaimka wvec cix).Inside :=
  ⟨fun h ↦ not_inside_numberParse h.numberParse, not_inside_numberParse, not_inside_zaimekParse⟩

/-- "dwa" needs four characters, and the buffer has three. -/
theorem not_inBounds_dwa : ¬∀ L mem przyp bitZaimkow obiektyZaimka wvec cix,
    InBounds L mem przyp bitZaimkow obiektyZaimka wvec cix := by
  intro h
  have hinside := (h lists ⟨fun _ ↦ 0, []⟩ 0 none (fun _ ↦ none) [⟨chars "dwa", by decide⟩]
    0).numberParse
  exact absurd (hinside ⟨3, 0, 4⟩ (by decide)) (by decide)

end Buffers

end Lpmud.Numeral
