import Lpmud.Parse.Command

/-!
# Objects by their names

`match_object` of `parse.c` looks in a command for one of the names of an object, with adjectives
before it. `load_lpc_info` asks the object for its names, its names in the plural, the genders of
both, and its adjectives in two forms; each answer is put into a list that has an element for each
object. An object that does not answer with an array is marked with the number 1.

The functions give an `Option`: it is `none` where a value is used as an array or as a string that
is none, where an index is outside of an array, and where `explode_string` raises an error. What the
rest of the program does with words is a parameter (`Grammar`).
-/

namespace Lpmud.ParseCommand

open Explode

/-! ### The lists -/

/-- An element of a list: a number, an array, or what had been an array when its address was
overwritten with a number. -/
inductive Cell where
  | number (n : BitVec 32)
  | array (item : List Svalue)
  | wild

/-- The array of an element, where it is used as one. -/
def Cell.vec : Cell → Option (List Svalue)
  | .array item => some item
  | _ => none

/-- The elements that the lists have for one object. -/
structure Entry where
  id : Cell
  pluid : Cell
  rodz : Cell
  prodz : Cell
  adj1id : Cell
  adj2id : Cell

/-- The lists of `parse`, which have as many elements as there are objects. -/
abbrev Lists (size : ℕ) : Type := Fin size → Entry

/-- The lists of `allocate_array`. -/
def emptyLists (size : ℕ) : Lists size := fun _ ↦
  ⟨.number 0, .number 0, .number 0, .number 0, .number 0, .number 0⟩

/-- The default lists, where the master object has them. -/
structure Master where
  id : Option (List Svalue)
  rodz : Option (List Svalue)
  pluid : Option (List Svalue)
  prodz : Option (List Svalue)

/-- What an object answers to the questions, or `none` where it has no such function. -/
structure Answers where
  pluid : Option Svalue
  id : Option Svalue
  rodzaj : Option Svalue
  prodzaj : Option Svalue
  adj1 : Option Svalue
  adj2 : Option Svalue

/-- The rest of the program: `parse_to_plural`, `oblicz_przym` for the case that is asked for, and
what is read as a number from a value of any type. -/
structure Grammar where
  parseToPlural : CString → CString
  obliczPrzym : CString → CString → BitVec 32 → Bool → Option CString
  number : Svalue → BitVec 32
  number_eq : ∀ n, number (.number n) = n

/-- The array of an answer. -/
def arrayOf : Option Svalue → Option (List Svalue)
  | some (.pointer _ item) => some item
  | _ => none

/-- An element is asked for unless it is marked. -/
def Cell.asked : Cell → Bool
  | .number n => n = 0
  | _ => true

/-- `u.number = 1`, whatever the type. -/
def Cell.mark : Cell → Cell
  | .number _ => .number 1
  | _ => .wild

/-- One question of `load_lpc_info`. -/
def Cell.load (c : Cell) (ret : Option Svalue) : Cell :=
  if c.asked then
    match arrayOf ret with
    | some item => .array item
    | none => c.mark
  else c

/-- The names in the plural that are made of those in the singular. -/
def makePlurals (g : Grammar) (sing : List Svalue) : List Svalue :=
  sing.map fun
    | .string str => .string (g.parseToPlural str)
    | _ => const0

/-- `load_lpc_info` for the elements of an object. -/
def Entry.load (g : Grammar) (e : Entry) (a : Answers) : Entry where
  pluid :=
    let makePlural := e.pluid.asked && (arrayOf a.pluid).isNone
    if makePlural && e.id.asked then
      match arrayOf a.id with
      | some sing => .array (makePlurals g sing)
      | none => e.pluid.load a.pluid
    else e.pluid.load a.pluid
  id := e.id.load a.id
  rodz := e.rodz.load a.rodzaj
  prodz := e.prodz.load a.prodzaj
  adj1id := e.adj1id.load a.adj1
  adj2id := e.adj2id.load a.adj2

/-- `load_lpc_info`: what is at `ix` in the lists. -/
def loadLpcInfo {size : ℕ} (g : Grammar) (lists : Lists size) (ix : Fin size) (a : Answers) :
    Lists size :=
  Function.update lists ix ((lists ix).load g a)

/-! ### Words -/

/-- Empty words at the beginning are skipped. -/
def skipBlank : List Word → ℕ → List Word × ℕ
  | [], cix => ([], cix)
  | w :: rest, cix => if w = [] then skipBlank rest (cix + 1) else (w :: rest, cix)

/-- The loop of `find_string`, with the words from `cix` on. -/
def findFrom (str : CString) : List Word → ℕ → Option (Option (ℕ × ℕ))
  | [], _ => some none
  | p1 :: rest, cix =>
    if p1.head? ≠ str.bytes.head? then findFrom str rest (cix + 1)
    else if p1 = str.bytes then some (some (cix, cix))
    else if 32 ∉ str.bytes then findFrom str rest (cix + 1)
    else if rest = [] then findFrom str rest (cix + 1)
    else
      match explodeString str SPACE with
      | .array item =>
        let split := strings item
        if split.length > (p1 :: rest).length then findFrom str rest (cix + 1)
        else if split.isPrefixOf (p1 :: rest) then some (some (cix, cix + split.length - 1))
        else findFrom str rest (cix + 1)
      | _ => none

/-- `find_string`: the first and the last word of `str`. -/
def findString (str : CString) (wvec : List Word) (cix : ℕ) : Option (Option (ℕ × ℕ)) :=
  let (rest, cix') := skipBlank (wvec.drop cix) cix
  findFrom str rest cix'

/-! ### Adjectives -/

/-- The string of an element, where it is used as one. -/
def stringOf : Svalue → Option CString
  | .string s => some s
  | _ => none

section Match

variable (g : Grammar)

/-- The loop of `make_adjectiv_list`. -/
def adjectives (rodzaj : BitVec 32) (plur : Bool) :
    List Svalue → List Svalue → Option (List (Option CString))
  | a :: adj1, b :: adj2 =>
    (stringOf a).bind fun s ↦ (stringOf b).bind fun t ↦
      (adjectives rodzaj plur adj1 adj2).map (g.obliczPrzym s t rodzaj plur :: ·)
  | _, _ => some []

def makeAdjectivList (adj1 adj2 : Cell) (rodzaj : BitVec 32) (plur : Bool) :
    Option (List (Option CString)) :=
  adj1.vec.bind fun l₁ ↦
    if l₁.length = 0 then some []
    else
      adj2.vec.bind fun l₂ ↦
        if l₁.length ≠ l₂.length then some [] else adjectives g rodzaj plur l₁ l₂

/-- `member_string`, whether it finds the string. -/
def memberString (str : Word) (svec : List (Option CString)) : Bool :=
  svec.any fun a ↦ a.map (·.bytes) = some str

/-- `check_adjectiv` for the words from `lo` to `hi`. Where they are not all adjectives by
themselves, the loop that joins them begins behind `hi`, and so it does not find any. -/
def checkAdjectiv (adj1 adj2 : Cell) (wvec : List Word) (lo hi : ℕ) (rodzaj : BitVec 32)
    (plur : Bool) : Option Bool :=
  (makeAdjectivList g adj1 adj2 rodzaj plur).bind fun ids ↦
    if ids = [] then some false
    else if hi < wvec.length then
      some (((wvec.drop lo).take (hi + 1 - lo)).all (memberString · ids))
    else none

/-! ### Names -/

/-- The four kinds of names: the default ones and those of the object, in the singular and in the
plural. -/
inductive NameKind where
  | master
  | own
  | masterPlural
  | ownPlural
  deriving DecidableEq

def NameKind.plural : NameKind → Bool
  | .master | .own => false
  | .masterPlural | .ownPlural => true

/-- The lists of names and of genders of a kind, where there are names. Each of them is an array or
else it cannot be used as one. -/
def names (m : Master) (e : Entry) :
    NameKind → Option (Option (List Svalue) × Option (List Svalue))
  | .master => m.id.map fun ids ↦ (some ids, m.rodz)
  | .own =>
    match e.id with
    | .number _ => none
    | c => some (c.vec, e.rodz.vec)
  | .masterPlural => m.pluid.map fun ids ↦ (some ids, m.prodz)
  | .ownPlural =>
    match e.pluid with
    | .number _ => none
    | c => some (c.vec, e.prodz.vec)

/-- The gender that is passed on. -/
def rodzajOf (n : BitVec 32) : BitVec 32 :=
  let r := if n.slt 0 then -n else n
  if r = 0 then r else r - 1

/-- A match: the last word, and the number and the gender of the name. -/
structure Found where
  cix : ℕ
  plur : Bool
  rodzaj : BitVec 32

/-- The variables of `match_object`. -/
structure MatchState where
  maxLen : ℕ
  plur : Bool
  found : Option Found := none

variable (e : Entry) (wvec : List Word) (oldCix : ℕ)

/-- The name `str`, with the gender `item`. -/
def matchName (plural : Bool) (str : CString) (item : Option Svalue) (st : MatchState) :
    Option MatchState :=
  (findString str wvec oldCix).bind fun
    | none => some st
    | some (pos, cix) =>
      if cix - pos + 1 < st.maxLen then some st
      else
        item.bind fun v ↦
          let rodzaj := rodzajOf (g.number v)
          (if pos = oldCix then some true
            else checkAdjectiv g e.adj1id e.adj2id wvec oldCix (pos - 1) rodzaj plural).map fun ok ↦
              if ok then
                ⟨cix - pos + 1, plural || st.plur, some ⟨cix, plural || st.plur, rodzaj⟩⟩
              else st

/-- The loop over the names of a kind, with the genders from `il` on. -/
def matchNames (plural : Bool) (rodz : List Svalue) :
    List Svalue → ℕ → MatchState → Option MatchState
  | [], _, st => some st
  | .string str :: ids, il, st =>
    (matchName g e wvec oldCix plural str rodz[il]? st).bind (matchNames plural rodz ids (il + 1))
  | _ :: ids, il, st => matchNames plural rodz ids (il + 1) st

/-- The loop over the kinds of names, up to the first that has a match. -/
def matchKinds (m : Master) : List NameKind → MatchState → Option MatchState
  | [], st => some st
  | kind :: kinds, st =>
    match names m e kind with
    | none => matchKinds m kinds st
    | some (ids, rodz) =>
      rodz.bind fun rodz ↦ ids.bind fun ids ↦
        if rodz.length ≠ ids.length then matchKinds m kinds st
        else
          (matchNames g e wvec oldCix kind.plural rodz ids 0 st).bind fun st' ↦
            if st'.found.isSome then some st' else matchKinds m kinds st'

/-- The kinds of names that are looked for. -/
def kindsFrom (plur : Bool) : List NameKind :=
  if plur then [.masterPlural, .ownPlural] else [.master, .own, .masterPlural, .ownPlural]

end Match

def matchObject {size : ℕ} (g : Grammar) (m : Master) (lists : Lists size) (obix : Fin size)
    (wvec : List Word) (cix : ℕ) (plur : Bool) (maxLen : ℕ) : Option MatchState :=
  matchKinds g (lists obix) wvec cix m (kindsFrom plur) { maxLen := maxLen, plur := plur }

end Lpmud.ParseCommand
