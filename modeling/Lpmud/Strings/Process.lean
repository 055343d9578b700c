import Lpmud.Strings.Explode

/-!
# Values by function call

`process_string` of `parse.c` replaces the forms `@@function:file|args@@` of a string. It explodes
the string at the marks `@@`, takes every other piece for a form, puts the marks back around those
that are not resolved, and implodes the array; if no form is resolved it returns the string itself.

What should come out is said on all the pieces of the string (`replaceForms`): text and forms take
turns, and a piece behind a mark that no other mark follows is text, too.

The functions that are called are a parameter, `call`: they may change the state of the game, `σ`,
and give no value when the object or the function is missing. `string_copy` and `xalloc` get memory
for whatever they are asked for.
-/

namespace Lpmud.ProcessString

open List Option Explode

/-- `@@`. -/
abbrev marks : Bytes := [0x40, 0x40]

/-- What a form asks for: a function, in this object or in another one, and its arguments. -/
structure Call where
  func : Bytes
  obj : Option Bytes
  args : List Bytes

/-- `strchr(s, c)`: what is before the character, and what is behind it. -/
def cutAt (c : UInt8) (s : Bytes) : Bytes × Option Bytes :=
  match s.dropWhile (· != c) with
  | [] => (s, none)
  | _ :: rest => (s.takeWhile (· != c), some rest)

/-- The part of `process_value` that reads a form. -/
def readCall (str : Bytes) : Call :=
  let (func, arg) := cutAt 0x7c str
  let (func, obj) := cutAt 0x3a func
  ⟨func, obj, arg.elim [] (pieces [0x7c] · [])⟩

/-- How `process_string` ends: with a string, or with one of the ends of `explode_string`. -/
inductive Result where
  | string (s : Bytes)
  | illegalSize
  | fatal
  deriving DecidableEq

section Program

variable {σ : Type} (call : Call → σ → Option Svalue × σ)

/-- `process_part`, with `process_value`; nothing is a form that is not resolved. -/
def processPart (str : Bytes) (s : σ) : Option CString × σ :=
  match str with
  | [] => (none, s)
  | c :: _ =>
    if c < 0x41 ∨ c > 0x7a then (none, s)
    else
      match call (readCall str) s with
      | (some (.string r), s) => (some r, s)
      | (_, s) => (none, s)

/-- "Loop over each VBFC": the new elements of the array, and `changed`. -/
def processLoop : List Bytes → σ → List Bytes × Bool × σ
  | text :: form :: rest, s =>
    let (p2, s) := processPart call form s
    let (vec, changed, s) := processLoop rest s
    match p2 with
    | none => (text :: (marks ++ form ++ marks) :: vec, changed, s)
    | some r => (text :: r.bytes :: vec, true, s)
  | vec, s => (vec, false, s)

def processString (str : CString) (s : σ) : Result × σ :=
  if 0x40 ∉ str.bytes then (.string str.bytes, s)
  else
    match explodeString str (CString.ofBytes marks) with
    | .illegalSize => (.illegalSize, s)
    | .fatal => (.fatal, s)
    | .array vec =>
      let (vec, changed, s) := processLoop call (strings vec) s
      if changed then (.string (implodeString (vec.map element) (CString.ofBytes [])).2.out, s)
      else (.string str.bytes, s)

/-! ### What should come out -/

/-- The pieces of a string with its forms replaced, where they can be resolved. The piece behind the
last mark is text, and so is the one behind a mark that no other mark follows. -/
def replaceForms : List Bytes → σ → Bytes
  | [], _ => []
  | [text], _ => text
  | [text, tail], _ => text ++ marks ++ tail
  | text :: form :: rest, s =>
    let (p2, s) := processPart call form s
    text ++ p2.elim (marks ++ form ++ marks) CString.bytes ++ replaceForms rest s

/-- The string has no more pieces than an array can have elements, and its forms are replaced, and
nothing else. -/
def OnlyReplaces (str : CString) (s : σ) : Prop :=
  (processString call str s).1 = .string (replaceForms call (pieces marks str.bytes []) s)

/-- Every mark has its partner; or nothing is resolved, neither a form before nor the piece behind
the mark that has none; or this piece is resolved to itself with the mark. `changed` says whether a
form before these pieces was resolved. -/
def Paired : List Bytes → Bool → σ → Prop
  | [], _, _ => True
  | [_], _, _ => True
  | [_, tail], changed, s =>
    match (processPart call tail s).1 with
    | none => changed = false
    | some r => r.bytes = marks ++ tail
  | _ :: form :: rest, changed, s =>
    let (p2, s) := processPart call form s
    Paired rest (changed || p2.isSome) s

/-! ### The loop -/

variable {call}

/-- **The loop and the pieces**: what is put together, or the string if nothing has changed, is what
should come out exactly if the marks are paired. -/
theorem processLoop_iff {l : List Bytes} (hl : l ≠ []) (c : Bool) (s : σ) :
    (if c || (processLoop call (kept l) s).2.1 then (processLoop call (kept l) s).1.flatten
      else marks.intercalate l) = replaceForms call l s ↔ Paired call l c s := by
  match l with
  | [] => exact absurd rfl hl
  | [text] =>
    rw [kept_singleton]
    by_cases htext : text = [] <;> simp [htext, processLoop, replaceForms, Paired]
  | [text, tail] =>
    rw [kept_cons (cons_ne_nil _ _), kept_singleton, Paired, replaceForms]
    by_cases htail : tail = []
    · cases c <;> simp [htail, processLoop, processPart, intercalate_cons_cons]
    · rw [if_neg htail, processLoop]
      rcases processPart call tail s with ⟨- | r, s'⟩
      · cases c <;> simp [processLoop, intercalate_cons_cons]
      · simp [processLoop]
  | text :: form :: text' :: rest =>
    have hrest : text' :: rest ≠ [] := cons_ne_nil _ _
    rw [kept_cons (cons_ne_nil _ _), kept_cons hrest, processLoop, Paired, replaceForms]
    · rcases processPart call form s with ⟨- | r, s'⟩
      · have ih := processLoop_iff hrest c s'
        dsimp only
        rw [isSome_none, Bool.or_false, ← ih, elim_none]
        split <;> simp [intercalate_cons_cons]
      · have ih := processLoop_iff hrest true s'
        dsimp only
        rw [isSome_some, Bool.or_true, ← ih, elim_some]
        simp
    all_goals exact hrest

theorem pieces_of_notMem {c : UInt8} {p cur : Bytes} (h : c ∉ p) :
    pieces [c, c] p cur = [cur ++ p] := by
  induction p generalizing cur with
  | nil => rw [pieces, append_nil]
  | cons a p ih =>
    obtain ⟨ha, hp⟩ := not_or.1 (mt mem_cons.2 h)
    rw [pieces, if_neg (by simp [List.isPrefixOf, ha]), ih hp]
    simp

theorem nul_notMem_processLoop {l : List Bytes} (h : ∀ piece ∈ l, 0 ∉ piece) (s : σ) :
    ∀ piece ∈ (processLoop call l s).1, 0 ∉ piece := by
  match l with
  | [] | [_] => exact h
  | text :: form :: rest =>
    obtain ⟨htext, h⟩ := forall_mem_cons.1 h
    obtain ⟨hform, h⟩ := forall_mem_cons.1 h
    rw [processLoop]
    rcases processPart call form s with ⟨- | r, s'⟩
    · have hform' : 0 ∉ marks ++ form ++ marks := by simp [hform]
      exact forall_mem_cons.2 ⟨htext, forall_mem_cons.2
        ⟨hform', nul_notMem_processLoop h s'⟩⟩
    · exact forall_mem_cons.2 ⟨htext, forall_mem_cons.2
        ⟨r.noNul, nul_notMem_processLoop h s'⟩⟩

/-- **`process_string` only replaces embedded calls** exactly if the string has no more pieces than
an array can have elements, and its marks are paired. -/
theorem onlyReplaces_iff (call : Call → σ → Option Svalue × σ) (str : CString) (s : σ) :
    OnlyReplaces call str s ↔
      (kept (pieces marks str.bytes [])).length ≤ Object.MAX_ARRAY_SIZE ∧
        Paired call (pieces marks str.bytes []) false s := by
  have hloop := @processLoop_iff σ call (pieces marks str.bytes []) pieces_ne_nil false s
  rw [OnlyReplaces, processString]
  by_cases hmark : 0x40 ∉ str.bytes
  · rw [if_pos hmark, pieces_of_notMem hmark, nil_append, kept_singleton]
    refine iff_of_true rfl ⟨?_, trivial⟩
    split <;> simp
  have hdel : (CString.ofBytes marks).bytes = marks := rfl
  rw [if_neg hmark, explodeString_eq _ _ (cons_ne_nil _ _), hdel, allocateArray]
  by_cases hmany : (kept (pieces marks str.bytes [])).length > Object.MAX_ARRAY_SIZE
  · rw [if_pos hmany]
    exact iff_of_false (by rintro ⟨⟩) fun h ↦ absurd h.1 (not_le.2 hmany)
  rw [if_neg hmany, and_iff_right (not_lt.1 hmany), ← hloop]
  have hnul := @nul_notMem_kept marks str
  have hout := (implodeString_spec ((processLoop call (kept (pieces marks str.bytes [])) s).1.map
    element) (CString.ofBytes [])).2
  have hempty : (CString.ofBytes []).bytes = [] := rfl
  rw [strings_map_element (nul_notMem_processLoop hnul s), hempty] at hout
  have hflat (l : List Bytes) : ([] : Bytes).intercalate l = l.flatten := by
    induction l with
    | nil => rfl
    | cons a l ih => cases l <;> simp_all [intercalate_cons_cons]
  dsimp only
  rw [strings_map_element hnul, hout, hflat, intercalate_pieces (cons_ne_nil _ _),
    nil_append, Bool.false_or]
  split <;> simp

end Program

/-- A function that gives "v", whatever it is. -/
def constantCall (_ : Call) (s : Unit) : Option Svalue × Unit :=
  (some (.string (CString.ofBytes [0x76])), s)

/-- "@@a": the text behind a mark that no other mark follows is called. -/
theorem not_onlyReplaces : ¬OnlyReplaces constantCall (.ofBytes [0x40, 0x40, 0x61]) () := by
  have hpieces : pieces marks [0x40, 0x40, 0x61] [] = [[], [0x61]] := by
    simp [pieces, List.isPrefixOf]
  have hbytes : (CString.ofBytes [0x40, 0x40, 0x61]).bytes = [0x40, 0x40, 0x61] := rfl
  have hdel : (CString.ofBytes marks).bytes = marks := rfl
  rw [OnlyReplaces, processString, hbytes, explodeString_eq _ _ (cons_ne_nil _ _), hdel,
    hbytes, hpieces]
  decide

end Lpmud.ProcessString
