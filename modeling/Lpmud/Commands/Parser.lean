import Lpmud.Svalue
import Mathlib.Data.List.DropRight

/-!
# Commands

`player_parser` of `simulate.c` finds the action of a command. It goes through the sentences of the
living object that gives the command: the ones that `add_action` has made, each with a verb and with
a flag that says how the verb is compared. A sentence that fits is tried, and the search ends with
the first one whose function does not return 0.

What a sentence does by itself is `Matches`. What `player_parser` does is another thing: the length
of the first word of the command stands in a variable, a sentence with `V_NO_SPACE` that fits puts
the length of its own verb there, and the sentences behind it are compared with that
(`lengthAfter`). So the sentences that are tried are the right ones just when no such verb is
mistaken for the word (`perSentence_iff`).

The functions that are called are arbitrary LPC code. They can change the sentences, so a run is the
sequence of the sentences that are looked at, and the condition is about this sequence.
-/

namespace Lpmud.Commands

open List Option

/-! ### Sentences -/

/-- A sentence (`struct sentence`), with the object of its function. -/
structure Sentence where
  verb : Option CString
  funct : Addr
  funobj : Obj
  shortVerb : BitVec 16
  deriving DecidableEq

abbrev V_NO_SPACE : BitVec 16 := 2

/-- Length of a string (`strlen`). -/
def strlen (s : CString) : ℕ := s.bytes.length

/-- `strncmp (s, t, n) == 0`. -/
def strncmpEq (s t : CString) (n : ℕ) : Bool := s.bytes.take n == t.bytes.take n

/-- The bytes that end the first word of a command. -/
def isBlank (c : UInt8) : Bool := c ∈ [32, 9, 11, 12, 13, 10]

/-- The number of bytes in front of the first blank (`strpbrk`). -/
def wordLength (cmd : CString) : ℕ := (cmd.bytes.takeWhile fun c ↦ !isBlank c).length

/-- What a sentence is compared with in the loop. The answer is the `length` with which the sentence
is tried, which is the `length` that is left for the next one; a sentence that is passed over does
not change it. -/
def compare (cmd : CString) (length : ℕ) (shortVerb : BitVec 16) (verb : CString) : Option ℕ :=
  if shortVerb ≠ 0 then
    if strlen verb ≠ 0 ∧ ¬strncmpEq verb cmd (strlen verb) then none
    else if shortVerb = V_NO_SPACE then some (strlen verb)
    -- `COMPAT_ADD_ACTIONS` is defined, so a short verb may end within the first word.
    else some length
  else if strlen verb ≠ length then none
  else if ¬strncmpEq cmd verb length then none
  else some length

/-! ### The search -/

/-- A call of the function of a sentence, with the verbs of `query_verb` and `query_trig`. -/
structure Call where
  funct : Addr
  lastVerb : Bytes
  trigVerb : CString
  commandGiver : Obj
  currentObject : Obj
  arg : Option Bytes

/-- What a function comes back with. -/
inductive Reply where
  | zero
  | nonzero
  | error

/-- What `modify_command` of the master object comes back with; it does not have to be there. -/
inductive Modified where
  | missing
  | string (s : CString)
  | other
  | error

/-- What `player_parser` uses of the rest of the driver: the sentences of an object in the order of
their list, with their addresses, and what is done by LPC code. -/
structure Driver (σ : Type) where
  sent : σ → Obj → List (Addr × Sentence)
  destructed : σ → Obj → Bool
  modifyCommand : σ → CString → Obj → σ × Modified
  call : σ → Call → σ × Reply
  clearNotify : σ → σ
  notifyNoCommand : σ → σ

/-- A sentence that has been looked at, and whether its function was called. -/
structure Visit where
  sentence : Sentence
  tried : Bool
  deriving DecidableEq

/-- How a search ends; `running` if it has not ended yet. -/
inductive Ending where
  | returned (status : ℕ)
  | error
  | running
  deriving DecidableEq

/-- A search as far as it has come. -/
structure Run (σ : Type) where
  command : CString
  visits : List Visit
  ending : Ending
  world : σ

/-- The sentences behind one of them, if it is still there. -/
def behind (s : Addr) (sent : List (Addr × Sentence)) : Option (List (Addr × Sentence)) :=
  match sent.dropWhile (·.1 ≠ s) with
  | [] => none
  | _ :: rest => some rest

/-- `verb_copy` has room for 99 bytes. -/
abbrev VERB_COPY : ℕ := 99

/-- The blanks that are not part of the argument (`isspace`). -/
def isSpace (c : UInt8) : Bool := c = 32 ∨ 9 ≤ c ∧ c ≤ 13

variable {σ : Type}

/-- The call that is made for a sentence. -/
def callOf (giver : Obj) (currentObject : Option Obj) (cmd : CString) (length : ℕ) (s : Sentence)
    (verb : CString) : Call :=
  let p := if s.shortVerb = V_NO_SPACE then strlen verb else length
  let arg := (cmd.bytes.drop p).dropWhile isSpace
  { funct := s.funct, lastVerb := cmd.bytes.take (min length VERB_COPY), trigVerb := verb,
    commandGiver := giver, currentObject := currentObject.getD s.funobj,
    arg := if arg = [] then none else some arg }

/-- The loop of `player_parser`, from the sentence it has come to. -/
def search (D : Driver σ) (giver : Obj) (currentObject : Option Obj) (cmd : CString) :
    ℕ → ℕ → List (Addr × Sentence) → σ → Run σ
  | 0, _, _, w => ⟨cmd, [], .running, w⟩
  | _ + 1, _, [], w => ⟨cmd, [], .returned 0, D.notifyNoCommand w⟩
  | n + 1, length, (a, s) :: rest, w =>
    match s.verb with
    | none => ⟨cmd, [], .error, w⟩
    | some verb =>
      match compare cmd length s.shortVerb verb with
      | none =>
        let r := search D giver currentObject cmd n length rest w
        { r with visits := ⟨s, false⟩ :: r.visits }
      | some length =>
        match D.call w (callOf giver currentObject cmd length s verb) with
        | (w, .error) => ⟨cmd, [⟨s, true⟩], .error, w⟩
        | (w, .nonzero) => ⟨cmd, [⟨s, true⟩], .returned 1, w⟩
        | (w, .zero) =>
          -- has the sentence been lost?
          match behind a (D.sent w giver) with
          | none => ⟨cmd, [⟨s, true⟩], .returned 0, D.notifyNoCommand w⟩
          | some rest =>
            let r := search D giver currentObject cmd n length rest w
            { r with visits := ⟨s, true⟩ :: r.visits }

/-- A command without the spaces at its ends. -/
def stripSpaces (buff : CString) : CString where
  bytes := (buff.bytes.rdropWhile (· = 32)).dropWhile (· = 32)
  noNul h := buff.noNul (( rdropWhile_prefix _ _).subset ((dropWhile_sublist _).subset h))

/-- `player_parser`, with as many steps of its loop as there is fuel. -/
def playerParser (D : Driver σ) (fuel : ℕ) (giver : Obj) (currentObject : Option Obj)
    (buff : CString) (w : σ) : Run σ :=
  let buff := stripSpaces buff
  let start (w : σ) (cmd : CString) : Run σ :=
    if cmd.bytes = [] ∨ D.destructed w giver then ⟨cmd, [], .returned 1, w⟩
    else
      let w := D.clearNotify w
      search D giver currentObject cmd fuel (wordLength cmd) (D.sent w giver) w
  if buff.bytes = [] then ⟨buff, [], .returned 0, w⟩
  else
    match D.modifyCommand w buff giver with
    | (w, .string s) => start w s
    | (w, .missing) => start w buff
    | (w, .other) => ⟨buff, [], .returned 1, w⟩
    | (w, .error) => ⟨buff, [], .error, w⟩

/-! ### Sentences and lengths -/

/-- The verb of a sentence fits a command whose first word has the given length. -/
def FitsAt (cmd : CString) (length : ℕ) (s : Sentence) : Prop :=
  ∃ verb, s.verb = some verb ∧ verb.bytes <+: cmd.bytes ∧
    (s.shortVerb ≠ 0 ∨ strlen verb = length)

/-- **A sentence by itself.** Its verb is the beginning of the command, and without any flag it is
the first word. The empty verb with a flag fits everything. -/
def Matches (cmd : CString) (s : Sentence) : Prop := FitsAt cmd (wordLength cmd) s

/-- The verb of a sentence with `V_NO_SPACE`, if it fits. -/
def noSpaceVerb (cmd : CString) (s : Sentence) : Option CString :=
  s.verb.filter fun verb ↦ s.shortVerb = V_NO_SPACE ∧ verb.bytes <+: cmd.bytes

/-- The `length` behind some sentences: it is the one of the last verb with `V_NO_SPACE` that fits,
if there is one. -/
def lengthAfter (cmd : CString) (length : ℕ) (before : List Sentence) : ℕ :=
  ((before.filterMap (noSpaceVerb cmd)).getLast?.map strlen).getD length

variable {cmd : CString} {length : ℕ} {s : Sentence} {verb : CString}

theorem strncmpEq_iff (s t : CString) : strncmpEq s t (strlen s) = true ↔ s.bytes <+: t.bytes := by
  rw [strncmpEq, beq_iff_eq, strlen, take_length, prefix_iff_eq_take]

theorem strncmpEq_comm (s t : CString) (n : ℕ) : strncmpEq s t n = strncmpEq t s n := by
  rw [strncmpEq, strncmpEq, Bool.beq_comm]

theorem strlen_eq_zero : strlen verb = 0 ↔ verb.bytes = [] := length_eq_zero_iff

theorem not_prefix_iff :
    (strlen verb ≠ 0 ∧ ¬strncmpEq verb cmd (strlen verb) = true) ↔ ¬verb.bytes <+: cmd.bytes := by
  rw [strncmpEq_iff, and_iff_right_iff_imp, Ne, strlen_eq_zero]
  exact fun h hnil ↦ h (hnil ▸ nil_prefix)

theorem fitsAt_iff (hverb : s.verb = some verb) : FitsAt cmd length s ↔
    verb.bytes <+: cmd.bytes ∧ (s.shortVerb ≠ 0 ∨ strlen verb = length) := by
  simp only [FitsAt, hverb, some.injEq, exists_eq_left']

theorem noSpaceVerb_eq (hverb : s.verb = some verb) :
    noSpaceVerb cmd s =
      if s.shortVerb = V_NO_SPACE ∧ verb.bytes <+: cmd.bytes then some verb else none := by
  simp only [noSpaceVerb, hverb, filter_some, decide_eq_true_eq]

/-- A sentence is tried when it fits, and the length that it leaves is the one of its own verb if
it has `V_NO_SPACE`. -/
theorem compare_of_fitsAt (hverb : s.verb = some verb) (h : FitsAt cmd length s) :
    compare cmd length s.shortVerb verb =
      some (((noSpaceVerb cmd s).map strlen).getD length) := by
  obtain ⟨hbegins, h⟩ := (fitsAt_iff hverb).1 h
  rw [compare, noSpaceVerb_eq hverb]
  by_cases hflag : s.shortVerb = 0
  · have hlen := h.resolve_left (not_not.2 hflag)
    rw [if_neg (not_not.2 hflag), if_neg (not_not.2 hlen),
      if_neg (not_not.2 (strncmpEq_comm cmd verb _ ▸ hlen ▸ (strncmpEq_iff verb cmd).2 hbegins)),
      if_neg fun hand ↦ absurd (hflag ▸ hand.1) (by decide)]
    rfl
  · rw [if_pos hflag, if_neg (not_prefix_iff.not.2 (not_not.2 hbegins))]
    by_cases hns : s.shortVerb = V_NO_SPACE
    · rw [if_pos hns, if_pos ⟨hns, hbegins⟩]
      rfl
    · rw [if_neg hns, if_neg (not_and_of_not_left _ hns)]
      rfl

theorem compare_of_not_fitsAt (hverb : s.verb = some verb) (h : ¬FitsAt cmd length s) :
    compare cmd length s.shortVerb verb = none := by
  rw [fitsAt_iff hverb] at h
  rw [compare]
  by_cases hflag : s.shortVerb = 0
  · rw [if_neg (not_not.2 hflag)]
    by_cases hlen : strlen verb = length
    · rw [if_neg (not_not.2 hlen), if_pos]
      rw [strncmpEq_comm, ← hlen, strncmpEq_iff]
      exact fun hbegins ↦ h ⟨hbegins, .inr hlen⟩
    · rw [if_pos hlen]
  · rw [if_pos hflag, if_pos (not_prefix_iff.2 fun hbegins ↦ h ⟨hbegins, .inl hflag⟩)]

theorem noSpaceVerb_of_not_fitsAt (h : ¬FitsAt cmd length s) : noSpaceVerb cmd s = none := by
  rcases hverb : s.verb with - | verb
  · rw [noSpaceVerb, hverb, filter_none]
  · rw [noSpaceVerb_eq hverb, if_neg]
    exact fun hand ↦ h ((fitsAt_iff hverb).2 ⟨hand.2, .inl (by rw [hand.1]; decide)⟩)

theorem lengthAfter_cons (before : List Sentence) :
    lengthAfter cmd length (s :: before) =
      lengthAfter cmd (((noSpaceVerb cmd s).map strlen).getD length) before := by
  rw [lengthAfter, lengthAfter, filterMap_cons]
  rcases noSpaceVerb cmd s with - | verb
  · rfl
  · rcases hl : before.filterMap (noSpaceVerb cmd) with - | ⟨v, vs⟩
    · rfl
    · rw [List.getLast?_cons_cons, List.getLast?_eq_getLast_of_ne_nil (cons_ne_nil v vs)]
      rfl

/-! ### Runs -/

variable {D : Driver σ} {giver : Obj} {currentObject : Option Obj}

/-- One step of the loop, seen from the sentences that have been looked at: either it is the end, or
the sentence is looked at with the length that is there, and the search goes on with the one that it
leaves. -/
theorem search_cases (D : Driver σ) (giver : Obj) (currentObject : Option Obj) (cmd : CString)
    (n length : ℕ) (sent : List (Addr × Sentence)) (w : σ) :
    let r := search D giver currentObject cmd n length sent w
    r.visits = [] ∨ ∃ v n' sent' w',
      (v.tried = true ↔ FitsAt cmd length v.sentence) ∧
        (r.visits = [v] ∨ r.visits = v :: (search D giver currentObject cmd n'
          (((noSpaceVerb cmd v.sentence).map strlen).getD length) sent' w').visits) := by
  intro r
  rcases n with - | n
  · exact .inl rfl
  rcases sent with - | ⟨⟨a, s⟩, rest⟩
  · exact .inl rfl
  rcases hverb : s.verb with - | verb
  · exact .inl (by simp only [r, search, hverb])
  refine .inr ?_
  by_cases hfits : FitsAt cmd length s
  · have hcompare := compare_of_fitsAt hverb hfits
    rcases hcall : D.call w (callOf giver currentObject cmd
      (((noSpaceVerb cmd s).map strlen).getD length) s verb) with ⟨w', reply⟩
    have hone {v w'} (h : r = ⟨cmd, [⟨s, true⟩], v, w'⟩) : r.visits = [⟨s, true⟩] := by rw [h]
    cases reply with
    | error => exact ⟨⟨s, true⟩, n, rest, w', iff_of_true rfl hfits,
        .inl (hone (by simp only [r, search, hverb, hcompare, hcall]; rfl))⟩
    | nonzero => exact ⟨⟨s, true⟩, n, rest, w', iff_of_true rfl hfits,
        .inl (hone (by simp only [r, search, hverb, hcompare, hcall]; rfl))⟩
    | zero =>
      rcases hbehind : behind a (D.sent w' giver) with - | rest'
      · exact ⟨⟨s, true⟩, n, rest, w', iff_of_true rfl hfits,
          .inl (hone (by simp only [r, search, hverb, hcompare, hcall, hbehind]; rfl))⟩
      · exact ⟨⟨s, true⟩, n, rest', w', iff_of_true rfl hfits,
          .inr (by simp only [r, search, hverb, hcompare, hcall, hbehind])⟩
  · have hcompare := compare_of_not_fitsAt hverb hfits
    refine ⟨⟨s, false⟩, n, rest, w, iff_of_false Bool.false_ne_true hfits, .inr ?_⟩
    simp only [r, search, hverb, hcompare, noSpaceVerb_of_not_fitsAt hfits, map_none,
      getD_none]

/-- **What the loop does.** A sentence is tried when it fits at the length that is behind the
sentences before it. -/
theorem tried_iff_fitsAt {n length : ℕ} {sent : List (Addr × Sentence)} {w : σ}
    {before after : List Visit} {v : Visit}
    (h : (search D giver currentObject cmd n length sent w).visits = before ++ v :: after) :
    v.tried = true ↔ FitsAt cmd (lengthAfter cmd length (before.map (·.sentence))) v.sentence := by
  induction before generalizing n length sent w with
  | nil =>
    obtain hnil | ⟨v', n', sent', w', htried, hone | hcons⟩ :=
      search_cases D giver currentObject cmd n length sent w
    · rw [hnil] at h
      exact absurd h (cons_ne_nil _ _).symm
    · rw [hone] at h
      exact (List.cons.inj h).1 ▸ htried
    · rw [hcons] at h
      exact (List.cons.inj h).1 ▸ htried
  | cons b before ih =>
    obtain hnil | ⟨v', n', sent', w', -, hone | hcons⟩ :=
      search_cases D giver currentObject cmd n length sent w
    · rw [hnil] at h
      exact absurd h (cons_ne_nil _ _).symm
    · rw [hone] at h
      exact absurd (List.cons.inj h).2 (by simp)
    · rw [hcons] at h
      obtain ⟨rfl, hrest⟩ := List.cons.inj h
      rw [map_cons, lengthAfter_cons]
      exact ih hrest

/-! ### Commands whose sentences do not depend on each other -/

/-- A run in which the sentences that are tried are the ones that fit the command by themselves. -/
def PerSentence (r : Run σ) : Prop :=
  ∀ v ∈ r.visits, v.tried = true ↔ Matches r.command v.sentence

/-- A length that is mistaken for the one of the first word by a sentence without a flag whose verb
begins the command: the verb has one of the two lengths. -/
def Confuses (cmd : CString) (length : ℕ) (s : Sentence) : Prop :=
  ∃ verb, s.verb = some verb ∧ verb.bytes <+: cmd.bytes ∧ s.shortVerb = 0 ∧
    length ≠ wordLength cmd ∧ (strlen verb = length ∨ strlen verb = wordLength cmd)

/-- No sentence mistakes the last verb with `V_NO_SPACE` before it that fits for the first word. -/
def Unconfused (cmd : CString) (sentences : List Sentence) : Prop :=
  ∀ before s after, sentences = before ++ s :: after →
    ∀ verb ∈ (before.filterMap (noSpaceVerb cmd)).getLast?, ¬Confuses cmd (strlen verb) s

/-- A sentence that is not confused fits at the length just when it matches, and the other way
round. -/
theorem fitsAt_iff_matches_iff :
    (FitsAt cmd length s ↔ Matches cmd s) ↔ ¬Confuses cmd length s := by
  rcases hverb : s.verb with - | verb
  · exact iff_of_true (iff_of_false (by simp [FitsAt, hverb]) (by simp [Matches, FitsAt, hverb]))
      (by simp [Confuses, hverb])
  rw [Matches, fitsAt_iff hverb, fitsAt_iff hverb, Confuses]
  simp only [hverb, some.injEq, exists_eq_left']
  by_cases hbegins : verb.bytes <+: cmd.bytes
  · by_cases hflag : s.shortVerb = 0
    · simp only [hbegins, hflag, ne_eq, not_true_eq_false, true_and, false_or]
      omega
    · simp only [ne_eq, hflag, not_false_eq_true, true_or, false_and, and_false]
  · simp [hbegins]

theorem lengthAfter_eq_of_none {before : List Sentence}
    (h : (before.filterMap (noSpaceVerb cmd)).getLast? = none) :
    lengthAfter cmd length before = length := by
  rw [lengthAfter, h]; rfl

theorem lengthAfter_eq_of_some {before : List Sentence}
    (h : (before.filterMap (noSpaceVerb cmd)).getLast? = some verb) :
    lengthAfter cmd length before = strlen verb := by
  rw [lengthAfter, h]; rfl

theorem perSentence_search_iff {n : ℕ} {sent : List (Addr × Sentence)} {w : σ} {visits : List Visit}
    (hvisits : visits = (search D giver currentObject cmd n (wordLength cmd) sent w).visits) :
    (∀ v ∈ visits, v.tried = true ↔ Matches cmd v.sentence) ↔
      Unconfused cmd (visits.map (·.sentence)) := by
  have hstep {before v after} (h : visits = before ++ v :: after) :=
    tried_iff_fitsAt (hvisits ▸ h)
  constructor
  · intro hall before s after hsplit verb hlast
    obtain ⟨before, rest, rfl, rfl, hrest⟩ := map_eq_append_iff.1 hsplit
    obtain ⟨v, after, rfl, rfl, rfl⟩ := map_eq_cons_iff.1 hrest
    rw [← fitsAt_iff_matches_iff, ← hall v (by simp), hstep rfl, lengthAfter_eq_of_some hlast]
  · intro hun v hv
    obtain ⟨before, after, rfl⟩ := append_of_mem hv
    rw [hstep rfl]
    rcases hlast : ((before.map (·.sentence)).filterMap (noSpaceVerb cmd)).getLast? with - | verb
    · rw [lengthAfter_eq_of_none hlast, Matches]
    · rw [lengthAfter_eq_of_some hlast, fitsAt_iff_matches_iff]
      exact hun _ _ _ (by rw [map_append, map_cons]) verb hlast

theorem playerParser_cases (D : Driver σ) (fuel : ℕ) (giver : Obj) (currentObject : Option Obj)
    (buff : CString) (w : σ) :
    let r := playerParser D fuel giver currentObject buff w
    r.visits = [] ∨ ∃ cmd w', r = search D giver currentObject cmd fuel (wordLength cmd)
      (D.sent w' giver) w' := by
  intro r
  have hr : r = playerParser D fuel giver currentObject buff w := rfl
  rw [playerParser] at hr
  split_ifs at hr with hempty
  · exact .inl (by rw [hr])
  · rcases hmod : D.modifyCommand w (stripSpaces buff) giver with ⟨w', m⟩
    rw [hmod] at hr
    cases m with
    | missing =>
      simp only at hr
      split_ifs at hr with hend
      · exact .inl (by rw [hr])
      · exact .inr ⟨_, _, hr⟩
    | string s =>
      simp only at hr
      split_ifs at hr with hend
      · exact .inl (by rw [hr])
      · exact .inr ⟨_, _, hr⟩
    | other => exact .inl (by rw [hr])
    | error => exact .inl (by rw [hr])

theorem search_command (n length : ℕ) (sent : List (Addr × Sentence)) (w : σ) :
    (search D giver currentObject cmd n length sent w).command = cmd := by
  fun_induction search D giver currentObject cmd n length sent w <;> first | rfl | assumption

/-- **Whether a sentence is tried depends on it alone just when none is confused** by the length
that an earlier one with `V_NO_SPACE` has left. -/
theorem perSentence_iff (D : Driver σ) (fuel : ℕ) (giver : Obj) (currentObject : Option Obj)
    (buff : CString) (w : σ) :
    let r := playerParser D fuel giver currentObject buff w
    PerSentence r ↔ Unconfused r.command (r.visits.map (·.sentence)) := by
  intro r
  obtain hnil | ⟨cmd, w', hr⟩ := playerParser_cases D fuel giver currentObject buff w
  · refine iff_of_true (fun v hv ↦ ?_) fun before s after hsplit ↦ ?_
    · exact absurd (hnil ▸ hv) not_mem_nil
    · rw [hnil] at hsplit
      exact absurd hsplit (by simp)
  · have hcommand : r.command = cmd := by rw [show r = _ from hr, search_command]
    rw [PerSentence, hcommand]
    exact perSentence_search_iff (congrArg Run.visits hr)

/-! ### A command that is taken for another one -/

/-- A string of bytes that are not NUL. -/
def literal (bytes : Bytes) : CString := CString.ofBytes bytes

/-- Two sentences of one object, the one with the verb `s`, which needs no space, and the one with
the verb `say`; the function of the first one always fails. -/
def sayDriver : Driver Unit where
  sent _ _ := [(1, ⟨some (literal [115]), 10, 7, V_NO_SPACE⟩),
    (2, ⟨some (literal [115, 97, 121]), 11, 7, 0⟩)]
  destructed _ _ := false
  modifyCommand _ _ _ := ((), .missing)
  call _ c := ((), if c.funct = 10 then .zero else .nonzero)
  clearNotify := id
  notifyNoCommand := id

/-- The command `say` is not understood, although there is a sentence that matches it. -/
theorem not_perSentence : ¬∀ (σ : Type) (D : Driver σ) (fuel : ℕ) (giver : Obj)
    (currentObject : Option Obj) (buff : CString) (w : σ),
    PerSentence (playerParser D fuel giver currentObject buff w) := by
  intro h
  have hall := h Unit sayDriver 3 1 none (literal [115, 97, 121]) ()
  have hruns : (playerParser sayDriver 3 1 none (literal [115, 97, 121]) ()).visits =
      [⟨⟨some (literal [115]), 10, 7, V_NO_SPACE⟩, true⟩,
        ⟨⟨some (literal [115, 97, 121]), 11, 7, 0⟩, false⟩] := by decide
  have hlast := (hall ⟨⟨some (literal [115, 97, 121]), 11, 7, 0⟩, false⟩ (by rw [hruns]; simp)).2
    ⟨_, rfl, by decide, .inr (by decide)⟩
  exact absurd hlast (by decide)

end Lpmud.Commands
