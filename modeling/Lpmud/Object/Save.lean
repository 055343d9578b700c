import Lpmud.Lib.Decimal
import Lpmud.Mapping.Operations

/-!
# Saving and restoring values

The text that `object.c` writes for a value (`save_one`), and how it reads a value from a text
(`restore_one`). Both are recursive along arrays and mappings.

The text is a string of C: behind its last byte there is a NUL, and a `\` right in front of that
makes `restore_one` run past the end. What printing and scanning floats and the names of objects
come to, which objects there are, and the addresses that new arrays and mappings get are
parameters.
-/

namespace Lpmud.Object

/-! ### Characters -/

abbrev LF : UInt8 := 10
abbrev CR : UInt8 := 13
abbrev QUOTE : UInt8 := 34
abbrev HASH : UInt8 := 35
abbrev DOLLAR : UInt8 := 36
abbrev LPAREN : UInt8 := 40
abbrev RPAREN : UInt8 := 41
abbrev COMMA : UInt8 := 44
abbrev MINUS : UInt8 := 45
abbrev ZERO : UInt8 := 48
abbrev COLON : UInt8 := 58
abbrev AT : UInt8 := 64
abbrev LBRACKET : UInt8 := 91
abbrev BACKSLASH : UInt8 := 92
abbrev RBRACKET : UInt8 := 93
abbrev LETTER_N : UInt8 := 110
abbrev LBRACE : UInt8 := 123
abbrev RBRACE : UInt8 := 125

abbrev MAX_ARRAY_SIZE : ℕ := 5000

/-- The size of `name` in `restore_one`. -/
abbrev NAME_SIZE : ℕ := 1024

/-- What saving and restoring depend on: the objects, the formatting of the C library, and the
addresses of new arrays and mappings. -/
structure Env where
  world : World
  /-- When an object was created, and what it is called. -/
  created : Obj → ℤ
  name : Obj → CString
  /-- `find_object2`. -/
  findObject : Bytes → Option Obj
  /-- `sprintf` of a float as `%.8e`, and `sscanf` of one between hashes. -/
  printFloat : CFloat → Bytes
  scanFloat : Bytes → Option CFloat
  /-- `sscanf` of the time and the name of an object. The name is what `%[` finds, of any length. -/
  scanObject : Bytes → Option (ℤ × Bytes)
  /-- The address of the array without elements; there is only one. -/
  nullVector : Addr
  /-- The addresses of new arrays and mappings, one after the other. -/
  alloc : ℕ → Addr
  alloc_injective : Function.Injective alloc
  alloc_ne : ∀ i, alloc i ≠ nullVector

/-! ### Saving -/

/-- A number as `%d`. -/
def printInt (n : ℤ) : Bytes :=
  if n < 0 then MINUS :: Decimal.numeral n.natAbs else Decimal.numeral n.natAbs

/-- How `save_string` writes a character. -/
def saveChar (c : UInt8) : Bytes :=
  if c = QUOTE then [BACKSLASH, QUOTE]
  else if c = BACKSLASH then [BACKSLASH, BACKSLASH]
  else if c = LF then [BACKSLASH, LETTER_N]
  else [c]

def saveString (s : Bytes) : Bytes :=
  QUOTE :: s.flatMap saveChar ++ [QUOTE]

mutual

def saveOne (e : Env) : Svalue → Bytes
  | .float x => HASH :: e.printFloat x ++ [HASH]
  | .number n => printInt n.toInt
  | .string s => saveString s.bytes
  | .pointer _ item => LPAREN :: LBRACE :: saveItems e item ++ [RBRACE, RPAREN]
  | .mapping _ pairs => LPAREN :: LBRACKET :: savePairs e pairs ++ [RBRACKET, RPAREN]
  | .object ob =>
    DOLLAR :: printInt (e.created ob) ++ AT :: (e.name ob).bytes ++ [DOLLAR]
  | .function _ => [ZERO]

/-- The loop of `save_array`. -/
def saveItems (e : Env) : List Svalue → Bytes
  | [] => []
  | v :: item => saveOne e v ++ COMMA :: saveItems e item

/-- The loops of `save_mapping`. -/
def savePairs (e : Env) : List (Svalue × Svalue) → Bytes
  | [] => []
  | (k, v) :: pairs => saveOne e k ++ COLON :: (saveOne e v ++ COMMA :: savePairs e pairs)

end

/-! ### Restoring -/

/-- How restoring can fail: it returns 0, or raises an error because of a mapping or an array that
is too large, or runs past the end of the text. The recursion never gets to the end of its
rounds (`restore_ne_rounds`). -/
inductive Failure where
  | illegal
  | tooLarge
  | arraySize
  | overrun
  | rounds
  deriving DecidableEq

/-- A value, the rest of the text, and how many addresses have been given out. -/
abbrev Restored (α : Type) : Type := Except Failure (α × Bytes × ℕ)

/-- The loop over the characters of a string, from in front of one or (`escaped`) from behind a
backslash on: they, and the text behind the string. A carriage return is how newlines were once
saved. -/
def restoreString : (escaped : Bool) → Bytes → Except Failure (Bytes × Bytes)
  | false, [] => .error .illegal
  | true, [] => .error .overrun
  | false, c :: s =>
    if c = QUOTE then .ok ([], s)
    else if c = BACKSLASH then restoreString true s
    else (restoreString false s).map fun (bs, s') ↦ ((if c = CR then LF else c) :: bs, s')
  | true, c :: s =>
    (restoreString false s).map fun (bs, s') ↦ ((if c = LETTER_N then LF else c) :: bs, s')

/-- `atoi`, for a text that does not begin with a blank or a plus sign. A `long` is as far as it
goes. -/
def atoi (s : Bytes) : BitVec 32 :=
  let n : ℤ :=
    match s with
    | [] => 0
    | c :: t =>
      if c = MINUS then -Decimal.value (t.takeWhile Decimal.isDigit)
      else Decimal.value (s.takeWhile Decimal.isDigit)
  BitVec.ofInt 32 (max (-2 ^ 63) (min n (2 ^ 63 - 1)))

/-- The characters that `restore_one` takes for part of a number. -/
def isNumeric (c : UInt8) : Bool :=
  Decimal.isDigit c || c == MINUS

/-- What is behind the next character `c`; nothing if there is none. -/
def behind (c : UInt8) (s : Bytes) : Option Bytes :=
  match s.dropWhile (· != c) with
  | [] => none
  | _ :: s' => some s'

/-- `restore_one` for an object, behind the first dollar sign. The name and the NUL behind it are
stored in `name`, whether there is room for them or not. -/
def restoreReference (e : Env) (t : Bytes) (next : ℕ) : Restored Svalue :=
  match behind DOLLAR t, e.scanObject (DOLLAR :: t) with
  | some s', some (ct, name) =>
    if name.length ≥ NAME_SIZE then .error .overrun
    else match e.findObject name with
    | some ob => .ok (if e.created ob = ct then .object ob else .number 0, s', next)
    | none => .ok (.number 0, s', next)
  | _, _ => .error .illegal

/-- `restore_one` for a float, behind the first hash. -/
def restoreFloat (e : Env) (t : Bytes) (next : ℕ) : Restored Svalue :=
  match behind HASH t, e.scanFloat (HASH :: t) with
  | some s', some x => .ok (.float x, s', next)
  | _, _ => .error .illegal

/-- `allocate_array` for the elements that have been read. -/
def allocateArray (e : Env) (item : List Svalue) (s : Bytes) (next : ℕ) : Restored Svalue :=
  if item.length > MAX_ARRAY_SIZE then .error .arraySize
  else if item = [] then .ok (.pointer e.nullVector [], s, next)
  else .ok (.pointer (e.alloc next) item, s, next + 1)

mutual

def restoreOne (e : Env) : ℕ → Bytes → ℕ → Restored Svalue
  | 0, _, _ => .error .rounds
  | _ + 1, [], _ => .error .illegal
  | n + 1, c :: t, next =>
    if c = LPAREN then
      if t.head? = some LBRACKET then
        (restoreMapping e n (.allocateMap 0) t.tail (next + 1)).map fun (m, s, next') ↦
          (.mapping (e.alloc next) (Mapping.entries m.stored), s, next')
      else if t.head? = some LBRACE then
        (restoreArray e n [] t.tail next).bind fun (item, s, next') ↦ allocateArray e item s next'
      else .error .illegal
    else if c = QUOTE then
      (restoreString false t).map fun (bs, s) ↦ (.string (.ofBytes bs), s, next)
    else if c = DOLLAR then restoreReference e t next
    else if c = HASH then restoreFloat e t next
    else if isNumeric c then .ok (.number (atoi (c :: t)), (c :: t).dropWhile isNumeric, next)
    else .error .illegal

/-- The loop of `restore_array`, with the elements that have been read. -/
def restoreArray (e : Env) : ℕ → List Svalue → Bytes → ℕ → Restored (List Svalue)
  | 0, _, _, _ => .error .rounds
  | n + 1, tmp, s, next =>
    if s.head? = some RBRACE then
      match s.tail with
      | [] => .error .illegal
      | d :: s' => if d = RPAREN then .ok (tmp, s', next) else .error .illegal
    else
      (restoreOne e n s next).bind fun (v, s', next') ↦
        match s' with
        | [] => .error .illegal
        | d :: s'' =>
          if d = COMMA then restoreArray e n (tmp ++ [v]) s'' next' else .error .illegal

/-- The loop of `restore_mapping`, with the mapping made so far. A pair is put into the mapping
before its value is read. -/
def restoreMapping (e : Env) : ℕ → Mapping → Bytes → ℕ → Restored Mapping
  | 0, _, _, _ => .error .rounds
  | n + 1, m, s, next =>
    if s.head? = some RBRACKET then
      match s.tail with
      | [] => .error .illegal
      | d :: s' => if d = RPAREN then .ok (m, s', next) else .error .illegal
    else
      (restoreOne e n s next).bind fun (arg, s', next') ↦
        match s' with
        | [] => .error .illegal
        | d :: s'' =>
          if d = COLON then
            match m.getMapLvalue e.world arg id with
            | .error _ => .error .tooLarge
            | .ok _ =>
              (restoreOne e n s'' next').bind fun (val, t, next'') ↦
                match t with
                | [] => .error .illegal
                | d :: t' =>
                  if d = COMMA then
                    -- What the caller does with the pointer that it was given.
                    match m.getMapLvalue e.world arg fun _ ↦ val with
                    | .error _ => .error .tooLarge
                    | .ok m' => restoreMapping e n m' t' next''
                  else .error .illegal
          else .error .illegal

end

/-- `restore_one` on a text. -/
def restore (e : Env) (s : Bytes) (next : ℕ) : Restored Svalue :=
  restoreOne e (2 * s.length + 1) s next

/-! ### The rounds are enough -/

section Rounds

/-- What is left is shorter than the text, and the rounds have not run out. -/
def Shortens {α : Type} (left : α → Bytes) (s : Bytes) : Except Failure α → Prop
  | .ok x => (left x).length < s.length
  | .error f => f ≠ .rounds

variable {α β : Type} {left : α → Bytes} {left' : β → Bytes} {s s' : Bytes}

theorem Shortens.mono {r : Except Failure α} (h : Shortens left s r) (hs : s.length ≤ s'.length) :
    Shortens left s' r := by
  cases r with
  | error f => exact h
  | ok x => exact Nat.lt_of_lt_of_le h hs

theorem Shortens.map {r : Except Failure α} {g : α → β} (h : Shortens left s r)
    (hg : ∀ x, left' (g x) = left x) : Shortens left' s (r.map g) := by
  cases r with
  | error f => exact h
  | ok x => exact (congrArg List.length (hg x)).trans_lt h

theorem Shortens.bind {r : Except Failure α} {g : α → Except Failure β} (h : Shortens left s r)
    (hg : ∀ x, (left x).length < s.length → Shortens left' s (g x)) :
    Shortens left' s (r.bind g) := by
  cases r with
  | error f => exact h
  | ok x => exact hg x h

theorem shortens_restoreString (s : Bytes) :
    ∀ escaped, Shortens Prod.snd s (restoreString escaped s) := by
  induction s with
  | nil => rintro (- | -) <;> exact nofun
  | cons c s ih =>
    have hle : s.length ≤ (c :: s).length := Nat.le_succ _
    rintro (- | -)
    · rw [restoreString]
      by_cases hq : c = QUOTE
      · rw [if_pos hq]
        exact Nat.lt_succ_self _
      rw [if_neg hq]
      by_cases hb : c = BACKSLASH
      · rw [if_pos hb]
        exact (ih true).mono hle
      · rw [if_neg hb]
        refine Shortens.mono ?_ hle
        exact (ih false).map fun _ ↦ rfl
    · rw [restoreString]
      refine Shortens.mono ?_ hle
      exact (ih false).map fun _ ↦ rfl

theorem length_behind {c : UInt8} (h : behind c s = some s') : s'.length < s.length := by
  rw [behind] at h
  have hle := (List.dropWhile_suffix (· != c) (l := s)).length_le
  split at h
  next => cases h
  next hs =>
    cases h
    rw [hs] at hle
    exact hle

/-- **The rounds of `restore` are enough for every text.** -/
theorem restoreOne_rounds (e : Env) (n : ℕ) :
    (∀ s next, 2 * s.length + 1 ≤ n → Shortens (·.2.1) s (restoreOne e n s next)) ∧
      (∀ tmp s next, 2 * s.length + 2 ≤ n → Shortens (·.2.1) s (restoreArray e n tmp s next)) ∧
      ∀ m s next, 2 * s.length + 2 ≤ n → Shortens (·.2.1) s (restoreMapping e n m s next) := by
  induction n with
  | zero => exact ⟨nofun, nofun, nofun⟩
  | succ n ih =>
    obtain ⟨ihone, iharray, ihmapping⟩ := ih
    have htail {t : Bytes} {c : UInt8} (h : t.head? = some c) : t.tail.length < t.length := by
      rcases t with - | ⟨d, t⟩
      · cases h
      · exact Nat.lt_succ_self _
    -- Behind a closing bracket.
    have hend {α : Type} (x : Bytes → α × Bytes × ℕ) (hx : ∀ s, (x s).2.1 = s)
        {s : Bytes} {c : UInt8} (h : s.head? = some c) :
        Shortens (·.2.1) s (match s.tail with
          | [] => .error .illegal
          | d :: s' => if d = RPAREN then .ok (x s') else .error .illegal) := by
      have hlt := htail h
      cases hs : s.tail with
      | nil => exact nofun
      | cons d s' =>
        dsimp only
        rw [hs, List.length_cons] at hlt
        split
        next =>
          change (x s').2.1.length < _
          rw [hx]
          omega
        next => exact nofun
    refine ⟨fun s next hn ↦ ?_, fun tmp s next hn ↦ ?_, fun m s next hn ↦ ?_⟩
    · rcases s with - | ⟨c, t⟩
      · exact nofun
      have hcons : (c :: t).length = t.length + 1 := rfl
      rw [restoreOne]
      split
      next =>
        split
        next h =>
          have := htail h
          refine Shortens.mono (s := t.tail) ?_ (by omega)
          exact (ihmapping _ _ _ (by omega)).map fun _ ↦ rfl
        next =>
          split
          next h =>
            have := htail h
            refine Shortens.mono (s := t.tail) ?_ (by omega)
            refine Shortens.bind (iharray _ _ _ (by omega)) fun x hx ↦ ?_
            change Shortens _ _ (allocateArray _ _ _ _)
            rw [allocateArray]
            split
            next => exact nofun
            next =>
              split
              next => exact hx
              next => exact hx
          next => exact nofun
      next =>
        split
        next =>
          refine Shortens.mono (s := t) ?_ (by omega)
          exact (shortens_restoreString t false).map fun _ ↦ rfl
        next =>
          split
          next =>
            refine Shortens.mono (s := t) ?_ (by omega)
            rw [restoreReference]
            split
            next h _ =>
              split
              next => exact nofun
              next =>
                split
                next => exact length_behind h
                next => exact length_behind h
            next => exact nofun
          next =>
            split
            next =>
              refine Shortens.mono (s := t) ?_ (by omega)
              rw [restoreFloat]
              split
              next h _ => exact length_behind h
              next => exact nofun
            next =>
              split
              next hc =>
                change ((c :: t).dropWhile isNumeric).length < _
                rw [List.dropWhile_cons_of_pos hc]
                exact Nat.lt_succ_of_le (List.dropWhile_suffix isNumeric).length_le
              next => exact nofun
    · rw [restoreArray]
      split
      next h => exact hend (fun s' ↦ (tmp, s', next)) (fun _ ↦ rfl) h
      next =>
        refine Shortens.bind (ihone _ _ (by omega)) fun x hx ↦ ?_
        obtain ⟨v, s', next'⟩ := x
        rcases s' with - | ⟨d, s''⟩
        · exact nofun
        · dsimp only at hx ⊢
          rw [List.length_cons] at hx
          split
          next => exact (iharray _ _ _ (by omega)).mono (by omega)
          next => exact nofun
    · rw [restoreMapping]
      split
      next h => exact hend (fun s' ↦ (m, s', next)) (fun _ ↦ rfl) h
      next =>
        refine Shortens.bind (ihone _ _ (by omega)) fun x hx ↦ ?_
        obtain ⟨arg, s', next'⟩ := x
        rcases s' with - | ⟨d, s''⟩
        · exact nofun
        dsimp only at hx ⊢
        rw [List.length_cons] at hx
        split
        next =>
          split
          next => exact nofun
          next =>
            refine Shortens.bind ((ihone s'' next' (by omega)).mono (by omega)) fun y hy ↦ ?_
            obtain ⟨val, t, next''⟩ := y
            rcases t with - | ⟨d', t'⟩
            · exact nofun
            dsimp only at hy ⊢
            rw [List.length_cons] at hy
            split
            next =>
              split
              next => exact nofun
              next => exact (ihmapping _ _ _ (by omega)).mono (by omega)
            next => exact nofun
        next => exact nofun

theorem restore_ne_rounds (e : Env) (s : Bytes) (next : ℕ) :
    restore e s next ≠ .error .rounds := by
  intro h
  have hshort : Shortens (·.2.1) s (restore e s next) := (restoreOne_rounds e _).1 s next le_rfl
  rw [h] at hshort
  exact hshort rfl

end Rounds

end Lpmud.Object
