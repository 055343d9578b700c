import Lpmud.Lib.Abortable
import Lpmud.Svalue
import Mathlib.Algebra.Group.Nat.Defs
import Mathlib.Algebra.Group.Int.Defs

/-!
# The buffer of sprintf

`sprintf.c` prints into a buffer of a fixed size, one character after the other (`ADD_CHAR`), and
jumps back to the beginning of `string_print_formatted` when something is wrong (`ERROR`).

`add_justified` prints a string into a field, with padding in front of it and behind it. The padding
is taken from a pad string, over and over; a backslash in it stands for the character after it.
-/

namespace Lpmud.Sprintf

open List Abortable

abbrev NEWLINE : UInt8 := 10
abbrev SPACE : UInt8 := 32
abbrev BACKSLASH : UInt8 := 92

/-- The size of the buffer. -/
abbrev BUFF_SIZE : ℕ := 10000

/-- The numbers that `ERROR` jumps with. -/
inductive FormatError where
  | buffOverflow
  | toFewArgs
  | invalidStar
  | precExpected
  | invalidFormatStr
  | incorrectArgS
  | cstRequiresFs
  | badIntType
  | undefinedType
  | quoteExpected
  | unexpectedEos
  | nullPs
  | badFloatType
  deriving DecidableEq

/-- What `error` is called with. -/
def FormatError.err : FormatError → String
  | buffOverflow => "BUFF_SIZE overflowed..."
  | toFewArgs => "More arguments specified than passed."
  | invalidStar => "Incorrect argument type to *."
  | precExpected => "Expected precision not found."
  | invalidFormatStr => "Error in format string."
  | incorrectArgS => "Incorrect argument to type %s"
  | cstRequiresFs => "Column/table mode requires a field size."
  | badIntType => "!feature - bad integer type!"
  | undefinedType => "!feature - undefined type!"
  | quoteExpected => "Quote expected in format string."
  | unexpectedEos => "Unexpected end of format string."
  | nullPs => "Null pad string specified."
  | badFloatType => "!feature - bad float type!"

/-- A string: one that is given, or one that an LPC value is printed to. -/
inductive Block where
  | given (a : Addr)
  | clean (n : ℕ)
  deriving DecidableEq

/-- A pointer into a string: which string it is, and how far into it the pointer is. -/
structure Ptr where
  block : Block
  offset : ℕ
  deriving DecidableEq

/-- Why printing stops before it is done. -/
inductive Stop where
  /-- `ERROR` -/
  | jump (x : FormatError)
  /-- `error`, or an error in the master object -/
  | raise (message : String)
  /-- something behind the end of a string is read -/
  | past (p : Block)
  /-- something is written behind the end of an array on the stack -/
  | overrun
  /-- something else goes wrong that is not checked -/
  | fault
  /-- there are no rounds left -/
  | rounds
  deriving DecidableEq

abbrev FormatInfo : Type := BitVec 32

abbrev INFO_J : FormatInfo := 0x30
abbrev INFO_J_CENTRE : FormatInfo := 0x10
abbrev INFO_J_LEFT : FormatInfo := 0x20

/-- A pad string: all that is there from its beginning on, and what it is to read behind that. -/
structure Pad where
  chars : Bytes
  past : Stop

/-- A step of printing that cannot always be taken, with what it finds. -/
inductive Step where
  /-- so many characters are added behind those that are in the buffer -/
  | add (bpos n : ℕ)
  /-- `add_justified` is called for a string of some length, with a NUL in the place of `save` -/
  | field (bpos : ℕ) (save : UInt8) (len : ℕ) (pad : Pad) (fs : BitVec 32) (finfo : FormatInfo)
    (trailing : Bool)
  /-- the end of a pad string is looked for in what there is from its beginning on -/
  | quote (bytes : Bytes)
  /-- a float is printed to `temp` with so many characters -/
  | temp (n : ℕ)
  /-- an error is raised that does not jump, when so many characters are saved -/
  | raise (saves : ℕ)

/-- The variables of `sprintf.c`, and the strings that there are. -/
structure State where
  /-- The strings, with the NUL at the end. -/
  mem : Block → Bytes
  /-- The byte in front of a string. -/
  front : Block → UInt8
  /-- What is in the buffer. -/
  buff : Bytes
  curpos : ℕ
  /-- The string that an LPC value is printed to. -/
  clean : Option ℕ
  /-- How many of them there have been. -/
  cleans : ℕ
  saves : List (Ptr × UInt8)
  /-- The steps that were taken; nothing is done that depends on them. -/
  steps : List Step
  stop : Option Stop

/-- Printing: it may be cut short. -/
abbrev Print (α : Type) : Type :=
  Abortable State α

/-- Printing is cut short. -/
def halt {α : Type} (stop : Stop) : Print α := fun s ↦
  (none, { s with stop := some stop })

def ERROR {α : Type} (x : FormatError) : Print α :=
  halt (.jump x)

/-- A step is noted. -/
def note (step : State → Step) : Print PUnit :=
  modify fun s ↦ { s with steps := step s :: s.steps }

/-- What is read has to be there. -/
def there {α : Type} : Except Stop α → Print α
  | .ok a => pure a
  | .error stop => halt stop

def addChar (x : UInt8) : Print PUnit := do
  modify fun s ↦ { s with buff := s.buff ++ [x] }
  let s ← read
  if s.buff.length > BUFF_SIZE then
    ERROR .buffOverflow
  modify fun s ↦ { s with curpos := s.curpos + 1 }

/-- A loop that adds the characters of a string. -/
def addChars (str : Bytes) : Print PUnit :=
  str.forM addChar

/-- The length of the string at the beginning of some bytes. -/
def strlen (s : Bytes) : ℕ :=
  (s.takeWhile (· != 0)).length

/-! ### Justification -/

/-- A loop of `add_justified`: the index and the bound with which it goes on, what the test for a
backslash reads, and what a backslash and a character do to the bound. -/
structure PadLoop where
  more : ℕ → BitVec 32 → Bool
  test : ℕ → Except Stop UInt8
  skip : BitVec 32 → BitVec 32
  next : BitVec 32 → BitVec 32

/-- A pad string with nothing behind its NUL. -/
def Pad.ofString (str : CString) (past : Stop) : Pad where
  chars := str.bytes ++ [0]
  past := past

/-- A character of a pad string. -/
def Pad.get (pad : Pad) (i : ℕ) : Except Stop UInt8 :=
  match pad.chars[i]? with
  | some c => .ok c
  | none => .error pad.past

/-- A character of the pad string, over and over. -/
def Pad.char (pad : Pad) (i : ℕ) : Except Stop UInt8 :=
  let l := strlen pad.chars
  if l = 0 then .error .fault else pad.get (i % l)

/-- Padding behind a string at the left. -/
def leftLoop (pad : Pad) : PadLoop where
  more _ fs := 0 < fs
  test := pad.char
  skip fs := fs
  next fs := fs - 1

/-- Padding in front of a string in the middle. The test for a backslash takes the length of the
string for that of the pad string. -/
def leadLoop (pad : Pad) (len : ℕ) : PadLoop where
  more i j := (i : ℤ) < j.toInt
  test i := if len = 0 then .ok 0 else pad.get (i % len)
  skip j := j + 1
  next j := j

/-- Padding behind a string in the middle. -/
def trailLoop (pad : Pad) : PadLoop where
  more i j := (i : ℤ) < j.toInt
  test := pad.char
  skip j := j + 1
  next j := j

/-- Padding in front of a string at the right. -/
def rightLoop (pad : Pad) : PadLoop where
  more i fs := i < fs.toNat
  test := pad.char
  skip fs := fs + 1
  next fs := fs

/-- The loop. There is no room in the buffer for more rounds than `fuel`. -/
def PadLoop.run (loop : PadLoop) (pad : Pad) : (fuel i : ℕ) → BitVec 32 → Print PUnit
  | 0, _, _ => halt .rounds
  | fuel + 1, i, bound =>
    if loop.more i bound then do
      let c ← there (loop.test i)
      let here := if c = BACKSLASH then (i + 1, loop.skip bound) else (i, bound)
      addChar (← there (pad.char here.1))
      loop.run pad fuel (here.1 + 1) (loop.next here.2)
    else pure .unit

/-- All rounds that there is room for, and one more. -/
abbrev PadLoop.all (loop : PadLoop) (pad : Pad) (bound : BitVec 32) : Print PUnit :=
  loop.run pad (BUFF_SIZE + 2) 0 bound

/-- `add_justified`. The string is known by its characters. -/
def addJustified (str : Bytes) (pad : Pad) (fs : BitVec 32) (finfo : FormatInfo)
    (trailing : Bool) : Print PUnit :=
  let len := str.length
  if finfo &&& INFO_J = INFO_J_LEFT then do
    addChars str
    if trailing then
      (leftLoop pad).all pad (fs - BitVec.ofNat 32 len)
  else if finfo &&& INFO_J = INFO_J_CENTRE then do
    -- the difference is a `size_t`
    let rest := fs.setWidth 64 - BitVec.ofNat 64 len
    (leadLoop pad len).all pad ((rest / 2 + rest % 2).setWidth 32)
    addChars str
    if trailing then
      (trailLoop pad).all pad ((rest / 2).setWidth 32)
  else do
    (rightLoop pad).all pad (fs - BitVec.ofNat 32 len)
    addChars str

/-! ### What is to be printed -/

/-- Where a walk over the pad string is after some characters: what is marked is passed over. -/
def walk (marked : ℕ → Bool) (i : ℕ) : ℕ → ℕ
  | 0 => i
  | k + 1 => walk marked i k + if marked (walk marked i k) then 2 else 1

/-- The characters of the pad string that a walk takes. -/
def taken (marked : ℕ → Bool) (pad : Bytes) (i k : ℕ) : Bytes :=
  (List.range k).map fun k ↦ pad.getD ((walk marked i (k + 1) - 1) % pad.length) 0

/-- Whether there is a backslash, the pad string being repeated. -/
def escaped (pad : Bytes) (i : ℕ) : Bool :=
  pad.getD (i % pad.length) 0 = BACKSLASH

/-- The padding of some length. -/
def padding (pad : Bytes) (k : ℕ) : Bytes :=
  taken (escaped pad) pad 0 k

/-- **A string in its field**: with what is missing in front of it, behind it or on both sides of
it. Padding behind it is not asked for at the end of a line. -/
def justified (str pad : Bytes) (fs : ℕ) (finfo : FormatInfo) (trailing : Bool) :
    Bytes :=
  let rest := fs - str.length
  if finfo &&& INFO_J = INFO_J_LEFT then
    str ++ if trailing then padding pad rest else []
  else if finfo &&& INFO_J = INFO_J_CENTRE then
    padding pad ((rest + 1) / 2) ++ str ++ if trailing then padding pad (rest / 2) else []
  else
    padding pad rest ++ str

/-- The buffer with some more characters. -/
def State.put (s : State) (cs : Bytes) : State :=
  { s with buff := s.buff ++ cs, curpos := s.curpos + cs.length }

/-! ### Adding characters -/

variable {s s' : State} {pad : Bytes}

theorem addChar_of_lt (x : UInt8) (h : s.buff.length < BUFF_SIZE) :
    addChar x s = (some .unit, s.put [x]) := by
  rw [addChar, bind_of_some (modify_apply _ s), bind_of_some (read_apply _), if_neg]
  · rfl
  · rw [length_append, length_singleton]
    omega

theorem addChar_of_le (x : UInt8) (h : BUFF_SIZE ≤ s.buff.length) :
    addChar x s = (none, { s with buff := s.buff ++ [x], stop := some (.jump .buffOverflow) }) := by
  rw [addChar, bind_of_some (modify_apply _ s), bind_of_some (read_apply _), if_pos]
  · rfl
  · rw [length_append, length_singleton]
    omega

@[simp]
theorem put_nil (s : State) : s.put [] = s := by
  rw [State.put, append_nil]
  rfl

@[simp]
theorem put_put (s : State) (cs cs' : Bytes) : (s.put cs).put cs' = s.put (cs ++ cs') := by
  simp only [State.put, append_assoc, length_append, Nat.add_assoc]

theorem put_injective (s : State) : Function.Injective s.put := fun _ _ h ↦
  append_cancel_left (congrArg State.buff h)

/-- There is room for some characters. -/
def State.Room (s : State) (cs : Bytes) : Prop :=
  cs ≠ [] → s.buff.length + cs.length ≤ BUFF_SIZE

theorem State.Room.append {cs cs' : Bytes} (h : s.Room cs) (h' : (s.put cs).Room cs') :
    s.Room (cs ++ cs') := by
  intro _
  rcases eq_or_ne cs' [] with rfl | hne
  · rw [append_nil] at *
    exact h ‹_›
  · have hlen := h' hne
    rw [State.put, length_append] at hlen
    rwa [length_append, ← Nat.add_assoc]

theorem State.Room.left {cs cs' : Bytes} (h : s.Room (cs ++ cs')) : s.Room cs := by
  intro hne
  have hlen := h (append_ne_nil_of_left_ne_nil hne cs')
  rw [length_append] at hlen
  omega

theorem State.Room.right {cs cs' : Bytes} (h : s.Room (cs ++ cs')) : (s.put cs).Room cs' := by
  intro hne
  have hlen := h (append_ne_nil_of_right_ne_nil cs hne)
  rw [length_append] at hlen
  rw [State.put, length_append]
  omega

/-- Whatever ends has added some characters for which there was room. -/
def Adds (m : Print PUnit) : Prop :=
  ∀ s s', m s = (some .unit, s') → ∃ cs, s' = s.put cs ∧ s.Room cs

theorem adds_pure : Adds (pure .unit) := by
  intro s s' h
  cases h
  exact ⟨[], (put_nil s).symm, fun hne ↦ absurd rfl hne⟩

theorem Adds.bind {m m' : Print PUnit} (hm : Adds m) (hm' : Adds m') :
    Adds (m >>= fun _ ↦ m') := by
  intro s s' h
  obtain ⟨⟨⟩, t, ht, hs'⟩ := bind_eq_some.1 h
  obtain ⟨cs, rfl, hroom⟩ := hm s t ht
  obtain ⟨cs', rfl, hroom'⟩ := hm' _ s' hs'
  exact ⟨cs ++ cs', put_put s cs cs', hroom.append hroom'⟩

theorem addChar_iff {x : UInt8} : addChar x s = (some .unit, s') ↔ s.Room [x] ∧ s' = s.put [x] := by
  rcases Nat.lt_or_ge s.buff.length BUFF_SIZE with hlt | hge
  · rw [addChar_of_lt x hlt, Prod.mk.injEq, eq_comm (a := s')]
    exact ⟨fun h ↦ ⟨fun _ ↦ hlt, h.2⟩, fun h ↦ ⟨rfl, h.2⟩⟩
  · rw [addChar_of_le x hge]
    refine iff_of_false (fun h ↦ nomatch congrArg Prod.fst h) fun ⟨hroom, _⟩ ↦ ?_
    have hlen := hroom (cons_ne_nil x [])
    rw [length_singleton] at hlen
    omega

/-- **Adding a string** ends when there is room for it. -/
theorem addChars_iff (str : Bytes) :
    addChars str s = (some .unit, s') ↔ s.Room str ∧ s' = s.put str := by
  induction str generalizing s with
  | nil =>
    constructor
    · intro h
      cases h
      exact ⟨fun hne ↦ absurd rfl hne, (put_nil _).symm⟩
    · rintro ⟨-, rfl⟩
      rw [put_nil]
      rfl
  | cons c str ih =>
    show (addChar c >>= fun _ ↦ addChars str) s = _ ↔ _
    rw [bind_eq_some]
    constructor
    · rintro ⟨⟨⟩, t, ht, hs'⟩
      obtain ⟨hroom, rfl⟩ := addChar_iff.1 ht
      obtain ⟨hroom', rfl⟩ := ih.1 hs'
      exact ⟨hroom.append hroom', put_put s [c] str⟩
    · rintro ⟨hroom, rfl⟩
      have hroom' : s.Room ([c] ++ str) := hroom
      refine ⟨.unit, s.put [c], addChar_iff.2 ⟨hroom'.left, rfl⟩, ?_⟩
      exact ih.2 ⟨hroom'.right, (put_put s [c] str).symm⟩

theorem adds_addChars (str : Bytes) : Adds (addChars str) := fun _ _ h ↦
  have ⟨hroom, hs'⟩ := (addChars_iff str).1 h
  ⟨str, hs', hroom⟩

/-! ### Padding -/

theorem there_bind_eq_some {α β : Type} {o : Except Stop α} {f : α → Print β} {b : β} :
    (there o >>= f) s = (some b, s') ↔ ∃ a, o = .ok a ∧ f a s = (some b, s') := by
  cases o with
  | error stop => exact iff_of_false (fun h ↦ nomatch congrArg Prod.fst h) nofun
  | ok a => exact ⟨fun h ↦ ⟨a, rfl, h⟩, fun ⟨_, ha, h⟩ ↦ Except.ok.inj ha ▸ h⟩

theorem strlen_append (str : CString) (rest : Bytes) :
    strlen (str.bytes ++ 0 :: rest) = str.bytes.length := by
  have hall : ∀ c ∈ str.bytes, (c != 0) = true := fun c hc ↦
    bne_iff_ne.2 fun hnul ↦ str.noNul (hnul ▸ hc)
  rw [strlen, takeWhile_append_of_pos hall]
  exact congrArg List.length (append_nil _)

theorem Pad.get_eq {pad : Pad} {i : ℕ} {c : UInt8} :
    pad.get i = .ok c ↔ pad.chars[i]? = some c := by
  rw [Pad.get]
  cases pad.chars[i]? <;> simp

theorem Pad.char_eq {pad : Pad} {str : CString} {rest : Bytes}
    (hpad : pad.chars = str.bytes ++ 0 :: rest) (hne : str.bytes ≠ []) (i : ℕ) :
    pad.char i = .ok (str.bytes.getD (i % str.bytes.length) 0) := by
  have hpos := length_pos_iff.2 hne
  have hlt := Nat.mod_lt i hpos
  have hlen : strlen pad.chars = str.bytes.length := by rw [hpad, strlen_append]
  rw [Pad.char, hlen, if_neg (by omega), Pad.get_eq, hpad, List.getElem?_append_left hlt,
    getD_eq_getElem?_getD, List.getElem?_eq_getElem hlt, Option.getD_some]

theorem walk_succ (marked : ℕ → Bool) (i k : ℕ) :
    walk marked i (k + 1) = walk marked (walk marked i 1) k := by
  induction k with
  | zero => rfl
  | succ k ih =>
    rw [walk, ih]
    rfl

theorem taken_succ (marked : ℕ → Bool) (pad : Bytes) (i k : ℕ) :
    taken marked pad i (k + 1) =
      pad.getD ((walk marked i 1 - 1) % pad.length) 0 :: taken marked pad (walk marked i 1) k := by
  rw [taken, range_succ_eq_map, map_cons, map_map]
  refine congrArg _ (map_congr_left fun k _ ↦ ?_)
  rw [Function.comp_apply, walk_succ]

@[simp]
theorem length_taken (marked : ℕ → Bool) (pad : Bytes) (i k : ℕ) :
    (taken marked pad i k).length = k := by
  rw [taken, length_map, length_range]

@[simp]
theorem length_padding (pad : Bytes) (k : ℕ) : (padding pad k).length = k :=
  length_taken _ pad 0 k

/-- A loop that is to make `c` rounds, as long as nothing wraps. -/
structure PadLoop.Counts (loop : PadLoop) (rounds : ℕ → BitVec 32 → ℕ → Prop) : Prop where
  done : ∀ i bound, rounds i bound 0 → loop.more i bound = false
  more : ∀ i bound c, rounds i bound (c + 1) → loop.more i bound = true
  next : ∀ i bound c, rounds i bound (c + 1) → rounds (i + 1) (loop.next bound) c
  skip : ∀ i bound c, rounds i bound (c + 1) → rounds (i + 2) (loop.next (loop.skip bound)) c

/-- Where a loop finds a backslash. -/
def PadLoop.marked (loop : PadLoop) (i : ℕ) : Bool :=
  match loop.test i with
  | .ok c => c = BACKSLASH
  | .error _ => false

/-- **A loop that counts** adds as many characters as it counts, taken from the pad string, if there
is something wherever it looks for a backslash. -/
theorem PadLoop.Counts.run_iff {loop : PadLoop} {rounds : ℕ → BitVec 32 → ℕ → Prop}
    (h : loop.Counts rounds) {pad : Pad} {str : CString} {rest : Bytes}
    (hpad : pad.chars = str.bytes ++ 0 :: rest) {c : ℕ} :
    ∀ {fuel i bound s}, rounds i bound c → c < fuel →
      (loop.run pad fuel i bound s = (some .unit, s') ↔
        ((0 < c → str.bytes ≠ []) ∧ ∀ k < c, ∃ x, loop.test (walk loop.marked i k) = .ok x) ∧
          s.Room (taken loop.marked str.bytes i c) ∧
            s' = s.put (taken loop.marked str.bytes i c)) := by
  induction c with
  | zero =>
    intro fuel i bound s hrounds hfuel
    obtain ⟨fuel, rfl⟩ := Nat.exists_eq_add_of_lt hfuel
    rw [Nat.zero_add, PadLoop.run, h.done i bound hrounds, if_neg Bool.false_ne_true]
    have hnil : taken loop.marked str.bytes i 0 = [] := rfl
    rw [hnil, put_nil]
    constructor
    · intro h
      cases h
      exact ⟨⟨nofun, nofun⟩, fun hne ↦ absurd rfl hne, rfl⟩
    · rintro ⟨-, -, rfl⟩
      rfl
  | succ c ih =>
    intro fuel i bound s hrounds hfuel
    obtain ⟨fuel, rfl⟩ : ∃ n, fuel = n + 1 := ⟨fuel - 1, by omega⟩
    rcases eq_or_ne str.bytes [] with hnil | hne
    · refine iff_of_false (fun hrun ↦ ?_) fun ⟨⟨hne, _⟩, _⟩ ↦ hne (Nat.succ_pos c) hnil
      rw [PadLoop.run, if_pos (h.more i bound c hrounds)] at hrun
      obtain ⟨c, -, hrun⟩ := there_bind_eq_some.1 hrun
      obtain ⟨x, hx, -⟩ := there_bind_eq_some.1 hrun
      rw [Pad.char, hpad, strlen_append, hnil] at hx
      exact nomatch hx
    cases htest : loop.test i with
    | error stop =>
      rw [PadLoop.run, if_pos (h.more i bound c hrounds), htest]
      refine iff_of_false (fun h ↦ nomatch congrArg Prod.fst h) fun ⟨⟨_, hok⟩, _⟩ ↦ ?_
      obtain ⟨x, hx⟩ := hok 0 (Nat.succ_pos c)
      rw [walk, htest] at hx
      exact nomatch hx
    | ok x =>
      -- where the character is, and where the next round begins
      obtain ⟨j, bound', hj, hrounds', hrun⟩ : ∃ j bound', walk loop.marked i 1 = j + 1 ∧
          rounds (j + 1) bound' c ∧ ∀ s, loop.run pad (fuel + 1) i bound s =
            (addChar (str.bytes.getD (j % str.bytes.length) 0) >>= fun _ ↦
              loop.run pad fuel (j + 1) bound') s := by
        have hmarked : loop.marked i = decide (x = BACKSLASH) := by
          rw [PadLoop.marked, htest]
        by_cases hx : x = BACKSLASH
        · refine ⟨i + 1, loop.next (loop.skip bound), ?_, h.skip i bound c hrounds, fun s ↦ ?_⟩
          · rw [walk, walk, hmarked, decide_eq_true hx]
            rfl
          · rw [PadLoop.run, if_pos (h.more i bound c hrounds), htest]
            simp only [there, pure_bind, if_pos hx, Pad.char_eq hpad hne]
        · refine ⟨i, loop.next bound, ?_, h.next i bound c hrounds, fun s ↦ ?_⟩
          · rw [walk, walk, hmarked, decide_eq_false hx]
            rfl
          · rw [PadLoop.run, if_pos (h.more i bound c hrounds), htest]
            simp only [there, pure_bind, if_neg hx, Pad.char_eq hpad hne]
      have hall : (∀ k < c + 1, ∃ x, loop.test (walk loop.marked i k) = .ok x) ↔
          ∀ k < c, ∃ x, loop.test (walk loop.marked (j + 1) k) = .ok x := by
        refine ⟨fun hok k hk ↦ ?_, fun hok k hk ↦ ?_⟩
        · rw [← hj, ← walk_succ]
          exact hok (k + 1) (Nat.succ_lt_succ hk)
        · cases k with
          | zero => exact ⟨x, htest⟩
          | succ k =>
            rw [walk_succ, hj]
            exact hok k (Nat.lt_of_succ_lt_succ hk)
      rw [hrun, bind_eq_some, hall, taken_succ, hj, Nat.add_sub_cancel]
      constructor
      · rintro ⟨⟨⟩, t, ht, hs'⟩
        obtain ⟨hroom, rfl⟩ := addChar_iff.1 ht
        obtain ⟨⟨-, hok⟩, hroom', rfl⟩ := (ih hrounds' (Nat.lt_of_succ_lt_succ hfuel)).1 hs'
        exact ⟨⟨fun _ ↦ hne, hok⟩, hroom.append hroom', put_put _ _ _⟩
      · rintro ⟨⟨-, hok⟩, hroom, rfl⟩
        have hroom' : s.Room ([str.bytes.getD (j % str.bytes.length) 0] ++
          taken loop.marked str.bytes (j + 1) c) := hroom
        refine ⟨.unit, _, addChar_iff.2 ⟨hroom'.left, rfl⟩, ?_⟩
        exact (ih hrounds' (Nat.lt_of_succ_lt_succ hfuel)).2
          ⟨⟨fun _ ↦ hne, hok⟩, hroom'.right, (put_put _ [_] _).symm⟩

/-- **A loop adds characters**, at least one when it does not stop at once. -/
theorem PadLoop.run_adds (loop : PadLoop) (pad : Pad) {fuel : ℕ} :
    ∀ {i bound s}, loop.run pad fuel i bound s = (some .unit, s') →
      ∃ cs, s' = s.put cs ∧ s.Room cs ∧ (loop.more i bound → cs ≠ []) := by
  induction fuel with
  | zero => exact fun h ↦ nomatch congrArg Prod.fst h
  | succ fuel ih =>
    intro i bound s h
    rw [PadLoop.run] at h
    split at h
    next =>
      obtain ⟨c, -, h⟩ := there_bind_eq_some.1 h
      obtain ⟨x, -, h⟩ := there_bind_eq_some.1 h
      obtain ⟨⟨⟩, t, ht, h⟩ := bind_eq_some.1 h
      obtain ⟨hroom, rfl⟩ := addChar_iff.1 ht
      obtain ⟨cs, rfl, hroom', -⟩ := ih h
      exact ⟨x :: cs, put_put s [x] cs, hroom.append hroom', fun _ ↦ cons_ne_nil x cs⟩
    next hmore =>
      cases h
      exact ⟨[], (put_nil _).symm, fun hne ↦ absurd rfl hne, fun h ↦ absurd h hmore⟩

theorem counts_leftLoop (pad : Pad) :
    (leftLoop pad).Counts fun _ fs c ↦ fs.toNat = c where
  done i fs h := by
    rw [leftLoop, decide_eq_false_iff_not, BitVec.lt_def]
    omega
  more i fs c h := by
    rw [leftLoop, decide_eq_true_iff, BitVec.lt_def, h]
    exact Nat.succ_pos c
  next i fs c h := by
    show (fs - 1).toNat = c
    bv_omega
  skip i fs c h := by
    show (fs - 1).toNat = c
    bv_omega

/-- An `int` that is the number of rounds from an index on. -/
def intRounds (i : ℕ) (j : BitVec 32) (c : ℕ) : Prop :=
  j.toInt = i + c ∧ i + 2 * c < 2 ^ 31

theorem intRounds_skip {i c : ℕ} {j : BitVec 32} (h : intRounds i j (c + 1)) :
    intRounds (i + 2) (j + 1) c := by
  obtain ⟨hj, hc⟩ := h
  have hone : (j + 1).toInt = j.toInt + 1 := by
    rw [BitVec.toInt_add]
    exact Int.bmod_eq_of_le (by change _ ≤ j.toInt + 1; omega) (by change j.toInt + 1 < _; omega)
  exact ⟨by omega, by omega⟩

theorem intRounds_next {i c : ℕ} {j : BitVec 32} (h : intRounds i j (c + 1)) :
    intRounds (i + 1) j c := by
  obtain ⟨hj, hc⟩ := h
  exact ⟨by omega, by omega⟩

theorem counts_trailLoop (pad : Pad) : (trailLoop pad).Counts intRounds where
  done i j h := by
    rw [trailLoop, decide_eq_false_iff_not, h.1]
    omega
  more i j c h := by
    rw [trailLoop, decide_eq_true_iff, h.1]
    omega
  next _ _ _ h := intRounds_next h
  skip _ _ _ h := intRounds_skip h

theorem counts_leadLoop (pad : Pad) (len : ℕ) : (leadLoop pad len).Counts intRounds where
  done i j h := by
    rw [leadLoop, decide_eq_false_iff_not, h.1]
    omega
  more i j c h := by
    rw [leadLoop, decide_eq_true_iff, h.1]
    omega
  next _ _ _ h := intRounds_next h
  skip _ _ _ h := intRounds_skip h

theorem counts_rightLoop (pad : Pad) :
    (rightLoop pad).Counts fun i fs c ↦ fs.toNat = i + c ∧ i + 2 * c < 2 ^ 32 where
  done i fs h := by
    rw [rightLoop, decide_eq_false_iff_not, h.1]
    omega
  more i fs c h := by
    rw [rightLoop, decide_eq_true_iff, h.1]
    omega
  next i fs c h := by
    obtain ⟨hfs, hc⟩ := h
    exact ⟨by rw [rightLoop, hfs]; omega, by omega⟩
  skip i fs c h := by
    obtain ⟨hfs, hc⟩ := h
    have hlt : fs.toNat + (1 : BitVec 32).toNat < 2 ^ 32 := by
      change fs.toNat + 1 < _
      omega
    refine ⟨?_, by omega⟩
    show (fs + 1).toNat = _
    rw [BitVec.toNat_add_of_lt hlt]
    change fs.toNat + 1 = _
    omega

theorem PadLoop.all_of_not_more (loop : PadLoop) (pad : Pad) {bound : BitVec 32}
    (h : loop.more 0 bound = false) : loop.all pad bound = pure .unit := by
  rw [PadLoop.all, PadLoop.run, if_neg (Bool.eq_false_iff.1 h)]

theorem PadLoop.Counts.all_iff {loop : PadLoop} {rounds : ℕ → BitVec 32 → ℕ → Prop}
    (h : loop.Counts rounds) {pad : Pad} {str : CString} {rest : Bytes} {bound : BitVec 32}
    {c : ℕ} (hpad : pad.chars = str.bytes ++ 0 :: rest) (htest : loop.test = pad.char)
    (hrounds : rounds 0 bound c) (hc : c ≤ BUFF_SIZE) :
    loop.all pad bound s = (some .unit, s') ↔
      (0 < c → str.bytes ≠ []) ∧ s.Room (padding str.bytes c) ∧
        s' = s.put (padding str.bytes c) := by
  have hfuel : c < BUFF_SIZE + 2 := by omega
  rw [PadLoop.all, h.run_iff hpad hrounds hfuel]
  rcases eq_or_ne str.bytes [] with hnil | hne
  · rcases Nat.eq_zero_or_pos c with rfl | hpos
    · simp [padding, taken]
    · exact iff_of_false (fun h ↦ h.1.1 hpos hnil) fun h ↦ h.1 hpos hnil
  · have hmarked : loop.marked = escaped str.bytes := by
      funext i
      simp only [PadLoop.marked, escaped, htest, Pad.char_eq hpad hne]
    rw [hmarked, and_assoc]
    refine and_congr_right fun _ ↦ and_iff_right fun k _ ↦ ?_
    rw [htest, Pad.char_eq hpad hne]
    exact ⟨_, rfl⟩

theorem PadLoop.adds_all (loop : PadLoop) (pad : Pad) (bound : BitVec 32) :
    Adds (loop.all pad bound) := fun _ _ h ↦
  have ⟨cs, hs', hroom, _⟩ := loop.run_adds pad h
  ⟨cs, hs', hroom⟩

theorem Adds.ite {c : Prop} [Decidable c] {m m' : Print PUnit} (hm : Adds m) (hm' : Adds m') :
    Adds (if c then m else m') := by
  split
  · exact hm
  · exact hm'

theorem adds_addJustified (str : Bytes) (pad : Pad) (fs : BitVec 32) (finfo : FormatInfo)
    (trailing : Bool) : Adds (addJustified str pad fs finfo trailing) := by
  have hstr := adds_addChars str
  have hpad (loop : PadLoop) (bound : BitVec 32) := loop.adds_all pad bound
  rw [addJustified]
  refine .ite (hstr.bind (.ite (hpad _ _) adds_pure)) (.ite ?_ ((hpad _ _).bind hstr))
  exact (hpad _ _).bind (hstr.bind (.ite (hpad _ _) adds_pure))

/-! ### When a field is filled -/

/-- Where the first loop for a string in the middle finds a backslash. -/
def leadMarked (pad : Bytes) (len i : ℕ) : Bool :=
  len ≠ 0 ∧ pad.getD (i % len) 0 = BACKSLASH

/-- **The first loop for a string in the middle is in step**: where it looks for a backslash there
is something, and it takes the characters that it would take if it looked for backslashes where it
takes them. -/
def InStep (pad : Bytes) (len k : ℕ) : Prop :=
  (∀ i < k, len = 0 ∨ walk (leadMarked pad len) 0 i % len ≤ pad.length) ∧
    taken (leadMarked pad len) pad 0 k = padding pad k

theorem walk_of_not_marked {marked : ℕ → Bool} (h : ∀ i, marked i = false) (i k : ℕ) :
    walk marked i k = i + k := by
  induction k with
  | zero => rfl
  | succ k ih =>
    rw [walk, ih, h]
    rfl

/-- **Without a backslash in the pad string** the loop is in step unless it looks behind the NUL. -/
theorem inStep_iff {pad : Bytes} {len k : ℕ} (h : BACKSLASH ∉ pad) :
    InStep pad len k ↔ min k len ≤ pad.length + 1 := by
  have hgetD (i : ℕ) : pad.getD i 0 ≠ BACKSLASH := by
    rw [List.getD_eq_getElem?_getD]
    rcases hi : pad[i]? with - | c
    · decide
    · exact fun hc ↦ h (hc ▸ mem_of_getElem? hi)
  have hlead (i : ℕ) : leadMarked pad len i = false := decide_eq_false fun h ↦ hgetD _ h.2
  have hescaped (i : ℕ) : escaped pad i = false := decide_eq_false (hgetD _)
  have htaken : taken (leadMarked pad len) pad 0 k = padding pad k :=
    congrArg (taken · pad 0 k) (funext fun i ↦ (hlead i).trans (hescaped i).symm)
  rw [InStep, and_iff_left htaken]
  simp only [walk_of_not_marked hlead, Nat.zero_add]
  constructor
  · intro hread
    by_contra hlt
    have hlt' : pad.length + 1 < len := by omega
    rcases hread (pad.length + 1) (by omega) with hzero | hle
    · omega
    · rw [Nat.mod_eq_of_lt hlt'] at hle
      omega
  · intro hmin i hi
    refine or_iff_not_imp_left.2 fun hlen ↦ ?_
    have hmod := Nat.mod_lt i (Nat.pos_of_ne_zero hlen)
    have hle := Nat.mod_le i len
    omega

/-- The padding that is missing can be taken from the pad string, and none is missing when the
string does not fit. -/
def CanPad (str pad : Bytes) (fs : ℕ) (finfo : FormatInfo) (trailing : Bool) : Prop :=
  if finfo &&& INFO_J = INFO_J_LEFT then
    trailing → str.length ≤ fs ∧ (str.length < fs → pad ≠ [])
  else if finfo &&& INFO_J = INFO_J_CENTRE then
    str.length < fs → pad ≠ [] ∧ InStep pad str.length ((fs - str.length + 1) / 2)
  else
    str.length ≤ fs ∧ (str.length < fs → pad ≠ [])

theorem length_justified {str : Bytes} {fs : ℕ} {finfo : FormatInfo} {trailing : Bool}
    (h : trailing ∨ finfo &&& INFO_J ≠ INFO_J_LEFT ∧ finfo &&& INFO_J ≠ INFO_J_CENTRE) :
    (justified str pad fs finfo trailing).length = max fs str.length := by
  rw [justified]
  split
  next hleft =>
    rw [if_pos (h.resolve_right fun h ↦ h.1 hleft), length_append, length_padding]
    omega
  next =>
    split
    next hcentre =>
      rw [if_pos (h.resolve_right fun h ↦ h.2 hcentre), length_append, length_append,
        length_padding, length_padding]
      omega
    next =>
      rw [length_append, length_padding]
      omega

section Fills

variable {str padStr : CString} {past : Stop} {fs : BitVec 32} {finfo : FormatInfo}
  {trailing : Bool}

theorem trailing_iff {m : Print PUnit} {cs : Bytes} {P : Prop}
    (h : m s = (some .unit, s') ↔ P ∧ s.Room cs ∧ s' = s.put cs) :
    (if trailing then m else pure .unit) s = (some .unit, s') ↔
      (trailing → P) ∧ s.Room (if trailing then cs else []) ∧
        s' = s.put (if trailing then cs else []) := by
  cases trailing with
  | false => simp [State.Room, eq_comm]
  | true => simpa using h

theorem length_le_of_room {cs : Bytes} (h : s.Room cs) : cs.length ≤ BUFF_SIZE := by
  rcases eq_or_ne cs [] with rfl | hne
  · exact Nat.zero_le _
  · have hlen := h hne
    omega

theorem toNat_sub_length (h : str.bytes.length ≤ fs.toNat) :
    (fs - BitVec.ofNat 32 str.bytes.length).toNat = fs.toNat - str.bytes.length := by
  have hfs := fs.isLt
  have hlen : (BitVec.ofNat 32 str.bytes.length).toNat = str.bytes.length :=
    Nat.mod_eq_of_lt (by omega)
  rw [BitVec.toNat_sub_of_le (by rw [BitVec.le_def, hlen]; exact h), hlen]

theorem fills_left (hleft : finfo &&& INFO_J = INFO_J_LEFT)
    (hroom : s.Room (justified str.bytes padStr.bytes fs.toNat finfo trailing)) :
    addJustified str.bytes (.ofString padStr past) fs finfo trailing s =
      (some .unit, s.put (justified str.bytes padStr.bytes fs.toNat finfo trailing)) ↔
      (trailing → str.bytes.length ≤ fs.toNat ∧
        (str.bytes.length < fs.toNat → padStr.bytes ≠ [])) := by
  rw [justified, if_pos hleft] at hroom ⊢
  rw [addJustified, if_pos hleft, bind_eq_some]
  have hstr := length_le_of_room hroom.left
  constructor
  · rintro ⟨⟨⟩, t, ht, hrun⟩ rfl
    obtain ⟨-, rfl⟩ := (addChars_iff _).1 ht
    rw [if_pos rfl] at hrun hroom
    rcases Nat.lt_or_ge fs.toNat str.bytes.length with hlt | hle
    · -- the difference wraps, and the loop does not stop at once
      obtain ⟨cs, hcs, -, hne⟩ := PadLoop.run_adds _ _ hrun
      rw [if_pos rfl, Nat.sub_eq_zero_of_le hlt.le, put_put] at hcs
      have hnil := append_cancel_left (put_injective s hcs)
      refine absurd hnil.symm (hne (decide_eq_true ?_))
      change _ ≤ 10000 at hstr
      bv_omega
    · refine ⟨hle, fun hlt ↦ ?_⟩
      have hrest := length_le_of_room hroom.right
      rw [length_padding] at hrest
      rw [(counts_leftLoop _).all_iff rfl rfl (toNat_sub_length hle) hrest] at hrun
      exact hrun.1 (Nat.sub_pos_of_lt hlt)
  · intro hpad
    refine ⟨.unit, _, (addChars_iff _).2 ⟨hroom.left, rfl⟩, ?_⟩
    cases trailing with
    | false => rw [if_neg Bool.false_ne_true, if_neg Bool.false_ne_true, append_nil]; rfl
    | true =>
      obtain ⟨hle, hne⟩ := hpad rfl
      rw [if_pos rfl] at hroom ⊢
      have hrest := length_le_of_room hroom.right
      rw [length_padding] at hrest
      rw [if_pos rfl, (counts_leftLoop _).all_iff rfl rfl (toNat_sub_length hle) hrest]
      exact ⟨fun hpos ↦ hne (Nat.lt_of_sub_pos hpos), hroom.right, (put_put s _ _).symm⟩

theorem fills_right (hleft : finfo &&& INFO_J ≠ INFO_J_LEFT)
    (hcentre : finfo &&& INFO_J ≠ INFO_J_CENTRE)
    (hroom : s.Room (justified str.bytes padStr.bytes fs.toNat finfo trailing)) :
    addJustified str.bytes (.ofString padStr past) fs finfo trailing s =
      (some .unit, s.put (justified str.bytes padStr.bytes fs.toNat finfo trailing)) ↔
      str.bytes.length ≤ fs.toNat ∧ (str.bytes.length < fs.toNat → padStr.bytes ≠ []) := by
  rw [justified, if_neg hleft, if_neg hcentre] at hroom ⊢
  rw [addJustified, if_neg hleft, if_neg hcentre, bind_eq_some]
  have hstr := length_le_of_room hroom
  rw [length_append, length_padding] at hstr
  have hall (hle : str.bytes.length ≤ fs.toNat) {t : State} :
      (rightLoop (.ofString padStr past)).all (.ofString padStr past)
        (fs - BitVec.ofNat 32 str.bytes.length) s = (some .unit, t) ↔ _ :=
    (counts_rightLoop _).all_iff rfl rfl
      ⟨(toNat_sub_length hle).trans (Nat.zero_add _).symm, by change _ ≤ 10000 at hstr; omega⟩
      (by omega)
  constructor
  · rintro ⟨⟨⟩, t, ht, hrun⟩
    obtain ⟨hroom', hs'⟩ := (addChars_iff _).1 hrun
    rcases Nat.lt_or_ge fs.toNat str.bytes.length with hlt | hle
    · obtain ⟨cs, rfl, -, hne⟩ := PadLoop.run_adds _ _ ht
      rw [Nat.sub_eq_zero_of_le hlt.le, put_put] at hs'
      have hnil := append_cancel_right (put_injective s hs')
      refine absurd hnil.symm (hne (decide_eq_true ?_))
      change _ ≤ 10000 at hstr
      bv_omega
    · exact ⟨hle, fun hlt ↦ ((hall hle).1 ht).1 (Nat.sub_pos_of_lt hlt)⟩
  · rintro ⟨hle, hne⟩
    refine ⟨.unit, _, (hall hle).2 ⟨fun hpos ↦ hne (Nat.lt_of_sub_pos hpos), hroom.left, rfl⟩, ?_⟩
    exact (addChars_iff _).2 ⟨hroom.right, (put_put s _ _).symm⟩

theorem getElem?_append_nul_eq {l : Bytes} {k : ℕ} :
    (l ++ [0])[k]? = some BACKSLASH ↔ l.getD k 0 = BACKSLASH := by
  rw [getD_eq_getElem?_getD]
  rcases Nat.lt_or_ge k l.length with hlt | hge
  · rw [List.getElem?_append_left hlt, List.getElem?_eq_getElem hlt, Option.some.injEq]
    rfl
  · rw [List.getElem?_eq_none hge, List.getElem?_append_right hge]
    refine iff_of_false (fun h ↦ ?_) (by decide)
    have hmem := mem_of_getElem? h
    exact absurd (mem_singleton.1 hmem) (by decide)

theorem leadLoop_all_iff {len c : ℕ} {j : BitVec 32} (hj : intRounds 0 j c) (hc : c ≤ BUFF_SIZE) :
    (leadLoop (.ofString padStr past) len).all (.ofString padStr past) j s = (some .unit, s') ↔
      ((0 < c → padStr.bytes ≠ []) ∧
        ∀ k < c, len = 0 ∨ walk (leadMarked padStr.bytes len) 0 k % len ≤ padStr.bytes.length) ∧
      s.Room (taken (leadMarked padStr.bytes len) padStr.bytes 0 c) ∧
        s' = s.put (taken (leadMarked padStr.bytes len) padStr.bytes 0 c) := by
  have hfuel : c < BUFF_SIZE + 2 := by omega
  have hmarked : (leadLoop (.ofString padStr past) len).marked = leadMarked padStr.bytes len := by
    funext i
    rw [PadLoop.marked, leadLoop, leadMarked]
    by_cases h : len = 0
    · subst h
      rfl
    · have hchar := getElem?_append_nul_eq (l := padStr.bytes) (k := i % len)
      simp only [if_neg h, Pad.get, Pad.ofString]
      cases hc : (padStr.bytes ++ [0])[i % len]? with
      | none =>
        rw [hc] at hchar
        exact (decide_eq_false fun hand ↦ nomatch hchar.2 hand.2).symm
      | some c =>
        rw [hc, Option.some.injEq] at hchar
        exact decide_eq_decide.2 (hchar.trans (and_iff_right h).symm)
  have hok (i : ℕ) : (∃ x, (leadLoop (.ofString padStr past) len).test i = .ok x) ↔
      len = 0 ∨ i % len ≤ padStr.bytes.length := by
    rw [leadLoop]
    split
    next h => exact iff_of_true ⟨0, rfl⟩ (.inl h)
    next h =>
      simp only [Pad.get_eq]
      rw [← Option.isSome_iff_exists, Option.isSome_iff_ne_none, Ne, List.getElem?_eq_none_iff,
        Nat.not_le, Pad.ofString, length_append, length_singleton, Nat.lt_succ_iff,
        or_iff_right h]
  rw [PadLoop.all, (counts_leadLoop _ len).run_iff rfl hj hfuel, hmarked]
  simp only [hok]

/-- What is missing on both sides, as a `size_t`. -/
theorem toNat_rest (fs : BitVec 32) (n : ℕ) (hn : n ≤ BUFF_SIZE) :
    (fs.setWidth 64 - BitVec.ofNat 64 n).toNat =
      if n ≤ fs.toNat then fs.toNat - n else 2 ^ 64 + fs.toNat - n := by
  have hfs := fs.isLt
  change n ≤ 10000 at hn
  split <;> bv_omega

theorem toInt_setWidth {x : BitVec 64} {n : ℕ} (h : x.toNat % 2 ^ 32 = n) :
    (x.setWidth 32).toInt = if n < 2 ^ 31 then (n : ℤ) else n - 2 ^ 32 := by
  rw [BitVec.toInt_eq_toNat_cond, BitVec.toNat_setWidth, h]
  split <;> split <;> omega

theorem fills_centre (hleft : finfo &&& INFO_J ≠ INFO_J_LEFT)
    (hcentre : finfo &&& INFO_J = INFO_J_CENTRE)
    (hroom : s.Room (justified str.bytes padStr.bytes fs.toNat finfo trailing)) :
    addJustified str.bytes (.ofString padStr past) fs finfo trailing s =
      (some .unit, s.put (justified str.bytes padStr.bytes fs.toNat finfo trailing)) ↔
      (str.bytes.length < fs.toNat → padStr.bytes ≠ [] ∧
        InStep padStr.bytes str.bytes.length ((fs.toNat - str.bytes.length + 1) / 2)) := by
  rw [justified, if_neg hleft, if_pos hcentre] at hroom ⊢
  rw [addJustified, if_neg hleft, if_pos hcentre]
  have hstr := length_le_of_room hroom.left
  rw [length_append, length_padding] at hstr
  have hrest := toNat_rest fs str.bytes.length (by omega)
  generalize fs.setWidth 64 - BitVec.ofNat 64 str.bytes.length = rest at hrest ⊢
  have hlead : (rest / 2 + rest % 2).toNat = (rest.toNat + 1) / 2 := by
    have hlt := rest.isLt
    rw [BitVec.toNat_add, BitVec.toNat_udiv, BitVec.toNat_umod]
    change (rest.toNat / 2 + rest.toNat % 2) % 2 ^ 64 = _
    omega
  have htrail : (rest / 2).toNat = rest.toNat / 2 := BitVec.toNat_udiv
  change _ ≤ 10000 at hstr
  rcases Nat.lt_or_ge fs.toNat str.bytes.length with hlt | hle
  · -- both differences are negative as `int`s
    rw [if_neg (Nat.not_le.2 hlt)] at hrest
    have hstop (x : BitVec 64) (hx : x.toNat % 2 ^ 32 = 0 ∨ 2 ^ 31 ≤ x.toNat % 2 ^ 32) :
        decide (((0 : ℕ) : ℤ) < (x.setWidth 32).toInt) = false := by
      rw [decide_eq_false_iff_not, toInt_setWidth rfl]
      have hmod := Nat.mod_lt x.toNat (Nat.two_pow_pos 32)
      split <;> omega
    rw [PadLoop.all_of_not_more _ _ (hstop _ (by omega)), pure_bind,
      PadLoop.all_of_not_more _ _ (hstop _ (by omega)), ite_self]
    rw [Nat.sub_eq_zero_of_le hlt.le] at hroom ⊢
    refine iff_of_true ?_ fun hlt' ↦ absurd hlt' hlt.not_gt
    rw [bind_eq_some]
    refine ⟨.unit, _, (addChars_iff _).2 ⟨hroom.left, rfl⟩, ?_⟩
    rw [pure_apply]
    simp [padding, taken]
  · rw [if_pos hle] at hrest
    have hsmall := length_le_of_room hroom.left.left
    rw [length_padding] at hsmall
    change _ ≤ 10000 at hsmall
    have hint (x : BitVec 64) (hx : x.toNat ≤ 10000) : intRounds 0 (x.setWidth 32) x.toNat := by
      have hmod : x.toNat % 2 ^ 32 = x.toNat := Nat.mod_eq_of_lt (by omega)
      rw [intRounds, toInt_setWidth hmod, if_pos (by omega)]
      exact ⟨by omega, by omega⟩
    have hA := hint (rest / 2 + rest % 2) (by omega)
    have hB := hint (rest / 2) (by omega)
    rw [hlead, hrest] at hA
    rw [htrail, hrest] at hB
    have hbehind {t t' : State} : (if trailing then (trailLoop (.ofString padStr past)).all
        (.ofString padStr past) ((rest / 2).setWidth 32) else pure .unit) t =
          (some .unit, t') ↔ _ :=
      trailing_iff ((counts_trailLoop _).all_iff rfl rfl hB (by change _ ≤ 10000; omega))
    rw [bind_eq_some]
    constructor
    · rintro ⟨⟨⟩, t, ht, hrun⟩ hlt
      obtain ⟨⟨hne, hreads⟩, -, rfl⟩ := (leadLoop_all_iff hA hsmall).1 ht
      obtain ⟨⟨⟩, t, ht, hrun⟩ := bind_eq_some.1 hrun
      obtain ⟨-, rfl⟩ := (addChars_iff _).1 ht
      obtain ⟨-, -, hput⟩ := hbehind.1 hrun
      rw [put_put, put_put, append_assoc] at hput
      have hlen : (padding padStr.bytes ((fs.toNat - str.bytes.length + 1) / 2)).length =
          (taken (leadMarked padStr.bytes str.bytes.length) padStr.bytes 0
            ((fs.toNat - str.bytes.length + 1) / 2)).length := by
        rw [length_padding, length_taken]
      exact ⟨hne (by omega), hreads, (append_inj_left (put_injective s hput) hlen).symm⟩
    · intro hpad
      have hstep : (0 < (fs.toNat - str.bytes.length + 1) / 2 → padStr.bytes ≠ []) ∧
          InStep padStr.bytes str.bytes.length ((fs.toNat - str.bytes.length + 1) / 2) := by
        rcases hle.eq_or_lt with heq | hlt
        · rw [heq, Nat.sub_self]
          exact ⟨nofun, nofun, rfl⟩
        · exact ⟨fun _ ↦ (hpad hlt).1, (hpad hlt).2⟩
      obtain ⟨hne, hreads, htaken⟩ := hstep
      refine ⟨.unit, _, (leadLoop_all_iff hA hsmall).2 ⟨⟨hne, hreads⟩, ?_, rfl⟩, ?_⟩
      · rw [htaken]
        exact hroom.left.left
      rw [htaken, bind_eq_some]
      refine ⟨.unit, _, (addChars_iff _).2 ⟨hroom.left.right, rfl⟩, hbehind.2 ⟨?_, ?_, ?_⟩⟩
      · exact fun _ hpos ↦ hne (by omega)
      · rw [put_put]
        exact hroom.right
      · rw [put_put, put_put, append_assoc]

/-- **A field is filled** when there is room for it, and the padding that is missing can be taken
from the pad string. -/
theorem fills_iff : addJustified str.bytes (.ofString padStr past) fs finfo trailing s =
      (some .unit, s.put (justified str.bytes padStr.bytes fs.toNat finfo trailing)) ↔
    s.Room (justified str.bytes padStr.bytes fs.toNat finfo trailing) ∧
      CanPad str.bytes padStr.bytes fs.toNat finfo trailing := by
  by_cases hroom : s.Room (justified str.bytes padStr.bytes fs.toNat finfo trailing)
  · rw [and_iff_right hroom, CanPad]
    split
    next hleft => exact fills_left hleft hroom
    next hleft =>
      split
      next hcentre => exact fills_centre hleft hcentre hroom
      next hcentre => exact fills_right hleft hcentre hroom
  · refine iff_of_false (fun hrun ↦ hroom ?_) fun h ↦ hroom h.1
    obtain ⟨cs, hcs, hroom'⟩ := adds_addJustified _ _ fs finfo trailing _ _ hrun
    rwa [put_injective s hcs]

end Fills

end Lpmud.Sprintf
