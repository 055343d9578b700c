import Mathlib.Data.List.Basic
import Mathlib.Logic.Relation
import Mathlib.Algebra.GroupWithZero.Nat

/-!
# The code that is compiled for jumps

What the grammar of `postlang.y` makes of expressions, statements and whole programs, as far as
jumps are concerned, and the pass over the jumps at the end (`optimize_jumps`).

While it compiles, the compiler does not know where a jump goes that leads forward. It keeps the
place on its stack (`push_address`) or in a list that runs through the code (`ins_label`), and fills
it in as soon as it gets there (`upd_short`, `set_label`). Here the code has marks where the labels
are, and the addresses are filled in when all of the code is there (`program`).

All other instructions are taken as they come, with any operands, and so are the tables of switches
and what stands between the functions. A prototype makes no code; what its default arguments would
leave in the table of the jumps is left out.
-/

namespace Lpmud.Compiler

/-! ### Code -/

abbrev F_EXT : UInt8 := 0
abbrev F_JUMP : UInt8 := 1
abbrev F_JUMP_WHEN_ZERO : UInt8 := 2
abbrev F_JUMP_WHEN_NON_ZERO : UInt8 := 3
abbrev F_SKIP_NZ : UInt8 := 4
abbrev F_POP_VALUE : UInt8 := 5
abbrev F_DUP : UInt8 := 6
abbrev F_CONST0 : UInt8 := 15

/-- The number in two bytes, as an `unsigned short`. -/
def shortOf (lo hi : UInt8) : ℕ :=
  lo.toNat + 256 * hi.toNat

/-- An instruction that does not jump, with its operands. Behind `F_EXT` there is a number of an
instruction in two bytes. -/
structure Instr where
  opcode : UInt8
  operands : List UInt8
  ne_jump : opcode ≠ F_JUMP
  ext : opcode = F_EXT → ∃ lo hi rest, operands = lo :: hi :: rest ∧ shortOf lo hi ≠ F_JUMP.toNat

/-- An instruction without operands, that is neither `F_EXT` nor `F_JUMP`. -/
def Instr.simple (opcode : UInt8) (h : opcode ≠ F_JUMP ∧ opcode ≠ F_EXT) : Instr where
  opcode := opcode
  operands := []
  ne_jump := h.1
  ext := fun heq ↦ absurd heq h.2

/-- The instructions that jump. -/
inductive JumpOp where
  | always
  | whenZero
  | whenNonZero
  | skipNz
  deriving DecidableEq

def JumpOp.opcode : JumpOp → UInt8
  | always => F_JUMP
  | whenZero => F_JUMP_WHEN_ZERO
  | whenNonZero => F_JUMP_WHEN_NON_ZERO
  | skipNz => F_SKIP_NZ

/-- A piece of code: an instruction, a jump to a label with the table that may stand behind it, the
place of a label, or bytes that are not looked at. -/
inductive Item where
  | instr (i : Instr)
  | jump (op : JumpOp) (lbl : ℕ) (table : List UInt8)
  | mark (lbl : ℕ)
  | raw (bytes : List UInt8)

def Item.size : Item → ℕ
  | instr i => i.operands.length + 1
  | jump _ _ table => table.length + 3
  | mark _ => 0
  | raw bytes => bytes.length

/-- The size of code. -/
def size (code : List Item) : ℕ :=
  (code.map Item.size).sum

/-- The address of a label. -/
def address : List Item → ℕ → ℕ
  | [], _ => 0
  | .mark k :: code, l => if k = l then 0 else address code l
  | item :: code, l => item.size + address code l

/-- The bytes of a piece of code, where the addresses of labels are known. -/
def Item.bytes (addr : ℕ → ℕ) : Item → List UInt8
  | instr i => i.opcode :: i.operands
  | jump op l table => op.opcode :: .ofNat (addr l) :: .ofNat (addr l / 256) :: table
  | mark _ => []
  | raw bytes => bytes

/-- The block `A_PROGRAM`. -/
def program (code : List Item) : List UInt8 :=
  code.flatMap (Item.bytes (address code))

/-- The block `A_JUMPS` (`add_jump`): the places of the operands of jumps. -/
def jumps : ℕ → List Item → List ℕ
  | _, [] => []
  | offset, item@(.jump ..) :: code => (offset + 1) :: jumps (offset + item.size) code
  | offset, item :: code => jumps (offset + item.size) code

/-! ### Expressions -/

/-- Expressions. What the operators other than `||`, `&&` and `?:` come to is the code of their
operands with an instruction behind it. -/
inductive Expr where
  | instr (i : Instr)
  | seq (e e' : Expr)
  | lor (e e' : Expr)
  | land (e e' : Expr)
  | cond (c e e' : Expr)
  /-- `c ? : e` -/
  | condMissing (c e : Expr)

def POP_VALUE : Item := .instr (.simple F_POP_VALUE (by decide))

def DUP : Item := .instr (.simple F_DUP (by decide))

def CONST0 : Item := .instr (.simple F_CONST0 (by decide))

/-- The code of an expression, and the next label that is not used. -/
def Expr.emit (n : ℕ) : Expr → List Item × ℕ
  | instr i => ([.instr i], n)
  | seq e e' =>
    let (code, n) := e.emit n
    let (code', n) := e'.emit n
    (code ++ code', n)
  | lor e e' =>
    let (code, k) := e.emit (n + 1)
    let (code', k) := e'.emit k
    (code ++ [DUP, .jump .whenNonZero n [], POP_VALUE] ++ code' ++ [.mark n], k)
  | land e e' =>
    let (code, k) := e.emit (n + 1)
    let (code', k) := e'.emit k
    (code ++ [DUP, .jump .whenZero n [], POP_VALUE] ++ code' ++ [.mark n], k)
  | cond c e e' =>
    let (test, k) := c.emit (n + 2)
    let (code, k) := e.emit k
    let (code', k) := e'.emit k
    (test ++ [.jump .whenZero n []] ++ code ++ [.jump .always (n + 1) [], .mark n] ++ code' ++
      [.mark (n + 1)], k)
  | condMissing c e =>
    let (test, k) := c.emit (n + 1)
    let (code, k) := e.emit k
    (test ++ [.jump .skipNz n []] ++ code ++ [.mark n], k)

/-! ### Statements -/

/-- Statements. -/
inductive Stmt where
  | empty
  | seq (s s' : Stmt)
  | expr (e : Expr)
  | assertion (i : Instr) (e : Expr) (fail : Instr)
  | cond (c : Expr) (s s' : Stmt)
  | while (c : Expr) (s : Stmt)
  | do (s : Stmt) (c : Expr)
  | for (init guard step : Option Expr) (s : Stmt)
  | switch (e : Expr) (i : Instr) (s : Stmt) (table : List UInt8)
  /-- `case` and `default` only make entries in the table. -/
  | case
  | break
  | continue
  | return (e : Option Expr)

/-- No `break` is outside of a loop or a switch, and no `continue` outside of a loop. -/
def Stmt.ok (inBreak inContinue : Bool) : Stmt → Bool
  | seq s s' => s.ok inBreak inContinue && s'.ok inBreak inContinue
  | cond _ s s' => s.ok inBreak inContinue && s'.ok inBreak inContinue
  | .while _ s => s.ok true true
  | .do s _ => s.ok true true
  | .for _ _ _ s => s.ok true true
  | switch _ _ s _ => s.ok true inContinue
  | .break => inBreak
  | .continue => inContinue
  | _ => true

def forExpr (n : ℕ) : Option Expr → List Item × ℕ
  | none => ([], n)
  | some e =>
    let (code, n) := e.emit n
    (code ++ [POP_VALUE], n)

/-- `for_guard`, with its jump to the label `body`. -/
def forGuard (body n : ℕ) : Option Expr → List Item × ℕ
  | none => ([.jump .always body []], n)
  | some e =>
    let (code, n) := e.emit n
    (code ++ [.jump .whenNonZero body []], n)

/-- The code of a statement in a function that returns to the label `ret`, where `break` and
`continue` go to the labels `brk` and `cont`, and the next label that is not used. -/
def Stmt.emit (ret brk cont n : ℕ) : Stmt → List Item × ℕ
  | empty => ([], n)
  | seq s s' =>
    let (code, n) := s.emit ret brk cont n
    let (code', n) := s'.emit ret brk cont n
    (code ++ code', n)
  | expr e =>
    let (code, n) := e.emit n
    (code ++ [POP_VALUE], n)
  | assertion i e fail =>
    let (code, n) := e.emit n
    (.instr i :: code ++ [.instr fail], n)
  | cond c s s' =>
    let (test, k) := c.emit (n + 2)
    let (code, k) := s.emit ret brk cont k
    let (code', k) := s'.emit ret brk cont k
    (test ++ [.jump .whenZero n []] ++ code ++ [.jump .always (n + 1) [], .mark n] ++ code' ++
      [.mark (n + 1)], k)
  | .while c s =>
    let (test, k) := c.emit (n + 2)
    let (code, k) := s.emit ret (n + 1) n k
    (.mark n :: test ++ [.jump .whenZero (n + 1) []] ++ code ++
      [.jump .always n [], .mark (n + 1)], k)
  | .do s c =>
    let (code, k) := s.emit ret (n + 1) n (n + 3)
    let (test, k) := c.emit k
    (.mark (n + 2) :: code ++ [.mark n] ++ test ++
      [.jump .whenNonZero (n + 2) [], .mark (n + 1)], k)
  | .for init guard step s =>
    let (first, k) := forExpr (n + 4) init
    let (test, k) := forGuard (n + 3) k guard
    let (next, k) := forExpr k step
    let (code, k) := s.emit ret (n + 1) n k
    (first ++ [.mark (n + 2)] ++ test ++ [.jump .always (n + 1) [], .mark n] ++ next ++
      [.jump .always (n + 2) [], .mark (n + 3)] ++ code ++ [.jump .always n [], .mark (n + 1)], k)
  | switch e i s table =>
    let (test, k) := e.emit (n + 1)
    let (code, k) := s.emit ret n cont k
    (test ++ [.instr i] ++ code ++ [.jump .always n table, .mark n], k)
  | case => ([], n)
  | .break => ([.jump .always brk []], n)
  | .continue => ([.jump .always cont []], n)
  | .return none => ([CONST0, .jump .always ret []], n)
  | .return (some e) =>
    let (code, n) := e.emit n
    (code ++ [.jump .always ret []], n)

/-! ### Programs -/

/-- The parts of a program: bytes that are not looked at, an expression with an instruction behind
it (an initializer, a default argument, a condition), or the body of a function with the
instructions that it ends with. -/
inductive Part where
  | raw (bytes : List UInt8)
  | value (e : Expr) (i : Instr)
  | function (s : Stmt) (ending : List Instr) (ret : Instr)

def Part.ok : Part → Bool
  | function s _ _ => s.ok false false
  | _ => true

/-- The code of a part of a program. -/
def Part.emit (n : ℕ) : Part → List Item × ℕ
  | raw bytes => ([.raw bytes], n)
  | value e i =>
    let (code, n) := e.emit n
    (code ++ [.instr i], n)
  | function s ending ret =>
    let (code, k) := s.emit n 0 0 (n + 1)
    (code ++ [CONST0, .mark n] ++ ending.map .instr ++ [.instr ret], k)

/-- The code of a program, from the label `n` on. -/
def emitParts (n : ℕ) : List Part → List Item
  | [] => []
  | part :: parts =>
    let (code, n) := part.emit n
    code ++ emitParts n parts

/-- The code of a program. -/
def compile (parts : List Part) : List Item :=
  emitParts 0 parts

/-! ### The pass over the jumps -/

/-- The block `A_PROGRAM`, as it is read and written. -/
abbrev Mem : Type := ℕ → UInt8

def load (bytes : List UInt8) : Mem :=
  fun offset ↦ bytes.getD offset 0

/-- `read_short`, as an `unsigned short`. -/
def readShort (m : Mem) (offset : ℕ) : ℕ :=
  shortOf (m offset) (m (offset + 1))

def updShort (m : Mem) (offset l : ℕ) : Mem :=
  Function.update (Function.update m offset (.ofNat l)) (offset + 1) (.ofNat (l / 256))

/-- The opcode at an address, and the address behind it. -/
def opcodeAt (m : Mem) (offset : ℕ) : ℕ × ℕ :=
  if m offset = F_EXT then (readShort m (offset + 1), offset + 3)
  else ((m offset).toNat, offset + 1)

/-- Where the unconditional jump at an address goes to, if there is one. -/
def nextJump (m : Mem) (offset : ℕ) : Option ℕ :=
  if (opcodeAt m offset).1 = F_JUMP.toNat then some (readShort m (opcodeAt m offset).2) else none

/-- The inner loop of `optimize_jumps`, for the entry `ip` of the table, up to a number of rounds.
-/
def shortCircuit : ℕ → Mem → ℕ → ℕ → Option Mem
  | 0, _, _, _ => none
  | fuel + 1, m, ip, offset1 =>
    match nextJump m offset1 with
    | none => some m
    | some offset2 =>
      if offset2 = offset1 then some m else shortCircuit fuel (updShort m ip offset2) ip offset2

/-- `optimize_jumps`, up to a number of rounds for each entry of the table. -/
def optimizeJumps (fuel : ℕ) : Mem → List ℕ → Option Mem
  | m, [] => some m
  | m, ip :: ips =>
    (shortCircuit fuel m ip (readShort m ip)).bind fun m' ↦ optimizeJumps fuel m' ips

end Lpmud.Compiler
