import Lpmud.Compiler.Jumps
import Mathlib.Algebra.Order.Group.Nat
import Mathlib.Data.List.Infix

/-!
# Addresses that are recorded

While the compiler makes code, it records where the operands of jumps are (`add_jump`, for
`optimize_jumps`), and those of calls that are looked up at the end (`store_reloc_data`, for
`process_reloc`). Some actions of `postlang.y` cut off code that has been made: a jump at the end
that is not needed, the jump of a `c ? : e`, and all that a prototype has made. Nothing is taken
back from the records.

The jumps at the end are not recorded, and what a `c ? : e` puts in place of its jump has its
operand at the same place. So the records are right but for what the default arguments and the
conditions of a prototype leave in them (`records_valid_iff`).

The code is a list of instructions here, of which only the jumps and the calls are told apart.
Addresses are those of the bytes that the instructions take.
-/

namespace Lpmud.Compiler.Records

open List

/-! ### The blocks -/

/-- A piece of code: a jump, a call whose function is looked up at the end, or another instruction
or entry of a table, with the number of bytes behind its first one. -/
inductive Item where
  | jump (op : JumpOp)
  | call
  | other (operands : ℕ)
  deriving DecidableEq

/-- The number of bytes. In a call there are the opcode, the index of the inherited program and of
the function, and the number of arguments. -/
def Item.size : Item → ℕ
  | jump _ => 3
  | call => 5
  | other operands => operands + 1

/-- `current_size` of a block of code. -/
def size (code : List Item) : ℕ :=
  (code.map Item.size).sum

/-- The code that is left when `current_size` is set back. -/
def keep : ℕ → List Item → List Item
  | _, [] => []
  | n, item :: code => if item.size ≤ n then item :: keep (n - item.size) code else []

/-- The blocks `A_PROGRAM`, `A_JUMPS` and `A_RELOC`. -/
structure Blocks where
  code : List Item
  jumps : List ℕ
  relocs : List ℕ

namespace Blocks

def ins (b : Blocks) (operands : ℕ) : Blocks :=
  { b with code := b.code ++ [.other operands] }

/-- A jump, with `add_jump`. -/
def insJump (b : Blocks) (op : JumpOp) : Blocks :=
  { b with code := b.code ++ [.jump op], jumps := b.jumps ++ [size b.code + 1] }

/-- A call, with `store_reloc_data`. -/
def insCall (b : Blocks) : Blocks :=
  { b with code := b.code ++ [.call], relocs := b.relocs ++ [size b.code + 1] }

/-- Entries of a table. -/
def insTable (b : Blocks) (entries operands : ℕ) : Blocks :=
  { b with code := b.code ++ List.replicate entries (.other operands) }

def cutTo (b : Blocks) (n : ℕ) : Blocks :=
  { b with code := keep n b.code }

/-- The actions for `? :` without an expression in between: the jump is made as for a `?`, and then
taken back for another instruction. -/
def skipNz (b : Blocks) : Blocks :=
  let cut := (b.insJump .whenZero).cutTo (size b.code)
  { cut with code := cut.code ++ [.jump .skipNz] }

end Blocks

/-! ### Expressions and statements -/

/-- Expressions. A call that is not looked up at the end is one of the instructions. -/
inductive Expr where
  | instr (operands : ℕ)
  | call
  | seq (e e' : Expr)
  | lor (e e' : Expr)
  | land (e e' : Expr)
  | cond (c e e' : Expr)
  /-- `c ? : e` -/
  | condMissing (c e : Expr)

/-- The actions for an expression. -/
def Expr.gen (b : Blocks) : Expr → Blocks
  | instr operands => b.ins operands
  | call => b.insCall
  | seq e e' => e'.gen (e.gen b)
  | lor e e' => e'.gen ((((e.gen b).ins 0).insJump .whenNonZero).ins 0)
  | land e e' => e'.gen ((((e.gen b).ins 0).insJump .whenZero).ins 0)
  | cond c e e' => e'.gen ((e.gen ((c.gen b).insJump .whenZero)).insJump .always)
  | condMissing c e => e.gen (c.gen b).skipNz

/-- Statements. -/
inductive Stmt where
  | empty
  | seq (s s' : Stmt)
  | expr (e : Expr)
  /-- The initializer of a local variable. -/
  | local (e : Expr)
  | assertion (e : Expr)
  | cond (c : Expr) (s s' : Stmt)
  | while (c : Expr) (s : Stmt)
  | do (s : Stmt) (c : Expr)
  | for (init guard step : Option Expr) (s : Stmt)
  /-- A switch, with the number of entries in its table. -/
  | switch (e : Expr) (s : Stmt) (entries : ℕ)
  | case
  | break
  | continue
  | return (e : Option Expr)

def forExpr (b : Blocks) : Option Expr → Blocks
  | none => b
  | some e => (e.gen b).ins 0

/-- `for_guard`, with the address behind it. -/
def forGuard (b : Blocks) : Option Expr → Blocks
  | none => b.insJump .always
  | some e => (e.gen b).insJump .whenNonZero

/-- The actions for a statement. -/
def Stmt.gen (b : Blocks) : Stmt → Blocks
  | empty => b
  | seq s s' => s'.gen (s.gen b)
  | expr e => (e.gen b).ins 0
  | .local e => ((e.gen (b.ins 1)).ins 0).ins 0
  | assertion e => (e.gen (b.ins 4)).ins 0
  | cond c s s' => s'.gen ((s.gen ((c.gen b).insJump .whenZero)).insJump .always)
  | .while c s => (s.gen ((c.gen b).insJump .whenZero)).insJump .always
  | .do s c => (c.gen (s.gen b)).insJump .whenNonZero
  | .for init guard step s =>
    let guarded := (forGuard (forExpr b init) guard).insJump .always
    (s.gen ((forExpr guarded step).insJump .always)).insJump .always
  | switch e s entries =>
    ((s.gen ((e.gen b).ins 7)).insJump .always).insTable entries 5
  | case => b
  | .break => b.insJump .always
  | .continue => b.insJump .always
  | .return none => (b.ins 0).insJump .always
  | .return (some e) => (e.gen b).insJump .always

/-! ### Programs -/

/-- An argument of a function. -/
inductive Arg where
  | plain
  | default (e : Expr)
  /-- `...` -/
  | rest

def Arg.gen (b : Blocks) : Arg → Blocks
  | plain => b
  | default e => ((e.gen (b.ins 1)).ins 0).ins 0
  | rest => (((b.ins 1).ins 2).ins 0).ins 0

/-- The action before an invariant, a precondition or a postcondition: a jump that the last one of
its kind has left at the end is cut off. -/
def dropLast (b : Blocks) (last : ℕ) : Blocks :=
  if last ≠ 0 ∧ last + 2 = size b.code then b.cutTo (size b.code - 3) else b

/-- An invariant, a precondition or a postcondition, and the address of the operand of the jump
behind it. -/
def condition (b : Blocks) (last : ℕ) (e : Expr) : Blocks × ℕ :=
  let b := (e.gen (dropLast b last)).ins 0
  (b.ins 2, size b.code + 1)

/-- A precondition or a postcondition. -/
inductive Contract where
  | pre (e : Expr)
  | post (e : Expr)

/-- `pre_post_cond`, with `pre_cond_last_address` and `post_cond_last_address`. -/
def conditions : Blocks × ℕ × ℕ → List Contract → Blocks × ℕ × ℕ
  | st, [] => st
  | (b, pre, post), .pre e :: cs =>
    let (b, pre) := condition b pre e
    conditions (b, pre, post) cs
  | (b, pre, post), .post e :: cs =>
    let (b, post) := condition b post e
    conditions (b, pre, post) cs

/-- What is behind the head of a function. A destructor does not call the invariants. -/
inductive Body where
  | prototype
  | block (s : Stmt) (isDtor : Bool)
  | interface (isDtor : Bool)

/-- The parts of a program that make code. -/
inductive Part where
  /-- A variable with an initializer (`new_name`). -/
  | newName (e : Expr)
  | invariant (e : Expr)
  | function (args : List Arg) (cs : List Contract) (body : Body)

/-- The state of the compiler. -/
structure State extends Blocks where
  lastInitializerEnd : ℕ
  invariantLast : ℕ

/-- `prolog`, with the first `add_new_init_jump`. -/
def prolog : State where
  code := [.other 2]
  jumps := []
  relocs := []
  lastInitializerEnd := 1
  invariantLast := 0

/-- The head of a function: its arguments, and its conditions between a jump and the table of the
arguments. -/
def head (b : Blocks) (args : List Arg) (cs : List Contract) : Blocks × ℕ :=
  let (b, pre, post) := conditions ((args.foldl Arg.gen b).ins 2, 0, 0) cs
  let b := b.insTable args.length 1
  (if pre ≠ 0 then b.ins 2 else b, post)

def Body.gen (start : ℕ) (post : ℕ) (b : Blocks) : Body → Blocks
  | prototype => b.cutTo start
  | block s isDtor =>
    let b := (s.gen b).ins 0
    let b := if post ≠ 0 then b.ins 2 else b
    (if isDtor then b else b.ins 0).ins 0
  | interface isDtor =>
    let b := b.ins 4
    (if isDtor then b else b.ins 0).ins 0

/-- The actions for a part of a program. -/
def Part.gen (st : State) : Part → State
  | newName e =>
    let b := ((e.gen ((dropLast st.toBlocks st.lastInitializerEnd).ins 2)).ins 0).ins 0
    { st with toBlocks := b.ins 2, lastInitializerEnd := size b.code + 1 }
  | invariant e =>
    let (b, last) := condition st.toBlocks st.invariantLast e
    { st with toBlocks := b, invariantLast := last }
  | function args cs body =>
    let (b, post) := head st.toBlocks args cs
    { st with toBlocks := body.gen (size st.code) post b }

/-- The state when `epilog` runs. -/
def compile (parts : List Part) : State :=
  parts.foldl Part.gen prolog

/-! ### Operands -/

/-- An address is that of the operand of some instruction. -/
def OperandOf (P : Item → Prop) (code : List Item) (o : ℕ) : Prop :=
  ∃ before item after, code = before ++ item :: after ∧ P item ∧ o = size before + 1

def Item.IsJump (item : Item) : Prop :=
  ∃ op, item = .jump op

/-- **All records are right.** -/
structure Valid (b : Blocks) : Prop where
  jumps : ∀ o ∈ b.jumps, OperandOf Item.IsJump b.code o
  relocs : ∀ o ∈ b.relocs, OperandOf (· = .call) b.code o

section Code

variable {P : Item → Prop} {code code' rest : List Item} {item : Item} {o : ℕ}

theorem Item.size_pos (item : Item) : 0 < item.size := by
  cases item <;> exact Nat.succ_pos _

@[simp] theorem size_cons (item : Item) (code : List Item) :
    size (item :: code) = item.size + size code := by
  rw [size, map_cons, sum_cons, size]

@[simp] theorem size_append (code code' : List Item) :
    size (code ++ code') = size code + size code' := by
  rw [size, map_append, sum_append, size, size]

theorem eq_nil_of_size (h : size code = 0) : code = [] := by
  cases code with
  | nil => rfl
  | cons item code =>
    have := item.size_pos
    rw [size_cons] at h
    omega

theorem keep_append (code rest : List Item) : keep (size code) (code ++ rest) = code := by
  induction code with
  | nil =>
    cases rest with
    | nil => rfl
    | cons item rest => exact if_neg (Nat.not_le.2 item.size_pos)
  | cons item code ih =>
    rw [cons_append, keep, size_cons, if_pos (Nat.le_add_right _ _), Nat.add_sub_cancel_left,
      ih]

theorem OperandOf.append (h : OperandOf P code o) (rest : List Item) :
    OperandOf P (code ++ rest) o := by
  obtain ⟨before, item, after, rfl, hP, ho⟩ := h
  exact ⟨before, item, after ++ rest, by rw [append_assoc, cons_append], hP, ho⟩

theorem operandOf_concat (h : P item) : OperandOf P (code ++ [item]) (size code + 1) :=
  ⟨code, item, [], rfl, h, rfl⟩

theorem OperandOf.le (h : OperandOf P code o) : o ≤ size code := by
  obtain ⟨before, item, after, rfl, -, rfl⟩ := h
  have := item.size_pos
  rw [size_append, size_cons]
  omega

theorem OperandOf.of_concat (h : OperandOf P (code ++ [item]) o)
    (hne : ¬P item ∨ o ≠ size code + 1) : OperandOf P code o := by
  obtain ⟨before, item', after, heq, hP, ho⟩ := h
  rcases eq_nil_or_concat' after with rfl | ⟨after, last, rfl⟩
  · obtain ⟨rfl, rfl⟩ := concat_inj.1 (by simpa using heq)
    rcases hne with hne | hne
    · exact absurd hP hne
    · exact absurd ho hne
  · rw [← cons_append, ← append_assoc] at heq
    obtain ⟨rfl, -⟩ := append_inj' heq rfl
    exact ⟨before, item', after, rfl, hP, ho⟩

theorem OperandOf.last (h : OperandOf (· = .other 2) code o) (ho : o + 2 = size code) :
    ∃ before, code = before ++ [.other 2] ∧ o = size before + 1 := by
  obtain ⟨before, item, after, rfl, rfl, rfl⟩ := h
  rw [size_append, size_cons] at ho
  have hafter : after = [] := eq_nil_of_size (by simp only [Item.size] at ho; omega)
  exact ⟨before, by rw [hafter], rfl⟩

end Code

/-! ### Adding code -/

/-- **Code has been added**, and with it records of what is in it. -/
structure Appends (b b' : Blocks) : Prop where
  code : b.code <+: b'.code
  jumps : ∃ js, b'.jumps = b.jumps ++ js ∧
    ∀ o ∈ js, size b.code < o ∧ OperandOf Item.IsJump b'.code o
  relocs : ∃ rs, b'.relocs = b.relocs ++ rs ∧
    ∀ o ∈ rs, size b.code < o ∧ OperandOf (· = .call) b'.code o

/-- Nothing has been recorded. -/
def Unrecorded (b b' : Blocks) : Prop :=
  b'.jumps = b.jumps ∧ b'.relocs = b.relocs

namespace Appends

variable {b b' b'' : Blocks}

theorem refl (b : Blocks) : Appends b b :=
  ⟨prefix_rfl, ⟨[], (append_nil _).symm, nofun⟩, ⟨[], (append_nil _).symm, nofun⟩⟩

theorem trans (h : Appends b b') (h' : Appends b' b'') : Appends b b'' := by
  obtain ⟨code, hcode⟩ := h.code
  obtain ⟨code', hcode'⟩ := h'.code
  have hle : size b.code ≤ size b'.code := by
    rw [← hcode, size_append]
    exact Nat.le_add_right _ _
  obtain ⟨js, hjs, hjump⟩ := h.jumps
  obtain ⟨js', hjs', hjump'⟩ := h'.jumps
  obtain ⟨rs, hrs, hreloc⟩ := h.relocs
  obtain ⟨rs', hrs', hreloc'⟩ := h'.relocs
  refine ⟨h.code.trans h'.code, ⟨js ++ js', ?_, fun o ho ↦ ?_⟩, ⟨rs ++ rs', ?_, fun o ho ↦ ?_⟩⟩
  · rw [hjs', hjs, append_assoc]
  · rcases mem_append.1 ho with ho | ho
    · exact ⟨(hjump o ho).1, hcode' ▸ (hjump o ho).2.append code'⟩
    · exact ⟨hle.trans_lt (hjump' o ho).1, (hjump' o ho).2⟩
  · rw [hrs', hrs, append_assoc]
  · rcases mem_append.1 ho with ho | ho
    · exact ⟨(hreloc o ho).1, hcode' ▸ (hreloc o ho).2.append code'⟩
    · exact ⟨hle.trans_lt (hreloc' o ho).1, (hreloc' o ho).2⟩

theorem unrecorded_trans (h : Appends b b') (h' : Appends b' b'') :
    Unrecorded b b'' ↔ Unrecorded b b' ∧ Unrecorded b' b'' := by
  obtain ⟨js, hjs, -⟩ := h.jumps
  obtain ⟨js', hjs', -⟩ := h'.jumps
  obtain ⟨rs, hrs, -⟩ := h.relocs
  obtain ⟨rs', hrs', -⟩ := h'.relocs
  rw [Unrecorded, Unrecorded, Unrecorded, hjs', hrs', append_right_eq_self,
    append_right_eq_self, hjs, hrs, append_right_eq_self, append_right_eq_self,
    append_assoc, append_assoc, append_right_eq_self, append_right_eq_self,
    append_eq_nil_iff, append_eq_nil_iff]
  tauto

theorem valid (h : Appends b b') (hb : Valid b) : Valid b' := by
  obtain ⟨code, hcode⟩ := h.code
  obtain ⟨js, hjs, hjump⟩ := h.jumps
  obtain ⟨rs, hrs, hreloc⟩ := h.relocs
  constructor
  · intro o ho
    rcases mem_append.1 (hjs ▸ ho) with ho | ho
    · exact hcode ▸ (hb.jumps o ho).append code
    · exact (hjump o ho).2
  · intro o ho
    rcases mem_append.1 (hrs ▸ ho) with ho | ho
    · exact hcode ▸ (hb.relocs o ho).append code
    · exact (hreloc o ho).2

/-- **Cutting off what has been added** leaves records that are right just when nothing has been
recorded. -/
theorem valid_cutTo_iff (h : Appends b b') (hb : Valid b) :
    Valid (b'.cutTo (size b.code)) ↔ Unrecorded b b' := by
  obtain ⟨code, hcode⟩ := h.code
  obtain ⟨js, hjs, hjump⟩ := h.jumps
  obtain ⟨rs, hrs, hreloc⟩ := h.relocs
  have hkeep : keep (size b.code) b'.code = b.code := by rw [← hcode, keep_append]
  rw [Unrecorded, hjs, hrs, append_right_eq_self, append_right_eq_self]
  constructor
  · intro hvalid
    constructor
    · refine eq_nil_iff_forall_not_mem.2 fun o ho ↦ ?_
      have hop := hvalid.jumps o (hjs.symm ▸ mem_append_right _ ho)
      rw [Blocks.cutTo, hkeep] at hop
      exact absurd hop.le (Nat.not_le.2 (hjump o ho).1)
    · refine eq_nil_iff_forall_not_mem.2 fun o ho ↦ ?_
      have hop := hvalid.relocs o (hrs.symm ▸ mem_append_right _ ho)
      rw [Blocks.cutTo, hkeep] at hop
      exact absurd hop.le (Nat.not_le.2 (hreloc o ho).1)
  · rintro ⟨rfl, rfl⟩
    rw [Blocks.cutTo, hkeep, hjs, hrs, append_nil, append_nil]
    exact hb

theorem code_only {b : Blocks} (code : List Item) :
    Appends b { b with code := b.code ++ code } :=
  ⟨prefix_append _ _, ⟨[], (append_nil _).symm, nofun⟩,
    ⟨[], (append_nil _).symm, nofun⟩⟩

theorem ins (b : Blocks) (operands : ℕ) : Appends b (b.ins operands) :=
  code_only _

theorem insTable (b : Blocks) (entries operands : ℕ) :
    Appends b (b.insTable entries operands) :=
  code_only _

theorem insJump (b : Blocks) (op : JumpOp) : Appends b (b.insJump op) := by
  refine ⟨prefix_append _ _, ⟨[size b.code + 1], rfl, fun o ho ↦ ?_⟩,
    ⟨[], (append_nil _).symm, nofun⟩⟩
  obtain rfl := mem_singleton.1 ho
  exact ⟨Nat.lt_succ_self _, operandOf_concat ⟨op, rfl⟩⟩

theorem insCall (b : Blocks) : Appends b b.insCall := by
  refine ⟨prefix_append _ _, ⟨[], (append_nil _).symm, nofun⟩,
    ⟨[size b.code + 1], rfl, fun o ho ↦ ?_⟩⟩
  obtain rfl := mem_singleton.1 ho
  exact ⟨Nat.lt_succ_self _, operandOf_concat rfl⟩

end Appends

theorem unrecorded_refl (b : Blocks) : Unrecorded b b :=
  ⟨rfl, rfl⟩

theorem unrecorded_ins (b : Blocks) (operands : ℕ) : Unrecorded b (b.ins operands) :=
  ⟨rfl, rfl⟩

theorem not_unrecorded_insJump (b : Blocks) (op : JumpOp) : ¬Unrecorded b (b.insJump op) :=
  fun h ↦ cons_ne_nil _ _ (append_right_eq_self.1 h.1)

theorem not_unrecorded_insCall (b : Blocks) : ¬Unrecorded b b.insCall :=
  fun h ↦ cons_ne_nil _ _ (append_right_eq_self.1 h.2)

/-- **The record of a jump that is replaced** is that of the jump in its place. -/
theorem skipNz_eq (b : Blocks) : b.skipNz = b.insJump .skipNz := by
  rw [Blocks.skipNz, Blocks.insJump, Blocks.cutTo]
  dsimp only
  rw [keep_append]
  rfl

/-- An expression in which nothing is recorded. -/
def Expr.plain : Expr → Bool
  | instr _ => true
  | seq e e' => e.plain && e'.plain
  | _ => false

theorem Appends.insJump_trans {b b₁ b₂ : Blocks} (op : JumpOp) (h : Appends b b₁)
    (h' : Appends (b₁.insJump op) b₂) : Appends b b₂ ∧ ¬Unrecorded b b₂ := by
  have hto := h.trans (.insJump b₁ op)
  refine ⟨hto.trans h', fun hnone ↦ not_unrecorded_insJump b₁ op ?_⟩
  exact ((h.unrecorded_trans (.insJump b₁ op)).1 ((hto.unrecorded_trans h').1 hnone).1).2

/-- **Expressions** add code and right records, and none just if they are plain. -/
theorem Expr.gen_spec (e : Expr) (b : Blocks) :
    Appends b (e.gen b) ∧ (Unrecorded b (e.gen b) ↔ e.plain = true) := by
  induction e generalizing b with
  | instr operands => exact ⟨.ins b operands, iff_of_true (unrecorded_ins b operands) rfl⟩
  | call => exact ⟨.insCall b, iff_of_false (not_unrecorded_insCall b) Bool.false_ne_true⟩
  | seq e e' ih ih' =>
    obtain ⟨h, hplain⟩ := ih b
    obtain ⟨h', hplain'⟩ := ih' (e.gen b)
    refine ⟨h.trans h', (h.unrecorded_trans h').trans ?_⟩
    rw [hplain, hplain', plain, Bool.and_eq_true]
  | lor e e' ih ih' =>
    obtain ⟨h, hrec⟩ := Appends.insJump_trans .whenNonZero ((ih b).1.trans (.ins _ 0))
      ((Appends.ins _ 0).trans (ih' _).1)
    exact ⟨h, iff_of_false hrec Bool.false_ne_true⟩
  | land e e' ih ih' =>
    obtain ⟨h, hrec⟩ := Appends.insJump_trans .whenZero ((ih b).1.trans (.ins _ 0))
      ((Appends.ins _ 0).trans (ih' _).1)
    exact ⟨h, iff_of_false hrec Bool.false_ne_true⟩
  | cond c e e' ihc ih ih' =>
    obtain ⟨h, hrec⟩ := Appends.insJump_trans .whenZero (ihc b).1
      (((ih _).1.trans (.insJump _ .always)).trans (ih' _).1)
    exact ⟨h, iff_of_false hrec Bool.false_ne_true⟩
  | condMissing c e ihc ih =>
    obtain ⟨h, hrec⟩ := Appends.insJump_trans .skipNz (ihc b).1 (ih _).1
    rw [gen, skipNz_eq]
    exact ⟨h, iff_of_false hrec Bool.false_ne_true⟩

theorem Expr.appends (e : Expr) (b : Blocks) : Appends b (e.gen b) :=
  (e.gen_spec b).1

theorem forExpr_appends (b : Blocks) (e : Option Expr) : Appends b (forExpr b e) := by
  cases e with
  | none => exact .refl b
  | some e => exact (e.appends b).trans (.ins _ 0)

theorem forGuard_appends (b : Blocks) (e : Option Expr) : Appends b (forGuard b e) := by
  cases e with
  | none => exact .insJump b .always
  | some e => exact (e.appends b).trans (.insJump _ .whenNonZero)

/-- **Statements** add code and right records. -/
theorem Stmt.appends (s : Stmt) (b : Blocks) : Appends b (s.gen b) := by
  induction s generalizing b with
  | empty => exact .refl b
  | seq s s' ih ih' => exact (ih b).trans (ih' _)
  | expr e => exact (e.appends b).trans (.ins _ 0)
  | «local» e =>
    exact (((Appends.ins b 1).trans (e.appends _)).trans (.ins _ 0)).trans (.ins _ 0)
  | assertion e => exact ((Appends.ins b 4).trans (e.appends _)).trans (.ins _ 0)
  | cond c s s' ih ih' =>
    have hthen := ((c.appends b).trans (.insJump _ .whenZero)).trans (ih _)
    exact (hthen.trans (.insJump _ .always)).trans (ih' _)
  | «while» c s ih =>
    exact (((c.appends b).trans (.insJump _ .whenZero)).trans (ih _)).trans (.insJump _ .always)
  | «do» s c ih => exact ((ih b).trans (c.appends _)).trans (.insJump _ .whenNonZero)
  | «for» init guard step s ih =>
    have hguard := ((forExpr_appends b init).trans (forGuard_appends _ guard)).trans
      (.insJump _ .always)
    have hstep := (hguard.trans (forExpr_appends _ step)).trans (.insJump _ .always)
    exact (hstep.trans (ih _)).trans (.insJump _ .always)
  | switch e s entries ih =>
    have hbody := ((e.appends b).trans (.ins _ 7)).trans (ih _)
    exact (hbody.trans (.insJump _ .always)).trans (.insTable _ entries 5)
  | case => exact .refl b
  | «break» => exact .insJump b .always
  | «continue» => exact .insJump b .always
  | «return» e =>
    cases e with
    | none => exact (Appends.ins b 0).trans (.insJump _ .always)
    | some e => exact (e.appends b).trans (.insJump _ .always)

/-! ### Arguments and conditions -/

def Arg.isPlain : Arg → Bool
  | default e => e.plain
  | _ => true

theorem Arg.gen_spec (a : Arg) (b : Blocks) :
    Appends b (a.gen b) ∧ (Unrecorded b (a.gen b) ↔ a.isPlain = true) := by
  cases a with
  | plain => exact ⟨.refl b, iff_of_true (unrecorded_refl b) rfl⟩
  | default e =>
    obtain ⟨h, hplain⟩ := e.gen_spec (b.ins 1)
    exact ⟨(((Appends.ins b 1).trans h).trans (.ins _ 0)).trans (.ins _ 0), hplain⟩
  | rest =>
    exact ⟨(((Appends.ins b 1).trans (.ins _ 2)).trans (.ins _ 0)).trans (.ins _ 0),
      iff_of_true (unrecorded_refl b) rfl⟩

theorem args_spec (args : List Arg) (b : Blocks) :
    Appends b (args.foldl Arg.gen b) ∧
      (Unrecorded b (args.foldl Arg.gen b) ↔ args.all Arg.isPlain = true) := by
  induction args generalizing b with
  | nil => exact ⟨.refl b, iff_of_true (unrecorded_refl b) rfl⟩
  | cons a args ih =>
    obtain ⟨h, hplain⟩ := a.gen_spec b
    obtain ⟨h', hplain'⟩ := ih (a.gen b)
    refine ⟨h.trans h', (h.unrecorded_trans h').trans ?_⟩
    rw [hplain, hplain', all_cons, Bool.and_eq_true]

/-! ### Jumps at the end -/

/-- A jump that is not recorded, by the address of its operand: if there is one, it is behind the
address `base`. -/
def Mark (base : ℕ) (code : List Item) (last : ℕ) : Prop :=
  last = 0 ∨ base < last ∧ OperandOf (· = .other 2) code last

variable {b₀ b : Blocks} {base last m : ℕ}

theorem Mark.append {code : List Item} (h : Mark base code last) (rest : List Item) :
    Mark base (code ++ rest) last :=
  h.imp_right fun h ↦ ⟨h.1, h.2.append rest⟩

theorem Mark.of_appends (h : Mark base b₀.code last) (hb : Appends b₀ b) :
    Mark base b.code last := by
  obtain ⟨code, hcode⟩ := hb.code
  exact hcode ▸ h.append code

theorem Mark.le {code : List Item} (h : Mark base code last) : last ≤ size code := by
  rcases h with rfl | ⟨-, h⟩
  · exact Nat.zero_le _
  · exact h.le

theorem dropLast_cases (h : Mark base b.code last) :
    dropLast b last = b ∨ ∃ before, b.code = before ++ [.other 2] ∧ last = size before + 1 ∧
      base < last ∧ dropLast b last = { b with code := before } := by
  rw [dropLast]
  split
  case isFalse => exact .inl rfl
  case isTrue hcut =>
    obtain ⟨hbase, hop⟩ := h.resolve_left hcut.1
    obtain ⟨before, hcode, hlast⟩ := hop.last hcut.2
    refine .inr ⟨before, hcode, hlast, hbase, ?_⟩
    have hsize : size b.code - 3 = size before := by
      rw [hcode, size_append]
      exact Nat.add_sub_cancel _ 3
    rw [Blocks.cutTo, hsize, hcode, keep_append]

theorem dropLast_unrecorded (b : Blocks) (last : ℕ) : Unrecorded b (dropLast b last) := by
  rw [dropLast]
  split <;> exact ⟨rfl, rfl⟩

/-- **Cutting off a jump** leaves records that are right. -/
theorem dropLast_appends (hb : Appends b₀ b) (h : Mark (size b₀.code) b.code last) :
    Appends b₀ (dropLast b last) := by
  rcases dropLast_cases h with heq | ⟨before, hcode, hlast, hbase, heq⟩
  · rwa [heq]
  obtain ⟨js, hjs, hjump⟩ := hb.jumps
  obtain ⟨rs, hrs, hreloc⟩ := hb.relocs
  have hbegins : b₀.code <+: before := by
    rcases prefix_concat_iff.1 (hcode ▸ hb.code) with hall | hle
    · have hsize : size b₀.code = size before + 3 := by
        rw [hall, size_append]
        rfl
      omega
    · exact hle
  rw [heq]
  refine ⟨hbegins, ⟨js, hjs, fun o ho ↦ ⟨(hjump o ho).1, ?_⟩⟩,
    ⟨rs, hrs, fun o ho ↦ ⟨(hreloc o ho).1, ?_⟩⟩⟩
  · exact (hcode ▸ (hjump o ho).2).of_concat (.inl fun ⟨_, hop⟩ ↦ Item.noConfusion hop)
  · exact (hcode ▸ (hreloc o ho).2).of_concat (.inl Item.noConfusion)

theorem Mark.dropLast (h : Mark base b.code last) (hm : Mark base b.code m)
    (hne : m = last → m = 0) : Mark base (dropLast b last).code m := by
  rcases dropLast_cases h with heq | ⟨before, hcode, hlast, -, heq⟩
  · rwa [heq]
  refine hm.imp_right fun hop ↦ ⟨hop.1, ?_⟩
  rw [heq]
  refine (hcode ▸ hop.2).of_concat (.inr fun hm ↦ ?_)
  have := hne (hm.trans hlast.symm)
  omega

/-- **A condition** adds code and right records, and none just if it is plain. The jump behind it is
not one of those before. -/
theorem condition_spec (hb : Appends b₀ b) (h : Mark (size b₀.code) b.code last) (e : Expr) :
    let r := condition b last e
    Appends b₀ r.1 ∧ (Unrecorded b₀ r.1 ↔ Unrecorded b₀ b ∧ e.plain = true) ∧
      Mark (size b₀.code) r.1.code r.2 ∧
      ∀ m, (m = last → m = 0) → Mark (size b₀.code) b.code m →
        Mark (size b₀.code) r.1.code m ∧ m ≠ r.2 := by
  have hdrop := dropLast_appends hb h
  obtain ⟨he, hplain⟩ := e.gen_spec (dropLast b last)
  have hgen := he.trans (.ins _ 0)
  have hall := hdrop.trans hgen
  obtain ⟨code, hcode⟩ := hall.code
  refine ⟨hall.trans (.ins _ 2), ?_, .inr ⟨?_, operandOf_concat rfl⟩, fun m hne hm ↦ ?_⟩
  · have hsame : Unrecorded b₀ (dropLast b last) ↔ Unrecorded b₀ b := by
      rw [Unrecorded, (dropLast_unrecorded b last).1, (dropLast_unrecorded b last).2]
      rfl
    have hrec := hdrop.unrecorded_trans he
    rw [← hsame, ← hplain]
    exact hrec
  · change size b₀.code < size (((e.gen (dropLast b last)).ins 0).code) + 1
    rw [← hcode, size_append]
    omega
  · have hm' := (h.dropLast hm hne).of_appends hgen
    exact ⟨hm'.of_appends (.ins _ 2), (Nat.lt_succ_of_le hm'.le).ne⟩

def Contract.isPlain : Contract → Bool
  | pre e => e.plain
  | post e => e.plain

theorem conditions_spec {pre post : ℕ} (cs : List Contract) (hb : Appends b₀ b)
    (hpre : Mark (size b₀.code) b.code pre) (hpost : Mark (size b₀.code) b.code post)
    (hne : pre = post → pre = 0) :
    Appends b₀ (conditions (b, pre, post) cs).1 ∧
      (Unrecorded b₀ (conditions (b, pre, post) cs).1 ↔
        Unrecorded b₀ b ∧ cs.all Contract.isPlain = true) := by
  induction cs generalizing b pre post with
  | nil => exact ⟨hb, (and_iff_left rfl).symm⟩
  | cons c cs ih =>
    cases c with
    | pre e =>
      obtain ⟨happ, hrec, hmark, hother⟩ := condition_spec hb hpre e
      obtain ⟨hpost', hne'⟩ := hother post (fun h ↦ by rw [h, hne h.symm]) hpost
      obtain ⟨happ', hrec'⟩ := ih happ hmark hpost' fun h ↦ absurd h.symm hne'
      refine ⟨happ', hrec'.trans ?_⟩
      rw [hrec, all_cons, Bool.and_eq_true, and_assoc]
      rfl
    | post e =>
      obtain ⟨happ, hrec, hmark, hother⟩ := condition_spec hb hpost e
      obtain ⟨hpre', hne'⟩ := hother pre hne hpre
      obtain ⟨happ', hrec'⟩ := ih happ hpre' hmark fun h ↦ absurd h hne'
      refine ⟨happ', hrec'.trans ?_⟩
      rw [hrec, all_cons, Bool.and_eq_true, and_assoc]
      rfl

/-- **The head of a function** adds code and right records, and none just if its arguments and its
conditions are plain. -/
theorem head_spec (b : Blocks) (args : List Arg) (cs : List Contract) :
    Appends b (head b args cs).1 ∧
      (Unrecorded b (head b args cs).1 ↔
        args.all Arg.isPlain = true ∧ cs.all Contract.isPlain = true) := by
  obtain ⟨hargs, hplain⟩ := args_spec args b
  have hjump := hargs.trans (.ins _ 2)
  obtain ⟨hcs, hrec⟩ := conditions_spec cs hjump (.inl rfl) (.inl rfl) fun _ ↦ rfl
  have htable := hcs.trans (.insTable _ args.length 1)
  rw [head]
  rw [← hplain]
  refine ⟨?_, ?_⟩
  · dsimp only
    split
    · exact htable.trans (.ins _ 2)
    · exact htable
  · dsimp only
    split <;> exact hrec

/-! ### Programs -/

/-- Blocks without anything in them. -/
def Blocks.empty : Blocks :=
  ⟨[], [], []⟩

theorem appends_empty_iff : Appends .empty b ↔ Valid b := by
  refine ⟨fun h ↦ h.valid ⟨nofun, nofun⟩, fun h ↦ ⟨ nil_prefix, ⟨b.jumps, rfl, fun o ho ↦ ?_⟩,
    ⟨b.relocs, rfl, fun o ho ↦ ?_⟩⟩⟩
  · refine ⟨?_, h.jumps o ho⟩
    obtain ⟨before, item, after, -, -, rfl⟩ := h.jumps o ho
    exact Nat.succ_pos _
  · refine ⟨?_, h.relocs o ho⟩
    obtain ⟨before, item, after, -, -, rfl⟩ := h.relocs o ho
    exact Nat.succ_pos _

/-- **What holds between the parts of a program**: the records are right, and the jumps behind the
last initializer and the last invariant are two that are there. -/
structure Inv (st : State) : Prop where
  valid : Valid st.toBlocks
  initializer : Mark 0 st.code st.lastInitializerEnd
  invariant : Mark 0 st.code st.invariantLast
  ne : st.invariantLast ≠ st.lastInitializerEnd

theorem prolog_inv : Inv prolog where
  valid := ⟨nofun, nofun⟩
  initializer := .inr ⟨Nat.one_pos, [], _, [], rfl, rfl, rfl⟩
  invariant := .inl rfl
  ne := Nat.zero_ne_one

/-- A part of a program that takes no record away: it is no prototype, or nothing in its default
arguments and in its conditions is recorded. -/
def Part.kept : Part → Bool
  | function args cs .prototype => args.all Arg.isPlain && cs.all Contract.isPlain
  | _ => true

theorem Body.appends (start post : ℕ) (b : Blocks) {body : Body} (h : body ≠ .prototype) :
    Appends b (body.gen start post b) := by
  -- the instructions at the end
  have hend (b : Blocks) (isDtor : Bool) : Appends b ((if isDtor then b else b.ins 0).ins 0) := by
    split
    · exact .ins b 0
    · exact (Appends.ins b 0).trans (.ins _ 0)
  cases body with
  | prototype => exact absurd rfl h
  | block s isDtor =>
    have hbody := (s.appends b).trans (.ins _ 0)
    refine (hbody.trans ?_).trans (hend _ isDtor)
    split
    · exact .ins _ 2
    · exact .refl _
  | interface isDtor => exact (Appends.ins b 4).trans (hend _ isDtor)

/-- **One part of a program**: the records stay right just if the part takes none away. -/
theorem Part.gen_spec {st : State} (h : Inv st) (p : Part) :
    (Valid (p.gen st).toBlocks ↔ p.kept = true) ∧ (Valid (p.gen st).toBlocks → Inv (p.gen st)) := by
  have hempty := appends_empty_iff.2 h.valid
  cases p with
  | newName e =>
    have hdrop := dropLast_appends hempty h.initializer
    have hgen (b : Blocks) : Appends b (((e.gen (b.ins 2)).ins 0).ins 0) :=
      (((Appends.ins b 2).trans (e.appends _)).trans (.ins _ 0)).trans (.ins _ 0)
    have hinv := (h.initializer.dropLast h.invariant fun heq ↦ absurd heq h.ne).of_appends (hgen _)
    have hvalid := appends_empty_iff.1 ((hdrop.trans (hgen _)).trans (.ins _ 2))
    refine ⟨iff_of_true hvalid rfl, fun _ ↦ ⟨hvalid, .inr ⟨Nat.succ_pos _, operandOf_concat rfl⟩,
      hinv.of_appends (.ins _ 2), (Nat.lt_succ_of_le hinv.le).ne⟩⟩
  | invariant e =>
    obtain ⟨happ, -, hmark, hother⟩ := condition_spec hempty h.invariant e
    obtain ⟨hinit, hne⟩ := hother st.lastInitializerEnd (fun heq ↦ absurd heq.symm h.ne)
      h.initializer
    have hvalid := appends_empty_iff.1 happ
    exact ⟨iff_of_true hvalid rfl, fun _ ↦ ⟨hvalid, hinit, hmark, hne.symm⟩⟩
  | function args cs body =>
    obtain ⟨happ, hrec⟩ := head_spec st.toBlocks args cs
    by_cases hbody : body = .prototype
    · subst hbody
      obtain ⟨code, hcode⟩ := happ.code
      have hcut : (head st.toBlocks args cs).1.cutTo (size st.code) =
          { (head st.toBlocks args cs).1 with code := st.code } := by
        rw [Blocks.cutTo, ← hcode, keep_append]
      refine ⟨?_, fun hvalid ↦ ⟨hvalid, ?_, ?_, h.ne⟩⟩
      · rw [kept, Bool.and_eq_true, ← hrec]
        exact happ.valid_cutTo_iff h.valid
      · change Mark 0 ((head st.toBlocks args cs).1.cutTo (size st.code)).code _
        rw [hcut]
        exact h.initializer
      · change Mark 0 ((head st.toBlocks args cs).1.cutTo (size st.code)).code _
        rw [hcut]
        exact h.invariant
    · have hall := happ.trans (Body.appends (size st.code) (head st.toBlocks args cs).2 _ hbody)
      have hvalid := hall.valid h.valid
      refine ⟨iff_of_true hvalid ?_, fun _ ↦ ⟨hvalid, h.initializer.of_appends hall,
        h.invariant.of_appends hall, h.ne⟩⟩
      cases body with
      | prototype => exact absurd rfl hbody
      | _ => rfl

theorem compile_concat (parts : List Part) (p : Part) :
    compile (parts ++ [p]) = p.gen (compile parts) :=
  foldl_concat _ _ _ _

theorem compile_inv {parts : List Part} (h : ∀ p ∈ parts, p.kept = true) : Inv (compile parts) := by
  induction parts using List.reverseRecOn with
  | nil => exact prolog_inv
  | append_singleton parts p ih =>
    obtain ⟨hparts, hp⟩ := forall_mem_append.1 h
    have hspec := p.gen_spec (ih hparts)
    rw [compile_concat]
    exact hspec.2 (hspec.1.2 (hp p (mem_singleton_self p)))

/-- **The records of a program** and of every program that it begins with are right just if no part
takes a record away. -/
theorem records_valid_iff (parts : List Part) :
    (∀ parts', parts' <+: parts → Valid (compile parts').toBlocks) ↔
      ∀ p ∈ parts, p.kept = true := by
  induction parts using List.reverseRecOn with
  | nil =>
    refine iff_of_true (fun parts' h ↦ ?_) nofun
    rw [prefix_nil.1 h]
    exact prolog_inv.valid
  | append_singleton parts p ih =>
    rw [forall_mem_append, ← ih]
    constructor
    · intro hall
      have hparts (parts') (h : parts' <+: parts) : Valid (compile parts').toBlocks :=
        hall parts' (h.trans (prefix_append _ _))
      refine ⟨hparts, fun p' hp' ↦ ?_⟩
      have hspec := p.gen_spec (compile_inv (ih.1 hparts))
      rw [mem_singleton.1 hp', ← hspec.1, ← compile_concat]
      exact hall _ prefix_rfl
    · rintro ⟨hparts, hp⟩ parts' h
      rcases prefix_concat_iff.1 h with rfl | h
      · have hspec := p.gen_spec (compile_inv (ih.1 hparts))
        rw [compile_concat]
        exact hspec.1.2 (hp p (mem_singleton_self p))
      · exact hparts parts' h

/-- **What goes wrong.** `int f(int x = a || b);` leaves the record of a jump that is not there. -/
theorem not_records_valid :
    ¬Valid (compile
      [.function [.default (.lor (.instr 1) (.instr 1))] [] .prototype]).toBlocks := by
  intro h
  have hspec :=
    Part.gen_spec prolog_inv (.function [.default (.lor (.instr 1) (.instr 1))] [] .prototype)
  exact absurd (hspec.1.1 h) (by decide)

end Lpmud.Compiler.Records
