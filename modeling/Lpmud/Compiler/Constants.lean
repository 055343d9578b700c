import Lpmud.Interpret.Operators

/-!
# Constant expressions

The values of case labels are computed by the actions of `constant` and `const1` to `const9` of
`postlang.y`. The same operators are written a second time in `interpret.c`, for run time.

The two agree on every expression, except that no action looks at the divisor (`agrees_iff`). Then
it is the machine that stops the compiler: `sigfpe_handler` calls `error` in the middle of it, if
there is a handler already.
-/

namespace Lpmud.Constants

open Interpret (Failure FloatUnit INT_MIN Op Operand lsh rsh)

/-- What an expression amounts to: its value, an error that is reported, or a division that the
machine refuses (`SIGFPE`). -/
inductive Outcome where
  | value (n : BitVec 32)
  | error (e : Failure)
  | trap

/-- Two values, one after the other. -/
def Outcome.both (x y : Outcome) (f : BitVec 32 → BitVec 32 → Outcome) : Outcome :=
  match x with
  | .value m =>
    match y with
    | .value n => f m n
    | y => y
  | x => x

/-- What the machine does not divide. -/
def Traps (m n : BitVec 32) : Prop :=
  n = 0 ∨ m = INT_MIN ∧ n = -1

instance (m n : BitVec 32) : Decidable (Traps m n) :=
  inferInstanceAs (Decidable (_ ∨ _))

/-- The binary operators. -/
inductive BinOp where
  | arith (op : Op)
  | eq
  | ne
  | gt
  | ge
  | lt
  | le

/-- The unary operators. -/
inductive UnOp where
  | negate
  | not
  | compl

/-- The number `k` of the `constk` that has a rule for the operator. -/
def BinOp.level : BinOp → ℕ
  | arith .or => 0
  | arith .xor => 1
  | arith .and => 2
  | eq | ne => 3
  | gt | ge | lt | le => 4
  | arith .lsh | arith .rsh => 5
  | arith .add | arith .subtract => 6
  | arith .multiply | arith .mod | arith .divide => 7

/-- The derivations from `constk`, where `const0` is `constant`. -/
inductive Const : ℕ → Type where
  | next {k : ℕ} (c : Const (k + 1)) : Const k
  | binary (op : BinOp) (l : Const op.level) (r : Const (op.level + 1)) : Const op.level
  | paren (c : Const 0) : Const 8
  | number (n : BitVec 32) : Const 9
  | unary (op : UnOp) (n : BitVec 32) : Const 9

/-- A truth value of C. -/
def truth (b : Bool) : BitVec 32 :=
  if b then 1 else 0

/-! ### The actions of the grammar -/

/-- The actions for the binary operators. -/
def action : BinOp → BitVec 32 → BitVec 32 → Outcome
  | .arith .or, m, n => .value (m ||| n)
  | .arith .xor, m, n => .value (m ^^^ n)
  | .arith .and, m, n => .value (m &&& n)
  | .eq, m, n => .value (truth (m == n))
  | .ne, m, n => .value (truth (m != n))
  | .gt, m, n => .value (truth (n.slt m))
  | .ge, m, n => .value (truth (n.sle m))
  | .lt, m, n => .value (truth (m.slt n))
  | .le, m, n => .value (truth (m.sle n))
  | .arith .lsh, m, n => .value (lsh m n)
  | .arith .rsh, m, n => .value (rsh m n)
  | .arith .add, m, n => .value (m + n)
  | .arith .subtract, m, n => .value (m - n)
  | .arith .multiply, m, n => .value (m * n)
  | .arith .mod, m, n => if Traps m n then .trap else .value (m.srem n)
  | .arith .divide, m, n => if Traps m n then .trap else .value (m.sdiv n)

/-- The actions of `const9`. -/
def unaryAction : UnOp → BitVec 32 → BitVec 32
  | .negate, n => -n
  | .not, n => truth (n == 0)
  | .compl, n => ~~~n

/-- The value of a constant. -/
def Const.fold : {k : ℕ} → Const k → Outcome
  | _, .next c => c.fold
  | _, .binary op l r => l.fold.both r.fold (action op)
  | _, .paren c => c.fold
  | _, .number n => .value n
  | _, .unary op n => .value (unaryAction op n)

/-! ### Run time -/

/-- The instructions of `interpret.c` for two numbers on the stack. -/
def instruction : BinOp → BitVec 32 → BitVec 32 → Outcome
  | .arith .or, m, n => .value (m ||| n)
  | .arith .xor, m, n => .value (m ^^^ n)
  | .arith .and, m, n => .value (m &&& n)
  | .eq, m, n => .value (if m == n then 1 else 0)
  | .ne, m, n => .value (if m == n then 0 else 1)
  | .gt, m, n => .value (truth (n.slt m))
  | .ge, m, n => .value (truth (n.sle m))
  | .lt, m, n => .value (truth (m.slt n))
  | .le, m, n => .value (truth (m.sle n))
  | .arith .lsh, m, n => .value (lsh m n)
  | .arith .rsh, m, n => .value (rsh m n)
  | .arith .add, m, n => .value (n + m)
  | .arith .subtract, m, n => .value (m - n)
  | .arith .multiply, m, n => .value (m * n)
  | .arith .mod, m, n =>
    if n = 0 then .error (.error "Modulus by zero.\n")
    else if Traps m n then .trap else .value (m.srem n)
  | .arith .divide, m, n =>
    if n = 0 then .error (.error "Division by zero\n")
    else if Traps m n then .trap else .value (m.sdiv n)

/-- What an instruction leaves on the stack. -/
def Outcome.result : Outcome → Except Failure Operand
  | .value n => .ok (.number n)
  | .error e => .error e
  | .trap => .error .trap

theorem binary_number (fpu : FloatUnit) (w : World) (op : Op) (m n : BitVec 32) :
    Interpret.binary fpu w op (.number m) (.number n) = (instruction (.arith op) m n).result := by
  have hdivision (zero : Failure) (f : BitVec 32 → BitVec 32 → BitVec 32) :
      (Interpret.division zero f m n).map Operand.number =
        (if n = 0 then Outcome.error zero else if Traps m n then .trap
          else .value (f m n)).result := by
    rw [Interpret.division]
    by_cases hn : n = 0
    · rw [if_pos hn, if_pos hn]
      rfl
    rw [if_neg hn, if_neg hn]
    by_cases htrap : m = INT_MIN ∧ n = -1
    · rw [if_pos (show Traps m n from .inr htrap), if_pos htrap]
      rfl
    · rw [if_neg (show ¬Traps m n from not_or.2 ⟨hn, htrap⟩), if_neg htrap]
      rfl
  cases op with
  | divide => exact hdivision _ _
  | mod => exact hdivision _ _
  | _ => rfl

/-- `f_negate`, `f_not` and `f_compl` for a number on the stack. -/
def unaryInstruction : UnOp → BitVec 32 → BitVec 32
  | .negate, n => -n
  | .not, n => if n = 0 then 1 else 0
  | .compl, n => ~~~n

/-- The expression at run time: the operands are pushed, the left one first. -/
def Const.run : {k : ℕ} → Const k → Outcome
  | _, .next c => c.run
  | _, .binary op l r => l.run.both r.run (instruction op)
  | _, .paren c => c.run
  | _, .number n => .value n
  | _, .unary op n => .value (unaryInstruction op n)

/-! ### The two agree -/

/-- **Folding agrees with run time**: it gives the same value, reports an error where there is one
at run time, and is not stopped by the machine. -/
structure Agrees {k : ℕ} (c : Const k) : Prop where
  value : ∀ n, c.run = .value n → c.fold = .value n
  error : ∀ e, c.run = .error e → ∃ e', c.fold = .error e'
  trap : c.fold ≠ .trap

def BinOp.divides : BinOp → Bool
  | arith .divide | arith .mod => true
  | _ => false

/-- No division in the expression is one by zero, or one of the least number by -1. -/
def Const.Divides : {k : ℕ} → Const k → Prop
  | _, .next c => c.Divides
  | _, .binary op l r => l.Divides ∧ r.Divides ∧
    (op.divides = true → ∀ m n, l.run = .value m → r.run = .value n → ¬Traps m n)
  | _, .paren c => c.Divides
  | _, .number _ => True
  | _, .unary _ _ => True

theorem action_eq (op : BinOp) (m n : BitVec 32) :
    (op.divides = true → ¬Traps m n) ∧
        (∃ v, action op m n = .value v ∧ instruction op m n = .value v) ∨
      op.divides = true ∧ Traps m n ∧ action op m n = .trap := by
  by_cases htraps : op.divides = true ∧ Traps m n
  · refine .inr ⟨htraps.1, htraps.2, ?_⟩
    cases op with
    | arith op => cases op <;> simp_all [BinOp.divides, action]
    | _ => simp [BinOp.divides] at htraps
  · rw [not_and] at htraps
    refine .inl ⟨htraps, ?_⟩
    cases op with
    | arith op =>
      cases op
      case divide =>
        have htraps := htraps rfl
        have hn : n ≠ 0 := fun hn ↦ htraps (.inl hn)
        exact ⟨_, if_neg htraps, by rw [instruction, if_neg hn, if_neg htraps]⟩
      case mod =>
        have htraps := htraps rfl
        have hn : n ≠ 0 := fun hn ↦ htraps (.inl hn)
        exact ⟨_, if_neg htraps, by rw [instruction, if_neg hn, if_neg htraps]⟩
      case add => exact ⟨_, rfl, by rw [instruction, BitVec.add_comm]⟩
      all_goals exact ⟨_, rfl, rfl⟩
    | ne =>
      refine ⟨_, rfl, ?_⟩
      by_cases h : m = n <;> simp [instruction, truth, h]
    | _ => exact ⟨_, rfl, rfl⟩

theorem Const.fold_eq {k : ℕ} (c : Const k) :
    c.Divides ∧ (∃ n, c.fold = .value n ∧ c.run = .value n) ∨ ¬c.Divides ∧ c.fold = .trap := by
  induction c with
  | next c ih => exact ih
  | paren c ih => exact ih
  | number n => exact .inl ⟨trivial, n, rfl, rfl⟩
  | unary op n =>
    refine .inl ⟨trivial, _, rfl, ?_⟩
    cases op <;> simp [run, unaryInstruction, unaryAction, truth]
  | binary op l r ihl ihr =>
    rw [fold, run, Divides]
    obtain ⟨hl, m, hfoldl, hrunl⟩ | ⟨hl, hfoldl⟩ := ihl
    · obtain ⟨hr, n, hfoldr, hrunr⟩ | ⟨hr, hfoldr⟩ := ihr
      · rw [hfoldl, hfoldr, hrunl, hrunr]
        obtain ⟨htraps, v, haction, hinstr⟩ | ⟨hop, htraps, haction⟩ := action_eq op m n
        · refine .inl ⟨⟨hl, hr, fun hop m' n' hm hn ↦ ?_⟩, v, haction, hinstr⟩
          obtain rfl := Outcome.value.inj hm
          obtain rfl := Outcome.value.inj hn
          exact htraps hop
        · exact .inr ⟨fun h ↦ h.2.2 hop m n rfl rfl htraps, haction⟩
      · exact .inr ⟨fun h ↦ hr h.2.1, by rw [hfoldl, hfoldr]; rfl⟩
    · exact .inr ⟨fun h ↦ hl h.1, by rw [hfoldl]; rfl⟩

/-- Folding agrees with run time **exactly if** nothing in the expression is divided by zero, nor
the least number by -1. -/
theorem agrees_iff {k : ℕ} (c : Const k) : Agrees c ↔ c.Divides := by
  obtain ⟨hc, n, hfold, hrun⟩ | ⟨hc, hfold⟩ := c.fold_eq
  · refine iff_of_true ⟨fun m hm ↦ ?_, fun e he ↦ ?_, ?_⟩ hc
    · rw [hfold, ← hrun, hm]
    · rw [hrun] at he
      cases he
    · rw [hfold]
      exact nofun
  · exact iff_of_false (fun h ↦ h.trap hfold) hc

/-- `case 1 / 0:` stops the compiler. -/
theorem not_agrees : ¬∀ c : Const 0, Agrees c := by
  intro h
  let quotient : Const 7 :=
    .binary (.arith .divide) (.next (.next (.number 1))) (.next (.number 0))
  exact (h (.next (.next (.next (.next (.next (.next (.next quotient)))))))).trap rfl

end Lpmud.Constants
