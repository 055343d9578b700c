import Lpmud.Lex.Condition

/-!
# Expressions in C

The expressions of integer literals with C's operators, how they are written, and their values on
machine integers. A text writes an expression at a level: 1 for conditionals, 2 to 11 for the binary
operators, and 13 for what a unary operator may stand in front of.

Where C leaves the value to the machine it is that of the machine: sums and products wrap, shifts
look at five bits of the count, and `>>` shifts zeros in. A division by zero has no value, if it is
one that C evaluates.
-/

namespace Lpmud.Lex.Condition

open Option

inductive UnOp where
  | bnot
  | lnot
  | uminus
  | uplus

inductive BinOp where
  | mult
  | div
  | mod
  | bplus
  | bminus
  | lshift
  | rshift
  | less
  | leq
  | great
  | geq
  | eq
  | neq
  | band
  | xor
  | bor
  | land
  | lor
  deriving DecidableEq

inductive Expr where
  | num (value : Int32)
  | un (op : UnOp) (e : Expr)
  | bin (op : BinOp) (e e' : Expr)
  | cond (e e₁ e₂ : Expr)

/-! ### How they are written -/

/-- `~`, `!`, `-` and `+`. -/
def UnOp.char : UnOp → UInt8
  | .bnot => 126
  | .lnot => 33
  | .uminus => 45
  | .uplus => 43

/-- `*`, `/`, `%`, `+`, `-`, `<<`, `>>`, `<`, `<=`, `>`, `>=`, `==`, `!=`, `&`, `^`, `|`, `&&` and
`||`. -/
def BinOp.text : BinOp → Bytes
  | mult => [42]
  | div => [47]
  | mod => [37]
  | bplus => [43]
  | bminus => [45]
  | lshift => [60, 60]
  | rshift => [62, 62]
  | less => [60]
  | leq => [60, 61]
  | great => [62]
  | geq => [62, 61]
  | eq => [61, 61]
  | neq => [33, 61]
  | band => [38]
  | xor => [94]
  | bor => [124]
  | land => [38, 38]
  | lor => [124, 124]

/-- Which operators bind stronger. -/
def BinOp.level : BinOp → ℕ
  | mult | div | mod => 11
  | bplus | bminus => 10
  | lshift | rshift => 9
  | less | leq | great | geq => 8
  | eq | neq => 7
  | band => 6
  | xor => 5
  | bor => 4
  | land => 3
  | lor => 2

/-- The value of digits that follow `value`. -/
def digitsValue (base : ℕ) (value : Int32) (ds : Bytes) : Int32 :=
  ds.foldl (fun v d ↦ v * Int32.ofNat base + Int32.ofNat ((digitValue d).getD 0)) value

/-- Digits of a base. -/
def AreDigits (base : ℕ) (ds : Bytes) : Prop :=
  ∀ d ∈ ds, ∃ x < base, digitValue d = some x

/-- The literals: decimal, octal and hexadecimal numbers. -/
inductive Literal : Bytes → Int32 → Prop
  | decimal {d : UInt8} {ds : Bytes} :
      d ≠ ZERO → AreDigits 10 (d :: ds) → Literal (d :: ds) (digitsValue 10 0 (d :: ds))
  | octal {ds : Bytes} : AreDigits 8 ds → Literal (ZERO :: ds) (digitsValue 8 0 ds)
  | hexadecimal {x : UInt8} {ds : Bytes} :
      x = 120 ∨ x = 88 → ds ≠ [] → AreDigits 16 ds →
        Literal (ZERO :: x :: ds) (digitsValue 16 0 ds)

/-- What writes an expression at a level. -/
inductive Writes : ℕ → Bytes → Expr → Prop
  | num {t : Bytes} {value : Int32} : Literal t value → Writes 13 t (.num value)
  | paren {t : Bytes} {e : Expr} : Writes 1 t e → Writes 13 (LPAREN :: t ++ [RPAREN]) e
  | un {op : UnOp} {t : Bytes} {e : Expr} : Writes 13 t e → Writes 13 (op.char :: t) (.un op e)
  | bin {op : BinOp} {t t' : Bytes} {e e' : Expr} :
      Writes op.level t e → Writes (op.level + 1) t' e' →
        Writes op.level (t ++ op.text ++ t') (.bin op e e')
  | cond {t t₁ t₂ : Bytes} {e e₁ e₂ : Expr} :
      Writes 2 t e → Writes 1 t₁ e₁ → Writes 1 t₂ e₂ →
        Writes 1 (t ++ QUESTION :: t₁ ++ COLON :: t₂) (.cond e e₁ e₂)
  | up {m : ℕ} {t : Bytes} {e : Expr} : Writes (m + 1) t e → Writes m t e
  | before {m : ℕ} {w t : Bytes} {e : Expr} : Blank w → Writes m t e → Writes m (w ++ t) e
  | behind {m : ℕ} {w t : Bytes} {e : Expr} : Writes m t e → Blank w → Writes m (t ++ w) e

/-! ### Their values -/

def UnOp.value : UnOp → Int32 → Int32
  | .bnot, v => ~~~v
  | .lnot, v => truth (v = 0)
  | .uminus, v => -v
  | .uplus, v => v

def BinOp.value : BinOp → Int32 → Int32 → Int32
  | mult, v, v' => v * v'
  | div, v, v' => v / v'
  | mod, v, v' => v % v'
  | bplus, v, v' => v + v'
  | bminus, v, v' => v - v'
  | lshift, v, v' => v <<< v'
  | rshift, v, v' => (v.toUInt32 >>> v'.toUInt32).toInt32
  | less, v, v' => truth (v < v')
  | leq, v, v' => truth (v ≤ v')
  | great, v, v' => truth (v > v')
  | geq, v, v' => truth (v ≥ v')
  | eq, v, v' => truth (v = v')
  | neq, v, v' => truth (v ≠ v')
  | band, v, v' => v &&& v'
  | xor, v, v' => v ^^^ v'
  | bor, v, v' => v ||| v'
  | land, v, v' => truth (v ≠ 0 ∧ v' ≠ 0)
  | lor, v, v' => truth (v ≠ 0 ∨ v' ≠ 0)

/-- The value in C, which `&&`, `||` and a conditional need not ask all their operands for. There is
none if there is a division by zero. -/
def Expr.value : Expr → Option Int32
  | num v => some v
  | un op e => e.value.map op.value
  | bin op e e' =>
    e.value.bind fun v ↦
      if op = .land ∧ v = 0 then some 0
      else if op = .lor ∧ v ≠ 0 then some 1
      else
        e'.value.bind fun v' ↦
          if (op = .div ∨ op = .mod) ∧ v' = 0 then none else some (op.value v v')
  | cond e e₁ e₂ => e.value.bind fun v ↦ if v ≠ 0 then e₁.value else e₂.value

/-! ### Each operand is evaluated -/

/-- The code of an operator. -/
def BinOp.code : BinOp → ℕ
  | mult => MULT
  | div => DIV
  | mod => MOD
  | bplus => BPLUS
  | bminus => BMINUS
  | lshift => LSHIFT
  | rshift => RSHIFT
  | less => LESS
  | leq => LEQ
  | great => GREAT
  | geq => GEQ
  | eq => EQ
  | neq => NEQ
  | band => BAND
  | xor => XOR
  | bor => BOR
  | land => LAND
  | lor => LOR

/-- The value where all operands are evaluated, and no division traps. -/
def Expr.all : Expr → Option Int32
  | num v => some v
  | un op e => e.all.map op.value
  | bin op e e' => e.all.bind fun v ↦ e'.all.bind fun v' ↦ (binary op.code v v').toOption
  | cond e e₁ e₂ =>
    e.all.bind fun v ↦ e₁.all.bind fun v₁ ↦ e₂.all.map fun v₂ ↦ if v ≠ 0 then v₁ else v₂

theorem binary_code {op : BinOp} {v v' x : Int32} (h : binary op.code v v' = .ok x) :
    x = op.value v v' ∧ ((op = .div ∨ op = .mod) → v' ≠ 0) := by
  cases op with
  | div | mod =>
    simp only [BinOp.code, binary] at h
    split at h
    next => cases h
    next htraps =>
      cases h
      exact ⟨rfl, fun _ hzero ↦ htraps (.inl hzero)⟩
  | _ =>
    cases h
    exact ⟨rfl, fun hop ↦ by simp at hop⟩

theorem Expr.value_of_all {e : Expr} : ∀ {x : Int32}, e.all = some x → e.value = some x := by
  induction e with
  | num v => exact fun h ↦ h
  | un op e ih =>
    intro x h
    obtain ⟨v, hv, rfl⟩ := map_eq_some_iff.1 h
    rw [Expr.value, ih hv]
    rfl
  | bin op e e' ih ih' =>
    intro x h
    obtain ⟨v, hv, h⟩ := bind_eq_some_iff.1 h
    obtain ⟨v', hv', h⟩ := bind_eq_some_iff.1 h
    have hbinary : binary op.code v v' = .ok x := by
      cases hb : binary op.code v v' with
      | error e =>
        rw [hb] at h
        cases h
      | ok y =>
        rw [hb] at h
        exact congrArg Except.ok (some.inj h)
    obtain ⟨rfl, hdiv⟩ := binary_code hbinary
    rw [Expr.value, ih hv, ih' hv', bind_some, bind_some]
    split
    next hland =>
      obtain ⟨rfl, rfl⟩ := hland
      rfl
    split
    next hlor =>
      obtain ⟨rfl, hne⟩ := hlor
      exact congrArg some (if_pos (.inl hne)).symm
    exact if_neg fun h ↦ hdiv h.1 h.2
  | cond e e₁ e₂ ih ih₁ ih₂ =>
    intro x h
    obtain ⟨v, hv, h⟩ := bind_eq_some_iff.1 h
    obtain ⟨v₁, hv₁, h⟩ := bind_eq_some_iff.1 h
    obtain ⟨v₂, hv₂, rfl⟩ := map_eq_some_iff.1 h
    rw [Expr.value, ih hv, ih₁ hv₁, ih₂ hv₂, bind_some]
    split <;> rfl

end Lpmud.Lex.Condition
