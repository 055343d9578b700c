import Lpmud.Mapping.Sound
import Lpmud.Object.Save

/-!
# The binary operators

The operators of `interpret.c`, which are written twice: `x OP y` takes both values from the stack,
and `x OP= y` gets at the value of the variable through a pointer. Reading a variable that has a
destructed object or a function that cannot be called gives 0 (`fetch`), a pointer to it does not.

The double precision arithmetic behind floats is a parameter. The number of places of a shift is
taken modulo 32, as the machine does. A quotient that is too large stops the machine (`SIGFPE`).
-/

namespace Lpmud

open Object (MAX_ARRAY_SIZE printInt)

abbrev MAX_STRING_LENGTH : ℕ := 60000

/-- The string `s` with `t` behind it. -/
def CString.append (s t : CString) : CString where
  bytes := s.bytes ++ t.bytes
  noNul h := (List.mem_append.1 h).elim s.noNul t.noNul

theorem zero_notMem_printInt (n : ℤ) : 0 ∉ printInt n := by
  have hdigits (m : ℕ) : 0 ∉ Decimal.numeral m := fun h ↦
    absurd (Decimal.isDigit_of_mem_numeral h) (by decide)
  rw [printInt]
  split
  · exact fun h ↦ (List.mem_cons.1 h).elim (absurd · (by decide)) (hdigits _)
  · exact hdigits _

/-- A number as `%d`. -/
def CString.ofNumber (n : BitVec 32) : CString where
  bytes := printInt n.toInt
  noNul := zero_notMem_printInt n.toInt

namespace Interpret

/-- A value on the stack or in a variable, with the elements of an array, and with the table of a
mapping. -/
inductive Operand where
  | number (n : BitVec 32)
  | float (x : CFloat)
  | string (s : CString)
  | object (ob : Obj)
  | pointer (item : List Svalue)
  | mapping (map : Mapping)
  | function (func : Addr)

/-- The operators. -/
inductive Op where
  | add
  | subtract
  | multiply
  | divide
  | mod
  | and
  | or
  | xor
  | lsh
  | rsh

/-- What an error says: its text, or which argument of an instruction is bad (`bad_arg`); or the
machine refuses a division. -/
inductive Failure where
  | error (text : String)
  | badArg (arg : ℕ) (op : Op) (compound : Bool) (sv : Operand)
  | trap

/-- Arithmetic in double precision. -/
structure FloatUnit where
  Double : Type
  add : CFloat → CFloat → Double
  sub : CFloat → CFloat → Double
  mul : CFloat → CFloat → Double
  div : CFloat → CFloat → Double
  /-- The absolute value is more than `FLT_MAX`. -/
  overflow : Double → Bool
  /-- The absolute value is less than `FLT_MIN`. -/
  underflow : Double → Bool
  toFloat : Double → CFloat

def FloatUnit.floatAsgOp (fpu : FloatUnit) (y : fpu.Double) : Except Failure Operand :=
  if fpu.overflow y then .error (.error "Floating point overflow")
  else .ok (.float (if fpu.underflow y then 0 else fpu.toFloat y))

def FloatUnit.pushFloat (fpu : FloatUnit) (f : fpu.Double) : Except Failure Operand :=
  if fpu.overflow f then .error (.error "Floating pointer overflow.")
  else .ok (.float (if fpu.underflow f then 0 else fpu.toFloat f))

/-! ### Arrays -/

/-- `allocate_array`, of which only the error matters. -/
def allocateArray (n : ℕ) : Except Failure Unit :=
  if n > MAX_ARRAY_SIZE then .error (.error "Illegal array size.\n") else .ok ()

/-- `check_for_destr` for an array. Functions that cannot be called stay. -/
def checkForDestr (w : World) (item : List Svalue) : List Svalue :=
  item.map fun
    | .object ob => if w.destructed ob then const0 else .object ob
    | v => v

def addArray (p r : List Svalue) : Except Failure (List Svalue) :=
  (allocateArray (p.length + r.length)).map fun _ ↦ p ++ r

/-- What an error that a mapping raises says. -/
def tooLarge : Failure :=
  .error "Warning, too large mapping.\n"

/-- `SETARR_SUBTRACT` and `SETARR_INTERSECT`. -/
inductive SetArr where
  | subtract
  | intersect

/-- `set_manipulate_array`: the elements of the second array are made the keys of a mapping, and
those of the first one are looked up there. -/
def setManipulateArray (w : World) (arr1 arr2 : List Svalue) (op : SetArr) :
    Except Failure (List Svalue) :=
  if arr1.length < 1 ∨ arr2.length < 1 then
    match op with
    | .subtract => .ok arr1
    | .intersect => (allocateArray 0).map fun _ ↦ []
  else
    match (Mapping.makeMapping w (some arr2) none).bind fun m ↦
      m.assign w (arr2.headD const0) (.number 1) with
    | .error _ => .error tooLarge
    | .ok m =>
      let r := arr1.filter fun v ↦
        match op with
        | .subtract => !m.found w v
        | .intersect => m.found w v
      (allocateArray r.length).map fun _ ↦ r

def intersectArray (w : World) (arr1 arr2 : List Svalue) : Except Failure (List Svalue) :=
  setManipulateArray w arr1 arr2 .intersect

def subtractArray (w : World) (arr1 arr2 : List Svalue) : Except Failure (List Svalue) :=
  setManipulateArray w arr1 arr2 .subtract

def unionArray (w : World) (arr1 arr2 : List Svalue) : Except Failure (List Svalue) :=
  if arr1.length = 0 then .ok arr2
  else if arr2.length = 0 then .ok arr1
  else
    match Mapping.assignAll w (Mapping.allocateMap arr1.length)
      (arr1.map fun v ↦ (v, .number 1)) with
    | .error _ => .error tooLarge
    | .ok mp =>
      let set := arr2.filter fun v ↦ !mp.found w v
      (allocateArray (arr1.length + set.length)).map fun _ ↦ arr1 ++ set

/-- The result of an operation on mappings. -/
def ofMapping (r : Except Mapping Mapping) : Except Failure Operand :=
  match r with
  | .error _ => .error tooLarge
  | .ok m => .ok (.mapping m)

/-! ### The operators on the stack -/

/-- The operators that only take numbers. -/
def numberOp (op : Op) (f : BitVec 32 → BitVec 32 → Except Failure (BitVec 32)) :
    Operand → Operand → Except Failure Operand
  | .number m, .number n => (f m n).map .number
  | .number _, sv => .error (.badArg 2 op false sv)
  | sv, _ => .error (.badArg 1 op false sv)

def lsh (m n : BitVec 32) : BitVec 32 := m <<< (n &&& 31)

def rsh (m n : BitVec 32) : BitVec 32 := m >>> (n &&& 31)

def fAdd (fpu : FloatUnit) (w : World) : Operand → Operand → Except Failure Operand
  | .string s, .string t =>
    if s.bytes.length + t.bytes.length > MAX_STRING_LENGTH then .error (.error "Too long string.\n")
    else .ok (.string (s.append t))
  | .number m, .string t => .ok (.string ((CString.ofNumber m).append t))
  | .string s, .number n => .ok (.string (s.append (.ofNumber n)))
  | .number m, .number n => .ok (.number (n + m))
  | .float x, .float y => fpu.floatAsgOp (fpu.add x y)
  | .pointer p, .pointer r => (addArray (checkForDestr w p) (checkForDestr w r)).map .pointer
  | .mapping m1, .mapping m2 => ofMapping ((m1.checkForDestr w).addMapping w (m2.checkForDestr w))
  | _, _ => .error (.error "Bad type of arg to '+'\n")

def fSubtract (fpu : FloatUnit) (w : World) : Operand → Operand → Except Failure Operand
  | .pointer p, .pointer r =>
    (subtractArray w (checkForDestr w p) (checkForDestr w r)).map .pointer
  | .float x, .float y => fpu.floatAsgOp (fpu.sub x y)
  | x, y => numberOp .subtract (fun m n ↦ .ok (m - n)) x y

def fAnd (w : World) : Operand → Operand → Except Failure Operand
  | .pointer p, .pointer r => (intersectArray w r p).map .pointer
  | x, y => numberOp .and (fun m n ↦ .ok (m &&& n)) x y

def fOr (w : World) : Operand → Operand → Except Failure Operand
  | .pointer p, .pointer r => (unionArray w p r).map .pointer
  | x, y => numberOp .or (fun m n ↦ .ok (m ||| n)) x y

def fXor : Operand → Operand → Except Failure Operand :=
  numberOp .xor fun m n ↦ .ok (m ^^^ n)

def fLsh : Operand → Operand → Except Failure Operand :=
  numberOp .lsh fun m n ↦ .ok (lsh m n)

def fRsh : Operand → Operand → Except Failure Operand :=
  numberOp .rsh fun m n ↦ .ok (rsh m n)

def fMultiply (fpu : FloatUnit) : Operand → Operand → Except Failure Operand
  | .float x, .float y => fpu.floatAsgOp (fpu.mul x y)
  | x, y => numberOp .multiply (fun m n ↦ .ok (m * n)) x y

abbrev INT_MIN : BitVec 32 := 0x80000000

/-- A division of numbers, or what is left of one. -/
def division (zero : Failure) (f : BitVec 32 → BitVec 32 → BitVec 32) (m n : BitVec 32) :
    Except Failure (BitVec 32) :=
  if n = 0 then .error zero
  else if m = INT_MIN ∧ n = -1 then .error .trap
  else .ok (f m n)

def fDivide (fpu : FloatUnit) : Operand → Operand → Except Failure Operand
  | .float x, .float y =>
    if y.isZero then .error (.error "Division by zero\n") else fpu.floatAsgOp (fpu.div x y)
  | x, y => numberOp .divide (division (.error "Division by zero\n") BitVec.sdiv) x y

def fMod : Operand → Operand → Except Failure Operand :=
  numberOp .mod (division (.error "Modulus by zero.\n") BitVec.srem)

/-! ### The operators on a variable -/

/-- The compound operators that only take numbers. -/
def numberOpEq (sym : String) (f : BitVec 32 → BitVec 32 → Except Failure (BitVec 32)) :
    Operand → Operand → Except Failure Operand
  | .number m, .number n => (f m n).map .number
  | .number _, _ => .error (.error ("Bad right type to " ++ sym ++ "=\n"))
  | _, _ => .error (.error ("Bad left type to " ++ sym ++ "=.\n"))

/-- `f_add_eq`. Both operands may be the same mapping (`itself`); then the second `check_for_destr`
finds nothing to do. -/
def fAddEq (fpu : FloatUnit) (w : World) (itself : Bool) :
    Operand → Operand → Except Failure Operand
  | .string s, .string t =>
    if s.bytes.length + t.bytes.length > MAX_STRING_LENGTH then .error (.error "Too long string.\n")
    else .ok (.string (s.append t))
  | .string s, .number n => .ok (.string (s.append (.ofNumber n)))
  | .string _, sv => .error (.badArg 2 .add true sv)
  | .number m, .number n => .ok (.number (m + n))
  | .number _, _ => .error (.error "Bad type number to rhs +=.\n")
  | .float x, .float y => fpu.pushFloat (fpu.add x y)
  | .float _, _ => .error (.error "Bad type number to rhs +=.\n")
  | .mapping m1, .mapping m2 =>
    if itself then ofMapping ((m1.checkForDestr w).addtoItself w)
    else ofMapping ((m1.checkForDestr w).addtoMapping w (m2.checkForDestr w))
  | .mapping _, _ => .error (.error "Bad type to rhs +=.\n")
  | .pointer p, .pointer r => (addArray (checkForDestr w p) (checkForDestr w r)).map .pointer
  | .pointer _, _ => .error (.error "Bad type to rhs +=.\n")
  | _, _ => .error (.error "Bad type to lhs += \n")

def fSubEq (fpu : FloatUnit) (w : World) : Operand → Operand → Except Failure Operand
  | .float x, .float y => fpu.floatAsgOp (fpu.sub x y)
  | .float _, _ => .error (.error "Bad right type to -=\n")
  | .pointer p, .pointer r =>
    (subtractArray w (checkForDestr w p) (checkForDestr w r)).map .pointer
  | .pointer _, _ => .error (.error "Bad right type to -=\n")
  | x, y => numberOpEq "-" (fun m n ↦ .ok (m - n)) x y

def fMultEq (fpu : FloatUnit) : Operand → Operand → Except Failure Operand
  | .float x, .float y => fpu.pushFloat (fpu.mul x y)
  | x, y => numberOpEq "*" (fun m n ↦ .ok (m * n)) x y

/-- `f_and_eq`. The arrays are the other way round than in `f_and`. -/
def fAndEq (w : World) : Operand → Operand → Except Failure Operand
  | .pointer p, .pointer r => (intersectArray w p r).map .pointer
  | .pointer _, _ => .error (.error "Bad right type to &=\n")
  | x, y => numberOpEq "&" (fun m n ↦ .ok (m &&& n)) x y

def fOrEq (w : World) : Operand → Operand → Except Failure Operand
  | .pointer p, .pointer r => (unionArray w p r).map .pointer
  | x, y => numberOpEq "|" (fun m n ↦ .ok (m ||| n)) x y

def fXorEq : Operand → Operand → Except Failure Operand :=
  numberOpEq "^" fun m n ↦ .ok (m ^^^ n)

def fLshEq : Operand → Operand → Except Failure Operand :=
  numberOpEq "<<" fun m n ↦ .ok (lsh m n)

def fRshEq : Operand → Operand → Except Failure Operand :=
  numberOpEq ">>" fun m n ↦ .ok (rsh m n)

def fDivEq (fpu : FloatUnit) : Operand → Operand → Except Failure Operand
  | .float x, .float y =>
    if y.isZero then .error (.error "Division by 0\n") else fpu.pushFloat (fpu.div x y)
  | x, y => numberOpEq "/" (division (.error "Division by 0\n") BitVec.sdiv) x y

def fModEq : Operand → Operand → Except Failure Operand :=
  numberOpEq "%" (division (.error "Division by 0\n") BitVec.srem)

/-! ### Expressions -/

/-- A value that stands for 0. -/
def Operand.dead (w : World) : Operand → Bool
  | .object ob => w.destructed ob
  | .function f => !w.legalClosure f
  | _ => false

/-- The value that reading a variable gives (`f_identifier`, `f_local_name`). -/
def fetch (w : World) (x : Operand) : Operand :=
  if x.dead w then .number 0 else x

/-- The instruction of an operator. -/
def binary (fpu : FloatUnit) (w : World) : Op → Operand → Operand → Except Failure Operand
  | .add => fAdd fpu w
  | .subtract => fSubtract fpu w
  | .multiply => fMultiply fpu
  | .divide => fDivide fpu
  | .mod => fMod
  | .and => fAnd w
  | .or => fOr w
  | .xor => fXor
  | .lsh => fLsh
  | .rsh => fRsh

/-- The right operand: the value of the variable itself, which for a mapping is more than one with
the same contents, or another value. -/
inductive Right where
  | itself
  | other (y : Operand)

/-- The right operand on the stack. -/
def Right.value (w : World) (x : Operand) : Right → Operand
  | .itself => fetch w x
  | .other y => y

def Right.isItself : Right → Bool
  | .itself => true
  | .other _ => false

/-- The value of `x OP y`, for the value of the variable `x`. -/
def plain (fpu : FloatUnit) (w : World) (op : Op) (x : Operand) (r : Right) :
    Except Failure Operand :=
  binary fpu w op (fetch w x) (r.value w x)

/-- The instruction of an operator on a variable. -/
def assignOp (fpu : FloatUnit) (w : World) (itself : Bool) :
    Op → Operand → Operand → Except Failure Operand
  | .add => fAddEq fpu w itself
  | .subtract => fSubEq fpu w
  | .multiply => fMultEq fpu
  | .divide => fDivEq fpu
  | .mod => fModEq
  | .and => fAndEq w
  | .or => fOrEq w
  | .xor => fXorEq
  | .lsh => fLshEq
  | .rsh => fRshEq

/-- The value that `x OP= y` leaves in the variable `x`. -/
def compound (fpu : FloatUnit) (w : World) (op : Op) (x : Operand) (r : Right) :
    Except Failure Operand :=
  assignOp fpu w r.isItself op x (r.value w x)

end Interpret

end Lpmud
