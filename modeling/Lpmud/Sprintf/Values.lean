import Lpmud.Sprintf.Integers

/-!
# LPC values

`%O` prints any LPC value: `svalue_to_string` makes a string of it, which is then printed as `%s`
would print it.

The objects of the game are known here by what `sprintf.c` asks of them. The master object is asked
for the names of objects; it may raise an error. How C prints floats, and how a function is shown
(`show_closure`), is not said.
-/

namespace Lpmud.Sprintf

open Abortable

/-- A value of LPC that is printed. The string of a string is known by where it is; the pairs of a
mapping are in the order of its table. -/
inductive Value where
  | invalid
  | lvalue (v : Value)
  | number (n : BitVec 32)
  | float (x : CFloat)
  | string (a : Addr)
  | pointer (item : List Value)
  | object (ob : Obj)
  | mapping (pairs : List (Value × Value))
  | function (f : Addr)

/-- What is asked of the rest of the driver and of the library of C. -/
structure World where
  destructed : Obj → Bool
  name : Obj → CString
  /-- What the master object says when it is asked for a name, or the error that it raises. -/
  objectName : Obj → Except String (Option CString)
  showClosure : Addr → CString
  /-- `sprintf` with a conversion for floats. -/
  printFloat : FormatInfo → BitVec 32 → CFloat → CString
  /-- `sprintf` with `%8e`. -/
  printE : CFloat → CString

/-- The bytes of a text. -/
def ascii (s : String) : Bytes :=
  s.toList.map fun c ↦ UInt8.ofNat c.toNat

def stradd (dst : Bytes) (size : ℕ) (add : Bytes) : Print (Bytes × ℕ) := do
  let size ← makeRoom size (dst.length + add.length)
  pure (dst ++ add, size)

def addIndent (dst : Bytes) (size indent : ℕ) : Print (Bytes × ℕ) :=
  stradd dst size (List.replicate indent SPACE)

/-- The string at the beginning of some bytes. -/
def stringAt (bytes : Bytes) : Bytes :=
  bytes.takeWhile (· ≠ 0)

/-- An error that does not jump. -/
def raise {α : Type} (message : String) : Print α := do
  note fun s ↦ .raise s.saves.length
  halt (.raise message)

/-- The name of an object that is not destructed. -/
def addObject (w : World) (callMaster : Bool) (ob : Obj) (str : Bytes) (size : ℕ) :
    Print (Bytes × ℕ) := do
  let (str, size) ← stradd str size (w.name ob).bytes
  if callMaster then
    match w.objectName ob with
    | .error message => raise message
    | .ok none => pure (str, size)
    | .ok (some name) =>
      let (str, size) ← stradd str size (ascii " (\"")
      let (str, size) ← stradd str size name.bytes
      stradd str size (ascii "\")")
  else pure (str, size)

mutual

/-- `svalue_to_string`. What it is called for extends the storage on its own account: the size
that it begins with is that of its caller. -/
def svalueToString (w : World) (callMaster : Bool) (obj : Value) (str : Bytes) (size : ℕ)
    (indent : ℤ) (trailing : Bool) : Print Bytes := do
  let (str, size) ← if indent ≥ 0 then addIndent str size indent.toNat else pure (str, size)
  let indent := (indent.natAbs : ℤ)
  let (str, size) ← match obj with
    | .invalid => stradd str size (ascii "T_INVALID")
    | .lvalue v => do
      let (str, size) ← stradd str size (ascii "lvalue: ")
      let str ← svalueToString w callMaster v str size (-indent - 2) trailing
      pure (str, size)
    | .number n => numadd str size n
    | .float x => stradd str size (w.printE x).bytes
    | .string a => do
      let (str, size) ← stradd str size (ascii "\"")
      let s ← read
      let (str, size) ← stradd str size (stringAt (s.mem (.given a)))
      stradd str size (ascii "\"")
    | .pointer [] => stradd str size (ascii "({ })")
    | .pointer item => do
      let (str, size) ← stradd str size (ascii "(\x7b /* sizeof() == ")
      let (str, size) ← numadd str size (.ofNat 32 item.length)
      let (str, size) ← stradd str size (ascii " */\n")
      let str ← itemsToString w callMaster item str size indent
      stradd str size (ascii " \x7d)")
    | .object ob =>
      if w.destructed ob then numadd str size 0 else addObject w callMaster ob str size
    | .mapping [] => stradd str size (ascii "([ ])")
    | .mapping pairs => do
      let (str, size) ← stradd str size (ascii "([ /* sizeof() == ")
      let (str, size) ← numadd str size (.ofNat 32 pairs.length)
      let (str, size) ← stradd str size (ascii " */\n")
      let (str, size) ← pairsToString w callMaster pairs str size indent
      stradd str size (ascii " ])")
    | .function f => do
      let (str, size) ← stradd str size (ascii "<<FUNCTION ")
      let (str, size) ← stradd str size (w.showClosure f).bytes
      stradd str size (ascii ">>")
  if trailing then
    let (str, _) ← stradd str size (ascii ",\n")
    pure str
  else pure str

/-- The elements of an array, with commas between them. -/
def itemsToString (w : World) (callMaster : Bool) (item : List Value) (str : Bytes) (size : ℕ)
    (indent : ℤ) : Print Bytes :=
  match item with
  | [] => pure str
  | v :: item => do
    let str ← svalueToString w callMaster v str size (indent + 2) (!item.isEmpty)
    itemsToString w callMaster item str size indent

/-- The pairs of a mapping, with commas between them. -/
def pairsToString (w : World) (callMaster : Bool) (pairs : List (Value × Value)) (str : Bytes)
    (size : ℕ) (indent : ℤ) : Print (Bytes × ℕ) :=
  match pairs with
  | [] => pure (str, size)
  | (arg, val) :: pairs => do
    let str ← svalueToString w callMaster arg str size (indent + 2) false
    let (str, size) ← stradd str size (ascii " : ")
    let str ← svalueToString w callMaster val str size (-indent - 2) (!pairs.isEmpty)
    pairsToString w callMaster pairs str size indent

end

end Lpmud.Sprintf
