import Mathlib.Data.List.TakeWhile

/-!
# LPC values

The values of LPC (`struct svalue`), when two of them are the same key of a mapping
(`equal_svalue`), and the hash value of a key (`hashsvalue`, with `hashstr16` of `hash.c`).

Arrays, mappings and functions are compared by their addresses, so a value has them; the elements
that are behind an address are there too. Whether an object is destructed, and whether a function
can still be called, is not part of a value but of the world it is looked at in.
-/

namespace Lpmud

/-- An object (`struct object *`), by its address. -/
abbrev Obj : Type := ℕ

/-- The address of an array, a mapping or a function. -/
abbrev Addr : Type := ℕ

/-- What is in memory. -/
abbrev Bytes : Type := List UInt8

/-- A string of C: bytes up to a NUL. -/
structure CString where
  bytes : Bytes
  noNul : 0 ∉ bytes
  deriving DecidableEq

/-- The string at the beginning of a buffer (`make_mstring`). -/
def CString.ofBytes (buf : Bytes) : CString where
  bytes := buf.takeWhile (· != 0)
  noNul h := absurd (List.mem_takeWhile_imp h) (by decide)

theorem CString.ofBytes_append_nul (s : CString) : CString.ofBytes (s.bytes ++ [0]) = s := by
  have hall : ∀ c ∈ s.bytes, (c != 0) = true := fun c hc ↦
    bne_iff_ne.2 fun hnul ↦ s.noNul (hnul ▸ hc)
  obtain ⟨bytes, noNul⟩ := s
  rw [CString.ofBytes, CString.mk.injEq, List.takeWhile_append_of_pos hall]
  exact List.append_nil _

/-- A `float` of C, by its 32 bits: the sign, 8 bits of exponent and 23 of fraction. -/
abbrev CFloat : Type := BitVec 32

namespace CFloat

/-- A float that is not a number: all bits of the exponent are set, and some bit of the fraction. -/
def isNaN (x : CFloat) : Bool :=
  x &&& 0x7f800000 == 0x7f800000 && x &&& 0x7fffff != 0

/-- 0.0 or -0.0. -/
def isZero (x : CFloat) : Bool :=
  x &&& 0x7fffffff == 0

/-- `==` of two floats. -/
def eq (x y : CFloat) : Bool :=
  !x.isNaN && !y.isNaN && (x == y || x.isZero && y.isZero)

end CFloat

/-- A value of LPC, with the elements of an array, and with the pairs of a mapping in the order of
its table. -/
inductive Svalue where
  | number (n : BitVec 32)
  | float (x : CFloat)
  | string (s : CString)
  | object (ob : Obj)
  | pointer (vec : Addr) (item : List Svalue)
  | mapping (map : Addr) (pairs : List (Svalue × Svalue))
  | function (func : Addr)

namespace Svalue

mutual

/-- A predicate holds of a value and of everything in it. -/
def All (P : Svalue → Prop) : Svalue → Prop
  | .pointer vec item => P (.pointer vec item) ∧ AllItems P item
  | .mapping map pairs => P (.mapping map pairs) ∧ AllPairs P pairs
  | v => P v

/-- `All` for the elements of an array. -/
def AllItems (P : Svalue → Prop) : List Svalue → Prop
  | [] => True
  | v :: item => All P v ∧ AllItems P item

/-- `All` for the pairs of a mapping. -/
def AllPairs (P : Svalue → Prop) : List (Svalue × Svalue) → Prop
  | [] => True
  | (k, v) :: pairs => (All P k ∧ All P v) ∧ AllPairs P pairs

end

variable {P : Svalue → Prop}

theorem allItems_iff {item : List Svalue} : AllItems P item ↔ ∀ v ∈ item, All P v := by
  induction item with
  | nil => simp [AllItems]
  | cons v item ih => simp [AllItems, ih]

theorem allPairs_iff {pairs : List (Svalue × Svalue)} :
    AllPairs P pairs ↔ ∀ p ∈ pairs, All P p.1 ∧ All P p.2 := by
  induction pairs with
  | nil => simp [AllPairs]
  | cons p pairs ih => simp [AllPairs, ih]

attribute [local simp] Svalue.All in
theorem all_pointer {vec : Addr} {item : List Svalue} :
    All P (.pointer vec item) ↔ P (.pointer vec item) ∧ ∀ v ∈ item, All P v := by
  rw [All, allItems_iff]

theorem all_mapping {map : Addr} {pairs : List (Svalue × Svalue)} :
    All P (.mapping map pairs) ↔
      P (.mapping map pairs) ∧ ∀ p ∈ pairs, All P p.1 ∧ All P p.2 := by
  rw [All, allPairs_iff]

/-- **Induction on values**: what holds of a value when it holds of everything in it holds of
all values. -/
theorem induction (leaf : ∀ v, (∀ vec item, v ≠ .pointer vec item) →
      (∀ map pairs, v ≠ .mapping map pairs) → P v)
    (pointer : ∀ vec item, (∀ v ∈ item, P v) → P (.pointer vec item))
    (mapping : ∀ map pairs, (∀ p ∈ pairs, P p.1 ∧ P p.2) → P (.mapping map pairs)) (v : Svalue) :
    P v := by
  refine @Svalue.rec P (fun item ↦ ∀ v ∈ item, P v) (fun pairs ↦ ∀ p ∈ pairs, P p.1 ∧ P p.2)
    (fun p ↦ P p.1 ∧ P p.2) (fun n ↦ leaf _ nofun nofun) (fun x ↦ leaf _ nofun nofun)
    (fun s ↦ leaf _ nofun nofun) (fun ob ↦ leaf _ nofun nofun) pointer mapping
    (fun func ↦ leaf _ nofun nofun) nofun (fun v item hv hitem ↦ ?_) nofun
    (fun p pairs hp hpairs ↦ ?_) (fun k v hk hv ↦ ⟨hk, hv⟩) v
  · exact List.forall_mem_cons.2 ⟨hv, hitem⟩
  · exact List.forall_mem_cons.2 ⟨hp, hpairs⟩

end Svalue

/-- The value 0. -/
def const0 : Svalue := .number 0

/-- What values are looked at in: which objects are destructed, and which functions are legal. -/
structure World where
  destructed : Obj → Bool
  legalClosure : Addr → Bool

/-- A world in which nothing is destructed. -/
abbrev World.calm : World :=
  ⟨fun _ ↦ false, fun _ ↦ true⟩

/-- `equal_svalue`. A destructed object is equal to 0, and to every other one; a function that
cannot be called is equal to 0, but 0 not to it. -/
def equalSvalue (w : World) : Svalue → Svalue → Bool
  | .number m, .object ob => m == 0 && w.destructed ob
  | .object ob, .number n => n == 0 && w.destructed ob
  | .function f, .number n => n == 0 && !w.legalClosure f
  | .number m, .number n => m == n
  | .pointer v _, .pointer v' _ => v == v'
  | .mapping m _, .mapping m' _ => m == m'
  | .string s, .string s' => s == s'
  | .object ob, .object ob' => w.destructed ob && w.destructed ob' || ob == ob'
  | .float x, .float y => x.eq y
  | .function f, .function f' => f == f'
  | _, _ => false

/-- A value that keys are made of in this development: an integer, a string, or a live object. -/
def Svalue.IsKey (w : World) : Svalue → Prop
  | .number _ | .string _ => True
  | .object ob => w.destructed ob = false
  | _ => False

theorem equalSvalue_iff {w : World} {a b : Svalue} (ha : a.IsKey w) (hb : b.IsKey w) :
    equalSvalue w a b = true ↔ a = b := by
  cases a <;> cases b <;>
    simp_all [Svalue.IsKey, equalSvalue]

/-! ### Hashing -/

/-- The table `T` of `hash.c`. -/
def hashTable : Array UInt8 :=
  #[1, 87, 49, 12, 176, 178, 102, 166, 121, 193, 6, 84, 249, 230, 44, 163,
    14, 197, 213, 181, 161, 85, 218, 80, 64, 239, 24, 226, 236, 142, 38, 200,
    110, 177, 104, 103, 141, 253, 255, 50, 77, 101, 81, 18, 45, 96, 31, 222,
    25, 107, 190, 70, 86, 237, 240, 34, 72, 242, 20, 214, 244, 227, 149, 235,
    97, 234, 57, 22, 60, 250, 82, 175, 208, 5, 127, 199, 111, 62, 135, 248,
    174, 169, 211, 58, 66, 154, 106, 195, 245, 171, 17, 187, 182, 179, 0, 243,
    132, 56, 148, 75, 128, 133, 158, 100, 130, 126, 91, 13, 153, 246, 216, 219,
    119, 68, 223, 78, 83, 88, 201, 99, 122, 11, 92, 32, 136, 114, 52, 10,
    138, 30, 48, 183, 156, 35, 61, 26, 143, 74, 251, 94, 129, 162, 63, 152,
    170, 7, 115, 167, 241, 206, 3, 150, 55, 59, 151, 220, 90, 53, 23, 131,
    125, 173, 15, 238, 79, 95, 89, 16, 105, 137, 225, 224, 217, 160, 37, 123,
    118, 73, 2, 157, 46, 116, 9, 145, 134, 228, 207, 212, 202, 215, 69, 229,
    27, 188, 67, 124, 168, 252, 42, 4, 29, 108, 21, 247, 19, 205, 39, 203,
    233, 40, 186, 147, 198, 192, 155, 33, 164, 191, 98, 204, 165, 180, 117, 76,
    140, 36, 210, 172, 41, 54, 159, 8, 185, 232, 113, 196, 231, 47, 146, 120,
    51, 65, 28, 144, 254, 221, 93, 189, 194, 139, 112, 43, 71, 109, 184, 209]

/-- An entry of the table. -/
def hashByte (b : UInt8) : UInt8 :=
  hashTable.getD b.toNat 0

/-- The loop of `hashstr16`, which stops before the last byte. -/
def hashstr16Loop : ℕ → UInt8 → UInt8 → Bytes → UInt8 × UInt8
  | i + 1, h1, h2, c :: d :: s =>
    if i = 0 then (h1, h2) else hashstr16Loop i (hashByte (h1 ^^^ c)) (hashByte (h2 ^^^ d)) (d :: s)
  | _, h1, h2, _ => (h1, h2)

def hashstr16 (s : Bytes) (maxn : ℕ) : BitVec 16 :=
  match s with
  | [] => 0
  | c :: s =>
    let (h1, h2) := hashstr16Loop maxn 0 c (c :: s)
    h1.toBitVec ++ h2.toBitVec

def hashsvalue : Svalue → BitVec 16
  | .number n => n.truncate 16
  | .pointer vec _ => BitVec.ofNat 16 (vec >>> 4)
  | .mapping map _ => BitVec.ofNat 16 (map >>> 4)
  | .string s => hashstr16 s.bytes 20
  | .object ob => BitVec.ofNat 16 (ob >>> 4)
  | .float x => x.truncate 16
  | .function _ => 0

end Lpmud
