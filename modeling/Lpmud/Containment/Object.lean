import Lpmud.Lib.Path
import Lpmud.Svalue

/-!
# Objects and their inventories

The three pointers that say where an object is: `super` is its environment, `contains` the first
object in its inventory, and `next_inv` the next object in the inventory that it is in itself.
`move_object` and `destruct_object` of `simulate.c` edit them; this file has the edits, pointer by
pointer.

The loops are followed along the path that the pointers spell out: taking an object out of an
inventory redirects the one pointer that leads to it (`removeInv_of_mem`), and the search above an
object looks at all that the object is in (`isInside_eq`).
-/

namespace Lpmud.Containment

open Function List

/-- What is used of a `struct program`: for each program in `inherit`, the own one included, whether
it has a destructor to be called; and the pragmas `resident` and `no_clone`. -/
structure Program where
  inherit : List Bool
  resident : Bool
  noClone : Bool
  deriving DecidableEq

/-- What is used of a `struct object`. -/
structure Object where
  super : Option Obj
  contains : Option Obj
  nextInv : Option Obj
  enableCommands : Bool
  created : Bool
  clone : Bool
  destructed : Bool
  interactive : Bool
  shadowing : Option Obj
  shadowed : Option Obj
  prog : Program
  deriving DecidableEq

/-- `NULL_object`, with a program. -/
def Object.null (prog : Program) : Object where
  super := none
  contains := none
  nextInv := none
  enableCommands := false
  created := false
  clone := false
  destructed := false
  interactive := false
  shadowing := none
  shadowed := none
  prog := prog

/-- The objects. What the memory of an object that is not allocated holds does not matter. -/
structure Heap where
  obj : Obj → Object
  allocated : List Obj

namespace Heap

def super (h : Heap) (a : Obj) : Option Obj := (h.obj a).super

def contains (h : Heap) (a : Obj) : Option Obj := (h.obj a).contains

def nextInv (h : Heap) (a : Obj) : Option Obj := (h.obj a).nextInv

/-- An assignment to members of one object. -/
def modify (h : Heap) (a : Obj) (f : Object → Object) : Heap :=
  { h with obj := update h.obj a (f (h.obj a)) }

def setSuper (h : Heap) (a : Obj) (p : Option Obj) : Heap :=
  h.modify a fun o ↦ { o with super := p }

def setContains (h : Heap) (a : Obj) (p : Option Obj) : Heap :=
  h.modify a fun o ↦ { o with contains := p }

def setNextInv (h : Heap) (a : Obj) (p : Option Obj) : Heap :=
  h.modify a fun o ↦ { o with nextInv := p }

end Heap

/-- A `struct object **` into an inventory. -/
inductive Link where
  | contains (ob : Obj)
  | nextInv (ob : Obj)

/-- `*pp`. -/
def Heap.read (h : Heap) : Link → Option Obj
  | .contains ob => h.contains ob
  | .nextInv ob => h.nextInv ob

/-- `*pp = p`. -/
def Heap.write (h : Heap) (p : Option Obj) : Link → Heap
  | .contains ob => h.setContains ob p
  | .nextInv ob => h.setNextInv ob p

/-- The loop that takes `item` out of an inventory, in `move_object` and in `destruct_object`, with
the flag `okey` that says whether it was found. A loop that is still running when it has looked at
`n` pointers has no result. -/
def removeInv (item : Obj) : ℕ → Heap → Link → Bool → Option (Heap × Bool)
  | 0, _, _, _ => none
  | n + 1, h, pp, okey =>
    match h.read pp with
    | none => some (h, okey)
    | some ob =>
      if ob = item then removeInv item n (h.write (h.nextInv item) pp) pp true
      else removeInv item n h (.nextInv ob) okey

/-- The loop that looks for `item` in `ob` and all that `ob` is in. -/
def isInside (h : Heap) (item : Obj) : ℕ → Option Obj → Option Bool
  | 0, _ => none
  | _ + 1, none => some false
  | n + 1, some ob => if ob = item then some true else isInside h item n (h.super ob)

namespace Heap

/-- More pointers than a list of objects can have. -/
def bound (h : Heap) : ℕ := h.allocated.length + 1

/-- The object is put in front of the inventory of `dest`. -/
def link (h : Heap) (item dest : Obj) : Heap :=
  let h := h.setNextInv item (h.contains dest)
  let h := h.setContains dest (some item)
  h.setSuper item (some dest)

/-- The end of `destruct_object`, as far as the object itself is concerned. -/
def clear (h : Heap) (ob : Obj) : Heap :=
  h.modify ob fun o ↦ { o with
    super := none, nextInv := none, contains := none, enableCommands := false, destructed := true }

/-- `get_empty_object`. -/
def alloc (h : Heap) (ob : Obj) (o : Object) : Heap where
  obj := update h.obj ob o
  allocated := ob :: h.allocated

def free (h : Heap) (ob : Obj) : Heap :=
  { h with allocated := h.allocated.filter (· ≠ ob) }

/-! ### Members -/

variable (h : Heap) (a b : Obj) (p : Option Obj) (pp : Link)

@[simp] theorem allocated_modify (f : Object → Object) : (h.modify a f).allocated = h.allocated :=
  rfl

theorem obj_modify (f : Object → Object) :
    (h.modify a f).obj b = if b = a then f (h.obj b) else h.obj b := by
  by_cases hb : b = a
  · subst hb
    simp [modify]
  · simp [modify, hb]

theorem member_modify {β : Type} (g : Object → β) {f : Object → Object}
    (hf : ∀ o, g (f o) = g o) : g ((h.modify a f).obj b) = g (h.obj b) := by
  rw [obj_modify]
  split
  · exact hf _
  · rfl

theorem member_modify_eq {β : Type} (g : Object → β) {f : Object → Object} {v : β}
    (hf : ∀ o, g (f o) = v) :
    (fun b ↦ g ((h.modify a f).obj b)) = update (fun b ↦ g (h.obj b)) a v := by
  funext b
  rw [obj_modify]
  by_cases hb : b = a
  · subst hb
    simp [hf]
  · simp [hb]

@[simp] theorem super_setSuper : (h.setSuper a p).super = update h.super a p :=
  h.member_modify_eq a Object.super fun _ ↦ rfl

@[simp] theorem contains_setSuper : (h.setSuper a p).contains = h.contains :=
  funext fun b ↦ h.member_modify a b Object.contains fun _ ↦ rfl

@[simp] theorem nextInv_setSuper : (h.setSuper a p).nextInv = h.nextInv :=
  funext fun b ↦ h.member_modify a b Object.nextInv fun _ ↦ rfl

@[simp] theorem super_setContains : (h.setContains a p).super = h.super :=
  funext fun b ↦ h.member_modify a b Object.super fun _ ↦ rfl

@[simp] theorem contains_setContains :
    (h.setContains a p).contains = update h.contains a p :=
  h.member_modify_eq a Object.contains fun _ ↦ rfl

@[simp] theorem nextInv_setContains : (h.setContains a p).nextInv = h.nextInv :=
  funext fun b ↦ h.member_modify a b Object.nextInv fun _ ↦ rfl

@[simp] theorem super_setNextInv : (h.setNextInv a p).super = h.super :=
  funext fun b ↦ h.member_modify a b Object.super fun _ ↦ rfl

@[simp] theorem contains_setNextInv : (h.setNextInv a p).contains = h.contains :=
  funext fun b ↦ h.member_modify a b Object.contains fun _ ↦ rfl

@[simp] theorem nextInv_setNextInv :
    (h.setNextInv a p).nextInv = update h.nextInv a p :=
  h.member_modify_eq a Object.nextInv fun _ ↦ rfl

@[simp] theorem allocated_setSuper : (h.setSuper a p).allocated = h.allocated := rfl

@[simp] theorem allocated_setContains : (h.setContains a p).allocated = h.allocated := rfl

@[simp] theorem allocated_setNextInv : (h.setNextInv a p).allocated = h.allocated := rfl

/-- An object without its three pointers. -/
def rest (a : Obj) : Object :=
  { h.obj a with super := none, contains := none, nextInv := none }

theorem rest_modify {f : Object → Object} (hf : ∀ o, { f o with
      super := none, contains := none, nextInv := none } =
    { o with super := none, contains := none, nextInv := none }) :
    (h.modify a f).rest = h.rest :=
  funext fun b ↦ h.member_modify a b
    (fun o ↦ { o with super := none, contains := none, nextInv := none }) hf

@[simp] theorem rest_setSuper : (h.setSuper a p).rest = h.rest := h.rest_modify a fun _ ↦ rfl

@[simp] theorem rest_setContains : (h.setContains a p).rest = h.rest := h.rest_modify a fun _ ↦ rfl

@[simp] theorem rest_setNextInv : (h.setNextInv a p).rest = h.rest := h.rest_modify a fun _ ↦ rfl

@[simp] theorem super_clear : (h.clear a).super = update h.super a none :=
  h.member_modify_eq a Object.super fun _ ↦ rfl

@[simp] theorem contains_clear : (h.clear a).contains = update h.contains a none :=
  h.member_modify_eq a Object.contains fun _ ↦ rfl

@[simp] theorem nextInv_clear : (h.clear a).nextInv = update h.nextInv a none :=
  h.member_modify_eq a Object.nextInv fun _ ↦ rfl

@[simp] theorem allocated_clear : (h.clear a).allocated = h.allocated := rfl

@[simp] theorem rest_write : (h.write p pp).rest = h.rest := by
  cases pp <;> simp [write]

@[simp] theorem super_write : (h.write p pp).super = h.super := by
  cases pp <;> simp [write]

@[simp] theorem allocated_write : (h.write p pp).allocated = h.allocated := by
  cases pp <;> rfl

end Heap

/-! ### The loops -/

section Loops

variable {h : Heap} {item : Obj} {pp : Link} {okey : Bool} {l s t : List Obj} {n : ℕ}

theorem removeInv_of_notMem (hl : PtrPath h.nextInv (h.read pp) l) (hitem : item ∉ l)
    (hn : l.length < n) : removeInv item n h pp okey = some (h, okey) := by
  induction l generalizing n pp with
  | nil =>
    obtain ⟨n, rfl⟩ : ∃ m, n = m + 1 := ⟨n - 1, (Nat.succ_pred_eq_of_pos hn).symm⟩
    rw [removeInv]
    generalize h.read pp = p at hl
    cases hl
    rfl
  | cons x l ih =>
    obtain ⟨n, rfl⟩ : ∃ m, n = m + 1 := ⟨n - 1, by rw [length_cons] at hn; omega⟩
    rw [removeInv]
    generalize h.read pp = p at hl
    cases hl with
    | cons hl =>
      have hx : x ≠ item := fun hx ↦ hitem (hx ▸ mem_cons_self)
      dsimp only
      rw [if_neg hx]
      exact ih hl (fun h ↦ hitem (mem_cons_of_mem x h)) (Nat.lt_of_succ_lt_succ hn)

/-- The pointer to the node behind `s`. -/
def linkBehind (pp : Link) (s : List Obj) : Link :=
  s.foldl (fun _ b ↦ .nextInv b) pp

/-- **An object is taken out of an inventory** by redirecting the pointer that leads to it. -/
theorem removeInv_of_mem (hl : PtrPath h.nextInv (h.read pp) (s ++ item :: t))
    (hpp : ∀ b, pp = .nextInv b → b ∉ s ++ item :: t) (hn : (s ++ item :: t).length < n) :
    removeInv item n h pp okey = some (h.write (h.nextInv item) (linkBehind pp s), true) := by
  induction s generalizing n pp with
  | nil =>
    obtain ⟨n, rfl⟩ : ∃ m, n = m + 1 := ⟨n - 1, by omega⟩
    have hnodup := nodup_cons.1 hl.nodup
    have hrest := hl.drop (s := [])
    rw [removeInv]
    have hread : h.read pp = some item := by
      generalize h.read pp = p at hl
      cases hl
      rfl
    rw [hread]
    dsimp only
    rw [if_pos rfl]
    refine removeInv_of_notMem (l := t) ?_ hnodup.1 (Nat.lt_of_succ_lt_succ hn)
    -- The pointer that was redirected belongs to no object behind `item`.
    cases pp with
    | contains b => simpa [Heap.write, Heap.read] using hrest
    | nextInv b =>
      have hb : b ∉ t := fun hb ↦ hpp b rfl (mem_cons_of_mem item hb)
      simpa [Heap.write, Heap.read] using hrest.update hb
  | cons x s ih =>
    obtain ⟨n, rfl⟩ : ∃ m, n = m + 1 := ⟨n - 1, by omega⟩
    have hnodup := nodup_cons.1 hl.nodup
    rw [removeInv]
    generalize h.read pp = p at hl
    cases hl with
    | cons hl =>
      have hx : x ≠ item := by
        rintro rfl
        exact hnodup.1 (mem_append_right s mem_cons_self)
      dsimp only
      rw [if_neg hx]
      refine ih hl ?_ (Nat.lt_of_succ_lt_succ hn)
      rintro b ⟨⟩
      exact hnodup.1

/-- The search for `item` above an object. -/
theorem isInside_eq {p : Option Obj} (hl : PtrPath h.super p l) (hn : l.length < n) :
    isInside h item n p = some (decide (item ∈ l)) := by
  induction hl generalizing n with
  | nil =>
    obtain ⟨n, rfl⟩ : ∃ m, n = m + 1 := ⟨n - 1, by omega⟩
    simp [isInside]
  | @cons x l _ ih =>
    obtain ⟨n, rfl⟩ : ∃ m, n = m + 1 := ⟨n - 1, by omega⟩
    rw [isInside]
    by_cases hx : x = item
    · rw [if_pos hx]
      simp [hx]
    · rw [if_neg hx, ih (Nat.lt_of_succ_lt_succ hn)]
      simp [Ne.symm hx]

end Loops

end Lpmud.Containment
