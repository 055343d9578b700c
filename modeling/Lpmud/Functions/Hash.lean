import Lpmud.Lib.DoublyLinked
import Lpmud.Lib.Path
import Mathlib.Data.Int.ModEq
import Mathlib.Data.List.Nodup

/-!
# The hash table of the functions of a program

`hash_func` of `postlang.y` and the loop of `s_f_f` (`interpret.c`) that looks a name up. A table
has as many slots as there are functions. In a first pass every function whose slot is free is put
there, and the others are noted in a list; the slots that stay free are linked both ways meanwhile.
In a second pass the functions of the list go to the slots that are still free, each at the end of
the chain of its own slot.

Here are the functions and the first pass (`hashAll_spec`). The indices that are stored are of type
`short`, and fit as long as there are at most `2 ^ 15` functions.
-/

namespace Lpmud.Functions

open Function List

/-- A pointer to a shared string that is a name. -/
abbrev Name := {p : BitVec 64 // p ≠ 0}

/-- `PTR_HASH`, of the two lower halves of the lower word. -/
def ptrHash (ptr : Name) (size : ℕ) : ℕ :=
  ((ptr.1.toNat % 2 ^ 16 / 8) ^^^ (ptr.1.toNat / 2 ^ 16 % 2 ^ 16 / 8)) % size

/-- An entry of the table (`struct function_hash`). A slot without a name is free. -/
structure FunctionHash where
  name : Option Name
  nextHashedFunction : BitVec 16
  funcIndex : BitVec 16

/-- What is stored of a number in a `short`. -/
abbrev toShort (x : ℤ) : BitVec 16 :=
  .ofInt 16 x

/-- The index of an element of an array of `size` elements. -/
def inside (size : ℕ) (x : ℤ) : Option ℕ :=
  if 0 ≤ x ∧ x < size then some x.toNat else none

/-! ### Filling the table -/

/-- The variables of `hash_func`, the table (`to` in the source), and the members `hash_idx` of the
functions. -/
structure Filling where
  table : ℕ → FunctionHash
  back : ℕ → ℤ
  hashIdx : ℕ → BitVec 16
  firstHole : ℤ
  firstCollision : ℤ
  lastCollision : ℤ

namespace Filling

def setNext (s : Filling) (p : ℕ) (x : BitVec 16) : Filling :=
  { s with table := update s.table p { s.table p with nextHashedFunction := x } }

def setEntry (s : Filling) (p : ℕ) (e : FunctionHash) : Filling :=
  { s with table := update s.table p e }

def setHashIdx (s : Filling) (i : ℕ) (x : ℤ) : Filling :=
  { s with hashIdx := update s.hashIdx i (toShort x) }

theorem setHashIdx_self (s : Filling) (i : ℕ) (x : ℤ) : (s.setHashIdx i x).hashIdx i = toShort x :=
  update_self ..

theorem setHashIdx_of_ne (s : Filling) {i j : ℕ} (x : ℤ) (h : j ≠ i) :
    (s.setHashIdx i x).hashIdx j = s.hashIdx j :=
  update_of_ne h ..

/-- The pointer forth that leads to `probe` is redirected, or the first free slot. -/
def redirectForth (size : ℕ) (s : Filling) (probe : ℕ) : Option Filling :=
  if s.back probe = -1 then
    some { s with firstHole := (s.table probe).nextHashedFunction.toInt }
  else do
    let b ← inside size (s.back probe)
    some (s.setNext b (s.table probe).nextHashedFunction)

/-- The pointer back that leads to `probe` is redirected. -/
def redirectBack (size : ℕ) (s : Filling) (probe : ℕ) : Option Filling :=
  if (s.table probe).nextHashedFunction.toInt ≠ -1 then do
    let k ← inside size (s.table probe).nextHashedFunction.toInt
    some { s with back := update s.back k (s.back probe) }
  else some s

/-- The slot `probe` is taken out of the list of the free slots. -/
def unlinkHole (size : ℕ) (s : Filling) (probe : ℕ) : Option Filling := do
  let s ← s.redirectForth size probe
  s.redirectBack size probe

/-- The function `i` is put behind the collisions there are. -/
def append (size : ℕ) (s : Filling) (i : ℕ) : Option Filling :=
  if s.firstCollision = -1 then
    some { s with firstCollision := i, lastCollision := i }
  else do
    let last ← inside size s.lastCollision
    some { s.setHashIdx last i with lastCollision := i }

/-- The function `i` is noted as a collision. -/
def collide (size : ℕ) (s : Filling) (i : ℕ) : Option Filling := do
  let s ← s.append size i
  some (s.setHashIdx i (-1))

/-- One round of the first pass. -/
def hashOne (size : ℕ) (s : Filling) (i : ℕ) (name : Name) : Option Filling :=
  let probe := ptrHash name size
  if (s.table probe).name = none then do
    let s ← s.unlinkHole size probe
    some ((s.setEntry probe ⟨some name, toShort (-1), toShort i⟩).setHashIdx i probe)
  else s.collide size i

/-- The first pass, from the function `i` on. -/
def hashAll (size : ℕ) (s : Filling) (i : ℕ) : List Name → Option Filling
  | [] => some s
  | name :: names => do
    let s ← s.hashOne size i name
    s.hashAll size (i + 1) names

/-- The last slot of the chain of `probe`. -/
def chainEnd (size : ℕ) (table : ℕ → FunctionHash) : ℕ → ℕ → Option ℕ
  | 0, _ => none
  | fuel + 1, probe =>
    if (table probe).nextHashedFunction.toInt = -1 then some probe
    else do chainEnd size table fuel (← inside size (table probe).nextHashedFunction.toInt)

/-- The function `first` is put into the free slot `i`. -/
def occupy (s : Filling) (i first : ℕ) (name : Name) : Filling :=
  ({ s with firstHole := (s.table i).nextHashedFunction.toInt }.setEntry i
    ⟨some name, toShort (-1), toShort first⟩).setHashIdx first i

/-- One round of the second pass: the first collision goes to the first free slot. -/
def plug (fuel : ℕ) (names : List Name) (s : Filling) : Option Filling := do
  let i ← inside names.length s.firstHole
  let first ← inside names.length s.firstCollision
  let name ← names[first]?
  let next := s.hashIdx first
  let s := s.occupy i first name
  let probe ← chainEnd names.length s.table fuel (ptrHash name names.length)
  some { s.setNext probe (toShort i) with firstCollision := next.toInt }

/-- The second pass. -/
def plugAll (fuel : ℕ) (names : List Name) : ℕ → Filling → Option Filling
  | 0, _ => none
  | rounds + 1, s =>
    if s.firstCollision = -1 then some s
    else do plugAll fuel names rounds (← s.plug fuel names)

/-- The lists as they are prepared. -/
def prepare (size : ℕ) (table : ℕ → FunctionHash) (hashIdx : ℕ → BitVec 16) : Filling where
  table i := ⟨none, if i + 1 = size then toShort (-1) else toShort (i + 1), (table i).funcIndex⟩
  back i := i - 1
  hashIdx := hashIdx
  firstHole := 0
  firstCollision := -1
  lastCollision := -1

end Filling

/-- `hash_func`: the table (`to` in the source), and the members `hash_idx` of the functions `from`.
There is no result when an index is outside of an array, or when the rounds of a loop do not
suffice. -/
def hashFunc (fuel : ℕ) (names : List Name) (table : ℕ → FunctionHash) (hashIdx : ℕ → BitVec 16) :
    Option ((ℕ → FunctionHash) × (ℕ → BitVec 16)) :=
  if names.length = 0 then some (table, hashIdx)
  else do
    let s ← (Filling.prepare names.length table hashIdx).hashAll names.length 0 names
    let s ← s.plugAll fuel names fuel
    some (s.table, s.hashIdx)

/-! ### Looking a name up -/

/-- The name of the entry `x`. In front of the table there is `stray`, which is read at the end of a
chain. -/
def nameAt (stray : ℤ → Option Name) (size : ℕ) (table : ℕ → FunctionHash) (x : ℤ) :
    Option (Option Name) :=
  if x < 0 then some (stray x) else (inside size x).map fun p ↦ (table p).name

/-- The loop that selects from the chain. -/
def select (stray : ℤ → Option Name) (size : ℕ) (table : ℕ → FunctionHash) (name : Name) :
    ℕ → ℤ → Option ℤ
  | 0, _ => none
  | fuel + 1, probe => do
    let found ← nameAt stray size table probe
    if some name ≠ found ∧ 0 ≤ probe then do
      let p ← inside size probe
      select stray size table name fuel (table p).nextHashedFunction.toInt
    else some probe

/-- The search of `s_f_f` in one program: the index of a function of the name, when there is one. -/
def lookup (fuel : ℕ) (stray : ℤ → Option Name) (size : ℕ) (table : ℕ → FunctionHash)
    (name : Name) : Option (Option ℤ) :=
  if size = 0 then some none
  else do
    let probe ← select stray size table name fuel (ptrHash name size)
    if 0 ≤ probe then do
      let p ← inside size probe
      some (some (table p).funcIndex.toInt)
    else some none

/-! ### What the table is for -/

/-- The slot behind the slot `p` in its chain. -/
def nextSlot (table : ℕ → FunctionHash) (p : ℕ) : Option ℕ :=
  if (table p).nextHashedFunction.toInt < 0 then none
  else some (table p).nextHashedFunction.toInt.toNat

/-- The table finds the function `i`, whose name is `name`: its chain `chain` ends inside of the
table, there is one slot with the name, in the chain and in the table, and it leads back to the
function. -/
structure Found (size : ℕ) (table : ℕ → FunctionHash) (hashIdx : ℕ → BitVec 16) (i : ℕ)
    (name : Name) (chain : List ℕ) (p : ℕ) : Prop where
  path : PtrPath (nextSlot table) (some (ptrHash name size)) chain
  lt_size : ∀ q ∈ chain, q < size
  mem_chain : p ∈ chain
  unique : ∀ q < size, (table q).name = some name ↔ q = p
  funcIndex : (table p).funcIndex.toInt = i
  hashIdx : (hashIdx i).toInt = p

/-- **The table finds every function** of the list, chains of different slots are disjoint, and a
search in it gives the index of the function, or fails when there is no function of the name. -/
structure FindsEvery (names : List Name) (table : ℕ → FunctionHash) (hashIdx : ℕ → BitVec 16) :
    Prop where
  found : ∀ i name, names[i]? = some name →
    ∃ chain p, Found names.length table hashIdx i name chain p
  disjoint : ∀ a ∈ names, ∀ b ∈ names, ptrHash a names.length ≠ ptrHash b names.length →
    ∀ l l', PtrPath (nextSlot table) (some (ptrHash a names.length)) l →
      PtrPath (nextSlot table) (some (ptrHash b names.length)) l' → l.Disjoint l'
  lookup_eq : ∀ (i : ℕ) name, names[i]? = some name → ∀ fuel > names.length, ∀ stray,
    lookup fuel stray names.length table name = some (some (i : ℤ))
  lookup_other : ∀ name ∉ names, ∀ fuel > names.length, ∀ stray,
    lookup fuel stray names.length table name = some none

/-! ### Indices -/

section Index

variable {n p : ℕ} {o : Option ℕ}

/-- What stands for an index or for none. -/
def ref : Option ℕ → ℤ
  | none => -1
  | some p => p

@[simp] theorem ref_none : ref none = -1 := rfl

@[simp] theorem ref_some : ref (some p) = p := rfl

@[simp] theorem ref_eq_neg_one : ref o = -1 ↔ o = none := by
  cases o with
  | none => simp
  | some p => simp [ref]

theorem ptrHash_lt (name : Name) (h : 0 < n) : ptrHash name n < n :=
  Nat.mod_lt _ h

theorem inside_natCast (h : p < n) : inside n p = some p := by
  rw [inside, if_pos (by omega), Int.toNat_natCast]

@[simp] theorem toInt_toShort_neg : (toShort (-1)).toInt = -1 := by decide

theorem toInt_toShort (h : p < 2 ^ 15) : (toShort p).toInt = p := by
  rw [toShort, BitVec.toInt_ofInt, Int.bmod_eq_of_le] <;> omega

theorem nextSlot_eq {table : ℕ → FunctionHash}
    (h : (table p).nextHashedFunction.toInt = ref o) : nextSlot table p = o := by
  rw [nextSlot, h]
  cases o with
  | none => rfl
  | some q => exact if_neg (Int.natCast_nonneg q).not_gt

end Index

/-! ### The first pass -/

namespace Filling

variable {names : List Name} {n i probe : ℕ} {s : Filling} {prev next idx : ℕ → Option ℕ}
  {holes colls l l' : List ℕ}

/-- The functions before `i`, those of `colls` apart, have slots of their own. -/
structure Holds (names : List Name) (i : ℕ) (colls : List ℕ) (table : ℕ → FunctionHash)
    (idx : ℕ → Option ℕ) : Prop where
  placed : ∀ j < i, j ∉ colls → ∃ p < names.length, idx j = some p ∧ (table p).name = names[j]? ∧
    (table p).funcIndex.toInt = j
  occupied : ∀ p < names.length, (table p).name ≠ none → ∃ j < i, j ∉ colls ∧ idx j = some p

/-- The pointers of the free slots are `prev` and `next`. -/
structure Links (n : ℕ) (s : Filling) (prev next : ℕ → Option ℕ) (holes : List ℕ) : Prop where
  linked : Linked prev next holes
  nodup : holes.Nodup
  lt_size : ∀ p ∈ holes, p < n
  next_eq : ∀ p < n, (s.table p).nextHashedFunction.toInt = ref (next p)
  back_eq : ∀ p < n, s.back p = ref (prev p)
  firstHole : s.firstHole = ref holes.head?

/-- What is written when a slot leaves the list of the free slots. -/
structure Unlinked (s s' : Filling) : Prop where
  name : ∀ p, (s'.table p).name = (s.table p).name
  funcIndex : ∀ p, (s'.table p).funcIndex = (s.table p).funcIndex
  hashIdx : s'.hashIdx = s.hashIdx
  firstCollision : s'.firstCollision = s.firstCollision
  lastCollision : s'.lastCollision = s.lastCollision

theorem redirectForth_spec (h : Links n s prev next (l ++ probe :: l')) :
    ∃ s', s.redirectForth n probe = some s' ∧ Unlinked s s' ∧ s'.back = s.back ∧
      (∀ p < n, (s'.table p).nextHashedFunction.toInt = ref (unlinkNext prev next probe p)) ∧
      s'.firstHole = ref (l ++ l').head? := by
  have hprobe := h.lt_size probe (by simp)
  rw [redirectForth, h.back_eq probe hprobe, unlinkNext, h.linked.prev_eq]
  rcases eq_nil_or_concat l with rfl | ⟨l, b, rfl⟩
  · refine ⟨_, if_pos rfl, ⟨fun _ ↦ rfl, fun _ ↦ rfl, rfl, rfl, rfl⟩, rfl, h.next_eq, ?_⟩
    rw [h.next_eq probe hprobe, h.linked.next_eq, nil_append]
  · have hb : b < n := h.lt_size b (by simp)
    have hne : ref (some b) ≠ -1 := by simp
    rw [concat_eq_append, List.getLast?_concat, if_neg hne, ref_some, inside_natCast hb]
    refine ⟨_, rfl, ⟨fun p ↦ ?_, fun p ↦ ?_, rfl, rfl, rfl⟩, rfl, fun p hp ↦ ?_, ?_⟩
    · by_cases hpb : p = b <;> simp [setNext, hpb]
    · by_cases hpb : p = b <;> simp [setNext, hpb]
    · by_cases hpb : p = b
      · simp [setNext, hpb, h.next_eq probe hprobe]
      · simp [setNext, hpb, h.next_eq p hp]
    · have hfirst := h.firstHole
      simpa [setNext] using hfirst

theorem redirectBack_spec (hprobe : probe < n) (hback : ∀ p < n, s.back p = ref (prev p))
    (hnext : (s.table probe).nextHashedFunction.toInt = ref (next probe))
    (hlt : ∀ k, next probe = some k → k < n) :
    ∃ s', s.redirectBack n probe = some s' ∧ Unlinked s s' ∧ s'.table = s.table ∧
      (∀ p < n, s'.back p = ref (unlinkPrev prev next probe p)) ∧ s'.firstHole = s.firstHole := by
  rw [redirectBack, hnext, unlinkPrev]
  cases hk : next probe with
  | none => exact ⟨s, rfl, ⟨fun _ ↦ rfl, fun _ ↦ rfl, rfl, rfl, rfl⟩, rfl, hback, rfl⟩
  | some k =>
    rw [if_pos (by simp), ref_some, inside_natCast (hlt k hk)]
    refine ⟨_, rfl, ⟨fun _ ↦ rfl, fun _ ↦ rfl, rfl, rfl, rfl⟩, rfl, fun p hp ↦ ?_, rfl⟩
    by_cases hpk : p = k
    · simp [hpk, hback probe hprobe]
    · simp [hpk, hback p hp]

theorem Unlinked.trans {s₁ s₂ s₃ : Filling} (h : Unlinked s₁ s₂) (h' : Unlinked s₂ s₃) :
    Unlinked s₁ s₃ :=
  ⟨fun p ↦ (h'.name p).trans (h.name p), fun p ↦ (h'.funcIndex p).trans (h.funcIndex p),
    h'.hashIdx.trans h.hashIdx, h'.firstCollision.trans h.firstCollision,
    h'.lastCollision.trans h.lastCollision⟩

theorem unlinkNext_self (h : Links n s prev next (l ++ probe :: l')) :
    unlinkNext prev next probe probe = l'.head? := by
  rw [unlinkNext, h.linked.prev_eq]
  cases hl : l.getLast? with
  | none => exact h.linked.next_eq
  | some b =>
    have hne : probe ≠ b := by
      rintro rfl
      exact (nodup_append.1 h.nodup).2.2 _ (mem_of_getLast? hl) _ mem_cons_self rfl
    exact (update_of_ne hne ..).trans h.linked.next_eq

/-- **A free slot is taken out of the list.** -/
theorem unlinkHole_spec (h : Links n s prev next (l ++ probe :: l')) :
    ∃ s', s.unlinkHole n probe = some s' ∧ Unlinked s s' ∧
      Links n s' (unlinkPrev prev next probe) (unlinkNext prev next probe) (l ++ l') := by
  have hprobe := h.lt_size probe (by simp)
  have hsub : (l ++ l').Sublist (l ++ probe :: l') :=
    (sublist_cons_self probe l').append_left l
  obtain ⟨s₁, hs₁, hun₁, hback₁, hnext₁, hfirst₁⟩ := redirectForth_spec h
  have hself : unlinkNext prev next probe probe = next probe :=
    (unlinkNext_self h).trans h.linked.next_eq.symm
  obtain ⟨s₂, hs₂, hun₂, htable₂, hback₂, hfirst₂⟩ := redirectBack_spec hprobe
    (fun p hp ↦ by rw [hback₁, h.back_eq p hp]) ((hnext₁ probe hprobe).trans (by rw [hself]))
    (fun k hk ↦ h.lt_size k (by
      rw [h.linked.next_eq] at hk
      simp [mem_of_head? hk]))
  refine ⟨s₂, ?_, hun₁.trans hun₂, h.linked.unlink h.nodup, h.nodup.sublist hsub,
    fun p hp ↦ h.lt_size p (hsub.subset hp), fun p hp ↦ ?_, hback₂, hfirst₂.trans hfirst₁⟩
  · rw [unlinkHole, hs₁]
    exact hs₂
  · rw [htable₂, hnext₁ p hp]

/-- The invariant of the first pass in front of the function `i`: `holes` are the free slots, and
`colls` the collisions, which `idx` links. -/
structure Spread (names : List Name) (i : ℕ) (s : Filling) (prev next idx : ℕ → Option ℕ)
    (holes colls : List ℕ) : Prop where
  links : Links names.length s prev next holes
  mem_holes : ∀ p < names.length, p ∈ holes ↔ (s.table p).name = none
  holds : Holds names i colls s.table idx
  alone : ∀ p < names.length, ∀ name, (s.table p).name = some name →
    next p = none ∧ ptrHash name names.length = p
  idx_eq : ∀ j < i, (s.hashIdx j).toInt = ref (idx j)
  collided : ∀ j ∈ colls, j < i ∧ ∀ name, names[j]? = some name →
    (s.table (ptrHash name names.length)).name ≠ none
  path : PtrPath idx colls.head? colls
  firstCollision : s.firstCollision = ref colls.head?
  lastCollision : s.lastCollision = ref colls.getLast?
  length_eq : holes.length + i = names.length + colls.length

/-- The functions before `i` have been hashed. -/
def IsSpread (names : List Name) (i : ℕ) (s : Filling) : Prop :=
  ∃ prev next idx holes colls, Spread names i s prev next idx holes colls

theorem append_spec (h : Spread names i s prev next idx holes colls) (hi : i < names.length)
    (hle : names.length ≤ 2 ^ 15) :
    ∃ s' idx', s.append names.length i = some s' ∧ s'.table = s.table ∧ s'.back = s.back ∧
      s'.firstHole = s.firstHole ∧ (∀ j < i, (s'.hashIdx j).toInt = ref (idx' j)) ∧
      (∀ j ∉ colls, idx' j = idx j) ∧
      PtrPath (update idx' i none) (colls ++ [i]).head? (colls ++ [i]) ∧
      s'.firstCollision = ref (colls ++ [i]).head? ∧ s'.lastCollision = i := by
  have hpath : PtrPath (update idx i none) (some i) [i] := by
    refine .cons ?_
    rw [update_self]
    exact .nil
  rw [append, h.firstCollision]
  rcases eq_nil_or_concat colls with rfl | ⟨colls, last, rfl⟩
  · exact ⟨_, idx, if_pos rfl, rfl, rfl, rfl, h.idx_eq, fun _ _ ↦ rfl, hpath, rfl, rfl⟩
  · rw [concat_eq_append] at h ⊢
    have hlast : last < i := (h.collided last (by simp)).1
    have hne : ref (colls ++ [last]).head? ≠ -1 := by simp
    have hi' : i ∉ colls ++ [last] := fun hmem ↦ (h.collided i hmem).1.false
    have hcons := (h.path.update (q := none) hi').redirect hpath (by simpa using hlast.ne)
    rw [if_neg hne, h.lastCollision, List.getLast?_concat, ref_some,
      inside_natCast (hlast.trans hi)]
    refine ⟨_, update idx last (some i), rfl, rfl, rfl, rfl, fun j hj ↦ ?_, fun j hj ↦ ?_,
      ?_, ?_, rfl⟩
    · by_cases hjl : j = last
      · rw [hjl, update_self]
        exact (congrArg BitVec.toInt (s.setHashIdx_self last i)).trans
          (toInt_toShort (hi.trans_le hle))
      · rw [update_of_ne hjl, ← h.idx_eq j hj]
        exact congrArg BitVec.toInt (s.setHashIdx_of_ne i hjl)
    · exact update_of_ne (fun hjl ↦ hj (by simp [hjl])) ..
    · rw [update_comm hlast.ne]
      simpa using hcons
    · have hfirst := h.firstCollision
      simpa [setHashIdx] using hfirst

theorem collide_spec {name : Name} (h : Spread names i s prev next idx holes colls)
    (hname : names[i]? = some name) (hle : names.length ≤ 2 ^ 15)
    (htaken : (s.table (ptrHash name names.length)).name ≠ none) :
    ∃ s', s.collide names.length i = some s' ∧ IsSpread names (i + 1) s' := by
  have hi : i < names.length := (List.getElem?_eq_some_iff.1 hname).1
  have hi' : i ∉ colls := fun hmem ↦ (h.collided i hmem).1.false
  obtain ⟨s₁, idx₁, hs₁, htable, hback, hfirst, hidx, hother, hpath, hcoll, hlast⟩ :=
    append_spec h hi hle
  rw [collide, hs₁]
  refine ⟨_, rfl, prev, next, update idx₁ i none, holes, colls ++ [i], ?_⟩
  have hkept : (s₁.setHashIdx i (-1)).table = s.table := htable
  refine ⟨⟨h.links.linked, h.links.nodup, h.links.lt_size, ?_, ?_, hfirst.trans h.links.firstHole⟩,
    ?_, ⟨fun j hj hmem ↦ ?_, fun p hp hocc ↦ ?_⟩, ?_, fun j hj ↦ ?_, fun j hmem ↦ ?_, hpath, hcoll,
    ?_, ?_⟩
  · rw [hkept]
    exact h.links.next_eq
  · rw [show (s₁.setHashIdx i (-1)).back = s₁.back from rfl, hback]
    exact h.links.back_eq
  · rw [hkept]
    exact h.mem_holes
  · rw [hkept]
    rw [mem_append, mem_singleton, not_or] at hmem
    obtain ⟨p, hp, hp'⟩ := h.holds.placed j (by omega) hmem.1
    rw [update_of_ne hmem.2, hother j hmem.1]
    exact ⟨p, hp, hp'⟩
  · rw [hkept] at hocc
    obtain ⟨j, hj, hmem, hjp⟩ := h.holds.occupied p hp hocc
    refine ⟨j, by omega, by simp [hmem, hj.ne], ?_⟩
    rw [update_of_ne hj.ne, hother j hmem, hjp]
  · rw [hkept]
    exact h.alone
  · by_cases hji : j = i
    · simp [setHashIdx, hji]
    · rw [update_of_ne hji, ← hidx j (by omega)]
      exact congrArg BitVec.toInt (update_of_ne hji ..)
  · rw [hkept]
    rcases mem_append.1 hmem with hmem | hmem
    · obtain ⟨hj, hj'⟩ := h.collided j hmem
      exact ⟨by omega, hj'⟩
    · obtain rfl := mem_singleton.1 hmem
      refine ⟨Nat.lt_succ_self j, fun name' hname' ↦ ?_⟩
      obtain rfl := Option.some.inj (hname.symm.trans hname')
      exact htaken
  · rw [List.getLast?_concat]
    exact hlast
  · have := h.length_eq
    rw [length_append, length_singleton]
    omega

theorem settle_spec {name : Name} (h : Spread names i s prev next idx holes colls)
    (hname : names[i]? = some name) (hle : names.length ≤ 2 ^ 15)
    (hfree : (s.table (ptrHash name names.length)).name = none) :
    ∃ s₁, s.unlinkHole names.length (ptrHash name names.length) = some s₁ ∧
      IsSpread names (i + 1) ((s₁.setEntry (ptrHash name names.length)
        ⟨some name, toShort (-1), toShort i⟩).setHashIdx i (ptrHash name names.length)) := by
  have hi : i < names.length := (List.getElem?_eq_some_iff.1 hname).1
  have hi' : i ∉ colls := fun hmem ↦ (h.collided i hmem).1.false
  have hslot : ptrHash name names.length < names.length := ptrHash_lt name (by omega)
  generalize hprobe : ptrHash name names.length = probe at *
  obtain ⟨l, l', rfl⟩ := append_of_mem ((h.mem_holes probe hslot).2 hfree)
  obtain ⟨s₁, hs₁, hun, hlinks⟩ := unlinkHole_spec h.links
  have hnot : probe ∉ l ++ l' := by
    have hnodup := h.links.nodup
    rw [nodup_middle, nodup_cons] at hnodup
    exact hnodup.1
  refine ⟨s₁, hs₁, unlinkPrev prev next probe,
    update (unlinkNext prev next probe) probe none,
    update idx i (some probe), l ++ l', colls, ?_⟩
  generalize hs₂ : (s₁.setEntry probe ⟨some name, toShort (-1), toShort i⟩).setHashIdx i probe = s₂
  have hself : s₂.table probe = ⟨some name, toShort (-1), toShort i⟩ := by
    rw [← hs₂]
    exact update_self ..
  have hother {p : ℕ} (hp : p ≠ probe) : s₂.table p = s₁.table p := by
    rw [← hs₂]
    exact update_of_ne hp ..
  have hnames {p : ℕ} (hp : p ≠ probe) : (s₂.table p).name = (s.table p).name := by
    rw [hother hp, hun.name]
  have hidx : s₂.hashIdx = update s.hashIdx i (toShort probe) := by
    rw [← hs₂, ← hun.hashIdx]
    rfl
  have hrest : s₂.back = s₁.back ∧ s₂.firstHole = s₁.firstHole ∧
      s₂.firstCollision = s.firstCollision ∧ s₂.lastCollision = s.lastCollision := by
    rw [← hs₂, ← hun.firstCollision, ← hun.lastCollision]
    exact ⟨rfl, rfl, rfl, rfl⟩
  clear hs₂
  refine ⟨⟨Segment.updateNext hlinks.linked hnot, hlinks.nodup, hlinks.lt_size, fun p hp ↦ ?_,
    fun p hp ↦ ?_, ?_⟩, fun p hp ↦ ?_, ⟨fun j hj hmem ↦ ?_, fun p hp hocc ↦ ?_⟩,
    fun p hp name' hname' ↦ ?_, fun j hj ↦ ?_, fun j hmem ↦ ?_, h.path.update hi', ?_, ?_, ?_⟩
  · by_cases hpp : p = probe
    · simp [hpp, hself]
    · rw [hother hpp, update_of_ne hpp, hlinks.next_eq p hp]
  · rw [hrest.1, hlinks.back_eq p hp]
  · rw [hrest.2.1, hlinks.firstHole]
  · by_cases hpp : p = probe
    · subst hpp
      simp [hself, hnot]
    · rw [hnames hpp, ← h.mem_holes p hp]
      simp [hpp]
  · rcases Nat.lt_succ_iff_lt_or_eq.1 hj with hj | rfl
    · obtain ⟨p, hp, hjp, hpname, hpidx⟩ := h.holds.placed j hj hmem
      have hpp : p ≠ probe := by
        rintro rfl
        rw [hfree] at hpname
        exact absurd hpname.symm (by simp [hj.trans hi])
      refine ⟨p, hp, ?_, ?_, ?_⟩
      · rw [update_of_ne hj.ne, hjp]
      · rw [hnames hpp, hpname]
      · rw [hother hpp, hun.funcIndex, hpidx]
    · refine ⟨probe, hslot, update_self .., ?_, ?_⟩
      · rw [hself, hname]
      · rw [hself, toInt_toShort (hi.trans_le hle)]
  · by_cases hpp : p = probe
    · exact ⟨i, Nat.lt_succ_self i, hi', by rw [hpp, update_self]⟩
    · rw [hnames hpp] at hocc
      obtain ⟨j, hj, hmem, hjp⟩ := h.holds.occupied p hp hocc
      exact ⟨j, by omega, hmem, by rw [update_of_ne hj.ne, hjp]⟩
  · by_cases hpp : p = probe
    · subst hpp
      rw [hself] at hname'
      obtain rfl := Option.some.inj hname'
      exact ⟨update_self .., hprobe⟩
    · rw [hnames hpp] at hname'
      obtain ⟨hnext, hslot'⟩ := h.alone p hp name' hname'
      have hp' : p ∉ l := fun hmem ↦ by
        rw [(h.mem_holes p hp).1 (by simp [hmem])] at hname'
        cases hname'
      refine ⟨?_, hslot'⟩
      rw [update_of_ne hpp, unlinkNext, h.links.linked.prev_eq]
      cases hl : l.getLast? with
      | none => exact hnext
      | some b =>
        refine (update_of_ne ?_ ..).trans hnext
        rintro rfl
        exact hp' (mem_of_getLast? hl)
  · rw [hidx]
    rcases Nat.lt_succ_iff_lt_or_eq.1 hj with hj | rfl
    · rw [update_of_ne hj.ne, update_of_ne hj.ne, h.idx_eq j hj]
    · rw [update_self, update_self, ref_some, toInt_toShort (hslot.trans_le hle)]
  · obtain ⟨hj, hj'⟩ := h.collided j hmem
    refine ⟨by omega, fun name' hname' ↦ ?_⟩
    by_cases hpp : ptrHash name' names.length = probe
    · simp [hpp, hself]
    · rw [hnames hpp]
      exact hj' name' hname'
  · rw [hrest.2.2.1, h.firstCollision]
  · rw [hrest.2.2.2, h.lastCollision]
  · have hlen := h.length_eq
    rw [length_append, length_cons] at hlen
    rw [length_append]
    omega

theorem hashOne_spec {name : Name} (h : IsSpread names i s) (hname : names[i]? = some name)
    (hle : names.length ≤ 2 ^ 15) :
    ∃ s', s.hashOne names.length i name = some s' ∧ IsSpread names (i + 1) s' := by
  obtain ⟨prev, next, idx, holes, colls, h⟩ := h
  rw [hashOne]
  split
  next hfree =>
    obtain ⟨s₁, hs₁, h'⟩ := settle_spec h hname hle hfree
    exact ⟨_, by rw [hs₁]; rfl, h'⟩
  next htaken => exact collide_spec h hname hle htaken

/-- **The first pass**, by induction on the functions that are left. -/
theorem hashAll_spec (before : List Name) {after : List Name}
    (hle : (before ++ after).length ≤ 2 ^ 15) (h : IsSpread (before ++ after) before.length s) :
    ∃ s', s.hashAll (before ++ after).length before.length after = some s' ∧
      IsSpread (before ++ after) (before ++ after).length s' := by
  induction after generalizing before s with
  | nil => exact ⟨s, rfl, by simpa using h⟩
  | cons name after ih =>
    have hname : (before ++ name :: after)[before.length]? = some name := by simp
    obtain ⟨s₁, hs₁, h₁⟩ := hashOne_spec h hname hle
    have happ : before ++ name :: after = (before ++ [name]) ++ after := by simp
    have hlen : before.length + 1 = (before ++ [name]).length := by simp
    rw [hashAll, hs₁, happ, hlen]
    rw [happ, hlen] at h₁
    rw [happ] at hle
    exact ih _ hle h₁

end Filling

end Lpmud.Functions
