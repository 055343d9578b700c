import Lpmud.Lib.Buckets
import Lpmud.Svalue
import Mathlib.Data.List.Range
import Mathlib.Algebra.Group.Nat.Defs

/-!
# Mappings

The hash tables of `mapping.c`: the operations that build a mapping or change one.

The number of buckets and the number of pairs are `short`s. The number of buckets stays below
their limit, but the number of pairs (`card`) does not have to: a mapping is extended when `card`
exceeds `mcard`, and where the table would get too large `error` is raised only after the new pair
has been put in. What an operation leaves behind then is its result on the error side.
-/

namespace Lpmud

/-- An integer as a `short`. -/
def short (i : ℤ) : ℤ :=
  i.bmod (2 ^ 16)

abbrev MAX_MAPPING_SIZE : ℕ := 5000
abbrev FILL_FACTOR : ℕ := 250

def fsize (s : ℕ) : ℕ :=
  s * FILL_FACTOR / 100

/-- A pair (`struct apair`). -/
structure Apair where
  arg : Svalue
  val : Svalue
  hashval : BitVec 16

/-- A mapping (`struct mapping`). -/
structure Mapping where
  size : ℕ
  card : ℤ
  mcard : ℕ
  pairs : Buckets Apair

/-- The bucket of a hash value, in a table of `size` buckets. -/
def slot (size : ℕ) (h16 : BitVec 16) : ℕ :=
  h16.toNat &&& (size - 1)

namespace Mapping

/-- The pairs of a mapping, in the order of the loops over a mapping. -/
def stored (m : Mapping) : List Apair :=
  m.pairs.elems m.size

/-- The loop of `allocate_map`. The `unsigned` that is shifted is gone after 32 rounds. -/
def sizeLoop : ℕ → ℕ → ℕ → ℕ
  | 0, size, _ => size
  | n + 1, size, u =>
    if u ≠ 0 ∧ size < MAX_MAPPING_SIZE then sizeLoop n (size <<< 1) (u >>> 1) else size

def allocateMap (msize : ℤ) : Mapping :=
  let size := sizeLoop 32 1 (BitVec.ofInt 32 ((msize * 100).tdiv FILL_FACTOR)).toNat
  { size := size, card := 0, mcard := fsize size, pairs := Buckets.empty }

/-- `rehash_map`, which does not return where the table would get too large. -/
def rehashMap (m : Mapping) : Except Mapping Mapping :=
  let nsize := m.size * 2
  if nsize > MAX_MAPPING_SIZE then .error m
  else .ok
    { m with
      size := nsize
      mcard := fsize nsize
      pairs := m.stored.foldl (Buckets.add fun p ↦ slot nsize p.hashval) Buckets.empty }

/-- The loop of `get_map_lvalue` along a chain. What the caller does to the value that it gets a
pointer to is `f`. -/
def findPair (w : World) (h16 : BitVec 16) (k : Svalue) (f : Svalue → Svalue) :
    List Apair → Option (List Apair)
  | [] => none
  | p :: ps =>
    if p.hashval = h16 && equalSvalue w k p.arg then some ({ p with val := f p.val } :: ps)
    else (findPair w h16 k f ps).map (p :: ·)

/-- A new pair in front of its chain. -/
def newpair (m : Mapping) (k v : Svalue) (h16 : BitVec 16) : Mapping :=
  { m with
    pairs := m.pairs.add (fun p ↦ slot m.size p.hashval) ⟨k, v, h16⟩
    card := short (m.card + 1) }

/-- `get_map_lvalue` for a caller that wants a pair to be there, and then does `f` to its value.
It does not get to that where the table is too large. -/
def getMapLvalue (w : World) (m : Mapping) (k : Svalue) (f : Svalue → Svalue) :
    Except Mapping Mapping :=
  let h16 := hashsvalue k
  let h := slot m.size h16
  match findPair w h16 k f (m.pairs h) with
  | some ps => .ok { m with pairs := Function.update m.pairs h ps }
  | none =>
    if (m.newpair k const0 h16).card > m.mcard then
      (m.newpair k const0 h16).rehashMap.bind fun _ ↦ (m.newpair k (f const0) h16).rehashMap
    else .ok (m.newpair k (f const0) h16)

/-- `assign_svalue(get_map_lvalue(m, k, 1), v)`. -/
def assign (w : World) (m : Mapping) (k v : Svalue) : Except Mapping Mapping :=
  m.getMapLvalue w k fun _ ↦ v

/-- A loop of assignments, for the pairs of a list. -/
def assignAll (w : World) : Mapping → List (Svalue × Svalue) → Except Mapping Mapping
  | m, [] => .ok m
  | m, (k, v) :: ps => (m.assign w k v).bind fun m' ↦ assignAll w m' ps

/-- The keys and values of a list of pairs. -/
def entries (ps : List Apair) : List (Svalue × Svalue) :=
  ps.map fun p ↦ (p.arg, p.val)

def makeMapping (w : World) : Option (List Svalue) → Option (List Svalue) → Except Mapping Mapping
  | some ind, some val => assignAll w (allocateMap (min ind.length val.length)) (ind.zip val)
  | some ind, none =>
    assignAll w (allocateMap ind.length) (ind.zipIdx.map fun (k, i) ↦ (k, .number (.ofNat 32 i)))
  | none, some val =>
    assignAll w (allocateMap val.length) (val.zipIdx.map fun (v, i) ↦ (.number (.ofNat 32 i), v))
  | none, none => .ok (allocateMap 0)

def addMapping (w : World) (m1 m2 : Mapping) : Except Mapping Mapping :=
  (assignAll w (allocateMap (short (m1.card + m2.card))) (entries m1.stored)).bind fun retm ↦
    assignAll w retm (entries m2.stored)

/-- `addto_mapping`, for two different mappings. -/
def addtoMapping (w : World) (m1 m2 : Mapping) : Except Mapping Mapping :=
  assignAll w m1 (entries m2.stored)

/-- The loops of `addto_mapping` for a mapping that is added to itself: the chain `i` of the outer
loop, the chain `c` of the pair, which is another one if the table has been extended meanwhile, and
how many pairs are left of that, up to its end. A pair that finds itself is freed, and cleared by
that, before it is copied (`assign_svalue`). -/
def addtoItselfLoop (w : World) : ℕ → Mapping → ℕ → ℕ → ℕ → Except Mapping Mapping
  | 0, m, _, _, _ => .error m
  | n + 1, m, i, _, 0 =>
    if i + 1 < m.size then addtoItselfLoop w n m (i + 1) (i + 1) (m.pairs (i + 1)).length else .ok m
  | n + 1, m, i, c, r + 1 =>
    let before := (m.pairs c).take ((m.pairs c).length - (r + 1))
    match (m.pairs c).drop ((m.pairs c).length - (r + 1)) with
    | [] => .error m
    | p :: _ =>
      let found q := q.hashval = hashsvalue p.arg && equalSvalue w p.arg q.arg
      (m.assign w p.arg (if found p && !before.any found then const0 else p.val)).bind fun m' ↦
        if m'.size = m.size then addtoItselfLoop w n m' i c r
        else
          -- `rehash_map` turns the chains round, and the new pair was at the head of its chain
          let c' := slot m'.size p.hashval
          addtoItselfLoop w n m' i c' (before.countP (fun q ↦ slot m'.size q.hashval = c') + 1)

/-- `addto_mapping`, for a mapping and itself. The rounds are many more than the loops can take,
since a mapping only gets so many pairs. -/
def addtoItself (w : World) (m : Mapping) : Except Mapping Mapping :=
  addtoItselfLoop w (2 ^ 32 + (m.size + m.stored.length)) m 0 0 (m.pairs 0).length

/-- `remove_mapping`. Only the pairs in the bucket of the key are compared with it. -/
def removeMapping (w : World) (m : Mapping) (val : Svalue) : Except Mapping Mapping :=
  let h := slot m.size (hashsvalue val)
  assignAll w (allocateMap m.size) <| (List.range m.size).flatMap fun i ↦
    entries <| (m.pairs i).filter fun p ↦ !(h == i && equalSvalue w val p.arg)

/-- `copy_mapping`, which turns every chain round. -/
def copyMapping (m : Mapping) : Mapping :=
  { m with pairs := fun i ↦ (m.pairs i).foldl (fun ps p ↦ ⟨p.arg, p.val, p.hashval⟩ :: ps) [] }

/-- `map_map`. What the function returns for the `j`-th pair of bucket `i` is `call i j`. -/
def mapMap (m : Mapping) (call : ℕ → ℕ → Svalue → Svalue) : Mapping :=
  let r := m.copyMapping
  { r with pairs := fun i ↦ (r.pairs i).mapIdx fun j p ↦ { p with val := call i j p.val } }

/-- The inner loop of `filter_map`, from the `j`-th pair of a chain on: the pairs that the function
wants to keep, and the number of pairs that the mapping is said to have. -/
def filterChain (keep : ℕ → Svalue → Bool) : ℕ → ℤ → List Apair → List Apair × ℤ
  | _, card, [] => ([], card)
  | j, card, p :: ps =>
    if keep j p.val then
      let (ps', card') := filterChain keep (j + 1) card ps
      (p :: ps', card')
    else filterChain keep (j + 1) (short (card - 1)) ps

/-- The outer loop of `filter_map`, for one bucket. -/
def filterBucket (keep : ℕ → ℕ → Svalue → Bool) (r : Mapping) (i : ℕ) : Mapping :=
  let (ps, card) := filterChain (keep i) 0 r.card (r.pairs i)
  { r with pairs := Function.update r.pairs i ps, card := card }

/-- `filter_map`. Whether the function returns something else than 0 for the `j`-th pair of bucket
`i` is `keep i j`. -/
def filterMap (m : Mapping) (keep : ℕ → ℕ → Svalue → Bool) : Mapping :=
  let r := m.copyMapping
  (List.range r.size).foldl (filterBucket keep) r

end Mapping

end Lpmud
