import Lpmud.Lib.TransitionSystem
import Lpmud.Mapping.Representation

/-!
# Equal keys

Whether `equal_svalue` and `hashsvalue` fit together, and what that means for a mapping that is used
while objects are destructed. A mapping is used with the keys of a set `K`: values are assigned to
them, `check_for_destr` is called on the mapping by some efun, and the world ages, which destructs
objects and makes functions illegal.

What the keys amount to is their `keyId`: the same value, or the same address, with 0.0 and -0.0
taken for one. Keys that last (`Svalue.Lasting`) are equal if and only if their `keyId`s are,
whatever the world is, and everything is as it should be. With any other key it is not
(`keyCoherence_iff`):

* a float that is not a number is not equal to itself,
* a destructed object is equal to 0, but has another hash value,
* a function that cannot be called is equal to 0 but 0 is not equal to it: `equal_svalue` makes the
  test for it twice, in the same order.
-/

namespace Lpmud

open List

/-! ### Keys that last -/

/-- A value that stands for 0: a destructed object, or a function that cannot be called
(`check_for_destr`). -/
def World.dead (w : World) : Svalue → Bool
  | .object ob => w.destructed ob
  | .function f => !w.legalClosure f
  | _ => false

/-- A world that is older has fewer objects, and fewer functions that can be called. -/
structure World.Older (w' w : World) : Prop where
  destructed : ∀ ob, w.destructed ob = true → w'.destructed ob = true
  legalClosure : ∀ f, w'.legalClosure f = true → w.legalClosure f = true

/-- A key that stays the key that it is. -/
structure Svalue.Lasting (w : World) (k : Svalue) : Prop where
  dead : w.dead k = false
  isNaN : ∀ x, k = .float x → x.isNaN = false

/-- What a key amounts to. -/
inductive KeyId where
  | number (n : BitVec 32)
  | float (x : CFloat)
  | string (s : CString)
  | object (ob : Obj)
  | pointer (vec : Addr)
  | mapping (map : Addr)
  | function (func : Addr)
  deriving DecidableEq

/-- The value or the address of a key. -/
def Svalue.keyId : Svalue → KeyId
  | .number n => .number n
  | .float x => .float (if x.isZero then 0 else x)
  | .string s => .string s
  | .object ob => .object ob
  | .pointer vec _ => .pointer vec
  | .mapping map _ => .mapping map
  | .function func => .function func

theorem CFloat.eq_iff {x y : CFloat} (hx : x.isNaN = false) (hy : y.isNaN = false) :
    x.eq y = true ↔ (if x.isZero then 0 else x) = if y.isZero then 0 else y := by
  have hzero : CFloat.isZero 0 = true := rfl
  simp only [CFloat.eq, hx, hy, Bool.not_false, Bool.true_and, Bool.or_eq_true, beq_iff_eq,
    Bool.and_eq_true]
  by_cases hxz : x.isZero = true <;> by_cases hyz : y.isZero = true <;>
    simp only [hxz, hyz, if_true, Bool.false_eq_true, if_false]
  · simp
  · refine iff_of_false ?_ ?_
    · rintro (rfl | ⟨-, h⟩)
      exacts [hyz hxz, h]
    · rintro rfl
      exact hyz hzero
  · refine iff_of_false ?_ ?_
    · rintro (rfl | ⟨h, -⟩)
      exacts [hxz hyz, h]
    · rintro rfl
      exact hxz hzero
  · simp

theorem CFloat.truncate_of_isZero {x : CFloat} (hx : x.isZero = true) : x.truncate 16 = 0 := by
  have hmask : x.truncate 16 = (x &&& 0x7fffffff).truncate 16 := by
    rw [BitVec.truncate_eq_setWidth, BitVec.truncate_eq_setWidth, BitVec.setWidth_and]
    exact BitVec.and_allOnes.symm
  rw [hmask, beq_iff_eq.1 hx]
  rfl

theorem CFloat.truncate_congr {x y : CFloat}
    (h : (if x.isZero then 0 else x) = if y.isZero then 0 else y) :
    x.truncate 16 = y.truncate 16 := by
  have hnorm (z : CFloat) : z.truncate 16 = (if z.isZero then 0 else z).truncate 16 := by
    split
    case isTrue hz => exact CFloat.truncate_of_isZero hz
    case isFalse => rfl
  rw [hnorm x, h, ← hnorm y]

variable {w w' : World} {a b k : Svalue}

/-- **Equality of lasting keys.** -/
theorem equalSvalue_iff_keyId (ha : a.Lasting w) (hb : b.Lasting w) :
    equalSvalue w a b = true ↔ a.keyId = b.keyId := by
  obtain ⟨hadead, hanan⟩ := ha
  obtain ⟨hbdead, hbnan⟩ := hb
  cases a <;> cases b <;> simp_all [equalSvalue, Svalue.keyId, World.dead, CFloat.eq_iff]

theorem hashsvalue_of_keyId (h : a.keyId = b.keyId) : hashsvalue a = hashsvalue b := by
  cases a <;> cases b <;> simp only [Svalue.keyId, reduceCtorEq, KeyId.number.injEq,
    KeyId.float.injEq, KeyId.string.injEq, KeyId.object.injEq, KeyId.pointer.injEq,
    KeyId.mapping.injEq, KeyId.function.injEq] at h
  case float.float x y => exact CFloat.truncate_congr h
  case function.function => rfl
  all_goals simp only [hashsvalue, h]

theorem World.Older.lasting (hw : w'.Older w) (hk : k.Lasting w') : k.Lasting w := by
  refine ⟨Bool.eq_false_iff.2 fun h ↦ ?_, hk.isNaN⟩
  have hdead := hk.dead
  cases k with
  | object ob => exact Bool.eq_false_iff.1 hdead (hw.destructed ob h)
  | function f =>
    have hlegal := hw.legalClosure f (by simpa [World.dead] using hdead)
    simp [World.dead, hlegal] at h
  | _ => cases h

/-! ### Looking up and the rest of a run -/

/-- What is asked of `equal_svalue` and `hashsvalue` on the values of a set. -/
structure EqualLaws (w : World) (K : Set Svalue) : Prop where
  refl : ∀ a ∈ K, equalSvalue w a a = true
  symm : ∀ a ∈ K, ∀ b ∈ K, equalSvalue w a b = true → equalSvalue w b a = true
  trans : ∀ a ∈ K, ∀ b ∈ K, ∀ c ∈ K, equalSvalue w a b = true → equalSvalue w b c = true →
    equalSvalue w a c = true
  hash : ∀ a ∈ K, ∀ b ∈ K, equalSvalue w a b = true → hashsvalue a = hashsvalue b

theorem EqualLaws.of_lasting {K : Set Svalue} (hK : ∀ k ∈ K, k.Lasting w) : EqualLaws w K where
  refl a ha := (equalSvalue_iff_keyId (hK a ha) (hK a ha)).2 rfl
  symm a ha b hb h := (equalSvalue_iff_keyId (hK b hb) (hK a ha)).2
    ((equalSvalue_iff_keyId (hK a ha) (hK b hb)).1 h).symm
  trans a ha b hb c hc hab hbc := (equalSvalue_iff_keyId (hK a ha) (hK c hc)).2
    (((equalSvalue_iff_keyId (hK a ha) (hK b hb)).1 hab).trans
      ((equalSvalue_iff_keyId (hK b hb) (hK c hc)).1 hbc))
  hash a ha b hb h := hashsvalue_of_keyId ((equalSvalue_iff_keyId (hK a ha) (hK b hb)).1 h)

namespace Mapping

/-- `get_map_lvalue` for a caller that does not want a pair to be made. -/
def lookup (w : World) (m : Mapping) (k : Svalue) : Svalue :=
  let h16 := hashsvalue k
  let h := slot m.size h16
  match (m.pairs h).find? fun p ↦ p.hashval = h16 && equalSvalue w k p.arg with
  | some p => p.val
  | none => const0

/-- `check_for_destr` for a mapping: values that stand for 0 are set to 0, and pairs with such keys
are taken out. -/
def checkForDestr (w : World) (m : Mapping) : Mapping :=
  { m with
    pairs := fun i ↦ ((m.pairs i).map fun p ↦
      if w.dead p.val then { p with val := const0 } else p).filter fun p ↦ !w.dead p.arg
    card := short (m.card - (m.stored.countP fun p ↦ w.dead p.arg)) }

/-- A mapping in use: the world, the mapping, and the values that have been assigned, each with the
key that it is under. -/
structure Use where
  world : World
  map : Mapping
  contents : List (Svalue × Svalue)

/-- What an assignment means: the value replaces those under equal keys, if there are such keys. -/
def put (w : World) (contents : List (Svalue × Svalue)) (k v : Svalue) : List (Svalue × Svalue) :=
  if contents.any fun p ↦ equalSvalue w k p.1 then
    contents.map fun p ↦ if equalSvalue w k p.1 then (p.1, v) else p
  else (k, v) :: contents

/-- An assignment. If it raises an error, the key is there all the same, with the value 0. -/
def Use.assign (s : Use) (k v : Svalue) : Use :=
  match s.map.assign s.world k v with
  | .ok m => { s with map := m, contents := put s.world s.contents k v }
  | .error m => { s with map := m, contents := put s.world s.contents k const0 }

/-- A value that stands for 0 becomes 0. -/
def Use.checkForDestr (s : Use) : Use :=
  { s with
    map := s.map.checkForDestr s.world
    contents := s.contents.map fun p ↦ if s.world.dead p.2 then (p.1, const0) else p }

/-- What happens while a mapping is in use. -/
inductive UseOp where
  | assign (k v : Svalue)
  | checkForDestr
  | age (w : World)

/-- The uses of a mapping with the keys `K`. A key that is a string is not changed where it is, as
`str2val` may change it. -/
def uses (K : Set Svalue) : TransitionSystem Use UseOp where
  Init s := ∃ msize, s.map = allocateMap msize ∧ s.contents = []
  Step s op s' :=
    match op with
    | .assign k v => k ∈ K ∧ s' = s.assign k v
    | .checkForDestr => s' = s.checkForDestr
    | .age w => w.Older s.world ∧ s' = { s with world := w }

/-- **Key equality is coherent with hashing**, in the world `w` and for the keys `K`: it is an
equivalence that respects the hash values, and in every run up to this world, a value stored under
a key is found by every equal key. -/
structure KeyCoherence (w : World) (K : Set Svalue) : Prop extends EqualLaws w K where
  found : ∀ s, (uses K).Reachable s → s.world = w → ∀ p ∈ s.contents, ∀ k ∈ K,
    equalSvalue w k p.1 = true → s.map.lookup w k = p.2

/-! ### Mappings with lasting keys -/

variable {m m' : Mapping} {v : Svalue}

/-- The test that `get_map_lvalue` makes on the pairs of a chain. -/
theorem found_iff (hk : k.Lasting w) {p : Apair} (hp : p.arg.Lasting w)
    (hhash : p.hashval = hashsvalue p.arg) :
    (p.hashval = hashsvalue k && equalSvalue w k p.arg) = true ↔ k.keyId = p.arg.keyId := by
  rw [Bool.and_eq_true, decide_eq_true_eq, equalSvalue_iff_keyId hk hp, and_iff_right_iff_imp]
  exact fun h ↦ hhash.trans (hashsvalue_of_keyId h).symm

/-- The pair with a key gets another value. -/
def setVal (id : KeyId) (f : Svalue → Svalue) (p : Apair) : Apair :=
  if id = p.arg.keyId then { p with val := f p.val } else p

theorem map_setVal_of_forall_ne {id : KeyId} {f : Svalue → Svalue} {ps : List Apair}
    (hps : ∀ p ∈ ps, id ≠ p.arg.keyId) : ps.map (setVal id f) = ps :=
  (map_congr_left fun p hp ↦ if_neg (hps p hp)).trans ps.map_id

theorem findPair_of_mem (hk : k.Lasting w) (f : Svalue → Svalue) {ps : List Apair}
    (hps : ∀ p ∈ ps, p.arg.Lasting w ∧ p.hashval = hashsvalue p.arg)
    (hnodup : (ps.map fun p ↦ p.arg.keyId).Nodup) (hmem : ∃ p ∈ ps, k.keyId = p.arg.keyId) :
    findPair w (hashsvalue k) k f ps = some (ps.map (setVal k.keyId f)) := by
  induction ps with
  | nil => simp at hmem
  | cons p ps ih =>
    obtain ⟨hp, hhash⟩ := hps p mem_cons_self
    obtain ⟨hnot, hnodup⟩ := nodup_cons.1 hnodup
    rw [findPair, map_cons, setVal]
    by_cases hid : k.keyId = p.arg.keyId
    · rw [if_pos ((found_iff hk hp hhash).2 hid), if_pos hid, map_setVal_of_forall_ne]
      exact fun q hq hid' ↦ hnot (mem_map.2 ⟨q, hq, hid'.symm.trans hid⟩)
    · rw [if_neg (mt (found_iff hk hp hhash).1 hid), if_neg hid,
        ih (fun q hq ↦ hps q (mem_cons_of_mem p hq)) hnodup]
      · rfl
      · obtain ⟨q, hq, hq'⟩ := hmem
        exact ⟨q, (mem_cons.1 hq).resolve_left (by rintro rfl; exact hid hq'), hq'⟩

/-- The mapping `m` has lasting keys from `K`, each once. -/
structure HasKeys (w : World) (K : Set Svalue) (m : Mapping) : Prop where
  inv : m.Inv
  mem : ∀ p ∈ m.stored, p.arg ∈ K
  nodup : (m.stored.map fun p ↦ p.arg.keyId).Nodup
  lasting : ∀ k ∈ K, k.Lasting w

namespace HasKeys

variable {K : Set Svalue}

theorem mem_stored (hm : HasKeys w K m) {i : ℕ} {p : Apair} (hi : i < m.size) (hp : p ∈ m.pairs i) :
    p ∈ m.stored ∧ p.arg.Lasting w ∧ p.hashval = hashsvalue p.arg ∧ slot m.size p.hashval = i := by
  have hmem : p ∈ m.stored := Buckets.mem_elems.2 ⟨i, hi, hp⟩
  exact ⟨hmem, hm.lasting _ (hm.mem p hmem), hm.inv.hash p hmem, hm.inv.placed i hi p hp⟩

theorem mem_chain (hm : HasKeys w K m) {p : Apair} (hp : p ∈ m.stored)
    (hid : k.keyId = p.arg.keyId) : p ∈ m.pairs (slot m.size (hashsvalue k)) := by
  obtain ⟨i, hi, hp⟩ := Buckets.mem_elems.1 hp
  obtain ⟨-, -, hhash, hslot⟩ := hm.mem_stored hi hp
  rwa [hashsvalue_of_keyId hid, ← hhash, hslot]

theorem nodup_chain (hm : HasKeys w K m) {i : ℕ} (hi : i < m.size) :
    ((m.pairs i).map fun p ↦ p.arg.keyId).Nodup := by
  obtain ⟨rest, hperm, -⟩ := m.pairs.exists_elems hi
  have := (hperm.map fun p ↦ p.arg.keyId).nodup_iff.1 hm.nodup
  rw [map_append] at this
  exact (nodup_append.1 this).1

/-- **What is stored under a key is found** by every equal key. -/
theorem lookup_eq (hm : HasKeys w K m) (hk : k ∈ K) {p : Apair} (hp : p ∈ m.stored)
    (hid : k.keyId = p.arg.keyId) : m.lookup w k = p.val := by
  have hslot := slot_lt hm.inv.size_pos (hashsvalue k)
  have hchain := hm.mem_chain hp hid
  have hfound : ∀ q ∈ m.pairs (slot m.size (hashsvalue k)),
      (q.hashval = hashsvalue k && equalSvalue w k q.arg) = true ↔ k.keyId = q.arg.keyId :=
    fun q hq ↦ by
      obtain ⟨-, hlast, hhash, -⟩ := hm.mem_stored hslot hq
      exact found_iff (hm.lasting k hk) hlast hhash
  rw [lookup]
  split
  case h_1 q hq =>
    have hmem := mem_of_find?_eq_some hq
    have hpred := List.find?_some hq
    have hidq := (hfound q hmem).1 hpred
    have heq : q = p := inj_on_of_nodup_map hm.nodup (hm.mem_stored hslot hmem).1 hp
      (hidq.symm.trans hid)
    rw [heq]
  case h_2 hnone => exact absurd ((hfound p hchain).2 hid) (List.find?_eq_none.1 hnone p hchain)

theorem setVal_arg (id : KeyId) (f : Svalue → Svalue) (p : Apair) :
    (setVal id f p).arg = p.arg ∧ (setVal id f p).hashval = p.hashval := by
  rw [setVal]
  split <;> exact ⟨rfl, rfl⟩

theorem of_map (hm : HasKeys w K m) {f : Apair → Apair} (hf : ∀ p, (f p).arg = p.arg)
    (hinv : m'.Inv) (hstored : m'.stored = m.stored.map f) : HasKeys w K m' where
  inv := hinv
  mem p hp := by
    rw [hstored] at hp
    obtain ⟨q, hq, rfl⟩ := mem_map.1 hp
    rw [hf]
    exact hm.mem q hq
  nodup := by
    rw [hstored, map_map]
    simpa only [Function.comp_def, hf] using hm.nodup
  lasting := hm.lasting

/-- **Assigning to a key that is there** changes the value of its pair. -/
theorem assign_old (hm : HasKeys w K m) (hk : k ∈ K)
    (hold : ∃ p ∈ m.stored, k.keyId = p.arg.keyId) :
    ∃ m', m.assign w k v = .ok m' ∧ HasKeys w K m' ∧
      m'.stored = m.stored.map (setVal k.keyId fun _ ↦ v) := by
  have hslot := slot_lt hm.inv.size_pos (hashsvalue k)
  obtain ⟨p, hp, hid⟩ := hold
  have hfind := findPair_of_mem (hm.lasting k hk) (fun _ ↦ v)
    (fun q hq ↦ (hm.mem_stored hslot hq).2.imp_right And.left) (hm.nodup_chain hslot)
    ⟨p, hm.mem_chain hp hid, hid⟩
  have hindex : ((m.pairs (slot m.size (hashsvalue k))).map (setVal k.keyId fun _ ↦ v)).map index =
      (m.pairs (slot m.size (hashsvalue k))).map index := by
    rw [map_map]
    exact map_congr_left fun q _ ↦ Prod.ext (setVal_arg ..).1 (setVal_arg ..).2
  obtain ⟨hinv, -⟩ := hm.inv.exchange hslot hindex
  refine ⟨_, by rw [assign, getMapLvalue, hfind], ?_⟩
  have hstored : (Mapping.mk m.size m.card m.mcard
      (Function.update m.pairs (slot m.size (hashsvalue k))
        ((m.pairs (slot m.size (hashsvalue k))).map (setVal k.keyId fun _ ↦ v)))).stored =
      m.stored.map (setVal k.keyId fun _ ↦ v) := by
    rw [stored, stored, Buckets.elems, Buckets.elems, map_flatMap]
    refine flatMap_congr fun i hi ↦ ?_
    dsimp only
    rcases eq_or_ne i (slot m.size (hashsvalue k)) with rfl | hne
    · rw [Function.update_self]
    · -- the other chains do not have the key
      rw [Function.update_of_ne hne, map_setVal_of_forall_ne]
      intro q hq hidq
      obtain ⟨-, -, hhash, hslotq⟩ := hm.mem_stored (mem_range.1 hi) hq
      rw [hhash, ← hashsvalue_of_keyId hidq] at hslotq
      exact hne hslotq.symm
  exact ⟨hm.of_map (fun p ↦ (setVal_arg _ _ p).1) hinv hstored, hstored⟩

/-- **Assigning to a key that is not there** adds a pair, with the value 0 if it raises an error. -/
theorem assign_new (hm : HasKeys w K m) (hk : k ∈ K)
    (hnew : ∀ p ∈ m.stored, k.keyId ≠ p.arg.keyId) :
    ∃ m' v', (m.assign w k v = .error m' ∧ v' = const0 ∨ m.assign w k v = .ok m' ∧ v' = v) ∧
      HasKeys w K m' ∧ m'.stored.Perm (⟨k, v', hashsvalue k⟩ :: m.stored) := by
  have hslot := slot_lt hm.inv.size_pos (hashsvalue k)
  have hkeys : k ∉ m.keys := fun hmem ↦ by
    obtain ⟨p, hp, rfl⟩ := mem_map.1 hmem
    exact hnew p hp rfl
  have hfind : findPair w (hashsvalue k) k (fun _ ↦ v) (m.pairs (slot m.size (hashsvalue k))) =
      none := findPair_eq_none fun p hp ↦ by
    obtain ⟨hmem, hlast, -⟩ := hm.mem_stored hslot hp
    exact Bool.eq_false_iff.2 (mt (equalSvalue_iff_keyId (hm.lasting k hk) hlast).1 (hnew p hmem))
  obtain ⟨m', v', hinv, hperm, hres⟩ := hm.inv.add hkeys hfind
  refine ⟨m', v', hres.imp_right fun h ↦ ⟨h.1, h.2.1⟩, ⟨hinv, fun p hp ↦ ?_, ?_, hm.lasting⟩, hperm⟩
  · rcases mem_cons.1 (hperm.mem_iff.1 hp) with rfl | hp
    · exact hk
    · exact hm.mem p hp
  · refine (hperm.map fun p ↦ p.arg.keyId).nodup_iff.2 (nodup_cons.2 ⟨fun hmem ↦ ?_, hm.nodup⟩)
    obtain ⟨p, hp, hid⟩ := mem_map.1 hmem
    exact hnew p hp hid.symm

/-- No pair is taken out by `check_for_destr`. -/
theorem checkForDestr (hm : HasKeys w K m) : HasKeys w K (m.checkForDestr w) ∧
    (m.checkForDestr w).stored =
      m.stored.map fun p ↦ if w.dead p.val then { p with val := const0 } else p := by
  have harg : ∀ p : Apair, (if w.dead p.val then { p with val := const0 } else p).arg = p.arg ∧
      (if w.dead p.val then { p with val := const0 } else p).hashval = p.hashval := fun p ↦ by
    split <;> exact ⟨rfl, rfl⟩
  have hpairs : ∀ i < m.size, (m.checkForDestr w).pairs i =
      (m.pairs i).map fun p ↦ if w.dead p.val then { p with val := const0 } else p := by
    intro i hi
    refine filter_eq_self.2 fun p hp ↦ ?_
    obtain ⟨q, hq, rfl⟩ := mem_map.1 hp
    rw [(harg q).1, (hm.mem_stored hi hq).2.1.dead]
    rfl
  have hstored : (m.checkForDestr w).stored =
      m.stored.map fun p ↦ if w.dead p.val then { p with val := const0 } else p := by
    rw [stored, stored, Buckets.elems, Buckets.elems, map_flatMap]
    exact flatMap_congr fun i hi ↦ hpairs i (mem_range.1 hi)
  have hcard : (m.checkForDestr w).card = m.card := by
    have hnone : m.stored.countP (fun p ↦ w.dead p.arg) = 0 :=
      countP_eq_zero.2 fun p hp ↦ by simp [(hm.lasting _ (hm.mem p hp)).dead]
    rw [Mapping.checkForDestr, hnone, hm.inv.card, Int.natCast_zero, Int.sub_zero, short, short,
      Int.bmod_bmod]
  obtain ⟨hinv, -⟩ := hm.inv.of_perm (m.checkForDestr w) rfl rfl hcard fun i hi ↦ by
    rw [hpairs i hi, map_map]
    exact List.Perm.of_eq (map_congr_left fun p _ ↦ Prod.ext (harg p).1 (harg p).2)
  exact ⟨hm.of_map (fun p ↦ (harg p).1) hinv hstored, hstored⟩

end HasKeys

/-! ### Whole runs -/

/-- The mapping has the values that have been assigned. -/
structure UseInv (K : Set Svalue) (s : Use) : Prop where
  keys : HasKeys s.world K s.map
  contents : (entries s.map.stored).Perm s.contents

namespace UseInv

variable {K : Set Svalue} {s : Use}

theorem exists_stored (hs : UseInv K s) {p : Svalue × Svalue} (hp : p ∈ s.contents) :
    ∃ q ∈ s.map.stored, q.arg = p.1 ∧ q.val = p.2 ∧ p.1.Lasting s.world := by
  obtain ⟨q, hq, rfl⟩ := mem_map.1 (hs.contents.mem_iff.2 hp)
  exact ⟨q, hq, rfl, rfl, hs.keys.lasting _ (hs.keys.mem q hq)⟩

theorem assign (hs : UseInv K s) (hk : k ∈ K) : UseInv K (s.assign k v) := by
  have hkl := hs.keys.lasting k hk
  have hequal : ∀ p ∈ s.contents, equalSvalue s.world k p.1 = true ↔ k.keyId = p.1.keyId :=
    fun p hp ↦ by
      obtain ⟨q, -, -, -, hl⟩ := hs.exists_stored hp
      exact equalSvalue_iff_keyId hkl hl
  by_cases hold : ∃ p ∈ s.map.stored, k.keyId = p.arg.keyId
  · obtain ⟨m', hok, hkeys, hstored⟩ := hs.keys.assign_old (v := v) hk hold
    have hany : (s.contents.any fun p ↦ equalSvalue s.world k p.1) = true := by
      obtain ⟨p, hp, hid⟩ := hold
      have hmem := hs.contents.mem_iff.1 (mem_map_of_mem (f := fun p ↦ (p.arg, p.val)) hp)
      exact any_eq_true.2 ⟨_, hmem, (hequal _ hmem).2 hid⟩
    rw [Use.assign, hok]
    refine ⟨hkeys, ?_⟩
    have hput : put s.world s.contents k v =
        s.contents.map fun p ↦ if k.keyId = p.1.keyId then (p.1, v) else p := by
      rw [put, if_pos hany]
      exact map_congr_left fun p hp ↦ if_congr (hequal p hp) rfl rfl
    have hentries : entries m'.stored =
        (entries s.map.stored).map fun p ↦ if k.keyId = p.1.keyId then (p.1, v) else p := by
      rw [hstored, entries, entries, map_map, map_map]
      refine map_congr_left fun p _ ↦ ?_
      simp only [Function.comp_apply, setVal]
      split <;> rfl
    rw [hput, hentries]
    exact hs.contents.map _
  · have hnew : ∀ p ∈ s.map.stored, k.keyId ≠ p.arg.keyId := fun p hp hid ↦ hold ⟨p, hp, hid⟩
    obtain ⟨m', v', hres, hkeys, hperm⟩ := hs.keys.assign_new (v := v) hk hnew
    have hnone : (s.contents.any fun p ↦ equalSvalue s.world k p.1) = false := by
      refine any_eq_false.2 fun p hp hequalp ↦ ?_
      obtain ⟨q, hq, harg, -⟩ := hs.exists_stored hp
      exact hnew q hq (harg ▸ (hequal p hp).1 hequalp)
    have hcontents : (entries m'.stored).Perm (put s.world s.contents k v') := by
      rw [put, hnone]
      exact (hperm.map _).trans (hs.contents.cons _)
    rw [Use.assign]
    rcases hres with ⟨herr, rfl⟩ | ⟨hok, rfl⟩
    · rw [herr]
      exact ⟨hkeys, hcontents⟩
    · rw [hok]
      exact ⟨hkeys, hcontents⟩

theorem checkForDestr (hs : UseInv K s) : UseInv K s.checkForDestr := by
  obtain ⟨hkeys, hstored⟩ := hs.keys.checkForDestr
  have hentries : entries (s.map.checkForDestr s.world).stored =
      (entries s.map.stored).map fun p ↦ if s.world.dead p.2 then (p.1, const0) else p := by
    rw [hstored, entries, entries, map_map, map_map]
    refine map_congr_left fun p _ ↦ ?_
    simp only [Function.comp_apply]
    split <;> rfl
  refine ⟨hkeys, ?_⟩
  change (entries (s.map.checkForDestr s.world).stored).Perm _
  rw [hentries]
  exact hs.contents.map _

end UseInv

theorem assign_world (s : Use) (k v : Svalue) : (s.assign k v).world = s.world := by
  rw [Use.assign]
  split <;> rfl

theorem useInv_of_reachable {K : Set Svalue} {s : Use} (hs : (uses K).Reachable s)
    (hK : ∀ k ∈ K, k.Lasting s.world) : UseInv K s := by
  induction hs with
  | init hinit =>
    obtain ⟨msize, hmap, hcontents⟩ := hinit
    have hstored := stored_allocateMap msize
    rw [← hmap] at hstored
    refine ⟨⟨hmap ▸ allocateMap_inv msize, fun p hp ↦ ?_, ?_, hK⟩, ?_⟩
    · rw [hstored] at hp
      exact absurd hp not_mem_nil
    · rw [hstored]
      exact nodup_nil
    · rw [hstored, hcontents]
      exact .nil
  | @step s s' op hs _ hst ih =>
    cases op with
    | assign k v =>
      obtain ⟨hk, rfl⟩ := hst
      rw [assign_world] at hK
      exact (ih hK).assign hk
    | checkForDestr =>
      obtain rfl := hst
      exact (ih hK).checkForDestr
    | age w =>
      obtain ⟨hold, rfl⟩ := hst
      have hinv := ih fun k hk ↦ hold.lasting (hK k hk)
      exact ⟨{ hinv.keys with lasting := hK }, hinv.contents⟩

/-- **Lasting keys are coherent.** -/
theorem KeyCoherence.of_lasting {K : Set Svalue} (hK : ∀ k ∈ K, k.Lasting w) :
    KeyCoherence w K where
  toEqualLaws := .of_lasting hK
  found s hs hw p hp k hk hequal := by
    subst hw
    have hinv := useInv_of_reachable hs hK
    obtain ⟨q, hq, harg, hval, hl⟩ := hinv.exists_stored hp
    have hid := (equalSvalue_iff_keyId (hK k hk) hl).1 hequal
    rw [hinv.keys.lookup_eq hk hq (hid.trans (congrArg Svalue.keyId harg).symm), hval]

/-- A mapping that has had one key, which stands for 0, after `check_for_destr`. -/
theorem lookup_dead (hdead : w.dead k = true) (v : Svalue) :
    ∃ m, (allocateMap 0).assign w k v = .ok m ∧ (m.checkForDestr w).lookup w k = const0 := by
  refine ⟨(allocateMap 0).newpair k v (hashsvalue k), rfl, ?_⟩
  have hpairs : ∀ i, (((allocateMap 0).newpair k v (hashsvalue k)).checkForDestr w).pairs i =
      [] := by
    intro i
    refine filter_eq_nil_iff.2 fun p hp ↦ ?_
    obtain ⟨q, hq, rfl⟩ := mem_map.1 hp
    change q ∈ (allocateMap 0).pairs.add (fun p ↦ slot (allocateMap 0).size p.hashval)
      ⟨k, v, hashsvalue k⟩ i at hq
    obtain rfl | hq := Buckets.mem_add hq
    case inr => exact absurd hq not_mem_nil
    dsimp only
    split <;> simp [hdead]
  rw [lookup, hpairs]
  rfl

/-- **Key equality is coherent with hashing exactly for lasting keys**: no key may be a float that
is not a number, a destructed object, or a function that cannot be called. -/
theorem keyCoherence_iff (w : World) (K : Set Svalue) :
    KeyCoherence w K ↔ ∀ k ∈ K, k.Lasting w := by
  refine ⟨fun h k hk ↦ ⟨?_, ?_⟩, .of_lasting⟩
  · rw [Bool.eq_false_iff]
    intro hdead
    obtain ⟨m, hm, hlookup⟩ := lookup_dead hdead (.number 1)
    -- the key is given the value 1, and `check_for_destr` takes it out
    have hinit : (uses K).Reachable ⟨w, allocateMap 0, []⟩ := .init ⟨0, rfl, rfl⟩
    have hassign : (uses K).Reachable ⟨w, m, [(k, .number 1)]⟩ := by
      refine hinit.step (a := .assign k (.number 1)) ⟨hk, ?_⟩
      rw [Use.assign, hm]
      rfl
    have hcheck : (uses K).Reachable (Use.checkForDestr ⟨w, m, [(k, .number 1)]⟩) :=
      hassign.step (a := .checkForDestr) rfl
    have hfound := h.found _ hcheck rfl (k, .number 1) mem_cons_self k hk (h.refl k hk)
    cases hlookup.symm.trans hfound
  · rintro x rfl
    have hrefl := h.refl _ hk
    rw [Bool.eq_false_iff]
    intro hnan
    simp [equalSvalue, CFloat.eq, hnan] at hrefl

/-- The function at the address 16, whose owner has been destructed, is equal to 0, but 0 is not
equal to it. -/
theorem not_keyCoherence : ¬∀ w K, KeyCoherence w K := by
  intro h
  have hsymm := (h ⟨fun ob ↦ ob == 32, fun f ↦ f != 16⟩ {.function 16, .number 0}).symm
    (.function 16) (.inl rfl) (.number 0) (.inr rfl) rfl
  cases hsymm

end Mapping

end Lpmud
