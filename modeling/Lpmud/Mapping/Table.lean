import Lpmud.Mapping.Operations
import Mathlib.Algebra.Order.Group.Nat
import Mathlib.Data.List.Nodup

/-!
# The tables of mappings

What a table keeps: every pair is in the bucket of its hash value, which is that of its key, and the
number of pairs is right up to the size of a `short` (`Shape`), and no key is there twice (`Table`).
Adding a key and extending a table are followed here, for keys of every kind
(`Shape.getMapLvalue_new`, `Table.getMapLvalue_new`).
-/

namespace Lpmud.Mapping

open List

/-- The keys of a mapping. -/
def keys (m : Mapping) : List Svalue :=
  m.stored.map Apair.arg

/-- What a pair is found by. -/
def index (p : Apair) : Svalue × BitVec 16 :=
  (p.arg, p.hashval)

/-- What a table keeps, while it is being extended too, whatever its keys are. -/
structure Shape (m : Mapping) : Prop where
  size : ∃ k ≤ 13, m.size = 2 ^ k
  mcard : m.mcard = fsize m.size
  placed : m.pairs.Placed (fun p ↦ slot m.size p.hashval) m.size
  hash : ∀ p ∈ m.stored, p.hashval = hashsvalue p.arg
  card : m.card = short m.stored.length

/-- What a table keeps if no key is added that is there. -/
structure Table (m : Mapping) : Prop extends Shape m where
  nodup : m.keys.Nodup

variable {w : World} {m m' : Mapping} {k v : Svalue}

theorem length_keys (m : Mapping) : m.keys.length = m.stored.length :=
  length_map _

theorem short_eq {n : ℕ} (h : n ≤ 32767) : short n = n :=
  Int.bmod_eq_of_le (by omega) (by omega)

theorem short_add_one (n : ℕ) : short (short n + 1) = short (n + 1 : ℕ) := by
  rw [short, short, short, Int.bmod_add_bmod]
  rfl

theorem slot_lt {size : ℕ} (h : 0 < size) (h16 : BitVec 16) : slot size h16 < size := by
  have := Nat.and_le_right (n := h16.toNat) (m := size - 1)
  rw [slot]
  omega

theorem Shape.size_pos (h : m.Shape) : 0 < m.size := by
  obtain ⟨k, -, hk⟩ := h.size
  rw [hk]
  exact Nat.two_pow_pos k

theorem Shape.size_le (h : m.Shape) (hs : m.size * 2 ≤ MAX_MAPPING_SIZE) : m.size ≤ 2048 := by
  obtain ⟨k, -, hk⟩ := h.size
  rw [hk] at hs ⊢
  have hk' : k < 12 := (Nat.pow_lt_pow_iff_right (a := 2) (by decide)).1 (by
    simp only [MAX_MAPPING_SIZE] at hs
    omega)
  exact Nat.pow_le_pow_right (by decide) (Nat.le_of_lt_succ hk')

theorem Shape.mcard_le (h : m.Shape) : m.mcard ≤ 20480 := by
  obtain ⟨k, hk, hsize⟩ := h.size
  have : 2 ^ k ≤ 2 ^ 13 := Nat.pow_le_pow_right (by decide) hk
  rw [h.mcard, hsize, fsize]
  simp only [FILL_FACTOR]
  omega

/-! ### Adding a pair -/

theorem stored_allocateMap (msize : ℤ) : (allocateMap msize).stored = [] :=
  Buckets.elems_empty _

theorem keys_allocateMap (msize : ℤ) : (allocateMap msize).keys = [] :=
  congrArg (List.map Apair.arg) (stored_allocateMap msize)

theorem allocateMap_table (msize : ℤ) : (allocateMap msize).Table := by
  have hsize (n : ℕ) : ∀ j u, j ≤ 13 → ∃ i ≤ 13, sizeLoop n (2 ^ j) u = 2 ^ i := by
    induction n with
    | zero => exact fun j _ hj ↦ ⟨j, hj, rfl⟩
    | succ n ih =>
      intro j u hj
      rw [sizeLoop]
      split
      next h =>
        have hlt : j < 13 := (Nat.pow_lt_pow_iff_right (a := 2) (by decide)).1
          (h.2.trans_le (by decide))
        rw [Nat.shiftLeft_eq, Nat.pow_one, ← Nat.pow_succ]
        exact ih (j + 1) _ hlt
      next => exact ⟨j, hj, rfl⟩
  refine ⟨⟨hsize 32 0 _ (Nat.zero_le _), rfl, Buckets.placed_empty, fun p hp ↦ ?_, ?_⟩, ?_⟩
  · rw [stored_allocateMap] at hp
    exact absurd hp not_mem_nil
  · rw [stored_allocateMap]
    rfl
  · rw [keys_allocateMap]
    exact nodup_nil

theorem Shape.stored_newpair (h : m.Shape) (k v : Svalue) (h16 : BitVec 16) :
    (m.newpair k v h16).stored.Perm (⟨k, v, h16⟩ :: m.stored) := by
  change (m.pairs.add (fun p ↦ slot m.size p.hashval) ⟨k, v, h16⟩ |>.elems m.size).Perm _
  exact Buckets.elems_add (slot_lt h.size_pos h16)

theorem Shape.newpair (h : m.Shape) (k v : Svalue) : (m.newpair k v (hashsvalue k)).Shape := by
  have hperm := h.stored_newpair k v (hashsvalue k)
  refine ⟨h.size, h.mcard, h.placed.add (slot_lt h.size_pos _), fun p hp ↦ ?_, ?_⟩
  · rcases mem_cons.1 (hperm.mem_iff.1 hp) with rfl | hp
    · rfl
    · exact h.hash p hp
  · rw [hperm.length_eq, length_cons, ← short_add_one, ← h.card]
    rfl

theorem fsize_lt {n : ℕ} (h : 0 < n) : fsize n < fsize (n * 2) := by
  simp only [fsize, FILL_FACTOR]
  omega

theorem Shape.rehashMap (h : m.Shape) :
    m.rehashMap = .error m ∧ MAX_MAPPING_SIZE < m.size * 2 ∨
      ∃ m', m.rehashMap = .ok m' ∧ m'.Shape ∧ m'.stored.Perm m.stored ∧ m.size ≤ 2048 ∧
        m'.size = m.size * 2 := by
  rw [Mapping.rehashMap]
  by_cases hs : m.size * 2 > MAX_MAPPING_SIZE
  · exact .inl ⟨if_pos hs, hs⟩
  right
  have hle := h.size_le (Nat.not_lt.1 hs)
  have hslot (p : Apair) : slot (m.size * 2) p.hashval < m.size * 2 :=
    slot_lt (Nat.mul_pos h.size_pos (by decide)) _
  have hperm : ((m.stored.foldl (Buckets.add fun p ↦ slot (m.size * 2) p.hashval)
      Buckets.empty).elems (m.size * 2)).Perm (m.stored ++ Buckets.elems .empty (m.size * 2)) :=
    Buckets.elems_foldl_add m.stored fun p _ ↦ hslot p
  rw [Buckets.elems_empty, append_nil] at hperm
  refine ⟨_, if_neg hs, ⟨?_, rfl, ?_, fun p hp ↦ ?_, ?_⟩, hperm, hle, rfl⟩
  · obtain ⟨k, -, hk⟩ := h.size
    have hk' : k < 12 := (Nat.pow_lt_pow_iff_right (a := 2) (by decide)).1
      (by rw [← hk]; exact hle.trans_lt (by decide))
    exact ⟨k + 1, by omega, by rw [hk, Nat.pow_succ]⟩
  · exact Buckets.placed_empty.foldl_add m.stored fun p _ ↦ hslot p
  · exact h.hash p (hperm.mem_iff.1 hp)
  · exact h.card.trans (congrArg (fun n : ℕ ↦ short n) hperm.length_eq.symm)

theorem findPair_eq_none {h16 : BitVec 16} {f : Svalue → Svalue} : ∀ {ps : List Apair},
    (∀ p ∈ ps, equalSvalue w k p.arg = false) → findPair w h16 k f ps = none := by
  intro ps
  induction ps with
  | nil => exact fun _ ↦ rfl
  | cons p ps ih =>
    intro hps
    rw [findPair, hps p mem_cons_self, Bool.and_false, if_neg Bool.false_ne_true,
      ih fun q hq ↦ hps q (mem_cons_of_mem p hq)]
    rfl

/-- A key with the value `v` has been added to a table. -/
structure Grown (m : Mapping) (k v : Svalue) (m' : Mapping) : Prop where
  shape : m'.Shape
  stored : m'.stored.Perm (⟨k, v, hashsvalue k⟩ :: m.stored)
  size : (short (m.stored.length + 1 : ℕ) ≤ m.mcard ∧ m'.size = m.size) ∨
    (m.mcard < short (m.stored.length + 1 : ℕ) ∧ m.size ≤ 2048 ∧ m'.size = m.size * 2)

/-- A key that is not there has been added. -/
structure Added (m : Mapping) (k v : Svalue) (m' : Mapping) : Prop where
  table : m'.Table
  stored : m'.stored.Perm (⟨k, v, hashsvalue k⟩ :: m.stored)
  size : (short (m.stored.length + 1 : ℕ) ≤ m.mcard ∧ m'.size = m.size) ∨
    (m.mcard < short (m.stored.length + 1 : ℕ) ∧ m.size ≤ 2048 ∧ m'.size = m.size * 2)

/-- **A key that is not found** is added, or leaves a table behind that is too large. -/
theorem Shape.getMapLvalue_new (h : m.Shape) {f : Svalue → Svalue}
    (hfind : findPair w (hashsvalue k) k f (m.pairs (slot m.size (hashsvalue k))) = none) :
    (∃ m', m.getMapLvalue w k f = .error m' ∧ m'.Shape ∧
        m'.stored.Perm (⟨k, const0, hashsvalue k⟩ :: m.stored) ∧ m'.size = m.size ∧
        2048 < m.size ∧ m.mcard < short (m.stored.length + 1 : ℕ)) ∨
      ∃ m', m.getMapLvalue w k f = .ok m' ∧ Grown m k (f const0) m' := by
  have hshape₀ := h.newpair k const0
  have hshape := h.newpair k (f const0)
  have hstored₀ := h.stored_newpair k const0 (hashsvalue k)
  have hstored := h.stored_newpair k (f const0) (hashsvalue k)
  have hcard : (m.newpair k const0 (hashsvalue k)).card = short (m.stored.length + 1 : ℕ) := by
    rw [hshape₀.card, hstored₀.length_eq, length_cons]
  rw [getMapLvalue, hfind]
  dsimp only
  by_cases hover : (m.newpair k const0 (hashsvalue k)).card > m.mcard
  · rw [if_pos hover]
    rw [hcard] at hover
    rcases hshape₀.rehashMap with ⟨herr, hmax⟩ | ⟨m₀, hok, -⟩
    · left
      change MAX_MAPPING_SIZE < m.size * 2 at hmax
      refine ⟨_, by rw [herr]; rfl, hshape₀, hstored₀, rfl, ?_, hover⟩
      simp only [MAX_MAPPING_SIZE] at hmax
      omega
    · right
      rcases hshape.rehashMap with ⟨-, hmax⟩ | ⟨m', hok', hshape', hperm, hle, hsize⟩
      · rw [Mapping.rehashMap, if_pos (by exact hmax)] at hok
        cases hok
      · exact ⟨m', by rw [hok]; exact hok', hshape', hperm.trans hstored,
          .inr ⟨hover, hle, hsize⟩⟩
  · right
    rw [if_neg hover]
    rw [hcard] at hover
    exact ⟨_, rfl, hshape, hstored, .inl ⟨not_lt.1 hover, rfl⟩⟩

theorem Table.of_perm (h : m.Table) (hk : k ∉ m.keys) (hm' : m'.Shape)
    (hperm : m'.stored.Perm (⟨k, v, hashsvalue k⟩ :: m.stored)) : m'.Table :=
  have hkeys : m'.keys.Perm (k :: m.keys) := hperm.map Apair.arg
  ⟨hm', hkeys.nodup_iff.2 (nodup_cons.2 ⟨hk, h.nodup⟩)⟩

/-- **A key that is not there and not found** is added, or leaves a table behind that is too
large. -/
theorem Table.getMapLvalue_new (h : m.Table) (hk : k ∉ m.keys) {f : Svalue → Svalue}
    (hfind : findPair w (hashsvalue k) k f (m.pairs (slot m.size (hashsvalue k))) = none) :
    (∃ m', m.getMapLvalue w k f = .error m' ∧ m'.Table ∧
        m'.stored.Perm (⟨k, const0, hashsvalue k⟩ :: m.stored) ∧ m'.size = m.size ∧
        2048 < m.size ∧ m.mcard < short (m.stored.length + 1 : ℕ)) ∨
      ∃ m', m.getMapLvalue w k f = .ok m' ∧ Added m k (f const0) m' := by
  rcases h.toShape.getMapLvalue_new hfind with ⟨m', herr, hshape, hperm, hrest⟩ | ⟨m', hok, hgrown⟩
  · exact .inl ⟨m', herr, h.of_perm hk hshape hperm, hperm, hrest⟩
  · exact .inr ⟨m', hok, h.of_perm hk hgrown.shape hgrown.stored, hgrown.stored, hgrown.size⟩

/-! ### What can get into a table -/

theorem bind_eq_ok {r : Except Mapping Mapping} {f : Mapping → Except Mapping Mapping}
    (h : r.bind f = .ok m') : ∃ m, r = .ok m ∧ f m = .ok m' := by
  cases r with
  | error m => cases h
  | ok m => exact ⟨m, rfl, h⟩

theorem mem_findPair {h16 : BitVec 16} {f : Svalue → Svalue} : ∀ {ps ps' : List Apair},
    findPair w h16 k f ps = some ps' →
    ∀ p ∈ ps', ∃ q ∈ ps, q.arg = p.arg ∧ (p.val = f q.val ∨ p.val = q.val) := by
  intro ps
  induction ps with
  | nil => exact fun h ↦ nomatch h
  | cons q ps ih =>
    intro ps' h p hp
    rw [findPair] at h
    split at h
    next =>
      cases h
      rcases mem_cons.1 hp with rfl | hp
      · exact ⟨q, mem_cons_self, rfl, .inl rfl⟩
      · exact ⟨p, mem_cons_of_mem q hp, rfl, .inr rfl⟩
    next =>
      obtain ⟨ps'', hps'', rfl⟩ := Option.map_eq_some_iff.1 h
      rcases mem_cons.1 hp with rfl | hp
      · exact ⟨p, mem_cons_self, rfl, .inr rfl⟩
      · obtain ⟨q', hq', hkeep⟩ := ih hps'' p hp
        exact ⟨q', mem_cons_of_mem q hq', hkeep⟩

theorem mem_newpair {h16 : BitVec 16} {p : Apair} (hp : p ∈ (m.newpair k v h16).stored) :
    p = ⟨k, v, h16⟩ ∨ p ∈ m.stored := by
  obtain ⟨i, hi, hp⟩ := Buckets.mem_elems.1 hp
  change p ∈ m.pairs.add (fun p ↦ slot m.size p.hashval) ⟨k, v, h16⟩ i at hp
  exact (Buckets.mem_add hp).imp_right fun hp ↦ Buckets.mem_elems.2 ⟨i, hi, hp⟩

theorem mem_assign (h : m.assign w k v = .ok m') {p : Apair} (hp : p ∈ m'.stored) :
    (p.arg = k ∨ ∃ q ∈ m.stored, q.arg = p.arg) ∧ (p.val = v ∨ ∃ q ∈ m.stored, q.val = p.val) := by
  have hnew (hp : p ∈ (m.newpair k v (hashsvalue k)).stored) :
      (p.arg = k ∨ ∃ q ∈ m.stored, q.arg = p.arg) ∧
        (p.val = v ∨ ∃ q ∈ m.stored, q.val = p.val) := by
    rcases mem_newpair hp with rfl | hp
    · exact ⟨.inl rfl, .inl rfl⟩
    · exact ⟨.inr ⟨p, hp, rfl⟩, .inr ⟨p, hp, rfl⟩⟩
  rw [assign, getMapLvalue] at h
  split at h
  next ps hps =>
    cases h
    obtain ⟨i, hi, hp⟩ := Buckets.mem_elems.1 hp
    rcases Buckets.mem_update hp with ⟨rfl, hmem⟩ | hp
    · obtain ⟨q, hq, harg, hval⟩ := mem_findPair hps p hmem
      have hq' : q ∈ m.stored := Buckets.mem_elems.2 ⟨_, hi, hq⟩
      exact ⟨.inr ⟨q, hq', harg⟩, hval.imp_right fun h ↦ ⟨q, hq', h.symm⟩⟩
    · have hp' : p ∈ m.stored := Buckets.mem_elems.2 ⟨i, hi, hp⟩
      exact ⟨.inr ⟨p, hp', rfl⟩, .inr ⟨p, hp', rfl⟩⟩
  next =>
    split at h
    next =>
      obtain ⟨m₀, -, h⟩ := bind_eq_ok h
      rw [Mapping.rehashMap] at h
      split at h
      next => cases h
      next =>
        cases h
        obtain ⟨i, -, hp⟩ := Buckets.mem_elems.1 hp
        rcases Buckets.mem_foldl_add _ hp with hp | hp
        · exact hnew hp
        · exact absurd hp not_mem_nil
    next =>
      cases h
      exact hnew hp

end Lpmud.Mapping
