import Lpmud.Mapping.Keys
import Mathlib.Data.List.Find

/-!
# Mappings with keys of every kind

What is left of the order in a mapping when its keys are of every kind: floats that are not numbers,
which are never found, and objects and functions that stand for 0 by now. A key is found if it is
equal to one with the same hash value (`Shape.found_eq`), and an assignment adds it otherwise
(`Filled.assign`). So no two keys that are alive are equal (`Sound`), in every run
(`sound_of_reachable`).
-/

namespace Lpmud.Mapping

open List

variable {w w' : World} {m m' : Mapping} {a b c k v : Svalue}

/-! ### Keys that are alive -/

theorem keyId_of_equalSvalue (ha : w.dead a = false) (hb : w.dead b = false)
    (h : equalSvalue w a b = true) : a.Lasting w ∧ b.Lasting w ∧ a.keyId = b.keyId := by
  have hlast : a.Lasting w ∧ b.Lasting w := by
    refine ⟨⟨ha, ?_⟩, hb, ?_⟩
    · rintro x rfl
      cases b <;> simp_all [equalSvalue, CFloat.eq]
    · rintro x rfl
      cases a <;> simp_all [equalSvalue, CFloat.eq]
  exact ⟨hlast.1, hlast.2, (equalSvalue_iff_keyId hlast.1 hlast.2).1 h⟩

theorem equalSvalue_symm (ha : w.dead a = false) (hb : w.dead b = false)
    (h : equalSvalue w a b = true) : equalSvalue w b a = true := by
  obtain ⟨hla, hlb, hid⟩ := keyId_of_equalSvalue ha hb h
  exact (equalSvalue_iff_keyId hlb hla).2 hid.symm

theorem equalSvalue_trans (ha : w.dead a = false) (hb : w.dead b = false) (hc : w.dead c = false)
    (hab : equalSvalue w a b = true) (hbc : equalSvalue w b c = true) :
    equalSvalue w a c = true := by
  obtain ⟨hla, -, hid⟩ := keyId_of_equalSvalue ha hb hab
  obtain ⟨-, hlc, hid'⟩ := keyId_of_equalSvalue hb hc hbc
  exact (equalSvalue_iff_keyId hla hlc).2 (hid.trans hid')

theorem hashsvalue_of_equalSvalue (ha : w.dead a = false) (hb : w.dead b = false)
    (h : equalSvalue w a b = true) : hashsvalue a = hashsvalue b :=
  hashsvalue_of_keyId (keyId_of_equalSvalue ha hb h).2.2

theorem equalSvalue_of_not_refl {k : Svalue} (hk : equalSvalue w k k = false) (v : Svalue) :
    equalSvalue w v k = false ∧ equalSvalue w k v = false := by
  cases k with
  | float x =>
    have hnan : x.isNaN = true := by simpa [equalSvalue, CFloat.eq] using hk
    cases v <;> simp [equalSvalue, CFloat.eq, hnan]
  | object ob => simp [equalSvalue] at hk
  | _ => simp [equalSvalue] at hk

theorem equalSvalue_of_older (hw : w'.Older w) (ha : w'.dead a = false) (hb : w'.dead b = false)
    (h : equalSvalue w' a b = true) : equalSvalue w a b = true := by
  obtain ⟨hla, hlb, hid⟩ := keyId_of_equalSvalue ha hb h
  exact (equalSvalue_iff_keyId (hw.lasting hla) (hw.lasting hlb)).2 hid

/-- No two keys that are alive are equal. -/
def Distinct (w : World) (ks : List Svalue) : Prop :=
  ks.Pairwise fun a b ↦ w.dead a = false → w.dead b = false → equalSvalue w a b = false

theorem Distinct.perm {ks ks' : List Svalue} (h : Distinct w ks) (hperm : ks.Perm ks') :
    Distinct w ks' := by
  refine (hperm.pairwise_iff fun {a b} hab hb ha ↦ ?_).1 h
  rw [Bool.eq_false_iff]
  intro hba
  have hequal := equalSvalue_symm hb ha hba
  rw [hab ha hb] at hequal
  cases hequal

theorem Distinct.older {ks : List Svalue} (h : Distinct w ks) (hw : w'.Older w) :
    Distinct w' ks := by
  refine List.Pairwise.imp (fun {a b} hab ha hb ↦ ?_) h
  have hdead {k : Svalue} (hk : w'.dead k = false) : w.dead k = false := by
    rw [Bool.eq_false_iff] at hk ⊢
    intro hdead
    cases k with
    | object ob => exact hk (hw.destructed ob hdead)
    | function f =>
      have hillegal : w.legalClosure f = false := by simpa [World.dead] using hdead
      refine hk ?_
      rw [World.dead, Bool.not_eq_true', Bool.eq_false_iff]
      intro hlegal
      rw [hw.legalClosure f hlegal] at hillegal
      cases hillegal
    | _ => cases hdead
  rw [Bool.eq_false_iff]
  intro hequal
  have hequal' := equalSvalue_of_older hw ha hb hequal
  rw [hab (hdead ha) (hdead hb)] at hequal'
  cases hequal'

/-! ### Changing values -/

theorem Shape.of_index (h : m.Shape) (m' : Mapping) (hsize : m'.size = m.size)
    (hmcard : m'.mcard = m.mcard) (hcard : m'.card = m.card)
    (hpairs : ∀ i < m.size, (m'.pairs i).map index = (m.pairs i).map index) :
    m'.Shape ∧ m'.stored.map index = m.stored.map index := by
  have hstored : m'.stored.map index = m.stored.map index := by
    rw [stored, stored, hsize, Buckets.elems, Buckets.elems, map_flatMap, map_flatMap]
    exact flatMap_congr fun i hi ↦ hpairs i (mem_range.1 hi)
  refine ⟨⟨hsize ▸ h.size, by rw [hmcard, hsize, h.mcard], fun i hi p hp ↦ ?_, fun p hp ↦ ?_, ?_⟩,
    hstored⟩
  · rw [hsize] at hi
    have hmem := mem_map_of_mem (f := index) hp
    rw [hpairs i hi] at hmem
    obtain ⟨q, hq, hindex⟩ := mem_map.1 hmem
    have hhash : q.hashval = p.hashval := congrArg Prod.snd hindex
    dsimp only
    rw [← hhash, hsize]
    exact h.placed i hi q hq
  · have hmem := mem_map_of_mem (f := index) hp
    rw [hstored] at hmem
    obtain ⟨q, hq, hindex⟩ := mem_map.1 hmem
    have hhash : q.hashval = p.hashval := congrArg Prod.snd hindex
    have harg : q.arg = p.arg := congrArg Prod.fst hindex
    rw [← hhash, ← harg]
    exact h.hash q hq
  · have hlen := congrArg List.length hstored
    rw [length_map, length_map] at hlen
    rw [hcard, hlen]
    exact h.card

theorem Shape.map (h : m.Shape) {f : Apair → Apair} (hf : ∀ p, index (f p) = index p)
    (hsize : m'.size = m.size) (hmcard : m'.mcard = m.mcard) (hcard : m'.card = m.card)
    (hpairs : ∀ i < m.size, m'.pairs i = (m.pairs i).map f) :
    m'.Shape ∧ m'.stored = m.stored.map f := by
  refine ⟨(h.of_index m' hsize hmcard hcard fun i hi ↦ ?_).1, ?_⟩
  · rw [hpairs i hi, map_map]
    exact map_congr_left fun p _ ↦ hf p
  · rw [stored, stored, hsize, Buckets.elems, Buckets.elems, map_flatMap]
    exact flatMap_congr fun i hi ↦ hpairs i (mem_range.1 hi)

/-! ### Finding a key -/

/-- Whether `get_map_lvalue` finds a key. -/
def found (w : World) (m : Mapping) (k : Svalue) : Bool :=
  (m.pairs (slot m.size (hashsvalue k))).any fun p ↦
    p.hashval = hashsvalue k && equalSvalue w k p.arg

/-- Whether a key has the hash value of another one and is equal to it. -/
def sameKey (w : World) (k e : Svalue) : Bool :=
  hashsvalue e = hashsvalue k && equalSvalue w k e

theorem Shape.find?_chain (h : m.Shape) (w : World) (k : Svalue) :
    ((m.pairs (slot m.size (hashsvalue k))).find? fun p ↦
      p.hashval = hashsvalue k && equalSvalue w k p.arg) =
        m.stored.find? fun p ↦ sameKey w k p.arg := by
  rw [← h.placed.find?_elems (slot_lt h.size_pos _) fun p hp ↦ by
    rw [of_decide_eq_true (Bool.and_eq_true_iff.1 hp).1]]
  exact find?_congr fun p hp ↦ by rw [sameKey, h.hash p hp]

/-- **A key is found** if there is one like it in the table. -/
theorem Shape.found_eq (h : m.Shape) (w : World) (k : Svalue) :
    m.found w k = m.keys.any (sameKey w k) := by
  rw [found, ← isSome_find?, h.find?_chain, isSome_find?, keys, any_map]
  rfl

theorem findPair_index {h16 : BitVec 16} {f : Svalue → Svalue} : ∀ {ps ps' : List Apair},
    findPair w h16 k f ps = some ps' → ps'.map index = ps.map index := by
  intro ps
  induction ps with
  | nil => exact fun h ↦ nomatch h
  | cons p ps ih =>
    intro ps' h
    rw [findPair] at h
    split at h
    next =>
      cases h
      rfl
    next =>
      obtain ⟨ps'', hps'', rfl⟩ := Option.map_eq_some_iff.1 h
      rw [map_cons, map_cons, ih hps'']

theorem findPair_isSome (w : World) (h16 : BitVec 16) (k : Svalue) (f : Svalue → Svalue)
    (ps : List Apair) :
    (findPair w h16 k f ps).isSome = ps.any fun p ↦ p.hashval = h16 && equalSvalue w k p.arg := by
  induction ps with
  | nil => rfl
  | cons p ps ih =>
    rw [findPair, any_cons]
    split
    next h => rw [h]; rfl
    next h => rw [Bool.eq_false_iff.2 h, Bool.false_or, Option.isSome_map, ih]

/-! ### Assignments -/

/-- A table that could be extended has not been filled. -/
structure Filled (m : Mapping) : Prop extends Shape m where
  fill : m.size ≤ 2048 → m.stored.length ≤ m.mcard

theorem filled_allocateMap (msize : ℤ) : (allocateMap msize).Filled :=
  ⟨(allocateMap_table msize).toShape, fun _ ↦ by
    rw [stored_allocateMap]
    exact Nat.zero_le _⟩

/-- **An assignment** finds the key, or adds it; the key is there too when an error is raised. -/
theorem Filled.assign (h : m.Filled) (w : World) (k v : Svalue) :
    (m.found w k = true ∧ ∃ m', m.assign w k v = .ok m' ∧ m'.Filled ∧ m'.keys = m.keys) ∨
    (m.found w k = false ∧ ∃ m', m.assign w k v = .ok m' ∧ m'.Filled ∧
      m'.keys.Perm (k :: m.keys)) ∨
    (m.found w k = false ∧ 10240 < short (m.stored.length + 1 : ℕ) ∧
      ∃ m', m.assign w k v = .error m' ∧ m'.Filled ∧ m'.keys.Perm (k :: m.keys)) := by
  have hsome := findPair_isSome w (hashsvalue k) k (fun _ ↦ v)
    (m.pairs (slot m.size (hashsvalue k)))
  change _ = m.found w k at hsome
  cases hfind : findPair w (hashsvalue k) k (fun _ ↦ v) (m.pairs (slot m.size (hashsvalue k))) with
  | some ps =>
    rw [hfind] at hsome
    obtain ⟨hshape, hindex⟩ := h.toShape.of_index
      { m with pairs := Function.update m.pairs (slot m.size (hashsvalue k)) ps }
      rfl rfl rfl fun i _ ↦ by
        dsimp only
        rcases eq_or_ne i (slot m.size (hashsvalue k)) with rfl | hne
        · rw [Function.update_self, findPair_index hfind]
        · rw [Function.update_of_ne hne]
    have hlen := congrArg List.length hindex
    rw [length_map, length_map] at hlen
    refine .inl ⟨hsome.symm, _, by rw [Mapping.assign, getMapLvalue, hfind],
      ⟨hshape, fun hle ↦ ?_⟩, ?_⟩
    · rw [hlen]
      exact h.fill hle
    · have harg := congrArg (List.map Prod.fst) hindex
      rwa [map_map, map_map] at harg
  | none =>
    rw [hfind] at hsome
    have hmcard := h.mcard
    right
    rcases h.toShape.getMapLvalue_new hfind with
      ⟨m', herr, hshape, hperm, hsize, hlarge, hover⟩ | ⟨m', hok, hgrown⟩
    · refine .inr ⟨hsome.symm, ?_, m', herr, ⟨hshape, fun hle ↦ by omega⟩, hperm.map _⟩
      obtain ⟨j, -, hj⟩ := h.size
      have hlt : 11 < j := (Nat.pow_lt_pow_iff_right (a := 2) (by decide)).1 (hj ▸ hlarge)
      have hle : 2 ^ 12 ≤ 2 ^ j := Nat.pow_le_pow_right (by decide) hlt
      rw [hmcard, hj, fsize] at hover
      simp only [FILL_FACTOR] at hover
      omega
    · refine .inl ⟨hsome.symm, m', hok, ⟨hgrown.shape, fun hle ↦ ?_⟩, hgrown.stored.map _⟩
      have hmcard' := hgrown.shape.mcard
      have hlen := hgrown.stored.length_eq
      rw [length_cons] at hlen
      rcases hgrown.size with ⟨hroom, hsize⟩ | ⟨-, hsmall, hsize⟩
      · have hfill := h.fill (hsize ▸ hle)
        have hmax := h.toShape.mcard_le
        rw [short_eq (by omega)] at hroom
        rw [hsize, ← hmcard] at hmcard'
        omega
      · have hfill := h.fill hsmall
        have hlt := fsize_lt h.size_pos
        rw [← hsize, ← hmcard, ← hmcard'] at hlt
        omega

/-! ### Sets of keys -/

/-- A key is added to the keys of a mapping, if none is like it. -/
def addKey (w : World) (ks : List Svalue) (k : Svalue) : List Svalue :=
  if ks.any (sameKey w k) then ks else k :: ks

theorem addKey_perm {ks ks' : List Svalue} (h : ks.Perm ks') (k : Svalue) :
    (addKey w ks k).Perm (addKey w ks' k) := by
  rw [addKey, addKey, h.any_eq]
  split
  · exact h
  · exact h.cons k

theorem foldl_addKey_perm (new : List Svalue) : ∀ {ks ks' : List Svalue}, ks.Perm ks' →
    (new.foldl (addKey w) ks).Perm (new.foldl (addKey w) ks') := by
  induction new with
  | nil => exact fun h ↦ h
  | cons k new ih => exact fun h ↦ ih (addKey_perm h k)

/-- **A loop of assignments to few keys** adds those that are not there. -/
theorem Filled.assignAll (ps : List (Svalue × Svalue)) : ∀ {m : Mapping}, m.Filled →
    m.stored.length + ps.length ≤ 10240 → ∃ m', Mapping.assignAll w m ps = .ok m' ∧ m'.Filled ∧
      m'.keys.Perm ((ps.map Prod.fst).foldl (addKey w) m.keys) ∧
      m'.stored.length ≤ m.stored.length + ps.length := by
  induction ps with
  | nil => exact fun h _ ↦ ⟨_, rfl, h, .refl _, le_rfl⟩
  | cons p ps ih =>
    intro m h hlen
    obtain ⟨k, v⟩ := p
    rw [length_cons] at hlen ⊢
    have hstep : ∃ m₁, m.assign w k v = .ok m₁ ∧ m₁.Filled ∧ m₁.keys.Perm (addKey w m.keys k) := by
      rcases h.assign w k v with ⟨hfound, m₁, hok, h₁, hkeys⟩ | ⟨hfound, m₁, hok, h₁, hkeys⟩ |
        ⟨-, hover, -⟩
      · rw [h.found_eq] at hfound
        rw [addKey, if_pos hfound]
        exact ⟨m₁, hok, h₁, .of_eq hkeys⟩
      · rw [h.found_eq] at hfound
        rw [addKey, if_neg (by simp [hfound])]
        exact ⟨m₁, hok, h₁, hkeys⟩
      · rw [short_eq (by omega)] at hover
        omega
    obtain ⟨m₁, hok, h₁, hkeys⟩ := hstep
    have hlen₁ : m₁.stored.length ≤ m.stored.length + 1 := by
      have hle := hkeys.length_eq
      rw [length_keys, addKey] at hle
      split at hle
      · rw [length_keys] at hle
        omega
      · rw [length_cons, length_keys] at hle
        omega
    obtain ⟨m', hok', h', hkeys', hlen'⟩ := ih h₁ (by omega)
    refine ⟨m', ?_, h', hkeys'.trans (foldl_addKey_perm _ hkeys), by omega⟩
    rw [Mapping.assignAll, hok]
    exact hok'

/-! ### Keys that are alive are distinct -/

/-- A mapping that has been made by assignments. -/
structure Sound (w : World) (m : Mapping) : Prop extends Filled m where
  distinct : Distinct w m.keys

theorem sound_allocateMap (w : World) (msize : ℤ) : Sound w (allocateMap msize) :=
  ⟨filled_allocateMap msize, by
    rw [keys_allocateMap]
    exact .nil⟩

theorem Sound.assign (h : Sound w m) (k v : Svalue) : Sound w (result (m.assign w k v)) := by
  have hnew (hfound : m.found w k = false) {ks : List Svalue} (hks : ks.Perm (k :: m.keys)) :
      Distinct w ks := by
    refine Distinct.perm (pairwise_cons.2 ⟨fun e he hk hdead ↦ ?_, h.distinct⟩) hks.symm
    rw [Bool.eq_false_iff]
    intro hequal
    rw [h.found_eq, any_eq_false] at hfound
    refine hfound e he ?_
    rw [sameKey, hequal, Bool.and_true, decide_eq_true_eq]
    exact (hashsvalue_of_equalSvalue hk hdead hequal).symm
  rcases h.toFilled.assign w k v with ⟨-, m', hok, h', hkeys⟩ | ⟨hfound, m', hok, h', hkeys⟩ |
    ⟨hfound, -, m', herr, h', hkeys⟩
  · rw [hok]
    exact ⟨h', hkeys ▸ h.distinct⟩
  · rw [hok]
    exact ⟨h', hnew hfound hkeys⟩
  · rw [herr]
    exact ⟨h', hnew hfound hkeys⟩

/-- The pairs that `check_for_destr` leaves. -/
theorem stored_checkForDestr (w : World) (m : Mapping) : (m.checkForDestr w).stored =
    (m.stored.map fun p ↦ if w.dead p.val then { p with val := const0 } else p).filter
      fun p ↦ !w.dead p.arg := by
  change (List.range m.size).flatMap _ = _
  rw [stored, Buckets.elems, map_flatMap, filter_flatMap]
  rfl

theorem Shape.checkForDestr (h : m.Shape) (w : World) : (m.checkForDestr w).Shape ∧
    (m.checkForDestr w).stored.length ≤ m.stored.length := by
  have harg (p : Apair) : (if w.dead p.val then { p with val := const0 } else p).arg = p.arg := by
    split <;> rfl
  have hhash (p : Apair) :
      (if w.dead p.val then { p with val := const0 } else p).hashval = p.hashval := by
    split <;> rfl
  have hlen : (m.checkForDestr w).stored.length +
      m.stored.countP (fun p ↦ w.dead p.arg) = m.stored.length := by
    rw [stored_checkForDestr, ← countP_eq_length_filter, countP_map, Nat.add_comm,
      length_eq_countP_add_countP (fun p ↦ w.dead p.arg)]
    congr 1
    refine countP_congr fun p _ ↦ ?_
    simp [harg]
  refine ⟨⟨h.size, h.mcard, fun i hi p hp ↦ ?_, fun p hp ↦ ?_, ?_⟩, by omega⟩
  · obtain ⟨q, hq, rfl⟩ := mem_map.1 (mem_filter.1 hp).1
    change slot m.size _ = i
    rw [hhash]
    exact h.placed i hi q hq
  · rw [stored_checkForDestr] at hp
    obtain ⟨q, hq, rfl⟩ := mem_map.1 (mem_filter.1 hp).1
    rw [hhash, harg]
    exact h.hash q hq
  · have hcard : (m.checkForDestr w).card =
        short (m.card - m.stored.countP fun p ↦ w.dead p.arg) := rfl
    rw [hcard, h.card, short, short, short, Int.bmod_sub_bmod]
    congr 1
    omega

/-- `check_for_destr` leaves the keys that are alive. -/
theorem Sound.checkForDestr (h : Sound w m) : Sound w (m.checkForDestr w) ∧
    ∀ k ∈ (m.checkForDestr w).keys, w.dead k = false := by
  obtain ⟨hshape, hlen⟩ := h.toShape.checkForDestr w
  have harg (p : Apair) : (if w.dead p.val then { p with val := const0 } else p).arg = p.arg := by
    split <;> rfl
  have hkeys : (m.checkForDestr w).keys = m.keys.filter fun k ↦ !w.dead k := by
    rw [keys, keys, stored_checkForDestr, filter_map, filter_map, map_map]
    refine congr (congrArg _ (funext harg)) (filter_congr fun p _ ↦ ?_)
    simp only [Function.comp_apply, harg]
  refine ⟨⟨⟨hshape, fun hle ↦ hlen.trans (h.fill hle)⟩, ?_⟩, fun k hk ↦ ?_⟩
  · rw [hkeys]
    exact h.distinct.filter _
  · rw [hkeys] at hk
    simpa using (mem_filter.1 hk).2

/-- **In every run**, no two keys of a mapping that are alive are equal. -/
theorem sound_of_reachable {K : Set Svalue} {s : Use} (hs : (uses K).Reachable s) :
    Sound s.world s.map := by
  refine hs.invariant (I := fun s ↦ Sound s.world s.map) ?_ ?_
  · rintro s ⟨msize, hmap, -⟩
    rw [hmap]
    exact sound_allocateMap s.world msize
  · intro s op s' h hst
    cases op with
    | assign k v =>
      obtain ⟨-, rfl⟩ := hst
      have hassign := h.assign k v
      rw [assign_world, Use.assign]
      cases hres : s.map.assign s.world k v <;> rwa [hres] at hassign
    | checkForDestr =>
      obtain rfl := hst
      exact h.checkForDestr.1
    | age w =>
      obtain ⟨hold, rfl⟩ := hst
      exact ⟨h.toFilled, h.distinct.older hold⟩

/-- A series of assignments. -/
def Use.assigns (s : Use) (ps : List (Svalue × Svalue)) : Use :=
  ps.foldl (fun s p ↦ s.assign p.1 p.2) s

theorem reachable_assigns (ps : List (Svalue × Svalue)) : ∀ {s : Use},
    (uses Set.univ).Reachable s → (uses Set.univ).Reachable (s.assigns ps) := by
  induction ps with
  | nil => exact fun h ↦ h
  | cons p ps ih =>
    intro s h
    exact ih (h.step (show (uses Set.univ).Step s (.assign p.1 p.2) _ from ⟨trivial, rfl⟩))

/-- Four assignments, of which the third is under a key that is there. -/
abbrev fourAssigned : Use :=
  Use.assigns ⟨.calm, allocateMap 0, []⟩
    [(.object 16, .number 1), (.object 32, .number 2), (.object 16, .number 3),
      (.number 5, .number 4)]

/-- After them, and when one of the keys has been destructed. -/
theorem sound_of_reachable_four : fourAssigned.map.size = 2 ∧ fourAssigned.map.stored.length = 3 ∧
    Sound ⟨fun ob ↦ ob = 32, fun _ ↦ true⟩ fourAssigned.map := by
  have h : (uses Set.univ).Reachable fourAssigned := reachable_assigns _ (.init ⟨0, rfl, rfl⟩)
  have hold : World.Older ⟨fun ob ↦ ob = 32, fun _ ↦ true⟩ fourAssigned.world :=
    ⟨fun _ hdead ↦ absurd hdead Bool.false_ne_true, fun _ _ ↦ rfl⟩
  exact ⟨rfl, rfl, sound_of_reachable (h.step
    (show (uses Set.univ).Step fourAssigned (.age ⟨fun ob ↦ ob = 32, fun _ ↦ true⟩) _ from
      ⟨hold, rfl⟩))⟩

end Lpmud.Mapping
