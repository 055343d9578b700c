import Lpmud.Mapping.Table

/-!
# The representation of mappings

What holds of every mapping that the operations can make: the number of buckets is a power of two,
every pair is in the bucket of its hash value, which is that of its key, and no key is there
twice (`Inv`). The number of pairs that the mapping is said to have is right up to the size of a
`short`, and so exactly as long as there are at most 32767 pairs (`representation`).

Adding a key is the only step that the number can go wrong in; a mapping with 10240 pairs, or in
some cases 20480, raises an error whenever a key is added, but the key stays.
-/

namespace Lpmud.Mapping

open Function List

/-- All keys are integers, strings or live objects. -/
def KeysLive (w : World) (m : Mapping) : Prop :=
  ∀ k ∈ m.keys, k.IsKey w

/-- **What the claims of a mapping about itself amount to.** -/
structure Representation (w : World) (m : Mapping) : Prop where
  size : ∃ k, m.size = 2 ^ k
  placed : ∀ i < m.size, ∀ p ∈ m.pairs i, slot m.size p.hashval = i
  hash : ∀ p ∈ m.stored, p.hashval = hashsvalue p.arg
  distinct : m.stored.Pairwise fun p q ↦ equalSvalue w p.arg q.arg = false
  card : m.card = m.stored.length

/-! ### The invariant -/

/-- **The invariant of mappings**: a table that could be extended has not been filled. -/
structure Inv (m : Mapping) : Prop extends Table m where
  fill : m.size ≤ 2048 → m.stored.length ≤ m.mcard

variable {w : World} {m m' : Mapping} {k v : Svalue}

theorem Inv.representation_iff (h : m.Inv) (hw : m.KeysLive w) :
    m.Representation w ↔ m.stored.length ≤ 32767 := by
  refine ⟨fun hr ↦ ?_, fun hle ↦ ⟨?_, h.placed, h.hash, ?_, ?_⟩⟩
  · have hlt : short m.stored.length < 2 ^ 15 := Int.bmod_lt (by decide)
    rw [← h.card, hr.card] at hlt
    omega
  · obtain ⟨k, -, hk⟩ := h.size
    exact ⟨k, hk⟩
  · have hne := pairwise_map.1 h.nodup
    refine hne.imp_of_mem fun {p q} hp hq hpq ↦ ?_
    rw [Bool.eq_false_iff]
    exact mt (equalSvalue_iff (hw _ (mem_map_of_mem hp)) (hw _ (mem_map_of_mem hq))).1 hpq
  · rw [h.card, short_eq hle]

/-! ### Looking for a key -/

theorem allocateMap_inv (msize : ℤ) : (allocateMap msize).Inv :=
  ⟨allocateMap_table msize, fun _ ↦ by
    rw [stored_allocateMap]
    exact Nat.zero_le _⟩

theorem findPair_spec (hk : k.IsKey w) (f : Svalue → Svalue) : ∀ {ps : List Apair},
    (∀ p ∈ ps, p.arg.IsKey w ∧ p.hashval = hashsvalue p.arg) →
    match findPair w (hashsvalue k) k f ps with
    | some ps' => k ∈ ps.map Apair.arg ∧ ps'.map index = ps.map index
    | none => k ∉ ps.map Apair.arg := by
  intro ps
  induction ps with
  | nil => exact fun _ ↦ not_mem_nil
  | cons p ps ih =>
    intro hps
    obtain ⟨hp, hhash⟩ := hps p mem_cons_self
    have htail := ih fun q hq ↦ hps q (mem_cons_of_mem p hq)
    rw [findPair, map_cons]
    by_cases heq : k = p.arg
    · have hfound : (p.hashval = hashsvalue k && equalSvalue w k p.arg) = true := by
        rw [hhash, ← heq, decide_eq_true rfl, (equalSvalue_iff hk hk).2 rfl]
        rfl
      rw [if_pos hfound]
      exact ⟨heq ▸ mem_cons_self, rfl⟩
    · have hother : (p.hashval = hashsvalue k && equalSvalue w k p.arg) ≠ true := by
        exact fun h ↦ heq ((equalSvalue_iff hk hp).1 (Bool.and_eq_true_iff.1 h).2)
      rw [if_neg hother]
      cases hfind : findPair w (hashsvalue k) k f ps with
      | none =>
        rw [hfind] at htail
        exact fun h ↦ (mem_cons.1 h).elim heq htail
      | some ps' =>
        rw [hfind] at htail
        exact ⟨mem_cons_of_mem _ htail.1, congrArg (index p :: ·) htail.2⟩

/-- **Pairs may be taken out of their buckets**, and have their values changed. -/
theorem Inv.of_subperm (h : m.Inv) (m' : Mapping) (hsize : m'.size = m.size)
    (hmcard : m'.mcard = m.mcard) (hcard : m'.card = short m'.stored.length)
    (hsub : ∀ i < m.size, ((m'.pairs i).map index).Subperm ((m.pairs i).map index)) :
    m'.Inv ∧ m'.keys.Subperm m.keys := by
  have hstored : (m'.stored.map index).Subperm (m.stored.map index) := by
    rw [stored, stored, hsize]
    exact Buckets.elems_subperm hsub
  have hkeys : m'.keys.Subperm m.keys := by
    obtain ⟨l, hl, hsub⟩ := hstored
    have hperm := hl.map Prod.fst
    have hsublist := hsub.map Prod.fst
    rw [map_map] at hperm hsublist
    exact ⟨_, hperm, hsublist⟩
  have hlen : m'.stored.length ≤ m.stored.length := by
    have := hstored.length_le
    rwa [length_map, length_map] at this
  refine ⟨⟨⟨⟨hsize ▸ h.size, by rw [hmcard, hsize, h.mcard], fun i hi p hp ↦ ?_, fun p hp ↦ ?_,
    hcard⟩, ?_⟩, fun hs ↦ ?_⟩, hkeys⟩
  · rw [hsize] at hi
    obtain ⟨q, hq, heq⟩ := mem_map.1 ((hsub i hi).subset (mem_map_of_mem hp))
    have hslot : slot m.size q.hashval = i := h.placed i hi q hq
    rw [show q.hashval = p.hashval from congrArg Prod.snd heq, ← hsize] at hslot
    exact hslot
  · obtain ⟨q, hq, heq⟩ := mem_map.1 (hstored.subset (mem_map_of_mem hp))
    have hhash := h.hash q hq
    rwa [show q.hashval = p.hashval from congrArg Prod.snd heq,
      show q.arg = p.arg from congrArg Prod.fst heq] at hhash
  · obtain ⟨l, hl, hlsub⟩ := hkeys
    exact hl.nodup_iff.1 (h.nodup.sublist hlsub)
  · rw [hmcard]
    exact hlen.trans (h.fill (hsize ▸ hs))

theorem Inv.exchange (h : m.Inv) {i : ℕ} (hi : i < m.size) {ps : List Apair}
    (hindex : ps.map index = (m.pairs i).map index) :
    Inv { m with pairs := update m.pairs i ps } ∧
      (keys { m with pairs := update m.pairs i ps }).Perm m.keys := by
  obtain ⟨rest, hstored, hupdate⟩ := m.pairs.exists_elems hi
  set m' : Mapping := { m with pairs := update m.pairs i ps } with hm'
  have hperm : (m'.stored.map index).Perm (m.stored.map index) := by
    have hafter := (hupdate ps).map index
    rw [map_append, hindex, ← map_append] at hafter
    exact hafter.trans (hstored.map index).symm
  have hlen : m'.stored.length = m.stored.length := by
    have := hperm.length_eq
    rwa [length_map, length_map] at this
  have hkeys : m'.keys.Perm m.keys := by
    have := hperm.map Prod.fst
    rwa [map_map, map_map] at this
  have hsub (j : ℕ) : ((m'.pairs j).map index).Subperm ((m.pairs j).map index) := by
    rw [hm']
    dsimp only
    rcases eq_or_ne j i with rfl | hne
    · rw [update_self, hindex]
    · rw [update_of_ne hne]
  exact ⟨(h.of_subperm m' rfl rfl (by rw [hlen]; exact h.card) fun j _ ↦ hsub j).1, hkeys⟩

/-- A key that is not found is added. The mapping then has at most 20480 pairs, unless an error was
raised or the number of pairs did overflow before. -/
theorem Inv.add (h : m.Inv) (hk : k ∉ m.keys) {f : Svalue → Svalue}
    (hfind : findPair w (hashsvalue k) k f (m.pairs (slot m.size (hashsvalue k))) = none) :
    ∃ m' v', m'.Inv ∧ m'.stored.Perm (⟨k, v', hashsvalue k⟩ :: m.stored) ∧
      (m.getMapLvalue w k f = .error m' ∧ v' = const0 ∨
        m.getMapLvalue w k f = .ok m' ∧ v' = f const0 ∧
          (m.stored.length < 32767 → m'.stored.length ≤ 20480)) := by
  have hmcard := h.mcard_le
  rcases h.getMapLvalue_new hk hfind with
    ⟨m', herr, htable, hperm, hsize, hlarge, -⟩ | ⟨m', hok, hadd⟩
  · exact ⟨m', const0, ⟨htable, fun hle ↦ by omega⟩, hperm, .inl ⟨herr, rfl⟩⟩
  · have hlen : m'.stored.length = m.stored.length + 1 := hadd.stored.length_eq
    have hmcard' := hadd.table.mcard
    have hfill := h.fill
    rcases hadd.size with ⟨hroom, hsize⟩ | ⟨-, hle, hsize⟩
    · have hroom' (hlt : m.stored.length < 32767) : m.stored.length + 1 ≤ m.mcard := by
        rw [short_eq hlt] at hroom
        omega
      rw [hsize, ← h.mcard] at hmcard'
      refine ⟨m', f const0, ⟨hadd.table, fun hle ↦ ?_⟩, hadd.stored, .inr ⟨hok, rfl, fun hlt ↦ ?_⟩⟩
      · have := hroom' (by have := hfill (hsize ▸ hle); omega)
        omega
      · have := hroom' hlt
        omega
    · have := fsize_lt h.size_pos
      have := h.mcard
      have := hadd.table.mcard_le
      have hle' := hfill hle
      rw [hsize] at hmcard'
      exact ⟨m', f const0, ⟨hadd.table, fun _ ↦ by omega⟩, hadd.stored,
        .inr ⟨hok, rfl, fun _ ↦ by omega⟩⟩

/-- **`get_map_lvalue`** finds the key, or adds it. It returns with at most 20480 pairs where it has
added one, if the number of pairs did not overflow before. -/
theorem getMapLvalue_spec (h : m.Inv) (hw : m.KeysLive w) (hk : k.IsKey w)
    (f : Svalue → Svalue) :
    (k ∈ m.keys ∧ ∃ m', m.getMapLvalue w k f = .ok m' ∧ m'.Inv ∧ m'.keys.Perm m.keys) ∨
      (k ∉ m.keys ∧ ∃ m', m'.Inv ∧ m'.keys.Perm (k :: m.keys) ∧
        (m.getMapLvalue w k f = .error m' ∨ m.getMapLvalue w k f = .ok m' ∧
          (m.stored.length < 32767 → m'.stored.length ≤ 20480))) := by
  have hslot := slot_lt h.size_pos (hashsvalue k)
  have hchain : ∀ p ∈ m.pairs (slot m.size (hashsvalue k)),
      p.arg.IsKey w ∧ p.hashval = hashsvalue p.arg := fun p hp ↦ by
    have hmem : p ∈ m.stored := Buckets.mem_elems.2 ⟨_, hslot, hp⟩
    exact ⟨hw _ (mem_map_of_mem hmem), h.hash p hmem⟩
  have hfind := findPair_spec hk f hchain
  cases hps : findPair w (hashsvalue k) k f (m.pairs (slot m.size (hashsvalue k))) with
  | some ps =>
    rw [hps] at hfind
    obtain ⟨hmem, hindex⟩ := hfind
    obtain ⟨hinv, hkeys⟩ := h.exchange hslot hindex
    refine .inl ⟨?_, _, by rw [getMapLvalue, hps], hinv, hkeys⟩
    obtain ⟨p, hp, rfl⟩ := mem_map.1 hmem
    exact mem_map_of_mem (Buckets.mem_elems.2 ⟨_, hslot, hp⟩)
  | none =>
    rw [hps] at hfind
    have hnew : k ∉ m.keys := by
      intro hmem
      obtain ⟨p, hp, rfl⟩ := mem_map.1 hmem
      obtain ⟨i, hi, hp⟩ := Buckets.mem_elems.1 hp
      have hslot : slot m.size p.hashval = i := h.placed i hi p hp
      refine hfind (mem_map_of_mem ?_)
      rwa [← h.hash p (Buckets.mem_elems.2 ⟨i, hi, hp⟩), hslot]
    obtain ⟨m', v', hinv, hperm, hres⟩ := h.add hnew hps
    exact .inr ⟨hnew, m', hinv, hperm.map Apair.arg,
      hres.imp (fun herr ↦ herr.1) fun hok ↦ ⟨hok.1, hok.2.2⟩⟩

/-! ### The operations -/

/-- The mapping that an operation leaves behind, whether it returns or raises an error. -/
def result : Except Mapping Mapping → Mapping
  | .ok m => m
  | .error m => m

/-- A loop of assignments keeps the invariant, wherever it stops. It adds keys of its list only,
and as soon as it makes a mapping too large it stops. -/
theorem assignAll_spec : ∀ (ps : List (Svalue × Svalue)) {m : Mapping}, m.Inv → m.KeysLive w →
    (∀ p ∈ ps, p.1.IsKey w) →
    (result (assignAll w m ps)).Inv ∧
      (m.stored.length < 32767 → (result (assignAll w m ps)).stored.length ≤ 32767) ∧
      ((∀ p ∈ ps, p.1 ∈ m.keys) → (result (assignAll w m ps)).keys.Perm m.keys) := by
  intro ps
  induction ps with
  | nil => exact fun h _ _ ↦ ⟨h, le_of_lt, fun _ ↦ .refl _⟩
  | cons p ps ih =>
    intro m h hw hps
    obtain ⟨k, v⟩ := p
    have hk : k.IsKey w := hps (k, v) mem_cons_self
    have htail : ∀ p ∈ ps, p.1.IsKey w := fun p hp ↦ hps p (mem_cons_of_mem _ hp)
    rcases getMapLvalue_spec h hw hk fun _ ↦ v with
      ⟨hmem, m', hok, hinv, hperm⟩ | ⟨hnew, m', hinv, hperm, hres⟩
    · have hassign : assignAll w m ((k, v) :: ps) = assignAll w m' ps := by
        rw [assignAll, assign, hok]
        rfl
      have hlen : m'.stored.length = m.stored.length := by
        rw [← length_keys, ← length_keys, hperm.length_eq]
      obtain ⟨hinv', hbound, hknown⟩ := ih hinv (fun k hk ↦ hw k (hperm.mem_iff.1 hk)) htail
      rw [hassign]
      refine ⟨hinv', fun hlt ↦ hbound (hlen ▸ hlt), fun hall ↦ ?_⟩
      exact (hknown fun p hp ↦ hperm.mem_iff.2 (hall p (mem_cons_of_mem _ hp))).trans hperm
    · have hlen : m'.stored.length = m.stored.length + 1 := by
        rw [← length_keys, ← length_keys, hperm.length_eq, length_cons]
      have hlive' : m'.KeysLive w := fun k' hk' ↦
        (mem_cons.1 (hperm.mem_iff.1 hk')).elim (fun h ↦ h ▸ hk) (hw k')
      have hno : ¬∀ p ∈ (k, v) :: ps, p.1 ∈ m.keys := fun hall ↦ hnew (hall _ mem_cons_self)
      rcases hres with herr | ⟨hok, hbound'⟩
      · have hassign : assignAll w m ((k, v) :: ps) = .error m' := by
          rw [assignAll, assign, herr]
          rfl
        rw [hassign]
        exact ⟨hinv, fun hlt ↦ by rw [result, hlen]; omega, fun hall ↦ absurd hall hno⟩
      · have hassign : assignAll w m ((k, v) :: ps) = assignAll w m' ps := by
          rw [assignAll, assign, hok]
          rfl
        obtain ⟨hinv', hbound, -⟩ := ih hinv hlive' htail
        rw [hassign]
        refine ⟨hinv', fun hlt ↦ hbound ?_, fun hall ↦ absurd hall hno⟩
        have := hbound' hlt
        omega

theorem KeysLive.entries (hw : m.KeysLive w) : ∀ p ∈ entries m.stored, p.1.IsKey w := by
  intro p hp
  obtain ⟨q, hq, rfl⟩ := mem_map.1 hp
  exact hw _ (mem_map_of_mem hq)

theorem assignAll_allocateMap {ps : List (Svalue × Svalue)} {msize : ℤ}
    (hps : ∀ p ∈ ps, p.1.IsKey w) (hok : assignAll w (allocateMap msize) ps = .ok m) :
    m.Inv ∧ m.stored.length ≤ 32767 := by
  have hnil := keys_allocateMap msize
  have hlive : (allocateMap msize).KeysLive w := fun k hk ↦ by
    rw [hnil] at hk
    exact absurd hk not_mem_nil
  obtain ⟨hinv, hbound, -⟩ := assignAll_spec ps (allocateMap_inv msize) hlive hps
  rw [hok] at hinv hbound
  refine ⟨hinv, hbound ?_⟩
  rw [← length_keys, hnil]
  decide

theorem assignAll_append (ps qs : List (Svalue × Svalue)) : ∀ m,
    assignAll w m (ps ++ qs) = (assignAll w m ps).bind fun m' ↦ assignAll w m' qs := by
  induction ps with
  | nil => exact fun _ ↦ rfl
  | cons p ps ih =>
    intro m
    rw [cons_append, assignAll, assignAll]
    cases m.assign w p.1 p.2 with
    | error m' => rfl
    | ok m' => exact ih m'

theorem Inv.of_perm (h : m.Inv) (m' : Mapping) (hsize : m'.size = m.size)
    (hmcard : m'.mcard = m.mcard) (hcard : m'.card = m.card)
    (hperm : ∀ i < m.size, ((m'.pairs i).map index).Perm ((m.pairs i).map index)) :
    m'.Inv ∧ m'.stored.length = m.stored.length ∧ m'.keys.Subperm m.keys := by
  have hlen : m'.stored.length = m.stored.length := by
    have hstored : (m'.stored.map index).Perm (m.stored.map index) := by
      rw [stored, stored, hsize]
      exact Buckets.elems_perm hperm
    have := hstored.length_eq
    rwa [length_map, length_map] at this
  obtain ⟨hinv, hkeys⟩ := h.of_subperm m' hsize hmcard (by rw [hcard, hlen, h.card])
    fun i hi ↦ (hperm i hi).subperm
  exact ⟨hinv, hlen, hkeys⟩

theorem copyMapping_pairs (m : Mapping) (i : ℕ) : m.copyMapping.pairs i = (m.pairs i).reverse := by
  have hfold : ∀ l acc : List Apair,
      l.foldl (fun ps p ↦ (⟨p.arg, p.val, p.hashval⟩ : Apair) :: ps) acc = l.reverse ++ acc := by
    intro l
    induction l with
    | nil => exact fun _ ↦ rfl
    | cons p l ih =>
      intro acc
      rw [foldl_cons, ih, reverse_cons, append_assoc]
      rfl
  exact (hfold _ []).trans (append_nil _)

theorem Inv.copyMapping (h : m.Inv) :
    m.copyMapping.Inv ∧ m.copyMapping.stored.length = m.stored.length ∧
      m.copyMapping.keys.Subperm m.keys :=
  h.of_perm m.copyMapping rfl rfl rfl fun i _ ↦ by
    rw [copyMapping_pairs, map_reverse]
    exact reverse_perm _

theorem Inv.mapMap (h : m.Inv) (call : ℕ → ℕ → Svalue → Svalue) :
    (m.mapMap call).Inv ∧ (m.mapMap call).stored.length = m.stored.length ∧
      (m.mapMap call).keys.Subperm m.keys :=
  h.of_perm (m.mapMap call) rfl rfl rfl fun i _ ↦ by
    have hindex (ps : List Apair) :
        (ps.mapIdx fun j p ↦ { p with val := call i j p.val }).map index = ps.map index := by
      refine ext_getElem? fun j ↦ ?_
      rw [List.getElem?_map, List.getElem?_mapIdx, List.getElem?_map, Option.map_map]
      rfl
    change (((m.copyMapping.pairs i).mapIdx _).map index).Perm _
    rw [hindex, copyMapping_pairs, map_reverse]
    exact reverse_perm _

/-- The inner loop of `filter_map` counts the pairs that it takes out. -/
theorem filterChain_spec (keep : ℕ → Svalue → Bool) (ps : List Apair) : ∀ (j : ℕ) (c : ℤ),
    (filterChain keep j (short c) ps).1.Sublist ps ∧
      (filterChain keep j (short c) ps).2 =
        short (c - (ps.length - (filterChain keep j (short c) ps).1.length : ℤ)) := by
  induction ps with
  | nil => exact fun j c ↦ ⟨.slnil, by rw [filterChain]; simp⟩
  | cons p ps ih =>
    intro j c
    rw [filterChain]
    by_cases hkeep : keep j p.val
    · obtain ⟨hsub, hcard⟩ := ih (j + 1) c
      rw [if_pos hkeep]
      refine ⟨hsub.cons_cons p, hcard.trans (congrArg short ?_)⟩
      simp only [length_cons]
      omega
    · have hshort : short (short c - 1) = short (c - 1) := Int.bmod_sub_bmod
      obtain ⟨hsub, hcard⟩ := ih (j + 1) (c - 1)
      rw [if_neg hkeep, hshort]
      refine ⟨hsub.cons p, hcard.trans (congrArg short ?_)⟩
      simp only [length_cons]
      omega

theorem Inv.filterBucket (h : m.Inv) (keep : ℕ → ℕ → Svalue → Bool) {i : ℕ} (hi : i < m.size) :
    (m.filterBucket keep i).Inv ∧ (m.filterBucket keep i).keys.Subperm m.keys := by
  obtain ⟨hsub, hcard⟩ := filterChain_spec (keep i) (m.pairs i) 0 m.stored.length
  rw [← h.card] at hsub hcard
  obtain ⟨rest, hstored, hupdate⟩ := m.pairs.exists_elems hi
  have hlen := hstored.length_eq
  have hlen' := (hupdate (filterChain (keep i) 0 m.card (m.pairs i)).1).length_eq
  rw [length_append] at hlen hlen'
  refine h.of_subperm (m.filterBucket keep i) rfl rfl (hcard.trans (congrArg short ?_))
    fun j _ ↦ ?_
  · change _ = ((Buckets.elems (update m.pairs i _) m.size).length : ℤ)
    rw [hlen', stored, hlen]
    omega
  · change ((update m.pairs i _ j).map index).Subperm _
    rcases eq_or_ne j i with rfl | hne
    · rw [update_self]
      exact (hsub.map index).subperm
    · rw [update_of_ne hne]

theorem Inv.filterMap (h : m.Inv) (keep : ℕ → ℕ → Svalue → Bool) :
    (m.filterMap keep).Inv ∧ (m.filterMap keep).keys.Subperm m.keys := by
  have hfold : ∀ (l : List ℕ) {r : Mapping}, r.Inv → (∀ i ∈ l, i < r.size) →
      (l.foldl (Mapping.filterBucket keep) r).Inv ∧
        (l.foldl (Mapping.filterBucket keep) r).keys.Subperm r.keys := by
    intro l
    induction l with
    | nil => exact fun hr _ ↦ ⟨hr, .refl _⟩
    | cons i l ih =>
      intro r hr hl
      obtain ⟨hinv, hkeys⟩ := hr.filterBucket keep (hl i mem_cons_self)
      obtain ⟨hinv', hkeys'⟩ := ih hinv fun j hj ↦ hl j (mem_cons_of_mem i hj)
      exact ⟨hinv', hkeys'.trans hkeys⟩
  obtain ⟨hcopy, -, hkeys⟩ := h.copyMapping
  obtain ⟨hinv, hkeys'⟩ :=
    hfold (List.range m.copyMapping.size) hcopy fun i hi ↦ mem_range.1 hi
  exact ⟨hinv, hkeys'.trans hkeys⟩

/-! ### Every mapping -/

/-- **The mappings that can be made.** Every operation may look at the world as it is at the time;
what `room` forbids is not done. -/
inductive Reachable (room : Mapping → List Svalue → Prop) : Mapping → Prop where
  | allocateMap (msize : ℤ) : Reachable room (.allocateMap msize)
  | getMapLvalue {m : Mapping} {k : Svalue} (w : World) (f : Svalue → Svalue) :
      Reachable room m → m.KeysLive w → k.IsKey w → room m [k] →
      Reachable room (result (m.getMapLvalue w k f))
  | rehashMap {m m' : Mapping} : Reachable room m → m.rehashMap = .ok m' → Reachable room m'
  | copyMapping {m : Mapping} : Reachable room m → Reachable room m.copyMapping
  | addMapping {m1 m2 m : Mapping} (w : World) :
      Reachable room m1 → Reachable room m2 → m1.KeysLive w → m2.KeysLive w →
      Mapping.addMapping w m1 m2 = .ok m → Reachable room m
  | addtoMapping {m1 m2 : Mapping} (w : World) :
      Reachable room m1 → Reachable room m2 → m1.KeysLive w → m2.KeysLive w → room m1 m2.keys →
      Reachable room (result (Mapping.addtoMapping w m1 m2))
  | addtoItself {m : Mapping} (w : World) :
      Reachable room m → m.KeysLive w → Reachable room (result (m.addtoItself w))
  | removeMapping {m m' : Mapping} {k : Svalue} (w : World) :
      Reachable room m → m.KeysLive w → k.IsKey w → m.removeMapping w k = .ok m' →
      Reachable room m'
  | makeMapping {ind val : Option (List Svalue)} {m : Mapping} (w : World) :
      (∀ k ∈ ind.getD [], k.IsKey w) → Mapping.makeMapping w ind val = .ok m → Reachable room m
  | mapMap {m : Mapping} (call : ℕ → ℕ → Svalue → Svalue) :
      Reachable room m → Reachable room (m.mapMap call)
  | filterMap {m : Mapping} (keep : ℕ → ℕ → Svalue → Bool) :
      Reachable room m → Reachable room (m.filterMap keep)

/-- No key is added to a mapping that has 32767 pairs. -/
def Roomy (m : Mapping) (ks : List Svalue) : Prop :=
  m.stored.length < 32767 ∨ ∀ k ∈ ks, k ∈ m.keys

/-- No restriction. -/
def Any (_ : Mapping) (_ : List Svalue) : Prop :=
  True

theorem getMapLvalue_inv (h : m.Inv) (hw : m.KeysLive w) (hk : k.IsKey w) (f : Svalue → Svalue) :
    (result (m.getMapLvalue w k f)).Inv ∧
      (k ∈ m.keys → (result (m.getMapLvalue w k f)).keys.Perm m.keys) ∧
      (k ∉ m.keys → (result (m.getMapLvalue w k f)).keys.Perm (k :: m.keys)) := by
  rcases getMapLvalue_spec h hw hk f with
    ⟨hmem, m', hok, hinv, hperm⟩ | ⟨hnew, m', hinv, hperm, herr | ⟨hok, -⟩⟩
  · rw [hok]
    exact ⟨hinv, fun _ ↦ hperm, fun h ↦ absurd hmem h⟩
  · rw [herr]
    exact ⟨hinv, fun h ↦ absurd h hnew, fun _ ↦ hperm⟩
  · rw [hok]
    exact ⟨hinv, fun h ↦ absurd h hnew, fun _ ↦ hperm⟩

theorem Inv.rehashMap (h : m.Inv) (hok : m.rehashMap = .ok m') :
    m'.Inv ∧ m'.stored.Perm m.stored := by
  rcases h.toShape.rehashMap with ⟨herr, -⟩ | ⟨m'', hok', hshape, hperm, hle, hsize⟩
  · rw [hok] at herr
    cases herr
  · rw [hok] at hok'
    cases hok'
    refine ⟨⟨⟨hshape, (hperm.map Apair.arg).nodup_iff.2 h.nodup⟩, fun _ ↦ ?_⟩, hperm⟩
    have := h.fill hle
    have := h.mcard
    have := fsize_lt h.size_pos
    rw [hperm.length_eq, hshape.mcard, hsize]
    omega

/-- What every round keeps that adds a pair of a mapping to the mapping itself, at whatever chain
the loops are after it. -/
theorem addtoItselfLoop_invariant {I : Mapping → ℕ → Prop}
    (hnext : ∀ {m c i}, I m c → i < m.size → I m i)
    (hassign : ∀ {m c p v}, I m c → p ∈ m.pairs c →
      I (result (m.assign w p.arg v)) (if (result (m.assign w p.arg v)).size = m.size then c
        else slot (result (m.assign w p.arg v)).size p.hashval)) :
    ∀ (n : ℕ) {m : Mapping} {i c r : ℕ}, I m c →
      ∃ c', I (result (addtoItselfLoop w n m i c r)) c' := by
  intro n
  induction n with
  | zero => exact fun h ↦ ⟨_, h⟩
  | succ n ih =>
    intro m i c r h
    cases r with
    | zero =>
      rw [addtoItselfLoop]
      split
      next hlt => exact ih (hnext h hlt)
      next => exact ⟨c, h⟩
    | succ r =>
      cases hdrop : (m.pairs c).drop ((m.pairs c).length - (r + 1)) with
      | nil =>
        rw [addtoItselfLoop]
        dsimp only
        rw [hdrop]
        exact ⟨c, h⟩
      | cons p ps =>
        obtain ⟨v, k, hloop⟩ : ∃ v, ∃ k : Mapping → ℕ, addtoItselfLoop w (n + 1) m i c (r + 1) =
            (m.assign w p.arg v).bind fun m' ↦
              if m'.size = m.size then addtoItselfLoop w n m' i c r
              else addtoItselfLoop w n m' i (slot m'.size p.hashval) (k m') := by
          rw [addtoItselfLoop]
          dsimp only
          rw [hdrop]
          exact ⟨_, _, rfl⟩
        have hmem : p ∈ m.pairs c := mem_of_mem_drop (hdrop ▸ mem_cons_self)
        have hround := hassign (v := v) h hmem
        rw [hloop]
        cases hres : m.assign w p.arg v with
        | error m' =>
          rw [hres] at hround
          exact ⟨_, hround⟩
        | ok m' =>
          rw [hres] at hround
          dsimp only [Except.bind]
          split
          next hsize => exact ih (by rwa [result, if_pos hsize] at hround)
          next hsize => exact ih (by rwa [result, if_neg hsize] at hround)

theorem Inv.addtoItself (h : m.Inv) (hw : m.KeysLive w) :
    (result (m.addtoItself w)).Inv ∧ (result (m.addtoItself w)).keys.Perm m.keys := by
  obtain ⟨-, ⟨hinv, hkeys⟩, -⟩ := addtoItselfLoop_invariant (w := w)
    (I := fun m' c ↦ (m'.Inv ∧ m'.keys.Perm m.keys) ∧ c < m'.size)
    (fun h hlt ↦ ⟨h.1, hlt⟩) (fun {m' c p v} ⟨⟨hinv, hperm⟩, hc⟩ hp ↦ by
      have hmem : p.arg ∈ m'.keys := mem_map_of_mem (Buckets.mem_elems.2 ⟨c, hc, hp⟩)
      have hlive : m'.KeysLive w := fun k hk ↦ hw k (hperm.mem_iff.1 hk)
      obtain ⟨hinv', hold, -⟩ := getMapLvalue_inv hinv hlive (hlive _ hmem) fun _ ↦ v
      refine ⟨⟨hinv', (hold hmem).trans hperm⟩, ?_⟩
      split
      next hsize => exact hc.trans_eq hsize.symm
      next => exact slot_lt hinv'.size_pos _) _ ⟨⟨h, .refl _⟩, h.size_pos⟩
  exact ⟨hinv, hkeys⟩

/-- The invariant holds of every mapping, and no mapping gets more than 32767 pairs unless a key is
added to one that has as many. -/
theorem Reachable.inv {room : Mapping → List Svalue → Prop} (h : Reachable room m) :
    m.Inv ∧ ((∀ m ks, room m ks → Roomy m ks) → m.stored.length ≤ 32767) := by
  induction h with
  | allocateMap msize =>
    refine ⟨allocateMap_inv msize, fun _ ↦ ?_⟩
    rw [← length_keys, keys_allocateMap]
    exact Nat.zero_le _
  | @getMapLvalue m k w f _ hw hk hroom ih =>
    obtain ⟨hinv, hbound⟩ := ih
    obtain ⟨hinv', hold, hnew⟩ := getMapLvalue_inv hinv hw hk f
    refine ⟨hinv', fun hr ↦ ?_⟩
    have hle := hbound hr
    rw [← length_keys] at hle ⊢
    by_cases hmem : k ∈ m.keys
    · rwa [(hold hmem).length_eq]
    · rw [(hnew hmem).length_eq, length_cons]
      rcases hr _ _ hroom with hlt | hall
      · rwa [← length_keys] at hlt
      · exact absurd (hall k (mem_singleton_self k)) hmem
  | rehashMap _ hok ih =>
    obtain ⟨hinv, hperm⟩ := ih.1.rehashMap hok
    exact ⟨hinv, fun hr ↦ hperm.length_eq.trans_le (ih.2 hr)⟩
  | copyMapping _ ih =>
    obtain ⟨hinv, hlen, -⟩ := ih.1.copyMapping
    exact ⟨hinv, fun hr ↦ hlen.trans_le (ih.2 hr)⟩
  | addMapping w _ _ hw₁ hw₂ hok _ _ =>
    rw [Mapping.addMapping, ← assignAll_append] at hok
    obtain ⟨hinv, hle⟩ := assignAll_allocateMap (fun p hp ↦
      (mem_append.1 hp).elim (hw₁.entries p) (hw₂.entries p)) hok
    exact ⟨hinv, fun _ ↦ hle⟩
  | @addtoMapping m1 m2 w _ _ hw₁ hw₂ hroom ih₁ _ =>
    obtain ⟨hinv, hbound, hknown⟩ := assignAll_spec (entries m2.stored) ih₁.1 hw₁ hw₂.entries
    refine ⟨hinv, fun hr ↦ ?_⟩
    rcases hr _ _ hroom with hlt | hall
    · exact hbound hlt
    · have hperm := hknown fun p hp ↦ by
        obtain ⟨q, hq, rfl⟩ := mem_map.1 hp
        exact hall _ (mem_map_of_mem hq)
      have hlen := hperm.length_eq
      rw [length_keys, length_keys] at hlen
      exact hlen.trans_le (ih₁.2 hr)
  | addtoItself w _ hw ih =>
    obtain ⟨hinv, hperm⟩ := ih.1.addtoItself hw
    have hlen := hperm.length_eq
    rw [length_keys, length_keys] at hlen
    exact ⟨hinv, fun hr ↦ hlen.trans_le (ih.2 hr)⟩
  | @removeMapping m m' k w _ hw _ hok _ =>
    have hps : ∀ p ∈ (List.range m.size).flatMap fun i ↦ entries <| (m.pairs i).filter fun p ↦
        !(slot m.size (hashsvalue k) == i && equalSvalue w k p.arg), p.1.IsKey w := fun p hp ↦ by
      obtain ⟨i, hi, hp⟩ := mem_flatMap.1 hp
      obtain ⟨q, hq, rfl⟩ := mem_map.1 hp
      have hmem : q ∈ m.stored :=
        Buckets.mem_elems.2 ⟨i, mem_range.1 hi, (mem_filter.1 hq).1⟩
      exact hw _ (mem_map_of_mem hmem)
    obtain ⟨hinv, hle⟩ := assignAll_allocateMap hps hok
    exact ⟨hinv, fun _ ↦ hle⟩
  | @makeMapping ind val m w hind hok =>
    rcases ind with - | ind <;> rcases val with - | val
    · obtain ⟨hinv, hle⟩ :=
        assignAll_allocateMap (w := w) (fun p hp ↦ absurd hp not_mem_nil) hok
      exact ⟨hinv, fun _ ↦ hle⟩
    · obtain ⟨hinv, hle⟩ := assignAll_allocateMap (fun p hp ↦ by
        obtain ⟨q, -, rfl⟩ := mem_map.1 hp
        trivial) hok
      exact ⟨hinv, fun _ ↦ hle⟩
    · obtain ⟨hinv, hle⟩ := assignAll_allocateMap (fun p hp ↦ by
        obtain ⟨⟨v, i⟩, hq, rfl⟩ := mem_map.1 hp
        exact hind v (fst_mem_of_mem_zipIdx hq)) hok
      exact ⟨hinv, fun _ ↦ hle⟩
    · obtain ⟨hinv, hle⟩ := assignAll_allocateMap (fun p hp ↦ hind p.1 (of_mem_zip hp).1) hok
      exact ⟨hinv, fun _ ↦ hle⟩
  | mapMap call _ ih =>
    obtain ⟨hinv, hlen, -⟩ := ih.1.mapMap call
    exact ⟨hinv, fun hr ↦ hlen.trans_le (ih.2 hr)⟩
  | filterMap keep _ ih =>
    obtain ⟨hinv, hkeys⟩ := ih.1.filterMap keep
    have hlen := hkeys.length_le
    rw [length_keys, length_keys] at hlen
    exact ⟨hinv, fun hr ↦ hlen.trans (ih.2 hr)⟩

/-- **The representation of mappings.** As long as no key is added to a mapping that has 32767
pairs, every mapping that the operations make has a power of two of buckets, with each pair in the
bucket of its hash value, which is that of its key, no two keys that are equal, and the number of
pairs that it is said to have. Without the restriction, a mapping that can be made does if and only
if it has at most 32767 pairs. -/
theorem representation (m : Mapping) (w : World) (hw : m.KeysLive w) :
    (Reachable Roomy m → m.Representation w) ∧
      (Reachable Any m → (m.Representation w ↔ m.stored.length ≤ 32767)) := by
  refine ⟨fun h ↦ ?_, fun h ↦ h.inv.1.representation_iff hw⟩
  obtain ⟨hinv, hle⟩ := h.inv
  exact (hinv.representation_iff hw).2 (hle fun _ _ h ↦ h)

/-- Integers are added as keys one after the other. -/
def addNumbers (w : World) (m : Mapping) (ns : List (BitVec 32)) : Mapping :=
  ns.foldl (fun m n ↦ result (m.getMapLvalue w (.number n) id)) m

theorem keysLive_of_eq {n : List (BitVec 32)} (h : m.keys = n.map Svalue.number) :
    m.KeysLive w := by
  intro k hk
  rw [h] at hk
  obtain ⟨i, -, rfl⟩ := mem_map.1 hk
  trivial

/-- It holds of a table that has been extended, with two keys in one chain that have the same hash
value. -/
theorem representation_collision :
    (allocateMap 0).size = 1 ∧ ((allocateMap 0).addNumbers .calm [1, 65537, 2]).size = 2 ∧
      (((allocateMap 0).addNumbers .calm [1, 65537, 2]).pairs 1).map Apair.hashval = [1, 1] ∧
      ((allocateMap 0).addNumbers .calm [1, 65537, 2]).Representation .calm := by
  have h₁ : Reachable Roomy ((allocateMap 0).addNumbers .calm [1]) :=
    .getMapLvalue .calm id (.allocateMap 0) (keysLive_of_eq (n := []) (by rfl)) trivial
      (.inl (by decide))
  have h₂ : Reachable Roomy ((allocateMap 0).addNumbers .calm [1, 65537]) :=
    .getMapLvalue (k := .number 65537) .calm id h₁ (keysLive_of_eq (n := [1]) (by rfl)) trivial
      (.inl (by decide))
  have h₃ : Reachable Roomy ((allocateMap 0).addNumbers .calm [1, 65537, 2]) :=
    .getMapLvalue (k := .number 2) .calm id h₂ (keysLive_of_eq (n := [65537, 1]) (by rfl)) trivial
      (.inl (by decide))
  exact ⟨rfl, rfl, rfl,
    (representation _ .calm (keysLive_of_eq (n := [2, 1, 65537]) (by rfl))).1 h₃⟩

/-- The integers below `n`, as the keys of a mapping that they have been added to one after the
other. -/
def integers (n : ℕ) : List Svalue :=
  ((List.range n).map fun i ↦ .number (.ofNat 32 i)).reverse

theorem mem_integers {n : ℕ} : k ∈ integers n ↔ ∃ i < n, k = .number (.ofNat 32 i) := by
  simp only [integers, mem_reverse, mem_map, mem_range, eq_comm]

theorem length_integers (n : ℕ) : (integers n).length = n := by
  rw [integers, length_reverse, length_map, length_range]

theorem keysLive_integers (w : World) {n : ℕ} (hkeys : m.keys.Perm (integers n)) :
    m.KeysLive w := fun k hk ↦ by
  obtain ⟨i, -, rfl⟩ := mem_integers.1 (hkeys.mem_iff.1 hk)
  trivial

theorem getMapLvalue_integer (h : m.Inv) {n : ℕ} (hn : n < 2 ^ 32)
    (hkeys : m.keys.Perm (integers n)) :
    (result (m.getMapLvalue w (.number (.ofNat 32 n)) id)).Inv ∧
      (result (m.getMapLvalue w (.number (.ofNat 32 n)) id)).keys.Perm (integers (n + 1)) := by
  have hnew : Svalue.number (.ofNat 32 n) ∉ m.keys := fun hmem ↦ by
    obtain ⟨i, hi, heq⟩ := mem_integers.1 (hkeys.mem_iff.1 hmem)
    have hnat := congrArg BitVec.toNat (Svalue.number.inj heq)
    rw [BitVec.toNat_ofNat, BitVec.toNat_ofNat, Nat.mod_eq_of_lt hn,
      Nat.mod_eq_of_lt (by omega)] at hnat
    omega
  obtain ⟨hinv, -, hadd⟩ := getMapLvalue_inv h (keysLive_integers w hkeys)
    (k := .number (.ofNat 32 n)) trivial id
  refine ⟨hinv, (hadd hnew).trans ?_⟩
  rw [integers, range_succ, map_append, reverse_append]
  exact hkeys.cons _

/-- The integers below `n` can be added to a mapping as keys one after the other. -/
theorem exists_keys (w : World) : ∀ n ≤ 32768, ∃ m, Reachable Any m ∧
    m.keys.Perm (integers n) := by
  intro n
  induction n with
  | zero => exact fun _ ↦ ⟨_, .allocateMap 0, by rw [keys_allocateMap]; exact .refl _⟩
  | succ n ih =>
    intro hn
    obtain ⟨m, hm, hkeys⟩ := ih (Nat.le_of_succ_le hn)
    exact ⟨_, .getMapLvalue (k := .number (.ofNat 32 n)) w id hm (keysLive_integers w hkeys)
      trivial trivial, (getMapLvalue_integer hm.inv.1 (by omega) hkeys).2⟩

/-- **The number of pairs overflows.** After the integers below 32768 have been added one after the
other, the later ones with an error each, a mapping is said to have -32768 pairs. -/
theorem not_representation : ¬∀ m w, m.KeysLive w → Reachable Any m → m.Representation w := by
  intro hall
  obtain ⟨m, hm, hkeys⟩ := exists_keys ⟨fun _ ↦ false, fun _ ↦ true⟩ 32768 le_rfl
  have hw := keysLive_integers ⟨fun _ ↦ false, fun _ ↦ true⟩ hkeys
  have hle := (hm.inv.1.representation_iff hw).1 (hall m _ hw hm)
  rw [← length_keys, hkeys.length_eq, length_integers] at hle
  omega

end Lpmud.Mapping
