import Lpmud.Mapping.Merge

/-!
# The limit of the size of mappings

A table may have `MAX_MAPPING_SIZE` buckets. Two functions of `mapping.c` look at that.

`rehash_map` raises an error instead of making a larger table, but `get_map_lvalue` calls it when
the new pair is in the chain, and counted. So a mapping is what it was before an insertion that is
refused only if none is (`atomic_iff`).

`allocate_map` looks at the size before it doubles it, so the last table that it makes may be the
first one that is too large: a request for 10240 pairs gives 8192 buckets. `Obtainable` has the
mappings that are made with requests of a kind; if all of them are small enough, no
table is too large (`limit`).
-/

namespace Lpmud.Mapping

variable {w : World} {m m' : Mapping} {k : Svalue} {f : Svalue → Svalue}

/-! ### Insertions that are refused -/

/-- An insertion of the key is refused `n` times, one after the other. -/
def Refused (w : World) (k : Svalue) (f : Svalue → Svalue) : ℕ → Mapping → Mapping → Prop
  | 0, m, m' => m' = m
  | n + 1, m, m' => ∃ m₁, m.getMapLvalue w k f = .error m₁ ∧ Refused w k f n m₁ m'

/-- However often an insertion is refused, the mapping has the pairs and the number of pairs that it
had before. -/
def Atomic (w : World) (m : Mapping) (k : Svalue) (f : Svalue → Svalue) : Prop :=
  ∀ n m', Refused w k f n m m' → m'.stored.Perm m.stored ∧ m'.card = m.card

theorem short_add_one_ne (i : ℤ) : short (i + 1) ≠ i := by
  rw [short, Int.bmod_def]
  split <;> omega

theorem rehashMap_eq (m : Mapping) (hs : m.size * 2 ≤ MAX_MAPPING_SIZE) :
    ∃ m', m.rehashMap = .ok m' := by
  rw [rehashMap, if_neg (Nat.not_lt.2 hs)]
  exact ⟨_, rfl⟩

/-- **When an insertion is refused, and what it leaves**: the pair is there, and it is counted. -/
theorem getMapLvalue_eq_error_iff (w : World) (m : Mapping) (k : Svalue) (f : Svalue → Svalue) :
    m.getMapLvalue w k f = .error m' ↔
      m' = m.newpair k const0 (hashsvalue k) ∧ m.found w k = false ∧
        m.mcard < short (m.card + 1) ∧ MAX_MAPPING_SIZE < m.size * 2 := by
  have hsome := findPair_isSome w (hashsvalue k) k f (m.pairs (slot m.size (hashsvalue k)))
  change _ = m.found w k at hsome
  rw [← hsome, getMapLvalue]
  cases hfind : findPair w (hashsvalue k) k f (m.pairs (slot m.size (hashsvalue k))) with
  | some ps => exact iff_of_false (by rintro ⟨⟩) fun h ↦ by cases h.2.1
  | none =>
    have hcard (v : Svalue) : (m.newpair k v (hashsvalue k)).card = short (m.card + 1) := rfl
    have hsize (v : Svalue) : (m.newpair k v (hashsvalue k)).size = m.size := rfl
    dsimp only
    rw [hcard]
    by_cases hover : short (m.card + 1) > m.mcard
    · rw [if_pos hover]
      by_cases hmax : MAX_MAPPING_SIZE < m.size * 2
      · rw [rehashMap, if_pos (by rwa [hsize])]
        exact ⟨fun h ↦ ⟨(Except.error.inj h).symm, rfl, hover, hmax⟩, fun h ↦ by rw [h.1]; rfl⟩
      · obtain ⟨m₁, hok⟩ := rehashMap_eq (m.newpair k const0 (hashsvalue k)) (Nat.not_lt.1 hmax)
        obtain ⟨m₂, hok'⟩ := rehashMap_eq (m.newpair k (f const0) (hashsvalue k))
          (Nat.not_lt.1 hmax)
        rw [hok, Except.bind, hok']
        exact iff_of_false (by rintro ⟨⟩) fun h ↦ hmax h.2.2.2
    · rw [if_neg hover]
      exact iff_of_false (by rintro ⟨⟩) fun h ↦ hover h.2.2.1

/-- **An insertion leaves nothing behind just when it is not refused**: the key is there, or there
is room for it, or the table can be extended. -/
theorem atomic_iff (w : World) (m : Mapping) (k : Svalue) (f : Svalue → Svalue) :
    Atomic w m k f ↔
      m.found w k = true ∨ short (m.card + 1) ≤ m.mcard ∨ m.size * 2 ≤ MAX_MAPPING_SIZE := by
  constructor
  · intro hatomic
    by_contra hnot
    push Not at hnot
    obtain ⟨hfound, hover, hmax⟩ := hnot
    have herr : m.getMapLvalue w k f = .error (m.newpair k const0 (hashsvalue k)) :=
      (getMapLvalue_eq_error_iff w m k f).2 ⟨rfl, Bool.eq_false_iff.2 hfound, hover, hmax⟩
    exact short_add_one_ne m.card (hatomic 1 _ ⟨_, herr, rfl⟩).2
  · rintro hroom (_ | n) m' hrefused
    · rw [hrefused]
      exact ⟨.refl _, rfl⟩
    · obtain ⟨m₁, herr, -⟩ := hrefused
      obtain ⟨-, hfound, hover, hmax⟩ := (getMapLvalue_eq_error_iff w m k f).1 herr
      rcases hroom with h | h | h
      · rw [hfound] at h
        cases h
      · exact absurd h (Int.not_le.2 hover)
      · exact absurd h (Nat.not_le.2 hmax)

/-- A mapping that has 20480 integers as keys refuses another one, and has it all the same. -/
theorem not_atomic : ¬∀ (w : World) (m : Mapping) (k : Svalue) (f : Svalue → Svalue),
    Reachable Any m → m.KeysLive w → k.IsKey w → Atomic w m k f := by
  intro hall
  obtain ⟨m, hm, hkeys⟩ := exists_keys ⟨fun _ ↦ false, fun _ ↦ true⟩ 20480 (by decide)
  have hw := keysLive_integers ⟨fun _ ↦ false, fun _ ↦ true⟩ hkeys
  have hinv := hm.inv.1
  have hlen : m.stored.length = 20480 := by
    rw [← length_keys, hkeys.length_eq, length_integers]
  have hmcard := hinv.mcard_le
  rcases (atomic_iff _ m (.number 20480) id).1 (hall _ m (.number 20480) id hm hw trivial) with
    hfound | hroom | hsmall
  · rw [hinv.toShape.found_eq, List.any_eq_true] at hfound
    obtain ⟨e, he, hsame⟩ := hfound
    obtain ⟨i, hi, rfl⟩ := mem_integers.1 (hkeys.mem_iff.1 he)
    have hequal := (Bool.and_eq_true_iff.1 hsame).2
    have hnat := congrArg BitVec.toNat (beq_iff_eq.1 hequal)
    rw [BitVec.toNat_ofNat, Nat.mod_eq_of_lt (by omega)] at hnat
    change 20480 = i at hnat
    omega
  · rw [hinv.card, hlen, short_add_one, short_eq (by decide)] at hroom
    omega
  · have hle := hinv.fill (hinv.size_le hsmall)
    have hfsize := fsize_le (hinv.size_le hsmall)
    rw [← hinv.mcard] at hfsize
    simp only [fsize, FILL_FACTOR] at hfsize
    omega

/-! ### Requests -/

/-- A number of pairs for which `allocate_map` makes at most 4096 buckets. The numbers are `short`s,
and one below -2 is a very large `unsigned`. -/
def Modest (msize : ℤ) : Prop :=
  -2 ≤ msize ∧ msize < 10240

instance (msize : ℤ) : Decidable (Modest msize) :=
  inferInstanceAs (Decidable (_ ∧ _))

/-- The loop of `allocate_map` doubles the size as often as the request can be halved. -/
theorem sizeLoop_le (i : ℕ) : ∀ n u, i ≤ 12 → u < 2 ^ i → sizeLoop n (2 ^ (12 - i)) u ≤ 4096 := by
  induction i with
  | zero =>
    intro n u _ hu
    cases n with
    | zero => exact le_rfl
    | succ n =>
      rw [sizeLoop, if_neg fun h ↦ h.1 (Nat.lt_one_iff.1 hu)]
      exact le_rfl
  | succ i ih =>
    intro n u hi hu
    cases n with
    | zero => exact Nat.pow_le_pow_right (by decide) (Nat.sub_le 12 (i + 1))
    | succ n =>
      rw [sizeLoop]
      split
      · rw [Nat.shiftLeft_eq, ← Nat.pow_add, show 12 - (i + 1) + 1 = 12 - i by omega]
        refine ih n _ (Nat.le_of_succ_le hi) ?_
        rw [Nat.shiftRight_eq_div_pow, Nat.div_lt_iff_lt_mul (by decide), ← Nat.pow_add]
        exact hu
      · exact Nat.pow_le_pow_right (by decide) (Nat.sub_le 12 (i + 1))

/-- A small request, in the `unsigned` of `allocate_map`. -/
theorem toNat_lt_of_modest {msize : ℤ} (h : Modest msize) :
    (BitVec.ofInt 32 ((msize * 100).tdiv FILL_FACTOR)).toNat < 2 ^ 12 := by
  obtain ⟨hlow, hhigh⟩ := h
  rcases lt_or_ge msize 0 with hneg | hpos
  · obtain rfl | rfl : msize = -1 ∨ msize = -2 := by omega
    · decide
    · decide
  · obtain ⟨n, rfl⟩ := Int.eq_ofNat_of_zero_le hpos
    have hdiv : ((n : ℤ) * 100).tdiv FILL_FACTOR = (n * 100 / 250 : ℕ) :=
      (Int.ofNat_tdiv (n * 100) 250).symm
    rw [hdiv, BitVec.ofInt_natCast, BitVec.toNat_ofNat, Nat.mod_eq_of_lt (by omega)]
    omega

/-- A number that is not small, as the `short` that it is. -/
theorem le_toNat_of_not_modest {msize : ℤ} (h : ¬Modest (short msize)) :
    4096 ≤ (BitVec.ofInt 32 ((short msize * 100).tdiv FILL_FACTOR)).toNat := by
  have hlow : -(2 ^ 15) ≤ short msize := Int.le_bmod (by decide)
  have hhigh : short msize < 2 ^ 15 := Int.bmod_lt (by decide)
  obtain ⟨n, hn, hlarge, hle⟩ : ∃ n : ℕ, short msize = short n ∧ 10240 ≤ n ∧ n ≤ 65533 := by
    rw [Modest] at h
    generalize short msize = s at h hlow hhigh ⊢
    rcases lt_or_ge s 0 with hneg | hpos
    · have hwrap : 0 ≤ s + 65536 := by omega
      refine ⟨(s + 65536).toNat, ?_, by omega, by omega⟩
      rw [Int.toNat_of_nonneg hwrap, short, Int.bmod_def]
      split <;> omega
    · refine ⟨s.toNat, ?_, by omega, by omega⟩
      rw [short_eq (by omega)]
      omega
  rw [hn]
  exact le_toNat_of_large hlarge hle

/-- **`allocate_map` keeps the limit just for small requests**; otherwise it makes 8192 buckets. -/
theorem size_allocateMap (msize : ℤ) :
    (Modest (short msize) → (allocateMap (short msize)).size ≤ MAX_MAPPING_SIZE) ∧
      (¬Modest (short msize) → (allocateMap (short msize)).size = 8192) := by
  constructor
  · intro h
    exact (sizeLoop_le 12 32 _ le_rfl (toNat_lt_of_modest h)).trans (by decide)
  · exact fun h ↦ sizeLoop_large 13 le_rfl 32 (by decide) fun _ ↦ le_toNat_of_not_modest h

/-! ### Mappings that can be obtained -/

/-- The mapping that is made of what is in the swap file: a table for the number of pairs, and the
pairs one after the other. -/
def swapIn (w : World) (ps : List (Svalue × Svalue)) : Except Mapping Mapping :=
  assignAll w (allocateMap (short ps.length)) ps

/-- **The mappings that can be obtained**, when each number of pairs that is asked for in
`allocate_map` is of a kind. What is left where an error is raised can be obtained as well, if
anybody has it. -/
inductive Obtainable (request : ℤ → Prop) : Mapping → Prop where
  | allocateMap (msize : ℤ) :
      request (short msize) → Obtainable request (.allocateMap (short msize))
  | getMapLvalue {m : Mapping} (w : World) (k : Svalue) (f : Svalue → Svalue) :
      Obtainable request m → Obtainable request (result (m.getMapLvalue w k f))
  | rehashMap {m : Mapping} : Obtainable request m → Obtainable request (result m.rehashMap)
  | copyMapping {m : Mapping} : Obtainable request m → Obtainable request m.copyMapping
  | addMapping {m1 m2 m : Mapping} (w : World) : Obtainable request m1 → Obtainable request m2 →
      request (short (m1.card + m2.card)) → Mapping.addMapping w m1 m2 = .ok m →
      Obtainable request m
  | addtoMapping {m1 m2 : Mapping} (w : World) : Obtainable request m1 → Obtainable request m2 →
      Obtainable request (result (Mapping.addtoMapping w m1 m2))
  | addtoItself {m : Mapping} (w : World) :
      Obtainable request m → Obtainable request (result (m.addtoItself w))
  | removeMapping {m m' : Mapping} (w : World) (k : Svalue) : Obtainable request m →
      m.removeMapping w k = .ok m' → Obtainable request m'
  | fill (w : World) (msize : ℤ) (ps : List (Svalue × Svalue)) : request (short msize) →
      Obtainable request (result (assignAll w (.allocateMap (short msize)) ps))
  | swapIn (w : World) (ps : List (Svalue × Svalue)) : request (short ps.length) →
      Obtainable request (result (Mapping.swapIn w ps))
  | mapMap {m : Mapping} (call : ℕ → ℕ → Svalue → Svalue) :
      Obtainable request m → Obtainable request (m.mapMap call)
  | filterMap {m : Mapping} (keep : ℕ → ℕ → Svalue → Bool) :
      Obtainable request m → Obtainable request (m.filterMap keep)
  | checkForDestr {m : Mapping} (w : World) :
      Obtainable request m → Obtainable request (m.checkForDestr w)

theorem size_rehashMap (m : Mapping) :
    m.size ≤ (result m.rehashMap).size ∧
      (m.size ≤ MAX_MAPPING_SIZE → (result m.rehashMap).size ≤ MAX_MAPPING_SIZE) := by
  rw [rehashMap]
  split
  · exact ⟨le_rfl, id⟩
  · refine ⟨?_, fun _ ↦ Nat.not_lt.1 ‹_›⟩
    change m.size ≤ m.size * 2
    omega

theorem size_getMapLvalue (w : World) (m : Mapping) (k : Svalue) (f : Svalue → Svalue) :
    m.size ≤ (result (m.getMapLvalue w k f)).size ∧ (m.size ≤ MAX_MAPPING_SIZE →
      (result (m.getMapLvalue w k f)).size ≤ MAX_MAPPING_SIZE) := by
  rw [getMapLvalue]
  cases findPair w (hashsvalue k) k f (m.pairs (slot m.size (hashsvalue k))) with
  | some ps => exact ⟨le_rfl, id⟩
  | none =>
    dsimp only
    split
    · have hrehash := size_rehashMap (m.newpair k (f const0) (hashsvalue k))
      rcases h : (m.newpair k const0 (hashsvalue k)).rehashMap with m₁ | m₁
      · have hrehash₀ := size_rehashMap (m.newpair k const0 (hashsvalue k))
        rw [h] at hrehash₀
        exact hrehash₀
      · exact hrehash
    · exact ⟨le_rfl, id⟩

theorem size_assignAll (w : World) (ps : List (Svalue × Svalue)) : ∀ m : Mapping,
    m.size ≤ (result (assignAll w m ps)).size ∧ (m.size ≤ MAX_MAPPING_SIZE →
      (result (assignAll w m ps)).size ≤ MAX_MAPPING_SIZE) := by
  induction ps with
  | nil => exact fun m ↦ ⟨le_rfl, id⟩
  | cons p ps ih =>
    intro m
    have hassign := size_getMapLvalue w m p.1 fun _ ↦ p.2
    rw [assignAll, assign]
    rcases h : m.getMapLvalue w p.1 fun _ ↦ p.2 with m₁ | m₁
    · rw [h] at hassign
      exact hassign
    · rw [h] at hassign
      exact ⟨hassign.1.trans (ih m₁).1, fun hm ↦ (ih m₁).2 (hassign.2 hm)⟩

theorem size_of_assignAll {ps : List (Svalue × Svalue)} (h : assignAll w m ps = .ok m') :
    m.size ≤ m'.size ∧ (m.size ≤ MAX_MAPPING_SIZE → m'.size ≤ MAX_MAPPING_SIZE) := by
  have hsize := size_assignAll w ps m
  rwa [h] at hsize

theorem size_filterMap (m : Mapping) (keep : ℕ → ℕ → Svalue → Bool) :
    (m.filterMap keep).size = m.size := by
  have hfold (l : List ℕ) : ∀ r : Mapping, (l.foldl (filterBucket keep) r).size = r.size := by
    induction l with
    | nil => exact fun _ ↦ rfl
    | cons i l ih => exact fun r ↦ ih _
  exact hfold _ _

theorem size_addMapping {m1 m2 : Mapping} (h : addMapping w m1 m2 = .ok m) :
    (allocateMap (short (m1.card + m2.card))).size ≤ m.size ∧
      ((allocateMap (short (m1.card + m2.card))).size ≤ MAX_MAPPING_SIZE →
        m.size ≤ MAX_MAPPING_SIZE) := by
  rw [addMapping, ← assignAll_append] at h
  exact size_of_assignAll h

/-- **The limit**: a mapping that is obtained with small requests only has at most
`MAX_MAPPING_SIZE` buckets. -/
theorem limit (m : Mapping) :
    Obtainable Modest m → m.size ≤ MAX_MAPPING_SIZE := by
  intro h
  induction h with
  | allocateMap msize hrequest => exact (size_allocateMap msize).1 hrequest
  | getMapLvalue w k f _ ih => exact (size_getMapLvalue w _ k f).2 ih
  | rehashMap _ ih => exact (size_rehashMap _).2 ih
  | copyMapping _ ih => exact ih
  | addMapping w _ _ hrequest hok _ _ =>
    exact (size_addMapping hok).2 ((size_allocateMap _).1 hrequest)
  | addtoMapping w _ _ ih _ => exact (size_assignAll w _ _).2 ih
  | addtoItself w _ ih =>
    obtain ⟨-, hsize⟩ := addtoItselfLoop_invariant (w := w)
      (I := fun m _ ↦ m.size ≤ MAX_MAPPING_SIZE)
      (fun h _ ↦ h) (fun {m c p v} h _ ↦ (size_getMapLvalue w m p.arg fun _ ↦ v).2 h) _ (c := 0) ih
    exact hsize
  | @removeMapping m m' w k _ hok ih =>
    -- the number that is asked for is the size of the table
    have hshort := short_eq (ih.trans (by decide))
    have hrequest : Modest (short m.size) := by
      rw [hshort]
      exact ⟨by omega, by simp only [MAX_MAPPING_SIZE] at ih; omega⟩
    have hsize := (size_allocateMap _).1 hrequest
    rw [hshort] at hsize
    exact (size_of_assignAll hok).2 hsize
  | fill w msize ps hrequest =>
    exact (size_assignAll w ps _).2 ((size_allocateMap msize).1 hrequest)
  | swapIn w ps hrequest => exact (size_assignAll w ps _).2 ((size_allocateMap _).1 hrequest)
  | mapMap call _ ih => exact ih
  | filterMap keep _ ih => exact (size_filterMap _ keep).trans_le ih
  | checkForDestr w _ ih => exact ih

/-- It holds of a table for no pairs to which three are added, with the last of which it is
extended, and of its sum with itself. -/
theorem limit_sum :
    ∃ m, addMapping .calm ((allocateMap (short 0)).addNumbers .calm [1, 65537, 2])
        ((allocateMap (short 0)).addNumbers .calm [1, 65537, 2]) = .ok m ∧
      m.size = 4 ∧ m.stored.length = 3 ∧ m.size ≤ MAX_MAPPING_SIZE :=
  have h : Obtainable Modest ((allocateMap (short 0)).addNumbers .calm [1, 65537, 2]) :=
    .getMapLvalue .calm (.number 2) id <| .getMapLvalue .calm (.number 65537) id <|
      .getMapLvalue .calm (.number 1) id <| .allocateMap 0 (by decide)
  ⟨_, rfl, rfl, rfl, limit _ (.addMapping .calm h h (by decide) rfl)⟩

theorem exists_obtainable (w : World) : ∀ n ≤ 5120, ∃ m, Obtainable (fun _ ↦ True) m ∧ m.Inv ∧
    m.keys.Perm (integers n) := by
  intro n
  induction n with
  | zero =>
    refine fun _ ↦ ⟨_, .allocateMap 0 trivial, allocateMap_inv _, ?_⟩
    rw [keys_allocateMap]
    exact .refl _
  | succ n ih =>
    intro hn
    obtain ⟨m, hm, hinv, hkeys⟩ := ih (Nat.le_of_succ_le hn)
    obtain ⟨hinv', hkeys'⟩ := getMapLvalue_integer (w := w) hinv (by omega) hkeys
    exact ⟨_, .getMapLvalue w _ id hm, hinv', hkeys'⟩

/-- Two mappings with 5120 pairs each are added, and the sum has 8192 buckets. -/
theorem not_limit : ¬∀ m, Obtainable (fun _ ↦ True) m → m.size ≤ MAX_MAPPING_SIZE := by
  intro hall
  obtain ⟨m, hm, hinv, hkeys⟩ := exists_obtainable ⟨fun _ ↦ false, fun _ ↦ true⟩ 5120 le_rfl
  have hlen : m.stored.length = 5120 := by
    rw [← length_keys, hkeys.length_eq, length_integers]
  have hcard : short (m.card + m.card) = short (10240 : ℕ) := by
    rw [hinv.card, hlen, short_eq (by decide)]
    rfl
  obtain ⟨m', hok, -⟩ := (filled_allocateMap (short (m.card + m.card))).assignAll
    (w := ⟨fun _ ↦ false, fun _ ↦ true⟩) (entries m.stored ++ entries m.stored) (by
      rw [stored_allocateMap, List.length_append, length_entries, hlen]
      decide)
  rw [assignAll_append] at hok
  have hsize := (size_addMapping hok).1
  rw [hcard, (size_allocateMap (10240 : ℕ)).2 (by decide)] at hsize
  exact absurd (hsize.trans (hall m' (.addMapping _ hm hm trivial hok))) (by decide)

end Lpmud.Mapping
