import Lpmud.Interpret.Operators
import Lpmud.Mapping.Limit

/-!
# Mappings as finite maps

What the operations that make mappings out of others mean for those who look keys up. The keys are
integers, strings and live objects here; looking one up gives the value of its pair, or 0 if there
is none (`Inv.lookup_of_mem`, `Inv.lookup_of_notMem`). The loops of assignments are followed in the
list of pairs (`mem_puts`), so that neither buckets nor their order matter from there on.

An operation gives nothing but an error where the table would get too large (`Gives`). `+` makes
tables of up to 8192 buckets, `m_delete` and `mkmapping` only such as can be extended up to 4096.
So a key may not be taken out of a mapping with more than 10241 pairs. The arrays of
`m_indexes` and `m_values` are for at most `MAX_ARRAY_SIZE` pairs.
-/

namespace Lpmud.Mapping

open List
open Object (MAX_ARRAY_SIZE)
open Interpret (Failure)

variable {w : World} {m m₁ m₂ r : Mapping} {k v x : Svalue} {cs ps : List (Svalue × Svalue)}

/-! ### Listing a mapping -/

/-- The loop of `map_domain` and `map_codomain`, which copies a part of every pair to an array of
`card` elements. Where there are more pairs, it goes on past its end (`none`). -/
def listing (part : Apair → Svalue) (m : Mapping) : Except (Option Failure) (List Svalue) :=
  if m.card < 0 ∨ m.card > MAX_ARRAY_SIZE then .error (some (.error "Illegal array size.\n"))
  else if m.stored.length > m.card then .error none
  else .ok (m.stored.map part ++ .replicate (m.card.toNat - m.stored.length) const0)

def mapDomain : Mapping → Except (Option Failure) (List Svalue) :=
  listing Apair.arg

def mapCodomain : Mapping → Except (Option Failure) (List Svalue) :=
  listing Apair.val

theorem Shape.listing_eq_ok (h : m.Shape) (hle : m.stored.length ≤ MAX_ARRAY_SIZE)
    (part : Apair → Svalue) : listing part m = .ok (m.stored.map part) := by
  have hcard : m.card = m.stored.length := by
    rw [h.card, short_eq (hle.trans (by decide))]
  rw [listing, hcard, if_neg (by omega), if_neg (lt_irrefl _), Int.toNat_natCast, Nat.sub_self,
    replicate_zero, append_nil]

theorem Shape.listing_eq_error (h : m.Shape) (hgt : MAX_ARRAY_SIZE < m.stored.length)
    (hlt : m.stored.length < 65536) (part : Apair → Svalue) :
    listing part m = .error (some (.error "Illegal array size.\n")) := by
  rw [listing, if_pos]
  rw [h.card, short, Int.bmod_def]
  simp only [MAX_ARRAY_SIZE] at *
  split <;> omega

/-! ### Lists of pairs -/

/-- All keys of a list of pairs are integers, strings or live objects. -/
def Keyed (w : World) (ps : List (Svalue × Svalue)) : Prop :=
  ∀ p ∈ ps, p.1.IsKey w

theorem Keyed.put (hcs : Keyed w cs) (hk : k.IsKey w) : Keyed w (put w cs k v) := by
  intro p hp
  rw [Mapping.put] at hp
  split at hp
  · obtain ⟨q, hq, rfl⟩ := mem_map.1 hp
    split <;> exact hcs q hq
  · rcases mem_cons.1 hp with rfl | hp
    · exact hk
    · exact hcs p hp

theorem mem_put_self (hcs : Keyed w cs) (hk : k.IsKey w) : (k, v) ∈ put w cs k v := by
  rw [put]
  split
  case isTrue hany =>
    obtain ⟨⟨k', v'⟩, hq, hequal⟩ := any_eq_true.1 hany
    obtain rfl : k = k' := (equalSvalue_iff hk (hcs _ hq)).1 hequal
    exact mem_map.2 ⟨_, hq, if_pos hequal⟩
  case isFalse => exact mem_cons_self

theorem mem_put_of_ne {p : Svalue × Svalue} (hp : p ∈ cs) (hne : equalSvalue w k p.1 = false) :
    p ∈ put w cs k v := by
  rw [put]
  split
  · exact mem_map.2 ⟨p, hp, if_neg (by simp [hne])⟩
  · exact mem_cons_of_mem _ hp

theorem fst_mem_put (hcs : Keyed w cs) (hk : k.IsKey w) {a : Svalue} :
    a ∈ (put w cs k v).map Prod.fst ↔ a = k ∨ a ∈ cs.map Prod.fst := by
  rw [put]
  split
  case isTrue hany =>
    obtain ⟨⟨k', v'⟩, hq, hequal⟩ := any_eq_true.1 hany
    obtain rfl : k = k' := (equalSvalue_iff hk (hcs _ hq)).1 hequal
    have hfst : Prod.fst ∘ (fun p : Svalue × Svalue ↦ if equalSvalue w k p.1 then (p.1, v) else p) =
        Prod.fst := funext fun p ↦ by
      rw [Function.comp_apply]
      split <;> rfl
    rw [map_map, hfst]
    exact ⟨.inr, fun h ↦ h.elim (fun h ↦ h ▸ mem_map_of_mem hq) id⟩
  case isFalse => exact mem_cons

theorem mem_puts_of_untouched {p : Svalue × Svalue} (hp : p ∈ cs)
    (hps : untouched w ps p = true) : p ∈ puts w cs ps := by
  induction ps generalizing cs with
  | nil => exact hp
  | cons q ps ih =>
    rw [untouched_cons, Bool.and_eq_true, Bool.not_eq_true'] at hps
    exact ih (mem_put_of_ne hp hps.1) hps.2

theorem Keyed.puts (hcs : Keyed w cs) (hps : Keyed w ps) : Keyed w (puts w cs ps) := by
  induction ps generalizing cs with
  | nil => exact hcs
  | cons p ps ih =>
    obtain ⟨hp, hps⟩ := forall_mem_cons.1 hps
    exact ih (hcs.put hp) hps

theorem fst_mem_puts (hcs : Keyed w cs) (hps : Keyed w ps) {a : Svalue} :
    a ∈ (puts w cs ps).map Prod.fst ↔ a ∈ cs.map Prod.fst ∨ a ∈ ps.map Prod.fst := by
  induction ps generalizing cs with
  | nil => exact ⟨.inl, fun h ↦ h.resolve_right not_mem_nil⟩
  | cons p ps ih =>
    obtain ⟨hp, hps⟩ := forall_mem_cons.1 hps
    refine (ih (hcs.put hp) hps).trans ?_
    rw [fst_mem_put hcs hp, map_cons, mem_cons, or_assoc, or_left_comm]

theorem untouched_of_notMem (hk : k.IsKey w) (hps : Keyed w ps) (hnot : k ∉ ps.map Prod.fst) :
    untouched w ps (k, v) = true := by
  refine all_eq_true.2 fun p hp ↦ ?_
  rw [Bool.not_eq_true', Bool.eq_false_iff]
  intro hequal
  exact hnot ((equalSvalue_iff (hps p hp) hk).1 hequal ▸ mem_map_of_mem hp)

/-- **The last value that is assigned to a key is there** in the end. -/
theorem mem_puts (hcs : Keyed w cs) {as bs : List (Svalue × Svalue)}
    (hps : Keyed w (as ++ (k, v) :: bs)) (hlast : k ∉ bs.map Prod.fst) :
    (k, v) ∈ puts w cs (as ++ (k, v) :: bs) := by
  obtain ⟨has, hcons⟩ := forall_mem_append.1 hps
  obtain ⟨hk, hbs⟩ := forall_mem_cons.1 hcons
  rw [puts, foldl_append, foldl_cons]
  exact mem_puts_of_untouched (mem_put_self (Keyed.puts hcs has) hk)
    (untouched_of_notMem hk hbs hlast)

theorem puts_of_nodup (hps : Keyed w ps) (hnodup : (ps.map Prod.fst).Nodup) :
    puts w [] ps = ps.reverse := by
  rw [puts_new (fun _ _ _ hq ↦ absurd hq not_mem_nil), append_nil]
  refine (pairwise_map.1 hnodup).imp_of_mem fun hp hq hne ↦ ?_
  rw [Bool.eq_false_iff]
  exact fun hequal ↦ hne ((equalSvalue_iff (hps _ hq) (hps _ hp)).1 hequal).symm

/-! ### Looking keys up -/

theorem lasting_of_isKey (hk : k.IsKey w) : k.Lasting w := by
  cases k with
  | number n => exact ⟨rfl, nofun⟩
  | string s => exact ⟨rfl, nofun⟩
  | object ob => exact ⟨hk, nofun⟩
  | _ => exact hk.elim

theorem keyId_injective {a b : Svalue} (ha : a.IsKey w) (hb : b.IsKey w) (h : a.keyId = b.keyId) :
    a = b :=
  (equalSvalue_iff ha hb).1
    ((equalSvalue_iff_keyId (lasting_of_isKey ha) (lasting_of_isKey hb)).2 h)

theorem keys_eq (m : Mapping) : m.keys = (entries m.stored).map Prod.fst := by
  rw [keys, entries, map_map]
  rfl

namespace Inv

theorem hasKeys (h : m.Inv) (hw : m.KeysLive w) : HasKeys w {k | k.IsKey w} m where
  inv := h
  mem p hp := hw _ (mem_map_of_mem hp)
  nodup := by
    have hkeys : (m.keys.map Svalue.keyId).Nodup := h.nodup.map_on fun a ha b hb ↦
      keyId_injective (hw a ha) (hw b hb)
    rwa [keys, map_map] at hkeys
  lasting _ hk := lasting_of_isKey hk

theorem lookup_of_mem (h : m.Inv) (hw : m.KeysLive w) (hmem : (k, v) ∈ entries m.stored) :
    m.lookup w k = v := by
  obtain ⟨p, hp, heq⟩ := mem_map.1 hmem
  obtain ⟨rfl, rfl⟩ := Prod.mk.inj heq
  exact (h.hasKeys hw).lookup_eq (hw _ (mem_map_of_mem hp)) hp rfl

theorem lookup_of_notMem (h : m.Inv) (hw : m.KeysLive w) (hk : k.IsKey w) (hnot : k ∉ m.keys) :
    m.lookup w k = const0 := by
  rw [lookup, h.find?_chain, List.find?_eq_none.2]
  intro p hp hsame
  have harg : p.arg ∈ m.keys := mem_map_of_mem hp
  exact hnot ((equalSvalue_iff hk (hw _ harg)).1 (Bool.and_eq_true_iff.1 hsame).2 ▸ harg)

theorem live (h : m.Inv) (hw : m.KeysLive w) : Live w m where
  toFilled := ⟨h.toShape, h.fill⟩
  dead _ hp := (lasting_of_isKey (hw _ (mem_map_of_mem hp))).dead
  distinct := (pairwise_map.1 h.nodup).imp_of_mem fun hp hq hne ↦ by
    rw [Bool.eq_false_iff]
    exact mt (equalSvalue_iff (hw _ (mem_map_of_mem hp)) (hw _ (mem_map_of_mem hq))).1 hne

end Inv

/-! ### Loops of assignments -/

/-- An operation returns a mapping of a kind if there is room for it, and raises an error
otherwise. -/
def Gives (op : Except Mapping Mapping) (room : Prop) (P : Mapping → Prop) : Prop :=
  (room → ∃ r, op = .ok r ∧ P r) ∧ (¬room → ∃ r, op = .error r)

theorem Gives.of_ok {op : Except Mapping Mapping} {room : Prop} {P : Mapping → Prop}
    (h : Gives op room P) (hr : op = .ok r) : P r := by
  by_cases hroom : room
  · obtain ⟨r', hr', hP⟩ := h.1 hroom
    rwa [Except.ok.inj (hr.symm.trans hr')]
  · obtain ⟨r', hr'⟩ := h.2 hroom
    cases hr.symm.trans hr'

/-- A mapping with such keys, whose pairs are those of a list. -/
structure Holds (w : World) (cs : List (Svalue × Svalue)) (r : Mapping) : Prop where
  inv : r.Inv
  keysLive : r.KeysLive w
  perm : (entries r.stored).Perm cs

namespace Holds

theorem mem_keys (h : Holds w cs r) : k ∈ r.keys ↔ k ∈ cs.map Prod.fst := by
  rw [keys_eq]
  exact (h.perm.map Prod.fst).mem_iff

theorem lookup (h : Holds w cs r) (hmem : (k, v) ∈ cs) : r.lookup w k = v :=
  h.inv.lookup_of_mem h.keysLive (h.perm.mem_iff.2 hmem)

end Holds

theorem KeysLive.keyed (hw : m.KeysLive w) : Keyed w (Mapping.entries m.stored) :=
  hw.entries

theorem assignAll_gives (h : m.Inv) (hw : m.KeysLive w) (hps : Keyed w ps) :
    Gives (assignAll w m ps) (m.Fits (puts w (entries m.stored) ps).length)
      (Holds w (puts w (entries m.stored) ps)) := by
  obtain ⟨hok, herr⟩ := assignAll_live ps (h.live hw)
    fun p hp ↦ (lasting_of_isKey (hps p hp)).dead
  refine ⟨fun hroom ↦ ?_, herr⟩
  obtain ⟨r, hr, hperm⟩ := hok hroom
  have hinv := (assignAll_spec ps h hw hps).1
  rw [hr] at hinv
  refine ⟨r, hr, hinv, fun k hk ↦ ?_, hperm⟩
  rw [keys_eq, (hperm.map Prod.fst).mem_iff] at hk
  obtain ⟨p, hp, rfl⟩ := mem_map.1 hk
  exact hw.keyed.puts hps p hp

theorem keysLive_of_perm (hperm : (entries r.stored).Perm cs) (hcs : Keyed w cs) :
    r.KeysLive w := by
  intro k hk
  rw [keys_eq, (hperm.map Prod.fst).mem_iff] at hk
  obtain ⟨p, hp, rfl⟩ := mem_map.1 hk
  exact hcs p hp

/-! ### `+` and `+=` -/

/-- The pairs of two mappings; where both have a key, that of the second one. -/
structure Sum (w : World) (m₁ m₂ r : Mapping) : Prop where
  keys : ∀ k, k ∈ r.keys ↔ k ∈ m₁.keys ∨ k ∈ m₂.keys
  second : ∀ k ∈ m₂.keys, r.lookup w k = m₂.lookup w k
  first : ∀ k, k.IsKey w → k ∉ m₂.keys → r.lookup w k = m₁.lookup w k

theorem exists_entry (hk : k ∈ m.keys) : ∃ v, (k, v) ∈ entries m.stored := by
  rw [keys_eq] at hk
  obtain ⟨⟨k, v⟩, hmem, rfl⟩ := mem_map.1 hk
  exact ⟨v, hmem⟩

section Sum

variable (h₁ : m₁.Inv) (hw₁ : m₁.KeysLive w) (h₂ : m₂.Inv) (hw₂ : m₂.KeysLive w)

include h₁ hw₁ h₂ hw₂

theorem Holds.sum (h : Holds w (union w m₁ m₂) r) : Sum w m₁ m₂ r := by
  have hkeys (k : Svalue) : k ∈ r.keys ↔ k ∈ m₁.keys ∨ k ∈ m₂.keys := by
    rw [h.mem_keys, union, fst_mem_puts hw₁.keyed hw₂.keyed, keys_eq, keys_eq]
  refine ⟨hkeys, fun k hk ↦ ?_, fun k hk hnot ↦ ?_⟩
  · obtain ⟨v, hmem⟩ := exists_entry hk
    rw [h₂.lookup_of_mem hw₂ hmem]
    obtain ⟨as, bs, heq⟩ := append_of_mem hmem
    refine h.lookup ?_
    have hnodup := h₂.nodup
    rw [keys_eq, heq, map_append, map_cons] at hnodup
    rw [union, heq]
    exact mem_puts hw₁.keyed (heq ▸ hw₂.keyed) (nodup_cons.1 hnodup.of_append_right).1
  · by_cases hmem : k ∈ m₁.keys
    · obtain ⟨v, hv⟩ := exists_entry hmem
      rw [h₁.lookup_of_mem hw₁ hv]
      refine h.lookup (mem_puts_of_untouched hv (untouched_of_notMem hk hw₂.keyed ?_))
      rwa [← keys_eq]
    · rw [h₁.lookup_of_notMem hw₁ hk hmem]
      exact h.inv.lookup_of_notMem h.keysLive hk fun hr ↦ ((hkeys k).1 hr).elim hmem hnot

/-- **`+` as a sum of finite maps.** -/
theorem addMapping_gives :
    Gives (addMapping w m₁ m₂) ((union w m₁ m₂).length ≤ 20480) (Sum w m₁ m₂) := by
  obtain ⟨hok, herr⟩ := addMapping_spec (h₁.live hw₁) (h₂.live hw₂)
  refine ⟨fun hroom ↦ ?_, herr⟩
  obtain ⟨r, hr, hperm⟩ := hok hroom
  have hinv : r.Inv := by
    rw [addMapping, ← assignAll_append] at hr
    exact (assignAll_allocateMap (forall_mem_append.2 ⟨hw₁.entries, hw₂.entries⟩) hr).1
  have hlive := keysLive_of_perm hperm (hw₁.keyed.puts hw₂.keyed)
  exact ⟨r, hr, Holds.sum h₁ hw₁ h₂ hw₂ ⟨hinv, hlive, hperm⟩⟩

/-- **`+=` as a sum of finite maps.** -/
theorem addtoMapping_gives :
    Gives (addtoMapping w m₁ m₂) (m₁.Fits (union w m₁ m₂).length) (Sum w m₁ m₂) := by
  obtain ⟨hok, herr⟩ := assignAll_gives h₁ hw₁ hw₂.keyed
  refine ⟨fun hroom ↦ ?_, herr⟩
  obtain ⟨r, hr, hholds⟩ := hok hroom
  exact ⟨r, hr, Holds.sum h₁ hw₁ h₂ hw₂ hholds⟩

end Sum

/-! ### `m_delete` -/

/-- The mapping without what is under a key. -/
structure Without (w : World) (m : Mapping) (x : Svalue) (r : Mapping) : Prop where
  keys : ∀ k, k ∈ r.keys ↔ k ∈ m.keys ∧ equalSvalue w x k = false
  kept : ∀ k ∈ r.keys, r.lookup w k = m.lookup w k
  gone : ∀ k, k.IsKey w → k ∉ r.keys → r.lookup w k = const0

/-- The pairs that are not under the key. -/
def kept (w : World) (m : Mapping) (x : Svalue) : List Apair :=
  m.stored.filter fun p ↦ !equalSvalue w x p.arg

theorem removeMapping_eq (h : m.Inv) (hw : m.KeysLive w) (hx : w.dead x = false) :
    removeMapping w m x = assignAll w (allocateMap m.size) (entries (kept w m x)) := by
  rw [removeMapping, kept, stored, Buckets.elems, filter_flatMap, entries, map_flatMap]
  congr 1
  refine flatMap_congr fun i hi ↦ congrArg (List.map _) (filter_congr fun p hp ↦ ?_)
  have hi' := mem_range.1 hi
  have hstored : p ∈ m.stored := Buckets.mem_elems.2 ⟨i, hi', hp⟩
  have hslot : slot m.size p.hashval = i := h.placed i hi' p hp
  cases hequal : equalSvalue w x p.arg with
  | false => rw [Bool.and_false]
  | true =>
    have hdead := (lasting_of_isKey (hw _ (mem_map_of_mem hstored))).dead
    rw [hashsvalue_of_equalSvalue hx hdead hequal, ← h.hash p hstored, hslot, beq_self_eq_true,
      Bool.true_and]

theorem size_allocateMap_le {msize : ℤ} (h : Modest msize) : (allocateMap msize).size ≤ 4096 :=
  sizeLoop_le 12 32 _ le_rfl (toNat_lt_of_modest h)

theorem fits_of_modest {msize : ℤ} (h : Modest msize) {n : ℕ} :
    (allocateMap msize).Fits n ↔ n ≤ 10240 := by
  have hshape := (allocateMap_table msize).toShape
  have hnil := stored_allocateMap msize
  rw [hshape.fits_iff (by rw [hnil]; decide), hshape.capacity_eq (size_allocateMap_le h),
    fsize_4096, hnil, length_nil]
  omega

theorem keysLive_allocateMap (w : World) (msize : ℤ) : (allocateMap msize).KeysLive w := by
  intro k hk
  rw [keys_allocateMap] at hk
  exact absurd hk not_mem_nil

/-- **`m_delete` takes out a key**, if at most 10240 pairs are left. -/
theorem removeMapping_gives (h : m.Inv) (hw : m.KeysLive w) (hx : w.dead x = false) :
    Gives (removeMapping w m x) ((kept w m x).length ≤ 10240) (Without w m x) := by
  obtain ⟨i, hi, hsize⟩ := h.size
  have hmodest : Modest m.size := by
    have hle : 2 ^ i ≤ 2 ^ 13 := Nat.pow_le_pow_right (by decide) hi
    rw [Modest, hsize]
    omega
  have hsub : (entries (kept w m x)).Sublist (entries m.stored) := filter_sublist.map _
  have hkeyed : Keyed w (entries (kept w m x)) := fun p hp ↦ hw.keyed p (hsub.subset hp)
  have hnil : entries (allocateMap m.size).stored = [] := by
    rw [stored_allocateMap]
    rfl
  have hnodup : ((entries (kept w m x)).map Prod.fst).Nodup :=
    (keys_eq m ▸ h.nodup).sublist (hsub.map _)
  have hgives := assignAll_gives (allocateMap_inv m.size) (keysLive_allocateMap w m.size) hkeyed
  rw [hnil, puts_of_nodup hkeyed hnodup, length_reverse, length_entries,
    fits_of_modest hmodest, ← removeMapping_eq h hw hx] at hgives
  obtain ⟨hok, herr⟩ := hgives
  refine ⟨fun hroom ↦ ?_, herr⟩
  obtain ⟨r, hr, hholds⟩ := hok hroom
  have hkeys (k : Svalue) : k ∈ r.keys ↔ k ∈ (kept w m x).map Apair.arg := by
    rw [hholds.mem_keys, map_reverse, mem_reverse, entries, map_map]
    rfl
  refine ⟨r, hr, fun k ↦ (hkeys k).trans ?_, fun k hk ↦ ?_, fun k hk hnot ↦ ?_⟩
  · constructor
    · intro hk
      obtain ⟨p, hp, rfl⟩ := mem_map.1 hk
      obtain ⟨hp, hne⟩ := mem_filter.1 hp
      exact ⟨mem_map_of_mem hp, by simpa using hne⟩
    · rintro ⟨hk, hne⟩
      obtain ⟨p, hp, rfl⟩ := mem_map.1 hk
      exact mem_map_of_mem (mem_filter.2 ⟨hp, by simpa using hne⟩)
  · obtain ⟨p, hp, rfl⟩ := mem_map.1 ((hkeys k).1 hk)
    have hmem : (p.arg, p.val) ∈ entries (kept w m x) := mem_map_of_mem hp
    rw [h.lookup_of_mem hw (hsub.subset hmem)]
    exact hholds.lookup (mem_reverse.2 hmem)
  · exact hholds.inv.lookup_of_notMem hholds.keysLive hk hnot

/-! ### `mkmapping` -/

/-- The mapping of the keys of an array to the values of another one. Of these two, only as much as
both have is looked at; the last value of a key counts. -/
structure Made (w : World) (ind val : List Svalue) (r : Mapping) : Prop where
  keys : ∀ k, k ∈ r.keys ↔ k ∈ ind.take val.length
  last : ∀ (i : ℕ) (k v : Svalue), ind[i]? = some k → val[i]? = some v →
    k ∉ (ind.take val.length).drop (i + 1) → r.lookup w k = v
  absent : ∀ k, k.IsKey w → k ∉ ind.take val.length → r.lookup w k = const0

theorem map_fst_zip : ∀ ind val : List Svalue, (ind.zip val).map Prod.fst = ind.take val.length
  | [], _ => take_nil.symm
  | _ :: _, [] => rfl
  | k :: ind, _ :: val => congrArg (k :: ·) (map_fst_zip ind val)

/-- What the assignments of `make_mapping` give. -/
theorem makeMapping_holds {ind : List Svalue} (val : List Svalue) (hind : ∀ k ∈ ind, k.IsKey w) :
    Gives (makeMapping w (some ind) (some val))
      ((allocateMap (min ind.length val.length : ℕ)).Fits (puts w [] (ind.zip val)).length)
      (Holds w (puts w [] (ind.zip val))) := by
  have hkeyed : Keyed w (ind.zip val) := fun p hp ↦ hind p.1 (of_mem_zip hp).1
  have hgives := assignAll_gives (allocateMap_inv (min ind.length val.length : ℕ))
    (keysLive_allocateMap w _) hkeyed
  rw [entries, stored_allocateMap, map_nil] at hgives
  rwa [makeMapping, ← Nat.cast_min]

/-- **`mkmapping` makes a mapping of two arrays**, if they are not too large. -/
theorem exists_makeMapping {ind val : List Svalue} (hind : ∀ k ∈ ind, k.IsKey w)
    (hle : min ind.length val.length ≤ MAX_ARRAY_SIZE) :
    ∃ r, makeMapping w (some ind) (some val) = .ok r := by
  simp only [MAX_ARRAY_SIZE] at hle
  have hmodest : Modest (min ind.length val.length : ℕ) := ⟨by omega, by omega⟩
  have hputs := (length_le_puts w (ind.zip val) []).2
  rw [length_nil, length_zip] at hputs
  obtain ⟨r, hr, -⟩ := (makeMapping_holds val hind).1 ((fits_of_modest hmodest).2 (by omega))
  exact ⟨r, hr⟩

/-- **What `mkmapping` makes.** -/
theorem made_of_makeMapping {ind val : List Svalue} (hind : ∀ k ∈ ind, k.IsKey w)
    (hr : makeMapping w (some ind) (some val) = .ok r) : Made w ind val r := by
  have hkeyed : Keyed w (ind.zip val) := fun p hp ↦ hind p.1 (of_mem_zip hp).1
  have hempty : Keyed w [] := fun _ hp ↦ absurd hp not_mem_nil
  have hholds := (makeMapping_holds val hind).of_ok hr
  have hkeys (k : Svalue) : k ∈ r.keys ↔ k ∈ ind.take val.length := by
    rw [hholds.mem_keys, fst_mem_puts hempty hkeyed, map_fst_zip]
    exact ⟨fun h ↦ h.resolve_left not_mem_nil, .inr⟩
  refine ⟨hkeys, fun i k v hk hv hlast ↦ hholds.lookup ?_, fun k hk hnot ↦ ?_⟩
  · have hzip : (ind.zip val)[i]? = some (k, v) := List.getElem?_zip_eq_some.2 ⟨hk, hv⟩
    obtain ⟨hi, hget⟩ := List.getElem?_eq_some_iff.1 hzip
    have hsplit : (ind.zip val).take i ++ (k, v) :: (ind.zip val).drop (i + 1) = ind.zip val := by
      rw [← hget, ← drop_eq_getElem_cons hi, take_append_drop]
    rw [← hsplit] at hkeyed ⊢
    refine mem_puts hempty hkeyed ?_
    rwa [map_drop, map_fst_zip]
  · exact hholds.inv.lookup_of_notMem hholds.keysLive hk (mt (hkeys k).1 hnot)

/-! ### `m_indexes` and `m_values` -/

/-- Each pair is listed once, its key and its value at the same place. -/
structure Listed (w : World) (m : Mapping) (ks vs : List Svalue) : Prop where
  nodup : ks.Nodup
  keys : ∀ k, k ∈ ks ↔ k ∈ m.keys
  length : vs.length = ks.length
  values : ∀ (i : ℕ) (k v : Svalue), ks[i]? = some k → vs[i]? = some v → m.lookup w k = v

theorem listed (h : m.Inv) (hw : m.KeysLive w) :
    Listed w m (m.stored.map Apair.arg) (m.stored.map Apair.val) where
  nodup := h.nodup
  keys _ := Iff.rfl
  length := by rw [length_map, length_map]
  values i k v hk hv := by
    rw [List.getElem?_map, Option.map_eq_some_iff] at hk hv
    obtain ⟨p, hp, rfl⟩ := hk
    obtain ⟨q, hq, rfl⟩ := hv
    obtain rfl : p = q := Option.some.inj (hp.symm.trans hq)
    exact h.lookup_of_mem hw (mem_map_of_mem (mem_of_getElem? hp))

/-! ### The operations together -/

/-- **Mapping arithmetic is that of finite maps**, as long as no mapping or array gets too large. -/
structure FiniteMaps (w : World) (m₁ m₂ : Mapping) (x : Svalue) (ind val : List Svalue) : Prop where
  add : Gives (addMapping w m₁ m₂) ((union w m₁ m₂).length ≤ 20480) (Sum w m₁ m₂)
  addto : Gives (addtoMapping w m₁ m₂) (m₁.Fits (union w m₁ m₂).length) (Sum w m₁ m₂)
  remove : Gives (removeMapping w m₁ x) ((kept w m₁ x).length ≤ 10240) (Without w m₁ x)
  make : min ind.length val.length ≤ MAX_ARRAY_SIZE →
    ∃ r, makeMapping w (some ind) (some val) = .ok r
  made : ∀ r, makeMapping w (some ind) (some val) = .ok r → Made w ind val r
  indexes : m₁.stored.length ≤ MAX_ARRAY_SIZE →
    ∃ ks vs, mapDomain m₁ = .ok ks ∧ mapCodomain m₁ = .ok vs ∧ Listed w m₁ ks vs
  refused : MAX_ARRAY_SIZE < m₁.stored.length → m₁.stored.length < 65536 →
    mapDomain m₁ = .error (some (.error "Illegal array size.\n")) ∧
      mapCodomain m₁ = .error (some (.error "Illegal array size.\n"))

/-- **Mapping arithmetic.** The invariant is that of all mappings that can be made
(`Reachable.inv`). -/
theorem finiteMaps (h₁ : m₁.Inv) (h₂ : m₂.Inv) (hw₁ : m₁.KeysLive w) (hw₂ : m₂.KeysLive w)
    (hx : w.dead x = false) {ind : List Svalue} (val : List Svalue)
    (hind : ∀ k ∈ ind, k.IsKey w) : FiniteMaps w m₁ m₂ x ind val where
  add := addMapping_gives h₁ hw₁ h₂ hw₂
  addto := addtoMapping_gives h₁ hw₁ h₂ hw₂
  remove := removeMapping_gives h₁ hw₁ hx
  make := exists_makeMapping hind
  made _ := made_of_makeMapping hind
  indexes hle := ⟨_, _, h₁.toShape.listing_eq_ok hle _, h₁.toShape.listing_eq_ok hle _,
    listed h₁ hw₁⟩
  refused hgt hlt := ⟨h₁.toShape.listing_eq_error hgt hlt _,
    h₁.toShape.listing_eq_error hgt hlt _⟩

/-- A mapping of numbers to numbers. -/
def ofNumbers (ind val : List (BitVec 32)) : Mapping :=
  result (makeMapping .calm (some (ind.map .number)) (some (val.map .number)))

/-- Two mappings with a key in common, one of them with keys of the same hash value, and the arrays
`({ 1, 1 })` and `({ 2, 3 })`. -/
theorem finiteMaps_collision :
    (ofNumbers [1, 65537, 2] [5, 6, 7]).stored.map Apair.hashval = [2, 1, 1] ∧
    FiniteMaps .calm (ofNumbers [1, 65537, 2] [5, 6, 7]) (ofNumbers [2, 3] [8, 9])
      (.number 65537) [.number 1, .number 1] [.number 2, .number 3] := by
  have hkeys (n : List (BitVec 32)) : ∀ k ∈ n.map Svalue.number, k.IsKey .calm := fun k hk ↦ by
    obtain ⟨i, -, rfl⟩ := mem_map.1 hk
    trivial
  have hmade (n v : List (BitVec 32)) (hok : makeMapping .calm (some (n.map .number))
      (some (v.map .number)) = .ok (ofNumbers n v)) : Reachable Any (ofNumbers n v) := by
    refine .makeMapping .calm ?_ hok
    exact hkeys n
  exact ⟨rfl, finiteMaps (hmade [1, 65537, 2] [5, 6, 7] rfl).inv.1 (hmade [2, 3] [8, 9] rfl).inv.1
    (keysLive_of_eq (n := [2, 65537, 1]) rfl) (keysLive_of_eq (n := [3, 2]) rfl) rfl _
    (hkeys [1, 1])⟩

/-- A mapping is not taken out of another one: it is taken for a key, which is not there. -/
theorem not_remove_mapping : ¬∀ (w : World) (m₁ m₂ r : Mapping) (map : Addr), Reachable Any m₁ →
    Reachable Any m₂ → m₁.KeysLive w → m₂.KeysLive w →
    removeMapping w m₁ (.mapping map (entries m₂.stored)) = .ok r →
    ∀ k, k ∈ r.keys ↔ k ∈ m₁.keys ∧ k ∉ m₂.keys := by
  intro hall
  obtain ⟨m, hm, hkeys⟩ := exists_keys ⟨fun _ ↦ false, fun _ ↦ true⟩ 1 (by decide)
  have hw := keysLive_integers ⟨fun _ ↦ false, fun _ ↦ true⟩ hkeys
  have hzero : Svalue.number 0 ∈ m.keys := hkeys.mem_iff.2 (mem_singleton_self _)
  obtain ⟨hok, -⟩ := removeMapping_gives (x := .mapping 0 (entries m.stored)) hm.inv.1 hw rfl
  have hroom : (kept ⟨fun _ ↦ false, fun _ ↦ true⟩ m (.mapping 0 (entries m.stored))).length ≤
      10240 := by
    refine (length_filter_le ..).trans ?_
    rw [← length_keys, hkeys.length_eq, length_integers]
    decide
  obtain ⟨r, hr, hwithout⟩ := hok hroom
  exact ((hall _ m m r 0 hm hm hw hw hr (.number 0)).1 ((hwithout.keys _).2 ⟨hzero, rfl⟩)).2 hzero

end Lpmud.Mapping
