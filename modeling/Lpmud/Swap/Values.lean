import Lpmud.Mapping.Merge
import Lpmud.Object.Save

/-!
# Variables that are swapped

`swap_svalue` and `unswap_svalue` of `swap.c`: how a value is written to the swap file, and what is
made of it when it is read back.

Arrays and mappings that are referred to elsewhere stay in memory, with their address in the file.
The others are written with what is in them, and made anew; they get other addresses (`rename`), and
a mapping gets another table. Meanwhile objects may be destructed.

What is read is the same value as before (`unswap_swap`), with the same answers to all lookups, if
no mapping that is made anew has a destructed object as a key by then, or the key 0 and a function
that cannot be called, or too many pairs. A key that is a destructed object becomes the key 0
(`not_unswap_swap`).
-/

namespace Lpmud.Swap

open List
open Mapping (sameKey Distinct Sound entries equalSvalue_symm equalSvalue_trans
  equalSvalue_of_not_refl)
open Object (MAX_ARRAY_SIZE)
open Option (bind_some map_some)

/-! ### Writing -/

/-- What is written by one call of `swap_write`, and read by one of `swap_read`: a `struct svalue`
marked with `T_LVALUE`, which is the value itself, one with the size of what follows, or the bytes
of a string. -/
inductive Piece where
  | kept (v : Svalue)
  | string (len : ℕ)
  | chars (data : Bytes)
  | pointer (size : ℕ)
  | mapping (card : ℤ)

section SwapOut

variable (w : World) (ref : Addr → ℕ)

mutual

/-- `swap_svalue`, where `ref` says how often an array or a mapping is referred to. It stops the
driver if the number of pairs of a mapping is not right. -/
def swapSvalue : Svalue → Option (List Piece)
  | .object ob => some [.kept (if w.destructed ob then const0 else .object ob)]
  | .string s => some [.string (s.bytes.length + 1), .chars (s.bytes ++ [0])]
  | .pointer vec item =>
    if ref vec ≠ 1 then some [.kept (.pointer vec item)]
    else (swapItems item).map (.pointer item.length :: ·)
  | .mapping map pairs =>
    if ref map ≠ 1 then some [.kept (.mapping map pairs)]
    else if short pairs.length = pairs.length then
      (swapPairs pairs).map (.mapping (short pairs.length) :: ·)
    else none
  | v => some [.kept v]

/-- The loop over the elements of an array. -/
def swapItems : List Svalue → Option (List Piece)
  | [] => some []
  | v :: item => (swapSvalue v).bind fun ps ↦ (swapItems item).map (ps ++ ·)

/-- The loops over the pairs of a mapping. -/
def swapPairs : List (Svalue × Svalue) → Option (List Piece)
  | [] => some []
  | (k, v) :: pairs => (swapSvalue k).bind fun ps ↦ (swapSvalue v).bind fun qs ↦
    (swapPairs pairs).map (ps ++ qs ++ ·)

end

end SwapOut

/-! ### Reading -/

/-- What a loop that reads leaves: what it has read, how many arrays and mappings have been made,
and the rest of the file. -/
abbrev Read (α : Type) : Type := Option (α × ℕ × List Piece)

section SwapIn

variable (w : World) (nullVector : Addr) (fresh : ℕ → Addr)

/-- The loop over the elements of an array. -/
def readItems (read : ℕ → List Piece → Read Svalue) : ℕ → ℕ → List Piece → Read (List Svalue)
  | 0, n, ps => some ([], n, ps)
  | i + 1, n, ps => (read n ps).bind fun (v, n, ps) ↦
    (readItems read i n ps).map fun (item, rest) ↦ (v :: item, rest)

/-- The loop over the pairs of a mapping. The source makes the pair of a key first and then reads
the value into it, which is the same as to assign the value. -/
def readPairs (read : ℕ → List Piece → Read Svalue) : ℕ → Mapping → ℕ → List Piece → Read Mapping
  | 0, m, n, ps => some (m, n, ps)
  | i + 1, m, n, ps => (read n ps).bind fun (marg, n, ps) ↦ (read n ps).bind fun (mval, n, ps) ↦
    (m.assign w marg mval).toOption.bind fun m ↦ readPairs read i m n ps

/-- `unswap_svalue`, up to a depth. The address of the `n`-th array or mapping that is made is
`fresh n`, and there is only one array without elements. Nothing is read where `allocate_array` or
`get_map_lvalue` raises an error. -/
def unswapSvalue : ℕ → ℕ → List Piece → Read Svalue
  | 0, _, _ => none
  | _ + 1, n, .kept v :: ps =>
    match v with
    | .object ob => some (if w.destructed ob then const0 else .object ob, n, ps)
    | v => some (v, n, ps)
  | _ + 1, n, .string len :: .chars data :: ps =>
    if data.length = len then some (.string (.ofBytes data), n, ps) else none
  | depth + 1, n, .pointer size :: ps =>
    if size > MAX_ARRAY_SIZE then none
    else if size = 0 then some (.pointer nullVector [], n, ps)
    else (readItems (unswapSvalue depth) size (n + 1) ps).map fun (item, rest) ↦
      (.pointer (fresh n) item, rest)
  | depth + 1, n, .mapping card :: ps =>
    (readPairs w (unswapSvalue depth) card.toNat (.allocateMap card) (n + 1) ps).map
      fun (m, rest) ↦ (.mapping (fresh n) (Mapping.entries m.stored), rest)
  | _ + 1, _, _ => none

end SwapIn

/-! ### What is written with its contents -/

section Moved

variable (ref : Addr → ℕ)

mutual

/-- A predicate holds of the arrays and the mappings in a value that are written with what is in
them. -/
def AllMoved (P : Svalue → Prop) : Svalue → Prop
  | .pointer vec item => ref vec = 1 → P (.pointer vec item) ∧ AllMovedItems P item
  | .mapping map pairs => ref map = 1 → P (.mapping map pairs) ∧ AllMovedPairs P pairs
  | _ => True

def AllMovedItems (P : Svalue → Prop) : List Svalue → Prop
  | [] => True
  | v :: item => AllMoved P v ∧ AllMovedItems P item

def AllMovedPairs (P : Svalue → Prop) : List (Svalue × Svalue) → Prop
  | [] => True
  | (k, v) :: pairs => (AllMoved P k ∧ AllMoved P v) ∧ AllMovedPairs P pairs

end

mutual

/-- The addresses of the arrays and the mappings that are written with what is in them, in the order
in which they are made again. -/
def moved : Svalue → List Addr
  | .pointer vec item => if ref vec ≠ 1 then [] else vec :: movedItems item
  | .mapping map pairs => if ref map ≠ 1 then [] else map :: movedPairs pairs
  | _ => []

def movedItems : List Svalue → List Addr
  | [] => []
  | v :: item => moved v ++ movedItems item

def movedPairs : List (Svalue × Svalue) → List Addr
  | [] => []
  | (k, v) :: pairs => moved k ++ moved v ++ movedPairs pairs

end

end Moved

/-! ### What stays the same -/

/-- The value that `get_map_lvalue` finds under a key, in the pairs of a table. -/
def lookupIn (w : World) (pairs : List (Svalue × Svalue)) (k : Svalue) : Svalue :=
  match pairs.find? fun p ↦ sameKey w k p.1 with
  | some p => p.2
  | none => const0

/-- One key is the other one, where arrays and mappings have the addresses `rename`. -/
def SameKey (rename : Addr → Addr) (k k' : Svalue) : Prop :=
  match k with
  | .pointer vec _ => ∃ item', k' = .pointer (rename vec) item'
  | .mapping map _ => ∃ pairs', k' = .mapping (rename map) pairs'
  | k => k' = k

/-- The address of an array or a mapping is among those in use. -/
def Used (used : Set Addr) : Svalue → Prop
  | .pointer vec _ => vec ∈ used
  | .mapping map _ => map ∈ used
  | _ => True

/-- **A value is the same as another one**, where arrays and mappings have the addresses `rename`: a
destructed object is 0, arrays have the same elements, and mappings answer every lookup with the
same value. -/
inductive SameValue (w : World) (rename : Addr → Addr) (used : Set Addr) :
    Svalue → Svalue → Prop where
  | refl (v : Svalue) : SameValue w rename used v v
  | destructed {ob : Obj} : w.destructed ob = true → SameValue w rename used (.object ob) const0
  | pointer {vec : Addr} {item item' : List Svalue} :
      List.Forall₂ (SameValue w rename used) item item' →
      SameValue w rename used (.pointer vec item) (.pointer (rename vec) item')
  | mapping {map : Addr} {pairs pairs' : List (Svalue × Svalue)} :
      (∀ k k', Used used k → SameKey rename k k' →
        SameValue w rename used (lookupIn w pairs k) (lookupIn w pairs' k')) →
      SameValue w rename used (.mapping map pairs) (.mapping (rename map) pairs')

/-- It is what the table answers. -/
theorem lookup_eq_lookupIn {m : Mapping} (h : m.Shape) (w : World) (k : Svalue) :
    m.lookup w k = lookupIn w (entries m.stored) k := by
  rw [Mapping.lookup, h.find?_chain, lookupIn, entries, find?_map, Function.comp_def]
  cases m.stored.find? _ <;> rfl

section Lookup

variable {w : World} {rename : Addr → Addr} {used : Set Addr} {a a' b b' k k' : Svalue}

theorem equalSvalue_congr (hinj : Set.InjOn rename used) (ha : Used used a) (hb : Used used b)
    (haa : SameKey rename a a') (hbb : SameKey rename b b') :
    equalSvalue w a' b' = equalSvalue w a b := by
  have haddr {x y : Addr} (hx : x ∈ used) (hy : y ∈ used) : (rename x == rename y) = (x == y) := by
    rw [Bool.eq_iff_iff, beq_iff_eq, beq_iff_eq]
    exact hinj.eq_iff hx hy
  cases a with
  | pointer vec item =>
    obtain ⟨item', rfl⟩ := haa
    cases b with
    | pointer vec' =>
      obtain ⟨item', rfl⟩ := hbb
      exact haddr ha hb
    | mapping map =>
      obtain ⟨pairs', rfl⟩ := hbb
      rfl
    | _ =>
      cases hbb
      rfl
  | mapping map pairs =>
    obtain ⟨pairs', rfl⟩ := haa
    cases b with
    | pointer vec =>
      obtain ⟨item', rfl⟩ := hbb
      rfl
    | mapping map' =>
      obtain ⟨pairs', rfl⟩ := hbb
      exact haddr ha hb
    | _ =>
      cases hbb
      rfl
  | _ =>
    cases haa
    cases b with
    | pointer vec =>
      obtain ⟨item', rfl⟩ := hbb
      rfl
    | mapping map =>
      obtain ⟨pairs', rfl⟩ := hbb
      rfl
    | _ =>
      cases hbb
      rfl

theorem hashsvalue_congr (haa : SameKey rename a a') (hbb : SameKey rename b b')
    (h : equalSvalue w a b = true) :
    hashsvalue b' = hashsvalue a' ↔ hashsvalue b = hashsvalue a := by
  cases a with
  | pointer vec item =>
    cases b with
    | pointer vec' item' =>
      obtain rfl := beq_iff_eq.1 h
      obtain ⟨item₁, rfl⟩ := haa
      obtain ⟨item₂, rfl⟩ := hbb
      exact iff_of_true rfl rfl
    | _ => cases h
  | mapping map pairs =>
    cases b with
    | mapping map' pairs' =>
      obtain rfl := beq_iff_eq.1 h
      obtain ⟨pairs₁, rfl⟩ := haa
      obtain ⟨pairs₂, rfl⟩ := hbb
      exact iff_of_true rfl rfl
    | _ => cases h
  | _ =>
    cases haa
    cases b with
    | pointer vec item => cases h
    | mapping map pairs => cases h
    | _ =>
      cases hbb
      exact Iff.rfl

theorem sameKey_congr (hinj : Set.InjOn rename used) (ha : Used used a) (hb : Used used b)
    (haa : SameKey rename a a') (hbb : SameKey rename b b') :
    sameKey w a' b' = sameKey w a b := by
  rw [Mapping.sameKey, Mapping.sameKey, equalSvalue_congr hinj ha hb haa hbb]
  cases h : equalSvalue w a b with
  | true => rw [decide_eq_decide.2 (hashsvalue_congr haa hbb h)]
  | false => rw [Bool.and_false, Bool.and_false]

theorem eq_const0_of_equalSvalue (hk : w.dead k = true) (ha : w.dead a = false)
    (h : equalSvalue w k a = true) : a = const0 := by
  cases k with
  | object ob =>
    cases a with
    | number n =>
      obtain ⟨hn, -⟩ := Bool.and_eq_true_iff.1 h
      exact congrArg Svalue.number (beq_iff_eq.1 hn)
    | object ob' =>
      rcases Bool.or_eq_true_iff.1 h with hboth | heq
      · exact absurd ((Bool.and_eq_true_iff.1 hboth).2.symm.trans ha) (by decide)
      · obtain rfl := beq_iff_eq.1 heq
        exact absurd (hk.symm.trans ha) (by decide)
    | _ => cases h
  | function f =>
    cases a with
    | number n =>
      obtain ⟨hn, -⟩ := Bool.and_eq_true_iff.1 h
      exact congrArg Svalue.number (beq_iff_eq.1 hn)
    | function f' =>
      obtain rfl := beq_iff_eq.1 h
      exact absurd (hk.symm.trans ha) (by decide)
    | _ => cases h
  | _ => cases hk

/-- **Two keys that are alive are equal** if the same key finds both of them. -/
theorem equal_of_common (ha : w.dead a = false) (hb : w.dead b = false)
    (hka : equalSvalue w k a = true) (hkb : equalSvalue w k b = true) :
    equalSvalue w a b = true := by
  cases hk : w.dead k with
  | false => exact equalSvalue_trans ha hk hb (equalSvalue_symm hk ha hka) hkb
  | true =>
    rw [eq_const0_of_equalSvalue hk ha hka, eq_const0_of_equalSvalue hk hb hkb]
    rfl

/-- A pair is the same as another one. -/
structure SamePair (w : World) (rename : Addr → Addr) (used : Set Addr)
    (p p' : Svalue × Svalue) : Prop where
  inUse : Used used p.1
  key : SameKey rename p.1 p'.1
  val : SameValue w rename used p.2 p'.2

/-- No key finds two of the pairs. -/
def Unique (w : World) (pairs : List (Svalue × Svalue)) : Prop :=
  ∀ k, pairs.Pairwise fun p q ↦ sameKey w k p.1 = true → sameKey w k q.1 = false

variable {pairs pairs' stored : List (Svalue × Svalue)}

theorem Unique.not_sameKey (hunique : Unique w pairs) :
    pairs.Pairwise fun p q ↦ sameKey w q.1 p.1 = false := by
  have hall : pairs.Pairwise fun p q ↦
      ∀ k, sameKey w k p.1 = true → sameKey w k q.1 = false := pairwise_iff_getElem.2
    fun i j hi hj hij k ↦ pairwise_iff_getElem.1 (hunique k) i j hi hj hij
  refine hall.imp fun {p q} h ↦ Bool.eq_false_iff.2 fun hfound ↦ ?_
  obtain ⟨-, hequal⟩ := Bool.and_eq_true_iff.1 hfound
  cases hrefl : equalSvalue w q.1 q.1 with
  | true =>
    have hself := h _ hfound
    rw [sameKey, hrefl, Bool.and_true, decide_eq_false_iff_not] at hself
    exact hself rfl
  | false =>
    rw [(equalSvalue_of_not_refl hrefl p.1).2] at hequal
    cases hequal

theorem not_sameKey_congr (hinj : Set.InjOn rename used)
    (hpairs : List.Forall₂ (SamePair w rename used) pairs pairs')
    (hunique : pairs.Pairwise fun p q ↦ sameKey w q.1 p.1 = false) :
    pairs'.Pairwise fun p q ↦ sameKey w q.1 p.1 = false := by
  induction hpairs with
  | nil => exact .nil
  | @cons p p' ps ps' hp hps ih =>
    obtain ⟨hhead, htail⟩ := pairwise_cons.1 hunique
    refine pairwise_cons.2 ⟨fun q' hq' ↦ ?_, ih htail⟩
    obtain ⟨i, hi, rfl⟩ := getElem_of_mem hq'
    have hi' : i < ps.length := hps.length_eq ▸ hi
    have hq : SamePair w rename used ps[i] ps'[i] := hps.get hi' hi
    rw [sameKey_congr hinj hq.inUse hp.inUse hq.key hp.key]
    exact hhead _ (getElem_mem hi')

theorem Unique.eq_nil_of_filter (hunique : Unique w pairs) {p : Svalue × Svalue}
    {ps : List (Svalue × Svalue)} (h : (pairs.filter fun p ↦ sameKey w k p.1) = p :: ps) :
    ps = [] := by
  cases ps with
  | nil => rfl
  | cons q ps =>
    have hfound {r : Svalue × Svalue} (hr : r ∈ p :: q :: ps) : sameKey w k r.1 = true := by
      rw [← h, mem_filter] at hr
      exact hr.2
    have hne := (hunique k).filter fun p ↦ sameKey w k p.1
    rw [h] at hne
    have hpq := (pairwise_cons.1 hne).1 q mem_cons_self (hfound mem_cons_self)
    rw [hfound (mem_cons_of_mem p mem_cons_self)] at hpq
    cases hpq

/-- **A lookup gives the same value** in a table with the same pairs. -/
theorem lookupIn_congr (hinj : Set.InjOn rename used) (hunique : Unique w pairs)
    (hpairs : List.Forall₂ (SamePair w rename used) pairs pairs') (hperm : stored.Perm pairs')
    (hk : Used used k) (hkk : SameKey rename k k') :
    SameValue w rename used (lookupIn w pairs k) (lookupIn w stored k') := by
  have hfilter : List.Forall₂ (SamePair w rename used) (pairs.filter fun p ↦ sameKey w k p.1)
      (pairs'.filter fun p ↦ sameKey w k' p.1) := by
    refine rel_filter (fun p p' hp ↦ ?_) hpairs
    dsimp only
    rw [sameKey_congr hinj hk hp.inUse hkk hp.key]
  have hstored : (stored.filter fun p ↦ sameKey w k' p.1).Perm
      (pairs'.filter fun p ↦ sameKey w k' p.1) := hperm.filter _
  rw [lookupIn, lookupIn, ← List.head?_filter, ← List.head?_filter]
  cases hps : pairs.filter fun p ↦ sameKey w k p.1 with
  | nil =>
    rw [hps, forall₂_nil_left_iff] at hfilter
    rw [hfilter] at hstored
    rw [hstored.eq_nil]
    exact .refl const0
  | cons p ps =>
    rw [hps, hunique.eq_nil_of_filter hps] at hfilter
    obtain ⟨p', ps', hp, hnil, heq⟩ := forall₂_cons_left_iff.1 hfilter
    rw [forall₂_nil_left_iff.1 hnil] at heq
    rw [heq] at hstored
    rw [hstored.eq_singleton]
    exact hp.val

end Lookup

/-! ### What is read -/

/-- From the `n`-th on, the addresses that are given out are the new ones of arrays and mappings. -/
def Renames (rename : Addr → Addr) (fresh : ℕ → Addr) : ℕ → List Addr → Prop
  | _, [] => True
  | n, a :: as => rename a = fresh n ∧ Renames rename fresh (n + 1) as

theorem renames_append {rename : Addr → Addr} {fresh : ℕ → Addr} {as bs : List Addr} : ∀ {n : ℕ},
    Renames rename fresh n (as ++ bs) ↔
      Renames rename fresh n as ∧ Renames rename fresh (n + as.length) bs := by
  induction as with
  | nil => exact ⟨fun h ↦ ⟨trivial, h⟩, And.right⟩
  | cons a as ih =>
    intro n
    rw [cons_append, Renames, Renames, ih, and_assoc, length_cons, Nat.add_assoc,
      Nat.add_comm 1]

section RoundTrip

variable (w w' : World) (ref : Addr → ℕ) (nullVector : Addr) (fresh : ℕ → Addr)
  (rename : Addr → Addr) (used : Set Addr)

/-- The value is not an object that has been destructed. -/
def Remains (w : World) (v : Svalue) : Prop :=
  ∀ ob, v = .object ob → w.destructed ob = false

/-- **What is written of a value is read again**, and it is the same value, and as a key the same
one. -/
def RoundTrip (v : Svalue) : Prop :=
  ∃ ps, swapSvalue w ref v = some ps ∧ ∀ n, Renames rename fresh n (moved ref v) →
    ∀ depth, ps.length ≤ depth → ∀ rest, ∃ v',
      unswapSvalue w' nullVector fresh depth n (ps ++ rest) =
        some (v', n + (moved ref v).length, rest) ∧
      SameValue w' rename used v v' ∧ (Remains w' v → SameKey rename v v')

variable {w w' ref nullVector fresh rename used}

theorem readItems_spec {item : List Svalue}
    (h : ∀ v ∈ item, RoundTrip w w' ref nullVector fresh rename used v) :
    ∃ ps, swapItems w ref item = some ps ∧ ∀ n, Renames rename fresh n (movedItems ref item) →
      ∀ depth, ps.length ≤ depth → ∀ rest, ∃ item',
        readItems (unswapSvalue w' nullVector fresh depth) item.length n (ps ++ rest) =
          some (item', n + (movedItems ref item).length, rest) ∧
        List.Forall₂ (SameValue w' rename used) item item' := by
  induction item with
  | nil => exact ⟨[], rfl, fun n _ depth _ rest ↦ ⟨[], rfl, .nil⟩⟩
  | cons v item ih =>
    obtain ⟨ps, hps, hread⟩ := h v mem_cons_self
    obtain ⟨qs, hqs, hreads⟩ := ih fun u hu ↦ h u (mem_cons_of_mem v hu)
    refine ⟨ps ++ qs, by rw [swapItems, hps, hqs]; rfl, fun n hn depth hdepth rest ↦ ?_⟩
    rw [movedItems, renames_append] at hn
    rw [length_append] at hdepth
    obtain ⟨v', hv, hsame, -⟩ := hread n hn.1 depth (by omega) (qs ++ rest)
    obtain ⟨item', hitem, hsames⟩ := hreads _ hn.2 depth (by omega) rest
    refine ⟨v' :: item', ?_, .cons hsame hsames⟩
    rw [append_assoc, length_cons, readItems, hv, bind_some]
    dsimp only
    rw [hitem, map_some, movedItems, length_append, Nat.add_assoc]

theorem readPairs_spec {pairs : List (Svalue × Svalue)}
    (h : ∀ p ∈ pairs, RoundTrip w w' ref nullVector fresh rename used p.1 ∧
      RoundTrip w w' ref nullVector fresh rename used p.2)
    (hkeys : ∀ p ∈ pairs, Used used p.1 ∧ Remains w' p.1) :
    ∃ ps, swapPairs w ref pairs = some ps ∧ ∀ n, Renames rename fresh n (movedPairs ref pairs) →
      ∀ depth, ps.length ≤ depth → ∀ rest, ∃ pairs',
        List.Forall₂ (SamePair w' rename used) pairs pairs' ∧ ∀ m : Mapping,
        readPairs w' (unswapSvalue w' nullVector fresh depth) pairs.length m n (ps ++ rest) =
          (m.assignAll w' pairs').toOption.map
            fun m ↦ (m, n + (movedPairs ref pairs).length, rest) := by
  induction pairs with
  | nil => exact ⟨[], rfl, fun n _ depth _ rest ↦ ⟨[], .nil, fun m ↦ rfl⟩⟩
  | cons p pairs ih =>
    obtain ⟨k, v⟩ := p
    obtain ⟨⟨ps, hps, hread⟩, qs, hqs, hread'⟩ := h (k, v) mem_cons_self
    obtain ⟨hused, hremains⟩ := hkeys (k, v) mem_cons_self
    obtain ⟨rs, hrs, hreads⟩ := ih (fun p hp ↦ h p (mem_cons_of_mem _ hp))
      fun p hp ↦ hkeys p (mem_cons_of_mem _ hp)
    refine ⟨ps ++ qs ++ rs, ?_, fun n hn depth hdepth rest ↦ ?_⟩
    · rw [swapPairs, hps, bind_some, hqs, bind_some, hrs, map_some]
    rw [movedPairs, renames_append, renames_append] at hn
    rw [length_append, length_append] at hdepth
    obtain ⟨k', hk, -, hkey⟩ := hread n hn.1.1 depth (by omega) (qs ++ (rs ++ rest))
    obtain ⟨v', hv, hsame, -⟩ := hread' _ hn.1.2 depth (by omega) (rs ++ rest)
    rw [length_append, ← Nat.add_assoc] at hn
    obtain ⟨pairs', hpairs, hrest⟩ := hreads _ hn.2 depth (by omega) rest
    refine ⟨(k', v') :: pairs', .cons ⟨hused, hkey hremains, hsame⟩ hpairs, fun m ↦ ?_⟩
    rw [append_assoc, append_assoc, length_cons, readPairs, hk, bind_some]
    dsimp only
    rw [hv, bind_some, Mapping.assignAll, movedPairs, length_append, length_append]
    dsimp only
    cases m.assign w' k' v' with
    | error m' => rfl
    | ok m' =>
      rw [← Nat.add_assoc, ← Nat.add_assoc]
      exact hrest m'

variable {P : Svalue → Prop}

theorem allMovedItems_iff {item : List Svalue} :
    AllMovedItems ref P item ↔ ∀ v ∈ item, AllMoved ref P v := by
  induction item with
  | nil => exact iff_of_true trivial nofun
  | cons v item ih => rw [AllMovedItems, ih, forall_mem_cons]

theorem allMovedPairs_iff {pairs : List (Svalue × Svalue)} :
    AllMovedPairs ref P pairs ↔ ∀ p ∈ pairs, AllMoved ref P p.1 ∧ AllMoved ref P p.2 := by
  induction pairs with
  | nil => exact iff_of_true trivial nofun
  | cons p pairs ih => rw [AllMovedPairs, ih, forall_mem_cons]

end RoundTrip

/-- What the driver keeps of the arrays and the mappings: an array is not too long, and only one is
empty; a mapping has the pairs of a table. -/
def WellFormed (w : World) (nullVector : Addr) (used : Set Addr) : Svalue → Prop
  | .pointer vec item => item.length ≤ MAX_ARRAY_SIZE ∧ (item = [] → vec = nullVector)
  | .mapping _ pairs =>
    (∃ m : Mapping, Sound w m ∧ entries m.stored = pairs) ∧ ∀ p ∈ pairs, Used used p.1
  | _ => True

/-- A mapping that can be made again: a table takes as many pairs, no key is a destructed object,
and no function that cannot be called finds two keys. -/
def Lasts (w : World) : Svalue → Prop
  | .mapping _ pairs => pairs.length ≤ 20480 ∧ (∀ p ∈ pairs, Remains w p.1) ∧
    ∀ f, w.legalClosure f = false → pairs.Pairwise fun p q ↦
      sameKey w (.function f) p.1 = true → sameKey w (.function f) q.1 = false
  | _ => True

section Main

variable {w w' : World} {ref : Addr → ℕ} {nullVector : Addr} {fresh : ℕ → Addr}
  {rename : Addr → Addr} {used : Set Addr}

theorem dead_of_sameKey {k a : Svalue} (ha : Remains w a) (hk : sameKey w k a = true)
    (hdead : w.dead a = true) : ∃ f, k = .function f ∧ w.legalClosure f = false := by
  obtain ⟨-, hequal⟩ := Bool.and_eq_true_iff.1 hk
  cases a with
  | object ob => exact absurd ((ha ob rfl).symm.trans hdead) (by decide)
  | function f =>
    cases k with
    | function f' =>
      obtain rfl := beq_iff_eq.1 hequal
      exact ⟨f', rfl, by simpa [World.dead] using hdead⟩
    | _ => cases hequal
  | _ => cases hdead

/-- **No key finds two pairs** of a mapping that can be made again: one that finds a function that
cannot be called is that function. -/
theorem unique_of_lasts (hw : w'.Older w) {map : Addr} {pairs : List (Svalue × Svalue)}
    (hwell : WellFormed w nullVector used (.mapping map pairs))
    (hlasts : Lasts w' (.mapping map pairs)) : Unique w' pairs := by
  obtain ⟨⟨m, hsound, rfl⟩, -⟩ := hwell
  obtain ⟨-, hremains, hfunction⟩ := hlasts
  intro k
  by_cases hk : ∃ f, k = .function f ∧ w'.legalClosure f = false
  · obtain ⟨f, rfl, hf⟩ := hk
    exact hfunction f hf
  have hdistinct := hsound.distinct.older hw
  have hkeys : m.keys = (entries m.stored).map Prod.fst := by
    rw [entries, map_map]
    rfl
  rw [hkeys, Distinct, pairwise_map] at hdistinct
  refine hdistinct.imp_of_mem fun {p q} hp hq h hkp ↦ Bool.eq_false_iff.2 fun hkq ↦ ?_
  have hlive {r : Svalue × Svalue} (hr : r ∈ entries m.stored) (hkr : sameKey w' k r.1 = true) :
      w'.dead r.1 = false :=
    Bool.eq_false_iff.2 fun hdead ↦ hk (dead_of_sameKey (hremains r hr) hkr hdead)
  have hequal := equal_of_common (hlive hp hkp) (hlive hq hkq) (Bool.and_eq_true_iff.1 hkp).2
    (Bool.and_eq_true_iff.1 hkq).2
  rw [h (hlive hp hkp) (hlive hq hkq)] at hequal
  cases hequal

theorem assignAll_allocateMap_new {pairs : List (Svalue × Svalue)} (hlen : pairs.length ≤ 20480)
    (hdistinct : pairs.Pairwise fun p q ↦ sameKey w q.1 p.1 = false) :
    ∃ m, (Mapping.allocateMap (short pairs.length)).assignAll w pairs = .ok m ∧
      (entries m.stored).Perm pairs := by
  have hnil := Mapping.stored_allocateMap (short pairs.length)
  have hcap := Mapping.capacity_allocateMap (n := pairs.length) (by omega)
  obtain ⟨m, hm, hperm⟩ := (Mapping.filled_allocateMap (short pairs.length)).assignAll_new
    (w := w) (by rw [hnil, length_nil]; split at hcap <;> omega)
    (fun p _ e he ↦ by
      rw [Mapping.keys_allocateMap] at he
      cases he) hdistinct
  refine ⟨m, hm, hperm.trans (.of_eq ?_)⟩
  rw [hnil]
  exact append_nil pairs

/-- **Every value is read again as it was**, by induction on the value: the elements of an array and
the pairs of a mapping are read again, and then so is what they are in. -/
theorem roundTrip (hw : w'.Older w) (hnull : ref nullVector ≠ 1) (hinj : Set.InjOn rename used)
    (hkeep : ∀ a, ref a ≠ 1 → rename a = a) (v : Svalue)
    (hwell : AllMoved ref (WellFormed w nullVector used) v) (hlasts : AllMoved ref (Lasts w') v) :
    RoundTrip w w' ref nullVector fresh rename used v := by
  -- a value that is written as it is
  have hkept (v : Svalue) (hread : ∀ d n rest, unswapSvalue w' nullVector fresh (d + 1) n
      (.kept v :: rest) = some (v, n, rest)) (hswap : swapSvalue w ref v = some [.kept v])
      (hmoved : moved ref v = []) (hkey : SameKey rename v v) :
      RoundTrip w w' ref nullVector fresh rename used v := by
    refine ⟨_, hswap, fun n _ depth hdepth rest ↦ ?_⟩
    obtain ⟨d, rfl⟩ := Nat.exists_eq_add_of_le' hdepth
    rw [hmoved]
    exact ⟨v, hread d n rest, .refl v, fun _ ↦ hkey⟩
  induction v using Svalue.induction with
  | leaf v hpointer hmapping =>
    cases v with
    | pointer vec item => exact absurd rfl (hpointer vec item)
    | mapping map pairs => exact absurd rfl (hmapping map pairs)
    | object ob =>
      cases hdestructed : w.destructed ob with
      | true =>
        have hdestructed' := hw.destructed ob hdestructed
        refine ⟨[.kept const0], ?_, fun n _ depth hdepth rest ↦ ?_⟩
        · rw [swapSvalue, if_pos hdestructed]
        obtain ⟨d, rfl⟩ := Nat.exists_eq_add_of_le' hdepth
        exact ⟨const0, rfl, .destructed hdestructed', fun hremains ↦
          absurd (hdestructed'.symm.trans (hremains ob rfl)) (by decide)⟩
      | false =>
        refine ⟨[.kept (.object ob)], ?_, fun n _ depth hdepth rest ↦ ?_⟩
        · rw [swapSvalue, if_neg (Bool.eq_false_iff.1 hdestructed)]
        obtain ⟨d, rfl⟩ := Nat.exists_eq_add_of_le' hdepth
        cases hdestructed' : w'.destructed ob with
        | true =>
          refine ⟨const0, ?_, .destructed hdestructed', fun hremains ↦
            absurd (hdestructed'.symm.trans (hremains ob rfl)) (by decide)⟩
          exact congrArg (fun v ↦ some (v, n, rest)) (if_pos hdestructed')
        | false =>
          refine ⟨.object ob, ?_, .refl _, fun _ ↦ rfl⟩
          exact congrArg (fun v ↦ some (v, n, rest)) (if_neg (Bool.eq_false_iff.1 hdestructed'))
    | string s =>
      refine ⟨_, rfl, fun n _ depth hdepth rest ↦ ?_⟩
      obtain ⟨d, rfl⟩ := Nat.exists_eq_add_of_le' (Nat.one_le_of_lt hdepth)
      refine ⟨.string s, ?_, .refl _, fun _ ↦ rfl⟩
      have hlen : (s.bytes ++ [0]).length = s.bytes.length + 1 := length_append
      rw [cons_append, singleton_append, unswapSvalue, if_pos hlen,
        CString.ofBytes_append_nul]
      rfl
    | _ => exact hkept _ (fun _ _ _ ↦ rfl) rfl rfl rfl
  | pointer vec item ih =>
    -- what something else refers to is not swapped
    by_cases href : ref vec = 1
    · obtain ⟨⟨hlen, hempty⟩, hwells⟩ := hwell href
      have hlasts' := (hlasts href).2
      rw [allMovedItems_iff] at hwells hlasts'
      obtain ⟨ps, hps, hread⟩ := readItems_spec fun v hv ↦ ih v hv (hwells v hv) (hlasts' v hv)
      have hne : item.length ≠ 0 := fun hzero ↦
        hnull (hempty (length_eq_zero_iff.1 hzero) ▸ href)
      have hmoved : moved ref (.pointer vec item) = vec :: movedItems ref item := by
        rw [moved, if_neg (not_not.2 href)]
      refine ⟨.pointer item.length :: ps, ?_, fun n hn depth hdepth rest ↦ ?_⟩
      · rw [swapSvalue, if_neg (not_not.2 href), hps, map_some]
      rw [hmoved] at hn ⊢
      obtain ⟨hvec, hn⟩ := hn
      obtain ⟨d, rfl⟩ := Nat.exists_eq_add_of_le' (Nat.one_le_of_lt hdepth)
      obtain ⟨item', hitem, hsame⟩ := hread (n + 1) hn d (Nat.le_of_succ_le_succ hdepth) rest
      refine ⟨.pointer (fresh n) item', ?_, ?_, fun _ ↦ ?_⟩
      · rw [cons_append, unswapSvalue, if_neg (Nat.not_lt.2 hlen), if_neg hne, hitem,
          map_some, length_cons, Nat.add_assoc, Nat.add_comm 1]
      · rw [← hvec]
        exact .pointer hsame
      · rw [← hvec]
        exact ⟨item', rfl⟩
    · refine hkept _ (fun _ _ _ ↦ rfl) ?_ ?_ ⟨item, ?_⟩
      · rw [swapSvalue, if_pos href]
      · rw [moved, if_pos href]
      · rw [hkeep vec href]
  | mapping map pairs ih =>
    by_cases href : ref map = 1
    · obtain ⟨hwell, hwells⟩ := hwell href
      obtain ⟨hlast, hlasts'⟩ := hlasts href
      rw [allMovedPairs_iff] at hwells hlasts'
      have hunique := unique_of_lasts hw hwell hlast
      obtain ⟨hlen, hremains, -⟩ := hlast
      obtain ⟨ps, hps, hread⟩ := readPairs_spec
        (fun p hp ↦ ⟨(ih p hp).1 (hwells p hp).1 (hlasts' p hp).1,
          (ih p hp).2 (hwells p hp).2 (hlasts' p hp).2⟩)
        fun p hp ↦ ⟨hwell.2 p hp, hremains p hp⟩
      have hshort : short pairs.length = pairs.length := Mapping.short_eq (by omega)
      have hmoved : moved ref (.mapping map pairs) = map :: movedPairs ref pairs := by
        rw [moved, if_neg (not_not.2 href)]
      refine ⟨.mapping (short pairs.length) :: ps, ?_, fun n hn depth hdepth rest ↦ ?_⟩
      · rw [swapSvalue, if_neg (not_not.2 href), if_pos hshort, hps, map_some]
      rw [hmoved] at hn ⊢
      obtain ⟨hmap, hn⟩ := hn
      obtain ⟨d, rfl⟩ := Nat.exists_eq_add_of_le' (Nat.one_le_of_lt hdepth)
      obtain ⟨pairs', hpairs, hread⟩ := hread (n + 1) hn d (Nat.le_of_succ_le_succ hdepth) rest
      -- no two keys are equal by now, so no pair takes another one's place
      obtain ⟨m, hm, hperm⟩ := assignAll_allocateMap_new (hpairs.length_eq ▸ hlen)
        (not_sameKey_congr hinj hpairs hunique.not_sameKey)
      rw [← hpairs.length_eq] at hm
      refine ⟨.mapping (fresh n) (entries m.stored), ?_, ?_, fun _ ↦ ?_⟩
      · rw [cons_append, unswapSvalue, hshort, Int.toNat_natCast, ← hshort, hread, hm,
          length_cons, Nat.add_assoc, Nat.add_comm 1]
        rfl
      · rw [← hmap]
        exact .mapping fun k k' hk hkk ↦
          lookupIn_congr hinj hunique hpairs hperm hk hkk
      · rw [← hmap]
        exact ⟨_, rfl⟩
    · refine hkept _ (fun _ _ _ ↦ rfl) ?_ ?_ ⟨pairs, ?_⟩
      · rw [swapSvalue, if_pos href]
      · rw [moved, if_pos href]
      · rw [hkeep map href]

/-- The address of an array or a mapping after it is read again. -/
def newAddr (fresh : ℕ → Addr) (as : List Addr) (a : Addr) : Addr :=
  if a ∈ as then fresh (as.idxOf a) else a

theorem renames_newAddr (bs : List Addr) : ∀ as : List Addr, (as ++ bs).Nodup →
    Renames (newAddr fresh (as ++ bs)) fresh as.length bs := by
  induction bs with
  | nil => exact fun _ _ ↦ trivial
  | cons b bs ih =>
    intro as hnodup
    have hb : b ∉ as := fun hmem ↦
      (nodup_append.1 hnodup).2.2 b hmem b mem_cons_self rfl
    have hrest := ih (as ++ [b])
    rw [append_assoc, singleton_append, length_append] at hrest
    refine ⟨?_, hrest hnodup⟩
    rw [newAddr, if_pos (mem_append_right as mem_cons_self),
      idxOf_append_of_notMem hb, idxOf_cons_self, Nat.add_zero]

theorem injOn_newAddr {as : List Addr} (hfresh : Function.Injective fresh)
    (hreuse : ∀ i, fresh i ∈ used → fresh i ∈ as) : Set.InjOn (newAddr fresh as) used := by
  intro a ha b hb heq
  rw [newAddr, newAddr] at heq
  split at heq <;> split at heq
  next hmem hmem' => exact (idxOf_inj hmem).1 (hfresh heq)
  next hmem hmem' => exact absurd (heq ▸ hreuse _ (heq ▸ hb)) hmem'
  next hmem hmem' => exact absurd (heq ▸ hreuse _ (heq ▸ ha)) hmem
  next => exact heq

theorem mem_movedItems {a : Addr} {item : List Svalue} :
    a ∈ movedItems ref item ↔ ∃ v ∈ item, a ∈ moved ref v := by
  induction item with
  | nil => exact iff_of_false not_mem_nil nofun
  | cons v item ih => rw [movedItems, mem_append, ih, exists_mem_cons_iff]

theorem mem_movedPairs {a : Addr} {pairs : List (Svalue × Svalue)} :
    a ∈ movedPairs ref pairs ↔ ∃ p ∈ pairs, a ∈ moved ref p.1 ∨ a ∈ moved ref p.2 := by
  induction pairs with
  | nil => exact iff_of_false not_mem_nil nofun
  | cons p pairs ih =>
    rw [movedPairs, mem_append, mem_append, ih, exists_mem_cons_iff]

theorem ref_of_mem_moved (v : Svalue) : ∀ a ∈ moved ref v, ref a = 1 := by
  induction v using Svalue.induction with
  | leaf v hpointer hmapping =>
    cases v with
    | pointer vec item => exact absurd rfl (hpointer vec item)
    | mapping map pairs => exact absurd rfl (hmapping map pairs)
    | _ => exact nofun
  | pointer vec item ih =>
    intro a ha
    rw [moved] at ha
    split at ha
    next => exact absurd ha not_mem_nil
    next href =>
      rcases mem_cons.1 ha with rfl | ha
      · exact not_not.1 href
      · obtain ⟨v, hv, ha⟩ := mem_movedItems.1 ha
        exact ih v hv a ha
  | mapping map pairs ih =>
    intro a ha
    rw [moved] at ha
    split at ha
    next => exact absurd ha not_mem_nil
    next href =>
      rcases mem_cons.1 ha with rfl | ha
      · exact not_not.1 href
      · obtain ⟨p, hp, hkey | hval⟩ := mem_movedPairs.1 ha
        · exact (ih p hp).1 a hkey
        · exact (ih p hp).2 a hval

end Main

/-! ### Swapping is invisible -/

/-- What holds of a value that is swapped out and in: objects may be destructed meanwhile, the array
without elements has other references, what is referred to once is there once, and the addresses
that are given out are free. -/
structure Swapping (w w' : World) (ref : Addr → ℕ) (nullVector : Addr) (fresh : ℕ → Addr)
    (used : Set Addr) (v : Svalue) : Prop where
  older : w'.Older w
  null : ref nullVector ≠ 1
  wellFormed : AllMoved ref (WellFormed w nullVector used) v
  nodup : (moved ref v).Nodup
  injective : Function.Injective fresh
  reused : ∀ i, fresh i ∈ used → fresh i ∈ moved ref v

/-- **Swapping is invisible**: `swap_svalue` writes the value, and `unswap_svalue` reads from that
the same value. -/
def Invisible (w w' : World) (ref : Addr → ℕ) (nullVector : Addr) (fresh : ℕ → Addr)
    (used : Set Addr) (v : Svalue) : Prop :=
  ∃ ps, swapSvalue w ref v = some ps ∧ ∀ depth, ps.length ≤ depth → ∀ rest, ∃ v',
    unswapSvalue w' nullVector fresh depth 0 (ps ++ rest) =
      some (v', (moved ref v).length, rest) ∧
    SameValue w' (newAddr fresh (moved ref v)) used v v'

/-- **Swapping is invisible if no mapping that is made again has a destructed object as a key by
then**, or the key 0 besides a function that cannot be called, or more pairs than a table can be
made for. -/
theorem unswap_swap {w w' : World} {ref : Addr → ℕ} {nullVector : Addr} {fresh : ℕ → Addr}
    {used : Set Addr} {v : Svalue} (h : Swapping w w' ref nullVector fresh used v)
    (hlasts : AllMoved ref (Lasts w') v) : Invisible w w' ref nullVector fresh used v := by
  have hkeep : ∀ a, ref a ≠ 1 → newAddr fresh (moved ref v) a = a := fun a ha ↦
    if_neg fun hmem ↦ ha (ref_of_mem_moved v a hmem)
  obtain ⟨ps, hps, hread⟩ := roundTrip h.older h.null (injOn_newAddr h.injective h.reused) hkeep v
    h.wellFormed hlasts
  refine ⟨ps, hps, fun depth hdepth rest ↦ ?_⟩
  obtain ⟨v', hv', hsame, -⟩ := hread 0 (renames_newAddr (moved ref v) [] h.nodup) depth hdepth rest
  rw [Nat.zero_add] at hv'
  exact ⟨v', hv', hsame⟩

/-- An array that has a mapping in it, both referred to once, and an object. The object is
destructed meanwhile, and the function that is a key of the mapping cannot be called any more. -/
theorem unswap_swap_nested :
    Invisible ⟨fun _ ↦ false, fun _ ↦ true⟩ ⟨fun ob ↦ ob == 16, fun _ ↦ false⟩
      (fun a ↦ if a = 0 then 2 else 1) 0 (fun i ↦ 80 + 16 * i) {0, 32, 64}
      (.pointer 64 [.mapping 32 [(.function 48, .number 5)], .object 16]) := by
  refine unswap_swap ⟨⟨fun _ ↦ nofun, fun _ ↦ nofun⟩, by decide, fun _ ↦ ?_, by decide,
    fun i j h ↦ by simpa using h, fun i h ↦ ?_⟩ fun _ ↦ ?_
  · have hsound := (Mapping.sound_allocateMap ⟨fun _ ↦ false, fun _ ↦ true⟩ 0).assign
      (.function 48) (.number 5)
    exact ⟨⟨by decide, nofun⟩, fun _ ↦ ⟨⟨⟨_, hsound, rfl⟩, forall_mem_singleton.2 trivial⟩,
      ⟨trivial, trivial⟩, trivial⟩, trivial, trivial⟩
  · change (80 + 16 * i : ℕ) = 0 ∨ (80 + 16 * i : ℕ) = 32 ∨ (80 + 16 * i : ℕ) = 64 at h
    omega
  · exact ⟨trivial, fun _ ↦ ⟨⟨by decide, forall_mem_singleton.2 nofun,
      fun f _ ↦ pairwise_singleton _ _⟩, ⟨trivial, trivial⟩, trivial⟩, trivial, trivial⟩

/-- A mapping `([ob : 5])` is referred to once, and `ob` is destructed. It is read again as
`([0 : 5])`, so a lookup of 0 gives 5 then. -/
theorem not_unswap_swap : ¬∀ (w w' : World) (ref : Addr → ℕ) (nullVector : Addr) (fresh : ℕ → Addr)
    (used : Set Addr) (v : Svalue), Swapping w w' ref nullVector fresh used v →
    Invisible w w' ref nullVector fresh used v := by
  intro h
  let w : World := ⟨fun ob ↦ ob == 16, fun _ ↦ true⟩
  have hsound := (Mapping.sound_allocateMap w 0).assign (.object 16) (.number 5)
  have hswapping : Swapping w w (fun a ↦ if a = 0 then 2 else 1) 0 (fun i ↦ 80 + 16 * i) {0, 32}
      (.mapping 32 [(.object 16, .number 5)]) := by
    refine ⟨⟨fun _ h ↦ h, fun _ h ↦ h⟩, by decide, fun _ ↦ ?_, by decide,
      fun i j h ↦ by simpa using h, fun i h ↦ ?_⟩
    · exact ⟨⟨⟨_, hsound, rfl⟩, forall_mem_singleton.2 trivial⟩, ⟨trivial, trivial⟩, trivial⟩
    · change (80 + 16 * i : ℕ) = 0 ∨ (80 + 16 * i : ℕ) = 32 at h
      omega
  obtain ⟨ps, hps, hread⟩ := h _ _ _ _ _ _ _ hswapping
  cases hps
  obtain ⟨v', hv', hsame⟩ := hread 3 (by decide) []
  have hv : unswapSvalue w 0 (fun i ↦ 80 + 16 * i) 3 0
      [.mapping 1, .kept const0, .kept (.number 5)] =
      some (.mapping 80 [(const0, .number 5)], 1, []) := rfl
  obtain rfl : v' = .mapping 80 [(const0, .number 5)] :=
    congrArg Prod.fst (Option.some.inj (hv'.symm.trans hv))
  cases hsame with
  | mapping hlookup =>
    -- 0 was not found before
    cases hlookup const0 const0 trivial rfl

end Lpmud.Swap
