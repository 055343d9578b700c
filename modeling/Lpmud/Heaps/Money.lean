import Lpmud.Heaps.Heap
import Mathlib.Tactic.Linarith
import Mathlib.Tactic.Ring

/-!
# Money

`take_money` and `give_money` of `/sys/global/money.c`, with `split_values` and `merge_values`.

What someone has of one kind of coins is the heap that `present` finds, if there is one; heaps of
the same kind merge where they meet. `take_money` takes the value of the coins from the cheapest
kind on, and then changes what is left into coins again, from the dearest kind down. Coins of a kind
that was not there before are made, and moved to their owner, or dropped where the owner is when
they are too heavy (`carries` says which); the place takes in what is dropped there.

A heap of size 0 is removed a second later, with the coins that are put into it until then. Such
coins are not worth anything. A heap that is split pretends to be smaller for a while.

Integers of LPC have 32 bits.
-/

namespace Lpmud.Money

open List
open Heaps (int int_eq int_natCast int_lt int_le int_of_le int_add_int int_int_add)
open Option (elim_some)

/-- A heap of coins: how many there are, how many of them a part that is split off would leave
behind, and whether the heap is going to be removed. -/
structure Coins where
  count : ℕ
  leaveBehind : ℤ
  removing : Bool
  deriving DecidableEq

def Coins.setHeapSize (c : Coins) (num : ℤ) : Coins :=
  if num ≤ 0 then { c with count := 0, removing := true } else { c with count := num.toNat }

def Coins.numHeap (c : Coins) : ℤ :=
  int (c.count - c.leaveBehind)

/-- The value of a kind of coins, and the heap that someone has of it. -/
structure Kind where
  value : ℕ
  heap : Option Coins
  deriving DecidableEq

abbrev MONEY_VALUES : List ℕ := [1, 12, 240, 24000]

/-- The coins that `num_heap` tells of; there are none where there is no heap. -/
def Kind.numHeap (k : Kind) : ℤ :=
  k.heap.elim 0 Coins.numHeap

/-- All coins of a kind. -/
def Kind.count (k : Kind) : ℕ :=
  k.heap.elim 0 Coins.count

/-- The coins in a heap that is not going to be removed. -/
def Kind.lasting (k : Kind) : ℕ :=
  k.heap.elim 0 fun c ↦ if c.removing then 0 else c.count

/-- What becomes of a kind of coins: the heap, and how many coins have been dropped. -/
structure Outcome where
  kind : Kind
  dropped : ℕ
  deriving DecidableEq

/-! ### Splitting and merging -/

/-- The loop of `split_values`, from the last kind to the first one. What is left of the value is
the second result. -/
def splitLoop : List ℕ → ℤ → List ℤ × ℤ
  | [], v => ([], v)
  | value :: values, v =>
    let (ret, v) := splitLoop values v
    (v.tdiv value :: ret, v.tmod value)

def splitValues (v : ℤ) : List ℤ :=
  if v > 0 then (splitLoop MONEY_VALUES v).1 else List.replicate MONEY_VALUES.length 0

def mergeValues (av : List ℤ) : ℤ :=
  if av.length ≠ MONEY_VALUES.length then 0
  else (av.zip MONEY_VALUES).foldl (fun v p ↦ int (v + int (p.1 * p.2))) 0

/-! ### Taking -/

def totalMoney (ks : List Kind) : ℤ :=
  mergeValues (ks.map Kind.numHeap)

/-- The first loop of `take_money`: `OBJ_I_VALUE` of every heap. -/
def moneyList (ks : List Kind) : List ℤ :=
  ks.map fun k ↦ int (k.value * k.numHeap)

/-- The second loop, which takes the amount. -/
def pay : List ℤ → ℤ → List ℤ
  | [], _ => []
  | m :: ms, amount =>
    if amount ≤ m then int (m - amount) :: ms else 0 :: pay ms (int (amount - m))

section Program

variable (carries : ℕ → ℕ → Bool)

/-- A round of the third loop: there are now `n` coins of this kind. -/
def Kind.become (k : Kind) (n : ℤ) : Outcome :=
  match k.heap with
  | some c => ⟨{ k with heap := some (c.setHeapSize n) }, 0⟩
  | none =>
    if n > 0 then
      if carries k.value n.toNat then ⟨{ k with heap := some ⟨n.toNat, 0, false⟩ }, 0⟩
      else ⟨k, n.toNat⟩
    else ⟨k, 0⟩

/-- The third loop, from the last kind to the first one, and `rest`. -/
def change : List Kind → List ℤ → List Outcome × ℤ
  | k :: ks, m :: ms =>
    let (out, rest) := change ks ms
    let m := int (m + rest)
    (k.become carries (m.tdiv k.value) :: out, m.tmod k.value)
  | _, _ => ([], 0)

def takeMoney (ks : List Kind) (amount : ℤ) : ℕ × List Outcome :=
  if totalMoney ks < amount then (0, ks.map (⟨·, 0⟩))
  else (1, (change carries ks (pay (moneyList ks) amount)).1)

/-! ### Giving -/

/-- New coins of a kind: they merge with those that are there (`enter_env` of `/std/heap.c`). -/
def Kind.receive (k : Kind) (n : ℤ) : Outcome :=
  if n > 0 then
    if carries k.value n.toNat then
      match k.heap with
      | some c => ⟨{ k with heap := some (c.setHeapSize (int (n + c.numHeap))) }, 0⟩
      | none => ⟨{ k with heap := some ⟨n.toNat, 0, false⟩ }, 0⟩
    else ⟨k, n.toNat⟩
  else ⟨k, 0⟩

/-- The loop of `give_money`, from the last kind to the first one, and `to_do`. -/
def giveLoop : List Kind → ℤ → List Outcome × ℤ
  | [], to_do => ([], to_do)
  | k :: ks, to_do =>
    let (out, to_do) := giveLoop ks to_do
    (k.receive carries (to_do.tdiv k.value) :: out, to_do.tmod k.value)

def giveMoney (ks : List Kind) (amount : ℤ) : ℕ × List Outcome :=
  (1, (giveLoop carries ks amount).1)

end Program

/-! ### What it is worth -/

/-- What the coins are worth that last, held or dropped. -/
def worth (out : List Outcome) : ℕ :=
  (out.map fun o ↦ o.kind.value * (o.kind.lasting + o.dropped)).sum

/-- What all coins of some heaps are worth. -/
def total (ks : List Kind) : ℕ :=
  (ks.map fun k ↦ k.value * k.count).sum

/-- What someone has of each kind of coins. The size of a heap is an integer. -/
structure Purse where
  kinds : List Kind
  values_eq : kinds.map Kind.value = MONEY_VALUES
  count_lt : ∀ k ∈ kinds, k.count < 2 ^ 31

/-- Taking and giving money balances, for every amount. -/
structure Balanced (carries : ℕ → ℕ → Bool) (p : Purse) : Prop where
  take : ∀ a : ℕ, a < 2 ^ 31 → a ≤ total p.kinds →
    (takeMoney carries p.kinds a).1 = 1 ∧ worth (takeMoney carries p.kinds a).2 + a = total p.kinds
  refuse : ∀ a : ℕ, a < 2 ^ 31 → total p.kinds < a →
    takeMoney carries p.kinds a = (0, p.kinds.map (⟨·, 0⟩))
  give : ∀ a : ℕ, a < 2 ^ 31 → worth (giveMoney carries p.kinds a).2 = total p.kinds + a
  split : ∀ v : ℕ, v < 2 ^ 31 →
    mergeValues (splitValues v) = v ∧ ∀ n ∈ splitValues v, 0 ≤ n

/-! ### When it does -/

/-- No heap is split. -/
def Whole (ks : List Kind) : Prop :=
  ∀ k ∈ ks, ∀ c ∈ k.heap, c.leaveBehind = 0

/-- What a split heap leaves behind is a part of it. -/
def Parted (ks : List Kind) : Prop :=
  ∀ k ∈ ks, ∀ c ∈ k.heap, 0 ≤ c.leaveBehind ∧ c.leaveBehind ≤ c.count

/-- A heap that is going to be removed is empty. -/
def Kept (ks : List Kind) : Prop :=
  ∀ k ∈ ks, ∀ c ∈ k.heap, c.removing = true → c.count = 0

/-- Where a heap is going to be removed there are no dearer coins, of which change could be put into
it. -/
def Changeable : List Kind → Prop
  | [] => True
  | k :: ks => ((∃ c ∈ k.heap, c.removing = true) → ∀ l ∈ ks, l.count = 0) ∧ Changeable ks

/-- The coins of a kind that can be given at once and held can be added to the heap that is there:
it is not going to be removed, and they can be counted together. -/
def Addable (carries : ℕ → ℕ → Bool) : List Kind → Prop
  | [] => True
  | k :: ks => (∀ n, 0 < n → n * k.value < ks.head?.elim (2 ^ 31) Kind.value →
      carries k.value n = true → ∀ c ∈ k.heap, c.removing = false ∧ n + c.count < 2 ^ 31) ∧
    Addable carries ks

/-- Every heap is worth an integer, and so are all together; or what they are worth looks like the
largest integer. -/
structure Countable (ks : List Kind) : Prop where
  kind_lt : ∀ k ∈ ks, k.value * k.count < 2 ^ 31
  total_lt : total ks < 2 ^ 31 ∨ total ks = 3 * 2 ^ 31 - 1

/-! ### Splitting and merging -/

/-- What `values` coins of some numbers are worth. -/
def merged (ns values : List ℕ) : ℕ :=
  ((ns.zip values).map fun p ↦ p.1 * p.2).sum

theorem splitLoop_spec (values : List ℕ) (v : ℕ) : ∃ ns : List ℕ, ∃ r : ℕ,
    splitLoop values v = (ns.map Nat.cast, (r : ℤ)) ∧ ns.length = values.length ∧
      merged ns values + r = v ∧ ∀ value ∈ values.head?, 0 < value → r < value := by
  induction values with
  | nil => exact ⟨[], v, rfl, rfl, Nat.zero_add v, nofun⟩
  | cons value values ih =>
    obtain ⟨ns, r, hloop, hlen, hsum, -⟩ := ih
    refine ⟨r / value :: ns, r % value, ?_, congrArg (· + 1) hlen, ?_, ?_⟩
    · rw [splitLoop, hloop]
      rfl
    · have hcons : merged (r / value :: ns) (value :: values) =
          r / value * value + merged ns values := rfl
      have hdiv := Nat.div_add_mod' r value
      omega
    · rintro _ ⟨⟩ hpos
      exact Nat.mod_lt r hpos

theorem mergeValues_eq {ns : List ℕ} (h : ns.length = MONEY_VALUES.length) :
    mergeValues (ns.map Nat.cast) = int (merged ns MONEY_VALUES) := by
  have hfold (ns values : List ℕ) : ∀ v : ℤ, ((ns.map Nat.cast).zip values).foldl
      (fun v (p : ℤ × ℕ) ↦ int (v + int (p.1 * p.2))) (int v) = int (v + merged ns values) := by
    induction ns generalizing values with
    | nil => exact fun v ↦ congrArg int (add_zero v).symm
    | cons n ns ih =>
      intro v
      rcases values with - | ⟨value, values⟩
      · exact congrArg int (add_zero v).symm
      · have hcons : merged (n :: ns) (value :: values) = n * value + merged ns values := rfl
        rw [map_cons, zip_cons_cons, foldl_cons, int_add_int, int_int_add, ih,
          hcons]
        push_cast
        rw [add_assoc]
  rw [mergeValues, if_neg (by simp [h])]
  exact (hfold ns MONEY_VALUES 0).trans (by rw [zero_add])

/-- **Merging undoes splitting.** -/
theorem mergeValues_splitValues {v : ℕ} (hv : v < 2 ^ 31) :
    mergeValues (splitValues v) = v ∧ ∀ n ∈ splitValues v, 0 ≤ n := by
  rw [splitValues]
  by_cases hpos : (v : ℤ) > 0
  · obtain ⟨ns, r, hloop, hlen, hsum, hr⟩ := splitLoop_spec MONEY_VALUES v
    have hzero : r < 1 := hr 1 rfl one_pos
    rw [if_pos hpos, hloop]
    refine ⟨?_, fun n hn ↦ ?_⟩
    · rw [mergeValues_eq hlen, int_natCast (by omega)]
      omega
    · obtain ⟨m, -, rfl⟩ := mem_map.1 hn
      exact Int.natCast_nonneg m
  · obtain rfl : v = 0 := by omega
    rw [if_neg hpos]
    exact ⟨by decide, by decide⟩

/-! ### Taking -/

section Taking

variable {carries : ℕ → ℕ → Bool} {k : Kind} {ks : List Kind}

/-- What the heaps are worth, as integers. -/
def fullList (ks : List Kind) : List ℤ :=
  ks.map fun k ↦ int (k.value * k.count)

/-- What all coins are worth, those in heaps that are going to be removed too. -/
def gross (out : List Outcome) : ℕ :=
  (out.map fun o ↦ o.kind.value * (o.kind.count + o.dropped)).sum

@[simp]
theorem total_cons : total (k :: ks) = k.value * k.count + total ks :=
  rfl

@[simp]
theorem gross_cons (o : Outcome) (out : List Outcome) :
    gross (o :: out) = o.kind.value * (o.kind.count + o.dropped) + gross out :=
  rfl

@[simp]
theorem worth_cons (o : Outcome) (out : List Outcome) :
    worth (o :: out) = o.kind.value * (o.kind.lasting + o.dropped) + worth out :=
  rfl

theorem Kind.lasting_le (k : Kind) : k.lasting ≤ k.count := by
  rw [lasting, count]
  cases k.heap with
  | none => exact le_rfl
  | some c =>
    rw [elim_some, elim_some]
    split
    · exact Nat.zero_le _
    · exact le_rfl

theorem worth_le_gross (out : List Outcome) : worth out ≤ gross out := by
  induction out with
  | nil => exact le_rfl
  | cons o out ih =>
    rw [worth_cons, gross_cons]
    have := Nat.mul_le_mul_left o.kind.value (Nat.add_le_add_right o.kind.lasting_le o.dropped)
    omega

theorem Kind.become_count (k : Kind) (n : ℤ) :
    (k.become carries n).kind.value = k.value ∧
      (k.become carries n).kind.count + (k.become carries n).dropped = n.toNat := by
  obtain ⟨value, - | c⟩ := k
  · by_cases hn : n > 0
    · by_cases hcarries : carries value n.toNat = true <;> simp [become, count, hn, hcarries]
    · have hzero : n.toNat = 0 := by omega
      simp [become, count, hn, hzero]
  · by_cases hn : n ≤ 0
    · have hzero : n.toNat = 0 := by omega
      simp [become, count, Coins.setHeapSize, hn, hzero]
    · simp [become, count, Coins.setHeapSize, hn]

theorem Coins.numHeap_eq {c : Coins} (h : c.leaveBehind = 0) (hcount : c.count < 2 ^ 31) :
    c.numHeap = c.count := by
  rw [numHeap, h, sub_zero, int_natCast hcount]

theorem Kind.numHeap_eq (h : ∀ c ∈ k.heap, c.leaveBehind = 0) (hcount : k.count < 2 ^ 31) :
    k.numHeap = k.count := by
  obtain ⟨value, - | c⟩ := k
  · rfl
  · exact Coins.numHeap_eq (h c rfl) hcount

theorem Kind.exists_numHeap
    (h : ∀ c ∈ k.heap, 0 ≤ c.leaveBehind ∧ c.leaveBehind ≤ c.count) (hcount : k.count < 2 ^ 31) :
    ∃ n : ℕ, k.numHeap = n ∧ n ≤ k.count ∧
      ((∃ c ∈ k.heap, c.leaveBehind ≠ 0) → n < k.count) := by
  obtain ⟨value, - | c⟩ := k
  · exact ⟨0, rfl, le_rfl, fun ⟨_, hc, _⟩ ↦ nomatch hc⟩
  · obtain ⟨hpos, hle⟩ := h c rfl
    replace hcount : c.count < 2 ^ 31 := hcount
    refine ⟨(c.count - c.leaveBehind).toNat, ?_, ?_, ?_⟩
    · show int (c.count - c.leaveBehind) = _
      rw [int_eq (by omega) (by omega), Int.toNat_of_nonneg (by omega)]
    · show _ ≤ c.count
      omega
    · rintro ⟨_, ⟨⟩, hne⟩
      show _ < c.count
      omega

theorem moneyList_eq (h : Whole ks) (hcount : ∀ k ∈ ks, k.count < 2 ^ 31) :
    moneyList ks = fullList ks :=
  map_congr_left fun k hk ↦ by rw [Kind.numHeap_eq (h k hk) (hcount k hk)]

theorem totalMoney_eq (h : ks.map Kind.value = MONEY_VALUES) (hwhole : Whole ks)
    (hcount : ∀ k ∈ ks, k.count < 2 ^ 31) : totalMoney ks = int (total ks) := by
  have hlen : (ks.map Kind.count).length = MONEY_VALUES.length := by
    rw [← h, length_map, length_map]
  have hmerged : merged (ks.map Kind.count) MONEY_VALUES = total ks := by
    rw [← h, merged, total, zip_map', map_map]
    exact congrArg List.sum (map_congr_left fun k _ ↦ Nat.mul_comm _ _)
  have hcast : ks.map Kind.numHeap = (ks.map Kind.count).map Nat.cast := by
    rw [map_map]
    exact map_congr_left fun k hk ↦ Kind.numHeap_eq (hwhole k hk) (hcount k hk)
  rw [totalMoney, hcast, mergeValues_eq hlen, hmerged]

theorem pay_zero {ms : List ℤ} (h : ∀ m ∈ ms.head?, 0 ≤ m ∧ m < 2 ^ 31) : pay ms 0 = ms := by
  cases ms with
  | nil => rfl
  | cons m ms =>
    obtain ⟨hpos, hlt⟩ := h m rfl
    rw [pay, if_pos hpos, sub_zero, int_eq (by omega) hlt]

theorem fullList_cons (h : k.value * k.count < 2 ^ 31) :
    fullList (k :: ks) = ((k.value * k.count : ℕ) : ℤ) :: fullList ks := by
  rw [fullList, map_cons, ← Nat.cast_mul, int_natCast h]
  rfl

theorem pay_fullList_zero (h : ∀ k ∈ ks, 0 < k.value ∧ k.value * k.count < 2 ^ 31) :
    pay (fullList ks) 0 = fullList ks := by
  refine pay_zero fun m hm ↦ ?_
  cases ks with
  | nil => exact absurd hm nofun
  | cons k ks =>
    obtain ⟨-, hlt⟩ := h k mem_cons_self
    rw [fullList_cons hlt, List.head?_cons, Option.mem_some] at hm
    omega

/-- One round of the third loop, where `m` is left of this kind and `r` of the dearer ones. -/
theorem change_cons {ms : List ℤ} {m r : ℕ} (hrest : (change carries ks ms).2 = r)
    (hlt : m + r < 2 ^ 31) :
    change carries (k :: ks) ((m : ℤ) :: ms) =
      (k.become carries ((m + r) / k.value : ℕ) :: (change carries ks ms).1,
        (((m + r) % k.value : ℕ) : ℤ)) := by
  rw [change]
  rcases hout : change carries ks ms with ⟨out, rest⟩
  rw [hout] at hrest
  dsimp only at hrest ⊢
  rw [hrest, ← Nat.cast_add, int_natCast hlt]
  rfl

theorem gross_become (n : ℕ) (out : List Outcome) :
    gross (k.become carries n :: out) = k.value * n + gross out := by
  obtain ⟨hvalue, hcount⟩ := @Kind.become_count carries k n
  rw [gross_cons, hvalue, hcount, Int.toNat_natCast]

/-- The first kind of coins is taken in part and the dearer ones not at all, or it is taken as a
whole. -/
theorem pay_fullList_cons
    (hvalue : ∀ l ∈ k :: ks, 0 < l.value ∧ l.value * l.count < 2 ^ 31) {a : ℕ} (ha : a < 2 ^ 31)
    (hle : a ≤ total (k :: ks)) :
    ∃ m a' : ℕ, pay (fullList (k :: ks)) a = (m : ℤ) :: pay (fullList ks) a' ∧
      m ≤ k.value * k.count ∧ a' ≤ total ks ∧ a' + k.value * k.count = a + m ∧
        (m = 0 ∨ a' = 0) := by
  obtain ⟨⟨-, hlt⟩, hks⟩ := forall_mem_cons.1 hvalue
  rw [total_cons] at hle
  rw [fullList_cons hlt, pay]
  by_cases hpart : (a : ℤ) ≤ (k.value * k.count : ℕ)
  · refine ⟨k.value * k.count - a, 0, ?_, by omega, by omega, by omega, Or.inr rfl⟩
    rw [if_pos hpart, Nat.cast_zero, pay_fullList_zero hks, int_eq (by omega) (by omega),
      Nat.cast_sub (by omega)]
  · refine ⟨0, a - k.value * k.count, ?_, by omega, by omega, by omega, Or.inl rfl⟩
    rw [if_neg hpart, int_eq (by omega) (by omega), Nat.cast_sub (by omega)]
    rfl

/-- **Taking and changing conserve the value**: what is left of it, and what has been taken, and the
rest for which there is no cheaper kind of coins, is what was there. -/
theorem change_pay (hvalue : ∀ k ∈ ks, 0 < k.value ∧ k.value * k.count < 2 ^ 31) {a : ℕ}
    (ha : a < 2 ^ 31) (hle : a ≤ total ks) :
    ∃ r : ℕ, (change carries ks (pay (fullList ks) a)).2 = r ∧
      gross (change carries ks (pay (fullList ks) a)).1 + r + a = total ks ∧ r < 2 ^ 31 ∧
      (a = 0 → r = 0) ∧ ∀ k ∈ ks.head?, r < k.value := by
  induction ks generalizing a with
  | nil => exact ⟨0, rfl, by simpa [change, gross, total] using hle, by omega, fun _ ↦ rfl, nofun⟩
  | cons k ks ih =>
    obtain ⟨m, a', hpay, hm, ha', hsum, hor⟩ := pay_fullList_cons hvalue ha hle
    obtain ⟨⟨hpos, hlt⟩, hks⟩ := forall_mem_cons.1 hvalue
    obtain ⟨r, hrest, hgross, hr, hzero, -⟩ := ih hks (by omega) ha'
    have hmr : m + r < 2 ^ 31 := by
      rcases hor with rfl | rfl
      · omega
      · have := hzero rfl
        omega
    rw [hpay, change_cons hrest hmr]
    refine ⟨_, rfl, ?_, ?_, ?_, ?_⟩
    · have hdiv := Nat.div_add_mod (m + r) k.value
      rw [gross_become, total_cons]
      omega
    · have hmod := Nat.mod_le (m + r) k.value
      omega
    · rintro rfl
      -- nothing was taken, and the value is that of a number of coins
      obtain rfl : a' = 0 := by omega
      obtain rfl := hzero rfl
      obtain rfl : m = k.value * k.count := by omega
      exact Nat.mul_mod_right _ _
    · rintro _ ⟨⟩
      exact Nat.mod_lt _ hpos

theorem total_eq_zero (h : ∀ l ∈ ks, l.count = 0) : total ks = 0 := by
  induction ks with
  | nil => rfl
  | cons k ks ih =>
    obtain ⟨hk, hks⟩ := forall_mem_cons.1 h
    rw [total_cons, hk, ih hks, Nat.mul_zero]

theorem Kind.become_lasting {n : ℤ} (h : (∃ c ∈ k.heap, c.removing = true) → n ≤ 0) :
    (k.become carries n).kind.lasting = (k.become carries n).kind.count := by
  obtain ⟨value, - | c⟩ := k
  · by_cases hn : n > 0
    · by_cases hcarries : carries value n.toNat = true <;>
        simp [become, count, lasting, hn, hcarries]
    · simp [become, count, lasting, hn]
  · by_cases hn : n ≤ 0
    · simp [become, count, lasting, Coins.setHeapSize, hn]
    · have hc : c.removing = false := by
        by_contra hc
        exact hn (h ⟨c, rfl, by simpa using hc⟩)
      simp [become, count, lasting, Coins.setHeapSize, hn, hc]

theorem worth_change_pay (hvalue : ∀ k ∈ ks, 0 < k.value ∧ k.value * k.count < 2 ^ 31)
    (hempty : Kept ks) (h : Changeable ks) {a : ℕ}
    (ha : a < 2 ^ 31) (hle : a ≤ total ks) :
    worth (change carries ks (pay (fullList ks) a)).1 =
      gross (change carries ks (pay (fullList ks) a)).1 := by
  induction ks generalizing a with
  | nil => rfl
  | cons k ks ih =>
    obtain ⟨m, a', hpay, hm, ha', hsum, hor⟩ := pay_fullList_cons hvalue ha hle
    obtain ⟨⟨hpos, hlt⟩, hks⟩ := forall_mem_cons.1 hvalue
    obtain ⟨hk, hempty⟩ := forall_mem_cons.1 hempty
    obtain ⟨r, hrest, hgross, hr, hzero, -⟩ := @change_pay carries _ hks _ (by omega) ha'
    have hmr : m + r < 2 ^ 31 := by
      rcases hor with rfl | rfl
      · omega
      · have := hzero rfl
        omega
    have hnone : (∃ c ∈ k.heap, c.removing = true) → (((m + r) / k.value : ℕ) : ℤ) ≤ 0 := by
      rintro ⟨c, hc, hremoving⟩
      have hcount : k.count = 0 := by
        rw [Kind.count, hc]
        exact hk c hc hremoving
      have htotal : total ks = 0 := total_eq_zero (h.1 ⟨c, hc, hremoving⟩)
      obtain rfl : r = 0 := hzero (by omega)
      rw [hcount, Nat.mul_zero] at hm
      obtain rfl : m = 0 := by omega
      simp
    rw [hpay, change_cons hrest hmr, worth_cons, gross_cons, Kind.become_lasting hnone,
      ih hks hempty h.2 (by omega) ha']

theorem changeable_of_forall (h : ∀ k ∈ ks, ¬∃ c ∈ k.heap, c.removing = true) : Changeable ks := by
  induction ks with
  | nil => trivial
  | cons k ks ih =>
    obtain ⟨hk, hks⟩ := forall_mem_cons.1 h
    exact ⟨fun hremoving ↦ absurd hremoving hk, ih hks⟩

/-- The values of the kinds divide each other, and grow. -/
def Graded (ks : List Kind) : Prop :=
  ks.IsChain fun k l ↦ k.value ∣ l.value ∧ k.value < l.value

theorem pred_mod {x value : ℕ} (hx : 0 < x) (hdvd : value ∣ x) : (x - 1) % value = value - 1 := by
  obtain ⟨n, rfl⟩ := hdvd
  have hvalue : 0 < value := Nat.pos_of_mul_pos_right hx
  obtain ⟨n, rfl⟩ := Nat.exists_eq_add_one.2 (Nat.pos_of_mul_pos_left hx)
  have hsplit : value * (n + 1) - 1 = value * n + (value - 1) := by
    rw [Nat.mul_succ]
    omega
  rw [hsplit, Nat.mul_add_mod, Nat.mod_eq_of_lt (by omega)]

theorem change_pay_one (hvalue : ∀ l ∈ k :: ks, 0 < l.value ∧ l.value * l.count < 2 ^ 31)
    (hgraded : Graded (k :: ks)) (hpos : 0 < total (k :: ks)) :
    (change carries (k :: ks) (pay (fullList (k :: ks)) (1 : ℕ))).2 = (k.value - 1 : ℕ) := by
  induction ks generalizing k with
  | nil =>
    obtain ⟨m, a', hpay, hm, ha', hsum, hor⟩ := pay_fullList_cons hvalue (by omega) hpos
    obtain ⟨r, hrest, -, hr, hzero, -⟩ :=
      @change_pay carries _ (forall_mem_cons.1 hvalue).2 a' (by omega) ha'
    have htotal : total [] = 0 := rfl
    rw [total_cons] at hpos
    obtain rfl : a' = 0 := by omega
    obtain rfl := hzero rfl
    obtain rfl : m = k.value * k.count - 1 := by omega
    have hlt := (forall_mem_cons.1 hvalue).1.2
    rw [hpay, change_cons hrest (by omega), Nat.add_zero,
      pred_mod (by omega) (Nat.dvd_mul_right _ _)]
  | cons l ks ih =>
    obtain ⟨⟨hdvd, hlt⟩, hgraded⟩ := isChain_cons_cons.1 hgraded
    obtain ⟨m, a', hpay, hm, ha', hsum, hor⟩ := pay_fullList_cons hvalue (by omega) hpos
    obtain ⟨⟨hk, hkv⟩, hks⟩ := forall_mem_cons.1 hvalue
    rw [total_cons] at hpos
    by_cases hnone : k.value * k.count = 0
    · -- the copper is taken from a dearer kind
      obtain rfl : a' = 1 := by omega
      obtain rfl : m = 0 := by omega
      have hl := (forall_mem_cons.1 hks).1
      obtain ⟨r, hrest, -, hr, -, hlast⟩ := @change_pay carries _ hks 1 (by omega) ha'
      have hone : r = l.value - 1 := by
        have := hrest.symm.trans (ih hks hgraded (by omega))
        omega
      rw [hpay, change_cons hrest (by omega), Nat.zero_add, hone,
        pred_mod hl.1 hdvd]
    · obtain rfl : a' = 0 := by omega
      obtain ⟨r, hrest, -, hr, hzero, -⟩ := @change_pay carries _ hks 0 (by omega) ha'
      obtain rfl := hzero rfl
      obtain rfl : m = k.value * k.count - 1 := by omega
      rw [hpay, change_cons hrest (by omega), Nat.add_zero,
        pred_mod (by omega) (Nat.dvd_mul_right _ _)]

theorem count_of_total (hvalue : ∀ k ∈ ks, 0 < k.value ∧ k.value * k.count < 2 ^ 31)
    (h : total ks = 0) : ∀ l ∈ ks, l.count = 0 := by
  induction ks with
  | nil => exact nofun
  | cons k ks ih =>
    obtain ⟨⟨hpos, -⟩, hks⟩ := forall_mem_cons.1 hvalue
    rw [total_cons, Nat.add_eq_zero_iff] at h
    exact forall_mem_cons.2
      ⟨(Nat.mul_eq_zero.1 h.1).resolve_left hpos.ne', ih hks h.2⟩

theorem Kind.worth_become_le (k : Kind) (n : ℕ) :
    (k.become carries n).kind.value *
      ((k.become carries n).kind.lasting + (k.become carries n).dropped) ≤ k.value * n := by
  obtain ⟨hvalue, hcount⟩ := @Kind.become_count carries k n
  rw [hvalue]
  refine Nat.mul_le_mul_left _ ?_
  have := (k.become carries n).kind.lasting_le
  rw [Int.toNat_natCast] at hcount
  omega

/-- Where change can be put into a heap that is going to be removed, there is an amount that has
this happen. -/
theorem exists_loss (hvalue : ∀ k ∈ ks, 0 < k.value ∧ k.value * k.count < 2 ^ 31)
    (hempty : Kept ks) (hgraded : Graded ks)
    (hlt : total ks < 2 ^ 31) (h : ¬Changeable ks) :
    ∃ a r : ℕ, 0 < a ∧ a ≤ total ks ∧ (change carries ks (pay (fullList ks) a)).2 = r ∧
      worth (change carries ks (pay (fullList ks) a)).1 + r + a < total ks := by
  induction ks with
  | nil => exact absurd trivial h
  | cons k ks ih =>
    obtain ⟨⟨hpos, hkv⟩, hks⟩ := forall_mem_cons.1 hvalue
    obtain ⟨hk, hempty⟩ := forall_mem_cons.1 hempty
    rw [total_cons] at hlt ⊢
    by_cases hrest : Changeable ks
    · -- the first heap is going to be removed, and there are dearer coins
      obtain ⟨⟨c, hc, hremoving⟩, hdear⟩ : (∃ c ∈ k.heap, c.removing = true) ∧
          ¬∀ l ∈ ks, l.count = 0 := by
        by_contra hno
        refine h ⟨fun hc ↦ ?_, hrest⟩
        by_contra hdear
        exact hno ⟨hc, hdear⟩
      rcases ks with - | ⟨l, ks⟩
      · exact absurd nofun hdear
      have hnone : k.count = 0 := by
        rw [Kind.count, hc]
        exact hk c hc hremoving
      have hdearpos : 0 < total (l :: ks) :=
        Nat.pos_of_ne_zero fun hzero ↦ hdear (count_of_total hks hzero)
      obtain ⟨⟨-, hless⟩, hgraded⟩ := isChain_cons_cons.1 hgraded
      obtain ⟨m, a', hpay, hm, ha', hsum, hor⟩ :=
        pay_fullList_cons hvalue (a := 1) (by omega) (by rw [total_cons]; omega)
      rw [hnone, Nat.mul_zero] at hm hsum
      obtain rfl : m = 0 := by omega
      obtain rfl : a' = 1 := by omega
      obtain ⟨r, hr, hgross, hrlt, -⟩ := @change_pay carries _ hks 1 (by omega) ha'
      have hrest : r = l.value - 1 := by
        have := hr.symm.trans (change_pay_one hks hgraded hdearpos)
        omega
      refine ⟨1, r % k.value, one_pos, by omega, ?_, ?_⟩
      · rw [hpay, change_cons hr (by omega), Nat.zero_add]
      have hcoins : (k.become carries (((0 + r) / k.value : ℕ) : ℤ)).kind.lasting = 0 ∧
          (k.become carries (((0 + r) / k.value : ℕ) : ℤ)).dropped = 0 := by
        obtain ⟨value, heap⟩ := k
        obtain rfl : heap = some c := hc
        simp only [Kind.become, Kind.lasting, elim_some, Coins.setHeapSize]
        split <;> simp
      have hworth := worth_le_gross (change carries (l :: ks) (pay (fullList (l :: ks)) (1 : ℕ))).1
      have hmod := Nat.mod_lt r hpos
      rw [hpay, change_cons hr (by omega), worth_cons, hcoins.1, hcoins.2, Nat.zero_add,
        Nat.mul_zero]
      omega
    · obtain ⟨a, r, ha, hle, hr, hloss⟩ :=
        ih hks hempty (List.IsChain.tail hgraded) (by omega) hrest
      obtain ⟨m, a', hpay, hm, ha', hsum, hor⟩ := pay_fullList_cons hvalue
        (a := k.value * k.count + a) (by omega) (by rw [total_cons]; omega)
      obtain rfl : m = 0 := by omega
      obtain rfl : a' = a := by omega
      have hrlt : r < 2 ^ 31 := by omega
      have hdiv := Nat.div_add_mod r k.value
      have hcoins := @Kind.worth_become_le carries k (r / k.value)
      refine ⟨k.value * k.count + a', r % k.value, by omega, by omega, ?_, ?_⟩
      · rw [hpay, change_cons hr (by omega), Nat.zero_add]
      · rw [hpay, change_cons hr (by omega), Nat.zero_add, worth_cons]
        omega

theorem tdiv_tmod (m : ℤ) {value : ℕ} (hpos : 0 < value) :
    (value * (m.tdiv value).toNat : ℤ) + max (m.tmod value) 0 = max m 0 ∧
      -(value : ℤ) < m.tmod value := by
  have hvalue : (0 : ℤ) < value := Int.natCast_pos.2 hpos
  have hdiv := Int.mul_tdiv_add_tmod m value
  have hlt : -(value : ℤ) < m.tmod value := by
    have := Int.tmod_lt_of_pos (-m) hvalue
    rw [Int.neg_tmod] at this
    omega
  rcases le_or_gt 0 m with hm | hm
  · have hquot : 0 ≤ m.tdiv value := Int.tdiv_nonneg hm hvalue.le
    rw [Int.toNat_of_nonneg hquot, max_eq_left hm, max_eq_left (Int.tmod_nonneg _ hm)]
    exact ⟨hdiv, hlt⟩
  · have hquot : m.tdiv value ≤ 0 := by
      have := Int.tdiv_nonneg (Int.neg_nonneg_of_nonpos hm.le) hvalue.le
      rw [Int.neg_tdiv] at this
      omega
    have hrem : m.tmod value ≤ 0 := by
      have := Int.tmod_nonneg value (Int.neg_nonneg_of_nonpos hm.le)
      rw [Int.neg_tmod] at this
      omega
    rw [Int.toNat_of_nonpos hquot, max_eq_right hm.le, max_eq_right hrem]
    exact ⟨by simp, hlt⟩

theorem gross_change_le (hvalue : ∀ k ∈ ks, 0 < k.value ∧ k.value < 2 ^ 31)
    (hparted : Parted ks) (hcount : ∀ k ∈ ks, k.count < 2 ^ 31) :
    -2 ^ 31 < (change carries ks (moneyList ks)).2 ∧
      (gross (change carries ks (moneyList ks)).1 : ℤ) +
        max (change carries ks (moneyList ks)).2 0 ≤ total ks ∧
      ((∃ k ∈ ks, 2 ^ 31 ≤ k.value * k.count ∨ ∃ c ∈ k.heap, c.leaveBehind ≠ 0) →
        (gross (change carries ks (moneyList ks)).1 : ℤ) +
          max (change carries ks (moneyList ks)).2 0 < total ks) := by
  induction ks with
  | nil => exact ⟨by simp [change], by simp [change, gross, total], by simp⟩
  | cons k ks ih =>
    obtain ⟨⟨hpos, hlt⟩, hks⟩ := forall_mem_cons.1 hvalue
    obtain ⟨hk, hparted⟩ := forall_mem_cons.1 hparted
    obtain ⟨hkcount, hcount⟩ := forall_mem_cons.1 hcount
    obtain ⟨hrest, hle, hless⟩ := ih hks hparted hcount
    obtain ⟨n, hn, hnle, hnlt⟩ := Kind.exists_numHeap hk hkcount
    have hseen : k.value * n ≤ k.value * k.count := Nat.mul_le_mul_left _ hnle
    have hsplit : (∃ c ∈ k.heap, c.leaveBehind ≠ 0) → k.value * n < k.value * k.count :=
      fun h ↦ Nat.mul_lt_mul_of_pos_left (hnlt h) hpos
    have hmoney : moneyList (k :: ks) = int (k.value * n : ℕ) :: moneyList ks := by
      rw [moneyList, map_cons, hn, Nat.cast_mul]
      rfl
    rw [exists_mem_cons_iff, hmoney, change]
    generalize change carries ks (moneyList ks) = rounds at hrest hle hless ⊢
    obtain ⟨out, rest⟩ := rounds
    obtain ⟨m, hm⟩ : ∃ m, int (int (k.value * n : ℕ) + rest) = m := ⟨_, rfl⟩
    obtain ⟨hvalue', hcoins⟩ := @Kind.become_count carries k (m.tdiv k.value)
    obtain ⟨hdiv, hmod⟩ := tdiv_tmod m hpos
    dsimp only at hrest hle hless ⊢
    rw [hm, gross_cons, hvalue', hcoins, total_cons]
    generalize k.value * n = seen at hm hseen hsplit
    generalize k.value * k.count = whole at hseen hsplit ⊢
    have hmlt : m < 2 ^ 31 := hm ▸ int_lt _
    -- what is left of this kind and the dearer ones is not more than they are worth
    have hworth : m ≤ seen + rest ∨ 2 ^ 31 ≤ seen := by
      rcases lt_or_ge seen (2 ^ 31) with hfits | hover
      · have hleast := int_le (z := seen + rest) (by omega)
        rw [← hm, int_int_add]
        exact .inl hleast
      · exact .inr hover
    push_cast
    refine ⟨by omega, by omega, ?_⟩
    rintro ((hover | hbehind) | hmore)
    · omega
    · have := hsplit hbehind
      omega
    · have := hless hmore
      omega

end Taking

/-! ### Giving -/

section Giving

variable {carries : ℕ → ℕ → Bool} {k : Kind} {ks : List Kind}

theorem Kind.lasting_eq (h : ∀ c ∈ k.heap, c.removing = true → c.count = 0) :
    k.lasting = k.count := by
  obtain ⟨value, - | c⟩ := k
  · rfl
  · rw [lasting, count, elim_some, elim_some]
    split
    · next hremoving => exact (h c rfl hremoving).symm
    · rfl

theorem worth_unchanged (h : Kept ks) :
    worth (ks.map (⟨·, 0⟩)) = total ks := by
  induction ks with
  | nil => rfl
  | cons k ks ih =>
    obtain ⟨hk, hks⟩ := forall_mem_cons.1 h
    rw [map_cons, worth_cons, total_cons, ih hks, Nat.add_zero, Kind.lasting_eq hk]

theorem Kind.receive_worth {n : ℕ} (hwhole : ∀ c ∈ k.heap, c.leaveBehind = 0)
    (hempty : ∀ c ∈ k.heap, c.removing = true → c.count = 0)
    (hadd : 0 < n → carries k.value n = true →
      ∀ c ∈ k.heap, c.removing = false ∧ n + c.count < 2 ^ 31) :
    (k.receive carries n).kind.value *
        ((k.receive carries n).kind.lasting + (k.receive carries n).dropped) =
      k.value * k.count + k.value * n := by
  rw [← Kind.lasting_eq hempty, ← Nat.mul_add, receive]
  by_cases hpos : (n : ℤ) > 0
  · rw [if_pos hpos, Int.toNat_natCast]
    by_cases hcarries : carries k.value n = true
    · rw [if_pos hcarries]
      obtain ⟨value, - | c⟩ := k
      · simp [lasting]
      · obtain ⟨hlasts, hlt⟩ := hadd (by omega) hcarries c rfl
        have hsum : int (n + c.numHeap) = (n + c.count : ℕ) := by
          rw [Coins.numHeap_eq (hwhole c rfl) (by omega), ← Nat.cast_add, int_natCast hlt]
        have hmore : ¬((n + c.count : ℕ) : ℤ) ≤ 0 := by omega
        simp only [lasting, elim_some, hsum, Coins.setHeapSize, if_neg hmore,
          Int.toNat_natCast, hlasts, Bool.false_eq_true, if_false, Nat.add_zero]
        rw [Nat.add_comm n]
    · rw [if_neg hcarries]
  · obtain rfl : n = 0 := by omega
    rw [if_neg hpos]

theorem worth_unchanged_le (ks : List Kind) : worth (ks.map (⟨·, 0⟩)) ≤ total ks := by
  induction ks with
  | nil => exact le_rfl
  | cons k ks ih =>
    rw [map_cons, worth_cons, total_cons, Nat.add_zero]
    exact Nat.add_le_add (Nat.mul_le_mul_left k.value k.lasting_le) ih

/-- **Giving adds exactly the amount**, less the rest for which there is no cheaper kind of coins,
where the coins can be added to those that are there. -/
theorem giveLoop_spec (hvalue : ∀ k ∈ ks, 0 < k.value) (hwhole : Whole ks)
    (hempty : Kept ks) (hadd : Addable carries ks)
    {a : ℕ} (ha : a < 2 ^ 31) :
    ∃ r : ℕ, (giveLoop carries ks a).2 = r ∧ r ≤ a ∧ (∀ k ∈ ks.head?, r < k.value) ∧
      worth (giveLoop carries ks a).1 + r = total ks + a := by
  induction ks with
  | nil => exact ⟨a, rfl, le_rfl, nofun, rfl⟩
  | cons k ks ih =>
    obtain ⟨hpos, hvalue⟩ := forall_mem_cons.1 hvalue
    obtain ⟨hkwhole, hwhole⟩ := forall_mem_cons.1 hwhole
    obtain ⟨hk, hempty⟩ := forall_mem_cons.1 hempty
    obtain ⟨r, hrest, hle, hlast, hsum⟩ := ih hvalue hwhole hempty hadd.2
    have hbound : r / k.value * k.value < ks.head?.elim (2 ^ 31) Kind.value := by
      refine (Nat.div_mul_le_self r k.value).trans_lt ?_
      cases ks with
      | nil => exact hle.trans_lt ha
      | cons l ks => exact hlast l rfl
    have hworth := Kind.receive_worth hkwhole hk fun hn ↦ hadd.1 (r / k.value) hn hbound
    have hdiv := Nat.div_add_mod r k.value
    rw [giveLoop]
    generalize giveLoop carries ks a = rounds at hrest hsum ⊢
    obtain ⟨out, to_do⟩ := rounds
    dsimp only at hrest hsum ⊢
    rw [hrest]
    refine ⟨r % k.value, rfl, (Nat.mod_le _ _).trans hle, ?_, ?_⟩
    · rintro _ ⟨⟩
      exact Nat.mod_lt r hpos
    · rw [worth_cons, total_cons]
      have hquot : (r : ℤ).tdiv k.value = (r / k.value : ℕ) := rfl
      rw [hquot, hworth]
      omega

theorem giveLoop_small (hgraded : Graded ks) {a : ℕ} (h : ∀ k ∈ ks.head?, a < k.value) :
    giveLoop carries ks a = (ks.map (⟨·, 0⟩), (a : ℤ)) := by
  induction ks with
  | nil => rfl
  | cons k ks ih =>
    have hk := h k rfl
    have hks : ∀ l ∈ ks.head?, a < l.value := by
      intro l hl
      rcases ks with - | ⟨m, ks⟩
      · exact absurd hl nofun
      · obtain rfl := Option.some.inj hl
        exact hk.trans (isChain_cons_cons.1 hgraded).1.2
    have hquot : (a : ℤ).tdiv k.value = (a / k.value : ℕ) := rfl
    have hrem : (a : ℤ).tmod k.value = (a % k.value : ℕ) := rfl
    rw [giveLoop, ih (List.IsChain.tail hgraded) hks]
    dsimp only
    rw [hquot, hrem, Nat.div_eq_of_lt hk, Nat.mod_eq_of_lt hk]
    rfl

theorem int_add_neg {n count : ℕ} (hn : n < 2 ^ 31) (hcount : count < 2 ^ 31)
    (hover : 2 ^ 31 ≤ n + count) : int (n + count) < 0 := by
  rw [← Nat.cast_add, int_of_le (by omega) (by omega)]
  omega

theorem Kind.receive_some {n : ℕ} {c : Coins} (hn : 0 < n) (hcarries : carries k.value n = true)
    (hc : k.heap = some c) : k.receive carries n =
      ⟨{ k with heap := some (c.setHeapSize (int (n + c.numHeap))) }, 0⟩ := by
  rw [receive, if_pos (Int.natCast_pos.2 hn), Int.toNat_natCast, if_pos hcarries, hc]

theorem Coins.removing_setHeapSize {c : Coins} {num : ℤ} (h : num ≤ 0 ∨ c.removing = true) :
    (c.setHeapSize num).removing = true := by
  rw [setHeapSize]
  rcases h with hless | hremoving
  · rw [if_pos hless]
  · rw [apply_ite removing, hremoving, ite_self]

/-- Coins that are put into a heap that is going to be removed, or cannot be counted with those that
are there, are lost. -/
theorem Kind.receive_lost {n : ℕ} {c : Coins} (hn : 0 < n) (hlt : n < 2 ^ 31)
    (hcount : k.count < 2 ^ 31) (hcarries : carries k.value n = true) (hc : k.heap = some c)
    (hwhole : c.leaveBehind = 0) (hlost : ¬(c.removing = false ∧ n + c.count < 2 ^ 31)) :
    (k.receive carries n).kind.lasting = 0 ∧ (k.receive carries n).dropped = 0 := by
  rw [count, hc, elim_some] at hcount
  have hless : int (n + c.count) ≤ 0 ∨ c.removing = true := by
    refine or_iff_not_imp_right.2 fun hstays ↦ (int_add_neg hlt hcount ?_).le
    exact not_lt.1 fun hfits ↦ hlost ⟨Bool.eq_false_iff.2 hstays, hfits⟩
  rw [Kind.receive_some hn hcarries hc, Coins.numHeap_eq hwhole hcount, lasting, elim_some,
    if_pos (Coins.removing_setHeapSize hless)]
  exact ⟨rfl, rfl⟩

theorem exists_give_loss (hvalue : ∀ k ∈ ks, 0 < k.value ∧ k.value < 2 ^ 31)
    (hcount : ∀ k ∈ ks, k.count < 2 ^ 31) (hwhole : Whole ks)
    (hempty : Kept ks) (hgraded : Graded ks)
    (h : ¬Addable carries ks) :
    ∃ a : ℕ, a < 2 ^ 31 ∧ (giveLoop carries ks a).2 = 0 ∧
      worth (giveLoop carries ks a).1 < total ks + a := by
  induction ks with
  | nil => exact absurd trivial h
  | cons k ks ih =>
    obtain ⟨⟨hpos, hlt⟩, hvalue⟩ := forall_mem_cons.1 hvalue
    obtain ⟨hk, hcount⟩ := forall_mem_cons.1 hcount
    obtain ⟨hkwhole, hwhole⟩ := forall_mem_cons.1 hwhole
    obtain ⟨hkempty, hempty⟩ := forall_mem_cons.1 hempty
    have hgraded' : Graded ks := List.IsChain.tail hgraded
    by_cases hrest : Addable carries ks
    · obtain ⟨n, hn, hbound, hcarries, c, hc, hlost⟩ : ∃ n, 0 < n ∧
          n * k.value < ks.head?.elim (2 ^ 31) Kind.value ∧ carries k.value n = true ∧
          ∃ c ∈ k.heap, ¬(c.removing = false ∧ n + c.count < 2 ^ 31) := by
        by_contra hno
        refine h ⟨fun n hn hbound hcarries c hc ↦ ?_, hrest⟩
        by_contra hlost
        exact hno ⟨n, hn, hbound, hcarries, c, hc, hlost⟩
      have ha : n * k.value < 2 ^ 31 := by
        cases ks with
        | nil => exact hbound
        | cons l ks => exact hbound.trans (forall_mem_cons.1 hvalue).1.2
      have hsmall : ∀ l ∈ ks.head?, n * k.value < l.value := by
        rcases ks with - | ⟨l, ks⟩
        · exact nofun
        · rintro _ ⟨⟩
          exact hbound
      have hquot : ((n * k.value : ℕ) : ℤ).tdiv k.value = n := by
        have hdiv : ((n * k.value : ℕ) : ℤ).tdiv k.value = (n * k.value / k.value : ℕ) := rfl
        rw [hdiv, Nat.mul_div_cancel _ hpos]
      have hrem : ((n * k.value : ℕ) : ℤ).tmod k.value = 0 := by
        rw [Nat.cast_mul, Int.mul_tmod_left]
      have hnlt : n < 2 ^ 31 := (Nat.le_mul_of_pos_right n hpos).trans_lt ha
      obtain ⟨hlasting, hdropped⟩ := Kind.receive_lost hn hnlt hk hcarries hc (hkwhole c hc) hlost
      have hunchanged := worth_unchanged hempty
      have hgiven : 0 < n * k.value := Nat.mul_pos hn hpos
      refine ⟨n * k.value, ha, ?_, ?_⟩
      · rw [giveLoop, giveLoop_small hgraded' hsmall]
        exact hrem
      · rw [giveLoop, giveLoop_small hgraded' hsmall]
        dsimp only
        rw [hquot, worth_cons, hlasting, hdropped, Nat.add_zero, Nat.mul_zero, total_cons]
        omega
    · obtain ⟨a, ha, hleft, hless⟩ :=
        ih hvalue hcount hwhole hempty hgraded' hrest
      refine ⟨a, ha, ?_, ?_⟩
      · rw [giveLoop]
        generalize giveLoop carries ks a = rounds at hleft hless ⊢
        obtain ⟨out, to_do⟩ := rounds
        obtain rfl : to_do = 0 := hleft
        show (0 : ℤ).tmod k.value = 0
        exact Int.zero_tmod _
      · rw [giveLoop]
        generalize giveLoop carries ks a = rounds at hleft hless ⊢
        obtain ⟨out, to_do⟩ := rounds
        obtain rfl : to_do = 0 := hleft
        have hnone : k.receive carries ((0 : ℤ).tdiv k.value) = ⟨k, 0⟩ := by
          rw [Int.zero_tdiv]
          rfl
        dsimp only at hless ⊢
        rw [hnone, worth_cons, total_cons]
        show k.value * (k.lasting + 0) + worth out < _
        rw [Kind.lasting_eq hkempty, Nat.add_zero]
        omega

theorem kept_of_worth (hpos : ∀ k ∈ ks, 0 < k.value)
    (h : total ks ≤ worth (ks.map (⟨·, 0⟩))) : Kept ks := by
  induction ks with
  | nil => exact nofun
  | cons k ks ih =>
    obtain ⟨hk, hks⟩ := forall_mem_cons.1 hpos
    rw [map_cons, worth_cons, total_cons] at h
    replace h : k.value * k.count + total ks ≤ k.value * k.lasting + worth (ks.map (⟨·, 0⟩)) := h
    have hle := Nat.mul_le_mul_left k.value k.lasting_le
    have hrest : worth (ks.map (⟨·, 0⟩)) ≤ total ks := worth_unchanged_le ks
    refine forall_mem_cons.2 ⟨fun c hc hremoving ↦ ?_, ih hks (by omega)⟩
    have hheap : k.heap = some c := hc
    have hlasting : k.lasting = 0 := by
      rw [Kind.lasting, hheap, elim_some, if_pos hremoving]
    have hnone : k.value * k.count = 0 := by
      rw [hlasting, Nat.mul_zero] at h
      omega
    have hcount : k.count = c.count := by
      rw [Kind.count, hheap, elim_some]
    exact hcount ▸ (Nat.mul_eq_zero.1 hnone).resolve_left hk.ne'

end Giving

/-! ### The balance -/

section Balance

variable {carries : ℕ → ℕ → Bool} (p : Purse)

theorem Purse.value_spec : ∀ k ∈ p.kinds, 0 < k.value ∧ k.value < 2 ^ 31 := by
  have hvalues : ∀ value ∈ MONEY_VALUES, 0 < value ∧ value < 2 ^ 31 := by decide
  intro k hk
  exact hvalues _ (p.values_eq ▸ mem_map_of_mem hk)

theorem Purse.graded : Graded p.kinds := by
  have hvalues : MONEY_VALUES.IsChain fun v w ↦ v ∣ w ∧ v < w := by decide
  rw [← p.values_eq, isChain_map] at hvalues
  exact hvalues

theorem Purse.exists_kinds : ∃ cc sc gc pc : Kind, p.kinds = [cc, sc, gc, pc] ∧ cc.value = 1 := by
  obtain ⟨cc, _, hkinds, hcc, hrest⟩ := map_eq_cons_iff.1 p.values_eq
  obtain ⟨sc, _, rfl, -, hrest⟩ := map_eq_cons_iff.1 hrest
  obtain ⟨gc, _, rfl, -, hrest⟩ := map_eq_cons_iff.1 hrest
  obtain ⟨pc, _, rfl, -, hrest⟩ := map_eq_cons_iff.1 hrest
  obtain rfl := map_eq_nil_iff.1 hrest
  exact ⟨cc, sc, gc, pc, hkinds, hcc⟩

theorem Purse.rest_eq_zero {r : ℕ} (h : ∀ k ∈ p.kinds.head?, r < k.value) : r = 0 := by
  obtain ⟨cc, sc, gc, pc, hkinds, hcc⟩ := p.exists_kinds
  rw [hkinds] at h
  have hlt := h cc rfl
  omega

theorem Purse.take_of (hwhole : Whole p.kinds) (hcount : Countable p.kinds)
    (hkept : Kept p.kinds) (hchange : Changeable p.kinds) {a : ℕ} (ha : a < 2 ^ 31)
    (hle : a ≤ total p.kinds) : (takeMoney carries p.kinds a).1 = 1 ∧
      worth (takeMoney carries p.kinds a).2 + a = total p.kinds := by
  have hvalue : ∀ k ∈ p.kinds, 0 < k.value ∧ k.value * k.count < 2 ^ 31 :=
    fun k hk ↦ ⟨(p.value_spec k hk).1, hcount.kind_lt k hk⟩
  have henough : ¬totalMoney p.kinds < a := by
    rw [totalMoney_eq p.values_eq hwhole p.count_lt]
    rcases hcount.total_lt with hlt | hlarge
    · rw [int_natCast hlt]
      omega
    · -- the largest integer
      have hint : int ((3 * 2 ^ 31 - 1 : ℕ) : ℤ) = 2 ^ 31 - 1 := by decide
      rw [hlarge, hint]
      omega
  obtain ⟨r, -, hgross, -, -, hlast⟩ := @change_pay carries _ hvalue a ha hle
  obtain rfl := p.rest_eq_zero hlast
  rw [takeMoney, if_neg henough, moneyList_eq hwhole p.count_lt]
  exact ⟨rfl, by rw [worth_change_pay hvalue hkept hchange ha hle, ← hgross, Nat.add_zero]⟩

theorem Purse.refuse_of (hwhole : Whole p.kinds) {a : ℕ} (ha : a < 2 ^ 31)
    (hlt : total p.kinds < a) :
    takeMoney carries p.kinds a = (0, p.kinds.map (⟨·, 0⟩)) := by
  rw [takeMoney, if_pos]
  rw [totalMoney_eq p.values_eq hwhole p.count_lt, int_natCast (by omega)]
  omega

theorem Purse.give_of (hwhole : Whole p.kinds) (hkept : Kept p.kinds)
    (hadd : Addable carries p.kinds) {a : ℕ} (ha : a < 2 ^ 31) :
    worth (giveMoney carries p.kinds a).2 = total p.kinds + a := by
  obtain ⟨r, -, -, hlast, hsum⟩ :=
    giveLoop_spec (fun k hk ↦ (p.value_spec k hk).1) hwhole hkept hadd ha
  obtain rfl := p.rest_eq_zero hlast
  exact hsum

/-- Where taking nothing leaves all coins as they are, no heap is split, and every heap is worth an
integer. -/
theorem Purse.whole_of_take (hparted : Parted p.kinds)
    (h : (takeMoney carries p.kinds 0).1 = 1 ∧
      worth (takeMoney carries p.kinds 0).2 = total p.kinds) :
    Whole p.kinds ∧ ∀ k ∈ p.kinds, k.value * k.count < 2 ^ 31 := by
  by_contra hnot
  have hover : ∃ k ∈ p.kinds, 2 ^ 31 ≤ k.value * k.count ∨ ∃ c ∈ k.heap, c.leaveBehind ≠ 0 := by
    by_contra! hall
    exact hnot ⟨fun k hk ↦ (hall k hk).2, fun k hk ↦ (hall k hk).1⟩
  obtain ⟨hsuccess, hworth⟩ := h
  rw [takeMoney] at hsuccess hworth
  split at hsuccess
  · exact absurd hsuccess zero_ne_one
  · next henough =>
    rw [if_neg henough, pay_zero] at hworth
    · obtain ⟨-, -, hless⟩ := @gross_change_le carries _ p.value_spec hparted p.count_lt
      have hle := worth_le_gross (change carries p.kinds (moneyList p.kinds)).1
      have := hless hover
      dsimp only at hworth
      omega
    · -- copper coins are worth as much as there are
      obtain ⟨cc, sc, gc, pc, hkinds, hcc⟩ := p.exists_kinds
      have hmem : cc ∈ p.kinds := hkinds ▸ mem_cons_self
      obtain ⟨n, hn, hle, -⟩ := Kind.exists_numHeap (hparted cc hmem) (p.count_lt cc hmem)
      have hlt := p.count_lt cc hmem
      rw [hkinds, moneyList, map_cons, List.head?_cons, hcc, Nat.cast_one, one_mul, hn,
        int_natCast (hle.trans_lt hlt)]
      rintro _ ⟨⟩
      omega

theorem Purse.total_lt_of_take (hwhole : Whole p.kinds)
    (hkind : ∀ k ∈ p.kinds, k.value * k.count < 2 ^ 31)
    (h : ∀ a : ℕ, a < 2 ^ 31 → a ≤ total p.kinds → (takeMoney carries p.kinds a).1 = 1) :
    total p.kinds < 2 ^ 31 ∨ total p.kinds = 3 * 2 ^ 31 - 1 := by
  have henough : ∀ a : ℕ, a < 2 ^ 31 → a ≤ total p.kinds → (a : ℤ) ≤ int (total p.kinds) := by
    intro a ha hle
    have hsuccess := h a ha hle
    rw [takeMoney, totalMoney_eq p.values_eq hwhole p.count_lt] at hsuccess
    split at hsuccess
    · exact absurd hsuccess zero_ne_one
    · next hnot => exact not_lt.1 hnot
  have hbound : total p.kinds ≤ 4 * (2 ^ 31 - 1) := by
    obtain ⟨cc, sc, gc, pc, hkinds, -⟩ := p.exists_kinds
    rw [hkinds] at hkind ⊢
    simp only [forall_mem_cons] at hkind
    simp only [total_cons]
    have htotal : total [] = 0 := rfl
    omega
  by_contra! hover
  -- what it looks like is less than what it is, and less than the largest integer
  have hlast := henough (2 ^ 31 - 1) (by omega) (by omega)
  rcases lt_or_ge (total p.kinds) (2 ^ 32) with hlt | hge
  · rw [int_of_le (by omega) (by omega)] at hlast
    omega
  · obtain ⟨rest, hrest⟩ := Nat.exists_eq_add_of_le hge
    have hint : int (total p.kinds) = int rest := by
      rw [hrest, int, int, Nat.cast_add, Int.add_bmod_left]
    rw [hint] at hlast
    have hneg := int_of_le (z := rest)
    have hpos := @int_natCast rest
    omega

theorem Purse.not_changeable (hkind : ∀ k ∈ p.kinds, k.value * k.count < 2 ^ 31)
    (hkept : Kept p.kinds) (h : ¬Changeable p.kinds) : total p.kinds ≤ 3 * (2 ^ 31 - 1) := by
  obtain ⟨k, hk, c, hc, hremoving⟩ : ∃ k ∈ p.kinds, ∃ c ∈ k.heap, c.removing = true := by
    by_contra! hnone
    exact h (changeable_of_forall fun k hk ⟨c, hc, hremoving⟩ ↦ hnone k hk c hc hremoving)
  have hzero : k.count = 0 := by
    rw [Kind.count, Option.mem_def.1 hc]
    exact hkept k hk c hc hremoving
  obtain ⟨cc, sc, gc, pc, hkinds, -⟩ := p.exists_kinds
  rw [hkinds] at hkind hk ⊢
  simp only [forall_mem_cons] at hkind
  simp only [mem_cons, not_mem_nil, or_false] at hk
  simp only [total_cons]
  have htotal : total [] = 0 := rfl
  have hnothing : k.value * k.count = 0 := by rw [hzero, Nat.mul_zero]
  rcases hk with rfl | rfl | rfl | rfl <;> omega

/-- Somebody who has just paid all his copper coins. -/
def paidCopper : Purse where
  kinds := [⟨1, some ⟨0, 0, true⟩⟩, ⟨12, some ⟨1, 0, false⟩⟩, ⟨240, none⟩, ⟨24000, none⟩]
  values_eq := rfl
  count_lt := by decide

end Balance

end Lpmud.Money
