import Lpmud.Heaps.Money
import Lpmud.Strings.Glob

/-!
# Paying with coins

How a trader (`/lib/trade.c`) calculates which coins are paid and which are given in change. To pay
a price, coins are taken from the cheapest type on until they are enough (`takeLoop`), and then it
is seen from the dearest type down which of them will do (`reduceLoop`). Change is given from the
dearest type down, within what the trader gives out of each (`changeLoop`).

The change is a percentage of what is paid too much, and a trader can be set to give more of it than
there is, as well as less. Integers have 32 bits.
-/

namespace Lpmud.Trade

open List
open Heaps (int int_eq int_le)

/-! ### Traders -/

/-- A type of coins: what the trader does with it. -/
structure CoinType where
  value : ℤ
  /-- The beginning of its names (`money_tematy`). -/
  temat : Bytes
  accept : Bool
  /-- How many are given at most. -/
  giveOut : ℤ
  /-- How many are given less than would be. -/
  giveReduce : ℤ
  value_pos : 0 < value
  value_lt : value * 100 < 2 ^ 31
  giveReduce_lt : giveReduce < 2 ^ 31

/-- The settings of a trader. The cheapest type of coins is the first one. -/
structure Trader where
  types : List CoinType
  giveMax : ℤ
  greedBuy : ℤ
  greedSell : ℤ
  greedChange : ℤ

/-- What the calculation of change depends on besides: how well the player trades, if there is one,
and what `random(3)` is. -/
structure Occasion where
  trading : Option ℤ
  random : Fin 3

/-- A string that says which types of coins are wanted, as its words. -/
abbrev Names : Type := List Bytes

/-- What an array of coins is worth. -/
def worth : List CoinType → List ℤ → ℤ
  | t :: ts, n :: arr => n * t.value + worth ts arr
  | _, _ => 0

def moneyMerge (types : List CoinType) (arr : List ℤ) : ℤ :=
  if arr.length ≠ types.length then 0
  else (arr.zip types).foldl (fun v p ↦ int (v + int (p.1 * p.2.value))) 0

/-! ### Change -/

/-- One of the words is a name of this type. -/
def CoinType.named (t : CoinType) (names : Names) : Bool :=
  names.any (MatchString.wildmat (t.temat ++ [MatchString.STAR]))

/-- `calc_change_str`, of what the trader gives out: the types that are wanted, and all that are
cheaper than one of them. -/
def calcChangeStr (names : Names) : List CoinType → List ℤ
  | [] => []
  | t :: ts =>
    (if (t :: ts).any (·.named names) then t.giveOut else 0) :: calcChangeStr names ts

/-- How many coins of each type are given at most. -/
def caps (types : List CoinType) (str : Option Names) : List ℤ :=
  str.elim (types.map (·.giveOut)) (calcChangeStr · types)

/-- The loop of `calc_change`, from the dearest type down: the coins, and what is left. -/
def changeLoop : List CoinType → List ℤ → ℤ → List ℤ × ℤ
  | t :: ts, cap :: tmpArr, newPrice =>
    let (cArr, newPrice) := changeLoop ts tmpArr newPrice
    if newPrice ≥ t.value ∧ cap ≠ 0 then
      let sum := int (newPrice.tdiv t.value - t.giveReduce)
      let sum := if sum > cap then cap else sum
      if sum > 0 then (sum :: cArr, int (newPrice - int (sum * t.value)))
      else (0 :: cArr, newPrice)
    else (0 :: cArr, newPrice)
  | _, _, newPrice => ([], newPrice)

section Trader

variable (T : Trader) (o : Occasion)

/-- The most that is given as change: a good trader gets more. -/
def maxChange : ℤ :=
  o.trading.elim T.giveMax fun skill ↦ int (T.giveMax + (int (T.giveMax * skill)).tdiv 200)

/-- `calc_change`, of an amount. -/
def changeOf (newPrice : ℤ) (str : Option Names) : List ℤ :=
  let newPrice :=
    if maxChange T o ≤ newPrice then
      min newPrice ((int ((9 + o.random) * maxChange T o)).tdiv 10)
    else newPrice
  if newPrice ≤ 0 then T.types.map fun _ ↦ 0
  else (changeLoop T.types (caps T.types str) newPrice).1

/-- `calc_change`, unless it divides by zero. -/
def calcChange (price : ℤ) (arr : Option (List ℤ)) (str : Option Names) : Option (List ℤ) :=
  if price < 0 then some (T.types.map fun _ ↦ 0)
  else
    match arr with
    | none => some (changeOf T o price str)
    | some arr =>
      if T.greedChange = 0 then none
      else
        let newPrice := (int (int (moneyMerge T.types arr - price) * 100)).tdiv T.greedChange
        some (changeOf T o newPrice str)

end Trader

/-! ### Coins -/

/-- As many coins as are needed for a price. -/
def roundUp (newPrice value : ℤ) : ℤ :=
  let n := newPrice.tdiv value
  if newPrice > int (n * value) then int (n + 1) else n

/-- The first loop of `calc_coins`. -/
def takeLoop : List CoinType → List ℤ → ℤ → List ℤ
  | t :: ts, n :: arr, newPrice =>
    let tmp := int (n * t.value)
    if newPrice ≤ tmp then roundUp newPrice t.value :: arr.map fun _ ↦ 0
    else n :: takeLoop ts arr (int (newPrice - tmp))
  | _, _, _ => []

/-- The second loop of `calc_coins`, from the dearest type down: the coins, and what is left of the
price, unless they are enough. -/
def reduceLoop : List CoinType → List ℤ → ℤ → List ℤ × Option ℤ
  | t :: ts, n :: newArr, newPrice =>
    match reduceLoop ts newArr newPrice with
    | (arr, none) => (0 :: arr, none)
    | (arr, some newPrice) =>
      if int (n * t.value) ≥ newPrice then (roundUp newPrice t.value :: arr, none)
      else (n :: arr, some (int (newPrice - int (n * t.value))))
  | _, _, newPrice => ([], some newPrice)

/-- The coins that `calc_coins` picks. -/
def pick (types : List CoinType) (price : ℤ) (arr : List ℤ) : List ℤ :=
  (reduceLoop types (takeLoop types arr price) price).1

/-- `calc_coins`, unless it divides by zero. -/
def calcCoins (T : Trader) (o : Occasion) (price : ℤ) (arr : List ℤ) (str : Option Names) :
    Option (List ℤ) :=
  let arr := pick T.types price arr
  (calcChange T o price (some arr) str).map (arr ++ ·)

/-! ### What it is to do -/

/-- A part of some coins. -/
def Part (paid purse : List ℤ) : Prop :=
  List.Forall₂ (fun p n ↦ 0 ≤ p ∧ p ≤ n) paid purse

/-- An array of coins, which are not less than none. -/
structure Coins (ts : List CoinType) (arr : List ℤ) : Prop where
  length_eq : arr.length = ts.length
  nonneg : ∀ n ∈ arr, 0 ≤ n

/-- A trader who gives `overpaid` back just so: for a hundred percent of it, within the most that is
given as change, and in the end in coppers, which are given without a reduction, and as many of them
as the dearer coins leave. -/
structure Neutral (T : Trader) (o : Occasion) (str : Option Names) (overpaid : ℤ) : Prop where
  greed : T.greedChange = 100
  max : overpaid < maxChange T o
  reduce : ∀ t ∈ T.types, 0 ≤ t.giveReduce
  copper : ∃ t ts cap rest, T.types = t :: ts ∧ caps T.types str = cap :: rest ∧ t.value = 1 ∧
    t.giveReduce = 0 ∧ (changeLoop ts rest overpaid).2 ≤ cap

/-- A price is paid from a purse: with a part of the coins that is enough, of which nothing more
comes back than was paid too much, and just so much from a trader who gives it back. -/
structure Payment (T : Trader) (o : Occasion) (str : Option Names) (purse : List ℤ) (price : ℤ)
    (paid : List ℤ) : Prop where
  part : Part paid purse
  enough : price ≤ worth T.types paid
  change_le : 100 ≤ T.greedChange → (∀ t ∈ T.types, 0 ≤ t.giveReduce) →
    ∀ change, calcChange T o price (some paid) str = some change →
      worth T.types change ≤ worth T.types paid - price
  change_eq : Neutral T o str (worth T.types paid - price) →
    ∀ change, calcChange T o price (some paid) str = some change →
      worth T.types change = worth T.types paid - price

/-! ### What coins are worth -/

variable {ts : List CoinType} {t : CoinType} {arr paid purse : List ℤ} {v price : ℤ}

@[simp] theorem worth_nil (arr : List ℤ) : worth [] arr = 0 := by
  cases arr <;> rfl

@[simp] theorem worth_cons (t : CoinType) (ts : List CoinType) (n : ℤ) (arr : List ℤ) :
    worth (t :: ts) (n :: arr) = n * t.value + worth ts arr := rfl

theorem worth_nil_right (ts : List CoinType) : worth ts [] = 0 := by
  cases ts <;> rfl

theorem Coins.tail {n : ℤ} (h : Coins (t :: ts) (n :: arr)) : Coins ts arr :=
  ⟨Nat.succ.inj h.length_eq, fun m hm ↦ h.nonneg m (mem_cons_of_mem n hm)⟩

theorem Coins.head {n : ℤ} (h : Coins ts (n :: arr)) : 0 ≤ n :=
  h.nonneg n (mem_cons_self ..)

theorem worth_nonneg (h : ∀ n ∈ arr, 0 ≤ n) (ts : List CoinType) : 0 ≤ worth ts arr := by
  induction arr generalizing ts with
  | nil => rw [worth_nil_right]
  | cons n arr ih =>
    rw [forall_mem_cons] at h
    cases ts with
    | nil => exact le_rfl
    | cons t ts => exact Int.add_nonneg (Int.mul_nonneg h.1 t.value_pos.le) (ih h.2 ts)

theorem worth_zeros (ts : List CoinType) (arr : List ℤ) : worth ts (arr.map fun _ ↦ 0) = 0 := by
  induction ts generalizing arr with
  | nil => rfl
  | cons t ts ih =>
    cases arr with
    | nil => rfl
    | cons n arr =>
      rw [map_cons, worth, ih, Int.zero_mul]
      rfl

theorem Part.coins (h : Part paid purse) (hpurse : purse.length = ts.length) : Coins ts paid := by
  refine ⟨h.length_eq.trans hpurse, ?_⟩
  clear hpurse
  induction h with
  | nil => exact forall_mem_nil _
  | cons hn _ ih => exact forall_mem_cons.2 ⟨hn.1, ih⟩

theorem Part.worth_le (h : Part paid purse) (ts : List CoinType) :
    worth ts paid ≤ worth ts purse := by
  induction h generalizing ts with
  | nil => exact le_rfl
  | cons hn _ ih =>
    cases ts with
    | nil => exact le_rfl
    | cons t ts => exact Int.add_le_add (Int.mul_le_mul_of_nonneg_right hn.2 t.value_pos.le) (ih ts)

theorem Part.trans {paid' : List ℤ} (h : Part paid' paid) (h' : Part paid purse) :
    Part paid' purse := by
  induction h generalizing purse with
  | nil => exact h'
  | cons hn _ ih =>
    cases h' with
    | cons hm htail => exact .cons ⟨hn.1, hn.2.trans hm.2⟩ (ih htail)

theorem Part.zeros (h : ∀ n ∈ arr, 0 ≤ n) : Part (arr.map fun _ ↦ 0) arr := by
  induction arr with
  | nil => exact .nil
  | cons n arr ih =>
    rw [forall_mem_cons] at h
    exact .cons ⟨le_rfl, h.1⟩ (ih h.2)

theorem moneyMerge_eq (h : Coins ts arr) (hlt : worth ts arr < 2 ^ 31) :
    moneyMerge ts arr = worth ts arr := by
  have hfold : ∀ v : ℤ, 0 ≤ v → v + worth ts arr < 2 ^ 31 →
      (arr.zip ts).foldl (fun v p ↦ int (v + int (p.1 * p.2.value))) v = v + worth ts arr := by
    clear hlt
    induction ts generalizing arr with
    | nil =>
      intro v _ _
      rw [zip_nil_right, worth_nil, Int.add_zero]
      rfl
    | cons t ts ih =>
      match arr, h with
      | n :: arr, h =>
        intro v hv hlt
        have hn := Int.mul_nonneg h.head t.value_pos.le
        have hrest := worth_nonneg h.tail.nonneg ts
        rw [worth] at hlt ⊢
        rw [zip_cons_cons, foldl_cons, int_eq (z := n * t.value) (by omega) (by omega),
          int_eq (by omega) (by omega), ih h.tail _ (by omega) (by omega), Int.add_assoc]
  rw [moneyMerge, if_neg (not_not_intro h.length_eq), hfold 0 le_rfl (by omega), Int.zero_add]

/-! ### The loops -/

theorem roundUp_spec {n newPrice value : ℤ} (hvalue : 0 < value) (h : 0 ≤ newPrice)
    (hle : newPrice ≤ n * value) (hlt : n * value < 2 ^ 31) :
    (0 ≤ roundUp newPrice value ∧ roundUp newPrice value ≤ n) ∧
      newPrice ≤ roundUp newPrice value * value ∧
      roundUp newPrice value * value < newPrice + value := by
  rw [roundUp, Int.tdiv_eq_ediv_of_nonneg h]
  obtain ⟨q, hq⟩ : ∃ q, newPrice / value = q := ⟨_, rfl⟩
  have hmul : q * value ≤ newPrice := hq ▸ Int.ediv_mul_le newPrice hvalue.ne'
  have hnext : newPrice < (q + 1) * value := hq ▸ Int.lt_ediv_add_one_mul_self newPrice hvalue
  have hpos : 0 ≤ q := hq ▸ Int.ediv_nonneg h hvalue.le
  rw [Int.add_mul, Int.one_mul] at hnext
  have hmul_nonneg := Int.mul_nonneg hpos hvalue.le
  rw [hq, int_eq (z := q * value) (by omega) (by omega)]
  split
  next hgt =>
    have hqn : q < n := Int.lt_of_mul_lt_mul_right (hgt.trans_le hle) hvalue.le
    have hnn : n ≤ n * value := le_mul_of_one_le_right (by omega) hvalue
    rw [int_eq (by omega) (by omega), Int.add_mul, Int.one_mul]
    omega
  next hle' =>
    have heq : q * value = newPrice := le_antisymm hmul (not_lt.1 hle')
    have hqn : q ≤ n := Int.le_of_mul_le_mul_right (heq.trans_le hle) hvalue
    omega

theorem takeLoop_spec (h : Coins ts arr) (hlt : worth ts arr < 2 ^ 31) (hprice : 0 ≤ price)
    (hle : price ≤ worth ts arr) :
    Part (takeLoop ts arr price) arr ∧ price ≤ worth ts (takeLoop ts arr price) := by
  induction ts generalizing arr price with
  | nil =>
    obtain rfl := length_eq_zero_iff.1 h.length_eq
    exact ⟨.nil, hle⟩
  | cons t ts ih =>
    match arr, h with
    | n :: arr, h =>
      have hn := Int.mul_nonneg h.head t.value_pos.le
      have hrest := worth_nonneg h.tail.nonneg ts
      rw [worth] at hlt hle
      rw [takeLoop, int_eq (z := n * t.value) (by omega) (by omega)]
      split
      next henough =>
        obtain ⟨hround, hge, -⟩ := roundUp_spec t.value_pos hprice henough (by omega)
        refine ⟨.cons hround (Part.zeros h.tail.nonneg), ?_⟩
        rwa [worth, worth_zeros, Int.add_zero]
      next hmore =>
        rw [int_eq (by omega) (by omega)]
        obtain ⟨hpart, hge⟩ := ih h.tail (by omega)
          (show 0 ≤ price - n * t.value by omega) (by omega)
        refine ⟨.cons ⟨h.head, le_rfl⟩ hpart, ?_⟩
        rw [worth]
        omega

/-- The second loop either takes all the coins, and they are not enough, or it takes a part that
is enough, with less than a coin too much. -/
theorem reduceLoop_spec (h : Coins ts arr) (hlt : worth ts arr < 2 ^ 31) (hprice : 0 ≤ price)
    (hprice_lt : price < 2 ^ 31) :
    (reduceLoop ts arr price = (arr, some (price - worth ts arr)) ∧
        (ts = [] ∨ worth ts arr < price)) ∨
      ∃ paid, reduceLoop ts arr price = (paid, none) ∧ Part paid arr ∧ price ≤ worth ts paid ∧
        ∃ t ∈ ts, worth ts paid < price + t.value := by
  induction ts generalizing arr with
  | nil =>
    obtain rfl := length_eq_zero_iff.1 h.length_eq
    exact .inl ⟨by rw [worth_nil, Int.sub_zero]; rfl, .inl rfl⟩
  | cons t ts ih =>
    match arr, h with
    | n :: arr, h =>
      have hn := Int.mul_nonneg h.head t.value_pos.le
      have hrest := worth_nonneg h.tail.nonneg ts
      rw [worth] at hlt
      obtain ⟨htail, hless⟩ | ⟨paid, htail, hpart, hge, t', ht', hnear⟩ := ih h.tail (by omega)
      · have hleft : 0 ≤ price - worth ts arr := by
          obtain rfl | hless := hless
          · rwa [worth_nil, Int.sub_zero]
          · omega
        rw [reduceLoop, htail]
        dsimp only
        rw [int_eq (z := n * t.value) (by omega) (by omega)]
        split
        next henough =>
          obtain ⟨hround, hge, hnear⟩ := roundUp_spec t.value_pos hleft henough (by omega)
          refine .inr ⟨_, rfl, .cons hround ?_, ?_, t, mem_cons_self .., ?_⟩
          · exact forall₂_same.2 fun m hm ↦ ⟨h.tail.nonneg m hm, le_rfl⟩
          · rw [worth]
            omega
          · rw [worth]
            omega
        next hmore =>
          rw [int_eq (by omega) (by omega)]
          refine .inl ⟨?_, .inr ?_⟩
          · rw [worth]
            congr 2
            omega
          · rw [worth]
            omega
      · rw [reduceLoop, htail]
        refine .inr ⟨_, rfl, .cons ⟨le_rfl, h.head⟩ hpart, ?_, t', mem_cons_of_mem t ht', ?_⟩
        · rw [worth]
          omega
        · rw [worth]
          omega

theorem pick_spec (h : Coins ts arr) (hlt : worth ts arr < 2 ^ 31) (hprice : 0 ≤ price)
    (hle : price ≤ worth ts arr) :
    Part (pick ts price arr) arr ∧ price ≤ worth ts (pick ts price arr) ∧
      (worth ts (pick ts price arr) - price) * 100 < 2 ^ 31 := by
  obtain ⟨hpart, hge⟩ := takeLoop_spec h hlt hprice hle
  have hcoins := hpart.coins h.length_eq
  have hworth := hpart.worth_le ts
  obtain ⟨hall, hless⟩ | ⟨paid, hpaid, hpart', hge', t, -, hnear⟩ :=
    reduceLoop_spec hcoins (by omega) hprice (by omega)
  · have hpick : pick ts price arr = takeLoop ts arr price := by rw [pick, hall]
    rw [hpick]
    obtain rfl | hless := hless
    · rw [worth_nil] at hge ⊢
      exact ⟨hpart, hge, by omega⟩
    · omega
  · have hpick : pick ts price arr = paid := by rw [pick, hpaid]
    rw [hpick]
    have := t.value_lt
    exact ⟨hpart'.trans hpart, hge', by omega⟩

/-- The loop of `calc_change` gives no more than it is to give. -/
theorem changeLoop_spec (hreduce : ∀ t ∈ ts, 0 ≤ t.giveReduce) (arr : List ℤ) (hv : 0 ≤ v)
    (hlt : v < 2 ^ 31) :
    worth ts (changeLoop ts arr v).1 + (changeLoop ts arr v).2 = v ∧
      0 ≤ (changeLoop ts arr v).2 ∧ ∀ n ∈ (changeLoop ts arr v).1, 0 ≤ n := by
  induction ts generalizing arr with
  | nil =>
    have hnil : changeLoop [] arr v = ([], v) := by cases arr <;> rfl
    rw [hnil]
    exact ⟨by rw [worth_nil, Int.zero_add], hv, forall_mem_nil _⟩
  | cons t ts ih =>
    cases arr with
    | nil => exact ⟨Int.zero_add v, hv, forall_mem_nil _⟩
    | cons cap arr =>
      rw [forall_mem_cons] at hreduce
      have htail := ih hreduce.2 arr
      rw [changeLoop]
      generalize changeLoop ts arr v = rest at htail ⊢
      obtain ⟨cArr, newPrice⟩ := rest
      obtain ⟨hsum, hleft, hnonneg⟩ := htail
      dsimp only at hsum hleft hnonneg ⊢
      have hnone : worth (t :: ts) (0 :: cArr) + newPrice = v ∧ 0 ≤ newPrice ∧
          ∀ n ∈ 0 :: cArr, (0 : ℤ) ≤ n := by
        rw [worth_cons, Int.zero_mul, Int.zero_add]
        exact ⟨hsum, hleft, forall_mem_cons.2 ⟨le_rfl, hnonneg⟩⟩
      split
      next hcond =>
        -- what is given of this type is worth no more than what is left
        obtain ⟨sum, hs⟩ : ∃ sum, (if int (newPrice.tdiv t.value - t.giveReduce) > cap then cap
            else int (newPrice.tdiv t.value - t.giveReduce)) = sum := ⟨_, rfl⟩
        rw [hs]
        split
        next hpos =>
          have hworth := worth_nonneg hnonneg ts
          have hle : sum ≤ newPrice / t.value := by
            rw [Int.tdiv_eq_ediv_of_nonneg hleft] at hs
            have hq := Int.ediv_nonneg hleft t.value_pos.le
            have hreduce_lt := t.giveReduce_lt
            have hint : int (newPrice / t.value - t.giveReduce) ≤
                newPrice / t.value - t.giveReduce := int_le (by omega)
            have := hreduce.1
            split at hs <;> omega
          have hmul : sum * t.value ≤ newPrice :=
            (Int.mul_le_mul_of_nonneg_right hle t.value_pos.le).trans
              (Int.ediv_mul_le newPrice t.value_pos.ne')
          have hmul_pos := Int.mul_pos hpos t.value_pos
          rw [int_eq (z := sum * t.value) (by omega) (by omega), int_eq (by omega) (by omega)]
          refine ⟨?_, by omega, forall_mem_cons.2 ⟨hpos.le, hnonneg⟩⟩
          rw [worth_cons]
          omega
        next => exact hnone
      next => exact hnone

/-! ### Change -/

variable {T : Trader} {o : Occasion} {str : Option Names}

theorem changeOf_of_nonpos (h : v ≤ 0) : changeOf T o v str = T.types.map fun _ ↦ 0 := by
  rw [changeOf]
  refine if_pos ?_
  split
  · exact (min_le_left _ _).trans h
  · exact h

theorem worth_noCoins (ts : List CoinType) : worth ts (ts.map fun _ ↦ 0) = 0 := by
  induction ts with
  | nil => rfl
  | cons t ts ih => rw [map_cons, worth_cons, ih, Int.zero_mul, Int.zero_add]

theorem worth_changeOf_le (hreduce : ∀ t ∈ T.types, 0 ≤ t.giveReduce) (hv : 0 ≤ v)
    (hlt : v < 2 ^ 31) : worth T.types (changeOf T o v str) ≤ v := by
  rw [changeOf]
  obtain ⟨newPrice, hnew⟩ : ∃ newPrice, (if maxChange T o ≤ v then
      min v ((int ((9 + o.random) * maxChange T o)).tdiv 10) else v) = newPrice := ⟨_, rfl⟩
  have hle : newPrice ≤ v := by
    rw [← hnew]
    split
    · exact min_le_left _ _
    · exact le_rfl
  rw [hnew]
  split
  · rwa [worth_noCoins]
  · obtain ⟨hsum, hleft, -⟩ :=
      changeLoop_spec hreduce (caps T.types str) (v := newPrice) (by omega) (by omega)
    omega

theorem Neutral.worth_changeOf {overpaid : ℤ} (h : Neutral T o str overpaid) (hv : 0 ≤ overpaid)
    (hlt : overpaid < 2 ^ 31) : worth T.types (changeOf T o overpaid str) = overpaid := by
  obtain rfl | hpos := hv.eq_or_lt
  · rw [changeOf_of_nonpos le_rfl, worth_noCoins]
  obtain ⟨t, ts, cap, rest, htypes, hcaps, hvalue, hzero, hcap⟩ := h.copper
  have hreduce := h.reduce
  rw [htypes, forall_mem_cons] at hreduce
  obtain ⟨hsum, hleft, hnonneg⟩ := changeLoop_spec hreduce.2 rest hv hlt
  rw [changeOf, if_neg (not_le.2 h.max), hcaps, htypes,
    if_neg (not_le.2 hpos), changeLoop]
  generalize changeLoop ts rest overpaid = r at hcap hsum hleft hnonneg ⊢
  obtain ⟨cArr, left⟩ := r
  dsimp only at hcap hsum hleft hnonneg ⊢
  have hworth := worth_nonneg hnonneg ts
  rw [hvalue, hzero, Int.tdiv_one, Int.sub_zero]
  split
  next hcond =>
    rw [int_eq (by omega) (by omega), if_neg (not_lt.2 hcap), if_pos (by omega), worth_cons,
      hvalue, Int.mul_one]
    omega
  next hcond =>
    rw [worth_cons, Int.zero_mul, Int.zero_add]
    omega

/-- What `calc_change` is to give back of what has been paid. -/
theorem calcChange_eq (hpaid : Coins T.types paid) (hlt : worth T.types paid < 2 ^ 31)
    (hprice : 0 ≤ price) (hprice_lt : price < 2 ^ 31) :
    calcChange T o price (some paid) str =
      if T.greedChange = 0 then none
      else
        some
          (changeOf T o ((int ((worth T.types paid - price) * 100)).tdiv T.greedChange) str) := by
  have hworth := worth_nonneg hpaid.nonneg T.types
  rw [calcChange, if_neg (not_lt.2 hprice)]
  dsimp only
  rw [moneyMerge_eq hpaid hlt, int_eq (z := worth T.types paid - price) (by omega) (by omega)]

/-- **Payment is sound**: `calc_coins` picks coins with which the price is paid. -/
theorem calcCoins_sound (T : Trader) (o : Occasion) (str : Option Names)
    (hpurse : Coins T.types purse) (hlt : worth T.types purse < 2 ^ 31) (hprice : 0 ≤ price)
    (hle : price ≤ worth T.types purse) :
    ∃ paid, calcCoins T o price purse str =
        (calcChange T o price (some paid) str).map (paid ++ ·) ∧
      Payment T o str purse price paid := by
  obtain ⟨hpart, hge, hnear⟩ := pick_spec hpurse hlt hprice hle
  have hpaid := hpart.coins hpurse.length_eq
  have hworth := hpart.worth_le T.types
  have hover : 0 ≤ worth T.types (pick T.types price purse) - price := Int.sub_nonneg.2 hge
  refine ⟨pick T.types price purse, rfl, hpart, hge, fun hgreed hreduce change hchange ↦ ?_,
    fun hneutral change hchange ↦ ?_⟩
  · rw [calcChange_eq hpaid (by omega) hprice (by omega), if_neg (by omega)] at hchange
    obtain rfl := Option.some.inj hchange
    rw [int_eq (by omega) (by omega), Int.tdiv_eq_ediv_of_nonneg (by omega)]
    refine (worth_changeOf_le hreduce ?_ ?_).trans ?_
    · exact Int.ediv_nonneg (by omega) (by omega)
    · exact (Int.ediv_le_self _ (by omega)).trans_lt hnear
    · refine Int.ediv_le_of_le_mul (by omega) ?_
      exact Int.mul_le_mul_of_nonneg_left hgreed hover
  · have hgreed := hneutral.greed
    rw [calcChange_eq hpaid (by omega) hprice (by omega), if_neg (by omega)] at hchange
    obtain rfl := Option.some.inj hchange
    rw [int_eq (by omega) (by omega), hgreed, Int.mul_tdiv_cancel _ (by decide)]
    exact hneutral.worth_changeOf hover (by omega)

/-- `MONEY_VALUES`, `MONEY_TEMATY`, `MONEY_GIVE_OUT` and `MONEY_GIVE_REDUCE`. -/
def moneyTypes : List CoinType :=
  [⟨1, "miedz".toUTF8.toList, true, 10000, 0, by decide, by decide, by decide⟩,
    ⟨12, "srebr".toUTF8.toList, true, 400, 2, by decide, by decide, by decide⟩,
    ⟨240, "zlot".toUTF8.toList, true, 3, 8, by decide, by decide, by decide⟩,
    ⟨24000, "mithryl".toUTF8.toList, true, 0, 8, by decide, by decide, by decide⟩]

theorem no_reduce_lt : (0 : ℤ) < 2 ^ 31 := by decide

def configDefaultTrade : Trader :=
  ⟨moneyTypes, 1000, 100, 100, 100⟩

theorem zero_lt_sides : 0 < 3 := by decide

/-- Nobody is there, and `random(3)` is 0. -/
def quiet : Occasion :=
  ⟨none, 0, zero_lt_sides⟩

theorem calcCoins_sound_silver : ∃ paid, calcCoins configDefaultTrade quiet 1 [0, 1, 0, 0] none =
      (calcChange configDefaultTrade quiet 1 (some paid) none).map (paid ++ ·) ∧
    Payment configDefaultTrade quiet none [0, 1, 0, 0] 1 paid :=
  calcCoins_sound configDefaultTrade quiet none ⟨rfl, by decide⟩ (by decide) (by decide) (by decide)

/-- **A trader who is set to half of the greed** gives 22 coppers for 11 that are paid too much. -/
theorem not_calcCoins_sound : ¬∀ (T : Trader) (o : Occasion) (str : Option Names) (purse : List ℤ)
    (price : ℤ), Coins T.types purse → worth T.types purse < 2 ^ 31 → 0 ≤ price →
      price ≤ worth T.types purse → ∃ paid change, calcCoins T o price purse str =
        some (paid ++ change) ∧ Part paid purse ∧ price ≤ worth T.types paid ∧
          worth T.types change ≤ worth T.types paid - price := by
  intro hall
  obtain ⟨paid, change, hcalc, hpart, -, hchange⟩ :=
    hall { configDefaultTrade with greedChange := 50 } quiet none [0, 1, 0, 0] 1
      ⟨rfl, by decide⟩ (by decide) (by decide) (by decide)
  have happend : [0, 1, 0, 0] ++ [22, 0, 0, 0] = paid ++ change :=
    Option.some.inj (Eq.trans (by decide) hcalc)
  obtain ⟨rfl, rfl⟩ := append_inj happend hpart.length_eq.symm
  exact absurd hchange (by decide)

end Lpmud.Trade
