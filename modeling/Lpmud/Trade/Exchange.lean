import Lpmud.Trade.Coins
import Lpmud.Trade.Transfer

/-!
# Changing coins at a bank

`change` of `/lib/bank.c` finds out by a test how much the player has of what is to be changed, and
from that what it comes to in the other coins (`exchangePrice`). Then it takes the payment (`pay`)
and gives the other coins (`give`).

The payment can fail, and then `pay` does not return 0 but an array, which says why. `change` takes
every array for a success, so the other coins are given also if nothing has been paid. This happens
when the player has something that passes for coins but is not made of coins, as far as coins of
that type are picked for the payment.
-/

namespace Lpmud.Trade

open List Option
open Heaps (int int_eq int_le int_lt)
open Kind (piles_set count_set)

/-! ### Paying and giving -/

def whatCoins (ob : Obj) (ks : List Kind) : List ℤ :=
  ks.map fun k ↦ (k.piles ob).elim 0 Pile.numHeap

def wantToPay (types : List CoinType) (arr : List ℤ) : Option Names → List ℤ
  | none => arr
  | some names => types.zipWith (fun t n ↦ if t.named names then n else 0) arr

def weAccept (types : List CoinType) (arr : List ℤ) : List ℤ :=
  types.zipWith (fun t n ↦ if t.accept then n else 0) arr

/-- What `pay` returns: an array with a reason why not, or the coins that are paid and those that
are given back, with the error of `change_money` unless it is a test. -/
inductive Answer where
  | refused (reason : ℕ)
  | paid (arr : List ℤ) (error : Option ℤ)

/-- The payment has failed. (Other errors are about change that the payer cannot carry.) -/
def Answer.Failed : Answer → Prop
  | refused _ => True
  | paid _ error => ∃ e ∈ error, e < 0

section Trader

variable (T : Trader) (o : Occasion) (d : Deal)

/-- `pay`, unless it divides by zero. -/
def pay (price : ℤ) (str : Option Names) (test : Bool) (str2 : Option Names) (ks : List Kind) :
    Option (List Kind × Answer) :=
  let price := (int (price * T.greedBuy)).tdiv 100
  let arr := wantToPay T.types (whatCoins d.payer ks) str
  if ¬price ≤ moneyMerge T.types arr then
    some (ks, .refused (if str.isNone then 3 else if moneyMerge T.types arr ≠ 0 then 1 else 2))
  else
    let arr := weAccept T.types arr
    if ¬price ≤ moneyMerge T.types arr then some (ks, .refused 4)
    else if price = 0 ∧ test then
      (calcChange T o price (some arr) str2).map fun change ↦ (ks, .paid (arr ++ change) none)
    else
      (calcCoins T o price arr str2).map fun arr ↦
        if test then (ks, .paid arr none)
        else ((d.changeMoney arr ks).1, .paid arr (some (d.changeMoney arr ks).2))

/-- `give`, unless it divides by zero. -/
def give (price : ℤ) (str : Option Names) (test : Bool) (ks : List Kind) :
    Option (List Kind × Answer) :=
  if T.greedSell = 0 then none
  else
    (calcChange T o ((int (price * 100)).tdiv T.greedSell) none str).map fun change ↦
      let arr := (T.types.map fun _ ↦ 0) ++ change
      if test then (ks, .paid arr none)
      else ((d.changeMoney arr ks).1, .paid arr (some (d.changeMoney arr ks).2))

end Trader

/-! ### Banks -/

/-- `config_default_trade` and `config_trade_data` of a bank, by its fee. -/
def configTradeData (fee : ℤ) : Trader where
  types := moneyTypes.zipWith (fun t giveOut ↦
    { t with giveOut, giveReduce := 0, giveReduce_lt := no_reduce_lt }) [40000, 4000, 2000, 200]
  giveMax := 40000
  greedBuy := int (100 + fee)
  greedSell := 100
  greedChange := int (100 + fee)

/-- What is to be changed into what: the words of each, and the number that they begin with. -/
structure Request where
  what : Names
  number : Option ℤ
  into : Names
  intoNumber : Option ℤ

/-- A string for a trader, who takes an empty one for none. -/
def asked (names : Names) : Option Names :=
  if names = [] then none else some names

/-- `valid_type`: the cheapest type that is named. -/
def validType (types : List CoinType) (names : Names) : Option ℕ :=
  types.findIdx? (·.named names)

section Bank

variable (T : Trader)

/-- The player limits what is to be changed, or does not. -/
def limitHold (o : Occasion) (into : Names) (i : ℕ) (number : Option ℤ)
    (holdArr changeArr : List ℤ) : Option (List ℤ × List ℤ) :=
  match number with
  | none => some (holdArr, changeArr)
  | some number =>
    if number > holdArr.getD i 0 then none
    else
      (calcChange T o 0 (some (holdArr.set i number)) (asked into)).map (holdArr.set i number, ·)

/-- The player limits what it is changed into, or does not. -/
def limitChange (i : ℕ) (number : Option ℤ) (changeArr : List ℤ) : Option (List ℤ) :=
  match number with
  | none => some changeArr
  | some number => if number > changeArr.getD i 0 ∨ number ≤ 0 then none
    else some (changeArr.set i number)

/-- No more than the bank gives at once. -/
def limitGive (i : ℕ) (t : CoinType) (changeArr : List ℤ) : List ℤ :=
  if (int (int (changeArr.getD i 0 * t.value) * T.greedBuy)).tdiv 100 > T.giveMax then
    changeArr.set i (((int (T.giveMax * 100)).tdiv T.greedBuy).tdiv t.value)
  else changeArr

/-- The first half of `change`: what the coins are worth that are to be given, if it comes to that.
-/
def exchangePrice (o o' : Occasion) (d : Deal) (r : Request) (ks : List Kind) : Option ℤ :=
  match pay T o d 0 (asked r.what) true (asked r.into) ks with
  | some (_, .paid arr _) => do
    let i ← validType T.types r.what
    let (holdArr, changeArr) ← limitHold T o' r.into i r.number (arr.take T.types.length)
      (arr.drop T.types.length)
    if holdArr.getD i 0 ≤ 0 then none
    else
      let i ← validType T.types r.into
      let t ← T.types[i]?
      let changeArr ← limitChange i r.intoNumber changeArr
      let changeArr := limitGive T i t changeArr
      let price := moneyMerge T.types (List.replicate i 0 ++ changeArr.drop i)
      if price < 1 then none else some price
  | _ => none

/-- A player with coins, who may be somewhere. -/
structure Customer where
  player : Obj
  room : Option Obj
  /-- What is found of each type is made of coins. -/
  genuine : ℕ → Bool
  trading : ℤ

/-- How it goes: what `random(3)` is each time, and what becomes of the coins that are moved, of
which only a part may be taken, or that may be refused. -/
structure Course where
  random : Fin 4 → Fin 3
  payMoves : Attempt → Option ℤ × ℕ
  giveMoves : Attempt → Option ℤ × ℕ

/-- The type of the coins that are moved. -/
def Attempt.type : Attempt → ℕ
  | pay i | payExtra i | change i | drop i => i

/-- What is paid to a bank is destroyed, and what it gives is made. -/
def Customer.deal (c : Customer) (moves : Attempt → Option ℤ × ℕ) : Deal where
  payer := c.player
  receiver := none
  extraHolder _ _ _ := none
  floor := c.room
  outcome a := ⟨c.genuine a.type, (moves a).1, (moves a).2⟩

def Customer.occasion (c : Customer) (w : Course) (i : Fin 4) : Occasion :=
  ⟨some c.trading, w.random i⟩

/-- The coins after the payment and in the end, and what `pay` returns. -/
structure Exchange where
  paid : List Kind
  answer : Answer
  given : List Kind

/-- `change`, if it comes to the payment. -/
def change (c : Customer) (w : Course) (r : Request) (testflag : Bool) (ks : List Kind) :
    Option Exchange := do
  let price ← exchangePrice T (c.occasion w 0) (c.occasion w 1) (c.deal w.payMoves) r ks
  let (paid, answer) ← pay T (c.occasion w 2) (c.deal w.payMoves) price (asked r.what) testflag
    (asked r.into) ks
  let given := give T (c.occasion w 3) (c.deal w.giveMoves) price (asked r.into) testflag paid
  some ⟨paid, answer, given.elim paid Prod.fst⟩

end Bank

/-! ### What it is to do -/

/-- What the coins are worth that someone has. -/
def purse (types : List CoinType) (ob : Obj) (ks : List Kind) : ℤ :=
  worth types (ks.map (·.count ob))

/-- The coins that are picked for a payment. -/
def payment (T : Trader) (c : Customer) (r : Request) (ks : List Kind) (price : ℤ) : List ℤ :=
  pick T.types ((int (price * T.greedBuy)).tdiv 100)
    (weAccept T.types (wantToPay T.types (whatCoins c.player ks) (asked r.what)))

/-- **A bank gives nothing away**: however it goes, the player does not have more in the end, and if
the payment fails nothing is taken and nothing is given. -/
structure GivesNothingAway (T : Trader) (c : Customer) (r : Request) (ks : List Kind) : Prop where
  purse_le : ∀ w e, change T c w r false ks = some e →
    purse T.types c.player e.given ≤ purse T.types c.player ks
  failed : ∀ w e, change T c w r false ks = some e → e.answer.Failed →
    e.paid = ks ∧ e.given = e.paid

/-- Whatever price it comes to, the coins that are picked for it are made of coins. -/
def PaysGenuine (T : Trader) (c : Customer) (r : Request) (ks : List Kind) : Prop :=
  ∀ (w : Course) (price : ℤ),
    exchangePrice T (c.occasion w 0) (c.occasion w 1) (c.deal w.payMoves) r ks = some price →
      ∀ (i : ℕ) (n : ℤ), (payment T c r ks price)[i]? = some n → n ≠ 0 → c.genuine i = true

/-- What matters of the settings of a bank. -/
structure Bank (T : Trader) : Prop where
  greedBuy : T.greedBuy = T.greedChange
  le_greedChange : 100 ≤ T.greedChange
  greedSell : T.greedSell = 100
  giveMax_nonneg : 0 ≤ T.giveMax
  giveMax_lt : T.giveMax * 100 < 2 ^ 31
  giveReduce_nonneg : ∀ t ∈ T.types, 0 ≤ t.giveReduce
  copper : ∃ t ts, T.types = t :: ts ∧ t.value = 1 ∧ t.giveReduce = 0 ∧ 0 < t.giveOut

theorem bank_configTradeData {fee : ℤ} (h : 0 ≤ fee) (hlt : 100 + fee < 2 ^ 31) :
    Bank (configTradeData fee) := by
  have hgreed : int (100 + fee) = 100 + fee := int_eq (by omega) hlt
  refine ⟨rfl, ?_, rfl, ?_, ?_, ?_, _, _, rfl, rfl, rfl, by decide⟩
  · show 100 ≤ int (100 + fee)
    omega
  · show (0 : ℤ) ≤ 40000
    decide
  · show (40000 : ℤ) * 100 < 2 ^ 31
    decide
  · show ∀ t ∈ (configTradeData 0).types, 0 ≤ t.giveReduce
    decide

/-! ### Parts of coins -/

variable {T : Trader} {c : Customer} {r : Request} {ks : List Kind} {ts : List CoinType}
  {t : CoinType} {arr arr' : List ℤ} {price v m : ℤ} {i : ℕ} {o o' : Occasion}

theorem Part.refl (h : ∀ n ∈ arr, 0 ≤ n) : Part arr arr :=
  forall₂_same.2 fun n hn ↦ ⟨h n hn, le_rfl⟩

theorem Coins.part_filter (h : Coins ts arr) (p : CoinType → Bool) :
    Part (ts.zipWith (fun t n ↦ if p t then n else 0) arr) arr := by
  induction ts generalizing arr with
  | nil =>
    obtain rfl := length_eq_zero_iff.1 h.length_eq
    exact .nil
  | cons t ts ih =>
    match arr, h with
    | n :: arr, h =>
      refine .cons ?_ (ih h.tail)
      dsimp only
      split
      next => exact ⟨h.head, le_rfl⟩
      next => exact ⟨le_rfl, h.head⟩

theorem Coins.part_wantToPay (h : Coins ts arr) (str : Option Names) :
    Part (wantToPay ts arr str) arr := by
  cases str with
  | none => exact Part.refl h.nonneg
  | some names => exact h.part_filter _

theorem Coins.of_part (h : Coins ts arr) (hpart : Part arr' arr) : Coins ts arr' :=
  hpart.coins h.length_eq

theorem Part.set (h : ∀ n ∈ arr, 0 ≤ n) (hm : 0 ≤ m) (hle : m ≤ arr.getD i 0) :
    Part (arr.set i m) arr := by
  induction arr generalizing i with
  | nil => exact .nil
  | cons n arr ih =>
    rw [forall_mem_cons] at h
    cases i with
    | zero => exact .cons ⟨hm, hle⟩ (Part.refl h.2)
    | succ i => exact .cons ⟨h.1, le_rfl⟩ (ih h.2 hle)

theorem Part.drop (h : ∀ n ∈ arr, 0 ≤ n) (hi : i ≤ arr.length) :
    Part (List.replicate i 0 ++ arr.drop i) arr := by
  induction arr generalizing i with
  | nil =>
    obtain rfl := Nat.le_zero.1 hi
    exact .nil
  | cons n arr ih =>
    rw [forall_mem_cons] at h
    cases i with
    | zero => exact Part.refl (forall_mem_cons.2 h)
    | succ i => exact .cons ⟨le_rfl, h.1⟩ (ih h.2 (Nat.le_of_succ_le_succ hi))

theorem Coins.getD_mul_le (h : Coins ts arr) (ht : ts[i]? = some t) :
    0 ≤ arr.getD i 0 ∧ arr.getD i 0 * t.value ≤ worth ts arr := by
  induction ts generalizing arr i with
  | nil => cases ht
  | cons t' ts ih =>
    match arr, h with
    | n :: arr, h =>
      have hn := Int.mul_nonneg h.head t'.value_pos.le
      have hrest := worth_nonneg h.tail.nonneg ts
      rw [worth_cons]
      cases i with
      | zero =>
        obtain rfl := some.inj ht
        exact ⟨h.head, Int.le_add_of_nonneg_right hrest⟩
      | succ i =>
        obtain ⟨hnonneg, hle⟩ := ih h.tail ht
        exact ⟨hnonneg, hle.trans (Int.le_add_of_nonneg_left hn)⟩

/-! ### How much is exchanged -/

theorem length_changeLoop (ts : List CoinType) {caps : List ℤ} (h : caps.length = ts.length)
    (v : ℤ) : (changeLoop ts caps v).1.length = ts.length := by
  induction ts generalizing caps with
  | nil =>
    obtain rfl := length_eq_zero_iff.1 h
    rfl
  | cons t ts ih =>
    match caps, h with
    | cap :: caps, h =>
      have hlen := ih (Nat.succ.inj h)
      rw [changeLoop]
      generalize changeLoop ts caps v = rest at hlen ⊢
      obtain ⟨cArr, newPrice⟩ := rest
      dsimp only at hlen ⊢
      split
      · split <;> split <;> exact congrArg (· + 1) hlen
      · exact congrArg (· + 1) hlen

theorem length_calcChangeStr (names : Names) (ts : List CoinType) :
    (calcChangeStr names ts).length = ts.length := by
  induction ts with
  | nil => rfl
  | cons t ts ih => exact congrArg (· + 1) ih

theorem length_caps (ts : List CoinType) (str : Option Names) :
    (caps ts str).length = ts.length := by
  cases str with
  | none => exact length_map _
  | some names => exact length_calcChangeStr names ts

variable {str : Option Names}

theorem coins_noCoins (ts : List CoinType) : Coins ts (ts.map fun _ ↦ 0) :=
  ⟨length_map _, fun n hn ↦ by
    obtain ⟨t, -, rfl⟩ := mem_map.1 hn
    exact le_rfl⟩

theorem Bank.coins_changeOf (hT : Bank T) (hlt : v < 2 ^ 31) :
    Coins T.types (changeOf T o v str) := by
  rw [changeOf]
  generalize hnew : (if maxChange T o ≤ v then
    min v ((int ((9 + o.random) * maxChange T o)).tdiv 10) else v) = newPrice
  have hle : newPrice ≤ v := by
    rw [← hnew]
    split
    · exact min_le_left _ _
    · exact le_rfl
  split
  next => exact coins_noCoins T.types
  next hpos =>
    obtain ⟨-, -, hnonneg⟩ := changeLoop_spec hT.giveReduce_nonneg (caps T.types str)
      (not_le.1 hpos).le (hle.trans_lt hlt)
    exact ⟨length_changeLoop T.types (length_caps T.types str) newPrice, hnonneg⟩

/-- The cap on what is given is not less than one copper, if it matters. -/
def Allows (T : Trader) (o : Occasion) (v : ℤ) : Prop :=
  maxChange T o ≤ v → 1 ≤ (int ((9 + o.random) * maxChange T o)).tdiv 10

theorem Bank.worth_changeOf (hT : Bank T) (hlt : v < 2 ^ 31)
    (hpos : 0 < worth T.types (changeOf T o v str)) :
    worth T.types (changeOf T o v str) ≤ v ∧ Allows T o v := by
  have hv : 0 < v := by
    by_contra hv
    rw [changeOf_of_nonpos (not_lt.1 hv), worth_noCoins] at hpos
    exact lt_irrefl 0 hpos
  refine ⟨worth_changeOf_le hT.giveReduce_nonneg hv.le hlt, fun hmax ↦ ?_⟩
  by_contra hcap
  rw [changeOf, if_pos hmax] at hpos
  rw [if_pos ((min_le_right _ _).trans (by omega)), worth_noCoins] at hpos
  exact lt_irrefl 0 hpos

theorem Bank.changeOf_pos (hT : Bank T) (hv : 1 ≤ v) (hlt : v < 2 ^ 31) (hallows : Allows T o v)
    {names : Names} (hnames : T.types.any (·.named names) = true) :
    0 < worth T.types (changeOf T o v (some names)) := by
  obtain ⟨t, ts, htypes, hvalue, hzero, hgive⟩ := hT.copper
  have hreduce := hT.giveReduce_nonneg
  rw [htypes, forall_mem_cons] at hreduce
  rw [changeOf]
  generalize hnew : (if maxChange T o ≤ v then
    min v ((int ((9 + o.random) * maxChange T o)).tdiv 10) else v) = newPrice
  have hnew_pos : 1 ≤ newPrice ∧ newPrice ≤ v := by
    rw [← hnew]
    split
    next hmax => exact ⟨le_min hv (hallows hmax), min_le_left _ _⟩
    next => exact ⟨hv, le_rfl⟩
  obtain ⟨hsum, hleft, hnonneg⟩ := changeLoop_spec hreduce.2 (calcChangeStr names ts)
    (v := newPrice) (by omega) (by omega)
  rw [htypes] at hnames
  rw [if_neg (by omega), caps, elim_some, htypes, calcChangeStr, if_pos hnames, changeLoop]
  generalize changeLoop ts (calcChangeStr names ts) newPrice = rest at hsum hleft hnonneg ⊢
  obtain ⟨cArr, left⟩ := rest
  dsimp only at hsum hleft hnonneg ⊢
  have hworth := worth_nonneg hnonneg ts
  rw [hvalue, hzero, Int.tdiv_one, Int.sub_zero]
  split
  next hcond =>
    rw [int_eq (by omega) (by omega)]
    have hsum_pos : 0 < (if left > t.giveOut then t.giveOut else left) := by
      split <;> omega
    rw [if_pos hsum_pos, worth_cons, hvalue]
    omega
  next hcond =>
    -- there is nothing left for the coppers, so it has been given in dearer coins
    rw [worth_cons]
    have hnone : left < 1 := by
      by_contra hone
      exact hcond ⟨not_lt.1 hone, hgive.ne'⟩
    omega

/-- What some coins come to, less the fee. -/
def share (T : Trader) (v : ℤ) : ℤ :=
  (int (v * 100)).tdiv T.greedChange

theorem Bank.share_cases (hT : Bank T) (v : ℤ) :
    (0 ≤ int (v * 100) ∧ share T v = int (v * 100) / T.greedChange) ∨ share T v ≤ 0 := by
  have hgreed := hT.le_greedChange
  rw [share]
  obtain hnonneg | hneg := le_or_gt 0 (int (v * 100))
  · exact .inl ⟨hnonneg, Int.tdiv_eq_ediv_of_nonneg hnonneg⟩
  · refine .inr ?_
    rw [← Int.neg_neg (int (v * 100)), Int.neg_tdiv]
    exact Int.neg_nonpos_of_nonneg (Int.tdiv_nonneg (by omega) (by omega))

theorem Bank.share_lt (hT : Bank T) (v : ℤ) : share T v < 2 ^ 31 := by
  obtain ⟨hnonneg, hshare⟩ | hneg := hT.share_cases v
  · rw [hshare]
    exact (Int.ediv_le_self _ hnonneg).trans_lt (int_lt _)
  · exact hneg.trans_lt (by decide)

theorem Bank.share_spec (hT : Bank T) (hv : 0 ≤ v) (hle : price ≤ share T v) (hpos : 1 ≤ price) :
    price * T.greedBuy ≤ v * 100 ∧ price * T.greedBuy < 2 ^ 31 := by
  have hgreed := hT.le_greedChange
  have hint : int (v * 100) ≤ v * 100 := int_le (by omega)
  have hint_lt : int (v * 100) < 2 ^ 31 := int_lt _
  obtain ⟨hnonneg, hshare⟩ | hneg := hT.share_cases v
  · rw [hshare] at hle
    have hmul : price * T.greedBuy ≤ int (v * 100) := by
      rw [hT.greedBuy]
      exact (Int.le_ediv_iff_mul_le (by omega)).1 hle
    omega
  · omega

theorem Part.limitChange (h : ∀ n ∈ arr, 0 ≤ n) {number : Option ℤ}
    (hsome : limitChange i number arr = some arr') : Part arr' arr := by
  cases number with
  | none =>
    obtain rfl := some.inj hsome
    exact Part.refl h
  | some number =>
    rw [Trade.limitChange] at hsome
    split at hsome
    next => cases hsome
    next hnumber =>
      rw [not_or, not_lt, not_le] at hnumber
      obtain rfl := some.inj hsome
      exact Part.set h hnumber.2.le hnumber.1

theorem Bank.part_limitGive (hT : Bank T) (harr : Coins T.types arr) (ht : T.types[i]? = some t)
    (hlt : worth T.types arr * T.greedBuy < 2 ^ 31) : Part (limitGive T i t arr) arr := by
  have hgreed := hT.greedBuy ▸ hT.le_greedChange
  have hmax := hT.giveMax_nonneg
  have hvalue := t.value_pos
  obtain ⟨hnonneg, hle⟩ := harr.getD_mul_le ht
  have hmul := Int.mul_nonneg hnonneg hvalue.le
  have hgreed_mul : arr.getD i 0 * t.value * T.greedBuy ≤ worth T.types arr * T.greedBuy :=
    Int.mul_le_mul_of_nonneg_right hle (by omega)
  have hself : arr.getD i 0 * t.value ≤ arr.getD i 0 * t.value * T.greedBuy :=
    le_mul_of_one_le_right hmul (by omega)
  rw [limitGive, int_eq (z := arr.getD i 0 * t.value) (by omega) (by omega),
    int_eq (by omega) (by omega), int_eq (by omega) hT.giveMax_lt]
  split
  next hgt =>
    rw [Int.tdiv_eq_ediv_of_nonneg (by omega)] at hgt
    have hgive : T.giveMax * 100 ≤ arr.getD i 0 * t.value * T.greedBuy := by omega
    have hmax' : 0 ≤ T.giveMax * 100 / T.greedBuy := Int.ediv_nonneg (by omega) (by omega)
    rw [Int.tdiv_eq_ediv_of_nonneg (show 0 ≤ T.giveMax * 100 by omega),
      Int.tdiv_eq_ediv_of_nonneg hmax']
    refine Part.set harr.nonneg ?_ ?_
    · exact Int.ediv_nonneg hmax' hvalue.le
    · refine Int.ediv_le_of_le_mul hvalue (Int.ediv_le_of_le_mul (by omega) hgive)
  next => exact Part.refl harr.nonneg

/-- The coins of a payment: those that someone has, wants to pay with and the trader accepts. -/
def accepted (T : Trader) (ob : Obj) (str : Option Names) (ks : List Kind) : List ℤ :=
  weAccept T.types (wantToPay T.types (whatCoins ob ks) str)

variable {d : Deal} {test : Bool} {str2 : Option Names}

theorem part_accepted {ob : Obj} (h : Coins T.types (whatCoins ob ks)) (str : Option Names) :
    Part (accepted T ob str ks) (whatCoins ob ks) :=
  (Coins.part_filter (h.of_part (h.part_wantToPay str)) _).trans (h.part_wantToPay str)

theorem Coins.accepted {ob : Obj} (h : Coins T.types (whatCoins ob ks)) (str : Option Names) :
    Coins T.types (accepted T ob str ks) :=
  h.of_part (part_accepted h str)

theorem pay_eq (h : Coins T.types (whatCoins d.payer ks))
    (hlt : worth T.types (whatCoins d.payer ks) < 2 ^ 31)
    (hprice : (int (price * T.greedBuy)).tdiv 100 ≤ worth T.types (accepted T d.payer str ks)) :
    pay T o d price str test str2 ks =
      if (int (price * T.greedBuy)).tdiv 100 = 0 ∧ test then
        (calcChange T o ((int (price * T.greedBuy)).tdiv 100)
          (some (accepted T d.payer str ks)) str2).map fun change ↦
            (ks, .paid (accepted T d.payer str ks ++ change) none)
      else
        (calcCoins T o ((int (price * T.greedBuy)).tdiv 100)
          (accepted T d.payer str ks) str2).map fun arr ↦
            if test then (ks, .paid arr none)
            else ((d.changeMoney arr ks).1, .paid arr (some (d.changeMoney arr ks).2)) := by
  have hwanted := h.of_part (h.part_wantToPay str)
  have haccepted := Coins.part_filter hwanted CoinType.accept
  have hle := (h.part_wantToPay str).worth_le T.types
  have hle' : worth T.types (accepted T d.payer str ks) ≤ _ := haccepted.worth_le T.types
  have hmerge := moneyMerge_eq hwanted (by omega)
  have hmerge' := moneyMerge_eq (h.accepted str) (by omega)
  rw [accepted] at hmerge' hprice hle'
  rw [pay]
  dsimp only
  rw [hmerge, hmerge', if_neg (not_not_intro (hprice.trans hle')), if_neg (not_not_intro hprice)]
  rfl

theorem pay_test (hT : Bank T) (h : Coins T.types (whatCoins d.payer ks))
    (hlt : worth T.types (whatCoins d.payer ks) < 2 ^ 31) :
    pay T o d 0 str true str2 ks =
      some (ks, .paid (accepted T d.payer str ks ++
        changeOf T o (share T (worth T.types (accepted T d.payer str ks))) str2) none) := by
  have hgreed := hT.le_greedChange
  have hcoins := h.accepted str
  have hle := (part_accepted h str).worth_le T.types
  have hzero : (int (0 * T.greedBuy)).tdiv 100 = 0 := by
    rw [Int.zero_mul]
    rfl
  rw [pay_eq h hlt (hzero.trans_le (worth_nonneg hcoins.nonneg T.types)), hzero,
    if_pos ⟨rfl, rfl⟩,
    calcChange_eq hcoins (by omega) le_rfl (by decide), if_neg (by omega), Int.sub_zero]
  rfl

theorem limitHold_spec (hT : Bank T) (harr : Coins T.types arr) (hlt : worth T.types arr < 2 ^ 31)
    {into : Names} {number : Option ℤ} {p : List ℤ × List ℤ}
    (hsome : limitHold T o' into i number arr
      (changeOf T o (share T (worth T.types arr)) (asked into)) = some p)
    (hpos : 0 < p.1.getD i 0) :
    Part p.1 arr ∧ ∃ o₀, (o₀ = o ∨ o₀ = o') ∧
      p.2 = changeOf T o₀ (share T (worth T.types p.1)) (asked into) := by
  have hgreed := hT.le_greedChange
  cases number with
  | none =>
    obtain rfl := some.inj hsome
    exact ⟨Part.refl harr.nonneg, o, .inl rfl, rfl⟩
  | some number =>
    rw [limitHold] at hsome
    split at hsome
    next => cases hsome
    next hnumber =>
      obtain ⟨change, hchange, rfl⟩ := map_eq_some_iff.1 hsome
      have hnumber_pos : 0 ≤ number := by
        by_contra hneg
        have hset : (arr.set i number).getD i 0 ≤ 0 := by
          rw [getD_eq_getElem?_getD, List.getElem?_set_self']
          cases arr[i]? with
          | none => exact le_rfl
          | some n => exact (not_le.1 hneg).le
        exact absurd hpos (not_lt.2 hset)
      have hpart := Part.set harr.nonneg hnumber_pos (not_lt.1 hnumber)
      have hworth := hpart.worth_le T.types
      rw [calcChange_eq (harr.of_part hpart) (by omega) le_rfl (by decide), if_neg (by omega),
        Int.sub_zero] at hchange
      exact ⟨hpart, o', .inr rfl, (some.inj hchange).symm⟩

/-- What is known of the price that an exchange comes to: the player has it with the fee, one of the
types is named that are wanted, and what may be given at once is not less than one copper. -/
structure Priced (T : Trader) (o o' : Occasion) (into : Names) (held price : ℤ) : Prop where
  pos : 1 ≤ price
  le : price * T.greedBuy ≤ held * 100
  lt : price * T.greedBuy < 2 ^ 31
  named : T.types.any (·.named into) = true
  allows : ∃ o₀, (o₀ = o ∨ o₀ = o') ∧ Allows T o₀ price

theorem exchangePrice_spec (hT : Bank T) (h : Coins T.types (whatCoins d.payer ks))
    (hlt : worth T.types (whatCoins d.payer ks) < 2 ^ 31)
    (hsome : exchangePrice T o o' d r ks = some price) :
    Priced T o o' r.into (worth T.types (accepted T d.payer (asked r.what) ks)) price := by
  have hcoins := h.accepted (asked r.what)
  have hworth := (part_accepted h (asked r.what)).worth_le T.types
  rw [exchangePrice, pay_test hT h hlt] at hsome
  dsimp only at hsome
  rw [← hcoins.length_eq, take_left, drop_left] at hsome
  obtain ⟨i, -, hsome⟩ := bind_eq_some_iff.1 hsome
  obtain ⟨⟨holdArr, changeArr⟩, hhold, hsome⟩ := bind_eq_some_iff.1 hsome
  dsimp only at hsome
  split at hsome
  next => cases hsome
  next hpos =>
    obtain ⟨hpart, o₀, ho₀, hchange⟩ := limitHold_spec hT hcoins (by omega) hhold (not_le.1 hpos)
    dsimp only at hpart hchange
    obtain ⟨j, hj, hsome⟩ := bind_eq_some_iff.1 hsome
    obtain ⟨t, ht, hsome⟩ := bind_eq_some_iff.1 hsome
    obtain ⟨changeArr', hlimit, hsome⟩ := bind_eq_some_iff.1 hsome
    have hhold_nonneg := worth_nonneg (hcoins.of_part hpart).nonneg T.types
    have hhold_le := hpart.worth_le T.types
    have hcoins₁ : Coins T.types changeArr := hchange ▸ hT.coins_changeOf (hT.share_lt _)
    have hmost : 1 ≤ worth T.types changeArr →
        worth T.types changeArr ≤ share T (worth T.types holdArr) ∧
          Allows T o₀ (share T (worth T.types holdArr)) :=
      fun h1 ↦ hchange ▸ hT.worth_changeOf (hT.share_lt _) (hchange ▸ h1)
    have hshare := fun h1 ↦ hT.share_spec hhold_nonneg (hmost h1).1 h1
    have hpart₂ := Part.limitChange hcoins₁.nonneg hlimit
    have hcoins₂ := hcoins₁.of_part hpart₂
    have hworth₂ := hpart₂.worth_le T.types
    have hlt₂ : worth T.types changeArr' * T.greedBuy < 2 ^ 31 := by
      have hgreed := hT.greedBuy ▸ hT.le_greedChange
      obtain hpos₁ | hzero := lt_or_ge 0 (worth T.types changeArr)
      · exact (Int.mul_le_mul_of_nonneg_right hworth₂ (by omega)).trans_lt (hshare hpos₁).2
      · exact (mul_nonpos_of_nonpos_of_nonneg (hworth₂.trans hzero) (by omega)).trans_lt (by decide)
    have hpart₃ := hT.part_limitGive hcoins₂ ht hlt₂
    have hcoins₃ := hcoins₂.of_part hpart₃
    have hj_le : j ≤ (limitGive T j t changeArr').length :=
      hcoins₃.length_eq ▸ (List.getElem?_eq_some_iff.1 ht).1.le
    have hpart₄ := Part.drop hcoins₃.nonneg hj_le
    have hworth₄ := (hpart₄.worth_le T.types).trans (hpart₃.worth_le T.types)
    have hsmall : worth T.types changeArr < 2 ^ 31 := by
      obtain hpos₁ | hzero := lt_or_ge 0 (worth T.types changeArr)
      · exact (hmost hpos₁).1.trans_lt (hT.share_lt _)
      · omega
    rw [moneyMerge_eq (hcoins₃.of_part hpart₄) (by omega)] at hsome
    split at hsome
    next => cases hsome
    next hprice =>
      obtain rfl := some.inj hsome
      have hpos₁ : 1 ≤ worth T.types changeArr := by omega
      obtain ⟨hle₁, hallows⟩ := hmost hpos₁
      obtain ⟨hmul, hmul_lt⟩ := hT.share_spec hhold_nonneg
        ((hworth₄.trans hworth₂).trans hle₁) (not_lt.1 hprice)
      refine ⟨not_lt.1 hprice, by omega, hmul_lt, ?_, o₀, ho₀, fun hmax ↦ hallows (by omega)⟩
      obtain ⟨hj', hnamed⟩ := List.findIdx?_eq_some_iff_getElem.1 hj
      exact any_eq_true.2 ⟨_, getElem_mem hj', hnamed.1⟩

/-! ### What is paid is destroyed -/

section Moves

variable {k : Kind} {ob : Obj} {num moveError : ℤ} {w : Outcome}

theorem Kind.AtRest.numHeap (h : k.AtRest) (ob : Obj) :
    (k.piles ob).elim 0 Pile.numHeap = k.count ob := by
  rw [Kind.count]
  cases hp : k.piles ob with
  | none => rfl
  | some p => exact (h ob p hp).numHeap

theorem whatCoins_eq (h : ∀ k ∈ ks, k.AtRest) (ob : Obj) :
    whatCoins ob ks = ks.map (·.count ob) :=
  map_congr_left fun k hk ↦ (h k hk).numHeap ob

theorem moneyMove_false (hcoins : w.coins = false) (num : ℤ) (src : Obj) (target : Option Obj)
    (k : Kind) : moneyMove num (some src) target w k = (k, -1) := by
  rw [moneyMove]
  split
  next => rfl
  next =>
    dsimp only
    split
    next => rfl
    next => rw [if_pos (.inl hcoins)]

theorem moneyMove_destroys (hk : k.AtRest) (hpos : 0 < num) (hle : num ≤ k.count ob)
    (hcoins : w.coins = true) :
    ∃ k', moneyMove num (some ob) none w k = (k', 0) ∧ k'.AtRest ∧
      k'.count ob = k.count ob - num := by
  rw [moneyMove, if_neg (not_le.2 hpos)]
  dsimp only
  rw [Kind.count] at hle ⊢
  cases hp : k.piles ob with
  | none =>
    rw [hp] at hle
    exact absurd hle (not_le.2 hpos)
  | some cf =>
    have hcf := hk ob cf hp
    rw [hp] at hle
    have hle : num ≤ cf.itemCount := hle
    have hcf_pos := hcf.pos
    dsimp only
    rw [hcf.numHeap, hcoins, if_neg (by
      rw [not_or, not_or, not_lt]
      exact ⟨(by rintro ⟨⟩), hcf_pos.ne', hle⟩)]
    have hrest : (∀ q, (if num < cf.itemCount then some (cf.setHeapSize (cf.itemCount - num))
          else cf.left) = some q → q.Whole) ∧
        (if num < cf.itemCount then some (cf.setHeapSize (cf.itemCount - num))
          else cf.left).elim 0 Pile.itemCount = cf.itemCount - num := by
      split
      next hlt =>
        rw [Pile.setHeapSize, if_neg (by omega)]
        refine ⟨fun q hq ↦ ?_, rfl⟩
        obtain rfl := some.inj hq
        exact ⟨Int.sub_pos.2 hlt, hcf.leaveBehind⟩
      next hge =>
        rw [Pile.left, if_pos (.inl hcf.leaveBehind)]
        exact ⟨by rintro _ ⟨⟩, by show 0 = _; omega⟩
    generalize (if num < cf.itemCount then some (cf.setHeapSize (cf.itemCount - num))
      else cf.left) = rest at hrest
    refine ⟨_, rfl, (hk.ready ob num).set_src hrest.1, ?_⟩
    show ((k.set ob rest).piles ob).elim 0 Pile.itemCount = _
    rw [piles_set, if_pos rfl, hrest.2]
    rfl

variable {moves : Attempt → Option ℤ × ℕ}

variable (moves) in
theorem payOne_genuine (hk : k.AtRest) (hnum : 0 ≤ num ∧ num ≤ k.count c.player)
    (hcoins : num ≠ 0 → c.genuine i = true) :
    ∃ k', (c.deal moves).payOne i num k = (k', 0) ∧ k'.AtRest ∧
      k'.count c.player = k.count c.player - num := by
  rw [Deal.payOne]
  split
  next hzero => exact ⟨k, rfl, hk, by rw [hzero, Int.sub_zero]⟩
  next hne =>
    obtain ⟨k', hmove, hk', hcount⟩ := moneyMove_destroys (w := (c.deal moves).outcome (.pay i)) hk
      (hnum.1.lt_of_ne' hne) hnum.2 (hcoins hne)
    have hmove : moneyMove num (some (c.deal moves).payer) (c.deal moves).receiver
      ((c.deal moves).outcome (.pay i)) k = (k', 0) := hmove
    rw [hmove]
    exact ⟨k', rfl, hk', hcount⟩

variable (moves) in
theorem payOne_false (hne : num ≠ 0) (hcoins : c.genuine i = false) (k : Kind) :
    (c.deal moves).payOne i num k = (k, -1) := by
  have hfirst := moneyMove_false (w := (c.deal moves).outcome (.pay i)) hcoins num c.player none k
  have hsecond :=
    moneyMove_false (w := (c.deal moves).outcome (.payExtra i)) hcoins num c.player none k
  have hfirst : moneyMove num (some (c.deal moves).payer) (c.deal moves).receiver
    ((c.deal moves).outcome (.pay i)) k = (k, -1) := hfirst
  rw [Deal.payOne, if_neg hne, hfirst]
  exact hsecond

variable (moves) in
theorem payLoop_genuine (hks : ∀ k ∈ ks, k.AtRest)
    (harr : Part arr (ks.map (·.count c.player)))
    (hcoins : ∀ j n, arr[j]? = some n → n ≠ 0 → c.genuine (i + j) = true) :
    ∃ ks', (c.deal moves).payLoop i arr ks = (ks', none) ∧ ks'.length = ks.length ∧
      (∀ k ∈ ks', k.AtRest) ∧
      ∀ ts, purse ts c.player ks' = purse ts c.player ks - worth ts arr := by
  induction ks generalizing i arr with
  | nil =>
    cases harr
    refine ⟨[], rfl, rfl, forall_mem_nil _, fun ts ↦ ?_⟩
    rw [worth_nil_right, Int.sub_zero]
  | cons k ks ih =>
    rw [forall_mem_cons] at hks
    cases harr with
    | @cons num _ arr _ hnum hrest =>
      obtain ⟨k', hpay, hk', hcount⟩ := payOne_genuine moves (i := i) hks.1 hnum
        (hcoins 0 num rfl)
      obtain ⟨ks', hloop, hlen, hks', hpurse⟩ := ih (i := i + 1) hks.2 hrest fun j n hn ↦ by
        rw [Nat.add_right_comm, Nat.add_assoc]
        exact hcoins (j + 1) n hn
      refine ⟨k' :: ks', ?_, congrArg (· + 1) hlen, forall_mem_cons.2 ⟨hk', hks'⟩,
        fun ts ↦ ?_⟩
      · rw [Deal.payLoop, hpay]
        dsimp only
        rw [if_neg (not_not_intro rfl), hloop]
      · cases ts with
        | nil => rw [purse, worth_nil, purse, worth_nil, worth_nil, Int.sub_zero]
        | cons t ts =>
          have hts := hpurse ts
          rw [purse, purse] at hts ⊢
          rw [map_cons, map_cons, worth_cons, worth_cons, worth_cons, hts, hcount,
            Int.sub_mul]
          omega

variable (moves) in
theorem payLoop_false (hks : ∀ k ∈ ks, k.AtRest) (harr : Part arr (ks.map (·.count c.player)))
    {j : ℕ} {n : ℤ} (hj : arr[j]? = some n) (hn : n ≠ 0) (hcoins : c.genuine (i + j) = false) :
    ∃ ks', (c.deal moves).payLoop i arr ks = (ks', some (-10)) ∧ ks'.length = ks.length := by
  induction ks generalizing i arr j with
  | nil =>
    cases harr
    cases hj
  | cons k ks ih =>
    rw [forall_mem_cons] at hks
    cases harr with
    | @cons num _ arr _ hnum hrest =>
      rw [Deal.payLoop]
      by_cases hgenuine : num ≠ 0 → c.genuine i = true
      · obtain ⟨k', hpay, -⟩ := payOne_genuine moves hks.1 hnum hgenuine
        cases j with
        | zero =>
          obtain rfl := some.inj hj
          cases (hgenuine hn).symm.trans hcoins
        | succ j =>
          rw [Nat.add_comm j 1, ← Nat.add_assoc] at hcoins
          obtain ⟨ks', hloop, hlen⟩ := ih hks.2 hrest hj hcoins
          refine ⟨k' :: ks', ?_, congrArg (· + 1) hlen⟩
          rw [hpay]
          dsimp only
          rw [if_neg (not_not_intro rfl), hloop]
      · obtain ⟨hne, hfalse⟩ := Classical.not_imp.1 hgenuine
        rw [payOne_false moves hne (Bool.eq_false_iff.2 hfalse)]
        exact ⟨k :: ks, rfl, rfl⟩

/-! ### What is given is made -/

/-- A heap of coins, of which some may be about to be left behind. -/
structure Pile.Loose (p : Pile) : Prop where
  nonneg : 0 ≤ p.itemCount
  leaveBehind_nonneg : 0 ≤ p.leaveBehind
  leaveBehind_lt : p.leaveBehind < 2 ^ 31

/-- The coins of the player, after some have been given, of which not all have found place. -/
def Loose (ob : Obj) (k : Kind) : Prop :=
  ∀ p, k.piles ob = some p → p.Loose

theorem loose_new (hnum : 0 < num) (hlt : num < 2 ^ 31) (part : Option ℤ) :
    (Pile.splitBy ⟨num, 0⟩ part).Loose ∧ (Pile.splitBy ⟨num, 0⟩ part).itemCount = num := by
  have hzero : (0 : ℤ) < 2 ^ 31 := by decide
  cases part with
  | none => exact ⟨⟨hnum.le, le_rfl, hzero⟩, rfl⟩
  | some n =>
    rw [Pile.splitBy]
    split
    next hn =>
      have hn_lt : n < num := hn.2.trans_eq (Int.sub_zero num)
      rw [Pile.splitHeap, if_neg (not_le.2 hn_lt)]
      refine ⟨⟨hnum.le, ?_, ?_⟩, rfl⟩
      · show 0 ≤ num - n
        omega
      · show num - n < 2 ^ 31
        omega
    next => exact ⟨⟨hnum.le, le_rfl, hzero⟩, rfl⟩

theorem Loose.enter (h : Loose ob k) {p : Pile} (hp : p.Loose) :
    Loose ob (k.enter ob p) ∧ (k.enter ob p).count ob ≤ k.count ob + p.itemCount := by
  show _ ∧ (k.enter ob p).count ob ≤ (k.piles ob).elim 0 Pile.itemCount + p.itemCount
  rw [Kind.enter]
  cases ht : k.piles ob with
  | none =>
    refine ⟨fun q hq ↦ ?_, ?_⟩
    · have hq : (k.set ob (some p)).piles ob = some q := hq
      rw [piles_set, if_pos rfl] at hq
      exact some.inj hq ▸ hp
    · show (k.set ob (some p)).count ob ≤ 0 + p.itemCount
      rw [count_set, if_pos rfl, Int.zero_add]
      exact le_rfl
  | some t =>
    obtain ⟨hcount, hleave, hleave_lt⟩ := h t ht
    have hpos := hp.nonneg
    have hint : int (p.itemCount + t.numHeap) ≤ p.itemCount + t.numHeap := by
      refine int_le ?_
      rw [Pile.numHeap]
      omega
    rw [Pile.numHeap] at hint
    dsimp only
    refine ⟨fun q hq ↦ ?_, ?_⟩
    · rw [piles_set, if_pos rfl] at hq
      obtain rfl := some.inj hq
      refine ⟨?_, hleave, hleave_lt⟩
      rw [Pile.setHeapSize]
      dsimp only
      split <;> omega
    · rw [count_set, if_pos rfl, elim_some, elim_some, Pile.setHeapSize, Pile.numHeap]
      dsimp only
      split <;> omega

theorem moneyMove_makes (ob : Obj) (hnum : 0 < num) (w : Outcome) (k : Kind) :
    (∃ e : ℕ, moneyMove num none (some ob) w k = (k, (e : ℤ))) ∨
      ∃ p : Pile, moneyMove num none (some ob) w k =
          ({ k.enter ob p with made := k.made + num }, 0) ∧
        p = Pile.splitBy ⟨num, 0⟩ w.part := by
  rw [moneyMove, if_neg (not_le.2 hnum)]
  dsimp only
  split
  next => exact .inl ⟨w.error, rfl⟩
  next => exact .inr ⟨_, rfl, rfl⟩

theorem enter_of_ne {o ob : Obj} (hne : o ≠ ob) (p : Pile) (k : Kind) :
    (k.enter ob p).piles o = k.piles o := by
  rw [Kind.enter]
  split
  next => rw [piles_set, if_neg hne]
  next => rw [piles_set, if_neg hne]

variable (moves) in
theorem giveOne_makes (hroom : c.room ≠ some c.player) (hk : Loose c.player k) (hnum : 0 ≤ num)
    (hlt : num < 2 ^ 31) (hmove : 0 ≤ moveError) :
    ∃ k' e, (c.deal moves).giveOne i num moveError k = (k', e) ∧ 0 ≤ e ∧ Loose c.player k' ∧
      k'.count c.player ≤ k.count c.player + num := by
  rw [Deal.giveOne]
  split
  next hzero => exact ⟨k, moveError, rfl, hmove, hk, by omega⟩
  next hne =>
    have hpos := hnum.lt_of_ne' hne
    obtain ⟨e, hfirst⟩ | ⟨p, hfirst, hp⟩ :=
      moneyMove_makes c.player hpos ((c.deal moves).outcome (.change i)) k
    · have hfirst : moneyMove num (c.deal moves).receiver (some (c.deal moves).payer)
        ((c.deal moves).outcome (.change i)) k = (k, (e : ℤ)) := hfirst
      rw [hfirst]
      dsimp only
      split
      next => exact ⟨k, moveError, rfl, hmove, hk, by omega⟩
      next =>
        have hcode : (0 : ℤ) ≤ if moveError = 0 then (e : ℤ) else moveError := by split <;> omega
        have hsecond : ∃ k' : Kind, ∃ e' : ℕ, moneyMove num (c.deal moves).receiver
            (c.deal moves).floor ((c.deal moves).outcome (.drop i)) k = (k', (e' : ℤ)) ∧
            k'.piles c.player = k.piles c.player := by
          show ∃ k' : Kind, ∃ e' : ℕ, moneyMove num none c.room
            ((c.deal moves).outcome (.drop i)) k = (k', (e' : ℤ)) ∧ _
          cases hfloor : c.room with
          | none => exact ⟨k, 0, if_neg (not_le.2 hpos), rfl⟩
          | some ob =>
            obtain ⟨e', hdrop⟩ | ⟨p, hdrop, -⟩ :=
              moneyMove_makes ob hpos ((c.deal moves).outcome (.drop i)) k
            · exact ⟨k, e', hdrop, rfl⟩
            · exact ⟨_, 0, hdrop, enter_of_ne (fun heq : c.player = ob ↦ hroom (heq ▸ hfloor)) p k⟩
        obtain ⟨k', e', hdrop, hpiles⟩ := hsecond
        rw [hdrop]
        dsimp only
        rw [if_neg (not_lt.2 (Int.natCast_nonneg e'))]
        refine ⟨k', _, rfl, hcode, fun q hq ↦ hk q (hpiles ▸ hq), ?_⟩
        rw [Kind.count, hpiles]
        exact Int.le_add_of_nonneg_right hnum
    · have hfirst : moneyMove num (c.deal moves).receiver (some (c.deal moves).payer)
        ((c.deal moves).outcome (.change i)) k =
          ({ k.enter c.player p with made := k.made + num }, 0) := hfirst
      obtain ⟨hloose, hcount⟩ := loose_new hpos hlt ((c.deal moves).outcome (.change i)).part
      rw [← hp] at hloose hcount
      rw [hfirst]
      obtain ⟨hentered, hle⟩ := hk.enter hloose
      rw [hcount] at hle
      exact ⟨_, moveError, rfl, hmove, hentered, hle⟩

variable (moves) in
theorem giveLoop_makes (hroom : c.room ≠ some c.player) (hks : ∀ k ∈ ks, Loose c.player k)
    (hlen : arr.length = ks.length) (harr : ∀ n ∈ arr, 0 ≤ n ∧ n < 2 ^ 31)
    (hmove : 0 ≤ moveError) :
    ∃ ks' e, (c.deal moves).giveLoop i arr moveError ks = (ks', e) ∧ 0 ≤ e ∧
      ks'.length = ks.length ∧ (∀ k ∈ ks', Loose c.player k) ∧
      ∀ ts, purse ts c.player ks' ≤ purse ts c.player ks + worth ts arr := by
  induction ks generalizing i arr moveError with
  | nil =>
    obtain rfl := length_eq_zero_iff.1 hlen
    exact ⟨[], moveError, rfl, hmove, rfl, hks, fun ts ↦ by
      rw [worth_nil_right, Int.add_zero]⟩
  | cons k ks ih =>
    match arr, hlen with
    | num :: arr, hlen =>
      rw [forall_mem_cons] at hks harr
      obtain ⟨k', e, hone, he, hk', hcount⟩ :=
        giveOne_makes moves (i := i) hroom hks.1 harr.1.1 harr.1.2 hmove
      obtain ⟨ks', e', hloop, he', hlen', hks', hpurse⟩ :=
        ih (i := i + 1) hks.2 (Nat.succ.inj hlen) harr.2 he
      refine ⟨k' :: ks', e', ?_, he', congrArg (· + 1) hlen', forall_mem_cons.2 ⟨hk', hks'⟩,
        fun ts ↦ ?_⟩
      · rw [Deal.giveLoop, hone]
        dsimp only
        rw [hloop]
      · cases ts with
        | nil => rw [purse, worth_nil, purse, worth_nil, worth_nil, Int.add_zero]
        | cons t ts =>
          have hts := hpurse ts
          have hmul := Int.mul_le_mul_of_nonneg_right hcount t.value_pos.le
          rw [purse, purse] at hts ⊢
          rw [map_cons, map_cons, worth_cons, worth_cons, worth_cons]
          rw [Int.add_mul] at hmul
          omega

/-! ### Everything is given -/

theorem giveLoop_made (hlen : arr.length = ks.length) (harr : ∀ n ∈ arr, 0 ≤ n) :
    (((c.deal fun _ ↦ (none, 0)).giveLoop i arr moveError ks).1.map Kind.made).sum =
      (ks.map Kind.made).sum + arr.sum := by
  induction ks generalizing i arr moveError with
  | nil =>
    obtain rfl := length_eq_zero_iff.1 hlen
    rfl
  | cons k ks ih =>
    match arr, hlen with
    | num :: arr, hlen =>
      rw [forall_mem_cons] at harr
      have hone : ((c.deal fun _ ↦ (none, 0)).giveOne i num moveError k).1.made =
          k.made + num := by
        rw [Deal.giveOne]
        split
        next hzero => rw [hzero, Int.add_zero]
        next hne =>
          have hmake : moneyMove num (c.deal fun _ ↦ (none, 0)).receiver
              (some (c.deal fun _ ↦ (none, 0)).payer)
              ((c.deal fun _ ↦ (none, 0)).outcome (.change i)) k =
                ({ k.enter c.player ⟨num, 0⟩ with made := k.made + num }, 0) :=
            if_neg (not_le.2 (harr.1.lt_of_ne' hne))
          rw [hmake]
          rfl
      have hrest : (((c.deal fun _ ↦ (none, 0)).giveLoop (i + 1) arr
          ((c.deal fun _ ↦ (none, 0)).giveOne i num moveError k).2 ks).1.map Kind.made).sum = _ :=
        ih (Nat.succ.inj hlen) harr.2
      rw [Deal.giveLoop]
      show ((_ :: _ : List Kind).map Kind.made).sum = _
      rw [map_cons, map_cons, sum_cons, sum_cons, sum_cons, hone, hrest]
      omega

theorem payLoop_zeros (d : Deal) (hlen : arr.length = ks.length) (harr : ∀ n ∈ arr, n = 0) :
    d.payLoop i arr ks = (ks, none) := by
  induction ks generalizing i arr with
  | nil =>
    obtain rfl := length_eq_zero_iff.1 hlen
    rfl
  | cons k ks ih =>
    match arr, hlen with
    | num :: arr, hlen =>
      rw [forall_mem_cons] at harr
      rw [Deal.payLoop, Deal.payOne, if_pos harr.1]
      dsimp only
      rw [if_neg (not_not_intro rfl), ih (Nat.succ.inj hlen) harr.2]

theorem changeMoney_append (d : Deal) (hlen : arr.length = ks.length)
    (hlen' : arr'.length = ks.length) :
    d.changeMoney (arr ++ arr') ks =
      match d.payLoop 0 arr ks with
      | (ks', some error) => (ks', error)
      | (ks', none) => d.giveLoop 0 arr' 0 ks' := by
  rewrite [Deal.changeMoney, if_neg (by rw [length_append]; omega), ← hlen,
    take_left, drop_left]
  rfl

end Moves

/-! ### The exchange -/

theorem Bank.worth_change_le (hT : Bank T) (hv : 0 ≤ v) :
    worth T.types (changeOf T o (share T v) str) ≤ v := by
  obtain hpos | hzero := lt_or_ge 0 (worth T.types (changeOf T o (share T v) str))
  · obtain ⟨hle, -⟩ := hT.worth_changeOf (hT.share_lt v) hpos
    have hgreed := hT.greedBuy ▸ hT.le_greedChange
    have hmul := (hT.share_spec hv hle hpos).1
    have hself := Int.mul_le_mul_of_nonneg_left hgreed hpos.le
    omega
  · exact hzero.trans hv

/-- A player with purses that are not split, who is not in himself. -/
structure Stands (T : Trader) (c : Customer) (ks : List Kind) : Prop where
  length_eq : ks.length = T.types.length
  atRest : ∀ k ∈ ks, k.AtRest
  worth_lt : purse T.types c.player ks < 2 ^ 31
  room : c.room ≠ some c.player

theorem Stands.coins (h : Stands T c ks) : Coins T.types (whatCoins c.player ks) := by
  rw [whatCoins_eq h.atRest]
  refine ⟨(length_map _).trans h.length_eq, fun n hn ↦ ?_⟩
  obtain ⟨k, hk, rfl⟩ := mem_map.1 hn
  exact ((h.atRest k hk).ready c.player 0).count_nonneg c.player

theorem Stands.whatCoins_lt (h : Stands T c ks) :
    worth T.types (whatCoins c.player ks) < 2 ^ 31 := by
  rw [whatCoins_eq h.atRest]
  exact h.worth_lt

variable {moves : Attempt → Option ℤ × ℕ} {held : ℤ}

theorem pay_computes (hT : Bank T) (h : Stands T c ks)
    (hprice : Priced T o o' r.into (worth T.types (accepted T c.player (asked r.what) ks)) price)
    (o₂ : Occasion) (str2 : Option Names)
    (moves : Attempt → Option ℤ × ℕ) :
    Part (payment T c r ks price) (ks.map (·.count c.player)) ∧
      ∃ change, Coins T.types change ∧
        price + worth T.types change ≤ worth T.types (payment T c r ks price) ∧
        pay T o₂ (c.deal moves) price (asked r.what) false str2 ks =
          some (((c.deal moves).changeMoney (payment T c r ks price ++ change) ks).1,
            .paid (payment T c r ks price ++ change)
              (some ((c.deal moves).changeMoney (payment T c r ks price ++ change) ks).2)) := by
  obtain ⟨hpos, hle, hlt, -, -⟩ := hprice
  have hgreed := hT.greedBuy ▸ hT.le_greedChange
  have hcoins := h.coins
  have hcoins_lt := h.whatCoins_lt
  have hpart := part_accepted hcoins (asked r.what)
  have haccepted := hcoins.accepted (asked r.what)
  have haccepted_le := hpart.worth_le T.types
  have hself := Int.mul_le_mul_of_nonneg_left hgreed (show 0 ≤ price by omega)
  obtain ⟨price', hprice'⟩ : ∃ price', (int (price * T.greedBuy)).tdiv 100 = price' := ⟨_, rfl⟩
  have hbounds : price ≤ price' ∧
      price' ≤ worth T.types (accepted T c.player (asked r.what) ks) := by
    rw [← hprice', int_eq (by omega) hlt, Int.tdiv_eq_ediv_of_nonneg (by omega)]
    omega
  obtain ⟨hpick, hge, -⟩ := pick_spec haccepted (by omega) (by omega) hbounds.2
  have hpick_le := hpick.worth_le T.types
  have hpayment : payment T c r ks price =
      pick T.types price' (accepted T c.player (asked r.what) ks) := by
    rw [payment, hprice']
    rfl
  rw [hpayment]
  obtain ⟨paid, hpaid⟩ :
      ∃ paid, pick T.types price' (accepted T c.player (asked r.what) ks) = paid := ⟨_, rfl⟩
  rw [hpaid] at hpick hge hpick_le ⊢
  have hchange : worth T.types (changeOf T o₂ (share T (worth T.types paid - price')) str2) ≤ _ :=
    hT.worth_change_le (Int.sub_nonneg.2 hge)
  refine ⟨whatCoins_eq h.atRest c.player ▸ hpick.trans hpart,
    changeOf T o₂ (share T (worth T.types paid - price')) str2,
    hT.coins_changeOf (hT.share_lt _), by omega, ?_⟩
  rw [pay_eq hcoins hcoins_lt (hprice'.trans_le hbounds.2), hprice',
    if_neg (fun h ↦ Bool.false_ne_true h.2), calcCoins]
  show Option.map _ (Option.map (pick T.types price' (accepted T c.player (asked r.what) ks) ++ ·)
    (calcChange T o₂ price' (some (pick T.types price' (accepted T c.player (asked r.what) ks)))
      str2)) = _
  rw [hpaid, calcChange_eq (haccepted.of_part hpick) (by omega) (by omega) (by omega),
    if_neg (show T.greedChange ≠ 0 by have := hT.le_greedChange; omega)]
  rfl

theorem Coins.lt {n : ℤ} (h : Coins ts arr) (hlt : worth ts arr < 2 ^ 31) (hn : n ∈ arr) :
    0 ≤ n ∧ n < 2 ^ 31 := by
  obtain ⟨i, hi, rfl⟩ := getElem_of_mem hn
  obtain ⟨t, ht⟩ : ∃ t, ts[i]? = some t := ⟨_, List.getElem?_eq_getElem (h.length_eq ▸ hi)⟩
  obtain ⟨hnonneg, hle⟩ := h.getD_mul_le ht
  have hself := le_mul_of_one_le_right hnonneg (show 1 ≤ t.value from t.value_pos)
  have hget : arr.getD i 0 = arr[i] := by
    rw [getD_eq_getElem?_getD, List.getElem?_eq_getElem hi]
    rfl
  omega

theorem Kind.AtRest.loose {k : Kind} (h : k.AtRest) (ob : Obj) : Loose ob k :=
  fun p hp ↦ ⟨(h ob p hp).pos.le, (h ob p hp).leaveBehind.ge,
    (h ob p hp).leaveBehind.trans_lt (by decide)⟩

theorem pay_genuine (hT : Bank T) (h : Stands T c ks)
    (hprice : Priced T o o' r.into (worth T.types (accepted T c.player (asked r.what) ks)) price)
    (hgenuine : ∀ (i : ℕ) (n : ℤ), (payment T c r ks price)[i]? = some n → n ≠ 0 →
      c.genuine i = true) (o₂ : Occasion) (str2 : Option Names)
    (moves : Attempt → Option ℤ × ℕ) :
    ∃ paid arr e, pay T o₂ (c.deal moves) price (asked r.what) false str2 ks =
        some (paid, .paid arr (some e)) ∧ 0 ≤ e ∧ paid.length = ks.length ∧
      (∀ k ∈ paid, Loose c.player k) ∧
      price + purse T.types c.player paid ≤ purse T.types c.player ks := by
  obtain ⟨hpart, change, hchange, hle, hpay⟩ := pay_computes hT h hprice o₂ str2 moves
  have hpart_le := hpart.worth_le T.types
  have hpurse := h.worth_lt
  rw [purse] at hpurse
  have hprice_pos := hprice.pos
  obtain ⟨ks₁, hloop, hlen₁, hrest, hpurse₁⟩ :=
    payLoop_genuine moves (i := 0) h.atRest hpart fun j n hn hne ↦ by
      rw [Nat.zero_add]
      exact hgenuine j n hn hne
  have hlen_change : change.length = ks₁.length :=
    hchange.length_eq.trans (hlen₁.trans h.length_eq).symm
  obtain ⟨ks₂, e, hgive, he, hlen₂, hloose, hpurse₂⟩ :=
    giveLoop_makes moves (i := 0) h.room (fun k hk ↦ (hrest k hk).loose c.player) hlen_change
      (fun n hn ↦ hchange.lt (by omega) hn) le_rfl
  have hmoney : (c.deal moves).changeMoney (payment T c r ks price ++ change) ks = (ks₂, e) := by
    rw [changeMoney_append _ (hpart.length_eq.trans (length_map _)) (hlen_change.trans hlen₁),
      hloop]
    exact hgive
  rw [hmoney] at hpay
  refine ⟨ks₂, _, e, hpay, he, hlen₂.trans hlen₁, hloose, ?_⟩
  have hleft := hpurse₁ T.types
  have hadded := hpurse₂ T.types
  omega

/-- Other things are not, and `pay` returns the code of the failure in its array. -/
theorem pay_false (hT : Bank T) (h : Stands T c ks)
    (hprice : Priced T o o' r.into (worth T.types (accepted T c.player (asked r.what) ks)) price)
    {n : ℤ} (hn : (payment T c r ks price)[i]? = some n) (hne : n ≠ 0)
    (hfalse : c.genuine i = false) (o₂ : Occasion) (str2 : Option Names)
    (moves : Attempt → Option ℤ × ℕ) :
    ∃ paid arr, pay T o₂ (c.deal moves) price (asked r.what) false str2 ks =
      some (paid, .paid arr (some (-10))) ∧ paid.length = ks.length := by
  obtain ⟨hpart, change, hchange, -, hpay⟩ := pay_computes hT h hprice o₂ str2 moves
  obtain ⟨ks₁, hloop, hlen₁⟩ := payLoop_false moves (i := 0) h.atRest hpart hn hne
    ((Nat.zero_add i).symm ▸ hfalse)
  have hmoney : (c.deal moves).changeMoney (payment T c r ks price ++ change) ks = (ks₁, -10) := by
    rw [changeMoney_append _ (hpart.length_eq.trans (length_map _))
      (hchange.length_eq.trans h.length_eq.symm), hloop]
  rw [hmoney] at hpay
  exact ⟨ks₁, _, hpay, hlen₁⟩

theorem give_eq (hT : Bank T) (hpos : 1 ≤ price) (hlt : price * T.greedBuy < 2 ^ 31)
    (hlen : ks.length = T.types.length) (o₃ : Occasion) (d : Deal) :
    give T o₃ d price str false ks = some ((d.giveLoop 0 (changeOf T o₃ price str) 0 ks).1,
      .paid ((T.types.map fun _ ↦ 0) ++ changeOf T o₃ price str)
        (some (d.giveLoop 0 (changeOf T o₃ price str) 0 ks).2)) := by
  have hgreed := hT.greedBuy ▸ hT.le_greedChange
  have hself := Int.mul_le_mul_of_nonneg_left hgreed (show 0 ≤ price by omega)
  have hcoins : Coins T.types (changeOf T o₃ price str) := hT.coins_changeOf (by omega)
  rw [give, hT.greedSell, if_neg (by decide), int_eq (by omega) (by omega),
    Int.mul_tdiv_cancel _ (by decide), calcChange, if_neg (by omega), map_some]
  dsimp only
  rw [if_neg Bool.false_ne_true, changeMoney_append d ((length_map _).trans hlen.symm)
    (hcoins.length_eq.trans hlen.symm), payLoop_zeros d ((length_map _).trans hlen.symm)
    fun n hn ↦ by obtain ⟨t, -, rfl⟩ := mem_map.1 hn; rfl]

theorem Coins.sum_pos (h : Coins ts arr) (hpos : 0 < worth ts arr) : 0 < arr.sum := by
  induction ts generalizing arr with
  | nil =>
    rw [worth_nil] at hpos
    exact absurd hpos (lt_irrefl 0)
  | cons t ts ih =>
    match arr, h with
    | n :: arr, h =>
      rw [sum_cons]
      obtain hn | hn := h.head.eq_or_lt
      · rw [worth_cons, ← hn, Int.zero_mul, Int.zero_add] at hpos
        have hrest := ih h.tail hpos
        omega
      · have hrest := sum_nonneg h.tail.nonneg
        omega

theorem asked_eq {names : Names} (h : T.types.any (·.named names) = true) :
    asked names = some names := by
  refine if_neg ?_
  rintro rfl
  obtain ⟨t, -, ht⟩ := any_eq_true.1 h
  cases ht

/-- `change`, when it comes to the payment. -/
theorem change_eq {w : Course} {paid : List Kind} {answer : Answer} (hT : Bank T)
    (hprice : exchangePrice T (c.occasion w 0) (c.occasion w 1) (c.deal w.payMoves) r ks =
      some price)
    (hpriced : Priced T o o' r.into held price) (hlen : paid.length = T.types.length)
    (hpay : pay T (c.occasion w 2) (c.deal w.payMoves) price (asked r.what) false (asked r.into)
      ks = some (paid, answer)) :
    change T c w r false ks = some ⟨paid, answer, ((c.deal w.giveMoves).giveLoop 0
      (changeOf T (c.occasion w 3) price (some r.into)) 0 paid).1⟩ := by
  rw [change, hprice, bind_eq_bind, bind_some, hpay, bind_eq_bind,
    bind_some]
  dsimp only
  rw [give_eq hT hpriced.pos hpriced.lt hlen, asked_eq hpriced.named]
  rfl

variable {w : Course}

theorem change_genuine (hT : Bank T) (h : Stands T c ks)
    (hprice : exchangePrice T (c.occasion w 0) (c.occasion w 1) (c.deal w.payMoves) r ks =
      some price)
    (hpriced : Priced T (c.occasion w 0) (c.occasion w 1) r.into
      (worth T.types (accepted T c.player (asked r.what) ks)) price)
    (hgenuine : ∀ (i : ℕ) (n : ℤ), (payment T c r ks price)[i]? = some n → n ≠ 0 →
      c.genuine i = true) :
    ∃ e, change T c w r false ks = some e ∧ ¬e.answer.Failed ∧
      purse T.types c.player e.given ≤ purse T.types c.player ks := by
  obtain ⟨paid, arr, code, hpay, hcode, hlen, hloose, hpurse⟩ :=
    pay_genuine hT h hpriced hgenuine (c.occasion w 2) (asked r.into) w.payMoves
  have hgreed := hT.greedBuy ▸ hT.le_greedChange
  have hpos := hpriced.pos
  have hself := Int.mul_le_mul_of_nonneg_left hgreed (show 0 ≤ price by omega)
  have hlt := hpriced.lt
  have hcoins : Coins T.types (changeOf T (c.occasion w 3) price (some r.into)) :=
    hT.coins_changeOf (by omega)
  have hworth : worth T.types (changeOf T (c.occasion w 3) price (some r.into)) ≤ price :=
    worth_changeOf_le hT.giveReduce_nonneg (by omega) (by omega)
  obtain ⟨given, code', hgive, -, -, -, hadded⟩ := giveLoop_makes w.giveMoves (i := 0) h.room
    hloose (hcoins.length_eq.trans (hlen.trans h.length_eq).symm)
    (fun n hn ↦ hcoins.lt (by omega) hn) le_rfl
  have hadded := hadded T.types
  refine ⟨_, change_eq hT hprice hpriced (hlen.trans h.length_eq) hpay, ?_, ?_⟩
  · rintro ⟨code₁, hcode₁, hneg⟩
    obtain rfl := some.inj hcode₁
    omega
  · rw [hgive]
    show purse T.types c.player given ≤ _
    omega

theorem change_false (hT : Bank T) (h : Stands T c ks)
    (hprice : exchangePrice T (c.occasion w 0) (c.occasion w 1) (c.deal w.payMoves) r ks =
      some price)
    (hpriced : Priced T (c.occasion w 0) (c.occasion w 1) r.into
      (worth T.types (accepted T c.player (asked r.what) ks)) price)
    {n : ℤ} (hn : (payment T c r ks price)[i]? = some n) (hne : n ≠ 0)
    (hfalse : c.genuine i = false) (hallows : Allows T (c.occasion w 3) price)
    (hgiven : w.giveMoves = fun _ ↦ (none, 0)) :
    ∃ e, change T c w r false ks = some e ∧ e.answer.Failed ∧ e.given ≠ e.paid := by
  obtain ⟨paid, arr, hpay, hlen⟩ := pay_false hT h hpriced hn hne hfalse (c.occasion w 2)
    (asked r.into) w.payMoves
  have hgreed := hT.greedBuy ▸ hT.le_greedChange
  have hpos := hpriced.pos
  have hself := Int.mul_le_mul_of_nonneg_left hgreed (show 0 ≤ price by omega)
  have hlt := hpriced.lt
  have hcoins : Coins T.types (changeOf T (c.occasion w 3) price (some r.into)) :=
    hT.coins_changeOf (by omega)
  have hworth := hT.changeOf_pos hpos (by omega) hallows hpriced.named
  refine ⟨_, change_eq hT hprice hpriced (hlen.trans h.length_eq) hpay, ⟨-10, rfl, by decide⟩,
    fun heq ↦ ?_⟩
  have hmade : (((c.deal fun _ ↦ (none, 0)).giveLoop 0
      (changeOf T (c.occasion w 3) price (some r.into)) 0 paid).1.map Kind.made).sum = _ :=
    giveLoop_made (hcoins.length_eq.trans (hlen.trans h.length_eq).symm) hcoins.nonneg
  dsimp only at heq
  rw [← hgiven, heq] at hmade
  have hsum : (changeOf T (c.occasion w 3) price (some r.into)).sum = 0 := by omega
  exact (hcoins.sum_pos hworth).ne' hsum

/-- **A bank gives nothing away if and only if the coins that are picked for the payment are made
of coins.** -/
theorem exchange_iff {fee : ℤ} (hfee : 0 ≤ fee) (hfee_lt : 100 + fee < 2 ^ 31)
    (h : Stands (configTradeData fee) c ks) :
    GivesNothingAway (configTradeData fee) c r ks ↔ PaysGenuine (configTradeData fee) c r ks := by
  have hT := bank_configTradeData hfee hfee_lt
  generalize configTradeData fee = T at h hT ⊢
  have hspec : ∀ {w : Course} {price : ℤ},
      exchangePrice T (c.occasion w 0) (c.occasion w 1) (c.deal w.payMoves) r ks = some price →
      Priced T (c.occasion w 0) (c.occasion w 1) r.into
        (worth T.types (accepted T c.player (asked r.what) ks)) price :=
    fun hprice ↦ exchangePrice_spec hT h.coins h.whatCoins_lt hprice
  constructor
  · intro hnothing w price hprice i n hn hne
    by_contra hfalse
    obtain ⟨o₀, ho₀, hallows⟩ := (hspec hprice).allows
    -- `random(3)` is in the end what it was when the price was found, and nothing is refused
    obtain ⟨w', hprice', hallows', hgiven⟩ : ∃ w' : Course,
        exchangePrice T (c.occasion w' 0) (c.occasion w' 1) (c.deal w'.payMoves) r ks = some price ∧
        Allows T (c.occasion w' 3) price ∧ w'.giveMoves = fun _ ↦ (none, 0) :=
      ⟨⟨fun j ↦ if j = 3 then o₀.random else w.random j, w.payMoves, fun _ ↦ (none, 0)⟩, hprice,
        by obtain rfl | rfl := ho₀ <;> exact hallows, rfl⟩
    obtain ⟨e, he, hfailed, hgave⟩ := change_false hT h hprice' (hspec hprice') hn hne
      (Bool.eq_false_iff.2 hfalse) hallows' hgiven
    exact hgave (hnothing.failed w' e he hfailed).2
  · intro hgenuine
    have hrun : ∀ w e, change T c w r false ks = some e → ¬e.answer.Failed ∧
        purse T.types c.player e.given ≤ purse T.types c.player ks := by
      intro w e he
      obtain ⟨price, hprice, -⟩ := bind_eq_some_iff.1 he
      obtain ⟨e', he', hrun⟩ := change_genuine hT h hprice (hspec hprice) (hgenuine w price hprice)
      obtain rfl := some.inj (he.symm.trans he')
      exact hrun
    exact ⟨fun w e he ↦ (hrun w e he).2, fun w e he hfailed ↦ absurd hfailed (hrun w e he).1⟩

/-! ### Two players -/

/-- A player with one gold coin, who stands in a room. -/
def golden (genuine : Bool) : Customer :=
  ⟨0, some 1, fun _ ↦ genuine, 0⟩

/-- One coin of gold, and no others. -/
def oneGold : List Kind :=
  [⟨fun _ ↦ none, 0⟩, ⟨fun _ ↦ none, 0⟩, ⟨fun o ↦ if o = 0 then some ⟨1, 0⟩ else none, 0⟩,
    ⟨fun _ ↦ none, 0⟩]

/-- Gold into copper. -/
def goldToCopper : Request :=
  ⟨["zloto".toUTF8.toList], none, ["miedz".toUTF8.toList], none⟩

theorem stands_golden (genuine : Bool) : Stands (configTradeData 30) (golden genuine) oneGold := by
  refine ⟨rfl, ?_, show purse (configTradeData 30).types 0 oneGold < 2 ^ 31 by decide, nofun⟩
  have hnone : (⟨fun _ ↦ none, 0⟩ : Kind).AtRest := nofun
  refine forall_mem_cons.2 ⟨hnone, forall_mem_cons.2 ⟨hnone, forall_mem_cons.2
    ⟨fun o p hp ↦ ?_, forall_mem_singleton.2 hnone⟩⟩⟩
  dsimp only at hp
  split at hp
  · obtain rfl := some.inj hp
    exact ⟨by decide, rfl⟩
  · cases hp

theorem exchange_iff_golden :
    GivesNothingAway (configTradeData 30) (golden true) goldToCopper oneGold :=
  (exchange_iff (by decide) (by decide) (stands_golden true)).2 fun _ _ _ _ _ _ _ ↦ rfl

/-- **A coin that is not one**: nothing is paid, and 184 coppers are given. -/
theorem not_exchange : ¬∀ (fee : ℤ) (c : Customer) (r : Request) (ks : List Kind), 0 ≤ fee →
    100 + fee < 2 ^ 31 → Stands (configTradeData fee) c ks →
      GivesNothingAway (configTradeData fee) c r ks := by
  intro hall
  have hnothing := hall 30 (golden false) goldToCopper oneGold (by decide) (by decide)
    (stands_golden false)
  have hT : Bank (configTradeData 30) := bank_configTradeData (by decide) (by decide)
  have h := stands_golden false
  obtain ⟨w, hw⟩ : ∃ w : Course, w = ⟨fun _ ↦ 0, fun _ ↦ (none, 0), fun _ ↦ (none, 0)⟩ := ⟨_, rfl⟩
  have hprice : exchangePrice (configTradeData 30) ((golden false).occasion w 0)
      ((golden false).occasion w 1) ((golden false).deal w.payMoves) goldToCopper oneGold =
        some 184 := by
    subst hw
    decide +kernel
  have hpicked : (payment (configTradeData 30) (golden false) goldToCopper oneGold 184)[2]? =
      some 1 := by
    decide +kernel
  obtain ⟨e, he, hfailed, hgave⟩ := change_false (w := w) hT h hprice
    (exchangePrice_spec hT h.coins h.whatCoins_lt hprice) hpicked (by decide) rfl
    (fun hmax ↦ by subst hw; exact absurd hmax (by decide)) (by rw [hw])
  exact hgave (hnothing.failed w e he hfailed).2

theorem not_givesNothingAway {T : Trader} {c : Customer} {r : Request} {ks : List Kind} (w : Course)
    (h : (change T c w r false ks).any
      fun e ↦ purse T.types c.player ks < purse T.types c.player e.given) :
    ¬GivesNothingAway T c r ks := by
  obtain ⟨e, he, hlt⟩ := (Option.any_eq_true _ _).1 h
  exact fun hnothing ↦ (of_decide_eq_true hlt).not_ge (hnothing.purse_le w e he)

/-- Even for genuine coins something is given away with a negative fee; and when what the player has
is worth more than an integer can say, for then `pay` refuses and `change` goes on. -/
theorem not_exchange_outside :
    ¬GivesNothingAway (configTradeData (-50)) (golden true) goldToCopper oneGold ∧
      ¬GivesNothingAway (configTradeData 30) (golden true) { goldToCopper with number := some 10 }
        (oneGold.set 2 ⟨fun o ↦ if o = 0 then some ⟨17895698, 0⟩ else none, 0⟩) := by
  let w : Course := ⟨fun _ ↦ 0, fun _ ↦ (none, 0), fun _ ↦ (none, 0)⟩
  exact ⟨not_givesNothingAway w (by decide +kernel), not_givesNothingAway w (by decide +kernel)⟩

end Lpmud.Trade
