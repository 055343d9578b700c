import Mathlib.Algebra.BigOperators.Group.Finset.Piecewise
import Mathlib.Algebra.Order.BigOperators.Group.Finset
import Lpmud.Heaps.Money
import Lpmud.Svalue

/-!
# Moving coins

`change_money` of `/lib/trade.c` moves the coins of a payment from the payer to the receiver, and
then the change back. What the receiver does not take goes to the holder that
`query_extra_money_holder` names, and what the payer cannot carry to the floor.

A heap of which a part is moved is split before, and it stays split when the move fails, for the
next attempt. Where there is nobody to take coins from they are made, and where there is nobody to
give them to they are destroyed; a ledger says how many (`Kind.made`). No two types of coins have to
do with each other, except that an error ends the payment.
-/

namespace Lpmud.Trade

open List Option
open Int (add_zero sub_zero)
open Heaps (Heap)
open Heaps (int int_eq)

/-! ### Heaps -/

/-- A heap of coins that someone has. -/
structure Pile where
  itemCount : ℤ
  leaveBehind : ℤ
  deriving DecidableEq

namespace Pile

variable (p : Pile)

def numHeap : ℤ :=
  p.itemCount - p.leaveBehind

def setHeapSize (num : ℤ) : Pile :=
  { p with itemCount := if num ≤ 0 then 0 else num }

def splitHeap (num : ℤ) : Pile :=
  { p with leaveBehind := if p.itemCount ≤ num then 0 else p.itemCount - num }

/-- A heap for which there is not place enough is split by `move`: `part` of it fits. -/
def splitBy (part : Option ℤ) : Pile :=
  match part with
  | some n => if 0 < n ∧ n < p.numHeap then p.splitHeap n else p
  | none => p

/-- What `leave_env` leaves behind. -/
def left : Option Pile :=
  if p.leaveBehind = 0 ∨ p.itemCount ≤ p.leaveBehind then none else some ⟨p.leaveBehind, 0⟩

/-- What goes on after `leave_env`. -/
def gone : Pile :=
  if p.leaveBehind = 0 ∨ p.itemCount ≤ p.leaveBehind then p
  else ⟨p.itemCount - p.leaveBehind, 0⟩

end Pile

/-! ### Moves -/

/-- How an attempt to move coins goes. -/
structure Outcome where
  /-- What `present` finds is made of coins. -/
  coins : Bool
  /-- The part of the heap that there is place for, if not for all of it. -/
  part : Option ℤ
  /-- What `move` returns. -/
  error : ℕ

/-- The coins of one type: what everybody has of them, and how many have been made, less those that
have been destroyed. -/
structure Kind where
  piles : Obj → Option Pile
  made : ℤ

/-- What someone has is changed. -/
def Kind.set (k : Kind) (ob : Obj) (p : Option Pile) : Kind :=
  { k with piles := Function.update k.piles ob p }

/-- `enter_env`: a heap goes where there may be one already. -/
def Kind.enter (k : Kind) (ob : Obj) (p : Pile) : Kind :=
  match k.piles ob with
  | none => k.set ob (some p)
  | some t => k.set ob (some (t.setHeapSize (int (p.itemCount + t.numHeap))))

def moneyMove (num : ℤ) (source target : Option Obj) (w : Outcome) (k : Kind) : Kind × ℤ :=
  if num ≤ 0 then (k, -1)
  else
    match source with
    | none =>
      match target with
      | none => (k, 0)
      | some ob =>
        if w.error ≠ 0 then (k, w.error)
        else ({ k.enter ob (Pile.splitBy ⟨num, 0⟩ w.part) with made := k.made + num }, 0)
    | some src =>
      match k.piles src with
      | none => (k, -1)
      | some cf =>
        if w.coins = false ∨ cf.numHeap = 0 ∨ num > cf.numHeap then (k, -1)
        else
          match target with
          | none =>
            let rest :=
              if num < cf.numHeap then some (cf.setHeapSize (cf.numHeap - num)) else cf.left
            ({ k.set src rest with made := k.made - num }, 0)
          | some ob =>
            let cf := if num < cf.numHeap then cf.splitHeap num else cf
            if ob = src then (k.set src (some cf), 0)
            else
              let cf := cf.splitBy w.part
              if w.error ≠ 0 then (k.set src (some cf), w.error)
              else ((k.set src cf.left).enter ob cf.gone, 0)

/-- The moves of `change_money`: for every type of coins, to the receiver or to the other holder,
and back to the payer or to the floor. -/
inductive Attempt where
  | pay (i : ℕ)
  | payExtra (i : ℕ)
  | change (i : ℕ)
  | drop (i : ℕ)

/-- Who pays, who gets the money, and how the moves go. -/
structure Deal where
  payer : Obj
  receiver : Option Obj
  /-- `query_extra_money_holder` -/
  extraHolder : ℕ → ℤ → ℤ → Option Obj
  /-- `environment(from)` -/
  floor : Option Obj
  outcome : Attempt → Outcome

namespace Deal

variable (d : Deal)

/-- A round of the first loop of `change_money`: the error is 0 unless it ends the payment. -/
def payOne (i : ℕ) (num : ℤ) (k : Kind) : Kind × ℤ :=
  if num = 0 then (k, 0)
  else
    match moneyMove num (some d.payer) d.receiver (d.outcome (.pay i)) k with
    | (k, error1) =>
      if error1 = 0 then (k, 0)
      else
        moneyMove num (some d.payer) (d.extraHolder i num error1) (d.outcome (.payExtra i)) k

/-- The first loop of `change_money`, and what it returns if it does. -/
def payLoop : ℕ → List ℤ → List Kind → List Kind × Option ℤ
  | i, num :: arr, k :: ks =>
    match d.payOne i num k with
    | (k, error2) =>
      if error2 ≠ 0 then (k :: ks, some (error2 * 10))
      else
        match payLoop (i + 1) arr ks with
        | (ks, error) => (k :: ks, error)
  | _, _, ks => (ks, none)

/-- A round of the second loop, with `move_error`. -/
def giveOne (i : ℕ) (num moveError : ℤ) (k : Kind) : Kind × ℤ :=
  if num = 0 then (k, moveError)
  else
    match moneyMove num d.receiver (some d.payer) (d.outcome (.change i)) k with
    | (k, error1) =>
      if error1 = 0 then (k, moveError)
      else
        match moneyMove num d.receiver d.floor (d.outcome (.drop i)) k with
        | (k, error2) =>
          let moveError := if moveError = 0 then error1 else moveError
          (k, if error2 < 0 then error2 else moveError)

/-- The second loop. -/
def giveLoop : ℕ → List ℤ → ℤ → List Kind → List Kind × ℤ
  | i, num :: arr, moveError, k :: ks =>
    match d.giveOne i num moveError k with
    | (k, moveError) =>
      match giveLoop (i + 1) arr moveError ks with
      | (ks, moveError) => (k :: ks, moveError)
  | _, _, moveError, ks => (ks, moveError)

/-- `change_money`, for the types of coins that there are. -/
def changeMoney (arr : List ℤ) (ks : List Kind) : List Kind × ℤ :=
  if arr.length ≠ ks.length * 2 then (ks, -10)
  else
    match d.payLoop 0 (arr.take ks.length) ks with
    | (ks', some error) => (ks', error)
    | (ks', none) => d.giveLoop 0 (arr.drop ks.length) 0 ks'

end Deal

/-! ### Heaps at rest -/

namespace Pile

/-- A heap that is not split. -/
structure Whole (p : Pile) : Prop where
  pos : 0 < p.itemCount
  leaveBehind : p.leaveBehind = 0

/-- A heap of which a part at least would be moved. -/
structure Sound (p : Pile) : Prop where
  nonneg : 0 ≤ p.leaveBehind
  lt : p.leaveBehind < p.itemCount

variable {p : Pile} {n : ℤ}

theorem Whole.sound (h : p.Whole) : p.Sound :=
  ⟨h.leaveBehind.ge, h.leaveBehind ▸ h.pos⟩

theorem Whole.numHeap (h : p.Whole) : p.numHeap = p.itemCount := by
  rw [Pile.numHeap, h.leaveBehind, sub_zero]

theorem Sound.numHeap_pos (h : p.Sound) : 0 < p.numHeap :=
  Int.sub_pos.2 h.lt

theorem Sound.numHeap_le (h : p.Sound) : p.numHeap ≤ p.itemCount :=
  Int.sub_le_self _ h.nonneg

theorem Sound.splitHeap (h : p.Sound) (hpos : 0 < n) (hlt : n < p.numHeap) :
    (p.splitHeap n).Sound ∧ (p.splitHeap n).itemCount = p.itemCount ∧
      (p.splitHeap n).numHeap = n := by
  have hle := h.numHeap_le
  rw [Pile.splitHeap, if_neg (by omega)]
  refine ⟨⟨?_, ?_⟩, rfl, Int.sub_sub_self _ _⟩
  · show 0 ≤ p.itemCount - n
    omega
  · show p.itemCount - n < p.itemCount
    omega

theorem Sound.splitBy (h : p.Sound) (part : Option ℤ) :
    (p.splitBy part).Sound ∧ (p.splitBy part).itemCount = p.itemCount ∧
      (p.splitBy part).numHeap ≤ p.numHeap := by
  cases part with
  | none => exact ⟨h, rfl, le_rfl⟩
  | some n =>
    rw [Pile.splitBy]
    split
    next hn =>
      obtain ⟨hsound, hcount, hnum⟩ := h.splitHeap hn.1 hn.2
      exact ⟨hsound, hcount, hnum.trans_le hn.2.le⟩
    next => exact ⟨h, rfl, le_rfl⟩

theorem Sound.splitTo (h : p.Sound) (hpos : 0 < n) (hle : n ≤ p.numHeap) :
    (if n < p.numHeap then p.splitHeap n else p).Sound ∧
      (if n < p.numHeap then p.splitHeap n else p).itemCount = p.itemCount ∧
      (if n < p.numHeap then p.splitHeap n else p).numHeap = n := by
  split
  next hlt => exact h.splitHeap hpos hlt
  next hlt => exact ⟨h, rfl, le_antisymm (not_lt.1 hlt) hle⟩

theorem Sound.left_gone (h : p.Sound) : (∀ q, p.left = some q → q.Whole) ∧ p.gone.Whole ∧
    p.gone.itemCount = p.numHeap ∧ p.left.elim 0 itemCount = p.itemCount - p.numHeap := by
  rw [left, gone]
  by_cases hzero : p.leaveBehind = 0
  · rw [if_pos (.inl hzero), if_pos (.inl hzero)]
    have hwhole : p.Whole := ⟨hzero ▸ h.lt, hzero⟩
    exact ⟨nofun, hwhole, hwhole.numHeap.symm, by rw [hwhole.numHeap, Int.sub_self]; rfl⟩
  · have hlt := h.lt
    have hnonneg := h.nonneg
    rw [if_neg (by omega), if_neg (by omega)]
    refine ⟨fun q hq ↦ ?_, ⟨h.numHeap_pos, rfl⟩, rfl, (Int.sub_sub_self _ _).symm⟩
    obtain rfl := some.inj hq
    exact ⟨by show 0 < p.leaveBehind; omega, rfl⟩

end Pile

namespace Kind

variable {k k' k'' : Kind} {src ob o : Obj} {target : Option Obj} {num m : ℤ} {w : Outcome}
  {S : Finset Obj}

/-- The coins that someone has. -/
def count (k : Kind) (o : Obj) : ℤ :=
  (k.piles o).elim 0 Pile.itemCount

/-- No heap is split. -/
def AtRest (k : Kind) : Prop :=
  ∀ o p, k.piles o = some p → p.Whole

/-- No heap is split, but for the one of `src`, of which a number of coins may be about to move. -/
structure Ready (k : Kind) (src : Obj) (num : ℤ) : Prop where
  others : ∀ o p, o ≠ src → k.piles o = some p → p.Whole
  own : ∀ p, k.piles src = some p → p.Sound ∧ (p.leaveBehind = 0 ∨ p.numHeap ≤ num)

theorem AtRest.ready (h : k.AtRest) (src : Obj) (num : ℤ) : k.Ready src num :=
  ⟨fun o p _ ↦ h o p, fun p hp ↦ ⟨(h src p hp).sound, .inl (h src p hp).leaveBehind⟩⟩

/-- Coins go from `src` to where they go, or they are destroyed. -/
structure Gives (k k' : Kind) (src : Obj) (target : Option Obj) (m : ℤ) : Prop where
  count : ∀ o, k'.count o =
    k.count o + (if target = some o then m else 0) - if o = src then m else 0
  made : k'.made = k.made - if target = none then m else 0

/-- Nobody has more or less. -/
structure Keeps (k k' : Kind) : Prop where
  count : ∀ o, k'.count o = k.count o
  made : k'.made = k.made

theorem piles_set (k : Kind) (ob : Obj) (p : Option Pile) (o : Obj) :
    (k.set ob p).piles o = if o = ob then p else k.piles o :=
  Function.update_apply ..

theorem count_set (k : Kind) (ob : Obj) (p : Option Pile) (o : Obj) :
    (k.set ob p).count o = if o = ob then p.elim 0 Pile.itemCount else k.count o := by
  rw [count, piles_set, apply_ite (Option.elim · 0 Pile.itemCount)]
  rfl

/-- What is left of the heap of `src` is not split. -/
theorem Ready.set_src (h : k.Ready src num) {p : Option Pile} (hp : ∀ q, p = some q → q.Whole) :
    (k.set src p).AtRest := by
  intro o q hq
  rw [piles_set] at hq
  split at hq
  next => exact hp q hq
  next ho => exact h.others o q ho hq

theorem Ready.count_nonneg (h : k.Ready src num) (o : Obj) : 0 ≤ k.count o := by
  rw [Kind.count]
  cases hp : k.piles o with
  | none => exact le_rfl
  | some p =>
    by_cases ho : o = src
    · subst ho
      exact (h.own p hp).1.nonneg.trans (h.own p hp).1.lt.le
    · exact (h.others o p ho hp).pos.le

theorem enter_spec {p : Pile} (hp : p.Whole) (hob : ∀ t, k.piles ob = some t → t.Whole)
    (hfit : k.count ob + p.itemCount < 2 ^ 31) :
    (∃ q, k.enter ob p = k.set ob (some q) ∧ q.Whole ∧ q.itemCount = k.count ob + p.itemCount) := by
  rw [enter]
  rw [count] at hfit ⊢
  cases ht : k.piles ob with
  | none => exact ⟨p, rfl, hp, (Int.zero_add _).symm⟩
  | some t =>
    have htw := hob t ht
    have hpos := hp.pos
    have htpos := htw.pos
    rw [ht] at hfit
    have hfit' : t.itemCount + p.itemCount < 2 ^ 31 := hfit
    dsimp only
    rw [htw.numHeap, int_eq (by omega) (by omega), Pile.setHeapSize, if_neg (by omega)]
    refine ⟨_, rfl, ⟨?_, htw.leaveBehind⟩, Int.add_comm _ _⟩
    show 0 < p.itemCount + t.itemCount
    omega

variable (target w) in
/-- **An attempt to move coins**: either it fails and nobody has more or less, or the coins, or a
part of them, go where they are to go. -/
theorem moneyMove_spec (h : k.Ready src num) (htarget : ∀ ob, target = some ob →
    ob ≠ src ∧ k.count ob + k.count src < 2 ^ 31) :
    ((moneyMove num (some src) target w k).2 ≠ 0 ∧
        (moneyMove num (some src) target w k).1.Ready src num ∧
        Keeps k (moneyMove num (some src) target w k).1) ∨
      ((moneyMove num (some src) target w k).2 = 0 ∧
        (moneyMove num (some src) target w k).1.AtRest ∧
        ∃ m, (0 < m ∧ m ≤ num) ∧ (w.part = none → m = num) ∧
          Gives k (moneyMove num (some src) target w k).1 src target m) := by
  have hfail : ((k, (-1 : ℤ)).2 ≠ 0 ∧ (k, (-1 : ℤ)).1.Ready src num ∧ Keeps k (k, (-1 : ℤ)).1) :=
    ⟨Int.negSucc_ne_zero 0, h, fun _ ↦ rfl, rfl⟩
  rw [moneyMove]
  split
  next => exact .inl hfail
  next hnum =>
    dsimp only
    cases hsrc : k.piles src with
    | none => exact .inl hfail
    | some cf =>
      have hcount : k.count src = cf.itemCount := by rw [count, hsrc]; rfl
      obtain ⟨hsound, hsplit⟩ := h.own cf hsrc
      dsimp only
      split
      next => exact .inl hfail
      next hcoins =>
        rw [not_or, not_or, not_lt] at hcoins
        obtain ⟨hsound', hcount', hnum'⟩ := hsound.splitTo (not_le.1 hnum) hcoins.2.2
        cases target with
        | none =>
          -- the coins are destroyed
          have hrest : (∀ q, (if num < cf.numHeap then some (cf.setHeapSize (cf.numHeap - num))
                else cf.left) = some q → q.Whole) ∧
              (if num < cf.numHeap then some (cf.setHeapSize (cf.numHeap - num))
                else cf.left).elim 0 Pile.itemCount = cf.itemCount - num := by
            split
            next hlt =>
              -- a heap that is still split has no more coins to move
              have hzero := hsplit.resolve_right (not_le.2 hlt)
              have hnumHeap : cf.numHeap = cf.itemCount :=
                Pile.Whole.numHeap ⟨hzero ▸ hsound.lt, hzero⟩
              rw [Pile.setHeapSize, if_neg (by omega), hnumHeap]
              refine ⟨fun q hq ↦ ?_, rfl⟩
              obtain rfl := some.inj hq
              exact ⟨Int.sub_pos.2 (hnumHeap ▸ hlt), hzero⟩
            next hge =>
              obtain ⟨hleft, -, -, hsum⟩ := hsound.left_gone
              exact ⟨hleft, by rw [hsum, le_antisymm (not_lt.1 hge) hcoins.2.2]⟩
          refine .inr ⟨rfl, h.set_src hrest.1, num, ⟨not_le.1 hnum, le_rfl⟩, fun _ ↦ rfl,
            fun o ↦ (count_set k src _ o).trans ?_, by rw [if_pos rfl]⟩
          have hnone : ¬(none = some o) := nofun
          rw [if_neg hnone, add_zero, hrest.2]
          split
          next ho => rw [ho, hcount]
          next => exact (sub_zero _).symm
        | some ob =>
          obtain ⟨hne, hfit⟩ := htarget ob rfl
          dsimp only
          rw [if_neg hne]
          generalize (if num < cf.numHeap then cf.splitHeap num else cf) = cf₁
            at hsound' hcount' hnum' ⊢
          obtain ⟨hsound₂, hcount₂, hnum₂⟩ := hsound'.splitBy w.part
          have hpart : w.part = none → (cf₁.splitBy w.part).numHeap = num := fun hw ↦ by
            rw [hw]
            exact hnum'
          generalize cf₁.splitBy w.part = cf₂ at hsound₂ hcount₂ hnum₂ hpart ⊢
          split
          next herror =>
            -- a heap that is refused stays split
            refine .inl ⟨Int.natCast_ne_zero.2 herror, ⟨fun o p ho hp ↦ ?_, fun p hp ↦ ?_⟩,
              fun o ↦ ?_, rfl⟩
            · have hp : (k.set src (some cf₂)).piles o = some p := hp
              rw [piles_set, if_neg ho] at hp
              exact h.others o p ho hp
            · have hp : (k.set src (some cf₂)).piles src = some p := hp
              rw [piles_set, if_pos rfl] at hp
              obtain rfl := some.inj hp
              exact ⟨hsound₂, .inr (hnum₂.trans hnum'.le)⟩
            · rw [count_set]
              split
              next ho => rw [ho, hcount, ← hcount', ← hcount₂]; rfl
              next => rfl
          next =>
            obtain ⟨hleft, hgone, hgone_count, hleft_count⟩ := hsound₂.left_gone
            have hcf := hcount₂.trans (hcount'.trans hcount.symm)
            have hrest := h.set_src hleft
            have hob : (k.set src cf₂.left).count ob = k.count ob := by rw [count_set, if_neg hne]
            obtain ⟨q, henter, hq, hq_count⟩ := enter_spec hgone (hrest ob) (by
              rw [hob, hgone_count]
              have := hsound₂.numHeap_le
              omega)
            refine .inr ⟨rfl, ?_, cf₂.numHeap, ⟨hsound₂.numHeap_pos, hnum₂.trans hnum'.le⟩, hpart,
              ⟨fun o ↦ ?_, ?_⟩⟩
            · show (((k.set src cf₂.left).enter ob cf₂.gone).AtRest)
              rw [henter]
              exact (hrest.ready ob num).set_src fun _ heq ↦ some.inj heq ▸ hq
            · show (((k.set src cf₂.left).enter ob cf₂.gone).count o) = _
              rw [henter, count_set, count_set, elim_some, hq_count, hob, hgone_count,
                hleft_count, hcf]
              simp only [some.injEq, eq_comm (a := ob)]
              split
              next ho => rw [ho, if_neg hne, sub_zero]
              next =>
                split
                next ho => rw [ho, add_zero]
                next => rw [add_zero, sub_zero]
            · have hsome : ¬(some ob = none) := nofun
              show (((k.set src cf₂.left).enter ob cf₂.gone).made) = _
              rw [henter, if_neg hsome, sub_zero]
              rfl

/-! ### What all have together -/

/-- The coins that some people have together. -/
def held (k : Kind) (S : Finset Obj) : ℤ :=
  ∑ o ∈ S, k.count o

/-- No coins get lost but those that the ledger knows of, and none are made. -/
structure Conserved (S : Finset Obj) (k k' : Kind) : Prop where
  held : k'.held S - k'.made = k.held S - k.made
  made_le : k'.made ≤ k.made

theorem Conserved.refl (S : Finset Obj) (k : Kind) : Conserved S k k :=
  ⟨rfl, le_rfl⟩

theorem Conserved.trans (h : Conserved S k k') (h' : Conserved S k' k'') : Conserved S k k'' :=
  ⟨h'.held.trans h.held, h'.made_le.trans h.made_le⟩

theorem Conserved.held_le (h : Conserved S k k') : k'.held S ≤ k.held S := by
  have := h.held
  have := h.made_le
  omega

theorem Conserved.held_eq (h : Conserved S k k') (hmade : k'.made = k.made) :
    k'.held S = k.held S := by
  have := h.held
  omega

theorem Keeps.gives (h : Keeps k k') (src : Obj) (target : Option Obj) :
    Gives k k' src target 0 := by
  refine ⟨fun o ↦ ?_, ?_⟩
  · rw [h.count, ite_self, ite_self, add_zero, sub_zero]
  · rw [h.made, ite_self, sub_zero]

theorem Gives.after_keeps (h : Gives k' k'' src target m) (hkeep : Keeps k k') :
    Gives k k'' src target m := by
  refine ⟨fun o ↦ ?_, ?_⟩
  · rw [h.count, hkeep.count]
  · rw [h.made, hkeep.made]

theorem Gives.keptAll (h : Gives k k' src target m) (hm : 0 ≤ m) (hsrc : src ∈ S)
    (htarget : ∀ ob, target = some ob → ob ∈ S) : Conserved S k k' := by
  have hmade := h.made
  have hsum : k'.held S = k.held S + (if target = none then 0 else m) - m := by
    rw [held, Finset.sum_congr rfl fun o _ ↦ h.count o, Finset.sum_sub_distrib,
      Finset.sum_add_distrib, Finset.sum_ite_eq', if_pos hsrc]
    congr 2
    cases target with
    | none => exact Finset.sum_eq_zero fun o _ ↦ if_neg nofun
    | some ob =>
      simp only [some.injEq]
      rw [Finset.sum_ite_eq, if_pos (htarget ob rfl), if_neg nofun]
  cases target with
  | none =>
    rw [if_pos rfl] at hmade hsum
    exact ⟨by omega, by omega⟩
  | some ob =>
    have hsome : ¬(some ob = none) := nofun
    rw [if_neg hsome] at hmade hsum
    exact ⟨by omega, by omega⟩

theorem Ready.count_add_le (h : k.Ready src num) (hob : ob ∈ S) (ho : o ∈ S) (hne : ob ≠ o) :
    k.count ob + k.count o ≤ k.held S :=
  Finset.add_le_sum (fun o _ ↦ h.count_nonneg o) hob ho hne

end Kind

/-! ### The loops -/

/-- Something holds of what becomes of every type of coins. -/
structure Pointwise (R : ℕ → Kind → Kind → Prop) (ks ks' : List Kind) : Prop where
  length_eq : ks'.length = ks.length
  rel : ∀ (j : ℕ) (k k' : Kind), ks[j]? = some k → ks'[j]? = some k' → R j k k'

namespace Pointwise

variable {R T U : ℕ → Kind → Kind → Prop} {k k' : Kind} {ks ks' ks'' : List Kind}

theorem refl (h : ∀ j k, R j k k) (ks : List Kind) : Pointwise R ks ks :=
  ⟨rfl, fun j k _ hk hk' ↦ some.inj (hk.symm.trans hk') ▸ h j k⟩

theorem cons (h : R 0 k k') (hs : Pointwise (fun j ↦ R (j + 1)) ks ks') :
    Pointwise R (k :: ks) (k' :: ks') := by
  refine ⟨congrArg (· + 1) hs.length_eq, fun j l l' hl hl' ↦ ?_⟩
  cases j with
  | zero =>
    obtain rfl := some.inj hl
    obtain rfl := some.inj hl'
    exact h
  | succ j => exact hs.rel j l l' hl hl'

theorem trans (h : Pointwise R ks ks') (h' : Pointwise T ks' ks'')
    (hR : ∀ j k k' k'', j < ks.length → R j k k' → T j k' k'' → U j k k'') :
    Pointwise U ks ks'' := by
  refine ⟨h'.length_eq.trans h.length_eq, fun j k k'' hk hk'' ↦ ?_⟩
  have hj := (List.getElem?_eq_some_iff.1 hk).1
  have hk' := List.getElem?_eq_getElem (h.length_eq ▸ hj)
  exact hR j k _ k'' hj (h.rel j k _ hk hk') (h'.rel j _ k'' hk' hk'')

theorem mono (h : Pointwise R ks ks') (hR : ∀ j k k', R j k k' → T j k k') :
    Pointwise T ks ks' :=
  ⟨h.length_eq, fun j k k' hk hk' ↦ hR j k k' (h.rel j k k' hk hk')⟩

theorem of_mem (h : Pointwise R ks ks') {k' : Kind} (hk' : k' ∈ ks') :
    ∃ j, ∃ k ∈ ks, R j k k' := by
  obtain ⟨j, hj, rfl⟩ := getElem_of_mem hk'
  have hj' := h.length_eq ▸ hj
  exact ⟨j, ks[j], getElem_mem hj', h.rel j _ _ (List.getElem?_eq_getElem hj')
    (List.getElem?_eq_getElem hj)⟩

end Pointwise

namespace Deal

open Kind

variable {d : Deal} {S : Finset Obj} {k : Kind} {i : ℕ} {num moveError : ℤ} {r : Obj}

/-- The payer is not the receiver, nor the other holder, and `S` are all of them. -/
structure Proper (d : Deal) (S : Finset Obj) : Prop where
  payer : d.payer ∈ S
  receiver : ∀ r, d.receiver = some r → r ≠ d.payer ∧ r ∈ S
  extraHolder : ∀ i n e x, d.extraHolder i n e = some x → x ≠ d.payer ∧ x ∈ S
  floor : ∀ f, d.floor = some f → f ∈ S

/-- The coins of one type that the payer pays are moved whole, and so is the change. -/
structure MovesWhole (d : Deal) (i : ℕ) : Prop where
  pay : (d.outcome (.pay i)).part = none
  payExtra : (d.outcome (.payExtra i)).part = none
  change : (d.outcome (.change i)).part = none

/-- What the payer pays of one type of coins, if there is no error, goes to someone or is
destroyed. -/
theorem payOne_spec (h : d.Proper S) (hk : k.AtRest) (hfit : k.held S < 2 ^ 31) (i : ℕ) (num : ℤ) :
    ((d.payOne i num k).2 ≠ 0 ∧ Keeps k (d.payOne i num k).1) ∨
      ((d.payOne i num k).2 = 0 ∧ (d.payOne i num k).1.AtRest ∧ ∃ target m, 0 ≤ m ∧
        (target = d.receiver ∨ ∃ e, target = d.extraHolder i num e) ∧
        (d.MovesWhole i → m = num) ∧
        Gives k (d.payOne i num k).1 d.payer target m) := by
  rw [payOne]
  split
  next hzero =>
    exact .inr ⟨rfl, hk, d.receiver, 0, le_rfl, .inl rfl, fun _ ↦ hzero.symm,
      Keeps.gives ⟨fun _ ↦ rfl, rfl⟩ _ _⟩
  next =>
    have hready := hk.ready d.payer num
    have hfirst := moneyMove_spec d.receiver (d.outcome (.pay i)) hready
      fun ob hob ↦ by
        obtain ⟨hne, hmem⟩ := h.receiver ob hob
        exact ⟨hne, (hready.count_add_le hmem h.payer hne).trans_lt hfit⟩
    generalize moneyMove num (some d.payer) d.receiver (d.outcome (.pay i)) k = first at hfirst ⊢
    obtain ⟨k₁, error1⟩ := first
    dsimp only at hfirst ⊢
    obtain ⟨herror, hready₁, hkeep⟩ | ⟨rfl, hrest, m, hm, hwhole, hgives⟩ := hfirst
    · rw [if_neg herror]
      have hsecond := moneyMove_spec (d.extraHolder i num error1)
        (d.outcome (.payExtra i)) hready₁ fun ob hob ↦ by
          obtain ⟨hne, hmem⟩ := h.extraHolder i num error1 ob hob
          rw [hkeep.count, hkeep.count]
          exact ⟨hne, (hready.count_add_le hmem h.payer hne).trans_lt hfit⟩
      obtain ⟨herror₂, -, hkeep₂⟩ | ⟨hzero, hrest, m, hm, hwhole, hgives⟩ := hsecond
      · refine .inl ⟨herror₂, fun o ↦ ?_, ?_⟩
        · rw [hkeep₂.count, hkeep.count]
        · rw [hkeep₂.made, hkeep.made]
      · exact .inr ⟨hzero, hrest, _, m, hm.1.le, .inr ⟨error1, rfl⟩, fun hw ↦ hwhole hw.payExtra,
          hgives.after_keeps hkeep⟩
    · rw [if_pos rfl]
      exact .inr ⟨rfl, hrest, _, m, hm.1.le, .inl rfl, fun hw ↦ hwhole hw.pay, hgives⟩

theorem keeps_inPlace (k : Kind) (src : Obj) (num : ℤ) (w : Outcome) :
    Keeps k (moneyMove num (some src) (some src) w k).1 := by
  rw [moneyMove]
  split
  next => exact ⟨fun _ ↦ rfl, rfl⟩
  next =>
    dsimp only
    split
    next => exact ⟨fun _ ↦ rfl, rfl⟩
    next cf hsrc =>
      split
      next => exact ⟨fun _ ↦ rfl, rfl⟩
      next =>
        rw [if_pos rfl]
        refine ⟨fun o ↦ ?_, rfl⟩
        rw [count_set]
        split
        next ho =>
          rw [ho, Kind.count, hsrc]
          split <;> rfl
        next => rfl

theorem giveOne_spec (h : d.Proper S) (hr : d.receiver = some r) (hk : k.AtRest)
    (hfit : k.held S < 2 ^ 31) (i : ℕ) (num moveError : ℤ) :
    ((d.giveOne i num moveError k).2 = moveError ∧ ∃ m, 0 ≤ m ∧ (d.MovesWhole i → m = num) ∧
        Gives k (d.giveOne i num moveError k).1 r (some d.payer) m) ∨
      ((d.giveOne i num moveError k).2 ≠ 0 ∧ ∃ m, 0 ≤ m ∧
        Gives k (d.giveOne i num moveError k).1 r d.floor m) := by
  obtain ⟨hne, hmem⟩ := h.receiver r hr
  rw [giveOne, hr]
  split
  next hzero =>
    exact .inl ⟨rfl, 0, le_rfl, fun _ ↦ hzero.symm, Keeps.gives ⟨fun _ ↦ rfl, rfl⟩ _ _⟩
  next =>
    have hready := hk.ready r num
    have hfirst := moneyMove_spec (some d.payer) (d.outcome (.change i)) hready
      fun ob hob ↦ by
        obtain rfl := some.inj hob
        exact ⟨hne.symm, (hready.count_add_le h.payer hmem hne.symm).trans_lt hfit⟩
    generalize moneyMove num (some r) (some d.payer) (d.outcome (.change i)) k = first at hfirst ⊢
    obtain ⟨k₁, error1⟩ := first
    dsimp only at hfirst ⊢
    obtain ⟨herror, hready₁, hkeep⟩ | ⟨rfl, hrest, m, hm, hwhole, hgives⟩ := hfirst
    · rw [if_neg herror]
      have hcode : ∀ error2 : ℤ, (if error2 < 0 then error2 else
          if moveError = 0 then error1 else moveError) ≠ 0 := by
        intro error2
        split
        · omega
        · split <;> omega
      have hsecond : ∃ m, 0 ≤ m ∧ Gives k
          (moneyMove num (some r) d.floor (d.outcome (.drop i)) k₁).1 r d.floor m := by
        by_cases hfloor : d.floor = some r
        · rw [hfloor]
          exact ⟨0, le_rfl, ((keeps_inPlace _ r num _).gives r _).after_keeps hkeep⟩
        obtain ⟨-, -, hkeep₂⟩ | ⟨-, -, m, hm, -, hgives⟩ :=
          moneyMove_spec d.floor (d.outcome (.drop i)) hready₁ fun ob hob ↦ by
            have hob_ne : ob ≠ r := fun heq ↦ hfloor (heq ▸ hob)
            rw [hkeep.count, hkeep.count]
            exact ⟨hob_ne, (hready.count_add_le (h.floor ob hob) hmem hob_ne).trans_lt hfit⟩
        · exact ⟨0, le_rfl, (hkeep₂.gives r _).after_keeps hkeep⟩
        · exact ⟨m, hm.1.le, hgives.after_keeps hkeep⟩
      exact .inr ⟨hcode _, hsecond⟩
    · rw [if_pos rfl]
      exact .inl ⟨rfl, m, hm.1.le, fun hw ↦ hwhole hw.change, hgives⟩

/-- Somebody takes every coin that is paid. -/
def Taken (d : Deal) : Prop :=
  d.receiver ≠ none ∧ ∀ i n e, d.extraHolder i n e ≠ none

/-- What has become of one type of coins after the first loop. -/
structure Paid (d : Deal) (S : Finset Obj) (i : ℕ) (num : ℤ) (error : Option ℤ) (k k' : Kind) :
    Prop where
  conserved : Conserved S k k'
  made : d.Taken → k'.made = k.made
  atRest : error = none → k'.AtRest
  payer : error = none → d.MovesWhole i → k'.count d.payer = k.count d.payer - num

/-- What has become of one type of coins after the second loop. -/
structure Given (d : Deal) (S : Finset Obj) (i : ℕ) (num moveError : ℤ) (k k' : Kind) : Prop where
  conserved : Conserved S k k'
  made : d.floor ≠ none → k'.made = k.made
  payer : moveError = 0 → d.MovesWhole i → k'.count d.payer = k.count d.payer + num

theorem payLoop_spec (h : d.Proper S) {ks : List Kind}
    (hks : ∀ k ∈ ks, k.AtRest ∧ k.held S < 2 ^ 31) (i : ℕ) (arr : List ℤ) :
    Pointwise (fun j ↦ d.Paid S (i + j) (arr.getD j 0) (d.payLoop i arr ks).2) ks
      (d.payLoop i arr ks).1 := by
  induction ks generalizing i arr with
  | nil =>
    have hnil : d.payLoop i arr [] = ([], none) := by cases arr <;> rfl
    rw [hnil]
    exact ⟨rfl, nofun⟩
  | cons k ks ih =>
    cases arr with
    | nil =>
      refine ⟨rfl, fun j l l' hl hl' ↦ ?_⟩
      obtain rfl := some.inj (hl.symm.trans hl')
      exact ⟨.refl S l, fun _ ↦ rfl, fun _ ↦ (hks l (mem_of_getElem? hl)).1,
        fun _ _ ↦ (sub_zero _).symm⟩
    | cons num arr =>
      obtain ⟨hrest, hfit⟩ := hks k (mem_cons_self ..)
      have htail := ih (fun l hl ↦ hks l (mem_cons_of_mem k hl)) (i + 1) arr
      have hone := payOne_spec h hrest hfit i num
      rw [payLoop]
      generalize d.payOne i num k = one at hone ⊢
      obtain ⟨k₁, error2⟩ := one
      dsimp only at hone ⊢
      obtain ⟨herror, hkeep⟩ | ⟨rfl, hrest₁, target, m, hm, htarget, hwhole, hgives⟩ := hone
      · -- the error ends the payment
        rw [if_pos herror]
        refine Pointwise.cons ⟨(hkeep.gives d.payer (some d.payer)).keptAll le_rfl h.payer
          fun ob hob ↦ some.inj hob ▸ h.payer, fun _ ↦ hkeep.made, nofun, nofun⟩ ?_
        exact Pointwise.refl (fun j l ↦ ⟨.refl S l, fun _ ↦ rfl, nofun, nofun⟩) ks
      · rw [if_neg (not_not_intro rfl)]
        have hmem : ∀ ob, target = some ob → ob ≠ d.payer ∧ ob ∈ S := by
          obtain rfl | ⟨e, rfl⟩ := htarget
          · exact h.receiver
          · exact h.extraHolder i num e
        refine Pointwise.cons ⟨hgives.keptAll hm h.payer fun ob hob ↦ (hmem ob hob).2,
          fun htaken ↦ ?_, fun _ ↦ hrest₁, fun _ hw ↦ ?_⟩ ?_
        · have hne : target ≠ none := by
            obtain rfl | ⟨e, rfl⟩ := htarget
            · exact htaken.1
            · exact htaken.2 i num e
          rw [hgives.made, if_neg hne, sub_zero]
        · rw [hgives.count, if_neg fun heq ↦ (hmem d.payer heq).1 rfl, if_pos rfl, hwhole hw,
            add_zero]
          rfl
        · refine htail.mono fun j l l' hpaid ↦ ?_
          rw [Nat.add_right_comm, Nat.add_assoc] at hpaid
          exact hpaid

theorem giveLoop_spec (h : d.Proper S) (hr : d.receiver = some r) {ks : List Kind}
    (hks : ∀ k ∈ ks, k.AtRest ∧ k.held S < 2 ^ 31) (i : ℕ) (arr : List ℤ) (moveError : ℤ) :
    ((d.giveLoop i arr moveError ks).2 = 0 → moveError = 0) ∧
      Pointwise (fun j ↦ d.Given S (i + j) (arr.getD j 0) (d.giveLoop i arr moveError ks).2) ks
        (d.giveLoop i arr moveError ks).1 := by
  induction ks generalizing i arr moveError with
  | nil =>
    have hnil : d.giveLoop i arr moveError [] = ([], moveError) := by cases arr <;> rfl
    rw [hnil]
    exact ⟨id, rfl, nofun⟩
  | cons k ks ih =>
    cases arr with
    | nil =>
      refine ⟨id, rfl, fun j l l' hl hl' ↦ ?_⟩
      obtain rfl := some.inj (hl.symm.trans hl')
      exact ⟨.refl S l, fun _ ↦ rfl, fun _ _ ↦ (add_zero _).symm⟩
    | cons num arr =>
      obtain ⟨hrest, hfit⟩ := hks k (mem_cons_self ..)
      have hone := giveOne_spec h hr hrest hfit i num moveError
      obtain ⟨hne, hmem⟩ := h.receiver r hr
      rw [giveLoop]
      generalize d.giveOne i num moveError k = one at hone ⊢
      obtain ⟨k₁, moveError₁⟩ := one
      dsimp only at hone ⊢
      obtain ⟨hzero, htail⟩ :=
        ih (fun l hl ↦ hks l (mem_cons_of_mem k hl)) (i + 1) arr moveError₁
      have htail := htail.mono (T := fun j ↦ d.Given S (i + (j + 1)) ((num :: arr).getD (j + 1) 0)
          (d.giveLoop (i + 1) arr moveError₁ ks).2) fun j l l' hgiven ↦ by
        rw [Nat.add_right_comm, Nat.add_assoc] at hgiven
        exact hgiven
      obtain ⟨rfl, m, hm, hwhole, hgives⟩ | ⟨herror, m, hm, hgives⟩ := hone
      · refine ⟨hzero, Pointwise.cons ⟨hgives.keptAll hm hmem fun ob hob ↦
          some.inj hob ▸ h.payer, fun _ ↦ ?_, fun _ hw ↦ ?_⟩ htail⟩
        · rw [hgives.made, if_neg nofun, sub_zero]
        · rw [hgives.count, if_pos rfl, if_neg hne.symm, hwhole hw, sub_zero]
          rfl
      · refine ⟨fun h0 ↦ absurd (hzero h0) herror, Pointwise.cons ⟨hgives.keptAll hm hmem h.floor,
          fun hfloor ↦ ?_, fun h0 ↦ absurd (hzero h0) herror⟩ htail⟩
        rw [hgives.made, if_neg hfloor, sub_zero]

theorem payLoop_error {ks : List Kind} {error : ℤ} (i : ℕ) (arr : List ℤ)
    (he : (d.payLoop i arr ks).2 = some error) : error ≠ 0 := by
  induction ks generalizing i arr with
  | nil =>
    have hnil : d.payLoop i arr [] = ([], none) := by cases arr <;> rfl
    rw [hnil] at he
    exact absurd he nofun
  | cons k ks ih =>
    cases arr with
    | nil => exact absurd he nofun
    | cons num arr =>
      rw [payLoop] at he
      split at he
      split at he
      next herror =>
        obtain rfl := some.inj he
        omega
      next => exact ih (i + 1) arr he

/-- What has become of one type of coins. -/
structure Settled (d : Deal) (S : Finset Obj) (paid change moveError : ℤ) (i : ℕ) (k k' : Kind) :
    Prop where
  conserved : Conserved S k k'
  held : d.Taken → d.floor ≠ none → k'.held S = k.held S
  payer : moveError = 0 → d.MovesWhole i → k'.count d.payer = k.count d.payer - paid + change

/-- **No coin gets lost** however the moves go, if somebody takes it; and without an error the payer
has paid what there was to pay and got the change. -/
theorem changeMoney_settled (h : d.Proper S) (hr : d.receiver = some r) {ks : List Kind}
    (hks : ∀ k ∈ ks, k.AtRest ∧ k.held S < 2 ^ 31) (arr : List ℤ) :
    Pointwise (fun i ↦ d.Settled S (arr.getD i 0) (arr.getD (ks.length + i) 0)
      (d.changeMoney arr ks).2 i) ks (d.changeMoney arr ks).1 := by
  rw [changeMoney]
  split
  next => exact Pointwise.refl (fun i k ↦ ⟨.refl S k, fun _ _ ↦ rfl, nofun⟩) ks
  next =>
    have hpay := payLoop_spec h hks 0 (arr.take ks.length)
    have herror : ∀ error, (d.payLoop 0 (arr.take ks.length) ks).2 = some error → error ≠ 0 :=
      fun _ ↦ payLoop_error 0 _
    generalize d.payLoop 0 (arr.take ks.length) ks = paid at hpay herror ⊢
    obtain ⟨ks₁, error⟩ := paid
    dsimp only at herror
    cases error with
    | some error =>
      refine hpay.mono fun i k k' hpaid ↦ ⟨hpaid.conserved, fun htaken _ ↦ ?_, fun hzero ↦ ?_⟩
      · exact hpaid.conserved.held_eq (hpaid.made htaken)
      · exact absurd hzero (herror error rfl)
    | none =>
      dsimp only at hpay ⊢
      have hks₁ : ∀ k ∈ ks₁, k.AtRest ∧ k.held S < 2 ^ 31 := by
        intro k' hk'
        obtain ⟨j, k, hk, hpaid⟩ := hpay.of_mem hk'
        exact ⟨hpaid.atRest rfl, hpaid.conserved.held_le.trans_lt (hks k hk).2⟩
      obtain ⟨-, hgive⟩ := giveLoop_spec h hr hks₁ 0 (arr.drop ks.length) 0
      refine hpay.trans hgive fun i k k' k'' hi hpaid hgiven ↦
        ⟨hpaid.conserved.trans hgiven.conserved, fun htaken hfloor ↦ ?_, fun hzero hw ↦ ?_⟩
      · exact (hpaid.conserved.trans hgiven.conserved).held_eq
          ((hgiven.made hfloor).trans (hpaid.made htaken))
      · rw [Nat.zero_add] at hpaid hgiven
        rw [hgiven.payer hzero hw, hpaid.payer rfl hw]
        simp only [getD_eq_getElem?_getD, List.getElem?_drop, List.getElem?_take_of_lt hi]

/-! ### A purse -/

/-- The payer is 0, the receiver 1, the other holder 2 and the floor 3; every move goes well. -/
def simple : Deal where
  payer := 0
  receiver := some 1
  extraHolder _ _ _ := some 2
  floor := some 3
  outcome _ := ⟨true, none, 0⟩

/-- The payer has some coins of this type. -/
def purse (n : ℤ) : Kind :=
  ⟨fun o ↦ if o = 0 then some ⟨n, 0⟩ else none, 0⟩

theorem atRest_purse {n : ℤ} (hn : 0 < n) : (purse n).AtRest := by
  intro o p hp
  rw [purse] at hp
  dsimp only at hp
  split at hp
  · obtain rfl := some.inj hp
    exact ⟨hn, rfl⟩
  · exact absurd hp nofun

theorem proper_simple : simple.Proper {0, 1, 2, 3} where
  payer := by decide
  receiver r hr := by
    obtain rfl := some.inj hr
    decide
  extraHolder i n e x hx := by
    obtain rfl := some.inj hx
    decide
  floor f hf := by
    obtain rfl := some.inj hf
    decide

theorem changeMoney_settled_simple :
    Pointwise (fun i ↦ simple.Settled {0, 1, 2, 3} ([5, 0].getD i 0) ([5, 0].getD (1 + i) 0)
      (simple.changeMoney [5, 0] [purse 10]).2 i) [purse 10]
        (simple.changeMoney [5, 0] [purse 10]).1 :=
  changeMoney_settled proper_simple rfl
    (forall_mem_singleton.2 ⟨atRest_purse (by decide), by decide⟩) [5, 0]

/-- The receiver takes nothing, and no other holder is named. -/
def refused : Deal :=
  { simple with
    extraHolder := fun _ _ _ ↦ none
    outcome := fun _ ↦ ⟨true, none, 1⟩ }

/-- **Coins that nobody takes** are destroyed. -/
theorem not_settled : ¬∀ (d : Deal) (S : Finset Obj) (ks : List Kind) (arr : List ℤ),
    d.Proper S → d.receiver ≠ none → d.floor ≠ none →
      (∀ k ∈ ks, k.AtRest ∧ k.held S < 2 ^ 31) →
        Pointwise (fun _ k k' ↦ k'.held S = k.held S) ks (d.changeMoney arr ks).1 := by
  intro hall
  have hproper : refused.Proper {0, 1, 2, 3} :=
    ⟨proper_simple.payer, proper_simple.receiver, nofun, proper_simple.floor⟩
  have hheld := (hall refused {0, 1, 2, 3} [purse 10] [5, 0] hproper nofun nofun
    (forall_mem_singleton.2 ⟨atRest_purse (by decide), by decide⟩)).rel 0 _ _ rfl rfl
  exact absurd hheld (by decide)

end Deal

end Lpmud.Trade
