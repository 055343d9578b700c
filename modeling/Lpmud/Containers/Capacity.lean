import Lpmud.Containers.Load
import Lpmud.Trade.Transfer

/-!
# What there is place for

`move` of `/std/object.c` looks whether the destination has place for an object. A heap for which
there is not place enough is split before, to as many of its items as there is place for, and leaves
the rest behind (`leave_env` of `/std/heap.c`).

The destination is taken to be another place than the one where the object is, and the move not to
be forced; then nothing is tested. Integers have 32 bits (`int`); `Defined` says that what becomes
of a move does not depend on what an overflow gives.
-/

namespace Lpmud.Containers

open Option
open Heaps (int)
open Trade (Pile)

/-! ### What is moved -/

/-- A heap of equal items, with `HEAP_I_UNIT_WEIGHT` and `HEAP_I_UNIT_VOLUME`. -/
structure Stack where
  pile : Pile
  unitWeight : ℕ
  unitVolume : ℕ

namespace Stack

variable (i : ℤ → ℤ) (x : Stack)

/-- What some of the items weigh, and the place they take. -/
def loadOf (n : ℤ) : Load :=
  (x.unitWeight * n, x.unitVolume * n)

/-- `heap_weight` and `heap_volume`. -/
def load : Load :=
  (x.loadOf (i x.pile.numHeap)).map i

/-- How the load changes with the sizes of the heap. -/
def change (p : Pile) : Load :=
  ({ x with pile := p }.load i - x.load i).map i

end Stack

/-- An object, a container or a heap. -/
inductive Thing where
  | object (weight volume : ℕ)
  | container (c : Container)
  | heap (x : Stack)

/-- `OBJ_I_WEIGHT` and `OBJ_I_VOLUME`. -/
def Thing.load (i : ℤ → ℤ) : Thing → Load
  | object weight volume => (weight, volume)
  | container c => (c.weight i, c.volume i)
  | heap x => x.load i

/-- What is moved, with `OBJ_M_NO_DROP`, `OBJ_M_NO_INS`, `OBJ_M_NO_GET` and `OBJ_M_NO_GIVE`. -/
structure Item where
  thing : Thing
  noDrop : Bool
  noIns : Bool
  noGet : Bool
  noGive : Bool

/-! ### Place -/

/-- Why an object may not be moved, whatever it weighs. -/
def refusal (item : Item) (old : Option Container) (dest : Container) : Option ℕ :=
  let isLiveOld := old.any (·.living)
  if !dest.isIn || dest.noIns then some 5
  else if old.any (·.noRem) then some 3
  else if old.any (·.closed) then some 9
  else if isLiveOld && item.noDrop then some 2
  else if !dest.living then
    if !dest.isRoom && item.noIns then some 4
    else if dest.closed then some 10
    else none
  else if !isLiveOld && item.noGet then some 6
  else if isLiveOld && item.noGive then some 3
  else none

/-- `rw` and `rv`. -/
def Container.left (i : ℤ → ℤ) (c : Container) : Load :=
  (max 0 (i (c.maxWeight - c.weight i)), max 0 (c.volumeLeft i))

/-- A division, which is an error by zero. -/
def quotient (a b : ℤ) : Option ℤ :=
  if b = 0 then none else some (a.tdiv b)

/-- The numbers `sw` and `sv`, of which the less is what a heap is split to unless both are 0, or
the code of why not even one item can be moved. -/
def splitSizes (i : ℤ → ℤ) (left : Load) (x : Stack) : Option (Except ℕ (ℤ × ℤ)) :=
  let byWeight : Option (Except ℕ (ℤ × ℤ)) :=
    if left.1 < (x.load i).1 then
      if x.unitWeight > left.1 then some (.error 1)
      else (quotient left.1 x.unitWeight).map fun sw ↦ .ok (sw, sw)
    else some (.ok (0, 0))
  match byWeight with
  | some (.ok (sw, sv)) =>
    if left.2 < (x.load i).2 then
      if x.unitVolume > left.2 then some (.error 8)
      else (quotient left.2 x.unitVolume).map fun sv ↦ .ok (if sw = 0 then sv else sw, sv)
    else some (.ok (sw, sv))
  | r => r

/-- How a container that is in `e` weighs less there than it does. -/
def Container.reduction (i : ℤ → ℤ) (c e : Container) : Load :=
  (i (c.cur.1 - (i (c.cur.1 * 100)).tdiv e.reduceWeight),
    if c.rigid then 0 else i (c.cur.2 - (i (c.cur.2 * 100)).tdiv e.reduceVolume))

namespace World

variable (i : ℤ → ℤ) (W : World)

/-- `split_heap`, of a heap that may be somewhere. -/
def splitHeap (old : Option Obj) (x : Stack) (num : ℤ) : World × Stack :=
  let x' := { x with pile := x.pile.splitHeap num }
  if x.pile.itemCount ≤ num then (W, x')
  else (old.elim W fun env ↦ W.update i env (x.change i x'.pile), x')

/-- There is place, or there is made place by splitting a heap. -/
def makeRoom (old : Option Obj) (dest : Obj) (thing : Thing) :
    Option (Except ℕ (World × Thing)) :=
  let left := (W.box dest).left i
  if (W.box dest).isRoom then some (.ok (W, thing))
  else
    match thing with
    | .heap x =>
      (splitSizes i left x).map fun
        | .error code => .error code
        | .ok (sw, sv) =>
          if sw ≠ 0 ∨ sv ≠ 0 then
            let (W', x') := W.splitHeap i old x (if sw < sv then sw else sv)
            .ok (W', .heap x')
          else .ok (W, thing)
    | thing =>
      if left.1 < (thing.load i).1 then some (.error 1)
      else if left.2 < (thing.load i).2 then some (.error 8)
      else some (.ok (W, thing))

/-- `enter_env` of a heap, which is merged into another one if there is one that it can be merged
into, and `enter_inv` of the container. -/
def enterHeap (dest : Obj) (x : Stack) (merge : Option Stack) : World × Stack :=
  match merge with
  | none => (W.update i dest (x.load i), x)
  | some t =>
    let p := t.pile.setHeapSize (i (x.pile.itemCount + i t.pile.numHeap))
    let x' := { x with pile := { x.pile with leaveBehind := 0 } }
    (((W.update i dest (t.change i p)).update i dest ((-x'.load i).map i)).update i dest
      (x'.load i), x')

/-- `leave_env` and `leave_inv`, with what is left behind of a heap. -/
def leave (old : Obj) (thing : Thing) (merge : Option Stack) : World × Thing × Option Stack :=
  match thing with
  | .object .. => (W.update i old ((-thing.load i).map i), thing, none)
  | .container c =>
    ((W.update i old (c.reduction i (W.box old))).update i old ((-thing.load i).map i), thing, none)
  | .heap x =>
    match x.pile.left with
    | none => (W.update i old ((-thing.load i).map i), thing, none)
    | some p =>
      let (W', rest) := W.enterHeap i old { x with pile := p } merge
      let x' := { x with pile := x.pile.gone }
      (W'.update i old ((-x'.load i).map i), .heap x', some rest)

/-- `enter_env` and `enter_inv`. -/
def enter (dest : Obj) (thing : Thing) (merge : Option Stack) : World × Thing :=
  match thing with
  | .object .. => (W.update i dest (thing.load i), thing)
  | .container c =>
    ((W.update i dest ((-c.reduction i (W.box dest)).map i)).update i dest (thing.load i), thing)
  | .heap x =>
    let (W', x') := W.enterHeap i dest x merge
    (W', .heap x')

end World

/-- What `move` returns, and what becomes of everything. -/
structure Moved where
  code : ℕ
  world : World
  thing : Thing
  /-- what is left behind of a heap -/
  rest : Option Stack

/-- Where an object is moved: what `prevent_leave` and `prevent_enter` say, and the heaps with which
a heap is merged, if there are such heaps. -/
structure Journey where
  old : Option Obj
  dest : Obj
  preventLeave : Bool
  preventEnter : Bool
  mergeOld : Option Stack
  mergeDest : Option Stack

/-- `move`, unless it divides by zero. -/
def World.move (i : ℤ → ℤ) (W : World) (j : Journey) (item : Item) : Option Moved :=
  match refusal item (j.old.map W.box) (W.box j.dest) with
  | some code => some ⟨code, W, item.thing, none⟩
  | none =>
    (W.makeRoom i j.old j.dest item.thing).map fun
      | .error code => ⟨code, W, item.thing, none⟩
      | .ok (W, thing) =>
        if (j.old.isSome && j.preventLeave) || j.preventEnter then ⟨7, W, thing, none⟩
        else
          let (W, thing, rest) := j.old.elim (W, thing, none) (W.leave i · thing j.mergeOld)
          let (W, thing) := W.enter i j.dest thing j.mergeDest
          ⟨0, W, thing, rest⟩

/-! ### What it is to do -/

/-- There is place for some items of a heap. -/
def Fits (left : Load) (x : Stack) (n : ℤ) : Prop :=
  x.loadOf n ≤ left

/-- Another heap of the same items. -/
structure Alike (x t : Stack) : Prop where
  sound : t.pile.Sound
  unitWeight : t.unitWeight = x.unitWeight
  unitVolume : t.unitVolume = x.unitVolume

/-- What is moved is in order: the contents of a container do not weigh less than nothing, nor more
where it is moved than where it was, and a heap is not split before, unless it is moved to where it
is not in already, and is merged with heaps of the same items. -/
def Orderly (W : World) (j : Journey) (old : Obj) : Thing → Prop
  | .object .. => True
  | .container c => 0 ≤ c.cur ∧ (c.rigid → 0 ≤ c.maxVolume) ∧
    100 ≤ (W.box j.dest).reduceWeight ∧ 100 ≤ (W.box j.dest).reduceVolume
  | .heap x => x.pile.Sound ∧ (x.pile.leaveBehind = 0 ∨ j.dest ∉ W.chain old) ∧
    (∀ t ∈ j.mergeOld, Alike x t) ∧ ∀ t ∈ j.mergeDest, Alike x t

/-- What becomes of a move does not depend on what an overflow of an integer gives. -/
def Defined (W : World) (j : Journey) (item : Item) : Prop :=
  ∀ i : ℤ → ℤ, (∀ z, -2 ^ 31 ≤ z → z < 2 ^ 31 → i z = z) → W.move i j item = W.move int j item

/-- No more has been put into a container than there is place for. -/
structure Within (c c' : Container) : Prop where
  weight_le : c'.weight id ≤ max c.maxWeight (c.weight id)
  volumeLeft_le : min 0 (c.volumeLeft id) ≤ c'.volumeLeft id

/-- As many items of a heap as there is place for are moved, one at least, and the others are left
behind. -/
structure Parted (left : Load) (x : Stack) (r : Moved) : Prop where
  refused : r.code = 1 ∨ r.code = 8 → ¬Fits left x 1
  moved : r.code = 0 → ∃ n, IsGreatest {n | n ≤ x.pile.numHeap ∧ Fits left x n} n ∧ 1 ≤ n ∧
    r.thing = .heap { x with pile := ⟨n, 0⟩ } ∧
    r.rest = if x.pile.itemCount = n then none
      else some { x with pile := ⟨x.pile.itemCount - n, 0⟩ }

/-! ### Splitting a heap -/

variable {W : World} {x : Stack} {left : Load} {n : ℤ}

theorem quotient_spec {u : ℕ} {r : ℤ} (hr : 0 ≤ r) (hlt : r < u * n) (hu : ¬(u : ℤ) > r) :
    ∃ q, quotient r u = some q ∧ 1 ≤ q ∧ q < n ∧ u * q ≤ r ∧ r < u * (q + 1) := by
  obtain hzero | hpos := Nat.eq_zero_or_pos u
  · rw [hzero, Int.natCast_zero, Int.zero_mul] at hlt
    exact absurd hr (not_le.2 hlt)
  have hpos : (0 : ℤ) < u := Int.natCast_pos.2 hpos
  rw [quotient, if_neg hpos.ne', Int.tdiv_eq_ediv_of_nonneg hr]
  have hle := Int.mul_ediv_self_le (x := r) hpos.ne'
  have hnext := Int.lt_mul_ediv_self_add (x := r) hpos
  refine ⟨_, rfl, Int.le_ediv_of_mul_le hpos (by omega), Int.ediv_lt_of_lt_mul hpos ?_, hle, ?_⟩
  · rwa [Int.mul_comm]
  · rwa [Int.mul_add, Int.mul_one]

theorem Stack.load_id (x : Stack) : x.load id = x.loadOf x.pile.numHeap :=
  rfl

theorem loadOf_mono (x : Stack) {m n : ℤ} (h : m ≤ n) : x.loadOf m ≤ x.loadOf n :=
  ⟨Int.mul_le_mul_of_nonneg_left h (Int.natCast_nonneg _),
    Int.mul_le_mul_of_nonneg_left h (Int.natCast_nonneg _)⟩

theorem fits_iff {m : ℤ} :
    Fits left x m ↔ x.unitWeight * m ≤ left.1 ∧ x.unitVolume * m ≤ left.2 :=
  Iff.rfl

/-- **What a heap is split to**: nothing if it fits, an error if not one item does, and else the
greatest part that fits. It is never divided by zero. -/
theorem splitSizes_spec (x : Stack) (hleft : 0 ≤ left) :
    (Fits left x x.pile.numHeap ∧ splitSizes id left x = some (.ok (0, 0))) ∨
    (∃ code, splitSizes id left x = some (.error code) ∧ code ≠ 0 ∧ ¬Fits left x 1) ∨
    ∃ sw sv m, splitSizes id left x = some (.ok (sw, sv)) ∧ (sw ≠ 0 ∨ sv ≠ 0) ∧
      (if sw < sv then sw else sv) = m ∧ 1 ≤ m ∧ m < x.pile.numHeap ∧ Fits left x m ∧
        ¬Fits left x (m + 1) := by
  simp only [fits_iff]
  have hload : x.load id = (x.unitWeight * x.pile.numHeap, x.unitVolume * x.pile.numHeap) := rfl
  have hleft₁ : 0 ≤ left.1 := hleft.1
  have hleft₂ : 0 ≤ left.2 := hleft.2
  obtain ⟨weight, hweight⟩ : ∃ u : ℕ, u = x.unitWeight := ⟨_, rfl⟩
  obtain ⟨volume, hvolume⟩ : ∃ u : ℕ, u = x.unitVolume := ⟨_, rfl⟩
  rw [splitSizes, hload, ← hweight, ← hvolume]
  generalize x.pile.numHeap = n
  dsimp only
  obtain hw | hw := lt_or_ge left.1 (weight * n)
  · rw [if_pos hw]
    obtain hone | hone := lt_or_ge left.1 (weight : ℤ)
    · rw [if_pos hone]
      exact .inr (.inl ⟨1, rfl, by decide, by omega⟩)
    obtain ⟨sw, hsw, hsw_pos, hsw_lt, hsw_le, hsw_next⟩ := quotient_spec hleft₁ hw (by omega)
    rw [if_neg (by omega), hsw, map_some]
    obtain hv | hv := lt_or_ge left.2 (volume * n)
    · dsimp only
      rw [if_pos hv]
      obtain hone' | hone' := lt_or_ge left.2 (volume : ℤ)
      · rw [if_pos hone']
        exact .inr (.inl ⟨8, rfl, by decide, by omega⟩)
      -- both the weight and the volume are too great, and the less number fits
      obtain ⟨sv, hsv, hsv_pos, hsv_lt, hsv_le, hsv_next⟩ := quotient_spec hleft₂ hv (by omega)
      rw [if_neg (by omega), hsv, map_some, if_neg (by omega)]
      refine .inr (.inr ⟨sw, sv, _, rfl, .inl (by omega), rfl, ?_⟩)
      split
      next hlt =>
        have hmul := Int.mul_le_mul_of_nonneg_left hlt.le (Int.natCast_nonneg volume)
        exact ⟨hsw_pos, hsw_lt, ⟨hsw_le, hmul.trans hsv_le⟩, fun h ↦ by omega⟩
      next hge =>
        have hmul := Int.mul_le_mul_of_nonneg_left (not_lt.1 hge) (Int.natCast_nonneg weight)
        exact ⟨hsv_pos, hsv_lt, ⟨hmul.trans hsw_le, hsv_le⟩, fun h ↦ by omega⟩
    · dsimp only
      rw [if_neg (not_lt.2 hv)]
      have hmul := Int.mul_le_mul_of_nonneg_left hsw_lt.le (Int.natCast_nonneg volume)
      exact .inr (.inr ⟨sw, sw, sw, rfl, .inl (by omega), ite_self sw, hsw_pos, hsw_lt,
        ⟨hsw_le, hmul.trans hv⟩, fun h ↦ by omega⟩)
  · rw [if_neg (not_lt.2 hw)]
    dsimp only
    obtain hv | hv := lt_or_ge left.2 (volume * n)
    · rw [if_pos hv]
      obtain hone' | hone' := lt_or_ge left.2 (volume : ℤ)
      · rw [if_pos hone']
        exact .inr (.inl ⟨8, rfl, by decide, by omega⟩)
      obtain ⟨sv, hsv, hsv_pos, hsv_lt, hsv_le, hsv_next⟩ := quotient_spec hleft₂ hv (by omega)
      rw [if_neg (by omega), hsv, map_some, if_pos rfl]
      have hmul := Int.mul_le_mul_of_nonneg_left hsv_lt.le (Int.natCast_nonneg weight)
      exact .inr (.inr ⟨sv, sv, sv, rfl, .inl (by omega), ite_self sv, hsv_pos, hsv_lt,
        ⟨hmul.trans hw, hsv_le⟩, fun h ↦ by omega⟩)
    · rw [if_neg (not_lt.2 hv)]
      exact .inl ⟨⟨hw, hv⟩, rfl⟩

/-! ### What the destination gains -/

theorem loadOf_zero (x : Stack) : x.loadOf 0 = 0 := by
  rw [Stack.loadOf, Int.mul_zero, Int.mul_zero]
  rfl

theorem loadOf_sub (x : Stack) (m n : ℤ) : x.loadOf (m - n) = x.loadOf m - x.loadOf n := by
  rw [Stack.loadOf, Int.mul_sub, Int.mul_sub]
  rfl

theorem loadOf_nonneg (x : Stack) (hn : 0 ≤ n) : 0 ≤ x.loadOf n :=
  loadOf_zero x ▸ loadOf_mono x hn

theorem Alike.load_le {t : Stack} (h : Alike x t) (hx : 0 ≤ x.pile.itemCount) :
    { t with pile := t.pile.setHeapSize (x.pile.itemCount + t.pile.numHeap) }.load id - t.load id ≤
      x.loadOf x.pile.itemCount := by
  obtain ⟨⟨hnonneg, hlt⟩, hweight, hvolume⟩ := h
  have hunit : ∀ p : Pile, { t with pile := p }.load id = x.loadOf p.numHeap := by
    intro p
    rw [Stack.load_id, Stack.loadOf, Stack.loadOf, hweight, hvolume]
  have ht : t.load id = x.loadOf t.pile.numHeap := hunit t.pile
  rw [hunit, ht, ← loadOf_sub]
  refine loadOf_mono x ?_
  rw [Pile.setHeapSize, Pile.numHeap, Pile.numHeap]
  dsimp only
  rw [if_neg (by omega)]
  omega

variable {c o : Obj} {merge : Option Stack}

theorem enterHeap_spec (W : World) (c : Obj) (hsplit : x.pile.leaveBehind = 0)
    (hx : 0 ≤ x.pile.itemCount) (hmerge : ∀ t ∈ merge, Alike x t) :
    ∃ f, W.enterHeap id c x merge = (W.addLoad f, x) ∧
      ∀ o, f o ≤ W.gain c (x.loadOf x.pile.itemCount) o := by
  have hload : x.load id = x.loadOf x.pile.itemCount := by
    rw [Stack.load_id, Pile.numHeap, hsplit, Int.sub_zero]
  cases merge with
  | none =>
    refine ⟨W.gain c (x.load id), ?_, fun o ↦ by rw [hload]⟩
    rw [World.enterHeap, World.update_eq]
  | some t =>
    have hx' : { x with pile := { x.pile with leaveBehind := 0 } } = x := by
      rw [← hsplit]
    refine ⟨W.gain c
      ({ t with pile := t.pile.setHeapSize (x.pile.itemCount + t.pile.numHeap) }.load id -
        t.load id), ?_, W.gain_mono c ((hmerge t rfl).load_le hx)⟩
    rw [World.enterHeap]
    dsimp only
    rw [hx']
    -- what the heap weighs itself is taken off and added again
    simp only [World.update_eq, World.gain_addLoad, World.addLoad_addLoad, World.gain_neg,
      neg_add_cancel_right, Stack.change, Load.map_id, id_eq]

/-- A heap leaves a container: what it leaves behind adds to the account, and what is moved is taken
off. -/
theorem leave_heap (W : World) (c : Obj) (hx : x.pile.Sound)
    (hmerge : ∀ t ∈ merge, Alike x t) :
    ∃ f, W.leave id c (.heap x) merge = (W.addLoad f, .heap { x with pile := ⟨x.pile.numHeap, 0⟩ },
        if x.pile.itemCount = x.pile.numHeap then none
        else some { x with pile := ⟨x.pile.itemCount - x.pile.numHeap, 0⟩ }) ∧
      ∀ o, f o ≤ W.gain c (x.loadOf (x.pile.itemCount - x.pile.numHeap)) o -
        W.gain c (x.loadOf x.pile.numHeap) o := by
  have hlt := hx.lt
  have hnonneg := hx.nonneg
  have hnum : x.pile.numHeap = x.pile.itemCount - x.pile.leaveBehind := rfl
  rw [World.leave]
  obtain hzero | hne := eq_or_ne x.pile.leaveBehind 0
  · have hall : x.pile.itemCount = x.pile.numHeap := by omega
    have hpile : (⟨x.pile.numHeap, 0⟩ : Pile) = x.pile := by rw [← hall, ← hzero]
    rw [Pile.left, if_pos (.inl hzero), if_pos hall, hpile]
    refine ⟨W.gain c (-x.load id), by rw [World.update_eq]; rfl, fun o ↦ ?_⟩
    rw [← hall, Int.sub_self, loadOf_zero, World.gain_zero, World.gain_neg, zero_sub, hall]
    exact le_rfl
  · rw [Pile.left, if_neg (by omega), if_neg (by omega)]
    dsimp only
    have hrest : (⟨x.pile.leaveBehind, 0⟩ : Pile) = ⟨x.pile.itemCount - x.pile.numHeap, 0⟩ := by
      rw [hnum, Int.sub_sub_self]
    have hgone : x.pile.gone = ⟨x.pile.numHeap, 0⟩ := by
      rw [Pile.gone, if_neg (by omega)]
      rfl
    have halike : ∀ t ∈ merge,
        Alike { x with pile := ⟨x.pile.itemCount - x.pile.numHeap, 0⟩ } t := fun t ht ↦
      ⟨(hmerge t ht).sound, (hmerge t ht).unitWeight, (hmerge t ht).unitVolume⟩
    obtain ⟨f, henter, hf⟩ := enterHeap_spec W c rfl
      (show 0 ≤ x.pile.itemCount - x.pile.numHeap by omega) halike
    rw [hrest, hgone, henter]
    dsimp only
    refine ⟨fun o ↦ f o + W.gain c (-x.load id) o, ?_, fun o ↦ ?_⟩
    · rw [World.update_eq, World.gain_addLoad, World.addLoad_addLoad, Load.map_id]
      have hmoved : { x with pile := (⟨x.pile.numHeap, 0⟩ : Pile) }.load id = x.load id := by
        show x.loadOf (x.pile.numHeap - 0) = _
        rw [Int.sub_zero]
        rfl
      rw [hmoved]
    · dsimp only
      rw [World.gain_neg, sub_eq_add_neg]
      exact add_le_add_left (hf o) _

theorem makeRoom_heap (W : World) (old dest : Obj) (hroom : (W.box dest).isRoom = false)
    (hx : x.pile.Sound) :
    (∃ code, W.makeRoom id (some old) dest (.heap x) = some (.error code) ∧ code ≠ 0 ∧
        ¬Fits ((W.box dest).left id) x 1) ∨
      ∃ p : Pile, W.makeRoom id (some old) dest (.heap x) =
          some (.ok (W.addLoad (W.gain old (x.loadOf p.numHeap - x.load id)),
            .heap { x with pile := p })) ∧
        p.Sound ∧ p.itemCount = x.pile.itemCount ∧
        IsGreatest {n | n ≤ x.pile.numHeap ∧ Fits ((W.box dest).left id) x n} p.numHeap := by
  have hleft : 0 ≤ (W.box dest).left id := ⟨le_max_left _ _, le_max_left _ _⟩
  rw [World.makeRoom, hroom, if_neg Bool.false_ne_true]
  dsimp only
  obtain ⟨hfits, hsizes⟩ | ⟨code, hsizes, hcode, hone⟩ |
    ⟨sw, sv, m, hsizes, hne, hm, hpos, hlt, hfits, hnext⟩ := splitSizes_spec x hleft
  · refine .inr ⟨x.pile, ?_, hx, rfl, ⟨le_rfl, hfits⟩, fun n hn ↦ hn.1⟩
    rw [hsizes, map_some]
    dsimp only
    rw [if_neg (by simp), Stack.load_id, sub_self]
    have hzero : W.gain old 0 = fun _ ↦ 0 := funext fun o ↦ World.gain_zero W old o
    rw [hzero, World.addLoad_zero]
  · refine .inl ⟨code, ?_, hcode, hone⟩
    rw [hsizes]
    rfl
  · obtain ⟨hsound, hcount, hnum⟩ := hx.splitHeap hpos hlt
    refine .inr ⟨x.pile.splitHeap m, ?_, hsound, hcount, ?_⟩
    · rw [hsizes, map_some]
      dsimp only
      have hle := hx.numHeap_le
      rw [if_pos hne, hm, World.splitHeap, if_neg (by omega), elim_some, World.update_eq]
      rfl
    · rw [hnum]
      refine ⟨⟨hlt.le, hfits⟩, fun n hn ↦ ?_⟩
      by_contra hgt
      exact hnext ((loadOf_mono x (by omega)).trans hn.2)

theorem volumeLeft_eq (c : Container) : c.volumeLeft id = c.maxVolume - c.ownVolume - c.cur.2 := by
  rw [Container.volumeLeft, Container.volume]
  split
  next => rfl
  next => exact (Int.sub_sub _ _ _).symm

theorem within_add {c : Container} {l : Load} (h : l ≤ c.left id) : Within c (c.add id l) := by
  have hweight : l.1 ≤ max 0 (c.maxWeight - c.weight id) := h.1
  have hvolume : l.2 ≤ max 0 (c.volumeLeft id) := h.2
  have hadd : (c.add id l).weight id = c.weight id + l.1 := (Int.add_assoc _ _ _).symm
  have hadd' : (c.add id l).volumeLeft id = c.volumeLeft id - l.2 := by
    rw [volumeLeft_eq, volumeLeft_eq]
    show c.maxVolume - c.ownVolume - (c.cur.2 + l.2) = _
    omega
  constructor
  · omega
  · omega

variable {j : Journey} {item : Item} {old : Obj} {r : Moved}

theorem refusal_ne {e : Option Container} {e' : Container} {code : ℕ}
    (h : refusal item e e' = some code) : code ≠ 0 ∧ code ≠ 1 ∧ code ≠ 8 := by
  rw [refusal] at h
  repeat' split at h
  all_goals cases h
  all_goals decide

theorem move_cases (W : World) (item : Item) (hold : j.old = some old) :
    (∃ r, W.move id j item = some r ∧ r.code ≠ 0 ∧ r.code ≠ 1 ∧ r.code ≠ 8) ∨
      W.move id j item = (W.makeRoom id (some old) j.dest item.thing).map fun
        | .error code => ⟨code, W, item.thing, none⟩
        | .ok (W, thing) =>
          if j.preventLeave || j.preventEnter then ⟨7, W, thing, none⟩
          else
            ⟨0, ((W.leave id old thing j.mergeOld).1.enter id j.dest
                (W.leave id old thing j.mergeOld).2.1 j.mergeDest).1,
              ((W.leave id old thing j.mergeOld).1.enter id j.dest
                (W.leave id old thing j.mergeOld).2.1 j.mergeDest).2,
              (W.leave id old thing j.mergeOld).2.2⟩ := by
  rw [World.move, hold]
  cases hrefusal : refusal item ((some old).map W.box) (W.box j.dest) with
  | some code =>
    obtain ⟨h0, h1, h8⟩ := refusal_ne hrefusal
    exact .inl ⟨_, rfl, h0, h1, h8⟩
  | none => exact .inr rfl

/-- What a heap of which `n` items are moved adds to the account of the destination: if it was not
split before, what is left behind is where it was, and if it was the destination is not around it.
-/
theorem heap_gain (W : World) {n : ℤ} {f g : Obj → Load} {dest : Obj} (hn : 0 ≤ n)
    (hsplit : x.pile.leaveBehind = 0 ∨ dest ∉ W.chain old)
    (hf : f dest ≤ W.gain old (x.loadOf (x.pile.itemCount - n)) dest - W.gain old (x.loadOf n) dest)
    (hg : g dest ≤ x.loadOf n) :
    W.gain old (x.loadOf n - x.load id) dest + f dest + g dest ≤ x.loadOf n := by
  obtain hzero | hout := hsplit
  · have hload : x.loadOf n - x.load id = -x.loadOf (x.pile.itemCount - n) := by
      rw [Stack.load_id, Pile.numHeap, hzero, Int.sub_zero, loadOf_sub, neg_sub]
    have hgain : 0 ≤ W.gain old (x.loadOf n) dest :=
      W.gain_zero old dest ▸ W.gain_mono old (loadOf_nonneg x hn) dest
    rw [hload, World.gain_neg]
    generalize W.gain old (x.loadOf (x.pile.itemCount - n)) dest = a at hf ⊢
    generalize W.gain old (x.loadOf n) dest = b at hf hgain
    calc -a + f dest + g dest ≤ -a + (a - b) + x.loadOf n :=
          add_le_add (add_le_add le_rfl hf) hg
      _ = x.loadOf n - b := by abel
      _ ≤ x.loadOf n := sub_le_self _ hgain
  · rw [W.gain_of_notMem hout, W.gain_of_notMem hout, sub_self] at hf
    rw [W.gain_of_notMem hout, zero_add]
    calc f dest + g dest ≤ 0 + x.loadOf n := add_le_add hf hg
      _ = x.loadOf n := zero_add _

/-- **A heap is moved as far as there is place**: the greatest part that fits, if one item does. -/
theorem move_heap (W : World) (hold : j.old = some old)
    (hroom : (W.box j.dest).isRoom = false) (hitem : item.thing = .heap x)
    (hx : x.pile.Sound) (hsplit : x.pile.leaveBehind = 0 ∨ j.dest ∉ W.chain old)
    (hmergeOld : ∀ t ∈ j.mergeOld, Alike x t) (hmergeDest : ∀ t ∈ j.mergeDest, Alike x t) :
    ∃ r, W.move id j item = some r ∧
      (r.code = 0 → Within (W.box j.dest) (r.world.box j.dest)) ∧
        Parted ((W.box j.dest).left id) x r := by
  obtain ⟨r, hmove, h0, h1, h8⟩ | hmove := move_cases W item hold
  · exact ⟨r, hmove, fun h ↦ absurd h h0, fun h ↦ (h.elim h1 h8).elim, fun h ↦ absurd h h0⟩
  rw [hitem] at hmove
  obtain ⟨code, hmake, hcode, hone⟩ | ⟨p, hmake, hp, hcount, hgreatest⟩ :=
    makeRoom_heap W old j.dest hroom hx
  · rw [hmake, map_some] at hmove
    exact ⟨_, hmove, fun h ↦ absurd h hcode, fun _ ↦ hone, fun h ↦ absurd h hcode⟩
  rw [hmake, map_some] at hmove
  dsimp only at hmove
  split at hmove
  next =>
    have h7 : (7 : ℕ) ≠ 0 ∧ ¬((7 : ℕ) = 1 ∨ 7 = 8) := by decide
    exact ⟨_, hmove, fun h ↦ absurd h h7.1, fun h ↦ absurd h h7.2, fun h ↦ absurd h h7.1⟩
  next =>
    have halike : ∀ {t : Stack} (q : Pile), Alike x t → Alike { x with pile := q } t :=
      fun q h ↦ ⟨h.sound, h.unitWeight, h.unitVolume⟩
    have hpos := hp.numHeap_pos
    obtain ⟨f, hleave, hf⟩ := leave_heap (x := { x with pile := p })
      (W.addLoad (W.gain old (x.loadOf p.numHeap - x.load id))) old hp fun t ht ↦
        halike p (hmergeOld t ht)
    obtain ⟨g, henter, hg⟩ := enterHeap_spec (x := { x with pile := ⟨p.numHeap, 0⟩ })
      ((W.addLoad (W.gain old (x.loadOf p.numHeap - x.load id))).addLoad f) j.dest rfl hpos.le
      fun t ht ↦ halike _ (hmergeDest t ht)
    have hf := hf j.dest
    have hg := hg j.dest
    rw [World.gain_addLoad, World.gain_addLoad, World.gain_self] at hg
    rw [World.gain_addLoad, World.gain_addLoad] at hf
    dsimp only at hf hg hleave
    rw [hcount] at hf hleave
    rw [hleave] at hmove
    dsimp only [World.enter] at hmove
    rw [henter] at hmove
    refine ⟨_, hmove, fun _ ↦ ?_, fun h ↦ ?_, fun _ ↦ ⟨p.numHeap, hgreatest, hpos, rfl, rfl⟩⟩
    · dsimp only
      rw [World.addLoad_addLoad, World.addLoad_addLoad, World.box_addLoad, ← add_assoc]
      exact within_add ((heap_gain W hpos.le hsplit hf hg).trans hgreatest.1.2)
    · have h0 : ¬((0 : ℕ) = 1 ∨ 0 = 8) := by decide
      exact absurd h h0

theorem makeRoom_whole (W : World) (e : Option Obj) (dest : Obj) {thing : Thing}
    (hroom : (W.box dest).isRoom = false) (hthing : ∀ x, thing ≠ .heap x) :
    (∃ code, W.makeRoom id e dest thing = some (.error code) ∧ code ≠ 0) ∨
      W.makeRoom id e dest thing = some (.ok (W, thing)) ∧
        thing.load id ≤ (W.box dest).left id := by
  have hmake : W.makeRoom id e dest thing =
      if ((W.box dest).left id).1 < (thing.load id).1 then some (.error 1)
      else if ((W.box dest).left id).2 < (thing.load id).2 then some (.error 8)
      else some (.ok (W, thing)) := by
    cases thing with
    | heap x => exact absurd rfl (hthing x)
    | object weight volume =>
      rw [World.makeRoom, hroom, if_neg Bool.false_ne_true]
      exact nofun
    | container c =>
      rw [World.makeRoom, hroom, if_neg Bool.false_ne_true]
      exact nofun
  rw [hmake]
  split
  next => exact .inl ⟨1, rfl, by decide⟩
  next hweight =>
    split
    next => exact .inl ⟨8, rfl, by decide⟩
    next hvolume => exact .inr ⟨rfl, not_lt.1 hweight, not_lt.1 hvolume⟩

theorem reduction_le {c e : Container} (hcur : 0 ≤ c.cur) (hrigid : c.rigid → 0 ≤ c.maxVolume) :
    c.reduction id e ≤ (c.weight id, c.volume id) := by
  have hcur₁ : 0 ≤ c.cur.1 := hcur.1
  have hcur₂ : 0 ≤ c.cur.2 := hcur.2
  refine ⟨?_, ?_⟩
  · have hdiv := Int.tdiv_nonneg (show 0 ≤ c.cur.1 * 100 by omega) e.reduceWeight_pos.le
    show c.cur.1 - (c.cur.1 * 100).tdiv e.reduceWeight ≤ c.ownWeight + c.cur.1
    omega
  · have hdiv := Int.tdiv_nonneg (show 0 ≤ c.cur.2 * 100 by omega) e.reduceVolume_pos.le
    show (if c.rigid then 0 else c.cur.2 - (c.cur.2 * 100).tdiv e.reduceVolume) ≤ c.volume id
    rw [Container.volume, id_eq]
    split
    next h => exact hrigid h
    next => omega

theorem reduction_nonneg {c e : Container} (hcur : 0 ≤ c.cur) (hweight : 100 ≤ e.reduceWeight)
    (hvolume : 100 ≤ e.reduceVolume) : 0 ≤ c.reduction id e := by
  have htdiv : ∀ {a b : ℤ}, 0 ≤ a → 100 ≤ b → 0 ≤ a - (a * 100).tdiv b := by
    intro a b ha hb
    rw [Int.tdiv_eq_ediv_of_nonneg (by omega)]
    have hle : a * 100 / b ≤ a :=
      Int.ediv_le_of_le_mul (by omega) (Int.mul_le_mul_of_nonneg_left hb ha)
    omega
  refine ⟨htdiv hcur.1 hweight, ?_⟩
  show 0 ≤ if c.rigid then 0 else c.cur.2 - (c.cur.2 * 100).tdiv e.reduceVolume
  split
  next => exact le_rfl
  next => exact htdiv hcur.2 hvolume

theorem whole_gain (W : World) {thing : Thing} (hthing : ∀ x, thing ≠ .heap x)
    (horderly : Orderly W j old thing) (e e' : Option Stack) :
    ∃ f g, W.leave id old thing e = (W.addLoad f, thing, none) ∧
      (W.addLoad f).enter id j.dest thing e' = ((W.addLoad f).addLoad g, thing) ∧
        f j.dest + g j.dest ≤ thing.load id := by
  cases thing with
  | heap x => exact absurd rfl (hthing x)
  | object weight volume =>
    refine ⟨W.gain old (-Thing.load id (.object weight volume)),
      W.gain j.dest (Thing.load id (.object weight volume)), ?_, ?_, ?_⟩
    · rw [World.leave, World.update_eq, Load.map_id]
    · rw [World.enter, World.update_eq, World.gain_addLoad]
    · have hload : 0 ≤ Thing.load id (.object weight volume) :=
        ⟨Int.natCast_nonneg weight, Int.natCast_nonneg volume⟩
      have hgain : 0 ≤ W.gain old (Thing.load id (.object weight volume)) j.dest :=
        W.gain_zero old j.dest ▸ W.gain_mono old hload j.dest
      rw [World.gain_neg, World.gain_self]
      exact add_le_of_nonpos_left (neg_nonpos.2 hgain)
  | container c =>
    obtain ⟨hcur, hrigid, hweight, hvolume⟩ := horderly
    refine ⟨fun o ↦ W.gain old (c.reduction id (W.box old)) o +
        W.gain old (-Thing.load id (.container c)) o,
      fun o ↦ W.gain j.dest (-c.reduction id (W.box j.dest)) o +
        W.gain j.dest (Thing.load id (.container c)) o, ?_, ?_, ?_⟩
    · rw [World.leave]
      simp only [World.update_eq, World.gain_addLoad, World.addLoad_addLoad, Load.map_id]
    · rw [World.enter]
      simp only [World.update_eq, World.gain_addLoad, World.addLoad_addLoad, add_assoc]
      rfl
    · dsimp only
      have hleave : W.gain old (c.reduction id (W.box old)) j.dest ≤
          W.gain old (Thing.load id (.container c)) j.dest :=
        W.gain_mono old (reduction_le hcur hrigid) j.dest
      rw [World.gain_neg, World.gain_self, World.gain_self]
      refine (add_le_of_nonpos_left ?_).trans (add_le_of_nonpos_left ?_)
      · rw [← sub_eq_add_neg]
        exact sub_nonpos.2 hleave
      · exact neg_nonpos.2 (reduction_nonneg hcur hweight hvolume)

/-- **A move respects what there is place for.** -/
theorem move_respects (W : World) (j : Journey) (item : Item) (hold : j.old = some old)
    (hroom : (W.box j.dest).isRoom = false) (horderly : Orderly W j old item.thing)
    (hdefined : Defined W j item) : ∃ r, W.move int j item = some r ∧
      (r.code = 0 → Within (W.box j.dest) (r.world.box j.dest)) ∧
        ∀ x, item.thing = .heap x → Parted ((W.box j.dest).left id) x r := by
  rw [← hdefined id fun _ _ _ ↦ rfl]
  by_cases hheap : ∃ x, item.thing = .heap x
  · obtain ⟨x, hitem⟩ := hheap
    rw [hitem] at horderly
    obtain ⟨hx, hsplit, hmergeOld, hmergeDest⟩ := horderly
    obtain ⟨r, hmove, hwithin, hparted⟩ :=
      move_heap W hold hroom hitem hx hsplit hmergeOld hmergeDest
    refine ⟨r, hmove, hwithin, fun y hy ↦ ?_⟩
    obtain rfl := Thing.heap.inj (hitem.symm.trans hy)
    exact hparted
  have hwhole : ∀ x, item.thing ≠ .heap x := fun x hx ↦ hheap ⟨x, hx⟩
  obtain ⟨r, hmove, h0, -⟩ | hmove := move_cases W item hold
  · exact ⟨r, hmove, fun h ↦ absurd h h0, fun x hx ↦ absurd hx (hwhole x)⟩
  obtain ⟨code, hmake, hcode⟩ | ⟨hmake, hfits⟩ :=
    makeRoom_whole W (some old) j.dest hroom hwhole
  · rw [hmake, map_some] at hmove
    exact ⟨_, hmove, fun h ↦ absurd h hcode, fun x hx ↦ absurd hx (hwhole x)⟩
  obtain ⟨f, g, hleave, henter, hgain⟩ :=
    whole_gain W hwhole horderly j.mergeOld j.mergeDest
  rw [hmake, map_some] at hmove
  dsimp only at hmove
  split at hmove
  next =>
    have h7 : (7 : ℕ) ≠ 0 := by decide
    exact ⟨_, hmove, fun h ↦ absurd h h7, fun x hx ↦ absurd hx (hwhole x)⟩
  next =>
    rw [hleave] at hmove
    dsimp only at hmove
    rw [henter] at hmove
    refine ⟨_, hmove, fun _ ↦ ?_, fun x hx ↦ absurd hx (hwhole x)⟩
    dsimp only
    rw [World.addLoad_addLoad, World.box_addLoad]
    exact within_add (hgain.trans hfits)

/-! ### Two bags -/

/-- A bag, which can hold as much as the usual container. -/
def bag (cur : Load) : Container where
  isIn := true
  noIns := false
  noRem := false
  closed := false
  living := false
  isRoom := false
  rigid := false
  maxWeight := 1000
  maxVolume := 1000
  ownWeight := 500
  ownVolume := 0
  reduceWeight := 100
  reduceVolume := 100
  cur := cur
  reduceWeight_pos := by decide
  reduceVolume_pos := by decide

/-- Two bags, of which one has something in it. -/
def twoBags (cur : Load) : World where
  box o := if o = 1 then bag cur else bag 0
  within _ := []
  within_cons h := nomatch h

/-- From the one bag into the other. -/
def across : Journey :=
  ⟨some 0, 1, false, false, none, none⟩

/-- Five items of a weight of 200. -/
def coins : Item :=
  ⟨.heap ⟨⟨5, 0⟩, 200, 10⟩, false, false, false, false⟩

theorem defined_coins : Defined (twoBags 0) across coins := by
  have hsame (i : ℤ → ℤ) (hi : ∀ z, -2 ^ 31 ≤ z → z < 2 ^ 31 → i z = z) :
      (twoBags 0).move i across coins = (twoBags 0).move id across coins := by
    simp (disch := decide) [World.move, World.makeRoom, World.splitHeap, World.leave,
      World.enter, World.enterHeap, World.update, World.chain, updateInternal, coins, across,
      twoBags, bag, refusal, splitSizes, quotient, Container.left, Container.weight,
      Container.volume, Container.volumeLeft, Container.add, Stack.load, Stack.loadOf,
      Stack.change, Load.map, Pile.splitHeap, Pile.numHeap, Pile.left, Pile.gone, hi]
  exact fun i hi ↦ (hsame i hi).trans (hsame int fun z h h' ↦ Heaps.int_eq h h').symm

/-- They are too many for 500 grams. -/
theorem move_respects_coins : ∃ r, (twoBags 0).move int across coins = some r ∧
    (r.code = 0 → Within ((twoBags 0).box 1) (r.world.box 1)) ∧
      ∀ x, coins.thing = .heap x → Parted (((twoBags 0).box 1).left id) x r :=
  move_respects (twoBags 0) across coins rfl rfl ⟨⟨le_rfl, by decide⟩, .inl rfl, nofun, nofun⟩
    defined_coins

/-- **A bag that is too heavy already** still takes what has no weight. -/
theorem not_capacity : ¬∀ (W : World) (j : Journey) (item : Item) (old : Obj) (r : Moved),
    j.old = some old → (W.box j.dest).isRoom = false → Orderly W j old item.thing →
      W.move int j item = some r → r.code = 0 →
        (r.world.box j.dest).weight int ≤ (r.world.box j.dest).maxWeight := by
  intro hall
  have hle := hall (twoBags (1000, 0)) across ⟨.object 0 0, false, false, false, false⟩ 0 _ rfl rfl
    trivial rfl rfl
  exact absurd hle (by decide)

end Lpmud.Containers
