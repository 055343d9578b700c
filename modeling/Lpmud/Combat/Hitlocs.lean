import Lpmud.Combat.Tools
import Mathlib.Algebra.Order.BigOperators.Group.List
import Mathlib.Order.Interval.Finset.Nat

/-!
# Where a hit lands

The hit locations of a living (`/std/combat/cbase.c`), and how `cb_hit_me` draws one of them. Each
has a chance in percent, and the draw is a number below 100; the loop adds up the chances until they
reach it.

They reach 0 when there is nothing to add up yet. So the first location has one outcome more than
its chance says, and the last one that can be drawn has one less (`card_drawn`); no table of which
two locations have a chance is drawn as it says (`drawnAsStated_iff`).
-/

namespace Lpmud.Combat

open List Option

/-- The loop of `cb_hit_me`, where `j` is the sum so far, from the location `hloc` on. -/
def hitLoop (tmp : ℤ) : List Hitloc → ℤ → ℕ → ℕ
  | [], _, hloc => hloc
  | loc :: locs, j, hloc =>
    let j := j + loc.prchit
    if j ≥ tmp then hloc else hitLoop tmp locs j (hloc + 1)

/-- The location that is drawn when `random(100)` is `tmp`, if there are any. -/
def drawn (locs : List Hitloc) (tmp : ℕ) : Option ℕ :=
  if locs.length = 0 then none
  else
    let hloc := hitLoop tmp locs 0 0
    some (if hloc ≥ locs.length then locs.length - 1 else hloc)

/-- A table of hit locations with their chances. -/
structure HitTable where
  locs : List Hitloc
  ne_nil : locs ≠ []
  nonneg : ∀ loc ∈ locs, 0 ≤ loc.prchit
  sum_eq : (locs.map Hitloc.prchit).sum = 100

/-- As many of the 100 outcomes are of a location as its chance says, and every outcome is of some
location. -/
structure DrawnAsStated (t : HitTable) : Prop where
  chance : ∀ (i : ℕ) (loc : Hitloc), t.locs[i]? = some loc →
    (((Finset.range 100).filter fun tmp ↦ drawn t.locs tmp = some i).card : ℤ) = loc.prchit
  inside : ∀ tmp < 100, ∃ i < t.locs.length, drawn t.locs tmp = some i

/-! ### The loop -/

/-- The chances of the first `i` locations. -/
def chances (locs : List Hitloc) (i : ℕ) : ℤ :=
  ((locs.take i).map Hitloc.prchit).sum

@[simp]
theorem chances_zero (locs : List Hitloc) : chances locs 0 = 0 := rfl

@[simp]
theorem chances_cons (loc : Hitloc) (locs : List Hitloc) (i : ℕ) :
    chances (loc :: locs) (i + 1) = loc.prchit + chances locs i :=
  sum_cons

variable {locs : List Hitloc} {tmp j : ℤ} {hloc i : ℕ}

theorem chances_nonneg (h : ∀ loc ∈ locs, 0 ≤ loc.prchit) : 0 ≤ chances locs i := by
  refine sum_nonneg fun p hp ↦ ?_
  obtain ⟨loc, hloc, rfl⟩ := mem_map.1 hp
  exact h loc (mem_of_mem_take hloc)

theorem chances_le_total (h : ∀ loc ∈ locs, 0 ≤ loc.prchit) :
    chances locs i ≤ (locs.map Hitloc.prchit).sum := by
  have hrest : 0 ≤ ((locs.drop i).map Hitloc.prchit).sum := by
    refine sum_nonneg fun p hp ↦ ?_
    obtain ⟨loc, hloc, rfl⟩ := mem_map.1 hp
    exact h loc (mem_of_mem_drop hloc)
  calc chances locs i
      ≤ chances locs i + ((locs.drop i).map Hitloc.prchit).sum := by omega
    _ = (locs.map Hitloc.prchit).sum := by
        rw [chances, ← sum_append, ← map_append, take_append_drop]

theorem chances_succ {loc : Hitloc} (h : locs[i]? = some loc) :
    chances locs (i + 1) = chances locs i + loc.prchit := by
  rw [chances, take_add_one, h, toList_some, map_append, sum_append]
  exact congrArg _ (sum_singleton)

theorem chances_mono (h : ∀ loc ∈ locs, 0 ≤ loc.prchit) {k : ℕ} (hk : k ≤ i) :
    chances locs k ≤ chances locs i := by
  have htake := chances_le_total (i := k) fun loc hloc ↦ h loc (mem_of_mem_take (i := i) hloc)
  rwa [chances, take_take, min_eq_left hk] at htake

attribute [local simp] hitLoop in
theorem le_hitLoop : hloc ≤ hitLoop tmp locs j hloc := by
  induction locs generalizing j hloc with
  | nil => exact le_rfl
  | cons loc locs ih =>
    rw [hitLoop]
    split
    · exact le_rfl
    · exact (Nat.le_succ hloc).trans ih

/-- The loop stops at the first location with which the sum reaches `tmp`. -/
theorem hitLoop_eq_iff (h : ∀ loc ∈ locs, 0 ≤ loc.prchit) (hi : i < locs.length) :
    hitLoop tmp locs j hloc = hloc + i ↔
      (i = 0 ∨ j + chances locs i < tmp) ∧ tmp ≤ j + chances locs (i + 1) := by
  induction locs generalizing j hloc i with
  | nil => exact absurd hi (Nat.not_lt_zero i)
  | cons loc locs ih =>
    have htail : ∀ loc ∈ locs, 0 ≤ loc.prchit := fun l hl ↦ h l (mem_cons_of_mem _ hl)
    rw [hitLoop]
    obtain _ | i := i
    · split
      next hge => simpa using hge
      next hlt =>
        have hle : hloc + 1 ≤ hitLoop tmp locs (j + loc.prchit) (hloc + 1) := le_hitLoop
        simp only [chances_cons, chances_zero]
        omega
    · rw [chances_cons, chances_cons]
      split
      next hge =>
        have := chances_nonneg (i := i) htail
        omega
      next hlt =>
        rw [show hloc + (i + 1) = hloc + 1 + i by omega, ih htail (Nat.lt_of_succ_lt_succ hi)]
        obtain rfl | hpos := Nat.eq_zero_or_pos i
        · simp only [chances_zero]
          omega
        · omega

/-- The loop ends inside of the table if all chances together reach `tmp`. -/
theorem hitLoop_lt (hne : locs ≠ []) (h : tmp ≤ j + (locs.map Hitloc.prchit).sum) :
    hitLoop tmp locs j hloc < hloc + locs.length := by
  induction locs generalizing j hloc with
  | nil => exact absurd rfl hne
  | cons loc locs ih =>
    rw [map_cons, sum_cons] at h
    rw [hitLoop, length_cons]
    split
    next => omega
    next hlt =>
      obtain rfl | hne' := eq_or_ne locs []
      · rw [map_nil, sum_nil] at h
        omega
      · have : hitLoop tmp locs (j + loc.prchit) (hloc + 1) < hloc + 1 + locs.length :=
          ih hne' (by omega)
        omega

/-! ### What is drawn -/

section Drawn

variable (t : HitTable)

theorem HitTable.length_pos : 0 < t.locs.length :=
  length_pos_iff.2 t.ne_nil

theorem drawn_eq {tmp : ℕ} (htmp : tmp < 100) :
    drawn t.locs tmp = some (hitLoop tmp t.locs 0 0) ∧ hitLoop tmp t.locs 0 0 < t.locs.length := by
  have hlt : hitLoop tmp t.locs 0 0 < 0 + t.locs.length :=
    hitLoop_lt t.ne_nil (by rw [t.sum_eq]; omega)
  rw [Nat.zero_add] at hlt
  rw [drawn, if_neg t.length_pos.ne']
  exact ⟨congrArg some (if_neg hlt.not_ge), hlt⟩

theorem drawn_eq_iff {tmp i : ℕ} (htmp : tmp < 100) (hi : i < t.locs.length) :
    drawn t.locs tmp = some i ↔
      (i = 0 ∨ chances t.locs i < tmp) ∧ tmp ≤ chances t.locs (i + 1) := by
  have hiff : hitLoop tmp t.locs 0 0 = 0 + i ↔ _ := hitLoop_eq_iff t.nonneg hi
  rw [Nat.zero_add, Int.zero_add, Int.zero_add] at hiff
  rw [(drawn_eq t htmp).1, some_inj, hiff]

/-- How many outcomes a location has: those above the chances in front of it, up to these and its
own. The first location has 0 besides. -/
theorem card_drawn {i : ℕ} (hi : i < t.locs.length) :
    (((Finset.range 100).filter fun tmp ↦ drawn t.locs tmp = some i).card : ℤ) =
      min 100 (chances t.locs (i + 1) + 1) -
        if i = 0 then 0 else min 100 (chances t.locs i + 1) := by
  have hpos : 0 ≤ chances t.locs i := chances_nonneg t.nonneg
  have hle : chances t.locs i ≤ chances t.locs (i + 1) := by
    have hloc := List.getElem?_eq_getElem hi
    have := t.nonneg _ (getElem_mem hi)
    rw [chances_succ hloc]
    omega
  have hIco : ((Finset.range 100).filter fun tmp ↦ drawn t.locs tmp = some i) =
      Finset.Ico (if i = 0 then 0 else (min 100 (chances t.locs i + 1)).toNat)
        (min 100 (chances t.locs (i + 1) + 1)).toNat := by
    ext tmp
    rw [Finset.mem_filter, Finset.mem_range, Finset.mem_Ico]
    constructor
    · rintro ⟨htmp, hdrawn⟩
      rw [drawn_eq_iff t htmp hi] at hdrawn
      split <;> omega
    · intro h
      have htmp : tmp < 100 := by omega
      rw [drawn_eq_iff t htmp hi]
      split at h <;> omega
  rw [hIco, Nat.card_Ico]
  split <;> omega

theorem chances_le (i : ℕ) : chances t.locs i ≤ 100 :=
  (chances_le_total t.nonneg).trans_eq t.sum_eq

/-- **The chances are as stated only where the first location has them all.** -/
theorem drawnAsStated_iff : DrawnAsStated t ↔ t.locs.head?.map Hitloc.prchit = some 100 := by
  obtain ⟨loc, hloc⟩ : ∃ loc, t.locs[0]? = some loc := ⟨_, List.getElem?_eq_getElem t.length_pos⟩
  have hfirst : chances t.locs 1 = loc.prchit := by
    rw [chances_succ hloc, chances_zero, Int.zero_add]
  rw [List.head?_eq_getElem?, hloc, map_some, some_inj]
  constructor
  · intro h
    have hcard := h.chance 0 loc hloc
    rw [card_drawn t t.length_pos, if_pos rfl, hfirst] at hcard
    have := chances_le t 1
    omega
  · intro h
    refine ⟨fun i loc' hi ↦ ?_, fun tmp htmp ↦
      ⟨_, (drawn_eq t htmp).2, (drawn_eq t htmp).1⟩⟩
    have hlt := (List.getElem?_eq_some_iff.1 hi).1
    have hsucc := chances_succ hi
    rw [card_drawn t hlt]
    obtain rfl | hpos := Nat.eq_zero_or_pos i
    · obtain rfl := some_inj.1 (hloc.symm.trans hi)
      rw [if_pos rfl, hfirst, h]
      rfl
    · -- Nothing is left for the others.
      have hall : 100 ≤ chances t.locs i := by
        rw [← h, ← hfirst]
        exact chances_mono t.nonneg hpos
      have hi_le := chances_le t i
      have hsucc_le := chances_le t (i + 1)
      have := t.nonneg loc' (mem_of_getElem? hi)
      rw [if_neg hpos.ne']
      omega

/-- Two locations, of which the first should be hit 40 times. -/
def twoLocs : HitTable where
  locs := [⟨0, 40, "glowe", 0⟩, ⟨0, 60, "korpus", 0⟩]
  ne_nil := cons_ne_nil _ _
  nonneg := by
    intro loc hloc
    obtain rfl | rfl : loc = _ ∨ loc = _ := by simpa using hloc
    · decide
    · decide
  sum_eq := rfl

theorem not_drawnAsStated : ¬∀ t, DrawnAsStated t := by
  intro h
  have hcard := (h twoLocs).chance 0 _ rfl
  exact absurd hcard (by decide)

end Drawn

end Lpmud.Combat
