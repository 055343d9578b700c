import Mathlib.Data.List.Nodup
import Lpmud.Lib.TransitionSystem
import Lpmud.Svalue

/-!
# Enemies

A combat object has a list of the livings it hunts, `enemies`, and the one of them that it fights,
`attack_ob`. The list is cut off after `MAX_ENEMIES`, and that is where the two come apart: an
enemy may be made the target that is not in the list any more, or never was.

The operations call functions of livings, which may call operations in turn; these are steps of
their own. A round of `heart_beat`, by which `cb_enemy_escaped` ends, is three: its beginning, the
death of the enemy, and its end. While a round is not over its victim may still be the target.

No enemy is destructed, so there are no zeros in the list.
-/

namespace Lpmud.Targets

open List
open Option (any_eq_true some.inj)

abbrev MAX_ENEMIES : ℕ := 10

/-! ### Arrays -/

section Arrays

variable {α : Type} [DecidableEq α]

def memberArray (x : α) (arr : List α) : ℤ :=
  if x ∈ arr then arr.idxOf x else -1

def excludeArray (arr : List α) (start stop : ℤ) : List α :=
  let start := if start > arr.length then (arr.length : ℤ) else start
  let a := if start ≤ 0 then [] else arr.take start.toNat
  let stop := if stop < 0 then 0 else stop
  let b := if stop ≥ arr.length - 1 then [] else arr.drop (stop + 1).toNat
  a ++ b

def sliceArray (a : List α) (f t : ℤ) : List α :=
  let f := if f < 0 then 0 else f
  let t := if t ≥ a.length then (a.length : ℤ) - 1 else t
  if f > t then [] else (a.take (t + 1).toNat).drop f.toNat

theorem memberArray_of_mem {x : α} {arr : List α} (h : x ∈ arr) :
    memberArray x arr = arr.idxOf x :=
  if_pos h

theorem memberArray_of_not_mem {x : α} {arr : List α} (h : x ∉ arr) : memberArray x arr = -1 :=
  if_neg h

theorem excludeArray_idxOf {x : α} {arr : List α} (h : x ∈ arr) :
    excludeArray arr (arr.idxOf x) (arr.idxOf x) = arr.erase x := by
  have hlt := idxOf_lt_length_of_mem h
  have hstart : ¬(arr.idxOf x : ℤ) > arr.length := by omega
  have hstop : ¬(arr.idxOf x : ℤ) < 0 := by omega
  have htake : (if (arr.idxOf x : ℤ) ≤ 0 then [] else arr.take (arr.idxOf x : ℤ).toNat) =
      arr.take (arr.idxOf x) := by
    split
    next hzero =>
      rw [show arr.idxOf x = 0 by omega]
      rfl
    next => rfl
  have hdrop : (if (arr.idxOf x : ℤ) ≥ arr.length - 1 then [] else
      arr.drop ((arr.idxOf x : ℤ) + 1).toNat) = arr.drop (arr.idxOf x + 1) := by
    split
    next hlast => rw [drop_of_length_le (by omega)]
    next => rw [show ((arr.idxOf x : ℤ) + 1).toNat = arr.idxOf x + 1 by omega]
  rw [excludeArray, if_neg hstart, if_neg hstop, htake, hdrop, erase_eq_eraseIdx_of_idxOf rfl,
    eraseIdx_eq_take_drop_succ]

omit [DecidableEq α] in
theorem sliceArray_eq_take {a : List α} {n : ℕ} (h : n < a.length) :
    sliceArray a 0 n = a.take (n + 1) := by
  have hlast : ¬(n : ℤ) ≥ a.length := by omega
  rw [sliceArray, if_neg hlast, if_neg (Int.lt_irrefl 0), if_neg (by omega)]
  rfl

end Arrays

/-! ### The combat object -/

/-- What the operations ask for: who is a ghost, who has a connection, and who is where. -/
structure Surroundings where
  queryGhost : Obj → Bool
  queryIpNumber : Obj → Bool
  environment : Obj → Option Obj
  allInventory : Obj → List Obj

structure State where
  enemies : List Obj
  attackOb : Option Obj
  /-- The rounds of `heart_beat` that are not over, each with the enemy it has killed. -/
  rounds : List (Option Obj)
  deriving DecidableEq

section Operations

variable (me : Obj)

/-- `all_inventory(environment(me))`, which is an error if the living is nowhere. -/
def Surroundings.around (w : Surroundings) : Option (List Obj) :=
  (w.environment me).map w.allInventory

def cbAddEnemy (enemy : Obj) (force : Bool) (s : State) : State :=
  let pos := memberArray enemy s.enemies
  let enemies :=
    if force ∧ pos ≥ 0 then enemy :: excludeArray s.enemies pos pos
    else if force then enemy :: s.enemies
    else if pos < 0 then s.enemies ++ [enemy]
    else s.enemies
  { s with
    enemies :=
      if enemies.length > MAX_ENEMIES then sliceArray enemies 0 (MAX_ENEMIES - 1) else enemies }

def cbAttack (victim : Obj) (w : Surroundings) (s : State) : State :=
  if victim = me ∨ some victim = s.attackOb ∨ w.queryGhost victim then s
  else { cbAddEnemy victim true s with attackOb := some victim }

def cbAttackedBy (ob : Obj) (w : Surroundings) (s : State) : State :=
  let s := cbAddEnemy ob false s
  match s.attackOb with
  | none => { s with attackOb := some ob }
  | some t => if !w.queryIpNumber t && w.queryIpNumber ob then { s with attackOb := some ob } else s

/-- `cb_stop_fight`, of an array: an object is as good as the array of it, and any other value is
as good as the empty one. -/
def cbStopFight (elist : List Obj) (w : Surroundings) (s : State) : State :=
  let s := if s.attackOb.any (· ∈ elist) then { s with attackOb := none } else s
  let s := { s with enemies := s.enemies.filter (· ∉ elist) }
  match w.around me with
  | none => s
  | some inventory =>
    match s.enemies.filter (· ∈ inventory) with
    | [] => s
    | e :: _ => { s with attackOb := some e }

/-- `cb_hit_me`, as far as its list of aggressors goes. -/
def cbHitMe (attacker : Obj) (w : Surroundings) (s : State) : State :=
  if w.queryGhost me then cbStopFight me [attacker] w s
  else
    let s := cbAddEnemy attacker false s
    if s.attackOb = none ∧ attacker ≠ me then { s with attackOb := some attacker } else s

/-- Another enemy that is there becomes the target, if there is one. -/
def switchEnemy (w : Surroundings) (s : State) : State :=
  match w.around me with
  | none => s
  | some inventory =>
    let new := (inventory.filter (· ∈ s.enemies)).filter fun e ↦ some e ≠ s.attackOb
    { s with attackOb := new.head? }

/-- `cb_enemy_escaped`, up to the round of `heart_beat`. -/
def cbEnemyEscaped (w : Surroundings) (s : State) : State :=
  switchEnemy me w s

def cbDeathOccured (s : State) : State :=
  { s with enemies := [], attackOb := none }

/-- The beginning of `heart_beat`. If the target is lost there is no round: `cb_enemy_escaped` is
called. -/
def heartBeat (w : Surroundings) (s : State) : State :=
  if w.queryGhost me then { s with attackOb := none }
  else if s.attackOb.any fun t ↦ !w.queryGhost t && w.environment t == w.environment me then
    { s with rounds := none :: s.rounds }
  else s

/-- After `do_die` in `heart_beat`: the target is an enemy no longer. -/
def heartBeatKills (s : State) : State :=
  match s.attackOb, s.rounds with
  | some t, _ :: rounds =>
    { s with enemies := s.enemies.filter (· ≠ t), rounds := some t :: rounds }
  | _, _ => s

/-- The end of a round. -/
def heartBeatEnds (w : Surroundings) (s : State) : State :=
  let s := { s with rounds := s.rounds.tail }
  if s.attackOb.any fun t ↦ !w.queryGhost t then s else switchEnemy me w s

/-! ### Runs -/

inductive Event where
  | cbAttack (victim : Obj) (w : Surroundings)
  | cbAttackedBy (ob : Obj) (w : Surroundings)
  | cbHitMe (attacker : Obj) (w : Surroundings)
  | cbAddEnemy (enemy : Obj) (force : Bool)
  | cbStopFight (elist : List Obj) (w : Surroundings)
  | cbEnemyEscaped (w : Surroundings)
  | cbDeathOccured
  | heartBeat (w : Surroundings)
  | heartBeatKills
  | heartBeatEnds (w : Surroundings)

/-- One step. -/
def exec (s : State) : Event → State
  | .cbAttack victim w => cbAttack me victim w s
  | .cbAttackedBy ob w => cbAttackedBy ob w s
  | .cbHitMe attacker w => cbHitMe me attacker w s
  | .cbAddEnemy enemy force => cbAddEnemy enemy force s
  | .cbStopFight elist w => cbStopFight me elist w s
  | .cbEnemyEscaped w => cbEnemyEscaped me w s
  | .cbDeathOccured => cbDeathOccured s
  | .heartBeat w => heartBeat me w s
  | .heartBeatKills => heartBeatKills s
  | .heartBeatEnds w => heartBeatEnds me w s

/-- The combat object of a living, from its creation on. -/
def combats : TransitionSystem State Event where
  Init s := s = ⟨[], none, []⟩
  Step s e s' := s' = exec me s e

/-- The steps that keep the target among the enemies. Where an enemy is new and the list is full,
it is not made the target by being attacked, and does not push the target out of the list; an enemy
that has been killed is a ghost at the end of the round, and the living is somewhere. And
`cb_stop_fight` finds no enemy before the target that it would rather have. -/
def Sound (s : State) : Event → Prop
  | .cbAttackedBy ob w => ob ∉ s.enemies → MAX_ENEMIES ≤ s.enemies.length →
    ∃ t, s.attackOb = some t ∧ (w.queryIpNumber t ∨ !w.queryIpNumber ob)
  | .cbHitMe attacker w => !w.queryGhost me → attacker ≠ me → attacker ∉ s.enemies →
    MAX_ENEMIES ≤ s.enemies.length → s.attackOb ≠ none
  | .cbAddEnemy enemy force => force → enemy ∉ s.enemies → MAX_ENEMIES ≤ s.enemies.length →
    s.enemies.getLast? ≠ s.attackOb
  | .cbStopFight elist w => (∀ t, s.attackOb = some t → t ∉ elist) →
    ∀ inventory, w.around me = some inventory → ∀ e,
      s.enemies.find? (fun e ↦ e ∉ elist ∧ e ∈ inventory) = some e → s.attackOb = some e
  | .heartBeatEnds w => ∀ t rounds, s.attackOb = some t → s.rounds = some t :: rounds →
    t ∉ s.enemies → some t ∉ rounds → w.queryGhost t ∧ w.environment me ≠ none
  | _ => True

/-- The enemies and the target go together. -/
structure Consistent (s : State) : Prop where
  nodup : s.enemies.Nodup
  bounded : s.enemies.length ≤ MAX_ENEMIES
  target : ∀ t, s.attackOb = some t → some t ∉ s.rounds → t ∈ s.enemies

/-- What `cb_stop_fight` is for. -/
structure StopsFight (elist : List Obj) (s s' : State) : Prop where
  enemies : s'.enemies = s.enemies.filter (· ∉ elist)
  attackOb : (∀ t, s.attackOb = some t → t ∉ elist) → s'.attackOb = s.attackOb

end Operations

/-! ### Steps -/

variable {me ob t : Obj} {s s' : State} {w : Surroundings} {elist : List Obj}

/-- The list of enemies after `cb_add_enemy`. -/
theorem cbAddEnemy_eq (enemy : Obj) (force : Bool) (s : State) : cbAddEnemy enemy force s =
    { s with
      enemies :=
        (if force then enemy :: s.enemies.erase enemy
          else if enemy ∈ s.enemies then s.enemies
          else s.enemies ++ [enemy]).take MAX_ENEMIES } := by
  have hcut : ∀ l : List Obj, (if l.length > MAX_ENEMIES then sliceArray l 0 (MAX_ENEMIES - 1)
      else l) = l.take MAX_ENEMIES := by
    intro l
    split
    next hlong => exact sliceArray_eq_take (n := 9) (Nat.lt_of_succ_lt hlong)
    next hshort => rw [take_of_length_le (Nat.le_of_not_lt hshort)]
  rw [cbAddEnemy]
  simp only [hcut]
  congr 2
  by_cases hmem : enemy ∈ s.enemies
  · rw [memberArray_of_mem hmem, excludeArray_idxOf hmem]
    cases force <;> simp [hmem]
  · rw [memberArray_of_not_mem hmem, erase_of_not_mem hmem]
    cases force <;> simp [hmem]

theorem nodup_cbAddEnemy (enemy : Obj) (force : Bool) (h : s.enemies.Nodup) :
    (cbAddEnemy enemy force s).enemies.Nodup := by
  rw [cbAddEnemy_eq]
  refine List.Nodup.sublist (take_sublist _ _) ?_
  split
  · exact nodup_cons.2 ⟨h.not_mem_erase, h.erase enemy⟩
  split
  next => exact h
  next hmem => exact concat_eq_append ▸ h.concat hmem

theorem length_cbAddEnemy_le (enemy : Obj) (force : Bool) (s : State) :
    (cbAddEnemy enemy force s).enemies.length ≤ MAX_ENEMIES := by
  rw [cbAddEnemy_eq]
  exact length_take_le _ _

theorem self_mem_cbAddEnemy {enemy : Obj} {force : Bool}
    (h : force = true ∨ enemy ∈ s.enemies ∨ s.enemies.length < MAX_ENEMIES)
    (hbound : s.enemies.length ≤ MAX_ENEMIES) :
    enemy ∈ (cbAddEnemy enemy force s).enemies := by
  rw [cbAddEnemy_eq]
  dsimp only
  split
  next => exact mem_cons_self ..
  next hforce =>
    split
    next hmem => rwa [take_of_length_le hbound]
    next hmem =>
      have hlen := (h.resolve_left hforce).resolve_left hmem
      rw [take_of_length_le (by rwa [length_append])]
      exact mem_append_right _ (mem_singleton_self _)

theorem mem_cbAddEnemy {enemy : Obj} {force : Bool} (ht : t ∈ s.enemies)
    (hbound : s.enemies.length ≤ MAX_ENEMIES)
    (hlast : force = true → enemy ∉ s.enemies → MAX_ENEMIES ≤ s.enemies.length →
      s.enemies.getLast? ≠ some t) :
    t ∈ (cbAddEnemy enemy force s).enemies := by
  rw [cbAddEnemy_eq]
  dsimp only
  split
  next hforce =>
    obtain rfl | hne := eq_or_ne t enemy
    · exact mem_cons_self ..
    by_cases hmem : enemy ∈ s.enemies
    · have hlen : (enemy :: s.enemies.erase enemy).length ≤ MAX_ENEMIES := by
        rw [length_cons, length_erase_of_mem hmem]
        have := length_pos_of_mem hmem
        omega
      rw [take_of_length_le hlen]
      exact mem_cons_of_mem _ ((mem_erase_of_ne hne).2 ht)
    · rw [erase_of_not_mem hmem]
      obtain hlen | hlen := lt_or_ge s.enemies.length MAX_ENEMIES
      · rw [take_of_length_le hlen]
        exact mem_cons_of_mem _ ht
      · -- all of them stay but the last one
        have hlen' : s.enemies.length = MAX_ENEMIES := le_antisymm hbound hlen
        rw [take_succ_cons]
        refine mem_cons_of_mem _ ?_
        rw [← show s.enemies.dropLast = s.enemies.take 9 by rw [dropLast_eq_take, hlen']; rfl]
        have hnil : s.enemies ≠ [] := ne_nil_of_mem ht
        rw [← dropLast_append_getLast hnil] at ht
        refine (mem_append.1 ht).resolve_right fun hlast' ↦ ?_
        refine hlast hforce hmem hlen ?_
        rw [List.getLast?_eq_some_getLast hnil, mem_singleton.1 hlast']
  next =>
    split
    next => rwa [take_of_length_le hbound]
    next => exact (prefix_take_iff.2 ⟨prefix_append _ _, hbound⟩).subset ht

theorem switchEnemy_spec (me : Obj) (w : Surroundings) (s : State) :
    (w.environment me = none ∧ switchEnemy me w s = s) ∨
      ∃ new, switchEnemy me w s = { s with attackOb := new } ∧
        ∀ t, new = some t → t ∈ s.enemies := by
  rw [switchEnemy]
  split
  next hnone => exact .inl ⟨Option.map_eq_none_iff.1 hnone, rfl⟩
  next inventory hsome =>
    refine .inr ⟨_, rfl, fun t ht ↦ ?_⟩
    have hmem := (mem_filter.1 (mem_of_head? ht)).1
    exact of_decide_eq_true (mem_filter.1 hmem).2

theorem consistent_switchEnemy (h : Consistent s) : Consistent (switchEnemy me w s) := by
  obtain ⟨-, hs⟩ | ⟨new, hs, hnew⟩ := switchEnemy_spec me w s
  · rwa [hs]
  · rw [hs]
    exact ⟨h.nodup, h.bounded, fun t ht _ ↦ hnew t ht⟩

/-- The target after `cb_stop_fight`: an enemy that is there, or the one before, or none. -/
theorem cbStopFight_spec (me : Obj) (elist : List Obj) (w : Surroundings) (s : State) :
    ∃ t, cbStopFight me elist w s =
        { s with enemies := s.enemies.filter (· ∉ elist), attackOb := t } ∧
      ((∃ inventory e, w.around me = some inventory ∧
          s.enemies.find? (fun e ↦ e ∉ elist ∧ e ∈ inventory) = some e ∧ t = some e) ∨
        (∀ e, s.attackOb = some e → e ∉ elist) ∧ t = s.attackOb ∨
        (∃ e ∈ elist, s.attackOb = some e) ∧ t = none) := by
  have hlisted : (∀ e, s.attackOb = some e → e ∉ elist) ∧
        (if s.attackOb.any (· ∈ elist) then { s with attackOb := none } else s) = s ∨
      (∃ e ∈ elist, s.attackOb = some e) ∧
        (if s.attackOb.any (· ∈ elist) then { s with attackOb := none } else s) =
          { s with attackOb := none } := by
    split
    next hany =>
      obtain ⟨e, he, hmem⟩ := (any_eq_true _ _).1 hany
      exact .inr ⟨⟨e, of_decide_eq_true hmem, he⟩, rfl⟩
    next hany =>
      exact .inl ⟨fun e he hmem ↦ hany ((any_eq_true _ _).2 ⟨e, he, decide_eq_true hmem⟩),
        rfl⟩
  have hfind : ∀ {inventory l : List Obj} {e : Obj},
      ((s.enemies.filter (· ∉ elist)).filter (· ∈ inventory)) = e :: l →
        s.enemies.find? (fun e ↦ e ∉ elist ∧ e ∈ inventory) = some e := by
    intro inventory l e hfilter
    rw [filter_filter] at hfilter
    rw [← List.head?_filter, ← List.head?_cons (a := e) (l := l), ← hfilter]
    congr 2
    funext e
    rw [Bool.decide_and, Bool.and_comm]
  rw [cbStopFight]
  obtain ⟨hnot, hs⟩ | ⟨hlist, hs⟩ := hlisted
  · rw [hs]
    split
    next => exact ⟨s.attackOb, rfl, .inr (.inl ⟨hnot, rfl⟩)⟩
    next inventory hsome =>
      split
      next => exact ⟨s.attackOb, rfl, .inr (.inl ⟨hnot, rfl⟩)⟩
      next e l hfilter =>
        exact ⟨some e, rfl, .inl ⟨inventory, e, hsome, hfind hfilter, rfl⟩⟩
  · rw [hs]
    split
    next => exact ⟨none, rfl, .inr (.inr ⟨hlist, rfl⟩)⟩
    next inventory hsome =>
      split
      next => exact ⟨none, rfl, .inr (.inr ⟨hlist, rfl⟩)⟩
      next e l hfilter =>
        exact ⟨some e, rfl, .inl ⟨inventory, e, hsome, hfind hfilter, rfl⟩⟩

theorem consistent_cbStopFight (h : Consistent s) : Consistent (cbStopFight me elist w s) := by
  obtain ⟨t, hs, ht⟩ := cbStopFight_spec me elist w s
  rw [hs]
  refine ⟨h.nodup.filter _, (length_filter_le _ _).trans h.bounded, fun e he hround ↦ ?_⟩
  obtain rfl : t = some e := he
  obtain ⟨inventory, e', -, hfind, hte⟩ | ⟨hnot, hsame⟩ | ⟨-, hnone⟩ := ht
  · obtain rfl := some.inj hte
    have hprop := List.find?_some hfind
    rw [decide_eq_true_eq] at hprop
    exact mem_filter.2 ⟨mem_of_find?_eq_some hfind, decide_eq_true hprop.1⟩
  · have hmem := h.target e hsame.symm hround
    exact mem_filter.2 ⟨hmem, decide_eq_true (hnot e hsame.symm)⟩
  · exact absurd hnone nofun

theorem consistent_cbAddEnemy (h : Consistent s) (enemy : Obj) (new : Option Obj)
    (hnew : ∀ t, new = some t → s.attackOb = some t ∨
      t = enemy ∧ (enemy ∈ s.enemies ∨ s.enemies.length < MAX_ENEMIES)) :
    Consistent { cbAddEnemy enemy false s with attackOb := new } := by
  refine ⟨nodup_cbAddEnemy enemy false h.nodup, length_cbAddEnemy_le enemy false s, ?_⟩
  intro t ht hround
  show t ∈ (cbAddEnemy enemy false s).enemies
  obtain hold | ⟨rfl, hmem⟩ := hnew t ht
  · have hrounds : some t ∉ s.rounds := by
      rw [cbAddEnemy_eq] at hround
      exact hround
    exact mem_cbAddEnemy (h.target t hold hrounds) h.bounded nofun
  · exact self_mem_cbAddEnemy (.inr hmem) h.bounded

/-- **The steps that are sound** keep the enemies and the target together. -/
theorem consistent_exec {e : Event} (h : Consistent s) (hok : Sound me s e) :
    Consistent (exec me s e) := by
  cases e with
  | cbAttack victim w =>
    rw [exec, cbAttack]
    split
    · exact h
    · refine ⟨nodup_cbAddEnemy victim true h.nodup, length_cbAddEnemy_le victim true s, ?_⟩
      rintro t ht -
      obtain rfl := some.inj ht
      exact self_mem_cbAddEnemy (.inl rfl) h.bounded
  | cbAttackedBy ob w =>
    have hroom (hnot : ∀ t, s.attackOb = some t → ¬(w.queryIpNumber t ∨ !w.queryIpNumber ob)) :
        ob ∈ s.enemies ∨ s.enemies.length < MAX_ENEMIES := by
      by_contra hfull
      rw [not_or, not_lt] at hfull
      obtain ⟨t, ht, hip⟩ := hok hfull.1 hfull.2
      exact hnot t ht hip
    rw [exec, cbAttackedBy]
    split
    next hnone =>
      refine consistent_cbAddEnemy h ob (some ob) fun t ht ↦ .inr ⟨(some.inj ht).symm, ?_⟩
      exact hroom fun t ht ↦ absurd (hnone.symm.trans ht) nofun
    next t ht =>
      split
      next hip =>
        refine consistent_cbAddEnemy h ob (some ob) fun u hu ↦ .inr ⟨(some.inj hu).symm, ?_⟩
        refine hroom fun t' ht' ↦ ?_
        obtain rfl := some.inj (ht.symm.trans ht')
        simpa using hip
      next => exact consistent_cbAddEnemy h ob s.attackOb fun t ht ↦ .inl ht
  | cbHitMe attacker w =>
    rw [exec, cbHitMe]
    split
    next => exact consistent_cbStopFight h
    next hghost =>
      dsimp only
      split
      next hnew =>
        refine consistent_cbAddEnemy h attacker (some attacker) fun t ht ↦
          .inr ⟨(some.inj ht).symm, ?_⟩
        by_contra hfull
        rw [not_or, not_lt] at hfull
        exact hok (by simpa using hghost) hnew.2 hfull.1 hfull.2 hnew.1
      next => exact consistent_cbAddEnemy h attacker s.attackOb fun t ht ↦ .inl ht
  | cbAddEnemy enemy force =>
    refine ⟨nodup_cbAddEnemy enemy force h.nodup, length_cbAddEnemy_le enemy force s, ?_⟩
    intro t ht hround
    have ht' : s.attackOb = some t := ht
    refine mem_cbAddEnemy (h.target t ht' hround) h.bounded fun hforce hmem hlen ↦ ?_
    exact ht' ▸ hok hforce hmem hlen
  | cbStopFight elist w => exact consistent_cbStopFight h
  | cbEnemyEscaped w => exact consistent_switchEnemy h
  | cbDeathOccured => exact ⟨nodup_nil, Nat.zero_le _, nofun⟩
  | heartBeat w =>
    rw [exec, heartBeat]
    split
    · exact ⟨h.nodup, h.bounded, nofun⟩
    split
    · exact ⟨h.nodup, h.bounded, fun t ht hround ↦ h.target t ht fun hmem ↦
        hround (mem_cons_of_mem _ hmem)⟩
    · exact h
  | heartBeatKills =>
    rw [exec, heartBeatKills]
    split
    next t r rounds ht hrounds =>
      refine ⟨h.nodup.filter _, (length_filter_le _ _).trans h.bounded, ?_⟩
      intro t' ht' hround
      obtain rfl := some.inj (ht.symm.trans ht')
      exact absurd (mem_cons_self ..) hround
    next => exact h
  | heartBeatEnds w =>
    -- the target that is not an enemy is the one that this round has killed
    have hlost : ∀ t, s.attackOb = some t → some t ∉ s.rounds.tail → t ∉ s.enemies →
        w.queryGhost t ∧ w.environment me ≠ none := by
      intro t ht htail hmem
      have hround : some t ∈ s.rounds := by
        by_contra hround
        exact hmem (h.target t ht hround)
      match hrounds : s.rounds with
      | [] => exact absurd hround (hrounds ▸ not_mem_nil)
      | r :: rounds =>
        rw [hrounds] at hround htail
        obtain rfl := (mem_cons.1 hround).resolve_right htail
        exact hok t rounds ht hrounds hmem htail
    rw [exec, heartBeatEnds]
    split
    next hany =>
      refine ⟨h.nodup, h.bounded, fun t ht htail ↦ ?_⟩
      by_contra hmem
      have hghost := (hlost t ht htail hmem).1
      obtain ⟨t', ht', hany⟩ := (any_eq_true _ _).1 hany
      obtain rfl := some.inj (Eq.trans (Eq.symm ht) ht')
      simp [hghost] at hany
    next =>
      obtain ⟨hnone, hs⟩ | ⟨new, hs, hnew⟩ :=
        switchEnemy_spec me w { s with rounds := s.rounds.tail }
      · rw [hs]
        refine ⟨h.nodup, h.bounded, fun t ht htail ↦ ?_⟩
        by_contra hmem
        exact (hlost t ht htail hmem).2 hnone
      · rw [hs]
        exact ⟨h.nodup, h.bounded, fun t ht _ ↦ hnew t ht⟩

/-- If `cb_stop_fight` finds no enemy that it would rather have, it leaves the target alone. -/
theorem stopsFight_of_sound (hok : Sound me s (.cbStopFight elist w)) :
    StopsFight elist s (exec me s (.cbStopFight elist w)) := by
  obtain ⟨t, hs, ht⟩ := cbStopFight_spec me elist w s
  rw [exec, hs]
  refine ⟨rfl, fun hnot ↦ ?_⟩
  obtain ⟨inventory, e, haround, hfind, rfl⟩ | ⟨-, rfl⟩ | ⟨⟨e, hmem, he⟩, -⟩ := ht
  · exact (hok hnot inventory haround e hfind).symm
  · rfl
  · exact absurd hmem (hnot e he)

/-- **In every run of sound steps** the list has no duplicates and is not too long, the target is
one of the enemies, and `cb_stop_fight` takes away those it is given and no target besides. -/
theorem targets_of_reachable (me : Obj) {s : State}
    (hs : (combats me).ReachableVia (Sound me) s) :
    Consistent s ∧ ∀ elist w, Sound me s (.cbStopFight elist w) →
      StopsFight elist s (exec me s (.cbStopFight elist w)) := by
  refine ⟨hs.invariant (fun s hinit ↦ ?_) fun s e s' h hok hstep ↦ ?_,
    fun elist w ↦ stopsFight_of_sound⟩
  · rw [show s = ⟨[], none, []⟩ from hinit]
    exact ⟨nodup_nil, Nat.zero_le _, nofun⟩
  · rw [show s' = exec me s e from hstep]
    exact consistent_exec h hok

/-- The living 0 is in the room 100 with two others, and all have connections. -/
def tavern : Surroundings where
  queryGhost _ := false
  queryIpNumber _ := true
  environment _ := some 100
  allInventory _ := [0, 1, 2]

def brawl : State := ⟨[2, 1], some 2, []⟩

theorem targets_of_reachable_brawl :
    Consistent brawl ∧ ∀ elist w, Sound 0 brawl (.cbStopFight elist w) →
      StopsFight elist brawl (exec 0 brawl (.cbStopFight elist w)) :=
  targets_of_reachable 0 <| .step
    (.step (.init rfl) (a := .cbAttackedBy 1 tavern) (fun _ hfull ↦ absurd hfull (by decide)) rfl)
    (a := .cbAttack 2 tavern) trivial rfl

/-- Ten enemies elsewhere. -/
def hunted : State := ⟨[11, 12, 13, 14, 15, 16, 17, 18, 19, 20], none, []⟩

theorem reachable_hunted : (combats 0).Reachable hunted := by
  have hrun : ∀ (es : List Obj) (s : State), (combats 0).Reachable s →
      (combats 0).Reachable (es.foldl (fun s e ↦ cbAddEnemy e false s) s) := by
    intro es
    induction es with
    | nil => exact fun s hs ↦ hs
    | cons e es ih => exact fun s hs ↦ ih _ (hs.step (a := .cbAddEnemy e false) rfl)
  have hhunted : hunted.enemies.foldl (fun s e ↦ cbAddEnemy e false s) ⟨[], none, []⟩ = hunted := by
    decide +kernel
  exact hhunted ▸ hrun hunted.enemies _ (.init rfl)

/-- **Who attacks somebody with ten enemies** becomes the target and no enemy. -/
theorem not_targets : ¬∀ s, (combats 0).Reachable s →
    Consistent s ∧ ∀ elist w, StopsFight elist s (exec 0 s (.cbStopFight elist w)) := by
  intro hall
  have hattacked : (combats 0).Reachable { hunted with attackOb := some 1 } :=
    reachable_hunted.step (a := .cbAttackedBy 1 tavern) rfl
  exact absurd ((hall _ hattacked).1.target 1 rfl not_mem_nil) (by decide)

end Lpmud.Targets
