import Lpmud.Lib.TransitionSystem
import Lpmud.Combat.Tools

/-!
# Equipment accounting

The combat object adds and takes away what tools give, one at a time. Here is what it should come
to (`Accounts`), and that it does as long as the steps keep to `Orderly` (`accounts`).

What goes wrong else: an armour whose class has changed is removed with the class it has now, not
with the one it was worn with (`not_accounts`); a shield that cannot be worn stays among the tools
to parry with; a second weapon takes the place of a first one in an attack without taking it away.
-/

namespace Lpmud.Combat

open Function List Finset

variable {L : Living} {tools : Obj → Tool} {c : Ctool} {e : Equipment} {arm wep ob : Obj}
  {hid : ℤ}

/-! ### Accounts -/

/-- **The accounts are right.** Each hit location has its natural armour class and that of the
armours worn there; the slots that are taken are those of the tools in use; and each of these that
helps to parry is there once. -/
structure Accounts (L : Living) (e : Equipment) : Prop where
  ac : ∀ hid ∈ L.hitlocId, (e.ctool.hitloc hid).ac =
    L.naturalAc hid + ∑ ob ∈ e.worn with hid ∈ (e.tools ob).protects, (e.tools ob).ac hid
  slots : ∀ slot ob, e.ctool.toolSlots.lookup slot = some ob ↔
    ob ∈ e.worn ∪ e.wielded ∧ slot ∈ (e.tools ob).slots
  defense : ∀ ob, (e.ctool.aidDefense.map Defense.ob).count ob =
    if ob ∈ e.worn ∧ L.ParriesWorn (e.tools ob) ∨ ob ∈ e.wielded ∧ L.ParriesWielded (e.tools ob)
    then 1 else 0

/-- The hit location gets its natural value again when the last armour is taken off. -/
def Living.Resets (L : Living) (hid : ℤ) : Prop :=
  (L.uaHitdata hid).isSome ∧ L.hitlocId.length < MAX_HITLOC

instance (L : Living) (hid : ℤ) : Decidable (L.Resets hid) :=
  inferInstanceAs (Decidable (_ ∧ _))

/-- **Steps that go well.** No weapon is wielded for an attack that another one aids; no shield
fails to be worn; nothing is worn twice; and an armour class changes only where the armour is the
only one. -/
def Orderly (L : Living) (e : Equipment) : Op → Prop
  | .wield wep moves => (e.tools wep).attackId ∈ L.attackId → e.ctool.SlotsFree (e.tools wep) →
    moves = true →
      wep ∉ e.worn ∧ ∀ w ∈ e.wielded, (e.tools w).attackId ≠ (e.tools wep).attackId
  | .wear arm moves => Wears arm moves
  | .remove arm => Removes arm
  | .update arm ac moves =>
    if arm ∈ e.worn then
      (moves = false → ¬L.ParriesWorn (e.tools arm)) ∧
        ∀ hid ∈ L.guarded (e.tools arm), ac hid = (e.tools arm).ac hid ∨
          L.Resets hid ∧ ∀ ob ∈ e.worn, hid ∈ (e.tools ob).protects → ob = arm
    else Removes arm ∧ Wears arm moves
  | .unwield _ | .change .. => True
where
  /-- a tool that is wielded and holds slots is not removed as an armour -/
  Removes (arm : Obj) : Prop :=
    arm ∈ e.wielded → (e.tools arm).slots = []
  /-- an armour that is worn is not yet used, and leaves a trace that it can be removed by -/
  Wears (arm : Obj) (moves : Bool) : Prop :=
    e.ctool.SlotsFree (e.tools arm) →
      if moves then
        arm ∉ e.worn ∧ arm ∉ e.wielded ∧ (L.guarded (e.tools arm)).Nodup ∧
          ((e.tools arm).slots ≠ [] ∨ L.guarded (e.tools arm) ≠ [] ∨ ¬L.ParriesWorn (e.tools arm))
      else ¬L.ParriesWorn (e.tools arm)

/-- What is kept by each step that goes well. -/
structure Kept (L : Living) (e : Equipment) : Prop where
  slots : ∀ slot ob, e.ctool.toolSlots.lookup slot = some ob ↔
    ob ∈ e.worn ∪ e.wielded ∧ slot ∈ (e.tools ob).slots
  attack : ∀ aid ob, e.ctool.aidAttack aid = some ob ↔
    ob ∈ e.wielded ∧ (e.tools ob).attackId = aid
  armours : ∀ hid ob, (e.ctool.armours hid).count ob =
    if ob ∈ e.worn ∧ hid ∈ L.guarded (e.tools ob) then 1 else 0
  ac : ∀ hid ∈ L.hitlocId, (e.ctool.hitloc hid).ac =
    L.naturalAc hid + ((e.ctool.armours hid).map fun ob ↦ (e.tools ob).ac hid).sum
  defense : ∀ ob, (e.ctool.aidDefense.map Defense.ob).count ob =
    if ob ∈ e.worn ∧ L.ParriesWorn (e.tools ob) ∨ ob ∈ e.wielded ∧ L.ParriesWielded (e.tools ob)
    then 1 else 0
  disjoint : Disjoint e.worn e.wielded
  nodup : ∀ ob ∈ e.worn, (L.guarded (e.tools ob)).Nodup
  trace : ∀ ob ∈ e.worn, (e.tools ob).slots ≠ [] ∨ L.guarded (e.tools ob) ≠ [] ∨
    ¬L.ParriesWorn (e.tools ob)

theorem Living.mem_guarded {t : Tool} :
    hid ∈ L.guarded t ↔ hid ∈ t.protects ∧ hid ∈ L.hitlocId := by
  rw [Living.guarded, mem_filter, decide_eq_true_eq]

theorem Kept.toAccounts (h : Kept L e) : Accounts L e := by
  refine ⟨fun hid hmem ↦ ?_, h.slots, h.defense⟩
  have hnodup : (e.ctool.armours hid).Nodup := by
    refine nodup_iff_count_le_one.2 fun ob ↦ ?_
    rw [h.armours]
    split_ifs <;> omega
  have hset : (e.ctool.armours hid).toFinset =
      e.worn.filter fun ob ↦ hid ∈ (e.tools ob).protects := by
    ext ob
    rw [mem_toFinset, ← count_pos_iff, h.armours, Finset.mem_filter]
    split_ifs with hob
    · simpa using ⟨hob.1, (Living.mem_guarded.1 hob.2).1⟩
    · simpa using fun hworn hprotects ↦ hob ⟨hworn, Living.mem_guarded.2 ⟨hprotects, hmem⟩⟩
  rw [h.ac hid hmem, ← hset, sum_toFinset _ hnodup]

/-! ### What the functions do -/

theorem lookup_filterValues (p : Obj → Bool) (m : AList fun _ : ℤ ↦ Obj) (slot : ℤ) :
    (filterValues p m).lookup slot = (m.lookup slot).filter p := by
  ext ob
  rw [← Option.mem_def, AList.mem_lookup_iff, Option.filter_eq_some_iff, ← Option.mem_def,
    AList.mem_lookup_iff]
  exact mem_filter

theorem lookup_foldl_insert (slots : List ℤ) (m : AList fun _ : ℤ ↦ Obj) (slot : ℤ) :
    (slots.foldl (fun m slot ↦ m.insert slot ob) m).lookup slot =
      if slot ∈ slots then some ob else m.lookup slot := by
  induction slots generalizing m with
  | nil => simp
  | cons s slots ih =>
    rw [foldl_cons, ih]
    by_cases hs : slot = s
    · subst hs
      simp
    · simp [hs, AList.lookup_insert_ne hs]

namespace Ctool

theorem addHitloc_eq (ac : Ac) (prchit : ℤ) (desc : String) (id : ℤ) :
    c.addHitloc L ac prchit desc id =
      { c with hitloc := (c.addHitloc L ac prchit desc id).hitloc } := by
  rw [addHitloc]
  split_ifs <;> rfl

theorem adjustAc_eq (rm : Bool) : c.adjustAc L tools hid arm rm =
    { c with hitloc := (c.adjustAc L tools hid arm rm).hitloc } := by
  rw [adjustAc, addHitloc_eq]

theorem crResetHitloc_eq : c.crResetHitloc L hid =
    { c with hitloc := (c.crResetHitloc L hid).hitloc } := by
  rw [crResetHitloc]
  cases L.uaHitdata hid with
  | none => rfl
  | some hloc => exact addHitloc_eq ..

theorem adjustAc_ac (rm : Bool) (hid' : ℤ) : ((c.adjustAc L tools hid arm rm).hitloc hid').ac =
    if hid' = hid then
      if rm then (c.hitloc hid).ac - (tools arm).ac hid else (c.hitloc hid).ac + (tools arm).ac hid
    else (c.hitloc hid').ac := by
  rw [adjustAc, addHitloc]
  split_ifs <;> simp_all

theorem crResetHitloc_ac (hid' : ℤ) : ((c.crResetHitloc L hid).hitloc hid').ac =
    if hid' = hid ∧ L.Resets hid then L.naturalAc hid else (c.hitloc hid').ac := by
  rw [crResetHitloc]
  cases hdata : L.uaHitdata hid with
  | none => simp [Living.Resets, hdata]
  | some hloc =>
    have hac := L.uaHitdata_ac hid hloc hdata
    have hresets : L.Resets hid ↔ ¬MAX_HITLOC ≤ L.hitlocId.length := by
      simp [Living.Resets, hdata]
    simp only [addHitloc, hresets, hac]
    split_ifs <;> simp_all

@[simp]
theorem armours_insert (hid' : ℤ) (obs : List Obj) :
    { c with aidHitloc := c.aidHitloc.insert hid obs }.armours hid' =
      if hid' = hid then obs else c.armours hid' := by
  rw [armours, armours]
  split_ifs with h
  · rw [h, AList.lookup_insert]
    rfl
  · rw [AList.lookup_insert_ne h]

/-! ### Wearing -/

theorem protect_eq : c.protect L tools arm hid =
    { c with
      aidHitloc := c.aidHitloc.insert hid (c.armours hid ++ [arm])
      hitloc := (c.protect L tools arm hid).hitloc } :=
  adjustAc_eq false

theorem protect_armours (hid' : ℤ) : (c.protect L tools arm hid).armours hid' =
    if hid' = hid then c.armours hid ++ [arm] else c.armours hid' := by
  rw [protect_eq]
  exact armours_insert hid' _

theorem protect_ac (hid' : ℤ) : ((c.protect L tools arm hid).hitloc hid').ac =
    if hid' = hid then (c.hitloc hid).ac + (tools arm).ac hid else (c.hitloc hid').ac :=
  adjustAc_ac false hid'

variable (L tools c arm) in
theorem foldl_protect_frame (hids : List ℤ) :
    let c' := hids.foldl (fun c hid ↦ c.protect L tools arm hid) c
    c'.aidAttack = c.aidAttack ∧ c'.toolSlots = c.toolSlots ∧ c'.aidDefense = c.aidDefense := by
  induction hids generalizing c with
  | nil => exact ⟨rfl, rfl, rfl⟩
  | cons h hids ih =>
    obtain ⟨hattack, hslots, hdefense⟩ := ih (c.protect L tools arm h)
    refine ⟨hattack.trans ?_, hslots.trans ?_, hdefense.trans ?_⟩ <;> rw [protect_eq]

variable (L tools c arm) in
theorem foldl_protect {hids : List ℤ} (hnodup : hids.Nodup) (hid : ℤ) :
    let c' := hids.foldl (fun c hid ↦ c.protect L tools arm hid) c
    c'.armours hid = (if hid ∈ hids then c.armours hid ++ [arm] else c.armours hid) ∧
      (c'.hitloc hid).ac =
        if hid ∈ hids then (c.hitloc hid).ac + (tools arm).ac hid else (c.hitloc hid).ac := by
  induction hids generalizing c with
  | nil => simp
  | cons h hids ih =>
    obtain ⟨hnotin, hnodup⟩ := nodup_cons.1 hnodup
    obtain ⟨harmours, hac⟩ := ih (c.protect L tools arm h) hnodup
    rw [protect_armours] at harmours
    rw [protect_ac] at hac
    dsimp only
    rw [foldl_cons, harmours, hac]
    by_cases hhid : hid = h
    · subst hhid
      simp [hnotin]
    · simp [hhid]

/-! ### Removing -/

theorem adjustAc_armours (rm : Bool) (hid' : ℤ) :
    (c.adjustAc L tools hid arm rm).armours hid' = c.armours hid' := by
  rw [adjustAc_eq]
  rfl

/-- The armour is taken from the hit location, before this gets its natural value again. -/
def release (L : Living) (tools : Obj → Tool) (c : Ctool) (arm : Obj) (hid : ℤ) : Ctool :=
  { c.adjustAc L tools hid arm true with
    aidHitloc := c.aidHitloc.insert hid ((c.armours hid).erase arm) }

theorem unprotect_of_mem (h : arm ∈ c.armours hid) : c.unprotect L tools arm hid =
    if (c.armours hid).erase arm = [] then (c.release L tools arm hid).crResetHitloc L hid
    else c.release L tools arm hid := by
  rw [unprotect, if_pos h]
  dsimp only
  rw [adjustAc_armours, release, adjustAc_eq]

theorem unprotect_of_not_mem (h : arm ∉ c.armours hid) : c.unprotect L tools arm hid = c :=
  if_neg h

theorem unprotect_eq : c.unprotect L tools arm hid =
    { c with
      aidHitloc := (c.unprotect L tools arm hid).aidHitloc
      hitloc := (c.unprotect L tools arm hid).hitloc } := by
  by_cases h : arm ∈ c.armours hid
  · rw [unprotect_of_mem h, release, adjustAc_eq]
    split_ifs
    · rw [crResetHitloc_eq]
    · rfl
  · rw [unprotect_of_not_mem h]

theorem release_armours (hid' : ℤ) : (c.release L tools arm hid).armours hid' =
    if hid' = hid then (c.armours hid).erase arm else c.armours hid' :=
  armours_insert hid' _

theorem unprotect_armours (hid' : ℤ) : (c.unprotect L tools arm hid).armours hid' =
    if hid' = hid then (c.armours hid).erase arm else c.armours hid' := by
  by_cases h : arm ∈ c.armours hid
  · rw [unprotect_of_mem h, ← release_armours hid']
    split_ifs
    · rw [crResetHitloc_eq]
      rfl
    · rfl
  · rw [unprotect_of_not_mem h, erase_of_not_mem h]
    split_ifs with heq
    · rw [heq]
    · rfl

theorem unprotect_ac (hid' : ℤ) : ((c.unprotect L tools arm hid).hitloc hid').ac =
    if hid' = hid ∧ arm ∈ c.armours hid then
      if (c.armours hid).erase arm = [] ∧ L.Resets hid then L.naturalAc hid
      else (c.hitloc hid).ac - (tools arm).ac hid
    else (c.hitloc hid').ac := by
  by_cases h : arm ∈ c.armours hid
  · have hrelease : ((c.release L tools arm hid).hitloc hid').ac =
        if hid' = hid then (c.hitloc hid).ac - (tools arm).ac hid else (c.hitloc hid').ac :=
      adjustAc_ac true hid'
    rw [unprotect_of_mem h]
    by_cases hleft : (c.armours hid).erase arm = []
    · rw [if_pos hleft, crResetHitloc_ac, hrelease]
      simp only [h, hleft, and_true, true_and]
      split_ifs <;> simp_all
    · rw [if_neg hleft, hrelease]
      simp only [h, hleft, and_true, false_and, if_false]
  · rw [unprotect_of_not_mem h, if_neg fun hh ↦ h hh.2]

variable (L tools c arm) in
theorem foldl_unprotect_frame (hids : List ℤ) :
    let c' := hids.foldl (fun c hid ↦ c.unprotect L tools arm hid) c
    c'.aidAttack = c.aidAttack ∧ c'.toolSlots = c.toolSlots ∧ c'.aidDefense = c.aidDefense := by
  induction hids generalizing c with
  | nil => exact ⟨rfl, rfl, rfl⟩
  | cons h hids ih =>
    obtain ⟨hattack, hslots, hdefense⟩ := ih (c.unprotect L tools arm h)
    refine ⟨hattack.trans ?_, hslots.trans ?_, hdefense.trans ?_⟩ <;> rw [unprotect_eq]

variable (L tools c arm) in
theorem foldl_unprotect {hids : List ℤ} (hnodup : hids.Nodup) (hid : ℤ) :
    let c' := hids.foldl (fun c hid ↦ c.unprotect L tools arm hid) c
    c'.armours hid = (if hid ∈ hids then (c.armours hid).erase arm else c.armours hid) ∧
      (c'.hitloc hid).ac = if hid ∈ hids ∧ arm ∈ c.armours hid then
        if (c.armours hid).erase arm = [] ∧ L.Resets hid then L.naturalAc hid
        else (c.hitloc hid).ac - (tools arm).ac hid
      else (c.hitloc hid).ac := by
  induction hids generalizing c with
  | nil => simp
  | cons h hids ih =>
    obtain ⟨hnotin, hnodup⟩ := nodup_cons.1 hnodup
    obtain ⟨harmours, hac⟩ := ih (c.unprotect L tools arm h) hnodup
    rw [unprotect_armours] at harmours
    rw [unprotect_armours, unprotect_ac] at hac
    dsimp only
    rw [foldl_cons, harmours, hac]
    by_cases hhid : hid = h
    · subst hhid
      simp [hnotin]
    · simp [hhid]

theorem uses_eq_true : c.uses arm = true ↔
    (∃ slot, c.toolSlots.lookup slot = some arm) ∨ ∃ hid, arm ∈ c.armours hid := by
  rw [uses, Bool.or_eq_true, any_eq_true, any_eq_true]
  refine or_congr ⟨?_, ?_⟩ ⟨?_, ?_⟩
  · rintro ⟨⟨slot, ob⟩, hmem, heq⟩
    rw [decide_eq_true_eq] at heq
    exact ⟨slot, AList.mem_lookup_iff.2 (heq ▸ hmem)⟩
  · rintro ⟨slot, hlookup⟩
    exact ⟨⟨slot, arm⟩, AList.mem_lookup_iff.1 hlookup, decide_eq_true rfl⟩
  · rintro ⟨⟨hid, obs⟩, hmem, hobs⟩
    rw [decide_eq_true_eq] at hobs
    refine ⟨hid, ?_⟩
    rw [armours, AList.mem_lookup_iff.2 hmem]
    exact hobs
  · rintro ⟨hid, hobs⟩
    rw [armours] at hobs
    cases hlookup : c.aidHitloc.lookup hid with
    | none => simp [hlookup] at hobs
    | some obs =>
      rw [hlookup] at hobs
      exact ⟨⟨hid, obs⟩, AList.mem_lookup_iff.1 hlookup, decide_eq_true hobs⟩

theorem excludeDefense_map : (c.excludeDefense ob).aidDefense.map Defense.ob =
    (c.aidDefense.map Defense.ob).erase ob := by
  have hp : (fun d : Defense ↦ decide (d.ob = ob)) = (fun x ↦ ob == x) ∘ Defense.ob := by
    funext d
    exact decide_eq_decide.2 eq_comm
  rw [erase_eq_eraseP, eraseP_map, excludeDefense, hp]

theorem addDefense_map (bonus : ℤ) :
    (c.addDefense L tools ob bonus).aidDefense.map Defense.ob =
      c.aidDefense.map Defense.ob ++ [ob] := by
  simp [addDefense, cbModifyDefProcuse]

variable (tools) in
/-- **What is left when an armour is removed.** -/
theorem cbRemoveArm_spec (hhids : ∀ hid, arm ∈ c.armours hid → hid ∈ L.hitlocId) :
    let c' := c.cbRemoveArm L tools arm
    c'.aidAttack = c.aidAttack ∧
      (∀ slot, c'.toolSlots.lookup slot = (c.toolSlots.lookup slot).filter (· ≠ arm)) ∧
      (∀ hid, c'.armours hid = (c.armours hid).erase arm) ∧
      (∀ hid, (c'.hitloc hid).ac = if arm ∈ c.armours hid then
        if (c.armours hid).erase arm = [] ∧ L.Resets hid then L.naturalAc hid
        else (c.hitloc hid).ac - (tools arm).ac hid
      else (c.hitloc hid).ac) ∧
      c'.aidDefense.map Defense.ob =
        if c.uses arm then (c.aidDefense.map Defense.ob).erase arm
        else c.aidDefense.map Defense.ob := by
  dsimp only
  by_cases huses : c.uses arm = true
  · let freed : Ctool := { c with toolSlots := filterValues (fun ob ↦ ob ≠ arm) c.toolSlots }
    have heq : c.cbRemoveArm L tools arm =
        (L.hitlocId.foldl (fun c hid ↦ c.unprotect L tools arm hid) freed).excludeDefense arm := by
      rw [cbRemoveArm, if_neg (by rw [huses]; exact nofun)]
    obtain ⟨hattack, hslots, hdefense⟩ := foldl_unprotect_frame L tools freed arm L.hitlocId
    have hhid (hid : ℤ) := foldl_unprotect L tools freed arm L.hitlocId_nodup hid
    rw [heq, excludeDefense_map, if_pos huses]
    refine ⟨?_, fun slot ↦ ?_, fun hid ↦ ?_, fun hid ↦ ?_, ?_⟩
    · exact hattack
    · exact (congrArg (AList.lookup slot) hslots).trans (lookup_filterValues _ c.toolSlots slot)
    · refine (hhid hid).1.trans ?_
      split_ifs with hmem
      · rfl
      · exact (erase_of_not_mem fun h ↦ hmem (hhids hid h)).symm
    · refine (hhid hid).2.trans ?_
      exact if_congr (and_iff_right_of_imp (hhids hid)) rfl rfl
    · rw [hdefense]
  · have hunused := (not_congr uses_eq_true).1 huses
    push Not at hunused
    have heq : c.cbRemoveArm L tools arm = c := if_pos (Bool.eq_false_iff.2 huses)
    rw [heq, if_neg huses]
    refine ⟨rfl, fun slot ↦ ?_, fun hid ↦ ?_, fun hid ↦ ?_, rfl⟩
    · have hslot := hunused.1 slot
      cases hlookup : c.toolSlots.lookup slot with
      | none => rfl
      | some ob =>
        rw [Option.filter_some, if_pos]
        exact decide_eq_true fun h ↦ hslot (h ▸ hlookup)
    · exact (erase_of_not_mem (hunused.2 hid)).symm
    · rw [if_neg (hunused.2 hid)]

/-- The armour as a shield, before it is worn. -/
def shielded (L : Living) (tools : Obj → Tool) (c : Ctool) (arm : Obj) : Ctool :=
  if (tools arm).parryBonus = 0 then c else c.zalozTarcze L tools arm

theorem shielded_eq : c.shielded L tools arm =
    { c with aidDefense := (c.shielded L tools arm).aidDefense } := by
  rw [shielded, zalozTarcze]
  split_ifs <;> rfl

theorem shielded_of_not (h : ¬L.ParriesWorn (tools arm)) : c.shielded L tools arm = c := by
  rw [shielded, zalozTarcze]
  split_ifs with hzero hbonus
  · rfl
  · exact absurd ⟨hzero, hbonus⟩ h
  · rfl

theorem shielded_map : (c.shielded L tools arm).aidDefense.map Defense.ob =
    c.aidDefense.map Defense.ob ++ if L.ParriesWorn (tools arm) then [arm] else [] := by
  by_cases h : L.ParriesWorn (tools arm)
  · rw [shielded, if_neg h.1, zalozTarcze, if_pos h.2, addDefense_map, if_pos h]
  · rw [shielded_of_not h, if_neg h, append_nil]

theorem cbWearArm_of_free (hfree : c.SlotsFree (tools arm)) :
    c.cbWearArm L tools arm true = (none,
      (L.guarded (tools arm)).foldl (fun c hid ↦ c.protect L tools arm hid)
        ((c.shielded L tools arm).take tools arm)) := by
  rw [cbWearArm, if_neg (not_not.2 hfree)]
  rfl

/-- **What there is when an armour has been worn.** -/
theorem cbWearArm_spec (hfree : c.SlotsFree (tools arm)) (hnodup : (L.guarded (tools arm)).Nodup) :
    let c' := (c.cbWearArm L tools arm true).2
    c'.aidAttack = c.aidAttack ∧
      (∀ slot, c'.toolSlots.lookup slot =
        if slot ∈ (tools arm).slots then some arm else c.toolSlots.lookup slot) ∧
      (∀ hid, c'.armours hid =
          (if hid ∈ L.guarded (tools arm) then c.armours hid ++ [arm] else c.armours hid) ∧
        (c'.hitloc hid).ac =
          if hid ∈ L.guarded (tools arm) then (c.hitloc hid).ac + (tools arm).ac hid
          else (c.hitloc hid).ac) ∧
      c'.aidDefense.map Defense.ob = c.aidDefense.map Defense.ob ++
        if L.ParriesWorn (tools arm) then [arm] else [] := by
  let taken := (c.shielded L tools arm).take tools arm
  obtain ⟨hattack, hslots, hdefense⟩ := foldl_protect_frame L tools taken arm
    (L.guarded (tools arm))
  have hhid (hid : ℤ) := foldl_protect L tools taken arm hnodup hid
  have htaken : taken = { c with
      toolSlots := (tools arm).slots.foldl (fun m slot ↦ m.insert slot arm) c.toolSlots
      aidDefense := (c.shielded L tools arm).aidDefense } := by
    dsimp only [taken, take]
    rw [shielded_eq]
  dsimp only
  rw [cbWearArm_of_free hfree]
  refine ⟨?_, fun slot ↦ ?_, fun hid ↦ ?_, ?_⟩
  · rw [hattack, htaken]
  · rw [hslots, htaken, lookup_foldl_insert]
  · have hstart : taken.armours hid = c.armours hid ∧ taken.hitloc hid = c.hitloc hid := by
      rw [htaken]
      exact ⟨rfl, rfl⟩
    have hhid := hhid hid
    dsimp only at hhid
    rwa [hstart.1, hstart.2] at hhid
  · rw [hdefense, htaken, shielded_map]

/-! ### Wielding -/

/-- The combat object when the slots of a weapon are taken and it aids its attack. -/
def held (tools : Obj → Tool) (c : Ctool) (wep : Obj) : Ctool :=
  { c.take tools wep with
    aidAttack := Function.update c.aidAttack (tools wep).attackId (some wep) }

theorem cbWieldWeapon_of_free (haid : (tools wep).attackId ∈ L.attackId)
    (hfree : c.SlotsFree (tools wep)) : c.cbWieldWeapon L tools wep true = (none,
      if L.ParriesWielded (tools wep) then
        (c.held tools wep).addDefense L tools wep (L.weaponParry (tools wep))
      else c.held tools wep) := by
  rw [cbWieldWeapon, if_neg (not_not.2 haid), if_neg (not_not.2 hfree)]
  rfl

/-- **What there is when a weapon is wielded.** -/
theorem cbWieldWeapon_spec (haid : (tools wep).attackId ∈ L.attackId)
    (hfree : c.SlotsFree (tools wep)) :
    let c' := (c.cbWieldWeapon L tools wep true).2
    c' = { c.held tools wep with aidDefense := c'.aidDefense } ∧
      c'.aidDefense.map Defense.ob = c.aidDefense.map Defense.ob ++
        if L.ParriesWielded (tools wep) then [wep] else [] := by
  dsimp only
  rw [cbWieldWeapon_of_free haid hfree]
  split_ifs
  · exact ⟨rfl, addDefense_map _⟩
  · exact ⟨rfl, (append_nil _).symm⟩

end Ctool

/-! ### Each step -/

theorem count_ite_of_ne (h : ob ≠ arm) (p : Prop) [Decidable p] :
    (if p then [arm] else []).count ob = 0 := by
  split_ifs
  · rw [count_singleton, if_neg (by simpa using h.symm)]
  · rfl

section SetAc

variable (ac : ℤ → Ac)

theorem setAc_ctool : (e.setAc arm ac).ctool = e.ctool := rfl
theorem setAc_worn : (e.setAc arm ac).worn = e.worn := rfl
theorem setAc_wielded : (e.setAc arm ac).wielded = e.wielded := rfl

theorem setAc_tools : (e.setAc arm ac).tools ob =
    { e.tools ob with ac := if ob = arm then ac else (e.tools ob).ac } := by
  rw [Equipment.setAc]
  dsimp only
  rw [update_apply]
  split_ifs with hob
  · rw [hob]
  · rfl

theorem setAc_slots : ((e.setAc arm ac).tools ob).slots = (e.tools ob).slots := by
  rw [setAc_tools]

theorem setAc_attackId : ((e.setAc arm ac).tools ob).attackId = (e.tools ob).attackId := by
  rw [setAc_tools]

theorem setAc_guarded : L.guarded ((e.setAc arm ac).tools ob) = L.guarded (e.tools ob) := by
  rw [setAc_tools]
  rfl

theorem setAc_parriesWorn :
    L.ParriesWorn ((e.setAc arm ac).tools ob) ↔ L.ParriesWorn (e.tools ob) := by
  rw [setAc_tools]
  rfl

theorem setAc_parriesWielded :
    L.ParriesWielded ((e.setAc arm ac).tools ob) ↔ L.ParriesWielded (e.tools ob) := by
  rw [setAc_tools]
  rfl

end SetAc

namespace Kept

theorem not_mem_of_free (h : Kept L e) (hfree : e.ctool.SlotsFree (e.tools arm)) {slot : ℤ}
    (hslot : slot ∈ (e.tools arm).slots) (hob : ob ∈ e.worn ∪ e.wielded) :
    slot ∉ (e.tools ob).slots := by
  intro hmem
  have hlookup := (h.slots slot ob).2 ⟨hob, hmem⟩
  rw [hfree slot hslot] at hlookup
  cases hlookup

theorem slots_insert (h : Kept L e) (hfree : e.ctool.SlotsFree (e.tools arm)) {slot : ℤ} :
    (if slot ∈ (e.tools arm).slots then some arm else e.ctool.toolSlots.lookup slot) = some ob ↔
      (ob = arm ∨ ob ∈ e.worn ∪ e.wielded) ∧ slot ∈ (e.tools ob).slots := by
  split_ifs with hslot
  · rw [Option.some.injEq]
    refine ⟨fun heq ↦ heq ▸ ⟨.inl rfl, hslot⟩, fun ⟨hob, hmem⟩ ↦ ?_⟩
    exact (hob.resolve_right fun hold ↦ h.not_mem_of_free hfree hslot hold hmem).symm
  · rw [h.slots]
    refine and_congr_left fun hmem ↦ (or_iff_right ?_).symm
    rintro rfl
    exact hslot hmem

theorem mem_armours (h : Kept L e) :
    ob ∈ e.ctool.armours hid ↔ ob ∈ e.worn ∧ hid ∈ L.guarded (e.tools ob) := by
  rw [← count_pos_iff, h.armours]
  split_ifs with hob
  · exact iff_of_true one_pos hob
  · exact iff_of_false (lt_irrefl 0) hob

theorem wear_of_free (h : Kept L e) (hfree : e.ctool.SlotsFree (e.tools arm))
    (hworn : arm ∉ e.worn) (hwielded : arm ∉ e.wielded) (hnodup : (L.guarded (e.tools arm)).Nodup)
    (htrace : (e.tools arm).slots ≠ [] ∨ L.guarded (e.tools arm) ≠ [] ∨
      ¬L.ParriesWorn (e.tools arm)) :
    Kept L { e with
      ctool := (e.ctool.cbWearArm L e.tools arm true).2
      worn := insert arm e.worn } := by
  obtain ⟨hattack, hslots, hhid, hdefense⟩ := Ctool.cbWearArm_spec (L := L) hfree hnodup
  constructor
  case slots =>
    intro slot ob
    rw [hslots, insert_union, mem_insert]
    exact h.slots_insert hfree
  case attack =>
    rw [hattack]
    exact h.attack
  case armours =>
    intro hid ob
    rw [(hhid hid).1]
    by_cases hob : ob = arm
    · subst hob
      have hzero : (e.ctool.armours hid).count ob = 0 := by
        rw [h.armours, if_neg fun hh ↦ hworn hh.1]
      split_ifs <;> simp_all
    · have hcount : (if hid ∈ L.guarded (e.tools arm) then e.ctool.armours hid ++ [arm]
          else e.ctool.armours hid).count ob = (e.ctool.armours hid).count ob := by
        split_ifs <;> simp [Ne.symm hob]
      simp only [hcount, h.armours, mem_insert, hob, false_or]
  case ac =>
    intro hid hmem
    rw [(hhid hid).1, (hhid hid).2]
    split_ifs
    · rw [h.ac hid hmem, List.map_append, List.sum_append, add_assoc, List.map_singleton,
        List.sum_singleton]
    · exact h.ac hid hmem
  case defense =>
    intro ob
    rw [hdefense, count_append, h.defense]
    by_cases hob : ob = arm
    · subst hob
      simp [hworn, hwielded, apply_ite (List.count ob)]
    · simp only [count_ite_of_ne hob, mem_insert, hob, false_or, add_zero]
  case disjoint => exact disjoint_insert_left.2 ⟨hwielded, h.disjoint⟩
  case nodup => exact (forall_mem_insert ..).2 ⟨hnodup, h.nodup⟩
  case trace => exact (forall_mem_insert ..).2 ⟨htrace, h.trace⟩

theorem wear (h : Kept L e) {moves : Bool} (hwears : Orderly.Wears L e arm moves) :
    Kept L (e.wear L arm moves) := by
  by_cases hfree : e.ctool.SlotsFree (e.tools arm)
  · cases moves with
    | false =>
      have hparries : ¬L.ParriesWorn (e.tools arm) := by simpa using hwears hfree
      have hwear : e.ctool.cbWearArm L e.tools arm false = (some .notMoved, e.ctool) := by
        rw [Ctool.cbWearArm, if_neg (not_not.2 hfree)]
        exact congrArg (Prod.mk _) (Ctool.shielded_of_not hparries)
      rw [Equipment.wear, hwear]
      exact h
    | true =>
      obtain ⟨hworn, hwielded, hnodup, htrace⟩ := hwears hfree
      rw [Equipment.wear, Ctool.cbWearArm_of_free hfree]
      have hkept := h.wear_of_free hfree hworn hwielded hnodup htrace
      rwa [Ctool.cbWearArm_of_free hfree] at hkept
  · have hwear : e.ctool.cbWearArm L e.tools arm moves = (some .slotsTaken, e.ctool) :=
      if_pos hfree
    rw [Equipment.wear, hwear]
    exact h

theorem nodup_armours (h : Kept L e) : (e.ctool.armours hid).Nodup := by
  refine nodup_iff_count_le_one.2 fun ob ↦ ?_
  rw [h.armours]
  split_ifs
  · exact le_rfl
  · exact Nat.zero_le 1

theorem uses_iff (h : Kept L e) : e.ctool.uses arm = true ↔
    arm ∈ e.worn ∪ e.wielded ∧ (e.tools arm).slots ≠ [] ∨
      arm ∈ e.worn ∧ L.guarded (e.tools arm) ≠ [] := by
  have hne (l : List ℤ) : (∃ x, x ∈ l) ↔ l ≠ [] :=
    ⟨fun ⟨_, hx⟩ ↦ ne_nil_of_mem hx, exists_mem_of_ne_nil l⟩
  rw [Ctool.uses_eq_true]
  refine or_congr ?_ ?_
  · simp only [h.slots, exists_and_left, hne]
  · simp only [h.mem_armours, exists_and_left, hne]

theorem removed_ac (h : Kept L e) {ac : Ac} (hmem : hid ∈ L.hitlocId)
    (harm : arm ∈ e.ctool.armours hid)
    (hac : ac = (e.tools arm).ac hid ∨ L.Resets hid ∧ e.ctool.armours hid = [arm]) :
    (if (e.ctool.armours hid).erase arm = [] ∧ L.Resets hid then L.naturalAc hid
      else (e.ctool.hitloc hid).ac - ac) =
      L.naturalAc hid +
        (((e.ctool.armours hid).erase arm).map fun ob ↦ (e.tools ob).ac hid).sum := by
  split_ifs with hleft
  · rw [hleft.1, map_nil, sum_nil, add_zero]
  · rcases hac with rfl | ⟨hresets, hone⟩
    · rw [h.ac hid hmem, ← sum_map_erase _ harm]
      rw [add_left_comm, add_sub_cancel_left]
    · exact absurd ⟨by rw [hone, erase_cons_head], hresets⟩ hleft

theorem removed_defense (h : Kept L e) (hremoves : Orderly.Removes e arm) :
    (if e.ctool.uses arm then (e.ctool.aidDefense.map Defense.ob).erase arm
      else e.ctool.aidDefense.map Defense.ob).count arm =
      if arm ∈ e.wielded ∧ L.ParriesWielded (e.tools arm) then 1 else 0 := by
  by_cases huses : e.ctool.uses arm = true
  · have hworn : arm ∈ e.worn := by
      rcases h.uses_iff.1 huses with ⟨hmem, hslots⟩ | ⟨hmem, -⟩
      · exact (mem_union.1 hmem).resolve_right fun hwielded ↦ hslots (hremoves hwielded)
      · exact hmem
    have hwielded : ¬(arm ∈ e.wielded ∧ L.ParriesWielded (e.tools arm)) :=
      fun hh ↦ disjoint_left.1 h.disjoint hworn hh.1
    rw [if_pos huses, count_erase_self, h.defense, if_neg hwielded]
    split_ifs <;> rfl
  · have hworn : ¬(arm ∈ e.worn ∧ L.ParriesWorn (e.tools arm)) := by
      rintro ⟨hmem, hparries⟩
      refine huses (h.uses_iff.2 ?_)
      rcases h.trace arm hmem with hslots | hguarded | hnot
      · exact .inl ⟨mem_union_left _ hmem, hslots⟩
      · exact .inr ⟨hmem, hguarded⟩
      · exact absurd hparries hnot
    rw [if_neg huses, h.defense]
    exact if_congr (or_iff_right hworn) rfl rfl

theorem remove (h : Kept L e) (ac : ℤ → Ac) (hremoves : Orderly.Removes e arm)
    (hac : arm ∈ e.worn → ∀ hid ∈ L.guarded (e.tools arm), ac hid = (e.tools arm).ac hid ∨
      L.Resets hid ∧ ∀ ob ∈ e.worn, hid ∈ (e.tools ob).protects → ob = arm) :
    Kept L ((e.setAc arm ac).remove L arm) := by
  have hhids : ∀ hid, arm ∈ e.ctool.armours hid → hid ∈ L.hitlocId := fun hid hmem ↦
    (Living.mem_guarded.1 (h.mem_armours.1 hmem).2).2
  obtain ⟨hattack, hslots, harmours, hhitloc, hdefense⟩ :=
    Ctool.cbRemoveArm_spec (e.setAc arm ac).tools hhids
  constructor <;> dsimp only [Equipment.remove, setAc_ctool, setAc_worn, setAc_wielded]
  case slots =>
    intro slot ob
    refine (Eq.congr_left (hslots slot)).trans (Option.filter_eq_some_iff.trans ?_)
    rw [h.slots, decide_eq_true_eq, setAc_slots, mem_union, mem_union, mem_erase]
    constructor
    · rintro ⟨⟨hob, hmem⟩, hne⟩
      exact ⟨hob.imp_left fun hob ↦ ⟨hne, hob⟩, hmem⟩
    · rintro ⟨hob, hmem⟩
      refine ⟨⟨hob.imp_left And.right, hmem⟩, ?_⟩
      rintro rfl
      have hnil := hremoves (hob.resolve_left fun hob ↦ hob.1 rfl)
      exact ne_nil_of_mem hmem hnil
  case attack =>
    intro aid ob
    rw [setAc_attackId]
    exact (Eq.congr_left (congrFun hattack aid)).trans (h.attack aid ob)
  case armours =>
    intro hid ob
    refine (congrArg (List.count ob) (harmours hid)).trans ?_
    simp only [setAc_guarded, mem_erase]
    by_cases hob : ob = arm
    · subst hob
      have hremoved : ¬((ob ≠ ob ∧ ob ∈ e.worn) ∧ hid ∈ L.guarded (e.tools ob)) :=
        fun hh ↦ hh.1.1 rfl
      rw [count_erase_self, h.armours, if_neg hremoved]
      split_ifs <;> rfl
    · rw [count_erase_of_ne hob, h.armours]
      exact if_congr (by rw [and_iff_right hob]) rfl rfl
  case ac =>
    intro hid hmem
    have hsum :
        (((e.ctool.armours hid).erase arm).map fun ob ↦ ((e.setAc arm ac).tools ob).ac hid) =
        ((e.ctool.armours hid).erase arm).map fun ob ↦ (e.tools ob).ac hid := by
      refine map_congr_left fun ob hob ↦ ?_
      have hne : ob ≠ arm := by
        rintro rfl
        exact h.nodup_armours.not_mem_erase hob
      rw [setAc_tools, if_neg hne]
    refine (hhitloc hid).trans ?_
    rw [harmours, hsum]
    by_cases harm : arm ∈ e.ctool.armours hid
    · rw [if_pos harm]
      obtain ⟨harmworn, hguard⟩ := h.mem_armours.1 harm
      have hnew : ((e.setAc arm ac).tools arm).ac hid = ac hid := by
        rw [setAc_tools, if_pos rfl]
      refine h.removed_ac hmem harm ?_
      rw [hnew]
      refine (hac harmworn hid hguard).imp_right (And.imp_right fun honly ↦ ?_)
      have hperm : (e.ctool.armours hid).Perm [arm] := by
        refine (List.perm_ext_iff_of_nodup h.nodup_armours (List.nodup_singleton _)).2 fun ob ↦ ?_
        rw [h.mem_armours, List.mem_singleton]
        refine ⟨fun hob ↦ honly ob hob.1 (Living.mem_guarded.1 hob.2).1, ?_⟩
        rintro rfl
        exact ⟨harmworn, hguard⟩
      exact perm_singleton.1 hperm
    · rw [if_neg harm, erase_of_not_mem harm, h.ac hid hmem]
  case defense =>
    intro ob
    simp only [setAc_parriesWorn, setAc_parriesWielded, mem_erase]
    rw [hdefense]
    by_cases hob : ob = arm
    · subst hob
      rw [h.removed_defense hremoves]
      exact if_congr (by simp) rfl rfl
    · have hcount : (if e.ctool.uses arm = true then (e.ctool.aidDefense.map Defense.ob).erase arm
          else e.ctool.aidDefense.map Defense.ob).count ob =
          (e.ctool.aidDefense.map Defense.ob).count ob := by
        split_ifs
        · exact count_erase_of_ne hob
        · rfl
      rw [hcount, h.defense]
      exact if_congr (by rw [and_iff_right hob]) rfl rfl
  case disjoint => exact disjoint_of_subset_left (erase_subset ..) h.disjoint
  case nodup =>
    intro ob hob
    rw [setAc_guarded]
    exact h.nodup ob (mem_of_mem_erase hob)
  case trace =>
    intro ob hob
    rw [setAc_guarded, setAc_parriesWorn, setAc_slots]
    exact h.trace ob (mem_of_mem_erase hob)

theorem wield_of_free (h : Kept L e) (haid : (e.tools wep).attackId ∈ L.attackId)
    (hfree : e.ctool.SlotsFree (e.tools wep)) (hworn : wep ∉ e.worn)
    (hother : ∀ w ∈ e.wielded, (e.tools w).attackId ≠ (e.tools wep).attackId) :
    Kept L { e with
      ctool := (e.ctool.cbWieldWeapon L e.tools wep true).2
      wielded := insert wep e.wielded } := by
  have hwielded : wep ∉ e.wielded := fun hmem ↦ hother wep hmem rfl
  obtain ⟨heq, hdefense⟩ := Ctool.cbWieldWeapon_spec haid hfree
  constructor <;> dsimp only
  case slots =>
    intro slot ob
    have hslots : (e.ctool.cbWieldWeapon L e.tools wep true).2.toolSlots.lookup slot =
        if slot ∈ (e.tools wep).slots then some wep else e.ctool.toolSlots.lookup slot := by
      rw [heq]
      exact lookup_foldl_insert ..
    rw [hslots, union_insert, mem_insert]
    exact h.slots_insert hfree
  case attack =>
    intro aid ob
    rw [heq]
    dsimp only [Ctool.held]
    rw [update_apply, mem_insert]
    split_ifs with haid'
    · subst haid'
      rw [Option.some.injEq]
      refine ⟨fun heq ↦ heq ▸ ⟨.inl rfl, rfl⟩, fun ⟨hob, hid⟩ ↦ ?_⟩
      exact (hob.resolve_right fun hold ↦ hother ob hold hid).symm
    · rw [h.attack]
      refine and_congr_left fun hid ↦ (or_iff_right ?_).symm
      rintro rfl
      exact haid' hid.symm
  case armours =>
    intro hid ob
    rw [heq]
    exact h.armours hid ob
  case ac =>
    intro hid hmem
    rw [heq]
    exact h.ac hid hmem
  case defense =>
    intro ob
    rw [hdefense, count_append, h.defense]
    by_cases hob : ob = wep
    · subst hob
      simp [hworn, hwielded, apply_ite (List.count ob)]
    · simp only [count_ite_of_ne hob, mem_insert, hob, false_or, add_zero]
  case disjoint => exact disjoint_insert_right.2 ⟨hworn, h.disjoint⟩
  case nodup => exact h.nodup
  case trace => exact h.trace

theorem wield (h : Kept L e) {moves : Bool} (horderly : Orderly L e (.wield wep moves)) :
    Kept L (e.step L (.wield wep moves)) := by
  by_cases haid : (e.tools wep).attackId ∈ L.attackId
  · by_cases hfree : e.ctool.SlotsFree (e.tools wep)
    · cases moves with
      | false =>
        have hwield : e.ctool.cbWieldWeapon L e.tools wep false = (some .notMoved, e.ctool) := by
          rw [Ctool.cbWieldWeapon, if_neg (not_not.2 haid), if_neg (not_not.2 hfree)]
          rfl
        rw [Equipment.step, hwield]
        exact h
      | true =>
        obtain ⟨hworn, hother⟩ := horderly haid hfree rfl
        have hkept := h.wield_of_free haid hfree hworn hother
        rw [Equipment.step, Ctool.cbWieldWeapon_of_free haid hfree]
        rwa [Ctool.cbWieldWeapon_of_free haid hfree] at hkept
    · have hwield : e.ctool.cbWieldWeapon L e.tools wep moves = (some .slotsTaken, e.ctool) := by
        rw [Ctool.cbWieldWeapon, if_neg (not_not.2 haid), if_pos hfree]
      rw [Equipment.step, hwield]
      exact h
  · have hwield : e.ctool.cbWieldWeapon L e.tools wep moves = (some .otherRace, e.ctool) :=
      if_pos haid
    rw [Equipment.step, hwield]
    exact h

theorem unwield (h : Kept L e) : Kept L (e.step L (.unwield wep)) := by
  by_cases hwielded : wep ∈ e.wielded
  · have hworn : wep ∉ e.worn := disjoint_right.1 h.disjoint hwielded
    have hnone (hid : ℤ) : wep ∉ e.ctool.armours hid := fun hmem ↦ hworn (h.mem_armours.1 hmem).1
    let freed : Ctool := { e.ctool with
      aidAttack := Function.update e.ctool.aidAttack (e.tools wep).attackId none }
    obtain ⟨hattack, hslots, harmours, hhitloc, hdefense⟩ :=
      Ctool.cbRemoveArm_spec (L := L) (c := freed) e.tools fun hid hmem ↦ absurd hmem (hnone hid)
    have hunwield : e.step L (.unwield wep) = { e with
        ctool := (freed.cbRemoveArm L e.tools wep).excludeDefense wep
        wielded := e.wielded.erase wep } := by
      rw [Equipment.step, Ctool.cbUnwield,
        if_neg (not_not.2 ((h.attack _ _).2 ⟨hwielded, rfl⟩))]
    have hsame (hid : ℤ) : ((freed.cbRemoveArm L e.tools wep).excludeDefense wep).armours hid =
        e.ctool.armours hid := (harmours hid).trans (erase_of_not_mem (hnone hid))
    rw [hunwield]
    constructor <;> dsimp only
    case slots =>
      intro slot ob
      refine (Eq.congr_left (hslots slot)).trans (Option.filter_eq_some_iff.trans ?_)
      rw [h.slots, decide_eq_true_eq, mem_union, mem_union, mem_erase]
      constructor
      · rintro ⟨⟨hob, hmem⟩, hne⟩
        exact ⟨hob.imp_right fun hob ↦ ⟨hne, hob⟩, hmem⟩
      · rintro ⟨hob, hmem⟩
        refine ⟨⟨hob.imp_right And.right, hmem⟩, ?_⟩
        rintro rfl
        exact hob.elim hworn fun hob ↦ hob.1 rfl
    case attack =>
      intro aid ob
      have hupdate : ((freed.cbRemoveArm L e.tools wep).excludeDefense wep).aidAttack =
          Function.update e.ctool.aidAttack (e.tools wep).attackId none := hattack
      rw [hupdate, update_apply, mem_erase]
      split_ifs with haid
      · subst haid
        refine iff_of_false nofun ?_
        rintro ⟨⟨hne, hob⟩, hid⟩
        have hheld := (h.attack _ _).2 ⟨hob, hid⟩
        rw [(h.attack _ _).2 ⟨hwielded, rfl⟩] at hheld
        exact hne (Option.some.inj hheld).symm
      · rw [h.attack]
        refine and_congr_left fun hid ↦ (and_iff_right ?_).symm
        rintro rfl
        exact haid hid.symm
    case armours =>
      intro hid ob
      rw [hsame]
      exact h.armours hid ob
    case ac =>
      intro hid hmem
      rw [hsame]
      exact ((hhitloc hid).trans (if_neg (hnone hid))).trans (h.ac hid hmem)
    case defense =>
      intro ob
      rw [Ctool.excludeDefense_map, hdefense]
      by_cases hob : ob = wep
      · subst hob
        have hleft : ¬(ob ∈ e.worn ∧ L.ParriesWorn (e.tools ob) ∨
            ob ∈ e.wielded.erase ob ∧ L.ParriesWielded (e.tools ob)) := by
          simp [hworn]
        have hle : (e.ctool.aidDefense.map Defense.ob).count ob ≤ 1 := by
          rw [h.defense]
          split_ifs <;> omega
        rw [if_neg hleft, count_erase_self]
        split_ifs
        · rw [count_erase_self]
          exact Nat.sub_eq_zero_of_le ((Nat.sub_le _ _).trans hle)
        · exact Nat.sub_eq_zero_of_le hle
      · have hcount : (if freed.uses wep = true then (freed.aidDefense.map Defense.ob).erase wep
            else freed.aidDefense.map Defense.ob).count ob =
            (e.ctool.aidDefense.map Defense.ob).count ob := by
          split_ifs
          · exact count_erase_of_ne hob
          · rfl
        rw [count_erase_of_ne hob, hcount, h.defense]
        exact if_congr (by rw [mem_erase, and_iff_right hob]) rfl rfl
    case disjoint => exact disjoint_of_subset_right (erase_subset ..) h.disjoint
    case nodup => exact h.nodup
    case trace => exact h.trace
  · have hunwield : e.step L (.unwield wep) = e := by
      rw [Equipment.step, Ctool.cbUnwield, if_pos, erase_eq_of_notMem hwielded]
      exact fun hheld ↦ hwielded ((h.attack _ _).1 hheld).1
    rw [hunwield]
    exact h

theorem update (h : Kept L e) {ac : ℤ → Ac} {moves : Bool}
    (horderly : Orderly L e (.update arm ac moves)) :
    Kept L (e.step L (.update arm ac moves)) := by
  show Kept L (((e.setAc arm ac).remove L arm).wear L arm moves)
  rw [Orderly] at horderly
  split_ifs at horderly with hworn
  · obtain ⟨hmoves, hac⟩ := horderly
    have hwielded : arm ∉ e.wielded := disjoint_left.1 h.disjoint hworn
    refine (h.remove ac (fun hmem ↦ absurd hmem hwielded) fun _ ↦ hac).wear fun _ ↦ ?_
    dsimp only [Equipment.remove]
    rw [setAc_guarded, setAc_parriesWorn, setAc_slots]
    split_ifs with hmove
    · exact ⟨notMem_erase arm e.worn, hwielded, h.nodup arm hworn, h.trace arm hworn⟩
    · exact hmoves (Bool.eq_false_iff.2 hmove)
  · obtain ⟨hremoves, hwears⟩ := horderly
    have hremoved := h.remove ac hremoves fun hmem ↦ absurd hmem hworn
    have hunworn : e.worn.erase arm = e.worn := erase_eq_of_notMem hworn
    refine hremoved.wear fun hfree ↦ ?_
    have hfree' : e.ctool.SlotsFree (e.tools arm) := by
      intro slot hslot
      refine Option.eq_none_iff_forall_ne_some.2 fun ob hlookup ↦ ?_
      obtain ⟨hob, hmem⟩ := (h.slots slot ob).1 hlookup
      have hne : ob ≠ arm := by
        rintro rfl
        exact ne_nil_of_mem hslot (hremoves ((mem_union.1 hob).resolve_left hworn))
      have hheld := (hremoved.slots slot ob).2
        ⟨by rwa [Equipment.remove, setAc_worn, setAc_wielded, hunworn], by
          dsimp only [Equipment.remove]
          rwa [setAc_slots]⟩
      rw [hfree slot (by dsimp only [Equipment.remove]; rwa [setAc_slots])] at hheld
      cases hheld
    have hwear := hwears hfree'
    dsimp only [Equipment.remove]
    rwa [setAc_guarded, setAc_parriesWorn, setAc_slots, setAc_worn, setAc_wielded, hunworn]

theorem change (h : Kept L e) {tool : Tool} (hob : ob ∉ e.worn ∪ e.wielded) :
    Kept L { e with tools := Function.update e.tools ob tool } := by
  have hworn : ∀ o ∈ e.worn, Function.update e.tools ob tool o = e.tools o := fun o ho ↦
    update_of_ne (fun heq : o = ob ↦ hob (heq ▸ mem_union_left _ ho)) ..
  have hwielded : ∀ o ∈ e.wielded, Function.update e.tools ob tool o = e.tools o := fun o ho ↦
    update_of_ne (fun heq : o = ob ↦ hob (heq ▸ mem_union_right _ ho)) ..
  have hused : ∀ o ∈ e.worn ∪ e.wielded, Function.update e.tools ob tool o = e.tools o :=
    fun o ho ↦ (mem_union.1 ho).elim (hworn o) (hwielded o)
  constructor <;> dsimp only
  case slots =>
    intro slot o
    rw [h.slots]
    exact and_congr_right fun ho ↦ by rw [hused o ho]
  case attack =>
    intro aid o
    rw [h.attack]
    exact and_congr_right fun ho ↦ by rw [hwielded o ho]
  case armours =>
    intro hid o
    rw [h.armours]
    exact if_congr (and_congr_right fun ho ↦ by rw [hworn o ho]) rfl rfl
  case ac =>
    intro hid hmem
    rw [h.ac hid hmem]
    congr 2
    exact map_congr_left fun o ho ↦ by rw [hworn o (h.mem_armours.1 ho).1]
  case defense =>
    intro o
    rw [h.defense]
    refine if_congr (or_congr (and_congr_right fun ho ↦ ?_) (and_congr_right fun ho ↦ ?_)) rfl rfl
    · rw [hworn o ho]
    · rw [hwielded o ho]
  case disjoint => exact h.disjoint
  case nodup => exact fun o ho ↦ by rw [hworn o ho]; exact h.nodup o ho
  case trace => exact fun o ho ↦ by rw [hworn o ho]; exact h.trace o ho

theorem idle (h : e.Idle L) : Kept L e := by
  constructor <;> simp [h.hitloc, h.aidAttack, h.aidHitloc, h.toolSlots, h.aidDefense, h.worn,
    h.wielded, Ctool.armours]

end Kept

/-! ### Runs -/

/-- What may be done: anything, but of a tool in use only the armour class changes. -/
def equipment (L : Living) : TransitionSystem Equipment Op where
  Init := Equipment.Idle L
  Step e op e' := e' = e.step L op ∧ ∀ ob tool, op = .change ob tool → ob ∉ e.worn ∪ e.wielded

/-- **A step keeps what is kept**, when it goes well. -/
theorem Kept.step (h : Kept L e) {op : Op} {e' : Equipment} (horderly : Orderly L e op)
    (hstep : (equipment L).Step e op e') : Kept L e' := by
  obtain ⟨rfl, hchange⟩ := hstep
  cases op with
  | wield wep moves => exact h.wield horderly
  | unwield wep => exact h.unwield
  | wear arm moves => exact h.wear horderly
  | remove arm =>
    have hremove := h.remove (e.tools arm).ac horderly fun _ _ _ ↦ .inl rfl
    rwa [Equipment.setAc, update_eq_self] at hremove
  | update arm ac moves => exact h.update horderly
  | change ob tool => exact h.change (hchange ob tool rfl)

/-- **The accounts are right** as long as each step goes well. -/
theorem accounts (L : Living) (e : Equipment) (h : (equipment L).ReachableVia (Orderly L) e) :
    Accounts L e := by
  have hkept : Kept L e := h.invariant (fun _ h ↦ Kept.idle h)
    fun _ _ _ hkept horderly hstep ↦ hkept.step horderly hstep
  exact hkept.toAccounts

/-- A living that can be hit on the body only. -/
def torso : Living where
  hitlocId := [2]
  attackId := [512]
  str := 40
  parry := 20
  shieldParry := 20
  naturalAc _ _ := 1
  uaHitdata _ := some ⟨fun _ ↦ 1, 45, "korpus"⟩
  hitlocId_nodup := List.nodup_singleton 2
  str_pos := by decide
  uaHitdata_ac := by
    rintro _ _ h
    rw [← Option.some.inj h]

/-- Two armours for the body, one over the other. -/
def overcoat : Equipment where
  tools ob :=
    { attackId := 0
      slots := if ob = 1 then [2] else [64]
      protects := [2]
      ac := fun _ _ ↦ if ob = 1 then 10 else 5
      hit := 0
      hands := 0
      weight := 1000
      parryBonus := 0 }
  ctool := ⟨fun _ ↦ none, ∅, ∅, [], fun _ ↦ ⟨fun _ ↦ 1, 45, "korpus", fun _ ↦ 2⟩⟩
  worn := ∅
  wielded := ∅

theorem idle_overcoat : overcoat.Idle torso :=
  ⟨fun _ ↦ rfl, rfl, rfl, rfl, rfl, rfl, rfl⟩

theorem accounts_overcoat : Accounts torso (overcoat.step torso (.wear 1 true)) :=
  accounts torso _ (.step (a := .wear 1 true) (.init idle_overcoat) (fun _ ↦ by decide)
    ⟨rfl, fun _ _ h ↦ nomatch h⟩)

/-- **An armour that is worn down** under another one does not become worse. -/
theorem not_accounts : ¬∀ L e, (equipment L).Reachable e → Accounts L e := by
  intro hall
  let worn := (overcoat.step torso (.wear 1 true)).step torso (.wear 2 true)
  have hworn : (equipment torso).Reachable worn :=
    .step (a := .wear 2 true) (.step (a := .wear 1 true) (.init idle_overcoat)
      ⟨rfl, fun _ _ h ↦ nomatch h⟩) ⟨rfl, fun _ _ h ↦ nomatch h⟩
  have hreach : (equipment torso).Reachable (worn.step torso (.update 1 (fun _ _ ↦ 8) true)) :=
    hworn.step ⟨rfl, fun _ _ h ↦ nomatch h⟩
  have hac := congrFun ((hall torso _ hreach).ac 2 (by decide)) 0
  revert hac
  decide

end Lpmud.Combat
