import Lpmud.Svalue
import Mathlib.Data.List.AList
import Mathlib.Algebra.Order.Ring.Int
import Mathlib.Algebra.BigOperators.Group.Finset.Basic

/-!
# Weapons and armours

How a living uses tools in combat (`/std/combat/ctool.c`): which tool holds which slot, which
weapon aids an attack, which armours protect a hit location, and what is used to parry.

The values of attacks, and how often each is used, are left out; the attacks that a living has do
not change. Whether a tool can be moved to where it is worn or wielded is a parameter.
-/

namespace Lpmud.Combat

open Function

/-! ### Tools and livings -/

/-- `W_NO_DT`. -/
abbrev W_NO_DT : ℕ := 3

/-- `MAX_HITLOC`. -/
abbrev MAX_HITLOC : ℕ := 10

/-- `W_BOTH`. -/
abbrev W_BOTH : ℤ := 512 + 1024

/-- An armour class for each type of damage. -/
abbrev Ac : Type :=
  Fin W_NO_DT → ℤ

/-- `F_AC_MOD`. -/
def acMod (ac : ℤ) : ℤ :=
  ((ac + 50) * (ac + 50)).tdiv 50 - 50

/-- `F_PARRYMOD`. -/
def parryMod (hit skill : ℤ) : ℤ :=
  ((hit + 15) * (skill + 5)).tdiv 50

/-- `F_SHIELD_PARRYMOD`. -/
def shieldParryMod (shieldParry skill : ℤ) : ℤ :=
  (shieldParry * skill).tdiv 100

/-- What a weapon or an armour answers when it is asked. -/
structure Tool where
  attackId : ℤ
  slots : List ℤ
  protects : List ℤ
  ac : ℤ → Ac
  hit : ℤ
  hands : ℤ
  weight : ℤ
  parryBonus : ℤ

/-- What `set_hitloc_unarmed` sets, or what a humanoid has instead. -/
structure HitlocUnarmed where
  ac : Ac
  phit : ℤ
  hdesc : String

/-- What does not change of a living: its hit locations and attacks, its stats and skills, and the
values it has without armours. -/
structure Living where
  hitlocId : List ℤ
  attackId : List ℤ
  str : ℤ
  parry : ℤ
  shieldParry : ℤ
  naturalAc : ℤ → Ac
  uaHitdata : ℤ → Option HitlocUnarmed
  hitlocId_nodup : hitlocId.Nodup
  /-- `query_stat` gives 1 at least -/
  str_pos : 0 < str
  uaHitdata_ac : ∀ hid hloc, uaHitdata hid = some hloc → hloc.ac = naturalAc hid

namespace Living

variable (L : Living) (t : Tool)

/-- The hit locations of the living that an armour protects. -/
def guarded : List ℤ :=
  t.protects.filter (· ∈ L.hitlocId)

/-- How much a weapon helps to parry: `extra` in `cb_wield_weapon`. -/
def weaponParry : ℤ :=
  let extra := parryMod t.hit L.parry
  let il := L.str * 150
  let il := if t.hands = W_BOTH then il else (il * 6).tdiv 10
  if il < t.weight then ((100 - (165 * (t.weight - il)).tdiv il) * extra).tdiv 100 else extra

/-- How much a shield helps to parry: `bonus` in `zaloz_tarcze`. -/
def shieldBonus : ℤ :=
  let bonus := shieldParryMod t.parryBonus L.shieldParry
  let udzwig := L.str * 85
  if udzwig < t.weight then
    let minus := max 40 (100 - (135 * (t.weight - udzwig)).tdiv udzwig)
    (bonus * minus).tdiv 100
  else bonus

/-- The tool is something to parry with when it is wielded. -/
def ParriesWielded : Prop :=
  0 < L.weaponParry t

/-- The tool is something to parry with when it is worn. -/
def ParriesWorn : Prop :=
  t.parryBonus ≠ 0 ∧ 0 < L.shieldBonus t

instance : Decidable (L.ParriesWielded t) :=
  inferInstanceAs (Decidable (_ < _))

instance : Decidable (L.ParriesWorn t) :=
  inferInstanceAs (Decidable (_ ∧ _))

end Living

/-! ### The combat object -/

/-- An entry of `hitloc_ac`. -/
structure Hitloc where
  ac : Ac
  prchit : ℤ
  desc : String
  mAc : Ac

/-- An entry of `aid_defense_id` and `aid_defense`. -/
structure Defense where
  ob : Obj
  bonus : ℤ
  procuse : ℤ
  weight : ℤ

/-- Why something is not wielded or worn. The texts differ in the names of those concerned. -/
inductive Refusal where
  | otherRace
  | slotsTaken
  | notMoved
  deriving DecidableEq

/-- The variables of the combat object of a living. -/
structure Ctool where
  aidAttack : ℤ → Option Obj
  aidHitloc : AList fun _ : ℤ ↦ List Obj
  toolSlots : AList fun _ : ℤ ↦ Obj
  aidDefense : List Defense
  hitloc : ℤ → Hitloc

/-- `filter`, for the values of a mapping. -/
def filterValues (p : Obj → Bool) (m : AList fun _ : ℤ ↦ Obj) : AList fun _ : ℤ ↦ Obj :=
  ⟨m.entries.filter fun e ↦ p e.2, m.nodupKeys.sublist List.filter_sublist⟩

namespace Ctool

variable (L : Living) (tools : Obj → Tool) (c : Ctool)

/-- The armours that protect a hit location. -/
def armours (hid : ℤ) : List Obj :=
  (c.aidHitloc.lookup hid).getD []

/-- All the slots that a tool needs are free. -/
def SlotsFree (t : Tool) : Prop :=
  ∀ slot ∈ t.slots, c.toolSlots.lookup slot = none

instance (t : Tool) : Decidable (c.SlotsFree t) :=
  inferInstanceAs (Decidable (∀ _ ∈ _, _))

/-- `tool_slots[slots[il]] = ob` for all slots. -/
def take (ob : Obj) : Ctool :=
  { c with toolSlots := (tools ob).slots.foldl (fun m slot ↦ m.insert slot ob) c.toolSlots }

/-- `add_hitloc`, for a hit location that exists. -/
def addHitloc (ac : Ac) (prchit : ℤ) (desc : String) (id : ℤ) : Ctool :=
  if MAX_HITLOC ≤ L.hitlocId.length then c
  else { c with hitloc := update c.hitloc id ⟨ac, prchit, desc, fun i ↦ acMod (ac i)⟩ }

def crResetHitloc (hid : ℤ) : Ctool :=
  match L.uaHitdata hid with
  | some hloc => c.addHitloc L hloc.ac hloc.phit hloc.hdesc hid
  | none => c

def adjustAc (hid : ℤ) (arm : Obj) (rm : Bool) : Ctool :=
  let oldloc := c.hitloc hid
  let ac := if rm then oldloc.ac - (tools arm).ac hid else oldloc.ac + (tools arm).ac hid
  -- `oldloc[0]` is the array in the combat object, not a copy
  let c := { c with hitloc := update c.hitloc hid { oldloc with ac } }
  c.addHitloc L ac oldloc.prchit oldloc.desc hid

def cbModifyDefProcuse : Ctool :=
  let sum := (c.aidDefense.map Defense.bonus).sum
  { c with aidDefense := c.aidDefense.map fun d ↦ { d with procuse := (d.bonus * 100).tdiv sum } }

/-- A tool is added to those used to parry. -/
def addDefense (ob : Obj) (bonus : ℤ) : Ctool :=
  let entry : Defense := ⟨ob, bonus, 0, (tools ob).weight * L.str⟩
  { c with aidDefense := c.aidDefense ++ [entry] }.cbModifyDefProcuse

/-- The first entry of a tool is taken from those used to parry. -/
def excludeDefense (ob : Obj) : Ctool :=
  { c with aidDefense := c.aidDefense.eraseP fun d ↦ d.ob = ob }

def zalozTarcze (arm : Obj) : Ctool :=
  if 0 < L.shieldBonus (tools arm) then c.addDefense L tools arm (L.shieldBonus (tools arm)) else c

def cbWieldWeapon (wep : Obj) (moves : Bool) : Option Refusal × Ctool :=
  let aid := (tools wep).attackId
  if aid ∉ L.attackId then (some .otherRace, c)
  else if ¬c.SlotsFree (tools wep) then (some .slotsTaken, c)
  else if moves = false then (some .notMoved, c)
  else
    let c := c.take tools wep
    let c := { c with aidAttack := update c.aidAttack aid (some wep) }
    let extra := L.weaponParry (tools wep)
    (none, if 0 < extra then c.addDefense L tools wep extra else c)

/-- An armour is added to those that protect a hit location. -/
def protect (arm : Obj) (hid : ℤ) : Ctool :=
  let c := { c with aidHitloc := c.aidHitloc.insert hid (c.armours hid ++ [arm]) }
  c.adjustAc L tools hid arm false

def cbWearArm (arm : Obj) (moves : Bool) : Option Refusal × Ctool :=
  if ¬c.SlotsFree (tools arm) then (some .slotsTaken, c)
  else
    let c := if (tools arm).parryBonus = 0 then c else c.zalozTarcze L tools arm
    if moves = false then (some .notMoved, c)
    else
      (none, (L.guarded (tools arm)).foldl (fun c hid ↦ c.protect L tools arm hid)
        (c.take tools arm))

/-- Whether a tool holds a slot or protects a hit location. -/
def uses (arm : Obj) : Bool :=
  c.toolSlots.entries.any (fun e ↦ e.2 = arm) || c.aidHitloc.entries.any fun e ↦ arm ∈ e.2

/-- An armour is taken from those that protect a hit location. -/
def unprotect (arm : Obj) (hid : ℤ) : Ctool :=
  if arm ∈ c.armours hid then
    let c := c.adjustAc L tools hid arm true
    let left := (c.armours hid).erase arm
    let c := { c with aidHitloc := c.aidHitloc.insert hid left }
    if left = [] then c.crResetHitloc L hid else c
  else c

def cbRemoveArm (arm : Obj) : Ctool :=
  if c.uses arm = false then c
  else
    let c := { c with toolSlots := filterValues (fun ob ↦ ob ≠ arm) c.toolSlots }
    (L.hitlocId.foldl (fun c hid ↦ c.unprotect L tools arm hid) c).excludeDefense arm

def cbUnwield (wep : Obj) : Ctool :=
  let aid := (tools wep).attackId
  if c.aidAttack aid ≠ some wep then c
  else
    let c := { c with aidAttack := update c.aidAttack aid none }
    (c.cbRemoveArm L tools wep).excludeDefense wep

/-- `cb_update_armour`, with what `cb_wear_arm` returns. -/
def cbUpdateArmour (arm : Obj) (moves : Bool) : Option Refusal × Ctool :=
  (c.cbRemoveArm L tools arm).cbWearArm L tools arm moves

end Ctool

/-! ### Using tools -/

/-- Something that is done with a tool. Moves may fail. -/
inductive Op where
  | wield (wep : Obj) (moves : Bool)
  | unwield (wep : Obj)
  | wear (arm : Obj) (moves : Bool)
  | remove (arm : Obj)
  /-- the armour class changes, and this is reported -/
  | update (arm : Obj) (ac : ℤ → Ac) (moves : Bool)
  /-- anything changes of a tool that is not used -/
  | change (ob : Obj) (tool : Tool)

/-- The combat object and the tools, and which of them are worn and wielded by what was done. -/
structure Equipment where
  tools : Obj → Tool
  ctool : Ctool
  worn : Finset Obj
  wielded : Finset Obj

namespace Equipment

variable (L : Living) (e : Equipment)

/-- What `cb_wear_arm` does, and whether the armour is worn then. -/
def wear (arm : Obj) (moves : Bool) : Equipment :=
  let (refusal, ctool) := e.ctool.cbWearArm L e.tools arm moves
  { e with ctool, worn := if refusal = none then insert arm e.worn else e.worn }

/-- What `cb_remove_arm` does. -/
def remove (arm : Obj) : Equipment :=
  { e with ctool := e.ctool.cbRemoveArm L e.tools arm, worn := e.worn.erase arm }

/-- The armour class of a tool changes. -/
def setAc (arm : Obj) (ac : ℤ → Ac) : Equipment :=
  { e with tools := update e.tools arm { e.tools arm with ac } }

/-- What is done. -/
def step : Op → Equipment
  | .wield wep moves =>
    let (refusal, ctool) := e.ctool.cbWieldWeapon L e.tools wep moves
    { e with ctool, wielded := if refusal = none then insert wep e.wielded else e.wielded }
  | .unwield wep =>
    { e with ctool := e.ctool.cbUnwield L e.tools wep, wielded := e.wielded.erase wep }
  | .wear arm moves => e.wear L arm moves
  | .remove arm => e.remove L arm
  | .update arm ac moves =>
    let e := e.setAc arm ac
    let (refusal, ctool) := e.ctool.cbUpdateArmour L e.tools arm moves
    let worn := e.worn.erase arm
    { e with ctool, worn := if refusal = none then insert arm worn else worn }
  | .change ob tool => { e with tools := update e.tools ob tool }

/-- Before anything is used. -/
structure Idle : Prop where
  hitloc : ∀ hid, (e.ctool.hitloc hid).ac = L.naturalAc hid
  aidAttack : e.ctool.aidAttack = fun _ ↦ none
  aidHitloc : e.ctool.aidHitloc = ∅
  toolSlots : e.ctool.toolSlots = ∅
  aidDefense : e.ctool.aidDefense = []
  worn : e.worn = ∅
  wielded : e.wielded = ∅

end Equipment

end Lpmud.Combat
