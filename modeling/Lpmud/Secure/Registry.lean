import Mathlib.Data.List.AList
import Mathlib.Order.Basic

/-!
# The registry of wizards and domains

The four mappings that `/secure/master/fob.c` keeps: the wizards, the domains, the trainees, and
those who may read everything, with the functions that look something up in them.

The experience and the commands that are counted for a domain, and its applications, are left out.
-/

namespace Lpmud.Secure

/-! ### Ranks -/

/-- The ranks of wizards (`/sys/std.h`). -/
inductive Rank where
  | mortal
  | apprentice
  | pilgrim
  | retired
  | normal
  | mage
  | steward
  | lord
  | arch
  | keeper
  deriving DecidableEq

/-- `WIZ_MORTAL` to `WIZ_KEEPER`. -/
def Rank.toNat : Rank → ℕ
  | mortal => 0
  | apprentice => 1
  | pilgrim => 2
  | retired => 3
  | normal => 4
  | mage => 5
  | steward => 6
  | lord => 7
  | arch => 8
  | keeper => 9

instance : LE Rank :=
  ⟨fun r s ↦ r.toNat ≤ s.toNat⟩

instance : LT Rank :=
  ⟨fun r s ↦ r.toNat < s.toNat⟩

instance (r s : Rank) : Decidable (r ≤ s) :=
  inferInstanceAs (Decidable (r.toNat ≤ s.toNat))

instance (r s : Rank) : Decidable (r < s) :=
  inferInstanceAs (Decidable (r.toNat < s.toNat))

theorem Rank.not_le {r s : Rank} : ¬r ≤ s ↔ s < r :=
  Nat.not_le

/-! ### Names -/

abbrev ROOT_UID : String := "root"
/-- The domain of wizards that have no other. -/
abbrev WIZARD_DOMAIN : String := "Wiz"

def lowerCase (s : String) : String :=
  .ofList (s.toList.map Char.toLower)

def capitalize (s : String) : String :=
  match s.toList with
  | [] => s
  | c :: cs => .ofList (c.toUpper :: cs)

theorem toLower_toLower (c : Char) : c.toLower.toLower = c.toLower := by
  have hlow : ¬(c.toLower.val ≥ 'A'.val ∧ c.toLower.val ≤ 'Z'.val) := by
    unfold Char.toLower
    split_ifs with h
    · simp only [ge_iff_le, UInt32.le_iff_toNat_le, UInt32.toNat_add] at h ⊢
      have ha : 'A'.val.toNat = 65 := rfl
      have hz : 'Z'.val.toNat = 90 := rfl
      have hd : ('a'.val - 'A'.val).toNat = 32 := rfl
      omega
    · exact h
  exact dif_neg hlow

@[simp]
theorem lowerCase_lowerCase (s : String) : lowerCase (lowerCase s) = lowerCase s := by
  simp only [lowerCase, String.toList_ofList, List.map_map, Function.comp_def, toLower_toLower]

@[simp]
theorem capitalize_empty : capitalize "" = "" := by
  simp [capitalize]

/-! ### The mappings -/

/-- An entry of `m_wizards`. -/
structure Wizard where
  rank : Rank
  level : ℕ
  /-- who changed the level -/
  chLevel : String
  dom : String
  /-- who changed the domain -/
  chDom : String

/-- An entry of `m_domains`. -/
structure Domain where
  num : ℤ
  short : String
  lord : String
  steward : String
  members : List String
  madwand : String
  maxSize : ℤ

/-- The mappings of the master object. -/
structure Registry where
  domCount : ℤ
  domains : AList fun _ : String ↦ Domain
  wizards : AList fun _ : String ↦ Wizard
  trainees : AList fun _ : String ↦ Unit
  globalRead : AList fun _ : String ↦ String × String

namespace Registry

variable (r : Registry)

def queryDomainNumber (dname : String) : ℤ :=
  ((r.domains.lookup (capitalize dname)).map Domain.num).getD (-1)

def queryDomainLord (dname : String) : String :=
  ((r.domains.lookup (capitalize dname)).map Domain.lord).getD ""

def queryDomainSteward (dname : String) : String :=
  ((r.domains.lookup (capitalize dname)).map Domain.steward).getD ""

def queryWizRank (wname : String) : Rank :=
  ((r.wizards.lookup (lowerCase wname)).map Wizard.rank).getD .mortal

def queryWizDom (wname : String) : String :=
  ((r.wizards.lookup (lowerCase wname)).map Wizard.dom).getD ""

end Registry

end Lpmud.Secure
