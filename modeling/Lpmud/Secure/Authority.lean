import Lpmud.Lib.TransitionSystem
import Lpmud.Secure.Consistency
import Mathlib.Data.Set.Insert

/-!
# Who may change whose rank

What a steward, a liege, an arch or a keeper brings about with `wizard_change_rank` and
`expel_wizard_from_domain` (`Authorised`), in **any** registry, consistent or not.

The guards of a liege and those of an arch do what they are meant to. Those of a steward say
which ranks retired and normal wizards can get, and let every other pair of ranks through
(`Missed`); and nobody's rank is looked at when a wizard is expelled (`Rightful`).
-/

namespace Lpmud.Secure

open Option Abortable

/-! ### Authority -/

namespace Registry

/-- The rank and the domain of a wizard. -/
def standing (r : Registry) (v : String) : Option (Rank × String) :=
  (r.wizards.lookup v).map fun wiz ↦ (wiz.rank, wiz.dom)

/-- The rank of a player. -/
def rankOf (r : Registry) (v : String) : Rank :=
  ((r.wizards.lookup v).map Wizard.rank).getD .mortal

end Registry

/-- **What the command giver `who` has changed is within its authority.** A steward or a liege
changes members of its own domain only, from a rank below its own to a rank below its own; an arch
or a keeper changes whose rank is below its own, or makes itself a mage. -/
structure Authorised (who : String) (cmder : Wizard) (r r' : Registry) : Prop where
  ofPost : cmder.rank = .steward ∨ cmder.rank = .lord → ∀ v, r'.standing v ≠ r.standing v →
    ∃ wiz, r.wizards.lookup v = some wiz ∧ wiz.dom = cmder.dom ∧ wiz.dom ≠ "" ∧
      wiz.rank < cmder.rank ∧ r'.rankOf v < cmder.rank
  ofArch : .arch ≤ cmder.rank → ∀ v, r'.standing v ≠ r.standing v →
    r.rankOf v < cmder.rank ∨ v = who ∧ r'.rankOf v = .mage

/-- The two requests. -/
inductive Order where
  | changeRank (wname : String) (rank : Rank)
  | expel (wname : String)

/-- The function that is called. -/
def Order.run (support : Bool) (o : Outside) : Order → Master Bool
  | .changeRank wname rank => wizardChangeRank o wname rank
  | .expel wname => expelWizardFromDomain support o wname

/-- What the guards of `wizard_change_rank` let through. -/
def Permitted (r : Registry) (who w : String) (cmder : Wizard) (old rank : Rank) : Prop :=
  if cmder.rank = .steward then
    ∃ wiz, r.wizards.lookup w = some wiz ∧ wiz.dom = cmder.dom ∧
      (old = .retired → rank = .normal) ∧ (old = .normal → rank = .retired)
  else if cmder.rank = .lord then
    ∃ wiz, r.wizards.lookup w = some wiz ∧ wiz.dom = cmder.dom ∧
      (old = .normal ∧ rank = .retired ∨ old = .retired ∧ rank = .normal ∨
        old = .steward ∧ rank = .normal)
  else old < cmder.rank ∨ who = w ∧ rank = .mage

/-- The order is not refused. -/
def Passes (r : Registry) (o : Outside) (cmder : Wizard) : Order → Prop
  | .changeRank wname rank => o.caller = WIZ_CMD_LORD ∧
      Permitted r o.who (lowerCase wname) cmder (r.rankOf (lowerCase wname)) rank ∧
      rank ∈ (r.rankOf (lowerCase wname)).possibleChange
  | .expel wname => o.caller = WIZ_CMD_LORD ∧
      ∃ wiz, r.wizards.lookup (lowerCase wname) = some wiz ∧ wiz.dom ≠ "" ∧
        (cmder.rank ≤ .lord → wiz.dom = cmder.dom) ∧ ¬(wiz.rank.Stays ∧ wiz.dom = WIZARD_DOMAIN)

/-- The changes that no guard of a steward asks about, of those that are possible and are none of
its business: of a steward or above, or of a mage to such a rank. -/
def Missed (old rank : Rank) : Prop :=
  old ∈ [Rank.steward, .lord, .arch] ∨ old = .mage ∧ rank ∈ [Rank.steward, .lord, .arch]

instance (old rank : Rank) : Decidable (Missed old rank) :=
  inferInstanceAs (Decidable (_ ∨ _))

/-- **The order is rightful**: it is refused, or it is none of those that the guards miss. These are
an order of a steward or liege who has no domain, a change of a steward's that nobody asks about, an
arch's that takes a post from somebody of its own rank, which nobody who has a post is, and the
expulsion of somebody whose rank is not lower, which is never looked at. -/
def Rightful (r : Registry) (o : Outside) (cmder : Wizard) (order : Order) : Prop :=
  Passes r o cmder order → match order with
  | .changeRank wname rank =>
    (cmder.rank = .steward ∨ cmder.rank = .lord → cmder.dom ≠ "") ∧
      (cmder.rank = .steward → ¬Missed (r.rankOf (lowerCase wname)) rank) ∧
      (.arch ≤ cmder.rank → ∀ wiz d, r.wizards.lookup (lowerCase wname) = some wiz →
        r.domains.lookup wiz.dom = some d → ∀ post : Post, rank = post.rank →
          d.holder post ≠ "" → r.rankOf (d.holder post) < cmder.rank)
  | .expel wname => r.rankOf (lowerCase wname) < cmder.rank

/-! ### What a request can change -/

variable {r s : Registry} {w v x D D' dname cmdname who : String} {wiz cmder : Wizard}
  {d : Domain} {rank : Rank} {post : Post} {V : Set String}

/-- The standing of everybody else is what it was. -/
def OnlyChanges (V : Set String) (r s : Registry) : Prop :=
  ∀ v ∉ V, s.standing v = r.standing v

theorem OnlyChanges.insert (h : OnlyChanges V r s) (hw : w ∈ V) (wiz : Wizard) :
    OnlyChanges V r { s with wizards := s.wizards.insert w wiz } := by
  intro v hv
  rw [Registry.standing, lookup_insert_ite, if_neg (ne_of_mem_of_not_mem hw hv).symm]
  exact h v hv

theorem OnlyChanges.erase (h : OnlyChanges V r s) (hw : w ∈ V) :
    OnlyChanges V r { s with wizards := s.wizards.erase w } := by
  intro v hv
  rw [Registry.standing, lookup_erase_ite, if_neg (ne_of_mem_of_not_mem hw hv).symm]
  exact h v hv

/-- What a change of the rank of `w`, in the domain `D`, keeps: nobody outside of `V` is changed,
and whoever has the post that goes with the new rank is in `V`. The wizard has the rank it had, or
the new one, or none. -/
structure Changing (w : String) (rank : Rank) (D : String) (V : Set String) (r s : Registry) :
    Prop where
  only : OnlyChanges V r s
  holder : ∀ d, s.domains.lookup D = some d → ∀ post : Post, rank = post.rank →
    d.holder post = "" ∨ d.holder post ∈ V
  dom : ∀ wiz, s.wizards.lookup w = some wiz → wiz.dom = D
  ranks : s.rankOf w = r.rankOf w ∨ s.rankOf w = rank ∨ s.rankOf w = .mortal ∨ s.rankOf w = .normal

section Keeps

variable {I : Registry → Prop}

theorem keeps_setDomain {f : Domain → Domain} (h : ∀ s d, I s → s.domains.lookup D = some d →
    I { s with domains := s.domains.insert D (f d) }) : Keeps I (setDomain D f) := by
  intro s hI
  rw [setDomain, wp_bind, domain, wp_fetch]
  exact ⟨fun _ ↦ hI, fun d hd ↦ h s d hI hd⟩

theorem keeps_setWizard {f : Wizard → Wizard} (h : ∀ s wiz, I s → s.wizards.lookup w = some wiz →
    I { s with wizards := s.wizards.insert w (f wiz) }) : Keeps I (setWizard w f) := by
  intro s hI
  rw [setWizard, wp_bind, wizard, wp_fetch]
  exact ⟨fun _ ↦ hI, fun wiz hw ↦ h s wiz hI hw⟩

theorem keeps_wizard (w : String) : Keeps I (wizard w) :=
  keeps_fetch _

theorem keeps_domain (D : String) : Keeps I (domain D) :=
  keeps_fetch _

end Keeps

namespace Changing

theorem setHolder (h : Changing w rank D V r s) (hd : s.domains.lookup D' = some d)
    (hx : x = "" ∨ x ∈ V) :
    Changing w rank D V r { s with domains := s.domains.insert D' (d.setHolder x post) } where
  only := h.only
  holder d' hd' p hp := by
    rw [lookup_insert_ite] at hd'
    split_ifs at hd' with hD
    · subst hD
      obtain rfl := some.inj hd'
      rw [Domain.holder_setHolder]
      split_ifs
      · exact hx
      · exact h.holder d hd p hp
    · exact h.holder d' hd' p hp
  dom := h.dom
  ranks := h.ranks

theorem setWizard {wiz' : Wizard} (h : Changing w rank D V r s)
    (hx : s.wizards.lookup x = some wiz) (hV : x ∈ V) (hdom : wiz'.dom = wiz.dom)
    (hrank : wiz'.rank = rank ∨ wiz'.rank = .normal) :
    Changing w rank D V r { s with wizards := s.wizards.insert x wiz' } where
  only := h.only.insert hV wiz'
  holder := h.holder
  dom wiz₁ hw := by
    rw [lookup_insert_ite] at hw
    split_ifs at hw with hwx
    · subst hwx
      obtain rfl := some.inj hw
      exact hdom.trans (h.dom wiz hx)
    · exact h.dom wiz₁ hw
  ranks := by
    rw [Registry.rankOf, lookup_insert_ite]
    split_ifs with hwx
    · exact .inr (hrank.imp_right .inr)
    · exact h.ranks

theorem stepDown (post : Post) (x : String) : Keeps (Changing w rank D V r) (stepDown post x) :=
  (keeps_wizard x).bind fun _ ↦ .ite
    (fun _ ↦ keeps_setDomain fun _ _ h hd ↦ h.setHolder hd (.inl rfl)) fun _ ↦ keeps_pure ()

theorem recordRank {rank' : Rank} (hV : x ∈ V) (hrank : rank' = rank ∨ rank' = .normal) :
    Keeps (Changing w rank D V r) (recordRank x rank' cmdname) := by
  have hmark : ∀ f : Registry → AList fun _ : String ↦ Unit,
      Keeps (Changing w rank D V r) (.modify fun r ↦ { r with trainees := f r }) := fun f ↦
    keeps_modify fun s h ↦ ⟨h.only, h.holder, h.dom, h.ranks⟩
  have hset : Keeps (Changing w rank D V r) (Secure.setWizard x fun wiz ↦
      { wiz with rank := rank', level := rank'.startLevel, chLevel := cmdname }) :=
    keeps_setWizard fun s wiz h hx ↦ h.setWizard hx hV rfl hrank
  rw [Secure.recordRank]
  refine .ite (fun _ ↦ (hmark _).bind fun _ ↦ hset) fun _ ↦ ?_
  exact .ite (fun _ ↦ (hmark _).bind fun _ ↦ hset) fun _ ↦ hset

theorem demote (hV : x ∈ V) :
    Keeps (Changing w rank D V r) (changeRank (fun _ ↦ pure ()) x .normal cmdname) :=
  (stepDown .lord x).bind fun _ ↦ (stepDown .steward x).bind fun _ ↦
    (keeps_pure ()).bind fun _ ↦ (keeps_pure ()).bind fun _ ↦ recordRank hV (.inr rfl)

/-- The post goes from one in `V` to another. -/
theorem takePost (hV : w ∈ V) (hpost : rank = post.rank) :
    Keeps (Changing w rank D V r)
      (takePost (fun old ↦ changeRank (fun _ ↦ pure ()) old .normal cmdname) post w) := by
  intro s h
  have hset : ∀ D', Keeps (Changing w rank D V r) (setDomain D' fun d ↦ d.setHolder w post) :=
    fun D' ↦ keeps_setDomain fun _ _ h hd ↦ h.setHolder hd (.inr hV)
  rw [Secure.takePost, wp_bind, wizard, wp_fetch]
  refine ⟨fun _ ↦ h, fun wiz hw ↦ ?_⟩
  rw [wp_bind, domain, wp_fetch]
  refine ⟨fun _ ↦ h, fun d hd ↦ ?_⟩
  rw [h.dom wiz hw] at hd
  split_ifs with hholder
  · have hin := (h.holder d hd post hpost).resolve_left hholder
    exact ((demote hin).bind fun _ ↦ hset _) s h
  · exact hset _ s h

/-- **`do_change_rank`.** -/
theorem doChangeRank (hV : w ∈ V) :
    Keeps (Changing w rank D V r) (doChangeRank w rank cmdname) :=
  (stepDown .lord w).bind fun _ ↦ (stepDown .steward w).bind fun _ ↦
    Keeps.bind (.ite (fun h ↦ takePost hV h) fun _ ↦ keeps_pure ()) fun _ ↦
      Keeps.bind (.ite (fun h ↦ takePost hV h) fun _ ↦ keeps_pure ()) fun _ ↦
        recordRank hV (.inl rfl)

end Changing

/-- What moving and deleting wizards keeps. -/
structure Moving (w : String) (rank : Rank) (V : Set String) (r s : Registry) : Prop where
  only : OnlyChanges V r s
  ranks : s.rankOf w = r.rankOf w ∨ s.rankOf w = rank ∨ s.rankOf w = .mortal ∨ s.rankOf w = .normal

theorem Changing.moving (h : Changing w rank D V r s) : Moving w rank V r s :=
  ⟨h.only, h.ranks⟩

namespace Moving

theorem setDomain (D : String) (f : Domain → Domain) :
    Keeps (Moving w rank V r) (setDomain D f) :=
  keeps_setDomain fun _ _ h _ ↦ ⟨h.only, h.ranks⟩

theorem trainees (f : Registry → AList fun _ : String ↦ Unit) :
    Keeps (Moving w rank V r) (.modify fun r ↦ { r with trainees := f r }) :=
  keeps_modify fun _ h ↦ ⟨h.only, h.ranks⟩

theorem deleteWizard (hV : w ∈ V) : Keeps (Moving w rank V r) (deleteWizard w) :=
  keeps_modify fun s h ↦ ⟨h.only.erase hV, .inr <| .inr <| .inl <| by
    rw [Registry.rankOf, AList.lookup_erase]
    rfl⟩

/-- **`add_wizard_to_domain`.** -/
theorem addWizardToDomain (hV : w ∈ V) (hw : lowerCase w = w) :
    Keeps (Moving w rank V r) (addWizardToDomain dname w cmdname) := by
  have hset : ∀ D', Keeps (Moving w rank V r)
      (setWizard w fun wiz ↦ { wiz with dom := D', chDom := cmdname }) := by
    refine fun D' ↦ keeps_setWizard fun s wiz h hw ↦ ⟨h.only.insert hV _, ?_⟩
    have hsame : s.rankOf w = wiz.rank := by rw [Registry.rankOf, hw]; rfl
    rw [Registry.rankOf, AList.lookup_insert]
    exact hsame ▸ h.ranks
  rw [Secure.addWizardToDomain]
  simp only [hw]
  refine (keeps_wizard w).bind fun wiz ↦ (hset _).bind fun _ ↦ Keeps.bind ?_ fun _ ↦ ?_
  · exact .ite (fun _ ↦ (setDomain _ _).bind fun _ ↦ trainees _) fun _ ↦ keeps_pure ()
  · refine .ite (fun _ ↦ keeps_pure _) fun _ ↦ Keeps.bind ?_ fun _ ↦ keeps_pure _
    exact (setDomain _ _).bind fun _ ↦ .ite (fun _ ↦ trainees _) fun _ ↦ keeps_pure ()

theorem afterChange {o : Outside} {rank' : Rank} (hV : w ∈ V) (hw : lowerCase w = w) :
    Keeps (Moving w rank V r) (afterChange o w dname rank') := by
  have hleave : Keeps (Moving w rank V r) (if dname ≠ "" then do
      let _ ← Secure.addWizardToDomain "" w o.who
      pure () else pure ()) :=
    .ite (fun _ ↦ (addWizardToDomain hV hw).bind fun _ ↦ keeps_pure ()) fun _ ↦ keeps_pure ()
  cases rank' with
  | mortal => exact hleave.bind fun _ ↦ deleteWizard hV
  | apprentice => exact hleave
  | pilgrim => exact hleave
  | retired => exact keeps_pure ()
  | normal => exact keeps_pure ()
  | mage => exact keeps_pure ()
  | steward => exact keeps_pure ()
  | lord => exact keeps_pure ()
  | arch => exact keeps_pure ()
  | keeper => exact keeps_pure ()

theorem doChangeRank (hV : w ∈ V) (hrank : ∀ post : Post, rank ≠ post.rank) :
    Keeps (Moving w rank V r) (doChangeRank w rank cmdname) := by
  have hdown : ∀ post, Keeps (Moving w rank V r) (stepDown post w) := fun post ↦
    (keeps_wizard w).bind fun _ ↦ .ite (fun _ ↦ setDomain _ _) fun _ ↦ keeps_pure ()
  have hset : Keeps (Moving w rank V r) (setWizard w fun wiz ↦
      { wiz with rank := rank, level := rank.startLevel, chLevel := cmdname }) := by
    refine keeps_setWizard fun s wiz h _ ↦ ⟨h.only.insert hV _, .inr (.inl ?_)⟩
    rw [Registry.rankOf, AList.lookup_insert]
    rfl
  have hrecord : Keeps (Moving w rank V r) (recordRank w rank cmdname) := by
    rw [recordRank]
    refine .ite (fun _ ↦ (trainees _).bind fun _ ↦ hset) fun _ ↦ ?_
    exact .ite (fun _ ↦ (trainees _).bind fun _ ↦ hset) fun _ ↦ hset
  exact (hdown .lord).bind fun _ ↦ (hdown .steward).bind fun _ ↦
    Keeps.bind (.ite (fun h ↦ absurd h (hrank .lord)) fun _ ↦ keeps_pure ()) fun _ ↦
      Keeps.bind (.ite (fun h ↦ absurd h (hrank .steward)) fun _ ↦ keeps_pure ()) fun _ ↦ hrecord

/-- **Somebody leaves its domain**, and is an apprentice then, or is what it was, or is deleted. -/
theorem expelFromDomain {support demoted : Bool} {o : Outside} (hV : w ∈ V)
    (hw : lowerCase w = w) :
    Keeps (Moving w .apprentice V r) (expelFromDomain support o w wiz demoted) := by
  have hadd : Keeps (Moving w .apprentice V r) (Secure.addWizardToDomain "" w o.who) :=
    addWizardToDomain hV hw
  have hchange : Keeps (Moving w .apprentice V r) (Secure.doChangeRank w .apprentice o.who) :=
    doChangeRank hV fun post ↦ by cases post <;> decide
  have hleave : Keeps (Moving w .apprentice V r) (if demoted then do
      Secure.doChangeRank w .apprentice o.who
      Secure.addWizardToDomain "" w o.who else Secure.addWizardToDomain "" w o.who) :=
    .ite (fun _ ↦ hchange.bind fun _ ↦ hadd) fun _ ↦ hadd
  rw [Secure.expelFromDomain]
  refine (keeps_domain _).bind fun d ↦ .ite (fun _ ↦ ?_) fun _ ↦ ?_
  · exact (keeps_wizard w).bind fun _ ↦ hadd.bind fun _ ↦ (setDomain _ _).bind fun _ ↦
      (deleteWizard hV).bind fun _ ↦ keeps_pure _
  · exact .ite (fun _ ↦ (setDomain _ _).bind fun _ ↦ hleave) fun _ ↦ hleave

end Moving

/-! ### The guards -/

theorem wp_mayChangeRank_permitted {E : Registry → Prop} {Q : Bool → Registry → Prop} {old : Rank}
    (hE : E r) (hfalse : Q false r) (htrue : Permitted r who w cmder old rank → Q true r) :
    wp E (mayChangeRank who w cmder old rank) Q r := by
  have hQ : ∀ b, (b = true → Permitted r who w cmder old rank) → Q b r := by
    rintro (- | -) h
    · exact hfalse
    · exact htrue (h rfl)
  rw [mayChangeRank]
  rw [Permitted] at hQ
  by_cases hsteward : cmder.rank = .steward
  · rw [if_pos hsteward] at hQ ⊢
    rw [wp_bind, wizard, wp_fetch]
    refine ⟨fun _ ↦ hE, fun wiz hw ↦ ?_⟩
    split_ifs with hdom
    · exact hfalse
    · refine hQ _ fun h ↦ ⟨wiz, hw, (not_not.1 hdom).symm, ?_⟩
      simp only [Bool.not_eq_true', decide_eq_false_iff_not] at h
      tauto
  rw [if_neg hsteward] at hQ ⊢
  by_cases hlord : cmder.rank = .lord
  · rw [if_pos hlord] at hQ ⊢
    rw [wp_bind, wizard, wp_fetch]
    refine ⟨fun _ ↦ hE, fun wiz hw ↦ ?_⟩
    split_ifs with hdom hpilgrim hnormal hretired
    · exact hfalse
    · exact hfalse
    · exact hfalse
    · exact hfalse
    · refine hQ _ fun h ↦ ⟨wiz, hw, (not_not.1 hdom).symm, ?_⟩
      simp only [Bool.not_eq_true', decide_eq_false_iff_not] at h
      tauto
  rw [if_neg hlord] at hQ ⊢
  split_ifs with hle
  · exact hQ _ fun h ↦ .inr (of_decide_eq_true h)
  · exact hQ _ fun _ ↦ .inl (Rank.not_le.1 hle)

/-! ### One order -/

section Orders

variable {support : Bool} {o : Outside} {wname : String} {r' : Registry}

theorem Authorised.refl : Authorised who cmder r r where
  ofPost _ _ h := absurd rfl h
  ofArch _ _ h := absurd rfl h

theorem Moving.rank_lt (h : Moving w rank V r s) (hcmder : .steward ≤ cmder.rank)
    (hold : r.rankOf w < cmder.rank) (hnew : rank < cmder.rank) : s.rankOf w < cmder.rank := by
  have hlow : ∀ rank' : Rank, rank'.toNat < 6 → rank' < cmder.rank := fun rank' h ↦
    Nat.lt_of_lt_of_le h hcmder
  rcases h.ranks with h | h | h | h <;> rw [h]
  · exact hold
  · exact hnew
  · exact hlow _ (by decide)
  · exact hlow _ (by decide)

theorem Moving.authorised (h : Moving w rank {w} r s) (hcmder : .steward ≤ cmder.rank)
    (hold : r.rankOf w < cmder.rank) (hnew : cmder.rank = .steward ∨ cmder.rank = .lord →
      rank < cmder.rank ∧ ∃ wiz, r.wizards.lookup w = some wiz ∧ wiz.dom = cmder.dom ∧
        wiz.dom ≠ "") : Authorised who cmder r s where
  ofPost hpost v hv := by
    obtain rfl : v = w := by_contra fun hvw ↦ hv (h.only v hvw)
    obtain ⟨hlt, wiz, hw, hdom, hne⟩ := hnew hpost
    refine ⟨wiz, hw, hdom, hne, ?_, h.rank_lt hcmder hold hlt⟩
    rwa [Registry.rankOf, hw] at hold
  ofArch _ v hv := by
    obtain rfl : v = w := by_contra fun hvw ↦ hv (h.only v hvw)
    exact .inl hold

theorem Moving.authorised_arch (h : Moving w rank V r s) (hcmder : .arch ≤ cmder.rank)
    (hV : ∀ v ∈ V, r.rankOf v < cmder.rank) : Authorised who cmder r s where
  ofPost hpost := by
    rcases hpost with hpost | hpost <;> rw [hpost] at hcmder <;> exact absurd hcmder (by decide)
  ofArch _ v hv := .inl (hV v (by_contra fun hvV ↦ hv (h.only v hvV)))

theorem authorised_expel (hcmd : r.wizards.lookup o.who = some cmder)
    (hcmder : .steward ≤ cmder.rank) (hright : Rightful r o cmder (.expel wname)) :
    wp (Authorised o.who cmder r) (expelWizardFromDomain support o wname)
      (fun _ ↦ Authorised o.who cmder r) r := by
  rw [expelWizardFromDomain]
  simp only [wp_bind, wp_read]
  by_cases hcaller : o.caller = WIZ_CMD_LORD
  swap
  · rw [if_pos hcaller]
    exact .refl
  rw [if_neg (not_not.2 hcaller)]
  by_cases hempty : lowerCase wname = ""
  · rw [if_pos hempty]
    exact .refl
  rw [if_neg hempty]
  cases hw : r.wizards.lookup (lowerCase wname) with
  | none => exact .refl
  | some wiz =>
    dsimp only
    by_cases hdom : wiz.dom = ""
    · rw [if_pos hdom]
      exact .refl
    rw [if_neg hdom, wp_bind, wp_wizard hcmd]
    by_cases hother : cmder.rank ≤ .lord ∧ wiz.dom ≠ cmder.dom
    · rw [if_pos hother]
      exact .refl
    rw [if_neg hother]
    have hstart : Moving (lowerCase wname) .apprentice {lowerCase wname} r r :=
      ⟨fun _ _ ↦ rfl, .inl rfl⟩
    have hmember : cmder.rank ≤ .lord → wiz.dom = cmder.dom := fun hle ↦
      not_not.1 fun hne ↦ hother ⟨hle, hne⟩
    have hend : ¬(wiz.rank.Stays ∧ wiz.dom = WIZARD_DOMAIN) → ∀ s,
        Moving (lowerCase wname) .apprentice {lowerCase wname} r s →
          Authorised o.who cmder r s := by
      intro hstays s h
      have hlower := hright ⟨hcaller, wiz, hw, hdom, hmember, hstays⟩
      refine h.authorised hcmder hlower fun hpost ↦ ⟨?_, wiz, hw, hmember ?_, hdom⟩
      · exact Nat.lt_of_lt_of_le (show Rank.toNat .apprentice < 6 by decide) hcmder
      · rcases hpost with hpost | hpost <;> rw [hpost] <;> decide
    split_ifs with hstays hwizard
    · exact .refl
    · exact (Moving.addWizardToDomain (Set.mem_singleton _) (lowerCase_lowerCase wname)).wp hstart
        (hend fun h ↦ hwizard h.2)
    · exact (Moving.expelFromDomain (Set.mem_singleton _) (lowerCase_lowerCase wname)).wp hstart
        (hend fun h ↦ hstays h.1)

theorem authorised_mage (hw : r.wizards.lookup w = some wiz) (hcmder : .arch ≤ cmder.rank) :
    wp (Authorised w cmder r) (doChangeRank w .mage cmdname) (fun _ ↦ Authorised w cmder r) r := by
  refine wp_doChangeRank (fun post ↦ by cases post <;> decide) hw (fun _ _ _ ↦ .refl)
    fun r' h ↦ ⟨fun hpost ↦ ?_, fun _ v hv ↦ ?_⟩
  · rcases hpost with hpost | hpost <;> rw [hpost] at hcmder <;> exact absurd hcmder (by decide)
  · by_cases hvw : v = w
    · refine .inr ⟨hvw, ?_⟩
      rw [Registry.rankOf, h.lookup_wizards, if_pos hvw]
      rfl
    · exact absurd (by rw [Registry.standing, h.lookup_wizards, if_neg hvw]; rfl) hv

theorem ne_post_of_lt (h : rank < .steward) (post : Post) : rank ≠ post.rank := by
  rintro rfl
  revert h
  cases post <;> decide

theorem lt_of_not_missed {old rank : Rank} (hpossible : rank ∈ old.possibleChange)
    (hmissed : ¬Missed old rank) (hretired : old = .retired → rank = .normal)
    (hnormal : old = .normal → rank = .retired) : old < .steward ∧ rank < .steward := by
  revert hpossible hmissed hretired hnormal
  cases old <;> cases rank <;> decide

theorem Permitted.ofPost (hright : Rightful r o cmder (.changeRank wname rank))
    (hpass : Passes r o cmder (.changeRank wname rank))
    (hpost : cmder.rank = .steward ∨ cmder.rank = .lord) :
    r.rankOf (lowerCase wname) < cmder.rank ∧ rank < .steward ∧
      ∃ wiz, r.wizards.lookup (lowerCase wname) = some wiz ∧ wiz.dom = cmder.dom ∧
        wiz.dom ≠ "" := by
  obtain ⟨hdom, hmissed, -⟩ := hright hpass
  obtain ⟨-, hperm, hpossible⟩ := hpass
  rw [Permitted] at hperm
  rcases hpost with hrank | hrank
  · rw [if_pos hrank] at hperm
    obtain ⟨wiz, hw, hsame, hretired, hnormal⟩ := hperm
    obtain ⟨hold, hnew⟩ := lt_of_not_missed hpossible (hmissed hrank) hretired hnormal
    exact ⟨hrank ▸ hold, hnew, wiz, hw, hsame, hsame ▸ hdom (.inl hrank)⟩
  · rw [if_neg (by rw [hrank]; decide), if_pos hrank] at hperm
    obtain ⟨wiz, hw, hsame, hpairs⟩ := hperm
    refine ⟨?_, ?_, wiz, hw, hsame, hsame ▸ hdom (.inr hrank)⟩
    · rcases hpairs with h | h | h <;> rw [h.1, hrank] <;> decide
    · rcases hpairs with h | h | h <;> rw [h.2] <;> decide

theorem arch_le {rank : Rank} (h : .steward ≤ rank) (hsteward : rank ≠ .steward)
    (hlord : rank ≠ .lord) : .arch ≤ rank := by
  revert h hsteward hlord
  cases rank <;> decide

/-- **An arch gives a post**, and with it changes the one who had it. -/
theorem authorised_post (hcmder : .steward ≤ cmder.rank)
    (hright : Rightful r o cmder (.changeRank wname post.rank))
    (hpass : Passes r o cmder (.changeRank wname post.rank)) :
    wp (Authorised o.who cmder r) (if r.rankOf (lowerCase wname) = .mortal then do
        transformMortalIntoWizard (lowerCase wname) o.who
        doChangeRank (lowerCase wname) post.rank o.who
        afterChange o (lowerCase wname)
          (((r.wizards.lookup (lowerCase wname)).map Wizard.dom).getD "") post.rank
        pure true
      else do
        doChangeRank (lowerCase wname) post.rank o.who
        afterChange o (lowerCase wname)
          (((r.wizards.lookup (lowerCase wname)).map Wizard.dom).getD "") post.rank
        pure true) (fun _ ↦ Authorised o.who cmder r) r := by
  have hnopost : ∀ h : cmder.rank = .steward ∨ cmder.rank = .lord, False := fun h ↦
    ne_post_of_lt (Permitted.ofPost hright hpass h).2.1 post rfl
  obtain ⟨hrightful, hperm, hpossible⟩ := And.intro (hright hpass) hpass.2
  have harch : .arch ≤ cmder.rank :=
    arch_le hcmder (fun h ↦ hnopost (.inl h)) fun h ↦ hnopost (.inr h)
  have hmortal : r.rankOf (lowerCase wname) ≠ .mortal := by
    intro h
    rw [h] at hpossible
    revert hpossible
    cases post <;> decide
  have hold : r.rankOf (lowerCase wname) < cmder.rank := by
    rw [Permitted, if_neg fun h ↦ hnopost (.inl h), if_neg fun h ↦ hnopost (.inr h)] at hperm
    exact hperm.resolve_right fun h ↦ absurd h.2 (by cases post <;> decide)
  rw [if_neg hmortal]
  cases hw : r.wizards.lookup (lowerCase wname) with
  | none => exact absurd (by rw [Registry.rankOf, hw]; rfl) hmortal
  | some wiz =>
    obtain ⟨V, hV⟩ : ∃ V : Set String, V = {v | v = lowerCase wname ∨ ∃ d,
        r.domains.lookup wiz.dom = some d ∧ v = d.holder post ∧ v ≠ ""} := ⟨_, rfl⟩
    have hmem : lowerCase wname ∈ V := hV ▸ .inl rfl
    have hstart : Changing (lowerCase wname) post.rank wiz.dom V r r := by
      refine ⟨fun _ _ ↦ rfl, fun d hd p hp ↦ ?_, fun wiz' hw' ↦ ?_, .inl rfl⟩
      · obtain rfl := Post.rank_injective hp
        rw [hV]
        by_cases hholder : d.holder post = ""
        · exact .inl hholder
        · exact .inr (.inr ⟨d, hd, rfl, hholder⟩)
      · rw [some.inj (hw.symm.trans hw')]
    have hend : ∀ s, Moving (lowerCase wname) post.rank V r s → Authorised o.who cmder r s := by
      refine fun s h ↦ h.authorised_arch harch fun v hv ↦ ?_
      rw [hV] at hv
      rcases hv with rfl | ⟨d, hd, rfl, hne⟩
      · exact hold
      · exact hrightful.2.2 harch wiz d hw hd post rfl hne
    rw [wp_bind]
    refine wp_mono (wp_mono_error (Changing.doChangeRank hmem r hstart)
      fun s h ↦ hend s h.moving) fun _ s h ↦ ?_
    exact ((Moving.afterChange hmem (lowerCase_lowerCase wname)).bind
      fun _ ↦ keeps_pure true).wp h.moving hend

/-- **A change of rank.** -/
theorem authorised_changeRank (hcmd : r.wizards.lookup o.who = some cmder)
    (hcmder : .steward ≤ cmder.rank) (hright : Rightful r o cmder (.changeRank wname rank)) :
    wp (Authorised o.who cmder r) (wizardChangeRank o wname rank)
      (fun _ ↦ Authorised o.who cmder r) r := by
  rw [wizardChangeRank]
  simp only [wp_bind, wp_read]
  by_cases hcaller : o.caller = WIZ_CMD_LORD
  swap
  · rw [if_pos hcaller]
    exact .refl
  rw [if_neg (not_not.2 hcaller)]
  simp only [wp_bind]
  rw [wp_wizard hcmd]
  refine wp_mayChangeRank_permitted .refl .refl fun hperm ↦ ?_
  change Permitted r _ _ _ (r.rankOf (lowerCase wname)) rank at hperm
  rw [if_neg (by decide)]
  by_cases hpossible : rank ∉ (r.rankOf (lowerCase wname)).possibleChange
  · exact (if_pos hpossible).symm ▸ Authorised.refl
  have htransform : Keeps (Moving (lowerCase wname) rank {lowerCase wname} r)
      (transformMortalIntoWizard (lowerCase wname) o.who) :=
    keeps_modify fun s h ↦ ⟨h.only.insert rfl _, .inr <| .inr <| .inl <| by
      rw [Registry.rankOf, AList.lookup_insert]
      rfl⟩
  have hpass : Passes r o cmder (.changeRank wname rank) :=
    ⟨hcaller, hperm, not_not.1 hpossible⟩
  rw [Registry.rankOf] at hpossible
  rw [if_neg hpossible]
  rw [← Registry.rankOf] at hpossible
  by_cases hpost : ∃ post : Post, rank = post.rank
  · obtain ⟨post, rfl⟩ := hpost
    exact authorised_post hcmder hright hpass
  have hplain : ∀ post : Post, rank ≠ post.rank := fun post h ↦ hpost ⟨post, h⟩
  have hrest : ∀ dname, Keeps (Moving (lowerCase wname) rank {lowerCase wname} r) (do
      doChangeRank (lowerCase wname) rank o.who
      afterChange o (lowerCase wname) dname rank
      pure true) := fun dname ↦
    (Moving.doChangeRank (Set.mem_singleton _) hplain).bind fun _ ↦
      (Moving.afterChange (Set.mem_singleton _) (lowerCase_lowerCase wname)).bind fun _ ↦
        keeps_pure true
  by_cases hself : cmder.rank = .steward ∨ cmder.rank = .lord ∨
      r.rankOf (lowerCase wname) < cmder.rank
  · have hold : r.rankOf (lowerCase wname) < cmder.rank := by
      rcases hself with h | h | h
      · exact (Permitted.ofPost hright hpass (.inl h)).1
      · exact (Permitted.ofPost hright hpass (.inr h)).1
      · exact h
    refine (Keeps.ite (fun _ ↦ htransform.bind fun _ ↦ hrest _) fun _ ↦ hrest _).wp
      ⟨fun _ _ ↦ rfl, .inl rfl⟩ fun s h ↦ h.authorised hcmder hold fun h ↦ ?_
    obtain ⟨-, hlt, hmember⟩ := Permitted.ofPost hright hpass h
    exact ⟨Nat.lt_of_lt_of_le hlt hcmder, hmember⟩
  · -- an arch or a keeper, about itself
    obtain ⟨hsteward, hlord, hlt⟩ : cmder.rank ≠ .steward ∧ cmder.rank ≠ .lord ∧
        ¬r.rankOf (lowerCase wname) < cmder.rank := by tauto
    rw [Permitted, if_neg hsteward, if_neg hlord] at hperm
    obtain ⟨hwho, rfl⟩ := hperm.resolve_left hlt
    have harch := arch_le hcmder hsteward hlord
    rw [hwho] at hcmd
    rw [hcmd, map_some, getD_some, if_neg fun h ↦ ?_]
    · simp only [wp_bind]
      rw [hwho]
      exact authorised_mage hcmd harch
    · rw [h] at harch
      exact absurd harch (by decide)

end Orders

/-! ### Sequences of orders -/

/-- The orders of `c`, who has to be a steward at least for the soul to pass them on. -/
def orders (support : Bool) (c : String) (r₀ : Registry) :
    TransitionSystem Registry (Outside × Order) where
  Init r := r = r₀
  Step r a r' := a.1.who = c ∧ .steward ≤ r.rankOf c ∧ r' = (a.2.run support a.1 r).2

/-- The order is rightful for the command giver. -/
def RightfulOrder (r : Registry) (a : Outside × Order) : Prop :=
  ∀ cmder, r.wizards.lookup a.1.who = some cmder → Rightful r a.1 cmder a.2

/-- **What the orders of `c` have come to.** Its rank has not been raised, nobody whose rank was
above its own has been changed, and what the next order changes is within its authority. -/
structure UnderAuthority (support : Bool) (c : String) (r₀ r : Registry)
    (ok : Registry → Outside × Order → Prop) : Prop where
  own : r.rankOf c ≤ r₀.rankOf c
  superior : ∀ v, r₀.rankOf c < r₀.rankOf v → r.standing v = r₀.standing v
  next : ∀ a r', ok r a → (orders support c r₀).Step r a r' →
    ∀ cmder, r.wizards.lookup c = some cmder → Authorised c cmder r r'

theorem authorised_step {support : Bool} {c : String} {r₀ r r' : Registry} {a : Outside × Order}
    {cmder : Wizard} (hok : RightfulOrder r a) (hstep : (orders support c r₀).Step r a r')
    (hc : r.wizards.lookup c = some cmder) : Authorised c cmder r r' := by
  obtain ⟨o, q⟩ := a
  obtain ⟨hwho, hcmder, rfl⟩ := hstep
  dsimp only at hwho ⊢
  rw [Registry.rankOf, hc] at hcmder
  rw [← hwho] at hc ⊢
  cases q with
  | changeRank wname rank => exact of_wp (authorised_changeRank hc hcmder (hok cmder hc))
  | expel wname => exact of_wp (authorised_expel hc hcmder (hok cmder hc))

theorem Registry.rankOf_congr {r r' : Registry} {v : String} (h : r'.standing v = r.standing v) :
    r'.rankOf v = r.rankOf v := by
  have hrank : (r'.wizards.lookup v).map Wizard.rank = (r.wizards.lookup v).map Wizard.rank := by
    have hmap := congrArg (Option.map Prod.fst) h
    rw [Registry.standing, Registry.standing, map_map, map_map] at hmap
    exact hmap
  rw [Registry.rankOf, Registry.rankOf, hrank]

theorem Authorised.superior {c : String} {r r' : Registry} {cmder : Wizard}
    (h : Authorised c cmder r r') (hc : r.wizards.lookup c = some cmder)
    (hcmder : .steward ≤ cmder.rank) :
    r'.rankOf c ≤ cmder.rank ∧
      ∀ v, cmder.rank < r.rankOf v → r'.standing v = r.standing v := by
  have hown : r.rankOf c = cmder.rank := by rw [Registry.rankOf, hc]; rfl
  have hirrefl : ∀ rank : Rank, ¬rank < rank := fun rank ↦ Nat.lt_irrefl _
  by_cases hpost : cmder.rank = .steward ∨ cmder.rank = .lord
  · constructor
    · by_cases hsame : r'.standing c = r.standing c
      · rw [Registry.rankOf_congr hsame, hown]
        exact Nat.le_refl _
      · obtain ⟨wiz, -, -, -, -, hlt⟩ := h.ofPost hpost c hsame
        exact Nat.le_of_lt hlt
    · refine fun v hv ↦ by_contra fun hne ↦ ?_
      obtain ⟨wiz, hw, -, -, hlt, -⟩ := h.ofPost hpost v hne
      rw [Registry.rankOf, hw] at hv
      exact hirrefl _ (Nat.lt_trans hv hlt)
  · have harch : .arch ≤ cmder.rank :=
      arch_le hcmder (fun h ↦ hpost (.inl h)) fun h ↦ hpost (.inr h)
    constructor
    · by_cases hsame : r'.standing c = r.standing c
      · rw [Registry.rankOf_congr hsame, hown]
        exact Nat.le_refl _
      · rcases h.ofArch harch c hsame with hlt | ⟨-, hmage⟩
        · exact absurd (hown ▸ hlt) (hirrefl _)
        · rw [hmage]
          exact Nat.le_trans (show Rank.mage.toNat ≤ Rank.arch.toNat by decide) harch
    · refine fun v hv ↦ by_contra fun hne ↦ ?_
      rcases h.ofArch harch v hne with hlt | ⟨rfl, -⟩
      · exact hirrefl _ (Nat.lt_trans hv hlt)
      · exact hirrefl _ (hown ▸ hv)

/-- **Rightful orders stay within the authority of those who give them**: however many of them one
gives, to any registry, it does not raise its own rank or remove a superior. -/
theorem under_authority (support : Bool) (c : String) (r₀ r : Registry)
    (h : (orders support c r₀).ReachableVia RightfulOrder r) :
    UnderAuthority support c r₀ r RightfulOrder := by
  have hinv : r.rankOf c ≤ r₀.rankOf c ∧
      ∀ v, r₀.rankOf c < r₀.rankOf v → r.standing v = r₀.standing v := by
    refine h.invariant (I := fun r ↦ r.rankOf c ≤ r₀.rankOf c ∧
      ∀ v, r₀.rankOf c < r₀.rankOf v → r.standing v = r₀.standing v) (fun r hinit ↦ ?_)
      fun r a r' hI hok hstep ↦ ?_
    · obtain rfl : r = r₀ := hinit
      exact ⟨Nat.le_refl _, fun _ _ ↦ rfl⟩
    · obtain ⟨hown, hsuperior⟩ := hI
      have hcmder : .steward ≤ r.rankOf c := hstep.2.1
      cases hc : r.wizards.lookup c with
      | none =>
        rw [Registry.rankOf, hc] at hcmder
        exact absurd hcmder (by decide)
      | some cmder =>
        have hrank : r.rankOf c = cmder.rank := by rw [Registry.rankOf, hc]; rfl
        obtain ⟨hown', hsuperior'⟩ :=
          (authorised_step hok hstep hc).superior hc (hrank ▸ hcmder)
        refine ⟨Nat.le_trans hown' (hrank ▸ hown), fun v hv ↦ ?_⟩
        have hsame := hsuperior v hv
        refine (hsuperior' v ?_).trans hsame
        rw [Registry.rankOf_congr hsame, ← hrank]
        exact Nat.lt_of_le_of_lt hown hv
  exact ⟨hinv.1, hinv.2, fun a r' hok hstep cmder hc ↦ authorised_step hok hstep hc⟩

/-- A domain with a liege and a steward. -/
def fooRegistry : Registry where
  domCount := 1
  domains := AList.insert "Foo" ⟨0, "foo", "bob", "ann", ["bob", "ann"], "", DOMAIN_MAX⟩ ∅
  wizards := AList.insert "bob" ⟨.lord, 35, "root", "Foo", "root"⟩
    (AList.insert "ann" ⟨.steward, 26, "bob", "Foo", "bob"⟩ ∅)
  trainees := ∅
  globalRead := ∅

/-- `who` gives a command of the lieges. -/
def lordCommand (who : String) : Outside where
  caller := WIZ_CMD_LORD
  who := who
  fileSize _ := -1
  rename _ _ := true
  mkdir _ := true
  findPlayer _ := false

/-- The liege demotes its steward, after an order of its own that is refused. -/
theorem under_authority_demote : UnderAuthority true "bob" fooRegistry
    ((Order.changeRank "ann" .normal).run true (lordCommand "bob")
      ((Order.changeRank "bob" .arch).run true (lordCommand "bob") fooRegistry).2).2
    RightfulOrder := by
  have hbob {cmder : Wizard} (hc : fooRegistry.wizards.lookup "bob" = some cmder) :
      cmder = ⟨.lord, 35, "root", "Foo", "root"⟩ := (some.inj hc).symm
  refine under_authority true "bob" fooRegistry _ <|
    .step (a := (lordCommand "bob", .changeRank "ann" .normal))
      (.step (a := (lordCommand "bob", .changeRank "bob" .arch)) (.init rfl)
        (fun cmder hc hpass ↦ ?_) ⟨rfl, by decide, rfl⟩)
      (fun cmder hc _ ↦ ?_) ⟨rfl, by decide, rfl⟩
  · obtain rfl := hbob hc
    obtain ⟨-, -, -, hpairs⟩ := hpass.2.1
    exact absurd hpairs (by decide)
  · obtain rfl := hbob hc
    exact ⟨fun _ ↦ by decide, fun h ↦ absurd h (by decide), fun h ↦ absurd h (by decide)⟩

/-- **The steward makes an apprentice of its liege.** -/
theorem not_under_authority : ¬∀ (support : Bool) (c : String) (r₀ r : Registry),
    (orders support c r₀).Reachable r → UnderAuthority support c r₀ r fun _ _ ↦ True := by
  intro hall
  have hstart : (orders true "ann" fooRegistry).Reachable fooRegistry := .init rfl
  have hend := hall true "ann" fooRegistry _ <|
    hstart.step (a := (lordCommand "ann", .changeRank "bob" .apprentice))
      ⟨rfl, by decide, rfl⟩
  exact absurd (hend.superior "bob" (by decide)) (by decide)

end Lpmud.Secure
