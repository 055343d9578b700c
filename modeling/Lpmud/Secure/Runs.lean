import Lpmud.Lib.TransitionSystem
import Lpmud.Secure.Consistency

/-!
# Runs of requests

The registry stays consistent in every run of requests that are refused or orderly. What is not
orderly are the requests that forget a field: a new domain gets a short name that is in use, for the
return after the message about it is missing; a wizard leaves a domain, or its name, and is still
the madwand of it; a liege or a steward goes to another domain without being demoted; and a wizard
that becomes a mortal keeps its global read.
-/

namespace Lpmud.Secure

open List Option Abortable

variable {r r' : Registry} {w v D dname cmder : String} {wiz : Wizard} {d : Domain} {rank : Rank}
  {post : Post} {X Y : Set String}

/-! ### What requests forget -/

/-- The wizard is the madwand of its domain. -/
def Registry.IsMadwand (r : Registry) (w : String) : Prop :=
  ∃ wiz d, r.wizards.lookup w = some wiz ∧ r.domains.lookup wiz.dom = some d ∧ d.madwand = w

/-- The wizard is of a rank that goes with a post. -/
def Registry.HasPost (r : Registry) (w : String) : Prop :=
  ∃ post : Post, (r.wizards.lookup w).map Wizard.rank = some post.rank

/-- The wizard is never without a domain. -/
def Registry.Stays (r : Registry) (w : String) : Prop :=
  ∃ wiz, r.wizards.lookup w = some wiz ∧ wiz.rank.Stays

/-- **The request forgets nothing.** Names are given as the souls give them: not empty, in lower
case for wizards and capitalised for domains. -/
def Orderly (support : Bool) (r : Registry) (o : Outside) : Request → Prop
  | .makeDomain dname sname wname =>
    capitalize dname = dname ∧ dname ≠ "" ∧
      (∀ D d, r.domains.lookup D = some d → d.short ≠ sname) ∧ ¬r.IsMadwand wname
  | .removeDomain dname =>
    o.rename ("/d/" ++ capitalize dname) (DISCARD_DOMAIN_DIR ++ "/" ++ capitalize dname) = true ∨
      ∀ d, r.domains.lookup (capitalize dname) = some d → d.madwand = ""
  | .draftWizardToDomain dname wname =>
    lowerCase wname ≠ "" ∧
      ((r.wizards.lookup (lowerCase wname)).map Wizard.dom = some (capitalize dname) ∨
        ¬r.HasPost (lowerCase wname) ∧ ¬r.IsMadwand (lowerCase wname))
  | .expelWizardFromDomain wname =>
    r.IsMadwand (lowerCase wname) →
      (r.Stays (lowerCase wname) → r.queryWizDom wname = WIZARD_DOMAIN) ∧
      (¬r.Stays (lowerCase wname) → support →
        ¬r.HasPost (lowerCase wname) ∧ lowerCase wname ∉ r.globalRead)
  | .leaveDomain =>
    r.IsMadwand o.who → support →
      (r.Stays o.who → r.queryWizDom o.who = WIZARD_DOMAIN) ∧
      (¬r.Stays o.who → ¬r.HasPost o.who ∧ o.who ∉ r.globalRead)
  | .madwandToWizard _ => True
  | .renamePlayerfile oldname newname =>
    oldname ∈ r.wizards →
      newname ∉ r.wizards ∧ lowerCase newname = newname ∧ newname ≠ "" ∧ ¬r.IsMadwand oldname
  | .wizardChangeRank wname rank =>
    lowerCase wname ≠ "" ∧
      (rank = .mortal ∨ rank = .apprentice ∨ rank = .pilgrim → ¬r.IsMadwand (lowerCase wname)) ∧
      (rank = .mortal → lowerCase wname ∉ r.globalRead)

/-- **The request is refused**, by guards that come before any change. -/
def Refused (r : Registry) (o : Outside) : Request → Prop
  | .makeDomain dname sname wname =>
    o.caller ≠ WIZ_CMD_ARCH ∨ dname ∈ r.domains ∨ 11 < dname.length ∨ sname.length ≠ 3 ∨
      (r.wizards.lookup wname).map Wizard.rank ≠ some .apprentice
  | .removeDomain dname =>
    o.caller ≠ WIZ_CMD_ARCH ∨ r.domains.lookup (capitalize dname) = none ∨
      capitalize dname = WIZARD_DOMAIN ∨
      o.fileSize (DISCARD_DOMAIN_DIR ++ "/" ++ capitalize dname) ≠ -1
  | .draftWizardToDomain dname wname =>
    o.caller ≠ WIZ_CMD_ARCH ∨ r.domains.lookup (capitalize dname) = none ∨
      ∃ wiz, r.wizards.lookup (lowerCase wname) = some wiz ∧
        (wiz.dom ≠ "" ∧ wiz.dom ≠ WIZARD_DOMAIN ∨ wiz.rank ≠ .apprentice ∧ wiz.rank < .normal)
  | .expelWizardFromDomain wname =>
    o.caller ≠ WIZ_CMD_LORD ∨ ∃ wiz cmder, r.wizards.lookup (lowerCase wname) = some wiz ∧
      r.wizards.lookup o.who = some cmder ∧ cmder.rank ≤ .lord ∧ wiz.dom ≠ cmder.dom
  | .leaveDomain => o.caller ≠ WIZ_CMD_NORMAL
  | .madwandToWizard _ => o.caller ≠ WIZ_CMD_ARCH
  | .renamePlayerfile oldname _ => o.caller ≠ WIZ_CMD_ARCH ∨ r.queryWizRank oldname = .mortal
  | .wizardChangeRank wname rank => o.caller ≠ WIZ_CMD_LORD ∨
      rank ∉ (((r.wizards.lookup (lowerCase wname)).map Wizard.rank).getD .mortal).possibleChange

/-! ### Parts of requests -/

theorem rank_ne_post (h : ¬r.HasPost w) (hw : r.wizards.lookup w = some wiz) (post : Post) :
    wiz.rank ≠ post.rank :=
  fun hrank ↦ h ⟨post, by rw [hw, map_some, hrank]⟩

theorem madwand_ne (h : ¬r.IsMadwand w) (hw : r.wizards.lookup w = some wiz) (d : Domain)
    (hd : r.domains.lookup wiz.dom = some d) : d.madwand ≠ w :=
  fun hmad ↦ h ⟨wiz, d, hw, hd, hmad⟩

theorem Rank.Stays.ne_post (h : rank.Stays) (post : Post) : rank ≠ post.rank := by
  rintro rfl
  revert h
  cases post <;> decide

theorem Registry.Kept.ne_mortal (h : r.Kept) (hw : r.wizards.lookup w = some wiz) :
    wiz.rank ≠ .mortal :=
  fun hrank ↦ h.noMortal w (by rw [hw, map_some, hrank])

/-- **A wizard is moved.** -/
theorem Registry.Kept.wp_add (h : r.Kept) (hw : r.wizards.lookup w = some wiz)
    (hD : D = if capitalize dname = "" ∧ wiz.rank.Stays then WIZARD_DOMAIN else capitalize dname)
    (hmem : D = "" ∨ D ∈ r.domains)
    (hleaves : D = wiz.dom ∨ (∀ post : Post, wiz.rank ≠ post.rank) ∧
      ∀ d, r.domains.lookup wiz.dom = some d → d.madwand ≠ w) :
    wp Registry.Kept (addWizardToDomain dname w cmder) (fun _ ↦ Registry.Kept) r :=
  wp_addWizardToDomain h.sound hw hD hmem fun _ h' ↦
    ⟨h'.sound h.sound hw hmem (hleaves.imp_right fun h ↦ .inr h.2),
      h'.placed h.sound hw (hleaves.imp_right And.left) h.placed, fun v ↦ by
        rw [h'.map_rank hw]
        exact h.noMortal v⟩

/-- **A change of rank keeps the registry consistent**, but for one that makes a mortal. -/
theorem Ranked.kept (h : Ranked w wiz rank cmder r r') (hr : r.Kept)
    (hw : r.wizards.lookup w = some wiz) (hrank : ∀ post : Post, rank ≠ post.rank)
    (hmortal : rank ≠ .mortal) : r'.Kept where
  sound := (h.frame hw).sound hr.sound
  placed := h.placed hr.sound hw hrank hr.placed
  noMortal v hv := by
    rcases (h.frame hw).mortal v hv with hv | hv
    · exact hmortal hv.2
    · exact hr.noMortal v hv

theorem Frame.madwand_ne {x : String} (h : Frame x rank r r')
    (hmad : ∀ d, r.domains.lookup D = some d → d.madwand ≠ w) (d : Domain)
    (hd : r'.domains.lookup D = some d) : d.madwand ≠ w := by
  obtain ⟨d₀, hd₀, -, -, -, hsame⟩ := h.lookup_domains hd
  rw [hsame]
  exact hmad d₀ hd₀

theorem placed_congr (hwizards : r'.wizards = r.wizards)
    (hdomains : ∀ D d', r'.domains.lookup D = some d' → ∃ d, r.domains.lookup D = some d ∧
      d'.members = d.members ∧ ∀ p : Post, d'.holder p = d.holder p)
    (hplaced : r.Placed v) : r'.Placed v := by
  intro D d' hd' p
  obtain ⟨d, hd, hmembers, hholder⟩ := hdomains D d' hd'
  rw [hmembers, hholder, hwizards]
  exact hplaced D d hd p

variable (w Y) in
/-- **The madwand of a domain is set.** -/
theorem Registry.Sound.setMadwand (hs : r.Sound X) (hd : r.domains.lookup D = some d)
    (hX : ∀ D' ≠ D, D' ∉ Y → D' ∉ X) (hw : D ∉ Y → w ≠ "" → w ∈ d.members) :
    ({ r with domains := r.domains.insert D { d with madwand := w } } : Registry).Sound Y := by
  have hlookup : ∀ D' d', (r.domains.insert D { d with madwand := w }).lookup D' = some d' →
      ∃ d₀, r.domains.lookup D' = some d₀ ∧ d'.num = d₀.num ∧ d'.short = d₀.short ∧
        d'.members = d₀.members ∧ (D' = D → d' = { d with madwand := w }) ∧
        (D' ≠ D → d' = d₀) := by
    intro D' d' hd'
    rw [lookup_insert_ite] at hd'
    split_ifs at hd' with hD
    · subst hD
      obtain rfl := some.inj hd'
      exact ⟨d, hd, rfl, rfl, rfl, fun _ ↦ rfl, fun h ↦ absurd rfl h⟩
    · exact ⟨d', hd', rfl, rfl, rfl, fun h ↦ absurd h hD, fun _ ↦ rfl⟩
  have hmem : ∀ D', D' ∈ r.domains.insert D { d with madwand := w } ↔ D' ∈ r.domains := by
    intro D'
    rw [AList.mem_insert, or_iff_right_of_imp]
    rintro rfl
    exact mem_iff_lookup.2 ⟨d, hd⟩
  refine ⟨⟨fun v wiz hv hne ↦ (hmem _).2 (hs.home v wiz hv hne), ?_, ?_⟩, ?_, ?_, ?_, hs.trainee,
    hs.globalRead, ?_, hs.wizName, fun D' hD' ↦ hs.domName D' ((hmem D').1 hD'),
    (hmem _).2 hs.wizardDomain⟩
  · intro D' d' hd'
    obtain ⟨d₀, hd₀, -, -, hmembers, -⟩ := hlookup D' d' hd'
    exact hmembers ▸ hs.nodup D' d₀ hd₀
  · intro D' d' hd' v
    obtain ⟨d₀, hd₀, -, -, hmembers, -⟩ := hlookup D' d' hd'
    rw [hmembers]
    exact hs.mem_iff D' d₀ hd₀ v
  · intro D' d' hd' hY hne
    obtain ⟨d₀, hd₀, -, -, -, hself, hother⟩ := hlookup D' d' hd'
    by_cases hD : D' = D
    · subst hD
      rw [hself rfl] at hne ⊢
      exact hw hY hne
    · rw [hother hD] at hne ⊢
      exact hs.madwand D' d₀ hd₀ (hX D' hD hY) hne
  · intro D₁ D₂ d₁ d₂ hd₁ hd₂ heq
    obtain ⟨e₁, he₁, -, hshort₁, -⟩ := hlookup D₁ d₁ hd₁
    obtain ⟨e₂, he₂, -, hshort₂, -⟩ := hlookup D₂ d₂ hd₂
    exact hs.short D₁ D₂ e₁ e₂ he₁ he₂ (hshort₁ ▸ hshort₂ ▸ heq)
  · intro D₁ D₂ d₁ d₂ hd₁ hd₂ heq
    obtain ⟨e₁, he₁, hnum₁, -⟩ := hlookup D₁ d₁ hd₁
    obtain ⟨e₂, he₂, hnum₂, -⟩ := hlookup D₂ d₂ hd₂
    exact hs.num D₁ D₂ e₁ e₂ he₁ he₂ (hnum₁ ▸ hnum₂ ▸ heq)
  · intro D' d' hd'
    obtain ⟨d₀, hd₀, hnum, -⟩ := hlookup D' d' hd'
    rw [hnum]
    exact hs.fresh D' d₀ hd₀

variable (w) in
theorem Registry.Placed.setMadwand (h : r.Placed v) (hd : r.domains.lookup D = some d) :
    ({ r with domains := r.domains.insert D { d with madwand := w } } : Registry).Placed v := by
  refine placed_congr (r := r) rfl (fun D' d' hd' ↦ ?_) h
  rw [lookup_insert_ite] at hd'
  split_ifs at hd' with hD
  · subst hD
    obtain rfl := some.inj hd'
    exact ⟨d, hd, rfl, fun p ↦ by cases p <;> rfl⟩
  · exact ⟨d', hd', rfl, fun _ ↦ rfl⟩

/-- **A wizard without a domain is deleted.** -/
theorem kept_erase (hs : r.Sound ∅) (hplaced : ∀ v ≠ w, r.Placed v)
    (hmortal : ∀ v ≠ w, (r.wizards.lookup v).map Wizard.rank ≠ some .mortal)
    (hdom : (r.wizards.lookup w).map Wizard.dom = some "")
    (hholder : ∀ D d, r.domains.lookup D = some d → ∀ p : Post, w ≠ "" → d.holder p ≠ w)
    (htrainee : w ∉ r.trainees) (hread : w ∉ r.globalRead) :
    ({ r with wizards := r.wizards.erase w } : Registry).Kept := by
  have hout : ∀ D d, r.domains.lookup D = some d → w ∉ d.members := by
    intro D d hd hmem
    rw [hs.mem_iff D d hd, hdom] at hmem
    exact (hs.domName D (mem_iff_lookup.2 ⟨d, hd⟩)).2 (some.inj hmem).symm
  refine ⟨⟨⟨fun v wiz hv hne ↦ ?_, hs.nodup, fun D d hd v ↦ ?_⟩, hs.madwand, hs.short, hs.num,
    fun v hv ↦ ?_, fun v hv ↦ ?_, hs.fresh, fun v hv ↦ hs.wizName v (AList.mem_erase.1 hv).2,
    hs.domName, hs.wizardDomain⟩, fun v ↦ ?_, fun v ↦ ?_⟩
  · rw [lookup_erase_ite] at hv
    split_ifs at hv
    exact hs.home v wiz hv hne
  · rw [lookup_erase_ite]
    split_ifs with hv
    · subst hv
      simpa using hout D d hd
    · exact hs.mem_iff D d hd v
  · exact AList.mem_erase.2 ⟨fun h ↦ htrainee (h ▸ hv), hs.trainee v hv⟩
  · exact AList.mem_erase.2 ⟨fun h ↦ hread (h ▸ hv), hs.globalRead v hv⟩
  · intro D d hd p
    rw [lookup_erase_ite]
    split_ifs with hv
    · subst hv
      constructor
      · exact fun h ↦ absurd h.1.symm (hholder D d hd p h.2)
      · exact fun h ↦ absurd h.1 (hout D d hd)
    · exact hplaced v hv D d hd p
  · rw [lookup_erase_ite]
    split_ifs with hv
    · simp
    · exact hmortal v hv

/-! ### A domain is made -/

/-- A new domain with a liege that is not a member yet. -/
def Registry.newDomain (r : Registry) (dname sname wname : String) : Registry :=
  { r with
    domCount := r.domCount + 1
    domains := r.domains.insert dname ⟨r.domCount, sname, wname, "", [], "", DOMAIN_MAX⟩ }

section NewDomain

variable {sname wname : String}

theorem lookup_newDomain (D : String) : (r.newDomain dname sname wname).domains.lookup D =
    if D = dname then some ⟨r.domCount, sname, wname, "", [], "", DOMAIN_MAX⟩
    else r.domains.lookup D :=
  lookup_insert_ite ..

/-- **A new domain with a short name of its own.** -/
theorem Registry.Sound.newDomain (hs : r.Sound ∅) (hnew : dname ∉ r.domains)
    (hcap : capitalize dname = dname) (hne : dname ≠ "")
    (hshort : ∀ D d, r.domains.lookup D = some d → d.short ≠ sname) :
    (r.newDomain dname sname wname).Sound ∅ := by
  have hmem : ∀ D, D ∈ (r.newDomain dname sname wname).domains ↔ D = dname ∨ D ∈ r.domains :=
    fun D ↦ AList.mem_insert _
  refine ⟨⟨fun v wiz hv hdom ↦ (hmem _).2 (.inr (hs.home v wiz hv hdom)), ?_, ?_⟩, ?_, ?_, ?_,
    hs.trainee, hs.globalRead, ?_, hs.wizName, ?_, (hmem _).2 (.inr hs.wizardDomain)⟩
  · intro D d hd
    rw [lookup_newDomain] at hd
    split_ifs at hd
    · obtain rfl := some.inj hd
      exact nodup_nil
    · exact hs.nodup D d hd
  · intro D d hd v
    rw [lookup_newDomain] at hd
    split_ifs at hd with hD
    · obtain rfl := some.inj hd
      refine ⟨fun h ↦ absurd h not_mem_nil, fun h ↦ ?_⟩
      obtain ⟨wiz, hv, hdom⟩ := map_eq_some_iff.1 h
      have hmem' := hs.home v wiz hv (by rw [hdom, hD]; exact hne)
      rw [hdom, hD] at hmem'
      exact absurd hmem' hnew
    · exact hs.mem_iff D d hd v
  · intro D d hd hD hmad
    rw [lookup_newDomain] at hd
    split_ifs at hd
    · obtain rfl := some.inj hd
      exact absurd rfl hmad
    · exact hs.madwand D d hd hD hmad
  · intro D₁ D₂ d₁ d₂ hd₁ hd₂ heq
    rw [lookup_newDomain] at hd₁ hd₂
    split_ifs at hd₁ hd₂ with h₁ h₂ h₂
    · rw [h₁, h₂]
    · obtain rfl := some.inj hd₁
      exact absurd heq.symm (hshort D₂ d₂ hd₂)
    · obtain rfl := some.inj hd₂
      exact absurd heq (hshort D₁ d₁ hd₁)
    · exact hs.short D₁ D₂ d₁ d₂ hd₁ hd₂ heq
  · intro D₁ D₂ d₁ d₂ hd₁ hd₂ heq
    rw [lookup_newDomain] at hd₁ hd₂
    split_ifs at hd₁ hd₂ with h₁ h₂ h₂
    · rw [h₁, h₂]
    · obtain rfl := some.inj hd₁
      exact absurd heq.symm (hs.fresh D₂ d₂ hd₂).ne
    · obtain rfl := some.inj hd₂
      exact absurd heq (hs.fresh D₁ d₁ hd₁).ne
    · exact hs.num D₁ D₂ d₁ d₂ hd₁ hd₂ heq
  · intro D d hd
    rw [lookup_newDomain] at hd
    split_ifs at hd
    · obtain rfl := some.inj hd
      exact Int.lt_succ r.domCount
    · exact (hs.fresh D d hd).trans (Int.lt_succ r.domCount)
  · intro D hD
    rcases (hmem D).1 hD with rfl | hD
    · exact ⟨hcap, hne⟩
    · exact hs.domName D hD

theorem Registry.Placed.newDomain (hplaced : r.Placed v) (hv : v ≠ wname) :
    (r.newDomain dname sname wname).Placed v := by
  intro D d hd p
  rw [lookup_newDomain] at hd
  split_ifs at hd
  · obtain rfl := some.inj hd
    refine ⟨fun h ↦ ?_, fun h ↦ absurd h.1 not_mem_nil⟩
    cases p
    · exact absurd h.1 hv
    · exact absurd h.1 h.2
  · exact hplaced D d hd p

end NewDomain

/-- **The liege of a new domain**, who is already marked as such, is made a lord: on the way it is
made a normal wizard by itself. -/
theorem wp_doChangeRank_own {Q : Registry → Prop} {E : Registry → Prop} (hs : r.Sound X)
    (hw : r.wizards.lookup w = some wiz) (hrank : ∀ post : Post, wiz.rank ≠ post.rank)
    (hd : r.domains.lookup wiz.dom = some d) (hlord : d.holder .lord = w)
    (hother : ∀ v ≠ w, r.Placed v)
    (honly : ∀ D d, r.domains.lookup D = some d → ∀ p : Post, d.holder p = w →
      D = wiz.dom ∧ p = .lord)
    (hQ : ∀ r', Frame w .lord r r' → (∀ v, r'.Placed v) → Q r') :
    wp E (doChangeRank w .lord cmder) (fun _ ↦ Q) r := by
  have hne : w ≠ "" := (hs.wizName w (mem_iff_lookup.2 ⟨wiz, hw⟩)).2
  have hnormal : ∀ p : Post, Rank.normal ≠ p.rank := fun p ↦ by cases p <;> decide
  have hmem : wiz.dom ∈ r.domains := mem_iff_lookup.2 ⟨d, hd⟩
  -- nothing is given up, for the wizard has no rank that goes with a post
  have hsame : ∀ r₁, Vacated wiz r r₁ → ∀ D d, r₁.domains.lookup D = some d →
      ∃ d₀, r.domains.lookup D = some d₀ ∧ ∀ p : Post, d.holder p = d₀.holder p := by
    intro r₁ h₁ D d hd
    obtain ⟨d₀, hd₀, -, hholder⟩ := h₁.lookup_domains hd
    exact ⟨d₀, hd₀, fun p ↦ by rw [hholder, if_neg fun h ↦ hrank p h.2]⟩
  have hheld : ∀ r₁, Vacated wiz r r₁ → ∀ d₁, r₁.domains.lookup wiz.dom = some d₁ →
      d₁.holder .lord = w := by
    intro r₁ h₁ d₁ hd₁
    obtain ⟨d₀, hd₀, hholder⟩ := hsame r₁ h₁ _ d₁ hd₁
    obtain rfl := some.inj (hd.symm.trans hd₀)
    rw [hholder, hlord]
  refine wp_changeRank_post .lord hs hw (fun h ↦ absurd hmem h) ?_ ?_ hQ
  · intro r₁ d₁ h₁ hd₁ hfree
    exact absurd ((hheld r₁ h₁ d₁ hd₁).symm.trans hfree) hne
  · intro r₁ d₁ h₁ hd₁ _
    have hs₁ : r₁.Sound X := (h₁.frame : Frame w .lord r r₁).sound hs
    have hw₁ : r₁.wizards.lookup w = some wiz := h₁.wizards ▸ hw
    rw [hheld r₁ h₁ d₁ hd₁]
    refine wp_changeRank hnormal hw₁ (fun _ _ h ↦ absurd (mem_iff_lookup.2 ⟨d₁, hd₁⟩) h)
      fun r₂ h₂ ↦ ⟨(h₂.frame hw₁).of_ne_mortal (by decide), fun v hv ↦ ?_, fun d₂ hd₂ ↦ .inr ?_,
        fun D d₂ hd₂ p hp ↦ ?_⟩
    · exact h₂.placed_other hs₁ hw₁ (fun p h ↦ absurd h (hrank p)) hv
        (h₁.placed_other hs hw (fun p h ↦ absurd h (hrank p)) hv (hother v hv))
    · obtain ⟨d₀, hd₀, -, hholder⟩ := h₂.lookup_domains hd₂
      rw [hholder, if_neg fun h ↦ hrank .lord h.2, hheld r₁ h₁ d₀ hd₀]
    · obtain ⟨d₀, hd₀, -, hholder⟩ := h₂.lookup_domains hd₂
      obtain ⟨e₀, he₀, hholder₀⟩ := hsame r₁ h₁ D d₀ hd₀
      rw [hholder, if_neg fun h ↦ hrank p h.2, hholder₀] at hp
      exact honly D e₀ he₀ p hp

/-! ### Requests -/

section Requests

variable {support : Bool} {o : Outside}

theorem wp_makeDomain {sname wname : String} (hr : r.Kept)
    (ho : Orderly support r o (.makeDomain dname sname wname)) :
    wp Registry.Kept (makeDomain o dname sname wname) (fun _ ↦ Registry.Kept) r := by
  obtain ⟨hcap, hne, hshort, hmad⟩ := ho
  rw [makeDomain]
  simp only [wp_bind, wp_read]
  split_ifs with hcaller hnew hlength hrank hdir
  · exact hr
  · exact hr
  · exact hr
  · exact hr
  · exact hr
  obtain ⟨wiz, hw, hrank⟩ := map_eq_some_iff.1 (not_not.1 hrank)
  have hpost : ∀ post : Post, wiz.rank ≠ post.rank := fun p ↦ by rw [hrank]; cases p <;> decide
  have hs : (r.newDomain dname sname wname).Sound ∅ := hr.sound.newDomain hnew hcap hne hshort
  have hdom : wiz.dom ≠ dname := fun h ↦ hnew (h ▸ hr.sound.home wname wiz hw (h ▸ hne))
  have hcond : dname =
      if capitalize dname = "" ∧ wiz.rank.Stays then WIZARD_DOMAIN else capitalize dname := by
    rw [hcap, if_neg fun h ↦ hne h.1]
  have hmem : dname ∈ (r.newDomain dname sname wname).domains := (AList.mem_insert _).2 (.inl rfl)
  rw [wp_bind, wp_modify]
  simp only [wp_bind]
  refine wp_addWizardToDomain (r := r.newDomain dname sname wname) hs hw hcond (.inr hmem)
    fun r₁ h₁ ↦ ?_
  have hs₁ : r₁.Sound ∅ := h₁.sound hs hw (.inr hmem) <| .inr <| .inr fun d hd ↦ by
    rw [lookup_newDomain, if_neg hdom] at hd
    exact madwand_ne hmad hw d hd
  have hw₁ : r₁.wizards.lookup wname = some { wiz with dom := dname, chDom := o.who } := by
    rw [h₁.wizards, if_pos rfl]
  have hwname : wname ≠ "" := (hr.sound.wizName wname (mem_iff_lookup.2 ⟨wiz, hw⟩)).2
  obtain ⟨d₁, hd₁⟩ := mem_iff_lookup.1 ((h₁.mem_domains dname).2 hmem)
  have hlord : d₁.holder .lord = wname := by
    obtain ⟨d₀, hd₀, -, -, -, hholder, -⟩ := h₁.lookup_domains hs hw hd₁
    rw [lookup_newDomain, if_pos rfl] at hd₀
    obtain rfl := some.inj hd₀
    exact hholder .lord
  refine wp_doChangeRank_own hs₁ hw₁ hpost hd₁ hlord
    (fun v hv ↦ h₁.placed_other hs hw hv ((hr.placed v).newDomain hv)) (fun D d hd p hp ↦ ?_)
    fun r' hframe hplaced ↦ ⟨hframe.sound hs₁, hplaced, fun v hv ↦ ?_⟩
  · obtain ⟨d₀, hd₀, -, -, -, hholder, -⟩ := h₁.lookup_domains hs hw hd
    rw [hholder] at hp
    rw [lookup_newDomain] at hd₀
    split_ifs at hd₀ with hD
    · obtain rfl := some.inj hd₀
      cases p
      · exact ⟨hD, rfl⟩
      · exact absurd hp.symm hwname
    · have hrank' := ((hr.placed wname D d₀ hd₀ p).1 ⟨hp.symm, hwname⟩).2
      rw [hw, map_some, some.injEq] at hrank'
      exact absurd hrank' (hpost p)
  · rcases hframe.mortal v hv with hv | hv
    · exact absurd hv.2 (by decide)
    · rw [h₁.map_rank hw] at hv
      exact hr.noMortal v hv

/-! #### Drafting -/

variable (wiz) in
theorem Registry.Sound.insertWizard (hs : r.Sound X) (hw : w ∉ r.wizards)
    (hname : lowerCase w = w ∧ w ≠ "") (hdom : wiz.dom = "") :
    ({ r with wizards := r.wizards.insert w wiz } : Registry).Sound X := by
  have hmem : ∀ v, v ∈ r.wizards.insert w wiz ↔ v = w ∨ v ∈ r.wizards := fun v ↦
    AList.mem_insert _
  refine ⟨⟨fun v wiz' hv hne ↦ ?_, hs.nodup, fun D d hd v ↦ ?_⟩, hs.madwand, hs.short, hs.num,
    fun v hv ↦ (hmem v).2 (.inr (hs.trainee v hv)),
    fun v hv ↦ (hmem v).2 (.inr (hs.globalRead v hv)), hs.fresh, fun v hv ↦ ?_, hs.domName,
    hs.wizardDomain⟩
  · rw [lookup_insert_ite] at hv
    split_ifs at hv
    · obtain rfl := some.inj hv
      exact absurd hdom hne
    · exact hs.home v wiz' hv hne
  · rw [lookup_insert_ite]
    split_ifs with hv
    · subst hv
      rw [hs.mem_iff D d hd, notMem_iff_lookup.1 hw, map_none, map_some, hdom,
        some.injEq]
      exact ⟨nofun, fun h ↦ absurd h.symm (hs.domName D (mem_iff_lookup.2 ⟨d, hd⟩)).2⟩
    · exact hs.mem_iff D d hd v
  · rcases (hmem v).1 hv with rfl | hv
    · exact hname
    · exact hs.wizName v hv

variable (wiz) in
theorem Registry.Placed.insertWizard (hplaced : r.Placed v) (hw : w ∉ r.wizards)
    (hrank : ∀ post : Post, wiz.rank ≠ post.rank) :
    ({ r with wizards := r.wizards.insert w wiz } : Registry).Placed v := by
  intro D d hd p
  rw [lookup_insert_ite]
  split_ifs with hv
  · subst hv
    rw [hplaced D d hd p, notMem_iff_lookup.1 hw]
    exact ⟨fun h ↦ absurd h.2 nofun, fun h ↦ absurd (some.inj h.2) (hrank p)⟩
  · exact hplaced D d hd p

theorem Registry.Sound.of_singleton (hs : r.Sound {D})
    (hmad : ∀ d, r.domains.lookup D = some d → d.madwand ≠ "" → d.madwand ∈ d.members) :
    r.Sound ∅ where
  __ := hs
  madwand D' d hd _ hne := by
    by_cases hD : D' = D
    · subst hD
      exact hmad d hd hne
    · exact hs.madwand D' d hd hD hne

theorem normal_ne_post (post : Post) : Rank.normal ≠ post.rank := by
  cases post <;> decide

theorem mortal_ne_post (post : Post) : Rank.mortal ≠ post.rank := by
  cases post <;> decide

theorem apprentice_ne_post (post : Post) : Rank.apprentice ≠ post.rank := by
  cases post <;> decide

theorem wp_draftMadwand (hr : r.Kept) (hname : lowerCase w = w ∧ w ≠ "") :
    wp Registry.Kept (draftMadwand o D w cmder) (fun _ ↦ Registry.Kept) r := by
  rw [draftMadwand]
  simp only [wp_bind, wp_read]
  by_cases hw : w ∈ r.wizards
  · rw [if_pos hw]
    exact hr
  rw [if_neg hw]
  cases hd : r.domains.lookup D with
  | none => exact hr
  | some d =>
    dsimp only
    split_ifs with hmad hfull honline
    · exact hr
    · exact hr
    · exact hr
    have hD := hr.sound.domName D (mem_iff_lookup.2 ⟨d, hd⟩)
    rw [wp_bind, transformMortalIntoWizard, wp_modify]
    simp only [wp_bind]
    rw [wp_setDomain _ (by exact hd)]
    -- the mortal is registered and is the madwand, but not a member yet
    have hs₂ := (hr.sound.insertWizard (newWizard cmder) hw hname rfl).setMadwand w {D} hd
      (fun _ _ _ ↦ Set.notMem_empty _) fun h ↦ absurd rfl h
    refine wp_doChangeRank normal_ne_post (AList.lookup_insert _)
      (fun p h ↦ absurd h (mortal_ne_post p)) fun r₃ h₃ ↦ ?_
    have hframe := h₃.frame (AList.lookup_insert _)
    have hs₃ := hframe.sound hs₂
    have hplaced₃ : ∀ v, r₃.Placed v := h₃.placed hs₂ (AList.lookup_insert _) normal_ne_post
      fun v ↦ ((hr.placed v).insertWizard (newWizard cmder) hw mortal_ne_post).setMadwand w hd
    have hw₃ := h₃.lookup_wizards w
    rw [if_pos rfl] at hw₃
    have hmem₃ : D ∈ r₃.domains := (hframe.mem_domains D).2 ((AList.mem_insert _).2 (.inl rfl))
    have hcond : D = if capitalize D = "" ∧ Rank.normal.Stays then WIZARD_DOMAIN
        else capitalize D := by
      rw [hD.1, if_neg fun h ↦ hD.2 h.1]
    refine wp_addWizardToDomain hs₃ hw₃ hcond (.inr hmem₃) fun r₄ h₄ ↦ ?_
    have hempty : "" ∉ r₃.domains := fun h ↦ (hs₃.domName _ h).2 rfl
    have hs₄ := h₄.sound hs₃ hw₃ (.inr hmem₃) <| .inr <| .inr fun d' hd' ↦ by
      exact absurd (mem_iff_lookup.2 ⟨d', hd'⟩) hempty
    refine ⟨hs₄.of_singleton fun d₄ hd₄ _ ↦ ?_,
      h₄.placed hs₃ hw₃ (.inr normal_ne_post) hplaced₃, fun v hv ↦ ?_⟩
    · obtain ⟨d₃, hd₃, -, -, hmad₄, -, -, -, hself⟩ := h₄.lookup_domains hs₃ hw₃ hd₄
      obtain ⟨d₂, hd₂, -, -, -, hmad₃⟩ := hframe.lookup_domains hd₃
      obtain rfl := some.inj ((AList.lookup_insert _).symm.trans hd₂)
      rw [hmad₄, hmad₃, hself]
    · rw [h₄.map_rank hw₃, h₃.lookup_wizards] at hv
      split_ifs at hv with hvw
      · exact absurd (some.inj hv) (show Rank.normal ≠ .mortal by decide)
      · rw [lookup_insert_ite, if_neg hvw] at hv
        exact hr.noMortal v hv

theorem wp_draftWizardToDomain {wname : String} (hr : r.Kept)
    (ho : Orderly support r o (.draftWizardToDomain dname wname)) :
    wp Registry.Kept (draftWizardToDomain support o dname wname) (fun _ ↦ Registry.Kept) r := by
  obtain ⟨hne, hleaves⟩ := ho
  rw [draftWizardToDomain]
  simp only [wp_bind, wp_read]
  by_cases hcaller : o.caller = WIZ_CMD_ARCH
  swap
  · rw [if_pos hcaller]
    exact hr
  rw [if_neg (not_not.2 hcaller)]
  cases hd : r.domains.lookup (capitalize dname) with
  | none => exact hr
  | some d =>
    dsimp only
    by_cases hfull : d.maxSize ≤ d.members.length
    · rw [if_pos hfull]
      exact hr
    rw [if_neg hfull]
    have hmem : capitalize dname ∈ r.domains := mem_iff_lookup.2 ⟨d, hd⟩
    have hD := hr.sound.domName _ hmem
    cases hw : r.wizards.lookup (lowerCase wname) with
    | none =>
      dsimp only
      split_ifs
      · exact wp_draftMadwand hr ⟨lowerCase_lowerCase wname, hne⟩
      · exact hr
    | some wiz =>
      dsimp only
      -- the wizard goes to the domain with the rank `wiz'.rank`
      have hadd : ∀ (r' : Registry) (wiz' : Wizard), r'.Kept →
          r'.wizards.lookup (lowerCase wname) = some wiz' → wiz'.dom = wiz.dom →
          capitalize dname ∈ r'.domains →
          (capitalize dname = wiz.dom ∨ (∀ post : Post, wiz'.rank ≠ post.rank) ∧
            ∀ d, r'.domains.lookup wiz.dom = some d → d.madwand ≠ lowerCase wname) →
          wp Registry.Kept (addWizardToDomain (capitalize dname) (lowerCase wname) o.who)
            (fun _ ↦ Registry.Kept) r' := by
        intro r' wiz' hr' hw' hdom hmem' hleaves'
        refine hr'.wp_add hw' ?_ (.inr hmem') (hdom ▸ hleaves')
        rw [hD.1, if_neg fun h ↦ hD.2 h.1]
      have hleaves' : capitalize dname = wiz.dom ∨ (∀ post : Post, wiz.rank ≠ post.rank) ∧
          ∀ d, r.domains.lookup wiz.dom = some d → d.madwand ≠ lowerCase wname := by
        rw [hw, map_some, some.injEq, eq_comm] at hleaves
        exact hleaves.imp_right fun h ↦ ⟨rank_ne_post h.1 hw, madwand_ne h.2 hw⟩
      split_ifs with hdom hrank happr
      · exact hr
      · exact hr
      · rw [wp_bind]
        refine wp_doChangeRank normal_ne_post hw (fun _ _ _ ↦ hr) fun r₁ h₁ ↦ ?_
        have hw₁ := h₁.lookup_wizards (lowerCase wname)
        rw [if_pos rfl] at hw₁
        exact hadd r₁ _ (h₁.kept hr hw normal_ne_post (by decide)) hw₁ rfl
          (((h₁.frame hw).mem_domains _).2 hmem)
          (hleaves'.imp_right fun h ↦ ⟨normal_ne_post, (h₁.frame hw).madwand_ne h.2⟩)
      · exact hadd r wiz hr hw rfl hmem hleaves'

/-! #### Leaving -/

theorem Registry.Sound.mono (hs : r.Sound X) (hXY : X ⊆ Y) : r.Sound Y where
  __ := hs
  madwand D d hd hD := hs.madwand D d hd fun h ↦ hD (hXY h)

/-- **A madwand is expelled**, if it has no post and no global read. -/
theorem wp_expelMadwand (hr : r.Kept) (hw : r.wizards.lookup w = some wiz)
    (hd : r.domains.lookup wiz.dom = some d) (hstays : ¬wiz.rank.Stays)
    (hpost : ∀ post : Post, wiz.rank ≠ post.rank) (hread : w ∉ r.globalRead) :
    wp Registry.Kept (expelMadwand w cmder) (fun _ ↦ Registry.Kept) r := by
  have hs : r.Sound {wiz.dom} := hr.sound.mono (Set.empty_subset _)
  have hdom : wiz.dom ≠ "" := (hs.domName _ (mem_iff_lookup.2 ⟨d, hd⟩)).2
  rw [expelMadwand]
  simp only [wp_bind]
  rw [wp_wizard hw]
  refine wp_addWizardToDomain hs hw (D := "") ?_ (.inl rfl) fun r₁ h₁ ↦ ?_
  · rw [capitalize_empty, if_neg fun h ↦ hstays h.2]
  obtain ⟨d₁, hd₁⟩ := mem_iff_lookup.1 ((h₁.mem_domains _).2 (mem_iff_lookup.2 ⟨d, hd⟩))
  have hs₁ := h₁.sound hs hw (.inl rfl) (.inr (.inl rfl))
  have hplaced₁ := h₁.placed hs hw (.inr hpost) hr.placed
  have hne : w ≠ "" := (hs.wizName w (mem_iff_lookup.2 ⟨wiz, hw⟩)).2
  rw [wp_setDomain _ hd₁, deleteWizard, wp_modify]
  have hs₂ := hs₁.setMadwand "" ∅ hd₁ (fun D' hD' _ h ↦ hD' h) fun _ h ↦ absurd rfl h
  refine kept_erase hs₂ (fun v _ ↦ (hplaced₁ v).setMadwand "" hd₁) (fun v _ ↦ ?_) ?_
    (fun D d₂ hd₂ p hne hp ↦ ?_) (h₁.unmarked hdom rfl) (h₁.globalRead ▸ hread)
  · rw [h₁.map_rank hw]
    exact hr.noMortal v
  · rw [h₁.wizards, if_pos rfl]
    rfl
  · -- the wizard had no post, and has none now
    have hrank := (((hplaced₁ w).setMadwand "" hd₁ D d₂ hd₂ p).1 ⟨hp.symm, hne⟩).2
    rw [h₁.map_rank hw, hw, map_some, some.injEq] at hrank
    exact hpost p hrank

/-- **A wizard leaves its domain.** With support for madwands, one that is a madwand has no post,
does not stay, and has no global read. -/
theorem wp_expelFromDomain {demoted : Bool} (hr : r.Kept) (hw : r.wizards.lookup w = some wiz)
    (hdom : wiz.dom ≠ "") (hdemoted : demoted = !decide wiz.rank.Stays)
    (hmad : r.IsMadwand w → support → ¬wiz.rank.Stays ∧ ¬r.HasPost w ∧ w ∉ r.globalRead) :
    wp Registry.Kept (expelFromDomain support o w wiz demoted) (fun _ ↦ Registry.Kept) r := by
  obtain ⟨d, hd⟩ := mem_iff_lookup.1 (hr.sound.home w wiz hw hdom)
  -- the wizard is no madwand, and is demoted unless it stays
  have hleave : ∀ r₁ : Registry, r₁.Kept → r₁.wizards.lookup w = some wiz →
      (∀ d, r₁.domains.lookup wiz.dom = some d → d.madwand ≠ w) →
      (demoted → wp Registry.Kept (doChangeRank w .apprentice o.who) (fun _ ↦
        wp Registry.Kept (addWizardToDomain "" w o.who) fun _ ↦ Registry.Kept) r₁) ∧
      (¬demoted → wp Registry.Kept (addWizardToDomain "" w o.who) (fun _ ↦ Registry.Kept) r₁) := by
    intro r₁ hr₁ hw₁ hmad₁
    refine ⟨fun _ ↦ ?_, fun hdem ↦ ?_⟩
    · refine wp_doChangeRank apprentice_ne_post hw₁ (fun _ _ _ ↦ hr₁) fun r₂ h₂ ↦ ?_
      have hw₂ := h₂.lookup_wizards w
      rw [if_pos rfl] at hw₂
      refine (h₂.kept hr₁ hw₁ apprentice_ne_post (by decide)).wp_add hw₂ (D := "") ?_ (.inl rfl)
        (.inr ⟨apprentice_ne_post, (h₂.frame hw₁).madwand_ne hmad₁⟩)
      rw [capitalize_empty, if_neg fun h ↦ absurd h.2 (show ¬Rank.apprentice.Stays by decide)]
    · have hstays : wiz.rank.Stays := by simpa [hdemoted] using hdem
      refine hr₁.wp_add hw₁ (D := WIZARD_DOMAIN) ?_ (.inr hr₁.sound.wizardDomain)
        (.inr ⟨hstays.ne_post, hmad₁⟩)
      rw [capitalize_empty, if_pos ⟨rfl, hstays⟩]
  rw [expelFromDomain, wp_bind, wp_domain hd]
  by_cases hexpel : d.madwand = w ∧ support
  · rw [if_pos hexpel]
    obtain ⟨hstays, hpost, hread⟩ := hmad ⟨wiz, d, hw, hd, hexpel.1⟩ hexpel.2
    exact wp_expelMadwand hr hw hd hstays (rank_ne_post hpost hw) hread
  rw [if_neg hexpel]
  by_cases hunmark : d.madwand = w
  · -- unmarked first
    have hr₁ : ({ r with domains := r.domains.insert wiz.dom { d with madwand := "" } } :
        Registry).Kept :=
      ⟨hr.sound.setMadwand "" ∅ hd (fun _ _ h ↦ h) fun _ h ↦ absurd rfl h,
        fun v ↦ (hr.placed v).setMadwand "" hd, hr.noMortal⟩
    obtain ⟨hdem, hstay⟩ := hleave _ hr₁ hw fun d' hd' ↦ by
      obtain rfl := some.inj ((AList.lookup_insert _).symm.trans hd')
      exact Ne.symm (hr.sound.wizName w (mem_iff_lookup.2 ⟨wiz, hw⟩)).2
    rw [if_pos hunmark, wp_bind, wp_setDomain _ hd]
    split_ifs with h
    · rw [wp_bind]
      exact hdem h
    · exact hstay h
  · obtain ⟨hdem, hstay⟩ := hleave r hr hw fun d' hd' ↦ by
      rwa [← some.inj (hd.symm.trans hd')]
    rw [if_neg hunmark]
    split_ifs with h
    · rw [wp_bind]
      exact hdem h
    · exact hstay h

theorem wp_expelWizardFromDomain {wname : String} (hr : r.Kept)
    (ho : Orderly support r o (.expelWizardFromDomain wname)) :
    wp Registry.Kept (expelWizardFromDomain support o wname) (fun _ ↦ Registry.Kept) r := by
  rw [expelWizardFromDomain]
  simp only [wp_bind, wp_read]
  by_cases hcaller : o.caller = WIZ_CMD_LORD
  swap
  · rw [if_pos hcaller]
    exact hr
  rw [if_neg (not_not.2 hcaller)]
  by_cases hempty : lowerCase wname = ""
  · rw [if_pos hempty]
    exact hr
  rw [if_neg hempty]
  cases hw : r.wizards.lookup (lowerCase wname) with
  | none => exact hr
  | some wiz =>
    dsimp only
    by_cases hdom : wiz.dom = ""
    · rw [if_pos hdom]
      exact hr
    rw [if_neg hdom, wp_bind, wizard, wp_fetch]
    refine ⟨fun _ ↦ hr, fun cmder _ ↦ ?_⟩
    have hquery : r.queryWizDom wname = wiz.dom := by
      rw [Registry.queryWizDom, hw]
      rfl
    have hstays : r.Stays (lowerCase wname) ↔ wiz.rank.Stays := by
      constructor
      · rintro ⟨wiz', hw', hstays⟩
        rwa [← some.inj (hw.symm.trans hw')] at hstays
      · exact fun hstays ↦ ⟨wiz, hw, hstays⟩
    by_cases hother : cmder.rank ≤ .lord ∧ wiz.dom ≠ cmder.dom
    · rw [if_pos hother]
      exact hr
    rw [if_neg hother]
    by_cases hstay : wiz.rank.Stays
    · -- a mage, an arch or a keeper goes to the domain of wizards
      rw [if_pos hstay]
      by_cases hwiz : wiz.dom = WIZARD_DOMAIN
      · rw [if_pos hwiz]
        exact hr
      have hcap : capitalize WIZARD_DOMAIN = WIZARD_DOMAIN :=
        (hr.sound.domName _ hr.sound.wizardDomain).1
      have hmad : ¬r.IsMadwand (lowerCase wname) := fun hmad ↦
        hwiz (hquery.symm.trans ((ho hmad).1 (hstays.2 hstay)))
      rw [if_neg hwiz]
      refine hr.wp_add hw (D := WIZARD_DOMAIN) ?_ (.inr hr.sound.wizardDomain)
        (.inr ⟨hstay.ne_post, madwand_ne hmad hw⟩)
      rw [hcap, ite_self]
    · rw [if_neg hstay]
      refine wp_expelFromDomain hr hw hdom (by simp [hstay]) fun hmad hsupport ↦ ?_
      exact ⟨hstay, (ho hmad).2 (fun h ↦ hstay (hstays.1 h)) hsupport⟩

theorem wp_leaveDomain (hr : r.Kept) (ho : Orderly support r o .leaveDomain) :
    wp Registry.Kept (leaveDomain support o) (fun _ ↦ Registry.Kept) r := by
  rw [leaveDomain]
  split_ifs with hcaller
  · exact hr
  rw [wp_bind, wizard, wp_fetch]
  refine ⟨fun _ ↦ hr, fun wiz hw ↦ ?_⟩
  have hname : lowerCase o.who = o.who := (hr.sound.wizName _ (mem_iff_lookup.2 ⟨wiz, hw⟩)).1
  have hquery : r.queryWizDom o.who = wiz.dom := by
    rw [Registry.queryWizDom, hname, hw]
    rfl
  have hstays : r.Stays o.who ↔ wiz.rank.Stays := by
    constructor
    · rintro ⟨wiz', hw', hstays⟩
      rwa [← some.inj (hw.symm.trans hw')] at hstays
    · exact fun hstays ↦ ⟨wiz, hw, hstays⟩
  split_ifs with hwiz hdom
  · exact hr
  · exact hr
  · refine wp_expelFromDomain hr hw hdom rfl fun hmad hsupport ↦ ?_
    obtain ⟨hstay, hgo⟩ := ho hmad hsupport
    have hleaves : ¬wiz.rank.Stays := fun h ↦ hwiz ⟨hquery ▸ hstay (hstays.2 h), h⟩
    exact ⟨hleaves, hgo fun h ↦ hleaves (hstays.1 h)⟩

theorem wp_madwandToWizard {wname : String} (hr : r.Kept) :
    wp Registry.Kept (madwandToWizard support o wname) (fun _ ↦ Registry.Kept) r := by
  rw [madwandToWizard]
  simp only [wp_bind, wp_read]
  split_ifs
  · exact hr
  cases hw : r.wizards.lookup (lowerCase wname) with
  | none => exact hr
  | some wiz =>
    dsimp only
    rw [wp_bind, domain, wp_fetch]
    refine ⟨fun _ ↦ hr, fun d hd ↦ ?_⟩
    split_ifs
    · exact hr
    · rw [wp_bind, wp_setDomain _ hd]
      exact ⟨hr.sound.setMadwand "" ∅ hd (fun _ _ h ↦ h) fun _ h ↦ absurd rfl h,
        fun v ↦ (hr.placed v).setMadwand "" hd, hr.noMortal⟩

/-! #### A new name -/

/-- The domain of a wizard that has a new name. -/
def Domain.rename (d : Domain) (oldname newname : String) (rank : Rank) : Domain :=
  { d with
    members := d.members.filter (· ≠ oldname) ++ [newname]
    lord := if rank = .lord then newname else d.lord
    steward := if rank = .steward then newname else d.steward }

@[simp]
theorem Domain.holder_rename (d : Domain) (oldname newname : String) (rank : Rank) (p : Post) :
    (d.rename oldname newname rank).holder p = if rank = p.rank then newname else d.holder p := by
  cases p <;> rfl

/-- The wizard has a new name everywhere, but where it is the madwand. -/
structure Renamed (oldname newname : String) (wiz : Wizard) (r r' : Registry) : Prop where
  wizards : ∀ v, r'.wizards.lookup v =
    if v = oldname then none else if v = newname then some wiz else r.wizards.lookup v
  domains : ∀ D, r'.domains.lookup D = (r.domains.lookup D).map fun d ↦
    if D = wiz.dom then d.rename oldname newname wiz.rank else d
  trainee : ∀ v ∈ r'.trainees, v ≠ oldname ∧ (v = newname ∨ v ∈ r.trainees)
  globalRead : ∀ v ∈ r'.globalRead, v ≠ oldname ∧ (v = newname ∨ v ∈ r.globalRead)
  domCount : r'.domCount = r.domCount

section Renamed

variable {oldname newname : String}

theorem Renamed.mem_wizards (h : Renamed oldname newname wiz r r') (v : String) :
    v ∈ r'.wizards ↔ v ≠ oldname ∧ (v = newname ∨ v ∈ r.wizards) := by
  rw [mem_iff_lookup, mem_iff_lookup, h.wizards]
  by_cases hold : v = oldname
  · simp [hold]
  · by_cases hnew : v = newname
    · subst hnew
      simp [hold]
    · simp [hold, hnew]

theorem Renamed.mem_domains (h : Renamed oldname newname wiz r r') (D : String) :
    D ∈ r'.domains ↔ D ∈ r.domains := by
  rw [← AList.lookup_isSome, ← AList.lookup_isSome, h.domains, isSome_map]

theorem Renamed.lookup_domains (h : Renamed oldname newname wiz r r')
    (hd : r'.domains.lookup D = some d) :
    ∃ d₀, r.domains.lookup D = some d₀ ∧ d.num = d₀.num ∧ d.short = d₀.short ∧
      d.madwand = d₀.madwand ∧ (D = wiz.dom → d = d₀.rename oldname newname wiz.rank) ∧
      (D ≠ wiz.dom → d = d₀) := by
  rw [h.domains, map_eq_some_iff] at hd
  obtain ⟨d₀, hd₀, rfl⟩ := hd
  refine ⟨d₀, hd₀, ?_, ?_, ?_, fun hD ↦ if_pos hD, fun hD ↦ if_neg hD⟩ <;> split_ifs <;> rfl

theorem Registry.Sound.notMem_members (hs : r.Sound X) (hw : w ∉ r.wizards)
    (hd : r.domains.lookup D = some d) : w ∉ d.members := by
  rw [hs.mem_iff D d hd, notMem_iff_lookup.1 hw]
  exact nofun

theorem Renamed.sound (h : Renamed oldname newname wiz r r') (hs : r.Sound ∅)
    (hw : r.wizards.lookup oldname = some wiz) (hnew : newname ∉ r.wizards)
    (hname : lowerCase newname = newname ∧ newname ≠ "") (hmad : ¬r.IsMadwand oldname) :
    r'.Sound ∅ := by
  have hne : oldname ≠ newname := fun h ↦ hnew (h ▸ mem_iff_lookup.2 ⟨wiz, hw⟩)
  have hhome : ∀ D d, r.domains.lookup D = some d → (oldname ∈ d.members ↔ wiz.dom = D) := by
    intro D d hd
    rw [hs.mem_iff D d hd, hw, map_some, some.injEq]
  refine ⟨⟨fun v wiz' hv hdom ↦ ?_, ?_, ?_⟩, ?_, ?_, ?_, ?_, ?_, ?_, ?_,
    fun D hD ↦ hs.domName D ((h.mem_domains D).1 hD), (h.mem_domains _).2 hs.wizardDomain⟩
  · rw [h.mem_domains]
    rw [h.wizards] at hv
    split_ifs at hv
    · obtain rfl := some.inj hv
      exact hs.home oldname wiz hw hdom
    · exact hs.home v wiz' hv hdom
  · intro D d hd
    obtain ⟨d₀, hd₀, -, -, -, hself, hother⟩ := h.lookup_domains hd
    by_cases hD : D = wiz.dom
    · rw [hself hD]
      refine List.Nodup.append ((hs.nodup D d₀ hd₀).filter _) (nodup_singleton _)
        fun v hv hv' ↦ ?_
      rw [mem_singleton] at hv'
      exact hs.notMem_members hnew hd₀ (hv' ▸ (mem_filter.1 hv).1)
    · rw [hother hD]
      exact hs.nodup D d₀ hd₀
  · intro D d hd v
    obtain ⟨d₀, hd₀, -, -, -, hself, hother⟩ := h.lookup_domains hd
    rw [h.wizards]
    by_cases hD : D = wiz.dom
    · have hmem : v ∈ d.members ↔ v ∈ d₀.members ∧ v ≠ oldname ∨ v = newname := by
        rw [hself hD, Domain.rename]
        simp
      rw [hmem]
      split_ifs with hold hnew'
      · simp [hold, hne]
      · simp [hnew', hD]
      · rw [hs.mem_iff D d₀ hd₀]
        simp [hold, hnew']
    · rw [hother hD]
      split_ifs with hold hnew'
      · subst hold
        simpa [hhome D d₀ hd₀] using Ne.symm hD
      · subst hnew'
        simpa [hs.notMem_members hnew hd₀] using Ne.symm hD
      · exact hs.mem_iff D d₀ hd₀ v
  · intro D d hd _ hne'
    obtain ⟨d₀, hd₀, -, -, hmad', hself, hother⟩ := h.lookup_domains hd
    rw [hmad'] at hne' ⊢
    have hmem := hs.madwand D d₀ hd₀ (Set.notMem_empty D) hne'
    by_cases hD : D = wiz.dom
    · rw [hself hD, Domain.rename]
      have hold : d₀.madwand ≠ oldname := fun h ↦ hmad ⟨wiz, d₀, hw, hD ▸ hd₀, h⟩
      simp [hmem, hold]
    · rwa [hother hD]
  · intro D₁ D₂ d₁ d₂ hd₁ hd₂ heq
    obtain ⟨e₁, he₁, -, hshort₁, -⟩ := h.lookup_domains hd₁
    obtain ⟨e₂, he₂, -, hshort₂, -⟩ := h.lookup_domains hd₂
    exact hs.short D₁ D₂ e₁ e₂ he₁ he₂ (hshort₁ ▸ hshort₂ ▸ heq)
  · intro D₁ D₂ d₁ d₂ hd₁ hd₂ heq
    obtain ⟨e₁, he₁, hnum₁, -⟩ := h.lookup_domains hd₁
    obtain ⟨e₂, he₂, hnum₂, -⟩ := h.lookup_domains hd₂
    exact hs.num D₁ D₂ e₁ e₂ he₁ he₂ (hnum₁ ▸ hnum₂ ▸ heq)
  · exact fun v hv ↦ (h.mem_wizards v).2 ⟨(h.trainee v hv).1,
      (h.trainee v hv).2.imp_right (hs.trainee v)⟩
  · exact fun v hv ↦ (h.mem_wizards v).2 ⟨(h.globalRead v hv).1,
      (h.globalRead v hv).2.imp_right (hs.globalRead v)⟩
  · intro D d hd
    obtain ⟨d₀, hd₀, hnum, -⟩ := h.lookup_domains hd
    rw [hnum, h.domCount]
    exact hs.fresh D d₀ hd₀
  · intro v hv
    rcases ((h.mem_wizards v).1 hv).2 with rfl | hv
    · exact hname
    · exact hs.wizName v hv

theorem Renamed.placed (h : Renamed oldname newname wiz r r') (hr : r.Kept)
    (hw : r.wizards.lookup oldname = some wiz) (hnew : newname ∉ r.wizards)
    (hne' : newname ≠ "") (v : String) : r'.Placed v := by
  have hs := hr.sound
  have hne : oldname ≠ newname := fun h ↦ hnew (h ▸ mem_iff_lookup.2 ⟨wiz, hw⟩)
  have hnone := notMem_iff_lookup.1 hnew
  intro D d hd p
  obtain ⟨d₀, hd₀, -, -, -, hself, hother⟩ := h.lookup_domains hd
  have hout := hs.notMem_members hnew hd₀
  have hv := hr.placed v D d₀ hd₀ p
  have hhome : oldname ∈ d₀.members ↔ wiz.dom = D := by
    rw [hs.mem_iff D d₀ hd₀, hw, map_some, some.injEq]
  rw [h.wizards]
  by_cases hD : D = wiz.dom
  · have hmem : v ∈ d.members ↔ v ∈ d₀.members ∧ v ≠ oldname ∨ v = newname := by
      rw [hself hD, Domain.rename]
      simp
    rw [hmem, hself hD, Domain.holder_rename]
    by_cases hrank : wiz.rank = p.rank
    · -- the post was the one of the wizard
      have hheld : oldname = d₀.holder p := by
        refine ((hr.placed oldname D d₀ hd₀ p).2 ⟨hhome.2 hD.symm, ?_⟩).1
        rw [hw, map_some, hrank]
      rw [if_pos hrank]
      split_ifs with hold hnew'
      · simp [hold, hne]
      · simp [hnew', hne', hrank]
      · simp only [hnew', or_false, false_and, false_iff, not_and]
        rintro ⟨hmem', -⟩ hrank'
        exact hold ((hv.2 ⟨hmem', hrank'⟩).1.trans hheld.symm)
    · rw [if_neg hrank]
      split_ifs with hold hnew'
      · subst hold
        rw [hv, hw]
        simp [hne, hrank]
      · subst hnew'
        rw [hv]
        simp [hout, hrank]
      · rw [hv]
        simp [hold, hnew']
  · rw [hother hD]
    split_ifs with hold hnew'
    · subst hold
      rw [hv, hhome]
      simp [Ne.symm hD]
    · subst hnew'
      rw [hv]
      simp [hout]
    · exact hv

theorem Renamed.kept (h : Renamed oldname newname wiz r r') (hr : r.Kept)
    (hw : r.wizards.lookup oldname = some wiz) (hnew : newname ∉ r.wizards)
    (hname : lowerCase newname = newname ∧ newname ≠ "") (hmad : ¬r.IsMadwand oldname) :
    r'.Kept where
  sound := h.sound hr.sound hw hnew hname hmad
  placed := h.placed hr hw hnew hname.2
  noMortal v hv := by
    rw [h.wizards] at hv
    split_ifs at hv
    · simp at hv
    · exact hr.ne_mortal hw (some.inj hv)
    · exact hr.noMortal v hv

theorem mem_trainees_renamed (v : String) (h : v ∈
    if oldname ∈ r.trainees then (r.trainees.insert newname ()).erase oldname else r.trainees) :
    v ≠ oldname ∧ (v = newname ∨ v ∈ r.trainees) := by
  split_ifs at h with hold
  · rw [AList.mem_erase, AList.mem_insert] at h
    exact h
  · exact ⟨fun hv ↦ hold (hv ▸ h), .inr h⟩

theorem mem_globalRead_renamed (v : String) (h : v ∈
    match r.globalRead.lookup oldname with
    | none => r.globalRead
    | some entry => (r.globalRead.insert newname entry).erase oldname) :
    v ≠ oldname ∧ (v = newname ∨ v ∈ r.globalRead) := by
  cases hold : r.globalRead.lookup oldname with
  | none =>
    rw [hold] at h
    exact ⟨fun hv ↦ notMem_iff_lookup.2 hold (hv ▸ h), .inr h⟩
  | some entry =>
    rw [hold] at h
    exact by rwa [AList.mem_erase, AList.mem_insert] at h

/-- **`rename_wizard`.** -/
theorem wp_renameWizard {E Q : Registry → Prop} (hs : r.Sound X)
    (hw : r.wizards.lookup oldname = some wiz) (hne : oldname ≠ newname)
    (hQ : ∀ r', Renamed oldname newname wiz r r' → Q r') :
    wp E (renameWizard oldname newname) (fun _ ↦ Q) r := by
  have hwizards : ∀ v, ((r.wizards.insert newname wiz).erase oldname).lookup v =
      if v = oldname then none else if v = newname then some wiz else r.wizards.lookup v := by
    intro v
    rw [lookup_erase_ite, lookup_insert_ite]
  rw [renameWizard, wp_bind, wp_wizard hw, renameInMappings]
  simp only [wp_bind, wp_modify, hw]
  by_cases hdom : wiz.dom = ""
  · rw [if_neg (not_not.2 hdom)]
    refine hQ _ ⟨hwizards, fun D ↦ ?_, mem_trainees_renamed, mem_globalRead_renamed, rfl⟩
    by_cases hD : D = wiz.dom
    · have hout : D ∉ r.domains := fun h ↦ (hs.domName D h).2 (hD.trans hdom)
      simp [notMem_iff_lookup.1 hout]
    · simp [hD]
  · obtain ⟨d, hd⟩ := mem_iff_lookup.1 (hs.home oldname wiz hw hdom)
    have hnew : ((r.wizards.insert newname wiz).erase oldname).lookup newname = some wiz := by
      rw [hwizards, if_neg hne.symm, if_pos rfl]
    -- whatever the rank is, only the domain of the wizard has changed
    have hdomains : ∀ doms : AList fun _ : String ↦ Domain,
        (∀ D, doms.lookup D = if D = wiz.dom then some (d.rename oldname newname wiz.rank)
          else r.domains.lookup D) →
        ∀ D, doms.lookup D = (r.domains.lookup D).map fun d ↦
          if D = wiz.dom then d.rename oldname newname wiz.rank else d := by
      intro doms hdoms D
      rw [hdoms]
      by_cases hD : D = wiz.dom
      · subst hD
        simp [hd]
      · simp [hD]
    rw [if_pos hdom]
    simp only [wp_bind]
    rw [wp_setDomain _ (by exact hd), wp_wizard (by exact hnew)]
    by_cases hsteward : wiz.rank = .steward
    · rw [if_pos hsteward, wp_setDomain _ (AList.lookup_insert _)]
      refine hQ _ ⟨hwizards, hdomains _ fun D ↦ ?_, mem_trainees_renamed, mem_globalRead_renamed,
        rfl⟩
      rw [lookup_insert_ite, lookup_insert_ite]
      by_cases hD : D = wiz.dom
      · simp [hD, Domain.rename, hsteward]
      · simp [hD]
    rw [if_neg hsteward]
    by_cases hlord : wiz.rank = .lord
    · rw [if_pos hlord, wp_setDomain _ (AList.lookup_insert _)]
      refine hQ _ ⟨hwizards, hdomains _ fun D ↦ ?_, mem_trainees_renamed, mem_globalRead_renamed,
        rfl⟩
      rw [lookup_insert_ite, lookup_insert_ite]
      by_cases hD : D = wiz.dom
      · simp [hD, Domain.rename, hlord]
      · simp [hD]
    · rw [if_neg hlord]
      refine hQ _ ⟨hwizards, hdomains _ fun D ↦ ?_, mem_trainees_renamed, mem_globalRead_renamed,
        rfl⟩
      rw [lookup_insert_ite]
      by_cases hD : D = wiz.dom
      · simp [hD, Domain.rename, hsteward, hlord]
      · simp [hD]

end Renamed

theorem wp_renamePlayerfile {playerFile : String → String} {oldname newname : String}
    (hr : r.Kept) (ho : Orderly support r o (.renamePlayerfile oldname newname)) :
    wp Registry.Kept (renamePlayerfile o playerFile oldname newname) (fun _ ↦ Registry.Kept) r := by
  rw [renamePlayerfile]
  simp only [wp_bind, wp_read]
  split_ifs with hcaller hfile hrank
  · exact hr
  · exact hr
  · rw [wp_bind]
    cases hw : r.wizards.lookup oldname with
    | none =>
      rw [renameWizard, wp_bind, wp_wizard_none hw]
      exact hr
    | some wiz =>
      obtain ⟨hnew, hlow, hne, hmad⟩ := ho (mem_iff_lookup.2 ⟨wiz, hw⟩)
      refine wp_renameWizard hr.sound hw (fun h ↦ hnew (h ▸ mem_iff_lookup.2 ⟨wiz, hw⟩))
        fun r' h' ↦ h'.kept hr hw hnew ⟨hlow, hne⟩ hmad
  · exact hr

/-! #### Changes of rank -/

theorem Registry.Placed.holder_ne (h : r.Placed w) (hw : r.wizards.lookup w = some wiz)
    (hrank : ∀ post : Post, wiz.rank ≠ post.rank) (D : String) (d : Domain)
    (hd : r.domains.lookup D = some d) (p : Post) (hne : w ≠ "") : d.holder p ≠ w := by
  intro hp
  have hrank' := ((h D d hd p).1 ⟨hp.symm, hne⟩).2
  rw [hw, map_some, some.injEq] at hrank'
  exact hrank p hrank'

theorem kept_deleteMortal (hr : r.Kept) (hw : r.wizards.lookup w = some wiz)
    (hread : w ∉ r.globalRead) (h : Ranked w wiz .mortal cmder r r')
    (hmad : ∀ d, r.domains.lookup wiz.dom = some d → d.madwand ≠ w) :
    wp Registry.Kept (if wiz.dom ≠ "" then addWizardToDomain "" w cmder else pure true)
      (fun _ r'' ↦ ({ r'' with wizards := r''.wizards.erase w } : Registry).Kept) r' := by
  have hs' := (h.frame hw).sound hr.sound
  have hplaced' := h.placed hr.sound hw mortal_ne_post hr.placed
  have hread' : w ∉ r'.globalRead := (h.frame hw).globalRead ▸ hread
  have hw' := h.lookup_wizards w
  rw [if_pos rfl] at hw'
  have hmortal : ∀ v ≠ w, (r'.wizards.lookup v).map Wizard.rank ≠ some .mortal := by
    intro v hv
    rw [h.lookup_wizards, if_neg hv]
    exact hr.noMortal v
  split_ifs with hdom
  · refine wp_addWizardToDomain hs' hw' (D := "") ?_ (.inl rfl) fun r'' h'' ↦ ?_
    · rw [capitalize_empty, if_neg fun h ↦ absurd h.2 (show ¬Rank.mortal.Stays by decide)]
    have hw'' := h''.wizards w
    rw [if_pos rfl] at hw''
    have hplaced'' := h''.placed hs' hw' (.inr mortal_ne_post) hplaced'
    refine kept_erase (h''.sound hs' hw' (.inl rfl) (.inr (.inr ((h.frame hw).madwand_ne hmad))))
      (fun v _ ↦ hplaced'' v) (fun v hv ↦ ?_) (by rw [hw'']; rfl)
      ((hplaced'' w).holder_ne hw'' mortal_ne_post) (h''.unmarked hdom rfl)
      (h''.globalRead ▸ hread')
    rw [h''.map_rank hw']
    exact hmortal v hv
  · refine kept_erase hs' (fun v _ ↦ hplaced' v) hmortal ?_
      ((hplaced' w).holder_ne hw' mortal_ne_post) (h.unmarked (by decide) (by decide)) hread'
    rw [hw', map_some, not_not.1 hdom]

theorem kept_leave (hr : r.Kept) (hw : r.wizards.lookup w = some wiz) (hstays : ¬rank.Stays)
    (hrank : ∀ post : Post, rank ≠ post.rank) (hmortal : rank ≠ .mortal)
    (h : Ranked w wiz rank cmder r r')
    (hmad : ∀ d, r.domains.lookup wiz.dom = some d → d.madwand ≠ w) :
    wp Registry.Kept (if wiz.dom ≠ "" then addWizardToDomain "" w cmder else pure true)
      (fun _ ↦ Registry.Kept) r' := by
  have hw' := h.lookup_wizards w
  rw [if_pos rfl] at hw'
  have hr' := h.kept hr hw hrank hmortal
  split_ifs with hdom
  · refine hr'.wp_add hw' (D := "") ?_ (.inl rfl)
      (.inr ⟨hrank, (h.frame hw).madwand_ne hmad⟩)
    rw [capitalize_empty, if_neg fun h ↦ hstays h.2]
  · exact hr'

/-- **What is left to do after a change to a rank that goes with no post**: apprentices and
pilgrims leave their domain, and mortals are deleted. -/
theorem wp_afterChange (hr : r.Kept) (hw : r.wizards.lookup w = some wiz)
    (hrank : ∀ post : Post, rank ≠ post.rank)
    (hmad : rank = .mortal ∨ rank = .apprentice ∨ rank = .pilgrim →
      ∀ d, r.domains.lookup wiz.dom = some d → d.madwand ≠ w)
    (hread : rank = .mortal → w ∉ r.globalRead) (h : Ranked w wiz rank o.who r r') :
    wp Registry.Kept (afterChange o w wiz.dom rank) (fun _ ↦ Registry.Kept) r' := by
  have hleave : ∀ Q : Registry → Prop,
      wp Registry.Kept (if wiz.dom ≠ "" then addWizardToDomain "" w o.who else pure true)
        (fun _ ↦ Q) r' →
      wp Registry.Kept (if wiz.dom ≠ "" then do
        let _ ← addWizardToDomain "" w o.who
        pure () else pure ()) (fun _ ↦ Q) r' := by
    intro Q hQ
    split_ifs at hQ ⊢
    · rw [wp_bind]
      exact hQ
    · exact hQ
  have hkept := fun hmortal ↦ h.kept hr hw hrank hmortal
  cases rank with
  | mortal =>
    rw [afterChange, wp_bind, deleteWizard, wp_modify]
    exact hleave _ (kept_deleteMortal hr hw (hread rfl) h (hmad (.inl rfl)))
  | apprentice =>
    exact hleave _ (kept_leave hr hw (by decide) hrank (by decide) h (hmad (.inr (.inl rfl))))
  | pilgrim =>
    exact hleave _ (kept_leave hr hw (by decide) hrank (by decide) h (hmad (.inr (.inr rfl))))
  | retired => exact hkept (by decide)
  | normal => exact hkept (by decide)
  | mage => exact hkept (by decide)
  | steward => exact hkept (by decide)
  | lord => exact hkept (by decide)
  | arch => exact hkept (by decide)
  | keeper => exact hkept (by decide)

theorem wp_mayChangeRank {E : Registry → Prop} {Q : Bool → Registry → Prop} {who : String}
    {cmdwiz : Wizard} {oldRank : Rank} (hE : E r) (hQ : ∀ b, Q b r) :
    wp E (mayChangeRank who w cmdwiz oldRank rank) Q r := by
  have hwizard : ∀ f : Wizard → Master Bool, (∀ wiz, wp E (f wiz) Q r) →
      wp E (wizard w >>= f) Q r := by
    intro f hf
    rw [wp_bind, wizard, wp_fetch]
    exact ⟨fun _ ↦ hE, fun wiz _ ↦ hf wiz⟩
  rw [mayChangeRank]
  by_cases hsteward : cmdwiz.rank = .steward
  · rw [if_pos hsteward]
    refine hwizard _ fun wiz ↦ ?_
    split_ifs <;> exact hQ _
  rw [if_neg hsteward]
  by_cases hlord : cmdwiz.rank = .lord
  · rw [if_pos hlord]
    refine hwizard _ fun wiz ↦ ?_
    split_ifs <;> exact hQ _
  rw [if_neg hlord]
  split_ifs <;> exact hQ _

/-- **A wizard gets a new rank**, and what is left to do is done. -/
theorem wp_changeWizard (hr : r.Kept) (hw : r.wizards.lookup w = some wiz)
    (hmad : rank = .mortal ∨ rank = .apprentice ∨ rank = .pilgrim → ¬r.IsMadwand w)
    (hread : rank = .mortal → w ∉ r.globalRead) :
    wp Registry.Kept (doChangeRank w rank o.who) (fun _ ↦
      wp Registry.Kept (afterChange o w wiz.dom rank) fun _ ↦ Registry.Kept) r := by
  by_cases hpost : ∃ post : Post, rank = post.rank
  · obtain ⟨post, rfl⟩ := hpost
    refine wp_doChangeRank_post post hr.sound hr.placed hw (fun _ ↦ hr) fun r' hframe hplaced ↦ ?_
    have hr' : r'.Kept := by
      refine ⟨hframe.sound hr.sound, hplaced, fun v hv ↦ ?_⟩
      rcases hframe.mortal v hv with hv | hv
      · exact absurd hv.2 (mortal_ne_post post).symm
      · exact hr.noMortal v hv
    cases post
    · exact hr'
    · exact hr'
  · have hrank : ∀ post : Post, rank ≠ post.rank := fun post h ↦ hpost ⟨post, h⟩
    refine wp_doChangeRank hrank hw (fun _ _ _ ↦ hr) fun r' h ↦ ?_
    exact wp_afterChange hr hw hrank (fun h ↦ madwand_ne (hmad h) hw) hread h

/-- **A mortal becomes an apprentice.** -/
theorem wp_makeApprentice (hr : r.Kept) (hw : w ∉ r.wizards) (hname : lowerCase w = w ∧ w ≠ "") :
    wp Registry.Kept (transformMortalIntoWizard w o.who) (fun _ ↦
      wp Registry.Kept (doChangeRank w .apprentice o.who) fun _ ↦
        wp Registry.Kept (afterChange o w "" .apprentice) fun _ ↦ Registry.Kept) r := by
  rw [transformMortalIntoWizard, wp_modify]
  have hs₁ := hr.sound.insertWizard (newWizard o.who) hw hname rfl
  refine wp_doChangeRank apprentice_ne_post (AList.lookup_insert _)
    (fun p h ↦ absurd h (mortal_ne_post p)) fun r₂ h₂ ↦ ?_
  refine ⟨(h₂.frame (AList.lookup_insert _)).sound hs₁,
    h₂.placed hs₁ (AList.lookup_insert _) apprentice_ne_post fun v ↦
      (hr.placed v).insertWizard (newWizard o.who) hw mortal_ne_post, fun v hv ↦ ?_⟩
  rw [h₂.lookup_wizards] at hv
  split_ifs at hv with hvw
  · exact absurd (some.inj hv) (show Rank.apprentice ≠ .mortal by decide)
  · rw [lookup_insert_ite, if_neg hvw] at hv
    exact hr.noMortal v hv

theorem wp_wizardChangeRank {wname : String} (hr : r.Kept)
    (ho : Orderly support r o (.wizardChangeRank wname rank)) :
    wp Registry.Kept (wizardChangeRank o wname rank) (fun _ ↦ Registry.Kept) r := by
  obtain ⟨hne, hmad, hread⟩ := ho
  rw [wizardChangeRank]
  simp only [wp_bind, wp_read]
  by_cases hcaller : o.caller = WIZ_CMD_LORD
  swap
  · rw [if_pos hcaller]
    exact hr
  rw [if_neg (not_not.2 hcaller)]
  simp only [wp_bind]
  rw [wizard, wp_fetch]
  refine ⟨fun _ ↦ hr, fun cmdwiz _ ↦ wp_mayChangeRank hr fun allowed ↦ ?_⟩
  by_cases hallowed : (!allowed) = true
  · rw [if_pos hallowed]
    exact hr
  rw [if_neg hallowed]
  cases hw : r.wizards.lookup (lowerCase wname) with
  | none =>
    simp only [map_none, getD_none]
    by_cases hpossible : rank ∉ Rank.possibleChange .mortal
    · rw [if_pos hpossible]
      exact hr
    have hrank : rank = .apprentice := by simpa [Rank.possibleChange] using hpossible
    subst hrank
    rw [if_neg hpossible, if_pos trivial]
    simp only [wp_bind]
    exact wp_makeApprentice hr (notMem_iff_lookup.2 hw) ⟨lowerCase_lowerCase wname, hne⟩
  | some wiz =>
    simp only [map_some, getD_some]
    by_cases hpossible : rank ∉ wiz.rank.possibleChange
    · rw [if_pos hpossible]
      exact hr
    rw [if_neg hpossible, if_neg (hr.ne_mortal hw)]
    simp only [wp_bind]
    exact wp_changeWizard hr hw hmad hread

/-! #### A domain is removed -/

/-- What holds while the members of the domain that are on the list are still to be dismissed. -/
structure Dismissing (D madwand : String) (l : List String) (r : Registry) : Prop where
  sound : r.Sound {D}
  placed : ∀ v, r.Placed v
  noMortal : ∀ v, (r.wizards.lookup v).map Wizard.rank ≠ some .mortal
  madwand : ∃ d, r.domains.lookup D = some d ∧ d.madwand = madwand
  nodup : l.Nodup
  mem_iff : ∀ v, v ∈ l ↔ (r.wizards.lookup v).map Wizard.dom = some D

section Dismissing

variable {madwand : String} {l : List String} {E : Registry → Prop}

theorem Dismissing.wp_add (h : Dismissing D madwand (w :: l) r) (hD : D ≠ WIZARD_DOMAIN)
    (hw : r.wizards.lookup w = some wiz) (hrank : ∀ post : Post, wiz.rank ≠ post.rank) :
    wp E (addWizardToDomain "" w o.who) (fun _ ↦ Dismissing D madwand l) r := by
  have hdom : wiz.dom = D := by
    have hdom := (h.mem_iff w).1 mem_cons_self
    rwa [hw, map_some, some.injEq] at hdom
  obtain ⟨d, hd, hmadwand⟩ := h.madwand
  have hDne : D ≠ "" := (h.sound.domName D (mem_iff_lookup.2 ⟨d, hd⟩)).2
  obtain ⟨D', hD', hmem, hne⟩ : ∃ D', D' = (if capitalize "" = "" ∧ wiz.rank.Stays
      then WIZARD_DOMAIN else capitalize "") ∧ (D' = "" ∨ D' ∈ r.domains) ∧ D' ≠ D := by
    rw [capitalize_empty]
    split_ifs
    · exact ⟨WIZARD_DOMAIN, rfl, .inr h.sound.wizardDomain, hD.symm⟩
    · exact ⟨"", rfl, .inl rfl, hDne.symm⟩
  refine wp_addWizardToDomain h.sound hw hD' hmem fun r' h' ↦ ⟨?_,
    h'.placed h.sound hw (.inr hrank) h.placed, fun v ↦ ?_, ?_, (nodup_cons.1 h.nodup).2,
    fun v ↦ ?_⟩
  · exact h'.sound h.sound hw hmem (.inr (.inl hdom))
  · rw [h'.map_rank hw]
    exact h.noMortal v
  · rw [h'.domains, hd]
    exact ⟨_, rfl, hmadwand⟩
  · rw [h'.wizards]
    split_ifs with hv
    · subst hv
      simp [(nodup_cons.1 h.nodup).1, hne]
    · rw [← h.mem_iff v, mem_cons, or_iff_right hv]

theorem Dismissing.ranked (h : Dismissing D madwand l r) (h' : Ranked w wiz rank cmder r r')
    (hw : r.wizards.lookup w = some wiz) (hrank : ∀ post : Post, rank ≠ post.rank)
    (hmortal : rank ≠ .mortal) : Dismissing D madwand l r' where
  sound := (h'.frame hw).sound h.sound
  placed := h'.placed h.sound hw hrank h.placed
  noMortal v hv := by
    rcases (h'.frame hw).mortal v hv with hv | hv
    · exact hmortal hv.2
    · exact h.noMortal v hv
  madwand := by
    obtain ⟨d, hd, hmadwand⟩ := h.madwand
    obtain ⟨d', hd'⟩ := mem_iff_lookup.1
      (((h'.frame hw).mem_domains D).2 (mem_iff_lookup.2 ⟨d, hd⟩))
    obtain ⟨d₀, hd₀, -, -, -, hsame⟩ := (h'.frame hw).lookup_domains hd'
    obtain rfl := some.inj (hd.symm.trans hd₀)
    exact ⟨d', hd', hsame.trans hmadwand⟩
  nodup := h.nodup
  mem_iff v := by
    rw [(h'.frame hw).dom]
    exact h.mem_iff v

/-- **One member is dismissed.** -/
theorem wp_dismiss (hD : D ≠ WIZARD_DOMAIN) (h : Dismissing D madwand (w :: l) r) :
    wp E (dismiss o w) (fun _ ↦ Dismissing D madwand l) r := by
  obtain ⟨wiz, hw, hdom⟩ := map_eq_some_iff.1 ((h.mem_iff w).1 mem_cons_self)
  obtain ⟨d, hd, -⟩ := h.madwand
  rw [dismiss, wp_bind, wp_wizard hw]
  split_ifs with hrank
  · have hpost : ∀ post : Post, wiz.rank ≠ post.rank := by
      intro post
      rcases hrank with hrank | hrank | hrank <;> rw [hrank] <;> cases post <;> decide
    rw [wp_bind]
    exact h.wp_add hD hw hpost
  · simp only [wp_bind]
    refine wp_doChangeRank apprentice_ne_post hw (fun _ _ hout ↦ ?_) fun r₁ h₁ ↦ ?_
    · exact absurd (hdom ▸ mem_iff_lookup.2 ⟨d, hd⟩) hout
    · have hw₁ := h₁.lookup_wizards w
      rw [if_pos rfl] at hw₁
      exact (h.ranked h₁ hw apprentice_ne_post (by decide)).wp_add hD hw₁ apprentice_ne_post

theorem Dismissing.kept_erase (h : Dismissing D madwand [] r) (hD : D ≠ WIZARD_DOMAIN) :
    ({ r with domains := r.domains.erase D } : Registry).Kept := by
  have hs := h.sound
  have hlookup : ∀ D' d', (r.domains.erase D).lookup D' = some d' →
      D' ≠ D ∧ r.domains.lookup D' = some d' := by
    intro D' d' hd'
    rw [lookup_erase_ite] at hd'
    split_ifs at hd' with hD'
    exact ⟨hD', hd'⟩
  refine ⟨⟨⟨fun v wiz hv hne ↦ ?_, fun D' d' hd' ↦ hs.nodup D' d' (hlookup D' d' hd').2,
    fun D' d' hd' ↦ hs.mem_iff D' d' (hlookup D' d' hd').2⟩, ?_, ?_, ?_, hs.trainee,
    hs.globalRead, fun D' d' hd' ↦ hs.fresh D' d' (hlookup D' d' hd').2, hs.wizName,
    fun D' hD' ↦ hs.domName D' (AList.mem_erase.1 hD').2,
    AList.mem_erase.2 ⟨hD.symm, hs.wizardDomain⟩⟩,
    fun v D' d' hd' ↦ h.placed v D' d' (hlookup D' d' hd').2, h.noMortal⟩
  · refine AList.mem_erase.2 ⟨fun hdom ↦ ?_, hs.home v wiz hv hne⟩
    refine absurd ((h.mem_iff v).2 ?_) not_mem_nil
    rw [hv, map_some, hdom]
  · intro D' d' hd' _ hne
    exact hs.madwand D' d' (hlookup D' d' hd').2 (hlookup D' d' hd').1 hne
  · exact fun D₁ D₂ d₁ d₂ h₁ h₂ ↦ hs.short D₁ D₂ d₁ d₂ (hlookup D₁ d₁ h₁).2 (hlookup D₂ d₂ h₂).2
  · exact fun D₁ D₂ d₁ d₂ h₁ h₂ ↦ hs.num D₁ D₂ d₁ d₂ (hlookup D₁ d₁ h₁).2 (hlookup D₂ d₂ h₂).2

theorem wp_removeDomain (hr : r.Kept) (ho : Orderly support r o (.removeDomain dname)) :
    wp Registry.Kept (removeDomain o dname) (fun _ ↦ Registry.Kept) r := by
  rw [removeDomain]
  simp only [wp_bind, wp_read]
  by_cases hcaller : o.caller = WIZ_CMD_ARCH
  swap
  · rw [if_pos hcaller]
    exact hr
  rw [if_neg (not_not.2 hcaller)]
  cases hd : r.domains.lookup (capitalize dname) with
  | none => exact hr
  | some d =>
    dsimp only
    by_cases hD : capitalize dname = WIZARD_DOMAIN
    · rw [if_pos hD]
      exact hr
    rw [if_neg hD]
    by_cases hsize : o.fileSize (DISCARD_DOMAIN_DIR ++ "/" ++ capitalize dname) ≠ -1
    · rw [if_pos hsize]
      exact hr
    rw [if_neg hsize]
    simp only [wp_bind]
    have hstart : Dismissing (capitalize dname) d.madwand d.members r :=
      ⟨hr.sound.mono (Set.empty_subset _), hr.placed, hr.noMortal, ⟨d, hd, rfl⟩,
        hr.sound.nodup _ d hd, hr.sound.mem_iff _ d hd⟩
    refine wp_mono (wp_forM (I := Dismissing (capitalize dname) d.madwand)
      (fun w l s h ↦ wp_dismiss hD h) d.members r hstart) fun _ r' h ↦ ?_
    split_ifs with hrename
    · -- the directory could not be moved: the domain stays, without members
      have hmad : d.madwand = "" := by
        rcases ho with ho | ho
        · simp [ho] at hrename
        · exact ho d hd
      refine ⟨h.sound.of_singleton fun d' hd' hne ↦ ?_, h.placed, h.noMortal⟩
      obtain ⟨d₁, hd₁, hmad₁⟩ := h.madwand
      obtain rfl := some.inj (hd₁.symm.trans hd')
      exact absurd (hmad₁.trans hmad) hne
    · rw [wp_bind, wp_modify]
      exact h.kept_erase hD

end Dismissing

theorem wp_refused {playerFile : String → String} {q : Request} (hr : r.Kept)
    (h : Refused r o q) :
    wp Registry.Kept (q.run support o playerFile) (fun _ ↦ Registry.Kept) r := by
  cases q with
  | makeDomain dname sname wname =>
    rw [Request.run, makeDomain, wp_bind, wp_read]
    rw [Refused] at h
    -- a guard that refuses has changed nothing
    split_ifs <;> first | exact hr | exact absurd h (by tauto)
  | removeDomain dname =>
    rw [Request.run, removeDomain, wp_bind, wp_read]
    rw [Refused] at h
    cases hd : r.domains.lookup (capitalize dname) with
    | none => split_ifs <;> exact hr
    | some d =>
      rw [hd] at h
      dsimp only
      split_ifs <;> first | exact hr | exact absurd h (by simp_all)
  | draftWizardToDomain dname wname =>
    rw [Request.run, draftWizardToDomain, wp_bind, wp_read]
    rw [Refused] at h
    cases hd : r.domains.lookup (capitalize dname) with
    | none => split_ifs <;> exact hr
    | some d =>
      rw [hd] at h
      by_cases hcaller : o.caller = WIZ_CMD_ARCH
      swap
      · rw [if_pos hcaller]
        exact hr
      obtain ⟨wiz, hw, hguards⟩ := (h.resolve_left (not_not.2 hcaller)).resolve_left (by rintro ⟨⟩)
      rw [if_neg (not_not.2 hcaller), hw]
      dsimp only
      split_ifs <;> first | exact hr | exact absurd hguards (by tauto)
  | expelWizardFromDomain wname =>
    rw [Request.run, expelWizardFromDomain]
    simp only [wp_bind, wp_read]
    by_cases hcaller : o.caller = WIZ_CMD_LORD
    swap
    · rw [if_pos hcaller]
      exact hr
    obtain ⟨wiz, cmder, hw, hcmder, hother⟩ := h.resolve_left (not_not.2 hcaller)
    rw [if_neg (not_not.2 hcaller), hw]
    dsimp only
    by_cases hempty : lowerCase wname = ""
    · rw [if_pos hempty]
      exact hr
    rw [if_neg hempty]
    by_cases hdom : wiz.dom = ""
    · rw [if_pos hdom]
      exact hr
    rw [if_neg hdom, wp_bind, wp_wizard hcmder, if_pos hother]
    exact hr
  | leaveDomain =>
    have hcaller : o.caller ≠ WIZ_CMD_NORMAL := h
    rw [Request.run, leaveDomain, if_pos hcaller]
    exact hr
  | madwandToWizard wname => exact wp_madwandToWizard hr
  | renamePlayerfile oldname newname =>
    rw [Request.run, renamePlayerfile, wp_bind, wp_read]
    rw [Refused] at h
    split_ifs with hcaller _ hrank
    · exact hr
    · exact hr
    · exact absurd h (by tauto)
    · exact hr
  | wizardChangeRank wname rank =>
    rw [Request.run, wizardChangeRank]
    simp only [wp_bind, wp_read]
    by_cases hcaller : o.caller = WIZ_CMD_LORD
    swap
    · rw [if_pos hcaller]
      exact hr
    rw [if_neg (not_not.2 hcaller), wp_bind, wizard, wp_fetch]
    refine ⟨fun _ ↦ hr, fun cmder _ ↦ ?_⟩
    rw [wp_bind]
    refine wp_mayChangeRank hr fun allowed ↦ ?_
    rw [if_pos (h.resolve_left (not_not.2 hcaller))]
    split <;> exact hr

/-- **One request.** An orderly request leaves a consistent registry, whether or not it is cut
short. -/
theorem wp_run {playerFile : String → String} {q : Request} (hr : r.Kept)
    (ho : Orderly support r o q) :
    wp Registry.Kept (q.run support o playerFile) (fun _ ↦ Registry.Kept) r := by
  cases q with
  | makeDomain dname sname wname => exact wp_makeDomain hr ho
  | removeDomain dname => exact wp_removeDomain hr ho
  | draftWizardToDomain dname wname => exact wp_draftWizardToDomain hr ho
  | expelWizardFromDomain wname => exact wp_expelWizardFromDomain hr ho
  | leaveDomain => exact wp_leaveDomain hr ho
  | madwandToWizard wname => exact wp_madwandToWizard hr
  | renamePlayerfile oldname newname => exact wp_renamePlayerfile hr ho
  | wizardChangeRank wname rank => exact wp_wizardChangeRank hr ho

end Requests

/-! ### Runs -/

/-- Requests are made one after the other, to a registry that is consistent at first. -/
def requests (support : Bool) (playerFile : String → String) :
    TransitionSystem Registry (Outside × Request) where
  Init r := r.Consistent ∧ r.Tidy
  Step r a r' := r' = (a.2.run support a.1 playerFile r).2

/-- **The registry is consistent** after every run of requests that are refused or orderly,
including those that fail or are cut short. -/
theorem registry_consistent (support : Bool) (playerFile : String → String) (r : Registry)
    (h : (requests support playerFile).ReachableVia
      (fun r a ↦ Refused r a.1 a.2 ∨ Orderly support r a.1 a.2) r) :
    r.Consistent := by
  have hkept : r.Kept := by
    refine h.invariant (I := Registry.Kept) (fun r hinit ↦ Registry.kept_iff.2 hinit)
      fun r a r' hr ho hstep ↦ ?_
    obtain rfl : r' = (a.2.run support a.1 playerFile r).2 := hstep
    exact of_wp (ho.elim (wp_refused hr) (wp_run hr))
  exact (Registry.kept_iff.1 hkept).1

/-- A registry with the domain of wizards, a keeper in it, and an apprentice. -/
def smallRegistry : Registry where
  domCount := 1
  domains := AList.insert "Wiz" ⟨0, "wiz", "", "", ["root"], "", DOMAIN_MAX⟩ ∅
  wizards := AList.insert "root" ⟨.keeper, 50, "root", "Wiz", "root"⟩
    (AList.insert "bob" ⟨.apprentice, 1, "root", "", "root"⟩ ∅)
  trainees := ∅
  globalRead := ∅

/-- The keeper gives a command of the arches, and directories of domains are there. -/
def keeperCommand : Outside where
  caller := WIZ_CMD_ARCH
  who := "root"
  fileSize _ := -2
  rename _ _ := true
  mkdir _ := true
  findPlayer _ := false

theorem lookup_smallRegistry (h : smallRegistry.domains.lookup D = some d) :
    D = "Wiz" ∧ d = ⟨0, "wiz", "", "", ["root"], "", DOMAIN_MAX⟩ := by
  rw [smallRegistry, lookup_insert_ite] at h
  split_ifs at h with hD
  · exact ⟨hD, (some.inj h).symm⟩
  · cases h

theorem lookup_smallRegistry_wizards (v : String) : smallRegistry.wizards.lookup v =
    if v = "root" then some ⟨.keeper, 50, "root", "Wiz", "root"⟩
    else if v = "bob" then some ⟨.apprentice, 1, "root", "", "root"⟩ else none := by
  rw [smallRegistry, lookup_insert_ite, lookup_insert_ite]
  rfl

theorem smallRegistry_consistent : smallRegistry.Consistent ∧ smallRegistry.Tidy := by
  have hwiz : WIZARD_DOMAIN ∈ smallRegistry.domains := by decide
  refine ⟨⟨⟨fun v wiz hv hne ↦ ?_, fun D d hd ↦ ?_, fun D d hd v ↦ ?_⟩, fun v D d hd p ↦ ?_,
    fun D d hd hne ↦ ?_, fun D D' d d' hd hd' _ ↦ ?_, fun D D' d d' hd hd' _ ↦ ?_,
    fun v hv ↦ absurd hv not_mem_nil, fun v hv ↦ absurd hv not_mem_nil⟩,
    ⟨fun D d hd ↦ ?_, fun v hv ↦ ?_, fun D hD ↦ ?_, hwiz, fun v ↦ ?_⟩⟩
  · rw [lookup_smallRegistry_wizards] at hv
    split_ifs at hv
    · obtain rfl := some.inj hv
      exact hwiz
    · obtain rfl := some.inj hv
      exact absurd rfl hne
  · obtain ⟨rfl, rfl⟩ := lookup_smallRegistry hd
    exact nodup_singleton "root"
  · obtain ⟨rfl, rfl⟩ := lookup_smallRegistry hd
    rw [lookup_smallRegistry_wizards]
    split_ifs with h₁ h₂ <;> simp_all
  · obtain ⟨rfl, rfl⟩ := lookup_smallRegistry hd
    rw [lookup_smallRegistry_wizards]
    cases p <;> split_ifs with h₁ h₂ <;> simp_all [Domain.holder, Post.rank]
  · obtain ⟨rfl, rfl⟩ := lookup_smallRegistry hd
    exact absurd rfl hne
  · rw [(lookup_smallRegistry hd).1, (lookup_smallRegistry hd').1]
  · rw [(lookup_smallRegistry hd).1, (lookup_smallRegistry hd').1]
  · obtain ⟨rfl, rfl⟩ := lookup_smallRegistry hd
    decide
  · obtain ⟨wiz, hv⟩ := mem_iff_lookup.1 hv
    rw [lookup_smallRegistry_wizards] at hv
    split_ifs at hv with h₁ h₂
    · exact h₁ ▸ by decide
    · exact h₂ ▸ by decide
  · obtain ⟨d, hd⟩ := mem_iff_lookup.1 hD
    exact (lookup_smallRegistry hd).1 ▸ by decide
  · rw [lookup_smallRegistry_wizards]
    split_ifs <;> simp

/-- The apprentice gets a domain of its own, and does not get the domain of the wizards after
that. -/
theorem registry_consistent_newDomain :
    ((Request.makeDomain "Wiz" "wiz" "bob").run true keeperCommand id
      ((Request.makeDomain "Foo" "foo" "bob").run true keeperCommand id
        smallRegistry).2).2.Consistent :=
  registry_consistent true id _ <|
    .step (a := (keeperCommand, .makeDomain "Wiz" "wiz" "bob"))
      (.step (a := (keeperCommand, .makeDomain "Foo" "foo" "bob")) (.init smallRegistry_consistent)
        (.inr ⟨by decide, by decide, fun D d hd ↦ (lookup_smallRegistry hd).2 ▸ by decide,
          fun ⟨_, _, _, hd, hmad⟩ ↦ by
            rw [(lookup_smallRegistry hd).2] at hmad
            exact absurd hmad (by decide)⟩)
        rfl)
      (.inl (.inr (.inl (by decide)))) rfl

/-- **A domain gets a short name that is in use**: there is a message, but no return. -/
theorem not_registry_consistent :
    ¬∀ (support : Bool) (playerFile : String → String) (r : Registry),
      (requests support playerFile).Reachable r → r.Consistent := by
  intro hall
  have hstart : (requests true id).Reachable smallRegistry := .init smallRegistry_consistent
  have hc := hall true id _
    (hstart.step (a := (keeperCommand, .makeDomain "Foo" "wiz" "bob")) rfl)
  have hfoo : ∃ d, (makeDomain keeperCommand "Foo" "wiz" "bob" smallRegistry).2.domains.lookup
      "Foo" = some d ∧ d.short = "wiz" := ⟨⟨1, "wiz", "bob", "", ["bob"], "", DOMAIN_MAX⟩, rfl, rfl⟩
  have hwiz : ∃ d, (makeDomain keeperCommand "Foo" "wiz" "bob" smallRegistry).2.domains.lookup
      "Wiz" = some d ∧ d.short = "wiz" := ⟨⟨0, "wiz", "", "", ["root"], "", DOMAIN_MAX⟩, rfl, rfl⟩
  obtain ⟨d, hd, hshort⟩ := hfoo
  obtain ⟨d', hd', hshort'⟩ := hwiz
  exact absurd (hc.short "Foo" "Wiz" d d' hd hd' (hshort.trans hshort'.symm)) (by decide)

end Lpmud.Secure
