import Lpmud.Secure.Requests
import Mathlib.Data.Set.Basic

/-!
# A consistent registry

What the mappings of the master object say about one another (`Registry.Consistent`), and how the
two functions that do the work, `do_change_rank` and `add_wizard_to_domain`, treat it.

Between two statements of a request some of it does not hold. What a change of rank upsets is the
posts of *one* wizard, so that part is stated wizard by wizard (`Registry.Placed`); what else can be
upset is the madwand of *one* domain, so the rest is stated up to a set of domains whose madwand is
not looked at (`Registry.Sound`).
-/

namespace Lpmud.Secure

open Option Abortable

/-! ### What is kept in the mappings -/

namespace Registry

variable (r : Registry)

/-- **The posts of a wizard.** It has a post of a domain exactly when it is a member of the domain
and of the rank that goes with the post. -/
def Placed (w : String) : Prop :=
  ∀ D d, r.domains.lookup D = some d → ∀ post : Post,
    (w = d.holder post ∧ w ≠ "") ↔
      w ∈ d.members ∧ (r.wizards.lookup w).map Wizard.rank = some post.rank

/-- **The lists of members and the domains of the wizards say the same**, and a list names each
member once. -/
structure Housed : Prop where
  home : ∀ w wiz, r.wizards.lookup w = some wiz → wiz.dom ≠ "" → wiz.dom ∈ r.domains
  nodup : ∀ D d, r.domains.lookup D = some d → d.members.Nodup
  mem_iff : ∀ D d, r.domains.lookup D = some d → ∀ w,
    w ∈ d.members ↔ (r.wizards.lookup w).map Wizard.dom = some D

/-- **The registry is consistent.** -/
structure Consistent : Prop extends Housed r where
  placed : ∀ w, r.Placed w
  madwand : ∀ D d, r.domains.lookup D = some d → d.madwand ≠ "" → d.madwand ∈ d.members
  short : ∀ D D' d d', r.domains.lookup D = some d → r.domains.lookup D' = some d' →
    d.short = d'.short → D = D'
  num : ∀ D D' d d', r.domains.lookup D = some d → r.domains.lookup D' = some d' →
    d.num = d'.num → D = D'
  trainee : ∀ w ∈ r.trainees, w ∈ r.wizards
  globalRead : ∀ w ∈ r.globalRead, w ∈ r.wizards

/-- The registry is written the way the master object writes it: the numbers that have been given
are below the next one, names of wizards are in lower case and those of domains are capitalised,
there is a domain for wizards that have no other, and mortals are not in it. -/
structure Tidy : Prop where
  fresh : ∀ D d, r.domains.lookup D = some d → d.num < r.domCount
  wizName : ∀ w ∈ r.wizards, lowerCase w = w ∧ w ≠ ""
  domName : ∀ D ∈ r.domains, capitalize D = D ∧ D ≠ ""
  wizardDomain : WIZARD_DOMAIN ∈ r.domains
  noMortal : ∀ w, (r.wizards.lookup w).map Wizard.rank ≠ some .mortal

/-- What does not depend on ranks and posts, up to the madwands of the domains in `X`. -/
structure Sound (X : Set String) : Prop extends Housed r where
  madwand : ∀ D d, r.domains.lookup D = some d → D ∉ X → d.madwand ≠ "" → d.madwand ∈ d.members
  short : ∀ D D' d d', r.domains.lookup D = some d → r.domains.lookup D' = some d' →
    d.short = d'.short → D = D'
  num : ∀ D D' d d', r.domains.lookup D = some d → r.domains.lookup D' = some d' →
    d.num = d'.num → D = D'
  trainee : ∀ w ∈ r.trainees, w ∈ r.wizards
  globalRead : ∀ w ∈ r.globalRead, w ∈ r.wizards
  fresh : ∀ D d, r.domains.lookup D = some d → d.num < r.domCount
  wizName : ∀ w ∈ r.wizards, lowerCase w = w ∧ w ≠ ""
  domName : ∀ D ∈ r.domains, capitalize D = D ∧ D ≠ ""
  wizardDomain : WIZARD_DOMAIN ∈ r.domains

/-- **The invariant.** -/
structure Kept : Prop where
  sound : r.Sound ∅
  placed : ∀ w, r.Placed w
  noMortal : ∀ w, (r.wizards.lookup w).map Wizard.rank ≠ some .mortal

variable {r}

theorem kept_iff : r.Kept ↔ r.Consistent ∧ r.Tidy := by
  constructor
  · rintro ⟨hs, hplaced, hmortal⟩
    exact ⟨⟨hs.toHoused, hplaced, fun D d hd ↦ hs.madwand D d hd (Set.notMem_empty D), hs.short,
      hs.num, hs.trainee, hs.globalRead⟩,
      ⟨hs.fresh, hs.wizName, hs.domName, hs.wizardDomain, hmortal⟩⟩
  · rintro ⟨hc, ht⟩
    exact ⟨⟨hc.toHoused, fun D d hd _ ↦ hc.madwand D d hd, hc.short, hc.num, hc.trainee,
      hc.globalRead, ht.fresh, ht.wizName, ht.domName, ht.wizardDomain⟩, hc.placed, ht.noMortal⟩

end Registry

variable {r r' r₁ r₂ : Registry} {w v x D : String} {wiz : Wizard} {d : Domain} {rank : Rank}
  {post : Post} {cmder : String} {X : Set String}

/-! ### Lookups -/

theorem lookup_insert_ite {β : Type} (s : AList fun _ : String ↦ β) (a : String) (b : β)
    (v : String) : (s.insert a b).lookup v = if v = a then some b else s.lookup v := by
  split_ifs with h
  · rw [h, AList.lookup_insert]
  · exact AList.lookup_insert_ne h

theorem lookup_erase_ite {β : Type} (s : AList fun _ : String ↦ β) (a v : String) :
    (s.erase a).lookup v = if v = a then none else s.lookup v := by
  split_ifs with h
  · rw [h, AList.lookup_erase]
  · exact AList.lookup_erase_ne h

theorem mem_iff_lookup {β : Type} {s : AList fun _ : String ↦ β} :
    v ∈ s ↔ ∃ b, s.lookup v = some b := by
  rw [← AList.lookup_isSome, isSome_iff_exists]

theorem notMem_iff_lookup {β : Type} {s : AList fun _ : String ↦ β} :
    v ∉ s ↔ s.lookup v = none := by
  rw [AList.lookup_eq_none]

@[simp]
theorem Domain.holder_setHolder (d : Domain) (w : String) (post p : Post) :
    (d.setHolder w post).holder p = if p = post then w else d.holder p := by
  cases post <;> cases p <;> rfl

@[simp]
theorem Domain.members_setHolder (d : Domain) (w : String) (post : Post) :
    (d.setHolder w post).members = d.members := by
  cases post <;> rfl

theorem Post.rank_injective : Function.Injective Post.rank := by
  intro p q h
  cases p <;> cases q <;> first | rfl | cases h

/-! ### Statements -/

section Statements

variable {E : Registry → Prop}

theorem wp_wizard {Q : Wizard → Registry → Prop} (h : r.wizards.lookup w = some wiz) :
    wp E (wizard w) Q r ↔ Q wiz r :=
  wp_fetch_some h

theorem wp_wizard_none {Q : Wizard → Registry → Prop} (h : r.wizards.lookup w = none) :
    wp E (wizard w) Q r ↔ E r :=
  wp_fetch_none h

theorem wp_domain {Q : Domain → Registry → Prop} (h : r.domains.lookup D = some d) :
    wp E (domain D) Q r ↔ Q d r :=
  wp_fetch_some h

theorem wp_domain_none {Q : Domain → Registry → Prop} (h : r.domains.lookup D = none) :
    wp E (domain D) Q r ↔ E r :=
  wp_fetch_none h

theorem wp_setWizard {Q : Unit → Registry → Prop} (f : Wizard → Wizard)
    (h : r.wizards.lookup w = some wiz) :
    wp E (setWizard w f) Q r ↔ Q () { r with wizards := r.wizards.insert w (f wiz) } := by
  rw [setWizard, wp_bind, wp_wizard h, wp_modify]

theorem wp_setDomain {Q : Unit → Registry → Prop} (f : Domain → Domain)
    (h : r.domains.lookup D = some d) :
    wp E (setDomain D f) Q r ↔ Q () { r with domains := r.domains.insert D (f d) } := by
  rw [setDomain, wp_bind, wp_domain h, wp_modify]

end Statements

/-! ### A change of rank -/

/-- What a change of rank does not touch of a domain. -/
def Domain.core (d : Domain) : Domain :=
  { d with lord := "", steward := "" }

@[simp]
theorem Domain.core_setHolder (d : Domain) (w : String) (post : Post) :
    (d.setHolder w post).core = d.core := by
  cases post <;> rfl

/-- The posts of a domain are vacant that a wizard of the rank had. -/
def Domain.vacate (d : Domain) (rank : Rank) : Domain :=
  { d with
    lord := if rank = .lord then "" else d.lord
    steward := if rank = .steward then "" else d.steward }

@[simp]
theorem Domain.core_vacate (d : Domain) (rank : Rank) : (d.vacate rank).core = d.core :=
  rfl

@[simp]
theorem Domain.holder_vacate (d : Domain) (rank : Rank) (p : Post) :
    (d.vacate rank).holder p = if rank = p.rank then "" else d.holder p := by
  cases p <;> rfl

@[simp]
theorem Domain.members_vacate (d : Domain) (rank : Rank) : (d.vacate rank).members = d.members :=
  rfl

theorem Domain.vacate_of_ne (d : Domain) (h : ∀ post : Post, rank ≠ post.rank) :
    d.vacate rank = d := by
  have hlord : rank ≠ .lord := h .lord
  have hsteward : rank ≠ .steward := h .steward
  simp [Domain.vacate, hlord, hsteward]

/-- What changes of ranks do not touch; they make nobody a mortal but `w`, and him only when
`rank` says so. -/
structure Frame (w : String) (rank : Rank) (r r' : Registry) : Prop where
  dom : ∀ v, (r'.wizards.lookup v).map Wizard.dom = (r.wizards.lookup v).map Wizard.dom
  core : ∀ D, (r'.domains.lookup D).map Domain.core = (r.domains.lookup D).map Domain.core
  mortal : ∀ v, (r'.wizards.lookup v).map Wizard.rank = some .mortal →
    v = w ∧ rank = .mortal ∨ (r.wizards.lookup v).map Wizard.rank = some .mortal
  trainee : ∀ v ∈ r'.trainees, v ∈ r.trainees ∨ v ∈ r.wizards
  globalRead : r'.globalRead = r.globalRead
  domCount : r'.domCount = r.domCount

namespace Frame

theorem mem_wizards (h : Frame w rank r r') (v : String) : v ∈ r'.wizards ↔ v ∈ r.wizards := by
  have hdom := congrArg Option.isSome (h.dom v)
  rw [isSome_map, isSome_map] at hdom
  rw [← AList.lookup_isSome, ← AList.lookup_isSome, hdom]

theorem mem_domains (h : Frame w rank r r') (D : String) : D ∈ r'.domains ↔ D ∈ r.domains := by
  have hcore := congrArg Option.isSome (h.core D)
  rw [isSome_map, isSome_map] at hcore
  rw [← AList.lookup_isSome, ← AList.lookup_isSome, hcore]

theorem lookup_domains (h : Frame w rank r r') (hd : r'.domains.lookup D = some d) :
    ∃ d₀, r.domains.lookup D = some d₀ ∧ d.num = d₀.num ∧ d.short = d₀.short ∧
      d.members = d₀.members ∧ d.madwand = d₀.madwand := by
  have hcore := h.core D
  rw [hd, map_some, eq_comm, map_eq_some_iff] at hcore
  obtain ⟨d₀, hd₀, hcore⟩ := hcore
  refine ⟨d₀, hd₀, ?_⟩
  simp only [Domain.core, Domain.mk.injEq] at hcore
  exact ⟨hcore.1.symm, hcore.2.1.symm, hcore.2.2.2.2.1.symm, hcore.2.2.2.2.2.1.symm⟩

/-- **What does not depend on ranks and posts is kept.** -/
theorem sound (h : Frame w rank r r') (hs : r.Sound X) : r'.Sound X where
  home v wiz hv hne := by
    have hdom := h.dom v
    rw [hv, map_some, eq_comm, map_eq_some_iff] at hdom
    obtain ⟨wiz₀, hv₀, hdom⟩ := hdom
    rw [← hdom, h.mem_domains]
    exact hs.home v wiz₀ hv₀ (hdom ▸ hne)
  nodup D d hd := by
    obtain ⟨d₀, hd₀, -, -, hmembers, -⟩ := h.lookup_domains hd
    exact hmembers ▸ hs.nodup D d₀ hd₀
  mem_iff D d hd v := by
    obtain ⟨d₀, hd₀, -, -, hmembers, -⟩ := h.lookup_domains hd
    rw [hmembers, h.dom]
    exact hs.mem_iff D d₀ hd₀ v
  madwand D d hd hD hne := by
    obtain ⟨d₀, hd₀, -, -, hmembers, hmadwand⟩ := h.lookup_domains hd
    rw [hmembers, hmadwand]
    exact hs.madwand D d₀ hd₀ hD (hmadwand ▸ hne)
  short D D' d d' hd hd' heq := by
    obtain ⟨d₀, hd₀, -, hshort, -⟩ := h.lookup_domains hd
    obtain ⟨d₀', hd₀', -, hshort', -⟩ := h.lookup_domains hd'
    exact hs.short D D' d₀ d₀' hd₀ hd₀' (hshort ▸ hshort' ▸ heq)
  num D D' d d' hd hd' heq := by
    obtain ⟨d₀, hd₀, hnum, -⟩ := h.lookup_domains hd
    obtain ⟨d₀', hd₀', hnum', -⟩ := h.lookup_domains hd'
    exact hs.num D D' d₀ d₀' hd₀ hd₀' (hnum ▸ hnum' ▸ heq)
  trainee v hv := by
    rw [h.mem_wizards]
    exact (h.trainee v hv).elim (hs.trainee v) id
  globalRead v hv := by
    rw [h.globalRead] at hv
    rw [h.mem_wizards]
    exact hs.globalRead v hv
  fresh D d hd := by
    obtain ⟨d₀, hd₀, hnum, -⟩ := h.lookup_domains hd
    rw [hnum, h.domCount]
    exact hs.fresh D d₀ hd₀
  wizName v hv := hs.wizName v ((h.mem_wizards v).1 hv)
  domName D hD := hs.domName D ((h.mem_domains D).1 hD)
  wizardDomain := (h.mem_domains _).2 hs.wizardDomain

theorem trans (h₁ : Frame w rank r r₁) (h₂ : Frame w rank r₁ r₂) : Frame w rank r r₂ where
  dom v := (h₂.dom v).trans (h₁.dom v)
  core D := (h₂.core D).trans (h₁.core D)
  mortal v hv := (h₂.mortal v hv).elim .inl (h₁.mortal v)
  trainee v hv := by
    rcases h₂.trainee v hv with hv | hv
    · exact h₁.trainee v hv
    · exact .inr ((h₁.mem_wizards v).1 hv)
  globalRead := h₂.globalRead.trans h₁.globalRead
  domCount := h₂.domCount.trans h₁.domCount

theorem refl : Frame w rank r r :=
  ⟨fun _ ↦ rfl, fun _ ↦ rfl, fun _ ↦ .inr, fun _ ↦ .inl, rfl, rfl⟩

theorem of_ne_mortal {rank' : Rank} (h : Frame x rank r r') (hrank : rank ≠ .mortal) :
    Frame w rank' r r' where
  __ := h
  mortal v hv := .inr ((h.mortal v hv).resolve_left fun hv ↦ hrank hv.2)

end Frame

theorem frame_insert {d' : Domain} (hd : r.domains.lookup D = some d) (hcore : d'.core = d.core) :
    Frame w rank r { r with domains := r.domains.insert D d' } where
  dom _ := rfl
  core D' := by
    rw [lookup_insert_ite]
    split_ifs with hD
    · rw [hD, hd, map_some, map_some, hcore]
    · rfl
  mortal _ := .inr
  trainee _ := .inl
  globalRead := rfl
  domCount := rfl

/-- The wizard has given up its post. -/
structure Vacated (wiz : Wizard) (r r' : Registry) : Prop where
  wizards : r'.wizards = r.wizards
  domains : ∀ D, r'.domains.lookup D =
    (r.domains.lookup D).map fun d ↦ if D = wiz.dom then d.vacate wiz.rank else d
  trainees : r'.trainees = r.trainees
  globalRead : r'.globalRead = r.globalRead
  domCount : r'.domCount = r.domCount
  same : wiz.dom ∉ r.domains → r' = r

theorem Vacated.refl (h : ∀ post : Post, wiz.rank ≠ post.rank) : Vacated wiz r r where
  wizards := rfl
  domains D := by simp [Domain.vacate_of_ne _ h]
  trainees := rfl
  globalRead := rfl
  domCount := rfl
  same _ := rfl

theorem vacated_insert (hd : r.domains.lookup wiz.dom = some d) (hrank : wiz.rank = post.rank) :
    Vacated wiz r { r with domains := r.domains.insert wiz.dom (d.setHolder "" post) } where
  wizards := rfl
  domains D := by
    rw [lookup_insert_ite]
    split_ifs with hD
    · subst hD
      rw [hd, hrank]
      cases post <;> rfl
    · simp
  trainees := rfl
  globalRead := rfl
  domCount := rfl
  same h := by
    rw [notMem_iff_lookup, hd] at h
    exact absurd h (some_ne_none d)

section Steps

variable {E Q : Registry → Prop}

/-- **Both posts are looked at, and at most one was the wizard's.** An error strikes only a wizard
with a post whose domain is missing, before anything has changed. -/
theorem wp_stepDowns (hw : r.wizards.lookup w = some wiz)
    (hE : ∀ post : Post, wiz.rank = post.rank → wiz.dom ∉ r.domains → E r)
    (hQ : ∀ r₁, Vacated wiz r r₁ → Q r₁) :
    wp E (stepDown .lord w) (fun _ ↦ wp E (stepDown .steward w) fun _ ↦ Q) r := by
  have hstep : ∀ (post : Post) {Q' : Registry → Prop}, wiz.rank = post.rank →
      (∀ r₁, Vacated wiz r r₁ → Q' r₁) → wp E (stepDown post w) (fun _ ↦ Q') r := by
    intro post Q' hrank hQ'
    rw [stepDown, wp_bind, wp_wizard hw, if_pos hrank]
    cases hd : r.domains.lookup wiz.dom with
    | none =>
      rw [setDomain, wp_bind, wp_domain_none hd]
      exact hE post hrank (notMem_iff_lookup.2 hd)
    | some d =>
      rw [wp_setDomain _ hd]
      exact hQ' _ (vacated_insert hd hrank)
  by_cases hlord : wiz.rank = .lord
  · refine hstep .lord hlord fun r₁ h₁ ↦ ?_
    rw [stepDown, wp_bind, wp_wizard (h₁.wizards ▸ hw), hlord, if_neg (by decide), wp_pure]
    exact hQ r₁ h₁
  · have hskip : wp E (stepDown .lord w) (fun _ ↦ wp E (stepDown .steward w) fun _ ↦ Q) r ↔
        wp E (stepDown .steward w) (fun _ ↦ Q) r := by
      rw [stepDown, wp_bind, wp_wizard hw, if_neg (show wiz.rank ≠ Post.rank .lord from hlord),
        wp_pure]
    rw [hskip]
    by_cases hsteward : wiz.rank = .steward
    · exact hstep .steward hsteward hQ
    · rw [stepDown, wp_bind, wp_wizard hw,
        if_neg (show wiz.rank ≠ Post.rank .steward from hsteward), wp_pure]
      refine hQ r (Vacated.refl fun post ↦ ?_)
      cases post
      · exact hlord
      · exact hsteward

/-- The rank of the wizard has been recorded. -/
structure Recorded (w : String) (wiz : Wizard) (rank : Rank) (cmder : String)
    (r r' : Registry) : Prop where
  wizards : ∀ v, r'.wizards.lookup v = if v = w then
    some { wiz with rank := rank, level := rank.startLevel, chLevel := cmder }
    else r.wizards.lookup v
  domains : r'.domains = r.domains
  trainee : ∀ v ∈ r'.trainees, v ∈ r.trainees ∨ v = w
  unmarked : rank ≠ .normal → rank ≠ .retired → w ∉ r'.trainees
  globalRead : r'.globalRead = r.globalRead
  domCount : r'.domCount = r.domCount

theorem wp_recordRank (hw : r.wizards.lookup w = some wiz)
    (hQ : ∀ r', Recorded w wiz rank cmder r r' → Q r') :
    wp E (recordRank w rank cmder) (fun _ ↦ Q) r := by
  have hset : ∀ tr : AList fun _ : String ↦ Unit,
      (∀ v ∈ tr, v ∈ r.trainees ∨ v = w) →
      (rank ≠ .normal → rank ≠ .retired → w ∉ tr) →
      wp E (setWizard w fun wiz ↦
        { wiz with rank := rank, level := rank.startLevel, chLevel := cmder }) (fun _ ↦ Q)
        { r with trainees := tr } := by
    intro tr htrainee hunmarked
    rw [wp_setWizard _ (by exact hw)]
    exact hQ _ ⟨fun v ↦ lookup_insert_ite .., rfl, htrainee, hunmarked, rfl, rfl⟩
  rw [recordRank]
  split_ifs with hretired hnormal
  · rw [addTrainee, wp_bind, wp_modify]
    refine hset _ (fun v hv ↦ ?_) fun _ h ↦ absurd hretired h
    rw [AList.mem_insert] at hv
    exact hv.symm
  · rw [deleteTrainee, wp_bind, wp_modify]
    refine hset _ (fun v hv ↦ .inl (AList.mem_erase.1 hv).2) fun _ _ h ↦ ?_
    exact (AList.mem_erase.1 h).1 rfl
  · exact hset r.trainees (fun v hv ↦ .inl hv) fun h ↦ absurd h (by simpa using hnormal)

end Steps

theorem Vacated.frame (h : Vacated wiz r r') : Frame w rank r r' where
  dom v := by rw [h.wizards]
  core D := by
    rw [h.domains, map_map]
    congr 1
    funext d
    simp only [Function.comp_apply]
    split_ifs <;> rfl
  mortal v hv := .inr (h.wizards ▸ hv)
  trainee v hv := .inl (h.trainees ▸ hv)
  globalRead := h.globalRead
  domCount := h.domCount

theorem Recorded.frame (h : Recorded w wiz rank cmder r r') (hw : r.wizards.lookup w = some wiz) :
    Frame w rank r r' where
  dom v := by
    rw [h.wizards]
    split_ifs with hv
    · rw [hv, hw]
      rfl
    · rfl
  core D := by rw [h.domains]
  mortal v hv := by
    rw [h.wizards] at hv
    split_ifs at hv with hvw
    · exact .inl ⟨hvw, by simpa using hv⟩
    · exact .inr hv
  trainee v hv := (h.trainee v hv).imp_right fun hvw ↦ by
    rw [hvw, mem_iff_lookup]
    exact ⟨wiz, hw⟩
  globalRead := h.globalRead
  domCount := h.domCount

theorem Vacated.lookup_domains (h : Vacated wiz r r') (hd : r'.domains.lookup D = some d) :
    ∃ d₀, r.domains.lookup D = some d₀ ∧ d.members = d₀.members ∧
      ∀ p : Post, d.holder p = if D = wiz.dom ∧ wiz.rank = p.rank then "" else d₀.holder p := by
  rw [h.domains, map_eq_some_iff] at hd
  obtain ⟨d₀, hd₀, rfl⟩ := hd
  refine ⟨d₀, hd₀, ?_, fun p ↦ ?_⟩
  · split_ifs <;> rfl
  · by_cases hD : D = wiz.dom
    · simp [hD]
    · simp [hD]

/-- **The posts of the others are as they were**: the post that has been given up was the
wizard's. -/
theorem Vacated.placed_other (h : Vacated wiz r r') (hs : r.Sound X)
    (hw : r.wizards.lookup w = some wiz) (hself : ∀ post : Post, wiz.rank = post.rank → r.Placed w)
    (hv : v ≠ w) (hplaced : r.Placed v) : r'.Placed v := by
  intro D d hd p
  obtain ⟨d₀, hd₀, hmembers, hholder⟩ := h.lookup_domains hd
  rw [hmembers, hholder, h.wizards, ← hplaced D d₀ hd₀ p]
  split_ifs with hpost
  · obtain ⟨rfl, hrank⟩ := hpost
    have hmem : w ∈ d₀.members := (hs.mem_iff _ d₀ hd₀ w).2 (by rw [hw]; rfl)
    have hholds : w = d₀.holder p :=
      ((hself p hrank _ d₀ hd₀ p).2 ⟨hmem, by rw [hw, map_some, hrank]⟩).1
    rw [← hholds]
    exact ⟨fun hv ↦ absurd hv.1 hv.2, fun hv' ↦ absurd hv'.1 hv⟩
  · rfl

/-- **The wizard has no post left.** -/
theorem Vacated.holder_ne (h : Vacated wiz r r') (hs : r.Sound X)
    (hw : r.wizards.lookup w = some wiz) (hplaced : r.Placed w)
    (hd : r'.domains.lookup D = some d) (p : Post) : d.holder p ≠ w := by
  have hne : w ≠ "" := (hs.wizName w (mem_iff_lookup.2 ⟨wiz, hw⟩)).2
  obtain ⟨d₀, hd₀, -, hholder⟩ := h.lookup_domains hd
  rw [hholder]
  split_ifs with hpost
  · exact hne.symm
  · intro hholds
    obtain ⟨hmem, hrank⟩ := (hplaced D d₀ hd₀ p).1 ⟨hholds.symm, hne⟩
    have hdom := (hs.mem_iff D d₀ hd₀ w).1 hmem
    rw [hw] at hdom hrank
    simp only [map_some, some.injEq] at hdom hrank
    exact hpost ⟨hdom.symm, hrank⟩

theorem Recorded.placed_other (h : Recorded w wiz rank cmder r r') (hv : v ≠ w)
    (hplaced : r.Placed v) : r'.Placed v := by
  intro D d hd p
  rw [h.domains] at hd
  rw [h.wizards, if_neg hv]
  exact hplaced D d hd p

theorem Recorded.placed_self (h : Recorded w wiz rank cmder r r')
    (hrank : ∀ post : Post, rank ≠ post.rank)
    (hholder : ∀ D d, r.domains.lookup D = some d → ∀ p : Post, d.holder p ≠ w) : r'.Placed w := by
  intro D d hd p
  rw [h.domains] at hd
  rw [h.wizards, if_pos rfl]
  constructor
  · exact fun hw ↦ absurd hw.1.symm (hholder D d hd p)
  · exact fun hw ↦ absurd (some.inj hw.2) (hrank p)

/-- A post has been given up and a rank that goes with no post has been recorded. -/
structure Ranked (w : String) (wiz : Wizard) (rank : Rank) (cmder : String) (r r' : Registry) :
    Prop where
  steps : ∃ r₁, Vacated wiz r r₁ ∧ Recorded w wiz rank cmder r₁ r'

namespace Ranked

theorem frame (h : Ranked w wiz rank cmder r r') (hw : r.wizards.lookup w = some wiz) :
    Frame w rank r r' := by
  obtain ⟨r₁, h₁, h₂⟩ := h.steps
  exact h₁.frame.trans (h₂.frame (h₁.wizards ▸ hw))

theorem lookup_wizards (h : Ranked w wiz rank cmder r r') (v : String) :
    r'.wizards.lookup v = if v = w then
      some { wiz with rank := rank, level := rank.startLevel, chLevel := cmder }
      else r.wizards.lookup v := by
  obtain ⟨r₁, h₁, h₂⟩ := h.steps
  rw [h₂.wizards, h₁.wizards]

theorem lookup_domains (h : Ranked w wiz rank cmder r r') (hd : r'.domains.lookup D = some d) :
    ∃ d₀, r.domains.lookup D = some d₀ ∧ d.members = d₀.members ∧
      ∀ p : Post, d.holder p = if D = wiz.dom ∧ wiz.rank = p.rank then "" else d₀.holder p := by
  obtain ⟨r₁, h₁, h₂⟩ := h.steps
  rw [h₂.domains] at hd
  exact h₁.lookup_domains hd

theorem unmarked (h : Ranked w wiz rank cmder r r') (hnormal : rank ≠ .normal)
    (hretired : rank ≠ .retired) : w ∉ r'.trainees := by
  obtain ⟨r₁, h₁, h₂⟩ := h.steps
  exact h₂.unmarked hnormal hretired

theorem placed_other (h : Ranked w wiz rank cmder r r') (hs : r.Sound X)
    (hw : r.wizards.lookup w = some wiz) (hself : ∀ post : Post, wiz.rank = post.rank → r.Placed w)
    (hv : v ≠ w) (hplaced : r.Placed v) : r'.Placed v := by
  obtain ⟨r₁, h₁, h₂⟩ := h.steps
  exact h₂.placed_other hv (h₁.placed_other hs hw hself hv hplaced)

theorem placed_self (h : Ranked w wiz rank cmder r r') (hs : r.Sound X)
    (hw : r.wizards.lookup w = some wiz) (hrank : ∀ post : Post, rank ≠ post.rank)
    (hplaced : r.Placed w) : r'.Placed w := by
  obtain ⟨r₁, h₁, h₂⟩ := h.steps
  exact h₂.placed_self hrank fun D d hd p ↦ h₁.holder_ne hs hw hplaced hd p

theorem placed (h : Ranked w wiz rank cmder r r') (hs : r.Sound X)
    (hw : r.wizards.lookup w = some wiz) (hrank : ∀ post : Post, rank ≠ post.rank)
    (hplaced : ∀ v, r.Placed v) (v : String) : r'.Placed v := by
  by_cases hv : v = w
  · exact hv ▸ h.placed_self hs hw hrank (hplaced w)
  · exact h.placed_other hs hw (fun _ _ ↦ hplaced w) hv (hplaced v)

end Ranked

section Steps

variable {E Q : Registry → Prop} {demote : String → Master Unit}

/-- **A change to a rank that goes with no post.** -/
theorem wp_changeRank (hrank : ∀ post : Post, rank ≠ post.rank)
    (hw : r.wizards.lookup w = some wiz)
    (hE : ∀ post : Post, wiz.rank = post.rank → wiz.dom ∉ r.domains → E r)
    (hQ : ∀ r', Ranked w wiz rank cmder r r' → Q r') :
    wp E (changeRank demote w rank cmder) (fun _ ↦ Q) r := by
  rw [changeRank, stepUp, stepUp, if_neg (hrank .lord), if_neg (hrank .steward)]
  simp only [wp_bind, wp_pure]
  refine wp_stepDowns hw hE fun r₁ h₁ ↦ ?_
  exact wp_recordRank (h₁.wizards ▸ hw) fun r' h' ↦ hQ r' ⟨r₁, h₁, h'⟩

/-- The post can be given to the wizard: it is vacant, or is the wizard's already, and the wizard
has no other. -/
structure Ready (w : String) (wiz : Wizard) (post : Post) (r : Registry) : Prop where
  other : ∀ v ≠ w, r.Placed v
  free : ∀ d, r.domains.lookup wiz.dom = some d → d.holder post = "" ∨ d.holder post = w
  only : ∀ D d, r.domains.lookup D = some d → ∀ p : Post, d.holder p = w → D = wiz.dom ∧ p = post

/-- **The wizard takes the post**: its posts and those of the others are in order. -/
theorem Ready.placed {wiz₂ : Wizard} (h : Ready w wiz post r) (hs : r.Sound X) (hne : w ≠ "")
    (hw : r.wizards.lookup w = some wiz₂) (hdom : wiz₂.dom = wiz.dom)
    (hd : r.domains.lookup wiz.dom = some d)
    (hrec : Recorded w wiz₂ post.rank cmder
      { r with domains := r.domains.insert wiz.dom (d.setHolder w post) } r') (v : String) :
    r'.Placed v := by
  have hmap : (r.wizards.lookup w).map Wizard.dom = some wiz.dom := by rw [hw, ← hdom]; rfl
  have hmem : w ∈ d.members := (hs.mem_iff _ d hd w).2 hmap
  intro D d' hd' p
  rw [hrec.domains, lookup_insert_ite] at hd'
  rw [hrec.wizards]
  split_ifs at hd' with hD
  · -- the domain of the post
    obtain rfl := some.inj hd'
    rw [Domain.holder_setHolder, Domain.members_setHolder]
    by_cases hv : v = w
    · subst hv
      rw [if_pos rfl]
      constructor
      · rintro ⟨hholds, -⟩
        split_ifs at hholds with hp
        · exact ⟨hmem, by rw [hp]; rfl⟩
        · exact absurd (h.only _ d hd p hholds.symm).2 hp
      · rintro ⟨-, hrank⟩
        rw [if_pos (Post.rank_injective (some.inj hrank)).symm]
        exact ⟨rfl, hne⟩
    · have hplaced := h.other v hv _ d hd p
      rw [if_neg hv]
      split_ifs with hp
      · subst hp
        rw [← hplaced]
        refine ⟨fun hw ↦ absurd hw.1 hv, fun hholds ↦ ?_⟩
        rcases h.free d hd with hfree | hfree
        · exact absurd (hholds.1.trans hfree) hholds.2
        · exact absurd (hholds.1.trans hfree) hv
      · exact hplaced
  · -- another domain
    by_cases hv : v = w
    · subst hv
      rw [if_pos rfl]
      constructor
      · rintro ⟨hholds, -⟩
        exact absurd (h.only D d' hd' p hholds.symm).1 hD
      · rintro ⟨hmem', -⟩
        have hhome := (hs.mem_iff D d' hd' v).1 hmem'
        rw [hmap] at hhome
        exact absurd (some.inj hhome).symm hD
    · rw [if_neg hv]
      exact h.other v hv D d' hd' p

theorem changeRank_post (demote : String → Master Unit) (w cmder : String) (post : Post)
    {Q' : Unit → Registry → Prop} :
    wp E (changeRank demote w post.rank cmder) Q' =
      wp E (stepDown .lord w) fun _ ↦ wp E (stepDown .steward w) fun _ ↦
        wp E (takePost demote post w) fun _ ↦ wp E (recordRank w post.rank cmder) Q' := by
  cases post
  · simp only [changeRank, stepUp, Post.rank, if_true, reduceCtorEq, if_false, wp_bind, wp_pure]
  · simp only [changeRank, stepUp, Post.rank, if_true, reduceCtorEq, if_false, wp_bind, wp_pure]

variable (post) in
/-- **A change to a rank that goes with a post.** -/
theorem wp_changeRank_post (hs : r.Sound X) (hw : r.wizards.lookup w = some wiz)
    (hE : wiz.dom ∉ r.domains → E r)
    (hvacant : ∀ r₁ d, Vacated wiz r r₁ → r₁.domains.lookup wiz.dom = some d →
      d.holder post = "" → Ready w wiz post r₁)
    (hdemote : ∀ r₁ d, Vacated wiz r r₁ → r₁.domains.lookup wiz.dom = some d →
      d.holder post ≠ "" → wp E (demote (d.holder post))
        (fun _ r₂ ↦ Frame w post.rank r₁ r₂ ∧ Ready w wiz post r₂) r₁)
    (hQ : ∀ r', Frame w post.rank r r' → (∀ v, r'.Placed v) → Q r') :
    wp E (changeRank demote w post.rank cmder) (fun _ ↦ Q) r := by
  have hne : w ≠ "" := (hs.wizName w (mem_iff_lookup.2 ⟨wiz, hw⟩)).2
  rw [changeRank_post]
  refine wp_stepDowns hw (fun _ _ h ↦ hE h) fun r₁ h₁ ↦ ?_
  have hw₁ : r₁.wizards.lookup w = some wiz := h₁.wizards ▸ hw
  -- once the old holder is demoted, the post is taken and the rank is recorded
  have htake : wiz.dom ∈ r₁.domains → ∀ r₂, Frame w post.rank r₁ r₂ ∧ Ready w wiz post r₂ →
      wp E (setDomain wiz.dom fun d ↦ d.setHolder w post)
        (fun _ ↦ wp E (recordRank w post.rank cmder) fun _ ↦ Q) r₂ := by
    rintro hmem r₂ ⟨h₂, hready⟩
    have hframe := h₁.frame.trans h₂
    have hw₂ := h₂.dom w
    rw [hw₁, map_some, map_eq_some_iff] at hw₂
    obtain ⟨wiz₂, hw₂, hdom⟩ := hw₂
    obtain ⟨d, hd⟩ := mem_iff_lookup.1 ((h₂.mem_domains _).2 hmem)
    rw [wp_setDomain _ hd]
    refine wp_recordRank (by exact hw₂) fun r' h' ↦ ?_
    refine hQ r' ?_ (hready.placed (hframe.sound hs) hne hw₂ hdom hd h')
    exact (hframe.trans (frame_insert hd (Domain.core_setHolder ..))).trans (h'.frame hw₂)
  rw [takePost]
  simp only [wp_bind]
  rw [wp_wizard hw₁]
  cases hd : r₁.domains.lookup wiz.dom with
  | none =>
    rw [wp_domain_none hd]
    have hmem : wiz.dom ∉ r.domains := by
      rw [← (h₁.frame : Frame w post.rank r r₁).mem_domains, notMem_iff_lookup, hd]
    rw [h₁.same hmem]
    exact hE hmem
  | some d =>
    rw [wp_domain hd]
    have hmem : wiz.dom ∈ r₁.domains := mem_iff_lookup.2 ⟨d, hd⟩
    split_ifs with hholder
    · rw [wp_bind]
      exact wp_mono (hdemote r₁ d h₁ hd hholder) fun _ r₂ h₂ ↦ htake hmem r₂ h₂
    · exact htake hmem r₁ ⟨Frame.refl, hvacant r₁ d h₁ hd (not_not.1 hholder)⟩

/-- `do_change_rank`, to a rank that goes with no post. -/
theorem wp_doChangeRank (hrank : ∀ post : Post, rank ≠ post.rank)
    (hw : r.wizards.lookup w = some wiz)
    (hE : ∀ post : Post, wiz.rank = post.rank → wiz.dom ∉ r.domains → E r)
    (hQ : ∀ r', Ranked w wiz rank cmder r r' → Q r') :
    wp E (doChangeRank w rank cmder) (fun _ ↦ Q) r :=
  wp_changeRank hrank hw hE hQ

variable (post) in
/-- **`do_change_rank`, to a rank that goes with a post**: the one who had it is demoted. -/
theorem wp_doChangeRank_post (hs : r.Sound X) (hplaced : ∀ v, r.Placed v)
    (hw : r.wizards.lookup w = some wiz) (hE : wiz.dom ∉ r.domains → E r)
    (hQ : ∀ r', Frame w post.rank r r' → (∀ v, r'.Placed v) → Q r') :
    wp E (doChangeRank w post.rank cmder) (fun _ ↦ Q) r := by
  have hother : ∀ r₁, Vacated wiz r r₁ → ∀ v ≠ w, r₁.Placed v := fun r₁ h₁ v hv ↦
    h₁.placed_other hs hw (fun _ _ ↦ hplaced w) hv (hplaced v)
  have hholder : ∀ r₁, Vacated wiz r r₁ → ∀ D d, r₁.domains.lookup D = some d →
      ∀ p : Post, d.holder p ≠ w := fun r₁ h₁ D d hd p ↦ h₁.holder_ne hs hw (hplaced w) hd p
  refine wp_changeRank_post post hs hw hE ?_ ?_ hQ
  · intro r₁ d h₁ hd hfree
    refine ⟨hother r₁ h₁, fun d' hd' ↦ .inl ?_, fun D d' hd' p hp ↦
      absurd hp (hholder r₁ h₁ D d' hd' p)⟩
    obtain rfl := some.inj (hd.symm.trans hd')
    exact hfree
  · -- the one who has the post is another member of the domain
    intro r₁ d h₁ hd hheld
    have hs₁ : r₁.Sound X := (h₁.frame : Frame w post.rank r r₁).sound hs
    have hx : d.holder post ≠ w := hholder r₁ h₁ _ d hd post
    obtain ⟨hmem, hrank⟩ := (hother r₁ h₁ _ hx _ d hd post).1 ⟨rfl, hheld⟩
    rw [map_eq_some_iff] at hrank
    obtain ⟨xwiz, hxw, hrank⟩ := hrank
    have hxdom := (hs₁.mem_iff _ d hd _).1 hmem
    rw [hxw, map_some, some.injEq] at hxdom
    have hnormal : ∀ p : Post, Rank.normal ≠ p.rank := fun p ↦ by cases p <;> decide
    refine wp_changeRank hnormal hxw (fun _ _ hmem' ↦ ?_) fun r₂ h₂ ↦ ?_
    · exact absurd (hxdom ▸ mem_iff_lookup.2 ⟨d, hd⟩) hmem'
    refine ⟨(h₂.frame hxw).of_ne_mortal (by decide), fun v hv ↦ ?_, fun d' hd' ↦ .inl ?_,
      fun D d' hd' p hp ↦ ?_⟩
    · by_cases hvx : v = d.holder post
      · exact hvx ▸ h₂.placed_self hs₁ hxw hnormal (hother r₁ h₁ _ hx)
      · exact h₂.placed_other hs₁ hxw (fun _ _ ↦ hother r₁ h₁ _ hx) hvx (hother r₁ h₁ v hv)
    · obtain ⟨d₀, -, -, hholder₂⟩ := h₂.lookup_domains hd'
      rw [hholder₂, if_pos ⟨hxdom.symm, hrank⟩]
    · obtain ⟨d₀, hd₀, -, hholder₂⟩ := h₂.lookup_domains hd'
      have hne : w ≠ "" := (hs.wizName w (mem_iff_lookup.2 ⟨wiz, hw⟩)).2
      rw [hholder₂] at hp
      split_ifs at hp
      · exact absurd hp.symm hne
      · exact absurd hp (hholder r₁ h₁ D d₀ hd₀ p)

end Steps

/-! ### A wizard is moved -/

/-- The wizard has been taken off the list of its old domain. -/
structure Left (old w : String) (r r' : Registry) : Prop where
  wizards : r'.wizards = r.wizards
  domains : ∀ D, r'.domains.lookup D = (r.domains.lookup D).map fun d ↦
    { d with members := if D = old then d.members.filter (· ≠ w) else d.members }
  trainee : ∀ v ∈ r'.trainees, v ∈ r.trainees
  unmarked : old ≠ "" → w ∉ r'.trainees
  globalRead : r'.globalRead = r.globalRead
  domCount : r'.domCount = r.domCount

/-- The wizard has been put on the list of the domain. -/
structure Joined (D w : String) (r r' : Registry) : Prop where
  wizards : r'.wizards = r.wizards
  domains : ∀ D', r'.domains.lookup D' = (r.domains.lookup D').map fun d ↦
    { d with members := d.members ++ if D' = D then [w] else [] }
  trainee : ∀ v ∈ r'.trainees, v ∈ r.trainees ∨ v = w
  globalRead : r'.globalRead = r.globalRead
  domCount : r'.domCount = r.domCount

/-- The wizard is in the domain `D` now, or in none. -/
structure Rehoused (w : String) (wiz : Wizard) (D cmder : String) (r r' : Registry) : Prop where
  wizards : ∀ v, r'.wizards.lookup v =
    if v = w then some { wiz with dom := D, chDom := cmder } else r.wizards.lookup v
  domains : ∀ D', r'.domains.lookup D' = (r.domains.lookup D').map fun d ↦
    { d with members :=
        (if D' = wiz.dom then d.members.filter (· ≠ w) else d.members) ++
          if D' = D then [w] else [] }
  trainee : ∀ v ∈ r'.trainees, v ∈ r.trainees ∨ v = w
  unmarked : wiz.dom ≠ "" → D = "" → w ∉ r'.trainees
  globalRead : r'.globalRead = r.globalRead
  domCount : r'.domCount = r.domCount

section Steps

variable {E Q : Registry → Prop} {old : String}

theorem wp_leaveOldDomain (hempty : "" ∉ r.domains) (hold : old ≠ "" → old ∈ r.domains)
    (hQ : ∀ r', Left old w r r' → Q r') : wp E (leaveOldDomain old w) (fun _ ↦ Q) r := by
  rw [leaveOldDomain]
  split_ifs with hne
  · obtain ⟨d, hd⟩ := mem_iff_lookup.1 (hold hne)
    rw [wp_bind, wp_setDomain _ hd, deleteTrainee, wp_modify]
    refine hQ _ ⟨rfl, fun D ↦ ?_, fun v hv ↦ (AList.mem_erase.1 hv).2,
      fun _ h ↦ (AList.mem_erase.1 h).1 rfl, rfl, rfl⟩
    rw [lookup_insert_ite]
    by_cases hD : D = old
    · subst hD
      simp [hd]
    · simp [hD]
  · obtain rfl := not_not.1 hne
    refine hQ r ⟨rfl, fun D ↦ ?_, fun _ ↦ id, fun h ↦ absurd rfl h, rfl, rfl⟩
    by_cases hD : D = ""
    · rw [hD, notMem_iff_lookup.1 hempty]
      rfl
    · simp [hD]

theorem wp_joinDomain (hD : D ∈ r.domains) (hQ : ∀ r', Joined D w r r' → Q r') :
    wp E (joinDomain D w rank) (fun _ ↦ Q) r := by
  obtain ⟨d, hd⟩ := mem_iff_lookup.1 hD
  have hdomains : ∀ D', (r.domains.insert D { d with members := d.members ++ [w] }).lookup D' =
      (r.domains.lookup D').map fun d ↦
        { d with members := d.members ++ if D' = D then [w] else [] } := by
    intro D'
    rw [lookup_insert_ite]
    by_cases hD' : D' = D
    · subst hD'
      simp [hd]
    · simp [hD']
  rw [joinDomain, wp_bind, wp_setDomain _ hd]
  split_ifs
  · rw [addTrainee, wp_modify]
    exact hQ _ ⟨rfl, hdomains, fun v hv ↦ ((AList.mem_insert _).1 hv).symm, rfl, rfl⟩
  · exact hQ _ ⟨rfl, hdomains, fun v hv ↦ .inl hv, rfl, rfl⟩

/-- **`add_wizard_to_domain`.** -/
theorem wp_addWizardToDomain {dname : String} {Q : Bool → Registry → Prop} (hs : r.Sound X)
    (hw : r.wizards.lookup w = some wiz)
    (hD : D = if capitalize dname = "" ∧ wiz.rank.Stays then WIZARD_DOMAIN else capitalize dname)
    (hmem : D = "" ∨ D ∈ r.domains) (hQ : ∀ r', Rehoused w wiz D cmder r r' → Q true r') :
    wp E (addWizardToDomain dname w cmder) Q r := by
  have hempty : "" ∉ r.domains := fun h ↦ (hs.domName _ h).2 rfl
  have hname : lowerCase w = w := (hs.wizName w (mem_iff_lookup.2 ⟨wiz, hw⟩)).1
  rw [addWizardToDomain]
  simp only [wp_bind, hname]
  rw [wp_wizard hw, ← hD, wp_setWizard _ hw]
  refine wp_leaveOldDomain hempty (hs.home w wiz hw) fun r₁ h₁ ↦ ?_
  have hwizards : ∀ v, r₁.wizards.lookup v =
      if v = w then some { wiz with dom := D, chDom := cmder } else r.wizards.lookup v := by
    intro v
    rw [h₁.wizards]
    exact lookup_insert_ite ..
  split_ifs with hne
  · subst hne
    refine hQ r₁ ⟨hwizards, fun D' ↦ ?_, fun v hv ↦ .inl (h₁.trainee v hv),
      fun h _ ↦ h₁.unmarked h, h₁.globalRead, h₁.domCount⟩
    rw [h₁.domains]
    by_cases hD' : D' = ""
    · subst hD'
      simp [notMem_iff_lookup.1 hempty]
    · simp [hD']
  · rw [wp_bind]
    have hmem₁ : D ∈ r₁.domains := by
      obtain ⟨d, hd⟩ := mem_iff_lookup.1 (hmem.resolve_left hne)
      rw [mem_iff_lookup, h₁.domains, hd]
      exact ⟨_, rfl⟩
    refine wp_joinDomain hmem₁ fun r₂ h₂ ↦ ?_
    refine hQ r₂ ⟨fun v ↦ h₂.wizards ▸ hwizards v, fun D' ↦ ?_, fun v hv ↦ ?_,
      fun _ h ↦ absurd h hne, h₂.globalRead.trans h₁.globalRead, h₂.domCount.trans h₁.domCount⟩
    · rw [h₂.domains, h₁.domains, map_map]
      rfl
    · exact (h₂.trainee v hv).imp_left (h₁.trainee v)

end Steps

namespace Rehoused

theorem mem_wizards (h : Rehoused w wiz D cmder r r') (hw : r.wizards.lookup w = some wiz)
    (v : String) : v ∈ r'.wizards ↔ v ∈ r.wizards := by
  rw [mem_iff_lookup, mem_iff_lookup, h.wizards]
  by_cases hv : v = w
  · subst hv
    simp [hw]
  · simp [hv]

theorem mem_domains (h : Rehoused w wiz D cmder r r') (D' : String) :
    D' ∈ r'.domains ↔ D' ∈ r.domains := by
  rw [← AList.lookup_isSome, ← AList.lookup_isSome, h.domains, isSome_map]

theorem map_rank (h : Rehoused w wiz D cmder r r') (hw : r.wizards.lookup w = some wiz)
    (v : String) :
    (r'.wizards.lookup v).map Wizard.rank = (r.wizards.lookup v).map Wizard.rank := by
  rw [h.wizards]
  by_cases hv : v = w
  · subst hv
    simp [hw]
  · simp [hv]

theorem lookup_domains (h : Rehoused w wiz D cmder r r') (hs : r.Sound X)
    (hw : r.wizards.lookup w = some wiz) {D' : String} {d' : Domain}
    (hd : r'.domains.lookup D' = some d') :
    ∃ d, r.domains.lookup D' = some d ∧ d'.num = d.num ∧ d'.short = d.short ∧
      d'.madwand = d.madwand ∧ (∀ p : Post, d'.holder p = d.holder p) ∧ d'.members.Nodup ∧
      (∀ v ≠ w, v ∈ d'.members ↔ v ∈ d.members) ∧ (w ∈ d'.members ↔ D' = D) := by
  rw [h.domains, map_eq_some_iff] at hd
  obtain ⟨d, hd, rfl⟩ := hd
  have hmem : w ∈ d.members ↔ wiz.dom = D' := by
    rw [hs.mem_iff D' d hd w, hw, map_some, some.injEq]
  have hrest : w ∉ if D' = wiz.dom then d.members.filter (· ≠ w) else d.members := by
    split_ifs with hD'
    · simp
    · rw [hmem]
      exact Ne.symm hD'
  have hnodup : (if D' = wiz.dom then d.members.filter (· ≠ w) else d.members).Nodup := by
    split_ifs
    · exact (hs.nodup D' d hd).filter _
    · exact hs.nodup D' d hd
  refine ⟨d, hd, rfl, rfl, rfl, fun p ↦ by cases p <;> rfl, ?_, fun v hv ↦ ?_, ?_⟩
  · refine List.Nodup.append hnodup (by split_ifs <;> simp) fun v hv hv' ↦ ?_
    split_ifs at hv'
    · rw [List.mem_singleton] at hv'
      exact hrest (hv' ▸ hv)
    · exact absurd hv' List.not_mem_nil
  · split_ifs <;> simp [hv]
  · rw [List.mem_append, or_iff_right hrest]
    split_ifs with hD' <;> simp [hD']

/-- **What does not depend on ranks and posts is kept**, unless it is the madwand that has left. -/
theorem sound (h : Rehoused w wiz D cmder r r') (hs : r.Sound X)
    (hw : r.wizards.lookup w = some wiz) (hD : D = "" ∨ D ∈ r.domains)
    (hmadwand : D = wiz.dom ∨ wiz.dom ∈ X ∨
      ∀ d, r.domains.lookup wiz.dom = some d → d.madwand ≠ w) : r'.Sound X where
  home v wiz' hv hne := by
    rw [h.mem_domains]
    rw [h.wizards] at hv
    split_ifs at hv
    · obtain rfl := some.inj hv
      exact hD.resolve_left hne
    · exact hs.home v wiz' hv hne
  nodup D' d' hd' := by
    obtain ⟨d, hd, -, -, -, -, hnodup, -⟩ := h.lookup_domains hs hw hd'
    exact hnodup
  mem_iff D' d' hd' v := by
    obtain ⟨d, hd, -, -, -, -, -, hother, hself⟩ := h.lookup_domains hs hw hd'
    rw [h.wizards]
    split_ifs with hv
    · rw [hv, hself, map_some, some.injEq]
      exact eq_comm
    · rw [hother v hv]
      exact hs.mem_iff D' d hd v
  madwand D' d' hd' hX hne := by
    obtain ⟨d, hd, -, -, hmad, -, -, hother, hself⟩ := h.lookup_domains hs hw hd'
    rw [hmad] at hne ⊢
    have hmem := hs.madwand D' d hd hX hne
    by_cases hv : d.madwand = w
    · have hdom := (hs.mem_iff D' d hd _).1 hmem
      rw [hv, hw, map_some, some.injEq] at hdom
      subst hdom
      rw [hv, hself]
      rcases hmadwand with hmadwand | hmadwand | hmadwand
      · exact hmadwand.symm
      · exact absurd hmadwand hX
      · exact absurd hv (hmadwand d hd)
    · exact (hother _ hv).2 hmem
  short D₁ D₂ d₁ d₂ hd₁ hd₂ heq := by
    obtain ⟨e₁, he₁, -, hshort₁, -⟩ := h.lookup_domains hs hw hd₁
    obtain ⟨e₂, he₂, -, hshort₂, -⟩ := h.lookup_domains hs hw hd₂
    exact hs.short D₁ D₂ e₁ e₂ he₁ he₂ (hshort₁ ▸ hshort₂ ▸ heq)
  num D₁ D₂ d₁ d₂ hd₁ hd₂ heq := by
    obtain ⟨e₁, he₁, hnum₁, -⟩ := h.lookup_domains hs hw hd₁
    obtain ⟨e₂, he₂, hnum₂, -⟩ := h.lookup_domains hs hw hd₂
    exact hs.num D₁ D₂ e₁ e₂ he₁ he₂ (hnum₁ ▸ hnum₂ ▸ heq)
  trainee v hv := by
    rw [h.mem_wizards hw]
    rcases h.trainee v hv with hv | rfl
    · exact hs.trainee v hv
    · exact mem_iff_lookup.2 ⟨wiz, hw⟩
  globalRead v hv := by
    rw [h.mem_wizards hw]
    exact hs.globalRead v (h.globalRead ▸ hv)
  fresh D' d' hd' := by
    obtain ⟨d, hd, hnum, -⟩ := h.lookup_domains hs hw hd'
    rw [hnum, h.domCount]
    exact hs.fresh D' d hd
  wizName v hv := hs.wizName v ((h.mem_wizards hw v).1 hv)
  domName D' hD' := hs.domName D' ((h.mem_domains D').1 hD')
  wizardDomain := (h.mem_domains _).2 hs.wizardDomain

theorem placed_other (h : Rehoused w wiz D cmder r r') (hs : r.Sound X)
    (hw : r.wizards.lookup w = some wiz) (hv : v ≠ w) (hplaced : r.Placed v) : r'.Placed v := by
  intro D' d' hd' p
  obtain ⟨d, hd, -, -, -, hholder, -, hother, -⟩ := h.lookup_domains hs hw hd'
  rw [hholder, hother v hv, h.map_rank hw]
  exact hplaced D' d hd p

theorem placed_self (h : Rehoused w wiz D cmder r r') (hs : r.Sound X)
    (hw : r.wizards.lookup w = some wiz) (hrank : D = wiz.dom ∨ ∀ post : Post, wiz.rank ≠ post.rank)
    (hplaced : r.Placed w) : r'.Placed w := by
  intro D' d' hd' p
  obtain ⟨d, hd, -, -, -, hholder, -, -, hself⟩ := h.lookup_domains hs hw hd'
  rw [hholder, hself, h.map_rank hw, hplaced D' d hd p, hs.mem_iff D' d hd, hw, map_some,
    map_some, some.injEq, some.injEq]
  rcases hrank with rfl | hrank
  · rw [eq_comm]
  · exact ⟨fun h ↦ absurd h.2 (hrank p), fun h ↦ absurd h.2 (hrank p)⟩

theorem placed (h : Rehoused w wiz D cmder r r') (hs : r.Sound X)
    (hw : r.wizards.lookup w = some wiz) (hrank : D = wiz.dom ∨ ∀ post : Post, wiz.rank ≠ post.rank)
    (hplaced : ∀ v, r.Placed v) (v : String) : r'.Placed v := by
  by_cases hv : v = w
  · exact hv ▸ h.placed_self hs hw hrank (hplaced w)
  · exact h.placed_other hs hw hv (hplaced v)

end Rehoused

end Lpmud.Secure
