import Mathlib.Data.Set.Finite.Basic

/-!
# Graphs of jumps

Every place has a target. At some of the places (`U`) there is an unconditional jump, which leads on
to its target (`Step`). A chase along a jump exchanges its target for the target of the
unconditional jump that stands there, again and again, until there is none, or one to itself
(`Chased`). A pass chases along one jump after the other (`Passed`), each in the graph that the
others have left behind.

What a chase does to the graph is said by `Redirected`: every place leads to where it led before,
and all cycles are parts of what they were. A pass comes to an end (`passed_iff`) if every jump
leads to a place without an unconditional jump, to a jump to itself, or to a cycle with a jump that
has had its turn: the first jump of a cycle that has its turn becomes a jump to itself.
-/

namespace JumpGraph

open List Relation

variable {α : Type*}

/-- An unconditional jump leads to its target. -/
def Step (U : α → Prop) (τ : α → α) (a b : α) : Prop :=
  U a ∧ τ a = b

/-- Unconditional jumps lead from a place to another one. -/
abbrev Leads (U : α → Prop) (τ : α → α) : α → α → Prop :=
  ReflTransGen (Step U τ)

/-- Unconditional jumps lead from a place back to it. -/
abbrev OnCycle (U : α → Prop) (τ : α → α) (a : α) : Prop :=
  TransGen (Step U τ) a a

/-- A place that control gets to for good: there is no unconditional jump, or it is on a cycle. -/
def Recurrent (U : α → Prop) (τ : α → α) (a : α) : Prop :=
  ¬U a ∨ OnCycle U τ a

variable {U : α → Prop} {τ τ' τ₀ τ₁ : α → α} {a b c j s : α}

theorem Leads.onCycle (h : Leads U τ (τ j) j) (hj : U j) : OnCycle U τ j :=
  .head' ⟨hj, rfl⟩ h

theorem OnCycle.leads (h : OnCycle U τ a) : U a ∧ Leads U τ (τ a) a := by
  obtain ⟨b, ⟨ha, rfl⟩, hb⟩ := TransGen.head'_iff.1 h
  exact ⟨ha, hb⟩

theorem OnCycle.back (h : OnCycle U τ a) (hab : Leads U τ a b) : Leads U τ b a := by
  induction hab with
  | refl => exact .refl
  | @tail b c _ hbc ih =>
    obtain ⟨hb, rfl⟩ := hbc
    rcases ReflTransGen.cases_head ih with rfl | ⟨d, ⟨-, rfl⟩, hd⟩
    · exact h.leads.2
    · exact hd

theorem OnCycle.of_leads (h : OnCycle U τ a) (hab : Leads U τ a b) : OnCycle U τ b :=
  TransGen.trans_right (h.back hab) (h.trans_left hab)

theorem exists_recurrent (hfin : {b | Leads U τ a b}.Finite) :
    ∃ b, Leads U τ a b ∧ Recurrent U τ b := by
  by_contra hnone
  have hstep {b : α} (hb : Leads U τ a b) : Step U τ b (τ b) :=
    ⟨by_contra fun hu ↦ hnone ⟨b, hb, .inl hu⟩, rfl⟩
  have hwalk (n : ℕ) : Leads U τ a (τ^[n] a) := by
    induction n with
    | zero => exact .refl
    | succ n ih =>
      rw [Function.iterate_succ_apply']
      exact ih.tail (hstep ih)
  have hlater (n k : ℕ) : TransGen (Step U τ) (τ^[n] a) (τ^[n + k + 1] a) := by
    induction k with
    | zero =>
      rw [Nat.add_zero, Function.iterate_succ_apply']
      exact .single (hstep (hwalk n))
    | succ k ih =>
      rw [← Nat.add_assoc n k 1, Function.iterate_succ_apply' τ (n + k + 1)]
      exact ih.tail (hstep (hwalk _))
  refine Set.infinite_of_injective_forall_mem (fun n k heq ↦ ?_) hwalk hfin
  by_contra hne
  -- the walk has come to one place twice
  rcases Nat.lt_or_gt_of_ne hne with hlt | hlt
  · obtain ⟨d, rfl⟩ := Nat.exists_eq_add_of_lt hlt
    exact hnone ⟨_, hwalk n, .inr (heq ▸ hlater n d)⟩
  · obtain ⟨d, rfl⟩ := Nat.exists_eq_add_of_lt hlt
    exact hnone ⟨_, hwalk k, .inr (heq ▸ hlater k d)⟩

/-! ### What a chase does -/

variable [DecidableEq α]

/-- The target of a jump is exchanged for the target of what stands there. -/
def redirect (τ : α → α) (j : α) : α → α :=
  Function.update τ j (τ (τ j))

/-- There is nothing to exchange: the target of the jump is no unconditional jump, or one to
itself. -/
def Stops (U : α → Prop) (τ : α → α) (j : α) : Prop :=
  U (τ j) → τ (τ j) = τ j

/-- A chase along a jump. -/
inductive Chased (U : α → Prop) (j : α) : (α → α) → (α → α) → Prop where
  | stop {τ : α → α} : Stops U τ j → Chased U j τ τ
  | hop {τ τ' : α → α} : ¬Stops U τ j → Chased U j (redirect τ j) τ' → Chased U j τ τ'

/-- Chases along jumps, one after the other. -/
inductive Passed (U : α → Prop) : List α → (α → α) → (α → α) → Prop where
  | nil {τ : α → α} : Passed U [] τ τ
  | cons {j : α} {js : List α} {τ τ₁ τ' : α → α} :
    Chased U j τ τ₁ → Passed U js τ₁ τ' → Passed U (j :: js) τ τ'

/-- **The targets have been exchanged** for places further on. -/
structure Redirected (U : α → Prop) (τ τ' : α → α) : Prop where
  step : ∀ a b, Step U τ' a b → TransGen (Step U τ) a b
  target : ∀ j, Leads U τ (τ j) (τ' j)
  leads : ∀ a b, Leads U τ a b → Recurrent U τ' b → Leads U τ' a b
  leadsTarget : ∀ j b, Leads U τ (τ j) b → Recurrent U τ' b → Leads U τ' (τ' j) b
  self : ∀ s, τ s = s → τ' s = s

omit [DecidableEq α] in
theorem Redirected.refl (U : α → Prop) (τ : α → α) : Redirected U τ τ where
  step _ _ h := .single h
  target _ := .refl
  leads _ _ h _ := h
  leadsTarget _ _ h _ := h
  self _ h := h

omit [DecidableEq α] in
theorem Redirected.leads_of (h : Redirected U τ τ') (hab : Leads U τ' a b) : Leads U τ a b := by
  induction hab with
  | refl => exact .refl
  | tail _ hbc ih => exact ih.trans (h.step _ _ hbc).to_reflTransGen

omit [DecidableEq α] in
theorem Redirected.onCycle (h : Redirected U τ τ') (ha : OnCycle U τ' a) : OnCycle U τ a := by
  obtain ⟨hu, hleads⟩ := ha.leads
  exact (h.step a _ ⟨hu, rfl⟩).trans_left (h.leads_of hleads)

omit [DecidableEq α] in
theorem Redirected.recurrent (h : Redirected U τ τ') (ha : Recurrent U τ' a) : Recurrent U τ a :=
  ha.imp_right h.onCycle

omit [DecidableEq α] in
theorem Redirected.exists_onCycle (h : Redirected U τ τ') (ha : OnCycle U τ a)
    (hfin : {b | Leads U τ' a b}.Finite) : ∃ b, Leads U τ a b ∧ OnCycle U τ' b := by
  obtain ⟨b, hab, hb⟩ := exists_recurrent hfin
  have hleads := h.leads_of hab
  exact ⟨b, hleads, hb.resolve_left (not_not.2 (ha.of_leads hleads).leads.1)⟩

omit [DecidableEq α] in
theorem Redirected.trans (h : Redirected U τ₀ τ) (h' : Redirected U τ τ') :
    Redirected U τ₀ τ' where
  step a b hab := by
    have hpath := h'.step a b hab
    clear hab
    induction hpath with
    | single hab => exact h.step _ _ hab
    | tail _ hbc ih => exact ih.trans (h.step _ _ hbc)
  target j := (h.target j).trans (h.leads_of (h'.target j))
  leads a b hab hb := h'.leads a b (h.leads a b hab (h'.recurrent hb)) hb
  leadsTarget j b hjb hb := h'.leadsTarget j b (h.leadsTarget j b hjb (h'.recurrent hb)) hb
  self s hs := h'.self s (h.self s hs)

theorem redirect_self (τ : α → α) (j : α) : redirect τ j j = τ (τ j) :=
  Function.update_self ..

theorem redirect_of_ne (hne : a ≠ j) : redirect τ j a = τ a :=
  Function.update_of_ne hne ..

/-- **One exchange** of a target. -/
theorem redirected_redirect (h : ¬Stops U τ j) : Redirected U τ (redirect τ j) := by
  obtain ⟨hu, hself⟩ := Classical.not_imp.1 h
  have hne : τ j ≠ j := fun heq ↦ hself (congrArg τ heq)
  -- a place that control gets to for good is not missed when the target of the jump is skipped
  have hskip {b : α} (hleads : Leads U (redirect τ j) (τ j) b) (hb : Recurrent U (redirect τ j) b) :
      Leads U (redirect τ j) (redirect τ j j) b := by
    have hnext : redirect τ j (τ j) = redirect τ j j := by
      rw [redirect_of_ne hne, redirect_self]
    rcases ReflTransGen.cases_head hleads with rfl | ⟨c, ⟨-, rfl⟩, hc⟩
    · have hcycle := (hb.resolve_left (not_not.2 hu)).leads.2
      rwa [hnext] at hcycle
    · rwa [hnext] at hc
  have hleads (a b : α) (hab : Leads U τ a b) (hb : Recurrent U (redirect τ j) b) :
      Leads U (redirect τ j) a b := by
    induction hab using ReflTransGen.head_induction_on with
    | refl => exact .refl
    | @head a c hac _ ih =>
      obtain ⟨ha, rfl⟩ := hac
      rcases eq_or_ne a j with rfl | hne
      · exact .head ⟨ha, rfl⟩ (hskip ih hb)
      · exact .head ⟨ha, redirect_of_ne hne⟩ ih
  refine ⟨fun a b hab ↦ ?_, fun k ↦ ?_, hleads, fun k b hkb hb ↦ ?_, fun s hs ↦ ?_⟩
  · obtain ⟨ha, rfl⟩ := hab
    rcases eq_or_ne a j with rfl | hne
    · rw [redirect_self]
      exact .tail (.single ⟨ha, rfl⟩) ⟨hu, rfl⟩
    · rw [redirect_of_ne hne]
      exact .single ⟨ha, rfl⟩
  · rcases eq_or_ne k j with rfl | hne
    · rw [redirect_self]
      exact .single ⟨hu, rfl⟩
    · rw [redirect_of_ne hne]
  · rcases eq_or_ne k j with rfl | hne
    · exact hskip (hleads _ b hkb hb) hb
    · rw [redirect_of_ne hne]
      exact hleads _ b hkb hb
  · rcases eq_or_ne s j with rfl | hne
    · exact absurd hs ‹τ s ≠ s›
    · rw [redirect_of_ne hne, hs]

theorem Chased.redirected (h : Chased U j τ τ') : Redirected U τ τ' := by
  induction h with
  | stop => exact .refl ..
  | hop hnot _ ih => exact (redirected_redirect hnot).trans ih

theorem Chased.eq_of_ne (h : Chased U j τ τ') (hne : a ≠ j) : τ' a = τ a := by
  induction h with
  | stop => rfl
  | hop _ _ ih => rw [ih, redirect_of_ne hne]

theorem Chased.stops (h : Chased U j τ τ') : Stops U τ' j := by
  induction h with
  | stop h => exact h
  | hop _ _ ih => exact ih

/-- **A pass keeps** where places lead to. -/
theorem Passed.redirected {js : List α} (h : Passed U js τ τ') : Redirected U τ τ' := by
  induction h with
  | nil => exact .refl ..
  | cons hj _ ih => exact hj.redirected.trans ih

/-! ### When a chase comes to an end -/

omit [DecidableEq α] in
/-- Control gets to the end of a chase along `j`: to the jump `j` itself, or to where nothing is to
be exchanged. -/
def Halts (U : α → Prop) (τ : α → α) (j a : α) : Prop :=
  ∃ b, Leads U τ a b ∧ (¬U b ∨ τ b = b ∨ b = j)

omit [DecidableEq α] in
theorem Halts.head (ha : U a) (h : Halts U τ j (τ a)) : Halts U τ j a := by
  obtain ⟨b, hab, hb⟩ := h
  exact ⟨b, .head ⟨ha, rfl⟩ hab, hb⟩

omit [DecidableEq α] in
/-- Where the jump `j` itself goes to does not matter. -/
theorem Halts.congr (h : Halts U τ j a) (hτ : ∀ b ≠ j, τ' b = τ b) : Halts U τ' j a := by
  obtain ⟨b, hab, hb⟩ := h
  induction hab using ReflTransGen.head_induction_on with
  | refl =>
    by_cases hbj : b = j
    · exact ⟨b, .refl, .inr (.inr hbj)⟩
    · exact ⟨b, .refl, hb.imp_right (.imp_left fun h ↦ (hτ b hbj).trans h)⟩
  | @head a c hac _ ih =>
    obtain ⟨ha, rfl⟩ := hac
    by_cases haj : a = j
    · exact ⟨a, .refl, .inr (.inr haj)⟩
    · rw [← hτ a haj] at ih
      exact ih.head ha

theorem Chased.halts (h : Chased U j τ τ') : Halts U τ j (τ j) := by
  induction h with
  | @stop τ h =>
    by_cases hu : U (τ j)
    · exact ⟨_, .refl, .inr (.inl (h hu))⟩
    · exact ⟨_, .refl, .inl hu⟩
  | @hop τ τ' hnot _ ih =>
    obtain ⟨hu, -⟩ := Classical.not_imp.1 hnot
    rw [redirect_self] at ih
    exact (ih.congr fun b hb ↦ (redirect_of_ne hb).symm).head hu

theorem Halts.chased (h : Halts U τ j a) : ∀ τ₁, (∀ b ≠ j, τ₁ b = τ b) → τ₁ j = a →
    ∃ τ', Chased U j τ₁ τ' := by
  obtain ⟨b, hab, hb⟩ := h
  induction hab using ReflTransGen.head_induction_on with
  | refl =>
    rintro τ₁ hτ rfl
    refine ⟨τ₁, .stop fun hu ↦ ?_⟩
    by_cases hj : τ₁ j = j
    · exact congrArg τ₁ hj
    · rw [hτ _ hj]
      exact (hb.resolve_left (not_not.2 hu)).resolve_right hj
  | @head a c hac _ ih =>
    rintro τ₁ hτ rfl
    obtain ⟨-, rfl⟩ := hac
    by_cases hstop : Stops U τ₁ j
    · exact ⟨τ₁, .stop hstop⟩
    · have hne : τ₁ j ≠ j := fun heq ↦ hstop fun _ ↦ congrArg τ₁ heq
      obtain ⟨τ', hτ'⟩ := ih (redirect τ₁ j) (fun b hb ↦ (redirect_of_ne hb).trans (hτ b hb))
        ((redirect_self τ₁ j).trans (hτ _ hne))
      exact ⟨τ', .hop hstop hτ'⟩

/-- **A chase comes to an end** if control does. -/
theorem chased_iff : (∃ τ', Chased U j τ τ') ↔ Halts U τ j (τ j) :=
  ⟨fun ⟨_, h⟩ ↦ h.halts, fun h ↦ h.chased τ (fun _ _ ↦ rfl) rfl⟩

/-! ### When a pass comes to an end -/

/-- Control gets to a place without an unconditional jump, to a jump to itself, or to a jump of the
list that is on a cycle. -/
def Settles (U : α → Prop) (τ : α → α) (js : List α) (a : α) : Prop :=
  ∃ b, Leads U τ a b ∧ (¬U b ∨ τ b = b ∨ b ∈ js ∧ OnCycle U τ b)

/-- The graph while a pass is going on, after the jumps `js`. -/
structure Passing (U : α → Prop) (τ₀ : α → α) (js : List α) (τ : α → α) : Prop where
  redirected : Redirected U τ₀ τ
  same : ∀ a ∉ js, τ a = τ₀ a
  done : ∀ c ∈ js, OnCycle U τ₀ c → ∃ s, Leads U τ c s ∧ U s ∧ τ s = s

variable {js : List α}

omit [DecidableEq α] in
theorem Passing.onCycle (h : Passing U τ₀ js τ) (hb : OnCycle U τ₀ b)
    (hnot : ∀ c ∈ js, Leads U τ₀ b c → ¬OnCycle U τ₀ c) : OnCycle U τ b := by
  have hsame {c : α} (hbc : Leads U τ₀ b c) : τ c = τ₀ c :=
    h.same c fun hc ↦ hnot c hc hbc (hb.of_leads hbc)
  have hpath {c : α} (hbc : TransGen (Step U τ₀) b c) : TransGen (Step U τ) b c := by
    induction hbc with
    | single hbc => exact .single ⟨hbc.1, (hsame .refl).trans hbc.2⟩
    | tail hbc hcd ih => exact ih.tail ⟨hcd.1, (hsame hbc.to_reflTransGen).trans hcd.2⟩
  exact hpath hb

omit [DecidableEq α] in
theorem Passing.halts_iff (h : Passing U τ₀ js τ) :
    Halts U τ j (τ j) ↔ Settles U τ₀ (js ++ [j]) (τ₀ j) := by
  constructor
  · rintro ⟨b, hjb, hb⟩
    refine ⟨b, (h.redirected.target j).trans (h.redirected.leads_of hjb), ?_⟩
    by_cases hu : U b
    · right
      rcases hb.resolve_left (not_not.2 hu) with hself | rfl
      · by_cases hsame : τ₀ b = b
        · exact .inl hsame
        · have hmem : b ∈ js := by
            by_contra hnot
            exact hsame ((h.same b hnot).symm.trans hself)
          exact .inr ⟨mem_append_left _ hmem, h.redirected.onCycle (.single ⟨hu, hself⟩)⟩
      · exact .inr ⟨mem_append_right _ (mem_singleton_self b),
          h.redirected.onCycle (Leads.onCycle hjb hu)⟩
    · exact .inl hu
  · rintro ⟨b, hjb, hb⟩
    -- a jump to itself, wherever it is, ends the chase
    have hend {s : α} (hs : Leads U τ₀ (τ₀ j) s) (hu : U s) (hself : τ s = s) :
        Halts U τ j (τ j) :=
      ⟨s, h.redirected.leadsTarget j s hs (.inr (.single ⟨hu, hself⟩)), .inr (.inl hself)⟩
    by_cases hu : U b
    · rcases hb.resolve_left (not_not.2 hu) with hself | ⟨hmem, hcycle⟩
      · exact hend hjb hu (h.redirected.self b hself)
      · by_cases hdone : ∃ c ∈ js, Leads U τ₀ b c ∧ OnCycle U τ₀ c
        · obtain ⟨c, hc, hbc, hcycle'⟩ := hdone
          obtain ⟨s, hcs, hus, hself⟩ := h.done c hc hcycle'
          exact hend ((hjb.trans hbc).trans (h.redirected.leads_of hcs)) hus hself
        · have hcycle' := h.onCycle hcycle fun c hc hbc hcc ↦ hdone ⟨c, hc, hbc, hcc⟩
          have hbj : b = j := by
            rcases mem_append.1 hmem with hmem | hmem
            · exact absurd ⟨b, hmem, .refl, hcycle⟩ hdone
            · exact mem_singleton.1 hmem
          exact ⟨b, h.redirected.leadsTarget j b hjb (.inr hcycle'), .inr (.inr hbj)⟩
    · exact ⟨b, h.redirected.leadsTarget j b hjb (.inl hu), .inl hu⟩

theorem Passing.chased (h : Passing U τ₀ js τ) (hj : Chased U j τ τ') :
    Passing U τ₀ (js ++ [j]) τ' := by
  have hred := h.redirected.trans hj.redirected
  refine ⟨hred, fun a ha ↦ ?_, fun c hc hcycle ↦ ?_⟩
  · rw [mem_append, mem_singleton, not_or] at ha
    rw [hj.eq_of_ne ha.2, h.same a ha.1]
  · rcases mem_append.1 hc with hc | hc
    · obtain ⟨s, hcs, hus, hself⟩ := h.done c hc hcycle
      have hself' := hj.redirected.self s hself
      exact ⟨s, hj.redirected.leads c s hcs (.inr (.single ⟨hus, hself'⟩)), hus, hself'⟩
    · obtain rfl := mem_singleton.1 hc
      have hleads : Leads U τ₀ c (τ' c) := .head ⟨hcycle.leads.1, rfl⟩ (hred.target c)
      have hus : U (τ' c) := (hcycle.of_leads hleads).leads.1
      exact ⟨τ' c, .single ⟨hcycle.leads.1, rfl⟩, hus, hj.stops hus⟩

theorem Passing.passed_iff (ks : List α) : ∀ {js : List α} {τ : α → α}, Passing U τ₀ js τ →
    ((∃ τ', Passed U ks τ τ') ↔
      ∀ pre j post, ks = pre ++ j :: post → Settles U τ₀ (js ++ pre ++ [j]) (τ₀ j)) := by
  induction ks with
  | nil =>
    intro js τ _
    exact iff_of_true ⟨τ, .nil⟩ fun pre j post h ↦ by simp at h
  | cons k ks ih =>
    intro js τ h
    constructor
    · rintro ⟨τ', hpassed⟩ pre j post heq
      obtain ⟨hk, hks⟩ : ∃ τ₁, Chased U k τ τ₁ ∧ Passed U ks τ₁ τ' := by
        cases hpassed with
        | cons hk hks => exact ⟨_, hk, hks⟩
      cases pre with
      | nil =>
        obtain ⟨rfl, rfl⟩ := List.cons.inj heq
        rw [append_nil]
        exact h.halts_iff.1 hks.1.halts
      | cons p pre =>
        obtain ⟨rfl, rfl⟩ := List.cons.inj heq
        have hrest := (ih (h.chased hks.1)).1 ⟨τ', hks.2⟩ pre j post rfl
        rwa [append_assoc js, singleton_append] at hrest
    · intro hsettles
      have hfirst := hsettles [] k ks rfl
      rw [append_nil] at hfirst
      obtain ⟨τ₁, hk⟩ := chased_iff.2 (h.halts_iff.2 hfirst)
      obtain ⟨τ', hks⟩ := (ih (h.chased hk)).2 fun pre j post heq ↦ by
        have hrest := hsettles (k :: pre) j post (by rw [heq, cons_append])
        rwa [append_assoc js, singleton_append]
      exact ⟨τ', .cons hk hks⟩

/-- **A pass comes to an end** exactly when every jump leads to a place without an unconditional
jump, to a jump to itself, or to a cycle with a jump that does not come after it. -/
theorem passed_iff (ks : List α) : (∃ τ', Passed U ks τ τ') ↔
    ∀ pre j post, ks = pre ++ j :: post → Settles U τ (pre ++ [j]) (τ j) := by
  have h : Passing U τ [] τ :=
    ⟨.refl U τ, fun _ _ ↦ rfl, fun _ hc ↦ absurd hc not_mem_nil⟩
  simpa using h.passed_iff ks

end JumpGraph
