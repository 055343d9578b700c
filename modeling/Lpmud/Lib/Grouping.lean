import Mathlib.Data.List.Induction
import Mathlib.Data.List.Pairwise
import Mathlib.Data.List.Perm.Basic

/-!
# Grouping by a comparison

Elements are put one after the other into the group whose first element compares with them, the
first such group if there are several, and into a new group in front of the others if there is none.

If the comparison is an equivalence on the elements, apart from reflexivity, which does not matter
for elements that are all different, this gives the classes, each in the original order
(`Grouped.mem_iff`).
-/

universe u

namespace Grouping

open List

variable {α : Type u} (eq : α → α → Bool)

/-- Put an element into the first group whose first element it compares with. -/
def putIn? (a : α) : List (List α) → Option (List (List α))
  | [] => none
  | g :: gs =>
    if g.head?.any (eq a) then some ((g ++ [a]) :: gs) else (putIn? a gs).map (g :: ·)

/-- Put an element into a group, or into a new one. -/
def putIn (gs : List (List α)) (a : α) : List (List α) :=
  (putIn? eq a gs).getD ([a] :: gs)

/-- Nothing in one group compares with anything in another. -/
def Apart (g g' : List α) : Prop :=
  ∀ a ∈ g, ∀ b ∈ g', eq a b = false ∧ eq b a = false

/-- **What groups are**: the elements, once each and in order, with those in one group that
compare. -/
structure Grouped (l : List α) (gs : List (List α)) : Prop where
  ne_nil : ∀ g ∈ gs, g ≠ []
  sublist : ∀ g ∈ gs, g.Sublist l
  perm : gs.flatten.Perm l
  same : ∀ g ∈ gs, ∀ a ∈ g, ∀ b ∈ g, a ≠ b → eq a b = true
  apart : gs.Pairwise (Apart eq)

variable {eq} {l g : List α} {gs gs' : List (List α)} {a b : α}

instance : Std.Symm (Apart eq) where
  symm _ _ h b hb a ha := (h a ha b hb).symm

theorem grouped_nil : Grouped eq [] [] where
  ne_nil := nofun
  sublist := nofun
  perm := .refl _
  same := nofun
  apart := .nil

/-- **Elements are in one group if they compare.** -/
theorem Grouped.mem_iff (h : Grouped eq l gs) (ha : a ∈ l) (hb : b ∈ l) (hne : a ≠ b) :
    (∃ g ∈ gs, a ∈ g ∧ b ∈ g) ↔ eq a b = true := by
  constructor
  · rintro ⟨g, hg, hag, hbg⟩
    exact h.same g hg a hag b hbg hne
  · intro heq
    obtain ⟨g, hg, hag⟩ := mem_flatten.1 (h.perm.mem_iff.2 ha)
    obtain ⟨g', hg', hbg'⟩ := mem_flatten.1 (h.perm.mem_iff.2 hb)
    obtain rfl | hgg' := eq_or_ne g g'
    · exact ⟨g, hg, hag, hbg'⟩
    · -- Elements of different groups do not compare.
      rw [(h.apart.forall hg hg' hgg' a hag b hbg').1] at heq
      exact nomatch heq

/-! ### Putting an element into its group -/

attribute [local simp] putIn? in
theorem putIn?_eq_none : putIn? eq a gs = none ↔ ∀ g ∈ gs, g.head?.any (eq a) = false := by
  induction gs with
  | nil => simp [putIn?]
  | cons g gs ih =>
    rw [putIn?, forall_mem_cons, ← ih]
    split <;> simp_all

theorem putIn?_eq_some (h : putIn? eq a gs = some gs') : ∃ gs₁ g gs₂,
    gs = gs₁ ++ g :: gs₂ ∧ g.head?.any (eq a) = true ∧ gs' = gs₁ ++ (g ++ [a]) :: gs₂ := by
  induction gs generalizing gs' with
  | nil => exact nomatch h
  | cons g gs ih =>
    rw [putIn?] at h
    split at h
    next hg =>
      obtain rfl := Option.some.inj h
      exact ⟨[], g, gs, rfl, hg, rfl⟩
    next =>
      obtain ⟨gs₀, h₀, rfl⟩ := Option.map_eq_some_iff.1 h
      obtain ⟨gs₁, g₁, gs₂, rfl, hg₁, rfl⟩ := ih h₀
      exact ⟨g :: gs₁, g₁, gs₂, rfl, hg₁, rfl⟩

/-- The comparison is symmetric and transitive on the elements of a list. -/
structure EquivOn (eq : α → α → Bool) (l : List α) : Prop where
  symm : ∀ a ∈ l, ∀ b ∈ l, eq a b = true → eq b a = true
  trans : ∀ a ∈ l, ∀ b ∈ l, ∀ c ∈ l, eq a b = true → eq b c = true → eq a c = true

theorem Grouped.eq_head (h : Grouped eq l gs) (heq : EquivOn eq (l ++ [a])) (hg : g ∈ gs)
    (hb : b ∈ g) : eq a b = g.head?.any (eq a) := by
  obtain ⟨c, g', rfl⟩ := exists_cons_of_ne_nil (h.ne_nil g hg)
  have hmem {d : α} (hd : d ∈ c :: g') : d ∈ l ++ [a] :=
    mem_append_left _ ((h.sublist _ hg).subset hd)
  have ha : a ∈ l ++ [a] := mem_append_right _ (mem_singleton_self a)
  have hc : c ∈ c :: g' := mem_cons_self
  show eq a b = eq a c
  obtain rfl | hbc := eq_or_ne b c
  · rfl
  · rw [Bool.eq_iff_iff]
    exact ⟨fun hab ↦ heq.trans a ha b (hmem hb) c (hmem hc) hab (h.same _ hg b hb c hc hbc),
      fun hac ↦ heq.trans a ha c (hmem hc) b (hmem hb) hac (h.same _ hg c hc b hb hbc.symm)⟩

theorem Grouped.apart_of_head (h : Grouped eq l gs) (heq : EquivOn eq (l ++ [a])) (hg : g ∈ gs)
    (hhead : g.head?.any (eq a) = false) (hb : b ∈ g) : eq a b = false ∧ eq b a = false := by
  have hab : eq a b = false := (h.eq_head heq hg hb).trans hhead
  refine ⟨hab, Bool.eq_false_iff.2 fun hba ↦ ?_⟩
  have hmem : b ∈ l ++ [a] := mem_append_left _ ((h.sublist g hg).subset hb)
  rw [heq.symm b hmem a (mem_append_right _ (mem_singleton_self a)) hba] at hab
  exact nomatch hab

theorem Grouped.cons_singleton (h : Grouped eq l gs) (heq : EquivOn eq (l ++ [a]))
    (hgs : ∀ g ∈ gs, g.head?.any (eq a) = false) : Grouped eq (l ++ [a]) ([a] :: gs) where
  ne_nil := forall_mem_cons.2 ⟨cons_ne_nil _ _, h.ne_nil⟩
  sublist := forall_mem_cons.2 ⟨sublist_append_right l [a],
    fun g hg ↦ (h.sublist g hg).trans (sublist_append_left l [a])⟩
  perm := (h.perm.cons a).trans (perm_append_singleton a l).symm
  same := forall_mem_cons.2 ⟨fun b hb c hc hne ↦ absurd
    ((mem_singleton.1 hb).trans (mem_singleton.1 hc).symm) hne, h.same⟩
  apart := pairwise_cons.2 ⟨fun g hg b hb c hc ↦ by
    obtain rfl := mem_singleton.1 hb
    exact h.apart_of_head heq hg (hgs g hg) hc, h.apart⟩

theorem Grouped.append_singleton {gs₁ gs₂ : List (List α)} (h : Grouped eq l (gs₁ ++ g :: gs₂))
    (heq : EquivOn eq (l ++ [a])) (hg : g.head?.any (eq a) = true) :
    Grouped eq (l ++ [a]) (gs₁ ++ (g ++ [a]) :: gs₂) := by
  have hgmem : g ∈ gs₁ ++ g :: gs₂ := mem_append_right _ mem_cons_self
  have ha : a ∈ l ++ [a] := mem_append_right _ (mem_singleton_self a)
  have hmem {b : α} (hb : b ∈ g) : b ∈ l ++ [a] :=
    mem_append_left _ ((h.sublist g hgmem).subset hb)
  have hab {b : α} (hb : b ∈ g) : eq a b = true := (h.eq_head heq hgmem hb).trans hg
  -- What a group that is apart from this one has does not compare with the new element either.
  have hapart {g' : List α} (hg' : g' ∈ gs₁ ++ g :: gs₂) (hgg' : Apart eq g g') :
      Apart eq (g ++ [a]) g' := by
    intro b hb c hc
    obtain hb | hb := mem_append.1 hb
    · exact hgg' b hb c hc
    · obtain rfl := mem_singleton.1 hb
      refine h.apart_of_head heq hg' (Bool.eq_false_iff.2 fun hhead ↦ ?_) hc
      obtain ⟨d, g₀, rfl⟩ := exists_cons_of_ne_nil (h.ne_nil g hgmem)
      have hd : d ∈ d :: g₀ := mem_cons_self
      have hc' := mem_append_left [b] ((h.sublist g' hg').subset hc)
      have hdc := heq.trans d (hmem hd) b ha c hc' (heq.symm b ha d (hmem hd) (hab hd))
        ((h.eq_head heq hg' hc).trans hhead)
      rw [(hgg' d hd c hc).1] at hdc
      exact nomatch hdc
  obtain ⟨h₁, hcons, h₁₂⟩ := pairwise_append.1 h.apart
  obtain ⟨h₂, h₂₂⟩ := pairwise_cons.1 hcons
  refine ⟨fun g' hg' ↦ ?_, fun g' hg' ↦ ?_, ?_, fun g' hg' ↦ ?_, ?_⟩
  · obtain hg' | rfl | hg' := mem_append.1 hg' |>.imp_right mem_cons.1
    · exact h.ne_nil g' (mem_append_left _ hg')
    · exact append_ne_nil_of_right_ne_nil _ (cons_ne_nil _ _)
    · exact h.ne_nil g' (mem_append_right _ (mem_cons_of_mem _ hg'))
  · obtain hg' | rfl | hg' := mem_append.1 hg' |>.imp_right mem_cons.1
    · exact (h.sublist g' (mem_append_left _ hg')).trans (sublist_append_left l [a])
    · exact (h.sublist g hgmem).append (List.Sublist.refl [a])
    · exact (h.sublist g' (mem_append_right _ (mem_cons_of_mem _ hg'))).trans
        (sublist_append_left l [a])
  · have hperm := h.perm
    simp only [flatten_append, flatten_cons, append_assoc] at hperm ⊢
    rw [← append_assoc] at hperm ⊢
    exact (perm_middle.trans (hperm.cons a)).trans (perm_append_singleton a l).symm
  · obtain hg' | rfl | hg' := mem_append.1 hg' |>.imp_right mem_cons.1
    · exact h.same g' (mem_append_left _ hg')
    · intro b hb c hc hne
      obtain hbg | hb := mem_append.1 hb
      · obtain hc | hc := mem_append.1 hc
        · exact h.same g hgmem b hbg c hc hne
        · obtain rfl := mem_singleton.1 hc
          exact heq.symm c ha b (hmem hbg) (hab hbg)
      · obtain rfl := mem_singleton.1 hb
        obtain hc | hc := mem_append.1 hc
        · exact hab hc
        · exact absurd (mem_singleton.1 hc).symm hne
    · exact h.same g' (mem_append_right _ (mem_cons_of_mem _ hg'))
  · refine pairwise_append.2 ⟨h₁, pairwise_cons.2 ⟨fun g' hg' ↦ ?_, h₂₂⟩, ?_⟩
    · exact hapart (mem_append_right _ (mem_cons_of_mem _ hg')) (h₂ g' hg')
    · intro g₁ hg₁ g' hg'
      obtain rfl | hg' := mem_cons.1 hg'
      · exact symm (hapart (mem_append_left _ hg₁) (symm (h₁₂ g₁ hg₁ g mem_cons_self)))
      · exact h₁₂ g₁ hg₁ g' (mem_cons_of_mem _ hg')

/-- **Putting elements into their groups keeps them grouped.** -/
theorem Grouped.putIn (h : Grouped eq l gs) (heq : EquivOn eq (l ++ [a])) :
    Grouped eq (l ++ [a]) (putIn eq gs a) := by
  rw [Grouping.putIn]
  obtain hnone | ⟨gs', hsome⟩ := Option.eq_none_or_eq_some (putIn? eq a gs)
  · rw [hnone]
    exact h.cons_singleton heq (putIn?_eq_none.1 hnone)
  · rw [hsome]
    obtain ⟨gs₁, g, gs₂, rfl, hg, rfl⟩ := putIn?_eq_some hsome
    exact h.append_singleton heq hg

/-- **Grouping**: putting the elements of a list into groups groups them, if the comparison is an
equivalence on them. -/
theorem grouped_foldl (heq : EquivOn eq l) : Grouped eq l (l.foldl (Grouping.putIn eq) []) := by
  induction l using List.reverseRecOn with
  | nil => exact grouped_nil
  | append_singleton l a ih =>
    rw [foldl_append]
    refine (ih ⟨fun b hb c hc ↦ ?_, fun b hb c hc d hd ↦ ?_⟩).putIn heq
    · exact heq.symm b (mem_append_left _ hb) c (mem_append_left _ hc)
    · exact heq.trans b (mem_append_left _ hb) c (mem_append_left _ hc) d
        (mem_append_left _ hd)

end Grouping
