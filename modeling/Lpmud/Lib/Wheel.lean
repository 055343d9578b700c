import Mathlib.Data.List.Sort
import Mathlib.Data.Finset.Basic

/-!
# Timing wheels

Owners with due times, hashed by due time into slots, each slot a list sorted by due time. The
due time of an owner is `key o`, and `none` while it is not in the wheel; an owner that is being
rescheduled is taken out, given another key and put back.

`Wheel.Ok` is what a wheel keeps: every owner with a key is in the slot its key hashes to, in no
other, and once. `unlink` and `link` are the two moves, each with one lemma that says that it
succeeds and how the wheel's keys change. They are partial: a slot that does not contain the
owner, or contains an owner without a key, makes them fail.
-/

namespace Wheel

open Function List Option

variable {ω κ ι : Type*} [DecidableEq ω] [LinearOrder κ] [DecidableEq ι]

/-! ### Slots -/

/-- Take an owner out of its slot. -/
def unlinkSlot (o : ω) (l : List ω) : Option (List ω) :=
  if o ∈ l then some (l.erase o) else none

/-- Put an owner with key `w` in front of the first owner in the slot whose key is not
smaller. -/
def linkSlot (key : ω → Option κ) (o : ω) (w : κ) : List ω → Option (List ω)
  | [] => some [o]
  | p :: l =>
    (key p).bind fun v ↦ if v < w then (linkSlot key o w l).map (p :: ·) else some (o :: p :: l)

/-- One owner comes before another in a slot. -/
def Before (key : ω → Option κ) (o p : ω) : Prop :=
  ∀ v w, key o = some v → key p = some w → v ≤ w

omit [DecidableEq ω] in
/-- Putting an owner into a slot of owners with keys succeeds, and keeps the slot sorted for any
keys that agree with the old ones there. -/
theorem linkSlot_spec (key key' : ω → Option κ) {o : ω} {w : κ} (ho : key' o = some w) :
    ∀ l : List ω, (∀ p ∈ l, ∃ v, key p = some v ∧ key' p = some v) → l.Pairwise (Before key) →
    ∃ l', linkSlot key o w l = some l' ∧ l'.Perm (o :: l) ∧ l'.Pairwise (Before key') := by
  intro l
  induction l with
  | nil => exact fun _ _ ↦ ⟨[o], rfl, .refl _, pairwise_singleton _ _⟩
  | cons p l ih =>
    intro hkeys hsorted
    obtain ⟨v, hv, hv'⟩ := hkeys p mem_cons_self
    have hcons := pairwise_cons.1 hsorted
    have hbefore : ∀ q ∈ l, Before key' p q := by
      intro q hq x y hx hy
      obtain ⟨u, hu, hu'⟩ := hkeys q (mem_cons_of_mem p hq)
      rw [hv'] at hx
      rw [hu'] at hy
      exact hcons.1 q hq x y (hv.trans hx) (hu.trans hy)
    rw [linkSlot, hv, bind_some]
    by_cases hlt : v < w
    · obtain ⟨l', h, hperm, hpair⟩ := ih (fun q hq ↦ hkeys q (mem_cons_of_mem p hq)) hcons.2
      refine ⟨p :: l', by rw [if_pos hlt, h, map_some], ?_, ?_⟩
      · exact (hperm.cons p).trans (List.Perm.swap o p l)
      · refine pairwise_cons.2 ⟨fun q hq ↦ ?_, hpair⟩
        rcases mem_cons.1 (hperm.mem_iff.1 hq) with rfl | hq
        · intro x y hx hy
          cases hv'.symm.trans hx
          cases ho.symm.trans hy
          exact hlt.le
        · exact hbefore q hq
    · refine ⟨o :: p :: l, if_neg hlt, .refl _, pairwise_cons.2 ⟨fun q hq ↦ ?_, ?_⟩⟩
      · intro x y hx hy
        cases ho.symm.trans hx
        have hvy : v ≤ y := by
          rcases mem_cons.1 hq with rfl | hq
          · exact (some.inj (hv'.symm.trans hy)).le
          · exact hbefore q hq v y hv' hy
        exact (not_lt.1 hlt).trans hvy
      · refine pairwise_cons.2 ⟨hbefore, ?_⟩
        refine hcons.2.imp_of_mem fun {q r} hq hr hqr x y hx hy ↦ ?_
        obtain ⟨u, hu, hu'⟩ := hkeys q (mem_cons_of_mem p hq)
        obtain ⟨u', hur, hur'⟩ := hkeys r (mem_cons_of_mem p hr)
        exact hqr x y (hu.trans (hu'.symm.trans hx)) (hur.trans (hur'.symm.trans hy))

/-! ### The wheel -/

/-- **The wheel is in order**: an owner is in exactly the slot of its key, once, and every slot is
sorted by key. -/
structure Ok (hash : κ → ι) (key : ω → Option κ) (slots : ι → List ω) : Prop where
  mem : ∀ o k, o ∈ slots k ↔ ∃ w, key o = some w ∧ hash w = k
  nodup : ∀ k, (slots k).Nodup
  sorted : ∀ k, (slots k).Pairwise (Before key)

/-- Take an owner out of slot `k`. -/
def unlink (slots : ι → List ω) (o : ω) (k : ι) : Option (ι → List ω) :=
  (unlinkSlot o (slots k)).map (update slots k)

/-- Put an owner with key `w` into its slot. -/
def link (hash : κ → ι) (key : ω → Option κ) (slots : ι → List ω) (o : ω) (w : κ) :
    Option (ι → List ω) :=
  (linkSlot key o w (slots (hash w))).map (update slots (hash w))

variable {hash : κ → ι} {key : ω → Option κ} {slots : ι → List ω}

omit [DecidableEq ω] [LinearOrder κ] [DecidableEq ι] in
theorem Ok.empty [LinearOrder κ] (hkey : ∀ o, key o = none) : Ok hash key fun _ ↦ ([] : List ω) :=
  ⟨fun o k ↦ by simp [hkey], fun _ ↦ nodup_nil, fun _ ↦ .nil⟩

omit [DecidableEq ω] [DecidableEq ι] in
theorem Ok.congr {key' : ω → Option κ} (h : Ok hash key slots) (hkey : ∀ o, key' o = key o) :
    Ok hash key' slots := by
  obtain rfl : key' = key := funext hkey
  exact h

/-- **Taking an owner out** succeeds where its key says, and leaves it without a key. -/
theorem Ok.unlink (h : Ok hash key slots) {o : ω} {w : κ} (ho : key o = some w) :
    ∃ slots', unlink slots o (hash w) = some slots' ∧
      Ok hash (update key o none) slots' := by
  have hmem : o ∈ slots (hash w) := (h.mem o _).2 ⟨w, ho, rfl⟩
  refine ⟨_, by rw [Wheel.unlink, unlinkSlot, if_pos hmem, map_some], ?_, ?_, ?_⟩
  · intro p k
    by_cases hp : p = o
    · subst hp
      simp only [update_self, reduceCtorEq, false_and, exists_false, iff_false]
      by_cases hk : k = hash w
      · subst hk
        simpa using (h.nodup _).not_mem_erase
      · rw [update_of_ne hk, h.mem]
        rintro ⟨w', hw', rfl⟩
        exact hk (by rw [some.inj (ho.symm.trans hw')])
    · rw [update_of_ne hp, ← h.mem]
      by_cases hk : k = hash w
      · subst hk
        simp [mem_erase_of_ne hp]
      · rw [update_of_ne hk]
  · intro k
    by_cases hk : k = hash w
    · subst hk
      simpa using (h.nodup _).erase o
    · rw [update_of_ne hk]
      exact h.nodup k
  · have himp : ∀ p q, Before key p q → Before (update key o none) p q := by
      intro p q hpq x y hx hy
      have hne {r : ω} {z : κ} (hz : update key o none r = some z) : r ≠ o := by
        rintro rfl
        simp at hz
      rw [update_of_ne (hne hx)] at hx
      rw [update_of_ne (hne hy)] at hy
      exact hpq x y hx hy
    intro k
    by_cases hk : k = hash w
    · subst hk
      rw [update_self]
      exact ((h.sorted _).sublist erase_sublist).imp (himp _ _)
    · rw [update_of_ne hk]
      exact (h.sorted k).imp (himp _ _)

/-- **Putting an owner in** that is not in the wheel succeeds, and gives it its key. The keys
looked up on the way need to be right only for the owners that are in the wheel. -/
theorem Ok.link (h : Ok hash key slots) {o : ω} (w : κ) (ho : key o = none)
    {look : ω → Option κ} (hlook : ∀ p v, key p = some v → look p = some v) :
    ∃ slots', link hash look slots o w = some slots' ∧
      Ok hash (update key o (some w)) slots' := by
  have hnot : ∀ k, o ∉ slots k := by
    intro k hk
    obtain ⟨v, hv, -⟩ := (h.mem o k).1 hk
    simp [ho] at hv
  have hne {p : ω} {k : ι} (hp : p ∈ slots k) : p ≠ o := fun hpo ↦ hnot k (hpo ▸ hp)
  have hkeys : ∀ k, ∀ p ∈ slots k, ∃ v, look p = some v ∧
      update key o (some w) p = some v := by
    intro k p hp
    obtain ⟨v, hv, -⟩ := (h.mem p k).1 hp
    exact ⟨v, hlook p v hv, by rw [update_of_ne (hne hp), hv]⟩
  have hsorted : ∀ k, (slots k).Pairwise (Before look) := by
    intro k
    refine (h.sorted k).imp_of_mem fun {p q} hp hq hpq x y hx hy ↦ ?_
    obtain ⟨v, hv, -⟩ := (h.mem p k).1 hp
    obtain ⟨v', hv', -⟩ := (h.mem q k).1 hq
    exact hpq x y (hv.trans ((hlook p v hv).symm.trans hx))
      (hv'.trans ((hlook q v' hv').symm.trans hy))
  obtain ⟨l, hl, hperm, hpair⟩ := linkSlot_spec look (update key o (some w))
    (update_self o (some w) key) _ (hkeys (hash w)) (hsorted _)
  refine ⟨_, by rw [Wheel.link, hl, map_some], ?_, ?_, ?_⟩
  · intro p k
    by_cases hp : p = o
    · subst hp
      simp only [update_self, some.injEq, exists_eq_left']
      by_cases hk : hash w = k
      · subst hk
        simp [hperm.mem_iff]
      · rw [update_of_ne (Ne.symm hk)]
        exact iff_of_false (hnot k) hk
    · rw [update_of_ne hp, ← h.mem]
      by_cases hk : k = hash w
      · subst hk
        simp [hperm.mem_iff, hp]
      · rw [update_of_ne hk]
  · intro k
    by_cases hk : k = hash w
    · subst hk
      rw [update_self]
      exact hperm.nodup_iff.2 (nodup_cons.2 ⟨hnot _, h.nodup _⟩)
    · rw [update_of_ne hk]
      exact h.nodup k
  · intro k
    by_cases hk : k = hash w
    · subst hk
      rw [update_self]
      exact hpair
    · rw [update_of_ne hk]
      refine (h.sorted k).imp_of_mem fun {p q} hp hq hpq x y hx hy ↦ ?_
      rw [update_of_ne (hne hp)] at hx
      rw [update_of_ne (hne hq)] at hy
      exact hpq x y hx hy

theorem unlink_head {o : ω} {k : ι} {l : List ω} (h : slots k = o :: l) :
    unlink slots o k = some (update slots k l) := by
  rw [unlink, unlinkSlot, h, if_pos mem_cons_self, erase_cons_head, map_some]

omit [DecidableEq ω] [DecidableEq ι] in
theorem Ok.head_le (h : Ok hash key slots) {o p : ω} {l : List ω} {v w : κ}
    (hslot : slots (hash w) = o :: l) (ho : key o = some v) (hp : key p = some w) : v ≤ w := by
  have hmem : p ∈ slots (hash w) := (h.mem p _).2 ⟨w, hp, rfl⟩
  have hsorted := h.sorted (hash w)
  rw [hslot] at hmem hsorted
  rcases mem_cons.1 hmem with rfl | hmem
  · exact (some.inj (ho.symm.trans hp)).le
  · exact (pairwise_cons.1 hsorted).1 p hmem v w ho hp

omit [DecidableEq ω] [DecidableEq ι] in
theorem Ok.exists_head (h : Ok hash key slots) {p : ω} {w : κ} (hp : key p = some w) :
    ∃ o l v, slots (hash w) = o :: l ∧ key o = some v ∧ v ≤ w := by
  have hmem : p ∈ slots (hash w) := (h.mem p _).2 ⟨w, hp, rfl⟩
  obtain ⟨o, l, hslot⟩ := exists_cons_of_ne_nil (ne_nil_of_mem hmem)
  obtain ⟨v, ho, -⟩ := (h.mem o (hash w)).1 (hslot ▸ mem_cons_self)
  exact ⟨o, l, v, hslot, ho, h.head_le hslot ho hp⟩

end Wheel
