import Mathlib.Algebra.Order.Group.Nat
import Mathlib.Data.List.Nodup

/-!
# A waiting line

Who arrives takes the last place. When there is room for some, as many are let in from the front,
or all if there are fewer. Who leaves, or is let in out of turn, gives up the place, and a successor
may take it over; the others keep theirs, in the order of arrival. Places are counted from 1.

`step` takes the line through what happens, and refuses what is not fair: that somebody is let in
while another is in front, that fewer are let in than there was room for, or that somebody is told
a wrong place. So `run` says of a whole history that it is fair, and which line it leads to.
-/

universe u

/-- What happens at a waiting line. -/
inductive Happening (α : Type u) where
  /-- Somebody arrives, and is told the place. -/
  | arrive (a : α) (place : ℕ)
  /-- A successor takes over a place. -/
  | takeOver (old new : α)
  | leave (a : α)
  /-- There is room for `n`, who are let in next. -/
  | opens (n : ℕ)
  /-- The first is let in. -/
  | letIn (a : α)
  /-- Somebody is let in out of turn. -/
  | favour (a : α)
  /-- Somebody is told the place. -/
  | told (a : α) (place : ℤ)
  deriving DecidableEq

/-- A waiting line: who waits, from the front, and how many are yet to be let in. -/
structure WaitingLine (α : Type u) where
  places : List α := []
  owed : ℕ := 0
  deriving DecidableEq

namespace WaitingLine

open List Option

variable {α : Type u} [DecidableEq α]

/-- The line after what happens, if that is fair. -/
def step (l : WaitingLine α) : Happening α → Option (WaitingLine α)
  | .arrive a place =>
    if l.owed = 0 ∧ a ∉ l.places ∧ place = l.places.length + 1 then
      some { l with places := l.places ++ [a] }
    else none
  | .takeOver old new =>
    if l.owed = 0 ∧ old ∈ l.places ∧ new ∉ l.places then
      some { l with places := l.places.map fun a ↦ if a = old then new else a }
    else none
  | .leave a =>
    some { places := l.places.erase a, owed := min l.owed (l.places.erase a).length }
  | .opens n =>
    if l.owed = 0 then some { l with owed := min n l.places.length } else none
  | .letIn a =>
    if 0 < l.owed ∧ l.places.head? = some a then some ⟨l.places.tail, l.owed - 1⟩ else none
  | .favour a =>
    if l.owed = 0 ∧ a ∈ l.places then some { l with places := l.places.erase a } else none
  | .told a place =>
    if l.owed = 0 ∧ 0 < place ∧ l.places[(place - 1).toNat]? = some a then some l else none

/-- The line after all that happens. -/
def run (l : WaitingLine α) (hs : List (Happening α)) : Option (WaitingLine α) :=
  hs.foldlM step l

variable {l l' : WaitingLine α} {a : α}

@[simp]
theorem run_nil : l.run [] = some l := rfl

theorem run_append (hs hs' : List (Happening α)) :
    l.run (hs ++ hs') = (l.run hs).bind fun l ↦ l.run hs' :=
  foldlM_append

theorem run_cons (h : Happening α) (hs : List (Happening α)) :
    l.run (h :: hs) = (l.step h).bind fun l ↦ l.run hs :=
  foldlM_cons

theorem run_snoc {l₀ : WaitingLine α} {hs : List (Happening α)} {h : Happening α}
    (hrun : l₀.run hs = some l) (hstep : l.step h = some l') : l₀.run (hs ++ [h]) = some l' := by
  rw [run_append, hrun, bind_some, run_cons, hstep, bind_some, run_nil]

/-! ### What is fair -/

theorem step_arrive (howed : l.owed = 0) (ha : a ∉ l.places) :
    l.step (.arrive a (l.places.length + 1)) = some { l with places := l.places ++ [a] } :=
  if_pos ⟨howed, ha, rfl⟩

theorem step_leave_of_notMem (ha : a ∉ l.places) (howed : l.owed ≤ l.places.length) :
    l.step (.leave a) = some l := by
  show some (⟨l.places.erase a, min l.owed (l.places.erase a).length⟩ : WaitingLine α) = some l
  rw [erase_of_not_mem ha, min_eq_left howed]

theorem step_leave_of_idle (howed : l.owed = 0) :
    l.step (.leave a) = some { l with places := l.places.erase a } := by
  show some (⟨l.places.erase a, min l.owed (l.places.erase a).length⟩ : WaitingLine α) = _
  rw [howed, Nat.zero_min]

theorem step_opens (n : ℕ) (howed : l.owed = 0) :
    l.step (.opens n) = some { l with owed := min n l.places.length } :=
  if_pos howed

theorem step_letIn {rest : List α} {n : ℕ} :
    (⟨a :: rest, n + 1⟩ : WaitingLine α).step (.letIn a) = some ⟨rest, n⟩ :=
  if_pos ⟨n.succ_pos, rfl⟩

theorem step_favour (howed : l.owed = 0) (ha : a ∈ l.places) :
    l.step (.favour a) = some { l with places := l.places.erase a } :=
  if_pos ⟨howed, ha⟩

theorem run_told (howed : l.owed = 0) {hs : List (Happening α)}
    (hs_told : ∀ h ∈ hs, ∃ a, ∃ i : ℕ, h = .told a (i + 1) ∧ l.places[i]? = some a) :
    l.run hs = some l := by
  induction hs with
  | nil => rfl
  | cons h hs ih =>
    obtain ⟨a, i, rfl, hi⟩ := hs_told h mem_cons_self
    have hstep : l.step (.told a (i + 1)) = some l :=
      if_pos ⟨howed, by omega, by rwa [Int.add_sub_cancel, Int.toNat_natCast]⟩
    rw [run_cons, hstep, bind_some]
    exact ih fun h' h'_mem ↦ hs_told h' (mem_cons_of_mem _ h'_mem)

/-! ### One place each -/

theorem nodup_map_replace {xs : List α} {old new : α} (hxs : xs.Nodup) (hnew : new ∉ xs) :
    (xs.map fun x ↦ if x = old then new else x).Nodup := by
  refine hxs.map_on fun x hx y hy hxy ↦ ?_
  split_ifs at hxy with hx' hy' hy'
  · exact hx'.trans hy'.symm
  · exact absurd (hxy ▸ hy) hnew
  · exact absurd (hxy ▸ hx) hnew
  · exact hxy

theorem nodup_step {h : Happening α} (hl : l.places.Nodup) (hstep : l.step h = some l') :
    l'.places.Nodup := by
  cases h with
  | arrive a place =>
    obtain ⟨⟨-, ha, -⟩, hl'⟩ := ite_none_right_eq_some.1 hstep
    rw [← some_inj.1 hl']
    exact nodup_append.2 ⟨hl, nodup_singleton a, fun x hx y hy ↦ by
      rintro rfl
      exact ha (mem_singleton.1 hy ▸ hx)⟩
  | takeOver old new =>
    obtain ⟨⟨-, -, hnew⟩, hl'⟩ := ite_none_right_eq_some.1 hstep
    rw [← some_inj.1 hl']
    exact nodup_map_replace hl hnew
  | leave a =>
    rw [← some_inj.1 hstep]
    exact hl.erase a
  | opens n =>
    obtain ⟨-, hl'⟩ := ite_none_right_eq_some.1 hstep
    rwa [← some_inj.1 hl']
  | letIn a =>
    obtain ⟨-, hl'⟩ := ite_none_right_eq_some.1 hstep
    rw [← some_inj.1 hl']
    exact hl.tail
  | favour a =>
    obtain ⟨-, hl'⟩ := ite_none_right_eq_some.1 hstep
    rw [← some_inj.1 hl']
    exact hl.erase a
  | told a place =>
    obtain ⟨-, hl'⟩ := ite_none_right_eq_some.1 hstep
    rwa [← some_inj.1 hl']

/-- **Nobody has two places**, whatever happens. -/
theorem nodup_run {hs : List (Happening α)} (hl : l.places.Nodup) (hrun : l.run hs = some l') :
    l'.places.Nodup := by
  induction hs generalizing l with
  | nil => exact some_inj.1 hrun ▸ hl
  | cons h hs ih =>
    rw [run_cons] at hrun
    obtain ⟨l₁, hstep, hrun⟩ := bind_eq_some_iff.1 hrun
    exact ih (nodup_step hl hstep) hrun

end WaitingLine
