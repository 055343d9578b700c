import Lpmud.Secure.LoginQueue
import Mathlib.Data.List.InsertIdx

/-!
# Who waits in the login queue keeps the place

`Fair` compares the queue with a `WaitingLine`: the history is fair, and leads to the line of those
who wait in `q`; between the operations nobody is yet to be let in, and `query_position` counts the
places.

The operations use positions in `q` over again after they have called an object, and `q` may have
changed in the call. `enqueue` ends the connection of a login object in the queue, so the object is
taken out of `q` before its place is given away (`not_fair`). `Calm` excludes this, and other events
by which a position in use changes; the other runs are fair (`queue_fair`).
-/

namespace Lpmud.LoginQueue

open List
open Option (bind_some ite_none_right_eq_some map_eq_some_iff some_inj)

variable {m : Mud} {s s' : State} {l : WaitingLine Obj} {q : List (Option Obj)} {p : List Obj}
  {a ob : Obj}

namespace State

variable (s)

/-- Those of some entries who are connected. -/
def seated (q : List (Option Obj)) : List Obj :=
  q.reduceOption.filter (· ∈ s.users)

/-- Those who wait. Whom `dequeue` or `set_vip` has called does not wait any more, and `enqueue` is
about to give a place to a new object. -/
def waiting : List Obj :=
  s.seated (match s.calls with
    | [] => s.q
    | .enqueue pos ob :: _ => s.q.insertIdx pos (some ob)
    | .dequeue index _ _ _ :: _ => s.q.drop (index + 1)
    | .setVip pos _ :: _ => s.q.eraseIdx pos)

/-- The entries by the positions of which the suspended operation goes on. The last pass of
`dequeue` needs none when all are let in. -/
def inUse : List (Option Obj) :=
  match s.calls with
  | [] => []
  | .enqueue _ _ :: _ => s.q
  | .dequeue index size free _ :: _ => if index + 1 = size ∧ size ≤ free then [] else s.q
  | .setVip pos _ :: _ => s.q.take (pos + 1)

end State

/-- The queue is a fair line. -/
structure Fair (m : Mud) (s : State) (l : WaitingLine Obj) : Prop where
  history : WaitingLine.run {} s.log = some l
  waiting : s.waiting = l.places
  once : l.places.Nodup
  done : s.calls = [] → l.owed = 0
  position : s.calls = [] →
    ∀ (i : ℕ) (ob : Obj), l.places[i]? = some ob → s.queryPosition m (m.plName ob) = i

/-- A call of `dequeue` while an operation is suspended takes no entry in use out of `q`, and lets
nobody in. -/
def Undisturbed (m : Mud) (s : State) : Prop :=
  (∀ ob ∈ s.inUse, s.interactive ob) ∧
    (s.validateQueue.slotsFree m m.security ≤ 0 ∨ s.validateQueue.q = [])

/-- The event does not change a position that is in use: no player is in the queue who enqueues, and
while an operation is suspended `Undisturbed` holds of the calls of `dequeue`. -/
def Calm (m : Mud) (s : State) : Event → Prop
  | .enqueue ob => m.isLogin ob → s.validateQueue.memberArray m (m.plName ob) = none
  | .close ob => s.calls ≠ [] → Undisturbed m { s with users := s.users.erase ob }
  | .dequeue _ => s.calls ≠ [] → Undisturbed m s
  | .query => ∀ ob ∈ s.inUse, s.interactive ob
  | _ => True

/-! ### Entries -/

theorem reduceOption_map_some (p : List Obj) : (p.map some).reduceOption = p := by
  rw [List.reduceOption, filterMap_map, Function.id_comp, filterMap_some]

theorem idxOf?_of_nodup {α : Type} [BEq α] [LawfulBEq α] {xs : List α} (hxs : xs.Nodup) {x : α}
    {i : ℕ} (hi : xs[i]? = some x) : xs.idxOf? x = some i := by
  obtain ⟨hlt, rfl⟩ := List.getElem?_eq_some_iff.1 hi
  exact List.idxOf?_eq_some_iff.2
    ⟨hlt, rfl, fun j hj heq ↦ hj.ne (hxs.getElem_inj_iff.1 heq)⟩

theorem reduceOption_set_none {pos : ℕ} :
    (q.set pos none).reduceOption = (q.eraseIdx pos).reduceOption := by
  induction q generalizing pos with
  | nil => rfl
  | cons ob q ih =>
    obtain _ | pos := pos
    · rfl
    · obtain _ | a := ob
      · exact ih
      · rw [set_cons_succ, eraseIdx_cons_succ, reduceOption_cons_of_some,
          reduceOption_cons_of_some, ih]

namespace State

theorem interactive_some : s.interactive (some a) = decide (a ∈ s.users) := rfl

theorem interactive_iff : s.interactive (some a) = true ↔ a ∈ s.users :=
  decide_eq_true_iff

theorem mem_seated : a ∈ s.seated q ↔ some a ∈ q ∧ a ∈ s.users := by
  rw [seated, mem_filter, reduceOption_mem_iff, decide_eq_true_iff]

theorem seated_congr (h : ∀ a, some a ∈ q → (a ∈ s.users ↔ a ∈ s'.users)) :
    s.seated q = s'.seated q :=
  filter_congr fun a ha ↦ decide_eq_decide.2 (h a (reduceOption_mem_iff.1 ha))

theorem seated_map_some (hp : ∀ a ∈ p, a ∈ s.users) : s.seated (p.map some) = p := by
  rw [seated, reduceOption_map_some, filter_eq_self]
  exact fun a ha ↦ decide_eq_true (hp a ha)

theorem seated_append {q q' : List (Option Obj)} :
    s.seated (q ++ q') = s.seated q ++ s.seated q' := by
  rw [seated, reduceOption_append, filter_append]
  rfl

theorem filter_eq : (q.filter Option.isSome).filter s.interactive = (s.seated q).map some := by
  induction q with
  | nil => rfl
  | cons ob q ih =>
    obtain _ | a := ob
    · exact ih
    · rw [filter_cons_of_pos rfl, seated, reduceOption_cons_of_some, filter_cons,
        filter_cons, interactive_some, ih]
      split_ifs <;> rfl

theorem validateQueue_q : s.validateQueue.q = (s.seated s.q).map some :=
  filter_eq

theorem seated_filter :
    s.seated ((q.filter Option.isSome).filter s.interactive) = s.seated q := by
  rw [filter_eq]
  exact seated_map_some fun a ha ↦ (mem_seated.1 ha).2

theorem seated_erase (husers : s.users.Nodup) (hq : (s.seated q).Nodup) :
    ({ s with users := s.users.erase a } : State).seated q = (s.seated q).erase a := by
  rw [hq.erase_eq_filter, seated, seated, filter_filter]
  refine filter_congr fun b _ ↦ ?_
  rw [Bool.eq_iff_iff, decide_eq_true_iff, husers.mem_erase_iff]
  simp

theorem validateQueue_sublist : s.validateQueue.q.Sublist s.q :=
  filter_sublist.trans filter_sublist

theorem filter_interactive (h : ∀ ob ∈ q, s.interactive ob) :
    (q.filter Option.isSome).filter s.interactive = q := by
  rw [filter_filter, filter_eq_self]
  intro ob hob
  obtain ⟨a, rfl, -⟩ := (Option.any_eq_true _ _).1 (h ob hob)
  exact (Bool.and_true _).trans (h _ hob)

theorem validateQueue_take {n : ℕ} (h : ∀ ob ∈ s.q.take n, s.interactive ob) :
    s.validateQueue.q =
      s.q.take n ++ ((s.q.drop n).filter Option.isSome).filter s.interactive := by
  show (s.q.filter Option.isSome).filter s.interactive = _
  conv_lhs => rw [← take_append_drop n s.q]
  rw [filter_append, filter_append, filter_interactive h]

theorem inUse_dequeue {index size : ℕ} {free : ℤ} {calls : List Frame}
    (hcalls : s.calls = .dequeue index size free ob :: calls) (hlast : index + 1 ≠ size) :
    s.inUse = s.q := by
  rw [inUse, hcalls]
  exact if_neg fun h ↦ hlast h.1

theorem inUse_setVip {pos : ℕ} {calls : List Frame} (hcalls : s.calls = .setVip pos ob :: calls) :
    s.inUse = s.q.take (pos + 1) := by
  rw [inUse, hcalls]

/-- What the suspended operation has still to do, with the line `l`. -/
inductive Suspended (s : State) (l : WaitingLine Obj) : List Frame → Prop where
  | idle : l.owed = 0 → s.seated s.q = l.places → Suspended s l []
  | dequeue {index size : ℕ} {free : ℤ} {ob : Obj} :
    (index + 1 : ℕ) ≤ free → l.places.length + (index + 1) = size →
    l.owed = min free.toNat size - (index + 1) →
    s.q.drop (index + 1) = l.places.map some → (∀ a ∈ l.places, a ∈ s.users) → ob ∉ l.places →
    Suspended s l [.dequeue index size free ob]
  | setVip {pos : ℕ} {ob : Obj} :
    l.owed = 0 → pos < s.q.length → s.seated (s.q.eraseIdx pos) = l.places → ob ∉ l.places →
    Suspended s l [.setVip pos ob]

end State

/-! ### The invariant -/

/-- The history leads to the line `l`, and `q` consists of login objects of different players. -/
structure Sound (m : Mud) (s : State) (l : WaitingLine Obj) : Prop where
  history : WaitingLine.run {} s.log = some l
  users : s.users.Nodup
  names : (s.q.reduceOption.map m.plName).Nodup
  isLogin : ∀ ob, some ob ∈ s.q → m.isLogin ob

/-- Besides, at most one operation is suspended, in a state that belongs to the line. -/
structure Inv (m : Mud) (s : State) (l : WaitingLine Obj) : Prop extends Sound m s l where
  suspended : s.Suspended l s.calls

namespace Sound

theorem once (h : Sound m s l) : l.places.Nodup :=
  WaitingLine.nodup_run nodup_nil h.history

/-- Entries are taken out of `q`. -/
theorem of_sublist (h : Sound m s l) (hq : q.Sublist s.q) : Sound m { s with q := q } l where
  history := h.history
  users := h.users
  names := h.names.sublist ((hq.filterMap id).map m.plName)
  isLogin ob hob := h.isLogin ob (hq.subset hob)

theorem note (h : Sound m s l) {e : Happening Obj} {l' : WaitingLine Obj}
    (hstep : l.step e = some l') : Sound m (s.note e) l' :=
  { h with history := WaitingLine.run_snoc h.history hstep }

theorem idle (h : Sound m s l) (hcalls : s.calls = []) (howed : l.owed = 0)
    (hseated : s.seated s.q = l.places) : Inv m s l :=
  ⟨h, hcalls.symm ▸ .idle howed hseated⟩

end Sound

namespace Inv

theorem init : Inv m {} {} :=
  ⟨⟨rfl, nodup_nil, nodup_nil, fun _ h ↦ absurd h not_mem_nil⟩, .idle rfl rfl⟩

/-- Between the operations the line is what is connected in `q`. -/
theorem of_idle (h : Inv m s l) (hcalls : s.calls = []) :
    l.owed = 0 ∧ s.seated s.q = l.places := by
  have hsus := h.suspended
  rw [hcalls] at hsus
  cases hsus with
  | idle howed hseated => exact ⟨howed, hseated⟩

theorem q_of_idle (h : Inv m s l) (hcalls : s.calls = []) :
    s.validateQueue.q = l.places.map some := by
  rw [State.validateQueue_q, (h.of_idle hcalls).2]

theorem mem_users_of_idle (h : Inv m s l) (hcalls : s.calls = []) (ha : a ∈ l.places) :
    a ∈ s.users :=
  (State.mem_seated.1 ((h.of_idle hcalls).2 ▸ ha)).2

/-- `validate_queue`, if no entry in use is taken out. -/
theorem validate (h : Inv m s l) (huse : ∀ ob ∈ s.inUse, s.interactive ob) :
    Inv m s.validateQueue l := by
  have hsub : s.validateQueue.q.Sublist s.q := State.validateQueue_sublist
  refine ⟨h.toSound.of_sublist hsub, ?_⟩
  obtain ⟨calls, hcalls⟩ : ∃ calls, s.calls = calls := ⟨_, rfl⟩
  have hsus := h.suspended
  show State.Suspended _ l s.calls
  rw [hcalls] at hsus ⊢
  cases hsus with
  | idle howed hseated => exact .idle howed (State.seated_filter.trans hseated)
  | @dequeue index size free ob hfree hsize howed hdrop hin hob =>
    refine .dequeue hfree hsize howed ?_ hin hob
    obtain hlast | hlast := eq_or_ne (index + 1) size
    · -- The last pass: nobody is left in the line, nor behind the position in `q`.
      have hnil : l.places = [] := length_eq_zero_iff.1 (by omega)
      rw [hnil, map_nil, drop_eq_nil_iff] at hdrop ⊢
      exact hsub.length_le.trans hdrop
    · rw [State.inUse_dequeue hcalls hlast] at huse
      rwa [show s.validateQueue.q = s.q from State.filter_interactive huse]
  | @setVip pos ob howed hpos hseated hob =>
    rw [State.inUse_setVip hcalls] at huse
    have hlen : pos < (s.q.take (pos + 1)).length := by
      rw [length_take]
      omega
    have hq := State.validateQueue_take huse
    refine .setVip howed ?_ ?_ hob
    · rw [hq, length_append]
      omega
    · rw [hq, eraseIdx_append_of_lt_length hlen, State.seated_append]
      show s.seated _ ++ s.seated _ = l.places
      rw [State.seated_filter, ← State.seated_append, ← eraseIdx_append_of_lt_length hlen,
        take_append_drop, hseated]

theorem leave (h : Inv m s l)
    (huse : ∀ ob ∈ s.inUse, ({ s with users := s.users.erase a } : State).interactive ob) :
    ∃ l', Inv m { s.note (.leave a) with users := s.users.erase a } l' := by
  have hsus := h.suspended
  suffices ∃ l', l.step (.leave a) = some l' ∧
      ({ s.note (.leave a) with users := s.users.erase a } : State).Suspended l' s.calls by
    obtain ⟨l', hstep, hsus'⟩ := this
    exact ⟨l', { h.toSound.note hstep with users := h.users.erase a }, hsus'⟩
  obtain ⟨calls, hcalls⟩ : ∃ calls, s.calls = calls := ⟨_, rfl⟩
  rw [hcalls] at hsus ⊢
  cases hsus with
  | idle howed hseated =>
    refine ⟨_, WaitingLine.step_leave_of_idle howed, .idle howed ?_⟩
    show State.seated _ s.q = l.places.erase a
    rw [← hseated]
    exact State.seated_erase h.users (hseated ▸ h.once)
  | @dequeue index size free ob hfree hsize howed hdrop hin hob =>
    have hin' : ∀ b ∈ l.places, b ∈ s.users.erase a := by
      intro b hb
      have hlen := length_pos_of_mem hb
      rw [State.inUse_dequeue hcalls (by omega)] at huse
      have hmem : some b ∈ s.q := mem_of_mem_drop (hdrop ▸ mem_map_of_mem hb)
      exact State.interactive_iff.1 (huse _ hmem)
    have ha : a ∉ l.places := fun ha ↦ h.users.not_mem_erase (hin' a ha)
    exact ⟨l, WaitingLine.step_leave_of_notMem ha (by omega),
      .dequeue hfree hsize howed hdrop hin' hob⟩
  | @setVip pos ob howed hpos hseated hob =>
    refine ⟨_, WaitingLine.step_leave_of_idle howed,
      .setVip howed hpos ?_ fun hmem ↦ hob (mem_of_mem_erase hmem)⟩
    show State.seated _ (s.q.eraseIdx pos) = l.places.erase a
    rw [← hseated]
    exact State.seated_erase h.users (hseated ▸ h.once)

end Inv

/-! ### The loop of `dequeue` -/

theorem drop_cons {k : ℕ} (h : q.drop k = some a :: p.map some) :
    q[k]? = some (some a) ∧ q.drop (k + 1) = p.map some := by
  rw [← Nat.add_zero k, ← List.getElem?_drop, h]
  refine ⟨rfl, ?_⟩
  rw [Nat.add_zero, ← drop_drop, h]
  rfl

attribute [local simp] State.advanceLoop in
theorem advanceLoop_told {size : ℕ} {free : ℤ} (hp : p.length ≤ size)
    (hfree : free ≤ (size - p.length : ℕ)) (hdrop : s.q.drop (size - p.length) = p.map some) :
    s.advanceLoop size free p.length =
      { s with
        q := if size > free then s.q.drop free.toNat else []
        log := s.log ++ (p.zipIdx (size - p.length)).map fun x ↦
          .told x.1 (x.2 - free + 1) } := by
  induction p generalizing s with
  | nil =>
    rw [zipIdx_nil, map_nil, append_nil]
    rfl
  | cons a p ih =>
    rw [length_cons] at hp hfree hdrop ⊢
    obtain ⟨hget, hdrop'⟩ := drop_cons hdrop
    have hnext : size - (p.length + 1) + 1 = size - p.length := by omega
    rw [State.advanceLoop]
    dsimp only
    rw [hget]
    dsimp only
    rw [if_neg (by omega), ih (by omega) (by omega) (hnext ▸ hdrop'), zipIdx_cons, hnext,
      map_cons]
    show State.mk _ _ _ _ _ = State.mk _ _ _ _ _
    rw [State.note, append_assoc]
    rfl

namespace Sound

theorem advance_end {owed size : ℕ} {free : ℤ} (h : Sound m s ⟨[], owed⟩) (hcalls : s.calls = [])
    (hfree : size ≤ free) (howed : owed = 0) : Inv m (s.advanceLoop size free 0) ⟨[], owed⟩ := by
  rw [State.advanceLoop, if_neg (by omega)]
  exact (h.of_sublist (nil_sublist _)).idle hcalls howed rfl

/-- The next is let in, and `dequeue` waits. -/
theorem advance_next {rest : List Obj} {owed next size : ℕ} {free : ℤ}
    (h : Sound m s ⟨a :: rest, owed + 1⟩) (hcalls : s.calls = []) (hfree : next < free)
    (hsize : rest.length + 1 + next = size) (howed : owed + 1 = min free.toNat size - next)
    (hdrop : s.q.drop next = (a :: rest).map some) (hin : ∀ b ∈ rest, b ∈ s.users) :
    Inv m (s.advanceLoop size free (rest.length + 1)) ⟨rest, owed⟩ := by
  obtain ⟨hget, hdrop'⟩ := drop_cons hdrop
  rw [State.advanceLoop, show size - (rest.length + 1) = next by omega]
  dsimp only
  rw [hget]
  dsimp only
  rw [if_pos hfree]
  refine ⟨{ h.note WaitingLine.step_letIn with }, ?_⟩
  show State.Suspended _ _ (_ :: s.calls)
  rw [hcalls]
  exact .dequeue (by omega) (by dsimp only; omega) (by dsimp only; omega) hdrop' hin
    (nodup_cons.1 h.once).1

theorem advance_rest {next size : ℕ} (h : Sound m s l) (hcalls : s.calls = [])
    (hsize : l.places.length + next = size) (hlt : next < size) (howed : l.owed = 0)
    (hdrop : s.q.drop next = l.places.map some) (hin : ∀ a ∈ l.places, a ∈ s.users) :
    Inv m (s.advanceLoop size next l.places.length) l := by
  have hnext : size - l.places.length = next := by omega
  rw [advanceLoop_told (by omega) (by rw [hnext]) (by rwa [hnext]), hnext, if_pos (by omega),
    Int.toNat_natCast]
  refine Sound.idle { h.of_sublist (drop_sublist next s.q) with history := ?_ } hcalls howed ?_
  · show WaitingLine.run {} (s.log ++ _) = _
    rw [WaitingLine.run_append, h.history, bind_some]
    refine WaitingLine.run_told howed fun e he ↦ ?_
    obtain ⟨⟨b, i⟩, hb, rfl⟩ := mem_map.1 he
    obtain ⟨hi, hget⟩ := mk_mem_zipIdx_iff_le_and_getElem?_sub.1 hb
    refine ⟨b, i - next, ?_, hget⟩
    show Happening.told b (i - next + 1) = _
    congr 1
    omega
  · show s.seated (s.q.drop next) = _
    rw [hdrop]
    exact State.seated_map_some hin

/-- From the position `next` on `dequeue` lets in who is yet to be let in, and waits for the first
of them; if there is none, the rest are told their places. -/
theorem advance (h : Sound m s l) (hcalls : s.calls = []) {next size : ℕ} {free : ℤ}
    (hfree : next ≤ free) (hsize : l.places.length + next = size)
    (howed : l.owed = min free.toNat size - next) (hdrop : s.q.drop next = l.places.map some)
    (hin : ∀ a ∈ l.places, a ∈ s.users) :
    ∃ l', Inv m (s.advanceLoop size free l.places.length) l' := by
  obtain ⟨_ | ⟨a, rest⟩, owed⟩ := l
  · rw [length_nil] at hsize
    exact ⟨_, h.advance_end hcalls (by omega) (by dsimp only at howed; omega)⟩
  · rw [length_cons] at hsize
    obtain hlt | rfl := hfree.lt_or_eq
    · obtain ⟨n, rfl⟩ : ∃ n, owed = n + 1 := ⟨owed - 1, by dsimp only at howed; omega⟩
      exact ⟨_, h.advance_next hcalls hlt hsize howed hdrop fun b hb ↦
        hin b (mem_cons_of_mem a hb)⟩
    · exact ⟨_, h.advance_rest hcalls hsize (by omega) (by dsimp only at howed ⊢; omega) hdrop hin⟩

end Sound

/-! ### The events -/

namespace State

theorem inUse_idle (hcalls : s.calls = []) : s.inUse = [] := by
  rw [inUse, hcalls]

theorem notMem_validateQueue (hob : ob ∉ s.users) : some ob ∉ s.validateQueue.q := by
  rw [validateQueue_q]
  intro hmem
  obtain ⟨a, ha, hsome⟩ := mem_map.1 hmem
  exact hob (some_inj.1 hsome ▸ (mem_seated.1 ha).2)

end State

namespace Inv

theorem validate_idle (h : Inv m s l) (hcalls : s.calls = []) : Inv m s.validateQueue l :=
  h.validate fun _ hob ↦ absurd (State.inUse_idle hcalls ▸ hob) not_mem_nil

/-- Connections are made or handed on, but not to entries of `q`, nor by entries that wait. -/
theorem reconnect (h : Inv m s l) {users : List Obj} (hnodup : users.Nodup)
    (hback : ∀ a, some a ∈ s.q → a ∈ users → a ∈ s.users)
    (hkeep : ∀ a, some a ∈ s.q → s.called ≠ some a → a ∈ s.users → a ∈ users) :
    Inv m { s with users := users } l := by
  refine ⟨{ h.toSound with users := hnodup }, ?_⟩
  obtain ⟨calls, hcalls⟩ : ∃ calls, s.calls = calls := ⟨_, rfl⟩
  have hsus := h.suspended
  show State.Suspended _ l s.calls
  rw [State.called, hcalls] at hkeep
  rw [hcalls] at hsus ⊢
  cases hsus with
  | idle howed hseated =>
    refine .idle howed (Eq.trans (State.seated_congr fun a ha ↦ ?_) hseated)
    exact ⟨hback a ha, hkeep a ha nofun⟩
  | @dequeue index size free ob hfree hsize howed hdrop hin hob =>
    refine .dequeue hfree hsize howed hdrop (fun a ha ↦ ?_) hob
    have hmem : some a ∈ s.q := mem_of_mem_drop (hdrop ▸ mem_map_of_mem ha)
    exact hkeep a hmem (fun heq ↦ hob (some_inj.1 heq ▸ ha)) (hin a ha)
  | @setVip pos ob howed hpos hseated hob =>
    refine .setVip howed hpos (Eq.trans (State.seated_congr fun a ha ↦ ?_) hseated) hob
    have hmem : some a ∈ s.q := mem_of_mem_eraseIdx ha
    refine ⟨hback a hmem, fun hin ↦ hkeep a hmem (fun heq ↦ hob ?_) hin⟩
    rw [← hseated, some_inj.1 heq]
    exact State.mem_seated.2 ⟨ha, hin⟩

theorem dequeue_idle (h : Inv m s l) (hcalls : s.calls = []) (hob : ob ∉ s.users) (previous : Obj) :
    ∃ l', Inv m (s.dequeue m previous ob) l' := by
  have hv := h.validate_idle hcalls
  have hq := h.q_of_idle hcalls
  rw [State.dequeue]
  dsimp only
  rw [if_neg (State.notMem_validateQueue hob)]
  split
  next hfree =>
    have hlen : s.validateQueue.q.length = l.places.length := by rw [hq, length_map]
    rw [hlen]
    exact (hv.toSound.note (WaitingLine.step_opens _ (h.of_idle hcalls).1)).advance hcalls
      hfree.le rfl rfl hq fun a ha ↦ h.mem_users_of_idle hcalls ha
  next => exact ⟨l, hv⟩

/-- `dequeue` while an operation is suspended. -/
theorem dequeue_suspended (h : Inv m s l) (hcalls : s.calls ≠ []) (hund : Undisturbed m s)
    (hob : ob ∉ s.users) : ∃ l', Inv m (s.dequeue m m.security ob) l' := by
  have hv := h.validate hund.1
  rw [State.dequeue]
  dsimp only
  rw [if_neg (State.notMem_validateQueue hob)]
  split
  next hfree =>
    -- There is room, but nobody in the queue.
    have hnil : s.validateQueue.q = [] := hund.2.resolve_left hfree.not_ge
    rw [hnil, length_nil, State.advanceLoop, if_neg (by omega)]
    obtain ⟨calls, hcalls'⟩ : ∃ calls, s.calls = calls := ⟨_, rfl⟩
    have hsus := hv.suspended
    change State.Suspended _ l s.calls at hsus
    rw [hcalls'] at hsus
    cases hsus with
    | idle => exact absurd hcalls' hcalls
    | @dequeue index size free ob hfree' hsize howed hdrop hin hob =>
      rw [hnil, drop_nil, eq_comm, map_eq_nil_iff] at hdrop
      obtain ⟨places, owed⟩ := l
      obtain rfl : places = [] := hdrop
      have hsize' : index + 1 = size := (Nat.zero_add _).symm.trans hsize
      have howed0 : owed = 0 := by
        dsimp only at howed
        omega
      have hsound := hv.toSound.note (WaitingLine.step_opens
        (s.validateQueue.slotsFree m m.security).toNat howed0)
      refine ⟨_, hsound.of_sublist (nil_sublist _), ?_⟩
      show State.Suspended _ _ s.calls
      rw [hcalls']
      refine .dequeue hfree' hsize ?_ drop_nil (fun _ ha ↦ absurd ha not_mem_nil)
        not_mem_nil
      dsimp only [length_nil]
      omega
    | setVip _ hpos => exact absurd (hnil ▸ hpos) (Nat.not_lt_zero _)
  next => exact ⟨l, hv⟩

theorem close (h : Inv m s l) (hcalm : Calm m s (.close ob)) :
    ∃ l', Inv m (s.removeInteractive m ob) l' := by
  have hgone : ob ∉ s.users.erase ob := h.users.not_mem_erase
  obtain hcalls | hcalls := eq_or_ne s.calls []
  · obtain ⟨l', h'⟩ := h.leave (a := ob) fun _ huse ↦
      absurd (State.inUse_idle hcalls ▸ huse) not_mem_nil
    exact h'.dequeue_idle hcalls hgone m.security
  · have hund := hcalm hcalls
    obtain ⟨l', h'⟩ := h.leave (a := ob) hund.1
    exact h'.dequeue_suspended hcalls hund hgone

theorem dequeue (h : Inv m s l) (hcalm : Calm m s (.dequeue ob)) (hob : ob ∉ s.users) :
    ∃ l', Inv m (s.dequeue m m.security ob) l' := by
  obtain hcalls | hcalls := eq_or_ne s.calls []
  · exact h.dequeue_idle hcalls hob m.security
  · exact h.dequeue_suspended hcalls (hcalm hcalls) hob

theorem names_of_idle (h : Inv m s l) (hcalls : s.calls = []) : (l.places.map m.plName).Nodup := by
  have hnames := (h.validate_idle hcalls).names
  rwa [h.q_of_idle hcalls, reduceOption_map_some] at hnames

theorem name_notMem (h : Inv m s l) (hcalls : s.calls = [])
    (hnone : s.validateQueue.memberArray m (m.plName ob) = none) :
    m.plName ob ∉ l.places.map m.plName := by
  rw [State.memberArray, h.q_of_idle hcalls, List.idxOf?_eq_none_iff, map_map] at hnone
  intro hmem
  obtain ⟨a, ha, heq⟩ := mem_map.1 hmem
  exact hnone (mem_map.2 ⟨a, ha, congrArg some heq⟩)

theorem enqueue (h : Inv m s l) (hcalls : s.calls = []) (hob : ob ∈ s.users)
    (hcalm : Calm m s (.enqueue ob)) : ∃ l', Inv m (s.enqueue m ob) l' := by
  rw [State.enqueue]
  split
  next => exact ⟨l, h⟩
  next hlogin =>
    rw [Bool.not_eq_true, Bool.not_eq_false'] at hlogin
    have hname := h.name_notMem hcalls (hcalm hlogin)
    have hv := (h.validate_idle hcalls).validate_idle hcalls
    have hq := (h.validate_idle hcalls).q_of_idle hcalls
    dsimp only
    rw [hcalm hlogin]
    dsimp only
    have hq' : s.validateQueue.validateQueue.q ++ [some ob] = (l.places ++ [ob]).map some := by
      rw [hq, map_append, map_singleton]
    rw [hq', length_map, length_append, length_singleton]
    have hnot : ob ∉ l.places := fun hmem ↦ hname (mem_map_of_mem hmem)
    have hsound := hv.toSound.note (WaitingLine.step_arrive (h.of_idle hcalls).1 hnot)
    refine ⟨_, Sound.idle ⟨hsound.history, hsound.users, ?_, ?_⟩ hcalls (h.of_idle hcalls).1 ?_⟩
    · show (((l.places ++ [ob]).map some).reduceOption.map m.plName).Nodup
      rw [reduceOption_map_some, map_append, map_singleton, ← concat_eq_append]
      exact (h.names_of_idle hcalls).concat hname
    · intro a ha
      obtain ha | ha := mem_append.1 (hq' ▸ ha)
      · exact hv.isLogin a ha
      · rwa [some_inj.1 (mem_singleton.1 ha)]
    · refine State.seated_map_some fun a ha ↦ ?_
      obtain ha | ha := mem_append.1 ha
      · exact h.mem_users_of_idle hcalls ha
      · rwa [mem_singleton.1 ha]

theorem setVip (h : Inv m s l) (hcalls : s.calls = []) (arch : Bool) (v : CString) :
    ∃ l', Inv m (s.setVip m arch v) l' := by
  have hv := h.validate_idle hcalls
  have hq := h.q_of_idle hcalls
  rw [State.setVip]
  split
  next => exact ⟨l, h⟩
  split
  next => exact ⟨l, h⟩
  dsimp only
  split
  next pos hpos =>
    split
    next ob hob =>
      rw [hq, List.getElem?_map, map_eq_some_iff] at hob
      obtain ⟨a, ha, hsome⟩ := hob
      obtain rfl := some_inj.1 hsome
      obtain ⟨hlt, rfl⟩ := List.getElem?_eq_some_iff.1 ha
      have herase := h.once.erase_getElem pos hlt
      refine ⟨_, { hv.toSound.note (WaitingLine.step_favour (h.of_idle hcalls).1
        (getElem_mem hlt)) with }, ?_⟩
      show State.Suspended _ _ (_ :: s.calls)
      rw [hcalls]
      refine .setVip (h.of_idle hcalls).1 ?_ ?_ h.once.not_mem_erase
      · show pos < s.validateQueue.q.length
        rwa [hq, length_map]
      · show s.seated (s.validateQueue.q.eraseIdx pos) = l.places.erase _
        rw [hq, herase, eraseIdx_map]
        exact State.seated_map_some fun a ha ↦
          h.mem_users_of_idle hcalls (mem_of_mem_eraseIdx ha)
    next =>
      exact ⟨l, Sound.idle { hv.toSound with } rfl (hv.of_idle hcalls).1 (hv.of_idle hcalls).2⟩
  next =>
    exact ⟨l, Sound.idle { hv.toSound with } hcalls (hv.of_idle hcalls).1 (hv.of_idle hcalls).2⟩

theorem informQueue (h : Inv m s l) (hcalls : s.calls = []) : Inv m s.informQueue l := by
  have hv := h.validate_idle hcalls
  refine Sound.idle { hv.toSound with history := ?_ } hcalls (hv.of_idle hcalls).1
    (hv.of_idle hcalls).2
  show WaitingLine.run {} (s.log ++ _) = _
  rw [WaitingLine.run_append, h.history, bind_some, h.q_of_idle hcalls]
  refine WaitingLine.run_told (h.of_idle hcalls).1 fun e he ↦ ?_
  obtain ⟨⟨ob, i⟩, hmem, he⟩ := mem_filterMap.1 he
  rw [mk_mem_zipIdx_iff_getElem?, List.getElem?_map, map_eq_some_iff] at hmem
  obtain ⟨a, ha, rfl⟩ := hmem
  exact ⟨a, i, (some_inj.1 he).symm, ha⟩

theorem ret (h : Inv m s l) (hret : s.ret = some s') : ∃ l', Inv m s' l' := by
  obtain ⟨calls, hcalls⟩ : ∃ calls, s.calls = calls := ⟨_, rfl⟩
  have hsus := h.suspended
  rw [State.ret, hcalls] at hret
  rw [hcalls] at hsus
  cases hsus with
  | idle => exact absurd hret nofun
  | @dequeue index size free ob hfree hsize howed hdrop hin hob =>
    obtain rfl := some_inj.1 hret
    rw [show size - (index + 1) = l.places.length by omega]
    have hsound : Sound m { s with calls := [] } l := { h.toSound with }
    exact hsound.advance rfl hfree hsize howed hdrop hin
  | @setVip pos ob howed hpos hseated hob =>
    obtain rfl := some_inj.1 hret
    rw [if_pos hpos]
    refine ⟨l, { h.toSound with names := ?_, isLogin := ?_ }, .idle howed ?_⟩
    · show ((s.q.set pos none).reduceOption.map m.plName).Nodup
      rw [reduceOption_set_none]
      exact (h.toSound.of_sublist (eraseIdx_sublist s.q pos)).names
    · intro a ha
      obtain ha | ha := mem_or_eq_of_mem_set ha
      · exact h.isLogin a ha
      · exact absurd ha nofun
    · show (s.q.set pos none).reduceOption.filter _ = l.places
      rw [reduceOption_set_none]
      exact hseated

theorem step (h : Inv m s l) {e : Event} (hcalm : Calm m s e) (hstep : s.step m e = some s') :
    ∃ l', Inv m s' l' := by
  cases e with
  | connect ob =>
    obtain ⟨hnew, hs'⟩ := Option.ite_none_left_eq_some.1 hstep
    obtain rfl := some_inj.1 hs'
    rw [not_or] at hnew
    have hnodup : (s.users ++ [ob]).Nodup := concat_eq_append ▸ h.users.concat hnew.1
    refine ⟨l, h.reconnect hnodup (fun a ha hmem ↦ ?_) fun a _ _ hmem ↦
      mem_append_left _ hmem⟩
    obtain hmem | hmem := mem_append.1 hmem
    · exact hmem
    · exact absurd (mem_singleton.1 hmem ▸ ha) hnew.2
  | exec ob obfrom =>
    obtain ⟨⟨hnew, hold, hlogin, hcalled⟩, hs'⟩ := ite_none_right_eq_some.1 hstep
    obtain rfl := some_inj.1 hs'
    refine ⟨l, h.reconnect (WaitingLine.nodup_map_replace h.users hnew) (fun a ha hmem ↦ ?_)
      fun a ha hcall hmem ↦ ?_⟩
    · obtain ⟨u, hu, rfl⟩ := mem_map.1 hmem
      split_ifs at ha ⊢
      · rw [h.isLogin ob ha] at hlogin
        exact absurd hlogin (by decide)
      · exact hu
    · refine mem_map.2 ⟨a, hmem, if_neg ?_⟩
      rintro rfl
      exact hcall (hcalled ha)
  | close ob =>
    obtain ⟨-, hs'⟩ := ite_none_right_eq_some.1 hstep
    exact some_inj.1 hs' ▸ h.close hcalm
  | dequeue ob =>
    obtain ⟨hob, hs'⟩ := Option.ite_none_left_eq_some.1 hstep
    exact some_inj.1 hs' ▸ h.dequeue hcalm hob
  | enqueue ob =>
    obtain ⟨⟨hcalls, hob⟩, hs'⟩ := ite_none_right_eq_some.1 hstep
    exact some_inj.1 hs' ▸ h.enqueue hcalls hob hcalm
  | setVip arch v =>
    obtain ⟨hcalls, hs'⟩ := ite_none_right_eq_some.1 hstep
    exact some_inj.1 hs' ▸ h.setVip hcalls arch v
  | unvip arch v =>
    obtain ⟨hcalls, hs'⟩ := ite_none_right_eq_some.1 hstep
    obtain rfl := some_inj.1 hs'
    rw [State.unvip]
    split
    · exact ⟨l, h⟩
    · exact ⟨l, Sound.idle { h.toSound with } hcalls (h.of_idle hcalls).1 (h.of_idle hcalls).2⟩
  | informQueue =>
    obtain ⟨hcalls, hs'⟩ := ite_none_right_eq_some.1 hstep
    exact ⟨l, some_inj.1 hs' ▸ h.informQueue hcalls⟩
  | query => exact ⟨l, some_inj.1 hstep ▸ h.validate hcalm⟩
  | ret => exact h.ret hstep

theorem position (h : Inv m s l) (hcalls : s.calls = []) {i : ℕ} (hi : l.places[i]? = some ob) :
    s.queryPosition m (m.plName ob) = i := by
  have hnames : ((l.places.map m.plName).map some).Nodup :=
    (h.names_of_idle hcalls).map fun _ _ ↦ some_inj.1
  have hmap : (l.places.map some).map (Option.map m.plName) = (l.places.map m.plName).map some := by
    rw [map_map, map_map]
    rfl
  have hpos : s.validateQueue.memberArray m (m.plName ob) = some i := by
    rw [State.memberArray, h.q_of_idle hcalls, hmap]
    refine idxOf?_of_nodup hnames ?_
    rw [List.getElem?_map, List.getElem?_map, hi]
    rfl
  rw [State.queryPosition, hpos]

theorem fair (h : Inv m s l) : Fair m s l where
  history := h.history
  waiting := by
    obtain ⟨calls, hcalls⟩ : ∃ calls, s.calls = calls := ⟨_, rfl⟩
    have hsus := h.suspended
    rw [State.waiting, hcalls]
    rw [hcalls] at hsus
    cases hsus with
    | idle _ hseated => exact hseated
    | dequeue _ _ _ hdrop hin _ =>
      exact (congrArg s.seated hdrop).trans (State.seated_map_some hin)
    | setVip _ _ hseated _ => exact hseated
  once := h.once
  done hcalls := (h.of_idle hcalls).1
  position hcalls _ _ hi := h.position hcalls hi

end Inv

/-- **The queue is fair in every run of calm events.** -/
theorem queue_fair (m : Mud) {s : State} (hs : (loginQueue m).ReachableVia (Calm m) s) :
    ∃ l, Fair m s l := by
  obtain ⟨l, h⟩ : ∃ l, Inv m s l := by
    refine TransitionSystem.ReachableVia.invariant (I := fun s ↦ ∃ l, Inv m s l) ?_ ?_ hs
    · rintro s rfl
      exact ⟨{}, Inv.init⟩
    · rintro s e s' ⟨l, h⟩ hcalm hstep
      exact h.step hcalm hstep
  exact ⟨l, h.fair⟩

/-! ### Runs on given events -/

/-- Every event of a run meets a guard. -/
def Guarded (ok : State → Event → Prop) (m : Mud) : State → List Event → Prop
  | _, [] => True
  | s, e :: es => ok s e ∧ ∀ s' ∈ s.step m e, Guarded ok m s' es

instance {ok : State → Event → Prop} [∀ s e, Decidable (ok s e)] :
    ∀ s es, Decidable (Guarded ok m s es)
  | _, [] => .isTrue trivial
  | _, _ :: es =>
    have : ∀ s, Decidable (Guarded ok m s es) := fun s ↦ instDecidableGuarded s es
    inferInstanceAs (Decidable (_ ∧ _))

theorem reachableVia_of_run {ok : State → Event → Prop} {es : List Event} {s₀ : State}
    (hs₀ : (loginQueue m).ReachableVia ok s₀) (hok : Guarded ok m s₀ es)
    (hrun : run m s₀ es = some s) : (loginQueue m).ReachableVia ok s := by
  induction es generalizing s₀ with
  | nil => exact some_inj.1 hrun ▸ hs₀
  | cons e es ih =>
    rw [run_cons] at hrun
    obtain ⟨s₁, hstep, hrun⟩ := Option.bind_eq_some_iff.1 hrun
    exact ih (.step hs₀ hok.1 hstep) (hok.2 s₁ hstep) hrun

instance : DecidablePred (Undisturbed m) := fun _ ↦
  inferInstanceAs (Decidable (_ ∧ _))

instance : ∀ e, Decidable (Calm m s e)
  | .enqueue _ => inferInstanceAs (Decidable (_ → _))
  | .close _ => inferInstanceAs (Decidable (_ → _))
  | .dequeue _ => inferInstanceAs (Decidable (_ → _))
  | .query => inferInstanceAs (Decidable (∀ _ ∈ _, _))
  | .connect _ | .exec _ _ | .setVip _ _ | .unvip _ _ | .informQueue | .ret => .isTrue trivial

/-- The login objects are below 1000. Objects 100 and 102 are of one player. -/
def town : Mud where
  isLogin ob := ob < 1000
  plName ob := .ofBytes [if ob = 102 then 100 else ob.toUInt8]
  wizLevel _ := false
  security := 5000

/-- As many log in as may play. -/
def crowd : List Event :=
  (List.range 80).flatMap fun ob ↦ [.connect ob, .exec (1000 + ob) ob]

/-- The game is full. -/
def full : State where
  users := (List.range 80).map (1000 + ·)

theorem reachable_full : (loginQueue town).ReachableVia (Calm town) full :=
  reachableVia_of_run (.init rfl) (show Guarded (Calm town) town {} crowd by decide +kernel)
    (by decide +kernel)

/-- Two wait when a player leaves: the first is let in, and the other is told of the first place.
Somebody else comes, and the other gives up. -/
def evening : List Event :=
  [.connect 100, .enqueue 100, .connect 101, .enqueue 101, .close 1003, .connect 103,
    .exec 1100 100, .ret, .enqueue 103, .informQueue, .close 101]

theorem queue_fair_evening :
    ∃ s l, run town full evening = some s ∧ Fair town s l ∧ l.places = [103] := by
  have hok : Guarded (Calm town) town full evening := by decide
  have hline : (run town full evening).map (fun s ↦ WaitingLine.run {} s.log) =
      some (some ⟨[103], 0⟩) := by
    decide
  obtain ⟨s, hs, hlog⟩ := map_eq_some_iff.1 hline
  obtain ⟨l, hl⟩ := queue_fair town (reachableVia_of_run reachable_full hok hs)
  obtain rfl := some_inj.1 (hl.history.symm.trans hlog)
  exact ⟨s, _, hs, hl, rfl⟩

/-- 102 is of the player of 100, who waits in front of 101. -/
def again : List Event :=
  [.connect 100, .enqueue 100, .connect 101, .enqueue 101, .connect 102, .enqueue 102, .ret]

theorem not_fair : ¬∀ (m : Mud) (s : State), (loginQueue m).Reachable s → ∃ l, Fair m s l := by
  intro h
  have hok : Guarded (fun _ _ ↦ True) town full again := by decide
  have hfull : (loginQueue town).Reachable full := reachable_full.mono fun _ _ _ ↦ trivial
  -- 102 takes the place of 101, who is no longer in the queue.
  have hline : (run town full again).map (fun s ↦ (WaitingLine.run {} s.log, s.waiting)) =
      some (some ⟨[102, 101], 0⟩, [102]) := by
    decide
  obtain ⟨s, hs, hboth⟩ := map_eq_some_iff.1 hline
  obtain ⟨l, hl⟩ := h town s (reachableVia_of_run hfull hok hs)
  obtain ⟨hlog, hwait⟩ := Prod.mk.inj hboth
  obtain rfl := some_inj.1 (hl.history.symm.trans hlog)
  exact absurd (hwait.symm.trans hl.waiting) (by decide)

end Lpmud.LoginQueue
