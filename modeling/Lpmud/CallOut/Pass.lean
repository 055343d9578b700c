import Lpmud.CallOut.Table
import Lpmud.Lib.TransitionSystem

/-!
# Call-out passes

`call_out` as a machine that stops wherever LPC code runs. Between two passes, and while a
callback runs, LPC code may call any of the functions of `Table.lean`, on any objects, as often
as it likes; a callback ends by returning or by an error.

The tables stay in order throughout (`call_out_invariant`). What a pass leaves behind depends on
where it starts: a pass ends with `last` *behind* the clock, and the next one returns at once if
the clock has only just caught up with `last`, so that the calls of that very tick have to wait
(`punctual_iff`).
-/

namespace Lpmud.CallOut

open List Option

/-! ### The timeout of the next pass -/

/-- The slots that `next_call_out` looks at: from the first one up to `end`, and all of them if
the two are the same. -/
def scanned (slot end' : ℕ) : List ℕ :=
  let n := (end' + NUM_SLOTS - slot) % NUM_SLOTS
  (List.range (if n = 0 then NUM_SLOTS else n)).map fun i ↦ slotOf (slot + i)

/-- The loop of `next_call_out`: seconds and microseconds to wait. -/
def nextCallOutLoop (t : Table) (alarmTime : ℕ) : List ℕ → Option (ℕ × ℕ)
  | [] => some (60, 0)
  | slot :: slots =>
    match t.callOuts slot with
    | [] => nextCallOutLoop t alarmTime slots
    | ob :: _ =>
      (t.head ob).bind fun w ↦
        if w < alarmTime then some (0, 0)
        else if w - alarmTime < TIME_RES * 60 then
          some ((w - alarmTime) / TIME_RES, (w - alarmTime) % TIME_RES * 1000000 / TIME_RES)
        else nextCallOutLoop t alarmTime slots

def nextCallOut (t : Table) (alarmTime lastAlarm : ℕ) : Option (ℕ × ℕ) :=
  nextCallOutLoop t alarmTime (scanned (slotOf lastAlarm) (slotOf (alarmTime + 60 * TIME_RES)))

/-! ### The machine -/

/-- The flags of objects that `call_out` looks at (`O_DESTRUCTED`, `O_ENABLE_COMMANDS`). -/
structure ObFlags where
  destructed : Obj → Bool
  enableCommands : Obj → Bool

/-- Where the machine is: outside of `call_out`, in its loops, or in the callback of `cop`, as it
was when it became due, with the values of `command_giver` and `current_call_out_id`. -/
inductive Phase where
  | idle
  | scanning
  | calling (ob : Obj) (cop : Call) (commandGiver : Option Obj) (currentCallOutId : Int32)
  deriving DecidableEq

structure State where
  table : Table
  alarmTime : ℕ
  inhibitcallouts : Bool
  phase : Phase
  /-- The timeout `call_out` last computed: seconds and microseconds. -/
  tv : ℕ × ℕ

/-- What happens in the driver, as far as call-outs go. -/
inductive Event where
  /-- `set_current_time`. -/
  | setCurrentTime (now : ℕ)
  | newCallOut (ob : Obj) (func : ℕ) (delay reload : Int32) (commandGiver : Option Obj)
  | deleteCall (ob : Obj) (callIdent : Int32)
  | deleteAllCalls (ob : Obj)
  | callOutSwapObjects (ob₁ ob₂ : Obj)
  | inhibitCallOuts (b : Bool)
  /-- `call_out` is called. -/
  | callOut
  /-- One round of the loops of `call_out`. -/
  | scan (flags : ObFlags)
  /-- The callback returns. -/
  | callReturns
  /-- The callback raises an error that nobody catches before `call_out` does. -/
  | callFails

namespace State

/-- The beginning of `call_out`, up to its loops. -/
def callOut (s : State) : Option State :=
  if s.inhibitcallouts then some { s with tv := (60, 0) }
  else if s.alarmTime ≤ s.table.last then
    (nextCallOut s.table s.alarmTime s.table.last).map fun tv ↦ { s with tv := tv }
  else some { s with phase := .scanning }

/-- The body of the inner loop of `call_out` up to the callback: extract the first object of the
slot of `last`, whose first call `cop` is due, reschedule the call and reinsert the object. -/
def extract (flags : ObFlags) (ob : Obj) (obs : List Obj) (cop : Call) (cops : List Call)
    (s : State) : Option State :=
  let t := s.table
  let t₁ : Table :=
    { t with callOuts := Function.update t.callOuts (slotOf t.last) obs }
  let giver := cop.commandGiver.filter fun g ↦ !flags.destructed g
  let commandGiver :=
    if giver.any flags.enableCommands then giver
    else if flags.enableCommands ob then some ob else none
  if 0 < cop.reload then
    let cop' := { cop with when := (s.alarmTime + cop.reload) % 2 ^ 32, commandGiver := giver }
    if cop'.when < t.last then none
    else ((t₁.setCalls ob (Table.insertCall cop' cops)).relink ob).map fun t₂ ↦
      { s with table := t₂, phase := .calling ob cop commandGiver cop.id }
  else ((t₁.setCalls ob cops).relink ob).map fun t₂ ↦
    { s with table := t₂.freeCall, phase := .calling ob cop commandGiver 0 }

/-- One round of the loops of `call_out`: leave them, go to the next slot, or start a
callback. -/
def scan (flags : ObFlags) (s : State) : Option State :=
  let t := s.table
  if s.alarmTime < t.last then
    (nextCallOut t s.alarmTime t.last).map fun tv ↦ { s with phase := .idle, tv := tv }
  else
    match t.callOuts (slotOf t.last) with
    | [] => some { s with table := { t with last := t.last + 1 } }
    | ob :: obs =>
      match t.calls ob with
      | [] => none
      | cop :: cops =>
        if cop.when ≤ t.last then s.extract flags ob obs cop cops
        else some { s with table := { t with last := t.last + 1 } }

/-- The error branch of `call_out`: a repeating call is turned off. -/
def callFails (s : State) : Option State :=
  match s.phase with
  | .calling ob _ _ id =>
    if id = 0 then some { s with phase := .scanning }
    else (s.table.deleteCall ob id).map fun t ↦ { s with table := t, phase := .scanning }
  | _ => some s

/-- One event; `none` is a `fatal`. -/
def exec (s : State) : Event → Option State
  | .setCurrentTime now => some { s with alarmTime := now }
  | .newCallOut ob func delay reload commandGiver =>
    (s.table.newCallOut s.alarmTime ob func delay reload commandGiver).map fun (t, _) ↦
      { s with table := t }
  | .deleteCall ob callIdent => (s.table.deleteCall ob callIdent).map fun t ↦ { s with table := t }
  | .deleteAllCalls ob => (s.table.deleteAllCalls ob).map fun t ↦ { s with table := t }
  | .callOutSwapObjects ob₁ ob₂ =>
    (s.table.callOutSwapObjects ob₁ ob₂).map fun t ↦ { s with table := t }
  | .inhibitCallOuts b => some { s with inhibitcallouts := b }
  | .callOut => s.callOut
  | .scan flags => s.scan flags
  | .callReturns => some { s with phase := .scanning }
  | .callFails => s.callFails

/-- When an event can happen. The clock, an `int`, does not go back, and `call_out` is called,
between passes only; two objects that are swapped are different. -/
def Enabled (s : State) : Event → Prop
  | .setCurrentTime now => s.phase = .idle ∧ s.alarmTime ≤ now ∧ now < 2 ^ 31
  | .callOutSwapObjects ob₁ ob₂ => s.phase ≠ .scanning ∧ ob₁ ≠ ob₂
  | .callOut => s.phase = .idle
  | .scan _ => s.phase = .scanning
  | .callReturns | .callFails => s.phase ≠ .idle ∧ s.phase ≠ .scanning
  | _ => s.phase ≠ .scanning

/-- The state after `init_call_out`. -/
def init (alarmTime : ℕ) : State where
  table := initCallOut
  alarmTime := alarmTime
  inhibitcallouts := false
  phase := .idle
  tv := (0, 0)

end State

/-- The driver as a transition system; `none` is where a `fatal` has stopped it. -/
def callOuts : TransitionSystem (Option State) Event where
  Init m := ∃ alarmTime < 2 ^ 31, m = some (State.init alarmTime)
  Step m e m' := ∃ s, m = some s ∧ s.Enabled e ∧ m' = s.exec e

/-! ### What one event does -/

theorem nextCallOutLoop_spec {t : Table} (h : t.Linked) (alarmTime : ℕ) (slots : List ℕ) :
    ∃ tv, nextCallOutLoop t alarmTime slots = some tv := by
  induction slots with
  | nil => exact ⟨_, rfl⟩
  | cons slot slots ih =>
    rw [nextCallOutLoop]
    rcases hslot : t.callOuts slot with - | ⟨ob, obs⟩
    · exact ih
    · obtain ⟨w, hw, -⟩ := (h.wheel.mem ob slot).1 (hslot ▸ mem_cons_self)
      simp only [hw, bind_some]
      split
      · exact ⟨_, rfl⟩
      split
      · exact ⟨_, rfl⟩
      · exact ih

theorem nextCallOut_spec {t : Table} (h : t.Linked) (alarmTime lastAlarm : ℕ) :
    ∃ tv, nextCallOut t alarmTime lastAlarm = some tv :=
  nextCallOutLoop_spec h alarmTime _

namespace State

variable {s : State}

/-- **The machine is in order**: so are the tables; `last` is at most one tick behind the clock;
and while a callback runs, it is not behind the clock at all, and its call was due. -/
structure Inv (s : State) : Prop where
  table : s.table.Ok
  clock : s.alarmTime < 2 ^ 31
  last : s.table.last ≤ s.alarmTime + 1
  calling : ∀ ob cop giver id, s.phase = .calling ob cop giver id →
    s.table.last ≤ s.alarmTime ∧ cop.when ≤ s.alarmTime

/-- Extracting a call that is due: its object keeps the other calls, and the call itself if it
repeats, at a later time. -/
theorem extract_spec (h : s.table.Ok) (hclock : s.alarmTime < 2 ^ 31)
    (hlast : s.table.last ≤ s.alarmTime) {ob : Obj} {obs : List Obj} {cop : Call}
    {cops : List Call} (hslot : s.table.callOuts (slotOf s.table.last) = ob :: obs)
    (hcalls : s.table.calls ob = cop :: cops) (flags : ObFlags) :
    ∃ t l giver id, s.extract flags ob obs cop cops =
        some { s with table := t, phase := .calling ob cop giver id } ∧
      Table.Replaced ob l s.table t ∧
      ∀ c ∈ l, c ∈ s.table.calls ob ∨ s.alarmTime < c.when := by
  have hhead : s.table.head ob = some cop.when := by
    rw [Table.head, hcalls]
    rfl
  have hhash : slotOf cop.when = slotOf s.table.last := by
    obtain ⟨w, hw, hslot'⟩ := (h.linked.wheel.mem ob _).1 (hslot ▸ mem_cons_self)
    rwa [some.inj (hhead.symm.trans hw)]
  obtain ⟨slots, hslots, hwheel⟩ := h.linked.wheel.unlink hhead
  rw [hhash, Wheel.unlink_head hslot] at hslots
  obtain rfl := some.inj hslots
  have hsorted : (cop :: cops).Pairwise fun c d ↦ c.when ≤ d.when := hcalls ▸ h.linked.sorted ob
  set t₁ : Table :=
    { s.table with callOuts := Function.update s.table.callOuts (slotOf s.table.last) obs } with ht₁
  -- Reinserting the object, whatever its calls are now.
  have reinsert (l : List Call) (hl : l.Pairwise fun c d ↦ c.when ≤ d.when) :
      ∃ slots, (t₁.setCalls ob l).relink ob = some { t₁.setCalls ob l with callOuts := slots } ∧
        Table.Linked { t₁.setCalls ob l with callOuts := slots } := by
    refine Table.relink_linked (hwheel.congr fun p ↦ ?_)
      (Table.pairwise_update _ (t := s.table) h.linked hl)
    rw [Table.head_setCalls, Function.update_idem]
    rfl
  rw [extract]
  dsimp only
  rw [← ht₁]
  by_cases hreload : 0 < cop.reload
  · have hwhen : (s.alarmTime + cop.reload) % 2 ^ 32 = s.alarmTime + cop.reload :=
      Nat.mod_eq_of_lt (by have := cop.reload_lt; omega)
    rw [if_pos hreload, hwhen, if_neg (by omega)]
    set cop' : Call :=
      { cop with
        when := s.alarmTime + cop.reload
        commandGiver := cop.commandGiver.filter fun g ↦ !flags.destructed g } with hcop'
    obtain ⟨slots, hslots, hok⟩ := reinsert _ (Table.pairwise_insertCall cop' hsorted.of_cons)
    refine ⟨_, Table.insertCall cop' cops, _, _, by rw [hslots, map_some],
      ⟨hok, rfl, rfl, ?_⟩, fun c hc ↦ ?_⟩
    · rw [Table.length_insertCall, hcalls, length_cons, add_sub_cancel_right]
      rfl
    · rcases Table.mem_insertCall.1 hc with rfl | hc
      · exact .inr (Nat.lt_add_of_pos_right hreload)
      · exact .inl (hcalls ▸ mem_cons_of_mem cop hc)
  · obtain ⟨slots, hslots, hok⟩ := reinsert _ hsorted.of_cons
    rw [if_neg hreload, hslots]
    refine ⟨Table.freeCall { t₁.setCalls ob cops with callOuts := slots }, cops, _, 0, rfl,
      ⟨⟨hok.wheel, hok.sorted⟩, rfl, rfl, ?_⟩, fun c hc ↦ ?_⟩
    · rw [hcalls, length_cons]
      change s.table.numCall - 1 = _
      push_cast
      ring
    · exact .inl (hcalls ▸ mem_cons_of_mem cop hc)

/-- No pending call is due at `last` once the first object of its slot is not. -/
theorem last_lt_of_slot (h : s.table.Ok)
    (hslot : ∀ ob obs, s.table.callOuts (slotOf s.table.last) = ob :: obs →
      ∃ w, s.table.head ob = some w ∧ s.table.last < w) (ob : Obj) {c : Call}
    (hc : c ∈ s.table.calls ob) : s.table.last < c.when := by
  refine lt_of_le_of_ne (h.due ob c hc) fun heq ↦ ?_
  -- The first call of the object is due no later, so the object is in the slot.
  obtain ⟨d, ds, hd⟩ := exists_cons_of_ne_nil (ne_nil_of_mem hc)
  have hhead : s.table.head ob = some d.when := by
    rw [Table.head, hd]
    rfl
  have hdc : d.when ≤ c.when := by
    have hsorted := h.linked.sorted ob
    rw [hd] at hc hsorted
    rcases mem_cons.1 hc with rfl | hc
    · exact le_rfl
    · exact (pairwise_cons.1 hsorted).1 c hc
  have hdl : d.when = s.table.last :=
    le_antisymm (hdc.trans heq.ge) (h.due ob d (hd ▸ mem_cons_self))
  rw [hdl] at hhead
  obtain ⟨ob', obs, hslot'⟩ := exists_cons_of_ne_nil
    (ne_nil_of_mem ((h.linked.wheel.mem ob _).2 ⟨_, hhead, rfl⟩))
  obtain ⟨w, hw, hlt⟩ := hslot ob' obs hslot'
  exact absurd (h.linked.wheel.head_le hslot' hw hhead) (Nat.not_le.2 hlt)

/-- **One round of the loops**: they end behind the clock; or they go to the next slot, and
nothing is due in this one; or they start a callback. -/
theorem scan_spec (h : s.Inv) (hphase : s.phase = .scanning) (flags : ObFlags) :
    ∃ s', s.scan flags = some s' ∧ s'.Inv ∧ s'.alarmTime = s.alarmTime ∧
      (s'.phase = .idle → s.alarmTime < s'.table.last) := by
  rw [scan]
  by_cases hlt : s.alarmTime < s.table.last
  · obtain ⟨tv, htv⟩ := nextCallOut_spec h.table.linked s.alarmTime s.table.last
    rw [if_pos hlt, htv]
    exact ⟨_, rfl, ⟨h.table, h.clock, h.last, by rintro _ _ _ _ ⟨⟩⟩, rfl, fun _ ↦ hlt⟩
  rw [if_neg hlt]
  have hle : s.table.last ≤ s.alarmTime := Nat.not_lt.1 hlt
  -- Going on to the next slot.
  have next (hslot : ∀ ob obs, s.table.callOuts (slotOf s.table.last) = ob :: obs →
      ∃ w, s.table.head ob = some w ∧ s.table.last < w) :
      ∃ s', some { s with table := { s.table with last := s.table.last + 1 } } = some s' ∧
        s'.Inv ∧ s'.alarmTime = s.alarmTime ∧ (s'.phase = .idle → s.alarmTime < s'.table.last) := by
    refine ⟨_, rfl, ⟨⟨⟨h.table.linked.wheel, h.table.linked.sorted⟩,
      fun ob c hc ↦ last_lt_of_slot h.table hslot ob hc, h.table.counted⟩, h.clock,
      Nat.succ_le_succ hle, fun ob cop giver id hc ↦ ?_⟩, rfl, fun hidle ↦ ?_⟩
    · exact absurd (hphase.symm.trans hc) (by simp)
    · exact absurd (hphase.symm.trans hidle) (by simp)
  rcases hslot : s.table.callOuts (slotOf s.table.last) with - | ⟨ob, obs⟩
  · exact next (by simp [hslot])
  obtain ⟨w, hw, -⟩ := (h.table.linked.wheel.mem ob _).1 (hslot ▸ mem_cons_self)
  rcases hcalls : s.table.calls ob with - | ⟨cop, cops⟩
  · simp [Table.head, hcalls, headWhen] at hw
  simp only [hcalls]
  by_cases hdue : cop.when ≤ s.table.last
  · rw [if_pos hdue]
    obtain ⟨t, l, giver, id, ht, hr, hl⟩ :=
      extract_spec h.table h.clock hle hslot hcalls flags
    refine ⟨_, ht, ⟨h.table.replaced hr fun c hc ↦ ?_, h.clock, ?_, ?_⟩, rfl, by rintro ⟨⟩⟩
    · exact (hl c hc).elim (h.table.due ob c) fun hlt ↦ hle.trans hlt.le
    · exact hr.last.trans_le h.last
    · rintro _ _ _ _ ⟨⟩
      exact ⟨hr.last.trans_le hle, hdue.trans hle⟩
  · rw [if_neg hdue]
    refine next fun ob' obs' hslot' ↦ ?_
    rw [hslot] at hslot'
    cases hslot'
    exact ⟨cop.when, by rw [Table.head, hcalls]; rfl, Nat.not_le.1 hdue⟩

theorem Inv.replaced (h : s.Inv) {ob : Obj} {l : List Call} {t : Table}
    (hr : Table.Replaced ob l s.table t)
    (hl : ∀ c ∈ l, c ∈ s.table.calls ob ∨ s.alarmTime < c.when) {phase : Phase}
    (hphase : phase = s.phase ∨ phase = .scanning) :
    Inv { s with table := t, phase := phase } := by
  refine ⟨h.table.replaced hr fun c hc ↦ ?_, h.clock, hr.last.trans_le h.last, ?_⟩
  · exact (hl c hc).elim (h.table.due ob c) fun hlt ↦ h.last.trans hlt
  · rintro ob' cop giver id rfl
    obtain hphase | hphase := hphase
    · obtain ⟨hlast, hdue⟩ := h.calling ob' cop giver id hphase.symm
      exact ⟨hr.last.trans_le hlast, hdue⟩
    · cases hphase

theorem callOut_spec (h : s.Inv) : ∃ s', s.callOut = some s' ∧ s'.Inv := by
  rw [callOut]
  split
  · exact ⟨_, rfl, h.table, h.clock, h.last, h.calling⟩
  split
  · obtain ⟨tv, htv⟩ := nextCallOut_spec h.table.linked s.alarmTime s.table.last
    exact ⟨{ s with tv := tv }, by rw [htv, map_some], h.table, h.clock, h.last, h.calling⟩
  · exact ⟨_, rfl, h.table, h.clock, h.last, nofun⟩

theorem callFails_spec (h : s.Inv) : ∃ s', s.callFails = some s' ∧ s'.Inv ∧
    s'.alarmTime = s.alarmTime ∧ (s.phase ≠ .idle → s'.phase ≠ .idle) := by
  rw [callFails]
  split
  · split
    · exact ⟨_, rfl, ⟨h.table, h.clock, h.last, nofun⟩, rfl, fun _ ↦ nofun⟩
    · rename_i ob _ _ id _ _
      obtain ⟨t, l, ht, hr, hl⟩ := Table.deleteCall_spec h.table.linked ob id
      exact ⟨_, by rw [ht, map_some],
        h.replaced hr (fun c hc ↦ .inl (hl.subset hc)) (.inr rfl), rfl, fun _ ↦ nofun⟩
  · exact ⟨s, rfl, h, rfl, id⟩

/-- **One event**: it succeeds and keeps the machine in order; within a pass the clock stands
still, and a pass ends behind the clock. -/
theorem exec_spec (h : s.Inv) {e : Event} (he : s.Enabled e) :
    ∃ s', s.exec e = some s' ∧ s'.Inv ∧ (s.phase ≠ .idle →
      s'.alarmTime = s.alarmTime ∧ (s'.phase = .idle → s'.alarmTime < s'.table.last)) := by
  cases e with
  | setCurrentTime now =>
    obtain ⟨hphase, hle, hlt⟩ := he
    refine ⟨_, rfl, ⟨h.table, hlt, h.last.trans (Nat.succ_le_succ hle),
      fun ob cop giver id hc ↦ ?_⟩, fun hne ↦ absurd hphase hne⟩
    exact absurd (hphase.symm.trans hc) (by simp)
  | newCallOut ob func delay reload commandGiver =>
    obtain ⟨t, l, r, ht, hr, hl⟩ := Table.newCallOut_spec h.table.linked h.clock h.last ob func
      delay reload commandGiver
    exact ⟨_, by rw [exec, ht, map_some], h.replaced hr hl (.inl rfl),
      fun hne ↦ ⟨rfl, fun hi ↦ absurd hi hne⟩⟩
  | deleteCall ob callIdent =>
    obtain ⟨t, l, ht, hr, hl⟩ := Table.deleteCall_spec h.table.linked ob callIdent
    exact ⟨_, by rw [exec, ht, map_some],
      h.replaced hr (fun c hc ↦ .inl (hl.subset hc)) (.inl rfl),
      fun hne ↦ ⟨rfl, fun hi ↦ absurd hi hne⟩⟩
  | deleteAllCalls ob =>
    obtain ⟨t, ht, hr⟩ := Table.deleteAllCalls_spec h.table.linked ob
    exact ⟨_, by rw [exec, ht, map_some], h.replaced hr nofun (.inl rfl),
      fun hne ↦ ⟨rfl, fun hi ↦ absurd hi hne⟩⟩
  | callOutSwapObjects ob₁ ob₂ =>
    obtain ⟨t, ht, hok, hlast⟩ := h.table.swap he.2
    refine ⟨{ s with table := t }, by rw [exec, ht, map_some],
      ⟨hok, h.clock, hlast.trans_le h.last, fun ob cop giver id hc ↦ ?_⟩,
      fun hne ↦ ⟨rfl, fun hi ↦ absurd hi hne⟩⟩
    obtain ⟨hle, hdue⟩ := h.calling ob cop giver id hc
    exact ⟨hlast.trans_le hle, hdue⟩
  | inhibitCallOuts b =>
    exact ⟨_, rfl, ⟨h.table, h.clock, h.last, h.calling⟩,
      fun hne ↦ ⟨rfl, fun hi ↦ absurd hi hne⟩⟩
  | callOut =>
    obtain ⟨s', hs', hinv⟩ := callOut_spec h
    exact ⟨s', hs', hinv, fun hne ↦ absurd he hne⟩
  | scan flags =>
    obtain ⟨s', hs', hinv, hclock, hlast⟩ := scan_spec h he flags
    exact ⟨s', hs', hinv, fun _ ↦ ⟨hclock, fun hi ↦ hclock.trans_lt (hlast hi)⟩⟩
  | callReturns => exact ⟨_, rfl, ⟨h.table, h.clock, h.last, nofun⟩, fun _ ↦ ⟨rfl, nofun⟩⟩
  | callFails =>
    obtain ⟨s', hs', hinv, hclock, hphase⟩ := callFails_spec h
    exact ⟨s', hs', hinv, fun hne ↦ ⟨hclock, fun hi ↦ absurd hi (hphase hne)⟩⟩

end State

/-! ### Runs -/

theorem inv_of_reachable {m : Option State} (hm : callOuts.Reachable m) :
    ∃ s, m = some s ∧ s.Inv := by
  refine hm.invariant (I := fun m ↦ ∃ s, m = some s ∧ s.Inv) ?_ ?_
  · rintro _ ⟨alarmTime, hlt, rfl⟩
    refine ⟨_, rfl, ⟨⟨.empty fun _ ↦ rfl, fun _ ↦ .nil⟩, nofun, ∅, ?_, rfl⟩, hlt, ?_, nofun⟩
    · exact fun _ h ↦ absurd rfl h
    · exact Nat.zero_le _
  · rintro _ e _ ⟨s, rfl, hinv⟩ ⟨_, ⟨⟩, he, rfl⟩
    obtain ⟨s', hs', hinv', -⟩ := State.exec_spec hinv he
    exact ⟨s', hs', hinv'⟩

instance (s : State) (e : Event) : Decidable (s.Enabled e) := by
  cases e <;> unfold State.Enabled <;> infer_instance

/-- A run of the machine. -/
def State.run (s : State) : List Event → Option State
  | [] => some s
  | e :: es => if s.Enabled e then (s.exec e).bind fun s' ↦ s'.run es else none

theorem reachable_of_run {es : List Event} : ∀ {s s' : State}, callOuts.Reachable (some s) →
    s.run es = some s' → callOuts.Reachable (some s') := by
  induction es with
  | nil =>
    rintro s s' hs ⟨⟩
    exact hs
  | cons e es ih =>
    intro s s' hs h
    rw [State.run] at h
    split at h
    · rename_i he
      obtain ⟨s₁, hs₁, hrun⟩ := bind_eq_some_iff.1 h
      exact ih (hs.step ⟨s, rfl, he, hs₁.symm⟩) hrun
    · cases h

/-- **What `call_out.c` keeps of its tables**, spelled out: the list of each object is sorted by
due time; an object with pending calls is in the slot of its first one, once, and in no other;
every slot is sorted by the due times of the first calls; no pending call is due before `last`;
and the call counter is right. -/
structure Consistent (t : Table) : Prop where
  sorted : ∀ ob, (t.calls ob).Pairwise fun c d ↦ c.when ≤ d.when
  linked : ∀ ob k, ob ∈ t.callOuts k ↔ ∃ c cs, t.calls ob = c :: cs ∧ c.when % NUM_SLOTS = k
  nodup : ∀ k, (t.callOuts k).Nodup
  slots : ∀ k, (t.callOuts k).Pairwise fun p q ↦
    ∀ c cs d ds, t.calls p = c :: cs → t.calls q = d :: ds → c.when ≤ d.when
  due : ∀ ob, ∀ c ∈ t.calls ob, t.last ≤ c.when
  counted : Table.Counted t.numCall t.calls

theorem Table.Ok.consistent {t : Table} (h : t.Ok) : Consistent t := by
  have hhead {ob : Obj} {c : Call} {cs : List Call} (hc : t.calls ob = c :: cs) :
      t.head ob = some c.when := by
    rw [Table.head, hc]
    rfl
  refine ⟨h.linked.sorted, fun ob k ↦ ?_, h.linked.wheel.nodup, fun k ↦ ?_, h.due, h.counted⟩
  · rw [h.linked.wheel.mem]
    constructor
    · rintro ⟨w, hw, rfl⟩
      rcases hc : t.calls ob with - | ⟨c, cs⟩
      · simp [Table.head, hc, headWhen] at hw
      · refine ⟨c, cs, rfl, ?_⟩
        rw [← slotOf_eq, some.inj ((hhead hc).symm.trans hw)]
    · rintro ⟨c, cs, hc, rfl⟩
      exact ⟨c.when, hhead hc, slotOf_eq _⟩
  · refine (h.linked.wheel.sorted k).imp fun hpq c cs d ds hc hd ↦ ?_
    exact hpq _ _ (hhead hc) (hhead hd)

/-- **The tables are consistent** in every state of every run, between passes as well as while
callbacks run, and no `fatal` is ever reached. -/
theorem call_out_invariant (m : Option State) (hm : callOuts.Reachable m) :
    ∃ s, m = some s ∧ Consistent s.table := by
  obtain ⟨s, hs, hinv⟩ := inv_of_reachable hm
  exact ⟨s, hs, hinv.table.consistent⟩

/-- Two calls of object 0, the first of which repeats, and one of object 1, due with the first; then
a pass that calls both due ones, of which that of object 1 fails. -/
def busyRun : List Event :=
  let scan := Event.scan ⟨fun _ ↦ false, fun _ ↦ false⟩
  [.newCallOut 0 0 2 3 none, .newCallOut 0 1 9 0 none, .newCallOut 1 0 2 0 (some 0),
    .setCurrentTime 2, .callOut, scan, scan, scan, .callFails, scan, .callReturns]

theorem busyRun_calls : ((State.init 0).run busyRun).any (fun s ↦
    (s.table.calls 0).map (fun c ↦ (c.when, c.reload)) == [(5, 3), (9, 0)] &&
      s.table.calls 1 == []) = true := by
  decide +kernel

/-- They are in a pass that has called a repeating call and another one. -/
theorem call_out_invariant_busy : ∃ s, (State.init 0).run busyRun = some s ∧
    (s.table.calls 0).map (fun c ↦ (c.when, c.reload)) = [(5, 3), (9, 0)] ∧
      Consistent s.table := by
  obtain ⟨s, hrun, hs⟩ := (any_eq_true _ _).1 busyRun_calls
  rw [Bool.and_eq_true, beq_iff_eq] at hs
  obtain ⟨_, ⟨⟩, h⟩ := call_out_invariant _ (reachable_of_run (.init ⟨0, by decide, rfl⟩) hrun)
  exact ⟨s, hrun, hs.1, h⟩

/-! ### Passes -/

/-- The rest of a pass: events up to the end of `call_out`, in whatever callbacks it makes. -/
inductive Pass : State → State → Prop where
  | done {s : State} : s.phase = .idle → Pass s s
  | step {s s' s'' : State} {e : Event} :
      s.phase ≠ .idle → s.Enabled e → s.exec e = some s' → Pass s' s'' → Pass s s''

namespace State

/-- A call of `call_out` in state `s` returns in state `s'`. -/
def Returns (s s' : State) : Prop :=
  ∃ s₁, s.exec .callOut = some s₁ ∧ Pass s₁ s'

/-- No pending call is due any more: those that were due have been executed, and have another
due time if they are still pending. -/
def Punctual (s : State) : Prop :=
  ∀ ob, ∀ c ∈ s.table.calls ob, s.alarmTime < c.when

/-- `call_out`, called in `s`, leaves no due call pending. -/
def OnTime (s : State) : Prop :=
  ∀ s', s.Returns s' → s'.Punctual

end State

/-- **A pass through the slots ends behind the clock**, whatever its callbacks do. -/
theorem Pass.punctual {s s' : State} (h : Pass s s') (hinv : s.Inv) (hphase : s.phase ≠ .idle) :
    s'.Punctual := by
  induction h with
  | done hidle => exact absurd hidle hphase
  | @step s s₁ s₂ e _ he hexec hpass ih =>
    obtain ⟨s', hs', hinv₁, hlast⟩ := State.exec_spec hinv he
    obtain rfl := some.inj (hs'.symm.trans hexec)
    by_cases hidle : s'.phase = .idle
    · cases hpass with
      | done _ =>
        exact fun ob c hc ↦ ((hlast hphase).2 hidle).trans_le (hinv₁.table.due ob c hc)
      | step hne _ _ _ => exact absurd hidle hne
    · exact ih hinv₁ hidle

/-- Where `call_out` returns at once, it changes nothing but the timeout. -/
theorem State.early_return {s : State} (hinv : s.Inv) (hidle : s.phase = .idle)
    (hle : s.alarmTime ≤ s.table.last) (hrun : s.inhibitcallouts = false) :
    ∃ tv, ∀ s', s.Returns s' ↔ s' = { s with tv := tv } := by
  obtain ⟨tv, htv⟩ := nextCallOut_spec hinv.table.linked s.alarmTime s.table.last
  have hexec : s.exec .callOut = some { s with tv := tv } := by
    rw [exec, callOut, if_neg (by simp [hrun]), if_pos hle, htv, map_some]
  refine ⟨tv, fun s' ↦ ⟨?_, ?_⟩⟩
  · rintro ⟨s₁, hs₁, hpass⟩
    obtain rfl := some.inj (hexec.symm.trans hs₁)
    cases hpass with
    | done _ => rfl
    | step hne _ _ _ => exact absurd hidle hne
  · rintro rfl
    exact ⟨_, hexec, .done hidle⟩

/-- A pending call is due at the very tick that `last` and the clock are at. -/
def State.Late (s : State) : Prop :=
  s.table.last = s.alarmTime ∧ ∃ ob, ∃ c ∈ s.table.calls ob, c.when = s.alarmTime

theorem State.onTime_iff {s : State} (hinv : s.Inv) (hidle : s.phase = .idle)
    (hrun : s.inhibitcallouts = false) : s.OnTime ↔ ¬s.Late := by
  rcases Nat.lt_or_ge s.table.last s.alarmTime with hlt | hge
  · -- A pass through the slots.
    have hexec : s.exec .callOut = some { s with phase := .scanning } := by
      rw [exec, callOut, if_neg (by simp [hrun]), if_neg (Nat.not_le.2 hlt)]
    refine iff_of_true ?_ fun hlate ↦ hlt.ne hlate.1
    rintro s' ⟨s₁, hs₁, hpass⟩
    obtain rfl := some.inj (hexec.symm.trans hs₁)
    exact hpass.punctual ⟨hinv.table, hinv.clock, hinv.last, nofun⟩ nofun
  · obtain ⟨tv, hret⟩ := early_return hinv hidle hge hrun
    constructor
    · rintro hon ⟨-, ob, c, hc, hwhen⟩
      have hlt := hon _ ((hret _).2 rfl) ob c hc
      exact absurd hwhen.symm hlt.ne
    · intro hlate s' hs'
      obtain rfl := (hret s').1 hs'
      intro ob c hc
      have hdue := hinv.table.due ob c hc
      refine lt_of_le_of_ne (hge.trans hdue) fun heq ↦ hlate ⟨?_, ob, c, hc, heq.symm⟩
      exact le_antisymm (hdue.trans heq.ge) hge

/-- **A call of `call_out` leaves a due call pending** exactly where `last` has reached the clock
and a call is due at this very tick; and no call is ever executed before it is due. -/
theorem punctual_iff (s : State) (hs : callOuts.Reachable (some s)) (hidle : s.phase = .idle)
    (hrun : s.inhibitcallouts = false) :
    (s.OnTime ∧ ∀ s', callOuts.Reachable (some s') → ∀ ob cop giver id,
      s'.phase = .calling ob cop giver id → cop.when ≤ s'.alarmTime) ↔ ¬s.Late := by
  have hinv {s' : State} (hs' : callOuts.Reachable (some s')) : s'.Inv := by
    obtain ⟨s'', ⟨⟩, h⟩ := inv_of_reachable hs'
    exact h
  rw [← State.onTime_iff (hinv hs) hidle hrun]
  exact and_iff_left fun s' hs' ob cop giver id hc ↦ ((hinv hs').calling ob cop giver id hc).2

/-- Two calls, the first of which is due. -/
def dueRun : List Event :=
  [.newCallOut 0 0 2 3 none, .newCallOut 1 0 9 0 none, .setCurrentTime 2]

theorem dueRun_due : ((State.init 0).run dueRun).any (fun s ↦
    s.phase = .idle && !s.inhibitcallouts && decide (s.table.last ≠ s.alarmTime) &&
      (s.table.calls 0).map Call.when == [s.alarmTime]) = true := by
  decide +kernel

/-- A call that is due is called: `last` is behind the clock. -/
theorem punctual_iff_due : ∃ s, (State.init 0).run dueRun = some s ∧
    (s.table.calls 0).map Call.when = [s.alarmTime] ∧ s.OnTime := by
  obtain ⟨s, hrun, hs⟩ := (any_eq_true _ _).1 dueRun_due
  simp only [Bool.and_eq_true, Bool.not_eq_true', beq_iff_eq, decide_eq_true_eq] at hs
  obtain ⟨⟨⟨hidle, hinh⟩, hlast⟩, hcalls⟩ := hs
  have hreach : callOuts.Reachable (some s) := reachable_of_run (.init ⟨0, by decide, rfl⟩) hrun
  exact ⟨s, hrun, hcalls, ((punctual_iff s hreach hidle hinh).2 fun h ↦ hlast h.1).1⟩

/-! ### A call that is late -/

/-- A pass at tick 1, which leaves `last` at 2; then an alarm one tick ahead, and tick 2. -/
def lateRun : List Event :=
  let scan := Event.scan ⟨fun _ ↦ false, fun _ ↦ false⟩
  [.setCurrentTime 1, .callOut, scan, scan, scan, .newCallOut 0 0 1 0 none, .setCurrentTime 2]

theorem lateRun_late : ((State.init 0).run lateRun).any (fun s ↦
    s.phase = .idle && !s.inhibitcallouts && s.table.last == s.alarmTime &&
      (s.table.calls 0).map Call.when == [s.alarmTime]) = true := by
  decide +kernel

/-- **An alarm that is due at the tick `last` has reached** is left for the next pass. -/
theorem not_punctual : ¬∀ s, callOuts.Reachable (some s) → s.phase = .idle →
    s.inhibitcallouts = false → s.OnTime := by
  intro hall
  obtain ⟨s, hrun, hs⟩ := (any_eq_true _ _).1 lateRun_late
  simp only [Bool.and_eq_true, Bool.not_eq_true', beq_iff_eq, decide_eq_true_eq] at hs
  obtain ⟨⟨⟨hidle, hinh⟩, hlast⟩, hcalls⟩ := hs
  have hreach : callOuts.Reachable (some s) :=
    reachable_of_run (.init ⟨0, by decide, rfl⟩) hrun
  obtain ⟨s', ⟨⟩, hinv⟩ := inv_of_reachable hreach
  refine (State.onTime_iff hinv hidle hinh).1 (hall s hreach hidle hinh) ⟨hlast, 0, ?_⟩
  obtain ⟨c, hc⟩ := map_eq_singleton_iff.1 hcalls
  exact ⟨c, by rw [hc.1]; exact mem_singleton_self c, hc.2⟩

end Lpmud.CallOut
