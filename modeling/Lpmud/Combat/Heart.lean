import Lpmud.CallOut.Effect

/-!
# Heart beats

The rounds of a fight are the calls of `heart_beat` in the combat object, which sets a repeating
alarm for them. `restart_heart`, `stop_heart`, `cb_set_speed` and `cb_update_combat` create, replace
and cancel this alarm, and `alarm_id` is to say which one it is.

The alarms are those of the driver, and so is the time: its machine goes on as it does, with calls
of these functions wherever LPC code runs. Of the combat object only the variables are here that
have to do with the alarm. An alarm of `heart_beat` is known by its function: the closures that the
source makes of it, one for each alarm, count as one. The conversion of a speed to seconds and back
to ticks is left out, since a tick is a tenth of a second and a speed is a number of those.

`cb_set_speed` sets a second alarm beside a pending one, the identification of which is then lost;
and `restart_heart` takes the number of attacks in a minute for the time between two of them.
`oneHeart_of_reachable` is about the runs in which neither matters, and in which identifications are
not used again while they are in use.
-/

namespace Lpmud.Heart

open Function List Option CallOut

/-- What a function finds when it is called: `command_giver`, and how tired the living is. -/
structure Context where
  commandGiver : Option Obj
  fatigue : Int32
  maxFatigue : Int32

structure State where
  driver : CallOut.State
  alarmId : Int32
  setSpeed : Int32
  realSpeed : Int32
  /-- The real speed when the alarm was set: the least number of ticks between two rounds. -/
  allowed : ℕ
  /-- When `heart_beat` was last called. -/
  lastRound : ℕ

section Fighter

variable (ob : Obj) (heartBeat : ℕ)

/-- The pending alarms of the combat object. -/
def State.calls (s : State) : List Call := s.driver.table.calls ob

def State.getAlarm (s : State) (ident : Int32) : Option Call :=
  (s.calls ob).find? (·.id = ident)

/-- `cb_query_real_speed`, unless it divides by zero. -/
def cbQueryRealSpeed (c : Context) (s : State) : Option Int32 :=
  if c.maxFatigue = 0 then none
  else some (s.setSpeed + 60 * (c.maxFatigue - c.fatigue) / c.maxFatigue)

/-- `cb_query_speed`, unless it divides by zero. -/
def cbQuerySpeed (s : State) : Option Int32 :=
  if s.setSpeed = 0 then none else some (600 / s.setSpeed)

/-- `alarm_id = set_alarm(delay, reload, heart_beat)`. After an error `alarm_id` is what it was. -/
def setHeartBeat (c : Context) (delay reload : Int32) (allowed : ℕ) (s : State) : Option State :=
  (s.driver.table.newCallOut s.driver.alarmTime ob heartBeat delay reload c.commandGiver).map
    fun (t, r) ↦
      match r with
      | .ok id =>
        { s with driver := { s.driver with table := t }, alarmId := id, allowed := allowed }
      | .error _ => { s with driver := { s.driver with table := t } }

/-- `remove_alarm(alarm_id)`. -/
def removeHeartBeat (s : State) : Option State :=
  (s.driver.table.deleteCall ob s.alarmId).map fun t ↦
    { s with driver := { s.driver with table := t } }

def restartHeart (c : Context) (s : State) : Option State :=
  if s.alarmId = 0 ∨ s.getAlarm ob s.alarmId = none then
    match cbQuerySpeed s with
    | none => some s
    | some spd =>
      setHeartBeat ob heartBeat c spd spd ((cbQueryRealSpeed c s).elim 0 (·.toInt.toNat))
        { s with realSpeed := spd }
  else some s

def stopHeart (s : State) : Option State :=
  (removeHeartBeat ob s).map fun s ↦ { s with alarmId := 0 }

/-- `cb_set_speed`. It stops with an error if there is no alarm with the identification that it
has. -/
def cbSetSpeed (speed : Int32) (c : Context) (s : State) : Option State :=
  let speed := if speed < 1 then 1 else speed
  let speed := if 60 < speed then 60 else speed
  let s := { s with setSpeed := 600 / speed }
  match cbQueryRealSpeed c s with
  | none => some s
  | some spd =>
    let s := { s with realSpeed := spd }
    if s.alarmId ≠ 0 then
      match s.getAlarm ob s.alarmId with
      | none => some s
      | some cop =>
        setHeartBeat ob heartBeat c (Int32.ofNat (cop.when - s.driver.alarmTime)) spd
          spd.toInt.toNat s
    else some s

/-- `cb_update_combat`, after what it does to the living. -/
def cbUpdateCombat (c : Context) (s : State) : Option State :=
  match cbQueryRealSpeed c s with
  | none => some s
  | some spd =>
    if s.realSpeed ≠ spd then
      (removeHeartBeat ob { s with realSpeed := spd }).bind
        (setHeartBeat ob heartBeat c spd spd spd.toInt.toNat)
    else some s

/-! ### Runs -/

/-- What happens: a function of the combat object is called, or anything in the driver. -/
inductive Event where
  | restartHeart (c : Context)
  | stopHeart
  | cbSetSpeed (speed : Int32) (c : Context)
  | cbUpdateCombat (c : Context)
  | driver (e : CallOut.Event)

/-- The driver has just called `heart_beat`. -/
def called (d : CallOut.State) : Bool :=
  match d.phase with
  | .calling ob' cop _ _ => ob' = ob ∧ cop.func = heartBeat
  | _ => false

/-- One event. -/
def exec (s : State) : Event → Option State
  | .restartHeart c => restartHeart ob heartBeat c s
  | .stopHeart => stopHeart ob s
  | .cbSetSpeed speed c => cbSetSpeed ob heartBeat speed c s
  | .cbUpdateCombat c => cbUpdateCombat ob heartBeat c s
  | .driver e =>
    (s.driver.exec e).map fun d ↦
      { s with
        driver := d
        lastRound :=
          if s.driver.phase = .scanning ∧ called ob heartBeat d then d.alarmTime else s.lastRound }

/-- When an event can happen. No other code sets an alarm for `heart_beat`, which is a static
function, and the combat object does not exchange its alarms with another object. -/
def Enabled (s : State) : Event → Prop
  | .driver (.newCallOut ob' func delay reload giver) =>
    s.driver.Enabled (.newCallOut ob' func delay reload giver) ∧ (ob' = ob → func ≠ heartBeat)
  | .driver (.callOutSwapObjects ob₁ ob₂) =>
    s.driver.Enabled (.callOutSwapObjects ob₁ ob₂) ∧ ob ≠ ob₁ ∧ ob ≠ ob₂
  | .driver e => s.driver.Enabled e
  | _ => s.driver.phase ≠ .scanning

/-- The combat object, from its creation on. -/
def fights : TransitionSystem State Event where
  Init s := CallOut.callOuts.Reachable (some s.driver) ∧ s.calls ob = [] ∧ s.alarmId = 0 ∧
    s.setSpeed = 40 ∧ s.realSpeed = 0 ∧ s.allowed = 0 ∧ s.lastRound = 0
  Step s e s' := Enabled ob heartBeat s e ∧ exec ob heartBeat s e = some s'

/-- No pending alarm has the identification. -/
def Unused (l : List Call) (ident : Int32) : Prop := ∀ c ∈ l, c.id ≠ ident

/-- The calls by which the alarm stays the only one. `cb_set_speed` finds no alarm, or there are too
many to set another one; an alarm that `restart_heart` sets does not come too soon; and a new alarm
gets an identification that is not 0, and that no other alarm of the object has. -/
def Sound (s : State) : Event → Prop
  | .restartHeart c =>
    s.alarmId = 0 ∨ s.getAlarm ob s.alarmId = none → (s.calls ob).length < MAX_CALL_OUT →
      ∀ spd, cbQuerySpeed s = some spd →
        (s.driver.table.callId ≠ 0 ∧ Unused (s.calls ob) s.driver.table.callId) ∧
          ∀ real, cbQueryRealSpeed c s = some real → real.toInt ≤ spd.toInt
  | .stopHeart => True
  | .cbSetSpeed _ _ =>
    s.alarmId = 0 ∨ s.getAlarm ob s.alarmId = none ∨ MAX_CALL_OUT ≤ (s.calls ob).length
  | .cbUpdateCombat c => ∀ spd, cbQueryRealSpeed c s = some spd → spd ≠ s.realSpeed →
    let rest := (s.calls ob).eraseP (·.id = s.alarmId)
    rest.length < MAX_CALL_OUT →
      s.driver.table.callId ≠ 0 ∧ Unused rest s.driver.table.callId
  | .driver (.newCallOut ob' _ _ _ _) =>
    ob' = ob → (s.calls ob).length < MAX_CALL_OUT → Unused (s.calls ob) s.driver.table.callId
  | .driver _ => True

/-- **One heart beat**: no two alarms for `heart_beat` are pending, `alarm_id` says which one is,
`stop_heart` ends the rounds, and no round comes sooner after another one than the speed of the
living allowed when the alarm was set. -/
structure OneHeart (s : State) : Prop where
  single : ((s.calls ob).filter (·.func = heartBeat)).length ≤ 1
  identified : ∀ c ∈ s.calls ob, c.func = heartBeat →
    s.alarmId ≠ 0 ∧ s.getAlarm ob s.alarmId = some c
  stops : ∀ s', stopHeart ob s = some s' → ∀ c ∈ s'.calls ob, c.func ≠ heartBeat
  paced : ∀ e s', (fights ob heartBeat).Step s (.driver e) s' → s.driver.phase = .scanning →
    called ob heartBeat s'.driver = true → s.lastRound + s.allowed ≤ s'.driver.alarmTime

end Fighter

/-! ### The alarms of one object -/

variable {ob : Obj} {heartBeat : ℕ} {s s' : State} {l : List Call} {alarmId : Int32}
  {allowed lastRound : ℕ} {cop : Call}

/-- What holds of the alarms of the combat object. -/
structure Pending (heartBeat : ℕ) (l : List Call) (alarmId : Int32) (allowed lastRound : ℕ) :
    Prop where
  ids : (l.map Call.id).Nodup
  beat : ∀ c ∈ l, c.func = heartBeat → c.id = alarmId ∧ alarmId ≠ 0
  pace : ∀ c ∈ l, c.func = heartBeat → allowed ≤ c.reload ∧ lastRound + allowed ≤ c.when

namespace Pending

theorem sublist {l' : List Call} (h : Pending heartBeat l alarmId allowed lastRound)
    (hsub : l'.Sublist l) : Pending heartBeat l' alarmId allowed lastRound :=
  ⟨h.ids.sublist (hsub.map _), fun c hc ↦ h.beat c (hsub.subset hc),
    fun c hc ↦ h.pace c (hsub.subset hc)⟩

/-- While no alarm for `heart_beat` is pending the variables may change. -/
theorem of_none {alarmId' : Int32} {allowed' lastRound' : ℕ}
    (h : Pending heartBeat l alarmId allowed lastRound) (hnone : ∀ c ∈ l, c.func ≠ heartBeat) :
    Pending heartBeat l alarmId' allowed' lastRound' :=
  ⟨h.ids, fun c hc hfunc ↦ absurd hfunc (hnone c hc), fun c hc hfunc ↦ absurd hfunc (hnone c hc)⟩

theorem nodup_insertCall (hl : (l.map Call.id).Nodup) (hcop : Unused l cop.id) :
    ((Table.insertCall cop l).map Call.id).Nodup := by
  have hperm : (Table.insertCall cop l).Perm (cop :: l) := perm_orderedInsert _ cop l
  rw [(hperm.map Call.id).nodup_iff, map_cons, nodup_cons]
  exact ⟨fun hmem ↦ by
    obtain ⟨c, hc, hid⟩ := mem_map.1 hmem
    exact hcop c hc hid, hl⟩

theorem insert_other (h : Pending heartBeat l alarmId allowed lastRound) (hcop : Unused l cop.id)
    (hfunc : cop.func ≠ heartBeat) :
    Pending heartBeat (Table.insertCall cop l) alarmId allowed lastRound := by
  refine ⟨nodup_insertCall h.ids hcop, fun c hc hf ↦ ?_, fun c hc hf ↦ ?_⟩
  all_goals obtain rfl | hc := Table.mem_insertCall.1 hc
  · exact absurd hf hfunc
  · exact h.beat c hc hf
  · exact absurd hf hfunc
  · exact h.pace c hc hf

/-- The alarm for `heart_beat` is set, or set again. -/
theorem insert_beat (h : Pending heartBeat l alarmId allowed lastRound) (hcop : Unused l cop.id)
    (hnone : ∀ c ∈ l, c.func ≠ heartBeat) (hid : cop.id ≠ 0) {allowed' lastRound' : ℕ}
    (hreload : allowed' ≤ cop.reload) (hwhen : lastRound' + allowed' ≤ cop.when) :
    Pending heartBeat (Table.insertCall cop l) cop.id allowed' lastRound' := by
  refine ⟨nodup_insertCall h.ids hcop, fun c hc hf ↦ ?_, fun c hc hf ↦ ?_⟩
  all_goals obtain rfl | hc := Table.mem_insertCall.1 hc
  · exact ⟨rfl, hid⟩
  · exact absurd hf (hnone c hc)
  · exact ⟨hreload, hwhen⟩
  · exact absurd hf (hnone c hc)

/-- After the alarm that `alarm_id` says is gone, no alarm for `heart_beat` is pending. -/
theorem none_of_erase (h : Pending heartBeat l alarmId allowed lastRound) :
    ∀ c ∈ l.eraseP (·.id = alarmId), c.func ≠ heartBeat := by
  intro c hc hfunc
  have hmem := mem_of_mem_eraseP hc
  have hid : decide (c.id = alarmId) = true := decide_eq_true (h.beat c hmem hfunc).1
  obtain ⟨a, l₁, l₂, -, ha, rfl, herase⟩ :=
    exists_of_eraseP (p := fun c ↦ decide (c.id = alarmId)) hmem hid
  rw [herase] at hc
  have hids := (perm_middle.map Call.id).nodup_iff.1 h.ids
  rw [map_cons, nodup_cons] at hids
  refine hids.1 (mem_map.2 ⟨c, hc, ?_⟩)
  exact (of_decide_eq_true hid).trans (of_decide_eq_true ha).symm

/-- An alarm is made: if it was one for `heart_beat` then that was the last round now. -/
theorem made {cops : List Call} {giver : Option Obj} {now when' : ℕ}
    (h : Pending heartBeat (cop :: cops) alarmId allowed lastRound)
    (hwhen : when' = now + cop.reload) :
    Pending heartBeat
      (if 0 < cop.reload then
        Table.insertCall { cop with when := when', commandGiver := giver } cops
      else cops)
      alarmId allowed (if cop.func = heartBeat then now else lastRound) := by
  have hids := h.ids
  rw [map_cons, nodup_cons] at hids
  have hunused : Unused cops cop.id := fun c hc hid ↦ hids.1 (mem_map.2 ⟨c, hc, hid⟩)
  have hcops := h.sublist (sublist_cons_self cop cops)
  by_cases hfunc : cop.func = heartBeat
  · rw [if_pos hfunc]
    obtain ⟨hid, hzero⟩ := h.beat cop (mem_cons_self ..) hfunc
    have hnone : ∀ c ∈ cops, c.func ≠ heartBeat := fun c hc hf ↦
      hunused c hc ((hcops.beat c hc hf).1.trans hid.symm)
    split
    · have hreload := (h.pace cop (mem_cons_self ..) hfunc).1
      subst hid hwhen
      refine hcops.insert_beat ?_ hnone ?_ hreload (Nat.add_le_add_left hreload now)
      · exact hunused
      · exact hzero
    · exact hcops.of_none hnone
  · rw [if_neg hfunc]
    split
    · exact hcops.insert_other hunused hfunc
    · exact hcops

end Pending

/-! ### Steps -/

/-- What holds in every state of a run of sound calls. -/
structure Inv (ob : Obj) (heartBeat : ℕ) (s : State) : Prop where
  driver : s.driver.Inv
  pending : Pending heartBeat (s.calls ob) s.alarmId s.allowed s.lastRound
  clock : s.lastRound ≤ s.driver.alarmTime

/-- `remove_alarm(alarm_id)` takes the alarm for `heart_beat` away. -/
theorem removeHeartBeat_spec (h : Inv ob heartBeat s) (hphase : s.driver.phase ≠ .scanning)
    (hs : removeHeartBeat ob s = some s') :
    Inv ob heartBeat s' ∧ (∀ c ∈ s'.calls ob, c.func ≠ heartBeat) ∧
      ∃ t, s' = { s with driver := { s.driver with table := t } } ∧
        t.callId = s.driver.table.callId ∧ t.calls ob = (s.calls ob).eraseP (·.id = s.alarmId) := by
  obtain ⟨t, ht, rfl⟩ := map_eq_some_iff.1 hs
  obtain ⟨hcalls, hid, -⟩ := Table.deleteCall_eq ht
  have hob : t.calls ob = (s.calls ob).eraseP (·.id = s.alarmId) := by
    rw [hcalls, update_self]
    rfl
  obtain ⟨d, hd, hinv, -⟩ := State.exec_spec h.driver (e := .deleteCall ob s.alarmId) hphase
  rw [CallOut.State.exec, ht, map_some] at hd
  obtain rfl := some.inj hd
  have hnone : ∀ c ∈ t.calls ob, c.func ≠ heartBeat := hob ▸ h.pending.none_of_erase
  refine ⟨⟨hinv, ?_, h.clock⟩, hnone, t, rfl, hid, hob⟩
  show Pending heartBeat (t.calls ob) s.alarmId s.allowed s.lastRound
  exact hob ▸ h.pending.sublist eraseP_sublist

/-- An alarm is set when none for `heart_beat` is pending, or when there are too many. -/
theorem setHeartBeat_spec {c : Context} {delay reload : Int32} {allowed : ℕ}
    (h : Inv ob heartBeat s) (hphase : s.driver.phase ≠ .scanning)
    (hset : (s.calls ob).length < MAX_CALL_OUT → (∀ c ∈ s.calls ob, c.func ≠ heartBeat) ∧
      (s.driver.table.callId ≠ 0 ∧ Unused (s.calls ob) s.driver.table.callId) ∧
        allowed ≤ reload.toInt.toNat ∧ allowed ≤ delay.toInt.toNat)
    (hs : setHeartBeat ob heartBeat c delay reload allowed s = some s') :
    Inv ob heartBeat s' := by
  obtain ⟨⟨t, r⟩, ht, rfl⟩ := map_eq_some_iff.1 hs
  obtain ⟨d, hd, hinv, -⟩ := State.exec_spec h.driver
    (e := .newCallOut ob heartBeat delay reload c.commandGiver) hphase
  rw [CallOut.State.exec, ht, map_some] at hd
  obtain rfl := some.inj hd
  obtain ⟨-, ⟨-, hcalls, -, e, rfl⟩ | ⟨hlen, rfl, -, cop, hfunc, hreload, hident, hwhen, hcalls⟩⟩ :=
    Table.newCallOut_eq ht
  · -- too many alarms: none is left
    have hnil : t.calls ob = [] := by rw [hcalls, update_self]
    refine ⟨hinv, ?_, h.clock⟩
    show Pending heartBeat (t.calls ob) s.alarmId s.allowed s.lastRound
    exact hnil ▸ h.pending.sublist (nil_sublist _)
  · have hlist : t.calls ob = Table.insertCall cop (s.calls ob) := by
      rw [hcalls, update_self]
      rfl
    obtain ⟨hnone, ⟨hzero, hunused⟩, hle, hle'⟩ := hset hlen
    refine ⟨hinv, ?_, h.clock⟩
    show Pending heartBeat (t.calls ob) s.driver.table.callId allowed s.lastRound
    rw [hlist, ← hident]
    rw [← hident] at hzero hunused
    refine h.pending.insert_beat hunused hnone hzero (hreload ▸ hle) ?_
    have hclock := h.clock
    have hbound := h.driver.clock
    have hdelay := delay.toInt_lt
    rw [hwhen, Nat.mod_eq_of_lt (by split <;> omega)]
    split <;> omega

/-- If `alarm_id` says no alarm then none for `heart_beat` is pending. -/
theorem Inv.none_of_getAlarm (h : Inv ob heartBeat s)
    (hstart : s.alarmId = 0 ∨ s.getAlarm ob s.alarmId = none) :
    ∀ c ∈ s.calls ob, c.func ≠ heartBeat := by
  intro c hc hfunc
  obtain ⟨hid, hzero⟩ := h.pending.beat c hc hfunc
  have hnone := List.find?_eq_none.1 (hstart.resolve_left hzero) c hc
  exact hnone (decide_eq_true hid)

theorem Enabled.scan {e : CallOut.Event} (he : Enabled ob heartBeat s (.driver e))
    (hphase : s.driver.phase = .scanning) : ∃ flags, e = .scan flags := by
  cases e with
  | scan flags => exact ⟨flags, rfl⟩
  | setCurrentTime now => exact absurd (he.1.symm.trans hphase) nofun
  | callOut => exact absurd (Eq.trans (Eq.symm he) hphase) nofun
  | newCallOut => exact absurd hphase he.1
  | callOutSwapObjects => exact absurd hphase he.1.1
  | callReturns => exact absurd hphase he.2
  | callFails => exact absurd hphase he.2
  | deleteCall => exact absurd hphase he
  | deleteAllCalls => exact absurd hphase he
  | inhibitCallOuts => exact absurd hphase he

theorem quiet_spec {e : CallOut.Event} {d : CallOut.State} (h : Inv ob heartBeat s)
    (he : Enabled ob heartBeat s (.driver e)) (hok : Sound ob s (.driver e))
    (hscan : ∀ flags, e ≠ .scan flags) (hd : s.driver.exec e = some d) :
    Pending heartBeat (d.table.calls ob) s.alarmId s.allowed s.lastRound ∧
      s.driver.alarmTime ≤ d.alarmTime := by
  have hp := h.pending
  -- the alarms of another object are of no interest
  have hupdate : ∀ {p : Obj} {l : List Call}, (p = ob → Pending heartBeat l s.alarmId s.allowed
      s.lastRound) → Pending heartBeat (update s.driver.table.calls p l ob) s.alarmId
        s.allowed s.lastRound := by
    intro p l hl
    by_cases hpo : p = ob
    · subst hpo
      rw [update_self]
      exact hl rfl
    · rw [update_of_ne (Ne.symm hpo)]
      exact hp
  cases e with
  | setCurrentTime now =>
    obtain rfl := some.inj hd
    exact ⟨hp, he.2.1⟩
  | newCallOut p func delay reload giver =>
    obtain ⟨⟨t, r⟩, ht, rfl⟩ := map_eq_some_iff.1 hd
    obtain ⟨-, ⟨-, hcalls, -, -⟩ | ⟨hlen, -, -, cop, hfunc, -, hident, -, hcalls⟩⟩ :=
      Table.newCallOut_eq ht
    · exact ⟨hcalls ▸ hupdate fun _ ↦ hp.sublist (nil_sublist _), le_rfl⟩
    · refine ⟨hcalls ▸ hupdate fun hpo ↦ ?_, le_rfl⟩
      subst hpo
      exact hp.insert_other (hident ▸ hok rfl hlen) (hfunc ▸ he.2 rfl)
  | deleteCall p ident =>
    obtain ⟨t, ht, rfl⟩ := map_eq_some_iff.1 hd
    obtain ⟨hcalls, -⟩ := Table.deleteCall_eq ht
    refine ⟨hcalls ▸ hupdate fun hpo ↦ ?_, le_rfl⟩
    subst hpo
    exact hp.sublist eraseP_sublist
  | deleteAllCalls p =>
    obtain ⟨t, ht, rfl⟩ := map_eq_some_iff.1 hd
    obtain ⟨hcalls, -⟩ := Table.deleteAllCalls_eq ht
    exact ⟨hcalls ▸ hupdate fun _ ↦ hp.sublist (nil_sublist _), le_rfl⟩
  | callOutSwapObjects ob₁ ob₂ =>
    obtain ⟨t, ht, rfl⟩ := map_eq_some_iff.1 hd
    obtain ⟨hcalls, -⟩ := Table.callOutSwapObjects_eq ht he.2.1 he.2.2
    refine ⟨?_, le_rfl⟩
    show Pending heartBeat (t.calls ob) s.alarmId s.allowed s.lastRound
    exact hcalls ▸ hp
  | inhibitCallOuts b =>
    obtain rfl := some.inj hd
    exact ⟨hp, le_rfl⟩
  | callOut =>
    have hsame : d.table.calls = s.driver.table.calls ∧ d.alarmTime = s.driver.alarmTime := by
      rw [CallOut.State.exec, CallOut.State.callOut] at hd
      split at hd
      · obtain rfl := some.inj hd
        exact ⟨rfl, rfl⟩
      split at hd
      · obtain ⟨tv, -, rfl⟩ := map_eq_some_iff.1 hd
        exact ⟨rfl, rfl⟩
      · obtain rfl := some.inj hd
        exact ⟨rfl, rfl⟩
    exact ⟨hsame.1 ▸ hp, hsame.2.ge⟩
  | scan flags => exact absurd rfl (hscan flags)
  | callReturns =>
    obtain rfl := some.inj hd
    exact ⟨hp, le_rfl⟩
  | callFails =>
    rw [CallOut.State.exec, CallOut.State.callFails] at hd
    split at hd
    · split at hd
      · obtain rfl := some.inj hd
        exact ⟨hp, le_rfl⟩
      · obtain ⟨t, ht, rfl⟩ := map_eq_some_iff.1 hd
        obtain ⟨hcalls, -⟩ := Table.deleteCall_eq ht
        refine ⟨hcalls ▸ hupdate fun hpo ↦ ?_, le_rfl⟩
        subst hpo
        exact hp.sublist eraseP_sublist
    · obtain rfl := some.inj hd
      exact ⟨hp, le_rfl⟩

/-- A round of the driver's loops: if it calls `heart_beat` then that was the last round now, which
did not come too soon. -/
theorem scan_spec {flags : ObFlags} {d : CallOut.State} (h : Inv ob heartBeat s)
    (hphase : s.driver.phase = .scanning) (hd : s.driver.scan flags = some d) :
    Pending heartBeat (d.table.calls ob) s.alarmId s.allowed
        (if called ob heartBeat d then d.alarmTime else s.lastRound) ∧
      d.alarmTime = s.driver.alarmTime ∧
      (called ob heartBeat d = true → s.lastRound + s.allowed ≤ d.alarmTime) := by
  have hp := h.pending
  obtain ⟨hclock, -, ⟨hcalls, hidle⟩ | ⟨p, cop, giver, id, hcalling, hdue, cops, giver', hlist,
    hcalls⟩⟩ := CallOut.State.scan_eq hd
  · have hnot : called ob heartBeat d = false := by
      rw [called]
      obtain hidle | hscanning := hidle
      · rw [hidle]
      · rw [hscanning, hphase]
    rw [hcalls, hnot]
    exact ⟨hp, hclock, by rintro ⟨⟩⟩
  · have hcalled : called ob heartBeat d = decide (p = ob ∧ cop.func = heartBeat) := by
      rw [called, hcalling]
    rw [hcalled, hcalls, hclock]
    obtain rfl | hpo := eq_or_ne p ob
    · have hmod : (s.driver.alarmTime + cop.reload) % 2 ^ 32 =
          s.driver.alarmTime + cop.reload := by
        have hbound := h.driver.clock
        have hreload := cop.reload_lt
        exact Nat.mod_eq_of_lt (by omega)
      rw [update_self]
      refine ⟨?_, rfl, fun hfunc ↦ ?_⟩
      · have hp' : Pending heartBeat (cop :: cops) s.alarmId s.allowed s.lastRound := by
          rw [← hlist]
          exact hp
        simpa using hp'.made hmod
      · have hfunc' : cop.func = heartBeat := by simpa using hfunc
        have hmem : cop ∈ s.calls p := by
          show cop ∈ s.driver.table.calls p
          rw [hlist]
          exact mem_cons_self ..
        exact (hp.pace cop hmem hfunc').2.trans hdue
    · rw [update_of_ne (Ne.symm hpo), if_neg (by simp [hpo])]
      exact ⟨hp, rfl, fun hfunc ↦ absurd (of_decide_eq_true hfunc).1 hpo⟩

/-- **A step of a sound call** keeps the invariant. -/
theorem inv_step {e : Event} (h : Inv ob heartBeat s) (he : Enabled ob heartBeat s e)
    (hok : Sound ob s e) (hs : exec ob heartBeat s e = some s') : Inv ob heartBeat s' := by
  cases e with
  | restartHeart c =>
    rw [exec, restartHeart] at hs
    split at hs
    next hstart =>
      have hnone := h.none_of_getAlarm hstart
      split at hs
      next =>
        obtain rfl := some.inj hs
        exact h
      next spd hspd =>
        refine setHeartBeat_spec (s := { s with realSpeed := spd })
          ⟨h.driver, h.pending, h.clock⟩ he (fun hlen ↦ ?_) hs
        obtain ⟨hid, hreal⟩ := hok hstart hlen spd hspd
        have hallowed : ((cbQueryRealSpeed c s).elim 0 (·.toInt.toNat)) ≤ spd.toInt.toNat := by
          cases hq : cbQueryRealSpeed c s with
          | none => exact Nat.zero_le _
          | some real => exact Int.toNat_le_toNat (hreal real hq)
        exact ⟨hnone, hid, hallowed, hallowed⟩
    next =>
      obtain rfl := some.inj hs
      exact h
  | stopHeart =>
    obtain ⟨s₁, hremove, rfl⟩ := map_eq_some_iff.1 hs
    obtain ⟨hinv, hnone, -⟩ := removeHeartBeat_spec h he hremove
    exact ⟨hinv.driver, hinv.pending.of_none hnone, hinv.clock⟩
  | cbSetSpeed speed c =>
    rw [exec, cbSetSpeed] at hs
    dsimp only at hs
    split at hs
    next =>
      obtain rfl := some.inj hs
      exact ⟨h.driver, h.pending, h.clock⟩
    next spd hspd =>
      split at hs
      next hzero =>
        split at hs
        next =>
          obtain rfl := some.inj hs
          exact ⟨h.driver, h.pending, h.clock⟩
        next cop hcop =>
          -- an alarm is there, so there are too many to set another one
          have hfull := (hok.resolve_left hzero).resolve_left fun hnone ↦
            absurd (hnone.symm.trans hcop) nofun
          exact setHeartBeat_spec (s := { s with setSpeed := _, realSpeed := spd })
            ⟨h.driver, h.pending, h.clock⟩ he (fun hlt ↦ absurd hfull (Nat.not_le.2 hlt)) hs
      next =>
        obtain rfl := some.inj hs
        exact ⟨h.driver, h.pending, h.clock⟩
  | cbUpdateCombat c =>
    rw [exec, cbUpdateCombat] at hs
    split at hs
    next =>
      obtain rfl := some.inj hs
      exact h
    next spd hspd =>
      split at hs
      next hne =>
        obtain ⟨s₁, hremove, hset⟩ := bind_eq_some_iff.1 hs
        have hsame : Inv ob heartBeat { s with realSpeed := spd } :=
          ⟨h.driver, h.pending, h.clock⟩
        obtain ⟨hinv, hnone, t, rfl, hid, hcalls⟩ := removeHeartBeat_spec hsame he hremove
        refine setHeartBeat_spec hinv he (fun hlen ↦ ⟨hnone, ?_, le_rfl, le_rfl⟩) hset
        show t.callId ≠ 0 ∧ Unused (t.calls ob) t.callId
        have hlen' : (t.calls ob).length < MAX_CALL_OUT := hlen
        rw [hcalls] at hlen'
        rw [hid, hcalls]
        exact hok spd hspd (Ne.symm hne) hlen'
      next =>
        obtain rfl := some.inj hs
        exact h
  | driver e =>
    obtain ⟨d, hd, rfl⟩ := map_eq_some_iff.1 hs
    have hinv : d.Inv := by
      have he' : s.driver.Enabled e := by
        cases e <;> first | exact he | exact he.1
      obtain ⟨d', hd', hinv, -⟩ := State.exec_spec h.driver he'
      obtain rfl := some.inj (hd.symm.trans hd')
      exact hinv
    by_cases hphase : s.driver.phase = .scanning
    · obtain ⟨flags, rfl⟩ := he.scan hphase
      obtain ⟨hpending, hclock, -⟩ := scan_spec h hphase hd
      have hlast := h.clock
      refine ⟨hinv, ?_, ?_⟩
      · show Pending heartBeat (d.table.calls ob) s.alarmId s.allowed (if _ then _ else _)
        simpa [hphase] using hpending
      · show (if _ then _ else _) ≤ d.alarmTime
        split <;> omega
    · have hscan : ∀ flags, e ≠ .scan flags := by
        rintro flags rfl
        exact hphase he
      obtain ⟨hpending, hclock⟩ := quiet_spec h he hok hscan hd
      have hlast := h.clock
      refine ⟨hinv, ?_, ?_⟩
      · show Pending heartBeat (d.table.calls ob) s.alarmId s.allowed (if _ then _ else _)
        rw [if_neg fun hcond ↦ hphase hcond.1]
        exact hpending
      · show (if _ then _ else _) ≤ _
        rw [if_neg fun hcond ↦ hphase hcond.1]
        exact hlast.trans hclock

/-- **In every run of sound calls** a fighter has one heart beat. -/
theorem oneHeart_of_reachable (ob : Obj) (heartBeat : ℕ) {s : State}
    (hs : (fights ob heartBeat).ReachableVia (Sound ob) s) : OneHeart ob heartBeat s := by
  have hinv : Inv ob heartBeat s := by
    refine hs.invariant (I := Inv ob heartBeat) (fun s hinit ↦ ?_) ?_
    · obtain ⟨hreach, hcalls, -, -, -, hallowed, hlast⟩ := hinit
      obtain ⟨d, hd, hinv⟩ := inv_of_reachable hreach
      obtain rfl := some.inj hd
      refine ⟨hinv, ?_, hlast ▸ Nat.zero_le _⟩
      rw [hcalls]
      exact ⟨nodup_nil, nofun, nofun⟩
    · intro s e s' h hok hstep
      exact inv_step h hstep.1 hok hstep.2
  have hp := hinv.pending
  refine ⟨?_, fun c hc hfunc ↦ ?_, fun s' hs' ↦ ?_, fun e s' hstep hphase hcalled ↦ ?_⟩
  · -- all of them have the same identification
    have hall := hp.sublist (filter_sublist (p := fun c ↦ decide (c.func = heartBeat)))
    have hfunc : ∀ c ∈ (s.calls ob).filter fun c ↦ decide (c.func = heartBeat),
        c.func = heartBeat := fun c hc ↦ of_decide_eq_true (mem_filter.1 hc).2
    show ((s.calls ob).filter fun c ↦ decide (c.func = heartBeat)).length ≤ 1
    generalize (s.calls ob).filter _ = l at hall hfunc
    match l with
    | [] => exact Nat.zero_le 1
    | [_] => exact le_rfl
    | a :: b :: l =>
      have ha := (hall.beat a (by simp) (hfunc a (by simp))).1
      have hb := (hall.beat b (by simp) (hfunc b (by simp))).1
      exact absurd hall.ids (by simp [ha, hb])
  · obtain ⟨hid, hzero⟩ := hp.beat c hc hfunc
    refine ⟨hzero, ?_⟩
    obtain ⟨c', hc'⟩ : ∃ c', (s.calls ob).find? (·.id = s.alarmId) = some c' :=
      isSome_iff_exists.1 (List.find?_isSome.2 ⟨c, hc, decide_eq_true hid⟩)
    have hid' : c'.id = s.alarmId := by simpa using List.find?_some hc'
    have hmem := mem_of_find?_eq_some hc'
    obtain rfl := inj_on_of_nodup_map hp.ids hmem hc (hid'.trans hid.symm)
    exact hc'
  · obtain ⟨s₁, hremove, rfl⟩ := map_eq_some_iff.1 hs'
    obtain ⟨t, ht, rfl⟩ := map_eq_some_iff.1 hremove
    obtain ⟨hcalls, -⟩ := Table.deleteCall_eq ht
    have hob : t.calls ob = (s.calls ob).eraseP (·.id = s.alarmId) := by
      rw [hcalls, update_self]
      rfl
    show ∀ c ∈ t.calls ob, c.func ≠ heartBeat
    exact hob ▸ hp.none_of_erase
  · obtain ⟨flags, rfl⟩ := Enabled.scan hstep.1 hphase
    obtain ⟨d, hd, rfl⟩ := map_eq_some_iff.1 hstep.2
    exact (scan_spec hinv hphase hd).2.2 hcalled

/-- A fighter at full strength. -/
def rested : Context := ⟨some 0, 100, 100⟩

def newborn : State := ⟨.init 0, 0, 40, 0, 0, 0⟩

theorem newborn_init (heartBeat : ℕ) : (fights 0 heartBeat).Init newborn :=
  ⟨.init ⟨0, by decide, rfl⟩, rfl, rfl, rfl, rfl, rfl, rfl⟩

def fast : State := { newborn with setSpeed := 20, realSpeed := 20 }

theorem oneHeart_of_reachable_fast :
    ∃ s, (s.calls 0).map Call.func = [1] ∧ OneHeart 0 1 s := by
  have hfast : exec 0 1 newborn (.cbSetSpeed 30 rested) = some fast := by rfl
  have hrun : ((exec 0 1 fast (.restartHeart rested)).any fun s ↦
      (s.calls 0).map Call.func == [1]) = true := by
    decide
  obtain ⟨s, hs, hfuncs⟩ := (any_eq_true _ _).1 hrun
  have hidle : Phase.idle ≠ .scanning := nofun
  have hsound : Sound 0 newborn (.cbSetSpeed 30 rested) := Or.inl rfl
  have hreach := TransitionSystem.ReachableVia.step (.init (newborn_init 1)) hsound ⟨hidle, hfast⟩
  refine ⟨s, beq_iff_eq.1 hfuncs, oneHeart_of_reachable 0 1
    (hreach.step (a := .restartHeart rested) ?_ ⟨hidle, hs⟩)⟩
  rintro - - spd hspd
  obtain rfl : 30 = spd := some.inj hspd
  refine ⟨⟨by decide, forall_mem_nil _⟩, fun real hreal ↦ ?_⟩
  obtain rfl : 20 = real := some.inj hreal
  decide

/-! ### A fighter with two heart beats -/

instance (s : State) (e : Event) : Decidable (Enabled ob heartBeat s e) := by
  unfold Enabled
  split <;> infer_instance

/-- A run. -/
def State.run (ob : Obj) (heartBeat : ℕ) (s : State) : List Event → Option State
  | [] => some s
  | e :: es =>
    if Enabled ob heartBeat s e then
      (exec ob heartBeat s e).bind fun s' ↦ s'.run ob heartBeat es
    else none

theorem reachable_of_run {es : List Event} : ∀ {s s' : State},
    (fights ob heartBeat).Reachable s → s.run ob heartBeat es = some s' →
      (fights ob heartBeat).Reachable s' := by
  induction es with
  | nil =>
    intro s s' hs h
    obtain rfl := some.inj h
    exact hs
  | cons e es ih =>
    intro s s' hs h
    rw [State.run] at h
    split at h
    next he =>
      obtain ⟨s₁, hs₁, hrun⟩ := bind_eq_some_iff.1 h
      exact ih (hs.step ⟨he, hs₁⟩) hrun
    next => exact absurd h nofun

/-- The speed is set, a fight starts, and the speed is set again. -/
def fasterRun : List Event := [.cbSetSpeed 15 rested, .restartHeart rested, .cbSetSpeed 30 rested]

theorem fasterRun_two : (newborn.run 0 1 fasterRun).any (fun s ↦
    (s.calls 0).map Call.func == [1, 1]) = true := by
  decide

/-- **`cb_set_speed` during a fight** makes a second heart beat. -/
theorem not_oneHeart : ¬∀ s, (fights 0 1).Reachable s → OneHeart 0 1 s := by
  intro hall
  obtain ⟨s, hrun, hs⟩ := (any_eq_true _ _).1 fasterRun_two
  have hfuncs : (s.calls 0).map Call.func = [1, 1] := beq_iff_eq.1 hs
  have hone := (hall s (reachable_of_run (.init (newborn_init 1)) hrun)).single
  have hfilter : (s.calls 0).filter (fun c ↦ decide (c.func = 1)) = s.calls 0 := by
    refine filter_eq_self.2 fun c hc ↦ decide_eq_true ?_
    have hmem := mem_map_of_mem (f := Call.func) hc
    rw [hfuncs] at hmem
    simpa using hmem
  rw [hfilter, ← length_map (f := Call.func), hfuncs] at hone
  exact absurd hone (by decide)

end Lpmud.Heart
