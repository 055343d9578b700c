import Lpmud.CallOut.Pass

/-!
# The timeout of the next pass

`next_call_out` looks at one slot after the other, from that of `last` on. Where it is called,
`last` has reached the clock, so no pending call is due before `last`, and the slots up to a minute
ahead are those of the ticks from `last` on. A call that is due within this minute is in the slot of
its tick; calls of later revolutions of the wheel are in the same slots, but behind it. So the first
slot whose head is due within the minute has the earliest call of all (`nextCallOutLoop_timely`).
-/

namespace Lpmud.CallOut

open List

/-- A timeout in microseconds. -/
def micros (tv : ℕ × ℕ) : ℕ :=
  tv.1 * 1000000 + tv.2

/-- So many ticks in microseconds. -/
def ticks (n : ℕ) : ℕ :=
  n * (1000000 / TIME_RES)

/-- The timeout, when the clock is at `alarmTime`: it is over at the latest when the first pending
call is due, or after a minute, and not before, so it is zero only if a call is due. -/
structure Timely (t : Table) (alarmTime : ℕ) (tv : ℕ × ℕ) : Prop where
  le_due : ∀ ob, ∀ c ∈ t.calls ob, micros tv ≤ ticks (c.when - alarmTime)
  le_max : micros tv ≤ micros (60, 0)
  attained : tv = (60, 0) ∨ ∃ ob, ∃ c ∈ t.calls ob, micros tv = ticks (c.when - alarmTime)
  due_of_zero : micros tv = 0 → ∃ ob, ∃ c ∈ t.calls ob, c.when ≤ alarmTime

theorem micros_ticks (n : ℕ) :
    micros (n / TIME_RES, n % TIME_RES * 1000000 / TIME_RES) = ticks n := by
  simp only [micros, ticks, TIME_RES]
  omega

theorem micros_minute : micros (60, 0) = ticks (60 * TIME_RES) := by
  decide

theorem ticks_le_ticks {m n : ℕ} (h : m ≤ n) : ticks m ≤ ticks n :=
  Nat.mul_le_mul_right _ h

theorem Table.Linked.exists_head_le {t : Table} (h : t.Linked) {ob : Obj} {c : Call}
    (hc : c ∈ t.calls ob) : ∃ w, t.head ob = some w ∧ w ≤ c.when := by
  obtain ⟨d, ds, hds⟩ := exists_cons_of_ne_nil (ne_nil_of_mem hc)
  refine ⟨d.when, by rw [head, hds]; rfl, ?_⟩
  have hsorted := h.sorted ob
  rw [hds] at hc hsorted
  rcases mem_cons.1 hc with rfl | hc
  · exact le_rfl
  · exact (pairwise_cons.1 hsorted).1 c hc

theorem Table.exists_mem_of_head {t : Table} {ob : Obj} {w : ℕ} (h : t.head ob = some w) :
    ∃ c ∈ t.calls ob, c.when = w := by
  obtain ⟨c, hc, hw⟩ := Option.map_eq_some_iff.1 h
  exact ⟨c, mem_of_head? hc, hw⟩

/-- The slots of `n` ticks from `w` on, up to a minute after `alarmTime`. -/
theorem nextCallOutLoop_timely {t : Table} (h : t.Linked) {alarmTime : ℕ} (n : ℕ) :
    ∀ w, alarmTime ≤ w → w + n = alarmTime + 60 * TIME_RES →
      (∀ ob, ∀ c ∈ t.calls ob, w ≤ c.when) →
      ∃ tv, nextCallOutLoop t alarmTime ((List.range n).map fun i ↦ slotOf (w + i)) = some tv ∧
        Timely t alarmTime tv := by
  induction n with
  | zero =>
    intro w hw hn hdue
    refine ⟨(60, 0), rfl, fun ob c hc ↦ ?_, le_rfl, .inl rfl, nofun⟩
    have hle := hdue ob c hc
    rw [micros_minute]
    exact ticks_le_ticks (by omega)
  | succ n ih =>
    intro w hw hn hdue
    -- If the head of this slot is not due within the minute, no call is due at `w`.
    have later (hslot : ∀ ob obs, t.callOuts (slotOf w) = ob :: obs →
        ∃ v, t.head ob = some v ∧ w < v) : ∀ ob, ∀ c ∈ t.calls ob, w + 1 ≤ c.when := by
      intro ob c hc
      refine Nat.lt_of_le_of_ne (hdue ob c hc) fun heq ↦ ?_
      obtain ⟨u, hu, hle⟩ := h.exists_head_le hc
      obtain ⟨d, hd, hdu⟩ := Table.exists_mem_of_head hu
      have hwu : u = w := le_antisymm (hle.trans heq.ge) (hdu ▸ hdue ob d hd)
      obtain ⟨p, ps, v, hps, hv, hvw⟩ := h.wheel.exists_head (hwu ▸ hu)
      obtain ⟨v', hv', hlt⟩ := hslot p ps hps
      obtain rfl := Option.some.inj (hv.symm.trans hv')
      exact absurd hvw (Nat.not_le.2 hlt)
    have hrest : (List.range (n + 1)).map (fun i ↦ slotOf (w + i)) =
        slotOf w :: (List.range n).map fun i ↦ slotOf (w + 1 + i) := by
      rw [range_succ_eq_map, map_cons, map_map]
      refine congrArg _ (map_congr_left fun i _ ↦ congrArg slotOf ?_)
      show w + (i + 1) = w + 1 + i
      omega
    rw [hrest, nextCallOutLoop]
    rcases hslot : t.callOuts (slotOf w) with - | ⟨ob, obs⟩
    · exact ih (w + 1) (by omega) (by omega) (later (by simp [hslot]))
    · obtain ⟨v, hv, hhash⟩ := (h.wheel.mem ob _).1 (hslot ▸ mem_cons_self)
      obtain ⟨c, hc, rfl⟩ := Table.exists_mem_of_head hv
      have hwc := hdue ob c hc
      simp only [hv, Option.bind_some]
      rw [if_neg (by omega)]
      split_ifs with hmin
      · -- Within the minute, the tick of the call is the tick of the slot.
        have hcw : c.when = w := by
          rw [slotOf_eq, slotOf_eq] at hhash
          simp only [NUM_SLOTS, TIME_RES] at hhash hmin hn
          omega
        refine ⟨_, rfl, fun p d hd ↦ ?_, ?_, .inr ⟨ob, c, hc, micros_ticks _⟩, fun hz ↦ ?_⟩
        · rw [micros_ticks]
          have hle := hdue p d hd
          exact ticks_le_ticks (by omega)
        · rw [micros_ticks, micros_minute]
          exact ticks_le_ticks (by omega)
        · rw [micros_ticks] at hz
          refine ⟨ob, c, hc, ?_⟩
          simp only [ticks, TIME_RES] at hz
          omega
      · refine ih (w + 1) (by omega) (by omega) (later fun p ps hps ↦ ?_)
        obtain ⟨rfl, rfl⟩ := List.cons.inj (hslot.symm.trans hps)
        exact ⟨c.when, hv, by omega⟩

/-- The slots that are looked at, when `last` is at the clock or one tick ahead of it. -/
theorem scanned_eq {last alarmTime : ℕ} (hle : alarmTime ≤ last) (hlt : last ≤ alarmTime + 1) :
    scanned (slotOf last) (slotOf (alarmTime + 60 * TIME_RES)) =
      (List.range (alarmTime + 60 * TIME_RES - last)).map fun i ↦ slotOf (last + i) := by
  have hn : (slotOf (alarmTime + 60 * TIME_RES) + NUM_SLOTS - slotOf last) % NUM_SLOTS =
      alarmTime + 60 * TIME_RES - last := by
    simp only [slotOf_eq, NUM_SLOTS, TIME_RES]
    omega
  have hpos : alarmTime + 60 * TIME_RES - last ≠ 0 := by
    simp only [TIME_RES]
    omega
  rw [scanned, hn, if_neg hpos]
  refine map_congr_left fun i _ ↦ ?_
  rw [slotOf_eq, slotOf_eq, slotOf_eq, Nat.mod_add_mod]

theorem nextCallOut_timely {t : Table} (h : t.Ok) {alarmTime : ℕ} (hle : alarmTime ≤ t.last)
    (hlt : t.last ≤ alarmTime + 1) :
    ∃ tv, nextCallOut t alarmTime t.last = some tv ∧ Timely t alarmTime tv := by
  rw [nextCallOut, scanned_eq hle hlt]
  refine nextCallOutLoop_timely h.linked _ t.last hle ?_ h.due
  simp only [TIME_RES]
  omega

/-- `next_call_out` is called: at once, or at the end of a pass. -/
def State.Asks (s : State) : Event → Prop
  | .callOut => s.inhibitcallouts = false ∧ s.alarmTime ≤ s.table.last
  | .scan _ => s.alarmTime < s.table.last
  | _ => False

/-- **The driver does not oversleep.** Whenever `next_call_out` is called, in any run, it computes
the time until the first pending call is due, a minute at most; it is zero only if a call is due. -/
theorem timely_of_asks {s : State} {e : Event} (hs : callOuts.Reachable (some s))
    (he : s.Enabled e) (hask : s.Asks e) :
    ∃ s', s.exec e = some s' ∧ nextCallOut s.table s.alarmTime s.table.last = some s'.tv ∧
      Timely s.table s.alarmTime s'.tv := by
  obtain ⟨_, ⟨⟩, hinv⟩ := inv_of_reachable hs
  have hle : s.alarmTime ≤ s.table.last := by
    cases e with
    | callOut => exact hask.2
    | scan _ => exact Nat.le_of_lt hask
    | _ => exact hask.elim
  obtain ⟨tv, htv, htimely⟩ := nextCallOut_timely hinv.table hle hinv.last
  cases e with
  | callOut =>
    refine ⟨{ s with tv := tv }, ?_, htv, htimely⟩
    rw [State.exec, State.callOut, if_neg (by simp [hask.1]), if_pos hle, htv, Option.map_some]
  | scan flags =>
    refine ⟨{ s with phase := .idle, tv := tv }, ?_, htv, htimely⟩
    rw [State.exec, State.scan, if_pos (show s.alarmTime < s.table.last from hask), htv,
      Option.map_some]
  | _ => exact hask.elim

/-- Two alarms, of which one is due at tick 1; its callback fails. -/
def failingRun : List Event :=
  let scan := Event.scan ⟨fun _ ↦ false, fun _ ↦ false⟩
  [.newCallOut 0 0 1 10 none, .newCallOut 1 0 25 0 none, .setCurrentTime 1, .callOut, scan, scan,
    .callFails, scan]

theorem failingRun_asks : ((State.init 0).run failingRun).any (fun s ↦
    s.phase = .scanning && decide (s.alarmTime < s.table.last) && s.table.calls 0 == [] &&
      (s.table.calls 1).map Call.when == [25]) = true := by
  decide +kernel

/-- **At the end of a pass**, when the alarm that has failed is gone and another one is left. -/
theorem timely_of_asks_failed : ∃ s s', (State.init 0).run failingRun = some s ∧
    s.table.calls 0 = [] ∧ (s.table.calls 1).map Call.when = [25] ∧
      s.exec (.scan ⟨fun _ ↦ false, fun _ ↦ false⟩) = some s' ∧
        nextCallOut s.table s.alarmTime s.table.last = some s'.tv ∧
          Timely s.table s.alarmTime s'.tv := by
  obtain ⟨s, hrun, hs⟩ := (Option.any_eq_true _ _).1 failingRun_asks
  simp only [Bool.and_eq_true, beq_iff_eq, decide_eq_true_eq] at hs
  obtain ⟨⟨⟨hscanning, hlast⟩, hnone⟩, hleft⟩ := hs
  have hreach : callOuts.Reachable (some s) := reachable_of_run (.init ⟨0, by decide, rfl⟩) hrun
  obtain ⟨s', hs'⟩ := timely_of_asks (e := .scan ⟨fun _ ↦ false, fun _ ↦ false⟩) hreach hscanning
    hlast
  exact ⟨s, s', hrun, hnone, hleft, hs'⟩

end Lpmud.CallOut
