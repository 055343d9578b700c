import Lpmud.CallOut.Pass

/-!
# What happens to the calls

The pending calls of the objects, and the identification that the next call will get, after each of
the functions that change them, as equations. The wheel is left out of account here: a function
that succeeds puts the objects into whatever slots it does.
-/

namespace Lpmud.CallOut

open Option Function

variable {t t' : Table} {ob : Obj}

namespace Table

theorem unlink_eq {w : ℕ} (h : t.unlink ob w = some t') : ∃ s, t' = { t with callOuts := s } := by
  obtain ⟨s, -, rfl⟩ := map_eq_some_iff.1 h
  exact ⟨s, rfl⟩

theorem relink_eq (h : t.relink ob = some t') : ∃ s, t' = { t with callOuts := s } := by
  rw [relink] at h
  split at h
  · exact ⟨t.callOuts, (some.inj h).symm⟩
  · obtain ⟨s, -, rfl⟩ := map_eq_some_iff.1 h
    exact ⟨s, rfl⟩

theorem insertCallOut_eq {cop : Call} (h : t.insertCallOut ob cop = some t') :
    ∃ s, t' = { t.setCalls ob (insertCall cop (t.calls ob)) with callOuts := s } := by
  rw [insertCallOut] at h
  split at h
  next => exact relink_eq h
  next =>
    split at h
    · exact ⟨t.callOuts, (some.inj h).symm⟩
    · obtain ⟨t₁, h₁, h₂⟩ := bind_eq_some_iff.1 h
      obtain ⟨s₁, rfl⟩ := unlink_eq h₁
      obtain ⟨s₂, rfl⟩ := relink_eq h₂
      exact ⟨s₂, rfl⟩

/-- `delete_call` takes the first call with the identification away. -/
theorem deleteCall_eq {callIdent : Int32} (h : t.deleteCall ob callIdent = some t') :
    t'.calls = update t.calls ob ((t.calls ob).eraseP (·.id = callIdent)) ∧
      t'.callId = t.callId ∧ t'.last = t.last := by
  rw [deleteCall] at h
  split at h
  next hc =>
    obtain rfl := some.inj h
    exact ⟨by rw [hc, List.eraseP_nil, ← hc, update_eq_self], rfl, rfl⟩
  next cop cops hc =>
    rw [hc]
    split at h
    next hid =>
      obtain ⟨t₁, h₁, rfl⟩ := map_eq_some_iff.1 h
      obtain ⟨t₂, h₂, h₃⟩ := bind_eq_some_iff.1 h₁
      obtain ⟨s₁, rfl⟩ := unlink_eq h₂
      obtain ⟨s₂, rfl⟩ := relink_eq h₃
      exact ⟨by rw [List.eraseP_cons_of_pos (by simpa using hid)]; rfl, rfl, rfl⟩
    next hid =>
      rw [List.eraseP_cons_of_neg (by simpa using hid)]
      split at h
      · obtain rfl := some.inj h
        exact ⟨rfl, rfl, rfl⟩
      next hany =>
        obtain rfl := some.inj h
        have hnone : cops.eraseP (·.id = callIdent) = cops :=
          List.eraseP_of_forall_not (by simpa using hany)
        exact ⟨by rw [hnone, ← hc, update_eq_self], rfl, rfl⟩

theorem deleteAllCalls_eq (h : t.deleteAllCalls ob = some t') :
    t'.calls = update t.calls ob [] ∧ t'.callId = t.callId ∧ t'.last = t.last := by
  rw [deleteAllCalls] at h
  split at h
  next hc =>
    obtain rfl := some.inj h
    exact ⟨by rw [← hc, update_eq_self], rfl, rfl⟩
  next cop cops hc =>
    obtain ⟨t₁, h₁, rfl⟩ := map_eq_some_iff.1 h
    obtain ⟨s₁, rfl⟩ := unlink_eq h₁
    exact ⟨rfl, rfl, rfl⟩

/-- `new_call_out` adds a call with the next identification, unless there are too many. -/
theorem newCallOut_eq {alarmTime func : ℕ} {delay reload : Int32} {commandGiver : Option Obj}
    {r : Except String Int32}
    (h : t.newCallOut alarmTime ob func delay reload commandGiver = some (t', r)) :
    t'.last = t.last ∧
      (MAX_CALL_OUT ≤ (t.calls ob).length ∧ t'.calls = update t.calls ob [] ∧
          t'.callId = t.callId ∧ (∃ e, r = .error e) ∨
        (t.calls ob).length < MAX_CALL_OUT ∧ r = .ok t.callId ∧ t'.callId = t.callId + 1 ∧
          ∃ cop, cop.func = func ∧ cop.reload = reload.toInt.toNat ∧ cop.id = t.callId ∧
            cop.when = (alarmTime + if delay.toInt ≤ 0 then 1 else delay.toInt.toNat) % 2 ^ 32 ∧
            t'.calls = update t.calls ob (insertCall cop (t.calls ob))) := by
  obtain ⟨d, hd⟩ : ∃ d, (if delay.toInt ≤ 0 then 1 else delay.toInt.toNat) = d := ⟨_, rfl⟩
  rw [newCallOut] at h
  dsimp only at h
  rw [hd] at h ⊢
  split at h
  next hmax =>
    obtain ⟨t₁, h₁, heq⟩ := map_eq_some_iff.1 h
    obtain ⟨rfl, rfl⟩ := Prod.mk.inj heq
    obtain ⟨hcalls, hid, hlast⟩ := deleteAllCalls_eq h₁
    exact ⟨hlast, .inl ⟨hmax, hcalls, hid, _, rfl⟩⟩
  next hmax =>
    split at h
    next => cases h
    next =>
      obtain ⟨t₁, h₁, heq⟩ := map_eq_some_iff.1 h
      obtain ⟨rfl, rfl⟩ := Prod.mk.inj heq
      obtain ⟨s, rfl⟩ := insertCallOut_eq h₁
      exact ⟨rfl, .inr ⟨Nat.not_le.1 hmax, rfl, rfl, _, rfl, rfl, rfl, rfl, rfl⟩⟩

/-- `call_out_swap_objects` only concerns the two objects. -/
theorem callOutSwapObjects_eq {ob₁ ob₂ : Obj} (h : t.callOutSwapObjects ob₁ ob₂ = some t')
    (h₁ : ob ≠ ob₁) (h₂ : ob ≠ ob₂) : t'.calls ob = t.calls ob ∧ t'.callId = t.callId := by
  have hunlink : ∀ {t t' : Table} {p}, t.unlinkCalls p = some t' →
      ∃ s, t' = { t with callOuts := s } := by
    intro t t' p h
    rw [unlinkCalls] at h
    split at h
    · exact ⟨t.callOuts, (some.inj h).symm⟩
    · exact unlink_eq h
  rw [callOutSwapObjects] at h
  obtain ⟨t₁, hu₁, h⟩ := bind_eq_some_iff.1 h
  obtain ⟨t₂, hu₂, h⟩ := bind_eq_some_iff.1 h
  obtain ⟨t₃, hr₁, h⟩ := bind_eq_some_iff.1 h
  obtain ⟨s₁, rfl⟩ := hunlink hu₁
  obtain ⟨s₂, rfl⟩ := hunlink hu₂
  obtain ⟨s₃, rfl⟩ := relink_eq hr₁
  obtain ⟨s₄, rfl⟩ := relink_eq h
  refine ⟨?_, rfl⟩
  show update (update t.calls ob₁ _) ob₂ _ ob = _
  rw [update_of_ne h₂, update_of_ne h₁]

end Table

namespace State

variable {s s' : State}

/-- The call of an object that is due is its first one. It is put back into the list if it
repeats, with a later due time, and is gone otherwise. -/
structure Made (ob : Obj) (cop : Call) (s s' : State) : Prop where
  due : cop.when ≤ s.alarmTime
  calls : ∃ cops giver, s.table.calls ob = cop :: cops ∧
    s'.table.calls = update s.table.calls ob
      (if 0 < cop.reload then
        Table.insertCall
          { cop with when := (s.alarmTime + cop.reload) % 2 ^ 32, commandGiver := giver } cops
      else cops)

theorem scan_eq {flags : ObFlags} (h : s.scan flags = some s') :
    s'.alarmTime = s.alarmTime ∧ s'.table.callId = s.table.callId ∧
      (s'.table.calls = s.table.calls ∧ (s'.phase = .idle ∨ s'.phase = s.phase) ∨
        ∃ ob cop giver id, s'.phase = .calling ob cop giver id ∧ Made ob cop s s') := by
  rw [scan] at h
  split at h
  next =>
    obtain ⟨tv, -, rfl⟩ := map_eq_some_iff.1 h
    exact ⟨rfl, rfl, .inl ⟨rfl, .inl rfl⟩⟩
  next hclock =>
    split at h
    next =>
      obtain rfl := some.inj h
      exact ⟨rfl, rfl, .inl ⟨rfl, .inr rfl⟩⟩
    next ob obs hslot =>
      split at h
      next => cases h
      next cop cops hcalls =>
        split at h
        next hdue =>
          have hdue' : cop.when ≤ s.alarmTime := hdue.trans (Nat.not_lt.1 hclock)
          rw [extract] at h
          dsimp only at h
          split at h
          next hreload =>
            split at h
            next => cases h
            next =>
              obtain ⟨t₂, h₂, rfl⟩ := map_eq_some_iff.1 h
              obtain ⟨slots, rfl⟩ := Table.relink_eq h₂
              refine ⟨rfl, rfl, .inr ⟨ob, cop, _, _, rfl, hdue', cops,
                cop.commandGiver.filter fun g ↦ !flags.destructed g, hcalls, ?_⟩⟩
              rw [if_pos hreload]
              rfl
          next hreload =>
            obtain ⟨t₂, h₂, rfl⟩ := map_eq_some_iff.1 h
            obtain ⟨slots, rfl⟩ := Table.relink_eq h₂
            refine ⟨rfl, rfl, .inr ⟨ob, cop, _, _, rfl, hdue', cops, none, hcalls, ?_⟩⟩
            rw [if_neg hreload]
            rfl
        next =>
          obtain rfl := some.inj h
          exact ⟨rfl, rfl, .inl ⟨rfl, .inr rfl⟩⟩

end State

end Lpmud.CallOut
