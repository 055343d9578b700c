import Lpmud.Telnet.Space

/-!
# The overflow flag of the current line

A line that does not fit sets `TF_OVFLCANQ`; the end of line that finds the queue full passes
nothing on and clears the flag again. This works as long as the flag is set only while the queue
*is* full. Urgent data breaks it: `telnet_exception` empties the queue and leaves the flag, and
from then on `telnet_eol` finds a queue that is not full and never clears the flag again.

So the flag is transient in the runs where no urgent data arrives while it is set
(`overflow_transient`), and in no others (`overflow_step_iff`).
-/

namespace Lpmud.Telnet

/-- The flag is set only while the queue is full; the next end of line clears it and, outside a
synch, leaves a session that listens to the next line, with an empty queue unless an error jumps out
of `interactive_input`. -/
structure Transient (tp : TelnetT) : Prop where
  full : tp.flags.ovflcanq = true → tp.canq.nqLen = TELNET_CANQ_SIZE
  eol : ∀ lpc : Lpc, ∃ tp' lines, telnetEol lpc tp = some (tp', lines) ∧
    tp'.flags.ovflcanq = false ∧
    (tp.flags.synch = false → ¬tp'.Deaf ∧ (lpc.jumps tp = false → tp'.canq.toList = []))

theorem OverflowOk.transient {tp : TelnetT} (h : OverflowOk tp) : Transient tp := by
  refine ⟨h.full, fun lpc ↦ ?_⟩
  obtain ⟨tp', lines, heol, -, hclear⟩ := telnetEol_overflow lpc h
  refine ⟨tp', lines, heol, hclear, fun hs ↦ ?_⟩
  obtain ⟨tp'', lines', h', -, -, -, hsynch, -, hdone⟩ := telnetEol_spec lpc hs
  rw [heol] at h'
  cases h'
  exact ⟨fun hd ↦ hd.elim (by simp [hclear]) (by simp [hsynch]), fun hj ↦ (hdone hj).2.1⟩

/-- Urgent data does not arrive while the overflow flag is set. -/
def UrgentOk (s : Session) (e : Event) : Prop :=
  e = .exception → s.Ok fun tp ↦ tp.flags.ovflcanq = false

theorem telnetException_overflow {tp : TelnetT} (h : tp.flags.ovflcanq = false) :
    OverflowOk (telnetException tp) := by
  refine ⟨fun ho ↦ ?_, fun _ ↦ h⟩
  change tp.flags.ovflcanq = true at ho
  simp [h] at ho

theorem step_overflow {s s' : Session} {e : Event} (hs : s.Ok fun tp ↦ SpaceOk tp ∧ OverflowOk tp)
    (hok : UrgentOk s e) (h : sessions.Step s e s') :
    s'.Ok fun tp ↦ SpaceOk tp ∧ OverflowOk tp := by
  obtain ⟨t, hst⟩ := h
  rcases s with tp | -
  · obtain ⟨s₁, t₁, h₁, hspace, hover⟩ := TelnetT.step_spec hs.1 e
    change tp.step e = some (s', t) at hst
    rw [hst] at h₁
    cases h₁
    by_cases he : e = .exception
    · subst he
      cases hst
      exact ⟨hspace, telnetException_overflow (hok rfl)⟩
    · have hover := hover he hs.2
      cases s' with
      | live tp' => exact ⟨hspace, hover⟩
      | closed => trivial
  · exact absurd hst (by simp [Session.step])

theorem overflowOk_of_reachable {s : Session} (hs : sessions.ReachableVia UrgentOk s) :
    s.Ok fun tp ↦ SpaceOk tp ∧ OverflowOk tp := by
  refine hs.invariant ?_ fun s e s' hI hok hst ↦ step_overflow hI hok hst
  rintro _ ⟨lpc, tp, h, rfl⟩
  obtain ⟨tp', h', hspace, hover⟩ := telnetAccept_spec lpc
  rw [h] at h'
  cases h'
  exact ⟨hspace, hover⟩

/-- **The overflow flag is transient** in every run in which no urgent data arrives while it is
set. -/
theorem overflow_transient (s : Session) (hs : sessions.ReachableVia UrgentOk s) :
    s.Ok Transient :=
  (overflowOk_of_reachable hs).imp fun _ h ↦ h.2.transient

/-- A line of 513 bytes, in three chunks. -/
def overlong : List Event :=
  [.read false (.data 97 (List.replicate 255 97)) {}, .cleanup {},
    .read false (.data 97 (List.replicate 255 97)) {}, .cleanup {},
    .read false (.data 97 []) {}, .cleanup {}]

set_option maxRecDepth 10000 in
theorem leaves_overlong : leaves overlong (·.flags.ovflcanq) = true := by
  decide +kernel

/-- The flag is set in the middle of an overlong line, and the end of that line clears it. -/
theorem overflow_transient_overlong : ∃ tp, tp.flags.ovflcanq = true ∧
    tp.canq.nqLen = TELNET_CANQ_SIZE ∧ ∃ tp' lines, telnetEol {} tp = some (tp', lines) ∧
      tp'.flags.ovflcanq = false := by
  have hguard : ∀ e ∈ overlong, ∀ s, UrgentOk s e := by
    rintro e he s rfl
    exact absurd he (by decide)
  obtain ⟨tp, hreach, hovfl⟩ := reachable_of_leaves hguard leaves_overlong
  obtain ⟨hfull, heol⟩ := overflow_transient _ hreach
  obtain ⟨tp', lines, h, hclear, -⟩ := heol {}
  exact ⟨tp, hovfl, hfull hovfl, tp', lines, h, hclear⟩

theorem overflow_step_iff {s s' : Session} {e : Event} (hs : sessions.ReachableVia UrgentOk s)
    (h : sessions.Step s e s') : s'.Ok Transient ↔ UrgentOk s e := by
  refine ⟨fun ht he ↦ ?_, fun hok ↦ (overflowOk_of_reachable (hs.step hok h)).imp
    fun _ h ↦ h.2.transient⟩
  subst he
  rcases s with tp | -
  · obtain ⟨t, hst⟩ := h
    cases hst
    refine Bool.eq_false_iff.2 fun ho ↦ ?_
    exact absurd (ht.full ho) (by change ¬0 = TELNET_CANQ_SIZE; decide)
  · trivial

/-! ### Urgent data in an overlong line -/

set_option maxRecDepth 10000 in
/-- After `overlong` and urgent data the flag is set and the queue is empty. -/
theorem leaves_urgent : leaves (overlong ++ [.exception])
    (fun tp ↦ tp.flags.ovflcanq && tp.canq.nqLen == 0) = true := by
  decide +kernel

/-- **Urgent data in an overlong line** leaves the flag set over an empty queue. -/
theorem overflow_not_transient : ¬∀ s, sessions.Reachable s → s.Ok Transient := by
  intro hall
  obtain ⟨tp, hreach, htp⟩ := reachable_of_leaves (fun _ _ _ ↦ trivial) leaves_urgent
  obtain ⟨hovfl, hempty⟩ := Bool.and_eq_true_iff.1 htp
  have hfull := (hall _ hreach).full hovfl
  rw [beq_iff_eq.1 hempty] at hfull
  exact absurd hfull (by decide)

end Lpmud.Telnet
