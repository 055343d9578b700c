import Lpmud.Sprintf.Intact

/-!
# What sprintf reads and writes

The format string ends with a NUL, and the buffer has `BUFF_SIZE` characters. There are four ways
past an end. In a pad string a backslash passes over whatever is behind it, be it the NUL. The first
loop for a string in the middle takes an index into the pad string by the length of the string.
`ADD_CHAR` writes a character before it looks whether there is room for it. And a float is printed
to an array of 100 characters with whatever precision.
-/

namespace Lpmud.Sprintf

open Abortable

variable {s : State} {formatStr : Addr}

/-- **A step that keeps within bounds**: there is room for what is added and for the characters of a
float, no backslash in a pad string passes over the NUL, and the first loop for a string in the
middle stays in the format string if the pad string is there. -/
def Step.Bounded (formatStr : Addr) : Step → Prop
  | .add bpos n => bpos + n ≤ BUFF_SIZE
  | .field bpos _ len pad fs finfo trailing =>
    bpos + fieldLength len fs finfo trailing ≤ BUFF_SIZE ∧
      (finfo &&& INFO_J = INFO_J_CENTRE → pad.past = .past (.given formatStr) →
        LeadThere pad.chars len fs)
  | .quote bytes => Closed bytes
  | .temp n => n < TEMP_SIZE
  | .raise _ => True

instance (pad : Bytes) (len : ℕ) (fs : BitVec 32) : Decidable (LeadThere pad len fs) :=
  inferInstanceAs (Decidable (∀ k < leadLength len fs, _))

instance (formatStr : Addr) : DecidablePred (Step.Bounded formatStr)
  | .add _ _ => inferInstanceAs (Decidable (_ ≤ _))
  | .field _ _ _ _ _ _ _ => inferInstanceAs (Decidable (_ ∧ _))
  | .quote _ => inferInstanceAs (Decidable (_ = true))
  | .temp _ => inferInstanceAs (Decidable (_ < _))
  | .raise _ => .isTrue trivial

/-- All steps that were taken are such steps. -/
def State.Bounded (formatStr : Addr) (s : State) : Prop :=
  ∀ x ∈ s.steps, x.Bounded formatStr

/-- **Within bounds**: nothing was written behind the buffer, which only gets fuller, or behind the
end of an array on the stack, and nothing is read behind the NUL of the format string. The rounds of
all loops are enough. -/
def WithinBounds (formatStr : Addr) (r : Outcome × State) : Prop :=
  r.2.buff.length ≤ BUFF_SIZE ∧ r.1 ≠ .fault (some (.past (.given formatStr))) ∧
    r.1 ≠ .fault (some .overrun) ∧ r.1 ≠ .fault (some .rounds)

/-! ### What operations respect -/

/-- Stopping is within bounds, if all steps so far are. -/
def StopsWithin (formatStr : Addr) (s : State) : Prop :=
  s.Bounded formatStr → s.buff.length ≤ BUFF_SIZE ∧
    s.stop ≠ some (.past (.given formatStr)) ∧ s.stop ≠ some .overrun ∧ s.stop ≠ some .rounds

theorem leadLength_le {len : ℕ} {fs : BitVec 32} {finfo : FormatInfo} {trailing : Bool}
    (h : finfo &&& INFO_J = INFO_J_CENTRE) :
    leadLength len fs ≤ fieldLength len fs finfo trailing := by
  have hne : finfo &&& INFO_J ≠ INFO_J_LEFT := by
    rw [h]
    decide
  rw [fieldLength, if_neg hne, if_pos h]
  exact Nat.le_add_right _ _

theorem stopsWithin_field {bpos len : ℕ} {save : UInt8} {pad : Pad} {fs : BitVec 32}
    {finfo : FormatInfo} {trailing : Bool} (hbpos : s.buff.length = bpos)
    (hpad : pad.past.Reads)
    (hsteps : .field bpos save len pad fs finfo trailing ∈ s.steps)
    (hstop : s.Stopped (fieldLength len fs finfo trailing) (FieldStop len pad fs finfo) s') :
    StopsWithin formatStr s' := by
  obtain ⟨buff, curpos, stop, rfl, -, ⟨rfl, hfull⟩ | ⟨hok, hbuff⟩⟩ := hstop
  · intro hall
    exact absurd (hall _ hsteps).1 (hbpos ▸ Nat.not_le.2 hfull)
  · intro hall
    obtain ⟨hroom, hthere⟩ := hall _ hsteps
    rcases hok with rfl | ⟨rfl, hcentre, hlead⟩
    · exact ⟨hbuff, nofun, nofun, nofun⟩
    · refine ⟨hbuff, fun hpast ↦ ?_, fun hover ↦ ?_, fun hrounds ↦ ?_⟩
      · have hle : leadLength len fs ≤ fieldLength len fs finfo trailing := leadLength_le hcentre
        refine hlead.resolve_left (by omega) (hthere hcentre (Option.some.inj hpast))
      · rw [Option.some.inj hover] at hpad
        rcases hpad with h | ⟨b, h⟩ <;> exact nomatch h
      · rw [Option.some.inj hrounds] at hpad
        rcases hpad with h | ⟨b, h⟩ <;> exact nomatch h

/-- **Every operation** stops within bounds. -/
theorem respects_bounded (formatStr : Addr) :
    Respects (fun s ↦ s.buff.length ≤ BUFF_SIZE) (StopsWithin formatStr) where
  note _ _ h := h
  add _ _ _ _ _ h := h
  clean _ _ _ _ h _ := h
  saveChar _ _ _ h _ := h
  jump _ _ h _ := ⟨h, nofun, nofun, nofun⟩
  fault _ h _ := ⟨h, nofun, nofun, nofun⟩
  past _ _ h _ := ⟨h, nofun, nofun, nofun⟩
  temp _ _ _ hle hall := absurd (hall _ List.mem_cons_self) (Nat.not_lt.2 hle)
  raise _ _ h _ := ⟨h, nofun, nofun, nofun⟩
  text s s' n h hstop := by
    obtain ⟨buff, curpos, stop, rfl, -, ⟨rfl, hfull⟩ | ⟨hok, -⟩⟩ := hstop
    · exact fun hall ↦ absurd (hall _ List.mem_cons_self) (Nat.not_le.2 hfull)
    · exact hok.elim
  field _ _ _ _ _ _ _ _ hpad hstop := stopsWithin_field rfl hpad List.mem_cons_self hstop
  segment _ _ _ _ _ _ _ _ _ _ hpad _ hstop := stopsWithin_field rfl hpad List.mem_cons_self hstop
  quote _ _ _ _ _ hopen hall := absurd (hall _ List.mem_cons_self) hopen

/-! ### Calls -/

theorem buff_foldl_poke (saves : List (Ptr × UInt8)) : ∀ s : State,
    (saves.foldl (fun s x ↦ s.poke x.1 x.2) s).buff = s.buff := by
  induction saves with
  | nil => exact fun _ ↦ rfl
  | cons x saves ih => exact fun s ↦ ih (s.poke x.1 x.2)

@[simp]
theorem buff_restore (s : State) : s.restore.buff = s.buff :=
  buff_foldl_poke s.saves { s with saves := [] }

theorem withinBounds_exit (h : s.buff.length ≤ BUFF_SIZE ∧
    s.stop ≠ some (.past (.given formatStr)) ∧ s.stop ≠ some .overrun ∧ s.stop ≠ some .rounds) :
    WithinBounds formatStr s.exit := by
  obtain ⟨hbuff, hpast, hover, hrounds⟩ := h
  rw [State.exit]
  split
  next => exact ⟨(congrArg List.length (buff_restore _)).trans_le hbuff,
    by rintro ⟨⟩, by rintro ⟨⟩, by rintro ⟨⟩⟩
  next => exact ⟨hbuff, by rintro ⟨⟩, by rintro ⟨⟩, by rintro ⟨⟩⟩
  next => exact ⟨hbuff, fun h ↦ hpast (Outcome.fault.inj h), fun h ↦ hover (Outcome.fault.inj h),
    fun h ↦ hrounds (Outcome.fault.inj h)⟩

/-- **A call stays within bounds** when all of its steps do. -/
theorem withinBounds {c : Call} (hc : (c.run s).2.Bounded c.formatStr) :
    WithinBounds c.formatStr (c.run s) := by
  have henter : (c.enter s).buff.length ≤ BUFF_SIZE := Nat.zero_le _
  rcases (respects_bounded c.formatStr).run c henter with ⟨t, -, hbuff, hrun⟩ | ⟨t, ht, hrun⟩
  · rw [hrun]
    exact ⟨(congrArg List.length (buff_restore t)).trans_le hbuff, nofun, nofun, nofun⟩
  · rw [hrun] at hc ⊢
    exact withinBounds_exit (ht fun x hx ↦ hc x (steps_exit t ▸ hx))

/-- `sprintf(format, "abc")` -/
def printAbc (format : CString) : Call where
  w := .empty
  callMaster := false
  formatStr := 0
  argv := [.string 1]
  strings a := if a = 0 then format else ⟨[97, 98, 99], by decide⟩
  front _ := 0

/-- `sprintf("%'x'|5s", "abc")` -/
theorem withinBounds_centre :
    ((printAbc ⟨[37, 39, 120, 39, 124, 53, 115], by decide⟩).run .empty).2.Bounded 0 ∧
      WithinBounds 0 ((printAbc ⟨[37, 39, 120, 39, 124, 53, 115], by decide⟩).run .empty) :=
  have hok : ((printAbc ⟨[37, 39, 120, 39, 124, 53, 115], by decide⟩).run .empty).2.Bounded 0 := by
    show ∀ x ∈ ((printAbc ⟨[37, 39, 120, 39, 124, 53, 115], by decide⟩).run .empty).2.steps,
      x.Bounded 0
    decide
  ⟨hok, withinBounds hok⟩

/-- `sprintf("%'a\\", "abc")`: the backslash passes over the NUL. -/
theorem not_withinBounds : ¬∀ c : Call, WithinBounds c.formatStr (c.run .empty) := fun h ↦
  (h (printAbc ⟨[37, 39, 97, 92], by decide⟩)).2.1 rfl

end Lpmud.Sprintf
