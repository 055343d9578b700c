import Lpmud.Lib.TransitionSystem
import Lpmud.Sprintf.Walk

/-!
# Strings that are printed stay what they were

`string_print_formatted` writes NULs into the format string and into its arguments. It puts back
what they replace at the end, and where `ERROR` jumps to.

There are two ways past that. Some errors do not jump: an argument that is not a number where one is
expected, or an error in the master object. And in `add_column` and `add_table` the character that
is replaced is in a local variable, which is gone when the buffer overflows before it is put back.
-/

namespace Lpmud.Sprintf

open List Abortable

variable {s : State} {strings : Addr → CString}

/-! ### Putting back -/

theorem saves_foldl_poke (saves : List (Ptr × UInt8)) : ∀ s : State,
    (saves.foldl (fun s x ↦ s.poke x.1 x.2) s).saves = s.saves := by
  induction saves with
  | nil => exact fun _ ↦ rfl
  | cons x saves ih => exact fun s ↦ ih (s.poke x.1 x.2)

theorem steps_foldl_poke (saves : List (Ptr × UInt8)) : ∀ s : State,
    (saves.foldl (fun s x ↦ s.poke x.1 x.2) s).steps = s.steps := by
  induction saves with
  | nil => exact fun _ ↦ rfl
  | cons x saves ih => exact fun s ↦ ih (s.poke x.1 x.2)

/-- A string with everything put back that was saved of it. -/
def putBackInto (b : Block) (l : Bytes) (saves : List (Ptr × UInt8)) : Bytes :=
  saves.foldl (fun l x ↦ if x.1.block = b then l.set x.1.offset x.2 else l) l

theorem mem_poke (s : State) (p : Ptr) (c : UInt8) (b : Block) :
    (s.poke p c).mem b = if p.block = b then (s.mem b).set p.offset c else s.mem b := by
  rw [State.poke]
  split
  next h =>
    subst h
    exact Function.update_self _ _ _
  next h => exact Function.update_of_ne (Ne.symm h) _ _

theorem set_byte {p : Ptr} {c : UInt8} (hbyte : s.byte p = some c) :
    (s.mem p.block).set p.offset c = s.mem p.block := by
  obtain ⟨hlt, rfl⟩ := List.getElem?_eq_some_iff.1 hbyte
  exact set_getElem_self hlt

theorem mem_poke_byte {p : Ptr} {c : UInt8} (hbyte : s.byte p = some c) (b : Block) :
    (s.poke p c).mem b = s.mem b := by
  rw [mem_poke]
  split
  next hblock => rw [← hblock, set_byte hbyte]
  next => rfl

theorem mem_foldl_poke (b : Block) (saves : List (Ptr × UInt8)) : ∀ s : State,
    (saves.foldl (fun s x ↦ s.poke x.1 x.2) s).mem b = putBackInto b (s.mem b) saves := by
  induction saves with
  | nil => exact fun _ ↦ rfl
  | cons x saves ih =>
    intro s
    rw [foldl_cons, ih, mem_poke]
    rfl

/-- **What is put back** into a string depends on this string only. -/
theorem mem_restore (s : State) (b : Block) :
    s.restore.mem b = putBackInto b (s.mem b) s.saves :=
  mem_foldl_poke b s.saves { s with saves := [] }

@[simp]
theorem saves_restore (s : State) : s.restore.saves = [] :=
  saves_foldl_poke s.saves { s with saves := [] }

@[simp]
theorem steps_restore (s : State) : s.restore.steps = s.steps :=
  steps_foldl_poke s.saves { s with saves := [] }

theorem mem_freeClean (s : State) (a : Addr) : s.freeClean.mem (.given a) = s.mem (.given a) := by
  rw [State.freeClean]
  dsimp only
  cases s.clean with
  | none => rfl
  | some n => exact Function.update_of_ne (given_ne_clean a n) _ _

/-! ### Steps -/

/-- **A step after which everything can be put back**: a segment that ends in front of a character
is added only when there is room for it, and errors that do not jump are raised only when nothing is
saved. -/
def Step.Restorable : Step → Prop
  | .field bpos save len _ fs finfo trailing =>
    save = 0 ∨ bpos + fieldLength len fs finfo trailing ≤ BUFF_SIZE
  | .raise saves => saves = 0
  | .add _ _ | .quote _ | .temp _ => True

instance : DecidablePred Step.Restorable
  | .field _ _ _ _ _ _ _ => inferInstanceAs (Decidable (_ ∨ _))
  | .raise _ => inferInstanceAs (Decidable (_ = _))
  | .add _ _ | .quote _ | .temp _ => .isTrue trivial

/-- All steps that were taken are such steps. -/
def State.Restorable (s : State) : Prop :=
  ∀ x ∈ s.steps, x.Restorable

/-- The strings are what they were. -/
def State.Intact (strings : Addr → CString) (s : State) : Prop :=
  ∀ a, s.mem (.given a) = (strings a).bytes ++ [0]

/-- **How a call is to end**: with a string or with an error, the strings are what they were, and
nothing is saved. Of what goes wrong without being checked, nothing is said. -/
def EndsIntact (strings : Addr → CString) : Outcome × State → Prop
  | (.buff _, s) | (.error _, s) => s.saves = [] ∧ s.Intact strings
  | (.fault stop, _) => ∃ x, stop = some x ∧ x.Unchecked

theorem steps_exit (s : State) : s.exit.2.steps = s.steps := by
  rw [State.exit]
  split
  · exact steps_restore _
  · rfl
  · rfl

/-! ### What operations respect -/

/-- Putting back restores the strings, if all steps so far are restorable. -/
def Restores (strings : Addr → CString) (s : State) : Prop :=
  s.Restorable → s.restore.Intact strings

/-- Stopping leaves the strings as they were, if all steps so far are restorable. -/
def Leaves (strings : Addr → CString) (s : State) : Prop :=
  s.Restorable → EndsIntact strings s.exit

theorem Restores.congr {s' : State} (h : Restores strings s)
    (hmem : ∀ a, s'.mem (.given a) = s.mem (.given a)) (hsaves : s'.saves = s.saves)
    (hsteps : s'.Restorable → s.Restorable) : Restores strings s' := by
  intro hall a
  rw [mem_restore, hmem, hsaves, ← mem_restore]
  exact h (hsteps hall) a

theorem Restores.leaves_jump {x : FormatError} (h : Restores strings s) :
    Leaves strings { s with stop := some (.jump x) } := by
  refine fun hall ↦ ⟨saves_restore _, fun a ↦ ?_⟩
  rw [mem_restore, mem_freeClean, State.freeClean]
  exact (mem_restore s (.given a)).symm.trans (h hall a)

theorem leaves_of_unchecked {stop : Stop} (hstop : stop.Unchecked) (s : State) :
    Leaves strings { s with stop := some stop } := by
  rintro -
  rcases hstop with (rfl | ⟨b, rfl⟩) | rfl
  · exact ⟨_, rfl, .inl (.inl rfl)⟩
  · exact ⟨_, rfl, .inl (.inr ⟨b, rfl⟩)⟩
  · exact ⟨_, rfl, .inr rfl⟩

theorem Restores.leaves_stopped {s' : State} {n : ℕ} {ok : Stop → Prop} (h : Restores strings s)
    (hok : ∀ stop, ok stop → stop.Unchecked) (hstop : s.Stopped n ok s') : Leaves strings s' := by
  obtain ⟨buff, curpos, stop, rfl, -, ⟨rfl, -⟩ | ⟨hok', -⟩⟩ := hstop
  · have h' : Restores strings { s with buff := buff, curpos := curpos } :=
      h.congr (fun _ ↦ rfl) rfl fun h ↦ h
    exact h'.leaves_jump
  · exact leaves_of_unchecked (hok stop hok') { s with buff := buff, curpos := curpos }

theorem FieldStop.unchecked {len : ℕ} {pad : Pad} {fs : BitVec 32} {finfo : FormatInfo}
    {stop : Stop} (h : FieldStop len pad fs finfo stop) (hpad : pad.past.Reads) :
    stop.Unchecked := by
  rcases h with rfl | ⟨rfl, -⟩
  · exact .inl (.inl rfl)
  · exact .inl hpad

theorem Restores.note (h : Restores strings s) (step : Step) :
    Restores strings { s with steps := step :: s.steps } :=
  h.congr (fun _ ↦ rfl) rfl fun hall x hx ↦ hall x (mem_cons_of_mem step hx)

/-- **Every operation** restores the strings, or leaves them as they were. -/
theorem respects_restores : Respects (Restores strings) (Leaves strings) where
  note _ step h := h.note step
  add s buff curpos h _ _ := h.congr (fun _ ↦ rfl) rfl fun h ↦ h
  clean s mem clean cleans h hmem := h.congr hmem rfl fun h ↦ h
  saveChar s p c h hbyte := by
    intro hall a
    rw [← h hall a, mem_restore, mem_restore, mem_poke]
    show putBackInto _ (if p.block = .given a then List.set _ _ _ else _) s.saves = _
    split
    next hblock => rw [set_set, ← hblock, set_byte hbyte]
    next => rfl
  jump s x h := h.leaves_jump
  fault s h := leaves_of_unchecked (.inl (.inl rfl)) s
  past s n h := leaves_of_unchecked (.inl (.inr ⟨_, rfl⟩)) s
  temp s n h _ := leaves_of_unchecked (.inr rfl) { s with steps := _ }
  raise s message h := by
    intro hall
    have hsaves : s.saves = [] := length_eq_zero_iff.1 (hall _ mem_cons_self)
    have hmem (a : Addr) := h (fun x hx ↦ hall x (mem_cons_of_mem _ hx)) a
    refine ⟨hsaves, fun a ↦ ?_⟩
    rw [← hmem, mem_restore, hsaves]
    rfl
  text s s' n h hstop := (h.note _).leaves_stopped (fun _ ↦ False.elim) hstop
  field s s' len pad fs finfo trailing h hpad hstop :=
    (h.note _).leaves_stopped (fun _ hok ↦ hok.unchecked hpad) hstop
  segment s s' p c len pad fs finfo trailing h hpad hbyte hstop := by
    obtain ⟨buff, curpos, stop, rfl, -, ⟨rfl, hfull⟩ | ⟨hok, -⟩⟩ := hstop
    · -- with no room for it, there is no character at the end of the segment
      intro hall
      have hc : c = 0 := (hall _ mem_cons_self).resolve_right (Nat.not_le.2 hfull)
      have h' : Restores strings { s.poke p 0 with
          buff := buff
          curpos := curpos
          steps := .field s.buff.length c len pad fs finfo trailing :: s.steps } := by
        refine (h.note _).congr (fun a ↦ ?_) rfl fun h ↦ h
        rw [← hc]
        exact mem_poke_byte hbyte (.given a)
      exact h'.leaves_jump hall
    · exact leaves_of_unchecked (hok.unchecked hpad) { s.poke p 0 with
        buff := buff
        curpos := curpos
        steps := .field s.buff.length c len pad fs finfo trailing :: s.steps }
  quote s p a h _ _ := leaves_of_unchecked (.inl (.inr ⟨_, rfl⟩)) { s with steps := _ }

/-! ### Calls -/

/-- Calls of `string_print_formatted` that return or raise an error, one after the other, with
whatever strings there are. -/
def prints : TransitionSystem State Call where
  Init s := s.saves = []
  Step s c s' := (∀ stop, (c.run s).1 ≠ .fault stop) ∧ s' = (c.run s).2

/-- A call all of whose steps are restorable. -/
def Restorable (s : State) (c : Call) : Prop :=
  (c.run s).2.Restorable

theorem endsIntact_of_saves (hsaves : s.saves = []) {c : Call} (hc : Restorable s c) :
    EndsIntact c.strings (c.run s) := by
  have henter : Restores c.strings (c.enter s) := by
    rintro - a
    rw [mem_restore]
    show putBackInto _ _ s.saves = _
    rw [hsaves]
    rfl
  rw [Restorable] at hc
  rcases respects_restores.run c henter with ⟨t, ht, -, hrun⟩ | ⟨t, ht, hrun⟩
  · rw [hrun] at hc ⊢
    exact ⟨saves_restore t, ht fun x hx ↦ hc x (steps_restore t ▸ hx)⟩
  · rw [hrun] at hc ⊢
    exact ht fun x hx ↦ hc x (steps_exit t ▸ hx)

theorem EndsIntact.saves_eq_nil {r : Outcome × State} (h : EndsIntact strings r)
    (hr : ∀ stop, r.1 ≠ .fault stop) : r.2.saves = [] := by
  obtain ⟨outcome, s⟩ := r
  cases outcome with
  | buff text => exact h.1
  | error message => exact h.1
  | fault stop => exact absurd rfl (hr stop)

/-- **Strings that are printed stay what they were**, as long as all steps of all calls are
restorable. -/
theorem endsIntact (hs : prints.ReachableVia Restorable s) {c : Call} (hc : Restorable s c) :
    EndsIntact c.strings (c.run s) := by
  refine endsIntact_of_saves (hs.invariant (fun _ h ↦ h) ?_) hc
  rintro s c _ hsaves hok ⟨hreturns, rfl⟩
  exact (endsIntact_of_saves hsaves hok).saves_eq_nil hreturns

/-- A world without objects. -/
def World.empty : World where
  destructed _ := false
  name _ := .ofBytes []
  objectName _ := .ok none
  showClosure _ := .ofBytes []
  printFloat _ _ _ := .ofBytes []
  printE _ := .ofBytes []

/-- `sprintf("%.2s%d", "xyz", arg)` -/
def cutThenNumber (arg : Value) : Call where
  w := .empty
  callMaster := false
  formatStr := 0
  argv := [.string 1, arg]
  strings a :=
    if a = 0 then ⟨[37, 46, 50, 115, 37, 100], by decide⟩ else ⟨[120, 121, 122], by decide⟩
  front _ := 0

/-- `sprintf("%.2s%d", "xyz", 5)` -/
theorem endsIntact_cutThenNumber : prints.ReachableVia Restorable .empty ∧
    Restorable .empty (cutThenNumber (.number 5)) ∧
      EndsIntact (cutThenNumber (.number 5)).strings ((cutThenNumber (.number 5)).run .empty) :=
  have hinit : prints.ReachableVia Restorable .empty := .init (show State.empty.saves = [] from rfl)
  have hok : Restorable .empty (cutThenNumber (.number 5)) := by
    show ∀ x ∈ ((cutThenNumber (.number 5)).run .empty).2.steps, x.Restorable
    decide
  ⟨hinit, hok, endsIntact hinit hok⟩

/-- `sprintf("%.2s%d", "xyz", "xyz")` leaves `xy` of the string. -/
theorem not_endsIntact : ¬∀ c : Call, EndsIntact c.strings (c.run .empty) := by
  intro h
  have hend := h (cutThenNumber (.string 1))
  have hrun : (cutThenNumber (.string 1)).run .empty =
    (.error (incorrectArg "d"), ((cutThenNumber (.string 1)).run .empty).2) := rfl
  rw [hrun] at hend
  exact absurd (hend.2 1) (by decide)

end Lpmud.Sprintf
