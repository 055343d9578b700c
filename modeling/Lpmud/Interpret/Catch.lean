import Lpmud.Interpret.Evaluation

/-!
# What `catch` restores

When a `catch` is left, because the expression was evaluated, something was thrown or there was an
error, the machine is as it was, with one more value on the stack. This rests on the exception
frames: as long as every error meets the frame of a `catch`, what is between two frames can be cut
off (`catch_restores`). The frames of `destruct_object` and of `free_ed_buffer` are no frames of a
`catch`: `error` clears the whole stack before it returns there (`not_catch_restores`).

The compiler sees to it that code in a `catch` takes only those values from the stack that it put
there, and does not return from the function with the `catch` (`Balanced`).
-/

namespace Lpmud.Evaluation

open Option Iteration

variable {W : Type} {P : Mudlib W} {m₀ m m' : Machine W} {addr : ℕ} {s t u : State W}

/-! ### What is restored -/

/-- What is thrown in a step. -/
def raised (P : Mudlib W) (t : State W) : Option Svalue :=
  match t.1.perform P t.2 with
  | .error _ msg => some (emsg msg)
  | .throw _ v => some v
  | .next .. | .stop => none

/-- **The machine is as it was** when the `catch` was entered that ends before `addr`, but there is
one more value. -/
structure Restored (m₀ : Machine W) (addr : ℕ) (v : Svalue) (u : State W) : Prop where
  task : u.2 = .instruction
  stack : u.1.stack = v :: m₀.stack
  csp : u.1.csp = m₀.csp
  controlStack : ∀ i < m₀.csp, u.1.controlStack i = m₀.controlStack i
  regs : u.1.regs = { m₀.regs with pc := addr }
  exception : u.1.exception = m₀.exception
  ecsp : u.1.ecsp = m₀.ecsp
  waiting : u.1.waiting = m₀.waiting

/-- The innermost exception frame is that of a `catch`. -/
def CatchFrame (m : Machine W) : Prop :=
  m.exception.head?.map Gdexception.handler = some .fCatch

/-- An error in this step meets the frame of a `catch`. -/
def Caught (P : Mudlib W) (t : State W) : Prop :=
  match t.1.perform P t.2 with
  | .error m _ | .throw m _ => CatchFrame m
  | .next .. | .stop => True

/-- How many values were there when the last context was saved. -/
def base (m : Machine W) : ℕ :=
  (m.ecsp.head?.map ErrorContext.saveSp).getD 0

/-- **What the compiler sees to**: an instruction takes only values that were put on the stack since
the last `catch`, and does not return from the function with the `catch`. -/
def Balanced (P : Mudlib W) (t : State W) : Prop :=
  match t.2, t.1.instr? P with
  | .instruction, some (.efun numArg _) => base t.1 + numArg ≤ t.1.stack.length
  | .instruction, some (.fCall _ numArg) => base t.1 + numArg ≤ t.1.stack.length
  | .instruction, some .fPopValue => base t.1 + 1 ≤ t.1.stack.length
  | .instruction, some (.fBranch ..) => base t.1 + 1 ≤ t.1.stack.length
  | .instruction, some .fReturn =>
    base t.1 + (t.1.controlStack (t.1.csp - 1)).numLocalVariables + 1 ≤ t.1.stack.length ∧
      (t.1.ecsp.head?.map ErrorContext.saveCsp).getD 0 < t.1.csp
  | _, _ => True

/-! ### The functions of C above a `catch` -/

/-- The context that is saved when the `catch` is entered. -/
def context (m₀ : Machine W) (addr : ℕ) : ErrorContext :=
  ⟨{ m₀.regs with pc := addr }, m₀.exception, m₀.csp, m₀.commandGiver, m₀.stack.length⟩

/-- The functions of C that wait, the contexts and the exception frames belong together, down to
the `catch`. A frame of `free_ed_buffer` stays when the function has returned. -/
inductive Above (m₀ : Machine W) (addr : ℕ) :
    List (Activation W) → List ErrorContext → List Gdexception → Prop where
  | entered :
    Above m₀ addr (.fCatch :: m₀.waiting) (context m₀ addr :: m₀.ecsp)
      (⟨.fCatch, m₀.waiting.length⟩ :: m₀.exception)
  | efun {next ws es ex} : Above m₀ addr ws es ex → Above m₀ addr (.efun next :: ws) es ex
  | fCatch {p ws es} : Above m₀ addr ws es p.exception → m₀.stack.length ≤ p.saveSp →
    m₀.csp ≤ p.saveCsp →
    Above m₀ addr (.fCatch :: ws) (p :: es) (⟨.fCatch, ws.length⟩ :: p.exception)
  | destructor {next p ws es} : Above m₀ addr ws es p.exception → m₀.stack.length ≤ p.saveSp →
    m₀.csp ≤ p.saveCsp →
    Above m₀ addr (.destructor next :: ws) (p :: es) [⟨.destructor, ws.length⟩]
  | exitEd {next d ws es ex} : Above m₀ addr ws es ex →
    Above m₀ addr (.exitEd next :: ws) es [⟨.exitEd, d⟩]
  | returned {d ws es ex} : Above m₀ addr ws es ex → Above m₀ addr ws es [⟨.exitEd, d⟩]

variable {ws : List (Activation W)} {es : List ErrorContext} {ex : List Gdexception}

namespace Above

theorem length_lt (h : Above m₀ addr ws es ex) : m₀.waiting.length < ws.length := by
  induction h with
  | entered => exact Nat.lt_succ_self _
  | efun _ ih | fCatch _ _ _ ih | destructor _ _ _ ih | exitEd _ ih => exact Nat.lt_succ_of_lt ih
  | returned _ ih => exact ih

/-- The last context was saved in the `catch`. -/
theorem exists_context (h : Above m₀ addr ws es ex) :
    ∃ p, es.head? = some p ∧ m₀.stack.length ≤ p.saveSp ∧ m₀.csp ≤ p.saveCsp := by
  induction h with
  | entered => exact ⟨_, rfl, le_rfl, le_rfl⟩
  | efun _ ih | exitEd _ ih | returned _ ih => exact ih
  | fCatch _ hsp hcsp => exact ⟨_, rfl, hsp, hcsp⟩
  | destructor _ hsp hcsp => exact ⟨_, rfl, hsp, hcsp⟩

theorem of_efun {next : Svalue → Efun W} (h : Above m₀ addr (.efun next :: ws) es ex) :
    Above m₀ addr ws es ex := by
  generalize hws : Activation.efun next :: ws = ws' at h
  induction h with
  | efun h =>
    cases hws
    exact h
  | returned _ ih => exact .returned (ih hws)
  | entered | fCatch | destructor | exitEd => cases hws

theorem of_exitEd {next : Efun W} (h : Above m₀ addr (.exitEd next :: ws) es ex) :
    Above m₀ addr ws es ex := by
  generalize hws : Activation.exitEd next :: ws = ws' at h
  induction h with
  | exitEd h =>
    cases hws
    exact .returned h
  | returned _ ih => exact .returned (ih hws)
  | entered | fCatch | destructor | efun => cases hws

theorem of_destructor {next : Efun W} (h : Above m₀ addr (.destructor next :: ws) es ex) :
    ∃ p es', es = p :: es' ∧ Above m₀ addr ws es' p.exception ∧ m₀.stack.length ≤ p.saveSp ∧
      m₀.csp ≤ p.saveCsp := by
  generalize hws : Activation.destructor next :: ws = ws' at h
  induction h with
  | destructor h hsp hcsp =>
    cases hws
    exact ⟨_, _, rfl, h, hsp, hcsp⟩
  | returned _ ih => exact ih hws
  | entered | fCatch | exitEd | efun => cases hws

theorem not_runtimeError (h : Above m₀ addr ws es ex) : ws.head? ≠ some .runtimeError := by
  induction h with
  | returned _ ih => exact ih
  | entered | fCatch | efun | destructor | exitEd => nofun

/-- The `catch` that was entered, or one in it. -/
theorem of_fCatch (h : Above m₀ addr (.fCatch :: ws) es ex) :
    (ws = m₀.waiting ∧ es = context m₀ addr :: m₀.ecsp) ∨
      ∃ p es', es = p :: es' ∧ Above m₀ addr ws es' p.exception ∧ m₀.stack.length ≤ p.saveSp ∧
        m₀.csp ≤ p.saveCsp := by
  generalize hws : Activation.fCatch :: ws = ws' at h
  induction h with
  | entered =>
    cases hws
    exact .inl ⟨rfl, rfl⟩
  | fCatch h hsp hcsp =>
    cases hws
    exact .inr ⟨_, _, rfl, h, hsp, hcsp⟩
  | returned _ ih => exact ih hws
  | destructor | exitEd | efun => cases hws

end Above

/-- The machine is in the `catch`. -/
structure Inside (m₀ : Machine W) (addr : ℕ) (m : Machine W) : Prop where
  above : Above m₀ addr m.waiting m.ecsp m.exception
  stack : m₀.stack <:+ m.stack
  csp : m₀.csp ≤ m.csp
  controlStack : ∀ i < m₀.csp, m.controlStack i = m₀.controlStack i

/-! ### Steps in the `catch` -/

namespace Inside

/-- All machines that may come of a step are in the `catch`. -/
def Outcome (m₀ : Machine W) (addr : ℕ) : Evaluation.Outcome W → Prop
  | .next m _ | .error m _ | .throw m _ => Inside m₀ addr m
  | .stop => True

theorem base_le (h : Inside m₀ addr m) : m₀.stack.length ≤ base m := by
  obtain ⟨p, hp, hsp, -⟩ := h.above.exists_context
  rw [base, hp]
  exact hsp

theorem pop {n : ℕ} {vs : List Svalue} (h : Inside m₀ addr m) (hn : base m + n ≤ m.stack.length)
    (hpop : m.pop n = some (vs, m')) : Inside m₀ addr m' := by
  rw [Machine.pop] at hpop
  split_ifs at hpop
  cases hpop
  have hbase := h.base_le
  exact ⟨h.above, suffix_drop h.stack (by omega), h.csp, h.controlStack⟩

theorem push {vs : List Svalue} {k : Machine W → Evaluation.Outcome W} (h : Inside m₀ addr m)
    (hk : ∀ stack, m.stack <:+ stack → Outcome m₀ addr (k { m with stack })) :
    Outcome m₀ addr (m.push vs k) := by
  rw [Machine.push]
  split_ifs
  · exact hk _ (List.suffix_append ..)
  · exact h

theorem enter {f : Function} {numArg : ℕ} {ob previousOb : Option Obj} {externCall : Bool}
    (h : Inside m₀ addr m) (hstack : m₀.stack.length + numArg ≤ m.stack.length) :
    Outcome m₀ addr (m.enter f numArg ob previousOb externCall) := by
  rw [Machine.enter]
  split_ifs
  · exact h
  · have hframe (frame : ControlStack) : ∀ i < m₀.csp,
        Function.update m.controlStack m.csp frame i = m₀.controlStack i := by
      intro i hi
      rw [Function.update_of_ne (Nat.ne_of_lt (hi.trans_le h.csp)), h.controlStack i hi]
    refine push ⟨h.above, suffix_drop h.stack (by omega), Nat.le_succ_of_le h.csp, hframe _⟩ ?_
    intro stack hsuffix
    exact ⟨h.above, (suffix_drop h.stack (by omega)).trans hsuffix, Nat.le_succ_of_le h.csp,
      hframe _⟩

theorem callFunction {ob : Obj} {fun_ : ℕ} {args : List Svalue} {a : Activation W}
    (h : Inside m₀ addr { m with waiting := a :: m.waiting }) :
    Outcome m₀ addr (m.callFunction P ob fun_ args a) := by
  have hlen := h.stack.length_le
  rw [Machine.callFunction, Machine.push]
  split_ifs
  · refine enter ⟨h.above, h.stack.trans (List.suffix_append ..), h.csp, h.controlStack⟩ ?_
    simp only [List.length_append, List.length_reverse]
    dsimp only at hlen
    omega
  · exact h

end Inside

/-! ### Errors in the `catch` -/

theorem popErrorContext_error {p : ErrorContext} (h : m.ecsp = p :: es) :
    m.popErrorContext true = some
      { m with
        exception := p.exception
        ecsp := es
        regs := p.cstack
        csp := p.saveCsp
        stack := cut p.saveSp m.stack
        commandGiver := p.saveCommandGiver } := by
  rw [Machine.popErrorContext]
  split
  · simp_all
  · next heq =>
    cases h.symm.trans heq
    rfl

theorem popErrorContext_done {p : ErrorContext} (h : m.ecsp = p :: es) :
    m.popErrorContext false =
      some { m with exception := p.exception, ecsp := es, regs := p.cstack } := by
  rw [Machine.popErrorContext]
  split
  · simp_all
  · next heq =>
    cases h.symm.trans heq
    rfl

namespace Inside

/-- What is left when a context in the `catch` is restored. -/
theorem restore {p : ErrorContext} (habove : Above m₀ addr ws es p.exception)
    (hsp : m₀.stack.length ≤ p.saveSp) (hcsp : m₀.csp ≤ p.saveCsp) (h : Inside m₀ addr m) :
    Inside m₀ addr
      { m with
        waiting := ws
        exception := p.exception
        ecsp := es
        regs := p.cstack
        csp := p.saveCsp
        stack := cut p.saveSp m.stack
        commandGiver := p.saveCommandGiver } :=
  ⟨habove, suffix_cut h.stack hsp, hcsp, h.controlStack⟩

/-- A `catch` in the `catch` catches an error. -/
theorem caught {p : ErrorContext} (habove : Above m₀ addr ws es p.exception)
    (hsp : m₀.stack.length ≤ p.saveSp) (hcsp : m₀.csp ≤ p.saveCsp) (h : Inside m₀ addr m)
    (hes : m.ecsp = p :: es) :
    ∃ u, { m with waiting := ws }.caught = some u ∧ Inside m₀ addr u.1 := by
  obtain ⟨habove, hstack, hcsp, hcontrol⟩ := restore habove hsp hcsp h
  rw [Machine.caught, popErrorContext_error (m := { m with waiting := ws }) hes]
  dsimp only [bind_eq_bind, bind_some]
  by_cases hplace : (cut p.saveSp m.stack).length + 1 ≤ EVALUATOR_STACK_SIZE
  · rw [if_pos hplace]
    exact ⟨_, rfl, habove, hstack.trans (List.suffix_cons ..), hcsp, hcontrol⟩
  · rw [if_neg hplace]
    exact ⟨_, rfl, habove, hstack, hcsp, hcontrol⟩

/-- The `catch` that was entered catches an error. -/
theorem restored (hplace : m₀.stack.length < EVALUATOR_STACK_SIZE) (h : Inside m₀ addr m)
    (hes : m.ecsp = context m₀ addr :: m₀.ecsp) :
    ∃ u, { m with waiting := m₀.waiting }.caught = some u ∧
      Restored m₀ addr m.catchValue u := by
  have hcut : cut m₀.stack.length m.stack = m₀.stack := cut_of_suffix h.stack
  rw [Machine.caught, popErrorContext_error (m := { m with waiting := m₀.waiting }) hes]
  dsimp only [bind_eq_bind, bind_some, context]
  rw [hcut, if_pos (Nat.succ_le_of_lt hplace)]
  exact ⟨_, rfl, rfl, rfl, rfl, h.controlStack, rfl, rfl, rfl, rfl⟩

end Inside

/-- An error is caught in the `catch`, or by the `catch`. -/
def Goes (m₀ : Machine W) (addr : ℕ) (v : Svalue) (u : State W) : Prop :=
  Inside m₀ addr u.1 ∨ Restored m₀ addr v u

theorem longjmp_cut {frame : Gdexception} {rest : List Gdexception}
    (hexception : m.exception = frame :: rest) (hframe : frame.handler = .fCatch)
    (hcut : cut (frame.depth + 1) m.waiting = .fCatch :: ws) :
    m.longjmp = { m with waiting := ws }.caught := by
  rw [Machine.longjmp]
  simp only [hexception, hframe, hcut]

/-- Where the innermost exception frame is, when it is that of a `catch`. By induction on the
functions of C that wait: those that have no frame are left out. -/
theorem Above.find {frame : Gdexception} {rest : List Gdexception}
    (h : Above m₀ addr ws es (frame :: rest)) (hframe : frame.handler = .fCatch) :
    frame.depth < ws.length ∧ ∃ ws', cut (frame.depth + 1) ws = .fCatch :: ws' ∧
      ((ws' = m₀.waiting ∧ es = context m₀ addr :: m₀.ecsp) ∨
        ∃ p es', es = p :: es' ∧ Above m₀ addr ws' es' p.exception ∧
          m₀.stack.length ≤ p.saveSp ∧ m₀.csp ≤ p.saveCsp) := by
  generalize hex : frame :: rest = ex at h
  induction h with
  | entered =>
    cases hex
    exact ⟨Nat.lt_succ_self _, _, by rw [cut_cons, if_pos (Nat.lt_succ_self _)], .inl ⟨rfl, rfl⟩⟩
  | efun h ih =>
    obtain ⟨hlt, ws', hcut, hws'⟩ := ih hex
    exact ⟨Nat.lt_succ_of_lt hlt, ws', by rwa [cut_cons, if_neg (by omega)], hws'⟩
  | fCatch h hsp hcsp _ =>
    cases hex
    exact ⟨Nat.lt_succ_self _, _, by rw [cut_cons, if_pos (Nat.lt_succ_self _)],
      .inr ⟨_, _, rfl, h, hsp, hcsp⟩⟩
  | destructor | exitEd | returned =>
    cases hex
    cases hframe

/-- **Where an error goes.** -/
theorem Inside.longjmp (hplace : m₀.stack.length < EVALUATOR_STACK_SIZE) (h : Inside m₀ addr m)
    (hframe : CatchFrame m) :
    ∃ u, m.longjmp = some u ∧ Goes m₀ addr m.catchValue u := by
  obtain ⟨frame, hhead, hframe⟩ := map_eq_some_iff.1 hframe
  obtain ⟨rest, hexception⟩ : ∃ rest, m.exception = frame :: rest := List.head?_eq_some_iff.1 hhead
  have habove := h.above
  rw [hexception] at habove
  obtain ⟨-, ws, hcut, ⟨rfl, hes⟩ | ⟨p, es, hes, habove, hsp, hcsp⟩⟩ := habove.find hframe
  · obtain ⟨u, hu, hrestored⟩ := h.restored hplace hes
    exact ⟨u, (longjmp_cut hexception hframe hcut).trans hu, .inr hrestored⟩
  · obtain ⟨u, hu, hinside⟩ := h.caught habove hsp hcsp hes
    exact ⟨u, (longjmp_cut hexception hframe hcut).trans hu, .inl hinside⟩

theorem CatchFrame.eCatch (h : CatchFrame m) :
    (m.exception.head?.any fun frame ↦ frame.handler.eCatch) = true := by
  obtain ⟨frame, hhead, hframe⟩ := map_eq_some_iff.1 h
  rw [hhead, any_some, hframe]
  rfl

theorem Inside.error (msg : CString) (hplace : m₀.stack.length < EVALUATOR_STACK_SIZE)
    (h : Inside m₀ addr m) (hframe : CatchFrame m) :
    ∃ u, m.error P msg = some u ∧ Goes m₀ addr (emsg msg) u := by
  rw [Machine.error, if_pos hframe.eCatch]
  exact longjmp (m := { m with catchValue := emsg msg }) hplace
    ⟨h.above, h.stack, h.csp, h.controlStack⟩ hframe

theorem Inside.doThrowError (v : Svalue) (hplace : m₀.stack.length < EVALUATOR_STACK_SIZE)
    (h : Inside m₀ addr m) (hframe : CatchFrame m) :
    ∃ u, m.doThrowError P v = some u ∧ Goes m₀ addr v u := by
  rw [Machine.doThrowError.eq_def]
  dsimp only
  rw [if_pos hframe.eCatch]
  exact longjmp (m := { m with catchValue := v }) hplace
    ⟨h.above, h.stack, h.csp, h.controlStack⟩ hframe

/-! ### Each step -/

namespace Inside

theorem fetch (h : Inside m₀ addr m) : Inside m₀ addr m.fetch :=
  ⟨h.above, h.stack, h.csp, h.controlStack⟩

theorem stepEfun (h : Inside m₀ addr m) (e : Efun W) : Outcome m₀ addr (m.stepEfun P e) := by
  obtain ⟨habove, hstack, hcsp, hcontrol⟩ := id h
  cases e with
  | done v =>
    rw [Machine.stepEfun]
    exact h.push fun stack hsuffix ↦ ⟨habove, hstack.trans hsuffix, hcsp, hcontrol⟩
  | error msg => exact h
  | throw v => exact h
  | act f next => exact ⟨habove, hstack, hcsp, hcontrol⟩
  | charge next => exact ⟨habove, hstack, hcsp, hcontrol⟩
  | call ob fun_ args next => exact callFunction ⟨.efun habove, hstack, hcsp, hcontrol⟩
  | destructor ob fun_ next =>
    exact callFunction ⟨.destructor habove hstack.length_le hcsp, hstack, hcsp, hcontrol⟩
  | exitEd ob fun_ next => exact callFunction ⟨.exitEd habove, hstack, hcsp, hcontrol⟩

/-- A function of LPC returns to a function of C in the `catch`. -/
theorem returnTo (h : Inside m₀ addr m) (v : Svalue) : Outcome m₀ addr (m.returnTo v) := by
  obtain ⟨habove, hstack, hcsp, hcontrol⟩ := h
  rw [Machine.returnTo]
  split
  · next heq =>
    rw [heq] at habove
    exact ⟨habove.of_efun, hstack, hcsp, hcontrol⟩
  · next _ ws heq =>
    rw [heq] at habove
    obtain ⟨p, es, hes, habove, -⟩ := habove.of_destructor
    rw [popErrorContext_done (m := { m with waiting := ws }) hes]
    exact ⟨habove, hstack, hcsp, hcontrol⟩
  · next heq =>
    rw [heq] at habove
    exact ⟨habove.of_exitEd, hstack, hcsp, hcontrol⟩
  · next heq => exact absurd (by rw [heq]; rfl) habove.not_runtimeError
  · trivial
  · trivial

theorem execute {i : Instr W} (h : Inside m₀ addr m) (hi : i ≠ .fEndCatch)
    (hbalanced : Balanced P (m, .instruction)) (hm : m.instr? P = some i) :
    Outcome m₀ addr (m.fetch.execute P i) := by
  rw [Balanced.eq_def] at hbalanced
  simp only [hm] at hbalanced
  have hbase := h.base_le
  have hfetch := h.fetch
  cases i with
  | efun numArg body =>
    simp only [Machine.execute]
    split
    · next hpop => exact hfetch.pop hbalanced hpop
    · trivial
  | fPopValue =>
    simp only [Machine.execute]
    split
    · next hpop => exact hfetch.pop hbalanced hpop
    · trivial
  | fJump addr' => exact ⟨hfetch.above, hfetch.stack, hfetch.csp, hfetch.controlStack⟩
  | fBranch taken addr' =>
    simp only [Machine.execute]
    split
    · next hpop =>
      obtain ⟨habove, hstack, hcsp, hcontrol⟩ := hfetch.pop hbalanced hpop
      cases taken _ <;> exact ⟨habove, hstack, hcsp, hcontrol⟩
    · trivial
  | fCall fun_ numArg =>
    simp only [Machine.execute]
    split
    · exact hfetch.enter (by dsimp only [Machine.fetch]; omega)
    · trivial
  | fReturn =>
    simp only [Machine.execute]
    split
    · next v _ m₁ hpop =>
      obtain ⟨p, hp, -, hcsp⟩ := h.above.exists_context
      rw [hp] at hbalanced
      have hlt : p.saveCsp < m.csp := hbalanced.2
      have hcsp₁ : m₁.csp = m.csp := by rw [Machine.pop_eq hpop]; rfl
      have hpopped := hfetch.pop (n := _ + 1) hbalanced.1 hpop
      have hreturned (regs : Registers) :
          Inside m₀ addr { m₁ with csp := m₁.csp - 1, regs } :=
        ⟨hpopped.above, hpopped.stack, by dsimp only; omega, hpopped.controlStack⟩
      split_ifs
      · trivial
      · exact (hreturned _).returnTo v
      · obtain ⟨habove, hstack, hcsp, hcontrol⟩ := hreturned m.regs
        exact ⟨habove, hstack.trans (List.suffix_cons ..), hcsp, hcontrol⟩
    · trivial
  | fCatch addr' =>
    exact ⟨.fCatch hfetch.above hfetch.stack.length_le hfetch.csp, hfetch.stack, hfetch.csp,
      hfetch.controlStack⟩
  | fEndCatch => exact absurd rfl hi

/-- What may come of a step: the machine is still in the `catch`, or has left it at the end. -/
def Leads (m₀ : Machine W) (addr : ℕ) : Evaluation.Outcome W → Prop
  | .next m t => Goes m₀ addr (.number 0) (m, t)
  | .error m _ | .throw m _ => Inside m₀ addr m
  | .stop => True

theorem Outcome.leads {o : Evaluation.Outcome W} (h : Outcome m₀ addr o) : Leads m₀ addr o := by
  cases o with
  | next m t => exact .inl h
  | error m msg => exact h
  | throw m v => exact h
  | stop => trivial

/-- The end of the `catch`, or of one in it. -/
theorem endCatch (hplace : m₀.stack.length < EVALUATOR_STACK_SIZE) (h : Inside m₀ addr m) :
    Leads m₀ addr (m.execute P .fEndCatch) := by
  simp only [Machine.execute]
  split
  · next ws heq =>
    have habove := h.above
    rw [heq] at habove
    rcases habove.of_fCatch with ⟨rfl, hes⟩ | ⟨p, es, hes, habove, hsp, hcsp⟩
    · have hcut : cut m₀.stack.length m.stack = m₀.stack := cut_of_suffix h.stack
      rw [popErrorContext_error (m := { m with waiting := m₀.waiting }) hes]
      simp only [context, hcut, Machine.push, List.length_singleton]
      rw [if_pos (Nat.succ_le_of_lt hplace)]
      exact .inr ⟨rfl, rfl, rfl, h.controlStack, rfl, rfl, rfl, rfl⟩
    · obtain ⟨habove, hstack, hcsp, hcontrol⟩ := restore habove hsp hcsp h
      rw [popErrorContext_error (m := { m with waiting := ws }) hes]
      let m' := { m with
        waiting := ws
        exception := p.exception
        ecsp := es
        regs := p.cstack
        csp := p.saveCsp
        stack := cut p.saveSp m.stack
        commandGiver := p.saveCommandGiver
        catchLevel := m.catchLevel - 1 }
      refine (push (m := m') ⟨habove, hstack, hcsp, hcontrol⟩ ?_).leads
      exact fun stack hsuffix ↦ ⟨habove, hstack.trans hsuffix, hcsp, hcontrol⟩
  · trivial

theorem perform (hplace : m₀.stack.length < EVALUATOR_STACK_SIZE) (h : Inside m₀ addr t.1)
    (hbalanced : Balanced P t) : Leads m₀ addr (t.1.perform P t.2) := by
  obtain ⟨m, _ | e⟩ := t
  · simp only [Machine.perform]
    split
    · trivial
    · next i hm =>
      split_ifs
      · exact ⟨h.above, h.stack, h.csp, h.controlStack⟩
      · by_cases hi : i = .fEndCatch
        · rw [hi]
          exact h.fetch.endCatch hplace
        · exact (h.execute hi hbalanced hm).leads
  · exact (h.stepEfun e).leads

/-- **A step in the `catch`.** An error in it is caught. -/
theorem step (hplace : m₀.stack.length < EVALUATOR_STACK_SIZE) (h : Inside m₀ addr t.1)
    (hbalanced : Balanced P t) (hcaught : Caught P t) :
    (raised P t ≠ none → ∃ u, step P t = some u) ∧
      ∀ u, Evaluation.step P t = some u → Goes m₀ addr ((raised P t).getD (.number 0)) u := by
  have hleads := h.perform hplace hbalanced
  rw [Caught] at hcaught
  rw [raised, Evaluation.step]
  cases heq : t.1.perform P t.2 with
  | next m t' =>
    rw [heq] at hleads
    exact ⟨fun h ↦ absurd rfl h, fun u hu ↦ some.inj hu ▸ hleads⟩
  | error m msg =>
    rw [heq] at hleads hcaught
    obtain ⟨u, hu, hgoes⟩ := Inside.error (P := P) msg hplace hleads hcaught
    exact ⟨fun _ ↦ ⟨u, hu⟩, fun u' hu' ↦ some.inj (hu.symm.trans hu') ▸ hgoes⟩
  | throw m v =>
    rw [heq] at hleads hcaught
    obtain ⟨u, hu, hgoes⟩ := Inside.doThrowError (P := P) v hplace hleads hcaught
    exact ⟨fun _ ↦ ⟨u, hu⟩, fun u' hu' ↦ some.inj (hu.symm.trans hu') ▸ hgoes⟩
  | stop => exact ⟨fun h ↦ absurd rfl h, nofun⟩

end Inside

/-! ### Runs of a `catch` -/

/-- The machine `s` enters a `catch` that ends before `addr`. -/
structure Enters (P : Mudlib W) (s : State W) (addr : ℕ) : Prop where
  task : s.2 = .instruction
  instr : s.1.instr? P = some (.fCatch addr)
  evalCost : s.1.evalCost < MAX_COST

/-- For `n` steps the machine evaluates the expression of the `catch` that it enters in the state
`s`: the function of C with the frame of the `catch` waits. -/
def Evaluates (P : Mudlib W) (s : State W) (n : ℕ) : Prop :=
  ∀ k ≤ n, ∀ t, iterate (step P) s (k + 1) = some t → s.1.waiting.length < t.1.waiting.length

theorem Inside.of_enters (h : Enters P s addr) (hstep : Evaluation.step P s = some t) :
    Inside s.1 addr t.1 := by
  obtain ⟨m, _⟩ := s
  obtain ⟨rfl, hinstr, hcost⟩ := h
  rw [Evaluation.step, Machine.perform] at hstep
  simp only [hinstr, if_neg (not_lt.2 (Nat.succ_le_of_lt hcost) : ¬MAX_COST < m.fetch.evalCost)]
    at hstep
  cases hstep
  exact ⟨.entered, List.suffix_rfl, le_rfl, fun _ _ ↦ rfl⟩

/-- As long as every error is caught, the machine is in the `catch` until it has left it. -/
theorem Inside.of_evaluates {n : ℕ} (h : Enters P s addr)
    (hplace : s.1.stack.length < EVALUATOR_STACK_SIZE) (heval : Evaluates P s n)
    (hrun : ∀ k < n, ∀ t, iterate (Evaluation.step P) s (k + 1) = some t →
      Balanced P t ∧ Caught P t)
    (ht : iterate (Evaluation.step P) s (n + 1) = some t) : Inside s.1 addr t.1 := by
  induction n generalizing t with
  | zero => exact of_enters h ht
  | succ n ih =>
    obtain ⟨r, hr, hstep⟩ := bind_eq_some_iff.1 ht
    have hinside := ih (fun k hk ↦ heval k (Nat.le_succ_of_le hk))
      (fun k hk ↦ hrun k (Nat.lt_succ_of_lt hk)) hr
    obtain ⟨hbalanced, hcaught⟩ := hrun n (Nat.lt_succ_self n) r hr
    rcases (hinside.step hplace hbalanced hcaught).2 t hstep with hinside | hrestored
    · exact hinside
    · exact absurd (heval (n + 1) le_rfl t ht) (by rw [hrestored.waiting]; exact lt_irrefl _)

/-- **`catch` restores the machine**, however it is left, when there is place for its value and
every error on the way meets the frame of a `catch`. -/
theorem catch_restores (P : Mudlib W) (s t : State W) (addr n : ℕ) (h : Enters P s addr)
    (hplace : s.1.stack.length < EVALUATOR_STACK_SIZE)
    (hrun : ∀ k ≤ n, ∀ t, iterate (step P) s (k + 1) = some t → Balanced P t ∧ Caught P t)
    (heval : Evaluates P s n) (ht : iterate (step P) s (n + 1) = some t) :
    (raised P t ≠ none → ∃ u, step P t = some u) ∧
      ∀ u, step P t = some u → u.1.waiting.length ≤ s.1.waiting.length →
        Restored s.1 addr ((raised P t).getD (.number 0)) u := by
  have hinside := Inside.of_evaluates h hplace heval (fun k hk ↦ hrun k (Nat.le_of_lt hk)) ht
  obtain ⟨hbalanced, hcaught⟩ := hrun n le_rfl t ht
  obtain ⟨hgoes, hleft⟩ := hinside.step hplace hbalanced hcaught
  refine ⟨hgoes, fun u hu hlen ↦ ?_⟩
  rcases hleft u hu with hinside | hrestored
  · exact absurd hlen (not_le.2 hinside.above.length_lt)
  · exact hrestored

/-- `catch(throw(7))`. -/
def throws : Mudlib Unit where
  code _ pc :=
    match pc with
    | 0 => .fCatch 4
    | 1 => .efun 0 fun _ ↦ .throw (.number 7)
    | 2 => .fPopValue
    | 3 => .fEndCatch
    | _ => .fReturn
  function _ _ := ⟨0, 0, 0, 0, fun _ ↦ 0⟩
  masterOb := 1
  runtimeError := 0
  progName _ := text "throws"
  srccodePosition _ _ := text "/throws.c Line: 1"

/-- The machine in a function of the object 0, with some values on the stack. -/
def inFunction (stack : List Svalue) (pc : ℕ) : Machine Unit :=
  { idle () with
    stack
    controlStack := Function.update (idle ()).controlStack 0
      ⟨⟨none, none, none, 0, 0, 0⟩, 0, true⟩
    csp := 1
    regs := ⟨some 0, none, some 0, pc, 0, 0⟩
    evalCost := pc }

theorem catch_restores_throws : ∃ t u,
    iterate (step throws) (inFunction [] 0, .instruction) 2 = some t ∧ step throws t = some u ∧
      Restored (inFunction [] 0) 4 (.number 7) u := by
  have hrun : ∀ k ≤ 1, ∀ t,
      iterate (step throws) (inFunction [] 0, .instruction) (k + 1) = some t →
        Balanced throws t ∧ Caught throws t ∧ 0 < t.1.waiting.length := by
    intro k hk t ht
    obtain rfl | rfl := Nat.le_one_iff_eq_zero_or_eq_one.1 hk
    · cases ht
      exact ⟨Nat.le_refl _, trivial, by decide⟩
    · cases ht
      exact ⟨trivial, rfl, by decide⟩
  have ht : iterate (step throws) (inFunction [] 0, .instruction) 2 = some _ := rfl
  obtain ⟨hgoes, hleft⟩ := catch_restores throws (inFunction [] 0, .instruction) _ 4 1
    ⟨rfl, rfl, by decide⟩ (by decide)
    (fun k hk t ht ↦ ⟨(hrun k hk t ht).1, (hrun k hk t ht).2.1⟩)
    (fun k hk t ht ↦ (hrun k hk t ht).2.2) ht
  obtain ⟨u, hu⟩ := hgoes nofun
  have hwaiting : (iterate (step throws) (inFunction [] 0, .instruction) 3).map
      (fun u ↦ u.1.waiting.length) = some 0 := rfl
  rw [iterate, ht, bind_some, hu] at hwaiting
  exact ⟨_, u, ht, hu, hleft u hu (some.inj hwaiting).le⟩

/-! ### An error in a destructor -/

/-- `({ 7, catch(destruct()) })`, where the destructor divides by zero. -/
def destructs : Mudlib Unit where
  code _ pc :=
    match pc with
    | 0 => .efun 0 fun _ ↦ .done (.number 7)
    | 1 => .fCatch 5
    | 2 => .efun 0 fun _ ↦ .destructor 2 1 (.done (.number 0))
    | 3 => .fPopValue
    | 4 => .fEndCatch
    | 6 => .efun 0 fun _ ↦ .error (text "Division by zero.\n")
    | 7 => .efun 0 fun _ ↦ .done (.number 0)
    | _ => .fReturn
  function _ fun_ :=
    match fun_ with
    | 0 => ⟨0, 0, 0, 0, fun _ ↦ 0⟩
    | 1 => ⟨0, 0, 0, 0, fun _ ↦ 6⟩
    | _ => ⟨0, 0, 4, 0, fun _ ↦ 7⟩
  masterOb := 1
  runtimeError := 2
  progName _ := text "destructs"
  srccodePosition _ _ := text "/destructs.c Line: 1"

/-- **Not every `catch` restores the machine.** After the error in the destructor the 7 is gone. -/
theorem not_catch_restores : ¬∀ (W : Type) (P : Mudlib W) (w : W) (ob : Obj) (fun_ : ℕ)
    (args : List Svalue) (s₀ s t u : State W) (addr k n : ℕ), entry P w ob fun_ args = some s₀ →
    iterate (step P) s₀ k = some s → Enters P s addr → s.1.stack.length < EVALUATOR_STACK_SIZE →
    Evaluates P s n → iterate (step P) s (n + 1) = some t → step P t = some u →
    u.1.waiting.length ≤ s.1.waiting.length →
    Restored s.1 addr ((raised P t).getD (.number 0)) u := by
  intro hall
  let s : State Unit := (inFunction [.number 7] 1, .instruction)
  have hwaits : ∀ k ≤ 9, (iterate (step destructs) s (k + 1)).any
      fun t ↦ t.1.waiting.length ≠ 0 := by decide
  have heval : Evaluates destructs s 9 := by
    intro k hk t ht
    have hwait := hwaits k hk
    rw [ht, any_some, decide_eq_true_eq] at hwait
    exact Nat.pos_of_ne_zero hwait
  have hrestored := hall Unit destructs () 0 0 [] _ s _ _ 5 2 9 rfl rfl ⟨rfl, rfl, by decide⟩
    (by decide) heval rfl rfl le_rfl
  exact absurd (congrArg List.length hrestored.stack) (by decide)
end Lpmud.Evaluation
