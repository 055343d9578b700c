import Lpmud.Interpret.Evaluation

/-!
# The limit on evaluations

An evaluation is meant to end when it takes more than `MAX_COST` instructions. The error that is
raised then can be caught, by the outermost `catch` even with `EXTRA_COST` instructions to spare,
and when it is not caught by a `catch` but by a function of C, the count starts again. An evaluation
ends exactly when this happens finitely often (`ends_evaluation_iff`); a loop around a `catch` makes
it happen for ever (`not_ends_evaluation`).
-/

namespace Lpmud.Evaluation

open Option Iteration

variable {W : Type} {P : Mudlib W} {m m' : Machine W} {t : Task W} {o : Outcome W} {b : ℕ}

/-! ### Instructions that are left -/

/-- The activation is that of a `catch`. -/
def Activation.isCatch : Activation W → Bool
  | .fCatch => true
  | _ => false

/-- How many instructions are left, where each takes two steps and each `catch` one. -/
def rank (m : Machine W) : ℕ :=
  2 * (MAX_COST + 1 - min m.evalCost MAX_COST) + m.waiting.countP Activation.isCatch

/-- A `catch` inside of another one would catch an error now, and there is place for it. -/
def Deeper (m : Machine W) : Prop :=
  (m.exception.head?.map Gdexception.handler = some .fCatch) ∧ m.catchLevel ≠ 1 ∧
    ∀ p ∈ m.ecsp.head?, p.saveSp < EVALUATOR_STACK_SIZE

/-- **New instructions are granted** in this step: the limit is exceeded where no `catch` inside of
another one catches the error, or a player is destructed who edits a file. -/
def Refills (s : State W) : Prop :=
  match s.2 with
  | .instruction => MAX_COST ≤ s.1.evalCost ∧ ¬Deeper s.1
  | .efun (.exitEd ..) => True
  | .efun _ => False

/-- All machines that may come of a step have a rank below a bound. -/
def Outcome.RankLe (b : ℕ) : Outcome W → Prop
  | .next m _ | .error m _ | .throw m _ => rank m ≤ b
  | .stop => True

theorem rank_mono (hcost : m.evalCost ≤ m'.evalCost)
    (hcatch : m'.waiting.countP Activation.isCatch ≤ m.waiting.countP Activation.isCatch) :
    rank m' ≤ rank m := by
  simp only [rank]
  omega

theorem Outcome.RankLe.mono {b' : ℕ} (h : o.RankLe b) (hb : b ≤ b') : o.RankLe b' := by
  cases o with
  | next | error | throw => exact le_trans h hb
  | stop => trivial

theorem rankLe_push {vs : List Svalue} {k : Machine W → Outcome W} (h : rank m ≤ b)
    (hk : ∀ stack, (k { m with stack }).RankLe b) : (m.push vs k).RankLe b := by
  rw [Machine.push]
  split_ifs
  · exact hk _
  · exact h

theorem rankLe_enter {f : Function} {numArg : ℕ} {ob previousOb : Option Obj} {externCall : Bool}
    (h : rank m ≤ b) : (m.enter f numArg ob previousOb externCall).RankLe b := by
  rw [Machine.enter]
  split_ifs
  · exact h
  · exact rankLe_push h fun _ ↦ h

theorem rankLe_callFunction {ob : Obj} {fun_ : ℕ} {args : List Svalue} {a : Activation W}
    (ha : a.isCatch = false) (h : rank m ≤ b) : (m.callFunction P ob fun_ args a).RankLe b := by
  have hwaiting : rank { m with waiting := a :: m.waiting } ≤ b := by
    simpa [rank, ha] using h
  exact rankLe_push hwaiting fun _ ↦ rankLe_enter hwaiting

/-! ### Errors -/

theorem popErrorContext_eq {error : Bool} (h : m.popErrorContext error = some m') :
    m'.evalCost = m.evalCost ∧ m'.waiting = m.waiting ∧ m'.catchLevel = m.catchLevel := by
  rw [Machine.popErrorContext] at h
  split at h
  · cases h
  · cases error <;> cases h <;> exact ⟨rfl, rfl, rfl⟩

theorem rank_popErrorContext {error : Bool} (h : m.popErrorContext error = some m') :
    rank m' = rank m := by
  obtain ⟨hcost, hwaiting, -⟩ := popErrorContext_eq h
  rw [rank, rank, hcost, hwaiting]

theorem rank_caught {s : State W} (h : m.caught = some s) :
    rank s.1 ≤ rank m ∧ s.1.waiting = m.waiting := by
  obtain ⟨m₁, hpop, h⟩ := bind_eq_some_iff.1 h
  obtain ⟨hcost, hwaiting, -⟩ := popErrorContext_eq hpop
  dsimp only at h
  split_ifs at h <;> cases h <;> simp_all [rank] <;> omega

theorem rank_longjmp {s : State W} (h : m.longjmp = some s) :
    rank s.1 ≤ rank m ∧ s.1.waiting.length < m.waiting.length := by
  have hwait {a : Activation W} {waiting : List (Activation W)} {d : ℕ}
      (hcut : cut d m.waiting = a :: waiting) :
      rank { m with waiting } ≤ rank m ∧ waiting.length < m.waiting.length := by
    have hsuffix := hcut ▸ cut_suffix d m.waiting
    refine ⟨rank_mono le_rfl ?_, hsuffix.length_le⟩
    exact ((List.sublist_cons_self a waiting).trans hsuffix.sublist).countP_le
  rw [Machine.longjmp] at h
  split at h
  · cases h
  · split at h
    · next hcut =>
      obtain ⟨hrank, heq⟩ := rank_caught h
      rw [heq]
      exact ⟨hrank.trans (hwait hcut).1, (hwait hcut).2⟩
    · next hcut =>
      obtain ⟨m₁, hpop, rfl⟩ := map_eq_some_iff.1 h
      rw [rank_popErrorContext hpop, (popErrorContext_eq hpop).2.1]
      exact hwait hcut
    · next hcut =>
      cases h
      exact hwait hcut
    · cases h

theorem Outcome.RankLe.state {s : State W} (h : o.RankLe b) (hs : o.state? = some s) :
    rank s.1 ≤ b := by
  cases o with
  | next m t =>
    cases hs
    exact h
  | error | throw | stop => cases hs

theorem rankLe_callRuntimeError {msg : CString} : (m.callRuntimeError P msg).RankLe (rank m) :=
  rankLe_callFunction rfl le_rfl

theorem rank_error {msg : CString} {s : State W} (h : m.error P msg = some s) :
    rank s.1 ≤ rank m := by
  rw [Machine.error] at h
  split_ifs at h
  · exact (rank_longjmp h).1
  · dsimp only at h
    split_ifs at h
    · have hrank := rankLe_callRuntimeError.state h
      exact hrank
    · exact (rank_longjmp h).1

theorem rank_doThrowError {v : Svalue} {s : State W} (h : m.doThrowError P v = some s) :
    rank s.1 ≤ rank m := by
  rw [Machine.doThrowError.eq_def] at h
  dsimp only at h
  split_ifs at h
  · exact (rank_longjmp h).1
  · split at h
    · have hrank := rank_error h
      exact hrank
    · have hrank := rank_error h
      exact hrank

theorem Outcome.RankLe.handle {s : State W} (h : o.RankLe b) (hs : o.handle P = some s) :
    rank s.1 ≤ b := by
  cases o with
  | next m t =>
    cases hs
    exact h
  | error m msg => exact (rank_error hs).trans h
  | throw m v => exact (rank_doThrowError hs).trans h
  | stop => cases hs

/-! ### Steps -/

theorem rank_waiting {a : Activation W} {waiting : List (Activation W)}
    (h : m.waiting = a :: waiting) : rank { m with waiting } ≤ rank m := by
  have hcount : waiting.countP Activation.isCatch ≤ m.waiting.countP Activation.isCatch := by
    rw [h]
    exact (List.sublist_cons_self a waiting).countP_le
  exact rank_mono le_rfl hcount

theorem rankLe_returnTo (v : Svalue) : (m.returnTo v).RankLe (rank m) := by
  rw [Machine.returnTo]
  split
  · next heq => exact rank_waiting heq
  · next heq =>
    split
    · next hpop => exact (rank_popErrorContext hpop).trans_le (rank_waiting heq)
    · trivial
  · next heq => exact rank_waiting heq
  · next heq =>
    split
    · next hjmp => exact (rank_longjmp hjmp).1.trans (rank_waiting heq)
    · trivial
  · trivial
  · trivial

theorem rankLe_stepEfun (e : Efun W) (he : ∀ ob fun_ next, e ≠ .exitEd ob fun_ next) :
    (m.stepEfun P e).RankLe (rank m) := by
  cases e with
  | done v =>
    rw [Machine.stepEfun]
    exact rankLe_push le_rfl fun _ ↦ le_rfl
  | error msg => exact le_rfl
  | throw v => exact le_rfl
  | act f next => exact le_rfl
  | charge next => exact rank_mono (Nat.le_succ _) le_rfl
  | call ob fun_ args next => exact rankLe_callFunction rfl le_rfl
  | destructor ob fun_ next => exact rankLe_callFunction rfl le_rfl
  | exitEd ob fun_ next => exact absurd rfl (he ob fun_ next)

theorem rank_pop {n : ℕ} {vs : List Svalue} (h : m.pop n = some (vs, m')) : rank m' = rank m := by
  rw [Machine.pop_eq h]
  rfl

theorem rankLe_execute (i : Instr W) : (m.execute P i).RankLe (rank m + 1) := by
  have hle : rank m ≤ rank m + 1 := Nat.le_succ _
  cases i with
  | efun numArg body =>
    simp only [Machine.execute]
    split
    · next hpop => exact (rank_pop hpop).trans_le hle
    · trivial
  | fPopValue =>
    simp only [Machine.execute]
    split
    · next hpop => exact (rank_pop hpop).trans_le hle
    · trivial
  | fJump addr => exact hle
  | fBranch taken addr =>
    simp only [Machine.execute]
    split
    · next hpop =>
      have hrank := (rank_pop hpop).trans_le hle
      cases taken _ <;> exact hrank
    · trivial
  | fCall fun_ numArg =>
    simp only [Machine.execute]
    split
    · exact rankLe_enter hle
    · trivial
  | fReturn =>
    simp only [Machine.execute]
    split
    · next v _ m₁ hpop =>
      have hrank := rank_pop hpop
      split_ifs
      · trivial
      · exact (rankLe_returnTo v).mono (hrank.trans_le hle)
      · exact hrank.trans_le hle
    · trivial
  | fCatch addr =>
    have hcount : (Activation.fCatch :: m.waiting).countP Activation.isCatch =
        m.waiting.countP Activation.isCatch + 1 :=
      List.countP_cons_of_pos rfl
    simp only [Machine.execute, Machine.pushErrorContext, Outcome.RankLe, rank, hcount]
    omega
  | fEndCatch =>
    simp only [Machine.execute]
    split
    · next waiting heq =>
      have hwaiting := (rank_waiting heq).trans hle
      split
      · next hpop =>
        have hrank := (rank_popErrorContext hpop).trans_le hwaiting
        exact rankLe_push hrank fun _ ↦ hrank
      · trivial
    · trivial

/-- After the limit was exceeded, a `catch` inside of another one leaves nothing to it. -/
theorem evalCost_caught {s : State W} (hcost : m.evalCost = 0) (hlevel : m.catchLevel ≠ 1)
    (hplace : ∀ p ∈ m.ecsp.head?, p.saveSp < EVALUATOR_STACK_SIZE) (h : m.caught = some s) :
    s.1.evalCost = MAX_COST := by
  obtain ⟨m₁, hpop, h⟩ := bind_eq_some_iff.1 h
  obtain ⟨hcost₁, -, hlevel₁⟩ := popErrorContext_eq hpop
  have hstack : m₁.stack.length + 1 ≤ EVALUATOR_STACK_SIZE := by
    rw [Machine.popErrorContext] at hpop
    split at hpop
    · cases hpop
    · next p _ heq =>
      cases hpop
      exact (length_cut_le p.saveSp m.stack).trans_lt (hplace p (by rw [heq]; rfl))
  have hlevel' : m₁.catchLevel - 1 ≠ 0 := by omega
  dsimp only at h
  rw [if_pos hstack, if_pos (hcost₁.trans hcost), if_neg hlevel'] at h
  cases h
  rfl

/-- When the limit is exceeded in a `catch` inside of another one, there are no instructions left
for the other one either. -/
theorem rank_limit {msg : CString} {s : State W} (hdeeper : Deeper m) (hcost : m.evalCost = 0)
    (h : m.error P msg = some s) : rank s.1 + 2 * MAX_COST < rank m := by
  obtain ⟨hhandler, hlevel, hplace⟩ := hdeeper
  obtain ⟨frame, hframe, hhandler⟩ := map_eq_some_iff.1 hhandler
  obtain ⟨rest, hexception⟩ : ∃ rest, m.exception = frame :: rest := List.head?_eq_some_iff.1 hframe
  have hcatch : (m.exception.head?.any fun frame ↦ frame.handler.eCatch) = true := by
    rw [hframe, any_some, hhandler]
    rfl
  rw [Machine.error, if_pos hcatch, Machine.longjmp] at h
  simp only [hexception, hhandler] at h
  split at h
  · next hcut =>
    have hcost' : s.1.evalCost = MAX_COST := by
      refine evalCost_caught ?_ ?_ ?_ h <;> assumption
    have hwaiting := (rank_caught h).2
    have hcount := ((cut_suffix (frame.depth + 1) m.waiting).sublist).countP_le
      (p := Activation.isCatch)
    rw [hcut, List.countP_cons_of_pos rfl] at hcount
    simp only [rank, hcost, hcost', hwaiting]
    omega
  all_goals simp_all

theorem rank_step_efun {e : Efun W} {s : State W} (h : step P (m, .efun e) = some s)
    (hgood : ¬Refills (m, .efun e)) : rank s.1 ≤ rank m := by
  have he : ∀ ob fun_ next, e ≠ .exitEd ob fun_ next := by
    rintro ob fun_ next rfl
    exact hgood trivial
  exact (rankLe_stepEfun e he).handle h

theorem rank_step_instruction {s : State W} (h : step P (m, .instruction) = some s)
    (hgood : ¬Refills (m, .instruction)) : rank s.1 < rank m := by
  have hdeeper : MAX_COST ≤ m.evalCost → Deeper m := fun hle ↦
    not_not.1 fun hnot ↦ hgood ⟨hle, hnot⟩
  rw [step, Machine.perform] at h
  split at h
  · cases h
  · split_ifs at h with hlimit
    · have hlt := rank_limit (m := { m.fetch with evalCost := 0 })
        (hdeeper (Nat.le_of_lt_succ hlimit)) rfl h
      have hcost : MAX_COST < m.evalCost + 1 := hlimit
      simp only [rank, Machine.fetch] at hlt ⊢
      omega
    · have hfetch : rank m.fetch + 2 = rank m := by
        have hcost : ¬MAX_COST < m.evalCost + 1 := hlimit
        simp only [rank, Machine.fetch]
        omega
      have hrank : rank s.1 ≤ rank m.fetch + 1 := (rankLe_execute _).handle h
      omega

/-! ### Efuns -/

/-- An instruction follows, or there is an error while the same functions of C wait. -/
def Calls (m : Machine W) (o : Outcome W) : Prop :=
  (∃ m', o = .next m' .instruction) ∨
    ∃ m' msg, o = .error m' msg ∧ m'.waiting = m.waiting ∧ m'.exception = m.exception

theorem calls_push {vs : List Svalue} {k : Machine W → Outcome W}
    (hk : ∀ stack, Calls m (k { m with stack })) : Calls m (m.push vs k) := by
  rw [Machine.push]
  split_ifs
  · exact hk _
  · exact .inr ⟨m, _, rfl, rfl, rfl⟩

theorem calls_enter (f : Function) (numArg : ℕ) (ob previousOb : Option Obj) (externCall : Bool) :
    Calls m (m.enter f numArg ob previousOb externCall) := by
  rw [Machine.enter]
  split_ifs
  · exact .inr ⟨m, _, rfl, rfl, rfl⟩
  · rw [Machine.push]
    split_ifs
    · exact .inl ⟨_, rfl⟩
    · exact .inr ⟨_, _, rfl, rfl, rfl⟩

theorem calls_callFunction (P : Mudlib W) (ob : Obj) (fun_ : ℕ) (args : List Svalue)
    (a : Activation W) :
    Calls { m with waiting := a :: m.waiting } (m.callFunction P ob fun_ args a) :=
  calls_push fun _ ↦ calls_enter ..

theorem Calls.instruction {s : State W} (h : Calls m o) (hs : o.state? = some s) :
    s.2 = .instruction := by
  rcases h with ⟨m', rfl⟩ | ⟨m', msg, rfl, -⟩
  · cases hs
    rfl
  · cases hs

theorem callRuntimeError_instruction {msg : CString} {s : State W}
    (h : (m.callRuntimeError P msg).state? = some s) : s.2 = .instruction :=
  (calls_callFunction ..).instruction h

theorem error_eq {msg : CString} {s : State W} (h : m.error P msg = some s) :
    s.2 = .instruction ∨ ∃ v n, { m with catchValue := v, numError := n }.longjmp = some s := by
  rw [Machine.error] at h
  split_ifs at h
  · exact .inr ⟨_, _, h⟩
  · dsimp only at h
    split_ifs at h
    · exact .inl (callRuntimeError_instruction h)
    · exact .inr ⟨_, _, h⟩

theorem doThrowError_eq {v : Svalue} {s : State W} (h : m.doThrowError P v = some s) :
    s.2 = .instruction ∨ ∃ v n, { m with catchValue := v, numError := n }.longjmp = some s := by
  rw [Machine.doThrowError.eq_def] at h
  dsimp only at h
  split_ifs at h
  · exact .inr ⟨_, _, h⟩
  · split at h
    · have heq := error_eq h
      exact heq
    · have heq := error_eq h
      exact heq

variable {next : Efun W} {waiting : List (Activation W)}

theorem longjmp_efun {next : Svalue → Efun W} {s : State W}
    (hwaiting : m.waiting = .efun next :: waiting) (h : m.longjmp = some s) :
    s.1.waiting.length < waiting.length := by
  have hsame : { m with waiting }.longjmp = some s := by
    rw [Machine.longjmp] at h ⊢
    split at h
    · cases h
    · next frame _ heq =>
      simp only [heq]
      rw [hwaiting, cut_cons] at h
      split_ifs at h
      · split at h <;> simp_all
      · rw [← h, heq]
  exact (rank_longjmp hsame).2

theorem longjmp_last {a : Activation W} {handler : Handler} {s : State W}
    (hwaiting : m.waiting = a :: waiting) (hexception : m.exception = [⟨handler, waiting.length⟩])
    (ha : a = .destructor next ∨ a = .exitEd next) (h : m.longjmp = some s) :
    s.2 = .efun next ∧ s.1.waiting = waiting := by
  have hcut : cut (waiting.length + 1) (a :: waiting) = a :: waiting := by
    rw [cut_cons, if_pos (Nat.lt_succ_self _)]
  rw [Machine.longjmp] at h
  simp only [hexception, hwaiting, hcut] at h
  rcases ha with rfl | rfl
  · cases handler with
    | destructor =>
      obtain ⟨m', hpop, rfl⟩ := map_eq_some_iff.1 h
      exact ⟨rfl, (popErrorContext_eq hpop).2.1⟩
    | backend | fCatch | exitEd => cases h
  · cases handler with
    | exitEd =>
      cases h
      exact ⟨rfl, rfl⟩
    | backend | fCatch | destructor => cases h

theorem callFunction_last {a : Activation W} {handler : Handler} {ob : Obj} {fun_ : ℕ}
    {args : List Svalue} {s : State W} (hexception : m.exception = [⟨handler, m.waiting.length⟩])
    (ha : a = .destructor next ∨ a = .exitEd next)
    (h : (m.callFunction P ob fun_ args a).handle P = some s) :
    s.2 = .instruction ∨ s.2 = .efun next ∧ s.1.waiting = m.waiting := by
  rcases calls_callFunction P ob fun_ args a with ⟨m', heq⟩ | ⟨m', msg, heq, hwaiting, hexc⟩
  · rw [heq] at h
    cases h
    exact .inl rfl
  · rw [heq] at h
    rcases error_eq h with hinstr | ⟨v, n, hjmp⟩
    · exact .inl hinstr
    · exact .inr (longjmp_last (m := { m' with catchValue := v, numError := n }) hwaiting
        (hexc.trans hexception) ha hjmp)

theorem callFunction_efun {next : Svalue → Efun W} {ob : Obj} {fun_ : ℕ} {args : List Svalue}
    {s : State W} (h : (m.callFunction P ob fun_ args (.efun next)).handle P = some s) :
    s.2 = .instruction ∨ s.1.waiting.length < m.waiting.length := by
  rcases calls_callFunction P ob fun_ args (.efun next) with ⟨m', heq⟩ | ⟨m', msg, heq, hwaiting, -⟩
  · rw [heq] at h
    cases h
    exact .inl rfl
  · rw [heq] at h
    rcases error_eq h with hinstr | ⟨v, n, hjmp⟩
    · exact .inl hinstr
    · exact .inr (longjmp_efun (m := { m' with catchValue := v, numError := n }) hwaiting hjmp)

/-- An instruction follows at some time, or the evaluation ends before. -/
def Meets (P : Mudlib W) (s : State W) : Prop :=
  ∃ n, ∀ t, iterate (step P) s n = some t → t.2 = .instruction

theorem Meets.of_step {s : State W} (h : ∀ t, step P s = some t → Meets P t) : Meets P s := by
  cases hs : step P s with
  | none => exact ⟨1, fun t ht ↦ absurd (hs.symm.trans ht) nofun⟩
  | some t =>
    obtain ⟨n, hn⟩ := h t hs
    exact ⟨n + 1, fun u hu ↦ hn u (by rwa [iterate_succ', hs] at hu)⟩

theorem meets_instruction {s : State W} (h : s.2 = .instruction) : Meets P s :=
  ⟨0, fun t ht ↦ by cases ht; exact h⟩

/-- **Each efun returns**, or calls a function, or there is an error; in the end an instruction
follows. By induction on the functions of C that wait, and on what is left of the efun. -/
theorem meets (P : Mudlib W) (s : State W) : Meets P s := by
  obtain ⟨m, t⟩ := s
  cases t with
  | instruction => exact meets_instruction rfl
  | efun e =>
    induction hn : m.waiting.length using Nat.strong_induction_on generalizing m e with
    | _ n ih =>
      have hshorter {s : State W} (hs : s.2 = .instruction ∨ s.1.waiting.length < n) :
          Meets P s := by
        obtain ⟨m', t⟩ := s
        rcases hs with rfl | hlt
        · exact meets_instruction rfl
        · cases t with
          | instruction => exact meets_instruction rfl
          | efun e => exact ih _ hlt m' e rfl
      have herror {m : Machine W} {s : State W} (hn : m.waiting.length = n)
          (hs : s.2 = .instruction ∨
            ∃ v k, { m with catchValue := v, numError := k }.longjmp = some s) : Meets P s := by
        refine hshorter (hs.imp_right ?_)
        rintro ⟨v, k, hjmp⟩
        have hlt := (rank_longjmp hjmp).2
        rwa [hn] at hlt
      clear ih
      induction e generalizing m with
      | done v =>
        refine .of_step fun t ht ↦ ?_
        rw [step, Machine.perform, Machine.stepEfun, Machine.push] at ht
        split_ifs at ht
        · cases ht
          exact meets_instruction rfl
        · exact herror hn (error_eq ht)
      | error msg => exact .of_step fun t ht ↦ herror hn (error_eq ht)
      | throw v => exact .of_step fun t ht ↦ herror hn (doThrowError_eq ht)
      | act f next ihe =>
        refine .of_step fun t ht ↦ ?_
        cases ht
        exact ihe _ _ hn
      | charge next ihe =>
        refine .of_step fun t ht ↦ ?_
        cases ht
        exact ihe _ hn
      | call ob fun_ args next ihe =>
        exact .of_step fun t ht ↦ hshorter (hn ▸ callFunction_efun ht)
      | destructor ob fun_ next ihe =>
        refine .of_step fun t ht ↦ ?_
        rcases callFunction_last rfl (.inl rfl) ht with hinstr | ⟨hnext, hwaiting⟩
        · exact meets_instruction hinstr
        · obtain ⟨m', _⟩ := t
          cases hnext
          exact ihe m' ((congrArg List.length hwaiting).trans hn)
      | exitEd ob fun_ next ihe =>
        refine .of_step fun t ht ↦ ?_
        rcases callFunction_last rfl (.inr rfl) ht with hinstr | ⟨hnext, hwaiting⟩
        · exact meets_instruction hinstr
        · obtain ⟨m', _⟩ := t
          cases hnext
          exact ihe m' ((congrArg List.length hwaiting).trans hn)

/-! ### Evaluations -/

/-- **An evaluation ends** exactly when new instructions are granted finitely often. -/
theorem ends_evaluation_iff (P : Mudlib W) (s : State W) :
    Ends (step P) s ↔ {n | ∃ t, iterate (step P) s n = some t ∧ Refills t}.Finite := by
  refine ends_iff (fun s ↦ s.2 = .instruction) (fun s ↦ rank s.1) ?_ ?_ (meets P) s
  · rintro ⟨m, t⟩ s hs hgood
    cases t with
    | instruction => exact (rank_step_instruction hs hgood).le
    | efun e => exact rank_step_efun hs hgood
  · rintro ⟨m, _⟩ s hs hgood rfl
    exact rank_step_instruction hs hgood

/-! ### A loop around a `catch` -/

/-- `f() { while (1); }` and `main() { while (1) catch(f()); }`. -/
def loops : Mudlib Unit where
  code _ pc :=
    match pc with
    | 0 => .fCatch 4
    | 1 => .fCall 1 0
    | 2 => .fPopValue
    | 3 => .fEndCatch
    | 4 => .fPopValue
    | 5 => .fJump 0
    | _ => .fJump 6
  function _ fun_ := ⟨0, 0, 0, 0, fun _ ↦ if fun_ = 0 then 0 else 6⟩
  masterOb := 1
  runtimeError := 0
  progName _ := text "loops"
  srccodePosition _ _ := text "/loops.c Line: 1"

/-- The machine in `main`, not in the `catch`. -/
def inMain (pc cost : ℕ) (stack : List Svalue) (v : Svalue) (c : ℕ → ControlStack) :
    Machine Unit where
  stack
  controlStack := c
  csp := 1
  regs := ⟨some 0, none, some 0, pc, 0, 0⟩
  commandGiver := none
  exception := [⟨.backend, 0⟩]
  ecsp := []
  catchLevel := 0
  catchValue := v
  evalCost := cost
  numError := 0
  waiting := []
  world := ()

/-- The machine in the `catch`. -/
def inCatch (pc cost csp : ℕ) (v : Svalue) (c : ℕ → ControlStack) : Machine Unit :=
  { inMain pc cost [] v c with
    csp
    exception := [⟨.fCatch, 0⟩, ⟨.backend, 0⟩]
    ecsp := [⟨⟨some 0, none, some 0, 4, 0, 0⟩, [⟨.backend, 0⟩], 1, none, 0⟩]
    catchLevel := 1
    waiting := [.fCatch] }

/-- The machine is somewhere in the loop, with enough instructions left to come to the `catch`. -/
inductive Looping : State Unit → Prop where
  | start {cost v c} : cost + 2 ≤ MAX_COST → Looping (inMain 0 cost [] v c, .instruction)
  | call {cost v c} : cost + 1 ≤ MAX_COST → Looping (inCatch 1 cost 1 v c, .instruction)
  | loop {cost v c} : Looping (inCatch 6 cost 2 v c, .instruction)
  | caught {cost w v c} : cost + 4 ≤ MAX_COST → Looping (inMain 4 cost [w] v c, .instruction)
  | again {cost v c} : cost + 3 ≤ MAX_COST → Looping (inMain 5 cost [] v c, .instruction)

theorem step_of_le {i : Instr W} (hi : m.instr? P = some i) (hcost : m.evalCost + 1 ≤ MAX_COST) :
    step P (m, .instruction) = (m.fetch.execute P i).handle P := by
  have hlimit : ¬MAX_COST < m.fetch.evalCost := not_lt.2 hcost
  simp only [step, Machine.perform, hi, if_neg hlimit]

theorem step_of_lt {i : Instr W} (hi : m.instr? P = some i) (hcost : MAX_COST < m.evalCost + 1) :
    step P (m, .instruction) =
      { m.fetch with evalCost := 0 }.error P
        (text "Too long evaluation. Execution aborted.\n") := by
  have hlimit : MAX_COST < m.fetch.evalCost := hcost
  simp only [step, Machine.perform, hi, if_pos hlimit]
  rfl

theorem Looping.exists_step {s : State Unit} (h : Looping s) :
    ∃ t, step loops s = some t ∧ Looping t := by
  cases h with
  | @start cost v c hcost =>
    refine ⟨(inCatch 1 (cost + 1) 1 v c, .instruction), ?_, .call hcost⟩
    rw [step_of_le rfl (by dsimp only [inMain]; omega)]
    rfl
  | @call cost v c hcost =>
    let frame : ControlStack := ⟨⟨some 0, none, some 0, 2, 0, 0⟩, 0, false⟩
    refine ⟨(inCatch 6 (cost + 1) 2 v (Function.update c 1 frame), .instruction), ?_, .loop⟩
    rw [step_of_le rfl hcost]
    rfl
  | @loop cost v c =>
    rcases le_or_gt (cost + 1) MAX_COST with hle | hlt
    · refine ⟨(inCatch 6 (cost + 1) 2 v c, .instruction), ?_, .loop⟩
      rw [step_of_le rfl hle]
      rfl
    · let v := emsg (text "Too long evaluation. Execution aborted.\n")
      refine ⟨(inMain 4 (MAX_COST - EXTRA_COST) [v] (.number 1) c, .instruction), ?_,
        .caught (by decide)⟩
      rw [step_of_lt rfl hlt]
      rfl
  | @caught cost w v c hcost =>
    refine ⟨(inMain 5 (cost + 1) [] v c, .instruction), ?_, .again hcost⟩
    rw [step_of_le rfl (by dsimp only [inMain]; omega)]
    rfl
  | @again cost v c hcost =>
    refine ⟨(inMain 0 (cost + 1) [] v c, .instruction), ?_, .start hcost⟩
    rw [step_of_le rfl (by dsimp only [inMain]; omega)]
    rfl

/-- **Runaway programs need not be stopped.** The error is caught, and caught again. -/
theorem not_ends_evaluation : ¬∀ (W : Type) (P : Mudlib W) (w : W) (ob : Obj) (fun_ : ℕ)
    (args : List Svalue) (s : State W), entry P w ob fun_ args = some s → Ends (step P) s := by
  intro hall
  have hends := hall Unit loops () 0 0 [] _ rfl
  exact not_ends (fun _ h ↦ Looping.exists_step h) (Looping.start (by decide)) hends

end Lpmud.Evaluation
