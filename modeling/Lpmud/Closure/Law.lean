import Lpmud.Closure.Apply

/-!
# The law of partial application

A function that arguments are bound in does what the function does with these arguments, if their
holes are filled, and the rest of the arguments is put behind them (`Law`).

The law holds for functions of every kind but one: a composition hands its arguments on to the
functions it is made of, before it comes to the arguments that are bound in it, so these are lost.
`papply_law` says that this is the only exception, that a call always leaves one result or raises
an error, and that `papply` always fills as many slots as it has counted.

The one check that sees a difference between bound arguments and others is the one for room on the
stack. The law is about calls for which it makes no difference.
-/

namespace Lpmud

namespace Closure

variable {heap : Addr → Closure} {f h : Closure} {A1 A2 : List Svalue}

/-- **The law of partial application**: the function `f`, with the arguments `A2`, does what `h`
does with the arguments `A1` that `A2` is put into. -/
def Law (heap : Addr → Closure) (h f : Closure) (A1 : List Svalue) : Prop :=
  ∀ (σ : Type) (m : Machine σ), m.heap = heap → ∀ fuel below A2 s s' w,
    A1.countP (isEmpty heap) ≤ A2.length →
    s.values = below ++ A2 →
    s'.values = below ++ Holes.fill (isEmpty heap) A1 A2 →
    (h.funtype ≠ .COMPOSE → (m.Overflows (below.length + A2.length) f ↔
      m.Overflows (below.length + (Holes.fill (isEmpty heap) A1 A2).length) h)) →
    Machine.seen (m.callVar fuel A2.length f s w) =
      Machine.seen (m.callVar fuel (Holes.fill (isEmpty heap) A1 A2).length h s' w)

/-- A call leaves one result in the place of its arguments, or raises an error. -/
def LeavesOneResult (heap : Addr → Closure) (f : Closure) : Prop :=
  ∃ N, ∀ (σ : Type) (m : Machine σ), m.heap = heap → ∀ fuel below args s w, N ≤ fuel →
    s.values = below ++ args →
    match (m.callVar fuel args.length f s w).1 with
    | .ok s' => ∃ v, s'.values = below ++ [v]
    | .error e => ∃ text, e = .error text

/-- A function that can be called: of an object, an efun, or a composition of such functions. -/
inductive Callable (heap : Addr → Closure) : Closure → Prop where
  | one {f : Closure} {c : Callee} : Machine.callee f = some c → Machine.badIndex c = false →
      Callable heap f
  | compose {f : Closure} {a b : Addr} {extra : List Svalue} : f.funtype = .COMPOSE →
      f.funargs = .function a :: .function b :: extra → Callable heap (heap a) →
      Callable heap (heap b) → Callable heap f

/-! ### One result -/

theorem Callable.not_isEmpty {a : Addr} (ha : Callable heap (heap a)) :
    isEmpty heap (.function a) = false := by
  rw [isEmpty, decide_eq_false_iff_not]
  intro hempty
  cases ha with
  | one hc => rw [Machine.callee, hempty] at hc; cases hc
  | compose hcompose => rw [hempty] at hcompose; cases hcompose

namespace Machine

variable {σ : Type} {m : Machine σ} {fuel n : ℕ} {args : List Svalue} {w : σ}

theorem apply_one {c : Callee} (hc : callee f = some c) :
    m.apply (fuel + 1) f args n w = m.applyOne f args n w := by
  rw [apply]
  cases htype : f.funtype with
  | EMPTY | COMPOSE => rw [callee, htype] at hc; cases hc
  | LFUN | SFUN | EFUN | LFUNO => rfl

theorem apply_compose {a b : Addr} {extra : List Svalue} (hf : f.funtype = .COMPOSE)
    (hargs : f.funargs = .function a :: .function b :: extra) :
    m.apply (fuel + 1) f args n w =
      match m.apply fuel (m.heap a) args n w with
      | (.error e, w) => (.error e, w)
      | (.ok v, w) => m.apply fuel (m.heap b) [v] n w := by
  have hfirst : m.funarg f 0 = .ok (m.heap a) := by rw [funarg, hargs]; rfl
  have hsecond : m.funarg f 1 = .ok (m.heap b) := by rw [funarg, hargs]; rfl
  rcases hcall : m.apply fuel (m.heap a) args n w with ⟨e | v, w'⟩
  · simp only [apply, hf, hfirst, hcall]
  · simp only [apply, hf, hfirst, hsecond, hcall]

theorem bindArgs_error {e : Abort} (h : m.bindArgs f args n = .error e) :
    ∃ text, e = .error text := by
  rw [bindArgs] at h
  split_ifs at h <;> cases h <;> exact ⟨_, rfl⟩

theorem applyOne_error {c : Callee} (hc : callee f = some c) (hindex : badIndex c = false)
    {e : Abort} (h : (m.applyOne f args n w).1 = .error e) : ∃ text, e = .error text := by
  rw [applyOne, hc] at h
  dsimp only at h
  cases hdestructed : m.isDestructed w c with
  | true =>
    rw [hdestructed, if_pos rfl] at h
    cases h
    exact ⟨_, rfl⟩
  | false =>
    rw [hdestructed, if_neg Bool.false_ne_true, hindex] at h
    cases hbind : m.bindArgs f args n with
    | error e' =>
      rw [hbind] at h
      cases h
      exact bindArgs_error hbind
    | ok args =>
      rw [hbind] at h
      rcases hcall : m.call c args n w with ⟨text | v, w'⟩ <;> simp [hcall, Except.mapError] at h
      exact ⟨text, h.symm⟩

theorem exists_apply_error (hf : Callable heap f) :
    ∃ N, ∀ (σ : Type) (m : Machine σ), m.heap = heap → ∀ fuel args n w e, N ≤ fuel →
      (m.apply fuel f args n w).1 = .error e → ∃ text, e = .error text := by
  induction hf with
  | one hc hindex =>
    refine ⟨1, fun σ m hm fuel args n w e hfuel he ↦ ?_⟩
    obtain ⟨fuel, rfl⟩ := Nat.exists_eq_add_of_le' hfuel
    rw [apply_one hc] at he
    exact applyOne_error hc hindex he
  | compose hf hargs _ _ iha ihb =>
    obtain ⟨Na, iha⟩ := iha
    obtain ⟨Nb, ihb⟩ := ihb
    refine ⟨max Na Nb + 1, fun σ m hm fuel args n w e hfuel he ↦ ?_⟩
    obtain ⟨fuel, rfl⟩ := Nat.exists_eq_add_of_le' (Nat.le_of_add_left_le hfuel)
    rw [apply_compose hf hargs, hm] at he
    rcases hfirst : m.apply fuel _ args n w with ⟨e' | v, w'⟩
    · rw [hfirst] at he
      cases he
      exact iha σ m hm fuel args n w e (by omega) (by rw [hfirst])
    · rw [hfirst] at he
      exact ihb σ m hm fuel [v] n w' e (by omega) he

end Machine

theorem Callable.leavesOneResult (hf : Callable heap f) : LeavesOneResult heap f := by
  obtain ⟨N, hN⟩ := Machine.exists_apply_error hf
  refine ⟨N, fun σ m hm fuel below args s w hfuel hs ↦ ?_⟩
  have hcall := congrArg Prod.fst (Machine.callVar_eq (m := m) (w := w) fuel f hs)
  rw [Machine.seen, Machine.oneResult] at hcall
  cases happly : (m.apply fuel f args below.length w).1 with
  | error e =>
    rw [happly] at hcall
    cases hvar : (m.callVar fuel args.length f s w).1 with
    | ok s' => rw [hvar] at hcall; cases hcall
    | error e' =>
      rw [hvar] at hcall
      cases hcall
      exact hN σ m hm fuel args _ w e hfuel happly
  | ok v =>
    rw [happly] at hcall
    cases hvar : (m.callVar fuel args.length f s w).1 with
    | ok s' =>
      rw [hvar] at hcall
      exact ⟨v, Except.ok.inj hcall⟩
    | error e' => rw [hvar] at hcall; cases hcall

/-! ### Bound arguments -/

theorem Machine.bindArgs_partially {σ : Type} {m : Machine σ} {n : ℕ}
    (hholes : A1.countP (isEmpty m.heap) ≤ A2.length)
    (hroom : m.Overflows (n + A2.length) (partially m.heap h A1) ↔
      m.Overflows (n + (Holes.fill (isEmpty m.heap) A1 A2).length) h) :
    m.bindArgs (partially m.heap h A1) A2 n =
      m.bindArgs h (Holes.fill (isEmpty m.heap) A1 A2) n := by
  have hfew : (partially m.heap h A1).funargs.countP (isEmpty m.heap) > A2.length ↔
      h.funargs.countP (isEmpty m.heap) > (Holes.fill (isEmpty m.heap) A1 A2).length := by
    rw [partially, Holes.countP_fill, Holes.length_fill]
    omega
  rw [bindArgs, bindArgs]
  simp only [hfew, hroom]
  rw [partially, Holes.fill_assoc]

theorem callee_partially : Machine.callee (partially heap h A1) = Machine.callee h :=
  rfl

theorem funargs_partially {a b : Addr} {extra : List Svalue}
    (hargs : h.funargs = .function a :: .function b :: extra) (ha : Callable heap (heap a))
    (hb : Callable heap (heap b)) : (partially heap h A1).funargs =
      .function a :: .function b :: Holes.fill (isEmpty heap) extra A1 := by
  rw [partially, hargs, Holes.fill_cons_of_not_hole ha.not_isEmpty,
    Holes.fill_cons_of_not_hole hb.not_isEmpty]

theorem Callable.partially (hh : Callable heap h) (A1 : List Svalue) :
    Callable heap (partially heap h A1) := by
  cases hh with
  | one hc hindex => exact .one hc hindex
  | compose hf hargs ha hb => exact .compose hf (funargs_partially hargs ha hb) ha hb

theorem law_of_ne_compose (hh : h.funtype ≠ .COMPOSE) : Law heap h (partially heap h A1) A1 := by
  rintro σ m rfl fuel below A2 s s' w hholes hs hs' hroom
  rw [Machine.callVar_eq fuel _ hs, Machine.callVar_eq fuel _ hs']
  congr 1
  cases fuel with
  | zero => rfl
  | succ fuel =>
    have hone : m.applyOne (Closure.partially m.heap h A1) A2 below.length w =
        m.applyOne h (Holes.fill (isEmpty m.heap) A1 A2) below.length w := by
      rw [Machine.applyOne, Machine.applyOne, Machine.bindArgs_partially hholes (hroom hh),
        callee_partially]
    rw [Machine.apply, Machine.apply,
      show (Closure.partially m.heap h A1).funtype = h.funtype from rfl]
    cases htype : h.funtype with
    | COMPOSE => exact absurd htype hh
    | EMPTY => rfl
    | LFUN | SFUN | EFUN | LFUNO => exact hone

/-! ### Compositions -/

theorem Machine.apply_partially {σ : Type} {m : Machine σ} {n fuel : ℕ} {w : σ}
    (hh : Callable m.heap h) (hcompose : h.funtype = .COMPOSE) :
    m.apply fuel (partially m.heap h A1) A2 n w = m.apply fuel h A2 n w := by
  cases fuel with
  | zero => rfl
  | succ fuel =>
    cases hh with
    | one hc => rw [callee, hcompose] at hc; cases hc
    | compose hf hargs ha hb =>
      rw [apply_compose hf hargs]
      exact apply_compose hf (funargs_partially hargs ha hb)

theorem law_of_forall_isEmpty (hh : Callable heap h) (hcompose : h.funtype = .COMPOSE)
    (hA1 : ∀ v ∈ A1, isEmpty heap v = true) : Law heap h (partially heap h A1) A1 := by
  rintro σ m rfl fuel below A2 s s' w hholes hs hs' -
  rw [Machine.callVar_eq fuel _ hs, Machine.callVar_eq fuel _ hs',
    Machine.apply_partially hh hcompose,
    Holes.fill_of_forall_hole hA1 (by rwa [List.countP_eq_length.2 hA1] at hholes)]

/-- All functions return 0. The world is the number of arguments of the first function that is
called. -/
def counting (heap : Addr → Closure) (size : ℕ) : Machine (Option ℕ) where
  size := size
  heap := heap
  destructed _ _ := false
  call _ args _ w := (.ok const0, some (w.getD args.length))

theorem counting_isDestructed {size : ℕ} {w : Option ℕ} (c : Callee) :
    (counting heap size).isDestructed w c = false := by
  cases c <;> rfl

theorem counting_some (size fuel : ℕ) (f : Closure) (args : List Svalue) (n k : ℕ) :
    ((counting heap size).apply fuel f args n (some k)).2 = some k := by
  induction fuel generalizing f args with
  | zero => rfl
  | succ fuel ih =>
    have hone : ((counting heap size).applyOne f args n (some k)).2 = some k := by
      rw [Machine.applyOne]
      cases Machine.callee f with
      | none => rfl
      | some c =>
        dsimp only
        rw [counting_isDestructed, if_neg Bool.false_ne_true]
        cases (counting heap size).bindArgs f args n with
        | error e => rfl
        | ok args =>
          cases hindex : Machine.badIndex c with
          | true => rfl
          | false => rfl
    rw [Machine.apply]
    cases f.funtype with
    | EMPTY => rfl
    | LFUN | SFUN | EFUN | LFUNO => exact hone
    | COMPOSE =>
      dsimp only
      cases (counting heap size).funarg f 0 with
      | error e => rfl
      | ok g =>
        dsimp only
        have hfirst := ih g args
        rcases hcall : (counting heap size).apply fuel g args n (some k) with ⟨e | v, w⟩
        · rwa [hcall] at hfirst
        · obtain rfl : w = some k := by rwa [hcall] at hfirst
          dsimp only
          cases (counting heap size).funarg f 1 with
          | error e => rfl
          | ok g => exact ih g [v]

/-- The function that is called first gets as many arguments as there are, more those that are bound
in it, less its slots. -/
theorem exists_counting_none (hf : Callable heap f) :
    ∃ N c d, d ≤ N ∧ ∀ size fuel args, N ≤ fuel → N ≤ args.length → args.length + N ≤ size →
      ((counting heap size).apply fuel f args 0 none).2 = some (c + (args.length - d)) := by
  induction hf with
  | @one f c hc hindex =>
    have hcount := List.countP_le_length (p := isEmpty heap) (l := f.funargs)
    refine ⟨f.funargs.length + 1, f.funargs.length, f.funargs.countP (isEmpty heap), by omega,
      fun size fuel args hfuel hargs hsize ↦ ?_⟩
    obtain ⟨fuel, rfl⟩ := Nat.exists_eq_add_of_le' (Nat.le_of_add_left_le hfuel)
    have hbind : (counting heap size).bindArgs f args 0 =
        .ok (Holes.fill (isEmpty heap) f.funargs args) := by
      rw [Machine.bindArgs, if_neg, if_neg]
      · rfl
      · rintro ⟨-, hover⟩
        rw [show (counting heap size).size = size from rfl] at hover
        omega
      · rw [show (counting heap size).heap = heap from rfl]
        omega
    rw [Machine.apply_one hc, Machine.applyOne, hc]
    dsimp only
    rw [counting_isDestructed, if_neg Bool.false_ne_true, hbind, hindex]
    exact congrArg some (Holes.length_fill f.funargs args)
  | @compose f a b extra hf hargs _ _ iha _ =>
    obtain ⟨N, c, d, hd, ih⟩ := iha
    refine ⟨N + 1, c, d, by omega, fun size fuel args hfuel hlen hsize ↦ ?_⟩
    obtain ⟨fuel, rfl⟩ := Nat.exists_eq_add_of_le' (Nat.le_of_add_left_le hfuel)
    have hfirst := ih size fuel args (by omega) (by omega) (by omega)
    rw [Machine.apply_compose hf hargs, show (counting heap size).heap = heap from rfl]
    rcases hcall : (counting heap size).apply fuel (heap a) args 0 none with ⟨e | v, w⟩
    · rwa [hcall] at hfirst
    · rw [hcall] at hfirst
      obtain rfl : w = _ := hfirst
      exact counting_some ..

/-- A stack with the values `vs` on it. -/
def Stack.ofList (vs : List Svalue) : Stack where
  cell i := vs.getD i const0
  sp := vs.length

theorem Stack.values_ofList (vs : List Svalue) : (Stack.ofList vs).values = vs := by
  refine Stack.values_eq_iff.2 ⟨rfl, fun i v hv ↦ ?_⟩
  simp only [ofList, Nat.zero_add, List.getD_eq_getElem?_getD, hv, Option.getD_some]

theorem not_law_compose (hh : Callable heap h) (hcompose : h.funtype = .COMPOSE) {v : Svalue}
    (hv : v ∈ A1) (hempty : isEmpty heap v = false) : ¬Law heap h (partially heap h A1) A1 := by
  intro hlaw
  obtain ⟨N, c, d, hd, hN⟩ := exists_counting_none hh
  have hholes : A1.countP (isEmpty heap) < A1.length :=
    List.countP_le_length.lt_of_ne fun heq ↦ by
      rw [List.countP_eq_length.1 heq v hv] at hempty
      cases hempty
  obtain ⟨A2, hA2⟩ : ∃ A2 : List Svalue, A2.length = N + A1.length :=
    ⟨List.replicate (N + A1.length) const0, List.length_replicate⟩
  have hlen : (Holes.fill (isEmpty heap) A1 A2).length =
      A1.length + (A2.length - A1.countP (isEmpty heap)) := Holes.length_fill A1 A2
  have hseen := hlaw (Option ℕ) (counting heap (4 * (N + A1.length))) rfl N [] A2 (.ofList A2)
    (.ofList (Holes.fill (isEmpty heap) A1 A2)) none (by omega) (Stack.values_ofList _)
    (Stack.values_ofList _) fun hne ↦ absurd hcompose hne
  have hofList : ∀ vs, (Stack.ofList vs).values = [] ++ vs := Stack.values_ofList
  rw [Machine.callVar_eq N _ (hofList A2), Machine.callVar_eq N _ (hofList _)] at hseen
  have hsame := congrArg Prod.snd hseen
  -- the first function that is called gets fewer arguments than it should
  have hworld : some (c + (A2.length - d)) =
      some (c + ((Holes.fill (isEmpty heap) A1 A2).length - d)) := calc
    _ = ((counting heap (4 * (N + A1.length))).apply N h A2 0 none).2 :=
      (hN _ _ _ le_rfl (by omega) (by omega)).symm
    _ = ((counting heap (4 * (N + A1.length))).apply N (partially heap h A1) A2 0 none).2 :=
      congrArg Prod.snd
        (Machine.apply_partially (m := counting heap (4 * (N + A1.length))) hh hcompose).symm
    _ = ((counting heap (4 * (N + A1.length))).apply N h
        (Holes.fill (isEmpty heap) A1 A2) 0 none).2 := hsame
    _ = _ := hN _ _ _ le_rfl (by omega) (by omega)
  have := Option.some.inj hworld
  omega

/-- **Partial application**: `papply` fills as many slots as it has counted, a call of what it makes
leaves one result or raises an error, and the law holds unless an argument is bound in a
composition. -/
theorem papply_law {heap : Addr → Closure} {func : Addr} (hcall : Callable heap (heap func))
    (A1 : List Svalue) :
    (∀ text, papply heap (.function func) A1 ≠ .error (.fatal text)) ∧
    ∀ f, papply heap (.function func) A1 = .ok f →
      LeavesOneResult heap f ∧
      (Law heap (heap func) f A1 ↔
        (heap func).funtype ≠ .COMPOSE ∨ ∀ v ∈ A1, isEmpty heap v = true) := by
  rw [papply_eq]
  refine ⟨fun text h ↦ ?_, fun f hf ↦ ?_⟩
  · split_ifs at h
    cases h
  · split_ifs at hf
    cases hf
    refine ⟨(hcall.partially A1).leavesOneResult, fun hlaw ↦ ?_, fun hor ↦ ?_⟩
    · by_contra hnot
      push Not at hnot
      obtain ⟨hcompose, v, hv, hempty⟩ := hnot
      exact not_law_compose hcall hcompose hv (by simpa using hempty) hlaw
    · by_cases hcompose : (heap func).funtype = .COMPOSE
      · exact law_of_forall_isEmpty hcall hcompose (hor.resolve_left (absurd hcompose))
      · exact law_of_ne_compose hcompose

/-- Two efuns, 1 and 2, and their composition, 3. -/
def twoEfuns : Addr → Closure
  | 1 => { allocClosure .EFUN 0 with funno := 5 }
  | 2 => { allocClosure .EFUN 0 with funno := 6 }
  | 3 => { allocClosure .COMPOSE 0 with funargs := [.function 1, .function 2] }
  | _ => allocClosure .EMPTY 0

/-- An argument is bound in an efun, behind a hole. -/
theorem papply_law_efun :
    Law twoEfuns (twoEfuns 1) { twoEfuns 1 with funargs := [constempty, .number 7] }
      [constempty, .number 7] :=
  ((papply_law (.one rfl rfl) [constempty, .number 7]).2 _ rfl).2.2 (.inl nofun)

/-- The argument 7 that is bound in a composition does not reach the first of its functions. -/
theorem not_papply_law :
    ¬∀ (heap : Addr → Closure) func A1 f, Callable heap (heap func) →
      papply heap (.function func) A1 = .ok f → Law heap (heap func) f A1 := by
  intro hall
  have h := hall twoEfuns 3 [.number 7] _ (.compose rfl rfl (.one rfl rfl) (.one rfl rfl)) rfl
    (Option ℕ) (counting twoEfuns 4000) rfl 2 [] [] (.ofList []) (.ofList [.number 7]) none
    (Nat.zero_le _) rfl rfl fun hne ↦ absurd rfl hne
  have hworld := congrArg Prod.snd h
  cases hworld

end Closure

end Lpmud
