import Lpmud.Closure.Cache
import Lpmud.Lib.Holes

/-!
# Calls of functions

Partial application (`papply`) and the call of a function (`call_var`) in `interpret.c`. Both put
arguments into the empty slots of the arguments that are bound in a function; `call_var` does it in
place, on the value stack: all arguments are moved up, out of the way of the bound ones, and then
down again one by one.

What happens on the stack is described by the lists of values that are on it (`callVar_eq`): the
arguments are replaced by one result, and what is below them is left alone.

Functions are not written to while they are used, so the functions in storage are fixed here.
`call_function` and `call_efun`, which run the function, are a parameter: they take their arguments
off the stack and leave one result.
-/

namespace Lpmud

open Function List

namespace Closure

/-- What a function ends with instead of a result. -/
inductive Abort where
  /-- `error` -/
  | error (text : String)
  /-- `fatal` -/
  | fatal (text : String)
  /-- An element that is not there is read. -/
  | outOfBounds
  /-- The calls are nested too deeply for the model. -/
  | fuel

abbrev MAX_ARRAY_SIZE : ℕ := 5000

/-! ### Partial application -/

def isEmpty (heap : Addr → Closure) : Svalue → Bool
  | .function func => (heap func).funtype = .EMPTY
  | _ => false

/-- The loop of `papply` that fills the slots: the slots, and the arguments that are left. -/
def fillSlots (heap : Addr → Closure) : List Svalue → List Svalue → List Svalue × List Svalue
  | [], args => ([], args)
  | item :: funargs, [] => (item :: (fillSlots heap funargs []).1, [])
  | item :: funargs, arg :: args =>
    if isEmpty heap item then
      (arg :: (fillSlots heap funargs args).1, (fillSlots heap funargs args).2)
    else
      (item :: (fillSlots heap funargs (arg :: args)).1, (fillSlots heap funargs (arg :: args)).2)

/-- `papply`: the function that is made. -/
def papply (heap : Addr → Closure) (fn : Svalue) (args : List Svalue) : Except Abort Closure :=
  match fn with
  | .function func =>
    let oldf := heap func
    let nargs := oldf.funargs.length
    let j := oldf.funargs.countP (isEmpty heap)
    let newsize := if j < args.length then nargs + (args.length - j) else nargs
    if MAX_ARRAY_SIZE < newsize then .error (.error "Illegal array size.\n")
    else
      let items := (fillSlots heap oldf.funargs args).1 ++ (fillSlots heap oldf.funargs args).2
      if items.length = newsize then .ok { oldf with funargs := items }
      else .error (.fatal "papply\n")
  | _ => .error (.error "Bad function argument to partial application '&'.\n")

/-! ### The value stack -/

/-- The value stack. -/
structure Stack where
  cell : ℕ → Svalue
  /-- How many values are on the stack. -/
  sp : ℕ

namespace Stack

/-- The values on the stack, from the bottom. -/
def values (s : Stack) : List Svalue :=
  (List.range s.sp).map s.cell

/-- `*++sp = v` -/
def push (s : Stack) (v : Svalue) : Stack where
  cell := update s.cell s.sp v
  sp := s.sp + 1

/-- The loop of `call_var` that moves `num_arg` arguments up. -/
def moveUp (s : Stack) (narg : ℕ) : ℕ → ℕ → Svalue
  | 0 => s.cell
  | i + 1 =>
    update (s.moveUp narg i) (s.sp - 1 - i + narg) (s.moveUp narg i (s.sp - 1 - i))

/-- The loop of `call_var` that moves the remaining arguments into place. -/
def moveDown : ℕ → Stack → ℕ → Stack
  | 0, s, _ => s
  | n + 1, s, arg => moveDown n (s.push (s.cell arg)) (arg + 1)

end Stack

/-- What a function leads to when it is called. -/
inductive Callee where
  | function (ob : Obj) (funinh funno : BitVec 16)
  | efun (efun : BitVec 16)

/-- What functions are called in. -/
structure Machine (σ : Type) where
  /-- `EVALUATOR_STACK_SIZE` -/
  size : ℕ
  heap : Addr → Closure
  destructed : σ → Obj → Bool
  /-- `call_function` and `call_efun`: the result, or the text of the error that is raised, from the
  arguments and from how many values are below them. -/
  call : Callee → List Svalue → ℕ → σ → Except String Svalue × σ

namespace Machine

variable {σ : Type} (m : Machine σ)

/-- The function pushes its arguments, where they have their slots filled from the stack. -/
def pushFunargs : List Svalue → Stack → ℕ → Except Abort (Stack × ℕ)
  | [], s, arg => .ok (s, arg)
  | item :: funargs, s, arg =>
    if isEmpty m.heap item then pushFunargs funargs (s.push (s.cell arg)) (arg + 1)
    else if s.sp ≥ m.size then .error (.error "Stack overflow\n")
    else pushFunargs funargs (s.push item) arg

/-- The part of `call_var` that shuffles the stack: the number of arguments, and the stack. -/
def shuffle (funargs : List Svalue) (numArg : ℕ) (s : Stack) : Except Abort (ℕ × Stack) :=
  let narg := funargs.length
  if narg = 0 then .ok (numArg, s)
  else
    let emptyargs := funargs.countP (isEmpty m.heap)
    if emptyargs > numArg then .error (.error "Too few arguments supplied in function call\n")
    else if s.sp + narg > m.size then .error (.error "stack overflow\n")
    else
      (m.pushFunargs funargs ⟨s.moveUp narg numArg, s.sp - numArg⟩ (s.sp - numArg + narg)).map
        fun (s, arg) ↦ (numArg + (narg - emptyargs), Stack.moveDown (numArg - emptyargs) s arg)

/-- What `call_var` takes from the function. -/
def callee (f : Closure) : Option Callee :=
  match f.funtype with
  | .LFUNO | .LFUN | .SFUN => f.funobj.map fun ob ↦ .function ob f.funinh f.funno
  | .EFUN => some (.efun f.funno)
  | .EMPTY | .COMPOSE => none

/-- A function cannot be called in a destructed object. -/
def isDestructed (w : σ) : Callee → Bool
  | .function ob _ _ => m.destructed w ob
  | .efun _ => false

/-- The index of a function that was not set. -/
def badIndex : Callee → Bool
  | .function _ _ funno => funno = 65535
  | .efun _ => false

/-- `call_function` and `call_efun` -/
def run (c : Callee) (numArg : ℕ) (s : Stack) (w : σ) : Except Abort Stack × σ :=
  match m.call c ((List.range numArg).map fun i ↦ s.cell (s.sp - numArg + i)) (s.sp - numArg) w with
  | (.ok v, w) => (.ok (Stack.push ⟨s.cell, s.sp - numArg⟩ v), w)
  | (.error text, w) => (.error (.error text), w)

/-- `call_var` of a function that is not a composition. -/
def callOne (numArg : ℕ) (f : Closure) (s : Stack) (w : σ) : Except Abort Stack × σ :=
  match callee f with
  | none => (.error (.error "ob=0 in call_var\n"), w)
  | some c =>
    if m.isDestructed w c then (.error (.error "Call to function in destructed object\n"), w)
    else
      match m.shuffle f.funargs numArg s with
      | .error e => (.error e, w)
      | .ok (numArg, s) =>
        if badIndex c then (.error (.fatal "bad function index\n"), w) else m.run c numArg s w

/-- `f->funargs->item[i].u.func` -/
def funarg (f : Closure) (i : ℕ) : Except Abort Closure :=
  match f.funargs[i]? with
  | some (.function func) => .ok (m.heap func)
  | _ => .error .outOfBounds

/-- `call_var`: the stack, and what the functions that were called have made of the world. -/
def callVar : ℕ → ℕ → Closure → Stack → σ → Except Abort Stack × σ
  | 0, _, _, _, w => (.error .fuel, w)
  | fuel + 1, numArg, f, s, w =>
    match f.funtype with
    | .EMPTY => (.error (.error "Calling EMPTY closure\n"), w)
    | .COMPOSE =>
      match m.funarg f 0 with
      | .error e => (.error e, w)
      | .ok g =>
        match callVar fuel numArg g s w with
        | (.error e, w) => (.error e, w)
        | (.ok s, w) =>
          match m.funarg f 1 with
          | .error e => (.error e, w)
          | .ok g => callVar fuel 1 g s w
    | _ => m.callOne numArg f s w

end Machine

/-! ### The slots of the function that `papply` makes -/

section

variable {heap : Addr → Closure}

/-- The loops of `papply` fill the slots. -/
theorem fillSlots_append (funargs args : List Svalue) :
    (fillSlots heap funargs args).1 ++ (fillSlots heap funargs args).2 =
      Holes.fill (isEmpty heap) funargs args := by
  induction funargs generalizing args with
  | nil => rw [fillSlots, Holes.fill_nil_left, nil_append]
  | cons item funargs ih =>
    cases args with
    | nil =>
      have hnil := ih []
      rw [Holes.fill_nil_right] at hnil ⊢
      have hrest : (fillSlots heap funargs []).2 = [] := by cases funargs <;> rfl
      rw [hrest, append_nil] at hnil
      rw [fillSlots, hnil, append_nil]
    | cons arg args =>
      rw [fillSlots]
      cases hitem : isEmpty heap item with
      | true => rw [if_pos rfl, Holes.fill_cons_of_hole hitem, ← ih, cons_append]
      | false =>
        rw [if_neg Bool.false_ne_true, Holes.fill_cons_of_not_hole hitem, ← ih, cons_append]

/-- What `papply` makes of a function. -/
def partially (heap : Addr → Closure) (h : Closure) (args : List Svalue) : Closure :=
  { h with funargs := Holes.fill (isEmpty heap) h.funargs args }

/-- **The function that `papply` makes**: as many slots are filled as were counted. -/
theorem papply_eq (func : Addr) (args : List Svalue) :
    papply heap (.function func) args =
      if MAX_ARRAY_SIZE < (partially heap (heap func) args).funargs.length then
        .error (.error "Illegal array size.\n")
      else .ok (partially heap (heap func) args) := by
  have hsize : (partially heap (heap func) args).funargs.length =
      if (heap func).funargs.countP (isEmpty heap) < args.length then
        (heap func).funargs.length + (args.length - (heap func).funargs.countP (isEmpty heap))
      else (heap func).funargs.length := by
    rw [partially, Holes.length_fill]
    split <;> omega
  simp only [papply, ← hsize, fillSlots_append]
  rw [if_pos (show (Holes.fill (isEmpty heap) (heap func).funargs args).length =
    (partially heap (heap func) args).funargs.length from rfl)]
  rfl

end

/-! ### The values on the stack -/

namespace Stack

/-- The values `vs` stand in the cells from `p` on. -/
def Holds (cell : ℕ → Svalue) (p : ℕ) (vs : List Svalue) : Prop :=
  ∀ i v, vs[i]? = some v → cell (p + i) = v

theorem holds_cons {cell : ℕ → Svalue} {p : ℕ} {v : Svalue} {vs : List Svalue} :
    Holds cell p (v :: vs) ↔ cell p = v ∧ Holds cell (p + 1) vs := by
  constructor
  · intro h
    refine ⟨h 0 v rfl, fun i u hu ↦ ?_⟩
    rw [Nat.add_assoc, Nat.add_comm 1 i]
    exact h (i + 1) u hu
  · rintro ⟨rfl, h⟩ i u hu
    cases i with
    | zero => exact Option.some.inj hu
    | succ i =>
      rw [← h i u hu, Nat.add_assoc, Nat.add_comm 1 i]

theorem Holds.update {cell : ℕ → Svalue} {p q : ℕ} {vs : List Svalue} (h : Holds cell p vs)
    (hq : q < p) (v : Svalue) : Holds (update cell q v) p vs := by
  intro i u hu
  rw [update_of_ne (by omega), h i u hu]

variable {s : Stack}

theorem holds_append {cell : ℕ → Svalue} {p : ℕ} {us vs : List Svalue} :
    Holds cell p (us ++ vs) ↔ Holds cell p us ∧ Holds cell (p + us.length) vs := by
  induction us generalizing p with
  | nil => simp [Holds]
  | cons u us ih =>
    rw [cons_append, holds_cons, holds_cons, ih, and_assoc, length_cons,
      Nat.add_right_comm, Nat.add_assoc]

theorem Holds.map_range {cell : ℕ → Svalue} {p : ℕ} {vs : List Svalue} (h : Holds cell p vs) :
    ((List.range vs.length).map fun i ↦ cell (p + i)) = vs := by
  refine ext_getElem (by simp) fun i hi hi' ↦ ?_
  rw [getElem_map, getElem_range]
  exact h i _ (List.getElem?_eq_getElem hi')

theorem values_eq_iff {us : List Svalue} :
    s.values = us ↔ s.sp = us.length ∧ Holds s.cell 0 us := by
  constructor
  · rintro rfl
    refine ⟨by simp [values], fun i v hv ↦ ?_⟩
    rw [values, List.getElem?_map, Option.map_eq_some_iff] at hv
    obtain ⟨j, hj, rfl⟩ := hv
    obtain ⟨-, rfl⟩ := List.getElem?_eq_some_iff.1 hj
    rw [getElem_range, Nat.zero_add]
  · rintro ⟨hsp, h⟩
    rw [values, hsp]
    simpa using h.map_range

theorem values_append_iff {us vs : List Svalue} :
    s.values = us ++ vs ↔
      s.sp = us.length + vs.length ∧ Holds s.cell 0 us ∧ Holds s.cell us.length vs := by
  rw [values_eq_iff, holds_append, length_append, Nat.zero_add]

theorem values_push {us : List Svalue} (h : s.values = us) (v : Svalue) :
    (s.push v).values = us ++ [v] := by
  obtain ⟨hsp, h⟩ := values_eq_iff.1 h
  refine values_append_iff.2 ⟨congrArg (· + 1) hsp, fun i u hu ↦ ?_, ?_⟩
  · have hi : i < us.length := (List.getElem?_eq_some_iff.1 hu).1
    exact (update_of_ne (by omega) ..).trans (h i u hu)
  · rw [← hsp, holds_cons]
    exact ⟨update_self .., nofun⟩

theorem moveUp_eq (s : Stack) (narg : ℕ) {n : ℕ} (hn : n ≤ s.sp) (j : ℕ) :
    s.moveUp narg n j = if s.sp - n + narg ≤ j ∧ j < s.sp + narg then s.cell (j - narg) else
      s.cell j := by
  induction n generalizing j with
  | zero =>
    rw [moveUp, if_neg (by omega)]
  | succ n ih =>
    rw [moveUp]
    rcases eq_or_ne j (s.sp - 1 - n + narg) with rfl | hne
    · rw [update_self, ih (by omega), if_neg (by omega), if_pos (by omega),
        Nat.add_sub_cancel]
    · rw [update_of_ne hne, ih (by omega)]
      congr 1
      exact propext ⟨fun h ↦ by omega, fun h ↦ by omega⟩

theorem values_moveDown {us vs : List Svalue} {arg : ℕ} (hs : s.values = us)
    (hvs : Holds s.cell arg vs) (harg : s.sp ≤ arg) :
    (moveDown vs.length s arg).values = us ++ vs := by
  induction vs generalizing s us arg with
  | nil => rw [append_nil, ← hs]; rfl
  | cons v vs ih =>
    obtain ⟨hv, hvs⟩ := holds_cons.1 hvs
    have hrest : Holds (s.push v).cell (arg + 1) vs := hvs.update (by omega) v
    rw [length_cons, moveDown, hv, append_cons]
    exact ih (values_push hs v) hrest (Nat.succ_le_succ harg)

end Stack

namespace Machine

variable {σ : Type} {m : Machine σ} {s : Stack}

/-! ### The shuffle of the stack -/

/-- The bound arguments are pushed, where they have their slots filled with `ys`: what is left of
these stays where it was. -/
theorem pushFunargs_eq {funargs us ys : List Svalue} {arg : ℕ} (hs : s.values = us)
    (hys : Stack.Holds s.cell arg ys) (harg : s.sp + funargs.length ≤ arg)
    (hsize : s.sp + funargs.length ≤ m.size)
    (hcount : funargs.countP (isEmpty m.heap) ≤ ys.length) :
    ∃ s' zs, m.pushFunargs funargs s arg = .ok (s', arg + funargs.countP (isEmpty m.heap)) ∧
      s'.values = us ++ zs ∧
      Stack.Holds s'.cell (arg + funargs.countP (isEmpty m.heap))
        (ys.drop (funargs.countP (isEmpty m.heap))) ∧
      zs ++ ys.drop (funargs.countP (isEmpty m.heap)) = Holes.fill (isEmpty m.heap) funargs ys ∧
      s'.sp ≤ arg + funargs.countP (isEmpty m.heap) := by
  induction funargs generalizing s us ys arg with
  | nil => exact ⟨s, [], rfl, by rw [hs, append_nil], hys, (Holes.fill_nil_left ys).symm, harg⟩
  | cons item funargs ih =>
    rw [length_cons] at harg hsize
    cases hitem : isEmpty m.heap item with
    | true =>
      rw [countP_cons_of_pos hitem] at hcount ⊢
      cases ys with
      | nil => cases hcount
      | cons y ys =>
        obtain ⟨hy, hys⟩ := Stack.holds_cons.1 hys
        have hrest : Stack.Holds (s.push y).cell (arg + 1) ys := hys.update (by omega) y
        obtain ⟨s', zs, heq, hs', hys', hzs, hsp⟩ := ih (Stack.values_push hs y) hrest
          (by simp only [Stack.push]; omega) (by simp only [Stack.push]; omega)
          (Nat.le_of_succ_le_succ hcount)
        rw [Nat.add_right_comm, Nat.add_assoc] at heq hys' hsp
        refine ⟨s', y :: zs, ?_, ?_, hys', ?_, hsp⟩
        · rw [pushFunargs, if_pos hitem, hy, heq]
        · rw [hs', append_assoc, singleton_append]
        · rw [Holes.fill_cons_of_hole hitem, ← hzs]
          rfl
    | false =>
      have hitem' : ¬isEmpty m.heap item = true := by simp [hitem]
      rw [countP_cons_of_neg hitem'] at hcount ⊢
      have hrest : Stack.Holds (s.push item).cell arg ys := hys.update (by omega) item
      obtain ⟨s', zs, heq, hs', hys', hzs, hsp⟩ := ih (Stack.values_push hs item) hrest
        (by simp only [Stack.push]; omega) (by simp only [Stack.push]; omega) hcount
      refine ⟨s', item :: zs, ?_, ?_, hys', ?_, hsp⟩
      · rw [pushFunargs, if_neg hitem', if_neg (by omega), heq]
      · rw [hs', append_assoc, singleton_append]
      · rw [Holes.fill_cons_of_not_hole hitem, ← hzs, cons_append]

/-- There is no room on the stack for the arguments that are bound in a function, when `n` values
are on it. -/
def Overflows (m : Machine σ) (n : ℕ) (f : Closure) : Prop :=
  f.funargs ≠ [] ∧ m.size < n + f.funargs.length

instance (n : ℕ) (f : Closure) : Decidable (m.Overflows n f) :=
  inferInstanceAs (Decidable (_ ∧ _))

/-- The arguments go into the slots of the bound ones, when `n` values are below them. -/
def bindArgs (m : Machine σ) (f : Closure) (args : List Svalue) (n : ℕ) :
    Except Abort (List Svalue) :=
  if f.funargs.countP (isEmpty m.heap) > args.length then
    .error (.error "Too few arguments supplied in function call\n")
  else if m.Overflows (n + args.length) f then .error (.error "stack overflow\n")
  else .ok (Holes.fill (isEmpty m.heap) f.funargs args)

/-- **What the shuffle of the stack does.** -/
theorem shuffle_eq (f : Closure) {below args : List Svalue} (hs : s.values = below ++ args) :
    (∃ e, m.shuffle f.funargs args.length s = .error e ∧
      m.bindArgs f args below.length = .error e) ∨
    ∃ s' args', m.shuffle f.funargs args.length s = .ok (args'.length, s') ∧
      m.bindArgs f args below.length = .ok args' ∧ s'.values = below ++ args' := by
  obtain ⟨hsp, hbelow, hargs⟩ := Stack.values_append_iff.1 hs
  rw [shuffle, bindArgs, ← hsp]
  rcases eq_or_ne f.funargs [] with hnil | hne
  · rw [hnil, if_pos length_nil, if_neg (by simp), if_neg fun h ↦ h.1 hnil,
      Holes.fill_nil_left]
    exact .inr ⟨s, args, rfl, rfl, hs⟩
  rw [if_neg (length_eq_zero_iff.not.2 hne)]
  dsimp only
  split_ifs with hfew hover hover' hover'
  · exact .inl ⟨_, rfl, rfl⟩
  · exact .inl ⟨_, rfl, rfl⟩
  · exact absurd ⟨hne, hover⟩ hover'
  · exact absurd hover'.2 hover
  -- the arguments have been moved up, and what is below them has not changed
  have hpos : s.sp - args.length = below.length := by omega
  have hcell : ∀ j, s.moveUp f.funargs.length args.length j =
      if below.length + f.funargs.length ≤ j ∧ j < s.sp + f.funargs.length then
        s.cell (j - f.funargs.length) else s.cell j := fun j ↦ by
    rw [Stack.moveUp_eq s _ (by omega) j, hpos]
  have hdown : Stack.values ⟨s.moveUp f.funargs.length args.length, below.length⟩ = below := by
    refine Stack.values_eq_iff.2 ⟨rfl, fun i v hv ↦ ?_⟩
    have hi : i < below.length := (List.getElem?_eq_some_iff.1 hv).1
    rw [← hbelow i v hv]
    exact (hcell _).trans (if_neg (by omega))
  have hup : Stack.Holds (s.moveUp f.funargs.length args.length)
      (below.length + f.funargs.length) args := by
    intro i v hv
    have hi : i < args.length := (List.getElem?_eq_some_iff.1 hv).1
    rw [← hargs i v hv, hcell, if_pos (by omega)]
    congr 1
    omega
  obtain ⟨s', zs, heq, hs', hrest, hzs, hle⟩ := pushFunargs_eq (m := m) hdown hup (le_refl _)
    (by dsimp only; omega) (by omega)
  have hlen : (Holes.fill (isEmpty m.heap) f.funargs args).length =
      args.length + (f.funargs.length - f.funargs.countP (isEmpty m.heap)) := by
    have hcount := countP_le_length (p := isEmpty m.heap) (l := f.funargs)
    rw [Holes.length_fill]
    omega
  have hdrop : args.length - f.funargs.countP (isEmpty m.heap) =
      (args.drop (f.funargs.countP (isEmpty m.heap))).length := by
    rw [length_drop]
  refine .inr ⟨Stack.moveDown (args.length - f.funargs.countP (isEmpty m.heap)) s'
    (below.length + f.funargs.length + f.funargs.countP (isEmpty m.heap)), _, ?_, rfl, ?_⟩
  · rw [hpos, heq, hlen]
    rfl
  · rw [hdrop, Stack.values_moveDown hs' hrest hle, append_assoc, hzs]

/-! ### Calls with lists of arguments -/

/-- The call of a function that is not a composition, with a list of arguments that has `n` values
below it. -/
def applyOne (m : Machine σ) (f : Closure) (args : List Svalue) (n : ℕ) (w : σ) :
    Except Abort Svalue × σ :=
  match callee f with
  | none => (.error (.error "ob=0 in call_var\n"), w)
  | some c =>
    if m.isDestructed w c then (.error (.error "Call to function in destructed object\n"), w)
    else
      match m.bindArgs f args n with
      | .error e => (.error e, w)
      | .ok args =>
        if badIndex c then (.error (.fatal "bad function index\n"), w)
        else ((m.call c args n w).1.mapError .error, (m.call c args n w).2)

/-- The call of a function with a list of arguments. -/
def apply (m : Machine σ) : ℕ → Closure → List Svalue → ℕ → σ → Except Abort Svalue × σ
  | 0, _, _, _, w => (.error .fuel, w)
  | fuel + 1, f, args, n, w =>
    match f.funtype with
    | .EMPTY => (.error (.error "Calling EMPTY closure\n"), w)
    | .COMPOSE =>
      match m.funarg f 0 with
      | .error e => (.error e, w)
      | .ok g =>
        match m.apply fuel g args n w with
        | (.error e, w) => (.error e, w)
        | (.ok v, w) =>
          match m.funarg f 1 with
          | .error e => (.error e, w)
          | .ok g => m.apply fuel g [v] n w
    | _ => m.applyOne f args n w

/-- What is left on the stack, and what has become of the world. -/
def seen (r : Except Abort Stack × σ) : Except Abort (List Svalue) × σ :=
  (r.1.map Stack.values, r.2)

/-- One result, on the values that were below the arguments. -/
def oneResult (below : List Svalue) (r : Except Abort Svalue × σ) :
    Except Abort (List Svalue) × σ :=
  (r.1.map fun v ↦ below ++ [v], r.2)

variable {below args : List Svalue} {w : σ}

theorem run_eq (c : Callee) (hs : s.values = below ++ args) :
    seen (m.run c args.length s w) =
      oneResult below ((m.call c args below.length w).1.mapError .error,
        (m.call c args below.length w).2) := by
  obtain ⟨hsp, hbelow, hargs⟩ := Stack.values_append_iff.1 hs
  have hpos : s.sp - args.length = below.length := by omega
  have hdown : Stack.values ⟨s.cell, below.length⟩ = below := Stack.values_eq_iff.2 ⟨rfl, hbelow⟩
  rw [run, hpos, hargs.map_range]
  rcases m.call c args below.length w with ⟨⟨text⟩ | ⟨v⟩, w'⟩
  · rfl
  · exact congrArg (fun vs ↦ (Except.ok vs, w')) (Stack.values_push hdown v)

theorem callOne_eq (f : Closure) (hs : s.values = below ++ args) :
    seen (m.callOne args.length f s w) = oneResult below (m.applyOne f args below.length w) := by
  rw [callOne, applyOne]
  cases callee f with
  | none => rfl
  | some c =>
    dsimp only
    cases m.isDestructed w c with
    | true => rfl
    | false =>
      rw [if_neg Bool.false_ne_true, if_neg Bool.false_ne_true]
      rcases shuffle_eq (m := m) f hs with
        ⟨e, hshuffle, hbind⟩ | ⟨s', args', hshuffle, hbind, hs'⟩
      · rw [hshuffle, hbind]
        rfl
      · rw [hshuffle, hbind]
        dsimp only
        cases badIndex c with
        | true => rfl
        | false => exact run_eq c hs'

/-- **What a call does to the stack**: its arguments are replaced by its result, and nothing else is
changed. -/
theorem callVar_eq (fuel : ℕ) (f : Closure) (hs : s.values = below ++ args) :
    seen (m.callVar fuel args.length f s w) =
      oneResult below (m.apply fuel f args below.length w) := by
  induction fuel generalizing f s args w with
  | zero => rfl
  | succ fuel ih =>
    rw [callVar, apply]
    cases f.funtype with
    | EMPTY => rfl
    | LFUN | SFUN | EFUN | LFUNO => exact callOne_eq f hs
    | COMPOSE =>
      dsimp only
      cases m.funarg f 0 with
      | error e => rfl
      | ok g =>
        dsimp only
        have hfirst := ih (w := w) g hs
        revert hfirst
        rcases m.callVar fuel args.length g s w with ⟨e | s', w'⟩ <;>
          rcases m.apply fuel g args below.length w with ⟨e' | v, w''⟩ <;>
          intro hfirst
        · cases hfirst
          rfl
        · cases hfirst
        · cases hfirst
        · obtain ⟨hs', rfl⟩ : s'.values = below ++ [v] ∧ w' = w'' := by
            simpa [seen, oneResult, Except.map] using hfirst
          dsimp only
          cases m.funarg f 1 with
          | error e => rfl
          | ok g => exact ih g hs'

end Machine

end Closure

end Lpmud
