import Lpmud.Lib.TransitionSystem
import Lpmud.Svalue
import Mathlib.Data.List.FinRange

/-!
# The cache of functions

Functions as values (`struct closure`), and the cache of the functions that `alloc_objclosure` has
made: a caller that asks for it (`usecache`) gets a function of the cache if there is one for what
it wants, so that functions are shared.

Some efuns take the name of a function in place of a function. They have a function made for it, not
taken from the cache, and write the further arguments of the efun into it. But every new function is
put into the cache, so these functions are shared as well, with the arguments that are bound in
them. `cache_transparent` says that this is the only thing wrong with the cache.

Storage of functions that is in use is in the cache or not; a new function may be put wherever the
cache has none. What is counted to find out whether storage is in use is the subject of `RefCount`.
-/

namespace Lpmud

open Option Function

/-! ### Functions -/

/-- The types of functions. -/
inductive FunType where
  | LFUN | SFUN | EFUN | LFUNO | COMPOSE | EMPTY
  deriving DecidableEq

/-- A function (`struct closure`). -/
structure Closure where
  funtype : FunType
  funno : BitVec 16
  funinh : BitVec 16
  funobj : Option Obj
  funargs : List Svalue

namespace Closure

/-- The function of the type `EMPTY`, which marks an empty argument slot. -/
def constempty : Svalue :=
  .function 0

/-- `alloc_closure`; `funinh` is whatever was in the storage. -/
def allocClosure (ftype : FunType) (funinh : BitVec 16) : Closure where
  funtype := ftype
  funno := 65535
  funinh := funinh
  funobj := none
  funargs := []

/-! ### The cache -/

abbrev FUNCCACHE : ℕ := 8

/-- The functions in storage, and the cache. -/
structure State where
  closure : Addr → Closure
  funccache : Fin FUNCCACHE → Option Addr
  /-- The slot of the cache that is filled next. -/
  next : Fin FUNCCACHE

namespace State

/-- The test of `alloc_objclosure` on a slot of the cache. -/
def hit (s : State) (ftype : FunType) (inh no : ℕ) (ob : Option Obj) (i : Fin FUNCCACHE) :
    Option Addr :=
  (s.funccache i).filter fun f ↦ ftype = (s.closure f).funtype ∧ ob = (s.closure f).funobj ∧
    no = (s.closure f).funno.toNat ∧ inh = (s.closure f).funinh.toNat

/-- The arguments that are bound in a function are written. -/
def setFunargs (s : State) (f : Addr) (funargs : List Svalue) : State :=
  { s with closure := update s.closure f { s.closure f with funargs := funargs } }

end State

/-- The function that `alloc_objclosure` makes. -/
def objclosure (ftype : FunType) (inh no : ℕ) (ob : Option Obj) : Closure :=
  { allocClosure ftype 0 with
    funobj := ob
    funno := .ofNat 16 no
    funinh := .ofNat 16 inh }

/-- `alloc_objclosure`; `new` is where `alloc_closure` finds storage. -/
def allocObjclosure (s : State) (new : Addr) (ftype : FunType) (inh no : ℕ) (ob : Option Obj)
    (usecache : Bool) : State × Addr :=
  match if usecache then (List.finRange FUNCCACHE).findSome? (s.hit ftype inh no ob) else none with
  | some f => (s, f)
  | none =>
    ({ closure := update s.closure new (objclosure ftype inh no ob)
       funccache := update s.funccache s.next (some new)
       next := s.next + 1 }, new)

/-- What functions are looked up in. -/
structure Env where
  currentObject : Obj
  simulEfunOb : Option Obj
  /-- `find_object` -/
  findObject : CString → Option Obj
  /-- `search_for_function` and the test of access to it: the number of a function, and of the
  program that it is inherited from. -/
  search : CString → Obj → Option (ℕ × ℕ)

def allocObjclosurestr (e : Env) (s : State) (new : Addr) (ftype : FunType) (funstr : CString)
    (ob : Obj) (usecache : Bool) : Option (State × Addr) := do
  let (funno, funinh) ← e.search funstr ob
  let ftype := if ftype = .LFUNO ∧ ob = e.currentObject then .LFUN else ftype
  return allocObjclosure s new ftype funinh funno (some ob) usecache

/-! ### The efuns

What the efuns that use functions do before they use them: the function that they use. -/

/-- A function that is asked for by its name. -/
structure Request where
  ob : Obj
  funstr : CString
  /-- The arguments that are bound in the function, if they are written. -/
  funargs : Option (List Svalue)

/-- "Fake a function": a function is made for a name, and arguments are bound in it. -/
def fake (e : Env) (s : State) (new : Addr) (r : Request) : Option (State × Addr) := do
  let (s, fun') ← allocObjclosurestr e s new .LFUNO r.funstr r.ob false
  match r.funargs with
  | some funargs => return (s.setFunargs fun' funargs, fun')
  | none => return (s, fun')

/-- The object that `filter` and `map` take their function from. -/
def objectArg (e : Env) : Svalue → Option Obj
  | .object ob => some ob
  | .string s => e.findObject s
  | _ => none

/-- The function that is made by `filter`, if it is called with the name of one. -/
def filterRequest (e : Env) : List Svalue → Option Request
  | _ :: .string funstr :: ob :: rest => do
    let ob ← objectArg e ob
    return ⟨ob, funstr, rest.head?.map fun extra ↦ [constempty, extra]⟩
  | _ => none

/-- The function that is made by `map`. -/
def mapRequest (e : Env) : List Svalue → Option Request
  | _ :: .string funstr :: ob :: rest => do
    let ob ← objectArg e ob
    return ⟨ob, funstr, rest.head?.map fun extra ↦ [constempty, extra]⟩
  | _ => none

/-- The function that is made by `set_alarm`. -/
def setAlarmRequest (e : Env) : List Svalue → Option Request
  | _ :: _ :: .string funstr :: rest =>
    if funstr.bytes.head? = some 46 then none else some ⟨e.currentObject, funstr, some rest⟩
  | _ => none

/-- The function that is made by `set_alarmv`. -/
def setAlarmvRequest (e : Env) : List Svalue → Option Request
  | [_, _, .string funstr, .pointer _ item] =>
    if funstr.bytes.head? = some 46 then none else some ⟨e.currentObject, funstr, some item⟩
  | _ => none

/-- The function that is made by `input_to`. -/
def inputToRequest (e : Env) : List Svalue → Option Request
  | .string funstr :: rest =>
    let size := rest.length - 1
    some ⟨e.currentObject, funstr,
      if 0 < size then some (constempty :: rest.drop 1) else none⟩
  | _ => none

/-- What makes or looks for functions. -/
inductive Op where
  | filter (arg : List Svalue)
  | map (arg : List Svalue)
  | setAlarm (arg : List Svalue)
  | setAlarmv (arg : List Svalue)
  | inputTo (arg : List Svalue)
  /-- `add_action`, with the name of a function -/
  | addAction (funstr : CString)
  /-- `ed`, with the name of a function -/
  | ed (funstr : CString)
  | mkfunction (funstr : CString) (ob : Obj)
  /-- `&fun()` -/
  | buildLfun (funstr : CString)
  /-- `&fun()` of a simul efun -/
  | buildSfun (funstr : CString)
  /-- `&fun()` of an efun -/
  | buildEfun (funno : ℕ)
  /-- `&ob->fun()` -/
  | buildLfuno (funstr : CString) (ob : Obj)
  /-- A function that is made by `alloc_closure`: by `@`, by a partial application, or when
  an object is swapped in. -/
  | alloc (f : Closure)

/-- The function that an operation asks for by its name, to write arguments into it. -/
def Op.request (e : Env) : Op → Option Request
  | .filter arg => filterRequest e arg
  | .map arg => mapRequest e arg
  | .setAlarm arg => setAlarmRequest e arg
  | .setAlarmv arg => setAlarmvRequest e arg
  | .inputTo arg => inputToRequest e arg
  | _ => none

/-- One operation: the functions afterwards, and the function that it uses, if there is one. -/
def perform (e : Env) (s : State) (new : Addr) (op : Op) : Option (State × Addr) :=
  match op with
  | .filter _ | .map _ | .setAlarm _ | .setAlarmv _ | .inputTo _ =>
    (op.request e).bind (fake e s new)
  | .addAction funstr => allocObjclosurestr e s new .LFUNO funstr e.currentObject true
  | .ed funstr => allocObjclosurestr e s new .LFUNO funstr e.currentObject true
  | .mkfunction funstr ob => do
    let (s, f) ← allocObjclosurestr e s new .LFUNO funstr ob true
    if ob = e.currentObject then
      return ({ s with closure := update s.closure f
                         { s.closure f with funtype := .LFUN } }, f)
    else return (s, f)
  | .buildLfun funstr => allocObjclosurestr e s new .LFUN funstr e.currentObject true
  | .buildSfun funstr => e.simulEfunOb.bind fun ob ↦ allocObjclosurestr e s new .SFUN funstr ob true
  | .buildEfun funno => some (allocObjclosure s new .EFUN 0 funno none false)
  | .buildLfuno funstr ob => allocObjclosurestr e s new .LFUNO funstr ob false
  | .alloc f => some ({ s with closure := update s.closure new f }, new)

/-- The system: the cache is empty at the beginning. A new function is put where the cache has
none. -/
def cache : TransitionSystem State (Env × Addr × Op) where
  Init s := ∀ i, s.funccache i = none
  Step s l s' := (∀ i, s.funccache i ≠ some l.2.1) ∧
    s' = ((perform l.1 s l.2.1 l.2.2).map Prod.fst).getD s

/-- **The cache is transparent**: a function that is returned to a caller that asked for the cache
is what a function that has just been made is. -/
def Transparent (s : State) : Prop :=
  ∀ new ftype inh no ob,
    (allocObjclosure s new ftype inh no ob true).1.closure
      (allocObjclosure s new ftype inh no ob true).2 = objclosure ftype inh no ob

/-- No arguments are bound in a function that is asked for by its name. -/
def Guard (_ : State) (l : Env × Addr × Op) : Prop :=
  ∀ r, l.2.2.request l.1 = some r → (l.1.search r.funstr r.ob).isSome → r.funargs.getD [] = []

/-! ### The cache without bound arguments -/

/-- The functions of the cache have no arguments bound in them. -/
def Unbound (s : State) : Prop :=
  ∀ i f, s.funccache i = some f → (s.closure f).funargs = []

section

variable {s s' : State} {new f : Addr} {ftype : FunType} {inh no : ℕ} {ob : Option Obj}
  {i : Fin FUNCCACHE} {e : Env}

/-- A slot of the cache that is hit has a function like the one that would be made, but for its
arguments. -/
theorem hit_spec (h : s.hit ftype inh no ob i = some f) :
    s.funccache i = some f ∧
      s.closure f = { objclosure ftype inh no ob with funargs := (s.closure f).funargs } := by
  obtain ⟨hi, hf⟩ := filter_eq_some_iff.1 h
  obtain ⟨rfl, rfl, rfl, rfl⟩ := of_decide_eq_true hf
  exact ⟨hi, by simp [objclosure, allocClosure]⟩

/-- **What `alloc_objclosure` returns**: a function of the cache, or one that it has put there. -/
theorem allocObjclosure_cases (s : State) (new : Addr) (ftype : FunType) (inh no : ℕ)
    (ob : Option Obj) (usecache : Bool) :
    (usecache = true ∧ ∃ i f, s.hit ftype inh no ob i = some f ∧
      allocObjclosure s new ftype inh no ob usecache = (s, f)) ∨
    allocObjclosure s new ftype inh no ob usecache =
      ({ closure := update s.closure new (objclosure ftype inh no ob)
         funccache := update s.funccache s.next (some new)
         next := s.next + 1 }, new) := by
  rw [allocObjclosure]
  split
  case h_1 f h =>
    cases usecache with
    | false => cases h
    | true =>
      obtain ⟨i, -, hi⟩ := List.exists_of_findSome?_eq_some h
      exact .inl ⟨rfl, i, f, hi, rfl⟩
  case h_2 => exact .inr rfl

theorem Unbound.write (hs : Unbound s) {c : Closure}
    (h : ∀ i, s.funccache i = some f → c.funargs = []) :
    Unbound { s with closure := update s.closure f c } := by
  intro i f' hf'
  rcases eq_or_ne f' f with rfl | hne
  · exact (congrArg Closure.funargs (update_self ..)).trans (h i hf')
  · exact (congrArg Closure.funargs (update_of_ne hne ..)).trans (hs i f' hf')

theorem Unbound.setFunargs (hs : Unbound s) (f : Addr) : Unbound (s.setFunargs f []) :=
  hs.write fun _ _ ↦ rfl

theorem Unbound.allocObjclosure (hs : Unbound s) (usecache : Bool) :
    Unbound (allocObjclosure s new ftype inh no ob usecache).1 := by
  rcases allocObjclosure_cases s new ftype inh no ob usecache with ⟨-, i, f, -, h⟩ | h
  · rw [h]
    exact hs
  · rw [h]
    intro i f hf
    have hwrite := hs.write (f := new) (c := objclosure ftype inh no ob) fun _ _ ↦ rfl
    dsimp only at hf ⊢
    rcases eq_or_ne i s.next with rfl | hne
    · rw [update_self] at hf
      obtain rfl := some.inj hf
      rw [update_self]
      rfl
    · rw [update_of_ne hne] at hf
      exact hwrite i f hf

theorem Unbound.transparent (hs : Unbound s) : Transparent s := by
  intro new ftype inh no ob
  rcases allocObjclosure_cases s new ftype inh no ob true with ⟨-, i, f, hhit, h⟩ | h
  · obtain ⟨hi, hf⟩ := hit_spec hhit
    rw [h]
    dsimp only
    rw [hf, hs i f hi]
    rfl
  · rw [h]
    exact update_self ..

theorem Unbound.allocObjclosurestr (hs : Unbound s) {funstr : CString} {ob : Obj} {usecache : Bool}
    {p : State × Addr}
    (h : allocObjclosurestr e s new ftype funstr ob usecache = some p) : Unbound p.1 := by
  obtain ⟨⟨funno, funinh⟩, -, ⟨⟩⟩ := bind_eq_some_iff.1 h
  exact hs.allocObjclosure usecache

theorem Unbound.fake (hs : Unbound s) {r : Request} {p : State × Addr}
    (h : fake e s new r = some p)
    (hr : (e.search r.funstr r.ob).isSome → r.funargs.getD [] = []) : Unbound p.1 := by
  obtain ⟨q, hq, hp⟩ := bind_eq_some_iff.1 h
  have hq' := hs.allocObjclosurestr hq
  have hfound : (e.search r.funstr r.ob).isSome := by
    obtain ⟨_, hsearch, -⟩ := bind_eq_some_iff.1 hq
    exact hsearch ▸ rfl
  dsimp only at hp
  split at hp
  case h_1 funargs hargs =>
    obtain rfl : funargs = [] := by simpa [hargs] using hr hfound
    cases hp
    exact hq'.setFunargs _
  case h_2 =>
    cases hp
    exact hq'

theorem unbound_step {l : Env × Addr × Op} (hs : Unbound s) (hok : Guard s l)
    (h : cache.Step s l s') : Unbound s' := by
  obtain ⟨e, new, op⟩ := l
  obtain ⟨hnew, rfl⟩ := h
  dsimp only at hnew ⊢
  cases hp : perform e s new op with
  | none => exact hs
  | some p =>
    change Unbound p.1
    have hfake : (op.request e).bind (Closure.fake e s new) = some p → Unbound p.1 := fun h ↦ by
      obtain ⟨r, hr, h⟩ := bind_eq_some_iff.1 h
      exact hs.fake h (hok r hr)
    cases op with
    | filter | map | setAlarm | setAlarmv | inputTo => exact hfake hp
    | addAction | ed | buildLfun | buildLfuno => exact hs.allocObjclosurestr hp
    | buildSfun funstr =>
      obtain ⟨ob, -, h⟩ := bind_eq_some_iff.1 hp
      exact hs.allocObjclosurestr h
    | buildEfun funno =>
      cases hp
      exact hs.allocObjclosure false
    | alloc f =>
      cases hp
      exact hs.write fun i hi ↦ absurd hi (hnew i)
    | mkfunction funstr ob =>
      obtain ⟨q, hq, hp⟩ := bind_eq_some_iff.1 hp
      have hq' := hs.allocObjclosurestr hq
      dsimp only at hp
      split at hp
      · cases hp
        exact hq'.write fun i hi ↦ hq' i _ hi
      · cases hp
        exact hq'

end

/-- **The cache of functions is transparent**, as long as no arguments are bound in functions that
`filter`, `map`, `set_alarm`, `set_alarmv` or `input_to` make for a name. -/
theorem cache_transparent {s : State} (hs : cache.ReachableVia Guard s) : Transparent s := by
  have hinv : Unbound s := hs.invariant (fun s hinit i f hf ↦ by rw [hinit i] at hf; cases hf)
    fun s l s' hs hok h ↦ unbound_step hs hok h
  exact hinv.transparent

/-! ### A function with a bound argument -/

/-- The current object is 16, and has one function. -/
def oneFunction : Env where
  currentObject := 16
  simulEfunOb := none
  findObject _ := none
  search _ ob := if ob = 16 then some (3, 0) else none

/-- Nothing is in the cache. -/
def emptyCache : State where
  closure _ := allocClosure .EMPTY 0
  funccache _ := none
  next := 0

/-- The functions after an operation of the current object. -/
def State.after (s : State) (new : Addr) (op : Op) : State :=
  ((perform oneFunction s new op).map Prod.fst).getD s

/-- The cache works, after `&f()` and `add_action("f", ...)`, which finds `&f()` in it. -/
theorem cache_transparent_addAction :
    Transparent ((emptyCache.after 1 (.buildLfun (.ofBytes [102]))).after 2
      (.addAction (.ofBytes [102]))) := by
  have hinit : cache.ReachableVia Guard emptyCache := .init fun _ ↦ rfl
  have hbuilt : cache.ReachableVia Guard (emptyCache.after 1 (.buildLfun (.ofBytes [102]))) :=
    hinit.step (a := (oneFunction, 1, .buildLfun (.ofBytes [102]))) (fun _ h ↦ nomatch h)
      ⟨nofun, rfl⟩
  exact cache_transparent (hbuilt.step (a := (oneFunction, 2, .addAction (.ofBytes [102])))
    (fun _ h ↦ nomatch h) ⟨by decide, rfl⟩)

/-- After `filter(arr, "f", this_object(), 7)`, the function `&f()` has the argument 7 bound in
it. -/
theorem not_cache_transparent : ¬∀ s, cache.Reachable s → Transparent s := by
  intro hall
  have hinit : cache.Reachable emptyCache := .init fun _ ↦ rfl
  have hs := hinit.step (a := (oneFunction, 1,
    .filter [.pointer 2 [], .string (.ofBytes [102]), .object 16, .number 7])) ⟨nofun, rfl⟩
  have hargs := congrArg Closure.funargs (hall _ hs 4 .LFUN 0 3 (some 16))
  cases hargs

end Closure

end Lpmud
