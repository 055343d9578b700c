import Lpmud.Functions.Chains
import Lpmud.Lib.TransitionSystem

/-!
# Searching a function, with a cache

`s_f_f` and `search_for_function` of `interpret.c`. A function is looked up in the hash table of
the program, then in those of the programs that it inherits, the last one first. A cache of 2^14
entries keeps what was found, or that nothing was; an entry is used when it has the number of
the program and the pointer to the name.

Programs are loaded and freed, and so are the shared strings that the names point to. An entry stays
right as long as its program is there, whatever becomes of the string: a search compares pointers
only (`CacheOk`). It is used for another program only when that has the same number, and
`current_id_number` is an `int` that comes round after 2^32 programs (`cacheCorrect`,
`not_cacheCorrect`).

What is swapped out of a program comes back as it was, so that swapping is not seen here.
-/

namespace Lpmud.Functions

open Option Function

/-! ### Programs -/

/-- The address of a program. -/
abbrev Addr := BitVec 64

abbrev TYPE_MOD_STATIC : BitVec 16 := 0x0100
abbrev TYPE_MOD_NO_MASK : BitVec 16 := 0x0200
abbrev TYPE_MOD_PRIVATE : BitVec 16 := 0x0800
abbrev TYPE_MOD_PUBLIC : BitVec 16 := 0x1000
abbrev TYPE_MOD_VARARGS : BitVec 16 := 0x2000
abbrev TYPE_MOD_TRUE_VARARGS : BitVec 16 := 0x4000

def TYPE_MOD_MASK : BitVec 16 :=
  TYPE_MOD_STATIC ||| TYPE_MOD_NO_MASK ||| TYPE_MOD_PRIVATE ||| TYPE_MOD_PUBLIC |||
    TYPE_MOD_VARARGS ||| TYPE_MOD_TRUE_VARARGS

/-- An element of the list of the inherited programs (`struct inherit`). -/
structure Inherit where
  prog : Addr
  type : BitVec 16

/-- What a search reads of a program. The program itself is the last one of those it inherits. -/
structure Program where
  idNumber : BitVec 32
  numFunctions : ℕ
  funcHash : ℕ → FunctionHash
  /-- The members `type_flags` of the functions. -/
  typeFlags : List (BitVec 16)
  inherit : List Inherit
  inherit_ne : inherit ≠ []

/-- What `s_f_f` sets when it finds a function. -/
structure FunctionFound where
  inheritFound : ℕ
  indexFound : ℤ
  progFound : Addr
  typeModFound : BitVec 16

/-- The type of a function, corrected by the type of the inherit. -/
def typeModFound (flags type : BitVec 16) : BitVec 16 :=
  let found := flags &&& TYPE_MOD_MASK
  let type := if found &&& TYPE_MOD_PRIVATE ≠ 0 then type &&& ~~~TYPE_MOD_PUBLIC else type
  let type := if found &&& TYPE_MOD_PUBLIC ≠ 0 then type &&& ~~~TYPE_MOD_PRIVATE else type
  found ||| type

/-! ### The search -/

section Search

variable (stray : ℤ → Option Name) (programs : Addr → Option Program) (prog : Program) (name : Name)

/-- The loop over the inherited programs, where `cprog` is the program `i` of them. The search in
one program has as many rounds as its table has entries, and one to end. -/
def searchLoop : ℕ → Program → Option (Option (ℕ × ℤ))
  | i, cprog => do
    match ← lookup (cprog.numFunctions + 1) stray cprog.numFunctions cprog.funcHash name with
    | some probe => some (some (i, probe))
    | none =>
      match i with
      | 0 => some none
      | i + 1 => do
        let inh ← prog.inherit[i]?
        searchLoop i (← programs inh.prog)

/-- Where the function is found: the inherited program, and the index in it. -/
def search : Option (Option (ℕ × ℤ)) :=
  searchLoop stray programs prog name (prog.inherit.length - 1) prog

/-- What is set when the function `probe` of the inherited program `i` has been found. -/
def setFound (i : ℕ) (probe : ℤ) : Option FunctionFound := do
  let inh ← prog.inherit[i]?
  let found ← programs inh.prog
  let k ← inside found.typeFlags.length probe
  let flags ← found.typeFlags[k]?
  some ⟨i, probe, inh.prog, typeModFound flags inh.type⟩

end Search

/-- `s_f_f` without a cache. There is no result when what is read is not there, or a search does not
end. -/
def uncached (stray : ℤ → Option Name) (programs : Addr → Option Program) (name : Option Name)
    (prog : Addr) : Option (Option FunctionFound) :=
  match name with
  | none => some none
  | some name => do
    let p ← programs prog
    match ← search stray programs p name with
    | none => some none
    | some (i, probe) => some (← setFound programs p i probe)

/-! ### The cache -/

/-- An entry of the cache (`struct fcache1`). -/
structure FCache where
  tp : BitVec 32
  fn : Option Name
  ffInh : ℤ
  ffIx : ℤ

abbrev GLOBAL_CACHE : ℕ := 0x4000

/-- The programs in memory, the shared strings by their texts, the cache and the number of the next
program. -/
structure State where
  programs : Addr → Option Program
  strings : String → Option Name
  fc : ℕ → FCache
  currentIdNumber : BitVec 32

def globalHashVal (prog : Addr) (name : Name) : ℕ :=
  ((prog >>> 3) ^^^ (prog >>> 16) ^^^ (name.1 >>> 3) ^^^ (name.1 >>> 16)).toNat % GLOBAL_CACHE

variable (stray : ℤ → Option Name)

/-- `s_f_f`: what it finds, and the cache behind it. -/
def sFF (s : State) (name : Option Name) (prog : Addr) :
    Option (Option FunctionFound × (ℕ → FCache)) :=
  match name with
  | none => some (none, s.fc)
  | some name => do
    let p ← s.programs prog
    let h := globalHashVal prog name
    if (s.fc h).tp = p.idNumber ∧ (s.fc h).fn = some name then
      if (s.fc h).ffInh ≠ -1 then do
        let i ← inside p.inherit.length (s.fc h).ffInh
        let found ← setFound s.programs p i (s.fc h).ffIx
        some (some found, s.fc)
      else some (none, s.fc)
    else do
      match ← search stray s.programs p name with
      | none =>
        some (none, update s.fc h ⟨p.idNumber, some name, -1, (s.fc h).ffIx⟩)
      | some (i, probe) => do
        let found ← setFound s.programs p i probe
        some (some found, update s.fc h ⟨p.idNumber, some name, i, probe⟩)

/-- `search_for_function`, of a text. -/
def searchForFunction (s : State) (name : String) (prog : Addr) :
    Option (Option FunctionFound × (ℕ → FCache)) :=
  sFF stray s (s.strings name) prog

/-! ### Histories -/

/-- What happens to programs, strings and the cache. -/
inductive Event where
  /-- A program is loaded, from its source or from a binary. -/
  | load (prog : Addr) (p : Program)
  /-- `free_prog`, when the last reference is gone. -/
  | free (prog : Addr)
  /-- Shared strings come and go. -/
  | share (strings : String → Option Name)
  /-- `search_for_function`. -/
  | search (name : String) (prog : Addr)
  /-- `s_f_f`, of a pointer to a shared string. -/
  | sFF (name : Option Name) (prog : Addr)

/-- The programs that a program inherits, itself apart. -/
def Program.inherited (p : Program) : List Inherit := p.inherit.dropLast

/-- One event. A program gets the next number, and inherits programs that are in memory, and itself;
it is freed when no other one inherits it. -/
inductive Step : State → Event → State → Prop where
  | load {s : State} {prog : Addr} {p : Program} (hfree : s.programs prog = none)
      (hid : p.idNumber = s.currentIdNumber)
      (hself : (p.inherit.getLast p.inherit_ne).prog = prog)
      (hinherited : ∀ inh ∈ p.inherited, (s.programs inh.prog).isSome) :
      Step s (.load prog p) { s with
        programs := update s.programs prog (some p)
        currentIdNumber := s.currentIdNumber + 1 }
  | free {s : State} {prog : Addr}
      (hunused : ∀ a p, s.programs a = some p → a ≠ prog → ∀ inh ∈ p.inherit, inh.prog ≠ prog) :
      Step s (.free prog) { s with programs := update s.programs prog none }
  | share {s : State} (strings : String → Option Name) :
      Step s (.share strings) { s with strings := strings }
  | search {s : State} {name : String} {prog : Addr} {found : Option FunctionFound}
      {fc : ℕ → FCache} (h : searchForFunction stray s name prog = some (found, fc)) :
      Step s (.search name prog) { s with fc := fc }
  | sFF {s : State} {name : Option Name} {prog : Addr} {found : Option FunctionFound}
      {fc : ℕ → FCache} (h : Functions.sFF stray s name prog = some (found, fc)) :
      Step s (.sFF name prog) { s with fc := fc }

/-- At the start there are no programs, and the cache is empty. -/
structure Start (s : State) : Prop where
  programs : ∀ a, s.programs a = none
  fc : ∀ h, s.fc h = ⟨0, none, 0, 0⟩
  currentIdNumber : s.currentIdNumber = 1

/-- The histories. -/
def histories : TransitionSystem State Event where
  Init := Start
  Step := Step stray

/-- **The cache is not seen**: a search gives what it gives without a cache. -/
def CacheCorrect (s : State) : Prop :=
  ∀ name prog, (searchForFunction stray s name prog).map Prod.fst =
    uncached stray s.programs (s.strings name) prog

/-- When a program is loaded, its number is the number of no other program in memory, and of no
entry of the cache. -/
def Fresh (s : State) : Event → Prop
  | .load _ _ => (∀ a p, s.programs a = some p → p.idNumber ≠ s.currentIdNumber) ∧
      ∀ h, (s.fc h).fn ≠ none → (s.fc h).tp ≠ s.currentIdNumber
  | _ => True

/-! ### What an entry says -/

section Entry

variable {stray} {programs programs' : Addr → Option Program} {prog : Program} {name : Name}

attribute [local simp] searchLoop in
theorem search_congr (h : ∀ inh ∈ prog.inherit, programs inh.prog = programs' inh.prog) :
    search stray programs prog name = search stray programs' prog name := by
  have hloop : ∀ i cprog, searchLoop stray programs prog name i cprog =
      searchLoop stray programs' prog name i cprog := by
    intro i
    induction i with
    | zero =>
      intro cprog
      simp only [searchLoop]
    | succ i ih =>
      intro cprog
      simp only [searchLoop]
      congr 1
      funext probe
      cases probe with
      | some probe => rfl
      | none =>
        cases hinh : prog.inherit[i]? with
        | none => rfl
        | some inh =>
          simp only [bind_eq_bind, bind_some, h inh (List.mem_of_getElem? hinh)]
          exact congrArg _ (funext ih)
  exact hloop _ prog

theorem le_of_searchLoop {i j : ℕ} {probe : ℤ} {cprog : Program}
    (h : searchLoop stray programs prog name i cprog = some (some (j, probe))) : j ≤ i := by
  induction i generalizing cprog with
  | zero =>
    rw [searchLoop] at h
    obtain ⟨r, -, hr⟩ := bind_eq_some_iff.1 h
    cases r with
    | none => cases hr
    | some probe =>
      cases hr
      exact le_rfl
  | succ i ih =>
    rw [searchLoop] at h
    obtain ⟨r, -, hr⟩ := bind_eq_some_iff.1 h
    cases r with
    | none =>
      obtain ⟨inh, -, hinh⟩ := bind_eq_some_iff.1 hr
      obtain ⟨c, -, hc⟩ := bind_eq_some_iff.1 hinh
      exact (ih hc).trans (Nat.le_succ i)
    | some probe =>
      cases hr
      exact le_rfl

theorem lt_of_search {i : ℕ} {probe : ℤ}
    (h : search stray programs prog name = some (some (i, probe))) : i < prog.inherit.length := by
  have hle := le_of_searchLoop h
  have hpos := List.length_pos_of_ne_nil prog.inherit_ne
  omega

/-- What an entry says that a search gives. -/
def FCache.Says (e : FCache) : Option (ℕ × ℤ) → Prop
  | none => e.ffInh = -1
  | some (i, probe) => e.ffInh = i ∧ e.ffIx = probe

end Entry

/-- An entry is right for every program in memory that has its number. -/
def CacheOk (s : State) : Prop :=
  ∀ h name, (s.fc h).fn = some name → ∀ a p, s.programs a = some p →
    p.idNumber = (s.fc h).tp → ∃ r, search stray s.programs p name = some r ∧ (s.fc h).Says r

/-- The invariant of the histories. -/
structure Inv (s : State) : Prop where
  live : ∀ a p, s.programs a = some p → ∀ inh ∈ p.inherit, (s.programs inh.prog).isSome
  unique : ∀ a b p q, s.programs a = some p → s.programs b = some q → p.idNumber = q.idNumber →
    a = b
  cache : CacheOk stray s

variable {stray} {s s' : State}

/-- **An entry that is right is not seen.** -/
theorem Inv.sFF_fst (h : Inv stray s) (name : Option Name) (prog : Addr) :
    (sFF stray s name prog).map Prod.fst = uncached stray s.programs name prog := by
  cases name with
  | none => rfl
  | some name =>
    rw [sFF, uncached]
    cases hp : s.programs prog with
    | none => rfl
    | some p =>
      simp only [bind_eq_bind, bind_some]
      split
      next hhit =>
        obtain ⟨r, hr, hcached⟩ := h.cache _ name hhit.2 prog p hp hhit.1.symm
        rw [hr, bind_some]
        cases r with
        | none =>
          have hinh : (s.fc (globalHashVal prog name)).ffInh = -1 := hcached
          rw [if_neg (not_not.2 hinh), map_some]
        | some r =>
          obtain ⟨i, probe⟩ := r
          obtain ⟨hinh, hix⟩ := hcached
          rw [hinh, hix, if_pos (by omega), inside_natCast (lt_of_search hr), bind_some]
          cases hset : setFound s.programs p i probe <;> simp [hset]
      next hmiss =>
        cases search stray s.programs p name with
        | none => rfl
        | some r =>
          cases r with
          | none => rfl
          | some r => cases hset : setFound s.programs p r.1 r.2 <;> simp [hset]

theorem Inv.sFF_snd {name : Option Name} {prog : Addr} {found : Option FunctionFound}
    {fc : ℕ → FCache} (h : Inv stray s) (hrun : sFF stray s name prog = some (found, fc)) :
    Inv stray { s with fc := fc } := by
  refine ⟨h.live, h.unique, ?_⟩
  cases name with
  | none =>
    cases hrun
    exact h.cache
  | some name =>
    obtain ⟨p, hp, hrun⟩ := bind_eq_some_iff.1 hrun
    dsimp only at hrun
    have hupdate {e : FCache} {r : Option (ℕ × ℤ)}
        (hsearch : search stray s.programs p name = some r) (htp : e.tp = p.idNumber)
        (hfn : e.fn = some name) (hcached : e.Says r)
        (hfc : fc = update s.fc (globalHashVal prog name) e) :
        CacheOk stray { s with fc := fc } := by
      intro k name' hname' a q hq hid
      subst hfc
      by_cases hk : k = globalHashVal prog name
      · simp only [hk, update_self, hfn, htp] at hname' hid ⊢
        obtain rfl := some.inj hname'
        obtain rfl := h.unique a prog q p hq hp hid
        obtain rfl := some.inj (hq.symm.trans hp)
        exact ⟨r, hsearch, hcached⟩
      · simp only [update_of_ne hk] at hname' hid ⊢
        exact h.cache k name' hname' a q hq hid
    split at hrun
    next =>
      split at hrun
      next =>
        obtain ⟨i, -, hrun⟩ := bind_eq_some_iff.1 hrun
        obtain ⟨f, -, hrun⟩ := bind_eq_some_iff.1 hrun
        cases hrun
        exact h.cache
      next =>
        cases hrun
        exact h.cache
    next =>
      obtain ⟨r, hr, hrun⟩ := bind_eq_some_iff.1 hrun
      cases r with
      | none =>
        cases hrun
        have hcached : FCache.Says ⟨p.idNumber, some name, -1,
          (s.fc (globalHashVal prog name)).ffIx⟩ none := rfl
        exact hupdate hr rfl rfl hcached rfl
      | some r =>
        obtain ⟨f, -, hrun⟩ := bind_eq_some_iff.1 hrun
        cases hrun
        exact hupdate hr rfl rfl ⟨rfl, rfl⟩ rfl

/-- **Every event keeps the invariant**, a load when the number of the program is fresh. -/
theorem Inv.step {e : Event} (h : Inv stray s) (hfresh : Fresh s e) (hstep : Step stray s e s') :
    Inv stray s' := by
  cases hstep with
  | @load prog p hfree hid hself hinherited =>
    obtain ⟨hids, htps⟩ := hfresh
    -- a program that was in memory before does not inherit the new one
    have hold {a : Addr} {q : Program} (hq : s.programs a = some q) :
        ∀ inh ∈ q.inherit, inh.prog ≠ prog := by
      rintro inh hinh rfl
      have := h.live a q hq inh hinh
      rw [hfree] at this
      cases this
    refine ⟨fun a q hq inh hinh ↦ ?_, fun a b q r hq hr hqr ↦ ?_, fun k name hname a q hq hqid ↦ ?_⟩
    · by_cases ha : a = prog
      · simp only [ha, update_self, some.injEq] at hq
        subst hq
        by_cases hp : inh.prog = prog
        · simp [hp]
        · simp only [update_of_ne hp]
          rw [← List.dropLast_concat_getLast p.inherit_ne, List.mem_append, List.mem_singleton]
            at hinh
          rcases hinh with hinh | rfl
          · exact hinherited inh hinh
          · exact absurd hself hp
      · simp only [update_of_ne ha] at hq
        simp only [update_of_ne (hold hq inh hinh)]
        exact h.live a q hq inh hinh
    · by_cases ha : a = prog <;> by_cases hb : b = prog
      · rw [ha, hb]
      · simp only [ha, update_self, update_of_ne hb, some.injEq] at hq hr
        subst hq
        exact absurd (hqr.symm.trans hid) (hids b r hr)
      · simp only [hb, update_self, update_of_ne ha, some.injEq] at hq hr
        subst hr
        exact absurd (hqr.trans hid) (hids a q hq)
      · simp only [update_of_ne ha, update_of_ne hb] at hq hr
        exact h.unique a b q r hq hr hqr
    · by_cases ha : a = prog
      · simp only [ha, update_self, some.injEq] at hq
        subst hq
        exact absurd (hqid.symm.trans hid) (htps k (ne_none_iff_exists'.2 ⟨name, hname⟩))
      · simp only [update_of_ne ha] at hq
        obtain ⟨r, hr, hcached⟩ := h.cache k name hname a q hq hqid
        refine ⟨r, ?_, hcached⟩
        rw [← hr]
        exact search_congr fun inh hinh ↦ update_of_ne (hold hq inh hinh) ..
  | @free prog hunused =>
    have hlive {a : Addr} {q : Program}
        (hq : update s.programs prog none a = some q) :
        a ≠ prog ∧ s.programs a = some q := by
      by_cases ha : a = prog
      · simp [ha] at hq
      · exact ⟨ha, by rwa [update_of_ne ha] at hq⟩
    refine ⟨fun a q hq inh hinh ↦ ?_,
      fun a b q r hq hr ↦ h.unique a b q r (hlive hq).2 (hlive hr).2,
      fun k name hname a q hq hqid ↦ ?_⟩
    · obtain ⟨ha, hq⟩ := hlive hq
      simp only [update_of_ne (hunused a q hq ha inh hinh)]
      exact h.live a q hq inh hinh
    · obtain ⟨ha, hq⟩ := hlive hq
      obtain ⟨r, hr, hcached⟩ := h.cache k name hname a q hq hqid
      refine ⟨r, ?_, hcached⟩
      rw [← hr]
      exact search_congr fun inh hinh ↦ update_of_ne (hunused a q hq ha inh hinh) ..
  | share => exact ⟨h.live, h.unique, h.cache⟩
  | search hrun => exact h.sFF_snd hrun
  | sFF hrun => exact h.sFF_snd hrun

theorem Start.inv (h : Start s) : Inv stray s := by
  refine ⟨fun a p hp ↦ ?_, fun a b p q hp ↦ ?_, fun k name hname ↦ ?_⟩
  · rw [h.programs] at hp
    cases hp
  · rw [h.programs] at hp
    cases hp
  · rw [h.fc] at hname
    cases hname

/-- **The cache is correct** in every history in which the number of a program that is loaded is
fresh. -/
theorem cacheCorrect (hs : (histories stray).ReachableVia Fresh s) : CacheCorrect stray s := by
  have hinit : ∀ s, (histories stray).Init s → Inv stray s := fun _ h ↦ Start.inv h
  have hinv := hs.invariant hinit fun _ _ _ h hfresh hstep ↦ h.step hfresh hstep
  exact fun name prog ↦ hinv.sFF_fst (s.strings name) prog

/-! ### Two histories -/

section Histories

/-- The shared string `create`. -/
def create : Name := ⟨8, by decide⟩

/-- A program without functions. -/
def emptyProgram (id : BitVec 32) : Program where
  idNumber := id
  numFunctions := 0
  funcHash _ := ⟨none, 0, 0⟩
  typeFlags := []
  inherit := [⟨64, 0⟩]
  inherit_ne := List.cons_ne_nil _ _

/-- A program with the function `create`. -/
def createProgram (id : BitVec 32) : Program where
  idNumber := id
  numFunctions := 1
  funcHash _ := ⟨some create, -1, 0⟩
  typeFlags := [0]
  inherit := [⟨64, 0⟩]
  inherit_ne := List.cons_ne_nil _ _

def startState : State where
  programs _ := none
  strings name := if name = "create" then some create else none
  fc _ := ⟨0, none, 0, 0⟩
  currentIdNumber := 1

/-- A program is at the address 64. -/
def State.loaded (s : State) (p : Program) : State :=
  { s with
    programs := update s.programs 64 (some p)
    currentIdNumber := s.currentIdNumber + 1 }

def State.freed (s : State) : State :=
  { s with programs := update s.programs 64 none }

theorem step_loaded {p : Program} (hfree : s.programs 64 = none)
    (hid : p.idNumber = s.currentIdNumber) (hinherit : p.inherit = [⟨64, 0⟩]) :
    Step stray s (.load 64 p) (s.loaded p) := by
  refine .load hfree hid ?_ fun inh hinh ↦ ?_
  · simp [hinherit]
  · rw [Program.inherited, hinherit] at hinh
    cases hinh

theorem step_freed (hother : ∀ a ≠ 64, s.programs a = none) : Step stray s (.free 64) s.freed := by
  refine .free fun a p hp ha ↦ ?_
  rw [hother a ha] at hp
  cases hp

/-- That there is no `create` in the program 1 is noted, and the program is freed. -/
def notedState : State :=
  { startState with
    fc := update startState.fc (globalHashVal 64 create) ⟨1, some create, -1, 0⟩
    currentIdNumber := 2 }

theorem reachableVia_noted : (histories stray).ReachableVia Fresh notedState := by
  have hstart : Start startState := ⟨fun _ ↦ rfl, fun _ ↦ rfl, rfl⟩
  have hfresh : Fresh startState (.load 64 (emptyProgram 1)) := ⟨nofun, fun _ h ↦ absurd rfl h⟩
  have hloaded : (histories stray).ReachableVia Fresh (startState.loaded (emptyProgram 1)) :=
    .step (.init hstart) hfresh (step_loaded rfl rfl rfl)
  have hsearch : searchForFunction stray (startState.loaded (emptyProgram 1)) "create" 64 =
      some (none, notedState.fc) := by
    simp [searchForFunction, sFF, State.loaded, startState, emptyProgram, search, searchLoop,
      lookup, notedState]
  have hnoted := hloaded.step (a := Event.search "create" 64) trivial (.search hsearch)
  have hfreed := hnoted.step (a := Event.free 64) trivial
    (step_freed fun a ha ↦ update_of_ne ha ..)
  have heq : State.freed { startState.loaded (emptyProgram 1) with fc := notedState.fc } =
      notedState := by
    have hupdate :
        update (fun _ : Addr ↦ (none : Option Program)) 64 none = fun _ ↦ none :=
      update_eq_self ..
    simp only [State.freed, State.loaded, update_idem, notedState, startState, hupdate]
    rfl
  rwa [heq] at hfreed

/-- The program 2, which is at the address of the program 1, has a `create`. -/
def staleState : State :=
  notedState.loaded (createProgram 2)

theorem uncached_create (id : BitVec 32) :
    uncached (fun _ ↦ none) (update (fun _ ↦ none) (64 : Addr) (some (createProgram id)))
      (some create) 64 = some (some ⟨0, 0, 64, 0⟩) := by
  have hslot : ptrHash create 1 = 0 := Nat.mod_one _
  simp [uncached, search, searchLoop, lookup, select, nameAt, inside, setFound, createProgram,
    hslot, typeModFound]

/-- The entry of the program 1 is not taken for it, and is replaced. -/
theorem cacheCorrect_stale : (staleState.fc (globalHashVal 64 create)).tp = 1 ∧
    ∃ fc, searchForFunction (fun _ ↦ none) staleState "create" 64 =
        some (some ⟨0, 0, 64, 0⟩, fc) ∧
      CacheCorrect (fun _ ↦ none) staleState ∧
      CacheCorrect (fun _ ↦ none) { staleState with fc := fc } := by
  have hentry : notedState.fc (globalHashVal 64 create) = ⟨1, some create, -1, 0⟩ := by
    simp [notedState]
  have hfresh : Fresh notedState (.load 64 (createProgram 2)) := by
    refine ⟨nofun, fun h hne ↦ ?_⟩
    by_cases hh : h = globalHashVal 64 create
    · rw [hh, hentry]
      decide
    · have hempty : notedState.fc h = ⟨0, none, 0, 0⟩ :=
        update_of_ne (β := fun _ ↦ FCache) hh _ _
      rw [hempty] at hne
      exact absurd rfl hne
  have hreach : (histories fun _ ↦ none).ReachableVia Fresh staleState :=
    reachableVia_noted.step hfresh (step_loaded rfl rfl rfl)
  have hcorrect := cacheCorrect hreach
  obtain ⟨⟨found, fc⟩, hsearch, hfound⟩ :=
    map_eq_some_iff.1 ((hcorrect "create" 64).trans (uncached_create 2))
  obtain rfl : found = _ := hfound
  exact ⟨congrArg FCache.tp hentry, fc, hsearch, hcorrect,
    cacheCorrect (hreach.step (a := Event.search "create" 64) trivial (.search hsearch))⟩

/-- Programs are loaded and freed, `n` times. -/
theorem reachable_rounds (n : ℕ) :
    (histories stray).Reachable { notedState with currentIdNumber := .ofNat 32 (n + 2) } := by
  induction n with
  | zero => exact reachableVia_noted.mono fun _ _ _ ↦ trivial
  | succ n ih =>
    have hloaded := ih.step (step_loaded (p := emptyProgram (.ofNat 32 (n + 2))) rfl rfl rfl)
    have hfreed := hloaded.step (step_freed fun a ha ↦ update_of_ne ha ..)
    have heq : State.freed (State.loaded { notedState with currentIdNumber := .ofNat 32 (n + 2) }
        (emptyProgram (.ofNat 32 (n + 2)))) =
        { notedState with currentIdNumber := .ofNat 32 (n + 1 + 2) } := by
      simp only [State.freed, State.loaded, update_idem, notedState, startState,
        update_eq_self_iff, State.mk.injEq, true_and]
      exact (BitVec.ofNat_add ..).symm
    rwa [heq] at hfreed

/-- Behind 2^32 programs the number 1 is given again: there is no `create` in the new program. -/
theorem not_cacheCorrect :
    ∃ s, (histories fun _ ↦ none).Reachable s ∧ ¬CacheCorrect (fun _ ↦ none) s := by
  have hrounds := @reachable_rounds (fun _ ↦ none) (2 ^ 32 - 1)
  refine ⟨_, hrounds.step (step_loaded (p := createProgram 1) rfl rfl rfl), fun h ↦ ?_⟩
  have hsearch := h "create" 64
  simp only [State.loaded, notedState, startState, if_true] at hsearch
  rw [uncached_create] at hsearch
  simp [searchForFunction, sFF, createProgram] at hsearch

end Histories

end Lpmud.Functions
