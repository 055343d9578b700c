import Lpmud.Lib.Packing

/-!
# Inherited variables

The programs that a program inherits are in one list (`postlang.y`). `copy_inherits` adds the list
of a program to it, one of the lists that this one is made of at a time, and the program itself
comes last. The epilog then sets where the variables of each program are in an object: those of a
program that is inherited more than once are there only once.

A program is known by its number here; it is compiled after those that it inherits, and they stay in
memory. `compileAll` compiles a whole graph of programs, `lists` is what the lists of them should
be.
-/

namespace Lpmud.Inherits

open List Option

/-- `struct inherit`. -/
structure Inherit where
  prog : ℕ
  name : String
  variableIndexOffset : ℕ
  type : BitVec 16
  deriving DecidableEq

/-- What the compiler reads of `struct program`. -/
structure Program where
  numVariables : ℕ
  numInherited : ℕ
  inherit : List Inherit
  deriving DecidableEq

abbrev TYPE_MOD_SECOND : BitVec 16 := 0x0080

abbrev TYPE_MOD_PRIVATE : BitVec 16 := 0x0800

abbrev TYPE_MOD_PUBLIC : BitVec 16 := 0x1000

/-- The memory block `A_INHERITS`, and `has_inherited`. -/
structure Block where
  inherits : List Inherit
  hasInherited : Bool
  deriving DecidableEq

/-- `prog->inherit[i]`. -/
def Program.inheritAt (p : Program) (i : ℤ) : Option Inherit :=
  if i < 0 then none else p.inherit[i.toNat]?

/-- The first loop of `copy_inherits`, which goes backwards over the last element of each of the
lists that the list is made of. There is room for 256 of them in `j`. -/
def lastOnes (progs : List Program) (p : Program) : ℕ → ℤ → List ℤ → Option (List ℤ)
  | 0, _, _ => none
  | fuel + 1, i, j =>
    if i < 0 then some j
    else do
      let inh ← p.inheritAt i
      let q ← progs[inh.prog]?
      if j.length < 256 then lastOnes progs p fuel (i - q.numInherited) (i :: j) else none

/-- "Correct the type". -/
def newType (type old_type : BitVec 16) : BitVec 16 :=
  let new_type :=
    if old_type &&& TYPE_MOD_PRIVATE ≠ 0 then type &&& ~~~TYPE_MOD_PUBLIC else type
  let new_type :=
    if old_type &&& TYPE_MOD_PUBLIC ≠ 0 then new_type &&& ~~~TYPE_MOD_PRIVATE else new_type
  old_type ||| new_type

/-- `copy_inherits`, as far as it changes the list. The first program that is inherited takes the
place of the auto object. -/
def copyInherits (progs : List Program) : ℕ → Block → ℕ → BitVec 16 → String → Option Block
  | 0, _, _, _, _ => none
  | fuel + 1, b, prog, type, name => do
    let b := if b.hasInherited then b else ⟨[], true⟩
    let p ← progs[prog]?
    let j ← lastOnes progs p (p.numInherited + 1) (p.numInherited - 2) []
    let b ← j.foldlM (fun b i ↦ do
      let inh ← p.inheritAt i
      copyInherits progs fuel b inh.prog (newType type inh.type) inh.name) b
    let inh ← p.inheritAt (p.numInherited - 1)
    some { b with inherits := b.inherits ++ [{ inh with name, type }] }

/-- `inherit "..." name;`. -/
structure Inheritance where
  type : BitVec 16
  prog : ℕ
  name : String

/-- What is compiled: the auto object there is, the inherit statements, and the number of
variables. -/
structure Source where
  auto : Option ℕ
  inheritance : List Inheritance
  numVariables : ℕ

/-- `prolog`, and the inherit statements. -/
def inheritAll (progs : List Program) (src : Source) : Option Block := do
  let b ← match src.auto with
    | some auto => do
      let b ← copyInherits progs progs.length ⟨[], true⟩ auto 0 "auto"
      some { b with hasInherited := false }
    | none => some ⟨[], true⟩
  src.inheritance.foldlM
    (fun b s ↦ copyInherits progs progs.length b s.prog s.type s.name) b

def findInherit (prog1 : Program) (prog2 : ℕ) : Option ℕ :=
  (prog1.inherit.take prog1.numInherited).findIdx? (·.prog == prog2)

/-- A round of the loop of the epilog, with `ix`. -/
def layoutStep (progs : List Program) (s : Program × ℕ) (i : ℕ) : Option (Program × ℕ) := do
  let e ← s.1.inherit[i]?
  let inh ← findInherit s.1 e.prog
  if inh = i then
    let q ← progs[e.prog]?
    let e := { e with variableIndexOffset := s.2 % 65536, type := e.type &&& ~~~TYPE_MOD_SECOND }
    some ({ s.1 with inherit := s.1.inherit.set i e }, s.2 + q.numVariables)
  else
    let f ← s.1.inherit[inh]?
    let e := { e with
      variableIndexOffset := f.variableIndexOffset, type := e.type ||| TYPE_MOD_SECOND }
    some ({ s.1 with inherit := s.1.inherit.set i e }, s.2)

/-- The epilog, for the program of the number `self`. -/
def epilog (progs : List Program) (b : Block) (numVariables : ℕ) : Option Program :=
  let self := progs.length
  let inherit := b.inherits ++ [⟨0, "this", 0, 0⟩]
  let numInherited := inherit.length % 65536
  if numInherited = 0 then none
  else
    let prog : Program := ⟨numVariables % 65536, numInherited,
      inherit.modify (numInherited - 1) fun e ↦ { e with prog := self }⟩
    ((List.range numInherited).foldlM (layoutStep (progs ++ [prog])) (prog, 0)).map Prod.fst

/-- A program is compiled. -/
def compile (progs : List Program) (src : Source) : Option (List Program) := do
  let b ← inheritAll progs src
  let p ← epilog progs b src.numVariables
  some (progs ++ [p])

/-- The programs of a graph, one after the other. -/
def compileAll (srcs : List Source) : Option (List Program) :=
  srcs.foldlM compile []

/-! ### What the list is for -/

/-- The programs that a program inherits itself. -/
def Source.parents (src : Source) : List ℕ :=
  if src.inheritance.isEmpty then src.auto.toList else src.inheritance.map Inheritance.prog

/-- The lists of the programs that a program inherits. -/
def Source.inherited (ls : List (List ℕ)) (src : Source) : List ℕ :=
  src.parents.flatMap fun c ↦ ls.getD c []

/-- The lists of all programs: those of the programs that they inherit, and themselves. -/
def lists (srcs : List Source) : List (List ℕ) :=
  srcs.foldl (fun ls src ↦ ls ++ [src.inherited ls ++ [ls.length]]) []

/-- A program that inherits programs that have been compiled before, in the tables there are: it
has up to 256 inherit statements, and numbers of 16 bits are enough for its list, for its variables,
and for those that it inherits. -/
structure Source.Fits (before : List Source) (src : Source) : Prop where
  auto_lt : ∀ a ∈ src.auto, a < before.length
  prog_lt : ∀ s ∈ src.inheritance, s.prog < before.length
  parents_le : src.parents.length ≤ 256
  length_lt : (src.inherited (lists before)).length + 1 < 65536
  numVariables_lt : src.numVariables < 65536
  inherited_lt : Packing.extent (fun q ↦ before[q]?.elim 0 Source.numVariables)
    (src.inherited (lists before)) < 65536

/-- Programs that can be compiled one after the other. -/
inductive Fits : List Source → Prop
  | nil : Fits []
  | concat {srcs : List Source} {src : Source} : Fits srcs → src.Fits srcs → Fits (srcs ++ [src])

/-! ### Where the variables are -/

/-- The programs of a list. -/
def Program.list (p : Program) : List ℕ :=
  p.inherit.map Inherit.prog

/-- How many variables a program defines itself. -/
def sizes (progs : List Program) (q : ℕ) : ℕ :=
  progs[q]?.elim 0 Program.numVariables

/-- `num_var`, the number of variables of an object. -/
def Program.numVar (p : Program) : Option ℕ :=
  (p.inheritAt (p.numInherited - 1)).map (p.numVariables + ·.variableIndexOffset)

/-- Two programs of the list begin at the same variable exactly when they are the same. -/
def SharedExactly (p : Program) : Prop :=
  ∀ e ∈ p.inherit, ∀ f ∈ p.inherit,
    e.variableIndexOffset = f.variableIndexOffset ↔ e.prog = f.prog

/-- The same for two programs that define variables. -/
structure Shared (progs : List Program) (p : Program) : Prop where
  same : ∀ e ∈ p.inherit, ∀ f ∈ p.inherit,
    e.prog = f.prog → e.variableIndexOffset = f.variableIndexOffset
  exact : ∀ e ∈ p.inherit, ∀ f ∈ p.inherit, 0 < sizes progs e.prog → 0 < sizes progs f.prog →
    e.variableIndexOffset = f.variableIndexOffset → e.prog = f.prog

/-- The variables of different programs do not overlap, and all of them together are those of the
object, as many as the programs define. -/
structure Tiled (progs : List Program) (p : Program) : Prop where
  disjoint : ∀ e ∈ p.inherit, ∀ f ∈ p.inherit, e.prog ≠ f.prog →
    e.variableIndexOffset + sizes progs e.prog ≤ f.variableIndexOffset ∨
      f.variableIndexOffset + sizes progs f.prog ≤ e.variableIndexOffset
  numVar : p.numVar = some (∑ q ∈ p.list.toFinset, sizes progs q)
  covered : ∀ n ∈ p.numVar, ∀ x, x < n ↔ ∃ e ∈ p.inherit,
    e.variableIndexOffset ≤ x ∧ x < e.variableIndexOffset + sizes progs e.prog

/-- The loop of the epilog before its round `i`, where `ms` are the programs of the list. -/
structure Laying (progs : List Program) (ms : List ℕ) (n i : ℕ) (s : Program × ℕ) : Prop where
  list : s.1.list = ms
  numInherited : s.1.numInherited = ms.length
  numVariables : s.1.numVariables = n
  ix : s.2 = Packing.extent (sizes progs) (ms.take i)
  offset : ∀ k < i, ∀ e, s.1.inherit[k]? = some e →
    e.variableIndexOffset = Packing.place (sizes progs) ms e.prog

section Layout

variable {progs : List Program} {ms : List ℕ} {n i c : ℕ} {s : Program × ℕ} {p : Program}

theorem findInherit_eq (hnum : p.numInherited = p.list.length) (h : c ∈ p.list) :
    findInherit p c = some (p.list.idxOf c) := by
  have hlen : p.inherit.length = p.list.length := (length_map _).symm
  rw [findInherit, hnum, ← hlen, take_length]
  have hmap : p.inherit.findIdx? (·.prog == c) = p.list.findIdx? (· == c) := by
    rw [Program.list, List.findIdx?_map]
    rfl
  rw [hmap]
  exact List.findIdx?_eq_some_of_exists ⟨c, h, beq_self_eq_true c⟩

theorem Laying.set (h : Laying progs ms n i s) {e : Inherit} (hi : i < ms.length)
    (hprog : ms[i]? = some e.prog)
    (hoffset : e.variableIndexOffset = Packing.place (sizes progs) ms e.prog) {ix : ℕ}
    (hix : ix = Packing.extent (sizes progs) (ms.take (i + 1))) :
    Laying progs ms n (i + 1) ({ s.1 with inherit := s.1.inherit.set i e }, ix) where
  list := by
    obtain ⟨hlt, hget⟩ := List.getElem?_eq_some_iff.1 hprog
    show (s.1.inherit.set i e).map Inherit.prog = ms
    rw [map_set, ← hget]
    show s.1.list.set i _ = ms
    rw [h.list, set_getElem_self]
  numInherited := h.numInherited
  numVariables := h.numVariables
  ix := hix
  offset k hk f hf := by
    rcases Nat.lt_succ_iff_lt_or_eq.1 hk with hlt | rfl
    · rw [List.getElem?_set_ne hlt.ne'] at hf
      exact h.offset k hlt f hf
    · have hlen : k < s.1.inherit.length := by
        have := congrArg List.length h.list
        rw [Program.list, length_map] at this
        omega
      rw [List.getElem?_set_self hlen] at hf
      exact some.inj hf ▸ hoffset

/-- **A round of the epilog** places a program that has not been in the list before behind the
others, and one that has been where it is. -/
theorem Laying.step (h : Laying progs ms n i s) (hi : i < ms.length)
    (hprogs : ∀ q ∈ ms, q < progs.length)
    (hfits : ∀ q ∈ ms, Packing.place (sizes progs) ms q < 65536) :
    ∃ s', layoutStep progs s i = some s' ∧ Laying progs ms n (i + 1) s' := by
  have hlen : s.1.inherit.length = ms.length := by
    rw [← h.list, Program.list, length_map]
  obtain ⟨e, he⟩ : ∃ e, s.1.inherit[i]? = some e := ⟨_, List.getElem?_eq_getElem (by omega)⟩
  have hprog : ms[i]? = some e.prog := by
    rw [← h.list, Program.list, List.getElem?_map, he]
    rfl
  have hmem : e.prog ∈ ms := mem_of_getElem? hprog
  have hget : ms[i] = e.prog := by
    rw [List.getElem?_eq_getElem hi] at hprog
    exact some.inj hprog
  have hfind : findInherit s.1 e.prog = some (ms.idxOf e.prog) := by
    rw [findInherit_eq (by rw [h.list, h.numInherited]) (by rwa [h.list]), h.list]
  have hsplit : ms.take i ++ e.prog :: ms.drop (i + 1) = ms := by
    rw [← hget, ← drop_eq_getElem_cons hi, take_append_drop]
  have htake : ms.take (i + 1) = ms.take i ++ [e.prog] := by
    rw [← hget, take_append_getElem]
  obtain ⟨q, hq⟩ : ∃ q, progs[e.prog]? = some q :=
    ⟨_, List.getElem?_eq_getElem (hprogs _ hmem)⟩
  have hsize : sizes progs e.prog = q.numVariables := by
    rw [sizes, hq]
    rfl
  simp only [layoutStep, he, hfind, bind_eq_bind, bind_some]
  by_cases hnew : e.prog ∈ ms.take i
  · -- its variables are there already
    have hlt : ms.idxOf e.prog < i := (mem_take_iff_idxOf_lt hmem).1 hnew
    obtain ⟨f, hf⟩ : ∃ f, s.1.inherit[ms.idxOf e.prog]? = some f :=
      ⟨_, List.getElem?_eq_getElem (by omega)⟩
    have hsame : f.prog = e.prog := by
      have hfprog : ms[ms.idxOf e.prog]? = some f.prog := by
        rw [← h.list, Program.list, List.getElem?_map, ← Program.list, h.list, hf]
        rfl
      rw [List.getElem?_idxOf hmem] at hfprog
      exact (some.inj hfprog).symm
    rw [if_neg hlt.ne, hf]
    refine ⟨_, rfl, h.set (e := ⟨e.prog, e.name, f.variableIndexOffset, _⟩) hi hprog ?_ ?_⟩
    · show f.variableIndexOffset = _
      rw [h.offset _ hlt f hf, hsame]
    · rw [h.ix, htake, Packing.extent_concat_of_mem hnew]
  · have heq : ms.idxOf e.prog = i := by
      have hge := mt (mem_take_iff_idxOf_lt hmem).2 hnew
      have hle : ms.idxOf e.prog ≤ i := by
        by_contra hgt
        exact absurd (not_of_lt_findIdx (not_le.1 hgt)) (by simpa using hget)
      omega
    have hplace : Packing.place (sizes progs) ms e.prog = s.2 := by
      rw [h.ix, ← Packing.place_append_of_notMem hnew, hsplit]
    rw [if_pos heq, hq]
    refine ⟨_, rfl, h.set (e := ⟨e.prog, e.name, s.2 % 65536, _⟩) hi hprog ?_ ?_⟩
    · show s.2 % 65536 = _
      rw [Nat.mod_eq_of_lt (hplace ▸ hfits _ hmem)]
      exact hplace.symm
    · rw [h.ix, htake, Packing.extent_concat_of_notMem hnew, hsize]

theorem Laying.run (h : Laying progs ms n 0 s) (hprogs : ∀ q ∈ ms, q < progs.length)
    (hfits : ∀ q ∈ ms, Packing.place (sizes progs) ms q < 65536) (hi : i ≤ ms.length) :
    ∃ s', (List.range i).foldlM (layoutStep progs) s = some s' ∧ Laying progs ms n i s' := by
  induction i with
  | zero => exact ⟨s, rfl, h⟩
  | succ i ih =>
    obtain ⟨s', hrun, hs'⟩ := ih (by omega)
    obtain ⟨s'', hstep, hs''⟩ := hs'.step (by omega) hprogs hfits
    refine ⟨s'', ?_, hs''⟩
    rw [range_succ, foldlM_append, hrun]
    simp [hstep]

end Layout

/-! ### Copying -/

/-- The list of the program `d`. -/
def members (progs : List Program) (d : ℕ) : List ℕ :=
  progs[d]?.elim [] Program.list

/-- The program `d` has been compiled: its list is made of those of the programs that it inherits,
which have been compiled before, and its variables are placed. -/
structure Sound (progs : List Program) (d : ℕ) (p : Program) : Prop where
  numInherited : p.numInherited = p.list.length
  parents : ∃ ds : List ℕ, ds.length ≤ 256 ∧ (∀ c ∈ ds, c < d) ∧
    p.list = ds.flatMap (members progs) ++ [d]
  le : ∀ c ∈ p.list, c ≤ d
  offset : ∀ e ∈ p.inherit,
    e.variableIndexOffset = Packing.place (sizes progs) p.list e.prog

section Copying

variable {progs : List Program} {p q : Program} {ds : List ℕ} {d c : ℕ}

theorem members_eq (h : progs[d]? = some p) : members progs d = p.list := by
  rw [members, h]
  rfl

theorem members_append (h : d < progs.length) : members (progs ++ [q]) d = members progs d := by
  rw [members, List.getElem?_append_left h, members]

theorem sizes_append (h : d < progs.length) : sizes (progs ++ [q]) d = sizes progs d := by
  rw [sizes, List.getElem?_append_left h, sizes]

theorem Sound.last (h : Sound progs d p) : ∃ e, p.inherit[p.list.length - 1]? = some e ∧
    e.prog = d ∧ 0 < p.list.length := by
  obtain ⟨ds, -, -, hlist⟩ := h.parents
  have hpos : 0 < p.list.length := by
    rw [hlist, length_append]
    exact Nat.succ_pos _
  have hlen : p.inherit.length = p.list.length := (length_map _).symm
  obtain ⟨e, he⟩ : ∃ e, p.inherit[p.list.length - 1]? = some e :=
    ⟨_, List.getElem?_eq_getElem (by omega)⟩
  refine ⟨e, he, ?_, hpos⟩
  have hprog : p.list[p.list.length - 1]? = some e.prog := by
    rw [Program.list, List.getElem?_map, ← Program.list, he]
    rfl
  rw [← List.getLast?_eq_getElem?, hlist, List.getLast?_concat] at hprog
  exact (some.inj hprog).symm

theorem Sound.append (h : Sound progs d p) (hd : d < progs.length) :
    Sound (progs ++ [q]) d p where
  numInherited := h.numInherited
  parents := by
    obtain ⟨ds, hlen, hlt, hlist⟩ := h.parents
    refine ⟨ds, hlen, hlt, hlist.trans ?_⟩
    rw [flatMap_congr fun c hc ↦ members_append ((hlt c hc).trans hd)]
  le := h.le
  offset e he := by
    rw [h.offset e he]
    refine Packing.place_congr fun c hc ↦ (sizes_append ?_).symm
    exact (h.le c hc).trans_lt hd

/-- `j`: the last elements of the lists of `ds`. -/
theorem lastOnes_eq (hsound : ∀ d p, progs[d]? = some p → Sound progs d p)
    (hds : ∀ c ∈ ds, c < progs.length) {rest : List ℕ}
    (hlist : p.list = ds.flatMap (members progs) ++ rest) {j : List ℤ}
    (hj : ds.length + j.length ≤ 256) (fuel : ℕ) (hfuel : ds.length < fuel) :
    ∃ js, lastOnes progs p fuel ((ds.flatMap (members progs)).length - 1) j = some (js ++ j) ∧
      List.Forall₂ (fun c i ↦ (p.inheritAt i).map Inherit.prog = some c) ds js := by
  induction ds using List.reverseRecOn generalizing rest j fuel with
  | nil =>
    obtain ⟨fuel, rfl⟩ := Nat.exists_eq_add_one.2 hfuel
    refine ⟨[], ?_, .nil⟩
    rw [lastOnes, if_pos (by simp)]
    rfl
  | append_singleton ds c ih =>
    obtain ⟨fuel, rfl⟩ : ∃ n, fuel = n + 1 := Nat.exists_eq_add_one.2 (by omega)
    rw [length_append, length_singleton] at hj hfuel
    have hc : c < progs.length := hds c (by simp)
    obtain ⟨q, hq⟩ : ∃ q, progs[c]? = some q := ⟨_, List.getElem?_eq_getElem hc⟩
    have hqsound := hsound c q hq
    obtain ⟨e, he, hprog, hpos⟩ := hqsound.last
    have hmembers := members_eq hq
    rw [flatMap_append, flatMap_singleton, hmembers] at hlist ⊢
    obtain ⟨m, hm⟩ : ∃ m, (ds.flatMap (members progs)).length = m := ⟨_, rfl⟩
    -- the element before `rest` is that of `c`
    have hindex : ((ds.flatMap (members progs) ++ q.list).length - 1 : ℤ) =
        ((m + (q.list.length - 1) : ℕ) : ℤ) := by
      rw [length_append, hm]
      omega
    have hat : (p.inheritAt ((m + (q.list.length - 1) : ℕ) : ℤ)).map Inherit.prog = some c := by
      rw [Program.inheritAt, if_neg (by omega), Int.toNat_natCast, ← List.getElem?_map,
        ← Program.list, hlist, append_assoc, ← hm, List.getElem?_append_right (by omega),
        Nat.add_sub_cancel_left, List.getElem?_append_left (by omega), Program.list,
        List.getElem?_map, ← Program.list, he]
      exact congrArg some hprog
    obtain ⟨inh, hinh, hinhprog⟩ := map_eq_some_iff.1 hat
    obtain ⟨js, hjs, hall⟩ := ih (fun c' hc' ↦ hds c' (mem_append_left _ hc'))
      (by rw [hlist, append_assoc]) (j := ((m + (q.list.length - 1) : ℕ) : ℤ) :: j)
      (by rw [length_cons]; omega) fuel (by omega)
    refine ⟨js ++ [((m + (q.list.length - 1) : ℕ) : ℤ)], ?_, ?_⟩
    · rw [hindex, lastOnes, if_neg (by omega)]
      simp only [hinh, hinhprog, hq, bind_eq_bind, bind_some]
      have hnext : ((m + (q.list.length - 1) : ℕ) : ℤ) - q.numInherited =
          (ds.flatMap (members progs)).length - 1 := by
        rw [hqsound.numInherited, hm]
        omega
      rw [if_pos (by omega), hnext, hjs, append_assoc]
      rfl
    · exact rel_append hall (.cons hat .nil)

theorem length_lt_flatMap (hsound : ∀ d p, progs[d]? = some p → Sound progs d p)
    (hds : ∀ c ∈ ds, c < progs.length) :
    ds.length < (ds.flatMap (members progs)).length + 1 + 1 := by
  induction ds with
  | nil => exact Nat.succ_pos _
  | cons c ds ih =>
    obtain ⟨hc, hds⟩ := forall_mem_cons.1 hds
    obtain ⟨q, hq⟩ : ∃ q, progs[c]? = some q := ⟨_, List.getElem?_eq_getElem hc⟩
    obtain ⟨-, -, -, hpos⟩ := (hsound c q hq).last
    have := ih hds
    rw [flatMap_cons, length_append, members_eq hq, length_cons]
    omega

theorem Sound.inheritAt_last (h : Sound progs d p) :
    ∃ e, p.inheritAt (p.numInherited - 1) = some e ∧ e.prog = d := by
  obtain ⟨e, he, hprog, hpos⟩ := h.last
  refine ⟨e, ?_, hprog⟩
  have hindex : ((p.numInherited : ℤ) - 1).toNat = p.list.length - 1 := by
    rw [h.numInherited]
    omega
  rw [Program.inheritAt, if_neg (by rw [h.numInherited]; omega), hindex, he]

/-- What is in the block when a program is inherited. -/
def Block.kept (b : Block) : List ℕ :=
  if b.hasInherited then b.inherits.map Inherit.prog else []

theorem Block.kept_eq {b : Block} (h : b.hasInherited = true) :
    b.kept = b.inherits.map Inherit.prog :=
  if_pos h

/-- The list of the program `d` has been added to the block `b`. -/
structure Copied (progs : List Program) (b : Block) (ds : List ℕ) (b' : Block) : Prop where
  hasInherited : b'.hasInherited = true
  map_prog : b'.inherits.map Inherit.prog = b.kept ++ ds.flatMap (members progs)

theorem copied_foldlM {ι : Type} {f : Block → ι → Option Block} {js : List ι}
    (h : List.Forall₂ (fun d i ↦ ∀ b, ∃ b', f b i = some b' ∧ Copied progs b [d] b') ds js)
    (b : Block) (hb : b.hasInherited = true ∨ js ≠ []) :
    ∃ b', js.foldlM f b = some b' ∧ Copied progs b ds b' := by
  induction h generalizing b with
  | nil =>
    have hinherited := hb.resolve_right (not_not.2 rfl)
    exact ⟨b, rfl, hinherited, by rw [Block.kept_eq hinherited, flatMap_nil, append_nil]⟩
  | @cons d i ds js hi _ ih =>
    obtain ⟨b₁, hcopy, hb₁⟩ := hi b
    obtain ⟨b₂, hrest, hb₂⟩ := ih b₁ (.inl hb₁.hasInherited)
    refine ⟨b₂, ?_, hb₂.hasInherited, ?_⟩
    · rw [foldlM_cons, hcopy]
      exact hrest
    · rw [hb₂.map_prog, Block.kept_eq hb₁.hasInherited, hb₁.map_prog, append_assoc,
        flatMap_singleton, flatMap_cons]

/-- **The list of a program is copied**: its programs are added, in the order of that list. -/
theorem copyInherits_eq (hsound : ∀ d p, progs[d]? = some p → Sound progs d p) {fuel : ℕ}
    (hd : d < progs.length) (hfuel : d < fuel) (b : Block) (type : BitVec 16) (name : String) :
    ∃ b', copyInherits progs fuel b d type name = some b' ∧ Copied progs b [d] b' := by
  induction fuel generalizing d b type name with
  | zero => exact absurd hfuel (Nat.not_lt_zero d)
  | succ fuel ih =>
    obtain ⟨p, hp⟩ : ∃ p, progs[d]? = some p := ⟨_, List.getElem?_eq_getElem hd⟩
    have hpsound := hsound d p hp
    obtain ⟨ds, hlen, hlt, hlist⟩ := hpsound.parents
    obtain ⟨e, he, hprog⟩ := hpsound.inheritAt_last
    obtain ⟨b₀, hb₀, hinherited, hkept⟩ : ∃ b₀ : Block,
        (if b.hasInherited then b else ⟨[], true⟩) = b₀ ∧ b₀.hasInherited = true ∧
          b₀.kept = b.kept := by
      by_cases hb : b.hasInherited = true
      · exact ⟨b, if_pos hb, hb, rfl⟩
      · exact ⟨⟨[], true⟩, if_neg hb, rfl, (if_neg hb).symm⟩
    have hnum : (p.numInherited : ℤ) - 2 = (ds.flatMap (members progs)).length - 1 := by
      rw [hpsound.numInherited, hlist, length_append, length_singleton]
      omega
    obtain ⟨js, hjs, hall⟩ := lastOnes_eq hsound (fun c hc ↦ (hlt c hc).trans hd) hlist (j := [])
      (by simpa using hlen) (p.numInherited + 1)
      (by
        rw [hpsound.numInherited, hlist, length_append]
        exact length_lt_flatMap hsound fun c hc ↦ (hlt c hc).trans hd)
    -- the lists that the list is made of are those of programs that were compiled before
    have hcopies : List.Forall₂ (fun c i ↦ ∀ b, ∃ b', ((p.inheritAt i).bind fun inh ↦
        copyInherits progs fuel b inh.prog (newType type inh.type) inh.name) = some b' ∧
          Copied progs b [c] b') ds js := by
      refine ((forall₂_and_left ds js).2 ⟨hlt, hall⟩).imp ?_
      rintro c i ⟨hc, hi⟩ b
      obtain ⟨inh, hinh, rfl⟩ := map_eq_some_iff.1 hi
      rw [hinh, bind_some]
      exact ih (hc.trans hd) (by omega) b _ _
    obtain ⟨b₁, hrun, hb₁⟩ := copied_foldlM hcopies b₀ (.inl hinherited)
    refine ⟨{ b₁ with inherits := b₁.inherits ++ [{ e with name, type }] }, ?_,
      hb₁.hasInherited, ?_⟩
    · rw [append_nil] at hjs
      simp only [copyInherits, hb₀, hp, hnum, hjs, he, bind_eq_bind, bind_some, hrun]
    · rw [map_append, hb₁.map_prog, hkept, flatMap_singleton, members_eq hp, hlist,
        append_assoc]
      show _ ++ (_ ++ [e.prog]) = _
      rw [hprog]

end Copying

/-! ### Compiling -/

section Compiling

variable {srcs : List Source} {src : Source} {progs : List Program} {p q : Program} {b : Block}
  {d n : ℕ}

theorem sizes_concat (h : q.numVariables = p.numVariables) :
    sizes (progs ++ [q]) = sizes (progs ++ [p]) := by
  funext c
  rw [sizes, sizes]
  rcases lt_trichotomy c progs.length with hlt | rfl | hgt
  · rw [List.getElem?_append_left hlt, List.getElem?_append_left hlt]
  · rw [List.getElem?_concat_length, List.getElem?_concat_length]
    exact h
  · have hout (r : Program) : (progs ++ [r])[c]? = none := by
      refine List.getElem?_eq_none ?_
      rw [length_append, length_singleton]
      exact hgt
    rw [hout, hout]

theorem modify_concat {α : Type} (l : List α) (a : α) (f : α → α) :
    (l ++ [a]).modify l.length f = l ++ [f a] := by
  induction l with
  | nil => rfl
  | cons c l ih => exact congrArg (c :: ·) ih

/-- **The epilog** adds the program itself to the list, and places the variables. -/
theorem epilog_eq (hlt : ∀ c ∈ b.inherits.map Inherit.prog, c < progs.length)
    (hlen : b.inherits.length + 1 < 65536) (hn : n < 65536)
    (hextent : Packing.extent (sizes progs) (b.inherits.map Inherit.prog) < 65536) :
    ∃ p, epilog progs b n = some p ∧ p.list = b.inherits.map Inherit.prog ++ [progs.length] ∧
      p.numInherited = p.list.length ∧ p.numVariables = n ∧ ∀ e ∈ p.inherit,
        e.variableIndexOffset = Packing.place (sizes (progs ++ [p])) p.list e.prog := by
  obtain ⟨ms, hms⟩ : ∃ ms, b.inherits.map Inherit.prog ++ [progs.length] = ms := ⟨_, rfl⟩
  have hmslen : ms.length = b.inherits.length + 1 := by
    rw [← hms, length_append, length_map]
    rfl
  obtain ⟨prog, hprog⟩ : ∃ prog : Program, prog = ⟨n, b.inherits.length + 1,
    b.inherits ++ [⟨progs.length, "this", 0, 0⟩]⟩ := ⟨_, rfl⟩
  have hstart : Laying (progs ++ [prog]) ms n 0 (prog, 0) := by
    refine ⟨?_, ?_, ?_, rfl, fun k hk ↦ absurd hk (Nat.not_lt_zero k)⟩
    · rw [hprog, Program.list, map_append, ← hms]
      rfl
    · rw [hprog, hmslen]
    · rw [hprog]
  have hprogs : ∀ q ∈ ms, q < (progs ++ [prog]).length := by
    intro q hq
    rw [← hms, mem_append, mem_singleton] at hq
    rw [length_append, length_singleton]
    rcases hq with hq | rfl
    · exact (hlt q hq).trans (Nat.lt_succ_self _)
    · exact Nat.lt_succ_self _
  have hsizes : Packing.extent (sizes (progs ++ [prog])) (b.inherits.map Inherit.prog) < 65536 := by
    rwa [Packing.extent_congr fun c hc ↦ sizes_append (hlt c hc)]
  have hplace : ∀ q ∈ ms, Packing.place (sizes (progs ++ [prog])) ms q < 65536 := by
    intro q hq
    rw [← hms] at hq ⊢
    by_cases hin : q ∈ b.inherits.map Inherit.prog
    · rw [Packing.place_append_of_mem hin]
      exact (Nat.le_add_right _ _).trans_lt ((Packing.place_add_le hin).trans_lt hsizes)
    · obtain rfl : q = progs.length := by simpa [hin] using hq
      rwa [Packing.place_append_of_notMem hin]
  obtain ⟨⟨p, ix⟩, hrun, hp⟩ := hstart.run hprogs hplace le_rfl
  refine ⟨p, ?_, hp.list.trans hms.symm, hp.numInherited.trans (by rw [hp.list]), hp.numVariables,
    ?_⟩
  · have hmod : (b.inherits ++ [⟨0, "this", 0, 0⟩] : List Inherit).length % 65536 =
        b.inherits.length + 1 := by
      rw [length_append, length_singleton, Nat.mod_eq_of_lt hlen]
    simp only [epilog, hmod, Nat.mod_eq_of_lt hn, Nat.add_sub_cancel, modify_concat]
    rw [if_neg (Nat.succ_ne_zero _), ← hprog, ← hmslen, hrun]
    rfl
  · intro e he
    obtain ⟨k, hk, hget⟩ := mem_iff_getElem.1 he
    have hklt : k < ms.length := by
      have hlist : p.list = ms := hp.list
      rwa [← hlist, Program.list, length_map]
    have hnum : p.numVariables = prog.numVariables := by rw [hp.numVariables, hprog]
    rw [hp.offset k hklt e (List.getElem?_eq_some_iff.2 ⟨hk, hget⟩), sizes_concat hnum, hp.list]

/-- The programs that have been compiled. -/
structure Compiled (srcs : List Source) (progs : List Program) : Prop where
  sound : ∀ d p, progs[d]? = some p → Sound progs d p
  list : progs.map Program.list = lists srcs
  numVariables : progs.map Program.numVariables = srcs.map Source.numVariables

theorem Compiled.length_eq (h : Compiled srcs progs) : progs.length = srcs.length := by
  have := congrArg List.length h.numVariables
  rwa [length_map, length_map] at this

theorem Compiled.members_eq (h : Compiled srcs progs) (c : ℕ) :
    members progs c = (lists srcs).getD c [] := by
  rw [← h.list, getD_eq_getElem?_getD, List.getElem?_map, members]
  cases progs[c]? <;> rfl

theorem Compiled.sizes_eq (h : Compiled srcs progs) :
    sizes progs = fun q ↦ srcs[q]?.elim 0 Source.numVariables := by
  funext q
  have hget : (progs[q]?).map Program.numVariables = (srcs[q]?).map Source.numVariables := by
    rw [← List.getElem?_map, ← List.getElem?_map, h.numVariables]
  rw [sizes]
  cases hp : progs[q]? <;> cases hs : srcs[q]? <;> rw [hp, hs] at hget <;> simp_all

/-- **The inherit statements** add the lists of the programs. -/
theorem Compiled.inheritAll_eq (h : Compiled srcs progs) (hfits : src.Fits srcs) :
    ∃ b, inheritAll progs src = some b ∧
      b.inherits.map Inherit.prog = src.inherited (lists srcs) := by
  have hlen := h.length_eq
  have hinherited : src.inherited (lists srcs) = src.parents.flatMap (members progs) := by
    rw [Source.inherited]
    exact flatMap_congr fun c _ ↦ (h.members_eq c).symm
  have hcopies : List.Forall₂ (fun d (s : Inheritance) ↦ ∀ b, ∃ b',
      copyInherits progs progs.length b s.prog s.type s.name = some b' ∧ Copied progs b [d] b')
      (src.inheritance.map Inheritance.prog) src.inheritance := by
    rw [forall₂_map_left_iff, forall₂_same]
    intro s hs b
    have hlt : s.prog < progs.length := hlen ▸ hfits.prog_lt s hs
    exact copyInherits_eq h.sound hlt hlt b _ _
  rw [hinherited, Source.parents]
  cases hauto : src.auto with
  | none =>
    obtain ⟨b, hrun, hb⟩ := copied_foldlM hcopies ⟨[], true⟩ (.inl rfl)
    refine ⟨b, ?_, ?_⟩
    · simp only [inheritAll, hauto, bind_eq_bind, bind_some]
      exact hrun
    · rw [hb.map_prog]
      by_cases hnone : src.inheritance.isEmpty = true
      · rw [if_pos hnone, isEmpty_iff.1 hnone]
        rfl
      · rw [if_neg hnone]
        rfl
  | some a =>
    have hlt : a < progs.length := hlen ▸ hfits.auto_lt a hauto
    obtain ⟨b₀, hcopy, hb₀⟩ := copyInherits_eq h.sound hlt hlt ⟨[], true⟩ 0 "auto"
    have hstart : inheritAll progs src = src.inheritance.foldlM
        (fun b s ↦ copyInherits progs progs.length b s.prog s.type s.name)
        { b₀ with hasInherited := false } := by
      simp only [inheritAll, hauto, hcopy, bind_eq_bind, bind_some]
    rw [hstart]
    by_cases hnone : src.inheritance.isEmpty = true
    · rw [if_pos hnone, isEmpty_iff.1 hnone]
      exact ⟨_, rfl, hb₀.map_prog⟩
    · -- the auto object gives way
      obtain ⟨b, hrun, hb⟩ := copied_foldlM hcopies { b₀ with hasInherited := false }
        (.inr (by simpa using hnone))
      rw [if_neg hnone]
      exact ⟨b, hrun, hb.map_prog⟩

theorem lists_concat :
    lists (srcs ++ [src]) =
      lists srcs ++ [src.inherited (lists srcs) ++ [(lists srcs).length]] := by
  rw [lists, foldl_append]
  rfl

/-- **One program more.** -/
theorem Compiled.concat (h : Compiled srcs progs) (hfits : src.Fits srcs) :
    ∃ p, compile progs src = some (progs ++ [p]) ∧
      Compiled (srcs ++ [src]) (progs ++ [p]) := by
  obtain ⟨b, hinherit, hb⟩ := h.inheritAll_eq hfits
  have hlen := h.length_eq
  have hparents : ∀ c ∈ src.parents, c < progs.length := by
    intro c hc
    rw [Source.parents] at hc
    split at hc
    · exact hlen ▸ hfits.auto_lt c (mem_toList.1 hc)
    · obtain ⟨s, hs, rfl⟩ := mem_map.1 hc
      exact hlen ▸ hfits.prog_lt s hs
  have hinherited : src.inherited (lists srcs) = src.parents.flatMap (members progs) := by
    rw [Source.inherited]
    exact flatMap_congr fun c _ ↦ (h.members_eq c).symm
  have hlt : ∀ c ∈ src.inherited (lists srcs), c < progs.length := by
    intro c hc
    rw [hinherited] at hc
    obtain ⟨c', hc', hmem⟩ := mem_flatMap.1 hc
    obtain ⟨q, hq⟩ : ∃ q, progs[c']? = some q := ⟨_, List.getElem?_eq_getElem (hparents c' hc')⟩
    rw [Inherits.members_eq hq] at hmem
    exact ((h.sound c' q hq).le c hmem).trans_lt (hparents c' hc')
  have hlists : (lists srcs).length = progs.length := by
    rw [← h.list, length_map]
  obtain ⟨p, hepilog, hlist, hnum, hvars, hoffset⟩ := epilog_eq (n := src.numVariables)
    (by rwa [hb]) (by rw [← length_map (f := Inherit.prog), hb]; exact hfits.length_lt)
    hfits.numVariables_lt (by rw [hb, h.sizes_eq]; exact hfits.inherited_lt)
  rw [hb] at hlist
  refine ⟨p, ?_, ?_, ?_, ?_⟩
  · simp only [compile, hinherit, hepilog, bind_eq_bind, bind_some]
  · intro d q hq
    rcases Nat.lt_or_ge d progs.length with hd | hd
    · rw [List.getElem?_append_left hd] at hq
      exact (h.sound d q hq).append hd
    · obtain ⟨rfl, rfl⟩ : d = progs.length ∧ q = p := by
        have hd' := (List.getElem?_eq_some_iff.1 hq).1
        rw [length_append, length_singleton] at hd'
        obtain rfl : d = progs.length := by omega
        rw [List.getElem?_concat_length] at hq
        exact ⟨rfl, (some.inj hq).symm⟩
      refine ⟨hnum, ⟨src.parents, hfits.parents_le, hparents, ?_⟩, ?_, hoffset⟩
      · rw [hlist, hinherited,
          flatMap_congr fun c hc ↦ (members_append (hparents c hc)).symm]
      · intro c hc
        rw [hlist, mem_append, mem_singleton] at hc
        rcases hc with hc | rfl
        · exact (hlt c hc).le
        · exact le_rfl
  · rw [map_append, h.list, lists_concat, hlists, ← hlist]
    rfl
  · rw [map_append, map_append, h.numVariables, map_singleton, map_singleton,
      hvars]

theorem Fits.compiled (h : Fits srcs) : ∃ progs, compileAll srcs = some progs ∧
    Compiled srcs progs := by
  induction h with
  | nil => exact ⟨[], rfl, by simp, rfl, rfl⟩
  | @concat srcs src _ hfits ih =>
    obtain ⟨progs, hrun, hprogs⟩ := ih
    obtain ⟨p, hcompile, hp⟩ := hprogs.concat hfits
    refine ⟨progs ++ [p], ?_, hp⟩
    rw [compileAll, foldlM_append, ← compileAll, hrun]
    simp only [foldlM_cons, foldlM_nil, hcompile, bind_eq_bind, bind_some]
    rfl

theorem Sound.disjoint (h : Sound progs d p) {e f : Inherit} (he : e ∈ p.inherit)
    (hf : f ∈ p.inherit) (hne : e.prog ≠ f.prog) :
    e.variableIndexOffset + sizes progs e.prog ≤ f.variableIndexOffset ∨
      f.variableIndexOffset + sizes progs f.prog ≤ e.variableIndexOffset := by
  rw [h.offset e he, h.offset f hf]
  exact Packing.place_disjoint (mem_map_of_mem he) (mem_map_of_mem hf) hne

theorem Sound.shared (h : Sound progs d p) : Shared progs p where
  same e he f hf hprog := by rw [h.offset e he, h.offset f hf, hprog]
  exact e he f hf hepos hfpos hoffset := by
    by_contra hne
    have := h.disjoint he hf hne
    omega

theorem Compiled.numVar_eq (h : Compiled srcs progs) (hp : progs[d]? = some p) :
    p.numVar = some (Packing.extent (sizes progs) p.list) := by
  have hsound := h.sound d p hp
  obtain ⟨ds, -, hlt, hlist⟩ := hsound.parents
  obtain ⟨e, he, rfl⟩ := hsound.inheritAt_last
  have hmem : e ∈ p.inherit := by
    rw [Program.inheritAt] at he
    split at he
    · exact absurd he nofun
    · exact mem_of_getElem? he
  -- no program that it inherits inherits it
  have hnew : e.prog ∉ ds.flatMap (members progs) := by
    intro hin
    obtain ⟨c, hc, hmem⟩ := mem_flatMap.1 hin
    have hclt := (hlt c hc).trans (List.getElem?_eq_some_iff.1 hp).1
    obtain ⟨q, hq⟩ : ∃ q, progs[c]? = some q := ⟨_, List.getElem?_eq_getElem hclt⟩
    rw [Inherits.members_eq hq] at hmem
    exact absurd (hlt c hc) (not_lt.2 ((h.sound c q hq).le _ hmem))
  have hsize : sizes progs e.prog = p.numVariables := by
    rw [sizes, hp]
    rfl
  rw [Program.numVar, he, map_some, hsound.offset e hmem, hlist,
    Packing.place_append_of_notMem hnew, Packing.extent_concat_of_notMem hnew, hsize, Nat.add_comm]

theorem Compiled.tiled (h : Compiled srcs progs) (hp : progs[d]? = some p) : Tiled progs p where
  disjoint e he f hf hne := (h.sound d p hp).disjoint he hf hne
  numVar := h.numVar_eq hp
  covered n hn x := by
    obtain rfl := some.inj ((h.numVar_eq hp).symm.trans hn)
    rw [Packing.lt_extent_iff]
    have hsound := h.sound d p hp
    refine ⟨fun ⟨c, hc, hx⟩ ↦ ?_, fun ⟨e, he, hx⟩ ↦ ⟨e.prog, mem_map_of_mem he, ?_⟩⟩
    · obtain ⟨e, he, rfl⟩ := mem_map.1 hc
      exact ⟨e, he, by rwa [hsound.offset e he]⟩
    · rwa [← hsound.offset e he]

/-- All programs of a graph are compiled. The list of a program is made of the lists of those that
it inherits, and itself; those of its programs that define variables share them exactly when they
are the same, different ones have different variables, and together these are the variables of an
object. -/
theorem compileAll_shared (srcs : List Source) (h : Fits srcs) : ∃ progs,
    compileAll srcs = some progs ∧ progs.map Program.list = lists srcs ∧
      progs.map Program.numVariables = srcs.map Source.numVariables ∧
      ∀ p ∈ progs, Shared progs p ∧ Tiled progs p := by
  obtain ⟨progs, hrun, hprogs⟩ := h.compiled
  refine ⟨progs, hrun, hprogs.list, hprogs.numVariables, fun p hp ↦ ?_⟩
  obtain ⟨d, hd⟩ := mem_iff_getElem?.1 hp
  exact ⟨(hprogs.sound d p hd).shared, hprogs.tiled hd⟩

/-- A program, two that inherit it, and one that inherits these, one of them twice. -/
def diamond : List Source :=
  [⟨none, [], 2⟩, ⟨none, [⟨0, 0, "base"⟩], 1⟩, ⟨none, [⟨0, 0, "base"⟩], 3⟩,
    ⟨some 0, [⟨0, 1, "left"⟩, ⟨0, 2, "right"⟩, ⟨0, 1, "again"⟩], 1⟩]

theorem fits_diamond : Fits diamond := by
  refine @Fits.concat (diamond.take 3) _ (@Fits.concat (diamond.take 2) _
    (@Fits.concat (diamond.take 1) _ (@Fits.concat [] _ .nil ?_) ?_) ?_) ?_
  all_goals exact ⟨by decide, by decide, by decide, by decide, by decide, by decide⟩

theorem compileAll_shared_diamond : Fits diamond ∧ ∃ progs,
    compileAll diamond = some progs ∧ progs.map Program.list = lists diamond ∧
      progs.map Program.numVariables = diamond.map Source.numVariables ∧
      ∀ p ∈ progs, Shared progs p ∧ Tiled progs p :=
  ⟨fits_diamond, compileAll_shared diamond fits_diamond⟩

/-- A program without variables, and one that inherits it. -/
def withoutVariables : List Source :=
  [⟨none, [], 0⟩, ⟨none, [⟨0, 0, "empty"⟩], 1⟩]

/-- A program without variables begins where the next one does. -/
theorem not_sharedExactly : ¬∀ srcs, Fits srcs → ∃ progs, compileAll srcs = some progs ∧
    ∀ p ∈ progs, SharedExactly p ∧ Tiled progs p := by
  intro h
  have hfits : Fits withoutVariables := by
    refine @Fits.concat (withoutVariables.take 1) _ (@Fits.concat [] _ .nil ?_) ?_
    all_goals exact ⟨by decide, by decide, by decide, by decide, by decide, by decide⟩
  obtain ⟨progs, hrun, hall⟩ := h withoutVariables hfits
  have hcompiled : compileAll withoutVariables = some
      [⟨0, 1, [⟨0, "this", 0, 0⟩]⟩, ⟨1, 2, [⟨0, "empty", 0, 0⟩, ⟨1, "this", 0, 0⟩]⟩] := by
    decide
  obtain rfl := some.inj (hcompiled.symm.trans hrun)
  have hexact := (hall _ (mem_cons_of_mem _ mem_cons_self)).1
  exact absurd ((hexact _ mem_cons_self _ (mem_cons_of_mem _ mem_cons_self)).1 rfl)
    (by decide)

end Compiling

end Lpmud.Inherits
