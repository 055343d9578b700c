import Mathlib.Data.List.Count
import Lpmud.Lib.TransitionSystem
import Lpmud.Svalue
import Mathlib.Algebra.Group.Nat.Defs

/-!
# Reference counts

Strings, arrays, mappings and functions are storage that is shared by counting references: the
counters of `mstring.h`, `array.h`, `mapping.h` and `struct closure` have 16 bits, and a counter
that has wrapped around to 0 is **sticky**: it is neither counted up nor down any more, and the
storage stays for good.

A state says what is allocated and with which counter, and, as a ghost, every reference that is
outstanding together with who holds it: a variable or the stack, or the storage of an array, a
mapping or a function that holds it as one of its elements. Storage that is released gives up the
references it holds: the loop of `free_vector` (`free_apairs`, `free_closure`) frees them one by
one.

The counter of a function is a *signed* short, and `free_closure` compares it with `> 0`: the wrap
of the other counters at 2 ^ 16 is for it a change of sign at 2 ^ 15, which the convention of the
sticky 0 does not see. `references_kept` says that this is the only way to lose storage in use.
-/

namespace Lpmud.RefCount

open Function List
open Option (bind_eq_some_iff ite_none_right_eq_some some.inj)

/-! ### The counters -/

/-- A counter of 16 bits. -/
abbrev Counter : Type := BitVec 16

def incref (x : Counter) : Counter :=
  if x != 0 then x + 1 else x

def decref (x : Counter) : Counter :=
  if x != 0 then x - 1 else x

def referenceMstring (count : Counter) : Counter :=
  if count != 0 then count + 1 else count

def referenceSstring (count : Counter) : Counter :=
  if count != 0 then count + 1 else count

/-- `free_mstring`: the counter it leaves, and whether the storage is released. -/
def freeMstring (count : Counter) : Counter × Bool :=
  if count != 0 then (count - 1, count - 1 == 0) else (count, false)

def freeSstring (count : Counter) : Counter × Bool :=
  if count != 0 then (count - 1, count - 1 == 0) else (count, false)

/-- `free_vector`; the counter is unsigned. -/
def freeVector (ref : Counter) : Counter × Bool :=
  if ref == 0 then (ref, false) else (ref - 1, !decide (0 < (ref - 1).toNat))

/-- `free_mapping`; the counter is unsigned. -/
def freeMapping (ref : Counter) : Counter × Bool :=
  if ref == 0 then (ref, false) else (ref - 1, !decide (0 < (ref - 1).toNat))

/-- `free_closure`; the counter is signed. -/
def freeClosure (ref : Counter) : Counter × Bool :=
  if ref == 0 then (ref, false) else (ref - 1, !decide (0 < (ref - 1).toInt))

/-- What storage is for. `empty` is the function `FUN_EMPTY` that marks an empty argument slot. -/
inductive Kind where
  | sstring | mstring | vector | mapping | closure | empty
  deriving DecidableEq

/-- One more reference. -/
def Kind.reference : Kind → Counter → Counter
  | .sstring => referenceSstring
  | .mstring => referenceMstring
  | .vector | .mapping | .closure | .empty => incref

/-- One reference less. `free_closure` leaves a function of the type `FUN_EMPTY` alone. -/
def Kind.free : Kind → Counter → Counter × Bool
  | .sstring => freeSstring
  | .mstring => freeMstring
  | .vector => freeVector
  | .mapping => freeMapping
  | .closure => freeClosure
  | .empty => fun ref ↦ (ref, false)

/-! ### Storage and references -/

/-- Allocated storage. -/
structure Cell where
  kind : Kind
  ref : Counter
  deriving DecidableEq

/-- Who holds a reference: a variable, the stack or the program, or allocated storage. -/
inductive Holder where
  | external
  | cell (a : Addr)
  deriving DecidableEq

/-- What is allocated, and the outstanding references. -/
structure State where
  cell : Addr → Option Cell
  refs : List (Holder × Addr)

namespace State

/-- The number of outstanding references. -/
def outstanding (s : State) (a : Addr) : ℕ :=
  (s.refs.map Prod.snd).count a

/-- The counter of `a` is written, and the references to `a` change. -/
def write (s : State) (a : Addr) (kind : Kind) (ref : Counter) (refs : List (Holder × Addr)) :
    State where
  cell := update s.cell a (some ⟨kind, ref⟩)
  refs := refs

/-- The storage is released; what it held is now in the hands of the loop that frees it. -/
def release (s : State) (a : Addr) : State where
  cell := update s.cell a none
  refs := s.refs.map fun r ↦ if r.1 = .cell a then (.external, r.2) else r

/-- A holder that can hold references. -/
def Holds (s : State) : Holder → Prop
  | .external => True
  | .cell a => (s.cell a).isSome

instance (s : State) (h : Holder) : Decidable (s.Holds h) :=
  match h with
  | .external => .isTrue trivial
  | .cell a => inferInstanceAs (Decidable ((s.cell a).isSome = true))

end State

/-- What is done with references. -/
inductive Op where
  /-- Storage is allocated, with one reference to it. -/
  | alloc (kind : Kind) (a : Addr)
  /-- Whoever can see a reference makes another one. -/
  | reference (h : Holder) (a : Addr)
  /-- A reference goes from one holder to another, uncounted. -/
  | move (h h' : Holder) (a : Addr)
  /-- A reference is given up by `DECREF`, which never releases. -/
  | decref (h : Holder) (a : Addr)
  /-- A reference is given up. -/
  | free (h : Holder) (a : Addr)

/-- One step. Only a reference that is outstanding is copied, moved or given up. -/
def step (s : State) : Op → Option State
  | .alloc kind a =>
    if s.cell a = none then
      some (s.write a kind 1 ((.external, a) :: s.refs))
    else none
  | .reference h a =>
    if 0 < s.outstanding a ∧ s.Holds h then do
      let c ← s.cell a
      some (s.write a c.kind (c.kind.reference c.ref) ((h, a) :: s.refs))
    else none
  | .move h h' a =>
    if (h, a) ∈ s.refs ∧ s.Holds h' then
      some { s with refs := (h', a) :: s.refs.erase (h, a) }
    else none
  | .decref h a =>
    if (h, a) ∈ s.refs then do
      let c ← s.cell a
      some (s.write a c.kind (decref c.ref) (s.refs.erase (h, a)))
    else none
  | .free h a =>
    if (h, a) ∈ s.refs then do
      let c ← s.cell a
      let s' := s.write a c.kind (c.kind.free c.ref).1 (s.refs.erase (h, a))
      some (if (c.kind.free c.ref).2 then s'.release a else s')
    else none

/-- The system: nothing is allocated at the beginning. -/
def refCount : TransitionSystem State Op where
  Init s := (∀ a, s.cell a = none) ∧ s.refs = []
  Step s op s' := step s op = some s'

/-- **No storage in use is free**: every outstanding reference is to allocated storage. -/
def Safe (s : State) : Prop :=
  ∀ a, 0 < s.outstanding a → (s.cell a).isSome

/-- The step does not free a reference to a function whose counter, read as unsigned, is more than
2 ^ 15. -/
def Guard (s : State) : Op → Prop
  | .free _ a => ∀ c, s.cell a = some c → c.kind = .closure → c.ref.toNat ≤ 2 ^ 15
  | _ => True

/-! ### What the counters do -/

@[simp]
theorem reference_eq (kind : Kind) (ref : Counter) : kind.reference ref = incref ref := by
  cases kind <;> rfl

/-- Whatever is released or not, all `free` functions count down as `DECREF` does. -/
theorem free_fst {kind : Kind} (hkind : kind ≠ .empty) (ref : Counter) :
    (kind.free ref).1 = decref ref := by
  cases kind with
  | sstring | mstring => simp only [Kind.free, freeSstring, freeMstring, decref]; split <;> rfl
  | vector | mapping | closure =>
    simp only [Kind.free, freeVector, freeMapping, freeClosure, decref, bne_iff_ne, ne_eq, ite_not,
      beq_iff_eq]
    split <;> rfl
  | empty => exact absurd rfl hkind

/-- **When storage is released**: when its counter goes from 1 to 0, and, for a function, also when
its counter is negative afterwards. -/
theorem free_snd_iff (kind : Kind) (ref : Counter) :
    (kind.free ref).2 = true ↔
      kind ≠ .empty ∧ (ref = 1 ∨ kind = .closure ∧ 2 ^ 15 < ref.toNat) := by
  by_cases h0 : ref = 0
  · subst h0
    cases kind <;> decide
  cases kind with
  | sstring | mstring =>
    have hlast : ref - 1 = 0 ↔ ref = 1 := by bv_omega
    simpa only [Kind.free, freeSstring, freeMstring, bne_iff_ne, ne_eq, h0, not_false_eq_true,
      if_true, beq_iff_eq, reduceCtorEq, true_and, false_and, or_false] using hlast
  | vector | mapping =>
    have hlast : ¬0 < (ref - 1).toNat ↔ ref = 1 := by bv_omega
    simpa only [Kind.free, freeVector, freeMapping, beq_iff_eq, h0, if_false, Bool.not_eq_true',
      decide_eq_false_iff_not, ne_eq, reduceCtorEq, not_false_eq_true, true_and, false_and,
      or_false] using hlast
  | closure =>
    have hsign : ¬0 < (ref - 1).toInt ↔ ref = 1 ∨ 2 ^ 15 < ref.toNat := by
      rw [BitVec.toInt_eq_toNat_cond]
      split <;> bv_omega
    simpa only [Kind.free, freeClosure, beq_iff_eq, h0, if_false, Bool.not_eq_true',
      decide_eq_false_iff_not, ne_eq, reduceCtorEq, not_false_eq_true, true_and] using hsign
  | empty => simp only [Kind.free, ne_eq, not_true_eq_false, false_and, Bool.false_eq_true]

/-! ### Counting the outstanding references -/

section Outstanding

variable {s : State} {h h' : Holder} {a b : Addr}

@[simp]
theorem write_cell_self (kind : Kind) (ref : Counter) (refs : List (Holder × Addr)) :
    (s.write a kind ref refs).cell a = some ⟨kind, ref⟩ :=
  update_self ..

theorem write_cell_of_ne (kind : Kind) (ref : Counter) (refs : List (Holder × Addr))
    (hb : b ≠ a) : (s.write a kind ref refs).cell b = s.cell b :=
  update_of_ne hb ..

@[simp]
theorem release_cell_self : (s.release a).cell a = none :=
  update_self ..

theorem release_cell_of_ne (hb : b ≠ a) : (s.release a).cell b = s.cell b :=
  update_of_ne hb ..

theorem outstanding_cons (kind : Kind) (ref : Counter) :
    (s.write a kind ref ((h, a) :: s.refs)).outstanding b =
      s.outstanding b + if b = a then 1 else 0 := by
  simp only [State.outstanding, State.write, map_cons, count_cons, beq_iff_eq,
    @eq_comm _ a]

theorem outstanding_erase (kind : Kind) (ref : Counter) (hr : (h, a) ∈ s.refs) :
    s.outstanding b =
      (s.write a kind ref (s.refs.erase (h, a))).outstanding b + if b = a then 1 else 0 := by
  have hperm := ((perm_cons_erase hr).map Prod.snd).count_eq b
  simp only [State.outstanding, State.write, hperm, map_cons, count_cons, beq_iff_eq,
    @eq_comm _ a]

theorem outstanding_move (hr : (h, a) ∈ s.refs) :
    State.outstanding { s with refs := (h', a) :: s.refs.erase (h, a) } b = s.outstanding b := by
  have hperm := ((perm_cons_erase hr).map Prod.snd).count_eq b
  simp only [State.outstanding, hperm, map_cons, count_cons]

@[simp]
theorem outstanding_release : (s.release a).outstanding b = s.outstanding b := by
  have hsnd : ∀ r : Holder × Addr,
      (if r.1 = .cell a then (.external, r.2) else r : Holder × Addr).2 = r.2 := fun r ↦ by
    split <;> rfl
  simp only [State.outstanding, State.release, map_map, Function.comp_def, hsnd]

end Outstanding

/-! ### The invariant -/

/-- Counters count, unless they are sticky, and no storage in use is free. -/
structure Inv (s : State) : Prop where
  counted : ∀ a c, s.cell a = some c → c.kind ≠ .empty →
    c.ref = 0 ∨ c.ref.toNat = s.outstanding a
  safe : Safe s

namespace Inv

variable {s : State} {h : Holder} {a : Addr} {c : Cell} {kind : Kind} {ref : Counter}
  {refs : List (Holder × Addr)}

theorem write (hs : Inv s)
    (hout : ∀ b, b ≠ a → (s.write a kind ref refs).outstanding b = s.outstanding b)
    (hcount : kind ≠ .empty → ref = 0 ∨ ref.toNat = (s.write a kind ref refs).outstanding a) :
    Inv (s.write a kind ref refs) := by
  refine ⟨fun b c hc hkind ↦ ?_, fun b hb ↦ ?_⟩ <;> rcases eq_or_ne b a with rfl | hba
  · rw [write_cell_self] at hc
    obtain rfl := some.inj hc
    exact hcount hkind
  · rw [write_cell_of_ne _ _ _ hba] at hc
    rw [hout b hba]
    exact hs.counted b c hc hkind
  · rw [write_cell_self]
    rfl
  · rw [hout b hba] at hb
    rw [write_cell_of_ne _ _ _ hba]
    exact hs.safe b hb

theorem release (hs : Inv s) (ha : s.outstanding a = 0) : Inv (s.release a) := by
  refine ⟨fun b c hc hkind ↦ ?_, fun b hb ↦ ?_⟩ <;> rw [outstanding_release] at * <;>
    rcases eq_or_ne b a with rfl | hba
  · rw [release_cell_self] at hc
    cases hc
  · rw [release_cell_of_ne hba] at hc
    exact hs.counted b c hc hkind
  · omega
  · rw [release_cell_of_ne hba]
    exact hs.safe b hb

theorem counted_incref {n : ℕ} (hn : ref = 0 ∨ ref.toNat = n) :
    incref ref = 0 ∨ (incref ref).toNat = n + 1 := by
  rcases hn with rfl | rfl
  · exact .inl rfl
  · by_cases h0 : ref = 0
    · simp [incref, h0]
    · rw [incref, if_pos (by simpa using h0)]
      bv_omega

theorem counted_decref {n : ℕ} (hn : ref = 0 ∨ ref.toNat = n + 1) :
    decref ref = 0 ∨ (decref ref).toNat = n := by
  rcases hn with rfl | hn
  · exact .inl rfl
  · have h0 : ref ≠ 0 := by
      rintro rfl
      simp at hn
    rw [decref, if_pos (by simpa using h0)]
    bv_omega

theorem make (hs : Inv s) (hc : s.cell a = some c) :
    Inv (s.write a c.kind (incref c.ref) ((h, a) :: s.refs)) := by
  refine hs.write (fun b hb ↦ ?_) fun hkind ↦ ?_
  · rw [outstanding_cons, if_neg hb, Nat.add_zero]
  · rw [outstanding_cons, if_pos rfl]
    exact counted_incref (hs.counted a c hc hkind)

/-- A reference is given up: the counter is counted down as by `DECREF`, or, if the storage is never
released, in any way. -/
theorem giveUp (hs : Inv s) (hr : (h, a) ∈ s.refs) (hc : s.cell a = some c)
    (href : c.kind ≠ .empty → ref = decref c.ref) :
    Inv (s.write a c.kind ref (s.refs.erase (h, a))) := by
  have hout := fun b ↦ outstanding_erase (b := b) c.kind ref hr
  refine hs.write (fun b hb ↦ ?_) fun hkind ↦ ?_
  · simpa [hb] using (hout b).symm
  · rw [href hkind] at hout ⊢
    refine counted_decref ?_
    have := hs.counted a c hc hkind
    rwa [hout a, if_pos rfl] at this

end Inv

theorem outstanding_of_last {s : State} {h : Holder} {a : Addr} {c : Cell} {ref : Counter}
    (hs : Inv s) (hr : (h, a) ∈ s.refs) (hc : s.cell a = some c) (hkind : c.kind ≠ .empty)
    (hone : c.ref = 1) : (s.write a c.kind ref (s.refs.erase (h, a))).outstanding a = 0 := by
  have hout := outstanding_erase (b := a) c.kind ref hr
  rw [if_pos rfl] at hout
  rcases hs.counted a c hc hkind with h0 | hcount
  · exact absurd (hone.symm.trans h0) (by decide)
  · rw [hone, hout] at hcount
    simpa using hcount.symm

theorem inv_step {s s' : State} {op : Op} (hs : Inv s) (hok : Guard s op)
    (h : step s op = some s') : Inv s' := by
  cases op with
  | alloc kind a =>
    obtain ⟨ha, ⟨⟩⟩ := ite_none_right_eq_some.1 h
    have h0 : s.outstanding a = 0 := by
      by_contra hpos
      simpa [ha] using hs.safe a (Nat.pos_of_ne_zero hpos)
    refine hs.write (fun b hb ↦ ?_) fun _ ↦ .inr ?_
    · rw [outstanding_cons, if_neg hb, Nat.add_zero]
    · rw [outstanding_cons, if_pos rfl, h0]
      rfl
  | reference h a =>
    obtain ⟨_, hs'⟩ := ite_none_right_eq_some.1 h
    obtain ⟨c, hc, ⟨⟩⟩ := bind_eq_some_iff.1 hs'
    rw [reference_eq]
    exact hs.make hc
  | move h h' a =>
    obtain ⟨⟨hr, _⟩, ⟨⟩⟩ := ite_none_right_eq_some.1 h
    refine ⟨fun b c hc hkind ↦ ?_, fun b hb ↦ ?_⟩ <;> rw [outstanding_move hr] at *
    · exact hs.counted b c hc hkind
    · exact hs.safe b hb
  | decref h a =>
    obtain ⟨hr, hs'⟩ := ite_none_right_eq_some.1 h
    obtain ⟨c, hc, ⟨⟩⟩ := bind_eq_some_iff.1 hs'
    exact hs.giveUp hr hc fun _ ↦ rfl
  | free h a =>
    obtain ⟨hr, hs'⟩ := ite_none_right_eq_some.1 h
    obtain ⟨c, hc, ⟨⟩⟩ := bind_eq_some_iff.1 hs'
    have hinv := hs.giveUp hr hc fun hkind ↦ free_fst hkind c.ref
    split
    case isFalse => exact hinv
    case isTrue hfree =>
      refine hinv.release ?_
      rcases (free_snd_iff c.kind c.ref).1 hfree with ⟨hkind, hone | ⟨hclosure, hneg⟩⟩
      · exact outstanding_of_last hs hr hc hkind hone
      · have := hok c hc hclosure
        omega

theorem not_safe_of_not_guard {s s' : State} {op : Op} (hs : Inv s) (hok : ¬Guard s op)
    (h : step s op = some s') : ¬Safe s' := by
  cases op with
  | alloc | reference | move | decref => exact absurd trivial hok
  | free h a =>
    obtain ⟨hr, hs'⟩ := ite_none_right_eq_some.1 h
    obtain ⟨c, hc, ⟨⟩⟩ := bind_eq_some_iff.1 hs'
    obtain ⟨c', hc', hclosure, hneg⟩ : ∃ c', s.cell a = some c' ∧ c'.kind = .closure ∧
        2 ^ 15 < c'.ref.toNat := by simpa [Guard] using hok
    obtain rfl := some.inj (hc'.symm.trans hc)
    have hkind : c'.kind ≠ .empty := fun h ↦ nomatch hclosure.symm.trans h
    have hfree := (free_snd_iff c'.kind c'.ref).2 ⟨hkind, .inr ⟨hclosure, hneg⟩⟩
    have hout := outstanding_erase (b := a) c'.kind (c'.kind.free c'.ref).1 hr
    rw [if_pos rfl] at hout
    have hcount := (hs.counted a c' hc hkind).resolve_left (by rintro h0; simp [h0] at hneg)
    rw [if_pos hfree]
    intro hsafe
    have hcell := hsafe a (by rw [outstanding_release]; omega)
    rw [release_cell_self] at hcell
    cases hcell

/-! ### Whole runs -/

theorem inv_of_reachable {s : State} (hs : refCount.ReachableVia Guard s) : Inv s := by
  refine hs.invariant (fun s hinit ↦ ⟨fun a c hc ↦ ?_, fun a ha ↦ ?_⟩)
    fun s op s' hs hok h ↦ inv_step hs hok h
  · rw [hinit.1 a] at hc
    cases hc
  · simp [State.outstanding, hinit.2] at ha

/-- **Reference counts never free storage in use**, as long as no reference to a function is freed
while the counter of the function is in the upper half of its range, which the signed counter has
for negative. Such a step always releases storage in use. -/
theorem references_kept {s : State} (hs : refCount.ReachableVia Guard s) :
    Safe s ∧ ∀ op s', refCount.Step s op s' → (Safe s' ↔ Guard s op) := by
  refine ⟨(inv_of_reachable hs).safe, fun op s' h ↦ ⟨fun hsafe ↦ ?_, fun hok ↦ ?_⟩⟩
  · by_contra hok
    exact not_safe_of_not_guard (inv_of_reachable hs) hok h hsafe
  · exact (inv_step (inv_of_reachable hs) hok h).safe

/-- The state before anything is allocated. -/
def emptyState : State where
  cell _ := none
  refs := []

/-- A function and a vector that holds it; there are two references to the vector, and one more to
the function, which is freed. -/
def sharing : List Op :=
  [.alloc .closure 0, .alloc .vector 1, .reference (.cell 1) 0, .reference .external 1,
    .free .external 0]

instance (s : State) (op : Op) : Decidable (Guard s op) := by
  cases op with
  | free h a =>
    exact inferInstanceAs (Decidable (∀ c ∈ s.cell a, c.kind = .closure → c.ref.toNat ≤ 2 ^ 15))
  | _ => exact .isTrue trivial

theorem sharing_refs : (TransitionSystem.run step Guard emptyState sharing).any (fun s ↦
    s.cell 0 = some ⟨.closure, 1⟩ && s.cell 1 = some ⟨.vector, 2⟩ &&
      s.refs.length = 3) = true := by
  decide

/-- One of the references to the vector can be freed. -/
theorem references_kept_sharing : ∃ s : State, s.cell 0 = some ⟨.closure, 1⟩ ∧
    s.cell 1 = some ⟨.vector, 2⟩ ∧ s.refs.length = 3 ∧ Safe s ∧
    ∀ s', refCount.Step s (.free .external 1) s' → Safe s' := by
  obtain ⟨s, hrun, hs⟩ := (Option.any_eq_true _ _).1 sharing_refs
  simp only [Bool.and_eq_true, decide_eq_true_eq] at hs
  have h := references_kept (.run (fun _ _ _ hok h ↦ ⟨hok, h⟩) (.init ⟨fun _ ↦ rfl, rfl⟩) hrun)
  exact ⟨s, hs.1.1, hs.1.2, hs.2, h.1, fun s' hst ↦ (h.2 _ s' hst).2 fun c hc hkind ↦ by
    rw [hs.1.2] at hc
    cases hc
    cases hkind⟩

/-! ### A function with more than 2 ^ 15 references -/

/-- One function, and `n` references to it. -/
def manyReferences (n : ℕ) : State where
  cell := update (fun _ ↦ none) 0 (some ⟨.closure, BitVec.ofNat 16 n⟩)
  refs := List.replicate n (.external, 0)

@[simp]
theorem outstanding_manyReferences (n : ℕ) : (manyReferences n).outstanding 0 = n := by
  simp [State.outstanding, manyReferences]

theorem reachable_manyReferences {n : ℕ} (hn : 0 < n) (hlt : n < 2 ^ 16) :
    refCount.ReachableVia Guard (manyReferences n) := by
  induction n, hn using Nat.le_induction with
  | base =>
    have hinit : refCount.ReachableVia Guard emptyState := .init ⟨fun _ ↦ rfl, rfl⟩
    exact hinit.step (a := .alloc .closure 0) trivial rfl
  | succ n hn ih =>
    have h0 : BitVec.ofNat 16 n ≠ 0 := by bv_omega
    have hcell : (manyReferences n).cell 0 = some ⟨.closure, BitVec.ofNat 16 n⟩ := rfl
    refine (ih (by omega)).step (a := .reference .external 0) trivial ?_
    have hpos : 0 < (manyReferences n).outstanding 0 := (outstanding_manyReferences n).symm ▸ hn
    change step _ _ = _
    rw [step, if_pos ⟨hpos, trivial⟩, hcell]
    simp only [Option.bind_eq_bind, Option.bind_some, reference_eq, incref, bne_iff_ne, ne_eq, h0,
      not_false_eq_true, if_true, State.write, manyReferences, update_idem,
      BitVec.ofNat_add, replicate_succ]
    rfl

/-- Storage in use can be freed: one of 32769 references to a function is given up, and the function
is gone. -/
theorem not_references_kept : ¬∀ s, refCount.Reachable s → Safe s := by
  intro hall
  have hs := reachable_manyReferences (n := 32769) (by decide) (by decide)
  have hok : ¬Guard (manyReferences 32769) (.free .external 0) := fun hok ↦
    absurd (hok ⟨.closure, 32769⟩ rfl rfl) (by decide)
  have hr : (Holder.external, 0) ∈ (manyReferences 32769).refs :=
    mem_replicate.2 ⟨by decide, rfl⟩
  obtain ⟨s', hstep⟩ : ∃ s', step (manyReferences 32769) (.free .external 0) = some s' := by
    rw [step, if_pos hr]
    exact ⟨_, rfl⟩
  exact not_safe_of_not_guard (inv_of_reachable hs) hok hstep
    (hall s' ((hs.mono fun _ _ _ ↦ trivial).step trivial hstep))

end Lpmud.RefCount
