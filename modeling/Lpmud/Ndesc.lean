import Lpmud.Lib.TransitionSystem
import Mathlib.Data.Finset.Card
import Mathlib.Data.List.Sort

/-!
# Network descriptors

The network descriptor manager of `ndesc.c`: the list of attached descriptors with the three
`fd_set`s that `select()` is called with, the functions that change them, and one pass of
`nd_select` over the list. A pass is a transition system, since between two of its steps a
callback runs that may call `nd_attach`, `nd_detach`, `nd_enable` and `nd_disable` as it
likes: what it does is the label of the step. A callback that runs LPC may also be left by an
error, which jumps to `backend` and drops the rest of the pass: the phase `thrown`.

A descriptor is known by the number of its allocation, which stands for its address; numbers are
given in the order of `nd_append`, so that the list is sorted by them (`Table.sorted`), and a
freed one is not given again. Following a pointer to a freed descriptor is the phase `fault`.

The garbage collection of descriptors behind the pass (`nd_gc`, with `nd_ndesc` and
`nd_do_gc`) and the shutdown methods are not modelled; a pass may start from any table, hence
also from one that they left.

The comment on `nd_select` promises the ready callbacks and then the clean-up callback, if it
has been enabled. The pass stops as soon as it has met as many ready descriptors as `select()`
counted, so clean-up callbacks behind that point are not called (`not_serviced`). With the
conditions of `Careful` it keeps the promise (`serviced`): `turned` are the descriptors that
have had their turn, `due` what they were due when they had it, and `called` what was called.
-/

namespace Lpmud.Ndesc

open List

/-! ### Descriptors -/

/-- The callbacks of a descriptor, in the order in which `nd_select` considers them. -/
inductive Kind where
  | x
  | w
  | r
  | c
  deriving DecidableEq, Repr

instance : Fintype Kind :=
  ⟨{.x, .w, .r, .c}, fun k ↦ by cases k <;> decide⟩

abbrev ND_R : BitVec 32 := 1
abbrev ND_W : BitVec 32 := 2
abbrev ND_X : BitVec 32 := 4
abbrev ND_C : BitVec 32 := 8
abbrev ND_MASK : BitVec 32 := 15

/-- The bit of a callback in `nd_mask`. -/
def Kind.bit : Kind → BitVec 32
  | x => ND_X
  | w => ND_W
  | r => ND_R
  | c => ND_C

/-- A network descriptor (`ndesc_t`), with callbacks in `F`; `none` is `NULL`. -/
structure Desc (F : Type) where
  /-- The number of the allocation. -/
  addr : ℕ
  ndFd : ℕ
  ndMask : BitVec 32
  ndRfunc : Option F
  ndWfunc : Option F
  ndXfunc : Option F
  ndCfunc : Option F

/-- The three sets of descriptors that `select()` takes and returns. -/
structure FdSets where
  rfds : Finset ℕ
  wfds : Finset ℕ
  xfds : Finset ℕ

namespace FdSets

/-- The set that `select()` knows for a callback; it knows none for clean-up. -/
def of (S : FdSets) : Kind → Finset ℕ
  | .x => S.xfds
  | .w => S.wfds
  | .r => S.rfds
  | .c => ∅

/-- `FD_SET` in the sets that a mask names. -/
def set (S : FdSets) (fd : ℕ) (mask : BitVec 32) : FdSets where
  rfds := if mask &&& ND_R ≠ 0 then insert fd S.rfds else S.rfds
  wfds := if mask &&& ND_W ≠ 0 then insert fd S.wfds else S.wfds
  xfds := if mask &&& ND_X ≠ 0 then insert fd S.xfds else S.xfds

/-- `FD_CLR` in the sets that a mask names. -/
def clr (S : FdSets) (fd : ℕ) (mask : BitVec 32) : FdSets where
  rfds := if mask &&& ND_R ≠ 0 then S.rfds.erase fd else S.rfds
  wfds := if mask &&& ND_W ≠ 0 then S.wfds.erase fd else S.wfds
  xfds := if mask &&& ND_X ≠ 0 then S.xfds.erase fd else S.xfds

/-- What `select()` returns when it leaves these sets: the number of bits in all three. -/
def bits (S : FdSets) : ℕ := S.rfds.card + S.wfds.card + S.xfds.card

end FdSets

namespace Desc

variable {F : Type} (d : Desc F)

/-- The callback function. -/
def func : Kind → Option F
  | .x => d.ndXfunc
  | .w => d.ndWfunc
  | .r => d.ndRfunc
  | .c => d.ndCfunc

/-- A callback is enabled. -/
def Enabled (k : Kind) : Prop := d.ndMask &&& k.bit ≠ 0

instance (k : Kind) : Decidable (d.Enabled k) := inferInstanceAs (Decidable (_ ≠ _))

end Desc

/-! ### The table -/

/-- The state of the manager: the list from `nd_head`, `nd_max_fd` and the three `fd_set`s. -/
structure Table (F : Type) where
  nds : List (Desc F)
  ndMaxFd : ℤ
  fds : FdSets
  /-- The number of the next allocation. -/
  fresh : ℕ
  sorted : (nds.map Desc.addr).Pairwise (· < ·)
  lt_fresh : ∀ d ∈ nds, d.addr < fresh

namespace Table

variable {F : Type} (t : Table F)

def ndInit : Table F where
  nds := []
  ndMaxFd := -1
  fds := ⟨∅, ∅, ∅⟩
  fresh := 0
  sorted := .nil
  lt_fresh := nofun

/-- The addresses of the attached descriptors. -/
def addrs : List ℕ := t.nds.map Desc.addr

/-- What is behind a pointer; `none` for a pointer to a freed descriptor. -/
def find (a : ℕ) : Option (Desc F) := t.nds.find? (·.addr = a)

/-- `nd_next`: the first descriptor behind this one. -/
def ndNext (a : ℕ) : Option ℕ := t.addrs.find? (a < ·)

theorem mem_addrs {a : ℕ} : a ∈ t.addrs ↔ ∃ d ∈ t.nds, d.addr = a :=
  mem_map

theorem find_eq_some {a : ℕ} {d : Desc F} (h : t.find a = some d) : d ∈ t.nds ∧ d.addr = a :=
  ⟨mem_of_find?_eq_some h, by simpa using List.find?_some h⟩

theorem exists_find {a : ℕ} (h : a ∈ t.addrs) : ∃ d, t.find a = some d := by
  obtain ⟨d, hd, rfl⟩ := t.mem_addrs.1 h
  exact Option.isSome_iff_exists.1 (List.find?_isSome.2 ⟨d, hd, by simp⟩)

theorem eq_of_addr_eq {d e : Desc F} (hd : d ∈ t.nds) (he : e ∈ t.nds) (h : d.addr = e.addr) :
    d = e :=
  inj_on_of_nodup_map (t.sorted.imp fun h ↦ Nat.ne_of_lt h) hd he h

/-- In a sorted list what comes before what `find?` finds does not satisfy the predicate, so the
descriptor found is the nearest one behind. -/
theorem le_of_find?_eq_some {l : List ℕ} (hl : l.Pairwise (· < ·)) {p : ℕ → Bool} {n : ℕ}
    (h : l.find? p = some n) {m : ℕ} (hm : m ∈ l) (hp : p m) : n ≤ m := by
  obtain ⟨-, as, bs, rfl, has⟩ := List.find?_eq_some_iff_append.1 h
  obtain hm | hm := mem_append.1 hm
  · exact absurd hp (by simpa using has m hm)
  · obtain rfl | hm := mem_cons.1 hm
    · exact le_rfl
    · have hbs := (pairwise_append.1 hl).2.1
      exact Nat.le_of_lt (rel_of_pairwise_cons hbs hm)

theorem ndNext_eq_some {a n : ℕ} (h : t.ndNext a = some n) :
    n ∈ t.addrs ∧ a < n ∧ ∀ m ∈ t.addrs, a < m → n ≤ m :=
  ⟨mem_of_find?_eq_some h, by simpa using List.find?_some h, fun _ hm ham ↦
    le_of_find?_eq_some t.sorted h hm (by simpa using ham)⟩

theorem ndNext_eq_none {a : ℕ} (h : t.ndNext a = none) : ∀ m ∈ t.addrs, m ≤ a := by
  intro m hm
  have := List.find?_eq_none.1 h m hm
  simpa using this

/-- A change of the descriptor at an address that keeps the address. -/
def modify (a : ℕ) (f : Desc F → Desc F) (hf : ∀ d, (f d).addr = d.addr) : Table F where
  nds := t.nds.map fun d ↦ if d.addr = a then f d else d
  ndMaxFd := t.ndMaxFd
  fds := t.fds
  fresh := t.fresh
  sorted := by
    have hcomp : (Desc.addr ∘ fun d ↦ if d.addr = a then f d else d) = Desc.addr := by
      funext d
      show (if d.addr = a then f d else d).addr = d.addr
      split
      · exact hf d
      · rfl
    rw [map_map, hcomp]
    exact t.sorted
  lt_fresh := by
    intro d hd
    obtain ⟨e, he, rfl⟩ := mem_map.1 hd
    have := t.lt_fresh e he
    split
    · rwa [hf]
    · exact this

/-- `nd_attach`: a new descriptor with nothing enabled, at the end of the list (`nd_append`). -/
def ndAttach (fd : ℕ) (rfunc wfunc xfunc cfunc : Option F) : Table F where
  nds := t.nds ++ [⟨t.fresh, fd, 0, rfunc, wfunc, xfunc, cfunc⟩]
  ndMaxFd := if t.ndMaxFd < fd then fd else t.ndMaxFd
  fds := t.fds
  fresh := t.fresh + 1
  sorted := by
    rw [map_append, pairwise_append]
    refine ⟨t.sorted, pairwise_singleton _ _, ?_⟩
    intro a ha b hb
    obtain ⟨d, hd, rfl⟩ := mem_map.1 ha
    obtain rfl : b = t.fresh := by simpa using hb
    exact t.lt_fresh d hd
  lt_fresh := by
    intro d hd
    obtain hd | hd := mem_append.1 hd
    · have := t.lt_fresh d hd
      omega
    · obtain rfl := mem_singleton.1 hd
      show t.fresh < t.fresh + 1
      omega

/-- `nd_detach`: the descriptor leaves the list (`nd_remove`), its file descriptor the three
sets (`nd_initfd`). -/
def ndDetach (d : Desc F) : Table F where
  nds := t.nds.filter (·.addr ≠ d.addr)
  ndMaxFd := t.ndMaxFd
  fds := t.fds.clr d.ndFd (ND_R ||| ND_W ||| ND_X)
  fresh := t.fresh
  sorted := t.sorted.sublist (filter_sublist.map _)
  lt_fresh := fun e he ↦ t.lt_fresh e (mem_of_mem_filter he)

def ndEnable (d : Desc F) (mask : BitVec 32) : Table F :=
  { t.modify d.addr (fun e ↦ { e with ndMask := e.ndMask ||| (mask &&& ND_MASK) })
      (fun _ ↦ rfl) with
    fds := t.fds.set d.ndFd mask }

def ndDisable (d : Desc F) (mask : BitVec 32) : Table F :=
  { t.modify d.addr (fun e ↦ { e with ndMask := e.ndMask &&& ~~~mask }) (fun _ ↦ rfl) with
    fds := t.fds.clr d.ndFd mask }

end Table

/-- What a callback may do to the table. -/
inductive Op (F : Type) where
  | attach (fd : ℕ) (rfunc wfunc xfunc cfunc : Option F)
  | detach (a : ℕ)
  | enable (a : ℕ) (mask : BitVec 32)
  | disable (a : ℕ) (mask : BitVec 32)
  deriving DecidableEq

namespace Table

variable {F : Type}

/-- One call; `none` when it is given a descriptor that has been freed. -/
def apply (t : Table F) : Op F → Option (Table F)
  | .attach fd rfunc wfunc xfunc cfunc => some (t.ndAttach fd rfunc wfunc xfunc cfunc)
  | .detach a => (t.find a).map t.ndDetach
  | .enable a mask => (t.find a).map fun d ↦ t.ndEnable d mask
  | .disable a mask => (t.find a).map fun d ↦ t.ndDisable d mask

/-- The calls of a callback, one after the other. -/
def applyAll (t : Table F) : List (Op F) → Option (Table F)
  | [] => some t
  | o :: os => (t.apply o).bind fun t' ↦ t'.applyAll os

/-- What callbacks leave of a list: addresses are given out in order, what was there before is as
it was apart from its mask, and it is still there unless it is one of `gone`. -/
structure Follows (t t' : Table F) (gone : ℕ → Prop) : Prop where
  fresh_le : t.fresh ≤ t'.fresh
  old : ∀ d' ∈ t'.nds, d'.addr < t.fresh → ∃ d ∈ t.nds, d.addr = d'.addr ∧ d.ndFd = d'.ndFd
  kept : ∀ a ∈ t.addrs, ¬ gone a → a ∈ t'.addrs

namespace Follows

variable {t t' t'' : Table F} {gone gone' : ℕ → Prop}

theorem refl (t : Table F) (gone : ℕ → Prop) : Follows t t gone :=
  ⟨le_rfl, fun d hd _ ↦ ⟨d, hd, rfl, rfl⟩, fun _ ha _ ↦ ha⟩

theorem trans (h : Follows t t' gone) (h' : Follows t' t'' gone) : Follows t t'' gone where
  fresh_le := h.fresh_le.trans h'.fresh_le
  old := by
    intro d'' hd'' hlt
    obtain ⟨d', hd', ha', hf'⟩ := h'.old d'' hd'' (lt_of_lt_of_le hlt h.fresh_le)
    obtain ⟨d, hd, ha, hf⟩ := h.old d' hd' (ha'.symm ▸ hlt)
    exact ⟨d, hd, ha.trans ha', hf.trans hf'⟩
  kept := fun a ha hg ↦ h'.kept a (h.kept a ha hg) hg

theorem mono (h : Follows t t' gone) (hg : ∀ a, gone a → gone' a) : Follows t t' gone' :=
  ⟨h.fresh_le, h.old, fun a ha hn ↦ h.kept a ha fun hga ↦ hn (hg a hga)⟩

theorem mem_addrs (h : Follows t t' gone) {a : ℕ} (ha : a ∈ t'.addrs) (hlt : a < t.fresh) :
    a ∈ t.addrs := by
  obtain ⟨d', hd', rfl⟩ := t'.mem_addrs.1 ha
  obtain ⟨d, hd, haddr, -⟩ := h.old d' hd' hlt
  exact t.mem_addrs.2 ⟨d, hd, haddr⟩

end Follows

theorem follows_modify (t : Table F) (a : ℕ) (f : Desc F → Desc F) (hf : ∀ d, (f d).addr = d.addr)
    (hfd : ∀ d, (f d).ndFd = d.ndFd) (S : FdSets) (gone : ℕ → Prop) :
    Follows t { t.modify a f hf with fds := S } gone where
  fresh_le := le_rfl
  old := by
    intro d' hd' _
    obtain ⟨d, hd, rfl⟩ := mem_map.1 hd'
    refine ⟨d, hd, ?_⟩
    split
    · exact ⟨(hf d).symm, (hfd d).symm⟩
    · exact ⟨rfl, rfl⟩
  kept := by
    intro b hb _
    obtain ⟨d, hd, rfl⟩ := t.mem_addrs.1 hb
    refine mem_map.2 ⟨_, mem_map.2 ⟨d, hd, rfl⟩, ?_⟩
    split
    · exact hf d
    · rfl

theorem follows_ndAttach (t : Table F) (fd : ℕ) (rfunc wfunc xfunc cfunc : Option F)
    (gone : ℕ → Prop) : Follows t (t.ndAttach fd rfunc wfunc xfunc cfunc) gone where
  fresh_le := Nat.le_succ _
  old := by
    intro d hd hlt
    obtain hd | hd := mem_append.1 hd
    · exact ⟨d, hd, rfl, rfl⟩
    · -- the new descriptor has the next address
      obtain rfl := mem_singleton.1 hd
      exact absurd hlt (Nat.lt_irrefl _)
  kept := by
    intro a ha _
    obtain ⟨d, hd, rfl⟩ := t.mem_addrs.1 ha
    exact (mem_addrs _).2 ⟨d, mem_append_left _ hd, rfl⟩

theorem follows_ndDetach (t : Table F) (d : Desc F) :
    Follows t (t.ndDetach d) (· = d.addr) where
  fresh_le := le_rfl
  old := fun e he _ ↦ ⟨e, mem_of_mem_filter he, rfl, rfl⟩
  kept := by
    intro a ha hne
    obtain ⟨e, he, rfl⟩ := t.mem_addrs.1 ha
    exact (mem_addrs _).2 ⟨e, mem_filter.2 ⟨he, by simpa using hne⟩, rfl⟩

theorem follows_apply {t t' : Table F} {o : Op F} (h : t.apply o = some t') :
    Follows t t' fun a ↦ o = .detach a := by
  cases o with
  | attach fd rfunc wfunc xfunc cfunc =>
    obtain rfl := Option.some.inj h
    exact follows_ndAttach t fd rfunc wfunc xfunc cfunc _
  | detach a =>
    obtain ⟨d, hd, rfl⟩ := Option.map_eq_some_iff.1 h
    refine (follows_ndDetach t d).mono fun b hb ↦ ?_
    rw [hb, (t.find_eq_some hd).2]
  | enable a mask =>
    obtain ⟨d, -, rfl⟩ := Option.map_eq_some_iff.1 h
    exact follows_modify t d.addr (fun e ↦ { e with ndMask := e.ndMask ||| (mask &&& ND_MASK) })
      (fun _ ↦ rfl) (fun _ ↦ rfl) _ _
  | disable a mask =>
    obtain ⟨d, -, rfl⟩ := Option.map_eq_some_iff.1 h
    exact follows_modify t d.addr (fun e ↦ { e with ndMask := e.ndMask &&& ~~~mask })
      (fun _ ↦ rfl) (fun _ ↦ rfl) _ _

theorem follows_applyAll {t t' : Table F} {os : List (Op F)} (h : t.applyAll os = some t') :
    Follows t t' fun a ↦ .detach a ∈ os := by
  induction os generalizing t with
  | nil =>
    obtain rfl := Option.some.inj h
    exact .refl t _
  | cons o os ih =>
    obtain ⟨t₁, h₁, h₂⟩ := Option.bind_eq_some_iff.1 h
    have hhead : Follows t t₁ fun a ↦ .detach a ∈ o :: os :=
      (follows_apply h₁).mono fun a ha ↦ ha ▸ mem_cons_self
    exact hhead.trans ((ih h₂).mono fun a ha ↦ mem_cons_of_mem o ha)

end Table

/-! ### One pass -/

/-- Where the pass is: before `select()`, returned without a pass because `select()` failed,
at the head of the loop, at one of the four callbacks of `nd`, behind the loop, left by an error in
the LPC code of a callback, or gone after a pointer that is not valid. -/
inductive Phase where
  | idle
  | failed
  | head
  | turn (k : Kind)
  | ended
  | thrown
  | fault
  deriving DecidableEq

/-- The state of a pass: the table and the locals of `nd_select`, and of its history the
descriptors it began with, those that have had their turn, and the callbacks that were called
and those that were due. -/
structure Scan (F : Type) where
  table : Table F
  phase : Phase
  nfds : ℤ
  fd : ℕ
  setp : ℤ
  /-- `rfds`, `wfds` and `xfds`, as `select()` left them. -/
  sets : FdSets
  nd : Option ℕ
  next : Option ℕ
  start : List ℕ
  turned : List ℕ
  called : List (ℕ × Kind)
  due : List (ℕ × Kind)

/-- The steps: `select()` with its result (`none` for an error), the head of the loop, one of the
four callbacks, with what it does if it is called, and a callback that does not return: an error in
LPC code jumps to `backend`. -/
inductive Act (F : Type) where
  | select (res : Option FdSets)
  | head
  | callback (ops : List (Op F))
  | throw (ops : List (Op F))

namespace Scan

variable {F : Type} (s : Scan F)

/-- A callback is due: the clean-up callback if it is enabled, one of the others if it is enabled
and `select()` found the descriptor ready for it. -/
def IsDue (k : Kind) (d : Desc F) : Prop :=
  d.Enabled k ∧ (k = .c ∨ d.ndFd ∈ s.sets.of k ∧ d.addr ∈ s.start)

instance (k : Kind) (d : Desc F) : Decidable (s.IsDue k d) := inferInstanceAs (Decidable (_ ∧ _))

/-- What `select()` may answer: descriptors that are in the sets and below `nd_max_fd + 1`. -/
def Possible (S : FdSets) : Prop :=
  ∀ k, ∀ fd ∈ S.of k, fd ∈ s.table.fds.of k ∧ (fd : ℤ) < s.table.ndMaxFd + 1

instance (S : FdSets) : Decidable (s.Possible S) :=
  inferInstanceAs (Decidable (∀ k, ∀ fd ∈ S.of k, _))

/-- `select()` has answered: the loop begins with `nd_head`. -/
def enter (S : FdSets) : Scan F :=
  { s with phase := .head, nfds := S.bits, sets := S, nd := s.table.addrs.head?,
           start := s.table.addrs, turned := [], called := [], due := [] }

/-- The head of the loop, down to `setp = 0`. -/
def atHead : Scan F :=
  match s.nd with
  | none => { s with phase := .ended }
  | some a =>
    if s.nfds = 0 then { s with phase := .ended }
    else
      match s.table.find a with
      | none => { s with phase := .fault }
      | some d =>
        -- nothing is due of a descriptor that has nothing enabled
        if d.ndMask = 0 then
          { s with next := s.table.ndNext a, nd := s.table.ndNext a, turned := s.turned ++ [a] }
        else
          { s with next := s.table.ndNext a, fd := d.ndFd, setp := 0, phase := .turn .x }

/-- The call of a callback through `nd`; `none` is a fault. -/
def call (k : Kind) (a : ℕ) (ops : List (Op F)) : Option (Scan F) := do
  let d ← s.table.find a
  let _ ← d.func k
  let t ← s.table.applyAll ops
  return { s with table := t, called := s.called ++ [(a, k)] }

/-- The test of `xfds`, `wfds` or `rfds` and the call under it. -/
def ready (k : Kind) (a : ℕ) (ops : List (Op F)) : Option (Scan F) :=
  if s.fd ∈ s.sets.of k then (s.call k a ops).map fun s' ↦ { s' with setp := 1 } else some s

/-- The test of `ND_C`, which looks at the descriptor again, and the call under it. -/
def cleanUp (a : ℕ) (ops : List (Op F)) : Option (Scan F) := do
  let d ← s.table.find a
  if d.Enabled .c then s.call .c a ops else some s

/-- From one callback to the next, from the ready callbacks over `nfds -= setp` to the clean-up
callback, and from that to the next descriptor. -/
def leave : Kind → Scan F
  | .x => { s with phase := .turn .w }
  | .w => { s with phase := .turn .r }
  | .r => { s with nfds := s.nfds - s.setp, phase := .turn .c }
  | .c => { s with nd := s.next, turned := s.turned ++ s.nd.toList, phase := .head }

/-- The callbacks that are due, after another one of the descriptor at `a` is considered. -/
def noted (k : Kind) (a : ℕ) : List (ℕ × Kind) :=
  match s.table.find a with
  | none => s.due
  | some d => if s.IsDue k d then s.due ++ [(a, k)] else s.due

/-- The test of one of the four callbacks, and the call under it. -/
def handle (k : Kind) (a : ℕ) (ops : List (Op F)) : Option (Scan F) :=
  match k with
  | .c => s.cleanUp a ops
  | k => s.ready k a ops

/-- One of the four callbacks of `nd`; `none` is a fault. -/
def turn (ops : List (Op F)) (k : Kind) : Option (Scan F) := do
  let a ← s.nd
  let s' ← s.handle k a ops
  return { s' with due := s.noted k a }.leave k

/-- `nd_select` calls a callback of the descriptor `nd`. -/
def Chosen (k : Kind) (d : Desc F) : Prop :=
  match k with
  | .c => d.Enabled .c
  | k => s.fd ∈ s.sets.of k

instance (k : Kind) (d : Desc F) : Decidable (s.Chosen k d) :=
  match k with
  | .c => inferInstanceAs (Decidable (d.Enabled .c))
  | .x => inferInstanceAs (Decidable (s.fd ∈ s.sets.of .x))
  | .w => inferInstanceAs (Decidable (s.fd ∈ s.sets.of .w))
  | .r => inferInstanceAs (Decidable (s.fd ∈ s.sets.of .r))

/-- One step. -/
inductive Step : Scan F → Act F → Scan F → Prop
  | select {s : Scan F} {S : FdSets} : s.phase = .idle → s.Possible S →
      Step s (.select (some S)) (s.enter S)
  | error {s : Scan F} : s.phase = .idle → Step s (.select none) { s with phase := .failed }
  | head {s : Scan F} : s.phase = .head → Step s .head s.atHead
  | callback {s : Scan F} {k : Kind} {ops : List (Op F)} : s.phase = .turn k →
      Step s (.callback ops) ((s.turn ops k).getD { s with phase := .fault })
  | throw {s s' : Scan F} {k : Kind} {d : Desc F} {ops : List (Op F)} : s.phase = .turn k →
      s.nd = some d.addr → d ∈ s.table.nds → s.Chosen k d → s.call k d.addr ops = some s' →
      Step s (.throw ops) { s' with due := s.noted k d.addr, phase := .thrown }

end Scan

/-- One pass of `nd_select`, from any table. -/
def ndSelect (F : Type) : TransitionSystem (Scan F) (Act F) where
  Init s := s.phase = .idle ∧ s.called = [] ∧ s.due = []
  Step := Scan.Step

namespace Scan

variable {F : Type} {s : Scan F}

/-- **What a pass owes.** Nothing is called through a pointer that is not valid; the callbacks
called are those that were due, each once; and at the end of the loop, or where it is left, every
descriptor of the beginning that is still attached has had its turn, or nothing of it is due. -/
structure Serviced (s : Scan F) : Prop where
  noFault : s.phase ≠ .fault
  called_eq : s.called = s.due
  once : s.called.Nodup
  all : s.phase = .ended ∨ s.phase = .thrown → ∀ d ∈ s.table.nds, d.addr ∈ s.start →
    d.addr ∉ s.turned → ∀ k, ¬ s.IsDue k d

/-- The conditions under which a pass services every descriptor. When the count of ready
descriptors runs out, nothing is due of `nd` and those behind it. A callback is called only
while it is enabled, for a descriptor that `select()` has seen, and there is one; it returns, uses
attached descriptors only and detaches neither `next` nor, unless it is the clean-up callback,
`nd`. -/
def Careful (s : Scan F) : Act F → Prop
  | .select _ => True
  | .head => s.nfds = 0 → ∀ a ∈ s.nd, ∀ d ∈ s.table.nds, d.addr ∈ s.start → a ≤ d.addr →
      ∀ k, ¬ s.IsDue k d
  | .callback ops => ∀ k, s.phase = .turn k → ∀ d ∈ s.table.nds, s.nd = some d.addr →
      s.Chosen k d → d.Enabled k ∧ (k = .c ∨ d.addr ∈ s.start) ∧ (d.func k).isSome ∧
        (s.table.applyAll ops).isSome ∧ (k = .c ∨ .detach d.addr ∉ ops) ∧
        ∀ n ∈ s.next, .detach n ∉ ops
  | .throw _ => False

instance [DecidableEq F] (a : Act F) : Decidable (s.Careful a) :=
  match a with
  | .select _ => inferInstanceAs (Decidable True)
  | .head => inferInstanceAs (Decidable (s.nfds = 0 → ∀ a ∈ s.nd, ∀ d ∈ s.table.nds, _))
  | .callback _ => inferInstanceAs (Decidable (∀ k, s.phase = .turn k → ∀ d ∈ s.table.nds, _))
  | .throw _ => inferInstanceAs (Decidable False)

/-! ### The invariant -/

/-- The place of a callback in the order of the calls. -/
def rank : Kind → ℕ
  | .x => 0
  | .w => 1
  | .r => 2
  | .c => 3

/-- What holds from `select()` on. -/
structure Kept (s : Scan F) : Prop where
  called_eq : s.called = s.due
  once : s.called.Nodup
  start_lt : ∀ a ∈ s.start, a < s.table.fresh

/-- At the head of the loop `nd` is attached, and the descriptors before it have had their turn.
Behind the last one `nd` is `NULL`, and they all have. -/
structure AtHead (s : Scan F) : Prop extends Kept s where
  nd_mem : ∀ a ∈ s.nd, a ∈ s.table.addrs
  covered : ∀ b ∈ s.table.addrs, b ∈ s.start → (∀ a ∈ s.nd, b < a) → b ∈ s.turned
  called_lt : ∀ e ∈ s.called, ∀ a ∈ s.nd, e.1 < a

/-- In the turn of the descriptor at `a`: `next` is attached or `NULL`, the descriptors before
`next` other than this one have had their turn, and of this one the first `n` callbacks have been
considered. -/
structure InTurn (s : Scan F) (a n : ℕ) : Prop extends Kept s where
  nd_eq : s.nd = some a
  fd_eq : ∀ d ∈ s.table.nds, d.addr = a → d.ndFd = s.fd
  next_mem : ∀ b ∈ s.next, b ∈ s.table.addrs ∧ a < b
  covered : ∀ b ∈ s.table.addrs, b ∈ s.start → (∀ n ∈ s.next, b < n) → b = a ∨ b ∈ s.turned
  called_lt : ∀ e ∈ s.called, e.1 < a ∨ e.1 = a ∧ rank e.2 < n
  addr_lt : a < s.table.fresh

/-- The invariant of a pass. -/
def Inv (s : Scan F) : Prop :=
  match s.phase with
  | .idle => s.called = [] ∧ s.due = []
  | .failed => s.called = [] ∧ s.due = []
  | .head => s.AtHead
  | .turn k => ∃ a ∈ s.table.addrs, s.InTurn a (rank k)
  | .ended => s.Kept ∧ ∀ d ∈ s.table.nds, d.addr ∈ s.start → d.addr ∉ s.turned →
      ∀ k, ¬ s.IsDue k d
  | .thrown | .fault => False

theorem Inv.serves (h : s.Inv) : s.Serviced := by
  rw [Inv] at h
  cases hp : s.phase with
  | idle | failed =>
    rw [hp] at h
    exact ⟨by simp [hp], h.1.trans h.2.symm, by simp [h.1], by simp [hp]⟩
  | head =>
    rw [hp] at h
    exact ⟨by simp [hp], h.called_eq, h.once, by simp [hp]⟩
  | turn k =>
    rw [hp] at h
    obtain ⟨a, -, ha⟩ := h
    exact ⟨by simp [hp], ha.called_eq, ha.once, by simp [hp]⟩
  | ended =>
    rw [hp] at h
    exact ⟨by simp [hp], h.1.called_eq, h.1.once, fun _ ↦ h.2⟩
  | thrown | fault =>
    rw [hp] at h
    exact h.elim

/-! ### The head of the loop -/

theorem atHead_enter (s : Scan F) (S : FdSets) : (s.enter S).AtHead where
  called_eq := rfl
  once := .nil
  start_lt := by
    intro a ha
    obtain ⟨d, hd, rfl⟩ := s.table.mem_addrs.1 ha
    exact s.table.lt_fresh d hd
  nd_mem := fun a ha ↦ mem_of_head? ha
  covered := by
    intro b hb _ hlt
    -- nothing comes before the first descriptor of a sorted list
    change b ∈ s.table.addrs at hb
    change ∀ a ∈ s.table.addrs.head?, b < a at hlt
    have hsorted := s.table.sorted
    change s.table.addrs.Pairwise (· < ·) at hsorted
    generalize s.table.addrs = l at hb hlt hsorted
    cases l with
    | nil => exact absurd hb not_mem_nil
    | cons a l =>
      have hba : b < a := hlt a rfl
      obtain rfl | hb := mem_cons.1 hb
      · omega
      · have := rel_of_pairwise_cons hsorted hb
        omega
  called_lt := nofun

/-- What has had its turn when the descriptor at `a` has had it too: everything before its
successor. -/
theorem AtHead.covered_next (h : s.AtHead) {a : ℕ} (ha : s.nd = some a) {b : ℕ}
    (hb : b ∈ s.table.addrs) (hs : b ∈ s.start) (hlt : ∀ n ∈ s.table.ndNext a, b < n) :
    b = a ∨ b ∈ s.turned := by
  obtain hba | rfl | hab := Nat.lt_trichotomy b a
  · refine .inr (h.covered b hb hs fun c hc ↦ ?_)
    rw [ha] at hc
    obtain rfl := Option.some.inj hc
    exact hba
  · exact .inl rfl
  · cases hn : s.table.ndNext a with
    | none =>
      have := s.table.ndNext_eq_none hn b hb
      omega
    | some n =>
      have hle := (s.table.ndNext_eq_some hn).2.2 b hb hab
      have := hlt n hn
      omega

theorem AtHead.inv_atHead (h : s.AtHead) (hp : s.phase = .head) (hok : s.Careful .head) :
    s.atHead.Inv := by
  rw [atHead]
  cases hnd : s.nd with
  | none =>
    refine ⟨⟨h.called_eq, h.once, h.start_lt⟩, fun d hd hs hturned ↦ ?_⟩
    refine absurd (h.covered _ (s.table.mem_addrs.2 ⟨d, hd, rfl⟩) hs ?_) hturned
    simp [hnd]
  | some a =>
    have hmem := h.nd_mem a hnd
    obtain ⟨d, hd⟩ := s.table.exists_find hmem
    obtain ⟨hdm, rfl⟩ := s.table.find_eq_some hd
    have hnext : ∀ n ∈ s.table.ndNext d.addr, n ∈ s.table.addrs ∧ d.addr < n := fun n hn ↦
      ⟨(s.table.ndNext_eq_some hn).1, (s.table.ndNext_eq_some hn).2.1⟩
    dsimp only
    rw [hd]
    by_cases hz : s.nfds = 0
    · rw [if_pos hz]
      refine ⟨⟨h.called_eq, h.once, h.start_lt⟩, fun e he hs hturned ↦ ?_⟩
      refine hok hz _ hnd e he hs (Nat.le_of_not_lt fun hlt ↦ hturned ?_)
      refine h.covered _ (s.table.mem_addrs.2 ⟨e, he, rfl⟩) hs fun b hb ↦ ?_
      rw [hnd] at hb
      obtain rfl := Option.some.inj hb
      exact hlt
    · rw [if_neg hz]
      dsimp only
      by_cases hm : d.ndMask = 0
      · rw [if_pos hm, Inv]
        dsimp only
        rw [hp]
        refine ⟨⟨h.called_eq, h.once, h.start_lt⟩, fun n hn ↦ (hnext n hn).1, ?_, ?_⟩
        · intro b hb hs hlt
          obtain rfl | hb' := h.covered_next hnd hb hs hlt
          · exact mem_append_right _ (mem_singleton.2 rfl)
          · exact mem_append_left _ hb'
        · intro e he n hn
          exact (h.called_lt e he _ hnd).trans (hnext n hn).2
      · rw [if_neg hm]
        refine ⟨d.addr, hmem, ⟨h.called_eq, h.once, h.start_lt⟩, rfl, ?_, hnext, ?_, ?_, ?_⟩
        · intro e he haddr
          rw [s.table.eq_of_addr_eq he hdm haddr]
        · exact fun b hb hs hlt ↦ h.covered_next hnd hb hs hlt
        · exact fun e he ↦ .inl (h.called_lt e he _ hnd)
        · exact s.table.lt_fresh d hdm

/-! ### The turn of a descriptor -/

theorem InTurn.mono {a n m : ℕ} (h : s.InTurn a n) (hnm : n ≤ m) : s.InTurn a m :=
  { h with
    called_lt := fun e he ↦ (h.called_lt e he).imp_right fun ⟨ha, hn⟩ ↦
      ⟨ha, lt_of_lt_of_le hn hnm⟩ }

theorem InTurn.inv_leave {k : Kind} {a : ℕ} (h : s.InTurn a (rank k + 1))
    (hmem : k = .c ∨ a ∈ s.table.addrs) : (s.leave k).Inv := by
  cases k with
  | x | w | r =>
    refine ⟨a, hmem.resolve_left nofun, ⟨h.called_eq, h.once, h.start_lt⟩, h.nd_eq, h.fd_eq,
      h.next_mem, h.covered, h.called_lt, h.addr_lt⟩
  | c =>
    refine ⟨⟨h.called_eq, h.once, h.start_lt⟩, fun b hb ↦ (h.next_mem b hb).1, ?_, ?_⟩
    · intro b hb hs hlt
      show b ∈ s.turned ++ s.nd.toList
      rw [h.nd_eq]
      obtain rfl | hb' := h.covered b hb hs hlt
      · exact mem_append_right _ (mem_singleton.2 rfl)
      · exact mem_append_left _ hb'
    · intro e he b hb
      have hab := (h.next_mem b hb).2
      obtain hlt | ⟨heq, -⟩ := h.called_lt e he
      · exact hlt.trans hab
      · exact heq ▸ hab

theorem handle_of_not_chosen {k : Kind} {a : ℕ} {d : Desc F} (hd : s.table.find a = some d)
    (hc : ¬ s.Chosen k d) (ops : List (Op F)) : s.handle k a ops = some s := by
  cases k with
  | x | w | r => exact if_neg hc
  | c =>
    show (s.table.find a).bind _ = _
    rw [hd]
    exact if_neg hc

theorem call_eq {k : Kind} {a : ℕ} {d : Desc F} {f : F} {ops : List (Op F)} {t : Table F}
    (hd : s.table.find a = some d) (hf : d.func k = some f) (ht : s.table.applyAll ops = some t) :
    s.call k a ops = some { s with table := t, called := s.called ++ [(a, k)] } := by
  rw [call, hd, Option.bind_eq_bind, Option.bind_some, hf, ht]
  rfl

theorem handle_of_chosen {k : Kind} {a : ℕ} {d : Desc F} {f : F} {ops : List (Op F)} {t : Table F}
    (hd : s.table.find a = some d) (hc : s.Chosen k d) (hf : d.func k = some f)
    (ht : s.table.applyAll ops = some t) : ∃ setp, s.handle k a ops =
      some { s with table := t, called := s.called ++ [(a, k)], setp := setp } := by
  have hcall := call_eq hd hf ht
  cases k with
  | x | w | r =>
    refine ⟨1, (if_pos hc).trans ?_⟩
    rw [hcall]
    rfl
  | c =>
    refine ⟨s.setp, ?_⟩
    show (s.table.find a).bind _ = _
    rw [hd]
    exact (if_pos hc).trans hcall

theorem InTurn.passed {k : Kind} {a : ℕ} (h : s.InTurn a (rank k)) {l : List (ℕ × Kind)}
    (hl : l = s.due) : { s with due := l }.InTurn a (rank k + 1) := by
  subst hl
  exact h.mono (Nat.le_succ _)

/-- A callback that is called and due. It may change the table as it likes, as long as it does
not detach `next`. -/
theorem InTurn.called {k : Kind} {a : ℕ} (h : s.InTurn a (rank k)) {t : Table F}
    {gone : ℕ → Prop} (ht : s.table.Follows t gone) (hnext : ∀ b ∈ s.next, ¬ gone b) (setp : ℤ) :
    { s with table := t, called := s.called ++ [(a, k)], setp := setp,
             due := s.due ++ [(a, k)] }.InTurn a (rank k + 1) where
  called_eq := congrArg (· ++ [(a, k)]) h.called_eq
  once := by
    refine nodup_append.2 ⟨h.once, nodup_singleton _, ?_⟩
    rintro e he _ hk rfl
    obtain rfl := mem_singleton.1 hk
    obtain hlt | ⟨-, hlt⟩ := h.called_lt _ he <;> exact absurd hlt (Nat.lt_irrefl _)
  start_lt := fun b hb ↦ lt_of_lt_of_le (h.start_lt b hb) ht.fresh_le
  nd_eq := h.nd_eq
  fd_eq := by
    intro d' hd' haddr
    obtain ⟨d, hd, hda, hfd⟩ := ht.old d' hd' (haddr ▸ h.addr_lt)
    exact hfd ▸ h.fd_eq d hd (hda.trans haddr)
  next_mem := fun b hb ↦ ⟨ht.kept b (h.next_mem b hb).1 (hnext b hb), (h.next_mem b hb).2⟩
  covered := fun b hb hs ↦ h.covered b (ht.mem_addrs hb (h.start_lt b hs)) hs
  called_lt := by
    intro e he
    obtain he | he := mem_append.1 he
    · exact (h.called_lt e he).imp_right fun ⟨ha, hn⟩ ↦ ⟨ha, Nat.lt_succ_of_lt hn⟩
    · obtain rfl := mem_singleton.1 he
      exact .inr ⟨rfl, Nat.lt_succ_self _⟩
  addr_lt := lt_of_lt_of_le h.addr_lt ht.fresh_le

/-- While the file descriptor of `nd` is the one that was read, what is due is called. -/
theorem chosen_of_isDue {k : Kind} {d : Desc F} (hfd : d.ndFd = s.fd) (h : s.IsDue k d) :
    s.Chosen k d := by
  obtain ⟨hen, hready⟩ := h
  cases k with
  | c => exact hen
  | x | w | r =>
    show s.fd ∈ s.sets.of _
    rw [← hfd]
    exact (hready.resolve_left nofun).1

theorem isDue_of_chosen {k : Kind} {d : Desc F} (hfd : d.ndFd = s.fd) (h : s.Chosen k d)
    (hen : d.Enabled k) (hstart : k = .c ∨ d.addr ∈ s.start) : s.IsDue k d := by
  refine ⟨hen, ?_⟩
  cases k with
  | c => exact .inl rfl
  | x | w | r => exact .inr ⟨hfd ▸ h, hstart.resolve_left nofun⟩

theorem InTurn.inv_turn {k : Kind} {a : ℕ} {ops : List (Op F)} (h : s.InTurn a (rank k))
    (hmem : a ∈ s.table.addrs) (hp : s.phase = .turn k) (hok : s.Careful (.callback ops)) :
    ((s.turn ops k).getD { s with phase := .fault }).Inv := by
  obtain ⟨d, hd⟩ := s.table.exists_find hmem
  obtain ⟨hdm, rfl⟩ := s.table.find_eq_some hd
  have hfd := h.fd_eq d hdm rfl
  rw [turn, h.nd_eq, Option.bind_eq_bind, Option.bind_some]
  by_cases hc : s.Chosen k d
  · obtain ⟨hen, hstart, hfunc, hall, hself, hnext⟩ := hok k hp d hdm h.nd_eq hc
    obtain ⟨f, hf⟩ := Option.isSome_iff_exists.1 hfunc
    obtain ⟨t, ht⟩ := Option.isSome_iff_exists.1 hall
    obtain ⟨setp, hhandle⟩ := handle_of_chosen hd hc hf ht
    have hnoted : s.noted k d.addr = s.due ++ [(d.addr, k)] := by
      rw [noted, hd]
      exact if_pos (isDue_of_chosen hfd hc hen hstart)
    have hfollows := Table.follows_applyAll ht
    rw [hhandle, hnoted]
    refine (h.called hfollows hnext setp).inv_leave ?_
    exact hself.imp_right fun hself ↦ hfollows.kept _ hmem hself
  · have hnoted : s.noted k d.addr = s.due := by
      rw [noted, hd]
      exact if_neg fun hdue ↦ hc (chosen_of_isDue hfd hdue)
    rw [handle_of_not_chosen hd hc]
    exact (h.passed hnoted).inv_leave (.inr hmem)

/-! ### The whole pass -/

theorem Inv.step {s' : Scan F} {a : Act F} (h : s.Inv) (hok : s.Careful a) (hst : s.Step a s') :
    s'.Inv := by
  rw [Scan.Inv] at h
  cases hst with
  | select _ _ => exact atHead_enter s _
  | error hp =>
    rw [hp] at h
    exact h
  | head hp =>
    rw [hp] at h
    exact h.inv_atHead hp hok
  | callback hp =>
    rw [hp] at h
    obtain ⟨a, hmem, ha⟩ := h
    exact ha.inv_turn hmem hp hok
  | throw => exact False.elim hok

end Scan

/-- **One pass services every descriptor**, whatever the table, whatever is ready and whatever
the callbacks do to the table, as long as the steps are careful. -/
theorem serviced {F : Type} (s : Scan F) (hs : (ndSelect F).ReachableVia Scan.Careful s) :
    s.Serviced := by
  have hinv : s.Inv := by
    refine hs.invariant (fun s hinit ↦ ?_) fun s a s' h hok hst ↦ h.step hok hst
    rw [Scan.Inv, hinit.1]
    exact hinit.2
  exact hinv.serves

/-- The manager with one descriptor, with one callback for everything. -/
def single (fd : ℕ) (mask : BitVec 32) : Table Unit :=
  ((Table.ndInit.applyAll [.attach fd (some ()) (some ()) (some ()) (some ()),
    .enable 0 mask]).getD .ndInit)

/-- Before the pass. -/
def Scan.before {F : Type} (t : Table F) : Scan F :=
  ⟨t, .idle, 0, 0, 0, ⟨∅, ∅, ∅⟩, none, none, [], [], [], []⟩

/-- A descriptor that can be read, whose read callback attaches another one. -/
theorem serviced_single : ∃ s : Scan Unit, s.called = [(0, .r), (0, .c)] ∧ s.phase = .ended ∧
    s.Serviced := by
  have h₀ : (ndSelect Unit).ReachableVia Scan.Careful (.before (single 3 (ND_R ||| ND_C))) :=
    .init ⟨rfl, rfl, rfl⟩
  have step {s s' : Scan Unit} (hs : (ndSelect Unit).ReachableVia Scan.Careful s) (a : Act Unit)
      (hok : s.Careful a) (hst : Scan.Step s a s') : (ndSelect Unit).ReachableVia Scan.Careful s' :=
    .step hs hok hst
  have h₁ := step h₀ (.select (some ⟨{3}, ∅, ∅⟩)) trivial (.select rfl (by decide))
  have h₂ := step h₁ .head (by decide) (.head rfl)
  have h₃ := step h₂ (.callback []) (by decide) (.callback (k := .x) rfl)
  have h₄ := step h₃ (.callback []) (by decide) (.callback (k := .w) rfl)
  have h₅ := step h₄ (.callback [.attach 4 none none none none]) (by decide)
    (.callback (k := .r) rfl)
  have h₆ := step h₅ (.callback []) (by decide) (.callback (k := .c) rfl)
  have h₇ := step h₆ .head (by decide) (.head rfl)
  exact ⟨_, by decide, by decide, serviced _ h₇⟩

/-- Nothing is ready: the pass ends at once, and a clean-up callback that is enabled is not
called. -/
theorem not_serviced :
    ¬ ∀ s : Scan Unit, (ndSelect Unit).Reachable s → s.Serviced := by
  intro h
  have h₀ : (ndSelect Unit).Reachable (.before (single 3 ND_C)) := .init ⟨rfl, rfl, rfl⟩
  have h₁ := h₀.step (.select (S := ⟨∅, ∅, ∅⟩) rfl (by decide))
  have h₂ := h₁.step (.head rfl)
  exact absurd ((h _ h₂).all (.inl (by decide))) (by decide)

end Lpmud.Ndesc
