import Mathlib.Data.List.Nodup
import Lpmud.Lib.DoublyLinked
import Lpmud.RefCount

/-!
# The table of shared strings

`mstring.c` keeps one copy of every shared string. The strings are in a hash table with chains that
are linked both ways through the headers of the strings; a string that is looked up is moved to the
front of its chain, and a string whose last reference is freed is taken out of it.

The fields of the headers are functions of the address of the string, as the macros `sstring_next`
and so on are; what the fields of freed storage are is not said. The statistics that the functions
keep, and the length in the header, which only they use, are left out. A string that is looked up is
known here by its bytes: `cp` may point to a shared string itself, and the test for equal pointers
in front of `strcmp` is a shortcut for that case.
-/

namespace Lpmud.Mstring

open Function List Option

/-- `HASH_SSTRING`, with `HTABLE_SIZE`. -/
def hashSstring (cp : CString) : BitVec 16 :=
  hashstr16 cp.bytes 64 % 0x8000

/-- The hash table and the headers of the shared strings. -/
structure State where
  /-- `sstring_table` -/
  table : BitVec 16 → Option Addr
  prev : Addr → Option Addr
  next : Addr → Option Addr
  hash : Addr → BitVec 16
  count : Addr → RefCount.Counter
  bytes : Addr → CString
  /-- Storage that is allocated for a shared string. -/
  live : Addr → Bool

namespace State

def setTable (s : State) (hash : BitVec 16) (xp : Option Addr) : State :=
  { s with table := update s.table hash xp }

def setPrev (s : State) (xp : Addr) (p : Option Addr) : State :=
  { s with prev := update s.prev xp p }

def setNext (s : State) (xp : Addr) (n : Option Addr) : State :=
  { s with next := update s.next xp n }

def setCount (s : State) (xp : Addr) (count : RefCount.Counter) : State :=
  { s with count := update s.count xp count }

def setLive (s : State) (xp : Addr) (live : Bool) : State :=
  { s with live := update s.live xp live }

end State

/-- The loop of `find_sstring` and of `make_sstring` down a chain. -/
def searchLoop (s : State) (cp : CString) : ℕ → Option Addr → Option (Option Addr)
  | _, none => some none
  | 0, some _ => none
  | fuel + 1, some xp =>
    if s.bytes xp = cp then some (some xp) else searchLoop s cp fuel (s.next xp)

/-- What the loop does with the string that it finds: unless it is the first of its chain, it is
moved there. -/
def toFront (s : State) (hash : BitVec 16) (xp : Addr) : Option State :=
  match s.prev xp with
  | none => some s
  | some p => do
    let s := s.setNext p (s.next xp)
    let s := match s.next xp with
      | some n => s.setPrev n (s.prev xp)
      | none => s
    let s := s.setPrev xp none
    let s := s.setNext xp (s.table hash)
    let first ← s.table hash
    let s := s.setPrev first (some xp)
    return s.setTable hash (some xp)

def findSstring (fuel : ℕ) (s : State) (cp : CString) : Option (State × Option Addr) := do
  let hash := hashSstring cp
  match ← searchLoop s cp fuel (s.table hash) with
  | some xp => return (← toFront s hash xp, some xp)
  | none => return (s, none)

def referenceSstring (s : State) (cp : Addr) : State :=
  s.setCount cp (RefCount.referenceSstring (s.count cp))

/-- `make_sstring`; `new` is the storage that `xalloc` finds. -/
def makeSstring (fuel : ℕ) (new : Addr) (s : State) (cp : CString) : Option (State × Addr) := do
  let hash := hashSstring cp
  match ← searchLoop s cp fuel (s.table hash) with
  | some xp => return (referenceSstring (← toFront s hash xp) xp, xp)
  | none =>
    let s := s.setLive new true
    let s := s.setPrev new none
    let s := s.setNext new (s.table hash)
    let s := match s.next new with
      | some n => s.setPrev n (some new)
      | none => s
    let s := { s with hash := update s.hash new hash }
    let s := s.setCount new 1
    let s := { s with bytes := update s.bytes new cp }
    return (s.setTable hash (some new), new)

def freeSstring (s : State) (cp : Addr) : State :=
  let freed := RefCount.freeSstring (s.count cp)
  let s := s.setCount cp freed.1
  if freed.2 then
    let s := match s.prev cp with
      | some p => s.setNext p (s.next cp)
      | none => s.setTable (s.hash cp) (s.next cp)
    let s := match s.next cp with
      | some n => s.setPrev n (s.prev cp)
      | none => s
    s.setLive cp false
  else s

/-- What is done with shared strings. -/
inductive Op where
  | make (cp : CString) (new : Addr)
  | find (cp : CString)
  | reference (cp : Addr)
  | free (cp : Addr)

/-- One operation. Storage that is allocated is not in use, and only live strings are referenced and
freed. -/
def step (fuel : ℕ) (s : State) : Op → Option State
  | .make cp new => if s.live new then none else (makeSstring fuel new s cp).map Prod.fst
  | .find cp => (findSstring fuel s cp).map Prod.fst
  | .reference cp => if s.live cp then some (referenceSstring s cp) else none
  | .free cp => if s.live cp then some (freeSstring s cp) else none

/-- The system: no string is shared at the beginning. -/
def sstrings : TransitionSystem State Op where
  Init s := (∀ hash, s.table hash = none) ∧ ∀ xp, s.live xp = false
  Step s op s' := ∃ fuel, step fuel s op = some s'

/-! ### What the table represents -/

/-- The chain of each hash value: the live strings with that hash value, linked both ways, each
content once. -/
structure Represents (s : State) (chain : BitVec 16 → List Addr) : Prop where
  head : ∀ h, s.table h = (chain h).head?
  linked : ∀ h, Linked s.prev s.next (chain h)
  nodup : ∀ h, (chain h).Nodup
  mem_iff : ∀ h a, a ∈ chain h ↔ s.live a = true ∧ hashSstring (s.bytes a) = h
  hash : ∀ a, s.live a = true → s.hash a = hashSstring (s.bytes a)
  unique : ∀ a b, s.live a = true → s.live b = true → s.bytes a = s.bytes b → a = b

theorem searchLoop_eq {s : State} {p : Option Addr} {l : List Addr}
    (hl : Segment s.prev s.next p l none) (cp : CString) {fuel : ℕ} (hfuel : l.length ≤ fuel) :
    searchLoop s cp fuel l.head? = some (l.find? fun a ↦ s.bytes a = cp) := by
  induction l generalizing p fuel with
  | nil => cases fuel <;> rfl
  | cons a l ih =>
    obtain ⟨-, hnext, hl⟩ := hl
    cases fuel with
    | zero => simp at hfuel
    | succ fuel =>
      rw [or_none] at hnext
      by_cases hcp : s.bytes a = cp
      · simp [searchLoop, hcp]
      · simpa [searchLoop, hcp, hnext] using ih hl (by simpa using hfuel)

theorem searchLoop_mono {s : State} {cp : CString} {fuel fuel' : ℕ} {p : Option Addr}
    {r : Option Addr} (h : searchLoop s cp fuel p = some r) (hle : fuel ≤ fuel') :
    searchLoop s cp fuel' p = some r := by
  induction fuel generalizing p fuel' with
  | zero =>
    cases p with
    | none => cases fuel' <;> exact h
    | some xp => cases h
  | succ fuel ih =>
    obtain ⟨fuel', rfl⟩ : ∃ k, fuel' = k + 1 := ⟨fuel' - 1, by omega⟩
    cases p with
    | none => exact h
    | some xp =>
      rw [searchLoop] at h ⊢
      split
      case isTrue hcp => rwa [if_pos hcp] at h
      case isFalse hcp =>
        rw [if_neg hcp] at h
        exact ih h (by omega)

theorem toFront_eq {s : State} {h : BitVec 16} {a p first : Addr} (hp : s.prev a = some p)
    (hpa : p ≠ a) (hfirst : s.table h = some first) :
    toFront s h a = some { s with
      prev := pushPrev (unlinkPrev s.prev s.next a) a (s.table h)
      next := update (unlinkNext s.prev s.next a) a (s.table h)
      table := update s.table h (some a) } := by
  rw [toFront, hp]
  cases hn : s.next a <;>
    simp [State.setNext, State.setPrev, State.setTable, update_of_ne hpa.symm, hn, hfirst,
      hp, pushPrev, unlinkPrev, unlinkNext]

/-- The state when a new string has been made. -/
def newSstring (s : State) (new : Addr) (cp : CString) : State where
  table := update s.table (hashSstring cp) (some new)
  prev := pushPrev s.prev new (s.table (hashSstring cp))
  next := update s.next new (s.table (hashSstring cp))
  hash := update s.hash new (hashSstring cp)
  count := update s.count new 1
  bytes := update s.bytes new cp
  live := update s.live new true

theorem makeSstring_new {s : State} {new : Addr} {cp : CString} {fuel : ℕ}
    (h : searchLoop s cp fuel (s.table (hashSstring cp)) = some none) :
    makeSstring fuel new s cp = some (newSstring s new cp, new) := by
  rw [makeSstring, h]
  cases htable : s.table (hashSstring cp) <;>
    simp [State.setNext, State.setPrev, State.setTable, State.setLive, State.setCount, newSstring,
      pushPrev, htable]

theorem makeSstring_old {s s' : State} {new xp : Addr} {cp : CString} {fuel : ℕ}
    (h : searchLoop s cp fuel (s.table (hashSstring cp)) = some (some xp))
    (hs' : toFront s (hashSstring cp) xp = some s') :
    makeSstring fuel new s cp = some (referenceSstring s' xp, xp) := by
  simp [makeSstring, h, hs']

/-- The state when a string has been released. -/
def unlinkSstring (s : State) (cp : Addr) : State :=
  { s with
    table := if s.prev cp = none then update s.table (s.hash cp) (s.next cp) else s.table
    prev := unlinkPrev s.prev s.next cp
    next := unlinkNext s.prev s.next cp
    live := update s.live cp false }

theorem freeSstring_eq {s : State} {cp : Addr} (hcp : s.prev cp ≠ some cp) :
    freeSstring s cp =
      let s' := s.setCount cp (RefCount.freeSstring (s.count cp)).1
      if (RefCount.freeSstring (s.count cp)).2 then unlinkSstring s' cp else s' := by
  rw [freeSstring]
  cases hp : s.prev cp with
  | none =>
    cases hn : s.next cp <;>
      simp [State.setPrev, State.setTable, State.setLive, State.setCount, unlinkSstring,
        unlinkPrev, unlinkNext, hp, hn]
  | some p =>
    have hpcp : cp ≠ p := by
      rintro rfl
      exact hcp hp
    cases hn : s.next cp <;>
      simp [State.setNext, State.setPrev, State.setLive, State.setCount, unlinkSstring, unlinkPrev,
        unlinkNext, hp, hn, update_of_ne hpcp]

namespace Represents

variable {s : State} {chain : BitVec 16 → List Addr} {h : BitVec 16} {a new : Addr} {cp : CString}

theorem search (hs : Represents s chain) (cp : CString) {fuel : ℕ} {r : Option Addr}
    (hr : searchLoop s cp fuel (s.table (hashSstring cp)) = some r) :
    r = (chain (hashSstring cp)).find? fun a ↦ s.bytes a = cp := by
  have hlong := searchLoop_eq (hs.linked (hashSstring cp)) cp
    (Nat.le_max_right fuel (chain (hashSstring cp)).length)
  rw [← hs.head] at hlong
  exact some.inj ((searchLoop_mono hr (Nat.le_max_left ..)).symm.trans hlong)

theorem of_find_some (hs : Represents s chain)
    (ha : (chain (hashSstring cp)).find? (fun a ↦ s.bytes a = cp) = some a) :
    s.live a = true ∧ s.bytes a = cp ∧ a ∈ chain (hashSstring cp) := by
  have hmem := mem_of_find?_eq_some ha
  exact ⟨((hs.mem_iff _ _).1 hmem).1, by simpa using List.find?_some ha, hmem⟩

theorem of_find_none (hs : Represents s chain)
    (ha : (chain (hashSstring cp)).find? (fun a ↦ s.bytes a = cp) = none) {b : Addr}
    (hb : s.live b = true) : s.bytes b ≠ cp := by
  rintro rfl
  simpa using List.find?_eq_none.1 ha b ((hs.mem_iff _ _).2 ⟨hb, rfl⟩)

theorem disjoint (hs : Represents s chain) {h' : BitVec 16} (hne : h' ≠ h) :
    ∀ b ∈ chain h, b ∉ chain h' := fun _ hb hb' ↦
  hne (((hs.mem_iff _ _).1 hb').2.symm.trans ((hs.mem_iff _ _).1 hb).2)

theorem relink (hs : Represents s chain) {s' : State} {l : List Addr}
    (htable : s'.table = update s.table h l.head?) (hlinked : Linked s'.prev s'.next l)
    (hothers : ∀ h', h' ≠ h → Linked s'.prev s'.next (chain h')) (hnodup : l.Nodup)
    (hmem : ∀ b, b ∈ l ↔ s'.live b = true ∧ hashSstring (s'.bytes b) = h)
    (hmem' : ∀ h', h' ≠ h → ∀ b, b ∈ chain h' ↔ s'.live b = true ∧ hashSstring (s'.bytes b) = h')
    (hhash : ∀ b, s'.live b = true → s'.hash b = hashSstring (s'.bytes b))
    (hunique : ∀ b c, s'.live b = true → s'.live c = true → s'.bytes b = s'.bytes c → b = c) :
    Represents s' (update chain h l) where
  head h' := by
    rcases eq_or_ne h' h with rfl | hne
    · simp [htable]
    · simpa [htable, hne] using hs.head h'
  linked h' := by
    rcases eq_or_ne h' h with rfl | hne
    · simpa using hlinked
    · simpa [hne] using hothers h' hne
  nodup h' := by
    rcases eq_or_ne h' h with rfl | hne
    · simpa using hnodup
    · simpa [hne] using hs.nodup h'
  mem_iff h' b := by
    rcases eq_or_ne h' h with rfl | hne
    · simpa using hmem b
    · simpa [hne] using hmem' h' hne b
  hash := hhash
  unique := hunique

theorem setCount (hs : Represents s chain) (xp : Addr) (count : RefCount.Counter) :
    Represents (s.setCount xp count) chain :=
  { hs with }

/-- **Moving a string to the front** of its chain. -/
theorem toFront (hs : Represents s chain) (ha : a ∈ chain h) :
    ∃ s', toFront s h a = some s' ∧ (∃ chain', Represents s' chain') ∧
      s'.live = s.live ∧ s'.bytes = s.bytes := by
  obtain ⟨l, t, hlt⟩ := append_of_mem ha
  have hlinked := hs.linked h
  have hnodup := hs.nodup h
  rw [hlt] at hlinked hnodup
  rcases eq_nil_or_concat l with rfl | ⟨l, p, rfl⟩
  · -- it is the first already
    refine ⟨s, ?_, ⟨chain, hs⟩, rfl, rfl⟩
    rw [Mstring.toFront, hlinked.prev_eq]
    rfl
  · rw [concat_eq_append] at hlt hlinked hnodup
    have hperm : (a :: (l ++ [p] ++ t)).Perm (chain h) := hlt ▸ perm_middle.symm
    have hcons := hperm.nodup_iff.2 (hs.nodup h)
    obtain ⟨hat, hrest⟩ := nodup_cons.1 hcons
    have hpa : p ≠ a := by
      rintro rfl
      simp at hat
    have htable : s.table h = (l ++ [p] ++ t).head? := by
      rw [hs.head h, hlt]
      cases l <;> rfl
    obtain ⟨first, hfirst⟩ : ∃ first, (l ++ [p] ++ t).head? = some first := by
      cases l <;> exact ⟨_, rfl⟩
    have hpush := (hlinked.unlink hnodup).push hrest hat
    have hothers : ∀ h', h' ≠ h → Linked (pushPrev (unlinkPrev s.prev s.next a) a (s.table h))
        (update (unlinkNext s.prev s.next a) a (s.table h)) (chain h') := by
      intro h' hne
      have hdisj := hs.disjoint hne
      rw [htable]
      refine (hlinked.unlink_other (hs.linked h') (hlt ▸ hdisj)).push_other (hdisj a ha)
        fun b hb ↦ hdisj b (hperm.subset (mem_cons_of_mem a hb))
    rw [← htable] at hpush
    refine ⟨_, toFront_eq (by simp [hlinked.prev_eq]) hpa (htable.trans hfirst),
      ⟨_, hs.relink (l := a :: (l ++ [p] ++ t)) rfl hpush hothers hcons (fun b ↦ ?_)
        (fun h' _ ↦ hs.mem_iff h') hs.hash hs.unique⟩, rfl, rfl⟩
    exact hperm.mem_iff.trans (hs.mem_iff h b)

/-- **A new string** is put in front of the chain of its hash value. -/
theorem insert (hs : Represents s chain) (hnew : s.live new = false)
    (hcp : ∀ b, s.live b = true → s.bytes b ≠ cp) :
    ∃ chain', Represents (newSstring s new cp) chain' := by
  have hfresh : ∀ h, new ∉ chain h := fun h hmem ↦ by
    simpa [hnew] using ((hs.mem_iff h new).1 hmem).1
  have hold : ∀ b, b ≠ new → ((newSstring s new cp).live b = s.live b ∧
      (newSstring s new cp).bytes b = s.bytes b ∧ (newSstring s new cp).hash b = s.hash b) :=
    fun b hb ↦ ⟨update_of_ne hb .., update_of_ne hb ..,
      update_of_ne hb ..⟩
  have hlive : (newSstring s new cp).live new = true := update_self ..
  have hbytes : (newSstring s new cp).bytes new = cp := update_self ..
  have htable := hs.head (hashSstring cp)
  refine ⟨_, hs.relink (h := hashSstring cp) (l := new :: chain (hashSstring cp)) rfl ?_ ?_
    (nodup_cons.2 ⟨hfresh _, hs.nodup _⟩) ?_ ?_ ?_ ?_⟩
  · simpa only [newSstring, htable] using (hs.linked _).push (hs.nodup _) (hfresh _)
  · intro h' hne
    simpa only [newSstring, htable] using
      (hs.linked h').push_other (hfresh h') (hs.disjoint hne)
  · intro b
    rcases eq_or_ne b new with rfl | hb
    · simp [hlive, hbytes]
    · simp [(hold b hb).1, (hold b hb).2.1, hb, hs.mem_iff]
  · intro h' hne b
    rcases eq_or_ne b new with rfl | hb
    · simp [hfresh, hbytes, hne.symm]
    · rw [(hold b hb).1, (hold b hb).2.1, hs.mem_iff]
  · intro b hb
    rcases eq_or_ne b new with rfl | hne
    · rw [hbytes]
      exact update_self ..
    · rw [(hold b hne).1] at hb
      rw [(hold b hne).2.1, (hold b hne).2.2, hs.hash b hb]
  · intro b c hb hc hbc
    by_cases hbn : b = new <;> by_cases hcn : c = new
    · exact hbn.trans hcn.symm
    · rw [hbn, hbytes, (hold c hcn).2.1] at hbc
      exact absurd hbc.symm (hcp c ((hold c hcn).1 ▸ hc))
    · rw [hcn, hbytes, (hold b hbn).2.1] at hbc
      exact absurd hbc (hcp b ((hold b hbn).1 ▸ hb))
    · rw [(hold b hbn).2.1, (hold c hcn).2.1] at hbc
      exact hs.unique b c ((hold b hbn).1 ▸ hb) ((hold c hcn).1 ▸ hc) hbc

/-- **A string that is released** is taken out of its chain. -/
theorem remove (hs : Represents s chain) (ha : s.live a = true) :
    ∃ chain', Represents (unlinkSstring s a) chain' := by
  obtain ⟨l, t, hlt⟩ := append_of_mem ((hs.mem_iff _ a).2 ⟨ha, rfl⟩)
  have hlinked := hs.linked (hashSstring (s.bytes a))
  have hnodup := hs.nodup (hashSstring (s.bytes a))
  have hmem := hs.mem_iff (hashSstring (s.bytes a))
  rw [hlt] at hlinked hnodup
  obtain ⟨halt, hrest⟩ := nodup_middle.1 hnodup |> nodup_cons.1
  have hold : ∀ b, (unlinkSstring s a).live b = true ↔ b ≠ a ∧ s.live b = true := fun b ↦ by
    rcases eq_or_ne b a with rfl | hb
    · simp [unlinkSstring]
    · simp [unlinkSstring, hb]
  refine ⟨_, hs.relink (h := hashSstring (s.bytes a)) (l := l ++ t) ?_ (hlinked.unlink hnodup) ?_
    hrest ?_ ?_ ?_ ?_⟩
  · -- only the first string of a chain is in the table
    have hhash := hs.hash a ha
    have hhead := hs.head (hashSstring (s.bytes a))
    rcases eq_nil_or_concat l with rfl | ⟨l, p, rfl⟩
    · simp [unlinkSstring, hlinked.prev_eq, hlinked.next_eq, hhash]
    · have hfirst : s.table (hashSstring (s.bytes a)) = (l.concat p ++ t).head? := by
        rw [hhead, hlt]
        cases l <;> rfl
      rw [← hfirst, update_eq_self]
      simp [unlinkSstring, hlinked.prev_eq]
  · exact fun h' hne ↦ hlinked.unlink_other (hs.linked h') (hlt ▸ hs.disjoint hne)
  · intro b
    have hb := hmem b
    rw [hlt, mem_append, mem_cons] at hb
    rw [hold, and_assoc, mem_append]
    change _ ↔ _ ∧ _ ∧ hashSstring (s.bytes b) = _
    rw [← hb]
    rcases eq_or_ne b a with rfl | hb
    · simpa [not_or] using halt
    · simp [hb]
  · intro h' hne b
    rw [hold, hs.mem_iff]
    rcases eq_or_ne b a with rfl | hb
    · simp [hne.symm, unlinkSstring]
    · simp [hb, unlinkSstring]
  · exact fun b hb ↦ hs.hash b ((hold b).1 hb).2
  · exact fun b c hb hc ↦ hs.unique b c ((hold b).1 hb).2 ((hold c).1 hc).2

end Represents

/-! ### Every operation keeps it -/

/-- The table represents chains. -/
def Inv (s : State) : Prop :=
  ∃ chain, Represents s chain

section Operations

variable {s s' : State} {cp : CString} {a new : Addr} {fuel : ℕ}

/-- **What `make_sstring` does**, when its loop has run to the end. -/
theorem makeSstring_spec (hs : Inv s) (hnew : s.live new = false) {r : Option Addr}
    (hr : searchLoop s cp fuel (s.table (hashSstring cp)) = some r) :
    ∃ s' xp, makeSstring fuel new s cp = some (s', xp) ∧ Inv s' ∧ s'.live xp = true ∧
      s'.bytes xp = cp ∧ ∀ b, s.live b = true → s.bytes b = cp → xp = b := by
  obtain ⟨chain, hs⟩ := hs
  have hfind := hs.search cp hr
  cases r with
  | none =>
    have hcp := fun b ↦ hs.of_find_none hfind.symm (b := b)
    refine ⟨_, new, makeSstring_new hr, hs.insert hnew hcp, update_self ..,
      update_self .., fun b hb hbcp ↦ absurd hbcp (hcp b hb)⟩
  | some xp =>
    obtain ⟨hlive, hbytes, hmem⟩ := hs.of_find_some hfind.symm
    obtain ⟨s', hs', ⟨chain', hchain'⟩, hlive', hbytes'⟩ := hs.toFront hmem
    refine ⟨_, xp, makeSstring_old hr hs', ⟨chain', hchain'.setCount xp _⟩, ?_, ?_,
      fun b hb hbcp ↦ hs.unique xp b hlive hb (hbytes.trans hbcp.symm)⟩
    · exact (congrFun hlive' xp).trans hlive
    · exact (congrFun hbytes' xp).trans hbytes

/-- What `find_sstring` does, when its loop has run to the end. -/
theorem findSstring_spec (hs : Inv s) {r : Option Addr}
    (hr : searchLoop s cp fuel (s.table (hashSstring cp)) = some r) :
    ∃ s', findSstring fuel s cp = some (s', r) ∧ Inv s' := by
  obtain ⟨chain, hs⟩ := hs
  cases r with
  | none => exact ⟨s, by simp [findSstring, hr], chain, hs⟩
  | some xp =>
    obtain ⟨_, _, hmem⟩ := hs.of_find_some (hs.search cp hr).symm
    obtain ⟨s', hs', hinv, _⟩ := hs.toFront hmem
    exact ⟨s', by simp [findSstring, hr, hs'], hinv⟩

theorem freeSstring_spec (hs : Inv s) (ha : s.live a = true) : Inv (freeSstring s a) := by
  obtain ⟨chain, hs⟩ := hs
  have hprev : s.prev a ≠ some a := fun hloop ↦ by
    obtain ⟨l, t, hlt⟩ := append_of_mem ((hs.mem_iff _ a).2 ⟨ha, rfl⟩)
    have hlinked := hs.linked (hashSstring (s.bytes a))
    have hnodup := hs.nodup (hashSstring (s.bytes a))
    rw [hlt] at hlinked hnodup
    have hal := mem_of_getLast? (hlinked.prev_eq.symm.trans hloop)
    exact (nodup_append.1 hnodup).2.2 a hal a mem_cons_self rfl
  rw [freeSstring_eq hprev]
  split
  · exact (hs.setCount a _).remove ha
  · exact ⟨chain, hs.setCount a _⟩

theorem exists_searchLoop (hs : Inv s) (cp : CString) :
    ∃ n r, ∀ fuel, n ≤ fuel → searchLoop s cp fuel (s.table (hashSstring cp)) = some r := by
  obtain ⟨chain, hs⟩ := hs
  refine ⟨(chain (hashSstring cp)).length,
    (chain (hashSstring cp)).find? fun a ↦ s.bytes a = cp, fun fuel hfuel ↦ ?_⟩
  rw [hs.head]
  exact searchLoop_eq (hs.linked _) cp hfuel

end Operations

theorem inv_step {s s' : State} {op : Op} {fuel : ℕ} (hs : Inv s) (h : step fuel s op = some s') :
    Inv s' := by
  cases op with
  | make cp new =>
    obtain ⟨hnew, h⟩ := ite_none_left_eq_some.1 h
    obtain ⟨p, hp, rfl⟩ := map_eq_some_iff.1 h
    obtain ⟨r, hr, -⟩ := bind_eq_some_iff.1 hp
    obtain ⟨s', xp, hs', hinv, -⟩ := makeSstring_spec hs (by simpa using hnew) hr
    obtain rfl := some.inj (hs'.symm.trans hp)
    exact hinv
  | find cp =>
    obtain ⟨p, hp, rfl⟩ := map_eq_some_iff.1 h
    obtain ⟨r, hr, -⟩ := bind_eq_some_iff.1 hp
    obtain ⟨s', hs', hinv⟩ := findSstring_spec hs hr
    obtain rfl := some.inj (hs'.symm.trans hp)
    exact hinv
  | reference cp =>
    obtain ⟨-, ⟨⟩⟩ := ite_none_right_eq_some.1 h
    obtain ⟨chain, hs⟩ := hs
    exact ⟨chain, hs.setCount cp _⟩
  | free cp =>
    obtain ⟨hcp, ⟨⟩⟩ := ite_none_right_eq_some.1 h
    exact freeSstring_spec hs hcp

theorem inv_of_reachable {s : State} (hs : sstrings.Reachable s) : Inv s := by
  refine hs.invariant (fun s ⟨htable, hlive⟩ ↦ ⟨fun _ ↦ [], ?_⟩)
    fun s op s' hs ⟨fuel, h⟩ ↦ inv_step hs h
  exact {
    head := htable
    linked := fun _ ↦ trivial
    nodup := fun _ ↦ nodup_nil
    mem_iff := fun h a ↦ by simp [hlive a]
    hash := fun a ha ↦ by simp [hlive a] at ha
    unique := fun a b ha ↦ by simp [hlive a] at ha }

/-- **The table of shared strings**, after any sequence of operations: no two live strings have the
same content; every live string is in the chain of its hash value, which is linked both ways; and
`make_sstring` finds an end, and returns a live string with the content that it was called with, the
one that there was if there was one. -/
theorem shared_once {s : State} (hs : sstrings.Reachable s) :
    (∀ a b, s.live a = true → s.live b = true → s.bytes a = s.bytes b → a = b) ∧
    (∃ chain : BitVec 16 → List Addr, ∀ h, s.table h = (chain h).head? ∧
      Linked s.prev s.next (chain h) ∧ (chain h).Nodup ∧
      ∀ a, a ∈ chain h ↔ s.live a = true ∧ hashSstring (s.bytes a) = h) ∧
    ∀ cp new, s.live new = false → ∃ n s' xp,
      (∀ fuel, n ≤ fuel → makeSstring fuel new s cp = some (s', xp)) ∧ s'.live xp = true ∧
        s'.bytes xp = cp ∧ ∀ a, s.live a = true → s.bytes a = cp → xp = a := by
  have hinv := inv_of_reachable hs
  obtain ⟨chain, hchain⟩ := id hinv
  refine ⟨hchain.unique, ⟨chain, fun h ↦ ⟨hchain.head h, hchain.linked h, hchain.nodup h,
    hchain.mem_iff h⟩⟩, fun cp new hnew ↦ ?_⟩
  obtain ⟨n, r, hr⟩ := exists_searchLoop hinv cp
  obtain ⟨s', xp, hs', -, hxp⟩ := makeSstring_spec hinv hnew (hr n le_rfl)
  refine ⟨n, s', xp, fun fuel hfuel ↦ ?_, hxp⟩
  rw [← hs', makeSstring, makeSstring, hr fuel hfuel, hr n le_rfl]

/-- No string is shared. -/
def noStrings : State where
  table _ := none
  prev _ := none
  next _ := none
  hash _ := 0
  count _ := 0
  bytes _ := CString.ofBytes []
  live _ := false

/-- The second request for a content is answered with the string of the first. -/
theorem shared_once_again : ∃ n s' xp,
    (∀ fuel, n ≤ fuel → makeSstring fuel 1 (newSstring noStrings 0 (.ofBytes [108, 112, 99]))
      (.ofBytes [108, 112, 99]) = some (s', xp)) ∧ xp = 0 := by
  have hinit : sstrings.Reachable noStrings := .init ⟨fun _ ↦ rfl, fun _ ↦ rfl⟩
  have hmake : makeSstring 0 0 noStrings (.ofBytes [108, 112, 99]) =
      some (newSstring noStrings 0 (.ofBytes [108, 112, 99]), 0) := makeSstring_new rfl
  have hstep : sstrings.Step noStrings (.make (.ofBytes [108, 112, 99]) 0)
      (newSstring noStrings 0 (.ofBytes [108, 112, 99])) :=
    ⟨0, congrArg (Option.map Prod.fst) hmake⟩
  obtain ⟨n, s', xp, hrun, -, -, hxp⟩ := (shared_once (hinit.step hstep)).2.2
    (.ofBytes [108, 112, 99]) 1 rfl
  exact ⟨n, s', xp, hrun, hxp 0 rfl rfl⟩

end Lpmud.Mstring
