import Mathlib.Algebra.BigOperators.Group.Finset.Basic
import Mathlib.Tactic.Ring
import Lpmud.Lib.Wheel
import Lpmud.Svalue

/-!
# Call-outs

The tables of `call_out.c` and the functions that change them. Every object has the list of its
pending calls, by due time; the objects with pending calls are in a timing wheel of `NUM_SLOTS`
slots, hashed by the due time of their first call.

A function returns `none` where the source calls `fatal` or follows a null pointer. One lemma for
each function says that it does not, and how the pending calls change; the wheel itself is the
business of `Wheel.Ok`.
-/

namespace Lpmud.CallOut

open Function List Option

/-! ### The tables -/

abbrev NUM_SLOTS : ℕ := 0x4000
abbrev MAX_CALL_OUT : ℕ := 128
abbrev TIME_RES : ℕ := 10

/-- A pending call (`struct call`). -/
structure Call where
  /-- The closure to call, by its address. -/
  func : ℕ
  /-- The interval of a repeating call; zero for one that does not repeat. -/
  reload : ℕ
  /-- When the call is due; an `unsigned int`. -/
  when : ℕ
  id : Int32
  commandGiver : Option Obj
  reload_lt : reload < 2 ^ 31
  deriving DecidableEq

theorem toNat_toInt_lt (x : Int32) : x.toInt.toNat < 2 ^ 31 := by
  have := x.toInt_lt
  omega

/-- The static data of `call_out.c` and the `call_outs` of the objects. The chains behind the
slots (`next_call_out`) and behind an object (`next`) are lists. `numCall` is an integer: every
pending call occupies memory of its own, of which there is less than an `int` can count. -/
structure Table where
  callOuts : ℕ → List Obj
  calls : Obj → List Call
  last : ℕ
  numCall : ℤ
  callId : Int32

def initCallOut : Table where
  callOuts := fun _ ↦ []
  calls := fun _ ↦ []
  last := 0
  numCall := 0
  callId := 1

/-- The slot of a due time. -/
def slotOf (w : ℕ) : ℕ := w &&& (NUM_SLOTS - 1)

theorem slotOf_eq (w : ℕ) : slotOf w = w % NUM_SLOTS :=
  Nat.and_two_pow_sub_one_eq_mod w 14

/-- The due time of the first call of a list. -/
def headWhen (l : List Call) : Option ℕ := l.head?.map Call.when

namespace Table

/-- The due time of an object: that of its first call. -/
def head (t : Table) (ob : Obj) : Option ℕ := headWhen (t.calls ob)

/-- Take an object out of the slot of `w`; `fatal` if it is not there. -/
def unlink (ob : Obj) (w : ℕ) (t : Table) : Option Table :=
  (Wheel.unlink t.callOuts ob (slotOf w)).map fun s ↦ { t with callOuts := s }

/-- Put an object into its slot, if it has calls. -/
def relink (ob : Obj) (t : Table) : Option Table :=
  match t.calls ob with
  | [] => some t
  | c :: _ =>
    (Wheel.link slotOf t.head t.callOuts ob c.when).map fun s ↦ { t with callOuts := s }

/-- Replace the calls of an object. -/
def setCalls (ob : Obj) (l : List Call) (t : Table) : Table :=
  { t with calls := Function.update t.calls ob l }

/-- Take an object out of its slot, if it has calls. -/
def unlinkCalls (ob : Obj) (t : Table) : Option Table :=
  match t.calls ob with
  | [] => some t
  | c :: _ => t.unlink ob c.when

def callOutSwapObjects (ob₁ ob₂ : Obj) (t : Table) : Option Table :=
  (t.unlinkCalls ob₁).bind fun t₁ ↦ (t₁.unlinkCalls ob₂).bind fun t₂ ↦
    let t₃ := (t₂.setCalls ob₁ (t₂.calls ob₂)).setCalls ob₂ (t₂.calls ob₁)
    (t₃.relink ob₁).bind fun t₄ ↦ t₄.relink ob₂

/-- The list loop of `insert_call_out` and `call_out`: in front of the first call that is not due
earlier. -/
def insertCall (cop : Call) (l : List Call) : List Call :=
  l.orderedInsert (fun c d ↦ c.when ≤ d.when) cop

def insertCallOut (ob : Obj) (cop : Call) (t : Table) : Option Table :=
  let t' := t.setCalls ob (insertCall cop (t.calls ob))
  match t.calls ob with
  | [] => t'.relink ob
  | next :: _ =>
    if next.when < cop.when then some t' else (t'.unlink ob next.when).bind (·.relink ob)

/-- What `free_call` does to the call counter. -/
def freeCall (t : Table) : Table :=
  { t with numCall := t.numCall - 1 }

def deleteCall (ob : Obj) (callIdent : Int32) (t : Table) : Option Table :=
  match t.calls ob with
  | [] => some t
  | cop :: cops =>
    if cop.id = callIdent then
      (((t.setCalls ob cops).unlink ob cop.when).bind (·.relink ob)).map freeCall
    else if cops.any (·.id = callIdent) then
      some (t.setCalls ob (cop :: cops.eraseP (·.id = callIdent))).freeCall
    else some t

def deleteAllCalls (ob : Obj) (t : Table) : Option Table :=
  match t.calls ob with
  | [] => some t
  | cop :: cops =>
    (t.unlink ob cop.when).map fun t' ↦
      { t'.setCalls ob [] with numCall := t'.numCall - (cop :: cops).length }

/-- `new_call_out`, for the current object `ob`: the call's id, or an error. -/
def newCallOut (alarmTime : ℕ) (ob : Obj) (fun' : ℕ) (delay reload : Int32)
    (commandGiver : Option Obj) (t : Table) : Option (Table × Except String Int32) :=
  let delay' := if delay.toInt ≤ 0 then 1 else delay.toInt.toNat
  if MAX_CALL_OUT ≤ (t.calls ob).length then
    (t.deleteAllCalls ob).map fun t' ↦ (t', .error "too many alarms in object\n")
  else
    let cop : Call :=
      { func := fun'
        -- A negative interval is none.
        reload := reload.toInt.toNat
        when := (alarmTime + delay') % 2 ^ 32
        id := t.callId
        commandGiver := commandGiver
        reload_lt := toNat_toInt_lt reload }
    let t' : Table := { t with numCall := t.numCall + 1, callId := t.callId + 1 }
    if cop.when < t.last then none
    else (t'.insertCallOut ob cop).map fun t'' ↦ (t'', .ok cop.id)

/-! ### The wheel -/

/-- The wheel is in order, and so is the list of each object. -/
structure Linked (t : Table) : Prop where
  wheel : Wheel.Ok slotOf t.head t.callOuts
  sorted : ∀ ob, (t.calls ob).Pairwise fun c d ↦ c.when ≤ d.when

variable {t : Table} {key : Obj → Option ℕ} {ob : Obj}

@[simp] theorem calls_setCalls (t : Table) (ob : Obj) (l : List Call) :
    (t.setCalls ob l).calls = Function.update t.calls ob l := rfl

theorem head_setCalls (t : Table) (ob : Obj) (l : List Call) :
    (t.setCalls ob l).head = Function.update t.head ob (headWhen l) := by
  funext p
  by_cases hp : p = ob
  · subst hp
    simp [head, setCalls]
  · simp [head, setCalls, hp]

theorem unlink_spec (ob : Obj) {w : ℕ} (h : Wheel.Ok slotOf key t.callOuts) (hw : key ob = some w) :
    ∃ s, t.unlink ob w = some { t with callOuts := s } ∧
      Wheel.Ok slotOf (Function.update key ob none) s := by
  obtain ⟨s, hs, hok⟩ := h.unlink hw
  exact ⟨s, by rw [unlink, hs, map_some], hok⟩

theorem relink_spec (ob : Obj) (h : Wheel.Ok slotOf key t.callOuts) (hob : key ob = none)
    (hkey : ∀ p v, key p = some v → t.head p = some v) :
    ∃ s, t.relink ob = some { t with callOuts := s } ∧
      Wheel.Ok slotOf (Function.update key ob (t.head ob)) s := by
  rw [relink, head]
  rcases t.calls ob with - | ⟨c, cs⟩
  · refine ⟨t.callOuts, rfl, h.congr fun p ↦ ?_⟩
    by_cases hp : p = ob
    · subst hp
      rw [update_self, hob]
      rfl
    · rw [update_of_ne hp]
  · obtain ⟨s, hs, hok⟩ := h.link c.when hob hkey
    exact ⟨s, by simp only [hs, map_some], hok⟩

theorem unlinkCalls_spec (ob : Obj) (h : Wheel.Ok slotOf key t.callOuts)
    (hob : key ob = t.head ob) :
    ∃ s, t.unlinkCalls ob = some { t with callOuts := s } ∧
      Wheel.Ok slotOf (Function.update key ob none) s := by
  rw [unlinkCalls]
  rw [head] at hob
  rcases hc : t.calls ob with - | ⟨c, cs⟩
  · refine ⟨t.callOuts, rfl, h.congr fun p ↦ ?_⟩
    by_cases hp : p = ob
    · subst hp
      rw [update_self, hob, hc]
      rfl
    · rw [update_of_ne hp]
  · exact unlink_spec ob h (by rw [hob, hc]; rfl)

/-- **Rescheduling an object** that is out of the wheel. -/
theorem relink_linked (h : Wheel.Ok slotOf (Function.update t.head ob none) t.callOuts)
    (hsorted : ∀ p, (t.calls p).Pairwise fun c d ↦ c.when ≤ d.when) :
    ∃ s, t.relink ob = some { t with callOuts := s } ∧ Linked { t with callOuts := s } := by
  obtain ⟨s, hs, hok⟩ := relink_spec ob h (update_self ..) fun p v hv ↦ by
    by_cases hp : p = ob
    · subst hp
      simp at hv
    · rwa [update_of_ne hp] at hv
  refine ⟨s, hs, hok.congr fun p ↦ ?_, hsorted⟩
  by_cases hp : p = ob
  · subst hp
    rw [update_self]
    rfl
  · rw [update_of_ne hp, update_of_ne hp]
    rfl

theorem pairwise_update (ob : Obj) {l : List Call} (h : Linked t)
    (hl : l.Pairwise fun c d ↦ c.when ≤ d.when) (p : Obj) :
    (Function.update t.calls ob l p).Pairwise fun c d ↦ c.when ≤ d.when := by
  by_cases hp : p = ob
  · subst hp
    rwa [update_self]
  · rw [update_of_ne hp]
    exact h.sorted p

/-! ### What holds of the tables -/

/-- The call counter counts the pending calls of all objects. -/
def Counted (n : ℤ) (calls : Obj → List Call) : Prop :=
  ∃ S : Finset Obj, (∀ ob, calls ob ≠ [] → ob ∈ S) ∧ n = ∑ ob ∈ S, ((calls ob).length : ℤ)

/-- **The tables are in order**: the wheel and the lists are, no pending call is due before
`last`, and the call counter is right. -/
structure Ok (t : Table) : Prop where
  linked : Linked t
  due : ∀ ob, ∀ c ∈ t.calls ob, t.last ≤ c.when
  counted : Counted t.numCall t.calls

/-! ### The functions -/

/-- A function has replaced the calls of one object. -/
structure Replaced (ob : Obj) (l : List Call) (t t' : Table) : Prop where
  linked : Linked t'
  calls : t'.calls = Function.update t.calls ob l
  last : t'.last = t.last
  numCall : t'.numCall = t.numCall + l.length - (t.calls ob).length

theorem Replaced.refl (ob : Obj) (h : Linked t) : Replaced ob (t.calls ob) t t :=
  ⟨h, (update_eq_self ob t.calls).symm, rfl, by omega⟩

theorem Counted.update {n : ℤ} {calls : Obj → List Call} (h : Counted n calls) (ob : Obj)
    (l : List Call) : Counted (n + l.length - (calls ob).length) (Function.update calls ob l) := by
  obtain ⟨S, hS, rfl⟩ := h
  refine ⟨insert ob S, fun p hp ↦ ?_, ?_⟩
  · by_cases hpo : p = ob
    · exact hpo ▸ Finset.mem_insert_self ob S
    · rw [update_of_ne hpo] at hp
      exact Finset.mem_insert_of_mem (hS p hp)
  · have hsum (u : Obj → List Call) : ∑ p ∈ insert ob S, ((u p).length : ℤ) =
        (u ob).length + ∑ p ∈ S.erase ob, ((u p).length : ℤ) := by
      rw [← Finset.insert_erase (Finset.mem_insert_self ob S),
        Finset.sum_insert (Finset.notMem_erase ob _), Finset.erase_insert_eq_erase]
    have hold : ∑ p ∈ S, ((calls p).length : ℤ) = ∑ p ∈ insert ob S, ((calls p).length : ℤ) := by
      refine Finset.sum_subset (Finset.subset_insert ob S) fun p _ hp ↦ ?_
      by_contra hne
      exact hp (hS p fun hnil ↦ hne (by rw [hnil]; rfl))
    have hrest : ∑ p ∈ S.erase ob, ((Function.update calls ob l p).length : ℤ) =
        ∑ p ∈ S.erase ob, ((calls p).length : ℤ) := by
      refine Finset.sum_congr rfl fun p hp ↦ ?_
      rw [update_of_ne (Finset.ne_of_mem_erase hp)]
    rw [hsum, hrest, hold, hsum, update_self]
    ring

/-- Replacing the calls of an object by calls that are not due before `last`. -/
theorem Ok.replaced {t' : Table} {l : List Call} (h : Ok t) (hr : Replaced ob l t t')
    (hl : ∀ c ∈ l, t.last ≤ c.when) : Ok t' := by
  refine ⟨hr.linked, fun p c hc ↦ ?_, ?_⟩
  · rw [hr.calls] at hc
    rw [hr.last]
    by_cases hp : p = ob
    · subst hp
      rw [update_self] at hc
      exact hl c hc
    · rw [update_of_ne hp] at hc
      exact h.due p c hc
  · rw [hr.numCall, hr.calls]
    exact h.counted.update ob l

theorem pairwise_insertCall (cop : Call) {l : List Call}
    (h : l.Pairwise fun c d ↦ c.when ≤ d.when) :
    (insertCall cop l).Pairwise fun c d ↦ c.when ≤ d.when := by
  have htotal : Std.Total fun c d : Call ↦ c.when ≤ d.when := ⟨fun c d ↦ le_total c.when d.when⟩
  have htrans : IsTrans Call fun c d ↦ c.when ≤ d.when := ⟨fun _ _ _ ↦ le_trans⟩
  exact List.Pairwise.orderedInsert cop l h

theorem mem_insertCall {cop c : Call} {l : List Call} : c ∈ insertCall cop l ↔ c = cop ∨ c ∈ l :=
  mem_orderedInsert _

@[simp] theorem length_insertCall (cop : Call) (l : List Call) :
    (insertCall cop l).length = l.length + 1 :=
  orderedInsert_length _ l cop

theorem insertCallOut_spec (h : Linked t) (ob : Obj) (cop : Call) :
    ∃ s, t.insertCallOut ob cop =
        some { t.setCalls ob (insertCall cop (t.calls ob)) with callOuts := s } ∧
      Linked { t.setCalls ob (insertCall cop (t.calls ob)) with callOuts := s } := by
  have hsorted := pairwise_update ob h (pairwise_insertCall cop (h.sorted ob))
  rw [insertCallOut]
  rcases hc : t.calls ob with - | ⟨next, cs⟩
  · -- The object had no calls, so it was in no slot.
    rw [hc] at hsorted
    refine relink_linked (h.wheel.congr fun p ↦ ?_) hsorted
    rw [head_setCalls, update_idem]
    by_cases hp : p = ob
    · subst hp
      rw [update_self, head, hc]
      rfl
    · rw [update_of_ne hp]
  · rw [hc] at hsorted
    dsimp only
    by_cases hlt : next.when < cop.when
    · -- The first call stays the first one.
      refine ⟨t.callOuts, if_pos hlt, h.wheel.congr fun p ↦ ?_, hsorted⟩
      change ((t.setCalls ob _).head p) = _
      rw [head_setCalls]
      by_cases hp : p = ob
      · subst hp
        rw [update_self, head, hc, insertCall,
          orderedInsert_cons, if_neg (Nat.not_le.2 hlt)]
        rfl
      · rw [update_of_ne hp]
    · obtain ⟨s, hs, hok⟩ := unlink_spec ob
        (t := t.setCalls ob (insertCall cop (next :: cs))) h.wheel (by rw [head, hc]; rfl)
      rw [if_neg hlt, hs, bind_some]
      refine relink_linked (hok.congr fun p ↦ ?_) hsorted
      change Function.update (t.setCalls ob _).head ob none p = _
      rw [head_setCalls, update_idem]

/-- **`call_out_swap_objects`** exchanges the calls of two objects. -/
theorem callOutSwapObjects_spec (h : Linked t) {ob₁ ob₂ : Obj} (hne : ob₁ ≠ ob₂) :
    ∃ s, t.callOutSwapObjects ob₁ ob₂ =
        some { (t.setCalls ob₁ (t.calls ob₂)).setCalls ob₂ (t.calls ob₁) with callOuts := s } ∧
      Linked { (t.setCalls ob₁ (t.calls ob₂)).setCalls ob₂ (t.calls ob₁) with callOuts := s } := by
  obtain ⟨s₁, h₁, hok₁⟩ := unlinkCalls_spec ob₁ h.wheel rfl
  obtain ⟨s₂, h₂, hok₂⟩ := unlinkCalls_spec ob₂ (t := { t with callOuts := s₁ }) hok₁
    (update_of_ne hne.symm _ _)
  set u := (t.setCalls ob₁ (t.calls ob₂)).setCalls ob₂ (t.calls ob₁) with hu
  have hhead : ∀ p, p ≠ ob₁ → p ≠ ob₂ → u.head p = t.head p := by
    intro p hp₁ hp₂
    rw [hu, head_setCalls, update_of_ne hp₂, head_setCalls, update_of_ne hp₁]
  obtain ⟨s₃, h₃, hok₃⟩ := relink_spec ob₁ (t := { u with callOuts := s₂ }) hok₂
    (by rw [update_of_ne hne, update_self]) fun p v hv ↦ by
      by_cases hp₂ : p = ob₂
      · subst hp₂
        simp at hv
      rw [update_of_ne hp₂] at hv
      by_cases hp₁ : p = ob₁
      · subst hp₁
        simp at hv
      rw [update_of_ne hp₁] at hv
      exact (hhead p hp₁ hp₂).trans hv
  have hsorted : ∀ p, (u.calls p).Pairwise fun c d ↦ c.when ≤ d.when := by
    intro p
    rw [hu, calls_setCalls, calls_setCalls]
    by_cases hp₂ : p = ob₂
    · subst hp₂
      rw [update_self]
      exact h.sorted ob₁
    · rw [update_of_ne hp₂]
      exact pairwise_update _ h (h.sorted ob₂) p
  have hok : Wheel.Ok slotOf (Function.update u.head ob₂ none) s₃ := by
    refine hok₃.congr fun p ↦ ?_
    by_cases hp₂ : p = ob₂
    · subst hp₂
      rw [update_self, update_of_ne hne.symm, update_self]
    rw [update_of_ne hp₂]
    by_cases hp₁ : p = ob₁
    · subst hp₁
      rw [update_self]
      rfl
    rw [update_of_ne hp₁, update_of_ne hp₂, update_of_ne hp₁]
    exact hhead p hp₁ hp₂
  obtain ⟨s₄, h₄, hok₄⟩ := relink_linked (t := { u with callOuts := s₃ }) hok hsorted
  refine ⟨s₄, ?_, hok₄⟩
  rw [callOutSwapObjects, h₁, bind_some, h₂, bind_some]
  change ((({ u with callOuts := s₂ } : Table).relink ob₁).bind fun t₄ ↦ t₄.relink ob₂) = _
  rw [h₃, bind_some, h₄]

/-- **`delete_call`** takes at most one call away. -/
theorem deleteCall_spec (h : Linked t) (ob : Obj) (callIdent : Int32) :
    ∃ t' l, t.deleteCall ob callIdent = some t' ∧ Replaced ob l t t' ∧
      l.Sublist (t.calls ob) := by
  rw [deleteCall]
  rcases hc : t.calls ob with - | ⟨cop, cops⟩
  · exact ⟨t, [], rfl, hc ▸ .refl ob h, .refl _⟩
  · have hsorted : (cop :: cops).Pairwise fun c d ↦ c.when ≤ d.when := hc ▸ h.sorted ob
    dsimp only
    by_cases hid : cop.id = callIdent
    · obtain ⟨s, hs, hok⟩ := unlink_spec ob (t := t.setCalls ob cops) h.wheel
        (by rw [head, hc]; rfl)
      have hok₁ : Wheel.Ok slotOf (Function.update (t.setCalls ob cops).head ob none) s :=
        hok.congr fun p ↦ by rw [head_setCalls, update_idem]
      obtain ⟨s', hs', hok'⟩ := relink_linked (t := { t.setCalls ob cops with callOuts := s })
        hok₁ (pairwise_update _ h hsorted.of_cons)
      refine ⟨freeCall { t.setCalls ob cops with callOuts := s' }, cops, ?_,
        ⟨⟨hok'.wheel, hok'.sorted⟩, rfl, rfl, ?_⟩, sublist_cons_self _ _⟩
      · rw [if_pos hid, hs, bind_some, hs', map_some]
      · rw [hc, length_cons]
        simp only [freeCall, setCalls]
        push_cast
        omega
    · rw [if_neg hid]
      by_cases hany : cops.any (·.id = callIdent) = true
      · obtain ⟨c, hcm, hcid⟩ := any_eq_true.1 hany
        have hsub : (cop :: cops.eraseP (·.id = callIdent)).Sublist (cop :: cops) :=
          eraseP_sublist.cons_cons cop
        refine ⟨_, _, if_pos hany, ⟨⟨h.wheel.congr fun p ↦ ?_, ?_⟩, rfl, rfl, ?_⟩, hsub⟩
        · change (t.setCalls ob _).head p = _
          rw [head_setCalls]
          by_cases hp : p = ob
          · subst hp
            rw [update_self, head, hc]
            rfl
          · rw [update_of_ne hp]
        · exact pairwise_update _ h (hsorted.sublist hsub)
        · have hlen := length_eraseP_of_mem (p := (·.id = callIdent)) hcm hcid
          have hpos := length_pos_of_mem hcm
          rw [hc, length_cons, length_cons, hlen]
          change t.numCall - 1 = _
          push_cast
          omega
      · rw [if_neg hany]
        exact ⟨t, _, rfl, hc ▸ .refl ob h, .refl _⟩

/-- **`delete_all_calls`** takes all of them away. -/
theorem deleteAllCalls_spec (h : Linked t) (ob : Obj) :
    ∃ t', t.deleteAllCalls ob = some t' ∧ Replaced ob [] t t' := by
  rw [deleteAllCalls]
  rcases hc : t.calls ob with - | ⟨cop, cops⟩
  · exact ⟨t, rfl, hc ▸ .refl ob h⟩
  · obtain ⟨s, hs, hok⟩ := unlink_spec ob h.wheel (by rw [head, hc]; rfl)
    set t' : Table := { t with callOuts := s } with ht'
    refine ⟨{ t'.setCalls ob [] with numCall := t.numCall - (cop :: cops).length }, ?_,
      ⟨⟨hok.congr fun p ↦ ?_, pairwise_update _ (t := t) h .nil⟩, rfl, rfl, ?_⟩⟩
    · simp only [hs, map_some, ht']
    · change (t'.setCalls ob []).head p = _
      rw [head_setCalls]
      rfl
    · rw [hc]
      simp

/-- **`new_call_out`** adds a call that is due later than now, or takes all the object's calls
away and raises an error. -/
theorem newCallOut_spec (h : Linked t) {alarmTime : ℕ} (hclock : alarmTime < 2 ^ 31)
    (hlast : t.last ≤ alarmTime + 1) (ob : Obj) (func : ℕ) (delay reload : Int32)
    (commandGiver : Option Obj) :
    ∃ t' l r, t.newCallOut alarmTime ob func delay reload commandGiver = some (t', r) ∧
      Replaced ob l t t' ∧ ∀ c ∈ l, c ∈ t.calls ob ∨ alarmTime < c.when := by
  rw [newCallOut]
  dsimp only
  by_cases hmax : MAX_CALL_OUT ≤ (t.calls ob).length
  · obtain ⟨t', h', hr⟩ := deleteAllCalls_spec h ob
    exact ⟨t', [], _, by rw [if_pos hmax, h', map_some], hr, nofun⟩
  · obtain ⟨d, hd, hpos, hlt⟩ : ∃ d : ℕ,
        (if delay.toInt ≤ 0 then 1 else delay.toInt.toNat) = d ∧ 0 < d ∧ d < 2 ^ 31 := by
      have := delay.toInt_lt
      refine ⟨_, rfl, ?_, ?_⟩ <;> split <;> omega
    have hwhen : (alarmTime + d) % 2 ^ 32 = alarmTime + d := Nat.mod_eq_of_lt (by omega)
    rw [if_neg hmax, hd, hwhen, if_neg (by omega)]
    set cop : Call :=
      ⟨func, reload.toInt.toNat, alarmTime + d, t.callId, commandGiver, toNat_toInt_lt reload⟩
    obtain ⟨s, hs, hok⟩ := insertCallOut_spec
      (t := { t with numCall := t.numCall + 1, callId := t.callId + 1 }) ⟨h.wheel, h.sorted⟩ ob cop
    refine ⟨_, insertCall cop (t.calls ob), _, by rw [hs, map_some],
      ⟨hok, rfl, rfl, ?_⟩, fun c hc ↦ ?_⟩
    · simp only [setCalls, length_insertCall]
      push_cast
      ring
    · rcases mem_insertCall.1 hc with rfl | hc
      · exact .inr (by simp only [cop]; omega)
      · exact .inl hc

theorem Ok.swap (h : Ok t) {ob₁ ob₂ : Obj} (hne : ob₁ ≠ ob₂) :
    ∃ t', t.callOutSwapObjects ob₁ ob₂ = some t' ∧ Ok t' ∧ t'.last = t.last := by
  obtain ⟨s, hs, hok⟩ := callOutSwapObjects_spec h.linked hne
  refine ⟨_, hs, ⟨hok, fun p c hc ↦ ?_, ?_⟩, rfl⟩
  · change c ∈ Function.update (Function.update t.calls ob₁ _) ob₂ _ p at hc
    by_cases hp₂ : p = ob₂
    · rw [hp₂, update_self] at hc
      exact h.due ob₁ c hc
    rw [update_of_ne hp₂] at hc
    by_cases hp₁ : p = ob₁
    · rw [hp₁, update_self] at hc
      exact h.due ob₂ c hc
    · rw [update_of_ne hp₁] at hc
      exact h.due p c hc
  · have hcount := (h.counted.update ob₁ (t.calls ob₂)).update ob₂ (t.calls ob₁)
    rw [update_of_ne hne.symm] at hcount
    have hn (n a b : ℤ) : n + b - a + a - b = n := by ring
    rw [hn] at hcount
    exact hcount

end Table

end Lpmud.CallOut
