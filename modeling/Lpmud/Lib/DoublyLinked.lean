import Mathlib.Data.List.Basic

/-!
# Doubly linked lists

Nodes of any type with a pointer back and a pointer forth. `Segment prev next p l q` says that the
nodes `l`, in this order, are linked both ways, with `p` before the first and `q` behind the last of
them; `Linked prev next l` is a whole list, with nothing on either side.

A list is cut and put together at any place (`segment_append`), and a segment does not see what is
written to other nodes (`Segment.congr`). A node is taken out of a list (`Linked.unlink`) and put in
front of one (`Linked.push`) by writing to its neighbours.
-/

universe u

open Function (update update_of_ne update_self)

variable {α : Type u}

/-- The nodes `l` are linked both ways between `p` and `q`. -/
def Segment (prev next : α → Option α) : Option α → List α → Option α → Prop
  | _, [], _ => True
  | p, a :: l, q => prev a = p ∧ next a = l.head?.or q ∧ Segment prev next (some a) l q

/-- The nodes `l` are a whole list. -/
def Linked (prev next : α → Option α) (l : List α) : Prop :=
  Segment prev next none l none

section Segment

variable {prev next prev' next' : α → Option α} {p p' q q' : Option α} {a b : α} {l s t : List α}

theorem segment_cons : Segment prev next p (a :: l) q ↔
    prev a = p ∧ next a = l.head?.or q ∧ Segment prev next (some a) l q :=
  Iff.rfl

/-- **Cutting a segment** in two. -/
theorem segment_append : Segment prev next p (s ++ t) q ↔
    Segment prev next p s (t.head?.or q) ∧ Segment prev next (s.getLast?.or p) t q := by
  induction s generalizing p with
  | nil => simp [Segment]
  | cons a s ih =>
    have hhead : (s ++ t).head?.or q = s.head?.or (t.head?.or q) := by cases s <;> rfl
    have hlast : (a :: s).getLast?.or p = s.getLast?.or (some a) := by
      cases s <;> simp [List.getLast?_cons]
    rw [List.cons_append, segment_cons, segment_cons, ih, hhead, hlast, and_assoc, and_assoc]

namespace Segment

theorem congr (h : Segment prev next p l q)
    (hl : ∀ a ∈ l, prev' a = prev a ∧ next' a = next a) : Segment prev' next' p l q := by
  induction l generalizing p with
  | nil => trivial
  | cons a l ih =>
    obtain ⟨hprev, hnext, h⟩ := h
    obtain ⟨hp, hn⟩ := hl a List.mem_cons_self
    exact ⟨hp.trans hprev, hn.trans hnext, ih h fun b hb ↦ hl b (List.mem_cons_of_mem a hb)⟩

variable [DecidableEq α]

theorem updatePrev (h : Segment prev next p l q) (ha : a ∉ l) :
    Segment (update prev a p') next p l q :=
  h.congr fun _ hb ↦ ⟨update_of_ne (ne_of_mem_of_not_mem hb ha) .., rfl⟩

theorem updateNext (h : Segment prev next p l q) (ha : a ∉ l) :
    Segment prev (update next a q') p l q :=
  h.congr fun _ hb ↦ ⟨rfl, update_of_ne (ne_of_mem_of_not_mem hb ha) ..⟩

theorem redirectPrev (h : Segment prev next p (a :: l) q) (ha : a ∉ l) :
    Segment (update prev a p') next p' (a :: l) q :=
  ⟨update_self .., h.2.1, h.2.2.updatePrev ha⟩

theorem redirectNext (h : Segment prev next p (l ++ [a]) q) (ha : a ∉ l) :
    Segment prev (update next a q') p (l ++ [a]) q' := by
  rw [segment_append] at h ⊢
  exact ⟨h.1.updateNext ha, h.2.1, update_self .., trivial⟩

end Segment

end Segment

/-! ### Two edits -/

section Edit

/-- The pointers back when `a` has been taken out. -/
def unlinkPrev [DecidableEq α] (prev next : α → Option α) (a : α) : α → Option α :=
  match next a with
  | some b => update prev b (prev a)
  | none => prev

/-- The pointers forth when `a` has been taken out. -/
def unlinkNext [DecidableEq α] (prev next : α → Option α) (a : α) : α → Option α :=
  match prev a with
  | some b => update next b (next a)
  | none => next

/-- The pointers back when `a` has been put in front of `q`. -/
def pushPrev [DecidableEq α] (prev : α → Option α) (a : α) (q : Option α) : α → Option α :=
  match q with
  | some b => update (update prev a none) b (some a)
  | none => update prev a none

namespace Linked

variable {prev next : α → Option α} {a : α} {l s t : List α}

theorem prev_eq (h : Linked prev next (s ++ a :: t)) : prev a = s.getLast? := by
  rw [Linked, segment_append, segment_cons] at h
  simpa using h.2.1

theorem next_eq (h : Linked prev next (s ++ a :: t)) : next a = t.head? := by
  rw [Linked, segment_append, segment_cons] at h
  simpa using h.2.2.1

variable [DecidableEq α]

theorem unlink_before (h : Linked prev next (s ++ a :: t)) (hnodup : (s ++ a :: t).Nodup) :
    Segment (unlinkPrev prev next a) (unlinkNext prev next a) none s t.head? := by
  have hcut : Segment prev (unlinkNext prev next a) none s t.head? := by
    rw [unlinkNext, h.prev_eq, h.next_eq]
    rw [Linked, segment_append] at h
    rcases List.eq_nil_or_concat s with rfl | ⟨s, b, rfl⟩
    · trivial
    · rw [List.concat_eq_append, List.getLast?_concat] at *
      have hb : b ∉ s := fun hb ↦
        (List.nodup_append.1 (List.nodup_append.1 hnodup).1).2.2 b hb b List.mem_cons_self rfl
      exact h.1.redirectNext hb
  rw [unlinkPrev, h.next_eq]
  cases t with
  | nil => exact hcut
  | cons c t =>
    refine hcut.updatePrev fun hc ↦ ?_
    exact (List.nodup_append.1 hnodup).2.2 c hc c (by simp) rfl

theorem unlink_behind (h : Linked prev next (s ++ a :: t)) (hnodup : (s ++ a :: t).Nodup) :
    Segment (unlinkPrev prev next a) (unlinkNext prev next a) s.getLast? t none := by
  have hcut : Segment (unlinkPrev prev next a) next s.getLast? t none := by
    rw [unlinkPrev, h.prev_eq, h.next_eq]
    rw [Linked, segment_append, segment_cons] at h
    cases t with
    | nil => trivial
    | cons c t =>
      have hc : c ∉ t := (List.nodup_cons.1
        (List.nodup_cons.1 (List.nodup_append.1 hnodup).2.1).2).1
      exact h.2.2.2.redirectPrev hc
  rw [unlinkNext, h.prev_eq]
  rcases List.eq_nil_or_concat s with rfl | ⟨s, b, rfl⟩
  · exact hcut
  · rw [List.concat_eq_append, List.getLast?_concat] at *
    refine hcut.updateNext fun hb ↦ ?_
    exact (List.nodup_append.1 hnodup).2.2 b (by simp) b (List.mem_cons_of_mem a hb) rfl

/-- **Taking a node out.** -/
theorem unlink (h : Linked prev next (s ++ a :: t)) (hnodup : (s ++ a :: t).Nodup) :
    Linked (unlinkPrev prev next a) (unlinkNext prev next a) (s ++ t) := by
  rw [Linked, segment_append, Option.or_none, Option.or_none]
  exact ⟨h.unlink_before hnodup, h.unlink_behind hnodup⟩

/-- **Putting a node in front.** -/
theorem push (h : Linked prev next l) (hnodup : l.Nodup) (ha : a ∉ l) :
    Linked (pushPrev prev a l.head?) (update next a l.head?) (a :: l) := by
  cases l with
  | nil => simp [Linked, Segment, pushPrev]
  | cons b l =>
    have hab : a ≠ b := List.ne_of_not_mem_cons ha
    have hl : Segment (update prev a none) (update next a (some b)) none (b :: l)
        none := (Segment.updatePrev h ha).updateNext ha
    refine ⟨?_, by simp, hl.redirectPrev (List.nodup_cons.1 hnodup).1⟩
    simp only [pushPrev, List.head?_cons, update_of_ne hab, update_self]

theorem unlink_other (h : Linked prev next (s ++ a :: t)) (hl : Linked prev next l)
    (hdisj : ∀ b ∈ s ++ a :: t, b ∉ l) :
    Linked (unlinkPrev prev next a) (unlinkNext prev next a) l := by
  have hprev : Segment (unlinkPrev prev next a) next none l none := by
    rw [unlinkPrev, h.next_eq]
    cases t with
    | nil => exact hl
    | cons c t => exact hl.updatePrev (hdisj c (by simp))
  rw [unlinkNext, h.prev_eq]
  rcases List.eq_nil_or_concat s with rfl | ⟨s, b, rfl⟩
  · exact hprev
  · rw [List.concat_eq_append, List.getLast?_concat]
    exact hprev.updateNext (hdisj b (by simp))

theorem push_other (hl : Linked prev next l) (ha : a ∉ l) (ht : ∀ b ∈ t, b ∉ l) :
    Linked (pushPrev prev a t.head?) (update next a t.head?) l := by
  have hl' : Segment (update prev a none) (update next a t.head?) none l none :=
    (Segment.updatePrev hl ha).updateNext ha
  cases t with
  | nil => exact hl'
  | cons b t => exact hl'.updatePrev (ht b List.mem_cons_self)

end Linked

end Edit
