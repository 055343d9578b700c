import Mathlib.Data.List.Basic

/-!
# A queue with two ends

Elements are put in and taken out at the front and at the back. `step` takes the line through what
happens at it, and refuses what cannot happen: that something else is taken than what is there. So
`run` says of a whole history that it is the history of a queue, and what is left in it.
-/

universe u

/-- What happens at a queue with two ends. -/
inductive DequeEvent (α : Type u) where
  /-- Elements are taken out in front. -/
  | take (l : List α)
  /-- An element is put back in front. -/
  | putBack (a : α)
  /-- Elements are put in at the end. -/
  | put (l : List α)
  /-- The last element is taken back. -/
  | takeBack
  deriving DecidableEq

namespace Deque

variable {α : Type u} [DecidableEq α]

/-- The queue, from the front, after what happens. -/
def step (d : List α) : DequeEvent α → Option (List α)
  | .take l => if l <+: d then some (d.drop l.length) else none
  | .putBack a => some (a :: d)
  | .put l => some (d ++ l)
  | .takeBack => if d = [] then none else some d.dropLast

/-- The queue after all that happens, one after the other. -/
def run : List α → List (DequeEvent α) → Option (List α)
  | d, [] => some d
  | d, e :: es => (step d e).bind fun d' ↦ run d' es

@[simp]
theorem step_take_append {l d : List α} : step (l ++ d) (.take l) = some d := by
  rw [step, if_pos (List.prefix_append l d), List.drop_left]

theorem run_cons {d d' : List α} {e : DequeEvent α} {es : List (DequeEvent α)}
    (h : step d e = some d') : run d (e :: es) = run d' es := by
  rw [run, h, Option.bind_some]

end Deque
