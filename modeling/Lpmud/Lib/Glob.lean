import Mathlib.Computability.Language

/-!
# Glob patterns

Patterns of letters, of `?` for one letter, and of `*` for any number of them, over any alphabet,
and the language of a pattern.

A `*` at the end makes a difference to what may follow it: behind one or more of them there may be
anything (`language_trailing`). A pattern with something else behind its last `*` needs letters
there (`ne_nil_of_mem`).
-/

universe u

namespace Glob

open List

variable {α : Type u}

/-- A piece of a pattern. -/
inductive Token (α : Type u) where
  | lit (c : α)
  | any
  | star
  deriving DecidableEq

/-- The language of a piece. -/
def Token.language : Token α → Language α
  | .lit c => {[c]}
  | .any => {s | ∃ c, s = [c]}
  | .star => ⊤

/-- **The language of a pattern.** -/
def language (p : List (Token α)) : Language α :=
  (p.map Token.language).prod

variable {p q : List (Token α)} {s t : List α} {c : α}

theorem language_cons (x : Token α) (p : List (Token α)) :
    language (x :: p) = x.language * language p :=
  prod_cons

theorem language_append (p q : List (Token α)) : language (p ++ q) = language p * language q := by
  rw [language, map_append, prod_append]
  rfl

@[simp] theorem mem_language_lit :
    s ∈ language (.lit c :: p) ↔ ∃ t, s = c :: t ∧ t ∈ language p := by
  rw [language_cons, Language.mem_mul]
  constructor
  · rintro ⟨a, rfl, t, ht, rfl⟩
    exact ⟨t, rfl, ht⟩
  · rintro ⟨t, rfl, ht⟩
    exact ⟨[c], rfl, t, ht, rfl⟩

@[simp] theorem mem_language_any :
    s ∈ language (.any :: p) ↔ ∃ c t, s = c :: t ∧ t ∈ language p := by
  rw [language_cons, Language.mem_mul]
  constructor
  · rintro ⟨a, ⟨c, rfl⟩, t, ht, rfl⟩
    exact ⟨c, t, rfl, ht⟩
  · rintro ⟨c, t, rfl, ht⟩
    exact ⟨[c], ⟨c, rfl⟩, t, ht, rfl⟩

/-- Behind a `*` the rest of the pattern begins somewhere. -/
theorem mem_language_star : s ∈ language (.star :: p) ↔ ∃ t, t <:+ s ∧ t ∈ language p := by
  rw [language_cons, Language.mem_mul]
  constructor
  · rintro ⟨a, -, t, ht, rfl⟩
    exact ⟨t, suffix_append a t, ht⟩
  · rintro ⟨t, ⟨a, rfl⟩, ht⟩
    exact ⟨a, trivial, t, ht, rfl⟩

theorem language_star : language [(.star : Token α)] = ⊤ := by
  ext s
  refine ⟨fun _ ↦ trivial, fun _ ↦ mem_language_star.2 ⟨[], nil_suffix, rfl⟩⟩

theorem language_trailing {k : ℕ} (hk : 0 < k) :
    language (List.replicate k (.star : Token α)) = ⊤ := by
  obtain ⟨k, rfl⟩ := Nat.exists_eq_add_of_le' hk
  ext s
  refine ⟨fun _ ↦ trivial, fun _ ↦ ?_⟩
  induction k with
  | zero => exact mem_language_star.2 ⟨[], nil_suffix, rfl⟩
  | succ k ih =>
    rw [replicate_succ]
    exact mem_language_star.2 ⟨s, suffix_rfl, ih (Nat.succ_pos k)⟩

/-- A pattern with something that is no `*` needs letters. -/
theorem ne_nil_of_mem (hp : ∃ x ∈ p, x ≠ .star) (hs : s ∈ language p) : s ≠ [] := by
  induction p generalizing s with
  | nil =>
    obtain ⟨x, hx, -⟩ := hp
    exact absurd hx not_mem_nil
  | cons x p ih =>
    cases x with
    | lit c =>
      obtain ⟨t, rfl, -⟩ := mem_language_lit.1 hs
      exact cons_ne_nil c t
    | any =>
      obtain ⟨c, t, rfl, -⟩ := mem_language_any.1 hs
      exact cons_ne_nil c t
    | star =>
      obtain ⟨t, hsuffix, ht⟩ := mem_language_star.1 hs
      have hrest : ∃ x ∈ p, x ≠ .star := by
        obtain ⟨y, hy, hne⟩ := hp
        exact ⟨y, (mem_cons.1 hy).resolve_left hne, hne⟩
      rintro rfl
      exact ih hrest ht (suffix_nil.1 hsuffix)

end Glob
