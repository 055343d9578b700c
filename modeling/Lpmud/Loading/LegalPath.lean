import Lpmud.Svalue
import Mathlib.Data.List.Infix

/-!
# Paths that are legal

`legal_path` and `check_valid_path` of `simulate.c`. A path is looked up from the root of the
mudlib, one component after the other: `..` goes up, and an absolute path starts at the root of the
system.

The scan of `legal_path` finds two dots in a row wherever they are (`dotScan_iff`), and so more than
it has to. A path that it accepts has no component that goes up (`confined_of_legalPath`).
-/

namespace Lpmud.Loading

open List

abbrev SPACE : UInt8 := 32
abbrev DOT : UInt8 := 46
abbrev SLASH : UInt8 := 47

/-! ### The checks -/

/-- The loop of `legal_path` over the dots. -/
def dotScan : Bytes → Bool
  | [] => true
  | c :: p => if c = DOT ∧ p.head? = some DOT then false else dotScan p

def legalPath : Option Bytes → Bool
  | none => false
  | some path =>
    if SPACE ∈ path then false
    else if path.head? = some SLASH then false
    else dotScan path

/-- `check_valid_path`, where `v` is what `valid_read` or `valid_write` of the master returns. -/
def checkValidPath (v : Option Svalue) (path : Bytes) : Option Bytes :=
  let refused := match v with
    | none => false
    | some (.number n) => n == 0
    | some _ => true
  if refused then none
  else
    let path := if path.head? = some SLASH then path.tail else path
    let path := if path = [] then [DOT] else path
    if legalPath (some path) then some path else none

/-! ### Looking up a path -/

/-- The components of a path, between the slashes. -/
def components : Bytes → List Bytes
  | [] => [[]]
  | c :: p =>
    if c = SLASH then [] :: components p
    else
      match components p with
      | [] => [[c]]
      | d :: ds => (c :: d) :: ds

/-- The directories that are entered below the root, the last one first. A path that goes up from
the root leaves it. -/
def walk (dirs : List Bytes) : List Bytes → Option (List Bytes)
  | [] => some dirs
  | c :: cs =>
    if c = [] ∨ c = [DOT] then walk dirs cs
    else if c = [DOT, DOT] then
      match dirs with
      | [] => none
      | _ :: dirs => walk dirs cs
    else walk (c :: dirs) cs

/-- **A path stays below the root of the mudlib**: it is not absolute, and after any number of its
components it has not left the root. -/
structure Confined (path : Bytes) : Prop where
  relative : path.head? ≠ some SLASH
  climbs : [DOT, DOT] ∉ components path
  inside : ∀ n, (walk [] ((components path).take n)).isSome

variable {path p : Bytes}

theorem dots_prefix_iff {c : UInt8} :
    [DOT, DOT] <+: c :: p ↔ c = DOT ∧ p.head? = some DOT := by
  rw [cons_prefix_cons]
  refine and_congr eq_comm ?_
  cases p with
  | nil => exact iff_of_false (fun h ↦ by cases prefix_nil.1 h) nofun
  | cons d p =>
    rw [cons_prefix_cons, and_iff_left nil_prefix, List.head?_cons, Option.some.injEq]
    exact eq_comm

/-- **The scan finds two dots in a row**, wherever they are. -/
theorem dotScan_iff : dotScan path = true ↔ ¬[DOT, DOT] <:+: path := by
  induction path with
  | nil => exact iff_of_true rfl fun h ↦ by cases infix_nil.1 h
  | cons c p ih =>
    rw [infix_cons_iff, not_or, ← ih, dots_prefix_iff, dotScan]
    split
    next hdots => exact iff_of_false Bool.false_ne_true fun h ↦ h.1 hdots
    next hdots => exact (and_iff_right hdots).symm

theorem components_infix (path : Bytes) : ∃ d ds, components path = d :: ds ∧ d <+: path ∧
    ∀ e ∈ ds, e <:+: path := by
  induction path with
  | nil => exact ⟨[], [], rfl, prefix_rfl, nofun⟩
  | cons c p ih =>
    obtain ⟨d, ds, hp, hd, hds⟩ := ih
    have hin {e : Bytes} (he : e <:+: p) : e <:+: c :: p :=
      he.trans (suffix_cons c p).isInfix
    rw [components]
    split
    next =>
      rw [hp]
      refine ⟨[], d :: ds, rfl, nil_prefix, forall_mem_cons.2 ⟨hin hd.isInfix, ?_⟩⟩
      exact fun e he ↦ hin (hds e he)
    next =>
      rw [hp]
      exact ⟨c :: d, ds, rfl, cons_prefix_cons.2 ⟨rfl, hd⟩, fun e he ↦ hin (hds e he)⟩

/-- Where no two dots follow each other, no component is `..`. -/
theorem dots_not_mem_components (h : dotScan path = true) : [DOT, DOT] ∉ components path := by
  intro hmem
  refine dotScan_iff.1 h ?_
  obtain ⟨d, ds, hcomponents, hd, hds⟩ := components_infix path
  rw [hcomponents] at hmem
  rcases mem_cons.1 hmem with rfl | hmem
  · exact hd.isInfix
  · exact hds _ hmem

/-- Without `..` nothing goes up, by induction on the components. -/
theorem walk_isSome {cs : List Bytes} (h : [DOT, DOT] ∉ cs) (dirs : List Bytes) :
    (walk dirs cs).isSome := by
  induction cs generalizing dirs with
  | nil => rfl
  | cons c cs ih =>
    rw [mem_cons, not_or] at h
    obtain ⟨hc, hcs⟩ := h
    rw [walk.eq_def]
    dsimp only
    split
    next => exact ih hcs dirs
    next =>
      rw [if_neg (Ne.symm hc)]
      exact ih hcs (c :: dirs)

/-- **A path that `legal_path` accepts stays below the root.** -/
theorem confined_of_legalPath (h : legalPath (some path) = true) : Confined path := by
  rw [legalPath] at h
  split at h
  next => cases h
  next =>
    split at h
    next => cases h
    next hslash =>
      have hdots := dots_not_mem_components h
      exact ⟨hslash, hdots, fun n ↦ walk_isSome (fun hmem ↦ hdots (mem_of_mem_take hmem)) []⟩

theorem legalPath_of_checkValidPath {v : Option Svalue} (h : checkValidPath v p = some path) :
    legalPath (some path) = true := by
  rw [checkValidPath.eq_def] at h
  dsimp only at h
  split_ifs at h
  all_goals
    obtain rfl := Option.some.inj h
    assumption

/-- A path is accepted: `legal_path` says so of the path itself, or `check_valid_path` returns
it. -/
def Accepted (p path : Bytes) : Prop :=
  legalPath (some p) = true ∧ path = p ∨ ∃ v, checkValidPath v p = some path

/-- **What is accepted stays below the root of the mudlib.** -/
theorem confined_of_accepted {p path : Bytes} (h : Accepted p path) : Confined path := by
  rcases h with ⟨hlegal, rfl⟩ | ⟨v, hv⟩
  · exact confined_of_legalPath hlegal
  · exact confined_of_legalPath (legalPath_of_checkValidPath hv)

/-- `/a/.b`, which the master does not refuse. -/
theorem confined_of_accepted_hidden : Confined [97, 47, 46, 98] :=
  confined_of_accepted (p := [47, 97, 47, 46, 98]) (.inr ⟨none, rfl⟩)

end Lpmud.Loading
