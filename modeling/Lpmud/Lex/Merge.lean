import Lpmud.Lib.TransitionSystem
import Lpmud.Loading.LegalPath

/-!
# The path of an include file

`merge` of `lex.c`: the name of an include file is looked up from the directory of the current file.
It is done with `strrchr` on the one string and `strncmp` and `strchr` on the other. Here it is
compared with taking the components one at a time (`resolve`).

A component `.` or `..` at the end of the name is copied like any other, and after one in front of
two slashes the length for `strncat` is negative: then the rest is copied whole, and is still to be
done. These are the only slips (`canonical_iff`).

Whatever includes what, no file outside of the mudlib is opened (`confined_of_including`).
-/

namespace Lpmud.Lex.Merge

open List Option
open Loading (DOT SLASH components)

/-- A copy to the destination: the length that is asked for, and the bytes of the destination that
are in use after it. -/
structure Copy where
  length : ℤ
  used : ℕ

/-- The destination, and the copies to it so far. -/
structure Dest where
  text : Bytes
  copies : List Copy

namespace Dest

/-- `strcpy` and `strcat` at the end of the text. -/
def strcat (dest : Dest) (s : Bytes) : Dest where
  text := dest.text ++ s
  copies := dest.copies ++ [⟨s.length, (dest.text ++ s).length + 1⟩]

/-- A slash, only if the text is not empty. -/
def slash (dest : Dest) : Dest :=
  if dest.text ≠ [] then dest.strcat [SLASH] else dest

/-- `strncat`. A negative length is a very large one, as it is a `size_t`. -/
def strncat (dest : Dest) (s : Bytes) (n : ℤ) : Dest :=
  let text := dest.text ++ if n < 0 then s else s.take n.toNat
  ⟨text, dest.copies ++ [⟨n, text.length + 1⟩]⟩

end Dest

/-- What is in front of the last slash, or nothing. -/
def strip (text : Bytes) : Bytes :=
  ((text.reverse.dropWhile (· ≠ SLASH)).drop 1).reverse

/-- Slashes are skipped. -/
def skip (s : Bytes) : Bytes :=
  s.dropWhile (· = SLASH)

theorem length_skip_le (s : Bytes) : (skip s).length ≤ s.length :=
  length_dropWhile_le _ _

/-- The loop of `merge` over what is left of the name (`from`). -/
def mergeLoop (dest : Dest) (rest : Bytes) : Dest :=
  if hrest : rest = [] then dest
  else if [DOT, DOT, SLASH] <+: rest then
    -- including from above mudlib is not allowed
    if dest.text = [] then dest
    else mergeLoop { dest with text := strip dest.text } (rest.drop 3)
  else if [DOT, SLASH] <+: rest then mergeLoop dest (rest.drop 2)
  else if SLASH ∈ rest then
    let q : ℤ := rest.idxOf SLASH
    let start : ℤ := rest.length - (skip rest).length
    mergeLoop (dest.slash.strncat (skip rest) (q - start)) (skip (rest.drop (rest.idxOf SLASH + 1)))
  else dest.slash.strcat rest
termination_by rest.length
decreasing_by
  all_goals have hpos := length_pos_iff.2 hrest
  · rw [length_drop]
    exact Nat.sub_lt hpos (by decide)
  · rw [length_drop]
    exact Nat.sub_lt hpos (by decide)
  · refine (length_skip_le _).trans_lt ?_
    rw [length_drop]
    exact Nat.sub_lt hpos (Nat.succ_pos _)

def merge (currentFile name : Bytes) : Dest :=
  let dest := Dest.strcat ⟨[], []⟩ currentFile
  let dest := { dest with text := strip dest.text }
  let dest := if name.head? = some SLASH then { dest with text := [] } else dest
  mergeLoop dest (skip name)

/-! ### Resolving a name -/

/-- A file or directory in a directory. The root is the empty path. -/
def child (dir c : Bytes) : Bytes :=
  if dir = [] then c else dir ++ SLASH :: c

/-- `.` and `..`. -/
def Dots (c : Bytes) : Prop :=
  c = [DOT] ∨ c = [DOT, DOT]

instance (c : Bytes) : Decidable (Dots c) :=
  inferInstanceAs (Decidable (_ ∨ _))

/-- The path of a component from a directory on. There is no way up from the root. -/
def enter (dir c : Bytes) : Option Bytes :=
  if c = [] ∨ c = [DOT] then some dir
  else if c = [DOT, DOT] then if dir = [] then none else some (strip dir)
  else some (child dir c)

/-- Components are taken one at a time, from a directory on. -/
def resolve (dir : Bytes) (cs : List Bytes) : Option Bytes :=
  cs.foldlM enter dir

/-- Where the components of a name are taken from: the root, or the directory of the current
file. -/
def base (currentFile name : Bytes) : Bytes :=
  if name.head? = some SLASH then [] else strip currentFile

/-- **The merged path is canonical**: it is the resolved name, and nothing when that is above the
root. It has no `.` and no `..`, and no copy has a negative length or leaves a destination of `size`
bytes. -/
structure Canonical (size : ℕ) (currentFile name : Bytes) : Prop where
  resolved : (merge currentFile name).text =
    (resolve (base currentFile name) (components name)).getD []
  dotless : ∀ c ∈ components (merge currentFile name).text, ¬Dots c
  length : ∀ k ∈ (merge currentFile name).copies, 0 ≤ k.length
  used : ∀ k ∈ (merge currentFile name).copies, k.used ≤ size

/-! ### When it is -/

/-- A `.` or `..` that is reached is at the end of the name, or in front of two slashes. Behind a
`..` that leads above the root nothing is read. -/
def Slip (dir : Bytes) (cs : List Bytes) : Prop :=
  ∃ p c rest, cs = p ++ c :: rest ∧ Dots c ∧ (resolve dir p).isSome ∧
    (rest = [] ∨ (∃ e es, rest = [] :: e :: es) ∧ (resolve dir (p ++ [c])).isSome)

/-- All that is passed on the way is shorter than `size`. -/
def Fits (size : ℕ) (dir : Bytes) (cs : List Bytes) : Prop :=
  ∀ p, p <+: cs → ∀ d, resolve dir p = some d → d.length < size

/-- What is kept of a directory, where `n` components have been entered from it. -/
def kept (dir : Bytes) : ℕ → List Bytes → Bytes
  | _, [] => dir
  | n, c :: cs =>
    if c = [] ∨ c = [DOT] then kept dir n cs
    else if c = [DOT, DOT] then
      if n = 0 then kept (strip dir) 0 cs else kept dir (n - 1) cs
    else kept dir (n + 1) cs

section Texts

variable {c r d : Bytes}

theorem components_of_not_mem (hc : SLASH ∉ c) : components c = [c] := by
  induction c with
  | nil => rfl
  | cons a c ih =>
    rw [mem_cons, not_or] at hc
    rw [components, if_neg (Ne.symm hc.1), ih hc.2]

theorem components_append (hc : SLASH ∉ c) : components (c ++ SLASH :: r) = c :: components r := by
  induction c with
  | nil => rw [nil_append, components, if_pos rfl]
  | cons a c ih =>
    rw [mem_cons, not_or] at hc
    rw [cons_append, components, if_neg (Ne.symm hc.1), ih hc.2]

theorem components_up : components (DOT :: DOT :: SLASH :: r) = [DOT, DOT] :: components r :=
  components_append (c := [DOT, DOT]) (by decide)

theorem components_here : components (DOT :: SLASH :: r) = [DOT] :: components r :=
  components_append (c := [DOT]) (by decide)

theorem slash_cases (s : Bytes) : SLASH ∉ s ∨ ∃ c r, SLASH ∉ c ∧ s = c ++ SLASH :: r := by
  by_cases hs : SLASH ∈ s
  · obtain ⟨c, r, hs, hc⟩ := eq_append_cons_of_mem hs
    exact .inr ⟨c, r, hc, hs⟩
  · exact .inl hs

theorem components_ne_nil (s : Bytes) : components s ≠ [] := by
  rcases slash_cases s with hs | ⟨c, r, hc, rfl⟩
  · rw [components_of_not_mem hs]
    exact cons_ne_nil _ _
  · rw [components_append hc]
    exact cons_ne_nil _ _

theorem strip_of_not_mem (hc : SLASH ∉ c) : strip c = [] := by
  have hdrop : c.reverse.dropWhile (· ≠ SLASH) = [] := by
    rw [dropWhile_eq_nil_iff]
    intro a ha
    rw [decide_eq_true_eq]
    rintro rfl
    exact hc (mem_reverse.1 ha)
  rw [strip, hdrop]
  rfl

theorem strip_append (hc : SLASH ∉ c) : strip (d ++ SLASH :: c) = d := by
  have hdrop : (d ++ SLASH :: c).reverse.dropWhile (· ≠ SLASH) = SLASH :: d.reverse := by
    rw [reverse_append, reverse_cons, append_assoc,
      dropWhile_append_of_pos]
    · simp
    · intro a ha
      rw [decide_eq_true_eq]
      rintro rfl
      exact hc (mem_reverse.1 ha)
  rw [strip, hdrop, drop_one, tail_cons, reverse_reverse]

theorem strip_child (hc : SLASH ∉ c) : strip (child d c) = d := by
  rw [child]
  split
  next hd => rw [strip_of_not_mem hc, hd]
  next => exact strip_append hc

theorem components_snoc (hc : SLASH ∉ c) (d : Bytes) :
    components (d ++ SLASH :: c) = components d ++ [c] := by
  induction d with
  | nil => simpa [components] using components_of_not_mem hc
  | cons a d ih =>
    rw [cons_append, components, components, ih]
    split
    · rw [cons_append]
    · cases hd : components d with
      | nil => exact absurd hd (components_ne_nil d)
      | cons e es => rfl

theorem mem_components_child (hc : SLASH ∉ c) : c ∈ components (child d c) := by
  rw [child]
  split
  · rw [components_of_not_mem hc]
    exact mem_singleton_self c
  · rw [components_snoc hc]
    exact mem_append_right _ (mem_singleton_self c)

/-- A component that is no `.` or `..` adds none. -/
theorem dotless_child (hc : SLASH ∉ c) (hdots : ¬Dots c) :
    (∀ e ∈ components (child d c), ¬Dots e) ↔ ∀ e ∈ components d, ¬Dots e := by
  rw [child]
  split
  next hd =>
    rw [components_of_not_mem hc, hd, components, forall_mem_singleton,
      forall_mem_singleton]
    exact iff_of_true hdots (by decide)
  next =>
    rw [components_snoc hc, forall_mem_append]
    simp [hdots]

theorem child_ne_nil (hc : c ≠ []) : child d c ≠ [] := by
  rw [child]
  split
  · exact hc
  · exact append_ne_nil_of_right_ne_nil d (cons_ne_nil _ _)

theorem skip_cons_slash : skip (SLASH :: r) = skip r := by
  rw [skip, dropWhile_cons_of_pos (by simp), skip]

theorem skip_eq_self (hr : r.head? ≠ some SLASH) : skip r = r := by
  cases r with
  | nil => rfl
  | cons a r =>
    rw [skip, dropWhile_cons_of_neg]
    simpa using hr

theorem head?_skip (s : Bytes) : (skip s).head? ≠ some SLASH := by
  intro h
  have := List.head?_dropWhile_not (· = SLASH) s
  rw [skip] at h
  rw [h] at this
  simp at this

theorem components_skip (s : Bytes) :
    ∃ n, components s = List.replicate n [] ++ components (skip s) := by
  induction s with
  | nil => exact ⟨0, rfl⟩
  | cons a s ih =>
    by_cases ha : a = SLASH
    · obtain ⟨n, hn⟩ := ih
      refine ⟨n + 1, ?_⟩
      rw [ha, skip_cons_slash, components, if_pos rfl, hn, replicate_succ, cons_append]
    · refine ⟨0, ?_⟩
      rw [skip_eq_self (by simpa using ha)]
      rfl

end Texts

/-! ### The steps of the loop -/

section Steps

variable {dest : Dest} {c r : Bytes}

theorem mergeLoop_nil : mergeLoop dest [] = dest := by
  rw [mergeLoop, dif_pos rfl]

theorem mergeLoop_up : mergeLoop dest (DOT :: DOT :: SLASH :: r) =
    if dest.text = [] then dest else mergeLoop { dest with text := strip dest.text } r := by
  rw [mergeLoop, dif_neg (cons_ne_nil _ _), if_pos (by simp)]
  rfl

theorem mergeLoop_here : mergeLoop dest (DOT :: SLASH :: r) = mergeLoop dest r := by
  rw [mergeLoop, dif_neg (cons_ne_nil _ _), if_neg (by simp [DOT, SLASH]), if_pos (by simp)]
  rfl

/-- What is read starts with no `.` or `..` in front of a slash. -/
theorem not_prefix (hc : SLASH ∉ c) (hdots : ¬Dots c) :
    ¬[DOT, DOT, SLASH] <+: c ++ SLASH :: r ∧ ¬[DOT, SLASH] <+: c ++ SLASH :: r := by
  rw [Dots, not_or] at hdots
  match c with
  | [] => simp [DOT, SLASH]
  | [a] => simp_all [DOT, SLASH, eq_comm]
  | [a, b] => simp_all [DOT, SLASH, eq_comm]
  | a :: b :: e :: c => simp_all [DOT, SLASH, eq_comm]

theorem start_eq (hc : SLASH ∉ c) (hne : c ≠ []) : skip (c ++ SLASH :: r) = c ++ SLASH :: r := by
  refine skip_eq_self fun h ↦ hc ?_
  rw [List.head?_append_of_ne_nil c hne] at h
  exact mem_of_mem_head? h

theorem idxOf_slash (hc : SLASH ∉ c) : (c ++ SLASH :: r).idxOf SLASH = c.length := by
  rw [idxOf_append_of_notMem hc, idxOf_cons_self, Nat.add_zero]

theorem mergeLoop_child (hc : SLASH ∉ c) (hne : c ≠ []) (hdots : ¬Dots c) :
    mergeLoop dest (c ++ SLASH :: r) =
      mergeLoop (dest.slash.strncat (c ++ SLASH :: r) c.length) (skip r) := by
  obtain ⟨hup, hhere⟩ := not_prefix (r := r) hc hdots
  have hdrop : (c ++ SLASH :: r).drop (c.length + 1) = r := by
    rw [← drop_drop, drop_left, drop_one, tail_cons]
  rw [mergeLoop, dif_neg (append_ne_nil_of_left_ne_nil hne _), if_neg hup, if_neg hhere,
    if_pos (by simp)]
  simp only [start_eq hc hne, idxOf_slash hc, hdrop, Int.sub_self, Int.sub_zero]

theorem mergeLoop_last (hc : SLASH ∉ c) (hne : c ≠ []) :
    mergeLoop dest c = dest.slash.strcat c := by
  have hlead {l : Bytes} (hl : SLASH ∈ l) : ¬l <+: c := fun h ↦ hc (h.subset hl)
  rw [mergeLoop, dif_neg hne, if_neg (hlead (by simp)), if_neg (hlead (by simp)), if_neg hc]

theorem mergeLoop_slash : ∃ dest' rest, mergeLoop dest (SLASH :: r) = mergeLoop dest' rest ∧
    ∃ k ∈ dest'.copies, k.length < 0 := by
  have hup : ¬[DOT, DOT, SLASH] <+: SLASH :: r := by simp [DOT, SLASH]
  have hhere : ¬[DOT, SLASH] <+: SLASH :: r := by simp [DOT, SLASH]
  rw [mergeLoop, dif_neg (cons_ne_nil _ _), if_neg hup, if_neg hhere,
    if_pos mem_cons_self]
  refine ⟨_, _, rfl, _, mem_append_right _ (mem_singleton_self _), ?_⟩
  have hle := length_skip_le r
  simp only [idxOf_cons_self, skip_cons_slash, length_cons]
  omega

theorem prefix_copies (dest : Dest) (rest : Bytes) :
    dest.copies <+: (mergeLoop dest rest).copies := by
  have hslash (dest : Dest) : dest.copies <+: dest.slash.copies := by
    rw [Dest.slash]
    split
    · exact prefix_append _ _
    · exact prefix_rfl
  induction dest, rest using mergeLoop.induct with
  | case1 dest => rw [mergeLoop_nil]
  | case2 dest rest hrest hup htext => rw [mergeLoop, dif_neg hrest, if_pos hup, if_pos htext]
  | case3 dest rest hrest hup htext ih =>
    rw [mergeLoop, dif_neg hrest, if_pos hup, if_neg htext]
    exact ih
  | case4 dest rest hrest hup hhere ih =>
    rw [mergeLoop, dif_neg hrest, if_neg hup, if_pos hhere]
    exact ih
  | case5 dest rest hrest hup hhere hmem q start ih =>
    rw [mergeLoop, dif_neg hrest, if_neg hup, if_neg hhere, if_pos hmem]
    exact ((hslash dest).trans (prefix_append _ _)).trans ih
  | case6 dest rest hrest hup hhere hmem =>
    rw [mergeLoop, dif_neg hrest, if_neg hup, if_neg hhere, if_neg hmem]
    exact (hslash dest).trans (prefix_append _ _)

/-! ### Copies that fit -/

/-- The copies from `dest` to `dest'` have no negative length, and are in `size` bytes exactly if
`fits`. -/
def Copied (size : ℕ) (dest dest' : Dest) (fits : Prop) : Prop :=
  ∃ ks, dest'.copies = dest.copies ++ ks ∧ (∀ k ∈ ks, 0 ≤ k.length) ∧
    (dest.text.length < size → ((∀ k ∈ ks, k.used ≤ size) ↔ fits))

theorem text_strncat : (dest.slash.strncat (c ++ SLASH :: r) c.length).text =
    child dest.text c := by
  have hn : ¬(c.length : ℤ) < 0 := by omega
  rw [Dest.strncat, Dest.slash, child, if_neg hn, Int.toNat_natCast, take_left]
  by_cases htext : dest.text = []
  · simp [htext]
  · simp [htext, Dest.strcat]

theorem text_strcat : (dest.slash.strcat c).text = child dest.text c := by
  rw [Dest.strcat, Dest.slash, child]
  by_cases htext : dest.text = []
  · simp [htext]
  · simp [htext, Dest.strcat]

theorem Copied.child {size : ℕ} {dest' : Dest} (htext : dest'.text = child dest.text c)
    (hcopies : dest'.copies = dest.slash.copies ++ [⟨c.length, dest'.text.length + 1⟩]) :
    Copied size dest dest' (dest'.text.length < size) := by
  by_cases hdest : dest.text = []
  · refine ⟨_, by rw [hcopies, Dest.slash, if_neg (not_not.2 hdest)], ?_, fun _ ↦ ?_⟩
    · simp
    · exact forall_mem_singleton.trans Nat.succ_le_iff
  · rw [Dest.slash, if_pos hdest, Dest.strcat, append_assoc] at hcopies
    refine ⟨_, hcopies, ?_, fun _ ↦ ?_⟩
    · simp
    · have hlen : dest'.text.length = dest.text.length + 1 + c.length := by
        rw [htext, Merge.child, if_neg hdest, length_append, length_cons]
        omega
      simp
      omega

end Steps

/-! ### The components that are read -/

section Components

variable {size : ℕ} {d c r : Bytes} {cs : List Bytes}

/-- Names are read from the front: a `.` or `..`, a slash too many, or a component, behind which
slashes are skipped. -/
theorem rest_induction {P : Bytes → Prop} (nil : P [])
    (last : ∀ c, SLASH ∉ c → c ≠ [] → P c)
    (up : ∀ r, P r → P (DOT :: DOT :: SLASH :: r)) (here : ∀ r, P r → P (DOT :: SLASH :: r))
    (slash : ∀ r, P (SLASH :: r))
    (child : ∀ c r, SLASH ∉ c → c ≠ [] → ¬Dots c → P (skip r) → P (c ++ SLASH :: r))
    (rest : Bytes) : P rest := by
  induction hn : rest.length using Nat.strong_induction_on generalizing rest with
  | _ n ih =>
    subst hn
    rcases slash_cases rest with hrest | ⟨c, r, hc, rfl⟩
    · by_cases hnil : rest = []
      · exact hnil ▸ nil
      · exact last rest hrest hnil
    · have hr : r.length < (c ++ SLASH :: r).length := by
        rw [length_append, length_cons]
        omega
      by_cases hnil : c = []
      · exact hnil ▸ slash r
      by_cases hdots : Dots c
      · rcases hdots with rfl | rfl
        · exact here r (ih _ hr r rfl)
        · exact up r (ih _ hr r rfl)
      · exact child c r hc hnil hdots (ih _ ((length_skip_le r).trans_lt hr) _ rfl)

theorem resolve_cons : resolve d (c :: cs) = (enter d c).bind (resolve · cs) :=
  foldlM_cons

theorem resolve_singleton : resolve d [c] = enter d c := by
  rw [resolve_cons]
  exact bind_fun_some _

theorem enter_nil : enter d [] = some d :=
  if_pos (.inl rfl)

theorem enter_dot : enter d [DOT] = some d :=
  if_pos (.inr rfl)

theorem enter_dots : enter d [DOT, DOT] = if d = [] then none else some (strip d) := by
  rw [enter, if_neg (by decide), if_pos rfl]

theorem enter_child (hc : c ≠ []) (hdots : ¬Dots c) : enter d c = some (child d c) := by
  rw [Dots, not_or] at hdots
  rw [enter, if_neg (not_or.2 ⟨hc, hdots.1⟩), if_neg hdots.2]

theorem slip_cons : Slip d (c :: cs) ↔
    Dots c ∧ (cs = [] ∨ (∃ e es, cs = [] :: e :: es) ∧ (enter d c).isSome) ∨
      ∃ d', enter d c = some d' ∧ Slip d' cs := by
  constructor
  · rintro ⟨p, x, rest, heq, hdots, hp, hend⟩
    cases p with
    | nil =>
      obtain ⟨rfl, rfl⟩ := List.cons.inj heq
      refine .inl ⟨hdots, hend.imp_right fun ⟨hempty, hsome⟩ ↦ ⟨hempty, ?_⟩⟩
      rwa [nil_append, resolve_singleton] at hsome
    | cons a p =>
      obtain ⟨rfl, rfl⟩ := List.cons.inj heq
      cases ha : enter d c with
      | none => simp [resolve_cons, ha] at hp
      | some d' =>
        refine .inr ⟨d', rfl, p, x, rest, rfl, hdots, ?_, ?_⟩
        · rwa [resolve_cons, ha, bind_some] at hp
        · rwa [cons_append, resolve_cons, ha, bind_some] at hend
  · rintro (⟨hdots, hend⟩ | ⟨d', hd', p, x, rest, rfl, hdots, hp, hend⟩)
    · refine ⟨[], c, cs, rfl, hdots, rfl, hend.imp_right fun ⟨hempty, hsome⟩ ↦ ⟨hempty, ?_⟩⟩
      rwa [nil_append, resolve_singleton]
    · refine ⟨c :: p, x, rest, rfl, hdots, ?_, ?_⟩
      · rwa [resolve_cons, hd', bind_some]
      · rwa [cons_append, resolve_cons, hd', bind_some]

theorem fits_cons : Fits size d (c :: cs) ↔
    d.length < size ∧ ∀ d', enter d c = some d' → Fits size d' cs := by
  constructor
  · refine fun h ↦ ⟨h [] nil_prefix d rfl, fun d' hd' p hp e he ↦ ?_⟩
    refine h (c :: p) (cons_prefix_cons.2 ⟨rfl, hp⟩) e ?_
    rw [resolve_cons, hd', bind_some, he]
  · rintro ⟨hd, h⟩ p hp e he
    cases p with
    | nil =>
      obtain rfl := some.inj he
      exact hd
    | cons a p =>
      obtain ⟨rfl, hpre⟩ := cons_prefix_cons.1 hp
      rw [resolve_cons] at he
      obtain ⟨d', hd', he⟩ := bind_eq_some_iff.1 he
      exact h d' hd' p hpre e he

theorem Fits.length_lt (h : Fits size d cs) : d.length < size :=
  h [] nil_prefix d rfl

theorem fits_nil : Fits size d [] ↔ d.length < size := by
  refine ⟨Fits.length_lt, fun h p hp e he ↦ ?_⟩
  rw [prefix_nil.1 hp] at he
  obtain rfl := some.inj he
  exact h

/-! Slashes that are skipped make no difference. -/

theorem skip_eq {α : Type*} (f : List Bytes → α) (hf : ∀ cs, f ([] :: cs) = f cs)
    (r : Bytes) : f (components (skip r)) = f (components r) := by
  have hreplicate (n : ℕ) (cs : List Bytes) : f (List.replicate n [] ++ cs) = f cs := by
    induction n with
    | zero => rfl
    | succ n ih => rw [replicate_succ, cons_append, hf, ih]
  obtain ⟨n, hn⟩ := components_skip r
  rw [hn, hreplicate]

theorem resolve_skip : resolve d (components (skip r)) = resolve d (components r) :=
  skip_eq (resolve d) (fun cs ↦ by rw [resolve_cons, enter_nil, bind_some]) r

theorem slip_skip : Slip d (components (skip r)) ↔ Slip d (components r) := by
  refine iff_of_eq (skip_eq (Slip d) (fun cs ↦ propext ?_) r)
  rw [slip_cons, enter_nil]
  simp [Dots]

theorem fits_skip : Fits size d (components (skip r)) ↔ Fits size d (components r) := by
  refine iff_of_eq (skip_eq (Fits size d) (fun cs ↦ propext ?_) r)
  rw [fits_cons, enter_nil]
  simpa using Fits.length_lt

end Components

/-! ### The loop -/

section Loop

variable {size : ℕ} {dest : Dest} {r : Bytes}

theorem Copied.refl {fits : Prop} (h : dest.text.length < size → fits) :
    Copied size dest dest fits :=
  ⟨[], (append_nil _).symm, nofun, fun hlen ↦ by simp [h hlen]⟩

theorem Copied.trans {d₁ d₂ : Dest} {fits : Prop}
    (h₁ : Copied size dest d₁ (d₁.text.length < size)) (h₂ : Copied size d₁ d₂ fits) :
    Copied size dest d₂ (d₁.text.length < size ∧ fits) := by
  obtain ⟨ks₁, hks₁, hneg₁, hfits₁⟩ := h₁
  obtain ⟨ks₂, hks₂, hneg₂, hfits₂⟩ := h₂
  refine ⟨ks₁ ++ ks₂, by rw [hks₂, hks₁, append_assoc],
    forall_mem_append.2 ⟨hneg₁, hneg₂⟩, fun hlen ↦ ?_⟩
  rw [forall_mem_append, hfits₁ hlen]
  exact and_congr_right hfits₂

theorem Copied.congr {d₁ : Dest} {fits fits' : Prop} (h : Copied size dest d₁ fits)
    (hfits : dest.text.length < size → (fits ↔ fits')) : Copied size dest d₁ fits' := by
  obtain ⟨ks, hks, hneg, hused⟩ := h
  exact ⟨ks, hks, hneg, fun hlen ↦ (hused hlen).trans (hfits hlen)⟩

theorem length_strip_le (s : Bytes) : (strip s).length ≤ s.length := by
  rw [strip, length_reverse, length_drop]
  have hle := length_dropWhile_le (· ≠ SLASH) s.reverse
  rw [length_reverse] at hle
  omega

/-- A slash behind `.` or `..` is one too many. -/
theorem head?_of_not_slip {d c : Bytes} (hdots : Dots c) (hsome : (enter d c).isSome)
    (hslip : ¬Slip d (c :: components r)) : r.head? ≠ some SLASH := by
  intro hr
  obtain ⟨r, rfl⟩ := List.head?_eq_some_iff.1 hr
  refine hslip (slip_cons.2 (.inl ⟨hdots, .inr ⟨?_, hsome⟩⟩))
  rw [components, if_pos rfl]
  cases hcs : components r with
  | nil => exact absurd hcs (components_ne_nil r)
  | cons e es => exact ⟨e, es, rfl⟩

/-- **Without a slip the loop resolves the name**, and copies what fits. -/
theorem mergeLoop_resolve (rest : Bytes) : ∀ dest : Dest, rest.head? ≠ some SLASH →
    ¬Slip dest.text (components rest) →
    (mergeLoop dest rest).text = (resolve dest.text (components rest)).getD [] ∧
      Copied size dest (mergeLoop dest rest) (Fits size dest.text (components rest)) := by
  induction rest using rest_induction with
  | nil =>
    intro dest _ _
    rw [mergeLoop_nil]
    refine ⟨rfl, .refl fun hlen ↦ fits_cons.2 ⟨hlen, fun d' hd' ↦ ?_⟩⟩
    obtain rfl := some.inj (enter_nil.symm.trans hd')
    exact fits_nil.2 hlen
  | last c hc hne =>
    intro dest _ hslip
    rw [components_of_not_mem hc] at hslip ⊢
    have hdots : ¬Dots c := fun h ↦ hslip (slip_cons.2 (.inl ⟨h, .inl rfl⟩))
    rw [mergeLoop_last hc hne, resolve_singleton, enter_child hne hdots]
    refine ⟨text_strcat, (Copied.child text_strcat rfl).congr fun hlen ↦ ?_⟩
    rw [fits_cons, enter_child hne hdots, and_iff_right hlen, text_strcat]
    simp [fits_nil]
  | up r ih =>
    intro dest _ hslip
    rw [components_up] at hslip ⊢
    rw [mergeLoop_up, resolve_cons, enter_dots]
    split
    next htext =>
      refine ⟨htext, .refl fun hlen ↦ fits_cons.2 ⟨hlen, fun d' hd' ↦ ?_⟩⟩
      rw [enter_dots, if_pos htext] at hd'
      cases hd'
    next htext =>
      have henter : enter dest.text [DOT, DOT] = some (strip dest.text) := by
        rw [enter_dots, if_neg htext]
      obtain ⟨htext', hcopied⟩ := ih { dest with text := strip dest.text }
        (head?_of_not_slip (.inr rfl) (by rw [henter]; rfl) hslip)
        (fun h ↦ hslip (slip_cons.2 (.inr ⟨_, henter, h⟩)))
      refine ⟨htext', ?_⟩
      obtain ⟨ks, hks, hneg, hused⟩ := hcopied
      refine ⟨ks, hks, hneg, fun hlen ↦ ?_⟩
      rw [fits_cons, henter, hused ((length_strip_le _).trans_lt hlen), and_iff_right hlen]
      simp
  | here r ih =>
    intro dest _ hslip
    rw [components_here] at hslip ⊢
    obtain ⟨htext, hcopied⟩ := ih dest (head?_of_not_slip (.inl rfl) (by rw [enter_dot]; rfl) hslip)
      (fun h ↦ hslip (slip_cons.2 (.inr ⟨_, enter_dot, h⟩)))
    rw [mergeLoop_here, resolve_cons, enter_dot, bind_some]
    refine ⟨htext, hcopied.congr fun hlen ↦ ?_⟩
    rw [fits_cons, enter_dot, and_iff_right hlen]
    simp
  | slash r => exact fun _ h ↦ absurd rfl h
  | child c r hc hne hdots ih =>
    intro dest _ hslip
    have henter := enter_child (d := dest.text) hne hdots
    rw [components_append hc] at hslip ⊢
    obtain ⟨htext, hcopied⟩ := ih (dest.slash.strncat (c ++ SLASH :: r) c.length) (head?_skip r)
      (by
        rw [text_strncat, slip_skip]
        exact fun h ↦ hslip (slip_cons.2 (.inr ⟨_, henter, h⟩)))
    rw [text_strncat, resolve_skip] at htext
    rw [text_strncat, fits_skip] at hcopied
    rw [mergeLoop_child hc hne hdots, resolve_cons, henter]
    refine ⟨htext, ((Copied.child text_strncat rfl).trans hcopied).congr fun hlen ↦ ?_⟩
    rw [fits_cons, henter, and_iff_right hlen, text_strncat]
    simpa using Fits.length_lt

theorem not_slip_nil {d : Bytes} : ¬Slip d [] := by
  rintro ⟨p, c, rest, heq, -⟩
  exact append_ne_nil_of_right_ne_nil p (cons_ne_nil _ _) heq.symm

theorem head?_of_components {e : Bytes} {es : List Bytes}
    (h : components r = [] :: e :: es) : r.head? = some SLASH := by
  rcases slash_cases r with hr | ⟨c, r, hc, rfl⟩
  · rw [components_of_not_mem hr] at h
    cases h
  · rw [components_append hc] at h
    obtain ⟨rfl, -⟩ := List.cons.inj h
    rfl

theorem negative_of_head? (dest : Dest) (h : r.head? = some SLASH) :
    ∃ k ∈ (mergeLoop dest r).copies, k.length < 0 := by
  obtain ⟨r, rfl⟩ := List.head?_eq_some_iff.1 h
  obtain ⟨dest', rest, heq, k, hk, hneg⟩ := @mergeLoop_slash dest r
  rw [heq]
  exact ⟨k, (prefix_copies dest' rest).subset hk, hneg⟩

theorem slip_behind {d c : Bytes} (h : Slip d (c :: components r)) :
    (∃ d', enter d c = some d' ∧ Slip d' (components r)) ∨
      (enter d c).isSome ∧ r.head? = some SLASH := by
  rcases slip_cons.1 h with ⟨-, hnil | ⟨⟨e, es, hes⟩, hsome⟩⟩ | hslip
  · exact absurd hnil (components_ne_nil r)
  · exact .inr ⟨hsome, head?_of_components hes⟩
  · exact .inl hslip

theorem mergeLoop_slip (rest : Bytes) : ∀ dest : Dest, rest.head? ≠ some SLASH →
    Slip dest.text (components rest) →
    (∃ k ∈ (mergeLoop dest rest).copies, k.length < 0) ∨
      ∃ c ∈ components (mergeLoop dest rest).text, Dots c := by
  induction rest using rest_induction with
  | nil =>
    intro dest _ hslip
    rcases slip_cons.1 hslip with ⟨hdots, -⟩ | ⟨d', -, hslip⟩
    · exact absurd hdots (by decide)
    · exact absurd hslip not_slip_nil
  | last c hc hne =>
    intro dest _ hslip
    rw [components_of_not_mem hc] at hslip
    rcases slip_cons.1 hslip with ⟨hdots, -⟩ | ⟨d', -, hslip⟩
    · rw [mergeLoop_last hc hne, text_strcat]
      exact .inr ⟨c, mem_components_child hc, hdots⟩
    · exact absurd hslip not_slip_nil
  | up r ih =>
    intro dest _ hslip
    rw [components_up] at hslip
    have hbehind := slip_behind hslip
    rw [enter_dots] at hbehind
    rw [mergeLoop_up]
    split
    next htext => simp [htext] at hbehind
    next htext =>
      rw [if_neg htext] at hbehind
      by_cases hr : r.head? = some SLASH
      · exact .inl (negative_of_head? _ hr)
      · refine ih _ hr ?_
        simpa [hr] using hbehind
  | here r ih =>
    intro dest _ hslip
    rw [components_here] at hslip
    have hbehind := slip_behind hslip
    rw [enter_dot] at hbehind
    rw [mergeLoop_here]
    by_cases hr : r.head? = some SLASH
    · exact .inl (negative_of_head? _ hr)
    · refine ih _ hr ?_
      simpa [hr] using hbehind
  | slash r => exact fun _ h ↦ absurd rfl h
  | child c r hc hne hdots ih =>
    intro dest _ hslip
    rw [components_append hc, slip_cons, enter_child hne hdots] at hslip
    rw [mergeLoop_child hc hne hdots]
    refine ih _ (head?_skip r) ?_
    rw [text_strncat, slip_skip]
    simpa [hdots] using hslip

end Loop

/-! ### What is kept of the directory -/

section Kept

variable {d : Bytes} {cs : List Bytes}

/-- A name of a file or directory. -/
def Plain (c : Bytes) : Prop :=
  SLASH ∉ c ∧ c ≠ [] ∧ ¬Dots c

/-- The path of components that are entered one after the other, the last one first. -/
def below (d : Bytes) (ps : List Bytes) : Bytes :=
  ps.foldr (fun c d ↦ child d c) d

theorem dotless_below {ps : List Bytes} (hps : ∀ p ∈ ps, Plain p) :
    (∀ c ∈ components (below d ps), ¬Dots c) ↔ ∀ c ∈ components d, ¬Dots c := by
  induction ps with
  | nil => rfl
  | cons p ps ih =>
    obtain ⟨⟨hp, -, hdots⟩, hps⟩ := forall_mem_cons.1 hps
    rw [← ih hps]
    exact dotless_child hp hdots

theorem kept_root (n : ℕ) (cs : List Bytes) : kept [] n cs = [] := by
  induction cs generalizing n with
  | nil => rfl
  | cons c cs ih =>
    rw [kept]
    split_ifs
    · exact ih n
    · exact ih 0
    · exact ih (n - 1)
    · exact ih (n + 1)

theorem resolve_kept (hcs : ∀ c ∈ cs, SLASH ∉ c) {ps : List Bytes}
    (hps : ∀ p ∈ ps, Plain p) : ∃ ps', (∀ p ∈ ps', Plain p) ∧
      (resolve (below d ps) cs).getD [] = below (kept d ps.length cs) ps' := by
  induction cs generalizing d ps with
  | nil => exact ⟨ps, hps, rfl⟩
  | cons c cs ih =>
    obtain ⟨hc, hcs⟩ := forall_mem_cons.1 hcs
    rw [resolve_cons, enter, kept]
    by_cases hhere : c = [] ∨ c = [DOT]
    · rw [if_pos hhere, if_pos hhere]
      exact ih hcs hps
    rw [if_neg hhere, if_neg hhere]
    by_cases hup : c = [DOT, DOT]
    · rw [if_pos hup, if_pos hup]
      cases ps with
      | nil =>
        rw [show below d [] = d from rfl, length_nil, if_pos rfl]
        split
        next hroot =>
          refine ⟨[], nofun, ?_⟩
          rw [hroot, show strip [] = [] from rfl, kept_root]
          rfl
        next => exact ih hcs (forall_mem_nil _)
      | cons p ps =>
        obtain ⟨⟨hp, hpne, -⟩, hps⟩ := forall_mem_cons.1 hps
        rw [show below d (p :: ps) = child (below d ps) p from rfl, if_neg (child_ne_nil hpne),
          strip_child hp, length_cons, if_neg (Nat.succ_ne_zero _), Nat.add_sub_cancel]
        exact ih hcs hps
    · rw [if_neg hup, if_neg hup]
      rw [not_or] at hhere
      have hplain : Plain c := ⟨hc, hhere.1, not_or.2 ⟨hhere.2, hup⟩⟩
      exact ih hcs (forall_mem_cons.2 ⟨hplain, hps⟩)

theorem not_mem_components (s : Bytes) : ∀ c ∈ components s, SLASH ∉ c := by
  induction s with
  | nil => simp [components]
  | cons a s ih =>
    rw [components]
    split
    next => exact forall_mem_cons.2 ⟨not_mem_nil, ih⟩
    next ha =>
      cases hcs : components s with
      | nil => exact absurd hcs (components_ne_nil s)
      | cons e es =>
        rw [hcs] at ih
        obtain ⟨he, hes⟩ := forall_mem_cons.1 ih
        exact forall_mem_cons.2 ⟨by simp [Ne.symm ha, he], hes⟩

end Kept

/-! ### When the path is canonical -/

section Canonical

variable {size : ℕ} {currentFile name : Bytes}

theorem merge_eq (currentFile name : Bytes) : merge currentFile name =
    mergeLoop ⟨base currentFile name, [⟨currentFile.length, currentFile.length + 1⟩]⟩
      (skip name) := by
  rw [merge, base, Dest.strcat]
  split <;> rfl

theorem length_base_le : (base currentFile name).length ≤ currentFile.length := by
  rw [base]
  split
  · exact Nat.zero_le _
  · exact length_strip_le _

/-- The merged path is canonical **exactly if** no `.` or `..` that is reached is at the end of the
name or in front of two slashes, what is kept of the directory has none, and all that is passed on
the way is shorter than the destination. -/
theorem canonical_iff : Canonical size currentFile name ↔
    ¬Slip (base currentFile name) (components name) ∧
      (∀ c ∈ components (kept (base currentFile name) 0 (components name)), ¬Dots c) ∧
      currentFile.length < size ∧ Fits size (base currentFile name) (components name) := by
  let dest : Dest := ⟨base currentFile name, [⟨currentFile.length, currentFile.length + 1⟩]⟩
  have hmerge : merge currentFile name = mergeLoop dest (skip name) := merge_eq currentFile name
  by_cases hslip : Slip (base currentFile name) (components name)
  · refine iff_of_false (fun h ↦ ?_) fun h ↦ h.1 hslip
    rcases mergeLoop_slip _ dest (head?_skip name) (slip_skip.2 hslip) with
      ⟨k, hk, hneg⟩ | ⟨c, hc, hdots⟩
    · exact absurd hneg (Int.not_lt.2 (h.length k (hmerge ▸ hk)))
    · exact h.dotless c (hmerge ▸ hc) hdots
  obtain ⟨htext, ks, hks, hneg, hused⟩ := @mergeLoop_resolve size _ dest (head?_skip name)
    (slip_skip.not.2 hslip)
  rw [← hmerge, resolve_skip] at htext
  rw [← hmerge] at hks
  rw [fits_skip] at hused
  -- the text without `.` and `..`
  obtain ⟨ps, hps, hkept⟩ := @resolve_kept (base currentFile name) _ (not_mem_components name) []
    (forall_mem_nil _)
  have hdotless : (∀ c ∈ components (merge currentFile name).text, ¬Dots c) ↔
      ∀ c ∈ components (kept (base currentFile name) 0 (components name)), ¬Dots c := by
    rw [htext]
    exact hkept ▸ dotless_below hps
  have hcopies {P : Copy → Prop} : (∀ k ∈ (merge currentFile name).copies, P k) ↔
      P ⟨currentFile.length, currentFile.length + 1⟩ ∧ ∀ k ∈ ks, P k := by
    rw [hks]
    exact forall_mem_cons
  constructor
  · intro h
    obtain ⟨hfirst, hrest⟩ := hcopies.1 h.used
    exact ⟨hslip, hdotless.1 h.dotless, hfirst,
      (hused (length_base_le.trans_lt hfirst)).1 hrest⟩
  · rintro ⟨-, hkeep, hfirst, hfits⟩
    refine ⟨htext, hdotless.2 hkeep, hcopies.2 ⟨Int.natCast_nonneg _, hneg⟩,
      hcopies.2 ⟨hfirst, (hused (length_base_le.trans_lt hfirst)).2 hfits⟩⟩

/-- `.//b` from the file `d/a`: behind `./` the length of the component in front of the slash is
negative. -/
theorem not_canonical : ¬∀ currentFile name : Bytes, Canonical 1024 currentFile name := by
  intro h
  have hname := h [100, SLASH, 97] [DOT, SLASH, SLASH, 98]
  obtain ⟨k, hk, hneg⟩ := @negative_of_head? [SLASH, 98] ⟨[100], [⟨3, 4⟩]⟩ rfl
  rw [← mergeLoop_here] at hk
  exact absurd hneg (Int.not_lt.2 (hname.length k (by rwa [merge_eq])))

end Canonical

/-! ### Includes -/

open Loading (legalPath Confined)

theorem head?_strip {s : Bytes} (hs : s.head? ≠ some SLASH) :
    (strip s).head? ≠ some SLASH := by
  have hprefix : strip s <+: s := by
    have := reverse_prefix.2 ((drop_suffix 1 _).trans (dropWhile_suffix
      (l := s.reverse) (· ≠ SLASH)))
    rwa [reverse_reverse] at this
  obtain ⟨t, ht⟩ := hprefix
  intro h
  rw [← ht, List.head?_append, h] at hs
  exact hs rfl

theorem head?_mergeLoop (dest : Dest) (rest : Bytes) (hdest : dest.text.head? ≠ some SLASH) :
    (mergeLoop dest rest).text.head? ≠ some SLASH := by
  have hslash {dest : Dest} {s : Bytes} (hdest : dest.text.head? ≠ some SLASH)
      (hs : s.head? ≠ some SLASH) : (dest.slash.text ++ s).head? ≠ some SLASH := by
    rw [Dest.slash]
    split
    next hne =>
      obtain ⟨a, t, ht⟩ := exists_cons_of_ne_nil hne
      rw [ht] at hdest
      simpa [Dest.strcat, ht] using hdest
    next hnil => rwa [not_not.1 hnil]
  fun_induction mergeLoop dest rest with
  | case1 => exact hdest
  | case2 => exact hdest
  | case3 dest rest hrest hup hne ih => exact ih (head?_strip hdest)
  | case4 dest rest hrest hup hhere ih => exact ih hdest
  | case5 dest rest hrest hup hhere hmem q start ih =>
    refine ih (hslash hdest ?_)
    split
    · exact head?_skip rest
    · rw [List.head?_take]
      split
      · exact nofun
      · exact head?_skip rest
  | case6 dest rest hrest hup hhere hmem =>
    exact hslash hdest fun h ↦ hmem (mem_of_mem_head? h)

def MAX_INCLUDE : ℕ := 10

/-- The open files: the current one, and the ones that include it (`inctop`). -/
structure Includes where
  currentFile : Bytes
  inctop : List Bytes
  incdepth : ℕ

/-- `check_valid_compile_path`, with the loop of `legal_path` over the dots. -/
def checkValidCompilePath (path : Bytes) : Option Bytes :=
  if Loading.dotScan path then some path else none

def setIncList (v : List Bytes) : Option (List Bytes) :=
  let paths := v.map fun p ↦ if p.head? = some SLASH then p.tail else p
  if paths.all (legalPath ∘ some) then some paths else none

abbrev PERCENT : UInt8 := 37

/-- `sprintf` of some strings. C does not say what other conversions than `%s` do, nor what a `%s`
does for which there is no string. -/
def sprintf : List Bytes → Bytes → Option Bytes
  | _, [] => some []
  | args, c :: fmt =>
    if c ≠ PERCENT then (sprintf args fmt).map (c :: ·)
    else
      match fmt with
      | [] => none
      | d :: fmt =>
        if d = PERCENT then (sprintf args fmt).map (PERCENT :: ·)
        else if d ≠ 115 then none
        else
          match args with
          | [] => none
          | arg :: args => (sprintf args fmt).map (arg ++ ·)

section

variable (fopen : Bytes → Bool) (incList : List Bytes)

/-- Paths are tried in turn, until one is opened or refused, or is not known. -/
def openFirst : List (Option Bytes) → Option Bytes
  | [] | none :: _ => none
  | some buf :: bufs =>
    match checkValidCompilePath buf with
    | none => none
    | some newName => if fopen newName then some newName else openFirst bufs

def incOpen (s : Includes) (name : Bytes) : Option Bytes :=
  if MAX_INCLUDE ≤ s.incdepth then none
  else openFirst fopen ((merge s.currentFile name).text :: incList.map (sprintf [name]))

/-- A file is included by its name, or is at its end. -/
def including : TransitionSystem Includes (Option Bytes) where
  Init s := ∃ file, legalPath (some file) = true ∧ s = ⟨file, [], 0⟩
  Step s name s' :=
    match name with
    | some name => ∃ buf, incOpen fopen incList s name = some buf ∧
        s' = ⟨buf, s.currentFile :: s.inctop, s.incdepth + 1⟩
    | none => ∃ file inctop, s.inctop = file :: inctop ∧ s' = ⟨file, inctop, s.incdepth - 1⟩

end

variable {fopen : Bytes → Bool} {incList v : List Bytes}

/-- The text in front of `%s` comes first. -/
theorem head?_sprintf {dir buf : Bytes} {args : List Bytes} (hlegal : legalPath (some dir) = true)
    (hformat : dir.head? ≠ some PERCENT) (h : sprintf args dir = some buf) :
    buf.head? ≠ some SLASH := by
  have hrelative := (Loading.confined_of_legalPath hlegal).relative
  cases dir with
  | nil =>
    cases h
    exact hrelative
  | cons c dir =>
    rw [sprintf.eq_def] at h
    dsimp only at h
    rw [if_pos fun h ↦ hformat (congrArg some h)] at h
    obtain ⟨text, -, rfl⟩ := map_eq_some_iff.1 h
    exact hrelative

theorem confined_of_openFirst {bufs : List (Option Bytes)} {path : Bytes}
    (hbufs : ∀ buf, some buf ∈ bufs → buf.head? ≠ some SLASH)
    (h : openFirst fopen bufs = some path) :
    Confined path := by
  induction bufs with
  | nil => cases h
  | cons buf bufs ih =>
    have hrest (buf : Bytes) (hmem : some buf ∈ bufs) := hbufs buf (mem_cons_of_mem _ hmem)
    rcases buf with - | buf
    · cases h
    have hbuf := hbufs buf mem_cons_self
    rw [openFirst, checkValidCompilePath] at h
    split at h
    next => cases h
    next newName hvalid =>
      split at hvalid
      next hscan =>
        obtain rfl := some.inj hvalid
        split at h
        next =>
          obtain rfl := some.inj h
          have hdots := Loading.dots_not_mem_components hscan
          exact ⟨hbuf, hdots, fun n ↦
            Loading.walk_isSome (fun hmem ↦ hdots (mem_of_mem_take hmem)) []⟩
        next => exact ih hrest h
      next => cases hvalid

/-- **No file outside of the mudlib is opened**, however files include each other, and the depth is
bounded. The directories have to have something in front of their `%s`. -/
theorem confined_of_including (hlist : setIncList v = some incList)
    (hformat : ∀ dir ∈ incList, dir.head? ≠ some PERCENT) {s : Includes}
    (hs : (including fopen incList).Reachable s) :
    (∀ file ∈ s.currentFile :: s.inctop, Confined file) ∧ s.incdepth = s.inctop.length ∧
      s.incdepth ≤ MAX_INCLUDE := by
  have hlegal : ∀ dir ∈ incList, legalPath (some dir) = true := by
    rw [setIncList] at hlist
    split at hlist
    next hall =>
      obtain rfl := some.inj hlist
      exact all_eq_true.1 hall
    next => cases hlist
  refine hs.invariant (I := fun s ↦ (∀ file ∈ s.currentFile :: s.inctop, Confined file) ∧
    s.incdepth = s.inctop.length ∧ s.incdepth ≤ MAX_INCLUDE) ?_ ?_
  · rintro _ ⟨file, hfile, rfl⟩
    exact ⟨forall_mem_singleton.2 (Loading.confined_of_legalPath hfile), rfl, Nat.zero_le _⟩
  · rintro s name s' ⟨hfiles, hlen, hdepth⟩ hst
    cases name with
    | none =>
      obtain ⟨file, inctop, htop, rfl⟩ := hst
      rw [htop] at hfiles hlen
      exact ⟨(forall_mem_cons.1 hfiles).2, by simp [hlen], (Nat.sub_le _ _).trans hdepth⟩
    | some name =>
      obtain ⟨buf, hopen, rfl⟩ := hst
      rw [incOpen] at hopen
      split at hopen
      next => cases hopen
      next hlt =>
        refine ⟨forall_mem_cons.2 ⟨confined_of_openFirst ?_ hopen, hfiles⟩,
          congrArg (· + 1) hlen, Nat.not_le.1 hlt⟩
        intro buf hbuf
        rcases mem_cons.1 hbuf with hmerge | hbuf
        case inr =>
          obtain ⟨dir, hdir, hsprintf⟩ := mem_map.1 hbuf
          exact head?_sprintf (hlegal dir hdir) (hformat dir hdir) hsprintf
        rw [some.inj hmerge, merge_eq]
        refine head?_mergeLoop _ _ ?_
        rw [base]
        split
        · exact nofun
        · exact head?_strip (hfiles _ mem_cons_self).relative

/-- `b` from the file `d/a`. -/
theorem confined_of_including_beside : Confined [100, SLASH, 98] :=
  (@confined_of_including (fun _ ↦ true) _ [[SLASH, 115, SLASH, PERCENT, 115]] rfl (by decide) _
    (.step (a := some [98]) (.init ⟨[100, SLASH, 97], rfl, rfl⟩)
      ⟨_, congrArg (fun d ↦ openFirst (fun _ ↦ true) (some (Dest.text d) :: _))
        (@mergeLoop_last _ [98] (by decide) (by decide)), rfl⟩)).1 _ mem_cons_self

end Lpmud.Lex.Merge
