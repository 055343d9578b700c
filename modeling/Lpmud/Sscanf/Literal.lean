import Lpmud.Sscanf.Scan

/-!
# Matching from left to right

What `sscanf` should do, for formats of literal text, `%%`, `%s` and `%d` (`reading`): a character
of the text has to match itself, a number is read, and a string goes up to the text that follows, or
to the end. What is printed with a format is read back with it (`reading_printed`).

There are two slips. `find_percent` takes the second `%` of `%%` for the beginning of a directive,
and behind a number a `%` is skipped together with the text, if the string has one. Where neither
comes up `sscanf` does as it should (`literal_iff`).
-/

namespace Lpmud.Sscanf

open List
open Object (printInt)

/-! ### Formats -/

/-- A part of a format: a character of the text, `%d` or `%s`. -/
inductive Item where
  | lit (c : UInt8)
  | dec
  | str

/-- A part as it is written, a `%` of the text as `%%`. -/
def Item.raw : Item → Bytes
  | .lit c => if c = PERCENT then [PERCENT, PERCENT] else [c]
  | .dec => [PERCENT, LETTER_D]
  | .str => [PERCENT, LETTER_S]

/-- A format as it is written. -/
def raw (f : List Item) : Bytes :=
  f.flatMap Item.raw

/-- The text at the beginning of a format. -/
def text : List Item → Bytes
  | .lit c :: f => c :: text f
  | _ => []

/-- What follows the text: a directive, or nothing. -/
def behind : List Item → List Item
  | .lit _ :: f => behind f
  | f => f

/-! ### Matching -/

/-- Text is matched with itself. Behind it there is a directive, or the format ends. -/
def readText (next : List Item → Bytes → Run) (numberOfMatches : ℕ) :
    List Item → Bytes → Run
  | [], _ => .stop numberOfMatches
  | .lit _ :: _, [] => .stop numberOfMatches
  | .lit c :: f, d :: s =>
    if c = d then .prepend ⟨none, raw f, s⟩ (readText next numberOfMatches f s)
    else .stop numberOfMatches
  | f, s => next f s

/-- The directives, as long as there are variables. What is left behind the text that follows a
`%s` goes to the next variable. -/
def readArgs : (numArg : ℕ) → List Item → Bytes → (numberOfMatches : ℕ) → Run
  | 0, _, _, numberOfMatches => .stop numberOfMatches
  | _ + 1, [], s, numberOfMatches =>
    if s = [] then .stop numberOfMatches
    else .prepend ⟨some (.string s), [], s⟩ (.stop (numberOfMatches + 1))
  | _ + 1, .lit _ :: _, _, numberOfMatches => .stop numberOfMatches
  | numArg + 1, .dec :: f, s, numberOfMatches =>
    match strtol s with
    | none => .stop numberOfMatches
    | some (n, s) =>
      .prepend ⟨some (.number n), raw f, s⟩
        (readText (fun f s ↦ readArgs numArg f s (numberOfMatches + 1)) (numberOfMatches + 1) f s)
  | numArg + 1, .str :: f, s, numberOfMatches =>
    if text f = [] then
      if f = [] then .prepend ⟨some (.string s), [], s⟩ (.stop (numberOfMatches + 1))
      else .fail .adjacent
    else
      match search (text f) s with
      | none => .stop numberOfMatches
      | some (front, back) =>
        .prepend ⟨some (.string front), raw (behind f), back⟩
          (readArgs numArg (behind f) back (numberOfMatches + 1))

/-- A string is read with a format, for `numArg` variables. -/
def reading (numArg : ℕ) (f : List Item) (s : Bytes) : Run :=
  readText (fun f s ↦ readArgs numArg f s 0) 0 f s

/-! ### Printing -/

/-- Values are printed with a format. A digit does not follow a number, and a string is followed by
a text that does not begin earlier, or it is at the end. -/
inductive Prints : List Item → List Scanned → Bytes → Prop where
  | nil : Prints [] [] []
  | lit {f : List Item} {vs : List Scanned} {s : Bytes} (c : UInt8) (h : Prints f vs s) :
      Prints (.lit c :: f) vs (c :: s)
  | dec {f : List Item} {vs : List Scanned} {s : Bytes} (n : BitVec 32) (h : Prints f vs s)
      (hs : ∀ c ∈ s.head?, Decimal.isDigit c = false) :
      Prints (.dec :: f) (.number n :: vs) (printInt n.toInt ++ s)
  | str {f : List Item} {vs : List Scanned} {s : Bytes} (v : Bytes) (h : Prints f vs s)
      (htext : text f ≠ [])
      (hv : ∀ i < v.length, ¬text f <+: (v ++ text f).drop i) :
      Prints (.str :: f) (.string v :: vs) (v ++ s)
  | last (v : Bytes) : Prints [.str] [.string v] v

/-- **`sscanf` matches literally**: it makes the matches of `reading`, and what was printed is read
back. -/
structure Literal (strtod : Bytes → Option (Option CFloat × Bytes)) (numArg : ℕ)
    (f : List Item) (s : Bytes) : Prop where
  reading : interSscanf strtod (raw f) s numArg = reading numArg f s
  printed : ∀ vs, Prints f vs s → numArg = vs.length →
    (interSscanf strtod (raw f) s numArg).values = vs

/-! ### Where the slips are -/

/-- The text behind a `%s` as `find_percent` cuts it off: up to the last `%` of the first ones. -/
def cutText (f : List Item) : Bytes :=
  (raw f).take ((raw f).length - ((findPercent (raw f)).getD []).length)

/-- In front of the first directive no `%` of the text is matched. -/
def LeadClean (next : List Item → Bytes → Prop) : List Item → Bytes → Prop
  | [], _ => True
  | .lit _ :: _, [] => True
  | .lit c :: f, d :: s => c = d → c ≠ PERCENT ∧ LeadClean next f s
  | f, s => next f s

/-- Behind a number no `%` of the text is reached, unless there is no variable left and the string
has none there; and where a directive is reached, the string has no `%`. -/
def BehindClean (numArg : ℕ) (next : List Item → Bytes → Prop) :
    List Item → Bytes → Prop
  | [], _ => True
  | .lit c :: _, [] => c = PERCENT → numArg = 0
  | .lit c :: f, d :: s =>
    if c = PERCENT then numArg = 0 ∧ d ≠ PERCENT else c = d → BehindClean numArg next f s
  | f, s => s.head? ≠ some PERCENT ∧ next f s

/-- The same for the directives. In the text behind a `%s` there is no `%`, unless neither this text
nor what `find_percent` makes of it is found. -/
def ArgsClean : (numArg : ℕ) → List Item → Bytes → Prop
  | 0, _, _ => True
  | _ + 1, [], _ => True
  | _ + 1, .lit _ :: _, _ => True
  | numArg + 1, .dec :: f, s =>
    ∀ n s', strtol s = some (n, s') → BehindClean numArg (ArgsClean numArg) f s'
  | numArg + 1, .str :: f, s =>
    if PERCENT ∈ text f then search (text f) s = none ∧ search (cutText f) s = none
    else text f ≠ [] → ∀ front back, search (text f) s = some (front, back) →
      ArgsClean numArg (behind f) back

/-- Neither slip comes up. -/
def Clean (numArg : ℕ) (f : List Item) (s : Bytes) : Prop :=
  LeadClean (ArgsClean numArg) f s

section Formats

variable {f : List Item} {s fmt cp : Bytes}

@[simp]
theorem raw_nil : raw [] = [] := rfl

theorem raw_lit {c : UInt8} (hc : c ≠ PERCENT) : raw (.lit c :: f) = c :: raw f := by
  rw [raw, flatMap_cons, Item.raw, if_neg hc]
  rfl

@[simp]
theorem raw_percent : raw (.lit PERCENT :: f) = PERCENT :: PERCENT :: raw f := rfl

@[simp]
theorem raw_dec : raw (.dec :: f) = PERCENT :: LETTER_D :: raw f := rfl

@[simp]
theorem raw_str : raw (.str :: f) = PERCENT :: LETTER_S :: raw f := rfl

attribute [local simp] findPercent in
theorem findPercent_cons {c : UInt8} (hc : c ≠ PERCENT) :
    findPercent (c :: fmt) = findPercent fmt := by
  rw [findPercent, if_neg hc]

theorem findPercent_directive {c : UInt8} (hc : c ≠ PERCENT) :
    findPercent (PERCENT :: c :: fmt) = some (PERCENT :: c :: fmt) := by
  rw [findPercent, if_pos rfl, if_neg]
  simpa using hc

theorem findPercent_percent :
    findPercent (PERCENT :: PERCENT :: fmt) = findPercent (PERCENT :: fmt) := by
  rw [findPercent, if_pos rfl, if_pos (by rw [List.head?_cons])]

theorem findPercent_suffix (h : findPercent fmt = some cp) : cp <:+ fmt := by
  induction fmt with
  | nil => cases h
  | cons c fmt ih =>
    rw [findPercent] at h
    split at h
    · split at h
      · exact (ih h).trans (suffix_cons c fmt)
      · exact Option.some.inj h ▸ suffix_rfl
    · exact (ih h).trans (suffix_cons c fmt)

theorem findPercent_lit_ne (c : UInt8) :
    findPercent (raw (.lit c :: f)) ≠ some (raw (.lit c :: f)) := by
  intro h
  by_cases hc : c = PERCENT
  · subst hc
    rw [raw_percent, findPercent_percent] at h
    have hle := (findPercent_suffix h).length_le
    simp at hle
  · rw [raw_lit hc, findPercent_cons hc] at h
    have hle := (findPercent_suffix h).length_le
    simp at hle

/-- A text as it is written. -/
def escape (t : Bytes) : Bytes :=
  t.flatMap fun c ↦ if c = PERCENT then [PERCENT, PERCENT] else [c]

theorem raw_eq (f : List Item) : raw f = escape (text f) ++ raw (behind f) := by
  induction f with
  | nil => rfl
  | cons i f ih =>
    cases i with
    | lit c =>
      rw [text, behind, escape, flatMap_cons, ← escape, append_assoc, ← ih]
      rfl
    | dec => rfl
    | str => rfl

theorem escape_eq_self {t : Bytes} (ht : PERCENT ∉ t) : escape t = t := by
  induction t with
  | nil => rfl
  | cons c t ih =>
    rw [mem_cons, not_or] at ht
    rw [escape, flatMap_cons, ← escape, ih ht.2, if_neg (Ne.symm ht.1), singleton_append]

theorem length_le_escape (t : Bytes) : t.length ≤ (escape t).length := by
  induction t with
  | nil => exact Nat.le_refl _
  | cons c t ih =>
    rw [escape, flatMap_cons, ← escape, length_append, length_cons]
    split <;> simp only [length_cons, length_nil] <;> omega

theorem length_lt_escape {t : Bytes} (ht : PERCENT ∈ t) : t.length < (escape t).length := by
  induction t with
  | nil => cases ht
  | cons c t ih =>
    rw [escape, flatMap_cons, ← escape, length_append, length_cons]
    have hle := length_le_escape t
    rcases mem_cons.1 ht with rfl | ht
    · rw [if_pos rfl, length_cons, length_singleton]
      omega
    · have hlt := ih ht
      split <;> simp only [length_cons, length_nil] <;> omega

/-- What is behind the text is at the end, or begins with a directive. -/
def Directive (f : List Item) : Prop :=
  ∀ c f', f ≠ .lit c :: f'

theorem directive_dec : Directive (.dec :: f) := by
  rintro c f' ⟨⟩

theorem directive_str : Directive (.str :: f) := by
  rintro c f' ⟨⟩

theorem directive_behind (f : List Item) : Directive (behind f) := by
  induction f with
  | nil => exact nofun
  | cons i f ih =>
    cases i with
    | lit c => exact ih
    | dec => exact directive_dec
    | str => exact directive_str

theorem findPercent_append {t : Bytes} (ht : PERCENT ∉ t) :
    findPercent (t ++ fmt) = findPercent fmt := by
  induction t with
  | nil => rfl
  | cons c t ih =>
    rw [mem_cons, not_or] at ht
    rw [cons_append, findPercent_cons (Ne.symm ht.1), ih ht.2]

theorem findPercent_of_directive (hf : Directive f) (hne : f ≠ []) :
    findPercent (raw f) = some (raw f) := by
  rcases f with - | ⟨c | - | -, f⟩
  · exact absurd rfl hne
  · exact absurd rfl (hf c f)
  · exact findPercent_directive (by decide)
  · exact findPercent_directive (by decide)

/-- Without a `%` in the text the next directive is found, or the end. -/
theorem findPercent_raw (ht : PERCENT ∉ text f) :
    (findPercent (raw f)).getD [] = raw (behind f) := by
  rw [raw_eq, escape_eq_self ht, findPercent_append ht]
  by_cases hne : behind f = []
  · rw [hne]
    rfl
  · rw [findPercent_of_directive (directive_behind f) hne, Option.getD_some]

theorem cutText_append (f : List Item) :
    cutText f ++ (findPercent (raw f)).getD [] = raw f := by
  have hsuffix : (findPercent (raw f)).getD [] <:+ raw f := by
    cases h : findPercent (raw f) with
    | none => exact nil_suffix
    | some cp => exact findPercent_suffix h
  obtain ⟨t, ht⟩ := hsuffix
  rw [cutText]
  generalize (findPercent (raw f)).getD [] = cp at ht ⊢
  rw [← ht, length_append, Nat.add_sub_cancel, take_left]

theorem cutText_eq (ht : PERCENT ∉ text f) : cutText f = text f := by
  have happend := cutText_append f
  rw [findPercent_raw ht] at happend
  refine append_cancel_right (happend.trans ?_)
  rw [raw_eq, escape_eq_self ht]

theorem search_eq {t front back : Bytes} (h : search t s = some (front, back)) :
    s = front ++ t ++ back := by
  induction s generalizing front with
  | nil => cases h
  | cons c s ih =>
    rw [search] at h
    split at h
    next hprefix =>
      obtain ⟨rfl, rfl⟩ := Prod.mk.inj (Option.some.inj h)
      obtain ⟨r, hr⟩ := hprefix
      rw [← hr, drop_left, nil_append]
    next =>
      obtain ⟨⟨front', back'⟩, hsearch, heq⟩ := Option.map_eq_some_iff.1 h
      obtain ⟨rfl, rfl⟩ := Prod.mk.inj heq
      rw [ih hsearch]
      rfl

end Formats

/-! ### The runs -/

section Runs

variable {strtod : Bytes → Option (Option CFloat × Bytes)} {numArg count : ℕ}
  {f : List Item} {s : Bytes}

theorem prepend_inj {m m' : Match} {r r' : Run} :
    Run.prepend m r = Run.prepend m' r' ↔ m = m' ∧ r = r' := by
  cases r
  cases r'
  simp [Run.prepend, and_assoc]

theorem prepend_ne_stop {m : Match} {r : Run} : r.prepend m ≠ .stop count := by
  simp [Run.prepend, Run.stop]

theorem readArgs_ne {fmt inString : Bytes} {r : Run} :
    r.prepend ⟨none, fmt, inString⟩ ≠ readArgs numArg f s count := by
  intro h
  match numArg, f with
  | 0, _ => exact prepend_ne_stop h
  | numArg + 1, [] =>
    rw [readArgs] at h
    split at h
    · exact prepend_ne_stop h
    · cases (prepend_inj.1 h).1
  | numArg + 1, .lit _ :: _ => exact prepend_ne_stop h
  | numArg + 1, .dec :: f =>
    rw [readArgs] at h
    split at h
    · exact prepend_ne_stop h
    · cases (prepend_inj.1 h).1
  | numArg + 1, .str :: f =>
    rw [readArgs] at h
    split at h
    · split at h
      · cases (prepend_inj.1 h).1
      · simp [Run.prepend, Run.fail] at h
    · split at h
      · exact prepend_ne_stop h
      · cases (prepend_inj.1 h).1

/-- `%%` is no directive. -/
theorem scanArgs_percent {fmt : Bytes} :
    scanArgs strtod numArg (PERCENT :: PERCENT :: fmt) s count = .stop count ↔ numArg = 0 := by
  cases numArg with
  | zero => simp [scanArgs]
  | succ numArg =>
    rw [scanArgs, if_neg (by decide), if_neg (by decide), if_neg (by decide)]
    simp [Run.stop, Run.fail]

theorem skipText_iff {next : List Item → Bytes → Prop}
    (hnext : ∀ f s, Directive f → f ≠ [] →
      (scanArgs strtod numArg (raw f) s count = readArgs numArg f s count ↔ next f s))
    (f : List Item) (s : Bytes) :
    skipText (fun fmt s ↦ scanArgs strtod numArg fmt s count) count (raw f) s =
        readText (fun f s ↦ readArgs numArg f s count) count f s ↔
      BehindClean numArg next f s := by
  have hdirective {t : UInt8} {f : List Item} (hf : Directive f) (hne : f ≠ [])
      (hraw : raw f = PERCENT :: t :: raw f.tail) (s : Bytes) :
      skipText (fun fmt s ↦ scanArgs strtod numArg fmt s count) count (raw f) s =
          readArgs numArg f s count ↔ s.head? ≠ some PERCENT ∧ next f s := by
    rw [hraw]
    cases s with
    | nil =>
      rw [skipText, if_pos rfl, ← hraw, hnext f [] hf hne]
      simp
    | cons d s =>
      rw [skipText]
      by_cases hd : PERCENT = d
      · rw [if_pos hd]
        exact iff_of_false readArgs_ne fun h ↦ h.1 (by rw [← hd, List.head?_cons])
      · rw [if_neg hd, if_pos rfl, ← hraw, hnext f (d :: s) hf hne]
        simp [Ne.symm hd]
  induction f generalizing s with
  | nil => exact iff_of_true rfl trivial
  | cons i f ih =>
    cases i with
    | dec => exact hdirective directive_dec (cons_ne_nil _ _) rfl s
    | str => exact hdirective directive_str (cons_ne_nil _ _) rfl s
    | lit c =>
      by_cases hc : c = PERCENT
      · subst hc
        cases s with
        | nil =>
          rw [raw_percent, skipText, if_pos rfl, readText, scanArgs_percent]
          simp [BehindClean]
        | cons d s =>
          rw [raw_percent, skipText, readText, BehindClean, if_pos rfl]
          by_cases hd : PERCENT = d
          · rw [if_pos hd, if_pos hd, prepend_inj]
            refine iff_of_false (fun h ↦ ?_) fun h ↦ h.2 hd.symm
            simpa using congrArg (fun m ↦ m.fmt.length) h.1
          · rw [if_neg hd, if_pos rfl, if_neg hd, scanArgs_percent]
            exact (and_iff_left (Ne.symm hd)).symm
      · rw [raw_lit hc]
        cases s with
        | nil =>
          rw [skipText, if_neg hc, readText]
          exact iff_of_true rfl fun h ↦ absurd h hc
        | cons d s =>
          have hclean : BehindClean numArg next (.lit c :: f) (d :: s) =
            (c = d → BehindClean numArg next f s) := if_neg hc
          rw [skipText, readText, hclean]
          by_cases hd : c = d
          · rw [if_pos hd, if_pos hd, prepend_inj, and_iff_right rfl]
            exact (ih s).trans ⟨fun h _ ↦ h, fun h ↦ h hd⟩
          · rw [if_neg hd, if_neg hc, if_neg hd]
            exact iff_of_true rfl fun h ↦ absurd h hd

theorem leadingText_iff {next : List Item → Bytes → Prop}
    (hnext : ∀ f s, Directive f → f ≠ [] →
      (scanArgs strtod numArg (raw f) s 0 = readArgs numArg f s 0 ↔ next f s))
    (f : List Item) (s : Bytes) :
    leadingText strtod (findPercent (raw f)) numArg (raw f) s =
        readText (fun f s ↦ readArgs numArg f s 0) 0 f s ↔ LeadClean next f s := by
  have hdirective {t : UInt8} {f : List Item} (hf : Directive f) (hne : f ≠ [])
      (hraw : raw f = PERCENT :: t :: raw f.tail) (s : Bytes) :
      leadingText strtod (findPercent (raw f)) numArg (raw f) s = readArgs numArg f s 0 ↔
        next f s := by
    have hlead : leadingText strtod (findPercent (raw f)) numArg (raw f) s =
        scanArgs strtod numArg (raw f) s 0 := by
      rw [findPercent_of_directive hf hne, hraw]
      cases s <;> rw [leadingText, if_pos rfl]
    rw [hlead]
    exact hnext f s hf hne
  induction f generalizing s with
  | nil => exact iff_of_true rfl trivial
  | cons i f ih =>
    cases i with
    | dec => exact hdirective directive_dec (cons_ne_nil _ _) rfl s
    | str => exact hdirective directive_str (cons_ne_nil _ _) rfl s
    | lit c =>
      have hcp := findPercent_lit_ne (f := f) c
      by_cases hc : c = PERCENT
      · subst hc
        rw [raw_percent] at hcp ⊢
        cases s with
        | nil =>
          rw [leadingText, if_neg hcp]
          exact iff_of_true rfl trivial
        | cons d s =>
          rw [leadingText, if_neg hcp, readText, LeadClean]
          by_cases hd : PERCENT = d
          · rw [if_pos hd, if_pos hd, prepend_inj]
            refine iff_of_false (fun h ↦ ?_) fun h ↦ (h hd).1 rfl
            simpa using congrArg (fun m ↦ m.fmt.length) h.1
          · rw [if_neg hd, if_neg hd]
            exact iff_of_true rfl fun h ↦ absurd h hd
      · rw [raw_lit hc] at hcp ⊢
        cases s with
        | nil =>
          rw [leadingText, if_neg hcp]
          exact iff_of_true rfl trivial
        | cons d s =>
          rw [leadingText, if_neg hcp, readText, LeadClean, findPercent_cons hc]
          by_cases hd : c = d
          · rw [if_pos hd, if_pos hd, prepend_inj, and_iff_right rfl, forall_prop_of_true hd]
            exact (ih s).trans (and_iff_right hc).symm
          · rw [if_neg hd, if_neg hd]
            exact iff_of_true rfl fun h ↦ absurd h hd

/-- The text that follows a `%s` is searched for as it should be, unless it has a `%`. -/
theorem scanArgs_str (ht : text f ≠ []) :
    scanArgs strtod (numArg + 1) (raw (.str :: f)) s count =
      match search (cutText f) s with
      | none => .stop count
      | some (front, back) =>
        .prepend ⟨some (.string front), (findPercent (raw f)).getD [], back⟩
          (scanArgs strtod numArg ((findPercent (raw f)).getD []) back (count + 1)) := by
  have hne : findPercent (raw f) ≠ some (raw f) ∧ (findPercent (raw f)).getD [] ≠ raw f := by
    rcases f with - | ⟨c | - | -, f⟩
    · exact absurd rfl ht
    · have hcp := findPercent_lit_ne (f := f) c
      refine ⟨hcp, fun h ↦ ?_⟩
      cases hfind : findPercent (raw (.lit c :: f)) with
      | none =>
        rw [hfind, Option.getD_none, raw_eq] at h
        have hle := length_le_escape (text (.lit c :: f))
        have hlen := congrArg List.length h
        rw [length_append, text, length_cons] at *
        simp at hlen
        omega
      | some cp =>
        rw [hfind, Option.getD_some] at h
        exact hcp (hfind.trans (congrArg some h))
    · exact absurd rfl ht
    · exact absurd rfl ht
  rw [raw_str, scanArgs, if_neg (by decide), if_neg (by decide), if_pos rfl, if_neg hne.1,
    if_neg hne.2]
  rfl

theorem scanArgs_adjacent (hf : Directive f) (hne : f ≠ []) :
    scanArgs strtod (numArg + 1) (raw (.str :: f)) s count = .fail .adjacent := by
  rw [raw_str, scanArgs, if_neg (by decide), if_neg (by decide), if_pos rfl,
    if_pos (findPercent_of_directive hf hne)]

/-- With a `%` in the text a match of what is cut off is not one of the text. -/
theorem search_ne (ht : PERCENT ∈ text f) {r r' : Bytes × Bytes} {run run' : Run}
    (hcut : search (cutText f) s = some r) (htext : search (text f) s = some r') :
    run.prepend ⟨some (.string r.1), (findPercent (raw f)).getD [], r.2⟩ ≠
      run'.prepend ⟨some (.string r'.1), raw (behind f), r'.2⟩ := by
  intro h
  obtain ⟨hvalue, hfmt, hback⟩ := Match.mk.inj (prepend_inj.1 h).1
  have hfront := Scanned.string.inj (Option.some.inj hvalue)
  -- the two texts would be of the same length
  have hs := (search_eq hcut).symm.trans (search_eq htext)
  rw [hfront, hback] at hs
  have hcutText := append_cancel_left (append_cancel_right hs)
  have hraw := (cutText_append f).trans (raw_eq f)
  rw [hfmt, hcutText] at hraw
  have hlen := congrArg List.length (append_cancel_right hraw)
  exact absurd hlen (Nat.ne_of_lt (length_lt_escape ht))

theorem scanArgs_iff (numArg : ℕ) : ∀ (f : List Item) (s : Bytes) (count : ℕ), Directive f →
    (scanArgs strtod numArg (raw f) s count = readArgs numArg f s count ↔
      ArgsClean numArg f s) := by
  induction numArg with
  | zero => exact fun f s count _ ↦ iff_of_true rfl trivial
  | succ numArg ih =>
    intro f s count hf
    rcases f with - | ⟨c | - | -, f⟩
    · exact iff_of_true rfl trivial
    · exact absurd rfl (hf c f)
    · rw [raw_dec, scanArgs, if_pos rfl, readArgs, ArgsClean]
      cases hn : strtol s with
      | none => exact iff_of_true rfl nofun
      | some r =>
        obtain ⟨n, s'⟩ := r
        have hskip := @skipText_iff strtod numArg (count + 1) (ArgsClean numArg)
          (fun f s hf _ ↦ ih f s (count + 1) hf) f s'
        dsimp only
        rw [prepend_inj, and_iff_right rfl, hskip]
        simp
    · by_cases ht : text f = []
      · have hpercent : PERCENT ∉ text f := by simp [ht]
        rw [readArgs, ArgsClean, if_pos ht, if_neg hpercent]
        refine iff_of_true ?_ (absurd ht)
        rcases f with - | ⟨c | - | -, f⟩
        · rfl
        · cases ht
        · rw [if_neg (cons_ne_nil _ _)]
          exact scanArgs_adjacent directive_dec (cons_ne_nil _ _)
        · rw [if_neg (cons_ne_nil _ _)]
          exact scanArgs_adjacent directive_str (cons_ne_nil _ _)
      rw [scanArgs_str ht, readArgs, ArgsClean, if_neg ht]
      by_cases hpercent : PERCENT ∈ text f
      · rw [if_pos hpercent]
        cases hcut : search (cutText f) s with
        | none =>
          cases htext : search (text f) s with
          | none => exact iff_of_true rfl ⟨rfl, rfl⟩
          | some r => exact iff_of_false prepend_ne_stop.symm fun h ↦ by cases h.1
        | some r =>
          cases htext : search (text f) s with
          | none => exact iff_of_false prepend_ne_stop fun h ↦ by cases h.2
          | some r' => exact iff_of_false (search_ne hpercent hcut htext) fun h ↦ by cases h.1
      · rw [if_neg hpercent, cutText_eq hpercent, findPercent_raw hpercent, forall_prop_of_true ht]
        cases htext : search (text f) s with
        | none => exact iff_of_true rfl nofun
        | some r =>
          obtain ⟨front, back⟩ := r
          dsimp only
          rw [prepend_inj, and_iff_right rfl, ih _ back (count + 1) (directive_behind f)]
          simp

end Runs

/-! ### What was printed -/

section Printed

variable {f : List Item} {vs : List Scanned} {s : Bytes}

theorem takeWhile_numeral (n : ℕ) (hs : ∀ c ∈ s.head?, Decimal.isDigit c = false) :
    (Decimal.numeral n ++ s).takeWhile Decimal.isDigit = Decimal.numeral n ∧
      (Decimal.numeral n ++ s).dropWhile Decimal.isDigit = s := by
  have hdigits : ∀ c ∈ Decimal.numeral n, Decimal.isDigit c = true := fun c ↦
    Decimal.isDigit_of_mem_numeral
  rw [takeWhile_append_of_pos hdigits, dropWhile_append_of_pos hdigits]
  rcases s with - | ⟨c, s⟩
  · exact ⟨append_nil _, rfl⟩
  · have hc : ¬Decimal.isDigit c = true := by
      rw [hs c rfl]
      exact Bool.false_ne_true
    rw [takeWhile_cons_of_neg hc, dropWhile_cons_of_neg hc]
    exact ⟨append_nil _, rfl⟩

theorem not_isSpace {c : UInt8} (hc : Decimal.isDigit c = true) :
    isSpace c = false ∧ c ≠ MINUS ∧ c ≠ PLUS := by
  simp only [Decimal.isDigit, Bool.and_eq_true, decide_eq_true_eq, UInt8.le_iff_toNat_le] at hc
  obtain ⟨hlow, hhigh⟩ := hc
  refine ⟨?_, ?_, ?_⟩
  · rw [Bool.eq_false_iff]
    intro h
    simp only [isSpace, Bool.or_eq_true, Bool.and_eq_true, decide_eq_true_eq, beq_iff_eq,
      UInt8.le_iff_toNat_le] at h
    rcases h with rfl | h
    · simp at hlow
    · simp at hlow h
      omega
  · rintro rfl
    exact absurd hlow (by decide)
  · rintro rfl
    exact absurd hlow (by decide)

theorem strtol_printInt (n : BitVec 32) (hs : ∀ c ∈ s.head?, Decimal.isDigit c = false) :
    strtol (printInt n.toInt ++ s) = some (n, s) := by
  have hlt := BitVec.toInt_lt (x := n)
  have hle := BitVec.le_toInt (x := n)
  have hclamp {z : ℤ} (hz : z = n.toInt) :
      BitVec.ofInt 32 (max (-2 ^ 63) (min z (2 ^ 63 - 1))) = n := by
    have hz : max (-2 ^ 63) (min z (2 ^ 63 - 1)) = n.toInt := by
      simp only [hz] at *
      omega
    rw [hz, BitVec.ofInt_toInt]
  obtain ⟨htake, hdrop⟩ := takeWhile_numeral n.toInt.natAbs hs
  have hne := Decimal.numeral_ne_nil n.toInt.natAbs
  have hval := Decimal.value_numeral n.toInt.natAbs
  rw [printInt]
  split
  next hneg =>
    have hsign : strtol (MINUS :: (Decimal.numeral n.toInt.natAbs ++ s)) =
        if (Decimal.numeral n.toInt.natAbs ++ s).takeWhile Decimal.isDigit = [] then none
        else some (BitVec.ofInt 32 (max (-2 ^ 63) (min (-Decimal.value
          ((Decimal.numeral n.toInt.natAbs ++ s).takeWhile Decimal.isDigit) : ℤ) (2 ^ 63 - 1))),
          (Decimal.numeral n.toInt.natAbs ++ s).dropWhile Decimal.isDigit) := rfl
    rw [cons_append]
    refine hsign.trans ?_
    rw [htake, hdrop, if_neg hne, hval, hclamp (by omega)]
  next hpos =>
    obtain ⟨c, t, hct⟩ := exists_cons_of_ne_nil hne
    obtain ⟨hspace, hminus, hplus⟩ := not_isSpace
      (Decimal.isDigit_of_mem_numeral (hct ▸ mem_cons_self))
    have hhead : (Decimal.numeral n.toInt.natAbs ++ s).head? = some c := by rw [hct]; rfl
    have hblank : (Decimal.numeral n.toInt.natAbs ++ s).dropWhile isSpace =
        Decimal.numeral n.toInt.natAbs ++ s := by
      rw [hct, cons_append, dropWhile_cons_of_neg (by rw [hspace]; decide)]
    rw [strtol]
    simp only [hblank, hhead, Option.some.injEq, hminus, hplus, or_self, if_false, htake,
      hdrop, hne, hval]
    rw [hclamp (by omega)]

theorem Prints.text_append (h : Prints f vs s) :
    ∃ s', s = text f ++ s' ∧ Prints (behind f) vs s' := by
  induction h with
  | nil => exact ⟨[], rfl, .nil⟩
  | lit c _ ih =>
    obtain ⟨s', hs', h'⟩ := ih
    exact ⟨s', by rw [hs']; rfl, h'⟩
  | dec n h hs => exact ⟨_, rfl, .dec n h hs⟩
  | str v h htext hv => exact ⟨_, rfl, .str v h htext hv⟩
  | last v => exact ⟨_, rfl, .last v⟩

theorem Prints.nil_values (h : Prints [] vs s) : vs = [] := by
  cases h
  rfl

theorem readText_text (next : List Item → Bytes → Run) (count : ℕ) (f : List Item)
    (s : Bytes) : (readText next count f (text f ++ s)).values =
      (if behind f = [] then .stop count else next (behind f) s).values := by
  induction f with
  | nil => rfl
  | cons i f ih =>
    cases i with
    | lit c =>
      rw [text, cons_append, readText, if_pos rfl, behind, ← ih]
      rfl
    | dec =>
      rw [show behind (.dec :: f) = .dec :: f from rfl, if_neg (cons_ne_nil _ _)]
      cases s <;> rfl
    | str =>
      rw [show behind (.str :: f) = .str :: f from rfl, if_neg (cons_ne_nil _ _)]
      cases s <;> rfl

theorem search_text {t v : Bytes} (ht : t ≠ [])
    (hv : ∀ i < v.length, ¬t <+: (v ++ t).drop i) (s : Bytes) :
    search t (v ++ (t ++ s)) = some (v, s) := by
  induction v with
  | nil =>
    obtain ⟨c, t, rfl⟩ := exists_cons_of_ne_nil ht
    have hprefix : c :: t <+: c :: (t ++ s) := prefix_append (c :: t) s
    rw [nil_append, cons_append, search, if_pos hprefix, ← cons_append,
      drop_left]
  | cons a v ih =>
    have hnot : ¬t <+: a :: (v ++ (t ++ s)) := by
      intro h
      refine hv 0 (Nat.succ_pos _) ?_
      refine prefix_of_prefix_length_le h ?_ ?_
      · rw [drop_zero, ← append_assoc, ← cons_append]
        exact prefix_append _ _
      · rw [drop_zero, length_append]
        omega
    rw [cons_append, search, if_neg hnot, ih, Option.map_some]
    intro i hi
    exact hv (i + 1) (Nat.succ_lt_succ hi)

theorem readArgs_printed (vs : List Scanned) : ∀ (f : List Item) (s : Bytes) (count : ℕ),
    Directive f → Prints f vs s → (readArgs vs.length f s count).values = vs := by
  induction vs with
  | nil =>
    intro f s count _ _
    rfl
  | cons v vs ih =>
    intro f s count hf h
    cases h with
    | lit c => exact absurd rfl (hf _ _)
    | last v => rfl
    | @dec f _ s n h hs =>
      obtain ⟨s, rfl, h'⟩ := h.text_append
      rw [length_cons, readArgs, strtol_printInt n hs]
      show Scanned.number n :: (readText _ _ f (text f ++ s)).values = _
      rw [readText_text]
      congr 1
      split
      next hend =>
        rw [hend] at h'
        exact h'.nil_values.symm
      next => exact ih _ s (count + 1) (directive_behind f) h'
    | @str f _ s v h htext hv =>
      obtain ⟨s, rfl, h'⟩ := h.text_append
      rw [length_cons, readArgs, if_neg htext, search_text htext hv]
      show Scanned.string v :: (readArgs vs.length (behind f) s (count + 1)).values = _
      rw [ih _ s (count + 1) (directive_behind f) h']

/-- **What was printed is read back.** -/
theorem reading_printed (h : Prints f vs s) : (reading vs.length f s).values = vs := by
  obtain ⟨s, rfl, h'⟩ := h.text_append
  rw [reading, readText_text]
  split
  next hend =>
    rw [hend] at h'
    exact h'.nil_values.symm
  next => exact readArgs_printed vs _ s 0 (directive_behind f) h'

end Printed

section Main

variable {strtod : Bytes → Option (Option CFloat × Bytes)} {numArg : ℕ} {f : List Item}
  {s : Bytes}

/-- The matches are those of `reading` exactly if neither slip comes up. -/
theorem interSscanf_iff : interSscanf strtod (raw f) s numArg = reading numArg f s ↔
    Clean numArg f s :=
  leadingText_iff (fun f s hf _ ↦ scanArgs_iff numArg f s 0 hf) f s

/-- **The values that are assigned**, and what is returned, if neither slip comes up. -/
theorem values_of_clean (h : Clean numArg f s) :
    (interSscanf strtod (raw f) s numArg).values = (reading numArg f s).values ∧
      (interSscanf strtod (raw f) s numArg).result = (reading numArg f s).result := by
  rw [interSscanf_iff.2 h]
  exact ⟨rfl, rfl⟩

/-- With `"%d%%"` for `"5%"` a slip comes up behind the only value. -/
example : (interSscanf strtod (raw [.dec, .lit PERCENT]) [53, PERCENT] 1).values =
    (reading 1 [.dec, .lit PERCENT] [53, PERCENT]).values :=
  rfl

/-- `sscanf` matches literally **exactly if** neither slip comes up. -/
theorem literal_iff : Literal strtod numArg f s ↔ Clean numArg f s := by
  refine ⟨fun h ↦ interSscanf_iff.1 h.reading, fun h ↦ ⟨interSscanf_iff.2 h, fun vs hvs hlen ↦ ?_⟩⟩
  rw [interSscanf_iff.2 h, hlen]
  exact reading_printed hvs

/-- `"%d%s"` for `"5%a"`: the string is `"%a"`, but it is not assigned. -/
theorem not_literal : ¬∀ (strtod : Bytes → Option (Option CFloat × Bytes)) (numArg : ℕ)
    (f : List Item) (s : Bytes),
    (interSscanf strtod (raw f) s numArg).values = (reading numArg f s).values := by
  intro h
  have h := congrArg List.length (h (fun _ ↦ none) 2 [.dec, .str] [53, PERCENT, 97])
  revert h
  decide

end Main

end Lpmud.Sscanf
