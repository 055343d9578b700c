import Mathlib.Data.List.Forall2
import Mathlib.Algebra.GroupWithZero.Nat

/-!
# Formats

What `vsprintf` writes: the text of a format, with `%%` for a percent sign, and for each other
directive what the next argument is converted to. A directive is a percent sign and a letter,
without flags, width or precision. What the letters convert is an argument of the development.

A directive that there is no argument for, one whose letter does not convert its argument, and a
percent sign at the end are undefined. Otherwise the length of the result is that of the text and of
the arguments (`length_vsprintf`). A string that is taken for a format is written as it is just when
there is no percent sign in it (`vsprintf_nil_eq_self_iff`).
-/

universe u

namespace Printf

open List

abbrev PERCENT : UInt8 := 37

variable {α : Type u} (convert : UInt8 → α → Option (List UInt8))

/-- What is written for a format and arguments, if it is defined. -/
def vsprintf : List UInt8 → List α → Option (List UInt8)
  | [], _ => some []
  | c :: fmt, args =>
    if c ≠ PERCENT then (vsprintf fmt args).map (c :: ·)
    else match fmt with
      | [] => none
      | letter :: fmt =>
        if letter = PERCENT then (vsprintf fmt args).map (PERCENT :: ·)
        else match args with
          | [] => none
          | a :: args => (convert letter a).bind fun text ↦ (vsprintf fmt args).map (text ++ ·)

/-- The directives that take an argument, by their letters; `none` if there is a percent sign at
the end. -/
def directives : List UInt8 → Option (List UInt8)
  | [] => some []
  | c :: fmt =>
    if c ≠ PERCENT then directives fmt
    else match fmt with
      | [] => none
      | letter :: fmt =>
        if letter = PERCENT then directives fmt else (directives fmt).map (letter :: ·)

/-- How much text is written besides the arguments. -/
def textLength : List UInt8 → ℕ
  | [] => 0
  | c :: fmt =>
    if c ≠ PERCENT then textLength fmt + 1
    else match fmt with
      | [] => 0
      | letter :: fmt => if letter = PERCENT then textLength fmt + 1 else textLength fmt

/-- How much is written for the arguments. -/
def argsLength (letters : List UInt8) (args : List α) : ℕ :=
  (List.zipWith (fun letter a ↦ ((convert letter a).getD []).length) letters args).sum

variable {convert} {fmt letters text : List UInt8} {args : List α} {c letter : UInt8}

attribute [local simp] vsprintf in
theorem vsprintf_text (hc : c ≠ PERCENT) :
    vsprintf convert (c :: fmt) args = (vsprintf convert fmt args).map (c :: ·) := by
  rw [vsprintf.eq_def]
  exact if_pos hc

theorem vsprintf_percent :
    vsprintf convert (PERCENT :: PERCENT :: fmt) args =
      (vsprintf convert fmt args).map (PERCENT :: ·) := by
  rw [vsprintf.eq_def]
  rfl

theorem vsprintf_directive (hletter : letter ≠ PERCENT) (a : α) :
    vsprintf convert (PERCENT :: letter :: fmt) (a :: args) =
      (convert letter a).bind fun text ↦ (vsprintf convert fmt args).map (text ++ ·) := by
  rw [vsprintf.eq_def]
  exact if_neg hletter

theorem vsprintf_directive_nil (hletter : letter ≠ PERCENT) :
    vsprintf convert (PERCENT :: letter :: fmt) [] = none := by
  rw [vsprintf.eq_def]
  exact if_neg hletter

/-- **Induction on formats**: text, percent signs, directives, and a percent sign at the end. -/
theorem fmt_induction {P : List UInt8 → Prop} (nil : P [])
    (text : ∀ c fmt, c ≠ PERCENT → P fmt → P (c :: fmt)) (last : P [PERCENT])
    (percent : ∀ fmt, P fmt → P (PERCENT :: PERCENT :: fmt))
    (directive : ∀ letter fmt, letter ≠ PERCENT → P fmt → P (PERCENT :: letter :: fmt)) :
    ∀ fmt, P fmt
  | [] => nil
  | [c] => by
    obtain rfl | hc := eq_or_ne c PERCENT
    · exact last
    · exact text c [] hc nil
  | c :: letter :: fmt => by
    have ih := fmt_induction nil text last percent directive fmt
    have ih' := fmt_induction nil text last percent directive (letter :: fmt)
    obtain rfl | hc := eq_or_ne c PERCENT
    · obtain rfl | hletter := eq_or_ne letter PERCENT
      · exact percent fmt ih
      · exact directive letter fmt hletter ih
    · exact text c (letter :: fmt) hc ih'

/-- **When all directives have their arguments**, the text and the arguments are written. -/
theorem length_vsprintf : ∀ {fmt letters : List UInt8} {args : List α},
    directives fmt = some letters →
    List.Forall₂ (fun letter a ↦ (convert letter a).isSome) letters args →
    ∃ text, vsprintf convert fmt args = some text ∧
      text.length = textLength fmt + argsLength convert letters args := by
  intro fmt
  induction fmt using fmt_induction with
  | nil =>
    intro letters args hletters hargs
    obtain rfl := Option.some.inj hletters
    obtain rfl := forall₂_nil_left_iff.1 hargs
    exact ⟨[], rfl, rfl⟩
  | text c fmt hc ih =>
    intro letters args hletters hargs
    rw [directives.eq_def] at hletters
    obtain ⟨text, htext, hlen⟩ := ih ((if_pos hc).symm.trans hletters) hargs
    refine ⟨c :: text, by rw [vsprintf_text hc, htext, Option.map_some], ?_⟩
    have htextLength : textLength (c :: fmt) = textLength fmt + 1 := by
      rw [textLength.eq_def]
      exact if_pos hc
    rw [length_cons, hlen, htextLength, Nat.add_right_comm]
  | last =>
    intro letters args hletters
    exact nomatch hletters
  | percent fmt ih =>
    intro letters args hletters hargs
    obtain ⟨text, htext, hlen⟩ := ih hletters hargs
    refine ⟨PERCENT :: text, by rw [vsprintf_percent, htext, Option.map_some], ?_⟩
    rw [length_cons, hlen, Nat.add_right_comm]
    rfl
  | directive letter fmt hletter ih =>
    intro letters args hletters hargs
    have hletters : (directives fmt).map (letter :: ·) = some letters := by
      rw [← hletters]
      exact (if_neg hletter).symm
    obtain ⟨letters, hrest, rfl⟩ := Option.map_eq_some_iff.1 hletters
    obtain ⟨a, args, hconvert, hrestArgs, rfl⟩ := forall₂_cons_left_iff.1 hargs
    obtain ⟨text, htext, hlen⟩ := ih hrest hrestArgs
    obtain ⟨arg, harg⟩ := Option.isSome_iff_exists.1 hconvert
    refine ⟨arg ++ text, by
      rw [vsprintf_directive hletter, harg, Option.bind_some, htext, Option.map_some], ?_⟩
    have htextLength : textLength (PERCENT :: letter :: fmt) = textLength fmt := if_neg hletter
    rw [length_append, hlen, htextLength, argsLength, argsLength, zipWith_cons_cons,
      sum_cons, harg, Option.getD_some, Nat.add_left_comm]

theorem vsprintf_append_of_not_mem {front : List UInt8} (h : PERCENT ∉ front) (args : List α) :
    vsprintf convert (front ++ fmt) args = (vsprintf convert fmt args).map (front ++ ·) := by
  induction front with
  | nil => exact Option.map_id'.symm
  | cons c front ih =>
    rw [mem_cons, not_or] at h
    rw [cons_append, vsprintf_text (Ne.symm h.1), ih h.2, Option.map_map]
    rfl

theorem vsprintf_of_not_mem (h : PERCENT ∉ fmt) (args : List α) :
    vsprintf convert fmt args = some fmt := by
  have happend := @vsprintf_append_of_not_mem α convert [] fmt h args
  rw [append_nil] at happend
  rw [happend]
  exact congrArg some (append_nil fmt)

/-- Without arguments, nothing is written that is longer than the format, and if it is as long then
there is no percent sign in the format. -/
theorem length_vsprintf_nil : ∀ {fmt text : List UInt8}, vsprintf convert fmt [] = some text →
    text.length ≤ fmt.length ∧ (text.length = fmt.length → PERCENT ∉ fmt) := by
  intro fmt
  induction fmt using fmt_induction with
  | nil =>
    intro text h
    obtain rfl := Option.some.inj h
    exact ⟨Nat.le_refl _, fun _ ↦ not_mem_nil⟩
  | text c fmt hc ih =>
    intro text h
    rw [vsprintf_text hc] at h
    obtain ⟨text, htext, rfl⟩ := Option.map_eq_some_iff.1 h
    obtain ⟨hle, heq⟩ := ih htext
    refine ⟨Nat.succ_le_succ hle, fun hlen hmem ↦ ?_⟩
    obtain hmem | hmem := mem_cons.1 hmem
    · exact hc hmem.symm
    · exact heq (Nat.succ.inj hlen) hmem
  | last => exact fun h ↦ nomatch h
  | percent fmt ih =>
    intro text h
    rw [vsprintf_percent] at h
    obtain ⟨text, htext, rfl⟩ := Option.map_eq_some_iff.1 h
    have hle := (ih htext).1
    rw [length_cons, length_cons, length_cons]
    exact ⟨by omega, fun hlen ↦ by omega⟩
  | directive letter fmt hletter ih =>
    intro text h
    rw [vsprintf_directive_nil hletter] at h
    exact nomatch h

/-- **A string that is taken for a format.** -/
theorem vsprintf_nil_eq_self_iff : vsprintf convert fmt [] = some fmt ↔ PERCENT ∉ fmt :=
  ⟨fun h ↦ (length_vsprintf_nil h).2 rfl, fun h ↦ vsprintf_of_not_mem h []⟩

end Printf
