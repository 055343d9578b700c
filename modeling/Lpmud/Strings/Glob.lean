import Lpmud.Lib.Glob
import Lpmud.Svalue

/-!
# match_string

`match_string` of `simulate.c`: whether a string is one that a pattern stands for, where `?` is any
character, `*` any number of them, and a character behind a `\` is itself.

It accepts nothing else. Behind a `*` it tries the rest of the pattern where the string has a
character left, and not at its end. The rest needs characters, unless it is more `*`; so what it
does not accept is a string that leaves nothing to two or more `*` at the end of the pattern
(`matchString_iff`).

The efun `wildmatch` does not use it but `wildmat`, which knows classes of characters as well.
-/

namespace Lpmud.MatchString

open List Option Glob

abbrev QUESTION : UInt8 := 63
abbrev STAR : UInt8 := 42
abbrev BACKSLASH : UInt8 := 92

/-- The loop over where the rest of the pattern may begin. -/
def tryEach (f : Bytes → Bool) : Bytes → Bool
  | [] => false
  | c :: str => f (c :: str) || tryEach f str

/-- The next character is one that `ok` accepts, and the rest is matched. -/
def matchNext (ok : UInt8 → Bool) (f : Bytes → Bool) : Bytes → Bool
  | [] => false
  | e :: str => ok e && f str

/-- `match_string`, for the characters of the pattern and of the string. -/
def matchString : Bytes → Bytes → Bool
  | [], str => str.isEmpty
  | c :: pat, str =>
    if c = QUESTION then matchNext (fun _ ↦ true) (matchString pat) str
    else if c = STAR then pat.isEmpty || tryEach (matchString pat) str
    else if c = BACKSLASH then
      match pat with
      | [] => false
      | d :: pat => matchNext (d == ·) (matchString pat) str
    else matchNext (c == ·) (matchString pat) str

/-- What the characters of a pattern stand for. There is nothing behind a `\` at the end. -/
def tokens : Bytes → Option (List (Token UInt8))
  | [] => some []
  | c :: pat =>
    if c = QUESTION then (tokens pat).map (.any :: ·)
    else if c = STAR then (tokens pat).map (.star :: ·)
    else if c = BACKSLASH then
      match pat with
      | [] => none
      | d :: pat => (tokens pat).map (.lit d :: ·)
    else (tokens pat).map (.lit c :: ·)

/-- **The strings that a pattern stands for.** -/
def Accepts (pat str : Bytes) : Prop :=
  ∃ p, tokens pat = some p ∧ str ∈ language p

/-- **Two or more `*` at the end of the pattern get nothing**: what is before them stands for the
whole string, and not for a part with something behind it. -/
def Misses (pat str : Bytes) : Prop :=
  ∃ p k, tokens pat = some (p ++ List.replicate (k + 2) .star) ∧ p.getLast? ≠ some .star ∧
    str ∈ language p ∧ str ∉ language (p ++ [.any, .star])

/-! ### What is accepted -/

/-- The pattern that the code goes by: at least one character for two or more `*` at the end. -/
def strict : List (Token UInt8) → List (Token UInt8)
  | [] => []
  | .star :: p => if p ≠ [] ∧ ∀ x ∈ p, x = .star then [.any, .star] else .star :: strict p
  | x :: p => x :: strict p

variable {p : List (Token UInt8)} {pat str : Bytes}

theorem tryEach_iff {f : Bytes → Bool} :
    tryEach f str = true ↔ ∃ t, t <:+ str ∧ t ≠ [] ∧ f t = true := by
  induction str with
  | nil =>
    refine iff_of_false Bool.false_ne_true ?_
    rintro ⟨t, ht, hne, -⟩
    exact hne (suffix_nil.1 ht)
  | cons c str ih =>
    rw [tryEach, Bool.or_eq_true, ih]
    constructor
    · rintro (h | ⟨t, ht, hne, h⟩)
      · exact ⟨c :: str, suffix_rfl, cons_ne_nil c str, h⟩
      · exact ⟨t, ht.trans (suffix_cons c str), hne, h⟩
    · rintro ⟨t, ht, hne, h⟩
      rcases suffix_cons_iff.1 ht with rfl | ht
      · exact .inl h
      · exact .inr ⟨t, ht, hne, h⟩

theorem strict_of_all_star (hne : p ≠ []) (h : ∀ x ∈ p, x = .star) :
    strict p = [.star] ∨ strict p = [.any, .star] := by
  cases p with
  | nil => exact absurd rfl hne
  | cons x p =>
    obtain rfl := h x mem_cons_self
    by_cases hp : p = []
    · subst hp
      exact .inl rfl
    · have hrest : ∀ x ∈ p, x = .star := fun x hx ↦ h x (mem_cons_of_mem _ hx)
      exact .inr (if_pos ⟨hp, hrest⟩)

/-- What is not a `*` stays. -/
theorem mem_strict {x : Token UInt8} (hx : x ∈ p) (hne : x ≠ .star) :
    ∃ y ∈ strict p, y ≠ .star := by
  induction p with
  | nil => exact absurd hx not_mem_nil
  | cons y p ih =>
    by_cases hy : y = .star
    · subst hy
      have hmem := (mem_cons.1 hx).resolve_left hne
      obtain ⟨z, hz, hzne⟩ := ih hmem
      have hnot : ¬(p ≠ [] ∧ ∀ x ∈ p, x = .star) := fun h ↦ hne (h.2 x hmem)
      refine ⟨z, ?_, hzne⟩
      rw [strict, if_neg hnot]
      exact mem_cons_of_mem _ hz
    · refine ⟨y, ?_, hy⟩
      cases y with
      | star => exact absurd rfl hy
      | _ => exact mem_cons_self

theorem mem_language_any_star : str ∈ language [(.any : Token UInt8), .star] ↔ str ≠ [] := by
  rw [mem_language_any]
  constructor
  · rintro ⟨c, t, rfl, -⟩
    exact cons_ne_nil c t
  · intro hne
    obtain ⟨c, t, rfl⟩ := exists_cons_of_ne_nil hne
    exact ⟨c, t, rfl, language_star ▸ trivial⟩

theorem mem_language_strict_star (hp : p ≠ []) : str ∈ language (strict (.star :: p)) ↔
    ∃ t, t <:+ str ∧ t ≠ [] ∧ t ∈ language (strict p) := by
  by_cases hall : ∀ x ∈ p, x = .star
  · -- the rest takes everything
    have hstrict : strict (.star :: p) = [.any, .star] := if_pos ⟨hp, hall⟩
    rw [hstrict, mem_language_any_star]
    constructor
    · intro hne
      refine ⟨str, suffix_rfl, hne, ?_⟩
      rcases strict_of_all_star hp hall with h | h
      · rw [h, language_star]
        trivial
      · rw [h, mem_language_any_star]
        exact hne
    · rintro ⟨t, ht, hne, -⟩ rfl
      exact hne (suffix_nil.1 ht)
  · -- the rest needs characters
    have hstrict : strict (.star :: p) = .star :: strict p := if_neg fun h ↦ hall h.2
    push Not at hall
    obtain ⟨x, hx, hne⟩ := hall
    rw [hstrict, mem_language_star]
    constructor
    · rintro ⟨t, ht, hmem⟩
      exact ⟨t, ht, ne_nil_of_mem (mem_strict hx hne) hmem, hmem⟩
    · rintro ⟨t, ht, -, hmem⟩
      exact ⟨t, ht, hmem⟩

theorem tokens_ne_nil {c : UInt8} (h : tokens (c :: pat) = some p) : p ≠ [] := by
  rintro rfl
  rw [tokens.eq_def] at h
  dsimp only at h
  split_ifs at h
  · obtain ⟨q, -, hq⟩ := map_eq_some_iff.1 h
    cases hq
  · obtain ⟨q, -, hq⟩ := map_eq_some_iff.1 h
    cases hq
  · cases pat with
    | nil => cases h
    | cons d pat =>
      obtain ⟨q, -, hq⟩ := map_eq_some_iff.1 h
      cases hq
  · obtain ⟨q, -, hq⟩ := map_eq_some_iff.1 h
    cases hq

theorem lit_iff {c e : UInt8} {t : Bytes} :
    e :: t ∈ language (.lit c :: p) ↔ c = e ∧ t ∈ language p := by
  rw [mem_language_lit]
  constructor
  · rintro ⟨u, hu, ht⟩
    obtain ⟨rfl, rfl⟩ := List.cons.inj hu
    exact ⟨rfl, ht⟩
  · rintro ⟨rfl, ht⟩
    exact ⟨t, rfl, ht⟩

theorem matchNext_lit {c : UInt8} {f : Bytes → Bool}
    (h : ∀ {str}, f str = true ↔ ∃ p, tokens pat = some p ∧ str ∈ language (strict p)) :
    matchNext (c == ·) f str = true ↔
      ∃ p, (tokens pat).map (.lit c :: ·) = some p ∧ str ∈ language (strict p) := by
  constructor
  · intro hmatch
    cases str with
    | nil => cases hmatch
    | cons e str =>
      obtain ⟨hc, hrest⟩ := Bool.and_eq_true_iff.1 hmatch
      obtain ⟨p, hp, hmem⟩ := h.1 hrest
      exact ⟨.lit c :: p, by rw [hp]; rfl, lit_iff.2 ⟨beq_iff_eq.1 hc, hmem⟩⟩
  · rintro ⟨p, hp, hmem⟩
    obtain ⟨q, hq, rfl⟩ := map_eq_some_iff.1 hp
    obtain ⟨t, rfl, ht⟩ := mem_language_lit.1 hmem
    rw [matchNext, beq_self_eq_true, Bool.true_and]
    exact h.2 ⟨q, hq, ht⟩

/-- **What is accepted**, by induction on the pattern: the language of the strict pattern. -/
theorem matchString_iff_strict : matchString pat str = true ↔
    ∃ p, tokens pat = some p ∧ str ∈ language (strict p) := by
  fun_induction tokens pat generalizing str with
  | case1 =>
    rw [matchString, List.isEmpty_iff]
    exact ⟨fun h ↦ ⟨[], rfl, h⟩, fun ⟨p, hp, hmem⟩ ↦ by cases hp; exact hmem⟩
  | case2 pat ih =>
    rw [matchString.eq_def]
    dsimp only
    rw [if_pos rfl]
    constructor
    · intro hmatch
      cases str with
      | nil => cases hmatch
      | cons e str =>
        rw [matchNext, Bool.true_and] at hmatch
        obtain ⟨p, hp, hmem⟩ := ih.1 hmatch
        exact ⟨.any :: p, by rw [hp]; rfl, mem_language_any.2 ⟨e, str, rfl, hmem⟩⟩
    · rintro ⟨p, hp, hmem⟩
      obtain ⟨q, hq, rfl⟩ := map_eq_some_iff.1 hp
      obtain ⟨e, t, rfl, ht⟩ := mem_language_any.1 hmem
      exact ih.2 ⟨q, hq, ht⟩
  | case3 pat hne ih =>
    rw [matchString.eq_def]
    dsimp only
    rw [if_neg hne, if_pos rfl, Bool.or_eq_true, tryEach_iff, List.isEmpty_iff]
    cases pat with
    | nil => exact iff_of_true (.inl rfl) ⟨[.star], rfl, language_star ▸ trivial⟩
    | cons c pat =>
      rw [or_iff_right (cons_ne_nil c pat)]
      constructor
      · rintro ⟨t, ht, htne, hmatch⟩
        obtain ⟨p, hp, hmem⟩ := ih.1 hmatch
        exact ⟨.star :: p, by rw [hp]; rfl,
          (mem_language_strict_star (tokens_ne_nil hp)).2 ⟨t, ht, htne, hmem⟩⟩
      · rintro ⟨p, hp, hmem⟩
        obtain ⟨q, hq, rfl⟩ := map_eq_some_iff.1 hp
        obtain ⟨t, ht, htne, hmem⟩ := (mem_language_strict_star (tokens_ne_nil hq)).1 hmem
        exact ⟨t, ht, htne, ih.2 ⟨q, hq, hmem⟩⟩
  | case4 hne₁ hne₂ =>
    rw [matchString, if_neg hne₁, if_neg hne₂, if_pos rfl]
    exact iff_of_false Bool.false_ne_true nofun
  | case5 d pat hne₁ hne₂ ih =>
    rw [matchString, if_neg hne₁, if_neg hne₂, if_pos rfl]
    exact matchNext_lit ih
  | case6 c pat hne₁ hne₂ hne₃ ih =>
    rw [matchString.eq_def]
    dsimp only
    rw [if_neg hne₁, if_neg hne₂, if_neg hne₃]
    exact matchNext_lit ih

/-! ### What is missed -/

/-- What ends with something that is no `*` stays as it is. -/
theorem strict_append {p q : List (Token UInt8)} (hp : p.getLast? ≠ some .star) :
    strict (p ++ q) = p ++ strict q := by
  induction p with
  | nil => rfl
  | cons x p ih =>
    by_cases hx : x = .star
    · subst hx
      have hne : p ≠ [] := by
        rintro rfl
        exact hp rfl
      rw [List.getLast?_cons_of_ne_nil hne] at hp
      have hnot : ¬∀ y ∈ p ++ q, y = .star := by
        intro h
        have hlast := h _ (mem_append_left q (getLast_mem hne))
        rw [List.getLast?_eq_getLast_of_ne_nil hne, hlast] at hp
        exact hp rfl
      rw [cons_append, strict, if_neg fun h ↦ hnot h.2, ih hp, cons_append]
    · have hrest : p.getLast? ≠ some .star := by
        cases p with
        | nil => exact nofun
        | cons y p => rwa [List.getLast?_cons_of_ne_nil (cons_ne_nil y p)] at hp
      have hcons : strict (x :: (p ++ q)) = x :: strict (p ++ q) := by
        cases x with
        | star => exact absurd rfl hx
        | _ => rfl
      rw [cons_append, hcons, ih hrest, cons_append]

/-- Two or more `*` at the end need a character, and one does not. -/
theorem strict_replicate (k : ℕ) : strict (List.replicate k .star) =
    if 2 ≤ k then [.any, .star] else List.replicate k .star := by
  obtain rfl | rfl | ⟨k, rfl⟩ : k = 0 ∨ k = 1 ∨ ∃ j, k = j + 2 := by
    rcases k with - | - | k
    · exact .inl rfl
    · exact .inr (.inl rfl)
    · exact .inr (.inr ⟨k, rfl⟩)
  · rfl
  · rfl
  · rw [if_pos (Nat.le_add_left 2 k)]
    refine if_pos ⟨cons_ne_nil _ _, fun x hx ↦ ?_⟩
    exact eq_of_mem_replicate (n := k + 1) hx

/-- Every pattern is something that ends with no `*`, and then some `*`. -/
theorem exists_trailing (p : List (Token UInt8)) :
    ∃ q k, p = q ++ List.replicate k .star ∧ q.getLast? ≠ some .star := by
  induction p using List.reverseRecOn with
  | nil => exact ⟨[], 0, rfl, nofun⟩
  | append_singleton p x ih =>
    by_cases hx : x = .star
    · obtain ⟨q, k, rfl, hq⟩ := ih
      exact ⟨q, k + 1, by rw [hx, append_assoc, ← replicate_succ'], hq⟩
    · refine ⟨p ++ [x], 0, (append_nil _).symm, ?_⟩
      rw [List.getLast?_concat]
      exact fun h ↦ hx (some.inj h)

theorem mem_language_append_star {k : ℕ} (hk : 0 < k) :
    str ∈ language (p ++ List.replicate k .star) ↔ ∃ s t, s ++ t = str ∧ s ∈ language p := by
  rw [language_append, language_trailing hk, Language.mem_mul]
  constructor
  · rintro ⟨s, hs, t, -, rfl⟩
    exact ⟨s, t, rfl, hs⟩
  · rintro ⟨s, t, rfl, hs⟩
    exact ⟨s, hs, t, trivial, rfl⟩

theorem mem_language_append_any_star :
    str ∈ language (p ++ [.any, .star]) ↔ ∃ s t, s ++ t = str ∧ t ≠ [] ∧ s ∈ language p := by
  rw [language_append, Language.mem_mul]
  constructor
  · rintro ⟨s, hs, t, ht, rfl⟩
    exact ⟨s, t, rfl, mem_language_any_star.1 ht, hs⟩
  · rintro ⟨s, t, rfl, hne, hs⟩
    exact ⟨s, hs, t, mem_language_any_star.2 hne, rfl⟩

theorem language_strict_le (p : List (Token UInt8)) (h : str ∈ language (strict p)) :
    str ∈ language p := by
  obtain ⟨q, k, rfl, hq⟩ := exists_trailing p
  rw [strict_append hq, strict_replicate] at h
  split_ifs at h with hk
  · obtain ⟨s, t, hst, -, hs⟩ := mem_language_append_any_star.1 h
    exact (mem_language_append_star (by omega)).2 ⟨s, t, hst, hs⟩
  · exact h

/-- **`match_string` is right about a string unless two or more `*` at the end of the pattern get
nothing of it.** -/
theorem matchString_iff (pat str : Bytes) :
    (matchString pat str = true ↔ Accepts pat str) ↔ ¬Misses pat str := by
  rw [matchString_iff_strict]
  constructor
  · rintro hiff ⟨p, k, hp, hlast, hmem, hnot⟩
    have haccepts : Accepts pat str :=
      ⟨_, hp, (mem_language_append_star (Nat.succ_pos _)).2 ⟨str, [], append_nil str, hmem⟩⟩
    obtain ⟨q, hq, hstrict⟩ := hiff.2 haccepts
    obtain rfl := some.inj (hp.symm.trans hq)
    rw [strict_append hlast, strict_replicate, if_pos (Nat.le_add_left 2 k)] at hstrict
    exact hnot hstrict
  · intro hmisses
    constructor
    · rintro ⟨p, hp, hmem⟩
      exact ⟨p, hp, language_strict_le p hmem⟩
    · rintro ⟨p, hp, hmem⟩
      refine ⟨p, hp, ?_⟩
      obtain ⟨q, k, rfl, hq⟩ := exists_trailing p
      rw [strict_append hq, strict_replicate]
      split_ifs with hk
      · by_contra hnot
        obtain ⟨k, rfl⟩ := Nat.exists_eq_add_of_le' hk
        obtain ⟨s, t, rfl, hs⟩ := (mem_language_append_star (Nat.succ_pos _)).1 hmem
        -- what is left for the `*` would do, if there were something
        have ht : t = [] := by
          by_contra hne
          exact hnot (mem_language_append_any_star.2 ⟨s, t, rfl, hne, hs⟩)
        subst ht
        rw [append_nil] at hnot
        exact hmisses ⟨q, k, hp, hq, by rwa [append_nil], by rwa [append_nil]⟩
      · exact hmem

/-- `a**` stands for `a`, which is not accepted. -/
theorem not_matchString : ¬∀ pat str, matchString pat str = true ↔ Accepts pat str := by
  intro h
  have haccepts : Accepts [97, 42, 42] [97] :=
    ⟨[.lit 97, .star, .star], rfl, mem_language_lit.2 ⟨[], rfl, mem_language_star.2
      ⟨[], nil_suffix, mem_language_star.2 ⟨[], nil_suffix, rfl⟩⟩⟩⟩
  exact absurd ((h _ _).2 haccepts) (by decide)

/-! ### wildmat -/

abbrev MINUS : UInt8 := 45
abbrev LBRACKET : UInt8 := 91
abbrev RBRACKET : UInt8 := 93
abbrev NEGATE_CLASS : UInt8 := 94

/-- What `DoMatch` returns, unless it reads what is behind the pattern. -/
inductive Matched where
  | yes
  | no
  | abort
  | past
  deriving DecidableEq

/-- Where `DoMatch` is: at the next character of the text, or in a class of characters. -/
inductive Place where
  | next
  | inside (c last : UInt8) (matched reverse : Bool)

/-- The loop over where the rest of the pattern may begin. -/
def matchEach (f : Bytes → Matched) : Bytes → Matched
  | [] => .abort
  | c :: text => if f (c :: text) = .no then matchEach f text else f (c :: text)

/-- `DoMatch`, for the characters of the pattern and of the text. -/
def doMatch : Place → Bytes → Bytes → Matched
  | .next, [], text => if text.isEmpty then .yes else .no
  | .next, x :: p, text =>
    if x = STAR then
      if p.isEmpty then .yes
      else if p.head? = some STAR then doMatch .next p text
      else matchEach (doMatch .next p) text
    else
      match text with
      | [] => .abort
      | c :: text =>
        if x = QUESTION then doMatch .next p text
        else if x = BACKSLASH then
          match p with
          | [] => .no
          | y :: p => if c = y then doMatch .next p text else .no
        else if x = LBRACKET then
          match p with
          | y :: p =>
            if y = NEGATE_CLASS then
              match p with
              | z :: p =>
                if z = RBRACKET ∨ z = MINUS then doMatch (.inside c z (z = c) true) p text
                else doMatch (.inside c y false true) (z :: p) text
              | [] => .past
            else if y = RBRACKET ∨ y = MINUS then doMatch (.inside c y (y = c) false) p text
            else doMatch (.inside c x false false) (y :: p) text
          | [] => .no
        else if c = x then doMatch .next p text
        else .no
  | .inside _ _ matched reverse, [], _ => if matched = reverse then .no else .past
  | .inside c last matched reverse, x :: p, text =>
    if x = RBRACKET then
      if matched = reverse then .no else doMatch .next p text
    else if x = MINUS ∧ p.head? ≠ some RBRACKET then
      match p with
      | [] => .past
      | y :: p =>
        let within := decide (c.toInt8 ≤ y.toInt8 ∧ last.toInt8 ≤ c.toInt8)
        doMatch (.inside c y (matched || within) reverse) p text
    else doMatch (.inside c x (matched || decide (c = x)) reverse) p text

/-- `wildmat`. What is behind the pattern matches nothing. -/
def wildmat (p text : Bytes) : Bool :=
  p = [STAR] || doMatch .next p text = .yes

/-- **A pattern with a `*` at its end** and no other special characters stands for the strings that
begin with it. -/
theorem wildmat_star_iff {p text : Bytes}
    (h : ∀ x ∈ p, x ≠ STAR ∧ x ≠ QUESTION ∧ x ≠ BACKSLASH ∧ x ≠ LBRACKET) :
    wildmat (p ++ [STAR]) text = true ↔ p <+: text := by
  have hmatch : ∀ {text}, doMatch .next (p ++ [STAR]) text = .yes ↔ p <+: text := by
    induction p with
    | nil =>
      intro text
      exact iff_of_true (by rw [nil_append, doMatch.eq_def]; rfl) nil_prefix
    | cons x p ih =>
      intro text
      obtain ⟨hstar, hquestion, hbackslash, hbracket⟩ := h x mem_cons_self
      rw [cons_append, doMatch.eq_def]
      dsimp only
      rw [if_neg hstar]
      cases text with
      | nil => exact iff_of_false nofun fun h ↦ absurd (prefix_nil.1 h) (cons_ne_nil x p)
      | cons c text =>
        dsimp only
        rw [if_neg hquestion, if_neg hbackslash, if_neg hbracket, cons_prefix_cons]
        split
        next hc =>
          rw [ih fun y hy ↦ h y (mem_cons_of_mem x hy)]
          exact (and_iff_right hc.symm).symm
        next hc => exact iff_of_false nofun fun h ↦ hc h.1.symm
  rw [wildmat, Bool.or_eq_true, decide_eq_true_iff, decide_eq_true_iff, hmatch]
  refine or_iff_right_of_imp fun h ↦ ?_
  obtain rfl : p = [] := append_left_eq_self.1 h
  exact nil_prefix

end Lpmud.MatchString
