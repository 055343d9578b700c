import Lpmud.Lex.Reading

/-!
# The condition of `#if` is evaluated as in C

What C writes as an expression is read, up to the operators behind it (`Writes.goes`): the loop goes
on as if it had just read the expression. With what is known of all that is read (`reads_parseExp`)
a condition has its value in C, and an error is reported for every other text (`evaluated_iff`), if
no division traps, and for a digit as large as the base or a `0x` without digits there is another
error; unless an operand of a conditional ends in front of the `?` of another one (`not_evaluated`).
-/

namespace Lpmud.Lex.Condition

open List Scanner

/-! ### What C writes is read -/

theorem skipBlanks_blank {w : Bytes} (hw : Blank w) (s : Bytes) :
    skipBlanks (w ++ s) = skipBlanks s := by
  induction w with
  | nil => rfl
  | cons c w ih =>
    obtain ⟨hc, hw⟩ := forall_mem_cons.1 hw
    rw [cons_append, skipBlanks, if_pos hc]
    exact ih hw

theorem parseExp_blank {w : Bytes} (hw : Blank w) (n p : ℕ) (s : Bytes) :
    parseExp n p (w ++ s) = parseExp n p s := by
  cases n with
  | zero => rfl
  | succ n => rw [parseExp, bind_apply, bind_apply, skipBlanks_blank hw]

theorem operators_blank {w : Bytes} (hw : Blank w) (n p : ℕ) (e : Expr) (s : Bytes) :
    parseOperators n p e (w ++ s) = parseOperators n p e s := by
  cases n with
  | zero => rfl
  | succ n => rw [parseOperators, bind_apply, bind_apply, skipBlanks_blank hw]

theorem operators_dropWhile (n p : ℕ) (e : Expr) (s : Bytes) :
    parseOperators n p e (s.dropWhile isSpace) = parseOperators n p e s := by
  obtain ⟨w, hw, hs⟩ := exists_blank s
  conv_rhs => rw [hs]
  exact (operators_blank hw n p e _).symm

/-- A character that `exgetc` delivers. -/
def Token (c : UInt8) : Prop :=
  isSpace c = false ∧ (isAlpha c || c == UNDERSCORE) = false

theorem skipBlanks_token {c : UInt8} (hc : Token c) (s : Bytes) :
    skipBlanks (c :: s) = .ok (some c, s, []) := by
  rw [skipBlanks, if_neg (by rw [hc.1]; exact Bool.false_ne_true), exgetc,
    if_neg (by rw [hc.2]; exact Bool.false_ne_true)]

set_option maxRecDepth 4000 in
theorem token_of_optab1 : ∀ c, isPunct c = true → optab1 c ≠ 0 → Token c :=
  forall_byte (by unfold Token; decide)

/-- The operators from the level `k` on stop in front of `s`. -/
def Ends (k : ℕ) (s : Bytes) : Prop :=
  ∀ n p e, k ≤ p → parseOperators (n + 1) p e s = .ok (e, s.dropWhile isSpace, [])

theorem Ends.blank {k : ℕ} {w s : Bytes} (h : Ends k s) (hw : Blank w) : Ends k (w ++ s) := by
  intro n p e hp
  rw [operators_blank hw, h n p e hp, dropWhile_append_of_pos hw]

theorem ends_nil : Ends 0 [] :=
  fun _ _ _ _ ↦ rfl

theorem ends_cons {c : UInt8} (hc : Token c) (hop : ¬ (isPunct c = true ∧ optab1 c ≠ 0))
    (s : Bytes) : Ends 0 (c :: s) := by
  intro n p e _
  rw [parseOperators, bind_of_ok (skipBlanks_token hc s), parseOperator, if_neg hop,
    dropWhile_cons_of_neg (by rw [hc.1]; exact Bool.false_ne_true)]
  rfl

theorem operators_cons {c : UInt8} {s : Bytes} {second op priority : ℕ}
    (hc : isPunct c = true ∧ optab1 c ≠ 0)
    (h : findOp s.head? (optab2.drop (optab1 c)) = some (second, op, priority)) (n p : ℕ)
    (e : Expr) :
    parseOperators (n + 1) p e (c :: s) =
      if priority ≤ p then .ok (e, c :: s, [])
      else
        parseApplyOp (parseExp n) (parseOperators n p) op priority e
          (if second = 0 then s else s.tail) := by
  have hs : s.head?.toList ++ s.tail = s := by
    cases s <;> rfl
  rw [parseOperators, bind_of_ok (skipBlanks_token (token_of_optab1 c hc.1 hc.2) s), parseOperator,
    if_pos hc, bind_of_ok (next_apply s)]
  simp only [h]
  split
  · rw [bind_of_ok (putBack_apply _ _), bind_of_ok (putBack_apply _ _), hs]
    rfl
  · rw [bind_of_ok (putBack_apply _ _)]
    split
    · rw [hs]
    · rfl

/-- Whether the text does not go on with a character that makes another operator of one in front of
it. -/
def Start (s : Bytes) : Prop :=
  ∀ c ∈ s.head?, c ∉ [(38 : UInt8), 60, 61, 62, 124]

theorem findOp_skip {v : Option UInt8} {second op priority : ℕ} {rows : List ℕ}
    (hsecond : second ≠ 0) (h : v.map UInt8.toNat ≠ some second) :
    findOp v (second :: op :: priority :: rows) = findOp v rows := by
  rw [findOp, if_neg hsecond, if_neg h]

theorem Start.ne {s : Bytes} (h : Start s) {d : UInt8}
    (hd : d ∈ [(38 : UInt8), 60, 61, 62, 124]) : s.head?.map UInt8.toNat ≠ some d.toNat := by
  intro heq
  obtain ⟨c, hc, hn⟩ := Option.map_eq_some_iff.1 heq
  rw [UInt8.toNat_inj] at hn
  exact h c hc (hn ▸ hd)

/-- **Each operator of C is in the tables.** -/
theorem exists_findOp (b : BinOp) {s : Bytes} (hs : Start s) :
    ∃ c s' second, b.text ++ s = c :: s' ∧ (isPunct c = true ∧ optab1 c ≠ 0) ∧
      findOp s'.head? (optab2.drop (optab1 c)) = some (second, b.code, b.level) ∧
        (if second = 0 then s' else s'.tail) = s := by
  have hlt := hs.ne (d := 60) (by decide)
  have heq := hs.ne (d := 61) (by decide)
  have hgt := hs.ne (d := 62) (by decide)
  have hand := hs.ne (d := 38) (by decide)
  have hor := hs.ne (d := 124) (by decide)
  cases b with
  | less =>
    exact ⟨60, s, 0, rfl, by decide,
      (findOp_skip (by decide) hlt).trans (findOp_skip (by decide) heq), rfl⟩
  | great =>
    exact ⟨62, s, 0, rfl, by decide,
      (findOp_skip (by decide) hgt).trans (findOp_skip (by decide) heq), rfl⟩
  | band => exact ⟨38, s, 0, rfl, by decide, findOp_skip (by decide) hand, rfl⟩
  | bor => exact ⟨124, s, 0, rfl, by decide, findOp_skip (by decide) hor, rfl⟩
  | mult | div | mod | bplus | bminus | xor => exact ⟨_, s, 0, rfl, by decide, rfl, rfl⟩
  | lshift => exact ⟨60, 60 :: s, 60, rfl, by decide, rfl, rfl⟩
  | rshift => exact ⟨62, 62 :: s, 62, rfl, by decide, rfl, rfl⟩
  | leq => exact ⟨60, 61 :: s, 61, rfl, by decide, rfl, rfl⟩
  | geq => exact ⟨62, 61 :: s, 61, rfl, by decide, rfl, rfl⟩
  | eq => exact ⟨61, 61 :: s, 61, rfl, by decide, rfl, rfl⟩
  | neq => exact ⟨33, 61 :: s, 61, rfl, by decide, rfl, rfl⟩
  | land => exact ⟨38, 38 :: s, 38, rfl, by decide, rfl, rfl⟩
  | lor => exact ⟨124, 124 :: s, 124, rfl, by decide, rfl, rfl⟩

theorem operators_text (b : BinOp) {s : Bytes} (hs : Start s) (n p : ℕ) (e : Expr) :
    parseOperators (n + 1) p e (b.text ++ s) =
      if b.level ≤ p then .ok (e, b.text ++ s, [])
      else parseApplyOp (parseExp n) (parseOperators n p) b.code b.level e s := by
  obtain ⟨c, s', second, htext, hc, hfind, hrest⟩ := exists_findOp b hs
  rw [htext, operators_cons hc hfind, hrest]

theorem ends_text (b : BinOp) {s : Bytes} (hs : Start s) : Ends b.level (b.text ++ s) := by
  intro n p e hp
  obtain ⟨c, s', second, htext, hc, -⟩ := exists_findOp b hs
  have hspace := (token_of_optab1 c hc.1 hc.2).1
  rw [operators_text b hs, if_pos hp, htext,
    dropWhile_cons_of_neg (by rw [hspace]; exact Bool.false_ne_true)]

theorem operators_question (n p : ℕ) (e : Expr) (s : Bytes) :
    parseOperators (n + 1) p e (QUESTION :: s) =
      if 1 ≤ p then .ok (e, QUESTION :: s, [])
      else parseApplyOp (parseExp n) (parseOperators n p) QMARK 1 e s :=
  @operators_cons _ _ 0 _ _ (by decide) rfl n p e

theorem ends_question (s : Bytes) : Ends 1 (QUESTION :: s) := by
  intro n p e hp
  rw [operators_question, if_pos hp]
  rfl

/-! ### Literals -/

/-- The text does not go on with a digit or letter. -/
def NoDigit (s : Bytes) : Prop :=
  ∀ c ∈ s.head?, digitValue c = none

theorem digits_append {base : ℕ} {ds s : Bytes} (hds : AreDigits base ds) (hs : NoDigit s) :
    ∀ value, digits base value (ds ++ s) = (digitsValue base value ds, s, []) := by
  induction ds with
  | nil =>
    intro value
    cases s with
    | nil => rfl
    | cons c s =>
      rw [nil_append, digits, hs c rfl]
      rfl
  | cons d ds ih =>
    intro value
    obtain ⟨⟨x, hlt, hx⟩, hds⟩ := forall_mem_cons.1 hds
    rw [cons_append, digits, hx]
    dsimp only
    rw [if_neg hlt.le.not_gt, if_neg hlt.ne, ih hds, digitsValue, digitsValue, foldl_cons, hx]
    rfl

set_option maxRecDepth 4000 in
theorem isDigit_of_digitValue : ∀ c, ∀ x < 10, digitValue c = some x → isDigit c = true :=
  forall_byte (by decide)

set_option maxRecDepth 4000 in
theorem token_of_isDigit : ∀ c, isDigit c = true →
    Token c ∧ isPunct c = false ∧ c ≠ LPAREN ∧ c ∉ [(38 : UInt8), 60, 61, 62, 124] :=
  forall_byte (by unfold Token; decide)

theorem Literal.number {t s : Bytes} {value : Int32} (h : Literal t value) (hs : NoDigit s) :
    ∃ d t', t = d :: t' ∧ isDigit d = true ∧ Condition.number d (t' ++ s) = .ok (value, s, []) := by
  cases h with
  | @decimal d ds hne hds =>
    obtain ⟨x, hlt, hx⟩ := hds d mem_cons_self
    refine ⟨d, ds, rfl, isDigit_of_digitValue d x hlt hx, ?_⟩
    unfold Condition.number
    rw [if_pos hne, ← cons_append, digits_append hds hs]
  | @octal ds hds =>
    refine ⟨ZERO, ds, rfl, rfl, ?_⟩
    have hdigits := digits_append hds hs 0
    unfold Condition.number
    rw [if_neg (not_not_intro rfl)]
    split
    next hnil =>
      rw [hnil] at hdigits
      exact congrArg Except.ok hdigits
    next d s' hcons =>
      have hd : ¬ (d = 120 ∨ d = 88) := by
        have hvalue : digitValue d = none ∨ ∃ x < 8, digitValue d = some x := by
          cases ds with
          | nil => exact .inl (hs d (by rw [← nil_append s, hcons]; rfl))
          | cons c ds =>
            obtain ⟨rfl, -⟩ := List.cons.inj hcons
            exact .inr (hds c mem_cons_self)
        rintro (rfl | rfl)
        · obtain h | ⟨x, hlt, h⟩ := hvalue
          · cases h
          · cases h
            exact absurd hlt (by decide)
        · obtain h | ⟨x, hlt, h⟩ := hvalue
          · cases h
          · cases h
            exact absurd hlt (by decide)
      rw [if_neg hd, ← hcons]
      exact congrArg Except.ok hdigits
  | @hexadecimal x ds hx hne hds =>
    refine ⟨ZERO, x :: ds, rfl, rfl, ?_⟩
    obtain ⟨d, ds, rfl⟩ := exists_cons_of_ne_nil hne
    obtain ⟨y, hlt, hy⟩ := hds d mem_cons_self
    have hdigit : (((d :: ds ++ s).head?.bind digitValue).any (· < 16)) = true := by
      rw [cons_append, List.head?_cons, Option.bind_some, hy]
      exact decide_eq_true hlt
    unfold Condition.number
    rw [if_neg (not_not_intro rfl), cons_append]
    dsimp only
    rw [if_pos hx, if_pos hdigit, digits_append hds hs]

/-! ### The beginning of an expression -/

theorem UnOp.token (op : UnOp) : Token op.char := by
  cases op <;> exact ⟨rfl, rfl⟩

theorem UnOp.char_ne (op : UnOp) : op.char ≠ LPAREN := by
  cases op <;> decide

theorem UnOp.optab1_ne (op : UnOp) : optab1 op.char ≠ 0 := by
  cases op <;> decide

theorem UnOp.isPunct_char (op : UnOp) : isPunct op.char = true := by
  cases op <;> rfl

theorem UnOp.ofCode_char (op : UnOp) :
    UnOp.ofCode (optab2.getD (optab1 op.char - 1) 0) = some op := by
  cases op <;> rfl

theorem start_append {t : Bytes} (ht : Start t) (hne : t ≠ []) (s : Bytes) :
    Start (t ++ s) := by
  obtain ⟨c, t, rfl⟩ := exists_cons_of_ne_nil hne
  exact ht

set_option maxRecDepth 4000 in
theorem start_of_isSpace : ∀ c, isSpace c = true →
    c ∉ [(38 : UInt8), 60, 61, 62, 124] ∧ digitValue c = none :=
  forall_byte (by decide)

theorem Writes.start {m : ℕ} {t : Bytes} {e : Expr} (h : Writes m t e) :
    t ≠ [] ∧ Start t := by
  induction h with
  | num h =>
    obtain ⟨d, t', rfl, hd, -⟩ := h.number (s := []) nofun
    refine ⟨cons_ne_nil _ _, ?_⟩
    rintro _ ⟨⟩
    exact (token_of_isDigit d hd).2.2.2
  | paren =>
    refine ⟨cons_ne_nil _ _, ?_⟩
    rintro _ ⟨⟩
    decide
  | @un op =>
    refine ⟨cons_ne_nil _ _, ?_⟩
    rintro _ ⟨⟩
    cases op <;> decide
  | bin _ _ ih | cond _ _ _ ih =>
    rw [append_assoc]
    exact ⟨append_ne_nil_of_left_ne_nil ih.1 _, start_append ih.2 ih.1 _⟩
  | up _ ih => exact ih
  | @before _ w _ _ hw _ ih =>
    cases w with
    | nil => exact ih
    | cons c w =>
      refine ⟨cons_ne_nil _ _, ?_⟩
      rintro _ ⟨⟩
      exact (start_of_isSpace c (hw c mem_cons_self)).1
  | behind _ _ ih => exact ⟨append_ne_nil_of_left_ne_nil ih.1 _, start_append ih.2 ih.1 _⟩

theorem noDigit_blank {w s : Bytes} (hw : Blank w) (hs : NoDigit s) : NoDigit (w ++ s) := by
  cases w with
  | nil => exact hs
  | cons c w =>
    rintro _ ⟨⟩
    exact (start_of_isSpace c (hw c mem_cons_self)).2

theorem noDigit_text (b : BinOp) (s : Bytes) : NoDigit (b.text ++ s) := by
  cases b <;> (rintro _ ⟨⟩; rfl)

/-! ### What C writes is read -/

/-- The call goes on with the loop over the operators behind an expression. -/
def GoesOn (n p : ℕ) (e : Expr) (s rest : Bytes) : Prop :=
  ∃ n', parseExp n p s = parseOperators n' p e rest

theorem operators_ends {n k p : ℕ} {e : Expr} {s : Bytes} (h : Ends k s) (hp : k ≤ p)
    (hadmits : Admits (· ≠ .conditional) (parseOperators n p e s)) :
    parseOperators n p e s = .ok (e, s.dropWhile isSpace, []) := by
  cases n with
  | zero => exact absurd hadmits not_admits_error
  | succ n => exact h n p e hp

/-- What is known of the text behind an expression: a stronger operator than `k` is not next. -/
structure Behind (k : ℕ) (rest : Bytes) : Prop where
  ends : Ends k rest
  noDigit : NoDigit rest

/-- What is said of a text that writes an expression: it is read up to the operators behind it,
unless a `?` is noted. Behind an operand of a conditional, another one is read up to its `?`. -/
def Goes (m : ℕ) (t : Bytes) (e : Expr) : Prop :=
  ∀ n k rest, k ≤ m → k ≤ 12 → Behind k rest →
    (∀ p < m, Admits (· ≠ .conditional) (parseExp n p (t ++ rest)) →
      GoesOn n p e (t ++ rest) rest) ∧
    (m = 1 → Admits (· ≠ .conditional) (parseExp n 1 (t ++ rest)) →
      GoesOn n 1 e (t ++ rest) rest ∨ ∃ e' s, GoesOn n 1 e' (t ++ rest) (QUESTION :: s))

theorem Literal.goes {t : Bytes} {value : Int32} (h : Literal t value) :
    Goes 13 t (.num value) := by
  intro n k rest _ _ hrest
  refine ⟨fun p _ hadmits ↦ ?_, nofun⟩
  cases n with
  | zero => exact absurd hadmits not_admits_error
  | succ n =>
    obtain ⟨d, t, rfl, hd, hnumber⟩ := h.number hrest.noDigit
    obtain ⟨htoken, hpunct, hparen, -⟩ := token_of_isDigit d hd
    refine ⟨n, ?_⟩
    rw [parseExp, cons_append, bind_of_ok (skipBlanks_token htoken _), parseOperand,
      if_neg hparen, if_neg (by rw [hpunct]; exact Bool.false_ne_true), if_pos hd,
      bind_of_ok hnumber]

/-- In front of `rest` the call has read an expression, and stops there. -/
theorem GoesOn.ends {n p k : ℕ} {e : Expr} {s rest : Bytes} (h : GoesOn n p e s rest)
    (hends : Ends k rest) (hp : k ≤ p) (hadmits : Admits (· ≠ .conditional) (parseExp n p s)) :
    parseExp n p s = .ok (e, rest.dropWhile isSpace, []) := by
  obtain ⟨n', heq⟩ := h
  rw [heq] at hadmits ⊢
  exact operators_ends hends hp hadmits

theorem Goes.paren {t : Bytes} {e : Expr} (h : Goes 1 t e) :
    Goes 13 (LPAREN :: t ++ [RPAREN]) e := by
  intro n k rest _ _ hrest
  refine ⟨fun p _ hadmits ↦ ?_, nofun⟩
  rw [append_assoc, cons_append, singleton_append] at hadmits ⊢
  cases n with
  | zero => exact absurd hadmits not_admits_error
  | succ n =>
    have hbehind : Behind 0 (RPAREN :: rest) :=
      ⟨ends_cons ⟨rfl, rfl⟩ (by decide) rest, by rintro _ ⟨⟩; rfl⟩
    have hstep : parseExp (n + 1) p (LPAREN :: (t ++ RPAREN :: rest)) = _ :=
      bind_of_ok (skipBlanks_token ⟨rfl, rfl⟩ _) _
    rw [parseOperand, if_pos rfl] at hstep
    rw [hstep] at hadmits
    have hgoes := (h n 0 _ (Nat.zero_le _) (Nat.zero_le _) hbehind).1 0 Nat.zero_lt_one hadmits.left
    have hcond := hgoes.ends hbehind.ends le_rfl hadmits.left
    refine ⟨n, ?_⟩
    rw [hstep, bind_of_ok hcond]
    exact bind_of_ok (skipBlanks_token (c := RPAREN) ⟨rfl, rfl⟩ rest) _

theorem Goes.un {t : Bytes} {e : Expr} (h : Goes 13 t e) (op : UnOp) :
    Goes 13 (op.char :: t) (.un op e) := by
  intro n k rest hk hk' hrest
  refine ⟨fun p _ hadmits ↦ ?_, nofun⟩
  rw [cons_append] at hadmits ⊢
  cases n with
  | zero => exact absurd hadmits not_admits_error
  | succ n =>
    have hstep : parseExp (n + 1) p (op.char :: (t ++ rest)) = _ :=
      bind_of_ok (skipBlanks_token op.token _) _
    rw [parseOperand, if_neg op.char_ne, if_pos op.isPunct_char, if_neg op.optab1_ne] at hstep
    rw [hstep] at hadmits
    have hgoes := (h n k rest hk hk' hrest).1 12 (by decide) hadmits.left
    have hcond := hgoes.ends hrest.ends hk' hadmits.left
    refine ⟨n, ?_⟩
    rw [hstep, bind_of_ok hcond, op.ofCode_char]
    exact operators_dropWhile n p (.un op e) rest

theorem Goes.bin {b : BinOp} {t t' : Bytes} {e e' : Expr} (h : Goes b.level t e)
    (h' : Goes (b.level + 1) t' e') (hstart : t' ≠ [] ∧ Start t') :
    Goes b.level (t ++ b.text ++ t') (.bin b e e') := by
  intro n k rest hk hk' hrest
  refine ⟨fun p hp hadmits ↦ ?_, fun hone ↦ absurd b.two_le_level (by rw [hone]; decide)⟩
  rw [append_assoc, append_assoc] at hadmits ⊢
  have hstart' := start_append hstart.2 hstart.1 rest
  obtain ⟨n₁, heq⟩ := (h n b.level _ le_rfl (b.level_le.trans (by decide))
    ⟨ends_text b hstart', noDigit_text b _⟩).1 p hp hadmits
  rw [heq] at hadmits
  cases n₁ with
  | zero => exact absurd hadmits not_admits_error
  | succ n₁ =>
    rw [operators_text b hstart', if_neg (Nat.not_le.2 hp), parseApplyOp] at hadmits
    have hgoes := (h' n₁ k rest (hk.trans (Nat.le_succ _)) hk' hrest).1 b.level (Nat.lt_succ_self _)
      hadmits.left
    have hcond := hgoes.ends hrest.ends hk hadmits.left
    have hcode : b.code ≠ QMARK := by cases b <;> decide
    refine ⟨n₁, ?_⟩
    rw [heq, operators_text b hstart', if_neg (Nat.not_le.2 hp), parseApplyOp, bind_of_ok hcond,
      if_neg hcode, b.ofCode_code]
    exact operators_dropWhile n₁ p (.bin b e e') rest

/-- There is no note where no other `?` is next. -/
theorem again_of_admits {c : Option UInt8} {s : Bytes}
    (h : Admits (· ≠ .conditional) (again c s)) : again c s = .ok (.unit, s, []) := by
  obtain ⟨_, _, l, heq, hl⟩ := h
  rw [again] at heq ⊢
  split
  next hc =>
    rw [if_pos hc] at heq
    cases heq
    exact absurd rfl (hl _ mem_cons_self)
  next => rfl

/-- An operand of a conditional behind which there is no other `?`. -/
theorem Goes.operand {t : Bytes} {e : Expr} (h : Goes 1 t e) {n k : ℕ} {rest : Bytes}
    (hk : k ≤ 1) (hrest : Behind k rest)
    (hadmits : Admits (· ≠ .conditional) (parseExp n 1 (t ++ rest)))
    (hnext : ∀ e s, parseExp n 1 (t ++ rest) ≠ .ok (e, QUESTION :: s, [])) :
    parseExp n 1 (t ++ rest) = .ok (e, rest.dropWhile isSpace, []) := by
  obtain hgoes | ⟨e', s, hgoes⟩ := (h n k rest hk (hk.trans (by decide)) hrest).2 rfl hadmits
  · exact hgoes.ends hrest.ends hk hadmits
  · exact absurd (hgoes.ends (ends_question s) le_rfl hadmits) (hnext e' s)

theorem Goes.cond {t t₁ t₂ : Bytes} {e e₁ e₂ : Expr} (h : Goes 2 t e) (h₁ : Goes 1 t₁ e₁)
    (h₂ : Goes 1 t₂ e₂) : Goes 1 (t ++ QUESTION :: t₁ ++ COLON :: t₂) (.cond e e₁ e₂) := by
  intro n k rest hk hk' hrest
  have hbehind : Behind 1 (QUESTION :: (t₁ ++ COLON :: (t₂ ++ rest))) :=
    ⟨ends_question _, by rintro _ ⟨⟩; rfl⟩
  have hcolon : Behind 0 (COLON :: (t₂ ++ rest)) :=
    ⟨ends_cons ⟨rfl, rfl⟩ (by decide) _, by rintro _ ⟨⟩; rfl⟩
  simp only [append_assoc, cons_append]
  refine ⟨fun p hp hadmits ↦ ?_, fun _ hadmits ↦ ?_⟩
  · obtain ⟨n₁, heq⟩ := (h n 1 _ (by decide) (by decide) hbehind).1 p (hp.trans (by decide)) hadmits
    rw [heq] at hadmits
    cases n₁ with
    | zero => exact absurd hadmits not_admits_error
    | succ n₁ =>
      rw [operators_question, if_neg (Nat.not_le.2 hp), parseApplyOp] at hadmits
      -- the operand behind the `?`
      have hcond₁ := h₁.operand (Nat.zero_le _) hcolon hadmits.left fun e' s hq ↦ by
        have hright := (hadmits.right hq).2
        rw [if_pos rfl] at hright
        have hright := (hright.right (skipBlanks_token (c := QUESTION) ⟨rfl, rfl⟩ s)).2
        rw [if_neg (by decide)] at hright
        cases again_of_admits hright.left
      have hright := (hadmits.right hcond₁).2
      rw [if_pos rfl] at hright
      have hskip := skipBlanks_token (c := COLON) ⟨rfl, rfl⟩ (t₂ ++ rest)
      have hright := (hright.right hskip).2
      rw [if_pos rfl] at hright
      -- the operand behind the `:`
      have hcond₂ := h₂.operand hk hrest hright.left fun e' s hq ↦ by
        have hright := ((hright.right hq).2.right (peek_apply _)).2
        cases again_of_admits hright.left
      have hright := ((hright.right hcond₂).2.right (peek_apply _)).2
      have hagain := again_of_admits hright.left
      refine ⟨n₁, ?_⟩
      rw [heq, operators_question, if_neg (Nat.not_le.2 hp), parseApplyOp, bind_of_ok hcond₁,
        if_pos rfl]
      refine (bind_of_ok hskip _).trans ?_
      rw [if_pos rfl, bind_of_ok hcond₂, bind_of_ok (peek_apply _), bind_of_ok hagain]
      exact operators_dropWhile n₁ p _ rest
  · exact .inr ⟨e, _, (h n 1 _ (by decide) (by decide) hbehind).1 1 (by decide) hadmits⟩

/-- **An expression of C is read.** -/
theorem Writes.goes {m : ℕ} {t : Bytes} {e : Expr} (h : Writes m t e) : Goes m t e := by
  induction h with
  | num h => exact h.goes
  | paren _ ih => exact ih.paren
  | @un op _ _ _ ih => exact ih.un op
  | bin _ ht' ih ih' => exact ih.bin ih' ht'.start
  | cond _ _ _ ih ih₁ ih₂ => exact ih.cond ih₁ ih₂
  | up _ ih =>
    intro n k rest hk hk' hrest
    have hih := ih n k rest (hk.trans (Nat.le_succ _)) hk' hrest
    refine ⟨fun p hp hadmits ↦ hih.1 p (hp.trans (Nat.lt_succ_self _)) hadmits, ?_⟩
    rintro rfl hadmits
    exact .inl (hih.1 1 (by decide) hadmits)
  | @before _ w _ _ hw _ ih =>
    intro n k rest hk hk' hrest
    have hih := ih n k rest hk hk' hrest
    simp only [GoesOn, append_assoc, parseExp_blank hw] at hih ⊢
    exact hih
  | @behind _ w _ _ _ hw ih =>
    intro n k rest hk hk' hrest
    have hih := ih n k (w ++ rest) hk hk' ⟨hrest.ends.blank hw, noDigit_blank hw hrest.noDigit⟩
    simp only [GoesOn, append_assoc, operators_blank hw] at hih ⊢
    exact hih

/-! ### The condition is evaluated as in C -/

/-- What is asked of a condition: the value that C gives, without an error, and an error if C gives
none. -/
structure Evaluated (text : Bytes) : Prop where
  value : ∀ e v, Writes 1 text e → e.value = some v →
    ∃ log, evaluate text = .ok (v, log) ∧ ∀ msg, .error msg ∉ log
  error : (∀ e v, Writes 1 text e → e.value ≠ some v) →
    ∃ v log, evaluate text = .ok (v, log) ∧ ∃ msg, .error msg ∈ log

/-- There is no identifier, and no `?` directly behind an operand of another conditional. -/
structure Plain (text : Bytes) : Prop where
  noIdentifier : parse text ≠ .error .identifier
  noConditional : ∀ e log, parse text = .ok (e, log) → .conditional ∉ log

/-- No division traps in what is read. And each digit is smaller than its base, and there are digits
behind each `0x`, or the text is erroneous anyway. -/
structure Regular (text : Bytes) : Prop where
  noTrap : ∀ e log, parse text = .ok (e, log) → e.all ≠ none
  digits : ∀ e log, parse text = .ok (e, log) →
    (∃ msg, .error msg ∈ log) ∨ .digit ∉ log ∧ .noDigits ∉ log

theorem parse_eq_ok {text : Bytes} {e : Expr} {log : List Note}
    (h : parse text = .ok (e, log)) :
    ∃ s l, parseExp (text.length + 1) 0 text = .ok (e, s, l) ∧
      log = if s = [] then l else l ++ [.error "Condition too complex in #if"] := by
  rw [parse] at h
  cases hexp : parseExp (text.length + 1) 0 text with
  | error c =>
    rw [hexp] at h
    cases h
  | ok r =>
    rw [hexp] at h
    cases h
    exact ⟨r.2.1, r.2.2, rfl, rfl⟩

theorem writes_of_parse {text : Bytes} {e : Expr} (h : parse text = .ok (e, [])) :
    Writes 1 text e := by
  obtain ⟨s, l, hexp, hl⟩ := parse_eq_ok h
  split at hl
  next hs =>
    subst hs hl
    obtain ⟨⟨t, rfl, ht⟩, -, -⟩ := (reads_parseExp _).1 0 (Nat.zero_le _) _ _ _ hexp
    rwa [append_nil]
  next => exact absurd hl.symm (append_ne_nil_of_right_ne_nil l (cons_ne_nil _ _))

theorem Writes.parse_eq {text : Bytes} {e : Expr} (h : Writes 1 text e) (hplain : Plain text) :
    parse text = .ok (e, []) := by
  obtain ⟨e', log, heq⟩ := parse_returns hplain.noIdentifier
  have hlog := hplain.noConditional e' log heq
  obtain ⟨s, l, hexp, rfl⟩ := parse_eq_ok heq
  have hadmits : Admits (· ≠ .conditional) (parseExp (text.length + 1) 0 (text ++ [])) := by
    refine ⟨e', s, l, by rw [append_nil]; exact hexp, fun note hnote hne ↦ hlog ?_⟩
    subst hne
    split
    · exact hnote
    · exact mem_append_left _ hnote
  have hgoes := (h.goes _ 0 [] (Nat.zero_le _) (Nat.zero_le _) ⟨ends_nil, nofun⟩).1 0
    Nat.zero_lt_one hadmits
  have hexp' := hgoes.ends ends_nil le_rfl hadmits
  rw [append_nil] at hexp'
  rw [parse, hexp']
  rfl

theorem Evaluated.returns {text : Bytes} (h : Evaluated text) :
    ∃ v log, evaluate text = .ok (v, log) := by
  by_cases hex : ∃ e v, Writes 1 text e ∧ e.value = some v
  · obtain ⟨e, v, he, hv⟩ := hex
    obtain ⟨log, heq, -⟩ := h.value e v he hv
    exact ⟨v, log, heq⟩
  · obtain ⟨v, log, heq, -⟩ := h.error fun e v he hv ↦ hex ⟨e, v, he, hv⟩
    exact ⟨v, log, heq⟩

theorem Evaluated.noTrap {text : Bytes} (h : Evaluated text) {e : Expr} {log : List Note}
    (heq : parse text = .ok (e, log)) : e.all ≠ none := by
  intro hnone
  obtain ⟨v, log', hvalue⟩ := h.returns
  rw [evaluate_of_parse heq, hnone] at hvalue
  cases hvalue

theorem error_of_notes {log : List Note} (hne : log ≠ []) (hconditional : .conditional ∉ log)
    (h : (∃ msg, .error msg ∈ log) ∨ .digit ∉ log ∧ .noDigits ∉ log) :
    ∃ msg, Note.error msg ∈ log := by
  obtain h | ⟨hdigit, hno⟩ := h
  · exact h
  obtain ⟨note, log, rfl⟩ := exists_cons_of_ne_nil hne
  cases note with
  | error msg => exact ⟨msg, mem_cons_self⟩
  | digit => exact absurd mem_cons_self hdigit
  | noDigits => exact absurd mem_cons_self hno
  | conditional => exact absurd mem_cons_self hconditional

/-- **The condition of `#if` is evaluated as in C** if and only if no division traps, and a digit
that is too large or missing does not pass. -/
theorem evaluated_iff {text : Bytes} (h : Plain text) : Evaluated text ↔ Regular text := by
  obtain ⟨e, log, hparse⟩ := parse_returns h.noIdentifier
  have hconditional := h.noConditional e log hparse
  have hunique {e' : Expr} (he : Writes 1 text e') : e' = e ∧ log = [] := by
    cases hparse.symm.trans (he.parse_eq h)
    exact ⟨rfl, rfl⟩
  constructor
  · refine fun hevaluated ↦ ⟨fun e' log' heq ↦ hevaluated.noTrap heq, fun e' log' heq ↦ ?_⟩
    cases hparse.symm.trans heq
    by_cases hlog : log = []
    · exact .inr (by rw [hlog]; exact ⟨not_mem_nil, not_mem_nil⟩)
    -- the text is not written in C, so an error is asked for
    obtain ⟨v, log', hvalue, herror⟩ := hevaluated.error fun e' v he _ ↦ hlog (hunique he).2
    rw [evaluate_of_parse hparse] at hvalue
    cases hall : e.all with
    | none =>
      rw [hall] at hvalue
      cases hvalue
    | some v' =>
      rw [hall] at hvalue
      cases hvalue
      exact .inl herror
  · intro hregular
    obtain ⟨v, hv⟩ := Option.ne_none_iff_exists'.1 (hregular.noTrap e log hparse)
    have hvalue : evaluate text = .ok (v, log) := by
      rw [evaluate_of_parse hparse, hv]
      rfl
    constructor
    · intro e' v' he hv'
      obtain ⟨rfl, rfl⟩ := hunique he
      obtain rfl := Option.some.inj ((e'.value_of_all hv).symm.trans hv')
      exact ⟨[], hvalue, fun _ ↦ not_mem_nil⟩
    · intro hnone
      refine ⟨v, log, hvalue, ?_⟩
      by_cases hlog : log = []
      · subst hlog
        exact absurd (e.value_of_all hv) (hnone e v (writes_of_parse hparse))
      · exact error_of_notes hlog hconditional (hregular.digits e log hparse)

/-- `1 + 2 * (3 - 4)` is evaluated as in C, and `08`, which C does not have, is not. -/
theorem evaluated_iff_sum : Evaluated [49, 43, 50, 42, 40, 51, 45, 52, 41] ∧
    ¬ Evaluated [48, 56] := by
  have hsum : parse [49, 43, 50, 42, 40, 51, 45, 52, 41] = .ok (.bin .bplus (.num 1)
      (.bin .mult (.num 2) (.bin .bminus (.num 3) (.num 4))), []) := rfl
  have height : parse [48, 56] = .ok (.num 8, [.digit]) := rfl
  constructor
  · refine (evaluated_iff ⟨?_, fun e log h ↦ ?_⟩).2 ⟨fun e log h ↦ ?_, fun e log h ↦ .inr ?_⟩
    · rw [hsum]
      exact nofun
    all_goals cases hsum.symm.trans h
    · exact not_mem_nil
    · exact Option.some_ne_none (-1)
    · exact ⟨not_mem_nil, not_mem_nil⟩
  · refine fun h ↦ ?_
    have hregular := (evaluated_iff ⟨by rw [height]; exact nofun, fun e log heq ↦ by
      cases height.symm.trans heq
      decide⟩).1 h
    obtain ⟨msg, hmsg⟩ | ⟨hdigit, -⟩ := hregular.digits _ _ height
    · cases hmsg with
      | tail _ hmsg => cases hmsg
    · exact hdigit mem_cons_self

theorem writes_digit {d : UInt8} {x : ℕ} (hne : d ≠ ZERO) (hd : digitValue d = some x)
    (hx : x < 10) : Writes 2 [d] (.num (digitsValue 10 0 [d])) := by
  refine (Writes.num (.decimal hne fun c hc ↦ ?_)).of_le (by decide)
  rw [mem_singleton] at hc
  subst hc
  exact ⟨x, hx, hd⟩

/-- `1/0` traps, and `1?0:1?2:3` is 3. -/
theorem not_evaluated : ¬ Evaluated [49, 47, 48] ∧
    ¬ Evaluated [49, 63, 48, 58, 49, 63, 50, 58, 51] := by
  refine ⟨fun h ↦ ?_, fun h ↦ ?_⟩
  · obtain ⟨v, log, heq⟩ := h.returns
    cases heq
  · have h0 : Writes 1 [48] (.num 0) := (Writes.num (@Literal.octal [] nofun)).of_le (by decide)
    have h1 := writes_digit (d := 49) (x := 1) (by decide) rfl (by decide)
    have h2 := (writes_digit (d := 50) (x := 2) (by decide) rfl (by decide)).up
    have h3 := (writes_digit (d := 51) (x := 3) (by decide) rfl (by decide)).up
    obtain ⟨log, heq, -⟩ := h.value _ 0 (.cond h1 h0 (.cond h1 h2 h3)) rfl
    cases heq

end Lpmud.Lex.Condition
