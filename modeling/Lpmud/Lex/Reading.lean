import Lpmud.Lex.Parse

/-!
# What is read is an expression of C

What is read without an error, and without a note, is written as C writes the expression that it is
read as (`reads_parseExp`): the loop over the operators goes on from an expression in front of it to
a longer one (`ReadsOn`).
-/

namespace Lpmud.Lex.Condition

open List Scanner

/-! ### What is read without an error is written as in C -/

/-- The level of the operator that is next. -/
def nextLevel : Bytes → ℕ
  | [] => 0
  | c :: s =>
    if isPunct c = true ∧ optab1 c ≠ 0 then
      ((findOp s.head? (optab2.drop (optab1 c))).map fun r ↦ r.2.2).getD 0
    else 0

/-- Between `s` and `s'` the expression `e` is written, at a level above `p`. What comes then is no
blank, and no operator above `p`. -/
structure Reads (p : ℕ) (s : Bytes) (e : Expr) (s' : Bytes) : Prop where
  text : ∃ t, s = t ++ s' ∧ Writes (p + 1) t e
  next : nextLevel s' ≤ p
  blank : s'.dropWhile isSpace = s'

theorem Writes.of_le {m m' : ℕ} {t : Bytes} {e : Expr} (h : Writes m t e) (hle : m' ≤ m) :
    Writes m' t e := by
  induction hle with
  | refl => exact h
  | step _ ih => exact ih (.up h)

theorem unOp_cases {c : UInt8} {op : UnOp} (hc : optab1 c ≠ 0)
    (h : UnOp.ofCode (optab2.getD (optab1 c - 1) 0) = some op) : c = op.char := by
  have hmem := mem_of_optab1_ne c hc
  simp only [mem_cons, not_mem_nil, or_false] at hmem
  obtain rfl | rfl | rfl | rfl | rfl | rfl | rfl | rfl | rfl | rfl | rfl | rfl | rfl | rfl :=
    hmem <;> cases h <;> rfl

theorem digits_nil {base : ℕ} {s s' : Bytes} :
    ∀ {value v : Int32}, digits base value s = (v, s', []) →
      ∃ ds, s = ds ++ s' ∧ AreDigits base ds ∧ v = digitsValue base value ds := by
  induction s with
  | nil =>
    intro value v h
    cases h
    exact ⟨[], rfl, nofun, rfl⟩
  | cons c s ih =>
    intro value v h
    rw [digits] at h
    split at h
    next =>
      cases h
      exact ⟨[], rfl, nofun, rfl⟩
    next x hx =>
      split at h
      next =>
        cases h
        exact ⟨[], rfl, nofun, rfl⟩
      next hle =>
        dsimp only at h
        split at h
        next => cases h
        next hne =>
          obtain ⟨ds, rfl, hds, rfl⟩ := ih h
          have hlt : x < base := lt_of_le_of_ne (Nat.not_lt.1 hle) hne
          refine ⟨c :: ds, rfl, forall_mem_cons.2 ⟨⟨x, hlt, hx⟩, hds⟩, ?_⟩
          rw [digitsValue, digitsValue, foldl_cons, hx]
          rfl

theorem number_nil {c : UInt8} (hc : isDigit c = true) {s s' : Bytes} {v : Int32}
    (h : number c s = .ok (v, s', [])) : ∃ t, c :: s = t ++ s' ∧ Literal t v := by
  unfold number at h
  split at h
  next hne =>
    obtain ⟨ds, heq, hds, rfl⟩ := digits_nil (Except.ok.inj h)
    cases ds with
    | nil =>
      -- the digit `c` itself is read
      have := length_digits_cons (digitValue_of_isDigit hc) (digitValue_lt_of_isDigit c hc) s 0
      rw [Except.ok.inj h] at this
      obtain rfl : c :: s = s' := heq
      exact absurd this (Nat.not_succ_le_self _)
    | cons d ds =>
      obtain ⟨rfl, rfl⟩ := List.cons.inj heq
      exact ⟨c :: ds, rfl, .decimal hne hds⟩
  next hzero =>
    rw [not_ne_iff] at hzero
    subst hzero
    split at h
    next =>
      cases h
      exact ⟨[ZERO], rfl, .octal (by rintro _ ⟨⟩)⟩
    next d s =>
      split at h
      next hd =>
        split at h
        next hdigit =>
          obtain ⟨ds, rfl, hds, rfl⟩ := digits_nil (Except.ok.inj h)
          refine ⟨ZERO :: d :: ds, rfl, .hexadecimal hd ?_ hds⟩
          rintro rfl
          rw [nil_append] at h hdigit
          obtain ⟨x, hx, hlt⟩ := (Option.any_eq_true _ _).1 hdigit
          obtain ⟨c, hc, hx⟩ := Option.bind_eq_some_iff.1 hx
          obtain ⟨s, rfl⟩ := List.head?_eq_some_iff.1 hc
          have := length_digits_cons hx (of_decide_eq_true hlt) s 0
          rw [Except.ok.inj h] at this
          exact absurd this (Nat.not_succ_le_self _)
        next => cases h
      next =>
        obtain ⟨ds, heq, hds, rfl⟩ := digits_nil (Except.ok.inj h)
        exact ⟨ZERO :: ds, congrArg (ZERO :: ·) heq, .octal hds⟩

theorem nextLevel_cons {c : UInt8} {s : Bytes} {second op priority : ℕ}
    (hc : isPunct c = true ∧ optab1 c ≠ 0)
    (h : findOp s.head? (optab2.drop (optab1 c)) = some (second, op, priority)) :
    nextLevel (c :: s) = priority := by
  rw [nextLevel, if_pos hc, h]
  rfl

theorem BinOp.level_le (b : BinOp) : b.level ≤ 11 := by
  cases b <;> decide

theorem BinOp.two_le_level (b : BinOp) : 2 ≤ b.level := by
  cases b <;> decide

theorem nextLevel_le (s : Bytes) : nextLevel s ≤ 11 := by
  cases s with
  | nil => exact Nat.zero_le _
  | cons c s =>
    rw [nextLevel]
    split
    next hc =>
      cases h : findOp s.head? (optab2.drop (optab1 c)) with
      | none => exact Nat.zero_le _
      | some r =>
        obtain ⟨-, hlevel, -⟩ | ⟨b, -, hlevel, -⟩ := findOp_cases hc.2 h
        · exact hlevel.trans_le (by decide)
        · exact hlevel.trans_le b.level_le
    next => exact Nat.zero_le _

/-- What may follow an expression that is read up to here: a `?` not behind another conditional. -/
structure Fits (m : ℕ) (s : Bytes) : Prop where
  le : nextLevel s ≤ m
  two_le : nextLevel s = 1 → 2 ≤ m

/-- What the loop over the operators makes of an expression in front of it. -/
def ReadsOn (p : ℕ) (loop : Expr → TreeReader) : Prop :=
  ∀ m t e s e' s', Writes m t e → Fits m (s.dropWhile isSpace) → p < m →
    loop e s = .ok (e', s', []) → Reads p (t ++ s) e' s'

theorem ReadsOn.literal {p : ℕ} {loop : Expr → TreeReader} (hloop : ReadsOn p loop) (hp : p ≤ 12)
    {t : Bytes} {e e' : Expr} {s s' : Bytes} (ht : Writes 13 t e)
    (h : loop e s = .ok (e', s', [])) : Reads p (t ++ s) e' s' := by
  refine hloop 13 t e s e' s' ht ⟨(nextLevel_le _).trans (by decide), fun _ ↦ by decide⟩ ?_ h
  exact Nat.lt_succ_of_le hp

theorem head_of_nextLevel {s : Bytes} (h : nextLevel s = 1) : s.head? = some QUESTION := by
  cases s with
  | nil => cases h
  | cons c s =>
    rw [nextLevel] at h
    split at h
    next hc =>
      cases hop : findOp s.head? (optab2.drop (optab1 c)) with
      | none =>
        rw [hop] at h
        cases h
      | some r =>
        rw [hop] at h
        obtain ⟨-, -, rfl, -⟩ | ⟨b, -, hlevel, -⟩ := findOp_cases hc.2 hop
        · rfl
        · have hlevel : 1 = b.level := h.symm.trans hlevel
          exact absurd b.two_le_level (by rw [← hlevel]; decide)
    next => cases h

theorem again_nil {c : Option UInt8} {s s' : Bytes} {u : PUnit}
    (h : again c s = .ok (u, s', [])) : c ≠ some QUESTION ∧ s = s' := by
  rw [again] at h
  split at h
  next => cases h
  next hne =>
    cases h
    exact ⟨hne, rfl⟩

theorem lexerror_ne_nil {msg : String} {f : PUnit → TreeReader} {s s' : Bytes} {e : Expr} :
    (lexerror msg >>= f) s ≠ .ok (e, s', []) := by
  rw [Ne, bind_eq_ok_nil]
  rintro ⟨_, _, ⟨⟩, -⟩

section

variable {p : ℕ} {cond : ℕ → TreeReader} {loop : Expr → TreeReader}
  (hcond : ∀ q ≤ 12, ∀ s e s', cond q s = .ok (e, s', []) → Reads q s e s')
  (hloop : ReadsOn p loop)
include hcond hloop

theorem reads_operand (hp : p ≤ 12) {c : UInt8} {s s' : Bytes} {e : Expr}
    (h : parseOperand cond loop (some c) s = .ok (e, s', [])) : Reads p (c :: s) e s' := by
  rw [parseOperand] at h
  split at h
  next hc =>
    subst hc
    rw [bind_eq_ok_nil] at h
    obtain ⟨e₁, s₁, h₁, h⟩ := h
    rw [bind_eq_ok_nil] at h
    obtain ⟨d, s₂, h₂, h⟩ := h
    obtain ⟨⟨t, rfl, ht⟩, -, hblank⟩ := hcond 0 (Nat.zero_le _) s e₁ s₁ h₁
    obtain ⟨-, hdrop, -⟩ := skipBlanks_eq_ok h₂
    split at h
    next =>
      exact absurd h lexerror_ne_nil
    next hd =>
      rw [hblank, not_ne_iff.1 hd] at hdrop
      subst hdrop
      have := hloop.literal hp (.paren ht) h
      rwa [append_assoc] at this
  split at h
  · split at h
    next =>
      exact absurd h lexerror_ne_nil
    next hc =>
      rw [bind_eq_ok_nil] at h
      obtain ⟨e₁, s₁, h₁, h⟩ := h
      obtain ⟨⟨t, rfl, ht⟩, -, -⟩ := hcond 12 le_rfl s e₁ s₁ h₁
      cases hunary : UnOp.ofCode (optab2.getD (optab1 c - 1) 0) with
      | some op =>
        simp only [hunary] at h
        obtain rfl := unOp_cases hc hunary
        exact hloop.literal hp (.un ht) h
      | none =>
        simp only [hunary] at h
        exact absurd h lexerror_ne_nil
  split at h
  next hc =>
    rw [bind_eq_ok_nil] at h
    obtain ⟨v, s₁, h₁, h⟩ := h
    obtain ⟨t, heq, ht⟩ := number_nil hc h₁
    rw [heq]
    exact hloop.literal hp (.num ht) h
  next =>
    exact absurd h lexerror_ne_nil

theorem reads_applyOp {b : BinOp} (hp : p < b.level) {t : Bytes} {e e' : Expr}
    {s s' : Bytes} (ht : Writes b.level t e)
    (h : parseApplyOp cond loop b.code b.level e s = .ok (e', s', [])) :
    Reads p (t ++ b.text ++ s) e' s' := by
  rw [parseApplyOp, bind_eq_ok_nil] at h
  obtain ⟨e₁, s₁, h₁, h⟩ := h
  obtain ⟨⟨t₁, rfl, ht₁⟩, hnext, hblank⟩ :=
    hcond b.level (b.level_le.trans (by decide)) s e₁ s₁ h₁
  rw [if_neg (by cases b <;> decide), b.ofCode_code] at h
  have := hloop b.level _ _ s₁ e' s' (.bin ht ht₁)
    (hblank.symm ▸ ⟨hnext, fun _ ↦ b.two_le_level⟩) hp h
  rwa [append_assoc] at this

theorem reads_conditional (hp : p < 1) {t : Bytes} {e e' : Expr} {s s' : Bytes}
    (ht : Writes 2 t e) (h : parseApplyOp cond loop QMARK 1 e s = .ok (e', s', [])) :
    Reads p (t ++ QUESTION :: s) e' s' := by
  rw [parseApplyOp, bind_eq_ok_nil] at h
  obtain ⟨e₁, s₁, h₁, h⟩ := h
  obtain ⟨⟨t₁, rfl, ht₁⟩, -, hblank₁⟩ := hcond 1 (by decide) s e₁ s₁ h₁
  rw [if_pos rfl] at h
  rw [bind_eq_ok_nil] at h
  obtain ⟨c, s₂, h₂, h⟩ := h
  obtain ⟨-, hdrop, -⟩ := skipBlanks_eq_ok h₂
  split at h
  next hc =>
    rw [hblank₁, hc] at hdrop
    subst hdrop
    rw [bind_eq_ok_nil] at h
    obtain ⟨e₂, s₃, h₃, h⟩ := h
    obtain ⟨⟨t₂, rfl, ht₂⟩, hnext, hblank⟩ := hcond 1 (by decide) s₂ e₂ s₃ h₃
    rw [bind_eq_ok_nil] at h
    obtain ⟨_, _, hpeek, h⟩ := h
    cases hpeek
    rw [bind_eq_ok_nil] at h
    obtain ⟨_, _, hagain, h⟩ := h
    obtain ⟨hne, rfl⟩ := again_nil hagain
    have hzero : nextLevel s₃ ≠ 1 := fun hone ↦ hne (head_of_nextLevel hone)
    have := hloop 1 _ _ s₃ e' s' (.cond ht ht₁.up ht₂.up)
      (hblank.symm ▸ ⟨hnext, fun hone ↦ absurd hone hzero⟩) hp h
    rwa [append_assoc, append_assoc] at this
  next =>
    rw [bind_eq_ok_nil] at h
    obtain ⟨_, _, -, h⟩ := h
    exact absurd h lexerror_ne_nil

theorem reads_operator {m : ℕ} (hpm : p < m) {t : Bytes} {e e' : Expr} {c : UInt8}
    {s s' : Bytes} (ht : Writes m t e) (hfits : Fits m (c :: s)) (hc : isSpace c = false)
    (h : parseOperator cond loop p e (some c) s = .ok (e', s', [])) :
    Reads p (t ++ c :: s) e' s' := by
  have hstop (hle : nextLevel (c :: s) ≤ p) : Reads p (t ++ c :: s) e (c :: s) :=
    ⟨⟨t, rfl, ht.of_le hpm⟩, hle,
      dropWhile_cons_of_neg (by rw [hc]; exact Bool.false_ne_true)⟩
  rw [parseOperator] at h
  split at h
  next hop =>
    rw [bind_eq_ok_nil] at h
    obtain ⟨_, _, hnext, h⟩ := h
    cases hnext
    cases hfind : findOp s.head? (optab2.drop (optab1 c)) with
    | none =>
      simp only [hfind] at h
      rw [bind_eq_ok_nil] at h
      obtain ⟨_, _, -, h⟩ := h
      exact absurd h lexerror_ne_nil
    | some r =>
      obtain ⟨second, op, priority⟩ := r
      simp only [hfind] at h
      have hlevel := nextLevel_cons hop hfind
      split at h
      next hle =>
        cases h
        show Reads p (t ++ c :: s) e (c :: (s.head?.toList ++ s.tail))
        rw [show s.head?.toList ++ s.tail = s by cases s <;> rfl]
        exact hstop (hlevel.trans_le hle)
      next hlt =>
        rw [bind_eq_ok_nil] at h
        obtain ⟨_, s₁, hput, h⟩ := h
        have hs₁ : s₁ = if second = 0 then s else s.tail := by
          cases hput
          split
          · cases s <;> rfl
          · rfl
        obtain ⟨rfl, rfl, rfl, rfl⟩ | ⟨b, rfl, rfl, htext⟩ := findOp_cases hop.2 hfind
        · rw [if_pos rfl] at hs₁
          subst hs₁
          exact reads_conditional hcond hloop (Nat.not_le.1 hlt) (ht.of_le (hfits.two_le hlevel)) h
        · rw [htext, ← hs₁, ← append_assoc]
          exact reads_applyOp hcond hloop (Nat.not_le.1 hlt) (ht.of_le (hlevel ▸ hfits.le)) h
  next hop =>
    cases h
    exact hstop (by rw [nextLevel, if_neg hop]; exact Nat.zero_le p)

end

/-- **What is read without an error, and without a note, is an expression of C.** -/
theorem reads_parseExp (n : ℕ) :
    (∀ p ≤ 12, ∀ s e s', parseExp n p s = .ok (e, s', []) → Reads p s e s') ∧
      ∀ p ≤ 12, ReadsOn p (parseOperators n p) := by
  induction n with
  | zero => exact ⟨fun _ _ _ _ _ ↦ nofun, fun _ _ _ _ _ _ _ _ _ _ _ ↦ nofun⟩
  | succ n ih =>
    obtain ⟨hcond, hoperators⟩ := ih
    refine ⟨fun p hp s e s' h ↦ ?_, fun p hp m t e s e' s' ht hfits hpm h ↦ ?_⟩
    · rw [parseExp, bind_eq_ok_nil] at h
      obtain ⟨c, s₁, hskip, h⟩ := h
      obtain ⟨-, hdrop, -, -⟩ := skipBlanks_eq_ok hskip
      obtain ⟨w, hw, hs⟩ := exists_blank s
      cases c with
      | none =>
        rw [parseOperand] at h
        exact absurd h lexerror_ne_nil
      | some c =>
        obtain ⟨⟨t, htext, ht⟩, hnext, hblank⟩ := reads_operand hcond (hoperators p hp) hp h
        refine ⟨⟨w ++ t, ?_, .before hw ht⟩, hnext, hblank⟩
        rw [hs, hdrop, append_assoc]
        exact congrArg (w ++ ·) htext
    · rw [parseOperators, bind_eq_ok_nil] at h
      obtain ⟨c, s₁, hskip, h⟩ := h
      obtain ⟨-, hdrop, hnone, hspace⟩ := skipBlanks_eq_ok hskip
      obtain ⟨w, hw, hs⟩ := exists_blank s
      cases c with
      | none =>
        cases h
        obtain rfl := hnone rfl
        rw [hdrop, Option.toList_none, append_nil, append_nil] at hs
        subst hs
        exact ⟨⟨t ++ s, (append_nil _).symm, .behind (ht.of_le hpm) hw⟩, Nat.zero_le p, rfl⟩
      | some c =>
        rw [hdrop] at hfits
        rw [hs, hdrop, ← append_assoc]
        exact reads_operator hcond (hoperators p hp) hpm (.behind ht hw) hfits (hspace c rfl) h

end Lpmud.Lex.Condition
