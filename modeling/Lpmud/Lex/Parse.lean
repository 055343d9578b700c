import Lpmud.Lex.Expression
import Mathlib.Algebra.Order.Group.Nat

/-!
# What the condition of `#if` is read as

What `cond_get_exp` reads does not depend on the values. So there is an expression for what it
computes, whatever the text is (`parse`): a part whose value is thrown away behind an error is in it
too, since it has been evaluated (`dropped`).

A text is read to the end of an expression, unless there is an identifier (`parse_returns`). Then
`cond_get_exp` gives the value of the expression, with all its operands evaluated, or it traps
(`evaluate_of_parse`); in no case does it go on for ever (`evaluate_ne_fuel`).
-/

namespace Lpmud.Lex.Condition

open Scanner

/-! ### The reader of expressions -/

abbrev TreeReader :=
  Scanner Crash Note UInt8 Expr

/-- An expression that is evaluated, and counts as 0. -/
def dropped (e : Expr) : Expr :=
  .cond e (.num 0) (.num 0)

def UnOp.ofCode : ℕ → Option UnOp
  | BNOT => some bnot
  | LNOT => some lnot
  | UMINUS => some uminus
  | UPLUS => some uplus
  | _ => none

/-- The operator of a code, `||` if it is not one of the others. -/
def BinOp.ofCode (op : ℕ) : BinOp :=
  ([mult, div, mod, bplus, bminus, lshift, rshift, less, leq, great, geq, eq, neq, band, xor, bor,
    land].find? fun b ↦ b.code = op).getD lor

/-- `operand`, with expressions for values. -/
def parseOperand (cond : ℕ → TreeReader) (loop : Expr → TreeReader) : Option UInt8 → TreeReader
  | none => do
    lexerror "missing expression in #if"
    pure (.num 0)
  | some c =>
    if c = LPAREN then do
      let e ← cond 0
      let c ← skipBlanks
      if c ≠ some RPAREN then lexerror "bracket not paired in #if"
      loop e
    else if isPunct c then
      if optab1 c = 0 then do
        lexerror "illegal character in #if"
        pure (.num 0)
      else do
        let e ← cond 12
        match UnOp.ofCode (optab2.getD (optab1 c - 1) 0) with
        | some op => loop (.un op e)
        | none => do
          lexerror "illegal unary operator in #if"
          pure (dropped e)
    else if isDigit c then do
      let value ← number c
      loop (.num value)
    else do
      lexerror "illegal character in #if"
      pure (.num 0)

/-- `applyOp`, with expressions for values. -/
def parseApplyOp (cond : ℕ → TreeReader) (loop : Expr → TreeReader) (op priority : ℕ) (e : Expr) :
    TreeReader := do
  let e₁ ← cond priority
  if op = QMARK then do
    let c ← skipBlanks
    if c = some COLON then do
      let e₂ ← cond 1
      again (← peek)
      loop (.cond e e₁ e₂)
    else do
      again c
      lexerror "'?' without ':' in #if"
      putBack c
      pure (dropped (.cond e e₁ e₁))
  else
    loop (.bin (.ofCode op) e e₁)

/-- `operator`, with expressions for values. -/
def parseOperator (cond : ℕ → TreeReader) (loop : Expr → TreeReader) (priority : ℕ) (e : Expr) :
    Option UInt8 → TreeReader
  | none => pure e
  | some c =>
    if isPunct c = true ∧ optab1 c ≠ 0 then do
      let value2 ← next
      match findOp value2 (optab2.drop (optab1 c)) with
      | none => do
        putBack value2
        lexerror "illegal operator use in #if"
        pure (dropped e)
      | some (second, op, opPriority) =>
        if opPriority ≤ priority then do
          putBack value2
          putBack (some c)
          pure e
        else do
          putBack (if second = 0 then value2 else none)
          parseApplyOp cond loop op opPriority e
    else do
      putBack (some c)
      pure e

mutual

/-- `condGetExp`, with expressions for values. -/
def parseExp : (fuel priority : ℕ) → TreeReader
  | 0, _ => crash .fuel
  | n + 1, priority => skipBlanks >>= parseOperand (parseExp n) (parseOperators n priority)

/-- `operators`, with expressions for values. -/
def parseOperators : (fuel priority : ℕ) → (e : Expr) → TreeReader
  | 0, _, _ => crash .fuel
  | n + 1, priority, e =>
    skipBlanks >>= parseOperator (parseExp n) (parseOperators n priority) priority e

end

/-- What the text behind `#if` is read as. -/
def parse (text : Bytes) : Except Crash (Expr × List Note) :=
  (parseExp (text.length + 1) 0 text).map fun r ↦
    (r.1, if r.2.1 = [] then r.2.2 else r.2.2 ++ [.error "Condition too complex in #if"])

/-! ### Blanks and characters -/

set_option maxRecDepth 4000 in
theorem skipBlanks_eq_ok {s s' : Bytes} {c : Option UInt8} {l : List Note}
    (h : skipBlanks s = .ok (c, s', l)) :
    l = [] ∧ s.dropWhile isSpace = c.toList ++ s' ∧ (c = none → s' = []) ∧
      ∀ d ∈ c, isSpace d = false := by
  induction s with
  | nil =>
    cases h
    exact ⟨rfl, rfl, fun _ ↦ rfl, nofun⟩
  | cons d s ih =>
    rw [skipBlanks] at h
    split at h
    next hd =>
      rw [List.dropWhile_cons_of_pos hd]
      exact ih h
    next hd =>
      rw [exgetc] at h
      split at h
      · cases h
      · cases h
        refine ⟨rfl, List.dropWhile_cons_of_neg hd, nofun, ?_⟩
        rintro _ ⟨⟩
        exact Bool.eq_false_iff.2 hd

attribute [local simp] digits in
theorem length_digits (base : ℕ) (s : Bytes) :
    ∀ value, (digits base value s).2.1.length ≤ s.length := by
  induction s with
  | nil => exact fun _ ↦ le_rfl
  | cons c s ih =>
    intro value
    rw [digits]
    split
    · exact le_rfl
    split
    · exact le_rfl
    dsimp only
    split <;> exact (ih _).trans (Nat.le_succ _)

theorem length_digits_cons {base x : ℕ} {c : UInt8} (hx : digitValue c = some x) (hlt : x < base)
    (s : Bytes) (value : Int32) : (digits base value (c :: s)).2.1.length ≤ s.length := by
  rw [digits, hx]
  dsimp only
  rw [if_neg hlt.le.not_gt, if_neg hlt.ne]
  exact length_digits base s _

theorem digitValue_of_isDigit {c : UInt8} (hc : isDigit c = true) :
    digitValue c = some (c.toNat - 48) :=
  if_pos hc

set_option maxRecDepth 4000 in
theorem digitValue_lt_of_isDigit : ∀ c, isDigit c = true → c.toNat - 48 < 10 :=
  forall_byte (by decide)

/-! ### The tables -/

set_option maxRecDepth 4000 in
theorem mem_of_optab1_ne : ∀ c, optab1 c ≠ 0 →
    c ∈ [33, 37, 38, 42, 43, 45, 47, 60, 61, 62, 63, 94, 124, 126] :=
  forall_byte (by decide)

theorem eq_cons_of_head {s : Bytes} {n : ℕ} (d : UInt8) (hd : d.toNat = n)
    (h : s.head?.map UInt8.toNat = some n) : s = d :: s.tail := by
  obtain ⟨c, hc, hn⟩ := Option.map_eq_some_iff.1 h
  obtain ⟨s, rfl⟩ := List.head?_eq_some_iff.1 hc
  rw [UInt8.toNat_inj.1 (hn.trans hd.symm)]
  rfl

theorem findOp_any {v : Option UInt8} {op op' priority priority' second : ℕ} {rows : List ℕ}
    (h : findOp v (0 :: op :: priority :: rows) = some (second, op', priority')) :
    op' = op ∧ priority' = priority ∧ second = 0 := by
  rw [findOp, if_pos rfl] at h
  split at h
  · cases h
  · cases h
    exact ⟨rfl, rfl, rfl⟩

theorem findOp_second {v : Option UInt8} {n op op' priority priority' second : ℕ} {rows : List ℕ}
    (hn : n ≠ 0) (h : findOp v (n :: op :: priority :: rows) = some (second, op', priority')) :
    (v.map UInt8.toNat = some n ∧ op' = op ∧ priority' = priority ∧ second = n) ∨
      findOp v rows = some (second, op', priority') := by
  rw [findOp, if_neg hn] at h
  split at h
  next hv =>
    cases h
    exact .inl ⟨hv, rfl, rfl, rfl⟩
  · exact .inr h

/-- **The tables have C's operators**, and the `?`. -/
theorem findOp_cases {c : UInt8} {s : Bytes} {second op priority : ℕ} (hc : optab1 c ≠ 0)
    (h : findOp s.head? (optab2.drop (optab1 c)) = some (second, op, priority)) :
    (op = QMARK ∧ priority = 1 ∧ c = QUESTION ∧ second = 0) ∨
      ∃ b : BinOp, op = b.code ∧ priority = b.level ∧
        c :: s = b.text ++ if second = 0 then s else s.tail := by
  have hany {b : BinOp} {rows : List ℕ} (hb : b.text = [c])
      (h : findOp s.head? (0 :: b.code :: b.level :: rows) = some (second, op, priority)) :
      ∃ b : BinOp, op = b.code ∧ priority = b.level ∧
        c :: s = b.text ++ if second = 0 then s else s.tail := by
    obtain ⟨rfl, rfl, rfl⟩ := findOp_any h
    exact ⟨b, rfl, rfl, by rw [hb]; rfl⟩
  have hsecond {b : BinOp} {rows : List ℕ} (d : UInt8) (hd : d.toNat ≠ 0) (hb : b.text = [c, d])
      (h : findOp s.head? (d.toNat :: b.code :: b.level :: rows) = some (second, op, priority)) :
      (∃ b : BinOp, op = b.code ∧ priority = b.level ∧
        c :: s = b.text ++ if second = 0 then s else s.tail) ∨
        findOp s.head? rows = some (second, op, priority) := by
    obtain ⟨hs, rfl, rfl, rfl⟩ | h := findOp_second hd h
    · refine .inl ⟨b, rfl, rfl, ?_⟩
      rw [hb, if_neg hd]
      exact congrArg (c :: ·) (eq_cons_of_head d rfl hs)
    · exact .inr h
  have hmem := mem_of_optab1_ne c hc
  simp only [List.mem_cons, List.not_mem_nil, or_false] at hmem
  obtain rfl | rfl | rfl | rfl | rfl | rfl | rfl | rfl | rfl | rfl | rfl | rfl | rfl | rfl := hmem
  · exact .inr ((hsecond (b := .neq) 61 (by decide) rfl h).resolve_right nofun)
  · exact .inr (hany (b := .mod) rfl h)
  · exact .inr ((hsecond (b := .land) 38 (by decide) rfl h).elim id (hany (b := .band) rfl))
  · exact .inr (hany (b := .mult) rfl h)
  · exact .inr (hany (b := .bplus) rfl h)
  · exact .inr (hany (b := .bminus) rfl h)
  · exact .inr (hany (b := .div) rfl h)
  · exact .inr ((hsecond (b := .lshift) 60 (by decide) rfl h).elim id fun h ↦
      (hsecond (b := .leq) 61 (by decide) rfl h).elim id (hany (b := .less) rfl))
  · exact .inr ((hsecond (b := .eq) 61 (by decide) rfl h).resolve_right nofun)
  · exact .inr ((hsecond (b := .rshift) 62 (by decide) rfl h).elim id fun h ↦
      (hsecond (b := .geq) 61 (by decide) rfl h).elim id (hany (b := .great) rfl))
  · obtain ⟨rfl, rfl, rfl⟩ := findOp_any h
    exact .inl ⟨rfl, rfl, rfl, rfl⟩
  · exact .inr (hany (b := .xor) rfl h)
  · exact .inr ((hsecond (b := .lor) 124 (by decide) rfl h).elim id (hany (b := .bor) rfl))
  · cases h

/-! ### Values of what is read -/

/-- What the reader of expressions ends with, and `cond_get_exp`: it computes the value, or it has
trapped. -/
def Follows (r : Except Crash (Int32 × Bytes × List Note)) :
    Except Crash (Expr × Bytes × List Note) → Prop
  | .ok (e, s, l) => r = e.all.elim (.error .trap) fun v ↦ .ok (v, s, l)
  | .error c => r = .error c ∨ r = .error .trap

section

variable {α γ : Type} {s : Bytes}

/-- What is done with a value, if nothing has trapped before. -/
def lift (f : α → Reader Int32) (o : Option α) : Reader Int32 :=
  o.elim (crash .trap) f

theorem Follows.after {r : Except Crash (Int32 × Bytes × List Note)}
    {r' : Except Crash (Expr × Bytes × List Note)} (h : Follows r r') (l : List Note) :
    Follows (r.map fun q ↦ (q.1, q.2.1, l ++ q.2.2)) (r'.map fun q ↦ (q.1, q.2.1, l ++ q.2.2)) := by
  cases r' with
  | error c => exact h.imp (fun h ↦ by rw [h]; rfl) fun h ↦ by rw [h]; rfl
  | ok q =>
    obtain ⟨e, s', l'⟩ := q
    change r = _ at h
    rw [h]
    change _ = e.all.elim _ _
    cases e.all <;> rfl

/-- **A part that both readers read alike.** -/
theorem follows_lift {x : Scanner Crash Note UInt8 γ} {g : α → γ → Reader Int32}
    {g' : γ → TreeReader} {o : Option α} (h : ∀ a s, Follows (lift (g · a) o s) (g' a s)) :
    Follows (lift (fun v ↦ x >>= g v) o s) ((x >>= g') s) := by
  rw [bind_apply]
  cases o with
  | none =>
    cases hx : x s with
    | error c => exact .inr rfl
    | ok r => exact (h r.1 r.2.1).after r.2.2
  | some v =>
    change Follows ((x >>= g v) s) _
    rw [bind_apply]
    cases hx : x s with
    | error c => exact .inl rfl
    | ok r => exact (h r.1 r.2.1).after r.2.2

/-- The values of two operands. -/
def both (o : Option α) (o' : Option γ) : Option (α × γ) :=
  o.bind fun v ↦ o'.map fun v' ↦ (v, v')

/-- **An operand**, which is read behind others. -/
theorem Follows.lift {x : Reader Int32} {x' : TreeReader} (hx : Follows (x s) (x' s))
    {g : α → Int32 → Reader Int32} {g' : Expr → TreeReader} {o : Option α}
    (h : ∀ e s, Follows (Condition.lift (fun p ↦ g p.1 p.2) (both o e.all) s) (g' e s)) :
    Follows (Condition.lift (fun v ↦ x >>= g v) o s) ((x' >>= g') s) := by
  rw [bind_apply (x := x')]
  cases hx' : x' s with
  | error c =>
    rw [hx'] at hx
    cases o with
    | none => exact .inr rfl
    | some v =>
      change Follows ((x >>= g v) s) _
      rw [bind_apply]
      exact hx.imp (fun h ↦ by rw [h]; rfl) fun h ↦ by rw [h]; rfl
  | ok r =>
    obtain ⟨e, s', l⟩ := r
    rw [hx'] at hx
    change x s = _ at hx
    have hrest := (h e s').after l
    cases o with
    | none => exact hrest
    | some v =>
      change Follows ((x >>= g v) s) _
      rw [bind_apply, hx]
      cases hv : e.all with
      | none =>
        rw [hv] at hrest
        exact hrest
      | some v' =>
        rw [hv] at hrest
        exact hrest

end

theorem UnOp.unary_ofCode (v : Int32) :
    ∀ op, unary op v = (UnOp.ofCode op).map fun o ↦ o.value v
  | 0 | 1 | 2 | 3 | 4 | _ + 5 => rfl

theorem BinOp.ofCode_code (b : BinOp) : BinOp.ofCode b.code = b := by
  cases b <;> rfl

theorem trap_of_binary {b : BinOp} {v v' : Int32} {c : Crash} (h : binary b.code v v' = .error c) :
    c = .trap := by
  cases b with
  | div | mod =>
    simp only [BinOp.code, binary] at h
    split at h
    · cases h
      rfl
    · cases h
  | _ => cases h

theorem follows_pure (e : Expr) (s : Bytes) :
    Follows (lift pure e.all s) ((pure e : TreeReader) s) := by
  change _ = e.all.elim _ _
  cases e.all <;> rfl

theorem follows_dropped (e : Expr) (s : Bytes) :
    Follows (lift (fun _ ↦ pure 0) e.all s) ((pure (dropped e) : TreeReader) s) := by
  change _ = (dropped e).all.elim _ _
  rw [dropped, Expr.all]
  cases e.all with
  | none => rfl
  | some v =>
    change Except.ok (0, s, _) = Except.ok (if v ≠ 0 then 0 else 0, s, _)
    rw [ite_self]

section

variable {cond : ℕ → Reader Int32} {loop : Int32 → Reader Int32} {cond' : ℕ → TreeReader}
  {loop' : Expr → TreeReader} (hcond : ∀ p s, Follows (cond p s) (cond' p s))
  (hloop : ∀ e s, Follows (lift loop e.all s) (loop' e s))
include hcond hloop

theorem follows_operand (c : Option UInt8) (s : Bytes) :
    Follows (operand cond loop c s) (parseOperand cond' loop' c s) := by
  -- an operand behind which nothing has been read
  have hfirst {x : Reader Int32} {x' : TreeReader} {g : Int32 → Reader Int32}
      {g' : Expr → TreeReader} (hx : Follows (x s) (x' s))
      (h : ∀ e s, Follows (lift g e.all s) (g' e s)) :
      Follows ((x >>= g) s) ((x' >>= g') s) := by
    refine hx.lift (o := some ()) (g := fun _ ↦ g) fun e s ↦ ?_
    have hboth := h e s
    cases hv : e.all <;> rw [hv] at hboth <;> exact hboth
  cases c with
  | none => rfl
  | some c =>
    rw [operand, parseOperand]
    by_cases hparen : c = LPAREN
    · rw [if_pos hparen, if_pos hparen]
      refine hfirst (hcond 0 s) fun e s ↦ follows_lift fun d s ↦ ?_
      by_cases hd : d ≠ some RPAREN
      · simp only [if_pos hd]
        exact follows_lift fun _ s ↦ hloop e s
      · simp only [if_neg hd]
        exact hloop e s
    rw [if_neg hparen, if_neg hparen]
    by_cases hpunct : isPunct c = true
    · rw [if_pos hpunct, if_pos hpunct]
      by_cases hop : optab1 c = 0
      · rw [if_pos hop, if_pos hop]
        rfl
      rw [if_neg hop, if_neg hop]
      refine hfirst (hcond 12 s) fun e s ↦ ?_
      simp only [UnOp.unary_ofCode]
      cases UnOp.ofCode (optab2.getD (optab1 c - 1) 0) with
      | none => exact follows_lift fun _ s ↦ follows_dropped e s
      | some op =>
        have hrest := hloop (.un op e) s
        rw [Expr.all] at hrest
        cases hv : e.all <;> rw [hv] at hrest <;> exact hrest
    rw [if_neg hpunct, if_neg hpunct]
    by_cases hdigit : isDigit c = true
    · rw [if_pos hdigit, if_pos hdigit]
      exact follows_lift (o := some ()) (g := fun _ v ↦ loop v) fun v s ↦ hloop (.num v) s
    · rw [if_neg hdigit, if_neg hdigit]
      rfl

theorem follows_applyOp {op : ℕ} (hop : op = QMARK ∨ ∃ b : BinOp, op = b.code) (priority : ℕ)
    (e : Expr) (s : Bytes) :
    Follows (lift (applyOp cond loop op priority) e.all s)
      (parseApplyOp cond' loop' op priority e s) := by
  refine (hcond priority s).lift fun e₁ s ↦ ?_
  obtain rfl | ⟨b, rfl⟩ := hop
  · simp only [if_pos]
    refine follows_lift fun c s ↦ ?_
    by_cases hc : c = some COLON
    · simp only [if_pos hc]
      refine (hcond 1 s).lift fun e₂ s ↦ follows_lift fun d s ↦ follows_lift fun _ s ↦ ?_
      have hrest := hloop (.cond e e₁ e₂) s
      rw [Expr.all] at hrest
      cases hv : e.all <;> cases hv₁ : e₁.all <;> cases hv₂ : e₂.all <;>
        rw [hv, hv₁, hv₂] at hrest <;> exact hrest
    · simp only [if_neg hc]
      refine follows_lift fun _ s ↦ follows_lift fun _ s ↦ follows_lift fun _ s ↦ ?_
      have hrest := follows_dropped (.cond e e₁ e₁) s
      rw [Expr.all] at hrest
      cases hv : e.all <;> cases hv₁ : e₁.all <;> rw [hv, hv₁] at hrest <;> exact hrest
  · have hcode : b.code ≠ QMARK := by cases b <;> decide
    simp only [if_neg hcode, BinOp.ofCode_code]
    have hrest := hloop (.bin b e e₁) s
    rw [Expr.all] at hrest
    cases hv : e.all with
    | none =>
      rw [hv] at hrest
      exact hrest
    | some v =>
      cases hv₁ : e₁.all with
      | none =>
        rw [hv, hv₁] at hrest
        exact hrest
      | some v₁ =>
        rw [hv, hv₁] at hrest
        change Follows ((compute (binary b.code v v₁) >>= loop) s) _
        cases hb : binary b.code v v₁ with
        | error c =>
          obtain rfl := trap_of_binary hb
          rw [Option.bind_some, Option.bind_some, hb] at hrest
          exact hrest
        | ok x =>
          rw [Option.bind_some, Option.bind_some, hb] at hrest
          rw [bind_of_ok (x := compute (.ok x)) rfl]
          exact hrest

theorem follows_operator (priority : ℕ) (e : Expr) (c : Option UInt8) (s : Bytes) :
    Follows (lift (operator cond loop priority · c) e.all s)
      (parseOperator cond' loop' priority e c s) := by
  cases c with
  | none => exact follows_pure e s
  | some c =>
    simp only [operator, parseOperator]
    by_cases hc : isPunct c = true ∧ optab1 c ≠ 0
    · simp only [if_pos hc]
      refine follows_lift fun value2 s ↦ ?_
      cases hfind : findOp value2 (optab2.drop (optab1 c)) with
      | none => exact follows_lift fun _ s ↦ follows_lift fun _ s ↦ follows_dropped e s
      | some r =>
        obtain ⟨second, op, opPriority⟩ := r
        have hop : op = QMARK ∨ ∃ b : BinOp, op = b.code := by
          have hcases := findOp_cases (s := value2.toList) hc.2 (by cases value2 <;> exact hfind)
          exact hcases.imp And.left (Exists.imp fun _ ↦ And.left)
        dsimp only
        by_cases hle : opPriority ≤ priority
        · simp only [if_pos hle]
          exact follows_lift fun _ s ↦ follows_lift fun _ s ↦ follows_pure e s
        · simp only [if_neg hle]
          exact follows_lift fun _ s ↦ follows_applyOp hcond hloop hop opPriority e s
    · simp only [if_neg hc]
      exact follows_lift fun _ s ↦ follows_pure e s

end

/-- **`cond_get_exp` computes the value of what is read**, by induction on the steps. -/
theorem follows_condGetExp (n : ℕ) :
    (∀ p s, Follows (condGetExp n p s) (parseExp n p s)) ∧
      ∀ p e s, Follows (lift (operators n p) e.all s) (parseOperators n p e s) := by
  induction n with
  | zero =>
    refine ⟨fun p s ↦ .inl rfl, fun p e s ↦ ?_⟩
    cases e.all with
    | none => exact .inr rfl
    | some v => exact .inl rfl
  | succ n ih =>
    refine ⟨fun p s ↦ ?_, fun p e s ↦ ?_⟩
    · exact follows_lift (o := some ()) (g := fun _ ↦ operand (condGetExp n) (operators n p))
        fun c s ↦ follows_operand ih.1 (ih.2 p) c s
    · exact follows_lift fun c s ↦ follows_operator ih.1 (ih.2 p) p e c s

theorem evaluate_of_parse {text : Bytes} {e : Expr} {log : List Note}
    (h : parse text = .ok (e, log)) :
    evaluate text = e.all.elim (.error .trap) fun v ↦ .ok (v, log) := by
  have hfollows := (follows_condGetExp (text.length + 1)).1 0 text
  rw [parse] at h
  cases hexp : parseExp (text.length + 1) 0 text with
  | error c =>
    rw [hexp] at h
    cases h
  | ok r =>
    obtain ⟨e', s, l⟩ := r
    rw [hexp] at h hfollows
    cases h
    change condGetExp _ _ _ = _ at hfollows
    rw [evaluate, hfollows]
    cases e'.all <;> rfl

/-! ### How far is read -/

section

variable {c : Crash} {k : ℕ}

theorem within_same {γ : Type} {x : Scanner Crash Note UInt8 γ}
    (h : ∀ s, ∃ a s' l, x s = .ok (a, s', l) ∧ s'.length ≤ s.length) :
    Within c k x fun _ ↦ k := by
  intro s hs
  obtain ⟨a, s', l, heq, hle⟩ := h s
  rw [heq]
  refine ⟨nofun, fun _ _ _ h ↦ ?_⟩
  cases h
  exact hle.trans_lt hs

theorem within_skipBlanks (hc : c ≠ .identifier) :
    Within c k skipBlanks fun d ↦ k - d.toList.length := by
  intro s hs
  constructor
  · induction s with
    | nil => exact nofun
    | cons d s ih =>
      rw [skipBlanks]
      split
      · exact ih ((Nat.lt_succ_self _).trans hs)
      · rw [exgetc]
        split
        · exact fun h ↦ hc (Except.error.inj h).symm
        · exact nofun
  · intro d s' l h
    obtain ⟨-, hdrop, -, -⟩ := skipBlanks_eq_ok h
    have hle := s.length_dropWhile_le isSpace
    rw [hdrop, List.length_append] at hle
    change s'.length < k - d.toList.length
    omega

theorem within_number {d : UInt8} (hd : isDigit d = true) :
    Within c k (number d) fun _ ↦ k := by
  refine within_same fun s ↦ ?_
  unfold number
  split
  · exact ⟨_, _, _, rfl, length_digits_cons (digitValue_of_isDigit hd)
      (digitValue_lt_of_isDigit d hd) s 0⟩
  split
  · exact ⟨_, _, _, rfl, le_rfl⟩
  next d s =>
    split
    · split <;> exact ⟨_, _, _, rfl, (length_digits 16 s 0).trans (Nat.le_succ _)⟩
    · exact ⟨_, _, _, rfl, length_digits 8 (d :: s) 0⟩

variable {cond : ℕ → TreeReader} {loop : Expr → TreeReader} (hc : c ≠ .identifier)
  (hcond : ∀ p, Within c k (cond p) fun _ ↦ k) (hloop : ∀ e, Within c k (loop e) fun _ ↦ k)
include hc hcond hloop

theorem within_operand (d : UInt8) : Within c k (parseOperand cond loop (some d)) fun _ ↦ k := by
  have hblanks : Within c k skipBlanks fun _ ↦ k :=
    (within_skipBlanks hc).mono le_rfl fun _ ↦ Nat.sub_le _ _
  rw [parseOperand]
  split
  · refine (hcond 0).bind fun e ↦ hblanks.bind fun d ↦ ?_
    split
    · exact within_note.bind fun _ ↦ hloop e
    · exact hloop e
  split
  · split
    · exact within_note.bind fun _ ↦ within_pure le_rfl
    refine (hcond 12).bind fun e ↦ ?_
    split
    · exact hloop _
    · exact within_note.bind fun _ ↦ within_pure le_rfl
  split
  next hd => exact (within_number hd).bind fun v ↦ hloop _
  · exact within_note.bind fun _ ↦ within_pure le_rfl

theorem within_applyOp (hk : 0 < k) (op priority : ℕ) (e : Expr) :
    Within c k (parseApplyOp cond loop op priority e) fun _ ↦ k := by
  have hagain (d : Option UInt8) {j : ℕ} : Within c j (again d) fun _ ↦ j :=
    within_same fun s ↦ ⟨_, _, _, rfl, le_rfl⟩
  refine (hcond priority).bind fun e₁ ↦ ?_
  split
  · refine (within_skipBlanks hc).bind fun d ↦ ?_
    have hle : k - d.toList.length ≤ k := Nat.sub_le _ _
    split
    · refine ((hcond 1).mono hle fun _ ↦ le_rfl).bind fun e₂ ↦ ?_
      exact within_peek.bind fun d ↦ (hagain d).bind fun _ ↦ hloop _
    · have hback : k - d.toList.length + d.toList.length ≤ k := by
        cases d with
        | none => exact le_rfl
        | some d => exact (Nat.sub_add_cancel hk).le
      exact (hagain d).bind fun _ ↦ within_note.bind fun _ ↦ within_putBack.bind fun _ ↦
        within_pure hback
  · exact hloop _

theorem within_operator (hk : 0 < k) (priority : ℕ) (e : Expr) (d : UInt8) :
    Within c k (parseOperator cond loop priority e (some d)) fun _ ↦ k + 1 := by
  rw [parseOperator]
  split
  · refine within_next.bind fun value2 ↦ ?_
    have hback : k - value2.toList.length + value2.toList.length ≤ k := by
      cases value2 with
      | none => exact le_rfl
      | some d => exact (Nat.sub_add_cancel hk).le
    have hle : k - value2.toList.length ≤ k := Nat.sub_le _ _
    split
    · exact within_putBack.bind fun _ ↦ within_note.bind fun _ ↦
        within_pure (hback.trans (Nat.le_succ k))
    next second op opPriority hfind =>
      split
      · exact within_putBack.bind fun _ ↦ within_putBack.bind fun _ ↦
          within_pure (Nat.add_le_add_right hback 1)
      · have hputs : Within c (k - value2.toList.length)
            (putBack (if second = 0 then value2 else none) : Reader PUnit) fun _ ↦ k := by
          split
          · exact within_putBack.mono le_rfl fun _ ↦ hback
          · exact within_putBack.mono le_rfl fun _ ↦ hle
        exact hputs.bind fun _ ↦ (within_applyOp hc hcond hloop hk op opPriority e).mono le_rfl
          fun _ ↦ Nat.le_succ k
  · exact within_putBack.bind fun _ ↦ within_pure le_rfl

end

/-- **As many steps as characters are enough**, by induction on the steps: each call reads one. -/
theorem within_parse {c : Crash} (hc : c ≠ .identifier) (n : ℕ) :
    (∀ p, Within c n (parseExp n p) fun _ ↦ n) ∧
      ∀ p e, Within c n (parseOperators n p e) fun _ ↦ n := by
  induction n with
  | zero => exact ⟨fun _ ↦ within_zero, fun _ _ ↦ within_zero⟩
  | succ n ih =>
    refine ⟨fun p ↦ (within_skipBlanks hc).bind fun d ↦ ?_,
      fun p e ↦ (within_skipBlanks hc).bind fun d ↦ ?_⟩
    · cases d with
      | none => exact within_note.bind fun _ ↦ within_pure le_rfl
      | some d => exact (within_operand hc ih.1 (ih.2 p) d).mono le_rfl fun _ ↦ Nat.le_succ n
    · cases d with
      | none => exact within_pure le_rfl
      | some d =>
        obtain rfl | hn := Nat.eq_zero_or_pos n
        · exact within_zero
        · exact within_operator hc ih.1 (ih.2 p) hn p e d

theorem parse_ne {c : Crash} (hc : c ≠ .identifier) (text : Bytes) :
    parse text ≠ .error c := by
  have hne := ((within_parse hc (text.length + 1)).1 0 text (Nat.lt_succ_self _)).1
  rw [parse]
  intro h
  cases hexp : parseExp (text.length + 1) 0 text with
  | error c' =>
    rw [hexp] at h hne
    exact hne (congrArg Except.error (Except.error.inj h))
  | ok r =>
    rw [hexp] at h
    cases h

/-- **Every text is read**, unless there is an identifier. -/
theorem parse_returns {text : Bytes} (h : parse text ≠ .error .identifier) :
    ∃ e log, parse text = .ok (e, log) := by
  cases hparse : parse text with
  | error c =>
    by_cases hc : c = .identifier
    · exact absurd (hc ▸ hparse) h
    · exact absurd hparse (parse_ne hc text)
  | ok r => exact ⟨r.1, r.2, rfl⟩

/-- **`cond_get_exp` does not go on for ever.** -/
theorem evaluate_ne_fuel (text : Bytes) : evaluate text ≠ .error .fuel := by
  have hne := parse_ne (c := .fuel) nofun text
  have hfollows := (follows_condGetExp (text.length + 1)).1 0 text
  rw [parse] at hne
  rw [evaluate]
  cases hexp : parseExp (text.length + 1) 0 text with
  | error c =>
    rw [hexp] at hne hfollows
    obtain h | h := hfollows <;> rw [h]
    · exact fun heq ↦ hne (congrArg Except.error (Except.error.inj heq))
    · exact nofun
  | ok r =>
    obtain ⟨e, s, l⟩ := r
    rw [hexp] at hfollows
    change condGetExp _ _ _ = _ at hfollows
    rw [hfollows]
    cases e.all <;> exact nofun

end Lpmud.Lex.Condition
