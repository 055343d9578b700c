import Lpmud.Lex.Substitute

/-!
# Macro definition and expansion are faithful and bounded

Whether `handle_define` and `expand_define` report an error or put the text of the macro with its
arguments in the place of the call, and write to their tables and buffers only (`Faithful`).

What they put there is right, but three of their writes are not checked, or too late: the one at a
comma between the arguments (and behind the last one), the one of a doubled marker to the expansion,
and the one of a doubled marker to the text of the macro, behind a parameter of one letter, which
takes two. `faithful_iff` says when there is room for them, and `not_faithful` is a call with 26
arguments.
-/

namespace Lpmud.Lex.Macro

open List Checked

/-! ### The text is the right one -/

/-- What is known of a macro that is defined: how its text is stored. -/
inductive Stored (yyt : Bytes) (lines : List Line) : Defn → Prop
  | object {name line : Bytes} :
      Written none line yyt → Stored yyt lines ⟨name, none, (pieces lines line).flatten⟩
  | function {name line : Bytes} {params : List Bytes} :
      Written (some params) line yyt → params.length ≤ NARGS →
        Stored yyt lines
          ⟨name, some params.length, (pieces lines line).flatMap (encodeLine params)⟩

theorem returns_endBody (q : Bytes) (c : UInt8) :
    (endBody ⟨q ++ [c], []⟩).Returns (· = q) :=
  (returns_write (q := fun _ ↦ True) trivial).bind fun _ _ ↦ returns_pure dropLast_concat

theorem IsName.getLast_ne {name : Bytes} (h : IsName name) :
    name.getLast?.getD SPACE ≠ BACKSLASH := by
  cases hlast : name.getLast? with
  | none => exact (by decide : SPACE ≠ BACKSLASH)
  | some c =>
    rintro rfl
    exact Bool.false_ne_true (h BACKSLASH (mem_of_getLast? hlast))

theorem returns_handleDefine {before : UInt8} (hbefore : before ≠ BACKSLASH) (yyt : Bytes)
    (lines : List Line) : (handleDefine before yyt lines).Returns (Stored yyt lines) := by
  refine (returns_getAlpha yyt []).bind ?_
  rintro ⟨name, p⟩ ⟨_, rfl, rfl, hname, hp⟩
  dsimp only
  split
  next h =>
    obtain ⟨p, rfl⟩ := List.head?_eq_some_iff.1 h
    refine (returns_parameters p).bind ?_
    rintro ⟨params, line⟩ ⟨hparams, hlist⟩
    refine (returns_textOf (encodes_bodyChar params) hbefore lines RPAREN line []
      (by decide)).bind ?_
    rintro _ rfl
    refine (returns_endBody _ SPACE).bind ?_
    rintro _ rfl
    exact returns_pure (.function (.function hname hlist) hparams)
  next h =>
    refine (returns_textOf encodes_plainChar hbefore lines _ p [] hname.getLast_ne).bind ?_
    rintro _ rfl
    refine (returns_endBody _ SPACE).bind ?_
    rintro _ rfl
    rw [nil_append, flatMap_id]
    refine returns_pure (.object (.object hname fun c hc ↦ ⟨hp c hc, ?_⟩))
    rintro rfl
    exact h hc

theorem returns_addInput (nbuf : ℕ) (p : Bytes) : (addInput nbuf p).Returns (· = p) := by
  rw [addInput]
  split
  · exact returns_fail
  · exact returns_pure rfl

theorem returns_expandDefine {yyt : Bytes} {lines : List Line} {d : Defn}
    (h : Stored yyt lines d) (nexpands nbuf : ℕ) (input : Bytes) :
    (expandDefine nexpands nbuf d input).Returns fun r ↦
      Expanded yyt lines input r.1 r.2 := by
  rw [expandDefine]
  split
  · exact returns_fail
  cases h with
  | object hwritten =>
    refine (returns_addInput nbuf _).bind ?_
    rintro _ rfl
    exact returns_pure (.object hwritten)
  | @function _ _ params hwritten hparams =>
    refine (returns_arguments input).bind ?_
    rintro ⟨args, rest⟩ hcalled
    dsimp only
    split
    next hlength =>
      refine (returns_expand hparams hlength _ []).bind ?_
      rintro _ rfl
      refine (returns_write (q := fun _ ↦ True) trivial).bind fun _ _ ↦
        (returns_addInput nbuf _).bind ?_
      rintro _ rfl
      exact returns_pure (.function hwritten hcalled hlength)
    next => exact returns_fail

/-! ### The definition is inside of its buffers -/

theorem safe_getAlpha (p : Bytes) :
    ∀ q : Bytes, q.length < NSIZE → (getAlpha q p).Safe := by
  induction p with
  | nil => exact fun q hq ↦ safe_write_bind.2 ⟨hq, safe_pure⟩
  | cons c p ih =>
    intro q hq
    rw [getAlpha]
    split
    · refine safe_write_bind.2 ⟨hq, ?_⟩
      split
      next h =>
        refine ih _ ?_
        rw [length_append, length_singleton]
        omega
      next => exact safe_fail
    · exact safe_write_bind.2 ⟨hq, safe_pure⟩

theorem safe_paramLoop (k : ℕ) :
    ∀ args p, args.length + k = NARGS → (paramLoop k args p).Safe := by
  induction k with
  | zero => exact fun _ _ _ ↦ safe_pure
  | succ k ih =>
    intro args p hk
    rw [paramLoop]
    refine safe_write_bind.2 ⟨by omega, safe_bind.2 ⟨safe_getAlpha p [] (by decide), ?_⟩⟩
    rintro ⟨name, p'⟩ -
    dsimp only
    split
    · exact safe_fail
    split
    · exact safe_pure
    split
    · refine ih _ _ ?_
      rw [length_append, length_singleton]
      omega
    · exact safe_fail

theorem safe_parameters (p : Bytes) : (parameters p).Safe := by
  rw [parameters]
  dsimp only
  split
  · exact safe_pure
  refine safe_bind.2 ⟨safe_paramLoop NARGS [] _ rfl, fun _ _ ↦ ?_⟩
  split
  · exact safe_fail
  · exact safe_pure

/-- Room for what the loop over the text of a macro comes to: not a marker behind a parameter of one
letter with which the text is as long as it can be. -/
def BodyRoom (params : List Bytes) (s : Body) : Meets → Prop
  | .char c => ¬ (c = MARKS ∧ s.q.length = MLEN - 2 ∧ s.ids.length = 1 ∧ s.ids ∈ params)
  | _ => True

/-- How long the text is at the end of a step of the loop. -/
def InBody (s : Body) : Prop :=
  s.q.length ≤ MLEN - 2

theorem Body.back_le (s : Body) : s.back.q.length ≤ s.q.length :=
  length_take_le' _ _

theorem yields_bodyStep {step : Body → UInt8 → Checked Body}
    (hstep : ∀ s c, (step s c).Yields InBody) {s : Body} (h : InBody s) (m : Meets) :
    (bodyStep step s m).Yields InBody := by
  cases m with
  | char c => exact hstep s c
  | refill tooLong =>
    have hback : InBody s.back := s.back_le.trans h
    cases tooLong with
    | true => exact (yields_true _).bind fun _ _ ↦ yields_pure hback
    | false => exact yields_pure hback
  | endless => exact yields_stuck

theorem safe_refill (step : Body → UInt8 → Checked Body) (s : Body) (tooLong : Bool) :
    (bodyStep step s (.refill tooLong)).Safe := by
  cases tooLong with
  | true => exact safe_bind.2 ⟨safe_report, fun _ _ ↦ safe_pure⟩
  | false => exact safe_pure

theorem yields_put {q : Bytes} {n : ℕ} (hq : q.length ≤ n + 1) (ids : Bytes)
    (msg : String) :
    (if n < MLEN - 2 then pure ⟨q, ids⟩ else fail msg : Checked Body).Yields InBody := by
  split
  · exact yields_pure (show q.length ≤ MLEN - 2 by omega)
  · exact yields_fail

theorem yields_plainChar (s : Body) (c : UInt8) : (plainChar s c).Yields InBody :=
  (yields_true _).bind fun _ _ ↦ yields_put length_append.le s.ids _

theorem yields_putText (s : Body) (c : UInt8) : (putText s c).Yields InBody := by
  refine (yields_true _).bind fun _ _ ↦ ?_
  split
  · exact (yields_true _).bind fun _ _ ↦ yields_put length_append.le s.ids _
  · exact yields_put length_append.le s.ids _

theorem yields_bodyChar (params : List Bytes) (s : Body) (c : UInt8) :
    (bodyChar params s c).Yields InBody := by
  rw [bodyChar]
  split
  · exact yields_putText _ c
  · exact (yields_true _).bind fun s _ ↦ yields_putText s c

theorem safe_plainStep {s : Body} (h : InBody s) (m : Meets) :
    (bodyStep plainChar s m).Safe := by
  cases m with
  | char c =>
    refine safe_write_bind.2 ⟨lt_of_le_of_lt h (by decide), ?_⟩
    split
    · exact safe_pure
    · exact safe_fail
  | refill tooLong => exact safe_refill _ s tooLong
  | endless => exact safe_stuck

theorem safe_putText (s : Body) (c : UInt8) :
    (putText s c).Safe ↔ s.q.length < MLEN ∧ (c = MARKS → s.q.length + 1 < MLEN) := by
  refine safe_write_bind.trans (and_congr_right fun _ ↦ ?_)
  split
  next hc =>
    refine safe_write_bind.trans ((and_iff_left ?_).trans (imp_iff_right hc).symm)
    split
    · exact safe_pure
    · exact safe_fail
  next hc =>
    refine iff_of_true ?_ fun h ↦ absurd h hc
    split
    · exact safe_pure
    · exact safe_fail

/-- An identifier ends: nothing is written outside, and the text grows by one at most, for a
parameter of one letter. -/
theorem safe_endId (params : List Bytes) {s : Body} (h : InBody s) :
    (endId params s).Safe := by
  rw [endId]
  split
  · exact safe_pure
  next hne =>
    split
    · exact safe_pure
    · have hids := length_pos_of_ne_nil hne
      have hlength : (s.q.take (s.q.length - s.ids.length)).length + 1 < MLEN := by
        rw [length_take]
        have : s.q.length ≤ MLEN - 2 := h
        simp only [MLEN] at this ⊢
        omega
      exact safe_write_bind.2 ⟨Nat.lt_of_succ_lt hlength, safe_write_bind.2 ⟨hlength, safe_pure⟩⟩

theorem yields_endId (params : List Bytes) {s : Body} (h : InBody s) :
    (endId params s).Yields fun t ↦ t.q.length < MLEN ∧
      (t.q.length + 1 < MLEN ↔
        ¬ (s.q.length = MLEN - 2 ∧ s.ids.length = 1 ∧ s.ids ∈ params)) := by
  have hs : s.q.length ≤ MLEN - 2 := h
  simp only [MLEN] at hs ⊢
  rw [endId]
  split
  next hnil =>
    refine yields_pure ⟨by omega, iff_of_true (by omega) ?_⟩
    rw [hnil]
    rintro ⟨-, h, -⟩
    cases h
  next hne =>
    have hids := length_pos_of_ne_nil hne
    split
    next hnone =>
      refine yields_pure ⟨show s.q.length < 8192 by omega, iff_of_true
        (show s.q.length + 1 < 8192 by omega) ?_⟩
      rintro ⟨-, -, hmem⟩
      exact of_decide_eq_false (List.findIdx?_eq_none_iff.1 hnone _ hmem) rfl
    next n hsome =>
      have hmem : s.ids ∈ params := by
        obtain ⟨hn, heq, -⟩ := List.findIdx?_eq_some_iff_getElem.1 hsome
        exact of_decide_eq_true heq ▸ getElem_mem hn
      refine (yields_true _).bind fun _ _ ↦ (yields_true _).bind fun _ _ ↦ yields_pure ?_
      simp only [length_append, length_take, length_cons, length_nil, hmem,
        and_true]
      omega

theorem exists_endId (params : List Bytes) (s : Body) :
    ∃ t, (endId params s).value = some t := by
  rw [endId]
  split
  · exact ⟨s, rfl⟩
  · split
    · exact ⟨_, rfl⟩
    · exact ⟨_, rfl⟩

theorem safe_bodyStep (params : List Bytes) {s : Body} (h : InBody s) (m : Meets) :
    (bodyStep (bodyChar params) s m).Safe ↔ BodyRoom params s m := by
  cases m with
  | char c =>
    show (bodyChar params s c).Safe ↔ ¬ _
    rw [bodyChar]
    split
    next hc =>
      have hmarks : c ≠ MARKS := by
        rintro rfl
        exact Bool.false_ne_true hc
      exact iff_of_true ((safe_putText _ c).2 ⟨lt_of_le_of_lt h (by decide), (absurd · hmarks)⟩)
        fun h ↦ hmarks h.1
    next =>
      obtain ⟨t, ht⟩ := exists_endId params s
      obtain ⟨hlt, hroom⟩ := yields_endId params h t ht
      rw [safe_bind, and_iff_right (safe_endId params h), not_and, ← hroom]
      constructor
      · exact fun h ↦ ((safe_putText t c).1 (h t ht)).2
      · rintro h t' ht'
        obtain rfl := Option.some.inj (ht.symm.trans ht')
        exact (safe_putText t c).2 ⟨hlt, h⟩
  | refill tooLong => exact iff_of_true (safe_refill _ s tooLong) trivial
  | endless => exact iff_of_true safe_stuck trivial

/-! ### The call is inside of its buffers -/

/-- Room for the next character of the arguments: at the end of an argument in the buffer, and at a
comma in the table. -/
def CollectRoom : Collecting → UInt8 → Prop
  | .outside parcnt s, c =>
    (c = COMMA ∧ parcnt = 0 → s.q < DEFMAX ∧ s.args.length + 1 < NARGS) ∧
      (c = RPAREN ∧ parcnt = 0 → s.q < DEFMAX)
  | _, _ => True

/-- Inside of quotes there is room for a backslash. -/
def InArg : Collecting → Prop
  | .inside _ _ s => s.q ≤ DEFMAX - 5
  | _ => True

theorem safe_putArg (s : Args) (c : UInt8) : (putArg s c).Safe := by
  rw [putArg]
  split
  · exact safe_fail
  · exact safe_write_bind.2 ⟨by simp only [DEFMAX] at *; omega, safe_pure⟩

theorem yields_putArg (s : Args) (c : UInt8) : (putArg s c).Yields fun s ↦ s.q ≤ DEFMAX - 5 := by
  rw [putArg]
  split
  · exact yields_fail
  next h => exact (yields_true _).bind fun _ _ ↦ yields_pure (show s.q + 1 ≤ DEFMAX - 5 by omega)

theorem yields_collect (s : Collecting) (c : UInt8) : (collect s c).Yields InArg := by
  cases s with
  | outside parcnt s =>
    rw [collect]
    split
    · refine (yields_true _).bind fun _ _ ↦ (yields_true _).bind fun _ _ ↦ ?_
      split
      · exact yields_fail
      · exact yields_pure trivial
    split
    · refine (yields_true _).bind fun _ _ ↦ ?_
      split
      · exact yields_fail
      · exact yields_pure trivial
    refine (yields_putArg s c).bind fun s hs ↦ ?_
    split
    · exact yields_pure hs
    split
    · exact yields_pure trivial
    split <;> exact yields_pure trivial
  | inside quote parcnt s =>
    rw [collect]
    split
    · exact (yields_true _).bind fun _ _ ↦ yields_pure trivial
    split
    · exact yields_fail
    refine (yields_putArg s c).bind fun s hs ↦ ?_
    split
    · exact yields_pure trivial
    · exact yields_pure hs
  | escaped quote parcnt s => exact (yields_putArg s c).bind fun s hs ↦ yields_pure hs
  | ended args input => exact yields_pure trivial

theorem safe_collect {s : Collecting} (h : InArg s) (c : UInt8) :
    (collect s c).Safe ↔ CollectRoom s c := by
  cases s with
  | outside parcnt s =>
    rw [collect, CollectRoom]
    split
    next hc =>
      have hparen : ¬ (c = RPAREN ∧ parcnt = 0) := by
        obtain ⟨rfl, -⟩ := hc
        exact fun h ↦ absurd h.1 (by decide)
      rw [imp_iff_right hc, and_iff_left (absurd · hparen), safe_write_bind, safe_write_bind]
      refine and_congr_right fun _ ↦ and_iff_left ?_
      split
      · exact safe_fail
      · exact safe_pure
    next hcomma =>
      rw [and_iff_right (absurd · hcomma)]
      split
      next hc =>
        rw [imp_iff_right hc, safe_write_bind]
        refine and_iff_left ?_
        split
        · exact safe_fail
        · exact safe_pure
      next hparen =>
        refine iff_of_true (safe_bind.2 ⟨safe_putArg s c, fun s _ ↦ ?_⟩) (absurd · hparen)
        split
        · exact safe_pure
        split
        · exact safe_pure
        split <;> exact safe_pure
  | inside quote parcnt s =>
    refine iff_of_true ?_ trivial
    rw [collect]
    split
    · exact safe_write_bind.2 ⟨lt_of_le_of_lt h (by decide), safe_pure⟩
    split
    · exact safe_fail
    refine safe_bind.2 ⟨safe_putArg s c, fun s _ ↦ ?_⟩
    split <;> exact safe_pure
  | escaped quote parcnt s =>
    exact iff_of_true (safe_bind.2 ⟨safe_putArg s c, fun _ _ ↦ safe_pure⟩) trivial
  | ended args input => exact iff_of_true safe_pure trivial

/-- What is put to the expansion for a character of the text of the macro. -/
def puts (args : List Bytes) (s : Expansion) (c : UInt8) : Bytes :=
  if s.marked then
    if c = MARKS then [MARKS]
    else if c < MARKS then []
    else ((args[c.toNat - 64 - 1]?).map asString).getD []
  else if c = MARKS then []
  else [c]

/-- Room for what is put to the expansion. -/
def ExpandRoom (args : List Bytes) (s : Expansion) (c : UInt8) : Prop :=
  puts args s c ≠ [] → s.b.length < DEFMAX

theorem safe_putChar (b : Bytes) (c : UInt8) :
    (putChar b c).Safe ↔ b.length < DEFMAX := by
  refine safe_write_bind.trans (and_iff_left ?_)
  split
  · exact safe_pure
  · exact safe_fail

theorem yields_putChar (b : Bytes) (c : UInt8) :
    (putChar b c).Yields fun b ↦ b.length < DEFMAX := by
  refine (yields_true _).bind fun _ _ ↦ ?_
  split
  next h => exact yields_pure (by rwa [length_append])
  · exact yields_fail

theorem safe_putChars (l b : Bytes) :
    (l.foldlM putChar b).Safe ↔ (l ≠ [] → b.length < DEFMAX) := by
  induction l generalizing b with
  | nil => exact iff_of_true safe_pure fun h ↦ absurd rfl h
  | cons c l ih =>
    rw [foldlM_cons, safe_bind, safe_putChar, imp_iff_right (cons_ne_nil c l)]
    exact and_iff_left fun b' hb' ↦ (ih b').2 fun _ ↦ yields_putChar b c b' hb'

theorem safe_expand (args : List Bytes) (s : Expansion) (c : UInt8) :
    (expand args s c).Safe ↔ ExpandRoom args s c := by
  rw [expand, ExpandRoom, puts]
  split
  · split
    · rw [safe_write_bind, and_iff_left safe_pure, imp_iff_right (cons_ne_nil _ _)]
    split
    · exact iff_of_true safe_stuck fun h ↦ absurd rfl h
    split
    next hnone =>
      rw [hnone]
      exact iff_of_true safe_stuck fun h ↦ absurd rfl h
    next arg hsome =>
      rw [hsome, safe_bind, and_iff_left fun _ _ ↦ safe_pure]
      exact safe_putChars _ s.b
  · split
    · exact iff_of_true safe_pure fun h ↦ absurd rfl h
    · rw [safe_bind, and_iff_left fun _ _ ↦ safe_pure, safe_putChar,
        imp_iff_right (cons_ne_nil _ _)]

/-! ### Exactly with room for them -/

/-- Room for the text of a macro with parameters. -/
def DefineRoom (before : UInt8) (yyt : Bytes) (lines : List Line) : Prop :=
  ∀ name p params line, (getAlpha [] yyt).value = some (name, LPAREN :: p) →
    (parameters p).value = some (params, line) →
      Along (bodyStep (bodyChar params)) (BodyRoom params) (textOf before lines RPAREN line)
        ⟨[], []⟩

/-- Room for the arguments. -/
def ArgumentsRoom (input : Bytes) : Prop :=
  ∀ p, input.dropWhile isSpace = LPAREN :: p → (p.dropWhile isSpace).head? ≠ some RPAREN →
    Along collect CollectRoom (p.dropWhile isSpace) (.outside 0 ⟨[], [], 0⟩)

/-- Room for the expansion, and for the NUL behind it. -/
def TextRoom (args : List Bytes) (exps : Bytes) : Prop :=
  Along (expand args) (ExpandRoom args) exps ⟨[], false⟩ ∧
    ∀ s, (exps.foldlM (expand args) ⟨[], false⟩).value = some s → s.b.length < DEFMAX

/-- A macro with parameters is called when there may be another expansion. -/
def CallRoom (nexpands : ℕ) (d : Defn) (input : Bytes) : Prop :=
  ∀ nargs, nexpands ≤ EXPANDMAX → d.nargs = some nargs →
    ArgumentsRoom input ∧ ∀ args rest, (arguments input).value = some (args, rest) →
      args.length = nargs → TextRoom args d.exps

theorem safe_endBody {s : Body} (h : InBody s) : (endBody s).Safe := by
  refine safe_write_bind.2 ⟨lt_of_le_of_lt ((Nat.sub_le _ 1).trans h) (by decide), safe_pure⟩

theorem inBody_nil : InBody ⟨[], []⟩ :=
  Nat.zero_le _

theorem safe_body {step : Body → UInt8 → Checked Body}
    (hstep : ∀ s c, (step s c).Yields InBody) {room : Body → Meets → Prop}
    (hroom : ∀ s m, InBody s → ((bodyStep step s m).Safe ↔ room s m)) (text : List Meets)
    (f : Bytes → Defn) :
    (do
      let mtext ← text.foldlM (bodyStep step) ⟨[], []⟩
      let exps ← endBody mtext
      pure (f exps) : Checked Defn).Safe ↔ Along (bodyStep step) room text ⟨[], []⟩ := by
  have hinv : ∀ s m s', InBody s → (bodyStep step s m).value = some s' → InBody s' :=
    fun s m s' h ↦ yields_bodyStep hstep h m s'
  rw [safe_bind, safe_foldlM hroom hinv text _ inBody_nil]
  exact and_iff_left fun s hs ↦
    safe_bind.2 ⟨safe_endBody (inv_foldlM hinv text _ s inBody_nil hs), fun _ _ ↦ safe_pure⟩

theorem along_of_forall {σ ι : Type} {step : σ → ι → Checked σ} {p : σ → ι → Prop}
    (h : ∀ s i, p s i) (is : List ι) : ∀ s, Along step p is s := by
  induction is with
  | nil => exact fun _ ↦ trivial
  | cons i is ih => exact fun s ↦ ⟨h s i, fun s' _ ↦ ih s'⟩

theorem safe_handleDefine (before : UInt8) (yyt : Bytes) (lines : List Line) :
    (handleDefine before yyt lines).Safe ↔ DefineRoom before yyt lines := by
  rw [handleDefine, safe_bind, and_iff_right (safe_getAlpha yyt [] (by decide)), DefineRoom]
  constructor
  · rintro h name p params line hname hparams
    have h := h (name, LPAREN :: p) hname
    dsimp only at h
    rw [if_pos List.head?_cons, tail_cons, safe_bind] at h
    exact (safe_body (yields_bodyChar params) (fun s m hs ↦ safe_bodyStep params hs m) _ _).1
      (h.2 (params, line) hparams)
  · rintro h ⟨name, p⟩ hname
    dsimp only
    split
    next hparen =>
      obtain ⟨p, rfl⟩ := List.head?_eq_some_iff.1 hparen
      refine safe_bind.2 ⟨safe_parameters p, ?_⟩
      rintro ⟨params, line⟩ hparams
      exact (safe_body (yields_bodyChar params) (fun s m hs ↦ safe_bodyStep params hs m) _ _).2
        (h name p params line hname hparams)
    next =>
      exact (@safe_body _ yields_plainChar (fun _ _ ↦ True)
        (fun s m hs ↦ iff_of_true (safe_plainStep hs m) trivial) _ _).2
        (along_of_forall (fun _ _ ↦ trivial) _ _)

theorem safe_collectArgs (input : Bytes) :
    (collectArgs input).Safe ↔ Along collect CollectRoom input (.outside 0 ⟨[], [], 0⟩) := by
  rw [collectArgs, safe_write_bind, and_iff_right (by decide), safe_bind,
    safe_foldlM (fun s c hs ↦ safe_collect hs c) (fun s c s' _ ↦ yields_collect s c s') input
      (.outside 0 ⟨[], [], 0⟩) trivial]
  refine and_iff_left fun s _ ↦ ?_
  cases s with
  | ended => exact safe_pure
  | outside | inside | escaped => exact safe_fail

theorem safe_arguments (input : Bytes) :
    (arguments input).Safe ↔ ArgumentsRoom input := by
  rw [arguments, ArgumentsRoom]
  dsimp only
  split
  next h =>
    obtain ⟨p, hp⟩ := List.head?_eq_some_iff.1 h
    rw [hp, tail_cons]
    split
    next h =>
      refine iff_of_true safe_pure ?_
      rintro p' heq hne
      obtain ⟨-, rfl⟩ := List.cons.inj heq
      exact absurd h hne
    next h =>
      rw [safe_collectArgs]
      constructor
      · rintro hroom p' heq -
        obtain ⟨-, rfl⟩ := List.cons.inj heq
        exact hroom
      · exact fun hroom ↦ hroom p rfl h
  next h =>
    refine iff_of_true safe_fail fun p hp ↦ absurd ?_ h
    rw [hp, List.head?_cons]

theorem safe_addInput (nbuf : ℕ) (p : Bytes) : (addInput nbuf p).Safe := by
  rw [addInput]
  split
  · exact safe_fail
  · exact safe_pure

theorem safe_text (nbuf : ℕ) (args : List Bytes) (exps rest : Bytes) :
    (do
      let s ← exps.foldlM (expand args) ⟨[], false⟩
      write DEFMAX s.b.length
      let text ← addInput nbuf s.b
      pure (text, rest) : Checked (Bytes × Bytes)).Safe ↔ TextRoom args exps := by
  rw [safe_bind, @safe_foldlM _ _ _ (fun _ ↦ True) _ (fun s c _ ↦ safe_expand args s c)
    (fun _ _ _ _ _ ↦ trivial) exps _ trivial]
  refine and_congr_right fun _ ↦ forall₂_congr fun s _ ↦ safe_write_bind.trans (and_iff_left ?_)
  exact safe_bind.2 ⟨safe_addInput nbuf s.b, fun _ _ ↦ safe_pure⟩

theorem safe_expandDefine (nexpands nbuf : ℕ) (d : Defn) (input : Bytes) :
    (expandDefine nexpands nbuf d input).Safe ↔ CallRoom nexpands d input := by
  rw [expandDefine, CallRoom]
  split
  next h => exact iff_of_true safe_fail fun _ hle ↦ absurd hle (Nat.not_le.2 h)
  next h =>
    obtain ⟨name, nargs, exps⟩ := d
    cases nargs with
    | none =>
      exact iff_of_true (safe_bind.2 ⟨safe_addInput nbuf exps, fun _ _ ↦ safe_pure⟩) nofun
    | some nargs =>
      have hargs : (arguments input).Safe ∧ (∀ a, (arguments input).value = some a →
          a.1.length = nargs → TextRoom a.1 exps) ↔
          ArgumentsRoom input ∧ ∀ args rest, (arguments input).value = some (args, rest) →
            args.length = nargs → TextRoom args exps :=
        and_congr (safe_arguments input) Prod.forall
      show (_ >>= _ : Checked _).Safe ↔ _
      rw [safe_bind]
      constructor
      · rintro hsafe n - ⟨⟩
        refine hargs.1 ⟨hsafe.1, fun a ha hlength ↦ ?_⟩
        have := hsafe.2 a ha
        dsimp only at this
        rw [if_pos hlength] at this
        exact (safe_text nbuf a.1 exps a.2).1 this
      · intro hroom
        obtain ⟨hsafe, htext⟩ := hargs.2 (hroom nargs (Nat.not_lt.1 h) rfl)
        refine ⟨hsafe, fun a ha ↦ ?_⟩
        dsimp only
        split
        next hlength => exact (safe_text nbuf a.1 exps a.2).2 (htext a ha hlength)
        next => exact safe_fail

/-- A definition and a call of the macro: nothing is written outside of the tables and the buffers,
and without an error the call is replaced by the text of the macro. -/
structure Faithful (before : UInt8) (nexpands nbuf : ℕ) (yyt : Bytes) (lines : List Line)
    (input : Bytes) : Prop where
  define : (handleDefine before yyt lines).Safe
  expand : ∀ d, (handleDefine before yyt lines).value = some d →
    (expandDefine nexpands nbuf d input).Safe
  text : (handleDefine before yyt lines).Returns fun d ↦
    (expandDefine nexpands nbuf d input).Returns fun r ↦ Expanded yyt lines input r.1 r.2

/-- Room for the definition and for the call. -/
structure Room (before : UInt8) (nexpands : ℕ) (yyt : Bytes) (lines : List Line)
    (input : Bytes) : Prop where
  define : DefineRoom before yyt lines
  expand : ∀ d, (handleDefine before yyt lines).value = some d → CallRoom nexpands d input

/-- **A macro is defined and expanded as it should be exactly if there is room** wherever the code
does not check for it. -/
theorem faithful_iff {before : UInt8} (hbefore : before ≠ BACKSLASH) (nexpands nbuf : ℕ)
    (yyt : Bytes) (lines : List Line) (input : Bytes) :
    Faithful before nexpands nbuf yyt lines input ↔ Room before nexpands yyt lines input := by
  constructor
  · rintro ⟨hdefine, hexpand, -⟩
    exact ⟨(safe_handleDefine before yyt lines).1 hdefine,
      fun d hd ↦ (safe_expandDefine nexpands nbuf d input).1 (hexpand d hd)⟩
  · rintro ⟨hdefine, hexpand⟩
    exact ⟨(safe_handleDefine before yyt lines).2 hdefine,
      fun d hd ↦ (safe_expandDefine nexpands nbuf d input).2 (hexpand d hd),
      (returns_handleDefine hbefore yyt lines).mono fun d hd ↦
        returns_expandDefine hd nexpands nbuf input⟩

/-- `#define f(a) a` and `f(x)`. -/
theorem faithful_iff_one : (0 : UInt8) ≠ BACKSLASH ∧
    (Faithful 0 0 0 [102, LPAREN, 97, RPAREN, SPACE, 97] [] [LPAREN, 120, RPAREN] ↔
      Room 0 0 [102, LPAREN, 97, RPAREN, SPACE, 97] [] [LPAREN, 120, RPAREN]) :=
  ⟨by decide, faithful_iff (by decide) 0 0 _ _ _⟩

/-- `#define f(a) a` and `f` with 26 arguments: where the last one begins is written behind the
table. -/
theorem not_faithful : ¬ Faithful 0 0 0 [102, LPAREN, 97, RPAREN, SPACE, 97] []
    (LPAREN :: List.replicate 25 COMMA ++ [RPAREN]) := by
  intro h
  have := h.expand ⟨[102], some 1, [SPACE, MARKS, 65]⟩ rfl
  exact absurd (this ⟨NARGS, 25⟩ (by decide)) (by decide)

end Lpmud.Lex.Macro
