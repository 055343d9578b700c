import Lpmud.Interpret.Operators

/-!
# Literals that are joined

`yylex` puts together string literals with a `+` in between. To see whether there is such a literal
it has to read up to three tokens more (`yylex1`), and keeps those for later that it does not need.
With each token it keeps the value and the line.

A literal with `[` or `->` behind it is not joined to what is before it, since these operators are
to be applied first. So what comes out is `joinRuns`, if no literal follows another one directly
(`outputs_eq_joinRuns`). Where one does, it is kept without a look at what follows it, so that it
begins no run (`not_joinsAll`).
-/

namespace Lpmud.Yylex

open List

/-- What `yylex1` tells of a token. The other ones have a number. -/
inductive Token where
  | eof
  | string
  | plus
  | bracket
  | arrow
  | other (n : ℕ)
  deriving DecidableEq

/-- The value of a token (`YYSTYPE`). -/
inductive Lval where
  | none
  | number (n : BitVec 32)
  | string (s : CString)
  deriving DecidableEq

/-- The value, as that of a literal. -/
def Lval.text : Lval → CString
  | .string s => s
  | _ => ⟨[], not_mem_nil⟩

/-- A token with its value and its line. -/
structure Lexeme where
  token : Token
  lval : Lval
  line : ℤ
  deriving DecidableEq

/-- What is kept for later; nothing is there if `token` is -47. -/
structure Keep where
  token : Option Token
  line : ℤ
  lval : Lval
  deriving DecidableEq

/-- The lexer. What is still to be read is a list of tokens, each with the change of
`current_line`. -/
structure State where
  rest : List Lexeme
  currentLine : ℤ
  yylval : Lval
  keep1 : Keep
  keep2 : Keep
  keep3 : Keep
  keep4 : Keep
  deriving DecidableEq

namespace State

/-- `yylex1`: the next token, and at the end of the file that again and again. -/
def yylex1 (s : State) : Token × State :=
  match s.rest with
  | [] => (.eof, { s with yylval := .none })
  | t :: rest =>
    (t.token, { s with rest := rest, currentLine := s.currentLine + t.line, yylval := t.lval })

/-- `yylex` returns the literal in `keep4`. -/
def returnString (s : State) : Token × State :=
  (.string, { s with yylval := s.keep4.lval, currentLine := s.keep4.line })

/-- The loop of `yylex`, with the token `r` behind a literal, up to a number of rounds. -/
def yylexLoop : ℕ → Token → State → Option (Token × State)
  | 0, _, _ => none
  | n + 1, r, s =>
    let s := { s with keep1 := { s.keep1 with line := s.currentLine, lval := s.yylval } }
    if r ≠ .plus then
      some { s with keep1 := { s.keep1 with token := some r } }.returnString
    else
      let (r, s) := s.yylex1
      let s := { s with keep2 := { s.keep2 with line := s.currentLine, lval := s.yylval } }
      if r ≠ .string then
        some { s with
          keep1 := { s.keep1 with token := some .plus }
          keep2 := { s.keep2 with token := some r } }.returnString
      else
        let (r, s) := s.yylex1
        let s := { s with keep3 := { s.keep3 with line := s.currentLine, lval := s.yylval } }
        if r = .bracket ∨ r = .arrow then
          some { s with
            keep1 := { s.keep1 with token := some .plus }
            keep2 := { s.keep2 with token := some .string }
            keep3 := { s.keep3 with token := some r } }.returnString
        else
          let joined := Lval.string (s.keep4.lval.text.append s.keep2.lval.text)
          yylexLoop n r { s with
            keep3 := { s.keep3 with lval := joined }
            keep4 := { s.keep4 with line := s.keep2.line, lval := joined } }

def yylex (s : State) : Option (Token × State) :=
  match s.keep1.token with
  | some r =>
    some (r, { s with
      currentLine := s.keep1.line
      yylval := s.keep1.lval
      keep1 := s.keep2
      keep2 := s.keep3
      keep3 := { s.keep3 with token := none } })
  | none =>
    let (r, s) := s.yylex1
    if r = .string then
      let s := { s with keep4 := { s.keep4 with lval := s.yylval, line := s.currentLine } }
      let (r, s) := s.yylex1
      yylexLoop (s.rest.length + 1) r s
    else some (r, s)

/-- What `n` calls of `yylex` return, with `yylval` and `current_line`. -/
def outputs : ℕ → State → Option (List Lexeme)
  | 0, _ => some []
  | n + 1, s => do
    let (r, s) ← s.yylex
    let ls ← outputs n s
    some (⟨r, s.yylval, s.currentLine⟩ :: ls)

/-- The lexer at the beginning of a file (`start_new_file`). -/
def start (ls : List Lexeme) : State where
  rest := ls
  currentLine := 1
  yylval := .none
  keep1 := ⟨none, 0, .none⟩
  keep2 := ⟨none, 0, .none⟩
  keep3 := ⟨none, 0, .none⟩
  keep4 := ⟨none, 0, .none⟩

end State

/-! ### The tokens of the file -/

/-- The token, on a line. -/
def Lexeme.onLine (t : Lexeme) (line : ℤ) : Lexeme :=
  { t with line := line }

/-- The tokens with their lines, from a line on. -/
def numbered : ℤ → List Lexeme → List Lexeme
  | _, [] => []
  | line, t :: ts => t.onLine (line + t.line) :: numbered (line + t.line) ts

/-- The last line. -/
def lastLine (line : ℤ) (ts : List Lexeme) : ℤ :=
  line + (ts.map Lexeme.line).sum

theorem lastLine_nil (line : ℤ) : lastLine line [] = line :=
  Int.add_zero line

theorem lastLine_cons (line : ℤ) (t : Lexeme) (ts : List Lexeme) :
    lastLine line (t :: ts) = lastLine (line + t.line) ts := by
  rw [lastLine, lastLine, map_cons, sum_cons, Int.add_assoc]

/-- The end of the file. -/
def eof (line : ℤ) : Lexeme :=
  ⟨.eof, .none, line⟩

/-- Two literals as one. -/
def Lexeme.concat (t s : Lexeme) : Lexeme :=
  ⟨.string, .string (t.lval.text.append s.lval.text), s.line⟩

/-- The literal in front of this stays apart: `[` or `->` is to be applied to it. -/
def staysApart : List Lexeme → Bool
  | [] => false
  | u :: _ => u.token = .bracket || u.token = .arrow

/-- The tokens with the literals joined that have a `+` in between, except where one stays apart. -/
def joinRuns (stays : List Lexeme → Bool) : List Lexeme → List Lexeme
  | t :: p :: s :: rest =>
    if t.token = .string ∧ p.token = .plus ∧ s.token = .string ∧ stays rest = false then
      joinRuns stays (t.concat s :: rest)
    else t :: joinRuns stays (p :: s :: rest)
  | t :: rest => t :: joinRuns stays rest
  | [] => []
termination_by ts => ts.length
decreasing_by all_goals simp

/-- No literal follows another one directly, nor what is before them. -/
def Spaced : Token → List Lexeme → Prop
  | _, [] => True
  | r, t :: ts => ¬(r = .string ∧ t.token = .string) ∧ Spaced t.token ts

instance decidableSpaced : ∀ r ts, Decidable (Spaced r ts)
  | _, [] => .isTrue trivial
  | _, t :: ts =>
    have := decidableSpaced t.token ts
    inferInstanceAs (Decidable (_ ∧ _))

/-! ### Joining -/

section JoinRuns

variable {stays : List Lexeme → Bool} {t p s : Lexeme} {ts : List Lexeme}

attribute [local simp] joinRuns in
theorem joinRuns_cons_of_ne_string (h : t.token ≠ .string) :
    joinRuns stays (t :: ts) = t :: joinRuns stays ts := by
  rcases ts with - | ⟨p, - | ⟨s, ts⟩⟩
  · rw [joinRuns]
    exact fun _ _ _ h ↦ nomatch h
  · rw [joinRuns]
    exact fun _ _ _ h ↦ nomatch h
  · rw [joinRuns, if_neg fun hrun ↦ h hrun.1]

theorem joinRuns_cons_of_ne_plus (h : p.token ≠ .plus) :
    joinRuns stays (t :: p :: ts) = t :: joinRuns stays (p :: ts) := by
  rcases ts with - | ⟨s, ts⟩
  · rw [joinRuns]
    exact fun _ _ _ h ↦ nomatch h
  · rw [joinRuns, if_neg fun hrun ↦ h hrun.2.1]

theorem joinRuns_plus_of_ne_string (hp : p.token = .plus) (hs : s.token ≠ .string) :
    joinRuns stays (t :: p :: s :: ts) = t :: p :: s :: joinRuns stays ts := by
  rw [joinRuns, if_neg fun hrun ↦ hs hrun.2.2.1, joinRuns_cons_of_ne_string (by rw [hp]; nofun),
    joinRuns_cons_of_ne_string hs]

theorem joinRuns_concat (ht : t.token = .string) (hp : p.token = .plus) (hs : s.token = .string)
    (hstays : stays ts = false) :
    joinRuns stays (t :: p :: s :: ts) = joinRuns stays (t.concat s :: ts) := by
  rw [joinRuns, if_pos ⟨ht, hp, hs, hstays⟩]

end JoinRuns

/-! ### What is kept -/

/-- A token as it is kept. -/
def Lexeme.keep (t : Lexeme) : Keep :=
  ⟨some t.token, t.line, t.lval⟩

/-- These tokens are kept, in this order, and the last token that has been read is on this line. -/
def Shows (s : State) (line : ℤ) : List Lexeme → Prop
  | [] => s.keep1.token = none ∧ s.keep2.token = none ∧ s.keep3.token = none ∧ s.currentLine = line
  | [k] => s.keep1 = k.keep ∧ s.keep2.token = none ∧ s.keep3.token = none ∧ k.line = line
  | [k, k'] => s.keep1 = k.keep ∧ s.keep2 = k'.keep ∧ s.keep3.token = none ∧ k'.line = line
  | [k, k', k''] => s.keep1 = k.keep ∧ s.keep2 = k'.keep ∧ s.keep3 = k''.keep ∧ k''.line = line
  | _ => False

/-- What was returned and is still to come is this, but for the end of the file. -/
def Continues (s : State) (e : ℤ) (L : List Lexeme) : Prop :=
  ∃ ks line j, Shows s line ks ∧ Spaced .eof s.rest ∧ lastLine line s.rest = e ∧
    ⟨.string, s.yylval, s.currentLine⟩ :: (ks ++ joinRuns staysApart (numbered line s.rest)) =
      L ++ List.replicate j (eof e)

theorem Spaced.eof {r : Token} {ts : List Lexeme} (h : Spaced r ts) : Spaced .eof ts := by
  cases ts with
  | nil => exact h
  | cons t ts => exact ⟨nofun, h.2⟩

/-! ### One round of the loop -/

section Rounds

variable {s : State} {n : ℕ} {r : Token} {x y : Lexeme} {xs ys : List Lexeme}

/-- The state when a literal is returned and these tokens are kept: the last one that has been read
is `line`. -/
def State.kept (s : State) (rest : List Lexeme) (keep1 keep2 keep3 : Keep) : State :=
  { s with
    rest := rest
    keep1 := keep1
    keep2 := keep2
    keep3 := keep3
    yylval := s.keep4.lval
    currentLine := s.keep4.line }

attribute [local simp] State.yylexLoop in
theorem loop_of_ne_plus (h : r ≠ .plus) : s.yylexLoop (n + 1) r =
    some (.string, s.kept s.rest ⟨some r, s.currentLine, s.yylval⟩ s.keep2 s.keep3) := by
  rw [State.yylexLoop]
  exact if_pos h

theorem loop_plus_eof (hrest : s.rest = []) : s.yylexLoop (n + 1) .plus =
    some (.string, s.kept [] ⟨some .plus, s.currentLine, s.yylval⟩
      ⟨some .eof, s.currentLine, .none⟩ s.keep3) := by
  obtain ⟨rest, cl, yl, k1, k2, k3, k4⟩ := s
  obtain rfl : rest = [] := hrest
  rfl

theorem loop_plus_of_ne_string (hrest : s.rest = x :: xs) (h : x.token ≠ .string) :
    s.yylexLoop (n + 1) .plus =
      some (.string, s.kept xs ⟨some .plus, s.currentLine, s.yylval⟩
        ⟨some x.token, s.currentLine + x.line, x.lval⟩ s.keep3) := by
  obtain ⟨rest, cl, yl, k1, k2, k3, k4⟩ := s
  obtain rfl : rest = x :: xs := hrest
  rw [State.yylexLoop]
  exact if_pos h

theorem loop_stays (hrest : s.rest = x :: y :: ys) (hx : x.token = .string)
    (hy : y.token = .bracket ∨ y.token = .arrow) :
    s.yylexLoop (n + 1) .plus =
      some (.string, s.kept ys ⟨some .plus, s.currentLine, s.yylval⟩
        ⟨some .string, s.currentLine + x.line, x.lval⟩
        ⟨some y.token, s.currentLine + x.line + y.line, y.lval⟩) := by
  obtain ⟨rest, cl, yl, k1, k2, k3, k4⟩ := s
  obtain rfl : rest = x :: y :: ys := hrest
  rw [State.yylexLoop]
  exact (if_neg (not_not.2 hx)).trans (if_pos hy)

/-- The state when two literals have been joined. -/
def State.joined (s : State) (x : Lexeme) (rest : List Lexeme) (line : ℤ) (yylval : Lval) : State :=
  let text := Lval.string (s.keep4.lval.text.append x.lval.text)
  { rest := rest
    currentLine := line
    yylval := yylval
    keep1 := ⟨s.keep1.token, s.currentLine, s.yylval⟩
    keep2 := ⟨s.keep2.token, s.currentLine + x.line, x.lval⟩
    keep3 := ⟨s.keep3.token, line, text⟩
    keep4 := ⟨s.keep4.token, s.currentLine + x.line, text⟩ }

theorem loop_joined_eof (hrest : s.rest = [x]) (hx : x.token = .string) :
    s.yylexLoop (n + 1) .plus =
      (s.joined x [] (s.currentLine + x.line) .none).yylexLoop n .eof := by
  obtain ⟨rest, cl, yl, k1, k2, k3, k4⟩ := s
  obtain rfl : rest = [x] := hrest
  rw [State.yylexLoop]
  exact (if_neg (not_not.2 hx)).trans (if_neg (by decide))

theorem loop_joined (hrest : s.rest = x :: y :: ys) (hx : x.token = .string)
    (hy : ¬(y.token = .bracket ∨ y.token = .arrow)) :
    s.yylexLoop (n + 1) .plus =
      (s.joined x ys (s.currentLine + x.line + y.line) y.lval).yylexLoop n y.token := by
  obtain ⟨rest, cl, yl, k1, k2, k3, k4⟩ := s
  obtain rfl : rest = x :: y :: ys := hrest
  rw [State.yylexLoop]
  exact (if_neg (not_not.2 hx)).trans (if_neg hy)

end Rounds

/-! ### The loop -/

/-- Nothing is kept. -/
def State.Vacant (s : State) : Prop :=
  s.keep1.token = none ∧ s.keep2.token = none ∧ s.keep3.token = none

/-- The literal in `keep4`. -/
def State.literal (s : State) : Lexeme :=
  ⟨.string, s.keep4.lval, s.keep4.line⟩

/-- The token `r` that has just been read. -/
def State.current (s : State) (r : Token) : Lexeme :=
  ⟨r, s.yylval, s.currentLine⟩

/-- **The loop** joins literals, and keeps what it has read too much. -/
theorem yylexLoop_continues (n : ℕ) : ∀ (r : Token) (s : State), s.rest.length < n → s.Vacant →
    r ≠ .string → Spaced r s.rest →
    ∃ s', s.yylexLoop n r = some (.string, s') ∧
      Continues s' (lastLine s.currentLine s.rest)
        (joinRuns staysApart (s.literal :: s.current r :: numbered s.currentLine s.rest)) := by
  induction n with
  | zero => exact fun _ _ hn ↦ absurd hn (Nat.not_lt_zero _)
  | succ n ih =>
    intro r s hn hvacant hr hsp
    by_cases hplus : r = .plus
    · subst hplus
      rcases hrest : s.rest with - | ⟨x, xs⟩
      · -- A plus at the end of the file.
        refine ⟨_, loop_plus_eof hrest, [s.current .plus, eof s.currentLine], s.currentLine, 1,
          ⟨rfl, rfl, hvacant.2.2, rfl⟩, trivial, rfl, ?_⟩
        rw [lastLine_nil, numbered]
        show [s.literal, s.current .plus, eof s.currentLine] ++ joinRuns staysApart [] = _
        simp only [joinRuns]
        rfl
      rw [hrest] at hsp hn
      rw [lastLine_cons, numbered]
      obtain ⟨x', hx'⟩ : ∃ x', x.onLine (s.currentLine + x.line) = x' := ⟨_, rfl⟩
      have htoken : x'.token = x.token := hx' ▸ rfl
      rw [hx']
      by_cases hx : x.token = .string
      · have hconcat : s.literal.concat x' =
            ⟨.string, .string (s.keep4.lval.text.append x.lval.text), s.currentLine + x.line⟩ := by
          rw [← hx']
          rfl
        rcases xs with - | ⟨y, ys⟩
        · -- The file ends behind the literal: the last round finds that.
          obtain ⟨s', hs', ks, line, j, hks, hsp', hlast, heq⟩ :=
            ih .eof (s.joined x [] (s.currentLine + x.line) .none)
              (Nat.lt_of_succ_lt_succ hn) hvacant nofun trivial
          rw [show lastLine (s.joined x [] (s.currentLine + x.line) .none).currentLine
            (s.joined x [] (s.currentLine + x.line) .none).rest = s.currentLine + x.line from
              lastLine_nil _] at hlast heq
          refine ⟨s', by rw [loop_joined_eof hrest hx, hs'], ks, line, j + 1, hks, hsp',
            hlast.trans (lastLine_nil _).symm, ?_⟩
          rw [heq, numbered, joinRuns_concat rfl rfl (htoken.trans hx) rfl, hconcat, lastLine_nil]
          show joinRuns staysApart [_, eof _] ++ _ = joinRuns staysApart [_] ++ _
          simp only [joinRuns, replicate_succ]
          rfl
        rw [numbered]
        obtain ⟨y', hy'⟩ : ∃ y', y.onLine (s.currentLine + x.line + y.line) = y' := ⟨_, rfl⟩
        have htoken' : y'.token = y.token := hy' ▸ rfl
        rw [hy']
        by_cases hy : y.token = .bracket ∨ y.token = .arrow
        · -- The literal stays apart.
          have hne : y'.token ≠ .plus ∧ y'.token ≠ .string := by
            rw [htoken']
            rcases hy with hy | hy <;> rw [hy] <;> exact ⟨nofun, nofun⟩
          refine ⟨_, loop_stays hrest hx hy, [s.current .plus, x', y'], _, 0,
            ⟨rfl, ?_, ?_, rfl⟩, hsp.2.2.eof, ?_, ?_⟩
          · rw [← hx', Lexeme.keep, ← hx]
            rfl
          · rw [← hy']
            rfl
          · rw [lastLine_cons, ← hy']
            rfl
          · have hapart {ts : List Lexeme} : staysApart (y' :: ts) = true := by
              rw [staysApart, htoken']
              simpa using hy
            rw [joinRuns, if_neg fun hrun ↦ absurd (hapart.symm.trans hrun.2.2.2) (by decide),
              joinRuns_cons_of_ne_string (t := s.current .plus) nofun,
              joinRuns_cons_of_ne_plus hne.1, joinRuns_cons_of_ne_string hne.2,
              replicate_zero, append_nil, ← hy']
            rfl
        · -- Another round, with the two literals as one.
          have hapart {ts : List Lexeme} : staysApart (y' :: ts) = false := by
            rw [staysApart, htoken']
            simpa using hy
          obtain ⟨s', hs', hcont⟩ :=
            ih y.token (s.joined x ys (s.currentLine + x.line + y.line) y.lval)
              (show ys.length < n by simp only [length_cons] at hn; omega) hvacant
              (fun hyt ↦ hsp.2.1 ⟨hx, hyt⟩) hsp.2.2
          refine ⟨s', by rw [loop_joined hrest hx hy, hs'], ?_⟩
          rw [lastLine_cons, joinRuns_concat rfl rfl (htoken.trans hx) hapart, hconcat, ← hy']
          exact hcont
      · -- The plus and what is behind it are kept.
        refine ⟨_, loop_plus_of_ne_string hrest hx, [s.current .plus, x'],
          s.currentLine + x.line, 0, ⟨rfl, ?_, hvacant.2.2, ?_⟩, hsp.2.eof, rfl, ?_⟩
        · rw [← hx']
          rfl
        · rw [← hx']
          rfl
        · rw [joinRuns_plus_of_ne_string rfl (htoken.trans_ne hx), replicate_zero,
            append_nil]
          rfl
    · -- What is behind the literal is kept.
      refine ⟨_, loop_of_ne_plus hplus, [s.current r], s.currentLine, 0,
        ⟨rfl, hvacant.2.1, hvacant.2.2, rfl⟩, hsp.eof, rfl, ?_⟩
      rw [joinRuns_cons_of_ne_plus hplus, joinRuns_cons_of_ne_string hr, replicate_zero,
        append_nil]
      rfl

/-! ### Call after call -/

theorem take_padded {α : Type*} {L : List α} {a : α} {n i j : ℕ} (hi : n ≤ L.length + i)
    (hj : n ≤ L.length + j) :
    (L ++ List.replicate i a).take n = (L ++ List.replicate j a).take n := by
  rw [take_append, take_append, take_replicate, take_replicate,
    Nat.min_eq_left (Nat.sub_le_iff_le_add'.2 hi), Nat.min_eq_left (Nat.sub_le_iff_le_add'.2 hj)]

theorem yylex_kept {s : State} {line : ℤ} {k : Lexeme} {ks : List Lexeme}
    (h : Shows s line (k :: ks)) :
    ∃ s', s.yylex = some (k.token, s') ∧ s'.current k.token = k ∧ s'.rest = s.rest ∧
      Shows s' line ks := by
  have hkeep : s.keep1 = k.keep := by
    rcases ks with - | ⟨k', - | ⟨k'', - | ⟨_, _⟩⟩⟩
    · exact h.1
    · exact h.1
    · exact h.1
    · exact h.elim
  refine ⟨{ s with
    currentLine := s.keep1.line
    yylval := s.keep1.lval
    keep1 := s.keep2
    keep2 := s.keep3
    keep3 := { s.keep3 with token := none } }, ?_, ?_, rfl, ?_⟩
  · rw [State.yylex, hkeep]
    rfl
  · rw [State.current, hkeep]
    rfl
  · rcases ks with - | ⟨k', - | ⟨k'', - | ⟨_, _⟩⟩⟩
    · exact ⟨h.2.1, h.2.2.1, rfl, hkeep ▸ h.2.2.2⟩
    · exact ⟨h.2.1, h.2.2.1, rfl, h.2.2.2⟩
    · exact ⟨h.2.1, h.2.2.1, rfl, h.2.2.2⟩
    · exact h.elim

/-- The state when a literal has been read, and the token behind it, if there is one. -/
def State.second (s : State) (x : Lexeme) (rest : List Lexeme) (line : ℤ) (yylval : Lval) : State :=
  { s with
    rest := rest
    currentLine := line
    yylval := yylval
    keep4 := ⟨s.keep4.token, s.currentLine + x.line, x.lval⟩ }

section Read

variable {s : State} {x y : Lexeme} {xs ys : List Lexeme}

theorem yylex_eof (h : s.keep1.token = none) (hrest : s.rest = []) :
    s.yylex = some (.eof, { s with yylval := .none }) := by
  rw [State.yylex, h, State.yylex1, hrest]
  rfl

theorem yylex_of_ne_string (h : s.keep1.token = none) (hrest : s.rest = x :: xs)
    (hx : x.token ≠ .string) :
    s.yylex = some (x.token,
      { s with rest := xs, currentLine := s.currentLine + x.line, yylval := x.lval }) := by
  rw [State.yylex, h, State.yylex1, hrest]
  exact if_neg hx

theorem yylex_string_eof (h : s.keep1.token = none) (hrest : s.rest = [x])
    (hx : x.token = .string) :
    s.yylex = (s.second x [] (s.currentLine + x.line) .none).yylexLoop 1 .eof := by
  rw [State.yylex, h, State.yylex1, hrest]
  exact if_pos hx

theorem yylex_string (h : s.keep1.token = none) (hrest : s.rest = x :: y :: ys)
    (hx : x.token = .string) :
    s.yylex = (s.second x ys (s.currentLine + x.line + y.line) y.lval).yylexLoop
      (ys.length + 1) y.token := by
  rw [State.yylex, h, State.yylex1, hrest]
  exact if_pos hx

end Read

theorem yylex_read {s : State} {line : ℤ} (h : Shows s line []) (hsp : Spaced .eof s.rest) :
    ∃ r s' ks line' j, s.yylex = some (r, s') ∧ Shows s' line' ks ∧ Spaced .eof s'.rest ∧
      lastLine line' s'.rest = lastLine line s.rest ∧
      s'.current r :: (ks ++ joinRuns staysApart (numbered line' s'.rest)) =
        joinRuns staysApart (numbered line s.rest) ++
          List.replicate j (eof (lastLine line s.rest)) := by
  obtain ⟨h1, h2, h3, rfl⟩ := h
  rcases hrest : s.rest with - | ⟨x, xs⟩
  · refine ⟨.eof, _, [], s.currentLine, 1, yylex_eof h1 hrest, ⟨h1, h2, h3, rfl⟩, hsp, ?_, ?_⟩
    · rw [hrest]
    · rw [hrest, lastLine_nil, numbered, joinRuns]
      rfl
  rw [hrest] at hsp
  by_cases hx : x.token = .string
  · rcases xs with - | ⟨y, ys⟩
    · obtain ⟨s', hs', ks, line', j, hks, hsp', hlast, heq⟩ :=
        yylexLoop_continues 1 .eof (s.second x [] (s.currentLine + x.line) .none) Nat.zero_lt_one
          ⟨h1, h2, h3⟩ nofun trivial
      rw [show lastLine (s.second x [] (s.currentLine + x.line) .none).currentLine
        (s.second x [] (s.currentLine + x.line) .none).rest = s.currentLine + x.line from
          lastLine_nil _] at hlast heq
      refine ⟨.string, s', ks, line', j + 1, (yylex_string_eof h1 hrest hx).trans hs', hks, hsp',
        by rw [hlast, lastLine_cons, lastLine_nil], heq.trans ?_⟩
      rw [lastLine_cons, lastLine_nil, numbered, numbered, replicate_succ]
      show joinRuns staysApart [_, eof _] ++ _ = joinRuns staysApart [_] ++ _
      rw [State.literal, ← hx]
      simp only [joinRuns]
      rfl
    · obtain ⟨s', hs', ks, line', j, hks, hsp', hlast, heq⟩ :=
        yylexLoop_continues (ys.length + 1) y.token
          (s.second x ys (s.currentLine + x.line + y.line) y.lval) (Nat.lt_succ_self _)
          ⟨h1, h2, h3⟩ (fun hy ↦ hsp.2.1 ⟨hx, hy⟩) hsp.2.2
      refine ⟨.string, s', ks, line', j, (yylex_string h1 hrest hx).trans hs', hks, hsp', ?_,
        heq.trans ?_⟩
      · rw [hlast, lastLine_cons, lastLine_cons]
        rfl
      · rw [lastLine_cons, lastLine_cons, numbered, numbered, State.literal, ← hx]
        rfl
  · refine ⟨x.token, _, [], s.currentLine + x.line, 0, yylex_of_ne_string h1 hrest hx,
      ⟨h1, h2, h3, rfl⟩, hsp.2.eof, (lastLine_cons _ _ _).symm, ?_⟩
    have hx' : (x.onLine (s.currentLine + x.line)).token ≠ .string := hx
    rw [numbered, joinRuns_cons_of_ne_string hx', replicate_zero, append_nil]
    rfl

theorem outputs_eq (n : ℕ) : ∀ {s : State} {line : ℤ} {ks : List Lexeme}, Shows s line ks →
    Spaced .eof s.rest →
    s.outputs n = some ((ks ++ joinRuns staysApart (numbered line s.rest) ++
      List.replicate n (eof (lastLine line s.rest))).take n) := by
  induction n with
  | zero => exact fun _ _ ↦ rfl
  | succ n ih =>
    intro s line ks h hsp
    rcases ks with - | ⟨k, ks⟩
    · obtain ⟨r, s', ks, line', j, hs', hks, hsp', hlast, heq⟩ := yylex_read h hsp
      rw [State.outputs, hs']
      show (s'.outputs n).bind (fun ls ↦ some (s'.current r :: ls)) = _
      rw [ih hks hsp', Option.bind_some, hlast, ← take_succ_cons, ← cons_append, heq,
        append_assoc, replicate_append_replicate, nil_append]
      have hlen := congrArg List.length heq
      rw [length_cons, length_append, length_append, length_replicate] at hlen
      exact congrArg some (take_padded (by omega) (by omega))
    · obtain ⟨s', hs', hk, hrest, hks⟩ := yylex_kept h
      rw [State.outputs, hs']
      show (s'.outputs n).bind (fun ls ↦ some (s'.current k.token :: ls)) = _
      rw [ih hks (hrest ▸ hsp), Option.bind_some, hk, hrest, cons_append, cons_append,
        take_succ_cons,
        take_padded (Nat.le_add_left _ _) (Nat.le_add_left_of_le (Nat.le_succ n))]

/-- **`yylex` joins literals**: for all tokens of a file, if no literal follows another one
directly, it returns the same tokens, with their values and lines, with each run of literals as one,
up to a literal with `[` or `->` behind it; and then the end of the file. -/
theorem outputs_eq_joinRuns (ts : List Lexeme) (h : Spaced .eof ts) (n : ℕ) :
    (State.start ts).outputs n = some ((joinRuns staysApart (numbered 1 ts) ++
      List.replicate n (eof (lastLine 1 ts))).take n) :=
  outputs_eq n (show Shows (State.start ts) 1 [] from ⟨rfl, rfl, rfl, rfl⟩) h

/-- A literal, and a token without a value. -/
def literal (bytes : Bytes) (h : 0 ∉ bytes) : Lexeme :=
  ⟨.string, .string ⟨bytes, h⟩, 0⟩

def token (t : Token) : Lexeme :=
  ⟨t, .none, 0⟩

/-- `"a" + "b" + "c"[` -/
def indexed : List Lexeme :=
  [literal [97] (by decide), token .plus, literal [98] (by decide), token .plus,
    literal [99] (by decide), token .bracket]

/-- `"a" "b" + "c"` -/
def adjacent : List Lexeme :=
  [literal [97] (by decide), literal [98] (by decide), token .plus, literal [99] (by decide)]

theorem outputs_eq_joinRuns_indexed :
    (State.start indexed).outputs 5 = some ((joinRuns staysApart (numbered 1 indexed) ++
      List.replicate 5 (eof (lastLine 1 indexed))).take 5) :=
  outputs_eq_joinRuns indexed (by decide) 5

/-- All runs are joined. -/
def JoinsAll (ts : List Lexeme) : Prop :=
  ∀ n, (State.start ts).outputs n = some ((joinRuns (fun _ ↦ false) (numbered 1 ts) ++
    List.replicate n (eof (lastLine 1 ts))).take n)

/-- **Not all runs are joined**: neither with a literal that stays apart, nor behind a literal. -/
theorem not_joinsAll : ¬JoinsAll indexed ∧ ¬JoinsAll adjacent := by
  constructor
  · intro h
    have hclaim := h 2
    rw [show (State.start indexed).outputs 2 = some [⟨.string, .string ⟨[97, 98], by decide⟩, 1⟩,
      ⟨.plus, .none, 1⟩] from rfl] at hclaim
    simp [joinRuns, indexed, numbered, Lexeme.onLine, Lexeme.concat, literal, token] at hclaim
  · intro h
    have hclaim := h 3
    rw [show (State.start adjacent).outputs 3 = some [⟨.string, .string ⟨[97], by decide⟩, 1⟩,
      ⟨.string, .string ⟨[98], by decide⟩, 1⟩, ⟨.plus, .none, 1⟩] from rfl] at hclaim
    simp [joinRuns, adjacent, numbered, Lexeme.onLine, Lexeme.concat, literal, token, eof] at hclaim

end Lpmud.Yylex
