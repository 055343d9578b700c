import Lpmud.Sprintf.Table

/-!
# Columns and tables in memory

`add_column` and `add_table` print strings that are in memory, each with a NUL behind it that is
there for as long as it takes. One call of `add_column` prints one of the `columnSegments`, and one
call of `add_table` one of the `tableRows`; what a table begins with is its `tableLayout`.
-/

namespace Lpmud.Sprintf

open Function List Abortable

variable {s s' : State} {c : Cst} {p q : Ptr} {x : UInt8} {next trailing : Bool}

/-! ### Strings -/

/-- The string at a pointer. -/
def State.str (s : State) (p : Ptr) : Bytes :=
  stringAt (s.bytes p)

theorem str_congr (h : s'.mem = s.mem) (p : Ptr) : s'.str p = s.str p := by
  rw [State.str, State.bytes, h]
  rfl

theorem stringAt_drop {l : Bytes} {k : ℕ} (h : k ≤ (stringAt l).length) :
    stringAt (l.drop k) = (stringAt l).drop k := by
  induction l generalizing k with
  | nil => rw [drop_nil, stringAt, takeWhile_nil, drop_nil]
  | cons c l ih =>
    cases k with
    | zero => rfl
    | succ k =>
      by_cases hc : c = 0
      · subst hc
        exact absurd h (Nat.not_succ_le_zero k)
      · rw [stringAt_cons hc] at h ⊢
        exact ih (Nat.le_of_succ_le_succ h)

theorem str_add {k : ℕ} (h : k ≤ (s.str p).length) : s.str (p.add k) = (s.str p).drop k := by
  rw [State.str, State.str, ← stringAt_drop h, State.bytes, State.bytes, drop_drop]
  rfl

theorem str_of_nul (h : s.byte p = some 0) : s.str p = [] := by
  rw [State.str, bytes_eq_cons h]
  rfl

theorem str_of_ne_nul (h : s.byte p = some x) (hx : x ≠ 0) : s.str p = x :: s.str (p.add 1) := by
  rw [State.str, bytes_eq_cons h, stringAt_cons hx]
  rfl

theorem byte_of_str {text : Bytes} (h : s.str p = x :: text) : s.byte p = some x ∧ x ≠ 0 := by
  rw [← head?_bytes]
  rw [State.str] at h
  cases hbytes : s.bytes p with
  | nil => rw [hbytes] at h; cases h
  | cons y l =>
    rw [hbytes] at h
    have hy : y ≠ 0 := by
      rintro rfl
      cases h
    rw [stringAt_cons hy] at h
    cases h
    exact ⟨rfl, hy⟩

theorem peek_eq_some : peek p s = (some x, s') ↔ s.byte p = some x ∧ s = s' := by
  show there ((s.bytes p).head?.elim (.error (.past p.block)) .ok) s = _ ↔ _
  rw [head?_bytes]
  cases s.byte p with
  | none => exact iff_of_false (fun h ↦ nomatch congrArg Prod.fst h) fun h ↦ nomatch h.1
  | some y =>
    show (some y, s) = (some x, s') ↔ _
    rw [Prod.mk.injEq, Option.some.injEq]

/-! ### What is printed -/

/-- A text is justified while there is a NUL behind it in memory, and the memory is what it was. -/
def Prints (c : Cst) (trailing : Bool) (text : Bytes) (s s' : State) : Prop :=
  s'.mem = s.mem ∧ ∃ save mem, justify save text (State.pad { s with mem := mem } c.pad) c.size
    c.info trailing { s with mem := mem } = (some .unit, { s' with mem := mem })

theorem addSegment_run {done : ℕ} (hdone : done ≤ (s.str p).length)
    (h : addSegment c p done trailing s = (some .unit, s')) :
    Prints c trailing ((s.str p).take done) s s' := by
  obtain ⟨save, t, htake, hjustify⟩ := bind_eq_some.1 h
  obtain ⟨_, _, hpeek, hpoke⟩ := bind_eq_some.1 htake
  obtain ⟨hbyte, rfl⟩ := peek_eq_some.1 hpeek
  cases hpoke
  obtain ⟨_, _, ⟨⟩, hread⟩ := bind_eq_some.1 hjustify
  obtain ⟨_, _, hrun, hback⟩ := bind_eq_some.1 hread
  cases hback
  obtain ⟨_, _, ⟨⟩, hadd⟩ := bind_eq_some.1 hrun
  obtain ⟨cs, rfl, -⟩ := adds_addJustified _ _ _ _ _ _ _ hadd
  refine ⟨poke_poke hbyte, save, (s.poke (p.add done) 0).mem, ?_⟩
  exact (segment_eq hdone : s.segment p done = _) ▸ hrun

/-- **Where a string goes on**, if there is a character, and one behind it. -/
theorem nextSegment_run {completed : Bool} (h : nextSegment p s = (some (q, completed), s')) :
    s' = s ∧ (completed = true ∧ (s.str p = [] ∨ ∃ x, s.str p = [x]) ∨
      completed = false ∧ ∃ y l, s.str q = y :: l ∧ s.str p = s.before q :: y :: l) := by
  obtain ⟨x, _, hpeek, hnext⟩ := bind_eq_some.1 h
  obtain ⟨hbyte, rfl⟩ := peek_eq_some.1 hpeek
  split at hnext
  next hx =>
    cases hnext
    exact ⟨rfl, .inl ⟨rfl, .inl (str_of_nul (hx ▸ hbyte))⟩⟩
  next hx =>
    obtain ⟨y, _, hpeek', hend⟩ := bind_eq_some.1 hnext
    obtain ⟨hbyte', rfl⟩ := peek_eq_some.1 hpeek'
    cases hend
    refine ⟨rfl, ?_⟩
    rw [str_of_ne_nul hbyte hx]
    by_cases hy : y = 0
    · refine .inl ⟨decide_eq_true hy, .inr ⟨x, ?_⟩⟩
      rw [str_of_nul (hy ▸ hbyte')]
    · have hbefore : s.before (p.add 1) = x := by
        rw [State.before, if_neg (show (p.add 1).offset ≠ 0 from Nat.succ_ne_zero p.offset)]
        show (s.mem p.block).getD p.offset 0 = x
        rw [List.getD_eq_getElem?_getD]
        exact congrArg (·.getD 0) hbyte
      rw [hbefore, str_of_ne_nul hbyte' hy]
      exact .inr ⟨decide_eq_false hy, y, _, rfl, rfl⟩

theorem addText_run {cs : Bytes} (h : addText cs s = (some .unit, s')) :
    s'.mem = s.mem ∧ s'.buff = s.buff ++ cs := by
  obtain ⟨_, _, ⟨⟩, hadd⟩ := bind_eq_some.1 h
  obtain ⟨-, rfl⟩ := (addChars_iff cs).1 hadd
  exact ⟨rfl, rfl⟩

/-! ### Columns -/

theorem restOfLine_stringAt (l : Bytes) : restOfLine (stringAt l) = restOfLine l := by
  induction l with
  | nil => rfl
  | cons c l ih =>
    by_cases hc : c = 0
    · subst hc
      rfl
    · rw [stringAt_cons hc, restOfLine_cons, restOfLine_cons, ih]

theorem lastBlank_congr {text text' : Bytes} {n : ℕ}
    (h : ∀ i ≤ n, text.getD i 0 = text'.getD i 0) : lastBlank text n = lastBlank text' n := by
  induction n with
  | zero => rfl
  | succ n ih =>
    rw [lastBlank, lastBlank, h (n + 1) le_rfl, ih fun i hi ↦ h i (Nat.le_succ_of_le hi)]

theorem columnBreak_stringAt (prec : ℕ) (l : Bytes) :
    columnBreak prec (stringAt l) = columnBreak prec l := by
  rw [columnBreak_eq, columnBreak_eq, restOfLine_stringAt]
  split
  next => rfl
  next hlong =>
    have hsame : ∀ i ≤ prec, (stringAt l).getD i 0 = l.getD i 0 := by
      intro i hi
      have hlt : i < (stringAt l).length :=
        (hi.trans_lt (Nat.lt_of_not_le hlong)).trans_le (length_restOfLine_le l)
      have happend : stringAt l ++ l.dropWhile (· ≠ 0) = l := takeWhile_append_dropWhile
      rw [← congrArg (·.getD i 0) happend, List.getD_eq_getElem?_getD, List.getD_eq_getElem?_getD,
        List.getElem?_append_left hlt]
    rw [lastBlank_congr hsame]

/-- **One call of `add_column`** is one segment. -/
theorem addColumn_run {ret : ℕ} (h : addColumn c p next trailing s = (some (ret, q), s')) :
    Prints c (trailing || next) (columnSegment c.prec.toNat (s.str p)) s s' ∧
      ∀ fuel, columnSegments c.prec.toNat (fuel + 1) (s.str p) =
        if ret = 0 then
          (columnSegments c.prec.toNat fuel (nextLine (s'.before q) (s'.str q))).map
            (columnSegment c.prec.toNat (s.str p) :: ·)
        else some [columnSegment c.prec.toNat (s.str p)] := by
  obtain ⟨_, _, ⟨⟩, hread⟩ := bind_eq_some.1 h
  obtain ⟨_, t, hsegment, hnext⟩ := bind_eq_some.1 hread
  obtain ⟨⟨q', completed⟩, _, hnext, hret⟩ := bind_eq_some.1 hnext
  obtain ⟨rfl, hgoes⟩ := nextSegment_run hnext
  cases hret
  have hbreak : columnBreak c.prec.toNat (s.bytes p) ≤ (s.str p).length :=
    (columnBreak_le_length _ _).trans (length_restOfLine_le _)
  have hprints := addSegment_run hbreak hsegment
  rw [← columnBreak_stringAt, ← State.str] at hprints hbreak hgoes
  refine ⟨hprints, fun fuel ↦ ?_⟩
  rw [str_congr hprints.1] at hgoes
  rw [columnSegments, ← str_add hbreak]
  rcases hgoes with ⟨rfl, hend⟩ | ⟨rfl, y, l, hq, hrest⟩
  · have hret : (if s'.before q = NEWLINE then 2 else 1) ≠ 0 := by
      split <;> decide
    rw [if_pos rfl, if_neg hret]
    rcases hend with hrest | ⟨x, hrest⟩ <;> rw [hrest]
  · rw [hrest, hq]
    rfl

/-- **Where a column goes on**: behind the blanks, if it is not at the beginning of a line. -/
theorem str_add_blanks (s : State) (p : Ptr) :
    s.str (p.add (if s.before p = NEWLINE then 0
      else ((s.bytes p).takeWhile (· = SPACE)).length)) = nextLine (s.before p) (s.str p) := by
  rw [nextLine]
  split
  next => rfl
  next =>
    rw [str_add (length_takeWhile_space_le (s.bytes p)), State.str]
    induction s.bytes p with
    | nil => rfl
    | cons c l ih =>
      by_cases hc : c = SPACE
      · subst hc
        exact ih
      · rw [takeWhile_cons_of_neg (by simp [hc])]
        by_cases hnul : c = 0
        · subst hnul
          rfl
        · rw [stringAt_cons hnul, dropWhile_cons_of_neg (by simp [hc])]
          rfl

/-- **One round of a column**: `add_column` is called for what is left of it. -/
theorem columnRound_run {stat stat' : ℕ} {csts csts' : List Cst} (hc : c.d = .col p)
    (h : columnRound stat (c :: csts) s = (some (stat', csts'), s')) :
    ∃ (t u : State) (r q : Ptr) (ret : ℕ) (left : List Cst),
      t.str r = nextLine (s.before p) (s.str p) ∧
        addColumn c r (!csts.isEmpty) false t = (some (ret, q), u) ∧
          columnRound ret csts u = (some (stat', left), s') ∧
            csts' = if ret = 0 then { c with d := .col q } :: left else left := by
  obtain ⟨d, pad, start, size, prec, info⟩ := c
  obtain rfl : d = .col p := hc
  -- the blanks in front of the column, the call for it, the other columns
  obtain ⟨_, _, ⟨⟩, hstart⟩ := bind_eq_some.1 h
  obtain ⟨_, t, hblanks, hcalls⟩ := bind_eq_some.1 hstart
  obtain ⟨_, _, ⟨⟩, hadd⟩ := bind_eq_some.1 hblanks
  obtain ⟨⟨ret, q⟩, u, hcolumn, hrest⟩ := bind_eq_some.1 hcalls
  obtain ⟨⟨_, left⟩, _, hround, hend⟩ := bind_eq_some.1 hrest
  cases hend
  have hmem : t.mem = s.mem := (addText_run hadd).1
  exact ⟨t, u, _, q, ret, left, (str_congr hmem _).trans (str_add_blanks s p), hcolumn, hround, rfl⟩

/-! ### Rows -/

/-- The strings of the columns of a table. -/
def State.cells (s : State) (tab : List (Option Ptr)) : List (Option Bytes) :=
  tab.map fun entry ↦ entry.map s.str

theorem cells_congr (h : s'.mem = s.mem) (tab : List (Option Ptr)) : s'.cells tab = s.cells tab :=
  map_congr_left fun entry _ ↦ congrArg (entry.map ·) (funext (str_congr h))

/-- Words are printed one after the other. -/
inductive PrintsRow (c : Cst) : List Bytes → State → State → Prop where
  | nil (s : State) : PrintsRow c [] s s
  | cons {trailing : Bool} {word : Bytes} {words : List Bytes} {s t s' : State} :
    Prints c trailing word s t → PrintsRow c words t s' → PrintsRow c (word :: words) s s'

theorem PrintsRow.mem_eq {words : List Bytes} (h : PrintsRow c words s s') :
    s'.mem = s.mem := by
  induction h with
  | nil => rfl
  | cons hprints _ ih => exact ih.trans hprints.1

/-- The loop of `add_table` prints the words of a row that are left. -/
theorem addTableColumns_run {nocols k : ℕ} {tab : List (Option Ptr)} :
    ∀ {i : ℕ} {tab' : List (Option Ptr)} {s s' : State},
      addTableColumns c nocols next trailing i tab s = (some (tab', k), s') →
        ∃ row, tableRow (nocols - i) (s.cells tab) = (row, s.cells tab') ∧
          PrintsRow c row s s' ∧ k = i + row.length := by
  induction tab with
  | nil =>
    intro i tab' s s' h
    rw [addTableColumns] at h
    split at h
    next => cases h
    next hi =>
      cases h
      rw [Nat.sub_eq_zero_of_le (Nat.not_lt.1 hi)]
      exact ⟨[], rfl, .nil s, rfl⟩
  | cons entry tab ih =>
    intro i tab' s s' h
    cases entry with
    | none =>
      cases h
      refine ⟨[], ?_, .nil s, rfl⟩
      cases nocols - k <;> rfl
    | some p =>
      rw [addTableColumns] at h
      split at h
      next hi =>
        obtain ⟨_, _, ⟨⟩, hread⟩ := bind_eq_some.1 h
        obtain ⟨_, t, hsegment, hnext⟩ := bind_eq_some.1 hread
        obtain ⟨⟨q, completed⟩, _, hnext, hrest⟩ := bind_eq_some.1 hnext
        obtain ⟨rfl, hgoes⟩ := nextSegment_run hnext
        obtain ⟨⟨tab₁, k₁⟩, _, hrest, hret⟩ := bind_eq_some.1 hrest
        cases hret
        have hdone : (restOfLine (s.bytes p)).length ≤ (s.str p).length := length_restOfLine_le _
        have hprints := addSegment_run hdone hsegment
        rw [← restOfLine_stringAt, ← State.str] at hprints hgoes hdone
        have hword : (s.str p).take (restOfLine (s.str p)).length = restOfLine (s.str p) :=
          (prefix_iff_eq_take.1 ( takeWhile_prefix _)).symm
        rw [hword] at hprints
        obtain ⟨row, hrow, hprintsRow, rfl⟩ := ih hrest
        rw [cells_congr hprints.1, cells_congr hprints.1] at hrow
        refine ⟨restOfLine (s.str p) :: row, ?_, .cons hprints hprintsRow, ?_⟩
        · obtain ⟨n, hn⟩ : ∃ n, nocols - i = n + 1 := ⟨nocols - (i + 1), by omega⟩
          have hn' : nocols - (i + 1) = n := by omega
          rw [hn'] at hrow
          have hcell : nextCell (s.str p) = (if completed then none else some q).map s.str := by
            rw [nextCell, ← str_add hdone]
            rw [str_congr hprints.1, str_congr hprints.1 q] at hgoes
            rcases hgoes with ⟨rfl, hend⟩ | ⟨rfl, y, l, hq, hrest⟩
            · rcases hend with hrest | ⟨x, hrest⟩ <;> rw [hrest] <;> rfl
            · rw [hrest]
              exact congrArg some hq.symm
          rw [hn]
          show tableRow (n + 1) (some (s.str p) :: s.cells tab) = _
          rw [tableRow, hrow, hcell]
          rfl
        · rw [length_cons]
          omega
      next hi =>
        cases h
        rw [Nat.sub_eq_zero_of_le (Nat.not_lt.1 hi)]
        exact ⟨[], rfl, .nil s, rfl⟩

theorem addTable_end {tab : List (Option Ptr)} {left : Option (List (Option Ptr))}
    (h : (match tab with
      | some p :: tab => pure (some (some p :: tab))
      | none :: _ => pure none
      | [] => halt .fault : Print (Option (List (Option Ptr)))) s = (some left, s')) :
    s = s' ∧ ∃ entry rest, tab = entry :: rest ∧ left = entry.map fun p ↦ some p :: rest := by
  rcases tab with - | ⟨- | p, tab⟩ <;> cases h <;> exact ⟨rfl, _, _, rfl, rfl⟩

/-- **One call of `add_table`** is one row, with blanks behind it in the place of the columns that
are at their ends. -/
theorem addTable_run {nocols : ℕ} {tab : List (Option Ptr)} {left : Option (List (Option Ptr))}
    (h : addTable c nocols tab next trailing s = (some left, s')) :
    ∃ row t, PrintsRow c row s t ∧ s'.buff = t.buff ++
        replicate (if trailing then (nocols - row.length) * c.size.toNat else 0) SPACE ∧
      ∀ fuel, tableRows nocols (fuel + 1) (s.cells tab) = left.elim (some [row]) fun tab ↦
        (tableRows nocols fuel (s'.cells tab)).map (row :: ·) := by
  obtain ⟨⟨tab', k⟩, t, hcolumns, hblanks⟩ := bind_eq_some.1 h
  obtain ⟨row, hrow, hprints, hk⟩ := addTableColumns_run hcolumns
  rw [Nat.sub_zero] at hrow
  rw [Nat.zero_add] at hk
  subst hk
  obtain ⟨hmem, hbuff, entry, rest, rfl, rfl⟩ : s'.mem = t.mem ∧ s'.buff = t.buff ++
      replicate (if trailing then (nocols - row.length) * c.size.toNat else 0) SPACE ∧
        ∃ entry rest, tab' = entry :: rest ∧ left = entry.map fun p ↦ some p :: rest := by
    cases trailing with
    | true =>
      obtain ⟨_, t', hadd, hleft⟩ := bind_eq_some.1 hblanks
      obtain ⟨hmem, hbuff⟩ := addText_run hadd
      obtain ⟨rfl, hrest⟩ := addTable_end hleft
      exact ⟨hmem, hbuff, hrest⟩
    | false =>
      obtain ⟨rfl, hleft⟩ := addTable_end hblanks
      exact ⟨rfl, (append_nil _).symm, hleft⟩
  refine ⟨row, t, hprints, hbuff, fun fuel ↦ ?_⟩
  rw [tableRows, hrow, ← cells_congr (hmem.trans hprints.mem_eq)]
  cases entry <;> rfl

/-! ### The columns that a table begins with -/

theorem writeNul_run {isClean : Bool} (h : writeNul isClean p s = (some .unit, s')) :
    s'.mem = (s.poke p 0).mem := by
  rw [writeNul] at h
  split at h
  next => cases h; rfl
  next =>
    obtain ⟨x, _, hpeek, hsave⟩ := bind_eq_some.1 h
    obtain ⟨-, rfl⟩ := peek_eq_some.1 hpeek
    obtain ⟨_, _, ⟨⟩, hpoke⟩ := bind_eq_some.1 hsave
    cases hpoke
    rfl

theorem le_of_mem_tableBreaks {len : ℕ} {text : Bytes} : ∀ {cols n fs b : ℕ},
    b ∈ tableBreaks len cols n fs text → fs ≤ b := by
  induction text with
  | nil =>
    intro cols n fs b hb
    cases cols <;> cases hb
  | cons c text ih =>
    intro cols n fs b hb
    cases cols with
    | zero => cases hb
    | succ cols =>
      rw [tableBreaks] at hb
      split_ifs at hb with hc hlen
      · exact (Nat.le_succ fs).trans (ih hb)
      · rcases mem_cons.1 hb with rfl | hb
        · exact le_rfl
        · exact (Nat.le_succ fs).trans (ih hb)
      · exact (Nat.le_succ fs).trans (ih hb)

section Cutting

variable {isClean : Bool} {len : ℕ}

theorem mem_poke_add (s : State) (p : Ptr) (k : ℕ) :
    (s.poke (p.add k) 0).mem p.block = (s.mem p.block).set (p.offset + k) 0 :=
  update_self _ _ _

theorem byte_forM_writeNul {k : ℕ} {breaks : List ℕ} : ∀ {s : State}, k ∉ breaks →
    breaks.forM (fun b ↦ writeNul isClean (p.add b)) s = (some .unit, s') →
      s'.byte (p.add k) = s.byte (p.add k) := by
  induction breaks with
  | nil =>
    rintro s - h
    cases h
    rfl
  | cons b breaks ih =>
    intro s hk h
    rw [mem_cons, not_or] at hk
    obtain ⟨_, t, hwrite, hrest⟩ := bind_eq_some.1 h
    rw [ih hk.2 hrest, State.byte, State.byte, writeNul_run hwrite]
    show (State.mem _ p.block)[p.offset + k]? = _
    rw [mem_poke_add, List.getElem?_set_ne (by omega)]
    rfl

/-- **Where a table is cut** there are its columns in memory. -/
theorem forM_writeNul_run {text : Bytes} : ∀ {cols n fs : ℕ} {s : State},
    s.str (p.add fs) = text →
      (tableBreaks len cols n fs text).forM (fun b ↦ writeNul isClean (p.add b)) s =
        (some .unit, s') →
      s'.str (p.add fs) :: (tableBreaks len cols n fs text).map (fun b ↦ s'.str (p.add (b + 1))) =
        tableColumns len cols n text := by
  induction text with
  | nil =>
    intro cols n fs s hstr h
    cases cols <;> cases h <;> exact congrArg ([·]) hstr
  | cons c text ih =>
    intro cols n fs s hstr h
    cases cols with
    | zero =>
      cases h
      exact congrArg ([·]) hstr
    | succ cols =>
      obtain ⟨hbyte, hc⟩ := byte_of_str hstr
      have hrest : s.str (p.add (fs + 1)) = text := by
        rw [str_of_ne_nul hbyte hc] at hstr
        exact (cons.inj hstr).2
      -- a character that is left is in front of its column
      have hleft {n : ℕ} (h : (tableBreaks len (cols + 1) n (fs + 1) text).forM
          (fun b ↦ writeNul isClean (p.add b)) s = (some .unit, s')) :
          s'.str (p.add fs) :: (tableBreaks len (cols + 1) n (fs + 1) text).map
            (fun b ↦ s'.str (p.add (b + 1))) =
              (tableColumns len (cols + 1) n text).modifyHead (c :: ·) := by
        have hkept := byte_forM_writeNul (fun hb ↦ Nat.not_succ_le_self fs
          (le_of_mem_tableBreaks hb)) h
        rw [← ih hrest h, modifyHead_cons, str_of_ne_nul (hkept.trans hbyte) hc]
        rfl
      rw [tableBreaks] at h ⊢
      rw [tableColumns]
      split_ifs at h ⊢ with hnewline hlen
      · exact hleft h
      · obtain ⟨_, t, hwrite, hforM⟩ := bind_eq_some.1 h
        have hmem := writeNul_run hwrite
        have hstr' : t.str (p.add (fs + 1)) = text := by
          rw [← hrest, State.str, State.bytes, hmem]
          show stringAt (drop (p.offset + (fs + 1)) (State.mem _ p.block)) = _
          rw [mem_poke_add, drop_set_of_lt (by omega)]
          rfl
        have hnul : s'.byte (p.add fs) = some 0 := by
          rw [byte_forM_writeNul (fun hb ↦ Nat.not_succ_le_self fs (le_of_mem_tableBreaks hb))
            hforM, State.byte, hmem]
          show (State.mem _ p.block)[p.offset + fs]? = _
          rw [mem_poke_add]
          exact List.getElem?_set_self (List.getElem?_eq_some_iff.1 hbyte).1
        rw [map_cons, ih hstr' hforM, str_of_nul hnul]
      · exact hleft h

end Cutting

/-- **A new table** begins with the columns that its string is cut into. -/
theorem addNewTable_run {isClean : Bool} {spec spec' : Spec} {left : Option Cst}
    (h : addNewTable p isClean spec trailing s = (some (spec', left), s')) :
    let nocols := (tableDims (s.str p) spec.fs.toNat spec.prec.toNat).2 % 2 ^ 16
    ∃ (c : Cst) (tab : List (Option Ptr)) (t : State) (left' : Option (List (Option Ptr))),
      t.cells tab = (tableLayout (s.str p) spec.fs.toNat spec.prec.toNat).map some ∧
        addTable c nocols tab false trailing t = (some left', s') ∧
          left = left'.map fun tab ↦ { c with d := .tab nocols tab } := by
  obtain ⟨_, _, ⟨⟩, hread⟩ := bind_eq_some.1 h
  obtain ⟨_, t, hbreaks, hrest⟩ := bind_eq_some.1 hread
  obtain ⟨left', _, hadd, hleft⟩ := bind_eq_some.1 hrest
  cases hleft
  have hcut : t.str p :: _ = tableLayout (s.str p) spec.fs.toNat spec.prec.toNat :=
    @forM_writeNul_run t p isClean _ _ _ 0 0 s rfl hbreaks
  refine ⟨_, _, t, left', ?_, hadd, rfl⟩
  rw [← hcut, map_cons, map_map]
  show some (t.str p) :: map _ (map _ _) = _
  rw [map_map]
  rfl

end Lpmud.Sprintf
