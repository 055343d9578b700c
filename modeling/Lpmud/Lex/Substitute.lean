import Lpmud.Lex.Expand

/-!
# What a macro call is replaced by

How the definition of a macro and a call of it are written, and the text that the call stands for:
each identifier of the text of the macro that is a parameter is replaced by the argument, and
everything else is left as it is (`Expanded`).

Without an error `handle_define` and `expand_define` agree with that. The text of a macro is stored
line by line as `encodeLine` says (`returns_textOf`), and read back from it with the arguments in
place (`returns_expand`).
-/

namespace Lpmud.Lex.Macro

open List Checked

/-! ### The description -/

/-- A text with what `f` makes of each identifier (the first one begins with `ids`) and `g` of each
other character. -/
def mapText (f : Bytes → Bytes) (g : UInt8 → Bytes) :
    (ids line : Bytes) → Bytes
  | ids, [] => f ids
  | ids, c :: line =>
    if isAlunum c then mapText f g (ids ++ [c]) line
    else f ids ++ g c ++ mapText f g [] line

/-- The argument for an identifier that is a parameter, and the identifier itself for another. -/
def substId (params args : List Bytes) (ids : Bytes) : Bytes :=
  if ids = [] then [] else (((params.zip args).lookup ids).map asString).getD ids

/-- A line with each parameter replaced by the argument. -/
def substLine (params args : List Bytes) (line : Bytes) : Bytes :=
  mapText (substId params args) ([·]) [] line

/-- The text of a macro: the line, and the next one for a backslash at its end. An identifier does
not go on there. -/
def pieces : (lines : List Line) → (line : Bytes) → List Bytes
  | lines, line =>
    if line.getLast? = some BACKSLASH then
      line.dropLast ::
        match lines with
        | [] => [[]]
        | l :: lines => pieces lines l.text
    else [line]

/-- A name. -/
def IsName (name : Bytes) : Prop :=
  ∀ c ∈ name, isAlunum c = true

/-- Names with commas between them, and blanks anywhere. -/
inductive ParamText : List Bytes → Bytes → Prop
  | last {name w w' : Bytes} :
      Blank w → IsName name → Blank w' → ParamText [name] (w ++ name ++ w')
  | more {name w w' text : Bytes} {names : List Bytes} :
      Blank w → IsName name → Blank w' → ParamText names text →
        ParamText (name :: names) (w ++ name ++ w' ++ COMMA :: text)

/-- The parameter list behind the `(`, and `line` behind it. -/
inductive ListText : List Bytes → (p line : Bytes) → Prop
  | empty {w line : Bytes} : Blank w → ListText [] (w ++ RPAREN :: line) line
  | names {names : List Bytes} {text line : Bytes} :
      ParamText names text → ListText names (text ++ RPAREN :: line) line

/-- How a definition is written: the parameters, if there is a list of them, and the rest of the
line. -/
inductive Written : Option (List Bytes) → (line yyt : Bytes) → Prop
  | object {name line : Bytes} :
      IsName name → (∀ c ∈ line.head?, isAlunum c = false ∧ c ≠ LPAREN) →
        Written none line (name ++ line)
  | function {name p line : Bytes} {params : List Bytes} :
      IsName name → ListText params p line → Written (some params) line (name ++ LPAREN :: p)

/-- Where a character of an argument is: outside of quotes, inside of them or there behind a
backslash, and in how many parentheses. -/
inductive Nesting where
  | outside (parcnt : ℕ)
  | inside (quote : UInt8) (parcnt : ℕ)
  | escaped (quote : UInt8) (parcnt : ℕ)

/-- Where the next character is. There is none behind the end of the argument. -/
def nest : Nesting → UInt8 → Option Nesting
  | .outside parcnt, c =>
    if c = COMMA ∧ parcnt = 0 ∨ c = RPAREN ∧ parcnt = 0 then none
    else if c = QUOTE ∨ c = APOSTROPHE then some (.inside c parcnt)
    else if c = LPAREN then some (.outside (parcnt + 1))
    else if c = RPAREN then some (.outside (parcnt - 1))
    else some (.outside parcnt)
  | .inside quote parcnt, c =>
    if c = BACKSLASH then some (.escaped quote parcnt)
    else if c = NEWLINE then none
    else if c = quote then some (.outside parcnt)
    else some (.inside quote parcnt)
  | .escaped quote parcnt, _ => some (.inside quote parcnt)

/-- An argument: all its quotes and parentheses are closed, and there is no comma outside of
them. -/
def IsArg (arg : Bytes) : Prop :=
  arg.foldlM nest (.outside 0) = some (.outside 0)

/-- How the arguments of a call are written, with `rest` behind the `)`. -/
inductive Called : (args : List Bytes) → (input rest : Bytes) → Prop
  | empty {input p rest : Bytes} :
      input.dropWhile isSpace = LPAREN :: p → p.dropWhile isSpace = RPAREN :: rest →
        Called [] input rest
  | args {input p rest arg : Bytes} {args : List Bytes} :
      input.dropWhile isSpace = LPAREN :: p →
        p.dropWhile isSpace = args.flatMap (· ++ [COMMA]) ++ arg ++ RPAREN :: rest →
        (∀ a ∈ args, IsArg a) → IsArg arg → Called (args ++ [arg]) input rest

/-- **What a call is replaced by**: in the place of `input` there is `text`, and then `rest`. -/
inductive Expanded (yyt : Bytes) (lines : List Line) :
    (input text rest : Bytes) → Prop
  | object {line input : Bytes} :
      Written none line yyt → Expanded yyt lines input (pieces lines line).flatten input
  | function {line input rest : Bytes} {params args : List Bytes} :
      Written (some params) line yyt → Called args input rest → args.length = params.length →
        Expanded yyt lines input ((pieces lines line).flatMap (substLine params args)) rest

/-! ### The text as it is stored -/

/-- An identifier in the text of a macro: a parameter is the marker and a letter. -/
def encodeId (params : List Bytes) (ids : Bytes) : Bytes :=
  if ids = [] then []
  else
    match params.findIdx? (· = ids) with
    | none => ids
    | some n => [MARKS, UInt8.ofNat (n + 64 + 1)]

/-- Another character: the marker is doubled. -/
def encodeChar (c : UInt8) : Bytes :=
  if c = MARKS then [MARKS, MARKS] else [c]

/-- A line of the text of a macro. -/
def encodeLine (params : List Bytes) (line : Bytes) : Bytes :=
  mapText (encodeId params) encodeChar [] line

theorem mapText_append {f : Bytes → Bytes} {g : UInt8 → Bytes} (hf : f [] = [])
    {c : UInt8} (hc : isAlunum c = false) (line : Bytes) :
    ∀ ids, mapText f g ids (line ++ [c]) = mapText f g ids line ++ g c := by
  induction line with
  | nil =>
    intro ids
    show (if isAlunum c then f (ids ++ [c]) else f ids ++ g c ++ f []) = f ids ++ g c
    rw [if_neg (by rw [hc]; exact Bool.false_ne_true), hf, append_nil]
  | cons d line ih =>
    intro ids
    rw [cons_append, mapText, mapText]
    split
    · exact ih _
    · rw [ih, append_assoc, append_assoc, append_assoc]

theorem encodeId_nil (params : List Bytes) : encodeId params [] = [] :=
  if_pos rfl

theorem not_isAlunum_marks : isAlunum MARKS = false := rfl

theorem returns_endId (params : List Bytes) (r ids : Bytes) :
    (endId params ⟨r ++ ids, ids⟩).Returns (· = ⟨r ++ encodeId params ids, []⟩) := by
  rw [endId, encodeId]
  split
  next h =>
    obtain rfl := h
    exact returns_pure rfl
  next h =>
    cases params.findIdx? (· = ids) with
    | none => exact returns_pure rfl
    | some n =>
      refine (returns_write (q := fun _ ↦ True) trivial).bind fun _ _ ↦
        (returns_write (q := fun _ ↦ True) trivial).bind fun _ _ ↦ returns_pure ?_
      rw [length_append, Nat.add_sub_cancel_right, take_left]

theorem returns_putText (q ids : Bytes) (c : UInt8) :
    (putText ⟨q, ids⟩ c).Returns (· = ⟨q ++ encodeChar c, ids⟩) := by
  rw [putText, encodeChar]
  refine (returns_write (q := fun _ ↦ True) trivial).bind fun _ _ ↦ ?_
  split
  · refine (returns_write (q := fun _ ↦ True) trivial).bind fun _ _ ↦ ?_
    split
    · exact returns_pure rfl
    · exact returns_fail
  · split
    · exact returns_pure rfl
    · exact returns_fail

theorem encodeChar_alunum {c : UInt8} (hc : isAlunum c = true) : encodeChar c = [c] := by
  refine if_neg ?_
  rintro rfl
  exact Bool.false_ne_true (not_isAlunum_marks.symm.trans hc)

theorem returns_bodyChar_alunum (params : List Bytes) (q ids : Bytes) {c : UInt8}
    (hc : isAlunum c = true) :
    (bodyChar params ⟨q, ids⟩ c).Returns (· = ⟨q ++ [c], ids ++ [c]⟩) := by
  rw [bodyChar, if_pos hc, ← encodeChar_alunum hc]
  exact returns_putText q (ids ++ encodeChar c) c

theorem returns_bodyChar (params : List Bytes) (r ids : Bytes) {c : UInt8}
    (hc : isAlunum c = false) :
    (bodyChar params ⟨r ++ ids, ids⟩ c).Returns
      (· = ⟨r ++ encodeId params ids ++ encodeChar c, []⟩) := by
  rw [bodyChar, if_neg (by rw [hc]; exact Bool.false_ne_true)]
  refine (returns_endId params r ids).bind ?_
  rintro _ rfl
  exact returns_putText _ [] c

theorem returns_plainChar (q : Bytes) (c : UInt8) :
    (plainChar ⟨q, []⟩ c).Returns (· = ⟨q ++ [c], []⟩) := by
  refine (returns_write (q := fun _ ↦ True) trivial).bind fun _ _ ↦ ?_
  split
  · exact returns_pure rfl
  · exact returns_fail

/-- What is asked of the step for a character: a line is stored as `enc` says. -/
structure Encodes (step : Body → UInt8 → Checked Body) (enc : Bytes → Bytes) : Prop where
  /-- The blank at the end of the line ends an identifier. -/
  line : ∀ q line, ((line ++ [SPACE]).foldlM step ⟨q, []⟩).Returns
    (· = ⟨q ++ enc line ++ [SPACE], []⟩)
  /-- `q -= 2` takes a backslash back. -/
  back : ∀ line, enc (line ++ [BACKSLASH]) = enc line ++ [BACKSLASH]
  nil : enc [] = []

theorem encodes_plainChar : Encodes plainChar id where
  line q line := by
    refine (@returns_foldlM _ _ _ (fun done s ↦ s = ⟨q ++ done, []⟩) ?_ _ [] _ ?_).mono ?_
    · rintro done c _ rfl
      rw [← append_assoc]
      exact returns_plainChar _ c
    · rw [append_nil]
    · rintro _ rfl
      rw [nil_append, id_eq, append_assoc]
  back _ := rfl
  nil := rfl

theorem returns_bodyChar_line (params : List Bytes) (line : Bytes) :
    ∀ r ids, ((line ++ [SPACE]).foldlM (bodyChar params) ⟨r ++ ids, ids⟩).Returns
      (· = ⟨r ++ mapText (encodeId params) encodeChar ids line ++ [SPACE], []⟩) := by
  induction line with
  | nil =>
    intro r ids
    refine (returns_bodyChar params r ids (c := SPACE) rfl).bind ?_
    rintro _ rfl
    exact returns_pure rfl
  | cons c line ih =>
    intro r ids
    rw [cons_append, foldlM_cons, mapText]
    cases hc : isAlunum c with
    | true =>
      refine (returns_bodyChar_alunum params _ ids hc).bind ?_
      rintro _ rfl
      rw [append_assoc, if_pos rfl]
      exact ih r (ids ++ [c])
    | false =>
      refine (returns_bodyChar params r ids hc).bind ?_
      rintro _ rfl
      have := ih (r ++ encodeId params ids ++ encodeChar c) []
      rw [append_nil] at this
      rw [if_neg Bool.false_ne_true, ← append_assoc, ← append_assoc]
      exact this

theorem encodes_bodyChar (params : List Bytes) :
    Encodes (bodyChar params) (encodeLine params) where
  line q line := by
    have := returns_bodyChar_line params line q []
    rwa [append_nil] at this
  back line := mapText_append (encodeId_nil params) (c := BACKSLASH) rfl line []
  nil := encodeId_nil params

theorem foldlM_line (step : Body → UInt8 → Checked Body) (line : Bytes) (rest : List Meets)
    (s : Body) :
    (line.map Meets.char ++ Meets.char SPACE :: rest).foldlM (bodyStep step) s =
      (line ++ [SPACE]).foldlM step s >>= fun s ↦ rest.foldlM (bodyStep step) s := by
  rw [append_cons, ← map_singleton (f := Meets.char), ← map_append,
    foldlM_append, foldlM_map]
  rfl

theorem back_append (q enc : Bytes) (c d : UInt8) :
    Body.back ⟨q ++ (enc ++ [c]) ++ [d], []⟩ = ⟨q ++ enc, []⟩ := by
  rw [Body.back, ← append_assoc, append_assoc (q ++ enc), length_append]
  exact congrArg (Body.mk · []) (take_left' rfl)

theorem not_getLast_of_ne {prev : UInt8} (hprev : prev ≠ BACKSLASH) (line : Bytes) :
    line.getLast?.getD prev = BACKSLASH ↔ line.getLast? = some BACKSLASH := by
  cases line.getLast? with
  | none => exact iff_of_false hprev nofun
  | some c => exact Option.some_inj.symm

theorem returns_refill {step : Body → UInt8 → Checked Body} {enc : Bytes → Bytes}
    (h : Encodes step enc) (line q : Bytes) (tooLong : Bool) {rest : List Meets}
    {Q : Body → Prop} (hrest : (rest.foldlM (bodyStep step) ⟨q ++ enc line, []⟩).Returns Q) :
    (((line ++ [BACKSLASH]).map Meets.char ++ Meets.char SPACE :: Meets.refill tooLong ::
      rest).foldlM (bodyStep step) ⟨q, []⟩).Returns Q := by
  rw [foldlM_line]
  refine (h.line q _).bind ?_
  rintro _ rfl
  rw [h.back]
  cases tooLong with
  | true =>
    rw [foldlM_cons]
    refine Returns.bind (p := fun _ ↦ False) ?_ nofun
    exact (returns_report (q := fun _ ↦ False)).bind nofun
  | false =>
    show (rest.foldlM (bodyStep step) (Body.back _)).Returns Q
    rwa [back_append]

/-- **The text of a macro is stored line by line.** -/
theorem returns_textOf {step : Body → UInt8 → Checked Body} {enc : Bytes → Bytes}
    (h : Encodes step enc) {before : UInt8} (hbefore : before ≠ BACKSLASH) (lines : List Line) :
    ∀ prev line q, prev ≠ BACKSLASH →
      ((textOf before lines prev line).foldlM (bodyStep step) ⟨q, []⟩).Returns
        (· = ⟨q ++ (pieces lines line).flatMap enc ++ [SPACE], []⟩) := by
  induction lines with
  | nil =>
    intro prev line q hprev
    rw [textOf, pieces]
    simp only [not_getLast_of_ne hprev, if_neg hbefore]
    split
    next hlast =>
      obtain ⟨line, rfl⟩ := List.getLast?_eq_some_iff.1 hlast
      refine returns_refill h line q false ?_
      rw [dropLast_concat]
      have := h.line (q ++ enc line) []
      rw [h.nil, append_nil] at this
      rw [flatMap_cons, flatMap_singleton, h.nil, append_nil]
      exact this
    next =>
      rw [foldlM_line, flatMap_singleton]
      exact (h.line q line).bind fun _ hs ↦ hs ▸ returns_pure rfl
  | cons l lines ih =>
    intro prev line q hprev
    rw [textOf, pieces]
    simp only [not_getLast_of_ne hprev]
    split
    next hlast =>
      obtain ⟨line, rfl⟩ := List.getLast?_eq_some_iff.1 hlast
      refine returns_refill h line q l.tooLong ?_
      rw [dropLast_concat, flatMap_cons, ← append_assoc]
      exact ih before l.text _ hbefore
    next =>
      rw [foldlM_line, flatMap_singleton]
      exact (h.line q line).bind fun _ hs ↦ hs ▸ returns_pure rfl

/-! ### The stored text is read back -/

theorem returns_putChar (b : Bytes) (c : UInt8) : (putChar b c).Returns (· = b ++ [c]) := by
  refine (returns_write (q := fun _ ↦ True) trivial).bind fun _ _ ↦ ?_
  split
  · exact returns_pure rfl
  · exact returns_fail

theorem returns_putChars (l b : Bytes) : (l.foldlM putChar b).Returns (· = b ++ l) := by
  refine @returns_foldlM _ _ _ (fun done s ↦ s = b ++ done) ?_ l [] b ?_
  · rintro done c _ rfl
    rw [← append_assoc]
    exact returns_putChar _ c
  · rw [append_nil]

theorem lookup_zip_none {ids : Bytes} {params args : List Bytes}
    (h : params.findIdx? (· = ids) = none) : (params.zip args).lookup ids = none := by
  rw [List.findIdx?_eq_none_iff] at h
  rw [lookup_eq_none_iff]
  intro p hp
  have := h p.1 (of_mem_zip hp).1
  rw [bne_iff_ne]
  exact fun heq ↦ of_decide_eq_false this heq.symm

theorem lookup_zip_some {ids : Bytes} {params : List Bytes} :
    ∀ {args : List Bytes} {n : ℕ}, args.length = params.length →
      params.findIdx? (· = ids) = some n →
      ∃ arg, args[n]? = some arg ∧ (params.zip args).lookup ids = some arg := by
  induction params with
  | nil => nofun
  | cons p params ih =>
    intro args n hlength h
    cases args with
    | nil => cases hlength
    | cons a args =>
      rw [List.findIdx?_cons] at h
      rw [zip_cons_cons, lookup_cons]
      by_cases heq : p = ids
      · subst heq
        simp at h
        subst h
        exact ⟨a, rfl, by simp⟩
      · simp only [heq, decide_false, Bool.false_eq_true, if_false, Option.map_eq_some_iff] at h
        obtain ⟨m, hm, rfl⟩ := h
        obtain ⟨arg, harg, hlookup⟩ := ih (Nat.succ.inj hlength) hm
        refine ⟨arg, harg, ?_⟩
        rw [beq_false_of_ne (Ne.symm heq)]
        exact hlookup

theorem returns_expand_char (args : List Bytes) (b : Bytes) {c : UInt8}
    (hc : c ≠ MARKS) : (expand args ⟨b, false⟩ c).Returns (· = ⟨b ++ [c], false⟩) := by
  rw [expand, if_neg Bool.false_ne_true, if_neg hc]
  refine (returns_putChar b c).bind ?_
  rintro _ rfl
  exact returns_pure rfl

theorem returns_encodeChar (args : List Bytes) (b : Bytes) (c : UInt8) :
    ((encodeChar c).foldlM (expand args) ⟨b, false⟩).Returns (· = ⟨b ++ [c], false⟩) := by
  rw [encodeChar]
  split
  next h =>
    obtain rfl := h
    show (expand args ⟨b, true⟩ MARKS >>= pure).Returns _
    rw [bind_pure]
    exact (returns_write (q := fun _ ↦ True) trivial).bind fun _ _ ↦ returns_pure rfl
  next h =>
    refine (returns_expand_char args b h).bind ?_
    rintro _ rfl
    exact returns_pure rfl

theorem returns_letter {args : List Bytes} {n : ℕ} {arg : Bytes}
    (harg : args[n]? = some arg) (hn : n < NARGS) (b : Bytes) :
    ([MARKS, UInt8.ofNat (n + 64 + 1)].foldlM (expand args) ⟨b, false⟩).Returns
      (· = ⟨b ++ asString arg, false⟩) := by
  have hletter : (UInt8.ofNat (n + 64 + 1)).toNat = n + 65 :=
    UInt8.toNat_ofNat_of_lt' (by simp only [UInt8.size, NARGS] at hn ⊢; omega)
  have hne : UInt8.ofNat (n + 64 + 1) ≠ MARKS := fun h ↦ by
    have := congrArg UInt8.toNat h
    rw [hletter] at this
    have : n + 65 = 64 := this
    omega
  have hlt : ¬ UInt8.ofNat (n + 64 + 1) < MARKS := fun h ↦ by
    have := UInt8.lt_iff_toNat_lt.1 h
    rw [hletter] at this
    have : n + 65 < 64 := this
    omega
  show (expand args ⟨b, true⟩ _ >>= pure).Returns _
  rw [bind_pure, expand, if_pos rfl, if_neg hne, if_neg hlt, hletter,
    show n + 65 - 64 - 1 = n by omega, harg]
  refine (returns_putChars (asString arg) b).bind ?_
  rintro _ rfl
  exact returns_pure rfl

theorem returns_name (args : List Bytes) {ids : Bytes} (hids : IsName ids)
    (b : Bytes) :
    (ids.foldlM (expand args) ⟨b, false⟩).Returns (· = ⟨b ++ ids, false⟩) := by
  induction ids generalizing b with
  | nil => exact returns_pure (by rw [append_nil])
  | cons c ids ih =>
    have hc : c ≠ MARKS := by
      rintro rfl
      exact Bool.false_ne_true (hids MARKS mem_cons_self)
    refine (returns_expand_char args b hc).bind ?_
    rintro _ rfl
    rw [append_cons b c ids]
    exact ih (fun d hd ↦ hids d (mem_cons_of_mem c hd)) _

section

variable {params args : List Bytes} (hparams : params.length ≤ NARGS)
  (hlength : args.length = params.length)
include hparams hlength

theorem returns_encodeId {ids : Bytes} (hids : IsName ids) (b : Bytes) :
    ((encodeId params ids).foldlM (expand args) ⟨b, false⟩).Returns
      (· = ⟨b ++ substId params args ids, false⟩) := by
  rw [encodeId, substId]
  split
  next => exact returns_pure (by rw [append_nil])
  next =>
    cases h : params.findIdx? (· = ids) with
    | none =>
      rw [lookup_zip_none h]
      exact returns_name args hids b
    | some n =>
      obtain ⟨arg, harg, hlookup⟩ := lookup_zip_some hlength h
      have hn : n < params.length := (List.findIdx?_eq_some_iff_getElem.1 h).1
      rw [hlookup]
      exact returns_letter harg (hn.trans_le hparams) b

theorem returns_mapText (line : Bytes) :
    ∀ ids b, IsName ids →
      ((mapText (encodeId params) encodeChar ids line).foldlM (expand args) ⟨b, false⟩).Returns
        (· = ⟨b ++ mapText (substId params args) ([·]) ids line, false⟩) := by
  induction line with
  | nil => exact fun ids b hids ↦ returns_encodeId hparams hlength hids b
  | cons c line ih =>
    intro ids b hids
    rw [mapText, mapText]
    split
    next hc =>
      refine ih (ids ++ [c]) b fun d hd ↦ ?_
      obtain hd | hd := mem_append.1 hd
      · exact hids d hd
      · exact mem_singleton.1 hd ▸ hc
    next =>
      rw [append_assoc, foldlM_append]
      refine (returns_encodeId hparams hlength hids b).bind ?_
      rintro _ rfl
      rw [foldlM_append]
      refine (returns_encodeChar args _ c).bind ?_
      rintro _ rfl
      rw [← append_assoc, ← append_assoc]
      exact ih [] _ nofun

/-- **The stored text is read back with the arguments in place of the parameters.** -/
theorem returns_expand (lines : List Bytes) :
    ∀ b, ((lines.flatMap (encodeLine params)).foldlM (expand args) ⟨b, false⟩).Returns
      (· = ⟨b ++ lines.flatMap (substLine params args), false⟩) := by
  induction lines with
  | nil => exact fun b ↦ returns_pure (by rw [flatMap_nil, append_nil])
  | cons line lines ih =>
    intro b
    rw [flatMap_cons, flatMap_cons, foldlM_append]
    refine (returns_mapText hparams hlength line [] b nofun).bind ?_
    rintro _ rfl
    rw [← append_assoc]
    exact ih _

end

/-! ### The definition is read as it is written -/

theorem returns_getAlpha (p : Bytes) :
    ∀ q, (getAlpha q p).Returns fun r ↦ ∃ ids, r.1 = q ++ ids ∧ p = ids ++ r.2 ∧ IsName ids ∧
      ∀ c ∈ r.2.head?, isAlunum c = false := by
  induction p with
  | nil =>
    exact fun q ↦ (returns_write (q := fun _ ↦ True) trivial).bind fun _ _ ↦
      returns_pure ⟨[], (append_nil q).symm, rfl, nofun, nofun⟩
  | cons c p ih =>
    intro q
    rw [getAlpha]
    split
    next hc =>
      refine (returns_write (q := fun _ ↦ True) trivial).bind fun _ _ ↦ ?_
      split
      · refine (ih (q ++ [c])).mono ?_
        rintro ⟨name, rest⟩ ⟨ids, hname, hp, hids, hrest⟩
        refine ⟨c :: ids, hname.trans (append_cons q c ids).symm, congrArg (c :: ·) hp, ?_,
          hrest⟩
        exact forall_mem_cons.2 ⟨hc, hids⟩
      · exact returns_fail
    next hc =>
      refine (returns_write (q := fun _ ↦ True) trivial).bind fun _ _ ↦
        returns_pure ⟨[], (append_nil q).symm, rfl, nofun, ?_⟩
      rintro _ ⟨⟩
      exact Bool.eq_false_iff.2 hc

theorem exists_skipWhite (p : Bytes) : ∃ w, Blank w ∧ p = w ++ skipWhite p :=
  exists_blank p

theorem ParamText.blank_append {names : List Bytes} {text w : Bytes}
    (h : ParamText names text) (hw : Blank w) : ParamText names (w ++ text) := by
  cases h with
  | last hw₁ hname hw₂ =>
    rw [← append_assoc, ← append_assoc]
    exact .last (hw.append hw₁) hname hw₂
  | more hw₁ hname hw₂ h =>
    rw [← append_assoc, ← append_assoc, ← append_assoc]
    exact .more (hw.append hw₁) hname hw₂ h

/-- The loop ends at the `)`, or when the table is full. -/
theorem returns_paramLoop (k : ℕ) :
    ∀ args p, args.length + k = NARGS →
      (paramLoop k args p).Returns fun r ↦ r.1.length ≤ NARGS ∧ (r.1.length ≠ NARGS →
        ∃ names text rest, r = (args ++ names, RPAREN :: rest) ∧ ParamText names text ∧
          p = text ++ RPAREN :: rest) := by
  induction k with
  | zero => exact fun args p hk ↦ returns_pure ⟨hk.le, fun h ↦ absurd hk h⟩
  | succ k ih =>
    intro args p hk
    rw [paramLoop]
    refine (returns_write (q := fun _ ↦ True) trivial).bind fun _ _ ↦
      (returns_getAlpha p []).bind ?_
    rintro ⟨name, p'⟩ ⟨_, rfl, rfl, hname, -⟩
    obtain ⟨w, hw, hp'⟩ := exists_skipWhite p'
    dsimp only at hp' ⊢
    split
    next => exact returns_fail
    next c p'' hskip =>
      rw [hskip] at hp'
      split
      next hc =>
        subst hc hp'
        refine returns_pure ⟨by rw [length_append]; simp only [length_singleton]; omega,
          fun _ ↦ ⟨[name], [] ++ name ++ w, p'', rfl, .last nofun hname hw, ?_⟩⟩
        simp only [nil_append, append_assoc]
      next =>
        split
        next hc =>
          subst hc hp'
          obtain ⟨w', hw', hp''⟩ := exists_skipWhite p''
          refine (ih (args ++ [name]) _ (by rw [length_append]; simp; omega)).mono ?_
          rintro r ⟨hle, hr⟩
          refine ⟨hle, fun hne ↦ ?_⟩
          obtain ⟨names, text, rest, rfl, htext, hrest⟩ := hr hne
          refine ⟨name :: names, [] ++ name ++ w ++ COMMA :: (w' ++ text), rest, ?_,
            .more nofun hname hw (htext.blank_append hw'), ?_⟩
          · rw [append_cons args name names]
          · rw [hp'', hrest]
            simp only [nil_append, append_assoc, cons_append]
        next => exact returns_fail

theorem returns_parameters (p : Bytes) :
    (parameters p).Returns fun r ↦ r.1.length ≤ NARGS ∧ ListText r.1 p r.2 := by
  obtain ⟨w, hw, hp⟩ := exists_skipWhite p
  rw [parameters]
  dsimp only
  split
  next h =>
    obtain ⟨rest, hrest⟩ := List.head?_eq_some_iff.1 h
    rw [hrest] at hp ⊢
    exact returns_pure ⟨Nat.zero_le _, hp ▸ .empty hw⟩
  next =>
    refine (returns_paramLoop NARGS [] _ rfl).bind ?_
    rintro ⟨args, p'⟩ ⟨hle, h⟩
    dsimp only
    split
    · exact returns_fail
    next hne =>
      obtain ⟨names, text, rest, heq, htext, hrest⟩ := h hne
      cases heq
      rw [hrest, ← append_assoc] at hp
      exact returns_pure ⟨hle, hp ▸ .names (htext.blank_append hw)⟩

/-! ### The arguments are read as they are written -/

/-- In front of the next character there are `args`, and an argument up to a place where it is in
`nesting`. -/
structure Reading (done : Bytes) (s : Args) (nesting : Nesting) : Prop where
  text : done = s.args.flatMap (· ++ [COMMA]) ++ s.arg
  args : ∀ a ∈ s.args, IsArg a
  arg : s.arg.foldlM nest (.outside 0) = some nesting

/-- What the loop over the arguments has read. -/
def Read (done : Bytes) : Collecting → Prop
  | .outside parcnt s => Reading done s (.outside parcnt)
  | .inside quote parcnt s => Reading done s (.inside quote parcnt)
  | .escaped quote parcnt s => Reading done s (.escaped quote parcnt)
  | .ended args rest => ∃ front arg, args = front ++ [arg] ∧
      done = front.flatMap (· ++ [COMMA]) ++ arg ++ RPAREN :: rest ∧ (∀ a ∈ front, IsArg a) ∧
        IsArg arg

theorem Reading.concat {done : Bytes} {s : Args} {nesting nesting' : Nesting} {c : UInt8}
    (h : Reading done s nesting) (hc : nest nesting c = some nesting') :
    Reading (done ++ [c]) ⟨s.args, s.arg ++ [c], s.q + 1⟩ nesting' where
  text := by rw [h.text, append_assoc]
  args := h.args
  arg := by
    rw [foldlM_append, h.arg]
    exact (bind_pure (nest nesting c)).trans hc

theorem returns_putArg (s : Args) (c : UInt8) :
    (putArg s c).Returns (· = ⟨s.args, s.arg ++ [c], s.q + 1⟩) := by
  rw [putArg]
  split
  · exact returns_fail
  · exact (returns_write (q := fun _ ↦ True) trivial).bind fun _ _ ↦ returns_pure rfl

theorem returns_collect (done : Bytes) (c : UInt8) (s : Collecting) (h : Read done s) :
    (collect s c).Returns (Read (done ++ [c])) := by
  cases s with
  | outside parcnt s =>
    rw [collect]
    split
    next hc =>
      -- the argument ends, and the next one begins
      obtain ⟨rfl, rfl⟩ := hc
      refine (returns_write (q := fun _ ↦ True) trivial).bind fun _ _ ↦
        (returns_write (q := fun _ ↦ True) trivial).bind fun _ _ ↦ ?_
      split
      · exact returns_fail
      refine returns_pure ⟨?_, fun a ha ↦ ?_, rfl⟩
      · rw [h.text, flatMap_append, flatMap_singleton, append_nil,
          append_assoc]
      · obtain ha | ha := mem_append.1 ha
        · exact h.args a ha
        · exact mem_singleton.1 ha ▸ h.arg
    next hcomma =>
      split
      next hc =>
        obtain ⟨rfl, rfl⟩ := hc
        refine (returns_write (q := fun _ ↦ True) trivial).bind fun _ _ ↦ ?_
        split
        · exact returns_fail
        exact returns_pure ⟨s.args, s.arg, rfl, by rw [h.text], h.args, h.arg⟩
      next hparen =>
        refine (returns_putArg s c).bind ?_
        rintro _ rfl
        have hnest : nest (.outside parcnt) c =
            if c = QUOTE ∨ c = APOSTROPHE then some (.inside c parcnt)
            else if c = LPAREN then some (.outside (parcnt + 1))
            else if c = RPAREN then some (.outside (parcnt - 1))
            else some (.outside parcnt) := if_neg (not_or.2 ⟨hcomma, hparen⟩)
        split
        next hc => exact returns_pure (h.concat (hnest.trans (if_pos hc)))
        next hc =>
          replace hnest := hnest.trans (if_neg hc)
          split
          next hc => exact returns_pure (h.concat (hnest.trans (if_pos hc)))
          next hc =>
            replace hnest := hnest.trans (if_neg hc)
            split
            next hc => exact returns_pure (h.concat (hnest.trans (if_pos hc)))
            next hc => exact returns_pure (h.concat (hnest.trans (if_neg hc)))
  | inside quote parcnt s =>
    rw [collect]
    split
    next hc =>
      exact (returns_write (q := fun _ ↦ True) trivial).bind fun _ _ ↦
        returns_pure (h.concat (if_pos hc))
    next hc =>
      split
      next => exact returns_fail
      next hc' =>
        refine (returns_putArg s c).bind ?_
        rintro _ rfl
        have hnest : nest (.inside quote parcnt) c =
            if c = quote then some (.outside parcnt) else some (.inside quote parcnt) :=
          (if_neg hc).trans (if_neg hc')
        split
        next hc => exact returns_pure (h.concat (hnest.trans (if_pos hc)))
        next hc => exact returns_pure (h.concat (hnest.trans (if_neg hc)))
  | escaped quote parcnt s =>
    refine (returns_putArg s c).bind ?_
    rintro _ rfl
    exact returns_pure (h.concat rfl)
  | ended args rest =>
    obtain ⟨front, arg, rfl, rfl, hfront, harg⟩ := h
    refine returns_pure ⟨front, arg, rfl, ?_, hfront, harg⟩
    simp only [append_assoc, cons_append]

theorem read_nil : Read [] (.outside 0 ⟨[], [], 0⟩) :=
  Reading.mk rfl nofun rfl

theorem returns_collectArgs (input : Bytes) :
    (collectArgs input).Returns fun r ↦ Read input (.ended r.1 r.2) := by
  refine (returns_write (q := fun _ ↦ True) trivial).bind fun _ _ ↦
    (returns_foldlM returns_collect input [] _ read_nil).bind fun s hs ↦ ?_
  cases s with
  | ended args rest => exact returns_pure hs
  | outside | inside | escaped => exact returns_fail

theorem returns_arguments (input : Bytes) :
    (arguments input).Returns fun r ↦ Called r.1 input r.2 := by
  rw [arguments]
  dsimp only
  split
  next h =>
    obtain ⟨p, hp⟩ := List.head?_eq_some_iff.1 h
    split
    next h =>
      obtain ⟨rest, hrest⟩ := List.head?_eq_some_iff.1 h
      rw [hp, tail_cons] at hrest
      rw [hp, tail_cons, hrest]
      exact returns_pure (.empty hp hrest)
    next =>
      refine (returns_collectArgs _).mono ?_
      rintro ⟨_, rest⟩ ⟨front, arg, rfl, htext, hfront, harg⟩
      rw [hp] at htext
      exact .args hp htext hfront harg
  next => exact returns_fail

end Lpmud.Lex.Macro
