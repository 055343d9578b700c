import Lpmud.Parse.Command

/-!
# What a pattern matches

A pattern is a sequence of items: `%s`, or alternatives of literal words, optional words, `%w` and
`%s`. The text of a pattern is given to `parse`, which splits it into its elements again.

An item takes words off the command, and it is not tried again when the items behind it fail: a
group takes what the first of its alternatives takes that matches (`Item.take`), and `%s` takes as
few words as the item behind it needs to match. `Chosen` says this for all of a command, with the
pieces that the items take, and `parse` agrees with it (`parse_done_iff`).
-/

namespace Lpmud.ParseCommand

open List Option Explode

/-- A word in a pattern. -/
structure PatternWord where
  bytes : Word
  noBlank : 32 ∉ bytes
  noNul : 0 ∉ bytes
  deriving DecidableEq

/-- An alternative: `'word'`, `[word]`, `%w` or `%s`. -/
inductive Alternative where
  | literal (w : PatternWord)
  | optional (w : PatternWord)
  | word
  | rest
  deriving DecidableEq

namespace Alternative

/-- The alternative as an element of a pattern. -/
def text : Alternative → Word
  | literal w => 39 :: (w.bytes ++ [39])
  | optional w => 91 :: (w.bytes ++ [93])
  | word => [37, 119]
  | rest => REST

def isOptional : Alternative → Bool
  | optional _ => true
  | _ => false

/-- What an alternative takes off the words, and its fill-in value. Where there are no words left
only an optional word matches; and a `%s` between alternatives takes nothing. -/
def take (a : Alternative) : List Word → Option (List Word × Option Svalue)
  | [] => if a.isOptional then some ([], none) else none
  | x :: _ =>
    match a with
    | literal w => if w.bytes = x then some ([x], none) else none
    | optional w => if w.bytes = x then some ([x], none) else none
    | word => some ([x], some (element x))
    | rest => some ([], none)

theorem text_ne_slash (a : Alternative) : a.text ≠ SLASH := by
  cases a <;> simp [text, SLASH, REST]

theorem text_ne_nil (a : Alternative) : a.text ≠ [] := by
  cases a <;> simp [text, REST]

theorem text_eq_rest {a : Alternative} : a.text = REST ↔ a = rest := by
  cases a <;> simp [text, REST]

theorem take_prefix {a : Alternative} {ws p : List Word} {v : Option Svalue}
    (h : a.take ws = some (p, v)) : p <+: ws := by
  cases ws with
  | nil =>
    rw [take] at h
    split at h <;> cases h
    exact nil_prefix
  | cons x ws =>
    have hx : [x] <+: x :: ws := ⟨ws, rfl⟩
    cases a with
    | literal w | optional w =>
      dsimp only [take] at h
      split at h <;> cases h
      exact hx
    | word =>
      cases h
      exact hx
    | rest =>
      cases h
      exact nil_prefix

end Alternative

/-- An item of a pattern: `%s`, or alternatives, of which the first is not `%s`. -/
inductive Item where
  | rest
  | group (first : Alternative) (hfirst : first ≠ .rest) (others : List Alternative)

namespace Item

def first : Item → Alternative
  | rest => .rest
  | group first _ _ => first

def others : Item → List Alternative
  | rest => []
  | group _ _ others => others

/-- Alternatives behind the first one, with a `"/"` before each. -/
def slashed (others : List Alternative) : List Word :=
  others.flatMap fun a ↦ [SLASH, a.text]

/-- The elements of an item. -/
def elements (i : Item) : List Word :=
  i.first.text :: slashed i.others

end Item

/-- What the first alternative takes that matches. If none does, the last one may be optional. -/
def takeFirst (as : List Alternative) (ws : List Word) : Option (List Word × Option Svalue) :=
  match as with
  | [] => none
  | [a] => (a.take ws).or (if a.isOptional then some ([], none) else none)
  | a :: b :: as => (a.take ws).or (takeFirst (b :: as) ws)

/-- What an item takes off the words, and its fill-in value. -/
def Item.take (i : Item) (ws : List Word) : Option (List Word × Option Svalue) :=
  takeFirst (i.first :: i.others) ws

/-- The elements of a pattern. -/
def patternElements (items : List Item) : List Word :=
  items.flatMap Item.elements

/-- The text of a `%s`. -/
def restText (ws : List Word) : Svalue :=
  element ([32].intercalate ws)

/-- The items take the words, each the piece that is its own, and give the values. A `%s` at the end
takes what is left; one before another item takes the fewest words behind which that item matches,
but it does not take the last word. -/
inductive Chosen : List Item → List Word → List (List Word) → List Svalue → Prop
  | nil : Chosen [] [] [] []
  | group {first hfirst others items ws p v ps vs} :
      (Item.group first hfirst others).take ws = some (p, v) →
      Chosen items (ws.drop p.length) ps vs →
      Chosen (.group first hfirst others :: items) ws (p :: ps) (v.toList ++ vs)
  | last {ws} : Chosen [.rest] ws [ws] [restText ws]
  | rest {i items ws k p v ps vs} :
      (k = 0 ∨ k < ws.length) → Item.take i (ws.drop k) = some (p, v) →
      (∀ j < k, i.take (ws.drop j) = none) →
      Chosen items (ws.drop (k + p.length)) ps vs →
      Chosen (.rest :: i :: items) ws (ws.take k :: p :: ps)
        (restText (ws.take k) :: (v.toList ++ vs))

theorem prefix_of_takeFirst {ws p : List Word} {v : Option Svalue} :
    ∀ {as : List Alternative}, takeFirst as ws = some (p, v) → p <+: ws
  | [], h => by cases h
  | [a], h => by
    obtain h | ⟨-, h⟩ := or_eq_some_iff.1 h
    · exact a.take_prefix h
    · split at h <;> cases h
      exact nil_prefix
  | a :: b :: as, h => by
    obtain h | ⟨-, h⟩ := or_eq_some_iff.1 h
    · exact a.take_prefix h
    · exact prefix_of_takeFirst h

/-- **The pieces are the command.** -/
theorem Chosen.flatten {items : List Item} {ws : List Word} {ps : List (List Word)}
    {vs : List Svalue} (h : Chosen items ws ps vs) : ps.flatten = ws := by
  induction h with
  | nil => rfl
  | group htake _ ih =>
    rw [flatten_cons, ih]
    exact prefix_iff_eq_append.1 (prefix_of_takeFirst htake)
  | last => exact flatten_singleton
  | rest _ htake _ _ ih =>
    rw [flatten_cons, flatten_cons, ih, ← drop_drop,
      prefix_iff_eq_append.1 (prefix_of_takeFirst htake), take_append_drop]

/-! ### One element -/

section Code

variable {other : Directives} {patvec wvec ws : List Word} {cix : ℕ}

theorem sameWord_iff {w x : Word} {c : UInt8} : sameWord (w ++ [c]) x = true ↔ w = x := by
  rw [sameWord, decide_eq_true_iff, length_append, length_singleton, Nat.add_sub_cancel,
    take_left, Nat.add_right_cancel_iff]
  constructor
  · rintro ⟨htake, hlen⟩
    rw [htake, take_of_length_le hlen.ge]
  · rintro rfl
    exact ⟨take_length.symm, rfl⟩

/-- **`one_parse` at an alternative.** -/
theorem oneParse_text (hws : wvec.drop cix = ws) (a : Alternative) :
    oneParse other a.text wvec cix =
      match a.take ws with
      | some (p, v) => ⟨v, cix + p.length, 0⟩
      | none => ⟨none, cix, if a.isOptional ∧ ws ≠ [] then 2 else 1⟩ := by
  have hword : wvec[cix]? = ws.head? := by rw [← hws, List.head?_drop]
  rw [oneParse, hword]
  cases ws with
  | nil => cases a <;> rfl
  | cons x ws =>
    cases a with
    | literal w | optional w =>
      by_cases hx : w.bytes = x <;>
        simp [Alternative.text, Alternative.take, Alternative.isOptional, sameWord_iff, hx]
    | word => rfl
    | rest => rfl

/-! ### The alternatives of an item -/

open Item (slashed)

/-- What follows an item does not begin with `"/"`. -/
def Apart (post : List Word) : Prop :=
  post.head? ≠ some SLASH

theorem getElem?_length_append {pre post : List Word} :
    (pre ++ post)[pre.length]? = post.head? := by
  rw [List.getElem?_append_right le_rfl, Nat.sub_self, List.head?_eq_getElem?]

theorem length_slashed (others : List Alternative) :
    (slashed others).length = 2 * others.length := by
  induction others with
  | nil => rfl
  | cons a others ih =>
    rw [slashed, flatMap_cons, length_append, ← slashed, ih, length_cons]
    simp only [length_cons, length_nil]
    omega

theorem slashed_cons (b : Alternative) (others : List Alternative) :
    slashed (b :: others) = SLASH :: b.text :: slashed others :=
  rfl

theorem skipAlternatives_eq {post : List Word} (hpost : Apart post) (others : List Alternative) :
    ∀ (pre : List Word) (t : Word) (n : ℕ), patvec = pre ++ t :: (slashed others ++ post) →
      others.length ≤ n →
      skipAlternatives patvec n pre.length = pre.length + 2 * others.length := by
  induction others with
  | nil =>
    intro pre t n hpat _
    have hnext : patvec[pre.length + 1]? = post.head? := by
      rw [hpat, append_cons, ← length_singleton (a := t), ← length_append]
      exact getElem?_length_append
    cases n with
    | zero => rfl
    | succ n => rw [skipAlternatives, hnext, if_neg hpost]; rfl
  | cons b others ih =>
    intro pre t n hpat hn
    have hpat' : patvec = (pre ++ [t, SLASH]) ++ b.text :: (slashed others ++ post) := by
      rw [hpat, slashed_cons]
      simp
    have hnext : patvec[pre.length + 1]? = some SLASH := by
      rw [hpat, slashed_cons]
      simp
    cases n with
    | zero => exact absurd hn (Nat.not_succ_le_zero _)
    | succ n =>
      have hrest := ih (pre ++ [t, SLASH]) b.text n hpat' (Nat.le_of_succ_le_succ hn)
      rw [length_append, length_cons, length_singleton] at hrest
      rw [skipAlternatives, if_pos hnext, hrest, length_cons]
      omega

/-- After the alternative that matched, `sub_parse` goes to the end of the item. -/
theorem subParseDone_eq {post : List Word} (hpost : Apart post) {others : List Alternative}
    {pre : List Word} {t : Word} (hpat : patvec = pre ++ t :: (slashed others ++ post))
    (pval : Option Svalue) :
    subParseDone patvec pval pre.length cix =
      ⟨pval, pre.length + 2 * others.length, cix, false⟩ := by
  have hlen : patvec.length = pre.length + (2 * others.length + post.length + 1) := by
    rw [hpat, length_append, length_cons, length_append, length_slashed]
  rw [subParseDone, skipAlternatives_eq hpost others pre t _ hpat (by omega), if_neg (by omega)]

/-- **The alternatives from one on**, in the loop of `sub_parse`. -/
theorem subParseLoop_eq (hws : wvec.drop cix = ws) {post : List Word} (hpost : Apart post)
    (others : List Alternative) : ∀ (a : Alternative) (pre : List Word) (n : ℕ),
      patvec = pre ++ a.text :: (slashed others ++ post) → others.length < n →
      subParseLoop other patvec wvec cix n pre.length (oneParse other a.text wvec cix) =
        match takeFirst (a :: others) ws with
        | some (p, v) => ⟨v, pre.length + 2 * others.length, cix + p.length, false⟩
        | none => ⟨none, pre.length + 2 * others.length, cix, true⟩ := by
  induction others with
  | nil =>
    intro a pre n hpat hn
    have hnext : patvec[pre.length + 1]? = post.head? := by
      rw [hpat, append_cons, ← length_singleton (a := a.text), ← length_append]
      exact getElem?_length_append
    have hskip : skipSlash patvec patvec.length (pre.length + 1) = (pre.length + 1, false) := by
      cases patvec.length with
      | zero => rfl
      | succ m => rw [skipSlash, hnext, if_neg hpost]
    cases n with
    | zero => exact absurd hn (Nat.not_lt_zero _)
    | succ n =>
      rw [subParseLoop, oneParse_text hws, takeFirst, hskip]
      cases htake : a.take ws with
      | some pv =>
        exact subParseDone_eq hpost hpat pv.2
      | none =>
        rw [none_or]
        cases hopt : a.isOptional with
        | false => simp
        | true =>
          -- an optional word that is not there
          have hne : ws ≠ [] := by
            rintro rfl
            rw [Alternative.take, if_pos hopt] at htake
            cases htake
          have hdone := @subParseDone_eq _ cix _ hpost _ _ _ hpat none
          simpa [hne] using hdone
  | cons b others ih =>
    intro a pre n hpat hn
    have hpat' : patvec = (pre ++ [a.text, SLASH]) ++ b.text :: (slashed others ++ post) := by
      rw [hpat, slashed_cons]
      simp
    have hlen : patvec.length = pre.length + (2 * others.length + post.length + 3) := by
      simp only [hpat', length_append, length_cons, length_nil, length_slashed]
      omega
    have hslash : patvec[pre.length + 1]? = some SLASH := by
      rw [hpat, slashed_cons]
      simp
    have hb : patvec[pre.length + 2]? = some b.text := by
      rw [hpat, slashed_cons]
      simp
    have hskip : skipSlash patvec patvec.length (pre.length + 1) = (pre.length + 2, true) := by
      obtain ⟨m, hm⟩ : ∃ m, patvec.length = m + 2 := ⟨patvec.length - 2, by omega⟩
      have hne : some b.text ≠ some SLASH := mt some.inj b.text_ne_slash
      rw [hm, skipSlash, if_pos hslash, skipSlash, hb, if_neg hne]
    cases n with
    | zero => exact absurd hn (Nat.not_lt_zero _)
    | succ n =>
      rw [subParseLoop, oneParse_text hws, takeFirst, hskip]
      cases htake : a.take ws with
      | some pv => exact subParseDone_eq hpost hpat pv.2
      | none =>
        have hfail : ¬(if a.isOptional = true ∧ ws ≠ [] then 2 else 1) = 0 := by split <;> decide
        have hrest := ih b (pre ++ [a.text, SLASH]) n hpat' (Nat.lt_of_succ_lt_succ hn)
        have hpre : (pre ++ [a.text, SLASH]).length = pre.length + 2 := length_append
        have hget : patvec.getD (pre.length + 2) [] = b.text := by
          rw [getD_eq_getElem?_getD, hb, getD_some]
        rw [hpre] at hrest
        dsimp only
        rw [if_neg hfail, if_pos ⟨rfl, by omega⟩, hget, hrest, none_or]
        have hend : pre.length + 2 + 2 * others.length =
            pre.length + 2 * (b :: others).length := by
          rw [length_cons]
          omega
        rw [hend]

/-- **`sub_parse` at an item.** -/
theorem subParse_eq (hws : wvec.drop cix = ws) {post : List Word} (hpost : Apart post) {i : Item}
    {pre : List Word} (hpat : patvec = pre ++ (i.elements ++ post)) :
    subParse other patvec wvec pre.length cix =
      match i.take ws with
      | some (p, v) => ⟨v, pre.length + 2 * i.others.length, cix + p.length, false⟩
      | none => ⟨none, pre.length + 2 * i.others.length, cix, true⟩ := by
  have hget : patvec.getD pre.length [] = i.first.text := by
    rw [getD_eq_getElem?_getD, hpat, getElem?_length_append]
    rfl
  have hlen : i.others.length < patvec.length := by
    rw [hpat, length_append, length_append, Item.elements, length_cons,
      length_slashed]
    omega
  rw [subParse, hget]
  exact subParseLoop_eq hws hpost i.others i.first pre patvec.length hpat hlen

/-! ### The words that a `%s` takes -/

theorem apart_patternElements (items : List Item) : Apart (patternElements items) := by
  cases items with
  | nil => exact nofun
  | cons i items => exact mt some.inj i.first.text_ne_slash

theorem sliceWords_eq (hnul : ∀ w ∈ wvec, 0 ∉ w) (lo hi : ℕ) :
    sliceWords wvec lo hi = restText ((wvec.drop lo).take (hi - lo)) := by
  rw [sliceWords]
  split
  · rw [(implodeString_spec _ _).2, strings_map_element fun w hw ↦
      hnul w (mem_of_mem_drop (mem_of_mem_take hw))]
    rfl
  · next hle =>
    rw [Nat.sub_eq_zero_of_le (Nat.le_of_not_lt hle), take_zero]
    rfl

/-- **The loop behind a `%s`** finds the first word from which the item matches, if there is one. -/
theorem restLoop_eq {post : List Word} (hpost : Apart post) {i : Item} {pre : List Word}
    (hpat : patvec = pre ++ (i.elements ++ post)) (n : ℕ) : ∀ ocix, wvec.length < ocix + n → 0 < n →
      (∃ k p v, (k = 0 ∨ ocix + k < wvec.length) ∧ i.take (wvec.drop (ocix + k)) = some (p, v) ∧
        (∀ j < k, i.take (wvec.drop (ocix + j)) = none) ∧
        restLoop other patvec wvec pre.length n ocix =
          (⟨v, pre.length + 2 * i.others.length, ocix + k + p.length, false⟩, ocix + k)) ∨
      ((∀ k, k = 0 ∨ ocix + k < wvec.length → i.take (wvec.drop (ocix + k)) = none) ∧
        (restLoop other patvec wvec pre.length n ocix).1.fail = true) := by
  induction n with
  | zero => exact fun _ _ h ↦ absurd h (Nat.lt_irrefl 0)
  | succ n ih =>
    intro ocix hn _
    have hsub := @subParse_eq other patvec wvec _ ocix rfl post hpost i pre hpat
    rw [restLoop, hsub]
    cases htake : i.take (wvec.drop ocix) with
    | some pv =>
      exact .inl ⟨0, pv.1, pv.2, .inl rfl, htake, fun j hj ↦ absurd hj (Nat.not_lt_zero j), rfl⟩
    | none =>
      dsimp only
      rw [if_pos rfl]
      by_cases hlt : ocix + 1 < wvec.length
      · rw [if_pos hlt]
        have hnext : ∀ k, ocix + 1 + k = ocix + (k + 1) := fun k ↦ by omega
        obtain ⟨k, p, v, hk, hp, hmin, heq⟩ | ⟨hall, hfail⟩ := ih (ocix + 1) (by omega) (by omega)
        · rw [hnext] at hp heq
          refine .inl ⟨k + 1, p, v, .inr (by omega), hp, fun j hj ↦ ?_, heq⟩
          cases j with
          | zero => exact htake
          | succ j => exact hnext j ▸ hmin j (Nat.lt_of_succ_lt_succ hj)
        · refine .inr ⟨fun k hk ↦ ?_, hfail⟩
          cases k with
          | zero => exact htake
          | succ k => exact hnext k ▸ hall k (.inr (by omega))
      · rw [if_neg hlt]
        refine .inr ⟨fun k hk ↦ ?_, rfl⟩
        obtain rfl : k = 0 := by omega
        exact htake

/-! ### The arguments -/

/-- Values go to the arguments, as long as there are any. -/
def assigned (args : List (Option Svalue)) (vs : List Svalue) : List (Option Svalue) :=
  args.mapIdx fun j a ↦ vs[j]?.or a

theorem assigned_nil (args : List (Option Svalue)) : assigned args [] = args := by
  refine ext_getElem? fun j ↦ ?_
  simp [assigned]

theorem stackPut_eq_set (v : Svalue) (j : ℕ) (args : List (Option Svalue)) :
    stackPut v j args = args.set j (some v) := by
  rw [stackPut]
  split
  · next hle => rw [set_eq_of_length_le hle]
  · rfl

theorem stackPut_assigned (args : List (Option Svalue)) (vs : List Svalue) (v : Svalue) :
    stackPut v vs.length (assigned args vs) = assigned args (vs ++ [v]) := by
  rw [stackPut_eq_set]
  refine ext_getElem? fun j ↦ ?_
  rw [List.getElem?_set, assigned, assigned, List.getElem?_mapIdx, List.getElem?_mapIdx,
    length_mapIdx]
  split
  · next hj =>
    subst hj
    rw [List.getElem?_concat_length]
    split
    · next hlt => rw [List.getElem?_eq_getElem hlt]; rfl
    · next hge => rw [List.getElem?_eq_none (Nat.le_of_not_lt hge)]; rfl
  · next hj =>
    have hget : (vs ++ [v])[j]? = vs[j]? := by
      rw [List.getElem?_append]
      split
      · rfl
      · rw [List.getElem?_eq_none (l := [v]) (by simp; omega), List.getElem?_eq_none (by omega)]
    rw [hget]

theorem stackPut_comm {args : List (Option Svalue)} {v w : Svalue} {j k : ℕ} (h : j ≠ k) :
    stackPut v j (stackPut w k args) = stackPut w k (stackPut v j args) := by
  rw [stackPut_eq_set, stackPut_eq_set, stackPut_eq_set, stackPut_eq_set, set_comm _ _ h.symm]

/-! ### The whole pattern -/

/-- The loop is at the beginning of an item, and the items before it gave the values `vs`. -/
structure State.At (s : State) (wvec : List Word) (pre : List Word) (args : List (Option Svalue))
    (vs : List Svalue) : Prop where
  pix : s.pix = pre.length
  cix_le : s.cix ≤ wvec.length
  six : s.six = vs.length
  fail : s.fail = false
  args_eq : s.args = assigned args vs

/-- The pattern is used up, and so are the words. -/
def State.Matched (s : State) (wvec : List Word) (args : List (Option Svalue)) : Prop :=
  s.fail = false ∧ wvec.length ≤ s.cix ∧ s.args = args

variable {s : State} {pre : List Word} {args args' : List (Option Svalue)} {vs : List Svalue}

theorem length_elements (i : Item) : i.elements.length = 2 * i.others.length + 1 := by
  rw [Item.elements, length_cons, length_slashed]

theorem add_length_le {i : Item} {p : List Word} {v : Option Svalue} {k : ℕ}
    (h : i.take (wvec.drop k) = some (p, v)) (hk : k ≤ wvec.length) :
    k + p.length ≤ wvec.length := by
  have hle := (prefix_of_takeFirst h).length_le
  rw [length_drop] at hle
  omega

@[simp]
theorem State.cix_fill (r : SubParse) : (s.fill r).cix = r.cix := by
  rw [State.fill]
  split <;> rfl

theorem State.fill_pix (pix : ℕ) (r : SubParse) :
    State.fill { s with pix := pix } r = s.fill r := by
  rw [State.fill, State.fill]

theorem State.At.filled (h : s.At wvec pre args vs) {cix : ℕ} (hcix : cix ≤ wvec.length) (i : Item)
    (pval : Option Svalue) (fail : Bool) :
    { s.fill ⟨pval, pre.length + 2 * i.others.length, cix, fail⟩ with
      pix := (s.fill ⟨pval, pre.length + 2 * i.others.length, cix, fail⟩).pix + 1 }.At wvec
      (pre ++ i.elements) args (vs ++ pval.toList) := by
  have hpix : pre.length + 2 * i.others.length + 1 = (pre ++ i.elements).length := by
    rw [length_append, length_elements]
    rfl
  cases pval with
  | none => exact ⟨hpix, hcix, by rw [toList_none, append_nil]; exact h.six, h.fail, by
      rw [toList_none, append_nil]; exact h.args_eq⟩
  | some v =>
    refine ⟨hpix, hcix, ?_, h.fail, ?_⟩
    · show s.six + 1 = _
      rw [h.six, length_append]
      rfl
    · show stackPut v s.six s.args = _
      rw [h.six, h.args_eq, stackPut_assigned]
      rfl

theorem parseLoop_of_le (h : patvec.length ≤ s.pix) (n : ℕ) :
    parseLoop other patvec wvec n s = s := by
  cases n with
  | zero => rfl
  | succ n => rw [parseLoop, if_neg (Nat.not_lt.2 h)]

theorem parseLoop_succ (h : s.pix < patvec.length) (n : ℕ) :
    parseLoop other patvec wvec (n + 1) s =
      if (parseElement other patvec wvec s).fail then parseElement other patvec wvec s
      else parseLoop other patvec wvec n
        { parseElement other patvec wvec s with
          pix := (parseElement other patvec wvec s).pix + 1 } :=
  if_pos h

theorem matched_iff (h : s.At wvec pre args vs) : s.Matched wvec args' ↔
    ∃ ps us, Chosen [] (wvec.drop s.cix) ps us ∧ args' = assigned args (vs ++ us) := by
  constructor
  · rintro ⟨-, hle, rfl⟩
    refine ⟨[], [], ?_, by rw [append_nil, h.args_eq]⟩
    rw [drop_eq_nil_of_le hle]
    exact .nil
  · rintro ⟨ps, us, hchosen, rfl⟩
    generalize hws : wvec.drop s.cix = ws at hchosen
    cases hchosen
    exact ⟨h.fail, drop_eq_nil_iff.1 hws, by rw [append_nil, h.args_eq]⟩

/-- **A group**: the pattern goes on behind what it takes. -/
theorem parseLoop_group (h : s.At wvec pre args vs) {first : Alternative} {hfirst : first ≠ .rest}
    {others : List Alternative} {items : List Item} {n : ℕ}
    (hpat : patvec = pre ++ patternElements (.group first hfirst others :: items))
    (ih : ∀ (pre : List Word) (s : State) (vs : List Svalue),
      patvec = pre ++ patternElements items → s.At wvec pre args vs →
      ((parseLoop other patvec wvec n s).Matched wvec args' ↔
        ∃ ps us, Chosen items (wvec.drop s.cix) ps us ∧ args' = assigned args (vs ++ us))) :
    (parseLoop other patvec wvec (n + 1) s).Matched wvec args' ↔
      ∃ ps us, Chosen (.group first hfirst others :: items) (wvec.drop s.cix) ps us ∧
        args' = assigned args (vs ++ us) := by
  rw [patternElements, flatMap_cons, ← patternElements] at hpat
  have hget : patvec[s.pix]? = some first.text := by
    rw [h.pix, hpat, getElem?_length_append]
    rfl
  have hlt : s.pix < patvec.length := (List.getElem?_eq_some_iff.1 hget).1
  have hsub := @subParse_eq other patvec wvec _ s.cix rfl _ (apart_patternElements items)
    (.group first hfirst others) pre hpat
  have helement : parseElement other patvec wvec s =
      let r := subParse other patvec wvec pre.length s.cix
      if r.fail then { s with pix := r.pix, cix := r.cix, fail := true } else s.fill r := by
    rw [parseElement, hget, if_neg (mt some.inj (mt Alternative.text_eq_rest.1 hfirst)),
      if_neg (mt some.inj first.text_ne_slash), h.pix]
  rw [hsub] at helement
  rw [parseLoop_succ hlt]
  cases htake : (Item.group first hfirst others).take (wvec.drop s.cix) with
  | none =>
    rw [htake] at helement
    dsimp only at helement
    rw [if_pos rfl] at helement
    rw [helement, if_pos rfl]
    refine ⟨fun hm ↦ absurd hm.1 nofun, fun ⟨_, _, hchosen, _⟩ ↦ ?_⟩
    cases hchosen with
    | group htake' _ =>
      rw [htake] at htake'
      cases htake'
  | some pv =>
    obtain ⟨p, v⟩ := pv
    rw [htake] at helement
    dsimp only at helement
    rw [if_neg Bool.false_ne_true] at helement
    have hcix := add_length_le htake h.cix_le
    have hat := h.filled hcix (.group first hfirst others) v false
    have hfail : (parseElement other patvec wvec s).fail = false := by
      rw [helement]
      exact hat.fail
    rw [hfail, if_neg Bool.false_ne_true, helement]
    refine (ih (pre ++ (Item.group first hfirst others).elements) _ _
      (by rw [hpat, append_assoc]) hat).trans ?_
    show (∃ ps us, Chosen items (wvec.drop (s.fill _).cix) ps us ∧ _) ↔ _
    rw [State.cix_fill]
    constructor
    · rintro ⟨ps, us, hchosen, rfl⟩
      rw [← drop_drop] at hchosen
      exact ⟨_, _, .group htake hchosen, by rw [append_assoc]⟩
    · rintro ⟨ps, us, hchosen, rfl⟩
      cases hchosen with
      | group htake' hchosen =>
        rw [htake] at htake'
        cases htake'
        rw [drop_drop] at hchosen
        exact ⟨_, _, hchosen, by rw [append_assoc]⟩

/-- **A `%s` at the end** takes what is left. -/
theorem parseLoop_last (hnul : ∀ w ∈ wvec, 0 ∉ w) (h : s.At wvec pre args vs) {n : ℕ}
    (hpat : patvec = pre ++ patternElements [.rest]) :
    (parseLoop other patvec wvec (n + 1) s).Matched wvec args' ↔
      ∃ ps us, Chosen [.rest] (wvec.drop s.cix) ps us ∧ args' = assigned args (vs ++ us) := by
  have hlen : patvec.length = pre.length + 1 := by
    rw [hpat, length_append]
    rfl
  have hget : patvec[s.pix]? = some REST := by
    rw [h.pix, hpat, getElem?_length_append]
    rfl
  have htext : sliceWords wvec s.cix wvec.length = restText (wvec.drop s.cix) := by
    rw [sliceWords_eq hnul, take_of_length_le (length_drop ..).le]
  have helement : parseElement other patvec wvec s =
      { s with
        cix := wvec.length, six := s.six + 1
        args := stackPut (restText (wvec.drop s.cix)) s.six s.args } := by
    rw [parseElement, if_pos hget, if_pos (by rw [h.pix, hlen, Nat.add_sub_cancel]), htext]
  rw [parseLoop_succ (by rw [h.pix, hlen]; exact Nat.lt_succ_self _), helement]
  dsimp only
  rw [h.fail, if_neg Bool.false_ne_true, parseLoop_of_le (by rw [h.pix, hlen]), h.six, h.args_eq,
    stackPut_assigned]
  constructor
  · rintro ⟨-, -, rfl⟩
    exact ⟨_, _, .last, rfl⟩
  · rintro ⟨ps, us, hchosen, rfl⟩
    cases hchosen
    exact ⟨rfl, le_rfl, rfl⟩

/-- A `%s` gives its value, and then the item behind it gives its own. -/
theorem parseRest_eq {r : SubParse} {ocix : ℕ}
    (hloop : restLoop other patvec wvec (s.pix + 1) (wvec.length - s.cix + 1) s.cix = (r, ocix))
    (hfail : r.fail = false) :
    parseRest other patvec wvec s = State.fill { s with
      six := s.six + 1, args := stackPut (sliceWords wvec s.cix ocix) s.six s.args } r := by
  rw [parseRest, hloop]
  dsimp only
  rw [hfail, if_neg Bool.false_ne_true, State.fill]
  cases r.pval with
  | none => rfl
  | some v =>
    dsimp only
    rw [stackPut_comm (Nat.succ_ne_self _).symm]

/-- **A `%s` before an item**: the pattern goes on behind the first place where the item matches. -/
theorem parseLoop_rest (hnul : ∀ w ∈ wvec, 0 ∉ w) (h : s.At wvec pre args vs) {i : Item}
    {items : List Item} {n : ℕ} (hpat : patvec = pre ++ patternElements (.rest :: i :: items))
    (ih : ∀ (pre : List Word) (s : State) (vs : List Svalue),
      patvec = pre ++ patternElements items → s.At wvec pre args vs →
      ((parseLoop other patvec wvec n s).Matched wvec args' ↔
        ∃ ps us, Chosen items (wvec.drop s.cix) ps us ∧ args' = assigned args (vs ++ us))) :
    (parseLoop other patvec wvec (n + 1) s).Matched wvec args' ↔
      ∃ ps us, Chosen (.rest :: i :: items) (wvec.drop s.cix) ps us ∧
        args' = assigned args (vs ++ us) := by
  have hpat' : patvec = (pre ++ [REST]) ++ (i.elements ++ patternElements items) := by
    rw [hpat, append_assoc]
    rfl
  have hget : patvec[s.pix]? = some REST := by
    rw [h.pix, hpat', append_assoc, getElem?_length_append]
    rfl
  have hlen : pre.length + 1 < patvec.length := by
    rw [hpat', length_append, length_append, length_append, length_elements,
      length_singleton]
    omega
  have hpix : s.pix + 1 = (pre ++ [REST]).length := by
    rw [h.pix, length_append]
    rfl
  have helement : parseElement other patvec wvec s = parseRest other patvec wvec s := by
    rw [parseElement, if_pos hget, if_neg (by rw [h.pix]; omega)]
  have hcix := h.cix_le
  rw [parseLoop_succ (by rw [h.pix]; omega), helement]
  obtain ⟨k, p, v, hk, htake, hmin, hloop⟩ | ⟨hall, hfail⟩ := @restLoop_eq other patvec wvec _
    (apart_patternElements items) i _ hpat' (wvec.length - s.cix + 1) s.cix (by omega) (by omega)
  · have hcix' : s.cix + k ≤ wvec.length := by omega
    have htext : sliceWords wvec s.cix (s.cix + k) = restText ((wvec.drop s.cix).take k) := by
      rw [sliceWords_eq hnul, Nat.add_sub_cancel_left]
    rw [← hpix] at hloop
    rw [parseRest_eq hloop rfl, htext, ← State.fill_pix (s.pix + 1)]
    -- with the value of the %s the loop is at the item
    have hat₁ : State.At { s with
        pix := s.pix + 1, six := s.six + 1
        args := stackPut (restText ((wvec.drop s.cix).take k)) s.six s.args } wvec
        (pre ++ [REST]) args (vs ++ [restText ((wvec.drop s.cix).take k)]) := by
      refine ⟨hpix, h.cix_le, ?_, h.fail, ?_⟩
      · rw [length_append, h.six]
        rfl
      · dsimp only
        rw [h.six, h.args_eq, stackPut_assigned]
    have hat := hat₁.filled (add_length_le htake hcix') i v false
    rw [← hpix] at hat
    rw [hat.fail, if_neg Bool.false_ne_true]
    refine (ih (pre ++ [REST] ++ i.elements) _ _ (hpat'.trans (append_assoc ..).symm)
      hat).trans ?_
    show (∃ ps us, Chosen items (wvec.drop (State.fill _ _).cix) ps us ∧ _) ↔ _
    rw [State.cix_fill]
    dsimp only
    constructor
    · rintro ⟨ps, us, hchosen, rfl⟩
      rw [Nat.add_assoc, ← drop_drop] at hchosen
      rw [← drop_drop] at htake
      refine ⟨_, _, .rest (hk.imp_right fun hk ↦ ?_) htake (fun j hj ↦ ?_) hchosen, ?_⟩
      · rw [length_drop]
        omega
      · rw [drop_drop]
        exact hmin j hj
      · rw [append_assoc, append_assoc]
        rfl
    · rintro ⟨ps, us, hchosen, rfl⟩
      cases hchosen with
      | @rest _ _ _ k' p' v' ps us _ htake' hmin' hchosen =>
        rw [drop_drop] at htake' hchosen
        -- both are the first place where the item matches
        obtain hlt | rfl | hlt := Nat.lt_trichotomy k' k
        · rw [hmin k' hlt] at htake'
          cases htake'
        · rw [htake] at htake'
          cases htake'
          rw [← Nat.add_assoc] at hchosen
          refine ⟨_, _, hchosen, ?_⟩
          rw [append_assoc, append_assoc]
          rfl
        · have hnone := hmin' k hlt
          rw [drop_drop, htake] at hnone
          cases hnone
  · have hfailed : parseRest other patvec wvec s = { s with
        pix := (restLoop other patvec wvec (s.pix + 1) (wvec.length - s.cix + 1) s.cix).1.pix
        cix := (restLoop other patvec wvec (s.pix + 1) (wvec.length - s.cix + 1) s.cix).1.cix
        fail := true } := by
      rw [← hpix] at hfail
      rw [parseRest]
      exact if_pos hfail
    rw [hfailed, if_pos rfl]
    refine ⟨fun hm ↦ absurd hm.1 nofun, fun ⟨_, _, hchosen, _⟩ ↦ ?_⟩
    cases hchosen with
    | rest hk htake _ _ =>
      rw [drop_drop, hall _ (hk.imp_right fun hk ↦ ?_)] at htake
      · cases htake
      · rw [length_drop] at hk
        omega

/-- **The loop of `parse`** ends with success where the items can be chosen, with their values in
the arguments. -/
theorem parseLoop_iff (hnul : ∀ w ∈ wvec, 0 ∉ w) (n : ℕ) : ∀ (items : List Item) (pre : List Word)
    (s : State) (vs : List Svalue), patvec = pre ++ patternElements items → items.length ≤ n →
    s.At wvec pre args vs →
    ((parseLoop other patvec wvec n s).Matched wvec args' ↔
      ∃ ps us, Chosen items (wvec.drop s.cix) ps us ∧ args' = assigned args (vs ++ us)) := by
  induction n with
  | zero =>
    intro items pre s vs hpat hn h
    obtain rfl := length_eq_zero_iff.1 (Nat.le_zero.1 hn)
    exact matched_iff h
  | succ n ih =>
    intro items pre s vs hpat hn h
    match items with
    | [] =>
      rw [parseLoop_of_le]
      · exact matched_iff h
      · rw [h.pix, hpat]
        exact (congrArg List.length (append_nil pre)).le
    | .group first hfirst others :: items =>
      exact parseLoop_group h hpat fun pre s vs hpat h ↦
        ih items pre s vs hpat (Nat.le_of_succ_le_succ hn) h
    | [.rest] => exact parseLoop_last hnul h hpat
    | .rest :: i :: items =>
      refine parseLoop_rest hnul h hpat fun pre s vs hpat h ↦ ih items pre s vs hpat ?_ h
      exact (Nat.le_succ _).trans (Nat.le_of_succ_le_succ hn)

end Code

/-! ### The text of a pattern -/

/-- The words of a command. -/
def commandWords (cmd : CString) : List Word :=
  kept (pieces SPACE.bytes cmd.bytes [])

theorem mem_patternElements {items : List Item} {t : Word} (h : t ∈ patternElements items) :
    t = SLASH ∨ ∃ a : Alternative, t = a.text := by
  obtain ⟨i, -, ht⟩ := mem_flatMap.1 h
  obtain rfl | ht := mem_cons.1 ht
  · exact .inr ⟨_, rfl⟩
  · obtain ⟨a, -, ht⟩ := mem_flatMap.1 ht
    obtain rfl | ht := mem_cons.1 ht
    · exact .inl rfl
    · exact .inr ⟨a, mem_singleton.1 ht⟩

theorem Alternative.text_proper (a : Alternative) : 32 ∉ a.text ∧ 0 ∉ a.text := by
  cases a with
  | literal w | optional w => simp [text, w.noBlank, w.noNul]
  | word => decide
  | rest => decide

theorem patternElements_proper {items : List Item} {t : Word} (h : t ∈ patternElements items) :
    32 ∉ t ∧ 0 ∉ t ∧ t ≠ [] := by
  obtain rfl | ⟨a, rfl⟩ := mem_patternElements h
  · decide
  · exact ⟨a.text_proper.1, a.text_proper.2, a.text_ne_nil⟩

theorem mem_intercalate {sep : Word} {l : List Word} {c : UInt8} (h : c ∈ sep.intercalate l) :
    c ∈ sep ∨ ∃ t ∈ l, c ∈ t := by
  induction l with
  | nil => cases h
  | cons t l ih =>
    rcases l with - | ⟨u, l⟩
    · rw [intercalate_singleton] at h
      exact .inr ⟨t, mem_singleton.2 rfl, h⟩
    · rw [intercalate_cons_cons, append_assoc, mem_append, mem_append] at h
      obtain h | h | h := h
      · exact .inr ⟨t, mem_cons_self, h⟩
      · exact .inl h
      · exact (ih h).imp_right fun ⟨t, ht, hc⟩ ↦ ⟨t, mem_cons_of_mem _ ht, hc⟩

/-- A pattern as `parse` gets it: its elements with blanks between them. -/
def patternText (items : List Item) : CString where
  bytes := [32].intercalate (patternElements items)
  noNul := by
    intro h
    obtain h | ⟨t, ht, h⟩ := mem_intercalate h
    · cases mem_singleton.1 h
    · exact (patternElements_proper ht).2.1 h

theorem kept_patternText (items : List Item) :
    kept (pieces SPACE.bytes (patternText items).bytes []) = patternElements items :=
  kept_pieces_intercalate (fun _ ht ↦ (patternElements_proper ht).1)
    fun _ ht ↦ (patternElements_proper ht).2.2

theorem patternText_eq_nil {items : List Item} : (patternText items).bytes = [] ↔ items = [] := by
  constructor
  · intro h
    have hkept := kept_patternText items
    rw [h, pieces, kept_singleton, if_pos rfl] at hkept
    cases items with
    | nil => rfl
    | cons i items => cases hkept
  · rintro rfl
    rfl

theorem explodeString_space (s : CString) : explodeString s SPACE =
    allocateArray (kept (pieces SPACE.bytes s.bytes [])).length
      (.array ((kept (pieces SPACE.bytes s.bytes [])).map element)) :=
  explodeString_eq s SPACE (cons_ne_nil _ _)

theorem length_le_patternElements (items : List Item) :
    items.length ≤ (patternElements items).length := by
  induction items with
  | nil => exact Nat.zero_le _
  | cons i items ih =>
    rw [patternElements, flatMap_cons, length_append, length_elements, length_cons,
      ← patternElements]
    omega

theorem parseWords_eq_iff {other : Directives} {items : List Item} {wvec : List Word}
    {args args' : List (Option Svalue)} (hnul : ∀ w ∈ wvec, 0 ∉ w) :
    parseWords other (patternElements items) wvec args = (true, args') ↔
      ∃ ps vs, Chosen items wvec ps vs ∧ args' = assigned args vs := by
  have hskip : skipEmpty (patternElements items) (patternElements items).length 0 = 0 := by
    cases items with
    | nil => rfl
    | cons i items =>
      have hne : (patternElements (i :: items))[0]? ≠ some [] :=
        mt some.inj i.first.text_ne_nil
      cases (patternElements (i :: items)).length with
      | zero => rfl
      | succ n => rw [skipEmpty, if_neg hne]
  have hloop := @parseLoop_iff other (patternElements items) wvec args args' hnul
    (patternElements items).length items []
    { pix := 0, cix := 0, six := 0, fail := false, args := args } [] rfl
    (length_le_patternElements items) ⟨rfl, Nat.zero_le _, rfl, rfl, (assigned_nil args).symm⟩
  rw [parseWords, hskip]
  refine Iff.trans ?_ hloop
  rw [State.Matched, Prod.mk.injEq, Bool.not_eq_true', Bool.or_eq_false_iff,
    decide_eq_false_iff_not, Nat.not_lt, and_assoc]

/-- **What `parse` does**, for every command and every pattern. -/
theorem parse_eq_done_iff {other : Directives} {cmd : CString} {items : List Item}
    {args args' : List (Option Svalue)} :
    parse other cmd (patternText items) args = .done true args' ↔
      cmd.bytes ≠ [] ∧ items ≠ [] ∧ (commandWords cmd).length ≤ Object.MAX_ARRAY_SIZE ∧
      (patternElements items).length ≤ Object.MAX_ARRAY_SIZE ∧
      ∃ ps vs, Chosen items (commandWords cmd) ps vs ∧ args' = assigned args vs := by
  rw [parse, explodeString_space, explodeString_space, kept_patternText, ← commandWords]
  by_cases hempty : cmd.bytes = [] ∨ (patternText items).bytes = []
  · rw [if_pos hempty]
    refine ⟨by rintro ⟨⟩, fun h ↦ ?_⟩
    exact (hempty.elim h.1 (h.2.1 ∘ patternText_eq_nil.1)).elim
  obtain ⟨hcmd, hitems⟩ := not_or.1 hempty
  rw [if_neg hempty, allocateArray, allocateArray]
  by_cases hwords : (commandWords cmd).length > Object.MAX_ARRAY_SIZE
  · rw [if_pos hwords]
    exact ⟨by rintro ⟨⟩, fun h ↦ absurd h.2.2.1 (Nat.not_le.2 hwords)⟩
  rw [if_neg hwords]
  by_cases helements : (patternElements items).length > Object.MAX_ARRAY_SIZE
  · rw [if_pos helements]
    exact ⟨by rintro ⟨⟩, fun h ↦ absurd h.2.2.2.1 (Nat.not_le.2 helements)⟩
  rw [if_neg helements]
  dsimp only
  have hnul : ∀ w ∈ commandWords cmd, 0 ∉ w := nul_notMem_kept cmd
  rw [strings_map_element fun t ht ↦ (patternElements_proper ht).2.1, strings_map_element hnul]
  have hdone : (Outcome.done (parseWords other (patternElements items) (commandWords cmd) args).1
      (parseWords other (patternElements items) (commandWords cmd) args).2 = .done true args') ↔
      parseWords other (patternElements items) (commandWords cmd) args = (true, args') := by
    rw [Outcome.done.injEq, Prod.ext_iff]
  rw [hdone, parseWords_eq_iff hnul]
  exact ⟨fun h ↦ ⟨hcmd, mt patternText_eq_nil.2 hitems, Nat.not_lt.1 hwords,
    Nat.not_lt.1 helements, h⟩,
    fun h ↦ h.2.2.2.2⟩

/-- **A command matches a pattern** when the items, from left to right and each for itself, choose
pieces that are all of the command; the values of the pieces go to the arguments. -/
theorem parse_done_iff (other : Directives) (cmd : CString) (items : List Item)
    (args args' : List (Option Svalue)) :
    parse other cmd (patternText items) args = .done true args' ↔
      cmd.bytes ≠ [] ∧ items ≠ [] ∧ (commandWords cmd).length ≤ Object.MAX_ARRAY_SIZE ∧
      (patternElements items).length ≤ Object.MAX_ARRAY_SIZE ∧
      ∃ ps vs, Chosen items (commandWords cmd) ps vs ∧ ps.flatten = commandWords cmd ∧
        args' = assigned args vs := by
  rw [parse_eq_done_iff]
  refine and_congr_right fun _ ↦ and_congr_right fun _ ↦ and_congr_right fun _ ↦
    and_congr_right fun _ ↦ ?_
  constructor
  · rintro ⟨ps, vs, hchosen, hargs⟩
    exact ⟨ps, vs, hchosen, hchosen.flatten, hargs⟩
  · rintro ⟨ps, vs, hchosen, -, hargs⟩
    exact ⟨ps, vs, hchosen, hargs⟩

/-! ### Any choice -/

/-- There is a choice, of an alternative for each group and of the words for each `%s`, with which
the pattern matches all of the words. -/
inductive Matches : List Item → List Word → Prop
  | nil : Matches [] []
  | group {first hfirst others items ws a p v} :
      a ∈ first :: others → a.take ws = some (p, v) → Matches items (ws.drop p.length) →
      Matches (.group first hfirst others :: items) ws
  | absent {first hfirst others items ws} :
      (∃ a ∈ first :: others, a.isOptional = true) → Matches items ws →
      Matches (.group first hfirst others :: items) ws
  | rest {items ws} (k : ℕ) : Matches items (ws.drop k) → Matches (.rest :: items) ws

/-- The pattern `%s 'a' 'b'`. -/
def restThenAB : List Item :=
  [.rest, .group (.literal ⟨[97], by decide, by decide⟩) nofun [],
    .group (.literal ⟨[98], by decide, by decide⟩) nofun []]

/-- The command `a c a b` matches the pattern `%s 'a' 'b'` with `a c` for the `%s`; but the first
word is already one behind which `'a'` is not tried again. -/
theorem not_matches : ¬∀ (other : Directives) (cmd : CString) (items : List Item)
    (args : List (Option Svalue)), cmd.bytes ≠ [] →
    ((∃ args', parse other cmd (patternText items) args = .done true args') ↔
      Matches items (commandWords cmd)) := by
  intro h
  have hwords : commandWords ⟨[97, 32, 99, 32, 97, 32, 98], by decide⟩ =
      [[97], [99], [97], [98]] :=
    kept_pieces_intercalate (l := [[97], [99], [97], [98]]) (by decide) (by decide)
  have hmatches := h (fun _ _ _ cix ↦ ⟨none, cix, 1⟩) ⟨[97, 32, 99, 32, 97, 32, 98], by decide⟩
    restThenAB [] (cons_ne_nil _ _)
  rw [hwords] at hmatches
  have hsome : Matches restThenAB [[97], [99], [97], [98]] := by
    refine .rest 2 (.group (p := [[97]]) mem_cons_self rfl ?_)
    exact .group (p := [[98]]) mem_cons_self rfl .nil
  obtain ⟨args', hparse⟩ := hmatches.2 hsome
  obtain ⟨-, -, -, -, ps, vs, hchosen, -⟩ := parse_eq_done_iff.1 hparse
  rw [hwords] at hchosen
  cases hchosen with
  | @rest _ _ _ k p v ps vs hk htake hmin hchosen =>
    cases k with
    | succ k => cases hmin 0 (Nat.succ_pos k)
    | zero =>
      cases htake
      cases hchosen with
      | group htake _ => cases htake

end Lpmud.ParseCommand
