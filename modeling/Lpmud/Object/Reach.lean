import Lpmud.Object.Save

/-!
# What restoring gets to

Which texts of values `restore_one` comes to while it reads a text (`Reaches`), until it has read it
or gives up; what is wrong with a string that makes it run past the end (`Dangling`): the text
breaks off behind a backslash; and with an object (`LongName`): its name is longer than the array
that it is read into.
-/

namespace Lpmud.Object

variable {e : Env} {n next next' : ℕ} {s s' t u : Bytes} {m m' : Mapping}

/-! ### Strings that are not closed -/

/-- **The text breaks off behind a backslash**, in a string that is read from here on. -/
inductive Dangling : Bytes → Prop
  | backslash : Dangling [BACKSLASH]
  | plain {c : UInt8} {s : Bytes} (hquote : c ≠ QUOTE) (hbackslash : c ≠ BACKSLASH) :
    Dangling s → Dangling (c :: s)
  | escaped {c : UInt8} {s : Bytes} : Dangling s → Dangling (BACKSLASH :: c :: s)

theorem dangling_plain {c : UInt8} (hquote : c ≠ QUOTE) (hbackslash : c ≠ BACKSLASH) :
    Dangling (c :: s) ↔ Dangling s := by
  refine ⟨fun h ↦ ?_, .plain hquote hbackslash⟩
  cases h with
  | backslash => exact absurd rfl hbackslash
  | plain _ _ h => exact h
  | escaped h => exact absurd rfl hbackslash

theorem not_dangling_quote : ¬Dangling (QUOTE :: s) := by
  intro h
  cases h with
  | plain hquote _ _ => exact hquote rfl

theorem map_eq_error {α β : Type} {r : Except Failure α} {g : α → β} {f : Failure} :
    r.map g = .error f ↔ r = .error f := by
  cases r with
  | error f' => exact ⟨fun h ↦ by cases h; rfl, fun h ↦ by cases h; rfl⟩
  | ok x => exact iff_of_false nofun nofun

/-- **The reader of strings runs past the end** exactly where there is a backslash at the end that
is not escaped itself. -/
theorem restoreString_overrun (s : Bytes) :
    (restoreString false s = .error .overrun ↔ Dangling s) ∧
      (restoreString true s = .error .overrun ↔ s = [] ∨ ∃ c t, s = c :: t ∧ Dangling t) := by
  induction s with
  | nil => exact ⟨iff_of_false (by rintro ⟨⟩) (by rintro ⟨⟩), iff_of_true rfl (.inl rfl)⟩
  | cons c s ih =>
    constructor
    · rw [restoreString]
      by_cases hquote : c = QUOTE
      · rw [if_pos hquote, hquote]
        exact iff_of_false (by rintro ⟨⟩) not_dangling_quote
      by_cases hbackslash : c = BACKSLASH
      · rw [if_neg hquote, if_pos hbackslash, hbackslash, ih.2]
        constructor
        · rintro (rfl | ⟨c, t, rfl, h⟩)
          · exact .backslash
          · exact .escaped h
        · intro h
          cases h with
          | backslash => exact .inl rfl
          | plain _ h _ => exact absurd rfl h
          | escaped h => exact .inr ⟨_, _, rfl, h⟩
      · rw [if_neg hquote, if_neg hbackslash, map_eq_error, ih.1,
          dangling_plain hquote hbackslash]
    · rw [restoreString, map_eq_error, ih.1]
      refine ⟨fun h ↦ .inr ⟨c, s, rfl, h⟩, ?_⟩
      rintro (h | ⟨_, _, h, hdangling⟩)
      · cases h
      · cases h
        exact hdangling

/-! ### What is reached -/

mutual

/-- **`restore_one` gets to the value `u`**: that is where it starts, or it starts with an array or
a mapping in which it gets there. -/
inductive ReachesOne (e : Env) : ℕ → Bytes → ℕ → Bytes → Prop
  | here {n next : ℕ} {c : UInt8} {t : Bytes} : ReachesOne e (n + 1) (c :: t) next (c :: t)
  | array {n next : ℕ} {t u : Bytes} :
    ReachesItem e n t next u → ReachesOne e (n + 1) (LPAREN :: LBRACE :: t) next u
  | mapping {n next : ℕ} {t u : Bytes} :
    ReachesPair e n (.allocateMap 0) t (next + 1) u →
      ReachesOne e (n + 1) (LPAREN :: LBRACKET :: t) next u

/-- `restore_array` gets to the value `u`, in its next element or behind that. -/
inductive ReachesItem (e : Env) : ℕ → Bytes → ℕ → Bytes → Prop
  | here {n next : ℕ} {s u : Bytes} (hs : s.head? ≠ some RBRACE) :
    ReachesOne e n s next u → ReachesItem e (n + 1) s next u
  | behind {n next next' : ℕ} {s s' u : Bytes} {v : Svalue} (hs : s.head? ≠ some RBRACE)
    (hv : restoreOne e n s next = .ok (v, COMMA :: s', next')) :
    ReachesItem e n s' next' u → ReachesItem e (n + 1) s next u

/-- `restore_mapping` gets to the value `u`, in the next key, in its value or behind that. -/
inductive ReachesPair (e : Env) : ℕ → Mapping → Bytes → ℕ → Bytes → Prop
  | key {n next : ℕ} {m : Mapping} {s u : Bytes} (hs : s.head? ≠ some RBRACKET) :
    ReachesOne e n s next u → ReachesPair e (n + 1) m s next u
  | val {n next next' : ℕ} {m m' : Mapping} {s s' u : Bytes} {arg : Svalue}
    (hs : s.head? ≠ some RBRACKET)
    (harg : restoreOne e n s next = .ok (arg, COLON :: s', next'))
    (hm : m.getMapLvalue e.world arg id = .ok m') :
    ReachesOne e n s' next' u → ReachesPair e (n + 1) m s next u
  | behind {n next next' next'' : ℕ} {m m' m'' : Mapping} {s s' t u : Bytes}
    {arg val : Svalue} (hs : s.head? ≠ some RBRACKET)
    (harg : restoreOne e n s next = .ok (arg, COLON :: s', next'))
    (hm : m.getMapLvalue e.world arg id = .ok m')
    (hval : restoreOne e n s' next' = .ok (val, COMMA :: t, next''))
    (hm' : m.getMapLvalue e.world arg (fun _ ↦ val) = .ok m'') :
    ReachesPair e n m'' t next'' u → ReachesPair e (n + 1) m s next u

end

/-- **`restore_one` on the text `s` gets to the value that the text `u` begins with.** -/
def Reaches (e : Env) (s : Bytes) (next : ℕ) (u : Bytes) : Prop :=
  ReachesOne e (2 * s.length + 1) s next u

section Some

variable (P : Bytes → Prop)

/-- `restore_one` gets to some value that is as `P` says. -/
def SomeOne (e : Env) (n : ℕ) (s : Bytes) (next : ℕ) : Prop :=
  ∃ u, ReachesOne e n s next u ∧ P u

/-- `restore_array` gets to some value that is as `P` says. -/
def SomeItem (e : Env) (n : ℕ) (s : Bytes) (next : ℕ) : Prop :=
  ∃ u, ReachesItem e n s next u ∧ P u

/-- `restore_mapping` gets to some value that is as `P` says. -/
def SomePair (e : Env) (n : ℕ) (m : Mapping) (s : Bytes) (next : ℕ) : Prop :=
  ∃ u, ReachesPair e n m s next u ∧ P u

variable {P}

theorem not_someOne_zero : ¬SomeOne P e 0 s next := by
  rintro ⟨u, h, -⟩
  cases h

theorem not_someItem_zero : ¬SomeItem P e 0 s next := by
  rintro ⟨u, h, -⟩
  cases h

theorem not_somePair_zero : ¬SomePair P e 0 m s next := by
  rintro ⟨u, h, -⟩
  cases h

theorem not_someOne_nil : ¬SomeOne P e n [] next := by
  rintro ⟨u, h, -⟩
  cases h

theorem someOne_of_ne {c : UInt8} (hc : c ≠ LPAREN) :
    SomeOne P e (n + 1) (c :: t) next ↔ P (c :: t) := by
  refine ⟨?_, fun h ↦ ⟨_, .here, h⟩⟩
  rintro ⟨u, h, hP⟩
  cases h with
  | here => exact hP
  | array h => exact absurd rfl hc
  | mapping h => exact absurd rfl hc

theorem someOne_paren (hP : ¬P (LPAREN :: t)) (hmapping : t.head? ≠ some LBRACKET)
    (harray : t.head? ≠ some LBRACE) : ¬SomeOne P e (n + 1) (LPAREN :: t) next := by
  rintro ⟨u, h, hu⟩
  cases h with
  | here => exact hP hu
  | array h => exact harray rfl
  | mapping h => exact hmapping rfl

theorem someOne_array (hP : ¬P (LPAREN :: LBRACE :: t)) :
    SomeOne P e (n + 1) (LPAREN :: LBRACE :: t) next ↔ SomeItem P e n t next := by
  refine ⟨?_, fun ⟨u, h, hu⟩ ↦ ⟨u, .array h, hu⟩⟩
  rintro ⟨u, h, hu⟩
  cases h with
  | here => exact absurd hu hP
  | array h => exact ⟨u, h, hu⟩

theorem someOne_mapping (hP : ¬P (LPAREN :: LBRACKET :: t)) :
    SomeOne P e (n + 1) (LPAREN :: LBRACKET :: t) next ↔
      SomePair P e n (.allocateMap 0) t (next + 1) := by
  refine ⟨?_, fun ⟨u, h, hu⟩ ↦ ⟨u, .mapping h, hu⟩⟩
  rintro ⟨u, h, hu⟩
  cases h with
  | here => exact absurd hu hP
  | mapping h => exact ⟨u, h, hu⟩

theorem not_someItem_closing (hs : s.head? = some RBRACE) : ¬SomeItem P e (n + 1) s next := by
  rintro ⟨u, h, -⟩
  cases h with
  | here hne _ => exact hne hs
  | behind hne _ _ => exact hne hs

theorem someItem_succ (hs : s.head? ≠ some RBRACE) :
    SomeItem P e (n + 1) s next ↔ SomeOne P e n s next ∨
      ∃ v s' next', restoreOne e n s next = .ok (v, COMMA :: s', next') ∧
        SomeItem P e n s' next' := by
  constructor
  · rintro ⟨u, h, hu⟩
    cases h with
    | here _ h => exact .inl ⟨u, h, hu⟩
    | behind _ hv h => exact .inr ⟨_, _, _, hv, u, h, hu⟩
  · rintro (⟨u, h, hu⟩ | ⟨v, s', next', hv, u, h, hu⟩)
    · exact ⟨u, .here hs h, hu⟩
    · exact ⟨u, .behind hs hv h, hu⟩

theorem not_somePair_closing (hs : s.head? = some RBRACKET) :
    ¬SomePair P e (n + 1) m s next := by
  rintro ⟨u, h, -⟩
  cases h with
  | key hne _ => exact hne hs
  | val hne _ _ _ => exact hne hs
  | behind hne _ _ _ _ _ => exact hne hs

theorem somePair_succ (hs : s.head? ≠ some RBRACKET) :
    SomePair P e (n + 1) m s next ↔ SomeOne P e n s next ∨
      ∃ arg s' next', restoreOne e n s next = .ok (arg, COLON :: s', next') ∧
        (∃ m', m.getMapLvalue e.world arg id = .ok m') ∧
        (SomeOne P e n s' next' ∨
          ∃ val t next'', restoreOne e n s' next' = .ok (val, COMMA :: t, next'') ∧
            ∃ m', m.getMapLvalue e.world arg (fun _ ↦ val) = .ok m' ∧
              SomePair P e n m' t next'') := by
  constructor
  · rintro ⟨u, h, hu⟩
    cases h with
    | key _ h => exact .inl ⟨u, h, hu⟩
    | val _ harg hm h => exact .inr ⟨_, _, _, harg, ⟨_, hm⟩, .inl ⟨u, h, hu⟩⟩
    | behind _ harg hm hval hm' h =>
      exact .inr ⟨_, _, _, harg, ⟨_, hm⟩, .inr ⟨_, _, _, hval, _, hm', u, h, hu⟩⟩
  · rintro (⟨u, h, hu⟩ | ⟨arg, s', next', harg, ⟨m', hm⟩, h⟩)
    · exact ⟨u, .key hs h, hu⟩
    · rcases h with ⟨u, h, hu⟩ | ⟨val, t, next'', hval, m'', hm', u, h, hu⟩
      · exact ⟨u, .val hs harg hm h, hu⟩
      · exact ⟨u, .behind hs harg hm hval hm' h, hu⟩

end Some

/-! ### Running past the end -/

/-- **There is no room for the name** of an object, behind the first dollar sign. -/
def LongName (e : Env) (t : Bytes) : Prop :=
  behind DOLLAR t ≠ none ∧ ∃ ct name, e.scanObject (DOLLAR :: t) = some (ct, name) ∧
    NAME_SIZE ≤ name.length

/-- The value is a string that breaks off behind a backslash, or an object with a long name. -/
def BreaksOff (e : Env) (u : Bytes) : Prop :=
  (∃ t, u = QUOTE :: t ∧ Dangling t) ∨ ∃ t, u = DOLLAR :: t ∧ LongName e t

theorem not_breaksOff {c : UInt8} (hquote : c ≠ QUOTE) (hdollar : c ≠ DOLLAR) :
    ¬BreaksOff e (c :: t) := by
  rintro (⟨_, h, -⟩ | ⟨_, h, -⟩)
  · exact hquote (List.cons.inj h).1
  · exact hdollar (List.cons.inj h).1

theorem breaksOff_quote : BreaksOff e (QUOTE :: t) ↔ Dangling t := by
  refine ⟨?_, fun h ↦ .inl ⟨t, rfl, h⟩⟩
  rintro (⟨_, h, hdangling⟩ | ⟨_, h, -⟩)
  · exact (List.cons.inj h).2 ▸ hdangling
  · cases h

theorem breaksOff_dollar : BreaksOff e (DOLLAR :: t) ↔ LongName e t := by
  refine ⟨?_, fun h ↦ .inr ⟨t, rfl, h⟩⟩
  rintro (⟨_, h, -⟩ | ⟨_, h, hlong⟩)
  · cases h
  · exact (List.cons.inj h).2 ▸ hlong

theorem bind_eq_error {α β : Type} {r : Except Failure α} {g : α → Except Failure β}
    {f : Failure} : r.bind g = .error f ↔ r = .error f ∨ ∃ x, r = .ok x ∧ g x = .error f := by
  cases r with
  | error f' =>
    refine ⟨fun h ↦ .inl (by cases h; rfl), ?_⟩
    rintro (h | ⟨x, h, -⟩)
    · cases h
      rfl
    · cases h
  | ok x =>
    refine ⟨fun h ↦ .inr ⟨x, rfl, h⟩, ?_⟩
    rintro (h | ⟨x', h, hg⟩)
    · cases h
    · cases h
      exact hg

theorem restoreReference_overrun :
    restoreReference e t next = .error .overrun ↔ LongName e t := by
  rw [restoreReference, LongName]
  cases behind DOLLAR t with
  | none => exact iff_of_false (by rintro ⟨⟩) fun h ↦ h.1 rfl
  | some s' =>
    cases e.scanObject (DOLLAR :: t) with
    | none => exact iff_of_false (by rintro ⟨⟩) (by rintro ⟨_, _, _, ⟨⟩, _⟩)
    | some r =>
      obtain ⟨ct, name⟩ := r
      dsimp only
      by_cases hlong : name.length ≥ NAME_SIZE
      · rw [if_pos hlong]
        exact iff_of_true rfl ⟨by rintro ⟨⟩, ct, name, rfl, hlong⟩
      · rw [if_neg hlong]
        refine iff_of_false ?_ ?_
        · cases e.findObject name with
          | none => rintro ⟨⟩
          | some ob => rintro ⟨⟩
        · rintro ⟨_, _, _, ⟨⟩, hlong'⟩
          exact hlong hlong'

theorem restoreFloat_ne_overrun : restoreFloat e t next ≠ .error .overrun := by
  rw [restoreFloat]
  split
  · rintro ⟨⟩
  · rintro ⟨⟩

theorem allocateArray_ne_overrun {item : List Svalue} :
    allocateArray e item s next ≠ .error .overrun := by
  rw [allocateArray]
  split_ifs
  · rintro ⟨⟩
  · rintro ⟨⟩
  · rintro ⟨⟩

theorem of_expected {α : Type} {c : Prop} [Decidable c] {r : Except Failure α}
    (h : (if c then r else .error .illegal) = .error .overrun) : c ∧ r = .error .overrun := by
  by_cases hc : c
  · rw [if_pos hc] at h
    exact ⟨hc, h⟩
  · rw [if_neg hc] at h
    cases h

theorem eq_cons_of_head? {c : UInt8} (h : t.head? = some c) : t = c :: t.tail := by
  cases t with
  | nil => cases h
  | cons d t => rw [Option.some.inj h, List.tail_cons]

variable
  (ihone : ∀ s next, restoreOne e n s next = .error .overrun ↔ SomeOne (BreaksOff e) e n s next)
  (iharray : ∀ tmp s next, restoreArray e n tmp s next = .error .overrun ↔
    SomeItem (BreaksOff e) e n s next)
  (ihmapping : ∀ m s next, restoreMapping e n m s next = .error .overrun ↔
    SomePair (BreaksOff e) e n m s next)

include iharray ihmapping in
theorem restoreOne_overrun (s : Bytes) (next : ℕ) :
    restoreOne e (n + 1) s next = .error .overrun ↔ SomeOne (BreaksOff e) e (n + 1) s next := by
  cases s with
  | nil => exact iff_of_false (by rw [restoreOne]; exact (by rintro ⟨⟩)) not_someOne_nil
  | cons c t =>
    rw [restoreOne]
    by_cases hparen : c = LPAREN
    · subst hparen
      have hnot : ∀ t, ¬BreaksOff e (LPAREN :: t) :=
        fun t ↦ not_breaksOff (by decide) (by decide)
      rw [if_pos rfl]
      by_cases hmapping : t.head? = some LBRACKET
      · rw [if_pos hmapping, map_eq_error, ihmapping]
        nth_rewrite 2 [eq_cons_of_head? hmapping]
        rw [someOne_mapping (hnot _)]
      by_cases harray : t.head? = some LBRACE
      · rw [if_neg hmapping, if_pos harray, bind_eq_error, iharray]
        nth_rewrite 3 [eq_cons_of_head? harray]
        rw [someOne_array (hnot _)]
        refine or_iff_left ?_
        rintro ⟨x, -, h⟩
        exact allocateArray_ne_overrun h
      · rw [if_neg hmapping, if_neg harray]
        exact iff_of_false (by rintro ⟨⟩) (someOne_paren (hnot t) hmapping harray)
    rw [if_neg hparen, someOne_of_ne hparen]
    by_cases hquote : c = QUOTE
    · rw [if_pos hquote, map_eq_error, (restoreString_overrun t).1, hquote, breaksOff_quote]
    rw [if_neg hquote]
    by_cases hdollar : c = DOLLAR
    · rw [if_pos hdollar, restoreReference_overrun, hdollar, breaksOff_dollar]
    · rw [if_neg hdollar]
      refine iff_of_false ?_ (not_breaksOff hquote hdollar)
      split_ifs
      · exact restoreFloat_ne_overrun
      · rintro ⟨⟩
      · rintro ⟨⟩

include ihone iharray in
theorem restoreArray_overrun (tmp : List Svalue) (s : Bytes) (next : ℕ) :
    restoreArray e (n + 1) tmp s next = .error .overrun ↔
      SomeItem (BreaksOff e) e (n + 1) s next := by
  rw [restoreArray]
  by_cases hs : s.head? = some RBRACE
  · rw [if_pos hs]
    refine iff_of_false ?_ (not_someItem_closing hs)
    split
    · rintro ⟨⟩
    · split_ifs
      · rintro ⟨⟩
      · rintro ⟨⟩
  · rw [if_neg hs, bind_eq_error, ihone, someItem_succ hs]
    refine or_congr_right ⟨?_, ?_⟩
    · rintro ⟨⟨v, _ | ⟨d, s'⟩, next'⟩, hv, h⟩
      · cases h
      · obtain ⟨rfl, h⟩ := of_expected h
        exact ⟨v, s', next', hv, (iharray _ _ _).1 h⟩
    · rintro ⟨v, s', next', hv, h⟩
      refine ⟨_, hv, ?_⟩
      dsimp only
      rw [if_pos rfl]
      exact (iharray _ _ _).2 h

include ihone ihmapping in
theorem restoreMapping_overrun (m : Mapping) (s : Bytes) (next : ℕ) :
    restoreMapping e (n + 1) m s next = .error .overrun ↔
      SomePair (BreaksOff e) e (n + 1) m s next := by
  rw [restoreMapping]
  by_cases hs : s.head? = some RBRACKET
  · rw [if_pos hs]
    refine iff_of_false ?_ (not_somePair_closing hs)
    split
    · rintro ⟨⟩
    · split_ifs
      · rintro ⟨⟩
      · rintro ⟨⟩
  · rw [if_neg hs, bind_eq_error, ihone, somePair_succ hs]
    refine or_congr_right ⟨?_, ?_⟩
    · rintro ⟨⟨arg, _ | ⟨d, s'⟩, next'⟩, harg, h⟩
      · cases h
      obtain ⟨rfl, hval⟩ := of_expected h
      clear h
      cases hm : m.getMapLvalue e.world arg id with
      | error _ =>
        rw [hm] at hval
        cases hval
      | ok m' =>
        rw [hm] at hval
        refine ⟨arg, s', next', harg, ⟨m', hm⟩, ?_⟩
        -- it is in the value, or in the pairs behind it
        rcases bind_eq_error.1 hval with h | ⟨⟨val, _ | ⟨d, t⟩, next''⟩, hval, h⟩
        · exact .inl ((ihone _ _).1 h)
        · cases h
        · obtain ⟨rfl, hmore⟩ := of_expected h
          cases hm' : m.getMapLvalue e.world arg fun _ ↦ val with
          | error _ =>
            rw [hm'] at hmore
            cases hmore
          | ok m'' =>
            rw [hm'] at hmore
            exact .inr ⟨val, t, next'', hval, m'', hm', (ihmapping _ _ _).1 hmore⟩
    · rintro ⟨arg, s', next', harg, ⟨m', hm⟩, h⟩
      refine ⟨_, harg, ?_⟩
      dsimp only
      rw [if_pos rfl, hm]
      refine bind_eq_error.2 ?_
      rcases h with h | ⟨val, t, next'', hval, m'', hm', h⟩
      · exact .inl ((ihone _ _).2 h)
      · refine .inr ⟨_, hval, ?_⟩
        dsimp only
        rw [if_pos rfl, hm']
        exact (ihmapping _ _ _).2 h

/-- **The list reader runs past the end** exactly where it gets to a string that breaks off behind a
backslash, or to an object with a long name. -/
theorem overrun_iff (e : Env) (n : ℕ) :
    (∀ s next, restoreOne e n s next = .error .overrun ↔ SomeOne (BreaksOff e) e n s next) ∧
      (∀ tmp s next, restoreArray e n tmp s next = .error .overrun ↔
        SomeItem (BreaksOff e) e n s next) ∧
      ∀ m s next, restoreMapping e n m s next = .error .overrun ↔
        SomePair (BreaksOff e) e n m s next := by
  induction n with
  | zero =>
    refine ⟨fun s next ↦ iff_of_false ?_ not_someOne_zero,
      fun tmp s next ↦ iff_of_false ?_ not_someItem_zero,
      fun m s next ↦ iff_of_false ?_ not_somePair_zero⟩
    · rw [restoreOne]
      rintro ⟨⟩
    · rw [restoreArray]
      rintro ⟨⟩
    · rw [restoreMapping]
      rintro ⟨⟩
  | succ n ih =>
    obtain ⟨ihone, iharray, ihmapping⟩ := ih
    exact ⟨restoreOne_overrun iharray ihmapping, restoreArray_overrun ihone iharray,
      restoreMapping_overrun ihone ihmapping⟩

end Lpmud.Object
