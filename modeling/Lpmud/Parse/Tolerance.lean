import Lpmud.Parse.Objects
import Lpmud.Parse.Pattern
import Mathlib.Algebra.Order.BigOperators.Group.List

/-!
# Answers that an object may give

Which answers of an object, and which defaults of the master object, the match of an object
tolerates, whatever the words of the command are: `tolerates_iff`. Some of what is answered is used
without a look at its type, so that not every answer is tolerated.

After the questions, it only matters whether the lists can be used (`Usable`). If they can, one name
after the other is matched or is not. If they cannot, there are words with which no name matches, so
that all of the names are looked for (`Idle`), and one of them goes wrong.
-/

namespace Lpmud.ParseCommand

open List Option Explode

/-! ### What is asked of the lists -/

/-- The array of an element after the question, unless the element is marked. -/
def Cell.held (c : Cell) (ret : Option Svalue) : Option (List Svalue) :=
  if c.asked then arrayOf ret else none

/-- An earlier answer was an array, and this one is not. -/
def Cell.Spoilt (c : Cell) (ret : Option Svalue) : Prop :=
  match c with
  | .number _ => False
  | _ => arrayOf ret = none

/-- The names in the plural: those that are answered, or else they are made of the others. -/
def pluralHeld (g : Grammar) (e : Entry) (a : Answers) : Option (List Svalue) :=
  (e.pluid.held a.pluid).or
    (if e.pluid.asked then (e.id.held a.id).map (makePlurals g) else none)

/-- The names and the genders of a kind, as they are answered. -/
def answered (g : Grammar) (m : Master) (e : Entry) (a : Answers) :
    NameKind → Option (List Svalue) × Option (List Svalue)
  | .master => (m.id, m.rodz)
  | .own => (e.id.held a.id, e.rodz.held a.rodzaj)
  | .masterPlural => (m.pluid, m.prodz)
  | .ownPlural => (pluralHeld g e a, e.prodz.held a.prodzaj)

/-- The adjectives are strings, in two arrays. If the first is empty the second does not matter, and
if they do not have the same size their elements do not. -/
def AdjectivesOk (adj1 adj2 : Option (List Svalue)) : Prop :=
  ∃ l₁, adj1 = some l₁ ∧ (l₁ = [] ∨ ∃ l₂, adj2 = some l₂ ∧ (l₁.length = l₂.length →
    (∀ v ∈ l₁, ∃ s, v = .string s) ∧ ∀ v ∈ l₂, ∃ s, v = .string s))

/-- The names have an array of genders, and if that is as long, each name that can be found has no
more words than an array has elements, and the adjectives can be used. A name that begins with a
blank is not found. -/
def NamesOk (ids : List Svalue) (rodz adj1 adj2 : Option (List Svalue)) : Prop :=
  ∃ l, rodz = some l ∧ (l.length = ids.length → ∀ s : CString, .string s ∈ ids →
    s.bytes.head? ≠ some 32 →
      (commandWords s).length ≤ Object.MAX_ARRAY_SIZE ∧ AdjectivesOk adj1 adj2)

/-- What an object, and the master object, may answer. -/
structure Tolerable (g : Grammar) (m : Master) (e : Entry) (a : Answers) : Prop where
  id_kept : ¬e.id.Spoilt a.id
  pluid_kept : e.pluid.Spoilt a.pluid → e.id.held a.id ≠ none
  names_ok : ∀ kind ids, (answered g m e a kind).1 = some ids →
    NamesOk ids (answered g m e a kind).2 (e.adj1id.held a.adj1) (e.adj2id.held a.adj2)

/-- The match of the object does not go wrong, for any words of a command. -/
def Tolerates {size : ℕ} (g : Grammar) (m : Master) (lists : Lists size) (ix : Fin size)
    (a : Answers) : Prop :=
  ∀ (wvec : List Word) (cix : ℕ) (plur : Bool) (maxLen : ℕ), (∀ w ∈ wvec, 32 ∉ w) →
    (matchObject g m (loadLpcInfo g lists ix a) ix wvec cix plur maxLen).isSome

/-! ### The elements after the questions -/

section Load

variable {g : Grammar} {m : Master} {e : Entry} {a : Answers}

theorem Cell.vec_load (c : Cell) (ret : Option Svalue) : (c.load ret).vec = c.held ret := by
  rw [Cell.load, Cell.held]
  split
  · cases arrayOf ret with
    | some item => rfl
    | none => cases c <;> rfl
  · next h =>
    cases c with
    | number n => rfl
    | array item | wild => exact absurd rfl h

theorem asked_of_spoilt {c : Cell} {ret : Option Svalue} (h : c.Spoilt ret) :
    c.asked = true ∧ arrayOf ret = none := by
  cases c with
  | number n => exact h.elim
  | array item | wild => exact ⟨rfl, h⟩

/-- What an element is after the question: the array that is held, or a number, or, if it was
spoilt, neither of them. -/
def Loaded (c : Cell) (held : Option (List Svalue)) (spoilt : Prop) : Prop :=
  (¬spoilt ∧ ∃ item, c = .array item ∧ held = some item) ∨
    (¬spoilt ∧ held = none ∧ ∃ n, c = .number n) ∨ (spoilt ∧ held = none ∧ c = .wild)

theorem loaded_load (c : Cell) (ret : Option Svalue) :
    Loaded (c.load ret) (c.held ret) (c.Spoilt ret) := by
  rw [Cell.load, Cell.held]
  split
  · cases hret : arrayOf ret with
    | some item =>
      refine .inl ⟨fun hspoilt ↦ ?_, item, rfl, rfl⟩
      rw [(asked_of_spoilt hspoilt).2] at hret
      cases hret
    | none =>
      cases c with
      | number n => exact .inr (.inl ⟨id, rfl, 1, rfl⟩)
      | array item | wild => exact .inr (.inr ⟨hret, rfl, rfl⟩)
  · next h =>
    cases c with
    | number n => exact .inr (.inl ⟨id, rfl, n, rfl⟩)
    | array item | wild => exact absurd rfl h

theorem pluid_load : (e.load g a).pluid =
    if e.pluid.asked = true ∧ arrayOf a.pluid = none then
      ((e.id.held a.id).map (Cell.array ∘ makePlurals g)).getD (e.pluid.load a.pluid)
    else e.pluid.load a.pluid := by
  simp only [Entry.load, Cell.held]
  cases e.pluid.asked <;> cases arrayOf a.pluid <;> cases e.id.asked <;> cases arrayOf a.id <;> rfl

theorem loaded_pluid : Loaded (e.load g a).pluid (pluralHeld g e a)
    (e.pluid.Spoilt a.pluid ∧ e.id.held a.id = none) := by
  have hload := loaded_load e.pluid a.pluid
  rw [pluid_load, pluralHeld]
  by_cases hmake : e.pluid.asked = true ∧ arrayOf a.pluid = none
  · have hheld : e.pluid.held a.pluid = none := by rw [Cell.held, if_pos hmake.1, hmake.2]
    rw [if_pos hmake, if_pos hmake.1, hheld, none_or]
    cases hid : e.id.held a.id with
    | some sing => exact .inl ⟨fun h ↦ absurd h.2 nofun, _, rfl, rfl⟩
    | none => simpa [hheld] using hload
  · have hnone : (e.pluid.held a.pluid).or (if e.pluid.asked then (e.id.held a.id).map
        (makePlurals g) else none) = e.pluid.held a.pluid := by
      rw [Cell.held]
      split
      · next hasked =>
        obtain ⟨item, hitem⟩ := ne_none_iff_exists'.1 fun h ↦ hmake ⟨hasked, h⟩
        rw [hitem]
        rfl
      · rfl
    rw [if_neg hmake, hnone]
    refine hload.imp (fun h ↦ ⟨fun hs ↦ h.1 hs.1, h.2⟩)
      (Or.imp (fun h ↦ ⟨fun hs ↦ h.1 hs.1, h.2⟩) fun h ↦ ?_)
    exact absurd (asked_of_spoilt h.1) hmake

/-! ### The lists of a match -/

/-- Whenever an element is used as an array it is one, and the names can be used. -/
def Usable (m : Master) (e : Entry) : Prop :=
  ∀ kind p, names m e kind = some p →
    ∃ ids, p.1 = some ids ∧ NamesOk ids p.2 e.adj1id.vec e.adj2id.vec

theorem usable_cell_iff {c : Cell} {held r x y : Option (List Svalue)} {spoilt : Prop}
    (h : Loaded c held spoilt) :
    (∀ p, (match c with
        | .number _ => none
        | c => some (c.vec, r)) = some p → ∃ ids, p.1 = some ids ∧ NamesOk ids p.2 x y) ↔
      ¬spoilt ∧ ∀ ids, held = some ids → NamesOk ids r x y := by
  obtain ⟨hspoilt, item, rfl, rfl⟩ | ⟨hspoilt, rfl, n, rfl⟩ | ⟨hspoilt, rfl, rfl⟩ := h
  · constructor
    · intro hall
      obtain ⟨ids, hids, hok⟩ := hall _ rfl
      exact ⟨hspoilt, fun ids' hids' ↦ some.inj (hids.symm.trans hids') ▸ hok⟩
    · rintro ⟨-, hall⟩ p hp
      cases hp
      exact ⟨item, rfl, hall item rfl⟩
  · exact ⟨fun _ ↦ ⟨hspoilt, nofun⟩, fun _ _ hp ↦ absurd hp nofun⟩
  · constructor
    · intro hall
      obtain ⟨ids, hids, -⟩ := hall _ rfl
      cases hids
    · exact fun hall ↦ absurd hspoilt hall.1

theorem usable_default_iff {d r x y : Option (List Svalue)} :
    (∀ p, (d.map fun ids ↦ (some ids, r)) = some p →
      ∃ ids, p.1 = some ids ∧ NamesOk ids p.2 x y) ↔
      ∀ ids, d = some ids → NamesOk ids r x y := by
  constructor
  · rintro h ids rfl
    obtain ⟨ids', hids, hok⟩ := h _ rfl
    cases hids
    exact hok
  · intro h p hp
    obtain ⟨ids, hids, rfl⟩ := map_eq_some_iff.1 hp
    exact ⟨ids, rfl, h ids hids⟩

theorem usable_load_iff : Usable m (e.load g a) ↔ Tolerable g m e a := by
  have hadj1 : (e.load g a).adj1id.vec = e.adj1id.held a.adj1 := Cell.vec_load ..
  have hadj2 : (e.load g a).adj2id.vec = e.adj2id.held a.adj2 := Cell.vec_load ..
  have hrodz : (e.load g a).rodz.vec = e.rodz.held a.rodzaj := Cell.vec_load ..
  have hprodz : (e.load g a).prodz.vec = e.prodz.held a.prodzaj := Cell.vec_load ..
  have hown := @usable_cell_iff _ _ (e.rodz.held a.rodzaj) (e.adj1id.held a.adj1)
    (e.adj2id.held a.adj2) _ (loaded_load e.id a.id)
  have hplural := @usable_cell_iff _ _ (e.prodz.held a.prodzaj) (e.adj1id.held a.adj1)
    (e.adj2id.held a.adj2) _ (@loaded_pluid g e a)
  rw [Usable, hadj1, hadj2]
  constructor
  · intro h
    have h₁ := hown.1 (hrodz ▸ h .own)
    have h₂ := hplural.1 (hprodz ▸ h .ownPlural)
    refine ⟨h₁.1, fun hspoilt hnone ↦ h₂.1 ⟨hspoilt, hnone⟩, fun kind ↦ ?_⟩
    cases kind with
    | master => exact usable_default_iff.1 (h .master)
    | own => exact h₁.2
    | masterPlural => exact usable_default_iff.1 (h .masterPlural)
    | ownPlural => exact h₂.2
  · intro h kind
    cases kind with
    | master => exact usable_default_iff.2 (h.names_ok .master)
    | own =>
      have := hown.2 ⟨h.id_kept, h.names_ok .own⟩
      rwa [← hrodz] at this
    | masterPlural => exact usable_default_iff.2 (h.names_ok .masterPlural)
    | ownPlural =>
      have := hplural.2 ⟨fun hs ↦ h.pluid_kept hs.1 hs.2, h.names_ok .ownPlural⟩
      rwa [← hprodz] at this

end Load

/-! ### Finding a name -/

section Find

variable {str : CString} {wvec : List Word}

theorem explodeString_of_le (h : (commandWords str).length ≤ Object.MAX_ARRAY_SIZE) :
    explodeString str SPACE = .array ((commandWords str).map element) := by
  rw [explodeString_space, allocateArray, ← commandWords, if_neg (Nat.not_lt.2 h)]

theorem explodeString_of_lt (h : Object.MAX_ARRAY_SIZE < (commandWords str).length) :
    explodeString str SPACE = .illegalSize := by
  rw [explodeString_space, allocateArray, ← commandWords, if_pos h]

theorem strings_explodeString {item : List Svalue} (h : explodeString str SPACE = .array item) :
    strings item = commandWords str := by
  by_cases hlen : (commandWords str).length ≤ Object.MAX_ARRAY_SIZE
  · rw [explodeString_of_le hlen, Explode.Result.array.injEq] at h
    rw [← h]
    exact strings_map_element (nul_notMem_kept str)
  · rw [explodeString_of_lt (Nat.not_le.1 hlen)] at h
    cases h

/-- What a word comes to: the search goes on behind it, or the name is found at it, or the name is
too long. -/
theorem findFrom_cases (str : CString) (p1 : Word) (rest : List Word) (cix : ℕ) :
    findFrom str (p1 :: rest) cix = findFrom str rest (cix + 1) ∨
      p1.head? = str.bytes.head? ∧
        ((p1 = str.bytes ∨ commandWords str <+: p1 :: rest) ∧
            (∃ last, findFrom str (p1 :: rest) cix = some (some (cix, last))) ∨
          Object.MAX_ARRAY_SIZE < (commandWords str).length ∧
            findFrom str (p1 :: rest) cix = none) := by
  rw [findFrom]
  split
  · exact .inl rfl
  · next hhead =>
    have hhead := not_not.1 hhead
    split
    · next heq => exact .inr ⟨hhead, .inl ⟨.inl heq, _, rfl⟩⟩
    · split
      · exact .inl rfl
      · split
        · exact .inl rfl
        · by_cases hlen : (commandWords str).length ≤ Object.MAX_ARRAY_SIZE
          · rw [explodeString_of_le hlen]
            dsimp only
            rw [strings_explodeString (explodeString_of_le hlen)]
            split
            · exact .inl rfl
            · split
              · next hprefix =>
                exact .inr ⟨hhead, .inl ⟨.inr ( isPrefixOf_iff_prefix.1 hprefix), _, rfl⟩⟩
              · exact .inl rfl
          · have hlen := Nat.not_le.1 hlen
            rw [explodeString_of_lt hlen]
            exact .inr ⟨hhead, .inr ⟨hlen, rfl⟩⟩

theorem isSome_findFrom (hstr : str.bytes.head? ≠ some 32 →
      (commandWords str).length ≤ Object.MAX_ARRAY_SIZE) (rest : List Word) :
    ∀ cix, (∀ w ∈ rest, 32 ∉ w) → (findFrom str rest cix).isSome := by
  induction rest with
  | nil => exact fun _ _ ↦ rfl
  | cons p1 rest ih =>
    intro cix hblank
    obtain ⟨hp1, hrest⟩ := forall_mem_cons.1 hblank
    obtain h | ⟨hhead, ⟨-, last, h⟩ | ⟨hlong, -⟩⟩ := findFrom_cases str p1 rest cix
    · rw [h]
      exact ih (cix + 1) hrest
    · rw [h]
      rfl
    · -- the word begins with the first character of the name, which is no blank
      have hfirst : str.bytes.head? ≠ some 32 := by
        rw [← hhead]
        exact fun h ↦ hp1 (mem_of_head? h)
      exact absurd (hstr hfirst) (Nat.not_le.2 hlong)

theorem findFrom_found (rest : List Word) : ∀ {cix pos last : ℕ},
    findFrom str rest cix = some (some (pos, last)) →
      cix ≤ pos ∧ pos < cix + rest.length ∧ ∃ w ∈ rest, w.head? = str.bytes.head? := by
  induction rest with
  | nil => exact fun h ↦ absurd h nofun
  | cons p1 rest ih =>
    intro cix pos last h
    rw [length_cons]
    obtain heq | ⟨hhead, ⟨-, last', heq⟩ | ⟨-, heq⟩⟩ := findFrom_cases str p1 rest cix
    · rw [heq] at h
      obtain ⟨hlow, hhigh, w, hw, hhead⟩ := ih h
      exact ⟨by omega, by omega, w, mem_cons_of_mem _ hw, hhead⟩
    · rw [heq] at h
      cases h
      exact ⟨le_rfl, by omega, p1, mem_cons_self, hhead⟩
    · rw [heq] at h
      cases h

theorem skipBlank_bounds (ws : List Word) : ∀ cix, cix ≤ (skipBlank ws cix).2 ∧
    (skipBlank ws cix).2 + (skipBlank ws cix).1.length = cix + ws.length ∧
    (skipBlank ws cix).1 <:+ ws := by
  induction ws with
  | nil => exact fun cix ↦ ⟨le_rfl, rfl, suffix_rfl⟩
  | cons w ws ih =>
    intro cix
    rw [skipBlank]
    split
    · obtain ⟨hle, hlen, hsuffix⟩ := ih (cix + 1)
      refine ⟨by omega, ?_, hsuffix.trans (suffix_cons ..)⟩
      rw [hlen, length_cons]
      omega
    · exact ⟨le_rfl, rfl, suffix_rfl⟩

theorem isSome_findString (hstr : str.bytes.head? ≠ some 32 →
      (commandWords str).length ≤ Object.MAX_ARRAY_SIZE) (hblank : ∀ w ∈ wvec, 32 ∉ w)
    (cix : ℕ) : (findString str wvec cix).isSome := by
  refine isSome_findFrom hstr _ _ fun w hw ↦ hblank w ?_
  exact mem_of_mem_drop ((skipBlank_bounds (wvec.drop cix) cix).2.2.subset hw)

/-- A name is found behind the current word or at it, and not behind the last, and some word begins
as the name does. -/
theorem findString_found {cix pos last : ℕ}
    (h : findString str wvec cix = some (some (pos, last))) :
    cix ≤ pos ∧ pos < wvec.length ∧ ∃ w ∈ wvec, w.head? = str.bytes.head? := by
  obtain ⟨hle, hlen, hsuffix⟩ := skipBlank_bounds (wvec.drop cix) cix
  obtain ⟨hlow, hhigh, w, hw, hhead⟩ := findFrom_found _ h
  rw [hlen, length_drop] at hhigh
  exact ⟨by omega, by omega, w, mem_of_mem_drop (hsuffix.subset hw), hhead⟩

theorem head_of_findString {cix pos last : ℕ} (hblank : ∀ w ∈ wvec, 32 ∉ w)
    (h : findString str wvec cix = some (some (pos, last))) : str.bytes.head? ≠ some 32 := by
  obtain ⟨-, -, w, hw, hhead⟩ := findString_found h
  rw [← hhead]
  exact fun h ↦ hblank w hw (mem_of_mem_head? h)

end Find

/-! ### Adjectives -/

section Adjectives

variable {g : Grammar} {e : Entry} {rodzaj : BitVec 32} {plur : Bool}

theorem isSome_adjectives_iff (adj1 : List Svalue) : ∀ adj2 : List Svalue,
    adj1.length = adj2.length → ((adjectives g rodzaj plur adj1 adj2).isSome ↔
      (∀ v ∈ adj1, ∃ s, v = .string s) ∧ ∀ v ∈ adj2, ∃ s, v = .string s) := by
  induction adj1 with
  | nil =>
    intro adj2 hlen
    obtain rfl := length_eq_zero_iff.1 hlen.symm
    exact iff_of_true rfl ⟨nofun, nofun⟩
  | cons a adj1 ih =>
    intro adj2 hlen
    cases adj2 with
    | nil => cases hlen
    | cons b adj2 =>
      have hrest := ih adj2 (Nat.succ.inj hlen)
      have hstring : ∀ v : Svalue, (∃ s, v = .string s) ↔ ∃ s, stringOf v = some s := by
        intro v
        cases v <;> simp [stringOf]
      rw [adjectives, forall_mem_cons, forall_mem_cons, hstring, hstring]
      cases stringOf a with
      | none => simp
      | some s =>
        cases stringOf b with
        | none => simp
        | some t => simpa using hrest

/-- **The adjectives can be used** if they are right, whatever the gender and the number. -/
theorem isSome_makeAdjectivList_iff {adj1 adj2 : Cell} :
    (makeAdjectivList g adj1 adj2 rodzaj plur).isSome ↔ AdjectivesOk adj1.vec adj2.vec := by
  rw [makeAdjectivList, AdjectivesOk]
  cases adj1.vec with
  | none => simp
  | some l₁ =>
    rw [bind_some]
    split
    · next hlen => exact iff_of_true rfl ⟨l₁, rfl, .inl (length_eq_zero_iff.1 hlen)⟩
    · next hlen =>
      have hne : l₁ ≠ [] := fun h ↦ hlen (h ▸ rfl)
      cases adj2.vec with
      | none => simp [hne]
      | some l₂ =>
        rw [bind_some]
        split
        · next hsize => exact iff_of_true rfl ⟨l₁, rfl, .inr ⟨l₂, rfl, fun h ↦ absurd h hsize⟩⟩
        · next hsize =>
          have hsize := not_not.1 hsize
          rw [isSome_adjectives_iff l₁ l₂ hsize]
          constructor
          · exact fun h ↦ ⟨l₁, rfl, .inr ⟨l₂, rfl, fun _ ↦ h⟩⟩
          · rintro ⟨l, hl, hor⟩
            cases hl
            obtain ⟨l', hl', h⟩ := hor.resolve_left hne
            cases hl'
            exact h hsize

theorem isSome_checkAdjectiv {wvec : List Word} {lo hi : ℕ} (hhi : hi < wvec.length)
    (hok : AdjectivesOk e.adj1id.vec e.adj2id.vec) :
    (checkAdjectiv g e.adj1id e.adj2id wvec lo hi rodzaj plur).isSome := by
  obtain ⟨ids, hids⟩ := isSome_iff_exists.1
    ((@isSome_makeAdjectivList_iff g rodzaj plur _ _).2 hok)
  rw [checkAdjectiv, hids, bind_some, if_pos hhi]
  split <;> rfl

theorem checkAdjectiv_eq_none {wvec : List Word} {lo hi : ℕ}
    (h : ¬AdjectivesOk e.adj1id.vec e.adj2id.vec) :
    checkAdjectiv g e.adj1id e.adj2id wvec lo hi rodzaj plur = none := by
  have hids := not_isSome_iff_eq_none.1
    (mt (@isSome_makeAdjectivList_iff g rodzaj plur _ _).1 h)
  rw [checkAdjectiv, hids, bind_none]

end Adjectives

/-! ### Answers that can be used -/

section Usable

variable {g : Grammar} {m : Master} {e : Entry} {wvec : List Word} {oldCix : ℕ}
  (hblank : ∀ w ∈ wvec, 32 ∉ w)

include hblank

theorem isSome_matchName {plural : Bool} {str : CString} {v : Svalue} {st : MatchState}
    (hstr : str.bytes.head? ≠ some 32 → (commandWords str).length ≤ Object.MAX_ARRAY_SIZE ∧
      AdjectivesOk e.adj1id.vec e.adj2id.vec) :
    (matchName g e wvec oldCix plural str (some v) st).isSome := by
  obtain ⟨r, hr⟩ := isSome_iff_exists.1
    (isSome_findString (fun h ↦ (hstr h).1) hblank oldCix)
  rw [matchName, hr, bind_some]
  cases r with
  | none => rfl
  | some p =>
    obtain ⟨pos, cix⟩ := p
    dsimp only
    split
    · rfl
    · rw [bind_some, isSome_map]
      split
      · rfl
      · -- the adjectives are asked for the words before the name
        obtain ⟨-, hpos, -⟩ := findString_found hr
        exact isSome_checkAdjectiv (by omega) (hstr (head_of_findString hblank hr)).2

theorem isSome_matchNames {plural : Bool} {rodz : List Svalue} (ids : List Svalue) :
    ∀ (il : ℕ) (st : MatchState), il + ids.length = rodz.length →
      (∀ s : CString, .string s ∈ ids → s.bytes.head? ≠ some 32 →
        (commandWords s).length ≤ Object.MAX_ARRAY_SIZE ∧
          AdjectivesOk e.adj1id.vec e.adj2id.vec) →
      (matchNames g e wvec oldCix plural rodz ids il st).isSome := by
  induction ids with
  | nil => exact fun _ _ _ _ ↦ rfl
  | cons v ids ih =>
    intro il st hlen hids
    rw [length_cons] at hlen
    have hrest := fun st' ↦ ih (il + 1) st' (by omega)
      fun s hs ↦ hids s (mem_cons_of_mem _ hs)
    cases v with
    | string str =>
      have hil : il < rodz.length := by omega
      obtain ⟨st', hst'⟩ := isSome_iff_exists.1 (@isSome_matchName g e wvec oldCix hblank
        plural str rodz[il] st (hids str mem_cons_self))
      rw [matchNames, List.getElem?_eq_getElem hil, hst', bind_some]
      exact hrest st'
    | _ => exact hrest st

theorem isSome_matchKinds (h : Usable m e) (kinds : List NameKind) :
    ∀ st, (matchKinds g e wvec oldCix m kinds st).isSome := by
  induction kinds with
  | nil => exact fun _ ↦ rfl
  | cons kind kinds ih =>
    intro st
    rw [matchKinds]
    split
    · exact ih st
    · next ids rodz hnames =>
      obtain ⟨ids, rfl, l, rfl, hok⟩ := h kind _ hnames
      rw [bind_some, bind_some]
      split
      · exact ih st
      · next hlen =>
        have hlen := not_not.1 hlen
        obtain ⟨st', hst'⟩ := isSome_iff_exists.1 (@isSome_matchNames g e wvec oldCix hblank
          kind.plural l ids 0 st (by rw [Nat.zero_add, hlen]) (hok hlen))
        rw [hst', bind_some]
        split
        · rfl
        · exact ih st'

end Usable

/-! ### Words for a name -/

section Words

variable {str : CString}

theorem blank_notMem_commandWords : ∀ w ∈ commandWords str, 32 ∉ w :=
  fun _ hw ↦ notMem_of_mem_pieces str.bytes not_mem_nil (mem_of_mem_kept hw)

theorem commandWords_cons (hne : str.bytes ≠ []) (hhead : str.bytes.head? ≠ some 32) :
    ∃ w ws, commandWords str = w :: ws ∧ w.head? = str.bytes.head? ∧
      w.length ≤ str.bytes.length ∧ (32 ∉ str.bytes → w = str.bytes ∧ ws = []) := by
  rw [commandWords]
  by_cases hblank : 32 ∈ str.bytes
  · obtain ⟨text, rest, hbytes, htext⟩ := eq_append_cons_of_mem hblank
    have htextne : text ≠ [] := by
      rintro rfl
      exact hhead (congrArg List.head? hbytes)
    refine ⟨text, kept (pieces [32] rest []), ?_, ?_, ?_, fun h ↦ absurd hblank h⟩
    · rw [hbytes]
      exact (congrArg kept (pieces_append_cons htext)).trans (kept_cons pieces_ne_nil)
    · rw [hbytes, List.head?_append_of_ne_nil _ htextne]
    · rw [hbytes, length_append]
      exact Nat.le_add_right _ _
  · refine ⟨str.bytes, [], ?_, rfl, le_rfl, fun _ ↦ ⟨rfl, rfl⟩⟩
    exact (congrArg kept (pieces_of_notMem hblank)).trans
      ((kept_singleton _).trans (if_neg hne))

theorem exists_words (hhead : str.bytes.head? ≠ some 32)
    (hlen : (commandWords str).length ≤ Object.MAX_ARRAY_SIZE) :
    ∃ ws : List Word, (∀ w ∈ ws, 32 ∉ w) ∧ ∃ p, findString str ([] :: ws) 0 = some (some p) := by
  by_cases hne : str.bytes = []
  · -- the words that are empty at the beginning are skipped
    refine ⟨[[120], []], by decide, (2, 2), ?_⟩
    rw [findString, drop_zero, skipBlank, if_pos rfl, skipBlank, if_neg nofun]
    dsimp only
    rw [findFrom, hne, if_pos nofun, findFrom, hne, if_neg (not_not.2 rfl), if_pos rfl]
  · obtain ⟨w, ws, hwords, hw, -, hone⟩ := commandWords_cons hne hhead
    have hwne : w ≠ [] := by
      rintro rfl
      exact hne (List.head?_eq_none_iff.1 hw.symm)
    refine ⟨w :: (ws ++ [[]]), fun u hu ↦ ?_, ?_⟩
    · rw [← cons_append, ← hwords] at hu
      obtain hu | hu := mem_append.1 hu
      · exact blank_notMem_commandWords u hu
      · exact mem_singleton.1 hu ▸ not_mem_nil
    · rw [findString, drop_zero, skipBlank, if_pos rfl, skipBlank, if_neg hwne]
      dsimp only
      rw [findFrom, if_neg (not_not.2 hw)]
      split
      · exact ⟨_, rfl⟩
      · next hbytes =>
        have hblank : 32 ∈ str.bytes := not_not.1 fun h ↦ hbytes (hone h).1
        rw [if_neg (not_not.2 hblank), if_neg (by simp),
          explodeString_of_le hlen]
        dsimp only
        rw [strings_explodeString (explodeString_of_le hlen), hwords, if_neg (by simp), if_pos]
        · exact ⟨_, rfl⟩
        · exact isPrefixOf_iff_prefix.2 (prefix_append (w :: ws) [[]])

theorem findFrom_of_longer {rest : List Word}
    (hrest : ∀ w ∈ rest, str.bytes.length < w.length ∧ 32 ∉ w) :
    ∀ {cix p}, findFrom str rest cix ≠ some (some p) := by
  induction rest with
  | nil => exact nofun
  | cons p1 rest ih =>
    intro cix p h
    obtain ⟨⟨hlong, hblank⟩, hrest⟩ := forall_mem_cons.1 hrest
    obtain heq | ⟨hhead, ⟨hname, -⟩ | ⟨-, heq⟩⟩ := findFrom_cases str p1 rest cix
    · rw [heq] at h
      exact ih hrest h
    · have hne : str.bytes ≠ [] := by
        intro hnil
        rw [hnil] at hhead hlong
        rw [List.head?_eq_none_iff.1 hhead] at hlong
        exact lt_irrefl _ hlong
      obtain rfl | hprefix := hname
      · exact lt_irrefl _ hlong
      · -- the first word of the name would be the longer one
        obtain ⟨w, ws, hwords, -, hle, -⟩ := commandWords_cons hne fun h ↦
          hblank (mem_of_mem_head? (hhead.trans h))
        rw [hwords] at hprefix
        obtain ⟨rfl, -⟩ := cons_prefix_cons.1 hprefix
        exact absurd hlong (Nat.not_lt.2 hle)
    · rw [heq] at h
      cases h

theorem findString_of_ne_nil {w : Word} {ws : List Word} (hw : w ≠ []) :
    findString str (w :: ws) 0 = findFrom str (w :: ws) 0 := by
  rw [findString, drop_zero, skipBlank, if_neg hw]

theorem findString_of_lt (hlong : Object.MAX_ARRAY_SIZE < (commandWords str).length) {w u : Word}
    (hw : w ≠ []) (hhead : w.head? = str.bytes.head?) (hblank : 32 ∉ w) :
    findString str [w, u] 0 = none := by
  have hmem : 32 ∈ str.bytes := by
    by_contra hnot
    have hstr : str.bytes ≠ [] := by
      intro h
      rw [h] at hhead
      exact hw (List.head?_eq_none_iff.1 hhead)
    obtain ⟨_, ws, hwords, -, -, hone⟩ := commandWords_cons hstr
      fun h ↦ hnot (mem_of_mem_head? h)
    rw [hwords, (hone hnot).2, length_singleton] at hlong
    exact absurd hlong (by decide)
  have hne : w ≠ str.bytes := fun h ↦ hblank (h ▸ hmem)
  rw [findString_of_ne_nil hw, findFrom, if_neg (not_not.2 hhead), if_neg hne,
    if_neg (not_not.2 hmem), if_neg nofun, explodeString_of_lt hlong]

end Words

/-! ### Answers that cannot be used -/

section Misused

variable {g : Grammar} {m : Master} {e : Entry} {wvec : List Word} {oldCix : ℕ}

/-- None of the names matches, in the words from `oldCix` on. -/
def Idle (g : Grammar) (m : Master) (e : Entry) (wvec : List Word) (oldCix : ℕ) : Prop :=
  ∀ kind ids rodz, names m e kind = some (some ids, rodz) → ∀ str : CString, .string str ∈ ids →
    ∀ plural item st st', matchName g e wvec oldCix plural str item st = some st' → st' = st

theorem matchNames_idle {plural : Bool} {rodz : List Svalue} {st : MatchState}
    (ids : List Svalue) : ∀ {il st'}, (∀ str : CString, .string str ∈ ids → ∀ item st',
      matchName g e wvec oldCix plural str item st = some st' → st' = st) →
    matchNames g e wvec oldCix plural rodz ids il st = some st' →
      st' = st ∧ ∀ str : CString, .string str ∈ ids →
        ∃ item, matchName g e wvec oldCix plural str item st = some st := by
  induction ids with
  | nil =>
    intro il st' _ h
    cases h
    exact ⟨rfl, nofun⟩
  | cons v ids ih =>
    intro il st' hidle h
    have hrest := fun str hstr ↦ hidle str (mem_cons_of_mem v hstr)
    cases v with
    | string str =>
      rw [matchNames] at h
      obtain ⟨st₁, hname, hids⟩ := bind_eq_some_iff.1 h
      obtain rfl := hidle str mem_cons_self _ _ hname
      obtain ⟨rfl, hall⟩ := ih hrest hids
      refine ⟨rfl, fun t ht ↦ ?_⟩
      obtain ht | ht := mem_cons.1 ht
      · cases ht
        exact ⟨_, hname⟩
      · exact hall t ht
    | _ =>
      obtain ⟨rfl, hall⟩ := ih hrest h
      exact ⟨rfl, fun t ht ↦ hall t ((mem_cons.1 ht).resolve_left nofun)⟩

theorem matchKinds_idle (hidle : Idle g m e wvec oldCix) {st : MatchState} (hst : st.found = none)
    (kinds : List NameKind) : (matchKinds g e wvec oldCix m kinds st).isSome →
      ∀ kind ∈ kinds, ∀ p, names m e kind = some p →
        ∃ ids rodz, p = (some ids, some rodz) ∧ (rodz.length = ids.length →
          ∀ str : CString, .string str ∈ ids →
            ∃ item, matchName g e wvec oldCix kind.plural str item st = some st) := by
  induction kinds with
  | nil => exact fun _ ↦ nofun
  | cons kind kinds ih =>
    intro h
    rw [matchKinds] at h
    split at h
    · next hnone =>
      rintro k hk p hp
      obtain rfl | hk := mem_cons.1 hk
      · rw [hnone] at hp
        cases hp
      · exact ih h k hk p hp
    · next ids rodz hnames =>
      obtain ⟨r, hr⟩ := isSome_iff_exists.1 h
      obtain ⟨rodz, rfl, hrodz⟩ := bind_eq_some_iff.1 hr
      obtain ⟨ids, rfl, hids⟩ := bind_eq_some_iff.1 hrodz
      have hkinds : (rodz.length = ids.length → ∀ str : CString, .string str ∈ ids →
            ∃ item, matchName g e wvec oldCix kind.plural str item st = some st) ∧
          (matchKinds g e wvec oldCix m kinds st).isSome := by
        split at hids
        · next hlen => exact ⟨fun heq ↦ absurd heq hlen, hids ▸ rfl⟩
        · obtain ⟨st', hst', hnext⟩ := bind_eq_some_iff.1 hids
          obtain ⟨rfl, hall⟩ := matchNames_idle ids
            (fun str hstr item ↦ hidle kind ids _ hnames str hstr kind.plural item st) hst'
          rw [hst, if_neg nofun] at hnext
          exact ⟨fun _ ↦ hall, hnext ▸ rfl⟩
      rintro k hk p hp
      obtain rfl | hk := mem_cons.1 hk
      · rw [hnames, some.injEq] at hp
        exact ⟨ids, rodz, hp.symm, hkinds.1⟩
      · exact ih hkinds.2 k hk p hp

theorem matchName_idle {plural : Bool} {str : CString} {item : Option Svalue} {st st' : MatchState}
    (hnot : ∀ p, findString str wvec oldCix ≠ some (some p))
    (h : matchName g e wvec oldCix plural str item st = some st') : st' = st := by
  rw [matchName] at h
  obtain ⟨r, hr, h⟩ := bind_eq_some_iff.1 h
  cases r with
  | none => exact (some.inj h).symm
  | some p => exact absurd hr (hnot p)

theorem matchName_of_not_ok {plural : Bool} {str : CString} {item : Option Svalue} {st : MatchState}
    {pos cix : ℕ} (hadj : ¬AdjectivesOk e.adj1id.vec e.adj2id.vec)
    (hr : findString str wvec oldCix = some (some (pos, cix))) (hpos : oldCix ≠ pos) :
    matchName g e wvec oldCix plural str item st =
      if cix - pos + 1 < st.maxLen then some st else none := by
  rw [matchName, hr, bind_some]
  dsimp only
  split
  · rfl
  · cases item with
    | none => rfl
    | some v => rw [bind_some, if_neg hpos.symm, checkAdjectiv_eq_none hadj, map_none]

theorem findString_nil_cons {str : CString} {ws : List Word} {pos cix : ℕ}
    (h : findString str ([] :: ws) 0 = some (some (pos, cix))) : 0 ≠ pos := by
  obtain ⟨hle, -⟩ := skipBlank_bounds ws 1
  rw [findString, drop_zero, skipBlank, if_pos rfl] at h
  obtain ⟨hpos, -⟩ := findFrom_found _ h
  exact Nat.ne_of_lt (hle.trans hpos)

theorem idle_of_not_ok {ws : List Word} (hadj : ¬AdjectivesOk e.adj1id.vec e.adj2id.vec) :
    Idle g m e ([] :: ws) 0 := by
  intro kind ids rodz _ str _ plural item st st' h
  by_cases hfound : ∃ p, findString str ([] :: ws) 0 = some (some p)
  · obtain ⟨⟨pos, cix⟩, hr⟩ := hfound
    rw [matchName_of_not_ok hadj hr (findString_nil_cons hr)] at h
    split at h
    · exact (some.inj h).symm
    · cases h
  · exact matchName_idle (not_exists.1 hfound) h

/-- The length of a name. -/
def nameLength : Svalue → ℕ
  | .string s => s.bytes.length
  | _ => 0

theorem exists_longest (m : Master) (e : Entry) :
    ∃ n, ∀ kind ids rodz, names m e kind = some (some ids, rodz) →
      ∀ str : CString, .string str ∈ ids → str.bytes.length ≤ n := by
  have hkind (kind : NameKind) : ∃ n, ∀ ids rodz, names m e kind = some (some ids, rodz) →
      ∀ str : CString, .string str ∈ ids → str.bytes.length ≤ n := by
    rcases names m e kind with - | ⟨- | ids, rodz⟩
    · exact ⟨0, nofun⟩
    · exact ⟨0, nofun⟩
    · refine ⟨(ids.map nameLength).sum, fun ids' rodz' h str hstr ↦ ?_⟩
      cases h
      exact le_sum_of_mem (mem_map_of_mem (f := nameLength) hstr)
  choose n hn using hkind
  refine ⟨n .master + n .own + n .masterPlural + n .ownPlural, fun kind ids rodz h str hstr ↦ ?_⟩
  have := hn kind ids rodz h str hstr
  cases kind <;> omega

/-- **Answers that do not go wrong can be used.** -/
theorem usable_of_isSome (h : ∀ (wvec : List Word) (cix : ℕ), (∀ w ∈ wvec, 32 ∉ w) →
    (matchKinds g e wvec cix m (kindsFrom false) { maxLen := 0, plur := false }).isSome) :
    Usable m e := by
  have hmem (kind : NameKind) : kind ∈ kindsFrom false := by
    cases kind <;> decide
  intro kind p hnames
  -- without words nothing is found, so that all of the lists are looked at
  have hnil : Idle g m e [] 0 := fun _ _ _ _ _ _ _ _ _ _ ↦ matchName_idle nofun
  obtain ⟨ids, l, rfl, -⟩ := matchKinds_idle hnil rfl _ (h [] 0 nofun) kind (hmem kind) p hnames
  refine ⟨ids, rfl, l, rfl, fun hlen s hs hhead ↦ ?_⟩
  have hsearch {wvec : List Word} (hidle : Idle g m e wvec 0) (hblank : ∀ w ∈ wvec, 32 ∉ w) :
      ∃ item, matchName g e wvec 0 kind.plural s item { maxLen := 0, plur := false } =
        some { maxLen := 0, plur := false } := by
    obtain ⟨ids', l', hp, hall⟩ := matchKinds_idle hidle rfl _ (h wvec 0 hblank) kind (hmem kind) _
      hnames
    cases hp
    exact hall hlen s hs
  have hwords : (commandWords s).length ≤ Object.MAX_ARRAY_SIZE := by
    by_contra hlong
    obtain ⟨n, hn⟩ := exists_longest m e
    obtain ⟨c, hc⟩ : ∃ c, s.bytes.head? = some c := by
      refine ne_none_iff_exists'.1 fun hnone ↦ hlong ?_
      rw [commandWords, List.head?_eq_none_iff.1 hnone, pieces, kept_singleton, if_pos rfl]
      exact Nat.zero_le _
    -- two words that begin as the name does, and are longer than all of the names
    obtain ⟨w, hw⟩ : ∃ w, c :: List.replicate n 120 = w := ⟨_, rfl⟩
    have hne : w ≠ [] := hw ▸ cons_ne_nil _ _
    have hblank : 32 ∉ w := by
      rw [← hw, mem_cons, mem_replicate, not_or]
      exact ⟨fun h ↦ hhead (h ▸ hc), fun h ↦ absurd h.2 (by decide)⟩
    have hlen : w.length = n + 1 := by rw [← hw, length_cons, length_replicate]
    have hidle : Idle g m e [w, w] 0 := by
      intro k ids rodz hk str hstr _ _ _ _
      refine matchName_idle fun p ↦ ?_
      rw [findString_of_ne_nil hne]
      refine findFrom_of_longer fun u hu ↦ ?_
      obtain rfl : u = w := by simpa using hu
      have := hn k ids rodz hk str hstr
      exact ⟨by omega, hblank⟩
    obtain ⟨item, hmatch⟩ := hsearch hidle (by simpa using hblank)
    have hfail : findString s [w, w] 0 = none :=
      findString_of_lt (Nat.not_le.1 hlong) hne (by rw [hc, ← hw]; rfl) hblank
    rw [matchName, hfail] at hmatch
    cases hmatch
  refine ⟨hwords, by_contra fun hadj ↦ ?_⟩
  obtain ⟨ws, hblank, ⟨pos, cix⟩, hr⟩ := exists_words hhead hwords
  obtain ⟨item, hmatch⟩ := @hsearch ([] :: ws) (idle_of_not_ok hadj)
    (forall_mem_cons.2 ⟨not_mem_nil, hblank⟩)
  rw [matchName_of_not_ok hadj hr (findString_nil_cons hr), if_neg (Nat.not_lt_zero _)] at hmatch
  cases hmatch

end Misused

/-! ### Which answers are tolerated -/

/-- **The match of an object does not go wrong**, whatever the words of the command are, when and
only when what is answered is tolerable. -/
theorem tolerates_iff {size : ℕ} (g : Grammar) (m : Master) (lists : Lists size) (ix : Fin size)
    (a : Answers) : Tolerates g m lists ix a ↔ Tolerable g m (lists ix) a := by
  have hload : loadLpcInfo g lists ix a ix = (lists ix).load g a := Function.update_self ..
  rw [← usable_load_iff]
  constructor
  · intro h
    refine @usable_of_isSome g _ _ fun wvec cix hblank ↦ ?_
    have := h wvec cix false 0 hblank
    rwa [matchObject, hload] at this
  · intro h wvec cix plur maxLen hblank
    rw [matchObject, hload]
    exact isSome_matchKinds hblank h _ _

/-- A language where the words are not inflected. -/
def uninflected : Grammar where
  parseToPlural := id
  obliczPrzym := fun s _ _ _ ↦ some s
  number
    | .number n => n
    | _ => 0
  number_eq := fun _ ↦ rfl

/-- What an object answers that has a name, but has no gender for it. -/
def noGenders : Answers where
  pluid := none
  id := some (.pointer 0 [.string (.ofBytes [97])])
  rodzaj := none
  prodzaj := none
  adj1 := none
  adj2 := none

/-- The number 1 stands for the genders of an object that has none, and it is used as an array. -/
theorem not_tolerates : ¬∀ (g : Grammar) (m : Master) (size : ℕ) (ix : Fin size) (a : Answers),
    Tolerates g m (emptyLists size) ix a := by
  intro h
  have := h uninflected ⟨none, none, none, none⟩ 1 0 noGenders [] 0 false 0 (by simp)
  revert this
  decide

end Lpmud.ParseCommand
