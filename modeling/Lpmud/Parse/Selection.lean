import Lpmud.Lib.Longest
import Lpmud.Parse.Tolerance

/-!
# The choice of objects

`item_parse` of `parse.c` chooses the objects that the words of a command name. It goes through the
objects once. An object is put into an array if it matches, and the array is filled from the front
again when a match is longer than those before; the length of a match is the number of words of the
name, without the adjectives.

What comes before the names, a numeral or a pronoun, is a parameter (`Start`), with the objects that
a pronoun refers to. The message to the command giver about gender and number is left out.
-/

namespace Lpmud.ParseCommand

open List Longest
open Option (bind_eq_some_iff map_eq_some_iff map_some)

/-! ### The choice -/

/-- The beginning of the words: a numeral, or else the objects of a pronoun, and the number of the
word behind it. -/
structure Start where
  numeral : Option (BitVec 32)
  pronoun : Option (List Svalue)
  cix : ℕ

/-- `plur_flag`, before the objects are looked at. -/
def Start.plur (p : Start) : Bool := p.numeral.any fun n ↦ n.toInt > 1 ∨ n = 0

def Start.matchAll (p : Start) : Bool := p.numeral = some 0

/-- The type of a value is `T_OBJECT`. -/
def isObject : Svalue → Bool
  | .object _ => true
  | _ => false

/-- What `match_object` returns. -/
def MatchState.returned (r : MatchState) : ℕ := if r.found.isSome then r.maxLen else 0

/-- The variables of `item_parse`: the lists, the array `tmp` with the number of elements in use,
and the values whose place in it was taken without that they were freed. -/
structure Selection (size : ℕ) where
  lists : Lists size
  plur : Bool
  maxLen : ℕ
  maxCix : ℕ
  tix : ℕ
  tmp : List Svalue
  lost : List Svalue

/-- How `item_parse` ends: the array that it returns unless it fails, the number of the current
word, and the values that nothing frees. -/
structure ItemParse where
  ret : Option (List Svalue)
  cix : ℕ
  lost : List Svalue

section Code

variable (g : Grammar) (m : Master) (obvec : List Svalue) (answers : Fin obvec.length → Answers)
  (wvec : List Word)

/-- `assign_svalue_no_free` to the next element of `tmp`. -/
def Selection.put {size : ℕ} (s : Selection size) (v : Svalue) : Selection size where
  lists := s.lists
  plur := s.plur
  maxLen := s.maxLen
  maxCix := s.maxCix
  tix := s.tix + 1
  tmp := s.tmp.set s.tix v
  lost := s.lost ++ s.tmp[s.tix]?.toList.filter isObject

/-- A match of length `len` up to the word `cix`. -/
def Selection.matched {size : ℕ} (s : Selection size) (len cix : ℕ) (plur : Bool) (v : Svalue) :
    Selection size :=
  let s := { s with plur := plur }
  let s := if len > s.maxLen then { s with maxLen := len, tix := 1 } else s
  let s := s.put v
  { s with maxCix := max s.maxCix cix }

/-- One round of the loop. -/
def selectObject (cixIn : ℕ) (s : Selection obvec.length) (obix : Fin obvec.length) :
    Option (Selection obvec.length) :=
  if isObject (obvec.get obix) then
    let lists := loadLpcInfo g s.lists obix (answers obix)
    (matchObject g m lists obix wvec cixIn s.plur s.maxLen).map fun r ↦
      let s := { s with lists := lists }
      match r.found with
      | some found =>
        if r.returned ≠ 0 then s.matched r.returned found.cix found.plur (obvec.get obix) else s
      | none => s
  else some s

/-- The objects of a pronoun that are in the array. -/
def pronounObjects (destructed : Obj → Bool) (tmp : List Svalue) : List Svalue :=
  tmp.filter fun
    | .object ob => !destructed ob && obvec.any fun
      | .object ob' => ob' = ob
      | _ => false
    | _ => false

/-- What comes behind the loop. -/
def finishParse (p : Start) (s : Selection obvec.length) : ItemParse :=
  let all := p.matchAll && s.tix < 2
  let s := if all then (obvec.filter isObject).foldl Selection.put s else s
  if s.tix < 2 then ⟨none, if p.numeral.isSome then p.cix - 1 else p.cix, s.lost⟩
  else
    let ret := s.tmp.take s.tix
    ⟨some (if p.numeral.isSome then ret else ret.set 0 (.number (if s.plur then 0 else 1))),
      if !all && p.cix < wvec.length then s.maxCix + 1 else p.cix, s.lost⟩

/-- `item_parse`. The variable `cix` has no value where it is compared with the number of words; it
is `cix₀`. -/
def itemParse (destructed : Obj → Bool) (lists : Lists obvec.length) (cix₀ : ℕ) (p : Start) :
    Option ItemParse :=
  match p.numeral, p.pronoun with
  | none, some tmp =>
    let ret := pronounObjects obvec destructed tmp
    some (if ret = [] then ⟨none, p.cix, []⟩
      else ⟨some (.number (if ret.length > 1 then 0 else 1) :: ret), p.cix, []⟩)
  | _, _ =>
    let tmp := (p.numeral.elim const0 Svalue.number) :: List.replicate obvec.length const0
    let s : Selection obvec.length := ⟨lists, p.plur, 0, p.cix, 1, tmp, []⟩
    (if !p.matchAll ∨ cix₀ ≠ wvec.length then
        (List.finRange obvec.length).foldlM (selectObject g m obvec answers wvec p.cix) s
      else some s).map (finishParse obvec wvec p)

end Code

/-! ### The matches in turn -/

/-- A match of an object: the number of words of the name, the last word, and whether it is in the
plural. -/
structure Match (size : ℕ) where
  obix : Fin size
  len : ℕ
  cix : ℕ
  plur : Bool

section Turns

variable (g : Grammar) (m : Master) (obvec : List Svalue) (answers : Fin obvec.length → Answers)
  (wvec : List Word) (lists : Lists obvec.length) (cixIn : ℕ)

/-- The match of an object, if it is asked for with the flag `plur` and the length `best` to
beat. -/
def objectMatch (plur : Bool) (best : ℕ) (obix : Fin obvec.length) :
    Option (Option (Match obvec.length)) :=
  if isObject (obvec.get obix) then
    (matchObject g m (loadLpcInfo g lists obix (answers obix)) obix wvec cixIn plur best).map
      fun r ↦ r.found.map fun found ↦ ⟨obix, r.maxLen, found.cix, found.plur⟩
  else some none

/-- The matches of the objects, one after the other. Each is asked for with the flag that the match
before it left, and with the greatest length so far. -/
def matchesInTurn : Bool → ℕ → List (Fin obvec.length) → Option (List (Match obvec.length))
  | _, _, [] => some []
  | plur, best, obix :: rest =>
    (objectMatch g m obvec answers wvec lists cixIn plur best obix).bind fun
      | some r => (matchesInTurn r.plur (max best r.len) rest).map (r :: ·)
      | none => matchesInTurn plur best rest

end Turns

section Spec

variable (obvec : List Svalue) (p : Start) (ms : List (Match obvec.length))

/-- The objects of the longest matches. -/
def chosen : List Svalue := (longest Match.len ms).map (obvec.get ·.obix)

/-- The flag for the plural behind the matches. -/
def plurAfter : Bool := (ms.getLast?.map Match.plur).getD p.plur

/-- The last word that a match reaches. -/
def furthest : ℕ := max p.cix (greatest Match.cix ms)

/-- What is returned: the number that is asked for and the objects of the longest matches, or all
objects if all are asked for and none matches. -/
def selection : Option (List Svalue) :=
  let number := p.numeral.getD (if plurAfter obvec p ms then 0 else 1)
  let objects := if ms = [] ∧ p.matchAll then obvec.filter isObject else chosen obvec ms
  if objects = [] then none else some (.number number :: objects)

end Spec

/-! ### The length of a match -/

section Length

variable {g : Grammar} {m : Master} {e : Entry} {wvec : List Word} {oldCix : ℕ}

/-- A match is not shorter than `best`, and there is a word for it. -/
structure MatchState.Beats (st : MatchState) (wvec : List Word) (oldCix best : ℕ) : Prop where
  best_le : best ≤ st.maxLen
  found_pos : st.found.isSome → 1 ≤ st.maxLen ∧ oldCix < wvec.length

variable {best : ℕ}

theorem beats_matchName {plural : Bool} {str : CString} {item : Option Svalue}
    {st st' : MatchState} (hst : st.Beats wvec oldCix best)
    (h : matchName g e wvec oldCix plural str item st = some st') :
    st'.Beats wvec oldCix best := by
  rw [matchName] at h
  obtain ⟨r, hr, h⟩ := bind_eq_some_iff.1 h
  cases r with
  | none =>
    cases h
    exact hst
  | some p =>
    obtain ⟨pos, cix⟩ := p
    dsimp only at h
    split at h
    · cases h
      exact hst
    · next hlen =>
      obtain ⟨v, -, h⟩ := bind_eq_some_iff.1 h
      obtain ⟨ok, -, rfl⟩ := map_eq_some_iff.1 h
      split
      · obtain ⟨hle, hlt, -⟩ := findString_found hr
        exact ⟨hst.best_le.trans (Nat.not_lt.1 hlen),
          fun _ ↦ ⟨Nat.le_add_left .., hle.trans_lt hlt⟩⟩
      · exact hst

theorem beats_matchNames {plural : Bool} {rodz : List Svalue} (ids : List Svalue) :
    ∀ {il st st'}, st.Beats wvec oldCix best →
      matchNames g e wvec oldCix plural rodz ids il st = some st' →
        st'.Beats wvec oldCix best := by
  induction ids with
  | nil =>
    intro il st st' hst h
    cases h
    exact hst
  | cons v ids ih =>
    intro il st st' hst h
    cases v with
    | string str =>
      rw [matchNames] at h
      obtain ⟨st₁, hname, hids⟩ := bind_eq_some_iff.1 h
      exact ih (beats_matchName hst hname) hids
    | _ => exact ih hst h

theorem beats_matchKinds (kinds : List NameKind) : ∀ {st st'}, st.Beats wvec oldCix best →
    matchKinds g e wvec oldCix m kinds st = some st' → st'.Beats wvec oldCix best := by
  induction kinds with
  | nil =>
    intro st st' hst h
    cases h
    exact hst
  | cons kind kinds ih =>
    intro st st' hst h
    rw [matchKinds] at h
    split at h
    · exact ih hst h
    · obtain ⟨rodz, -, hrodz⟩ := bind_eq_some_iff.1 h
      obtain ⟨ids, -, hids⟩ := bind_eq_some_iff.1 hrodz
      split at hids
      · exact ih hst hids
      · obtain ⟨st₁, hst₁, hnext⟩ := bind_eq_some_iff.1 hids
        have hbeats := beats_matchNames ids hst hst₁
        split at hnext
        · cases hnext
          exact hbeats
        · exact ih hbeats hnext

end Length

/-! ### The loop -/

section Loop

variable {g : Grammar} {m : Master} {obvec : List Svalue} {answers : Fin obvec.length → Answers}
  {wvec : List Word} {lists : Lists obvec.length} {p : Start}

theorem objectMatch_beats {cixIn : ℕ} {plur : Bool} {best : ℕ} {obix : Fin obvec.length}
    {r : Match obvec.length}
    (h : objectMatch g m obvec answers wvec lists cixIn plur best obix = some (some r)) :
    best ≤ r.len ∧ 1 ≤ r.len ∧ cixIn < wvec.length := by
  rw [objectMatch] at h
  split at h
  · obtain ⟨st, hst, h⟩ := map_eq_some_iff.1 h
    obtain ⟨found, hfound, rfl⟩ := map_eq_some_iff.1 h
    have hstart : MatchState.Beats { maxLen := best, plur := plur } wvec cixIn best :=
      ⟨le_rfl, nofun⟩
    have hbeats := beats_matchKinds _ hstart hst
    exact ⟨hbeats.best_le, hbeats.found_pos (by rw [hfound]; rfl)⟩
  · cases h

section Put

variable {size : ℕ} {s : Selection size} {v : Svalue}

@[simp] theorem Selection.put_tix : (s.put v).tix = s.tix + 1 := rfl

@[simp] theorem Selection.length_put : (s.put v).tmp.length = s.tmp.length :=
  length_set ..

theorem Selection.take_put (h : s.tix < s.tmp.length) :
    (s.put v).tmp.take (s.tix + 1) = s.tmp.take s.tix ++ [v] :=
  take_succ_set h

/-- There is no object in the rest of the array. -/
def Selection.Clean (s : Selection size) : Prop := ∀ v ∈ s.tmp.drop s.tix, isObject v = false

theorem Selection.clean_put (h : s.tix < s.tmp.length) (hclean : s.Clean) :
    (s.put v).lost = s.lost ∧ (s.put v).Clean := by
  rw [Clean, drop_eq_getElem_cons h] at hclean
  obtain ⟨hnext, hrest⟩ := forall_mem_cons.1 hclean
  rw [Clean, put_tix]
  dsimp only [put]
  constructor
  · rw [List.getElem?_eq_getElem h, Option.toList_some, filter_singleton, hnext]
    exact append_nil _
  · rwa [drop_set_of_lt (Nat.lt_add_one s.tix)]

theorem Selection.foldl_put (vs : List Svalue) : ∀ {s : Selection size},
    s.tix + vs.length ≤ s.tmp.length → s.Clean →
      (vs.foldl put s).tix = s.tix + vs.length ∧
      (vs.foldl put s).tmp.take (vs.foldl put s).tix = s.tmp.take s.tix ++ vs ∧
      (vs.foldl put s).lost = s.lost := by
  induction vs with
  | nil => exact fun _ _ ↦ ⟨rfl, (append_nil _).symm, rfl⟩
  | cons v vs ih =>
    intro s hroom hclean
    rw [length_cons] at hroom ⊢
    have hnext : s.tix < s.tmp.length := by omega
    obtain ⟨hlost, hclean'⟩ := clean_put (v := v) hnext hclean
    obtain ⟨htix, htake, hlost'⟩ := ih (by rw [put_tix, length_put]; omega) hclean'
    rw [put_tix, take_put hnext, append_assoc, singleton_append] at htake
    exact ⟨by rw [foldl_cons, htix, put_tix]; omega, htake, hlost'.trans hlost⟩

theorem Selection.matched_eq {len cix : ℕ} {plur : Bool} : s.matched len cix plur v =
    { ({ s with plur := plur, maxLen := max s.maxLen len,
                tix := if len > s.maxLen then 1 else s.tix }).put v with
      maxCix := max s.maxCix cix } := by
  rw [matched]
  split
  · next h =>
    dsimp only [put] at h ⊢
    rw [max_eq_right h.le]
  · next h =>
    dsimp only [put] at h ⊢
    rw [max_eq_left (Nat.not_lt.1 h)]

theorem Selection.matched_plur {len cix : ℕ} {plur : Bool} :
    (s.matched len cix plur v).plur = plur := by
  rw [matched_eq]
  rfl

theorem Selection.matched_maxLen {len cix : ℕ} {plur : Bool} :
    (s.matched len cix plur v).maxLen = max s.maxLen len := by
  rw [matched_eq]
  rfl

theorem Selection.matched_lists {len cix : ℕ} {plur : Bool} :
    (s.matched len cix plur v).lists = s.lists := by
  rw [matched_eq]
  rfl

end Put

theorem obix_of_objectMatch {cixIn : ℕ} {plur : Bool} {best : ℕ} {obix : Fin obvec.length}
    {r : Match obvec.length}
    (h : objectMatch g m obvec answers wvec lists cixIn plur best obix = some (some r)) :
    r.obix = obix := by
  rw [objectMatch] at h
  split at h
  · obtain ⟨st, -, h⟩ := map_eq_some_iff.1 h
    obtain ⟨found, -, rfl⟩ := map_eq_some_iff.1 h
    rfl
  · cases h

/-- **The invariant of the loop**, behind the matches `ms`: the part of the array that is in use has
the objects of the longest of them. If they are all of one length, nothing has been lost, and there
is no object in the rest of the array. -/
structure Kept (p : Start) (s : Selection obvec.length) (ms : List (Match obvec.length)) :
    Prop where
  plur_eq : s.plur = plurAfter obvec p ms
  maxLen_eq : s.maxLen = greatest Match.len ms
  maxCix_eq : s.maxCix = furthest obvec p ms
  tix_eq : s.tix = (longest Match.len ms).length + 1
  length_tmp : s.tmp.length = obvec.length + 1
  take_tmp : s.tmp.take s.tix = p.numeral.elim const0 Svalue.number :: chosen obvec ms
  lost_nil : (∀ r ∈ ms, ∀ r' ∈ ms, r.len = r'.len) → s.lost = [] ∧ s.Clean

theorem Kept.matched {s : Selection obvec.length} {ms : List (Match obvec.length)}
    (h : Kept p s ms) (hroom : ms.length < obvec.length) {r : Match obvec.length}
    (hbest : s.maxLen ≤ r.len) :
    Kept p (s.matched r.len r.cix r.plur (obvec.get r.obix)) (ms ++ [r]) := by
  obtain ⟨tix, htix⟩ : ∃ tix, (if r.len > s.maxLen then 1 else s.tix) = tix := ⟨_, rfl⟩
  -- the matches that are kept, and their part of the array
  obtain ⟨old, hold, hlongest, htake, hle, hsame⟩ : ∃ old : List (Match obvec.length),
      tix = old.length + 1 ∧ longest Match.len (ms ++ [r]) = old ++ [r] ∧
      s.tmp.take tix = p.numeral.elim const0 Svalue.number :: old.map (obvec.get ·.obix) ∧
      old.length ≤ ms.length ∧ ((∀ r' ∈ ms, r'.len = r.len) → tix = s.tix) := by
    split at htix
    · next hlong =>
      subst htix
      refine ⟨[], rfl, longest_concat_of_lt (h.maxLen_eq ▸ hlong), ?_, Nat.zero_le _, ?_⟩
      · have := congrArg (List.take 1) h.take_tmp
        rwa [take_take, min_eq_left (by rw [h.tix_eq]; omega)] at this
      · intro hall
        rcases ms with - | ⟨r', ms⟩
        · exact h.tix_eq.symm
        · have hr' : r'.len ≤ s.maxLen := h.maxLen_eq ▸ le_greatest mem_cons_self
          have := hall r' mem_cons_self
          omega
    · next hlong =>
      have heq : r.len = greatest Match.len ms := by
        rw [← h.maxLen_eq]
        exact Nat.le_antisymm (Nat.not_lt.1 hlong) hbest
      subst htix
      exact ⟨_, h.tix_eq, longest_concat_of_eq heq, h.take_tmp, length_longest_le, fun _ ↦ rfl⟩
  have htmp : tix < s.tmp.length := by
    rw [hold, h.length_tmp]
    omega
  rw [Selection.matched_eq, htix]
  exact {
    plur_eq := by
      rw [plurAfter, List.getLast?_concat]
      rfl
    maxLen_eq := by
      rw [greatest_concat, ← h.maxLen_eq]
      rfl
    maxCix_eq := by
      dsimp only
      rw [furthest, greatest_concat, h.maxCix_eq, furthest, max_assoc]
    tix_eq := by
      rw [hlongest, length_append]
      exact congrArg (· + 1) hold
    length_tmp := (length_set ..).trans h.length_tmp
    take_tmp := by
      rw [chosen, hlongest, map_append, ← cons_append, ← htake]
      exact Selection.take_put htmp
    lost_nil := by
      intro hall
      have hms : ∀ r' ∈ ms, r'.len = r.len :=
        fun r' hr' ↦ hall r' (mem_append_left _ hr') r (by simp)
      obtain ⟨hlost, hclean⟩ := h.lost_nil fun r₁ h₁ r₂ h₂ ↦ (hms r₁ h₁).trans (hms r₂ h₂).symm
      have hclean' : Selection.Clean (⟨s.lists, r.plur, max s.maxLen r.len, s.maxCix, tix, s.tmp,
          s.lost⟩ : Selection obvec.length) := by
        rw [Selection.Clean, hsame hms]
        exact hclean
      obtain ⟨hput, hrest⟩ := Selection.clean_put (v := obvec.get r.obix) htmp hclean'
      exact ⟨hput.trans hlost, hrest⟩ }

/-- The variables behind a round that came to `r`. -/
def Selection.next (s : Selection obvec.length) :
    Option (Match obvec.length) → Selection obvec.length
  | some r => s.matched r.len r.cix r.plur (obvec.get r.obix)
  | none => s

theorem selectObject_rel {s : Selection obvec.length} {obix : Fin obvec.length}
    (hlists : s.lists obix = lists obix) :
    Option.Rel (fun s' r ↦ ∃ ls, (∀ k, k ≠ obix → ls k = s.lists k) ∧
        s' = ({ s with lists := ls }).next r)
      (selectObject g m obvec answers wvec p.cix s obix)
      (objectMatch g m obvec answers wvec lists p.cix s.plur s.maxLen obix) := by
  have hasked : matchObject g m (loadLpcInfo g s.lists obix (answers obix)) obix wvec p.cix s.plur
      s.maxLen = matchObject g m (loadLpcInfo g lists obix (answers obix)) obix wvec p.cix s.plur
      s.maxLen := by
    rw [matchObject, matchObject, loadLpcInfo, loadLpcInfo, Function.update_self,
      Function.update_self, hlists]
  have hbeats := @objectMatch_beats g m obvec answers wvec lists p.cix s.plur s.maxLen obix
  rw [selectObject]
  dsimp only
  rw [hasked]
  rw [objectMatch] at hbeats ⊢
  by_cases hobject : isObject (obvec.get obix) = true
  · rw [if_pos hobject] at hbeats ⊢
    rw [if_pos hobject]
    cases hr : matchObject g m (loadLpcInfo g lists obix (answers obix)) obix wvec p.cix s.plur
        s.maxLen with
    | none => exact .none
    | some r =>
      rw [hr] at hbeats
      refine .some ⟨loadLpcInfo g s.lists obix (answers obix),
        fun k hk ↦ Function.update_of_ne hk .., ?_⟩
      dsimp only
      cases hfound : r.found with
      | none => rfl
      | some found =>
        have hreturned : r.returned = r.maxLen := by
          rw [MatchState.returned, hfound]
          rfl
        rw [map_some, hfound, map_some] at hbeats
        have hpos : 1 ≤ r.maxLen := (hbeats rfl).2.1
        dsimp only
        rw [hreturned, if_pos (Nat.pos_iff_ne_zero.1 hpos)]
        rfl
  · rw [if_neg hobject, if_neg hobject]
    exact .some ⟨s.lists, fun _ _ ↦ rfl, rfl⟩

/-- **The loop** comes to the matches of the objects in turn, and keeps the longest. -/
theorem foldlM_selectObject (ks : List (Fin obvec.length)) :
    ∀ {s : Selection obvec.length} {ms : List (Match obvec.length)}, Kept p s ms → ks.Nodup →
      (∀ k ∈ ks, s.lists k = lists k) → ms.length + ks.length ≤ obvec.length →
      Option.Rel (fun s' ms' ↦ Kept p s' (ms ++ ms'))
        (ks.foldlM (selectObject g m obvec answers wvec p.cix) s)
        (matchesInTurn g m obvec answers wvec lists p.cix s.plur s.maxLen ks) := by
  induction ks with
  | nil =>
    intro s ms h _ _ _
    refine .some ?_
    rwa [append_nil]
  | cons k ks ih =>
    intro s ms h hnodup hlists hroom
    obtain ⟨hk, hnodup⟩ := nodup_cons.1 hnodup
    obtain ⟨hlist, hlists⟩ := forall_mem_cons.1 hlists
    rw [length_cons] at hroom
    have hstep := @selectObject_rel g m obvec answers wvec lists p s k hlist
    have hbeats := @objectMatch_beats g m obvec answers wvec lists p.cix s.plur s.maxLen k
    rw [foldlM_cons, matchesInTurn]
    obtain ⟨x, hx⟩ : ∃ x, selectObject g m obvec answers wvec p.cix s k = x := ⟨_, rfl⟩
    obtain ⟨y, hy⟩ : ∃ y, objectMatch g m obvec answers wvec lists p.cix s.plur s.maxLen k = y :=
      ⟨_, rfl⟩
    rw [hx, hy] at hstep
    rw [hy] at hbeats
    rw [hx, hy]
    cases hstep with
    | none => exact .none
    | @some s' r hs' =>
      obtain ⟨ls, hls, rfl⟩ := hs'
      have hrest : ∀ k' ∈ ks, ls k' = lists k' :=
        fun k' hk' ↦ (hls k' fun heq ↦ hk (heq ▸ hk')).trans (hlists k' hk')
      cases r with
      | none => exact ih ⟨h.1, h.2, h.3, h.4, h.5, h.6, h.7⟩ hnodup hrest (by omega)
      | some r =>
        obtain ⟨hbest, hpos, -⟩ := hbeats rfl
        have hkept : Kept p ({ s with lists := ls }) ms := ⟨h.1, h.2, h.3, h.4, h.5, h.6, h.7⟩
        have hnext := ih (hkept.matched (by omega) hbest) hnodup
          (by rwa [Selection.matched_lists])
          (by rw [length_append, length_singleton]; omega)
        rw [Selection.matched_plur, Selection.matched_maxLen] at hnext
        rw [Option.bind_some]
        dsimp only
        show Option.Rel _ (ks.foldlM _ (Selection.matched ..)) _
        obtain ⟨u, hu⟩ : ∃ u, matchesInTurn g m obvec answers wvec lists p.cix r.plur
          (max s.maxLen r.len) ks = u := ⟨_, rfl⟩
        obtain ⟨t, ht⟩ : ∃ t, ks.foldlM (selectObject g m obvec answers wvec p.cix)
          (({ s with lists := ls }).matched r.len r.cix r.plur (obvec.get r.obix)) = t := ⟨_, rfl⟩
        rw [hu, ht] at hnext
        rw [hu, ht]
        cases hnext with
        | none => exact .none
        | some hkept' => exact .some (by rwa [append_cons])

theorem lt_of_matchesInTurn {cixIn : ℕ} (ks : List (Fin obvec.length)) : ∀ {plur best ms},
    matchesInTurn g m obvec answers wvec lists cixIn plur best ks = some ms → ms ≠ [] →
      cixIn < wvec.length := by
  induction ks with
  | nil =>
    intro plur best ms h hne
    cases h
    exact absurd rfl hne
  | cons k ks ih =>
    intro plur best ms h hne
    rw [matchesInTurn] at h
    obtain ⟨r, hr, h⟩ := bind_eq_some_iff.1 h
    cases r with
    | none => exact ih h hne
    | some r => exact (objectMatch_beats hr).2.2

theorem numeral_of_matchAll (h : p.matchAll = true) : p.numeral = some 0 := of_decide_eq_true h

theorem Kept.finish_nil {s : Selection obvec.length} (h : Kept p s []) :
    (finishParse obvec wvec p s).ret = selection obvec p [] ∧
      (finishParse obvec wvec p s).lost = [] := by
  have htix : s.tix = 1 := h.tix_eq
  have htake : s.tmp.take 1 = [p.numeral.elim const0 Svalue.number] := htix ▸ h.take_tmp
  obtain ⟨hlost, hclean⟩ := h.lost_nil nofun
  have hroom : s.tix + (obvec.filter isObject).length ≤ s.tmp.length := by
    have := length_filter_le isObject obvec
    rw [htix, h.length_tmp]
    omega
  obtain ⟨htix', htake', hlost'⟩ := Selection.foldl_put _ hroom hclean
  rw [finishParse, selection]
  dsimp only
  cases hall : p.matchAll with
  | false =>
    have hchosen : chosen obvec [] = [] := rfl
    simp only [Bool.false_and, Bool.false_eq_true, and_false, if_false, htix, Nat.one_lt_two,
      if_true, hchosen]
    exact ⟨trivial, hlost⟩
  | true =>
    -- all objects are returned
    have hguard : (true && decide (s.tix < 2)) = true := by rw [htix]; rfl
    have hobjects : (if ([] : List (Match obvec.length)) = [] ∧ true = true then
        obvec.filter isObject else chosen obvec []) = obvec.filter isObject := if_pos ⟨rfl, rfl⟩
    rw [if_pos hguard, hobjects]
    by_cases hnil : obvec.filter isObject = []
    · have hlt : ((obvec.filter isObject).foldl Selection.put s).tix < 2 := by
        rw [htix', hnil, htix]
        exact Nat.one_lt_two
      rw [if_pos hlt, if_pos hnil]
      exact ⟨rfl, hlost'.trans hlost⟩
    · have hpos := length_pos_of_ne_nil hnil
      have hge : ¬((obvec.filter isObject).foldl Selection.put s).tix < 2 := by omega
      rw [if_neg hge, if_neg hnil, htake', htix, htake, numeral_of_matchAll hall]
      exact ⟨rfl, hlost'.trans hlost⟩

theorem Kept.finish_cons {s : Selection obvec.length} {ms : List (Match obvec.length)}
    (h : Kept p s ms) (hms : ms ≠ []) (hwords : p.cix < wvec.length) :
    finishParse obvec wvec p s =
      ⟨selection obvec p ms, furthest obvec p ms + 1, s.lost⟩ := by
  have hlongest := length_pos_of_ne_nil (@longest_ne_nil _ Match.len _ hms)
  have htix : ¬s.tix < 2 := by
    rw [h.tix_eq]
    omega
  have hchosen : chosen obvec ms ≠ [] := by
    rw [chosen]
    exact mt map_eq_nil_iff.1 (longest_ne_nil hms)
  have hobjects : (if ms = [] ∧ p.matchAll = true then obvec.filter isObject
      else chosen obvec ms) = chosen obvec ms := if_neg fun hall ↦ hms hall.1
  have hmore : (!false && decide (p.cix < wvec.length)) = true := by
    simpa using hwords
  rw [finishParse, selection]
  dsimp only
  rw [hobjects, if_neg hchosen, decide_eq_false htix, Bool.and_false, if_neg Bool.false_ne_true,
    if_neg htix, if_pos hmore, h.maxCix_eq, h.take_tmp, h.plur_eq]
  cases p.numeral with
  | none => rfl
  | some n => rfl

/-- **The end**: what is returned, and, if the matches are all of one length, up to which word they
reach. -/
theorem Kept.finish {s : Selection obvec.length} {ms : List (Match obvec.length)}
    (h : Kept p s ms) (hwords : ms ≠ [] → p.cix < wvec.length) :
    (finishParse obvec wvec p s).ret = selection obvec p ms ∧
      ((∀ r ∈ ms, ∀ r' ∈ ms, r.len = r'.len) → (finishParse obvec wvec p s).lost = [] ∧
        (ms ≠ [] → (finishParse obvec wvec p s).cix = furthest obvec p ms + 1)) := by
  by_cases hms : ms = []
  · subst hms
    exact ⟨h.finish_nil.1, fun _ ↦ ⟨h.finish_nil.2, fun hne ↦ absurd rfl hne⟩⟩
  · rw [h.finish_cons hms (hwords hms)]
    exact ⟨rfl, fun hall ↦ ⟨(h.lost_nil hall).1, fun _ ↦ rfl⟩⟩

theorem kept_nil (lists : Lists obvec.length) : Kept p (⟨lists, p.plur, 0, p.cix, 1,
    (p.numeral.elim const0 Svalue.number) :: List.replicate obvec.length const0, []⟩ :
      Selection obvec.length) [] where
  plur_eq := rfl
  maxLen_eq := rfl
  maxCix_eq := (max_eq_left (Nat.zero_le _)).symm
  tix_eq := rfl
  length_tmp := by rw [length_cons, length_replicate]
  take_tmp := rfl
  lost_nil := fun _ ↦ ⟨rfl, fun _ hv ↦ eq_of_mem_replicate hv ▸ rfl⟩

end Loop

theorem sublist_of_matchesInTurn {g : Grammar} {m : Master} {obvec : List Svalue}
    {answers : Fin obvec.length → Answers} {wvec : List Word} {lists : Lists obvec.length}
    {cixIn : ℕ} (ks : List (Fin obvec.length)) : ∀ {plur best ms},
    matchesInTurn g m obvec answers wvec lists cixIn plur best ks = some ms →
      (ms.map Match.obix).Sublist ks := by
  induction ks with
  | nil =>
    intro plur best ms h
    cases h
    exact .slnil
  | cons k ks ih =>
    intro plur best ms h
    rw [matchesInTurn] at h
    obtain ⟨r, hr, h⟩ := bind_eq_some_iff.1 h
    cases r with
    | none => exact (ih h).cons k
    | some r =>
      obtain ⟨ms, hms, rfl⟩ := map_eq_some_iff.1 h
      rw [map_cons, obix_of_objectMatch hr]
      exact (ih hms).cons_cons k

/-- **What `item_parse` returns**, where the words do not begin with a pronoun: the objects whose
matches, asked for in turn, are the longest. If no match is longer than one before it, nothing is
lost, and the words up to the last that a match reaches are consumed. -/
theorem itemParse_spec (g : Grammar) (m : Master) (obvec : List Svalue)
    (answers : Fin obvec.length → Answers) (wvec : List Word) (destructed : Obj → Bool)
    (lists : Lists obvec.length) (cix₀ : ℕ) (p : Start)
    (hpronoun : p.numeral = none → p.pronoun = none)
    (hcix : p.matchAll = true → cix₀ ≠ wvec.length) :
    (itemParse g m obvec answers wvec destructed lists cix₀ p).map ItemParse.ret =
        (matchesInTurn g m obvec answers wvec lists p.cix p.plur 0 (List.finRange _)).map
          (selection obvec p) ∧
      ∀ out ms, itemParse g m obvec answers wvec destructed lists cix₀ p = some out →
        matchesInTurn g m obvec answers wvec lists p.cix p.plur 0 (List.finRange _) = some ms →
        (ms.map Match.obix).Sublist (List.finRange _) ∧
          ((∀ r ∈ ms, ∀ r' ∈ ms, r.len = r'.len) →
            out.lost = [] ∧ (ms ≠ [] → out.cix = furthest obvec p ms + 1)) := by
  have hloop := @foldlM_selectObject g m obvec answers wvec lists p (List.finRange _) _ []
    (kept_nil lists) (nodup_finRange _) (fun _ _ ↦ rfl)
    (by rw [length_finRange, length_nil, Nat.zero_add])
  have heq : itemParse g m obvec answers wvec destructed lists cix₀ p =
      ((List.finRange _).foldlM (selectObject g m obvec answers wvec p.cix)
        ⟨lists, p.plur, 0, p.cix, 1,
          (p.numeral.elim const0 Svalue.number) :: List.replicate obvec.length const0, []⟩).map
        (finishParse obvec wvec p) := by
    have hguard : ((!p.matchAll) = true ∨ cix₀ ≠ wvec.length) := by
      cases hall : p.matchAll with
      | false => exact .inl rfl
      | true => exact .inr (hcix hall)
    rw [itemParse]
    split
    · next hnumeral hsome =>
      rw [hpronoun hnumeral] at hsome
      cases hsome
    · dsimp only
      rw [if_pos hguard]
  rw [heq]
  obtain ⟨t, ht⟩ : ∃ t, (List.finRange _).foldlM (selectObject g m obvec answers wvec p.cix)
    ⟨lists, p.plur, 0, p.cix, 1,
      (p.numeral.elim const0 Svalue.number) :: List.replicate obvec.length const0, []⟩ = t :=
    ⟨_, rfl⟩
  obtain ⟨u, hu⟩ : ∃ u, matchesInTurn g m obvec answers wvec lists p.cix p.plur 0
    (List.finRange _) = u := ⟨_, rfl⟩
  have hwords := fun ms (h : u = some ms) ↦ lt_of_matchesInTurn _ (hu.trans h)
  rw [ht, hu] at hloop
  rw [ht, hu]
  cases hloop with
  | none => exact ⟨rfl, nofun⟩
  | @some s ms hkept =>
    obtain ⟨hret, hone⟩ := hkept.finish (hwords ms rfl)
    refine ⟨congrArg some hret, fun out ms' hout hms' ↦ ?_⟩
    cases hout
    cases hms'
    exact ⟨sublist_of_matchesInTurn _ hu, hone⟩

/-! ### Adjectives are not counted -/

/-- An object with the name `id` and the adjective `adj`. -/
def named (id adj : UInt8) : Answers where
  pluid := none
  id := some (.pointer 0 [.string (.ofBytes [id])])
  rodzaj := some (.pointer 0 [.number 1])
  prodzaj := some (.pointer 0 [.number 1])
  adj1 := some (.pointer 0 [.string (.ofBytes [adj])])
  adj2 := some (.pointer 0 [.string (.ofBytes [adj])])

/-- The first object is an `m` that is `d`, the second one a `d`. -/
def twoNamed : Fin [Svalue.object 1, .object 2].length → Answers
  | 0 => named 109 100
  | 1 => named 100 100

theorem itemParse_spec_two :
    (itemParse uninflected ⟨none, none, none, none⟩ [.object 1, .object 2] twoNamed [[100], [109]]
      (fun _ ↦ false) (emptyLists _) 0 ⟨none, none, 0⟩).map ItemParse.ret =
        some (some [.number 1, .object 1, .object 2]) :=
  (itemParse_spec uninflected ⟨none, none, none, none⟩ [.object 1, .object 2] twoNamed
    [[100], [109]] (fun _ ↦ false) (emptyLists _) 0 ⟨none, none, 0⟩ (fun _ ↦ rfl) nofun).1.trans rfl

/-- The words that a match consumes. -/
def Match.consumed {size : ℕ} (cixIn : ℕ) (r : Match size) : ℕ := r.cix + 1 - cixIn

/-- The words `d m` name both the `m` that is `d`, with two words, and the `d`, with one. -/
theorem not_longest_consumed : ¬∀ (g : Grammar) (m : Master) (obvec : List Svalue)
    (answers : Fin obvec.length → Answers) (wvec : List Word) (p : Start) (out : ItemParse)
    (ms : List (Option (Match obvec.length))) (number : Svalue) (objects : List Svalue),
    itemParse g m obvec answers wvec (fun _ ↦ false) (emptyLists _) 0 p = some out →
    (List.finRange _).mapM (objectMatch g m obvec answers wvec (emptyLists _) p.cix p.plur 0) =
      some ms →
    out.ret = some (number :: objects) →
    objects = (longest (Match.consumed p.cix) ms.reduceOption).map (obvec.get ·.obix) := by
  intro h
  have := h uninflected ⟨none, none, none, none⟩ [.object 1, .object 2] twoNamed [[100], [109]]
    ⟨none, none, 0⟩ _ _ _ _ rfl rfl rfl
  exact absurd (congrArg List.length this) (by decide)

end Lpmud.ParseCommand
