import Lpmud.Parse.Numeral
import Mathlib.Data.List.DropRight
import Mathlib.Data.List.GetD

/-!
# The grammar of numerals

What numerals there are (`IsNumeral`), and when `numberParse` finds the longest one that the words
begin with.

A numeral is a number in digits, a word for all, or a numeral of one or two words: tens, and units
behind them. The second word of an ordinal numeral has the same ending as the first one.

What `numberParse` takes for a numeral is another thing where there are two words. Behind tens, the
-1 of `member_array` for a word that begins like a numeral is taken for units; behind the tens of an
ordinal numeral there have to be units, and their last letter does not matter for two of the endings
(`exact_iff`).
-/

namespace Lpmud.Numeral

open List
open Option (bind_some bind_none bind_eq_some_iff bind_eq_none_iff eq_none_iff_forall_ne_some
  map_some map_none map_eq_some_iff some.inj)

variable (L : Lists) (mem : Memory) (przyp : ℤ)

/-! ### Numerals -/

/-- The cardinal numeral that a word is. -/
def cardinalOf (w : Bytes) : Option ℕ :=
  (cardinals L (w.take 2)).bind fun c ↦ (memberArray (w.drop 2) c.endings).map c.value

/-- The units that a word is. -/
def unitOf (w : Bytes) : Option ℕ :=
  (cardinals L (w.take 2)).bind fun c ↦
    (memberArray (w.drop 2) c.endings).bind fun member ↦
      if member < c.cut then some c.unit else none

/-- The stem of a word that has an ending. An i in front of the ending belongs to it. -/
def stemOf : Ending → Bytes → Option Bytes
  | .buf suffix, w =>
    if suffix <:+ w then
      let rest := w.take (w.length - suffix.length)
      some (if rest.getLast? = some 105 then rest.dropLast else rest)
    else none
  | .m, w =>
    if w.getLast? = some 109 ∧ (w.dropLast.getLast? = some 121 ∨ w.dropLast.getLast? = some 105)
    then some w.dropLast.dropLast
    else none
  | .y, w =>
    if w.getLast? = some 105 ∨ w.getLast? = some 121 then some w.dropLast else none

/-- The ending of a word, and its stem. -/
def ordinalOf (w : Bytes) : Option (Ending × Bytes) :=
  (w.getLast?.bind ending).bind fun e ↦ (stemOf e w).map (e, ·)

/-- The ordinal numeral of one word with a stem. -/
def ordinalUnitOf (s : Bytes) : Option ℕ :=
  (memberArray s L.ord1).map (· + 1)

def ordinalTeenOf (s : Bytes) : Option ℕ :=
  if memberArray s L.ord1 = none then (memberArray s L.ord11).map (· + 10) else none

def ordinalTensOf (s : Bytes) : Option ℕ :=
  if memberArray s L.ord1 = none ∧ memberArray s L.ord11 = none then
    (memberArray s L.ord20).map fun member ↦ (member + 2) * 10
  else none

/-- A word that is read letter by letter: it is no number in digits and no word for all. -/
structure Spelled (w : Bytes) : Prop where
  number : ∀ z, scanNumber w ≠ .number z
  all : ∃ words, allWords przyp = some words ∧ w ∉ words

/-- The words that are a numeral, and its value: an ordinal numeral is negative. -/
inductive IsNumeral : List Bytes → ℤ → Prop
  | digits {w : Bytes} {z : ℤ} : scanNumber w = .number z → 0 ≤ z → IsNumeral [w] z
  | all {w : Bytes} {words : List Bytes} : (∀ z, scanNumber w ≠ .number z) →
      allWords przyp = some words → w ∈ words → IsNumeral [w] 0
  | cardinal {w : Bytes} {n : ℕ} : Spelled przyp w → cardinalOf L w = some n → IsNumeral [w] n
  | tens {w w' : Bytes} {n u : ℕ} : Spelled przyp w → cardinalOf L w = some n → 20 ≤ n →
      unitOf L w' = some u → IsNumeral [w, w'] (n + u)
  | ordinal {w s : Bytes} {e : Ending} {n : ℕ} : Spelled przyp w → cardinalOf L w = none →
      ordinalOf w = some (e, s) →
      (ordinalUnitOf L s = some n ∨ ordinalTeenOf L s = some n ∨ ordinalTensOf L s = some n) →
      IsNumeral [w] (-n)
  | ordinalTens {w w' s s' : Bytes} {e : Ending} {n u : ℕ} : Spelled przyp w →
      cardinalOf L w = none → ordinalOf w = some (e, s) → ordinalTensOf L s = some n →
      stemOf e w' = some s' → ordinalUnitOf L s' = some u → IsNumeral [w, w'] (-(n + u))

/-- The longest numeral that the words begin with: its value, and how many words it has. -/
def Longest (ws : List Bytes) (v : ℤ) (n : ℕ) : Prop :=
  ∃ p, p <+: ws ∧ p.length = n ∧ IsNumeral L przyp p v ∧
    ∀ p' v', p' <+: ws → IsNumeral L przyp p' v' → p'.length ≤ n

/-- The words from `cix` on. -/
def wordsFrom (wvec : List CString) (cix : ℕ) : List Bytes :=
  (wvec.drop cix).map CString.bytes

/-- The numeral is found exactly if there is one, and exactly the longest one. -/
structure Exact (wvec : List CString) (cix : ℕ) : Prop where
  found : ∀ v n, (numberParse L mem przyp wvec cix).value = some (some (v, cix + n)) ↔
    Longest L przyp (wordsFrom wvec cix) v n
  fails : (numberParse L mem przyp wvec cix).value = some none ↔
    ∀ p v, p <+: wordsFrom wvec cix → ¬IsNumeral L przyp p v

/-! ### When it is -/

/-- A word behind the tens of an ordinal numeral is its units, with the same ending. -/
def UnitsBehind (e : Ending) (next : Option Bytes) : Prop :=
  ∀ w' ∈ next, ∃ s' u, stemOf e w' = some s' ∧ ordinalUnitOf L s' = some u

/-- The word at hand and the next one are no exceptions. A blank word is taken for 0; a number has
to be an integer; a word that begins like a numeral and is none must not be behind tens; behind the
tens of an ordinal numeral there must not be another word than its units; and with nothing but an
ending it matters what is in memory in front of it. -/
structure Regular (w : Bytes) (next : Option Bytes) : Prop where
  blank : scanNumber w ≠ .eof
  number : ∀ z, scanNumber w = .number z → if 0 ≤ z then z < 2 ^ 31 else toInt z < 0
  tens : Spelled przyp w → ∀ n, cardinalOf L w = some n → 20 ≤ n → ∀ w' ∈ next,
    ∀ c, cardinals L (w'.take 2) = some c → w'.drop 2 ∈ c.endings
  ordinal : Spelled przyp w → cardinalOf L w = none → ∀ e s, ordinalOf w = some (e, s) →
    ∀ n, ordinalTensOf L s = some n → UnitsBehind L e next
  ending : Spelled przyp w → cardinalOf L w = none → w = chars "ego" ∨ w = chars "emu" →
    mem.before (-1) ≠ 105

/-! ### The longest numeral -/

/-- The numeral of one word. -/
def oneOf (w : Bytes) : Option ℤ :=
  match scanNumber w with
  | .number z => if 0 ≤ z then some z else none
  | _ =>
    (allWords przyp).bind fun words ↦
      if w ∈ words then some 0
      else
        match cardinalOf L w with
        | some n => some n
        | none => (ordinalOf w).bind fun p ↦
          ((ordinalUnitOf L p.2).or ((ordinalTeenOf L p.2).or (ordinalTensOf L p.2))).map
            fun (n : ℕ) ↦ -(n : ℤ)

/-- The numeral of two words. -/
def twoOf (w w' : Bytes) : Option ℤ :=
  match scanNumber w with
  | .number _ => none
  | _ =>
    (allWords przyp).bind fun words ↦
      if w ∈ words then none
      else
        match cardinalOf L w with
        | some n => if 20 ≤ n then (unitOf L w').map fun u ↦ ((n + u : ℕ) : ℤ) else none
        | none => (ordinalOf w).bind fun p ↦ (ordinalTensOf L p.2).bind fun n ↦
          (stemOf p.1 w').bind fun s' ↦ (ordinalUnitOf L s').map fun u ↦ -((n + u : ℕ) : ℤ)

/-- The longest numeral, and how many words it has. -/
def numeralOf (w : Bytes) (next : Option Bytes) : Option (ℤ × ℕ) :=
  ((next.bind (twoOf L przyp w)).map (·, 2)).or ((oneOf L przyp w).map (·, 1))

section Longest

variable {L : Lists} {przyp : ℤ} {w w' s : Bytes} {ws : List Bytes} {v : ℤ} {n : ℕ}

theorem oneOf_of_spelled (h : Spelled przyp w) : oneOf L przyp w =
    match cardinalOf L w with
    | some n => some (n : ℤ)
    | none => (ordinalOf w).bind fun p ↦
      ((ordinalUnitOf L p.2).or ((ordinalTeenOf L p.2).or (ordinalTensOf L p.2))).map
        fun (n : ℕ) ↦ -(n : ℤ) := by
  obtain ⟨words, hwords, hw⟩ := h.all
  rw [oneOf]
  split
  · next z hz => exact absurd hz (h.number z)
  · rw [hwords, bind_some, if_neg hw]

theorem twoOf_of_spelled (h : Spelled przyp w) : twoOf L przyp w w' =
    match cardinalOf L w with
    | some n => if 20 ≤ n then (unitOf L w').map fun u ↦ ((n + u : ℕ) : ℤ) else none
    | none => (ordinalOf w).bind fun p ↦ (ordinalTensOf L p.2).bind fun n ↦
      (stemOf p.1 w').bind fun s' ↦ (ordinalUnitOf L s').map fun u ↦ -((n + u : ℕ) : ℤ) := by
  obtain ⟨words, hwords, hw⟩ := h.all
  rw [twoOf]
  split
  · next z hz => exact absurd hz (h.number z)
  · rw [hwords, bind_some, if_neg hw]

/-- A word is a number in digits, or there are no words in this case, or it is a word for all, or it
is read letter by letter. -/
theorem word_cases (przyp : ℤ) (w : Bytes) : (∃ z, scanNumber w = .number z) ∨
    (∀ z, scanNumber w ≠ .number z) ∧ (allWords przyp = none ∨
      (∃ words, allWords przyp = some words ∧ w ∈ words)) ∨ Spelled przyp w := by
  by_cases hnumber : ∃ z, scanNumber w = .number z
  · exact .inl hnumber
  · have hno : ∀ z, scanNumber w ≠ .number z := fun z hz ↦ hnumber ⟨z, hz⟩
    rcases hall : allWords przyp with - | words
    · exact .inr (.inl ⟨hno, .inl rfl⟩)
    · by_cases hw : w ∈ words
      · exact .inr (.inl ⟨hno, .inr ⟨words, rfl, hw⟩⟩)
      · exact .inr (.inr ⟨hno, words, hall, hw⟩)

theorem ordinal_or_iff :
    (ordinalUnitOf L s).or ((ordinalTeenOf L s).or (ordinalTensOf L s)) = some n ↔
    ordinalUnitOf L s = some n ∨ ordinalTeenOf L s = some n ∨ ordinalTensOf L s = some n := by
  rw [ordinalUnitOf, ordinalTeenOf, ordinalTensOf]
  cases memberArray s L.ord1 <;> cases memberArray s L.ord11 <;> simp

theorem isNumeral_one_iff : IsNumeral L przyp [w] v ↔ oneOf L przyp w = some v := by
  constructor
  · intro h
    cases h with
    | digits hz hpos =>
      rw [oneOf, hz]
      exact if_pos hpos
    | all hno hwords hw =>
      rw [oneOf]
      split
      · next z hz => exact absurd hz (hno z)
      · rw [hwords, bind_some, if_pos hw]
    | cardinal hspelled hn => rw [oneOf_of_spelled hspelled, hn]
    | ordinal hspelled hn hend hs =>
      rw [oneOf_of_spelled hspelled, hn]
      dsimp only
      rw [hend, bind_some, ordinal_or_iff.2 hs, map_some]
  · intro h
    rcases word_cases przyp w with ⟨z, hz⟩ | ⟨hno, hall⟩ | hspelled
    · rw [oneOf, hz] at h
      dsimp only at h
      split at h
      · next hpos =>
        obtain rfl := some.inj h
        exact .digits hz hpos
      · cases h
    · rw [oneOf] at h
      split at h
      · next z hz => exact absurd hz (hno z)
      · rcases hall with hnone | ⟨words, hwords, hw⟩
        · rw [hnone] at h
          cases h
        · rw [hwords, bind_some, if_pos hw] at h
          obtain rfl := some.inj h
          exact .all hno hwords hw
    · rw [oneOf_of_spelled hspelled] at h
      split at h
      · next n hn =>
        obtain rfl := some.inj h
        exact .cardinal hspelled hn
      · next hn =>
        obtain ⟨⟨e, s⟩, hend, h⟩ := Option.bind_eq_some_iff.1 h
        obtain ⟨n, hs, rfl⟩ := Option.map_eq_some_iff.1 h
        exact .ordinal hspelled hn hend (ordinal_or_iff.1 hs)

theorem isNumeral_two_iff : IsNumeral L przyp [w, w'] v ↔ twoOf L przyp w w' = some v := by
  constructor
  · intro h
    cases h with
    | tens hspelled hn hle hu =>
      rw [twoOf_of_spelled hspelled, hn]
      dsimp only
      rw [if_pos hle, hu, map_some, Nat.cast_add]
    | ordinalTens hspelled hn hend hs hstem hu =>
      rw [twoOf_of_spelled hspelled, hn]
      dsimp only
      rw [hend, bind_some, hs, bind_some, hstem, bind_some, hu,
        map_some, Nat.cast_add]
  · intro h
    rcases word_cases przyp w with ⟨z, hz⟩ | ⟨hno, hall⟩ | hspelled
    · rw [twoOf, hz] at h
      cases h
    · rw [twoOf] at h
      split at h
      · next z hz => exact absurd hz (hno z)
      · rcases hall with hnone | ⟨words, hwords, hw⟩
        · rw [hnone] at h
          cases h
        · rw [hwords, bind_some, if_pos hw] at h
          cases h
    · rw [twoOf_of_spelled hspelled] at h
      split at h
      · next n hn =>
        split at h
        · next hle =>
          obtain ⟨u, hu, rfl⟩ := Option.map_eq_some_iff.1 h
          rw [Nat.cast_add]
          exact .tens hspelled hn hle hu
        · cases h
      · next hn =>
        obtain ⟨⟨e, s⟩, hend, h⟩ := Option.bind_eq_some_iff.1 h
        obtain ⟨n, hs, h⟩ := Option.bind_eq_some_iff.1 h
        obtain ⟨s', hstem, h⟩ := Option.bind_eq_some_iff.1 h
        obtain ⟨u, hu, rfl⟩ := Option.map_eq_some_iff.1 h
        rw [Nat.cast_add]
        exact .ordinalTens hspelled hn hend hs hstem hu

theorem IsNumeral.length_cases {p : List Bytes} (h : IsNumeral L przyp p v) :
    (∃ w, p = [w]) ∨ ∃ w w', p = [w, w'] := by
  cases h with
  | tens | ordinalTens => exact .inr ⟨_, _, rfl⟩
  | _ => exact .inl ⟨_, rfl⟩

theorem isNumeral_prefix_iff {p : List Bytes} :
    p <+: w :: ws ∧ IsNumeral L przyp p v ↔ p = [w] ∧ oneOf L przyp w = some v ∨
      ∃ w' ∈ ws.head?, p = [w, w'] ∧ twoOf L przyp w w' = some v := by
  constructor
  · rintro ⟨hp, hv⟩
    rcases hv.length_cases with ⟨w₁, rfl⟩ | ⟨w₁, w₂, rfl⟩
    · obtain ⟨rfl, -⟩ := cons_prefix_cons.1 hp
      exact .inl ⟨rfl, isNumeral_one_iff.1 hv⟩
    · obtain ⟨rfl, hrest⟩ := cons_prefix_cons.1 hp
      rcases ws with - | ⟨w', ws⟩
      · exact absurd hrest (by simp)
      · obtain ⟨rfl, -⟩ := cons_prefix_cons.1 hrest
        exact .inr ⟨_, rfl, rfl, isNumeral_two_iff.1 hv⟩
  · rintro (⟨rfl, hv⟩ | ⟨w', hw', rfl, hv⟩)
    · exact ⟨cons_prefix_cons.2 ⟨rfl, nil_prefix⟩, isNumeral_one_iff.2 hv⟩
    · rcases ws with - | ⟨w₂, ws⟩
      · exact absurd hw' nofun
      · obtain rfl := some.inj hw'
        exact ⟨cons_prefix_cons.2 ⟨rfl, cons_prefix_cons.2 ⟨rfl, nil_prefix⟩⟩,
          isNumeral_two_iff.2 hv⟩

/-- **The longest numeral** has two words if there is one of two words. -/
theorem longest_iff :
    Longest L przyp (w :: ws) v n ↔ numeralOf L przyp w ws.head? = some (v, n) := by
  rw [numeralOf]
  rcases htwo : ws.head?.bind (twoOf L przyp w) with - | v₂
  · rw [map_none, Option.none_or, map_eq_some_iff]
    have hnot : ∀ w' ∈ ws.head?, ∀ v', twoOf L przyp w w' ≠ some v' := by
      intro w' hw' v' hv'
      have hbind := Option.bind_eq_none_iff.1 htwo w' hw'
      exact absurd (hbind.symm.trans hv') nofun
    constructor
    · rintro ⟨p, hp, rfl, hv, -⟩
      rcases isNumeral_prefix_iff.1 ⟨hp, hv⟩ with ⟨rfl, hone⟩ | ⟨w', hw', -, hv'⟩
      · exact ⟨v, hone, rfl⟩
      · exact absurd hv' (hnot w' hw' v)
    · rintro ⟨v₁, hone, hpair⟩
      obtain ⟨rfl, rfl⟩ := Prod.mk.inj hpair
      obtain ⟨hp, hv⟩ := isNumeral_prefix_iff.2 (.inl ⟨rfl, hone⟩)
      refine ⟨[w], hp, rfl, hv, fun p' v' hp' hv' ↦ ?_⟩
      rcases isNumeral_prefix_iff.1 ⟨hp', hv'⟩ with ⟨rfl, -⟩ | ⟨w', hw', -, htwo'⟩
      · exact le_rfl
      · exact absurd htwo' (hnot w' hw' v')
  · obtain ⟨w', hw', hv₂⟩ := Option.bind_eq_some_iff.1 htwo
    rw [map_some, Option.some_or, Option.some.injEq, Prod.mk.injEq]
    obtain ⟨hp₂, hnum₂⟩ := isNumeral_prefix_iff.2 (.inr ⟨w', hw', rfl, hv₂⟩)
    constructor
    · rintro ⟨p, hp, rfl, hv, hmax⟩
      have hlen : 2 ≤ p.length := hmax _ _ hp₂ hnum₂
      rcases isNumeral_prefix_iff.1 ⟨hp, hv⟩ with ⟨rfl, -⟩ | ⟨w'', hw'', rfl, hv''⟩
      · exact absurd hlen (by simp)
      · obtain rfl := some.inj (hw'.symm.trans hw'')
        exact ⟨some.inj (hv₂.symm.trans hv''), rfl⟩
    · rintro ⟨rfl, rfl⟩
      refine ⟨[w, w'], hp₂, rfl, hnum₂, fun p' v' hp' hv' ↦ ?_⟩
      rcases hv'.length_cases with ⟨_, rfl⟩ | ⟨_, _, rfl⟩
      · exact Nat.le_succ 1
      · exact le_rfl

theorem not_isNumeral_iff : (∀ p v, p <+: w :: ws → ¬IsNumeral L przyp p v) ↔
    numeralOf L przyp w ws.head? = none := by
  rw [numeralOf, Option.or_eq_none_iff, Option.map_eq_none_iff, Option.map_eq_none_iff]
  constructor
  · intro h
    refine ⟨Option.eq_none_iff_forall_ne_some.2 fun v hv ↦ ?_,
      Option.eq_none_iff_forall_ne_some.2 fun v hv ↦ ?_⟩
    · obtain ⟨w', hw', hv⟩ := Option.bind_eq_some_iff.1 hv
      obtain ⟨hp, hnum⟩ := isNumeral_prefix_iff.2 (.inr ⟨w', hw', rfl, hv⟩)
      exact h _ _ hp hnum
    · obtain ⟨hp, hnum⟩ := isNumeral_prefix_iff.2 (.inl ⟨rfl, hv⟩)
      exact h _ _ hp hnum
  · rintro ⟨htwo, hone⟩ p v hp hnum
    rcases isNumeral_prefix_iff.1 ⟨hp, hnum⟩ with ⟨-, hv⟩ | ⟨w', hw', -, hv⟩
    · exact absurd (hone.symm.trans hv) nofun
    · exact absurd ((Option.bind_eq_none_iff.1 htwo w' hw').symm.trans hv) nofun

end Longest

/-! ### Stems -/

section Stems

variable {mem : Memory} {w s suffix : Bytes} {size : ℕ} {x : Ending}

@[simp]
theorem value_strcpy {room i : ℕ} : (strcpy size room i w).value = some w :=
  rfl

theorem value_strncpy (h0 : 0 ∉ w) {i n : ℕ} (hle : i + n ≤ w.length) :
    (strncpy mem size w i n).value = some ((w.drop i).take n) := by
  have hpart : (List.range n).map (fun k : ℕ ↦ if (i : ℤ) + k < 0 then mem.before (i + k)
      else w.getD ((i : ℤ) + k).toNat 0) = (w.drop i).take n := by
    refine ext_getElem (by simp; omega) fun k hk hk' ↦ ?_
    rw [length_map, length_range] at hk
    rw [getElem_map, getElem_range, if_neg (by omega), ← Nat.cast_add, Int.toNat_natCast,
      getD_eq_getElem _ _ (by omega), getElem_take, getElem_drop]
  have hall : ∀ c ∈ (w.drop i).take n, (c ≠ 0 : Bool) := by
    intro c hc
    have hmem : c ∈ w := mem_of_mem_drop (mem_of_mem_take hc)
    simpa using ne_of_mem_of_not_mem hmem h0
  rw [strncpy, if_neg (by omega)]
  simp only [Traced.value_bind, Traced.value_access, Traced.value_pure, bind_some,
    Int.toNat_natCast, hpart, takeWhile_eq_self_iff.2 hall]

theorem value_charAt {i : ℕ} (hlt : i < w.length) :
    (charAt mem size w i).value = some w[i] := by
  rw [charAt, Traced.value_bind, Traced.value_access, bind_some, Traced.value_pure,
    if_neg (by omega), Int.toNat_natCast, getD_eq_getElem _ _ hlt]

theorem value_stem_y (h0 : 0 ∉ w) (hne : w ≠ []) :
    (stem mem size .y w).value = some (some w.dropLast) := by
  have hpos := length_pos_of_ne_nil hne
  have hcast : (w.length : ℤ) - 1 = (w.length - 1 : ℕ) := by omega
  rw [stem, hcast]
  simp only [Traced.value_bind, Traced.value_pure]
  rw [← Nat.cast_zero, value_strncpy h0 (by omega), bind_some, drop_zero,
    dropLast_eq_take]

theorem value_stem_m (h0 : 0 ∉ w) (hlen : 2 ≤ w.length) :
    (stem mem size .m w).value = some (
      if w.dropLast.getLast? = some 121 ∨ w.dropLast.getLast? = some 105 then
        some w.dropLast.dropLast else none) := by
  have hcast : (w.length : ℤ) - 2 = (w.length - 2 : ℕ) := by omega
  have hlast : w.dropLast.getLast? = some w[w.length - 2] := by
    rw [List.getLast?_eq_getElem?, length_dropLast, List.getElem?_dropLast,
      if_pos (by omega), List.getElem?_eq_getElem (by omega)]
    rfl
  have hdrop : w.dropLast.dropLast = w.take (w.length - 2) := by
    rw [dropLast_eq_take, dropLast_eq_take, take_take, length_take]
    congr 1
    omega
  rw [stem, hcast]
  simp only [Traced.value_bind]
  rw [value_charAt (by omega), bind_some, hlast]
  simp only [Option.some.injEq]
  split
  · simp only [Traced.value_bind, Traced.value_pure]
    rw [← Nat.cast_zero, value_strncpy h0 (by omega), bind_some, drop_zero, hdrop]
  · rfl

/-- A word that is longer than the ending. What is in front of a word that is as long does not
matter if it is not an i. -/
theorem value_stem_buf (h0 : 0 ∉ w) (hpos : 0 < suffix.length) (hle : suffix.length ≤ w.length)
    (hbefore : suffix.length < w.length ∨ mem.before (-1) ≠ 105) :
    (stem mem size (.buf suffix) w).value = some (stemOf (.buf suffix) w) := by
  have hcast : (w.length : ℤ) - suffix.length = (w.length - suffix.length : ℕ) := by omega
  have hsuffix : (w.drop (w.length - suffix.length)).take suffix.length = suffix ↔
      suffix <:+ w := by
    rw [take_of_length_le (by rw [length_drop]; omega), suffix_iff_eq_drop]
    exact eq_comm
  rw [stem, stemOf]
  simp only [Traced.value_bind, hcast]
  rw [value_strncpy h0 (by omega), bind_some]
  by_cases hw : suffix <:+ w
  · rw [if_neg (not_not.2 (hsuffix.2 hw)), if_pos hw]
    simp only [Traced.value_bind]
    rcases hle.eq_or_lt with heq | hlt
    · -- nothing but the ending
      have hindex : (w.length : ℤ) - (suffix.length + 1) = -1 := by omega
      have hstray := hbefore.resolve_left heq.not_lt
      have hzero : w.length - suffix.length = 0 := by omega
      rw [hindex]
      simp only [charAt, Traced.value_bind, Traced.value_access, Traced.value_pure,
        bind_some]
      rw [if_pos (show (-1 : ℤ) < 0 by decide), if_pos hstray, hzero, Traced.value_bind,
        ← Nat.cast_zero, value_strncpy h0 (by omega)]
      rfl
    · have hindex : (w.length : ℤ) - (suffix.length + 1) = (w.length - suffix.length - 1 : ℕ) := by
        omega
      have hlast : (w.take (w.length - suffix.length)).getLast? =
          some w[w.length - suffix.length - 1] := by
        rw [List.getLast?_eq_getElem?, length_take, Nat.min_eq_left (by omega),
          List.getElem?_take, if_pos (by omega), List.getElem?_eq_getElem (by omega)]
      rw [hindex, value_charAt (by omega), bind_some, hlast]
      simp only [Option.some.injEq]
      by_cases hc : w[w.length - suffix.length - 1] = 105
      · rw [if_neg (not_not.2 hc), if_pos hc, Traced.value_bind, ← Nat.cast_zero,
          value_strncpy h0 (by omega), dropLast_take (by omega)]
        rfl
      · rw [if_pos hc, if_neg hc, Traced.value_bind, ← Nat.cast_zero, value_strncpy h0 (by omega)]
        rfl
  · rw [if_pos (mt hsuffix.1 hw), if_neg hw]
    rfl

theorem value_stem_bare (h0 : 0 ∉ suffix) (hbefore : mem.before (-1) = 105) :
    (stem mem size (.buf suffix) suffix).value = none := by
  have hcast : (suffix.length : ℤ) - suffix.length = ((0 : ℕ) : ℤ) := by omega
  have hindex : (suffix.length : ℤ) - (suffix.length + 1) = -1 := by omega
  rw [stem]
  simp only [Traced.value_bind, hcast, hindex]
  rw [value_strncpy h0 (by omega), bind_some, drop_zero, take_length,
    if_neg (not_not.2 rfl)]
  simp only [charAt, Traced.value_bind, Traced.value_access, Traced.value_pure, bind_some]
  rw [if_pos (show (-1 : ℤ) < 0 by decide), if_neg (not_not.2 hbefore)]
  simp only [strncpy, if_pos (show (-1 : ℤ) < 0 by decide), Traced.value_bind, Traced.value_access,
    Traced.value_crash, bind_some, bind_none]

theorem ending_spec {c : UInt8} (h : ending c = some x) :
    match x with
    | .buf suffix => suffix.getLast? = some c ∧ suffix.length ≤ 3 ∧
        (suffix.length = 3 → suffix = chars "ego" ∨ suffix = chars "emu")
    | .m => c = 109
    | .y => c = 105 ∨ c = 121 := by
  rw [ending] at h
  split at h
  · next hc =>
    obtain rfl := some.inj h
    exact hc ▸ ⟨by decide, by decide, fun _ ↦ .inl rfl⟩
  split at h
  · next hc =>
    obtain rfl := some.inj h
    exact hc ▸ ⟨by decide, by decide, fun _ ↦ .inr rfl⟩
  split at h
  · next hc =>
    obtain rfl := some.inj h
    exact hc ▸ ⟨by decide, by decide, fun h ↦ absurd h (by decide)⟩
  split at h
  · next hc =>
    obtain rfl := some.inj h
    exact hc ▸ ⟨by decide, by decide, fun h ↦ absurd h (by decide)⟩
  split at h
  · next hc =>
    obtain rfl := some.inj h
    exact hc ▸ ⟨by decide, by decide, fun h ↦ absurd h (by decide)⟩
  split at h
  · next hc =>
    obtain rfl := some.inj h
    exact hc
  split at h
  · next hc =>
    obtain rfl := some.inj h
    exact hc
  · exact absurd h nofun

theorem ending_pos {c : UInt8} (h : ending c = some (.buf suffix)) : 0 < suffix.length := by
  obtain ⟨hlast, -, -⟩ := ending_spec h
  exact length_pos_of_ne_nil fun hnil ↦ absurd (hnil ▸ hlast) nofun

/-- **The first word**: its stem is found, unless it is nothing but an ending and there is an i in
front of it. -/
theorem value_stem_first (h0 : 0 ∉ w) (hlen : 3 ≤ w.length) {c : UInt8} (hc : w.getLast? = some c)
    (hx : ending c = some x)
    (hbefore : w = chars "ego" ∨ w = chars "emu" → mem.before (-1) ≠ 105) :
    (stem mem size x w).value = some (stemOf x w) := by
  have hspec := ending_spec hx
  cases x with
  | y =>
    rw [value_stem_y h0 (ne_nil_of_length_pos (by omega)), stemOf, hc, if_pos]
    exact hspec.imp (congrArg some) (congrArg some)
  | m =>
    rw [value_stem_m h0 (by omega), stemOf, hc]
    simp only [show c = 109 from hspec, true_and]
  | buf suffix =>
    obtain ⟨-, hle, hthree⟩ := hspec
    have hpos := ending_pos hx
    by_cases hw : suffix <:+ w
    · refine value_stem_buf h0 hpos (by omega) ?_
      refine or_iff_not_imp_left.2 fun hnot ↦ hbefore ?_
      obtain rfl : suffix = w := hw.eq_of_length (by omega)
      exact hthree (by omega)
    · rcases lt_or_ge suffix.length w.length with hlt | hge
      · exact value_stem_buf h0 hpos hlt.le (.inl hlt)
      · -- as long as the ending, but another word
        have hcast : (w.length : ℤ) - suffix.length = ((0 : ℕ) : ℤ) := by omega
        have hdiff : w ≠ suffix := fun heq ↦ hw (heq ▸ suffix_rfl)
        rw [stem, stemOf, if_neg hw]
        simp only [Traced.value_bind, hcast]
        rw [value_strncpy h0 (by omega), bind_some, drop_zero,
          take_of_length_le (by omega), if_pos hdiff]
        rfl

theorem value_stem_of_stemOf (h0 : 0 ∉ w) (hpos : ∀ suffix, x = .buf suffix → 0 < suffix.length)
    (h : stemOf x w = some s) (hs : s ≠ []) : (stem mem size x w).value = some (some s) := by
  cases x with
  | y =>
    rw [stemOf] at h
    split at h
    · obtain rfl := some.inj h
      refine value_stem_y h0 ?_
      rintro rfl
      exact hs rfl
    · exact absurd h nofun
  | m =>
    rw [stemOf] at h
    split at h
    · next hw =>
      obtain rfl := some.inj h
      have hlen : 2 ≤ w.length := by
        by_contra hlt
        refine hs (eq_nil_of_length_eq_zero ?_)
        rw [length_dropLast, length_dropLast]
        omega
      rw [value_stem_m h0 hlen, if_pos hw.2]
    · exact absurd h nofun
  | buf suffix =>
    have hspec := h
    rw [stemOf] at hspec
    split at hspec
    · next hw =>
      have hlt : suffix.length < w.length := by
        refine lt_of_le_of_ne hw.length_le fun heq ↦ hs ?_
        have hzero : w.length - suffix.length = 0 := by omega
        rw [hzero] at hspec
        exact (some.inj hspec).symm
      rw [value_stem_buf h0 (hpos suffix rfl) hlt.le (.inl hlt), h]
    · exact absurd hspec nofun

end Stems

/-! ### Ordinal numerals -/

section Ordinals

variable {L : Lists} {mem : Memory} {przyp : ℤ} {w w' s : Bytes}
  {next : Option Bytes} {size n u : ℕ} {e : Ending}

theorem numeralOf_of_no_ordinal (hspelled : Spelled przyp w) (hcard : cardinalOf L w = none)
    (hend : ordinalOf w = none) : numeralOf L przyp w next = none := by
  have htwo : next.bind (twoOf L przyp w) = none := by
    refine Option.bind_eq_none_iff.2 fun w' _ ↦ ?_
    rw [twoOf_of_spelled hspelled, hcard, hend]
    rfl
  rw [numeralOf, htwo, oneOf_of_spelled hspelled, hcard, hend]
  rfl

theorem numeralOf_of_not_tens (hspelled : Spelled przyp w) (hcard : cardinalOf L w = none)
    (hend : ordinalOf w = some (e, s)) (htens : ordinalTensOf L s = none) :
    numeralOf L przyp w next =
      ((ordinalUnitOf L s).or (ordinalTeenOf L s)).map fun (n : ℕ) ↦ (-(n : ℤ), 1) := by
  have htwo : next.bind (twoOf L przyp w) = none := by
    refine Option.bind_eq_none_iff.2 fun w' _ ↦ ?_
    rw [twoOf_of_spelled hspelled, hcard, hend]
    dsimp only
    rw [bind_some, htens, bind_none]
  rw [numeralOf, htwo, oneOf_of_spelled hspelled, hcard, hend]
  dsimp only
  rw [bind_some, htens, Option.or_none, map_none, Option.none_or, Option.map_map]
  rfl

theorem oneOf_of_tens (hspelled : Spelled przyp w) (hcard : cardinalOf L w = none)
    (hend : ordinalOf w = some (e, s)) (htens : ordinalTensOf L s = some n) :
    oneOf L przyp w = some (-(n : ℤ)) := by
  rw [oneOf_of_spelled hspelled, hcard, hend]
  dsimp only
  rw [bind_some, ordinal_or_iff.2 (.inr (.inr htens)), map_some]

theorem numeralOf_of_tens (hspelled : Spelled przyp w) (hcard : cardinalOf L w = none)
    (hend : ordinalOf w = some (e, s)) (htens : ordinalTensOf L s = some n)
    (hnext : ∀ w' ∈ next, (stemOf e w').bind (ordinalUnitOf L) = none) :
    numeralOf L przyp w next = some (-(n : ℤ), 1) := by
  have htwo : next.bind (twoOf L przyp w) = none := by
    refine Option.bind_eq_none_iff.2 fun w' hw' ↦ ?_
    have hnone := hnext w' hw'
    rw [twoOf_of_spelled hspelled, hcard, hend]
    dsimp only
    rw [bind_some, htens, bind_some]
    rcases hs' : stemOf e w' with - | s'
    · rfl
    · rw [hs', bind_some] at hnone
      rw [bind_some, hnone, map_none]
  rw [numeralOf, htwo, oneOf_of_tens hspelled hcard hend htens]
  rfl

theorem numeralOf_of_tens_unit (hspelled : Spelled przyp w) (hcard : cardinalOf L w = none)
    (hend : ordinalOf w = some (e, s)) (htens : ordinalTensOf L s = some n) {s' : Bytes}
    (hstem : stemOf e w' = some s') (hunit : ordinalUnitOf L s' = some u) :
    numeralOf L przyp w (some w') = some (-((n + u : ℕ) : ℤ), 2) := by
  rw [numeralOf, bind_some, twoOf_of_spelled hspelled, hcard, hend]
  dsimp only
  rw [bind_some, htens, bind_some, hstem, bind_some, hunit]
  rfl

theorem ordinalUnitOf_eq_some : ordinalUnitOf L s = some u ↔
    ∃ member, memberArray s L.ord1 = some member ∧ u = member + 1 := by
  rw [ordinalUnitOf, map_eq_some_iff]
  exact exists_congr fun member ↦ and_congr_right fun _ ↦ eq_comm

theorem mem_of_memberArray {arr : List Bytes} {member : ℕ}
    (h : memberArray s arr = some member) : s ∈ arr := by
  obtain ⟨hlt, heq, -⟩ := List.findIdx?_eq_some_iff_getElem.1 h
  exact eq_of_beq heq ▸ getElem_mem hlt

theorem ordinalStem_exact (hnext : ∀ w' ∈ next, 0 ∉ w')
    (hpos : ∀ suffix, e = .buf suffix → 0 < suffix.length) (hspelled : Spelled przyp w)
    (hcard : cardinalOf L w = none) (hend : ordinalOf w = some (e, s)) :
    (ordinalStem L mem size e s next).value = some (numeralOf L przyp w next) ↔
      ∀ n, ordinalTensOf L s = some n → UnitsBehind L e next := by
  rw [ordinalStem]
  rcases h1 : memberArray s L.ord1 with - | member
  · rcases h11 : memberArray s L.ord11 with - | member
    · rcases h20 : memberArray s L.ord20 with - | member
      · have htens : ordinalTensOf L s = none := by
          rw [ordinalTensOf, if_pos ⟨h1, h11⟩, h20, map_none]
        rw [numeralOf_of_not_tens hspelled hcard hend htens, ordinalUnitOf, ordinalTeenOf, h1,
          if_pos rfl, h11]
        exact iff_of_true rfl fun n h ↦ absurd (htens.symm.trans h) nofun
      · have htens : ordinalTensOf L s = some ((member + 2) * 10) := by
          rw [ordinalTensOf, if_pos ⟨h1, h11⟩, h20, map_some]
        have hbehind : (∀ n, ordinalTensOf L s = some n → UnitsBehind L e next) ↔
            UnitsBehind L e next := ⟨fun h ↦ h _ htens, fun h _ _ ↦ h⟩
        rw [hbehind]
        rcases next with - | w'
        · rw [numeralOf_of_tens hspelled hcard hend htens fun w' hw' ↦ absurd hw' (by simp)]
          refine iff_of_true ?_ fun w' hw' ↦ absurd hw' nofun
          simp
        · simp only [Traced.value_bind, value_strcpy, bind_some]
          rcases hunit : (stemOf e w').bind (ordinalUnitOf L) with - | u
          · -- whatever the word is taken for, it is not left alone
            rw [numeralOf_of_tens hspelled hcard hend htens fun _ h ↦ some.inj h ▸ hunit]
            refine iff_of_false ?_ fun h ↦ ?_
            · rcases (stem mem size e w').value with - | - | tmp
              · exact nofun
              · exact nofun
              · rw [bind_some]
                rcases htmp : memberArray tmp L.ord1 with - | unit <;> simp [htmp]
            · obtain ⟨s', u, hstem, hu⟩ := h w' rfl
              rw [hstem, bind_some, hu] at hunit
              exact absurd hunit nofun
          · obtain ⟨s', hstem, hu⟩ := Option.bind_eq_some_iff.1 hunit
            obtain ⟨unit, hmember, rfl⟩ := ordinalUnitOf_eq_some.1 hu
            have hne : s' ≠ [] := by
              have hlen := L.stem_le s' (mem_append_left _ (mem_append_left _
                (mem_of_memberArray hmember)))
              exact ne_nil_of_length_pos (by omega)
            rw [numeralOf_of_tens_unit hspelled hcard hend htens hstem hu,
              value_stem_of_stemOf (hnext w' rfl) hpos hstem hne, bind_some]
            dsimp only
            rw [hmember]
            refine iff_of_true ?_ fun _ h ↦ some.inj h ▸ ⟨s', unit + 1, hstem, hu⟩
            simp
    · have htens : ordinalTensOf L s = none := by
        rw [ordinalTensOf, if_neg (by simp [h11])]
      rw [numeralOf_of_not_tens hspelled hcard hend htens, ordinalUnitOf, ordinalTeenOf, h1,
        if_pos rfl, h11]
      refine iff_of_true ?_ fun n h ↦ absurd (htens.symm.trans h) nofun
      simp
  · have htens : ordinalTensOf L s = none := by
      rw [ordinalTensOf, if_neg (by simp [h1])]
    rw [numeralOf_of_not_tens hspelled hcard hend htens, ordinalUnitOf, h1]
    refine iff_of_true ?_ fun n h ↦ absurd (htens.symm.trans h) nofun
    simp

/-- **The analysis of an ordinal numeral** finds what it should exactly if there is nothing that it
takes for an i in front of a bare ending, and behind tens there are only units. -/
theorem ordinal_exact (h0 : 0 ∉ w) (hnext : ∀ w' ∈ next, 0 ∉ w') (hlen : 3 ≤ w.length)
    (hspelled : Spelled przyp w) (hcard : cardinalOf L w = none) :
    (ordinal L mem size w next).value = some (numeralOf L przyp w next) ↔
      (w = chars "ego" ∨ w = chars "emu" → mem.before (-1) ≠ 105) ∧
        ∀ e s, ordinalOf w = some (e, s) → ∀ n, ordinalTensOf L s = some n →
          UnitsBehind L e next := by
  have hcast : (w.length : ℤ) - 1 = (w.length - 1 : ℕ) := by omega
  have hlast : w.getLast? = some w[w.length - 1] := by
    rw [List.getLast?_eq_getElem?, List.getElem?_eq_getElem (by omega)]
  rw [ordinal, hcast]
  simp only [Traced.value_bind]
  rw [value_charAt (by omega), bind_some]
  generalize hc : w[w.length - 1] = c at hlast ⊢
  rcases hx : ending c with - | x
  · have hend : ordinalOf w = none := by
      rw [ordinalOf, hlast, bind_some, hx, bind_none]
    rw [numeralOf_of_no_ordinal hspelled hcard hend]
    refine iff_of_true rfl ⟨fun hw ↦ ?_, fun e s h ↦ absurd (hend.symm.trans h) nofun⟩
    -- the endings end with letters of endings
    rcases hw with rfl | rfl
    · obtain rfl := some.inj hlast
      exact absurd hx (by decide)
    · obtain rfl := some.inj hlast
      exact absurd hx (by decide)
  by_cases hstray : w = chars "ego" ∨ w = chars "emu" → mem.before (-1) ≠ 105
  · rw [and_iff_right hstray]
    simp only [Traced.value_bind]
    rw [value_stem_first h0 hlen hlast hx hstray, bind_some]
    rcases hs : stemOf x w with - | s
    · have hend : ordinalOf w = none := by
        rw [ordinalOf, hlast, bind_some, hx, bind_some, hs, map_none]
      rw [numeralOf_of_no_ordinal hspelled hcard hend]
      exact iff_of_true rfl fun e s h ↦ absurd (hend.symm.trans h) nofun
    have hend : ordinalOf w = some (x, s) := by
      rw [ordinalOf, hlast, bind_some, hx, bind_some, hs, map_some]
    have hone : (∀ e s, ordinalOf w = some (e, s) → ∀ n, ordinalTensOf L s = some n →
        UnitsBehind L e next) ↔ ∀ n, ordinalTensOf L s = some n → UnitsBehind L x next := by
      refine ⟨fun h ↦ h x s hend, fun h e s' hs' ↦ ?_⟩
      obtain ⟨rfl, rfl⟩ := Prod.mk.inj (some.inj (hend.symm.trans hs'))
      exact h
    rw [hone]
    exact ordinalStem_exact hnext (fun suffix h ↦ ending_pos (h ▸ hx)) hspelled hcard hend
  · rw [Classical.not_imp, not_not] at hstray
    obtain ⟨hw, hbefore⟩ := hstray
    refine iff_of_false ?_ fun h ↦ h.1 hw hbefore
    have hx' : x = .buf w := by
      rcases hw with rfl | rfl
      · obtain rfl := some.inj hlast
        exact some.inj (hx.symm.trans (by decide))
      · obtain rfl := some.inj hlast
        exact some.inj (hx.symm.trans (by decide))
    rw [hx']
    simp only [Traced.value_bind]
    rw [value_stem_bare h0 hbefore]
    exact nofun

end Ordinals

/-! ### Cardinal numerals -/

section Cardinals

variable {L : Lists} {mem : Memory} {przyp : ℤ} {w w' buf : Bytes}
  {next : Option Bytes} {size n u : ℕ} {c : Cardinal}

theorem cardinals_spec (h : cardinals L buf = some c) :
    buf.length = 2 ∧ (∀ b ∈ buf, isSpace b = false) ∧ 0 < c.unit ∧ (∀ member, 0 < c.value member) ∧
      ∀ ending ∈ c.endings, ending ≠ [] := by
  have hmem := mem_of_find?_eq_some h
  have hbuf : c.buf = buf := eq_of_beq (List.find?_some (p := fun c : Cardinal ↦ c.buf == buf) h)
  have hletters : ∀ b ∈ ["je", "dw", "tr", "cz", "pi", "sz", "si", "os", "dz"].map chars,
      b.length = 2 ∧ ∀ c ∈ b, isSpace c = false := by decide +kernel
  have hbufs : c.buf ∈ ["je", "dw", "tr", "cz", "pi", "sz", "si", "os", "dz"].map chars :=
    mem_map_of_mem (f := Cardinal.buf) hmem
  obtain ⟨hlen, hspace⟩ := hletters _ hbufs
  refine ⟨hbuf ▸ hlen, hbuf ▸ hspace, ?_⟩
  have hending := L.ending_ne
  simp only [mem_append] at hending
  simp only [mem_cons, not_mem_nil, or_false] at hmem
  have hothers : 0 < c.unit ∧ ∀ member, 0 < c.others member := by
    rcases hmem with rfl | rfl | rfl | rfl | rfl | rfl | rfl | rfl | rfl
    · exact ⟨Nat.succ_pos _, fun _ ↦ Nat.succ_pos _⟩
    all_goals
      refine ⟨Nat.succ_pos _, fun member ↦ ?_⟩
      simp only [dw, tr, cz, pi, sz, si, os, dz]
      split_ifs <;> omega
  refine ⟨hothers.1, fun member ↦ ?_, fun ending hin ↦ hending ending ?_⟩
  · rw [Cardinal.value]
    split
    · exact hothers.1
    · exact hothers.2 member
  · rcases hmem with rfl | rfl | rfl | rfl | rfl | rfl | rfl | rfl | rfl <;>
      simp only [je, dw, tr, cz, pi, sz, si, os, dz] at hin <;> simp [hin]

theorem firstCardinal_eq (w : Bytes) :
    firstCardinal L (w.take 2) (w.drop 2) = (cardinalOf L w).getD 0 := by
  rw [firstCardinal, cardinalOf]
  rcases cardinals L (w.take 2) with - | c
  · rfl
  · dsimp only
    rw [bind_some]
    cases memberArray (w.drop 2) c.endings <;> rfl

theorem cardinalOf_pos (h : cardinalOf L w = some n) : 0 < n := by
  obtain ⟨c, hc, h⟩ := Option.bind_eq_some_iff.1 h
  obtain ⟨member, -, rfl⟩ := Option.map_eq_some_iff.1 h
  exact (cardinals_spec hc).2.2.2.1 member

theorem length_of_cardinalOf (h : cardinalOf L w = some n) : 3 ≤ w.length := by
  obtain ⟨c, hc, h⟩ := Option.bind_eq_some_iff.1 h
  obtain ⟨member, hmember, -⟩ := Option.map_eq_some_iff.1 h
  obtain ⟨-, -, -, -, hne⟩ := cardinals_spec hc
  have hpos := length_pos_of_ne_nil (hne _ (mem_of_memberArray hmember))
  rw [length_drop] at hpos
  omega

theorem numeralOf_of_cardinal (hspelled : Spelled przyp w) (hcard : cardinalOf L w = some n)
    (hnext : 20 ≤ n → ∀ w' ∈ next, unitOf L w' = none) :
    numeralOf L przyp w next = some ((n : ℤ), 1) := by
  have htwo : next.bind (twoOf L przyp w) = none := by
    refine Option.bind_eq_none_iff.2 fun w' hw' ↦ ?_
    rw [twoOf_of_spelled hspelled, hcard]
    dsimp only
    split
    · next hle => rw [hnext hle w' hw', map_none]
    · rfl
  rw [numeralOf, htwo, oneOf_of_spelled hspelled, hcard]
  rfl

theorem numeralOf_of_cardinal_unit (hspelled : Spelled przyp w) (hcard : cardinalOf L w = some n)
    (hle : 20 ≤ n) (hunit : unitOf L w' = some u) :
    numeralOf L przyp w (some w') = some (((n + u : ℕ) : ℤ), 2) := by
  rw [numeralOf, bind_some, twoOf_of_spelled hspelled, hcard]
  dsimp only
  rw [if_pos hle, hunit]
  rfl

theorem secondCardinal_eq : secondCardinal L (w'.take 2) (afterTwo mem w') =
    match cardinals L (w'.take 2) with
    | none => 0
    | some c => (memberArray (w'.drop 2) c.endings).elim (-1) fun member ↦
        if member < c.cut then (c.unit : ℤ) else 0 := by
  rw [secondCardinal]
  rcases hc : cardinals L (w'.take 2) with - | c
  · rfl
  · have hlen := (cardinals_spec hc).1
    rw [length_take] at hlen
    rw [afterTwo, if_pos (by omega)]
    dsimp only
    cases memberArray (w'.drop 2) c.endings <;> rfl

/-- **The analysis of a cardinal numeral** finds what it should exactly if behind tens there is no
word that only begins like a numeral. -/
theorem cardinal_exact (hspelled : Spelled przyp w) (hcard : cardinalOf L w = some n) :
    (cardinal L mem size w next).value = some (numeralOf L przyp w next) ↔
      (20 ≤ n → ∀ w' ∈ next, ∀ c, cardinals L (w'.take 2) = some c → w'.drop 2 ∈ c.endings) := by
  have hpos := cardinalOf_pos hcard
  rw [cardinal]
  simp only [Traced.value_bind, value_strcpy, bind_some, firstCardinal_eq, hcard,
    Option.getD_some, if_neg hpos.ne']
  by_cases hle : 20 ≤ n
  · rw [if_neg (by omega)]
    rcases next with - | w'
    · rw [numeralOf_of_cardinal hspelled hcard fun _ w' hw' ↦ absurd hw' (by simp)]
      exact iff_of_true rfl fun _ w' hw' ↦ absurd hw' (by simp)
    · have hbehind : (20 ≤ n → ∀ v ∈ some w', ∀ c, cardinals L (v.take 2) = some c →
          v.drop 2 ∈ c.endings) ↔
          ∀ c, cardinals L (w'.take 2) = some c → w'.drop 2 ∈ c.endings :=
        ⟨fun h ↦ h hle w' rfl, fun h _ v hv ↦ some.inj hv ▸ h⟩
      simp only [Traced.value_bind, Traced.value_access, value_strcpy, bind_some,
        secondCardinal_eq, hbehind]
      rcases hc : cardinals L (w'.take 2) with - | c
      · have hunit : unitOf L w' = none := by rw [unitOf, hc, bind_none]
        rw [numeralOf_of_cardinal hspelled hcard fun _ _ h ↦ some.inj h ▸ hunit]
        exact iff_of_true rfl nofun
      have hone : (∀ c', some c = some c' → w'.drop 2 ∈ c'.endings) ↔ w'.drop 2 ∈ c.endings :=
        ⟨fun h ↦ h c rfl, fun h _ hc' ↦ some.inj hc' ▸ h⟩
      rw [hone]
      dsimp only
      obtain ⟨added, hadded⟩ : ∃ added, (memberArray (w'.drop 2) c.endings).elim (-1)
        (fun member ↦ if member < c.cut then (c.unit : ℤ) else 0) = added := ⟨_, rfl⟩
      simp only [hadded]
      rcases hmember : memberArray (w'.drop 2) c.endings with - | member
      · -- the result of `member_array` is added
        have hunit : unitOf L w' = none := by
          rw [unitOf, hc, bind_some, hmember, bind_none]
        rw [hmember, Option.elim_none] at hadded
        rw [numeralOf_of_cardinal hspelled hcard fun _ _ h ↦ some.inj h ▸ hunit,
          if_pos (by omega)]
        refine iff_of_false (by simp) fun h ↦ ?_
        have hsome := List.findIdx?_eq_some_of_exists
          (p := (· == w'.drop 2)) ⟨_, h, beq_self_eq_true _⟩
        exact absurd (hmember.symm.trans hsome) nofun
      · have hmem := mem_of_memberArray hmember
        have hpos' := (cardinals_spec hc).2.2.1
        rw [hmember, Option.elim_some] at hadded
        by_cases hcut : member < c.cut
        · have hunit : unitOf L w' = some c.unit := by
            rw [unitOf, hc, bind_some, hmember, bind_some, if_pos hcut]
          rw [if_pos hcut] at hadded
          rw [numeralOf_of_cardinal_unit hspelled hcard hle hunit, if_pos (by omega), ← hadded]
          exact iff_of_true (by simp) hmem
        · have hunit : unitOf L w' = none := by
            rw [unitOf, hc, bind_some, hmember, bind_some, if_neg hcut]
          rw [if_neg hcut] at hadded
          rw [numeralOf_of_cardinal hspelled hcard fun _ _ h ↦ some.inj h ▸ hunit,
            if_neg (by omega)]
          exact iff_of_true rfl hmem
  · rw [if_pos (by omega), numeralOf_of_cardinal hspelled hcard fun h ↦ absurd h hle]
    exact iff_of_true rfl fun h ↦ absurd h hle

end Cardinals

/-! ### All numerals -/

section Numerals

variable {L : Lists} {mem : Memory} {przyp : ℤ} {w : Bytes} {next : Option Bytes}
  {size : ℕ} {z : ℤ}

theorem scanDigits_ne_eof (sign : ℤ) (s : Bytes) : scanDigits sign s ≠ .eof := by
  rw [scanDigits]
  split <;> exact nofun

theorem isSpace_of_eof (h : scanNumber w = .eof) : ∀ c ∈ w, isSpace c = true := by
  rw [scanNumber] at h
  rcases hrest : w.dropWhile isSpace with - | ⟨c, s⟩
  · exact dropWhile_eq_nil_iff.1 hrest
  · rw [hrest] at h
    dsimp only at h
    split at h
    · exact absurd h (scanDigits_ne_eof _ _)
    split at h <;> exact absurd h (scanDigits_ne_eof _ _)

theorem ending_of_isSpace {c : UInt8} (h : isSpace c = true) : ending c = none := by
  have hne (d : UInt8) (hd : isSpace d = false) : c ≠ d := by
    rintro rfl
    exact absurd (h.symm.trans hd) nofun
  rw [ending, if_neg (hne 111 rfl), if_neg (hne 117 rfl), if_neg (hne 106 rfl),
    if_neg (hne 101 rfl), if_neg (hne 97 rfl), if_neg (hne 109 rfl),
    if_neg (not_or.2 ⟨hne 105 rfl, hne 121 rfl⟩)]

theorem allWords_spec {words : List Bytes} (h : allWords przyp = some words) :
    ∀ v ∈ words, 3 ≤ v.length ∧ ∃ c ∈ v, isSpace c = false := by
  rw [allWords] at h
  repeat' split at h
  all_goals first
    | (obtain rfl := some.inj h; decide)
    | exact absurd h (by simp)

theorem length_of_ordinalOf {e : Ending} {s : Bytes} (h : ordinalOf w = some (e, s)) :
    s.length < w.length := by
  obtain ⟨e', he, h⟩ := Option.bind_eq_some_iff.1 h
  obtain ⟨c, hc, he⟩ := Option.bind_eq_some_iff.1 he
  obtain ⟨s', hs', hpair⟩ := Option.map_eq_some_iff.1 h
  obtain ⟨rfl, rfl⟩ := Prod.mk.inj hpair
  have hpos : 0 < w.length := length_pos_of_ne_nil fun hnil ↦ by simp [hnil] at hc
  cases e' with
  | y | m =>
    rw [stemOf] at hs'
    split at hs'
    · obtain rfl := some.inj hs'
      simp only [length_dropLast]
      omega
    · exact absurd hs' nofun
  | buf suffix =>
    have hsuffix := ending_pos he
    rw [stemOf] at hs'
    split at hs'
    · obtain rfl := some.inj hs'
      split
      · rw [length_dropLast, length_take]
        omega
      · rw [length_take]
        omega
    · exact absurd hs' nofun

theorem length_of_stem {s : Bytes} {n : ℕ} (h : ordinalUnitOf L s = some n ∨
    ordinalTeenOf L s = some n ∨ ordinalTensOf L s = some n) : 2 ≤ s.length := by
  have hmem : s ∈ L.ord1 ++ L.ord11 ++ L.ord20 := by
    rw [mem_append, mem_append]
    rcases h with h | h | h
    · rw [ordinalUnitOf, map_eq_some_iff] at h
      exact .inl (.inl (mem_of_memberArray h.choose_spec.1))
    · rw [ordinalTeenOf] at h
      split at h
      · exact .inl (.inr (mem_of_memberArray (Option.map_eq_some_iff.1 h).choose_spec.1))
      · exact absurd h nofun
    · rw [ordinalTensOf] at h
      split at h
      · exact .inr (mem_of_memberArray (Option.map_eq_some_iff.1 h).choose_spec.1)
      · exact absurd h nofun
  exact L.stem_le s hmem

/-- What is no number in digits, no word for all, no cardinal numeral, and has no stem of an ordinal
one is no numeral. -/
theorem numeralOf_eq_none (hno : ∀ z, scanNumber w ≠ .number z)
    (hall : ∀ words, allWords przyp = some words → w ∉ words) (hcard : cardinalOf L w = none)
    (hord : ∀ e s, ordinalOf w = some (e, s) → s.length < 2) :
    numeralOf L przyp w next = none := by
  rcases word_cases przyp w with ⟨z, hz⟩ | ⟨-, hnone | ⟨words, hwords, hw⟩⟩ | hspelled
  · exact absurd hz (hno z)
  · have hone : oneOf L przyp w = none := by
      rw [oneOf]
      split
      · next z hz => exact absurd hz (hno z)
      · rw [hnone, bind_none]
    have htwo : next.bind (twoOf L przyp w) = none := by
      refine Option.bind_eq_none_iff.2 fun w' _ ↦ ?_
      rw [twoOf]
      split
      · rfl
      · rw [hnone, bind_none]
    rw [numeralOf, hone, htwo]
    rfl
  · exact absurd hw (hall words hwords)
  · rcases hend : ordinalOf w with - | ⟨e, s⟩
    · exact numeralOf_of_no_ordinal hspelled hcard hend
    · have hshort := hord e s hend
      have hlists (n : ℕ) : ¬(ordinalUnitOf L s = some n ∨ ordinalTeenOf L s = some n ∨
          ordinalTensOf L s = some n) := fun h ↦ absurd (length_of_stem h) (by omega)
      have htens : ordinalTensOf L s = none :=
        Option.eq_none_iff_forall_ne_some.2 fun n hn ↦ hlists n (.inr (.inr hn))
      have hteen : ordinalTeenOf L s = none :=
        Option.eq_none_iff_forall_ne_some.2 fun n hn ↦ hlists n (.inr (.inl hn))
      have hunit : ordinalUnitOf L s = none :=
        Option.eq_none_iff_forall_ne_some.2 fun n hn ↦ hlists n (.inl hn)
      rw [numeralOf_of_not_tens hspelled hcard hend htens, hunit, hteen]
      rfl

theorem numeralOf_of_eof (h : scanNumber w = .eof) : numeralOf L przyp w next = none := by
  have hspace := isSpace_of_eof h
  refine numeralOf_eq_none (fun z hz ↦ absurd (h.symm.trans hz) nofun) ?_ ?_ ?_
  · intro words hwords hw
    obtain ⟨-, c, hc, hletter⟩ := allWords_spec hwords w hw
    exact absurd ((hspace c hc).symm.trans hletter) nofun
  · refine Option.eq_none_iff_forall_ne_some.2 fun n hn ↦ ?_
    obtain ⟨c, hc, -⟩ := Option.bind_eq_some_iff.1 hn
    obtain ⟨hlen, hletters, -⟩ := cardinals_spec hc
    rcases htake : w.take 2 with - | ⟨b, bs⟩
    · rw [htake] at hlen
      exact absurd hlen nofun
    · have hb : b ∈ w.take 2 := htake ▸ mem_cons_self
      exact absurd ((hspace b (mem_of_mem_take hb)).symm.trans (hletters b hb)) nofun
  · intro e s hend
    obtain ⟨e', he, -⟩ := Option.bind_eq_some_iff.1 hend
    obtain ⟨c, hc, he⟩ := Option.bind_eq_some_iff.1 he
    exact absurd ((ending_of_isSpace (hspace c (mem_of_getLast? hc))).symm.trans he) nofun

theorem numeralOf_of_short (hno : ∀ z, scanNumber w ≠ .number z) (hlen : w.length < 3) :
    numeralOf L przyp w next = none := by
  refine numeralOf_eq_none hno ?_ ?_ ?_
  · intro words hwords hw
    have := (allWords_spec hwords w hw).1
    omega
  · exact Option.eq_none_iff_forall_ne_some.2 fun n hn ↦
      absurd (length_of_cardinalOf hn) (by omega)
  · intro e s hend
    have := length_of_ordinalOf hend
    omega

theorem toInt_eq (hpos : 0 ≤ z) : toInt z = z ↔ z < 2 ^ 31 := by
  constructor
  · intro h
    have hlt : toInt z < 2 ^ 31 := Int.bmod_lt (by decide)
    rwa [h] at hlt
  · intro h
    rw [toInt, min_eq_left (by omega), max_eq_right (by omega)]
    exact Int.bmod_eq_of_le (by omega) (by omega)

theorem numeralOf_of_number (hz : scanNumber w = .number z) :
    numeralOf L przyp w next = if 0 ≤ z then some (z, 1) else none := by
  have htwo : next.bind (twoOf L przyp w) = none := by
    refine Option.bind_eq_none_iff.2 fun w' _ ↦ ?_
    rw [twoOf, hz]
  rw [numeralOf, htwo, oneOf, hz]
  dsimp only
  split <;> rfl

theorem numeral_number_exact (hz : scanNumber w = .number z) :
    (numeral L mem przyp size w next).value = some (numeralOf L przyp w next) ↔
      if 0 ≤ z then z < 2 ^ 31 else toInt z < 0 := by
  rw [numeral, hz, numeralOf_of_number hz]
  dsimp only
  rw [Traced.value_pure, Option.some.injEq]
  by_cases hpos : 0 ≤ z
  · rw [if_pos hpos, if_pos hpos, ← toInt_eq hpos]
    constructor
    · intro h
      split at h
      · exact (Prod.mk.inj (some.inj h)).1
      · exact absurd h nofun
    · intro h
      rw [h, if_pos hpos]
  · rw [if_neg hpos, if_neg hpos]
    constructor
    · intro h
      split at h
      · exact absurd h nofun
      · next hneg => exact not_le.1 hneg
    · exact fun h ↦ if_neg (not_le.2 h)

theorem numeral_spelled_exact (h0 : 0 ∉ w) (hnext : ∀ w' ∈ next, 0 ∉ w')
    (hscan : scanNumber w = .mismatch) (hlen : 3 ≤ w.length) (hspelled : Spelled przyp w) :
    (numeral L mem przyp size w next).value = some (numeralOf L przyp w next) ↔
      Regular L mem przyp w next := by
  obtain ⟨words, hwords, hw⟩ := hspelled.all
  have hblank : scanNumber w ≠ .eof := fun h ↦ absurd (hscan.symm.trans h) nofun
  have hnumber : ∀ z, scanNumber w = .number z → if 0 ≤ z then z < 2 ^ 31 else toInt z < 0 :=
    fun z hz ↦ absurd hz (hspelled.number z)
  rw [numeral, hscan]
  dsimp only
  rw [if_neg (by omega), hwords]
  dsimp only
  rw [if_neg (mt contains_iff_mem.1 hw)]
  rcases hcard : cardinalOf L w with - | n
  · rw [cardinal]
    simp only [Traced.value_bind, value_strcpy, bind_some, firstCardinal_eq, hcard,
      Option.getD_none, if_true]
    rw [ordinal_exact h0 hnext hlen hspelled hcard]
    refine ⟨fun ⟨hending, hordinal⟩ ↦ ⟨hblank, hnumber, fun _ n hn ↦ ?_, ?_, ?_⟩, fun h ↦ ?_⟩
    · exact absurd (hcard.symm.trans hn) nofun
    · exact fun _ _ ↦ hordinal
    · exact fun _ _ ↦ hending
    · exact ⟨h.ending hspelled hcard, h.ordinal hspelled hcard⟩
  · rw [cardinal_exact hspelled hcard]
    refine ⟨fun htens ↦ ⟨hblank, hnumber, fun _ m hm ↦ ?_, fun _ hnone ↦ ?_, fun _ hnone ↦ ?_⟩,
      fun h ↦ h.tens hspelled n hcard⟩
    · exact some.inj (hcard.symm.trans hm) ▸ htens
    · exact absurd (hcard.symm.trans hnone) nofun
    · exact absurd (hcard.symm.trans hnone) nofun

/-- Where no word is read letter by letter there are no exceptions but for numbers and blank words.
-/
theorem regular_of_not_spelled (hscan : scanNumber w = .mismatch)
    (hnot : Spelled przyp w → w.length < 3) : Regular L mem przyp w next where
  blank h := absurd (hscan.symm.trans h) nofun
  number z hz := absurd (hscan.symm.trans hz) nofun
  tens hspelled n hn := absurd (length_of_cardinalOf hn) (not_le.2 (hnot hspelled))
  ordinal hspelled _ e s hend n hn := by
    have hlt := length_of_ordinalOf hend
    have hle := length_of_stem (.inr (.inr hn))
    have := hnot hspelled
    omega
  ending hspelled _ hw := by
    have hlt := hnot hspelled
    rcases hw with rfl | rfl <;> exact absurd hlt (by decide)

/-- **The numeral that is found** is the longest one exactly if the words are no exceptions. -/
theorem numeral_exact (h0 : 0 ∉ w) (hnext : ∀ w' ∈ next, 0 ∉ w') :
    (numeral L mem przyp size w next).value = some (numeralOf L przyp w next) ↔
      Regular L mem przyp w next := by
  rcases hscan : scanNumber w with - | - | z
  · -- a blank word
    refine iff_of_false ?_ fun h ↦ h.blank hscan
    rw [numeral, hscan, numeralOf_of_eof hscan]
    exact nofun
  · have hno : ∀ z, scanNumber w ≠ .number z := fun z hz ↦ absurd (hscan.symm.trans hz) nofun
    rcases lt_or_ge w.length 3 with hshort | hlen
    · refine iff_of_true ?_ (regular_of_not_spelled hscan fun _ ↦ hshort)
      rw [numeral, hscan, numeralOf_of_short hno hshort]
      dsimp only
      rw [if_pos hshort]
      rfl
    · rcases word_cases przyp w with ⟨z, hz⟩ | ⟨-, hall⟩ | hspelled
      · exact absurd hz (hno z)
      · have hnot : ¬Spelled przyp w := by
          rintro ⟨-, words, hwords, hw⟩
          rcases hall with hnone | ⟨words', hwords', hw'⟩
          · exact absurd (hnone.symm.trans hwords) nofun
          · obtain rfl := some.inj (hwords.symm.trans hwords')
            exact hw hw'
        refine iff_of_true ?_ (regular_of_not_spelled hscan fun h ↦ absurd h hnot)
        rw [numeral, hscan]
        dsimp only
        rw [if_neg (by omega)]
        have htwo : next.bind (twoOf L przyp w) = none := by
          refine Option.bind_eq_none_iff.2 fun w' _ ↦ ?_
          rw [twoOf, hscan]
          rcases hall with hnone | ⟨words, hwords, hw⟩
          · rw [hnone, bind_none]
          · rw [hwords, bind_some, if_pos hw]
        rw [numeralOf, htwo, oneOf, hscan]
        rcases hall with hnone | ⟨words, hwords, hw⟩
        · rw [hnone]
          rfl
        · simp only [hwords, if_pos hw, if_pos (contains_iff_mem.2 hw), bind_some]
          rfl
      · exact numeral_spelled_exact h0 hnext hscan hlen hspelled
  · rw [numeral_number_exact hscan]
    refine ⟨fun h ↦ ⟨fun heof ↦ absurd (hscan.symm.trans heof) nofun, fun z' hz' ↦ ?_,
      fun hs ↦ absurd hscan (hs.number z), fun hs ↦ absurd hscan (hs.number z),
      fun hs ↦ absurd hscan (hs.number z)⟩, fun h ↦ h.number z hscan⟩
    obtain rfl := Scan.number.inj (hscan.symm.trans hz')
    exact h

end Numerals

/-- `number_parse` reads exactly the longest numeral that the words from `cix` on begin with, and
fails where there is none, exactly if the word there and the next one are no exceptions. -/
theorem exact_iff (front : List CString) (w : CString) (rest : List CString) :
    Exact L mem przyp (front ++ w :: rest) front.length ↔
      Regular L mem przyp w.bytes (rest.head?.map CString.bytes) := by
  have hnext : ∀ w' ∈ rest.head?.map CString.bytes, 0 ∉ w' := by
    intro w' hw'
    obtain ⟨s, -, rfl⟩ := Option.map_eq_some_iff.1 hw'
    exact s.noNul
  have hvalue : (numberParse L mem przyp (front ++ w :: rest) front.length).value =
      (numeral L mem przyp w.bytes.length w.bytes (rest.head?.map CString.bytes)).value.map
        (Option.map fun p ↦ (p.1, front.length + p.2)) := by
    have hword : (front ++ w :: rest)[front.length]? = some w := by simp
    have hbehind : (front ++ w :: rest)[front.length + 1]? = rest.head? := by
      rw [List.getElem?_append_right (by omega), Nat.add_sub_cancel_left, List.getElem?_cons_succ,
        List.head?_eq_getElem?]
    rw [numberParse]
    simp only [Traced.value_bind, Traced.value_access, bind_some, hword, hbehind,
      value_strcpy, Traced.value_pure]
    cases (numeral L mem przyp w.bytes.length w.bytes
      (rest.head?.map CString.bytes)).value <;> rfl
  have hwords : wordsFrom (front ++ w :: rest) front.length =
      w.bytes :: rest.map CString.bytes := by
    rw [wordsFrom, drop_left, map_cons]
  have hhead : (rest.map CString.bytes).head? = rest.head?.map CString.bytes := List.head?_map
  have hinj : Function.Injective fun p : ℤ × ℕ ↦ (p.1, front.length + p.2) := by
    rintro ⟨v, n⟩ ⟨v', n'⟩ h
    obtain ⟨rfl, h⟩ := Prod.mk.inj h
    exact congrArg (Prod.mk _) (Nat.add_left_cancel h)
  have hiff (y : Option (ℤ × ℕ)) :
      (numberParse L mem przyp (front ++ w :: rest) front.length).value =
          some (y.map fun p ↦ (p.1, front.length + p.2)) ↔
        (numeral L mem przyp w.bytes.length w.bytes (rest.head?.map CString.bytes)).value =
          some y := by
    rw [hvalue]
    exact (Option.map_injective (Option.map_injective hinj)).eq_iff (b := some y)
  rw [← @numeral_exact L mem przyp w.bytes _ w.bytes.length w.noNul hnext]
  constructor
  · intro h
    rcases hn : numeralOf L przyp w.bytes (rest.head?.map CString.bytes) with - | ⟨v, n⟩
    · refine (hiff none).1 (h.fails.2 ?_)
      rw [hwords, not_isNumeral_iff, hhead, hn]
    · refine (hiff (some (v, n))).1 ((h.found v n).2 ?_)
      rw [hwords, longest_iff, hhead, hn]
  · intro h
    refine ⟨fun v n ↦ ?_, ?_⟩
    · rw [hwords, longest_iff, hhead]
      refine (hiff (some (v, n))).trans ?_
      rw [h, Option.some.injEq]
    · rw [hwords, not_isNumeral_iff, hhead]
      refine (hiff none).trans ?_
      rw [h, Option.some.injEq]

/-- "dwadziescia jednoreki": the noun behind the tens begins like a numeral, and -1 is added for it.
-/
theorem not_exact : ¬∀ L mem przyp front w rest,
    Exact L mem przyp (front ++ w :: rest) front.length := by
  intro h
  have hexact := h lists ⟨fun _ ↦ 0, []⟩ 0 [] ⟨chars "dwadziescia", by decide⟩
    [⟨chars "jednoreki", by decide⟩]
  have hparsed : (numberParse lists ⟨fun _ ↦ 0, []⟩ 0
      [⟨chars "dwadziescia", by decide⟩, ⟨chars "jednoreki", by decide⟩]
      0).value = some (some (19, 0 + 2)) := by
    decide
  have hlongest := (hexact.found 19 2).1 hparsed
  have hnumeral := longest_iff.1 hlongest
  exact absurd hnumeral (by decide)

end Lpmud.Numeral
