import Lpmud.Mapping.Table
import Lpmud.Object.Save

/-!
# Restoring what has been saved

For which values `restore_one` gives back what `save_one` was given: those without a carriage
return in any string and without a mapping of more than 10240 pairs (`restore_save_iff`).

A carriage return is written as it is, and read as a newline. A mapping is read into one that
starts with a single bucket, and such a mapping cannot be extended beyond 10240 pairs.

Values are compared by their structure: arrays and mappings get new addresses when they are read,
and the pairs of a mapping need not come in the same order.
-/

namespace Lpmud

open List Option

namespace Svalue

mutual

/-- **Structural equality of values.** -/
def Equal : Svalue → Svalue → Prop
  | .number m, .number n => m = n
  | .float x, .float y => x = y
  | .string s, .string t => s = t
  | .object ob, .object ob' => ob = ob'
  | .pointer _ item, .pointer _ item' => EqualItems item item'
  | .mapping _ pairs, .mapping _ pairs' => ∃ qs, qs.Perm pairs' ∧ EqualPairs pairs qs
  | .function f, .function f' => f = f'
  | _, _ => False

/-- `Equal` for the elements of arrays. -/
def EqualItems : List Svalue → List Svalue → Prop
  | [], [] => True
  | v :: item, v' :: item' => Equal v v' ∧ EqualItems item item'
  | _, _ => False

/-- `Equal` for pairs of mappings, in order. -/
def EqualPairs : List (Svalue × Svalue) → List (Svalue × Svalue) → Prop
  | [], [] => True
  | (k, v) :: pairs, q :: qs => (Equal k q.1 ∧ Equal v q.2) ∧ EqualPairs pairs qs
  | _, _ => False

end

/-- No string has a carriage return in it. -/
def NoCr : Svalue → Prop :=
  All fun
    | .string s => Object.CR ∉ s.bytes
    | _ => True

/-- No mapping has more than 10240 pairs. -/
def Small : Svalue → Prop :=
  All fun
    | .mapping _ pairs => pairs.length ≤ 10240
    | _ => True

/-- **A value built from integers, strings, arrays and mappings.** Arrays have at most as many
elements as arrays can have, the one without elements is the null vector, and no two keys of a
mapping are equal. -/
def Saveable (e : Object.Env) : Svalue → Prop :=
  All fun
    | .number _ | .string _ => True
    | .pointer vec item => item.length ≤ Object.MAX_ARRAY_SIZE ∧ (item = [] → vec = e.nullVector)
    | .mapping _ pairs => pairs.Pairwise fun p q ↦ equalSvalue e.world p.1 q.1 = false
    | _ => False

theorem EqualPairs.length_eq : ∀ {ps qs : List (Svalue × Svalue)}, EqualPairs ps qs →
    ps.length = qs.length := by
  intro ps
  induction ps with
  | nil =>
    rintro (- | ⟨q, qs⟩) h
    · rfl
    · exact h.elim
  | cons p ps ih =>
    rintro (- | ⟨q, qs⟩) h
    · exact h.elim
    · exact congrArg (· + 1) (ih h.2)

theorem EqualPairs.append {ps qs : List (Svalue × Svalue)} {p q : Svalue × Svalue}
    (h : EqualPairs ps qs) (hk : Equal p.1 q.1) (hv : Equal p.2 q.2) :
    EqualPairs (ps ++ [p]) (qs ++ [q]) := by
  induction ps generalizing qs with
  | nil =>
    rcases qs with - | ⟨q', qs⟩
    · exact ⟨⟨hk, hv⟩, trivial⟩
    · exact h.elim
  | cons p' ps ih =>
    rcases qs with - | ⟨q', qs⟩
    · exact h.elim
    · exact ⟨h.1, ih h.2⟩

theorem Equal.noCr {v : Svalue} : ∀ {w : Svalue}, Equal v w → w.NoCr → v.NoCr := by
  induction v using Svalue.induction with
  | leaf v hp hm =>
    intro w h hw
    cases v with
    | number n => trivial
    | float x => trivial
    | string s =>
      cases w with
      | string t =>
        obtain rfl : s = t := h
        exact hw
      | _ => exact h.elim
    | object ob => trivial
    | pointer vec item => exact absurd rfl (hp vec item)
    | mapping map pairs => exact absurd rfl (hm map pairs)
    | function f => trivial
  | pointer vec item ih =>
    intro w h hw
    cases w with
    | pointer vec' item' =>
      refine all_pointer.2 ⟨trivial, ?_⟩
      have hw' := (all_pointer.1 hw).2
      have hitems : EqualItems item item' := h
      clear h hw
      induction item generalizing item' with
      | nil => exact fun v hv ↦ absurd hv not_mem_nil
      | cons v item ihl =>
        rcases item' with - | ⟨v', item'⟩
        · exact hitems.elim
        · rw [forall_mem_cons] at ih hw' ⊢
          exact ⟨ih.1 hitems.1 hw'.1, ihl ih.2 item' hw'.2 hitems.2⟩
    | _ => exact h.elim
  | mapping map pairs ih =>
    intro w h hw
    cases w with
    | mapping map' pairs' =>
      refine all_mapping.2 ⟨trivial, ?_⟩
      obtain ⟨qs, hperm, hpairs⟩ := h
      have hqs : ∀ q ∈ qs, q.1.NoCr ∧ q.2.NoCr := fun q hq ↦
        (all_mapping.1 hw).2 q (hperm.mem_iff.1 hq)
      clear hperm hw
      induction pairs generalizing qs with
      | nil => exact fun v hv ↦ absurd hv not_mem_nil
      | cons p pairs ihl =>
        rcases qs with - | ⟨q, qs⟩
        · exact hpairs.elim
        · rw [forall_mem_cons] at ih hqs ⊢
          exact ⟨⟨ih.1.1 hpairs.1.1 hqs.1.1, ih.1.2 hpairs.1.2 hqs.1.2⟩,
            ihl ih.2 qs hpairs.2 hqs.2⟩
    | _ => exact h.elim

end Svalue

namespace Object

/-! ### Numbers and strings -/

theorem isNumeric_of_mem_printInt {n : ℤ} {c : UInt8} (hc : c ∈ printInt n) :
    isNumeric c = true := by
  rw [printInt] at hc
  split at hc
  next =>
    rcases mem_cons.1 hc with rfl | hc
    · rfl
    · rw [isNumeric, Decimal.isDigit_of_mem_numeral hc, Bool.true_or]
  next => rw [isNumeric, Decimal.isDigit_of_mem_numeral hc, Bool.true_or]

theorem dropWhile_printInt (n : ℤ) {rest : Bytes}
    (hrest : ∀ c ∈ rest.head?, isNumeric c = false) :
    (printInt n ++ rest).dropWhile isNumeric = rest := by
  rw [dropWhile_append_of_pos fun c hc ↦ isNumeric_of_mem_printInt hc]
  rcases rest with - | ⟨c, rest⟩
  · rfl
  · exact dropWhile_cons_of_neg (Bool.not_eq_true _ ▸ hrest c rfl)

theorem value_takeWhile_numeral (n : ℕ) {rest : Bytes}
    (hrest : ∀ c ∈ rest.head?, isNumeric c = false) :
    Decimal.value ((Decimal.numeral n ++ rest).takeWhile Decimal.isDigit) = n := by
  rw [takeWhile_append_of_pos fun c hc ↦ Decimal.isDigit_of_mem_numeral hc]
  have hnil : rest.takeWhile Decimal.isDigit = [] := by
    rcases rest with - | ⟨c, rest⟩
    · rfl
    · have hc : isNumeric c = false := hrest c rfl
      rw [isNumeric, Bool.or_eq_false_iff] at hc
      exact takeWhile_cons_of_neg (Bool.not_eq_true _ ▸ hc.1)
  rw [hnil, append_nil, Decimal.value_numeral]

/-- **A number is read as it was written.** -/
theorem atoi_printInt (n : BitVec 32) {rest : Bytes}
    (hrest : ∀ c ∈ rest.head?, isNumeric c = false) : atoi (printInt n.toInt ++ rest) = n := by
  have hlt := BitVec.toInt_lt (x := n)
  have hle := BitVec.le_toInt (x := n)
  have hatoi {z : ℤ} (hz : z = n.toInt) :
      BitVec.ofInt 32 (max (-2 ^ 63) (min z (2 ^ 63 - 1))) = n := by
    have hclamp : max (-2 ^ 63) (min z (2 ^ 63 - 1)) = n.toInt := by
      simp only [hz] at *
      omega
    rw [hclamp, BitVec.ofInt_toInt]
  rw [printInt]
  split
  next hneg =>
    refine hatoi ?_
    change (if MINUS = MINUS then _ else _ : ℤ) = _
    have hval := value_takeWhile_numeral n.toInt.natAbs hrest
    rw [if_pos rfl]
    change -(Decimal.value ((Decimal.numeral _ ++ rest).takeWhile _) : ℤ) = _
    rw [hval]
    omega
  next hpos =>
    obtain ⟨c, t, hct⟩ := exists_cons_of_ne_nil (Decimal.numeral_ne_nil n.toInt.natAbs)
    have hval := value_takeWhile_numeral n.toInt.natAbs hrest
    have hc : c ≠ MINUS := by
      rintro rfl
      have hdigit := Decimal.isDigit_of_mem_numeral (hct ▸ mem_cons_self)
      cases hdigit
    rw [hct, cons_append] at hval ⊢
    refine hatoi ?_
    change (if c = MINUS then _ else _ : ℤ) = _
    rw [if_neg hc, hval]
    omega

/-- What becomes of a string that is saved and restored. -/
def crToLf (s : Bytes) : Bytes :=
  s.map fun c ↦ if c = CR then LF else c

/-- **A string is read as it was written**, except for its carriage returns. -/
theorem restoreString_saveString (s rest : Bytes) :
    restoreString false (s.flatMap saveChar ++ QUOTE :: rest) = .ok (crToLf s, rest) := by
  induction s with
  | nil =>
    rw [flatMap_nil, nil_append, restoreString, if_pos rfl]
    rfl
  | cons c s ih =>
    rw [flatMap_cons, append_assoc, saveChar]
    have hescaped {c d : UInt8} (hc : (if d = LETTER_N then LF else d) = c) (hcr : c ≠ CR) :
        restoreString false (BACKSLASH :: d :: (s.flatMap saveChar ++ QUOTE :: rest)) =
          .ok (crToLf (c :: s), rest) := by
      have hcons : crToLf (c :: s) = c :: crToLf s := by
        rw [crToLf, map_cons, if_neg hcr]
        rfl
      rw [restoreString, if_neg (by decide), if_pos rfl, restoreString, ih, hcons, ← hc]
      rfl
    by_cases hq : c = QUOTE
    · subst hq
      rw [if_pos rfl]
      exact hescaped rfl (by decide)
    rw [if_neg hq]
    by_cases hb : c = BACKSLASH
    · subst hb
      rw [if_pos rfl]
      exact hescaped rfl (by decide)
    rw [if_neg hb]
    by_cases hn : c = LF
    · subst hn
      rw [if_pos rfl]
      exact hescaped rfl (by decide)
    · rw [if_neg hn, cons_append, nil_append, restoreString, if_neg hq, if_neg hb, ih]
      rfl

theorem crToLf_eq {s : Bytes} (h : CR ∉ s) : crToLf s = s := by
  refine (map_congr_left fun c hc ↦ ?_).trans (map_id s)
  have hne : c ≠ CR := by
    rintro rfl
    exact h hc
  exact if_neg hne

theorem cr_notMem_crToLf (s : Bytes) : CR ∉ crToLf s := by
  intro h
  obtain ⟨c, -, hc⟩ := mem_map.1 h
  split at hc
  next => cases hc
  next hne => exact hne hc

theorem bytes_ofBytes {s : Bytes} (h : 0 ∉ s) : (CString.ofBytes s).bytes = s := by
  refine takeWhile_eq_self_iff.2 fun c hc ↦ ?_
  rw [bne_iff_ne]
  exact fun heq ↦ h (heq ▸ hc)

theorem ofBytes_bytes (s : CString) : CString.ofBytes s.bytes = s := by
  cases s with
  | mk bytes noNul =>
    have h := bytes_ofBytes noNul
    cases hs : CString.ofBytes bytes
    rw [hs] at h
    cases h
    rfl

/-! ### What restoring gives -/

section RoundTrip

open Svalue

variable {e : Env} {v w : Svalue} {i j i' j' : ℕ}

/-- **A value that has been read, as a key**: it is the number or the string that was written, or
the null vector, or it is at an address from the `i`-th up to the `j`-th that was given out. -/
inductive Renewed (e : Env) (i j : ℕ) : Svalue → Svalue → Prop where
  | number (n : BitVec 32) : Renewed e i j (.number n) (.number n)
  | string (s : CString) : Renewed e i j (.string s) (.string s)
  | null (vec : Addr) : Renewed e i j (.pointer vec []) (.pointer e.nullVector [])
  | pointer (vec : Addr) {item : List Svalue} (item' : List Svalue) {l : ℕ} :
      item ≠ [] → i ≤ l → l < j → Renewed e i j (.pointer vec item) (.pointer (e.alloc l) item')
  | mapping (map : Addr) (pairs pairs' : List (Svalue × Svalue)) {l : ℕ} :
      i ≤ l → l < j → Renewed e i j (.mapping map pairs) (.mapping (e.alloc l) pairs')

theorem Renewed.refl (h : Renewed e i j v w) : equalSvalue e.world w w = true := by
  cases h with
  | _ => exact beq_self_eq_true _

theorem alloc_beq {l l' : ℕ} (h : l ≠ l') : (e.alloc l == e.alloc l') = false :=
  beq_eq_false_iff_ne.2 fun heq ↦ h (e.alloc_injective heq)

/-- **Different keys stay different keys** when they are read, one after the other. -/
theorem Renewed.ne {p q p' q' : Svalue} (hp : Renewed e i j p p') (hq : Renewed e i' j' q q')
    (hj : j ≤ i') (hps : Saveable e p) (hqs : Saveable e q)
    (hne : equalSvalue e.world p q = false) : equalSvalue e.world q' p' = false := by
  cases hp with
  | number m =>
    cases hq with
    | number n => exact beq_eq_false_iff_ne.2 (beq_eq_false_iff_ne.1 hne).symm
    | _ => rfl
  | string s =>
    cases hq with
    | string t => exact beq_eq_false_iff_ne.2 (beq_eq_false_iff_ne.1 hne).symm
    | _ => rfl
  | null vec =>
    cases hq with
    | null vec' =>
      -- There is only one array without elements.
      have hvec := (all_pointer.1 hps).1.2 rfl
      have hvec' := (all_pointer.1 hqs).1.2 rfl
      rw [hvec, hvec'] at hne
      cases (beq_self_eq_true e.nullVector).symm.trans hne
    | pointer vec' item' => exact beq_eq_false_iff_ne.2 (e.alloc_ne _)
    | _ => rfl
  | pointer vec item' _ _ hl =>
    cases hq with
    | null vec' => exact beq_eq_false_iff_ne.2 (e.alloc_ne _).symm
    | pointer vec' item' _ hi' => exact alloc_beq (by omega)
    | _ => rfl
  | mapping map pairs pairs' _ hl =>
    cases hq with
    | mapping map' qs qs' hi' => exact alloc_beq (by omega)
    | _ => rfl

/-! ### What restoring gives -/

/-- What reading the text of `v` gives, with `rest` behind it. -/
def Spec (e : Env) (v : Svalue) (rest : Bytes) (next : ℕ) : Restored Svalue → Prop
  | .ok (w, rest', next') => rest' = rest ∧ next ≤ next' ∧ w.NoCr ∧
      (v.NoCr → v.Small ∧ v.Equal w ∧ Renewed e next next' v w)
  | .error .tooLarge => v.NoCr → ¬v.Small
  | .error _ => False

theorem head_saveOne (hv : Saveable e v) (s : Bytes) :
    (saveOne e v ++ s).head? ≠ some RBRACE ∧ (saveOne e v ++ s).head? ≠ some RBRACKET := by
  have hcons {c : UInt8} {t : Bytes} (h : saveOne e v = c :: t) (h₁ : c ≠ RBRACE)
      (h₂ : c ≠ RBRACKET) :
      (saveOne e v ++ s).head? ≠ some RBRACE ∧ (saveOne e v ++ s).head? ≠ some RBRACKET := by
    rw [h]
    exact ⟨fun heq ↦ h₁ (some.inj heq), fun heq ↦ h₂ (some.inj heq)⟩
  cases v with
  | number n =>
    have hne : printInt n.toInt ≠ [] := by
      rw [printInt]
      split
      next => exact cons_ne_nil _ _
      next => exact Decimal.numeral_ne_nil _
    obtain ⟨c, t, hct⟩ := exists_cons_of_ne_nil hne
    have hc : isNumeric c = true := isNumeric_of_mem_printInt (hct ▸ mem_cons_self)
    refine hcons (by rw [saveOne, hct]) ?_ ?_
    · rintro rfl
      cases hc
    · rintro rfl
      cases hc
  | string s => exact hcons (by rw [saveOne, saveString]; rfl) (by decide) (by decide)
  | pointer vec item => exact hcons (by rw [saveOne]; rfl) (by decide) (by decide)
  | mapping map pairs => exact hcons (by rw [saveOne]; rfl) (by decide) (by decide)
  | _ => exact absurd hv id

/-- Reading the text of `v` gives what it should, if there are rounds enough. -/
def Reads (e : Env) (v : Svalue) : Prop :=
  ∀ {n : ℕ} {rest : Bytes} (next : ℕ), 2 * (saveOne e v).length + 1 ≤ n →
    (∀ c ∈ rest.head?, isNumeric c = false) →
    Spec e v rest next (restoreOne e n (saveOne e v ++ rest) next)

/-- What reading the elements of an array gives, behind those of `tmp`. -/
def ItemsSpec (item tmp : List Svalue) (rest : Bytes) (next : ℕ) :
    Restored (List Svalue) → Prop
  | .ok (ws, rest', next') => rest' = rest ∧ next ≤ next' ∧ ∃ item', ws = tmp ++ item' ∧
      item'.length = item.length ∧ (∀ w ∈ item', w.NoCr) ∧
      ((∀ v ∈ item, v.NoCr) → (∀ v ∈ item, v.Small) ∧ EqualItems item item')
  | .error .tooLarge => (∀ v ∈ item, v.NoCr) → ¬∀ v ∈ item, v.Small
  | .error _ => False

theorem restoreArray_spec (rest : Bytes) (item : List Svalue) : ∀ {n : ℕ} (tmp : List Svalue)
    (next : ℕ), (∀ v ∈ item, Saveable e v) → (∀ v ∈ item, Reads e v) →
    2 * (saveItems e item).length + 2 ≤ n →
    ItemsSpec item tmp rest next
      (restoreArray e n tmp (saveItems e item ++ RBRACE :: RPAREN :: rest) next) := by
  induction item with
  | nil =>
    intro n tmp next _ _ hn
    obtain ⟨n, rfl⟩ := Nat.exists_eq_add_of_le' (Nat.le_trans (Nat.le_add_left 1 1) hn)
    rw [saveItems, nil_append, restoreArray, if_pos List.head?_cons]
    exact ⟨rfl, le_rfl, [], (append_nil tmp).symm, rfl, fun w hw ↦ absurd hw not_mem_nil,
      fun _ ↦ ⟨fun v hv ↦ absurd hv not_mem_nil, trivial⟩⟩
  | cons v item ih =>
    intro n tmp next hsave hreads hn
    rw [forall_mem_cons] at hsave hreads
    rw [saveItems, length_append, length_cons] at hn
    obtain ⟨n, rfl⟩ : ∃ n', n = n' + 1 := ⟨n - 1, by omega⟩
    rw [saveItems, append_assoc, restoreArray, if_neg (head_saveOne hsave.1 _).1]
    rw [cons_append]
    set tail := saveItems e item ++ RBRACE :: RPAREN :: rest
    have hone : Spec e v (COMMA :: tail) next
        (restoreOne e n (saveOne e v ++ COMMA :: tail) next) :=
      hreads.1 next (by omega) fun c hc ↦ some.inj hc ▸ rfl
    cases hr : restoreOne e n (saveOne e v ++ COMMA :: tail) next with
    | error f =>
      rw [hr] at hone
      cases f with
      | tooLarge =>
        exact fun hcr hsmall ↦ hone (hcr v mem_cons_self) (hsmall v mem_cons_self)
      | _ => exact hone
    | ok r =>
      obtain ⟨w, s', next'⟩ := r
      rw [hr] at hone
      obtain ⟨rfl, hle, hwcr, heq⟩ := hone
      have htail := ih (n := n) (tmp ++ [w]) next' hsave.2 hreads.2 (by omega)
      change ItemsSpec (v :: item) tmp rest next (restoreArray e n (tmp ++ [w]) tail next')
      cases hr' : restoreArray e n (tmp ++ [w]) tail next' with
      | error f =>
        rw [hr'] at htail
        cases f with
        | tooLarge =>
          intro hcr hsmall
          rw [forall_mem_cons] at hcr hsmall
          exact htail hcr.2 hsmall.2
        | _ => exact htail
      | ok r =>
        obtain ⟨ws, rest', next''⟩ := r
        rw [hr'] at htail
        obtain ⟨rfl, hle', item', rfl, hlen, hcr, heqs⟩ := htail
        refine ⟨rfl, hle.trans hle', w :: item', append_assoc _ _ _, congrArg (· + 1) hlen,
          forall_mem_cons.2 ⟨hwcr, hcr⟩, fun hcr ↦ ?_⟩
        rw [forall_mem_cons] at hcr
        obtain ⟨hsmall, hequal, -⟩ := heq hcr.1
        obtain ⟨hsmalls, hequals⟩ := heqs hcr.2
        exact ⟨forall_mem_cons.2 ⟨hsmall, hsmalls⟩, hequal, hequals⟩

/-- **A mapping that is being read** has the pairs that have been read so far, in a table that has
been extended whenever it was full. -/
structure Built (e : Env) (done : List (Svalue × Svalue)) (m : Mapping) (next : ℕ) : Prop where
  table : m.Table
  size : m.size ≤ 4096
  fill : m.stored.length ≤ m.mcard
  equal : ∃ qs, qs.Perm (Mapping.entries m.stored) ∧ EqualPairs done qs
  keys : ∀ q ∈ m.stored, ∃ p ∈ done, ∃ i j, j ≤ next ∧ Renewed e i j p.1 q.arg

variable {done : List (Svalue × Svalue)} {m m' : Mapping} {next next' : ℕ} {k k' x x' : Svalue}

theorem built_allocateMap (e : Env) (next : ℕ) : Built e [] (.allocateMap 0) next := by
  have hnil := Mapping.stored_allocateMap 0
  refine ⟨Mapping.allocateMap_table 0, by decide, ?_, ⟨[], ?_, trivial⟩, fun q hq ↦ ?_⟩
  · rw [hnil]
    exact Nat.zero_le _
  · rw [hnil]
    exact .refl _
  · rw [hnil] at hq
    exact absurd hq not_mem_nil

theorem Built.length_eq (h : Built e done m next) : m.stored.length = done.length := by
  obtain ⟨qs, hperm, hpairs⟩ := h.equal
  rw [hpairs.length_eq, hperm.length_eq, Mapping.entries, length_map]

theorem Built.length_le (h : Built e done m next) : done.length ≤ 10240 := by
  have hfill := h.fill
  have hsize := h.size
  rw [h.length_eq, h.table.mcard, fsize] at hfill
  simp only [FILL_FACTOR] at hfill
  omega

theorem Built.getMapLvalue (h : Built e done m next) (hk : Renewed e next next' k k')
    (hdone : ∀ p ∈ done, Saveable e p.1 ∧ equalSvalue e.world p.1 k = false) (hsave : Saveable e k)
    (f : Svalue → Svalue) :
    (∃ m', m.getMapLvalue e.world k' f = .error m' ∧ done.length = 10240) ∨
      ∃ m', m.getMapLvalue e.world k' f = .ok m' ∧ m.Added k' (f const0) m' := by
  have hne : ∀ q ∈ m.stored, equalSvalue e.world k' q.arg = false := fun q hq ↦ by
    obtain ⟨p, hp, i, j, hj, hren⟩ := h.keys q hq
    exact hren.ne hk hj (hdone p hp).1 hsave (hdone p hp).2
  have hnew : k' ∉ m.keys := fun hmem ↦ by
    obtain ⟨q, hq, rfl⟩ := mem_map.1 hmem
    have heq := hk.refl
    rw [hne q hq] at heq
    cases heq
  have hfind : Mapping.findPair e.world (hashsvalue k') k' f
      (m.pairs (slot m.size (hashsvalue k'))) = none :=
    Mapping.findPair_eq_none fun q hq ↦
      hne q (Buckets.mem_elems.2 ⟨_, Mapping.slot_lt h.table.size_pos (hashsvalue k'), hq⟩)
  refine (h.table.getMapLvalue_new hnew hfind).imp_left ?_
  rintro ⟨m', herr, -, -, -, hlarge, hover⟩
  refine ⟨m', herr, ?_⟩
  have hfill := h.fill
  have hsize := h.size
  have hmcard := h.table.mcard
  obtain ⟨k, -, hpow⟩ := h.table.size
  have hk₁ : 11 < k := (Nat.pow_lt_pow_iff_right (a := 2) (by decide)).1 (hpow ▸ hlarge)
  have hk₂ : k ≤ 12 := (Nat.pow_le_pow_iff_right (a := 2) (by decide)).1 (hpow ▸ hsize)
  obtain rfl : k = 12 := le_antisymm hk₂ hk₁
  rw [hpow, fsize] at hmcard
  simp only [FILL_FACTOR] at hmcard
  rw [Mapping.short_eq (by omega)] at hover
  have := h.length_eq
  omega

theorem Built.added (h : Built e done m next) (hadd : m.Added k' x' m')
    (hk : Renewed e next next' k k') (hkk : k.Equal k') (hxx : x.Equal x') {next'' : ℕ}
    (hle : next ≤ next') (hle' : next' ≤ next'') : Built e (done ++ [(k, x)]) m' next'' := by
  have hlen : m'.stored.length = m.stored.length + 1 := hadd.stored.length_eq
  have hfill := h.fill
  have hmcard := h.table.mcard
  have hmcard' := hadd.table.mcard
  have hlt := Mapping.fsize_lt h.table.size_pos
  refine ⟨hadd.table, ?_, ?_, ?_, fun q hq ↦ ?_⟩
  · rcases hadd.size with ⟨-, hsize⟩ | ⟨-, hsmall, hsize⟩
    · exact hsize.trans_le h.size
    · omega
  · rcases hadd.size with ⟨hroom, hsize⟩ | ⟨-, hsmall, hsize⟩
    · have := h.table.mcard_le
      rw [Mapping.short_eq (by omega)] at hroom
      rw [hsize] at hmcard'
      omega
    · rw [hsize] at hmcard'
      omega
  · obtain ⟨qs, hperm, hpairs⟩ := h.equal
    refine ⟨qs ++ [(k', x')], ?_, hpairs.append hkk hxx⟩
    exact (perm_append_singleton _ _).trans
      ((hperm.cons _).trans (hadd.stored.map fun p : Apair ↦ (p.arg, p.val)).symm)
  · rcases mem_cons.1 (hadd.stored.mem_iff.1 hq) with rfl | hq
    · exact ⟨(k, x), mem_append_right _ (mem_singleton_self _), next, next', hle', hk⟩
    · obtain ⟨p, hp, i, j, hj, hren⟩ := h.keys q hq
      exact ⟨p, mem_append_left _ hp, i, j, hj.trans (hle.trans hle'), hren⟩

/-- What reading the pairs `ps` gives, when those of `done` have been read into `m`. -/
def PairsSpec (e : Env) (done ps : List (Svalue × Svalue)) (m : Mapping) (rest : Bytes)
    (next : ℕ) : Restored Mapping → Prop
  | .ok (m', rest', next') => rest' = rest ∧ next ≤ next' ∧
      (∀ q ∈ m'.stored, q.arg.NoCr ∧ q.val.NoCr) ∧
      ((∀ p ∈ ps, p.1.NoCr ∧ p.2.NoCr) → Built e done m next →
        (∀ p ∈ ps, p.1.Small ∧ p.2.Small) ∧ Built e (done ++ ps) m' next')
  | .error .tooLarge => (∀ p ∈ ps, p.1.NoCr ∧ p.2.NoCr) → Built e done m next →
      ¬((∀ p ∈ ps, p.1.Small ∧ p.2.Small) ∧ (done ++ ps).length ≤ 10240)
  | .error _ => False

theorem restoreMapping_spec (rest : Bytes) (ps : List (Svalue × Svalue)) :
    ∀ {n : ℕ} (done : List (Svalue × Svalue)) (m : Mapping) (next : ℕ),
    (∀ p ∈ done ++ ps, Saveable e p.1) → (∀ p ∈ ps, Saveable e p.2) →
    (done ++ ps).Pairwise (fun p q ↦ equalSvalue e.world p.1 q.1 = false) →
    (∀ p ∈ ps, Reads e p.1 ∧ Reads e p.2) → (∀ q ∈ m.stored, q.arg.NoCr ∧ q.val.NoCr) →
    2 * (savePairs e ps).length + 2 ≤ n →
    PairsSpec e done ps m rest next
      (restoreMapping e n m (savePairs e ps ++ RBRACKET :: RPAREN :: rest) next) := by
  induction ps with
  | nil =>
    intro n done m next _ _ _ _ hm hn
    obtain ⟨n, rfl⟩ : ∃ n', n = n' + 1 := ⟨n - 1, by omega⟩
    rw [savePairs, nil_append, restoreMapping, if_pos List.head?_cons]
    refine ⟨rfl, le_rfl, hm, fun _ hbuilt ↦ ⟨fun p hp ↦ absurd hp not_mem_nil, ?_⟩⟩
    rwa [append_nil]
  | cons p ps ih =>
    obtain ⟨k, x⟩ := p
    intro n done m next hkeys hvals hdist hreads hm hn
    obtain ⟨⟨hreadk, hreadx⟩, hreads⟩ := forall_mem_cons.1 hreads
    change Reads e k at hreadk
    change Reads e x at hreadx
    have hk : Saveable e k := hkeys (k, x) (mem_append_right _ mem_cons_self)
    have hmiddle : done ++ [(k, x)] ++ ps = done ++ (k, x) :: ps := by
      rw [append_assoc]
      rfl
    rw [savePairs, length_append, length_cons, length_append, length_cons] at hn
    obtain ⟨n, rfl⟩ : ∃ n', n = n' + 1 := ⟨n - 1, by omega⟩
    rw [savePairs, append_assoc, restoreMapping, if_neg (head_saveOne hk _).2,
      cons_append,
      append_assoc, cons_append]
    set tail := savePairs e ps ++ RBRACKET :: RPAREN :: rest
    have hone : Spec e k (COLON :: (saveOne e x ++ COMMA :: tail)) next
        (restoreOne e n (saveOne e k ++ COLON :: (saveOne e x ++ COMMA :: tail)) next) :=
      hreadk next (by omega) fun c hc ↦ some.inj hc ▸ rfl
    cases hr : restoreOne e n (saveOne e k ++ COLON :: (saveOne e x ++ COMMA :: tail)) next with
    | error f =>
      rw [hr] at hone
      cases f with
      | tooLarge =>
        exact fun hcr _ hsmall ↦
          hone (hcr _ mem_cons_self).1 (hsmall.1 _ mem_cons_self).1
      | _ => exact hone
    | ok r =>
      obtain ⟨k', s', next'⟩ := r
      rw [hr] at hone
      obtain ⟨rfl, hle, hkcr, hkeq⟩ := hone
      have hdone : ∀ p ∈ done, Saveable e p.1 ∧ equalSvalue e.world p.1 k = false := fun p hp ↦
        ⟨hkeys p (mem_append_left _ hp),
          (pairwise_append.1 hdist).2.2 p hp (k, x) mem_cons_self⟩
      -- The key is put into the mapping, or there is no room for it.
      have hfull {f : Svalue → Svalue} {m' : Mapping}
          (herr : m.getMapLvalue e.world k' f = .error m') (hcr : k.NoCr)
          (hbuilt : Built e done m next) : done.length = 10240 := by
        rcases hbuilt.getMapLvalue (hkeq hcr).2.2 hdone hk f with ⟨-, -, hlen⟩ | ⟨m'', hok, -⟩
        · exact hlen
        · rw [herr] at hok
          cases hok
      have htoo {f : Svalue → Svalue} {m' : Mapping}
          (herr : m.getMapLvalue e.world k' f = .error m') :
          PairsSpec e done ((k, x) :: ps) m rest next (.error .tooLarge) := by
        intro hcr hbuilt hsmall
        have hlen := hfull herr (hcr _ mem_cons_self).1 hbuilt
        have := hsmall.2
        rw [length_append, length_cons] at this
        omega
      dsimp only [Except.bind]
      rw [if_pos rfl]
      cases hid : m.getMapLvalue e.world k' id with
      | error m₀ => exact htoo hid
      | ok m₀ =>
        have htwo : Spec e x (COMMA :: tail) next'
            (restoreOne e n (saveOne e x ++ COMMA :: tail) next') :=
          hreadx next' (by omega) fun c hc ↦ some.inj hc ▸ rfl
        cases hr' : restoreOne e n (saveOne e x ++ COMMA :: tail) next' with
        | error f =>
          rw [hr'] at htwo
          cases f with
          | tooLarge =>
            exact fun hcr _ hsmall ↦
              htwo (hcr _ mem_cons_self).2 (hsmall.1 _ mem_cons_self).2
          | _ => exact htwo
        | ok r =>
          obtain ⟨x', t, next''⟩ := r
          rw [hr'] at htwo
          obtain ⟨rfl, hle', hxcr, hxeq⟩ := htwo
          dsimp only
          rw [if_pos rfl, ← Mapping.assign]
          cases hassign : m.assign e.world k' x' with
          | error m' => exact htoo hassign
          | ok m' =>
            have hm' : ∀ q ∈ m'.stored, q.arg.NoCr ∧ q.val.NoCr := fun q hq ↦ by
              obtain ⟨harg, hval⟩ := Mapping.mem_assign hassign hq
              refine ⟨?_, ?_⟩
              · rcases harg with heq | ⟨p, hp, heq⟩
                · rwa [heq]
                · exact heq ▸ (hm p hp).1
              · rcases hval with heq | ⟨p, hp, heq⟩
                · rwa [heq]
                · exact heq ▸ (hm p hp).2
            have hbuilt' (hkc : k.NoCr) (hxc : x.NoCr) (hbuilt : Built e done m next) :
                Built e (done ++ [(k, x)]) m' next'' := by
              obtain ⟨-, hkk, hren⟩ := hkeq hkc
              obtain ⟨-, hxx, -⟩ := hxeq hxc
              rcases hbuilt.getMapLvalue hren hdone hk fun _ ↦ x' with
                ⟨m'', herr, -⟩ | ⟨m'', hok, hadd⟩
              · rw [← Mapping.assign, hassign] at herr
                cases herr
              · rw [← Mapping.assign, hassign] at hok
                cases hok
                exact hbuilt.added hadd hren hkk hxx hle hle'
            have htail := ih (n := n) (done ++ [(k, x)]) m' next'' (hmiddle ▸ hkeys)
              (forall_mem_cons.1 hvals).2 (hmiddle ▸ hdist) hreads hm' (by omega)
            change PairsSpec e done ((k, x) :: ps) m rest next (restoreMapping e n m' tail next'')
            cases hr'' : restoreMapping e n m' tail next'' with
            | error f =>
              rw [hr''] at htail
              cases f with
              | tooLarge =>
                intro hcr hbuilt hsmall
                obtain ⟨⟨hkc, hxc⟩, hcr⟩ := forall_mem_cons.1 hcr
                exact htail hcr (hbuilt' hkc hxc hbuilt)
                  ⟨(forall_mem_cons.1 hsmall.1).2, hmiddle ▸ hsmall.2⟩
              | _ => exact htail
            | ok r =>
              obtain ⟨m'', rest', last⟩ := r
              rw [hr''] at htail
              obtain ⟨rfl, hle'', hstored, hclean⟩ := htail
              refine ⟨rfl, hle.trans (hle'.trans hle''), hstored, fun hcr hbuilt ↦ ?_⟩
              obtain ⟨⟨hkc, hxc⟩, hcr⟩ := forall_mem_cons.1 hcr
              obtain ⟨hsmall, hlast⟩ := hclean hcr (hbuilt' hkc hxc hbuilt)
              exact ⟨forall_mem_cons.2 ⟨⟨(hkeq hkc).1, (hxeq hxc).1⟩, hsmall⟩,
                hmiddle ▸ hlast⟩

theorem reads_number (n : BitVec 32) : Reads e (.number n) := by
  intro r rest next hr hrest
  obtain ⟨r, rfl⟩ : ∃ r', r = r' + 1 := ⟨r - 1, by omega⟩
  have hne : printInt n.toInt ≠ [] := by
    rw [printInt]
    split
    next => exact cons_ne_nil _ _
    next => exact Decimal.numeral_ne_nil _
  obtain ⟨c, t, hct⟩ := exists_cons_of_ne_nil hne
  have hc : isNumeric c = true := isNumeric_of_mem_printInt (hct ▸ mem_cons_self)
  have hother {d : UInt8} (hd : isNumeric d = false) : c ≠ d := by
    rintro rfl
    rw [hc] at hd
    cases hd
  have hdrop := dropWhile_printInt n.toInt hrest
  have hatoi := atoi_printInt n hrest
  rw [hct, cons_append] at hdrop hatoi
  rw [saveOne, hct, cons_append, restoreOne, if_neg (hother rfl), if_neg (hother rfl),
    if_neg (hother rfl), if_neg (hother rfl), if_pos hc, hdrop, hatoi]
  exact ⟨rfl, le_rfl, trivial, fun _ ↦ ⟨trivial, rfl, .number n⟩⟩

theorem reads_string (s : CString) : Reads e (.string s) := by
  intro r rest next hr _
  obtain ⟨r, rfl⟩ : ∃ r', r = r' + 1 := ⟨r - 1, by omega⟩
  rw [saveOne, saveString, cons_append, cons_append, append_assoc, cons_append,
    nil_append, restoreOne, if_neg (by decide), if_pos rfl, restoreString_saveString]
  have hnul : 0 ∉ crToLf s.bytes := fun h ↦ by
    obtain ⟨c, hc, hc0⟩ := mem_map.1 h
    split at hc0
    next => cases hc0
    next => exact s.noNul (hc0 ▸ hc)
  refine ⟨rfl, le_rfl, ?_, fun hcr ↦ ⟨trivial, ?_⟩⟩
  · change CR ∉ (CString.ofBytes (crToLf s.bytes)).bytes
    rw [bytes_ofBytes hnul]
    exact cr_notMem_crToLf s.bytes
  · rw [crToLf_eq hcr, ofBytes_bytes]
    exact ⟨rfl, .string s⟩

/-- **Every value that can be saved is read as it should be.** -/
theorem reads (v : Svalue) : Saveable e v → Reads e v := by
  induction v using Svalue.induction with
  | leaf v hp hm =>
    intro hv
    cases v with
    | number n => exact reads_number n
    | string s => exact reads_string s
    | pointer vec item => exact absurd rfl (hp vec item)
    | mapping map pairs => exact absurd rfl (hm map pairs)
    | _ => exact absurd hv id
  | pointer vec item ih =>
    intro hv r rest next hr _
    obtain ⟨⟨hlen, hnull⟩, hitem⟩ := all_pointer.1 hv
    rw [saveOne, cons_append, cons_append, length_cons, length_cons,
      length_append] at hr
    obtain ⟨r, rfl⟩ : ∃ r', r = r' + 1 := ⟨r - 1, by omega⟩
    rw [saveOne, cons_append, cons_append, cons_append, cons_append,
      append_assoc, restoreOne, if_pos rfl, if_neg (by rintro ⟨⟩), if_pos List.head?_cons]
    have hitems := restoreArray_spec rest item [] next hitem
      (fun v hv ↦ ih v hv (hitem v hv)) (show 2 * (saveItems e item).length + 2 ≤ r by omega)
    change Spec e (.pointer vec item) rest next
      ((restoreArray e r [] (saveItems e item ++ RBRACE :: RPAREN :: rest) next).bind _)
    cases hres : restoreArray e r [] (saveItems e item ++ RBRACE :: RPAREN :: rest) next with
    | error f =>
      rw [hres] at hitems
      cases f with
      | tooLarge => exact fun hcr hsmall ↦ hitems (all_pointer.1 hcr).2 (all_pointer.1 hsmall).2
      | _ => exact hitems
    | ok t =>
      obtain ⟨ws, rest', next'⟩ := t
      rw [hres] at hitems
      obtain ⟨rfl, hle, item', hws, hlen', hcr, hclean⟩ := hitems
      rw [nil_append] at hws
      subst hws
      change Spec e (.pointer vec item) rest' next (allocateArray e ws rest' next')
      have hwcr (a : Addr) : (pointer a ws).NoCr := all_pointer.2 ⟨trivial, hcr⟩
      rw [allocateArray, if_neg (by omega)]
      by_cases hnil : ws = []
      · rw [if_pos hnil]
        subst hnil
        obtain rfl : item = [] := length_eq_zero_iff.1 hlen'.symm
        exact ⟨rfl, hle, hwcr _, fun hcr ↦
          ⟨all_pointer.2 ⟨trivial, (hclean (all_pointer.1 hcr).2).1⟩,
          trivial, .null vec⟩⟩
      · rw [if_neg hnil]
        have hne : item ≠ [] := by
          rintro rfl
          exact hnil (length_eq_zero_iff.1 hlen')
        refine ⟨rfl, hle.trans (Nat.le_succ _), hwcr _, fun hcr ↦ ?_⟩
        obtain ⟨hsmall, hequal⟩ := hclean (all_pointer.1 hcr).2
        exact ⟨all_pointer.2 ⟨trivial, hsmall⟩, hequal,
          .pointer vec ws hne hle (Nat.lt_succ_self _)⟩
  | mapping map pairs ih =>
    intro hv r rest next hr _
    obtain ⟨hdist, hpairs⟩ := all_mapping.1 hv
    rw [saveOne, cons_append, cons_append, length_cons, length_cons,
      length_append] at hr
    obtain ⟨r, rfl⟩ : ∃ r', r = r' + 1 := ⟨r - 1, by omega⟩
    rw [saveOne, cons_append, cons_append, cons_append, cons_append,
      append_assoc, restoreOne, if_pos rfl, if_pos List.head?_cons]
    have hread := restoreMapping_spec rest pairs [] (.allocateMap 0) (next + 1)
      (fun p hp ↦ (hpairs p hp).1) (fun p hp ↦ (hpairs p hp).2) hdist
      (fun p hp ↦ ⟨(ih p hp).1 (hpairs p hp).1, (ih p hp).2 (hpairs p hp).2⟩)
      (by rw [Mapping.stored_allocateMap]; exact fun q hq ↦ absurd hq not_mem_nil)
      (show 2 * (savePairs e pairs).length + 2 ≤ r by omega)
    change Spec e (.mapping map pairs) rest next ((restoreMapping e r (.allocateMap 0)
      (savePairs e pairs ++ RBRACKET :: RPAREN :: rest) (next + 1)).map _)
    cases hres : restoreMapping e r (.allocateMap 0)
        (savePairs e pairs ++ RBRACKET :: RPAREN :: rest) (next + 1) with
    | error f =>
      rw [hres] at hread
      cases f with
      | tooLarge =>
        intro hcr hsmall
        obtain ⟨hlen, hsmall⟩ := all_mapping.1 hsmall
        exact hread (all_mapping.1 hcr).2 (built_allocateMap e _) ⟨hsmall, hlen⟩
      | _ => exact hread
    | ok t =>
      obtain ⟨m, rest', next'⟩ := t
      rw [hres] at hread
      obtain ⟨rfl, hle, hstored, hclean⟩ := hread
      refine ⟨rfl, by omega, all_mapping.2 ⟨trivial, fun p hp ↦ ?_⟩, fun hcr ↦ ?_⟩
      · obtain ⟨q, hq, rfl⟩ := mem_map.1 hp
        exact hstored q hq
      · obtain ⟨hsmall, hbuilt⟩ := hclean (all_mapping.1 hcr).2 (built_allocateMap e _)
        exact ⟨all_mapping.2 ⟨hbuilt.length_le, hsmall⟩, hbuilt.equal,
          .mapping map pairs _ le_rfl hle⟩

/-- **Restoring undoes saving** exactly for the values without carriage returns and without mappings
of more than 10240 pairs: reading the text of the value gives one of the same structure, and stops
at the end of that text, whatever is behind it that is not part of a number. -/
theorem restore_save_iff (hv : Saveable e v) {rest : Bytes}
    (hrest : ∀ c ∈ rest.head?, isNumeric c = false) (next : ℕ) :
    (∃ w next', restore e (saveOne e v ++ rest) next = .ok (w, rest, next') ∧ v.Equal w) ↔
      v.NoCr ∧ v.Small := by
  have hreads : Spec e v rest next (restore e (saveOne e v ++ rest) next) :=
    reads v hv next (by rw [length_append]; omega) hrest
  cases hr : restore e (saveOne e v ++ rest) next with
  | error f =>
    rw [hr] at hreads
    cases f with
    | tooLarge =>
      exact ⟨fun ⟨_, _, h, _⟩ ↦ (nomatch h), fun ⟨hcr, hsmall⟩ ↦ (hreads hcr hsmall).elim⟩
    | _ => exact hreads.elim
  | ok r =>
    obtain ⟨w, rest', next'⟩ := r
    rw [hr] at hreads
    obtain ⟨rfl, -, hwcr, hclean⟩ := hreads
    constructor
    · rintro ⟨w', next'', hok, hequal⟩
      cases hok
      have hcr := hequal.noCr hwcr
      exact ⟨hcr, (hclean hcr).1⟩
    · rintro ⟨hcr, -⟩
      exact ⟨w, next', rfl, (hclean hcr).2.1⟩

/-- A world without objects. -/
def bare : Env where
  world := ⟨fun _ ↦ false, fun _ ↦ true⟩
  created _ := 0
  name _ := .ofBytes []
  findObject _ := none
  printFloat _ := []
  scanFloat _ := none
  scanObject _ := none
  nullVector := 0
  alloc i := i + 1
  alloc_injective _ _ h := Nat.succ.inj h
  alloc_ne i := Nat.succ_ne_zero i

/-- An array with the string `"` and a mapping. -/
def quoteAndMapping : Svalue :=
  .pointer 1
    [.string ⟨[QUOTE], by decide⟩, .mapping 2 [(.number 1, .number 5), (.number 2, const0)]]

/-- It is restored, as an element of another array. -/
theorem restore_save_nested : ∃ w next', restore bare (saveOne bare quoteAndMapping ++ [COMMA]) 0 =
    .ok (w, [COMMA], next') ∧ quoteAndMapping.Equal w := by
  have hv : Saveable bare quoteAndMapping := by
    refine ⟨⟨by decide, nofun⟩, trivial,
      ⟨?_, ⟨trivial, trivial⟩, ⟨trivial, trivial⟩, trivial⟩, trivial⟩
    exact .cons (forall_mem_singleton.2 rfl) (pairwise_singleton _ _)
  have hcr : CR ∉ [QUOTE] := by decide
  have hsmall :
      [((.number 1, .number 5) : Svalue × Svalue), (.number 2, const0)].length ≤ 10240 := by
    decide
  exact (restore_save_iff hv (by rintro c ⟨⟩; rfl) 0).2
    ⟨⟨trivial, hcr, ⟨trivial, ⟨trivial, trivial⟩, ⟨trivial, trivial⟩, trivial⟩, trivial⟩,
      trivial, trivial, ⟨hsmall, ⟨trivial, trivial⟩, ⟨trivial, trivial⟩, trivial⟩, trivial⟩

/-- **A carriage return is not restored**: it comes back as a newline. -/
theorem not_restore_save : ¬∀ v, Saveable bare v →
    ∃ w next', restore bare (saveOne bare v) 0 = .ok (w, [], next') ∧ v.Equal w := by
  intro hall
  obtain ⟨w, next', hok, hequal⟩ := hall (.string ⟨[CR], by decide⟩) trivial
  have hlf : restore bare (saveOne bare (.string ⟨[CR], by decide⟩)) 0 =
      .ok (.string ⟨[LF], by decide⟩, [], 0) := rfl
  rw [hlf] at hok
  cases hok
  have hbytes : [CR] = [LF] := congrArg CString.bytes hequal
  exact absurd hbytes (by decide)

end RoundTrip

end Object

end Lpmud
