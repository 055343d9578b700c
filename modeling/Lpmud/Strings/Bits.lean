import Lpmud.Svalue
import Mathlib.Data.BitVec

/-!
# Bit strings

Six bits to a character, from a blank on: `set_bit`, `clear_bit` and `test_bit` of `interpret.c`.
A string grows when a bit behind its end is set, and bits behind the end are not set.

The three functions do not treat their index alike. The first two refuse an index above `MAX_BITS`,
so that `MAX_BITS` itself is accepted, and none of them asks whether an index is negative: the
quotient by 6 is compared with the length as an unsigned number in `set_bit` and `clear_bit` and as
a signed one in `test_bit`, and the remainder is then the width of a shift. What reads or writes
outside a string, or shifts by a negative width, is a `fault` here.

On the indices that are left the strings are sets (`behaves_iff`).
-/

namespace Lpmud.Bits

open List

abbrev MAX_BITS : ℤ := 4002

/-- How an efun ends. -/
inductive Outcome (α : Type) where
  | value (a : α)
  | error (text : String)
  | fault
  deriving DecidableEq

/-- A number in the text of an error. -/
def tooBig (efun : String) (n : ℤ) : String :=
  efun ++ ": too big bit number: " ++ toString n ++ "\n"

/-- The other error. -/
def illegal (efun : String) (ind : ℤ) : String :=
  "Illegal bit pattern in " ++ efun ++ " character " ++ toString ind ++ "\n"

/-- A character that stands for six bits: not above `0x3f + ' '`, and not below `' '`. -/
def Legal (b : UInt8) : Prop :=
  0x20 ≤ b ∧ b ≤ 0x5f

instance (b : UInt8) : Decidable (Legal b) :=
  inferInstanceAs (Decidable (_ ∧ _))

/-- `1 << n % 6`, which is not defined for a negative remainder. -/
def mask (n : ℤ) : Option UInt8 :=
  if n.tmod 6 < 0 then none else some (1 <<< UInt8.ofNat (n.tmod 6).toNat)

/-- Change the bits of the character `ind` of the buffer `str`, the end of `set_bit` and
`clear_bit`. -/
def change (efun : String) (f : UInt8 → UInt8 → UInt8) (str : Bytes) (ind : ℕ) (n : ℤ) :
    Outcome CString :=
  match str[ind]?, mask n with
  | some b, bit =>
    if ¬Legal b then .error (illegal efun ind)
    else
      match bit with
      | none => .fault
      | some m => .value (CString.ofBytes (str.set ind (f (b - 0x20) m + 0x20)))
  | none, _ => .fault

/-- `f_set_bit`. For a negative `ind` the comparison with `len` is true, `ind + 1` is a `len` of 0
or of nearly all addresses, and the character `ind` is outside of what is allocated. -/
def setBit (s : CString) (number : BitVec 32) : Outcome CString :=
  let n := number.toInt
  if n > MAX_BITS then .error (tooBig "set_bit" n)
  else
    let ind := n.tdiv 6
    if ind < 0 then .fault
    else
      let len := if s.bytes.length ≤ ind.toNat then ind.toNat + 1 else s.bytes.length
      let str := s.bytes ++ List.replicate (len - s.bytes.length) 0x20
      change "set_bit" (· ||| ·) str ind.toNat n

/-- `f_clear_bit`, which returns its argument where `ind` is not less than the length, as an
unsigned number. -/
def clearBit (s : CString) (number : BitVec 32) : Outcome CString :=
  let n := number.toInt
  if n > MAX_BITS then .error (tooBig "clear_bit" n)
  else
    let ind := n.tdiv 6
    if ind < 0 ∨ s.bytes.length ≤ ind.toNat then .value s
    else change "clear_bit" (fun b m ↦ b &&& ~~~m) s.bytes ind.toNat n

/-- `f_test_bit`, which compares signed numbers. -/
def testBit (s : CString) (number : BitVec 32) : Outcome Bool :=
  let n := number.toInt
  let ind := n.tdiv 6
  if ind ≥ s.bytes.length then .value false
  else if ind < 0 then .fault
  else
    match s.bytes[ind.toNat]?, mask n with
    | some b, some m => .value ((b - 0x20) &&& m != 0)
    | _, _ => .fault

/-- The strings that the bit operations produce. -/
inductive Produced : CString → Prop where
  | empty : Produced (CString.ofBytes [])
  | setBit {s t : CString} (i : BitVec 32) : Produced s → setBit s i = .value t → Produced t
  | clearBit {s t : CString} (i : BitVec 32) : Produced s → clearBit s i = .value t → Produced t

/-- An index that a bit can have. -/
def InRange (i : BitVec 32) : Prop :=
  0 ≤ i.toInt ∧ i.toInt < MAX_BITS

/-- **A bit string is a set**: what a test finds after a bit has been set or cleared, that other
indices are refused, and that nothing outside the strings is looked at. -/
structure Behaves (s : CString) (i j : BitVec 32) : Prop where
  set : ∀ t b, setBit s i = .value t → testBit s j = .value b →
    testBit t j = .value (decide (i = j) || b)
  clear : ∀ t b, clearBit s i = .value t → testBit s j = .value b →
    testBit t j = .value (decide (i ≠ j) && b)
  rejects : ¬InRange i → (∃ text, setBit s i = .error text) ∧ ∃ text, clearBit s i = .error text
  rejectsTest : ¬InRange j → ∃ text, testBit s j = .error text
  inside : setBit s i ≠ .fault ∧ clearBit s i ≠ .fault ∧ testBit s j ≠ .fault

/-! ### One character -/

/-- Bit `j` of six. -/
def bit (x : UInt8) (j : ℕ) : Bool :=
  x &&& 1 <<< UInt8.ofNat j != 0

/-- What `f` does to bit `i` of a character of a string, `g` does to a bit that is asked for, told
whether it is bit `i`. -/
structure Acts (f : UInt8 → UInt8 → UInt8) (g : Bool → Bool → Bool) : Prop where
  lt : ∀ x < 64, ∀ i < 6, (f (.ofNat x) (1 <<< UInt8.ofNat i)).toNat < 64
  bit : ∀ x < 64, ∀ i < 6, ∀ j < 6,
    bit (f (.ofNat x) (1 <<< UInt8.ofNat i)) j = g (decide (i = j)) (bit (.ofNat x) j)
  other : ∀ b, g false b = b

theorem acts_or : Acts (· ||| ·) (· || ·) :=
  ⟨by decide, by decide, by decide⟩

theorem acts_andNot : Acts (fun b m ↦ b &&& ~~~m) fun e b ↦ !e && b :=
  ⟨by decide, by decide, by decide⟩

theorem legal_iff {b : UInt8} : Legal b ↔ (b - 0x20).toNat < 64 := by
  have := b.toNat_lt
  rw [Legal, UInt8.le_iff_toNat_le, UInt8.le_iff_toNat_le, UInt8.toNat_sub]
  simp only [UInt8.reduceToNat]
  omega

theorem legal_add {x : UInt8} (hx : x.toNat < 64) : Legal (x + 0x20) := by
  rwa [legal_iff, UInt8.add_sub_cancel]

theorem mask_natCast (k : ℕ) : mask k = some (1 <<< UInt8.ofNat (k % 6)) := by
  have hmod : (k : ℤ).tmod 6 = (k % 6 : ℕ) := (Int.ofNat_tmod k 6).symm
  rw [mask, hmod, if_neg (by omega), Int.toNat_natCast]

/-! ### Strings of six bits a character -/

/-- All characters stand for bits. -/
def AllLegal (l : Bytes) : Prop :=
  ∀ b ∈ l, Legal b

/-- Bit `k` of a string; behind the end there are none. -/
def bitAt (l : Bytes) (k : ℕ) : Bool :=
  (l[k / 6]?).any fun b ↦ bit (b - 0x20) (k % 6)

theorem AllLegal.bytes_ofBytes {l : Bytes} (h : AllLegal l) :
    (CString.ofBytes l).bytes = l := by
  refine takeWhile_eq_self_iff.2 fun b hb ↦ ?_
  have := (h b hb).1
  rw [bne_iff_ne]
  rintro rfl
  exact absurd this (by decide)

variable {f : UInt8 → UInt8 → UInt8} {g : Bool → Bool → Bool} {efun : String} {str : Bytes}

theorem change_spec (hf : Acts f g) (hstr : AllLegal str) {k : ℕ} (hk : k / 6 < str.length) :
    ∃ t, change efun f str (k / 6) k = .value t ∧ AllLegal t.bytes ∧
      ∀ j, bitAt t.bytes j = g (decide (k = j)) (bitAt str j) := by
  have hlegal : Legal str[k / 6] := hstr _ (getElem_mem hk)
  have hlt := legal_iff.1 hlegal
  have hx : UInt8.ofNat (str[k / 6] - 0x20).toNat = str[k / 6] - 0x20 := UInt8.ofNat_toNat
  have hnew := legal_add (hx ▸ hf.lt _ hlt (k % 6) (Nat.mod_lt _ (by decide)))
  have hset : AllLegal (str.set (k / 6)
      (f (str[k / 6] - 0x20) (1 <<< UInt8.ofNat (k % 6)) + 0x20)) :=
    fun b hb ↦ (mem_or_eq_of_mem_set hb).elim (hstr b) (fun heq ↦ heq ▸ hnew)
  refine ⟨CString.ofBytes (str.set (k / 6) _), ?_, hset.bytes_ofBytes.symm ▸ hset, fun j ↦ ?_⟩
  · rw [change, List.getElem?_eq_getElem hk, mask_natCast]
    exact if_neg (not_not.2 hlegal)
  rw [hset.bytes_ofBytes, bitAt, bitAt]
  by_cases hj : j / 6 = k / 6
  · have hbit := hf.bit _ hlt (k % 6) (Nat.mod_lt _ (by decide)) (j % 6) (Nat.mod_lt _ (by decide))
    rw [hx] at hbit
    rw [hj, List.getElem?_set_self hk, List.getElem?_eq_getElem hk, Option.any_some,
      Option.any_some,
      UInt8.add_sub_cancel, hbit]
    congr 1
    rw [decide_eq_decide]
    omega
  · have hne : k ≠ j := fun h ↦ hj (congrArg (· / 6) h.symm)
    rw [List.getElem?_set_ne (Ne.symm hj), decide_eq_false hne, hf.other]

theorem bitAt_append_blanks (l : Bytes) (n k : ℕ) :
    bitAt (l ++ List.replicate n 0x20) k = bitAt l k := by
  have hblank : ∀ j < 6, bit (0x20 - 0x20) j = false := by decide
  rw [bitAt, bitAt]
  rcases Nat.lt_or_ge (k / 6) l.length with hk | hk
  · rw [List.getElem?_append_left hk]
  · rw [List.getElem?_append_right hk, List.getElem?_eq_none hk, List.getElem?_replicate]
    by_cases hn : k / 6 - l.length < n
    · rw [if_pos hn]
      exact hblank _ (Nat.mod_lt _ (by decide))
    · rw [if_neg hn]

variable {s t : CString} {i j : BitVec 32}

theorem tdiv_natCast (k : ℕ) : (k : ℤ).tdiv 6 = (k / 6 : ℕ) :=
  (Int.ofNat_tdiv k 6).symm

/-- **A bit that is set is there.** -/
theorem setBit_spec (hs : AllLegal s.bytes) {k : ℕ} (hi : i.toInt = k) (hk : (k : ℤ) ≤ MAX_BITS) :
    ∃ t, setBit s i = .value t ∧ AllLegal t.bytes ∧
      ∀ j, bitAt t.bytes j = (decide (k = j) || bitAt s.bytes j) := by
  have hgrown : AllLegal (s.bytes ++ List.replicate
      ((if s.bytes.length ≤ k / 6 then k / 6 + 1 else s.bytes.length) - s.bytes.length) 0x20) := by
    intro b hb
    refine (mem_append.1 hb).elim (hs b) fun hb ↦ ?_
    rw [eq_of_mem_replicate hb]
    decide
  have hlen : k / 6 < (s.bytes ++ List.replicate
      ((if s.bytes.length ≤ k / 6 then k / 6 + 1 else s.bytes.length) - s.bytes.length)
        (0x20 : UInt8)).length := by
    rw [length_append, length_replicate]
    split <;> omega
  obtain ⟨t, ht, hlegal, hbit⟩ := @change_spec _ _ "set_bit" _ acts_or hgrown k hlen
  refine ⟨t, ?_, hlegal, fun j ↦ (hbit j).trans (by rw [bitAt_append_blanks])⟩
  rw [setBit, hi]
  simp only [tdiv_natCast, Int.toNat_natCast]
  rw [if_neg (by omega), if_neg (by omega)]
  exact ht

/-- **A bit that is cleared is not there.** -/
theorem clearBit_spec (hs : AllLegal s.bytes) {k : ℕ} (hi : i.toInt = k)
    (hk : (k : ℤ) ≤ MAX_BITS) :
    ∃ t, clearBit s i = .value t ∧ AllLegal t.bytes ∧
      ∀ j, bitAt t.bytes j = (!decide (k = j) && bitAt s.bytes j) := by
  rw [clearBit, hi]
  simp only [tdiv_natCast, Int.toNat_natCast]
  rw [if_neg (by omega)]
  by_cases hlen : s.bytes.length ≤ k / 6
  · rw [if_pos (Or.inr hlen)]
    refine ⟨s, rfl, hs, fun j ↦ ?_⟩
    by_cases hkj : k = j
    · subst hkj
      rw [bitAt, List.getElem?_eq_none hlen]
      simp
    · simp [hkj]
  · rw [if_neg (by omega)]
    exact change_spec acts_andNot hs (Nat.not_le.1 hlen)

theorem testBit_spec {k : ℕ} (hj : j.toInt = k) : testBit s j = .value (bitAt s.bytes k) := by
  rw [testBit, hj, bitAt]
  simp only [tdiv_natCast, Int.toNat_natCast, mask_natCast]
  by_cases hlen : s.bytes.length ≤ k / 6
  · rw [if_pos (by omega), List.getElem?_eq_none hlen]
    rfl
  · rw [if_neg (by omega), if_neg (by omega), List.getElem?_eq_getElem (Nat.not_le.1 hlen)]
    rfl

theorem testBit_ne_error (text : String) : testBit s j ≠ .error text := by
  rw [testBit]
  split
  · nofun
  split
  · nofun
  split <;> nofun

/-! ### Negative indices -/

theorem exists_neg (hi : i.toInt < 0) : ∃ k : ℕ, 0 < k ∧ i.toInt = -(k : ℤ) ∧
    i.toInt.tdiv 6 = -(k / 6 : ℕ) ∧ i.toInt.tmod 6 = -(k % 6 : ℕ) := by
  obtain ⟨k, hk⟩ := Int.eq_ofNat_of_zero_le (Int.neg_nonneg_of_nonpos hi.le)
  have hneg : i.toInt = -(k : ℤ) := by omega
  refine ⟨k, by omega, hneg, ?_, ?_⟩
  · rw [hneg, Int.neg_tdiv, tdiv_natCast]
  · rw [hneg, Int.neg_tmod]
    exact congrArg Neg.neg (Int.ofNat_tmod k 6).symm

theorem setBit_neg (hs : AllLegal s.bytes) (hi : i.toInt < 0) : setBit s i = .fault := by
  obtain ⟨k, hpos, hneg, hdiv, hmod⟩ := exists_neg hi
  have hmax : ¬i.toInt > MAX_BITS := by
    simp only [MAX_BITS]
    omega
  rw [setBit]
  simp only [if_neg hmax, hdiv]
  by_cases h0 : k / 6 = 0
  · rw [h0, if_neg (by decide)]
    have hmask : mask i.toInt = none := by
      have := Nat.mod_eq_of_lt (a := k) (b := 6) (by omega)
      rw [mask, hmod, if_pos (by omega)]
    simp only [Nat.cast_zero, Int.neg_zero, Int.toNat_zero, change, hmask]
    -- the first character is there, and is one that stands for bits
    rcases hb : s.bytes with - | ⟨b, rest⟩
    · rfl
    · have hlegal : Legal b := hs b (hb ▸ mem_cons_self)
      simp [hlegal]
  · rw [if_pos (by omega)]

theorem clearBit_neg (hs : AllLegal s.bytes) (hi : i.toInt < 0) :
    clearBit s i = .value s ∨ clearBit s i = .fault := by
  obtain ⟨k, hpos, hneg, hdiv, hmod⟩ := exists_neg hi
  have hmax : ¬i.toInt > MAX_BITS := by
    simp only [MAX_BITS]
    omega
  rw [clearBit]
  simp only [if_neg hmax, hdiv]
  by_cases hout : (-(k / 6 : ℕ) : ℤ) < 0 ∨ s.bytes.length ≤ (-(k / 6 : ℕ) : ℤ).toNat
  · exact Or.inl (if_pos hout)
  right
  rw [if_neg hout]
  have h0 : k / 6 = 0 := by omega
  have hmask : mask i.toInt = none := by
    have := Nat.mod_eq_of_lt (a := k) (b := 6) (by omega)
    rw [mask, hmod, if_pos (by omega)]
  simp only [h0, Nat.cast_zero, Int.neg_zero, Int.toNat_zero, change, hmask]
  rcases hb : s.bytes with - | ⟨b, rest⟩
  · rfl
  · have hlegal : Legal b := hs b (hb ▸ mem_cons_self)
    simp [hlegal]

/-! ### All indices -/

theorem index_cases (i : BitVec 32) :
    i.toInt < 0 ∨ (∃ k : ℕ, i.toInt = k ∧ (k : ℤ) ≤ MAX_BITS) ∨ i.toInt > MAX_BITS := by
  rcases lt_or_ge i.toInt 0 with hneg | hnonneg
  · exact Or.inl hneg
  obtain ⟨k, hk⟩ := Int.eq_ofNat_of_zero_le hnonneg
  rcases le_or_gt i.toInt MAX_BITS with hle | hgt
  · exact Or.inr (Or.inl ⟨k, hk, hk ▸ hle⟩)
  · exact Or.inr (Or.inr hgt)

theorem setBit_large (hi : i.toInt > MAX_BITS) :
    setBit s i = .error (tooBig "set_bit" i.toInt) :=
  if_pos hi

theorem clearBit_large (hi : i.toInt > MAX_BITS) :
    clearBit s i = .error (tooBig "clear_bit" i.toInt) :=
  if_pos hi

theorem Produced.allLegal (hs : Produced s) : AllLegal s.bytes := by
  induction hs with
  | empty => exact fun b hb ↦ absurd hb not_mem_nil
  | @setBit s t i _ ht ih =>
    rcases index_cases i with hneg | ⟨k, hk, hmax⟩ | hlarge
    · rw [setBit_neg ih hneg] at ht
      cases ht
    · obtain ⟨t', ht', hlegal, -⟩ := setBit_spec ih hk hmax
      rw [ht] at ht'
      cases ht'
      exact hlegal
    · rw [setBit_large hlarge] at ht
      cases ht
  | @clearBit s t i _ ht ih =>
    rcases index_cases i with hneg | ⟨k, hk, hmax⟩ | hlarge
    · rcases clearBit_neg ih hneg with hsame | hfault
      · rw [hsame] at ht
        cases ht
        exact ih
      · rw [hfault] at ht
        cases ht
    · obtain ⟨t', ht', hlegal, -⟩ := clearBit_spec ih hk hmax
      rw [ht] at ht'
      cases ht'
      exact hlegal
    · rw [clearBit_large hlarge] at ht
      cases ht

/-- **Bit strings are sets exactly on the indices from 0 up to, and not including, `MAX_BITS`**, but
that setting and clearing also refuse the indices above it. -/
theorem behaves_iff (hs : Produced s) (i j : BitVec 32) :
    Behaves s i j ↔ (0 ≤ i.toInt ∧ i.toInt ≠ MAX_BITS) ∧ InRange j := by
  have hlegal := hs.allLegal
  constructor
  · intro h
    have hj : InRange j := by
      by_contra hj
      obtain ⟨text, herr⟩ := h.rejectsTest hj
      exact testBit_ne_error text herr
    rcases index_cases i with hneg | ⟨k, hk, hmax⟩ | hlarge
    · exact absurd (setBit_neg hlegal hneg) h.inside.1
    · refine ⟨⟨by omega, fun heq ↦ ?_⟩, hj⟩
      -- `MAX_BITS` is accepted
      obtain ⟨⟨text, herr⟩, -⟩ := h.rejects fun hi ↦ absurd hi.2 (by omega)
      obtain ⟨t, ht, -⟩ := setBit_spec hlegal hk hmax
      rw [ht] at herr
      cases herr
    · have hpos : 0 < MAX_BITS := by decide
      exact ⟨⟨by omega, by omega⟩, hj⟩
  · rintro ⟨⟨hi, hne⟩, hj⟩
    obtain ⟨l, hl⟩ := Int.eq_ofNat_of_zero_le hj.1
    have htest : testBit s j = .value (bitAt s.bytes l) := testBit_spec hl
    rcases index_cases i with hneg | ⟨k, hk, hmax⟩ | hlarge
    · exact absurd hneg (by omega)
    · have hij : decide (i = j) = decide (k = l) := by
        rw [decide_eq_decide, ← BitVec.toInt_inj, hk, hl]
        exact Nat.cast_inj
      obtain ⟨t, ht, -, hset⟩ := setBit_spec hlegal hk hmax
      obtain ⟨u, hu, -, hclear⟩ := clearBit_spec hlegal hk hmax
      have hin : InRange i := ⟨hi, by omega⟩
      refine ⟨fun t' b ht' hb ↦ ?_, fun u' b hu' hb ↦ ?_, fun hout ↦ absurd hin hout,
        fun hout ↦ absurd hj hout, ?_⟩
      · rw [ht] at ht'
        rw [htest] at hb
        cases ht'
        cases hb
        rw [testBit_spec hl, hset, hij]
      · rw [hu] at hu'
        rw [htest] at hb
        cases hu'
        cases hb
        rw [testBit_spec hl, hclear, decide_not, hij]
      · rw [ht, hu, htest]
        exact ⟨nofun, nofun, nofun⟩
    · refine ⟨fun t b ht ↦ ?_, fun u b hu ↦ ?_, fun _ ↦ ⟨⟨_, setBit_large hlarge⟩,
        ⟨_, clearBit_large hlarge⟩⟩, fun hout ↦ absurd hj hout, ?_⟩
      · rw [setBit_large hlarge] at ht
        cases ht
      · rw [clearBit_large hlarge] at hu
        cases hu
      · rw [setBit_large hlarge, clearBit_large hlarge, htest]
        exact ⟨nofun, nofun, nofun⟩

/-- A string with the bit 0, in which the bit 8 is set, or cleared, and 0 tested. -/
theorem behaves_one_bit : Behaves (CString.ofBytes [0x21]) 8 0 :=
  (behaves_iff (.setBit 0 .empty rfl) 8 0).2 ⟨⟨by decide, by decide⟩, by decide, by decide⟩

/-- Testing the bit -6 looks at what is before the string, here one with the first bit. -/
theorem not_behaves : ¬∀ s, Produced s → ∀ i j, Behaves s i j := by
  intro hall
  have hs : Produced (CString.ofBytes [0x21]) := .setBit 0 .empty rfl
  exact (hall _ hs 0 (-6)).inside.2.2 rfl

end Lpmud.Bits
