import Lpmud.Lib.Bitmap
import Mathlib.Algebra.Order.Group.Nat

/-!
# The blocks of the swap file

The block allocator of `swap.c`: a bitmap of the free blocks that doubles when it has none left,
with a hint from where on a free block can be found (`swap_minfree`). The `DEBUG` checks are part
of the model.

Block numbers are `u_int`s. A bitmap of all `2 ^ 32` of them cannot double in size; an allocation
that would need it to ends in `Fault.full`, and nothing else does (`allocSwap_spec`).
-/

namespace Lpmud.Swap

abbrev NBBY : ℕ := 8
abbrev NBULONG : ℕ := 64

/-- How an operation can fail: by a call of `fatal`, or for want of block numbers. -/
inductive Fault where
  | fatal
  | full
  deriving DecidableEq, Repr

/-- The allocator's data: the bitmap, whose set bits are the free blocks, its size in bytes, and
`swap_minfree`, `swap_maxfree` and `swap_maxalloc`. -/
structure Alloc where
  bitmap : Bitmap NBULONG
  cursize : ℕ
  minfree : ℕ
  maxfree : ℕ
  maxalloc : ℕ

/-- The last bit of a bitmap of `size` bytes, as a `u_int`. -/
def lastBit (size : ℕ) : ℕ :=
  (size * NBBY + (2 ^ 32 - 1)) % 2 ^ 32

def initSwap (pagesize : ℕ) : Alloc where
  bitmap := Bitmap.clear (fun _ ↦ BitVec.allOnes NBULONG) 0
  cursize := pagesize
  minfree := 0
  maxfree := lastBit pagesize
  maxalloc := 0

namespace Alloc

def extendSwapBitmap (a : Alloc) : Alloc :=
  let size := a.cursize
  let cursize := size * 2 % 2 ^ 32
  { bitmap := fun k ↦ if k < size * NBBY / NBULONG then a.bitmap k else BitVec.allOnes NBULONG
    cursize := cursize
    minfree := size * NBBY % 2 ^ 32
    maxfree := lastBit cursize
    maxalloc := a.maxalloc }

/-- Take the free block `b`. -/
def take (a : Alloc) (b : ℕ) : Alloc :=
  { a with
    bitmap := a.bitmap.clear b
    minfree := (b + 1) % 2 ^ 32
    maxalloc := max a.maxalloc b }

/-- The first free block from the word of `swap_minfree` to the word of `swap_maxfree`. -/
def search (a : Alloc) : Option ℕ :=
  let minb := a.minfree / NBULONG
  let maxb := a.maxfree / NBULONG
  a.bitmap.find (maxb + 1 - minb) minb

/-- The loop of `alloc_swap`. Every round doubles the bitmap, so 33 rounds are more than there
can be. -/
def allocLoop : ℕ → Alloc → Except Fault (ℕ × Alloc)
  | 0, _ => .error .full
  | n + 1, a =>
    match a.search with
    | some b => .ok (b, a.take b)
    | none => if 2 ^ 32 ≤ a.cursize * NBBY then .error .full else allocLoop n a.extendSwapBitmap

def allocSwap (a : Alloc) : Except Fault (ℕ × Alloc) :=
  if a.maxfree ≠ lastBit a.cursize then .error .fatal else allocLoop 33 a

def freeSwap (blkno : ℕ) (a : Alloc) : Except Fault Alloc :=
  if a.maxfree ≠ lastBit a.cursize then .error .fatal
  else if a.maxalloc < blkno then .error .fatal
  else if a.bitmap.test blkno then .error .fatal
  else .ok { a with bitmap := a.bitmap.set blkno, minfree := min a.minfree blkno }

/-! ### What the allocator keeps -/

/-- **The allocator is in order**: the bitmap has a size that a `u_int` can double up to all block
numbers, `swap_maxfree` is its last bit, nothing below the hint is free, and neither is
block 0. -/
structure Ok (a : Alloc) : Prop where
  size : ∃ k, 3 ≤ k ∧ k ≤ 29 ∧ a.cursize = 2 ^ k
  maxfree : a.maxfree + 1 = a.cursize * NBBY
  minfree : ∀ b < a.minfree, a.bitmap.test b = false
  zero : a.bitmap.test 0 = false

/-- A block that is in use: not block 0, in the bitmap, not free, and no further than the last
block ever allocated. -/
structure InUse (a : Alloc) (b : ℕ) : Prop where
  ne_zero : b ≠ 0
  lt : b < a.cursize * NBBY
  notFree : a.bitmap.test b = false
  le : b ≤ a.maxalloc

variable {a : Alloc}

theorem lastBit_eq {k : ℕ} (h : k ≤ 29) : lastBit (2 ^ k) + 1 = 2 ^ k * NBBY := by
  have hpos : 0 < 2 ^ k := Nat.two_pow_pos k
  have hle : 2 ^ k ≤ 2 ^ 29 := Nat.pow_le_pow_right (by decide) h
  simp only [lastBit, NBBY]
  omega

theorem Ok.maxfree_eq (h : a.Ok) : a.maxfree = lastBit a.cursize := by
  obtain ⟨k, -, hk, hsize⟩ := h.size
  have hlast := lastBit_eq hk
  have hmax := h.maxfree
  rw [hsize] at hmax ⊢
  omega

theorem initSwap_ok {k : ℕ} (hk₁ : 3 ≤ k) (hk₂ : k ≤ 29) : (initSwap (2 ^ k)).Ok := by
  refine ⟨⟨k, hk₁, hk₂, rfl⟩, lastBit_eq hk₂, fun b hb ↦ absurd hb (Nat.not_lt_zero b), ?_⟩
  rw [initSwap, Bitmap.test_clear (by decide)]
  rfl

theorem Ok.search_words (h : a.Ok) : (a.maxfree / NBULONG + 1) * NBULONG = a.cursize * NBBY := by
  obtain ⟨k, hk, -, hsize⟩ := h.size
  obtain ⟨j, rfl⟩ := Nat.exists_eq_add_of_le hk
  have hmax := h.maxfree
  simp only [hsize, Nat.pow_add, NBBY, NBULONG] at hmax ⊢
  omega

theorem Ok.take (h : a.Ok) {b : ℕ} (hb : b < a.cursize * NBBY)
    (hlow : ∀ c < b, a.bitmap.test c = false) : (a.take b).Ok := by
  refine ⟨h.size, h.maxfree, fun c hc ↦ ?_, ?_⟩
  · change (a.bitmap.clear b).test c = false
    rw [Bitmap.test_clear (by decide)]
    rcases eq_or_ne c b with rfl | hne
    · simp
    · have hcb : c < b := by
        have hc' : c < (b + 1) % 2 ^ 32 := hc
        have := Nat.mod_le (b + 1) (2 ^ 32)
        omega
      rw [hlow c hcb, Bool.and_false]
  · change (a.bitmap.clear b).test 0 = false
    rw [Bitmap.test_clear (by decide), h.zero, Bool.and_false]

theorem Ok.search_some (h : a.Ok) {b : ℕ} (hb : a.search = some b) :
    a.bitmap.test b = true ∧ b < a.cursize * NBBY ∧ ∀ c < b, a.bitmap.test c = false := by
  obtain ⟨hset, hle, hlt, hlow⟩ := Bitmap.find_eq_some (by decide) hb
  have hwords := h.search_words
  refine ⟨hset, ?_, fun c hc ↦ ?_⟩
  · rcases Nat.lt_or_ge (a.maxfree / NBULONG + 1) (a.minfree / NBULONG) with hcase | hcase
    · rw [Nat.sub_eq_zero_of_le hcase.le, Nat.add_zero] at hlt
      exact absurd hle (Nat.not_le.2 hlt)
    · rwa [Nat.add_sub_cancel' hcase, hwords] at hlt
  · rcases Nat.lt_or_ge c a.minfree with hcm | hcm
    · exact h.minfree c hcm
    · exact hlow c ((Nat.div_mul_le_self _ _).trans hcm) hc

theorem Ok.search_none (h : a.Ok) (hnone : a.search = none) {c : ℕ} (hc : c < a.cursize * NBBY) :
    a.bitmap.test c = false := by
  rcases Nat.lt_or_ge c a.minfree with hcm | hcm
  · exact h.minfree c hcm
  · refine Bitmap.find_eq_none (by decide) hnone ((Nat.div_mul_le_self _ _).trans hcm) ?_
    have hwords := h.search_words
    rw [← hwords] at hc
    refine hc.trans_le (Nat.mul_le_mul_right _ ?_)
    omega

theorem Ok.extend (h : a.Ok) (hfull : ∀ c < a.cursize * NBBY, a.bitmap.test c = false)
    (hlt : a.cursize * NBBY < 2 ^ 32) :
    a.extendSwapBitmap.Ok ∧ a.extendSwapBitmap.cursize = a.cursize * 2 ∧
      (∀ c < a.cursize * NBBY, a.extendSwapBitmap.bitmap.test c = false) ∧
      ∀ c, a.cursize * NBBY ≤ c → a.extendSwapBitmap.bitmap.test c = true := by
  obtain ⟨k, hk, hk', hsize⟩ := h.size
  have hk29 : k < 29 := by
    by_contra hge
    obtain rfl : k = 29 := le_antisymm hk' (Nat.not_lt.1 hge)
    rw [hsize] at hlt
    exact absurd hlt (by decide)
  have hcur : a.extendSwapBitmap.cursize = 2 ^ (k + 1) := by
    have hle : 2 ^ k ≤ 2 ^ 28 := Nat.pow_le_pow_right (by decide) (by omega)
    change a.cursize * 2 % 2 ^ 32 = _
    rw [hsize, Nat.pow_succ]
    omega
  have hwords : a.cursize * NBBY / NBULONG * NBULONG = a.cursize * NBBY := by
    obtain ⟨j, rfl⟩ := Nat.exists_eq_add_of_le hk
    simp only [hsize, Nat.pow_add, NBBY, NBULONG]
    omega
  have hbits (c : ℕ) : a.extendSwapBitmap.bitmap.test c =
      if c < a.cursize * NBBY then a.bitmap.test c else true := by
    change (if c / NBULONG < a.cursize * NBBY / NBULONG then a.bitmap (c / NBULONG)
      else BitVec.allOnes NBULONG).getLsbD (c % NBULONG) = _
    have hiff : c / NBULONG < a.cursize * NBBY / NBULONG ↔ c < a.cursize * NBBY := by
      rw [Nat.div_lt_iff_lt_mul (by decide), hwords]
    by_cases hc : c < a.cursize * NBBY
    · rw [if_pos (hiff.2 hc), if_pos hc]
      rfl
    · have hmod : c % NBULONG < NBULONG := Nat.mod_lt c (by decide)
      rw [if_neg (mt hiff.1 hc), if_neg hc, BitVec.getLsbD_allOnes, decide_eq_true hmod]
  have hlow : ∀ c < a.cursize * NBBY, a.extendSwapBitmap.bitmap.test c = false :=
    fun c hc ↦ by rw [hbits, if_pos hc, hfull c hc]
  have hlast : a.extendSwapBitmap.maxfree = lastBit a.extendSwapBitmap.cursize := rfl
  refine ⟨⟨⟨k + 1, by omega, hk29, hcur⟩, ?_, fun c hc ↦ hlow c ?_, hlow 0 ?_⟩, ?_, hlow, ?_⟩
  · rw [hlast, hcur]
    exact lastBit_eq hk29
  · have hc' : c < a.cursize * NBBY % 2 ^ 32 := hc
    exact hc'.trans_le (Nat.mod_le _ _)
  · rw [hsize]
    exact Nat.mul_pos (Nat.two_pow_pos k) (by decide)
  · rw [hcur, hsize, Nat.pow_succ]
  · exact fun c hc ↦ by rw [hbits, if_neg (Nat.not_lt.2 hc)]

/-- A block that can be allocated: it is free, or the bitmap has not grown up to it. -/
def IsFree (a : Alloc) (b : ℕ) : Prop :=
  b < 2 ^ 32 ∧ (b < a.cursize * NBBY → a.bitmap.test b = true)

/-- Fewer than `n` blocks can be allocated. -/
def Scarce (a : Alloc) (n : ℕ) : Prop :=
  ∀ l : List ℕ, l.Nodup → (∀ b ∈ l, a.IsFree b) → l.length < n

theorem Scarce.mono {m n : ℕ} (h : a.Scarce m) (hmn : m ≤ n) : a.Scarce n :=
  fun l hl hfree ↦ (h l hl hfree).trans_le hmn

/-- What an allocation gives: a block that was not in use, and is now. -/
structure Allocated (a : Alloc) (b : ℕ) (a' : Alloc) : Prop where
  ok : a'.Ok
  fresh : ¬a.InUse b
  inUse : a'.InUse b
  others : ∀ c, a.InUse c → a'.InUse c
  free : ∀ c, a.IsFree c → c = b ∨ a'.IsFree c

theorem Allocated.scarce {b n : ℕ} {a' : Alloc} (h : Allocated a b a') (hn : a'.Scarce n) :
    a.Scarce (n + 1) := by
  intro l hl hfree
  have hlen : (l.erase b).length < n := by
    refine hn _ (hl.erase b) fun c hc ↦ ?_
    obtain ⟨hne, hmem⟩ := hl.mem_erase_iff.1 hc
    exact (h.free c (hfree c hmem)).resolve_left hne
  have := List.le_length_erase (a := b) (l := l)
  omega

theorem Ok.allocated (h : a.Ok) {b : ℕ} (hb : a.search = some b) : Allocated a b (a.take b) := by
  obtain ⟨hset, hlt, hlow⟩ := h.search_some hb
  have htest (c : ℕ) : (a.take b).bitmap.test c = (decide (c ≠ b) && a.bitmap.test c) :=
    Bitmap.test_clear (by decide) _ _ _
  refine ⟨h.take hlt hlow, fun hu ↦ ?_, ⟨?_, hlt, ?_, le_max_right _ _⟩, fun c hc ↦ ?_,
    fun c hc ↦ ?_⟩
  · rw [hu.notFree] at hset
    cases hset
  · rintro rfl
    rw [h.zero] at hset
    cases hset
  · rw [htest, decide_eq_false (not_not.2 rfl), Bool.false_and]
  · exact ⟨hc.ne_zero, hc.lt, by rw [htest, hc.notFree, Bool.and_false],
      hc.le.trans (le_max_left _ _)⟩
  · refine or_iff_not_imp_left.2 fun hne ↦ ⟨hc.1, fun hlt ↦ ?_⟩
    rw [htest, decide_eq_true hne, hc.2 hlt, Bool.true_and]

/-- **`alloc_swap`** gives a block that was not in use, unless all block numbers are taken. -/
theorem allocSwap_spec (h : a.Ok) :
    (∃ b a', a.allocSwap = .ok (b, a') ∧ Allocated a b a') ∨
      (a.allocSwap = .error .full ∧ a.Scarce 1) := by
  rw [allocSwap, if_neg (not_not.2 h.maxfree_eq), allocLoop]
  cases hs : a.search with
  | some b => exact .inl ⟨b, _, rfl, h.allocated hs⟩
  | none =>
    have hfull : ∀ c < a.cursize * NBBY, a.bitmap.test c = false :=
      fun c hc ↦ h.search_none hs hc
    dsimp only
    by_cases hlim : 2 ^ 32 ≤ a.cursize * NBBY
    · refine .inr ⟨if_pos hlim, fun l _ hl ↦ ?_⟩
      rcases l with - | ⟨b, l⟩
      · exact Nat.one_pos
      · obtain ⟨hb, hfree⟩ := hl b List.mem_cons_self
        have hb' := hb.trans_le hlim
        rw [hfull b hb'] at hfree
        cases hfree hb'
    · obtain ⟨hok, hcur, hlow, hnew⟩ := h.extend hfull (Nat.not_le.1 hlim)
      rw [if_neg hlim, allocLoop]
      cases hs' : a.extendSwapBitmap.search with
      | none =>
        -- The new half of the bitmap is free.
        have hpos : a.cursize * NBBY < a.extendSwapBitmap.cursize * NBBY := by
          obtain ⟨k, -, -, hsize⟩ := h.size
          have := Nat.two_pow_pos k
          simp only [hcur, hsize, NBBY]
          omega
        have hfree := hok.search_none hs' hpos
        rw [hnew _ le_rfl] at hfree
        cases hfree
      | some b =>
        have hall := hok.allocated hs'
        have hinuse (c : ℕ) (hc : a.InUse c) : a.extendSwapBitmap.InUse c :=
          ⟨hc.ne_zero, hc.lt.trans_le (by rw [hcur]; simp only [NBBY]; omega), hlow c hc.lt, hc.le⟩
        have hfree (c : ℕ) (hc : a.IsFree c) : a.extendSwapBitmap.IsFree c := by
          refine ⟨hc.1, fun _ ↦ hnew c (Nat.not_lt.1 fun hlt ↦ ?_)⟩
          have hset := hc.2 hlt
          rw [hfull c hlt] at hset
          cases hset
        exact .inl ⟨b, _, rfl, hall.ok, fun hb ↦ hall.fresh (hinuse b hb), hall.inUse,
          fun c hc ↦ hall.others c (hinuse c hc), fun c hc ↦ hall.free c (hfree c hc)⟩

/-- **`free_swap`** makes a block that is in use free, and only that one. -/
theorem freeSwap_spec (h : a.Ok) {b : ℕ} (hb : a.InUse b) :
    ∃ a', a.freeSwap b = .ok a' ∧ a'.Ok ∧ ∀ c, c ≠ b → a.InUse c → a'.InUse c := by
  have htest (c : ℕ) : (a.bitmap.set b).test c = (decide (c = b) || a.bitmap.test c) :=
    Bitmap.test_set (by decide) _ _ _
  refine ⟨{ a with bitmap := a.bitmap.set b, minfree := min a.minfree b }, ?_,
    ⟨h.size, h.maxfree, fun c hc ↦ ?_, ?_⟩, fun c hc hu ↦ ⟨hu.ne_zero, hu.lt, ?_, hu.le⟩⟩
  · rw [freeSwap, if_neg (not_not.2 h.maxfree_eq), if_neg (Nat.not_lt.2 hb.le),
      if_neg (by rw [hb.notFree]; exact Bool.false_ne_true)]
  · rw [htest, decide_eq_false (lt_of_lt_of_le hc (min_le_right _ _)).ne, Bool.false_or]
    exact h.minfree c (lt_of_lt_of_le hc (min_le_left _ _))
  · rw [htest, decide_eq_false hb.ne_zero.symm, Bool.false_or]
    exact h.zero
  · rw [htest, decide_eq_false hc, Bool.false_or]
    exact hu.notFree

end Alloc

end Lpmud.Swap
