import Lpmud.Svalue
import Mathlib.Data.List.Range

/-!
# Network queues

The byte queues of `nqueue.c`: a ring of `size` bytes with a read pointer, a write pointer and a
length. The functions of the source assume that the caller has checked for space or for data
("it is assumed that the caller has determined …"); here such a function returns `none` where
the assumption fails, so that a caller that never sees `none` has kept the discipline.

The ring carries its own well-formedness, so no queue value has pointers out of range or out of
step with its length. Its meaning is the list of queued bytes, `Nqueue.toList`, and each
function has one lemma that says what it does to that list; nothing outside this module looks at
the pointers.
-/

namespace Lpmud

open List Option

/-- The position `k` steps from the start of a ring of `size` cells, for `k < 2 * size`. -/
def ringPos (size k : ℕ) : ℕ :=
  if k < size then k else k - size

theorem ringPos_of_lt {size k : ℕ} (h : k < size) : ringPos size k = k :=
  if_pos h

/-- A network queue (`nqueue_t`) of `size` bytes. -/
structure Nqueue (size : ℕ) where
  nqLen : ℕ
  nqRptr : ℕ
  nqWptr : ℕ
  /-- The bytes behind the header. -/
  data : ℕ → UInt8
  len_le : nqLen ≤ size
  rptr_lt : nqRptr < size
  wptr_eq : nqWptr = ringPos size (nqRptr + nqLen)

/-- What one `send()` on a socket answers: the bytes it took, or an error, which is `fatal`
unless it is one of `EWOULDBLOCK`, `EINTR` and `EPROTO`. -/
inductive SendResult where
  | sent (n : ℕ)
  | failed (fatal : Bool)
  deriving DecidableEq, Repr

namespace Nqueue

variable {size : ℕ} (q : Nqueue size)

theorem size_pos (q : Nqueue size) : 0 < size :=
  Nat.zero_lt_of_lt q.rptr_lt

theorem wptr_lt : q.nqWptr < size := by
  have := q.rptr_lt
  have := q.len_le
  rw [q.wptr_eq, ringPos]
  split <;> omega

/-- **The meaning of a queue**: its bytes, oldest first. -/
def toList : Bytes :=
  (List.range q.nqLen).map fun i ↦ q.data (ringPos size (q.nqRptr + i))

@[simp] theorem length_toList : q.toList.length = q.nqLen := by simp [toList]

theorem getElem?_toList {i : ℕ} (h : i < q.nqLen) :
    q.toList[i]? = some (q.data (ringPos size (q.nqRptr + i))) := by
  simp [toList, h]

/-! ### Size and space -/

/-- The available space (`nq_avail`). -/
def nqAvail : ℕ := size - q.nqLen

def nqEmpty : Bool := q.nqLen = 0

def nqFull : Bool := q.nqLen = size

@[simp] theorem nqEmpty_iff : q.nqEmpty = true ↔ q.toList = [] := by
  rw [← length_eq_zero_iff, length_toList, nqEmpty, decide_eq_true_iff]

@[simp] theorem nqFull_iff : q.nqFull = true ↔ q.toList.length = size := by
  rw [length_toList, nqFull, decide_eq_true_iff]

/-- The room there is for one contiguous write, as `nq_puts` and `nq_recv` compute it. -/
def nqSpace : ℕ :=
  if q.nqWptr < q.nqRptr then q.nqRptr - q.nqWptr else size - q.nqWptr

theorem nqSpace_le_avail (h : q.nqLen < size) : q.nqSpace ≤ q.nqAvail := by
  have hr := q.rptr_lt
  rw [nqSpace, nqAvail, q.wptr_eq, ringPos]
  split <;> split <;> omega

theorem nqSpace_pos : 0 < q.nqSpace := by
  have hw := q.wptr_lt
  rw [nqSpace]
  split <;> omega

theorem wptr_add_space_le : q.nqWptr + q.nqSpace ≤ size := by
  have hr := q.rptr_lt
  have hw := q.wptr_lt
  rw [nqSpace]
  split <;> omega

/-! ### Initialisation -/

/-- `nq_init`: the pointers go back to the beginning of the ring, whose bytes stay. -/
def nqInit : Nqueue size where
  nqLen := 0
  nqRptr := 0
  nqWptr := 0
  data := q.data
  len_le := Nat.zero_le _
  rptr_lt := q.size_pos
  wptr_eq := (ringPos_of_lt q.size_pos).symm

@[simp] theorem toList_nqInit : q.nqInit.toList = [] := rfl

/-- `nq_alloc`: an empty queue. -/
def nqAlloc (size : ℕ) (h : 0 < size) : Nqueue size where
  nqLen := 0
  nqRptr := 0
  nqWptr := 0
  data := fun _ ↦ 0
  len_le := Nat.zero_le _
  rptr_lt := h
  wptr_eq := (ringPos_of_lt h).symm

/-! ### Reading at the head -/

/-- Move the read pointer over `k` bytes that lie before the end of the ring. -/
def advance (k : ℕ) (hlen : k ≤ q.nqLen) (hend : q.nqRptr + k ≤ size) : Nqueue size where
  nqLen := q.nqLen - k
  nqRptr := if q.nqRptr + k = size then 0 else q.nqRptr + k
  nqWptr := q.nqWptr
  data := q.data
  len_le := by
    have := q.len_le
    omega
  rptr_lt := by
    have := q.size_pos
    split <;> omega
  wptr_eq := by
    have hl := q.len_le
    have hr := q.rptr_lt
    simp only [q.wptr_eq, ringPos]
    split_ifs <;> omega

theorem toList_advance {k : ℕ} (hlen : k ≤ q.nqLen) (hend : q.nqRptr + k ≤ size) :
    (q.advance k hlen hend).toList = q.toList.drop k := by
  refine ext_getElem? fun i ↦ ?_
  rw [List.getElem?_drop]
  by_cases hi : k + i < q.nqLen
  · have hr := q.rptr_lt
    have hl := q.len_le
    rw [q.getElem?_toList hi, getElem?_toList _ (show i < q.nqLen - k by omega)]
    simp only [advance, ringPos]
    congr 2
    split_ifs <;> omega
  · rw [List.getElem?_eq_none, List.getElem?_eq_none]
    · rw [length_toList]
      omega
    · rw [length_toList]
      change q.nqLen - k ≤ i
      omega

/-- `nq_getc`: the byte at the head. -/
def nqGetc : Option (UInt8 × Nqueue size) :=
  if h : 0 < q.nqLen then some (q.data q.nqRptr, q.advance 1 h q.rptr_lt) else none

theorem nqGetc_eq_some {q : Nqueue size} {c : UInt8} {l : Bytes} (h : q.toList = c :: l) :
    ∃ q', q.nqGetc = some (c, q') ∧ q'.toList = l := by
  have hlen : 0 < q.nqLen := by
    rw [← q.length_toList, h]
    exact Nat.succ_pos _
  refine ⟨q.advance 1 hlen q.rptr_lt, ?_, ?_⟩
  · have hc := q.getElem?_toList hlen
    rw [h, Nat.add_zero, ringPos_of_lt q.rptr_lt] at hc
    rw [nqGetc, dif_pos hlen, some.inj hc]
  · rw [toList_advance, h, drop_one, tail_cons]

/-- `nq_send`: hand the contiguous bytes at the head to the socket until it takes fewer than it
was offered. The result tells whether the last `send()` failed for good. The socket answers as
the list says, and would block once the list is used up. -/
def nqSend (q : Nqueue size) : List SendResult → Nqueue size × Bool
  | [] => (q, false)
  | r :: rest =>
    if q.nqLen = 0 then (q, false)
    else match r with
      | .failed fatal => (q, fatal)
      | .sent n =>
        let len := min (size - q.nqRptr) q.nqLen
        let cc := min n len
        let q' := q.advance cc (by omega) (by have := q.rptr_lt; omega)
        if cc = len then q'.nqSend rest else (q', false)

/-- What `nq_send` hands over: the bytes in memory that each `send()` takes. -/
def nqSent (q : Nqueue size) : List SendResult → Bytes
  | [] => []
  | r :: rest =>
    if q.nqLen = 0 then []
    else match r with
      | .failed _ => []
      | .sent n =>
        let len := min (size - q.nqRptr) q.nqLen
        let cc := min n len
        let q' := q.advance cc (by omega) (by have := q.rptr_lt; omega)
        (List.range cc).map (fun i ↦ q.data (q.nqRptr + i)) ++
          if cc = len then q'.nqSent rest else []

theorem take_toList {k : ℕ} (hlen : k ≤ q.nqLen) (hend : q.nqRptr + k ≤ size) :
    q.toList.take k = (List.range k).map fun i ↦ q.data (q.nqRptr + i) := by
  rw [toList, ← map_take, take_range, Nat.min_eq_left hlen]
  refine map_congr_left fun i hi ↦ ?_
  rw [ringPos_of_lt (by have := mem_range.1 hi; omega)]

/-- **Sending** loses nothing and changes no order: what the socket took is the front of the
queue. -/
theorem nqSent_append_toList (rs : List SendResult) :
    ∀ q : Nqueue size, q.nqSent rs ++ (q.nqSend rs).1.toList = q.toList := by
  induction rs with
  | nil => exact fun q ↦ nil_append _
  | cons r rest ih =>
    intro q
    rw [nqSent.eq_def, nqSend.eq_def]
    dsimp only
    split
    · exact nil_append _
    · cases r with
      | failed fatal => exact nil_append _
      | sent n =>
        have hlen : min n (min (size - q.nqRptr) q.nqLen) ≤ q.nqLen := by omega
        have hend : q.nqRptr + min n (min (size - q.nqRptr) q.nqLen) ≤ size := by
          have := q.rptr_lt
          omega
        dsimp only
        rw [← q.take_toList hlen hend]
        split
        · rw [append_assoc, ih, toList_advance, take_append_drop]
        · rw [append_nil, toList_advance, take_append_drop]

/-- `nq_ungetc`: return a byte to the head. -/
def nqUngetc (c : UInt8) : Option (Nqueue size) :=
  if h : q.nqLen < size then
    some {
      nqLen := q.nqLen + 1
      nqRptr := if q.nqRptr = 0 then size - 1 else q.nqRptr - 1
      nqWptr := q.nqWptr
      data := fun j ↦ if j = (if q.nqRptr = 0 then size - 1 else q.nqRptr - 1) then c else q.data j
      len_le := h
      rptr_lt := by
        have hr := q.rptr_lt
        split <;> omega
      wptr_eq := by
        have hr := q.rptr_lt
        have hwe := q.wptr_eq
        simp only [ringPos] at hwe ⊢
        split_ifs at hwe ⊢ <;> omega }
  else none

theorem nqUngetc_eq_some {q : Nqueue size} {c : UInt8} (h : q.nqLen < size) :
    ∃ q', q.nqUngetc c = some q' ∧ q'.toList = c :: q.toList := by
  rw [nqUngetc, dif_pos h]
  refine ⟨_, rfl, ext_getElem? fun i ↦ ?_⟩
  have hr := q.rptr_lt
  rcases Nat.lt_or_ge i (q.nqLen + 1) with hi | hi
  · rw [getElem?_toList _ hi]
    rcases i with - | i
    · rw [List.getElem?_cons_zero]
      dsimp only
      rw [Nat.add_zero, ringPos_of_lt (by split <;> omega), if_pos rfl]
    · -- An old byte is one step further from the new head.
      rw [List.getElem?_cons_succ, q.getElem?_toList (Nat.lt_of_succ_lt_succ hi)]
      simp only [ringPos]
      rw [if_neg (by split_ifs <;> omega)]
      congr 2
      split_ifs <;> omega
  · rw [List.getElem?_eq_none, List.getElem?_eq_none]
    · rw [length_cons, length_toList]
      exact hi
    · rw [length_toList]
      exact hi

/-! ### Writing at the tail -/

/-- Copy bytes behind the write pointer, as far as they fit before the end of the ring or the
unread bytes. -/
def nqMemcpy (cs : Bytes) : Option (Nqueue size) :=
  if h : q.nqLen < size ∧ cs.length ≤ q.nqSpace then
    some {
      nqLen := q.nqLen + cs.length
      nqRptr := q.nqRptr
      nqWptr := if q.nqWptr + cs.length = size then 0 else q.nqWptr + cs.length
      data := fun j ↦
        if q.nqWptr ≤ j ∧ j < q.nqWptr + cs.length then cs.getD (j - q.nqWptr) 0 else q.data j
      len_le := by
        have := q.nqSpace_le_avail h.1
        rw [nqAvail] at this
        omega
      rptr_lt := q.rptr_lt
      wptr_eq := by
        have hs := q.nqSpace_le_avail h.1
        have hw := q.wptr_add_space_le
        have hr := q.rptr_lt
        have hc := h.2
        have hwe := q.wptr_eq
        simp only [nqAvail, ringPos] at hs hwe ⊢
        split_ifs at hwe ⊢ <;> omega }
  else none

theorem nqMemcpy_eq_some {q : Nqueue size} {cs : Bytes} (hlen : q.nqLen < size)
    (hcs : cs.length ≤ q.nqSpace) :
    ∃ q', q.nqMemcpy cs = some q' ∧ q'.toList = q.toList ++ cs ∧ q'.nqRptr = q.nqRptr := by
  rw [nqMemcpy, dif_pos ⟨hlen, hcs⟩]
  refine ⟨_, rfl, ?_, rfl⟩
  have hs := q.nqSpace_le_avail hlen
  have hw := q.wptr_add_space_le
  have hr := q.rptr_lt
  have hwe := q.wptr_eq
  rw [nqAvail] at hs
  refine ext_getElem? fun i ↦ ?_
  rcases Nat.lt_or_ge i q.nqLen with hi | hi
  · -- An old byte lies outside the copied cells.
    rw [List.getElem?_append_left (by simpa using hi), q.getElem?_toList hi,
      getElem?_toList _ (Nat.lt_add_right _ hi)]
    dsimp only
    rw [if_neg]
    simp only [ringPos, nqSpace] at hwe hcs ⊢
    split_ifs at hwe hcs ⊢ <;> omega
  · rcases Nat.lt_or_ge i (q.nqLen + cs.length) with hj | hj
    · rw [List.getElem?_append_right (by simpa using hi), getElem?_toList _ hj]
      have hpos : ringPos size (q.nqRptr + i) = q.nqWptr + (i - q.nqLen) := by
        simp only [ringPos] at hwe ⊢
        split_ifs at hwe ⊢ <;> omega
      simp only [hpos, length_toList]
      rw [if_pos (by omega), Nat.add_sub_cancel_left,
        List.getElem?_eq_getElem (by omega), getD_eq_getElem?_getD,
        List.getElem?_eq_getElem (by omega), getD_some]
    · rw [List.getElem?_eq_none (by simpa using hj),
        List.getElem?_eq_none (by simpa using hj)]

/-- `nq_putc`: append one byte. -/
def nqPutc (c : UInt8) : Option (Nqueue size) :=
  q.nqMemcpy [c]

theorem nqPutc_eq_some {q : Nqueue size} {c : UInt8} (h : q.nqLen < size) :
    ∃ q', q.nqPutc c = some q' ∧ q'.toList = q.toList ++ [c] ∧ q'.nqRptr = q.nqRptr :=
  nqMemcpy_eq_some h q.nqSpace_pos

/-- The loop of `nq_puts`, one contiguous copy at a time; each copy takes at least a byte. -/
def nqPutsLoop : ℕ → Nqueue size → Bytes → Option (Nqueue size)
  | _, q, [] => some q
  | 0, _, _ :: _ => none
  | n + 1, q, cp =>
    (q.nqMemcpy (cp.take q.nqSpace)).bind fun q' ↦ nqPutsLoop n q' (cp.drop q.nqSpace)

/-- `nq_puts`: append a string. -/
def nqPuts (cp : Bytes) : Option (Nqueue size) :=
  nqPutsLoop cp.length q cp

theorem nqPutsLoop_eq_some (n : ℕ) : ∀ (q : Nqueue size) (cp : Bytes), cp.length ≤ n →
    cp.length ≤ q.nqAvail →
    ∃ q', nqPutsLoop n q cp = some q' ∧ q'.toList = q.toList ++ cp ∧ q'.nqRptr = q.nqRptr := by
  induction n with
  | zero =>
    intro q cp hn _
    obtain rfl := length_eq_zero_iff.1 (Nat.le_zero.1 hn)
    exact ⟨q, rfl, (append_nil _).symm, rfl⟩
  | succ n ih =>
    intro q cp hn hav
    rcases cp with - | ⟨c, cs⟩
    · exact ⟨q, rfl, (append_nil _).symm, rfl⟩
    · have hsp := q.nqSpace_pos
      have hlen : q.nqLen < size := by
        rw [nqAvail, length_cons] at hav
        omega
      obtain ⟨q₁, h₁, hl₁, hr₁⟩ :=
        nqMemcpy_eq_some hlen ((length_take_le _ (c :: cs)) : _ ≤ q.nqSpace)
      have hav₁ : ((c :: cs).drop q.nqSpace).length ≤ q₁.nqAvail := by
        have hq₁ : q₁.nqLen = q.nqLen + min q.nqSpace (c :: cs).length := by
          rw [← length_toList, hl₁, length_append, length_toList, length_take]
        rw [nqAvail] at hav ⊢
        rw [length_drop, hq₁]
        omega
      obtain ⟨q₂, h₂, hl₂, hr₂⟩ := ih q₁ ((c :: cs).drop q.nqSpace)
        (by rw [length_drop, length_cons] at *; omega) hav₁
      refine ⟨q₂, ?_, ?_, hr₂.trans hr₁⟩
      · rw [nqPutsLoop, h₁, bind_some, h₂]
        exact cons_ne_nil _ _
      · rw [hl₂, hl₁, append_assoc, take_append_drop]

theorem nqPuts_eq_some {q : Nqueue size} {cp : Bytes} (h : cp.length ≤ q.nqAvail) :
    ∃ q', q.nqPuts cp = some q' ∧ q'.toList = q.toList ++ cp ∧ q'.nqRptr = q.nqRptr :=
  nqPutsLoop_eq_some cp.length q cp le_rfl h

/-- `nq_recv`: append what the socket hands over, of which the kernel writes no more than the
contiguous space asked for. The second component is what was appended. -/
def nqRecv (bs : Bytes) : Option (Nqueue size × Bytes) :=
  (q.nqMemcpy (bs.take q.nqSpace)).map fun q' ↦ (q', bs.take q.nqSpace)

theorem nqRecv_eq_some {q : Nqueue size} (bs : Bytes) (h : q.nqLen < size) :
    ∃ q' cs, q.nqRecv bs = some (q', cs) ∧ q'.toList = q.toList ++ cs ∧ cs <+: bs := by
  obtain ⟨q', h', hl, -⟩ := nqMemcpy_eq_some h ((length_take_le _ bs) : _ ≤ q.nqSpace)
  exact ⟨q', _, by rw [nqRecv, h', map_some], hl, take_prefix _ _⟩

/-! ### Taking back at the tail -/

/-- `nq_unputc`: drop the last byte. -/
def nqUnputc : Option (Nqueue size) :=
  if h : 0 < q.nqLen then
    some {
      nqLen := q.nqLen - 1
      nqRptr := q.nqRptr
      nqWptr := if q.nqWptr = 0 then size - 1 else q.nqWptr - 1
      data := q.data
      len_le := by
        have := q.len_le
        omega
      rptr_lt := q.rptr_lt
      wptr_eq := by
        have hr := q.rptr_lt
        have hl := q.len_le
        have hwe := q.wptr_eq
        simp only [ringPos] at hwe ⊢
        split_ifs at hwe ⊢ <;> omega }
  else none

theorem nqUnputc_eq_some {q : Nqueue size} (h : q.toList ≠ []) :
    ∃ q', q.nqUnputc = some q' ∧ q'.toList = q.toList.dropLast ∧ q'.nqRptr = q.nqRptr := by
  have hlen : 0 < q.nqLen := by
    rw [← q.length_toList]
    exact length_pos_iff.2 h
  rw [nqUnputc, dif_pos hlen]
  refine ⟨_, rfl, ?_, rfl⟩
  refine ext_getElem? fun i ↦ ?_
  rw [List.getElem?_dropLast, length_toList]
  by_cases hi : i < q.nqLen - 1
  · rw [if_pos hi, getElem?_toList _ hi, q.getElem?_toList (by omega)]
  · rw [if_neg hi, List.getElem?_eq_none]
    rw [length_toList]
    exact Nat.not_lt.1 hi

/-! ### The queue as a C string -/

/-- The bytes from the read pointer (`nq_rptr`) up to the first NUL, as a C string function
reads them: straight on in memory, without wrapping. -/
def nqString : Bytes :=
  ((List.range (size - q.nqRptr)).map fun i ↦ q.data (q.nqRptr + i)).takeWhile (· ≠ 0)

/-- A queue that starts at the beginning of its ring and holds a NUL reads as the bytes before
the first NUL. -/
theorem nqString_eq {q : Nqueue size} (hr : q.nqRptr = 0) {l r : Bytes}
    (hq : q.toList = l ++ 0 :: r) (hl : 0 ∉ l) : q.nqString = l := by
  obtain ⟨rest, hrest⟩ : ∃ rest, (List.range (size - q.nqRptr)).map
      (fun i ↦ q.data (q.nqRptr + i)) = q.toList ++ rest := by
    have hprefix : q.toList <+: (List.range (size - q.nqRptr)).map
        (fun i ↦ q.data (q.nqRptr + i)) := by
      rw [prefix_iff_getElem?]
      intro i hi
      have hlen : i < q.nqLen := by simpa using hi
      have hlt : i < size := Nat.lt_of_lt_of_le hlen q.len_le
      have hget := q.getElem?_toList hlen
      rw [hr, Nat.zero_add, ringPos_of_lt hlt, List.getElem?_eq_getElem hi] at hget
      rw [some.inj hget, hr]
      simp [hlt]
    exact ⟨_, hprefix.choose_spec.symm⟩
  rw [nqString, hrest, hq, append_assoc, takeWhile_append_of_pos, cons_append,
    takeWhile_cons_of_neg (by simp), append_nil]
  intro c hc
  simpa using fun h0 : c = 0 ↦ hl (h0 ▸ hc)

end Nqueue

end Lpmud
