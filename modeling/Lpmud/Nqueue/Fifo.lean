import Mathlib.Data.List.DropRight
import Lpmud.Lib.Deque
import Lpmud.Nqueue.Block

/-!
# Network queues are queues

A queue in memory that shows a ring of `Nqueue` (`Nqueue.block`) goes on to do so whatever function
is called, and each function does to it what its counterpart does to the ring. The ring has its
bytes as a list, so whole sequences of calls are histories of a queue with two ends
(`NqBlock.run_eq_some`), as long as nobody reads from an empty queue or writes more than there is
room for.

A queue of no size has no ring. It is empty and full at the same time, and nothing can be done to
it but to append nothing and to send what is in it.
-/

namespace Lpmud

open List Option

theorem ushort_of_eq {z : ℤ} {n : ℕ} (hz : z = n) (hn : n < 65536) : ushort z = n := by
  rw [ushort]
  omega

theorem ringPos_lt {size k : ℕ} (h : k < 2 * size) : ringPos size k < size := by
  rw [ringPos]
  split <;> omega

theorem mod_eq_ringPos {size k : ℕ} (h : k < 2 * size) : k % size = ringPos size k := by
  rw [ringPos]
  split
  next hk => exact Nat.mod_eq_of_lt hk
  next hk => rw [Nat.mod_eq_sub_mod (Nat.not_lt.1 hk), Nat.mod_eq_of_lt (by omega)]

namespace Nqueue

variable {size : ℕ}

/-- A ring in memory. -/
def block (q : Nqueue size) : NqBlock where
  nqSize := size
  nqLen := q.nqLen
  nqRptr := q.nqRptr
  nqWptr := q.nqWptr
  bytes := (List.range size).map q.data

@[simp]
theorem length_bytes_block (q : Nqueue size) : q.block.bytes.length = size := by
  simp [block]

theorem getElem?_bytes_block (q : Nqueue size) {j : ℕ} (h : j < size) :
    q.block.bytes[j]? = some (q.data j) := by
  simp [block, h]

theorem block_avail (q : Nqueue size) (hsize : size < 65536) : q.block.nqAvail = q.nqAvail := by
  have hl := q.len_le
  show ushort (size - q.nqLen) = size - q.nqLen
  exact ushort_of_eq (by omega) (by omega)

theorem block_space (q : Nqueue size) : q.block.space = q.nqSpace := by
  have hw := q.wptr_lt
  simp only [NqBlock.space, block, nqSpace]
  split_ifs <;> omega

/-! ### One function after the other -/

theorem block_passed (q : Nqueue size) (hsize : size < 65536) {k : ℕ} (hlen : k ≤ q.nqLen)
    (hend : q.nqRptr + k ≤ size) : q.block.passed k = (q.advance k hlen hend).block := by
  have hl := q.len_le
  have hr : ushort ((q.nqRptr : ℤ) + k) = q.nqRptr + k := ushort_of_eq (by omega) (by omega)
  have hn : ushort ((q.nqLen : ℤ) - k) = q.nqLen - k := ushort_of_eq (by omega) (by omega)
  simp only [NqBlock.passed, block, advance, hr, hn]

theorem block_load (q : Nqueue size) {k : ℕ} (hlen : k ≤ q.nqLen) (hend : q.nqRptr + k ≤ size) :
    q.block.load q.nqRptr k = some (q.toList.take k) := by
  rw [NqBlock.load, if_pos (by rwa [length_bytes_block]), take_toList q hlen hend]
  refine congrArg some (ext_getElem? fun i ↦ ?_)
  rw [List.getElem?_take, List.getElem?_drop]
  rcases Nat.lt_or_ge i k with hi | hi
  · rw [if_pos hi, q.getElem?_bytes_block (by omega)]
    simp [hi]
  · rw [if_neg (by omega), List.getElem?_eq_none (by simpa using hi)]

theorem map_range_store (f : ℕ → UInt8) {i : ℕ} {cs : Bytes} (h : i + cs.length ≤ size) :
    ((List.range size).map f).take i ++ cs ++ ((List.range size).map f).drop (i + cs.length) =
      (List.range size).map fun j ↦
        if i ≤ j ∧ j < i + cs.length then cs.getD (j - i) 0 else f j := by
  refine ext_getElem? fun j ↦ ?_
  rcases Nat.lt_or_ge j size with hj | hj
  · rw [List.getElem?_map, List.getElem?_range hj, map_some]
    -- What is copied lies between the old bytes of both sides.
    rcases Nat.lt_or_ge j i with hji | hji
    · rw [if_neg (by omega), append_assoc, List.getElem?_append_left (by simp; omega)]
      simp [hji, hj]
    · rcases Nat.lt_or_ge j (i + cs.length) with hjc | hjc
      · rw [if_pos ⟨hji, hjc⟩, append_assoc, List.getElem?_append_right (by simp; omega),
          List.getElem?_append_left (by simp; omega)]
        simp only [length_take, length_map, length_range]
        rw [Nat.min_eq_left (by omega), getD_eq_getElem?_getD,
          List.getElem?_eq_getElem (by omega), getD_some]
      · rw [if_neg (by omega), List.getElem?_append_right (by simp; omega), List.getElem?_drop]
        simp only [length_append, length_take, length_map, length_range]
        rw [Nat.min_eq_left (by omega), Nat.add_sub_cancel' (by omega)]
        simp [hj]
  · rw [List.getElem?_eq_none (by simp; omega), List.getElem?_eq_none (by simpa using hj)]

theorem block_store_filled {q q' : Nqueue size} (hsize : size < 65536) {cs : Bytes}
    (h : q.nqMemcpy cs = some q') :
    (q.block.store q.nqWptr cs).map (·.filled cs.length) = some q'.block := by
  obtain ⟨⟨hlen, hcs⟩, hq'⟩ := dite_none_right_eq_some.1 h
  obtain rfl := some.inj hq'
  have hs := q.nqSpace_le_avail hlen
  have hw := q.wptr_add_space_le
  rw [nqAvail] at hs
  have hwp : ushort ((q.nqWptr : ℤ) + cs.length) = q.nqWptr + cs.length :=
    ushort_of_eq (by omega) (by omega)
  have hl : ushort ((q.nqLen : ℤ) + cs.length) = q.nqLen + cs.length :=
    ushort_of_eq (by omega) (by omega)
  have hroom : q.nqWptr + cs.length ≤ size := by omega
  rw [NqBlock.store, if_pos (by rwa [length_bytes_block]), map_some]
  simp only [NqBlock.filled, block, hwp, hl, map_range_store q.data hroom]

theorem block_putc {q q' : Nqueue size} (hsize : size < 65536) {c : UInt8}
    (h : q.nqPutc c = some q') : q.block.nqPutc c = some q'.block :=
  block_store_filled hsize h

theorem block_putsLoop (hsize : size < 65536) (n : ℕ) :
    ∀ {q q' : Nqueue size} {cp : Bytes}, nqPutsLoop n q cp = some q' →
      NqBlock.nqPutsLoop n q.block cp = some q'.block := by
  induction n with
  | zero =>
    intro q q' cp h
    rcases cp with - | ⟨c, cs⟩
    · obtain rfl := some.inj h
      rfl
    · cases h
  | succ n ih =>
    intro q q' cp h
    rcases cp with - | ⟨c, cs⟩
    · obtain rfl := some.inj h
      rfl
    · obtain ⟨q₁, h₁, h⟩ := bind_eq_some_iff.1 h
      have hsz : (min (q.nqSpace : ℤ) (c :: cs).length).toNat = min q.nqSpace (c :: cs).length := by
        omega
      have htake : (c :: cs).take (min q.nqSpace (c :: cs).length) = (c :: cs).take q.nqSpace := by
        rw [← take_take, take_length]
      have hdrop : (c :: cs).drop (min q.nqSpace (c :: cs).length) = (c :: cs).drop q.nqSpace := by
        rcases Nat.le_total q.nqSpace (c :: cs).length with hle | hle
        · rw [Nat.min_eq_left hle]
        · rw [Nat.min_eq_right hle, drop_length, drop_eq_nil_of_le hle]
      have hst := block_store_filled hsize h₁
      rw [length_take] at hst
      obtain ⟨nq₁, hnq₁, hf⟩ := map_eq_some_iff.1 hst
      rw [NqBlock.nqPutsLoop, block_space, hsz, htake, hdrop]
      · show (q.block.store q.nqWptr _).bind _ = _
        rw [hnq₁, bind_some, hf]
        exact ih h
      · exact cons_ne_nil _ _

theorem block_puts {q q' : Nqueue size} (hsize : size < 65536) {cp : CString}
    (h : q.nqPuts cp.bytes = some q') : q.block.nqPuts cp = some q'.block :=
  block_putsLoop hsize _ h

theorem block_unputc {q q' : Nqueue size} (hsize : size < 65536) (h : q.nqUnputc = some q') :
    q.block.nqUnputc = q'.block := by
  obtain ⟨hlen, hq'⟩ := dite_none_right_eq_some.1 h
  obtain rfl := some.inj hq'
  have hl := q.len_le
  have hn : ushort ((q.nqLen : ℤ) - 1) = q.nqLen - 1 := ushort_of_eq (by omega) (by omega)
  have hs : ushort ((size : ℤ) - 1) = size - 1 := ushort_of_eq (by omega) (by omega)
  simp only [NqBlock.nqUnputc, block, hn, hs]

theorem block_ungetc {q q' : Nqueue size} (hsize : size < 65536) {c : UInt8}
    (h : q.nqUngetc c = some q') : q.block.nqUngetc c = some q'.block := by
  obtain ⟨hlen, hq'⟩ := dite_none_right_eq_some.1 h
  obtain rfl := some.inj hq'
  have hr := q.rptr_lt
  have hn : ushort ((q.nqLen : ℤ) + 1) = q.nqLen + 1 := ushort_of_eq (by omega) (by omega)
  have hs : ushort ((size : ℤ) - 1) = size - 1 := ushort_of_eq (by omega) (by omega)
  have hlt : (if q.nqRptr = 0 then size - 1 else q.nqRptr - 1) < size := by
    split <;> omega
  simp only [NqBlock.nqUngetc, NqBlock.store, block, hn, hs, length_map, length_range,
    length_singleton]
  generalize (if q.nqRptr = 0 then size - 1 else q.nqRptr - 1) = r at hlt ⊢
  have hstore := map_range_store q.data (show r + [c].length ≤ size from hlt)
  rw [length_singleton] at hstore
  rw [if_pos (Nat.succ_le_of_lt hlt), hstore]
  simp only [some.injEq, NqBlock.mk.injEq, true_and]
  refine map_congr_left fun j _ ↦ ?_
  rcases Nat.lt_trichotomy j r with hj | rfl | hj
  · rw [if_neg (by omega), if_neg (by omega)]
  · rw [if_pos ⟨le_rfl, Nat.lt_succ_self j⟩, if_pos rfl, Nat.sub_self, getD_cons_zero]
  · rw [if_neg (by omega), if_neg (by omega)]

theorem block_recv_failed (q : Nqueue size) (uip : Option UInt32) :
    q.block.nqRecv uip .failed = some (-1, uip, q.block) := by
  rw [NqBlock.nqRecv, block_space, Int.toNat_natCast, length_bytes_block]
  exact if_pos q.wptr_add_space_le

theorem block_recv_received (q : Nqueue size) (uip : Option UInt32) (bs : Bytes) :
    q.block.nqRecv uip (.received bs) =
      if bs.take q.nqSpace = [] then some (0, uip, q.block)
      else (q.block.store q.nqWptr (bs.take q.nqSpace)).map fun nq' ↦
        (((bs.take q.nqSpace).length : ℤ), NqBlock.counted uip (bs.take q.nqSpace).length,
          nq'.filled (bs.take q.nqSpace).length) := by
  rw [NqBlock.nqRecv, block_space, Int.toNat_natCast, length_bytes_block]
  exact if_pos q.wptr_add_space_le

end Nqueue

namespace NqBlock

/-! ### What a queue in memory holds -/

/-- The bytes of the queue, from the read pointer on. -/
def contents (nq : NqBlock) : Bytes :=
  (List.range nq.nqLen).map fun i ↦ nq.bytes.getD ((nq.nqRptr + i) % nq.nqSize) 0

/-- The queue has its bytes, and the indices are among them. -/
structure Inside (nq : NqBlock) : Prop where
  length_eq : nq.bytes.length = nq.nqSize
  len_le : nq.nqLen ≤ nq.nqSize
  rptr_lt : 0 < nq.nqSize → nq.nqRptr < nq.nqSize
  wptr_lt : 0 < nq.nqSize → nq.nqWptr < nq.nqSize

/-- A queue of no size. -/
def void : NqBlock where
  nqSize := 0
  nqLen := 0
  nqRptr := 0
  nqWptr := 0
  bytes := []

/-- The queue shows a ring with these bytes, or it has no size. -/
inductive Holds : NqBlock → Bytes → Prop
  | ring {size : ℕ} (hsize : size < 65536) (q : Nqueue size) : Holds q.block q.toList
  | void : Holds void []

theorem Holds.of_eq {size : ℕ} (hsize : size < 65536) {q : Nqueue size} {d : Bytes}
    (h : q.toList = d) : Holds q.block d :=
  h ▸ .ring hsize q

theorem Holds.contents_eq {nq : NqBlock} {d : Bytes} (h : Holds nq d) : nq.contents = d := by
  cases h with
  | void => rfl
  | @ring size hsize q =>
    refine map_congr_left fun i hi ↦ ?_
    have hlt : i < q.nqLen := mem_range.1 hi
    have hr := q.rptr_lt
    have hl := q.len_le
    have hpos : q.nqRptr + i < 2 * size := by omega
    show q.block.bytes.getD ((q.nqRptr + i) % size) 0 = _
    rw [mod_eq_ringPos hpos, getD_eq_getElem?_getD, q.getElem?_bytes_block (ringPos_lt hpos),
      getD_some]

theorem Holds.inside {nq : NqBlock} {d : Bytes} (h : Holds nq d) : nq.Inside := by
  cases h with
  | void => exact ⟨rfl, le_rfl, id, id⟩
  | ring _ q => exact ⟨q.length_bytes_block, q.len_le, fun _ ↦ q.rptr_lt, fun _ ↦ q.wptr_lt⟩

theorem holds_nqAlloc {size : ℕ} {bytes : Bytes} (hsize : size < 65536)
    (hbytes : bytes.length = size) : Holds (nqAlloc size bytes) [] := by
  rcases Nat.eq_zero_or_pos size with rfl | hpos
  · rw [length_eq_zero_iff.1 hbytes]
    exact .void
  · let q : Nqueue size := { Nqueue.nqAlloc size hpos with data := fun j ↦ bytes.getD j 0 }
    have hq : nqAlloc size bytes = q.block := by
      have hdata : bytes = (List.range size).map fun j ↦ bytes.getD j 0 := by
        refine ext_getElem (by simpa using hbytes) fun j h₁ h₂ ↦ ?_
        rw [getElem_map, getElem_range, getD_eq_getElem?_getD,
          List.getElem?_eq_getElem h₁, getD_some]
      show NqBlock.mk _ _ _ _ _ = NqBlock.mk _ _ _ _ _
      rw [← hdata]
      rfl
    rw [hq]
    exact .ring hsize q

theorem Holds.nqSendLoop (n : ℕ) : ∀ {nq : NqBlock} {d : Bytes}, Holds nq d → nq.nqLen ≤ n →
    ∀ (answers : ℕ → SendResult) (cc : ℤ) (uip : Option UInt32),
      ∃ s d', NqBlock.nqSendLoop n nq answers cc uip = some s ∧ d = s.out ++ d' ∧
        Holds s.nq d' := by
  induction n with
  | zero =>
    intro nq d h hn answers cc uip
    rw [NqBlock.nqSendLoop, if_pos (Nat.le_zero.1 hn)]
    exact ⟨_, d, rfl, rfl, h⟩
  | succ n ih =>
    intro nq d h hn answers cc uip
    rw [NqBlock.nqSendLoop]
    split_ifs with hlen
    · exact ⟨_, d, rfl, rfl, h⟩
    · cases h with
      | void => exact absurd rfl hlen
      | @ring size hsize q =>
        have hl : 0 < q.nqLen := Nat.pos_of_ne_zero hlen
        have hr := q.rptr_lt
        -- Something is offered, so a `send()` that takes all of it shortens the queue.
        obtain ⟨len, hmin⟩ : ∃ len, min (size - q.nqRptr) q.nqLen = len := ⟨_, rfl⟩
        have hoff : (min (q.block.nqSize - q.block.nqRptr : ℤ) q.block.nqLen).toNat = len := by
          show (min ((size : ℤ) - q.nqRptr) q.nqLen).toNat = len
          omega
        have hpass : ∀ k ≤ len, ∃ q' : Nqueue size, q.block.passed k = q'.block ∧
            q'.toList = q.toList.drop k ∧ q'.nqLen = q.nqLen - k := fun k hk ↦
          ⟨q.advance k (by omega) (by omega), q.block_passed hsize _ _, q.toList_advance _ _, rfl⟩
        dsimp only
        rw [hoff]
        show ∃ s d', (q.block.load q.nqRptr len).bind _ = some s ∧ _
        rw [q.block_load (by omega) (by omega), bind_some]
        rcases answers 0 with k | fatal
        · have hk : min k len ≤ len := Nat.min_le_right _ _
          have hout : (q.toList.take len).take (min k len) = q.toList.take (min k len) := by
            rw [take_take, Nat.min_eq_left hk]
          obtain ⟨q', hq', hd, hq'l⟩ := hpass _ hk
          dsimp only
          rw [hout]
          rcases Nat.eq_zero_or_pos (min k len) with h0 | h0
          · rw [if_pos (by omega), h0]
            exact ⟨_, q.toList, rfl, rfl, .ring hsize q⟩
          · rw [if_pos h0, if_pos h0, hq']
            split_ifs with hall
            · exact ⟨_, q'.toList, rfl, by rw [hd, take_append_drop], .ring hsize q'⟩
            · obtain ⟨s, d', hs, hd', hs'⟩ := ih (.ring hsize q')
                (show q'.nqLen ≤ n by have : q.nqLen ≤ n + 1 := hn; omega)
                (fun i ↦ answers (i + 1)) (min k len : ℕ) (NqBlock.counted uip (min k len))
              refine ⟨{ s with out := q.toList.take (min k len) ++ s.out }, d', ?_, ?_, hs'⟩
              · rw [hs]
                rfl
              · rw [append_assoc, ← hd', hd, take_append_drop]
        · exact ⟨_, _, rfl, rfl, .ring hsize q⟩

/-! ### Sequences of calls -/

/-- A call of one of the functions, with what the socket will answer. -/
inductive Call where
  | getc
  | ungetc (c : UInt8)
  | putc (c : UInt8)
  | puts (cp : CString)
  | unputc
  | recv (uip : Option UInt32) (r : RecvResult)
  | send (uip : Option UInt32) (answers : ℕ → SendResult)

/-- What the caller is assumed to have determined. -/
def Ready (nq : NqBlock) : Call → Prop
  | .getc | .unputc => nq.nqEmpty = false
  | .ungetc _ | .putc _ | .recv _ _ => nq.nqFull = false
  | .puts cp => cp.bytes.length ≤ nq.nqAvail
  | .send _ _ => True

instance (nq : NqBlock) (call : Call) : Decidable (nq.Ready call) := by
  cases call <;> unfold Ready <;> infer_instance

/-- A call: which bytes go in or come out, and the queue afterwards. -/
def exec (nq : NqBlock) : Call → Option (DequeEvent UInt8 × NqBlock)
  | .getc => nq.nqGetc.map fun (c, nq') ↦ (.take [c], nq')
  | .ungetc c => (nq.nqUngetc c).map fun nq' ↦ (.putBack c, nq')
  | .putc c => (nq.nqPutc c).map fun nq' ↦ (.put [c], nq')
  | .puts cp => (nq.nqPuts cp).map fun nq' ↦ (.put cp.bytes, nq')
  | .unputc => some (.takeBack, nq.nqUnputc)
  | .recv uip .failed => (nq.nqRecv uip .failed).map fun (_, _, nq') ↦ (.put [], nq')
  | .recv uip (.received bs) =>
    (nq.nqRecv uip (.received bs)).map fun (cc, _, nq') ↦ (.put (bs.take cc.toNat), nq')
  | .send uip answers => (nq.nqSend uip answers).map fun s ↦ (.take s.out, s.nq)

/-- One call after the other. -/
def run : NqBlock → List Call → Option (List (DequeEvent UInt8) × NqBlock)
  | nq, [] => some ([], nq)
  | nq, call :: calls => do
    let (e, nq₁) ← nq.exec call
    let (es, nq₂) ← run nq₁ calls
    some (e :: es, nq₂)

/-- Each caller has determined what it is assumed to. -/
def Disciplined : NqBlock → List Call → Prop
  | _, [] => True
  | nq, call :: calls =>
    nq.Ready call ∧
      match nq.exec call with
      | none => True
      | some (_, nq') => Disciplined nq' calls

instance decidableDisciplined : ∀ (nq : NqBlock) (calls : List Call),
    Decidable (nq.Disciplined calls)
  | _, [] => .isTrue trivial
  | nq, call :: calls =>
    have : Decidable (match nq.exec call with
        | none => True
        | some (_, nq') => nq'.Disciplined calls) :=
      match nq.exec call with
      | none => .isTrue trivial
      | some (_, nq') => decidableDisciplined nq' calls
    inferInstanceAs (Decidable (_ ∧ _))

theorem exec_ring {size : ℕ} (hsize : size < 65536) {q : Nqueue size} {call : Call}
    (hready : q.block.Ready call) :
    ∃ e nq' d', q.block.exec call = some (e, nq') ∧ Deque.step q.toList e = some d' ∧
      Holds nq' d' := by
  cases call with
  | getc =>
    have hlen : 0 < q.nqLen := Nat.pos_of_ne_zero (of_decide_eq_false hready)
    have hne : q.toList ≠ [] := ne_nil_of_length_pos (by rwa [q.length_toList])
    obtain ⟨c, l, hcl⟩ := exists_cons_of_ne_nil hne
    obtain ⟨q', hq', hl⟩ := Nqueue.nqGetc_eq_some hcl
    rw [Nqueue.nqGetc, dif_pos hlen] at hq'
    obtain ⟨rfl, rfl⟩ := Prod.mk.inj (some.inj hq')
    refine ⟨.take [q.data q.nqRptr], (q.advance 1 hlen q.rptr_lt).block, l, ?_, ?_,
      .of_eq hsize hl⟩
    · rw [exec, nqGetc]
      show ((q.block.bytes[q.nqRptr]?).map _).map _ = _
      rw [q.getElem?_bytes_block q.rptr_lt, ← q.block_passed hsize hlen q.rptr_lt]
      rfl
    · rw [hcl, ← singleton_append, Deque.step_take_append]
  | ungetc c =>
    have hlen : q.nqLen < size :=
      Nat.lt_of_le_of_ne q.len_le (of_decide_eq_false hready)
    obtain ⟨q', hq', hd⟩ := Nqueue.nqUngetc_eq_some (c := c) hlen
    refine ⟨.putBack c, q'.block, c :: q.toList, ?_, rfl, .of_eq hsize hd⟩
    rw [exec, q.block_ungetc hsize hq', map_some]
  | putc c =>
    have hlen : q.nqLen < size :=
      Nat.lt_of_le_of_ne q.len_le (of_decide_eq_false hready)
    obtain ⟨q', hq', hd, -⟩ := Nqueue.nqPutc_eq_some (c := c) hlen
    refine ⟨.put [c], q'.block, q.toList ++ [c], ?_, rfl, .of_eq hsize hd⟩
    rw [exec, Nqueue.block_putc hsize hq', map_some]
  | puts cp =>
    have havail : cp.bytes.length ≤ q.nqAvail := q.block_avail hsize ▸ hready
    obtain ⟨q', hq', hd, -⟩ := Nqueue.nqPuts_eq_some havail
    refine ⟨.put cp.bytes, q'.block, q.toList ++ cp.bytes, ?_, rfl, .of_eq hsize hd⟩
    rw [exec, Nqueue.block_puts hsize hq', map_some]
  | unputc =>
    have hne : q.toList ≠ [] := fun h ↦
      of_decide_eq_false hready (by rw [← length_eq_zero_iff, q.length_toList] at h; exact h)
    obtain ⟨q', hq', hd, -⟩ := Nqueue.nqUnputc_eq_some hne
    refine ⟨.takeBack, q'.block, q.toList.dropLast, ?_, if_neg hne, .of_eq hsize hd⟩
    rw [exec, Nqueue.block_unputc hsize hq']
  | recv uip r =>
    have hlen : q.nqLen < size :=
      Nat.lt_of_le_of_ne q.len_le (of_decide_eq_false hready)
    rcases r with - | bs
    · refine ⟨.put [], q.block, q.toList ++ [], ?_, rfl, .of_eq hsize (append_nil _).symm⟩
      rw [exec, q.block_recv_failed, map_some]
    · obtain ⟨cs, hcs⟩ : ∃ cs, bs.take q.nqSpace = cs := ⟨_, rfl⟩
      rw [exec, q.block_recv_received, hcs]
      split_ifs with hnil
      · exact ⟨.put [], q.block, q.toList ++ [], rfl, rfl,
          .of_eq hsize (append_nil _).symm⟩
      · -- As many bytes have arrived as the function returns.
        obtain ⟨q', hq', hd, -⟩ :=
          Nqueue.nqMemcpy_eq_some hlen
            (show cs.length ≤ q.nqSpace from hcs ▸ length_take_le _ bs)
        obtain ⟨nq₁, hnq₁, hf⟩ := map_eq_some_iff.1 (Nqueue.block_store_filled hsize hq')
        have htake : bs.take cs.length = cs := by
          rw [← hcs, length_take, ← take_take, take_length]
        refine ⟨.put cs, q'.block, q.toList ++ cs, ?_, rfl, .of_eq hsize hd⟩
        rw [hnq₁, map_some, map_some, hf]
        show some (DequeEvent.put (bs.take cs.length), _) = _
        rw [htake]
  | send uip answers =>
    obtain ⟨s, d', hs, hd, h'⟩ := Holds.nqSendLoop q.nqLen (.ring hsize q) le_rfl answers 0 uip
    refine ⟨.take s.out, s.nq, d', ?_, by rw [hd, Deque.step_take_append], h'⟩
    show (NqBlock.nqSendLoop q.nqLen q.block answers 0 uip).map _ = _
    rw [hs, map_some]

theorem exec_void {call : Call} (hready : void.Ready call) :
    ∃ e, void.exec call = some (e, void) ∧ Deque.step [] e = some [] := by
  cases call with
  | getc => exact nomatch (show true = false from hready)
  | ungetc c => exact nomatch (show true = false from hready)
  | putc c => exact nomatch (show true = false from hready)
  | puts cp =>
    have hcp : cp.bytes = [] := length_eq_zero_iff.1 (Nat.le_zero.1 hready)
    exact ⟨.put [], by rw [exec, nqPuts, hcp]; rfl, rfl⟩
  | unputc => exact nomatch (show true = false from hready)
  | recv uip r => exact nomatch (show true = false from hready)
  | send uip answers => exact ⟨.take [], rfl, rfl⟩

theorem Holds.exec {nq : NqBlock} {d : Bytes} (h : Holds nq d) {call : Call}
    (hready : nq.Ready call) :
    ∃ e nq' d', nq.exec call = some (e, nq') ∧ Deque.step d e = some d' ∧ Holds nq' d' := by
  cases h with
  | ring hsize q => exact exec_ring hsize hready
  | void =>
    obtain ⟨e, he, hd⟩ := exec_void hready
    exact ⟨e, NqBlock.void, [], he, hd, .void⟩

theorem Holds.run {nq : NqBlock} {d : Bytes} (h : Holds nq d) {calls : List Call}
    (hcalls : nq.Disciplined calls) :
    ∃ es nq' d', nq.run calls = some (es, nq') ∧ Deque.run d es = some d' ∧ Holds nq' d' := by
  induction calls generalizing nq d with
  | nil => exact ⟨[], nq, d, rfl, rfl, h⟩
  | cons call calls ih =>
    obtain ⟨hready, hrest⟩ := hcalls
    obtain ⟨e, nq₁, d₁, he, hd₁, h₁⟩ := h.exec hready
    rw [he] at hrest
    obtain ⟨es, nq₂, d₂, hes, hd₂, h₂⟩ := ih h₁ hrest
    refine ⟨e :: es, nq₂, d₂, ?_, ?_, h₂⟩
    · rw [NqBlock.run, he]
      show (NqBlock.run nq₁ calls).bind _ = _
      rw [hes]
      rfl
    · rw [Deque.run_cons hd₁, hd₂]

/-- **A network queue is a queue with two ends.** From its allocation on, whatever functions are
called, as long as nobody reads from an empty queue or writes more than there is room for: no
function accesses a byte outside, the bytes that go in and come out are the history of such a queue,
and the bytes that are left in it are its contents. -/
theorem run_eq_some {size : ℕ} {bytes : Bytes} {calls : List Call} (hsize : size < 65536)
    (hbytes : bytes.length = size) (hcalls : (nqAlloc size bytes).Disciplined calls) :
    ∃ es nq, (nqAlloc size bytes).run calls = some (es, nq) ∧
      Deque.run [] es = some nq.contents ∧ nq.Inside := by
  obtain ⟨es, nq, d, hrun, hd, hnq⟩ := (holds_nqAlloc hsize hbytes).run hcalls
  exact ⟨es, nq, hrun, by rw [hd, hnq.contents_eq], hnq.inside⟩

/-- The calls go round the end of a queue of three bytes, in both directions. -/
theorem run_eq_some_round : ∃ es nq,
    (nqAlloc 3 [7, 7, 7]).run [.putc 1, .getc, .puts ⟨[2, 3, 4], by decide⟩, .getc, .unputc,
      .ungetc 5, .send none fun _ ↦ .sent 1] = some (es, nq) ∧
      Deque.run [] es = some nq.contents ∧ nq.Inside :=
  run_eq_some (by decide) (by decide) (by decide)

end NqBlock

end Lpmud
