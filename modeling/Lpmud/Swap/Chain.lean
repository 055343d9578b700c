import Lpmud.Svalue
import Lpmud.Swap.Blocks
import Mathlib.Data.List.Nodup

/-!
# Chains of blocks

The buffered input and output of `swap.c`: a byte string is written to a chain of blocks, each
with the number of the next one in front of its data, and read back from it, whereby the blocks
that have been read are freed.

`Holds` says that a chain of blocks holds a byte string. The loops of `swap_write` and
`swap_read` are followed one round at a time (`swapWriteLoop_spec`, `swapReadLoop_spec`).
-/

namespace Lpmud.Swap

open Function List

abbrev BUFFER_DATA_SIZE : ℕ := 256

/-- The size of the link in front of the data, `sizeof(u_int)`. -/
abbrev LINK_SIZE : ℕ := 4

/-- The data of one block. -/
abbrev DATA : ℕ := BUFFER_DATA_SIZE - LINK_SIZE

/-- A block: the number of the next block (`addr[0]`) and the data behind it. -/
structure Block where
  addr : ℕ
  data : Bytes
  length_data : data.length = DATA

/-- A block of zeros. -/
def Block.zero : Block where
  addr := 0
  data := List.replicate DATA 0
  length_data := length_replicate

/-- The swap file: its blocks, and how many it has. A block that was skipped is zero. -/
structure File where
  blocks : ℕ → Block
  size : ℕ

/-- `bread`; reading behind the end of the file is fatal. -/
def bread (blkno : ℕ) (f : File) : Except Fault Block :=
  if blkno < f.size then .ok (f.blocks blkno) else .error .fatal

def bwrite (blkno : ℕ) (u : Block) (f : File) : File where
  blocks := update f.blocks blkno u
  size := max f.size (blkno + 1)

/-- A buffer (`struct buffer`). -/
structure Buffer where
  bufnum : ℕ
  offset : ℕ
  u : Block
  le_offset : LINK_SIZE ≤ offset
  offset_le : offset ≤ BUFFER_DATA_SIZE

/-- A buffer at the beginning of a block. -/
def Buffer.start (bufnum : ℕ) (u : Block) : Buffer :=
  ⟨bufnum, LINK_SIZE, u, le_rfl, by decide⟩

/-- How many bytes of data lie before the offset. -/
def Buffer.pos (bp : Buffer) : ℕ := bp.offset - LINK_SIZE

/-- How many bytes there are from the offset to the end of the block. -/
def Buffer.room (bp : Buffer) : ℕ := BUFFER_DATA_SIZE - bp.offset

/-! ### Writing -/

def startWrite (blkno : ℕ) (a : Alloc) : Except Fault (Buffer × Alloc) :=
  if blkno ≠ 0 then .error .fatal
  else a.allocSwap.map fun (b, a') ↦ (.start b .zero, a')

/-- The beginning of a round of `swap_write`: a buffer that is full goes to the file, linked to a
new block. -/
def writeNext (a : Alloc) (f : File) (bp : Buffer) : Except Fault (Alloc × File × Buffer) :=
  if bp.room = 0 then
    if bp.u.addr ≠ 0 then .error .fatal
    else a.allocSwap.map fun (b, a') ↦
      (a', bwrite bp.bufnum { bp.u with addr := b } f, .start b .zero)
  else .ok (a, f, bp)

/-- The `memcpy` of `swap_write`, as much as fits. -/
def Buffer.put (bp : Buffer) (bs : Bytes) : Buffer where
  bufnum := bp.bufnum
  offset := bp.offset + min bp.room bs.length
  u :=
    { addr := bp.u.addr
      data := bp.u.data.take bp.pos ++ bs.take bp.room ++
        bp.u.data.drop (bp.pos + min bp.room bs.length)
      length_data := by
        have h₁ := bp.u.length_data
        have h₂ := bp.le_offset
        have h₃ := bp.offset_le
        simp only [pos, room, length_append, length_take, length_drop,
          DATA, BUFFER_DATA_SIZE, LINK_SIZE] at *
        omega }
  le_offset := bp.le_offset.trans (Nat.le_add_right _ _)
  offset_le := by
    have h := bp.offset_le
    rw [room]
    omega

/-- The loop of `swap_write`. Every round writes a byte at least. -/
def swapWriteLoop : ℕ → Alloc → File → Buffer → Bytes →
    Except Fault (Alloc × File × Buffer)
  | _, a, f, bp, [] => .ok (a, f, bp)
  | 0, _, _, _, _ :: _ => .error .fatal
  | n + 1, a, f, bp, b :: bs =>
    (writeNext a f bp).bind fun (a', f', bp') ↦
      swapWriteLoop n a' f' (bp'.put (b :: bs)) ((b :: bs).drop bp'.room)

def swapWrite (a : Alloc) (f : File) (bp : Buffer) (bs : Bytes) :
    Except Fault (Alloc × File × Buffer) :=
  swapWriteLoop bs.length a f bp bs

def endWrite (bp : Buffer) (f : File) : Except Fault File :=
  if bp.u.addr ≠ 0 then .error .fatal else .ok (bwrite bp.bufnum bp.u f)

/-! ### Reading -/

def startRead (blkno : ℕ) (f : File) : Except Fault Buffer :=
  if blkno = 0 then .error .fatal else (bread blkno f).map (.start blkno)

/-- The beginning of a round of `swap_read`: a buffer that is used up is freed, and the next
block read. -/
def readNext (a : Alloc) (f : File) (bp : Buffer) : Except Fault (Alloc × Buffer) :=
  if bp.room = 0 then
    (a.freeSwap bp.bufnum).bind fun a' ↦
      if bp.u.addr = 0 then .error .fatal
      else (bread bp.u.addr f).map fun u ↦ (a', .start bp.u.addr u)
  else .ok (a, bp)

/-- The `memcpy` of `swap_read`: at most `len` bytes, as far as the block goes. -/
def Buffer.get (bp : Buffer) (len : ℕ) : Bytes :=
  (bp.u.data.drop bp.pos).take len

/-- Move the offset over what `get` reads. -/
def Buffer.skip (bp : Buffer) (len : ℕ) : Buffer where
  bufnum := bp.bufnum
  offset := bp.offset + min bp.room len
  u := bp.u
  le_offset := bp.le_offset.trans (Nat.le_add_right _ _)
  offset_le := by
    have h := bp.offset_le
    rw [room]
    omega

/-- The loop of `swap_read`. Every round reads a byte at least. -/
def swapReadLoop (f : File) : ℕ → Alloc → Buffer → ℕ →
    Except Fault (Alloc × Buffer × Bytes)
  | _, a, bp, 0 => .ok (a, bp, [])
  | 0, _, _, _ + 1 => .error .fatal
  | n + 1, a, bp, len + 1 =>
    (readNext a f bp).bind fun (a', bp') ↦
      (swapReadLoop f n a' (bp'.skip (len + 1)) (len + 1 - bp'.room)).map fun (a'', bp'', bs) ↦
        (a'', bp'', bp'.get (len + 1) ++ bs)

def swapRead (a : Alloc) (f : File) (bp : Buffer) (len : ℕ) :
    Except Fault (Alloc × Buffer × Bytes) :=
  swapReadLoop f len a bp len

def endRead (bp : Buffer) (a : Alloc) : Except Fault Alloc :=
  (a.freeSwap bp.bufnum).bind fun a' ↦ if bp.u.addr ≠ 0 then .error .fatal else .ok a'

/-! ### What a chain holds -/

/-- **A chain of blocks holds a byte string**: every block but the last one is full and linked to
the next one. -/
def Holds (f : File) : List ℕ → Bytes → Prop
  | [], _ => False
  | [b], bs => b < f.size ∧ (f.blocks b).addr = 0 ∧ bs.length ≤ DATA ∧
      bs = (f.blocks b).data.take bs.length
  | b :: b' :: chain, bs => b < f.size ∧ (f.blocks b).addr = b' ∧ DATA < bs.length ∧
      bs.take DATA = (f.blocks b).data ∧ Holds f (b' :: chain) (bs.drop DATA)

/-- A chain of full blocks, the last one linked to `next`, holds a byte string. -/
def Full (f : File) (next : ℕ) : List ℕ → Bytes → Prop
  | [], bs => bs = []
  | b :: chain, bs => b < f.size ∧ (f.blocks b).addr = chain.headD next ∧
      ∃ bs', bs = (f.blocks b).data ++ bs' ∧ Full f next chain bs'

theorem Holds.congr {f f' : File} : ∀ {chain : List ℕ} {bs : Bytes}, Holds f chain bs →
    (∀ b ∈ chain, f'.blocks b = f.blocks b) → f.size ≤ f'.size → Holds f' chain bs := by
  intro chain
  induction chain with
  | nil => exact fun h _ _ ↦ h
  | cons b chain ih =>
    intro bs h hblocks hsize
    have hb := hblocks b mem_cons_self
    rcases chain with - | ⟨b', chain⟩
    · obtain ⟨hlt, h⟩ := h
      exact ⟨hlt.trans_le hsize, by rwa [hb]⟩
    · obtain ⟨hlt, haddr, hlen, hdata, h⟩ := h
      exact ⟨hlt.trans_le hsize, by rw [hb, haddr], hlen, by rw [hb, hdata],
        ih h (fun c hc ↦ hblocks c (mem_cons_of_mem b hc)) hsize⟩

theorem Full.congr {f f' : File} {next : ℕ} : ∀ {chain : List ℕ} {bs : Bytes},
    Full f next chain bs → (∀ b ∈ chain, f'.blocks b = f.blocks b) → f.size ≤ f'.size →
    Full f' next chain bs := by
  intro chain
  induction chain with
  | nil => exact fun h _ _ ↦ h
  | cons b chain ih =>
    intro bs h hblocks hsize
    have hb := hblocks b mem_cons_self
    obtain ⟨hlt, haddr, bs', rfl, h⟩ := h
    exact ⟨hlt.trans_le hsize, by rw [hb, haddr], bs', by rw [hb],
      ih h (fun c hc ↦ hblocks c (mem_cons_of_mem b hc)) hsize⟩

theorem Full.snoc {f : File} {b next : ℕ} : ∀ {chain : List ℕ} {bs : Bytes},
    Full f b chain bs → b < f.size → (f.blocks b).addr = next →
    Full f next (chain ++ [b]) (bs ++ (f.blocks b).data) := by
  intro chain
  induction chain with
  | nil =>
    rintro bs rfl hlt haddr
    exact ⟨hlt, haddr, [], (append_nil _).symm, rfl⟩
  | cons c chain ih =>
    rintro bs ⟨hlt, haddr, bs', rfl, h⟩ hb hnext
    refine ⟨hlt, ?_, bs' ++ (f.blocks b).data, append_assoc _ _ _, ih h hb hnext⟩
    rw [haddr]
    cases chain <;> rfl

theorem Full.holds {f : File} {b : ℕ} {cur : Bytes} : ∀ {chain : List ℕ} {bs : Bytes},
    Full f b chain bs → b < f.size → (f.blocks b).addr = 0 → cur.length ≤ DATA →
    cur = (f.blocks b).data.take cur.length → (chain ≠ [] → cur ≠ []) →
    Holds f (chain ++ [b]) (bs ++ cur) := by
  intro chain
  induction chain with
  | nil =>
    rintro bs rfl hlt haddr hlen hcur _
    exact ⟨hlt, haddr, hlen, hcur⟩
  | cons c chain ih =>
    rintro bs ⟨hlt, haddr, bs', rfl, h⟩ hb hb0 hlen hcur hne
    have hdata := (f.blocks c).length_data
    have hcur0 := hne (cons_ne_nil c chain)
    have htail := ih h hb hb0 hlen hcur fun _ ↦ hcur0
    have hpos : 0 < (bs' ++ cur).length := by
      rw [length_append]
      exact Nat.add_pos_right _ (length_pos_iff.2 hcur0)
    have htake : ((f.blocks c).data ++ (bs' ++ cur)).take DATA = (f.blocks c).data :=
      take_left' hdata
    have hdrop : ((f.blocks c).data ++ (bs' ++ cur)).drop DATA = bs' ++ cur :=
      drop_left' hdata
    have hlong : DATA < ((f.blocks c).data ++ (bs' ++ cur)).length := by
      rw [length_append, hdata]
      exact Nat.lt_add_of_pos_right hpos
    rw [append_assoc]
    rcases chain with - | ⟨d, chain⟩
    · exact ⟨hlt, haddr, hlong, htake, by rwa [hdrop]⟩
    · exact ⟨hlt, haddr, hlong, htake, by rwa [hdrop]⟩

/-! ### Writing a chain -/

section Write

variable {a a' : Alloc} {f f' : File} {own own' : List ℕ}

/-- What writing does to the blocks of a chain, and to all others: it appends blocks that were not
in use, and writes to no other block that was. -/
structure Extends (a : Alloc) (f : File) (own : List ℕ) (a' : Alloc) (f' : File)
    (own' : List ℕ) : Prop where
  ok : a'.Ok
  isPrefix : own <+: own'
  inUse : ∀ b ∈ own', a'.InUse b
  nodup : own'.Nodup
  fresh : ∀ b ∈ own', b ∈ own ∨ ¬a.InUse b
  others : ∀ c, a.InUse c → a'.InUse c
  blocks : ∀ c, a.InUse c → c ∉ own → f'.blocks c = f.blocks c
  size : f.size ≤ f'.size

theorem Extends.refl (f : File) (hok : a.Ok) (huse : ∀ b ∈ own, a.InUse b) (hnodup : own.Nodup) :
    Extends a f own a f own :=
  ⟨hok, prefix_refl own, huse, hnodup, fun _ h ↦ .inl h, fun _ h ↦ h, fun _ _ _ ↦ rfl, le_rfl⟩

theorem Extends.trans {a'' : Alloc} {f'' : File} {own'' : List ℕ}
    (h : Extends a f own a' f' own') (k : Extends a' f' own' a'' f'' own'') :
    Extends a f own a'' f'' own'' := by
  refine ⟨k.ok, h.isPrefix.trans k.isPrefix, k.inUse, k.nodup, fun b hb ↦ ?_,
    fun c hc ↦ k.others c (h.others c hc), fun c hc hne ↦ ?_, h.size.trans k.size⟩
  · exact (k.fresh b hb).elim (h.fresh b) fun hb' ↦ .inr (mt (h.others b) hb')
  · have hne' : c ∉ own' := fun hmem ↦ (h.fresh c hmem).elim hne fun hu ↦ hu hc
    exact (k.blocks c (h.others c hc) hne').trans (h.blocks c hc hne)

/-- **A writer**: the full blocks of a chain are in the file, and the rest of the byte string is
in the buffer. -/
structure Writer (f : File) (chain : List ℕ) (bp : Buffer) (bs : Bytes) : Prop where
  full : ∃ pre, Full f bp.bufnum chain pre ∧ bs = pre ++ bp.u.data.take bp.pos
  addr : bp.u.addr = 0

theorem Writer.congr {chain : List ℕ} {bp : Buffer} {bs : Bytes} (h : Writer f chain bp bs)
    (hblocks : ∀ b ∈ chain, f'.blocks b = f.blocks b) (hsize : f.size ≤ f'.size) :
    Writer f' chain bp bs := by
  obtain ⟨pre, hfull, hbs⟩ := h.full
  exact ⟨⟨pre, hfull.congr hblocks hsize, hbs⟩, h.addr⟩

theorem Buffer.pos_add_room (bp : Buffer) : bp.pos + bp.room = DATA := by
  have h₁ := bp.le_offset
  have h₂ := bp.offset_le
  simp only [pos, room, DATA, BUFFER_DATA_SIZE, LINK_SIZE] at *
  omega

theorem Buffer.room_start_pos (b : ℕ) (u : Block) : 0 < (Buffer.start b u).room := by
  change 0 < BUFFER_DATA_SIZE - LINK_SIZE
  decide

theorem Buffer.pos_put (bp : Buffer) (bs : Bytes) :
    (bp.put bs).pos = bp.pos + min bp.room bs.length := by
  have h := bp.le_offset
  simp only [pos, put]
  omega

theorem Writer.put {chain : List ℕ} {bp : Buffer} {bs : Bytes} (h : Writer f chain bp bs)
    (new : Bytes) : Writer f chain (bp.put new) (bs ++ new.take bp.room) := by
  obtain ⟨pre, hfull, hbs⟩ := h.full
  refine ⟨⟨pre, hfull, ?_⟩, h.addr⟩
  have hlen : (bp.u.data.take bp.pos ++ new.take bp.room).length =
      bp.pos + min bp.room new.length := by
    have hroom := bp.pos_add_room
    rw [length_append, length_take, length_take, bp.u.length_data]
    omega
  rw [bp.pos_put, hbs, append_assoc]
  congr 1
  exact (take_left' hlen).symm

theorem writeNext_spec {chain : List ℕ} {bp : Buffer} {bs : Bytes} (hok : a.Ok)
    (huse : ∀ b ∈ chain ++ [bp.bufnum], a.InUse b) (hnodup : (chain ++ [bp.bufnum]).Nodup)
    (h : Writer f chain bp bs) :
    (writeNext a f bp = .error .full ∧ a.Scarce 1) ∨
      ∃ a' f' chain' bp', writeNext a f bp = .ok (a', f', bp') ∧
        Extends a f (chain ++ [bp.bufnum]) a' f' (chain' ++ [bp'.bufnum]) ∧
        Writer f' chain' bp' bs ∧ 0 < bp'.room ∧ ∀ n, a'.Scarce n → a.Scarce (n + 1) := by
  rw [writeNext]
  by_cases hroom : bp.room = 0
  · rw [if_pos hroom, if_neg (not_not.2 h.addr)]
    rcases Alloc.allocSwap_spec hok with ⟨b, a', halloc, hall⟩ | ⟨hfull, hscarce⟩
    · right
      obtain ⟨pre, hfull, hbs⟩ := h.full
      set f' := bwrite bp.bufnum { bp.u with addr := b } f with hf'
      have hsize : f.size ≤ f'.size := le_max_left _ _
      have hlt : bp.bufnum < f'.size := Nat.lt_of_lt_of_le (Nat.lt_succ_self _) (le_max_right _ _)
      have hself : f'.blocks bp.bufnum = { bp.u with addr := b } := update_self ..
      have hother (c : ℕ) (hc : c ≠ bp.bufnum) : f'.blocks c = f.blocks c :=
        update_of_ne hc ..
      have hchain : ∀ c ∈ chain, c ≠ bp.bufnum := by
        rintro c hc rfl
        exact (nodup_append.1 hnodup).2.2 _ hc _ (mem_singleton_self _) rfl
      have hfull' := (hfull.congr (fun c hc ↦ hother c (hchain c hc)) hsize).snoc hlt
        (congrArg Block.addr hself)
      have hdata : bp.u.data.take bp.pos = bp.u.data := by
        have := bp.pos_add_room
        exact take_of_length_le (by rw [bp.u.length_data]; omega)
      have hmem : b ∉ chain ++ [bp.bufnum] := fun hb ↦ hall.fresh (huse b hb)
      refine ⟨a', f', chain ++ [bp.bufnum], .start b .zero, by rw [halloc]; rfl,
        ⟨hall.ok, prefix_append _ _, ?_, ?_, ?_, hall.others, ?_, hsize⟩,
          ⟨⟨_, hfull', ?_⟩, rfl⟩,
        Buffer.room_start_pos _ _, fun n ↦ hall.scarce⟩
      · intro c hc
        rcases mem_append.1 hc with hc | hc
        · exact hall.others c (huse c hc)
        · obtain rfl := mem_singleton.1 hc
          exact hall.inUse
      · refine nodup_append.2 ⟨hnodup, nodup_singleton _, ?_⟩
        rintro c hc d hd rfl
        obtain rfl := mem_singleton.1 hd
        exact hmem hc
      · intro c hc
        rcases mem_append.1 hc with hc | hc
        · exact .inl hc
        · obtain rfl := mem_singleton.1 hc
          exact .inr hall.fresh
      · intro c _ hc
        exact hother c fun hcb ↦ hc (hcb ▸ mem_append_right chain (mem_singleton_self _))
      · rw [hbs, hdata, hself]
        exact (append_nil _).symm
    · left
      rw [hfull]
      exact ⟨rfl, hscarce⟩
  · right
    exact ⟨a, f, chain, bp, if_neg hroom, .refl f hok huse hnodup, h, Nat.pos_of_ne_zero hroom,
      fun n hn ↦ hn.mono n.le_succ⟩

/-- **`swap_write`** appends bytes to the string. -/
theorem swapWriteLoop_spec (n : ℕ) : ∀ {a : Alloc} {f : File} {chain : List ℕ} {bp : Buffer}
    {bs : Bytes}, a.Ok → (∀ b ∈ chain ++ [bp.bufnum], a.InUse b) →
    (chain ++ [bp.bufnum]).Nodup → Writer f chain bp bs → (chain ≠ [] → 0 < bp.pos) →
    ∀ new : Bytes, new.length ≤ n →
    (swapWriteLoop n a f bp new = .error .full ∧ a.Scarce new.length) ∨
      ∃ a' f' chain' bp', swapWriteLoop n a f bp new = .ok (a', f', bp') ∧
        Extends a f (chain ++ [bp.bufnum]) a' f' (chain' ++ [bp'.bufnum]) ∧
        Writer f' chain' bp' (bs ++ new) ∧ (chain' ≠ [] → 0 < bp'.pos) := by
  induction n with
  | zero =>
    intro a f chain bp bs hok huse hnodup h hpos new hn
    obtain rfl := length_eq_zero_iff.1 (Nat.le_zero.1 hn)
    refine .inr ⟨a, f, chain, bp, rfl, .refl f hok huse hnodup, ?_, hpos⟩
    rwa [append_nil]
  | succ n ih =>
    intro a f chain bp bs hok huse hnodup h hpos new hn
    rcases new with - | ⟨b, new⟩
    · refine .inr ⟨a, f, chain, bp, rfl, .refl f hok huse hnodup, ?_, hpos⟩
      rwa [append_nil]
    rw [swapWriteLoop]
    rcases writeNext_spec hok huse hnodup h with
      ⟨hfull, hscarce⟩ | ⟨a₁, f₁, chain₁, bp₁, h₁, hext, hw, hroom, hscarce⟩
    · left
      rw [hfull]
      exact ⟨rfl, hscarce.mono (Nat.le_add_left 1 _)⟩
    have hput : 0 < (bp₁.put (b :: new)).pos := by
      rw [bp₁.pos_put, length_cons]
      omega
    have hlen : ((b :: new).drop bp₁.room).length ≤ new.length := by
      rw [length_drop, length_cons]
      omega
    have huse₁ : ∀ c ∈ chain₁ ++ [(bp₁.put (b :: new)).bufnum], a₁.InUse c := hext.inUse
    rw [h₁]
    rcases ih hext.ok huse₁ hext.nodup (hw.put (b :: new)) (fun _ ↦ hput) _
      (hlen.trans (Nat.le_of_succ_le_succ hn)) with
      ⟨hfull, hscarce'⟩ | ⟨a₂, f₂, chain₂, bp₂, h₂, hext₂, hw₂, hpos₂⟩
    · exact .inl ⟨hfull, hscarce _ (hscarce'.mono hlen)⟩
    · refine .inr ⟨a₂, f₂, chain₂, bp₂, h₂, hext.trans hext₂, ?_, hpos₂⟩
      rwa [append_assoc, take_append_drop] at hw₂

theorem endWrite_spec {chain : List ℕ} {bp : Buffer} {bs : Bytes}
    (hnodup : (chain ++ [bp.bufnum]).Nodup) (h : Writer f chain bp bs)
    (hpos : chain ≠ [] → 0 < bp.pos) :
    ∃ f', endWrite bp f = .ok f' ∧ Holds f' (chain ++ [bp.bufnum]) bs ∧
      (∀ c ∉ chain ++ [bp.bufnum], f'.blocks c = f.blocks c) ∧ f.size ≤ f'.size := by
  obtain ⟨pre, hfull, rfl⟩ := h.full
  set f' := bwrite bp.bufnum bp.u f with hf'
  have hself : f'.blocks bp.bufnum = bp.u := update_self ..
  have hother (c : ℕ) (hc : c ≠ bp.bufnum) : f'.blocks c = f.blocks c :=
    update_of_ne hc ..
  have hsize : f.size ≤ f'.size := le_max_left _ _
  have hlt : bp.bufnum < f'.size := Nat.lt_of_lt_of_le (Nat.lt_succ_self _) (le_max_right _ _)
  have hlen : (bp.u.data.take bp.pos).length = bp.pos := by
    have := bp.pos_add_room
    rw [length_take, bp.u.length_data]
    omega
  refine ⟨f', if_neg (not_not.2 h.addr), ?_, fun c hc ↦ hother c ?_, hsize⟩
  · refine (hfull.congr (fun c hc ↦ hother c ?_) hsize).holds hlt ?_ ?_ ?_ fun hne hnil ↦ ?_
    · rintro rfl
      exact (nodup_append.1 hnodup).2.2 _ hc _ (mem_singleton_self _) rfl
    · rw [hself, h.addr]
    · have := bp.pos_add_room
      rw [hlen]
      omega
    · rw [hself, hlen]
    · have := hpos hne
      rw [← length_eq_zero_iff, hlen] at hnil
      omega
  · rintro rfl
    exact hc (mem_append_right chain (mem_singleton_self _))

end Write

/-! ### Reading a chain -/

section Read

variable {a a' : Alloc} {f : File} {own own' : List ℕ}

/-- What reading does to the blocks: it frees those it has read, and no others. -/
structure Shrinks (a : Alloc) (own : List ℕ) (a' : Alloc) (own' : List ℕ) : Prop where
  ok : a'.Ok
  isSuffix : own' <:+ own
  inUse : ∀ b ∈ own', a'.InUse b
  others : ∀ c ∉ own, a.InUse c → a'.InUse c

theorem Shrinks.refl (hok : a.Ok) (huse : ∀ b ∈ own, a.InUse b) : Shrinks a own a own :=
  ⟨hok, suffix_refl own, huse, fun _ _ h ↦ h⟩

theorem Shrinks.trans {a'' : Alloc} {own'' : List ℕ} (h : Shrinks a own a' own')
    (k : Shrinks a' own' a'' own'') : Shrinks a own a'' own'' :=
  ⟨k.ok, k.isSuffix.trans h.isSuffix, k.inUse,
    fun c hc hu ↦ k.others c (mt (fun hm ↦ h.isSuffix.subset hm) hc) (h.others c hc hu)⟩

/-- **A reader**: the buffer holds the first block of what is left of a chain, and `bs` is what is
left of its byte string. -/
structure Reader (f : File) (chain : List ℕ) (bp : Buffer) (bs : Bytes) : Prop where
  u : bp.u = f.blocks bp.bufnum
  rest : ∃ full, Holds f (bp.bufnum :: chain) full ∧ bp.pos ≤ full.length ∧ bs = full.drop bp.pos

theorem Reader.congr {f' : File} {chain : List ℕ} {bp : Buffer} {bs : Bytes}
    (h : Reader f chain bp bs) (hblocks : ∀ b ∈ bp.bufnum :: chain, f'.blocks b = f.blocks b)
    (hsize : f.size ≤ f'.size) : Reader f' chain bp bs := by
  obtain ⟨full, hfull, hpos, hbs⟩ := h.rest
  exact ⟨by rw [h.u, hblocks _ mem_cons_self], full, hfull.congr hblocks hsize, hpos, hbs⟩

theorem readNext_spec {chain : List ℕ} {bp : Buffer} {bs : Bytes} (hok : a.Ok)
    (huse : ∀ b ∈ bp.bufnum :: chain, a.InUse b) (hnodup : (bp.bufnum :: chain).Nodup)
    (h : Reader f chain bp bs) (hne : bs ≠ []) :
    ∃ a' chain' bp', readNext a f bp = .ok (a', bp') ∧
      Shrinks a (bp.bufnum :: chain) a' (bp'.bufnum :: chain') ∧ Reader f chain' bp' bs ∧
      0 < bp'.room := by
  rw [readNext]
  by_cases hroom : bp.room = 0
  · obtain ⟨full, hfull, hpos, rfl⟩ := h.rest
    have hpos' : bp.pos = DATA := by
      have := bp.pos_add_room
      omega
    obtain ⟨a', hfree, hok', hothers⟩ := Alloc.freeSwap_spec hok (huse _ mem_cons_self)
    rw [hpos'] at hne
    rcases chain with - | ⟨b', chain⟩
    · -- The last block has been read, so nothing is left.
      exact absurd (drop_eq_nil_of_le hfull.2.2.1) hne
    · obtain ⟨-, haddr, hlen, -, htail⟩ := hfull
      have hb' : a.InUse b' := huse b' (mem_cons_of_mem _ mem_cons_self)
      have hnode := nodup_cons.1 hnodup
      have hlt : b' < f.size := by
        rcases chain with - | ⟨c, chain⟩
        · exact htail.1
        · exact htail.1
      refine ⟨a', chain, .start b' (f.blocks b'), ?_, ⟨hok', suffix_cons _ _, ?_, ?_⟩,
        ⟨rfl, full.drop DATA, htail, Nat.zero_le _, ?_⟩, Buffer.room_start_pos _ _⟩
      · rw [if_pos hroom, hfree, h.u, haddr]
        change (if b' = 0 then _ else _) = _
        rw [if_neg hb'.ne_zero, bread, if_pos hlt]
        rfl
      · exact fun c hc ↦ hothers c (fun hcb ↦ hnode.1 (hcb ▸ hc))
          (huse c (mem_cons_of_mem _ hc))
      · exact fun c hc hu ↦ hothers c (fun hcb ↦ hc (hcb ▸ mem_cons_self)) hu
      · rw [hpos']
        rfl
  · exact ⟨a, chain, bp, if_neg hroom, .refl hok huse, h, Nat.pos_of_ne_zero hroom⟩

theorem Reader.get {chain : List ℕ} {bp : Buffer} {bs : Bytes} (h : Reader f chain bp bs)
    {len : ℕ} (hlen : len ≤ bs.length) : bp.get len = bs.take (min bp.room len) := by
  obtain ⟨full, hfull, hpos, rfl⟩ := h.rest
  have hroom := bp.pos_add_room
  rw [length_drop] at hlen
  rw [Buffer.get, h.u]
  rcases chain with - | ⟨b', chain⟩
  · obtain ⟨-, -, hle, hdata⟩ := hfull
    have hmin : min bp.room len = len := by omega
    rw [hmin, hdata, drop_take, take_take]
    congr 1
    omega
  · obtain ⟨-, -, -, hdata, -⟩ := hfull
    rw [← hdata, drop_take, take_take]
    congr 1
    omega

theorem Reader.skip {chain : List ℕ} {bp : Buffer} {bs : Bytes} (h : Reader f chain bp bs)
    {len : ℕ} (hlen : len ≤ bs.length) :
    Reader f chain (bp.skip len) (bs.drop (min bp.room len)) := by
  obtain ⟨full, hfull, hpos, rfl⟩ := h.rest
  have hskip : (bp.skip len).pos = bp.pos + min bp.room len := by
    have := bp.le_offset
    simp only [Buffer.pos, Buffer.skip]
    omega
  rw [length_drop] at hlen
  refine ⟨h.u, full, hfull, by omega, ?_⟩
  rw [hskip, drop_drop]

/-- **`swap_read`** gives the next bytes of the string. -/
theorem swapReadLoop_spec (n : ℕ) : ∀ {a : Alloc} {chain : List ℕ} {bp : Buffer}
    {bs : Bytes}, a.Ok → (∀ b ∈ bp.bufnum :: chain, a.InUse b) →
    (bp.bufnum :: chain).Nodup → Reader f chain bp bs → ∀ len, len ≤ n → len ≤ bs.length →
    ∃ a' chain' bp', swapReadLoop f n a bp len = .ok (a', bp', bs.take len) ∧
      Shrinks a (bp.bufnum :: chain) a' (bp'.bufnum :: chain') ∧
      Reader f chain' bp' (bs.drop len) := by
  induction n with
  | zero =>
    intro a chain bp bs hok huse _ h len hn _
    obtain rfl := Nat.le_zero.1 hn
    exact ⟨a, chain, bp, rfl, .refl hok huse, h⟩
  | succ n ih =>
    intro a chain bp bs hok huse hnodup h len hn hlen
    rcases len with - | len
    · exact ⟨a, chain, bp, rfl, .refl hok huse, h⟩
    have hne : bs ≠ [] := by
      rintro rfl
      exact absurd hlen (Nat.not_succ_le_zero len)
    obtain ⟨a₁, chain₁, bp₁, h₁, hsh, hr, hroom⟩ := readNext_spec hok huse hnodup h hne
    have hrest : len + 1 - bp₁.room ≤ (bs.drop (min bp₁.room (len + 1))).length := by
      rw [length_drop]
      omega
    have huse₁ : ∀ c ∈ (bp₁.skip (len + 1)).bufnum :: chain₁, a₁.InUse c := hsh.inUse
    obtain ⟨a₂, chain₂, bp₂, h₂, hsh₂, hr₂⟩ := ih hsh.ok huse₁
      (hnodup.sublist hsh.isSuffix.sublist) (hr.skip hlen) (len + 1 - bp₁.room) (by omega) hrest
    have hsum : min bp₁.room (len + 1) + (len + 1 - bp₁.room) = len + 1 := by omega
    refine ⟨a₂, chain₂, bp₂, ?_, hsh.trans hsh₂, ?_⟩
    · rw [swapReadLoop, h₁]
      change (swapReadLoop f n a₁ (bp₁.skip (len + 1)) (len + 1 - bp₁.room)).map _ = _
      rw [h₂, hr.get hlen]
      change Except.ok (a₂, bp₂, _ ++ _) = _
      rw [← take_add, hsum]
    · rwa [drop_drop, hsum] at hr₂

/-- A string that has been read to its end has left one block, which `end_read` frees. -/
theorem endRead_spec {chain : List ℕ} {bp : Buffer} (hok : a.Ok)
    (huse : ∀ b ∈ bp.bufnum :: chain, a.InUse b) (h : Reader f chain bp []) :
    ∃ a', endRead bp a = .ok a' ∧ a'.Ok ∧ ∀ c ∉ bp.bufnum :: chain, a.InUse c → a'.InUse c := by
  obtain ⟨full, hfull, hpos, hnil⟩ := h.rest
  obtain ⟨a', hfree, hok', hothers⟩ := Alloc.freeSwap_spec hok (huse _ mem_cons_self)
  have hroom := bp.pos_add_room
  have hlen : full.length ≤ bp.pos := drop_eq_nil_iff.1 hnil.symm
  rcases chain with - | ⟨b', chain⟩
  · refine ⟨a', ?_, hok', fun c hc ↦ hothers c fun hcb ↦ hc (hcb ▸ mem_cons_self)⟩
    rw [endRead, hfree, h.u]
    exact if_neg (not_not.2 hfull.2.1)
  · have := hfull.2.2.1
    omega

end Read

end Lpmud.Swap
