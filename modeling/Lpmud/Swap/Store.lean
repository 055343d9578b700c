import Lpmud.Lib.TransitionSystem
import Lpmud.Swap.Chain
import Mathlib.Logic.Equiv.Basic

/-!
# The swap file as a store

What the swap file is for: a store of byte strings under keys, which are written a piece at a
time, and read back a piece at a time and thereby taken out (`Store`). The driver's swap file
refines it. Any number of strings may be written and read at the same time; the key of a string
is the number of its first block.

`swap_refines` is about every reachable state and every event the driver's callers are allowed to
make there. What they are allowed is in `Store.Enabled`: they use a buffer between its start and
its end, they read strings that are in the store and not being read, and no further than they go,
and they end a read when nothing is left.
-/

namespace Lpmud.Swap

open Function List

/-! ### The store -/

/-- The calls of the buffered input and output; `h` names the buffer. -/
inductive Event where
  | startWrite (h : ℕ)
  | write (h : ℕ) (bs : Bytes)
  | endWrite (h : ℕ)
  | startRead (h blkno : ℕ)
  | read (h len : ℕ)
  | endRead (h : ℕ)
  deriving DecidableEq

/-- **A store of byte strings**: those that are in it, by key; those that are being written, with
their keys; and what is left of those that are being read. -/
structure Store where
  live : ℕ → Option Bytes
  writing : ℕ → Option (ℕ × Bytes)
  reading : ℕ → Option Bytes

namespace Store

def empty : Store :=
  ⟨fun _ ↦ none, fun _ ↦ none, fun _ ↦ none⟩

/-- What callers may do. -/
def Enabled (st : Store) : Event → Prop
  | .startWrite h => st.writing h = none
  | .write h _ => ∃ b bs, st.writing h = some (b, bs)
  | .endWrite h => ∃ b bs, st.writing h = some (b, bs)
  | .startRead h blkno => st.reading h = none ∧ ∃ bs, st.live blkno = some bs
  | .read h len => ∃ bs, st.reading h = some bs ∧ len ≤ bs.length
  | .endRead h => st.reading h = some []

/-- What an event does; a new string gets the key `key`. -/
def step (st : Store) (key : ℕ) : Event → Store
  | .startWrite h => { st with writing := Function.update st.writing h (some (key, [])) }
  | .write h new =>
    { st with
      writing := Function.update st.writing h ((st.writing h).map fun (b, bs) ↦ (b, bs ++ new)) }
  | .endWrite h =>
    match st.writing h with
    | none => st
    | some (b, bs) =>
      { st with
        live := Function.update st.live b (some bs)
        writing := Function.update st.writing h none }
  | .startRead h blkno =>
    { st with
      live := Function.update st.live blkno none
      reading := Function.update st.reading h (st.live blkno) }
  | .read h len =>
    { st with reading := Function.update st.reading h ((st.reading h).map (List.drop len)) }
  | .endRead h => { st with reading := Function.update st.reading h none }

/-- The bytes an event gives to its caller. -/
def bytes (st : Store) : Event → Bytes
  | .read h len => ((st.reading h).getD []).take len
  | _ => []

end Store

/-! ### The swap file -/

/-- The allocator, the file, and the buffers that are open. -/
structure SwapFile where
  alloc : Alloc
  file : File
  writers : ℕ → Option Buffer
  readers : ℕ → Option Buffer

/-- What an event gives to its caller: the number of a first block, or bytes. -/
structure Answer where
  blkno : ℕ := 0
  bytes : Bytes := []

namespace SwapFile

/-- The swap file after `init_swap`. -/
def init (pagesize : ℕ) : SwapFile :=
  ⟨initSwap pagesize, ⟨fun _ ↦ .zero, 0⟩, fun _ ↦ none, fun _ ↦ none⟩

/-- One event; using a buffer that is not open is fatal. -/
def exec (s : SwapFile) : Event → Except Fault (SwapFile × Answer)
  | .startWrite h =>
    (startWrite 0 s.alloc).map fun (bp, a) ↦
      ({ s with alloc := a, writers := Function.update s.writers h (some bp) },
        { blkno := bp.bufnum })
  | .write h bs =>
    match s.writers h with
    | none => .error .fatal
    | some bp =>
      (swapWrite s.alloc s.file bp bs).map fun (a, f, bp') ↦
        ({ s with alloc := a, file := f, writers := Function.update s.writers h (some bp') }, {})
  | .endWrite h =>
    match s.writers h with
    | none => .error .fatal
    | some bp =>
      (endWrite bp s.file).map fun f ↦
        ({ s with file := f, writers := Function.update s.writers h none }, {})
  | .startRead h blkno =>
    (startRead blkno s.file).map fun bp ↦
      ({ s with readers := Function.update s.readers h (some bp) }, {})
  | .read h len =>
    match s.readers h with
    | none => .error .fatal
    | some bp =>
      (swapRead s.alloc s.file bp len).map fun (a, bp', bs) ↦
        ({ s with alloc := a, readers := Function.update s.readers h (some bp') }, { bytes := bs })
  | .endRead h =>
    match s.readers h with
    | none => .error .fatal
    | some bp =>
      (endRead bp s.alloc).map fun a ↦
        ({ s with alloc := a, readers := Function.update s.readers h none }, {})

end SwapFile

/-- The swap file and the store side by side. The page size is a power of two. -/
def swapFiles : TransitionSystem (Store × SwapFile) Event where
  Init p := ∃ k, 3 ≤ k ∧ k ≤ 29 ∧ p = (.empty, .init (2 ^ k))
  Step p e p' := p.1.Enabled e ∧
    ∃ s' ans, p.2.exec e = .ok (s', ans) ∧ p' = (p.1.step ans.blkno e, s')

/-! ### The refinement -/

/-- Who has blocks: a string in the store, or a buffer. -/
inductive Owner where
  | live (blkno : ℕ)
  | writer (h : ℕ)
  | reader (h : ℕ)
  deriving DecidableEq

/-- **The blocks of an owner hold what the store says**, and their chain starts with the key. -/
def Owns (st : Store) (s : SwapFile) (chain : List ℕ) : Owner → Prop
  | .live b =>
    match st.live b with
    | none => chain = []
    | some bs => chain.head? = some b ∧ Holds s.file chain bs
  | .writer h =>
    match st.writing h with
    | none => chain = []
    | some (b, bs) => ∃ bp front, s.writers h = some bp ∧ chain = front ++ [bp.bufnum] ∧
        chain.head? = some b ∧ Writer s.file front bp bs ∧ (front ≠ [] → 0 < bp.pos)
  | .reader h =>
    match st.reading h with
    | none => chain = []
    | some bs => ∃ bp rest, s.readers h = some bp ∧ chain = bp.bufnum :: rest ∧
        Reader s.file rest bp bs

/-- **The swap file refines the store**, by chains of blocks that are in use, each block in one
chain and once. -/
structure Refines (st : Store) (s : SwapFile) (chains : Owner → List ℕ) : Prop where
  ok : s.alloc.Ok
  owns : ∀ o, Owns st s (chains o) o
  nodup : ∀ o, (chains o).Nodup
  disjoint : ∀ o o', o ≠ o' → List.Disjoint (chains o) (chains o')
  inUse : ∀ o, ∀ b ∈ chains o, s.alloc.InUse b

/-- What two states say of an owner is the same. -/
def Same (st st' : Store) (s s' : SwapFile) : Owner → Prop
  | .live b => st'.live b = st.live b
  | .writer h => st'.writing h = st.writing h ∧ s'.writers h = s.writers h
  | .reader h => st'.reading h = st.reading h ∧ s'.readers h = s.readers h

variable {st st' : Store} {s s' : SwapFile} {chains : Owner → List ℕ}

theorem Owns.congr {chain : List ℕ} {o : Owner} (h : Owns st s chain o) (hsame : Same st st' s s' o)
    (hblocks : ∀ b ∈ chain, s'.file.blocks b = s.file.blocks b)
    (hsize : s.file.size ≤ s'.file.size) : Owns st' s' chain o := by
  cases o with
  | live b =>
    rw [Owns, show st'.live b = st.live b from hsame]
    rw [Owns] at h
    cases hl : st.live b with
    | none =>
      rw [hl] at h
      exact h
    | some bs =>
      rw [hl] at h
      exact ⟨h.1, h.2.congr hblocks hsize⟩
  | writer i =>
    rw [Owns, hsame.1, hsame.2]
    rw [Owns] at h
    rcases hw : st.writing i with - | ⟨b, bs⟩
    · rw [hw] at h
      exact h
    · rw [hw] at h
      obtain ⟨bp, front, hbp, rfl, hhead, hwr, hpos⟩ := h
      exact ⟨bp, front, hbp, rfl, hhead,
        hwr.congr (fun b hb ↦ hblocks b (mem_append_left _ hb)) hsize, hpos⟩
  | reader i =>
    rw [Owns, hsame.1, hsame.2]
    rw [Owns] at h
    cases hr : st.reading i with
    | none =>
      rw [hr] at h
      exact h
    | some bs =>
      rw [hr] at h
      obtain ⟨bp, rest, hbp, rfl, hrd⟩ := h
      exact ⟨bp, rest, hbp, rfl, hrd.congr hblocks hsize⟩

namespace Refines

/-- **One owner gets other blocks**: some of its own, and some that were not in use. -/
theorem update (h : Refines st s chains) {o : Owner} {chain : List ℕ} (hok : s'.alloc.Ok)
    (howns : Owns st' s' chain o) (hnodup : chain.Nodup)
    (hfresh : ∀ b ∈ chain, b ∈ chains o ∨ ¬s.alloc.InUse b)
    (huse : ∀ b ∈ chain, s'.alloc.InUse b)
    (hsame : ∀ o', o' ≠ o → Same st st' s s' o')
    (hothers : ∀ b ∉ chains o, s.alloc.InUse b →
      s'.alloc.InUse b ∧ s'.file.blocks b = s.file.blocks b)
    (hsize : s.file.size ≤ s'.file.size) :
    Refines st' s' (Function.update chains o chain) := by
  have hnot {o' : Owner} (ho : o' ≠ o) {b : ℕ} (hb : b ∈ chains o') : b ∉ chains o :=
    fun hb' ↦ h.disjoint o' o ho hb hb'
  have hdis {o' : Owner} (ho : o' ≠ o) : List.Disjoint (chains o') chain := by
    intro b hb hb'
    exact (hfresh b hb').elim (hnot ho hb) fun hu ↦ hu (h.inUse o' b hb)
  refine ⟨hok, fun o' ↦ ?_, fun o' ↦ ?_, fun o₁ o₂ hne ↦ ?_, fun o' b hb ↦ ?_⟩
  · rcases eq_or_ne o' o with rfl | ho
    · rwa [update_self]
    · rw [update_of_ne ho]
      exact (h.owns o').congr (hsame o' ho)
        (fun b hb ↦ (hothers b (hnot ho hb) (h.inUse o' b hb)).2) hsize
  · rcases eq_or_ne o' o with rfl | ho
    · rwa [update_self]
    · rw [update_of_ne ho]
      exact h.nodup o'
  · rcases eq_or_ne o₁ o with rfl | ho₁
    · rw [update_self, update_of_ne hne.symm]
      exact fun c hc hc' ↦ hdis hne.symm hc' hc
    rw [update_of_ne ho₁]
    rcases eq_or_ne o₂ o with rfl | ho₂
    · rw [update_self]
      exact hdis ho₁
    · rw [update_of_ne ho₂]
      exact h.disjoint o₁ o₂ hne
  · rcases eq_or_ne o' o with rfl | ho
    · rw [update_self] at hb
      exact huse b hb
    · rw [update_of_ne ho] at hb
      exact (hothers b (hnot ho hb) (h.inUse o' b hb)).1

/-- **A chain goes from one owner to another** that has none. -/
theorem move (h : Refines st s chains) {o₁ o₂ : Owner} (halloc : s'.alloc = s.alloc)
    (h₁ : Owns st' s' (chains o₂) o₁) (h₂ : Owns st' s' (chains o₁) o₂)
    (hsame : ∀ o, o ≠ o₁ → o ≠ o₂ → Same st st' s s' o)
    (hblocks : ∀ b, b ∉ chains o₁ → s'.file.blocks b = s.file.blocks b)
    (hsize : s.file.size ≤ s'.file.size) :
    Refines st' s' (chains ∘ Equiv.swap o₁ o₂) := by
  refine ⟨halloc ▸ h.ok, fun o ↦ ?_, fun o ↦ h.nodup _, fun o o' hne ↦ ?_, fun o b hb ↦ ?_⟩
  · rw [Function.comp_apply]
    rcases eq_or_ne o o₁ with rfl | ho₁
    · rwa [Equiv.swap_apply_left]
    rcases eq_or_ne o o₂ with rfl | ho₂
    · rwa [Equiv.swap_apply_right]
    rw [Equiv.swap_apply_of_ne_of_ne ho₁ ho₂]
    exact (h.owns o).congr (hsame o ho₁ ho₂) (fun b hb ↦ hblocks b (h.disjoint o o₁ ho₁ hb)) hsize
  · exact h.disjoint _ _ fun heq ↦ hne ((Equiv.swap o₁ o₂).injective heq)
  · rw [halloc]
    exact h.inUse _ b hb

theorem live_eq_none (h : Refines st s chains) {b : ℕ}
    (hb : ¬s.alloc.InUse b ∨ ∃ o, o ≠ .live b ∧ b ∈ chains o) : st.live b = none := by
  have hown := h.owns (.live b)
  rw [Owns] at hown
  cases hl : st.live b with
  | none => rfl
  | some bs =>
    rw [hl] at hown
    have hmem : b ∈ chains (.live b) := mem_of_mem_head? hown.1
    rcases hb with hb | ⟨o, ho, hb⟩
    · exact absurd (h.inUse _ b hmem) hb
    · exact absurd hmem (h.disjoint o _ ho hb)

theorem writer (h : Refines st s chains) {i b : ℕ} {bs : Bytes}
    (hw : st.writing i = some (b, bs)) : ∃ bp front, s.writers i = some bp ∧
      chains (.writer i) = front ++ [bp.bufnum] ∧ (chains (.writer i)).head? = some b ∧
      Writer s.file front bp bs ∧ (front ≠ [] → 0 < bp.pos) := by
  have hown := h.owns (.writer i)
  rwa [Owns, hw] at hown

theorem reader (h : Refines st s chains) {i : ℕ} {bs : Bytes} (hr : st.reading i = some bs) :
    ∃ bp rest, s.readers i = some bp ∧ chains (.reader i) = bp.bufnum :: rest ∧
      Reader s.file rest bp bs := by
  have hown := h.owns (.reader i)
  rwa [Owns, hr] at hown

end Refines

/-! ### The events -/

/-- How many blocks an event may take, at most. -/
def Event.blocks : Event → ℕ
  | .startWrite _ => 1
  | .write _ bs => bs.length
  | _ => 0

/-- What an event may answer: the bytes that the store says, and a key that no other string
has. -/
structure Store.Answers (st : Store) (e : Event) (ans : Answer) : Prop where
  bytes : ans.bytes = st.bytes e
  ne_zero : ∀ h, e = .startWrite h → ans.blkno ≠ 0
  live : ∀ h, e = .startWrite h → st.live ans.blkno = none
  writing : ∀ h, e = .startWrite h → ∀ i bs, st.writing i ≠ some (ans.blkno, bs)

/-- **What an event does, at its best**: it answers as the store does, and the swap file still
refines the store. -/
def Simulates (st : Store) (s : SwapFile) (e : Event) : Prop :=
  ∃ s' ans chains', s.exec e = .ok (s', ans) ∧ st.Answers e ans ∧
    Refines (st.step ans.blkno e) s' chains'

/-- Only the writer `i` is different. -/
theorem same_writer {i : ℕ} {w : Option (ℕ × Bytes)} {bp : Option Buffer} {a : Alloc}
    {f : File} {o : Owner} (ho : o ≠ .writer i) :
    Same st { st with writing := Function.update st.writing i w } s
      { s with alloc := a, file := f, writers := Function.update s.writers i bp } o := by
  cases o with
  | live b => rfl
  | writer j =>
    have hj : j ≠ i := fun h ↦ ho (h ▸ rfl)
    exact ⟨update_of_ne hj .., update_of_ne hj ..⟩
  | reader j => exact ⟨rfl, rfl⟩

theorem same_reader {i : ℕ} {bs : Option Bytes} {bp : Option Buffer} {a : Alloc}
    {o : Owner} (ho : o ≠ .reader i) :
    Same st { st with reading := Function.update st.reading i bs } s
      { s with alloc := a, readers := Function.update s.readers i bp } o := by
  cases o with
  | live b => rfl
  | writer j => exact ⟨rfl, rfl⟩
  | reader j =>
    have hj : j ≠ i := fun h ↦ ho (h ▸ rfl)
    exact ⟨update_of_ne hj .., update_of_ne hj ..⟩

namespace Refines

theorem startWrite (h : Refines st s chains) (i : ℕ) :
    (s.exec (.startWrite i) = .error .full ∧ s.alloc.Scarce 1) ∨
      Simulates st s (.startWrite i) := by
  rcases Alloc.allocSwap_spec h.ok with ⟨b, a', halloc, hall⟩ | ⟨hfull, hscarce⟩
  · right
    have hfree (o : Owner) : b ∉ chains o := fun hb ↦ hall.fresh (h.inUse o b hb)
    have hmem {c : ℕ} (hc : c ∈ [b]) : c = b := List.mem_singleton.1 hc
    refine ⟨{ s with alloc := a', writers := Function.update s.writers i (some (.start b .zero)) },
      { blkno := b }, Function.update chains (.writer i) [b], ?_,
      ⟨rfl, fun _ _ ↦ hall.inUse.ne_zero, fun _ _ ↦ h.live_eq_none (.inl hall.fresh), ?_⟩,
      h.update hall.ok ?_ (nodup_singleton b) (fun c hc ↦ .inr (hmem hc ▸ hall.fresh))
        (fun c hc ↦ hmem hc ▸ hall.inUse) (fun o' ho ↦ same_writer ho)
        (fun c _ hu ↦ ⟨hall.others c hu, rfl⟩) le_rfl⟩
    · rw [SwapFile.exec, Swap.startWrite, halloc]
      rfl
    · intro _ _ j bs hj
      obtain ⟨bp, front, -, -, hhead, -⟩ := h.writer hj
      exact hfree _ (mem_of_mem_head? hhead)
    · have hnew : (Function.update st.writing i (some (b, []))) i = some (b, []) :=
        update_self ..
      simp only [Owns, Store.step, hnew]
      exact ⟨.start b .zero, [], update_self .., rfl, rfl, ⟨⟨[], rfl, rfl⟩, rfl⟩,
        fun hne ↦ absurd rfl hne⟩
  · left
    rw [SwapFile.exec, Swap.startWrite, hfull]
    exact ⟨rfl, hscarce⟩

theorem write (h : Refines st s chains) {i : ℕ} {new : Bytes}
    (he : st.Enabled (.write i new)) :
    (s.exec (.write i new) = .error .full ∧ s.alloc.Scarce new.length) ∨
      Simulates st s (.write i new) := by
  obtain ⟨b, bs, hw⟩ := he
  obtain ⟨bp, front, hbp, hchain, hhead, hwr, hpos⟩ := h.writer hw
  have huse : ∀ c ∈ front ++ [bp.bufnum], s.alloc.InUse c := hchain ▸ h.inUse (.writer i)
  have hnodup : (front ++ [bp.bufnum]).Nodup := hchain ▸ h.nodup (.writer i)
  rcases swapWriteLoop_spec _ h.ok huse hnodup hwr hpos new le_rfl with
    ⟨hfull, hscarce⟩ | ⟨a', f', front', bp', hok, hext, hwr', hpos'⟩
  · left
    rw [SwapFile.exec, hbp]
    change Except.map _ (swapWriteLoop _ _ _ _ _) = _ ∧ _
    rw [hfull]
    exact ⟨rfl, hscarce⟩
  · right
    refine ⟨{ s with alloc := a', file := f', writers := Function.update s.writers i (some bp') },
      {}, Function.update chains (.writer i) (front' ++ [bp'.bufnum]), ?_,
      ⟨rfl, nofun, nofun, nofun⟩,
      h.update hext.ok ?_ hext.nodup (fun c hc ↦ hchain ▸ hext.fresh c hc) hext.inUse
        (fun o' ho ↦ same_writer ho)
        (fun c hc hu ↦ ⟨hext.others c hu, hext.blocks c hu (hchain ▸ hc)⟩) hext.size⟩
    · rw [SwapFile.exec, hbp]
      change Except.map _ (swapWriteLoop _ _ _ _ _) = _
      rw [hok]
      rfl
    · have hnew : (Function.update st.writing i
          ((st.writing i).map fun (b, bs) ↦ (b, bs ++ new))) i = some (b, bs ++ new) := by
        rw [update_self, hw]
        rfl
      simp only [Owns, Store.step, hnew]
      refine ⟨bp', front', update_self .., rfl, ?_, hwr', hpos'⟩
      obtain ⟨rest, hrest⟩ := hext.isPrefix
      rw [hchain] at hhead
      rw [← hrest, List.head?_append, hhead]
      rfl

theorem endWrite (h : Refines st s chains) {i : ℕ} (he : st.Enabled (.endWrite i)) :
    Simulates st s (.endWrite i) := by
  obtain ⟨b, bs, hw⟩ := he
  obtain ⟨bp, front, hbp, hchain, hhead, hwr, hpos⟩ := h.writer hw
  have hnodup : (front ++ [bp.bufnum]).Nodup := hchain ▸ h.nodup (.writer i)
  obtain ⟨f', hok, hholds, hblocks, hsize⟩ := endWrite_spec hnodup hwr hpos
  have hlive : st.live b = none :=
    h.live_eq_none (.inr ⟨.writer i, nofun, mem_of_mem_head? hhead⟩)
  have hnone := h.owns (.live b)
  rw [Owns, hlive] at hnone
  refine ⟨{ s with file := f', writers := Function.update s.writers i none }, {},
    chains ∘ Equiv.swap (.writer i) (.live b), ?_, ⟨rfl, nofun, nofun, nofun⟩,
    h.move rfl ?_ ?_ ?_ (fun c hc ↦ hblocks c (hchain ▸ hc)) hsize⟩
  · rw [SwapFile.exec, hbp]
    change Except.map _ (Swap.endWrite _ _) = _
    rw [hok]
    rfl
  · simp only [Owns, Store.step, hw, update_self]
    exact hnone
  · simp only [Owns, Store.step, hw, update_self]
    exact ⟨hhead, hchain ▸ hholds⟩
  · intro o ho₁ ho₂
    simp only [Store.step, hw]
    cases o with
    | live c =>
      have hc : c ≠ b := fun h ↦ ho₂ (h ▸ rfl)
      exact update_of_ne hc ..
    | writer j =>
      have hj : j ≠ i := fun h ↦ ho₁ (h ▸ rfl)
      exact ⟨update_of_ne hj .., update_of_ne hj ..⟩
    | reader j => exact ⟨rfl, rfl⟩

theorem startRead (h : Refines st s chains) {i blkno : ℕ} (he : st.Enabled (.startRead i blkno)) :
    Simulates st s (.startRead i blkno) := by
  obtain ⟨hi, bs, hl⟩ := he
  have hown := h.owns (.live blkno)
  rw [Owns, hl] at hown
  obtain ⟨hhead, hholds⟩ := hown
  obtain ⟨rest, hchain⟩ := List.head?_eq_some_iff.1 hhead
  have huse : s.alloc.InUse blkno := h.inUse _ blkno (mem_of_mem_head? hhead)
  have hlt : blkno < s.file.size := by
    rw [hchain] at hholds
    rcases rest with - | ⟨c, rest⟩
    · exact hholds.1
    · exact hholds.1
  have hnone := h.owns (.reader i)
  rw [Owns, hi] at hnone
  refine ⟨{ s with
      readers := Function.update s.readers i (some (.start blkno (s.file.blocks blkno))) }, {},
    chains ∘ Equiv.swap (.live blkno) (.reader i), ?_, ⟨rfl, nofun, nofun, nofun⟩,
    h.move rfl ?_ ?_ ?_ (fun _ _ ↦ rfl) le_rfl⟩
  · rw [SwapFile.exec, Swap.startRead, if_neg huse.ne_zero, bread, if_pos hlt]
    rfl
  · simp only [Owns, Store.step, update_self]
    exact hnone
  · simp only [Owns, Store.step, hl, update_self]
    exact ⟨.start blkno (s.file.blocks blkno), rest, rfl, hchain, rfl, bs, hchain ▸ hholds,
      Nat.zero_le _, rfl⟩
  · intro o ho₁ ho₂
    cases o with
    | live c =>
      have hc : c ≠ blkno := fun h ↦ ho₁ (h ▸ rfl)
      exact update_of_ne hc ..
    | writer j => exact ⟨rfl, rfl⟩
    | reader j =>
      have hj : j ≠ i := fun h ↦ ho₂ (h ▸ rfl)
      exact ⟨update_of_ne hj .., update_of_ne hj ..⟩

theorem read (h : Refines st s chains) {i len : ℕ} (he : st.Enabled (.read i len)) :
    Simulates st s (.read i len) := by
  obtain ⟨bs, hr, hlen⟩ := he
  obtain ⟨bp, rest, hbp, hchain, hrd⟩ := h.reader hr
  have huse : ∀ c ∈ bp.bufnum :: rest, s.alloc.InUse c := hchain ▸ h.inUse (.reader i)
  have hnodup : (bp.bufnum :: rest).Nodup := hchain ▸ h.nodup (.reader i)
  obtain ⟨a', rest', bp', hok, hsh, hrd'⟩ :=
    swapReadLoop_spec len h.ok huse hnodup hrd len le_rfl hlen
  refine ⟨{ s with alloc := a', readers := Function.update s.readers i (some bp') },
    { bytes := bs.take len }, Function.update chains (.reader i) (bp'.bufnum :: rest'), ?_,
    ⟨?_, nofun, nofun, nofun⟩,
    h.update hsh.ok ?_ (hnodup.sublist hsh.isSuffix.sublist)
      (fun c hc ↦ .inl (hchain ▸ hsh.isSuffix.subset hc)) hsh.inUse (fun o' ho ↦ same_reader ho)
      (fun c hc hu ↦ ⟨hsh.others c (hchain ▸ hc) hu, rfl⟩) le_rfl⟩
  · rw [SwapFile.exec, hbp]
    change Except.map _ (swapReadLoop _ _ _ _ _) = _
    rw [hok]
    rfl
  · rw [Store.bytes, hr]
    rfl
  · simp only [Owns, Store.step, hr, Option.map_some, update_self]
    exact ⟨bp', rest', rfl, rfl, hrd'⟩

theorem endRead (h : Refines st s chains) {i : ℕ} (he : st.Enabled (.endRead i)) :
    Simulates st s (.endRead i) := by
  obtain ⟨bp, rest, hbp, hchain, hrd⟩ := h.reader he
  have huse : ∀ c ∈ bp.bufnum :: rest, s.alloc.InUse c := hchain ▸ h.inUse (.reader i)
  obtain ⟨a', hok, hok', hothers⟩ := endRead_spec h.ok huse hrd
  refine ⟨{ s with alloc := a', readers := Function.update s.readers i none }, {},
    Function.update chains (.reader i) [], ?_, ⟨rfl, nofun, nofun, nofun⟩,
    h.update hok' ?_ nodup_nil (fun c hc ↦ absurd hc not_mem_nil)
      (fun c hc ↦ absurd hc not_mem_nil) (fun o' ho ↦ same_reader ho)
      (fun c hc hu ↦ ⟨hothers c (hchain ▸ hc) hu, rfl⟩) le_rfl⟩
  · rw [SwapFile.exec, hbp]
    change Except.map _ (Swap.endRead _ _) = _
    rw [hok]
    rfl
  · simp only [Owns, Store.step, update_self]

/-- **Every event the callers may do** is answered as the store answers it, unless it needs more
blocks than there are. -/
theorem exec (h : Refines st s chains) {e : Event} (he : st.Enabled e) :
    (s.exec e = .error .full ∧ s.alloc.Scarce e.blocks) ∨ Simulates st s e := by
  cases e with
  | startWrite i => exact h.startWrite i
  | write i new => exact h.write he
  | endWrite i => exact .inr (h.endWrite he)
  | startRead i blkno => exact .inr (h.startRead he)
  | read i len => exact .inr (h.read he)
  | endRead i => exact .inr (h.endRead he)

end Refines

/-! ### Every run -/

theorem refines_init {k : ℕ} (hk₁ : 3 ≤ k) (hk₂ : k ≤ 29) :
    Refines .empty (.init (2 ^ k)) fun _ ↦ [] := by
  refine ⟨Alloc.initSwap_ok hk₁ hk₂, fun o ↦ ?_, fun _ ↦ nodup_nil,
    fun _ _ _ ↦ disjoint_nil_left _, fun _ b hb ↦ absurd hb not_mem_nil⟩
  cases o with
  | live b => rfl
  | writer i => rfl
  | reader i => rfl

theorem refines_of_reachable {p : Store × SwapFile} (hp : swapFiles.Reachable p) :
    ∃ chains, Refines p.1 p.2 chains := by
  refine hp.invariant (I := fun p ↦ ∃ chains, Refines p.1 p.2 chains) ?_ ?_
  · rintro _ ⟨k, hk₁, hk₂, rfl⟩
    exact ⟨_, refines_init hk₁ hk₂⟩
  · rintro ⟨st, s⟩ e _ ⟨chains, h⟩ ⟨he, s', ans, hexec, rfl⟩
    dsimp only at he hexec
    rcases h.exec he with ⟨hfull, -⟩ | ⟨s'', ans', chains', hok, -, h'⟩
    · rw [hexec] at hfull
      cases hfull
    · rw [hexec] at hok
      cases hok
      exact ⟨chains', h'⟩

/-- **The swap file refines a store of byte strings.** In every reachable state, every event that
the callers may do there is answered as the store answers it: no consistency check fails, the key
of a new string is not 0 and is no other string's, and what is read is what was written. The one
other outcome is that there are fewer blocks left than the event may take. The strings that are
stored, written or read have disjoint chains of blocks that are in use, and so neither free nor
block 0. Block 0 is not free, and no block below `swap_minfree` is. -/
theorem swap_refines {p : Store × SwapFile} (hp : swapFiles.Reachable p) :
    (∀ e, p.1.Enabled e →
      (∃ s' ans, p.2.exec e = .ok (s', ans) ∧ p.1.Answers e ans) ∨
        (p.2.exec e = .error .full ∧ p.2.alloc.Scarce e.blocks)) ∧
      (∃ chains, Refines p.1 p.2 chains) ∧
      ∀ b, p.2.alloc.bitmap.test b = true → b ≠ 0 ∧ p.2.alloc.minfree ≤ b := by
  obtain ⟨chains, h⟩ := refines_of_reachable hp
  refine ⟨fun e he ↦ ?_, ⟨chains, h⟩, fun b hb ↦ ⟨?_, ?_⟩⟩
  · rcases h.exec he with hfull | ⟨s', ans, -, hok, hans, -⟩
    · exact .inr hfull
    · exact .inl ⟨s', ans, hok, hans⟩
  · rintro rfl
    rw [h.ok.zero] at hb
    cases hb
  · by_contra hlt
    rw [h.ok.minfree b (Nat.not_le.1 hlt)] at hb
    cases hb

instance (st : Store) (e : Event) : Decidable (st.Enabled e) := by
  have (o : Option (ℕ × Bytes)) : Decidable (∃ b bs, o = some (b, bs)) :=
    decidable_of_iff (o.isSome = true) (Option.isSome_iff_exists.trans Prod.exists)
  have (o : Option Bytes) : Decidable (∃ bs, o = some bs) :=
    decidable_of_iff (o.isSome = true) Option.isSome_iff_exists
  have (o : Option Bytes) (n : ℕ) : Decidable (∃ bs, o = some bs ∧ n ≤ bs.length) :=
    decidable_of_iff (o.any fun bs ↦ n ≤ bs.length) (by simp [Option.any_eq_true])
  cases e <;> unfold Store.Enabled <;> infer_instance

/-- One step of the two. -/
def execBoth (p : Store × SwapFile) (e : Event) : Option (Store × SwapFile) :=
  (p.2.exec e).toOption.map fun r ↦ (p.1.step r.2.blkno e, r.1)

/-- A string that takes two blocks is written, and a short one; most of the first is read, and a
third one takes the block that is free by then. -/
def busyFile : List Event :=
  [.startWrite 0, .write 0 (List.replicate 250 7), .startWrite 1, .write 0 [7, 7, 8, 9],
    .endWrite 0, .write 1 [5], .endWrite 1, .startRead 0 1, .read 0 253, .startWrite 0,
    .write 0 [6], .endWrite 0]

theorem busyFile_live : (TransitionSystem.run execBoth (fun p e ↦ p.1.Enabled e)
    (.empty, .init (2 ^ 3)) busyFile).any (fun p ↦ p.1.live 1 = some [6] && p.1.live 2 = some [5] &&
      p.1.reading 0 = some [9]) = true := by
  decide +kernel

/-- With two strings stored and a third one half read, the rest of it can be read. -/
theorem swap_refines_busy : ∃ p : Store × SwapFile, p.1.live 1 = some [6] ∧
    p.1.live 2 = some [5] ∧ p.1.reading 0 = some [9] ∧
    ((∃ s' ans, p.2.exec (.read 0 1) = .ok (s', ans) ∧ p.1.Answers (.read 0 1) ans) ∨
      (p.2.exec (.read 0 1) = .error .full ∧ p.2.alloc.Scarce (Event.read 0 1).blocks)) := by
  obtain ⟨p, hrun, hp⟩ := (Option.any_eq_true _ _).1 busyFile_live
  simp only [Bool.and_eq_true, decide_eq_true_eq] at hp
  have hreach : swapFiles.Reachable p := by
    refine .run ?_ (.init ⟨3, by decide, by decide, rfl⟩) hrun
    intro q e q' he h
    refine ⟨trivial, he, ?_⟩
    obtain ⟨r, hr, rfl⟩ := Option.map_eq_some_iff.1 h
    cases hq : q.2.exec e with
    | error _ =>
      rw [hq] at hr
      cases hr
    | ok r' =>
      rw [hq] at hr
      cases hr
      exact ⟨_, _, rfl, rfl⟩
  exact ⟨p, hp.1.1, hp.1.2, hp.2, (swap_refines hreach).1 (.read 0 1) ⟨[9], hp.2, le_rfl⟩⟩

end Lpmud.Swap
