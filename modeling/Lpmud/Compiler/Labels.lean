import Lpmud.Compiler.OptimizeJumps
import Lpmud.Lib.Threaded

/-!
# Labels

How the compiler fills in the addresses of labels while it goes over the source once. A reference to
a label that has no address yet holds the place of the reference before it, and the label the place
of the last one (`ins_label`); when the label gets its address, it is written to all of them
(`set_label`).

What is emitted is the same code with references to labels (`Piece`), and in the end there is the
address of its label in each of them, as if all had been known from the beginning (`image_of_run`).
-/

namespace Lpmud.Compiler

open List Option Threaded

/-! ### The blocks -/

/-- `(unsigned short)-1`: no address, or no reference. -/
abbrev NONE : ℕ := 65535

/-- `struct label`. -/
structure LabelEntry where
  address : ℕ
  link : ℕ
  deriving DecidableEq

/-- The blocks `A_PROGRAM`, with its current size, and `A_LABELS`. -/
structure Blocks where
  program : Mem
  currentSize : ℕ
  labels : List LabelEntry

namespace Blocks

/-- `add_to_mem_block`, for the program. -/
def addToProgram (b : Blocks) (bytes : List UInt8) : Blocks :=
  { b with
    program := fun i ↦
      if b.currentSize ≤ i ∧ i < b.currentSize + bytes.length then
        bytes.getD (i - b.currentSize) 0
      else b.program i
    currentSize := b.currentSize + bytes.length }

def insShort (b : Blocks) (l : ℕ) : Blocks :=
  b.addToProgram [.ofNat l, .ofNat (l / 256)]

/-- `make_label`: the number of the new label. -/
def makeLabel (b : Blocks) : ℕ × Blocks :=
  (b.labels.length, { b with labels := b.labels ++ [⟨NONE, NONE⟩] })

def insLabel (b : Blocks) (lbl : ℕ) : Option Blocks :=
  b.labels[lbl]?.map fun l ↦
    let here := b.currentSize % 65536
    if l.address ≠ NONE then b.insShort l.address
    else { b.insShort l.link with labels := b.labels.set lbl { l with link := here } }

/-- The loop of `set_label`, up to a number of rounds. A reference is in the program. -/
def setLabelLoop (size addr : ℕ) : ℕ → Mem → ℕ → Option Mem
  | fuel, m, link1 =>
    if link1 = NONE then some m
    else match fuel with
      | 0 => none
      | fuel + 1 =>
        if link1 + 1 < size then
          let next := readShort m link1
          setLabelLoop size addr fuel (updShort m link1 addr) next
        else none

def setLabel (b : Blocks) (lbl addr : ℕ) : Option Blocks :=
  b.labels[lbl]?.bind fun l ↦
    (setLabelLoop b.currentSize addr b.currentSize b.program l.link).map fun m ↦
      { b with program := m, labels := b.labels.set lbl ⟨addr, NONE⟩ }

end Blocks

/-- What the compiler does with code and labels. -/
inductive Emit where
  | makeLabel
  | insLabel (lbl : ℕ)
  | setLabel (lbl addr : ℕ)
  /-- Any other code is emitted. -/
  | code (bytes : List UInt8)
  deriving DecidableEq

namespace Blocks

/-- One of these. -/
def exec (b : Blocks) : Emit → Option Blocks
  | .makeLabel => some b.makeLabel.2
  | .insLabel lbl => b.insLabel lbl
  | .setLabel lbl addr => b.setLabel lbl addr
  | .code bytes => some (b.addToProgram bytes)

/-- One after the other. -/
def run : Blocks → List Emit → Option Blocks
  | b, [] => some b
  | b, e :: es => (b.exec e).bind fun b' ↦ b'.run es

/-- Nothing has been compiled. What is in memory does not matter. -/
def empty (m : Mem) : Blocks where
  program := m
  currentSize := 0
  labels := []

end Blocks

/-! ### Code with references -/

/-- A piece of code: bytes, or a reference to a label, which takes two bytes. -/
inductive Piece where
  | bytes (bs : List UInt8)
  | ref (lbl : ℕ)
  deriving DecidableEq

namespace Piece

def size : Piece → ℕ
  | .bytes bs => bs.length
  | .ref _ => 2

end Piece

/-- The size of code. -/
def codeSize (ps : List Piece) : ℕ :=
  (ps.map Piece.size).sum

/-- The references to a label in code that begins at `a`. -/
def refs (lbl : ℕ) : ℕ → List Piece → List ℕ
  | _, [] => []
  | a, .bytes bs :: ps => refs lbl (a + bs.length) ps
  | a, .ref lbl' :: ps => if lbl' = lbl then a :: refs lbl (a + 2) ps else refs lbl (a + 2) ps

/-- The bytes that are not references, with their places, in code that begins at `a`. -/
def literals : ℕ → List Piece → List (ℕ × UInt8)
  | _, [] => []
  | a, .bytes bs :: ps =>
    (bs.zipIdx a).map (fun (c, i) ↦ (i, c)) ++ literals (a + bs.length) ps
  | a, .ref _ :: ps => literals (a + 2) ps

/-- The code that is emitted. -/
def pieces (es : List Emit) : List Piece :=
  es.filterMap fun
    | .code bs => some (.bytes bs)
    | .insLabel lbl => some (.ref lbl)
    | _ => none

/-- The address that a label is given, if it is. -/
def addrOf (es : List Emit) (lbl : ℕ) : Option ℕ :=
  es.findSome? fun
    | .setLabel lbl' addr => if lbl' = lbl then some addr else none
    | _ => none

/-- How many labels there are. -/
def labelCount (es : List Emit) : ℕ :=
  es.countP (· = .makeLabel)

/-- A label is made before it is used, and it is given an address once, which is one of the program
up to there. -/
def Allowed (done : List Emit) : Emit → Prop
  | .makeLabel | .code _ => True
  | .insLabel lbl => lbl < labelCount done
  | .setLabel lbl addr =>
    lbl < labelCount done ∧ addrOf done lbl = none ∧ addr ≤ codeSize (pieces done)

/-- All of this is allowed. -/
def LegalFrom : List Emit → List Emit → Prop
  | _, [] => True
  | done, e :: es => Allowed done e ∧ LegalFrom (done ++ [e]) es

/-- All of this is allowed from the beginning, and the code is less than 64 K. -/
def Legal (es : List Emit) : Prop :=
  LegalFrom [] es ∧ codeSize (pieces es) < 65536

/-! ### Places of the code -/

section Places

variable {a i p q lbl lbl' : ℕ} {c : UInt8} {ps qs : List Piece}

@[simp]
theorem codeSize_append (ps qs : List Piece) : codeSize (ps ++ qs) = codeSize ps + codeSize qs := by
  rw [codeSize, map_append, sum_append]
  rfl

theorem codeSize_cons (piece : Piece) (ps : List Piece) :
    codeSize (piece :: ps) = piece.size + codeSize ps := by
  rw [codeSize, map_cons, sum_cons]
  rfl

theorem refs_append (lbl a : ℕ) (ps qs : List Piece) :
    refs lbl a (ps ++ qs) = refs lbl a ps ++ refs lbl (a + codeSize ps) qs := by
  induction ps generalizing a with
  | nil => rfl
  | cons piece ps ih =>
    rw [codeSize_cons, ← Nat.add_assoc]
    cases piece with
    | bytes bs => exact ih _
    | ref lbl' =>
      rw [cons_append, refs, refs, ih]
      split <;> rfl

theorem literals_append (a : ℕ) (ps qs : List Piece) :
    literals a (ps ++ qs) = literals a ps ++ literals (a + codeSize ps) qs := by
  induction ps generalizing a with
  | nil => rfl
  | cons piece ps ih =>
    rw [codeSize_cons, ← Nat.add_assoc]
    cases piece with
    | bytes bs =>
      rw [cons_append, literals, literals, ih, append_assoc]
      rfl
    | ref lbl' => exact ih _

theorem bounds_of_mem_refs (h : p ∈ refs lbl a ps) : a ≤ p ∧ p + 2 ≤ a + codeSize ps := by
  induction ps generalizing a with
  | nil => exact absurd h not_mem_nil
  | cons piece ps ih =>
    rw [codeSize_cons]
    cases piece with
    | bytes bs =>
      have := ih h
      show _ ∧ _ ≤ a + (bs.length + _)
      omega
    | ref lbl' =>
      rw [refs] at h
      show _ ∧ _ ≤ a + (2 + _)
      split at h
      · rcases mem_cons.1 h with rfl | h
        · omega
        · have := ih h
          omega
      · have := ih h
        omega

theorem bounds_of_mem_literals (h : (i, c) ∈ literals a ps) : a ≤ i ∧ i < a + codeSize ps := by
  induction ps generalizing a with
  | nil => exact absurd h not_mem_nil
  | cons piece ps ih =>
    rw [codeSize_cons]
    cases piece with
    | bytes bs =>
      show _ ∧ _ < a + (bs.length + _)
      rcases mem_append.1 h with h | h
      · obtain ⟨⟨c', i'⟩, hmem, heq⟩ := mem_map.1 h
        obtain ⟨rfl, rfl⟩ := Prod.mk.inj heq
        have := mem_zipIdx hmem
        omega
      · have := ih h
        omega
    | ref lbl' =>
      have := ih h
      show _ ∧ _ < a + (2 + _)
      omega

/-- Two places for a short do not overlap. -/
def Apart (p q : ℕ) : Prop :=
  p + 2 ≤ q ∨ q + 2 ≤ p

theorem Apart.symm (h : Apart p q) : Apart q p :=
  Or.symm h

theorem pairwise_refs (lbl a : ℕ) (ps : List Piece) : (refs lbl a ps).Pairwise Apart := by
  induction ps generalizing a with
  | nil => exact .nil
  | cons piece ps ih =>
    cases piece with
    | bytes bs => exact ih _
    | ref lbl' =>
      rw [refs]
      split
      · exact pairwise_cons.2 ⟨fun q hq ↦ .inl (bounds_of_mem_refs hq).1, ih _⟩
      · exact ih _

theorem apart_of_mem_refs (hne : lbl ≠ lbl') (hp : p ∈ refs lbl a ps) (hq : q ∈ refs lbl' a ps) :
    Apart p q := by
  induction ps generalizing a with
  | nil => exact absurd hp not_mem_nil
  | cons piece ps ih =>
    cases piece with
    | bytes bs => exact ih hp hq
    | ref l =>
      rw [refs] at hp hq
      split at hp
      next hl =>
        rw [if_neg (hl ▸ hne)] at hq
        rcases mem_cons.1 hp with rfl | hp
        · exact .inl (bounds_of_mem_refs hq).1
        · exact ih hp hq
      next hl =>
        split at hq
        · rcases mem_cons.1 hq with rfl | hq
          · exact .inr (bounds_of_mem_refs hp).1
          · exact ih hp hq
        · exact ih hp hq

theorem apart_of_mem_literals (hi : (i, c) ∈ literals a ps) (hp : p ∈ refs lbl a ps) :
    i ≠ p ∧ i ≠ p + 1 := by
  induction ps generalizing a with
  | nil => exact absurd hp not_mem_nil
  | cons piece ps ih =>
    cases piece with
    | bytes bs =>
      rcases mem_append.1 hi with hi | hi
      · obtain ⟨⟨c', i'⟩, hmem, heq⟩ := mem_map.1 hi
        obtain ⟨rfl, rfl⟩ := Prod.mk.inj heq
        have hlt := mem_zipIdx hmem
        have hle := bounds_of_mem_refs (show p ∈ refs lbl (a + bs.length) ps from hp)
        omega
      · exact ih hi hp
    | ref l =>
      have hle := bounds_of_mem_literals (show (i, c) ∈ literals (a + 2) ps from hi)
      rw [refs] at hp
      split at hp
      · rcases mem_cons.1 hp with rfl | hp
        · omega
        · exact ih hi hp
      · exact ih hi hp

theorem length_refs_le (lbl a : ℕ) (ps : List Piece) : (refs lbl a ps).length ≤ codeSize ps := by
  induction ps generalizing a with
  | nil => exact le_rfl
  | cons piece ps ih =>
    rw [codeSize_cons]
    cases piece with
    | bytes bs => exact (ih _).trans (Nat.le_add_left _ _)
    | ref lbl' =>
      have hle := ih (a + 2)
      rw [refs]
      show _ ≤ 2 + codeSize ps
      split
      · rw [length_cons]
        omega
      · omega

end Places

/-! ### What is written -/

section Writing

variable {b : Blocks} {m : Mem} {p q i l size addr : ℕ}

theorem readShort_congr {m' : Mem} (h : m' p = m p) (h' : m' (p + 1) = m (p + 1)) :
    readShort m' p = readShort m p := by
  rw [readShort, readShort, h, h']

theorem readShort_updShort_of_apart (h : Apart p q) :
    readShort (updShort m q l) p = readShort m p := by
  unfold Apart at h
  exact readShort_congr (updShort_of_ne (by omega) (by omega))
    (updShort_of_ne (by omega) (by omega))

theorem Blocks.addToProgram_of_lt (bytes : List UInt8) (h : i < b.currentSize) :
    (b.addToProgram bytes).program i = b.program i :=
  if_neg fun hi ↦ absurd hi.1 (Nat.not_le.2 h)

theorem Blocks.addToProgram_of_mem {bytes : List UInt8} {c : UInt8}
    (h : (c, i) ∈ bytes.zipIdx b.currentSize) : (b.addToProgram bytes).program i = c := by
  obtain ⟨hle, hlt, hc⟩ := mem_zipIdx h
  show (if _ then _ else _) = _
  rw [if_pos ⟨hle, hlt⟩, hc, getD_eq_getElem?_getD, List.getElem?_eq_getElem (by omega),
    getD_some]

theorem Blocks.readShort_insShort (h : l < 65536) :
    readShort (b.insShort l).program b.currentSize = l := by
  have h0 : (b.insShort l).program b.currentSize = .ofNat l :=
    Blocks.addToProgram_of_mem (by simp)
  have h1 : (b.insShort l).program (b.currentSize + 1) = .ofNat (l / 256) :=
    Blocks.addToProgram_of_mem (by simp)
  rw [readShort, h0, h1, shortOf_ofNat h]

theorem setLabelLoop_eq {ps : List ℕ} {first : ℕ} (hchain : Chain readShort NONE m first ps)
    (hapart : ps.Pairwise Apart) (hsize : ∀ p ∈ ps, p + 1 < size) {fuel : ℕ}
    (hfuel : ps.length ≤ fuel) :
    Blocks.setLabelLoop size addr fuel m first = some (overwrite updShort addr m ps) := by
  induction ps generalizing fuel m first with
  | nil =>
    obtain rfl : first = NONE := hchain
    rw [Blocks.setLabelLoop.eq_def]
    exact if_pos rfl
  | cons p ps ih =>
    obtain ⟨rfl, hne, hchain⟩ := hchain
    obtain ⟨hp, hapart⟩ := pairwise_cons.1 hapart
    obtain ⟨hlt, hsize⟩ := forall_mem_cons.1 hsize
    rcases fuel with - | fuel
    · exact absurd hfuel (Nat.not_succ_le_zero _)
    rw [Blocks.setLabelLoop.eq_def]
    dsimp only
    rw [if_neg hne, if_pos hlt]
    -- Writing the address does not touch the references that are still to come.
    exact ih (hchain.congr fun q hq ↦ readShort_updShort_of_apart (hp q hq).symm) hapart hsize
      (Nat.le_of_succ_le_succ hfuel)

end Writing

/-! ### The invariant -/

/-- A label that has an address is not waited for any more, and all its references hold the address.
The references to the others are in a list, from the last one on. -/
def LabelOk (m : Mem) (size : ℕ) (refs : List ℕ) (l : LabelEntry) : Option ℕ → Prop
  | some a => l = ⟨a, NONE⟩ ∧ a ≤ size ∧ ∀ p ∈ refs, readShort m p = a
  | none => l.address = NONE ∧ Chain readShort NONE m l.link refs.reverse

/-- **The blocks after all this**: the labels and the bytes are there, and the labels and their
references are in order. -/
structure Patched (b : Blocks) (es : List Emit) : Prop where
  size_eq : b.currentSize = codeSize (pieces es)
  count_eq : b.labels.length = labelCount es
  literal : ∀ i c, (i, c) ∈ literals 0 (pieces es) → b.program i = c
  label : ∀ lbl l, b.labels[lbl]? = some l →
    LabelOk b.program b.currentSize (refs lbl 0 (pieces es)) l (addrOf es lbl)
  fresh : ∀ lbl, b.labels.length ≤ lbl → refs lbl 0 (pieces es) = [] ∧ addrOf es lbl = none

theorem LabelOk.congr {m m' : Mem} {size size' : ℕ} {rs : List ℕ} {l : LabelEntry}
    {a : Option ℕ} (h : LabelOk m size rs l a) (hsize : size ≤ size')
    (hm : ∀ p ∈ rs, readShort m' p = readShort m p) : LabelOk m' size' rs l a := by
  cases a with
  | none => exact ⟨h.1, h.2.congr fun p hp ↦ hm p (mem_reverse.1 hp)⟩
  | some a => exact ⟨h.1, h.2.1.trans hsize, fun p hp ↦ (hm p hp).trans (h.2.2 p hp)⟩

theorem patched_empty (m : Mem) : Patched (.empty m) [] where
  size_eq := rfl
  count_eq := rfl
  literal _ _ h := absurd h not_mem_nil
  label lbl l h := by simp [Blocks.empty] at h
  fresh _ _ := ⟨rfl, rfl⟩

section Steps

variable {b : Blocks} {es : List Emit} {lbl : ℕ}

@[simp]
theorem pieces_append (es es' : List Emit) : pieces (es ++ es') = pieces es ++ pieces es' :=
  filterMap_append

theorem Patched.bounds (h : Patched b es) {p : ℕ} (hp : p ∈ refs lbl 0 (pieces es)) :
    p + 2 ≤ b.currentSize := by
  have hle := (bounds_of_mem_refs hp).2
  rw [h.size_eq]
  omega

theorem Patched.readShort_add (h : Patched b es) (bytes : List UInt8) {p : ℕ}
    (hp : p ∈ refs lbl 0 (pieces es)) :
    readShort (b.addToProgram bytes).program p = readShort b.program p := by
  have hle := h.bounds hp
  exact readShort_congr (Blocks.addToProgram_of_lt _ (by omega))
    (Blocks.addToProgram_of_lt _ (by omega))

theorem addrOf_append_of_not_set (es : List Emit) {e : Emit}
    (he : ∀ l a, e ≠ .setLabel l a) (lbl : ℕ) : addrOf (es ++ [e]) lbl = addrOf es lbl := by
  rw [addrOf, List.findSome?_append]
  cases e with
  | setLabel l a => exact absurd rfl (he l a)
  | _ => exact or_none

theorem labelCount_append (es : List Emit) (e : Emit) :
    labelCount (es ++ [e]) = labelCount es + if e = .makeLabel then 1 else 0 := by
  rw [labelCount, countP_append, countP_singleton]
  simp [labelCount]

theorem Patched.makeLabel (h : Patched b es) : Patched b.makeLabel.2 (es ++ [.makeLabel]) := by
  have hp : pieces (es ++ [.makeLabel]) = pieces es := by
    rw [pieces_append]
    exact append_nil _
  have ha := addrOf_append_of_not_set es (e := .makeLabel) nofun
  refine ⟨hp ▸ h.size_eq, ?_, hp ▸ h.literal, fun lbl l hl ↦ ?_, fun lbl hlbl ↦ ?_⟩
  · rw [labelCount_append, if_pos rfl, ← h.count_eq]
    exact length_append
  · rw [hp, ha]
    rcases Nat.lt_or_ge lbl b.labels.length with hlt | hge
    · refine h.label lbl l ?_
      rwa [← hl, Blocks.makeLabel, List.getElem?_append_left]
    · obtain ⟨hrefs, haddr⟩ := h.fresh lbl hge
      rw [hrefs, haddr]
      have hl' : [LabelEntry.mk NONE NONE][lbl - b.labels.length]? = some l := by
        rwa [← hl, Blocks.makeLabel, List.getElem?_append_right]
      rw [List.getElem?_singleton] at hl'
      obtain ⟨-, hl'⟩ := ite_none_right_eq_some.1 hl'
      obtain rfl := some.inj hl'
      exact ⟨rfl, rfl⟩
  · rw [hp, ha]
    refine h.fresh lbl (Nat.le_trans ?_ hlbl)
    rw [Blocks.makeLabel, length_append]
    exact Nat.le_add_right _ _

theorem Patched.code (h : Patched b es) (bs : List UInt8) :
    Patched (b.addToProgram bs) (es ++ [.code bs]) := by
  have hp : pieces (es ++ [.code bs]) = pieces es ++ [.bytes bs] := pieces_append es _
  have ha := addrOf_append_of_not_set es (e := .code bs) nofun
  have hrefs (lbl : ℕ) : refs lbl 0 (pieces es ++ [.bytes bs]) = refs lbl 0 (pieces es) := by
    rw [refs_append]
    exact append_nil _
  refine ⟨?_, ?_, fun i c hi ↦ ?_, fun lbl l hl ↦ ?_, fun lbl hlbl ↦ ?_⟩
  · rw [hp, codeSize_append, ← h.size_eq]
    rfl
  · rw [labelCount_append, if_neg nofun]
    exact h.count_eq
  · rw [hp, literals_append, Nat.zero_add] at hi
    rcases mem_append.1 hi with hi | hi
    · have hlt := (bounds_of_mem_literals hi).2
      rw [Blocks.addToProgram_of_lt bs (by rw [h.size_eq]; omega)]
      exact h.literal i c hi
    · rw [literals, literals, append_nil, ← h.size_eq] at hi
      obtain ⟨⟨c', i'⟩, hmem, heq⟩ := mem_map.1 hi
      obtain ⟨rfl, rfl⟩ := Prod.mk.inj heq
      exact Blocks.addToProgram_of_mem hmem
  · rw [hp, ha, hrefs]
    exact (h.label lbl l hl).congr (Nat.le_add_right _ _) fun p hp ↦ h.readShort_add bs hp
  · rw [hp, ha, hrefs]
    exact h.fresh lbl hlbl

theorem refs_append_ref (lbl lbl' : ℕ) (ps : List Piece) :
    refs lbl 0 (ps ++ [.ref lbl']) =
      refs lbl 0 ps ++ if lbl' = lbl then [codeSize ps] else [] := by
  rw [refs_append, Nat.zero_add, refs]
  rfl

theorem Patched.insLabel (h : Patched b es) (hlbl : lbl < labelCount es)
    (hsize : codeSize (pieces (es ++ [.insLabel lbl])) < 65536) :
    ∃ b', b.insLabel lbl = some b' ∧ Patched b' (es ++ [.insLabel lbl]) := by
  have hp : pieces (es ++ [.insLabel lbl]) = pieces es ++ [.ref lbl] := pieces_append es _
  have ha := addrOf_append_of_not_set es (e := .insLabel lbl) nofun
  rw [hp, codeSize_append, ← h.size_eq] at hsize
  replace hsize : b.currentSize + 2 < 65536 := hsize
  have hlt : lbl < b.labels.length := h.count_eq ▸ hlbl
  obtain ⟨l, hl⟩ : ∃ l, b.labels[lbl]? = some l := ⟨_, List.getElem?_eq_getElem hlt⟩
  have hok := h.label lbl l hl
  -- Whatever is inserted, the rest of the code stays.
  have hliteral (v i : ℕ) (c : UInt8) (hi : (i, c) ∈ literals 0 (pieces es ++ [.ref lbl])) :
      (b.insShort v).program i = c := by
    rw [literals_append, literals, literals, append_nil] at hi
    have hilt := (bounds_of_mem_literals hi).2
    rw [Blocks.insShort, Blocks.addToProgram_of_lt _ (by rw [h.size_eq]; omega)]
    exact h.literal i c hi
  have hother (v : ℕ) {lbl' : ℕ} {l' : LabelEntry} (hne : lbl ≠ lbl')
      (hl' : b.labels[lbl']? = some l') :
      LabelOk (b.insShort v).program (b.currentSize + 2)
        (refs lbl' 0 (pieces es ++ [.ref lbl])) l' (addrOf es lbl') := by
    rw [refs_append_ref, if_neg hne, append_nil]
    exact (h.label lbl' l' hl').congr (Nat.le_add_right _ _) fun p hp ↦ h.readShort_add _ hp
  have hcount : b.labels.length = labelCount (es ++ [.insLabel lbl]) := by
    rw [labelCount_append, if_neg nofun]
    exact h.count_eq
  have hcodeSize : b.currentSize + 2 = codeSize (pieces es ++ [.ref lbl]) := by
    rw [codeSize_append, ← h.size_eq]
    rfl
  have hfresh {lbl' : ℕ} (hle : b.labels.length ≤ lbl') :
      refs lbl' 0 (pieces es ++ [.ref lbl]) = [] ∧ addrOf es lbl' = none := by
    rw [refs_append_ref, if_neg (Nat.ne_of_lt (Nat.lt_of_lt_of_le hlt hle)), append_nil]
    exact h.fresh lbl' hle
  rw [Blocks.insLabel, hl, map_some]
  dsimp only
  rcases haddr : addrOf es lbl with - | a
  · -- The label is not known: the new reference goes in front of the list.
    rw [haddr] at hok
    obtain ⟨hnone, hchain⟩ := hok
    rw [if_neg (not_not.2 hnone)]
    have hlink : l.link < 65536 := by
      rcases hrev : (refs lbl 0 (pieces es)).reverse with - | ⟨q, qs⟩
      · rw [hrev] at hchain
        exact Nat.lt_of_le_of_lt (Nat.le_of_eq hchain) (by decide)
      · rw [hrev] at hchain
        have hq : q ∈ refs lbl 0 (pieces es) := mem_reverse.1 (hrev ▸ mem_cons_self)
        have := h.bounds hq
        rw [hchain.1]
        omega
    refine ⟨_, rfl, ⟨hp ▸ hcodeSize, ?_, hp ▸ hliteral _, fun lbl' l' hl' ↦ ?_, fun lbl' hle ↦ ?_⟩⟩
    · rw [length_set]
      exact hcount
    · rw [hp, ha]
      dsimp only at hl' ⊢
      rcases eq_or_ne lbl lbl' with rfl | hne
      · rw [List.getElem?_set_self hlt] at hl'
        obtain rfl := some.inj hl'
        rw [haddr, refs_append_ref, if_pos rfl, ← h.size_eq]
        refine ⟨hnone, ?_⟩
        rw [reverse_append, Nat.mod_eq_of_lt (by omega)]
        refine ⟨rfl, show b.currentSize ≠ 65535 by omega, ?_⟩
        rw [Blocks.readShort_insShort hlink]
        exact hchain.congr fun p hp ↦ h.readShort_add _ (mem_reverse.1 hp)
      · rw [List.getElem?_set_ne hne] at hl'
        exact hother _ hne hl'
    · rw [hp, ha]
      dsimp only at hle
      rw [length_set] at hle
      exact hfresh hle
  · -- The label has an address, which is not that of the mark.
    rw [haddr] at hok
    obtain ⟨rfl, hle, hrefs⟩ := hok
    dsimp only
    rw [if_pos (show a ≠ 65535 by omega)]
    refine ⟨_, rfl, ⟨hp ▸ hcodeSize, hcount, hp ▸ hliteral _, fun lbl' l' hl' ↦ ?_,
      fun lbl' hle ↦ ?_⟩⟩
    · rw [hp, ha]
      rcases eq_or_ne lbl lbl' with rfl | hne
      · obtain rfl := some.inj (hl.symm.trans hl')
        rw [haddr, refs_append_ref, if_pos rfl, ← h.size_eq]
        refine ⟨rfl, hle.trans (Nat.le_add_right _ _), forall_mem_append.2 ⟨fun p hp ↦ ?_, ?_⟩⟩
        · rw [Blocks.insShort, h.readShort_add _ hp]
          exact hrefs p hp
        · exact forall_mem_singleton.2 (Blocks.readShort_insShort (by omega))
      · exact hother _ hne hl'
    · rw [hp, ha]
      exact hfresh hle

theorem addrOf_append_setLabel (es : List Emit) (addr : ℕ) (h : addrOf es lbl = none)
    (lbl' : ℕ) :
    addrOf (es ++ [.setLabel lbl addr]) lbl' =
      if lbl = lbl' then some addr else addrOf es lbl' := by
  rw [addrOf, List.findSome?_append, ← addrOf, List.findSome?_singleton]
  show (addrOf es lbl').or (if lbl = lbl' then some addr else none) = _
  rcases eq_or_ne lbl lbl' with rfl | hne
  · rw [h, if_pos rfl]
    rfl
  · rw [if_neg hne, if_neg hne, or_none]

theorem Patched.setLabel (h : Patched b es) {addr : ℕ}
    (hallowed : Allowed es (.setLabel lbl addr)) (hsize : codeSize (pieces es) < 65536) :
    ∃ b', b.setLabel lbl addr = some b' ∧ Patched b' (es ++ [.setLabel lbl addr]) := by
  obtain ⟨hlbl, hnone, hle⟩ := hallowed
  have hp : pieces (es ++ [.setLabel lbl addr]) = pieces es := by
    rw [pieces_append]
    exact append_nil _
  have ha := addrOf_append_setLabel es addr hnone
  have hlt : lbl < b.labels.length := h.count_eq ▸ hlbl
  obtain ⟨l, hl⟩ : ∃ l, b.labels[lbl]? = some l := ⟨_, List.getElem?_eq_getElem hlt⟩
  have hok := h.label lbl l hl
  rw [hnone] at hok
  obtain ⟨-, hchain⟩ := hok
  set rs := refs lbl 0 (pieces es) with hrs
  have hapart : rs.reverse.Pairwise Apart :=
    pairwise_reverse.2 ((pairwise_refs lbl 0 (pieces es)).imp Apart.symm)
  have hloop : Blocks.setLabelLoop b.currentSize addr b.currentSize b.program l.link =
      some (overwrite updShort addr b.program rs.reverse) := by
    refine setLabelLoop_eq hchain hapart (fun p hp ↦ ?_) ?_
    · have := h.bounds (mem_reverse.1 hp)
      omega
    · rw [length_reverse, h.size_eq]
      exact length_refs_le lbl 0 _
  rw [Blocks.setLabel, hl, bind_some, hloop, map_some]
  refine ⟨_, rfl, ⟨hp ▸ h.size_eq, ?_, fun i c hi ↦ ?_, fun lbl' l' hl' ↦ ?_, fun lbl' hle' ↦ ?_⟩⟩
  · rw [length_set, labelCount_append, if_neg nofun]
    exact h.count_eq
  · rw [hp] at hi
    rw [← h.literal i c hi]
    refine overwrite_of_apart (fun m : Mem ↦ m i) fun m p hp ↦ ?_
    obtain ⟨hne, hne'⟩ := apart_of_mem_literals hi (mem_reverse.1 hp)
    exact updShort_of_ne hne hne'
  · rw [hp, ha]
    dsimp only at hl' ⊢
    rcases eq_or_ne lbl lbl' with rfl | hne
    · rw [List.getElem?_set_self hlt] at hl'
      obtain rfl := some.inj hl'
      rw [if_pos rfl]
      refine ⟨rfl, h.size_eq ▸ hle, fun p hp ↦ ?_⟩
      exact get_overwrite (fun m p ↦ readShort_updShort m p (by omega))
        (fun m p q hpq ↦ readShort_updShort_of_apart hpq) hapart (mem_reverse.2 hp)
    · -- The lists of the others do not run through these places.
      rw [List.getElem?_set_ne hne] at hl'
      rw [if_neg hne]
      refine (h.label lbl' l' hl').congr le_rfl fun q hq ↦ ?_
      refine overwrite_of_apart (readShort · q) fun m p hp ↦ ?_
      exact readShort_updShort_of_apart (apart_of_mem_refs hne (mem_reverse.1 hp) hq).symm
  · dsimp only at hle'
    rw [length_set] at hle'
    rw [hp, ha, if_neg (Nat.ne_of_lt (Nat.lt_of_lt_of_le hlt hle'))]
    exact h.fresh lbl' hle'

/-- **One step** of the compiler keeps the blocks in order. -/
theorem Patched.exec (h : Patched b es) {e : Emit} (he : Allowed es e)
    (hsize : codeSize (pieces (es ++ [e])) < 65536) :
    ∃ b', b.exec e = some b' ∧ Patched b' (es ++ [e]) := by
  cases e with
  | makeLabel => exact ⟨_, rfl, h.makeLabel⟩
  | insLabel lbl => exact h.insLabel he hsize
  | setLabel lbl addr =>
    rw [pieces_append, codeSize_append] at hsize
    exact h.setLabel he (by omega)
  | code bs => exact ⟨_, rfl, h.code bs⟩

theorem Patched.run (h : Patched b es) {es' : List Emit} (hes : LegalFrom es es')
    (hsize : codeSize (pieces (es ++ es')) < 65536) :
    ∃ b', b.run es' = some b' ∧ Patched b' (es ++ es') := by
  induction es' generalizing b es with
  | nil => exact ⟨b, rfl, by rwa [append_nil]⟩
  | cons e es' ih =>
    obtain ⟨he, hes⟩ := hes
    rw [append_cons] at hsize ⊢
    obtain ⟨b₁, hb₁, h₁⟩ := h.exec he (by rw [pieces_append, codeSize_append] at hsize; omega)
    obtain ⟨b₂, hb₂, h₂⟩ := ih h₁ hes hsize
    refine ⟨b₂, ?_, h₂⟩
    rw [Blocks.run, hb₁, bind_some, hb₂]

end Steps

/-! ### The code in the end -/

/-- **The code is there**: in each reference to a label that has an address there is this address,
and all other bytes are as they were emitted. -/
structure Image (b : Blocks) (es : List Emit) : Prop where
  size_eq : b.currentSize = codeSize (pieces es)
  ref : ∀ lbl addr, addrOf es lbl = some addr → ∀ p ∈ refs lbl 0 (pieces es),
    readShort b.program p = addr
  literal : ∀ i c, (i, c) ∈ literals 0 (pieces es) → b.program i = c

theorem Patched.image {b : Blocks} {es : List Emit} (h : Patched b es) : Image b es where
  size_eq := h.size_eq
  literal := h.literal
  ref lbl addr haddr p hp := by
    rcases Nat.lt_or_ge lbl b.labels.length with hlt | hge
    · have hok := h.label lbl _ (List.getElem?_eq_getElem hlt)
      rw [haddr] at hok
      exact hok.2.2 p hp
    · rw [(h.fresh lbl hge).1] at hp
      exact absurd hp not_mem_nil

/-- **Labels are filled in right**: whatever labels are made, used and given their addresses, in
whatever order, and whatever other code there is in between. -/
theorem image_of_run (m : Mem) (es : List Emit) (h : Legal es) :
    ∃ b, (Blocks.empty m).run es = some b ∧ Image b es := by
  obtain ⟨b, hb, hpatched⟩ := (patched_empty m).run h.1 h.2
  exact ⟨b, hb, hpatched.image⟩

instance decidableAllowed (done : List Emit) : ∀ e, Decidable (Allowed done e)
  | .makeLabel => .isTrue trivial
  | .code _ => .isTrue trivial
  | .insLabel _ => inferInstanceAs (Decidable (_ < _))
  | .setLabel _ _ => inferInstanceAs (Decidable (_ ∧ _))

instance decidableLegalFrom : ∀ done es, Decidable (LegalFrom done es)
  | _, [] => .isTrue trivial
  | done, e :: es =>
    have := decidableLegalFrom (done ++ [e]) es
    inferInstanceAs (Decidable (_ ∧ _))

instance (es : List Emit) : Decidable (Legal es) :=
  inferInstanceAs (Decidable (_ ∧ _))

/-- Two labels that are open at the same time, with references before and after their addresses are
known. -/
theorem image_of_run_two : ∃ b, (Blocks.empty fun _ ↦ 0).run
    [.makeLabel, .insLabel 0, .makeLabel, .code [15, 4], .insLabel 1, .insLabel 0, .setLabel 1 4,
      .insLabel 1, .setLabel 0 10, .insLabel 0] = some b ∧ Image b
    [.makeLabel, .insLabel 0, .makeLabel, .code [15, 4], .insLabel 1, .insLabel 0, .setLabel 1 4,
      .insLabel 1, .setLabel 0 10, .insLabel 0] :=
  image_of_run _ _ (by decide)

end Lpmud.Compiler
