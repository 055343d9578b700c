import Lpmud.Compiler.Layout
import Lpmud.Lib.JumpGraph

/-!
# The pass over the jumps

`optimize_jumps` on the code of a program. While it goes on (`Loaded`), all instructions are where
they were, and all jumps go to the beginning of instructions, so that the pass is one over the graph
of the jumps (`Loaded.optimizeJumps`, `Loaded.exists_optimizeJumps`). It keeps where every jump
leads to (`Loaded.sameFlow`), but it need not come to an end: what it would have to find at the end
of every chain of jumps is said by `Settled`.
-/

namespace Lpmud.Compiler

open Function List Option JumpGraph Relation

variable {code : List Item} {m m' : Mem} {a b j l : ℕ} {op : JumpOp} {table : List UInt8}

/-! ### The code while the pass goes on -/

/-- An instruction begins at an address. -/
def Start (code : List Item) (a : ℕ) : Prop :=
  ∃ item, Placed code a item ∧ item.Opens

/-- There is a jump at an address. -/
def IsJump (code : List Item) (a : ℕ) : Prop :=
  ∃ op l table, Placed code a (.jump op l table)

/-- There is an unconditional jump at an address. -/
def Always (code : List Item) (a : ℕ) : Prop :=
  ∃ l table, Placed code a (.jump .always l table)

/-- **The code in memory**: all instructions are there, with their operands, and all jumps, with
targets where an instruction begins. -/
structure Loaded (code : List Item) (m : Mem) : Prop where
  instr : ∀ a i, Placed code a (.instr i) → ∀ k < i.operands.length + 1,
    m (a + k) = (i.opcode :: i.operands).getD k 0
  jump : ∀ a op l table, Placed code a (.jump op l table) → m a = op.opcode
  target : ∀ a op l table, Placed code a (.jump op l table) → Start code (readShort m (a + 1))

theorem Item.Opens.size_pos {item : Item} (h : item.Opens) : 0 < item.size := by
  cases item with
  | instr i => exact Nat.succ_pos _
  | jump op l table => exact Nat.succ_pos _
  | mark l => exact h.elim
  | raw bytes => exact h.elim

theorem Start.lt_size (h : Start code a) : a < size code := by
  obtain ⟨item, hplaced, hopens⟩ := h
  have hle := hplaced.le_size
  have hpos := hopens.size_pos
  omega

/-! ### Numbers in two bytes -/

theorem shortOf_ofNat (h : l < 65536) : shortOf (.ofNat l) (.ofNat (l / 256)) = l := by
  simp only [shortOf, UInt8.toNat_ofNat']
  omega

theorem readShort_updShort (m : Mem) (offset : ℕ) (h : l < 65536) :
    readShort (updShort m offset l) offset = l := by
  rw [readShort, updShort, update_self,
    update_of_ne (Nat.ne_of_lt (Nat.lt_succ_self _)), update_self,
    shortOf_ofNat h]

theorem updShort_of_ne {offset : ℕ} (h : a ≠ offset) (h' : a ≠ offset + 1) :
    updShort m offset l a = m a := by
  rw [updShort, update_of_ne h', update_of_ne h]

/-! ### What the pass starts with -/

theorem readShort_load (hsize : size code < 65536) (hstart : Start code (address code l))
    (h : Placed code a (.jump op l table)) :
    readShort (load (program code)) (a + 1) = address code l := by
  rw [readShort, Nat.add_assoc, h.load (by simp only [Item.size]; omega),
    h.load (by simp only [Item.size]; omega)]
  exact shortOf_ofNat (by have := hstart.lt_size; omega)

/-- **The code of a program** is in memory at first. -/
theorem loaded_program (hclosed : Closed code) (hlands : Lands code) (hsize : size code < 65536) :
    Loaded code (load (program code)) where
  instr a i h k hk := h.load hk
  jump a op l table h := h.load (k := 0) (by simp only [Item.size]; omega)
  target a op l table h := by
    have hmem : Item.jump op l table ∈ code := by
      obtain ⟨pre, post, rfl, -⟩ := h
      exact mem_append_right _ (.head _)
    have hstart : Start code (address code l) := placed_address hlands (hclosed op l table hmem)
    rwa [readShort_load hsize hstart h]

/-! ### What stands at an address -/

theorem JumpOp.opcode_ne_ext (op : JumpOp) : op.opcode ≠ F_EXT := by
  cases op <;> decide

theorem JumpOp.opcode_eq_jump : op.opcode.toNat = F_JUMP.toNat ↔ op = .always := by
  cases op <;> decide

theorem Loaded.nextJump_instr (h : Loaded code m) {i : Instr} (hi : Placed code a (.instr i)) :
    nextJump m a = none := by
  have hopcode : m a = i.opcode := h.instr a i hi 0 (Nat.succ_pos _)
  by_cases hext : i.opcode = F_EXT
  · obtain ⟨lo, hi', rest, hoperands, hne⟩ := i.ext hext
    have hlo : m (a + 1) = lo := by
      rw [h.instr a i hi 1 (by simp [hoperands]), hoperands]
      rfl
    have hhi : m (a + 1 + 1) = hi' := by
      rw [Nat.add_assoc, h.instr a i hi 2 (by simp [hoperands]), hoperands]
      rfl
    rw [nextJump, opcodeAt, if_pos (hopcode.trans hext), readShort, hlo, hhi, if_neg hne]
  · have hne : i.opcode.toNat ≠ F_JUMP.toNat := fun heq ↦ i.ne_jump (UInt8.toNat_inj.1 heq)
    rw [nextJump, opcodeAt, hopcode, if_neg hext, if_neg hne]

theorem Loaded.nextJump_jump (h : Loaded code m) (ha : Placed code a (.jump op l table)) :
    nextJump m a = if op = .always then some (readShort m (a + 1)) else none := by
  rw [nextJump, opcodeAt, h.jump a op l table ha, if_neg op.opcode_ne_ext]
  exact if_congr JumpOp.opcode_eq_jump rfl rfl

open Classical in
/-- The targets of the jumps. -/
noncomputable def targets (code : List Item) (m : Mem) (a : ℕ) : ℕ :=
  if IsJump code a then readShort m (a + 1) else 0

theorem targets_of_isJump (h : IsJump code a) : targets code m a = readShort m (a + 1) :=
  if_pos h

theorem Placed.unique {item item' : Item} (h : Placed code a item) (h' : Placed code a item')
    (hopens : item.Opens) (hopens' : item'.Opens) : item = item' := by
  have hpos := hopens.size_pos
  have hpos' := hopens'.size_pos
  rcases h.cases h' hpos hpos' with ⟨-, heq⟩ | hle | hle
  · exact heq
  · omega
  · omega

/-- **The jumps that are followed** are those of the graph. -/
theorem Loaded.nextJump_iff (h : Loaded code m) (ha : Start code a) :
    nextJump m a = some b ↔ Step (Always code) (targets code m) a b := by
  obtain ⟨item, hplaced, hopens⟩ := ha
  cases item with
  | instr i =>
    rw [h.nextJump_instr hplaced]
    refine iff_of_false nofun ?_
    rintro ⟨⟨l, table, hjump⟩, -⟩
    exact Item.noConfusion (hplaced.unique hjump hopens trivial)
  | jump op l table =>
    rw [h.nextJump_jump hplaced, Step, targets_of_isJump ⟨op, l, table, hplaced⟩]
    by_cases hop : op = .always
    · subst hop
      rw [if_pos rfl, some.injEq]
      exact (and_iff_right ⟨l, table, hplaced⟩).symm
    · rw [if_neg hop]
      refine iff_of_false nofun ?_
      rintro ⟨⟨l', table', hjump⟩, -⟩
      exact hop (Item.jump.inj (hplaced.unique hjump hopens trivial)).1
  | mark l => exact hopens.elim
  | raw bytes => exact hopens.elim

theorem Loaded.nextJump_eq_none (h : Loaded code m) (ha : Start code a) :
    nextJump m a = none ↔ ¬Always code a := by
  rw [eq_none_iff_forall_ne_some]
  simp only [ne_eq, h.nextJump_iff ha, Step]
  exact ⟨fun hno hu ↦ hno _ ⟨hu, rfl⟩, fun hu _ hstep ↦ hu hstep.1⟩

theorem Loaded.start_targets (h : Loaded code m) (ha : IsJump code a) :
    Start code (targets code m a) := by
  rw [targets_of_isJump ha]
  obtain ⟨op, l, table, hplaced⟩ := ha
  exact h.target a op l table hplaced

theorem Always.isJump (h : Always code a) : IsJump code a := by
  obtain ⟨l, table, hplaced⟩ := h
  exact ⟨_, l, table, hplaced⟩

/-! ### One exchange -/

/-- **What is written over the target of a jump** changes nothing else. -/
theorem Loaded.updShort (h : Loaded code m) (hsize : size code < 65536) (hj : IsJump code j)
    (hb : Start code b) : Loaded code (updShort m (j + 1) b) ∧
      targets code (updShort m (j + 1) b) = update (targets code m) j b := by
  have hlt := hb.lt_size
  obtain ⟨opj, lj, tablej, hplaced⟩ := hj
  -- a piece of code somewhere else keeps its bytes
  have hother {a k : ℕ} {item : Item} (ha : Placed code a item) (hk : k < item.size)
      (hne : a ≠ j ∨ k = 0) : Compiler.updShort m (j + 1) b (a + k) = m (a + k) := by
    have hapart : a = j ∨ j + 3 ≤ a ∨ a + item.size ≤ j := by
      rcases hplaced.cases ha (Nat.succ_pos _) (by omega) with ⟨heq, -⟩ | hle | hle
      · exact .inl heq.symm
      · exact .inr (.inl (by simp only [Item.size] at hle; omega))
      · exact .inr (.inr hle)
    exact updShort_of_ne (by omega) (by omega)
  have htarget {a : ℕ} (ha : IsJump code a) (hne : a ≠ j) :
      readShort (Compiler.updShort m (j + 1) b) (a + 1) = readShort m (a + 1) := by
    obtain ⟨op, l, table, ha⟩ := ha
    rw [readShort, Nat.add_assoc, hother ha (by simp only [Item.size]; omega) (.inl hne),
      hother ha (by simp only [Item.size]; omega) (.inl hne), readShort]
  refine ⟨⟨fun a i ha k hk ↦ ?_, fun a op l table ha ↦ ?_, fun a op l table ha ↦ ?_⟩, ?_⟩
  · have hne : a ≠ j := by
      rintro rfl
      exact Item.noConfusion (ha.unique hplaced trivial trivial)
    rw [hother ha hk (.inl hne), h.instr a i ha k hk]
  · exact (hother (k := 0) ha (Nat.succ_pos _) (.inr rfl)).trans (h.jump a op l table ha)
  · rcases eq_or_ne a j with rfl | hne
    · rwa [readShort_updShort m _ (by omega)]
    · rw [htarget ⟨op, l, table, ha⟩ hne]
      exact h.target a op l table ha
  · funext a
    rcases eq_or_ne a j with rfl | hne
    · rw [update_self, targets_of_isJump ⟨opj, lj, tablej, hplaced⟩,
        readShort_updShort m _ (by omega)]
    · rw [update_of_ne hne]
      by_cases ha : IsJump code a
      · rw [targets_of_isJump ha, targets_of_isJump ha, htarget ha hne]
      · rw [targets, targets, if_neg ha, if_neg ha]

/-! ### The inner loop -/

theorem Loaded.shortCircuit_stop (h : Loaded code m) (hj : IsJump code j)
    (hstops : Stops (Always code) (targets code m) j) (fuel : ℕ) :
    shortCircuit (fuel + 1) m (j + 1) (targets code m j) = some m := by
  rw [shortCircuit]
  cases hnext : nextJump m (targets code m j) with
  | none => rfl
  | some offset2 =>
    obtain ⟨hu, rfl⟩ := (h.nextJump_iff (h.start_targets hj)).1 hnext
    exact if_pos (hstops hu)

/-- **A round of the inner loop** that exchanges the target. -/
theorem Loaded.shortCircuit_hop (h : Loaded code m) (hsize : size code < 65536)
    (hj : IsJump code j) (hnot : ¬Stops (Always code) (targets code m) j) :
    ∃ m₁, Loaded code m₁ ∧ targets code m₁ = redirect (targets code m) j ∧
      ∀ fuel, shortCircuit (fuel + 1) m (j + 1) (targets code m j) =
        shortCircuit fuel m₁ (j + 1) (targets code m₁ j) := by
  obtain ⟨hu, hne⟩ := Classical.not_imp.1 hnot
  obtain ⟨h₁, htargets⟩ := h.updShort hsize hj (h.start_targets hu.isJump)
  refine ⟨_, h₁, htargets, fun fuel ↦ ?_⟩
  rw [shortCircuit, (h.nextJump_iff (h.start_targets hj)).2 ⟨hu, rfl⟩]
  dsimp only
  rw [if_neg hne, htargets, update_self]

theorem Loaded.shortCircuit (hsize : size code < 65536) (hj : IsJump code j) (fuel : ℕ) :
    ∀ {m : Mem}, Loaded code m → shortCircuit fuel m (j + 1) (targets code m j) = some m' →
      Loaded code m' ∧ Chased (Always code) j (targets code m) (targets code m') := by
  induction fuel with
  | zero => exact fun _ hrun ↦ nomatch hrun
  | succ fuel ih =>
    intro m h hrun
    by_cases hstops : Stops (Always code) (targets code m) j
    · obtain rfl := some.inj ((h.shortCircuit_stop hj hstops fuel).symm.trans hrun)
      exact ⟨h, .stop hstops⟩
    · obtain ⟨m₁, h₁, htargets, hround⟩ := h.shortCircuit_hop hsize hj hstops
      obtain ⟨h', hchased⟩ := ih h₁ ((hround fuel).symm.trans hrun)
      exact ⟨h', .hop hstops (htargets ▸ hchased)⟩

theorem Loaded.exists_shortCircuit (hsize : size code < 65536) (hj : IsJump code j) {τ τ' : ℕ → ℕ}
    (hchased : Chased (Always code) j τ τ') : ∀ {m : Mem}, Loaded code m → targets code m = τ →
      ∃ m', Loaded code m' ∧ targets code m' = τ' ∧
        ∃ N, ∀ fuel > N, Compiler.shortCircuit fuel m (j + 1) (targets code m j) = some m' := by
  induction hchased with
  | stop hstops =>
    rintro m h rfl
    refine ⟨m, h, rfl, 0, fun fuel hfuel ↦ ?_⟩
    obtain ⟨fuel, rfl⟩ := Nat.exists_eq_add_one.2 hfuel
    exact h.shortCircuit_stop hj hstops fuel
  | hop hnot _ ih =>
    rintro m h rfl
    obtain ⟨m₁, h₁, htargets, hround⟩ := h.shortCircuit_hop hsize hj hnot
    obtain ⟨m', h', htargets', N, hN⟩ := ih h₁ htargets
    refine ⟨m', h', htargets', N + 1, fun fuel hfuel ↦ ?_⟩
    obtain ⟨fuel, rfl⟩ := Nat.exists_eq_add_one.2 (Nat.zero_lt_of_lt hfuel)
    rw [hround, hN fuel (by omega)]

/-! ### The pass -/

/-- **What the pass comes to** is a pass over the graph of the jumps. -/
theorem Loaded.optimizeJumps (hsize : size code < 65536) {fuel : ℕ} {js : List ℕ} :
    ∀ {m : Mem}, Loaded code m → (∀ j ∈ js, IsJump code j) →
      optimizeJumps fuel m (js.map (· + 1)) = some m' →
      Loaded code m' ∧ Passed (Always code) js (targets code m) (targets code m') := by
  induction js with
  | nil =>
    intro m h _ hrun
    obtain rfl := some.inj hrun
    exact ⟨h, .nil⟩
  | cons j js ih =>
    intro m h hjs hrun
    have hj := hjs j (.head _)
    rw [map_cons, Compiler.optimizeJumps, ← targets_of_isJump hj,
      bind_eq_some_iff] at hrun
    obtain ⟨m₁, hrun₁, hrun⟩ := hrun
    obtain ⟨h₁, hchased⟩ := Loaded.shortCircuit hsize hj fuel h hrun₁
    obtain ⟨h', hpassed⟩ := ih h₁ (fun j hmem ↦ hjs j (.tail _ hmem)) hrun
    exact ⟨h', .cons hchased hpassed⟩

theorem Loaded.exists_optimizeJumps (hsize : size code < 65536) {js : List ℕ} {τ τ' : ℕ → ℕ}
    (hpassed : Passed (Always code) js τ τ') (hjs : ∀ j ∈ js, IsJump code j) :
    ∀ {m : Mem}, Loaded code m → targets code m = τ →
      ∃ m' N, ∀ fuel > N, Compiler.optimizeJumps fuel m (js.map (· + 1)) = some m' := by
  induction hpassed with
  | nil => exact fun {m} _ _ ↦ ⟨m, 0, fun _ _ ↦ rfl⟩
  | @cons j js _ _ _ hchased _ ih =>
    intro m h htargets
    have hj := hjs j (.head _)
    obtain ⟨m₁, h₁, htargets₁, N₁, hN₁⟩ := h.exists_shortCircuit hsize hj hchased htargets
    obtain ⟨m', N, hN⟩ := ih (fun j hmem ↦ hjs j (.tail _ hmem)) h₁ htargets₁
    refine ⟨m', max N₁ N, fun fuel hfuel ↦ ?_⟩
    rw [map_cons, Compiler.optimizeJumps, ← targets_of_isJump hj,
      hN₁ fuel (lt_of_le_of_lt (le_max_left ..) hfuel), bind_some,
      hN fuel (lt_of_le_of_lt (le_max_right ..) hfuel)]

/-! ### Where jumps lead to -/

/-- Unconditional jumps lead from an address to another one. -/
abbrev Reaches (m : Mem) : ℕ → ℕ → Prop :=
  ReflTransGen fun a b ↦ nextJump m a = some b

/-- Unconditional jumps lead from an address back to it. -/
abbrev Endless (m : Mem) (a : ℕ) : Prop :=
  TransGen (fun a b ↦ nextJump m a = some b) a a

/-- **A recorded jump leads to the same** before and after: to the same instruction that is no
unconditional jump, or to the same cycle, of which a part is left. -/
structure SameFlow (m m' : Mem) (ip : ℕ) : Prop where
  instr : ∀ b, Reaches m (readShort m ip) b ∧ nextJump m b = none ↔
    Reaches m' (readShort m' ip) b ∧ nextJump m' b = none
  cycle : ∀ b, Reaches m (readShort m ip) b → Endless m b →
    ∃ c, Reaches m b c ∧ Reaches m' (readShort m' ip) c ∧ Endless m' c
  part : ∀ b, Reaches m' (readShort m' ip) b → Endless m' b →
    Reaches m (readShort m ip) b ∧ Endless m b

/-- Unconditional jumps lead from an address to an instruction that is none, to a jump to itself, or
to a cycle with a jump that is in a part of the table. -/
def Settled (m : Mem) (ips : List ℕ) (a : ℕ) : Prop :=
  ∃ b, Reaches m a b ∧ (nextJump m b = none ∨ nextJump m b = some b ∨ b + 1 ∈ ips ∧ Endless m b)

theorem Loaded.start_of_step (h : Loaded code m)
    (hab : Step (Always code) (targets code m) a b) : Start code b := by
  obtain ⟨ha, rfl⟩ := hab
  exact h.start_targets ha.isJump

theorem Loaded.start_of_leads (h : Loaded code m) (ha : Start code a)
    (hab : Leads (Always code) (targets code m) a b) : Start code b := by
  rcases ReflTransGen.cases_tail hab with rfl | ⟨c, -, hcb⟩
  · exact ha
  · exact h.start_of_step hcb

theorem Loaded.reaches_iff (h : Loaded code m) (ha : Start code a) :
    Reaches m a b ↔ Leads (Always code) (targets code m) a b := by
  constructor
  · intro hab
    induction hab with
    | refl => exact .refl
    | tail _ hbc ih => exact ih.tail ((h.nextJump_iff (h.start_of_leads ha ih)).1 hbc)
  · intro hab
    induction hab with
    | refl => exact .refl
    | tail hab hbc ih => exact ih.tail ((h.nextJump_iff (h.start_of_leads ha hab)).2 hbc)

theorem Loaded.endless_iff (h : Loaded code m) (ha : Start code a) :
    Endless m a ↔ OnCycle (Always code) (targets code m) a := by
  rw [Endless, OnCycle, TransGen.head'_iff, TransGen.head'_iff]
  refine exists_congr fun b ↦ ?_
  rw [h.nextJump_iff ha]
  exact and_congr_right fun hab ↦ h.reaches_iff (h.start_of_step hab)

theorem Loaded.finite_leads (h : Loaded code m) (ha : Start code a) :
    {b | Leads (Always code) (targets code m) a b}.Finite :=
  (Set.finite_lt_nat (size code)).subset fun _ hb ↦ (h.start_of_leads ha hb).lt_size

/-- **Where a jump leads to is kept** when the targets are exchanged. -/
theorem Loaded.sameFlow (h : Loaded code m) (h' : Loaded code m') (hj : IsJump code j)
    (hred : Redirected (Always code) (targets code m) (targets code m')) :
    SameFlow m m' (j + 1) := by
  have hstart := h.start_targets hj
  have hstart' := h'.start_targets hj
  have hback {b : ℕ} (hb : Leads (Always code) (targets code m') (targets code m' j) b) :
      Leads (Always code) (targets code m) (targets code m j) b :=
    (hred.target j).trans (hred.leads_of hb)
  refine ⟨fun b ↦ ?_, fun b hb hcycle ↦ ?_, fun b hb hcycle ↦ ?_⟩
  · rw [← targets_of_isJump hj, ← targets_of_isJump hj, h.reaches_iff hstart,
      h'.reaches_iff hstart']
    constructor
    · rintro ⟨hb, hnone⟩
      have hb' := h.start_of_leads hstart hb
      rw [h.nextJump_eq_none hb'] at hnone
      exact ⟨hred.leadsTarget j b hb (.inl hnone), (h'.nextJump_eq_none hb').2 hnone⟩
    · rintro ⟨hb, hnone⟩
      have hb' := h'.start_of_leads hstart' hb
      rw [h'.nextJump_eq_none hb'] at hnone
      exact ⟨hback hb, (h.nextJump_eq_none hb').2 hnone⟩
  · rw [← targets_of_isJump hj, h.reaches_iff hstart] at hb
    have hb' := h.start_of_leads hstart hb
    obtain ⟨c, hbc, hc⟩ := hred.exists_onCycle ((h.endless_iff hb').1 hcycle) (h'.finite_leads hb')
    refine ⟨c, (h.reaches_iff hb').2 hbc, ?_, (h'.endless_iff (h.start_of_leads hb' hbc)).2 hc⟩
    rw [← targets_of_isJump hj, h'.reaches_iff hstart']
    exact hred.leadsTarget j c (hb.trans hbc) (.inr hc)
  · rw [← targets_of_isJump hj, h'.reaches_iff hstart'] at hb
    have hb' := h'.start_of_leads hstart' hb
    rw [← targets_of_isJump hj, h.reaches_iff hstart, h.endless_iff hb']
    exact ⟨hback hb, hred.onCycle ((h'.endless_iff hb').1 hcycle)⟩

theorem Loaded.settles_iff (h : Loaded code m) (ha : Start code a) (js : List ℕ) :
    Settles (Always code) (targets code m) js a ↔ Settled m (js.map (· + 1)) a := by
  refine exists_congr fun b ↦ ?_
  rw [h.reaches_iff ha]
  refine and_congr_right fun hab ↦ ?_
  have hb := h.start_of_leads ha hab
  have hmem : b + 1 ∈ js.map (· + 1) ↔ b ∈ js := mem_map_of_injective (add_left_injective 1)
  rw [h.nextJump_eq_none hb, h.nextJump_iff hb, h.endless_iff hb, hmem, Step]
  tauto

/-! ### The pass on a program -/

/-- The pass comes to an end, and keeps where the recorded jumps lead to. -/
def Optimizes (m : Mem) (ips : List ℕ) : Prop :=
  ∃ fuel m', optimizeJumps fuel m ips = some m' ∧ ∀ ip ∈ ips, SameFlow m m' ip

theorem Loaded.optimizes_iff (h : Loaded code m) (hsize : size code < 65536) {js : List ℕ}
    (hjs : ∀ j ∈ js, IsJump code j) : Optimizes m (js.map (· + 1)) ↔
      ∀ pre j post, js = pre ++ j :: post →
        Settled m ((pre ++ [j]).map (· + 1)) (readShort m (j + 1)) := by
  have hsettles : (∀ pre j post, js = pre ++ j :: post →
      Settled m ((pre ++ [j]).map (· + 1)) (readShort m (j + 1))) ↔
      ∃ τ', Passed (Always code) js (targets code m) τ' := by
    rw [passed_iff]
    refine forall₄_congr fun pre j post heq ↦ ?_
    have hj : IsJump code j := hjs j (by simp [heq])
    rw [← targets_of_isJump hj, h.settles_iff (h.start_targets hj)]
  rw [hsettles]
  constructor
  · rintro ⟨fuel, m', hrun, -⟩
    exact ⟨_, (h.optimizeJumps hsize hjs hrun).2⟩
  · rintro ⟨τ', hpassed⟩
    obtain ⟨m', N, hN⟩ := h.exists_optimizeJumps hsize hpassed hjs rfl
    have hrun := hN (N + 1) (Nat.lt_succ_self N)
    obtain ⟨h', hpassed'⟩ := h.optimizeJumps hsize hjs hrun
    refine ⟨N + 1, m', hrun, fun ip hip ↦ ?_⟩
    obtain ⟨j, hj, rfl⟩ := mem_map.1 hip
    exact h.sameFlow h' (hjs j hj) hpassed'.redirected

/-- **The pass on the code of a program** comes to an end, and keeps where all jumps lead to,
exactly when every jump leads to an instruction that is no unconditional jump, to a jump to itself,
or to a cycle with a jump that does not come after it in the table. -/
theorem optimize_jumps_iff (parts : List Part) (hok : ∀ part ∈ parts, part.ok = true)
    (hsize : size (compile parts) < 65536) :
    Optimizes (load (program (compile parts))) (jumps 0 (compile parts)) ↔
      ∀ pre ip post, jumps 0 (compile parts) = pre ++ ip :: post →
        Settled (load (program (compile parts))) (pre ++ [ip])
          (readShort (load (program (compile parts))) ip) := by
  have h := loaded_program (closed_compile parts hok) (lands_compile parts hok) hsize
  obtain ⟨js, hjs, heq⟩ : ∃ js : List ℕ, (∀ j ∈ js, IsJump (compile parts) j) ∧
      jumps 0 (compile parts) = js.map (· + 1) := by
    have hjump {ip : ℕ} (hip : ip ∈ jumps 0 (compile parts)) :
        ∃ a, IsJump (compile parts) a ∧ ip = a + 1 := by
      obtain ⟨a, op, l, table, ha, rfl⟩ := mem_jumps.1 hip
      exact ⟨a, ⟨op, l, table, ha⟩, by omega⟩
    refine ⟨(jumps 0 (compile parts)).map (· - 1), fun j hj ↦ ?_, ?_⟩
    · obtain ⟨ip, hip, rfl⟩ := mem_map.1 hj
      obtain ⟨a, ha, rfl⟩ := hjump hip
      exact ha
    · rw [List.map_map]
      refine (List.map_id' _).symm.trans (List.map_congr_left fun ip hip ↦ ?_)
      obtain ⟨a, -, rfl⟩ := hjump hip
      rfl
  rw [heq, h.optimizes_iff hsize hjs]
  constructor
  · intro hsettled pre ip post hsplit
    obtain ⟨pre, rest, rfl, rfl, hrest⟩ := map_eq_append_iff.1 hsplit
    obtain ⟨j, post, rfl, rfl, rfl⟩ := map_eq_cons_iff.1 hrest
    simpa only [map_append, map_cons, map_nil] using hsettled pre j post rfl
  · rintro hsettled pre j post rfl
    simpa only [map_append, map_cons, map_nil] using
      hsettled _ (j + 1) _ (by rw [map_append]; rfl)

/-- `while (x) ;` -/
def whileLoop : List Part :=
  [.function (.while (.instr (.simple 100 (by decide))) .empty) [] (.simple 101 (by decide))]

theorem optimize_jumps_iff_while :
    Optimizes (load (program (compile whileLoop))) (jumps 0 (compile whileLoop)) := by
  refine (optimize_jumps_iff whileLoop (by decide) (by decide)).2 fun pre ip post heq ↦ ?_
  have hmem : ip ∈ jumps 0 (compile whileLoop) := by simp [heq]
  have hjumps : ∀ ip ∈ jumps 0 (compile whileLoop), nextJump (load (program (compile whileLoop)))
      (readShort (load (program (compile whileLoop))) ip) = none := by
    decide
  exact ⟨_, .refl, .inl (hjumps ip hmem)⟩

/-- `if (x) ; for (;;) ;` -/
def emptyLoop : List Part :=
  [.function (.seq (.cond (.instr (.simple 100 (by decide))) .empty .empty)
    (.for none none none .empty)) [] (.simple 101 (by decide))]

theorem nextJump_of_jump (h : m a = F_JUMP) : nextJump m a = some (readShort m (a + 1)) := by
  have hne : F_JUMP ≠ F_EXT := by decide
  rw [nextJump, opcodeAt, h, if_neg hne, if_pos rfl]

/-- The jump of the `if` leads to a cycle of three jumps, which the pass goes round and round. -/
theorem shortCircuit_emptyLoop (fuel : ℕ) : ∀ {m : Mem} {offset1 : ℕ},
    (∀ a ∈ [7, 8, 9, 13, 14, 15, 16, 17, 18], m a = load (program (compile emptyLoop)) a) →
    offset1 ∈ [7, 16, 13] → shortCircuit fuel m 2 offset1 = none := by
  induction fuel with
  | zero => exact fun _ _ ↦ rfl
  | succ fuel ih =>
    intro m offset1 hm hmem
    have hjump (a : ℕ) (ha : ∀ b ∈ [a, a + 1, a + 2], b ∈ [7, 8, 9, 13, 14, 15, 16, 17, 18])
        (hopcode : load (program (compile emptyLoop)) a = F_JUMP) : nextJump m a =
          some (readShort (load (program (compile emptyLoop))) (a + 1)) := by
      rw [nextJump_of_jump ((hm a (ha a (by simp))).trans hopcode), readShort, readShort,
        hm _ (ha _ (by simp)), hm _ (ha _ (by simp))]
    have hnext : ∃ offset2 ∈ [7, 16, 13], offset2 ≠ offset1 ∧
        nextJump m offset1 = some offset2 := by
      simp only [mem_cons, not_mem_nil, or_false] at hmem
      rcases hmem with rfl | rfl | rfl
      · exact ⟨16, by decide, by decide, hjump 7 (by decide) (by decide)⟩
      · exact ⟨13, by decide, by decide, hjump 16 (by decide) (by decide)⟩
      · exact ⟨7, by decide, by decide, hjump 13 (by decide) (by decide)⟩
    obtain ⟨offset2, hmem', hne, hnext⟩ := hnext
    rw [shortCircuit, hnext]
    dsimp only
    rw [if_neg hne]
    refine ih (fun a ha ↦ ?_) hmem'
    have hapart : a ≠ 2 ∧ a ≠ 3 := by
      constructor <;> rintro rfl <;> exact absurd ha (by decide)
    rw [updShort_of_ne hapart.1 hapart.2, hm a ha]

/-- **The pass does not come to an end** on an empty loop behind an `if`. -/
theorem not_optimizes : ¬∀ parts : List Part, (∀ part ∈ parts, part.ok = true) →
    size (compile parts) < 65536 →
    Optimizes (load (program (compile parts))) (jumps 0 (compile parts)) := by
  intro hall
  obtain ⟨fuel, m', hrun, -⟩ := hall emptyLoop (by decide) (by decide)
  have hjumps : jumps 0 (compile emptyLoop) = 2 :: (jumps 0 (compile emptyLoop)).tail := by decide
  have htarget : readShort (load (program (compile emptyLoop))) 2 = 7 := by decide
  rw [hjumps, optimizeJumps, htarget, shortCircuit_emptyLoop fuel (fun _ _ ↦ rfl) (by decide)]
    at hrun
  exact nomatch hrun

end Lpmud.Compiler
