import Lpmud.Compiler.Jumps
import Mathlib.Algebra.BigOperators.Group.List.Basic
import Mathlib.Algebra.Order.Group.Nat
import Mathlib.Data.List.GetD

/-!
# The layout of compiled code

Where things are in the code that is compiled for a program: the label of every jump is there
(`Stmt.scoped`), and behind every label there is an instruction (`lands_compile`), so that every
jump goes to the beginning of an instruction (`placed_address`). Different pieces of code do not
overlap (`Placed.cases`), and their bytes are found where they are (`Placed.load`).
-/

namespace Lpmud.Compiler

open List

variable {code code' : List Item} {item item' : Item} {L L' : ℕ → Prop} {a b l n : ℕ}

/-! ### Labels -/

/-- Jumps go to labels of a set, or of the code itself; no bytes are unknown. -/
structure Scoped (L : ℕ → Prop) (code : List Item) : Prop where
  raw : ∀ bytes, Item.raw bytes ∉ code
  label : ∀ op l table, Item.jump op l table ∈ code → L l ∨ Item.mark l ∈ code

theorem scoped_nil : Scoped L [] :=
  ⟨fun _ ↦ not_mem_nil, fun _ _ _ h ↦ absurd h not_mem_nil⟩

theorem Scoped.append (h : Scoped L code) (h' : Scoped L code') : Scoped L (code ++ code') where
  raw bytes hmem := (mem_append.1 hmem).elim (h.raw bytes) (h'.raw bytes)
  label op l table hmem := by
    rw [mem_append]
    rcases mem_append.1 hmem with hmem | hmem
    · exact (h.label op l table hmem).imp_right .inl
    · exact (h'.label op l table hmem).imp_right .inr

theorem Scoped.mono (h : Scoped L code) (hL : ∀ l, L l → L' l) : Scoped L' code :=
  ⟨h.raw, fun op l table hmem ↦ (h.label op l table hmem).imp_left (hL l)⟩

theorem Scoped.close (l : ℕ) (h : Scoped (fun k ↦ L k ∨ k = l) code) (hmark : .mark l ∈ code) :
    Scoped L code where
  raw := h.raw
  label op k table hmem := by
    rcases h.label op k table hmem with (hk | rfl) | hk
    · exact .inl hk
    · exact .inr hmark
    · exact .inr hk

theorem scoped_instr (i : Instr) : Scoped L [.instr i] :=
  ⟨by simp, by simp⟩

theorem scoped_mark (l : ℕ) : Scoped L [.mark l] :=
  ⟨by simp, by simp⟩

theorem scoped_jump {op : JumpOp} {table : List UInt8} (h : L l) : Scoped L [.jump op l table] := by
  refine ⟨by simp, fun _ k _ hmem ↦ .inl ?_⟩
  obtain ⟨-, rfl, -⟩ := Item.jump.inj (mem_singleton.1 hmem)
  exact h

theorem Scoped.cons (h : Scoped L [item]) (h' : Scoped L code) : Scoped L (item :: code) :=
  h.append h'

/-- **The jumps of an expression** go to its own labels. -/
theorem Expr.scoped (e : Expr) : ∀ n, Scoped (fun _ ↦ False) (e.emit n).1 := by
  induction e with
  | instr i => exact fun n ↦ scoped_instr i
  | seq e e' ih ih' => exact fun n ↦ (ih n).append (ih' _)
  | lor e e' ih ih' =>
    intro n
    refine .close n ?_ (by simp [emit])
    refine ((((ih _).mono fun _ ↦ False.elim).append ?_).append
      ((ih' _).mono fun _ ↦ False.elim)).append (scoped_mark n)
    exact .cons (scoped_instr _) (.cons (scoped_jump (.inr rfl)) (scoped_instr _))
  | land e e' ih ih' =>
    intro n
    refine .close n ?_ (by simp [emit])
    refine ((((ih _).mono fun _ ↦ False.elim).append ?_).append
      ((ih' _).mono fun _ ↦ False.elim)).append (scoped_mark n)
    exact .cons (scoped_instr _) (.cons (scoped_jump (.inr rfl)) (scoped_instr _))
  | cond c e e' ihc ih ih' =>
    intro n
    refine .close n (.close (n + 1) ?_ (by simp [emit])) (by simp [emit])
    refine (((((ihc _).mono fun _ ↦ False.elim).append (scoped_jump (.inl (.inr rfl)))).append
      ((ih _).mono fun _ ↦ False.elim)).append ?_).append
      ((ih' _).mono fun _ ↦ False.elim) |>.append (scoped_mark _)
    exact .cons (scoped_jump (.inr rfl)) (scoped_mark n)
  | condMissing c e ihc ih =>
    intro n
    refine .close n ?_ (by simp [emit])
    exact ((((ihc _).mono fun _ ↦ False.elim).append (scoped_jump (.inr rfl))).append
      ((ih _).mono fun _ ↦ False.elim)).append (scoped_mark n)

theorem Expr.scoped' (e : Expr) (n : ℕ) : Scoped L (e.emit n).1 :=
  (e.scoped n).mono fun _ ↦ False.elim

theorem scoped_forExpr (e : Option Expr) (n : ℕ) : Scoped L (forExpr n e).1 := by
  cases e with
  | none => exact scoped_nil
  | some e => exact (e.scoped' n).append (scoped_instr _)

theorem scoped_forGuard (e : Option Expr) (n : ℕ) (h : L l) : Scoped L (forGuard l n e).1 := by
  cases e with
  | none => exact scoped_jump h
  | some e => exact (e.scoped' n).append (scoped_jump h)

/-- The labels outside of a statement that its jumps can go to. -/
def Outside (inBreak inContinue : Bool) (ret brk cont l : ℕ) : Prop :=
  l = ret ∨ inBreak = true ∧ l = brk ∨ inContinue = true ∧ l = cont

/-- **The jumps of a statement** go to its own labels, to those of `break` and `continue`, and to
the end of the function. -/
theorem Stmt.scoped (s : Stmt) : ∀ {inBreak inContinue : Bool} (ret brk cont n : ℕ),
    s.ok inBreak inContinue = true →
    Scoped (Outside inBreak inContinue ret brk cont) (s.emit ret brk cont n).1 := by
  have hbody {inBreak inContinue : Bool} {ret brk cont n l : ℕ}
      (h : Outside true true ret (n + 1) n l) :
      (Outside inBreak inContinue ret brk cont l ∨ l = n) ∨ l = n + 1 := by
    rcases h with rfl | ⟨-, rfl⟩ | ⟨-, rfl⟩
    · exact .inl (.inl (.inl rfl))
    · exact .inr rfl
    · exact .inl (.inr rfl)
  induction s with
  | empty => exact fun _ _ _ _ _ ↦ scoped_nil
  | seq s s' ih ih' =>
    intro inBreak inContinue ret brk cont n hok
    rw [ok, Bool.and_eq_true] at hok
    exact (ih ret brk cont n hok.1).append (ih' ret brk cont _ hok.2)
  | expr e => exact fun _ _ _ n _ ↦ (e.scoped' n).append (scoped_instr _)
  | assertion i e fail =>
    exact fun _ _ _ n _ ↦ .cons (scoped_instr i) ((e.scoped' n).append (scoped_instr fail))
  | cond c s s' ih ih' =>
    intro inBreak inContinue ret brk cont n hok
    rw [ok, Bool.and_eq_true] at hok
    refine .close n (.close (n + 1) ?_ (by simp [emit])) (by simp [emit])
    refine ((((Expr.scoped' c _).append (scoped_jump (.inl (.inr rfl)))).append
      ((ih ret brk cont _ hok.1).mono fun _ h ↦ .inl (.inl h))).append ?_).append
      ((ih' ret brk cont _ hok.2).mono fun _ h ↦ .inl (.inl h)) |>.append (scoped_mark _)
    exact .cons (scoped_jump (.inr rfl)) (scoped_mark n)
  | «while» c s ih =>
    intro inBreak inContinue ret brk cont n hok
    refine .close n (.close (n + 1) ?_ (by simp [emit])) (by simp [emit])
    refine (((Scoped.cons (scoped_mark n) (c.scoped' _)).append
      (scoped_jump (.inr rfl))).append ((ih ret (n + 1) n _ hok).mono fun _ ↦ hbody)).append ?_
    exact .cons (scoped_jump (.inl (.inr rfl))) (scoped_mark _)
  | «do» s c ih =>
    intro inBreak inContinue ret brk cont n hok
    refine .close n (.close (n + 1) (.close (n + 2) ?_ (by simp [emit])) (by simp [emit]))
      (by simp [emit])
    refine (((Scoped.cons (scoped_mark _)
      ((ih ret (n + 1) n _ hok).mono fun _ h ↦ .inl (hbody h))).append (scoped_mark n)).append
      (c.scoped' _)).append ?_
    exact .cons (scoped_jump (.inr rfl)) (scoped_mark _)
  | «for» init guard step s ih =>
    intro inBreak inContinue ret brk cont n hok
    refine .close n (.close (n + 1) (.close (n + 2) (.close (n + 3) ?_ (by simp [emit]))
      (by simp [emit])) (by simp [emit])) (by simp [emit])
    refine (((((((scoped_forExpr init _).append (scoped_mark _)).append
      (scoped_forGuard guard _ (.inr rfl))).append ?_).append (scoped_forExpr step _)).append
      ?_).append ((ih ret (n + 1) n _ hok).mono fun _ h ↦ .inl (.inl (hbody h)))).append ?_
    · exact .cons (scoped_jump (.inl (.inl (.inr rfl)))) (scoped_mark n)
    · exact .cons (scoped_jump (.inl (.inr rfl))) (scoped_mark _)
    · exact .cons (scoped_jump (.inl (.inl (.inl (.inr rfl))))) (scoped_mark _)
  | switch e i s table ih =>
    intro inBreak inContinue ret brk cont n hok
    refine .close n ?_ (by simp [emit])
    refine ((((Expr.scoped' e _).append (scoped_instr i)).append
      ((ih ret n cont _ hok).mono fun l h ↦ ?_)).append ?_)
    · rcases h with rfl | ⟨-, rfl⟩ | h
      · exact .inl (.inl rfl)
      · exact .inr rfl
      · exact .inl (.inr (.inr h))
    · exact .cons (scoped_jump (.inr rfl)) (scoped_mark n)
  | case => exact fun _ _ _ _ _ ↦ scoped_nil
  | «break» => exact fun _ _ _ _ hok ↦ scoped_jump (.inr (.inl ⟨hok, rfl⟩))
  | «continue» => exact fun _ _ _ _ hok ↦ scoped_jump (.inr (.inr ⟨hok, rfl⟩))
  | «return» e =>
    intro inBreak inContinue ret brk cont n _
    cases e with
    | none => exact .cons (scoped_instr _) (scoped_jump (.inl rfl))
    | some e => exact (e.scoped' n).append (scoped_jump (.inl rfl))

/-! ### Programs -/

/-- The jumps of code go to its own labels. -/
def Closed (code : List Item) : Prop :=
  ∀ op l table, .jump op l table ∈ code → .mark l ∈ code

theorem Closed.append (h : Closed code) (h' : Closed code') : Closed (code ++ code') := by
  intro op l table hmem
  rw [mem_append]
  exact (mem_append.1 hmem).imp (h op l table) (h' op l table)

theorem Scoped.closed (h : Scoped (fun _ ↦ False) code) : Closed code :=
  fun op l table hmem ↦ (h.label op l table hmem).resolve_left id

theorem scoped_instrs (is : List Instr) : Scoped L (is.map .instr) :=
  ⟨by simp, by simp⟩

/-- The code of a part of a program is not looked at, or it is code of its own that ends with an
instruction. -/
theorem Part.emit_cases (part : Part) (n : ℕ) (hok : part.ok = true) :
    (∃ bytes, (part.emit n).1 = [.raw bytes]) ∨
      ∃ code i, (part.emit n).1 = code ++ [.instr i] ∧ Scoped (fun _ ↦ False) code := by
  cases part with
  | raw bytes => exact .inl ⟨bytes, rfl⟩
  | value e i => exact .inr ⟨_, i, rfl, e.scoped n⟩
  | function s ending ret =>
    refine .inr ⟨_, ret, rfl, .close n ?_ (by simp)⟩
    refine (Scoped.append ?_ (.cons (scoped_instr _) (scoped_mark n))).append (scoped_instrs ending)
    refine (s.scoped n 0 0 (n + 1) hok).mono fun l hl ↦ .inr ?_
    simpa [Outside] using hl

theorem emitParts_cons (part : Part) (parts : List Part) (n : ℕ) :
    emitParts n (part :: parts) = (part.emit n).1 ++ emitParts (part.emit n).2 parts :=
  rfl

theorem closed_emitParts (parts : List Part) (hok : ∀ part ∈ parts, part.ok = true) :
    ∀ n, Closed (emitParts n parts) := by
  induction parts with
  | nil => exact fun n _ _ _ hmem ↦ absurd hmem not_mem_nil
  | cons part parts ih =>
    intro n
    rw [emitParts_cons]
    refine .append ?_ (ih (fun part hmem ↦ hok part (.tail _ hmem)) _)
    rcases part.emit_cases n (hok part (.head _)) with ⟨bytes, h⟩ | ⟨code, i, h, hscoped⟩
    · rw [h]
      intro op l table hmem
      simp at hmem
    · rw [h]
      exact (hscoped.append (scoped_instr i)).closed

/-- **Every jump of a program** goes to a label of it. -/
theorem closed_compile (parts : List Part) (hok : ∀ part ∈ parts, part.ok = true) :
    Closed (compile parts) :=
  closed_emitParts parts hok 0

/-! ### What is behind a label -/

/-- An instruction, one that jumps or one that does not. -/
def Item.Opens : Item → Prop
  | instr _ | jump .. => True
  | mark _ | raw _ => False

/-- The first thing of code that is not a label is an instruction. -/
def Starts : List Item → Prop
  | .mark _ :: code => Starts code
  | item :: _ => item.Opens
  | [] => False

/-- Behind every label there is an instruction. -/
def Lands : List Item → Prop
  | [] => True
  | .mark _ :: code => Starts code ∧ Lands code
  | _ :: code => Lands code

theorem starts_append (h : ∀ bytes, Item.raw bytes ∉ code) (h' : Starts code') :
    Starts (code ++ code') := by
  induction code with
  | nil => exact h'
  | cons item code ih =>
    cases item with
    | instr i => trivial
    | jump op l table => trivial
    | mark l => exact ih fun bytes hmem ↦ h bytes (.tail _ hmem)
    | raw bytes => exact absurd (.head _) (h bytes)

theorem lands_append (h : ∀ bytes, Item.raw bytes ∉ code) (h' : Starts code')
    (hlands : Lands code') : Lands (code ++ code') := by
  induction code with
  | nil => exact hlands
  | cons item code ih =>
    have hcode : ∀ bytes, Item.raw bytes ∉ code := fun bytes hmem ↦ h bytes (.tail _ hmem)
    cases item with
    | mark l => exact ⟨starts_append hcode h', ih hcode⟩
    | _ => exact ih hcode

theorem lands_emitParts (parts : List Part) (hok : ∀ part ∈ parts, part.ok = true) :
    ∀ n, Lands (emitParts n parts) := by
  induction parts with
  | nil => exact fun _ ↦ trivial
  | cons part parts ih =>
    intro n
    have hrest := ih (fun part hmem ↦ hok part (.tail _ hmem)) (part.emit n).2
    rw [emitParts_cons]
    rcases part.emit_cases n (hok part (.head _)) with ⟨bytes, h⟩ | ⟨code, i, h, hscoped⟩
    · rw [h]
      exact hrest
    · rw [h, append_assoc]
      exact lands_append hscoped.raw trivial hrest

/-- **Behind every label of a program** there is an instruction. -/
theorem lands_compile (parts : List Part) (hok : ∀ part ∈ parts, part.ok = true) :
    Lands (compile parts) :=
  lands_emitParts parts hok 0

/-! ### Places -/

/-- A piece of code is at an address. -/
def Placed (code : List Item) (a : ℕ) (item : Item) : Prop :=
  ∃ pre post, code = pre ++ item :: post ∧ size pre = a

theorem size_cons (item : Item) (code : List Item) : size (item :: code) = item.size + size code :=
  rfl

theorem size_append (code code' : List Item) : size (code ++ code') = size code + size code' := by
  rw [size, map_append, sum_append]
  rfl

theorem placed_cons : Placed (item :: code) a item' ↔
    a = 0 ∧ item' = item ∨ ∃ b, Placed code b item' ∧ a = item.size + b := by
  constructor
  · rintro ⟨_ | ⟨p, pre⟩, post, heq, rfl⟩
    · exact .inl ⟨rfl, (List.cons.inj heq).1.symm⟩
    · obtain ⟨rfl, rfl⟩ := List.cons.inj heq
      exact .inr ⟨size pre, ⟨pre, post, rfl, rfl⟩, rfl⟩
  · rintro (⟨rfl, rfl⟩ | ⟨b, ⟨pre, post, rfl, rfl⟩, rfl⟩)
    · exact ⟨[], code, rfl, rfl⟩
    · exact ⟨item :: pre, post, rfl, rfl⟩

/-- **Pieces of code do not overlap.** -/
theorem Placed.cases (h : Placed code a item) (h' : Placed code b item') (hsize : 0 < item.size)
    (hsize' : 0 < item'.size) :
    a = b ∧ item = item' ∨ a + item.size ≤ b ∨ b + item'.size ≤ a := by
  induction code generalizing a b with
  | nil =>
    obtain ⟨pre, post, heq, -⟩ := h
    simp at heq
  | cons first code ih =>
    rw [placed_cons] at h h'
    rcases h with ⟨rfl, rfl⟩ | ⟨a, h, rfl⟩ <;> rcases h' with ⟨rfl, rfl⟩ | ⟨b, h', rfl⟩
    · exact .inl ⟨rfl, rfl⟩
    · exact .inr (.inl (by omega))
    · exact .inr (.inr (by omega))
    · rcases ih h h' with ⟨rfl, rfl⟩ | hle | hle
      · exact .inl ⟨rfl, rfl⟩
      · exact .inr (.inl (by omega))
      · exact .inr (.inr (by omega))

theorem Placed.le_size (h : Placed code a item) : a + item.size ≤ size code := by
  obtain ⟨pre, post, rfl, rfl⟩ := h
  rw [size_append, size_cons]
  omega

theorem Starts.placed (h : Starts code) : ∃ item, Placed code 0 item ∧ item.Opens := by
  induction code with
  | nil => exact h.elim
  | cons item code ih =>
    cases item with
    | mark l =>
      obtain ⟨item, hplaced, hopens⟩ := ih h
      exact ⟨item, placed_cons.2 (.inr ⟨0, hplaced, rfl⟩), hopens⟩
    | _ => exact ⟨_, placed_cons.2 (.inl ⟨rfl, rfl⟩), h⟩

/-- **At the address of a label** there is an instruction. -/
theorem placed_address (hlands : Lands code) (hmark : .mark l ∈ code) :
    ∃ item, Placed code (address code l) item ∧ item.Opens := by
  have hskip {first : Item} {code : List Item} {a : ℕ}
      (h : ∃ item, Placed code a item ∧ item.Opens) :
      ∃ item, Placed (first :: code) (first.size + a) item ∧ item.Opens := by
    obtain ⟨item, hplaced, hopens⟩ := h
    exact ⟨item, placed_cons.2 (.inr ⟨_, hplaced, rfl⟩), hopens⟩
  induction code with
  | nil => exact absurd hmark not_mem_nil
  | cons first code ih =>
    cases first with
    | mark k =>
      rw [address]
      split_ifs with hkl
      · exact hskip hlands.1.placed
      · have hmem : Item.mark l ∈ code :=
          (mem_cons.1 hmark).resolve_left fun heq ↦ hkl (Item.mark.inj heq).symm
        obtain ⟨item, hplaced, hopens⟩ := ih hlands.2 hmem
        exact ⟨item, placed_cons.2 (.inr ⟨_, hplaced, (Nat.zero_add _).symm⟩), hopens⟩
    | _ => exact hskip (ih hlands (by simpa using hmark))

/-! ### Bytes -/

theorem Item.length_bytes (addr : ℕ → ℕ) (item : Item) :
    (item.bytes addr).length = item.size := by
  cases item <;> rfl

theorem length_flatMap_bytes (addr : ℕ → ℕ) (code : List Item) :
    (code.flatMap (Item.bytes addr)).length = size code := by
  simp only [length_flatMap, Item.length_bytes, size]

/-- **The bytes of a piece of code** are at its address. -/
theorem Placed.load (h : Placed code a item) {k : ℕ} (hk : k < item.size) :
    load (program code) (a + k) = (item.bytes (address code)).getD k 0 := by
  generalize haddr : address code = addr
  obtain ⟨pre, post, rfl, rfl⟩ := h
  have hprog : program (pre ++ item :: post) =
      pre.flatMap (Item.bytes addr) ++ (item.bytes addr ++ post.flatMap (Item.bytes addr)) := by
    rw [program, haddr, flatMap_append, flatMap_cons]
  rw [Compiler.load, hprog, getD_append_right _ _ _ _ (by rw [length_flatMap_bytes]; omega),
    length_flatMap_bytes, Nat.add_sub_cancel_left,
    getD_append _ _ _ _ (by rw [Item.length_bytes]; exact hk)]

/-- **The table has the places of all jumps**, and of nothing else. -/
theorem mem_jumps {ip : ℕ} : ∀ {offset : ℕ}, ip ∈ jumps offset code ↔
    ∃ a op l table, Placed code a (.jump op l table) ∧ ip = offset + a + 1 := by
  induction code with
  | nil =>
    refine fun {offset} ↦ iff_of_false not_mem_nil ?_
    rintro ⟨a, op, l, table, ⟨pre, post, heq, -⟩, -⟩
    simp at heq
  | cons item code ih =>
    intro offset
    -- the jumps behind the first piece of code
    have hrest : ip ∈ jumps (offset + item.size) code ↔
        ∃ a op l table, (∃ b, Placed code b (.jump op l table) ∧ a = item.size + b) ∧
          ip = offset + a + 1 := by
      rw [ih]
      constructor
      · rintro ⟨b, op, l, table, hplaced, rfl⟩
        exact ⟨_, op, l, table, ⟨b, hplaced, rfl⟩, by omega⟩
      · rintro ⟨_, op, l, table, ⟨b, hplaced, rfl⟩, rfl⟩
        exact ⟨b, op, l, table, hplaced, by omega⟩
    simp only [placed_cons]
    cases item with
    | jump op l table =>
      rw [jumps, mem_cons, hrest]
      constructor
      · rintro (rfl | ⟨a, op', l', table', h, rfl⟩)
        · exact ⟨0, op, l, table, .inl ⟨rfl, rfl⟩, rfl⟩
        · exact ⟨a, op', l', table', .inr h, rfl⟩
      · rintro ⟨a, op', l', table', ⟨rfl, -⟩ | h, rfl⟩
        · exact .inl rfl
        · exact .inr ⟨a, op', l', table', h, rfl⟩
    | _ =>
      rw [jumps, hrest]
      · simp only [reduceCtorEq, and_false, false_or]
      · simp

end Lpmud.Compiler
