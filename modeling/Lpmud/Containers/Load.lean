import Lpmud.Svalue
import Mathlib.Algebra.Order.Group.Int
import Mathlib.Algebra.Order.Monoid.Prod
import Mathlib.Tactic.Abel

/-!
# What containers carry

A container (`/std/container.c`) keeps accounts of the weight and the volume of what is in it. When
they change, the accounts of the container around it change too, and so on outwards
(`update_internal`): by the same weight and volume, but reduced as the outer one says, and by no
volume if the inner one is rigid.

What a change adds to the account of each container is `gain`, as long as no integer overflows. It
is monotone and odd, so a change that is taken back leaves nothing behind.

What is left of a result that is too large for an integer is up to a function `i`, which is the
identity for unbounded integers. No container is the outside of a room (`set_room`).
-/

namespace Lpmud.Containers

open Function

/-- A weight and a volume. -/
abbrev Load : Type := ℤ × ℤ

/-- A weight and a volume as integers. -/
def Load.map (i : ℤ → ℤ) (l : Load) : Load :=
  (i l.1, i l.2)

@[simp] theorem Load.map_id (l : Load) : l.map id = l := rfl

/-- What is used of a container: its properties, and the accounts of what is in it. -/
structure Container where
  /-- `CONT_I_IN` -/
  isIn : Bool
  /-- `CONT_M_NO_INS` -/
  noIns : Bool
  /-- `CONT_M_NO_REM` -/
  noRem : Bool
  closed : Bool
  /-- `create_container` is the one of a living. -/
  living : Bool
  /-- `ROOM_I_IS` -/
  isRoom : Bool
  rigid : Bool
  maxWeight : ℤ
  maxVolume : ℤ
  /-- `CONT_I_WEIGHT` -/
  ownWeight : ℕ
  /-- `CONT_I_VOLUME` -/
  ownVolume : ℕ
  reduceWeight : ℤ
  reduceVolume : ℤ
  /-- `cont_cur_weight` and `cont_cur_volume` -/
  cur : Load
  reduceWeight_pos : 0 < reduceWeight
  reduceVolume_pos : 0 < reduceVolume

namespace Container

variable (i : ℤ → ℤ) (c : Container)

def weight : ℤ :=
  i (c.ownWeight + c.cur.1)

def volume : ℤ :=
  if c.rigid then c.maxVolume else i (c.ownVolume + c.cur.2)

def volumeLeft : ℤ :=
  if c.rigid then i (i (c.maxVolume - c.ownVolume) - c.cur.2) else i (c.maxVolume - c.volume i)

/-- Something is added to the accounts. -/
def add (l : Load) : Container :=
  { c with cur := (c.cur + l).map i }

/-- What a container that is in another one adds to the accounts of that one. -/
def pass (e : Container) (l : Load) : Load :=
  ((i (l.1 * 100)).tdiv e.reduceWeight,
    (i ((if c.rigid then 0 else l.2) * 100)).tdiv e.reduceVolume)

end Container

/-- The containers, and which containers each is in, the innermost first. -/
structure World where
  box : Obj → Container
  within : Obj → List Obj
  within_cons : ∀ {a b l}, within a = b :: l → within b = l

/-- `update_internal`, of a container and those that it is in. -/
def updateInternal (i : ℤ → ℤ) (box : Obj → Container) (l : Load) :
    List Obj → Obj → Container
  | [] => box
  | [c] => update box c ((box c).add i l)
  | c :: e :: env =>
    let v := if (box c).rigid then 0 else l.2
    let box' := update box c ((box c).add i l)
    if l.1 = 0 ∧ v = 0 then box'
    else updateInternal i box' ((box c).pass i (box e) l) (e :: env)

namespace World

variable (W : World)

/-- A container and those that it is in. -/
def chain (c : Obj) : List Obj :=
  c :: W.within c

/-- `c->update_internal(0, w, v)`. -/
def update (i : ℤ → ℤ) (c : Obj) (l : Load) : World :=
  { W with box := updateInternal i W.box l (W.chain c) }

end World

/-! ### What is added to each account -/

/-- What `update_internal` adds to the account of `o`. -/
def carried (box : Obj → Container) : List Obj → Load → Obj → Load
  | [], _, _ => 0
  | [c], l, o => if o = c then l else 0
  | c :: e :: env, l, o =>
    (if o = c then l else 0) + carried box (e :: env) ((box c).pass id (box e) l) o

section Pass

variable {c e : Container} {l l' : Load}

theorem tdiv_mono {a b r : ℤ} (hr : 0 < r) (h : a ≤ b) : a.tdiv r ≤ b.tdiv r := by
  obtain ha | ha := le_or_gt 0 a
  · rw [Int.tdiv_eq_ediv_of_nonneg ha, Int.tdiv_eq_ediv_of_nonneg (ha.trans h)]
    exact Int.ediv_le_ediv hr h
  have hneg : ∀ x < 0, x.tdiv r = -(-x / r) := fun x hx ↦ by
    rw [← Int.tdiv_eq_ediv_of_nonneg (by omega), Int.neg_tdiv, Int.neg_neg]
  rw [hneg a ha]
  have hdiv : 0 ≤ -a / r := Int.ediv_nonneg (by omega) hr.le
  obtain hb | hb := le_or_gt 0 b
  · rw [Int.tdiv_eq_ediv_of_nonneg hb]
    exact (Int.neg_nonpos_of_nonneg hdiv).trans (Int.ediv_nonneg hb hr.le)
  · rw [hneg b hb]
    exact Int.neg_le_neg (Int.ediv_le_ediv hr (Int.neg_le_neg h))

theorem pass_zero : c.pass id e 0 = 0 := by
  rw [Container.pass]
  simp

theorem pass_neg : c.pass id e (-l) = -c.pass id e l := by
  have hif : (if c.rigid then 0 else -l.2) = -if c.rigid then 0 else l.2 := by
    split
    · rfl
    · rfl
  rw [Container.pass, Prod.fst_neg, Prod.snd_neg, hif, Int.neg_mul, Int.neg_mul, id_eq, id_eq,
    Int.neg_tdiv, Int.neg_tdiv]
  rfl

theorem pass_mono (h : l ≤ l') : c.pass id e l ≤ c.pass id e l' := by
  refine ⟨tdiv_mono e.reduceWeight_pos ?_, tdiv_mono e.reduceVolume_pos ?_⟩
  · exact Int.mul_le_mul_of_nonneg_right h.1 (by decide)
  · refine Int.mul_le_mul_of_nonneg_right ?_ (by decide)
    split
    · exact le_rfl
    · exact h.2

end Pass

variable {box box' : Obj → Container} {l l' : Load} {chain : List Obj} {c o : Obj}

theorem carried_cons_cons {e : Obj} {env : List Obj} :
    carried box (c :: e :: env) l o =
      (if o = c then l else 0) + carried box (e :: env) ((box c).pass id (box e) l) o :=
  rfl

theorem carried_zero (box : Obj → Container) (chain : List Obj) (o : Obj) :
    carried box chain 0 o = 0 := by
  induction chain with
  | nil => rfl
  | cons c env ih =>
    cases env with
    | nil => exact ite_self 0
    | cons e env => rw [carried_cons_cons, pass_zero, ih, ite_self, add_zero]

theorem carried_neg (box : Obj → Container) (chain : List Obj) (l : Load) (o : Obj) :
    carried box chain (-l) o = -carried box chain l o := by
  have hif : ∀ {c : Obj} {l : Load}, (if o = c then -l else 0) = -if o = c then l else 0 := by
    intro c l
    split
    · rfl
    · rfl
  induction chain generalizing l with
  | nil => rfl
  | cons c env ih =>
    cases env with
    | nil => exact hif
    | cons e env => rw [carried_cons_cons, carried_cons_cons, pass_neg, ih, hif, neg_add]

theorem carried_mono (h : l ≤ l') (o : Obj) : carried box chain l o ≤ carried box chain l' o := by
  induction chain generalizing l l' with
  | nil => exact le_rfl
  | cons c env ih =>
    have hif : (if o = c then l else 0) ≤ if o = c then l' else 0 := by
      split
      · exact h
      · exact le_rfl
    cases env with
    | nil => exact hif
    | cons e env => exact add_le_add hif (ih (pass_mono h))

theorem carried_of_notMem (h : o ∉ chain) (l : Load) : carried box chain l o = 0 := by
  induction chain generalizing l with
  | nil => rfl
  | cons c env ih =>
    rw [List.mem_cons, not_or] at h
    cases env with
    | nil => exact if_neg h.1
    | cons e env => rw [carried_cons_cons, if_neg h.1, zero_add, ih h.2]

theorem carried_cons (h : c ∉ chain) (l : Load) : carried box (c :: chain) l c = l := by
  cases chain with
  | nil => exact if_pos rfl
  | cons e env => rw [carried_cons_cons, if_pos rfl, carried_of_notMem h, add_zero]

theorem carried_congr (h : ∀ o, ∃ l, box' o = (box o).add id l) (chain : List Obj) (l : Load)
    (o : Obj) : carried box' chain l o = carried box chain l o := by
  induction chain generalizing l with
  | nil => rfl
  | cons c env ih =>
    cases env with
    | nil => rfl
    | cons e env =>
      obtain ⟨l₁, hc⟩ := h c
      obtain ⟨l₂, he⟩ := h e
      have hpass : (box' c).pass id (box' e) l = (box c).pass id (box e) l := by
        rw [hc, he]
        rfl
      rw [carried_cons_cons, carried_cons_cons, ih, hpass]

theorem add_zero_load (c : Container) : c.add id 0 = c := by
  rw [Container.add, add_zero]
  rfl

theorem add_add_load (c : Container) (l l' : Load) :
    (c.add id l).add id l' = c.add id (l + l') := by
  show { c with cur := c.cur + l + l' } = { c with cur := c.cur + (l + l') }
  rw [add_assoc]

/-- **What `update_internal` does**: it adds to the accounts what is carried to each. -/
theorem updateInternal_eq (box : Obj → Container) (l : Load) (chain : List Obj) (o : Obj) :
    updateInternal id box l chain o = (box o).add id (carried box chain l o) := by
  have hupdate : ∀ (box : Obj → Container) (l : Load) (c : Obj),
      update box c ((box c).add id l) o = (box o).add id (if o = c then l else 0) := by
    intro box l c
    rw [update_apply]
    split
    next h => rw [h]
    next => exact (add_zero_load _).symm
  induction chain generalizing box l with
  | nil => exact (add_zero_load _).symm
  | cons c env ih =>
    cases env with
    | nil => exact hupdate box l c
    | cons e env =>
      obtain ⟨v, hv⟩ : ∃ v, (if (box c).rigid then 0 else l.2) = v := ⟨_, rfl⟩
      rw [updateInternal, carried_cons_cons, hv]
      split
      next hzero =>
        -- nothing is passed on
        have hpass : (box c).pass id (box e) l = 0 := by
          rw [Container.pass, hv, hzero.1, hzero.2, Int.zero_mul, id_eq, Int.zero_tdiv,
            Int.zero_tdiv]
          rfl
        rw [hupdate, hpass, carried_zero, add_zero]
      next =>
        rw [ih, hupdate, add_add_load]
        refine congrArg (fun x ↦ (box o).add id (_ + x)) (carried_congr (fun o' ↦ ?_) _ _ _)
        rw [update_apply]
        split
        next h => exact ⟨l, by rw [h]⟩
        next => exact ⟨0, (add_zero_load _).symm⟩

namespace World

/-- What a change of a container adds to the account of `o`. -/
def gain (W : World) (c : Obj) (l : Load) (o : Obj) : Load :=
  carried W.box (W.chain c) l o

/-- Something is added to every account. -/
def addLoad (W : World) (f : Obj → Load) : World :=
  { W with box := fun o ↦ (W.box o).add id (f o) }

variable {W : World} {f g : Obj → Load}

@[simp] theorem box_addLoad (o : Obj) : (W.addLoad f).box o = (W.box o).add id (f o) := rfl

theorem update_eq (W : World) (c : Obj) (l : Load) : W.update id c l = W.addLoad (W.gain c l) := by
  rw [update, addLoad]
  congr 1
  exact funext fun o ↦ updateInternal_eq W.box l (W.chain c) o

@[simp] theorem gain_addLoad (W : World) (f : Obj → Load) (c : Obj) (l : Load) :
    (W.addLoad f).gain c l = W.gain c l :=
  funext fun o ↦ carried_congr (fun o' ↦ ⟨f o', rfl⟩) (W.chain c) l o

@[simp] theorem addLoad_addLoad (W : World) (f g : Obj → Load) :
    (W.addLoad f).addLoad g = W.addLoad fun o ↦ f o + g o := by
  rw [addLoad, addLoad, addLoad]
  congr 1
  exact funext fun o ↦ add_add_load (W.box o) (f o) (g o)

@[simp] theorem addLoad_zero (W : World) : (W.addLoad fun _ ↦ 0) = W := by
  rw [addLoad]
  congr 1
  exact funext fun o ↦ add_zero_load (W.box o)

@[simp] theorem gain_zero (W : World) (c o : Obj) : W.gain c 0 o = 0 :=
  carried_zero W.box (W.chain c) o

@[simp] theorem gain_neg (W : World) (c : Obj) (l : Load) (o : Obj) :
    W.gain c (-l) o = -W.gain c l o :=
  carried_neg W.box (W.chain c) l o

theorem gain_mono (W : World) (c : Obj) {l l' : Load} (h : l ≤ l') (o : Obj) :
    W.gain c l o ≤ W.gain c l' o :=
  carried_mono h o

theorem notMem_within (W : World) (c : Obj) : c ∉ W.within c := by
  have hlt : ∀ l a, W.within a = l → ∀ b ∈ l, (W.within b).length < l.length := by
    intro l
    induction l with
    | nil => exact fun _ _ ↦ List.forall_mem_nil _
    | cons e l ih =>
      intro a ha
      have he := W.within_cons ha
      refine List.forall_mem_cons.2 ⟨by rw [he]; exact Nat.lt_succ_self _, fun b hb ↦ ?_⟩
      exact (ih e he b hb).trans (Nat.lt_succ_self _)
  exact fun hc ↦ lt_irrefl _ (hlt _ c rfl c hc)

@[simp] theorem gain_self (W : World) (c : Obj) (l : Load) : W.gain c l c = l :=
  carried_cons (W.notMem_within c) l

theorem gain_of_notMem (W : World) {c o : Obj} (h : o ∉ W.chain c) (l : Load) :
    W.gain c l o = 0 :=
  carried_of_notMem h l

end World

end Lpmud.Containers
