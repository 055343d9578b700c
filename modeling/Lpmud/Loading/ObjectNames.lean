import Lpmud.Lib.TransitionSystem
import Lpmud.Loading.LegalPath
import Lpmud.Mapping.Operations
import Mathlib.Algebra.Group.Nat.Even
import Mathlib.Data.List.Nodup

/-!
# The names of objects

`load_object` and `find_object2` of `simulate.c` both reduce the string that they get to the name of
an object: slashes in front are taken off, and every `.c` at the end. The table of `otable.c` finds
objects by their names.

The two loops that take off `.c` are different. That of `load_object` looks at what is left of a
copy of 196 characters. That of `find_object2` looks at the whole string, and at two characters even
where there are none left, so it reads in front of strings that are too short (`oneName_iff`).
-/

namespace Lpmud.Loading

open Function List
open Option (map_some some.inj some.injEq)

abbrev LETTER_C : UInt8 := 99

/-- The size of the buffer for a name. -/
abbrev NAME_SIZE : ℕ := 200

/-! ### Reducing a string to a name -/

/-- A string without the slashes in front. -/
def bareName (str : Bytes) : Bytes :=
  str.dropWhile (· == SLASH)

/-- The loop of `load_object` that takes `.c` off, for the characters of a name from the last one to
the first one. -/
def chop : Bytes → Bytes
  | c :: d :: s => if d = DOT ∧ c = LETTER_C then chop s else c :: d :: s
  | s => s

/-- The loop of `find_object2` that takes `.c` off. There are `before` slashes in front of the name,
and nothing is read that is not in the string. -/
def chopFind (before : ℕ) : Bytes → Option Bytes
  | c :: d :: s => if d = DOT ∧ c = LETTER_C then chopFind before s else some (c :: d :: s)
  -- what is read in front of the name is a slash, or nothing that there is
  | s => if 2 ≤ before + s.length then some s else none

/-- The name that `load_object` makes of a string. -/
def loadName (lname : Bytes) : Bytes :=
  let name := (bareName lname).take (NAME_SIZE - 1)
  let name := if name.length > NAME_SIZE - 4 then name.take (NAME_SIZE - 4) else name
  (chop name.reverse).reverse

/-- The name that `find_object2` makes of a string, if it reads nothing else. -/
def findName (str : Bytes) : Option Bytes :=
  (chopFind (str.length - (bareName str).length) (bareName str).reverse).map List.reverse

/-! ### The table of names -/

abbrev OTABLE_SIZE : ℕ := 0x4000

/-- An object in the table, with its name. -/
structure Entry where
  name : Bytes
  ob : Obj
  deriving DecidableEq

abbrev ObjTable : Type := Buckets Entry

def objHash (s : Bytes) : ℕ :=
  slot OTABLE_SIZE (hashstr16 s 100)

/-- `find_obj_n`: what is found is moved to the head of its chain. -/
def findObjN (t : ObjTable) (s : Bytes) : ObjTable × Option Obj :=
  let chain := t (objHash s)
  match chain.find? (·.name == s) with
  | none => (t, none)
  | some e => (Function.update t (objHash s) (e :: chain.erase e), some e.ob)

/-- `enter_object_hash`, unless it is fatal. -/
def enterObjectHash (t : ObjTable) (ob : Entry) : Option ObjTable :=
  match findObjN t ob.name with
  | (_, some _) => none
  | (t, none) => some (t.add (fun e ↦ objHash e.name) ob)

/-- `remove_object_hash`, unless it is fatal. -/
def removeObjectHash (t : ObjTable) (ob : Entry) : Option ObjTable :=
  match findObjN t ob.name with
  | (t, some s) => if s = ob.ob then some (Function.update t (objHash ob.name)
      (t (objHash ob.name)).tail) else none
  | (_, none) => none

/-- `find_object2`, unless it reads in front of the string. -/
def findObject2 (t : ObjTable) (str : Bytes) : Option (ObjTable × Option Obj) :=
  (findName str).map (findObjN t)

/-- How `load_object` ends. -/
inductive Loaded where
  | error
  | fatal
  | object (t : ObjTable)

/-- `load_object` with a new object. Whether there is a file and whether it is a program that
can be compiled is what `compiles` says. -/
def loadObject (compiles : Bytes → Bool) (t : ObjTable) (lname : Bytes) (ob : Obj) :
    Loaded :=
  let name := loadName lname
  if name = [] ∨ [SLASH, SLASH] <:+: name then .error
  else if ¬legalPath (some (name ++ [DOT, LETTER_C])) ∨ ¬compiles name then .error
  else
    match enterObjectHash t ⟨name, ob⟩ with
    | none => .fatal
    | some t => .object t

/-- What happens to the table. -/
inductive TableOp where
  | find (str : Bytes)
  | load (lname : Bytes) (ob : Obj)
  | remove (ob : Entry)

/-- The table of the names, as long as nothing is fatal. -/
def otable (compiles : Bytes → Bool) : TransitionSystem ObjTable TableOp where
  Init t := t = Buckets.empty
  Step t op t' :=
    match op with
    | .find str => ∃ found, findObject2 t str = some (t', found)
    | .load lname ob => loadObject compiles t lname ob = .object t'
    | .remove ob => ob ∈ t.elems OTABLE_SIZE ∧ removeObjectHash t ob = some t'

/-- **A string stands for one name**: both functions reduce it to the same, and nothing in front of
it is read. So what is loaded after it was not found is entered as the only object of its name, and
what has been loaded is found. -/
structure OneName (compiles : Bytes → Bool) (str : Bytes) : Prop where
  same : findName str = some (loadName str)
  fresh : ∀ t t', (otable compiles).Reachable t → findObject2 t str = some (t', none) →
    ∀ ob, loadObject compiles t' str ob ≠ .fatal
  found : ∀ t t' ob, (otable compiles).Reachable t → loadObject compiles t str ob = .object t' →
    ∃ t'', findObject2 t' str = some (t'', some ob)

variable {s : Bytes}

/-! ### Names -/

theorem chopFind_eq (before : ℕ) (s : Bytes) :
    chopFind before s = if 2 ≤ before + (chop s).length then some (chop s) else none := by
  fun_induction chop s with
  | case1 c d s h ih => rw [chopFind, if_pos h, ih]
  | case2 c d s h =>
    have hlen : 2 ≤ before + (c :: d :: s).length := by
      simp only [length_cons]
      omega
    rw [chopFind, if_neg h, if_pos hlen]
  | case3 s h =>
    cases s with
    | nil => rfl
    | cons c s =>
      cases s with
      | nil => rfl
      | cons d s => exact absurd rfl (h c d s)

/-- **What is taken off** is `.c`, some times. Where as much of it is not there, the rest is the
same; where half of a `.c` is not there, the other half stays. -/
theorem exists_chop (s : Bytes) : ∃ j, 2 * j ≤ s.length ∧
    (chop s).length = s.length - 2 * j ∧ (∀ i ≤ j, chop (s.drop (2 * i)) = chop s) ∧
    ∀ i < j, chop (s.drop (2 * i + 1)) = s.drop (2 * i + 1) := by
  fun_induction chop s with
  | case1 c d s h ih =>
    obtain ⟨j, hj, hlen, hwhole, hhalf⟩ := ih
    refine ⟨j + 1, ?_, ?_, fun i hi ↦ ?_, fun i hi ↦ ?_⟩
    · simp only [length_cons]
      omega
    · simp only [length_cons]
      omega
    · cases i with
      | zero => exact if_pos h
      | succ i => exact hwhole i (Nat.le_of_succ_le_succ hi)
    · cases i with
      | zero =>
        show chop (d :: s) = d :: s
        cases s with
        | nil => rfl
        | cons e s =>
          refine if_neg fun hc ↦ ?_
          rw [h.1] at hc
          exact absurd hc.2 (by decide)
      | succ i => exact hhalf i (Nat.lt_of_succ_lt_succ hi)
  | case2 c d s h =>
    refine ⟨0, Nat.zero_le _, rfl, fun i hi ↦ ?_, fun i hi ↦ absurd hi (Nat.not_lt_zero i)⟩
    obtain rfl := Nat.le_zero.1 hi
    exact if_neg h
  | case3 s h =>
    refine ⟨0, Nat.zero_le _, rfl, fun i hi ↦ ?_, fun i hi ↦ absurd hi (Nat.not_lt_zero i)⟩
    obtain rfl := Nat.le_zero.1 hi
    cases s with
    | nil => rfl
    | cons c s =>
      cases s with
      | nil => rfl
      | cons d s => exact absurd rfl (h c d s)

theorem length_chop_le (s : Bytes) : (chop s).length ≤ s.length := by
  obtain ⟨j, -, hlen, -⟩ := exists_chop s
  omega

/-- **Where the string is cut matters** unless there is an even number of characters before the last
`.c`, and not too many. -/
theorem chop_drop_iff {n k : ℕ} (hn : Even n) (hs : s.length = n + k) :
    chop (s.drop k) = chop s ↔ (chop s).length ≤ n ∧ Even (chop s).length := by
  obtain ⟨j, hj, hlen, hwhole, hhalf⟩ := exists_chop s
  have hle := length_chop_le (s.drop k)
  rw [length_drop] at hle
  rw [Nat.even_iff] at hn ⊢
  constructor
  · intro heq
    have hlen' := congrArg List.length heq
    obtain ⟨i, rfl | rfl⟩ : ∃ i, k = 2 * i ∨ k = 2 * i + 1 := ⟨k / 2, by omega⟩
    · omega
    · -- half of a `.c` would be left
      rcases Nat.lt_or_ge i j with hij | hij
      · rw [hhalf i hij, length_drop] at hlen'
        omega
      · omega
  · rintro ⟨hle, heven⟩
    have hk : k = 2 * (k / 2) := by omega
    rw [hk]
    exact hwhole (k / 2) (by omega)

/-- What is left of a string when slashes in front and every `.c` at the end are taken off. -/
def strippedName (str : Bytes) : Bytes :=
  (chop (bareName str).reverse).reverse

theorem findName_eq (str : Bytes) : findName str =
    if 2 ≤ str.length - (bareName str).length + (strippedName str).length then
      some (strippedName str) else none := by
  rw [findName, chopFind_eq, strippedName, length_reverse]
  split <;> rfl

/-- **Both functions make the same name of a string**, and the one does not read in front of it. -/
theorem same_iff (str : Bytes) : findName str = some (loadName str) ↔
    2 ≤ str.length - (bareName str).length + (strippedName str).length ∧
      ((bareName str).length ≤ 196 ∨
        (strippedName str).length ≤ 196 ∧ Even (strippedName str).length) := by
  have hload : loadName str = (chop ((bareName str).take 196).reverse).reverse := by
    rw [loadName]
    split
    next =>
      rw [take_take]
      rfl
    next hle =>
      have hmin : ¬196 < min 199 (bareName str).length := by rwa [length_take] at hle
      have hlen : (bareName str).length ≤ 196 := by omega
      rw [take_of_length_le (hlen.trans (by decide)), take_of_length_le hlen]
  rw [findName_eq, hload]
  split
  next hlen =>
    rw [and_iff_right hlen, some.injEq, strippedName, reverse_inj]
    rcases Nat.lt_or_ge 196 (bareName str).length with hlt | hge
    · rw [reverse_take, eq_comm, chop_drop_iff (n := 196) (by decide)
        (by rw [length_reverse]; omega), length_reverse]
      exact (or_iff_right (Nat.not_le.2 hlt)).symm
    · rw [take_of_length_le hge]
      exact iff_of_true rfl (.inl hge)
  next hlen => exact iff_of_false nofun fun h ↦ hlen h.1

/-! ### The table -/

/-- **The table is in order**: every object is in the chain of its name, and no two have the same
name. -/
structure Ordered (t : ObjTable) : Prop where
  placed : t.Placed (fun e ↦ objHash e.name) OTABLE_SIZE
  nodup : ((t.elems OTABLE_SIZE).map Entry.name).Nodup

variable {t t' : ObjTable} {e : Entry} {ob : Obj}

theorem objHash_lt (s : Bytes) : objHash s < OTABLE_SIZE := by
  have hle := Nat.and_le_right (n := (hashstr16 s 100).toNat) (m := OTABLE_SIZE - 1)
  exact Nat.lt_of_le_pred (by decide) hle

theorem Ordered.update (ht : Ordered t) {chain : List Entry}
    (hsub : chain.Subperm (t (objHash s))) : Ordered (Function.update t (objHash s) chain) := by
  obtain ⟨rest, helems, hupdate⟩ := t.exists_elems (objHash_lt s)
  refine ⟨ht.placed.update fun x hx ↦ ?_, ?_⟩
  · exact ht.placed _ (objHash_lt s) x (hsub.subset hx)
  · obtain ⟨l, hperm, hsublist⟩ :=
      ((subperm_append_right rest).2 hsub).trans helems.symm.subperm
    rw [((hupdate chain).map Entry.name).nodup_iff, ← (hperm.map Entry.name).nodup_iff]
    exact ht.nodup.sublist (hsublist.map Entry.name)

theorem Ordered.mem_chain (ht : Ordered t) (he : e ∈ t.elems OTABLE_SIZE) :
    e ∈ t (objHash e.name) := by
  obtain ⟨i, hi, hmem⟩ := Buckets.mem_elems.1 he
  have hplaced : objHash e.name = i := ht.placed i hi e hmem
  rwa [hplaced]

theorem Ordered.eq_of_name (ht : Ordered t) {e' : Entry} (he : e ∈ t.elems OTABLE_SIZE)
    (he' : e' ∈ t.elems OTABLE_SIZE) (hname : e.name = e'.name) : e = e' :=
  inj_on_of_nodup_map ht.nodup he he' hname

/-- **What `find_obj_n` finds** is the object of the name; the table keeps its objects. -/
theorem Ordered.findObjN (ht : Ordered t) (s : Bytes) : Ordered (findObjN t s).1 ∧
    ((findObjN t s).1.elems OTABLE_SIZE).Perm (t.elems OTABLE_SIZE) ∧
    ∀ ob, (findObjN t s).2 = some ob ↔ ⟨s, ob⟩ ∈ t.elems OTABLE_SIZE := by
  rw [Loading.findObjN]
  split
  next hnone =>
    refine ⟨ht, .refl _, fun ob ↦ iff_of_false nofun fun hmem ↦ ?_⟩
    have hne := List.find?_eq_none.1 hnone _ (ht.mem_chain hmem)
    exact hne (beq_self_eq_true s)
  next e hsome =>
    have hname : e.name = s := by simpa using List.find?_some hsome
    have hchain := mem_of_find?_eq_some hsome
    have hmem : e ∈ t.elems OTABLE_SIZE := Buckets.mem_elems.2 ⟨_, objHash_lt s, hchain⟩
    have hperm : (e :: (t (objHash s)).erase e).Perm (t (objHash s)) :=
      (perm_cons_erase hchain).symm
    refine ⟨ht.update hperm.subperm, ?_, fun ob ↦ ?_⟩
    · obtain ⟨rest, helems, hupdate⟩ := t.exists_elems (objHash_lt s)
      exact (hupdate _).trans ((hperm.append_right rest).trans helems.symm)
    · rw [some.injEq]
      constructor
      · rintro rfl
        rwa [← hname]
      · intro hob
        rw [ht.eq_of_name hmem hob hname]

/-- **What `enter_object_hash` leaves** has the new object, of whose name there was none. -/
theorem Ordered.enterObjectHash (ht : Ordered t) (h : enterObjectHash t e = some t') :
    Ordered t' ∧ e ∈ t'.elems OTABLE_SIZE := by
  obtain ⟨hfind, hperm, hfound⟩ := ht.findObjN e.name
  rw [Loading.enterObjectHash] at h
  rcases hf : Loading.findObjN t e.name with ⟨t₁, _ | ob⟩
  · rw [hf] at h hfind hperm hfound
    obtain rfl := some.inj h
    have hadd : ((t₁.add (fun e ↦ objHash e.name) e).elems OTABLE_SIZE).Perm
        (e :: t₁.elems OTABLE_SIZE) := Buckets.elems_add (objHash_lt e.name)
    refine ⟨⟨hfind.placed.add (objHash_lt e.name), ?_⟩, hadd.mem_iff.2 mem_cons_self⟩
    rw [(hadd.map Entry.name).nodup_iff, map_cons, nodup_cons]
    refine ⟨fun hmem ↦ ?_, hfind.nodup⟩
    obtain ⟨e', he', hname⟩ := mem_map.1 hmem
    have hsome := (hfound e'.ob).2 (by
      rw [← hname]
      exact hperm.mem_iff.1 he')
    cases hsome
  · rw [hf] at h
    cases h

theorem Ordered.removeObjectHash (ht : Ordered t) (h : removeObjectHash t e = some t') :
    Ordered t' := by
  obtain ⟨hfind, -, -⟩ := ht.findObjN e.name
  rw [Loading.removeObjectHash] at h
  rcases hf : Loading.findObjN t e.name with ⟨t₁, _ | ob⟩
  · rw [hf] at h
    cases h
  · rw [hf] at h hfind
    dsimp only at h
    split at h
    next =>
      obtain rfl := some.inj h
      exact hfind.update (tail_sublist _).subperm
    next => cases h

variable {compiles : Bytes → Bool} {str lname : Bytes}

/-- What `load_object` enters is an object with the name that it makes of the string. -/
theorem enterObjectHash_of_loadObject (h : loadObject compiles t lname ob = .object t') :
    enterObjectHash t ⟨loadName lname, ob⟩ = some t' := by
  rw [loadObject] at h
  split at h
  next => cases h
  next =>
    split at h
    next => cases h
    next =>
      split at h
      next => cases h
      next henter =>
        cases h
        exact henter

theorem loadObject_ne_fatal (h : findObjN t (loadName lname) = (t', none)) :
    loadObject compiles t' lname ob ≠ .fatal := by
  have hsame : t' = t := by
    rw [findObjN] at h
    split at h
    next => exact (congrArg Prod.fst h).symm
    next => cases congrArg Prod.snd h
  subst hsame
  have henter : enterObjectHash t' ⟨loadName lname, ob⟩ =
      some (t'.add (fun e ↦ objHash e.name) ⟨loadName lname, ob⟩) := by
    rw [enterObjectHash, h]
  intro hfatal
  rw [loadObject] at hfatal
  split at hfatal
  next => cases hfatal
  next =>
    split at hfatal
    next => cases hfatal
    next =>
      rw [henter] at hfatal
      cases hfatal

/-- **The table is in order** in every run. -/
theorem ordered_of_reachable (ht : (otable compiles).Reachable t) : Ordered t := by
  refine ht.invariant (fun t h ↦ ?_) fun t op t' ht h ↦ ?_
  · obtain rfl : t = Buckets.empty := h
    refine ⟨Buckets.placed_empty, ?_⟩
    rw [Buckets.elems_empty]
    exact nodup_nil
  · cases op with
    | find str =>
      obtain ⟨found, h⟩ := h
      obtain ⟨s, -, hs⟩ := Option.map_eq_some_iff.1 h
      have hfind := (ht.findObjN s).1
      rwa [hs] at hfind
    | load lname ob => exact (ht.enterObjectHash (enterObjectHash_of_loadObject h)).1
    | remove e => exact ht.removeObjectHash h.2

/-- **A string stands for one name** if it is long enough to be looked at, and not so long that it
is cut off in front of something that stays. -/
theorem oneName_iff (compiles : Bytes → Bool) (str : Bytes) : OneName compiles str ↔
    2 ≤ str.length - (bareName str).length + (strippedName str).length ∧
      ((bareName str).length ≤ 196 ∨
        (strippedName str).length ≤ 196 ∧ Even (strippedName str).length) := by
  rw [← same_iff]
  refine ⟨OneName.same, fun hsame ↦ ⟨hsame, fun t t' ht hfind ob hfatal ↦ ?_,
    fun t t' ob ht hload ↦ ?_⟩⟩
  · rw [findObject2, hsame, map_some, some.injEq] at hfind
    exact loadObject_ne_fatal hfind hfatal
  · obtain ⟨ht', hmem⟩ := (ordered_of_reachable ht).enterObjectHash
      (enterObjectHash_of_loadObject hload)
    obtain ⟨-, -, hfound⟩ := ht'.findObjN (loadName str)
    refine ⟨(findObjN t' (loadName str)).1, ?_⟩
    rw [findObject2, hsame, map_some, ← (hfound ob).2 hmem]

/-- The name of one letter: what is in front of it is looked at. -/
theorem not_oneName : ¬∀ compiles str, OneName compiles str := by
  intro h
  have hnone : findName [97] = none := rfl
  have hsame := (h (fun _ ↦ true) [97]).same
  rw [hnone] at hsame
  cases hsame

/-! ### The table is a map -/

/-- The object of a name. -/
def named (t : ObjTable) (s : Bytes) : Option Obj := (findObjN t s).2

/-- A map from names to objects, under the operations of the table. -/
def names : TransitionSystem (Bytes → Option Obj) TableOp where
  Init m := m = fun _ ↦ none
  Step m op m' :=
    match op with
    | .find _ => m' = m
    | .load lname ob =>
      m (loadName lname) = none ∧ m' = Function.update m (loadName lname) (some ob)
    | .remove e => m e.name = some e.ob ∧ m' = Function.update m e.name none

theorem Ordered.named_cons (ht : Ordered t) (ht' : Ordered t')
    (hperm : (t'.elems OTABLE_SIZE).Perm (e :: t.elems OTABLE_SIZE)) :
    named t e.name = none ∧ named t' = Function.update (named t) e.name (some e.ob) := by
  have hnone : named t e.name = none := by
    refine Option.eq_none_iff_forall_ne_some.2 fun ob hob ↦ ?_
    refine (nodup_cons.1 ((hperm.map Entry.name).nodup_iff.1 ht'.nodup)).1 ?_
    exact mem_map.2 ⟨_, ((ht.findObjN e.name).2.2 ob).1 hob, rfl⟩
  refine ⟨hnone, funext fun s ↦ Option.ext fun ob ↦ ?_⟩
  have hmem : named t' s = some ob ↔ ⟨s, ob⟩ = e ∨ named t s = some ob := by
    rw [named, named, (ht'.findObjN s).2.2, (ht.findObjN s).2.2, hperm.mem_iff, mem_cons]
  rw [hmem]
  rcases eq_or_ne s e.name with rfl | hne
  · simp only [Function.update_self, hnone, reduceCtorEq, or_false, some.injEq]
    exact ⟨fun h ↦ (congrArg Entry.ob h).symm, fun h ↦ congrArg (Entry.mk e.name) h.symm⟩
  · rw [update_of_ne hne, or_iff_right fun h ↦ hne (congrArg Entry.name h)]

theorem Ordered.elems_enterObjectHash (ht : Ordered t)
    (h : Loading.enterObjectHash t e = some t') :
    (t'.elems OTABLE_SIZE).Perm (e :: t.elems OTABLE_SIZE) := by
  obtain ⟨-, hperm, -⟩ := ht.findObjN e.name
  rw [Loading.enterObjectHash] at h
  split at h
  next => cases h
  next t₁ hf =>
    rw [hf] at hperm
    obtain rfl := some.inj h
    have hadd : ((t₁.add (fun e ↦ objHash e.name) e).elems OTABLE_SIZE).Perm
        (e :: t₁.elems OTABLE_SIZE) := Buckets.elems_add (objHash_lt e.name)
    exact hadd.trans (hperm.cons e)

theorem Ordered.elems_removeObjectHash (ht : Ordered t)
    (h : Loading.removeObjectHash t e = some t') :
    (t.elems OTABLE_SIZE).Perm (e :: t'.elems OTABLE_SIZE) := by
  obtain ⟨-, hperm, -⟩ := ht.findObjN e.name
  rw [Loading.removeObjectHash] at h
  split at h
  next t₁ s hf =>
    split at h
    next hs =>
      obtain rfl := some.inj h
      obtain ⟨rest, helems, hupdate⟩ := t₁.exists_elems (objHash_lt e.name)
      rw [hf] at hperm
      refine hperm.symm.trans (helems.trans (.trans ?_ ((hupdate _).symm.cons e)))
      rw [Loading.findObjN] at hf
      split at hf
      next => cases hf
      next e' hfind =>
        cases hf
        have hname : e'.name = e.name := by simpa using List.find?_some hfind
        obtain rfl : e' = e := congr (congrArg Entry.mk hname) hs
        rw [Function.update_self]
        rfl
    next => cases h
  next => cases h

/-- **The object table is a map from names to objects**, though it moves what it finds to the head
of its chain: `find` changes nothing, an object is entered only under a name that is free, and what
is removed is the object of its name, and nothing else. -/
theorem names_step (ht : (otable compiles).Reachable t) {op : TableOp}
    (hst : (otable compiles).Step t op t') : names.Step (named t) op (named t') := by
  have hord := ordered_of_reachable ht
  have hord' := ordered_of_reachable (ht.step hst)
  cases op with
  | find str =>
    obtain ⟨found, h⟩ := hst
    obtain ⟨s, -, hs⟩ := Option.map_eq_some_iff.1 h
    have hperm := (hord.findObjN s).2.1
    rw [hs] at hperm
    refine funext fun s ↦ Option.ext fun ob ↦ ((hord'.findObjN s).2.2 ob).trans ?_
    exact hperm.mem_iff.trans ((hord.findObjN s).2.2 ob).symm
  | load lname ob =>
    exact hord.named_cons hord' (hord.elems_enterObjectHash (enterObjectHash_of_loadObject hst))
  | remove e =>
    obtain ⟨hnone, heq⟩ := hord'.named_cons hord (hord.elems_removeObjectHash hst.2)
    refine ⟨by rw [heq, Function.update_self], ?_⟩
    rw [heq, Function.update_idem, ← hnone, Function.update_eq_self]

set_option maxRecDepth 4000 in
/-- `/ab` and `/bjz` are loaded, which have the same hash value, and `/ab` is removed, from behind
`/bjz` in their chain. -/
theorem names_step_chain :
    ∃ t t', names.Step (named t) (.remove ⟨[97, 98], 7⟩) (named t') ∧
      named t' [98, 106, 122] = some 9 := by
  have hempty : (otable fun _ ↦ true).Reachable Buckets.empty := .init rfl
  have hone := hempty.step (show (otable fun _ ↦ true).Step _ (.load [97, 98] 7) _ from rfl)
  have htwo := hone.step (show (otable fun _ ↦ true).Step _ (.load [98, 106, 122] 9) _ from rfl)
  have hmem := (((ordered_of_reachable htwo).findObjN [97, 98]).2.2 7).1 rfl
  exact ⟨_, _, names_step htwo (show (otable fun _ ↦ true).Step _ (.remove ⟨[97, 98], 7⟩) _ from
    ⟨hmem, rfl⟩), rfl⟩

end Lpmud.Loading
