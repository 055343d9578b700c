import Mathlib.Data.List.InsertIdx
import Mathlib.Data.List.TakeDrop
import Lpmud.RefCount

/-!
# Removing names

The function `usun_stare_nazwy` of the driver (`object_usun_stare_nazwy`). An object has an array of
names, and one of their genders that is as long; the function takes names out of both. Arrays are
not changed but replaced: each removal makes two new ones, which are stored with the object, and
gives up the old ones.

The memory has the arrays by their addresses, with their counters, so an array that was released
is not there any more, and to read it, or outside of an array, is `none`. The array that the object
had in the beginning is the one in which the names are looked up, also when it has been replaced.
The module says when this does no harm (`usunStareNazwy_exact`).

The two slots are those that the arguments `fp[1]` and `fp[2]` say. The values in an array are
counted too, but that is not part of this model: they are held by the new arrays before the old
ones let go of them.
-/

namespace Lpmud.Names

open List
open RefCount (Counter freeVector)
open Option (bind_eq_bind bind_none bind_some some.inj)

/-! ### Memory -/

/-- An array (`struct vector`). -/
structure Vec where
  ref : Counter
  item : List Svalue

/-- What is left of an array when a reference to it is given up. -/
def Vec.free (v : Vec) : Option Vec :=
  let (ref, released) := freeVector v.ref
  if released then none else some { v with ref := ref }

/-- The array without elements, of which there is only one. It is never released, and so its
counter is not modelled. -/
abbrev NULL_VECTOR : Addr := 0

/-- The arrays, by their addresses. -/
structure Memory where
  vec : Addr → Option Vec
  next : Addr
  /-- Nothing is where the next array will be. -/
  fresh : ∀ addr, next ≤ addr → vec addr = none
  /-- The next array will not be where the one without elements is. -/
  pos : NULL_VECTOR < next

namespace Memory

/-- The elements of an array, if it is there. -/
def item (m : Memory) (addr : Addr) : Option (List Svalue) :=
  if addr = NULL_VECTOR then some [] else (m.vec addr).map Vec.item

/-- `allocate_array`, with the elements that are stored in it. -/
def allocate (m : Memory) (item : List Svalue) : Memory × Addr :=
  if item.length = 0 then (m, NULL_VECTOR)
  else
    ({ vec := fun addr ↦ if addr = m.next then some ⟨1, item⟩ else m.vec addr
       next := m.next + 1
       fresh := fun addr h ↦ by
        rw [if_neg (Nat.ne_of_gt h)]
        exact m.fresh addr (Nat.le_of_succ_le h)
       pos := Nat.lt_succ_of_lt m.pos }, m.next)

/-- `free_vector`, for an array that is there. -/
def free (m : Memory) (addr : Addr) : Option Memory :=
  if addr = NULL_VECTOR then some m
  else if (m.vec addr).isSome then
    some
      { m with
        vec := fun addr' ↦ if addr' = addr then (m.vec addr).bind Vec.free else m.vec addr'
        fresh := fun addr' h ↦ by
          split
          next heq => rw [← heq, m.fresh addr' h, bind_none]
          next => exact m.fresh addr' h }
  else none

end Memory

/-! ### The function -/

/-- The two slots of the object, and the memory. -/
structure Slots where
  mem : Memory
  nazwy : Addr
  rodzaje : Addr

/-- `strcmp`, for values that need not be strings. -/
def sameString : Svalue → Svalue → Bool
  | .string s, .string t => s == t
  | _, _ => false

/-- The inner loop: the place of a name, looked for from the end of the array. What is not a string
is not compared with anything. -/
def search (mem : Memory) (workarr : Addr) (arg : Svalue) : ℕ → Option (Option ℕ)
  | 0 => some none
  | cx + 1 =>
    match arg with
    | .string s => do
      let work ← mem.item workarr
      let name ← work[cx]?
      if sameString (.string s) name then some (some cx) else search mem workarr arg cx
    | _ => search mem workarr arg cx

/-- The rest of the inner loop: what is in other places than `cx` is copied, the names from the
array of the beginning, the genders from the one that the object has now. -/
def remove (workarr : Addr) (sizeWork cx : ℕ) (st : Slots) : Option Slots := do
  let work ← st.mem.item workarr
  let genders ← st.mem.item st.rodzaje
  let places := List.range' 0 cx ++ List.range' (cx + 1) (sizeWork - cx)
  let (mem, retNazwy) := st.mem.allocate (← places.mapM (work[·]?))
  let (mem, retRodzaje) := mem.allocate (← places.mapM (genders[·]?))
  let mem ← mem.free st.nazwy
  let mem ← mem.free st.rodzaje
  return ⟨mem, retNazwy, retRodzaje⟩

/-- The outer loop, over the requested names from the last one to the first. -/
def removeAll (workarr : Addr) (sizeWork : ℕ) : List Svalue → Slots → Option Slots
  | [], st => some st
  | arg :: args, st => do
    match ← search st.mem workarr arg (sizeWork + 1) with
    | none => removeAll workarr sizeWork args st
    | some cx => removeAll workarr sizeWork args (← remove workarr sizeWork cx st)

/-- The requested names: an array, or one string. -/
def requested : Svalue → List Svalue
  | .pointer _ item => item
  | .string s => [.string s]
  | _ => []

/-- `object_usun_stare_nazwy`, which always returns 1. -/
def usunStareNazwy (fp : Svalue) (st : Slots) : Option (Slots × ℤ) := do
  if (requested fp).length = 0 then return (st, 1)
  let work ← st.mem.item st.nazwy
  if work.length = 0 then return (st, 1)
  let st ← removeAll st.nazwy (work.length - 1) (requested fp).reverse st
  return (st, 1)

/-! ### Memory, again -/

namespace Memory

variable {m m' : Memory} {addr addr' : Addr} {l : List Svalue}

theorem lt_next (h : m.vec addr ≠ none) : addr < m.next :=
  Nat.lt_of_not_le fun hle ↦ h (m.fresh addr hle)

theorem allocate_spec (hm : m.allocate l = (m', addr)) :
    m'.item addr = some l ∧ (addr = NULL_VECTOR ∨ m.vec addr = none ∧ m'.vec addr = some ⟨1, l⟩) ∧
      ∀ addr', m.vec addr' ≠ none → m'.vec addr' = m.vec addr' := by
  rw [allocate] at hm
  split at hm
  next hl =>
    obtain ⟨rfl, rfl⟩ := Prod.mk.inj hm
    exact ⟨by rw [item, if_pos rfl, length_eq_zero_iff.1 hl], .inl rfl, fun _ _ ↦ rfl⟩
  next hl =>
    obtain ⟨rfl, rfl⟩ := Prod.mk.inj hm
    refine ⟨?_, .inr ⟨m.fresh _ le_rfl, if_pos rfl⟩, fun addr' h ↦ if_neg (lt_next h).ne⟩
    rw [item, if_neg m.pos.ne']
    show Option.map Vec.item (if m.next = m.next then _ else _) = _
    rw [if_pos rfl]
    rfl

theorem free_spec (h : addr = NULL_VECTOR ∨ m.vec addr ≠ none) :
    ∃ m', m.free addr = some m' ∧ (addr ≠ NULL_VECTOR → m'.vec addr = (m.vec addr).bind Vec.free) ∧
      ∀ addr', addr' ≠ addr → m'.vec addr' = m.vec addr' := by
  rw [free]
  by_cases hnull : addr = NULL_VECTOR
  · exact ⟨m, if_pos hnull, fun h ↦ absurd hnull h, fun _ _ ↦ rfl⟩
  · have hsome : (m.vec addr).isSome = true :=
      Option.isSome_iff_ne_none.2 (h.resolve_left hnull)
    rw [if_neg hnull, if_pos hsome]
    exact ⟨_, rfl, fun _ ↦ if_pos rfl, fun addr' hne ↦ if_neg hne⟩

theorem item_congr (h : addr = NULL_VECTOR ∨ m'.vec addr = m.vec addr) :
    m'.item addr = m.item addr := by
  rw [item, item]
  obtain hnull | hvec := h
  · rw [if_pos hnull, if_pos hnull]
  · rw [hvec]

theorem vec_of_item (h : m.item addr = some l) : addr = NULL_VECTOR ∨ m.vec addr ≠ none := by
  rw [item] at h
  split at h
  next hnull => exact .inl hnull
  next => exact .inr fun hnone ↦ by simp [hnone] at h

end Memory

/-! ### Copying all but one -/

theorem mapM_append {α β : Type} (f : α → Option β) (l l' : List α) :
    (l ++ l').mapM f = (l.mapM f).bind fun x ↦ (l'.mapM f).bind fun y ↦ some (x ++ y) := by
  rw [List.mapM_append]
  rfl

theorem mapM_range' {α : Type} {l P X Q : List α} {s k : ℕ} (hl : l = P ++ (X ++ Q))
    (hs : s = P.length) (hk : k = X.length) : (List.range' s k).mapM (l[·]?) = some X := by
  subst hl hs hk
  induction X generalizing P with
  | nil => rfl
  | cons x X ih =>
    have hget : (P ++ (x :: X ++ Q))[P.length]? = some x := by simp
    have hrest := @ih (P ++ [x])
    rw [append_assoc, singleton_append, length_append] at hrest
    rw [length_cons, List.range'_succ, mapM_cons, hget]
    simp only [bind_eq_bind, bind_some, cons_append]
    rw [show P.length + 1 = P.length + [x].length from rfl, hrest]
    rfl

theorem mapM_places {α : Type} {l : List α} {p n : ℕ} (hl : l.length = n + 1) (hp : p ≤ n) :
    (List.range' 0 p ++ List.range' (p + 1) (n - p)).mapM (l[·]?) = some (l.eraseIdx p) := by
  have hfront : (List.range' 0 p).mapM (l[·]?) = some (l.take p) :=
    mapM_range' (P := []) (Q := l.drop p) (take_append_drop p l).symm rfl
      (length_take_of_le (by omega)).symm
  have hback : (List.range' (p + 1) (n - p)).mapM (l[·]?) = some (l.drop (p + 1)) :=
    mapM_range' (P := l.take (p + 1)) (Q := []) (by simp)
      (length_take_of_le (by omega)).symm (by rw [length_drop]; omega)
  rw [mapM_append, hfront, hback, eraseIdx_eq_take_drop_succ]
  rfl

theorem mapM_places_short {α : Type} {l : List α} {p n : ℕ} (hl : l.length = n) (hp : p ≤ n) :
    (List.range' 0 p ++ List.range' (p + 1) (n - p)).mapM (l[·]?) =
      if p = n then some l else none := by
  split
  next heq =>
    have hfront : (List.range' 0 p).mapM (l[·]?) = some l :=
      mapM_range' (P := []) (Q := []) (by simp) rfl (heq.trans hl.symm)
    rw [mapM_append, hfront, heq, Nat.sub_self]
    exact congrArg some (append_nil l)
  next hne =>
    obtain ⟨k, hk⟩ : ∃ k, n - p = k + 1 := ⟨n - p - 1, by omega⟩
    have hlast : l[p + 1 + k]? = none := List.getElem?_eq_none (by omega)
    rw [hk, List.range'_concat, ← append_assoc, mapM_append, Nat.one_mul, mapM_cons,
      hlast]
    exact Option.bind_fun_none _

/-! ### One removal -/

variable {st st' : Slots} {workarr : Addr} {work genders R G : List Svalue} {n p : ℕ}

/-- The two slots of the object, what their arrays have in them, and that these are not the same
one unless they are empty. -/
structure Holds (st : Slots) (R G : List Svalue) : Prop where
  nazwy : st.mem.item st.nazwy = some R
  rodzaje : st.mem.item st.rodzaje = some G
  apart : st.nazwy = st.rodzaje → st.nazwy = NULL_VECTOR

/-- **A removal** replaces the arrays of the object by what was copied. The array of the beginning
loses a reference if it is still that of the object. -/
theorem remove_spec {R' G' : List Svalue} (hst : Holds st R G)
    (hwork : st.mem.item workarr = some work) (hnull : workarr ≠ NULL_VECTOR)
    (hne : workarr ≠ st.rodzaje)
    (hR : (List.range' 0 p ++ List.range' (p + 1) (n - p)).mapM (work[·]?) = some R')
    (hG : (List.range' 0 p ++ List.range' (p + 1) (n - p)).mapM (G[·]?) = some G') :
    ∃ st', remove workarr n p st = some st' ∧ Holds st' R' G' ∧ workarr ≠ st'.nazwy ∧
      workarr ≠ st'.rodzaje ∧ st'.mem.vec workarr =
        if workarr = st.nazwy then (st.mem.vec workarr).bind Vec.free
        else st.mem.vec workarr := by
  obtain ⟨mem, nazwy, rodzaje⟩ := st
  obtain ⟨hn, hr, hapart⟩ := hst
  dsimp only at *
  have hvw := (Memory.vec_of_item hwork).resolve_left hnull
  have hvn := Memory.vec_of_item hn
  have hvr := Memory.vec_of_item hr
  obtain ⟨m₁, a₁, halloc₁⟩ : ∃ m a, mem.allocate R' = (m, a) := ⟨_, _, rfl⟩
  obtain ⟨hitem₁, hnew₁, hold₁⟩ := Memory.allocate_spec halloc₁
  obtain ⟨m₂, a₂, halloc₂⟩ : ∃ m a, m₁.allocate G' = (m, a) := ⟨_, _, rfl⟩
  obtain ⟨hitem₂, hnew₂, hold₂⟩ := Memory.allocate_spec halloc₂
  have hold : ∀ a, mem.vec a ≠ none → m₂.vec a = mem.vec a := fun a ha ↦
    (hold₂ a (hold₁ a ha ▸ ha)).trans (hold₁ a ha)
  -- the new arrays are not where an array was
  have hfresh : ∀ {a b}, a = NULL_VECTOR ∨ mem.vec a ≠ none → b ≠ NULL_VECTOR →
      mem.vec b = none → b ≠ a := fun ha hb hnone heq ↦
    ha.elim (fun ha ↦ hb (heq.trans ha)) fun ha ↦ ha (heq ▸ hnone)
  have hnone₂ : a₂ ≠ NULL_VECTOR → mem.vec a₂ = none ∧ a₂ ≠ a₁ := by
    intro ha₂
    obtain ⟨hnone, -⟩ := hnew₂.resolve_left ha₂
    refine ⟨not_not.1 fun h ↦ h ((hold₁ a₂ h).symm.trans hnone), fun heq ↦ ?_⟩
    obtain ⟨-, hsome⟩ := hnew₁.resolve_left (heq ▸ ha₂)
    exact absurd ((heq ▸ hnone).symm.trans hsome) nofun
  obtain ⟨m₃, hfree₃, hgone₃, hrest₃⟩ := Memory.free_spec (m := m₂) (hvn.imp_right fun h ↦ by
    rwa [hold _ h])
  have hvr₃ : rodzaje = NULL_VECTOR ∨ m₃.vec rodzaje ≠ none := by
    by_cases heq : rodzaje = nazwy
    · exact .inl (heq.trans (hapart heq.symm))
    · exact hvr.imp_right fun h ↦ by rwa [hrest₃ _ heq, hold _ h]
  obtain ⟨m₄, hfree₄, hgone₄, hrest₄⟩ := Memory.free_spec hvr₃
  have hnew : ∀ a, a ≠ NULL_VECTOR → mem.vec a = none → m₄.vec a = m₂.vec a := fun a ha hnone ↦
    (hrest₄ a (hfresh hvr ha hnone)).trans (hrest₃ a (hfresh hvn ha hnone))
  refine ⟨⟨m₄, a₁, a₂⟩, ?_, ⟨?_, ?_, ?_⟩, ?_, ?_, ?_⟩
  · rw [remove]
    dsimp only
    rw [hwork, hr]
    simp only [bind_eq_bind, bind_some, hR, hG, halloc₁, halloc₂, hfree₃, hfree₄]
    rfl
  · refine (Memory.item_congr ?_).trans hitem₁
    by_cases hnull₁ : a₁ = NULL_VECTOR
    · exact .inl hnull₁
    · obtain ⟨hnone, hsome⟩ := hnew₁.resolve_left hnull₁
      exact .inr ((hnew a₁ hnull₁ hnone).trans (hold₂ a₁ (by simp [hsome])))
  · by_cases hnull₂ : a₂ = NULL_VECTOR
    · exact (Memory.item_congr (.inl hnull₂)).trans hitem₂
    · exact (Memory.item_congr (.inr (hnew a₂ hnull₂ (hnone₂ hnull₂).1))).trans hitem₂
  · intro (heq : a₁ = a₂)
    show a₁ = _
    by_contra hnull₁
    exact (hnone₂ (heq ▸ hnull₁)).2 heq.symm
  · intro heq
    obtain hnull₁ | ⟨hnone, -⟩ := hnew₁
    · exact hnull (heq.trans hnull₁)
    · exact hvw (heq ▸ hnone)
  · intro (heq : workarr = a₂)
    exact hvw (heq ▸ (hnone₂ (heq ▸ hnull)).1)
  · show m₄.vec workarr = _
    rw [hrest₄ _ hne]
    split
    next heq =>
      subst heq
      rw [hgone₃ hnull, hold _ hvw]
    next hne' => rw [hrest₃ _ hne', hold _ hvw]

/-! ### The inner loop -/

/-- A string. -/
def isString : Svalue → Bool
  | .string _ => true
  | _ => false

theorem sameString_of_not_string {arg name : Svalue} (h : isString arg = false) :
    sameString arg name = false := by
  cases arg <;> first | rfl | exact absurd h nofun

theorem search_of_not_string {mem : Memory} {arg : Svalue} (h : isString arg = false) (k : ℕ) :
    search mem workarr arg k = some none := by
  induction k with
  | zero => rfl
  | succ k ih =>
    cases arg
    case string s => exact absurd h nofun
    all_goals exact ih

theorem search_of_gone {mem : Memory} {arg : Svalue} (h : isString arg = true) (k : ℕ)
    (hgone : mem.item workarr = none) : search mem workarr arg (k + 1) = none := by
  cases arg
  case string s =>
    show (mem.item workarr).bind _ = none
    rw [hgone]
    rfl
  all_goals exact absurd h nofun

theorem search_cases {mem : Memory} (arg : Svalue) (hwork : mem.item workarr = some work) {k : ℕ}
    (hk : k ≤ work.length) :
    (∃ cx name, search mem workarr arg k = some (some cx) ∧ cx < k ∧
        work[cx]? = some name ∧ sameString arg name = true) ∨
      search mem workarr arg k = some none ∧
        ∀ i name, i < k → work[i]? = some name → sameString arg name = false := by
  obtain hstring | hstring := Bool.eq_false_or_eq_true (isString arg)
  swap
  · exact .inr ⟨search_of_not_string hstring k, fun _ _ _ _ ↦ sameString_of_not_string hstring⟩
  obtain ⟨s, rfl⟩ : ∃ s, arg = .string s := by
    cases arg <;> first | exact ⟨_, rfl⟩ | exact absurd hstring nofun
  induction k with
  | zero => exact .inr ⟨rfl, nofun⟩
  | succ cx ih =>
    have hget : work[cx]? = some work[cx] := List.getElem?_eq_getElem _
    have hstep : search mem workarr (.string s) (cx + 1) =
        if sameString (.string s) work[cx] then some (some cx)
        else search mem workarr (.string s) cx := by
      show (mem.item workarr).bind _ = _
      rw [hwork]
      show (work[cx]?).bind _ = _
      rw [hget]
      rfl
    rw [hstep]
    split
    next hsame => exact .inl ⟨cx, _, rfl, Nat.lt_succ_self cx, hget, hsame⟩
    next hsame =>
      obtain ⟨i, name, hsearch, hi, hname⟩ | ⟨hsearch, hall⟩ := ih (Nat.le_of_succ_le hk)
      · exact .inl ⟨i, name, hsearch, Nat.lt_succ_of_lt hi, hname⟩
      · refine .inr ⟨hsearch, fun i name hi hname ↦ ?_⟩
        obtain hi | rfl := Nat.lt_succ_iff_lt_or_eq.1 hi
        · exact hall i name hi hname
        · obtain rfl := some.inj (hget.symm.trans hname)
          exact Bool.eq_false_iff.2 hsame

/-! ### The outer loop -/

/-- A value is one of the names. -/
def found (names : List Svalue) (arg : Svalue) : Bool := names.any (sameString arg)

/-- A value is the last one of the names. -/
def isLast (names : List Svalue) (arg : Svalue) : Bool :=
  match names.getLast? with
  | some name => sameString arg name
  | none => false

theorem sameString_trans {a b c : Svalue} (hab : sameString a b = true)
    (hac : sameString a c = true) : sameString b c = true := by
  cases a <;> cases b <;> cases c <;> simp_all [sameString]

/-- No two of the names are the same. -/
def Different (names : List Svalue) : Prop :=
  names.Pairwise fun a b ↦ sameString a b = false

variable {names rest args : List Svalue} {arg a b : Svalue} {i j : ℕ}

theorem Different.place (hdiff : Different names) (hi : names[i]? = some a)
    (hj : names[j]? = some b) (ha : sameString arg a = true) (hb : sameString arg b = true) :
    i = j := by
  obtain ⟨hi', rfl⟩ := List.getElem?_eq_some_iff.1 hi
  obtain ⟨hj', rfl⟩ := List.getElem?_eq_some_iff.1 hj
  obtain hlt | heq | hgt := Nat.lt_trichotomy i j
  · exact absurd ((pairwise_iff_getElem.1 hdiff i j hi' hj' hlt).symm.trans
      (sameString_trans ha hb)) (by rintro ⟨⟩)
  · exact heq
  · exact absurd ((pairwise_iff_getElem.1 hdiff j i hj' hi' hgt).symm.trans
      (sameString_trans hb ha)) (by rintro ⟨⟩)

theorem search_spec {mem : Memory} (arg : Svalue) (hwork : mem.item workarr = some names)
    (hn : names.length = n + 1) :
    (∃ cx name, search mem workarr arg (n + 1) = some (some cx) ∧ cx ≤ n ∧
        names[cx]? = some name ∧ sameString arg name = true ∧ found names arg = true) ∨
      search mem workarr arg (n + 1) = some none ∧ found names arg = false := by
  obtain ⟨cx, name, hsearch, hcx, hname, hsame⟩ | ⟨hsearch, hall⟩ :=
    search_cases arg hwork hn.ge
  · exact .inl ⟨cx, name, hsearch, Nat.le_of_lt_succ hcx, hname, hsame,
      any_eq_true.2 ⟨name, mem_of_getElem? hname, hsame⟩⟩
  · refine .inr ⟨hsearch, any_eq_false.2 fun name hname ↦ ?_⟩
    obtain ⟨i, hi, rfl⟩ := getElem_of_mem hname
    exact Bool.eq_false_iff.1 (hall i _ (hn ▸ hi) (List.getElem?_eq_getElem hi))

theorem isLast_iff (hdiff : Different names) (hn : names.length = n + 1)
    (hi : names[i]? = some a) (ha : sameString arg a = true) : isLast names arg = true ↔ i = n := by
  have hlast : names.getLast? = names[n]? := by
    rw [List.getLast?_eq_getElem?, hn, Nat.add_sub_cancel]
  obtain ⟨name, hname⟩ : ∃ name, names[n]? = some name :=
    ⟨_, List.getElem?_eq_getElem (hn ▸ Nat.lt_succ_self n)⟩
  rw [isLast, hlast, hname]
  constructor
  · exact fun h ↦ hdiff.place hi hname ha h
  · rintro rfl
    obtain rfl := some.inj (hi.symm.trans hname)
    exact ha

variable (rest) in
attribute [local simp] removeAll in
theorem removeAll_skip (hwork : st.mem.item workarr = some names) (hn : names.length = n + 1)
    {skip : List Svalue} (hskip : ∀ arg ∈ skip, found names arg = false) :
    removeAll workarr n (skip ++ rest) st = removeAll workarr n rest st := by
  induction skip with
  | nil => rfl
  | cons arg skip ih =>
    obtain ⟨harg, hskip⟩ := forall_mem_cons.1 hskip
    obtain ⟨_, _, -, -, -, -, hfound⟩ | ⟨hsearch, -⟩ := search_spec arg hwork hn
    · cases harg.symm.trans hfound
    · rw [cons_append, removeAll, hsearch]
      exact ih hskip

theorem removeAll_gone (hgone : st.mem.item workarr = none) :
    removeAll workarr n rest st =
      if rest.all (fun arg ↦ !isString arg) then some st else none := by
  induction rest with
  | nil => rfl
  | cons arg rest ih =>
    rw [removeAll, all_cons]
    obtain hstring | hstring := Bool.eq_false_or_eq_true (isString arg)
    · rw [search_of_gone hstring n hgone, hstring]
      rfl
    · rw [search_of_not_string hstring, hstring]
      exact ih

/-- Too few genders are there when a name that is not the last one is to be removed, and one was
before. -/
theorem remove_short (hst : Holds st R G) (hwork : st.mem.item workarr = some names)
    (hG : G.length = n) (hp : p ≤ n) (hne : p ≠ n) : remove workarr n p st = none := by
  have hnone := mapM_places_short hG hp
  rw [if_neg hne] at hnone
  rw [remove, hwork, hst.rodzaje]
  simp only [bind_eq_bind, bind_some, hnone, bind_none, Option.bind_fun_none]

variable (rest) in
/-- When the array of the beginning is still there, what is left over must be the last name, if it
is one of the names. Then this is the only one that the object does not get back. -/
theorem removeAll_kept (hdiff : Different names) (hn : names.length = n + 1) (hG : G.length = n)
    (hnull : workarr ≠ NULL_VECTOR) (hst : Holds st R G)
    (hwork : st.mem.item workarr = some names) (hne : workarr ≠ st.nazwy)
    (hne' : workarr ≠ st.rodzaje) :
    if ∀ arg ∈ rest, found names arg = true → isLast names arg = true then
      ∃ st', removeAll workarr n rest st = some st' ∧
        Holds st' (if rest.any (found names) then names.dropLast else R) G
    else removeAll workarr n rest st = none := by
  induction rest generalizing st R with
  | nil => exact ⟨st, rfl, hst⟩
  | cons arg rest ih =>
    rw [removeAll, any_cons]
    simp only [forall_mem_cons]
    obtain ⟨cx, name, hsearch, hcx, hname, hsame, hfound⟩ | ⟨hsearch, hfound⟩ :=
      search_spec arg hwork hn
    · have hlast := isLast_iff hdiff hn hname hsame
      rw [hsearch, hfound, Bool.true_or, if_pos rfl]
      simp only [bind_eq_bind, bind_some, true_imp_iff, hlast]
      by_cases hcx' : cx = n
      · obtain ⟨st', hremove, hst', hnew, hnew', hvec⟩ := remove_spec hst hwork hnull hne'
          (mapM_places hn hcx) ((mapM_places_short hG hcx).trans (if_pos hcx'))
        rw [if_neg hne] at hvec
        have hrest := ih hst' ((Memory.item_congr (.inr hvec)).trans hwork) hnew hnew'
        have herase : names.eraseIdx cx = names.dropLast :=
          eraseIdx_eq_dropLast (hcx' ▸ hn.symm)
        rw [herase, ite_self] at hrest
        rw [hremove]
        simpa only [hcx', true_and, bind_some] using hrest
      · rw [remove_short hst hwork hG hcx hcx', if_neg fun h ↦ hcx' h.1, bind_none]
    · rw [hsearch, hfound, Bool.false_or]
      simp only [Bool.false_eq_true, false_imp_iff, true_and]
      exact ih hst hwork hne hne'

/-! ### All of it -/

/-- A name is among the requested ones. -/
def listed (args : List Svalue) (name : Svalue) : Bool := args.any fun arg ↦ sameString arg name

/-- What the object should have in its two slots: the names that were not requested, each with its
gender. -/
structure Removed (names genders args : List Svalue) (st : Slots) : Prop where
  nazwy : st.mem.item st.nazwy =
    some (((names.zip genders).filter fun entry ↦ !listed args entry.1).map Prod.fst)
  rodzaje : st.mem.item st.rodzaje =
    some (((names.zip genders).filter fun entry ↦ !listed args entry.1).map Prod.snd)

/-- Two arrays that are as long, of names that are pairwise different and of their genders. -/
structure Paired (names genders : List Svalue) (st : Slots) : Prop where
  holds : Holds st names genders
  length : names.length = genders.length
  different : Different names

/-- Something else than the object holds a reference to its array of names, or the counter of the
array is stuck. -/
def shared (st : Slots) : Bool := ((st.mem.vec st.nazwy).bind Vec.free).isSome

/-- What the requested names have to be like: after the first of them that is a name of the object,
counted from the end, there comes no string, if the array of names is not shared; and otherwise no
other name of the object, and the same one only if it is the last of its names. -/
def Safe (shared : Bool) (names args : List Svalue) : Prop :=
  match args.reverse.dropWhile fun arg ↦ !found names arg with
  | [] => True
  | arg :: rest =>
    if shared then
      ∀ arg' ∈ rest, found names arg' = true → isLast names arg = true ∧ isLast names arg' = true
    else ∀ arg' ∈ rest, isString arg' = false

theorem filter_eq_eraseIdx {α : Type} {P : α → Bool} {l : List α} {p : ℕ}
    (h : ∀ i a, l[i]? = some a → (P a = false ↔ i = p)) : l.filter P = l.eraseIdx p := by
  induction l generalizing p with
  | nil => rfl
  | cons a l ih =>
    have hfirst := h 0 a rfl
    cases p with
    | zero =>
      rw [filter_cons_of_neg (by simp [hfirst.2 rfl]), eraseIdx_cons_zero,
        filter_eq_self]
      intro b hb
      obtain ⟨i, hi⟩ := List.getElem?_of_mem hb
      exact eq_true_of_ne_false fun hfalse ↦
        absurd ((h (i + 1) b hi).1 hfalse) (Nat.succ_ne_zero i)
    | succ p =>
      have htrue : P a = true := eq_true_of_ne_false fun hfalse ↦
        absurd (hfirst.1 hfalse) (Nat.succ_ne_zero p).symm
      rw [filter_cons_of_pos htrue, eraseIdx_cons_succ,
        ih fun i b hb ↦ (h (i + 1) b hb).trans Nat.succ_inj]

theorem removed_of_eraseIdx (hpaired : Paired names genders st)
    (hst : Holds st' (names.eraseIdx p) (genders.eraseIdx p))
    (hp : ∀ i name, names[i]? = some name → (listed args name = true ↔ i = p)) :
    Removed names genders args st' := by
  have hzip : ((names.zip genders).filter fun entry ↦ !listed args entry.1) =
      (names.zip genders).eraseIdx p := by
    refine filter_eq_eraseIdx fun i entry hentry ↦ ?_
    rw [Bool.not_eq_false']
    exact hp i entry.1 (List.getElem?_zip_eq_some.1 hentry).1
  have hlength := hpaired.length
  refine ⟨hst.nazwy.trans (congrArg some ?_), hst.rodzaje.trans (congrArg some ?_)⟩
  · rw [hzip, ← eraseIdx_map, map_fst_zip hlength.le]
  · rw [hzip, ← eraseIdx_map, map_snd_zip hlength.ge]

theorem removed_of_not_found (hpaired : Paired names genders st)
    (hargs : ∀ arg ∈ args, found names arg = false) : Removed names genders args st := by
  have hzip : ((names.zip genders).filter fun entry ↦ !listed args entry.1) =
      names.zip genders := by
    refine filter_eq_self.2 fun entry hentry ↦ ?_
    rw [Bool.not_eq_true', listed, any_eq_false]
    intro arg harg
    have hnot := any_eq_false.1 (hargs arg harg)
    exact hnot entry.1 (of_mem_zip hentry).1
  have hlength := hpaired.length
  refine ⟨hpaired.holds.nazwy.trans (congrArg some ?_),
    hpaired.holds.rodzaje.trans (congrArg some ?_)⟩
  · rw [hzip, map_fst_zip hlength.le]
  · rw [hzip, map_snd_zip hlength.ge]

theorem item_of_free {mem : Memory} (hitem : st.mem.item st.nazwy = some names)
    (hnull : st.nazwy ≠ NULL_VECTOR)
    (hvec : mem.vec st.nazwy = (st.mem.vec st.nazwy).bind Vec.free) :
    mem.item st.nazwy = if shared st then some names else none := by
  rw [Memory.item, if_neg hnull] at hitem ⊢
  obtain ⟨v, hv, rfl⟩ := Option.map_eq_some_iff.1 hitem
  rw [hvec, shared, hv, bind_some, Vec.free]
  dsimp only
  split
  · rfl
  · rfl

variable (rest) in
theorem removeAll_first {name : Svalue} {skip : List Svalue} (hpaired : Paired names genders st)
    (hn : names.length = n + 1) (hskip : ∀ arg ∈ skip, found names arg = false)
    (hp : names[p]? = some name) (hsame : sameString arg name = true) :
    ∃ st', removeAll st.nazwy n (skip ++ arg :: rest) st = removeAll st.nazwy n rest st' ∧
      Holds st' (names.eraseIdx p) (genders.eraseIdx p) ∧ st.nazwy ≠ NULL_VECTOR ∧
      st.nazwy ≠ st'.nazwy ∧ st.nazwy ≠ st'.rodzaje ∧
      st'.mem.item st.nazwy = if shared st then some names else none := by
  obtain ⟨hholds, hlength, hdiff⟩ := hpaired
  have hnull : st.nazwy ≠ NULL_VECTOR := by
    intro heq
    have hitem := hholds.nazwy
    rw [heq, Memory.item, if_pos rfl] at hitem
    obtain rfl := some.inj hitem
    cases hn
  have hne : st.nazwy ≠ st.rodzaje := fun heq ↦ hnull (hholds.apart heq)
  obtain ⟨cx, name', hsearch, hcx, hname', hsame', -⟩ | ⟨-, hnot⟩ :=
    search_spec arg hholds.nazwy hn
  · obtain rfl := hdiff.place hname' hp hsame' hsame
    obtain ⟨st', hremove, hst', hnew, hnew', hvec⟩ := remove_spec hholds hholds.nazwy hnull hne
      (mapM_places hn hcx) (mapM_places (hlength ▸ hn) hcx)
    refine ⟨st', ?_, hst', hnull, hnew, hnew', ?_⟩
    · rw [removeAll_skip _ hholds.nazwy hn hskip, removeAll, hsearch]
      simp only [bind_eq_bind, bind_some, hremove]
    · rw [if_pos rfl] at hvec
      exact item_of_free hholds.nazwy hnull hvec
  · cases hnot.symm.trans (any_eq_true.2 ⟨name, mem_of_getElem? hp, hsame⟩)

theorem usunStareNazwy_eq {fp : Svalue} (hitem : st.mem.item st.nazwy = some names)
    (hargs : requested fp ≠ []) (hnames : names ≠ []) :
    usunStareNazwy fp st =
      (removeAll st.nazwy (names.length - 1) (requested fp).reverse st).map (·, 1) := by
  rw [usunStareNazwy, if_neg fun h ↦ hargs (length_eq_zero_iff.1 h), hitem]
  simp only [bind_eq_bind, bind_some]
  rw [if_neg fun h ↦ hnames (length_eq_zero_iff.1 h)]
  cases removeAll st.nazwy (names.length - 1) (requested fp).reverse st <;> rfl

theorem usunStareNazwy_of_not_found {fp : Svalue} (hitem : st.mem.item st.nazwy = some names)
    (hargs : ∀ arg ∈ requested fp, found names arg = false) :
    usunStareNazwy fp st = some (st, 1) := by
  by_cases hempty : requested fp = []
  · rw [usunStareNazwy, if_pos (length_eq_zero_iff.2 hempty)]
    rfl
  by_cases hnames : names = []
  · rw [usunStareNazwy, if_neg fun h ↦ hempty (length_eq_zero_iff.1 h), hitem, hnames]
    rfl
  · obtain ⟨n, hn⟩ := Nat.exists_eq_add_one_of_ne_zero fun h ↦ hnames (length_eq_zero_iff.1 h)
    have hskip := removeAll_skip [] hitem hn fun arg harg ↦
      hargs arg (mem_reverse.1 harg)
    rw [append_nil] at hskip
    rw [usunStareNazwy_eq hitem hempty hnames, hn, Nat.add_sub_cancel, hskip]
    rfl

section First

variable {name : Svalue} {skip : List Svalue} (hpaired : Paired names genders st)
  (hargs : args.reverse = skip ++ arg :: rest) (hskip : ∀ arg ∈ skip, found names arg = false)
  (hp : names[p]? = some name) (hsame : sameString arg name = true)

include hpaired hargs hskip hp hsame

theorem listed_iff
    (hrest : ∀ arg' ∈ rest, found names arg' = true → sameString arg' name = true) (i : ℕ)
    (name' : Svalue) (hi : names[i]? = some name') : listed args name' = true ↔ i = p := by
  have hmem : ∀ {b}, b ∈ args ↔ b ∈ skip ++ arg :: rest := by
    intro b
    rw [← hargs, mem_reverse]
  rw [listed, any_eq_true]
  constructor
  · rintro ⟨b, hb, hsame'⟩
    have hfound : found names b = true :=
      any_eq_true.2 ⟨name', mem_of_getElem? hi, hsame'⟩
    obtain hb | hb := mem_append.1 (hmem.1 hb)
    · cases (hskip b hb).symm.trans hfound
    obtain rfl | hb := mem_cons.1 hb
    · exact hpaired.different.place hi hp hsame' hsame
    · exact hpaired.different.place hi hp hsame' (hrest b hb hfound)
  · rintro rfl
    obtain rfl := some.inj (hi.symm.trans hp)
    exact ⟨arg, hmem.2 (mem_append_right _ (mem_cons_self ..)), hsame⟩

theorem exact_of_gone (hst : Holds st' (names.eraseIdx p) (genders.eraseIdx p))
    (hgone : st'.mem.item workarr = none) :
    (∃ st'', removeAll workarr n rest st' = some st'' ∧ Removed names genders args st'') ↔
      ∀ arg' ∈ rest, isString arg' = false := by
  rw [removeAll_gone hgone]
  split
  next hall =>
    have hnot : ∀ b ∈ rest, isString b = false := fun b hb ↦ by
      simpa using all_eq_true.1 hall b hb
    have hone := listed_iff hpaired hargs hskip hp hsame fun b hb hfound ↦ by
      obtain ⟨_, -, hsame'⟩ := any_eq_true.1 hfound
      cases (sameString_of_not_string (hnot b hb)).symm.trans hsame'
    exact iff_of_true ⟨st', rfl, removed_of_eraseIdx hpaired hst hone⟩ hnot
  next hall =>
    refine iff_of_false (by rintro ⟨_, ⟨⟩, _⟩) fun h ↦ hall ?_
    exact all_eq_true.2 fun b hb ↦ by simp [h b hb]

theorem exact_of_kept (hst : Holds st' (names.eraseIdx p) (genders.eraseIdx p))
    (hn : names.length = n + 1) (hnull : workarr ≠ NULL_VECTOR) (hne : workarr ≠ st'.nazwy)
    (hne' : workarr ≠ st'.rodzaje) (hwork : st'.mem.item workarr = some names) :
    (∃ st'', removeAll workarr n rest st' = some st'' ∧ Removed names genders args st'') ↔
      ∀ arg' ∈ rest, found names arg' = true →
        isLast names arg = true ∧ isLast names arg' = true := by
  have hdiff := hpaired.different
  have hplace : p < names.length := (List.getElem?_eq_some_iff.1 hp).1
  have hlen : (genders.eraseIdx p).length = n := by
    rw [length_eraseIdx_of_lt (hpaired.length ▸ hplace), ← hpaired.length, hn,
      Nat.add_sub_cancel]
  have hkept := removeAll_kept rest hdiff hn hlen hnull hst hwork hne hne'
  have hlast := isLast_iff hdiff hn hp hsame
  split at hkept
  next hrest =>
    obtain ⟨st'', hrun, hst''⟩ := hkept
    cases hany : rest.any (found names)
    · -- nothing else is found, so one name is gone
      have hnone := any_eq_false.1 hany
      rw [hany, if_neg Bool.false_ne_true] at hst''
      have hone := listed_iff hpaired hargs hskip hp hsame fun b hb h ↦ absurd h (hnone b hb)
      exact iff_of_true ⟨st'', hrun, removed_of_eraseIdx hpaired hst'' hone⟩
        fun b hb h ↦ absurd h (hnone b hb)
    · obtain ⟨b, hb, hfound⟩ := any_eq_true.1 hany
      rw [hany, if_pos rfl] at hst''
      by_cases hpn : p = n
      · -- the last name is looked for again, and again everything but this is copied
        have hdrop : names.eraseIdx p = names.dropLast :=
          eraseIdx_eq_dropLast (hpn ▸ hn.symm)
        rw [← hdrop] at hst''
        have hone := listed_iff hpaired hargs hskip hp hsame fun b hb h ↦ by
          obtain ⟨name', hmem, hsame'⟩ := any_eq_true.1 h
          obtain ⟨i, hi⟩ := List.getElem?_of_mem hmem
          have hin := (isLast_iff hdiff hn hi hsame').1 (hrest b hb h)
          obtain rfl := some.inj ((hpn.trans hin.symm ▸ hp).symm.trans hi)
          exact hsame'
        exact iff_of_true ⟨st'', hrun, removed_of_eraseIdx hpaired hst'' hone⟩
          fun b hb h ↦ ⟨hlast.2 hpn, hrest b hb h⟩
      · -- the name that was removed first comes back
        refine iff_of_false (fun ⟨_, hrun', hremoved⟩ ↦ ?_)
          fun h ↦ hpn (hlast.1 (h b hb hfound).1)
        obtain rfl := some.inj (hrun.symm.trans hrun')
        have hnames := some.inj (hst''.nazwy.symm.trans hremoved.nazwy)
        have hget : names.dropLast[p]? = some name := by
          rw [List.getElem?_dropLast, if_pos (by omega), hp]
        have hmem := mem_of_getElem? hget
        rw [hnames] at hmem
        obtain ⟨entry, hentry, rfl⟩ := mem_map.1 hmem
        have hnot := (mem_filter.1 hentry).2
        have hin : listed args entry.1 = true :=
          any_eq_true.2 ⟨arg, mem_reverse.1 (by simp [hargs]), hsame⟩
        simp [hin] at hnot
  next hrest =>
    rw [hkept]
    exact iff_of_false (fun ⟨_, h, _⟩ ↦ absurd h nofun) fun h ↦
      hrest fun b hb hfound ↦ (h b hb hfound).2

end First

/-- **Names and genders stay aligned, and nothing that was released or is not there is read, exactly
if the requested names are safe.** -/
theorem usunStareNazwy_exact (fp : Svalue) (hpaired : Paired names genders st) :
    (∃ st', usunStareNazwy fp st = some (st', 1) ∧
        Removed names genders (requested fp) st') ↔
      Safe (shared st) names (requested fp) := by
  have hitem := hpaired.holds.nazwy
  have hsplit := takeWhile_append_dropWhile (p := fun arg ↦ !found names arg)
    (l := (requested fp).reverse)
  have hskip : ∀ arg ∈ (requested fp).reverse.takeWhile fun arg ↦ !found names arg,
      found names arg = false := fun arg harg ↦ by simpa using mem_takeWhile_imp harg
  rw [Safe]
  split
  next hdrop =>
    rw [hdrop, append_nil] at hsplit
    have hargs : ∀ arg ∈ requested fp, found names arg = false := fun arg harg ↦
      hskip arg (by rw [hsplit]; exact mem_reverse.2 harg)
    exact iff_of_true ⟨st, usunStareNazwy_of_not_found hitem hargs,
      removed_of_not_found hpaired hargs⟩ trivial
  next arg rest hdrop =>
    rw [hdrop] at hsplit
    have hfound : found names arg = true := by
      have hhead := List.head?_dropWhile_not (fun arg ↦ !found names arg) (requested fp).reverse
      rw [hdrop] at hhead
      simpa using hhead
    generalize List.takeWhile _ _ = skip at hsplit hskip
    obtain ⟨name, hmem, hsame⟩ := any_eq_true.1 hfound
    obtain ⟨p, hp⟩ := List.getElem?_of_mem hmem
    obtain ⟨n, hn⟩ := Nat.exists_eq_add_one_of_ne_zero (length_pos_of_mem hmem).ne'
    have hempty : requested fp ≠ [] := by
      intro h
      rw [h] at hsplit
      exact append_ne_nil_of_right_ne_nil _ (cons_ne_nil _ _) hsplit
    obtain ⟨st', hrun, hst', hnull, hne, hne', hgone⟩ :=
      removeAll_first rest hpaired hn hskip hp hsame
    rw [usunStareNazwy_eq hitem hempty (ne_nil_of_mem hmem), ← hsplit, hn, Nat.add_sub_cancel,
      hrun]
    simp only [Option.map_eq_some_iff, Prod.mk.injEq, and_true, exists_eq_right]
    cases hshared : shared st
    · rw [hshared, if_neg Bool.false_ne_true] at hgone
      rw [if_neg Bool.false_ne_true]
      exact exact_of_gone hpaired hsplit.symm hskip hp hsame hst' hgone
    · rw [hshared, if_pos rfl] at hgone
      rw [if_pos rfl]
      exact exact_of_kept hpaired hsplit.symm hskip hp hsame hst' hn hnull hne hne' hgone

/-! ### Two names -/

/-- An object with the names "a" and "b". -/
def twoNames (ref : Counter) : Slots where
  mem :=
    { vec := fun addr ↦
        if addr = 1 then some ⟨ref, [.string (.ofBytes [97]), .string (.ofBytes [98])]⟩
        else if addr = 2 then some ⟨1, [.number 1, .number 2]⟩
        else none
      next := 3
      fresh := fun addr h ↦ by
        rw [if_neg (Nat.ne_of_gt (Nat.lt_of_succ_lt h)), if_neg (Nat.ne_of_gt h)]
      pos := by decide }
  nazwy := 1
  rodzaje := 2

/-- One of the two can be removed. -/
theorem usunStareNazwy_exact_one :
    ∃ st', usunStareNazwy (.string ⟨[97], by decide⟩) (twoNames 1) = some (st', 1) ∧
      Removed [.string ⟨[97], by decide⟩, .string ⟨[98], by decide⟩] [.number 1, .number 2]
        [.string ⟨[97], by decide⟩] st' := by
  have hpaired : Paired [.string ⟨[97], by decide⟩, .string ⟨[98], by decide⟩]
      [.number 1, .number 2] (twoNames 1) :=
    ⟨⟨rfl, rfl, fun h ↦ absurd h (by decide)⟩, rfl, by simp [Different, sameString]⟩
  refine (usunStareNazwy_exact (.string ⟨[97], by decide⟩) hpaired).2 ?_
  show ∀ arg' ∈ ([] : List Svalue), isString arg' = false
  exact forall_mem_nil _

/-- Both cannot: if the array of the names is not shared then it is read after its release, and if
it is, the one that was removed first comes back, with the gender of the other one. -/
theorem usunStareNazwy_two :
    usunStareNazwy (.pointer 3 [.string ⟨[98], by decide⟩, .string ⟨[97], by decide⟩])
        (twoNames 1) = none ∧
      (usunStareNazwy (.pointer 3 [.string ⟨[98], by decide⟩, .string ⟨[97], by decide⟩])
          (twoNames 2)).map (fun (st, _) ↦ (st.mem.item st.nazwy, st.mem.item st.rodzaje)) =
        some (some [.string ⟨[97], by decide⟩], some [.number 2]) :=
  ⟨rfl, rfl⟩

end Lpmud.Names
