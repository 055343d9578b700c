import Lpmud.Arrays.Sort
import Lpmud.Interpret.Sets
import Lpmud.Lib.Grouping
import Mathlib.Algebra.Order.BigOperators.Group.List
import Mathlib.Data.List.FinRange

/-!
# `unique_array`

The objects of an array are put into groups by what a function that is called in each of them
returns, its marker (`make_unique`). The groups are kept in linked lists: the first elements of the
groups in one, with the newest group first, and behind each of these the others of its group in
another. An element that is put in raises the counts of those before it in its group. At the end
the counts of the first elements say how large the arrays are which the groups are written to.

Markers are compared by `equal_svalue`, with that of the new element on the left. If that is an
equivalence on the markers then these are the classes (`Grouping`), and all slots of the arrays that
were allocated are filled. But a function that cannot be called is equal to 0, and 0 not to it, so
the groups are right just when these are not both among the markers (`partitionsByMarker_iff`).

An element is known by its index. What the function returns in an object is given (`result`, where
`none` says that there is no such function), and so is the world that markers are looked at in.
-/

namespace Lpmud.Unique

open List
open Interpret (Failure allocateArray allocateArray_eq isZero equalSvalue_of_isZero
  equalSvalue_illegal equalSvalue_congr)
open Object (MAX_ARRAY_SIZE)
open Lpmud.Sort (type)

/-- `struct unique`, but for the links. The value is a slot of the array. -/
structure Node (n : ℕ) where
  count : ℕ
  val : Fin n
  mark : Svalue

variable {n : ℕ}

/-- One more in the group. -/
def Node.bump (node : Node n) : Node n :=
  { node with count := node.count + 1 }

/-- A node of the list that is linked by `next`, with those that are linked to it by `same`. -/
structure Chain (n : ℕ) where
  head : Node n
  same : List (Node n)

/-- The nodes of a chain, from the first to the last. -/
def Chain.nodes (c : Chain n) : List (Node n) :=
  c.head :: c.same

/-- A node behind the last one of a chain. All the others count it. -/
def Chain.add (c : Chain n) (slink : Node n) : Chain n where
  head := c.head.bump
  same := c.same.map Node.bump ++ [slink]

/-- The loop of `put_in`, which goes on after it has put the element in: what it leaves of `fixed`,
`cnt` and the list. -/
def putInLoop (w : World) (marker : Svalue) (elem : Fin n) :
    Bool → ℕ → List (Chain n) → Bool × ℕ × List (Chain n)
  | fixed, cnt, [] => (fixed, cnt, [])
  | fixed, cnt, llink :: next =>
    if !fixed && equalSvalue w marker llink.head.mark then
      let (fixed, cnt, next) := putInLoop w marker elem true (cnt + 1) next
      (fixed, cnt, llink.add ⟨1, elem, marker⟩ :: next)
    else
      let (fixed, cnt, next) := putInLoop w marker elem fixed (cnt + 1) next
      (fixed, cnt, llink :: next)

/-- `put_in`, with the number of groups that it returns. -/
def putIn (w : World) (ulist : List (Chain n)) (marker : Svalue) (elem : Fin n) :
    ℕ × List (Chain n) :=
  let (fixed, cnt, ulist) := putInLoop w marker elem false 0 ulist
  if fixed then (cnt, ulist)
  else (cnt + 1, ⟨⟨1, elem, marker⟩, []⟩ :: ulist)

/-- What stops `make_unique`: an error, an access behind the end of an array, or one through a
pointer that is 0. -/
inductive Stop where
  | error (f : Failure)
  | overrun
  | null

/-- A slot of an array, `none` as long as nothing has been assigned to it. -/
abbrev Slot : Type := Option Svalue

section MakeUnique

variable (w : World) (arr : List Svalue) (result : Fin arr.length → Option Svalue)
  (skipnum : Svalue)

/-- A round of the loop that calls the function in the objects: `ant` and the list. -/
def callRound (s : ℕ × List (Chain arr.length)) (cnt : Fin arr.length) :
    ℕ × List (Chain arr.length) :=
  match arr.get cnt with
  | .object _ =>
    match result cnt with
    | none => s
    | some v =>
      if type v ≠ type skipnum ∨ equalSvalue w v skipnum = false then putIn w s.2 v cnt else s
  | _ => s

/-- The loop. -/
def callLoop : ℕ × List (Chain arr.length) :=
  (List.finRange arr.length).foldl (callRound w arr result skipnum) (0, [])

/-- The values of a chain are written to an array, from its first slot on. -/
def fillRow : List (Node arr.length) → ℕ → List Slot → Except Stop (List Slot)
  | [], _, res => .ok res
  | nxt2 :: same, cnt2, res =>
    if cnt2 < res.length then fillRow same (cnt2 + 1) (res.set cnt2 (some (arr.get nxt2.val)))
    else .error .overrun

/-- An array of some size. -/
def allocate {α : Type} (n : ℕ) : Except Stop (List (Option α)) :=
  match allocateArray n with
  | .ok () => .ok (List.replicate n none)
  | .error f => .error (.error f)

/-- The loop that makes the arrays of the groups. It stops when there are no more groups. -/
def fillLoop : ℕ → List (Chain arr.length) → List (Option (List Slot)) →
    Except Stop (List (Option (List Slot)))
  | 0, _, ret => .ok ret
  | _ + 1, [], _ => .error .null
  | cnt + 1, head :: next, ret => do
    let res ← allocate head.head.count
    let res ← fillRow arr head.nodes 0 res
    let ret := ret.set cnt (some res)
    if next.isEmpty then .ok ret else fillLoop cnt next ret

def makeUnique : Except Stop (List (Option (List Slot))) :=
  if arr.length < 1 then allocate 0
  else do
    let (ant, head) := callLoop w arr result skipnum
    let ret ← allocate ant
    fillLoop arr ant head ret

/-! ### What is asked of it -/

/-- The marker of an element, if it has one and is not skipped. -/
def marker? (cnt : Fin arr.length) : Option Svalue :=
  match arr.get cnt with
  | .object _ => (result cnt).filter fun v ↦ type v ≠ type skipnum ∨ equalSvalue w v skipnum = false
  | _ => none

/-- The elements with markers. -/
def marked : List (Fin arr.length) :=
  (List.finRange arr.length).filter fun cnt ↦ (marker? w arr result skipnum cnt).isSome

/-- **Groups by marker**: each of the elements with markers once, each group in order, and two
elements are in one group if their markers are equal. -/
structure ByMarker (groups : List (List (Fin arr.length))) : Prop where
  ne_nil : ∀ g ∈ groups, g ≠ []
  inOrder : ∀ g ∈ groups, g.Pairwise (· < ·)
  once : groups.flatten.Perm (marked w arr result skipnum)
  same_iff : ∀ i j u v, marker? w arr result skipnum i = some u →
    marker? w arr result skipnum j = some v → i ≠ j →
    ((∃ g ∈ groups, i ∈ g ∧ j ∈ g) ↔ equalSvalue w u v = true)

/-- The array of a group, with all its slots filled. -/
def filled (group : List (Fin arr.length)) : Option (List Slot) :=
  some (group.map fun cnt ↦ some (arr.get cnt))

/-- The function returns the groups by marker. -/
def PartitionsByMarker : Prop :=
  ∃ groups, ByMarker w arr result skipnum groups ∧
    makeUnique w arr result skipnum = .ok (groups.map (filled arr))

end MakeUnique

/-! ### The lists and the groups -/

section Chains

variable {w : World} {arr : List Svalue} {result : Fin arr.length → Option Svalue}
  {skipnum : Svalue} {marker u v : Svalue} {elem i j : Fin arr.length}

/-- The group that is in a chain. -/
def Chain.group (c : Chain n) : List (Fin n) :=
  c.nodes.map Node.val

theorem Chain.nodes_add (c : Chain n) (slink : Node n) :
    (c.add slink).nodes = c.nodes.map Node.bump ++ [slink] :=
  rfl

theorem Chain.group_add (c : Chain n) (slink : Node n) :
    (c.add slink).group = c.group ++ [slink.val] := by
  rw [group, nodes_add, map_append, map_map]
  rfl

/-- The nodes of a chain have the markers of their elements, and the first one counts them all. -/
structure Chain.Ok (w : World) (arr : List Svalue) (result : Fin arr.length → Option Svalue)
    (skipnum : Svalue) (c : Chain arr.length) : Prop where
  count : c.head.count = c.nodes.length
  mark : ∀ node ∈ c.nodes, marker? w arr result skipnum node.val = some node.mark

theorem Chain.Ok.add {c : Chain arr.length} (h : c.Ok w arr result skipnum)
    (helem : marker? w arr result skipnum elem = some marker) :
    (c.add ⟨1, elem, marker⟩).Ok w arr result skipnum where
  count := by
    rw [nodes_add, length_append, length_map, ← h.count]
    rfl
  mark node hnode := by
    rw [nodes_add] at hnode
    obtain hnode | hnode := mem_append.1 hnode
    · obtain ⟨counted, hcounted, rfl⟩ := mem_map.1 hnode
      exact h.mark counted hcounted
    · obtain rfl := mem_singleton.1 hnode
      exact helem

/-- The markers of two elements are equal. -/
def sameMarker (w : World) (arr : List Svalue) (result : Fin arr.length → Option Svalue)
    (skipnum : Svalue) (i j : Fin arr.length) : Bool :=
  match marker? w arr result skipnum i, marker? w arr result skipnum j with
  | some u, some v => equalSvalue w u v
  | _, _ => false

theorem sameMarker_eq (hi : marker? w arr result skipnum i = some u)
    (hj : marker? w arr result skipnum j = some v) :
    sameMarker w arr result skipnum i j = equalSvalue w u v := by
  rw [sameMarker, hi, hj]

theorem Chain.Ok.any_head {c : Chain arr.length} (h : c.Ok w arr result skipnum)
    (helem : marker? w arr result skipnum elem = some marker) :
    c.group.head?.any (sameMarker w arr result skipnum elem) =
      equalSvalue w marker c.head.mark :=
  sameMarker_eq helem (h.mark c.head mem_cons_self)

theorem putInLoop_true (cnt : ℕ) (ulist : List (Chain n)) (elem : Fin n) :
    putInLoop w marker elem true cnt ulist = (true, cnt + ulist.length, ulist) := by
  induction ulist generalizing cnt with
  | nil => rfl
  | cons llink next ih =>
    rw [putInLoop, ih, length_cons, Nat.add_right_comm, Nat.add_assoc]
    rfl

/-- **The loop of `put_in`** puts the element into the group that it belongs to, if there is one,
and counts all groups. -/
theorem putInLoop_false (helem : marker? w arr result skipnum elem = some marker) (cnt : ℕ)
    {ulist : List (Chain arr.length)} (hok : ∀ c ∈ ulist, c.Ok w arr result skipnum) :
    match Grouping.putIn? (sameMarker w arr result skipnum) elem (ulist.map Chain.group) with
    | none => putInLoop w marker elem false cnt ulist = (false, cnt + ulist.length, ulist)
    | some gs => ∃ ulist', putInLoop w marker elem false cnt ulist =
        (true, cnt + ulist.length, ulist') ∧ ulist'.map Chain.group = gs ∧
        ulist'.length = ulist.length ∧ ∀ c ∈ ulist', c.Ok w arr result skipnum := by
  induction ulist generalizing cnt with
  | nil => rfl
  | cons llink next ih =>
    obtain ⟨hlink, hnext⟩ := forall_mem_cons.1 hok
    have hlen : cnt + 1 + next.length = cnt + (llink :: next).length := by
      rw [length_cons, Nat.add_right_comm, Nat.add_assoc]
    rw [map_cons, Grouping.putIn?, hlink.any_head helem, putInLoop, Bool.not_false,
      Bool.true_and]
    obtain heq | heq := Bool.eq_false_or_eq_true (equalSvalue w marker llink.head.mark)
    · rw [if_pos heq, if_pos heq, putInLoop_true, hlen]
      refine ⟨_, rfl, ?_, rfl, forall_mem_cons.2 ⟨hlink.add helem, hnext⟩⟩
      rw [map_cons, Chain.group_add]
    · rw [heq, if_neg Bool.false_ne_true, if_neg Bool.false_ne_true]
      have ih := ih (cnt + 1) hnext
      rw [hlen] at ih
      cases hgs : Grouping.putIn? (sameMarker w arr result skipnum) elem (next.map Chain.group) with
      | none =>
        rw [hgs] at ih
        rw [ih]
        rfl
      | some gs =>
        rw [hgs] at ih
        obtain ⟨next', hloop, rfl, hlen', hok'⟩ := ih
        rw [hloop]
        exact ⟨llink :: next', rfl, rfl, congrArg (· + 1) hlen',
          forall_mem_cons.2 ⟨hlink, hok'⟩⟩

/-- **`put_in`** puts an element into its group and returns the number of groups. -/
theorem putIn_spec (helem : marker? w arr result skipnum elem = some marker)
    {ulist : List (Chain arr.length)} (hok : ∀ c ∈ ulist, c.Ok w arr result skipnum) :
    ∃ ulist', putIn w ulist marker elem = (ulist'.length, ulist') ∧
      ulist'.map Chain.group =
        Grouping.putIn (sameMarker w arr result skipnum) (ulist.map Chain.group) elem ∧
      ∀ c ∈ ulist', c.Ok w arr result skipnum := by
  have hloop := putInLoop_false helem 0 hok
  rw [Nat.zero_add] at hloop
  rw [putIn, Grouping.putIn]
  cases hgs : Grouping.putIn? (sameMarker w arr result skipnum) elem (ulist.map Chain.group) with
  | none =>
    rw [hgs] at hloop
    rw [hloop]
    refine ⟨_, rfl, rfl, forall_mem_cons.2 ⟨⟨rfl, fun node hnode ↦ ?_⟩, hok⟩⟩
    obtain rfl := mem_singleton.1 hnode
    exact helem
  | some gs =>
    rw [hgs] at hloop
    obtain ⟨ulist', hloop, rfl, hlen, hok'⟩ := hloop
    rw [hloop]
    exact ⟨ulist', Prod.ext hlen.symm rfl, rfl, hok'⟩

theorem callRound_eq (s : ℕ × List (Chain arr.length)) (cnt : Fin arr.length) :
    callRound w arr result skipnum s cnt =
      match marker? w arr result skipnum cnt with
      | none => s
      | some v => putIn w s.2 v cnt := by
  rw [callRound, marker?]
  cases arr.get cnt with
  | object ob =>
    dsimp only
    cases result cnt with
    | none => rfl
    | some v =>
      dsimp only
      rw [Option.filter_some]
      obtain hskip | hskip := em (type v ≠ type skipnum ∨ equalSvalue w v skipnum = false)
      · rw [if_pos hskip, if_pos (decide_eq_true hskip)]
      · rw [if_neg hskip, if_neg (mt of_decide_eq_true hskip)]
  | _ => rfl

/-- **The loop that calls the function** puts the elements with markers into their groups. -/
theorem callLoop_spec : ∃ ulist, callLoop w arr result skipnum = (ulist.length, ulist) ∧
    ulist.map Chain.group = (marked w arr result skipnum).foldl
      (Grouping.putIn (sameMarker w arr result skipnum)) [] ∧
    ∀ c ∈ ulist, c.Ok w arr result skipnum := by
  suffices h : ∀ (l : List (Fin arr.length)) (ulist : List (Chain arr.length)),
      (∀ c ∈ ulist, c.Ok w arr result skipnum) →
      ∃ ulist', l.foldl (callRound w arr result skipnum) (ulist.length, ulist) =
          (ulist'.length, ulist') ∧
        ulist'.map Chain.group =
          (l.filter fun cnt ↦ (marker? w arr result skipnum cnt).isSome).foldl
            (Grouping.putIn (sameMarker w arr result skipnum)) (ulist.map Chain.group) ∧
        ∀ c ∈ ulist', c.Ok w arr result skipnum from
    h (List.finRange arr.length) [] nofun
  intro l
  induction l with
  | nil => exact fun ulist hok ↦ ⟨ulist, rfl, rfl, hok⟩
  | cons cnt l ih =>
    intro ulist hok
    rw [foldl_cons, callRound_eq]
    cases hmark : marker? w arr result skipnum cnt with
    | none =>
      rw [filter_cons_of_neg (by simp [hmark])]
      exact ih ulist hok
    | some v =>
      rw [filter_cons_of_pos (by simp [hmark]), foldl_cons]
      obtain ⟨ulist', hput, hgroups, hok'⟩ := putIn_spec hmark hok
      dsimp only
      rw [hput, ← hgroups]
      exact ih ulist' hok'

end Chains

/-! ### Filling the arrays -/

section Fill

variable {w : World} {arr : List Svalue} {result : Fin arr.length → Option Svalue}
  {skipnum : Svalue}

theorem allocate_eq {α : Type} {k : ℕ} (h : k ≤ MAX_ARRAY_SIZE) :
    allocate (α := α) k = .ok (List.replicate k none) := by
  rw [allocate, allocateArray_eq h]

theorem fillRow_eq (nodes : List (Node arr.length)) (pre : List Slot) :
    fillRow arr nodes pre.length (pre ++ List.replicate nodes.length none) =
      .ok (pre ++ nodes.map fun node ↦ some (arr.get node.val)) := by
  induction nodes generalizing pre with
  | nil => rfl
  | cons node nodes ih =>
    have hlt : pre.length < (pre ++ List.replicate (node :: nodes).length none).length := by
      simp
    have hpre : pre.length + 1 = (pre ++ [some (arr.get node.val)]).length := by
      rw [length_append, length_singleton]
    rw [fillRow, if_pos hlt, length_cons, replicate_succ,
      set_append_right _ _ le_rfl, Nat.sub_self, set_cons_zero, append_cons, hpre,
      ih, append_assoc]
    rfl

theorem Chain.Ok.fillRow {c : Chain arr.length} (h : c.Ok w arr result skipnum) :
    fillRow arr c.nodes 0 (List.replicate c.head.count none) =
      .ok (c.group.map fun cnt ↦ some (arr.get cnt)) := by
  rw [h.count, group, map_map]
  exact fillRow_eq c.nodes []

/-- **The arrays of the groups are filled**, the one of the newest group last. -/
theorem fillLoop_eq {ulist : List (Chain arr.length)}
    (hok : ∀ c ∈ ulist, c.Ok w arr result skipnum)
    (hsize : ∀ c ∈ ulist, c.head.count ≤ MAX_ARRAY_SIZE) (done : List (Option (List Slot))) :
    fillLoop arr ulist.length ulist (List.replicate ulist.length none ++ done) =
      .ok ((ulist.map fun c ↦ filled arr c.group).reverse ++ done) := by
  induction ulist generalizing done with
  | nil => rfl
  | cons head next ih =>
    obtain ⟨hhead, hnext⟩ := forall_mem_cons.1 hok
    obtain ⟨hcount, hcounts⟩ := forall_mem_cons.1 hsize
    have hset : (List.replicate (next.length + 1) none ++ done).set next.length
        (filled arr head.group) =
          List.replicate next.length none ++ filled arr head.group :: done := by
      rw [replicate_succ', append_assoc, set_append_right _ _ (by simp)]
      simp
    have hfill : (do
        let res ← allocate head.head.count
        let res ← Unique.fillRow arr head.nodes 0 res
        let ret := (List.replicate (next.length + 1) none ++ done).set next.length (some res)
        if next.isEmpty then .ok ret else fillLoop arr next.length next ret) =
        if next.isEmpty then .ok (List.replicate next.length none ++ filled arr head.group :: done)
        else fillLoop arr next.length next
          (List.replicate next.length none ++ filled arr head.group :: done) := by
      rw [allocate_eq hcount, ← hset]
      show (Unique.fillRow arr head.nodes 0 (List.replicate head.head.count none) >>= _) = _
      rw [hhead.fillRow]
      rfl
    rw [length_cons, fillLoop, hfill, map_cons, reverse_cons, append_assoc]
    split
    next hempty =>
      obtain rfl := isEmpty_iff.1 hempty
      rfl
    next => exact ih hnext hcounts (filled arr head.group :: done)

end Fill

/-! ### The groups are those by marker -/

section Markers

variable {w : World} {x y z : Svalue}

theorem equalSvalue_self_of_equal (h : equalSvalue w x y = true) : equalSvalue w x x = true := by
  cases x with
  | float a =>
    cases y with
    | float b =>
      rw [equalSvalue, CFloat.eq, Bool.and_eq_true, Bool.and_eq_true] at h
      simpa [equalSvalue, CFloat.eq] using h.1.1
    | _ => cases h
  | _ => simp [equalSvalue]

theorem illegal_or_callable (w : World) (x : Svalue) :
    (∃ f, x = .function f ∧ w.legalClosure f = false) ∨
      ∀ f, x = .function f → w.legalClosure f = true := by
  obtain hf | hf := em (∃ f, x = .function f ∧ w.legalClosure f = false)
  · exact .inl hf
  · exact .inr fun f hxf ↦ Bool.eq_true_of_not_eq_false fun hlegal ↦ hf ⟨f, hxf, hlegal⟩

theorem equalSvalue_symm_of_ne
    (hx : ∀ f, x = .function f → w.legalClosure f = false → y ≠ const0)
    (h : equalSvalue w x y = true) : equalSvalue w y x = true := by
  obtain hzero | hzero := Bool.eq_false_or_eq_true (isZero w x)
  · rw [equalSvalue_of_isZero hzero] at h
    rw [equalSvalue_of_isZero h, hzero]
  · obtain ⟨f, rfl, hf⟩ | hcall := illegal_or_callable w x
    · obtain h0 | rfl := (equalSvalue_illegal hf).1 h
      · exact absurd h0 (hx f rfl hf)
      · exact h
    · rw [equalSvalue_congr hzero hcall h]
      exact equalSvalue_self_of_equal h

theorem equalSvalue_trans_of_ne
    (hx : ∀ f, x = .function f → w.legalClosure f = false → y ≠ const0)
    (h : equalSvalue w x y = true) (h' : equalSvalue w y z = true) : equalSvalue w x z = true := by
  obtain hzero | hzero := Bool.eq_false_or_eq_true (isZero w x)
  · rw [equalSvalue_of_isZero hzero] at h ⊢
    rwa [equalSvalue_of_isZero h] at h'
  · obtain ⟨f, rfl, hf⟩ | hcall := illegal_or_callable w x
    · obtain h0 | rfl := (equalSvalue_illegal hf).1 h
      · exact absurd h0 (hx f rfl hf)
      · exact h'
    · rwa [← equalSvalue_congr hzero hcall h]

end Markers

section Partition

variable {w : World} {arr : List Svalue} {result : Fin arr.length → Option Svalue}
  {skipnum : Svalue}

/-- The number 0 and a function that cannot be called are both among the markers. -/
def ZeroAndIllegal (w : World) (arr : List Svalue) (result : Fin arr.length → Option Svalue)
    (skipnum : Svalue) : Prop :=
  (∃ i, marker? w arr result skipnum i = some const0) ∧
    ∃ j f, marker? w arr result skipnum j = some (.function f) ∧ w.legalClosure f = false

theorem mem_marked {i : Fin arr.length} :
    i ∈ marked w arr result skipnum ↔ ∃ v, marker? w arr result skipnum i = some v := by
  rw [marked, mem_filter, Option.isSome_iff_exists]
  exact and_iff_right (mem_finRange i)

theorem equivOn_marked (h : ¬ZeroAndIllegal w arr result skipnum) :
    Grouping.EquivOn (sameMarker w arr result skipnum) (marked w arr result skipnum) := by
  have hne {i j : Fin arr.length} {u v : Svalue} (hi : marker? w arr result skipnum i = some u)
      (hj : marker? w arr result skipnum j = some v) (f : Addr) (hu : u = .function f)
      (hf : w.legalClosure f = false) : v ≠ const0 := by
    rintro rfl
    exact h ⟨⟨j, hj⟩, i, f, hu ▸ hi, hf⟩
  refine ⟨fun i hi j hj hij ↦ ?_, fun i hi j hj k hk hij hjk ↦ ?_⟩
  all_goals
    obtain ⟨u, hu⟩ := mem_marked.1 hi
    obtain ⟨v, hv⟩ := mem_marked.1 hj
    rw [sameMarker_eq hu hv] at hij
  · rw [sameMarker_eq hv hu]
    exact equalSvalue_symm_of_ne (hne hu hv) hij
  · obtain ⟨z, hz⟩ := mem_marked.1 hk
    rw [sameMarker_eq hv hz] at hjk
    rw [sameMarker_eq hu hz]
    exact equalSvalue_trans_of_ne (hne hu hv) hij hjk

theorem byMarker_of_grouped {gs groups : List (List (Fin arr.length))}
    (h : Grouping.Grouped (sameMarker w arr result skipnum) (marked w arr result skipnum) gs)
    (hperm : groups.Perm gs) : ByMarker w arr result skipnum groups where
  ne_nil g hg := h.ne_nil g (hperm.mem_iff.1 hg)
  inOrder g hg := (pairwise_lt_finRange arr.length).sublist
    ((h.sublist g (hperm.mem_iff.1 hg)).trans filter_sublist)
  once := hperm.flatten.trans h.perm
  same_iff i j u v hi hj hne := by
    rw [← sameMarker_eq hi hj, ← h.mem_iff (mem_marked.2 ⟨u, hi⟩) (mem_marked.2 ⟨v, hj⟩) hne]
    exact exists_congr fun g ↦ and_congr_left fun _ ↦ hperm.mem_iff

theorem length_le_of_grouped {gs : List (List (Fin arr.length))}
    (h : Grouping.Grouped (sameMarker w arr result skipnum) (marked w arr result skipnum) gs) :
    gs.length ≤ arr.length := by
  have hone : ∀ k ∈ gs.map List.length, 1 ≤ k := by
    intro k hk
    obtain ⟨g, hg, rfl⟩ := mem_map.1 hk
    exact length_pos_of_ne_nil (h.ne_nil g hg)
  calc gs.length = (gs.map List.length).length := (length_map _).symm
    _ ≤ (gs.map List.length).sum := length_le_sum_of_one_le _ hone
    _ = gs.flatten.length := length_flatten.symm
    _ = (marked w arr result skipnum).length := h.perm.length_eq
    _ ≤ (List.finRange arr.length).length := length_filter_le _ _
    _ = arr.length := length_finRange

theorem partitionsByMarker_of_equivOn (harr : arr.length ≤ MAX_ARRAY_SIZE)
    (heq : Grouping.EquivOn (sameMarker w arr result skipnum) (marked w arr result skipnum)) :
    PartitionsByMarker w arr result skipnum := by
  obtain ⟨ulist, hcall, hgroups, hok⟩ := @callLoop_spec w arr result skipnum
  have hgrouped := Grouping.grouped_foldl heq
  rw [← hgroups] at hgrouped
  refine ⟨(ulist.map Chain.group).reverse, byMarker_of_grouped hgrouped (reverse_perm _), ?_⟩
  have hant : ulist.length ≤ arr.length := by
    have hle := length_le_of_grouped hgrouped
    rwa [length_map] at hle
  have hcount : ∀ c ∈ ulist, c.head.count ≤ MAX_ARRAY_SIZE := by
    intro c hc
    have hsub := (hgrouped.sublist c.group (mem_map_of_mem hc)).trans filter_sublist
    have hle := hsub.length_le
    rw [Chain.group, length_map, ← (hok c hc).count, length_finRange] at hle
    exact hle.trans harr
  have hfill := fillLoop_eq hok hcount []
  rw [append_nil, append_nil] at hfill
  rw [map_reverse, map_map]
  refine Eq.trans ?_ hfill
  rw [makeUnique, hcall]
  split
  next hempty =>
    -- An empty array has no groups.
    obtain rfl := length_eq_zero_iff.1 (Nat.le_zero.1 (hant.trans (Nat.le_of_lt_succ hempty)))
    rfl
  next =>
    dsimp only
    rw [allocate_eq (hant.trans harr)]
    rfl

theorem PartitionsByMarker.not_zeroAndIllegal (h : PartitionsByMarker w arr result skipnum) :
    ¬ZeroAndIllegal w arr result skipnum := by
  rintro ⟨⟨i, hi⟩, j, f, hj, hf⟩
  obtain ⟨groups, hby, -⟩ := h
  have hne : i ≠ j := by
    rintro rfl
    rw [hi, const0] at hj
    cases hj
  have hfun : equalSvalue w (.function f) const0 = true := (equalSvalue_illegal hf).2 (.inl rfl)
  obtain ⟨g, hg, hjg, hig⟩ := (hby.same_iff j i _ _ hj hi hne.symm).2 hfun
  cases (hby.same_iff i j _ _ hi hj hne).1 ⟨g, hg, hig, hjg⟩

/-- **The groups are those by marker just when 0 and a function that cannot be called are not both
among the markers.** -/
theorem partitionsByMarker_iff (harr : arr.length ≤ MAX_ARRAY_SIZE) :
    PartitionsByMarker w arr result skipnum ↔ ¬ZeroAndIllegal w arr result skipnum :=
  ⟨PartitionsByMarker.not_zeroAndIllegal,
    fun h ↦ partitionsByMarker_of_equivOn harr (equivOn_marked h)⟩

/-- Four objects with the markers 1, 0, 1 and none. -/
theorem partitionsByMarker_iff_four : PartitionsByMarker .calm
    [.object 16, .object 32, .object 48, .object 64]
    [some (.number 1), some const0, some (.number 1), none].get (.number 7) :=
  (partitionsByMarker_iff (by decide)).2 fun ⟨_, _, _, _, hf⟩ ↦ Bool.false_ne_true hf.symm

/-- The first of two objects has a function that cannot be called as its marker, and the second
one 0. -/
theorem not_partitionsByMarker : ¬∀ (w : World) (arr : List Svalue)
    (result : Fin arr.length → Option Svalue) (skipnum : Svalue), arr.length ≤ MAX_ARRAY_SIZE →
    PartitionsByMarker w arr result skipnum := by
  intro hall
  have h := hall ⟨fun _ ↦ false, fun _ ↦ false⟩ [.object 16, .object 32]
    (fun cnt ↦ if cnt = 0 then some (.function 48) else some const0) (.number (-1)) (by decide)
  exact h.not_zeroAndIllegal ⟨⟨1, rfl⟩, 0, 48, rfl, rfl⟩

end Partition

end Lpmud.Unique
