import Lpmud.Svalue
import Lpmud.Lib.Quicksort
import Lpmud.Lib.TransitionSystem
import Mathlib.Algebra.Group.Int.Defs
import Mathlib.Algebra.GroupWithZero.Nat
import Mathlib.Data.List.Lex
import Mathlib.Data.Prod.Lex

/-!
# `sort`

The function `sort` of the driver (`efun_sort`): quicksort in place, with the ranges that are still
to be sorted on a stack of `QS_MAX_REC` entries. The source has the loop twice, once around a call
of the function that was given, and once around the built-in comparison; here there is one loop,
and the comparison is an argument of it. A function of LPC may change whatever it likes except the
array, so it has a world.

An access outside the array, or a push on a full stack, is `none`. The rest of the module says that
neither happens, that the loop ends, and what it leaves: the list that `Quicksort.quicksort` makes
(`loop_spec`). The ranges on the stack are sorted one after the other, and it is by this that the
list is read off at any time.

The built-in comparison of two integers is their difference, an `int`. If it wraps around then the
smaller of the two is taken for the larger one.
-/

namespace Lpmud.Sort

open List Option Quicksort

/-- The entries of the stack. -/
abbrev QS_MAX_REC : ℕ := 32

/-- Two elements change places; `none` if there is no such place. -/
def exchange {α : Type} (item : List α) (i j : ℕ) : Option (List α) := do
  let a ← item[i]?
  let b ← item[j]?
  return (item.set i b).set j a

/-- The variables of the inner loop, and the array. -/
structure Scan (σ α : Type) where
  world : σ
  item : List α
  l : ℕ
  c : ℕ
  r : ℕ

section Loop

variable {σ α : Type} (cmp : σ → α → α → ℤ × σ)

/-- A round of the inner loop. -/
def scanRound (h : α) (s : Scan σ α) : Option (Scan σ α) := do
  let a ← s.item[s.c]?
  let (i, world) := cmp s.world a h
  if i < 0 then
    let item ← exchange s.item s.l s.c
    return ⟨world, item, s.l + 1, s.c + 1, s.r⟩
  else if 0 < i then
    let item ← exchange s.item (s.r - 1) s.c
    return ⟨world, item, s.l, s.c, s.r - 1⟩
  else return ⟨world, s.item, s.l, s.c + 1, s.r⟩

/-- The inner loop. A round makes the distance from `c` to `r` smaller by one, so that is how often
it is made. -/
def scan (h : α) : ℕ → Scan σ α → Option (Scan σ α)
  | 0, s => some s
  | n + 1, s => if s.c < s.r then (scanRound cmp h s).bind (scan h n) else some s

/-- The variables of the outer loop, and the array. The stack has its top first. -/
structure Work (σ α : Type) where
  world : σ
  item : List α
  stack : List (ℕ × ℕ)
  start : ℕ
  stop : ℕ

/-- The ranges that are still to be sorted. -/
def Work.ranges {σ α : Type} (w : Work σ α) : List (ℕ × ℕ) := (w.start, w.stop) :: w.stack

/-- The larger part of a range that was partitioned is pushed. -/
def push (s : Scan σ α) (stack : List (ℕ × ℕ)) (start stop : ℕ) : Work σ α :=
  if s.l - start < stop - s.c then ⟨s.world, s.item, (s.c, stop) :: stack, start, s.l⟩
  else ⟨s.world, s.item, (start, s.l) :: stack, s.c, stop⟩

/-- A round of the outer loop. -/
def round (w : Work σ α) : Option (Work σ α) :=
  if w.stop - w.start < 2 then
    match w.stack with
    | [] => none
    | (start, stop) :: stack => some ⟨w.world, w.item, stack, start, stop⟩
  else do
    let h ← w.item[(w.start + w.stop) / 2]?
    let s ← scan cmp h (w.stop - w.start) ⟨w.world, w.item, w.start, w.start, w.stop⟩
    if w.stack.length < QS_MAX_REC then return push s w.stack w.start w.stop else none

/-- The outer loop. -/
def loop : ℕ → Work σ α → Option (Work σ α)
  | 0, w => if w.stack ≠ [] ∨ 1 < w.stop - w.start then none else some w
  | fuel + 1, w =>
    if w.stack ≠ [] ∨ 1 < w.stop - w.start then (round cmp w).bind (loop fuel) else some w

end Loop

/-! ### The comparisons -/

/-- The call of a function that was given. What is not an integer counts as 0. -/
def compareCall {σ : Type} (callVar : σ → Addr → Svalue → Svalue → Svalue × σ) (func : Addr)
    (world : σ) (a h : Svalue) : ℤ × σ :=
  match callVar world func a h with
  | (.number n, world) => (n.toInt, world)
  | (_, world) => (0, world)

/-- The code of a type. -/
def type : Svalue → ℤ
  | .number _ => 0x2
  | .string _ => 0x4
  | .pointer _ _ => 0x8
  | .object _ => 0x10
  | .mapping _ _ => 0x20
  | .float _ => 0x40
  | .function _ => 0x80

/-- The value of a float that is a number, on a scale of its own: the larger the value, the larger
this is, and the two zeros have one place on it. -/
def rank (x : CFloat) : ℤ :=
  if x.msb then -(x &&& 0x7fffffff).toNat else (x &&& 0x7fffffff).toNat

/-- The sign of the difference of two floats. It is rounded, but never to 0 from anything else; and
it is not a number, so neither less nor greater than 0, if one of the two is not, or if both are
the same infinity. -/
def subtract (x y : CFloat) : ℤ :=
  if x.isNaN || y.isNaN then 0 else (rank x - rank y).sign

def strcmp : Bytes → Bytes → ℤ
  | [], [] => 0
  | [], b :: _ => -b.toNat
  | a :: _, [] => a.toNat
  | a :: s, b :: t => if a = b then strcmp s t else a.toNat - b.toNat

/-- The built-in comparison. -/
def compareItems : Svalue → Svalue → ℤ
  | .number m, .number n => (m - n).toInt
  | .float x, .float y => if subtract x y < 0 then -1 else if 0 < subtract x y then 1 else 0
  | .string s, .string t => strcmp s.bytes t.bytes
  | a, h => type a - type h

def efunSort {σ : Type} (callVar : σ → Addr → Svalue → Svalue → Svalue × σ) (fuel : ℕ) (world : σ) :
    Svalue → Svalue → Option (Svalue × σ)
  | .pointer vec item, .function func => do
    let w ← loop (compareCall callVar func) fuel ⟨world, item, [], 0, item.length⟩
    return (.pointer vec w.item, w.world)
  | .pointer vec item, _ => do
    let w ← loop (fun _ a h ↦ (compareItems a h, ())) fuel ⟨(), item, [], 0, item.length⟩
    return (.pointer vec w.item, world)
  | fp, _ => some (fp, world)

/-! ### The inner loop -/

section Loop

variable {σ α : Type} {cmp : σ → α → α → ℤ × σ} {C : Comparison α} {S : Set α} {P Q : List α}
  {h : α} {p : Parts α} {s : Scan σ α}

theorem exchange_self (X : List α) (a : α) (Z : List α) :
    exchange (X ++ a :: Z) X.length X.length = some (X ++ a :: Z) := by
  simp [exchange]

theorem exchange_append (X : List α) (a : α) (Y : List α) (b : α) (Z : List α) :
    exchange (X ++ a :: (Y ++ b :: Z)) X.length (X.length + (Y.length + 1)) =
      some (X ++ b :: (Y ++ a :: Z)) := by
  have hb : (X ++ a :: (Y ++ b :: Z))[X.length + (Y.length + 1)]? = some b := by simp
  have ha : (X ++ a :: (Y ++ b :: Z))[X.length]? = some a := by simp
  rw [exchange, ha, hb]
  simp

theorem exchange_comm {item : List α} {i j : ℕ} : exchange item i j = exchange item j i := by
  simp only [exchange]
  cases hi : item[i]? <;> cases hj : item[j]? <;> try rfl
  next a b =>
    simp only [bind_eq_bind, bind_some]
    obtain rfl | hne := eq_or_ne i j
    · obtain rfl : a = b := some.inj (hi.symm.trans hj)
      rfl
    · exact congrArg some (set_comm _ _ hne)

/-- The results of the comparison have the signs that `C` says, for elements of `S`, whatever
happened before. -/
def Agrees (cmp : σ → α → α → ℤ × σ) (C : Comparison α) (S : Set α) : Prop :=
  ∀ world, ∀ a ∈ S, ∀ b ∈ S, compare (cmp world a b).1 0 = C.cmp a b

/-- The variables of the inner loop stand between the parts, with `P` before them and `Q` after. -/
structure Between (P Q : List α) (p : Parts α) (s : Scan σ α) : Prop where
  item : s.item = P ++ (p.toList ++ Q)
  l : s.l = P.length + p.less.length
  c : s.c = P.length + p.less.length + p.equal.length
  r : s.r = P.length + p.less.length + p.equal.length + p.todo.length

theorem scanRound_spec (hcmp : Agrees cmp C S) (hs : Between P Q p s) (hh : h ∈ S)
    (hS : ∀ a ∈ p.toList, a ∈ S) (ht : p.todo ≠ []) :
    ∃ s', scanRound cmp h s = some s' ∧ Between P Q (p.step C h) s' := by
  obtain ⟨less, equal, todo, greater⟩ := p
  obtain ⟨x, todo, rfl⟩ := exists_cons_of_ne_nil ht
  obtain ⟨hitem, hl, hc, hr⟩ := hs
  have hx := hcmp s.world x (hS x (by simp [Parts.toList])) h hh
  simp only [Parts.toList, length_cons] at hitem hl hc hr
  have hget : s.item[s.c]? = some x := by
    have hfront : s.item = (P ++ less ++ equal) ++ x :: (todo ++ greater ++ Q) := by
      simp [hitem]
    have hlen : s.c = (P ++ less ++ equal).length := by
      simp [hc, Nat.add_assoc]
    rw [hfront, hlen, List.getElem?_append_right le_rfl, Nat.sub_self]
    rfl
  rw [scanRound, hget]
  simp only [bind_eq_bind, bind_some, Parts.step]
  rw [← hx]
  obtain hneg | hzero | hpos := lt_trichotomy (cmp s.world x h).1 0
  · -- a smaller one changes places with the first of the equal ones
    have hswap : exchange s.item s.l s.c =
        some (P ++ (less ++ [x] ++ (equal.rotate 1 ++ (todo ++ greater)) ++ Q)) := by
      rw [hitem, hc, hl]
      cases equal with
      | nil => simpa using exchange_self (P ++ less) x (todo ++ (greater ++ Q))
      | cons e equal =>
        simpa [Nat.add_assoc] using exchange_append (P ++ less) e equal x (todo ++ (greater ++ Q))
    rw [if_pos hneg, hswap, compare_lt_iff_lt.2 hneg]
    refine ⟨_, rfl, rfl, ?_, ?_, ?_⟩ <;> simp [hl, hc, hr] <;> omega
  · rw [if_neg hzero.not_lt, if_neg hzero.not_gt, compare_eq_iff_eq.2 hzero]
    refine ⟨_, rfl, ?_, ?_, ?_, ?_⟩ <;> simp [hitem, hl, hc, hr, Parts.toList] <;> omega
  · -- a larger one changes places with the last that is still to be compared
    have hswap : exchange s.item (s.r - 1) s.c =
        some (P ++ (less ++ (equal ++ (Parts.lastFirst todo ++ x :: greater)) ++ Q)) := by
      have hr' : s.r - 1 = P.length + less.length + equal.length + todo.length := by omega
      rw [exchange_comm, hitem, hc, hr']
      obtain rfl | ⟨todo, y, rfl⟩ := todo.eq_nil_or_concat
      · simpa [Nat.add_assoc] using exchange_self (P ++ (less ++ equal)) x (greater ++ Q)
      · simpa [Nat.add_assoc] using
          exchange_append (P ++ (less ++ equal)) x todo y (greater ++ Q)
    rw [if_neg hpos.not_gt, if_pos hpos, hswap, compare_gt_iff_gt.2 hpos]
    have hlen := (Parts.lastFirst_perm todo).length_eq
    refine ⟨_, rfl, rfl, ?_, ?_, ?_⟩ <;> simp [hl, hc, hr, hlen]

theorem scan_spec (hcmp : Agrees cmp C S) (hh : h ∈ S) :
    ∀ {n : ℕ} {p : Parts α} {s : Scan σ α}, p.todo.length = n → Between P Q p s →
      (∀ a ∈ p.toList, a ∈ S) →
        ∃ s', scan cmp h n s = some s' ∧ Between P Q (steps C h n p) s'
  | 0, p, s, _, hs, _ => ⟨s, rfl, hs⟩
  | n + 1, p, s, hn, hs, hS => by
    obtain ⟨s', hround, hs'⟩ :=
      scanRound_spec hcmp hs hh hS (ne_nil_of_length_eq_add_one hn)
    have hlt : s.c < s.r := by
      rw [hs.c, hs.r, hn]
      omega
    have hn' : (p.step C h).todo.length = n := by
      rw [Parts.length_todo_step, hn, Nat.add_sub_cancel]
    obtain ⟨s'', hscan, hs''⟩ := scan_spec hcmp hh hn' hs'
      fun a ha ↦ hS a (Parts.step_perm.subset ha)
    exact ⟨s'', by rw [scan, if_pos hlt, hround, bind_some, hscan], hs''⟩

/-! ### The outer loop -/

/-- A range of a list is sorted. -/
def sortRange (C : Comparison α) (item : List α) (range : ℕ × ℕ) : List α :=
  item.take range.1 ++
    (quicksort C ((item.drop range.1).take (range.2 - range.1)) ++ item.drop range.2)

/-- What is left when the ranges are sorted, one after the other. -/
def finish (C : Comparison α) (item : List α) (ranges : List (ℕ × ℕ)) : List α :=
  ranges.foldl (sortRange C) item

theorem sortRange_append {item X : List α} {start stop : ℕ} (hitem : item = P ++ (X ++ Q))
    (hstart : start = P.length) (hstop : stop = P.length + X.length) :
    sortRange C item (start, stop) = P ++ (quicksort C X ++ Q) := by
  subst hitem hstart hstop
  rw [sortRange]
  simp

theorem exists_range (item : List α) (start stop : ℕ) (h : start ≤ stop)
    (hstop : stop ≤ item.length) :
    ∃ P X Q, item = P ++ (X ++ Q) ∧ start = P.length ∧ stop = P.length + X.length := by
  refine ⟨item.take start, (item.drop start).take (stop - start), item.drop stop, ?_, ?_, ?_⟩
  · have hdrop : item.drop stop = (item.drop start).drop (stop - start) := by
      rw [drop_drop, Nat.add_sub_cancel' h]
    rw [hdrop, take_append_drop, take_append_drop]
  · rw [length_take]
    omega
  · rw [length_take, length_take, length_drop]
    omega

/-- The ranges lie in an array of size `n`, and one that has `k` others below it is not longer than
`n / 2 ^ k`. -/
def Halved (n : ℕ) : List (ℕ × ℕ) → Prop
  | [] => True
  | (start, stop) :: stack =>
    (start ≤ stop ∧ stop ≤ n ∧ stop - start ≤ n / 2 ^ stack.length) ∧ Halved n stack

/-- The number of rounds that are left, at most. -/
def rounds (ranges : List (ℕ × ℕ)) : ℕ :=
  2 * (ranges.map fun range ↦ range.2 - range.1).sum + ranges.length

/-- What holds between the rounds, of a sort of `l`. -/
structure Sorting (C : Comparison α) (l : List α) (w : Work σ α) : Prop where
  perm : w.item.Perm l
  finish : finish C w.item w.ranges = quicksort C l
  halved : Halved l.length w.ranges

theorem Sorting.pop {l : List α} {world : σ} {item : List α} {start stop : ℕ} {range : ℕ × ℕ}
    {stack : List (ℕ × ℕ)} (hw : Sorting C l ⟨world, item, range :: stack, start, stop⟩)
    (hlt : stop - start < 2) : Sorting C l ⟨world, item, stack, range.1, range.2⟩ := by
  obtain ⟨hperm, hfinish, ⟨hle, hstop, -⟩, hstack⟩ := hw
  refine ⟨hperm, ?_, hstack⟩
  obtain ⟨P, X, Q, hitem, hP, hX⟩ := exists_range item start stop hle (hperm.length_eq ▸ hstop)
  have hsame : sortRange C item (start, stop) = item := by
    rw [sortRange_append hitem hP hX, quicksort_of_lt (by omega), hitem]
  rw [← hfinish]
  show _ = List.foldl (sortRange C) (sortRange C item (start, stop)) (range :: stack)
  rw [hsame]
  rfl

theorem Sorting.push {l X : List α} {world : σ} {item : List α} {start stop : ℕ}
    {stack : List (ℕ × ℕ)} (hw : Sorting C l ⟨world, item, stack, start, stop⟩)
    (hitem : item = P ++ (X ++ Q)) (hstart : start = P.length) (hstop : stop = P.length + X.length)
    (hX : 2 ≤ X.length) (hs : Between P Q (parts C X hX) s) :
    Sorting C l (Sort.push s stack start stop) ∧
      rounds (Sort.push s stack start stop).ranges < rounds ((start, stop) :: stack) := by
  obtain ⟨hperm, hfinish, ⟨hle, hend, hhalf⟩, hstack⟩ := hw
  obtain ⟨hsitem, hl, hc, -⟩ := hs
  have hlt := split_length_lt (C := C) (pivot_mem hX)
  have hlength := split_length (C := C) (h := pivot X hX) (l := X)
  have hsplit := split_perm (C := C) (h := pivot X hX) (l := X)
  have htodo : (parts C X hX).todo = [] := split_todo
  rw [← parts] at hlt hlength hsplit
  rw [Parts.toList, htodo, nil_append] at hsitem
  generalize hparts : parts C X hX = p at *
  -- whichever part is sorted first, the range is sorted when both are
  have hwhole : sortRange C item (start, stop) =
      P ++ (quicksort C p.less ++ (p.equal ++ quicksort C p.greater) ++ Q) := by
    rw [sortRange_append hitem hstart hstop, quicksort, dif_pos hX, hparts]
  have hleft : sortRange C (sortRange C s.item (start, s.l)) (s.c, stop) =
      sortRange C item (start, stop) := by
    have hfirst := sortRange_append (C := C) (X := p.less) (Q := p.equal ++ p.greater ++ Q)
      (by simpa using hsitem) hstart hl
    have hlen := (quicksort_perm (C := C) p.less).length_eq
    rw [hfirst, hwhole, sortRange_append (P := P ++ quicksort C p.less ++ p.equal)
      (X := p.greater) (Q := Q) (by simp) (by simp; omega) (by simp; omega)]
    simp
  have hright : sortRange C (sortRange C s.item (s.c, stop)) (start, s.l) =
      sortRange C item (start, stop) := by
    have hstop' : stop = (P ++ p.less ++ p.equal).length + p.greater.length := by
      simp
      omega
    have hc' : s.c = (P ++ p.less ++ p.equal).length := by
      simp
      omega
    have hfirst := sortRange_append (C := C) (Q := Q) (by simpa using hsitem) hc' hstop'
    rw [hfirst, hwhole, sortRange_append (P := P) (X := p.less)
      (Q := p.equal ++ (quicksort C p.greater ++ Q)) (by simp) hstart hl]
    simp
  have hperm' : s.item.Perm l := by
    refine .trans ?_ hperm
    rw [hsitem, hitem]
    exact (hsplit.append_right Q).append_left P
  have hhalf' : ∀ m, 2 * m ≤ l.length / 2 ^ stack.length →
      m ≤ l.length / 2 ^ (stack.length + 1) := by
    intro m hm
    rw [Nat.pow_succ, ← Nat.div_div_eq_div_mul]
    omega
  dsimp only at hle hend hhalf
  have hstart' : start ≤ s.l := by omega
  have hl' : s.l ≤ l.length := by omega
  have hc' : s.c ≤ stop := by omega
  have hsum : s.l - start + (stop - s.c) < stop - start := by omega
  rw [Sort.push]
  split
  next hsmall =>
    have hnext := hhalf' (s.l - start) (by omega)
    have htop : stop - s.c ≤ l.length / 2 ^ stack.length := by omega
    refine ⟨⟨hperm', ?_, ⟨hstart', hl', hnext⟩, ⟨hc', hend, htop⟩, hstack⟩, ?_⟩
    · show List.foldl _ (sortRange C (sortRange C s.item (start, s.l)) (s.c, stop)) stack = _
      rw [hleft]
      exact hfinish
    · simp [rounds, Work.ranges]
      omega
  next hsmall =>
    have hnext := hhalf' (stop - s.c) (by omega)
    have htop : s.l - start ≤ l.length / 2 ^ stack.length := by omega
    refine ⟨⟨hperm', ?_, ⟨hc', hend, hnext⟩, ⟨hstart', hl', htop⟩, hstack⟩, ?_⟩
    · show List.foldl _ (sortRange C (sortRange C s.item (s.c, stop)) (start, s.l)) stack = _
      rw [hright]
      exact hfinish
    · simp [rounds, Work.ranges]
      omega

/-- **A round of the outer loop** keeps what the result will be, makes the number of rounds that are
left smaller, and has a place on the stack when it needs one. -/
theorem round_spec {l : List α} {w : Work σ α} (hcmp : Agrees cmp C S) (hS : ∀ a ∈ l, a ∈ S)
    (hsize : l.length < 2 ^ 32) (hw : Sorting C l w) (hmore : w.stack ≠ [] ∨ 1 < w.stop - w.start) :
    ∃ w', round cmp w = some w' ∧ Sorting C l w' ∧ rounds w'.ranges < rounds w.ranges := by
  obtain ⟨world, item, stack, start, stop⟩ := w
  dsimp only at hmore
  rw [round]
  dsimp only
  obtain hlt | hge := Nat.lt_or_ge (stop - start) 2
  · rw [if_pos hlt]
    cases stack with
    | nil => exact absurd (hmore.resolve_left (fun h ↦ h rfl)) (by omega)
    | cons range stack =>
      refine ⟨_, rfl, hw.pop hlt, ?_⟩
      simp [rounds, Work.ranges]
      omega
  · rw [if_neg (Nat.not_lt.2 hge)]
    have hperm := hw.perm
    obtain ⟨⟨hle, hstop, hhalf⟩, -⟩ := hw.halved
    obtain ⟨P, X, Q, hitem, hP, hX⟩ := exists_range item start stop hle (hperm.length_eq ▸ hstop)
    have hlen : 2 ≤ X.length := by omega
    -- the element in the middle of the range
    have hpivot : item[(start + stop) / 2]? = some (pivot X hlen) := by
      have hmid : (start + stop) / 2 = P.length + X.length / 2 := by omega
      rw [hitem, hmid, List.getElem?_append_right (Nat.le_add_right _ _), Nat.add_sub_cancel_left,
        List.getElem?_append_left (by omega), pivot, List.getElem?_eq_getElem]
      rfl
    have hX' : ∀ a ∈ X, a ∈ S := fun a ha ↦
      hS a (hperm.subset (hitem ▸ mem_append_right _ (mem_append_left _ ha)))
    have hbetween : Between P Q ⟨[], [], X, []⟩
        (⟨world, item, start, start, stop⟩ : Scan σ α) :=
      ⟨by simp [hitem, Parts.toList], hP, hP, hX⟩
    have hn : stop - start = X.length := by omega
    obtain ⟨s, hscan, hs⟩ := scan_spec hcmp (hX' _ (pivot_mem hlen)) rfl hbetween
      fun a ha ↦ hX' a (by simpa [Parts.toList] using ha)
    obtain ⟨hpush, hrounds⟩ := hw.push hitem hP hX hlen hs
    refine ⟨_, ?_, hpush, hrounds⟩
    -- a range of two or more has fewer than 32 below it
    have hdepth : stack.length < QS_MAX_REC := by
      have hpow : 2 ^ stack.length * 2 ≤ l.length :=
        (Nat.mul_le_mul_left _ (hge.trans hhalf)).trans (Nat.mul_div_le _ _)
      rw [← Nat.pow_succ] at hpow
      exact Nat.lt_of_succ_lt ((Nat.pow_lt_pow_iff_right (by decide)).1 (hpow.trans_lt hsize))
    rw [hpivot, hn]
    dsimp only at hscan ⊢
    simp only [bind_eq_bind, bind_some, hscan, if_pos hdepth]
    rfl

theorem sorting_start (C : Comparison α) (world : σ) (l : List α) :
    Sorting C l ⟨world, l, [], 0, l.length⟩ := by
  refine ⟨.refl l, ?_, ⟨Nat.zero_le _, le_rfl, (Nat.div_one _).ge⟩, trivial⟩
  have hsort := sortRange_append (C := C) (P := []) (X := l) (Q := [])
    (append_nil l).symm rfl (Nat.zero_add _).symm
  exact hsort.trans (append_nil _)

theorem Sorting.done {l : List α} {w : Work σ α} (hw : Sorting C l w)
    (hdone : ¬(w.stack ≠ [] ∨ 1 < w.stop - w.start)) : w.item = quicksort C l := by
  obtain ⟨world, item, stack, start, stop⟩ := w
  obtain ⟨hempty, hlt⟩ := not_or.1 hdone
  obtain rfl : stack = [] := not_not.1 hempty
  obtain ⟨⟨hle, hstop, -⟩, -⟩ := hw.halved
  obtain ⟨P, X, Q, hitem, hP, hX⟩ := exists_range item start stop hle (hw.perm.length_eq ▸ hstop)
  rw [← hw.finish]
  show item = sortRange C item (start, stop)
  rw [sortRange_append hitem hP hX, quicksort_of_lt (by dsimp only at hlt; omega), hitem]

/-- **The outer loop ends**, within two rounds for each element, and leaves what `quicksort` makes.
-/
theorem loop_spec {l : List α} (hcmp : Agrees cmp C S) (hS : ∀ a ∈ l, a ∈ S)
    (hsize : l.length < 2 ^ 32) : ∀ {n : ℕ} {w : Work σ α}, Sorting C l w →
      rounds w.ranges ≤ n + 1 →
        ∃ w', (∀ fuel, n ≤ fuel → loop cmp fuel w = some w') ∧ w'.item = quicksort C l := by
  intro n
  induction n with
  | zero =>
    intro w hw hn
    have hdone : ¬(w.stack ≠ [] ∨ 1 < w.stop - w.start) := by
      simp only [rounds, Work.ranges, map_cons, sum_cons, length_cons] at hn
      exact not_or.2 ⟨not_not.2 (length_eq_zero_iff.1 (by omega)), by omega⟩
    refine ⟨w, fun fuel _ ↦ ?_, hw.done hdone⟩
    cases fuel <;> rw [loop, if_neg hdone]
  | succ n ih =>
    intro w hw hn
    by_cases hmore : w.stack ≠ [] ∨ 1 < w.stop - w.start
    · obtain ⟨w', hround, hw', hlt⟩ := round_spec hcmp hS hsize hw hmore
      obtain ⟨w'', hloop, hitem⟩ := ih hw' (by omega)
      refine ⟨w'', fun fuel hfuel ↦ ?_, hitem⟩
      obtain ⟨fuel, rfl⟩ := Nat.exists_eq_add_of_le' hfuel
      rw [← Nat.add_assoc, loop, if_pos hmore, hround, bind_some]
      exact hloop _ (Nat.le_add_left _ _)
    · refine ⟨w, fun fuel _ ↦ ?_, hw.done hmore⟩
      cases fuel <;> rw [loop, if_neg hmore]

theorem sort_spec {l : List α} (hcmp : Agrees cmp C S) (hS : ∀ a ∈ l, a ∈ S)
    (hsize : l.length < 2 ^ 32) (world : σ) :
    ∃ w', (∀ fuel, 2 * l.length ≤ fuel → loop cmp fuel ⟨world, l, [], 0, l.length⟩ = some w') ∧
      w'.item = quicksort C l :=
  loop_spec hcmp hS hsize (sorting_start C world l) (by simp [rounds, Work.ranges])

end Loop

/-! ### The order of values -/

/-- Whether a value comes before another one: by their types, and those of one type by their values,
which are the bytes of a string. Other values of one type have no order, nor has a float that is
not a number. -/
def before : Svalue → Svalue → Bool
  | .number m, .number n => m.toInt < n.toInt
  | .float x, .float y => !x.isNaN && !y.isNaN && rank x < rank y
  | .string s, .string t => s.bytes.map UInt8.toNat < t.bytes.map UInt8.toNat
  | a, b => type a < type b

/-- No value comes before one that it stands after. -/
def Ascending (item : List Svalue) : Prop :=
  item.Pairwise fun a b ↦ before b a = false

/-- A value's place among all: its type, its value if that is a number, and its bytes. -/
def key : Svalue → ℤ ×ₗ ℤ ×ₗ List ℕ
  | .number n => toLex (type (.number n), toLex (n.toInt, []))
  | .float x => toLex (type (.float x), toLex (rank x, []))
  | .string s => toLex (type (.string s), toLex (0, s.bytes.map UInt8.toNat))
  | a => toLex (type a, toLex (0, []))

/-- A float that is not a number. -/
def isNaN : Svalue → Bool
  | .float x => x.isNaN
  | _ => false

theorem before_iff {a b : Svalue} :
    before a b = true ↔ key a < key b ∧ (type a = type b → isNaN a = false ∧ isNaN b = false) := by
  cases a <;> cases b <;> simp [before, key, type, isNaN, Prod.Lex.toLex_lt_toLex]
  exact and_comm

theorem type_le_of_key_le {a b : Svalue} (h : key a ≤ key b) : type a ≤ type b := by
  have hkey : ∀ v, (ofLex (key v)).1 = type v := fun v ↦ by cases v <;> rfl
  rw [← hkey a, ← hkey b]
  exact Prod.Lex.monotone_fst _ _ h

theorem before_of_type_lt {a b : Svalue} (h : type a < type b) : before a b = true :=
  before_iff.2 ⟨lt_of_not_ge fun hle ↦ absurd (type_le_of_key_le hle) h.not_ge,
    fun heq ↦ absurd heq h.ne⟩

theorem before_asymm {a b : Svalue} (h : before a b = true) : before b a = false :=
  Bool.eq_false_iff.2 fun h' ↦ lt_asymm (before_iff.1 h).1 (before_iff.1 h').1

theorem before_trans {a b c : Svalue} (hab : before a b = true) (hbc : before b c = true) :
    before a c = true := by
  obtain ⟨hkab, hnab⟩ := before_iff.1 hab
  obtain ⟨hkbc, hnbc⟩ := before_iff.1 hbc
  refine before_iff.2 ⟨hkab.trans hkbc, fun hac ↦ ?_⟩
  have htab := type_le_of_key_le hkab.le
  have htbc := type_le_of_key_le hkbc.le
  exact ⟨(hnab (by omega)).1, (hnbc (by omega)).2⟩

theorem before_or {a b c : Svalue} (hab : before a b = true) (hc : isNaN c = false) :
    before a c = true ∨ before c b = true := by
  obtain ⟨hkab, hnab⟩ := before_iff.1 hab
  have htab := type_le_of_key_le hkab.le
  obtain hac | hca := lt_or_ge (key a) (key c)
  · by_cases htype : type a = type c → isNaN a = false
    · exact .inl (before_iff.2 ⟨hac, fun heq ↦ ⟨htype heq, hc⟩⟩)
    · -- `a` is a NaN, so `b` is of another type, which comes after that of `c` too
      obtain ⟨heq, hnan⟩ := not_forall.1 htype
      have hne : type a ≠ type b := fun heq' ↦ hnan (hnab heq').1
      exact .inr (before_of_type_lt (by omega))
  · have htca := type_le_of_key_le hca
    exact .inr (before_iff.2 ⟨hca.trans_lt hkab, fun heq ↦ ⟨hc, (hnab (by omega)).2⟩⟩)

/-! ### The built-in comparison -/

/-- The difference of two values fits into an `int`, if they are integers. -/
def Fits : Svalue → Svalue → Prop
  | .number m, .number n => -2 ^ 31 ≤ m.toInt - n.toInt ∧ m.toInt - n.toInt < 2 ^ 31
  | _, _ => True

theorem sub_signs (x y : ℤ) :
    (x - y < 0 ↔ decide (x < y) = true) ∧ (0 < x - y ↔ decide (y < x) = true) := by
  rw [decide_eq_true_iff, decide_eq_true_iff]
  omega

/-- `strcmp` agrees with the order, of bytes without a NUL. -/
theorem strcmp_spec : ∀ {s t : Bytes}, 0 ∉ s → 0 ∉ t →
    (0 < strcmp s t ↔ t.map UInt8.toNat < s.map UInt8.toNat) ∧
      (strcmp s t < 0 ↔ s.map UInt8.toNat < t.map UInt8.toNat)
  | [], [], _, _ => by simp [strcmp]
  | [], b :: t, _, ht => by
    have hb : b.toNat ≠ 0 := fun h ↦ ne_of_not_mem_cons ht (UInt8.toNat_inj.1 h).symm
    have hlt : ([] : List ℕ) < b.toNat :: t.map UInt8.toNat := nil_lt_cons _ _
    rw [strcmp, map_nil, map_cons]
    exact ⟨iff_of_false (by omega) (not_lt.2 hlt.le), iff_of_true (by omega) hlt⟩
  | a :: s, [], hs, _ => by
    have ha : a.toNat ≠ 0 := fun h ↦ ne_of_not_mem_cons hs (UInt8.toNat_inj.1 h).symm
    have hlt : ([] : List ℕ) < a.toNat :: s.map UInt8.toNat := nil_lt_cons _ _
    rw [strcmp, map_nil, map_cons]
    exact ⟨iff_of_true (by omega) hlt, iff_of_false (by omega) (not_lt.2 hlt.le)⟩
  | a :: s, b :: t, hs, ht => by
    rw [strcmp, map_cons, map_cons, cons_lt_cons_iff, cons_lt_cons_iff]
    split
    case isTrue heq =>
      subst heq
      obtain ⟨hpos, hneg⟩ := strcmp_spec (not_mem_of_not_mem_cons hs)
        (not_mem_of_not_mem_cons ht)
      simp [hpos, hneg]
    case isFalse hne =>
      have hne' : a.toNat ≠ b.toNat := fun h ↦ hne (UInt8.toNat_inj.1 h)
      constructor <;> omega

theorem compareItems_spec {a h : Svalue} (hfits : Fits a h) :
    (compareItems a h < 0 ↔ before a h = true) ∧ (0 < compareItems a h ↔ before h a = true) := by
  cases a <;> cases h
  case number.number m n =>
    rw [compareItems, BitVec.toInt_sub, Int.bmod_eq_of_le hfits.1 hfits.2]
    exact sub_signs _ _
  case float.float x y =>
    rw [compareItems, before, before, subtract]
    obtain hnan | hnan := Bool.eq_false_or_eq_true (x.isNaN || y.isNaN)
    · rw [if_pos hnan]
      obtain hx | hy := Bool.or_eq_true_iff.1 hnan
      · simp [hx]
      · simp [hy]
    · obtain ⟨hx, hy⟩ := Bool.or_eq_false_iff.1 hnan
      rw [if_neg (Bool.eq_false_iff.1 hnan)]
      simp only [hx, hy, Int.sign_neg_iff, Int.sign_pos_iff, Bool.not_false, Bool.true_and,
        decide_eq_true_iff]
      split_ifs <;> omega
  case string.string s t =>
    obtain ⟨hpos, hneg⟩ := strcmp_spec s.noNul t.noNul
    exact ⟨hneg.trans decide_eq_true_iff.symm, hpos.trans decide_eq_true_iff.symm⟩
  all_goals exact sub_signs _ _

theorem compareItems_wrong {a h : Svalue} (hfits : ¬Fits a h) :
    (compareItems a h < 0 ∧ before h a = true) ∨ (0 < compareItems a h ∧ before a h = true) := by
  cases a <;> cases h <;> try exact absurd trivial hfits
  case number.number m n =>
    have hm := BitVec.toInt_lt (x := m)
    have hm' := BitVec.le_toInt (x := m)
    have hn := BitVec.toInt_lt (x := n)
    have hn' := BitVec.le_toInt (x := n)
    rw [Fits] at hfits
    rw [compareItems, BitVec.toInt_sub, before, before, decide_eq_true_iff,
      decide_eq_true_iff]
    rw [Int.bmod_def]
    omega

/-- The built-in comparison. -/
def builtin : Comparison Svalue where
  cmp a h := compare (compareItems a h) 0
  cmp_self a := by
    have hfits : Fits a a := by cases a <;> simp [Fits]
    obtain ⟨hneg, hpos⟩ := compareItems_spec hfits
    have hself : before a a = false := Bool.eq_false_iff.2 fun h ↦
      absurd ((before_asymm h).symm.trans h) nofun
    rw [hself] at hneg hpos
    refine compare_eq_iff_eq.2 (le_antisymm (not_lt.1 fun h ↦ ?_) (not_lt.1 fun h ↦ ?_))
    · exact absurd (hpos.1 h) nofun
    · exact absurd (hneg.1 h) nofun

/-- When the partition of a range goes right: the integers in it are compared with the one in the
middle without a wrap-around, and if that is a float that is not a number, to which every float
seems equal, the floats come to stand in order. -/
structure Sound (x : List Svalue) (hx : 2 ≤ x.length) : Prop where
  fits : ∀ a ∈ x, Fits a (pivot x hx)
  floats : isNaN (pivot x hx) = true → Ascending (parts builtin x hx).equal

theorem compare_lt_zero {i : ℤ} : compare i 0 = .lt ↔ i < 0 := compare_lt_iff_lt

theorem compare_gt_zero {i : ℤ} : compare i 0 = .gt ↔ 0 < i := compare_gt_iff_gt

theorem ordered_iff {x : List Svalue} {hx : 2 ≤ x.length} :
    Ordered (fun a b ↦ before b a = false) (parts builtin x hx) ↔ Sound x hx := by
  have hplaced := split_placed (C := builtin) (h := pivot x hx) (l := x)
  have hperm := split_perm (C := builtin) (h := pivot x hx) (l := x)
  have hpivot := mem_split_equal (C := builtin) (pivot_mem hx)
  rw [← parts] at hplaced hperm hpivot
  constructor
  · intro hord
    refine ⟨fun a ha ↦ ?_, fun _ ↦ hord.equal⟩
    by_contra hfits
    -- it is on the wrong side of the pivot, which stands in the middle
    obtain ⟨hneg, hbefore⟩ | ⟨hpos, hbefore⟩ := compareItems_wrong hfits
    · have hlt : builtin.cmp a (pivot x hx) = .lt := compare_lt_zero.2 hneg
      have hless : a ∈ (parts builtin x hx).less := by
        simpa [hlt, parts] using mem_split (C := builtin) (h := pivot x hx) ha
      cases (hord.less_equal a hless _ hpivot).symm.trans hbefore
    · have hgt : builtin.cmp a (pivot x hx) = .gt := compare_gt_zero.2 hpos
      have hgreater : a ∈ (parts builtin x hx).greater := by
        simpa [hgt, parts] using mem_split (C := builtin) (h := pivot x hx) ha
      cases (hord.equal_greater _ hpivot a hgreater).symm.trans hbefore
  · rintro ⟨hfits, hfloats⟩
    have hless : ∀ a ∈ (parts builtin x hx).less, before a (pivot x hx) = true := fun a ha ↦
      (compareItems_spec (hfits a (hperm.subset (by simp [ha])))).1.1
        (compare_lt_zero.1 (hplaced.less a ha))
    have hgreater : ∀ a ∈ (parts builtin x hx).greater, before (pivot x hx) a = true := fun a ha ↦
      (compareItems_spec (hfits a (hperm.subset (by simp [ha])))).2.1
        (compare_gt_zero.1 (hplaced.greater a ha))
    have hequal : ∀ a ∈ (parts builtin x hx).equal,
        before a (pivot x hx) = false ∧ before (pivot x hx) a = false := by
      intro a ha
      obtain ⟨hneg, hpos⟩ := compareItems_spec (hfits a (hperm.subset (by simp [ha])))
      have hzero : compareItems a (pivot x hx) = 0 := compare_eq_iff_eq.1 (hplaced.equal a ha)
      rw [hzero] at hneg hpos
      exact ⟨Bool.eq_false_iff.2 fun h ↦ absurd (hneg.2 h) (by rintro ⟨⟩),
        Bool.eq_false_iff.2 fun h ↦ absurd (hpos.2 h) (by rintro ⟨⟩)⟩
    refine ⟨?_, fun a ha b hb ↦ ?_, fun a ha b hb ↦ ?_, fun a ha b hb ↦ ?_⟩
    · by_cases hnan : isNaN (pivot x hx) = true
      · exact hfloats hnan
      · refine pairwise_of_forall_mem_list fun a ha b hb ↦ Bool.eq_false_iff.2 fun hab ↦ ?_
        obtain h | h := before_or hab (Bool.eq_false_iff.2 hnan)
        · cases (hequal b hb).1.symm.trans h
        · cases (hequal a ha).2.symm.trans h
    · exact Bool.eq_false_iff.2 fun h ↦
        absurd ((hequal b hb).1.symm.trans (before_trans h (hless a ha))) (by rintro ⟨⟩)
    · exact before_asymm (before_trans (hless a ha) (hgreater b hb))
    · exact Bool.eq_false_iff.2 fun h ↦
        absurd ((hequal a ha).2.symm.trans (before_trans (hgreater b hb) h)) (by rintro ⟨⟩)

/-- The comparison that a total preorder makes. -/
def ofPreorder (le : Svalue → Svalue → Prop) [DecidableRel le] (hrefl : ∀ a, le a a) :
    Comparison Svalue where
  cmp a b := if ¬le b a then .lt else if ¬le a b then .gt else .eq
  cmp_self a := by simp [hrefl a]

/-- What is promised of a function that is given: it returns a negative integer, 0 or a positive
one as the first value comes before the second one, with it or after it, whenever it is called with
elements of the array. -/
def Consistent {σ : Type} (callVar : σ → Addr → Svalue → Svalue → Svalue × σ) (func : Addr)
    (item : List Svalue) (le : Svalue → Svalue → Prop) : Prop :=
  ∀ world, ∀ a ∈ item, ∀ b ∈ item,
    ((compareCall callVar func world a b).1 < 0 ↔ ¬le b a) ∧
      (0 < (compareCall callVar func world a b).1 ↔ ¬le a b)

/-- **`sort` sorts**: it ends, within two rounds of its loop for each element and without leaving
the array or its stack, and what it leaves has the same elements. By a function that goes with a
total preorder they are in order. By the built-in comparison they are, exactly if in each range that
is partitioned the integers are compared with the one in the middle without a wrap-around, and if
the floats around one that is not a number come to stand in order; if all floats of the array are
numbers, it is the first condition alone, which holds in any case if all integers of the array are
less than `2 ^ 31` apart. -/
theorem efunSort_sorts {σ : Type} (callVar : σ → Addr → Svalue → Svalue → Svalue × σ) (world : σ)
    (vec : Addr) (item : List Svalue) (hsize : item.length < 2 ^ 15) :
    (∀ (func : Addr) (le : Svalue → Svalue → Prop), (∀ a b, le a b ∨ le b a) →
        (∀ a b c, le a b → le b c → le a c) → Consistent callVar func item le →
          ∃ sorted world', sorted.Perm item ∧ sorted.Pairwise le ∧
            ∀ fuel, 2 * item.length ≤ fuel →
              efunSort callVar fuel world (.pointer vec item) (.function func) =
                some (.pointer vec sorted, world')) ∧
      (∀ fp, (∀ func, fp ≠ .function func) → ∃ sorted, sorted.Perm item ∧
        (∀ fuel, 2 * item.length ≤ fuel →
          efunSort callVar fuel world (.pointer vec item) fp =
            some (.pointer vec sorted, world)) ∧
        (Ascending sorted ↔
          ∀ x ∈ ranges builtin item, ∀ hx : 2 ≤ x.length, Sound x hx)) ∧
      ((∀ a ∈ item, isNaN a = false) → ∀ x ∈ ranges builtin item, ∀ hx : 2 ≤ x.length,
        (Sound x hx ↔ ∀ a ∈ x, Fits a (pivot x hx))) ∧
      ((∀ a ∈ item, isNaN a = false ∧ ∀ b ∈ item, Fits a b) →
        ∀ x ∈ ranges builtin item, ∀ hx : 2 ≤ x.length, Sound x hx) := by
  have hsize' : item.length < 2 ^ 32 := hsize.trans (by decide)
  have hnumbers (hnan : ∀ a ∈ item, isNaN a = false) (x : List Svalue)
      (hx : x ∈ ranges builtin item) (hlen : 2 ≤ x.length) :
      Sound x hlen ↔ ∀ a ∈ x, Fits a (pivot x hlen) :=
    ⟨Sound.fits, fun hfits ↦ ⟨hfits, fun h ↦
      absurd ((hnan _ (subset_of_mem_ranges hx (pivot_mem hlen))).symm.trans h) nofun⟩⟩
  refine ⟨fun func le htotal htrans hcons ↦ ?_, fun fp hfp ↦ ?_, hnumbers, fun hitem x hx hlen ↦ ?_⟩
  · classical
    have hrefl : ∀ a, le a a := fun a ↦ (htotal a a).elim id id
    have hagrees : Agrees (compareCall callVar func) (ofPreorder le hrefl) {a | a ∈ item} := by
      intro world a ha b hb
      obtain ⟨hneg, hpos⟩ := hcons world a ha b hb
      show _ = if ¬le b a then Ordering.lt else if ¬le a b then .gt else .eq
      split_ifs with hba hab
      · have hge : ¬(compareCall callVar func world a b).1 < 0 := fun h ↦ hneg.1 h hba
        have hle : ¬0 < (compareCall callVar func world a b).1 := fun h ↦ hpos.1 h hab
        exact compare_eq_iff_eq.2 (by omega)
      · exact compare_gt_zero.2 (hpos.2 hab)
      · exact compare_lt_zero.2 (hneg.2 hba)
    obtain ⟨w, hloop, hsorted⟩ := sort_spec hagrees (fun a ha ↦ ha) hsize' world
    refine ⟨w.item, w.world, hsorted ▸ quicksort_perm item, ?_, fun fuel hfuel ↦ ?_⟩
    · rw [hsorted]
      refine pairwise_of_preorder (fun {a b c} ↦ htrans a b c) (fun a _ b _ hcmp ↦ ?_)
        fun a _ b _ hcmp ↦ ?_
      · by_contra hab
        exact hcmp (by simp [ofPreorder, hab, (htotal a b).resolve_left hab])
      · by_contra hba
        exact hcmp (by simp [ofPreorder, hba])
    · rw [efunSort, hloop fuel hfuel]
      rfl
  · have hagrees : Agrees (fun (_ : Unit) a h ↦ (compareItems a h, ())) builtin {a | a ∈ item} :=
      fun _ _ _ _ _ ↦ rfl
    obtain ⟨w, hloop, hsorted⟩ := sort_spec hagrees (fun a ha ↦ ha) hsize' ()
    refine ⟨w.item, hsorted ▸ quicksort_perm item, fun fuel hfuel ↦ ?_, ?_⟩
    · have hcase : efunSort callVar fuel world (.pointer vec item) fp =
          (loop (fun _ a h ↦ (compareItems a h, ())) fuel ⟨(), item, [], 0, item.length⟩).bind
            fun w ↦ some (.pointer vec w.item, world) := by
        cases fp <;> first | rfl | exact absurd rfl (hfp _)
      rw [hcase, hloop fuel hfuel]
      rfl
    · rw [hsorted, Ascending, pairwise_quicksort]
      simp only [ordered_iff]
  · have hsub := subset_of_mem_ranges hx
    exact (hnumbers (fun a ha ↦ (hitem a ha).1) x hx hlen).2 fun a ha ↦
      (hitem a (hsub ha)).2 _ (hsub (pivot_mem hlen))

/-- What the values are compared by here: an integer by itself, anything else like 0. -/
def numberOf : Svalue → ℤ
  | .number n => n.toInt
  | _ => 0

/-- A function that sorts by `numberOf`. -/
def byNumber (_ : Unit) (_ : Addr) (a b : Svalue) : Svalue × Unit :=
  (.number (if numberOf a < numberOf b then -1 else if numberOf b < numberOf a then 1 else 0), ())

/-- Three values of three types, sorted by `byNumber` and by the built-in comparison. -/
theorem efunSort_sorts_three :
    (∃ sorted world', sorted.Perm [.string ⟨[98], by decide⟩, .number 3, .number (-7)] ∧
      sorted.Pairwise (numberOf · ≤ numberOf ·) ∧ ∀ fuel, 6 ≤ fuel → efunSort byNumber fuel ()
        (.pointer 1 [.string ⟨[98], by decide⟩, .number 3, .number (-7)]) (.function 16) =
          some (.pointer 1 sorted, world')) ∧
    ∃ sorted, sorted.Perm [.string ⟨[98], by decide⟩, .number 3, .number (-7)] ∧
      ∀ fuel, 6 ≤ fuel → efunSort byNumber fuel ()
        (.pointer 1 [.string ⟨[98], by decide⟩, .number 3, .number (-7)]) const0 =
          some (.pointer 1 sorted, ()) := by
  have hsorts := efunSort_sorts byNumber () 1
    [.string ⟨[98], by decide⟩, .number 3, .number (-7)] (by decide)
  refine ⟨hsorts.1 16 (numberOf · ≤ numberOf ·) (fun _ _ ↦ le_total ..) (fun _ _ _ ↦ le_trans)
    fun world a _ b _ ↦ ?_, ?_⟩
  · have hcall : (compareCall byNumber 16 world a b).1 =
        if numberOf a < numberOf b then -1 else if numberOf b < numberOf a then 1 else 0 := by
      rw [compareCall, byNumber]
      split_ifs <;> rfl
    rw [hcall, not_le, not_le]
    split_ifs with hab hba <;> constructor <;> omega
  · obtain ⟨sorted, hperm, hrun, -⟩ := hsorts.2.1 const0 nofun
    exact ⟨sorted, hperm, hrun⟩

/-- The smallest integer comes after 1: their difference wraps around. -/
theorem efunSort_wraps :
    efunSort (fun (_ : Unit) _ _ _ ↦ (const0, ())) 4 ()
        (.pointer 1 [.number (BitVec.intMin 32), .number 1]) const0 =
      some (.pointer 1 [.number 1, .number (BitVec.intMin 32)], ()) ∧
    ¬Ascending [.number 1, .number (BitVec.intMin 32)] := by
  refine ⟨rfl, fun h ↦ ?_⟩
  exact absurd (rel_of_pairwise_cons h (mem_singleton.2 rfl)) (by decide)

/-! ### Any comparison -/

section Any

variable {σ α : Type} (cmp : σ → α → α → ℤ × σ) {l : List α} {start stop : ℕ}

/-- The rounds of the outer loop, of a sort of `l`. -/
def sorting (l : List α) : TransitionSystem (Work σ α) Unit where
  Init w := ∃ world, w = ⟨world, l, [], 0, l.length⟩
  Step w _ w' := (w.stack ≠ [] ∨ 1 < w.stop - w.start) ∧ round cmp w = some w'

theorem exists_exchange {item : List α} {i j : ℕ} (hperm : item.Perm l) (hi : i < l.length)
    (hj : j < l.length) : ∃ item', exchange item i j = some item' ∧ item'.Perm l := by
  rw [← hperm.length_eq] at hi hj
  refine ⟨_, ?_, (set_set_perm hi hj).trans hperm⟩
  rw [exchange, List.getElem?_eq_getElem hi, List.getElem?_eq_getElem hj]
  rfl

/-- The inner loop keeps to its range, and the array to its elements. -/
structure Within (l : List α) (start stop : ℕ) (s : Scan σ α) : Prop where
  perm : s.item.Perm l
  bounds : start ≤ s.l ∧ s.l ≤ s.c ∧ s.c ≤ s.r ∧ s.r ≤ stop

theorem scanRound_within (h : α) {s : Scan σ α} (hs : Within l start stop s)
    (hstop : stop ≤ l.length) (hlt : s.c < s.r) :
    ∃ s', scanRound cmp h s = some s' ∧ Within l start stop s' ∧ s'.r - s'.c + 1 = s.r - s.c := by
  obtain ⟨hperm, hl, hc, hr, hend⟩ := hs
  have hlen : s.c < s.item.length := hperm.length_eq ▸ (by omega)
  obtain ⟨item, hless, hless'⟩ := exists_exchange hperm (i := s.l) (j := s.c) (by omega) (by omega)
  obtain ⟨item', hmore, hmore'⟩ :=
    exists_exchange hperm (i := s.r - 1) (j := s.c) (by omega) (by omega)
  simp only [scanRound, List.getElem?_eq_getElem hlen, bind_eq_bind, bind_some, hless,
    hmore]
  split_ifs
  · exact ⟨_, rfl, ⟨hless', by dsimp only; omega⟩, by dsimp only; omega⟩
  · exact ⟨_, rfl, ⟨hmore', by dsimp only; omega⟩, by dsimp only; omega⟩
  · exact ⟨_, rfl, ⟨hperm, by dsimp only; omega⟩, by dsimp only; omega⟩

theorem scan_within (h : α) (hstop : stop ≤ l.length) : ∀ {n : ℕ} {s : Scan σ α},
    Within l start stop s → s.r - s.c ≤ n →
      ∃ s', scan cmp h n s = some s' ∧ Within l start stop s' ∧ s'.c = s'.r := by
  intro n
  induction n with
  | zero =>
    intro s hs hn
    have hbounds := hs.bounds
    exact ⟨s, rfl, hs, by omega⟩
  | succ n ih =>
    intro s hs hn
    have hbounds := hs.bounds
    rw [scan]
    split
    next hlt =>
      obtain ⟨s₁, hround, hs₁, hdist⟩ := scanRound_within cmp h hs hstop hlt
      rw [hround]
      exact ih hs₁ (by omega)
    next => exact ⟨s, rfl, hs, by omega⟩

theorem round_within {w : Work σ α} (hsize : l.length < 2 ^ 32)
    (hw : w.item.Perm l ∧ Halved l.length w.ranges)
    (hmore : w.stack ≠ [] ∨ 1 < w.stop - w.start) :
    ∃ w', round cmp w = some w' ∧ w'.item.Perm l ∧ Halved l.length w'.ranges := by
  obtain ⟨world, item, stack, start, stop⟩ := w
  obtain ⟨hperm, ⟨hle, hstop, hhalf⟩, hstack⟩ := hw
  dsimp only at hmore hperm hle hstop hhalf
  rw [round]
  dsimp only
  obtain hlt | hge := Nat.lt_or_ge (stop - start) 2
  · rw [if_pos hlt]
    cases stack with
    | nil => exact absurd (hmore.resolve_left fun h ↦ h rfl) (by omega)
    | cons range stack => exact ⟨_, rfl, hperm, hstack⟩
  · rw [if_neg (Nat.not_lt.2 hge)]
    have hmid : (start + stop) / 2 < item.length := by
      rw [hperm.length_eq]
      omega
    obtain ⟨s, hscan, ⟨hperm', hl, hc, hr, hend⟩, heq⟩ := scan_within cmp item[(start + stop) / 2]
      hstop (s := ⟨world, item, start, start, stop⟩) ⟨hperm, le_rfl, le_rfl, hle, le_rfl⟩ le_rfl
    -- a range of two or more has fewer than 32 below it
    have hpow : 2 ^ stack.length * 2 ≤ l.length :=
      (Nat.mul_le_mul_left _ (hge.trans hhalf)).trans (Nat.mul_div_le _ _)
    have hdepth : stack.length < QS_MAX_REC := by
      rw [← Nat.pow_succ] at hpow
      exact Nat.lt_of_succ_lt ((Nat.pow_lt_pow_iff_right (by decide)).1 (hpow.trans_lt hsize))
    have hhalf' (m : ℕ) (hm : 2 * m ≤ stop - start) : m ≤ l.length / 2 ^ (stack.length + 1) := by
      rw [Nat.pow_succ, ← Nat.div_div_eq_div_mul]
      omega
    dsimp only at hscan hl
    simp only [List.getElem?_eq_getElem hmid, bind_eq_bind, bind_some, hscan,
      if_pos hdepth]
    refine ⟨_, rfl, ?_⟩
    have hll : s.l ≤ l.length := by omega
    have hcs : s.c ≤ stop := by omega
    rw [push]
    split
    next hsmall =>
      exact ⟨hperm', ⟨hl, hll, hhalf' (s.l - start) (by omega)⟩,
        ⟨hcs, hstop, show stop - s.c ≤ _ by omega⟩, hstack⟩
    next hsmall =>
      exact ⟨hperm', ⟨hcs, hstop, hhalf' (stop - s.c) (by omega)⟩,
        ⟨hl, hll, show s.l - start ≤ _ by omega⟩, hstack⟩

/-- **Whatever the comparison answers**, and whatever it does: in every round the array has the
elements that it had at first, each as often as before, no access is outside of it, and there is a
place on the stack for every range. -/
theorem sorting_safe (hsize : l.length < 2 ^ 32) {w : Work σ α}
    (hw : (sorting cmp l).Reachable w) : w.item.Perm l ∧
      (w.stack ≠ [] ∨ 1 < w.stop - w.start → ∃ w', round cmp w = some w') := by
  have hinv : w.item.Perm l ∧ Halved l.length w.ranges := by
    refine hw.invariant (I := fun w ↦ w.item.Perm l ∧ Halved l.length w.ranges) ?_ ?_
    · rintro _ ⟨world, rfl⟩
      exact ⟨.refl l, ⟨Nat.zero_le _, le_rfl, (Nat.div_one _).ge⟩, trivial⟩
    · rintro w - w' hw ⟨hmore, hround⟩
      obtain ⟨w₁, hround₁, hw₁⟩ := round_within cmp hsize hw hmore
      obtain rfl := some.inj (hround.symm.trans hround₁)
      exact hw₁
  refine ⟨hinv.1, fun hmore ↦ ?_⟩
  obtain ⟨w', hround, -⟩ := round_within cmp hsize hinv hmore
  exact ⟨w', hround⟩

end Any

/-- A comparison that finds every element less than every other one, after a round: the whole array
has been pushed. -/
theorem sorting_safe_less : ∃ w', round (fun (_ : Unit) (_ _ : ℕ) ↦ (-1, ()))
    ⟨(), [4, 3, 2, 1], [(0, 4)], 4, 4⟩ = some w' := by
  have hinit : (sorting (fun (_ : Unit) (_ _ : ℕ) ↦ (-1, ())) [4, 3, 2, 1]).Reachable
      ⟨(), [4, 3, 2, 1], [], 0, 4⟩ := .init ⟨(), rfl⟩
  exact (sorting_safe _ (by decide) (hinit.step (a := ()) ⟨.inr (by decide), rfl⟩)).2 (.inl nofun)

end Lpmud.Sort
