import Mathlib.Algebra.Order.BigOperators.Group.List

/-!
# Columns that are read row by row

Columns that may have different lengths are read row by row: the first elements of the columns from
the left, up to the first column that is empty. This is over when the leftmost column is empty.

Nothing is read twice (`perm_cells_below`), and columns that are not longer than those to the left
of them are read completely (`exists_rows`).
-/

universe u

namespace Ragged

open List

variable {α : Type u}

/-- A row. -/
def cells : List (List α) → List α
  | (a :: _) :: cols => a :: cells cols
  | _ => []

/-- The columns below it. -/
def below : List (List α) → List (List α)
  | (_ :: col) :: cols => col :: below cols
  | cols => cols

/-- The rows, as far as they are read before the first column is empty. -/
def rows : ℕ → List (List α) → Option (List (List α))
  | 0, _ => none
  | fuel + 1, cols =>
    if (below cols).headD [] = [] then some [cells cols]
    else (rows fuel (below cols)).map (cells cols :: ·)

variable {cols rs : List (List α)} {fuel : ℕ}

theorem perm_cells_below (cols : List (List α)) :
    (cells cols ++ (below cols).flatten).Perm cols.flatten := by
  induction cols with
  | nil => exact .refl _
  | cons col cols ih =>
    cases col with
    | nil => exact .refl _
    | cons a col =>
      rw [cells, below, flatten_cons, flatten_cons, cons_append, cons_append]
      exact ((perm_append_comm_assoc _ _ _).trans (ih.append_left col)).cons a

/-- **Nothing is read twice.** -/
theorem length_flatten_le_of_rows (h : rows fuel cols = some rs) :
    rs.flatten.length ≤ cols.flatten.length := by
  induction fuel generalizing cols rs with
  | zero => exact nomatch h
  | succ fuel ih =>
    have hperm := (perm_cells_below cols).length_eq
    rw [length_append] at hperm
    rw [rows] at h
    split at h
    next =>
      obtain rfl := Option.some.inj h
      rw [flatten_singleton]
      omega
    next =>
      obtain ⟨rs, hrs, rfl⟩ := Option.map_eq_some_iff.1 h
      have hle := ih hrs
      rw [flatten_cons, length_append]
      omega

theorem length_below (cols : List (List α)) : (below cols).length = cols.length := by
  induction cols with
  | nil => rfl
  | cons col cols ih =>
    cases col with
    | nil => rfl
    | cons a col => exact congrArg (· + 1) ih

theorem take_below_append_drop (k : ℕ) (cols : List (List α)) :
    (below (cols.take k) ++ cols.drop k).take k = below (cols.take k) := by
  have hlen := length_below (cols.take k)
  rw [length_take] at hlen
  obtain hle | hlt := Nat.le_or_ge cols.length k
  · rw [drop_eq_nil_of_le hle, append_nil, take_of_length_le (by omega)]
  · exact take_left' (by omega)

/-- No column is longer than one to the left of it. -/
def Falling (cols : List (List α)) : Prop :=
  cols.Pairwise fun col col' ↦ col'.length ≤ col.length

theorem Falling.of_cons {col : List α} (h : Falling (col :: cols)) : Falling cols :=
  (pairwise_cons.1 h).2

theorem Falling.flatten_eq_nil (h : Falling cols) (hnil : cols.headD [] = []) :
    cols.flatten = [] := by
  cases cols with
  | nil => rfl
  | cons col cols =>
    obtain rfl : col = [] := hnil
    refine flatten_eq_nil_iff.2 (forall_mem_cons.2 ⟨rfl, fun col hcol ↦ ?_⟩)
    exact length_eq_zero_iff.1 (Nat.le_zero.1 ((pairwise_cons.1 h).1 col hcol))

theorem Falling.below_eq (h : Falling cols) : below cols = cols.map List.tail := by
  induction cols with
  | nil => rfl
  | cons col cols ih =>
    cases col with
    | nil =>
      have hnil := flatten_eq_nil_iff.1 (h.flatten_eq_nil rfl)
      have htail : ([] :: cols).map List.tail = ([] :: cols).map id := map_congr_left
        fun col hcol ↦ by rw [hnil col hcol, tail_nil, id]
      rw [htail, map_id]
      rfl
    | cons a col => rw [Ragged.below, ih h.of_cons, map_cons, tail_cons]

theorem Falling.below (h : Falling cols) : Falling (below cols) := by
  rw [h.below_eq]
  refine pairwise_map.2 (List.Pairwise.imp (fun hle ↦ ?_) h)
  rw [length_tail, length_tail]
  exact Nat.sub_le_sub_right hle 1

theorem headD_below (cols : List (List α)) : (below cols).headD [] = (cols.headD []).tail := by
  cases cols with
  | nil => rfl
  | cons col cols =>
    cases col with
    | nil => rfl
    | cons a col => rfl

theorem Falling.perm_cells (h : Falling cols) (hnil : (Ragged.below cols).headD [] = []) :
    (cells cols).Perm cols.flatten := by
  have hperm := perm_cells_below cols
  rwa [h.below.flatten_eq_nil hnil, append_nil] at hperm

/-- **All of them are read.** -/
theorem exists_rows (h : Falling cols) :
    ∃ fuel rs, rows fuel cols = some rs ∧ rs.flatten.Perm cols.flatten := by
  obtain ⟨n, hn⟩ : ∃ n, (cols.headD []).length = n := ⟨_, rfl⟩
  induction n generalizing cols with
  | zero =>
    have hnil : (below cols).headD [] = [] := by
      rw [headD_below, length_eq_zero_iff.1 hn, tail_nil]
    refine ⟨1, [cells cols], by rw [rows, if_pos hnil], ?_⟩
    rw [flatten_singleton]
    exact h.perm_cells hnil
  | succ n ih =>
    have hlen : ((below cols).headD []).length = n := by
      rw [headD_below, length_tail, hn, Nat.add_sub_cancel]
    obtain hnil | hnil := em ((below cols).headD [] = [])
    · refine ⟨1, [cells cols], by rw [rows, if_pos hnil], ?_⟩
      rw [flatten_singleton]
      exact h.perm_cells hnil
    · obtain ⟨fuel, rs, hrs, hrest⟩ := ih h.below hlen
      refine ⟨fuel + 1, cells cols :: rs, by rw [rows, if_neg hnil, hrs, Option.map_some], ?_⟩
      rw [flatten_cons]
      exact (hrest.append_left (cells cols)).trans (perm_cells_below cols)

/-! ### Cutting a list into columns -/

/-- A list is cut into columns: `cols` times one is cut off, the first one with `first` elements,
the others with `len`, as long as something is left behind it. -/
def cut (len : ℕ) : (cols first : ℕ) → List α → List (List α)
  | 0, _, l => [l]
  | cols + 1, first, l =>
    if l.length ≤ first then [l] else l.take first :: cut len cols len (l.drop first)

theorem flatten_cut (len cols first : ℕ) (l : List α) : (cut len cols first l).flatten = l := by
  induction cols generalizing first l with
  | zero => exact flatten_singleton
  | succ cols ih =>
    rw [cut]
    split
    next => exact flatten_singleton
    next => rw [flatten_cons, ih, take_append_drop]

theorem cut_eq {len cols : ℕ} {l : List α} (h : cols * len < l.length) :
    cut len cols len l =
      (List.range cols).map (fun j ↦ (l.drop (j * len)).take len) ++ [l.drop (cols * len)] := by
  induction cols generalizing l with
  | zero => rw [cut, Nat.zero_mul, drop_zero, range_zero, map_nil, nil_append]
  | succ cols ih =>
    rw [Nat.succ_mul] at h
    have hlen : ¬l.length ≤ len := by omega
    have hdrop : cols * len < (l.drop len).length := by
      rw [length_drop]
      omega
    rw [cut, if_neg hlen, ih hdrop, range_succ_eq_map, map_cons, map_map,
      Nat.zero_mul, drop_zero, cons_append, drop_drop, Nat.succ_mul,
      Nat.add_comm len]
    refine congrArg₂ _ rfl (congrArg₂ _ (map_congr_left fun j _ ↦ ?_) rfl)
    rw [drop_drop, Function.comp_apply, Nat.succ_mul, Nat.add_comm len]

end Ragged
