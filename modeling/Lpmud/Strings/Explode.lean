import Lpmud.Object.Save

/-!
# explode and implode

`explode_string` of `array.c` goes through a string twice: it counts the delimiters, to know the
size of the array, and then fills the array. `implode_string` goes through an array twice: it adds
up what the strings need, and then writes them.

A string falls into pieces at the delimiters that are found from left to right (`pieces`). With the
delimiter between them they make up the string (`intercalate_pieces`). The array of `explode` has
all of them, but no empty piece behind a delimiter at the end (`kept`); both of its passes agree
on that, and the size of the array is the number of pieces that are put into it.

The number of delimiters is an `int`; a string with so many that it does not fit cannot be
allocated, or is refused like every one with more than `MAX_ARRAY_SIZE`.
-/

namespace Lpmud.Explode

open List
open Object (MAX_ARRAY_SIZE)

/-! ### Splitting lists -/

section Pieces

variable {α : Type} [DecidableEq α]

/-- The pieces of a list between separators, of which the first begins with `cur`. -/
def pieces (sep : List α) (p cur : List α) : List (List α) :=
  match p with
  | [] => [cur]
  | c :: rest =>
    if sep.isPrefixOf (c :: rest) then cur :: pieces sep (rest.drop (sep.length - 1)) []
    else pieces sep rest (cur ++ [c])
termination_by p.length
decreasing_by all_goals simp only [length_drop, length_cons]; omega

/-- The pieces without an empty one at the end. -/
def kept (l : List (List α)) : List (List α) :=
  if l.getLast? = some [] then l.dropLast else l

variable {sep p cur : List α}

theorem kept_singleton (cur : List α) : kept [cur] = if cur = [] then [] else [cur] := by
  simp [kept]

theorem mem_of_mem_kept {l : List (List α)} (h : cur ∈ kept l) : cur ∈ l := by
  rw [kept] at h
  split at h
  · exact dropLast_subset _ h
  · exact h

theorem kept_cons {l : List (List α)} (hl : l ≠ []) : kept (cur :: l) = cur :: kept l := by
  rw [kept, kept, List.getLast?_cons_of_ne_nil hl, dropLast_cons_of_ne_nil hl]
  split <;> rfl

theorem pieces_ne_nil : pieces sep p cur ≠ [] := by
  fun_induction pieces sep p cur with
  | case1 => exact cons_ne_nil _ _
  | case2 => exact cons_ne_nil _ _
  | case3 _ _ _ _ ih => exact ih

/-- **With the separator between them the pieces are the list.** -/
theorem intercalate_pieces (hsep : sep ≠ []) :
    sep.intercalate (pieces sep p cur) = cur ++ p := by
  fun_induction pieces sep p cur with
  | case1 cur => simp
  | case2 cur c rest hprefix ih =>
    obtain ⟨t, ht⟩ := isPrefixOf_iff_prefix.1 hprefix
    have hrest : c :: rest = sep ++ rest.drop (sep.length - 1) := by
      rcases sep with - | ⟨d, ds⟩
      · exact absurd rfl hsep
      · rw [cons_append, List.cons.injEq] at ht
        rw [length_cons, Nat.add_sub_cancel, ← ht.2, drop_left, cons_append, ht.1]
    rw [intercalate_cons_of_ne_nil pieces_ne_nil, ih, nil_append, hrest,
      ← append_assoc]
  | case3 cur c rest hprefix ih => rw [ih, append_assoc, singleton_append]

theorem mem_of_mem_pieces {piece : List α} (h : piece ∈ pieces sep p cur) {x : α} (hx : x ∈ piece) :
    x ∈ cur ∨ x ∈ p := by
  fun_induction pieces sep p cur with
  | case1 cur =>
    rw [mem_singleton] at h
    exact Or.inl (h ▸ hx)
  | case2 cur c rest hprefix ih =>
    rcases mem_cons.1 h with rfl | h
    · exact Or.inl hx
    · have hrest := (ih h).resolve_left not_mem_nil
      exact Or.inr (mem_cons_of_mem c (mem_of_mem_drop hrest))
  | case3 cur c rest hprefix ih =>
    rcases ih h with hcur | hrest
    · rcases mem_append.1 hcur with hcur | hc
      · exact Or.inl hcur
      · exact Or.inr (mem_singleton.1 hc ▸ mem_cons_self)
    · exact Or.inr (mem_cons_of_mem c hrest)

theorem pieces_append_cons {a : α} {text rest : List α} (h : a ∉ text) :
    pieces [a] (text ++ a :: rest) cur = (cur ++ text) :: pieces [a] rest [] := by
  induction text generalizing cur with
  | nil => rw [nil_append, pieces, if_pos (by simp [List.isPrefixOf])]; simp
  | cons c text ih =>
    obtain ⟨hc, htext⟩ := not_or.1 (mt mem_cons.2 h)
    rw [cons_append, pieces, if_neg (by simpa [List.isPrefixOf] using hc), ih htext]
    simp

theorem pieces_of_notMem {a : α} {text : List α} (h : a ∉ text) :
    pieces [a] text cur = [cur ++ text] := by
  induction text generalizing cur with
  | nil => rw [pieces, append_nil]
  | cons c text ih =>
    obtain ⟨hc, htext⟩ := not_or.1 (mt mem_cons.2 h)
    rw [pieces, if_neg (by simpa [List.isPrefixOf] using hc), ih htext]
    simp

theorem notMem_of_mem_pieces {a : α} {piece : List α} (p : List α) : ∀ {cur : List α}, a ∉ cur →
    piece ∈ pieces [a] p cur → a ∉ piece := by
  induction p with
  | nil =>
    intro cur hcur h
    rw [pieces, mem_singleton] at h
    exact h ▸ hcur
  | cons c rest ih =>
    intro cur hcur h
    rw [pieces] at h
    split at h
    · obtain rfl | h := mem_cons.1 h
      · exact hcur
      · exact ih not_mem_nil h
    · next hc =>
      have hac : a ≠ c := by simpa [List.isPrefixOf] using hc
      refine ih (fun hmem ↦ ?_) h
      exact (mem_append.1 hmem).elim hcur fun h ↦ hac (mem_singleton.1 h)

/-- **The pieces of a joined list** are its elements, if none of them is empty. -/
theorem kept_pieces_intercalate {a : α} {l : List (List α)} (ha : ∀ t ∈ l, a ∉ t)
    (hne : ∀ t ∈ l, t ≠ []) : kept (pieces [a] ([a].intercalate l) []) = l := by
  induction l with
  | nil =>
    rw [intercalate_nil, pieces, kept_singleton, if_pos rfl]
  | cons t l ih =>
    obtain ⟨hat, ha⟩ := forall_mem_cons.1 ha
    obtain ⟨ht, hne⟩ := forall_mem_cons.1 hne
    rcases l with - | ⟨u, l⟩
    · rw [intercalate_singleton, pieces_of_notMem hat, nil_append, kept_singleton,
        if_neg ht]
    · rw [intercalate_cons_cons, append_assoc, singleton_append,
        pieces_append_cons hat, nil_append, kept_cons pieces_ne_nil, ih ha hne]

omit [DecidableEq α] in
theorem intercalate_concat_nil {l : List (List α)} (hl : l ≠ []) :
    sep.intercalate (l ++ [[]]) = sep.intercalate l ++ sep := by
  induction l with
  | nil => exact absurd rfl hl
  | cons a l ih =>
    rcases l with - | ⟨b, l⟩
    · simp [intercalate_cons_cons]
    · rw [cons_append, cons_append, intercalate_cons_cons, ← cons_append,
        ih (cons_ne_nil b l), intercalate_cons_cons, append_assoc, append_assoc,
        append_assoc]

theorem intercalate_kept (hsep : sep ≠ []) :
    (¬(p ≠ [] ∧ (pieces sep p []).getLast? = some []) →
        sep.intercalate (kept (pieces sep p [])) = p) ∧
      (p ≠ [] ∧ (pieces sep p []).getLast? = some [] →
        sep.intercalate (kept (pieces sep p [])) ++ sep = p) := by
  have hall : sep.intercalate (pieces sep p []) = p := intercalate_pieces hsep
  refine ⟨fun hnot ↦ ?_, fun ⟨hp, hlast⟩ ↦ ?_⟩
  · by_cases hp : p = []
    · rw [hp, pieces, kept_singleton, if_pos rfl]
      rfl
    · rw [kept, if_neg fun hlast ↦ hnot ⟨hp, hlast⟩, hall]
  · rw [kept, if_pos hlast]
    have hsplit := dropLast_append_getLast? _ hlast
    rcases hnil : (pieces sep p []).dropLast with - | ⟨a, l⟩
    · rw [hnil, nil_append] at hsplit
      rw [← hsplit] at hall
      exact absurd hall.symm hp
    · rw [hnil] at hsplit
      rw [← hsplit, intercalate_concat_nil (cons_ne_nil a l)] at hall
      exact hall

end Pieces

/-! ### explode -/

/-- How `explode_string` ends: with an array, with the error of `allocate_array`, or with a call of
`fatal`. -/
inductive Result where
  | array (item : List Svalue)
  | illegalSize
  | fatal

def allocateArray (n : ℕ) (f : Result) : Result :=
  if n > MAX_ARRAY_SIZE then .illegalSize else f

/-- "Find number of occurrences of the delimiter": the number, and whether there is something behind
the last one. -/
def count (del : Bytes) (p : Bytes) (num : ℕ) (extra : Bool) : ℕ × Bool :=
  match p with
  | [] => (num, extra)
  | c :: rest =>
    if del.isPrefixOf (c :: rest) then count del (rest.drop (del.length - 1)) (num + 1) false
    else count del rest num true
termination_by p.length
decreasing_by all_goals simp only [length_drop, length_cons]; omega

/-- The loop that fills an array of `size` elements, and the element behind the last delimiter. What
lies between `beg` and `p` is `cur`, and the elements that have been filled are `ret`. -/
def fill (del : Bytes) (size : ℕ) (p cur : Bytes) (ret : List Svalue) :
    Option (List Svalue) :=
  match p with
  | [] =>
    if cur = [] then some ret
    else if ret.length ≥ size then none
    else some (ret ++ [.string (CString.ofBytes cur)])
  | c :: rest =>
    if del.isPrefixOf (c :: rest) then
      if ret.length ≥ size then none
      else fill del size (rest.drop (del.length - 1)) [] (ret ++ [.string (CString.ofBytes cur)])
    else fill del size rest (cur ++ [c]) ret
termination_by p.length
decreasing_by all_goals simp only [length_drop, length_cons]; omega

/-- `explode_string`. The elements of a new array are 0 until they are filled. -/
def explodeString (str del : CString) : Result :=
  if del.bytes.length = 0 then
    allocateArray str.bytes.length <|
      .array (str.bytes.map fun c ↦ .string (CString.ofBytes [c]))
  else if str.bytes = [] then allocateArray 0 (.array [])
  else
    let (num, extra) := count del.bytes str.bytes 0 true
    let num := if extra then num + 1 else num
    allocateArray num <|
      match fill del.bytes num str.bytes [] [] with
      | none => .fatal
      | some ret => .array (ret ++ List.replicate (num - ret.length) const0)

/-! ### implode -/

/-- A string that is being written: the characters up to `p`, and how many bytes of the block have
been written to, the NUL behind the last string included. -/
structure Writing where
  out : Bytes
  high : ℕ

/-- `strcpy(p, s); p += strlen(s);` -/
def Writing.strcpy (q : Writing) (s : Bytes) : Writing where
  out := q.out ++ s
  high := max q.high (q.out.length + s.length + 1)

/-- The first loop of `implode_string`: the size of the strings, and their number. -/
def measure : List Svalue → ℕ → ℕ → ℕ × ℕ
  | [], size, num => (size, num)
  | .string s :: rest, size, num => measure rest (size + s.bytes.length) (num + 1)
  | _ :: rest, size, num => measure rest size num

/-- The second loop, after `num` strings. -/
def write (del : Bytes) : List Svalue → ℕ → Writing → Writing
  | [], _, q => q
  | .string s :: rest, num, q =>
    write del rest (num + 1) ((if num > 0 then q.strcpy del else q).strcpy s.bytes)
  | _ :: rest, num, q => write del rest num q

/-- `implode_string`: the number of bytes that are allocated, and what is written to them. Where
there are no strings it is a copy of "". -/
def implodeString (arr : List Svalue) (del : CString) : ℕ × Writing :=
  let (size, num) := measure arr 0 0
  if num = 0 then (1, ⟨[], 1⟩)
  else (size + (num - 1) * del.bytes.length + 1, write del.bytes arr 0 ⟨[], 1⟩)

/-! ### The passes of explode -/

variable {del p cur : Bytes}

/-- The number of the first pass, with the element behind the last delimiter, is that of the pieces
that are kept. -/
theorem count_spec {num : ℕ} {extra : Bool} (hextra : p = [] → extra = decide (cur ≠ [])) :
    (if (count del p num extra).2 then (count del p num extra).1 + 1
      else (count del p num extra).1) = num + (kept (pieces del p cur)).length := by
  fun_induction count del p num extra generalizing cur with
  | case1 num extra =>
    rw [pieces, kept_singleton, hextra rfl]
    by_cases hcur : cur = [] <;> simp [hcur]
  | case2 num extra c rest hprefix ih =>
    rw [@ih [] fun _ ↦ rfl, pieces, if_pos hprefix, kept_cons pieces_ne_nil,
      length_cons]
    omega
  | case3 num extra c rest hprefix ih =>
    rw [@ih (cur ++ [c]) fun _ ↦ by simp, pieces, if_neg hprefix]

/-- The element of an array for a piece of a string. -/
def element (piece : Bytes) : Svalue :=
  .string (CString.ofBytes piece)

theorem fill_spec {size : ℕ} {ret : List Svalue}
    (hsize : ret.length + (kept (pieces del p cur)).length ≤ size) :
    fill del size p cur ret = some (ret ++ (kept (pieces del p cur)).map element) := by
  fun_induction fill del size p cur ret with
  | case1 => simp [pieces, kept_singleton]
  | case2 cur ret hcur hfull =>
    rw [pieces, kept_singleton, if_neg hcur, length_singleton] at hsize
    omega
  | case3 cur ret hcur hfull => simp [pieces, kept_singleton, hcur, element]
  | case4 cur ret c rest hprefix hfull =>
    rw [pieces, if_pos hprefix, kept_cons pieces_ne_nil, length_cons] at hsize
    omega
  | case5 cur ret c rest hprefix hfull ih =>
    rw [pieces, if_pos hprefix, kept_cons pieces_ne_nil, length_cons] at hsize
    rw [ih (by rw [length_append, length_singleton]; omega), pieces, if_pos hprefix,
      kept_cons pieces_ne_nil, map_cons, append_assoc, singleton_append, element]
  | case6 cur ret c rest hprefix ih =>
    rw [pieces, if_neg hprefix] at hsize ⊢
    exact ih hsize

/-- **Both passes of `explode_string` agree**: the array has the pieces that are kept, and no
element that has not been filled. -/
theorem explodeString_eq (str del : CString) (hdel : del.bytes ≠ []) :
    explodeString str del = allocateArray (kept (pieces del.bytes str.bytes [])).length
      (.array ((kept (pieces del.bytes str.bytes [])).map element)) := by
  rw [explodeString, if_neg (mt length_eq_zero_iff.1 hdel)]
  by_cases hstr : str.bytes = []
  · rw [if_pos hstr, hstr, pieces, kept_singleton, if_pos rfl]
    rfl
  have hcount := @count_spec del.bytes str.bytes [] 0 true fun h ↦ absurd h hstr
  rw [Nat.zero_add] at hcount
  rw [if_neg hstr]
  simp only [hcount]
  rw [fill_spec (by simp), nil_append]
  simp

/-! ### The passes of implode -/

/-- The bytes of the strings of an array. -/
def strings : List Svalue → List Bytes
  | [] => []
  | .string s :: rest => s.bytes :: strings rest
  | _ :: rest => strings rest

theorem measure_eq (arr : List Svalue) : ∀ size num, measure arr size num =
    (size + ((strings arr).map List.length).sum, num + (strings arr).length) := by
  induction arr with
  | nil => exact fun _ _ ↦ rfl
  | cons v arr ih =>
    intro size num
    cases v with
    | string s =>
      rw [measure, ih, strings, map_cons, sum_cons, length_cons]
      exact Prod.ext (by dsimp only; omega) (by dsimp only; omega)
    | _ => exact ih size num

theorem strcpy_high {q : Writing} (hq : q.high = q.out.length + 1) (s : Bytes) :
    (q.strcpy s).high = (q.strcpy s).out.length + 1 := by
  rw [Writing.strcpy]
  simp only [hq, length_append]
  omega

theorem write_spec (arr : List Svalue) : ∀ num q, q.high = q.out.length + 1 →
    (write del arr num q).high = (write del arr num q).out.length + 1 ∧
      (write del arr num q).out = q.out ++
        (if num > 0 ∧ strings arr ≠ [] then del else []) ++ del.intercalate (strings arr) := by
  induction arr with
  | nil => exact fun num q hq ↦ ⟨hq, by simp [write, strings]⟩
  | cons v arr ih =>
    intro num q hq
    cases v with
    | string s =>
      have hfirst : (if num > 0 then q.strcpy del else q).high =
          (if num > 0 then q.strcpy del else q).out.length + 1 := by
        split
        · exact strcpy_high hq del
        · exact hq
      obtain ⟨hhigh, hout⟩ := ih (num + 1) _ (strcpy_high hfirst s.bytes)
      refine ⟨hhigh, ?_⟩
      rw [write, hout, strings]
      have hbegin : (if num > 0 then q.strcpy del else q).out =
          q.out ++ if num > 0 then del else [] := by
        split
        · rfl
        · rw [append_nil]
      rw [Writing.strcpy, hbegin]
      rcases hrest : strings arr with - | ⟨a, rest⟩
      · simp
      · simp [intercalate_cons_cons, append_assoc]
    | _ => exact ih num q hq

theorem length_intercalate (l : List Bytes) (hl : l ≠ []) :
    (del.intercalate l).length = (l.map List.length).sum + (l.length - 1) * del.length := by
  induction l with
  | nil => exact absurd rfl hl
  | cons a l ih =>
    rcases l with - | ⟨b, l⟩
    · simp
    · have hrest := ih (cons_ne_nil b l)
      simp only [map_cons, sum_cons, length_cons, Nat.add_sub_cancel] at hrest
      rw [intercalate_cons_cons, length_append, length_append, hrest]
      simp only [map_cons, sum_cons, length_cons, Nat.add_sub_cancel]
      rw [Nat.succ_mul]
      omega

/-- **`implode_string` writes the strings with the delimiter between them**, to exactly the bytes
that it has allocated. -/
theorem implodeString_spec (arr : List Svalue) (del : CString) :
    (implodeString arr del).2.high = (implodeString arr del).1 ∧
      (implodeString arr del).2.out = del.bytes.intercalate (strings arr) := by
  rw [implodeString, measure_eq]
  simp only [Nat.zero_add]
  by_cases hnone : (strings arr).length = 0
  · rw [if_pos hnone, length_eq_zero_iff.1 hnone]
    exact ⟨rfl, rfl⟩
  · obtain ⟨hhigh, hout⟩ := @write_spec del.bytes arr 0 ⟨[], 1⟩ rfl
    rw [if_neg hnone]
    have hout' : (write del.bytes arr 0 ⟨[], 1⟩).out = del.bytes.intercalate (strings arr) := by
      rw [hout]
      simp
    refine ⟨?_, hout'⟩
    rw [hhigh, hout', length_intercalate _ (mt length_eq_zero_iff.2 hnone)]

/-! ### Both together -/

/-- The scan for delimiters, from the left, ends with one. -/
def Trailing (s d : CString) : Prop :=
  s.bytes ≠ [] ∧ (pieces d.bytes s.bytes []).getLast? = some []

theorem strings_map_element {l : List Bytes} (hl : ∀ piece ∈ l, 0 ∉ piece) :
    strings (l.map element) = l := by
  induction l with
  | nil => rfl
  | cons a l ih =>
    have ha : (CString.ofBytes a).bytes = a := by
      refine takeWhile_eq_self_iff.2 fun b hb ↦ ?_
      rw [bne_iff_ne]
      rintro rfl
      exact hl a mem_cons_self hb
    rw [map_cons, element, strings, ha, ih fun b hb ↦ hl b (mem_cons_of_mem a hb)]

theorem nul_notMem_kept {sep : Bytes} (s : CString) :
    ∀ piece ∈ kept (pieces sep s.bytes []), 0 ∉ piece := by
  intro piece hp h0
  exact s.noNul ((mem_of_mem_pieces (mem_of_mem_kept hp) h0).resolve_left not_mem_nil)

/-- **`implode` undoes `explode`**, but for a delimiter at the end, unless there are more pieces
than an array can have elements. The `fatal` of `explode_string` is not reached and all elements of
its array are filled, and `implode_string` writes exactly to the bytes that it has allocated. -/
theorem implode_explode (s d : CString) (hd : d.bytes ≠ []) :
    ((kept (pieces d.bytes s.bytes [])).length ≤ MAX_ARRAY_SIZE →
      ∃ arr, explodeString s d = .array arr ∧ (∀ v ∈ arr, ∃ t, v = .string t) ∧
        (¬Trailing s d → (implodeString arr d).2.out = s.bytes) ∧
        (Trailing s d → (implodeString arr d).2.out ++ d.bytes = s.bytes)) ∧
      (MAX_ARRAY_SIZE < (kept (pieces d.bytes s.bytes [])).length →
        explodeString s d = .illegalSize) ∧
      ∀ (arr : List Svalue) (del : CString),
        (implodeString arr del).2.high = (implodeString arr del).1 := by
  rw [explodeString_eq s d hd, allocateArray]
  refine ⟨fun hle ↦ ⟨_, if_neg (not_lt.2 hle), ?_⟩, fun hlt ↦ if_pos hlt,
    fun arr del ↦ (implodeString_spec arr del).1⟩
  have hpieces := @nul_notMem_kept d.bytes s
  obtain ⟨hwhole, hless⟩ := intercalate_kept (p := s.bytes) hd
  have hout := (implodeString_spec ((kept (pieces d.bytes s.bytes [])).map element) d).2
  rw [strings_map_element hpieces] at hout
  rw [hout]
  refine ⟨fun v hv ↦ ?_, hwhole, hless⟩
  obtain ⟨piece, -, rfl⟩ := mem_map.1 hv
  exact ⟨_, rfl⟩

theorem pieces_replicate (n : ℕ) :
    pieces [(0x61 : UInt8)] (List.replicate n 0x61) [] = List.replicate (n + 1) [] := by
  induction n with
  | zero => rw [replicate_zero, pieces, replicate_one]
  | succ n ih =>
    rw [replicate_succ, pieces, if_pos (by simp [List.isPrefixOf]), length_singleton,
      Nat.sub_self, drop_zero, ih, ← replicate_succ]

/-- `a`, 5001 times. -/
def delimiters : CString :=
  ⟨List.replicate 5001 0x61, fun h ↦ absurd (eq_of_mem_replicate h) (by decide)⟩

theorem length_kept_delimiters :
    (kept (pieces (CString.ofBytes [0x61]).bytes delimiters.bytes [])).length = 5001 := by
  have hlast : (List.replicate (5001 + 1) ([] : Bytes)).getLast? = some [] := by
    rw [List.getLast?_replicate, if_neg (Nat.succ_ne_zero 5001)]
  change (kept (pieces [(0x61 : UInt8)] (List.replicate 5001 0x61) [])).length = 5001
  rw [pieces_replicate, kept, if_pos hlast, length_dropLast, length_replicate]

/-- A list `x,y,` of two names, whose last delimiter is lost; one of too many names; and an array
with an element that is no string. -/
theorem implode_explode_list :
    (∃ arr, explodeString (.ofBytes [120, 44, 121, 44]) (.ofBytes [44]) = .array arr ∧
      (∀ v ∈ arr, ∃ t, v = .string t) ∧
      (implodeString arr (.ofBytes [44])).2.out ++ [44] = [120, 44, 121, 44]) ∧
      explodeString delimiters (.ofBytes [0x61]) = .illegalSize ∧
      (implodeString [.string (.ofBytes [120]), const0] (.ofBytes [44])).2.high =
        (implodeString [.string (.ofBytes [120]), const0] (.ofBytes [44])).1 := by
  have hpieces : pieces (CString.ofBytes [44]).bytes (CString.ofBytes [120, 44, 121, 44]).bytes [] =
      [[120], [121], []] := by
    change pieces [(44 : UInt8)] [120, 44, 121, 44] [] = _
    simp [pieces, List.isPrefixOf]
  obtain ⟨hsmall, -, hhigh⟩ :=
    implode_explode (.ofBytes [120, 44, 121, 44]) (.ofBytes [44]) (cons_ne_nil _ _)
  obtain ⟨-, hlarge, -⟩ := implode_explode delimiters (.ofBytes [0x61]) (cons_ne_nil _ _)
  obtain ⟨arr, harr, hstrings, -, htrailing⟩ := hsmall (by rw [hpieces]; decide)
  refine ⟨⟨arr, harr, hstrings, htrailing ⟨cons_ne_nil _ _, by rw [hpieces]; rfl⟩⟩,
    hlarge (by rw [length_kept_delimiters]; decide), hhigh _ _⟩

/-- A string of 5001 delimiters cannot be exploded. -/
theorem not_implode_explode : ¬∀ s d : CString, d.bytes ≠ [] →
    ∃ arr, explodeString s d = .array arr ∧
      ((implodeString arr d).2.out = s.bytes ∨
        (implodeString arr d).2.out ++ d.bytes = s.bytes) := by
  intro hall
  obtain ⟨arr, harr, -⟩ := hall delimiters (.ofBytes [0x61]) (cons_ne_nil _ _)
  rw [explodeString_eq _ _ (cons_ne_nil _ _), length_kept_delimiters] at harr
  cases harr

end Lpmud.Explode
