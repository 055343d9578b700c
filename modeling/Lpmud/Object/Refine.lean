import Lpmud.Object.InPlace
import Lpmud.Object.Reach

/-!
# The buffer and the list

`restore_one` on a buffer does what the reader of lists does with the text that its pointer is at
(`follows`): it fails where that fails, and otherwise has the same value, with its pointer at the
text that is left. What it has done to the buffer then is nothing, if it has not come to a string,
and has put a NUL into the text otherwise (`Effect`).

So it stays inside its buffer exactly for the texts in which it does not get to a string that
breaks off behind a backslash (`inside_iff`), and a string that is held elsewhere keeps its text
exactly if it does not get to a string in it at all (`str2val_iff`).
-/

namespace Lpmud.Object

open Function List Option Abortable

/-! ### Buffers -/

/-- **The text `t` is in the buffer from `p` on**, and then the NUL at its end. -/
structure At (buf : Bytes) (p : ℕ) (t : Bytes) : Prop where
  drop : buf.drop p = t ++ [0]
  noNul : 0 ∉ t

/-- The buffer with the bytes `bs` written from `q` on. -/
def overwrite (buf : Bytes) (q : ℕ) (bs : Bytes) : Bytes :=
  buf.take q ++ bs ++ buf.drop (q + bs.length)

variable {buf buf' buf₁ bs t t' : Bytes} {c : UInt8} {p p₁ p' q hi i : ℕ}

namespace At

theorem length (h : At buf p t) : p + t.length + 1 = buf.length := by
  have hlen := congrArg List.length h.drop
  rw [length_drop, length_append, length_singleton] at hlen
  omega

theorem get (h : At buf p t) : buf[p]? = some (t.headD 0) := by
  have hget : (buf.drop p)[0]? = some (t.headD 0) := by
    rw [h.drop]
    cases t with
    | nil => rfl
    | cons c t => rfl
  rwa [List.getElem?_drop, Nat.add_zero] at hget

theorem tail (h : At buf p (c :: t)) : At buf (p + 1) t := by
  refine ⟨?_, fun hmem ↦ h.noNul (.tail c hmem)⟩
  rw [← drop_drop, h.drop]
  rfl

theorem of_append (h : At buf p (t ++ t')) : At buf (p + t.length) t' := by
  refine ⟨?_, fun hmem ↦ h.noNul (mem_append_right t hmem)⟩
  rw [← drop_drop, h.drop, append_assoc, drop_left]

theorem get_ne_nul (h : At buf p t) (hp : p ≤ i) (hi : i < p + t.length) :
    buf[i]? ≠ some 0 := by
  intro hnul
  obtain ⟨k, rfl⟩ := Nat.exists_eq_add_of_le hp
  rw [← List.getElem?_drop, h.drop, List.getElem?_append_left (by omega)] at hnul
  exact h.noNul (mem_of_getElem? hnul)

theorem congr (h : At buf p t) (hsame : buf'.drop p = buf.drop p) : At buf' p t :=
  ⟨hsame.trans h.drop, h.noNul⟩

end At

theorem length_overwrite (h : q + bs.length ≤ buf.length) :
    (overwrite buf q bs).length = buf.length := by
  rw [overwrite, length_append, length_append, length_take, length_drop]
  omega

theorem drop_overwrite (h : q + bs.length ≤ buf.length) (hp : q + bs.length ≤ p) :
    (overwrite buf q bs).drop p = buf.drop p := by
  have hlen : (buf.take q ++ bs).length = q + bs.length := by
    rw [length_append, length_take]
    omega
  obtain ⟨k, rfl⟩ := Nat.exists_eq_add_of_le hp
  have hstart : (overwrite buf q bs).drop (q + bs.length) = buf.drop (q + bs.length) := by
    rw [overwrite]
    nth_rewrite 1 [← hlen]
    exact drop_left
  have hrest : ∀ l : Bytes, l.drop (q + bs.length + k) = (l.drop (q + bs.length)).drop k :=
    fun l ↦ drop_drop.symm
  rw [hrest, hstart, hrest]

theorem drop_overwrite_start (h : q + bs.length ≤ buf.length) :
    (overwrite buf q bs).drop q = bs ++ buf.drop (q + bs.length) := by
  have hlen : (buf.take q).length = q := by
    rw [length_take]
    omega
  rw [overwrite, append_assoc]
  nth_rewrite 1 [← hlen]
  exact drop_left

theorem get_overwrite_before (h : q + bs.length ≤ buf.length) (hi : i < q) :
    (overwrite buf q bs)[i]? = buf[i]? := by
  rw [overwrite, append_assoc, List.getElem?_append_left (by rw [length_take]; omega),
    List.getElem?_take_of_lt hi]

theorem overwrite_nil (buf : Bytes) (q : ℕ) : overwrite buf q [] = buf := by
  rw [overwrite, append_nil, length_nil, Nat.add_zero, take_append_drop]

theorem overwrite_set (h : q < buf.length) (c : UInt8) (bs : Bytes) :
    overwrite (buf.set q c) (q + 1) bs = overwrite buf q (c :: bs) := by
  have hlen : (buf.take q).length = q := by
    rw [length_take]
    omega
  rw [overwrite, overwrite, drop_set_of_lt (by omega), length_cons,
    take_set, take_succ_eq_append_getElem h, set_append_right _ _ hlen.le, hlen,
    Nat.sub_self, set_cons_zero, append_assoc, append_assoc, append_assoc]
  have hadd : q + (bs.length + 1) = q + 1 + bs.length := by omega
  rw [hadd]
  rfl

theorem set_overwrite (h : q + bs.length < buf.length) (c : UInt8) :
    (overwrite buf q bs).set (q + bs.length) c = overwrite buf q (bs ++ [c]) := by
  have hlen : (buf.take q ++ bs).length = q + bs.length := by
    rw [length_append, length_take]
    omega
  rw [overwrite, set_append_right _ _ hlen.le, hlen, Nat.sub_self,
    drop_eq_getElem_cons h, set_cons_zero, overwrite, length_append,
    length_singleton, append_assoc, append_assoc, append_assoc]
  rfl

/-! ### What is done to the buffer -/

/-- **What reading a value has done to the buffer**, from `p` on and before `hi`: if it has come to
a string (`R`), there is a NUL now where there was none, and otherwise nothing. -/
structure Effect (R : Prop) (p hi : ℕ) (buf buf' : Bytes) : Prop where
  length : buf'.length = buf.length
  before : ∀ i < p, buf'[i]? = buf[i]?
  scar : R → ∃ i < hi, buf'[i]? = some 0 ∧ buf[i]? ≠ some 0
  same : ¬R → buf' = buf

variable {R R' : Prop}

namespace Effect

theorem refl (h : ¬R) (p hi : ℕ) (buf : Bytes) : Effect R p hi buf buf :=
  ⟨rfl, fun _ _ ↦ rfl, fun hR ↦ absurd hR h, fun _ ↦ rfl⟩

theorem mono (h : Effect R p p₁ buf buf') (hiff : R ↔ R') (hp : q ≤ p) (hhi : p₁ ≤ hi) :
    Effect R' q hi buf buf' := by
  refine ⟨h.length, fun i hi ↦ h.before i (hi.trans_le hp), fun hR ↦ ?_,
    fun hR ↦ h.same (mt hiff.1 hR)⟩
  obtain ⟨i, hi₁, hscar⟩ := h.scar (hiff.2 hR)
  exact ⟨i, hi₁.trans_le hhi, hscar⟩

theorem trans (h : Effect R p p₁ buf buf₁) (h' : Effect R' q hi buf₁ buf') (hp : p ≤ p₁)
    (hq : p₁ ≤ q) (hhi : p₁ ≤ hi) : Effect (R ∨ R') p hi buf buf' := by
  refine ⟨h'.length.trans h.length, fun i hip ↦ (h'.before i ?_).trans (h.before i hip), ?_,
    fun hR ↦ ?_⟩
  · omega
  · intro hR
    by_cases hfirst : R
    · obtain ⟨i, hi₁, hnew, hold⟩ := h.scar hfirst
      exact ⟨i, hi₁.trans_le hhi, (h'.before i (hi₁.trans_le hq)).trans hnew, hold⟩
    · rw [← h.same hfirst]
      exact h'.scar (hR.resolve_left hfirst)
  · rw [not_or] at hR
    exact (h'.same hR.2).trans (h.same hR.1)

theorem overwrite (ht : At buf q t) (hnul : 0 ∈ bs) (hle : bs.length ≤ t.length) (hR : R) :
    Effect R q (q + bs.length) buf (overwrite buf q bs) := by
  have hlen := ht.length
  have hle' : q + bs.length ≤ buf.length := by omega
  refine ⟨length_overwrite hle', fun i hi ↦ get_overwrite_before hle' hi, fun _ ↦ ?_,
    fun h ↦ absurd hR h⟩
  obtain ⟨k, hk, hget⟩ := getElem_of_mem hnul
  refine ⟨q + k, Nat.add_lt_add_left hk q, ?_, ht.get_ne_nul (Nat.le_add_right q k) (by omega)⟩
  rw [← List.getElem?_drop, drop_overwrite_start hle', List.getElem?_append_left hk,
    List.getElem?_eq_getElem hk, hget]

end Effect

namespace InPlace

variable {α β : Type} {e : Env} {depth n next : ℕ} {v : Dest} {d d' : Decoder} {x : α}
  {r : Except Failure (α × Bytes × ℕ)}

/-- The reader of lists has read `x`, and so has the decoder, whose pointer is at the text left. -/
structure Reads (R : Prop) (p depth : ℕ) (r : Except Failure (α × Bytes × ℕ))
    (buf : Bytes) (x : α) (d : Decoder) (t : Bytes) : Prop where
  reads : r = .ok (x, t, d.next)
  text : At d.buf (d.cursor depth) t
  forward : p ≤ d.cursor depth
  effect : Effect R p (d.cursor depth) buf d.buf

/-- Both have found something illegal. -/
structure Fails (R : Prop) (p : ℕ) (r : Except Failure (α × Bytes × ℕ)) (buf : Bytes)
    (d : Decoder) : Prop where
  fails : r = .error .illegal
  effect : ∃ hi, Effect R p hi buf d.buf

/-- Both are cut short, by the same error. -/
structure Aborts (R : Prop) (p : ℕ) (r : Except Failure (α × Bytes × ℕ)) (buf : Bytes)
    (d : Decoder) : Prop where
  aborts : ∃ f, r = .error f ∧ f ≠ .illegal ∧ d.why = some f
  effect : ∃ hi, Effect R p hi buf d.buf

/-- **The computation does what the reader of lists does**, of which `r` is the result; `out` is
what it has read then. -/
def Follows (R : Prop) (p depth : ℕ) (r : Except Failure (α × Bytes × ℕ)) (buf : Bytes)
    (out : β → Decoder → Option α) (m : Decode β) (d : Decoder) : Prop :=
  wp (Aborts R p r buf) m (fun b d' ↦
    match out b d' with
    | some x => ∃ t, Reads R p depth r buf x d' t
    | none => Fails R p r buf d') d

/-- What `restore_one` has read. -/
def outOne (v : Dest) (b : Bool) (d : Decoder) : Option Svalue :=
  if b then some (d.value v) else none

/-! ### Single steps -/

section Steps

variable {E : Decoder → Prop}

theorem wp_cursor (depth : ℕ) {Q : ℕ → Decoder → Prop} :
    wp E (cursor depth) Q = fun d ↦ Q (d.cursor depth) d :=
  rfl

theorem wp_setCursor (depth p : ℕ) {Q : Unit → Decoder → Prop} :
    wp E (setCursor depth p) Q =
      fun d ↦ Q () { d with cursor := update d.cursor depth p } :=
  rfl

theorem wp_value (v : Dest) {Q : Svalue → Decoder → Prop} :
    wp E (value v) Q = fun d ↦ Q (d.value v) d :=
  rfl

theorem wp_setValue (v : Dest) (x : Svalue) {Q : Unit → Decoder → Prop} :
    wp E (setValue v x) Q = fun d ↦ Q () { d with value := update d.value v x } :=
  rfl

theorem wp_newAddr (e : Env) {Q : Addr → Decoder → Prop} :
    wp E (newAddr e) Q = fun d ↦ Q (e.alloc d.next) { d with next := d.next + 1 } :=
  rfl

theorem wp_finish (depth : ℕ) (v : Dest) (x : Svalue) (s : ℕ) {Q : Bool → Decoder → Prop} :
    wp E (finish depth v x s) Q = fun d ↦ Q true
      { d with
        value := update d.value v x
        cursor := update d.cursor depth s } :=
  rfl

theorem wp_load {Q : UInt8 → Decoder → Prop} (h : d.buf[p]? = some c) :
    wp E (load p) Q d ↔ Q c d := by
  rw [load, wp_bind, wp_read]
  dsimp only
  rw [h]
  rfl

theorem wp_load_end {Q : UInt8 → Decoder → Prop} (h : d.buf[p]? = none) :
    wp E (load p) Q d ↔ E { d with why := some .overrun } := by
  rw [load, wp_bind, wp_read]
  dsimp only
  rw [h]
  rfl

theorem wp_store {Q : Unit → Decoder → Prop} (h : p < d.buf.length) :
    wp E (store p c) Q d ↔ Q () { d with buf := d.buf.set p c } := by
  rw [store, wp_bind, wp_read]
  dsimp only
  rw [if_pos h]
  rfl

theorem takeWhile_append_nul (bs rest : Bytes) :
    (bs ++ 0 :: rest).takeWhile (· != 0) = bs.takeWhile (· != 0) := by
  induction bs with
  | nil => rfl
  | cons c bs ih => rw [cons_append, takeWhile_cons, takeWhile_cons, ih]

theorem wp_cstring_of_drop {Q : Bytes → Decoder → Prop} {rest : Bytes}
    (h : d.buf.drop p = bs ++ 0 :: rest) :
    wp E (cstring p) Q d ↔ Q (bs.takeWhile (· != 0)) d := by
  rw [cstring, wp_bind, wp_read]
  dsimp only
  rw [h, takeWhile_append_nul, if_pos (mem_append_right bs (.head _))]
  rfl

theorem wp_cstring {Q : Bytes → Decoder → Prop} (h : At d.buf p t) :
    wp E (cstring p) Q d ↔ Q t d := by
  have htake : t.takeWhile (· != 0) = t := takeWhile_eq_self_iff.2 fun c hc ↦
    bne_iff_ne.2 fun hnul ↦ h.noNul (hnul ▸ hc)
  rw [wp_cstring_of_drop h.drop, htake]

theorem wp_advance {Q : UInt8 → Decoder → Prop} (h : d.buf[d.cursor depth]? = some c) :
    wp E (advance depth) Q d ↔
      Q c { d with cursor := update d.cursor depth (d.cursor depth + 1) } := by
  rw [advance, wp_bind, wp_cursor]
  dsimp only
  rw [wp_bind, wp_setCursor]
  exact wp_load h

end Steps

/-! ### Strings and numbers -/

/-- The loop over the characters of a string has written `bs` from `q` on, and stopped. -/
def Unescaped (d : Decoder) (p q : ℕ) (t : Bytes) (r : ℕ × ℕ) (d' : Decoder) : Prop :=
  ∃ bs u, d' = { d with buf := overwrite d.buf q bs } ∧ r.2 = q + bs.length ∧ r.2 < r.1 ∧
    r.1 ≤ p + t.length ∧ At d.buf r.1 u ∧
    (u.head? = some QUOTE ∧ Object.restoreString false t = .ok (bs, u.tail) ∨
      u = [] ∧ Object.restoreString false t = .error .illegal)

/-- It has read a NUL behind a backslash, has written it, and then ran past the end. -/
def RanOver (d : Decoder) (p q : ℕ) (t : Bytes) (d' : Decoder) : Prop :=
  Object.restoreString false t = .error .overrun ∧ d'.why = some .overrun ∧
    ∃ bs, 0 ∈ bs ∧ q + bs.length < p + t.length ∧ d'.buf = overwrite d.buf q bs

/-- One character has been read and written, and the loop goes on from `p'`. -/
theorem wp_unescape_next (p' : ℕ) (t' : Bytes) {m : Decode (ℕ × ℕ)} (hlt : q < d.buf.length)
    (hlen : p' + t'.length = p + t.length)
    (hread : Object.restoreString false t =
      (Object.restoreString false t').map fun (bs, s) ↦ (c :: bs, s))
    (hm : wp (RanOver { d with buf := d.buf.set q c } p' (q + 1) t') m
      (Unescaped { d with buf := d.buf.set q c } p' (q + 1) t')
      { d with buf := d.buf.set q c }) :
    wp (RanOver d p q t) m (Unescaped d p q t) { d with buf := d.buf.set q c } := by
  refine wp_mono (wp_mono_error hm ?_) ?_
  · rintro d' ⟨hover, hwhy, bs, hnul, hle, hbuf⟩
    refine ⟨by rw [hread, hover]; rfl, hwhy, c :: bs, .tail c hnul, ?_, ?_⟩
    · rw [length_cons]
      omega
    · rw [hbuf, overwrite_set hlt]
  · rintro r d' ⟨bs, u, rfl, hr, hlt', hle, hu, hcases⟩
    refine ⟨c :: bs, u, by rw [overwrite_set hlt], ?_, hlt', hlen ▸ hle, ?_, ?_⟩
    · rw [hr, length_cons]
      omega
    · exact hu.congr (drop_set_of_lt (by omega)).symm
    · refine hcases.imp ?_ ?_
      · rintro ⟨hquote, hok⟩
        exact ⟨hquote, by rw [hread, hok]; rfl⟩
      · rintro ⟨hnil, hillegal⟩
        exact ⟨hnil, by rw [hread, hillegal]; rfl⟩

/-- **The loop over a string** does what the reader of lists does. -/
theorem wp_unescape (n : ℕ) : ∀ {d : Decoder} {p q : ℕ} {t : Bytes}, At d.buf p t → q < p →
    t.length < n → wp (RanOver d p q t) (unescape n p q) (Unescaped d p q t) d := by
  induction n with
  | zero => exact fun _ _ h ↦ absurd h (Nat.not_lt_zero _)
  | succ n ih =>
    intro d p q t ht hq hn
    have hlen := ht.length
    rw [unescape, wp_bind, wp_load ht.get]
    cases t with
    | nil =>
      rw [if_pos (.inl rfl)]
      exact ⟨[], [], by rw [overwrite_nil], rfl, hq, le_rfl, ht, .inr ⟨rfl, rfl⟩⟩
    | cons c t =>
      have hc : c ≠ 0 := by
        rintro rfl
        exact ht.noNul (.head t)
      rw [headD_cons]
      rw [length_cons] at hlen hn
      by_cases hquote : c = QUOTE
      · rw [if_pos (.inr hquote)]
        refine ⟨[], c :: t, by rw [overwrite_nil], rfl, hq, Nat.le_add_right _ _, ht, .inl ?_⟩
        exact ⟨congrArg some hquote, by rw [Object.restoreString, if_pos hquote]; rfl⟩
      rw [if_neg (not_or.2 ⟨hc, hquote⟩)]
      by_cases hbackslash : c = BACKSLASH
      · rw [if_pos hbackslash, wp_bind, wp_load ht.tail.get]
        rw [wp_bind, wp_store (by omega)]
        cases t with
        | nil =>
          obtain ⟨n, rfl⟩ : ∃ n', n = n' + 1 := ⟨n - 1, by
            rw [length_nil] at hn
            omega⟩
          have hend : (d.buf.set q 0)[p + 1 + 1]? = none := by
            rw [List.getElem?_eq_none_iff, length_set]
            exact hlen.ge
          rw [headD_nil, if_neg (by decide), unescape, wp_bind, wp_load_end hend]
          refine ⟨?_, rfl, [0], .head _, ?_, ?_⟩
          · rw [Object.restoreString, if_neg hquote, if_pos hbackslash, Object.restoreString]
          · exact Nat.add_lt_add_right hq 1
          · rw [← overwrite_set (by omega), overwrite_nil]
        | cons c' t =>
          rw [length_cons] at hlen hn
          refine wp_unescape_next (p + 2) t (by omega) ?_ ?_ ?_
          · rw [length_cons, length_cons]
            omega
          · rw [Object.restoreString, if_neg hquote, if_pos hbackslash, Object.restoreString]
            rfl
          · exact ih (ht.tail.tail.congr (drop_set_of_lt (by omega))) (by omega) (by omega)
      · rw [if_neg hbackslash, wp_bind, wp_store (by omega)]
        refine wp_unescape_next (p + 1) t (by omega) ?_ ?_ ?_
        · rw [length_cons]
          omega
        · rw [Object.restoreString, if_neg hquote, if_neg hbackslash]
        · exact ih (ht.tail.congr (drop_set_of_lt (by omega))) (by omega) (by omega)

theorem ofBytes_takeWhile (bs : Bytes) :
    CString.ofBytes (bs.takeWhile (· != 0)) = CString.ofBytes bs := by
  rw [CString.ofBytes.eq_def, CString.ofBytes.eq_def, CString.mk.injEq]
  exact takeWhile_idem

/-- The value is a string. -/
def Quoted (u : Bytes) : Prop :=
  u.head? = some QUOTE

section Follows

variable {x : Svalue} {r : Restored Svalue} {s : ℕ}

theorem follows_finish (hr : r = .ok (x, t, d.next)) (ht : At d.buf s t) (hp : p ≤ s)
    (heffect : Effect R p s buf d.buf) :
    Follows R p depth r buf (outOne v) (finish depth v x s) d := by
  have hout : outOne v true { d with
      value := update d.value v x
      cursor := update d.cursor depth s } = some x :=
    congrArg some (update_self ..)
  have hcursor : update d.cursor depth s depth = s := update_self ..
  rw [Follows, wp_finish]
  dsimp only
  rw [hout]
  refine ⟨t, hr, ?_, ?_, ?_⟩
  · dsimp only
    rwa [hcursor]
  · dsimp only
    rwa [hcursor]
  · dsimp only
    rwa [hcursor]

theorem follows_false (hr : r = .error .illegal) (heffect : Effect R p hi buf d.buf) :
    Follows R p depth r buf (outOne v) (pure false) d :=
  ⟨hr, hi, heffect⟩

/-- **A string.** -/
theorem follows_restoreString (ht : At d.buf s (QUOTE :: t)) (hR : R) :
    Follows R s depth ((Object.restoreString false t).map fun (bs, u) ↦
      (.string (.ofBytes bs), u, d.next)) d.buf (outOne v) (restoreString depth v s) d := by
  have hlen := ht.length
  rw [length_cons] at hlen
  rw [Follows, restoreString, wp_bind, wp_read]
  dsimp only
  rw [wp_bind]
  refine wp_mono (wp_mono_error (wp_unescape _ ht.tail (Nat.lt_succ_self s) (by omega)) ?_) ?_
  · rintro d' ⟨hover, hwhy, bs, hnul, hlt, hbuf⟩
    refine ⟨⟨.overrun, by rw [hover]; rfl, nofun, hwhy⟩, s + bs.length, ?_⟩
    rw [hbuf]
    exact .overwrite ht hnul (by rw [length_cons]; omega) hR
  · rintro ⟨p', q'⟩ d' ⟨bs, u, rfl, hq, hlt, hle, hu, hcases⟩
    dsimp only at hq hlt hle hu ⊢
    subst hq
    have hbs : s + bs.length < d.buf.length := by omega
    rw [wp_bind, wp_store (by rw [length_overwrite hbs.le]; exact hbs)]
    dsimp only
    rw [set_overwrite hbs]
    have hle' : s + (bs ++ [0]).length ≤ p' := by
      rw [length_append, length_singleton]
      omega
    have hlast : s + (bs ++ [0]).length ≤ d.buf.length := by omega
    have hu' : At (overwrite d.buf s (bs ++ [0])) p' u := hu.congr (drop_overwrite hlast hle')
    have heffect : Effect R s (s + (bs ++ [0]).length) d.buf (overwrite d.buf s (bs ++ [0])) :=
      .overwrite ht (mem_append_right bs (.head _)) (by rw [length_cons]; omega) hR
    rw [wp_bind, wp_load hu'.get]
    rcases hcases with ⟨hquote, hok⟩ | ⟨rfl, hillegal⟩
    · have hu := eq_cons_of_head? hquote
      rw [hu] at hu'
      rw [hu, headD_cons, if_neg (not_not.2 rfl), wp_bind,
        wp_cstring_of_drop ((drop_overwrite_start hlast).trans (append_assoc ..))]
      refine follows_finish ?_ hu'.tail ?_ ?_
      · rw [hok, ofBytes_takeWhile]
        rfl
      · omega
      · exact heffect.mono Iff.rfl le_rfl (by omega)
    · rw [headD_nil, if_pos (by decide)]
      exact follows_false (by rw [hillegal]; rfl) heffect

theorem behind_eq_some (h : behind c t = some t') : ∃ pre, t = pre ++ c :: t' := by
  induction t with
  | nil => cases h
  | cons a t ih =>
    rw [behind, dropWhile_cons] at h
    by_cases ha : a = c
    · subst ha
      rw [if_neg (by rw [bne_self_eq_false]; exact Bool.false_ne_true)] at h
      obtain rfl := some.inj h
      exact ⟨[], rfl⟩
    · rw [if_pos (bne_iff_ne.2 ha)] at h
      obtain ⟨pre, rfl⟩ := ih h
      exact ⟨a :: pre, rfl⟩

/-- Behind the next character `c`, where the string goes on. -/
theorem at_behind (ht : At buf p t) (h : behind c t = some t') :
    At buf (p + (t.length - t'.length)) t' := by
  obtain ⟨pre, rfl⟩ := behind_eq_some h
  have hlen : (pre ++ c :: t').length - t'.length = (pre ++ [c]).length := by
    rw [length_append, length_cons, length_append, length_singleton]
    omega
  rw [hlen]
  refine At.of_append ?_
  rwa [append_assoc]

theorem follows_abort {out : β → Decoder → Option α} {f : Failure} (hR : ¬R)
    (hf : f ≠ .illegal) : Follows R p depth (.error f) d.buf out (abort f) d :=
  ⟨⟨f, rfl, hf, rfl⟩, p, .refl hR p p d.buf⟩

/-- **An object.** -/
theorem follows_restoreReference (ht : At d.buf s (DOLLAR :: t)) (hR : ¬R) :
    Follows R s depth (Object.restoreReference e t d.next) d.buf (outOne v)
      (restoreReference e depth v s) d := by
  rw [Follows, restoreReference, wp_bind, wp_cstring ht.tail, Object.restoreReference]
  cases hbehind : behind DOLLAR t with
  | none => exact follows_false rfl (.refl hR s s d.buf)
  | some t' =>
    cases hscan : e.scanObject (DOLLAR :: t) with
    | none => exact follows_false rfl (.refl hR s s d.buf)
    | some r =>
      obtain ⟨ct, name⟩ := r
      dsimp only
      by_cases hlong : name.length ≥ NAME_SIZE
      · rw [if_pos hlong, if_pos hlong]
        exact follows_abort hR (by rintro ⟨⟩)
      rw [if_neg hlong, if_neg hlong]
      refine follows_finish (t := t') ?_ (at_behind ht.tail hbehind) (by omega) (.refl hR _ _ _)
      rw [foundObject]
      cases e.findObject name with
      | none => rfl
      | some ob => rfl

/-- **A float.** -/
theorem follows_restoreFloat (ht : At d.buf s (HASH :: t)) (hR : ¬R) :
    Follows R s depth (Object.restoreFloat e t d.next) d.buf (outOne v)
      (restoreFloat e depth v s) d := by
  rw [Follows, restoreFloat, wp_bind, wp_cstring ht.tail, Object.restoreFloat]
  cases hbehind : behind HASH t with
  | none => exact follows_false rfl (.refl hR s s d.buf)
  | some t' =>
    cases e.scanFloat (HASH :: t) with
    | none => exact follows_false rfl (.refl hR s s d.buf)
    | some x =>
      exact follows_finish rfl (at_behind ht.tail hbehind) (by omega) (.refl hR _ _ _)

theorem wp_skipNumber {E : Decoder → Prop} {Q : ℕ → Decoder → Prop} (n : ℕ) :
    ∀ {p : ℕ} {t : Bytes}, At d.buf p t → t.length < n →
      (∀ p', At d.buf p' (t.dropWhile isNumeric) → p ≤ p' → Q p' d) →
      wp E (skipNumber n p) Q d := by
  induction n with
  | zero => exact fun _ h ↦ absurd h (Nat.not_lt_zero _)
  | succ n ih =>
    intro p t ht hn hQ
    rw [skipNumber, wp_bind, wp_load ht.get]
    cases t with
    | nil =>
      rw [headD_nil, if_neg (by decide)]
      exact hQ p ht le_rfl
    | cons c t =>
      rw [headD_cons]
      by_cases hc : isNumeric c = true
      · rw [if_pos hc]
        rw [dropWhile_cons_of_pos hc] at hQ
        exact ih ht.tail (Nat.lt_of_succ_lt_succ hn) fun p' h hp ↦ hQ p' h (by omega)
      · rw [if_neg hc]
        rw [dropWhile_cons_of_neg hc] at hQ
        exact hQ p ht le_rfl

/-- **A number.** -/
theorem follows_restoreNumber (ht : At d.buf s t) (hR : ¬R) :
    Follows R s depth (.ok (.number (atoi t), t.dropWhile isNumeric, d.next)) d.buf (outOne v)
      (restoreNumber depth v s) d := by
  rw [Follows, restoreNumber, wp_bind, wp_cstring ht, wp_bind, wp_read]
  dsimp only
  rw [wp_bind]
  refine wp_skipNumber _ ht (by have := ht.length; omega) fun s' ht' hs ↦ ?_
  exact follows_finish rfl ht' hs (.refl hR _ _ _)

end Follows

/-! ### Arrays and mappings -/

section Composition

variable {r' : Except Failure (β × Bytes × ℕ)} {out : β → Decoder → Option α} {m : Decode β}

theorem Aborts.of_error {r : Except Failure (α × Bytes × ℕ)} (h : Aborts R p r buf d)
    (hR : R ↔ R') (hp : q ≤ p) (hr : ∀ f, r = .error f → r' = .error f) :
    Aborts R' q r' buf d := by
  obtain ⟨⟨f, hf, hne, hwhy⟩, hi, heffect⟩ := h
  exact ⟨⟨f, hr f hf, hne, hwhy⟩, hi, heffect.mono hR hp le_rfl⟩

theorem Fails.of_error {r : Except Failure (α × Bytes × ℕ)} (h : Fails R p r buf d)
    (hR : R ↔ R') (hp : q ≤ p) (hr : ∀ f, r = .error f → r' = .error f) :
    Fails R' q r' buf d := by
  obtain ⟨hf, hi, heffect⟩ := h
  exact ⟨hr _ hf, hi, heffect.mono hR hp le_rfl⟩

/-- **What follows when a value has been read**, up to `p₁`. -/
theorem Follows.after (h : Follows R' q depth r d.buf out m d) (heffect : Effect R p p₁ buf d.buf)
    (hp : p ≤ p₁) (hq : p₁ ≤ q) : Follows (R ∨ R') p depth r buf out m d := by
  have hbehind : ∀ {hi buf'}, Effect R' q hi d.buf buf' → ∃ hi, Effect (R ∨ R') p hi buf buf' :=
    fun {hi buf'} h ↦ ⟨max hi p₁,
      heffect.trans (h.mono Iff.rfl le_rfl (le_max_left hi p₁)) hp hq (le_max_right hi p₁)⟩
  refine wp_mono (wp_mono_error h ?_) fun b d' h ↦ ?_
  · rintro d' ⟨haborts, hi, h⟩
    exact ⟨haborts, hbehind h⟩
  · revert h
    cases out b d' with
    | none =>
      rintro ⟨hfails, hi, h⟩
      exact ⟨hfails, hbehind h⟩
    | some x =>
      rintro ⟨t, hreads, htext, hforward, h⟩
      have hle : p₁ ≤ d'.cursor depth := hq.trans hforward
      exact ⟨t, hreads, htext, hp.trans hle, heffect.trans h hp hq hle⟩

theorem Follows.congr (h : Follows R p depth r buf out m d) (hR : R ↔ R') :
    Follows R' p depth r buf out m d :=
  propext hR ▸ h

end Composition

theorem headD_eq_iff (hc : c ≠ 0) : t.headD 0 = c ↔ t.head? = some c := by
  cases t with
  | nil => exact iff_of_false hc.symm nofun
  | cons d t => rw [headD_cons, List.head?_cons, some.injEq]

section Loops

variable {s : ℕ} {bracket : UInt8} {m : Decode α}
  {g : Bytes → Except Failure (α × Bytes × ℕ)}

/-- How the reader of lists goes on behind the closing bracket of a loop. -/
def closed (g : Bytes → Except Failure (α × Bytes × ℕ)) :
    Bytes → Except Failure (α × Bytes × ℕ)
  | [] => .error .illegal
  | c :: s' => if c = RPAREN then g s' else .error .illegal

/-- **The end of a loop**, where a closing bracket has been read. -/
theorem follows_closing (ht : At d.buf s (bracket :: t)) (hR : ¬R)
    (hm : ∀ s' cursor, t = RPAREN :: s' → cursor depth = s + 2 →
      Follows R s depth (g s') d.buf (fun x _ ↦ some x) m { d with cursor := cursor }) :
    Follows R s depth (closed g t) d.buf (fun o _ ↦ o) (closing depth s m) d := by
  rw [Follows, closing, wp_bind, wp_setCursor]
  dsimp only
  rw [wp_bind]
  refine Iff.mpr (wp_load ht.tail.get) ?_
  cases t with
  | nil =>
    rw [headD_nil, if_neg (by decide)]
    exact ⟨rfl, s, .refl hR s s d.buf⟩
  | cons c s' =>
    rw [headD_cons, closed]
    by_cases hc : c = RPAREN
    · rw [if_pos hc, if_pos hc, wp_bind, wp_setCursor]
      dsimp only
      rw [wp_bind]
      exact hm s' _ (hc ▸ rfl) (update_self ..)
    · rw [if_neg hc, if_neg hc]
      exact ⟨rfl, s, .refl hR s s d.buf⟩

/-- How the reader of lists goes on behind a value. -/
def expect (sep : UInt8) (g : Svalue → Bytes → ℕ → Except Failure (α × Bytes × ℕ)) :
    Svalue × Bytes × ℕ → Except Failure (α × Bytes × ℕ) :=
  fun (x, s', next') ↦
    match s' with
    | [] => .error .illegal
    | c :: s'' => if c = sep then g x s'' next' else .error .illegal

theorem restoreArray_closed (item : List Svalue) :
    ((Object.restoreArray e (n + 1) item (RBRACE :: t) next).bind fun (item, s, next') ↦
      allocateArray e item s next') = closed (fun s ↦ allocateArray e item s next) t := by
  rw [Object.restoreArray, if_pos List.head?_cons, tail_cons]
  cases t with
  | nil => rfl
  | cons c t =>
    dsimp only [closed]
    by_cases hc : c = RPAREN
    · rw [if_pos hc, if_pos hc]
      rfl
    · rw [if_neg hc, if_neg hc]
      rfl

theorem restoreMapping_closed (m : Mapping) :
    Object.restoreMapping e (n + 1) m (RBRACKET :: t) next =
      closed (fun s ↦ .ok (m, s, next)) t := by
  rw [Object.restoreMapping, if_pos List.head?_cons, tail_cons]
  cases t with
  | nil => rfl
  | cons c t => rfl

theorem restoreArray_succ {tmp : List Svalue} (h : t.head? ≠ some RBRACE) :
    Object.restoreArray e (n + 1) tmp t next =
      (Object.restoreOne e n t next).bind (expect COMMA fun v s next' ↦
        Object.restoreArray e n (tmp ++ [v]) s next') := by
  rw [Object.restoreArray, if_neg h]
  refine congrArg _ (funext fun r ↦ ?_)
  obtain ⟨v, s', next'⟩ := r
  cases s' with
  | nil => rfl
  | cons c s => rfl

/-- The rest of the loop of `restore_mapping`, behind a value. -/
def behindVal (e : Env) (n : ℕ) (m : Mapping) (arg val : Svalue) (t : Bytes) (next : ℕ) :
    Restored Mapping :=
  match m.getMapLvalue e.world arg fun _ ↦ val with
  | .error _ => .error .tooLarge
  | .ok m' => Object.restoreMapping e n m' t next

/-- The rest of the loop of `restore_mapping`, behind a key. -/
def behindArg (e : Env) (n : ℕ) (m : Mapping) (arg : Svalue) (s : Bytes) (next : ℕ) :
    Restored Mapping :=
  match m.getMapLvalue e.world arg id with
  | .error _ => .error .tooLarge
  | .ok _ => (Object.restoreOne e n s next).bind (expect COMMA (behindVal e n m arg))

theorem restoreMapping_succ {m : Mapping} (h : t.head? ≠ some RBRACKET) :
    Object.restoreMapping e (n + 1) m t next =
      (Object.restoreOne e n t next).bind (expect COLON (behindArg e n m)) := by
  rw [Object.restoreMapping, if_neg h]
  refine congrArg _ (funext fun r ↦ ?_)
  obtain ⟨arg, s', next'⟩ := r
  cases s' with
  | nil => rfl
  | cons c s =>
    rw [expect]
    dsimp only
    by_cases hc : c = COLON
    · rw [if_pos hc, if_pos hc]
      unfold behindArg
      cases m.getMapLvalue e.world arg id with
      | error _ => rfl
      | ok _ =>
        dsimp only
        refine congrArg _ (funext fun r ↦ ?_)
        obtain ⟨val, t, next''⟩ := r
        cases t with
        | nil => rfl
        | cons c t =>
          rw [expect]
          dsimp only
          by_cases hc : c = COMMA
          · rw [if_pos hc, if_pos hc]
            unfold behindVal
            cases m.getMapLvalue e.world arg fun _ ↦ val with
            | error _ => rfl
            | ok _ => rfl
          · rw [if_neg hc, if_neg hc]
    · rw [if_neg hc, if_neg hc]

theorem expect_of_ne {sep : UInt8} {x : Svalue}
    {g : Svalue → Bytes → ℕ → Except Failure (α × Bytes × ℕ)}
    (h : t.head? ≠ some sep) : expect sep g (x, t, next) = .error .illegal := by
  cases t with
  | nil => rfl
  | cons c t => exact if_neg fun hc ↦ h (congrArg some hc)

theorem bind_expect {sep : UInt8} {r₁ : Restored Svalue}
    {g : Svalue → Bytes → ℕ → Except Failure (α × Bytes × ℕ)}
    {f : α × Bytes × ℕ → Except Failure (β × Bytes × ℕ)} :
    (r₁.bind (expect sep g)).bind f = r₁.bind (expect sep fun x s next ↦ (g x s next).bind f) := by
  cases r₁ with
  | error _ => rfl
  | ok x =>
    obtain ⟨x, t, next⟩ := x
    change (expect sep g (x, t, next)).bind f =
      expect sep (fun x s next ↦ (g x s next).bind f) (x, t, next)
    by_cases hhead : t.head? = some sep
    · rw [eq_cons_of_head? hhead, expect, expect, if_pos rfl, if_pos rfl]
    · rw [expect_of_ne hhead, expect_of_ne hhead]
      rfl

/-- **One value in a loop**, what is expected behind it, and what follows then. -/
theorem follows_value (sep : UInt8) (R₂ : Svalue → Bytes → ℕ → Prop)
    (g : Svalue → Bytes → ℕ → Except Failure (α × Bytes × ℕ))
    (more : Decode (Option α)) (hsep : sep ≠ 0) {r₁ : Restored Svalue} {R₁ : Prop}
    {one : Decode Bool} (hone : Follows R₁ s depth r₁ buf (outOne v) one d)
    (hspares : SparesOne depth v d one)
    (hmore : ∀ x s' d', r₁ = .ok (x, sep :: s', d'.next) → At d'.buf (d'.cursor depth) s' →
      d'.value v = x → (∀ w : Dest, w.depth ≤ depth → w ≠ v → d'.value w = d.value w) →
      Follows (R₂ x s' d'.next) (d'.cursor depth) depth (g x s' d'.next) d'.buf (fun o _ ↦ o)
        more d') :
    Follows (R₁ ∨ ∃ x s' next', r₁ = .ok (x, sep :: s', next') ∧ R₂ x s' next') s depth
      (r₁.bind (expect sep g)) buf (fun o _ ↦ o)
      (one >>= fun read ↦
        if read then do
          let c ← advance depth
          if c = sep then more else pure none
        else pure none) d := by
  have hstop : (∀ x s' next', r₁ ≠ .ok (x, sep :: s', next')) →
      (R₁ ↔ R₁ ∨ ∃ x s' next', r₁ = .ok (x, sep :: s', next') ∧ R₂ x s' next') := fun h ↦
    (or_iff_left fun ⟨x, s', next', hok, _⟩ ↦ h x s' next' hok).symm
  rw [Follows, wp_bind]
  refine wp_mono (wp_mono_error (wp_and hone (hspares d (.refl _ _))) ?_) ?_
  · rintro d' ⟨haborts, -⟩
    obtain ⟨f, hf, -⟩ := haborts.aborts
    refine haborts.of_error (hstop fun _ _ _ hok ↦ ?_) le_rfl fun f hf ↦ by rw [hf]; rfl
    rw [hok] at hf
    cases hf
  · rintro (- | -) d' ⟨hout, hspared⟩
    · have hfails : Fails R₁ s r₁ buf d' := hout
      refine hfails.of_error (hstop fun _ _ _ hok ↦ ?_) le_rfl fun f hf ↦ by rw [hf]; rfl
      rw [hok] at hfails
      cases hfails.fails
    · obtain ⟨u, hok, htext, hforward, heffect⟩ : ∃ t, Reads R₁ s depth r₁ buf (d'.value v) d' t :=
        hout
      have hsame : SparesBut depth v d d' := hspared
      rw [if_pos rfl, wp_bind]
      refine Iff.mpr (wp_advance htext.get) ?_
      have hbuf : ∀ c, { d' with cursor := c }.buf = d'.buf := fun _ ↦ rfl
      by_cases hhead : u.head? = some sep
      · have hu := eq_cons_of_head? hhead
        rw [hu] at hok htext
        rw [hu, headD_cons, if_pos rfl]
        have hcursor : update d'.cursor depth (d'.cursor depth + 1) depth =
            d'.cursor depth + 1 := update_self ..
        have hnext := hmore _ u.tail
          { d' with cursor := update d'.cursor depth (d'.cursor depth + 1) } hok
          (by dsimp only; rw [hcursor]; exact htext.tail) rfl hsame.value
        dsimp only at hnext
        rw [hcursor] at hnext
        have hr : r₁.bind (expect sep g) = g (d'.value v) u.tail d'.next := by
          rw [hok]
          exact if_pos rfl
        rw [hr]
        refine (hnext.after heffect hforward (Nat.le_succ _)).congr (or_congr_right ?_)
        refine ⟨fun h ↦ ⟨_, _, _, hok, h⟩, ?_⟩
        rintro ⟨x, s', next', heq, h⟩
        rw [hok] at heq
        cases heq
        exact h
      · rw [if_neg (mt (headD_eq_iff hsep).1 hhead)]
        refine ⟨?_, d'.cursor depth, heffect.mono (hstop fun x s' next' heq ↦ hhead ?_) le_rfl
          le_rfl⟩
        · rw [hok]
          exact expect_of_ne hhead
        · rw [hok] at heq
          cases heq
          rfl

end Loops

/-- The elements that have been read into `tmp`. -/
def items (d : Decoder) (depth i : ℕ) : List Svalue :=
  (List.range i).map fun k ↦ d.value (.item depth k)

theorem length_items (d : Decoder) (depth i : ℕ) : (items d depth i).length = i := by
  rw [items, length_map, length_range]

theorem items_succ (d : Decoder) (depth i : ℕ) :
    items d depth (i + 1) = items d depth i ++ [d.value (.item depth i)] := by
  rw [items, range_succ, map_append, map_singleton]
  rfl

theorem items_congr (h : ∀ k < i, d'.value (.item depth k) = d.value (.item depth k)) :
    items d' depth i = items d depth i :=
  map_congr_left fun k hk ↦ h k (mem_range.1 hk)

theorem follows_allocateItems {s : ℕ} (ht : At d.buf (d.cursor depth) t)
    (hs : s ≤ d.cursor depth) (hR : ¬R) :
    Follows R s depth (allocateArray e (items d depth i) t d.next) d.buf (fun x _ ↦ some x)
      (allocateItems e depth i) d := by
  have heffect : Effect R s (d.cursor depth) d.buf d.buf := .refl hR _ _ _
  rw [Follows, allocateItems, wp_bind, wp_read]
  dsimp only
  rw [allocateArray, length_items]
  by_cases hsize : i > MAX_ARRAY_SIZE
  · rw [if_pos hsize, if_pos hsize]
    exact ⟨⟨.arraySize, rfl, (by rintro ⟨⟩), rfl⟩, _, heffect⟩
  rw [if_neg hsize, if_neg hsize]
  have hnil : items d depth i = [] ↔ i = 0 := by
    rw [← length_eq_zero_iff, length_items]
  by_cases hi : i = 0
  · rw [if_pos hi, if_pos (hnil.2 hi)]
    exact ⟨t, rfl, ht, hs, heffect⟩
  · rw [if_neg hi, if_neg (mt hnil.1 hi), wp_bind, wp_newAddr]
    exact ⟨t, rfl, ht, hs, heffect⟩

/-- The value that `restore_array` or `restore_mapping` has read goes to where the caller says. -/
theorem follows_inner {s : ℕ} {r : Except Failure (α × Bytes × ℕ)} {r' : Restored Svalue}
    {m : Decode (Option α)} {k : α → Svalue}
    (hm : Follows R p (depth + 1) r d.buf (fun o _ ↦ o) m d') (hs : s ≤ p)
    (hr : r' = r.map fun (x, t, next') ↦ (k x, t, next')) :
    Follows R s depth r' d.buf (outOne v)
      (m >>= deliver depth v k) d' := by
  rw [Follows, wp_bind]
  refine wp_mono (wp_mono_error hm ?_) ?_
  · rintro d₁ h
    exact h.of_error Iff.rfl hs fun f hf ↦ by rw [hr, hf]; rfl
  · rintro (- | x) d₁ h
    · exact Fails.of_error h Iff.rfl hs fun f hf ↦ by rw [hr, hf]; rfl
    · obtain ⟨t, hok, htext, hforward, heffect⟩ := h
      rw [deliver, wp_bind, wp_cursor]
      refine follows_finish (t := t) ?_ htext (hs.trans hforward) (heffect.mono Iff.rfl hs le_rfl)
      rw [hr, hok]
      rfl

theorem follows_illegal {s : ℕ} (hR : ¬R) :
    Follows R s depth (.error .illegal) d.buf (outOne v) (pure false) d :=
  follows_false rfl (.refl hR s s d.buf)

theorem map_same (r : Except Failure (α × Bytes × ℕ)) :
    (r.map fun (x, t, next') ↦ (x, t, next')) = r := by
  cases r with
  | error f => rfl
  | ok x => rfl

theorem not_quoted (hc : c ≠ QUOTE) : ¬Quoted (c :: t) :=
  fun h ↦ hc (some.inj h)

/-- **The decoder does what the reader of lists does.** The recursion is that of the functions. -/
theorem follows (e : Env) (n : ℕ) :
    (∀ depth v d t, At d.buf (d.cursor depth) t →
      Follows (SomeOne Quoted e n t d.next) (d.cursor depth) depth
        (Object.restoreOne e n t d.next) d.buf (outOne v) (restoreOne e n depth v) d) ∧
    (∀ depth i d t, At d.buf (d.cursor depth) t →
      Follows (SomeItem Quoted e n t d.next) (d.cursor depth) depth
        ((Object.restoreArray e n (items d depth i) t d.next).bind fun (item, s, next') ↦
          allocateArray e item s next') d.buf (fun o _ ↦ o) (restoreArray e n depth i) d) ∧
    ∀ depth m d t, At d.buf (d.cursor depth) t →
      Follows (SomePair Quoted e n m t d.next) (d.cursor depth) depth
        (Object.restoreMapping e n m t d.next) d.buf (fun o _ ↦ o) (restoreMapping e n depth m)
        d := by
  induction n with
  | zero =>
    refine ⟨fun depth v d t ht ↦ ?_, fun depth i d t ht ↦ ?_, fun depth m d t ht ↦ ?_⟩
    · rw [Object.restoreOne, restoreOne]
      exact follows_abort not_someOne_zero (by rintro ⟨⟩)
    · rw [Object.restoreArray, restoreArray]
      exact follows_abort not_someItem_zero (by rintro ⟨⟩)
    · rw [Object.restoreMapping, restoreMapping]
      exact follows_abort not_somePair_zero (by rintro ⟨⟩)
  | succ n ih =>
    obtain ⟨ihone, iharray, ihmapping⟩ := ih
    refine ⟨fun depth v d t ht ↦ ?_, fun depth i d t ht ↦ ?_, fun depth m d t ht ↦ ?_⟩
    · rw [restoreOne, Follows, wp_bind, wp_cursor]
      dsimp only
      rw [wp_bind, wp_load ht.get]
      cases t with
      | nil =>
        rw [headD_nil, if_neg (by decide), if_neg (by decide), if_neg (by decide),
          if_neg (by decide), if_neg (by decide)]
        exact follows_illegal not_someOne_nil
      | cons c t =>
        rw [headD_cons, Object.restoreOne]
        by_cases hparen : c = LPAREN
        · subst hparen
          have hnot : ∀ t, ¬Quoted (LPAREN :: t) := fun t ↦ not_quoted (by decide)
          rw [if_pos rfl, if_pos rfl, wp_bind, wp_load ht.tail.get]
          have hcursor : ∀ s, update d.cursor (depth + 1) s (depth + 1) = s := fun s ↦
            update_self ..
          by_cases hmapping : t.head? = some LBRACKET
          · obtain ⟨t, rfl⟩ : ∃ t', t = LBRACKET :: t' := ⟨_, eq_cons_of_head? hmapping⟩
            rw [if_pos hmapping, headD_cons, if_pos rfl, wp_bind, wp_setCursor]
            dsimp only
            rw [wp_bind, wp_newAddr, someOne_mapping (hnot _), tail_cons]
            dsimp only
            have hpairs := ihmapping (depth + 1) (.allocateMap 0)
              { d with
                cursor := update d.cursor (depth + 1) (d.cursor depth + 2)
                next := d.next + 1 } t (by dsimp only; rw [hcursor]; exact ht.tail.tail)
            dsimp only at hpairs
            rw [hcursor] at hpairs
            exact follows_inner hpairs (Nat.le_add_right _ 2) rfl
          by_cases harray : t.head? = some LBRACE
          · obtain ⟨t, rfl⟩ : ∃ t', t = LBRACE :: t' := ⟨_, eq_cons_of_head? harray⟩
            rw [if_neg hmapping, if_pos harray, headD_cons, if_neg (by decide), if_pos rfl,
              wp_bind, wp_setCursor]
            dsimp only
            rw [someOne_array (hnot _), tail_cons]
            have hitems := iharray (depth + 1) 0
              { d with cursor := update d.cursor (depth + 1) (d.cursor depth + 2) } t
              (by dsimp only; rw [hcursor]; exact ht.tail.tail)
            dsimp only at hitems
            rw [hcursor] at hitems
            exact follows_inner hitems (Nat.le_add_right _ 2) (map_same _).symm
          · rw [if_neg hmapping, if_neg harray, if_neg (mt (headD_eq_iff (by decide)).1 hmapping),
              if_neg (mt (headD_eq_iff (by decide)).1 harray)]
            exact follows_illegal (someOne_paren (hnot t) hmapping harray)
        rw [if_neg hparen, if_neg hparen, someOne_of_ne hparen]
        by_cases hquote : c = QUOTE
        · subst hquote
          rw [if_pos rfl, if_pos rfl]
          exact follows_restoreString ht rfl
        have hR : ¬Quoted (c :: t) := not_quoted hquote
        rw [if_neg hquote, if_neg hquote]
        by_cases hdollar : c = DOLLAR
        · subst hdollar
          rw [if_pos rfl, if_pos rfl]
          exact follows_restoreReference ht hR
        rw [if_neg hdollar, if_neg hdollar]
        by_cases hhash : c = HASH
        · subst hhash
          rw [if_pos rfl, if_pos rfl]
          exact follows_restoreFloat ht hR
        rw [if_neg hhash, if_neg hhash]
        by_cases hnumeric : isNumeric c = true
        · rw [if_pos hnumeric, if_pos hnumeric]
          exact follows_restoreNumber ht hR
        · rw [if_neg hnumeric, if_neg hnumeric]
          exact follows_illegal hR
    · rw [restoreArray, Follows, wp_bind, wp_cursor]
      dsimp only
      rw [wp_bind, wp_load ht.get]
      by_cases hend : t.head? = some RBRACE
      · obtain ⟨t, rfl⟩ : ∃ t', t = RBRACE :: t' := ⟨_, eq_cons_of_head? hend⟩
        rw [restoreArray_closed, headD_cons, if_pos rfl]
        refine follows_closing ht (not_someItem_closing hend) fun s' cursor hs' hcursor ↦ ?_
        subst hs'
        exact follows_allocateItems (d := { d with cursor := cursor })
          (by dsimp only; rw [hcursor]; exact ht.tail.tail)
          (by dsimp only; rw [hcursor]; exact Nat.le_add_right _ 2) (not_someItem_closing hend)
      rw [restoreArray_succ hend, if_neg (mt (headD_eq_iff (by decide)).1 hend), wp_bind,
        wp_setValue, someItem_succ hend]
      dsimp only
      rw [bind_expect]
      refine follows_value COMMA (fun _ ↦ SomeItem Quoted e n)
        (fun x s next ↦ (Object.restoreArray e n (items d depth i ++ [x]) s next).bind
          fun (item, s, next') ↦ allocateArray e item s next') _ (by decide)
        (ihone depth (.item depth i)
          { d with value := update d.value (.item depth i) const0 } t ht)
        ((spares e n).1 depth _ _) fun x s' d' _ htext hx hkept ↦ ?_
      have hitems : items d' depth i = items d depth i := items_congr fun k hk ↦ by
        have hne : Dest.item depth k ≠ .item depth i := fun heq ↦ hk.ne (Dest.item.inj heq).2
        exact (hkept _ le_rfl hne).trans (update_of_ne hne ..)
      have hrest := iharray depth (i + 1) d' s' htext
      rwa [items_succ, hx, hitems] at hrest
    · rw [restoreMapping, Follows, wp_bind, wp_cursor]
      dsimp only
      rw [wp_bind, wp_load ht.get]
      by_cases hend : t.head? = some RBRACKET
      · obtain ⟨t, rfl⟩ : ∃ t', t = RBRACKET :: t' := ⟨_, eq_cons_of_head? hend⟩
        rw [restoreMapping_closed, headD_cons, if_pos rfl]
        refine follows_closing ht (not_somePair_closing hend) fun s' cursor hs' hcursor ↦ ?_
        subst hs'
        refine ⟨s', rfl, ?_, ?_, .refl (not_somePair_closing hend) _ _ _⟩
        · dsimp only
          rw [hcursor]
          exact ht.tail.tail
        · dsimp only
          rw [hcursor]
          exact Nat.le_add_right _ 2
      rw [restoreMapping_succ hend, if_neg (mt (headD_eq_iff (by decide)).1 hend), wp_bind,
        wp_setValue, somePair_succ hend]
      dsimp only
      refine follows_value COLON (fun arg s' next' ↦
        (∃ m', m.getMapLvalue e.world arg id = .ok m') ∧ (SomeOne Quoted e n s' next' ∨
          ∃ val t next'', Object.restoreOne e n s' next' = .ok (val, COMMA :: t, next'') ∧
            ∃ m', m.getMapLvalue e.world arg (fun _ ↦ val) = .ok m' ∧
              SomePair Quoted e n m' t next'')) (behindArg e n m) _ (by decide)
        (ihone depth (.arg depth)
          { d with value := update d.value (.arg depth) const0 } t ht)
        ((spares e n).1 depth _ _) fun arg s' d' _ htext harg _ ↦ ?_
      rw [Follows, wp_bind, wp_value]
      dsimp only
      rw [harg, behindArg]
      cases hm : m.getMapLvalue e.world arg id with
      | error _ => exact follows_abort (by rintro ⟨⟨_, ⟨⟩⟩, _⟩) (by rintro ⟨⟩)
      | ok m' =>
        refine Follows.congr (follows_value COMMA (fun val t next'' ↦
          ∃ m', m.getMapLvalue e.world arg (fun _ ↦ val) = .ok m' ∧ SomePair Quoted e n m' t next'')
          (behindVal e n m arg) _ (by decide) (ihone depth (.val depth) d' s' htext)
          ((spares e n).1 depth _ _) fun val t d'' _ htext' hval _ ↦ ?_)
          (and_iff_right ⟨m', rfl⟩).symm
        rw [Follows, wp_bind, wp_value]
        dsimp only
        rw [hval, behindVal]
        cases hm' : m.getMapLvalue e.world arg fun _ ↦ val with
        | error _ => exact follows_abort (by rintro ⟨_, ⟨⟩, _⟩) (by rintro ⟨⟩)
        | ok m'' =>
          refine (ihmapping depth m'' d'' t htext').congr ⟨fun h ↦ ⟨m'', rfl, h⟩, ?_⟩
          rintro ⟨_, h, hpair⟩
          rwa [Except.ok.inj h]

/-! ### Where it reads and writes -/

theorem Follows.effect {out : β → Decoder → Option α} {m : Decode β}
    (h : Follows R p depth r buf out m d) : ∃ hi, Effect R p hi buf (m d).2.buf := by
  unfold Follows wp at h
  rcases hm : m d with ⟨_ | b, d'⟩
  · rw [hm] at h
    exact h.effect
  · rw [hm] at h
    dsimp only at h
    cases hout : out b d' with
    | none =>
      rw [hout] at h
      exact h.effect
    | some x =>
      rw [hout] at h
      obtain ⟨t, hreads⟩ := h
      exact ⟨_, hreads.effect⟩

theorem follows_start (e : Env) (s : CString) (x : Svalue) (next : ℕ) :
    Follows (SomeOne Quoted e (2 * s.bytes.length + 1) s.bytes next) 0 0 (restore e s.bytes next)
      (s.bytes ++ [0]) (outOne .caller) (restoreOne e (2 * s.bytes.length + 1) 0 .caller)
      (start s x next) :=
  (follows e _).1 0 .caller (start s x next) s.bytes ⟨rfl, s.noNul⟩

/-- **The decoder stays inside its buffers**: it comes to an end, if not because of an array or a
mapping that is too large. -/
def Inside (m : Decode Bool) (d : Decoder) : Prop :=
  (m d).1 = none → (m d).2.why = some .arraySize ∨ (m d).2.why = some .tooLarge

theorem inside_iff_ne (e : Env) (s : CString) (x : Svalue) (next : ℕ) :
    Inside (restoreOne e (2 * s.bytes.length + 1) 0 .caller) (start s x next) ↔
      restore e s.bytes next ≠ .error .overrun := by
  have hfollows := follows_start e s x next
  unfold Follows wp at hfollows
  rw [Inside]
  rcases hm : restoreOne e (2 * s.bytes.length + 1) 0 .caller (start s x next) with ⟨_ | b, d'⟩
  · rw [hm] at hfollows
    obtain ⟨⟨f, hf, hne, hwhy⟩, -⟩ := hfollows
    have hrounds := restore_ne_rounds e s.bytes next
    rw [hf] at hrounds ⊢
    rw [hwhy]
    cases f with
    | illegal => exact absurd rfl hne
    | tooLarge => exact iff_of_true (fun _ ↦ .inr rfl) nofun
    | arraySize => exact iff_of_true (fun _ ↦ .inl rfl) nofun
    | overrun => exact iff_of_false (fun h ↦ by rcases h rfl with h | h <;> cases h) fun h ↦ h rfl
    | rounds => exact absurd rfl hrounds
  · rw [hm] at hfollows
    refine iff_of_true nofun fun hover ↦ ?_
    cases b with
    | false =>
      have hfails : Fails _ 0 (restore e s.bytes next) (s.bytes ++ [0]) d' := hfollows
      rw [hover] at hfails
      cases hfails.fails
    | true =>
      obtain ⟨t, hok, -⟩ : ∃ t, Reads _ 0 0 (restore e s.bytes next) (s.bytes ++ [0])
        (d'.value .caller) d' t := hfollows
      rw [hover] at hok
      cases hok

/-- **The decoder stays inside its buffers** exactly where it does not get to a string that breaks
off behind a backslash, nor to an object whose name there is no room for. -/
theorem inside_iff (e : Env) (s : CString) (x : Svalue) (next : ℕ) :
    Inside (restoreOne e (2 * s.bytes.length + 1) 0 .caller) (start s x next) ↔
      ∀ t, (Reaches e s.bytes next (QUOTE :: t) → ¬Dangling t) ∧
        (Reaches e s.bytes next (DOLLAR :: t) → ¬LongName e t) := by
  rw [inside_iff_ne, ne_eq, restore, (overrun_iff e _).1]
  constructor
  · exact fun h t ↦ ⟨fun hreach hdangling ↦ h ⟨_, hreach, .inl ⟨t, rfl, hdangling⟩⟩,
      fun hreach hlong ↦ h ⟨_, hreach, .inr ⟨t, rfl, hlong⟩⟩⟩
  · rintro h ⟨_, hreach, ⟨t, rfl, hdangling⟩ | ⟨t, rfl, hlong⟩⟩
    · exact (h t).1 hreach hdangling
    · exact (h t).2 hreach hlong

/-- **A quote and a backslash** make the decoder read what is behind the buffer. -/
theorem not_inside : ¬∀ (e : Env) (s : CString) (x : Svalue) (next : ℕ),
    Inside (restoreOne e (2 * s.bytes.length + 1) 0 .caller) (start s x next) := by
  intro hall
  have hinside := hall bare ⟨[QUOTE, BACKSLASH], by decide⟩ const0 0
  refine (inside_iff_ne bare _ const0 0).1 hinside ?_
  rfl

/-! ### Strings that are held elsewhere -/

/-- The strings in memory, and which of them the variables, elements of arrays and entries of the
table of shared strings hold. -/
structure Memory (Holder : Type) where
  bytes : Addr → Bytes
  holds : Holder → Option Addr

variable {Holder : Type}

/-- The text of the string that is held. -/
def Memory.text (mem : Memory Holder) (h : Holder) : Option CString :=
  (mem.holds h).map fun a ↦ .ofBytes (mem.bytes a)

/-- `f_str2val`, for a string at the address `a`: what it leaves in memory. -/
def str2val (e : Env) (mem : Memory Holder) (a : Addr) (next : ℕ) : Memory Holder :=
  let s := CString.ofBytes (mem.bytes a)
  let d := (restoreOne e (2 * s.bytes.length + 1) 0 .caller (start s const0 next)).2
  { mem with bytes := update mem.bytes a d.buf }

theorem ofBytes_ne {s : CString} (h : buf[i]? = some 0) (hi : i < s.bytes.length) :
    CString.ofBytes buf ≠ s := by
  rintro rfl
  obtain ⟨rest, hrest⟩ : (CString.ofBytes buf).bytes <+: buf := takeWhile_prefix _
  have hget : buf[i]? = (CString.ofBytes buf).bytes[i]? := by
    rw [← List.getElem?_append_left hi, hrest]
  rw [hget] at h
  exact (CString.ofBytes buf).noNul (mem_of_getElem? h)

theorem text_iff {s : CString} (h : Effect R 0 hi (s.bytes ++ [0]) buf) :
    CString.ofBytes buf = s ↔ ¬R := by
  constructor
  · intro hsame hR
    obtain ⟨i, -, hnew, hold⟩ := h.scar hR
    refine ofBytes_ne hnew ?_ hsame
    have hlen : buf.length = s.bytes.length + 1 := by
      rw [h.length, length_append, length_singleton]
    have hlt : i < buf.length := (List.getElem?_eq_some_iff.1 hnew).1
    by_contra hle
    have hi : i = s.bytes.length := by omega
    rw [hi, List.getElem?_append_right le_rfl, Nat.sub_self] at hold
    exact hold rfl
  · intro hR
    rw [h.same hR, CString.ofBytes_append_nul]

/-- **A string that is held elsewhere as well keeps its text** exactly if the decoder does not get
to a string in it. -/
theorem str2val_iff (e : Env) (mem : Memory Holder) (a : Addr) (s : CString) (next : ℕ)
    (hbytes : mem.bytes a = s.bytes ++ [0]) :
    (∀ h, mem.holds h = some a → (str2val e mem a next).text h = mem.text h) ↔
      ∀ h, mem.holds h = some a → ∀ t, ¬Reaches e s.bytes next (QUOTE :: t) := by
  obtain ⟨hi, heffect⟩ := (follows_start e s const0 next).effect
  have htext : ∀ h, mem.holds h = some a →
      ((str2val e mem a next).text h = mem.text h ↔ ∀ t, ¬Reaches e s.bytes next (QUOTE :: t)) := by
    intro h hh
    have hnew : (str2val e mem a next).text h = some (.ofBytes (restoreOne e
        (2 * s.bytes.length + 1) 0 .caller (start s const0 next)).2.buf) := by
      have hholds : (str2val e mem a next).holds h = some a := hh
      rw [Memory.text, hholds, str2val, hbytes, CString.ofBytes_append_nul]
      exact congrArg (fun b ↦ some (CString.ofBytes b)) (update_self ..)
    have hold : mem.text h = some s := by
      rw [Memory.text, hh, map_some, hbytes, CString.ofBytes_append_nul]
    rw [hnew, hold, some.injEq, text_iff heffect]
    constructor
    · exact fun hnone t hreach ↦ hnone ⟨_, hreach, rfl⟩
    · rintro hnone ⟨u, hreach, hquoted⟩
      rw [eq_cons_of_head? hquoted] at hreach
      exact hnone _ hreach
  exact forall₂_congr htext

/-- A variable that holds a string. -/
def oneHolder (s : CString) : Memory Unit where
  bytes _ := s.bytes ++ [0]
  holds _ := some 0

/-- The array `({"n",})` is not what it was, since the decoder gets to a string in it. -/
theorem str2val_iff_array : ∃ t, Reaches bare
    [LPAREN, LBRACE, QUOTE, LETTER_N, QUOTE, COMMA, RBRACE, RPAREN] 0 (QUOTE :: t) := by
  by_contra hnone
  have hkept := (str2val_iff bare (oneHolder ⟨[LPAREN, LBRACE, QUOTE, LETTER_N, QUOTE, COMMA,
    RBRACE, RPAREN], by decide⟩) 0 _ 0 rfl).2 (fun _ _ t ht ↦ hnone ⟨t, ht⟩) () rfl
  revert hkept
  decide +kernel

/-- **The string** `"n"` is not what it was after `str2val`. -/
theorem not_str2val : ¬∀ (e : Env) (mem : Memory Unit) (a : Addr) (s : CString) (next : ℕ),
    mem.bytes a = s.bytes ++ [0] → ∀ h, mem.holds h = some a →
      (str2val e mem a next).text h = mem.text h := by
  intro hall
  have hsame := hall bare (oneHolder ⟨[QUOTE, LETTER_N, QUOTE], by decide⟩) 0
    ⟨[QUOTE, LETTER_N, QUOTE], by decide⟩ 0 rfl () rfl
  revert hsame
  decide +kernel

end InPlace

end Lpmud.Object
