import Mathlib.Data.List.Basic

/-!
# Readers that take notes

A reader takes characters from the front of a text, may put some back, takes notes on its way, and
ends with a value. Or it crashes, and then nothing is known of what it would have read.

What a reader does in a sequence is taken apart with `bind_eq_ok`, and with `bind_of_ok` where its
first part takes no notes. A bound of what is left (`Within`) goes from the parts of a sequence to
the whole, and with it the absence of a crash.
-/

universe u

/-- A reader of a text: a value, what is left of the text and the notes, or a crash. -/
def Scanner (ε ν ι α : Type u) : Type u :=
  List ι → Except ε (α × List ι × List ν)

namespace Scanner

variable {ε ν ι α β : Type u}

instance : Monad (Scanner ε ν ι) where
  pure a := fun s ↦ .ok (a, s, [])
  bind x f := fun s ↦ (x s).bind fun r ↦
    (f r.1 r.2.1).map fun r' ↦ (r'.1, r'.2.1, r.2.2 ++ r'.2.2)

/-- A note is taken. -/
def note (n : ν) : Scanner ε ν ι PUnit :=
  fun s ↦ .ok (.unit, s, [n])

/-- The reader crashes. -/
def crash (e : ε) : Scanner ε ν ι α :=
  fun _ ↦ .error e

/-- The next character, if there is one. -/
def next : Scanner ε ν ι (Option ι) :=
  fun s ↦ .ok (s.head?, s.tail, [])

/-- The next character, which is not read. -/
def peek : Scanner ε ν ι (Option ι) :=
  fun s ↦ .ok (s.head?, s, [])

/-- What has been read last is put back: nothing, at the end of the text. -/
def putBack (c : Option ι) : Scanner ε ν ι PUnit :=
  fun s ↦ .ok (.unit, c.toList ++ s, [])

@[simp]
theorem peek_apply (s : List ι) :
    (peek : Scanner ε ν ι (Option ι)) s = .ok (s.head?, s, []) := rfl

@[simp]
theorem next_apply (s : List ι) :
    (next : Scanner ε ν ι (Option ι)) s = .ok (s.head?, s.tail, []) := rfl

@[simp]
theorem putBack_apply (c : Option ι) (s : List ι) :
    (putBack c : Scanner ε ν ι PUnit) s = .ok (.unit, c.toList ++ s, []) := rfl

theorem bind_apply (x : Scanner ε ν ι α) (f : α → Scanner ε ν ι β) (s : List ι) :
    (x >>= f) s = (x s).bind fun r ↦
      (f r.1 r.2.1).map fun r' ↦ (r'.1, r'.2.1, r.2.2 ++ r'.2.2) := rfl

theorem bind_of_ok {x : Scanner ε ν ι α} {s s' : List ι} {a : α} (h : x s = .ok (a, s', []))
    (f : α → Scanner ε ν ι β) : (x >>= f) s = f a s' := by
  rw [bind_apply, h]
  exact congrFun Except.map_id (f a s')

theorem bind_eq_ok {x : Scanner ε ν ι α} {f : α → Scanner ε ν ι β} {s s'' : List ι} {b : β}
    {l : List ν} : (x >>= f) s = .ok (b, s'', l) ↔
      ∃ a s' l₁ l₂, x s = .ok (a, s', l₁) ∧ f a s' = .ok (b, s'', l₂) ∧ l₁ ++ l₂ = l := by
  rw [bind_apply]
  cases hx : x s with
  | error e => exact iff_of_false nofun fun ⟨_, _, _, _, h, _⟩ ↦ nomatch h
  | ok r =>
    obtain ⟨a, s', l₁⟩ := r
    constructor
    · intro h
      cases hf : f a s' with
      | error e =>
        simp only [Except.bind, hf] at h
        cases h
      | ok r =>
        simp only [Except.bind, hf] at h
        cases h
        exact ⟨a, s', l₁, r.2.2, rfl, hf, rfl⟩
    · rintro ⟨a, s', l₁, l₂, h, hf, rfl⟩
      cases h
      simp only [Except.bind, hf]
      rfl

theorem bind_eq_ok_nil {x : Scanner ε ν ι α} {f : α → Scanner ε ν ι β} {s s'' : List ι} {b : β} :
    (x >>= f) s = .ok (b, s'', []) ↔
      ∃ a s', x s = .ok (a, s', []) ∧ f a s' = .ok (b, s'', []) := by
  rw [bind_eq_ok]
  constructor
  · rintro ⟨a, s', l₁, l₂, hx, hf, h⟩
    obtain ⟨rfl, rfl⟩ := List.append_eq_nil_iff.1 h
    exact ⟨a, s', hx, hf⟩
  · rintro ⟨a, s', hx, hf⟩
    exact ⟨a, s', [], [], hx, hf, rfl⟩

/-! ### How far it reads -/

/-- On a text of less than `k` characters the reader does not crash with `e`, and less than `q a`
are left where its value is `a`. -/
def Within (e : ε) (k : ℕ) (x : Scanner ε ν ι α) (q : α → ℕ) : Prop :=
  ∀ s, s.length < k → x s ≠ .error e ∧ ∀ a s' l, x s = .ok (a, s', l) → s'.length < q a

variable {e : ε} {k k' : ℕ} {q q' : α → ℕ} {r : β → ℕ} {x : Scanner ε ν ι α}

theorem within_zero : Within e 0 x q :=
  fun _ h ↦ absurd h (Nat.not_lt_zero _)

theorem Within.mono (h : Within e k x q) (hk : k' ≤ k) (hq : ∀ a, q a ≤ q' a) :
    Within e k' x q' := fun s hs ↦
  have hs' := h s (Nat.lt_of_lt_of_le hs hk)
  ⟨hs'.1, fun a s' l heq ↦ Nat.lt_of_lt_of_le (hs'.2 a s' l heq) (hq a)⟩

theorem Within.bind {f : α → Scanner ε ν ι β} (hx : Within e k x q)
    (hf : ∀ a, Within e (q a) (f a) r) : Within e k (x >>= f) r := by
  intro s hs
  obtain ⟨hne, hlt⟩ := hx s hs
  constructor
  · rw [bind_apply]
    cases heq : x s with
    | error e' =>
      rw [heq] at hne
      exact fun h ↦ hne (congrArg Except.error (Except.error.inj h))
    | ok p =>
      obtain ⟨a, s', l⟩ := p
      have hne' := (hf a s' (hlt a s' l heq)).1
      simp only [Except.bind]
      cases heq' : f a s' with
      | error e' =>
        rw [heq'] at hne'
        exact fun h ↦ hne' (congrArg Except.error (Except.error.inj h))
      | ok p => exact nofun
  · intro b s'' l h
    obtain ⟨a, s', l₁, l₂, hxs, hfs, -⟩ := bind_eq_ok.1 h
    exact (hf a s' (hlt a s' l₁ hxs)).2 b s'' l₂ hfs

theorem within_pure {a : α} (h : k ≤ q a) : Within e k (pure a : Scanner ε ν ι α) q := by
  refine fun s hs ↦ ⟨nofun, fun _ _ _ heq ↦ ?_⟩
  cases heq
  exact Nat.lt_of_lt_of_le hs h

theorem within_note {n : ν} : Within e k (note n : Scanner ε ν ι PUnit) fun _ ↦ k := by
  refine fun s hs ↦ ⟨nofun, fun _ _ _ heq ↦ ?_⟩
  cases heq
  exact hs

theorem within_next : Within e k (next : Scanner ε ν ι (Option ι)) fun c ↦ k - c.toList.length := by
  refine fun s hs ↦ ⟨nofun, fun _ _ _ heq ↦ ?_⟩
  cases heq
  cases s with
  | nil => exact hs
  | cons c s => exact Nat.lt_sub_of_add_lt hs

theorem within_peek : Within e k (peek : Scanner ε ν ι (Option ι)) fun _ ↦ k := by
  refine fun s hs ↦ ⟨nofun, fun _ _ _ heq ↦ ?_⟩
  cases heq
  exact hs

theorem within_putBack {c : Option ι} :
    Within e k (putBack c : Scanner ε ν ι PUnit) fun _ ↦ k + c.toList.length := by
  refine fun s hs ↦ ⟨nofun, fun _ _ _ heq ↦ ?_⟩
  cases heq
  rw [List.length_append, Nat.add_comm]
  exact Nat.add_lt_add_right hs _

/-! ### Notes that are admitted -/

/-- The reader does not crash, and all its notes are in `p`. -/
def Admits (p : ν → Prop) (r : Except ε (α × List ι × List ν)) : Prop :=
  ∃ a s l, r = .ok (a, s, l) ∧ ∀ n ∈ l, p n

theorem Admits.left {p : ν → Prop} {x : Scanner ε ν ι α} {f : α → Scanner ε ν ι β} {s : List ι}
    (h : Admits p ((x >>= f) s)) : Admits p (x s) := by
  obtain ⟨b, s'', l, heq, hl⟩ := h
  obtain ⟨a, s', l₁, l₂, hx, -, rfl⟩ := bind_eq_ok.1 heq
  exact ⟨a, s', l₁, hx, fun n hn ↦ hl n (List.mem_append_left l₂ hn)⟩

theorem Admits.right {p : ν → Prop} {x : Scanner ε ν ι α} {f : α → Scanner ε ν ι β}
    {s s' : List ι} {a : α} {l : List ν} (h : Admits p ((x >>= f) s)) (hx : x s = .ok (a, s', l)) :
    (∀ n ∈ l, p n) ∧ Admits p (f a s') := by
  obtain ⟨b, s'', l', heq, hl⟩ := h
  obtain ⟨a', s₁, l₁, l₂, hx', hf, rfl⟩ := bind_eq_ok.1 heq
  cases hx.symm.trans hx'
  exact ⟨fun n hn ↦ hl n (List.mem_append_left l₂ hn), b, s'', l₂, hf,
    fun n hn ↦ hl n (List.mem_append_right l hn)⟩

theorem not_admits_error {p : ν → Prop} {e : ε} :
    ¬ Admits p (.error e : Except ε (α × List ι × List ν)) :=
  fun ⟨_, _, _, h, _⟩ ↦ nomatch h

end Scanner
