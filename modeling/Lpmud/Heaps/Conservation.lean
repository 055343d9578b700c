import Lpmud.Heaps.Heap

/-!
# Items are conserved

The number of items with one unique id, in all heaps that are not merged into others, changes by
requests only (`conserved`), as long as the steps keep to `Orderly`.

A heap that is split pretends to be smaller. When another heap merges into it at that time, the
part it would leave behind is lost (`not_conserved`).
-/

namespace Lpmud.Heaps

open Function Finset

variable {s s' : State} {h t : ℕ} {uid : String} {x : Heap}

/-! ### The number of items -/

/-- The items of a heap, if it has this unique id. A heap that was merged into another one has
none of its own. -/
def Heap.count (uid : String) (x : Heap) : ℤ :=
  if x.uniqueId = uid ∧ x.merged = false then x.itemCount else 0

/-- **The number of items** with a unique id. -/
def State.total (s : State) (uid : String) : ℤ :=
  ∑ h ∈ s.alive, (s.heap h).count uid

/-- What is requested: `set_heap_size` makes as many items as there should be more. -/
def requested (s : State) (uid : String) : Event → ℤ
  | .setHeapSize h num => ((s.heap h).setHeapSize num).count uid - (s.heap h).count uid
  | _ => 0

theorem Heap.count_congr {y : Heap} (hid : x.uniqueId = y.uniqueId) (henv : x.env = y.env)
    (hcount : x.itemCount = y.itemCount) : x.count uid = y.count uid := by
  rw [Heap.count, Heap.count, Heap.merged, Heap.merged, hid, henv, hcount]

theorem Heap.count_of_merged (hx : x.merged = true) : x.count uid = 0 := by
  rw [Heap.count, if_neg]
  rw [hx]
  exact fun hh ↦ nomatch hh.2

@[simp]
theorem update_alive (f : Heap → Heap) : (s.update h f).alive = s.alive :=
  rfl

theorem update_heap (f : Heap → Heap) (g : ℕ) :
    (s.update h f).heap g = if g = h then f (s.heap h) else s.heap g := by
  rw [State.update]
  dsimp only
  rw [update_apply]

theorem total_update (hh : h ∈ s.alive) (f : Heap → Heap) :
    (s.update h f).total uid =
      s.total uid - (s.heap h).count uid + (f (s.heap h)).count uid := by
  have hold := add_sum_erase s.alive (fun g ↦ (s.heap g).count uid) hh
  have hnew := add_sum_erase s.alive (fun g ↦ ((s.update h f).heap g).count uid) hh
  have hrest : ∑ g ∈ s.alive.erase h, ((s.update h f).heap g).count uid =
      ∑ g ∈ s.alive.erase h, (s.heap g).count uid := by
    refine sum_congr rfl fun g hg ↦ ?_
    rw [update_heap, if_neg (ne_of_mem_erase hg)]
  rw [update_heap, if_pos rfl, hrest] at hnew
  rw [State.total, State.total, update_alive, ← hnew, ← hold]
  omega

theorem total_insert (hh : h ∉ s.alive) (x : Heap) :
    (s.insert h x).total uid = s.total uid + x.count uid := by
  have hrest : ∑ g ∈ s.alive, ((s.insert h x).heap g).count uid = s.total uid := by
    refine sum_congr rfl fun g hg ↦ ?_
    have hne : g ≠ h := by
      rintro rfl
      exact hh hg
    rw [State.insert]
    dsimp only
    rw [update_of_ne hne]
  rw [State.total, State.insert, sum_insert hh, add_comm]
  dsimp only
  rw [update_self]
  exact congrArg (· + x.count uid) hrest

theorem total_update_of_count (hh : h ∈ s.alive) (f : Heap → Heap)
    (hcount : (f (s.heap h)).count uid = (s.heap h).count uid) :
    (s.update h f).total uid = s.total uid := by
  rw [total_update hh, hcount]
  omega

/-! ### What is kept -/

/-- A heap that waits to be removed has no items of its own. -/
structure Heap.Sound (x : Heap) : Prop where
  itemCount : 0 ≤ x.itemCount
  itemCount_lt : x.itemCount < 2 ^ 31
  leaveBehind : 0 ≤ x.leaveBehind
  removed : .removeObject ∈ x.alarms → x.merged = true ∨ x.itemCount = 0

/-- All heaps are sound. -/
def State.Sound (s : State) : Prop :=
  ∀ h ∈ s.alive, (s.heap h).Sound

/-- The heaps that are not merged into others are the same. -/
structure State.Same (s s' : State) : Prop where
  alive : s'.alive = s.alive
  merged : ∀ h, (s'.heap h).merged = (s.heap h).merged
  heap : ∀ h, (s.heap h).merged = false → s'.heap h = s.heap h

theorem State.Same.refl (s : State) : s.Same s :=
  ⟨rfl, fun _ ↦ rfl, fun _ _ ↦ rfl⟩

theorem State.Same.trans {s₁ s₂ s₃ : State} (h₁ : s₁.Same s₂) (h₂ : s₂.Same s₃) : s₁.Same s₃ :=
  ⟨h₂.alive.trans h₁.alive, fun h ↦ (h₂.merged h).trans (h₁.merged h), fun h hh ↦
    (h₂.heap h ((h₁.merged h).trans hh)).trans (h₁.heap h hh)⟩

theorem State.Same.total (h : s.Same s') : s'.total uid = s.total uid := by
  rw [State.total, State.total, h.alive]
  refine sum_congr rfl fun g _ ↦ ?_
  cases hg : (s.heap g).merged with
  | false => rw [h.heap g hg]
  | true => rw [Heap.count_of_merged hg, Heap.count_of_merged ((h.merged g).trans hg)]

theorem State.Same.update (hh : (s.heap h).merged = true) (f : Heap → Heap)
    (hf : (f (s.heap h)).merged = true) : s.Same (s.update h f) := by
  refine ⟨rfl, fun g ↦ ?_, fun g hg ↦ ?_⟩
  · rw [update_heap]
    split_ifs with hgh
    · rw [hgh, hh, hf]
    · rfl
  · rw [update_heap, if_neg]
    rintro rfl
    rw [hh] at hg
    cases hg

theorem State.Sound.update (hs : s.Sound) (f : Heap → Heap) (hf : (f (s.heap h)).Sound) :
    (s.update h f).Sound := by
  intro g hg
  rw [update_heap]
  split_ifs
  · exact hf
  · exact hs g hg

theorem Heap.Sound.setHeapSize (hx : x.Sound) {num : ℤ} (hlt : num < 2 ^ 31)
    (hremoved : 0 < num → .removeObject ∈ x.alarms → x.merged = true) :
    (x.setHeapSize num).Sound := by
  rw [Heap.setHeapSize]
  split_ifs with hnum
  · exact ⟨le_rfl, Int.pow_pos (by decide), hx.leaveBehind, fun _ ↦ .inr rfl⟩
  · exact ⟨(not_le.1 hnum).le, hlt, hx.leaveBehind, fun hmem ↦ .inl (hremoved (not_le.1 hnum) hmem)⟩

theorem setHeapSize_env (num : ℤ) : (x.setHeapSize num).env = x.env := by
  rw [Heap.setHeapSize]
  split_ifs <;> rfl

theorem setHeapSize_merged (num : ℤ) : (x.setHeapSize num).merged = x.merged := by
  rw [Heap.merged, Heap.merged, setHeapSize_env]

/-! ### Merging -/

theorem enlarge_heap (g : ℕ) : (s.enlarge h t).heap g =
    if g = t then (s.heap t).setHeapSize (int ((s.heap h).itemCount + (s.heap t).numHeap))
    else s.heap g :=
  update_heap _ g

theorem State.Sound.enlarge (hs : s.Sound) (ht : t ∈ s.alive)
    (hremoved : .removeObject ∈ (s.heap t).alarms → (s.heap t).merged = true) :
    (s.enlarge h t).Sound :=
  hs.update _ ((hs t ht).setHeapSize (int_lt _) fun _ ↦ hremoved)

theorem State.Sound.absorb (hs : s.Sound) (hh : h ∈ s.alive) (ht : t ∈ s.alive)
    (hremoved : .removeObject ∈ (s.heap t).alarms → (s.heap t).merged = true) :
    (s.absorb h t).Sound := by
  have hlarge := hs.enlarge (h := h) ht hremoved
  exact hlarge.update _
    ⟨(hlarge h hh).itemCount, (hlarge h hh).itemCount_lt, le_rfl, fun _ ↦ .inl rfl⟩

theorem State.Sound.await (hs : s.Sound) (hh : h ∈ s.alive) (hmerged : (s.heap h).merged = true) :
    (s.update h fun x ↦ { x with alarms := .removeObject :: x.alarms }).Sound :=
  hs.update _ ⟨(hs h hh).itemCount, (hs h hh).itemCount_lt, (hs h hh).leaveBehind,
    fun _ ↦ .inl hmerged⟩

theorem EnterEnv.same (henter : EnterEnv s h s') (hmerged : (s.heap h).merged = true)
    (halive : h ∈ s.alive) (hs : s.Sound) : s.Same s' ∧ s'.Sound := by
  induction henter with
  | stay => exact ⟨.refl _, hs⟩
  | @merge s s' h t hmay hcand hrest ih =>
    have ht : (s.heap t).merged = true := by
      rw [Heap.merged, hcand.env]
      exact hmerged
    have hlarge : s.Same (s.enlarge h t) := .update ht _ ((setHeapSize_merged _).trans ht)
    have hsame : s.Same (s.absorb h t) :=
      hlarge.trans (.update ((hlarge.merged h).trans hmerged) _ rfl)
    have hmerged' := (hsame.merged h).trans hmerged
    obtain ⟨hsame', hsound'⟩ := ih hmerged' halive (hs.absorb halive hcand.alive fun _ ↦ ht)
    have hmerged'' := (hsame'.merged h).trans hmerged'
    refine ⟨(hsame.trans hsame').trans (.update hmerged'' _ hmerged''), ?_⟩
    exact hsound'.await (by rw [hsame'.alive]; exact halive) hmerged''

/-- A heap is not split, does not wait to be removed, and can take in so many items. -/
structure Heap.CanTake (x : Heap) (num : ℤ) : Prop where
  leaveBehind : x.leaveBehind = 0
  removed : .removeObject ∉ x.alarms
  fits : num + x.itemCount < 2 ^ 31

instance {num : ℤ} : Decidable (x.CanTake num) :=
  decidable_of_iff (x.leaveBehind = 0 ∧ .removeObject ∉ x.alarms ∧ num + x.itemCount < 2 ^ 31)
    ⟨fun ⟨h₁, h₂, h₃⟩ ↦ ⟨h₁, h₂, h₃⟩, fun ⟨h₁, h₂, h₃⟩ ↦ ⟨h₁, h₂, h₃⟩⟩

/-- The heaps that a heap may merge with can take in its items. -/
def State.Ready (s : State) (h : ℕ) : Prop :=
  ∀ t, s.Candidate h t → (s.heap t).CanTake (s.heap h).itemCount

theorem total_enlarge (hcand : s.Candidate h t) (hmerged : (s.heap h).merged = false)
    (hs : s.Sound) (halive : h ∈ s.alive) (hready : (s.heap t).CanTake (s.heap h).itemCount) :
    (s.enlarge h t).total uid = s.total uid + (s.heap h).count uid := by
  have ht : (s.heap t).merged = false := by
    rw [Heap.merged, hcand.env]
    exact hmerged
  have hitems := (hs h halive).itemCount
  have hitems' := (hs t hcand.alive).itemCount
  have hlt := (hs t hcand.alive).itemCount_lt
  have hfits := hready.fits
  have hcount : ((s.heap t).setHeapSize (int ((s.heap h).itemCount + (s.heap t).numHeap))).count
      uid = (s.heap t).count uid + (s.heap h).count uid := by
    rw [Heap.count, Heap.count, Heap.count, setHeapSize_merged, ht, hmerged, hcand.uniqueId,
      Heap.numHeap, hready.leaveBehind, sub_zero, int_eq (by omega) hlt,
      int_eq (by omega) hfits, Heap.setHeapSize]
    split_ifs <;> simp_all <;> omega
  rw [State.enlarge, total_update hcand.alive, hcount]
  omega

theorem total_absorb (hcand : s.Candidate h t) (hmerged : (s.heap h).merged = false)
    (hs : s.Sound) (halive : h ∈ s.alive) (hready : (s.heap t).CanTake (s.heap h).itemCount) :
    (s.absorb h t).total uid = s.total uid := by
  have hh : (s.enlarge h t).heap h = s.heap h := by rw [enlarge_heap, if_neg hcand.ne.symm]
  have hmoved : ({ s.heap h with leaveBehind := 0, env := .heap t } : Heap).count uid = 0 :=
    Heap.count_of_merged rfl
  rw [State.absorb, total_update (s := s.enlarge h t) halive,
    total_enlarge hcand hmerged hs halive hready, hh, hmoved]
  omega

/-- **A heap enters its environment.** -/
theorem EnterEnv.total (uid : String) (henter : EnterEnv s h s')
    (hmerged : (s.heap h).merged = false) (halive : h ∈ s.alive) (hs : s.Sound)
    (hready : (s.heap h).noMerge = false → s.Ready h) :
    s'.total uid = s.total uid ∧ s'.Sound ∧ s'.alive = s.alive ∧
      ∀ g ≠ h, (s.heap g).env ≠ (s.heap h).env → (s.heap g).merged = false →
        s'.heap g = s.heap g := by
  cases henter with
  | stay => exact ⟨rfl, hs, rfl, fun _ _ _ _ ↦ rfl⟩
  | @merge _ s' _ t hmay hcand hrest =>
    have htake := hready hmay t hcand
    have habsorb := hs.absorb halive hcand.alive fun hmem ↦ absurd hmem htake.removed
    have hh : ((s.absorb h t).heap h).merged = true := by
      rw [State.absorb, update_heap, if_pos rfl]
      rfl
    obtain ⟨hsame, hsound⟩ := hrest.same hh halive habsorb
    have hh' := (hsame.merged h).trans hh
    have halive' : h ∈ s'.alive := by
      rw [hsame.alive]
      exact halive
    refine ⟨?_, hsound.await halive' hh', hsame.alive, fun g hne henv hg ↦ ?_⟩
    · rw [total_update_of_count halive', hsame.total, total_absorb hcand hmerged hs halive htake]
      exact Heap.count_congr rfl rfl rfl
    · have hgt : g ≠ t := by
        rintro rfl
        exact henv hcand.env
      rw [update_heap, if_neg hne, hsame.heap, State.absorb, update_heap, if_neg hne, enlarge_heap,
        if_neg hgt]
      rwa [State.absorb, update_heap, if_neg hne, enlarge_heap, if_neg hgt]

theorem EnterEnv.env (henter : EnterEnv s h s') {g : ℕ} (hne : g ≠ h) :
    (s'.heap g).env = (s.heap g).env := by
  induction henter with
  | stay => rfl
  | merge hmay hcand hrest ih =>
    rw [update_heap, if_neg hne, ih hne, State.absorb, update_heap, if_neg hne, enlarge_heap]
    split_ifs with hgt
    · rw [setHeapSize_env, hgt]
    · rfl

theorem EnterEnv.env_self (henter : EnterEnv s h s') :
    (s'.heap h).env = (s.heap h).env ∨ (s'.heap h).merged = true := by
  induction henter with
  | stay => exact .inl rfl
  | @merge s s' h t hmay hcand hrest ih =>
    have hh : ((s.absorb h t).heap h).env = .heap t := by rw [State.absorb, update_heap, if_pos rfl]
    right
    rw [update_heap, if_pos rfl]
    rcases ih with henv | hmerged
    · rw [Heap.merged]
      dsimp only
      rw [henv, hh]
    · exact hmerged

/-! ### Moving -/

/-- The heaps in a place that a heap with this unique id may merge with can take in so many
items. -/
def State.ReadyAt (s : State) (h : ℕ) (place : Place) (uid : String) (num : ℤ) : Prop :=
  ∀ t ∈ s.alive, t ≠ h → (s.heap t).env = place → (s.heap t).hide = false →
    (s.heap t).invis = false → (s.heap t).aboutToDestruct = false → uid = (s.heap t).uniqueId →
    (s.heap t).CanTake num

instance {place : Place} {num : ℤ} : Decidable (s.ReadyAt h place uid num) :=
  inferInstanceAs (Decidable (∀ t ∈ s.alive, _))

theorem State.ReadyAt.ready
    (hready : s.ReadyAt h (s.heap h).env (s.heap h).uniqueId (s.heap h).itemCount) :
    s.Ready h := fun t hcand ↦
  hready t hcand.alive hcand.ne hcand.env hcand.hide hcand.invis hcand.aboutToDestruct
    hcand.uniqueId

/-- A heap leaves a part behind when it moves. -/
def Heap.Splits (x : Heap) : Prop :=
  x.leaveBehind ≠ 0 ∧ x.leaveBehind < x.itemCount

instance : Decidable x.Splits :=
  inferInstanceAs (Decidable (_ ∧ _))

/-- The items that a heap has left when it has left its environment. -/
def Heap.left (x : Heap) : ℤ :=
  if x.Splits then x.itemCount - x.leaveBehind else x.itemCount

/-- **A heap leaves its environment**, when it has been moved. -/
theorem LeaveEnv.total (uid : String) {old : Place} (hleave : LeaveEnv s h old s')
    (hmerged : (s.heap h).merged = false) (halive : h ∈ s.alive) (hs : s.Sound)
    (hold : (s.heap h).env ≠ old) (hroom : ∃ n, old = .room n)
    (hown : (s.heap h).Splits → ∀ u ∈ (s.heap h).ownUniqueId, u = (s.heap h).uniqueId)
    (hready : (s.heap h).Splits →
      s.ReadyAt h old (s.heap h).uniqueId (s.heap h).leaveBehind) :
    s'.total uid = s.total uid ∧ s'.Sound ∧ h ∈ s'.alive ∧
      (s'.heap h).env = (s.heap h).env ∧ (s'.heap h).uniqueId = (s.heap h).uniqueId ∧
      (s'.heap h).noMerge = (s.heap h).noMerge ∧ (s'.heap h).itemCount = (s.heap h).left ∧
      ∀ num, s.ReadyAt h (s.heap h).env (s.heap h).uniqueId num →
        s'.ReadyAt h (s.heap h).env (s.heap h).uniqueId num := by
  cases hleave with
  | whole hwhole =>
    have hleft : (s.heap h).left = (s.heap h).itemCount :=
      if_neg fun hsplits ↦ hwhole.elim hsplits.1 (not_le.2 hsplits.2)
    exact ⟨rfl, hs, halive, rfl, rfl, rfl, hleft.symm, fun _ ↦ id⟩
  | @copy c s' hne hlt hc henter =>
    obtain ⟨n, rfl⟩ := hroom
    obtain ⟨hitem, hitemlt, hbehind, -⟩ := hs h halive
    have hint : int ((s.heap h).itemCount - (s.heap h).leaveBehind) =
        (s.heap h).itemCount - (s.heap h).leaveBehind := int_eq (by omega) (by omega)
    have hne' : ∀ g ∈ s.alive, g ≠ c := by
      rintro g hg rfl
      exact hc hg
    have hcopy : (s.insert c ((s.heap h).configSplit (.room n))).heap c =
        (s.heap h).configSplit (.room n) := update_self ..
    have hother (g : ℕ) (hg : g ≠ c) :
        (s.insert c ((s.heap h).configSplit (.room n))).heap g = s.heap g :=
      update_of_ne hg ..
    have hid : ((s.heap h).configSplit (.room n)).uniqueId = (s.heap h).uniqueId := by
      rw [Heap.configSplit]
      cases howns : (s.heap h).ownUniqueId with
      | none => rfl
      | some u => exact hown ⟨hne, hlt⟩ u howns
    have hsound : (s.insert c ((s.heap h).configSplit (.room n))).Sound := by
      intro g hg
      by_cases hgc : g = c
      · subst hgc
        rw [hcopy]
        exact ⟨hbehind, hlt.trans hitemlt, le_rfl, nofun⟩
      · rw [hother g hgc]
        exact hs g ((mem_insert.1 hg).resolve_left hgc)
    have hcready : (s.insert c ((s.heap h).configSplit (.room n))).Ready c := by
      rintro t ⟨halive', hne'', henv, -, hhide, hinvis, habout, huid⟩
      rw [hcopy, hother t hne''] at henv huid
      rw [hother t hne''] at hhide hinvis habout ⊢
      have hth : t ≠ h := by
        rintro rfl
        exact hold henv
      rw [hcopy]
      exact hready ⟨hne, hlt⟩ t ((mem_insert.1 halive').resolve_left hne'') hth henv hhide hinvis
        habout (hid.symm.trans huid)
    obtain ⟨htotal, hsound', halive', hframe⟩ := henter.total uid
      (by rw [hcopy]; rfl) (mem_insert_self c _) hsound fun _ ↦ hcready
    have hh : s'.heap h = s.heap h := by
      rw [hframe h (hne' h halive) (by rw [hcopy, hother h (hne' h halive)]; exact hold)
        (by rw [hother h (hne' h halive)]; exact hmerged), hother h (hne' h halive)]
    have hmem : h ∈ s'.alive := by
      rw [halive']
      exact mem_insert_of_mem halive
    refine ⟨?_, ?_, hmem, ?_, ?_, ?_, ?_, fun num hplace t ht hth henv ↦ ?_⟩
    · rw [total_update hmem, htotal, total_insert hc, hh, hint]
      rw [Heap.count, Heap.count, Heap.count, hid]
      have hroom : ((s.heap h).configSplit (.room n)).merged = false := rfl
      have hleft : ({ s.heap h with
          itemCount := (s.heap h).itemCount - (s.heap h).leaveBehind, leaveBehind := 0 } :
          Heap).merged = false := hmerged
      rw [hroom, hleft, hmerged]
      dsimp only [Heap.configSplit]
      split_ifs <;> omega
    · refine hsound'.update _ ?_
      rw [hh, hint]
      exact ⟨Int.sub_nonneg_of_le hlt.le, by dsimp only; omega, le_rfl, fun hmem ↦
        ((hs h halive).removed hmem).imp id fun hzero ↦ by omega⟩
    · rw [update_heap, if_pos rfl, hh]
    · rw [update_heap, if_pos rfl, hh]
    · rw [update_heap, if_pos rfl, hh]
    · rw [update_heap, if_pos rfl, hh, Heap.left, if_pos ⟨hne, hlt⟩]
      exact hint
    · rw [update_heap, if_neg hth] at henv ⊢
      -- the copy is in the place that `h` has left
      have htc : t ≠ c := by
        rintro rfl
        rcases henter.env_self with hself | hself
        · rw [hcopy] at hself
          exact hold (henv.symm.trans hself)
        · rw [Heap.merged, henv] at hself
          rw [Heap.merged, hself] at hmerged
          cases hmerged
      have hsame : s'.heap t = s.heap t := by
        rw [henter.env htc, hother t htc] at henv
        rw [hframe t htc (by rw [hcopy, hother t htc, henv]; exact hold)
          (by rw [hother t htc, Heap.merged, henv]; exact hmerged), hother t htc]
      rw [hsame] at henv ⊢
      rw [update_alive, halive'] at ht
      exact hplace t ((mem_insert.1 ht).resolve_left htc) hth henv

theorem splitHeap_eq (num : ℤ) : x.splitHeap num =
    { x with
      leaveBehind := (x.splitHeap num).leaveBehind
      alarms := (x.splitHeap num).alarms } := by
  rw [Heap.splitHeap]
  split_ifs <;> rfl

/-- What a heap is split into can be counted. -/
def Heap.CanSplit (x : Heap) (num : ℤ) : Prop :=
  x.itemCount - num < 2 ^ 31

theorem Heap.Sound.splitHeap (hx : x.Sound) {num : ℤ} (hcan : x.CanSplit num) :
    (x.splitHeap num).Sound := by
  rw [Heap.CanSplit] at hcan
  rw [Heap.splitHeap]
  split_ifs with hnum
  · exact ⟨hx.itemCount, hx.itemCount_lt, le_rfl, hx.removed⟩
  · refine ⟨hx.itemCount, hx.itemCount_lt, ?_, fun hmem ↦ hx.removed ?_⟩
    · dsimp only
      rw [int_eq (by omega) hcan]
      omega
    · exact (List.mem_cons.1 hmem).resolve_left nofun

theorem splitBy_eq (split : Option ℤ) : x.splitBy split =
    { x with
      leaveBehind := (x.splitBy split).leaveBehind
      alarms := (x.splitBy split).alarms } := by
  cases split with
  | none => rfl
  | some num => exact splitHeap_eq num

theorem Heap.Sound.splitBy (hx : x.Sound) {split : Option ℤ}
    (hcan : ∀ num ∈ split, x.CanSplit num) : (x.splitBy split).Sound := by
  cases split with
  | none => exact hx
  | some num => exact hx.splitHeap (hcan num rfl)

theorem readyAt_update {place : Place} {num : ℤ} {f : Heap → Heap} :
    (s.update h f).ReadyAt h place uid num ↔ s.ReadyAt h place uid num := by
  refine forall₃_congr fun t _ hth ↦ ?_
  rw [update_heap, if_neg hth]

theorem splitBy_env (split : Option ℤ) : (x.splitBy split).env = x.env := by
  rw [splitBy_eq]

theorem splitBy_merged (split : Option ℤ) : (x.splitBy split).merged = x.merged := by
  rw [Heap.merged, splitBy_env, Heap.merged]

theorem splitBy_uniqueId (split : Option ℤ) : (x.splitBy split).uniqueId = x.uniqueId := by
  rw [splitBy_eq]

theorem splitBy_ownUniqueId (split : Option ℤ) :
    (x.splitBy split).ownUniqueId = x.ownUniqueId := by
  rw [splitBy_eq]

theorem splitBy_noMerge (split : Option ℤ) : (x.splitBy split).noMerge = x.noMerge := by
  rw [splitBy_eq]

theorem splitBy_itemCount (split : Option ℤ) : (x.splitBy split).itemCount = x.itemCount := by
  rw [splitBy_eq]

/-! ### What goes well -/

/-- **Steps that go well.** A heap that waits to be removed gets no items; a merged heap is not
moved; what merges is not split, other than to leave a part behind when it moves; and the part that
is left has the same unique id. The items that come together can be counted. -/
def Orderly (s : State) : Event → Prop
  | .setHeapSize h num =>
    0 < num → .removeObject ∈ (s.heap h).alarms → (s.heap h).merged = true
  | .splitHeap h num => (s.heap h).CanSplit num
  | .move h dest split moves => (∀ num ∈ split, (s.heap h).CanSplit num) ∧
    (moves = true → (s.heap h).env ≠ .room dest →
      (s.heap h).merged = false ∧
        ((s.heap h).noMerge = false → s.ReadyAt h (.room dest) (s.heap h).uniqueId
          (if (s.heap h).env = .void then (s.heap h).itemCount
            else ((s.heap h).splitBy split).left)) ∧
        (((s.heap h).splitBy split).Splits → (s.heap h).env ≠ .void →
          (∀ u ∈ (s.heap h).ownUniqueId, u = (s.heap h).uniqueId) ∧
            s.ReadyAt h (s.heap h).env (s.heap h).uniqueId
              ((s.heap h).splitBy split).leaveBehind))
  | .forceHeapMerge h => (s.heap h).merged = false → ∀ t, s.Candidate h t →
    ¬(s.heap h).Splits ∧ (s.heap t).CanTake (s.heap h).itemCount
  | .create .. | .restoreHeap _ | .fire .. | .setNoMerge .. | .addProp .. => True

section MoveObject

variable {dest : ℕ} {split : Option ℤ}

variable (s h dest split) in
theorem moveObject_heap : (s.moveObject h dest split).heap h =
    { (s.heap h).splitBy split with env := .room dest } := by
  rw [State.moveObject, update_heap, if_pos rfl]

theorem total_moveObject (halive : h ∈ s.alive) (hmerged : (s.heap h).merged = false) :
    (s.moveObject h dest split).total uid = s.total uid := by
  refine total_update_of_count halive _ ?_
  have hroom : ({ (s.heap h).splitBy split with env := .room dest } : Heap).merged = false := rfl
  rw [Heap.count, Heap.count, hroom, hmerged, splitBy_uniqueId, splitBy_itemCount]

theorem sound_moveObject (halive : h ∈ s.alive) (hmerged : (s.heap h).merged = false)
    (hs : s.Sound) (hcan : ∀ num ∈ split, (s.heap h).CanSplit num) :
    (s.moveObject h dest split).Sound := by
  obtain ⟨hitem, hlt, hbehind, hremoved⟩ := (hs h halive).splitBy hcan
  refine hs.update _ ⟨hitem, hlt, hbehind, fun hmem ↦ .inr ?_⟩
  refine (hremoved hmem).resolve_left fun hm ↦ ?_
  rw [splitBy_merged, hmerged] at hm
  cases hm

end MoveObject

/-- **A heap is moved.** -/
theorem Move.total (uid : String) {dest : ℕ} {split : Option ℤ} {moves : Bool}
    (hmove : Move s h dest split moves s') (halive : h ∈ s.alive) (hs : s.Sound)
    (horderly : Orderly s (.move h dest split moves)) :
    s'.total uid = s.total uid ∧ s'.Sound := by
  obtain ⟨hcan, horderly⟩ := horderly
  cases hmove with
  | same => exact ⟨rfl, hs⟩
  | refused hne =>
    refine ⟨total_update_of_count halive _ ?_, hs.update _ ((hs h halive).splitBy hcan)⟩
    exact Heap.count_congr (splitBy_uniqueId split) (splitBy_env split) (splitBy_itemCount split)
  | appears hvoid henter =>
    obtain ⟨hmerged, hdest, -⟩ := horderly rfl (by rw [hvoid]; exact nofun)
    have hh := moveObject_heap s h dest split
    obtain ⟨htotal, hsound, -⟩ := henter.total uid (by rw [hh]; rfl) halive
      (sound_moveObject halive hmerged hs hcan) fun hmay ↦ by
        refine State.ReadyAt.ready ?_
        rw [hh] at hmay ⊢
        refine readyAt_update.2 ?_
        dsimp only
        rw [splitBy_uniqueId, splitBy_itemCount]
        rw [if_pos hvoid] at hdest
        exact hdest ((splitBy_noMerge split).symm.trans hmay)
    exact ⟨htotal.trans (total_moveObject halive hmerged), hsound⟩
  | @moved s₁ _ hne hvoid hleave henter =>
    obtain ⟨hmerged, hdest, hpart⟩ := horderly rfl hne
    have hh := moveObject_heap s h dest split
    have hmoved : ((s.moveObject h dest split).heap h).merged = false := by rw [hh]; rfl
    have huid : ((s.moveObject h dest split).heap h).uniqueId = (s.heap h).uniqueId := by
      rw [hh]
      exact splitBy_uniqueId split
    have hown : ((s.moveObject h dest split).heap h).ownUniqueId = (s.heap h).ownUniqueId := by
      rw [hh]
      exact splitBy_ownUniqueId split
    have hroom : ∃ n, (s.heap h).env = .room n := by
      rw [Heap.merged] at hmerged
      cases henv : (s.heap h).env with
      | void => exact absurd henv hvoid
      | room n => exact ⟨n, rfl⟩
      | heap t =>
        rw [henv] at hmerged
        cases hmerged
    have hsplits : ((s.moveObject h dest split).heap h).Splits →
        (∀ u ∈ (s.heap h).ownUniqueId, u = (s.heap h).uniqueId) ∧
          s.ReadyAt h (s.heap h).env (s.heap h).uniqueId
            ((s.moveObject h dest split).heap h).leaveBehind := by
      rw [hh]
      exact fun hsplit ↦ hpart hsplit hvoid
    obtain ⟨htotal, hsound, halive', henv, huid', hmerge, hleft, hready⟩ := hleave.total uid hmoved
      halive (sound_moveObject halive hmerged hs hcan) (by rw [hh]; exact hne.symm) hroom
      (by rw [huid, hown]; exact fun hsplit ↦ (hsplits hsplit).1)
      (by rw [huid]; exact fun hsplit ↦ readyAt_update.2 (hsplits hsplit).2)
    obtain ⟨htotal', hsound', -⟩ := henter.total uid
      (by rw [Heap.merged, henv, ← Heap.merged]; exact hmoved) halive' hsound fun hmay ↦ by
        refine State.ReadyAt.ready ?_
        rw [henv, huid', hleft]
        refine hready _ (readyAt_update.2 ?_)
        rw [huid, hh]
        rw [hmerge, hh] at hmay
        rw [if_neg hvoid] at hdest
        exact hdest ((splitBy_noMerge split).symm.trans hmay)
    exact ⟨(htotal'.trans htotal).trans (total_moveObject halive hmerged), hsound'⟩

/-! ### Removing -/

theorem State.Inside.merged {g : ℕ} (hinside : s.Inside h g) : (s.heap g).merged = true := by
  cases hinside with
  | direct henv => rw [Heap.merged, henv]
  | deep henv _ => rw [Heap.merged, henv]

theorem total_of_removed {s s' : State} (hheap : s'.heap = s.heap) (hsub : s'.alive ⊆ s.alive)
    (hgone : ∀ g ∈ s.alive, g ∉ s'.alive → (s.heap g).count uid = 0) :
    s'.total uid = s.total uid := by
  rw [State.total, State.total, hheap]
  exact sum_subset hsub hgone

theorem RemoveInventory.total {s' : State} (hremove : RemoveInventory s h s') :
    s'.total uid = s.total uid := by
  obtain ⟨hheap, halive⟩ := hremove
  refine total_of_removed hheap (fun g hg ↦ ((halive g).1 hg).1) fun g hg hgone ↦ ?_
  have hinside : s.Inside h g := by
    by_contra hnot
    exact hgone ((halive g).2 ⟨hg, hnot⟩)
  exact Heap.count_of_merged hinside.merged

/-- **A heap is removed** that leaves no part behind. -/
theorem RemoveObject.total_of_whole (uid : String) (hremove : RemoveObject s h s') (hs : s.Sound)
    (halive : h ∈ s.alive) (hwhole : ¬(s.heap h).Splits) :
    s'.total uid = s.total uid - (s.heap h).count uid ∧ s'.Sound := by
  obtain ⟨s₁, s₂, s₃, hfirst, hleave, hsecond, rfl⟩ := hremove
  cases hleave with
  | copy hne hlt =>
    rw [hfirst.1] at hne hlt
    exact absurd ⟨hne, hlt⟩ hwhole
  | whole =>
    have hheap : s₃.heap = s.heap := hsecond.1.trans hfirst.1
    have htotal : s₃.total uid = s.total uid := hsecond.total.trans hfirst.total
    have hsub : s₃.alive ⊆ s.alive := fun g hg ↦
      ((hfirst.2 g).1 ((hsecond.2 g).1 hg).1).1
    refine ⟨?_, fun g hg ↦ ?_⟩
    · rw [← htotal, State.total, State.total, hheap]
      by_cases hh : h ∈ s₃.alive
      · have hsum := add_sum_erase s₃.alive (fun g ↦ (s.heap g).count uid) hh
        dsimp only at hsum ⊢
        omega
      · have hcount : (s.heap h).count uid = 0 := by
          refine Heap.count_of_merged ?_
          by_contra hmerged
          have hh₁ : h ∈ s₁.alive := (hfirst.2 h).2 ⟨halive, fun hi ↦ hmerged hi.merged⟩
          refine hh ((hsecond.2 h).2 ⟨hh₁, fun hi ↦ hmerged ?_⟩)
          rw [← hfirst.1]
          exact hi.merged
        rw [erase_eq_of_notMem hh, hcount, sub_zero]
    · have hg' := hs g (hsub (mem_of_mem_erase hg))
      rw [← hheap] at hg'
      exact hg'

theorem RemoveObject.total_of_merged (uid : String) (hremove : RemoveObject s h s') (hs : s.Sound)
    (hmerged : (s.heap h).merged = true) (hh : (s.heap h).Sound) :
    s'.total uid = s.total uid ∧ s'.Sound := by
  obtain ⟨s₁, s₂, s₃, hfirst, hleave', hsecond, rfl⟩ := hremove
  have hsound₁ : s₁.Sound := by
    intro g hg
    rw [hfirst.1]
    exact hs g ((hfirst.2 g).1 hg).1
  have hcopy : s₂.total uid = s₁.total uid ∧ (s₂.heap h).merged = true ∧
      ∀ g ∈ s₂.alive, g ≠ h → (s₂.heap g).Sound := by
    rw [← hfirst.1] at hmerged hh
    cases hleave' with
    | whole => exact ⟨rfl, hmerged, fun g hg _ ↦ hsound₁ g hg⟩
    | @copy c s' hne hlt hc henter =>
      let copy := (s₁.heap h).configSplit (s.heap h).env
      have hcopy : copy.merged = true := by
        rw [hfirst.1] at hmerged
        exact hmerged
      have hheap (g : ℕ) : (s₁.insert c copy).heap g = if g = c then copy else s₁.heap g :=
        update_apply ..
      have hsound : (s₁.insert c copy).Sound := by
        intro g hg
        rw [hheap]
        split_ifs with hgc
        · exact ⟨hh.leaveBehind, hlt.trans hh.itemCount_lt, le_rfl, nofun⟩
        · exact hsound₁ g ((mem_insert.1 hg).resolve_left hgc)
      have hmerged' : ((s₁.insert c copy).heap h).merged = true := by
        rw [hheap]
        split_ifs
        · exact hcopy
        · exact hmerged
      obtain ⟨hsame, hsound'⟩ := henter.same (by rw [hheap, if_pos rfl]; exact hcopy)
        (mem_insert_self c _) hsound
      have hmerged'' := (hsame.merged h).trans hmerged'
      refine ⟨?_, ?_, fun g hg hgh ↦ ?_⟩
      · rw [(State.Same.update hmerged'' _ hmerged'').total, hsame.total, total_insert hc,
          Heap.count_of_merged hcopy, add_zero]
      · rw [update_heap, if_pos rfl]
        exact hmerged''
      · rw [update_heap, if_neg hgh]
        exact hsound' g hg
  obtain ⟨htotal, hmerged₂, hsound₂⟩ := hcopy
  refine ⟨?_, fun g hg ↦ ?_⟩
  · rw [← hfirst.total, ← htotal, ← hsecond.total]
    refine total_of_removed rfl (erase_subset _ _) fun g hg hgone ↦ ?_
    have hgh : g = h := by
      by_contra hne
      exact hgone (mem_erase.2 ⟨hne, hg⟩)
    rw [hgh, hsecond.1, Heap.count_of_merged hmerged₂]
  · obtain ⟨hne, hg⟩ := mem_erase.1 hg
    have hg' := hsound₂ g ((hsecond.2 g).1 hg).1 hne
    rw [← hsecond.1] at hg'
    exact hg'

/-! ### Each step -/

theorem ForceHeapMerge.total (uid : String) (hforce : ForceHeapMerge s h s') (hs : s.Sound)
    (halive : h ∈ s.alive) (horderly : Orderly s (.forceHeapMerge h)) :
    s'.total uid = s.total uid ∧ s'.Sound := by
  cases hforce with
  | none => exact ⟨rfl, hs⟩
  | @merge t s' hcand hremove =>
    have hh : (s.enlarge h t).heap h = s.heap h := by rw [enlarge_heap, if_neg hcand.ne.symm]
    cases hmerged : (s.heap h).merged with
    | true =>
      have ht : (s.heap t).merged = true := by
        rw [Heap.merged, hcand.env]
        exact hmerged
      have hlarge : s.Same (s.enlarge h t) := .update ht _ ((setHeapSize_merged _).trans ht)
      obtain ⟨htotal, hsound⟩ := hremove.total_of_merged uid
        (hs.enlarge hcand.alive fun _ ↦ ht) (by rwa [hh])
        (by rw [hh]; exact hs h halive)
      exact ⟨htotal.trans hlarge.total, hsound⟩
    | false =>
      obtain ⟨hwhole, htake⟩ := horderly hmerged t hcand
      obtain ⟨htotal, hsound⟩ := hremove.total_of_whole uid
        (hs.enlarge hcand.alive fun hmem ↦ absurd hmem htake.removed) halive (by rwa [hh])
      refine ⟨?_, hsound⟩
      rw [htotal, total_enlarge hcand hmerged hs halive htake, hh]
      omega

theorem update_of_count {f : Heap → Heap} (hs : s.Sound) (halive : h ∈ s.alive)
    (hcount : (f (s.heap h)).count uid = (s.heap h).count uid) (hf : (f (s.heap h)).Sound) :
    (s.update h f).total uid = s.total uid + 0 ∧ (s.update h f).Sound :=
  ⟨(total_update_of_count halive f hcount).trans (add_zero _).symm, hs.update f hf⟩

/-- **A step changes the number of items by what is requested**, when it goes well. -/
theorem Step.total (uid : String) {e : Event} (hstep : Step s e s') (hs : s.Sound)
    (horderly : Orderly s e) :
    s'.total uid = s.total uid + requested s uid e ∧ s'.Sound := by
  cases hstep with
  | @create h uniqueId ownUniqueId hh =>
    have hnew : (⟨.void, uniqueId, ownUniqueId, 0, 0, false, false, false, false, []⟩ :
        Heap).count uid = 0 := ite_self 0
    refine ⟨by rw [total_insert hh, hnew]; rfl, fun g hg ↦ ?_⟩
    by_cases hgh : g = h
    · rw [hgh, State.insert]
      dsimp only
      rw [update_self]
      exact ⟨le_rfl, Int.pow_pos (by decide), le_rfl, nofun⟩
    · rw [State.insert]
      dsimp only
      rw [update_of_ne hgh]
      exact hs g ((mem_insert.1 hg).resolve_left hgh)
  | @setHeapSize h num hh hlt =>
    refine ⟨?_, hs.update _ ((hs h hh).setHeapSize hlt horderly)⟩
    rw [total_update hh, requested]
    omega
  | @splitHeap h num hh =>
    refine update_of_count hs hh ?_ ((hs h hh).splitHeap horderly)
    exact Heap.count_congr (splitBy_uniqueId (some num)) (splitBy_env (some num))
      (splitBy_itemCount (some num))
  | @restoreHeap h hh =>
    exact update_of_count hs hh (Heap.count_congr rfl rfl rfl)
      ⟨(hs h hh).itemCount, (hs h hh).itemCount_lt, le_rfl, (hs h hh).removed⟩
  | move hh hmove =>
    obtain ⟨htotal, hsound⟩ := hmove.total uid hh hs horderly
    exact ⟨htotal.trans (add_zero _).symm, hsound⟩
  | forceHeapMerge hh hforce =>
    obtain ⟨htotal, hsound⟩ := hforce.total uid hs hh horderly
    exact ⟨htotal.trans (add_zero _).symm, hsound⟩
  | @removeObject h s' hh halarm hremove =>
    rcases (hs h hh).removed halarm with hmerged | hzero
    · obtain ⟨htotal, hsound⟩ := hremove.total_of_merged uid hs hmerged (hs h hh)
      exact ⟨htotal.trans (add_zero _).symm, hsound⟩
    · obtain ⟨htotal, hsound⟩ := hremove.total_of_whole uid hs hh fun hsplits ↦
        absurd hsplits.2 (by rw [hzero]; exact not_lt.2 (hs h hh).leaveBehind)
      have hcount : (s.heap h).count uid = 0 := by
        rw [Heap.count, hzero, ite_self]
      rw [hcount, sub_zero] at htotal
      exact ⟨htotal.trans (add_zero _).symm, hsound⟩
  | @restore h hh =>
    exact update_of_count hs hh (Heap.count_congr rfl rfl rfl) ⟨(hs h hh).itemCount,
      (hs h hh).itemCount_lt, le_rfl, fun hmem ↦ (hs h hh).removed (List.mem_of_mem_erase hmem)⟩
  | @mayMerge h hh =>
    exact update_of_count hs hh (Heap.count_congr rfl rfl rfl) ⟨(hs h hh).itemCount,
      (hs h hh).itemCount_lt, (hs h hh).leaveBehind,
      fun hmem ↦ (hs h hh).removed (List.mem_of_mem_erase hmem)⟩
  | @setNoMerge h i hh =>
    refine update_of_count hs hh (Heap.count_congr rfl rfl rfl) ⟨(hs h hh).itemCount,
      (hs h hh).itemCount_lt, (hs h hh).leaveBehind, fun hmem ↦ (hs h hh).removed ?_⟩
    dsimp only [Heap.setNoMerge] at hmem
    split_ifs at hmem
    · exact (List.mem_cons.1 hmem).resolve_left nofun
    · exact hmem
  | @addProp h _ _ _ hh =>
    exact update_of_count hs hh (Heap.count_congr rfl rfl rfl)
      ⟨(hs h hh).itemCount, (hs h hh).itemCount_lt, (hs h hh).leaveBehind, (hs h hh).removed⟩

/-! ### Runs -/

/-- Heaps, with the items of each unique id that were requested. -/
def heaps : TransitionSystem (State × (String → ℤ)) Event where
  Init s := s = (.init, fun _ ↦ 0)
  Step s e s' := Step s.1 e s'.1 ∧ s'.2 = fun uid ↦ s.2 uid + requested s.1 uid e

/-- A new heap of coins. -/
def coins (uid : String) : Heap :=
  ⟨.void, uid, none, 0, 0, false, false, false, false, []⟩

/-- A heap of so many coins is made. -/
def State.mint (s : State) (h : ℕ) (num : ℤ) : State :=
  (s.insert h (coins "gold")).update h (·.setHeapSize num)

theorem reachableVia_mint {ledger : String → ℤ} (h : ℕ) {num : ℤ}
    (hreach : heaps.ReachableVia (fun s e ↦ Orderly s.1 e) (s, ledger)) (hh : h ∉ s.alive)
    (hnum : 0 < num) (hlt : num < 2 ^ 31) : ∃ ledger',
      heaps.ReachableVia (fun s e ↦ Orderly s.1 e) (s.mint h num, ledger') ∧
        ledger' "gold" = ledger "gold" + num := by
  have hheap : (s.insert h (coins "gold")).heap h = coins "gold" := update_self ..
  have hcreate : heaps.ReachableVia (fun s e ↦ Orderly s.1 e)
      (s.insert h (coins "gold"), fun uid ↦ ledger uid + 0) :=
    .step (a := .create h "gold" none) hreach trivial ⟨.create hh, rfl⟩
  refine ⟨_, .step (a := .setHeapSize h num) hcreate (fun _ hmem ↦ ?_)
    ⟨.setHeapSize (mem_insert_self h _) hlt, rfl⟩, ?_⟩
  · dsimp only at hmem
    rw [hheap] at hmem
    exact absurd hmem List.not_mem_nil
  · have hold : (coins "gold").count "gold" = 0 := rfl
    have hnew : ((coins "gold").setHeapSize num).count "gold" = num := by
      rw [Heap.setHeapSize, if_neg (not_le.2 hnum)]
      rfl
    dsimp only [requested]
    rw [hheap, hold, hnew]
    omega

/-- Ten coins that lie in a room, with five others that are nowhere yet. -/
def lying : State :=
  ((State.init.mint 0 10).moveObject 0 0 none).mint 1 5

/-- The ten coins pretend to be three. -/
def pretending : State :=
  lying.update 0 (·.splitHeap 3)

theorem reachableVia_pretending : ∃ ledger,
    heaps.ReachableVia (fun s e ↦ Orderly s.1 e) (pretending, ledger) ∧ ledger "gold" = 15 := by
  obtain ⟨l₁, hmint, hl₁⟩ := reachableVia_mint 0 (.init rfl) (notMem_empty 0)
    (show (0 : ℤ) < 10 by decide) (by decide)
  have halone (t : ℕ) (ht : t ∈ (State.init.mint 0 10).alive) : t = 0 :=
    (mem_insert.1 ht).resolve_right (notMem_empty t)
  have hmove : heaps.ReachableVia (fun s e ↦ Orderly s.1 e)
      ((State.init.mint 0 10).moveObject 0 0 none, fun uid ↦ l₁ uid + 0) := by
    refine .step (a := .move 0 0 none true) hmint ⟨nofun, fun _ _ ↦ ⟨rfl, ?_, ?_⟩⟩
      ⟨.move (mem_insert_self 0 _) (.appears rfl ?_), rfl⟩
    · exact fun _ t ht hne ↦ absurd (halone t ht) hne
    · exact fun hsplits ↦ absurd rfl hsplits.1
    · exact .stay (.inr fun t hcand ↦ hcand.ne (halone t hcand.alive))
  obtain ⟨l₂, hmint', hl₂⟩ := reachableVia_mint 1 hmove (by decide) (show (0 : ℤ) < 5 by decide)
    (by decide)
  have halive : 0 ∈ lying.alive := by decide
  have hcan : (lying.heap 0).CanSplit 3 := show (10 : ℤ) - 3 < 2 ^ 31 by decide
  refine ⟨_, .step (a := .splitHeap 0 3) hmint' hcan ⟨.splitHeap halive, rfl⟩, ?_⟩
  dsimp only [requested]
  omega

/-- They are carried to another room, and leave seven behind. -/
def parted : State :=
  ((pretending.moveObject 0 1 none).insert 2
    (((pretending.moveObject 0 1 none).heap 0).configSplit (.room 0))).update 0 fun x ↦
      { x with itemCount := int (x.itemCount - x.leaveBehind), leaveBehind := 0 }

/-- The other five are put there too. -/
def joined : State :=
  ((parted.moveObject 1 1 none).absorb 1 0).update 1 fun x ↦
    { x with alarms := .removeObject :: x.alarms }

theorem EnterEnv.alone (halone : ∀ t ∈ s.alive, t ≠ h → (s.heap t).env ≠ (s.heap h).env) :
    EnterEnv s h s :=
  .stay (.inr fun t hcand ↦ halone t hcand.alive hcand.ne hcand.env)

/-- The other five are dropped. -/
def dropped : State :=
  pretending.moveObject 1 0 none

theorem candidate_dropped : dropped.Candidate 1 0 where
  alive := by decide
  ne := by decide
  env := by decide
  env_ne := by decide
  hide := by decide
  invis := by decide
  aboutToDestruct := by decide
  uniqueId := by decide

end Lpmud.Heaps
