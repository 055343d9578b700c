import Lpmud.Lib.Path
import Lpmud.Lib.TransitionSystem
import Mathlib.Data.List.Range

/-!
# Snooping

`set_snoop` and `remove_interactive` of `comm1.c`. Every connection records whom it snoops on and by
whom it is snooped, and a connection must not snoop on itself through others. Besides these requests
and disconnections there are new connections, and `exec` moves a connection to another object.

The master is asked for permission in the middle of `set_snoop`, and told of a disconnection at the
end; here it answers, and does nothing else. An access to a connection that is not there, and a
`fatal`, is no result; both do not happen (`snooping`).
-/

namespace Lpmud.Snoop

open Function (update update_of_ne update_self update_eq_self)
open Option (bind_eq_bind bind_none bind_some isSome_some map_some)

abbrev MAX_PLAYERS : ℕ := 500

/-- The address of a connection. -/
abbrev Ip := ℕ

/-- The address of an object. -/
abbrev Ob := ℕ

/-- What is needed of a connection (`struct interactive`). -/
structure Interactive where
  ob : Ob
  snoopOn : Option Ip
  snoopBy : Option Ip
  closing : Bool

/-- The connections, the table of them, and the members `interactive` and `O_DESTRUCTED` of the
objects. -/
structure State where
  mem : Ip → Option Interactive
  allPlayers : ℕ → Option Ip
  interactive : Ob → Option Ip
  destructed : Ob → Bool

namespace State

/-- A write to a connection. -/
def modify (s : State) (ip : Ip) (f : Interactive → Interactive) :
    Option State := do
  let i ← s.mem ip
  some { s with mem := update s.mem ip (some (f i)) }

def setSnoopOn (s : State) (ip : Ip) (q : Option Ip) : Option State :=
  s.modify ip fun i ↦ { i with snoopOn := q }

def setSnoopBy (s : State) (ip : Ip) (q : Option Ip) : Option State :=
  s.modify ip fun i ↦ { i with snoopBy := q }

/-- `ip` stops snooping. -/
def dropOn (s : State) (ip : Ip) : Option State := do
  let i ← s.mem ip
  match i.snoopOn with
  | none => some s
  | some on => do
    let s ← s.setSnoopBy on none
    s.setSnoopOn ip none

/-- `ip` is no more snooped on. -/
def dropBy (s : State) (ip : Ip) : Option State := do
  let i ← s.mem ip
  match i.snoopBy with
  | none => some s
  | some snooper => do
    let s ← s.setSnoopOn snooper none
    s.setSnoopBy ip none

/-! ### `set_snoop` -/

/-- The search for the connections `on` and `by` of the objects `you` and `me`, among the slots that
are left. -/
def findPlayers (s : State) (me : Ob) (you : Option Ob) :
    List ℕ → Option Ip → Option Ip → Option (Option Ip × Option Ip)
  | [], on, snooper => some (on, snooper)
  | i :: is, on, snooper =>
    if on.isSome && snooper.isSome then some (on, snooper)
    else match s.allPlayers i with
      | none => s.findPlayers me you is on snooper
      | some ip => do
        let player ← s.mem ip
        if player.ob = me then s.findPlayers me you is on (some ip)
        else if some player.ob = you then s.findPlayers me you is (some ip) snooper
        else s.findPlayers me you is on snooper

/-- The loop that follows `snoop_on` from `tmp`: whether it meets `snooper`. -/
def meets (s : State) (snooper : Ip) : ℕ → Option Ip → Option Bool
  | 0, _ => none
  | _ + 1, none => some false
  | fuel + 1, some tmp =>
    if tmp = snooper then some true
    else do
      let i ← s.mem tmp
      s.meets snooper fuel i.snoopOn

/-- What `set_snoop` does in the end. -/
inductive Outcome where
  | returned (n : ℕ)
  | error (msg : String)

/-- `set_snoop`, where `valid` says that the master object asks, or that its `M_VALID_SNOOP` does
not refuse. -/
def setSnoop (s : State) (me : Ob) (you : Option Ob) (valid : Bool) :
    Option (Outcome × State) :=
  if s.destructed me then some (.returned 0, s)
  else if you.any s.destructed then some (.returned 0, s)
  else do
    let (on, snooper) ← s.findPlayers me you (List.range MAX_PLAYERS) none none
    if !valid then some (.returned 0, s)
    else match you with
    | none =>
      match snooper with
      | none => some (.error "Could not find snooper to stop snoop on.\n", s)
      | some snooper => do
        let s ← s.dropOn snooper
        some (.returned 1, s)
    | some _ =>
      match on, snooper with
      | some on, some snooper => do
        if ← s.meets snooper (MAX_PLAYERS + 1) (some on) then some (.returned 0, s)
        else do
          let s ← s.dropOn snooper
          let s ← s.dropBy on
          let s ← s.setSnoopBy on (some snooper)
          let s ← s.setSnoopOn snooper (some on)
          some (.returned 1, s)
      | _, _ => some (.returned 0, s)

/-! ### Connections -/

/-- The connection `gone`, of the object `ob` and in the slot `i`, is freed. -/
def erase (s : State) (gone : Ip) (ob : Ob) (i : ℕ) : State :=
  { s with
    mem := update s.mem gone none
    interactive := update s.interactive ob none
    allPlayers := update s.allPlayers i none }

/-- `remove_interactive`, behind the editor. -/
def removeInteractive (s : State) (ip : Ip) : Option State := do
  let ob := (← s.mem ip).ob
  match s.interactive ob with
  | none => some s
  | some gone => do
    let i ← (List.range MAX_PLAYERS).find? fun i ↦ s.allPlayers i = some gone
    if (← s.mem gone).closing then none
    else do
      let s ← s.modify gone fun j ↦ { j with closing := true }
      let s ← s.dropBy gone
      let s ← s.dropOn gone
      some (s.erase gone ob i)

/-- `new_player`: the connection `ip` of the object `ob` in the slot `i`. -/
def newPlayer (s : State) (i : ℕ) (ip : Ip) (ob : Ob) : State :=
  { s with
    mem := update s.mem ip (some ⟨ob, none, none, false⟩)
    allPlayers := update s.allPlayers i (some ip)
    interactive := update s.interactive ob (some ip) }

/-- `replace_interactive`: the connection of `obfrom` is moved to `ob`. -/
def replaceInteractive (s : State) (ob obfrom : Ob) : Option State := do
  if (s.interactive ob).isSome then some s
  else match s.interactive obfrom with
  | none => some s
  | some ip => do
    let s ← s.modify ip fun i ↦ { i with ob := ob }
    some { s with
      interactive := update (update s.interactive ob (some ip)) obfrom none }

end State

/-- What happens to connections. -/
inductive Event where
  | connect (i : ℕ) (ip : Ip) (ob : Ob)
  | snoop (me : Ob) (you : Option Ob) (valid : Bool)
  | disconnect (ip : Ip)
  | exec (ob obfrom : Ob)
  | destruct (ob : Ob)

/-- One event. The memory of a new connection was free, and so was its slot. -/
inductive Step : State → Event → State → Prop where
  | connect {s : State} {i : ℕ} {ip : Ip} (ob : Ob) (hi : i < MAX_PLAYERS)
      (hslot : s.allPlayers i = none) (hfree : s.mem ip = none) :
      Step s (.connect i ip ob) (s.newPlayer i ip ob)
  | snoop {s s' : State} {me : Ob} {you : Option Ob} {valid : Bool} {o : State.Outcome}
      (h : s.setSnoop me you valid = some (o, s')) : Step s (.snoop me you valid) s'
  | disconnect {s s' : State} {ip : Ip} (h : s.removeInteractive ip = some s') :
      Step s (.disconnect ip) s'
  | exec {s s' : State} {ob obfrom : Ob} (h : s.replaceInteractive ob obfrom = some s') :
      Step s (.exec ob obfrom) s'
  | destruct {s : State} (ob : Ob) :
      Step s (.destruct ob) { s with destructed := update s.destructed ob true }

/-- At the start nobody is connected. -/
structure Start (s : State) : Prop where
  mem : ∀ ip, s.mem ip = none
  allPlayers : ∀ i, s.allPlayers i = none
  interactive : ∀ ob, s.interactive ob = none

/-- The histories of a mud. -/
def histories : TransitionSystem State Event where
  Init := Start
  Step := Step

/-! ### Links -/

/-- Two relations that are each other's inverse, given by their values. -/
def Inverse (on snooper : Ip → Option Ip) : Prop :=
  ∀ x y, on x = some y ↔ snooper y = some x

section Inverse

variable {on snooper : Ip → Option Ip} {x y : Ip}

theorem Inverse.drop (h : Inverse on snooper) (hxy : on x = some y) :
    Inverse (update on x none) (update snooper y none) := by
  intro a b
  by_cases ha : a = x <;> by_cases hb : b = y
  · simp [ha, hb]
  · have hne : snooper b ≠ some x := fun hbx ↦
      hb (Option.some.inj (((h x b).2 hbx).symm.trans hxy))
    simp [ha, hb, hne]
  · have hne : on a ≠ some y := fun hay ↦
      ha (Option.some.inj (((h a y).1 hay).symm.trans ((h x y).1 hxy)))
    simp [ha, hb, hne]
  · simp only [update_of_ne ha, update_of_ne hb, h a b]

theorem Inverse.link (h : Inverse on snooper) (hx : on x = none) (hy : snooper y = none) :
    Inverse (update on x (some y)) (update snooper y (some x)) := by
  intro a b
  by_cases ha : a = x <;> by_cases hb : b = y
  · simp [ha, hb]
  · have hne : snooper b ≠ some x := fun hbx ↦ by
      rw [(h x b).2 hbx] at hx
      cases hx
    simp [ha, hb, hne, Ne.symm hb]
  · have hne : on a ≠ some y := fun hay ↦ by
      rw [(h a y).1 hay] at hy
      cases hy
    simp [ha, hb, hne, Ne.symm ha]
  · simp only [update_of_ne ha, update_of_ne hb, h a b]

end Inverse

namespace State

variable {s s' s₁ s₂ s₃ : State} {ip x y : Ip}

/-- Whom a connection snoops on. -/
def on (s : State) (ip : Ip) : Option Ip := (s.mem ip).bind Interactive.snoopOn

/-- By whom a connection is snooped. -/
def snooper (s : State) (ip : Ip) : Option Ip := (s.mem ip).bind Interactive.snoopBy

theorem modify_eq {i : Interactive} {f : Interactive → Interactive} (hi : s.mem ip = some i) :
    s.modify ip f = some { s with mem := update s.mem ip (some (f i)) } := by
  rw [modify, hi]
  rfl

/-- Everything else is as it was. -/
structure Same (s s' : State) : Prop where
  allPlayers : s'.allPlayers = s.allPlayers
  interactive : s'.interactive = s.interactive
  destructed : s'.destructed = s.destructed
  mem : ∀ ip, (s'.mem ip).map (fun i ↦ (i.ob, i.closing)) =
    (s.mem ip).map fun i ↦ (i.ob, i.closing)

theorem Same.refl (s : State) : Same s s :=
  ⟨rfl, rfl, rfl, fun _ ↦ rfl⟩

theorem Same.trans (h : Same s₁ s₂) (h' : Same s₂ s₃) : Same s₁ s₃ :=
  ⟨h'.allPlayers.trans h.allPlayers, h'.interactive.trans h.interactive,
    h'.destructed.trans h.destructed, fun ip ↦ (h'.mem ip).trans (h.mem ip)⟩

theorem Same.isSome (h : Same s s') (ip : Ip) : (s'.mem ip).isSome = (s.mem ip).isSome := by
  simpa using congrArg Option.isSome (h.mem ip)

theorem Same.ob (h : Same s s') (ip : Ip) :
    (s'.mem ip).map Interactive.ob = (s.mem ip).map Interactive.ob := by
  have hmap := congrArg (Option.map Prod.fst) (h.mem ip)
  rwa [Option.map_map, Option.map_map] at hmap

/-- What is known of the links: they are inverse to each other, and following `snoop_on` ends. -/
structure Links (s : State) : Prop where
  inverse : Inverse s.on s.snooper
  ends : ∀ p, ∃ l, PtrPath s.on p l

theorem live_of_on (h : s.on x = some y) : (s.mem x).isSome := by
  rw [on] at h
  cases hx : s.mem x with
  | none => simp [hx] at h
  | some i => rfl

theorem live_of_snooper (h : s.snooper y = some x) : (s.mem y).isSome := by
  rw [snooper] at h
  cases hy : s.mem y with
  | none => simp [hy] at h
  | some i => rfl

theorem setSnoopOn_spec (hlive : (s.mem ip).isSome) (q : Option Ip) :
    ∃ s', s.setSnoopOn ip q = some s' ∧ Same s s' ∧ s'.on = update s.on ip q ∧
      s'.snooper = s.snooper := by
  obtain ⟨i, hi⟩ := Option.isSome_iff_exists.1 hlive
  refine ⟨_, modify_eq hi, ⟨rfl, rfl, rfl, fun k ↦ ?_⟩, funext fun k ↦ ?_,
    funext fun k ↦ ?_⟩
  all_goals
    by_cases hk : k = ip
    · simp [on, snooper, hk, hi]
    · simp [on, snooper, hk]

theorem setSnoopBy_spec (hlive : (s.mem ip).isSome) (q : Option Ip) :
    ∃ s', s.setSnoopBy ip q = some s' ∧ Same s s' ∧ s'.on = s.on ∧
      s'.snooper = update s.snooper ip q := by
  obtain ⟨i, hi⟩ := Option.isSome_iff_exists.1 hlive
  refine ⟨_, modify_eq hi, ⟨rfl, rfl, rfl, fun k ↦ ?_⟩, funext fun k ↦ ?_,
    funext fun k ↦ ?_⟩
  all_goals
    by_cases hk : k = ip
    · simp [on, snooper, hk, hi]
    · simp [on, snooper, hk]

theorem Links.drop (h : Links s) (hxy : s.on x = some y)
    (hon : s'.on = update s.on x none)
    (hby : s'.snooper = update s.snooper y none) : Links s' := by
  refine ⟨?_, ?_⟩
  · rw [hon, hby]
    exact h.inverse.drop hxy
  · rw [hon]
    exact PtrPath.exists_update h.ends .nil List.not_mem_nil

theorem dropOn_spec (h : Links s) (hlive : (s.mem x).isSome) :
    ∃ s', s.dropOn x = some s' ∧ Same s s' ∧ Links s' ∧ s'.on = update s.on x none ∧
      ∀ y, s.snooper y = none → s'.snooper y = none := by
  obtain ⟨i, hi⟩ := Option.isSome_iff_exists.1 hlive
  have hon : s.on x = i.snoopOn := by rw [on, hi, bind_some]
  rw [dropOn, hi]
  cases hx : i.snoopOn with
  | none =>
    refine ⟨s, by simp [hx], .refl s, h, ?_, fun _ hy ↦ hy⟩
    rw [hx] at hon
    rw [← hon, update_eq_self]
  | some y =>
    rw [hx] at hon
    obtain ⟨s₁, hs₁, hsame₁, hon₁, hby₁⟩ := setSnoopBy_spec
      (live_of_snooper ((h.inverse x y).1 hon)) none
    obtain ⟨s₂, hs₂, hsame₂, hon₂, hby₂⟩ := @setSnoopOn_spec s₁ x
      (by rw [hsame₁.isSome, hlive]) none
    rw [hon₁] at hon₂
    rw [hby₁] at hby₂
    refine ⟨s₂, by simp [hx, hs₁, hs₂], hsame₁.trans hsame₂, h.drop hon hon₂ hby₂, hon₂,
      fun z hz ↦ ?_⟩
    rw [hby₂]
    by_cases hzy : z = y
    · rw [hzy, update_self]
    · rw [update_of_ne hzy, hz]

theorem dropBy_spec (h : Links s) (hlive : (s.mem y).isSome) :
    ∃ s', s.dropBy y = some s' ∧ Same s s' ∧ Links s' ∧ s'.snooper y = none ∧
      (∀ x, s.on x = none → s'.on x = none) ∧
      ∀ p l, PtrPath s.on p l → ∃ l', PtrPath s'.on p l' ∧ ∀ z ∈ l', z ∈ l := by
  obtain ⟨i, hi⟩ := Option.isSome_iff_exists.1 hlive
  have hby : s.snooper y = i.snoopBy := by rw [snooper, hi, bind_some]
  rw [dropBy, hi]
  cases hy : i.snoopBy with
  | none =>
    exact ⟨s, by simp [hy], .refl s, h, by rw [hby, hy], fun _ hx ↦ hx,
      fun p l hl ↦ ⟨l, hl, fun _ hz ↦ hz⟩⟩
  | some x =>
    rw [hy] at hby
    have hxy := (h.inverse x y).2 hby
    obtain ⟨s₁, hs₁, hsame₁, hon₁, hby₁⟩ := setSnoopOn_spec (live_of_on hxy) none
    obtain ⟨s₂, hs₂, hsame₂, hon₂, hby₂⟩ := @setSnoopBy_spec s₁ y
      (by rw [hsame₁.isSome, hlive]) none
    rw [hon₁] at hon₂
    rw [hby₁] at hby₂
    refine ⟨s₂, by simp [hy, hs₁, hs₂], hsame₁.trans hsame₂, h.drop hxy hon₂ hby₂, ?_,
      fun z hz ↦ ?_, fun p l hl ↦ ?_⟩
    · rw [hby₂, update_self]
    · rw [hon₂]
      by_cases hzx : z = x
      · rw [hzx, update_self]
      · rw [update_of_ne hzx, hz]
    · rw [hon₂]
      exact hl.exists_update_none x

/-! ### The invariant -/

/-- The table of the connections is right: it has those that are there, each once, and an object
leads to a connection of its own. -/
structure Listed (s : State) : Prop where
  listed : ∀ ip, (s.mem ip).isSome → ∃ i < MAX_PLAYERS, s.allPlayers i = some ip
  live : ∀ i ip, s.allPlayers i = some ip → (s.mem ip).isSome
  once : ∀ i j ip, s.allPlayers i = some ip → s.allPlayers j = some ip → i = j
  interactive : ∀ ob ip, s.interactive ob = some ip → (s.mem ip).map Interactive.ob = some ob

/-- The invariant: the links and the table are right, and no connection is being closed. -/
structure Sound (s : State) : Prop extends Listed s where
  links : Links s
  opened : ∀ ip j, s.mem ip = some j → j.closing = false

theorem Listed.congr (h : Listed s) (hall : s'.allPlayers = s.allPlayers)
    (hint : s'.interactive = s.interactive)
    (hmem : ∀ ip, (s'.mem ip).map Interactive.ob = (s.mem ip).map Interactive.ob) : Listed s' := by
  have hsome (ip : Ip) : (s'.mem ip).isSome = (s.mem ip).isSome := by
    simpa using congrArg Option.isSome (hmem ip)
  refine ⟨fun ip hip ↦ ?_, fun i ip hip ↦ ?_, fun i j ip hi hj ↦ ?_, fun ob ip hip ↦ ?_⟩
  · rw [hsome] at hip
    rw [hall]
    exact h.listed ip hip
  · rw [hall] at hip
    rw [hsome]
    exact h.live i ip hip
  · rw [hall] at hi hj
    exact h.once i j ip hi hj
  · rw [hint] at hip
    rw [hmem]
    exact h.interactive ob ip hip

theorem Sound.of_same (h : Sound s) (hsame : Same s s') (hlinks : Links s') : Sound s' := by
  refine ⟨h.toListed.congr hsame.allPlayers hsame.interactive hsame.ob, hlinks, fun ip j hj ↦ ?_⟩
  have hmap := hsame.mem ip
  rw [hj, map_some] at hmap
  obtain ⟨i, hi, heq⟩ := Option.map_eq_some_iff.1 hmap.symm
  exact (congrArg Prod.snd heq).symm.trans (h.opened ip i hi)

theorem Sound.findPlayers (h : Sound s) (me : Ob) (you : Option Ob) (is : List ℕ)
    {on snooper : Option Ip} (hon : ∀ ip, on = some ip → (s.mem ip).isSome)
    (hby : ∀ ip, snooper = some ip → (s.mem ip).isSome) :
    ∃ on' snooper', s.findPlayers me you is on snooper = some (on', snooper') ∧
      (∀ ip, on' = some ip → (s.mem ip).isSome) ∧ ∀ ip, snooper' = some ip → (s.mem ip).isSome := by
  induction is generalizing on snooper with
  | nil => exact ⟨on, snooper, rfl, hon, hby⟩
  | cons i is ih =>
    rw [State.findPlayers]
    split
    next => exact ⟨on, snooper, rfl, hon, hby⟩
    next =>
      cases hi : s.allPlayers i with
      | none => exact ih hon hby
      | some ip =>
        have hlive := h.live i ip hi
        have hip : ∀ k, some ip = some k → (s.mem k).isSome := by
          rintro k hk
          obtain rfl := Option.some.inj hk
          exact hlive
        obtain ⟨player, hplayer⟩ := Option.isSome_iff_exists.1 hlive
        simp only [hplayer, bind_eq_bind, bind_some]
        split_ifs
        · exact ih hon hip
        · exact ih hip hby
        · exact ih hon hby

theorem PtrPath.live {p : Option Ip} {l : List Ip} (hlinks : Links s) (h : PtrPath s.on p l)
    (hp : ∀ ip, p = some ip → (s.mem ip).isSome) : ∀ ip ∈ l, (s.mem ip).isSome := by
  induction h with
  | nil => exact nofun
  | @cons a l _ ih =>
    refine List.forall_mem_cons.2 ⟨hp a rfl, ih fun b hb ↦ ?_⟩
    exact live_of_snooper ((hlinks.inverse a b).1 hb)

theorem Sound.length_le (h : Sound s) {p : Option Ip} {l : List Ip} (hpath : PtrPath s.on p l)
    (hlive : ∀ ip ∈ l, (s.mem ip).isSome) : l.length ≤ MAX_PLAYERS := by
  have hle : l.length ≤ ((List.range MAX_PLAYERS).filterMap s.allPlayers).length := by
    refine hpath.length_le fun ip hip ↦ ?_
    obtain ⟨i, hi, hslot⟩ := h.listed ip (hlive ip hip)
    exact List.mem_filterMap.2 ⟨i, List.mem_range.2 hi, hslot⟩
  refine hle.trans (List.length_filterMap_le _ _) |>.trans ?_
  rw [List.length_range]

/-- **The loop walks the chain** to its end, or to the snooper. -/
theorem meets_spec {p : Option Ip} {l : List Ip} {fuel : ℕ} (hpath : PtrPath s.on p l)
    (hlive : ∀ ip ∈ l, (s.mem ip).isSome) (hfuel : l.length < fuel) :
    s.meets x fuel p = some (decide (x ∈ l)) := by
  induction hpath generalizing fuel with
  | nil =>
    obtain ⟨fuel, rfl⟩ := Nat.exists_eq_succ_of_ne_zero (Nat.ne_zero_of_lt hfuel)
    rw [meets, decide_eq_false List.not_mem_nil]
  | @cons a l _ ih =>
    obtain ⟨fuel, rfl⟩ := Nat.exists_eq_succ_of_ne_zero (Nat.ne_zero_of_lt hfuel)
    rw [meets]
    split
    next hax => rw [decide_eq_true (by simp [hax])]
    next hax =>
      obtain ⟨i, hi⟩ := Option.isSome_iff_exists.1 (hlive a List.mem_cons_self)
      have hon : s.on a = i.snoopOn := by rw [on, hi, bind_some]
      rw [hon] at ih
      simp only [hi, bind_eq_bind, bind_some]
      rw [ih (fun b hb ↦ hlive b (List.mem_cons_of_mem a hb)) (Nat.lt_of_succ_lt_succ hfuel)]
      simp [Ne.symm hax]

theorem Links.link {l : List Ip} (h : Links s) (hx : s.on x = none) (hy : s.snooper y = none)
    (hpath : PtrPath s.on (some y) l) (hmem : x ∉ l)
    (hon : s'.on = update s.on x (some y))
    (hby : s'.snooper = update s.snooper y (some x)) : Links s' := by
  refine ⟨?_, ?_⟩
  · rw [hon, hby]
    exact h.inverse.link hx hy
  · rw [hon]
    exact PtrPath.exists_update h.ends hpath hmem

/-- The end of `set_snoop`: other links of the two connections are dropped. -/
theorem exists_linked {l : List Ip} (h : Links s) (hx : (s.mem x).isSome) (hy : (s.mem y).isSome)
    (hpath : PtrPath s.on (some y) l) (hmem : x ∉ l) :
    ∃ s', (do
      let s ← s.dropOn x
      let s ← s.dropBy y
      let s ← s.setSnoopBy y (some x)
      let s ← s.setSnoopOn x (some y)
      some (Outcome.returned 1, s)) = some (.returned 1, s') ∧ Same s s' ∧ Links s' := by
  obtain ⟨s₁, hs₁, hsame₁, hlinks₁, hon₁, -⟩ := dropOn_spec h hx
  obtain ⟨s₂, hs₂, hsame₂, hlinks₂, hby₂, hkeep₂, hcut₂⟩ := dropBy_spec (y := y) hlinks₁
    (by rw [hsame₁.isSome, hy])
  obtain ⟨s₃, hs₃, hsame₃, hon₃, hby₃⟩ := @setSnoopBy_spec s₂ y
    (by rw [hsame₂.isSome, hsame₁.isSome, hy]) (some x)
  obtain ⟨s₄, hs₄, hsame₄, hon₄, hby₄⟩ := @setSnoopOn_spec s₃ x
    (by rw [hsame₃.isSome, hsame₂.isSome, hsame₁.isSome, hx]) (some y)
  -- the chain from `y` has only become shorter
  obtain ⟨l₁, hl₁, hsub₁⟩ := hpath.exists_update_none x
  rw [← hon₁] at hl₁
  obtain ⟨l₂, hl₂, hsub₂⟩ := hcut₂ _ _ hl₁
  refine ⟨s₄, by simp [hs₁, hs₂, hs₃, hs₄],
    ((hsame₁.trans hsame₂).trans hsame₃).trans hsame₄, ?_⟩
  refine hlinks₂.link (x := x) (y := y) ?_ hby₂ hl₂ (fun hx ↦ hmem (hsub₁ x (hsub₂ x hx))) ?_ ?_
  · exact hkeep₂ x (by rw [hon₁, update_self])
  · rw [hon₄, hon₃]
  · rw [hby₄, hby₃]

/-- **`set_snoop` returns, and keeps the invariant.** -/
theorem Sound.setSnoop (h : Sound s) (me : Ob) (you : Option Ob) (valid : Bool) :
    ∃ o s', s.setSnoop me you valid = some (o, s') ∧ Sound s' := by
  obtain ⟨on, snooper, hfind, hon, hby⟩ := @Sound.findPlayers s h me you
    (List.range MAX_PLAYERS) none none nofun nofun
  by_cases hme : s.destructed me = true
  · exact ⟨_, s, if_pos hme, h⟩
  by_cases hyou : you.any s.destructed = true
  · exact ⟨_, s, by rw [State.setSnoop, if_neg hme, if_pos hyou], h⟩
  rw [State.setSnoop, if_neg hme, if_neg hyou, hfind]
  cases valid with
  | false => exact ⟨_, s, rfl, h⟩
  | true =>
    cases you with
    | none =>
      cases snooper with
      | none => exact ⟨_, s, rfl, h⟩
      | some x =>
        obtain ⟨s', hs', hsame, hlinks, -⟩ := dropOn_spec h.links (hby x rfl)
        exact ⟨.returned 1, s', by simp [hs'], h.of_same hsame hlinks⟩
    | some you =>
      cases on with
      | none => exact ⟨_, s, rfl, h⟩
      | some y =>
        cases snooper with
        | none => exact ⟨_, s, rfl, h⟩
        | some x =>
          obtain ⟨l, hl⟩ := h.links.ends (some y)
          have hlive := PtrPath.live h.links hl hon
          have hmeets : s.meets x (MAX_PLAYERS + 1) (some y) = some (decide (x ∈ l)) :=
            meets_spec hl hlive (Nat.lt_succ_of_le (h.length_le hl hlive))
          by_cases hmem : x ∈ l
          · exact ⟨.returned 0, s, by simp [hmeets, hmem], h⟩
          · obtain ⟨s', hs', hsame, hlinks⟩ := exists_linked h.links (hby x rfl) (hon y rfl) hl hmem
            exact ⟨.returned 1, s', by simpa [hmeets, hmem] using hs', h.of_same hsame hlinks⟩

theorem on_update {i j : Interactive} (hi : s.mem ip = some i) (hon : j.snoopOn = i.snoopOn)
    (hby : j.snoopBy = i.snoopBy) (hmem : s'.mem = update s.mem ip (some j)) :
    s'.on = s.on ∧ s'.snooper = s.snooper := by
  refine ⟨funext fun k ↦ ?_, funext fun k ↦ ?_⟩
  all_goals
    by_cases hk : k = ip
    · simp [on, snooper, hmem, hk, hi, hon, hby]
    · simp [on, snooper, hmem, hk]

theorem Links.erase (h : Links s) {gone : Ip} (ob : Ob) (i : ℕ) (hon : s.on gone = none)
    (hby : s.snooper gone = none) : Links (s.erase gone ob i) := by
  have hon' : (s.erase gone ob i).on = s.on := by
    funext k
    by_cases hk : k = gone
    · rw [hk, hon]
      simp [on, State.erase]
    · simp [on, State.erase, hk]
  have hby' : (s.erase gone ob i).snooper = s.snooper := by
    funext k
    by_cases hk : k = gone
    · rw [hk, hby]
      simp [snooper, State.erase]
    · simp [snooper, State.erase, hk]
  refine ⟨?_, ?_⟩
  · rw [hon', hby']
    exact h.inverse
  · rw [hon']
    exact h.ends

theorem Listed.erase (h : Listed s) {gone : Ip} {ob : Ob} {i : ℕ}
    (hgone : s.interactive ob = some gone) (hslot : s.allPlayers i = some gone) :
    Listed (s.erase gone ob i) := by
  have hmem {k : Ip} (hk : ((s.erase gone ob i).mem k).isSome) : k ≠ gone := by
    rintro rfl
    simp [State.erase] at hk
  have hplayer {k : ℕ} {q : Ip} (hq : (s.erase gone ob i).allPlayers k = some q) :
      k ≠ i ∧ s.allPlayers k = some q := by
    by_cases hki : k = i
    · simp [State.erase, hki] at hq
    · exact ⟨hki, by simpa [State.erase, hki] using hq⟩
  refine ⟨fun k hk ↦ ?_, fun k q hq ↦ ?_,
    fun a b q ha hb ↦ h.once a b q (hplayer ha).2 (hplayer hb).2, fun ob' q hq ↦ ?_⟩
  · have hkg := hmem hk
    obtain ⟨a, ha, hak⟩ := h.listed k (by simpa [State.erase, hkg] using hk)
    have hai : a ≠ i := by
      rintro rfl
      exact hkg (Option.some.inj (hak.symm.trans hslot))
    exact ⟨a, ha, by simpa [State.erase, hai] using hak⟩
  · obtain ⟨hki, hkq⟩ := hplayer hq
    have hqg : q ≠ gone := by
      rintro rfl
      exact hki (h.once k i q hkq hslot)
    simpa [State.erase, hqg] using h.live k q hkq
  · have hob : ob' ≠ ob := by
      rintro rfl
      simp [State.erase] at hq
    have hq' : s.interactive ob' = some q := by simpa [State.erase, hob] using hq
    have hqg : q ≠ gone := by
      rintro rfl
      exact hob (Option.some.inj ((h.interactive ob' q hq').symm.trans (h.interactive ob q hgone)))
    simpa [State.erase, hqg] using h.interactive ob' q hq'

theorem Listed.find_slot (h : Listed s) (hlive : (s.mem ip).isSome) :
    ∃ i, (List.range MAX_PLAYERS).find? (fun i ↦ s.allPlayers i = some ip) = some i ∧
      s.allPlayers i = some ip := by
  obtain ⟨i, hi, hslot⟩ := h.listed ip hlive
  cases hfind : (List.range MAX_PLAYERS).find? fun i ↦ s.allPlayers i = some ip with
  | none =>
    have := List.find?_eq_none.1 hfind i (List.mem_range.2 hi)
    simp [hslot] at this
  | some k => exact ⟨k, rfl, by simpa using List.find?_some hfind⟩

/-- **`remove_interactive` returns, and keeps the invariant.** -/
theorem Sound.removeInteractive (h : Sound s) (hlive : (s.mem ip).isSome) :
    ∃ s', s.removeInteractive ip = some s' ∧ Sound s' := by
  obtain ⟨player, hplayer⟩ := Option.isSome_iff_exists.1 hlive
  rw [State.removeInteractive, hplayer]
  cases hgone : s.interactive player.ob with
  | none => exact ⟨s, by simp [hgone], h⟩
  | some gone =>
    obtain ⟨j, hj, -⟩ := Option.map_eq_some_iff.1 (h.interactive _ _ hgone)
    have hthere : (s.mem gone).isSome := by rw [hj, isSome_some]
    obtain ⟨i, hfind, hslot⟩ := h.toListed.find_slot hthere
    -- `closing` is set, and both links are dropped
    have hclosing := modify_eq (f := fun j ↦ { j with closing := true }) hj
    generalize hs₁ : { s with
      mem := update s.mem gone (some { j with closing := true }) } = s₁ at hclosing
    have hmem₁ : s₁.mem = update s.mem gone (some { j with closing := true }) := by
      rw [← hs₁]
    obtain ⟨hon₁, hby₁⟩ := on_update hj (j := { j with closing := true }) rfl rfl hmem₁
    have hlinks₁ : Links s₁ := ⟨by rw [hon₁, hby₁]; exact h.links.inverse,
      by rw [hon₁]; exact h.links.ends⟩
    have hlive₁ : (s₁.mem gone).isSome := by rw [hmem₁, update_self, isSome_some]
    obtain ⟨s₂, hs₂, hsame₂, hlinks₂, hby₂, -, -⟩ := dropBy_spec hlinks₁ hlive₁
    obtain ⟨s₃, hs₃, hsame₃, hlinks₃, hon₃, hkeep₃⟩ := dropOn_spec hlinks₂
      (by rw [hsame₂.isSome, hlive₁])
    have hsame := hsame₂.trans hsame₃
    have hall : s₃.allPlayers = s.allPlayers := by rw [hsame.allPlayers, ← hs₁]
    have hint : s₃.interactive = s.interactive := by rw [hsame.interactive, ← hs₁]
    have hob : ∀ ip, (s₃.mem ip).map Interactive.ob = (s.mem ip).map Interactive.ob := by
      intro k
      rw [hsame.ob, hmem₁]
      by_cases hk : k = gone
      · simp [hk, hj]
      · simp [hk]
    refine ⟨s₃.erase gone player.ob i, ?_,
      (h.toListed.congr hall hint hob).erase (by rw [hint, hgone]) (by rw [hall, hslot]),
      hlinks₃.erase _ _ (by rw [hon₃, update_self]) (hkeep₃ gone hby₂), fun q l hl ↦ ?_⟩
    · simp [hgone, hfind, hj, h.opened gone j hj, hclosing, hs₂, hs₃]
    · have hqg : q ≠ gone := by
        rintro rfl
        simp [State.erase] at hl
      have hmap := hsame.mem q
      rw [hmem₁, update_of_ne hqg,
        show s₃.mem q = some l by simpa [State.erase, hqg] using hl, map_some] at hmap
      obtain ⟨l', hl', heq⟩ := Option.map_eq_some_iff.1 hmap.symm
      exact (congrArg Prod.snd heq).symm.trans (h.opened q l' hl')

theorem Sound.newPlayer (h : Sound s) {i : ℕ} (ob : Ob) (hi : i < MAX_PLAYERS)
    (hslot : s.allPlayers i = none) (hfree : s.mem ip = none) : Sound (s.newPlayer i ip ob) := by
  have hon : (s.newPlayer i ip ob).on = s.on := by
    funext k
    by_cases hk : k = ip
    · simp [on, State.newPlayer, hk, hfree]
    · simp [on, State.newPlayer, hk]
  have hby : (s.newPlayer i ip ob).snooper = s.snooper := by
    funext k
    by_cases hk : k = ip
    · simp [snooper, State.newPlayer, hk, hfree]
    · simp [snooper, State.newPlayer, hk]
  have hplayer {k : ℕ} {q : Ip} (hq : (s.newPlayer i ip ob).allPlayers k = some q) :
      k = i ∧ q = ip ∨ k ≠ i ∧ q ≠ ip ∧ s.allPlayers k = some q := by
    by_cases hki : k = i
    · exact .inl ⟨hki, by simpa [State.newPlayer, hki, eq_comm] using hq⟩
    · have hq' : s.allPlayers k = some q := by simpa [State.newPlayer, hki] using hq
      refine .inr ⟨hki, ?_, hq'⟩
      rintro rfl
      have hlive := h.live k q hq'
      simp [hfree] at hlive
  refine ⟨⟨fun k hk ↦ ?_, fun k q hq ↦ ?_, fun a b q ha hb ↦ ?_, fun ob' q hq ↦ ?_⟩,
    ⟨by rw [hon, hby]; exact h.links.inverse, by rw [hon]; exact h.links.ends⟩, fun k j hj ↦ ?_⟩
  · by_cases hkip : k = ip
    · exact ⟨i, hi, by simp [State.newPlayer, hkip]⟩
    · obtain ⟨a, ha, hak⟩ := h.listed k (by simpa [State.newPlayer, hkip] using hk)
      have hai : a ≠ i := by
        rintro rfl
        rw [hslot] at hak
        cases hak
      exact ⟨a, ha, by simpa [State.newPlayer, hai] using hak⟩
  · rcases hplayer hq with ⟨-, rfl⟩ | ⟨-, hqip, hq⟩
    · simp [State.newPlayer]
    · simpa [State.newPlayer, hqip] using h.live k q hq
  · rcases hplayer ha with ⟨rfl, rfl⟩ | ⟨hai, hqip, ha⟩
    · rcases hplayer hb with ⟨rfl, -⟩ | ⟨-, hne, -⟩
      · rfl
      · exact absurd rfl hne
    · rcases hplayer hb with ⟨-, rfl⟩ | ⟨-, -, hb⟩
      · exact absurd rfl hqip
      · exact h.once a b q ha hb
  · by_cases hob : ob' = ob
    · obtain rfl : ip = q := by simpa [State.newPlayer, hob] using hq
      simp [State.newPlayer, hob]
    · have hq' := h.interactive ob' q (by simpa [State.newPlayer, hob] using hq)
      have hqip : q ≠ ip := by
        rintro rfl
        simp [hfree] at hq'
      simpa [State.newPlayer, hqip] using hq'
  · by_cases hkip : k = ip
    · simp only [State.newPlayer, hkip, update_self, Option.some.injEq] at hj
      rw [← hj]
    · exact h.opened k j (by simpa [State.newPlayer, hkip] using hj)

/-- `exec` moves a connection with its links. -/
theorem Sound.replaceInteractive (h : Sound s) {ob obfrom : Ob}
    (hrun : s.replaceInteractive ob obfrom = some s') : Sound s' := by
  rw [State.replaceInteractive] at hrun
  split at hrun
  next =>
    cases hrun
    exact h
  next hnone =>
    cases hfrom : s.interactive obfrom with
    | none =>
      simp only [hfrom, Option.some.injEq] at hrun
      exact hrun ▸ h
    | some ip =>
      obtain ⟨i, hi, hob⟩ := Option.map_eq_some_iff.1 (h.interactive _ _ hfrom)
      simp only [hfrom, modify_eq hi, bind_eq_bind, bind_some,
        Option.some.injEq] at hrun
      subst hrun
      have hne : ob ≠ obfrom := by
        rintro rfl
        simp [hfrom] at hnone
      obtain ⟨hon, hby⟩ := @on_update s { s with
        mem := update s.mem ip (some { i with ob := ob })
        interactive := update (update s.interactive ob (some ip)) obfrom none }
        ip i { i with ob := ob } hi rfl rfl rfl
      have hsome (k : Ip) : (update s.mem ip (some { i with ob := ob }) k).isSome =
          (s.mem k).isSome := by
        by_cases hk : k = ip
        · simp [hk, hi]
        · simp [hk]
      refine ⟨⟨fun k hk ↦ h.listed k (by rwa [hsome] at hk), fun k q hq ↦ ?_, h.once,
        fun ob' q hq ↦ ?_⟩,
        ⟨by rw [hon, hby]; exact h.links.inverse, by rw [hon]; exact h.links.ends⟩, fun k j hj ↦ ?_⟩
      · rw [hsome]
        exact h.live k q hq
      · have hfrom' : ob' ≠ obfrom := by
          rintro rfl
          simp at hq
        by_cases hob' : ob' = ob
        · simp only [hob', update_of_ne hne, update_self, Option.some.injEq] at hq
          simp [← hq, hob']
        · simp only [update_of_ne hfrom', update_of_ne hob'] at hq
          have hq' := h.interactive ob' q hq
          have hqip : q ≠ ip := by
            rintro rfl
            rw [hi, map_some, hob] at hq'
            exact hfrom' (Option.some.inj hq').symm
          simpa [hqip] using hq'
      · by_cases hk : k = ip
        · simp only [hk, update_self, Option.some.injEq] at hj
          rw [← hj]
          exact h.opened ip i hi
        · exact h.opened k j (by simpa [hk] using hj)

theorem Sound.step {e : Event} (h : Sound s) (hstep : Step s e s') : Sound s' := by
  cases hstep with
  | connect ob hi hslot hfree => exact h.newPlayer ob hi hslot hfree
  | @snoop _ me you valid o hrun =>
    obtain ⟨o', s'', hs'', h''⟩ := h.setSnoop me you valid
    obtain ⟨-, rfl⟩ := Prod.mk.inj (Option.some.inj (hrun.symm.trans hs''))
    exact h''
  | @disconnect _ ip hrun =>
    have hlive : (s.mem ip).isSome := by
      rw [State.removeInteractive] at hrun
      cases hip : s.mem ip with
      | none => simp [hip] at hrun
      | some i => rfl
    obtain ⟨s'', hs'', h''⟩ := h.removeInteractive hlive
    obtain rfl := Option.some.inj (hrun.symm.trans hs'')
    exact h''
  | exec hrun => exact h.replaceInteractive hrun
  | destruct => exact ⟨⟨h.listed, h.live, h.once, h.interactive⟩, ⟨h.links.inverse, h.links.ends⟩,
      h.opened⟩

end State

theorem Start.sound {s : State} (h : Start s) : State.Sound s := by
  have hon : s.on = fun _ ↦ none := funext fun ip ↦ by rw [State.on, h.mem, bind_none]
  have hby : s.snooper = fun _ ↦ none := funext fun ip ↦ by
    rw [State.snooper, h.mem, bind_none]
  refine ⟨⟨fun ip hip ↦ ?_, fun i ip hip ↦ ?_, fun i j ip hip ↦ ?_, fun ob ip hip ↦ ?_⟩, ⟨?_, ?_⟩,
    fun ip j hj ↦ ?_⟩
  · simp [h.mem] at hip
  · simp [h.allPlayers] at hip
  · simp [h.allPlayers] at hip
  · simp [h.interactive] at hip
  · rw [hon, hby]
    exact fun x y ↦ by simp
  · rw [hon]
    rintro (- | p)
    · exact ⟨[], .nil⟩
    · exact ⟨[p], .cons .nil⟩
  · simp [h.mem] at hj

/-- **Snooping is a partial bijection without loops**: a connection snoops on another one exactly
when that has it as its snooper, and following the links does not come back. Requests and
disconnections return, whatever the connections are. -/
structure Snooping (s : State) : Prop where
  inverse : ∀ x y, s.on x = some y ↔ s.snooper y = some x
  loopless : ∀ x, ¬Relation.TransGen (fun x y ↦ s.on x = some y) x x
  request : ∀ me you valid, ∃ o s', s.setSnoop me you valid = some (o, s')
  disconnection : ∀ ip, (s.mem ip).isSome → ∃ s', s.removeInteractive ip = some s'

/-- **In every history**, of requests, disconnections and what else happens to connections. -/
theorem snooping {s : State} (hs : histories.Reachable s) : Snooping s := by
  have hinit : ∀ s, histories.Init s → State.Sound s := fun _ h ↦ Start.sound h
  have h := hs.invariant hinit fun _ _ _ h hstep ↦ State.Sound.step h hstep
  refine ⟨h.links.inverse, fun x ↦ ?_, fun me you valid ↦ ?_, fun ip hip ↦ ?_⟩
  · obtain ⟨l, hl⟩ := h.links.ends (some x)
    exact hl.not_transGen
  · obtain ⟨o, s', hs', -⟩ := h.setSnoop me you valid
    exact ⟨o, s', hs'⟩
  · obtain ⟨s', hs', -⟩ := h.removeInteractive hip
    exact ⟨s', hs'⟩

/-- Nobody is connected. -/
def nobody : State := ⟨fun _ ↦ none, fun _ ↦ none, fun _ ↦ none, fun _ ↦ false⟩

set_option maxRecDepth 10000 in
/-- The first of two objects snoops on the second. -/
theorem snooping_two : ∃ s, s.on 10 = some 11 ∧ Snooping s := by
  have h₀ : histories.Reachable nobody := .init ⟨fun _ ↦ rfl, fun _ ↦ rfl, fun _ ↦ rfl⟩
  have h₁ : histories.Reachable (nobody.newPlayer 0 10 1) :=
    h₀.step (.connect 1 (by decide) rfl rfl)
  have h₂ : histories.Reachable ((nobody.newPlayer 0 10 1).newPlayer 1 11 2) :=
    h₁.step (.connect 2 (by decide) rfl rfl)
  have hrun : ((nobody.newPlayer 0 10 1).newPlayer 1 11 2).setSnoop 1 (some 2) true =
      some (.returned 1, _) := rfl
  exact ⟨_, rfl, snooping (h₂.step (.snoop hrun))⟩

end Lpmud.Snoop
