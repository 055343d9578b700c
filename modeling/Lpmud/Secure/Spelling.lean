import Lpmud.Secure.Access
import Mathlib.Data.List.Infix

/-!
# How a path is written

The driver lets a path through that has single dots between its slashes (`LetThrough`), and leaves
them out when it looks for the file. The master object does not: it looks at the first four parts as
they are written. What it sees there (`seen`) is not always the same for two paths for one file, and
just then somebody can do with one of them what it cannot do with the other (`same_decisions_iff`).
-/

namespace Lpmud.Secure

open List

variable {w : World} {file file' s : String} {who dname suffix a b c : String}
  {dirs dirs' : List String}

/-! ### The parts of a path -/

/-- What stands between two slashes of a path that is let through. -/
structure Part (s : String) : Prop where
  ne_empty : s ≠ ""
  no_slash : '/' ∉ s.toList
  no_blank : ' ' ∉ s.toList
  no_dots : twoDots s.toList = false

/-- The driver lets a path through if the master object does. -/
def LetThrough (file : String) : Prop :=
  (checkPath file).isSome

theorem twoDots_iff (cs : List Char) : twoDots cs = true ↔ ['.', '.'] <:+: cs := by
  induction cs with
  | nil => simp [twoDots]
  | cons c cs ih =>
    cases cs with
    | nil => simp [twoDots, infix_cons_iff]
    | cons c' cs =>
      rw [twoDots, infix_cons_iff, ← ih, Bool.or_eq_true, Bool.and_eq_true, beq_iff_eq,
        beq_iff_eq]
      refine or_congr_left ⟨?_, ?_⟩
      · rintro ⟨rfl, rfl⟩
        exact ⟨cs, rfl⟩
      · rintro ⟨t, heq⟩
        simp only [cons_append, nil_append, List.cons.injEq] at heq
        exact ⟨heq.1.symm, heq.2.1.symm⟩

theorem infix_intercalate {α : Type*} {sep l : List α} {ls : List (List α)} (h : l ∈ ls) :
    l <:+: sep.intercalate ls := by
  induction ls with
  | nil => exact absurd h not_mem_nil
  | cons hd tl ih =>
    rcases tl.eq_nil_or_concat with rfl | hconcat
    · rw [mem_singleton.1 h, intercalate_singleton]
    · have htl : tl ≠ [] := by
        rintro rfl
        obtain ⟨_, _, heq⟩ := hconcat
        simp at heq
      rw [intercalate_cons_of_ne_nil htl, append_assoc]
      rcases mem_cons.1 h with rfl | h
      · exact (prefix_append ..).isInfix
      · exact (ih h).trans ((suffix_append ..).trans (suffix_append ..)).isInfix

theorem not_mem_of_mem_splitOn {α : Type*} [BEq α] [LawfulBEq α] {a : α} (xs : List α) :
    ∀ l ∈ xs.splitOn a, a ∉ l := by
  induction xs with
  | nil => simp
  | cons x xs ih =>
    rw [splitOn_cons_eq_if_modifyHead]
    split_ifs with hx
    · exact forall_mem_cons.2 ⟨not_mem_nil, ih⟩
    · cases hsplit : xs.splitOn a with
      | nil => exact absurd hsplit (splitOn_ne_nil a xs)
      | cons l ls =>
        rw [hsplit, forall_mem_cons] at ih
        rw [modifyHead_cons, forall_mem_cons]
        refine ⟨fun h ↦ ?_, ih.2⟩
        rcases mem_cons.1 h with rfl | h
        · exact hx (beq_self_eq_true a)
        · exact ih.1 h

theorem mem_explode : s ∈ explode file → s ≠ "" ∧ '/' ∉ s.toList ∧ s.toList <:+: file.toList := by
  intro h
  obtain ⟨h, hne⟩ := mem_filter.1 h
  obtain ⟨l, hl, rfl⟩ := mem_map.1 h
  have hwithin : l <:+: ['/'].intercalate (file.toList.splitOn '/') := infix_intercalate hl
  rw [intercalate_splitOn] at hwithin
  rw [String.toList_ofList]
  exact ⟨of_decide_eq_true hne, not_mem_of_mem_splitOn _ l hl, hwithin⟩

theorem LetThrough.legal (h : LetThrough file) :
    ' ' ∉ file.toList ∧ twoDots file.toList = false := by
  have hpath : ∀ path, legalPath path = true → ' ' ∉ path ∧ twoDots path = false := by
    intro path h
    rw [legalPath, Bool.and_eq_true, Bool.and_eq_true, Bool.not_eq_true', Bool.not_eq_true'] at h
    exact ⟨by simpa using h.1.1, h.2⟩
  rw [LetThrough, checkPath, Option.isSome_ite] at h
  split at h
  · next path heq =>
    rw [heq]
    split_ifs at h with hnil
    · subst hnil
      exact ⟨by simp, rfl⟩
    · obtain ⟨hblank, hdots⟩ := hpath path h
      refine ⟨by simpa using hblank, ?_⟩
      rw [Bool.eq_false_iff, ne_eq, twoDots_iff] at hdots ⊢
      simpa [infix_cons_iff] using hdots
  · split_ifs at h with hnil
    · rw [hnil]
      exact ⟨not_mem_nil, rfl⟩
    · exact hpath _ h

theorem LetThrough.part (h : LetThrough file) (hs : s ∈ explode file) : Part s := by
  obtain ⟨hne, hslash, hwithin⟩ := mem_explode hs
  obtain ⟨hblank, hdots⟩ := h.legal
  refine ⟨hne, hslash, fun hmem ↦ hblank (hwithin.subset hmem), ?_⟩
  rw [Bool.eq_false_iff, ne_eq, twoDots_iff] at hdots ⊢
  exact fun hdots' ↦ hdots (hdots'.trans hwithin)

theorem Part.explode (h : Part s) : explode s = [s] := by
  rw [Secure.explode, splitOn_eq_singleton h.no_slash, map_singleton,
    String.ofList_toList]
  exact filter_eq_self.2 fun t ht ↦ by simpa [mem_singleton.1 ht] using h.ne_empty

theorem flatMap_explode (h : ∀ s ∈ dirs, Part s) : dirs.flatMap explode = dirs := by
  induction dirs with
  | nil => rfl
  | cons s dirs ih =>
    rw [flatMap_cons, (h s (.head _)).explode, ih fun t ht ↦ h t (.tail _ ht)]
    rfl

/-! ### Sanctions -/

theorem fileOf_append : fileOf (dirs ++ dirs') = fileOf dirs ++ fileOf dirs' :=
  filter_append ..

theorem fileTime_congr (h : ∀ s ∈ dirs, Part s) (h' : ∀ s ∈ dirs', Part s)
    (hfile : fileOf dirs = fileOf dirs') (pre : List String) :
    w.fileTime (pre ++ dirs ++ [suffix]) = w.fileTime (pre ++ dirs' ++ [suffix]) := by
  have hall : ∀ dirs : List String, (∀ s ∈ dirs, Part s) →
      dirs.all (fun s ↦ !s.toList.contains ' ' && !twoDots s.toList) = true := by
    intro dirs h
    rw [all_eq_true]
    intro s hs
    simpa using ⟨(h s hs).no_blank, (h s hs).no_dots⟩
  simp only [World.fileTime, all_append, hall dirs h, hall dirs' h', flatMap_append,
    flatMap_explode h, flatMap_explode h', fileOf_append, hfile]

theorem sanction_congr (h : ∀ s ∈ dirs, Part s) (h' : ∀ s ∈ dirs', Part s)
    (hfile : fileOf dirs = fileOf dirs') :
    w.sanction who dname dirs suffix = w.sanction who dname dirs' suffix := by
  rw [World.sanction, World.sanction, fileTime_congr h h' hfile, fileTime_congr h h' hfile,
    fileTime_congr h h' hfile]

/-- Whatever part of a file is named by the start of a path, is named by the start of each other
path for this file. -/
theorem exists_take_fileOf (hfile : fileOf dirs = fileOf dirs') (n : ℕ) :
    ∃ n' ≤ dirs'.length, fileOf (dirs.take n) = fileOf (dirs'.take n') := by
  have happend : fileOf dirs' = fileOf (dirs.take n) ++ fileOf (dirs.drop n) := by
    rw [← fileOf_append, take_append_drop, hfile]
  obtain ⟨front, back, rfl, hfront, -⟩ := filter_eq_append_iff.1 happend
  refine ⟨front.length, by simp, ?_⟩
  rw [take_left']
  exacts [hfront.symm, rfl]

theorem any_sanction_mono (h : ∀ t ∈ s :: dirs, Part t) (h' : ∀ t ∈ s :: dirs', Part t)
    (hfile : fileOf dirs = fileOf dirs')
    (hany : (List.range (s :: dirs).length).any fun index ↦
      w.sanction who dname ((s :: dirs).take (index + 1)) suffix) :
    (List.range (s :: dirs').length).any fun index ↦
      w.sanction who dname ((s :: dirs').take (index + 1)) suffix := by
  rw [any_eq_true] at hany ⊢
  obtain ⟨index, -, hsanction⟩ := hany
  obtain ⟨index', hindex', htake⟩ := exists_take_fileOf hfile index
  refine ⟨index', mem_range.2 (Nat.lt_succ_of_le hindex'), ?_⟩
  refine (sanction_congr ?_ ?_ ?_).symm.trans hsanction
  · exact fun t ht ↦ h t (mem_of_mem_take ht)
  · exact fun t ht ↦ h' t (mem_of_mem_take ht)
  · have hcons (l : List String) : fileOf (s :: l) = fileOf [s] ++ fileOf l :=
      filter_append [s] l
    rw [take_succ_cons, take_succ_cons, hcons, hcons (dirs'.take index'), htake]

theorem any_sanction_congr (h : ∀ t ∈ s :: dirs, Part t) (h' : ∀ t ∈ s :: dirs', Part t)
    (hfile : fileOf dirs = fileOf dirs') :
    ((List.range (s :: dirs).length).any fun index ↦
      w.sanction who dname ((s :: dirs).take (index + 1)) suffix) =
    (List.range (s :: dirs').length).any fun index ↦
      w.sanction who dname ((s :: dirs').take (index + 1)) suffix :=
  Bool.eq_iff_iff.2 ⟨any_sanction_mono h h' hfile, any_sanction_mono h' h hfile.symm⟩

/-! ### What is seen of a path -/

/-- What decisions about a path depend on, but for the sanctions in a domain. -/
inductive Seen where
  | nothing
  | opened
  | syslog
  | logs
  /-- It cannot be read, and be written at most as something of all domains. -/
  | denied (common : Option String)
  /-- Likewise, but it can be read. -/
  | free (common : Option String)
  | common (wname : Option String)
  | domain (dname : String)
  | place (dname wname dir : String)
  deriving DecidableEq

/-- Whose directory it is, where the second part is `common`. The first one can be anything. -/
def commonOf : List String → Option String
  | "common" :: wname :: _ => some wname
  | _ => none

/-- The fourth part, as far as it makes a difference. -/
def dirOf (wname dir : String) : String :=
  if dir = "private" ∨ dir = "open" ∧ wname ≠ "open" then dir else ""

/-- What is seen of the parts of a path. -/
def seen : List String → Seen
  | [] => .nothing
  | "open" :: _ => .opened
  | "players" :: rest => .denied (commonOf rest)
  | "binaries" :: rest => .denied (commonOf rest)
  | ["syslog"] => .syslog
  | ["syslog", "log"] => .logs
  | "syslog" :: "log" :: _ :: _ => .denied none
  | ["d"] => .free none
  | ["d", dname] => if dname = "common" then .common none else .domain dname
  | "d" :: dname :: wname :: rest =>
    if dname = "common" then .common (some wname)
    else .place dname wname (dirOf wname (rest.headD ""))
  | _ :: rest => .free (commonOf rest)

namespace Seen

open World (outOfBounds)

/-- The decision about reading, for a reader with a rank and a domain; what is decided in domains is
not known from what is seen alone. -/
def read (rank : Rank) (dom : String) (other : Except String Bool) : Seen → Except String Bool
  | nothing => .error (outOfBounds 0 0)
  | opened => .ok true
  | syslog => .error (outOfBounds 1 1)
  | logs => .error (outOfBounds 2 2)
  | denied _ => .ok false
  | free _ => .ok true
  | common wname =>
    if rank = .lord then .ok true
    else if rank = .steward then
      wname.elim (.error (outOfBounds 2 2)) fun wname ↦ .ok (wname = dom)
    else .ok false
  | domain _ => other
  | place _ _ _ => other

/-- The directory belongs to somebody, or to the domain of a steward. -/
def mayCommon (rank : Rank) (dom : String) (wname : Option String) : Bool :=
  wname.any fun wname ↦ rank = .lord ∨ rank = .steward ∧ wname = dom

/-- The decision about writing, likewise. -/
def write (rank : Rank) (dom : String) (other : Except String Bool) : Seen → Except String Bool
  | nothing => .error (outOfBounds 0 0)
  | opened => .ok true
  | syslog => .ok false
  | logs => .ok false
  | denied wname => .ok (mayCommon rank dom wname)
  | free wname => .ok (mayCommon rank dom wname)
  | common wname => .ok (mayCommon rank dom wname)
  | domain _ => .ok false
  | place _ _ _ => other

end Seen

theorem validReadDirs_place (h : a ≠ "common") (rest : List String) :
    w.validReadDirs who ("d" :: a :: rest) =
      if w.registry.queryDomainNumber a = -1 then .ok false
      else .ok (w.validReadDomain who a rest) := by
  cases rest with
  | nil => rw [World.validReadDirs.eq_7, if_neg h]
  | cons b rest => rw [World.validReadDirs.eq_8, if_neg h]

theorem validReadDirs_eq (w : World) (who : String) (dirs : List String) :
    w.validReadDirs who dirs = (seen dirs).read (w.registry.queryWizRank who)
      (w.registry.queryWizDom who) (w.validReadDirs who dirs) := by
  rw [seen.eq_def]
  split
  case h_9 dname =>
    split
    next h => subst h; rfl
    next => rfl
  case h_10 dname wname rest =>
    split
    next h => subst h; rfl
    next => rfl
  case h_11 a rest _ _ _ _ _ _ _ hdname hplace =>
    have hd : ∀ dname rest', a = "d" → rest ≠ dname :: rest' := by
      rintro dname (_ | ⟨wname, rest'⟩) ha
      · exact hdname dname ha
      · exact hplace dname wname rest' ha
    rw [World.validReadDirs.eq_9] <;> simp_all [Seen.read]
  all_goals rfl

/-- Outside of domains, only what is behind `common` can be written. -/
theorem validWriteDirs_common (w : World) (who : String) {rest : List String} (ha : a ≠ "open")
    (hd : a = "d" → ∀ dname wname rest', rest ≠ dname :: wname :: rest') :
    w.validWriteDirs who (a :: rest) = .ok (Seen.mayCommon (w.registry.queryWizRank who)
      (w.registry.queryWizDom who) (commonOf rest)) := by
  match rest with
  | [] => rw [World.validWriteDirs.eq_4] <;> simp_all [commonOf, Seen.mayCommon]
  | [b] => rw [World.validWriteDirs.eq_4] <;> simp_all [commonOf, Seen.mayCommon]
  | b :: wname :: rest =>
    have had : a ≠ "d" := fun h ↦ hd h b wname rest rfl
    rw [World.validWriteDirs.eq_3 _ _ _ _ _ _ ha]
    by_cases hb : b = "common"
    · subst hb
      simp [commonOf, Seen.mayCommon]
    · rw [if_neg hb, if_pos (.inl had), commonOf.eq_2] <;> simp_all [Seen.mayCommon]

theorem validWriteDirs_eq (w : World) (who : String) (dirs : List String) :
    w.validWriteDirs who dirs = (seen dirs).write (w.registry.queryWizRank who)
      (w.registry.queryWizDom who) (w.validWriteDirs who dirs) := by
  rw [seen.eq_def]
  split
  case h_3 rest => exact validWriteDirs_common w who (by decide) fun h ↦ absurd h (by decide)
  case h_4 rest => exact validWriteDirs_common w who (by decide) fun h ↦ absurd h (by decide)
  case h_9 dname =>
    split
    next h => subst h; rfl
    next => rfl
  case h_10 dname wname rest =>
    split
    next h => subst h; rfl
    next => rfl
  case h_11 a rest hopen _ _ _ _ _ _ _ hplace =>
    exact validWriteDirs_common w who hopen fun ha dname wname rest' ↦ hplace dname wname rest' ha
  all_goals rfl

theorem seen_place {x a b : String} (h : seen dirs = .place a b x) :
    ∃ rest, dirs = "d" :: a :: b :: rest ∧ a ≠ "common" ∧ x = dirOf b (rest.headD "") := by
  rw [seen.eq_def] at h
  split at h
  case h_10 dname wname rest =>
    split at h
    · cases h
    next hcommon =>
      cases h
      exact ⟨rest, rfl, hcommon, rfl⟩
  case h_9 => split at h <;> cases h
  all_goals cases h

theorem seen_domain (h : seen dirs = .domain a) : dirs = ["d", a] ∧ a ≠ "common" := by
  rw [seen.eq_def] at h
  split at h
  case h_9 dname =>
    split at h
    · cases h
    next hcommon =>
      cases h
      exact ⟨rfl, hcommon⟩
  case h_10 => split at h <;> cases h
  all_goals cases h

/-! ### Where the same is seen -/

theorem dirOf_eq_iff {dir dir' : String} :
    dirOf b dir = dirOf b dir' ↔ (dir = "private" ↔ dir' = "private") ∧
      (b = "open" ∨ dir = "open" ↔ b = "open" ∨ dir' = "open") := by
  have hne : ("open" : String) ≠ "private" := by decide
  unfold dirOf
  grind

theorem head?_eq_private {rest : List String} :
    rest.head? = some "private" ↔ rest.headD "" = "private" := by
  cases rest <;> simp

/-- Decisions about one place in a domain depend on the fourth part as it is seen, and on the file
behind it. -/
theorem validDomain_congr {rest rest' : List String} (h : ∀ s ∈ b :: rest, Part s)
    (h' : ∀ s ∈ b :: rest', Part s) (hfile : fileOf rest = fileOf rest')
    (hdir : dirOf b (rest.headD "") = dirOf b (rest'.headD "")) :
    w.validReadDomain who a (b :: rest) = w.validReadDomain who a (b :: rest') ∧
      w.validWriteDomain who a b rest = w.validWriteDomain who a b rest' := by
  obtain ⟨hprivate, hopen⟩ := dirOf_eq_iff.1 hdir
  have hread : w.recursiveValidReadPathSanction who a (b :: rest) =
      w.recursiveValidReadPathSanction who a (b :: rest') := any_sanction_congr h h' hfile
  have hwrite : w.recursiveValidWritePathSanction who a (b :: rest) =
      w.recursiveValidWritePathSanction who a (b :: rest') := any_sanction_congr h h' hfile
  constructor
  · simp only [World.validReadDomain, headD_cons, tail_cons, hread, hopen, hprivate]
    congr
  · simp only [World.validWriteDomain, hwrite, head?_eq_private, hprivate]

theorem validWriteDirs_place (h : a ≠ "common") (rest : List String) :
    w.validWriteDirs who ("d" :: a :: b :: rest) =
      .ok (if w.registry.queryDomainNumber a = -1 then false
        else w.validWriteDomain who a b rest) := by
  rw [World.validWriteDirs.eq_3 _ _ _ _ _ _ (by decide), if_neg h]
  simp

/-- **Where the same is seen**, the same is decided, of one file. -/
theorem alike_of_seen (h : ∀ s ∈ dirs, Part s) (h' : ∀ s ∈ dirs', Part s)
    (hfile : fileOf dirs = fileOf dirs') (hseen : seen dirs = seen dirs') (w : World)
    (who : String) : w.validReadDirs who dirs = w.validReadDirs who dirs' ∧
      w.validWriteDirs who dirs = w.validWriteDirs who dirs' := by
  cases hs : seen dirs with
  | place a b x =>
    obtain ⟨rest, rfl, ha, hx⟩ := seen_place hs
    obtain ⟨rest', rfl, -, hx'⟩ := seen_place (hseen ▸ hs)
    have hrest : fileOf rest = fileOf rest' := by
      rw [show "d" :: a :: b :: rest = ["d", a, b] ++ rest from rfl,
        show "d" :: a :: b :: rest' = ["d", a, b] ++ rest' from rfl, fileOf_append,
        fileOf_append] at hfile
      exact append_cancel_left hfile
    obtain ⟨hread, hwrite⟩ : w.validReadDomain who a (b :: rest) = _ ∧
        w.validWriteDomain who a b rest = _ := validDomain_congr
      (fun s hs ↦ h s (.tail _ (.tail _ hs))) (fun s hs ↦ h' s (.tail _ (.tail _ hs))) hrest
      (hx.symm.trans hx')
    rw [validReadDirs_place ha, validReadDirs_place ha, validWriteDirs_place ha,
      validWriteDirs_place ha, hread, hwrite]
    exact ⟨rfl, rfl⟩
  | domain a =>
    rw [(seen_domain hs).1, (seen_domain (hseen.symm.trans hs)).1]
    exact ⟨rfl, rfl⟩
  | _ =>
    rw [validReadDirs_eq w who dirs, validReadDirs_eq w who dirs', validWriteDirs_eq w who dirs,
      validWriteDirs_eq w who dirs', ← hseen, hs]
    exact ⟨rfl, rfl⟩

/-! ### Where something else is seen -/

/-- Those who are not let through everywhere can do the same with two paths. -/
def Alike (dirs dirs' : List String) : Prop :=
  ∀ (w : World) (who : String), who ≠ "" → who ≠ ROOT_UID → w.registry.queryWizRank who < .arch →
    w.validReadDirs who dirs = w.validReadDirs who dirs' ∧
      w.validWriteDirs who dirs = w.validWriteDirs who dirs'

/-- A game with one wizard and no domain. -/
def lonely (rank : Rank) (dom : String) : World where
  registry :=
    { domCount := 0, domains := ∅, wizards := AList.singleton "x" ⟨rank, 0, "", dom, ""⟩
      trainees := ∅, globalRead := ∅ }
  adminTeamMember _ _ := false
  stat _ := false

/-- A game with one domain and no wizards. -/
def governed (dname lord steward : String) (trainees : AList fun _ : String ↦ Unit)
    (globalRead : AList fun _ : String ↦ String × String) (stat : List String → Bool) : World where
  registry :=
    { domCount := 1
      domains := AList.singleton (capitalize dname) ⟨0, "", lord, steward, [], "", 9⟩
      wizards := ∅, trainees := trainees, globalRead := globalRead }
  adminTeamMember _ _ := false
  stat := stat

theorem lonely_decides (rank : Rank) (dom : String) (dirs : List String) :
    (lonely rank dom).validReadDirs "x" dirs = (seen dirs).read rank dom (.ok false) ∧
      (lonely rank dom).validWriteDirs "x" dirs = (seen dirs).write rank dom (.ok false) := by
  rw [validReadDirs_eq, validWriteDirs_eq]
  cases hs : seen dirs with
  | domain a =>
    obtain ⟨rfl, ha⟩ := seen_domain hs
    rw [validReadDirs_place ha]
    exact ⟨rfl, rfl⟩
  | place a b x =>
    obtain ⟨rest, rfl, ha, -⟩ := seen_place hs
    rw [validReadDirs_place ha, validWriteDirs_place ha]
    exact ⟨rfl, rfl⟩
  | _ => exact ⟨rfl, rfl⟩

/-- What cannot be read or written by anybody who has no domain. -/
def Seen.Dark (s : Seen) : Prop :=
  s = .denied none ∨ (∃ a, s = .domain a) ∨ ∃ a b x, s = .place a b x

theorem mayCommon_injective {c c' : Option String} (h : ∀ dom, Seen.mayCommon .steward dom c =
    Seen.mayCommon .steward dom c') : c = c' := by
  refine Option.ext fun a ↦ ?_
  have ha := h a
  cases c <;> cases c' <;> simp_all [Seen.mayCommon]

/-- **What all wizards can do** tells apart what is seen, where they can do something. -/
theorem Seen.eq_or_dark {s s' : Seen}
    (hread : ∀ rank : Rank, rank < .arch →
      s.read rank "" (.ok false) = s'.read rank "" (.ok false))
    (hwrite : ∀ (rank : Rank) (dom : String), rank < .arch →
      s.write rank dom (.ok false) = s'.write rank dom (.ok false)) :
    s = s' ∨ s.Dark ∧ s'.Dark := by
  have h₀₁ : World.outOfBounds 0 0 ≠ World.outOfBounds 1 1 := by decide
  have h₀₂ : World.outOfBounds 0 0 ≠ World.outOfBounds 2 2 := by decide
  have h₁₂ : World.outOfBounds 1 1 ≠ World.outOfBounds 2 2 := by decide
  have hnormal := hread .normal (by decide)
  have hlord := hread .lord (by decide)
  have hdenied := hwrite .normal "" (by decide)
  have hsteward (dom : String) := hwrite .steward dom (by decide)
  clear hread hwrite
  cases s <;> cases s' <;>
    simp [Seen.read, Seen.write, Seen.Dark, h₀₁, h₀₂, h₁₂, h₀₁.symm, h₀₂.symm, h₁₂.symm]
      at hnormal hlord hsteward ⊢
  case opened.free => simp [Seen.write, mayCommon] at hdenied
  case free.opened => simp [Seen.write, mayCommon] at hdenied
  case denied.denied => exact .inl (mayCommon_injective hsteward)
  all_goals exact mayCommon_injective hsteward

theorem Alike.eq_or_dark (h : Alike dirs dirs') :
    seen dirs = seen dirs' ∨ (seen dirs).Dark ∧ (seen dirs').Dark := by
  have hboth (rank : Rank) (dom : String) (hrank : rank < .arch) :
      (seen dirs).read rank dom (.ok false) = (seen dirs').read rank dom (.ok false) ∧
        (seen dirs).write rank dom (.ok false) = (seen dirs').write rank dom (.ok false) := by
    have hsame := h (lonely rank dom) "x" (by decide) (by decide) hrank
    rwa [(lonely_decides rank dom dirs).1, (lonely_decides rank dom dirs).2,
      (lonely_decides rank dom dirs').1, (lonely_decides rank dom dirs').2] at hsame
  exact Seen.eq_or_dark (fun rank hrank ↦ (hboth rank "" hrank).1)
    fun rank dom hrank ↦ (hboth rank dom hrank).2

theorem toUpper_eq_dot {c : Char} (h : c.toUpper = '.') : c = '.' := by
  unfold Char.toUpper at h
  split_ifs at h with hc
  · have hval := congrArg (fun c : Char ↦ c.val.toNat) h
    have hdot : '.'.val.toNat = 46 := rfl
    have hd : ('A'.val - 'a'.val).toNat = 4294967264 := rfl
    have ha : 'a'.val.toNat = 97 := rfl
    have hz : 'z'.val.toNat = 122 := rfl
    simp only [UInt32.le_iff_toNat_le, UInt32.toNat_add] at hc hval
    omega
  · exact h
theorem capitalize_eq_dot {a : String} (h : capitalize a = ".") : a = "." := by
  rw [capitalize] at h
  split at h
  · exact h
  next c cs hcs =>
    have hlist := congrArg String.toList h
    rw [String.toList_ofList] at hlist
    obtain ⟨hc, hcs'⟩ := List.cons.inj (hlist.trans (show ".".toList = ['.'] from rfl))
    rw [← String.ofList_toList (s := a), hcs, toUpper_eq_dot hc, hcs']

section Governed

variable {lord steward : String} {trainees : AList fun _ : String ↦ Unit}
  {globalRead : AList fun _ : String ↦ String × String} {stat : List String → Bool}

theorem lookup_governed (dname : String) :
    (governed a lord steward trainees globalRead stat).registry.domains.lookup (capitalize dname) =
      if capitalize dname = capitalize a then some ⟨0, "", lord, steward, [], "", 9⟩ else none := by
  split_ifs with h
  · rw [h]
    exact AList.lookup_insert ∅
  · exact AList.lookup_insert_ne (s := ∅) h

theorem queryDomainNumber_governed (dname : String) :
    (governed a lord steward trainees globalRead stat).registry.queryDomainNumber dname =
      if capitalize dname = capitalize a then 0 else -1 := by
  rw [Registry.queryDomainNumber, lookup_governed]
  split <;> rfl

theorem queryDomainLord_governed :
    (governed a lord steward trainees globalRead stat).registry.queryDomainLord a = lord := by
  rw [Registry.queryDomainLord, lookup_governed, if_pos rfl]
  rfl

theorem queryDomainSteward_governed :
    (governed a lord steward trainees globalRead stat).registry.queryDomainSteward a = steward := by
  rw [Registry.queryDomainSteward, lookup_governed, if_pos rfl]
  rfl

theorem queryWizDom_governed (v : String) :
    (governed a lord steward trainees globalRead stat).registry.queryWizDom v = "" :=
  rfl

theorem sanction_governed (who dname : String) (path : List String) (suffix : String) :
    (governed a lord steward trainees globalRead fun _ ↦ false).sanction who dname path suffix =
      false := by
  have htime (parts : List String) :
    (governed a lord steward trainees globalRead fun _ ↦ false).fileTime parts = false :=
    Bool.and_false _
  rw [World.sanction, htime, htime, htime]
  rfl

theorem path_sanction_governed (who dname : String) (path : List String) :
    (governed a lord steward trainees globalRead fun _ ↦ false).recursiveValidReadPathSanction who
        dname path = false ∧
      (governed a lord steward trainees globalRead fun _ ↦ false).recursiveValidWritePathSanction
        who dname path = false := by
  constructor <;> exact any_eq_false.2 fun _ _ ↦ by
    simp [World.validReadPathSanction, World.validWritePathSanction, sanction_governed]

theorem liege_reads (hb : b ≠ "common") (rest : List String) :
    (governed a who steward trainees globalRead stat).validReadDirs who ("d" :: b :: rest) =
      .ok (decide (capitalize b = capitalize a)) := by
  rw [validReadDirs_place hb, queryDomainNumber_governed]
  by_cases h : capitalize b = capitalize a
  · have hlord : (governed a who steward trainees globalRead stat).registry.queryDomainLord b =
        who := by
      rw [Registry.queryDomainLord, h]
      exact queryDomainLord_governed
    rw [if_pos h, if_neg (by decide), World.validReadDomain]
    simp [hlord, h]
  · simp [h]

theorem liege_writes (ha : a ≠ "common") (rest : List String) :
    (governed a who steward trainees globalRead stat).validWriteDirs who ("d" :: a :: b :: rest) =
      .ok true := by
  rw [validWriteDirs_place ha, queryDomainNumber_governed, if_pos rfl, if_neg (by decide),
    World.validWriteDomain]
  simp [queryDomainLord_governed]

theorem steward_writes (ha : a ≠ "common") (hempty : a ≠ "") (hwho : who ≠ c)
    (htrainee : who ∈ trainees) (rest : List String) :
    (governed a c who trainees globalRead fun _ ↦ false).validWriteDirs who
      ("d" :: a :: b :: rest) = .ok (decide (b ≠ c)) := by
  rw [validWriteDirs_place ha, queryDomainNumber_governed, if_pos rfl, if_neg (by decide),
    World.validWriteDomain]
  have htrainees : who ∈ (governed a c who trainees globalRead fun _ ↦ false).registry.trainees :=
    htrainee
  by_cases hb : b = c
  · simp [hb, hwho.symm, hempty.symm, htrainees, queryDomainLord_governed,
      queryDomainSteward_governed, queryWizDom_governed, path_sanction_governed]
  · simp [hb, hempty.symm, queryDomainLord_governed, queryDomainSteward_governed,
      queryWizDom_governed]

theorem stranger_reads (ha : a ≠ "common") (hempty : a ≠ "") (hwho : who ≠ "") (hne : who ≠ a)
    (rest : List String) :
    (governed a "" "" ∅ ∅ fun _ ↦ false).validReadDirs who ("d" :: a :: b :: rest) =
      .ok (decide (b = "open" ∨ rest.headD "" = "open")) := by
  have hread : who ∉ (governed a "" "" ∅ ∅ fun _ ↦ false).registry.globalRead :=
    AList.notMem_empty who
  rw [validReadDirs_place ha, queryDomainNumber_governed, if_pos rfl, if_neg (by decide),
    World.validReadDomain]
  cases rest <;> simp [hwho.symm, hempty.symm, hne.symm, hread, queryDomainLord_governed,
    queryWizDom_governed, path_sanction_governed, World.validReadSanction,
    World.validReadAllSanction, sanction_governed]

theorem reader_reads (ha : a ≠ "common") (hempty : a ≠ "") (hwho : who ≠ "")
    (hread : who ∈ globalRead) (rest : List String) :
    (governed a "" "" ∅ globalRead fun _ ↦ false).validReadDirs who ("d" :: a :: b :: rest) =
      .ok (decide (b = "open" ∨ rest.headD "" ≠ "private")) := by
  have hread' : who ∈ (governed a "" "" ∅ globalRead fun _ ↦ false).registry.globalRead := hread
  have hne : ("private" : String) ≠ "open" := by decide
  rw [validReadDirs_place ha, queryDomainNumber_governed, if_pos rfl, if_neg (by decide),
    World.validReadDomain]
  cases rest with
  | nil =>
    simp [hwho.symm, hempty.symm, hread', queryDomainLord_governed, queryWizDom_governed,
      path_sanction_governed]
  | cons dir rest =>
    by_cases hopen : dir = "open"
    · simp [hopen, hne.symm]
    · simp [hopen, hwho.symm, hempty.symm, hread', queryDomainLord_governed, queryWizDom_governed,
        path_sanction_governed]

/-- What is sanctioned to be written as a whole, only in the files that are looked for first. -/
def writeAll (parts : List String) : Bool :=
  parts.getLast? = some "write-all-sanction"

theorem fileTime_writeAll (hsuffix : Part suffix) (hdot : suffix ≠ ".") (pre : List String) :
    (governed a lord steward trainees globalRead writeAll).fileTime (pre ++ [suffix]) = true ↔
      suffix = "write-all-sanction" ∧
        pre.all (fun s ↦ !s.toList.contains ' ' && !twoDots s.toList) = true := by
  have hfile : fileOf ((pre ++ [suffix]).flatMap explode) =
      fileOf (pre.flatMap explode) ++ [suffix] := by
    rw [flatMap_append, flatMap_singleton, hsuffix.explode, fileOf_append]
    simp [fileOf, hdot]
  have hparts : (!suffix.toList.contains ' ' && !twoDots suffix.toList) = true := by
    simpa using ⟨hsuffix.no_blank, hsuffix.no_dots⟩
  have hstat : (governed a lord steward trainees globalRead writeAll).stat = writeAll := rfl
  rw [World.fileTime, hfile, hstat, writeAll, List.getLast?_concat, all_append, all_cons,
    all_nil, hparts]
  simp [and_comm]

theorem writer_writes (ha : a ≠ "common") (hpart : Part a) (hwho : who ≠ "") (hne : who ≠ a)
    (rest : List String) :
    (governed a "" "" ∅ ∅ writeAll).validWriteDirs who ("d" :: a :: "open" :: rest) =
      .ok (decide (rest.headD "" ≠ "private")) := by
  have hempty : a ≠ "" := hpart.ne_empty
  have hsuffix : Part "write-sanction" := ⟨by decide, by decide, by decide, by decide⟩
  have hsuffix' : Part "write-all-sanction" := ⟨by decide, by decide, by decide, by decide⟩
  have hpath (path : List String) : (governed a "" "" ∅ ∅
      writeAll).recursiveValidWritePathSanction who a path = false := by
    have htime (pre : List String) : (governed a "" "" ∅ ∅ writeAll).fileTime
        (pre ++ ["write-sanction"]) = false :=
      Bool.eq_false_iff.2 fun h ↦
        absurd ((fileTime_writeAll hsuffix (by decide) pre).1 h).1 (by decide)
    refine any_eq_false.2 fun index _ ↦ ?_
    rw [World.validWritePathSanction, World.sanction, htime, htime, htime]
    decide
  have hall : (governed a "" "" ∅ ∅ writeAll).validWriteAllSanction who a = true := by
    have htime : (governed a "" "" ∅ ∅ writeAll).fileTime
        (["players", "sanctions", a, "all"] ++ ["write-all-sanction"]) = true :=
      (fileTime_writeAll hsuffix' (by decide) _).2
        ⟨rfl, by simp [hpart.no_blank, hpart.no_dots]; decide⟩
    rw [World.validWriteAllSanction, World.sanction, append_nil, htime]
    rfl
  have htrainee : who ∉ (governed a "" "" ∅ ∅ writeAll).registry.trainees :=
    AList.notMem_empty who
  rw [validWriteDirs_place ha, queryDomainNumber_governed, if_pos rfl, if_neg (by decide),
    World.validWriteDomain]
  cases rest with
  | nil =>
    simp [hwho.symm, hempty.symm, hne.symm, hpath, hall, htrainee, queryDomainLord_governed,
      queryDomainSteward_governed, queryWizDom_governed]
  | cons dir rest =>
    simp [hwho.symm, hempty.symm, hne.symm, hpath, hall, htrainee, queryDomainLord_governed,
      queryDomainSteward_governed, queryWizDom_governed]

end Governed

theorem exists_name (a b : String) : ∃ who, who ≠ "" ∧ who ≠ ROOT_UID ∧ who ≠ a ∧ who ≠ b := by
  have hlong (s : String) (h : s.length < (a ++ b ++ "xxxxx").length) : a ++ b ++ "xxxxx" ≠ s :=
    fun heq ↦ h.ne' (congrArg String.length heq)
  have hlen : (a ++ b ++ "xxxxx").length = a.length + b.length + 5 := by
    rw [String.length_append, String.length_append]
    rfl
  refine ⟨_, hlong "" ?_, hlong ROOT_UID ?_, hlong a ?_, hlong b ?_⟩ <;> rw [hlen]
  · exact Nat.succ_pos _
  · exact Nat.lt_add_left _ (by decide)
  · omega
  · omega

theorem mem_singleton {β : Type} (x : β) :
    who ∈ (AList.singleton who x : AList fun _ : String ↦ β) := by
  show who ∈ (AList.singleton who x).keys
  exact mem_singleton_self who

/-- **Two places in a domain** that are seen differently are decided differently. -/
theorem Alike.place {rest rest' : List String} (ha : a ≠ "common") (hpart : Part a)
    (h : Alike ("d" :: a :: b :: rest) ("d" :: a :: c :: rest')) :
    b = c ∧ dirOf b (rest.headD "") = dirOf b (rest'.headD "") := by
  have hrank {lord steward : String} {trainees : AList fun _ : String ↦ Unit}
      {globalRead : AList fun _ : String ↦ String × String} {stat : List String → Bool}
      (who : String) : (governed a lord steward trainees globalRead stat).registry.queryWizRank
        who < .arch := show Rank.mortal < .arch by decide
  obtain ⟨who, hwho, hroot, hne, hnec⟩ := exists_name a c
  obtain rfl : b = c := by
    have hwrite := (h (governed a c who (AList.singleton who ()) ∅ fun _ ↦ false) who hwho hroot
      (hrank who)).2
    rw [steward_writes ha hpart.ne_empty hnec (mem_singleton _), steward_writes ha hpart.ne_empty
      hnec (mem_singleton _)] at hwrite
    simpa using hwrite
  have hopen := (h (governed a "" "" ∅ ∅ fun _ ↦ false) who hwho hroot (hrank who)).1
  rw [stranger_reads ha hpart.ne_empty hwho hne, stranger_reads ha hpart.ne_empty hwho hne,
    Except.ok.injEq, decide_eq_decide] at hopen
  refine ⟨rfl, dirOf_eq_iff.2 ⟨?_, hopen⟩⟩
  by_cases hb : b = "open"
  · subst hb
    have hwrite := (h (governed a "" "" ∅ ∅ writeAll) who hwho hroot (hrank who)).2
    rw [writer_writes ha hpart hwho hne, writer_writes ha hpart hwho hne, Except.ok.injEq,
      decide_eq_decide] at hwrite
    exact not_iff_not.1 hwrite
  · have hread := (h (governed a "" "" ∅ (AList.singleton who ("", "")) fun _ ↦ false) who hwho
      hroot (hrank who)).1
    rw [reader_reads ha hpart.ne_empty hwho (mem_singleton _), reader_reads ha hpart.ne_empty hwho
      (mem_singleton _), Except.ok.injEq, decide_eq_decide, or_iff_right hb,
      or_iff_right hb] at hread
    exact not_iff_not.1 hread

/-- **Two paths in domains.** -/
theorem Alike.domain {rest rest' : List String} (ha : a ≠ "common") (hb : b ≠ "common")
    (hpart : Part a) (hfile : fileOf ("d" :: a :: rest) = fileOf ("d" :: b :: rest'))
    (h : Alike ("d" :: a :: rest) ("d" :: b :: rest')) :
    seen ("d" :: a :: rest) = seen ("d" :: b :: rest') := by
  have hliege := h (governed a "x" "" ∅ ∅ fun _ ↦ false) "x" (by decide) (by decide)
    (show Rank.mortal < .arch by decide)
  obtain rfl : a = b := by
    have hread := hliege.1
    rw [liege_reads ha, liege_reads hb, Except.ok.injEq, decide_eq_decide] at hread
    have hcap := hread.1 rfl
    by_cases hdot : a = "."
    · rw [hdot] at hcap ⊢
      exact (capitalize_eq_dot (hcap.trans (by decide))).symm
    · by_cases hdot' : b = "."
      · rw [hdot'] at hcap ⊢
        exact capitalize_eq_dot (hcap.symm.trans (by decide))
      · have hcons (s : String) (l : List String) (hs : s ≠ ".") :
            fileOf ("d" :: s :: l) = "d" :: s :: fileOf l := by simp [fileOf, hs]
        rw [hcons a rest hdot, hcons b rest' hdot'] at hfile
        exact (List.cons.inj (List.cons.inj hfile).2).1
  cases rest with
  | nil =>
    cases rest' with
    | nil => rfl
    | cons b rest' =>
      rw [liege_writes ha] at hliege
      cases hliege.2
  | cons b rest =>
    cases rest' with
    | nil =>
      rw [liege_writes ha] at hliege
      cases hliege.2
    | cons c rest' =>
      obtain ⟨rfl, hdir⟩ := h.place ha hpart
      have hseen (rest : List String) : seen ("d" :: a :: b :: rest) =
        .place a b (dirOf b (rest.headD "")) := if_neg ha
      rw [hseen, hseen, hdir]

/-! ### Decisions -/

/-- Everybody may do the same with two paths. -/
def SameDecisions (file file' : String) : Prop :=
  ∀ (w : World) (who : Option String) (func : String),
    w.validRead file who func = w.validRead file' who func ∧
      w.validWrite file who = w.validWrite file' who

theorem SameDecisions.symm (h : SameDecisions file file') : SameDecisions file' file :=
  fun w who func ↦ ⟨(h w who func).1.symm, (h w who func).2.symm⟩

/-- Nobody has to have a name to read `/`. -/
theorem SameDecisions.slash (h : SameDecisions file file') (hfile : file = "/") : file' = "/" := by
  by_contra hne
  have hread := (h (lonely .normal "") none "").1
  have hfunc : ¬("" = "file_time" ∨ "" = "file_size") := by decide
  rw [World.validRead.eq_def, if_neg hfunc, if_pos hfile, World.validRead.eq_def, if_neg hfunc,
    if_neg hne, if_neg (by decide)] at hread
  cases hread

theorem SameDecisions.alike (h : SameDecisions file file') (hne : file ≠ "/") (hne' : file' ≠ "/") :
    Alike (explode file) (explode file') := by
  intro w who hwho hroot hrank
  have hless : ¬(some who = some ROOT_UID ∨ .arch ≤ w.rankOf (some who)) :=
    not_or.2 ⟨fun heq ↦ hroot (Option.some.inj heq), Rank.not_le.2 hrank⟩
  have hread {file : String} (hne : file ≠ "/") :
      w.validRead file (some who) "" = w.validReadDirs who (explode file) := by
    rw [World.validRead.eq_def, if_neg (by decide), if_neg hne, if_neg hless]
    split
    · cases ‹some who = none›
    · exact absurd (Option.some.inj ‹some who = some ""›) hwho
    · rename_i heq
      rw [Option.some.inj heq]
  have hwrite (file : String) :
      w.validWrite file (some who) = w.validWriteDirs who (explode file) := by
    rw [World.validWrite.eq_def, if_neg fun heq ↦ hless (.inl heq),
      if_neg fun hle ↦ hless (.inr hle)]
    split
    · cases ‹some who = none›
    · exact absurd (Option.some.inj ‹some who = some ""›) hwho
    · rename_i heq
      rw [Option.some.inj heq]
  have hsame := h w (some who) ""
  rwa [hread hne, hread hne', hwrite, hwrite] at hsame

/-- **What is decided differently** is seen differently. -/
theorem Alike.seen_eq (hpart : ∀ s ∈ dirs, Part s) (hpart' : ∀ s ∈ dirs', Part s)
    (hfile : fileOf dirs = fileOf dirs') (h : Alike dirs dirs') : seen dirs = seen dirs' := by
  have hliege (a : String) := h (governed a "x" "" ∅ ∅ fun _ ↦ false) "x" (by decide) (by decide)
    (show Rank.mortal < .arch by decide)
  have hdark {dirs : List String} (hd : (seen dirs).Dark) : seen dirs = .denied none ∨
      ∃ a rest, dirs = "d" :: a :: rest ∧ a ≠ "common" := by
    rcases hd with hd | ⟨a, hd⟩ | ⟨a, b, x, hd⟩
    · exact .inl hd
    · exact .inr ⟨a, [], seen_domain hd⟩
    · obtain ⟨rest, hrest, ha, -⟩ := seen_place hd
      exact .inr ⟨a, b :: rest, hrest, ha⟩
  rcases h.eq_or_dark with heq | ⟨hd, hd'⟩
  · exact heq
  rcases hdark hd with hs | ⟨a, rest, rfl, ha⟩ <;> rcases hdark hd' with hs' | ⟨b, rest', rfl, hb⟩
  · rw [hs, hs']
  · have hread := (hliege b).1
    rw [validReadDirs_eq, hs, liege_reads hb] at hread
    simp [Seen.read] at hread
  · have hread := (hliege a).1
    rw [liege_reads ha, validReadDirs_eq _ _ dirs', hs'] at hread
    simp [Seen.read] at hread
  · exact h.domain ha hb (hpart a (.tail _ (.head _))) hfile

/-- **Decisions about two paths for one file agree** exactly when the same is seen of both. -/
theorem same_decisions_iff (h : LetThrough file) (h' : LetThrough file')
    (hfile : fileOf (explode file) = fileOf (explode file')) :
    SameDecisions file file' ↔
      seen (explode file) = seen (explode file') ∧ (file = "/" ↔ file' = "/") := by
  have hpart := fun s ↦ h.part (s := s)
  have hpart' := fun s ↦ h'.part (s := s)
  constructor
  · refine fun hsame ↦ ⟨?_, hsame.slash, hsame.symm.slash⟩
    by_cases hslash : file = "/"
    · rw [hslash, hsame.slash hslash]
    · exact (hsame.alike hslash (mt hsame.symm.slash hslash)).seen_eq hpart hpart' hfile
  · rintro ⟨hseen, hslash⟩ w who func
    have hdirs := alike_of_seen hpart hpart' hfile hseen w
    constructor
    · rw [World.validRead.eq_def, World.validRead.eq_def]
      simp only [hslash]
      split_ifs
      · rfl
      · rfl
      · rfl
      · split
        · rfl
        · rfl
        · exact (hdirs _).1
    · rw [World.validWrite.eq_def, World.validWrite.eq_def]
      split_ifs
      · rfl
      · rfl
      · split
        · rfl
        · rfl
        · exact (hdirs _).2

/-- A dot makes no difference before `std`, and does before the name of a domain. -/
theorem same_decisions_iff_std : SameDecisions "/std/x" "/./std/x" ∧
    ¬SameDecisions "/d/Shire/x" "/d/./Shire/x" :=
  ⟨(same_decisions_iff (show LetThrough "/std/x" from rfl) (show LetThrough "/./std/x" from rfl)
      (by decide)).2 (by decide),
    mt (same_decisions_iff (show LetThrough "/d/Shire/x" from rfl)
      (show LetThrough "/d/./Shire/x" from rfl) (by decide)).1 (by decide)⟩

/-- **What is in** `/players` **can be read**, as `/./players`. -/
theorem not_same_decisions : ¬∀ (w : World) (who : Option String) (func file file' : String),
    LetThrough file → LetThrough file' → fileOf (explode file) = fileOf (explode file') →
      w.validRead file who func = w.validRead file' who func ∧
        w.validWrite file who = w.validWrite file' who := by
  intro hall
  have hread :=
    (hall (lonely .normal "") (some "x") "" "/players/x" "/./players/x" rfl rfl (by decide)).1
  revert hread
  decide

end Lpmud.Secure
