import Lpmud.Secure.Access

/-!
# Where files can be written

What `valid_write` grants to those who are neither root nor of the rank of an arch. It is meant to
be in `/open`, in the directories of domains, and in `/d/common` (`Confined`). The test for `common`
comes before the one for `/d`, so that lords, and stewards where the directory in it has the name of
their domain, can write in every directory that is called `common` (`Exposed`).
-/

namespace Lpmud.Secure

open Option World

variable {w : World} {file : String} {writer : Option String} {dirs : List String}

/-- There is a domain of this name. -/
def IsDomain (r : Registry) (dname : String) : Prop :=
  (r.domains.lookup (capitalize dname)).isSome

/-- The writer may write in a directory called `common`, below which is `wname`. -/
def CommonWriter (w : World) (writer : Option String) (wname : String) : Prop :=
  w.rankOf writer = .lord ∨
    w.rankOf writer = .steward ∧ some wname = writer.map w.registry.queryWizDom

/-- **The path is in `/open` or in the directory of a domain**, or it is in `/d/common`, for lords,
and for stewards in the directory of their domain there. -/
def Confined (w : World) (writer : Option String) (dirs : List String) : Prop :=
  dirs.head? = some "open" ∨ ∃ dname wname rest, dirs = "d" :: dname :: wname :: rest ∧
    (IsDomain w.registry dname ∨ dname = "common" ∧ CommonWriter w writer wname)

/-- The path is in a directory with code that is trusted. -/
def Trusted (dirs : List String) : Prop :=
  ∃ d ∈ ["secure", "std", "cmd", "sys"], dirs.head? = some d

/-- **The path is in a directory called `common`** somewhere else, and the writer may write in
`/d/common`. -/
def Exposed (w : World) (writer : Option String) (dirs : List String) : Prop :=
  writer ≠ some "" ∧ ∃ d wname rest, dirs = d :: "common" :: wname :: rest ∧ d ≠ "open" ∧ d ≠ "d" ∧
    CommonWriter w writer wname

theorem Confined.not_trusted (h : Confined w writer dirs) : ¬Trusted dirs := by
  rintro ⟨d, hd, hhead⟩
  rcases h with hopen | ⟨dname, wname, rest, rfl, -⟩
  · rw [hopen, some.injEq] at hhead
    subst hhead
    simp at hd
  · rw [List.head?_cons, some.injEq] at hhead
    subst hhead
    simp at hd

theorem isDomain_of_number {r : Registry} {dname : String} (h : r.queryDomainNumber dname ≠ -1) :
    IsDomain r dname := by
  rw [IsDomain, isSome_iff_ne_none]
  intro hnone
  rw [Registry.queryDomainNumber, hnone] at h
  exact h rfl

theorem confined_or_exposed {writer : String} (hname : writer ≠ "")
    (h : w.validWriteDirs writer dirs = .ok true) :
    Confined w (some writer) dirs ∨ Exposed w (some writer) dirs := by
  rw [validWriteDirs.eq_def] at h
  split at h
  · cases h
  · exact .inl (.inl rfl)
  · next d dname wname rest hopen =>
    have hgrant := Except.ok.inj h
    split_ifs at hgrant with hcommon hdomain
    · subst hcommon
      have hwriter : CommonWriter w (some writer) wname := by
        simpa [CommonWriter, rankOf] using hgrant
      by_cases hd : d = "d"
      · exact .inl (.inr ⟨"common", wname, rest, by rw [hd], .inr ⟨rfl, hwriter⟩⟩)
      · exact .inr ⟨by simpa using hname, d, wname, rest, rfl, hopen, hd, hwriter⟩
    · obtain ⟨hd, hnumber⟩ := not_or.1 hdomain
      rw [not_not] at hd
      exact .inl (.inr ⟨dname, wname, rest, by rw [hd], .inl (isDomain_of_number hnumber)⟩)
  · cases h

theorem Exposed.not_confined (h : Exposed w writer dirs) : ¬Confined w writer dirs := by
  obtain ⟨-, d, wname, rest, rfl, hopen, hd, -⟩ := h
  rintro (heq | ⟨dname, wname', rest', heq, -⟩)
  · exact hopen (some.inj heq)
  · exact hd (List.cons.inj heq).1

/-- Whoever may write in `/d/common` has a name. -/
theorem Exposed.exists_name (h : Exposed w writer dirs) : ∃ name ≠ "", writer = some name := by
  obtain ⟨hname, d, wname, rest, -, -, -, hwriter⟩ := h
  cases writer with
  | none => exact absurd hwriter (by simp [CommonWriter, rankOf])
  | some name => exact ⟨name, fun heq ↦ hname (congrArg some heq), rfl⟩

theorem Exposed.granted {writer : String} (h : Exposed w (some writer) dirs) :
    w.validWriteDirs writer dirs = .ok true := by
  obtain ⟨-, d, wname, rest, rfl, hopen, -, hwriter⟩ := h
  have hgrant : w.registry.queryWizRank writer = .lord ∨
      w.registry.queryWizRank writer = .steward ∧ wname = w.registry.queryWizDom writer := by
    simpa [CommonWriter, rankOf] using hwriter
  rw [validWriteDirs.eq_def]
  split
  · next heq => cases heq
  · rfl
  · next heq =>
    obtain ⟨rfl, rfl, rfl, rfl⟩ := heq
    dsimp only
    rw [if_pos rfl, decide_eq_true hgrant]
  · next hshort => exact absurd rfl (hshort d "common" wname rest)

/-- `valid_write` for those who may not do as they please. -/
theorem validWrite_of_lt (hroot : writer ≠ some ROOT_UID) (hrank : w.rankOf writer < .arch) :
    w.validWrite file writer = .ok true ↔
      ∃ name ≠ "", writer = some name ∧ w.validWriteDirs name (explode file) = .ok true := by
  rw [validWrite.eq_def, if_neg hroot, if_neg (Rank.not_le.2 hrank)]
  split
  · refine iff_of_false nofun ?_
    rintro ⟨_, -, heq, -⟩
    cases heq
  · refine iff_of_false nofun ?_
    rintro ⟨_, hname, heq, -⟩
    exact hname (some.inj heq).symm
  · next name hname =>
    refine ⟨fun h ↦ ⟨name, fun heq ↦ hname heq, rfl, h⟩, ?_⟩
    rintro ⟨_, -, heq, h⟩
    rwa [some.inj heq]

/-- **Writers are confined** exactly when they are not in a directory called `common` that is not in
`/d`. -/
theorem write_confined_iff (hroot : writer ≠ some ROOT_UID) (hrank : w.rankOf writer < .arch) :
    (w.validWrite file writer = .ok true →
      Confined w writer (explode file) ∧ ¬Trusted (explode file)) ↔
      ¬Exposed w writer (explode file) := by
  rw [validWrite_of_lt hroot hrank]
  constructor
  · intro hconfined hexposed
    obtain ⟨name, hname, rfl⟩ := hexposed.exists_name
    exact hexposed.not_confined (hconfined ⟨name, hname, rfl, hexposed.granted⟩).1
  · rintro hexposed ⟨name, hname, rfl, hgrant⟩
    have hconfined := (confined_or_exposed hname hgrant).resolve_right hexposed
    exact ⟨hconfined, hconfined.not_trusted⟩

/-- A game with the domain `Shire` and its lord, where no sanctions are given. -/
def shire : World where
  registry :=
    { domCount := 1
      domains := .singleton "Shire" ⟨0, "shi", "bilbo", "", ["bilbo"], "", 9⟩
      wizards := .singleton "bilbo" ⟨.lord, 35, "root", "Shire", "root"⟩
      trainees := ∅
      globalRead := ∅ }
  adminTeamMember _ _ := false
  stat _ := false

theorem write_confined_iff_shire :
    Confined shire (some "bilbo") ["d", "Shire", "ring.c"] := by
  have h : explode "/d/Shire/ring.c" = ["d", "Shire", "ring.c"] := by decide
  have hexposed : ¬Exposed shire (some "bilbo") (explode "/d/Shire/ring.c") := by
    rw [h]
    rintro ⟨-, d, wname, rest, heq, -⟩
    simp at heq
  have hroot : some "bilbo" ≠ some ROOT_UID := by decide
  have hrank : shire.rankOf (some "bilbo") < .arch := by decide
  have hgrant : shire.validWrite "/d/Shire/ring.c" (some "bilbo") = .ok true := by decide
  rw [← h]
  exact ((write_confined_iff hroot hrank).2 hexposed hgrant).1

/-- **Lords can write in** `/std/common`. -/
theorem not_write_confined : ¬∀ (w : World) (file : String) (writer : Option String),
    writer ≠ some ROOT_UID → w.rankOf writer < .arch → w.validWrite file writer = .ok true →
      Confined w writer (explode file) ∧ ¬Trusted (explode file) := by
  intro hall
  have hgrant : shire.validWrite "/std/common/ring.c" (some "bilbo") = .ok true := by decide
  have hconfined := hall shire "/std/common/ring.c" (some "bilbo") (by decide) (by decide) hgrant
  exact hconfined.2 ⟨"std", by simp, by decide⟩

end Lpmud.Secure
