import Lpmud.Secure.Confined

/-!
# What is private

In the directory of a domain, reading and writing are two cascades of rules. Who may write may read
as well, but for the steward and for write sanctions, which are given apart from those to read
(`WriteOnly`). The directories called `private` of the members are closed, but for the sanctions
that their domain gives on paths (`PathSanctioned`).

The file of a sanction is looked up under the name of the receiver, also where there is none. For
somebody who has no domain, the first part of the path is then taken for the receiver
(`Coinciding`), and what the domain lets a member read is open to everybody without a domain.
-/

namespace Lpmud.Secure

open List

namespace World

def querySanction (w : World) (giver receiver type : String) (path : List String) : Bool :=
  w.fileTime (["players", "sanctions", giver, receiver] ++ path ++ [type])

end World

open World

/-- **The domain lets the user read a directory above `path`**: it has given a sanction on it to the
user, to the domain of the user, or to all. -/
def PathSanctioned (w : World) (user dname : String) (path : List String) : Prop :=
  ∃ index < path.length, ∃ receiver,
    (receiver = "all" ∨ receiver = user ∨
      receiver ≠ "" ∧ receiver = w.registry.queryWizDom user) ∧
    w.querySanction dname receiver "read-sanction" (path.take (index + 1)) = true

/-- **The domain lets `wname` read**, everywhere or on a path that goes on from `wname` as `path`
does. -/
def Coinciding (w : World) (dname wname : String) (path : List String) : Prop :=
  ∃ index < path.length + 1,
    w.querySanction dname wname "read-sanction" (path.take index) = true

/-- **The user may write, and that is all.** -/
inductive WriteOnly (w : World) (user dname : String) (rest : List String) : Prop
  /-- The steward, in somebody's private directory, or in a domain whose members cannot read
  everywhere, or of which it is not a member. -/
  | steward (hsteward : w.registry.queryDomainSteward dname = user)
    (hread : rest.tail.headD "" = "private" ∨ dname = WIZARD_DOMAIN ∨
      w.registry.queryWizDom user ≠ dname)
  /-- A sanction to write on a path, without one to read. -/
  | path (hwrite : w.recursiveValidWritePathSanction user dname rest = true)
    (hread : w.recursiveValidReadPathSanction user dname rest = false)
  /-- A sanction to write in the directories of `giver`, without one to read, or in the private
  directory of the domain, or for a member of the domain of lonely wizards. -/
  | general (giver : String)
    (hgiver : giver =
      if w.registry.queryWizDom (rest.headD "") = dname then rest.headD "" else dname)
    (hwrite : w.validWriteSanction user giver = true ∨ w.validWriteAllSanction user dname = true)
    (hread : w.validReadSanction user giver = false ∧ w.validReadAllSanction user dname = false ∨
      rest.headD "" = "private" ∨
      dname = WIZARD_DOMAIN ∧ (w.registry.queryWizDom user = dname ∨ dname = user))

variable {w : World} {user dname wname file func receiver suffix : String}
  {rest path : List String}

/-! ### Sanctions -/

theorem fileTime_empty (pre post : List String) :
    w.fileTime (pre ++ "" :: post) = w.fileTime (pre ++ post) := by
  have hempty : explode "" = [] := by decide
  have hlegal : (!"".toList.contains ' ' && !twoDots "".toList) = true := rfl
  simp only [World.fileTime, all_append, all_cons, flatMap_append,
    flatMap_cons, hempty, hlegal, Bool.true_and, nil_append]

/-- **Sanctions that are found for a domain without a name** are those of the first part of the
path. -/
theorem querySanction_empty (dname wname type : String) (path : List String) :
    w.querySanction dname "" type (wname :: path) = w.querySanction dname wname type path :=
  fileTime_empty ["players", "sanctions", dname] (wname :: path ++ [type])

theorem sanction_iff : w.sanction user dname path suffix = true ↔
    w.querySanction dname "all" suffix path = true ∨
      w.querySanction dname user suffix path = true ∨
      w.querySanction dname (w.registry.queryWizDom user) suffix path = true := by
  rw [World.sanction, Bool.or_eq_true, Bool.or_eq_true, or_assoc]
  rfl

theorem recursiveValidReadPathSanction_iff :
    w.recursiveValidReadPathSanction user dname path = true ↔
      ∃ index < path.length, w.validReadPathSanction user dname (path.take (index + 1)) = true := by
  rw [World.recursiveValidReadPathSanction, any_eq_true]
  simp only [mem_range]

/-- **What a sanction on a path comes from.** -/
theorem pathSanctioned_or_coinciding
    (h : w.recursiveValidReadPathSanction user dname (wname :: path) = true) :
    PathSanctioned w user dname (wname :: path) ∨
      w.registry.queryWizDom user = "" ∧ Coinciding w dname wname path := by
  obtain ⟨index, hindex, hsanction⟩ := recursiveValidReadPathSanction_iff.1 h
  rw [World.validReadPathSanction, sanction_iff] at hsanction
  rcases hsanction with hall | huser | hdom
  · exact .inl ⟨index, hindex, "all", .inl rfl, hall⟩
  · exact .inl ⟨index, hindex, user, .inr (.inl rfl), huser⟩
  · by_cases hempty : w.registry.queryWizDom user = ""
    · rw [hempty, take_succ_cons, querySanction_empty] at hdom
      exact .inr ⟨hempty, index, by simpa using hindex, hdom⟩
    · exact .inl ⟨index, hindex, _, .inr (.inr ⟨hempty, rfl⟩), hdom⟩

/-! ### In the directory of a domain -/

theorem validReadDomain_cons (dir : String) (hdir : rest.headD "" = dir) :
    w.validReadDomain user dname (wname :: rest) =
      if w.registry.queryDomainLord dname = user ∨
          wname = user ∧ w.registry.queryWizDom wname = dname then true
      else if wname = "open" ∨ dir = "open" then true
      else if wname ≠ "" ∧ w.recursiveValidReadPathSanction user dname (wname :: rest) then true
      else if dir = "private" then false
      else if user ∈ w.registry.globalRead then true
      else if w.registry.queryWizDom user = dname ∨ dname = user then dname ≠ WIZARD_DOMAIN
      else if wname = "private" then false
      else if w.registry.queryWizDom wname = dname then
        w.validReadSanction user wname || w.validReadAllSanction user dname
      else w.validReadSanction user dname || w.validReadAllSanction user dname :=
  hdir ▸ rfl

theorem readDomain_own (h : w.registry.queryDomainLord dname = user ∨
    wname = user ∧ w.registry.queryWizDom wname = dname) :
    w.validReadDomain user dname (wname :: rest) = true := by
  rw [validReadDomain_cons _ rfl, if_pos h]

theorem readDomain_path (hwname : wname ≠ "")
    (h : w.recursiveValidReadPathSanction user dname (wname :: rest) = true) :
    w.validReadDomain user dname (wname :: rest) = true := by
  rw [validReadDomain_cons _ rfl]
  split_ifs with hown hopen hpath
  · rfl
  · rfl
  · rfl
  all_goals exact absurd ⟨hwname, h⟩ hpath

theorem readDomain_member (hprivate : rest.headD "" ≠ "private") (hlonely : dname ≠ WIZARD_DOMAIN)
    (h : w.registry.queryWizDom user = dname ∨ dname = user) :
    w.validReadDomain user dname (wname :: rest) = true := by
  rw [validReadDomain_cons _ rfl]
  rw [if_neg hprivate]
  split_ifs with hown hopen hpath hglobal
  · rfl
  · rfl
  · rfl
  · rfl
  · exact decide_eq_true hlonely

theorem readDomain_sanction (hprivate : rest.headD "" ≠ "private") (hwname : wname ≠ "private")
    (hlonely : ¬(dname = WIZARD_DOMAIN ∧ (w.registry.queryWizDom user = dname ∨ dname = user)))
    (h : w.validReadSanction user
        (if w.registry.queryWizDom wname = dname then wname else dname) = true ∨
      w.validReadAllSanction user dname = true) :
    w.validReadDomain user dname (wname :: rest) = true := by
  rw [← Bool.or_eq_true] at h
  rw [validReadDomain_cons _ rfl]
  rw [if_neg hprivate, if_neg hwname]
  split_ifs with hown hopen hpath hglobal hmember hgiver
  · rfl
  · rfl
  · rfl
  · rfl
  · exact decide_eq_true fun h ↦ hlonely ⟨h, hmember⟩
  · rwa [if_pos hgiver] at h
  · rwa [if_neg hgiver] at h

/-- A general sanction to write: either there is one to read beside it that is looked at, or it is
for writing only. -/
theorem readDomain_or_general (hprivate : rest.headD "" ≠ "private")
    (h : w.validWriteSanction user
        (if w.registry.queryWizDom wname = dname then wname else dname) = true ∨
      w.validWriteAllSanction user dname = true) :
    w.validReadDomain user dname (wname :: rest) = true ∨
      WriteOnly w user dname (wname :: rest) := by
  by_cases hwname : wname = "private"
  · exact .inr (.general _ rfl h (.inr (.inl hwname)))
  by_cases hlonely :
      dname = WIZARD_DOMAIN ∧ (w.registry.queryWizDom user = dname ∨ dname = user)
  · exact .inr (.general _ rfl h (.inr (.inr hlonely)))
  by_cases hread : w.validReadSanction user
      (if w.registry.queryWizDom wname = dname then wname else dname) = true ∨
      w.validReadAllSanction user dname = true
  · exact .inl (readDomain_sanction hprivate hwname hlonely hread)
  · rw [not_or, Bool.not_eq_true, Bool.not_eq_true] at hread
    exact .inr (.general _ rfl h (.inl hread))

/-- **Writing and reading in the directory of a domain.** -/
theorem readDomain_or_writeOnly (hwname : wname ≠ "")
    (h : w.validWriteDomain user dname wname rest = true) :
    w.validReadDomain user dname (wname :: rest) = true ∨
      WriteOnly w user dname (wname :: rest) := by
  have hdir : rest.headD "" = "private" ↔ rest.head? = some "private" := by
    cases rest with
    | nil => simp
    | cons dir rest => simp
  rw [validWriteDomain] at h
  split_ifs at h with hown hsteward hpath hdomain hprivate hmember htrainee hfree
  · exact .inl (readDomain_own hown)
  · by_cases hread : rest.headD "" = "private" ∨ dname = WIZARD_DOMAIN ∨
        w.registry.queryWizDom user ≠ dname
    · exact .inr (.steward hsteward.1 hread)
    · obtain ⟨hopen, hlonely, hmember⟩ := not_or.1 hread |>.imp_right not_or.1
      exact .inl (readDomain_member hopen hlonely (.inl (not_not.1 hmember)))
  · by_cases hread : w.recursiveValidReadPathSanction user dname (wname :: rest) = true
    · exact .inl (readDomain_path hwname hread)
    · exact .inr (.path hpath (Bool.eq_false_iff.2 hread))
  · refine readDomain_or_general (fun h ↦ hprivate (hdir.1 h)) ?_
    rw [if_pos hmember]
    exact Bool.or_eq_true _ _ ▸ h
  · exact .inl (readDomain_member (fun h ↦ hprivate (hdir.1 h)) (of_decide_eq_true h) hfree.2)
  · refine readDomain_or_general (fun h ↦ hprivate (hdir.1 h)) ?_
    rw [if_neg hmember]
    exact Bool.or_eq_true _ _ ▸ h

/-- **Who reads in a private directory.** -/
theorem privateDomain_cases (hopen : wname ≠ "open")
    (h : w.validReadDomain user dname (wname :: "private" :: path) = true) :
    user = wname ∨ user = w.registry.queryDomainLord dname ∨
      PathSanctioned w user dname (wname :: "private" :: path) ∨
      w.registry.queryWizDom user = "" ∧ Coinciding w dname wname ("private" :: path) := by
  have hopen' : ¬(wname = "open" ∨ "private" = "open") := not_or.2 ⟨hopen, by decide⟩
  rw [validReadDomain_cons "private" rfl, if_neg hopen', if_pos rfl] at h
  split_ifs at h with hown hpath
  · rcases hown with hlord | hown
    · exact .inr (.inl hlord.symm)
    · exact .inl hown.1.symm
  · exact .inr (.inr (pathSanctioned_or_coinciding hpath.2))

/-! ### The decisions -/

/-- `valid_read` for those who may not do as they please, where more is asked than the time or the
size of a file. -/
theorem validRead_of_lt (hroot : user ≠ ROOT_UID) (hrank : w.rankOf (some user) < .arch)
    (hfunc : func ≠ "file_time" ∧ func ≠ "file_size") (hfile : file ≠ "/") :
    w.validRead file (some user) func = .ok true ↔
      user ≠ "" ∧ w.validReadDirs user (explode file) = .ok true := by
  rw [validRead.eq_def, if_neg (not_or.2 hfunc), if_neg hfile,
    if_neg (not_or.2 ⟨fun h ↦ hroot (Option.some.inj h), Rank.not_le.2 hrank⟩)]
  split
  · next heq => cases heq
  · next heq => exact iff_of_false nofun fun h ↦ h.1 (Option.some.inj heq)
  · next hne heq =>
    obtain rfl := Option.some.inj heq
    exact ⟨fun h ↦ ⟨hne, h⟩, fun h ↦ h.2⟩

theorem validReadDirs_domain (hcommon : dname ≠ "common") :
    w.validReadDirs user ("d" :: dname :: rest) = .ok true ↔
      w.registry.queryDomainNumber dname ≠ -1 ∧ w.validReadDomain user dname rest = true := by
  obtain ⟨common, heq⟩ : ∃ common, w.validReadDirs user ("d" :: dname :: rest) =
      if dname = "common" then common
      else if w.registry.queryDomainNumber dname = -1 then .ok false
      else .ok (w.validReadDomain user dname rest) := ⟨_, rfl⟩
  rw [heq, if_neg hcommon]
  split_ifs with hnumber
  · exact iff_of_false (by rintro ⟨⟩) fun h ↦ h.1 hnumber
  · rw [Except.ok.injEq, and_iff_right hnumber]

/-- What is granted below `/d/common` is granted for writing and for reading. -/
theorem common_read (h : w.validWriteDirs user ("d" :: "common" :: rest) = .ok true) :
    w.validReadDirs user ("d" :: "common" :: rest) = .ok true := by
  cases rest with
  | nil => cases h
  | cons wname rest =>
    have hgrant : w.registry.queryWizRank user = .lord ∨
        w.registry.queryWizRank user = .steward ∧ wname = w.registry.queryWizDom user :=
      of_decide_eq_true (Except.ok.inj h)
    have heq : w.validReadDirs user ("d" :: "common" :: wname :: rest) =
        if w.registry.queryWizRank user = .lord then .ok true
        else if w.registry.queryWizRank user = .steward then
          .ok (decide (wname = w.registry.queryWizDom user))
        else .ok false := rfl
    rw [heq]
    rcases hgrant with hlord | ⟨hsteward, hown⟩
    · exact if_pos hlord
    · rw [if_neg (by rw [hsteward]; decide), if_pos hsteward, decide_eq_true hown]

/-- **Who may write in the directories of domains may read there**, or has been allowed to write
only. -/
theorem readDirs_or_writeOnly (hparts : ∀ s ∈ rest, s ≠ "")
    (h : w.validWriteDirs user ("d" :: dname :: rest) = .ok true) :
    w.validReadDirs user ("d" :: dname :: rest) = .ok true ∨ WriteOnly w user dname rest := by
  by_cases hcommon : dname = "common"
  · subst hcommon
    exact .inl (common_read h)
  cases rest with
  | nil => cases h
  | cons wname rest =>
    have heq : w.validWriteDirs user ("d" :: dname :: wname :: rest) = .ok (
        if dname = "common" then
          (w.registry.queryWizRank user = .lord ∨
            w.registry.queryWizRank user = .steward ∧ wname = w.registry.queryWizDom user : Bool)
        else if "d" ≠ "d" ∨ w.registry.queryDomainNumber dname = -1 then false
        else w.validWriteDomain user dname wname rest) := rfl
    rw [heq, if_neg hcommon, Except.ok.injEq] at h
    split_ifs at h with hnumber
    rw [validReadDirs_domain hcommon, and_iff_right fun h ↦ hnumber (.inr h)]
    exact readDomain_or_writeOnly (hparts wname (.head _)) h

/-- **Private directories stay private.** In the directory of a domain, writing implies reading but
for what is meant for writing only; and what is in somebody's private directory is read by its
owner, by the lord, and with a sanction on the path. Where somebody is called `open`, everything is
open to all; and for users without a domain, sanctions of the owner's have to be kept apart. -/
theorem private_stays_private (hroot : user ≠ ROOT_UID) (hrank : w.rankOf (some user) < .arch)
    (hfunc : func ≠ "file_time" ∧ func ≠ "file_size")
    (hpath : explode file = "d" :: dname :: rest) :
    (w.validWrite file (some user) = .ok true →
      w.validRead file (some user) func = .ok true ∨ WriteOnly w user dname rest) ∧
    ∀ wname path, rest = wname :: "private" :: path → w.registry.queryWizDom wname = dname →
      dname ≠ "common" → wname ≠ "open" →
      (w.registry.queryWizDom user = "" → ¬Coinciding w dname wname ("private" :: path)) →
      w.validRead file (some user) func = .ok true →
        user = wname ∨ user = w.registry.queryDomainLord dname ∨
          PathSanctioned w user dname rest := by
  have hfile : file ≠ "/" := by
    rintro rfl
    have hroot : explode "/" = [] := by decide
    rw [hroot] at hpath
    cases hpath
  have hparts : ∀ s ∈ rest, s ≠ "" := fun s hs ↦
    of_decide_eq_true (mem_filter.1 (hpath ▸ .tail _ (.tail _ hs) : s ∈ explode file)).2
  rw [validRead_of_lt hroot hrank hfunc hfile, hpath]
  constructor
  · intro hwrite
    obtain ⟨name, hname, heq, h⟩ :=
      (validWrite_of_lt (fun h ↦ hroot (Option.some.inj h)) hrank).1 hwrite
    obtain rfl := Option.some.inj heq
    rw [hpath] at h
    exact (readDirs_or_writeOnly hparts h).imp_left fun h ↦ ⟨hname, h⟩
  · rintro wname path rfl - hcommon hopen hcoinciding ⟨-, hread⟩
    rcases privateDomain_cases hopen ((validReadDirs_domain hcommon).1 hread).2 with
      hown | hlord | hsanction | ⟨hnone, hcoin⟩
    · exact .inl hown
    · exact .inr (.inl hlord)
    · exact .inr (.inr hsanction)
    · exact absurd hcoin (hcoinciding hnone)

/-- The domain `Shire` with its lord, its steward and a member, who may read in the domain; and an
apprentice without a domain. -/
def shireOfThree : World where
  registry :=
    { domCount := 1
      domains := .singleton "Shire" ⟨0, "shi", "bilbo", "sam", ["bilbo", "sam", "merry"], "", 9⟩
      wizards := AList.insert "bilbo" ⟨.lord, 35, "root", "Shire", "root"⟩
        (AList.insert "sam" ⟨.steward, 26, "bilbo", "Shire", "bilbo"⟩
          (AList.insert "merry" ⟨.normal, 15, "bilbo", "Shire", "bilbo"⟩
            (.singleton "gollum" ⟨.apprentice, 10, "root", "", "root"⟩)))
      trainees := ∅
      globalRead := ∅ }
  adminTeamMember _ _ := false
  stat parts := parts = ["players", "sanctions", "Shire", "merry", "read-sanction"]

/-- The steward, in the directory of a member, and the lord, in its private one. -/
theorem private_stays_private_shire :
    (shireOfThree.validRead "/d/Shire/merry/ring.c" (some "sam") "read_file" = .ok true ∨
      WriteOnly shireOfThree "sam" "Shire" ["merry", "ring.c"]) ∧
    ("bilbo" = "merry" ∨ "bilbo" = shireOfThree.registry.queryDomainLord "Shire" ∨
      PathSanctioned shireOfThree "bilbo" "Shire" ["merry", "private", "diary"]) := by
  have hfunc : "read_file" ≠ "file_time" ∧ "read_file" ≠ "file_size" := by decide
  have hsam : shireOfThree.rankOf (some "sam") < .arch := by decide
  have hring : explode "/d/Shire/merry/ring.c" = ["d", "Shire", "merry", "ring.c"] := by decide
  have hbilbo : shireOfThree.rankOf (some "bilbo") < .arch := by decide
  have hdiary : explode "/d/Shire/merry/private/diary" =
      ["d", "Shire", "merry", "private", "diary"] := by decide
  have hdomain : shireOfThree.registry.queryWizDom "bilbo" ≠ "" := by decide
  exact ⟨(private_stays_private (by decide) hsam hfunc hring).1 (by decide),
    (private_stays_private (by decide) hbilbo hfunc hdiary).2 "merry" ["diary"] rfl (by decide)
      (by decide) (by decide) (fun h ↦ absurd h hdomain) (by decide)⟩

/-- **The steward may write what it may not read**, and what a member may read in its domain opens
its private directory to an apprentice. -/
theorem not_private_stays_private :
    (¬∀ (w : World) (user dname file func : String) (rest : List String), user ≠ ROOT_UID →
      w.rankOf (some user) < .arch → IsDomain w.registry dname →
      (func ≠ "file_time" ∧ func ≠ "file_size") → explode file = "d" :: dname :: rest →
      w.validWrite file (some user) = .ok true → w.validRead file (some user) func = .ok true) ∧
    ¬∀ (w : World) (user dname wname file func : String) (path : List String), user ≠ ROOT_UID →
      w.rankOf (some user) < .arch → IsDomain w.registry dname →
      (func ≠ "file_time" ∧ func ≠ "file_size") →
      explode file = "d" :: dname :: wname :: "private" :: path →
      w.registry.queryWizDom wname = dname → w.validRead file (some user) func = .ok true →
        user = wname ∨ user = w.registry.queryDomainLord dname ∨
          PathSanctioned w user dname (wname :: "private" :: path) := by
  have hdomain : IsDomain shireOfThree.registry "Shire" := isDomain_of_number (by decide)
  constructor
  · intro hall
    exact absurd (hall shireOfThree "sam" "Shire" "/d/Shire/merry/private/diary" "read_file"
      ["merry", "private", "diary"] (by decide) (by decide) hdomain (by decide) (by decide)
      (by decide)) (by decide)
  · intro hall
    rcases hall shireOfThree "gollum" "Shire" "merry" "/d/Shire/merry/private/diary" "read_file"
      ["diary"] (by decide) (by decide) hdomain (by decide) (by decide) (by decide)
      (by decide) with hown | hlord | ⟨index, hindex, receiver, hreceiver, hsanction⟩
    · exact absurd hown (by decide)
    · exact absurd hlord (by decide)
    · rcases hreceiver with rfl | rfl | ⟨hne, rfl⟩
      · revert index
        decide
      · revert index
        decide
      · exact hne (by decide)

end Lpmud.Secure
