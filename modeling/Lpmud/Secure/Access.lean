import Lpmud.Secure.Registry

/-!
# Who may read and write which files

The decisions that the driver asks the master object for before it touches a file (`valid_read` and
`valid_write` of `/secure/master.c`), with the sanctions they depend on, and the filter for paths of
the driver itself (`legal_path`). Decisions are made about the path as it is written; what is done
with it goes to the file that is named by it (`fileOf`).

Which files there are does not depend on how they are named (`World.stat`).
-/

namespace Lpmud.Secure

/-! ### Paths -/

/-- `explode(file, "/") - ({ "" })`. -/
def explode (file : String) : List String :=
  ((file.toList.splitOn '/').map String.ofList).filter (· ≠ "")

/-- The file that is named by the parts of a path: the parts that stand for the directory itself
are left out. -/
def fileOf (dirs : List String) : List String :=
  dirs.filter (· ≠ ".")

/-- There is a dot behind a dot. -/
def twoDots : List Char → Bool
  | [] => false
  | [_] => false
  | c :: c' :: cs => c == '.' && c' == '.' || twoDots (c' :: cs)

def legalPath (path : List Char) : Bool :=
  !path.contains ' ' && path.head? != some '/' && !twoDots path

/-- What `check_valid_path` does with a path when the master object allows it. -/
def checkPath (file : String) : Option (List Char) :=
  let path :=
    match file.toList with
    | '/' :: path => path
    | path => path
  let path := if path = [] then ['.'] else path
  if legalPath path then some path else none

/-! ### The world -/

/-- What the master object looks at: its mappings, the teams of administrators, and the times of
files, which are not 0 where there is a file. -/
structure World where
  registry : Registry
  adminTeamMember : String → String → Bool
  stat : List String → Bool

namespace World

variable (w : World)

/-- `file_time` of the path that has `parts` between its slashes. The driver lets the path through
when there are no two dots and no blank in it. -/
def fileTime (parts : List String) : Bool :=
  parts.all (fun s ↦ !s.toList.contains ' ' && !twoDots s.toList) &&
    w.stat (fileOf (parts.flatMap explode))

/-- The files of sanctions that `euid` has given to all, to one, or to the domain of this one. -/
def sanction (who euid : String) (path : List String) (suffix : String) : Bool :=
  w.fileTime (["players", "sanctions", euid, "all"] ++ path ++ [suffix]) ||
    w.fileTime (["players", "sanctions", euid, who] ++ path ++ [suffix]) ||
    w.fileTime (["players", "sanctions", euid, w.registry.queryWizDom who] ++ path ++ [suffix])

def validReadSanction (reader euid : String) : Bool :=
  w.sanction reader euid [] "read-sanction"

def validReadAllSanction (reader euid : String) : Bool :=
  w.sanction reader euid [] "read-all-sanction"

def validWriteSanction (writer euid : String) : Bool :=
  w.sanction writer euid [] "write-sanction"

def validWriteAllSanction (writer euid : String) : Bool :=
  w.sanction writer euid [] "write-all-sanction"

def validReadPathSanction (reader euid : String) (path : List String) : Bool :=
  w.sanction reader euid path "read-sanction"

def validWritePathSanction (writer euid : String) (path : List String) : Bool :=
  w.sanction writer euid path "write-sanction"

def recursiveValidReadPathSanction (reader dname : String) (parts : List String) : Bool :=
  (List.range parts.length).any fun index ↦
    w.validReadPathSanction reader dname (parts.take (index + 1))

def recursiveValidWritePathSanction (writer dname : String) (parts : List String) : Bool :=
  (List.range parts.length).any fun index ↦
    w.validWritePathSanction writer dname (parts.take (index + 1))

/-! ### The decisions -/

/-- The error of an index that there is not in an array. -/
def outOfBounds (size index : ℕ) : String :=
  "Index out of bounds. Vector size: " ++ toString size ++ ", index: " ++ toString index ++ "\n"

/-- `valid_write` in the directory of a domain, from the test of the lord on. -/
def validWriteDomain (writer dname wname : String) (rest : List String) : Bool :=
  let r := w.registry
  if r.queryDomainLord dname = writer ∨ wname = writer ∧ r.queryWizDom wname = dname then true
  else if r.queryDomainSteward dname = writer ∧ wname ≠ r.queryDomainLord dname then true
  else if w.recursiveValidWritePathSanction writer dname (wname :: rest) then true
  else if wname = "domain" then false
  else if rest.head? = some "private" then false
  else if r.queryWizDom wname = dname then
    w.validWriteSanction writer wname || w.validWriteAllSanction writer dname
  else if writer ∈ r.trainees then false
  else if r.queryWizDom wname ≠ dname ∧ (r.queryWizDom writer = dname ∨ dname = writer) then
    dname ≠ WIZARD_DOMAIN
  else w.validWriteSanction writer dname || w.validWriteAllSanction writer dname

/-- `valid_write` from the test of the first directory on, for writers that have a name. -/
def validWriteDirs (writer : String) : List String → Except String Bool
  | [] => .error (outOfBounds 0 0)
  | "open" :: _ => .ok true
  | d :: dname :: wname :: rest =>
    let r := w.registry
    .ok <|
      if dname = "common" then
        r.queryWizRank writer = .lord ∨
          r.queryWizRank writer = .steward ∧ wname = r.queryWizDom writer
      else if d ≠ "d" ∨ r.queryDomainNumber dname = -1 then false
      else w.validWriteDomain writer dname wname rest
  | _ => .ok false

/-- The rank of a reader or writer, who need not have a name. -/
def rankOf (who : Option String) : Rank :=
  (who.map w.registry.queryWizRank).getD .mortal

def validWrite (file : String) (writer : Option String) : Except String Bool :=
  if writer = some ROOT_UID then .ok true
  else if .arch ≤ w.rankOf writer then .ok true
  else
    match writer with
    | none | some "" => .ok false
    | some writer => w.validWriteDirs writer (explode file)

/-- The logs that the team of administrators for players can read (`/config/sys/log2.h`). -/
def AOP_TEAM_LOGS : List String :=
  []

/-- `valid_read` in the directory of a domain, from the test of the lord on. -/
def validReadDomain (reader dname : String) (rest : List String) : Bool :=
  let r := w.registry
  let wname := rest.headD ""
  let dir := rest.tail.headD ""
  if r.queryDomainLord dname = reader ∨ wname = reader ∧ r.queryWizDom wname = dname then true
  else if wname = "open" ∨ dir = "open" then true
  else if wname ≠ "" ∧ w.recursiveValidReadPathSanction reader dname rest then true
  else if dir = "private" then false
  else if reader ∈ r.globalRead then true
  else if r.queryWizDom reader = dname ∨ dname = reader then dname ≠ WIZARD_DOMAIN
  else if wname = "private" then false
  else if r.queryWizDom wname = dname then
    w.validReadSanction reader wname || w.validReadAllSanction reader dname
  else w.validReadSanction reader dname || w.validReadAllSanction reader dname

/-- `valid_read` from the test of the first directory on, for readers that have a name. -/
def validReadDirs (reader : String) : List String → Except String Bool
  | [] => .error (outOfBounds 0 0)
  | "players" :: _ | "binaries" :: _ => .ok false
  | ["syslog"] => .error (outOfBounds 1 1)
  | ["syslog", "log"] => .error (outOfBounds 2 2)
  | "syslog" :: "log" :: log :: _ =>
    .ok (log ∈ AOP_TEAM_LOGS ∧
      (.lord ≤ w.registry.queryWizRank reader ∨ w.adminTeamMember reader "aop"))
  | "d" :: dname :: rest =>
    let r := w.registry
    if dname = "common" then
      if r.queryWizRank reader = .lord then .ok true
      else if r.queryWizRank reader = .steward then
        match rest with
        | [] => .error (outOfBounds 2 2)
        | wname :: _ => .ok (wname = r.queryWizDom reader)
      else .ok false
    else if r.queryDomainNumber dname = -1 then .ok false
    else .ok (w.validReadDomain reader dname rest)
  | _ => .ok true

def validRead (file : String) (reader : Option String) (func : String) : Except String Bool :=
  if func = "file_time" ∨ func = "file_size" then .ok true
  else if file = "/" then .ok true
  else if reader = some ROOT_UID ∨ .arch ≤ w.rankOf reader then .ok true
  else
    match reader with
    | none | some "" => .ok false
    | some reader => w.validReadDirs reader (explode file)

end World

end Lpmud.Secure
