import Lpmud.Lib.Abortable
import Lpmud.Secure.Registry

/-!
# Requests that change the registry

The functions of `/secure/master/fob.c` that make and remove domains, and that move wizards between
domains and ranks. An index of something that is not in a mapping is a run-time error: it cuts the
request short, and what was changed before stays changed (`Abortable`).

Madwands are compiled in with `FOB_MADWAND_SUPPORT` (`support`). Messages, log files, directories of
wizards, applications and sanctions are left out: nothing that is kept here depends on them.
-/

namespace Lpmud.Secure

/-! ### Ranks and posts -/

/-- `WIZ_RANK_START_LEVEL`. -/
def Rank.startLevel : Rank → ℕ
  | mortal => 0
  | apprentice => 1
  | pilgrim => 5
  | retired => 9
  | normal => 10
  | mage => 25
  | steward => 26
  | lord => 35
  | arch => 47
  | keeper => 50

/-- `WIZ_RANK_POSSIBLE_CHANGE`. -/
def Rank.possibleChange : Rank → List Rank
  | mortal => [apprentice]
  | apprentice => [mortal, pilgrim, normal]
  | pilgrim => [mortal, apprentice]
  | retired => [mortal, apprentice, normal]
  | normal => [mortal, apprentice, retired, steward, mage, lord, arch]
  | mage => [mortal, apprentice, retired, normal, steward, lord, arch]
  | steward => [mortal, apprentice, retired, normal, mage, lord, arch]
  | lord => [mortal, apprentice, retired, normal, mage, steward, arch]
  | arch => [mortal, apprentice, retired, normal, mage, steward, lord]
  | keeper => []

/-- Mages, arches and keepers: they are never without a domain. -/
def Rank.Stays (rank : Rank) : Prop :=
  rank = .mage ∨ .arch ≤ rank

instance (rank : Rank) : Decidable rank.Stays :=
  inferInstanceAs (Decidable (_ ∨ _))

/-- The two posts of a domain. -/
inductive Post where
  | lord
  | steward
  deriving DecidableEq

/-- The rank that goes with a post. -/
def Post.rank : Post → Rank
  | lord => .lord
  | steward => .steward

/-- Who has a post, `FOB_DOM_LORD` or `FOB_DOM_STEWARD`. -/
def Domain.holder (d : Domain) : Post → String
  | .lord => d.lord
  | .steward => d.steward

/-- `FOB_DOM_LORD` or `FOB_DOM_STEWARD` is set. -/
def Domain.setHolder (d : Domain) (wname : String) : Post → Domain
  | .lord => { d with lord := wname }
  | .steward => { d with steward := wname }

abbrev WIZ_CMD_NORMAL : String := "/cmd/wiz/normal"
abbrev WIZ_CMD_LORD : String := "/cmd/wiz/lord"
abbrev WIZ_CMD_ARCH : String := "/cmd/wiz/arch"

/-- The number of members that a new domain has room for. -/
abbrev DOMAIN_MAX : ℤ := 9

abbrev DISCARD_DOMAIN_DIR : String := "/d/Discarded"

/-! ### The mappings in a request -/

/-- A function of the master object. -/
abbrev Master :=
  Abortable Registry

/-- `m_wizards[wname]` with an index. -/
def wizard (wname : String) : Master Wizard :=
  .fetch fun r ↦ r.wizards.lookup wname

/-- `m_domains[dname]` with an index. -/
def domain (dname : String) : Master Domain :=
  .fetch fun r ↦ r.domains.lookup dname

/-- Elements of `m_wizards[wname]` are changed. -/
def setWizard (wname : String) (f : Wizard → Wizard) : Master Unit := do
  let wiz ← wizard wname
  .modify fun r ↦ { r with wizards := r.wizards.insert wname (f wiz) }

/-- Elements of `m_domains[dname]` are changed. -/
def setDomain (dname : String) (f : Domain → Domain) : Master Unit := do
  let d ← domain dname
  .modify fun r ↦ { r with domains := r.domains.insert dname (f d) }

/-- `m_wizards = m_delete(m_wizards, wname)`. -/
def deleteWizard (wname : String) : Master Unit :=
  .modify fun r ↦ { r with wizards := r.wizards.erase wname }

/-- `m_trainees[wname] = 1`. -/
def addTrainee (wname : String) : Master Unit :=
  .modify fun r ↦ { r with trainees := r.trainees.insert wname () }

/-- `m_trainees = m_delete(m_trainees, wname)`. -/
def deleteTrainee (wname : String) : Master Unit :=
  .modify fun r ↦ { r with trainees := r.trainees.erase wname }

/-- What a request finds outside of the registry: the file that calls (`CALL_BY`), the name of the
command giver (`getwho`), what the file system answers, and who is in the game. -/
structure Outside where
  caller : String
  who : String
  fileSize : String → ℤ
  rename : String → String → Bool
  mkdir : String → Bool
  findPlayer : String → Bool

/-! ### Ranks are changed -/

/-- The wizard gives up a post that goes with the rank. -/
def stepDown (post : Post) (wname : String) : Master Unit := do
  let wiz ← wizard wname
  if wiz.rank = post.rank then
    setDomain wiz.dom fun d ↦ d.setHolder "" post
  else
    pure ()

/-- The wizard takes a post, and the one who had it is demoted. -/
def takePost (demote : String → Master Unit) (post : Post) (wname : String) : Master Unit := do
  let wiz ← wizard wname
  let d ← domain wiz.dom
  if d.holder post ≠ "" then
    demote (d.holder post)
  else
    pure ()
  setDomain wiz.dom fun d ↦ d.setHolder wname post

/-- The wizard takes the post that goes with the new rank. -/
def stepUp (demote : String → Master Unit) (post : Post) (wname : String) (rank : Rank) :
    Master Unit :=
  if rank = post.rank then takePost demote post wname else pure ()

/-- The new rank is recorded: a retired wizard is a trainee, and none but normal wizards stay one.
-/
def recordRank (wname : String) (rank : Rank) (cmder : String) : Master Unit := do
  if rank = .retired then
    addTrainee wname
  else if rank ≠ .normal then
    deleteTrainee wname
  else
    pure ()
  setWizard wname fun wiz ↦
    { wiz with rank := rank, level := rank.startLevel, chLevel := cmder }

/-- `do_change_rank`, with what it does to the one who had the post. -/
def changeRank (demote : String → Master Unit) (wname : String) (rank : Rank) (cmder : String) :
    Master Unit := do
  stepDown .lord wname
  stepDown .steward wname
  stepUp demote .lord wname rank
  stepUp demote .steward wname rank
  recordRank wname rank cmder

/-- `do_change_rank`. It calls itself for the one who had the post (`doChangeRank_eq`). -/
def doChangeRank (wname : String) (rank : Rank) (cmder : String) : Master Unit :=
  changeRank (fun old ↦ changeRank (fun _ ↦ pure ()) old .normal cmder) wname rank cmder

theorem doChangeRank_eq (wname : String) (rank : Rank) (cmder : String) :
    doChangeRank wname rank cmder =
      changeRank (fun old ↦ doChangeRank old .normal cmder) wname rank cmder := rfl

/-- The entry that a mortal gets before the rank is changed. -/
def newWizard (cmder : String) : Wizard :=
  ⟨.mortal, Rank.startLevel .mortal, cmder, "", cmder⟩

def transformMortalIntoWizard (wname cmder : String) : Master Unit :=
  .modify fun r ↦ { r with wizards := r.wizards.insert wname (newWizard cmder) }

/-! ### Wizards are moved -/

/-- The wizard leaves the domain. -/
def leaveOldDomain (oldDomain wname : String) : Master Unit :=
  if oldDomain ≠ "" then do
    setDomain oldDomain fun d ↦ { d with members := d.members.filter (· ≠ wname) }
    deleteTrainee wname
  else
    pure ()

/-- The wizard is put on the list of the domain, and is a trainee where normal wizards are. -/
def joinDomain (dname wname : String) (rank : Rank) : Master Unit := do
  setDomain dname fun d ↦ { d with members := d.members ++ [wname] }
  if dname ≠ WIZARD_DOMAIN ∧ rank = .normal then
    addTrainee wname
  else
    pure ()

def addWizardToDomain (dname wname cmder : String) : Master Bool := do
  let dname := capitalize dname
  let wname := lowerCase wname
  let wiz ← wizard wname
  let dname := if dname = "" ∧ wiz.rank.Stays then WIZARD_DOMAIN else dname
  setWizard wname fun wiz ↦ { wiz with dom := dname, chDom := cmder }
  leaveOldDomain wiz.dom wname
  if dname = "" then
    pure true
  else do
    joinDomain dname wname wiz.rank
    pure true

/-! ### Madwands -/

variable (support : Bool) (o : Outside)

def draftMadwand (dname wname cmder : String) : Master Bool := do
  let r ← .read
  if wname ∈ r.wizards then
    pure false
  else
    match r.domains.lookup dname with
    | none => pure false
    | some d =>
      if d.madwand ≠ "" then
        pure false
      else if d.maxSize ≤ d.members.length then
        pure false
      else if !o.findPlayer wname then
        pure true
      else do
        transformMortalIntoWizard wname cmder
        setDomain dname fun d ↦ { d with madwand := wname }
        doChangeRank wname .normal cmder
        let _ ← addWizardToDomain dname wname cmder
        pure true

def expelMadwand (wname cmder : String) : Master Bool := do
  let wiz ← wizard wname
  let _ ← addWizardToDomain "" wname cmder
  setDomain wiz.dom fun d ↦ { d with madwand := "" }
  deleteWizard wname
  pure true

def madwandToWizard (wname : String) : Master Bool := do
  let wname := lowerCase wname
  let r ← .read
  if o.caller ≠ WIZ_CMD_ARCH ∨ !support then
    pure false
  else
    match r.wizards.lookup wname with
    | none => pure false
    | some wiz => do
      let d ← domain wiz.dom
      if d.madwand ≠ wname then
        pure true
      else do
        setDomain wiz.dom fun d ↦ { d with madwand := "" }
        pure true

/-! ### Domains -/

/-- The directory of a new domain is there: it was, or a discarded one is taken back, or it is
made. -/
def domainDirectory (dname : String) : Bool :=
  if o.fileSize ("/d/" ++ dname) = -1 then
    if o.fileSize (DISCARD_DOMAIN_DIR ++ "/" ++ dname) = -2 then
      o.rename (DISCARD_DOMAIN_DIR ++ "/" ++ dname) ("/d/" ++ dname)
    else
      o.mkdir ("/d/" ++ dname)
  else
    o.fileSize ("/d/" ++ dname) = -2

def makeDomain (dname sname wname : String) : Master Bool := do
  let r ← .read
  if o.caller ≠ WIZ_CMD_ARCH then
    pure false
  else if dname ∈ r.domains then
    pure false
  else if 11 < dname.length ∨ sname.length ≠ 3 then
    pure false
  -- A short name that is already in use gets a message here, and the request goes on.
  else if (r.wizards.lookup wname).map Wizard.rank ≠ some .apprentice then
    pure false
  else if !domainDirectory o dname then
    pure true
  else do
    .modify fun r ↦
      { r with
        domCount := r.domCount + 1
        domains := r.domains.insert dname ⟨r.domCount, sname, wname, "", [], "", DOMAIN_MAX⟩ }
    let _ ← addWizardToDomain dname wname o.who
    doChangeRank wname .lord o.who
    pure true

/-- A member of a domain that is removed is demoted, if need be, and expelled. -/
def dismiss (wname : String) : Master Unit := do
  let wiz ← wizard wname
  if wiz.rank = .mage ∨ wiz.rank = .arch ∨ wiz.rank = .keeper then
    pure ()
  else
    doChangeRank wname .apprentice o.who
  let _ ← addWizardToDomain "" wname o.who
  pure ()

def removeDomain (dname : String) : Master Bool := do
  let dname := capitalize dname
  let r ← .read
  if o.caller ≠ WIZ_CMD_ARCH then
    pure false
  else
    match r.domains.lookup dname with
    | none => pure false
    | some d =>
      if dname = WIZARD_DOMAIN then
        pure true
      else if o.fileSize (DISCARD_DOMAIN_DIR ++ "/" ++ dname) ≠ -1 then
        pure false
      else do
        d.members.forM (dismiss o)
        if !o.rename ("/d/" ++ dname) (DISCARD_DOMAIN_DIR ++ "/" ++ dname) then
          pure true
        else do
          .modify fun r ↦ { r with domains := r.domains.erase dname }
          pure true

/-! ### Wizards -/

def draftWizardToDomain (dname wname : String) : Master Bool := do
  let dname := capitalize dname
  let wname := lowerCase wname
  let r ← .read
  if o.caller ≠ WIZ_CMD_ARCH then
    pure false
  else
    match r.domains.lookup dname with
    | none => pure false
    | some d =>
      if d.maxSize ≤ d.members.length then
        pure false
      else
        match r.wizards.lookup wname with
        | none => if support then draftMadwand o dname wname o.who else pure false
        | some wiz =>
          if wiz.dom ≠ "" ∧ wiz.dom ≠ WIZARD_DOMAIN then
            pure false
          else if wiz.rank ≠ .apprentice ∧ wiz.rank < .normal then
            pure false
          else do
            if wiz.rank = .apprentice then
              doChangeRank wname .normal o.who
            else
              pure ()
            addWizardToDomain dname wname o.who

/-- The wizard is no madwand any more, is demoted to an apprentice if need be, and leaves the
domain. -/
def expelFromDomain (wname : String) (wiz : Wizard) (demoted : Bool) : Master Bool := do
  let d ← domain wiz.dom
  if d.madwand = wname ∧ support then
    expelMadwand wname o.who
  else do
    if d.madwand = wname then
      setDomain wiz.dom fun d ↦ { d with madwand := "" }
    else
      pure ()
    if demoted then
      doChangeRank wname .apprentice o.who
    else
      pure ()
    addWizardToDomain "" wname o.who

def expelWizardFromDomain (wname : String) : Master Bool := do
  let wname := lowerCase wname
  let r ← .read
  if o.caller ≠ WIZ_CMD_LORD then
    pure false
  else if wname = "" then
    pure false
  else
    match r.wizards.lookup wname with
    | none => pure false
    | some wiz =>
      if wiz.dom = "" then
        pure false
      else do
        let cmder ← wizard o.who
        if cmder.rank ≤ .lord ∧ wiz.dom ≠ cmder.dom then
          pure true
        else if wiz.rank.Stays then
          if wiz.dom = WIZARD_DOMAIN then
            pure true
          else
            addWizardToDomain WIZARD_DOMAIN wname o.who
        else
          expelFromDomain support o wname wiz true

def leaveDomain : Master Bool := do
  if o.caller ≠ WIZ_CMD_NORMAL then
    pure false
  else do
    let wiz ← wizard o.who
    if wiz.dom = WIZARD_DOMAIN ∧ wiz.rank.Stays then
      pure true
    else if wiz.dom = "" then
      pure true
    else
      expelFromDomain support o o.who wiz (!decide wiz.rank.Stays)

/-- `rename_wizard`, the change in the mappings of the one who is renamed. -/
def renameInMappings (oldname newname : String) : Master Unit :=
  .modify fun r ↦
    { r with
      wizards :=
        match r.wizards.lookup oldname with
        | none => r.wizards
        | some wiz => (r.wizards.insert newname wiz).erase oldname
      trainees :=
        if oldname ∈ r.trainees then (r.trainees.insert newname ()).erase oldname else r.trainees
      globalRead :=
        match r.globalRead.lookup oldname with
        | none => r.globalRead
        | some entry => (r.globalRead.insert newname entry).erase oldname }

def renameWizard (oldname newname : String) : Master Unit := do
  let wiz ← wizard oldname
  renameInMappings oldname newname
  if wiz.dom ≠ "" then do
    setDomain wiz.dom fun d ↦
      { d with members := d.members.filter (· ≠ oldname) ++ [newname] }
    let wiz ← wizard newname
    if wiz.rank = .steward then
      setDomain wiz.dom fun d ↦ { d with steward := newname }
    else if wiz.rank = .lord then
      setDomain wiz.dom fun d ↦ { d with lord := newname }
    else
      pure ()
  else
    pure ()

/-- `rename_playerfile`, which is where `rename_wizard` is called. -/
def renamePlayerfile (playerFile : String → String) (oldname newname : String) : Master Bool := do
  let r ← .read
  if o.caller ≠ WIZ_CMD_ARCH then
    pure false
  else if !o.rename (playerFile oldname ++ ".o") (playerFile newname ++ ".o") then
    pure false
  else do
    if r.queryWizRank oldname ≠ .mortal then
      renameWizard oldname newname
    else
      pure ()
    pure true

/-- The guards of `wizard_change_rank`: what the command giver may do. -/
def mayChangeRank (who wname : String) (cmder : Wizard) (oldRank rank : Rank) : Master Bool :=
  if cmder.rank = .steward then do
    let wiz ← wizard wname
    if cmder.dom ≠ wiz.dom then
      pure false
    else
      pure <| !decide (oldRank = .retired ∧ rank ≠ .normal ∨ oldRank = .normal ∧ rank ≠ .retired)
  else if cmder.rank = .lord then do
    let wiz ← wizard wname
    if cmder.dom ≠ wiz.dom then
      pure false
    else if oldRank = .pilgrim ∧ rank ≠ .normal then
      pure false
    else if oldRank = .normal ∧ rank ≠ .retired then
      pure false
    else if oldRank = .retired ∧ rank ≠ .normal then
      pure false
    else
      pure <| !decide
        (oldRank ≠ .normal ∧ oldRank ≠ .retired ∧ (oldRank ≠ .steward ∨ rank ≠ .normal))
  else if cmder.rank ≤ oldRank then
    pure <| decide (who = wname ∧ rank = .mage)
  else
    pure true

/-- What `wizard_change_rank` does after the change for some ranks. -/
def afterChange (wname dname : String) (rank : Rank) : Master Unit :=
  let leave : Master Unit :=
    if dname ≠ "" then do
      let _ ← addWizardToDomain "" wname o.who
      pure ()
    else
      pure ()
  match rank with
  | .mortal => do
    leave
    deleteWizard wname
  | .apprentice => leave
  | .pilgrim => leave
  | _ => pure ()

def wizardChangeRank (wname : String) (rank : Rank) : Master Bool := do
  let wname := lowerCase wname
  let r ← .read
  let oldRank := ((r.wizards.lookup wname).map Wizard.rank).getD .mortal
  let dname := ((r.wizards.lookup wname).map Wizard.dom).getD ""
  if o.caller ≠ WIZ_CMD_LORD then
    pure false
  else do
    let cmder ← wizard o.who
    let allowed ← mayChangeRank o.who wname cmder oldRank rank
    if !allowed then
      pure true
    else if rank ∉ oldRank.possibleChange then
      pure true
    else do
      if oldRank = .mortal then
        transformMortalIntoWizard wname o.who
      else
        pure ()
      doChangeRank wname rank o.who
      afterChange o wname dname rank
      pure true

/-! ### Runs -/

/-- A request. -/
inductive Request where
  | makeDomain (dname sname wname : String)
  | removeDomain (dname : String)
  | draftWizardToDomain (dname wname : String)
  | expelWizardFromDomain (wname : String)
  | leaveDomain
  | madwandToWizard (wname : String)
  | renamePlayerfile (oldname newname : String)
  | wizardChangeRank (wname : String) (rank : Rank)

/-- The function that a request calls. -/
def Request.run (playerFile : String → String) : Request → Master Bool
  | .makeDomain dname sname wname => Secure.makeDomain o dname sname wname
  | .removeDomain dname => Secure.removeDomain o dname
  | .draftWizardToDomain dname wname => Secure.draftWizardToDomain support o dname wname
  | .expelWizardFromDomain wname => Secure.expelWizardFromDomain support o wname
  | .leaveDomain => Secure.leaveDomain support o
  | .madwandToWizard wname => Secure.madwandToWizard support o wname
  | .renamePlayerfile oldname newname => Secure.renamePlayerfile o playerFile oldname newname
  | .wizardChangeRank wname rank => Secure.wizardChangeRank o wname rank

end Lpmud.Secure
