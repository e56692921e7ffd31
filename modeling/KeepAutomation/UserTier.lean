import KeepAutomation.Attempt
import KeepAutomation.KeyedTable

/-! The user tier over the whole table: the calls of one tenant, each run to its
end against what the database, git and the cascade's externals answer. -/
namespace KeepAutomation

open KeyedTable

/-- The table `automations`, each row with its revisions. -/
abbrev Store := Table fun r : Record => r.automation.id

structure Database where
  store : Store
  world : World

/-- Run a call about one row, which it reads and writes by its primary key. -/
def Database.onRow {α : Type} (d : Database) (automationId : UUID) (call : Shared → α × Shared) :
    α × Database :=
  let (x, sh) := call ⟨d.store.lookup automationId, d.world⟩
  let store := match sh.record with
    | some r => d.store.put r
    | none => d.store
  (x, ⟨store, sh.world⟩)

/-- Outcome of one deboard pass, as the ids of the children it met. -/
structure DeboardSummary where
  deleted : List UUID
  inProgress : List UUID
  skippedBuilding : List UUID
  failed : List UUID
  deriving DecidableEq

/-- What a user call returns. -/
inductive Result where
  | automation (automation : Automation)
  | detail (automation : Automation) (script : Option String)
  | automations (automations : List Automation)
  | admission (automation : Automation) (started : Bool)
  | summary (summary : DeboardSummary)

/-- One row-locked transaction that returns the row it leaves. -/
def transact (fault : Option DbFault) (transaction : Option Record → Except Error (Result × Record))
    (sh : Shared) : Except Error Result × Shared :=
  match fault with
  | some f => (.error f.error, sh)
  | none =>
    match transaction sh.record with
    | .error e => (.error e, sh)
    | .ok (result, r) => (.ok result, { sh with record := some r })

/-- A toggle as the user sees it. -/
def toggled (result : Except Error Record) : Except Error (Result × Record) :=
  result.map fun r => (.automation r.automation, r)

def admitted (result : Except Error DeleteAdmission) : Except Error (Result × Record) :=
  result.map fun d => (.admission d.record.automation d.started, d.record)

def getAutomation (tenantId : String) (readFails : Bool)
    (readScript : String → Except Error (Option String)) (sh : Shared) :
    Except Error Result × Shared :=
  if readFails then (.error .sqlAlchemyError, sh)
  else
    match scopedGet tenantId sh.record with
    | .error e => (.error e, sh)
    | .ok r =>
      -- git is asked after the session is closed
      match readScript r.automation.scriptPath with
      | .error e => (.error e, sh)
      | .ok script => (.ok (.detail r.automation script), sh)

/-- What an edit meets: git returns a commit sha or fails. -/
structure EditAnswers where
  deadline : Timestamp
  claimFault : Option DbFault
  gitSha : Option String
  releaseFault : Option DbFault
  finishFault : Option DbFault
  now : Timestamp

def updateAutomation (validateAutomation : AutomationIn → List FieldError) (tenantId : String)
    (data : AutomationIn) (actor : String) (answers : EditAnswers) (sh : Shared) :
    Except Error Result × Shared :=
  if validateAutomation data ≠ [] then
    (.error (.automationValidationError (validateAutomation data)), sh)
  else
    match answers.claimFault with
    | some f => (.error f.error, sh)
    | none =>
      match claimBuild tenantId data answers.deadline sh.record with
      | .error e => (.error e, sh)
      | .ok (claim, r) =>
        match answers.gitSha with
        | none =>
          -- a release that fails leaves the claim on the row; the git error is raised
          let r := if answers.releaseFault = none then releaseBuildClaim claim r else r
          (.error .scriptRepoUnavailableError, { sh with record := some r })
        | some gitSha =>
          transact answers.finishFault
            (fun record => toggled (finishUpdate tenantId claim data actor gitSha answers.now record))
            ⟨some r, sh.world.commitScript gitSha⟩

/-- How a deboard pass leaves one child. -/
inductive ChildOutcome where
  | deleted | inProgress | skippedBuilding | failed
  deriving DecidableEq

structure ChildAnswers where
  now : Timestamp
  fault : Option DbFault
  cascade : ℕ → Answer

/-- The body of the deboard loop: the admission, then the cascade. -/
def deboardChild (tenantId actor : String) (answers : ChildAnswers) (sh : Shared) :
    ChildOutcome × Shared :=
  match answers.fault with
  -- any exception but the build guard's
  | some _ => (.failed, sh)
  | none =>
    match beginDelete tenantId actor answers.now sh.record with
    | .error .automationBuildingError => (.skippedBuilding, sh)
    | .error _ => (.failed, sh)
    | .ok admission =>
      let (sh, pc) := runCascade answers.cascade { sh with record := some admission.record }
      match pc with
      | .returned result => (if result.completed then .deleted else .inProgress, sh)
      -- a cascade that raises is left to a later pass
      | _ => (.inProgress, sh)

def DeboardSummary.add (s : DeboardSummary) (automationId : UUID) : ChildOutcome → DeboardSummary
  | .deleted => { s with deleted := s.deleted ++ [automationId] }
  | .inProgress => { s with inProgress := s.inProgress ++ [automationId] }
  | .skippedBuilding => { s with skippedBuilding := s.skippedBuilding ++ [automationId] }
  | .failed => { s with failed := s.failed ++ [automationId] }

def listLimit : ℕ := 1000

namespace Database

/-- Git first, then the insert; the row of a failed insert leaves its commit behind. -/
def createAutomation (d : Database) (validateAutomation : AutomationIn → List FieldError)
    (tenantId : String) (automationId : UUID) (data : AutomationIn) (actor : String)
    (gitSha : Option String) (fault : Option DbFault) (deadline now : Timestamp) :
    Except Error Result × Database :=
  if validateAutomation data ≠ [] then
    (.error (.automationValidationError (validateAutomation data)), d)
  else
    match gitSha with
    | none => (.error .scriptRepoUnavailableError, d)
    | some gitSha =>
      let d := { d with world := d.world.commitScript gitSha }
      let r := KeepAutomation.createAutomation tenantId automationId data actor gitSha deadline now
      match fault with
      | some f => (.error f.error, d)
      | none =>
        if h : ∀ x ∈ d.store.rows, x.automation.id ≠ automationId then
          (.ok (.automation r.automation), { d with store := d.store.insert r h })
        -- the primary key is taken
        else (.error .sqlAlchemyError, d)

/-- The `WHERE` clause of the list. -/
def listed (tenantId : String) (nameSpace : Option String) (matchingState : Option MatchingState)
    (buildState : Option BuildState) (a : Automation) : Bool :=
  decide (a.tenantId = tenantId) && nameSpace.all (fun n => decide (a.nameSpace = n)) &&
    matchingState.all (fun m => decide (a.matchingState = m)) &&
    buildState.all (fun b => decide (a.buildState = b))

/-- Newest first; rows of one moment stay in the order of the table. -/
def listAutomations (d : Database) (tenantId : String) (nameSpace : Option String)
    (matchingState : Option MatchingState) (buildState : Option BuildState) : List Automation :=
  let rows := (d.store.rows.map Record.automation).filter
    (listed tenantId nameSpace matchingState buildState)
  (rows.mergeSort fun a b => decide (b.createdAt ≤ a.createdAt)).take listLimit

/-- The `WHERE` clause of the deboard's select. -/
def onWallet (tenantId walletName : String) (a : Automation) : Bool :=
  decide (a.tenantId = tenantId) && decide (a.nameSpace = walletName) &&
    decide (a.matchingState ≠ .deleted)

/-- The children of a deboard pass, by `created_at` and then by id. -/
def children (d : Database) (tenantId walletName : String) : List UUID :=
  let rows := (d.store.rows.map Record.automation).filter (onWallet tenantId walletName)
  (rows.mergeSort fun a b => decide (a.createdAt < b.createdAt ∨
    (a.createdAt = b.createdAt ∧ a.id.int ≤ b.id.int))).map Automation.id

/-- The loop of `deboard_wallet`. -/
def deboardLoop (tenantId actor : String) (answers : UUID → ChildAnswers) :
    List UUID → DeboardSummary → Database → DeboardSummary × Database
  | [], s, d => (s, d)
  | automationId :: ids, s, d =>
    let (outcome, d) := d.onRow automationId (deboardChild tenantId actor (answers automationId))
    deboardLoop tenantId actor answers ids (s.add automationId outcome) d

def deboardWallet (d : Database) (tenantId walletName actor : String) (readFails : Bool)
    (answers : UUID → ChildAnswers) : Except Error Result × Database :=
  if readFails then (.error .sqlAlchemyError, d)
  else
    let (s, d) := deboardLoop tenantId actor answers (d.children tenantId walletName) ⟨[], [], [], []⟩ d
    (.ok (.summary s), d)

end Database

/-- A call of the user tier with the answers it meets. -/
inductive UserCall where
  | create (automationId : UUID) (data : AutomationIn) (actor : String) (gitSha : Option String)
      (fault : Option DbFault) (deadline now : Timestamp)
  | update (automationId : UUID) (data : AutomationIn) (actor : String) (answers : EditAnswers)
  | get (automationId : UUID) (readFails : Bool) (readScript : String → Except Error (Option String))
  | list (nameSpace : Option String) (matchingState : Option MatchingState)
      (buildState : Option BuildState) (readFails : Bool)
  | enable (automationId : UUID) (actor : String) (fault : Option DbFault) (now : Timestamp)
  | disable (automationId : UUID) (actor : String) (fault : Option DbFault) (now : Timestamp)
  | beginDelete (automationId : UUID) (actor : String) (fault : Option DbFault) (now : Timestamp)
  | deboardWallet (walletName actor : String) (readFails : Bool) (answers : UUID → ChildAnswers)

/-- The new id a call brings. -/
def UserCall.createdId? : UserCall → Option UUID
  | .create automationId _ _ _ _ _ _ => some automationId
  | _ => none

def perform (validateAutomation : AutomationIn → List FieldError) (tenantId : String) (d : Database) :
    UserCall → Except Error Result × Database
  | .create automationId data actor gitSha fault deadline now =>
    d.createAutomation validateAutomation tenantId automationId data actor gitSha fault deadline now
  | .update automationId data actor answers =>
    d.onRow automationId (updateAutomation validateAutomation tenantId data actor answers)
  | .get automationId readFails readScript =>
    d.onRow automationId (getAutomation tenantId readFails readScript)
  | .list nameSpace matchingState buildState readFails =>
    (if readFails then .error .sqlAlchemyError
      else .ok (.automations (d.listAutomations tenantId nameSpace matchingState buildState)), d)
  | .enable automationId actor fault now =>
    d.onRow automationId
      (transact fault fun record => toggled (enableAutomation tenantId actor now record))
  | .disable automationId actor fault now =>
    d.onRow automationId
      (transact fault fun record => toggled (disableAutomation tenantId actor now record))
  | .beginDelete automationId actor fault now =>
    d.onRow automationId
      (transact fault fun record => admitted (KeepAutomation.beginDelete tenantId actor now record))
  | .deboardWallet walletName actor readFails answers =>
    d.deboardWallet tenantId walletName actor readFails answers

/-- The results of a sequence of calls, in order, and the database it leaves. -/
def performAll (validateAutomation : AutomationIn → List FieldError) (tenantId : String) :
    List UserCall → Database → List (Except Error Result) × Database
  | [], d => ([], d)
  | c :: cs, d =>
    let (result, d) := perform validateAutomation tenantId d c
    let (results, d) := performAll validateAutomation tenantId cs d
    (result :: results, d)

end KeepAutomation
