import KeepAutomation.Authoring
import Mathlib.Data.List.MinMax

/-! The CI webhook's cutover: admission, the CAPP call without a connection
held, and the locked re-check with its raced-failure override. -/
namespace KeepAutomation

inductive BuildOutcome where
  | success | failed
  deriving DecidableEq, Repr

inductive IgnoredReason where
  | notBuilding | shaMismatch | deleting
  deriving DecidableEq, Repr

/-- `CiWebhookOut`. -/
inductive CiWebhookOut where
  | applied
  | ignored (reason : IgnoredReason)
  deriving DecidableEq, Repr

def isHex (c : Char) : Bool := ('0' ≤ c && c ≤ '9') || ('a' ≤ c && c ≤ 'f')

def isLowerAlnum (c : Char) : Bool := ('0' ≤ c && c ≤ '9') || ('a' ≤ c && c ≤ 'z')

def isRepositoryChar (c : Char) : Bool :=
  isLowerAlnum c || c == '.' || c == '_' || c == ':' || c == '/' || c == '-'

/-- `[0-9a-f]{40}(?:[0-9a-f]{24})?` -/
def isGitObjectId (value : String) : Bool :=
  value.toList.all isHex && (value.toList.length == 40 || value.toList.length == 64)

/-- `_REPOSITORY`: a lowercase letter or digit, then repository characters. -/
def matchesRepository : List Char → Bool
  | [] => false
  | c :: cs => isLowerAlnum c && cs.all isRepositoryChar

def isValidRepository (value : String) : Bool := matchesRepository value.toList

/-- `_REPOSITORY@sha256:[0-9a-f]{64}`; no repository character is an `@`. -/
def isDigestRef (value : String) : Bool :=
  let repository := value.toList.takeWhile (· ≠ '@')
  let rest := value.toList.dropWhile (· ≠ '@')
  let hex := rest.drop 8
  matchesRepository repository && rest.take 8 == "@sha256:".toList && hex.all isHex &&
    hex.length == 64

def contractVersionMaxLength : ℕ := 64

/-- A webhook body that passed the model's validators. -/
structure CiWebhookIn where
  automationId : UUID
  commitSha : String
  status : BuildOutcome
  image : Option String
  contractVersion : Option String
  commitSha_isGitObjectId : isGitObjectId commitSha = true
  image_isDigestPinned : status = .success → image.any isDigestRef = true
  contractVersion_onSuccess : status = .success →
    !blank contractVersion && contractVersion.all fun v => v.toList.length ≤ contractVersionMaxLength
  deriving DecidableEq

def buildActor : String := "ci-webhook"

/-- What the CAPP call needs, read before the connection is released. -/
structure BuildTarget where
  tenantId : String
  wallet : String
  secretName : Option String
  cappDeploymentId : Option String
  deriving DecidableEq, Repr

def Automation.target (a : Automation) : BuildTarget where
  tenantId := a.tenantId
  wallet := a.nameSpace
  secretName := a.secretName
  cappDeploymentId := a.cappDeploymentId

/-- Why this webhook must be ignored, or `none` when it may apply. -/
def admission (a : Automation) (commitSha : String) : Option IgnoredReason :=
  if a.matchingState ∈ deletionStates then some .deleting
  else if a.buildState ≠ .building then some .notBuilding
  else if a.buildingSha ≠ some commitSha then some .shaMismatch
  else none

/-- The human actions that commit a script and so request a build. -/
def RevisionAction.requesting : RevisionAction → Bool
  | .create | .edit => true
  | _ => false

/-- `ORDER BY created_at DESC LIMIT 1` over the create and edit revisions. -/
def newestRequest (revisions : List AutomationRevision) : Option AutomationRevision :=
  (revisions.filter fun v => v.action.requesting).argmax AutomationRevision.createdAt

/-- The row is `build_failed` for this commit: a failure recorded while this
success was inside its CAPP call. -/
def failureRaced (r : Record) (commitSha : String) : Bool :=
  if r.automation.buildState ≠ .buildFailed then false
  else (newestRequest r.revisions).bind AutomationRevision.gitSha = some commitSha

/-- The locked re-check: admission, with the raced failure overridden. -/
def recheck (r : Record) (commitSha : String) : Option IgnoredReason :=
  -- a mismatched commit and a deletion are never overridden
  if admission r.automation commitSha = some .notBuilding ∧ failureRaced r commitSha then none
  else admission r.automation commitSha

def buildRevision (event : CiWebhookIn) (action : RevisionAction) (digest : Option String)
    (now : Timestamp) : AutomationRevision where
  automationId := event.automationId
  action := action
  gitSha := some event.commitSha
  resultingDigest := digest
  actor := buildActor
  createdAt := now

/-- `prefix.rstrip("/")`, or `none` when no image could ever match it. -/
def configuredImageRepository (repository : String) : Option String :=
  let stripped := String.ofList (repository.toList.reverse.dropWhile (· = '/')).reverse
  if stripped = "" ∨ ¬isValidRepository stripped then none else some stripped

def foreignImage : FieldError where
  field := "image"
  code := .invalidValue
  message := "image must be built in this automation's repository"

/-- The image must come from this automation's own repository: the reference up
to its first `@` is compared with the configured prefix. -/
def requireOwnImage (repository : String) (event : CiWebhookIn) : Except Error Unit :=
  match configuredImageRepository repository with
  -- fails closed: an unset or malformed prefix matches no image
  | none => .error .cappUnavailableError
  | some base =>
    let named := String.ofList ((event.image.getD "").toList.takeWhile (· ≠ '@'))
    if named = base ++ "/" ++ event.automationId.str then .ok ()
    else .error (.automationValidationError [foreignImage])

/-- The revision that requested this build learns what it produced. -/
def AutomationRevision.stamp (event : CiWebhookIn) (v : AutomationRevision) : AutomationRevision :=
  if v.gitSha = some event.commitSha ∧ v.action.requesting then
    { v with resultingDigest := event.image }
  else v

/-- The cutover, its audit row and the stamp on the requesting revision. -/
def cutOver (r : Record) (event : CiWebhookIn) (created : Option CappDeployment) (now : Timestamp) :
    Record where
  automation := { r.automation with
    -- a first deploy stores its id and url, a rollout keeps those of the row
    cappDeploymentId := (created.map CappDeployment.deploymentId).or r.automation.cappDeploymentId
    deploymentUrl := (created.map CappDeployment.deploymentUrl).or r.automation.deploymentUrl
    activeDigest := event.image
    contractVersion := event.contractVersion
    buildState := .idle
    buildingSha := none
    buildLockDeadline := none
    updatedAt := now }
  revisions := r.revisions.map (AutomationRevision.stamp event) ++
    [buildRevision event .buildSucceeded event.image now]

def failBuild (r : Record) (event : CiWebhookIn) (now : Timestamp) : Record where
  automation := { r.automation with
    buildState := .buildFailed
    buildingSha := none
    buildLockDeadline := none
    updatedAt := now }
  revisions := r.revisions ++ [buildRevision event .buildFailed none now]

/-- A running `apply_build_result`, cut at its transactions and CAPP calls. -/
inductive Delivery where
  | idle
  | recordingFailure (event : CiWebhookIn)
  | callingCapp (event : CiWebhookIn) (target : BuildTarget)
  | rechecking (event : CiWebhookIn) (target : BuildTarget) (created : Option CappDeployment)
  | deletingCapp (event : CiWebhookIn) (wallet name : String)
  | deletingSecret (event : CiWebhookIn) (wallet : String)
  | answered (event : CiWebhookIn) (out : CiWebhookOut)
  | raised (event : CiWebhookIn) (error : Error)
  | crashed (event : CiWebhookIn)
  deriving DecidableEq

/-- Between the admission and the answer. -/
def Delivery.inFlight : Delivery → Bool
  | .recordingFailure _ | .callingCapp _ _ | .rechecking _ _ _ | .deletingCapp _ _ _
  | .deletingSecret _ _ => true
  | _ => false

/-- The event of a delivery admitted and not answered by CAPP yet. -/
def Delivery.calling : Delivery → Option CiWebhookIn
  | .callingCapp event _ => some event
  | _ => none

/-- The event of a delivery whose image CAPP accepted and that has not been
re-checked yet. -/
def Delivery.unchecked : Delivery → Option CiWebhookIn
  | .rechecking event _ _ => some event
  | _ => none

/-- The event and the answer of a finished delivery. -/
def Delivery.answer? : Delivery → Option (CiWebhookIn × CiWebhookOut)
  | .answered event out => some (event, out)
  | _ => none

inductive DeliveryOp where
  | receive (event : CiWebhookIn) (readFails : Bool)
  | recordFailure (fault : Option DbFault)
  | cappAccepts (deployment : CappDeployment)
  | cappRaises
  | recheck (fault : Option DbFault)
  | tearDown (outcome : CallOutcome)
  | crash

/-- Phase 1: unlocked admission and snapshot, then the image binding. -/
def admitDelivery (cfg : Config) (event : CiWebhookIn) (record : Option Record) : Delivery :=
  match record with
  | none => .raised event .automationNotFoundError
  | some r =>
    match admission r.automation event.commitSha with
    -- strict, for a success too: a failed build is not re-opened here
    | some reason => .answered event (.ignored reason)
    | none =>
      -- a failure names no image to be bound
      if event.status = .failed then .recordingFailure event
      else
        match requireOwnImage cfg.automationImageRepository event with
        | .error e => .raised event e
        | .ok () => .callingCapp event r.automation.target

/-- `_record_failure`: admission again under the row lock. -/
def recordFailure (event : CiWebhookIn) (now : Timestamp) (record : Option Record) :
    Option Record × Delivery :=
  match record with
  | none => (none, .raised event .automationNotFoundError)
  | some r =>
    match admission r.automation event.commitSha with
    | some reason => (some r, .answered event (.ignored reason))
    | none => (some (failBuild r event now), .answered event .applied)

/-- A call to CAPP with its arguments. -/
inductive CappCall where
  | createDeployment (automationId : UUID) (wallet image : String) (secretRefs : List String)
  | rollout (deploymentId image : String) (secretRefs : List String)
  deriving DecidableEq

def World.cappCall (w : World) : CappCall → World
  | .createDeployment automationId wallet image secretRefs =>
    w.createDeployment automationId wallet image secretRefs
  | .rollout deploymentId image secretRefs => w.rollout deploymentId image secretRefs

/-- `[secret_name] if secret_name else []`; an empty name is falsy. -/
def BuildTarget.secretRefs (target : BuildTarget) : List String :=
  match target.secretName with
  | none => []
  | some secretName => if secretName = "" then [] else [secretName]

/-- The call of phase 2: a first deploy is created, a later one rolled out. The
secret can change with an edit, so it travels with both. -/
def deployCall (automationId : UUID) (event : CiWebhookIn) (target : BuildTarget) : CappCall :=
  match target.cappDeploymentId with
  | none => .createDeployment automationId target.wallet (event.image.getD "") target.secretRefs
  | some deploymentId => .rollout deploymentId (event.image.getD "") target.secretRefs

/-- Phase 2's effect in CAPP. -/
def deploy (cfg : Config) (w : World) (event : CiWebhookIn) (target : BuildTarget) : World :=
  w.cappCall (deployCall cfg.automationId event target)

/-- Phase 3: cut over, or ignore and undo the call when a deletion has started. -/
def commitCutover (event : CiWebhookIn) (target : BuildTarget) (created : Option CappDeployment)
    (now : Timestamp) (record : Option Record) : Option Record × Delivery :=
  match record with
  | none => (none, .raised event .automationNotFoundError)
  | some r =>
    match recheck r event.commitSha with
    | none => (some (cutOver r event created now), .answered event .applied)
    -- the cascade may be past its CAPP step, so the call undoes what it deployed
    | some .deleting =>
      let name := (created.map CappDeployment.deploymentId).or target.cappDeploymentId
      (some r, .deletingCapp event target.wallet (name.getD ""))
    | some reason => (some r, .answered event (.ignored reason))

/-- An ignored re-check that logs `CAPP ahead of row`. -/
def logsAheadOfRow (event : CiWebhookIn) (r : Record) : Prop :=
  recheck r event.commitSha ≠ none ∧ r.automation.activeDigest ≠ event.image

instance (event : CiWebhookIn) (r : Record) : Decidable (logsAheadOfRow event r) :=
  inferInstanceAs (Decidable (_ ∧ _))

/-- The error a fault of the cutover transaction surfaces as. -/
def notRecorded : DbFault → Error
  | .busy => .automationBusyError
  | .database => .buildNotRecordedError

/-- One step of `apply_build_result`. The teardown is best effort: a call that
raises ends it and the answer stays `ignored`. -/
def Delivery.step (cfg : Config) (now : Timestamp) (sh : Shared) :
    Delivery → DeliveryOp → Option (Shared × Delivery)
  | .idle, .receive event readFails =>
    if event.automationId ≠ cfg.automationId then none
    else if readFails then some (sh, .raised event .sqlAlchemyError)
    else some (sh, admitDelivery cfg event sh.record)
  | .recordingFailure event, .recordFailure fault =>
    match fault with
    | some f => some (sh, .raised event f.error)
    | none =>
      let (record, d) := recordFailure event now sh.record
      some ({ sh with record := record }, d)
  | .callingCapp event target, .cappAccepts deployment =>
    -- a rollout returns nothing to store
    let created := if target.cappDeploymentId = none then some deployment else none
    some ({ sh with world := deploy cfg sh.world event target }, .rechecking event target created)
  -- the row is untouched and stays building
  | .callingCapp event _, .cappRaises => some (sh, .raised event .cappUnavailableError)
  | .rechecking event target created, .recheck fault =>
    match fault with
    -- CAPP has accepted by now: the fault leaves it ahead of the row
    | some f => some (sh, .raised event (notRecorded f))
    | none =>
      let (record, d) := commitCutover event target created now sh.record
      some ({ sh with record := record }, d)
  | .deletingCapp event wallet name, .tearDown outcome =>
    let world := if outcome.effective then sh.world.deleteCapp wallet name else sh.world
    -- one `try` around both deletions: a raise skips the second
    let d := if outcome = .ok then .deletingSecret event wallet
      else .answered event (.ignored .deleting)
    some ({ sh with world := world }, d)
  | .deletingSecret event wallet, .tearDown outcome =>
    let world := if outcome.effective then
      sh.world.deleteSecret wallet (runAuthSecretName event.automationId) else sh.world
    some ({ sh with world := world }, .answered event (.ignored .deleting))
  | .recordingFailure event, .crash | .callingCapp event _, .crash
  | .rechecking event _ _, .crash | .deletingCapp event _ _, .crash
  | .deletingSecret event _, .crash => some (sh, .crashed event)
  | _, _ => none

end KeepAutomation
