import KeepAutomation.World

/-! The transactions of create and edit. An edit is two of them with the git
commit in between: the claim takes `buildState = building` as its lock, and the
finish or the release acts only while the row still carries the claim's
deadline. -/
namespace KeepAutomation

/-- What an edit keeps of its claim; the deadline doubles as the fencing token. -/
structure BuildClaim where
  automationId : UUID
  scriptPath : String
  deadline : Timestamp
  previousBuildState : BuildState
  previousBuildingSha : Option String
  deriving DecidableEq, Repr

/-- The automation within a tenant: a foreign row reads as absent. -/
def scopedGet (tenantId : String) (record : Option Record) : Except Error Record :=
  match record with
  | none => .error .automationNotFoundError
  | some r =>
    if r.automation.tenantId = tenantId then .ok r else .error .automationNotFoundError

def namespaceImmutable : FieldError where
  field := "namespace"
  code := .namespaceImmutable
  message := "a deployed automation cannot move to another wallet"

/-- A deployed automation keeps its wallet. -/
def checkWalletUnchanged (automation : Automation) (data : AutomationIn) : Except Error Unit :=
  if automation.cappDeploymentId = none ∨ data.nameSpace = automation.nameSpace then .ok ()
  else .error (.automationValidationError [namespaceImmutable])

/-- The definition columns an edit writes. -/
def Automation.define (a : Automation) (data : AutomationIn) : Automation :=
  { a with
    name := data.name
    nameSpace := data.nameSpace
    triggers := data.triggers
    secretName := data.secretName
    cooldownSeconds := data.cooldownSeconds
    cooldownFields := data.cooldownFields
    timeoutSeconds := some (orDefault data.timeoutSeconds timeoutSecondsDefault)
    graceSeconds := orDefault data.graceSeconds graceSecondsDefault
    logstashUrl := data.logstashUrl }

def scriptPathFor (automationId : UUID) : String := automationId.str ++ "/script.py"

/-- The row and the revision `create_automation` inserts once git has returned
the commit. -/
def createAutomation (tenantId : String) (automationId : UUID) (data : AutomationIn)
    (actor gitSha : String) (deadline now : Timestamp) : Record where
  automation :=
    { id := automationId
      tenantId := tenantId
      name := data.name
      nameSpace := data.nameSpace
      cappDeploymentId := none
      deploymentUrl := none
      triggers := data.triggers
      scriptPath := scriptPathFor automationId
      secretName := data.secretName
      cooldownSeconds := data.cooldownSeconds
      cooldownFields := data.cooldownFields
      timeoutSeconds := some (orDefault data.timeoutSeconds timeoutSecondsDefault)
      graceSeconds := orDefault data.graceSeconds graceSecondsDefault
      logstashUrl := data.logstashUrl
      matchingState := .inactive
      buildState := .building
      activeDigest := none
      buildingSha := some gitSha
      contractVersion := none
      buildLockDeadline := some deadline
      deleteCascadeStep := none
      indexGeneration := 0
      createdBy := actor
      updatedBy := actor
      createdAt := now
      updatedAt := now }
  revisions :=
    [{ automationId := automationId
       action := .create
       gitSha := some gitSha
       resultingDigest := none
       actor := actor
       createdAt := now }]

/-- What `_claim_build` remembers of the row it locks. -/
def Record.claim (r : Record) (deadline : Timestamp) : BuildClaim where
  automationId := r.automation.id
  scriptPath := r.automation.scriptPath
  deadline := deadline
  previousBuildState := r.automation.buildState
  previousBuildingSha := r.automation.buildingSha

/-- The row under a fresh claim: no commit exists yet, so no webhook matches. -/
def Record.claimed (r : Record) (deadline : Timestamp) : Record :=
  { r with automation := { r.automation with
      buildState := .building
      buildLockDeadline := some deadline
      buildingSha := none } }

/-- Transaction 1 of an edit. -/
def claimBuild (tenantId : String) (data : AutomationIn) (deadline : Timestamp)
    (record : Option Record) : Except Error (BuildClaim × Record) :=
  match scopedGet tenantId record with
  | .error e => .error e
  | .ok r =>
    -- lifecycle before build: an edit of a deleting row would re-arm a build
    if r.automation.matchingState ∈ deletionStates then
      .error (.automationLifecycleConflictError r.automation.matchingState)
    else if r.automation.buildState = .building then
      .error .automationBuildingError
    else
      -- checked only here: the claim fences the row until the finish
      match checkWalletUnchanged r.automation data with
      | .error e => .error e
      | .ok () => .ok (r.claim deadline, r.claimed deadline)

/-- The claim test shared by the release and the finish. -/
def BuildClaim.held (claim : BuildClaim) (a : Automation) : Prop :=
  a.buildState = .building ∧ a.buildLockDeadline = some claim.deadline

instance (claim : BuildClaim) (a : Automation) : Decidable (claim.held a) := by
  unfold BuildClaim.held
  infer_instance

/-- Undo a claim whose git commit failed: one guarded `UPDATE`, by id only. -/
def releaseBuildClaim (claim : BuildClaim) (r : Record) : Record :=
  if claim.held r.automation then
    { r with automation := { r.automation with
        buildState := claim.previousBuildState
        buildingSha := claim.previousBuildingSha
        buildLockDeadline := none } }
  else r

/-- The row and the revision of a finished edit. -/
def Record.edited (r : Record) (data : AutomationIn) (actor gitSha : String) (now : Timestamp) :
    Record where
  automation := { r.automation.define data with
    buildingSha := some gitSha
    updatedBy := actor
    updatedAt := now }
  revisions := r.revisions ++
    [{ automationId := r.automation.id
       action := .edit
       gitSha := some gitSha
       resultingDigest := none
       actor := actor
       createdAt := now }]

/-- Transaction 2 of an edit: write the definition only if the claim is still ours. -/
def finishUpdate (tenantId : String) (claim : BuildClaim) (data : AutomationIn)
    (actor gitSha : String) (now : Timestamp) (record : Option Record) : Except Error Record :=
  match scopedGet tenantId record with
  | .error e => .error e
  | .ok r =>
    if claim.held r.automation then .ok (r.edited data actor gitSha now)
    else .error .automationEditSupersededError

/-- A running `update_automation`, cut at its transactions and its git call. -/
inductive Edit where
  | idle
  | committing (claim : BuildClaim) (tenantId : String) (data : AutomationIn) (actor : String)
  | releasing (claim : BuildClaim)
  | finishing (claim : BuildClaim) (tenantId : String) (data : AutomationIn)
      (actor gitSha : String)
  | returned
  | raised (error : Error)
  | crashed

inductive EditOp where
  | claim (tenantId : String) (data : AutomationIn) (actor : String) (deadline : Timestamp)
      (fault : Option DbFault)
  | commit (gitSha : String)
  | commitFails
  | release (fault : Option DbFault)
  | finish (fault : Option DbFault)
  | crash

/-- The claim an edit still has to finish or release. -/
def Edit.claim? : Edit → Option BuildClaim
  | .committing claim _ _ _ | .releasing claim | .finishing claim _ _ _ _ => some claim
  | _ => none

/-- One step of `update_automation`. A faulty transaction has no effect; the
release swallows its own fault and the git error surfaces. -/
def Edit.step (cfg : Config) (now : Timestamp) (sh : Shared) : Edit → EditOp → Option (Shared × Edit)
  | .idle, .claim tenantId data actor deadline fault =>
    -- validated before any session is opened
    if cfg.validateAutomation data ≠ [] then
      some (sh, .raised (.automationValidationError (cfg.validateAutomation data)))
    else
      match fault with
      | some f => some (sh, .raised f.error)
      | none =>
        match claimBuild tenantId data deadline sh.record with
        | .error e => some (sh, .raised e)
        | .ok (claim, r) => some ({ sh with record := some r }, .committing claim tenantId data actor)
  | .committing claim tenantId data actor, .commit gitSha =>
    some ({ sh with world := sh.world.commitScript gitSha }, .finishing claim tenantId data actor gitSha)
  -- whatever git raised, the claim is released and the error surfaces
  | .committing claim _ _ _, .commitFails => some (sh, .releasing claim)
  | .releasing claim, .release fault =>
    match fault with
    | some _ => some (sh, .raised .scriptRepoUnavailableError)
    | none => some ({ sh with record := sh.record.map (releaseBuildClaim claim) },
        .raised .scriptRepoUnavailableError)
  | .finishing claim tenantId data actor gitSha, .finish fault =>
    match fault with
    | some f => some (sh, .raised f.error)
    | none =>
      -- a superseded edit leaves its commit in the repository
      match finishUpdate tenantId claim data actor gitSha now sh.record with
      | .error e => some (sh, .raised e)
      | .ok r => some ({ sh with record := some r }, .returned)
  -- a call that has not started or has ended cannot crash
  | .idle, .crash | .returned, .crash | .raised _, .crash | .crashed, .crash => none
  | _, .crash => some (sh, .crashed)
  | _, _ => none

theorem scopedGet_ok {tenantId : String} {record : Option Record} {r : Record}
    (h : scopedGet tenantId record = .ok r) :
    record = some r ∧ r.automation.tenantId = tenantId := by
  unfold scopedGet at h
  split at h
  · simp at h
  · split at h
    · next ht =>
      simp only [Except.ok.injEq] at h
      exact ⟨congrArg some h, h ▸ ht⟩
    · simp at h

/-- Everything an admitted claim has checked, and what it writes. -/
theorem claimBuild_ok {tenantId : String} {data : AutomationIn} {deadline : Timestamp}
    {record : Option Record} {claim : BuildClaim} {r' : Record}
    (h : claimBuild tenantId data deadline record = .ok (claim, r')) :
    ∃ r, record = some r ∧ r.automation.tenantId = tenantId ∧
      r.automation.matchingState ∉ deletionStates ∧ r.automation.buildState ≠ .building ∧
      (r.automation.cappDeploymentId = none ∨ data.nameSpace = r.automation.nameSpace) ∧
      claim = r.claim deadline ∧ r' = r.claimed deadline := by
  unfold claimBuild at h
  split at h
  · simp at h
  · next r hr =>
    obtain ⟨hrec, htenant⟩ := scopedGet_ok hr
    split at h
    · simp at h
    · next hstate =>
      split at h
      · simp at h
      · next hbuild =>
        unfold checkWalletUnchanged at h
        split at h
        · simp at h
        · next hw =>
          split at hw
          · next hwallet =>
            simp only [Except.ok.injEq, Prod.mk.injEq] at h
            exact ⟨r, hrec, htenant, hstate, hbuild, hwallet, h.1.symm, h.2.symm⟩
          · simp at hw

theorem finishUpdate_ok {tenantId : String} {claim : BuildClaim} {data : AutomationIn}
    {actor gitSha : String} {now : Timestamp} {record : Option Record} {r' : Record}
    (h : finishUpdate tenantId claim data actor gitSha now record = .ok r') :
    ∃ r, record = some r ∧ r.automation.tenantId = tenantId ∧ claim.held r.automation ∧
      r' = r.edited data actor gitSha now := by
  unfold finishUpdate at h
  split at h
  · simp at h
  · next r hr =>
    obtain ⟨hrec, htenant⟩ := scopedGet_ok hr
    split at h
    · next hheld =>
      simp only [Except.ok.injEq] at h
      exact ⟨r, hrec, htenant, hheld, h.symm⟩
    · simp at h

theorem releaseBuildClaim_held {claim : BuildClaim} {r : Record} (h : claim.held r.automation) :
    releaseBuildClaim claim r = { r with automation := { r.automation with
        buildState := claim.previousBuildState
        buildingSha := claim.previousBuildingSha
        buildLockDeadline := none } } := by
  unfold releaseBuildClaim
  rw [if_pos h]

/-- Held or not, a release touches the build columns only. -/
theorem releaseBuildClaim_frame (claim : BuildClaim) (r : Record) :
    ∃ build sha lock, releaseBuildClaim claim r = { r with automation := { r.automation with
      buildState := build
      buildingSha := sha
      buildLockDeadline := lock } } := by
  unfold releaseBuildClaim
  split
  · exact ⟨_, _, _, rfl⟩
  · exact ⟨r.automation.buildState, r.automation.buildingSha, r.automation.buildLockDeadline, rfl⟩

end KeepAutomation
