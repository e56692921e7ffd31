import KeepAutomation.Lifecycle

/-! The delete cascade: the compare-and-set checkpoint and the runner, cut at
its snapshots, external calls and checkpoint writes. -/
namespace KeepAutomation

def maxIterations : ℕ := 4*stepDeleted

/-- Progress after one cascade attempt, with a sanitized error code. -/
structure CascadeResult where
  matchingState : MatchingState
  deleteCascadeStep : Option ℕ
  indexGeneration : ℕ
  error : Option String
  deriving DecidableEq, Repr

def CascadeResult.completed (c : CascadeResult) : Bool := c.matchingState = .deleted

def cascadeResult (a : Automation) (error : Option String) : CascadeResult where
  matchingState := a.matchingState
  deleteCascadeStep := a.deleteCascadeStep
  indexGeneration := a.indexGeneration
  error := error

/-- The `WHERE` clause of a checkpoint: the row is deleting and stands at the
step before; step 0 is stored as null. -/
def checkpointMatches (completed : ℕ) (a : Automation) : Prop :=
  a.matchingState = .deleting ∧
    a.deleteCascadeStep = if completed-1 = 0 then none else some (completed-1)

instance (completed : ℕ) (a : Automation) : Decidable (checkpointMatches completed a) := by
  unfold checkpointMatches
  infer_instance

/-- Compare-and-set `deleteCascadeStep` from `completed - 1` to `completed`. The
last one also writes the matching state; the run-auth key column of step 2 is
not in the table. -/
def checkpoint (completed : ℕ) (now : Timestamp) (r : Record) : Record :=
  if checkpointMatches completed r.automation then
    { r with automation := { r.automation with
        deleteCascadeStep := some completed
        matchingState := if completed = stepDeleted then .deleted else r.automation.matchingState
        updatedAt := now } }
  else r

/-- A running `run_cascade`: every phase but the re-read holds the snapshot the
pass started from and the number of passes done. -/
inductive Runner where
  | idle
  | deletingCapp (a : Automation) (n : ℕ)
  | deletingSecret (a : Automation) (n : ℕ)
  | listing (a : Automation) (n : ℕ)
  | deletingImages (a : Automation) (n : ℕ) (entry : String) (entries : List String)
  | relisting (a : Automation) (n : ℕ)
  | archiving (a : Automation) (n : ℕ)
  | saving (a : Automation) (n completed : ℕ)
  | rereading (n : ℕ)
  | returned (result : CascadeResult)
  | raised (error : Error)
  | crashed

inductive RunnerOp where
  | snapshot (readFails : Bool)
  | call (outcome : CallOutcome)
  | save (outcome : CallOutcome)
  | crash

def nextStep (a : Automation) : ℕ := a.deleteCascadeStep.getD 0+1

/-- The head of the loop on a fresh snapshot, with the `_STEPS` lookup. -/
def dispatch (a : Automation) (n : ℕ) : Runner :=
  if n = maxIterations then .returned (cascadeResult a (some "cascade_no_progress"))
  else if a.matchingState = .deleted then .returned (cascadeResult a none)
  else if a.matchingState ≠ .deleting then
    .raised (.automationLifecycleConflictError a.matchingState)
  else
    match nextStep a with
    -- a deleting row without a checkpoint: the state and the revision are there
    | 1 => .saving a n stepMarkedDeleting
    | 2 => .deletingCapp a n
    | 3 => .listing a n
    | 4 => .archiving a n
    | 5 => .saving a n stepDeleted
    -- the lookup in `_STEPS` fails
    | _ => .raised .keyError

/-- `_snapshot`: an unscoped read by id. -/
def snapshot (record : Option Record) (n : ℕ) : Runner :=
  match record with
  | none => .raised .automationNotFoundError
  | some r => dispatch r.automation n

/-- The deletes of one listing, in its order, then the second listing. -/
def deletingAll (a : Automation) (n : ℕ) : List String → Runner
  | [] => .relisting a n
  | entry :: entries => .deletingImages a n entry entries

/-- A failed operation stops the attempt at the snapshot of this pass. -/
def stopped (a : Automation) (code : String) : Runner :=
  .returned (cascadeResult a (some code))

/-- The external call a runner stands at: its effect, the continuation after a
clean answer, and its error code. The listings read the inventory as it is. -/
def Runner.call (w : World) : Runner → Option (World × Runner × Runner)
  -- both deletions even without a deployment id: a first deploy can leave its
  -- Secret and fail before the id is stored
  | .deletingCapp a n =>
    some (w.deleteCapp a.nameSpace (cappNameFor a.id a.cappDeploymentId), .deletingSecret a n,
      stopped a "capp_delete_failed")
  | .deletingSecret a n =>
    some (w.deleteSecret a.nameSpace (runAuthSecretName a.id), .saving a n stepCappResourcesDeleted,
      stopped a "run_auth_secret_delete_failed")
  | .listing a n =>
    some (w, deletingAll a n (w.listImageEntries a.id), stopped a "registry_list_failed")
  | .deletingImages a n entry entries =>
    some (w.deleteImage a.id entry, deletingAll a n entries, stopped a "registry_delete_failed")
  | .relisting a n =>
    some (w,
      -- an image pushed meanwhile must not be left behind a finished step
      if w.listImageEntries a.id = [] then .saving a n stepImagesDeleted
      else stopped a "registry_inventory_not_empty",
      stopped a "registry_list_failed")
  | .archiving a n =>
    -- `updated_by` is the deleting actor
    some (w.archive a.id a.updatedBy, .saving a n stepScriptArchived, stopped a "git_archive_failed")
  | _ => none

/-- One step of `run_cascade`. The return value of the checkpoint is dropped: a
lost compare-and-set is noticed only by the re-read. -/
def Runner.step (now : Timestamp) (sh : Shared) : Runner → RunnerOp → Option (Shared × Runner)
  | .idle, .snapshot readFails =>
    some (sh, if readFails then .raised .sqlAlchemyError else snapshot sh.record 0)
  | .rereading n, .snapshot readFails =>
    some (sh, if readFails then .raised .sqlAlchemyError else snapshot sh.record n)
  | .saving a n completed, .save outcome =>
    let record := if outcome.effective then sh.record.map (checkpoint completed now) else sh.record
    some ({ sh with record := record },
      if outcome = .ok then .rereading (n+1) else stopped a "checkpoint_failed")
  | .idle, .crash | .returned _, .crash | .raised _, .crash | .crashed, .crash => none
  | _, .crash => some (sh, .crashed)
  | pc, .call outcome =>
    (pc.call sh.world).map fun (world, next, stop) =>
      ({ sh with world := if outcome.effective then world else sh.world },
        if outcome = .ok then next else stop)
  | _, _ => none

end KeepAutomation
