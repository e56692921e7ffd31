import KeepAutomation.Schema

/-! The external systems: CAPP, the registry and the script repository. Every
deletion is delete-if-exists and the archive is idempotent. -/
namespace KeepAutomation

/-- A deployment in CAPP, serving one image from one wallet and mounting Secrets
of that wallet. -/
structure Capp where
  wallet : String
  name : String
  image : String
  secretRefs : List String
  deriving DecidableEq, Repr

/-- What `create_deployment` returns. -/
structure CappDeployment where
  deploymentId : String
  deploymentUrl : String
  deriving DecidableEq, Repr

/-- `capps` and `secrets` are read as sets. `images` is the registry's inventory
of every automation; `commits` the shas the script repository has returned;
`archives` its archive commits, oldest first, each with the actor it names. -/
structure World where
  capps : List Capp
  secrets : List (String × String)
  images : List (UUID × String)
  commits : List String
  archives : List (UUID × String)
  deriving DecidableEq, Repr

/-- The pinned name of an automation's deployment. -/
def pinnedName (automationId : UUID) : String := "automation-" ++ automationId.str

/-- Stored resource name, or the name used by an unfinished first deploy; an
empty string is falsy. -/
def cappNameFor (automationId : UUID) (cappDeploymentId : Option String) : String :=
  match cappDeploymentId with
  | none => pinnedName automationId
  | some n => if n = "" then pinnedName automationId else n

/-- Exact reserved name of the Keep-owned Secret. -/
def runAuthSecretName (automationId : UUID) : String := "automation-" ++ automationId.str ++ "-run-auth"

theorem pinnedName_injective : Function.Injective pinnedName := by
  intro u v h
  exact UUID.str_injective ((String.append_right_inj _).mp h)

theorem runAuthSecretName_injective : Function.Injective runAuthSecretName := by
  intro u v h
  exact pinnedName_injective ((String.append_left_inj _).mp h)

namespace World

/-- The image CAPP serves under a deployment name. -/
def served (w : World) (name : String) : Option String :=
  (w.capps.find? fun c => c.name = name).map Capp.image

def hasCapp (w : World) (wallet name : String) : Prop :=
  ∃ c ∈ w.capps, c.wallet = wallet ∧ c.name = name

def hasSecret (w : World) (wallet name : String) : Prop := (wallet, name) ∈ w.secrets

/-- `create_deployment`: create or find, keyed by the automation; a deployment
found in another wallet is torn down. It also leaves the run-auth Secret. -/
def createDeployment (w : World) (automationId : UUID) (wallet image : String)
    (secretRefs : List String) : World :=
  { w with
    capps := ⟨wallet, pinnedName automationId, image, secretRefs⟩ ::
      w.capps.filter fun c => c.name ≠ pinnedName automationId
    secrets := (wallet, runAuthSecretName automationId) :: w.secrets }

/-- `rollout`: move an existing deployment to the new image and the Secrets that
the row names now, wallet unchanged. -/
def rollout (w : World) (deploymentId image : String) (secretRefs : List String) : World :=
  { w with capps := w.capps.map fun c =>
      if c.name = deploymentId then { c with image := image, secretRefs := secretRefs } else c }

def deleteCapp (w : World) (wallet name : String) : World :=
  { w with capps := w.capps.filter fun c => ¬(c.wallet = wallet ∧ c.name = name) }

def deleteSecret (w : World) (wallet name : String) : World :=
  { w with secrets := w.secrets.filter fun s => s ≠ (wallet, name) }

def listImageEntries (w : World) (automationId : UUID) : List String :=
  (w.images.filter fun i => i.1 = automationId).map Prod.snd

def deleteImage (w : World) (automationId : UUID) (entry : String) : World :=
  { w with images := w.images.filter fun i => i ≠ (automationId, entry) }

def archived (w : World) (automationId : UUID) : Prop := ∃ c ∈ w.archives, c.1 = automationId

instance (w : World) (automationId : UUID) : Decidable (w.archived automationId) := by
  unfold archived
  infer_instance

/-- `archive`: one marker commit per automation, none if the marker exists. -/
def archive (w : World) (automationId : UUID) (actor : String) : World :=
  if w.archived automationId then w
  else { w with archives := w.archives ++ [(automationId, actor)] }

def commitScript (w : World) (sha : String) : World := { w with commits := w.commits ++ [sha] }

end World

/-- What the calls about one automation share: its row and revisions, and the
outside world. -/
structure Shared where
  record : Option Record
  world : World

/-- How an external call or a checkpoint write ends: it takes effect and
answers, raises without effect, or takes effect and raises. -/
inductive CallOutcome where
  | ok | failed | lost
  deriving DecidableEq, Repr

/-- Whether the call took effect. -/
def CallOutcome.effective : CallOutcome → Bool
  | .failed => false
  | _ => true

/-- Deployment settings and the authoring rules. -/
structure Config where
  automationId : UUID
  automationImageRepository : String
  validateAutomation : AutomationIn → List FieldError

end KeepAutomation
