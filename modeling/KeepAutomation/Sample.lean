import KeepAutomation.Moves

/-! A sample deployment and the rule that turns an executed list of actions into
a run, for the concrete runs that follow some of the theorems. -/
namespace KeepAutomation

open TransitionSystem

def sampleId : UUID := ⟨1⟩

def sampleConfig : Config where
  automationId := sampleId
  automationImageRepository := "registry/auto/"
  validateAutomation := fun _ => []

def sampleWorld : World where
  capps := []
  secrets := [("payments", "team-secret")]
  images := [(sampleId, "v1"), (⟨2⟩, "v1")]
  commits := []
  archives := []

/-- A condition of a trigger, exact equality of one alert field. -/
def condition (field value : String) : Json := .obj [("field", .str field), ("value", .str value)]

def samplePayload : AutomationIn where
  name := "restart"
  nameSpace := "payments"
  script := "def handle(event): ..."
  triggers := [condition "severity" "critical", condition "environment" "production"]
  secretName := some "team-secret"
  cooldownSeconds := none
  cooldownFields := none
  timeoutSeconds := none
  graceSeconds := some 120
  logstashUrl := none

/-- A commit sha, a repeated hex digit. -/
def sampleSha (c : Char) : String := String.ofList (List.replicate 40 c)

/-- An image in the sample automation's own repository. -/
def sampleImage (c : Char) : String :=
  "registry/auto/" ++ sampleId.str ++ "@sha256:" ++ String.ofList (List.replicate 64 c)

def sampleDeployment : CappDeployment where
  deploymentId := pinnedName sampleId
  deploymentUrl := "https://payments.capp"

def successEvent (sha image : String) (hsha : isGitObjectId sha = true)
    (himage : isDigestRef image = true) : CiWebhookIn where
  automationId := sampleId
  commitSha := sha
  status := .success
  image := some image
  contractVersion := some "1"
  commitSha_isGitObjectId := hsha
  image_isDigestPinned := fun _ => himage
  contractVersion_onSuccess := fun _ => by decide

def failedEvent (sha : String) (hsha : isGitObjectId sha = true) : CiWebhookIn where
  automationId := sampleId
  commitSha := sha
  status := .failed
  image := none
  contractVersion := none
  commitSha_isGitObjectId := hsha
  image_isDigestPinned := fun h => by simp at h
  contractVersion_onSuccess := fun h => by simp at h

def firstSha : String := sampleSha 'a'

def firstSuccess : CiWebhookIn :=
  successEvent firstSha (sampleImage 'a') (by decide +kernel) (by decide +kernel)

def firstFailure : CiWebhookIn := failedEvent firstSha (by decide +kernel)

/-- Number the operations `n+1`, `n+2`, … as their times. -/
def timedFrom (n : ℕ) (ops : List Op) : List Action := ops.mapIdx fun i op => ⟨n+i+1, op⟩

def timed (ops : List Op) : List Action := timedFrom 0 ops

/-- Execute operations from before the creation in the sample world. -/
def runSample (ops : List Op) : Option State :=
  exec (step sampleConfig) (initial sampleWorld) (timed ops)

def sampleTrace (ops : List Op) : Trace State Action :=
  execTrace (step sampleConfig) (initial sampleWorld) (timed ops)

/-- An executed list of operations is a run under every assumption its steps
pass. -/
theorem run_of_runSample {E : State → Action → Prop} [∀ s a, Decidable (E s a)] (ops : List Op)
    (P : State → Prop) [DecidablePred P]
    (hmeets : execMeets (step sampleConfig) (fun s a => decide (E s a)) (initial sampleWorld)
      (timed ops) = true) (hp : (runSample ops).any (fun s => decide (P s)) = true) :
    ∃ s, SystemRun sampleConfig E (initial sampleWorld) (sampleTrace ops) s ∧ P s := by
  cases hs : runSample ops with
  | none => simp [hs] at hp
  | some s =>
    refine ⟨s, Run.ofExec _ (fun _ _ => of_decide_eq_true) (timed ops) hmeets hs, ?_⟩
    simpa only [hs, Option.any_some, decide_eq_true_eq] using hp

/-- The same for a run that goes on under another assumption. -/
theorem runs_of_runSample (E₁ E₂ : State → Action → Prop) [∀ s a, Decidable (E₁ s a)]
    [∀ s a, Decidable (E₂ s a)] (ops₁ ops₂ : List Op)
    (P : State → Trace State Action → State → Prop) [∀ s₁ tr s, Decidable (P s₁ tr s)]
    (hmeets : execMeets (step sampleConfig) (fun s a => decide (E₁ s a)) (initial sampleWorld)
      (timed ops₁) = true)
    (hp : (runSample ops₁).any (fun s₁ =>
      let rest := timedFrom ops₁.length ops₂
      execMeets (step sampleConfig) (fun s a => decide (E₂ s a)) s₁ rest &&
        (exec (step sampleConfig) s₁ rest).any fun s =>
          decide (P s₁ (execTrace (step sampleConfig) s₁ rest) s)) = true) :
    ∃ s₁ tr s, SystemRun sampleConfig E₁ (initial sampleWorld) (sampleTrace ops₁) s₁ ∧
      SystemRun sampleConfig E₂ s₁ tr s ∧ P s₁ tr s := by
  cases hs₁ : runSample ops₁ with
  | none => simp [hs₁] at hp
  | some s₁ =>
    simp only [hs₁, Option.any_some, Bool.and_eq_true] at hp
    obtain ⟨hmeets₂, hp⟩ := hp
    cases hs : exec (step sampleConfig) s₁ (timedFrom ops₁.length ops₂) with
    | none => simp [hs] at hp
    | some s =>
      have hrun₁ := Run.ofExec _ (fun _ _ => of_decide_eq_true) (timed ops₁) hmeets hs₁
      have hrun₂ := Run.ofExec _ (fun _ _ => of_decide_eq_true) _ hmeets₂ hs
      refine ⟨s₁, _, s, hrun₁, hrun₂, ?_⟩
      simpa only [hs, Option.any_some, decide_eq_true_eq] using hp

/-- The number of the delivery or of the edit an operation moves. -/
def Op.party? : Op → Option ℕ
  | .deliver p _ => some p
  | .edit p _ => some p
  | _ => none

/-- A call that was never moved is still idle. -/
theorem idle_of_unmoved {cfg : Config} {E : State → Action → Prop} {world : World}
    {tr : Trace State Action} {s : State} (h : SystemRun cfg E (initial world) tr s) (p : ℕ)
    (hp : ∀ t ∈ tr, t.act.op.party? ≠ some p) : s.deliveries p = .idle ∧ s.edits p = .idle := by
  induction h with
  | nil => exact ⟨rfl, rfl⟩
  | snoc hr _ hstep ih =>
    obtain ⟨hdelivery, hedit⟩ := ih fun t ht => hp t (List.mem_cons_of_mem _ ht)
    have hnot := hp _ (List.mem_cons_self ..)
    have hm := (step_move hstep).2.2
    constructor
    · rcases hm.delivery p with ⟨-, hsame⟩ | ⟨o, ho, -⟩
      · rw [hsame, hdelivery]
      · simp [ho, Op.party?] at hnot
    · rcases hm.editor p with ⟨-, hsame⟩ | ⟨o, ho, -⟩
      · rw [hsame, hedit]
      · simp [ho, Op.party?] at hnot

/-- What holds of the first `n` calls and of idle ones holds of all calls, when
no other call was moved. -/
theorem forall_calls {cfg : Config} {E : State → Action → Prop} {world : World}
    {tr : Trace State Action} {s : State} {P : Delivery → Edit → Prop}
    (h : SystemRun cfg E (initial world) tr s) (n : ℕ)
    (hmoved : ∀ t ∈ tr, ∀ q ∈ t.act.op.party?, q < n) (hidle : P .idle .idle)
    (hsmall : ∀ p < n, P (s.deliveries p) (s.edits p)) (p : ℕ) : P (s.deliveries p) (s.edits p) := by
  by_cases hp : p < n
  · exact hsmall p hp
  · obtain ⟨hdelivery, hedit⟩ := idle_of_unmoved h p fun t ht hq => hp (hmoved t ht p hq)
    rw [hdelivery, hedit]
    exact hidle

/-- Create, fail the build, delete, and one cascade runner to the end. -/
def deletionOps : List Op :=
  [.create "t1" samplePayload "author" firstSha 99,
   .deliver 0 (.receive firstFailure false), .deliver 0 (.recordFailure none),
   .beginDelete "t1" "deleter",
   .run 0 (.snapshot false), .run 0 (.call .ok), .run 0 (.call .ok), .run 0 (.save .ok),
   .run 0 (.snapshot false), .run 0 (.call .ok), .run 0 (.call .ok), .run 0 (.call .ok),
   .run 0 (.save .ok), .run 0 (.snapshot false), .run 0 (.call .ok), .run 0 (.save .ok),
   .run 0 (.snapshot false), .run 0 (.save .ok), .run 0 (.snapshot false)]

example : ((runSample deletionOps).bind fun s => s.record).map
    (fun r => (r.automation.matchingState, r.automation.deleteCascadeStep)) =
    some (.deleted, some 5) := by decide +kernel

/-- Create, then one success delivered and a failure of the same commit after it. -/
def buildOps : List Op :=
  [.create "t1" samplePayload "author" firstSha 99,
   .deliver 0 (.receive firstSuccess false), .deliver 0 (.cappAccepts sampleDeployment),
   .deliver 0 (.recheck none), .deliver 1 (.receive firstFailure false)]

def secondSha : String := sampleSha 'b'

def secondSuccess : CiWebhookIn :=
  successEvent secondSha (sampleImage 'b') (by decide +kernel) (by decide +kernel)

/-- Two deliveries of the first success, the second one slow: it lands in CAPP
after the next edit's image and before the next edit's cutover. -/
def driftOps : List Op :=
  [.create "t1" samplePayload "author" firstSha 99,
   .deliver 0 (.receive firstSuccess false), .deliver 1 (.receive firstSuccess false),
   .deliver 0 (.cappAccepts sampleDeployment), .deliver 0 (.recheck none),
   .edit 0 (.claim "t1" samplePayload "author" 199 none), .edit 0 (.commit secondSha),
   .edit 0 (.finish none),
   .deliver 2 (.receive secondSuccess false), .deliver 2 (.cappAccepts sampleDeployment),
   .deliver 1 (.cappAccepts sampleDeployment), .deliver 1 (.recheck none),
   .deliver 2 (.recheck none)]

/-- Create, then a failure and a success of the first commit, both let in. -/
def racePrefix : List Op :=
  [.create "t1" samplePayload "author" firstSha 99,
   .deliver 1 (.receive firstFailure false), .deliver 0 (.receive firstSuccess false)]

/-- The failure is recorded during the CAPP call, and an edit that fails in git
has its claim on the row when the success is re-checked. -/
def strandedOps : List Op :=
  [.deliver 0 (.cappAccepts sampleDeployment), .deliver 1 (.recordFailure none),
   .edit 0 (.claim "t1" samplePayload "author" 199 none), .deliver 0 (.recheck none),
   .edit 0 .commitFails, .edit 0 (.release none)]

/-- The same race without the edit. -/
def recoveredOps : List Op :=
  [.deliver 0 (.cappAccepts sampleDeployment), .deliver 1 (.recordFailure none),
   .deliver 0 (.recheck none)]

/-- A success is inside its CAPP call while the automation is deleted; its create
lands after the cascade is through, and the delivery undoes it. -/
def lateOps : List Op :=
  racePrefix ++
  [.deliver 1 (.recordFailure none), .beginDelete "t1" "deleter",
   .run 0 (.snapshot false), .run 0 (.call .ok), .run 0 (.call .ok), .run 0 (.save .ok),
   .run 0 (.snapshot false), .run 0 (.call .ok), .run 0 (.call .ok), .run 0 (.call .ok),
   .run 0 (.save .ok), .run 0 (.snapshot false), .run 0 (.call .ok), .run 0 (.save .ok),
   .run 0 (.snapshot false), .run 0 (.save .ok), .run 0 (.snapshot false),
   .deliver 0 (.cappAccepts sampleDeployment), .deliver 0 (.recheck none),
   .deliver 0 (.tearDown .ok), .deliver 0 (.tearDown .ok)]

end KeepAutomation
