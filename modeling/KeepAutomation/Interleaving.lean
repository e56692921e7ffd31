import KeepAutomation.Builds
import KeepAutomation.Cascade
import KeepAutomation.TransitionSystem

/-! The system of one automation: its row, the outside world and any number of
running calls. Each DB transaction, each external call and each crash is one
atomic step, and later steps happen at later times. -/
namespace KeepAutomation

open TransitionSystem

structure State extends Shared where
  edits : ℕ → Edit
  deliveries : ℕ → Delivery
  runners : ℕ → Runner
  clock : Timestamp

/-- What can happen to one automation. `push` is anything CI does to the
registry; a request that raises in its only transaction changes nothing. -/
inductive Op where
  | create (tenantId : String) (data : AutomationIn) (actor gitSha : String) (deadline : Timestamp)
  | enable (tenantId actor : String)
  | disable (tenantId actor : String)
  | beginDelete (tenantId actor : String)
  | edit (p : ℕ) (op : EditOp)
  | deliver (p : ℕ) (op : DeliveryOp)
  | run (p : ℕ) (op : RunnerOp)
  | push (images : List (UUID × String))

structure Action where
  now : Timestamp
  op : Op

/-- The row after a request: what it committed, or the old one if it raised. -/
def committed (result : Except Error Record) (record : Option Record) : Option Record :=
  match result with
  | .ok r => some r
  | .error _ => record

def State.setShared (s : State) (sh : Shared) : State := { s with toShared := sh }

def apply (cfg : Config) (s : State) (now : Timestamp) : Op → Option State
  | .create tenantId data actor gitSha deadline =>
    if s.record.isNone ∧ cfg.validateAutomation data = [] then
      some { s with
        record := some (createAutomation tenantId cfg.automationId data actor gitSha deadline now)
        world := s.world.commitScript gitSha }
    else none
  | .enable tenantId actor =>
    some { s with record := committed (enableAutomation tenantId actor now s.record) s.record }
  | .disable tenantId actor =>
    some { s with record := committed (disableAutomation tenantId actor now s.record) s.record }
  | .beginDelete tenantId actor =>
    let result := (beginDelete tenantId actor now s.record).map DeleteAdmission.record
    some { s with record := committed result s.record }
  | .edit p op =>
    ((s.edits p).step cfg now s.toShared op).map fun (sh, e) =>
      { s.setShared sh with edits := Function.update s.edits p e }
  | .deliver p op =>
    ((s.deliveries p).step cfg now s.toShared op).map fun (sh, d) =>
      { s.setShared sh with deliveries := Function.update s.deliveries p d }
  | .run p op =>
    ((s.runners p).step now s.toShared op).map fun (sh, c) =>
      { s.setShared sh with runners := Function.update s.runners p c }
  | .push images => some { s with world := { s.world with images := images } }

/-- One step of the system: time moves forward, then the operation happens. -/
def step (cfg : Config) (s : State) (a : Action) : Option State :=
  if s.clock < a.now then (apply cfg s a.now a.op).map fun s' => { s' with clock := a.now } else none

/-- Before the automation is created: no row, no running call, any world. -/
def initial (world : World) : State where
  record := none
  world := world
  edits := fun _ => .idle
  deliveries := fun _ => .idle
  runners := fun _ => .idle
  clock := 0

abbrev SystemRun (cfg : Config) (E : State → Action → Prop) (s₀ : State) (tr : Trace State Action)
    (s : State) : Prop := Run (step cfg) E s₀ tr s

/-- Runs from before the creation. -/
def Reached (cfg : Config) (E : State → Action → Prop) (tr : Trace State Action) (s : State) : Prop :=
  ∃ world, SystemRun cfg E (initial world) tr s

theorem Reached.mono {cfg : Config} {E E' : State → Action → Prop} {tr : Trace State Action}
    {s : State} (hE : ∀ s a, E s a → E' s a) (h : Reached cfg E tr s) : Reached cfg E' tr s := by
  obtain ⟨world, hrun⟩ := h
  exact ⟨world, hrun.mono hE⟩

/-- No assumption on the environment. -/
def anything (_ : State) (_ : Action) : Prop := True

instance (s : State) (a : Action) : Decidable (anything s a) := inferInstanceAs (Decidable True)

/-- The commit sha git returns in this operation. -/
def Op.gitSha? : Op → Option String
  | .create _ _ _ gitSha _ => some gitSha
  | .edit _ (.commit gitSha) => some gitSha
  | _ => none

/-- Git returns a commit sha it has never returned before. -/
def freshShas (s : State) (a : Action) : Prop :=
  ∀ gitSha ∈ a.op.gitSha?, gitSha ∉ s.world.commits

instance (s : State) (a : Action) : Decidable (freshShas s a) :=
  inferInstanceAs (Decidable (∀ gitSha ∈ a.op.gitSha?, gitSha ∉ s.world.commits))

/-- The operation is hit by a DB fault. -/
def Op.faulty : Op → Bool
  | .edit _ (.claim _ _ _ _ fault) => fault.isSome
  | .edit _ (.release fault) => fault.isSome
  | .edit _ (.finish fault) => fault.isSome
  | .deliver _ (.receive _ readFails) => readFails
  | .deliver _ (.recordFailure fault) => fault.isSome
  | .deliver _ (.recheck fault) => fault.isSome
  | .run _ (.snapshot readFails) => readFails
  | .run _ (.save outcome) => outcome ≠ .ok
  | _ => false

def Op.crashesDelivery : Op → Bool
  | .deliver _ .crash => true
  | _ => false

/-- A DELETE or a step of its cascade. -/
def Op.deletes : Op → Bool
  | .beginDelete _ _ | .run _ _ => true
  | _ => false

end KeepAutomation
