import KeepAutomation.Deletion
import KeepAutomation.Sample

/-! A run of an automation and its terminal write. Any number of workers submit
it, complete it and finalize it, next to everything that happens to its
automation. -/
namespace KeepAutomation

open TransitionSystem

inductive RunState where
  | pending | submitted | succeeded | failed | stalled | suppressed
  deriving DecidableEq, Repr

/-- `OPEN_RUN_STATES`. -/
def openRunStates : List RunState := [.pending, .submitted]

inductive SuppressionReason where
  | duplicate | cooldown | inactive
  deriving DecidableEq, Repr

inductive FailureClass where
  | transient | permanent | deadline | unclassified | infra | terminatedByDeletion
  deriving DecidableEq, Repr

/-- One row of `automation_runs`. -/
structure AutomationRun where
  runId : UUID
  automationId : UUID
  tenantId : String
  historyId : String
  fingerprint : String
  payload : Json
  state : RunState
  suppressionReason : Option SuppressionReason
  gateFlags : Option Json
  automationDigest : Option String
  matchedM : ℤ
  attempts : Option ℤ
  outcomeStatus : Option String
  failureClass : Option FailureClass
  result : Option Json
  createdAt : Timestamp
  submittedAt : Option Timestamp
  finishedAt : Option Timestamp

/-- The `values` of a terminal write; `none` leaves a column as it is and
`some none` sets it to null. -/
structure RunValues where
  state : RunState
  suppressionReason : Option (Option SuppressionReason)
  failureClass : Option (Option FailureClass)
  automationDigest : Option (Option String)
  attempts : Option (Option ℤ)
  outcomeStatus : Option (Option String)
  result : Option (Option Json)

def AutomationRun.complete (run : AutomationRun) (values : RunValues) (now : Timestamp) :
    AutomationRun :=
  { run with
    state := values.state
    suppressionReason := values.suppressionReason.getD run.suppressionReason
    failureClass := values.failureClass.getD run.failureClass
    automationDigest := values.automationDigest.getD run.automationDigest
    attempts := values.attempts.getD run.attempts
    outcomeStatus := values.outcomeStatus.getD run.outcomeStatus
    result := values.result.getD run.result
    finishedAt := some now }

/-- The compare-and-set of a terminal write, and whether it changed the row. -/
def completeRunIfOpen (expectedState : Option RunState) (values : RunValues) (now : Timestamp)
    (run : Option AutomationRun) : Bool × Option AutomationRun :=
  match run with
  | none => (false, none)
  | some r =>
    if r.state ∈ openRunStates ∧ ∀ expected ∈ expectedState, r.state = expected then
      (true, some (r.complete values now))
    else (false, some r)

/-- What `finalize_terminated_by_deletion` raises. -/
inductive FinalizationError where
  | runNotFoundError
  | raised (error : Error)
  deriving DecidableEq, Repr

/-- `_matching_state`: an unscoped read of the automation. -/
def matchingState (record : Option Record) : Except Error MatchingState :=
  match record with
  | none => .error .automationNotFoundError
  | some r => .ok r.automation.matchingState

/-- The values written over an open run of an automation in deletion: a call that
was submitted is killed by it, one that was not is skipped. -/
def deletionValues (expectedState : RunState) : RunValues where
  state := if expectedState = .submitted then .failed else .suppressed
  suppressionReason := if expectedState = .submitted then none else some (some .inactive)
  failureClass := if expectedState = .submitted then some (some .terminatedByDeletion) else none
  automationDigest := none
  attempts := none
  outcomeStatus := none
  result := none

def finalizationAttempts : ℕ := 2

/-- A running `finalize_terminated_by_deletion`, cut at its transactions; the
number counts the attempts made. -/
inductive Finalization where
  | idle
  | matching (run : AutomationRun)
  | completing (expectedState : RunState) (n : ℕ)
  | rereading (n : ℕ)
  | reloading
  | returned (run : AutomationRun)
  | raised (error : FinalizationError)
  | crashed

def Finalization.ended : Finalization → Bool
  | .returned _ | .raised _ | .crashed => true
  | _ => false

inductive FinalizationOp where
  | read (fails : Bool)
  | write (outcome : CallOutcome)
  | crash
  deriving DecidableEq

/-- `_load_run` and what follows it. -/
def loadRun (run : Option AutomationRun) (next : AutomationRun → Finalization) : Finalization :=
  match run with
  | none => .raised .runNotFoundError
  | some r => next r

/-- The read of the automation's state, in a transaction of its own. -/
def attributed (record : Option Record) (run : AutomationRun) : Finalization :=
  match matchingState record with
  | .error e => .raised (.raised e)
  | .ok state =>
    if state ∈ deletionStates then .completing run.state 0
    else .raised (.raised (.automationLifecycleConflictError state))

/-- The re-read after a lost attempt and the head of the loop. -/
def retry (n : ℕ) (run : AutomationRun) : Finalization :=
  if run.state ∉ openRunStates then .returned run
  else if n < finalizationAttempts then .completing run.state n
  -- both attempts lost: the run is returned as the last load finds it
  else .reloading

/-- What a clean read leads to. -/
def Finalization.afterRead (record : Option Record) (run : Option AutomationRun) :
    Finalization → Option Finalization
  | .idle =>
    some (loadRun run fun r => if r.state ∈ openRunStates then .matching r else .returned r)
  | .matching r => some (attributed record r)
  | .rereading n => some (loadRun run (retry n))
  | .reloading => some (loadRun run .returned)
  | _ => none

def Finalization.step (now : Timestamp) (record : Option Record) (run : Option AutomationRun) :
    Finalization → FinalizationOp → Option (Option AutomationRun × Finalization)
  | f, .read fails =>
    (f.afterRead record run).map fun next =>
      (run, if fails then .raised (.raised .sqlAlchemyError) else next)
  | .completing expected n, .write outcome =>
    let (changed, written) := completeRunIfOpen (some expected) (deletionValues expected) now run
    some (if outcome.effective then written else run,
      if outcome ≠ .ok then .raised (.raised .sqlAlchemyError)
      -- a write that took effect and raises is not followed by a load
      else if changed then .reloading else .rereading (n+1))
  | .idle, .crash | .returned _, .crash | .raised _, .crash | .crashed, .crash => none
  | _, .crash => some (run, .crashed)
  | _, _ => none

/-- One run beside its automation and everything that calls it. -/
structure RunSystem where
  base : State
  run : Option AutomationRun
  finalizations : ℕ → Finalization

/-- `submit` is a worker that starts the call of a pending run; `complete` is a
`complete_run_if_open` of any caller. -/
inductive RunOp where
  | automation (op : Op)
  | submit (attempts : Option ℤ) (automationDigest : Option String)
  | complete (expectedState : Option RunState) (values : RunValues)
  | finalize (p : ℕ) (op : FinalizationOp)

structure RunAction where
  now : Timestamp
  op : RunOp

def AutomationRun.submit (run : AutomationRun) (attempts : Option ℤ) (automationDigest : Option String)
    (now : Timestamp) : AutomationRun :=
  if run.state = .pending then
    { run with
      state := .submitted
      attempts := attempts
      automationDigest := automationDigest
      submittedAt := some now }
  else run

def RunSystem.step (cfg : Config) (s : RunSystem) (a : RunAction) : Option RunSystem :=
  match a.op with
  | .automation op => (KeepAutomation.step cfg s.base ⟨a.now, op⟩).map fun base => { s with base := base }
  | .submit attempts automationDigest =>
    some { s with run := s.run.map fun r => r.submit attempts automationDigest a.now }
  | .complete expectedState values =>
    some { s with run := (completeRunIfOpen expectedState values a.now s.run).2 }
  | .finalize p op =>
    ((s.finalizations p).step a.now s.base.record s.run op).map fun (run, f) =>
      { s with run := run, finalizations := Function.update s.finalizations p f }

/-- Every completion carries a terminal state. -/
def completesTerminal (_ : RunSystem) (a : RunAction) : Prop :=
  ∀ expectedState values, a.op = .complete expectedState values → values.state ∉ openRunStates

def checkTerminal (_ : RunSystem) (a : RunAction) : Bool :=
  match a.op with
  | .complete _ values => values.state ∉ openRunStates
  | _ => true

theorem checkTerminal_sound (s : RunSystem) (a : RunAction) (h : checkTerminal s a = true) :
    completesTerminal s a := by
  obtain ⟨now, op⟩ := a
  intro expectedState values hop
  dsimp only at hop
  subst hop
  simpa [checkTerminal] using h

/-- How far a run has come: a pending run can be submitted, an open one closed. -/
def RunState.rank : RunState → ℕ
  | .pending => 0
  | .submitted => 1
  | _ => 2

theorem mem_openRunStates (state : RunState) : state ∈ openRunStates ↔ state.rank < 2 := by
  cases state <;> simp [openRunStates, RunState.rank]

theorem RunState.rank_le (state : RunState) : state.rank ≤ 2 := by
  cases state <;> simp [RunState.rank]

theorem RunState.eq_of_rank {a b : RunState} (ha : a ∈ openRunStates) (h : a.rank = b.rank) :
    a = b := by
  cases a <;> cases b <;> simp [openRunStates, RunState.rank] at *

/-- What the compare-and-set has checked when it wins. -/
theorem completeRunIfOpen_won {expectedState : Option RunState} {values : RunValues} {now : Timestamp}
    {run written : Option AutomationRun}
    (h : completeRunIfOpen expectedState values now run = (true, written)) :
    ∃ r, run = some r ∧ r.state ∈ openRunStates ∧
      (∀ expected ∈ expectedState, r.state = expected) ∧ written = some (r.complete values now) := by
  unfold completeRunIfOpen at h
  cases run with
  | none => simp at h
  | some r =>
    dsimp only at h
    split at h
    · next hmatch =>
      simp only [Prod.mk.injEq, true_and] at h
      exact ⟨r, rfl, hmatch.1, hmatch.2, h.symm⟩
    · simp at h

theorem completeRunIfOpen_lost {expectedState : Option RunState} {values : RunValues} {now : Timestamp}
    {run written : Option AutomationRun}
    (h : completeRunIfOpen expectedState values now run = (false, written)) :
    written = run ∧ ∀ r, run = some r → r.state ∈ openRunStates →
      ∃ expected ∈ expectedState, r.state ≠ expected := by
  unfold completeRunIfOpen at h
  cases run with
  | none =>
    simp only [Prod.mk.injEq, true_and] at h
    exact ⟨h.symm, by simp⟩
  | some r =>
    dsimp only at h
    split at h
    · simp at h
    · next hmatch =>
      simp only [Prod.mk.injEq, true_and] at h
      refine ⟨h.symm, ?_⟩
      intro r' hr' hopen
      obtain rfl := Option.some.inj hr'
      by_contra hall
      push Not at hall
      exact hmatch ⟨hopen, hall⟩

/-- The run only moves forward, and not at all once it is closed. -/
def RunAdvances (run run' : Option AutomationRun) : Prop :=
  ∀ r, run = some r → ∃ r', run' = some r' ∧ r.state.rank ≤ r'.state.rank ∧
    (r.state ∉ openRunStates → r' = r)

theorem RunAdvances.refl (run : Option AutomationRun) : RunAdvances run run :=
  fun r hr => ⟨r, hr, le_rfl, fun _ => rfl⟩

theorem completeRunIfOpen_advances (expectedState : Option RunState) {values : RunValues}
    (hvalues : values.state ∉ openRunStates) (now : Timestamp) (run : Option AutomationRun) :
    RunAdvances run (completeRunIfOpen expectedState values now run).2 := by
  cases hwrite : completeRunIfOpen expectedState values now run with
  | mk changed written =>
    cases changed with
    | false =>
      rw [(completeRunIfOpen_lost hwrite).1]
      exact .refl run
    | true =>
      obtain ⟨r, rfl, hopen, -, rfl⟩ := completeRunIfOpen_won hwrite
      intro r' hr'
      obtain rfl := Option.some.inj hr'
      refine ⟨_, rfl, ?_, fun hclosed => absurd hopen hclosed⟩
      have hlast : 2 ≤ values.state.rank := by
        rw [mem_openRunStates] at hvalues
        omega
      exact r.state.rank_le.trans hlast

theorem AutomationRun.submit_advances (attempts : Option ℤ) (automationDigest : Option String)
    (now : Timestamp) (run : Option AutomationRun) :
    RunAdvances run (run.map fun r => r.submit attempts automationDigest now) := by
  intro r hr
  subst hr
  refine ⟨_, rfl, ?_⟩
  dsimp only
  unfold AutomationRun.submit
  split
  · next hpending =>
    rw [hpending]
    exact ⟨Nat.zero_le _, fun hclosed => absurd (by decide) hclosed⟩
  · exact ⟨le_rfl, fun _ => rfl⟩

theorem deletionValues_closed (expectedState : RunState) :
    (deletionValues expectedState).state ∉ openRunStates := by
  unfold deletionValues
  dsimp only
  split
  · decide
  · decide

/-- No move of the row takes it out of its deletion. -/
theorem RowMove.stays_in_deletion {s : State} {now : Timestamp} {r r' : Record} {op : Op}
    (h : RowMove s now r op r') (hdel : r.automation.matchingState ∈ deletionStates) :
    r'.automation.matchingState ∈ deletionStates := by
  cases h with
  | enabled hlive => exact absurd hdel hlive
  | disabled hlive => exact absurd hdel hlive
  | deleteAdmitted hlive => exact absurd hdel hlive
  | @released p claim =>
    obtain ⟨_, _, _, he⟩ := releaseBuildClaim_frame claim r
    rw [he]
    exact hdel
  | @checkpointed p a n completed =>
    rcases (mem_deletionStates _).mp hdel with hdeleting | hdeleted
    · exact (mem_deletionStates _).mpr (checkpoint_state completed now r hdeleting)
    · rw [checkpoint_of_not_deleting (by simp [hdeleted])]
      exact hdel
  | _ => exact hdel

/-- The automation is deleting or deleted. -/
def State.inDeletion (s : State) : Prop :=
  ∃ r, s.record = some r ∧ r.automation.matchingState ∈ deletionStates

theorem State.inDeletion.step {cfg : Config} {s s' : State} {a : Action} (h : s.inDeletion)
    (hstep : KeepAutomation.step cfg s a = some s') : s'.inDeletion := by
  obtain ⟨r, hr, hdel⟩ := h
  obtain ⟨r', hr', hrow⟩ := (step_move hstep).2.2.row hr
  exact ⟨r', hr', hrow.stays_in_deletion hdel⟩

/-- The moves of a finalization. -/
inductive FinalizationMove (now : Timestamp) (record : Option Record) (run : Option AutomationRun) :
    Finalization → FinalizationOp → Option AutomationRun → Finalization → Prop
  | readFailed {f} (hleft : f.ended = false) : FinalizationMove now record run f (.read true) run
      (.raised (.raised .sqlAlchemyError))
  | read {f next} (hread : f.afterRead record run = some next) :
      FinalizationMove now record run f (.read false) run next
  | won {expectedState n} (outcome : CallOutcome) (r : AutomationRun) (hr : run = some r)
      (hopen : r.state ∈ openRunStates) (hstate : r.state = expectedState) :
      FinalizationMove now record run (.completing expectedState n) (.write outcome)
        (if outcome.effective then some (r.complete (deletionValues expectedState) now) else run)
        (if outcome ≠ .ok then .raised (.raised .sqlAlchemyError) else .reloading)
  | lost {expectedState n} (outcome : CallOutcome)
      (hlost : ∀ r, run = some r → r.state ∈ openRunStates → r.state ≠ expectedState) :
      FinalizationMove now record run (.completing expectedState n) (.write outcome) run
        (if outcome ≠ .ok then .raised (.raised .sqlAlchemyError) else .rereading (n+1))
  | crashed {f} (hleft : f.ended = false) : FinalizationMove now record run f .crash run .crashed

theorem Finalization.step_move {now : Timestamp} {record : Option Record}
    {run run' : Option AutomationRun} {f f' : Finalization} {op : FinalizationOp}
    (h : f.step now record run op = some (run', f')) : FinalizationMove now record run f op run' f' := by
  cases op with
  | read fails =>
    simp only [Finalization.step, Option.map_eq_some_iff, Prod.mk.injEq] at h
    obtain ⟨next, hread, rfl, rfl⟩ := h
    cases fails with
    | true =>
      refine .readFailed ?_
      cases f <;> first | rfl | simp [Finalization.afterRead] at hread
    | false => exact .read hread
  | write outcome =>
    cases f with
    | completing expected n =>
      simp only [Finalization.step, Option.some.injEq, Prod.mk.injEq] at h
      obtain ⟨rfl, rfl⟩ := h
      cases hwrite : completeRunIfOpen (some expected) (deletionValues expected) now run with
      | mk changed written =>
        cases changed with
        | true =>
          obtain ⟨r, hr, hopen, hstate, rfl⟩ := completeRunIfOpen_won hwrite
          exact .won outcome r hr hopen (hstate expected rfl)
        | false =>
          obtain ⟨rfl, hlost⟩ := completeRunIfOpen_lost hwrite
          dsimp only
          rw [ite_self]
          refine .lost outcome fun r hr hopen => ?_
          obtain ⟨_, hexpected, hne⟩ := hlost r hr hopen
          rw [Option.some.inj hexpected]
          exact hne
    | _ => simp [Finalization.step] at h
  | crash =>
    have hcrashed : f.ended = false ∧ run' = run ∧ f' = .crashed := by
      cases f <;> simp [Finalization.step] at h <;> exact ⟨rfl, h.1.symm, h.2.symm⟩
    obtain ⟨hleft, rfl, rfl⟩ := hcrashed
    exact .crashed hleft

/-- The moves of the system. -/
inductive RunMove (cfg : Config) (s : RunSystem) (now : Timestamp) : RunOp → RunSystem → Prop
  | automation {op} (base : State) (hstep : step cfg s.base ⟨now, op⟩ = some base) :
      RunMove cfg s now (.automation op) { s with base := base }
  | submitted {attempts automationDigest} :
      RunMove cfg s now (.submit attempts automationDigest)
        { s with run := s.run.map fun r => r.submit attempts automationDigest now }
  | completed {expectedState values} :
      RunMove cfg s now (.complete expectedState values)
        { s with run := (completeRunIfOpen expectedState values now s.run).2 }
  | finalized {p op run f} (h : FinalizationMove now s.base.record s.run (s.finalizations p) op run f) :
      RunMove cfg s now (.finalize p op)
        { s with run := run, finalizations := Function.update s.finalizations p f }

theorem RunSystem.step_move {cfg : Config} {s s' : RunSystem} {a : RunAction}
    (h : s.step cfg a = some s') : RunMove cfg s a.now a.op s' := by
  obtain ⟨now, op⟩ := a
  cases op with
  | automation op =>
    obtain ⟨base, hstep, rfl⟩ := Option.map_eq_some_iff.mp h
    exact .automation base hstep
  | submit attempts automationDigest =>
    obtain rfl := Option.some.inj h
    exact .submitted
  | complete expectedState values =>
    obtain rfl := Option.some.inj h
    exact .completed
  | finalize p op =>
    obtain ⟨⟨run, f⟩, hstep, rfl⟩ := Option.map_eq_some_iff.mp h
    exact .finalized (Finalization.step_move hstep)

theorem FinalizationMove.advances {now : Timestamp} {record : Option Record}
    {run run' : Option AutomationRun} {f f' : Finalization} {op : FinalizationOp}
    (h : FinalizationMove now record run f op run' f') : RunAdvances run run' := by
  cases h with
  | @won expectedState n outcome r hr hopen hstate =>
    split
    · have hwrite : (completeRunIfOpen none (deletionValues expectedState) now run).2 =
          some (r.complete (deletionValues expectedState) now) := by
        simp [completeRunIfOpen, hr, hopen]
      rw [← hwrite]
      exact completeRunIfOpen_advances none (deletionValues_closed _) now run
    · exact .refl run
  | _ => exact .refl run

theorem RunMove.advances {cfg : Config} {s s' : RunSystem} {now : Timestamp} {op : RunOp}
    (hE : completesTerminal s ⟨now, op⟩) (h : RunMove cfg s now op s') : RunAdvances s.run s'.run := by
  cases h with
  | automation => exact .refl _
  | submitted => exact AutomationRun.submit_advances _ _ now _
  | completed => exact completeRunIfOpen_advances _ (hE _ _ rfl) now _
  | finalized h => exact h.advances

theorem RunMove.inDeletion {cfg : Config} {s s' : RunSystem} {now : Timestamp} {op : RunOp}
    (h : RunMove cfg s now op s') (hdel : s.base.inDeletion) : s'.base.inDeletion := by
  cases h with
  | automation base hstep => exact hdel.step hstep
  | _ => exact hdel

theorem RunMove.present {cfg : Config} {s s' : RunSystem} {now : Timestamp} {op : RunOp}
    (h : RunMove cfg s now op s') {r : Record} (hr : s.base.record = some r) :
    ∃ r', s'.base.record = some r' := by
  cases h with
  | automation base hstep =>
    obtain ⟨r', hr', -⟩ := (step_move hstep).2.2.row hr
    exact ⟨r', hr'⟩
  | _ => exact ⟨r, hr⟩

/-- A finalization is moved by its own operations only. -/
theorem RunMove.finalization {cfg : Config} {s s' : RunSystem} {now : Timestamp} {op : RunOp}
    (h : RunMove cfg s now op s') (p : ℕ) :
    ((∀ o, op ≠ .finalize p o) ∧ s'.finalizations p = s.finalizations p) ∨
      ∃ o, op = .finalize p o ∧
        FinalizationMove now s.base.record s.run (s.finalizations p) o s'.run (s'.finalizations p) := by
  cases h with
  | @finalized q o run f hm =>
    exact own_move RunOp.finalize (fun h => (RunOp.finalize.inj h).1)
      (fun f o f' => FinalizationMove now s.base.record s.run f o run f') s.finalizations hm p
  | _ => exact Or.inl ⟨by simp, rfl⟩

/-- What a finalization knows. Every lost attempt has seen the run advance, so the
run has come at least as far as the number of attempts made. -/
def Finalization.Knows (base : State) (run : Option AutomationRun) : Finalization → Prop
  | .matching r => r.state ∈ openRunStates ∧ ∃ r', run = some r' ∧ r.state.rank ≤ r'.state.rank
  | .completing expectedState n => expectedState ∈ openRunStates ∧ n ≤ expectedState.rank ∧
      (∃ r, run = some r ∧ expectedState.rank ≤ r.state.rank) ∧ base.inDeletion
  | .rereading n => (∃ r, run = some r ∧ n ≤ r.state.rank) ∧ base.inDeletion
  | .reloading => ∃ r, run = some r ∧ r.state ∉ openRunStates
  | .returned r => run = some r ∧ r.state ∉ openRunStates
  | _ => True

/-- What a finalization knows stays true while others move. -/
theorem Finalization.Knows.frame {base base' : State} {run run' : Option AutomationRun}
    {f : Finalization} (h : f.Knows base run) (hrun : RunAdvances run run')
    (hdel : base.inDeletion → base'.inDeletion) : f.Knows base' run' := by
  have hrank {n : ℕ} : (∃ r, run = some r ∧ n ≤ r.state.rank) →
      ∃ r, run' = some r ∧ n ≤ r.state.rank := by
    rintro ⟨r, hr, hn⟩
    obtain ⟨r', hr', hle, -⟩ := hrun r hr
    exact ⟨r', hr', hn.trans hle⟩
  cases f with
  | matching r => exact ⟨h.1, hrank h.2⟩
  | completing expectedState n => exact ⟨h.1, h.2.1, hrank h.2.2.1, hdel h.2.2.2⟩
  | rereading n => exact ⟨hrank h.1, hdel h.2⟩
  | reloading =>
    obtain ⟨r, hr, hclosed⟩ := h
    obtain ⟨r', hr', -, hkeeps⟩ := hrun r hr
    exact ⟨r', hr', by rw [hkeeps hclosed]; exact hclosed⟩
  | returned r =>
    obtain ⟨hr, hclosed⟩ := h
    obtain ⟨r', hr', -, hkeeps⟩ := hrun r hr
    exact ⟨by rw [hr', hkeeps hclosed], hclosed⟩
  | _ => trivial

/-- An open run has been seen to advance once at most, so an attempt is left. -/
theorem attempt_left {state : RunState} {n : ℕ} (hopen : state ∈ openRunStates) (hn : n ≤ state.rank) :
    n < finalizationAttempts :=
  lt_of_le_of_lt hn ((mem_openRunStates state).mp hopen)

theorem Finalization.afterRead_knows {base : State} {run : Option AutomationRun} {f next : Finalization}
    (hread : f.afterRead base.record run = some next) (hk : f.Knows base run) :
    next.Knows base run := by
  cases f with
  | idle =>
    obtain rfl := Option.some.inj hread
    cases run with
    | none => trivial
    | some r =>
      dsimp only [loadRun]
      split
      · next hopen => exact ⟨hopen, r, rfl, le_rfl⟩
      · next hclosed => exact ⟨rfl, hclosed⟩
  | matching r =>
    obtain rfl := Option.some.inj hread
    cases hrec : base.record with
    | none => trivial
    | some a =>
      dsimp only [attributed, matchingState]
      split
      · next hdel => exact ⟨hk.1, Nat.zero_le _, hk.2, a, hrec, hdel⟩
      · trivial
  -- the loop never runs out over an open run: an attempt is left
  | rereading n =>
    obtain rfl := Option.some.inj hread
    obtain ⟨⟨r, rfl, hn⟩, hdel⟩ := hk
    dsimp only [loadRun, retry]
    split
    · next hclosed => exact ⟨rfl, hclosed⟩
    · next hopen =>
      rw [not_not] at hopen
      rw [if_pos (attempt_left hopen hn)]
      exact ⟨hopen, hn, ⟨r, rfl, le_rfl⟩, hdel⟩
  | reloading =>
    obtain rfl := Option.some.inj hread
    obtain ⟨r, rfl, hclosed⟩ := hk
    exact ⟨rfl, hclosed⟩
  | _ => simp [Finalization.afterRead] at hread

/-- The own move of a finalization. -/
theorem FinalizationMove.knows {base : State} {now : Timestamp} {run run' : Option AutomationRun}
    {f f' : Finalization} {op : FinalizationOp} (h : FinalizationMove now base.record run f op run' f')
    (hk : f.Knows base run) : f'.Knows base run' := by
  cases h with
  | readFailed => trivial
  | crashed => trivial
  | read hread => exact Finalization.afterRead_knows hread hk
  | @won expectedState n outcome r hr hopen hstate =>
    cases outcome with
    | ok => exact ⟨_, rfl, deletionValues_closed expectedState⟩
    | failed => trivial
    | lost => trivial
  | @lost expectedState n outcome hlost =>
    obtain ⟨hbefore, hn, ⟨r, hr, hrank⟩, hdel⟩ := hk
    cases outcome with
    | ok =>
      refine ⟨⟨r, hr, ?_⟩, hdel⟩
      -- the attempt was lost because the run was already further on
      rw [mem_openRunStates] at hbefore
      by_cases hopen : r.state ∈ openRunStates
      · have hne : expectedState.rank ≠ r.state.rank := by
          intro hsame
          exact hlost r hr hopen (RunState.eq_of_rank hopen hsame.symm)
        omega
      · rw [mem_openRunStates] at hopen
        omega
    | failed => trivial
    | lost => trivial

/-- The invariant of the finalizations. -/
theorem RunMove.knows {cfg : Config} {s s' : RunSystem} {now : Timestamp} {op : RunOp}
    (hE : completesTerminal s ⟨now, op⟩) (h : RunMove cfg s now op s')
    (hk : ∀ p, (s.finalizations p).Knows s.base s.run) (p : ℕ) :
    (s'.finalizations p).Knows s'.base s'.run := by
  rcases h.finalization p with ⟨-, hsame⟩ | ⟨o, rfl, hm⟩
  · rw [hsame]
    exact (hk p).frame (h.advances hE) h.inDeletion
  · have hbase : s'.base = s.base := by
      cases h with
      | finalized => rfl
    rw [hbase]
    exact hm.knows (hk p)

/-- The run beside its automation, with the finalizations all idle at the start. -/
structure RunSystem.Starts (s : RunSystem) : Prop where
  automation : ∃ a, s.base.record = some a
  run : ∃ r, s.run = some r
  idle : ∀ p, s.finalizations p = .idle

abbrev FinalizationRun (cfg : Config) := Run (RunSystem.step cfg) completesTerminal

variable {cfg : Config} {s₀ s : RunSystem} {tr : Trace RunSystem RunAction}

theorem FinalizationRun.knows (h₀ : s₀.Starts) (h : FinalizationRun cfg s₀ tr s) (p : ℕ) :
    (s.finalizations p).Knows s.base s.run := by
  refine h.invariant (I := fun s => ∀ p, (s.finalizations p).Knows s.base s.run) ?_ ?_ p
  · intro p
    rw [h₀.idle p]
    trivial
  · intro s a s' hk hE hstep
    exact (RunSystem.step_move hstep).knows hE hk

theorem FinalizationRun.present (h₀ : s₀.Starts) (h : FinalizationRun cfg s₀ tr s) :
    (∃ a, s.base.record = some a) ∧ ∃ r, s.run = some r := by
  refine h.invariant (I := fun s => (∃ a, s.base.record = some a) ∧ ∃ r, s.run = some r)
    ⟨h₀.automation, h₀.run⟩ ?_
  rintro s a s' ⟨⟨r, hr⟩, run, hrun⟩ hE hstep
  have hm := RunSystem.step_move hstep
  obtain ⟨run', hrun', -⟩ := hm.advances hE run hrun
  exact ⟨hm.present hr, run', hrun'⟩

/-- The transition is a terminal write that finds its row. -/
def terminalWrite (t : Transition RunSystem RunAction) : Bool :=
  match t.act.op with
  | .complete expectedState values =>
    (completeRunIfOpen expectedState values t.act.now t.pre.run).1
  | .finalize p (.write outcome) =>
    match t.pre.finalizations p with
    | .completing expected _ => outcome.effective &&
      (completeRunIfOpen (some expected) (deletionValues expected) t.act.now t.pre.run).1
    | _ => false
  | _ => false

def RunSystem.closed (s : RunSystem) : Bool := s.run.any fun r => r.state ∉ openRunStates

theorem RunSystem.closed_of {s : RunSystem} {r : AutomationRun} (hr : s.run = some r) :
    s.closed = true ↔ r.state ∉ openRunStates := by
  simp [RunSystem.closed, hr]

/-- A terminal write that succeeds closes an open run. -/
theorem terminalWrite_closes {s s' : RunSystem} {a : RunAction} (hE : completesTerminal s a)
    (hstep : s.step cfg a = some s') (hwrite : terminalWrite ⟨s, a, s'⟩ = true) :
    s.closed = false ∧ s'.closed = true := by
  obtain ⟨now, op⟩ := a
  cases op with
  | automation op => simp [terminalWrite] at hwrite
  | submit attempts automationDigest => simp [terminalWrite] at hwrite
  | complete expectedState values =>
    obtain rfl := Option.some.inj hstep
    cases hcas : completeRunIfOpen expectedState values now s.run with
    | mk changed written =>
      have hchanged : changed = true := by simpa [terminalWrite, hcas] using hwrite
      subst hchanged
      obtain ⟨r, hr, hopen, -, rfl⟩ := completeRunIfOpen_won hcas
      have hclosed : values.state ∉ openRunStates := hE expectedState values rfl
      exact ⟨by simp [RunSystem.closed, hr, hopen],
        by simpa [RunSystem.closed, AutomationRun.complete] using hclosed⟩
  | finalize p o =>
    cases o with
    | write outcome =>
      cases hf : s.finalizations p with
      | completing expected n =>
        simp only [terminalWrite, hf, Bool.and_eq_true] at hwrite
        obtain ⟨heffective, hchanged⟩ := hwrite
        simp only [RunSystem.step, hf, Finalization.step, Option.map_some, Option.some.injEq] at hstep
        subst hstep
        cases hcas : completeRunIfOpen (some expected) (deletionValues expected) now s.run with
        | mk changed written =>
          rw [hcas] at hchanged
          dsimp only at hchanged
          subst hchanged
          obtain ⟨r, hr, hopen, -, rfl⟩ := completeRunIfOpen_won hcas
          have hclosed := deletionValues_closed expected
          exact ⟨by simp [RunSystem.closed, hr, hopen],
            by simpa [RunSystem.closed, heffective, AutomationRun.complete] using hclosed⟩
      | _ => simp [terminalWrite, hf] at hwrite
    | read fails => simp [terminalWrite] at hwrite
    | crash => simp [terminalWrite] at hwrite

/-- A closed run stays closed. -/
theorem RunAdvances.closed {s s' : RunSystem} (h : RunAdvances s.run s'.run)
    (hclosed : s.closed = true) : s'.closed = true := by
  cases hrun : s.run with
  | none => simp [RunSystem.closed, hrun] at hclosed
  | some r =>
    obtain ⟨r', hr', -, hkeeps⟩ := h r hrun
    have hr := (RunSystem.closed_of hrun).mp hclosed
    rw [hkeeps hr] at hr'
    exact (RunSystem.closed_of hr').mpr hr

theorem FinalizationRun.one_terminalWrite (h : FinalizationRun cfg s₀ tr s) :
    tr.countP terminalWrite ≤ 1 := by
  have hcount : s₀.closed.toNat + tr.countP terminalWrite ≤ s.closed.toNat := by
    refine h.countP_le (fun s => s.closed.toNat) terminalWrite ?_
    intro _ s a s' _ hE hstep
    split
    · next hwrite =>
      obtain ⟨hbefore, hafter⟩ := terminalWrite_closes hE hstep hwrite
      simp [hbefore, hafter]
    · cases hbefore : s.closed with
      | false => simp
      | true => simp [((RunSystem.step_move hstep).advances hE).closed hbefore]
  have hle : s.closed.toNat ≤ 1 := Bool.toNat_le _
  omega

/-- The writes a finalization has tried. -/
def Finalization.tried : Finalization → ℕ
  | .idle | .matching _ => 0
  | .completing _ n | .rereading n => n
  | _ => finalizationAttempts

/-- How far a finalization has come. -/
def Finalization.progress : Finalization → ℕ
  | .idle => 0
  | .matching _ => 1
  | .completing _ n => 2*n + 2
  | .rereading n => 2*n + 1
  | .reloading => 5
  | _ => 6

/-- The operation of finalization `p` that a transition is. -/
def RunOp.own (p : ℕ) : RunOp → Option FinalizationOp
  | .finalize q o => if q = p then some o else none
  | _ => none

@[simp] theorem RunOp.own_self (p : ℕ) (o : FinalizationOp) : (RunOp.finalize p o).own p = some o :=
  if_pos rfl

theorem RunOp.own_eq_none {p : ℕ} {op : RunOp} (h : ∀ o, op ≠ .finalize p o) : op.own p = none := by
  cases op with
  | finalize q o =>
    refine if_neg ?_
    intro hq
    exact h o (by rw [hq])
  | _ => rfl

def FinalizationOp.isWrite : FinalizationOp → Bool
  | .write _ => true
  | _ => false

/-- The operation is a crash, a failing read, or a write that fails or whose
commit is not acknowledged. -/
def FinalizationOp.fails : FinalizationOp → Bool
  | .read fails => fails
  | .write outcome => outcome ≠ .ok
  | .crash => true

def moveOf (p : ℕ) (t : Transition RunSystem RunAction) : Bool := (t.act.op.own p).isSome

def writeOf (p : ℕ) (t : Transition RunSystem RunAction) : Bool :=
  (t.act.op.own p).any FinalizationOp.isWrite

def failureOf (p : ℕ) (t : Transition RunSystem RunAction) : Bool :=
  (t.act.op.own p).any FinalizationOp.fails

theorem Finalization.Knows.tried_le {base : State} {run : Option AutomationRun} {f : Finalization}
    (h : f.Knows base run) : f.tried ≤ finalizationAttempts := by
  cases f with
  | completing expectedState n => exact h.2.1.trans expectedState.rank_le
  | rereading n =>
    obtain ⟨⟨r, -, hn⟩, -⟩ := h
    exact hn.trans r.state.rank_le
  | _ => simp [Finalization.tried]

theorem Finalization.Knows.progress_le {base : State} {run : Option AutomationRun}
    {f : Finalization} (h : f.Knows base run) : f.progress ≤ 5 + f.ended.toNat := by
  cases f with
  | completing expectedState n =>
    have hn : n < finalizationAttempts := attempt_left h.1 h.2.1
    simp only [finalizationAttempts] at hn
    simp only [progress, ended, Bool.toNat_false]
    omega
  | rereading n =>
    have hn := h.tried_le
    simp only [tried, finalizationAttempts] at hn
    simp only [progress, ended, Bool.toNat_false]
    omega
  | _ => simp [progress, ended]

/-- What a clean read makes of a finalization that knows its place. -/
theorem Finalization.afterRead_progress {base : State} {run : Option AutomationRun}
    {f next : Finalization} (hread : f.afterRead base.record run = some next)
    (hk : f.Knows base run) : f.progress < next.progress ∧ f.tried ≤ next.tried := by
  cases f with
  | idle =>
    obtain rfl := Option.some.inj hread
    cases run with
    | none => simp [loadRun, progress, tried]
    | some r =>
      dsimp only [loadRun]
      split <;> simp [progress, tried]
  | matching r =>
    obtain rfl := Option.some.inj hread
    unfold attributed
    split
    · simp [progress, tried]
    · split <;> simp [progress, tried]
  | rereading n =>
    obtain rfl := Option.some.inj hread
    have hle := hk.tried_le
    obtain ⟨⟨r, rfl, hn⟩, -⟩ := hk
    simp only [tried, finalizationAttempts] at hle
    dsimp only [loadRun, retry]
    split
    · simp only [progress, tried, finalizationAttempts]
      omega
    · next hopen =>
      rw [not_not] at hopen
      rw [if_pos (attempt_left hopen hn)]
      simp only [progress, tried]
      omega
  | reloading =>
    obtain rfl := Option.some.inj hread
    obtain ⟨r, rfl, -⟩ := hk
    simp [loadRun, progress, tried]
  | _ => simp [Finalization.afterRead] at hread

theorem Finalization.progress_of_left {f : Finalization} {base : State} {run : Option AutomationRun}
    (hk : f.Knows base run) (hleft : f.ended = false) : f.progress ≤ 5 := by
  have hle := hk.progress_le
  rwa [hleft, Bool.toNat_false, add_zero] at hle

/-- Every move takes a finalization on, and a write is one attempt more. -/
theorem FinalizationMove.progress {base : State} {now : Timestamp} {run run' : Option AutomationRun}
    {f f' : Finalization} {op : FinalizationOp} (h : FinalizationMove now base.record run f op run' f')
    (hk : f.Knows base run) :
    f.progress < f'.progress ∧ f.tried + op.isWrite.toNat ≤ f'.tried := by
  cases h with
  | readFailed hleft => exact ⟨Nat.lt_succ_of_le (Finalization.progress_of_left hk hleft), hk.tried_le⟩
  | crashed hleft => exact ⟨Nat.lt_succ_of_le (Finalization.progress_of_left hk hleft), hk.tried_le⟩
  | read hread => exact Finalization.afterRead_progress hread hk
  | @won expectedState n outcome r hr hopen hstate =>
    have hn : n < 2 := attempt_left hk.1 hk.2.1
    split
    · simp only [Finalization.progress, Finalization.tried, FinalizationOp.isWrite,
        finalizationAttempts, Bool.toNat_true]
      omega
    · simp only [Finalization.progress, Finalization.tried, FinalizationOp.isWrite,
        finalizationAttempts, Bool.toNat_true]
      omega
  | @lost expectedState n outcome hlost =>
    have hn : n < 2 := attempt_left hk.1 hk.2.1
    split
    · simp only [Finalization.progress, Finalization.tried, FinalizationOp.isWrite,
        finalizationAttempts, Bool.toNat_true]
      omega
    · simp only [Finalization.progress, Finalization.tried, FinalizationOp.isWrite, Bool.toNat_true]
      omega

theorem FinalizationRun.moves_le (h₀ : s₀.Starts) (h : FinalizationRun cfg s₀ tr s) (p : ℕ) :
    tr.countP (moveOf p) ≤ (s.finalizations p).progress ∧
      tr.countP (writeOf p) ≤ (s.finalizations p).tried := by
  have hmove : ∀ tr s a s', FinalizationRun cfg s₀ tr s → completesTerminal s a →
      s.step cfg a = some s' →
      (s.finalizations p).progress + (if moveOf p ⟨s, a, s'⟩ then 1 else 0) ≤
        (s'.finalizations p).progress ∧
      (s.finalizations p).tried + (if writeOf p ⟨s, a, s'⟩ then 1 else 0) ≤
        (s'.finalizations p).tried := by
    intro tr s a s' hr hE hstep
    rcases (RunSystem.step_move hstep).finalization p with ⟨hother, hsame⟩ | ⟨o, ho, hm⟩
    · simp [moveOf, writeOf, RunOp.own_eq_none hother, hsame]
    · obtain ⟨hprogress, htried⟩ := hm.progress (FinalizationRun.knows h₀ hr p)
      simp only [moveOf, writeOf, ho, RunOp.own_self, Option.isSome_some, if_true, Option.any_some]
      refine ⟨hprogress, ?_⟩
      cases hwrite : o.isWrite with
      | false => simpa [hwrite] using htried
      | true => simpa [hwrite] using htried
  constructor
  · have hcount := h.countP_le (fun s => (s.finalizations p).progress) (moveOf p)
      (fun tr s a s' hr hE hstep => (hmove tr s a s' hr hE hstep).1)
    exact (Nat.le_add_left _ _).trans hcount
  · have hcount := h.countP_le (fun s => (s.finalizations p).tried) (writeOf p)
      (fun tr s a s' hr hE hstep => (hmove tr s a s' hr hE hstep).2)
    exact (Nat.le_add_left _ _).trans hcount

/-- Finalization `p` reads its automation and finds it live. -/
def ReadLive (p : ℕ) (state : MatchingState) (t : Transition RunSystem RunAction) : Prop :=
  t.act.op = .finalize p (.read false) ∧ state ∉ deletionStates ∧
    ∃ a, t.pre.base.record = some a ∧ a.automation.matchingState = state

/-- Why a finalization has ended without a run. -/
def EndedFor (p : ℕ) (tr : Trace RunSystem RunAction) : Finalization → Prop
  | .raised e => (∃ t ∈ tr, failureOf p t = true) ∨
      ∃ state, e = .raised (.automationLifecycleConflictError state) ∧
        tr.countP (writeOf p) = 0 ∧ ∃ t ∈ tr, ReadLive p state t
  | .crashed => ∃ t ∈ tr, failureOf p t = true
  | _ => True

theorem writeOf_eq_false {p : ℕ} {t : Transition RunSystem RunAction}
    (h : ∀ o, t.act.op ≠ .finalize p o) : writeOf p t = false := by
  simp [writeOf, RunOp.own_eq_none h]

/-- The moves of the others leave a finalization where it ended. -/
theorem EndedFor.frame {p : ℕ} {tr : Trace RunSystem RunAction} {t : Transition RunSystem RunAction}
    {f : Finalization} (h : EndedFor p tr f) (hother : ∀ o, t.act.op ≠ .finalize p o) :
    EndedFor p (t :: tr) f := by
  cases f with
  | raised e =>
    rcases h with ⟨u, hu, hfails⟩ | ⟨state, he, hnone, u, hu, hlive⟩
    · exact Or.inl ⟨u, List.mem_cons_of_mem t hu, hfails⟩
    · refine Or.inr ⟨state, he, ?_, u, List.mem_cons_of_mem t hu, hlive⟩
      rw [List.countP_cons, hnone, writeOf_eq_false hother]
      rfl
  | crashed =>
    obtain ⟨u, hu, hfails⟩ := h
    exact ⟨u, List.mem_cons_of_mem t hu, hfails⟩
  | _ => trivial

theorem FinalizationRun.endedFor (h₀ : s₀.Starts) (h : FinalizationRun cfg s₀ tr s) (p : ℕ) :
    EndedFor p tr (s.finalizations p) := by
  refine h.history (P := fun tr s => EndedFor p tr (s.finalizations p)) ?_ ?_
  · rw [h₀.idle p]
    trivial
  intro tr s a s' hr hended hE hstep
  rcases (RunSystem.step_move hstep).finalization p with ⟨hother, hsame⟩ | ⟨o, ho, hm⟩
  · rw [hsame]
    exact hended.frame hother
  · have hk := FinalizationRun.knows h₀ hr p
    obtain ⟨⟨r, hrec⟩, run, hrun⟩ := FinalizationRun.present h₀ hr
    have hwrites := (FinalizationRun.moves_le h₀ hr p).2
    have hfailed (hfails : o.fails = true) :
        ∃ t ∈ (⟨s, a, s'⟩ : Transition RunSystem RunAction) :: tr, failureOf p t = true := by
      refine ⟨_, List.mem_cons_self .., ?_⟩
      simpa [failureOf, ho] using hfails
    generalize s.finalizations p = f at hm hk hwrites
    generalize s'.finalizations p = f' at hm
    generalize s'.run = run' at hm
    cases hm with
    | readFailed => exact Or.inl (hfailed rfl)
    | crashed => exact hfailed rfl
    | @won expectedState n outcome r' hr' hopen hstate =>
      cases outcome with
      | ok => trivial
      | failed => exact Or.inl (hfailed rfl)
      | lost => exact Or.inl (hfailed rfl)
    | @lost expectedState n outcome hlost =>
      cases outcome with
      | ok => trivial
      | failed => exact Or.inl (hfailed rfl)
      | lost => exact Or.inl (hfailed rfl)
    | read hread =>
      cases f with
      | idle =>
        obtain rfl := Option.some.inj hread
        rw [hrun]
        dsimp only [loadRun]
        split <;> trivial
      | matching r' =>
        obtain rfl := Option.some.inj hread
        rw [hrec]
        dsimp only [attributed, matchingState]
        split
        · trivial
        · next hlive =>
          refine Or.inr ⟨_, rfl, ?_, _, List.mem_cons_self .., ho, hlive, r, hrec, rfl⟩
          rw [List.countP_cons, Nat.le_zero.mp hwrites]
          simp [writeOf, ho, FinalizationOp.isWrite]
      | rereading n =>
        obtain rfl := Option.some.inj hread
        rw [hrun]
        dsimp only [loadRun, retry]
        split
        · trivial
        · split <;> trivial
      | reloading =>
        obtain rfl := Option.some.inj hread
        rw [hrun]
        trivial
      | _ => simp [Finalization.afterRead] at hread

/-- A finalization that has not ended has a move that does not fail. -/
theorem RunSystem.step_enabled (cfg : Config) (s : RunSystem) {p : ℕ}
    (h : (s.finalizations p).ended = false) (now : Timestamp) :
    ∃ o, o.fails = false ∧ (s.step cfg ⟨now, .finalize p o⟩).isSome = true := by
  cases hf : s.finalizations p with
  | completing expectedState n =>
    exact ⟨.write .ok, rfl, by simp [RunSystem.step, Finalization.step, hf]⟩
  | idle | matching | rereading | reloading =>
    exact ⟨.read false, rfl, by simp [RunSystem.step, Finalization.step, Finalization.afterRead, hf]⟩
  | _ => simp [hf, Finalization.ended] at h

/-- The row was closed by its automation's deletion: a started call failed, a
pending one was skipped, and what was recorded of the call is kept. -/
def ClosedByDeletion (r r' : AutomationRun) : Prop :=
  (r.state = .submitted ∧ r'.state = .failed ∧ r'.failureClass = some .terminatedByDeletion ∧
      r'.suppressionReason = r.suppressionReason ∨
    r.state = .pending ∧ r'.state = .suppressed ∧ r'.suppressionReason = some .inactive ∧
      r'.failureClass = r.failureClass) ∧
    r'.attempts = r.attempts ∧ r'.automationDigest = r.automationDigest ∧
    r'.outcomeStatus = r.outcomeStatus ∧ r'.result = r.result

theorem closedByDeletion_complete {r : AutomationRun} (hopen : r.state ∈ openRunStates)
    (now : Timestamp) : ClosedByDeletion r (r.complete (deletionValues r.state) now) := by
  cases hstate : r.state with
  | pending => simp [ClosedByDeletion, AutomationRun.complete, deletionValues, hstate]
  | submitted => simp [ClosedByDeletion, AutomationRun.complete, deletionValues, hstate]
  | _ => simp [hstate, openRunStates] at hopen

/-- A finalization that changes the run closes it for a deletion. -/
theorem FinalizationMove.closedByDeletion {base : State} {now : Timestamp}
    {run run' : Option AutomationRun} {f f' : Finalization} {op : FinalizationOp}
    (h : FinalizationMove now base.record run f op run' f') (hk : f.Knows base run)
    (hchanged : run' ≠ run) :
    ∃ r r', run = some r ∧ run' = some r' ∧ ClosedByDeletion r r' ∧ base.inDeletion := by
  cases h with
  | @won expectedState n outcome r hr hopen hstate =>
    subst hstate
    cases heffective : outcome.effective with
    | true => exact ⟨r, _, hr, rfl, closedByDeletion_complete hopen now, hk.2.2.2⟩
    | false => simp [heffective] at hchanged
  | _ => exact absurd rfl hchanged

/-- A run is finished once, and blamed on a deletion only when it is true. -/
theorem run_finished_once {cfg : Config} {s₀ s : RunSystem} {tr : Trace RunSystem RunAction}
    (h₀ : s₀.Starts) (h : FinalizationRun cfg s₀ tr s) :
    (tr.countP terminalWrite ≤ 1 ∧
      ∀ t ∈ tr, ∀ r, t.pre.run = some r → r.state ∉ openRunStates → t.post.run = some r) ∧
    (∀ p, (∀ r, s.finalizations p = .returned r → r.state ∉ openRunStates ∧ s.run = some r) ∧
      tr.countP (moveOf p) ≤ 6 ∧ tr.countP (writeOf p) ≤ 2 ∧
      ((s.finalizations p).ended = false → ∀ now, ∃ o, o.fails = false ∧
        (s.step cfg ⟨now, .finalize p o⟩).isSome = true) ∧
      ((s.finalizations p).ended = true → (∀ t ∈ tr, failureOf p t = false) →
        (∃ r, s.finalizations p = .returned r) ∨
        ∃ state, s.finalizations p = .raised (.raised (.automationLifecycleConflictError state)) ∧
          tr.countP (writeOf p) = 0 ∧ ∃ t ∈ tr, ReadLive p state t)) ∧
    (∀ t ∈ tr, ∀ p r state, t.pre.finalizations p = .matching r → ReadLive p state t →
      t.post.run = t.pre.run ∧
        t.post.finalizations p = .raised (.raised (.automationLifecycleConflictError state))) ∧
    ∀ t ∈ tr, ∀ p o, t.act.op = .finalize p o → t.post.run ≠ t.pre.run →
      ∃ r r', t.pre.run = some r ∧ t.post.run = some r' ∧ ClosedByDeletion r r' ∧
        t.pre.base.inDeletion := by
  refine ⟨⟨FinalizationRun.one_terminalWrite h, ?_⟩, ?_, ?_, ?_⟩
  · intro t ht r hr hclosed
    obtain ⟨hE, hstep, -⟩ := h.transition ht
    obtain ⟨r', hr', -, hkeeps⟩ := (RunSystem.step_move hstep).advances hE r hr
    rw [hr', hkeeps hclosed]
  · intro p
    have hk := FinalizationRun.knows h₀ h p
    obtain ⟨hmoves, hwrites⟩ := FinalizationRun.moves_le h₀ h p
    have hended := FinalizationRun.endedFor h₀ h p
    refine ⟨?_, hmoves.trans ?_, hwrites.trans hk.tried_le, fun hleft now =>
      RunSystem.step_enabled cfg s hleft now, ?_⟩
    · intro r hreturned
      rw [hreturned] at hk
      exact ⟨hk.2, hk.1⟩
    · have hle := hk.progress_le
      have hbool := Bool.toNat_le (s.finalizations p).ended
      omega
    · intro hend hclean
      have hnone : ¬ ∃ t ∈ tr, failureOf p t = true := by
        rintro ⟨t, ht, hfails⟩
        rw [hclean t ht] at hfails
        exact Bool.false_ne_true hfails
      cases hf : s.finalizations p with
      | returned r => exact Or.inl ⟨r, rfl⟩
      | raised e =>
        rw [hf] at hended
        rcases hended with hfailed | ⟨state, rfl, hunwritten, hlive⟩
        · exact absurd hfailed hnone
        · exact Or.inr ⟨state, rfl, hunwritten, hlive⟩
      | crashed =>
        rw [hf] at hended
        exact absurd hended hnone
      | _ => simp [hf, Finalization.ended] at hend
  · intro t ht p r state hmatching ⟨hop, hlive, a, ha, hstate⟩
    obtain ⟨-, hstep, -⟩ := h.transition ht
    obtain ⟨pre, ⟨now, op⟩, post⟩ := t
    dsimp only at hop hmatching ha hstep ⊢
    subst hop
    simp only [RunSystem.step, hmatching, Finalization.step, Finalization.afterRead, attributed,
      matchingState, ha, hstate, hlive, if_false, Option.map_some, Option.some.injEq] at hstep
    subst hstep
    simp
  · intro t ht p o hop hchanged
    obtain ⟨-, hstep, tr', hpre⟩ := h.transition ht
    have hk := FinalizationRun.knows h₀ hpre p
    rcases (RunSystem.step_move hstep).finalization p with ⟨hother, -⟩ | ⟨o', -, hm⟩
    · exact absurd hop (hother o)
    · exact hm.closedByDeletion hk hchanged

/-- A pending run of the sample automation, beside its row. -/
def pendingSystem (base : State) : RunSystem where
  base := base
  run := some {
    runId := ⟨7⟩
    automationId := sampleId
    tenantId := "t1"
    historyId := "h1"
    fingerprint := "f1"
    payload := .null
    state := .pending
    suppressionReason := none
    gateFlags := none
    automationDigest := none
    matchedM := 0
    attempts := none
    outcomeStatus := none
    failureClass := none
    result := none
    createdAt := 0
    submittedAt := none
    finishedAt := none }
  finalizations := fun _ => .idle

def succeededValues : RunValues where
  state := .succeeded
  suppressionReason := none
  failureClass := none
  automationDigest := none
  attempts := none
  outcomeStatus := some (some "ok")
  result := none

/-- The automation is deleted, the run starts between the read of a finalization
and its write, and a late success follows. -/
def teardownRace : List RunAction :=
  [⟨4, .automation (.beginDelete "t1" "deleter")⟩, ⟨5, .finalize 0 (.read false)⟩,
   ⟨6, .finalize 0 (.read false)⟩, ⟨7, .submit (some 1) none⟩, ⟨8, .finalize 0 (.write .ok)⟩,
   ⟨9, .finalize 0 (.read false)⟩, ⟨10, .finalize 0 (.write .ok)⟩,
   ⟨11, .complete none succeededValues⟩, ⟨12, .finalize 0 (.read false)⟩]

def runFailedCreate : Option State :=
  runSample [.create "t1" samplePayload "author" firstSha 99,
    .deliver 0 (.receive firstFailure false), .deliver 0 (.recordFailure none)]

theorem run_finished_once_sample :
    ∃ base s tr, FinalizationRun sampleConfig (pendingSystem base) tr s ∧
      tr.countP terminalWrite ≤ 1 ∧
      ∃ r, s.finalizations 0 = .returned r ∧ s.run = some r ∧ r.state = .failed ∧
        r.failureClass = some .terminatedByDeletion := by
  have hraced : runFailedCreate.any (fun base => base.record.isSome &&
      execMeets (RunSystem.step sampleConfig) checkTerminal (pendingSystem base) teardownRace &&
      (exec (RunSystem.step sampleConfig) (pendingSystem base) teardownRace).any fun s =>
        match s.finalizations 0 with
        | .returned r => r.state = .failed ∧ r.failureClass = some .terminatedByDeletion
        | _ => false) = true := by
    decide +kernel
  obtain ⟨base, _, hbase⟩ := (Option.any_eq_true _ _).mp hraced
  simp only [Bool.and_eq_true] at hbase
  obtain ⟨⟨hrecord, hmeets⟩, hend⟩ := hbase
  obtain ⟨s, hs, hreturned⟩ := (Option.any_eq_true _ _).mp hend
  have h := Run.ofExec checkTerminal checkTerminal_sound teardownRace hmeets hs
  have h₀ : (pendingSystem base).Starts :=
    ⟨Option.isSome_iff_exists.mp hrecord, ⟨_, rfl⟩, fun _ => rfl⟩
  obtain ⟨⟨hone, -⟩, hfinalized, -⟩ := run_finished_once h₀ h
  refine ⟨base, s, _, h, hone, ?_⟩
  cases hf : s.finalizations 0 with
  | returned r =>
    simp only [hf, Bool.decide_and, Bool.and_eq_true, decide_eq_true_eq] at hreturned
    exact ⟨r, rfl, ((hfinalized 0).1 r hf).2, hreturned⟩
  | _ => simp [hf] at hreturned

end KeepAutomation
