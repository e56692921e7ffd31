import KeepAutomation.AuditReplay
import KeepAutomation.Outbox
import KeepAutomation.PythonJson

/-! What the service announces after its commits: the `reload` signal to the
matchers and the build events to the event stream. Each call publishes once its
transaction is through, so between the two anything may happen, and a publish
that fails is not tried again. -/
namespace KeepAutomation

open TransitionSystem Outbox

/-- `_build_event`. -/
structure AutomationEvent where
  automationId : UUID
  tenantId : String
  commitSha : String
  buildState : BuildState
  matchingState : MatchingState
  activeDigest : Option String
  deriving DecidableEq, Repr

def buildEvent (a : Automation) (commitSha : String) : AutomationEvent where
  automationId := a.id
  tenantId := a.tenantId
  commitSha := commitSha
  buildState := a.buildState
  matchingState := a.matchingState
  activeDigest := a.activeDigest

inductive Notice where
  | reload
  | event (e : AutomationEvent)
  deriving DecidableEq, Repr

def Notice.isReload : Notice → Bool
  | .reload => true
  | .event _ => false

def Notice.event? : Notice → Option AutomationEvent
  | .reload => none
  | .event e => some e

/-- A toggle that has committed signals a reload. -/
def toggleNotices (result : Except Error Record) : List Notice :=
  match result with
  | .ok _ => [.reload]
  | .error _ => []

/-- So does the delete that moved the row; a repeated one only reads it. -/
def deleteNotices (result : Except Error DeleteAdmission) : List Notice :=
  match result with
  | .ok d => if d.started then [.reload] else []
  | .error _ => []

/-- A cutover signals a reload and then its event. A failure changes nothing the
matcher reads, so it has an event only. -/
def deliveryNotices (now : Timestamp) (record : Option Record) : Delivery → DeliveryOp → List Notice
  | .recordingFailure event, .recordFailure none =>
    match recordFailure event now record with
    | (some r, .answered _ .applied) => [.event (buildEvent r.automation event.commitSha)]
    | _ => []
  | .rechecking event target created, .recheck none =>
    match commitCutover event target created now record with
    | (some r, .answered _ .applied) => [.reload, .event (buildEvent r.automation event.commitSha)]
    | _ => []
  | _, _ => []

/-- Only the first step of the cascade signals, whether or not its checkpoint was
the one that moved the row. -/
def runnerNotices : Runner → RunnerOp → List Notice
  | .saving _ _ completed, .save .ok => if completed = stepMarkedDeleting then [.reload] else []
  | _, _ => []

/-- What the call that makes a step has to publish after it. A create and an edit
publish nothing. -/
def notices (s : State) (a : Action) : List Notice :=
  match a.op with
  | .enable tenantId actor => toggleNotices (enableAutomation tenantId actor a.now s.record)
  | .disable tenantId actor => toggleNotices (disableAutomation tenantId actor a.now s.record)
  | .beginDelete tenantId actor => deleteNotices (beginDelete tenantId actor a.now s.record)
  | .deliver p op => deliveryNotices a.now s.record (s.deliveries p) op
  | .run p op => runnerNotices (s.runners p) op
  | _ => []

abbrev Announcing := Outbox.State State Notice

/-- Runs of the service with its publishing. A publish fails, and a call dies
before it has published, at any time. -/
abbrev AnnouncingRun (cfg : Config) (s₀ : Announcing) (tr : Trace Announcing (Label Action))
    (s : Announcing) : Prop := Run (outboxStep (step cfg) notices) (fun _ _ => True) s₀ tr s

/-- Everything one step can announce, with what it does to the row. -/
inductive Announcement (now : Timestamp) : Op → Option Record → List Notice → Option Record → Prop
  | silent {op} (record : Option Record) : Announcement now op record [] record
  | created {op} (tenantId : String) (id : UUID) (data : AutomationIn) (actor gitSha : String)
      (deadline : Timestamp) : Announcement now op none []
        (some (createAutomation tenantId id data actor gitSha deadline now))
  | toggled {op} (r : Record) (target : MatchingState) (action : RevisionAction) (actor : String)
      (haction : action = .enable ∨ action = .disable) :
      Announcement now op (some r) [.reload] (some (r.transition target action actor now))
  | deleteAdmitted {op} (r : Record) (actor : String) :
      Announcement now op (some r) [.reload] (some (r.markDeleting actor now))
  | claimed {op} (r : Record) (deadline : Timestamp) :
      Announcement now op (some r) [] (some (r.claimed deadline))
  | released {op} (r : Record) (claim : BuildClaim) :
      Announcement now op (some r) [] (some (releaseBuildClaim claim r))
  | edited {p} (r : Record) (data : AutomationIn) (actor gitSha : String) :
      Announcement now (.edit p (.finish none)) (some r) [] (some (r.edited data actor gitSha now))
  | buildFailed {op} (r : Record) (event : CiWebhookIn)
      (hadm : admission r.automation event.commitSha = none) :
      Announcement now op (some r)
        [.event (buildEvent (failBuild r event now).automation event.commitSha)]
        (some (failBuild r event now))
  | cutOver {op} (r : Record) (event : CiWebhookIn) (created : Option CappDeployment)
      (hre : recheck r event.commitSha = none) :
      Announcement now op (some r)
        [.reload, .event (buildEvent (cutOver r event created now).automation event.commitSha)]
        (some (cutOver r event created now))
  | checkpointed {op} (record : Option Record) (completed : ℕ) (ns : List Notice)
      (hns : ns = [] ∨ ns = [.reload]) :
      Announcement now op record ns (record.map (checkpoint completed now))

section Announcement

variable {cfg : Config} {s s' : State} {now : Timestamp} {op : Op}

theorem toggle_announces {target : MatchingState} {action : RevisionAction} {tenantId actor : String}
    (haction : action = .enable ∨ action = .disable) (record : Option Record) :
    Announcement now op record (toggleNotices (toggle target action tenantId actor now record))
      (committed (toggle target action tenantId actor now record) record) := by
  cases ht : toggle target action tenantId actor now record with
  | error e => exact .silent record
  | ok r' =>
    obtain ⟨r, rfl, -, -, -, rfl⟩ := toggle_ok ht
    exact .toggled r target action actor haction

theorem beginDelete_announces {tenantId actor : String} (record : Option Record) :
    Announcement now op record (deleteNotices (beginDelete tenantId actor now record))
      (committed ((beginDelete tenantId actor now record).map DeleteAdmission.record) record) := by
  cases hd : beginDelete tenantId actor now record with
  | error e => exact .silent record
  | ok d =>
    obtain ⟨r, rfl, -, ⟨-, rfl⟩ | ⟨-, -, rfl⟩⟩ := beginDelete_ok hd
    · exact .silent (some r)
    · exact .deleteAdmitted r actor

theorem recordFailure_announces (event : CiWebhookIn) (record : Option Record) :
    Announcement now op record
      (deliveryNotices now record (.recordingFailure event) (.recordFailure none))
      (recordFailure event now record).1 := by
  unfold deliveryNotices recordFailure
  cases record with
  | none => exact .silent none
  | some r =>
    cases hadm : admission r.automation event.commitSha with
    | some reason => simpa only [hadm] using .silent (some r)
    | none => simpa only [hadm] using .buildFailed r event hadm

theorem commitCutover_announces (event : CiWebhookIn) (target : BuildTarget)
    (created : Option CappDeployment) (record : Option Record) :
    Announcement now op record
      (deliveryNotices now record (.rechecking event target created) (.recheck none))
      (commitCutover event target created now record).1 := by
  unfold deliveryNotices commitCutover
  cases record with
  | none => exact .silent none
  | some r =>
    cases hre : recheck r event.commitSha with
    | none => simpa only [hre] using .cutOver r event created hre
    | some reason => cases reason <;> simpa only [hre] using .silent (some r)

theorem delivery_announces {sh sh' : Shared} {d d' : Delivery} {o : DeliveryOp}
    (h : d.step cfg now sh o = some (sh', d')) :
    Announcement now op sh.record (deliveryNotices now sh.record d o) sh'.record := by
  -- only two of its transactions write the row
  cases d with
  | recordingFailure event =>
    cases o with
    | recordFailure fault =>
      cases fault with
      | none =>
        simp only [Delivery.step, Option.some.injEq, Prod.mk.injEq] at h
        rw [← h.1]
        exact recordFailure_announces event sh.record
      | some f =>
        simp only [Delivery.step, Option.some.injEq, Prod.mk.injEq] at h
        rw [← h.1]
        exact .silent _
    | crash =>
      simp only [Delivery.step, Option.some.injEq, Prod.mk.injEq] at h
      rw [← h.1]
      exact .silent _
    | _ => simp [Delivery.step] at h
  | rechecking event target created =>
    cases o with
    | recheck fault =>
      cases fault with
      | none =>
        simp only [Delivery.step, Option.some.injEq, Prod.mk.injEq] at h
        rw [← h.1]
        exact commitCutover_announces event target created sh.record
      | some f =>
        simp only [Delivery.step, Option.some.injEq, Prod.mk.injEq] at h
        rw [← h.1]
        exact .silent _
    | crash =>
      simp only [Delivery.step, Option.some.injEq, Prod.mk.injEq] at h
      rw [← h.1]
      exact .silent _
    | _ => simp [Delivery.step] at h
  | _ =>
    have hsame : sh'.record = sh.record := by
      have hm := Delivery.step_move h
      cases hm <;> rfl
    rw [hsame]
    exact .silent _

theorem edit_announces {sh sh' : Shared} {p : ℕ} {e e' : Edit} {o : EditOp}
    (h : EditMove cfg now sh e o sh' e') :
    Announcement now (.edit p o) sh.record [] sh'.record := by
  cases h with
  | claimed r hr => rw [hr]; exact .claimed r _
  | @released claim =>
    cases hrec : sh.record with
    | none => simpa only [hrec] using .silent none
    | some r => simpa only [hrec] using .released r claim
  | finished r hr => rw [hr]; exact .edited r _ _ _
  | _ => exact .silent _

theorem runner_announces {sh sh' : Shared} {pc pc' : Runner} {o : RunnerOp}
    (h : RunnerMove now sh pc o sh' pc') :
    Announcement now op sh.record (runnerNotices pc o) sh'.record := by
  cases h with
  | @saved a n completed outcome =>
    have hns : runnerNotices (.saving a n completed) (.save outcome) = [] ∨
        runnerNotices (.saving a n completed) (.save outcome) = [.reload] := by
      cases outcome with
      | ok =>
        by_cases hone : completed = stepMarkedDeleting
        · exact Or.inr (if_pos hone)
        · exact Or.inl (if_neg hone)
      | failed => exact Or.inl rfl
      | lost => exact Or.inl rfl
    cases outcome with
    | failed => exact .silent sh.record
    | ok => exact .checkpointed sh.record completed _ hns
    | lost => exact .checkpointed sh.record completed _ hns
  | crashed => cases pc <;> exact .silent sh.record
  | readFailed => cases pc <;> exact .silent sh.record
  | called => cases pc <;> exact .silent sh.record
  | _ => exact .silent sh.record

theorem create_announces {tenantId actor gitSha : String} {data : AutomationIn} {deadline : Timestamp}
    (hm : Move cfg s now (.create tenantId data actor gitSha deadline) s') :
    Announcement now op s.record [] s'.record := by
  cases hm with
  | created hnone =>
    rw [hnone]
    exact .created tenantId cfg.automationId data actor gitSha deadline
  | refused hop => simp [Op.isRequest] at hop

/-- The step lemma: a step announces what it does to the row. -/
theorem step_announces {a : Action} (h : step cfg s a = some s') :
    Announcement a.now a.op s.record (notices s a) s'.record := by
  obtain ⟨now, op⟩ := a
  obtain ⟨-, -, hm⟩ := step_move h
  have happly : ∃ s₁, apply cfg s now op = some s₁ ∧ s₁.record = s'.record := by
    unfold step at h
    split at h
    · obtain ⟨s₁, happly, rfl⟩ := Option.map_eq_some_iff.mp h
      exact ⟨s₁, happly, rfl⟩
    · simp at h
  obtain ⟨s₁, happly, hrecord⟩ := happly
  cases op with
  | create tenantId data actor gitSha deadline => exact create_announces hm
  | enable tenantId actor =>
    simp only [apply, Option.some.injEq] at happly
    rw [← hrecord, ← happly]
    exact toggle_announces (Or.inl rfl) s.record
  | disable tenantId actor =>
    simp only [apply, Option.some.injEq] at happly
    rw [← hrecord, ← happly]
    exact toggle_announces (Or.inr rfl) s.record
  | beginDelete tenantId actor =>
    simp only [apply, Option.some.injEq] at happly
    rw [← hrecord, ← happly]
    exact beginDelete_announces s.record
  | edit p o =>
    cases hm with
    | edited hedit => exact edit_announces hedit
    | refused hop => simp [Op.isRequest] at hop
  | deliver p o =>
    simp only [apply, Option.map_eq_some_iff] at happly
    obtain ⟨⟨sh, d⟩, hstep, rfl⟩ := happly
    rw [← hrecord]
    exact delivery_announces hstep
  | run p o =>
    cases hm with
    | ran hrun => exact runner_announces hrun
    | refused hop => simp [Op.isRequest] at hop
  | push images =>
    simp only [apply, Option.some.injEq] at happly
    rw [← hrecord, ← happly]
    exact .silent s.record

end Announcement

section Matching

/-- The columns of an active row that steer its matches. -/
structure Served where
  id : UUID
  tenantId : String
  cappDeploymentId : Option String
  deploymentUrl : Option String
  activeDigest : Option String
  contractVersion : Option String
  indexGeneration : ℕ
  deriving DecidableEq, Repr

/-- A matcher loads the active rows only. -/
def served (record : Option Record) : Option Served :=
  match record with
  | none => none
  | some r =>
    if r.automation.matchingState = .active then
      some { id := r.automation.id
             tenantId := r.automation.tenantId
             cappDeploymentId := r.automation.cappDeploymentId
             deploymentUrl := r.automation.deploymentUrl
             activeDigest := r.automation.activeDigest
             contractVersion := r.automation.contractVersion
             indexGeneration := r.automation.indexGeneration }
    else none

/-- The same with the definition, as the author last left it. -/
def hydrated (record : Option Record) : Option (Served × Definition) :=
  match record with
  | none => none
  | some r => (served record).map fun v => (v, r.automation.definition)

def Op.finishesEdit : Op → Bool
  | .edit _ (.finish none) => true
  | _ => false

/-- Without a reload a row keeps what matchers load of it; an edit may redefine it. -/
theorem Announcement.keeps {now : Timestamp} {op : Op} {record record' : Option Record}
    {ns : List Notice} (h : Announcement now op record ns record')
    (hquiet : ∀ n ∈ ns, n.isReload = false) :
    served record' = served record ∧
      (op.finishesEdit = false → hydrated record' = hydrated record) := by
  have hloud : Notice.reload.isReload ≠ false := Bool.noConfusion
  cases h with
  | silent => exact ⟨rfl, fun _ => rfl⟩
  | created => exact ⟨rfl, fun _ => rfl⟩
  | toggled => exact absurd (hquiet .reload List.mem_cons_self) hloud
  | deleteAdmitted => exact absurd (hquiet .reload List.mem_cons_self) hloud
  | cutOver => exact absurd (hquiet .reload List.mem_cons_self) hloud
  | claimed => exact ⟨rfl, fun _ => rfl⟩
  | released r claim =>
    obtain ⟨_, _, _, he⟩ := releaseBuildClaim_frame claim r
    rw [he]
    exact ⟨rfl, fun _ => rfl⟩
  | edited => exact ⟨rfl, fun hop => by simp [Op.finishesEdit] at hop⟩
  | buildFailed => exact ⟨rfl, fun _ => rfl⟩
  | checkpointed record completed =>
    cases record with
    | none => exact ⟨rfl, fun _ => rfl⟩
    | some r =>
      unfold Option.map checkpoint
      by_cases hmatch : checkpointMatches completed r.automation
      · -- a deleting row is not loaded, before the checkpoint or after it
        have hbefore : r.automation.matchingState ≠ .active := by
          rw [hmatch.1]
          decide
        have hafter : (if completed = stepDeleted then MatchingState.deleted
            else r.automation.matchingState) ≠ .active := by
          split
          · decide
          · exact hbefore
        simp only [if_pos hmatch, served, hydrated, if_neg hbefore, if_neg hafter, Option.map_none,
          implies_true, and_self]
      · simp only [if_neg hmatch, implies_true, and_self]

/-- A matcher that loaded the row is out of date only if a reload has been
delivered since, has been lost, or is still to come. This holds from any moment
on, whatever is interleaved; the definition may also have been edited. -/
theorem stale_only_behind_a_reload {cfg : Config} {s₀ s : Announcing}
    {tr : Trace Announcing (Label Action)} (hrun : AnnouncingRun cfg s₀ tr s)
    (hu : Unheard Notice.isReload s₀ s) :
    (served s.base.record = served s₀.base.record ∧
        ∀ t ∈ tr, served t.post.base.record = served s.base.record) ∧
      ((∀ t ∈ baseTrace tr, t.act.op.finishesEdit = false) →
        hydrated s.base.record = hydrated s₀.base.record ∧
          ∀ t ∈ tr, hydrated t.post.base.record = hydrated s.base.record) := by
  constructor
  · apply hu.settled hrun fun b => served b.record
    intro s a b _ hstep hquiet
    exact ((step_announces hstep).keeps hquiet).1
  · intro hedits
    have hruns : Run (outboxStep (step cfg) notices)
        (fun _ l => ∀ a : Action, l = .commit a → a.op.finishesEdit = false) s₀ tr s :=
      run_commits hrun hedits
    apply hu.settled hruns fun b => hydrated b.record
    intro s a b ha hstep hquiet
    exact ((step_announces hstep).keeps hquiet).2 (ha a rfl)

/-- The first build cuts over and is enabled; both reloads go out, the event of
the cutover not yet. -/
def enabledLabels : List (Label Action) :=
  [.commit ⟨1, .create "t1" samplePayload "author" firstSha 99⟩,
   .commit ⟨2, .deliver 0 (.receive firstSuccess false)⟩,
   .commit ⟨3, .deliver 0 (.cappAccepts sampleDeployment)⟩, .commit ⟨4, .deliver 0 (.recheck none)⟩,
   .publish 3 true, .commit ⟨5, .enable "t1" "author"⟩, .publish 4 true]

/-- The event goes out, and an edit builds its script in vain. -/
def quietLabels : List (Label Action) :=
  [.publish 3 true, .commit ⟨6, .edit 0 (.claim "t1" samplePayload "author" 199 none)⟩,
   .commit ⟨7, .edit 0 .commitFails⟩, .commit ⟨8, .edit 0 (.release none)⟩]

abbrev sampleStep : Announcing → Label Action → Option Announcing :=
  outboxStep (step sampleConfig) notices

theorem stale_only_behind_a_reload_sample : ∃ s₀ tr s,
    AnnouncingRun sampleConfig s₀ tr s ∧ (served s₀.base.record).isSome = true ∧
      served s.base.record = served s₀.base.record := by
  obtain ⟨s₀, -, hserved, hrest⟩ := Run.exists_of_exec
    (E := fun _ _ => True) (fun _ _ => trivial) enabledLabels
    (fun s₀ => (served s₀.base.record).isSome = true ∧ (exec sampleStep s₀ quietLabels).any
      (fun s => decide (s.sent.countP Notice.isReload = s₀.sent.countP Notice.isReload ∧
        s.lost.countP Notice.isReload = s₀.lost.countP Notice.isReload ∧
        ∀ m ∈ s.tails.flatten, m.isReload = false)) = true)
    (by decide +kernel : (exec sampleStep (start (initial sampleWorld)) enabledLabels).any _ = true)
  obtain ⟨s, hrun, hsent, hlost, hpending⟩ := Run.exists_of_exec
    (E := fun _ _ => True) (fun _ _ => trivial) quietLabels _ hrest
  exact ⟨s₀, _, s, hrun, hserved, (stale_only_behind_a_reload hrun ⟨hsent, hlost, hpending⟩).1.1⟩

end Matching

section Outcomes

def RevisionAction.isOutcome : RevisionAction → Bool
  | .buildSucceeded | .buildFailed => true
  | _ => false

/-- What an outcome revision records: which outcome, of which commit, and the
digest it produced. -/
abbrev Outcome := RevisionAction × Option String × Option String

def AutomationRevision.outcome (v : AutomationRevision) : Outcome := (v.action, v.gitSha, v.resultingDigest)

def outcomesOf (revisions : List AutomationRevision) : List Outcome :=
  (revisions.filter fun v => v.action.isOutcome).map AutomationRevision.outcome

def outcomes (record : Option Record) : List Outcome :=
  match record with
  | none => []
  | some r => outcomesOf r.revisions

/-- The outcome an event tells of. -/
def AutomationEvent.outcome (e : AutomationEvent) : Outcome :=
  if e.buildState = .idle then (.buildSucceeded, some e.commitSha, e.activeDigest)
  else (.buildFailed, some e.commitSha, none)

/-- The event tells of this row. -/
structure AutomationEvent.Of (e : AutomationEvent) (r : Record) : Prop where
  automationId : e.automationId = r.automation.id
  tenantId : e.tenantId = r.automation.tenantId
  live : e.matchingState ∉ deletionStates

theorem outcomesOf_own (vs : List AutomationRevision) {w : AutomationRevision}
    (h : w.action.isOutcome = true) : outcomesOf (vs ++ [w]) = outcomesOf vs ++ [w.outcome] := by
  simp only [outcomesOf, List.filter_append, List.filter_cons, h, if_true, List.filter_nil,
    List.map_append, List.map_cons, List.map_nil]

theorem outcomesOf_other (vs : List AutomationRevision) {w : AutomationRevision}
    (h : w.action.isOutcome = false) : outcomesOf (vs ++ [w]) = outcomesOf vs := by
  simp only [outcomesOf, List.filter_append, List.filter_cons, h, Bool.false_eq_true, if_false,
    List.filter_nil, List.append_nil]

/-- The stamp is put on requesting revisions, which are no outcomes. -/
theorem outcomesOf_stamp (event : CiWebhookIn) (vs : List AutomationRevision) :
    outcomesOf (vs.map (AutomationRevision.stamp event)) = outcomesOf vs := by
  induction vs with
  | nil => rfl
  | cons v vs ih =>
    unfold outcomesOf at ih ⊢
    have haction : (v.stamp event).action = v.action := AutomationRevision.stamp_action event v
    rw [List.map_cons, List.filter_cons, List.filter_cons, haction]
    cases hv : v.action.isOutcome with
    | false => exact ih
    | true =>
      have hnot : ¬(v.gitSha = some event.commitSha ∧ v.action.requesting = true) := by
        rintro ⟨-, hreq⟩
        cases ha : v.action <;>
          simp [ha, RevisionAction.isOutcome, RevisionAction.requesting] at hv hreq
      have hsame : v.stamp event = v := if_neg hnot
      rw [hsame]
      exact congrArg (v.outcome :: ·) ih

section Announcement

variable {now : Timestamp} {op : Op} {record record' : Option Record} {ns : List Notice}

/-- The outcomes a step records are those of the events it announces. -/
theorem Announcement.outcomes (h : Announcement now op record ns record') :
    KeepAutomation.outcomes record' = KeepAutomation.outcomes record ++
      (ns.filterMap Notice.event?).map AutomationEvent.outcome := by
  cases h with
  | silent => exact (List.append_nil _).symm
  | created => rfl
  | toggled r target action actor haction =>
    have hnot : action.isOutcome = false := by
      rcases haction with rfl | rfl
      · rfl
      · rfl
    exact (outcomesOf_other _ hnot).trans (List.append_nil _).symm
  | deleteAdmitted => exact (outcomesOf_other _ rfl).trans (List.append_nil _).symm
  | claimed => exact (List.append_nil _).symm
  | released r claim =>
    obtain ⟨_, _, _, he⟩ := releaseBuildClaim_frame claim r
    rw [he]
    exact (List.append_nil _).symm
  | edited => exact (outcomesOf_other _ rfl).trans (List.append_nil _).symm
  | buildFailed => exact outcomesOf_own _ rfl
  | cutOver r event =>
    have hown := outcomesOf_own (r.revisions.map (AutomationRevision.stamp event))
      (w := buildRevision event .buildSucceeded event.image now) (by rfl)
    rw [outcomesOf_stamp] at hown
    exact hown
  | checkpointed record completed ns hns =>
    have hnone : ns.filterMap Notice.event? = [] := by
      rcases hns with rfl | rfl
      · rfl
      · rfl
    rw [hnone, List.map_nil, List.append_nil]
    cases record with
    | none => rfl
    | some r =>
      obtain ⟨_, _, _, he⟩ := checkpoint_frame completed now r
      rw [Option.map_some, he]
      rfl

/-- The row stays the row of its tenant. -/
theorem Announcement.identity (h : Announcement now op record ns record') {r : Record}
    (hr : record = some r) : ∃ r', record' = some r' ∧ r'.automation.id = r.automation.id ∧
      r'.automation.tenantId = r.automation.tenantId := by
  cases h with
  | created => simp at hr
  | released r₁ claim =>
    obtain rfl := Option.some.inj hr
    obtain ⟨_, _, _, he⟩ := releaseBuildClaim_frame claim r₁
    exact ⟨_, rfl, by rw [he], by rw [he]⟩
  | checkpointed record completed =>
    subst hr
    obtain ⟨_, _, _, he⟩ := checkpoint_frame completed now r
    exact ⟨_, rfl, by rw [he], by rw [he]⟩
  | silent => exact ⟨r, hr, rfl, rfl⟩
  | _ =>
    obtain rfl := Option.some.inj hr
    exact ⟨_, rfl, rfl, rfl⟩

/-- An event is announced of the row it tells of, while that is alive. -/
theorem Announcement.event (h : Announcement now op record ns record') {e : AutomationEvent}
    (he : .event e ∈ ns) : ∃ r', record' = some r' ∧ e.Of r' := by
  cases h with
  | buildFailed r event hadm =>
    rw [List.mem_singleton, Notice.event.injEq] at he
    subst he
    exact ⟨_, rfl, rfl, rfl, (admission_none hadm).1⟩
  | cutOver r event created hre =>
    simp only [List.mem_cons, reduceCtorEq, Notice.event.injEq, List.not_mem_nil, or_false,
      false_or] at he
    subst he
    exact ⟨_, rfl, rfl, rfl, (recheck_none hre).1⟩
  | checkpointed _ _ _ hns =>
    rcases hns with rfl | rfl
    · simp at he
    · simp at he
  | _ => simp at he

end Announcement

/-- The invariant: the events there are, sent or not, are those of the recorded
outcomes. -/
structure EventsKept (s : Announcing) : Prop where
  outcomes : (s.all.filterMap Notice.event?).map AutomationEvent.outcome =
    (outcomes s.base.record : Multiset Outcome)
  events : ∀ e, .event e ∈ s.all → ∃ r, s.base.record = some r ∧ e.Of r

theorem EventsKept.commit {cfg : Config} {s s' : Announcing} {a : Action} (h : EventsKept s)
    (hstep : outboxStep (step cfg) notices s (.commit a) = some s') : EventsKept s' := by
  have hall := all_step hstep
  obtain ⟨b, hb, rfl⟩ := Option.map_eq_some_iff.mp hstep
  have hann := step_announces hb
  simp only [announced] at hall
  constructor
  · rw [hall, Multiset.filterMap_add, Multiset.map_add, h.outcomes, hann.outcomes, ← Multiset.coe_add]
    rfl
  · intro e he
    rw [hall, Multiset.mem_add, Multiset.mem_coe] at he
    rcases he with he | he
    · obtain ⟨r, hr, hof⟩ := h.events e he
      obtain ⟨r', hr', hid, htenant⟩ := hann.identity hr
      exact ⟨r', hr', hof.automationId.trans hid.symm, hof.tenantId.trans htenant.symm, hof.live⟩
    · exact hann.event he

/-- Every recorded build outcome has exactly one event, of its commit and digest,
and there is no other: published, still to be published or lost. Each names the
row and its tenant, and none was made in a deletion. -/
theorem events_match_outcomes {cfg : Config} {world : World} {tr : Trace Announcing (Label Action)}
    {s : Announcing} (hrun : AnnouncingRun cfg (start (initial world)) tr s) :
    (s.all.filterMap Notice.event?).map AutomationEvent.outcome =
        (outcomes s.base.record : Multiset Outcome) ∧
      ∀ e, .event e ∈ s.all → ∃ r, s.base.record = some r ∧ e.Of r := by
  have hkept : EventsKept s := by
    apply hrun.invariant (I := EventsKept)
    · exact ⟨rfl, fun e he => by simp [State.all, State.pending, start] at he⟩
    intro s l s' hs _ hstep
    -- only a commit adds an event or touches the row
    have hall := all_step hstep
    rcases outboxStep_cases hstep with ⟨a, b, rfl, -, -⟩ | ⟨i, m, ms, rfl, -, rfl⟩ |
      ⟨i, m, ms, rfl, -, rfl⟩ | ⟨i, ms, rfl, -, rfl⟩
    · exact hs.commit hstep
    all_goals
      simp only [announced, Multiset.coe_nil, add_zero] at hall
      constructor
      · rw [hall]
        exact hs.outcomes
      · rw [hall]
        exact hs.events
  exact ⟨hkept.outcomes, hkept.events⟩

theorem events_match_outcomes_sample : ∃ tr s,
    AnnouncingRun sampleConfig (start (initial sampleWorld)) tr s ∧
      (s.all.filterMap Notice.event?).map AutomationEvent.outcome =
        {(.buildSucceeded, some firstSha, some (sampleImage 'a'))} := by
  obtain ⟨s, hrun, houtcomes⟩ := Run.exists_of_exec
    (E := fun _ _ => True) (fun _ _ => trivial) enabledLabels
    (fun s => outcomes s.base.record = [(.buildSucceeded, some firstSha, some (sampleImage 'a'))])
    (by decide +kernel : (exec sampleStep (start (initial sampleWorld)) enabledLabels).any _ = true)
  refine ⟨_, s, hrun, ?_⟩
  rw [(events_match_outcomes hrun).1, houtcomes]
  rfl

end Outcomes

section Messages

open PythonText PythonJson

def BuildState.value : BuildState → String
  | .idle => "idle"
  | .building => "building"
  | .buildFailed => "build_failed"

def MatchingState.value : MatchingState → String
  | .inactive => "inactive"
  | .active => "active"
  | .deleting => "deleting"
  | .deleted => "deleted"

def buildEventType : String := "build"

/-- The dict of an event. -/
def AutomationEvent.members (e : AutomationEvent) : Members :=
  [(lit "type", some (lit buildEventType)),
   (lit "automation_id", some (lit e.automationId.str)),
   (lit "tenant_id", some (lit e.tenantId)),
   (lit "commit_sha", some (lit e.commitSha)),
   (lit "build_state", some (lit e.buildState.value)),
   (lit "matching_state", some (lit e.matchingState.value)),
   (lit "active_digest", e.activeDigest.map lit)]

/-- What goes out on the channel of the events. -/
def AutomationEvent.message (e : AutomationEvent) : Str := dumps e.members

theorem BuildState.value_injective : Function.Injective BuildState.value := by
  intro a b h
  cases a <;> cases b <;> first | rfl | exact absurd h (by decide)

theorem MatchingState.value_injective : Function.Injective MatchingState.value := by
  intro a b h
  cases a <;> cases b <;> first | rfl | exact absurd h (by decide)

theorem AutomationEvent.members_encodable (e : AutomationEvent) : Encodable e.members := by
  intro m hm
  simp only [AutomationEvent.members, List.mem_cons, List.not_mem_nil, or_false] at hm
  have hlit (s : String) : ∀ t ∈ some (lit s), IsUtf8 t := by
    intro t ht
    obtain rfl := Option.some.inj ht
    exact isUtf8_lit s
  rcases hm with rfl | rfl | rfl | rfl | rfl | rfl | rfl
  iterate 6 exact ⟨isUtf8_lit _, hlit _⟩
  refine ⟨isUtf8_lit _, ?_⟩
  cases e.activeDigest with
  | none => exact fun t ht => absurd ht (by simp)
  | some digest => exact hlit digest

theorem AutomationEvent.members_injective : Function.Injective AutomationEvent.members := by
  intro e e' h
  simp only [AutomationEvent.members, List.cons.injEq, Prod.mk.injEq, Option.some.injEq, true_and,
    and_true] at h
  obtain ⟨hid, htenant, hsha, hbuild, hmatching, hdigest⟩ := h
  obtain ⟨id, tenantId, sha, buildState, matchingState, digest⟩ := e
  obtain ⟨id', tenantId', sha', buildState', matchingState', digest'⟩ := e'
  simp only [AutomationEvent.mk.injEq]
  refine ⟨UUID.str_injective (lit_injective hid), lit_injective htenant, lit_injective hsha,
    BuildState.value_injective (lit_injective hbuild),
    MatchingState.value_injective (lit_injective hmatching), ?_⟩
  exact Option.map_injective lit_injective hdigest

/-- A subscriber reads back the event that was published, whatever its strings
hold: no text of one event can pass for another, of another tenant say. The
message is printable ASCII, one line. -/
theorem event_message_round_trip (e : AutomationEvent) :
    loads e.message = some e.members ∧ (∀ e', e'.message = e.message → e' = e) ∧
      ∀ c ∈ e.message, 0x20 ≤ c.val ∧ c.val ≤ 0x7e := by
  refine ⟨loads_dumps e.members_encodable, ?_, ?_⟩
  · intro e' h
    apply AutomationEvent.members_injective
    exact dumps_injective e'.members_encodable e.members_encodable h
  · intro c hc
    exact dumps_printable hc

end Messages

end KeepAutomation
