import KeepAutomation.FaultyTransaction
import KeepAutomation.RunFinalization
import KeepAutomation.Sample
import KeepAutomation.UserTier

/-! The requests that are one transaction, with every point at which they may
raise: before the commit, in it, and in the refresh behind it. -/
namespace KeepAutomation

open TransitionSystem FaultyTransaction

/-- What a request does after its transaction has begun, in order. -/
inductive Effect where
  | commit | publishReload
  deriving DecidableEq, Repr

inductive Request where
  | create (tenantId : String) (data : AutomationIn) (actor gitSha : String) (deadline : Timestamp)
  | enable (tenantId actor : String)
  | disable (tenantId actor : String)
  | beginDelete (tenantId actor : String)

/-- The git call of a create raises, or its transaction does. -/
inductive RequestFault where
  | git (error : Error)
  | transaction (fault : Fault Error)
  deriving DecidableEq

structure RequestOutcome where
  result : Except Error Result
  record : Option Record
  effects : List Effect

abbrev RowPlan := Plan (Option Record) Error Result

/-- The insert of a create; the primary key is unique. -/
def createPlan (tenantId : String) (automationId : UUID) (data : AutomationIn) (actor gitSha : String)
    (deadline now : Timestamp) (record : Option Record) : RowPlan :=
  match record with
  | some _ => .refuse .sqlAlchemyError
  | none =>
    let r := createAutomation tenantId automationId data actor gitSha deadline now
    .write (some r) (.automation r.automation)

def togglePlan (target : MatchingState) (action : RevisionAction) (tenantId actor : String)
    (now : Timestamp) (record : Option Record) : RowPlan :=
  match toggle target action tenantId actor now record with
  | .error e => .refuse e
  | .ok r => .write (some r) (.automation r.automation)

/-- A repeated delete reads the row and commits nothing. -/
def beginDeletePlan (tenantId actor : String) (now : Timestamp) (record : Option Record) : RowPlan :=
  match beginDelete tenantId actor now record with
  | .error e => .refuse e
  | .ok d =>
    let answer := .admission d.record.automation d.started
    -- not started: the session ends without a commit
    if d.started then .write (some d.record) answer else .read answer

/-- The signal goes out after the session, when nothing has raised. -/
def signalled (o : Outcome (Option Record) Error Result) : RequestOutcome where
  result := o.result
  record := o.store
  effects :=
    if o.committed then .commit :: (if o.result.toOption.isSome then [.publishReload] else []) else []

/-- A create signals nothing: an inactive automation matches no event. -/
def unsignalled (o : Outcome (Option Record) Error Result) : RequestOutcome where
  result := o.result
  record := o.store
  effects := if o.committed then [.commit] else []

def raisedWith (e : Error) (record : Option Record) : RequestOutcome := ⟨.error e, record, []⟩

/-- The fault of the transaction; a git fault is none of its. -/
def RequestFault.inTransaction : Option RequestFault → Option (Fault Error)
  | some (.transaction f) => some f
  | _ => none

def Request.plan (cfg : Config) (now : Timestamp) : Request → Option Record → RowPlan
  | .create tenantId data actor gitSha deadline =>
    createPlan tenantId cfg.automationId data actor gitSha deadline now
  | .enable tenantId actor => togglePlan .active .enable tenantId actor now
  | .disable tenantId actor => togglePlan .inactive .disable tenantId actor now
  | .beginDelete tenantId actor => beginDeletePlan tenantId actor now

/-- What a request raises before its transaction. -/
def Request.refusal (cfg : Config) (fault : Option RequestFault) : Request → Option Error
  | .create _ data _ _ _ =>
    if cfg.validateAutomation data ≠ [] then
      some (.automationValidationError (cfg.validateAutomation data))
    else
      match fault with
      | some (.git e) => some e
      | _ => none
  | _ => none

def Request.answerWith : Request → Outcome (Option Record) Error Result → RequestOutcome
  | .create _ _ _ _ _ => unsignalled
  | _ => signalled

def Request.call (cfg : Config) (now : Timestamp) (fault : Option RequestFault)
    (record : Option Record) (request : Request) : RequestOutcome :=
  match request.refusal cfg fault with
  | some e => raisedWith e record
  | none =>
    request.answerWith (run (RequestFault.inTransaction fault) (request.plan cfg now) record)

/-- The request passes its checks and comes to its commit. -/
def Request.Commits (cfg : Config) (record : Option Record) : Request → Prop
  | .create _ data _ _ _ => cfg.validateAutomation data = [] ∧ record = none
  | .enable tenantId _ => ∃ r, record = some r ∧ r.automation.tenantId = tenantId ∧
      r.automation.matchingState ∉ deletionStates ∧ blank r.automation.activeDigest = false
  | .disable tenantId _ => ∃ r, record = some r ∧ r.automation.tenantId = tenantId ∧
      r.automation.matchingState ∉ deletionStates
  | .beginDelete tenantId _ => ∃ r, record = some r ∧ r.automation.tenantId = tenantId ∧
      r.automation.matchingState ∉ deletionStates ∧ r.automation.buildState ≠ .building

/-- The effects of a request that has gone through. -/
def Request.signals : Request → List Effect
  | .create _ _ _ _ _ => [.commit]
  | _ => [.commit, .publishReload]

/-- A transition of the matching axis and its one revision: every other column and
every older revision is as before. -/
structure Transitioned (r r' : Record) (target : MatchingState) (action : RevisionAction)
    (actor : String) (now : Timestamp) (deleteCascadeStep : Option ℕ) : Prop where
  automation : r'.automation = { r.automation with
    matchingState := target
    deleteCascadeStep := deleteCascadeStep
    indexGeneration := r.automation.indexGeneration+1
    updatedBy := actor
    updatedAt := now }
  revisions : r'.revisions = r.revisions ++
    [⟨r.automation.id, action, none, r.automation.activeDigest, actor, now⟩]

/-- The row a request commits, against the row it has found. -/
def Request.Writes (cfg : Config) (now : Timestamp) (record : Option Record) (r' : Record) :
    Request → Prop
  | .create tenantId data actor gitSha deadline =>
    record = none ∧ r' = createAutomation tenantId cfg.automationId data actor gitSha deadline now
  | .enable tenantId actor => ∃ r, record = some r ∧ r.automation.tenantId = tenantId ∧
      Transitioned r r' .active .enable actor now r.automation.deleteCascadeStep
  | .disable tenantId actor => ∃ r, record = some r ∧ r.automation.tenantId = tenantId ∧
      Transitioned r r' .inactive .disable actor now r.automation.deleteCascadeStep
  | .beginDelete tenantId actor => ∃ r, record = some r ∧ r.automation.tenantId = tenantId ∧
      Transitioned r r' .deleting .delete actor now (some stepMarkedDeleting)

/-- What a request that has written a row returns. -/
def Request.answer (request : Request) (r : Record) : Result :=
  match request with
  | .beginDelete _ _ => .admission r.automation true
  | _ => .automation r.automation

/-- The request is done: its row is committed and signalled. A repeated delete is
answered with the row and does nothing. -/
inductive Request.Done (cfg : Config) (now : Timestamp) (record : Option Record) (o : RequestOutcome) :
    Request → Result → Prop
  | committed {request : Request} (r : Record) (hwrites : request.Writes cfg now record r)
      (hrecord : o.record = some r) (heffects : o.effects = request.signals) :
      Request.Done cfg now record o request (request.answer r)
  | repeated {tenantId actor : String} (r : Record) (hr : record = some r)
      (htenant : r.automation.tenantId = tenantId) (hdel : r.automation.matchingState ∈ deletionStates)
      (hrecord : o.record = record) (heffects : o.effects = []) :
      Request.Done cfg now record o (.beginDelete tenantId actor) (.admission r.automation false)

/-- Raised means nothing happened, returned means it is done and signalled. -/
structure AllOrNothing (cfg : Config) (now : Timestamp) (request : Request) (record : Option Record)
    (o : RequestOutcome) : Prop where
  raised : ∀ e, o.result = .error e → o.record = record
  returned : ∀ answer, o.result = .ok answer → Request.Done cfg now record o request answer

theorem Record.transition_transitioned (r : Record) (target : MatchingState) (action : RevisionAction)
    (actor : String) (now : Timestamp) : Transitioned r (r.transition target action actor now) target
      action actor now r.automation.deleteCascadeStep := ⟨rfl, rfl⟩

theorem Record.markDeleting_transitioned (r : Record) (actor : String) (now : Timestamp) :
    Transitioned r (r.markDeleting actor now) .deleting .delete actor now
      (some stepMarkedDeleting) := ⟨rfl, rfl⟩

@[simp] theorem answerWith_result (request : Request) (o : Outcome (Option Record) Error Result) :
    (request.answerWith o).result = o.result := by
  cases request <;> rfl

@[simp] theorem answerWith_record (request : Request) (o : Outcome (Option Record) Error Result) :
    (request.answerWith o).record = o.store := by
  cases request <;> rfl

theorem answerWith_done (request : Request) (store : Option Record) (answer : Result) :
    (request.answerWith ⟨.ok answer, store, true⟩).effects = request.signals := by
  cases request <;> rfl

theorem answerWith_idle (request : Request) (result : Except Error Result) (store : Option Record) :
    (request.answerWith ⟨result, store, false⟩).effects = [] := by
  cases request <;> rfl

theorem togglePlan_write {target : MatchingState} {action : RevisionAction} {tenantId actor : String}
    {now : Timestamp} {record store : Option Record} {answer : Result}
    (h : togglePlan target action tenantId actor now record = .write store answer) :
    ∃ r, toggle target action tenantId actor now record = .ok r ∧ store = some r ∧
      answer = .automation r.automation := by
  unfold togglePlan at h
  split at h
  · simp at h
  · next r hr =>
    obtain ⟨rfl, rfl⟩ := Plan.write.inj h
    exact ⟨r, hr, rfl, rfl⟩

/-- What a request writes and returns. -/
theorem Request.plan_write {cfg : Config} {now : Timestamp} {record store : Option Record}
    {answer : Result} {request : Request} (h : request.plan cfg now record = .write store answer) :
    ∃ r, store = some r ∧ request.Writes cfg now record r ∧ answer = request.answer r := by
  cases request with
  | create tenantId data actor gitSha deadline =>
    simp only [Request.plan, createPlan] at h
    split at h
    · simp at h
    · obtain ⟨rfl, rfl⟩ := Plan.write.inj h
      exact ⟨_, rfl, ⟨rfl, rfl⟩, rfl⟩
  | enable tenantId actor =>
    obtain ⟨r', ht, rfl, rfl⟩ := togglePlan_write h
    obtain ⟨r, rfl, htenant, -, -, rfl⟩ := toggle_ok ht
    exact ⟨_, rfl, ⟨r, rfl, htenant, r.transition_transitioned ..⟩, rfl⟩
  | disable tenantId actor =>
    obtain ⟨r', ht, rfl, rfl⟩ := togglePlan_write h
    obtain ⟨r, rfl, htenant, -, -, rfl⟩ := toggle_ok ht
    exact ⟨_, rfl, ⟨r, rfl, htenant, r.transition_transitioned ..⟩, rfl⟩
  | beginDelete tenantId actor =>
    simp only [Request.plan, beginDeletePlan] at h
    split at h
    · simp at h
    · next d hd =>
      split at h
      · next hstarted =>
        obtain ⟨rfl, rfl⟩ := Plan.write.inj h
        obtain ⟨r, rfl, htenant, ⟨-, rfl⟩ | ⟨-, -, rfl⟩⟩ := beginDelete_ok hd
        · simp at hstarted
        · exact ⟨_, rfl, ⟨r, rfl, htenant, r.markDeleting_transitioned ..⟩, rfl⟩
      · simp at h

/-- What a request only reads: the row of a deletion that has begun. -/
theorem Request.plan_read {cfg : Config} {now : Timestamp} {record : Option Record}
    {answer : Result} {request : Request} (h : request.plan cfg now record = .read answer) :
    ∃ r tenantId actor, request = .beginDelete tenantId actor ∧ record = some r ∧
      r.automation.tenantId = tenantId ∧ r.automation.matchingState ∈ deletionStates ∧
      answer = .admission r.automation false := by
  cases request with
  | create tenantId data actor gitSha deadline =>
    simp only [Request.plan, createPlan] at h
    split at h
    · simp at h
    · simp at h
  | enable tenantId actor =>
    simp only [Request.plan, togglePlan] at h
    split at h
    · simp at h
    · simp at h
  | disable tenantId actor =>
    simp only [Request.plan, togglePlan] at h
    split at h
    · simp at h
    · simp at h
  | beginDelete tenantId actor =>
    simp only [Request.plan, beginDeletePlan] at h
    split at h
    · simp at h
    · next d hd =>
      split at h
      · simp at h
      · obtain rfl := Plan.read.inj h
        obtain ⟨r, rfl, htenant, ⟨hdel, rfl⟩ | ⟨-, -, rfl⟩⟩ := beginDelete_ok hd
        · exact ⟨r, tenantId, actor, rfl, rfl, htenant, hdel, rfl⟩
        · next hstarted => simp at hstarted

theorem toggle_of {target : MatchingState} {action : RevisionAction} {tenantId actor : String}
    {now : Timestamp} {r : Record} (htenant : r.automation.tenantId = tenantId)
    (hlive : r.automation.matchingState ∉ deletionStates)
    (hdigest : target = .active → blank r.automation.activeDigest = false) :
    toggle target action tenantId actor now (some r) = .ok (r.transition target action actor now) := by
  have hchecked : ¬ (target = .active ∧ blank r.automation.activeDigest = true) := by
    rintro ⟨htarget, hblank⟩
    rw [hdigest htarget] at hblank
    exact Bool.false_ne_true hblank
  simp only [toggle, scopedGet, htenant, if_true, if_neg hlive, if_neg hchecked]

theorem beginDelete_of {tenantId actor : String} {now : Timestamp} {r : Record}
    (htenant : r.automation.tenantId = tenantId) (hlive : r.automation.matchingState ∉ deletionStates)
    (hbuild : r.automation.buildState ≠ .building) :
    beginDelete tenantId actor now (some r) = .ok ⟨r.markDeleting actor now, true⟩ := by
  simp only [beginDelete, scopedGet, htenant, if_true, if_neg hlive, if_neg hbuild]

/-- A request comes to its write exactly when it passes its checks. -/
theorem Request.commits_iff (cfg : Config) (now : Timestamp) (record : Option Record)
    (request : Request) : request.Commits cfg record ↔
      request.refusal cfg none = none ∧
        ∃ store answer, request.plan cfg now record = .write store answer := by
  constructor
  · intro h
    cases request with
    | create tenantId data actor gitSha deadline =>
      obtain ⟨hvalid, rfl⟩ := h
      exact ⟨by simp [Request.refusal, hvalid], _, _, rfl⟩
    | enable tenantId actor =>
      obtain ⟨r, rfl, htenant, hlive, hdigest⟩ := h
      refine ⟨rfl, some (r.transition .active .enable actor now),
        .automation (r.transition .active .enable actor now).automation, ?_⟩
      simp only [Request.plan, togglePlan, toggle_of htenant hlive fun _ => hdigest]
    | disable tenantId actor =>
      obtain ⟨r, rfl, htenant, hlive⟩ := h
      refine ⟨rfl, some (r.transition .inactive .disable actor now),
        .automation (r.transition .inactive .disable actor now).automation, ?_⟩
      have htoggle := @toggle_of .inactive .disable tenantId actor now r htenant hlive (by simp)
      simp only [Request.plan, togglePlan, htoggle]
    | beginDelete tenantId actor =>
      obtain ⟨r, rfl, htenant, hlive, hbuild⟩ := h
      refine ⟨rfl, some (r.markDeleting actor now),
        .admission (r.markDeleting actor now).automation true, ?_⟩
      simp only [Request.plan, beginDeletePlan, beginDelete_of htenant hlive hbuild, if_true]
  · rintro ⟨hrefusal, store, answer, hplan⟩
    cases request with
    | create tenantId data actor gitSha deadline =>
      have hvalid : cfg.validateAutomation data = [] := by
        by_contra hne
        simp [Request.refusal, hne] at hrefusal
      refine ⟨hvalid, ?_⟩
      simp only [Request.plan, createPlan] at hplan
      split at hplan
      · simp at hplan
      · rfl
    | enable tenantId actor =>
      obtain ⟨r', ht, -, -⟩ := togglePlan_write hplan
      obtain ⟨r, hr, htenant, hlive, hdigest, -⟩ := toggle_ok ht
      exact ⟨r, hr, htenant, hlive, hdigest rfl⟩
    | disable tenantId actor =>
      obtain ⟨r', ht, -, -⟩ := togglePlan_write hplan
      obtain ⟨r, hr, htenant, hlive, -, -⟩ := toggle_ok ht
      exact ⟨r, hr, htenant, hlive⟩
    | beginDelete tenantId actor =>
      simp only [Request.plan, beginDeletePlan] at hplan
      split at hplan
      · simp at hplan
      · next d hd =>
        obtain ⟨r, hr, htenant, ⟨-, rfl⟩ | ⟨hlive, hbuild, -⟩⟩ := beginDelete_ok hd
        · simp at hplan
        · exact ⟨r, hr, htenant, hlive, hbuild⟩

/-- The refresh behind the commit raises. -/
def RequestFault.AtRefresh (fault : Option RequestFault) : Prop :=
  ∃ e, fault = some (.transaction ⟨.refresh, e⟩)

theorem Request.torn_iff (cfg : Config) (now : Timestamp) (fault : Option RequestFault)
    (record : Option Record) (request : Request) :
    (request.refusal cfg fault = none ∧
        Torn (RequestFault.inTransaction fault) (request.plan cfg now) record) ↔
      RequestFault.AtRefresh fault ∧ request.Commits cfg record := by
  -- only a create can be stopped before its transaction, and by git
  have hsame : RequestFault.AtRefresh fault → request.refusal cfg fault = request.refusal cfg none := by
    rintro ⟨e, rfl⟩
    cases request <;> rfl
  constructor
  · rintro ⟨hrefusal, ⟨f, hf, hpoint⟩, hwrite⟩
    have hrefresh : RequestFault.AtRefresh fault := by
      cases fault with
      | none => simp [RequestFault.inTransaction] at hf
      | some fault =>
        cases fault with
        | git e => simp [RequestFault.inTransaction] at hf
        | transaction f' =>
          obtain rfl : f' = f := by simpa [RequestFault.inTransaction] using hf
          obtain ⟨point, e⟩ := f'
          exact ⟨e, by rw [show point = .refresh from hpoint]⟩
    exact ⟨hrefresh, (request.commits_iff cfg now record).mpr ⟨hsame hrefresh ▸ hrefusal, hwrite⟩⟩
  · rintro ⟨hrefresh, hcommits⟩
    obtain ⟨hrefusal, hwrite⟩ := (request.commits_iff cfg now record).mp hcommits
    refine ⟨(hsame hrefresh).trans hrefusal, ?_, hwrite⟩
    obtain ⟨e, rfl⟩ := hrefresh
    exact ⟨⟨.refresh, e⟩, rfl, rfl⟩

/-- A request that writes changes the table. -/
theorem Request.plan_write_ne {cfg : Config} {now : Timestamp} {record store : Option Record}
    {answer : Result} {request : Request} (h : request.plan cfg now record = .write store answer) :
    store ≠ record := by
  have hgrows {r r' : Record} {target : MatchingState} {action : RevisionAction} {actor : String}
      {step : Option ℕ} (hr : Transitioned r r' target action actor now step) : some r' ≠ some r := by
    intro hsame
    have hlength := congrArg List.length hr.revisions
    rw [Option.some.inj hsame, List.length_append, List.length_singleton] at hlength
    omega
  obtain ⟨r', rfl, hwrites, -⟩ := Request.plan_write h
  cases request with
  | create tenantId data actor gitSha deadline =>
    rw [hwrites.1]
    simp
  | enable tenantId actor =>
    obtain ⟨r, rfl, -, hr⟩ := hwrites
    exact hgrows hr
  | disable tenantId actor =>
    obtain ⟨r, rfl, -, hr⟩ := hwrites
    exact hgrows hr
  | beginDelete tenantId actor =>
    obtain ⟨r, rfl, -, hr⟩ := hwrites
    exact hgrows hr

/-- A request does all of it or nothing, unless its refresh raises behind the
commit. -/
theorem Request.allOrNothing_iff (cfg : Config) (now : Timestamp) (fault : Option RequestFault)
    (record : Option Record) (request : Request) :
    AllOrNothing cfg now request record (request.call cfg now fault record) ↔
      ¬ (RequestFault.AtRefresh fault ∧ request.Commits cfg record) := by
  rw [← request.torn_iff cfg now fault record]
  cases hrefusal : request.refusal cfg fault with
  | some e =>
    have hcall : request.call cfg now fault record = raisedWith e record := by
      simp [Request.call, hrefusal]
    rw [hcall]
    refine iff_of_true ⟨fun _ _ => rfl, ?_⟩ (by simp)
    intro answer hok
    simp [raisedWith] at hok
  | none =>
    have hcall : request.call cfg now fault record = request.answerWith
        (run (RequestFault.inTransaction fault) (request.plan cfg now) record) := by
      simp [Request.call, hrefusal]
    rw [hcall]
    simp only [true_and]
    constructor
    -- torn: the caller is told of a failure over a row that has changed
    · intro h htorn
      obtain ⟨e, store, answer, hplan, hrun⟩ := run_torn htorn
      have hraised := h.raised e (by rw [answerWith_result, hrun])
      rw [answerWith_record, hrun] at hraised
      exact Request.plan_write_ne hplan hraised
    · intro hwhole
      constructor
      · intro e he
        rw [answerWith_result] at he
        rw [answerWith_record, (run_error hwhole he).1]
      · intro answer hok
        rw [answerWith_result] at hok
        -- returned without a commit only by a repeated delete
        rcases run_ok hok with ⟨hplan, hrun⟩ | ⟨store, hplan, hrun⟩
        · obtain ⟨r, tenantId, actor, rfl, hr, htenant, hdel, rfl⟩ := Request.plan_read hplan
          rw [hrun]
          exact .repeated r hr htenant hdel (answerWith_record _ _) (answerWith_idle _ _ _)
        · obtain ⟨r, rfl, hwrites, rfl⟩ := Request.plan_write hplan
          rw [hrun]
          exact .committed r hwrites (answerWith_record _ _) (answerWith_done _ _ _)

/-- A row is put into its deletion by a delete only. -/
theorem RowMove.inDeletion_before {s : State} {now : Timestamp} {r r' : Record} {op : Op}
    (h : RowMove s now r op r') (hop : ∀ tenantId actor, op ≠ .beginDelete tenantId actor)
    (hdel : r'.automation.matchingState ∈ deletionStates) :
    r.automation.matchingState ∈ deletionStates := by
  cases h with
  | enabled => simp [Record.transition] at hdel
  | disabled => simp [Record.transition] at hdel
  | deleteAdmitted => exact absurd rfl (hop _ _)
  | @released p claim =>
    obtain ⟨_, _, _, he⟩ := releaseBuildClaim_frame claim r
    rw [he] at hdel
    exact hdel
  | @checkpointed p a n completed =>
    rcases checkpoint_cases completed now r with he | ⟨hdeleting, -, -⟩
    · rw [he] at hdel
      exact hdel
    · simp [hdeleting]
  | _ => exact hdel

def Op.request? : Op → Option Request
  | .create tenantId data actor gitSha deadline => some (.create tenantId data actor gitSha deadline)
  | .enable tenantId actor => some (.enable tenantId actor)
  | .disable tenantId actor => some (.disable tenantId actor)
  | .beginDelete tenantId actor => some (.beginDelete tenantId actor)
  | _ => none

structure RequestAction where
  now : Timestamp
  op : Op
  fault : Option RequestFault

/-- The world after a request: a create that passes its checks and its git call
has committed the script, whatever becomes of the row. -/
def Request.leaves (cfg : Config) (fault : Option RequestFault) (w : World) : Request → World
  | .create tenantId data actor gitSha deadline =>
    -- the commit comes before the insert and is not taken back
    if (Request.create tenantId data actor gitSha deadline).refusal cfg fault = none then
      w.commitScript gitSha
    else w
  | _ => w

/-- The system of one automation with faults at every point of its requests. -/
def faultyStep (cfg : Config) (s : State) (a : RequestAction) : Option State :=
  match a.op.request? with
  | none => step cfg s ⟨a.now, a.op⟩
  | some request =>
    if s.clock < a.now then
      some { s with
        record := (request.call cfg a.now a.fault s.record).record
        world := request.leaves cfg a.fault s.world
        clock := a.now }
    else none

/-- Without a fault a request leaves the row its plan writes. -/
theorem Request.call_record_of_none {cfg : Config} {request : Request}
    (hrefusal : request.refusal cfg none = none) (now : Timestamp) (record : Option Record) :
    (request.call cfg now none record).record = (request.plan cfg now record).after record := by
  rw [Request.call, hrefusal]
  exact (answerWith_record _ _).trans (run_none_store _ record)

theorem togglePlan_after (target : MatchingState) (action : RevisionAction) (tenantId actor : String)
    (now : Timestamp) (record : Option Record) :
    (togglePlan target action tenantId actor now record).after record =
      committed (toggle target action tenantId actor now record) record := by
  unfold togglePlan
  cases toggle target action tenantId actor now record <;> rfl

theorem beginDeletePlan_after (tenantId actor : String) (now : Timestamp) (record : Option Record) :
    (beginDeletePlan tenantId actor now record).after record =
      committed ((beginDelete tenantId actor now record).map DeleteAdmission.record) record := by
  unfold beginDeletePlan
  cases hd : beginDelete tenantId actor now record with
  | error e => rfl
  | ok d =>
    obtain ⟨r, rfl, -, ⟨-, rfl⟩ | ⟨-, -, rfl⟩⟩ := beginDelete_ok hd
    · rfl
    · rfl

/-- The faulty system does every step of the system without faults. -/
theorem faultyStep_of_step {cfg : Config} {s s' : State} {now : Timestamp} {op : Op}
    (h : step cfg s ⟨now, op⟩ = some s') : faultyStep cfg s ⟨now, op, none⟩ = some s' := by
  have hclock := (step_move h).1
  dsimp only at hclock
  cases op with
  | create tenantId data actor gitSha deadline =>
    simp only [step, hclock, if_true, apply] at h
    split at h
    · next hfree =>
      obtain rfl := Option.some.inj h
      have hrefusal : (Request.create tenantId data actor gitSha deadline).refusal cfg none = none := by
        simp [Request.refusal, hfree.2]
      simp only [faultyStep, Op.request?, hclock, if_true, Request.call_record_of_none hrefusal,
        Request.leaves, hrefusal, Option.some.injEq]
      rw [Option.isNone_iff_eq_none.mp hfree.1]
      rfl
    · simp at h
  | enable tenantId actor =>
    simp only [step, hclock, if_true, apply] at h
    obtain rfl := Option.some.inj h
    simp only [faultyStep, Op.request?, hclock, if_true, Option.some.injEq]
    rw [Request.call_record_of_none rfl, Request.plan, togglePlan_after]
    rfl
  | disable tenantId actor =>
    simp only [step, hclock, if_true, apply] at h
    obtain rfl := Option.some.inj h
    simp only [faultyStep, Op.request?, hclock, if_true, Option.some.injEq]
    rw [Request.call_record_of_none rfl, Request.plan, togglePlan_after]
    rfl
  | beginDelete tenantId actor =>
    simp only [step, hclock, if_true, apply] at h
    obtain rfl := Option.some.inj h
    simp only [faultyStep, Op.request?, hclock, if_true, Option.some.injEq]
    rw [Request.call_record_of_none rfl, Request.plan, beginDeletePlan_after]
    rfl
  | _ => exact h

def anyFault (_ : State) (_ : RequestAction) : Prop := True

abbrev FaultyTrace := Trace State RequestAction

/-- Runs from before the creation. -/
def FaultyReached (cfg : Config) (tr : FaultyTrace) (s : State) : Prop :=
  ∃ world, Run (faultyStep cfg) anyFault (initial world) tr s

/-- The call the transition is, if it is a delete. -/
def deleteOutcome (cfg : Config) (t : Transition State RequestAction) : Option RequestOutcome :=
  match t.act.op with
  | .beginDelete tenantId actor =>
    some ((Request.beginDelete tenantId actor).call cfg t.act.now t.act.fault t.pre.record)
  | _ => none

/-- The answer of a delete that starts the cascade. -/
def Result.started : Result → Bool
  | .admission _ started => started
  | _ => false

/-- A delete returns that it has started the deletion. -/
def startsDelete (cfg : Config) (t : Transition State RequestAction) : Bool :=
  (deleteOutcome cfg t).any fun o =>
    match o.result with
    | .ok answer => answer.started
    | .error _ => false

/-- A delete is admitted and its refresh raises behind the commit. -/
def LosesDelete (cfg : Config) (t : Transition State RequestAction) : Prop :=
  ∃ tenantId actor, t.act.op = .beginDelete tenantId actor ∧ RequestFault.AtRefresh t.act.fault ∧
    (Request.beginDelete tenantId actor).Commits cfg t.pre.record

/-- A transition is quiet, or it begins the deletion and is heard or lost. -/
inductive DeletionMove (cfg : Config) (t : Transition State RequestAction) : Prop
  | quiet (hstart : startsDelete cfg t = false) (hlost : ¬ LosesDelete cfg t)
      (hsame : t.post.inDeletion ↔ t.pre.inDeletion)
  | started (hstart : startsDelete cfg t = true) (hlost : ¬ LosesDelete cfg t)
      (hbefore : ¬ t.pre.inDeletion) (hafter : t.post.inDeletion)
  | lost (hstart : startsDelete cfg t = false) (hlost : LosesDelete cfg t)
      (hbefore : ¬ t.pre.inDeletion) (hafter : t.post.inDeletion)

theorem inDeletion_of_none {s : State} (h : s.record = none) : ¬ s.inDeletion := by
  rintro ⟨r, hr, -⟩
  rw [h] at hr
  simp at hr

theorem inDeletion_iff {s : State} {r : Record} (h : s.record = some r) :
    s.inDeletion ↔ r.automation.matchingState ∈ deletionStates := by
  constructor
  · rintro ⟨r', hr', hdel⟩
    obtain rfl := Option.eq_some_unique h hr'
    exact hdel
  · intro hdel
    exact ⟨r, h, hdel⟩

theorem Move.inDeletion_iff {cfg : Config} {s s' : State} {now : Timestamp} {op : Op}
    (h : Move cfg s now op s') (hop : op.request? = none) : s'.inDeletion ↔ s.inDeletion := by
  constructor
  · rintro ⟨r', hr', hdel⟩
    rcases h.row_after hr' with ⟨-, tenantId, data, actor, gitSha, deadline, rfl, -⟩ | ⟨r, hr, hrow⟩
    · simp [Op.request?] at hop
    · refine ⟨r, hr, hrow.inDeletion_before ?_ hdel⟩
      rintro tenantId actor rfl
      simp [Op.request?] at hop
  · rintro ⟨r, hr, hdel⟩
    obtain ⟨r', hr', hrow⟩ := h.row hr
    exact ⟨r', hr', hrow.stays_in_deletion hdel⟩

/-- A request leaves the row as it was, or as it has written it. -/
theorem Request.call_record (cfg : Config) (now : Timestamp) (fault : Option RequestFault)
    (record : Option Record) (request : Request) :
    (request.call cfg now fault record).record = record ∨
      ∃ store answer, request.plan cfg now record = .write store answer ∧
        (request.call cfg now fault record).record = store := by
  unfold Request.call
  split
  · exact Or.inl rfl
  · rw [answerWith_record]
    rcases run_cases (RequestFault.inTransaction fault) (request.plan cfg now) record with
      ⟨e, hrun⟩ | ⟨a, -, hrun⟩ | ⟨store, a, hplan, ⟨hrun, -⟩ | ⟨f, -, -, hrun⟩⟩
    · exact Or.inl (by rw [hrun])
    · exact Or.inl (by rw [hrun])
    · exact Or.inr ⟨store, a, hplan, by rw [hrun]⟩
    · exact Or.inr ⟨store, a, hplan, by rw [hrun]⟩

/-- Only a delete moves a row into its deletion. -/
theorem Request.plan_write_live {cfg : Config} {now : Timestamp} {record store : Option Record}
    {answer : Result} {request : Request} (h : request.plan cfg now record = .write store answer) :
    (∀ r ∈ record, r.automation.matchingState ∉ deletionStates) ∧
      ∃ r, store = some r ∧ (r.automation.matchingState ∈ deletionStates ↔
        ∃ tenantId actor, request = .beginDelete tenantId actor) := by
  cases request with
  | create tenantId data actor gitSha deadline =>
    simp only [Request.plan, createPlan] at h
    split at h
    · simp at h
    · obtain ⟨rfl, -⟩ := Plan.write.inj h
      exact ⟨by simp, _, rfl, by simp [createAutomation]⟩
  | enable tenantId actor =>
    obtain ⟨r', ht, rfl, -⟩ := togglePlan_write h
    obtain ⟨r, rfl, -, hlive, -, rfl⟩ := toggle_ok ht
    exact ⟨by simpa using hlive, _, rfl, by simp [Record.transition]⟩
  | disable tenantId actor =>
    obtain ⟨r', ht, rfl, -⟩ := togglePlan_write h
    obtain ⟨r, rfl, -, hlive, -, rfl⟩ := toggle_ok ht
    exact ⟨by simpa using hlive, _, rfl, by simp [Record.transition]⟩
  | beginDelete tenantId actor =>
    simp only [Request.plan, beginDeletePlan] at h
    split at h
    · simp at h
    · next d hd =>
      obtain ⟨r, rfl, -, ⟨-, rfl⟩ | ⟨hlive, -, rfl⟩⟩ := beginDelete_ok hd
      · simp at h
      · rw [if_pos rfl] at h
        obtain ⟨rfl, -⟩ := Plan.write.inj h
        exact ⟨by simpa using hlive, _, rfl, by simp [Record.markDeleting, Record.transition]⟩

theorem beginDeletePlan_started {tenantId actor : String} {now : Timestamp}
    {record store : Option Record} {answer : Result}
    (h : beginDeletePlan tenantId actor now record = .write store answer) : answer.started = true := by
  unfold beginDeletePlan at h
  split at h
  · simp at h
  · next d hd =>
    split at h
    · next hstarted =>
      obtain ⟨-, rfl⟩ := Plan.write.inj h
      exact hstarted
    · simp at h

/-- What a delete does: nothing, or it begins the deletion and says so, or it
begins the deletion and raises. -/
theorem beginDelete_call_cases (cfg : Config) (now : Timestamp) (fault : Option RequestFault)
    (record : Option Record) (tenantId actor : String) :
    let request := Request.beginDelete tenantId actor
    let o := request.call cfg now fault record
    let torn := RequestFault.AtRefresh fault ∧ request.Commits cfg record
    (o.record = record ∧ (∀ answer, o.result = .ok answer → answer.started = false) ∧ ¬ torn) ∨
    (∃ store answer, request.plan cfg now record = .write store answer ∧ o.record = store ∧
      ((∃ answer, o.result = .ok answer ∧ answer.started = true) ∧ ¬ torn ∨
        (∃ e, o.result = .error e) ∧ torn)) := by
  intro request o torn
  have htorn : torn ↔ Torn (RequestFault.inTransaction fault) (request.plan cfg now) record := by
    have hiff := request.torn_iff cfg now fault record
    simpa [request, Request.refusal] using hiff.symm
  have hresult : o.result =
      (run (RequestFault.inTransaction fault) (request.plan cfg now) record).result :=
    answerWith_result _ _
  have hrecord : o.record =
      (run (RequestFault.inTransaction fault) (request.plan cfg now) record).store :=
    answerWith_record _ _
  rcases run_cases (RequestFault.inTransaction fault) (request.plan cfg now) record with
    ⟨e, hrun⟩ | ⟨answer, hplan, hrun⟩ | ⟨store, answer, hplan, ⟨hrun, hfault⟩ | ⟨f, hf, hpoint, hrun⟩⟩
  · refine Or.inl ⟨by rw [hrecord, hrun], ?_, ?_⟩
    · intro answer hok
      rw [hresult, hrun] at hok
      simp at hok
    · intro h
      obtain ⟨e', store, answer, -, hrun'⟩ := run_torn (htorn.mp h)
      simp [hrun] at hrun'
  -- a repeated delete: read, not started
  · obtain ⟨r, _, _, -, -, -, -, rfl⟩ := Request.plan_read hplan
    refine Or.inl ⟨by rw [hrecord, hrun], ?_, ?_⟩
    · intro answer hok
      rw [hresult, hrun] at hok
      obtain rfl := Except.ok.inj hok
      rfl
    · intro h
      obtain ⟨-, store, answer, hplan'⟩ := htorn.mp h
      simp [hplan] at hplan'
  · refine Or.inr ⟨store, answer, hplan, by rw [hrecord, hrun], Or.inl ⟨?_, ?_⟩⟩
    · exact ⟨answer, by rw [hresult, hrun], beginDeletePlan_started hplan⟩
    · intro h
      obtain ⟨⟨f, hf, -⟩, -⟩ := htorn.mp h
      simp [hfault] at hf
  -- the refresh raised, so no caller ever hears that the deletion has begun
  · refine Or.inr ⟨store, answer, hplan, by rw [hrecord, hrun], Or.inr ⟨?_, ?_⟩⟩
    · exact ⟨f.error, by rw [hresult, hrun]⟩
    · exact htorn.mpr ⟨⟨f, hf, hpoint⟩, store, answer, hplan⟩

theorem Op.request?_beginDelete {op : Op} {tenantId actor : String}
    (h : op.request? = some (.beginDelete tenantId actor)) : op = .beginDelete tenantId actor := by
  cases op <;> simp [Op.request?] at h
  obtain ⟨rfl, rfl⟩ := h
  rfl

theorem beginDelete_deletionMove (cfg : Config) (s : State) (now : Timestamp)
    (fault : Option RequestFault) (tenantId actor : String) :
    let request := Request.beginDelete tenantId actor
    DeletionMove cfg ⟨s, ⟨now, .beginDelete tenantId actor, fault⟩,
      { s with
        record := (request.call cfg now fault s.record).record
        world := request.leaves cfg fault s.world
        clock := now }⟩ := by
  intro request
  have hlost (hwhole : ¬ (RequestFault.AtRefresh fault ∧ request.Commits cfg s.record)) (post : State) :
      ¬ LosesDelete cfg ⟨s, ⟨now, .beginDelete tenantId actor, fault⟩, post⟩ := by
    rintro ⟨tenantId', actor', hop, hrefresh, hcommits⟩
    obtain ⟨rfl, rfl⟩ := Op.beginDelete.inj hop
    exact hwhole ⟨hrefresh, hcommits⟩
  rcases beginDelete_call_cases cfg now fault s.record tenantId actor with
    ⟨hsame, hanswer, hwhole⟩ | ⟨store, answer, hplan, hwritten, hheard⟩
  · refine .quiet ?_ (hlost hwhole _) ?_
    · simp only [startsDelete, deleteOutcome, Option.any_some]
      split
      · next answer hok => exact hanswer answer hok
      · rfl
    · simp only [State.inDeletion]
      rw [hsame]
  · obtain ⟨hlive, r', rfl, hdel⟩ := Request.plan_write_live hplan
    have hbefore : ¬ s.inDeletion := by
      rintro ⟨r, hr, hin⟩
      exact hlive r hr hin
    have hin : r'.automation.matchingState ∈ deletionStates := hdel.mpr ⟨tenantId, actor, rfl⟩
    rcases hheard with ⟨⟨answer', hok, hstarted⟩, hwhole⟩ | ⟨⟨e, herror⟩, htorn⟩
    · refine .started ?_ (hlost hwhole _) hbefore ⟨r', hwritten, hin⟩
      simp only [startsDelete, deleteOutcome, Option.any_some, hok]
      exact hstarted
    · refine .lost ?_ ⟨tenantId, actor, rfl, htorn⟩ hbefore ⟨r', hwritten, hin⟩
      simp only [startsDelete, deleteOutcome, Option.any_some, herror]

/-- The step lemma of a deletion's beginning. -/
theorem faultyStep_deletionMove {cfg : Config} {s s' : State} {a : RequestAction}
    (h : faultyStep cfg s a = some s') : DeletionMove cfg ⟨s, a, s'⟩ := by
  obtain ⟨now, op, fault⟩ := a
  have quiet (hop : ∀ tenantId actor, op ≠ .beginDelete tenantId actor)
      (hsame : s'.inDeletion ↔ s.inDeletion) : DeletionMove cfg ⟨s, ⟨now, op, fault⟩, s'⟩ := by
    have hnone : deleteOutcome cfg ⟨s, ⟨now, op, fault⟩, s'⟩ = none := by
      unfold deleteOutcome
      split
      · next tenantId actor hd => exact absurd hd (hop tenantId actor)
      · rfl
    refine .quiet (by simp [startsDelete, hnone]) ?_ hsame
    rintro ⟨tenantId, actor, hd, -⟩
    exact hop tenantId actor hd
  unfold faultyStep at h
  dsimp only at h
  split at h
  · next hop =>
    have hm := (step_move h).2.2
    refine quiet ?_ (hm.inDeletion_iff hop)
    rintro tenantId actor rfl
    simp [Op.request?] at hop
  · next request hop =>
    split at h
    · obtain rfl := Option.some.inj h
      by_cases hdelete : ∃ tenantId actor, op = .beginDelete tenantId actor
      · obtain ⟨tenantId, actor, rfl⟩ := hdelete
        obtain rfl : Request.beginDelete tenantId actor = request := by simpa [Op.request?] using hop
        exact beginDelete_deletionMove cfg s now fault tenantId actor
      · have hnot : ∀ tenantId actor, op ≠ .beginDelete tenantId actor := by
          intro tenantId actor hd
          exact hdelete ⟨tenantId, actor, hd⟩
        refine quiet hnot ?_
        -- a create or a toggle writes live rows over live rows
        rcases request.call_record cfg now fault s.record with hsame | ⟨store, answer, hplan, hwritten⟩
        · simp only [State.inDeletion, hsame]
        · obtain ⟨hlive, r', rfl, hdel⟩ := Request.plan_write_live hplan
          refine iff_of_false ?_ ?_
          · rintro ⟨r₁, hr₁, hin⟩
            obtain rfl := Option.eq_some_unique hwritten hr₁
            obtain ⟨tenantId, actor, rfl⟩ := hdel.mp hin
            exact hnot tenantId actor (Op.request?_beginDelete hop)
          · rintro ⟨r₁, hr₁, hin⟩
            exact hlive r₁ hr₁ hin
    · simp at h

/-- A DELETE begins each deletion, and if none was lost it is the one that was
answered with a start. -/
theorem FaultyReached.begun {cfg : Config} {tr : FaultyTrace} {s : State}
    (h : FaultyReached cfg tr s) :
    (¬ s.inDeletion → tr.countP (startsDelete cfg) = 0 ∧ ∀ t ∈ tr, ¬ LosesDelete cfg t) ∧
    (s.inDeletion → tr.countP (startsDelete cfg) = 1 ∧ (∀ t ∈ tr, ¬ LosesDelete cfg t) ∨
      tr.countP (startsDelete cfg) = 0 ∧ ∃ t ∈ tr, LosesDelete cfg t) := by
  obtain ⟨world, hrun⟩ := h
  refine hrun.history (P := fun tr s =>
    (¬ s.inDeletion → tr.countP (startsDelete cfg) = 0 ∧ ∀ t ∈ tr, ¬ LosesDelete cfg t) ∧
    (s.inDeletion → tr.countP (startsDelete cfg) = 1 ∧ (∀ t ∈ tr, ¬ LosesDelete cfg t) ∨
      tr.countP (startsDelete cfg) = 0 ∧ ∃ t ∈ tr, LosesDelete cfg t)) ?_ ?_
  · refine ⟨fun _ => ⟨rfl, by simp⟩, fun hdel => absurd hdel (inDeletion_of_none rfl)⟩
  rintro tr s a s' - ⟨hout, hin⟩ - hstep
  have all_cons {t : Transition State RequestAction} (ht : ¬ LosesDelete cfg t)
      (htr : ∀ t ∈ tr, ¬ LosesDelete cfg t) : ∀ u ∈ t :: tr, ¬ LosesDelete cfg u := by
    intro u hu
    rcases List.mem_cons.mp hu with rfl | hu
    · exact ht
    · exact htr u hu
  rw [List.countP_cons]
  cases faultyStep_deletionMove hstep with
  -- the deletion neither begins nor ends, so both counts stay
  | quiet hstart hlost hsame =>
    rw [hstart]
    constructor
    · intro hnot
      obtain ⟨hcount, hnone⟩ := hout (fun hbefore => hnot (hsame.mpr hbefore))
      exact ⟨by simpa using hcount, all_cons hlost hnone⟩
    · intro hdel
      rcases hin (hsame.mp hdel) with ⟨hcount, hnone⟩ | ⟨hcount, u, hu, hlosing⟩
      · exact Or.inl ⟨by simpa using hcount, all_cons hlost hnone⟩
      · exact Or.inr ⟨by simpa using hcount, u, List.mem_cons_of_mem _ hu, hlosing⟩
  | started hstart hlost hbefore hafter =>
    obtain ⟨hcount, hnone⟩ := hout hbefore
    rw [hstart, hcount]
    exact ⟨fun hnot => absurd hafter hnot, fun _ => Or.inl ⟨rfl, all_cons hlost hnone⟩⟩
  | lost hstart hlost hbefore hafter =>
    obtain ⟨hcount, -⟩ := hout hbefore
    rw [hstart, hcount]
    exact ⟨fun hnot => absurd hafter hnot,
      fun _ => Or.inr ⟨rfl, _, List.mem_cons_self .., hlost⟩⟩

/-- A request does all of it or nothing, and the deletion it begins is started by
exactly one DELETE, exactly when no refresh raises behind a commit. -/
theorem requests_all_or_nothing (cfg : Config) :
    (∀ now fault record request,
      AllOrNothing cfg now request record (request.call cfg now fault record) ↔
        ¬ (RequestFault.AtRefresh fault ∧ request.Commits cfg record)) ∧
    ∀ tr s, FaultyReached cfg tr s → s.inDeletion →
      (tr.countP (startsDelete cfg) = 1 ↔ ∀ t ∈ tr, ¬ LosesDelete cfg t) := by
  refine ⟨fun now fault record request => request.allOrNothing_iff cfg now fault record, ?_⟩
  intro tr s h hdel
  rcases h.begun.2 hdel with ⟨hcount, hnone⟩ | ⟨hcount, t, ht, hlost⟩
  · exact iff_of_true hcount hnone
  · refine iff_of_false ?_ (fun hnone => hnone t ht hlost)
    rw [hcount]
    exact Nat.zero_ne_one

def refreshFault : Option RequestFault := some (.transaction ⟨.refresh, .sqlAlchemyError⟩)

/-- Create and fail the build. -/
def failedCreateOps : List RequestAction :=
  [⟨1, .create "t1" samplePayload "author" firstSha 99, none⟩,
   ⟨2, .deliver 0 (.receive firstFailure false), none⟩, ⟨3, .deliver 0 (.recordFailure none), none⟩]

/-- A DELETE whose refresh fails, and the retry of the user. -/
def lostDeleteOps : List RequestAction :=
  failedCreateOps ++
  [⟨4, .beginDelete "t1" "deleter", refreshFault⟩, ⟨5, .beginDelete "t1" "deleter", none⟩]

/-- An executed list of actions is a run, and its end can be looked at. -/
theorem faultyReached_of_exec (actions : List RequestAction) (P : State → Prop) [DecidablePred P]
    (h : (exec (faultyStep sampleConfig) (initial sampleWorld) actions).any
      (fun s => decide (P s)) = true) :
    ∃ s, FaultyReached sampleConfig (execTrace (faultyStep sampleConfig) (initial sampleWorld) actions) s ∧
      P s := by
  obtain ⟨s, hrun, hs⟩ := Run.exists_of_exec (E := anyFault) (fun _ _ => trivial) actions P h
  exact ⟨s, ⟨sampleWorld, hrun⟩, hs⟩

theorem requests_all_or_nothing_sample :
    ∃ s, FaultyReached sampleConfig (execTrace (faultyStep sampleConfig) (initial sampleWorld)
        (failedCreateOps ++ [⟨4, .beginDelete "t1" "deleter", none⟩])) s ∧
      s.inDeletion ∧ ∀ t ∈ execTrace (faultyStep sampleConfig) (initial sampleWorld)
        (failedCreateOps ++ [⟨4, .beginDelete "t1" "deleter", none⟩]), ¬ LosesDelete sampleConfig t := by
  obtain ⟨s, h, r, hr, hdel⟩ := faultyReached_of_exec
    (failedCreateOps ++ [⟨4, .beginDelete "t1" "deleter", none⟩])
    (fun s => ∃ r ∈ s.record, r.automation.matchingState ∈ deletionStates) (by decide +kernel)
  have hin : s.inDeletion := ⟨r, hr, hdel⟩
  exact ⟨s, h, hin, ((requests_all_or_nothing sampleConfig).2 _ s h hin).mp (by decide +kernel)⟩

/-- The refresh of an admitted DELETE fails: it raises over a row that is deleting,
and no DELETE ever starts the cascade. -/
theorem delete_lost_behind_commit :
    (∃ record, ¬ AllOrNothing sampleConfig 4 (.beginDelete "t1" "deleter") record
      ((Request.beginDelete "t1" "deleter").call sampleConfig 4 refreshFault record)) ∧
    ∃ s, FaultyReached sampleConfig (execTrace (faultyStep sampleConfig) (initial sampleWorld)
        lostDeleteOps) s ∧ s.inDeletion ∧
      (execTrace (faultyStep sampleConfig) (initial sampleWorld) lostDeleteOps).countP
        (startsDelete sampleConfig) = 0 := by
  obtain ⟨s₀, -, r₀, hr₀, hmatching, htenant, hbuild⟩ := faultyReached_of_exec failedCreateOps
    (fun s => ∃ r ∈ s.record, r.automation.matchingState = .inactive ∧ r.automation.tenantId = "t1" ∧
      r.automation.buildState = .buildFailed) (by decide +kernel)
  obtain ⟨s, h, r, hr, hdel⟩ := faultyReached_of_exec lostDeleteOps
    (fun s => ∃ r ∈ s.record, r.automation.matchingState ∈ deletionStates) (by decide +kernel)
  refine ⟨⟨some r₀, ?_⟩, s, h, ⟨r, hr, hdel⟩, by decide +kernel⟩
  rw [Request.allOrNothing_iff, not_not]
  exact ⟨⟨_, rfl⟩, r₀, rfl, htenant, by simp [hmatching], by simp [hbuild]⟩

end KeepAutomation
