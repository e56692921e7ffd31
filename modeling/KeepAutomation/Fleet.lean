import KeepAutomation.DeboardTruth
import KeepAutomation.Wallet

/-! Many automations and a deboard pass over them. Each automation moves as the
system of one automation does; the pass selects its children in one transaction,
admits each of them in another, and its cascades are runners of theirs. -/
namespace KeepAutomation

open KeyedTable FaultyTransaction TransitionSystem

/-- The running calls about one automation. -/
structure Calls where
  edits : ℕ → Edit
  deliveries : ℕ → Delivery
  runners : ℕ → Runner

/-- The settings all automations share. -/
structure Settings where
  automationImageRepository : String
  validateAutomation : AutomationIn → List FieldError

def Settings.config (settings : Settings) (automationId : UUID) : Config where
  automationId := automationId
  automationImageRepository := settings.automationImageRepository
  validateAutomation := settings.validateAutomation

/-- The arguments of `deboard_wallet`. -/
structure Deboard where
  tenantId : String
  walletName : String
  actor : String
  deriving DecidableEq

/-- A running `deboard_wallet`, cut at its select, its admissions and its
cascades, with the children still to come and the summary so far. -/
inductive Pass where
  | idle
  | admitting (job : Deboard) (ids : List UUID) (s : DeboardSummary)
  | cascading (job : Deboard) (automationId : UUID) (p : ℕ) (ids : List UUID) (s : DeboardSummary)
  | returned (job : Deboard) (s : DeboardSummary)
  | raised (error : Error)
  | crashed

structure Fleet extends Database where
  calls : UUID → Calls
  pass : Pass
  clock : Timestamp

/-- The system of one automation of the fleet. -/
def Fleet.part (f : Fleet) (automationId : UUID) : State where
  record := f.store.lookup automationId
  world := f.world
  edits := (f.calls automationId).edits
  deliveries := (f.calls automationId).deliveries
  runners := (f.calls automationId).runners
  clock := f.clock

/-- The fleet after its automation has moved to `s`. -/
def Fleet.withPart (f : Fleet) (automationId : UUID) (s : State) : Fleet where
  store := match s.record with
    | some r => f.store.upsert r
    | none => f.store
  world := s.world
  calls := Function.update f.calls automationId ⟨s.edits, s.deliveries, s.runners⟩
  pass := f.pass
  clock := s.clock

/-- What can happen to the fleet. An admission that succeeds goes on as the
runner `p` of its child. -/
inductive FleetOp where
  | automation (automationId : UUID) (op : Op)
  | list (tenantId walletName actor : String) (readFails : Bool)
  | beginDelete (fault : Option AdmissionFault) (p : ℕ)
  | collect
  | finish
  | crash

structure FleetAction where
  now : Timestamp
  op : FleetOp

/-- A call of the pass to `begin_delete`. -/
def Deboard.beginDelete (job : Deboard) (fault : Option AdmissionFault) (now : Timestamp)
    (record : Option Record) : Outcome (Option Record) Error Result :=
  run (fault.map AdmissionFault.raises) (beginDeletePlan job.tenantId job.actor now) record

def Fleet.apply (settings : Settings) (f : Fleet) (now : Timestamp) : FleetOp → Option Fleet
  | .automation automationId op =>
    (step (settings.config automationId) (f.part automationId) ⟨now, op⟩).map (f.withPart automationId)
  | .list tenantId walletName actor readFails =>
    match f.pass with
    | .idle =>
      let ids := f.children tenantId walletName
      if readFails then some { f with pass := .raised .sqlAlchemyError }
      else some { f with pass := .admitting ⟨tenantId, walletName, actor⟩ ids ⟨[], [], [], []⟩ }
    | _ => none
  | .beginDelete fault p =>
    match f.pass with
    | .admitting job (automationId :: ids) s =>
      let o := job.beginDelete fault now (f.store.lookup automationId)
      let store := match o.store with
        | some r => f.store.put r
        | none => f.store
      -- the two `except` clauses of the loop, then the cascade of the child
      match o.result, (f.calls automationId).runners p with
      | .error .automationBuildingError, _ =>
        some { f with store := store, pass := .admitting job ids (s.add automationId .skippedBuilding) }
      | .error _, _ => some { f with store := store, pass := .admitting job ids (s.add automationId .failed) }
      | .ok _, .idle => some { f with store := store, pass := .cascading job automationId p ids s }
      | .ok _, _ => none
    | _ => none
  | .collect =>
    match f.pass with
    | .cascading job automationId p ids s =>
      match (f.calls automationId).runners p with
      | .returned result =>
        let outcome := if result.completed then .deleted else .inProgress
        some { f with pass := .admitting job ids (s.add automationId outcome) }
      -- a cascade that raises is logged and the child left to a later pass
      | .raised _ => some { f with pass := .admitting job ids (s.add automationId .inProgress) }
      -- the runner runs in the process of the pass
      | .crashed => some { f with pass := .crashed }
      | _ => none
    | _ => none
  | .finish =>
    match f.pass with
    | .admitting job [] s => some { f with pass := .returned job s }
    | _ => none
  | .crash =>
    match f.pass with
    -- during a cascade the crash is that of its runner
    | .admitting _ _ _ => some { f with pass := .crashed }
    | _ => none

def fleetStep (settings : Settings) (f : Fleet) (a : FleetAction) : Option Fleet :=
  if f.clock < a.now then (f.apply settings a.now a.op).map fun f' => { f' with clock := a.now } else none

/-- Before any automation is created. -/
def emptyFleet (world : World) : Fleet where
  store := ⟨[], List.nodup_nil⟩
  world := world
  calls := fun _ => ⟨fun _ => .idle, fun _ => .idle, fun _ => .idle⟩
  pass := .idle
  clock := 0

abbrev FleetTrace := Trace Fleet FleetAction

def anyMove (_ : Fleet) (_ : FleetAction) : Prop := True

/-- Runs from before the first creation. -/
def FleetReached (settings : Settings) (tr : FleetTrace) (f : Fleet) : Prop :=
  ∃ world, Run (fleetStep settings) anyMove (emptyFleet world) tr f

/-- What the transaction of an admission decides. -/
theorem beginDeletePlan_cases (tenantId actor : String) (now : Timestamp) (record : Option Record) :
    (∃ e, beginDeletePlan tenantId actor now record = .refuse e) ∨
    (∃ r answer, record = some r ∧ r.automation.matchingState ∈ deletionStates ∧
      beginDeletePlan tenantId actor now record = .read answer) ∨
    ∃ r answer, record = some r ∧ r.automation.tenantId = tenantId ∧
      r.automation.matchingState ∉ deletionStates ∧ r.automation.buildState ≠ .building ∧
      beginDeletePlan tenantId actor now record = .write (some (r.markDeleting actor now)) answer := by
  cases hd : beginDelete tenantId actor now record with
  | error e => exact Or.inl ⟨e, by simp only [beginDeletePlan, hd]⟩
  | ok d =>
    obtain ⟨r, rfl, htenant, ⟨hdel, rfl⟩ | ⟨hlive, hbuild, rfl⟩⟩ := beginDelete_ok hd
    · refine Or.inr (Or.inl ⟨r, .admission r.automation false, rfl, hdel, ?_⟩)
      simp only [beginDeletePlan, hd, Bool.false_eq_true, if_false]
    · refine Or.inr (Or.inr ⟨r, .admission (r.markDeleting actor now).automation true, rfl, htenant, hlive,
        hbuild, ?_⟩)
      simp only [beginDeletePlan, hd, if_true]

/-- What an admission can do: raise over the row as it was, find the child in
deletion, or begin the deletion, after which it returns or raises. -/
theorem Deboard.beginDelete_cases (job : Deboard) (fault : Option AdmissionFault) (now : Timestamp)
    (record : Option Record) :
    (∃ e, job.beginDelete fault now record = ⟨.error e, record, false⟩) ∨
    (∃ r answer, record = some r ∧ r.automation.matchingState ∈ deletionStates ∧
      job.beginDelete fault now record = ⟨.ok answer, record, false⟩) ∨
    ∃ r result, record = some r ∧ r.automation.tenantId = job.tenantId ∧
      r.automation.matchingState ∉ deletionStates ∧ r.automation.buildState ≠ .building ∧
      job.beginDelete fault now record = ⟨result, some (r.markDeleting job.actor now), true⟩ ∧
      result ≠ .error .automationBuildingError := by
  have hplan := beginDeletePlan_cases job.tenantId job.actor now record
  unfold Deboard.beginDelete
  rcases run_cases (fault.map AdmissionFault.raises) (beginDeletePlan job.tenantId job.actor now) record with
    ⟨e, hrun⟩ | ⟨answer, hread, hrun⟩ | ⟨store, answer, hwrite, hrun⟩
  · exact Or.inl ⟨e, hrun⟩
  · rcases hplan with ⟨e, hplan⟩ | ⟨r, _, hr, hdel, -⟩ | ⟨r, _, -, -, -, -, hplan⟩
    · simp [hplan] at hread
    · exact Or.inr (Or.inl ⟨r, answer, hr, hdel, hrun⟩)
    · simp [hplan] at hread
  · rcases hplan with ⟨e, hplan⟩ | ⟨r, _, -, -, hplan⟩ | ⟨r, _, hr, htenant, hlive, hbuild, hplan⟩
    · simp [hplan] at hwrite
    · simp [hplan] at hwrite
    · obtain ⟨rfl, -⟩ := Plan.write.inj (hplan.symm.trans hwrite)
      right; right
      rcases hrun with ⟨hrun, -⟩ | ⟨g, hg, -, hrun⟩
      · exact ⟨r, _, hr, htenant, hlive, hbuild, hrun, by simp⟩
      · refine ⟨r, _, hr, htenant, hlive, hbuild, hrun, ?_⟩
        obtain ⟨f, -, rfl⟩ := Option.map_eq_some_iff.mp (Option.mem_def.mp hg)
        simp only [AdmissionFault.raises]
        cases f.fault <;> simp [DbFault.error]

/-- The moves of the fleet. -/
inductive FleetMove (settings : Settings) (f : Fleet) (now : Timestamp) : FleetOp → Fleet → Prop
  | moved {id op} (s' : State) (h : Move (settings.config id) (f.part id) now op s') :
      FleetMove settings f now (.automation id op) { f.withPart id s' with clock := now }
  | listed {tenantId walletName actor} (hpass : f.pass = .idle) :
      FleetMove settings f now (.list tenantId walletName actor false)
        { f with
          pass := .admitting ⟨tenantId, walletName, actor⟩ (f.children tenantId walletName) ⟨[], [], [], []⟩
          clock := now }
  | notListed {tenantId walletName actor} (hpass : f.pass = .idle) :
      FleetMove settings f now (.list tenantId walletName actor true)
        { f with pass := .raised .sqlAlchemyError, clock := now }
  | refused {fault p job id ids s} (hpass : f.pass = .admitting job (id :: ids) s)
      (outcome : ChildOutcome) (hout : outcome = .skippedBuilding ∨ outcome = .failed) :
      FleetMove settings f now (.beginDelete fault p)
        { f with pass := .admitting job ids (s.add id outcome), clock := now }
  | resumed {fault p job id ids s} (hpass : f.pass = .admitting job (id :: ids) s) (r : Record)
      (hr : f.store.lookup id = some r) (hdel : r.automation.matchingState ∈ deletionStates) :
      FleetMove settings f now (.beginDelete fault p)
        { f with pass := .cascading job id p ids s, clock := now }
  | began {fault p job id ids s} (hpass : f.pass = .admitting job (id :: ids) s) (r : Record)
      (hr : f.store.lookup id = some r) (htenant : r.automation.tenantId = job.tenantId)
      (hlive : r.automation.matchingState ∉ deletionStates) (hbuild : r.automation.buildState ≠ .building)
      (next : Pass) (hnext : next = .cascading job id p ids s ∨ next = .admitting job ids (s.add id .failed)) :
      FleetMove settings f now (.beginDelete fault p)
        { f with store := f.store.put (r.markDeleting job.actor now), pass := next, clock := now }
  | collected {job id p ids s} (hpass : f.pass = .cascading job id p ids s) (outcome : ChildOutcome)
      (hout : outcome = .deleted ∨ outcome = .inProgress) :
      FleetMove settings f now .collect
        { f with pass := .admitting job ids (s.add id outcome), clock := now }
  | finished {job s} (hpass : f.pass = .admitting job [] s) :
      FleetMove settings f now .finish { f with pass := .returned job s, clock := now }
  | crashed {op} (hop : op = .collect ∨ op = .crash) :
      FleetMove settings f now op { f with pass := .crashed, clock := now }

/-- An admission is a move. -/
theorem Fleet.apply_beginDelete {settings : Settings} {f f₁ : Fleet} {now : Timestamp}
    {fault : Option AdmissionFault} {p : ℕ} (h : f.apply settings now (.beginDelete fault p) = some f₁) :
    FleetMove settings f now (.beginDelete fault p) { f₁ with clock := now } := by
  simp only [Fleet.apply] at h
  split at h
  case h_2 => simp at h
  next job id ids s hpass =>
    rcases job.beginDelete_cases fault now (f.store.lookup id) with ⟨e, hbegin⟩ | ⟨r, answer, hr, hdel, hbegin⟩ |
      ⟨r, result, hr, htenant, hlive, hbuild, hbegin, hresult⟩
    -- raised before the commit: the row is written back as it was
    · have hstore : (match f.store.lookup id with
          | some r => f.store.put r
          | none => f.store) = f.store := by
        split
        · next r hr => exact Table.put_self hr
        · rfl
      rw [hbegin] at h
      dsimp only at h
      rw [hstore] at h
      split at h
      · obtain rfl := Option.some.inj h
        exact .refused hpass .skippedBuilding (Or.inl rfl)
      · obtain rfl := Option.some.inj h
        exact .refused hpass .failed (Or.inr rfl)
      · next hok _ => simp at hok
      · simp at h
    · rw [hbegin] at h
      dsimp only at h
      split at h
      · next hok => simp at hok
      · next hok => simp at hok
      · obtain rfl := Option.some.inj h
        rw [hr]
        simp only [Table.put_self hr]
        exact .resumed hpass r hr hdel
      · simp at h
    · rw [hbegin] at h
      dsimp only at h
      split at h
      -- a refresh that fails reports as failed a child that is deleting
      · exact absurd rfl hresult
      · obtain rfl := Option.some.inj h
        exact .began hpass r hr htenant hlive hbuild _ (Or.inr rfl)
      · obtain rfl := Option.some.inj h
        exact .began hpass r hr htenant hlive hbuild _ (Or.inl rfl)
      · simp at h

/-- What one step of the fleet can do. -/
theorem fleetStep_move {settings : Settings} {f f' : Fleet} {a : FleetAction}
    (h : fleetStep settings f a = some f') : f.clock < a.now ∧ FleetMove settings f a.now a.op f' := by
  obtain ⟨now, op⟩ := a
  unfold fleetStep at h
  split at h
  case isFalse => simp at h
  next hclock =>
    obtain ⟨f₁, happly, rfl⟩ := Option.map_eq_some_iff.mp h
    refine ⟨hclock, ?_⟩
    cases op with
    | automation id op =>
      obtain ⟨s', hstep, rfl⟩ := Option.map_eq_some_iff.mp happly
      exact .moved s' (step_move hstep).2.2
    | list tenantId walletName actor readFails =>
      simp only [Fleet.apply] at happly
      split at happly
      case h_2 => simp at happly
      next hpass =>
        cases readFails with
        | true =>
          obtain rfl := Option.some.inj happly
          exact .notListed hpass
        | false =>
          obtain rfl := Option.some.inj happly
          exact .listed hpass
    | beginDelete fault p => exact Fleet.apply_beginDelete happly
    | collect =>
      simp only [Fleet.apply] at happly
      split at happly
      case h_2 => simp at happly
      next job id p ids s hpass =>
        split at happly
        · next result _ =>
          obtain rfl := Option.some.inj happly
          refine .collected hpass _ ?_
          split
          · exact Or.inl rfl
          · exact Or.inr rfl
        · obtain rfl := Option.some.inj happly
          exact .collected hpass .inProgress (Or.inr rfl)
        · obtain rfl := Option.some.inj happly
          exact .crashed (Or.inl rfl)
        · simp at happly
    | finish =>
      simp only [Fleet.apply] at happly
      split at happly
      · next job s hpass =>
        obtain rfl := Option.some.inj happly
        exact .finished hpass
      · simp at happly
    | crash =>
      simp only [Fleet.apply] at happly
      split at happly
      · obtain rfl := Option.some.inj happly
        exact .crashed (Or.inr rfl)
      · simp at happly

/-- An invariant of the moves, which may speak about the transitions so far,
holds at the end of every run. -/
theorem FleetReached.history {settings : Settings} {tr : FleetTrace} {f : Fleet}
    {P : FleetTrace → Fleet → Prop} (h : FleetReached settings tr f)
    (h₀ : ∀ world, P [] (emptyFleet world))
    (hmove : ∀ tr f now op f', FleetReached settings tr f → P tr f → FleetMove settings f now op f' →
      P (⟨f, ⟨now, op⟩, f'⟩ :: tr) f') : P tr f := by
  obtain ⟨world, hrun⟩ := h
  refine hrun.history (h₀ world) ?_
  intro tr f a f' hr hp _ hstep
  exact hmove tr f a.now a.op f' ⟨world, hr⟩ hp (fleetStep_move hstep).2

theorem FleetReached.cut {settings : Settings} {later earlier : FleetTrace} {f : Fleet}
    {t : Transition Fleet FleetAction} (h : FleetReached settings (later ++ t :: earlier) f) :
    FleetReached settings earlier t.pre ∧ FleetMove settings t.pre t.act.now t.act.op t.post := by
  obtain ⟨world, hrun⟩ := h
  obtain ⟨-, hstep, -⟩ := hrun.transition (List.mem_append_right _ List.mem_cons_self)
  exact ⟨⟨world, hrun.split.1⟩, (fleetStep_move hstep).2⟩

theorem Move.record_id {cfg : Config} {s s' : State} {now : Timestamp} {op : Op}
    (h : Move cfg s now op s') (hid : ∀ r, s.record = some r → r.automation.id = cfg.automationId) :
    ∀ r, s'.record = some r → r.automation.id = cfg.automationId := by
  intro r' hr'
  rcases h.row_after hr' with ⟨-, _, _, _, _, _, -, rfl⟩ | ⟨r, hr, hrow⟩
  · rfl
  · exact hrow.id.trans (hid r hr)

/-- An admitted row is read back. -/
theorem lookup_markDeleting {store : Store} {id : UUID} {r : Record} (hr : store.lookup id = some r)
    (actor : String) (now : Timestamp) :
    (store.put (r.markDeleting actor now)).lookup id = some (r.markDeleting actor now) := by
  have hkey : r.automation.id = id := (Table.mem_of_lookup hr).2
  have hread : store.lookup (r.markDeleting actor now).automation.id = some r := by
    change store.lookup r.automation.id = some r
    rw [hkey, hr]
  have hself := Table.lookup_put_self hread
  change (store.put (r.markDeleting actor now)).lookup r.automation.id = _ at hself
  rwa [hkey] at hself

/-- A step of the fleet as one automation sees it: its own move, its admission by
the pass, or nothing. -/
inductive PartMove (settings : Settings) (f : Fleet) (now : Timestamp) (id : UUID) (f' : Fleet) :
    FleetOp → Prop
  | own {op} (s' : State) (h : Move (settings.config id) (f.part id) now op s')
      (hrow : f'.store.lookup id = s'.record)
      (hcalls : f'.calls id = ⟨s'.edits, s'.deliveries, s'.runners⟩) :
      PartMove settings f now id f' (.automation id op)
  | admitted {fault p job ids s} (hpass : f.pass = .admitting job (id :: ids) s) (r : Record)
      (hr : f.store.lookup id = some r) (htenant : r.automation.tenantId = job.tenantId)
      (hlive : r.automation.matchingState ∉ deletionStates) (hbuild : r.automation.buildState ≠ .building)
      (hrow : f'.store.lookup id = some (r.markDeleting job.actor now))
      (hcalls : f'.calls id = f.calls id) : PartMove settings f now id f' (.beginDelete fault p)
  | other {op} (hop : ∀ o, op ≠ .automation id o) (hrow : f'.store.lookup id = f.store.lookup id)
      (hcalls : f'.calls id = f.calls id) : PartMove settings f now id f' op

/-- Writing a part back is seen by that automation and by no other. -/
theorem Fleet.withPart_lookup {f : Fleet} {id : UUID} {s' : State}
    (hid : ∀ r, s'.record = some r → r.automation.id = id)
    (hkeeps : s'.record = none → f.store.lookup id = none) (q : UUID) :
    (f.withPart id s').store.lookup q = if q = id then s'.record else f.store.lookup q := by
  unfold Fleet.withPart
  cases hrec : s'.record with
  | none =>
    dsimp only
    split
    · next hq => rw [hq, hkeeps hrec]
    · rfl
  | some r =>
    dsimp only
    rw [Table.lookup_upsert, hid r hrec]
    by_cases hq : q = id
    · rw [if_pos hq, if_pos hq.symm]
    · rw [if_neg hq, if_neg (Ne.symm hq)]

theorem FleetMove.part {settings : Settings} {f f' : Fleet} {now : Timestamp} {op : FleetOp}
    (h : FleetMove settings f now op f') (id : UUID) : PartMove settings f now id f' op := by
  cases h with
  | @moved q o s' hm =>
    have hid : ∀ r, s'.record = some r → r.automation.id = q :=
      hm.record_id fun r hr => (Table.mem_of_lookup hr).2
    have hkeeps (hnone : s'.record = none) : f.store.lookup q = none := by
      cases hr : f.store.lookup q with
      | none => rfl
      | some r =>
        obtain ⟨r', hr', -⟩ := hm.row (r := r) hr
        simp [hnone] at hr'
    have hlookup := Fleet.withPart_lookup (f := f) hid hkeeps id
    -- another automation's move is no move of this one
    by_cases hq : id = q
    · subst hq
      rw [if_pos rfl] at hlookup
      exact .own s' hm hlookup (Function.update_self ..)
    · rw [if_neg hq] at hlookup
      refine .other ?_ hlookup (Function.update_of_ne hq ..)
      intro o' ho
      exact hq (FleetOp.automation.inj ho).1.symm
  | @began fault p job q ids s hpass r hr htenant hlive hbuild next hnext =>
    have hkey : r.automation.id = q := (Table.mem_of_lookup hr).2
    by_cases hq : id = q
    · subst hq
      exact .admitted hpass r hr htenant hlive hbuild (lookup_markDeleting hr _ _) rfl
    · refine .other (by simp) (Table.lookup_put_of_ne ?_) rfl
      rw [show (r.markDeleting job.actor now).automation.id = q from hkey]
      exact Ne.symm hq
  | crashed hop =>
    refine .other ?_ rfl rfl
    rintro o rfl
    simp at hop
  | _ => exact .other (by simp) rfl rfl

/-- A row of the fleet stays, and changes by one row move at a time: one of its
own, or one that keeps its definition. -/
theorem FleetMove.row {settings : Settings} {f f' : Fleet} {now : Timestamp} {op : FleetOp}
    (h : FleetMove settings f now op f') {id : UUID} {r : Record} (hr : f.store.lookup id = some r) :
    ∃ r' o, f'.store.lookup id = some r' ∧ RowMove (f.part id) now r o r' ∧
      (op = .automation id o ∨ r'.automation.target = r.automation.target) := by
  cases h.part id with
  | own s' hm hrow =>
    obtain ⟨r', hr', hmove⟩ := hm.row (r := r) hr
    exact ⟨r', _, hrow.trans hr', hmove, Or.inl rfl⟩
  | @admitted fault p job ids s hpass r₁ hr₁ htenant hlive hbuild hrow =>
    obtain rfl := Option.eq_some_unique hr₁ hr
    exact ⟨_, .beginDelete job.tenantId job.actor, hrow, .deleteAdmitted hlive hbuild, Or.inr rfl⟩
  | other _ hrow => exact ⟨r, .push [], hrow.trans hr, .same, Or.inr rfl⟩

/-- The claim and the payload of an edit that is about to finish. -/
def Edit.finishing? : Edit → Option (BuildClaim × AutomationIn)
  | .finishing claim _ data _ _ => some (claim, data)
  | _ => none

/-- The payload a step writes and the automation it writes it for. -/
def Fleet.written (f : Fleet) : FleetOp → Option (UUID × AutomationIn)
  | .automation id (.create _ data _ _ _) => some (id, data)
  | .automation id (.edit p (.finish none)) =>
    ((f.calls id).edits p).finishing?.bind fun (claim, data) =>
      (f.store.lookup id).bind fun r => if claim.held r.automation then some (id, data) else none
  | _ => none

/-- The wallet and the team Secret of a row are those of a payload that is written
now, or those it had. -/
theorem FleetMove.placed {settings : Settings} {f f' : Fleet} {now : Timestamp} {op : FleetOp}
    (h : FleetMove settings f now op f') {id : UUID} {r' : Record} (hr' : f'.store.lookup id = some r') :
    (∃ data, f.written op = some (id, data) ∧ r'.automation.nameSpace = data.nameSpace ∧
      r'.automation.secretName = data.secretName) ∨
    ∃ r, f.store.lookup id = some r ∧ r'.automation.nameSpace = r.automation.nameSpace ∧
      r'.automation.secretName = r.automation.secretName := by
  cases hrec : f.store.lookup id with
  | none =>
    left
    cases h.part id with
    | own s' hm hrow =>
      rcases hm.row_of_none hrec with hnone | ⟨tenantId, data, actor, gitSha, deadline, rfl, hcreated⟩
      · simp [hrow, hnone] at hr'
      · obtain rfl := Option.some.inj ((hrow.trans hcreated).symm.trans hr')
        exact ⟨data, rfl, rfl, rfl⟩
    | admitted _ r hr => simp [hrec] at hr
    | other _ hrow => simp [hrow, hrec] at hr'
  | some r =>
    obtain ⟨r₁, o, hr₁, hmove, hown⟩ := h.row hrec
    obtain rfl := Option.eq_some_unique hr₁ hr'
    have keeps (hsame : r₁.automation.target = r.automation.target) :
        r₁.automation.nameSpace = r.automation.nameSpace ∧
          r₁.automation.secretName = r.automation.secretName :=
      ⟨congrArg BuildTarget.wallet hsame, congrArg BuildTarget.secretName hsame⟩
    -- only a finished edit changes the definition of a row that exists
    rcases hown with rfl | hsame
    · rcases hmove.target with ⟨-, hsame⟩ | ⟨p, claim, tenantId, data, actor, gitSha, rfl, hp, hheld, rfl⟩ |
        ⟨p, event, target, created, -, -, -, rfl⟩
      · exact Or.inr ⟨r, rfl, keeps hsame⟩
      · refine Or.inl ⟨data, ?_, rfl, rfl⟩
        simp only [Fleet.written, show (f.calls id).edits p = _ from hp, Edit.finishing?, Option.bind_some,
          hrec, if_pos hheld]
      · exact Or.inr ⟨r, rfl, rfl, rfl⟩
    · exact Or.inr ⟨r, rfl, keeps hsame⟩

def sampleSettings : Settings where
  automationImageRepository := "registry/auto/"
  validateAutomation := fun _ => []

/-- Number the operations `1`, `2`, … as their times. -/
def fleetTimed (ops : List FleetOp) : List FleetAction := ops.mapIdx fun i op => ⟨i+1, op⟩

def runFleet (ops : List FleetOp) : Option Fleet :=
  exec (fleetStep sampleSettings) (emptyFleet sampleWorld) (fleetTimed ops)

def fleetTrace (ops : List FleetOp) : FleetTrace :=
  execTrace (fleetStep sampleSettings) (emptyFleet sampleWorld) (fleetTimed ops)

/-- An executed list of operations is a run. -/
theorem fleet_of_runFleet (ops : List FleetOp) (P : Fleet → Prop) [DecidablePred P]
    (hp : (runFleet ops).any (fun f => decide (P f)) = true) :
    ∃ f, FleetReached sampleSettings (fleetTrace ops) f ∧ P f := by
  obtain ⟨f, hrun, hf⟩ := Run.exists_of_exec (E := anyMove) (fun _ _ => trivial) (fleetTimed ops) P hp
  exact ⟨f, ⟨sampleWorld, hrun⟩, hf⟩

end KeepAutomation
