import KeepAutomation.CascadeProgress
import KeepAutomation.LastCheckpoint
import KeepAutomation.Requests
import KeepAutomation.Tenancy

/-! Whether a deboard summary tells the truth about its children. The pass reads
off which call raised where a child belongs, so it errs exactly on the children
whose call raised behind a commit, or before it saw what the row was. -/
namespace KeepAutomation

open KeyedTable FaultyTransaction

/-- A failure of the admission, at one of its statements or behind its commit. -/
structure AdmissionFault where
  point : Point
  fault : DbFault

def AdmissionFault.raises (f : AdmissionFault) : Fault Error := ⟨f.point, f.fault.error⟩

/-- What one child of a deboard pass meets. -/
structure FaultyAnswers where
  now : Timestamp
  fault : Option AdmissionFault
  cascade : ℕ → Answer

/-- The admission of a child with every point at which it may raise. -/
def admitChild (tenantId actor : String) (answers : FaultyAnswers) (record : Option Record) :
    Outcome (Option Record) Error Result :=
  run (answers.fault.map AdmissionFault.raises) (beginDeletePlan tenantId actor answers.now) record

/-- The bucket of a child whose cascade was attempted. -/
def cascaded (x : Shared × Runner) : ChildOutcome × Shared :=
  match x.2 with
  | .returned result => (if result.completed then .deleted else .inProgress, x.1)
  | _ => (.inProgress, x.1)

/-- The body of the deboard loop: each bucket is chosen by the call that raised. -/
def faultyChild (tenantId actor : String) (answers : FaultyAnswers) (sh : Shared) :
    ChildOutcome × Shared :=
  let o := admitChild tenantId actor answers sh.record
  let sh := { sh with record := o.store }
  match o.result with
  -- the order of the `except` clauses: the build guard, then anything else
  | .error .automationBuildingError => (.skippedBuilding, sh)
  | .error _ => (.failed, sh)
  | .ok _ => cascaded (runCascade answers.cascade sh)

/-- A deboard pass over any treatment of a child. -/
def deboardPass (child : UUID → Shared → ChildOutcome × Shared) :
    List UUID → DeboardSummary → Database → DeboardSummary × Database
  | [], s, d => (s, d)
  | automationId :: ids, s, d =>
    let (outcome, d) := d.onRow automationId (child automationId)
    deboardPass child ids (s.add automationId outcome) d

/-- The loop of `deboard_wallet`. -/
def faultyPass (tenantId actor : String) (answers : UUID → FaultyAnswers) (ids : List UUID)
    (s : DeboardSummary) (d : Database) : DeboardSummary × Database :=
  deboardPass (fun id => faultyChild tenantId actor (answers id)) ids s d

/-- `deboard_wallet` from its listing to its return. -/
def Database.faultyDeboard (d : Database) (tenantId walletName actor : String)
    (answers : UUID → FaultyAnswers) : DeboardSummary × Database :=
  faultyPass tenantId actor answers (d.children tenantId walletName) ⟨[], [], [], []⟩ d

/-- The bucket of an outcome. -/
def DeboardSummary.bucket (s : DeboardSummary) : ChildOutcome → List UUID
  | .deleted => s.deleted
  | .inProgress => s.inProgress
  | .skippedBuilding => s.skippedBuilding
  | .failed => s.failed

def DeboardSummary.all (s : DeboardSummary) : List UUID :=
  s.deleted ++ s.inProgress ++ s.skippedBuilding ++ s.failed

/-- What a bucket says about a child, given its row before and after the pass. -/
def ChildOutcome.Told (before after : Option Record) : ChildOutcome → Prop
  | .deleted => ∃ r, after = some r ∧ r.automation.matchingState = .deleted
  | .inProgress => ∃ r, after = some r ∧ r.automation.matchingState = .deleting
  | .skippedBuilding => after = before ∧ ∃ r, before = some r ∧ r.automation.buildState = .building
  | .failed => after = before ∧ ∃ r, before = some r ∧ r.automation.matchingState ∉ deletionStates

/-- The automations the pass is about. -/
def Selected (d : Database) (tenantId walletName : String) (id : UUID) : Prop :=
  ∃ r, d.store.lookup id = some r ∧ r.automation.tenantId = tenantId ∧
    r.automation.nameSpace = walletName ∧ r.automation.matchingState ≠ .deleted

/-- The summary lists the selection, each automation once, and nothing outside it
has changed. -/
structure Lists (d d' : Database) (tenantId walletName : String) (s : DeboardSummary) : Prop where
  once : s.all.Nodup
  exact : ∀ id, id ∈ s.all ↔ Selected d tenantId walletName id
  untouched : ∀ id, ¬Selected d tenantId walletName id → d'.store.lookup id = d.store.lookup id

/-- The summary tells the truth. -/
structure TellsTruth (d d' : Database) (tenantId walletName : String) (s : DeboardSummary) : Prop where
  lists : Lists d d' tenantId walletName s
  told : ∀ outcome, ∀ id ∈ s.bucket outcome, outcome.Told (d.store.lookup id) (d'.store.lookup id)

/-- The cascade of a child that is let through begins with step `first`: where its
row stands if it is deleting, behind the admission otherwise. -/
def BeginsAt (fault : Option AdmissionFault) (r : Record) (first : ℕ) : Prop :=
  ((∀ f ∈ fault, f.point ≠ .lock) ∧ checkpointMatches first r.automation ∧ 1 ≤ first ∧ first ≤ stepDeleted) ∨
  fault = none ∧ r.automation.matchingState ∉ deletionStates ∧ r.automation.buildState ≠ .building ∧
    first = stepCappResourcesDeleted

/-- A child whose call does not say what its row is: the admission raises behind
its commit, it raises before it has seen that the child is deleting, or the
cascade hides its end. -/
def Misreported (answers : FaultyAnswers) (images : ℕ) (r : Record) : Prop :=
  (∃ f ∈ answers.fault, f.point = .refresh ∧ r.automation.matchingState ∉ deletionStates ∧
    r.automation.buildState ≠ .building) ∨
  (∃ f ∈ answers.fault, f.point = .lock ∧ r.automation.matchingState = .deleting) ∨
  ∃ first, BeginsAt answers.fault r first ∧ HidesEnd answers.cascade images first

/-- No child is misreported, by its row at the start and the failures it meets. -/
def AllTold (answers : UUID → FaultyAnswers) (ids : List UUID) (d : Database) : Prop :=
  ∀ id ∈ ids, ∀ r, d.store.lookup id = some r →
    ¬Misreported (answers id) (d.world.listImageEntries id).length r

theorem deboardChild_ok {tenantId actor : String} {answers : ChildAnswers} {sh : Shared}
    {admission : DeleteAdmission} (hfault : answers.fault = none)
    (hd : beginDelete tenantId actor answers.now sh.record = .ok admission) :
    deboardChild tenantId actor answers sh =
      cascaded (runCascade answers.cascade { sh with record := some admission.record }) := by
  simp only [deboardChild, hfault, hd]
  generalize runCascade answers.cascade _ = x
  obtain ⟨sh', pc⟩ := x
  cases pc <;> rfl

/-- Without a failure behind a commit this is the loop of the user tier. -/
theorem faultyChild_early (tenantId actor : String) (answers : ChildAnswers) (sh : Shared) :
    faultyChild tenantId actor
        ⟨answers.now, answers.fault.map (AdmissionFault.mk .lock), answers.cascade⟩ sh =
      deboardChild tenantId actor answers sh := by
  cases hfault : answers.fault with
  | some f =>
    simp only [faultyChild, deboardChild, hfault, admitChild, Option.map_some]
    cases f <;> rfl
  | none =>
    cases hd : beginDelete tenantId actor answers.now sh.record with
    | error e =>
      simp only [faultyChild, deboardChild, hfault, hd, admitChild, Option.map_none, run, beginDeletePlan]
      cases e <;> rfl
    | ok d =>
      rw [deboardChild_ok hfault hd]
      simp only [faultyChild, admitChild, Option.map_none, run, beginDeletePlan, hd]
      obtain ⟨r, hr, -, ⟨-, rfl⟩ | ⟨-, -, rfl⟩⟩ := beginDelete_ok hd
      · simp only [hr, Bool.false_eq_true, if_false]
      · simp only [if_true]

theorem faultyPass_early (tenantId actor : String) (answers : UUID → ChildAnswers) (ids : List UUID)
    (s : DeboardSummary) (d : Database) :
    faultyPass tenantId actor (fun id => ⟨(answers id).now,
        (answers id).fault.map (AdmissionFault.mk .lock), (answers id).cascade⟩) ids s d =
      Database.deboardLoop tenantId actor answers ids s d := by
  induction ids generalizing s d with
  | nil => rfl
  | cons id ids ih =>
    have hchild := funext fun sh => faultyChild_early tenantId actor (answers id) sh
    simp only [faultyPass, deboardPass, Database.deboardLoop, hchild]
    exact ih _ _

/-- What a runner that is alone with its row shows, and whether it hides the end. -/
def Runner.Standing (hidden : Prop) (row : Automation) : Runner → Prop
  | .idle => row.matchingState = .deleting ∧ ¬hidden
  | .rereading _ => row.matchingState ∈ deletionStates ∧ ¬hidden
  | .returned result =>
    if result.completed then row.matchingState = .deleted ∧ ¬hidden
    else row.matchingState ∈ deletionStates ∧ (row.matchingState = .deleted ↔ hidden)
  | .raised _ => row.matchingState ∈ deletionStates ∧ (row.matchingState = .deleted ↔ hidden)
  | .crashed => False
  | pc => row.matchingState = .deleting ∧ ¬hidden ∧ pc.task = some (row, nextStep row)

theorem Runner.standing_of_task {hidden : Prop} {row : Automation} {pc : Runner}
    (hdeleting : row.matchingState = .deleting) (hclear : ¬hidden)
    (htask : pc.task = some (row, nextStep row)) : pc.Standing hidden row := by
  cases pc <;> simp [Runner.task] at htask <;>
    exact ⟨hdeleting, hclear, by simpa [Runner.task] using htask⟩

/-- A fresh pass shows what the row is. -/
theorem snapshot_standing {r : Record} {n : ℕ}
    (h : r.automation.matchingState ∈ deletionStates) :
    (snapshot (some r) n).Standing False r.automation := by
  rw [mem_deletionStates] at h
  simp only [snapshot, dispatch]
  split
  · rcases h with hdeleting | hdeleted
    · simp [Runner.Standing, CascadeResult.completed, cascadeResult, hdeleting]
    · simp [Runner.Standing, CascadeResult.completed, cascadeResult, hdeleted]
  split
  · next hdeleted => simp [Runner.Standing, CascadeResult.completed, cascadeResult, hdeleted]
  split
  · next hlive hdeleting =>
    rcases h with hdel | hdel
    · exact absurd hdel hdeleting
    · exact absurd hdel hlive
  next hdeleting =>
    have hstate := not_ne_iff.mp hdeleting
    split
    case h_6 => simp [Runner.Standing, hstate]
    all_goals
      next hstep => exact Runner.standing_of_task hstate not_false (by rw [hstep]; rfl)

theorem stopped_standing {hidden : Prop} {row a : Automation} (code : String)
    (ha : a.matchingState = .deleting) (hrow : row.matchingState ∈ deletionStates)
    (hhidden : row.matchingState = .deleted ↔ hidden) :
    (stopped a code).Standing hidden row := by
  have hopen : (cascadeResult a (some code)).completed = false := by
    simp [CascadeResult.completed, cascadeResult, ha]
  simp only [stopped, Runner.Standing, hopen, Bool.false_eq_true, if_false]
  exact ⟨hrow, hhidden⟩

/-- A checkpoint that is written deletes the row at the last step and at no other. -/
theorem checkpoint_standing (now : Timestamp) {r : Record} {k : ℕ}
    (hdeleting : r.automation.matchingState = .deleting) (hk : k = nextStep r.automation) :
    (checkpoint k now r).automation.id = r.automation.id ∧
      (checkpoint k now r).automation.matchingState ∈ deletionStates ∧
      ((checkpoint k now r).automation.matchingState = .deleted ↔ k = stepDeleted) := by
  have hlast (h5 : k = stepDeleted) : checkpointMatches k r.automation := by
    refine ⟨hdeleting, ?_⟩
    cases hstep : r.automation.deleteCascadeStep with
    | none => simp [nextStep, hstep, h5, stepDeleted] at hk
    | some m =>
      rw [nextStep, hstep, Option.getD_some, h5, stepDeleted] at hk
      obtain rfl : m = 4 := by omega
      simp [h5, stepDeleted]
  rcases checkpoint_cases k now r with he | ⟨-, -, he⟩
  · rw [he]
    refine ⟨rfl, by simp [hdeleting], iff_of_false (by simp [hdeleting]) ?_⟩
    intro h5
    have hwritten : (checkpoint k now r).automation.matchingState = .deleted := by
      rw [checkpoint, if_pos (hlast h5)]
      simp [h5]
    rw [he, hdeleting] at hwritten
    simp at hwritten
  · rw [he]
    by_cases h5 : k = stepDeleted
    · simp [h5]
    · simp [h5]

section Advance

variable {answer : Answer} {sh : Shared} {pc : Runner} {r : Record} {hidden : Prop}

/-- The row after an interaction, and what the runner then shows of it. -/
def Advances (answer : Answer) (sh : Shared) (pc : Runner) (r : Record) (hidden : Prop) : Prop :=
  ∃ r', (advance answer (sh, pc)).1.record = some r' ∧ r'.automation.id = r.automation.id ∧
    (advance answer (sh, pc)).2.Standing (hidden ∨ Hides answer (sh, pc)) r'.automation

/-- An interaction that hides nothing and leaves the row only has to stand. -/
theorem Advances.unhidden {next : Runner} {sh' : Shared} (hnot : ¬Hides answer (sh, pc))
    (hstep : advance answer (sh, pc) = (sh', next)) (hr : sh'.record = some r)
    (h : next.Standing hidden r.automation) : Advances answer sh pc r hidden := by
  have hflag : (hidden ∨ Hides answer (sh, pc)) = hidden := by
    rw [eq_iff_iff, or_iff_left hnot]
  refine ⟨r, ?_, rfl, ?_⟩
  · rw [hstep, hr]
  · rw [hstep, hflag]
    exact h

theorem advance_ended (hr : sh.record = some r) (h : pc.Standing hidden r.automation)
    (hdone : pc.finished = true) (hnot : ¬Hides answer (sh, pc)) : Advances answer sh pc r hidden :=
  .unhidden hnot (advance_finished hdone) hr h

/-- A call leads on with the same task, or stops at its snapshot. -/
theorem advance_called {world : World} {next stop : Runner} (hr : sh.record = some r)
    (hcall : pc.call sh.world = some (world, next, stop))
    (hop : pc.nextOp answer.outcome = .call answer.outcome) (hnot : ¬Hides answer (sh, pc))
    (hdeleting : r.automation.matchingState = .deleting) (hclear : ¬hidden)
    (htask : pc.task = some (r.automation, nextStep r.automation)) : Advances answer sh pc r hidden := by
  have hstopped (code : String) : (stopped r.automation code).Standing hidden r.automation :=
    stopped_standing code hdeleting (by simp [hdeleting]) (iff_of_false (by simp [hdeleting]) hclear)
  obtain ⟨a, m, htask', ⟨code, -, rfl⟩, hnext⟩ := Runner.call_leads hcall
  obtain ⟨rfl, rfl⟩ := Prod.mk.inj (Option.eq_some_unique htask' htask)
  have hstep : advance answer (sh, pc) =
      ({ sh with world := if answer.outcome.effective then world else sh.world },
        if answer.outcome = .ok then next else stopped r.automation code) := by
    simp only [advance, hop, Runner.step_call, hcall, Option.map_some, Option.getD_some]
  refine .unhidden hnot hstep hr ?_
  split
  · rcases hnext with ⟨hnext, -, -⟩ | ⟨-, rfl⟩
    · exact Runner.standing_of_task hdeleting hclear hnext
    · exact hstopped _
  · exact hstopped code

theorem advance_idle (hr : sh.record = some r) (h : Runner.idle.Standing hidden r.automation) :
    Advances answer sh .idle r hidden := by
  obtain ⟨hdeleting, hclear⟩ := h
  have hstep : advance answer (sh, .idle) = (sh, if answer.outcome ≠ .ok then .raised .sqlAlchemyError
      else snapshot sh.record 0) := by
    simp [advance, Runner.step, Runner.nextOp]
  refine .unhidden (not_hides (by simp) (by simp)) hstep hr ?_
  split
  · exact ⟨by simp [hdeleting], iff_of_false (by simp [hdeleting]) hclear⟩
  · rw [hr, eq_false hclear]
    exact snapshot_standing (by simp [hdeleting])

/-- The read behind a checkpoint hides the end when it fails on a deleted row. -/
theorem advance_rereading {n : ℕ} (hr : sh.record = some r)
    (h : (Runner.rereading n).Standing hidden r.automation) : Advances answer sh (.rereading n) r hidden := by
  obtain ⟨hrow, hclear⟩ := h
  have hstep : advance answer (sh, .rereading n) = (sh, if answer.outcome ≠ .ok then
      .raised .sqlAlchemyError else snapshot sh.record n) := by
    simp [advance, Runner.step, Runner.nextOp]
  by_cases hok : answer.outcome = .ok
  · have hnot : ¬Hides answer (sh, .rereading n) := by
      rintro (⟨_, _, hpc, -⟩ | ⟨_, _, -, -, -, hfails⟩)
      · simp at hpc
      · exact hfails hok
    refine .unhidden hnot hstep hr ?_
    rw [if_neg (not_not.mpr hok), hr, eq_false hclear]
    exact snapshot_standing hrow
  · refine ⟨r, by rw [hstep, hr], rfl, ?_⟩
    rw [hstep, if_pos hok]
    refine ⟨hrow, fun hdeleted => Or.inr (Or.inr ⟨n, r, rfl, hr, hdeleted, hok⟩), ?_⟩
    rintro (hhidden | ⟨_, _, hpc, -⟩ | ⟨_, r₁, -, hr₁, hdeleted, -⟩)
    · exact absurd hhidden hclear
    · simp at hpc
    · obtain rfl := Option.eq_some_unique hr hr₁
      exact hdeleted

/-- A checkpoint hides the end when it is the last, commits and raises. -/
theorem advance_saving {a : Automation} {n k : ℕ} (hr : sh.record = some r)
    (h : (Runner.saving a n k).Standing hidden r.automation) : Advances answer sh (.saving a n k) r hidden := by
  obtain ⟨hdeleting, hclear, htask⟩ := h
  obtain ⟨rfl, hk⟩ := Prod.mk.inj (Option.some.inj htask)
  obtain ⟨hid, hwritten, hlast⟩ := checkpoint_standing answer.now hdeleting hk
  have hhides : Hides answer (sh, .saving r.automation n k) ↔ k = stepDeleted ∧ answer.outcome = .lost := by
    constructor
    · rintro (⟨_, _, hpc, hlost⟩ | ⟨_, _, hpc, -⟩)
      · exact ⟨(Runner.saving.inj hpc).2.2, hlost⟩
      · simp at hpc
    · rintro ⟨rfl, hlost⟩
      exact Or.inl ⟨_, _, rfl, hlost⟩
  have hstep : advance answer (sh, .saving r.automation n k) =
      ({ sh with record :=
          if answer.outcome.effective then sh.record.map (checkpoint k answer.now) else sh.record },
        if answer.outcome = .ok then .rereading (n+1) else stopped r.automation "checkpoint_failed") := rfl
  unfold Advances
  rw [hstep, hhides]
  cases houtcome : answer.outcome with
  | ok =>
    refine ⟨_, by simp only [CallOutcome.effective, hr, Option.map_some, if_true], hid, hwritten, ?_⟩
    simpa using hclear
  | failed =>
    refine ⟨r, by simp [CallOutcome.effective, hr], rfl, ?_⟩
    refine stopped_standing _ hdeleting (by simp [hdeleting]) (iff_of_false (by simp [hdeleting]) ?_)
    simpa using hclear
  | lost =>
    refine ⟨_, by simp only [CallOutcome.effective, hr, Option.map_some, if_true], hid, ?_⟩
    refine stopped_standing _ hdeleting hwritten (hlast.trans ?_)
    simp [hclear]

variable (answer) in
/-- The step lemma of an attempt alone with its row. -/
theorem advance_standing (hr : sh.record = some r) (h : pc.Standing hidden r.automation) :
    Advances answer sh pc r hidden := by
  cases pc with
  | idle => exact advance_idle hr h
  | rereading n => exact advance_rereading hr h
  | saving a n k => exact advance_saving hr h
  | crashed => exact absurd h id
  | returned result => exact advance_ended hr h rfl (not_hides (by simp) (by simp))
  | raised error => exact advance_ended hr h rfl (not_hides (by simp) (by simp))
  | _ =>
    -- the runner stands at an external call
    obtain ⟨hdeleting, hclear, htask⟩ := h
    exact advance_called hr rfl rfl (not_hides (by simp) (by simp)) hdeleting hclear htask

end Advance

/-- The run lemma: an attempt hides the end when one of its interactions does. -/
theorem runAlone_standing (answers : ℕ → Answer) {sh : Shared} {r : Record} (hr : sh.record = some r)
    (hdeleting : r.automation.matchingState = .deleting) (n : ℕ) :
    ∃ r', (runAlone answers (sh, .idle) n).1.record = some r' ∧ r'.automation.id = r.automation.id ∧
      (runAlone answers (sh, .idle) n).2.Standing
        (∃ k < n, Hides (answers k) (runAlone answers (sh, .idle) k)) r'.automation := by
  induction n with
  | zero => exact ⟨r, hr, rfl, hdeleting, by simp⟩
  | succ n ih =>
    obtain ⟨r', hr', hid, hstanding⟩ := ih
    obtain ⟨r'', hr'', hid', hstanding'⟩ := advance_standing (answers n) hr' hstanding
    have hflag : ((∃ k < n, Hides (answers k) (runAlone answers (sh, .idle) k)) ∨
        Hides (answers n) (runAlone answers (sh, .idle) n)) =
        ∃ k < n+1, Hides (answers k) (runAlone answers (sh, .idle) k) := by
      rw [eq_iff_iff]
      simp only [Nat.lt_succ_iff_lt_or_eq, or_and_right, exists_or, exists_eq_left]
    exact ⟨r'', hr'', hid'.trans hid, hflag ▸ hstanding'⟩

/-- A call touches the images of its own automation only. -/
theorem Runner.call_others {pc next stop : Runner} {w world : World} {other : UUID}
    (h : pc.call w = some (world, next, stop)) (hother : ∀ a k, pc.task = some (a, k) → a.id ≠ other) :
    world.listImageEntries other = w.listImageEntries other := by
  cases pc <;> simp only [Runner.call, Option.some.injEq, Prod.mk.injEq, reduceCtorEq] at h <;>
    obtain ⟨rfl, -, -⟩ := h
  case deletingImages a n entry entries =>
    have hid : a.id ≠ other := hother a _ rfl
    unfold World.listImageEntries World.deleteImage
    dsimp only
    rw [List.filter_filter]
    congr 1
    apply List.filter_congr
    intro i _
    by_cases hi : i.1 = other
    · have hne : i ≠ (a.id, entry) := fun hsame => hid ((congrArg Prod.fst hsame).symm.trans hi)
      simp [hi, hne]
    · simp [hi]
  case archiving a n => exact listImageEntries_archive ..
  all_goals rfl

theorem advance_others (answer : Answer) {sh : Shared} {pc : Runner} {other : UUID}
    (hother : ∀ a k, pc.task = some (a, k) → a.id ≠ other) :
    (advance answer (sh, pc)).1.world.listImageEntries other = sh.world.listImageEntries other := by
  cases hcall : pc.call sh.world with
  | none => cases pc <;> simp [Runner.call] at hcall <;> rfl
  | some x =>
    obtain ⟨world, next, stop⟩ := x
    have hop : pc.nextOp answer.outcome = .call answer.outcome := by
      cases pc <;> simp [Runner.call] at hcall <;> rfl
    simp only [advance, hop, Runner.step_call, hcall, Option.map_some, Option.getD_some]
    split
    · exact Runner.call_others hcall hother
    · rfl

theorem Runner.Standing.task {hidden : Prop} {row a : Automation} {pc : Runner} {k : ℕ}
    (h : pc.Standing hidden row) (htask : pc.task = some (a, k)) : a = row := by
  cases pc <;> simp only [Runner.task, reduceCtorEq] at htask <;>
    exact (Prod.mk.inj (Option.some.inj (htask.symm.trans h.2.2))).1

/-- An attempt leaves the images of the other automations. -/
theorem runAlone_others (answers : ℕ → Answer) {sh : Shared} {r : Record} (hr : sh.record = some r)
    (hdeleting : r.automation.matchingState = .deleting) {other : UUID} (hother : other ≠ r.automation.id)
    (n : ℕ) : (runAlone answers (sh, .idle) n).1.world.listImageEntries other =
      sh.world.listImageEntries other := by
  induction n with
  | zero => rfl
  | succ n ih =>
    obtain ⟨r', -, hid, hstanding⟩ := runAlone_standing answers hr hdeleting n
    refine (advance_others (answers n) fun a k htask hsame => ?_).trans ih
    rw [hstanding.task htask, hid] at hsame
    exact hother hsame.symm

/-- How a runner that has ended is told apart. -/
theorem Runner.Standing.told {hidden : Prop} {r : Record} {x : Shared × Runner}
    (h : x.2.Standing hidden r.automation) (hend : x.2.finished = true) (before : Option Record) :
    (cascaded x).1.Told before (some r) ↔ ¬hidden := by
  have openly (hrow : r.automation.matchingState ∈ deletionStates)
      (hhidden : r.automation.matchingState = .deleted ↔ hidden) :
      ChildOutcome.inProgress.Told before (some r) ↔ ¬hidden := by
    rw [← hhidden]
    rw [mem_deletionStates] at hrow
    constructor
    · rintro ⟨r₁, hr₁, hdel⟩ hdeleted
      obtain rfl := Option.some.inj hr₁
      simp [hdel] at hdeleted
    · intro hnot
      exact ⟨r, rfl, hrow.resolve_right hnot⟩
  obtain ⟨sh, pc⟩ := x
  cases pc with
  | returned result =>
    simp only [Runner.Standing] at h
    simp only [cascaded]
    split at h
    · next hcompleted =>
      rw [if_pos hcompleted]
      exact iff_of_true ⟨r, rfl, h.1⟩ h.2
    · next hopen =>
      rw [if_neg hopen]
      exact openly h.1 h.2
  | raised error => exact openly h.1 h.2
  | crashed => exact absurd h id
  | _ => simp [Runner.finished] at hend

theorem cascaded_shared (x : Shared × Runner) : (cascaded x).2 = x.1 := by
  unfold cascaded
  split
  · rfl
  · rfl

/-- What an attempt alone with a deleting row comes to, and what it is taken for. -/
theorem runCascade_told (answers : ℕ → Answer) {sh : Shared} {r : Record} (hr : sh.record = some r)
    (hdeleting : r.automation.matchingState = .deleting) (before : Option Record) :
    (∃ r', (cascaded (runCascade answers sh)).2.record = some r' ∧ r'.automation.id = r.automation.id ∧
      ((cascaded (runCascade answers sh)).1.Told before (some r') ↔ ¬HidesIn answers (sh, .idle))) ∧
    ∀ other, other ≠ r.automation.id →
      (cascaded (runCascade answers sh)).2.world.listImageEntries other = sh.world.listImageEntries other := by
  have hend := runCascade_finished answers sh
  have hstands := runAlone_standing answers hr hdeleting (attemptBound sh.world)
  have hflag : (∃ k < attemptBound sh.world, Hides (answers k) (runAlone answers (sh, .idle) k)) ↔
      HidesIn answers (sh, .idle) := by
    constructor
    · rintro ⟨k, -, hk⟩
      exact ⟨k, hk⟩
    · rintro ⟨k, hk⟩
      refine ⟨k, ?_, hk⟩
      by_contra hlate
      obtain ⟨m, rfl⟩ := Nat.exists_eq_add_of_le (not_lt.mp hlate)
      rw [runAlone_of_finished hend] at hk
      exact not_hides_of_finished hend hk
  have himages (other : UUID) (hother : other ≠ r.automation.id) :=
    runAlone_others answers hr hdeleting hother (attemptBound sh.world)
  rw [hflag, ← runCascade] at hstands
  rw [← runCascade] at himages
  rw [cascaded_shared]
  refine ⟨?_, himages⟩
  generalize runCascade answers sh = x at hstands hend
  obtain ⟨r', hr', hid, hstanding⟩ := hstands
  exact ⟨r', hr', hid, hstanding.told hend before⟩

section Child

variable {tenantId actor : String} {answers : FaultyAnswers} {sh : Shared} {r : Record}

/-- A child already deleting is only read, unless the read itself raises. -/
theorem faultyChild_deleting (hr : sh.record = some r) (htenant : r.automation.tenantId = tenantId)
    (hdel : r.automation.matchingState = .deleting) :
    faultyChild tenantId actor answers sh =
      if ∃ f ∈ answers.fault, f.point = .lock then (.failed, sh)
      else cascaded (runCascade answers.cascade sh) := by
  have hplan : beginDeletePlan tenantId actor answers.now sh.record = .read (.admission r.automation false) := by
    simp [beginDeletePlan, beginDelete, scopedGet, hr, htenant, hdel]
  unfold faultyChild admitChild
  cases hfault : answers.fault with
  | none => simp [run, hplan]
  | some f =>
    by_cases hlock : f.point = .lock
    · cases hf : f.fault <;> simp [run, AdmissionFault.raises, hlock, hf, DbFault.error]
    · simp [run, AdmissionFault.raises, hlock, hplan]

/-- A building child is refused, unless the lock itself raises. -/
theorem faultyChild_building (hr : sh.record = some r) (htenant : r.automation.tenantId = tenantId)
    (hlive : r.automation.matchingState ∉ deletionStates) (hbuild : r.automation.buildState = .building) :
    faultyChild tenantId actor answers sh =
      (if ∃ f ∈ answers.fault, f.point = .lock then .failed else .skippedBuilding, sh) := by
  have hplan : beginDeletePlan tenantId actor answers.now sh.record = .refuse .automationBuildingError := by
    simp only [beginDeletePlan, beginDelete, scopedGet, hr, htenant, if_true, if_neg hlive, hbuild]
  unfold faultyChild admitChild
  cases hfault : answers.fault with
  | none => simp [run, hplan]
  | some f =>
    by_cases hlock : f.point = .lock
    · cases hf : f.fault <;> simp [run, AdmissionFault.raises, hlock, hf, DbFault.error]
    · simp [run, AdmissionFault.raises, hlock, hplan]

theorem beginDeletePlan_write (hr : sh.record = some r) (htenant : r.automation.tenantId = tenantId)
    (hlive : r.automation.matchingState ∉ deletionStates) (hbuild : r.automation.buildState ≠ .building)
    (now : Timestamp) : beginDeletePlan tenantId actor now sh.record =
      .write (some (r.markDeleting actor now)) (.admission (r.markDeleting actor now).automation true) := by
  rw [hr]
  simp only [beginDeletePlan, beginDelete_of htenant hlive hbuild, if_true]

/-- A child that passes its checks is admitted. -/
theorem faultyChild_admitted (hr : sh.record = some r) (htenant : r.automation.tenantId = tenantId)
    (hlive : r.automation.matchingState ∉ deletionStates) (hbuild : r.automation.buildState ≠ .building)
    (hnone : answers.fault = none) :
    faultyChild tenantId actor answers sh = cascaded (runCascade answers.cascade
      { sh with record := some (r.markDeleting actor answers.now) }) := by
  simp [faultyChild, admitChild, hnone, run, beginDeletePlan_write hr htenant hlive hbuild]

/-- A fault leaves such a child as it was, unless it strikes behind the commit. -/
theorem faultyChild_failed (hr : sh.record = some r) (htenant : r.automation.tenantId = tenantId)
    (hlive : r.automation.matchingState ∉ deletionStates) (hbuild : r.automation.buildState ≠ .building)
    {f : AdmissionFault} (hf : answers.fault = some f) :
    faultyChild tenantId actor answers sh = (.failed, if f.point = .refresh then
      { sh with record := some (r.markDeleting actor answers.now) } else sh) := by
  have hplan : beginDeletePlan tenantId actor answers.now sh.record = _ :=
    beginDeletePlan_write hr htenant hlive hbuild answers.now
  cases hpoint : f.point <;> cases hkind : f.fault <;>
    simp [faultyChild, admitChild, hf, run, AdmissionFault.raises, hpoint, hkind, DbFault.error, hplan]

/-- When a child is misreported, by what its row is. -/
theorem misreported_deleting {images : ℕ} (hdeleting : r.automation.matchingState = .deleting) :
    Misreported answers images r ↔ (∃ f ∈ answers.fault, f.point = .lock) ∨
      (∀ f ∈ answers.fault, f.point ≠ .lock) ∧ ∃ first, checkpointMatches first r.automation ∧
        (1 ≤ first ∧ first ≤ stepDeleted) ∧ HidesEnd answers.cascade images first := by
  have hdel : r.automation.matchingState ∈ deletionStates := by simp [hdeleting]
  constructor
  · rintro (⟨f, -, -, hlive, -⟩ | ⟨f, hf, hpoint, -⟩ | ⟨k, ⟨hnolock, hrow, hk⟩ | ⟨-, hlive, -⟩, hhides⟩)
    · exact absurd hdel hlive
    · exact Or.inl ⟨f, hf, hpoint⟩
    · exact Or.inr ⟨hnolock, k, hrow, hk, hhides⟩
    · exact absurd hdel hlive
  · rintro (⟨f, hf, hpoint⟩ | ⟨hnolock, k, hrow, hk, hhides⟩)
    · exact Or.inr (Or.inl ⟨f, hf, hpoint, hdeleting⟩)
    · exact Or.inr (Or.inr ⟨k, Or.inl ⟨hnolock, hrow, hk⟩, hhides⟩)

/-- No step is due on a row that is not deleting. -/
theorem not_matches_of_live {first : ℕ} (hlive : r.automation.matchingState ∉ deletionStates) :
    ¬checkpointMatches first r.automation := by
  rintro ⟨hdeleting, -⟩
  exact hlive (by simp [hdeleting])

theorem not_misreported_building {images : ℕ} (hlive : r.automation.matchingState ∉ deletionStates)
    (hbuild : r.automation.buildState = .building) : ¬Misreported answers images r := by
  rintro (⟨f, -, -, -, hidle⟩ | ⟨f, -, -, hdeleting⟩ | ⟨k, ⟨-, hrow, -⟩ | ⟨-, -, hidle, -⟩, -⟩)
  · exact hidle hbuild
  · exact hlive (by simp [hdeleting])
  · exact not_matches_of_live hlive hrow
  · exact hidle hbuild

theorem misreported_admitted {images : ℕ} (hlive : r.automation.matchingState ∉ deletionStates)
    (hbuild : r.automation.buildState ≠ .building) (hnone : answers.fault = none) :
    Misreported answers images r ↔ HidesEnd answers.cascade images stepCappResourcesDeleted := by
  constructor
  · rintro (⟨f, hf, -⟩ | ⟨f, hf, -⟩ | ⟨k, ⟨-, hrow, -⟩ | ⟨-, -, -, rfl⟩, hhides⟩)
    · simp [hnone] at hf
    · simp [hnone] at hf
    · exact absurd hrow (not_matches_of_live hlive)
    · exact hhides
  · intro hhides
    exact Or.inr (Or.inr ⟨_, Or.inr ⟨hnone, hlive, hbuild, rfl⟩, hhides⟩)

theorem misreported_failed {images : ℕ} (hlive : r.automation.matchingState ∉ deletionStates)
    (hbuild : r.automation.buildState ≠ .building) {f : AdmissionFault} (hf : answers.fault = some f) :
    Misreported answers images r ↔ f.point = .refresh := by
  constructor
  · rintro (⟨f₁, hf₁, hpoint, -⟩ | ⟨f₁, -, -, hdeleting⟩ | ⟨k, ⟨-, hrow, -⟩ | ⟨hnone, -⟩, -⟩)
    · obtain rfl := Option.eq_some_unique hf hf₁
      exact hpoint
    · exact absurd (by simp [hdeleting]) hlive
    · exact absurd hrow (not_matches_of_live hlive)
    · simp [hf] at hnone
  · intro hpoint
    exact Or.inl ⟨f, hf, hpoint, hlive, hbuild⟩

/-- The row that an admission leaves is to begin with step 2, and only with that. -/
theorem markDeleting_matches (r : Record) (actor : String) (now : Timestamp) {first : ℕ} (hfirst : 1 ≤ first) :
    checkpointMatches first (r.markDeleting actor now).automation ↔ first = stepCappResourcesDeleted := by
  constructor
  · intro h
    exact (nextStep_of_matches hfirst h).symm
  · rintro rfl
    exact ⟨rfl, rfl⟩

/-- The turn of a child says what its row is, exactly when it is not misreported, and
leaves the images of the other automations. -/
def TurnTold (tenantId actor : String) (answers : FaultyAnswers) (sh : Shared) (r : Record) : Prop :=
  (∃ r', (faultyChild tenantId actor answers sh).2.record = some r' ∧ r'.automation.id = r.automation.id ∧
    ((faultyChild tenantId actor answers sh).1.Told (some r) (some r') ↔
      ¬Misreported answers (sh.world.listImageEntries r.automation.id).length r)) ∧
  ∀ other, other ≠ r.automation.id →
    (faultyChild tenantId actor answers sh).2.world.listImageEntries other = sh.world.listImageEntries other

theorem turnTold_deleting (hr : sh.record = some r) (htenant : r.automation.tenantId = tenantId)
    (hdeleting : r.automation.matchingState = .deleting) : TurnTold tenantId actor answers sh r := by
  unfold TurnTold
  rw [faultyChild_deleting hr htenant hdeleting, misreported_deleting hdeleting]
  by_cases hlock : ∃ f ∈ answers.fault, f.point = .lock
  · -- the lock raises before the row is seen, and the child counts as not admitted
    rw [if_pos hlock]
    refine ⟨⟨r, hr, rfl, iff_of_false ?_ (not_not.mpr (Or.inl hlock))⟩, fun _ _ => rfl⟩
    rintro ⟨-, r₁, h₁, hlive⟩
    obtain rfl := Option.some.inj h₁
    exact hlive (by simp [hdeleting])
  · have hnolock : ∀ f ∈ answers.fault, f.point ≠ .lock := fun f hf hpoint => hlock ⟨f, hf, hpoint⟩
    rw [if_neg hlock, or_iff_right hlock, and_iff_right hnolock, ← hidesIn_idle_iff hr hdeleting]
    exact runCascade_told answers.cascade hr hdeleting (some r)

theorem turnTold_building (hr : sh.record = some r) (htenant : r.automation.tenantId = tenantId)
    (hlive : r.automation.matchingState ∉ deletionStates) (hbuild : r.automation.buildState = .building) :
    TurnTold tenantId actor answers sh r := by
  unfold TurnTold
  rw [faultyChild_building hr htenant hlive hbuild]
  refine ⟨⟨r, hr, rfl, iff_of_true ?_ (not_misreported_building hlive hbuild)⟩, fun _ _ => rfl⟩
  -- refused as building, or for the lock: either way the row stays as it was
  dsimp only
  split
  · exact ⟨rfl, r, rfl, hlive⟩
  · exact ⟨rfl, r, rfl, hbuild⟩

theorem turnTold_live (hr : sh.record = some r) (htenant : r.automation.tenantId = tenantId)
    (hlive : r.automation.matchingState ∉ deletionStates) (hbuild : r.automation.buildState ≠ .building) :
    TurnTold tenantId actor answers sh r := by
  unfold TurnTold
  cases hfault : answers.fault with
  | none =>
    rw [faultyChild_admitted hr htenant hlive hbuild hfault, misreported_admitted hlive hbuild hfault]
    obtain ⟨begun, hsame⟩ : ∃ begun : Shared,
        begun = { sh with record := some (r.markDeleting actor answers.now) } := ⟨_, rfl⟩
    have hbegun : begun.record = some (r.markDeleting actor answers.now) := by rw [hsame]
    have hworld : begun.world = sh.world := by rw [hsame]
    have hhides : HidesIn answers.cascade (begun, .idle) ↔
        HidesEnd answers.cascade (sh.world.listImageEntries r.automation.id).length stepCappResourcesDeleted := by
      rw [hidesIn_idle_iff hbegun rfl, hworld]
      constructor
      · rintro ⟨first, hrow, hbounds, hends⟩
        rw [(markDeleting_matches r actor answers.now hbounds.1).mp hrow] at hends
        exact hends
      · intro hends
        exact ⟨_, (markDeleting_matches r actor answers.now (by decide)).mpr rfl, by decide, hends⟩
    rw [← hsame, ← hhides, ← hworld]
    exact runCascade_told answers.cascade hbegun rfl (some r)
  | some f =>
    rw [faultyChild_failed hr htenant hlive hbuild hfault, misreported_failed hlive hbuild hfault]
    by_cases hpoint : f.point = .refresh
    · -- the delete is committed, and the child counts as not admitted
      rw [if_pos hpoint]
      refine ⟨⟨r.markDeleting actor answers.now, rfl, rfl, iff_of_false ?_ (not_not.mpr hpoint)⟩, fun _ _ => rfl⟩
      rintro ⟨hsame, -⟩
      have hstate := congrArg (fun r => r.automation.matchingState) (Option.some.inj hsame)
      exact hlive (hstate ▸ by simp [Record.markDeleting, Record.transition])
    · rw [if_neg hpoint]
      exact ⟨⟨r, hr, rfl, iff_of_true ⟨rfl, r, rfl, hlive⟩ hpoint⟩, fun _ _ => rfl⟩

variable (actor answers) in
/-- The bucket of a child is right exactly when the child is not misreported. -/
theorem faultyChild_told (hr : sh.record = some r) (htenant : r.automation.tenantId = tenantId)
    (hnot : r.automation.matchingState ≠ .deleted) : TurnTold tenantId actor answers sh r := by
  by_cases hdel : r.automation.matchingState ∈ deletionStates
  · exact turnTold_deleting hr htenant (((mem_deletionStates _).mp hdel).resolve_right hnot)
  by_cases hbuild : r.automation.buildState = .building
  · exact turnTold_building hr htenant hdel hbuild
  · exact turnTold_live hr htenant hdel hbuild

end Child

section Pass

variable {tenantId walletName actor : String} {answers : UUID → FaultyAnswers}

/-- A call about one row writes no other. -/
theorem onRow_lookup_ne {α : Type} {d : Database} {id other : UUID} {call : Shared → α × Shared}
    (hid : ∀ r', (call ⟨d.store.lookup id, d.world⟩).2.record = some r' → r'.automation.id = id)
    (hother : other ≠ id) : (d.onRow id call).2.store.lookup other = d.store.lookup other := by
  unfold Database.onRow
  generalize call ⟨d.store.lookup id, d.world⟩ = x at hid
  obtain ⟨a, ⟨record, world⟩⟩ := x
  cases record with
  | none => rfl
  | some r' =>
    have hkey := hid r' rfl
    exact Table.lookup_put_of_ne (by rw [hkey]; exact hother.symm)

theorem onRow_lookup_self {α : Type} {d : Database} {id : UUID} {call : Shared → α × Shared} {r r' : Record}
    (hr : d.store.lookup id = some r) (hr' : (call ⟨d.store.lookup id, d.world⟩).2.record = some r')
    (hid : r'.automation.id = id) : (d.onRow id call).2.store.lookup id = some r' := by
  unfold Database.onRow
  generalize call ⟨d.store.lookup id, d.world⟩ = x at hr'
  obtain ⟨a, ⟨record, world⟩⟩ := x
  obtain rfl : record = some r' := hr'
  subst hid
  exact Table.lookup_put_self hr

/-- What a pass does, child by child. -/
def passResults (child : UUID → Shared → ChildOutcome × Shared) :
    List UUID → Database → List (UUID × ChildOutcome)
  | [], _ => []
  | id :: ids, d => (id, (d.onRow id (child id)).1) :: passResults child ids (d.onRow id (child id)).2

theorem bucket_add (s : DeboardSummary) (id : UUID) (outcome bucket : ChildOutcome) :
    (s.add id outcome).bucket bucket = s.bucket bucket ++ if outcome = bucket then [id] else [] := by
  cases outcome <;> cases bucket <;> simp [DeboardSummary.add, DeboardSummary.bucket]

theorem all_add (s : DeboardSummary) (id : UUID) (outcome : ChildOutcome) :
    (s.add id outcome).all.Perm (s.all ++ [id]) := by
  -- count the id in its bucket
  rw [List.perm_iff_count]
  intro x
  cases outcome <;> simp only [DeboardSummary.add, DeboardSummary.all, List.count_append] <;> omega

/-- The summary lists the children, each in the bucket of its outcome. -/
theorem deboardPass_summary (child : UUID → Shared → ChildOutcome × Shared) (ids : List UUID)
    (s : DeboardSummary) (d : Database) :
    (deboardPass child ids s d).1.all.Perm (s.all ++ ids) ∧
      ∀ bucket, (deboardPass child ids s d).1.bucket bucket =
        s.bucket bucket ++ ((passResults child ids d).filter (fun x => x.2 = bucket)).map Prod.fst := by
  induction ids generalizing s d with
  | nil => exact ⟨by simp [deboardPass], by simp [deboardPass, passResults]⟩
  | cons id ids ih =>
    obtain ⟨hall, hbuckets⟩ := ih (s.add id (d.onRow id (child id)).1) (d.onRow id (child id)).2
    refine ⟨?_, ?_⟩
    · refine hall.trans (((all_add s id _).append_right ids).trans ?_)
      rw [List.append_assoc, List.singleton_append]
    · intro bucket
      refine (hbuckets bucket).trans ?_
      rw [bucket_add, passResults, List.filter_cons, List.append_assoc]
      by_cases hsame : (d.onRow id (child id)).1 = bucket
      · simp [hsame]
      · simp [hsame]

theorem mem_children {d : Database} {id : UUID} :
    id ∈ d.children tenantId walletName ↔ Selected d tenantId walletName id := by
  have hrow (r : Record) : Database.onWallet tenantId walletName r.automation = true ↔
      r.automation.tenantId = tenantId ∧ r.automation.nameSpace = walletName ∧
        r.automation.matchingState ≠ .deleted := by
    simp [Database.onWallet, and_assoc]
  simp only [Database.children, List.mem_map, (List.mergeSort_perm _ _).mem_iff, List.mem_filter]
  constructor
  · rintro ⟨_, ⟨⟨r, hr, rfl⟩, hon⟩, hid⟩
    exact ⟨r, Table.lookup_eq_some_iff.mpr ⟨hr, hid⟩, (hrow r).mp hon⟩
  · rintro ⟨r, hlookup, hon⟩
    obtain ⟨hr, hid⟩ := Table.mem_of_lookup hlookup
    exact ⟨r.automation, ⟨⟨r, hr, rfl⟩, (hrow r).mpr hon⟩, hid⟩

theorem children_nodup (d : Database) : (d.children tenantId walletName).Nodup := by
  have hids : ((d.store.rows.map Record.automation).map Automation.id).Nodup := by
    rw [List.map_map]
    exact d.store.nodup
  have hsorted := (List.mergeSort_perm ((d.store.rows.map Record.automation).filter
    (Database.onWallet tenantId walletName)) fun a b => decide (a.createdAt < b.createdAt ∨
      (a.createdAt = b.createdAt ∧ a.id.int ≤ b.id.int))).map Automation.id
  exact hsorted.nodup_iff.mpr ((List.filter_sublist.map Automation.id).nodup hids)

theorem passResults_ids (child : UUID → Shared → ChildOutcome × Shared) (ids : List UUID) (d : Database) :
    (passResults child ids d).map Prod.fst = ids := by
  induction ids generalizing d with
  | nil => rfl
  | cons id ids ih => rw [passResults, List.map_cons, ih]

/-- The results of a pass, against the tables before and after it. -/
def ResultsTold (tenantId actor : String) (answers : UUID → FaultyAnswers) (ids : List UUID)
    (d d' : Database) : Prop :=
  ∀ x ∈ passResults (fun id => faultyChild tenantId actor (answers id)) ids d,
    x.2.Told (d.store.lookup x.1) (d'.store.lookup x.1)

theorem onRow_world {α : Type} {d : Database} {id : UUID} {call : Shared → α × Shared} :
    (d.onRow id call).2.world = (call ⟨d.store.lookup id, d.world⟩).2.world := rfl

/-- The condition on the rest of a pass is the same before and behind a turn. -/
theorem AllTold.congr {ids : List UUID} {d d' : Database}
    (hrows : ∀ id ∈ ids, d'.store.lookup id = d.store.lookup id)
    (himages : ∀ id ∈ ids, d'.world.listImageEntries id = d.world.listImageEntries id) :
    AllTold answers ids d' ↔ AllTold answers ids d := by
  unfold AllTold
  refine forall₂_congr fun id hid => ?_
  rw [hrows id hid, himages id hid]

variable (actor answers) in
/-- The pass lemma: every child is told apart by its own turn. -/
theorem faultyPass_told {ids : List UUID} (hnodup : ids.Nodup) (s : DeboardSummary) {d : Database}
    (hselected : ∀ id ∈ ids, Selected d tenantId walletName id) :
    (∀ other, other ∉ ids →
      (faultyPass tenantId actor answers ids s d).2.store.lookup other = d.store.lookup other) ∧
    (ResultsTold tenantId actor answers ids d (faultyPass tenantId actor answers ids s d).2 ↔
      AllTold answers ids d) := by
  induction ids generalizing s d with
  | nil => exact ⟨fun _ _ => rfl, by simp [ResultsTold, passResults, AllTold]⟩
  | cons id ids ih =>
    -- the ids are distinct, so no later turn touches this row, nor this one the rest
    obtain ⟨hfresh, hrest⟩ := List.nodup_cons.mp hnodup
    obtain ⟨r, hr, htenant, -, hnot⟩ := hselected id List.mem_cons_self
    have hrow : (⟨d.store.lookup id, d.world⟩ : Shared).record = some r := hr
    obtain ⟨⟨r', hr', hid, htold⟩, himages⟩ := faultyChild_told actor (answers id) hrow htenant hnot
    have hown : r.automation.id = id := (Table.mem_of_lookup hr).2
    have hkey : r'.automation.id = id := hid.trans hown
    have hself := onRow_lookup_self hr hr' hkey
    have hne {other : UUID} (hother : other ∈ ids) : other ≠ id := fun hsame => hfresh (hsame ▸ hother)
    have hothers {other : UUID} (hother : other ≠ id) :
        (d.onRow id (faultyChild tenantId actor (answers id))).2.store.lookup other =
          d.store.lookup other := by
      refine onRow_lookup_ne (fun r₁ h₁ => ?_) hother
      obtain rfl := Option.eq_some_unique hr' h₁
      exact hkey
    have hselected' : ∀ q ∈ ids, Selected (d.onRow id (faultyChild tenantId actor (answers id))).2
        tenantId walletName q := by
      intro q hq
      obtain ⟨rq, hrq, hon⟩ := hselected q (List.mem_cons_of_mem _ hq)
      exact ⟨rq, (hothers (hne hq)).trans hrq, hon⟩
    obtain ⟨hkept, hiff⟩ := ih hrest (s.add id (d.onRow id (faultyChild tenantId actor (answers id))).1)
      hselected'
    have hlater : AllTold answers ids (d.onRow id (faultyChild tenantId actor (answers id))).2 ↔
        AllTold answers ids d := by
      refine AllTold.congr (fun q hq => hothers (hne hq)) fun q hq => ?_
      rw [onRow_world]
      exact himages q (by rw [hown]; exact hne hq)
    refine ⟨?_, ?_⟩
    · intro other hother
      rw [List.mem_cons, not_or] at hother
      exact (hkept other hother.2).trans (hothers hother.1)
    · have hend : (faultyPass tenantId actor answers (id :: ids) s d).2.store.lookup id = some r' :=
        (hkept id hfresh).trans hself
      have hfirst : (∀ r, d.store.lookup id = some r →
          ¬Misreported (answers id) (d.world.listImageEntries id).length r) ↔
            ¬Misreported (answers id) (d.world.listImageEntries id).length r := by
        constructor
        · exact fun hall => hall r hr
        · intro hnotr r₁ h₁
          obtain rfl := Option.eq_some_unique hr h₁
          exact hnotr
      rw [AllTold, List.forall_mem_cons, hfirst, ← AllTold, ← hlater, ← hiff, ResultsTold, passResults,
        List.forall_mem_cons]
      refine and_congr ?_ (forall₂_congr fun x hx => ?_)
      · -- the turn of this child, which no later turn touches
        rw [hend]
        rw [← hr, hown] at htold
        exact htold
      · have hmem : x.1 ∈ ids := by
          have hfst := List.mem_map_of_mem (f := Prod.fst) hx
          rwa [passResults_ids] at hfst
        rw [hothers (hne hmem)]
        rfl

/-- The deboard summary tells the truth exactly when no child is misreported; what
it lists is the selection in any case. -/
theorem deboard_summary_truthful (tenantId walletName actor : String) (answers : UUID → FaultyAnswers)
    (d : Database) :
    Lists d (d.faultyDeboard tenantId walletName actor answers).2 tenantId walletName
        (d.faultyDeboard tenantId walletName actor answers).1 ∧
      (TellsTruth d (d.faultyDeboard tenantId walletName actor answers).2 tenantId walletName
          (d.faultyDeboard tenantId walletName actor answers).1 ↔
        AllTold answers (d.children tenantId walletName) d) := by
  have hchildren (id : UUID) : id ∈ d.children tenantId walletName ↔ Selected d tenantId walletName id :=
    mem_children
  obtain ⟨hall, hbuckets⟩ := deboardPass_summary
    (fun id => faultyChild tenantId actor (answers id)) (d.children tenantId walletName) ⟨[], [], [], []⟩ d
  obtain ⟨hkept, hiff⟩ := faultyPass_told actor answers (children_nodup d) ⟨[], [], [], []⟩ fun id hid => (hchildren id).mp hid
  have hperm : (d.faultyDeboard tenantId walletName actor answers).1.all.Perm
      (d.children tenantId walletName) := hall
  have hlists : Lists d (d.faultyDeboard tenantId walletName actor answers).2 tenantId walletName
      (d.faultyDeboard tenantId walletName actor answers).1 := by
    refine ⟨hperm.nodup_iff.mpr (children_nodup d), ?_, ?_⟩
    · intro id
      rw [hperm.mem_iff]
      exact hchildren id
    · intro id hid
      exact hkept id fun hmem => hid ((hchildren id).mp hmem)
  refine ⟨hlists, ?_⟩
  rw [← hiff]
  have hbucket (outcome : ChildOutcome) (id : UUID) :
      id ∈ (d.faultyDeboard tenantId walletName actor answers).1.bucket outcome ↔
        (id, outcome) ∈ passResults (fun id => faultyChild tenantId actor (answers id))
          (d.children tenantId walletName) d := by
    have hempty : (⟨[], [], [], []⟩ : DeboardSummary).bucket outcome = [] := by
      cases outcome <;> rfl
    rw [Database.faultyDeboard, faultyPass, hbuckets outcome, hempty, List.nil_append]
    simp only [List.mem_map, List.mem_filter, decide_eq_true_eq, Prod.exists, exists_and_right,
      exists_eq_right]
  constructor
  · rintro ⟨-, htold⟩ ⟨id, outcome⟩ hx
    exact htold outcome id ((hbucket outcome id).mpr hx)
  · intro htold
    exact ⟨hlists, fun outcome id hid => htold ⟨id, outcome⟩ ((hbucket outcome id).mp hid)⟩

end Pass

/-- A row that was created, whose build failed and whose delete was admitted. -/
def deletingRow : Record :=
  (failBuild (createAutomation "t1" sampleId samplePayload "author" firstSha 99 1) firstFailure 2).markDeleting
    "deleter" 3

def deletingTable : Database := ⟨⟨[deletingRow], List.nodup_singleton _⟩, sampleWorld⟩

/-- The row is locked by another cascade's checkpoint. -/
def lockedOut : FaultyAnswers := ⟨4, some ⟨.lock, .busy⟩, cleanAnswers 5⟩

/-- A second pass meets the lock of a child that the first one left deleting, and
reports it as not admitted. -/
theorem deboard_misreports_deleting :
    (deletingTable.faultyDeboard "t1" "payments" "operator" fun _ => lockedOut).1.failed = [sampleId] ∧
      (∃ r, (deletingTable.faultyDeboard "t1" "payments" "operator" fun _ => lockedOut).2.store.lookup
        sampleId = some r ∧ r.automation.matchingState = .deleting) ∧
      ¬TellsTruth deletingTable
        (deletingTable.faultyDeboard "t1" "payments" "operator" fun _ => lockedOut).2 "t1" "payments"
        (deletingTable.faultyDeboard "t1" "payments" "operator" fun _ => lockedOut).1 := by
  have hfailed : (deletingTable.faultyDeboard "t1" "payments" "operator" fun _ => lockedOut).1.failed =
      [sampleId] := by decide +kernel
  have hrow : deletingTable.store.lookup sampleId = some deletingRow := rfl
  have hafter : (deletingTable.faultyDeboard "t1" "payments" "operator" fun _ => lockedOut).2.store.lookup
      sampleId = some deletingRow := by
    have hchildren : deletingTable.children "t1" "payments" = [sampleId] := by decide +kernel
    rw [Database.faultyDeboard, hchildren]
    rfl
  refine ⟨hfailed, ⟨deletingRow, hafter, rfl⟩, ?_⟩
  intro htruth
  have hmem : sampleId ∈ (deletingTable.faultyDeboard "t1" "payments" "operator"
      fun _ => lockedOut).1.bucket .failed := by
    rw [DeboardSummary.bucket, hfailed]
    exact List.mem_singleton_self _
  obtain ⟨-, r, hr, hlive⟩ := htruth.told .failed sampleId hmem
  obtain rfl := Option.eq_some_unique hrow hr
  exact hlive (by decide)

end KeepAutomation
