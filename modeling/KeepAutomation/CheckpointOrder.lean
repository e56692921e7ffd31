import KeepAutomation.AuditLog
import KeepAutomation.Runners

/-! Checkpoints never run ahead of the external work. A checkpoint may be written
by a runner that lost the race for it, from a snapshot the row has left behind,
so the work is looked for in the run: in the pass of some runner that began with
a read of the row at the checkpoint before. -/
namespace KeepAutomation

open TransitionSystem

/-- An external call of the cascade with its arguments. A listing is shown with
the inventory the registry would answer. -/
inductive ExternalCall where
  | deleteCapp (wallet name : String)
  | deleteSecret (wallet name : String)
  | listImageEntries (automationId : UUID) (entries : List String)
  | deleteImage (automationId : UUID) (entry : String)
  | archive (automationId : UUID) (actor : String)
  deriving DecidableEq

def ExternalCall.toRegistry : ExternalCall → Bool
  | .listImageEntries _ _ | .deleteImage _ _ => true
  | _ => false

def ExternalCall.toGit : ExternalCall → Bool
  | .archive _ _ => true
  | _ => false

/-- The external call a runner stands at. -/
def Runner.issues (w : World) : Runner → Option ExternalCall
  | .deletingCapp a _ => some (.deleteCapp a.nameSpace (cappNameFor a.id a.cappDeploymentId))
  | .deletingSecret a _ => some (.deleteSecret a.nameSpace (runAuthSecretName a.id))
  | .listing a _ => some (.listImageEntries a.id (w.listImageEntries a.id))
  | .deletingImages a _ entry _ => some (.deleteImage a.id entry)
  | .relisting a _ => some (.listImageEntries a.id (w.listImageEntries a.id))
  | .archiving a _ => some (.archive a.id a.updatedBy)
  | _ => none

/-- The call runner `p` completed in this transition. -/
def completedCall (p : ℕ) (t : Transition State Action) : Option ExternalCall :=
  match t.act.op with
  | .run q (.call .ok) => if q = p then (t.pre.runners p).issues t.pre.world else none
  | _ => none

/-- The calls runner `p` completed in a part of a run, oldest first. -/
def completedCalls (p : ℕ) (tr : Trace State Action) : List ExternalCall :=
  (tr.filterMap (completedCall p)).reverse

/-- `pass` goes on the one pass of runner `p`: all its steps are clean calls. -/
def SamePass (p : ℕ) (pass : Trace State Action) : Prop :=
  ∀ t ∈ pass, ∀ o, t.act.op = .run p o → o = .call .ok

/-- Runner `p` reads the row `a`, deleting. -/
def ReadsDeleting (p : ℕ) (a : Automation) (t : Transition State Action) : Prop :=
  t.act.op = .run p (.snapshot false) ∧ t.pre.record.map Record.automation = some a ∧
    a.matchingState = .deleting

/-- In one pass that began with a read of the deleting row at checkpoint `k`,
runner `p` completed exactly these calls, in this order. -/
def PassCompleted (p k : ℕ) (calls : List ExternalCall) (tr : Trace State Action) : Prop :=
  ∃ later pass start earlier a, tr = later ++ (pass ++ start :: earlier) ∧ ReadsDeleting p a start ∧
    a.deleteCascadeStep = some k ∧ SamePass p pass ∧ completedCalls p pass = calls

/-- A listing and the deletion of what is before the rest of it. -/
def imageDeletions (automationId : UUID) (done rest : List String) : List ExternalCall :=
  .listImageEntries automationId (done ++ rest) :: done.map (.deleteImage automationId)

/-- The calls that are the work of a step. -/
def StepWork (a : Automation) (completed : ℕ) (calls : List ExternalCall) : Prop :=
  match completed with
  | 2 => calls = [.deleteCapp a.nameSpace (cappNameFor a.id a.cappDeploymentId),
      .deleteSecret a.nameSpace (runAuthSecretName a.id)]
  | 3 => ∃ entries, calls = imageDeletions a.id entries [] ++ [.listImageEntries a.id []]
  | 4 => calls = [.archive a.id a.updatedBy]
  | _ => calls = []

/-- The calls a working runner has completed in its pass. -/
def Runner.Did (calls : List ExternalCall) : Runner → Prop
  | .deletingSecret a _ => calls = [.deleteCapp a.nameSpace (cappNameFor a.id a.cappDeploymentId)]
  | .deletingImages a _ entry entries => ∃ done, calls = imageDeletions a.id done (entry :: entries)
  | .relisting a _ => ∃ entries, calls = imageDeletions a.id entries []
  | .saving a _ completed => StepWork a completed calls
  | _ => calls = []

theorem completedCalls_cons (p : ℕ) (t : Transition State Action) (tr : Trace State Action) :
    completedCalls p (t :: tr) = completedCalls p tr ++ (completedCall p t).toList := by
  unfold completedCalls
  cases h : completedCall p t with
  | none => simp only [List.filterMap_cons, h, Option.toList_none, List.append_nil]
  | some c => simp only [List.filterMap_cons, h, List.reverse_cons, Option.toList_some]

/-- The step of a pass carries the work of the row it was read from to every
later row. -/
theorem StepWork.of_same {a b : Automation} {k : ℕ} {calls : List ExternalCall}
    (h : a.SameButCheckpoint b) (hw : StepWork a k calls) : StepWork b k calls := by
  unfold Automation.SameButCheckpoint at h
  rw [h]
  exact hw

/-- A pass that has just begun has completed nothing. -/
theorem snapshot_did (record : Option Record) (n : ℕ) : (snapshot record n).Did [] := by
  cases record with
  | none => rfl
  | some r =>
    simp only [snapshot, dispatch]
    split
    · rfl
    split
    · rfl
    split
    · rfl
    split
    all_goals rfl

theorem deletingAll_did (a : Automation) (n : ℕ) (done rest : List String) :
    (deletingAll a n rest).Did (imageDeletions a.id done rest) := by
  cases rest with
  | nil => exact ⟨done, rfl⟩
  | cons entry entries => exact ⟨done, rfl⟩

/-- A clean call adds itself to what the pass has completed. -/
theorem Runner.call_did {pc next stop : Runner} {w world : World} {calls : List ExternalCall}
    (hcall : pc.call w = some (world, next, stop)) (hdid : pc.Did calls) (hnext : next.task ≠ none) :
    next.Did (calls ++ (pc.issues w).toList) := by
  cases pc <;> simp only [Runner.call, Option.some.injEq, Prod.mk.injEq, reduceCtorEq] at hcall <;>
    obtain ⟨-, rfl, -⟩ := hcall
  case deletingCapp a n =>
    obtain rfl : calls = [] := hdid
    rfl
  case deletingSecret a n =>
    obtain rfl : calls = _ := hdid
    rfl
  case listing a n =>
    obtain rfl : calls = [] := hdid
    exact deletingAll_did a n [] _
  case deletingImages a n entry entries =>
    obtain ⟨done, rfl⟩ := hdid
    have hmore : imageDeletions a.id done (entry :: entries) ++ [.deleteImage a.id entry] =
        imageDeletions a.id (done ++ [entry]) entries := by
      simp only [imageDeletions, List.append_assoc, List.cons_append, List.nil_append,
        List.map_append, List.map_cons, List.map_nil]
    have hdid := deletingAll_did a n (done ++ [entry]) entries
    rw [← hmore] at hdid
    exact hdid
  case relisting a n =>
    obtain ⟨entries, rfl⟩ := hdid
    -- the step is saved only if the second listing is empty
    split
    · next hempty =>
      refine ⟨entries, ?_⟩
      simp only [Runner.issues, hempty, Option.toList_some]
    · next hleft =>
      rw [if_neg hleft] at hnext
      exact absurd rfl hnext
  case archiving a n =>
    obtain rfl : calls = [] := hdid
    rfl

/-- The pass a working runner is in, as it stands in the run. -/
def Underway (p : ℕ) (a : Automation) (pc : Runner) (tr : Trace State Action) : Prop :=
  ∃ pass start earlier, tr = pass ++ start :: earlier ∧ ReadsDeleting p a start ∧
    SamePass p pass ∧ pc.Did (completedCalls p pass)

/-- A transition that is not a step of `p` leaves its pass as it is. -/
theorem Underway.frame {p : ℕ} {a : Automation} {pc : Runner} {tr : Trace State Action}
    {t : Transition State Action} (h : Underway p a pc tr) (ht : ∀ o, t.act.op ≠ .run p o) :
    Underway p a pc (t :: tr) := by
  obtain ⟨pass, start, earlier, rfl, hstart, hpass, hdid⟩ := h
  have hnone : completedCall p t = none := by
    unfold completedCall
    split
    · next q hop =>
      by_cases hq : q = p
      · subst hq
        exact absurd hop (ht _)
      · rw [if_neg hq]
    · rfl
  refine ⟨t :: pass, start, earlier, rfl, hstart, ?_, ?_⟩
  · intro t' ht' o ho
    rcases List.mem_cons.mp ht' with rfl | ht'
    · exact absurd ho (ht o)
    · exact hpass t' ht' o ho
  · rw [completedCalls_cons, hnone, Option.toList_none, List.append_nil]
    exact hdid

/-- Every working runner is in a pass that began with its snapshot and consists
of the clean calls that lead to where it stands. -/
theorem Reached.underway {cfg : Config} {E : State → Action → Prop} {tr : Trace State Action}
    {s : State} (h : Reached cfg E tr s) {p k : ℕ} {a : Automation}
    (hp : (s.runners p).task = some (a, k)) : Underway p a (s.runners p) tr := by
  obtain ⟨world, hrun⟩ := h
  refine hrun.history (P := fun tr s => ∀ p a k, (s.runners p).task = some (a, k) →
    Underway p a (s.runners p) tr) (fun p a k hp => by simp [initial, Runner.task] at hp) ?_ p a k hp
  intro tr s act s' _ hs _ hstep p a k hp
  obtain ⟨-, -, hm⟩ := step_move hstep
  rcases hm.runner p with ⟨hother, hsame⟩ | ⟨o, ho, hrun⟩
  · rw [hsame] at hp ⊢
    exact (hs p a k hp).frame hother
  · have hbefore := hs p a k
    generalize hpc : s.runners p = pc at hrun hbefore
    generalize s'.runners p = pc' at hrun hp ⊢
    generalize s'.toShared = sh' at hrun
    cases hrun with
    | started =>
      obtain ⟨r, hr, rfl, hdeleting, -⟩ := snapshot_task hp
      exact ⟨[], _, tr, rfl, ⟨ho, by simp only [hr, Option.map_some], hdeleting⟩, by simp [SamePass],
        snapshot_did _ _⟩
    | reread =>
      obtain ⟨r, hr, rfl, hdeleting, -⟩ := snapshot_task hp
      exact ⟨[], _, tr, rfl, ⟨ho, by simp only [hr, Option.map_some], hdeleting⟩, by simp [SamePass],
        snapshot_did _ _⟩
    | readFailed => simp [Runner.task] at hp
    -- a clean call goes on the pass, any other ends it
    | called outcome world' next stop hcall =>
      obtain ⟨hstop, hnext⟩ := Runner.call_task hcall
      split at hp
      · next hok =>
        subst hok
        rw [if_pos rfl]
        have htask : pc.task = some (a, k) := by
          rcases hnext with hnone | hsame
          · simp [hnone] at hp
          · exact hsame.symm.trans hp
        obtain ⟨pass, start, earlier, rfl, hstart, hpass, hdid⟩ := hbefore htask
        refine ⟨_ :: pass, start, earlier, rfl, hstart, ?_, ?_⟩
        · intro t' ht' o' ho'
          rcases List.mem_cons.mp ht' with rfl | ht'
          · have hop := ho.symm.trans ho'
            simp only [Op.run.injEq, true_and] at hop
            exact hop.symm
          · exact hpass t' ht' o' ho'
        · have hthis : completedCall p ⟨s, act, s'⟩ = pc.issues s.world := by
            simp only [completedCall, ho, if_true, hpc]
          rw [completedCalls_cons, hthis]
          exact Runner.call_did hcall hdid (by simp [hp])
      · simp [hstop] at hp
    | saved outcome =>
      split at hp
      · simp [Runner.task] at hp
      · simp [stopped, Runner.task] at hp
    | crashed => simp [Runner.task] at hp

theorem PassCompleted.cons {p k : ℕ} {calls : List ExternalCall} {tr : Trace State Action}
    (h : PassCompleted p k calls tr) (t : Transition State Action) :
    PassCompleted p k calls (t :: tr) := by
  obtain ⟨later, pass, start, earlier, a, rfl, hpass⟩ := h
  exact ⟨t :: later, pass, start, earlier, a, rfl, hpass⟩

/-- A step the row has reached was worked off, with the row's own values, by a
pass that began at the step before. -/
theorem Reached.worked_off {cfg : Config} {E : State → Action → Prop} {tr : Trace State Action}
    {s : State} (h : Reached cfg E tr s) {r : Record} (hr : s.record = some r) {k : ℕ} (hk : 2 ≤ k)
    (hreached : k ≤ r.automation.stepNumber) :
    ∃ p calls, StepWork r.automation k calls ∧ PassCompleted p (k-1) calls tr := by
  obtain ⟨world, hrun⟩ := h
  refine hrun.history (P := fun tr s => ∀ r, s.record = some r → k ≤ r.automation.stepNumber →
    ∃ p calls, StepWork r.automation k calls ∧ PassCompleted p (k-1) calls tr)
    (fun r hr => by simp [initial] at hr) ?_ r hr hreached
  intro tr s act s' hbefore hs _ hstep r' hr' hreached
  have hreach : Reached cfg E tr s := ⟨world, hbefore⟩
  obtain ⟨-, -, hm⟩ := step_move hstep
  rcases hm.row_after hr' with ⟨-, _, _, _, _, _, -, rfl⟩ | ⟨r, hrec, hrow⟩
  · have hzero : k ≤ 0 := hreached
    omega
  · rcases hrow.step_reached hreach.fenced hrec hk hreached with hold | ⟨p, a, n, outcome, -, hp⟩
    · -- worked off before: a row in deletion keeps the values the calls name
      obtain ⟨p, calls, hwork, hpass⟩ := hs r hrec hold
      have hsame : r.automation.SameButCheckpoint r'.automation := by
        have hmatches := (hreach.fenced.coherent r hrec).step
        have hdel : r.automation.matchingState ∈ deletionStates := by
          by_contra hlive
          have hnull := stepMatches_live hmatches hlive
          rw [Automation.stepNumber, hnull, Option.getD_none] at hold
          omega
        rcases hrow.in_deletion hreach.fenced hrec hdel with rfl | ⟨completed, rfl⟩
        · exact .refl _
        · exact checkpoint_sameButCheckpoint completed act.now r
      exact ⟨p, calls, hwork.of_same hsame, hpass.cons _⟩
    · -- worked off now: by the runner whose checkpoint this is
      have htask : (s.runners p).task = some (a, k) := by rw [hp]; rfl
      obtain ⟨pass, start, earlier, rfl, hstart, hpass, hdid⟩ := hreach.underway htask
      obtain ⟨r₂, h₂, hon⟩ := hreach.onTask htask
      obtain rfl := Option.eq_some_unique h₂ hrec
      have hsame := (hon.rowMove hreach.fenced hrec hrow).same
      rw [hp] at hdid
      exact ⟨p, _, StepWork.of_same hsame hdid, [_], pass, start, earlier, a, rfl, hstart, hon.atStep,
        hpass, rfl⟩

/-- A call is made only for the step after one the row has reached. -/
theorem Reached.call_in_order {cfg : Config} {E : State → Action → Prop} {tr : Trace State Action}
    {s : State} (h : Reached cfg E tr s) {p : ℕ} {c : ExternalCall}
    (hc : (s.runners p).issues s.world = some c) :
    ∃ r, s.record = some r ∧
      (c.toRegistry = true → stepCappResourcesDeleted ≤ r.automation.stepNumber) ∧
      (c.toGit = true → stepImagesDeleted ≤ r.automation.stepNumber) := by
  have htask : ∃ a k, (s.runners p).task = some (a, k) ∧
      (c.toRegistry = true → k = stepImagesDeleted) ∧ (c.toGit = true → k = stepScriptArchived) := by
    cases hp : s.runners p <;> rw [hp] at hc <;>
      simp only [Runner.issues, Option.some.injEq, reduceCtorEq] at hc <;> subst hc <;>
      exact ⟨_, _, rfl, by simp [ExternalCall.toRegistry], by simp [ExternalCall.toGit]⟩
  obtain ⟨a, k, htask, hregistry, hgit⟩ := htask
  obtain ⟨r, hr, hon⟩ := h.onTask htask
  have hbehind := hon.behind
  refine ⟨r, hr, ?_, ?_⟩
  · intro hc
    rw [hregistry hc] at hbehind
    exact hbehind
  · intro hc
    rw [hgit hc] at hbehind
    exact hbehind

/-- Checkpoints never run ahead of the external work: each was preceded by a pass,
begun at the checkpoint before, that did all the work of its step, and no call is
made ahead of the steps before its own. -/
theorem checkpoints_after_work (cfg : Config) (tr : Trace State Action) (s : State)
    (h : Reached cfg anything tr s) :
    (∀ r, s.record = some r →
      (2 ≤ r.automation.stepNumber → ∃ p, PassCompleted p 1
        [.deleteCapp r.automation.nameSpace
            (cappNameFor r.automation.id r.automation.cappDeploymentId),
          .deleteSecret r.automation.nameSpace (runAuthSecretName r.automation.id)] tr) ∧
      (3 ≤ r.automation.stepNumber → ∃ p entries, PassCompleted p 2
        (.listImageEntries r.automation.id entries ::
          entries.map (.deleteImage r.automation.id) ++ [.listImageEntries r.automation.id []]) tr) ∧
      (4 ≤ r.automation.stepNumber → ∃ p vs v, r.revisions = vs ++ [v] ∧ v.action = .delete ∧
        PassCompleted p 3 [.archive r.automation.id v.actor] tr)) ∧
    ∀ t ∈ tr, ∀ p outcome c, t.act.op = .run p (.call outcome) →
      (t.pre.runners p).issues t.pre.world = some c → ∃ r, t.pre.record = some r ∧
        (c.toRegistry = true → 2 ≤ r.automation.stepNumber) ∧
        (c.toGit = true → 3 ≤ r.automation.stepNumber) := by
  constructor
  · intro r hr
    refine ⟨?_, ?_, ?_⟩
    · intro hstep
      obtain ⟨p, calls, rfl, hpass⟩ := h.worked_off hr (by decide) hstep
      exact ⟨p, hpass⟩
    · intro hstep
      obtain ⟨p, calls, ⟨entries, rfl⟩, hpass⟩ := h.worked_off hr (by decide) hstep
      rw [imageDeletions, List.append_nil] at hpass
      exact ⟨p, entries, hpass⟩
    · intro hstep
      obtain ⟨p, calls, rfl, hpass⟩ := h.worked_off hr (by decide) hstep
      have hdel : r.automation.matchingState ∈ deletionStates := by
        by_contra hlive
        have hnull := stepMatches_live (h.fenced.coherent r hr).step hlive
        rw [Automation.stepNumber, hnull, Option.getD_none] at hstep
        omega
      obtain ⟨vs, v, hrev, hv, hactor, -⟩ := (h.deleteLogged hr).deleting hdel
      rw [← hactor] at hpass
      exact ⟨p, vs, v, hrev, hv, hpass⟩
  · intro t ht p outcome c _ hc
    obtain ⟨world, hrun⟩ := h
    obtain ⟨-, -, tr', hpre⟩ := hrun.transition ht
    have hbefore : Reached cfg anything tr' t.pre := ⟨world, hpre⟩
    exact hbefore.call_in_order hc

theorem checkpoints_after_work_sample : ∃ s r,
    Reached sampleConfig anything (sampleTrace deletionOps) s ∧ s.record = some r ∧
      ∃ p entries, PassCompleted p 2 (.listImageEntries r.automation.id entries ::
        entries.map (.deleteImage r.automation.id) ++ [.listImageEntries r.automation.id []])
        (sampleTrace deletionOps) := by
  obtain ⟨s, hs, r, hr, hstep⟩ := run_of_runSample (E := anything) deletionOps
    (fun s => ∃ r ∈ s.record, 3 ≤ r.automation.stepNumber) (by decide +kernel) (by decide +kernel)
  have hreach : Reached sampleConfig anything _ s := ⟨sampleWorld, hs⟩
  exact ⟨s, r, hreach, hr, (((checkpoints_after_work _ _ s hreach).1 r hr).2.1 hstep)⟩

/-- The transition in which a runner starts. -/
def startsRunner (t : Transition State Action) : Bool :=
  match t.act.op with
  | .run p (.snapshot _) =>
    match t.pre.runners p with
    | .idle => true
    | _ => false
  | _ => false

/-- No runner needs to start after a checkpoint: one runner goes through all of
them, a new pass after each. -/
theorem one_runner_passes_all : ∃ s r,
    Reached sampleConfig anything (sampleTrace deletionOps) s ∧ s.record = some r ∧
      4 ≤ r.automation.stepNumber ∧ ∀ t ∈ sampleTrace deletionOps, startsRunner t = true →
        ∃ r₀, t.pre.record = some r₀ ∧ r₀.automation.stepNumber < 2 := by
  obtain ⟨s, hs, ⟨r, hr, hstep⟩, hstarts⟩ := run_of_runSample (E := anything) deletionOps
    (fun s => (∃ r ∈ s.record, 4 ≤ r.automation.stepNumber) ∧
      ∀ t ∈ sampleTrace deletionOps, startsRunner t = true →
        ∃ r₀ ∈ t.pre.record, r₀.automation.stepNumber < 2)
    (by decide +kernel) (by decide +kernel)
  exact ⟨s, r, ⟨sampleWorld, hs⟩, hr, hstep, hstarts⟩

end KeepAutomation
