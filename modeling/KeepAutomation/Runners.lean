import KeepAutomation.Deletion

/-! What a cascade runner knows: the snapshot it works from is the row up to the
columns a checkpoint writes, taken while the row was deleting and at the step
before the one it works on. -/
namespace KeepAutomation

open TransitionSystem

/-- The snapshot of a runner's pass and the step the pass works on. -/
def Runner.task : Runner → Option (Automation × ℕ)
  | .deletingCapp a _ => some (a, stepCappResourcesDeleted)
  | .deletingSecret a _ => some (a, stepCappResourcesDeleted)
  | .listing a _ => some (a, stepImagesDeleted)
  | .deletingImages a _ _ _ => some (a, stepImagesDeleted)
  | .relisting a _ => some (a, stepImagesDeleted)
  | .archiving a _ => some (a, stepScriptArchived)
  | .saving a _ completed => some (a, completed)
  | _ => none

/-- A pass for step `k` from snapshot `a`, against the row now. -/
structure OnTask (a : Automation) (k : ℕ) (row : Automation) : Prop where
  deleting : a.matchingState = .deleting
  atStep : a.deleteCascadeStep = some (k-1)
  bounds : 2 ≤ k ∧ k ≤ 5
  same : a.SameButCheckpoint row
  inDeletion : row.matchingState ∈ deletionStates
  behind : k-1 ≤ row.stepNumber

theorem Automation.SameButCheckpoint.refl (a : Automation) : a.SameButCheckpoint a := rfl

theorem deletingAll_task (a : Automation) (n : ℕ) (entries : List String) :
    (deletingAll a n entries).task = some (a, stepImagesDeleted) := by
  cases entries with
  | nil => rfl
  | cons entry entries => rfl

/-- A new pass starts from the row as it is, if it is deleting. -/
theorem snapshot_task {record : Option Record} {n k : ℕ} {a : Automation}
    (h : (snapshot record n).task = some (a, k)) :
    ∃ r, record = some r ∧ a = r.automation ∧ a.matchingState = .deleting ∧ k = nextStep a := by
  cases record with
  | none => simp [snapshot, Runner.task] at h
  | some r =>
    refine ⟨r, rfl, ?_⟩
    simp only [snapshot, dispatch] at h
    split at h
    · simp [Runner.task] at h
    split at h
    · simp [Runner.task] at h
    split at h
    · simp [Runner.task] at h
    next hdeleting =>
      have hstate := not_ne_iff.mp hdeleting
      split at h
      all_goals first
        | next hstep =>
          simp only [Runner.task, Option.some.injEq, Prod.mk.injEq] at h
          obtain ⟨rfl, rfl⟩ := h
          exact ⟨rfl, hstate, hstep.symm⟩
        | simp [Runner.task] at h

/-- A call keeps the task of its pass, or ends the pass. -/
theorem Runner.call_task {pc next stop : Runner} {w world : World}
    (h : pc.call w = some (world, next, stop)) :
    stop.task = none ∧ (next.task = none ∨ next.task = pc.task) := by
  cases pc <;> simp only [Runner.call, Option.some.injEq, Prod.mk.injEq, reduceCtorEq] at h <;>
    obtain ⟨-, rfl, rfl⟩ := h
  case relisting a n =>
    refine ⟨rfl, ?_⟩
    split
    · exact Or.inr rfl
    · exact Or.inl rfl
  case listing a n => exact ⟨rfl, Or.inr (deletingAll_task a n _)⟩
  case deletingImages a n entry entries => exact ⟨rfl, Or.inr (deletingAll_task a n entries)⟩
  all_goals exact ⟨rfl, Or.inr rfl⟩

/-- The task after a runner's move: the one before, or that of a pass just
started. -/
theorem RunnerMove.task {now : Timestamp} {sh sh' : Shared} {pc pc' : Runner} {op : RunnerOp}
    {a : Automation} {k : ℕ} (h : RunnerMove now sh pc op sh' pc') (ht : pc'.task = some (a, k)) :
    (sh'.record = sh.record ∧ pc.task = some (a, k)) ∨
      (sh'.record = sh.record ∧ ∃ r, sh.record = some r ∧ a = r.automation ∧
        a.matchingState = .deleting ∧ k = nextStep a) := by
  cases h with
  | started => exact Or.inr ⟨rfl, snapshot_task ht⟩
  | reread => exact Or.inr ⟨rfl, snapshot_task ht⟩
  | readFailed => simp [Runner.task] at ht
  | called outcome world next stop hcall =>
    obtain ⟨hstop, hnext⟩ := Runner.call_task hcall
    refine Or.inl ⟨rfl, ?_⟩
    split at ht
    · rcases hnext with hnone | hsame
      · simp [hnone] at ht
      · exact hsame.symm.trans ht
    · simp [hstop] at ht
  | saved outcome =>
    split at ht
    · simp [Runner.task] at ht
    · simp [stopped, Runner.task] at ht
  | crashed => simp [Runner.task] at ht

/-- The step number only grows. -/
theorem RowMove.stepNumber_le {s : State} {now : Timestamp} {r r' : Record} {op : Op} (hs : Fenced s)
    (hr : s.record = some r) (h : RowMove s now r op r') :
    r.automation.stepNumber ≤ r'.automation.stepNumber := by
  by_cases hsame : r'.automation.deleteCascadeStep = r.automation.deleteCascadeStep
  · simp only [Automation.stepNumber, hsame, le_refl]
  · have hsucc := h.step_succ hs hr hsame
    have hnew : r'.automation.stepNumber = r.automation.stepNumber+1 := by
      rw [Automation.stepNumber, hsucc, Option.getD_some]
    omega

/-- The step lemma of a pass: its row only changes by checkpoints. -/
theorem OnTask.rowMove {s : State} {now : Timestamp} {r r' : Record} {op : Op} {a : Automation}
    {k : ℕ} (hs : Fenced s) (hr : s.record = some r) (hm : RowMove s now r op r')
    (h : OnTask a k r.automation) : OnTask a k r'.automation := by
  have hstep := hm.stepNumber_le hs hr
  have hbehind := h.behind
  rcases hm.in_deletion hs hr h.inDeletion with rfl | ⟨completed, rfl⟩
  · exact h
  · refine ⟨h.deleting, h.atStep, h.bounds,
      h.same.trans (checkpoint_sameButCheckpoint completed now r), ?_, by omega⟩
    have hdel := h.inDeletion
    rw [mem_deletionStates] at hdel
    rcases hdel with hdeleting | hdeleted
    · rw [mem_deletionStates]
      exact checkpoint_state completed now r hdeleting
    · rw [checkpoint_of_not_deleting (by simp [hdeleted])]
      simp [hdeleted]

/-- Every working runner is on a task of the row. -/
theorem Reached.onTask {cfg : Config} {E : State → Action → Prop} {tr : Trace State Action}
    {s : State} (h : Reached cfg E tr s) {p : ℕ} {a : Automation} {k : ℕ}
    (hp : (s.runners p).task = some (a, k)) :
    ∃ r, s.record = some r ∧ OnTask a k r.automation := by
  refine h.invariant (I := fun s => ∀ p a k, (s.runners p).task = some (a, k) →
    ∃ r, s.record = some r ∧ OnTask a k r.automation)
    (fun world p a k hp => by simp [initial, Runner.task] at hp) ?_ p a k hp
  intro tr s now op s' hreach hs _ _ _ hm p a k hp
  have carry : ∀ r, s.record = some r → OnTask a k r.automation →
      ∃ r', s'.record = some r' ∧ OnTask a k r'.automation := by
    intro r hr htask
    obtain ⟨r', hr', hrow⟩ := hm.row hr
    exact ⟨r', hr', htask.rowMove hreach.fenced hr hrow⟩
  rcases hm.runner p with ⟨-, hsame⟩ | ⟨o, -, hrun⟩
  · rw [hsame] at hp
    obtain ⟨r, hr, htask⟩ := hs p a k hp
    exact carry r hr htask
  · rcases hrun.task hp with ⟨-, hbefore⟩ | ⟨-, r, hr, rfl, hdeleting, rfl⟩
    · obtain ⟨r, hr, htask⟩ := hs p a k hbefore
      exact carry r hr htask
    · have hmatches := (hreach.fenced.coherent r hr).step
      rw [hdeleting] at hmatches
      obtain ⟨m, hm₁, hm₄, hm⟩ := hmatches
      have hnext : nextStep r.automation = m+1 := by
        rw [nextStep, hm, Option.getD_some]
      refine carry r hr ⟨hdeleting, ?_, ?_, .refl _, by simp [hdeleting], ?_⟩
      · rw [hnext, hm]
        rfl
      · omega
      · rw [hnext, Automation.stepNumber, hm, Option.getD_some]
        omega

/-- The step reaches `k` through a runner that saves it. -/
theorem RowMove.step_reached {s : State} {now : Timestamp} {r r' : Record} {op : Op} (hs : Fenced s)
    (hr : s.record = some r) (h : RowMove s now r op r') {k : ℕ} (hk : 2 ≤ k)
    (hreach : k ≤ r'.automation.stepNumber) :
    k ≤ r.automation.stepNumber ∨
      ∃ p a n outcome, op = .run p (.save outcome) ∧ s.runners p = .saving a n k := by
  by_cases hbefore : k ≤ r.automation.stepNumber
  · exact Or.inl hbefore
  · right
    have hne : r'.automation.deleteCascadeStep ≠ r.automation.deleteCascadeStep := by
      intro hsame
      rw [Automation.stepNumber, hsame] at hreach
      exact hbefore hreach
    have hsucc := h.step_succ hs hr hne
    have hnew : r'.automation.stepNumber = r.automation.stepNumber+1 := by
      rw [Automation.stepNumber, hsucc, Option.getD_some]
    have hnumber : k = r.automation.stepNumber+1 := by omega
    cases h with
    | @checkpointed p a n completed outcome hp =>
      rcases checkpoint_cases completed now r with he | ⟨-, -, he⟩
      · rw [he] at hne
        exact absurd rfl hne
      · have hcompleted : completed = k := by
          have hwritten : (checkpoint completed now r).automation.deleteCascadeStep = some completed := by
            rw [he]
          rw [hwritten] at hsucc
          exact (Option.some.inj hsucc).trans hnumber.symm
        exact ⟨p, a, n, outcome, rfl, hcompleted ▸ hp⟩
    | deleteAdmitted hlive =>
      have hnull := stepMatches_live (hs.coherent r hr).step hlive
      rw [Automation.stepNumber, hnull, Option.getD_none] at hnumber
      omega
    | @released p claim =>
      obtain ⟨_, _, _, he⟩ := releaseBuildClaim_frame claim r
      exact absurd (by rw [he]) hne
    | _ => exact absurd rfl hne

end KeepAutomation
