import KeepAutomation.ClaimFence
import KeepAutomation.Sample

/-! Deletion is one-way, excludes builds and freezes the row. -/
namespace KeepAutomation

open TransitionSystem

/-- The step number with null read as 0, as the runner does. -/
def Automation.stepNumber (a : Automation) : ℕ := a.deleteCascadeStep.getD 0

/-- `b` is `a` up to the three columns a checkpoint may write. -/
def Automation.SameButCheckpoint (a b : Automation) : Prop :=
  b = { a with
    matchingState := b.matchingState
    deleteCascadeStep := b.deleteCascadeStep
    updatedAt := b.updatedAt }

theorem Automation.SameButCheckpoint.trans {a b c : Automation} (h₁ : a.SameButCheckpoint b)
    (h₂ : b.SameButCheckpoint c) : a.SameButCheckpoint c := by
  unfold SameButCheckpoint at *
  rw [h₁] at h₂
  exact h₂

/-- A deleting row is written by checkpoints only, and a deleted one by nothing:
every other writer is shut out by the lifecycle guard or by the fence. -/
theorem RowMove.in_deletion {s : State} {now : Timestamp} {r r' : Record} {op : Op} (hs : Fenced s)
    (hr : s.record = some r) (h : RowMove s now r op r')
    (hdel : r.automation.matchingState ∈ deletionStates) :
    r' = r ∨ ∃ completed, r' = checkpoint completed now r := by
  -- a live claim would say that the row is not deleting
  have noClaim (p : ℕ) (claim : BuildClaim) (hp : (s.edits p).claim? = some claim) : False := by
    have hh := hs.holds_row hr hp
    exact hh.live hdel
  cases h with
  | same => exact Or.inl rfl
  | enabled hlive => exact absurd hdel hlive
  | disabled hlive => exact absurd hdel hlive
  | deleteAdmitted hlive => exact absurd hdel hlive
  | claimed hlive => exact absurd hdel hlive
  | released hp => exact (noClaim _ _ (by rw [hp]; rfl)).elim
  | edited hp => exact (noClaim _ _ (by rw [hp]; rfl)).elim
  | cutOver _ hre => exact absurd hdel (recheck_none hre).1
  | buildFailed _ hadm => exact absurd hdel (admission_none hadm).1
  | checkpointed => exact Or.inr ⟨_, rfl⟩

theorem checkpoint_sameButCheckpoint (completed : ℕ) (now : Timestamp) (r : Record) :
    r.automation.SameButCheckpoint (checkpoint completed now r).automation := by
  obtain ⟨_, _, _, he⟩ := checkpoint_frame completed now r
  rw [he]
  rfl

theorem checkpoint_state (completed : ℕ) (now : Timestamp) (r : Record)
    (hdel : r.automation.matchingState = .deleting) :
    (checkpoint completed now r).automation.matchingState = .deleting ∨
      (checkpoint completed now r).automation.matchingState = .deleted := by
  rcases checkpoint_cases completed now r with h | ⟨-, -, h⟩ <;> rw [h]
  · exact Or.inl hdel
  · dsimp only
    split
    · exact Or.inr rfl
    · exact Or.inl rfl

/-- A change of the step raises it by one, whichever move made it. -/
theorem RowMove.step_succ {s : State} {now : Timestamp} {r r' : Record} {op : Op} (hs : Fenced s)
    (hr : s.record = some r) (h : RowMove s now r op r')
    (hne : r'.automation.deleteCascadeStep ≠ r.automation.deleteCascadeStep) :
    r'.automation.deleteCascadeStep = some (r.automation.stepNumber+1) := by
  have hc := hs.coherent r hr
  cases h with
  | deleteAdmitted hlive _ =>
    have hnull : r.automation.deleteCascadeStep = none := stepMatches_live hc.step hlive
    simp only [Record.markDeleting, Automation.stepNumber, hnull, Option.getD_none, stepMarkedDeleting]
  | @checkpointed p a n completed outcome hp =>
    rcases checkpoint_cases completed now r with he | ⟨hdel, hstep, he⟩
    · exact absurd (by rw [he]) hne
    · have hm := hc.step
      rw [hdel] at hm
      obtain ⟨k, hk₁, -, hk⟩ := hm
      rw [he, Automation.stepNumber, hk, Option.getD_some]
      rw [hk] at hstep
      split at hstep
      · simp at hstep
      · simp only [Option.some.injEq] at hstep
        exact congrArg some (by omega)
  | @released p claim =>
    obtain ⟨_, _, _, he⟩ := releaseBuildClaim_frame claim r
    exact absurd (by rw [he]) hne
  | _ => exact absurd rfl hne

theorem stepMatches_iff {m : MatchingState} {k : Option ℕ} (h : StepMatches m k) :
    (k = none ↔ m = .inactive ∨ m = .active) ∧
      ((∃ n, 1 ≤ n ∧ n ≤ 4 ∧ k = some n) ↔ m = .deleting) ∧ (k = some stepDeleted ↔ m = .deleted) := by
  cases m with
  | inactive =>
    obtain rfl : k = none := h
    simp
  | active =>
    obtain rfl : k = none := h
    simp
  | deleting =>
    obtain ⟨n, h₁, h₄, rfl⟩ := h
    refine ⟨by simp, iff_of_true ⟨n, h₁, h₄, rfl⟩ rfl, ?_⟩
    simp only [Option.some.injEq, stepDeleted, reduceCtorEq, iff_false]
    omega
  | deleted =>
    obtain rfl : k = some stepDeleted := h
    refine ⟨by simp, ?_, by simp⟩
    simp only [Option.some.injEq, stepDeleted, reduceCtorEq, iff_false]
    rintro ⟨n, -, h₄, h₅⟩
    omega

/-- Deletion is one-way, excludes builds and freezes the row, whatever calls
interleave, fail or crash. -/
theorem deletion_one_way (cfg : Config) (tr : Trace State Action) (s : State)
    (h : Reached cfg anything tr s) :
    (∀ r, s.record = some r →
      (r.automation.deleteCascadeStep = none ↔
        r.automation.matchingState = .inactive ∨ r.automation.matchingState = .active) ∧
      ((∃ k, 1 ≤ k ∧ k ≤ 4 ∧ r.automation.deleteCascadeStep = some k) ↔
        r.automation.matchingState = .deleting) ∧
      (r.automation.deleteCascadeStep = some 5 ↔ r.automation.matchingState = .deleted) ∧
      (r.automation.matchingState ∈ deletionStates →
        r.automation.buildState ≠ .building ∧ r.automation.buildLockDeadline = none ∧
          r.automation.buildingSha = none)) ∧
    ∀ a s' r, step cfg s a = some s' → s.record = some r → ∃ r', s'.record = some r' ∧
      (r'.automation.deleteCascadeStep ≠ r.automation.deleteCascadeStep →
        r'.automation.deleteCascadeStep = some (r.automation.stepNumber+1)) ∧
      (r.automation.matchingState = .deleting →
        r'.automation.matchingState = .deleting ∨ r'.automation.matchingState = .deleted) ∧
      (r.automation.matchingState = .deleted → r' = r) ∧
      (r.automation.matchingState ∈ deletionStates →
        r.automation.SameButCheckpoint r'.automation ∧ r'.revisions = r.revisions) := by
  have hs := h.fenced
  constructor
  · intro r hr
    have hc := hs.coherent r hr
    obtain ⟨hnull, hsteps, hlast⟩ := stepMatches_iff hc.step
    refine ⟨hnull, hsteps, hlast, ?_⟩
    intro hdel
    have hidle := hc.notBuilding hdel
    exact ⟨hidle, hc.settled hidle⟩
  · intro a s' r hstep hr
    obtain ⟨r', hr', hm⟩ := (step_move hstep).2.2.row hr
    refine ⟨r', hr', hm.step_succ hs hr, ?_, ?_, ?_⟩
    · intro hdel
      rcases hm.in_deletion hs hr (by simp [hdel]) with rfl | ⟨completed, rfl⟩
      · exact Or.inl hdel
      · exact checkpoint_state completed a.now r hdel
    · intro hdel
      rcases hm.in_deletion hs hr (by simp [hdel]) with rfl | ⟨completed, rfl⟩
      · rfl
      · exact checkpoint_of_not_deleting (by simp [hdel])
    · intro hdel
      rcases hm.in_deletion hs hr hdel with rfl | ⟨completed, rfl⟩
      · exact ⟨rfl, rfl⟩
      · refine ⟨checkpoint_sameButCheckpoint completed a.now r, ?_⟩
        obtain ⟨_, _, _, he⟩ := checkpoint_frame completed a.now r
        rw [he]

theorem deletion_one_way_sample : ∃ s, Reached sampleConfig anything (sampleTrace deletionOps) s ∧
    ∀ r, s.record = some r → (r.automation.deleteCascadeStep = some 5 ↔
      r.automation.matchingState = .deleted) := by
  obtain ⟨s, hs, -⟩ := run_of_runSample (E := anything) deletionOps (fun _ => True)
    (by decide +kernel) (by decide +kernel)
  have hreach : Reached sampleConfig anything _ s := ⟨sampleWorld, hs⟩
  exact ⟨s, hreach, fun r hr => ((deletion_one_way _ _ s hreach).1 r hr).2.2.1⟩

end KeepAutomation
