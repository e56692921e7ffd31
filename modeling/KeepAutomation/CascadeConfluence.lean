import KeepAutomation.Attempt
import KeepAutomation.Cleanup
import KeepAutomation.Runners

/-! Interrupted and concurrent deletion equals one clean deletion. Whatever the
runners do is absorbed by the clean deletion, and when the row is deleted nothing
is left of it to be done. -/
namespace KeepAutomation

open TransitionSystem

/-- Only cascade runners are at work. -/
def onlyRunners (_ : State) (a : Action) : Prop :=
  match a.op with
  | .run _ _ => True
  | _ => False

instance (s : State) (a : Action) : Decidable (onlyRunners s a) := by
  obtain ⟨now, op⟩ := a
  cases op with
  | run p o => exact instDecidableTrue
  | _ => exact instDecidableFalse

theorem onlyRunners_run {s : State} {a : Action} (h : onlyRunners s a) : ∃ p o, a.op = .run p o := by
  obtain ⟨now, op⟩ := a
  cases op with
  | run p o => exact ⟨p, o, rfl⟩
  | _ => exact h.elim

/-- What a runner knows of the deletion that began with the row `a₀`. -/
def Runner.OnTrack (a₀ : Automation) (w : World) : Runner → Prop
  | .deletingCapp a _ | .listing a _ | .deletingImages a _ _ _ | .relisting a _ | .archiving a _ =>
    a₀.SameButCheckpoint a
  | .deletingSecret a _ => a₀.SameButCheckpoint a ∧ Cleanup.Made a₀ w .capp
  | .saving a _ completed => a₀.SameButCheckpoint a ∧ (1 ≤ completed ∧ completed ≤ stepDeleted) ∧
      ∀ k : Cleanup, k.step = completed → k.Made a₀ w
  | _ => True

/-- The row of a deletion: only a checkpoint's columns have moved. -/
structure InDeletion (r₀ r : Record) : Prop where
  same : r₀.automation.SameButCheckpoint r.automation
  revisions : r.revisions = r₀.revisions
  place : (r.automation.matchingState = .deleting ∧ r.automation.stepNumber < stepDeleted) ∨
    (r.automation.matchingState = .deleted ∧ r.automation.deleteCascadeStep = some stepDeleted)

/-- The invariant of a deletion: the world is a clean deletion short of some
effects, and every effect up to the row's checkpoint has been made. -/
structure Deletes (r₀ : Record) (w₀ : World) (sh : Shared) : Prop where
  row : ∃ r, sh.record = some r ∧ InDeletion r₀ r ∧
    ∀ k : Cleanup, k.step ≤ r.automation.stepNumber → k.Made r₀.automation sh.world
  absorbed : sh.world.cleanDeletion r₀.automation = w₀.cleanDeletion r₀.automation

/-- The columns the external calls name. -/
theorem Automation.SameButCheckpoint.names {a b : Automation} (h : a.SameButCheckpoint b) :
    b.id = a.id ∧ b.nameSpace = a.nameSpace ∧ b.cappDeploymentId = a.cappDeploymentId ∧
      b.updatedBy = a.updatedBy := by
  unfold SameButCheckpoint at h
  rw [h]
  exact ⟨rfl, rfl, rfl, rfl⟩

theorem Automation.SameButCheckpoint.clean {a b : Automation} (h : a.SameButCheckpoint b)
    (k : Cleanup) (w : World) : k.clean b w = k.clean a w := by
  obtain ⟨hid, hns, hcapp, hactor⟩ := h.names
  cases k <;> simp only [Cleanup.clean, hid, hns, hcapp, hactor]

/-- A runner keeps its track when the effects made so far stay made. -/
theorem Runner.OnTrack.mono {a₀ : Automation} {w w' : World} {pc : Runner}
    (h : pc.OnTrack a₀ w) (hmade : ∀ k : Cleanup, k.Made a₀ w → k.Made a₀ w') : pc.OnTrack a₀ w' := by
  cases pc with
  | deletingSecret a n => exact ⟨h.1, hmade _ h.2⟩
  | saving a n completed => exact ⟨h.1, h.2.1, fun k hk => hmade k (h.2.2 k hk)⟩
  | _ => exact h

/-- A fresh pass over the row is on track. -/
theorem snapshot_onTrack {r₀ r : Record} (h : r₀.automation.SameButCheckpoint r.automation)
    (w : World) (n : ℕ) : (snapshot (some r) n).OnTrack r₀.automation w := by
  simp only [snapshot, dispatch]
  split
  · exact trivial
  split
  · exact trivial
  split
  · exact trivial
  split
  · refine ⟨h, by decide, ?_⟩
    intro k hk
    exact absurd hk k.step_eq.2.2.2.1.ne'
  · exact h
  · exact h
  · exact h
  · refine ⟨h, by decide, ?_⟩
    intro k hk
    exact absurd hk k.step_eq.2.2.2.2.ne
  · exact trivial

/-- A call makes effects of the deletion only, and the runner goes on to the next
one when it has made its own. -/
theorem Runner.call_onTrack {a₀ : Automation} {pc next stop : Runner} {w world : World}
    (hcall : pc.call w = some (world, next, stop)) (h : pc.OnTrack a₀ w) :
    world.cleanDeletion a₀ = w.cleanDeletion a₀ ∧
      (∀ k : Cleanup, k.Made a₀ w → k.Made a₀ world) ∧ next.OnTrack a₀ world ∧
      ∀ v, stop.OnTrack a₀ v := by
  have hafter (a : Automation) (n : ℕ) (entries : List String) (v : World)
      (ha : a₀.SameButCheckpoint a) : (deletingAll a n entries).OnTrack a₀ v := by
    cases entries with
    | nil => exact ha
    | cons entry entries => exact ha
  cases pc <;> simp only [Runner.call, Option.some.injEq, Prod.mk.injEq, reduceCtorEq] at hcall <;>
    obtain ⟨rfl, rfl, rfl⟩ := hcall
  case deletingCapp a n =>
    have ha : a₀.SameButCheckpoint a := h
    have heffect : w.deleteCapp a.nameSpace (cappNameFor a.id a.cappDeploymentId) =
        Cleanup.capp.clean a₀ w := ha.clean .capp w
    rw [heffect]
    exact ⟨w.cleanDeletion_clean a₀ .capp, fun k hk => hk.clean a₀ .capp,
      ⟨ha, Cleanup.made_clean a₀ .capp w⟩, fun _ => trivial⟩
  case deletingSecret a n =>
    obtain ⟨ha, hcapp⟩ := h
    have heffect : w.deleteSecret a.nameSpace (runAuthSecretName a.id) =
        Cleanup.secret.clean a₀ w := ha.clean .secret w
    rw [heffect]
    refine ⟨w.cleanDeletion_clean a₀ .secret, fun k hk => hk.clean a₀ .secret,
      ⟨ha, by decide, ?_⟩, fun _ => trivial⟩
    intro k hk
    rcases k.step_eq.1.mp hk with rfl | rfl
    · exact hcapp.clean a₀ .secret
    · exact Cleanup.made_clean a₀ .secret w
  case listing a n => exact ⟨rfl, fun _ hk => hk, hafter _ _ _ _ h, fun _ => trivial⟩
  case deletingImages a n entry entries =>
    have ha : a₀.SameButCheckpoint a := h
    rw [ha.names.1]
    exact ⟨w.cleanDeletion_deleteImage a₀ entry, fun k hk => hk.deleteImage a₀ _ _, hafter _ _ _ _ ha,
      fun _ => trivial⟩
  case relisting a n =>
    have ha : a₀.SameButCheckpoint a := h
    refine ⟨rfl, fun _ hk => hk, ?_, fun _ => trivial⟩
    -- only an empty second listing lets the runner save the step
    split
    · next hempty =>
      rw [ha.names.1] at hempty
      refine ⟨ha, by decide, ?_⟩
      intro k hk
      obtain rfl := k.step_eq.2.1.mp hk
      exact w.deleteImages_of_empty hempty
    · exact trivial
  case archiving a n =>
    have ha : a₀.SameButCheckpoint a := h
    have heffect : w.archive a.id a.updatedBy = Cleanup.script.clean a₀ w := ha.clean .script w
    rw [heffect]
    refine ⟨w.cleanDeletion_clean a₀ .script, fun k hk => hk.clean a₀ .script,
      ⟨ha, by decide, ?_⟩, fun _ => trivial⟩
    intro k hk
    obtain rfl := k.step_eq.2.2.1.mp hk
    exact Cleanup.made_clean a₀ .script w

/-- A checkpoint of a step whose effects have been made keeps the row in step with
the world. -/
theorem InDeletion.checkpoint {r₀ r : Record} {w : World} {completed : ℕ} (h : InDeletion r₀ r)
    (hmade : ∀ k : Cleanup, k.step ≤ r.automation.stepNumber → k.Made r₀.automation w)
    (hc : 1 ≤ completed ∧ completed ≤ stepDeleted)
    (hdone : ∀ k : Cleanup, k.step = completed → k.Made r₀.automation w) (now : Timestamp) :
    InDeletion r₀ (checkpoint completed now r) ∧
      ∀ k : Cleanup, k.step ≤ (KeepAutomation.checkpoint completed now r).automation.stepNumber →
        k.Made r₀.automation w := by
  have hsame := h.same.trans (checkpoint_sameButCheckpoint completed now r)
  rcases checkpoint_cases completed now r with he | ⟨-, hstep, he⟩
  · rw [he]
    exact ⟨h, hmade⟩
  · rw [he] at hsame ⊢
    have hbefore : r.automation.stepNumber = completed-1 := by
      rw [Automation.stepNumber, hstep]
      split
      · next hzero => rw [hzero, Option.getD_none]
      · rw [Option.getD_some]
    refine ⟨⟨hsame, h.revisions, ?_⟩, ?_⟩
    · by_cases hlast : completed = stepDeleted
      · right
        exact ⟨if_pos hlast, congrArg some hlast⟩
      · left
        have hlt : completed < stepDeleted := lt_of_le_of_ne hc.2 hlast
        exact ⟨if_neg hlast, hlt⟩
    · intro k hk
      have hle : k.step ≤ completed := hk
      by_cases hnow : k.step = completed
      · exact hdone k hnow
      · exact hmade k (by omega)

/-- The step lemma: a runner's move keeps the deletion in order, undoes no effect
and leaves the runner on track. -/
theorem RunnerMove.deletes {now : Timestamp} {sh sh' : Shared} {pc pc' : Runner} {op : RunnerOp}
    {r₀ : Record} {w₀ : World} (hm : RunnerMove now sh pc op sh' pc') (h : Deletes r₀ w₀ sh)
    (hpc : pc.OnTrack r₀.automation sh.world) :
    Deletes r₀ w₀ sh' ∧
      (∀ k : Cleanup, k.Made r₀.automation sh.world → k.Made r₀.automation sh'.world) ∧
      pc'.OnTrack r₀.automation sh'.world := by
  obtain ⟨r, hr, hin, hmade⟩ := h.row
  cases hm with
  | started =>
    rw [hr]
    exact ⟨h, fun _ hk => hk, snapshot_onTrack hin.same _ _⟩
  | reread =>
    rw [hr]
    exact ⟨h, fun _ hk => hk, snapshot_onTrack hin.same _ _⟩
  | readFailed => exact ⟨h, fun _ hk => hk, trivial⟩
  | crashed => exact ⟨h, fun _ hk => hk, trivial⟩
  | called outcome world next stop hcall =>
    obtain ⟨habsorbed, hkeeps, hnext, hstop⟩ := Runner.call_onTrack hcall hpc
    have hdone : Deletes r₀ w₀ { sh with world := world } :=
      ⟨⟨r, hr, hin, fun k hk => hkeeps k (hmade k hk)⟩, habsorbed.trans h.absorbed⟩
    cases outcome with
    | ok => exact ⟨hdone, hkeeps, hnext⟩
    | failed => exact ⟨h, fun _ hk => hk, hstop _⟩
    | lost => exact ⟨hdone, hkeeps, hstop _⟩
  | @saved a n completed outcome =>
    obtain ⟨-, hc, hdone⟩ := hpc
    refine ⟨?_, fun _ hk => hk, ?_⟩
    · split
      · obtain ⟨hin', hmade'⟩ := hin.checkpoint hmade hc hdone now
        exact ⟨⟨_, by simp only [hr, Option.map_some], hin', hmade'⟩, h.absorbed⟩
      · exact h
    · cases outcome with
      | ok => exact trivial
      | failed => exact trivial
      | lost => exact trivial

/-- The run lemma: under any interleaving of runners the deletion stays in order. -/
theorem deletes_of_run {cfg : Config} {s₀ s : State} {tr : Trace State Action} {r₀ : Record}
    (h : SystemRun cfg onlyRunners s₀ tr s) (h₀ : Deletes r₀ s₀.world s₀.toShared)
    (hidle : ∀ p, s₀.runners p = .idle ∨ (s₀.runners p).finished = true) :
    Deletes r₀ s₀.world s.toShared ∧ ∀ p, (s.runners p).OnTrack r₀.automation s.world := by
  refine h.invariant (I := fun s => Deletes r₀ s₀.world s.toShared ∧
    ∀ p, (s.runners p).OnTrack r₀.automation s.world) ⟨h₀, fun p => ?_⟩ ?_
  · rcases hidle p with hp | hp
    · rw [hp]
      exact trivial
    · cases hc : s₀.runners p <;> simp [hc, Runner.finished] at hp <;> exact trivial
  · intro s act s' hinv hact hstep
    obtain ⟨hs, htrack⟩ := hinv
    obtain ⟨-, -, hm⟩ := step_move hstep
    obtain ⟨p, o, hop⟩ := onlyRunners_run hact
    rcases hm.runner p with ⟨hother, -⟩ | ⟨o', ho', hrun⟩
    · exact absurd hop (hother o)
    · obtain ⟨hs', hkeeps, hpc⟩ := hrun.deletes hs (htrack p)
      refine ⟨hs', fun q => ?_⟩
      rcases hm.runner q with ⟨-, hsame⟩ | ⟨o₂, ho₂, -⟩
      · rw [hsame]
        exact (htrack q).mono hkeeps
      · obtain ⟨rfl, -⟩ := Op.run.inj (hop.symm.trans ho₂)
        exact hpc

/-- A row that has just been admitted to deletion. -/
theorem deletes_admitted {r₀ : Record} {sh : Shared} (hr : sh.record = some r₀)
    (hdeleting : r₀.automation.matchingState = .deleting)
    (hadmitted : r₀.automation.deleteCascadeStep = some stepMarkedDeleting) :
    Deletes r₀ sh.world sh := by
  have hstep : r₀.automation.stepNumber = stepMarkedDeleting := by
    rw [Automation.stepNumber, hadmitted, Option.getD_some]
  refine ⟨⟨r₀, hr, ⟨.refl _, rfl, Or.inl ⟨hdeleting, ?_⟩⟩, ?_⟩, rfl⟩
  · rw [hstep]
    decide
  · intro k hk
    have hlater := k.step_eq.2.2.2.1
    omega

/-- The row of a deletion that is through, up to its date. -/
def Record.deletedAt (r₀ : Record) (now : Timestamp) : Record :=
  { r₀ with automation := { r₀.automation with
      matchingState := .deleted
      deleteCascadeStep := some stepDeleted
      updatedAt := now } }

/-- Once the row is deleted, the deletion has done all that a clean one does. -/
theorem Deletes.through {r₀ r : Record} {w₀ : World} {sh : Shared} (h : Deletes r₀ w₀ sh)
    (hr : sh.record = some r) (hdeleted : r.automation.matchingState = .deleted) :
    r = r₀.deletedAt r.automation.updatedAt ∧ sh.world = w₀.cleanDeletion r₀.automation := by
  obtain ⟨r₁, h₁, hin, hmade⟩ := h.row
  obtain rfl := Option.eq_some_unique h₁ hr
  have hlast : r₁.automation.deleteCascadeStep = some stepDeleted := by
    rcases hin.place with ⟨hdeleting, -⟩ | ⟨-, hlast⟩
    · simp [hdeleted] at hdeleting
    · exact hlast
  constructor
  · have hsame := hin.same
    have hrev := hin.revisions
    unfold Automation.SameButCheckpoint at hsame
    rw [hdeleted, hlast] at hsame
    obtain ⟨a, vs⟩ := r₁
    exact congrArg₂ Record.mk hsame hrev
  · have hall (k : Cleanup) : k.Made r₀.automation sh.world := by
      apply hmade
      rw [Automation.stepNumber, hlast, Option.getD_some]
      exact k.step_eq.2.2.2.2.le
    rw [← h.absorbed, World.cleanDeletion_of_made _ _ hall]

/-- The row after its checkpoint `k`. -/
def Record.atStep (r : Record) (k : ℕ) (now : Timestamp) : Record :=
  { r with automation := { r.automation with
      matchingState := .deleting
      deleteCascadeStep := some k
      updatedAt := now } }

section CleanAttempt

variable {now : Timestamp} {r : Record} {w world : World} {n k : ℕ} {pc next stop : Runner}

theorem advance_call (h : pc.call w = some (world, next, stop))
    (hop : pc.nextOp .ok = .call .ok) :
    advance ⟨now, .ok⟩ (⟨some r, w⟩, pc) = (⟨some r, world⟩, next) := by
  simp only [advance, hop, Runner.step_call, h, Option.map_some, Option.getD_some,
    CallOutcome.effective, if_true]

/-- A checkpoint nobody else has taken, and the read of the row after it. -/
theorem leads_save (a : Automation) (hdel : r.automation.matchingState = .deleting)
    (hstep : r.automation.deleteCascadeStep = some k) (hk : 1 ≤ k) (hlast : k+1 ≠ stepDeleted) :
    Leads now (⟨some r, w⟩, .saving a n (k+1))
      (⟨some (r.atStep (k+1) now), w⟩, snapshot (some (r.atStep (k+1) now)) (n+1)) := by
  have hwins : checkpoint (k+1) now r = r.atStep (k+1) now := by
    have hmatches : checkpointMatches (k+1) r.automation := by
      refine ⟨hdel, ?_⟩
      rw [Nat.add_sub_cancel, if_neg (by omega), hstep]
    rw [checkpoint, if_pos hmatches, if_neg hlast, hdel]
    rfl
  apply Leads.step (y := (⟨some (r.atStep (k+1) now), w⟩, .rereading (n+1)))
  · rw [← hwins]
    rfl
  · exact ⟨1, rfl⟩

theorem nextStep_of_some {a : Automation} (hstep : a.deleteCascadeStep = some k) : nextStep a = k+1 := by
  rw [nextStep, hstep, Option.getD_some]

theorem leads_resources (hn : n ≠ maxIterations) (hdel : r.automation.matchingState = .deleting)
    (hstep : r.automation.deleteCascadeStep = some 1) :
    Leads now (⟨some r, w⟩, snapshot (some r) n)
      (⟨some (r.atStep 2 now), Cleanup.secret.clean r.automation (Cleanup.capp.clean r.automation w)⟩,
        snapshot (some (r.atStep 2 now)) (n+1)) := by
  rw [snapshot_deleting hn hdel, nextStep_of_some hstep]
  apply Leads.step (advance_call rfl rfl)
  apply Leads.step (advance_call rfl rfl)
  exact leads_save _ hdel hstep le_rfl (by decide)

/-- Deleting all of a listing deletes the inventory it lists. -/
theorem leads_deletingAll (a : Automation) (entries : List String)
    (hall : ∀ entry ∈ w.listImageEntries a.id, entry ∈ entries) :
    Leads now (⟨some r, w⟩, deletingAll a n entries)
      (⟨some r, w.deleteImages a.id⟩, .relisting a n) := by
  induction entries generalizing w with
  | nil =>
    have hempty : w.listImageEntries a.id = [] :=
      List.eq_nil_iff_forall_not_mem.mpr fun entry h => absurd (hall entry h) List.not_mem_nil
    rw [w.deleteImages_of_empty hempty]
    exact ⟨0, rfl⟩
  | cons entry entries ih =>
    apply Leads.step (advance_call rfl rfl)
    rw [← w.deleteImages_deleteImage a.id entry]
    apply ih
    intro e he
    obtain ⟨hold, hne⟩ := mem_listImageEntries_deleteImage he
    exact (List.mem_cons.mp (hall e hold)).resolve_left hne

theorem listImageEntries_deleteImages (w : World) (id : UUID) :
    (w.deleteImages id).listImageEntries id = [] := by
  simp [World.deleteImages, World.listImageEntries, List.filter_filter]

theorem leads_images (hn : n ≠ maxIterations) (hdel : r.automation.matchingState = .deleting)
    (hstep : r.automation.deleteCascadeStep = some 2) :
    Leads now (⟨some r, w⟩, snapshot (some r) n)
      (⟨some (r.atStep 3 now), Cleanup.images.clean r.automation w⟩,
        snapshot (some (r.atStep 3 now)) (n+1)) := by
  rw [snapshot_deleting hn hdel, nextStep_of_some hstep]
  apply Leads.step (advance_call rfl rfl)
  apply Leads.trans (leads_deletingAll r.automation _ fun _ h => h)
  apply Leads.step (advance_call rfl rfl)
  rw [if_pos (listImageEntries_deleteImages w r.automation.id)]
  exact leads_save _ hdel hstep (by decide) (by decide)

theorem leads_archive (hn : n ≠ maxIterations) (hdel : r.automation.matchingState = .deleting)
    (hstep : r.automation.deleteCascadeStep = some 3) :
    Leads now (⟨some r, w⟩, snapshot (some r) n)
      (⟨some (r.atStep 4 now), Cleanup.script.clean r.automation w⟩,
        snapshot (some (r.atStep 4 now)) (n+1)) := by
  rw [snapshot_deleting hn hdel, nextStep_of_some hstep]
  apply Leads.step (advance_call rfl rfl)
  exact leads_save _ hdel hstep (by decide) (by decide)

theorem leads_deleted (hn : n+1 < maxIterations) (hdel : r.automation.matchingState = .deleting)
    (hstep : r.automation.deleteCascadeStep = some 4) :
    Leads now (⟨some r, w⟩, snapshot (some r) n)
      (⟨some (r.deletedAt now), w⟩,
        .returned (cascadeResult (r.deletedAt now).automation none)) := by
  have hmatches : checkpointMatches stepDeleted r.automation := ⟨hdel, hstep⟩
  have hwins : checkpoint stepDeleted now r = r.deletedAt now := by
    rw [checkpoint, if_pos hmatches, if_pos rfl]
    rfl
  rw [snapshot_deleting (by omega) hdel, nextStep_of_some hstep]
  apply Leads.step (y := (⟨some (r.deletedAt now), w⟩, .rereading (n+1)))
  · rw [← hwins]
    rfl
  · have hend : snapshot (some (r.deletedAt now)) (n+1) =
        .returned (cascadeResult (r.deletedAt now).automation none) := by
      simp only [snapshot, dispatch, if_neg (show n+1 ≠ maxIterations by omega)]
      rfl
    rw [← hend]
    exact ⟨1, rfl⟩

/-- One attempt without failures deletes the row and does the whole deletion. -/
theorem runCascade_clean (hdel : r.automation.matchingState = .deleting)
    (hstep : r.automation.deleteCascadeStep = some stepMarkedDeleting) :
    runCascade (cleanAnswers now) ⟨some r, w⟩ =
      (⟨some (r.deletedAt now), w.cleanDeletion r.automation⟩,
        .returned (cascadeResult (r.deletedAt now).automation none)) := by
  let a := r.automation
  let w₂ := Cleanup.secret.clean a (Cleanup.capp.clean a w)
  let w₃ := Cleanup.images.clean a w₂
  have hstart : advance ⟨now, .ok⟩ (⟨some r, w⟩, .idle) = (⟨some r, w⟩, snapshot (some r) 0) := rfl
  have hresources : Leads now (⟨some r, w⟩, snapshot (some r) 0)
      (⟨some (r.atStep 2 now), w₂⟩, snapshot (some (r.atStep 2 now)) 1) :=
    leads_resources (by decide) hdel hstep
  have himages : Leads now (⟨some (r.atStep 2 now), w₂⟩, snapshot (some (r.atStep 2 now)) 1)
      (⟨some (r.atStep 3 now), w₃⟩, snapshot (some (r.atStep 3 now)) 2) :=
    leads_images (r := r.atStep 2 now) (by decide) rfl rfl
  have harchive : Leads now (⟨some (r.atStep 3 now), w₃⟩, snapshot (some (r.atStep 3 now)) 2)
      (⟨some (r.atStep 4 now), Cleanup.script.clean a w₃⟩, snapshot (some (r.atStep 4 now)) 3) :=
    leads_archive (r := r.atStep 3 now) (by decide) rfl rfl
  have hdeleted : Leads now
      (⟨some (r.atStep 4 now), Cleanup.script.clean a w₃⟩, snapshot (some (r.atStep 4 now)) 3)
      (⟨some (r.deletedAt now), w.cleanDeletion a⟩,
        .returned (cascadeResult (r.deletedAt now).automation none)) :=
    leads_deleted (r := r.atStep 4 now) (by decide) rfl rfl
  apply runCascade_of_leads _ rfl
  exact Leads.step hstart (hresources.trans (himages.trans (harchive.trans hdeleted)))

end CleanAttempt

/-- The archive commits of an automation. -/
def archiveCommits (id : UUID) (w : World) : ℕ := (w.archives.filter fun c => c.1 = id).length

/-- Interrupted and concurrent deletion equals one clean deletion: a run of any
number of runners from the admission on, with any failures, lost responses, lost
checkpoints and crashes, that ends with the row deleted, ends with the row (up to
its date) and the world of one attempt without failures; it makes the one archive
commit if there was none, and leaves every other automation alone. -/
theorem interrupted_deletion_is_clean (cfg : Config) (s₀ s : State) (tr : Trace State Action)
    (r₀ r : Record) (now : Timestamp) (h : SystemRun cfg onlyRunners s₀ tr s)
    (hidle : ∀ p, s₀.runners p = .idle ∨ (s₀.runners p).finished = true)
    (hr₀ : s₀.record = some r₀)
    (hdeleting : r₀.automation.matchingState = .deleting)
    (hadmitted : r₀.automation.deleteCascadeStep = some stepMarkedDeleting)
    (hpinned : ∀ n, r₀.automation.cappDeploymentId = some n → n = pinnedName r₀.automation.id)
    (hr : s.record = some r) (hdeleted : r.automation.matchingState = .deleted) :
    ∃ clean r' result, runCascade (cleanAnswers now) s₀.toShared = (clean, .returned result) ∧
      result.completed = true ∧ clean.record = some r' ∧
      { r with automation := { r.automation with updatedAt := r'.automation.updatedAt } } = r' ∧
      s.world = clean.world ∧ s.world.archived r₀.automation.id ∧
      archiveCommits r₀.automation.id s.world = archiveCommits r₀.automation.id s₀.world +
        (if s₀.world.archived r₀.automation.id then 0 else 1) ∧
      ∀ id, id ≠ r₀.automation.id → s.world.holdings id = s₀.world.holdings id := by
  obtain ⟨hdeletes, -⟩ := deletes_of_run h (deletes_admitted hr₀ hdeleting hadmitted) hidle
  obtain ⟨hrow, hworld⟩ := hdeletes.through hr hdeleted
  have hshared : s₀.toShared = ⟨some r₀, s₀.world⟩ := by rw [← hr₀]
  rw [hshared]
  refine ⟨_, _, _, runCascade_clean hdeleting hadmitted, rfl, rfl, ?_, hworld, ?_, ?_, ?_⟩
  · rw [hrow]
    rfl
  · rw [hworld]
    exact World.archived_archive _ _ _
  · rw [hworld, archiveCommits, World.archives_cleanDeletion]
    split
    · rfl
    · simp [archiveCommits]
  · intro id hid
    rw [hworld]
    apply World.holdings_cleanDeletion _ _ hid
    unfold cappNameFor
    split
    · rfl
    · next n hn => rw [hpinned n hn, ite_self]

/-- An automation just admitted to deletion, with the archive commits given. -/
def admittedState (archives : List (UUID × String)) : State :=
  let created := createAutomation "t1" sampleId samplePayload "author" firstSha 99 1
  { initial { sampleWorld with archives := archives } with
    record := some ((failBuild created firstFailure 2).markDeleting "deleter" 3) }

/-- Five runners: responses and a checkpoint answer are lost, two runners work on
one step, one crashes between its calls. -/
def interruptedOps : List Op :=
  [.run 0 (.snapshot false), .run 0 (.call .lost),
   .run 1 (.snapshot false), .run 2 (.snapshot false), .run 1 (.call .ok), .run 2 (.call .ok),
   .run 1 (.call .ok), .run 1 (.save .lost), .run 2 (.call .ok), .run 2 (.save .ok),
   .run 2 (.snapshot false), .run 2 (.call .ok), .run 2 (.call .ok), .run 2 .crash,
   .run 3 (.snapshot false), .run 3 (.call .ok), .run 3 (.call .ok), .run 3 (.save .ok),
   .run 3 (.snapshot false), .run 3 (.call .lost),
   .run 4 (.snapshot false), .run 4 (.call .ok), .run 4 (.save .ok), .run 4 (.snapshot false),
   .run 4 (.save .ok), .run 4 (.snapshot false)]

theorem run_of_interrupted (archives : List (UUID × String)) (P : State → Prop) [DecidablePred P]
    (hmeets : execMeets (step sampleConfig) (fun s a => decide (onlyRunners s a))
      (admittedState archives) (timed interruptedOps) = true)
    (hp : (exec (step sampleConfig) (admittedState archives) (timed interruptedOps)).any
      (fun s => decide (P s)) = true) :
    ∃ s tr, SystemRun sampleConfig onlyRunners (admittedState archives) tr s ∧ P s := by
  cases hs : exec (step sampleConfig) (admittedState archives) (timed interruptedOps) with
  | none => simp [hs] at hp
  | some s =>
    refine ⟨s, _, Run.ofExec _ (fun _ _ => of_decide_eq_true) _ hmeets hs, ?_⟩
    simpa only [hs, Option.any_some, decide_eq_true_eq] using hp

theorem interrupted_deletion_is_clean_sample : ∃ s tr clean result,
    SystemRun sampleConfig onlyRunners (admittedState []) tr s ∧
      runCascade (cleanAnswers 9) (admittedState []).toShared = (clean, .returned result) ∧
      s.world = clean.world := by
  obtain ⟨s, tr, hrun, r, hr, hdeleted⟩ := run_of_interrupted []
    (fun s => ∃ r ∈ s.record, r.automation.matchingState = .deleted)
    (by decide +kernel) (by decide +kernel)
  obtain ⟨clean, r', result, hclean, -, -, -, hworld, -⟩ :=
    interrupted_deletion_is_clean sampleConfig (admittedState []) s tr _ r 9 hrun (fun _ => Or.inl rfl)
      rfl rfl rfl (fun n hn => by simp [failBuild, createAutomation, Record.markDeleting,
        Record.transition] at hn) hr hdeleted
  exact ⟨s, tr, clean, result, hrun, hclean, hworld⟩

/-- Where the marker exists before the cascade, no archive commit is made. -/
theorem archived_before : ∃ s tr r,
    SystemRun sampleConfig onlyRunners (admittedState [(sampleId, "deleter")]) tr s ∧
      s.record = some r ∧ r.automation.matchingState = .deleted ∧
      s.world.archives = (admittedState [(sampleId, "deleter")]).world.archives := by
  obtain ⟨s, tr, hrun, ⟨r, hr, hdeleted⟩, harchives⟩ := run_of_interrupted [(sampleId, "deleter")]
    (fun s => (∃ r ∈ s.record, r.automation.matchingState = .deleted) ∧
      s.world.archives = (admittedState [(sampleId, "deleter")]).world.archives)
    (by decide +kernel) (by decide +kernel)
  exact ⟨s, tr, r, hrun, hr, hdeleted, harchives⟩

end KeepAutomation
