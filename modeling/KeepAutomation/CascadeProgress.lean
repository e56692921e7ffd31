import KeepAutomation.Attempt
import KeepAutomation.Runners

/-! One cascade attempt among any number of others. The checkpoint is the measure
of its loop: a pass either moves it or finds it moved by another runner. -/
namespace KeepAutomation

open TransitionSystem

/-- A row in its deletion, whether or not its first checkpoint was written. -/
def InCascade (a : Automation) : Prop :=
  (a.matchingState = .deleting ∧
    (a.deleteCascadeStep = none ∨ ∃ k, 1 ≤ k ∧ k ≤ 4 ∧ a.deleteCascadeStep = some k)) ∨
  (a.matchingState = .deleted ∧ a.deleteCascadeStep = some stepDeleted)

/-- A pass for step `k` from snapshot `a`, against the row now. -/
structure Behind (a : Automation) (k : ℕ) (row : Automation) : Prop where
  next : k = a.stepNumber+1
  bound : k ≤ stepDeleted
  behind : a.stepNumber ≤ row.stepNumber

theorem InCascade.stepNumber_le {a : Automation} (h : InCascade a) : a.stepNumber ≤ stepDeleted := by
  rcases h with ⟨-, hnull | ⟨k, -, hk, hstep⟩⟩ | ⟨-, hstep⟩
  · simp [Automation.stepNumber, hnull]
  · rw [Automation.stepNumber, hstep, Option.getD_some, stepDeleted]
    omega
  · rw [Automation.stepNumber, hstep, Option.getD_some]

theorem InCascade.deleting {a : Automation} (h : InCascade a) (hstep : a.stepNumber < stepDeleted) :
    a.matchingState = .deleting := by
  rcases h with ⟨hdeleting, -⟩ | ⟨-, hlast⟩
  · exact hdeleting
  · rw [Automation.stepNumber, hlast, Option.getD_some] at hstep
    exact absurd hstep (lt_irrefl _)

/-- The column of a step, with 0 stored as null. -/
theorem InCascade.column {a : Automation} (h : InCascade a) :
    a.deleteCascadeStep = if a.stepNumber = 0 then none else some a.stepNumber := by
  rcases h with ⟨-, hnull | ⟨k, hk, -, hstep⟩⟩ | ⟨-, hstep⟩
  · simp [Automation.stepNumber, hnull]
  · have hne : k ≠ 0 := by omega
    simp [Automation.stepNumber, hstep, hne]
  · simp [Automation.stepNumber, hstep, stepDeleted]

theorem stepNumber_of_column {a : Automation} {k : ℕ}
    (h : a.deleteCascadeStep = if k = 0 then none else some k) : a.stepNumber = k := by
  rw [Automation.stepNumber, h]
  split
  · next hzero => rw [hzero, Option.getD_none]
  · rw [Option.getD_some]

theorem InCascade.inDeletion {a : Automation} (h : InCascade a) :
    a.matchingState ∈ deletionStates := by
  rw [mem_deletionStates]
  rcases h with ⟨hdeleting, -⟩ | ⟨hdeleted, -⟩
  · exact Or.inl hdeleting
  · exact Or.inr hdeleted

/-- A checkpoint that wins has its own number as the step after. -/
theorem InCascade.checkpoint {k : ℕ} (now : Timestamp) {r : Record} (h : InCascade r.automation)
    (hk : 1 ≤ k) (hlast : k ≤ stepDeleted) :
    InCascade (checkpoint k now r).automation ∧
      r.automation.stepNumber ≤ (checkpoint k now r).automation.stepNumber := by
  rcases checkpoint_cases k now r with he | ⟨-, hstep, he⟩
  · rw [he]
    exact ⟨h, le_rfl⟩
  · rw [he]
    have hbefore : r.automation.stepNumber = k-1 := stepNumber_of_column hstep
    constructor
    · by_cases hfull : k = stepDeleted
      · exact Or.inr ⟨by simp [hfull], by simp [hfull]⟩
      · refine Or.inl ⟨by simp [hfull], Or.inr ⟨k, hk, ?_, rfl⟩⟩
        rw [stepDeleted] at hlast hfull
        omega
    · have hafter : ({ r.automation with
          deleteCascadeStep := some k
          matchingState := if k = stepDeleted then .deleted else .deleting
          updatedAt := now } : Automation).stepNumber = k := rfl
      rw [hafter, hbefore]
      exact Nat.sub_le k 1

/-- After a checkpoint was tried, the row is at that step, whoever brought it
there. -/
theorem InCascade.checkpoint_reaches {k : ℕ} (now : Timestamp) {r : Record}
    (h : InCascade r.automation) (hk : 1 ≤ k) (hlast : k ≤ stepDeleted)
    (hbehind : k-1 ≤ r.automation.stepNumber) :
    k ≤ (KeepAutomation.checkpoint k now r).automation.stepNumber := by
  by_cases hpassed : k ≤ r.automation.stepNumber
  · exact hpassed.trans (h.checkpoint now hk hlast).2
  · -- nobody was faster, so the compare-and-set finds what it expects
    have hequal : r.automation.stepNumber = k-1 := by omega
    have hmatches : checkpointMatches k r.automation := by
      refine ⟨h.deleting (by omega), ?_⟩
      rw [h.column, hequal]
    rw [KeepAutomation.checkpoint, if_pos hmatches]
    exact le_rfl

/-- The row is in its deletion and every working runner is on a step up to the
one after the row's. -/
structure Cascading (s : State) : Prop where
  row : ∃ r, s.record = some r ∧ InCascade r.automation
  tasks : ∀ q a k r, (s.runners q).task = some (a, k) → s.record = some r → Behind a k r.automation

theorem InCascade.rowMove {s : State} {now : Timestamp} {r r' : Record} {op : Op} (hs : Cascading s)
    (hr : s.record = some r) (h : InCascade r.automation) (hm : RowMove s now r op r') :
    InCascade r'.automation ∧ r.automation.stepNumber ≤ r'.automation.stepNumber := by
  have hdel := h.inDeletion
  cases hm with
  | same => exact ⟨h, le_rfl⟩
  | enabled hlive => exact absurd hdel hlive
  | disabled hlive => exact absurd hdel hlive
  | deleteAdmitted hlive => exact absurd hdel hlive
  | claimed hlive => exact absurd hdel hlive
  | @released p claim =>
    obtain ⟨_, _, _, he⟩ := releaseBuildClaim_frame claim r
    rw [he]
    exact ⟨h, le_rfl⟩
  | edited => exact ⟨h, le_rfl⟩
  | cutOver _ hre => exact absurd hdel (recheck_none hre).1
  | buildFailed _ hadm => exact absurd hdel (admission_none hadm).1
  | @checkpointed p a n completed outcome hp =>
    have htask := hs.tasks p a completed r (by rw [hp]; rfl) hr
    exact h.checkpoint now (by have := htask.next; omega) htask.bound

/-- The passes a runner has done. -/
def Runner.passes : Runner → ℕ
  | .deletingCapp _ n | .deletingSecret _ n | .listing _ n | .deletingImages _ n _ _
  | .relisting _ n | .archiving _ n | .saving _ n _ | .rereading n => n
  | _ => 0

/-- The steps left after pass `n`: four passes are the most that follow the
first, and without the image deletes a pass has four steps. -/
def stepsFrom (n : ℕ) : ℕ := 4*(stepDeleted-n)+1

/-- The most steps a runner can still take beside the deletes of listings still
to come. -/
def Runner.left : Runner → ℕ
  | .idle => stepsFrom 0
  | .rereading n => stepsFrom n
  | .deletingCapp _ n => stepsFrom (n+1)+3
  | .deletingSecret _ n => stepsFrom (n+1)+2
  | .listing _ n => stepsFrom (n+1)+3
  | .deletingImages _ n _ entries => stepsFrom (n+1)+(entries.length+3)
  | .relisting _ n => stepsFrom (n+1)+2
  | .archiving _ n => stepsFrom (n+1)+2
  | .saving _ n _ => stepsFrom (n+1)+1
  | .returned _ | .raised _ | .crashed => 0

/-- A write of the step raises it by one. -/
theorem InCascade.step_succ {s : State} {now : Timestamp} {r r' : Record} {op : Op}
    (hs : Cascading s) (hr : s.record = some r) (h : InCascade r.automation)
    (hm : RowMove s now r op r')
    (hne : r'.automation.deleteCascadeStep ≠ r.automation.deleteCascadeStep) :
    r'.automation.deleteCascadeStep = some (r.automation.stepNumber+1) := by
  have hdel := h.inDeletion
  cases hm with
  | deleteAdmitted hlive => exact absurd hdel hlive
  | @released p claim =>
    obtain ⟨_, _, _, he⟩ := releaseBuildClaim_frame claim r
    exact absurd (by rw [he]) hne
  | @checkpointed p a n completed outcome hp =>
    rcases checkpoint_cases completed now r with he | ⟨-, hstep, he⟩
    · exact absurd (by rw [he]) hne
    · have htask := hs.tasks p a completed r (by rw [hp]; rfl) hr
      have hnext := htask.next
      have hbefore : r.automation.stepNumber = completed-1 := stepNumber_of_column hstep
      rw [he, hbefore]
      exact congrArg some (by omega)
  | _ => exact absurd rfl hne

/-- A snapshot of a row in its deletion starts the step after the row's, or finds
the row deleted. -/
theorem snapshot_inCascade {r : Record} {n : ℕ} (h : InCascade r.automation)
    (hn : n ≤ r.automation.stepNumber) :
    (r.automation.matchingState = .deleted ∧ r.automation.deleteCascadeStep = some stepDeleted ∧
      snapshot (some r) n = .returned (cascadeResult r.automation none)) ∨
    (r.automation.stepNumber < stepDeleted ∧
      (snapshot (some r) n).task = some (r.automation, r.automation.stepNumber+1) ∧
      (snapshot (some r) n).passes = n ∧ (snapshot (some r) n).left ≤ stepsFrom (n+1)+3) := by
  have hle := h.stepNumber_le
  have hleft : n ≠ maxIterations := by
    rw [stepDeleted] at hle
    rw [maxIterations, stepDeleted]
    omega
  rcases h with ⟨hdeleting, hstep⟩ | ⟨hdeleted, hstep⟩
  · right
    have hnumber : r.automation.stepNumber < stepDeleted := by
      rcases hstep with hnull | ⟨k, -, hk, hstep⟩
      · simp [Automation.stepNumber, hnull, stepDeleted]
      · rw [Automation.stepNumber, hstep, Option.getD_some, stepDeleted]
        omega
    refine ⟨hnumber, ?_⟩
    rw [stepDeleted] at hnumber
    have hnext : nextStep r.automation = r.automation.stepNumber+1 := rfl
    simp only [snapshot, dispatch, hleft, hdeleting, hnext, if_false, reduceCtorEq, ne_eq,
      not_true_eq_false]
    generalize r.automation.stepNumber = m at hnumber
    interval_cases m <;> exact ⟨rfl, rfl, by simp [Runner.left]⟩
  · left
    refine ⟨hdeleted, hstep, ?_⟩
    simp only [snapshot, dispatch, hleft, hdeleted, if_false, if_true]

/-- The step lemma of the system: the row stays in its deletion, and no runner
works ahead of it. -/
theorem Cascading.move {cfg : Config} {s s' : State} {now : Timestamp} {op : Op} (hs : Cascading s)
    (hm : Move cfg s now op s') : Cascading s' := by
  obtain ⟨r, hr, hrow⟩ := hs.row
  obtain ⟨r', hr', hrm⟩ := hm.row hr
  obtain ⟨hrow', hle⟩ := hrow.rowMove hs hr hrm
  refine ⟨⟨r', hr', hrow'⟩, ?_⟩
  intro q a k r₁ hq hr₁
  obtain rfl := Option.eq_some_unique hr' hr₁
  have carry (hbefore : Behind a k r.automation) : Behind a k r'.automation :=
    ⟨hbefore.next, hbefore.bound, hbefore.behind.trans hle⟩
  rcases hm.runner q with ⟨-, hsame⟩ | ⟨o, -, hrun⟩
  · rw [hsame] at hq
    exact carry (hs.tasks q a k r hq hr)
  · rcases hrun.task hq with ⟨-, hbefore⟩ | ⟨-, r₂, hr₂, rfl, hdeleting, rfl⟩
    · exact carry (hs.tasks q a k r hbefore hr)
    · obtain rfl := Option.eq_some_unique hr hr₂
      refine carry ⟨rfl, ?_, le_rfl⟩
      rcases hrow with ⟨-, hnull | ⟨k, -, hk, hstep⟩⟩ | ⟨hdeleted, -⟩
      · simp [nextStep, hnull, stepDeleted]
      · rw [nextStep, hstep, Option.getD_some, stepDeleted]
        omega
      · simp [hdeleted] at hdeleting

/-- The row is set to deleting and nothing else is written. -/
def State.flip (s : State) (r : Record) : State :=
  { s with record := some { r with automation := { r.automation with matchingState := .deleting } } }

/-- A deleting row that was reached, or a live one that was reached and then
flipped; runner `p` has not begun. -/
def CascadeStart (cfg : Config) (p : ℕ) (s₀ : State) : Prop :=
  s₀.runners p = .idle ∧ ∃ tr s r, Reached cfg anything tr s ∧ s.record = some r ∧
    (r.automation.matchingState = .deleting ∧ s₀ = s ∨
      r.automation.matchingState ∉ deletionStates ∧ s₀ = s.flip r)

theorem CascadeStart.cascading {cfg : Config} {p : ℕ} {s₀ : State} (h : CascadeStart cfg p s₀) :
    Cascading s₀ := by
  obtain ⟨-, tr, s, r, hreach, hr, ⟨hdeleting, rfl⟩ | ⟨hlive, rfl⟩⟩ := h
  · have hstep := (hreach.fenced.coherent r hr).step
    rw [hdeleting] at hstep
    obtain ⟨k, hk₁, hk₄, hk⟩ := hstep
    refine ⟨⟨r, hr, Or.inl ⟨hdeleting, Or.inr ⟨k, hk₁, hk₄, hk⟩⟩⟩, ?_⟩
    intro q a m r₁ hq hr₁
    obtain ⟨r₂, hr₂, htask⟩ := hreach.onTask hq
    obtain rfl := Option.eq_some_unique hr₁ hr₂
    have hnumber : a.stepNumber = m-1 := by
      rw [Automation.stepNumber, htask.atStep, Option.getD_some]
    have hbounds := htask.bounds
    have hbehind := htask.behind
    exact ⟨by omega, hbounds.2, by omega⟩
  · have hnull := stepMatches_live (hreach.fenced.coherent r hr).step hlive
    refine ⟨⟨_, rfl, Or.inl ⟨rfl, Or.inl hnull⟩⟩, ?_⟩
    intro q a m r₁ hq _
    -- nobody works on a live row
    obtain ⟨r₂, hr₂, htask⟩ := hreach.onTask hq
    obtain rfl := Option.eq_some_unique hr hr₂
    exact absurd htask.inDeletion hlive

theorem Cascading.run {cfg : Config} {s₀ s : State} {tr : Trace State Action} (hs : Cascading s₀)
    (h : SystemRun cfg anything s₀ tr s) : Cascading s :=
  h.invariant hs fun _ _ _ hs _ hstep => hs.move (step_move hstep).2.2

/-- The step of the row never falls. -/
theorem Cascading.stepNumber_le {cfg : Config} {s₀ s : State} {tr : Trace State Action}
    (hs : Cascading s₀) (h : SystemRun cfg anything s₀ tr s) {r₀ : Record} (hr₀ : s₀.record = some r₀) :
    ∃ r, s.record = some r ∧ r₀.automation.stepNumber ≤ r.automation.stepNumber := by
  refine h.history (P := fun _ s => ∃ r, s.record = some r ∧
    r₀.automation.stepNumber ≤ r.automation.stepNumber) ⟨r₀, hr₀, le_rfl⟩ ?_
  rintro tr s a s' hrun ⟨r, hr, hle⟩ - hstep
  have hbefore := hs.run hrun
  obtain ⟨r₁, hr₁, hrow⟩ := hbefore.row
  obtain rfl := Option.eq_some_unique hr hr₁
  obtain ⟨r', hr', hrm⟩ := (step_move hstep).2.2.row hr
  exact ⟨r', hr', hle.trans (hrow.rowMove hbefore hr hrm).2⟩

theorem deletingAll_left (a : Automation) (n : ℕ) (entries : List String) :
    (deletingAll a n entries).passes = n ∧
      (deletingAll a n entries).left = stepsFrom (n+1)+(entries.length+2) := by
  cases entries with
  | nil => exact ⟨rfl, rfl⟩
  | cons entry entries => exact ⟨rfl, rfl⟩

/-- The entries of the listing a runner stands at. -/
def Runner.lists (w : World) : Runner → ℕ
  | .listing a _ => (w.listImageEntries a.id).length
  | _ => 0

/-- A second listing that is not empty. -/
def Runner.refilled (w : World) : Runner → Bool
  | .relisting a _ => w.listImageEntries a.id ≠ []
  | _ => false

/-- Where a call can lead: on with the pass, unless it fails or the second
listing shows that the inventory was refilled. -/
theorem Runner.call_leads {pc next stop : Runner} {w world : World}
    (h : pc.call w = some (world, next, stop)) :
    ∃ a k, pc.task = some (a, k) ∧
      (∃ code, code ≠ "cascade_no_progress" ∧ stop = stopped a code) ∧
      ((next.task = some (a, k) ∧ next.passes = pc.passes ∧ next.left < pc.left + pc.lists w) ∨
        pc.refilled w = true ∧ next = stopped a "registry_inventory_not_empty") := by
  cases pc <;> simp only [Runner.call, Option.some.injEq, Prod.mk.injEq, reduceCtorEq] at h <;>
    obtain ⟨-, rfl, rfl⟩ := h
  case deletingCapp a n =>
    exact ⟨a, _, rfl, ⟨_, by decide, rfl⟩, Or.inl ⟨rfl, rfl, by simp [Runner.left, Runner.lists]⟩⟩
  case deletingSecret a n =>
    exact ⟨a, _, rfl, ⟨_, by decide, rfl⟩, Or.inl ⟨rfl, rfl, by simp [Runner.left, Runner.lists]⟩⟩
  case listing a n =>
    obtain ⟨hpasses, hleft⟩ := deletingAll_left a n (w.listImageEntries a.id)
    refine ⟨a, _, rfl, ⟨_, by decide, rfl⟩, Or.inl ⟨deletingAll_task a n _, hpasses, ?_⟩⟩
    rw [hleft]
    simp only [Runner.left, Runner.lists]
    omega
  case deletingImages a n entry entries =>
    obtain ⟨hpasses, hleft⟩ := deletingAll_left a n entries
    refine ⟨a, _, rfl, ⟨_, by decide, rfl⟩, Or.inl ⟨deletingAll_task a n _, hpasses, ?_⟩⟩
    rw [hleft]
    simp only [Runner.left, Runner.lists]
    omega
  case relisting a n =>
    refine ⟨a, _, rfl, ⟨_, by decide, rfl⟩, ?_⟩
    split
    · exact Or.inl ⟨rfl, rfl, by simp [Runner.left, Runner.lists]⟩
    · next hleft => exact Or.inr ⟨by simpa [Runner.refilled] using hleft, rfl⟩
  case archiving a n =>
    exact ⟨a, _, rfl, ⟨_, by decide, rfl⟩, Or.inl ⟨rfl, rfl, by simp [Runner.left, Runner.lists]⟩⟩

/-- The operation is a crash, a failing read or call, or a checkpoint whose
transaction fails or is not acknowledged. -/
def RunnerOp.fails : RunnerOp → Bool
  | .snapshot readFails => readFails
  | .call outcome | .save outcome => outcome ≠ .ok
  | .crash => true

/-- What runner `pc` of an attempt that began at step `k₀` knows of the row. -/
structure Attempting (k₀ : ℕ) (row : Automation) (pc : Runner) : Prop where
  begun : k₀ ≤ row.stepNumber
  working : ∀ a k, pc.task = some (a, k) → pc.passes ≤ a.stepNumber ∧ k₀ ≤ a.stepNumber
  rereading : ∀ n, pc = .rereading n → n ≤ row.stepNumber

/-- The moves of an attempt on the row `r` in its deletion. -/
inductive PassMove (k₀ : ℕ) (r : Record) (w : World) (pc : Runner) : RunnerOp → Runner → Prop
  | crashed {op : RunnerOp} (hfails : op.fails = true) : PassMove k₀ r w pc op .crashed
  | readFailed : PassMove k₀ r w pc (.snapshot true) (.raised .sqlAlchemyError)
  | stopped {op : RunnerOp} (a : Automation) (code : String)
      (hbroken : op.fails = true ∨ pc.refilled w = true) (hcode : code ≠ "cascade_no_progress")
      (hk₀ : k₀ ≤ a.stepNumber) : PassMove k₀ r w pc op (KeepAutomation.stopped a code)
  | deleted (hstate : r.automation.matchingState = .deleted)
      (hstep : r.automation.deleteCascadeStep = some stepDeleted) :
      PassMove k₀ r w pc (.snapshot false) (.returned (cascadeResult r.automation none))
  | begun {pc' : Runner} (n : ℕ) (hpc : pc = .idle ∧ n = 0 ∨ pc = .rereading n)
      (hn : n ≤ r.automation.stepNumber) (hopen : r.automation.stepNumber < stepDeleted)
      (htask : pc'.task = some (r.automation, r.automation.stepNumber+1)) (hpasses : pc'.passes = n)
      (hleft : pc'.left ≤ stepsFrom (n+1)+3) : PassMove k₀ r w pc (.snapshot false) pc'
  | called {pc' : Runner} {a : Automation} {k : ℕ} (hbefore : pc.task = some (a, k))
      (htask : pc'.task = some (a, k)) (hpasses : pc'.passes = pc.passes)
      (hleft : pc'.left < pc.left + pc.lists w) : PassMove k₀ r w pc (.call .ok) pc'
  | saved {a : Automation} {n k : ℕ} (hpc : pc = .saving a n k) :
      PassMove k₀ r w pc (.save .ok) (.rereading (n+1))

theorem RunnerMove.passMove {now : Timestamp} {sh sh' : Shared} {pc pc' : Runner} {op : RunnerOp}
    {k₀ : ℕ} {r : Record} (h : RunnerMove now sh pc op sh' pc') (hr : sh.record = some r)
    (hrow : InCascade r.automation) (hat : Attempting k₀ r.automation pc) :
    PassMove k₀ r sh.world pc op pc' := by
  have fresh (n : ℕ) (hpc : pc = .idle ∧ n = 0 ∨ pc = .rereading n)
      (hn : n ≤ r.automation.stepNumber) :
      PassMove k₀ r sh.world pc (.snapshot false) (snapshot (some r) n) := by
    rcases snapshot_inCascade hrow hn with ⟨hstate, hstep, he⟩ | ⟨hopen, htask, hpasses, hleft⟩
    · rw [he]
      exact .deleted hstate hstep
    · exact .begun n hpc hn hopen htask hpasses hleft
  cases h with
  | started =>
    rw [hr]
    exact fresh 0 (Or.inl ⟨rfl, rfl⟩) (Nat.zero_le _)
  | @reread n =>
    rw [hr]
    exact fresh n (Or.inr rfl) (hat.rereading n rfl)
  | readFailed => exact .readFailed
  | called outcome world next stop hcall =>
    obtain ⟨a, k, htask, ⟨code, hcode, rfl⟩, hnext⟩ := Runner.call_leads hcall
    have hk₀ := (hat.working a k htask).2
    cases outcome with
    | ok =>
      rcases hnext with ⟨hsame, hpasses, hleft⟩ | ⟨hrefilled, rfl⟩
      · exact .called htask hsame hpasses hleft
      · exact .stopped a _ (Or.inr hrefilled) (by decide) hk₀
    | failed => exact .stopped a code (Or.inl rfl) hcode hk₀
    | lost => exact .stopped a code (Or.inl rfl) hcode hk₀
  | @saved a n k outcome =>
    cases outcome with
    | ok => exact .saved rfl
    | failed => exact .stopped a _ (Or.inl rfl) (by decide) (hat.working a k rfl).2
    | lost => exact .stopped a _ (Or.inl rfl) (by decide) (hat.working a k rfl).2
  | crashed => exact .crashed rfl

/-- A pass that has tried its checkpoint leaves the row past its snapshot. -/
theorem RunnerMove.saved_row {now : Timestamp} {sh sh' : Shared} {a : Automation} {n k : ℕ}
    {pc' : Runner} {r : Record} (h : RunnerMove now sh (.saving a n k) (.save .ok) sh' pc')
    (hr : sh.record = some r) : sh'.record = some (checkpoint k now r) := by
  cases h with
  | saved => simp [CallOutcome.effective, hr]

theorem Attempting.frame {k₀ : ℕ} {row row' : Automation} {pc : Runner} (h : Attempting k₀ row pc)
    (hle : row.stepNumber ≤ row'.stepNumber) : Attempting k₀ row' pc :=
  ⟨h.begun.trans hle, h.working, fun n hpc => (h.rereading n hpc).trans hle⟩

theorem Attempting.ended {k₀ : ℕ} {row : Automation} {pc : Runner} (hk₀ : k₀ ≤ row.stepNumber)
    (hdone : pc.finished = true) : Attempting k₀ row pc := by
  refine ⟨hk₀, ?_, ?_⟩
  · intro a k htask
    cases pc <;> simp [Runner.finished, Runner.task] at hdone htask
  · intro n hpc
    simp [hpc, Runner.finished] at hdone

theorem PassMove.attempting {k₀ : ℕ} {r : Record} {row' : Automation} {w : World} {pc pc' : Runner}
    {op : RunnerOp} (h : PassMove k₀ r w pc op pc') (hat : Attempting k₀ r.automation pc)
    (hle : r.automation.stepNumber ≤ row'.stepNumber)
    (hsaved : ∀ a n k, pc = .saving a n k → op = .save .ok →
      k = a.stepNumber+1 ∧ k ≤ row'.stepNumber) : Attempting k₀ row' pc' := by
  have hk₀ := hat.begun.trans hle
  cases h with
  | crashed => exact .ended hk₀ rfl
  | readFailed => exact .ended hk₀ rfl
  | stopped => exact .ended hk₀ rfl
  | deleted => exact .ended hk₀ rfl
  | begun n hpc hn hopen htask hpasses hleft =>
    refine ⟨hk₀, ?_, ?_⟩
    · intro a k ha
      obtain ⟨rfl, -⟩ := Prod.mk.inj (Option.eq_some_unique htask ha)
      exact ⟨hpasses.le.trans hn, hat.begun⟩
    · intro m hm
      simp [hm, Runner.task] at htask
  | called hbefore htask hpasses hleft =>
    refine ⟨hk₀, ?_, ?_⟩
    · intro a k ha
      obtain ⟨rfl, rfl⟩ := Prod.mk.inj (Option.eq_some_unique htask ha)
      rw [hpasses]
      exact hat.working _ _ hbefore
    · intro m hm
      simp [hm, Runner.task] at htask
  | @saved a n k hpc =>
    obtain ⟨hk, hreached⟩ := hsaved a n k hpc rfl
    have hpasses := (hat.working a k (by rw [hpc]; rfl)).1
    rw [hpc] at hpasses
    refine ⟨hk₀, ?_, ?_⟩
    · intro a k ha
      simp [Runner.task] at ha
    · intro m hm
      obtain rfl := Runner.rereading.inj hm
      -- the snapshot was at step n or later, and the row is past it
      have hn : n ≤ a.stepNumber := hpasses
      omega

/-- The invariant of an attempt. -/
theorem CascadeStart.attempting {cfg : Config} {p : ℕ} {s₀ s : State} {tr : Trace State Action}
    (h₀ : CascadeStart cfg p s₀) (h : SystemRun cfg anything s₀ tr s) {r₀ : Record}
    (hr₀ : s₀.record = some r₀) :
    ∃ r, s.record = some r ∧ InCascade r.automation ∧
      Attempting r₀.automation.stepNumber r.automation (s.runners p) := by
  refine h.history (P := fun _ s => ∃ r, s.record = some r ∧ InCascade r.automation ∧
    Attempting r₀.automation.stepNumber r.automation (s.runners p)) ?_ ?_
  · obtain ⟨r, hr, hrow⟩ := h₀.cascading.row
    obtain rfl := Option.eq_some_unique hr₀ hr
    refine ⟨r₀, hr, hrow, le_rfl, ?_, ?_⟩
    · intro a k htask
      simp [h₀.1, Runner.task] at htask
    · intro n hpc
      simp [h₀.1] at hpc
  rintro tr s a s' hrun ⟨r, hr, hrow, hat⟩ - hstep
  have hs := h₀.cascading.run hrun
  have hm := (step_move hstep).2.2
  obtain ⟨r', hr', hrm⟩ := hm.row hr
  obtain ⟨hrow', hle⟩ := hrow.rowMove hs hr hrm
  refine ⟨r', hr', hrow', ?_⟩
  rcases hm.runner p with ⟨-, hsame⟩ | ⟨o, -, hrunner⟩
  · rw [hsame]
    exact hat.frame hle
  · refine (hrunner.passMove hr hrow hat).attempting hat hle ?_
    intro a n k hpc ho
    have hbehind := hs.tasks p a k r (by rw [hpc]; rfl) hr
    have hk : 1 ≤ k := by
      have hnext := hbehind.next
      omega
    rw [hpc, ho] at hrunner
    obtain rfl := Option.some.inj (hr'.symm.trans (hrunner.saved_row hr))
    refine ⟨hbehind.next, hrow.checkpoint_reaches _ hk hbehind.bound ?_⟩
    have hnext := hbehind.next
    have hle := hbehind.behind
    omega

theorem Runner.left_pos {pc : Runner} (h : pc.finished = false) : 0 < pc.left := by
  cases pc <;> simp [Runner.finished, Runner.left, stepsFrom] at h ⊢

theorem stepsFrom_succ {n : ℕ} (hn : n < stepDeleted) : stepsFrom (n+1)+4 = stepsFrom n := by
  simp only [stepsFrom, stepDeleted] at hn ⊢
  omega

/-- Every move uses up a step, and only a listing brings new ones. -/
theorem PassMove.left_lt {k₀ : ℕ} {r : Record} {w : World} {pc pc' : Runner} {op : RunnerOp}
    (h : PassMove k₀ r w pc op pc') (hrun : pc.finished = false) : pc'.left < pc.left + pc.lists w := by
  have hpos := Nat.lt_add_right (pc.lists w) (Runner.left_pos hrun)
  cases h with
  | crashed => exact hpos
  | readFailed => exact hpos
  | stopped => exact hpos
  | deleted => exact hpos
  | begun n hpc hn hopen htask hpasses hleft =>
    have hsucc := stepsFrom_succ (lt_of_le_of_lt hn hopen)
    have hbefore : pc.left = stepsFrom n := by
      rcases hpc with ⟨rfl, rfl⟩ | rfl
      · rfl
      · rfl
    omega
  | called hbefore htask hpasses hleft => exact hleft
  | saved hpc =>
    subst hpc
    simp only [Runner.left]
    omega

/-- The step executions a runner has begun, and all five once it has ended. -/
def Runner.executions (pc : Runner) : ℕ :=
  if pc.task.isSome then pc.passes+1 else if pc.finished then stepDeleted else pc.passes

theorem Runner.executions_le {k₀ : ℕ} {row : Automation} {pc : Runner} (hrow : InCascade row)
    (hat : Attempting k₀ row pc) (hbehind : ∀ a k, pc.task = some (a, k) → Behind a k row) :
    pc.executions ≤ stepDeleted := by
  unfold Runner.executions
  split
  · next hsome =>
    obtain ⟨⟨a, k⟩, htask⟩ := Option.isSome_iff_exists.mp hsome
    have hpasses := (hat.working a k htask).1
    have hnext := (hbehind a k htask).next
    have hbound := (hbehind a k htask).bound
    omega
  · next hnone =>
    split
    · exact le_rfl
    · cases pc with
      | rereading n => exact (hat.rereading n rfl).trans hrow.stepNumber_le
      | idle => exact Nat.zero_le _
      | returned | raised | crashed => exact Nat.zero_le _
      | _ => exact absurd rfl hnone

def RunnerOp.isSnapshot : RunnerOp → Bool
  | .snapshot _ => true
  | _ => false

/-- A move takes up at most the step execution it begins. -/
theorem PassMove.executions {k₀ : ℕ} {r : Record} {w : World} {pc pc' : Runner} {op : RunnerOp}
    (h : PassMove k₀ r w pc op pc') (hrun : pc.finished = false) (hle : pc.executions ≤ stepDeleted) :
    pc.executions + (op.isSnapshot && pc'.task.isSome).toNat ≤ pc'.executions := by
  cases h with
  | crashed => simpa [Runner.task, Runner.executions, Runner.finished] using hle
  | readFailed => simpa [Runner.task, Runner.executions, Runner.finished] using hle
  | stopped => simpa [Runner.task, Runner.executions, Runner.finished, KeepAutomation.stopped] using hle
  | deleted => simpa [Runner.task, Runner.executions, Runner.finished] using hle
  | begun n hpc hn hopen htask hpasses hleft =>
    have hbefore : pc.executions = n := by
      rcases hpc with ⟨rfl, rfl⟩ | rfl
      · rfl
      · rfl
    rw [hbefore]
    simp [Runner.executions, htask, hpasses, RunnerOp.isSnapshot]
  | called hbefore htask hpasses hleft =>
    have hsame : pc'.executions = pc.executions := by
      simp [Runner.executions, hbefore, htask, hpasses]
    simp [hsame, RunnerOp.isSnapshot]
  | saved hpc =>
    subst hpc
    simp [Runner.executions, Runner.task, Runner.passes, Runner.finished, RunnerOp.isSnapshot]

/-- A runner that has ended moves no more. -/
theorem Runner.step_finished {now : Timestamp} {sh : Shared} {pc : Runner} (h : pc.finished = true)
    (op : RunnerOp) : pc.step now sh op = none := by
  cases pc <;> cases op <;> simp [Runner.finished] at h <;> rfl

theorem Runner.unfinished {cfg : Config} {s s' : State} {now : Timestamp} {p : ℕ} {o : RunnerOp}
    (hstep : KeepAutomation.step cfg s ⟨now, .run p o⟩ = some s') : (s.runners p).finished = false := by
  rw [Bool.eq_false_iff]
  intro hdone
  unfold KeepAutomation.step at hstep
  split at hstep
  · simp [apply, Runner.step_finished hdone] at hstep
  · simp at hstep

/-- The operation of runner `p` that an operation is. -/
def Op.ofRunner (p : ℕ) : Op → Option RunnerOp
  | .run q o => if q = p then some o else none
  | _ => none

@[simp] theorem Op.ofRunner_self (p : ℕ) (o : RunnerOp) : (Op.run p o).ofRunner p = some o :=
  if_pos rfl

theorem Op.ofRunner_eq_none {p : ℕ} {op : Op} (h : ∀ o, op ≠ .run p o) : op.ofRunner p = none := by
  cases op with
  | run q o =>
    refine if_neg ?_
    intro hq
    exact h o (by rw [hq])
  | _ => rfl

/-- A move of runner `p`. -/
def movesRunner (p : ℕ) (t : Transition State Action) : Bool := (t.act.op.ofRunner p).isSome

/-- Runner `p` begins to execute a step of the cascade. -/
def beginsStep (p : ℕ) (t : Transition State Action) : Bool :=
  (t.act.op.ofRunner p).any RunnerOp.isSnapshot && (t.post.runners p).task.isSome

/-- The entries of a listing that runner `p` is answered. -/
def listsEntries (p : ℕ) (t : Transition State Action) : ℕ :=
  if movesRunner p t then (t.pre.runners p).lists t.pre.world else 0

/-- An own interaction of runner `p` fails, or its second listing is not empty. -/
def disturbs (p : ℕ) (t : Transition State Action) : Bool :=
  (t.act.op.ofRunner p).any fun o => o.fails || (t.pre.runners p).refilled t.pre.world

theorem CascadeStart.moves_le {cfg : Config} {p : ℕ} {s₀ s : State} {tr : Trace State Action}
    (h₀ : CascadeStart cfg p s₀) (h : SystemRun cfg anything s₀ tr s) :
    tr.countP (movesRunner p) + (s.runners p).left ≤ 21 + (tr.map (listsEntries p)).sum := by
  obtain ⟨r₀, hr₀, -⟩ := h₀.cascading.row
  refine h.history (P := fun tr s => tr.countP (movesRunner p) + (s.runners p).left ≤
    21 + (tr.map (listsEntries p)).sum) ?_ ?_
  · rw [h₀.1]
    exact le_rfl
  intro tr s a s' hrun hcount _ hstep
  obtain ⟨r, hr, hrow, hat⟩ := h₀.attempting hrun hr₀
  rw [List.countP_cons, List.map_cons, List.sum_cons]
  obtain ⟨now, op⟩ := a
  rcases (step_move hstep).2.2.runner p with ⟨hother, hsame⟩ | ⟨o, rfl, hrunner⟩
  · have hnone := Op.ofRunner_eq_none hother
    simp only [movesRunner, listsEntries, hnone, hsame, Option.isSome_none, Bool.false_eq_true,
      if_false]
    omega
  -- an own move uses up one of the moves left, but for the entries it lists
  · have hlt := (hrunner.passMove hr hrow hat).left_lt (Runner.unfinished hstep)
    simp only [movesRunner, listsEntries, Op.ofRunner_self, Option.isSome_some, if_true]
    omega

theorem CascadeStart.executions_le {cfg : Config} {p : ℕ} {s₀ s : State} {tr : Trace State Action}
    (h₀ : CascadeStart cfg p s₀) (h : SystemRun cfg anything s₀ tr s) :
    tr.countP (beginsStep p) ≤ stepDeleted := by
  obtain ⟨r₀, hr₀, -⟩ := h₀.cascading.row
  have hcount := h.countP_le (fun s => (s.runners p).executions) (beginsStep p) ?_
  · obtain ⟨r, hr, hrow, hat⟩ := h₀.attempting h hr₀
    have hs := h₀.cascading.run h
    have hle := Runner.executions_le hrow hat fun a k htask => hs.tasks p a k r htask hr
    exact (Nat.le_add_left _ _).trans (hcount.trans hle)
  intro tr s a s' hrun _ hstep
  obtain ⟨r, hr, hrow, hat⟩ := h₀.attempting hrun hr₀
  have hs := h₀.cascading.run hrun
  have hle := Runner.executions_le hrow hat fun a k htask => hs.tasks p a k r htask hr
  obtain ⟨now, op⟩ := a
  rcases (step_move hstep).2.2.runner p with ⟨hother, hsame⟩ | ⟨o, rfl, hrunner⟩
  · simp [beginsStep, Op.ofRunner_eq_none hother, hsame]
  · have hmove := (hrunner.passMove hr hrow hat).executions (Runner.unfinished hstep) hle
    simp only [beginsStep, Op.ofRunner_self, Option.any_some]
    -- a snapshot that begins a step raises the count of executions by one
    cases hbegins : o.isSnapshot && (s'.runners p).task.isSome with
    | false => simpa [hbegins] using hmove
    | true => simpa [hbegins] using hmove

/-- The row is deleted, at the last step. -/
def Gone (s : State) : Prop :=
  ∃ r, s.record = some r ∧ r.automation.matchingState = .deleted ∧
    r.automation.deleteCascadeStep = some stepDeleted

/-- The progress of a deletion that is through. -/
def CascadeResult.Deleted (res : CascadeResult) : Prop :=
  res.error = none ∧ res.matchingState = .deleted ∧ res.deleteCascadeStep = some stepDeleted

/-- How an attempt that began at step `k₀` has ended. -/
def EndedWell (k₀ p : ℕ) (tr : Trace State Action) (s : State) : Runner → Prop
  | .returned res => res.error ≠ some "cascade_no_progress" ∧ k₀ ≤ res.deleteCascadeStep.getD 0 ∧
      (res.Deleted ∧ Gone s ∨ ∃ t ∈ tr, disturbs p t = true)
  | .raised e => e = .sqlAlchemyError ∧ ∃ t ∈ tr, disturbs p t = true
  | .crashed => ∃ t ∈ tr, disturbs p t = true
  | _ => True

theorem EndedWell.of_working {k₀ p k : ℕ} {tr : Trace State Action} {s : State} {a : Automation}
    {pc : Runner} (h : pc.task = some (a, k)) : EndedWell k₀ p tr s pc := by
  cases pc with
  | returned | raised | crashed => simp [Runner.task] at h
  | _ => trivial

theorem Gone.move {cfg : Config} {s s' : State} {now : Timestamp} {op : Op} (hs : Cascading s)
    (h : Gone s) (hm : Move cfg s now op s') : Gone s' := by
  obtain ⟨r, hr, hstate, hstep⟩ := h
  obtain ⟨r', hr', hrm⟩ := hm.row hr
  obtain ⟨hrow', hle⟩ := InCascade.rowMove hs hr (Or.inr ⟨hstate, hstep⟩) hrm
  refine ⟨r', hr', ?_⟩
  -- a step below the last would mean that the step number fell
  rcases hrow' with ⟨-, hnull | ⟨k, -, hk, hstep'⟩⟩ | hdone
  · simp [Automation.stepNumber, hstep, hnull, stepDeleted] at hle
  · rw [Automation.stepNumber, hstep, Automation.stepNumber, hstep', Option.getD_some,
      Option.getD_some, stepDeleted] at hle
    omega
  · exact hdone

theorem EndedWell.frame {cfg : Config} {k₀ p : ℕ} {tr : Trace State Action} {s s' : State}
    {a : Action} {pc : Runner} (hs : Cascading s) (h : EndedWell k₀ p tr s pc)
    (hm : Move cfg s a.now a.op s') : EndedWell k₀ p (⟨s, a, s'⟩ :: tr) s' pc := by
  have later : (∃ t ∈ tr, disturbs p t = true) →
      ∃ t ∈ (⟨s, a, s'⟩ : Transition State Action) :: tr, disturbs p t = true := by
    rintro ⟨t, ht, hdisturbs⟩
    exact ⟨t, List.mem_cons_of_mem _ ht, hdisturbs⟩
  cases pc with
  | returned res =>
    obtain ⟨hprogress, hk₀, ⟨hres, hgone⟩ | hdisturbed⟩ := h
    · exact ⟨hprogress, hk₀, Or.inl ⟨hres, hgone.move hs hm⟩⟩
    · exact ⟨hprogress, hk₀, Or.inr (later hdisturbed)⟩
  | raised e => exact ⟨h.1, later h.2⟩
  | crashed => exact later h
  | _ => trivial

theorem CascadeStart.endedWell {cfg : Config} {p : ℕ} {s₀ s : State} {tr : Trace State Action}
    (h₀ : CascadeStart cfg p s₀) (h : SystemRun cfg anything s₀ tr s) {r₀ : Record}
    (hr₀ : s₀.record = some r₀) :
    EndedWell r₀.automation.stepNumber p tr s (s.runners p) := by
  refine h.history (P := fun tr s => EndedWell r₀.automation.stepNumber p tr s (s.runners p)) ?_ ?_
  · rw [h₀.1]
    trivial
  intro tr s a s' hrun hended _ hstep
  have hs := h₀.cascading.run hrun
  have hm := (step_move hstep).2.2
  rcases hm.runner p with ⟨-, hsame⟩ | ⟨o, ho, hrunner⟩
  · rw [hsame]
    exact hended.frame hs hm
  · obtain ⟨r, hr, hrow, hat⟩ := h₀.attempting hrun hr₀
    have hnow (hbroken : o.fails = true ∨ (s.runners p).refilled s.world = true) :
        ∃ t ∈ (⟨s, a, s'⟩ : Transition State Action) :: tr, disturbs p t = true := by
      refine ⟨_, List.mem_cons_self .., ?_⟩
      simpa [disturbs, ho] using hbroken
    have hmove := hrunner.passMove hr hrow hat
    generalize s'.runners p = pc' at hmove ⊢
    cases hmove with
    | crashed hfails => exact hnow (Or.inl hfails)
    | readFailed => exact ⟨rfl, hnow (Or.inl rfl)⟩
    -- stopped by its own failure or by a listing that is not empty
    | stopped b code hbroken hcode hk₀ =>
      exact ⟨fun hsame => hcode (Option.some.inj hsame), hk₀, Or.inr (hnow hbroken)⟩
    | deleted hstate hstep₅ =>
      have hgone : Gone s := ⟨r, hr, hstate, hstep₅⟩
      exact ⟨by simp [cascadeResult], hat.begun, Or.inl ⟨⟨rfl, hstate, hstep₅⟩, hgone.move hs hm⟩⟩
    | begun n hpc hn hopen htask => exact EndedWell.of_working htask
    | called hbefore htask => exact EndedWell.of_working htask
    | saved => trivial

/-- A runner that has neither ended nor crashed can go on without a failure. -/
theorem step_enabled (cfg : Config) (s : State) {p : ℕ} (h : (s.runners p).finished = false)
    {now : Timestamp} (hnow : s.clock < now) :
    ∃ o, o.fails = false ∧ (step cfg s ⟨now, .run p o⟩).isSome = true := by
  refine ⟨(s.runners p).nextOp .ok, ?_, ?_⟩
  · cases hpc : s.runners p <;> simp [Runner.nextOp, RunnerOp.fails]
  · rw [step, if_pos hnow]
    cases hpc : s.runners p with
    | idle | rereading | saving => simp [apply, Runner.nextOp, hpc, Runner.step]
    | returned | raised | crashed => simp [hpc, Runner.finished] at h
    | _ => simp [apply, Runner.nextOp, hpc, Runner.step_call, Runner.call]

/-- Every cascade attempt ends, and ends deleted when nothing of its own fails. -/
theorem attempt_progress {cfg : Config} {p : ℕ} {s₀ s : State} {tr : Trace State Action}
    {r₀ : Record} (h₀ : CascadeStart cfg p s₀) (hr₀ : s₀.record = some r₀)
    (h : SystemRun cfg anything s₀ tr s) :
    tr.countP (beginsStep p) ≤ 5 ∧
    tr.countP (movesRunner p) ≤ 21 + (tr.map (listsEntries p)).sum ∧
    ((s.runners p).finished = false → ∀ now > s.clock, ∃ o, o.fails = false ∧
      (step cfg s ⟨now, .run p o⟩).isSome = true) ∧
    (∀ e, s.runners p = .raised e → e = .sqlAlchemyError) ∧
    (∀ res, s.runners p = .returned res → res.error ≠ some "cascade_no_progress" ∧
      r₀.automation.stepNumber ≤ res.deleteCascadeStep.getD 0) ∧
    (∃ r, s.record = some r ∧ r₀.automation.stepNumber ≤ r.automation.stepNumber) ∧
    (∀ t ∈ tr, ∀ r r', t.pre.record = some r → t.post.record = some r' →
      r'.automation.deleteCascadeStep ≠ r.automation.deleteCascadeStep →
      r'.automation.deleteCascadeStep = some (r.automation.stepNumber+1)) ∧
    ((s.runners p).finished = true → (∀ t ∈ tr, disturbs p t = false) →
      (∃ res, s.runners p = .returned res ∧ res.Deleted) ∧ Gone s) := by
  have hended := h₀.endedWell h hr₀
  have hmoves := h₀.moves_le h
  refine ⟨h₀.executions_le h, by omega, fun hrun now hnow => step_enabled cfg s hrun hnow, ?_, ?_,
    h₀.cascading.stepNumber_le h hr₀, ?_, ?_⟩
  · intro e he
    rw [he] at hended
    exact hended.1
  · intro res hres
    rw [hres] at hended
    exact ⟨hended.1, hended.2.1⟩
  · intro t ht r r' hr hr' hne
    obtain ⟨-, hstep, tr', hpre⟩ := h.transition ht
    have hs := h₀.cascading.run hpre
    obtain ⟨r₁, hr₁, hrow⟩ := hs.row
    obtain rfl := Option.eq_some_unique hr hr₁
    obtain ⟨r₂, hr₂, hrm⟩ := (step_move hstep).2.2.row hr
    obtain rfl := Option.eq_some_unique hr' hr₂
    exact hrow.step_succ hs hr hrm hne
  · intro hdone hclean
    have hnone : ¬ ∃ t ∈ tr, disturbs p t = true := by
      rintro ⟨t, ht, hdisturbs⟩
      rw [hclean t ht] at hdisturbs
      exact Bool.false_ne_true hdisturbs
    cases hpc : s.runners p with
    | returned res =>
      rw [hpc] at hended
      rcases hended.2.2 with ⟨hres, hgone⟩ | hdisturbed
      · exact ⟨⟨res, rfl, hres⟩, hgone⟩
      · exact absurd hdisturbed hnone
    | raised e =>
      rw [hpc] at hended
      exact absurd hended.2 hnone
    | crashed =>
      rw [hpc] at hended
      exact absurd hended hnone
    | _ => simp [hpc, Runner.finished] at hdone

def Runner.isIdle : Runner → Bool
  | .idle => true
  | _ => false

/-- Runner 0 reads the row, and runner 1 completes the whole deletion before
runner 0 goes on: its checkpoint is lost. -/
def overtakenOps : List Op :=
  [.run 0 (.snapshot false),
   .run 1 (.snapshot false), .run 1 (.call .ok), .run 1 (.call .ok), .run 1 (.save .ok),
   .run 1 (.snapshot false), .run 1 (.call .ok), .run 1 (.call .ok), .run 1 (.call .ok),
   .run 1 (.save .ok), .run 1 (.snapshot false), .run 1 (.call .ok), .run 1 (.save .ok),
   .run 1 (.snapshot false), .run 1 (.save .ok),
   .run 0 (.call .ok), .run 0 (.call .ok), .run 0 (.save .ok), .run 0 (.snapshot false)]

theorem attempt_progress_sample :
    ∃ s₀ tr s, CascadeStart sampleConfig 0 s₀ ∧ SystemRun sampleConfig anything s₀ tr s ∧
      (∃ res, s.runners 0 = .returned res ∧ res.Deleted) ∧ Gone s := by
  obtain ⟨s₀, tr, s, hreach, hrun, hidle, ⟨r, hr, hdeleting⟩, hdone, hclean⟩ :=
    runs_of_runSample anything anything
      [.create "t1" samplePayload "author" firstSha 99, .deliver 0 (.receive firstFailure false),
        .deliver 0 (.recordFailure none), .beginDelete "t1" "deleter"] overtakenOps
      (fun s₀ tr s => (s₀.runners 0).isIdle = true ∧
        (∃ r ∈ s₀.record, r.automation.matchingState = .deleting) ∧
        (s.runners 0).finished = true ∧ ∀ t ∈ tr, disturbs 0 t = false)
      (by decide +kernel) (by decide +kernel)
  have h₀ : CascadeStart sampleConfig 0 s₀ := by
    refine ⟨?_, _, s₀, r, ⟨sampleWorld, hreach⟩, hr, Or.inl ⟨hdeleting, rfl⟩⟩
    -- the flag is computed, the runner itself cannot be compared
    cases hpc : s₀.runners 0 with
    | idle => rfl
    | _ => simp [hpc, Runner.isIdle] at hidle
  obtain ⟨-, -, -, -, -, -, -, hend⟩ := attempt_progress h₀ hr hrun
  exact ⟨s₀, tr, s, h₀, hrun, hend hdone hclean⟩

end KeepAutomation
