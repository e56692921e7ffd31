import KeepAutomation.Attempt
import Mathlib.Algebra.BigOperators.Intervals

/-! Which interaction of a cascade attempt is the last checkpoint. Only an attempt
that meets no failure before it can delete its row and then not say so. -/
namespace KeepAutomation

/-- The interactions of a step that succeeds: its calls, its checkpoint and the
read behind it. -/
def interactions (images : ℕ) : ℕ → ℕ
  | 1 => 2
  | 2 => 4
  | 3 => images+4
  | 4 => 3
  | _ => 0

/-- The interactions from the head of step `k` to the last checkpoint. -/
def toLast (images k : ℕ) : ℕ := ∑ j ∈ Finset.Ico k stepDeleted, interactions images j

/-- The last checkpoint of an attempt that begins with step `first`, its
interactions numbered from the first read, which is 0. -/
def lastCheckpoint (images first : ℕ) : ℕ := toLast images first+1

example : lastCheckpoint 3 stepMarkedDeleting = 17 := by decide

/-- An attempt from step `first` deletes the row and does not say so: nothing fails
up to the last checkpoint, which commits and raises or is followed by a read that
fails. -/
def HidesEnd (answers : ℕ → Answer) (images first : ℕ) : Prop :=
  (∀ j < lastCheckpoint images first, (answers j).outcome = .ok) ∧
    ((answers (lastCheckpoint images first)).outcome = .lost ∨
      (answers (lastCheckpoint images first)).outcome = .ok ∧
        (answers (lastCheckpoint images first+1)).outcome ≠ .ok)

/-- The interaction hides that the row is deleted. -/
def Hides (answer : Answer) (x : Shared × Runner) : Prop :=
  (∃ a n, x.2 = .saving a n stepDeleted ∧ answer.outcome = .lost) ∨
  ∃ n r, x.2 = .rereading n ∧ x.1.record = some r ∧ r.automation.matchingState = .deleted ∧
    answer.outcome ≠ .ok

/-- Only a last checkpoint and the read behind it can hide the end. -/
theorem not_hides {answer : Answer} {sh : Shared} {pc : Runner} (hsaving : ∀ a n k, pc ≠ .saving a n k)
    (hreading : ∀ n, pc ≠ .rereading n) : ¬Hides answer (sh, pc) := by
  rintro (⟨a, n, hpc, -⟩ | ⟨n, r, hpc, -⟩)
  · exact hsaving a n _ hpc
  · exact hreading n hpc

theorem not_hides_of_finished {answer : Answer} {x : Shared × Runner} (h : x.2.finished = true) :
    ¬Hides answer x := by
  rintro (⟨_, _, hpc, -⟩ | ⟨_, _, hpc, -⟩)
  · rw [hpc] at h
    simp [Runner.finished] at h
  · rw [hpc] at h
    simp [Runner.finished] at h

section Shift

variable {answers : ℕ → Answer} {x : Shared × Runner}

theorem runAlone_of_finished {n : ℕ} (h : (runAlone answers x n).2.finished = true) (m : ℕ) :
    runAlone answers x (n+m) = runAlone answers x n := by
  induction m with
  | zero => rfl
  | succ m ih =>
    change advance _ (runAlone answers x (n+m)) = _
    rw [ih, advance_finished h]

/-- The rest of an attempt is one from the state after its first interaction. -/
theorem runAlone_shift (n : ℕ) :
    runAlone answers x (n+1) = runAlone (fun i => answers (i+1)) (advance (answers 0) x) n := by
  induction n with
  | zero => rfl
  | succ n ih => exact congrArg (advance (answers (n+1))) ih

/-- An attempt hides its end in one of its interactions. -/
def HidesIn (answers : ℕ → Answer) (x : Shared × Runner) : Prop :=
  ∃ k, Hides (answers k) (runAlone answers x k)

theorem hidesIn_iff : HidesIn answers x ↔ Hides (answers 0) x ∨
    HidesIn (fun i => answers (i+1)) (advance (answers 0) x) := by
  constructor
  · rintro ⟨k, hk⟩
    cases k with
    | zero => exact Or.inl hk
    | succ k =>
      rw [runAlone_shift] at hk
      exact Or.inr ⟨k, hk⟩
  · rintro (h | ⟨k, hk⟩)
    · exact ⟨0, h⟩
    · refine ⟨k+1, ?_⟩
      rw [runAlone_shift]
      exact hk

theorem not_hidesIn_of_finished (h : x.2.finished = true) : ¬HidesIn answers x := by
  rintro ⟨k, hk⟩
  have hend : runAlone answers x (0+k) = x := runAlone_of_finished (n := 0) h k
  rw [Nat.zero_add] at hend
  rw [hend] at hk
  exact not_hides_of_finished h hk

end Shift

theorem toLast_of_lt {images k : ℕ} (h : k < stepDeleted) :
    toLast images k = toLast images (k+1)+interactions images k := by
  rw [toLast, Finset.sum_eq_sum_Ico_succ_bot h, Nat.add_comm]
  rfl

theorem toLast_stepDeleted (images : ℕ) : toLast images stepDeleted = 0 := by
  rw [toLast, Finset.Ico_self, Finset.sum_empty]

/-- A row that step `k` is to be done on, in pass `n`, with its images still there if
step 3 is still to come. -/
structure StepDue (images : ℕ) (w : World) (r : Record) (k n : ℕ) : Prop where
  row : checkpointMatches k r.automation
  step : 1 ≤ k ∧ k ≤ stepDeleted
  pass : n < k
  listed : k ≤ stepImagesDeleted → (w.listImageEntries r.automation.id).length = images

/-- The runner is this many interactions before the last checkpoint. -/
inductive Ahead (images : ℕ) (w : World) (r : Record) : Runner → ℕ → Prop
  | idle {k : ℕ} (h : StepDue images w r k 0) : Ahead images w r .idle (toLast images k+1)
  | rereading {k n : ℕ} (h : StepDue images w r k n) :
      Ahead images w r (.rereading n) (toLast images k+1)
  | deletingCapp {n : ℕ} (h : StepDue images w r 2 n) :
      Ahead images w r (.deletingCapp r.automation n) (toLast images 3+4)
  | deletingSecret {n : ℕ} (h : StepDue images w r 2 n) :
      Ahead images w r (.deletingSecret r.automation n) (toLast images 3+3)
  | listing {n : ℕ} (h : StepDue images w r 3 n) :
      Ahead images w r (.listing r.automation n) (toLast images 4+(images+4))
  | deletingImages {n : ℕ} {entry : String} {entries : List String}
      (hrow : checkpointMatches 3 r.automation) (hn : n < 3)
      (hrest : ∀ e ∈ w.listImageEntries r.automation.id, e ∈ entry :: entries) :
      Ahead images w r (.deletingImages r.automation n entry entries)
        (toLast images 4+(entries.length+4))
  | relisting {n : ℕ} (hrow : checkpointMatches 3 r.automation) (hn : n < 3)
      (hnone : w.listImageEntries r.automation.id = []) :
      Ahead images w r (.relisting r.automation n) (toLast images 4+3)
  | archiving {n : ℕ} (h : StepDue images w r 4 n) :
      Ahead images w r (.archiving r.automation n) (toLast images 5+3)
  | saving {k n : ℕ} (hrow : checkpointMatches k r.automation) (hk : 1 ≤ k ∧ k < stepDeleted) (hn : n < k)
      (hlisted : k < stepImagesDeleted → (w.listImageEntries r.automation.id).length = images) :
      Ahead images w r (.saving r.automation n k) (toLast images (k+1)+2)
  | last {n : ℕ} (hrow : checkpointMatches stepDeleted r.automation) (hn : n < stepDeleted) :
      Ahead images w r (.saving r.automation n stepDeleted) 0

section Step

variable {images d k n : ℕ} {w : World} {r : Record} {pc : Runner} {answer : Answer}

theorem nextStep_of_matches {a : Automation} (hk : 1 ≤ k) (h : checkpointMatches k a) : nextStep a = k := by
  obtain ⟨-, hstep⟩ := h
  unfold nextStep
  rw [hstep]
  split
  · next hfirst =>
    rw [Option.getD_none]
    omega
  · rw [Option.getD_some]
    omega

/-- A fresh pass begins the step of the row. -/
theorem StepDue.snapshot (h : StepDue images w r k n) :
    Ahead images w r (snapshot (some r) n) (toLast images k) := by
  have hk : k ≤ 5 := h.step.2
  have hpass := h.pass
  have hn : n ≠ maxIterations := by
    unfold maxIterations stepDeleted
    omega
  have hnext := nextStep_of_matches h.step.1 h.row
  rw [snapshot_deleting hn h.row.1, hnext]
  have hone := h.step.1
  interval_cases k
  · rw [toLast_of_lt (by decide)]
    exact .saving h.row ⟨le_rfl, by decide⟩ hpass fun _ => h.listed (by decide)
  · rw [toLast_of_lt (by decide)]
    exact .deletingCapp h
  · rw [toLast_of_lt (by decide)]
    exact .listing h
  · rw [toLast_of_lt (by decide)]
    exact .archiving h
  · rw [show toLast images 5 = 0 from toLast_stepDeleted images]
    exact .last h.row hpass

/-- A checkpoint that is not the last leads to the next step. -/
theorem checkpointMatches.next (now : Timestamp) (hk : 1 ≤ k ∧ k < stepDeleted)
    (h : checkpointMatches k r.automation) :
    checkpointMatches (k+1) (checkpoint k now r).automation ∧
      (checkpoint k now r).automation.id = r.automation.id := by
  have hsome : (if k+1-1 = 0 then none else some (k+1-1)) = some k := by
    rw [Nat.add_sub_cancel, if_neg (by omega)]
  rw [checkpoint, if_pos h, if_neg (ne_of_lt hk.2)]
  exact ⟨⟨h.1, hsome.symm⟩, rfl⟩

theorem deletingAll_ahead (hrow : checkpointMatches 3 r.automation) (hn : n < 3) (entries : List String)
    (hrest : ∀ e ∈ w.listImageEntries r.automation.id, e ∈ entries) :
    Ahead images w r (deletingAll r.automation n entries) (toLast images 4+(entries.length+3)) := by
  cases entries with
  | nil =>
    have hnone : w.listImageEntries r.automation.id = [] :=
      List.eq_nil_iff_forall_not_mem.mpr fun e he => absurd (hrest e he) List.not_mem_nil
    exact .relisting hrow hn hnone
  | cons entry entries => exact .deletingImages hrow hn hrest

theorem listImageEntries_archive (w : World) (id : UUID) (actor : String) (v : UUID) :
    (w.archive id actor).listImageEntries v = w.listImageEntries v := by
  unfold World.archive
  split
  · rfl
  · rfl

/-- The step lemma: an interaction that succeeds comes one nearer. -/
theorem Ahead.step (h : Ahead images w r pc (d+1)) (hok : answer.outcome = .ok) :
    ∃ w' r' pc', advance answer (⟨some r, w⟩, pc) = (⟨some r', w'⟩, pc') ∧ Ahead images w' r' pc' d := by
  obtain ⟨now, outcome⟩ := answer
  obtain rfl : outcome = .ok := hok
  generalize hd : d+1 = m at h
  cases h with
  | idle h =>
    obtain rfl := Nat.succ.inj hd
    exact ⟨w, r, _, rfl, h.snapshot⟩
  | rereading h =>
    obtain rfl := Nat.succ.inj hd
    exact ⟨w, r, _, rfl, h.snapshot⟩
  | @deletingCapp n h =>
    obtain rfl := Nat.succ.inj hd
    exact ⟨_, r, _, rfl, .deletingSecret ⟨h.row, h.step, h.pass, h.listed⟩⟩
  | @deletingSecret n h =>
    obtain rfl := Nat.succ.inj hd
    exact ⟨_, r, _, rfl, .saving h.row ⟨h.step.1, by decide⟩ h.pass fun _ => h.listed (by decide)⟩
  | @listing n h =>
    obtain rfl := Nat.succ.inj hd
    have hlisted := h.listed le_rfl
    refine ⟨w, r, _, rfl, ?_⟩
    rw [← hlisted]
    exact deletingAll_ahead h.row h.pass _ fun e he => he
  | @deletingImages n entry entries hrow hn hrest =>
    obtain rfl := Nat.succ.inj hd
    refine ⟨_, r, _, rfl, deletingAll_ahead hrow hn entries ?_⟩
    intro e he
    obtain ⟨hold, hne⟩ := mem_listImageEntries_deleteImage he
    exact (List.mem_cons.mp (hrest e hold)).resolve_left hne
  | @relisting n hrow hn hnone =>
    obtain rfl := Nat.succ.inj hd
    refine ⟨w, r, .saving r.automation n stepImagesDeleted, ?_, .saving hrow ⟨by decide, by decide⟩ hn fun hlt =>
      absurd hlt (by decide)⟩
    have hnext : advance ⟨now, .ok⟩ (⟨some r, w⟩, .relisting r.automation n) = (⟨some r, w⟩,
        if w.listImageEntries r.automation.id = [] then .saving r.automation n stepImagesDeleted
        else stopped r.automation "registry_inventory_not_empty") := rfl
    rw [hnext, if_pos hnone]
  | @archiving n h =>
    obtain rfl := Nat.succ.inj hd
    exact ⟨_, r, _, rfl, .saving h.row ⟨h.step.1, by decide⟩ h.pass fun hlt => absurd hlt (by decide)⟩
  | @saving k n hrow hk hn hlisted =>
    obtain rfl := Nat.succ.inj hd
    obtain ⟨hnext, hid⟩ := hrow.next now hk
    refine ⟨w, checkpoint k now r, _, rfl, .rereading ⟨hnext, ⟨by omega, hk.2⟩, by omega, ?_⟩⟩
    intro hle
    rw [hid]
    exact hlisted hle
  | last => simp at hd

variable (answer) in
/-- Until then an interaction that fails ends the attempt, and none hides the end. -/
theorem Ahead.fails (h : Ahead images w r pc (d+1)) :
    ¬Hides answer (⟨some r, w⟩, pc) ∧
      (answer.outcome ≠ .ok → (advance answer (⟨some r, w⟩, pc)).2.finished = true) := by
  generalize hd : d+1 = m at h
  have hended {sh' : Shared} {next stop : Runner} (hstep : advance answer (⟨some r, w⟩, pc) =
      (sh', if answer.outcome = .ok then next else stop)) (hstop : stop.finished = true) :
      answer.outcome ≠ .ok → (advance answer (⟨some r, w⟩, pc)).2.finished = true := by
    intro hne
    rw [hstep]
    simp only [if_neg hne, hstop]
  cases h with
  | idle h =>
    refine ⟨not_hides (by simp) (by simp), fun hne => ?_⟩
    simp [advance, Runner.step, Runner.nextOp, hne, Runner.finished]
  | rereading h =>
    refine ⟨?_, fun hne => ?_⟩
    · rintro (⟨_, _, hpc, -⟩ | ⟨_, r', -, hr', hdeleted, -⟩)
      · simp at hpc
      · obtain rfl := Option.some.inj hr'
        rw [h.row.1] at hdeleted
        simp at hdeleted
    · simp [advance, Runner.step, Runner.nextOp, hne, Runner.finished]
  | @saving k n hrow hk =>
    refine ⟨?_, hended rfl rfl⟩
    rintro (⟨_, _, hpc, -⟩ | ⟨_, _, hpc, -⟩)
    · exact ne_of_lt hk.2 (Runner.saving.inj hpc).2.2
    · simp at hpc
  | last => simp at hd
  | _ => exact ⟨not_hides (by simp) (by simp), hended rfl rfl⟩

/-- At the last checkpoint it is decided whether the attempt hides its end. -/
theorem Ahead.decided (h : Ahead images w r pc 0) (answers : ℕ → Answer) :
    HidesIn answers (⟨some r, w⟩, pc) ↔
      (answers 0).outcome = .lost ∨ (answers 0).outcome = .ok ∧ (answers 1).outcome ≠ .ok := by
  generalize hd : 0 = m at h
  cases h with
  | @last n hrow hn =>
    have hstep : advance (answers 0) (⟨some r, w⟩, .saving r.automation n stepDeleted) =
        (⟨if (answers 0).outcome.effective then some (checkpoint stepDeleted (answers 0).now r) else some r, w⟩,
          if (answers 0).outcome = .ok then .rereading (n+1) else stopped r.automation "checkpoint_failed") := rfl
    have hhides : Hides (answers 0) (⟨some r, w⟩, .saving r.automation n stepDeleted) ↔
        (answers 0).outcome = .lost := by
      constructor
      · rintro (⟨_, _, -, hlost⟩ | ⟨_, _, hpc, -⟩)
        · exact hlost
        · simp at hpc
      · exact fun hlost => Or.inl ⟨_, _, rfl, hlost⟩
    rw [hidesIn_iff, hhides, hstep]
    refine or_congr_right ?_
    cases houtcome : (answers 0).outcome with
    | ok =>
      -- the row is deleted, and the read behind it shows it or fails
      have hdeleted : (checkpoint stepDeleted (answers 0).now r).automation.matchingState = .deleted := by
        rw [checkpoint, if_pos hrow]
        rfl
      have hlt : n+1 ≠ maxIterations := by
        unfold maxIterations
        unfold stepDeleted at hn ⊢
        omega
      rw [if_pos rfl, if_pos (by rfl), and_iff_right rfl, hidesIn_iff]
      constructor
      · rintro ((⟨_, _, hpc, -⟩ | ⟨_, _, -, -, -, hfails⟩) | hlater)
        · simp at hpc
        · exact hfails
        · intro hok
          refine not_hidesIn_of_finished ?_ hlater
          simp [advance, Runner.step, Runner.nextOp, hok, snapshot, dispatch, hlt, hdeleted, Runner.finished]
      · intro hfails
        exact Or.inl (Or.inr ⟨_, _, rfl, rfl, hdeleted, hfails⟩)
    | failed => exact iff_of_false (not_hidesIn_of_finished rfl) (by simp)
    | lost => exact iff_of_false (not_hidesIn_of_finished rfl) (by simp)
  | _ => simp at hd

/-- The run lemma: by induction on the interactions left. -/
theorem Ahead.hidesIn (h : Ahead images w r pc d) (answers : ℕ → Answer) :
    HidesIn answers (⟨some r, w⟩, pc) ↔ (∀ j < d, (answers j).outcome = .ok) ∧
      ((answers d).outcome = .lost ∨ (answers d).outcome = .ok ∧ (answers (d+1)).outcome ≠ .ok) := by
  induction d generalizing w r pc answers with
  | zero =>
    rw [h.decided]
    simp
  | succ d ih =>
    obtain ⟨hquiet, hfails⟩ := h.fails (answers 0)
    rw [hidesIn_iff, or_iff_right hquiet, Nat.forall_lt_succ_left]
    by_cases hok : (answers 0).outcome = .ok
    · obtain ⟨w', r', pc', hstep, hnext⟩ := h.step hok
      rw [hstep, ih hnext, and_iff_right hok]
    · refine iff_of_false (not_hidesIn_of_finished (hfails hok)) ?_
      rintro ⟨⟨hfirst, -⟩, -⟩
      exact hok hfirst

end Step

section Stuck

variable {sh : Shared} {r : Record}

/-- A row whose checkpoint no step can move: the attempt rewrites the first one until
its passes are used up, or has no step for the row at all. -/
structure Stuck (r : Record) : Prop where
  deleting : r.automation.matchingState = .deleting
  unmatched : ∀ k, 1 ≤ k ∧ k ≤ stepDeleted → ¬checkpointMatches k r.automation

/-- Where an attempt on such a row can be. -/
def Runner.Waits (r : Record) (pc : Runner) : Prop :=
  pc = .idle ∨ (∃ n, pc = .rereading n ∨ pc = .saving r.automation n 1) ∨ pc.finished = true

theorem Stuck.snapshot (h : Stuck r) (n : ℕ) : (snapshot (some r) n).Waits r := by
  have hnotDeleted : r.automation.matchingState ≠ .deleted := by simp [h.deleting]
  have hmatches (k : ℕ) (hk : nextStep r.automation = k+2) : checkpointMatches (k+2) r.automation := by
    refine ⟨h.deleting, ?_⟩
    rw [if_neg (by omega)]
    cases hstep : r.automation.deleteCascadeStep with
    | none => simp [nextStep, hstep] at hk
    | some m =>
      rw [nextStep, hstep, Option.getD_some] at hk
      congr 1
      omega
  unfold KeepAutomation.snapshot dispatch
  dsimp only
  rw [if_neg hnotDeleted, if_neg (not_not.mpr h.deleting)]
  split
  · exact Or.inr (Or.inr rfl)
  · split
    · exact Or.inr (Or.inl ⟨n, Or.inr rfl⟩)
    · next hk => exact absurd (hmatches 0 hk) (h.unmatched 2 ⟨by decide, by decide⟩)
    · next hk => exact absurd (hmatches 1 hk) (h.unmatched 3 ⟨by decide, by decide⟩)
    · next hk => exact absurd (hmatches 2 hk) (h.unmatched 4 ⟨by decide, by decide⟩)
    · next hk => exact absurd (hmatches 3 hk) (h.unmatched 5 ⟨by decide, by decide⟩)
    · exact Or.inr (Or.inr rfl)

theorem Stuck.advance (h : Stuck r) (answer : Answer) {pc : Runner} (hr : sh.record = some r)
    (hpc : pc.Waits r) : (KeepAutomation.advance answer (sh, pc)).1.record = some r ∧
      (KeepAutomation.advance answer (sh, pc)).2.Waits r := by
  have hread (n : ℕ) : (if answer.outcome ≠ .ok then Runner.raised .sqlAlchemyError
      else KeepAutomation.snapshot sh.record n).Waits r := by
    split
    · exact Or.inr (Or.inr rfl)
    · rw [hr]
      exact h.snapshot n
  rcases hpc with rfl | ⟨n, rfl | rfl⟩ | hend
  · exact ⟨hr, by simpa [KeepAutomation.advance, Runner.step, Runner.nextOp] using hread 0⟩
  · exact ⟨hr, by simpa [KeepAutomation.advance, Runner.step, Runner.nextOp] using hread n⟩
  · have hsame : checkpoint 1 answer.now r = r := if_neg (h.unmatched 1 ⟨le_rfl, by decide⟩)
    have hstep : KeepAutomation.advance answer (sh, .saving r.automation n 1) =
        ({ sh with record := if answer.outcome.effective then sh.record.map (checkpoint 1 answer.now)
            else sh.record },
          if answer.outcome = .ok then .rereading (n+1) else stopped r.automation "checkpoint_failed") := rfl
    rw [hstep]
    constructor
    · dsimp only
      rw [hr, Option.map_some, hsame, ite_self]
    · dsimp only
      split
      · exact Or.inr (Or.inl ⟨_, Or.inl rfl⟩)
      · exact Or.inr (Or.inr rfl)
  · rw [advance_finished hend]
    exact ⟨hr, Or.inr (Or.inr hend)⟩

theorem Stuck.not_hidesIn (h : Stuck r) (hr : sh.record = some r) (answers : ℕ → Answer) :
    ¬HidesIn answers (sh, .idle) := by
  have hrun (n : ℕ) : (runAlone answers (sh, .idle) n).1.record = some r ∧
      (runAlone answers (sh, .idle) n).2.Waits r := by
    induction n with
    | zero => exact ⟨hr, Or.inl rfl⟩
    | succ n ih => exact h.advance (answers n) ih.1 ih.2
  rintro ⟨k, hk⟩
  obtain ⟨hrow, hwaits⟩ := hrun k
  rcases hk with ⟨a, n, hpc, -⟩ | ⟨n, r', -, hr', hdeleted, -⟩
  · rw [hpc] at hwaits
    rcases hwaits with hidle | ⟨m, hread | hsave⟩ | hend
    · simp at hidle
    · simp at hread
    · exact absurd (Runner.saving.inj hsave).2.2 (by decide)
    · simp [Runner.finished] at hend
  · obtain rfl := Option.eq_some_unique hrow hr'
    rw [h.deleting] at hdeleted
    simp at hdeleted

end Stuck

/-- An attempt on a deleting row hides its end exactly when the interactions up to
the last checkpoint succeed and that or the read behind it raises. -/
theorem hidesIn_idle_iff {sh : Shared} {r : Record} (hr : sh.record = some r)
    (hdeleting : r.automation.matchingState = .deleting) (answers : ℕ → Answer) :
    HidesIn answers (sh, .idle) ↔ ∃ first, checkpointMatches first r.automation ∧
      (1 ≤ first ∧ first ≤ stepDeleted) ∧
        HidesEnd answers (sh.world.listImageEntries r.automation.id).length first := by
  have hfrom {k : ℕ} (hrow : checkpointMatches k r.automation) (hk : 1 ≤ k ∧ k ≤ stepDeleted) :
      HidesIn answers (sh, .idle) ↔
        HidesEnd answers (sh.world.listImageEntries r.automation.id).length k := by
    obtain ⟨record, w⟩ := sh
    obtain rfl : record = some r := hr
    exact (Ahead.idle ⟨hrow, hk, hk.1, fun _ => rfl⟩).hidesIn answers
  constructor
  · intro hhides
    by_cases hstuck : ∃ k, checkpointMatches k r.automation ∧ (1 ≤ k ∧ k ≤ stepDeleted)
    · obtain ⟨k, hrow, hk⟩ := hstuck
      exact ⟨k, hrow, hk, (hfrom hrow hk).mp hhides⟩
    · have hunmatched : Stuck r := ⟨hdeleting, fun k hk hrow => hstuck ⟨k, hrow, hk⟩⟩
      exact absurd hhides (hunmatched.not_hidesIn hr answers)
  · rintro ⟨k, hrow, hk, hends⟩
    exact (hfrom hrow hk).mpr hends

end KeepAutomation
