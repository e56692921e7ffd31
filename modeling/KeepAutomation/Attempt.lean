import KeepAutomation.Moves
import Mathlib.Logic.Function.Iterate

/-! One cascade attempt with no other actor: `run_cascade` from its call to its
return. The environment answers each of its interactions in turn. -/
namespace KeepAutomation

/-- When an interaction happens and how it ends; a read fails unless it is `ok`. -/
structure Answer where
  now : Timestamp
  outcome : CallOutcome

def Runner.nextOp (outcome : CallOutcome) : Runner → RunnerOp
  | .idle | .rereading _ => .snapshot (outcome ≠ .ok)
  | .saving _ _ _ => .save outcome
  | _ => .call outcome

/-- The call has returned or raised, or its process has died. -/
def Runner.finished : Runner → Bool
  | .returned _ | .raised _ | .crashed => true
  | _ => false

def advance (answer : Answer) (x : Shared × Runner) : Shared × Runner :=
  (x.2.step answer.now x.1 (x.2.nextOp answer.outcome)).getD x

def runAlone (answers : ℕ → Answer) (x : Shared × Runner) : ℕ → Shared × Runner
  | 0 => x
  | n+1 => advance (answers n) (runAlone answers x n)

/-- More steps than any attempt takes: no pass deletes more images than there are. -/
def attemptBound (w : World) : ℕ := maxIterations*(w.images.length+5)+2

def runCascade (answers : ℕ → Answer) (sh : Shared) : Shared × Runner :=
  runAlone answers (sh, .idle) (attemptBound sh.world)

/-- The steps left after pass `n`, when no listing has more than `b` entries. -/
def stepsAfter (b n : ℕ) : ℕ := (maxIterations-(n+1))*(b+5)+1

/-- The most steps a runner can still take. -/
def Runner.remaining (b : ℕ) : Runner → ℕ
  | .idle => maxIterations*(b+5)+1
  | .rereading n => (maxIterations-n)*(b+5)+1
  | .deletingCapp _ n => stepsAfter b n+3
  | .deletingSecret _ n => stepsAfter b n+2
  | .listing _ n => stepsAfter b n+(b+3)
  | .deletingImages _ n _ entries => stepsAfter b n+(entries.length+3)
  | .relisting _ n => stepsAfter b n+2
  | .archiving _ n => stepsAfter b n+2
  | .saving _ n _ => stepsAfter b n+1
  | .returned _ | .raised _ | .crashed => 0

/-- The pass count stays within the loop. -/
def Runner.InLoop : Runner → Prop
  | .rereading n => n ≤ maxIterations
  | .deletingCapp _ n | .deletingSecret _ n | .listing _ n | .deletingImages _ n _ _
  | .relisting _ n | .archiving _ n | .saving _ n _ => n < maxIterations
  | _ => True

theorem stopped_remaining (a : Automation) (code : String) (b : ℕ) :
    (stopped a code).remaining b = 0 := rfl

theorem deletingAll_remaining {n : ℕ} (a : Automation) (b : ℕ) (entries : List String)
    (hn : n < maxIterations) : (deletingAll a n entries).InLoop ∧
      (deletingAll a n entries).remaining b = stepsAfter b n+(entries.length+2) := by
  cases entries with
  | nil => exact ⟨hn, rfl⟩
  | cons entry entries => exact ⟨hn, rfl⟩

/-- A fresh pass fits into the steps that were left before it. -/
theorem snapshot_remaining (record : Option Record) {b n : ℕ} (hn : n ≤ maxIterations) :
    (snapshot record n).InLoop ∧
      (snapshot record n).remaining b < (maxIterations-n)*(b+5)+1 := by
  cases record with
  | none => exact ⟨trivial, Nat.succ_pos _⟩
  | some r =>
    simp only [snapshot, dispatch]
    split
    · exact ⟨trivial, Nat.succ_pos _⟩
    next hne =>
      have hlt : n < maxIterations := lt_of_le_of_ne hn hne
      have hleft : (maxIterations-n)*(b+5)+1 = stepsAfter b n+(b+5) := by
        have hsub : maxIterations-n = (maxIterations-(n+1))+1 := by omega
        rw [stepsAfter, hsub, Nat.succ_mul]
        omega
      rw [hleft]
      split
      · exact ⟨trivial, by simp only [Runner.remaining]; omega⟩
      split
      · exact ⟨trivial, by simp only [Runner.remaining]; omega⟩
      split
      case h_6 => exact ⟨trivial, by simp only [Runner.remaining]; omega⟩
      all_goals exact ⟨hlt, by simp only [Runner.remaining]; omega⟩

theorem World.listImageEntries_length (w : World) (id : UUID) :
    (w.listImageEntries id).length ≤ w.images.length := by
  rw [World.listImageEntries, List.length_map]
  exact List.length_filter_le _ _

/-- What is still listed is not the entry just deleted. -/
theorem mem_listImageEntries_deleteImage {w : World} {id : UUID} {entry e : String}
    (h : e ∈ (w.deleteImage id entry).listImageEntries id) : e ∈ w.listImageEntries id ∧ e ≠ entry := by
  obtain ⟨i, hi, rfl⟩ := List.mem_map.mp h
  obtain ⟨hi, hid⟩ := List.mem_filter.mp hi
  obtain ⟨hi, hne⟩ := List.mem_filter.mp hi
  refine ⟨List.mem_map_of_mem (List.mem_filter.mpr ⟨hi, hid⟩), ?_⟩
  intro hentry
  exact of_decide_eq_true hne (Prod.ext (of_decide_eq_true hid) hentry)

/-- The step that a fresh pass begins on a deleting row. -/
theorem snapshot_deleting {r : Record} {n : ℕ} (hn : n ≠ maxIterations)
    (hdel : r.automation.matchingState = .deleting) :
    snapshot (some r) n = match nextStep r.automation with
      | 1 => .saving r.automation n stepMarkedDeleting
      | 2 => .deletingCapp r.automation n
      | 3 => .listing r.automation n
      | 4 => .archiving r.automation n
      | 5 => .saving r.automation n stepDeleted
      | _ => .raised .keyError := by
  have hnotDeleted : r.automation.matchingState ≠ .deleted := by simp [hdel]
  have hsnapshot : snapshot (some r) n = dispatch r.automation n := rfl
  rw [dispatch, if_neg hn, if_neg hnotDeleted, if_neg (not_not.mpr hdel)] at hsnapshot
  exact hsnapshot

/-- No call adds an image. -/
theorem Runner.call_images {pc next stop : Runner} {w world : World}
    (h : pc.call w = some (world, next, stop)) : world.images.length ≤ w.images.length := by
  cases pc <;> simp only [Runner.call, Option.some.injEq, Prod.mk.injEq, reduceCtorEq] at h <;>
    obtain ⟨rfl, -, -⟩ := h
  case deletingImages a n entry entries => exact List.length_filter_le _ _
  case archiving a n =>
    unfold World.archive
    split
    · exact le_rfl
    · exact le_rfl
  all_goals exact le_rfl

/-- A clean answer brings the runner nearer to its end, and a failed one ends it. -/
theorem Runner.call_remaining {pc next stop : Runner} {w world : World} {b : ℕ}
    (h : pc.call w = some (world, next, stop)) (hloop : pc.InLoop) (hb : w.images.length ≤ b) :
    next.InLoop ∧ next.remaining b < pc.remaining b ∧ stop.InLoop ∧ stop.remaining b = 0 := by
  cases pc <;> simp only [Runner.call, Option.some.injEq, Prod.mk.injEq, reduceCtorEq] at h <;>
    obtain ⟨-, rfl, rfl⟩ := h
  case deletingCapp a n =>
    exact ⟨hloop, by simp only [Runner.remaining]; omega, trivial, rfl⟩
  case deletingSecret a n =>
    exact ⟨hloop, by simp only [Runner.remaining]; omega, trivial, rfl⟩
  case listing a n =>
    have hlength := (w.listImageEntries_length a.id).trans hb
    obtain ⟨hin, hremaining⟩ := deletingAll_remaining a b (w.listImageEntries a.id) hloop
    refine ⟨hin, ?_, trivial, rfl⟩
    rw [hremaining]
    simp only [Runner.remaining]
    omega
  case deletingImages a n entry entries =>
    obtain ⟨hin, hremaining⟩ := deletingAll_remaining a b entries hloop
    refine ⟨hin, ?_, trivial, rfl⟩
    rw [hremaining]
    simp only [Runner.remaining]
    omega
  case relisting a n =>
    refine ⟨?_, ?_, trivial, rfl⟩
    · split
      · exact hloop
      · exact trivial
    · split
      · simp only [Runner.remaining]
        omega
      · rw [stopped_remaining]
        simp only [Runner.remaining]
        omega
  case archiving a n =>
    exact ⟨hloop, by simp only [Runner.remaining]; omega, trivial, rfl⟩

/-- The step lemma of an attempt: it ends, or comes nearer to its end. -/
theorem advance_remaining (answer : Answer) {x : Shared × Runner} {b : ℕ}
    (hloop : x.2.InLoop) (hb : x.1.world.images.length ≤ b) (hrun : x.2.finished = false) :
    (advance answer x).2.InLoop ∧ (advance answer x).1.world.images.length ≤ b ∧
      (advance answer x).2.remaining b < x.2.remaining b := by
  obtain ⟨sh, pc⟩ := x
  have hcall : ∀ {world next stop}, pc.call sh.world = some (world, next, stop) →
      pc.nextOp answer.outcome = .call answer.outcome →
      (advance answer (sh, pc)).2.InLoop ∧ (advance answer (sh, pc)).1.world.images.length ≤ b ∧
        (advance answer (sh, pc)).2.remaining b < pc.remaining b := by
    intro world next stop h hop
    obtain ⟨hnext, hlt, hstop, hzero⟩ := Runner.call_remaining h hloop hb
    have hstep : advance answer (sh, pc) =
        ({ sh with world := if answer.outcome.effective then world else sh.world },
          if answer.outcome = .ok then next else stop) := by
      simp only [advance, hop, Runner.step_call, h, Option.map_some, Option.getD_some]
    rw [hstep]
    refine ⟨?_, ?_, ?_⟩
    · dsimp only
      split
      · exact hnext
      · exact hstop
    · dsimp only
      split
      · exact (Runner.call_images h).trans hb
      · exact hb
    · dsimp only
      split
      · exact hlt
      · omega
  have hread : ∀ n, n ≤ maxIterations → pc.remaining b = (maxIterations-n)*(b+5)+1 →
      advance answer (sh, pc) = (sh, if answer.outcome ≠ .ok then .raised .sqlAlchemyError
        else snapshot sh.record n) →
      (advance answer (sh, pc)).2.InLoop ∧ (advance answer (sh, pc)).1.world.images.length ≤ b ∧
        (advance answer (sh, pc)).2.remaining b < pc.remaining b := by
    intro n hn hremaining hstep
    obtain ⟨hin, hlt⟩ := snapshot_remaining sh.record (b := b) hn
    rw [hstep, hremaining]
    refine ⟨?_, hb, ?_⟩
    · dsimp only
      split
      · exact trivial
      · exact hin
    · dsimp only
      split
      · exact Nat.succ_pos _
      · exact hlt
  cases pc with
  | idle => exact hread 0 (Nat.zero_le _) rfl (by simp [advance, Runner.step, Runner.nextOp])
  | rereading n => exact hread n hloop rfl (by simp [advance, Runner.step, Runner.nextOp])
  | saving a n completed =>
    have hn : n < maxIterations := hloop
    refine ⟨?_, hb, ?_⟩
    · simp only [advance, Runner.step, Runner.nextOp, Option.getD_some]
      split
      · exact hn
      · exact trivial
    · simp only [advance, Runner.step, Runner.nextOp, Option.getD_some]
      split
      · simp only [Runner.remaining, stepsAfter]
        omega
      · rw [stopped_remaining]
        exact Nat.succ_pos _
  | returned result => simp [Runner.finished] at hrun
  | raised error => simp [Runner.finished] at hrun
  | crashed => simp [Runner.finished] at hrun
  | _ => exact hcall rfl rfl

theorem advance_finished {answer : Answer} {x : Shared × Runner} (h : x.2.finished = true) :
    advance answer x = x := by
  obtain ⟨sh, pc⟩ := x
  cases pc <;> simp [Runner.finished] at h <;> rfl

/-- The run lemma: an attempt that has not ended after `n` steps has used `n` of
those it had left. -/
theorem runAlone_remaining (answers : ℕ → Answer) {x : Shared × Runner} {b : ℕ}
    (hloop : x.2.InLoop) (hb : x.1.world.images.length ≤ b) (n : ℕ) :
    (runAlone answers x n).2.InLoop ∧ (runAlone answers x n).1.world.images.length ≤ b ∧
      ((runAlone answers x n).2.finished = true ∨
        (runAlone answers x n).2.remaining b+n ≤ x.2.remaining b) := by
  induction n with
  | zero => exact ⟨hloop, hb, Or.inr le_rfl⟩
  | succ n ih =>
    obtain ⟨hin, himages, hleft⟩ := ih
    cases hdone : (runAlone answers x n).2.finished with
    | true =>
      rw [runAlone, advance_finished hdone]
      exact ⟨hin, himages, Or.inl hdone⟩
    | false =>
      obtain ⟨hin', himages', hlt⟩ := advance_remaining (answers n) hin himages hdone
      rw [hdone] at hleft
      refine ⟨hin', himages', Or.inr ?_⟩
      rcases hleft with habsurd | hleft
      · simp at habsurd
      · rw [runAlone]
        omega

/-- Every attempt ends, whatever answers it meets. -/
theorem runCascade_finished (answers : ℕ → Answer) (sh : Shared) :
    (runCascade answers sh).2.finished = true := by
  have hidle : Runner.idle.InLoop := trivial
  obtain ⟨-, -, hdone | hleft⟩ :=
    runAlone_remaining answers (x := (sh, .idle)) hidle le_rfl (attemptBound sh.world)
  · exact hdone
  · simp only [Runner.remaining, attemptBound] at hleft
    omega

/-- An attempt without failures. -/
def cleanAnswers (now : Timestamp) : ℕ → Answer := fun _ => ⟨now, .ok⟩

/-- `y` comes after `x` in an attempt without failures. -/
def Leads (now : Timestamp) (x y : Shared × Runner) : Prop := ∃ n, (advance ⟨now, .ok⟩)^[n] x = y

theorem Leads.trans {now : Timestamp} {x y z : Shared × Runner} (h₁ : Leads now x y)
    (h₂ : Leads now y z) : Leads now x z := by
  obtain ⟨n, rfl⟩ := h₁
  obtain ⟨m, rfl⟩ := h₂
  exact ⟨m+n, Function.iterate_add_apply _ m n x⟩

theorem Leads.step {now : Timestamp} {x y z : Shared × Runner} (h : advance ⟨now, .ok⟩ x = y)
    (h₂ : Leads now y z) : Leads now x z := Leads.trans ⟨1, h⟩ h₂

theorem runAlone_clean (now : Timestamp) (x : Shared × Runner) (n : ℕ) :
    runAlone (cleanAnswers now) x n = (advance ⟨now, .ok⟩)^[n] x := by
  induction n with
  | zero => rfl
  | succ n ih => rw [runAlone, ih, Function.iterate_succ_apply', cleanAnswers]

theorem iterate_finished {answer : Answer} {x : Shared × Runner} (h : x.2.finished = true) (n : ℕ) :
    (advance answer)^[n] x = x := Function.iterate_fixed (advance_finished h) n

/-- Where a clean attempt leads is what it returns. -/
theorem runCascade_of_leads {now : Timestamp} {sh : Shared} {y : Shared × Runner}
    (h : Leads now (sh, .idle) y) (hy : y.2.finished = true) :
    runCascade (cleanAnswers now) sh = y := by
  obtain ⟨n, hn⟩ := h
  have hend := runCascade_finished (cleanAnswers now) sh
  rw [runCascade, runAlone_clean] at hend ⊢
  -- both are where the attempt has come to rest
  have hboth : (advance ⟨now, .ok⟩)^[n] ((advance ⟨now, .ok⟩)^[attemptBound sh.world] (sh, .idle)) =
      (advance ⟨now, .ok⟩)^[attemptBound sh.world] ((advance ⟨now, .ok⟩)^[n] (sh, .idle)) := by
    rw [← Function.iterate_add_apply, ← Function.iterate_add_apply, Nat.add_comm]
  rw [iterate_finished hend, hn, iterate_finished hy] at hboth
  exact hboth

end KeepAutomation
