import Mathlib.Logic.Relation
import Mathlib.Data.List.Basic
import Mathlib.Tactic

/-! Labelled transition systems whose labels resolve every choice, so that one
step is a partial function. A run records its transitions, newest first; a
property of the past is then a property of that list. -/
namespace TransitionSystem

variable {σ α : Type*}

structure Transition (σ α : Type*) where
  pre : σ
  act : α
  post : σ

abbrev Trace (σ α : Type*) := List (Transition σ α)

/-- Runs of `step` from `s₀` in which every step meets the environment
assumption `E`, which may depend on the state before the step. -/
inductive Run (step : σ → α → Option σ) (E : σ → α → Prop) (s₀ : σ) : Trace σ α → σ → Prop
  | nil : Run step E s₀ [] s₀
  | snoc {tr : Trace σ α} {s s' : σ} {a : α} : Run step E s₀ tr s → E s a →
      step s a = some s' → Run step E s₀ (⟨s, a, s'⟩ :: tr) s'

variable {step : σ → α → Option σ} {E E' : σ → α → Prop} {s₀ s s' s₁ : σ}
  {tr tr₁ : Trace σ α}

/-- Execute a list of labels, stopping at the first one that is not enabled. -/
def exec (step : σ → α → Option σ) : σ → List α → Option σ
  | s, [] => some s
  | s, a :: as => (step s a).bind fun s' => exec step s' as

/-- The transitions `exec` takes, newest first. -/
def execTrace (step : σ → α → Option σ) : σ → List α → Trace σ α
  | _, [] => []
  | s, a :: as =>
    match step s a with
    | some s' => execTrace step s' as ++ [⟨s, a, s'⟩]
    | none => []

/-- Every label of the list meets a decidable assumption where it is executed. -/
def execMeets (step : σ → α → Option σ) (check : σ → α → Bool) : σ → List α → Bool
  | _, [] => true
  | s, a :: as =>
    check s a && match step s a with
      | some s' => execMeets step check s' as
      | none => true

/-- What a component does on its own the whole system can do, where the steps of
the component, set in a whole that meets `I`, are steps of the whole. -/
theorem exec_component {τ β : Type*} {whole : τ → β → Option τ} {label : α → β} (get : τ → σ)
    (put : τ → σ → τ) (I : τ → Prop) (hget : ∀ t s, get (put t s) = s) (hself : ∀ t, put t (get t) = t)
    (hput : ∀ t s s', put (put t s) s' = put t s') (hI : ∀ t s, I t → I (put t s))
    (hstep : ∀ t a s', I t → step (get t) a = some s' → whole t (label a) = some (put t s'))
    {t : τ} {as : List α} (ht : I t) (h : exec step (get t) as = some s') :
    exec whole t (as.map label) = some (put t s') := by
  induction as generalizing t with
  | nil =>
    obtain rfl := Option.some.inj h
    rw [List.map_nil, exec, hself]
  | cons a as ih =>
    obtain ⟨s₁, hs, hrest⟩ := Option.bind_eq_some_iff.mp h
    rw [List.map_cons, exec, hstep t a s₁ ht hs, Option.bind_some, ih (hI t s₁ ht) (by rw [hget]; exact hrest), hput]

namespace Run

theorem mono (hE : ∀ s a, E s a → E' s a) (h : Run step E s₀ tr s) : Run step E' s₀ tr s := by
  induction h with
  | nil => exact .nil
  | snoc _ ha hs ih => exact .snoc ih (hE _ _ ha) hs

theorem append (h₁ : Run step E s₀ tr s₁) (h : Run step E s₁ tr₁ s) :
    Run step E s₀ (tr₁ ++ tr) s := by
  induction h with
  | nil => exact h₁
  | snoc _ ha hs ih => exact .snoc ih ha hs

/-- An inductive invariant holds at the end of every run. -/
theorem invariant {I : σ → Prop} (h : Run step E s₀ tr s) (h₀ : I s₀)
    (hstep : ∀ s a s', I s → E s a → step s a = some s' → I s') : I s := by
  induction h with
  | nil => exact h₀
  | snoc _ ha hs ih => exact hstep _ _ _ ih ha hs

/-- An invariant that also speaks about the transitions taken so far. The step
case may use that the state before it was itself reached by a run. -/
theorem history {P : Trace σ α → σ → Prop} (h : Run step E s₀ tr s) (h₀ : P [] s₀)
    (hstep : ∀ tr s a s', Run step E s₀ tr s → P tr s → E s a → step s a = some s' →
      P (⟨s, a, s'⟩ :: tr) s') : P tr s := by
  induction h with
  | nil => exact h₀
  | snoc hr ha hs ih => exact hstep _ _ _ _ hr ih ha hs

/-- A measure that never falls, and rises at each counted transition, bounds the
number of these. -/
theorem countP_le (μ : σ → ℕ) (counted : Transition σ α → Bool) (h : Run step E s₀ tr s)
    (hstep : ∀ tr s a s', Run step E s₀ tr s → E s a → step s a = some s' →
      μ s + (if counted ⟨s, a, s'⟩ then 1 else 0) ≤ μ s') : μ s₀ + tr.countP counted ≤ μ s := by
  induction h with
  | nil => simp
  | @snoc tr s s' a hr ha hs ih =>
    have hlast := hstep tr s a s' hr ha hs
    rw [List.countP_cons]
    omega

/-- Every transition of a run is a step that met the assumption, from a state
that a part of the run had reached. -/
theorem transition (h : Run step E s₀ tr s) {t : Transition σ α} (ht : t ∈ tr) :
    E t.pre t.act ∧ step t.pre t.act = some t.post ∧ ∃ tr', Run step E s₀ tr' t.pre := by
  induction h with
  | nil => simp at ht
  | @snoc tr s s' a hr ha hs ih =>
    rcases List.mem_cons.mp ht with rfl | ht
    · exact ⟨ha, hs, tr, hr⟩
    · exact ih ht

/-- A run is cut at any of its transitions. -/
theorem split {t : Transition σ α} {later earlier : Trace σ α}
    (h : Run step E s₀ (later ++ t :: earlier) s) :
    Run step E s₀ earlier t.pre ∧ Run step E t.post later s := by
  induction later generalizing s with
  | nil =>
    rw [List.nil_append] at h
    cases h with
    | snoc hr _ _ => exact ⟨hr, .nil⟩
  | cons t' later ih =>
    rw [List.cons_append] at h
    cases h with
    | snoc hr ha hs =>
      obtain ⟨h₁, h₂⟩ := ih hr
      exact ⟨h₁, .snoc h₂ ha hs⟩

theorem ofExec (check : σ → α → Bool) (hc : ∀ s a, check s a = true → E s a) (as : List α)
    (hm : execMeets step check s as = true) (he : exec step s as = some s') :
    Run step E s (execTrace step s as) s' := by
  induction as generalizing s with
  | nil =>
    simp only [exec, Option.some.injEq] at he
    subst he
    exact .nil
  | cons a as ih =>
    simp only [exec, Option.bind_eq_some_iff] at he
    obtain ⟨s₁, hs, he⟩ := he
    simp only [execMeets, hs, Bool.and_eq_true] at hm
    simp only [execTrace, hs]
    exact (Run.snoc .nil (hc _ _ hm.1) hs).append (ih hm.2 he)

/-- An executed list of labels is a run if nothing is assumed of them, and its end
can be looked at. -/
theorem exists_of_exec (hE : ∀ s a, E s a) (as : List α) (P : σ → Prop) [DecidablePred P]
    (hp : (exec step s as).any (fun s' => decide (P s')) = true) :
    ∃ s', Run step E s (execTrace step s as) s' ∧ P s' := by
  have hmeets (as : List α) (s : σ) : execMeets step (fun _ _ => true) s as = true := by
    induction as generalizing s with
    | nil => rfl
    | cons a as ih =>
      rw [execMeets, Bool.true_and]
      cases step s a with
      | none => rfl
      | some s₁ => exact ih s₁
  obtain ⟨s', he, hs'⟩ := (Option.any_eq_true _ _).mp hp
  exact ⟨s', ofExec (fun _ _ => true) (fun s a _ => hE s a) as (hmeets as s) he, of_decide_eq_true hs'⟩

end Run

end TransitionSystem
