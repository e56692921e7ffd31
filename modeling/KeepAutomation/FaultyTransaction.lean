import Mathlib.Tactic

/-! One transaction over any store, with every point at which it may raise. A
failure before or at the commit leaves the store as it was; one after the commit
is raised to the caller over a store that has changed. -/
namespace FaultyTransaction

variable {σ ε α : Type*}

inductive Point where
  | lock | statement | commit | refresh
  deriving DecidableEq, Repr

structure Fault (ε : Type*) where
  point : Point
  error : ε
  deriving DecidableEq

/-- What a transaction decides on the rows it has locked. -/
inductive Plan (σ ε α : Type*) where
  | refuse (error : ε)
  | read (answer : α)
  | write (store : σ) (answer : α)

structure Outcome (σ ε α : Type*) where
  result : Except ε α
  store : σ
  committed : Bool

/-- Run a transaction. Only a write reaches the statements, the commit and the
refresh behind it. -/
def run (fault : Option (Fault ε)) (plan : σ → Plan σ ε α) (store : σ) : Outcome σ ε α :=
  match fault with
  | none =>
    match plan store with
    | .refuse e => ⟨.error e, store, false⟩
    | .read a => ⟨.ok a, store, false⟩
    | .write store' a => ⟨.ok a, store', true⟩
  | some f =>
    -- the lock is taken before anything is decided
    if f.point = .lock then ⟨.error f.error, store, false⟩
    else
      match plan store with
      | .refuse e => ⟨.error e, store, false⟩
      | .read a => ⟨.ok a, store, false⟩
      | .write store' _ =>
        -- behind the commit nothing can be taken back
        if f.point = .refresh then ⟨.error f.error, store', true⟩ else ⟨.error f.error, store, false⟩

/-- What a plan leaves if nothing raises. -/
def Plan.after (store : σ) : Plan σ ε α → σ
  | .write store' _ => store'
  | _ => store

/-- The transaction commits and its refresh raises. -/
def Torn (fault : Option (Fault ε)) (plan : σ → Plan σ ε α) (store : σ) : Prop :=
  (∃ f ∈ fault, f.point = .refresh) ∧ ∃ store' a, plan store = .write store' a

variable {fault : Option (Fault ε)} {plan : σ → Plan σ ε α} {store : σ}

/-- What a transaction can do. -/
theorem run_cases (fault : Option (Fault ε)) (plan : σ → Plan σ ε α) (store : σ) :
    (∃ e, run fault plan store = ⟨.error e, store, false⟩) ∨
    (∃ a, plan store = .read a ∧ run fault plan store = ⟨.ok a, store, false⟩) ∨
    ∃ store' a, plan store = .write store' a ∧
      (run fault plan store = ⟨.ok a, store', true⟩ ∧ fault = none ∨
        ∃ f ∈ fault, f.point = .refresh ∧ run fault plan store = ⟨.error f.error, store', true⟩) := by
  cases fault with
  | none =>
    cases hplan : plan store with
    | refuse e => exact Or.inl ⟨e, by simp [run, hplan]⟩
    | read a => exact Or.inr (Or.inl ⟨a, rfl, by simp [run, hplan]⟩)
    | write store' a => exact Or.inr (Or.inr ⟨store', a, rfl, Or.inl ⟨by simp [run, hplan], rfl⟩⟩)
  | some f =>
    by_cases hlock : f.point = .lock
    · exact Or.inl ⟨f.error, by simp [run, hlock]⟩
    · cases hplan : plan store with
      | refuse e => exact Or.inl ⟨e, by simp [run, hplan, hlock]⟩
      | read a => exact Or.inr (Or.inl ⟨a, rfl, by simp [run, hplan, hlock]⟩)
      | write store' a =>
        by_cases hrefresh : f.point = .refresh
        · exact Or.inr (Or.inr ⟨store', a, rfl,
            Or.inr ⟨f, rfl, hrefresh, by simp [run, hplan, hrefresh]⟩⟩)
        · exact Or.inl ⟨f.error, by simp [run, hplan, hlock, hrefresh]⟩

theorem run_none_store (plan : σ → Plan σ ε α) (store : σ) :
    (run none plan store).store = (plan store).after store := by
  cases hplan : plan store <;> simp [run, hplan, Plan.after]

/-- A torn transaction raises over what it has written. -/
theorem run_torn (h : Torn fault plan store) : ∃ e store' a, plan store = .write store' a ∧
    run fault plan store = ⟨.error e, store', true⟩ := by
  obtain ⟨⟨f, hf, hrefresh⟩, store', a, hplan⟩ := h
  obtain rfl := Option.mem_def.mp hf
  exact ⟨f.error, store', a, hplan, by simp [run, hplan, hrefresh]⟩

/-- A raised transaction that is not torn has changed nothing. -/
theorem run_error (hwhole : ¬ Torn fault plan store) {e : ε}
    (h : (run fault plan store).result = .error e) :
    (run fault plan store).store = store ∧ (run fault plan store).committed = false := by
  rcases run_cases fault plan store with ⟨e', hrun⟩ | ⟨a, hplan, hrun⟩ |
    ⟨store', a, hplan, ⟨hrun, -⟩ | ⟨f, hf, hrefresh, hrun⟩⟩
  · rw [hrun]
    exact ⟨rfl, rfl⟩
  · simp [hrun] at h
  · simp [hrun] at h
  · exact absurd ⟨⟨f, hf, hrefresh⟩, store', a, hplan⟩ hwhole

/-- A transaction returns what it decided, and has committed what it wrote. -/
theorem run_ok {a : α} (h : (run fault plan store).result = .ok a) :
    (plan store = .read a ∧ run fault plan store = ⟨.ok a, store, false⟩) ∨
      ∃ store', plan store = .write store' a ∧ run fault plan store = ⟨.ok a, store', true⟩ := by
  rcases run_cases fault plan store with ⟨e, hrun⟩ | ⟨b, hplan, hrun⟩ |
    ⟨store', b, hplan, ⟨hrun, -⟩ | ⟨f, -, -, hrun⟩⟩
  · simp [hrun] at h
  · obtain rfl : b = a := by simpa [hrun] using h
    exact Or.inl ⟨hplan, hrun⟩
  · obtain rfl : b = a := by simpa [hrun] using h
    exact Or.inr ⟨store', hplan, hrun⟩
  · simp [hrun] at h

end FaultyTransaction
