import KeepAutomation.TransitionSystem
import Mathlib.Data.Multiset.AddSub
import Mathlib.Data.Multiset.Filter

/-! Messages that a call sends after its commit. A transition of the base system
queues what it announces; each message is sent or lost later, while the base
system goes on and other calls commit. -/
namespace Outbox

open TransitionSystem

variable {σ α β γ : Type*}

/-- `tails` holds what each commit still has to send, `sent` and `lost` what has
become of the rest, newest first. -/
structure State (σ β : Type*) where
  base : σ
  tails : List (List β)
  sent : List β
  lost : List β

inductive Label (α : Type*) where
  | commit (a : α)
  | publish (i : ℕ) (delivered : Bool)
  | crash (i : ℕ)

/-- The next message of a tail goes out, or fails and is not tried again. -/
def State.publish (s : State σ β) (i : ℕ) (delivered : Bool) : Option (State σ β) :=
  match s.tails[i]? with
  | some (m :: ms) =>
    some (if delivered then { s with tails := s.tails.set i ms, sent := m :: s.sent }
      else { s with tails := s.tails.set i ms, lost := m :: s.lost })
  | _ => none

/-- The call ends before it has sent the rest. -/
def State.crash (s : State σ β) (i : ℕ) : Option (State σ β) :=
  match s.tails[i]? with
  | some ms => some { s with tails := s.tails.set i [], lost := ms ++ s.lost }
  | none => none

variable (step : σ → α → Option σ) (emit : σ → α → List β)

def outboxStep (s : State σ β) : Label α → Option (State σ β)
  | .commit a =>
    (step s.base a).map fun b => { s with base := b, tails := s.tails ++ [emit s.base a] }
  | .publish i delivered => s.publish i delivered
  | .crash i => s.crash i

/-- Nothing announced yet. -/
def start (base : σ) : State σ β where
  base := base
  tails := []
  sent := []
  lost := []

/-- What a transition announces. -/
def announced (t : Transition (State σ β) (Label α)) : List β :=
  match t.act with
  | .commit a => emit t.pre.base a
  | _ => []

/-- The part of a run that the base system has taken. -/
def baseTransition (t : Transition (State σ β) (Label α)) : Option (Transition σ α) :=
  match t.act with
  | .commit a => some ⟨t.pre.base, a, t.post.base⟩
  | _ => none

def baseTrace (tr : Trace (State σ β) (Label α)) : Trace σ α := tr.filterMap baseTransition

/-- Still to be sent. -/
def State.pending (s : State σ β) : Multiset β := (s.tails.flatten : Multiset β)

/-- Every message there is, whatever has become of it. -/
def State.all (s : State σ β) : Multiset β := s.pending + (s.sent : Multiset β) + (s.lost : Multiset β)

variable {step} {emit} {E : State σ β → Label α → Prop} {s₀ s s' : State σ β}
  {tr : Trace (State σ β) (Label α)}

/-- Emptying a tail takes its messages out of the pending ones, and no others. -/
theorem pending_set {i : ℕ} {ms : List β} (h : s.tails[i]? = some ms) (rest : List β) :
    ((s.tails.set i rest).flatten : Multiset β) + (ms : Multiset β) = s.pending + (rest : Multiset β) := by
  obtain ⟨hi, hget⟩ := List.getElem?_eq_some_iff.mp h
  have hsplit : s.tails = s.tails.take i ++ ms :: s.tails.drop (i+1) := by
    rw [← hget, List.getElem_cons_drop, List.take_append_drop]
  have hset : s.tails.set i rest = s.tails.take i ++ rest :: s.tails.drop (i+1) :=
    List.set_eq_take_append_cons_drop.trans (if_pos hi)
  have hpending : s.pending =
      ((s.tails.take i).flatten : Multiset β) + (ms : Multiset β) + ((s.tails.drop (i+1)).flatten : Multiset β) := by
    unfold State.pending
    conv_lhs => rw [hsplit]
    rw [List.flatten_append, List.flatten_cons, ← Multiset.coe_add, ← Multiset.coe_add, add_assoc]
  have hafter : ((s.tails.set i rest).flatten : Multiset β) =
      ((s.tails.take i).flatten : Multiset β) + (rest : Multiset β) + ((s.tails.drop (i+1)).flatten : Multiset β) := by
    rw [hset, List.flatten_append, List.flatten_cons, ← Multiset.coe_add, ← Multiset.coe_add, add_assoc]
  rw [hpending, hafter]
  abel

/-- Every move of the outbox: a commit, a message sent or lost, a crash. -/
theorem outboxStep_cases {l : Label α} (h : outboxStep step emit s l = some s') :
    (∃ a b, l = .commit a ∧ step s.base a = some b ∧
      s' = { s with base := b, tails := s.tails ++ [emit s.base a] }) ∨
    (∃ i m ms, l = .publish i true ∧ s.tails[i]? = some (m :: ms) ∧
      s' = { s with tails := s.tails.set i ms, sent := m :: s.sent }) ∨
    (∃ i m ms, l = .publish i false ∧ s.tails[i]? = some (m :: ms) ∧
      s' = { s with tails := s.tails.set i ms, lost := m :: s.lost }) ∨
    (∃ i ms, l = .crash i ∧ s.tails[i]? = some ms ∧
      s' = { s with tails := s.tails.set i [], lost := ms ++ s.lost }) := by
  cases l with
  | commit a =>
    obtain ⟨b, hb, rfl⟩ := Option.map_eq_some_iff.mp h
    exact Or.inl ⟨a, b, rfl, hb, rfl⟩
  | publish i delivered =>
    simp only [outboxStep, State.publish] at h
    split at h
    · next m ms htail =>
      have hs := (Option.some.inj h).symm
      cases delivered with
      | true => exact Or.inr (Or.inl ⟨i, m, ms, rfl, htail, hs⟩)
      | false => exact Or.inr (Or.inr (Or.inl ⟨i, m, ms, rfl, htail, hs⟩))
    · simp at h
  | crash i =>
    simp only [outboxStep, State.crash] at h
    split at h
    · next ms htail =>
      exact Or.inr (Or.inr (Or.inr ⟨i, ms, rfl, htail, (Option.some.inj h).symm⟩))
    · simp at h

/-- The step lemma: a commit adds what it announces, and nothing else adds or
takes away. -/
theorem all_step {l : Label α} (h : outboxStep step emit s l = some s') :
    s'.all = s.all + (announced emit ⟨s, l, s'⟩ : Multiset β) := by
  rcases outboxStep_cases h with ⟨a, b, rfl, -, rfl⟩ | ⟨i, m, ms, rfl, htail, rfl⟩ |
    ⟨i, m, ms, rfl, htail, rfl⟩ | ⟨i, ms, rfl, htail, rfl⟩
  · simp only [announced, State.all, State.pending, List.flatten_append, List.flatten_cons,
      List.flatten_nil, List.append_nil, ← Multiset.coe_add]
    abel
  · have hset := pending_set htail ms
    rw [← Multiset.cons_coe, ← Multiset.singleton_add] at hset
    have hrest : ((s.tails.set i ms).flatten : Multiset β) + {m} = s.pending := by
      apply add_right_cancel (b := (ms : Multiset β))
      rw [← hset]
      abel
    simp only [announced, State.all, State.pending, Multiset.coe_nil, add_zero] at hrest ⊢
    rw [← hrest, ← Multiset.cons_coe, ← Multiset.singleton_add]
    abel
  · have hset := pending_set htail ms
    rw [← Multiset.cons_coe, ← Multiset.singleton_add] at hset
    have hrest : ((s.tails.set i ms).flatten : Multiset β) + {m} = s.pending := by
      apply add_right_cancel (b := (ms : Multiset β))
      rw [← hset]
      abel
    simp only [announced, State.all, State.pending, Multiset.coe_nil, add_zero] at hrest ⊢
    rw [← hrest, ← Multiset.cons_coe, ← Multiset.singleton_add]
    abel
  · have hset := pending_set htail []
    simp only [announced, State.all, State.pending, Multiset.coe_nil, add_zero,
      ← Multiset.coe_add] at hset ⊢
    rw [← hset]
    abel

/-- The run lemma: no message is lost from sight and none is made up. -/
theorem all_run (h : Run (outboxStep step emit) E s₀ tr s) :
    s.all = s₀.all + (tr.flatMap (announced emit) : Multiset β) := by
  induction h with
  | nil => simp
  | @snoc tr s s' l _ _ hs ih =>
    rw [all_step hs, ih, List.flatMap_cons, ← Multiset.coe_add]
    abel

/-- A run keeps to an assumption on the base system's labels if its commits do. -/
theorem run_commits {E₀ : α → Prop} (h : Run (outboxStep step emit) E s₀ tr s)
    (hall : ∀ t ∈ baseTrace tr, E₀ t.act) :
    Run (outboxStep step emit) (fun _ l => ∀ a, l = .commit a → E₀ a) s₀ tr s := by
  induction h with
  | nil => exact .nil
  | @snoc tr s s' l _ _ hs ih =>
    have hpast : ∀ t ∈ baseTrace tr, E₀ t.act := by
      intro t ht
      obtain ⟨u, hu, hut⟩ := List.mem_filterMap.mp ht
      exact hall t (List.mem_filterMap.mpr ⟨u, List.mem_cons_of_mem _ hu, hut⟩)
    refine .snoc (ih hpast) ?_ hs
    intro a hl
    subst hl
    exact hall ⟨s.base, a, s'.base⟩ (List.mem_filterMap.mpr ⟨_, List.mem_cons_self, rfl⟩)

section Settled

variable (loud : β → Bool)

/-- Since the beginning of a run nothing of a kind has been sent or lost. -/
structure Unheard (s₀ s : State σ β) : Prop where
  sent : s.sent.countP loud = s₀.sent.countP loud
  lost : s.lost.countP loud = s₀.lost.countP loud
  pending : ∀ m ∈ s.pending, loud m = false

variable {loud}

/-- If nothing of a kind was sent or lost in a run and nothing of it is pending,
then nothing of it was announced. -/
theorem Unheard.silent (hu : Unheard loud s₀ s) (h : Run (outboxStep step emit) E s₀ tr s) :
    ∀ t ∈ tr, ∀ m ∈ announced emit t, loud m = false := by
  have hcount := congrArg (Multiset.countP fun m => loud m = true) (all_run h)
  simp only [State.all, Multiset.countP_add, Multiset.coe_countP, Bool.decide_eq_true] at hcount
  have hnone : s.pending.countP (fun m => loud m = true) = 0 := by
    rw [Multiset.countP_eq_zero]
    intro m hm
    rw [hu.pending m hm]
    exact Bool.false_ne_true
  have hzero : (tr.flatMap (announced emit)).countP loud = 0 := by
    have hsent : s.sent.countP (fun m => loud m) = s₀.sent.countP (fun m => loud m) := hu.sent
    have hlost : s.lost.countP (fun m => loud m) = s₀.lost.countP (fun m => loud m) := hu.lost
    change (tr.flatMap (announced emit)).countP (fun m => loud m) = 0
    omega
  intro t ht m hm
  have hmiss := List.countP_eq_zero.mp hzero m (List.mem_flatMap.mpr ⟨t, ht, hm⟩)
  exact Bool.eq_false_iff.mpr hmiss

/-- A view of the base state that changes only under an announcement is then the
same at the end of the run as at its beginning, and everywhere between. -/
theorem Unheard.settled (hu : Unheard loud s₀ s) (h : Run (outboxStep step emit) E s₀ tr s)
    (view : σ → γ)
    (hview : ∀ s a b, E s (.commit a) → step s.base a = some b →
      (∀ m ∈ emit s.base a, loud m = false) → view b = view s.base) :
    view s.base = view s₀.base ∧ ∀ t ∈ tr, view t.post.base = view s.base := by
  have hsilent := hu.silent h
  have hall : view s.base = view s₀.base ∧ ∀ t ∈ tr, view t.post.base = view s₀.base := by
    clear hu
    induction h with
    | nil => exact ⟨rfl, fun t ht => absurd ht List.not_mem_nil⟩
    | @snoc tr s s' l _ hl hs ih =>
      obtain ⟨hbefore, hpast⟩ := ih fun t ht => hsilent t (List.mem_cons_of_mem _ ht)
      have hlast : view s'.base = view s.base := by
        have hquiet := hsilent _ List.mem_cons_self
        rcases outboxStep_cases hs with ⟨a, b, rfl, hb, rfl⟩ | ⟨i, m, ms, rfl, -, rfl⟩ |
          ⟨i, m, ms, rfl, -, rfl⟩ | ⟨i, ms, rfl, -, rfl⟩
        · exact hview s a b hl hb hquiet
        · rfl
        · rfl
        · rfl
      refine ⟨hlast.trans hbefore, ?_⟩
      intro t ht
      rcases List.mem_cons.mp ht with rfl | ht
      · exact hlast.trans hbefore
      · exact hpast t ht
  refine ⟨hall.1, ?_⟩
  intro t ht
  rw [hall.1]
  exact hall.2 t ht

end Settled

end Outbox
