import KeepAutomation.CappContract
import KeepAutomation.CascadeProgress
import KeepAutomation.EditFailures
import KeepAutomation.Requests

/-! Whether an automation can still be deleted. From every state the system gets
into, a deletion can be brought to its end; only an edit that was lost between
its claim and its end takes this away, and then it is gone for good. -/
namespace KeepAutomation

open TransitionSystem

section Wedge

/-- The row is building without a commit, and no running edit has the claim. -/
structure Wedged (s : State) : Prop where
  row : ∃ r, s.record = some r ∧ r.automation.buildState = .building ∧
    r.automation.buildingSha = none
  ownerless : ∀ p, (s.edits p).claim? = none

/-- The ways in which an edit ends without its claim: its process dies, or the
transaction that would finish or release it raises. -/
def EditOp.losesClaim : EditOp → Bool
  | .crash => true
  | .release fault | .finish fault => fault.isSome
  | _ => false

def LosesClaim (t : Transition State Action) : Prop :=
  ∃ p o, t.act.op = .edit p o ∧ o.losesClaim = true ∧ (t.pre.edits p).claim?.isSome = true

variable {cfg : Config} {s s' : State} {now : Timestamp} {op : Op}

/-- No webhook matches a wedged row, no edit and no DELETE is let in, and nobody
is left to finish or to release. -/
theorem Wedged.rowMove {r r' : Record} (hs : Fenced s) (h : Wedged s) (hr : s.record = some r)
    (hm : RowMove s now r op r') :
    r'.automation.buildState = .building ∧ r'.automation.buildingSha = none := by
  obtain ⟨r₁, hr₁, hbuild, hsha⟩ := h.row
  obtain rfl := Option.eq_some_unique hr₁ hr
  have hfree (p : ℕ) (claim : BuildClaim) : (s.edits p).claim? ≠ some claim := by
    rw [h.ownerless p]
    exact (Option.some_ne_none claim).symm
  cases hm with
  | same => exact ⟨hbuild, hsha⟩
  | enabled => exact ⟨hbuild, hsha⟩
  | disabled => exact ⟨hbuild, hsha⟩
  | deleteAdmitted _ hidle => exact absurd hbuild hidle
  | claimed _ hidle => exact absurd hbuild hidle
  | @released p claim hp => exact absurd (by rw [hp]; rfl) (hfree p claim)
  | @edited p claim _ _ _ _ hp => exact absurd (by rw [hp]; rfl) (hfree p claim)
  | cutOver _ hre =>
    obtain ⟨-, ⟨-, hcommit⟩ | ⟨hfailed, -⟩⟩ := recheck_none hre
    · simp [hsha] at hcommit
    · simp [hbuild] at hfailed
  | buildFailed _ hadm =>
    obtain ⟨-, -, hcommit⟩ := admission_none hadm
    simp [hsha] at hcommit
  | checkpointed =>
    -- a row in deletion is not building
    have hlive : r₁.automation.matchingState ≠ .deleting := by
      intro hdeleting
      have hidle := (hs.coherent r₁ hr).notBuilding (by simp [hdeleting])
      exact hidle hbuild
    rw [checkpoint_of_not_deleting hlive]
    exact ⟨hbuild, hsha⟩

theorem Wedged.move (hs : Fenced s) (h : Wedged s) (hm : Move cfg s now op s') : Wedged s' := by
  obtain ⟨r, hr, hbuild, hsha⟩ := h.row
  obtain ⟨r', hr', hrow⟩ := hm.row hr
  refine ⟨⟨r', hr', h.rowMove hs hr hrow⟩, ?_⟩
  intro p
  rcases hm.editor p with ⟨-, hsame⟩ | ⟨o, -, hedit⟩
  · rw [hsame]
    exact h.ownerless p
  · have hbefore := h.ownerless p
    generalize s.edits p = e at hedit hbefore
    generalize s'.edits p = e' at hedit
    generalize s'.toShared = sh' at hedit
    cases hedit with
    | claimed r₁ hr₁ _ _ _ hidle =>
      obtain rfl := Option.eq_some_unique hr hr₁
      exact absurd hbuild hidle
    | committed => simp [Edit.claim?] at hbefore
    | commitFailed => simp [Edit.claim?] at hbefore
    | _ => rfl

theorem Wedged.run {E : State → Action → Prop} {tr tr' : Trace State Action} (h₀ : Reached cfg E tr s)
    (h : Wedged s) (hrun : SystemRun cfg anything s tr' s') : Wedged s' := by
  have hboth : Fenced s' ∧ Wedged s' := by
    apply hrun.invariant (I := fun s => Fenced s ∧ Wedged s) ⟨h₀.fenced, h⟩
    intro s a s' hs _ hstep
    have hm := (step_move hstep).2.2
    exact ⟨hs.1.step hm, hs.2.move hs.1 hm⟩
  exact hboth.2

end Wedge

section Editing

variable {cfg : Config} {E : State → Action → Prop} {tr : Trace State Action} {s : State}

/-- An edit goes on under the tenant whose row it has claimed. -/
theorem Reached.edit_tenant (h : Reached cfg E tr s) (p : ℕ) {tenantId : String}
    (hp : (s.edits p).tenant? = some tenantId) :
    ∃ r, s.record = some r ∧ r.automation.tenantId = tenantId := by
  refine h.invariant (I := fun s => ∀ p tenantId, (s.edits p).tenant? = some tenantId →
    ∃ r, s.record = some r ∧ r.automation.tenantId = tenantId) ?_ ?_ p tenantId hp
  · intro world p tenantId hp
    simp [initial, Edit.tenant?] at hp
  intro tr s now op s' _ hs _ _ _ hm p tenantId hp
  have carry (hbefore : (s.edits p).tenant? = some tenantId) :
      ∃ r, s'.record = some r ∧ r.automation.tenantId = tenantId := by
    obtain ⟨r, hr, htenant⟩ := hs p tenantId hbefore
    obtain ⟨r', hr', hrow⟩ := hm.row hr
    exact ⟨r', hr', hrow.tenantId.trans htenant⟩
  rcases hm.editor p with ⟨-, hsame⟩ | ⟨o, -, hedit⟩
  · rw [hsame] at hp
    exact carry hp
  · generalize s.edits p = e at hedit carry
    generalize s'.edits p = e' at hedit hp
    generalize s'.toShared = sh' at hedit carry ⊢
    cases hedit with
    | claimed r hr _ htenant =>
      obtain rfl := Option.some.inj hp
      exact ⟨_, rfl, htenant⟩
    | committed => exact carry hp
    | _ => simp [Edit.tenant?] at hp

/-- The last transaction of an edit that still has its claim. -/
theorem finish_step (h : Reached cfg E tr s) {p : ℕ} {claim : BuildClaim} {tenantId : String}
    {data : AutomationIn} {actor gitSha : String}
    (hp : s.edits p = .finishing claim tenantId data actor gitSha) (now : Timestamp) :
    ∃ r, s.record = some r ∧
      (s.edits p).step cfg now s.toShared (.finish none) =
        some ({ s.toShared with record := some (r.edited data actor gitSha now) }, .returned) := by
  have hclaim : (s.edits p).claim? = some claim := by
    rw [hp]
    rfl
  have hown : (s.edits p).tenant? = some tenantId := by
    rw [hp]
    rfl
  obtain ⟨r, hr, htenant⟩ := h.edit_tenant p hown
  have hheld := (h.fenced.holds_row hr hclaim).held
  refine ⟨r, hr, ?_⟩
  rw [hp]
  have hfinish : finishUpdate tenantId claim data actor gitSha now s.record =
      .ok (r.edited data actor gitSha now) := by
    simp only [finishUpdate, hr, scopedGet, htenant, if_true, if_pos hheld]
  simp only [Edit.step, hfinish]

theorem step_finish (h : Reached cfg E tr s) {p : ℕ} {claim : BuildClaim} {tenantId : String}
    {data : AutomationIn} {actor gitSha : String} {now : Timestamp} {s' : State}
    (hp : s.edits p = .finishing claim tenantId data actor gitSha)
    (hstep : step cfg s ⟨now, .edit p (.finish none)⟩ = some s') :
    ∃ r, s.record = some r ∧ s'.record = some (r.edited data actor gitSha now) := by
  obtain ⟨r, hr, hfinish⟩ := finish_step h hp now
  refine ⟨r, hr, ?_⟩
  unfold step at hstep
  split at hstep
  · simp only [apply, hfinish, Option.map_some, Option.some.injEq] at hstep
    rw [← hstep]
    rfl
  · simp at hstep

/-- A move that is none of an edit's keeps a row from building without a commit,
unless it was. -/
theorem RowMove.unclaimed {s : State} {now : Timestamp} {r r' : Record} {op : Op}
    (h : RowMove s now r op r') (hop : ∀ p o, op ≠ .edit p o)
    (hbuild : r'.automation.buildState = .building) (hsha : r'.automation.buildingSha = none) :
    r.automation.buildState = .building ∧ r.automation.buildingSha = none := by
  cases h with
  | claimed => exact absurd rfl (hop _ _)
  | released => exact absurd rfl (hop _ _)
  | edited => exact absurd rfl (hop _ _)
  | cutOver => simp [KeepAutomation.cutOver] at hbuild
  | buildFailed => simp [failBuild] at hbuild
  | @checkpointed p a n completed =>
    obtain ⟨_, _, _, he⟩ := checkpoint_frame completed now r
    rw [he] at hbuild hsha
    exact ⟨hbuild, hsha⟩
  | _ => exact ⟨hbuild, hsha⟩

/-- A row that builds without a commit is under a running edit. -/
def UnderEdit (s : State) : Prop :=
  ∀ r, s.record = some r → r.automation.buildState = .building → r.automation.buildingSha = none →
    ∃ p, (s.edits p).claim?.isSome = true

/-- The step lemma: a move that loses no claim leaves no unclaimed row behind. -/
theorem UnderEdit.step {s' : State} {now : Timestamp} {op : Op} (h : Reached cfg E tr s) (hs : UnderEdit s)
    (hstep : step cfg s ⟨now, op⟩ = some s') (hkeeps : ¬LosesClaim ⟨s, ⟨now, op⟩, s'⟩) : UnderEdit s' := by
  intro r' hr' hbuild hsha
  have hm := (step_move hstep).2.2
  rcases hm.row_after hr' with ⟨-, _, _, _, _, _, -, rfl⟩ | ⟨r, hr, hrow⟩
  · simp [createAutomation] at hsha
  by_cases hop : ∃ q o, op = .edit q o
  · obtain ⟨q, o, rfl⟩ := hop
    have hothers (p : ℕ) (hpq : p ≠ q) : s'.edits p = s.edits p := by
      rcases hm.editor p with ⟨-, hsame⟩ | ⟨o', ho', -⟩
      · exact hsame
      · exact absurd (Op.edit.inj ho').1 hpq.symm
    have lost (hloses : o.losesClaim = true) (hclaim : (s.edits q).claim?.isSome = true) : False :=
      hkeeps ⟨q, o, rfl, hloses, hclaim⟩
    -- where the row is as it was, it was under the claim of another edit
    have another (hsame : s'.record = s.record) (hnone : (s.edits q).claim? = none) :
        ∃ p, (s'.edits p).claim?.isSome = true := by
      obtain ⟨p, hp⟩ := hs r' (hsame ▸ hr') hbuild hsha
      have hpq : p ≠ q := by
        intro hpq
        rw [hpq, hnone] at hp
        exact Bool.false_ne_true hp
      exact ⟨p, by rw [hothers p hpq]; exact hp⟩
    rcases hm.editor q with ⟨hnot, -⟩ | ⟨o', ho', hedit⟩
    · exact absurd rfl (hnot o)
    obtain ⟨-, rfl⟩ := Op.edit.inj ho'
    have hfinish := @step_finish cfg E tr s h q
    have hholds := @Fenced.holds_row s r h.fenced hr q
    generalize he : s.edits q = e at hedit lost another hfinish hholds
    generalize he' : s'.edits q = e' at hedit
    generalize hsh : s'.toShared = sh' at hedit
    have hrec : s'.record = sh'.record := congrArg Shared.record hsh
    cases hedit with
    | refused => exact another hrec rfl
    | claimed => exact ⟨q, by rw [he']; rfl⟩
    | committed => exact ⟨q, by rw [he']; rfl⟩
    | commitFailed => exact ⟨q, by rw [he']; rfl⟩
    | @released claim =>
      have hold := hholds rfl
      rw [hr', hr, Option.map_some] at hrec
      rw [Option.some.inj hrec, releaseBuildClaim, if_pos hold.held] at hbuild
      exact absurd hbuild hold.previous
    | releaseFailed => exact absurd (lost rfl rfl) not_false
    | finished =>
      rw [hr'] at hrec
      rw [Option.some.inj hrec] at hsha
      simp [Record.edited] at hsha
    | @notFinished claim tenantId data actor gitSha fault =>
      cases fault with
      | some f => exact absurd (lost rfl rfl) not_false
      | none =>
        obtain ⟨r₁, -, hedited⟩ := hfinish rfl hstep
        rw [hr'] at hedited
        rw [Option.some.inj hedited] at hsha
        simp [Record.edited] at hsha
    | crashed =>
      cases hclaim : e.claim? with
      | none => exact another hrec hclaim
      | some claim => exact absurd (lost rfl (by rw [hclaim]; rfl)) not_false
  · have hnot : ∀ p o, op ≠ .edit p o := by
      intro p o ho
      exact hop ⟨p, o, ho⟩
    obtain ⟨hbefore, hcommit⟩ := hrow.unclaimed hnot hbuild hsha
    obtain ⟨p, hp⟩ := hs r hr hbefore hcommit
    rcases hm.editor p with ⟨-, hsame⟩ | ⟨o, ho, -⟩
    · exact ⟨p, by rw [hsame]; exact hp⟩
    · exact absurd ho (hnot p o)

/-- The run lemma: an unclaimed row is the trace of a lost edit. -/
theorem Reached.claimed_or_lost (h : Reached cfg E tr s) : (∃ t ∈ tr, LosesClaim t) ∨ UnderEdit s := by
  obtain ⟨world, hrun⟩ := h
  refine hrun.history (P := fun tr s => (∃ t ∈ tr, LosesClaim t) ∨ UnderEdit s) ?_ ?_
  · right
    intro r hr
    simp [initial] at hr
  intro tr s a s' hbefore hs _ hstep
  by_cases hlost : ∃ t ∈ (⟨s, a, s'⟩ : Transition State Action) :: tr, LosesClaim t
  · exact Or.inl hlost
  · right
    have hunder : UnderEdit s := by
      apply hs.resolve_left
      rintro ⟨t, ht, hloses⟩
      exact hlost ⟨t, List.mem_cons_of_mem _ ht, hloses⟩
    apply hunder.step ⟨world, hbefore⟩ hstep
    intro hloses
    exact hlost ⟨_, List.mem_cons_self .., hloses⟩

end Editing

section Continuation

/-- Git names its commits by object ids. -/
def objectIds (_ : State) (a : Action) : Prop := ∀ gitSha ∈ a.op.gitSha?, isGitObjectId gitSha = true

/-- The operation is a crash, a call that fails or a DB fault. -/
def Op.fails : Op → Bool
  | .edit _ .commitFails | .edit _ .crash | .deliver _ .cappRaises | .deliver _ .crash => true
  | .deliver _ (.tearDown outcome) => outcome ≠ .ok
  | .run _ o => o.fails
  | op => op.faulty

instance (s : State) (a : Action) : Decidable (objectIds s a) :=
  inferInstanceAs (Decidable (∀ gitSha ∈ a.op.gitSha?, isGitObjectId gitSha = true))

def orderly (s : State) (a : Action) : Prop := objectIds s a ∧ a.op.fails = false

variable {cfg : Config} {tr : Trace State Action} {s s' s₁ : State}

/-- The system can go on from `s` to `s'`, and nothing fails on the way. -/
def Continues (cfg : Config) (s s' : State) : Prop := ∃ tr, SystemRun cfg orderly s tr s'

theorem Continues.refl (s : State) : Continues cfg s s := ⟨[], .nil⟩

theorem Continues.trans (h₁ : Continues cfg s s₁) (h₂ : Continues cfg s₁ s') : Continues cfg s s' := by
  obtain ⟨tr₁, hrun₁⟩ := h₁
  obtain ⟨tr₂, hrun₂⟩ := h₂
  exact ⟨tr₂ ++ tr₁, hrun₁.append hrun₂⟩

theorem Continues.reached (h : Reached cfg objectIds tr s) (hgo : Continues cfg s s') :
    ∃ tr', Reached cfg objectIds tr' s' := by
  obtain ⟨world, hrun⟩ := h
  obtain ⟨tr', hrun'⟩ := hgo
  exact ⟨tr' ++ tr, world, hrun.append (hrun'.mono fun _ _ ho => ho.1)⟩

/-- One more operation, at the next moment. -/
theorem Continues.of_apply {op : Op} (h : apply cfg s (s.clock+1) op = some s₁)
    (ho : orderly s ⟨s.clock+1, op⟩) : Continues cfg s { s₁ with clock := s.clock+1 } := by
  have hstep : step cfg s ⟨s.clock+1, op⟩ = some { s₁ with clock := s.clock+1 } := by
    unfold step
    rw [if_pos (Nat.lt_succ_self s.clock), h]
    rfl
  exact ⟨_, .snoc .nil ho hstep⟩

/-- Only finitely many calls have been made. -/
theorem Reached.unused {E : State → Action → Prop} (h : Reached cfg E tr s) :
    ∃ n, ∀ p, n ≤ p → s.deliveries p = .idle ∧ s.runners p = .idle := by
  refine h.invariant (I := fun s => ∃ n, ∀ p, n ≤ p → s.deliveries p = .idle ∧ s.runners p = .idle)
    (fun world => ⟨0, fun p _ => ⟨rfl, rfl⟩⟩) ?_
  intro tr s now op s' _ hs _ _ _ hm
  obtain ⟨n, hn⟩ := hs
  have hdelivery (q : ℕ) (hq : ∀ o, op ≠ .deliver q o) : s'.deliveries q = s.deliveries q := by
    rcases hm.delivery q with ⟨-, hsame⟩ | ⟨o, ho, -⟩
    · exact hsame
    · exact absurd ho (hq o)
  have hrunner (q : ℕ) (hq : ∀ o, op ≠ .run q o) : s'.runners q = s.runners q := by
    rcases hm.runner q with ⟨-, hsame⟩ | ⟨o, ho, -⟩
    · exact hsame
    · exact absurd ho (hq o)
  -- the call that has moved is the last one in use, at most
  have above (p : ℕ) (hp : ∀ q, p < q → (∀ o, op ≠ .deliver q o) ∧ ∀ o, op ≠ .run q o) :
      ∃ n, ∀ p, n ≤ p → s'.deliveries p = .idle ∧ s'.runners p = .idle := by
    refine ⟨max n (p+1), fun q hq => ?_⟩
    have hnq : n ≤ q := (le_max_left _ _).trans hq
    have hpq : p < q := (le_max_right _ _).trans hq
    rw [hdelivery q (hp q hpq).1, hrunner q (hp q hpq).2]
    exact hn q hnq
  cases op with
  | deliver p o =>
    apply above p
    intro q hq
    exact ⟨fun o' ho' => (Nat.ne_of_lt hq) (Op.deliver.inj ho').1, fun o' ho' => by simp at ho'⟩
  | run p o =>
    apply above p
    intro q hq
    exact ⟨fun o' ho' => by simp at ho', fun o' ho' => (Nat.ne_of_lt hq) (Op.run.inj ho').1⟩
  | _ =>
    apply above 0
    intro q _
    exact ⟨fun o' ho' => by simp at ho', fun o' ho' => by simp at ho'⟩

/-- The commit a finishing edit is about to write. -/
def Edit.gitSha? : Edit → Option String
  | .finishing _ _ _ _ gitSha => some gitSha
  | _ => none

/-- The commit on the row and those on their way to it are object ids. -/
structure Named (s : State) : Prop where
  row : ∀ r gitSha, s.record = some r → r.automation.buildingSha = some gitSha →
    isGitObjectId gitSha = true
  edit : ∀ p gitSha, (s.edits p).gitSha? = some gitSha → isGitObjectId gitSha = true

theorem RowMove.buildingSha {now : Timestamp} {r r' : Record} {op : Op} (hs : Fenced s)
    (h : RowMove s now r op r') {gitSha : String} (hr : s.record = some r)
    (hsha : r'.automation.buildingSha = some gitSha) :
    r.automation.buildingSha = some gitSha ∨ ∃ p, (s.edits p).gitSha? = some gitSha := by
  cases h with
  | @released p claim hp =>
    have hclaim : (s.edits p).claim? = some claim := by
      rw [hp]
      rfl
    have hold := hs.holds_row hr hclaim
    rw [releaseBuildClaim, if_pos hold.held] at hsha
    simp [hold.previousSha] at hsha
  | @edited p claim tenantId data actor gitSha' hp =>
    right
    refine ⟨p, ?_⟩
    rw [hp]
    exact hsha
  | claimed => simp [Record.claimed] at hsha
  | cutOver => simp [KeepAutomation.cutOver] at hsha
  | buildFailed => simp [failBuild] at hsha
  | @checkpointed p a n completed =>
    obtain ⟨_, _, _, he⟩ := checkpoint_frame completed now r
    rw [he] at hsha
    exact Or.inl hsha
  | _ => exact Or.inl hsha

theorem Reached.named (h : Reached cfg objectIds tr s) : Named s := by
  refine h.invariant (I := Named) ?_ ?_
  · intro world
    constructor
    · intro r gitSha hr
      simp [initial] at hr
    · intro p gitSha hp
      simp [initial, Edit.gitSha?] at hp
  intro tr s now op s' hreach hs hids _ _ hm
  constructor
  · intro r' gitSha hr' hsha
    rcases hm.row_after hr' with ⟨-, tenantId, data, actor, gitSha', deadline, rfl, rfl⟩ | ⟨r, hr, hrow⟩
    · obtain rfl := Option.some.inj hsha
      exact hids gitSha' rfl
    · rcases hrow.buildingSha hreach.fenced hr hsha with hbefore | ⟨p, hp⟩
      · exact hs.row r gitSha hr hbefore
      · exact hs.edit p gitSha hp
  · intro p gitSha hp
    rcases hm.editor p with ⟨-, hsame⟩ | ⟨o, rfl, hedit⟩
    · rw [hsame] at hp
      exact hs.edit p gitSha hp
    · generalize s'.edits p = e' at hedit hp
      generalize s.edits p = e at hedit
      generalize s'.toShared = sh' at hedit
      cases hedit with
      | committed gitSha' =>
        obtain rfl := Option.some.inj hp
        exact hids gitSha' rfl
      | _ => simp [Edit.gitSha?] at hp

end Continuation

section Lone

/-- A runner alone with its automation finds the inventory empty at the end. -/
def Runner.Emptying (w : World) : Runner → Prop
  | .deletingImages a _ entry entries => ∀ e ∈ w.listImageEntries a.id, e ∈ entry :: entries
  | .relisting a _ => w.listImageEntries a.id = []
  | _ => True

theorem deletingAll_emptying {w : World} {a : Automation} {n : ℕ} {entries : List String}
    (h : ∀ e ∈ w.listImageEntries a.id, e ∈ entries) : (deletingAll a n entries).Emptying w := by
  cases entries with
  | nil => exact List.eq_nil_iff_forall_not_mem.mpr fun e he => List.not_mem_nil (h e he)
  | cons entry entries => exact h

theorem Runner.call_emptying {pc next stop : Runner} {w world : World}
    (h : pc.call w = some (world, next, stop)) (he : pc.Emptying w) : next.Emptying world := by
  cases pc <;> simp only [Runner.call, Option.some.injEq, Prod.mk.injEq, reduceCtorEq] at h <;>
    obtain ⟨rfl, rfl, -⟩ := h
  case listing a n => exact deletingAll_emptying fun e he => he
  case deletingImages a n entry entries =>
    apply deletingAll_emptying
    intro e hlisted
    obtain ⟨hold, hne⟩ := mem_listImageEntries_deleteImage hlisted
    exact (List.mem_cons.mp (he e hold)).resolve_left hne
  case relisting a n =>
    have hempty : w.listImageEntries a.id = [] := he
    rw [if_pos hempty]
    trivial
  all_goals trivial

theorem snapshot_emptying (record : Option Record) (n : ℕ) (w : World) :
    (snapshot record n).Emptying w := by
  cases record with
  | none => trivial
  | some r =>
    simp only [snapshot, dispatch]
    split
    · trivial
    split
    · trivial
    split
    · trivial
    split
    all_goals trivial

theorem RunnerMove.emptying {now : Timestamp} {sh sh' : Shared} {pc pc' : Runner} {op : RunnerOp}
    (h : RunnerMove now sh pc op sh' pc') (hop : op.fails = false) (he : pc.Emptying sh.world) :
    pc'.Emptying sh'.world := by
  cases h with
  | started => exact snapshot_emptying _ _ _
  | reread => exact snapshot_emptying _ _ _
  | called outcome world next stop hcall =>
    obtain rfl : outcome = .ok := by simpa [RunnerOp.fails] using hop
    exact Runner.call_emptying hcall he
  | saved outcome =>
    obtain rfl : outcome = .ok := by simpa [RunnerOp.fails] using hop
    trivial
  | readFailed => trivial
  | crashed => trivial

/-- A runner that goes on without failures, beside nobody: it keeps its measure. -/
structure Alone (b p : ℕ) (s : State) : Prop where
  inLoop : (s.runners p).InLoop
  images : s.world.images.length ≤ b
  emptying : (s.runners p).Emptying s.world

variable {s : State} {b p : ℕ}

theorem Runner.nextOp_fails (pc : Runner) : (pc.nextOp .ok).fails = false := by
  cases pc <;> simp [Runner.nextOp, RunnerOp.fails]

/-- The step lemma: the runner comes nearer to its end, undisturbed. -/
theorem Alone.step (cfg : Config) (h : Alone b p s) (hrun : (s.runners p).finished = false) :
    ∃ s', KeepAutomation.step cfg s ⟨s.clock+1, .run p ((s.runners p).nextOp .ok)⟩ = some s' ∧
      Alone b p s' ∧ (s'.runners p).remaining b < (s.runners p).remaining b := by
  have hmeasure := advance_remaining ⟨s.clock+1, .ok⟩ (x := (s.toShared, s.runners p)) h.inLoop h.images hrun
  have hempty := h.emptying
  generalize hpc : s.runners p = pc at hmeasure hrun hempty ⊢
  -- the interaction is enabled, so it is the one `advance` makes
  have henabled : (pc.step (s.clock+1) s.toShared (pc.nextOp .ok)).isSome = true := by
    cases pc with
    | idle | rereading | saving => rfl
    | returned | raised | crashed => simp [Runner.finished] at hrun
    | _ => simp [Runner.nextOp, Runner.step_call, Runner.call]
  obtain ⟨⟨sh', pc'⟩, hstep⟩ := Option.isSome_iff_exists.mp henabled
  have hadvance : advance ⟨s.clock+1, .ok⟩ (s.toShared, pc) = (sh', pc') := by
    simp only [advance, hstep, Option.getD_some]
  rw [hadvance] at hmeasure
  have hmove := (Runner.step_move hstep).emptying pc.nextOp_fails hempty
  refine ⟨{ s.setShared sh' with runners := Function.update s.runners p pc', clock := s.clock+1 }, ?_, ?_, ?_⟩
  · unfold KeepAutomation.step
    rw [if_pos (Nat.lt_succ_self s.clock)]
    simp only [apply, hpc, hstep, Option.map_some]
  · constructor
    · simpa only [Function.update_self] using hmeasure.1
    · exact hmeasure.2.1
    · show (Function.update s.runners p pc' p).Emptying sh'.world
      rw [Function.update_self]
      exact hmove
  · simpa only [Function.update_self] using hmeasure.2.2

/-- The run lemma: it ends, and nothing has disturbed it. -/
theorem Alone.run (cfg : Config) (h : Alone b p s) : ∃ tr s', SystemRun cfg orderly s tr s' ∧
    (s'.runners p).finished = true ∧ ∀ t ∈ tr, disturbs p t = false := by
  -- by induction on the interactions the runner has left
  generalize hm : (s.runners p).remaining b = m
  induction m using Nat.strong_induction_on generalizing s with
  | _ m ih =>
    cases hrun : (s.runners p).finished with
    | true =>
      refine ⟨[], s, .nil, hrun, ?_⟩
      intro t ht
      exact absurd ht List.not_mem_nil
    | false =>
      obtain ⟨s₁, hstep, halone, hlt⟩ := h.step cfg hrun
      obtain ⟨tr, s', hrest, hdone, hclean⟩ := ih _ (hm ▸ hlt) halone rfl
      have hfirst : orderly s ⟨s.clock+1, .run p ((s.runners p).nextOp .ok)⟩ := by
        constructor
        · intro gitSha hsha
          simp [Op.gitSha?] at hsha
        · exact Runner.nextOp_fails _
      refine ⟨tr ++ [⟨s, _, s₁⟩], s', (Run.snoc .nil hfirst hstep).append hrest, hdone, ?_⟩
      intro t ht
      rcases List.mem_append.mp ht with ht | ht
      · exact hclean t ht
      · obtain rfl := List.mem_singleton.mp ht
        have hempty := h.emptying
        simp only [disturbs, Op.ofRunner_self, Option.any_some, Runner.nextOp_fails, Bool.false_or]
        cases hpc : s.runners p with
        | relisting a n =>
          rw [hpc] at hempty
          simpa [Runner.refilled, Runner.Emptying] using hempty
        | _ => rfl

end Lone

section Deletable

variable {cfg : Config} {tr : Trace State Action} {s : State} {r : Record}

/-- From here a deletion can be brought to its end without a failure. -/
def Deletable (cfg : Config) (s : State) : Prop := ∃ s', Continues cfg s s' ∧ Gone s'

theorem Deletable.of_continues {s₁ : State} (hgo : Continues cfg s s₁) (h : Deletable cfg s₁) :
    Deletable cfg s := by
  obtain ⟨s', hrest, hgone⟩ := h
  exact ⟨s', hgo.trans hrest, hgone⟩

/-- One more cascade attempt, alone and without failures, ends the deletion. -/
theorem deletable_of_deleting (h : Reached cfg objectIds tr s) (hr : s.record = some r)
    (hdeleting : r.automation.matchingState = .deleting) : Deletable cfg s := by
  obtain ⟨p, hunused⟩ := h.unused
  have hidle : s.runners p = .idle := (hunused p le_rfl).2
  have halone : Alone s.world.images.length p s := by
    constructor
    · rw [hidle]
      trivial
    · exact le_rfl
    · rw [hidle]
      trivial
  obtain ⟨tr', s', hrun, hdone, hclean⟩ := halone.run cfg
  have hstart : CascadeStart cfg p s :=
    ⟨hidle, tr, s, r, h.mono fun _ _ _ => trivial, hr, Or.inl ⟨hdeleting, rfl⟩⟩
  have hended := hstart.endedWell (hrun.mono fun _ _ _ => trivial) hr
  have hnone : ¬∃ t ∈ tr', disturbs p t = true := by
    rintro ⟨t, ht, hdisturbs⟩
    rw [hclean t ht] at hdisturbs
    exact Bool.false_ne_true hdisturbs
  refine ⟨s', ⟨tr', hrun⟩, ?_⟩
  cases hpc : s'.runners p with
  | returned res =>
    rw [hpc] at hended
    exact (hended.2.2.resolve_right hnone).2
  | raised e =>
    rw [hpc] at hended
    exact absurd hended.2 hnone
  | crashed =>
    rw [hpc] at hended
    exact absurd hended hnone
  | _ => simp [hpc, Runner.finished] at hdone

/-- A row that is not building is let into its deletion. -/
theorem deletable_of_settled (h : Reached cfg objectIds tr s) (hr : s.record = some r)
    (hsettled : r.automation.buildState ≠ .building) : Deletable cfg s := by
  by_cases hdel : r.automation.matchingState ∈ deletionStates
  · rw [mem_deletionStates] at hdel
    rcases hdel with hdeleting | hdeleted
    · exact deletable_of_deleting h hr hdeleting
    · have hstep := (h.fenced.coherent r hr).step
      rw [hdeleted] at hstep
      exact ⟨s, Continues.refl s, r, hr, hdeleted, hstep⟩
  · have happly : apply cfg s (s.clock+1) (.beginDelete r.automation.tenantId "deleter") =
        some { s with record := some (r.markDeleting "deleter" (s.clock+1)) } := by
      simp only [apply, hr, beginDelete_of rfl hdel hsettled, Except.map, committed]
    have hgo := Continues.of_apply happly ⟨fun _ hsha => by simp [Op.gitSha?] at hsha, rfl⟩
    obtain ⟨tr', hreach⟩ := hgo.reached h
    exact (deletable_of_deleting hreach rfl rfl).of_continues hgo

/-- The pipeline can report that the build of a commit has failed. -/
theorem exists_failureReport (automationId : UUID) {commitSha : String}
    (h : isGitObjectId commitSha = true) : ∃ event : CiWebhookIn,
      event.automationId = automationId ∧ event.commitSha = commitSha ∧ event.status = .failed := by
  refine ⟨{
    automationId := automationId
    commitSha := commitSha
    status := .failed
    image := none
    contractVersion := none
    commitSha_isGitObjectId := h
    image_isDigestPinned := ?_
    contractVersion_onSuccess := ?_ }, rfl, rfl, rfl⟩
  · intro hstatus
    simp at hstatus
  · intro hstatus
    simp at hstatus

theorem admission_of_building {a : Automation} {commitSha : String}
    (hlive : a.matchingState ∉ deletionStates) (hbuild : a.buildState = .building)
    (hsha : a.buildingSha = some commitSha) : admission a commitSha = none := by
  unfold admission
  rw [if_neg hlive, if_neg (not_not.mpr hbuild), if_neg (not_not.mpr hsha)]

/-- A row that builds a commit is released by a report that the build has failed. -/
theorem deletable_of_building (h : Reached cfg objectIds tr s) (hr : s.record = some r)
    (hbuild : r.automation.buildState = .building) {commitSha : String}
    (hsha : r.automation.buildingSha = some commitSha) : Deletable cfg s := by
  obtain ⟨p, hunused⟩ := h.unused
  have hidle : s.deliveries p = .idle := (hunused p le_rfl).1
  have hlive : r.automation.matchingState ∉ deletionStates := by
    intro hdel
    exact (h.fenced.coherent r hr).notBuilding hdel hbuild
  have hadm := admission_of_building hlive hbuild hsha
  obtain ⟨event, hevent, hcommit, hstatus⟩ :=
    exists_failureReport cfg.automationId (h.named.row r commitSha hr hsha)
  -- received and admitted, then recorded under the lock
  have hreceive : apply cfg s (s.clock+1) (.deliver p (.receive event false)) =
      some { s with deliveries := Function.update s.deliveries p (.recordingFailure event) } := by
    have hid : ¬event.automationId ≠ cfg.automationId := not_not.mpr hevent
    simp only [apply, hidle, Delivery.step, if_neg hid, Bool.false_eq_true, if_false, admitDelivery,
      hr, hcommit, hadm, hstatus, if_true, Option.map_some, State.setShared]
  have hreceived := Continues.of_apply hreceive ⟨fun _ hsha => by simp [Op.gitSha?] at hsha, rfl⟩
  generalize hs₁ : ({ s with
    deliveries := Function.update s.deliveries p (.recordingFailure event)
    clock := s.clock+1 } : State) = s₁ at hreceived
  obtain ⟨tr₁, hreach₁⟩ := hreceived.reached h
  have hr₁ : s₁.record = some r := by
    rw [← hs₁]
    exact hr
  have hp₁ : s₁.deliveries p = .recordingFailure event := by
    rw [← hs₁]
    exact Function.update_self ..
  have hrecord : apply cfg s₁ (s₁.clock+1) (.deliver p (.recordFailure none)) =
      some { s₁ with
        record := some (failBuild r event (s₁.clock+1))
        deliveries := Function.update s₁.deliveries p (.answered event .applied) } := by
    simp only [apply, hp₁, Delivery.step, recordFailure, hr₁, hcommit, hadm, Option.map_some,
      State.setShared]
  have hrecorded := Continues.of_apply hrecord ⟨fun _ hsha => by simp [Op.gitSha?] at hsha, rfl⟩
  obtain ⟨tr₂, hreach₂⟩ := hrecorded.reached hreach₁
  have hsettled : (failBuild r event (s₁.clock+1)).automation.buildState ≠ .building := by
    simp [failBuild]
  exact ((deletable_of_settled hreach₂ rfl hsettled).of_continues hrecorded).of_continues hreceived

/-- A running edit is brought to its end, and with it its claim. -/
theorem deletable_of_claimed (h : Reached cfg objectIds tr s) {p : ℕ} {claim : BuildClaim}
    (hp : (s.edits p).claim? = some claim) : Deletable cfg s := by
  obtain ⟨r, hr, hholds⟩ := h.fenced.holds p claim hp
  -- the finish leaves the row building the edit's commit
  have finishing {tr : Trace State Action} {s : State} (h : Reached cfg objectIds tr s)
      {claim : BuildClaim} {tenantId : String} {data : AutomationIn} {actor gitSha : String}
      (he : s.edits p = .finishing claim tenantId data actor gitSha) : Deletable cfg s := by
    obtain ⟨r, hr, hfinish⟩ := finish_step h he (s.clock+1)
    have happly : apply cfg s (s.clock+1) (.edit p (.finish none)) =
        some { s with
          record := some (r.edited data actor gitSha (s.clock+1))
          edits := Function.update s.edits p .returned } := by
      simp only [apply, hfinish, Option.map_some, State.setShared]
    have hgo := Continues.of_apply happly ⟨fun _ hsha => by simp [Op.gitSha?] at hsha, rfl⟩
    obtain ⟨tr', hreach⟩ := hgo.reached h
    have hclaim : (s.edits p).claim? = some claim := by
      rw [he]
      rfl
    have hbuild := (h.fenced.holds_row hr hclaim).held.1
    exact (deletable_of_building hreach rfl hbuild rfl).of_continues hgo
  cases he : s.edits p with
  | finishing claim' tenantId data actor gitSha => exact finishing h he
  | committing claim' tenantId data actor =>
    have happly : apply cfg s (s.clock+1) (.edit p (.commit firstSha)) =
        some { s with
          world := s.world.commitScript firstSha
          edits := Function.update s.edits p (.finishing claim' tenantId data actor firstSha) } := by
      simp only [apply, he, Edit.step, Option.map_some, State.setShared]
    have horderly : orderly s ⟨s.clock+1, .edit p (.commit firstSha)⟩ := by
      refine ⟨fun gitSha hsha => ?_, rfl⟩
      obtain rfl := Option.some.inj hsha
      exact firstFailure.commitSha_isGitObjectId
    have hgo := Continues.of_apply happly horderly
    obtain ⟨tr', hreach⟩ := hgo.reached h
    exact (finishing hreach (Function.update_self ..)).of_continues hgo
  | releasing claim' =>
    obtain rfl : claim' = claim := by
      rw [he] at hp
      exact Option.some.inj hp
    have happly : apply cfg s (s.clock+1) (.edit p (.release none)) =
        some { s with
          record := some (releaseBuildClaim claim' r)
          edits := Function.update s.edits p (.raised .scriptRepoUnavailableError) } := by
      simp only [apply, he, Edit.step, hr, Option.map_some, State.setShared]
    have hgo := Continues.of_apply happly ⟨fun _ hsha => by simp [Op.gitSha?] at hsha, rfl⟩
    obtain ⟨tr', hreach⟩ := hgo.reached h
    have hsettled : (releaseBuildClaim claim' r).automation.buildState ≠ .building := by
      rw [releaseBuildClaim, if_pos hholds.held]
      exact hholds.previous
    exact (deletable_of_settled hreach rfl hsettled).of_continues hgo
  | _ =>
    rw [he] at hp
    simp [Edit.claim?] at hp

/-- A row in its deletion is not wedged. -/
theorem Wedged.not_gone (hs : Fenced s) (h : Wedged s) : ¬Gone s := by
  rintro ⟨r, hr, hdeleted, -⟩
  obtain ⟨r₁, hr₁, hbuild, -⟩ := h.row
  obtain rfl := Option.eq_some_unique hr hr₁
  exact (hs.coherent r hr).notBuilding (by simp [hdeleted]) hbuild

/-- An automation can be deleted, without one failure more, from every state but a
wedged one. A wedged row stays wedged whatever happens, and only a lost edit
wedges it. -/
theorem deletable_iff_not_wedged (h : Reached cfg objectIds tr s) (hr : s.record = some r) :
    (Deletable cfg s ↔ ¬Wedged s) ∧
      (Wedged s → (∃ t ∈ tr, LosesClaim t) ∧
        ∀ tr' s', SystemRun cfg anything s tr' s' → Wedged s' ∧ ¬Gone s') := by
  have hforever (hw : Wedged s) {tr' : Trace State Action} {s' : State}
      (hrun : SystemRun cfg anything s tr' s') : Wedged s' ∧ ¬Gone s' := by
    have hfenced : Fenced s' := hrun.invariant h.fenced fun _ _ _ hs _ hstep => hs.step (step_move hstep).2.2
    have hstill := hw.run h hrun
    exact ⟨hstill, hstill.not_gone hfenced⟩
  refine ⟨⟨?_, ?_⟩, ?_⟩
  · rintro ⟨s', ⟨tr', hrun⟩, hgone⟩ hw
    exact (hforever hw (hrun.mono fun _ _ _ => trivial)).2 hgone
  · intro hnot
    by_cases hbuild : r.automation.buildState = .building
    · cases hsha : r.automation.buildingSha with
      | some commitSha => exact deletable_of_building h hr hbuild hsha
      | none =>
        have howner : ¬∀ p, (s.edits p).claim? = none := fun hnone => hnot ⟨⟨r, hr, hbuild, hsha⟩, hnone⟩
        obtain ⟨p, hp⟩ := not_forall.mp howner
        obtain ⟨claim, hclaim⟩ := Option.ne_none_iff_exists'.mp hp
        exact deletable_of_claimed h hclaim
    · exact deletable_of_settled h hr hbuild
  · intro hw
    refine ⟨?_, fun tr' s' hrun => hforever hw hrun⟩
    apply h.claimed_or_lost.resolve_right
    intro hunder
    obtain ⟨r₁, hr₁, hbuild, hsha⟩ := hw.row
    obtain ⟨p, hp⟩ := hunder r₁ hr₁ hbuild hsha
    rw [hw.ownerless p] at hp
    exact Bool.false_ne_true hp

/-- A first build, then an edit whose process dies inside its git call. -/
def lostEditOps : List Op :=
  buildOps ++ [.edit 0 (.claim "t1" samplePayload "author" 199 none), .edit 0 .crash]

theorem deletable_iff_not_wedged_sample : ∃ s, Reached sampleConfig objectIds (sampleTrace lostEditOps) s ∧
    Wedged s ∧ ¬Deletable sampleConfig s ∧ ∃ t ∈ sampleTrace lostEditOps, LosesClaim t := by
  obtain ⟨s, hs, ⟨r, hr, hbuild, hsha⟩, hclaims⟩ := run_of_runSample (E := objectIds) lostEditOps
    (fun s => (∃ r ∈ s.record, r.automation.buildState = .building ∧ r.automation.buildingSha = none) ∧
      ∀ p : ℕ, p < 2 → (s.edits p).claim? = none)
    (by decide +kernel) (by decide +kernel)
  have howner (p : ℕ) : (s.edits p).claim? = none :=
    forall_calls (P := fun _ e => e.claim? = none) hs 2 (by decide +kernel) rfl hclaims p
  have hwedged : Wedged s := ⟨⟨r, hr, hbuild, hsha⟩, howner⟩
  have hreach : Reached sampleConfig objectIds _ s := ⟨sampleWorld, hs⟩
  obtain ⟨hiff, hlost⟩ := deletable_iff_not_wedged hreach hr
  exact ⟨s, hreach, hwedged, fun hdel => hiff.mp hdel hwedged, (hlost hwedged).1⟩

end Deletable

end KeepAutomation
