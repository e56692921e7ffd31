import KeepAutomation.AuditReplay
import KeepAutomation.Sample

/-! The edit claim beside a reconciler that may take it away at any moment. An
edit owns the row by the deadline on it alone, so ownership is followed through
the run: from the transition that took the claim on. -/
namespace KeepAutomation

open TransitionSystem

/-- The stuck-build branch of the reconciler. -/
def Record.reconciled (r : Record) : Record :=
  { r with automation := { r.automation with
      buildState := .buildFailed
      buildLockDeadline := none
      buildingSha := none } }

/-- A step of any call, a transaction of an edit that commits and raises behind
its commit, or the reconciler. -/
inductive FencedOp where
  | call (op : Op)
  | lost (p : ℕ) (op : EditOp)
  | reconcile

structure FencedAction where
  now : Timestamp
  op : FencedOp

/-- The transactions of an edit; git is called between them. -/
def EditOp.transaction : EditOp → Bool
  | .claim _ _ _ _ _ | .release _ | .finish _ => true
  | _ => false

/-- The error behind a commit ends the call; the release swallows its own. -/
def Edit.lost : Edit → Edit
  | .committing _ _ _ _ | .returned => .raised .sqlAlchemyError
  | e => e

def fencedStep (cfg : Config) (s : State) (a : FencedAction) : Option State :=
  match a.op with
  | .call op => step cfg s ⟨a.now, op⟩
  | .lost p op =>
    if op.transaction then
      -- committed, and the caller is told otherwise
      (step cfg s ⟨a.now, .edit p op⟩).map fun s' =>
        { s' with edits := Function.update s'.edits p (s'.edits p).lost }
    else none
  | .reconcile =>
    if s.clock < a.now then
      some { s with
        -- the deadline is not looked at: it may come at any moment
        record := s.record.map fun r => if r.automation.buildState = .building then r.reconciled else r
        clock := a.now }
    else none

abbrev FencedTrace := Trace State FencedAction

/-- Runs from before the creation. -/
def FencedReached (cfg : Config) (E : State → FencedAction → Prop) (tr : FencedTrace) (s : State) :
    Prop :=
  ∃ world, Run (fencedStep cfg) E (initial world) tr s

/-- The operation of edit `p` that an operation is. -/
def FencedOp.ofEdit (p : ℕ) : FencedOp → Option EditOp
  | .call (.edit q o) => if q = p then some o else none
  | .lost q o => if q = p then some o else none
  | _ => none

/-- What a step does to the row. -/
inductive FencedRow (s : State) (now : Timestamp) (r : Record) : FencedOp → Record → Prop
  | call {op r'} (h : RowMove s now r op r') : FencedRow s now r (.call op) r'
  | lost {p o r'} (h : RowMove s now r (.edit p o) r') : FencedRow s now r (.lost p o) r'
  | reconciled (hbuild : r.automation.buildState = .building) :
      FencedRow s now r .reconcile r.reconciled
  | settled (hbuild : r.automation.buildState ≠ .building) : FencedRow s now r .reconcile r

/-- A lost acknowledgement is a step whose caller is told otherwise. -/
theorem fencedStep_lost {cfg : Config} {s s' : State} {now : Timestamp} {p : ℕ} {o : EditOp}
    (h : fencedStep cfg s ⟨now, .lost p o⟩ = some s') : o.transaction = true ∧
      ∃ s₁, step cfg s ⟨now, .edit p o⟩ = some s₁ ∧
        s' = { s₁ with edits := Function.update s₁.edits p (s₁.edits p).lost } := by
  simp only [fencedStep] at h
  split at h
  · next ho =>
    obtain ⟨s₁, hstep, hs'⟩ := Option.map_eq_some_iff.mp h
    exact ⟨ho, s₁, hstep, hs'.symm⟩
  · simp at h

theorem fencedStep_row {cfg : Config} {s s' : State} {a : FencedAction} {r : Record}
    (h : fencedStep cfg s a = some s') (hr : s.record = some r) :
    ∃ r', s'.record = some r' ∧ FencedRow s a.now r a.op r' := by
  obtain ⟨now, op⟩ := a
  cases op with
  | call op =>
    obtain ⟨r', hr', hrow⟩ := (step_move h).2.2.row hr
    exact ⟨r', hr', .call hrow⟩
  | lost p o =>
    obtain ⟨-, s₁, hstep, rfl⟩ := fencedStep_lost h
    obtain ⟨r', hr', hrow⟩ := (step_move hstep).2.2.row hr
    exact ⟨r', hr', .lost hrow⟩
  | reconcile =>
    simp only [fencedStep] at h
    split at h
    · obtain rfl := Option.some.inj h
      rw [hr]
      by_cases hbuild : r.automation.buildState = .building
      · exact ⟨r.reconciled, by simp [hbuild], .reconciled hbuild⟩
      · exact ⟨r, by simp [hbuild], .settled hbuild⟩
    · simp at h

/-- An edit is moved by its own operations only, as it is without the reconciler. -/
theorem fencedStep_edit {cfg : Config} {s s' : State} {a : FencedAction}
    (h : fencedStep cfg s a = some s') (p : ℕ) :
    (a.op.ofEdit p = none ∧ s'.edits p = s.edits p) ∨
      ∃ o e, a.op.ofEdit p = some o ∧ EditMove cfg a.now s.toShared (s.edits p) o s'.toShared e ∧
        (a.op = .call (.edit p o) ∧ s'.edits p = e ∨ a.op = .lost p o ∧ s'.edits p = e.lost) := by
  obtain ⟨now, op⟩ := a
  cases op with
  | call op =>
    rcases (step_move h).2.2.editor p with ⟨hother, hsame⟩ | ⟨o, rfl, hm⟩
    · refine Or.inl ⟨?_, hsame⟩
      cases op with
      | edit q o =>
        refine if_neg ?_
        intro hq
        exact hother o (by rw [hq])
      | _ => rfl
    · exact Or.inr ⟨o, _, if_pos rfl, hm, Or.inl ⟨rfl, rfl⟩⟩
  | lost q o =>
    obtain ⟨-, s₁, hstep, rfl⟩ := fencedStep_lost h
    rcases (step_move hstep).2.2.editor p with ⟨hother, hsame⟩ | ⟨o, ho, hm⟩
    · have hq : q ≠ p := by
        intro hq
        exact hother o (by rw [hq])
      refine Or.inl ⟨if_neg hq, ?_⟩
      exact (Function.update_of_ne (Ne.symm hq) _ _).trans hsame
    · obtain ⟨rfl, rfl⟩ := Op.edit.inj ho
      refine Or.inr ⟨_, _, if_pos rfl, hm, Or.inr ⟨rfl, ?_⟩⟩
      exact Function.update_self _ _ _
  | reconcile =>
    simp only [fencedStep] at h
    split at h
    · obtain rfl := Option.some.inj h
      exact Or.inl ⟨rfl, rfl⟩
    · simp at h

/-- The claim is on the row. -/
def BuildClaim.heldIn (claim : BuildClaim) (s : State) : Prop :=
  ∃ r, s.record = some r ∧ claim.held r.automation

/-- Edit `p` takes this claim, on a row that is live and not building. -/
def TakesClaim (p : ℕ) (claim : BuildClaim) (t : Transition State FencedAction) : Prop :=
  ∃ tenantId data actor fault r,
    t.act.op.ofEdit p = some (.claim tenantId data actor claim.deadline fault) ∧
    t.pre.record = some r ∧ claim = r.claim claim.deadline ∧
    r.automation.matchingState ∉ deletionStates ∧ r.automation.buildState ≠ .building ∧
    t.post.record = some (r.claimed claim.deadline)

/-- The deadline of the claim an operation asks for. -/
def FencedOp.deadline? : FencedOp → Option Timestamp
  | .call (.edit _ (.claim _ _ _ deadline _)) => some deadline
  | .lost _ (.claim _ _ _ deadline _) => some deadline
  | _ => none

def building (s : State) : Bool := s.record.any fun r => r.automation.buildState = .building

/-- The deadline of the claim a transition takes. -/
def takenDeadline (t : Transition State FencedAction) : Option Timestamp :=
  if building t.pre = false ∧ building t.post = true then t.act.op.deadline? else none

/-- Distinct claims carry distinct deadlines. -/
def DistinctDeadlines (tr : FencedTrace) : Prop := (tr.filterMap takenDeadline).Nodup

/-- The own operations of an edit are its steps, acknowledged or lost. -/
theorem FencedOp.of_ofEdit {p : ℕ} {op : FencedOp} {o : EditOp} (h : op.ofEdit p = some o) :
    op = .call (.edit p o) ∨ op = .lost p o := by
  cases op with
  | call op =>
    cases op with
    | edit q o' =>
      simp only [FencedOp.ofEdit] at h
      split at h
      · next hq =>
        obtain rfl := Option.some.inj h
        exact Or.inl (by rw [hq])
      · simp at h
    | _ => simp [FencedOp.ofEdit] at h
  | lost q o' =>
    simp only [FencedOp.ofEdit] at h
    split at h
    · next hq =>
      obtain rfl := Option.some.inj h
      exact Or.inr (by rw [hq])
    · simp at h
  | reconcile => simp [FencedOp.ofEdit] at h

theorem FencedOp.ofEdit_unique {p q : ℕ} {op : FencedOp} {o o' : EditOp}
    (hp : op.ofEdit p = some o) (hq : op.ofEdit q = some o') : p = q := by
  rcases FencedOp.of_ofEdit hp with rfl | rfl
  · by_contra hne
    simp [FencedOp.ofEdit, hne] at hq
  · by_contra hne
    simp [FencedOp.ofEdit, hne] at hq

theorem takenDeadline_of_claimed {t : Transition State FencedAction} {r : Record} {deadline : Timestamp}
    (hop : t.act.op.deadline? = some deadline) (hr : t.pre.record = some r)
    (hbuild : r.automation.buildState ≠ .building) (hr' : t.post.record = some (r.claimed deadline)) :
    takenDeadline t = some deadline := by
  have hpre : building t.pre = false := by
    simp [building, hr, hbuild]
  have hpost : building t.post = true := by
    simp [building, hr', Record.claimed]
  rw [takenDeadline, if_pos ⟨hpre, hpost⟩, hop]

theorem TakesClaim.deadline {p : ℕ} {claim : BuildClaim} {t : Transition State FencedAction}
    (h : TakesClaim p claim t) : takenDeadline t = some claim.deadline := by
  obtain ⟨tenantId, data, actor, fault, r, hop, hr, -, -, hbuild, hpost⟩ := h
  refine takenDeadline_of_claimed ?_ hr hbuild hpost
  rcases FencedOp.of_ofEdit hop with hop | hop
  · rw [hop]
    rfl
  · rw [hop]
    rfl

/-- One deadline was taken in one transition. -/
theorem DistinctDeadlines.unique {tr : FencedTrace} (h : DistinctDeadlines tr)
    {t u : Transition State FencedAction} (ht : t ∈ tr) (hu : u ∈ tr) {deadline : Timestamp}
    (htaken : takenDeadline t = some deadline) (hutaken : takenDeadline u = some deadline) : t = u := by
  by_contra hne
  have hpairs := List.pairwise_filterMap.mp h
  have hsymm : Std.Symm fun t u : Transition State FencedAction =>
      ∀ d, takenDeadline t = some d → ∀ d', takenDeadline u = some d' → d ≠ d' :=
    ⟨fun t u hd d hu d' ht hdd => hd d' ht d hu hdd.symm⟩
  exact hpairs.forall ht hu hne deadline htaken deadline hutaken rfl

theorem DistinctDeadlines.tail {tr : FencedTrace} {t : Transition State FencedAction}
    (h : DistinctDeadlines (t :: tr)) : DistinctDeadlines tr := by
  unfold DistinctDeadlines at h
  rw [List.filterMap_cons] at h
  split at h
  · exact h
  · exact (List.nodup_cons.mp h).2

/-- A deadline on the trace is not taken again. -/
theorem DistinctDeadlines.fresh {tr : FencedTrace} {t u : Transition State FencedAction}
    (h : DistinctDeadlines (t :: tr)) (hu : u ∈ tr) {deadline : Timestamp}
    (hutaken : takenDeadline u = some deadline) : takenDeadline t ≠ some deadline := by
  intro htaken
  unfold DistinctDeadlines at h
  rw [List.filterMap_cons, htaken] at h
  exact (List.nodup_cons.mp h).1 (List.mem_filterMap.mpr ⟨u, hu, hutaken⟩)

theorem TakesClaim.unique {tr : FencedTrace} (h : DistinctDeadlines tr) {p q : ℕ} {c d : BuildClaim}
    {t u : Transition State FencedAction} (ht : t ∈ tr) (hu : u ∈ tr) (hc : TakesClaim p c t)
    (hd : TakesClaim q d u) (hsame : c.deadline = d.deadline) : p = q := by
  obtain rfl := h.unique ht hu hc.deadline (hsame ▸ hd.deadline)
  obtain ⟨_, _, _, _, _, hp, -⟩ := hc
  obtain ⟨_, _, _, _, _, hq, -⟩ := hd
  exact FencedOp.ofEdit_unique hp hq

theorem TakesClaim.previous {p : ℕ} {c : BuildClaim} {t : Transition State FencedAction}
    (h : TakesClaim p c t) : c.previousBuildState ≠ .building := by
  obtain ⟨_, _, _, _, r, -, -, hc, -, hbuild, -⟩ := h
  rw [hc]
  exact hbuild

/-- No commit is on the row and it is not in its deletion. -/
def Clean (a : Automation) : Prop := a.buildingSha = none ∧ a.matchingState ∉ deletionStates

/-- A claim on the row after a step was there before it, unless the step takes a
claim with its deadline. The two kinds of steps that could fake it are a finish
or a release under a claim of the same deadline. -/
theorem FencedRow.held_before {s : State} {now : Timestamp} {r r' : Record} {op : FencedOp}
    {c : BuildClaim} (h : FencedRow s now r op r') (hheld : c.held r'.automation)
    (hclaim : ∀ deadline, op.deadline? = some deadline → r.automation.buildState ≠ .building →
      r' = r.claimed deadline → deadline ≠ c.deadline)
    (hother : ∀ q d, (s.edits q).claim? = some d → op.ofEdit q ≠ none →
      d.deadline ≠ c.deadline ∧ d.previousBuildState ≠ .building) :
    c.held r.automation ∧ (Clean r.automation → Clean r'.automation) := by
  have row {o : Op} (hm : RowMove s now r o r') (hop : ∀ q, op.ofEdit q = (FencedOp.call o).ofEdit q)
      (hdeadline : op.deadline? = (FencedOp.call o).deadline?) :
      c.held r.automation ∧ (Clean r.automation → Clean r'.automation) := by
    cases hm with
    | same => exact ⟨hheld, id⟩
    | enabled hlive => exact ⟨hheld, fun hclean => ⟨hclean.1, by simp [Record.transition]⟩⟩
    | disabled hlive => exact ⟨hheld, fun hclean => ⟨hclean.1, by simp [Record.transition]⟩⟩
    | deleteAdmitted hlive hbuild => exact absurd hheld.1 hbuild
    | @claimed q tenantId data actor deadline fault hlive hbuild =>
      have hne := hclaim deadline hdeadline hbuild rfl
      exact absurd (Option.some.inj hheld.2) hne
    | @released q d hq =>
      -- a release leaves no building row behind, so it did not release
      have hprevious := (hother q d (by rw [hq]; rfl) (by rw [hop q]; simp [FencedOp.ofEdit])).2
      unfold releaseBuildClaim at hheld ⊢
      split at hheld
      · exact absurd hheld.1 hprevious
      · next hnot =>
        rw [if_neg hnot]
        exact ⟨hheld, id⟩
    | @edited q d tenantId data actor gitSha hq hheldBy =>
      -- a finish keeps the deadline of its own claim, which is another one
      have hne := (hother q d (by rw [hq]; rfl) (by rw [hop q]; simp [FencedOp.ofEdit])).1
      have hdeadline : r.automation.buildLockDeadline = some c.deadline := hheld.2
      rw [hheldBy.2] at hdeadline
      exact absurd (Option.some.inj hdeadline) hne
    | cutOver => simp [BuildClaim.held, KeepAutomation.cutOver] at hheld
    | buildFailed => simp [BuildClaim.held, failBuild] at hheld
    | @checkpointed q a n completed =>
      obtain ⟨_, _, _, he⟩ := checkpoint_frame completed now r
      have hbefore : c.held r.automation := by
        rw [he] at hheld
        exact hheld
      refine ⟨hbefore, fun hclean => ?_⟩
      rw [checkpoint_of_not_deleting (fun hd => hclean.2 (by simp [hd]))]
      exact hclean
  cases h with
  | call hm => exact row hm (fun _ => rfl) rfl
  | @lost q o r' hm => exact row hm (fun _ => rfl) (by cases o <;> rfl)
  | reconciled => simp [BuildClaim.held, Record.reconciled] at hheld
  | settled => exact ⟨hheld, id⟩

theorem Edit.claim?_of_lost {e : Edit} {claim : BuildClaim} (h : e.lost.claim? = some claim) :
    e.claim? = some claim := by
  cases e with
  | committing => simp [Edit.lost, Edit.claim?] at h
  | returned => simp [Edit.lost, Edit.claim?] at h
  | _ => exact h

/-- The claim has been on the row ever since edit `p` took it. -/
def HeldSince (p : ℕ) (claim : BuildClaim) (tr : FencedTrace) (s : State) : Prop :=
  claim.heldIn s ∧ ∃ later t before, tr = later ++ t :: before ∧ TakesClaim p claim t ∧
    ∀ u ∈ later, claim.heldIn u.pre

/-- What the fence knows of an edit's claim: it was taken once, and if the row
carries it now, then it has never been off it. -/
structure Owned (p : ℕ) (claim : BuildClaim) (tr : FencedTrace) (s : State) : Prop where
  taken : ∃ t ∈ tr, TakesClaim p claim t
  present : ∃ r, s.record = some r
  since : claim.heldIn s → HeldSince p claim tr s ∧ ∀ r, s.record = some r → Clean r.automation

/-- One more step under the claim. -/
theorem HeldSince.snoc {p : ℕ} {claim : BuildClaim} {tr : FencedTrace} {s s' : State} {a : FencedAction}
    (h : HeldSince p claim tr s) (hheld : claim.heldIn s') :
    HeldSince p claim (⟨s, a, s'⟩ :: tr) s' := by
  obtain ⟨hnow, later, t, before, htr, ht, hduring⟩ := h
  refine ⟨hheld, ⟨s, a, s'⟩ :: later, t, before, by rw [htr]; rfl, ht, ?_⟩
  intro u hu
  rcases List.mem_cons.mp hu with rfl | hu
  · exact hnow
  · exact hduring u hu

section OwnedStep

variable {cfg : Config} {tr : FencedTrace} {s s' : State} {a : FencedAction} {p : ℕ} {claim : BuildClaim}

/-- A claim the edit held before stays what it was; the row may only have lost it. -/
theorem Owned.carry (hs : Owned p claim tr s) (h : fencedStep cfg s a = some s')
    (hkept : ∀ r r', s.record = some r → s'.record = some r' → claim.held r'.automation →
      claim.held r.automation ∧ (Clean r.automation → Clean r'.automation)) :
    Owned p claim (⟨s, a, s'⟩ :: tr) s' := by
  obtain ⟨⟨t, ht, htakes⟩, ⟨r, hr⟩, hsince⟩ := hs
  obtain ⟨r', hr', -⟩ := fencedStep_row h hr
  refine ⟨⟨t, List.mem_cons_of_mem _ ht, htakes⟩, ⟨r', hr'⟩, ?_⟩
  rintro ⟨r₁, h₁, hheld⟩
  obtain rfl := Option.eq_some_unique h₁ hr'
  obtain ⟨hheld₀, hclean⟩ := hkept r r₁ hr hr' hheld
  obtain ⟨hheldSince, hclean₀⟩ := hsince ⟨r, hr, hheld₀⟩
  refine ⟨hheldSince.snoc ⟨r₁, hr', hheld⟩, ?_⟩
  intro r₂ h₂
  obtain rfl := Option.eq_some_unique h₂ hr'
  exact hclean (hclean₀ r hr)

/-- A step of the edit that leaves the row. -/
theorem Owned.same (hs : Owned p claim tr s) (h : fencedStep cfg s a = some s')
    (hsame : s'.record = s.record) : Owned p claim (⟨s, a, s'⟩ :: tr) s' := by
  refine hs.carry h ?_
  intro r r' hr hr' hheld
  rw [hr, hr', Option.some.injEq] at hsame
  exact hsame ▸ ⟨hheld, id⟩

/-- A step that is not of the edit: no other claim has its deadline, so none can
put it back on the row. -/
theorem Owned.other (hs : ∀ q d, (s.edits q).claim? = some d → Owned q d tr s)
    (h : fencedStep cfg s a = some s') (hdistinct : DistinctDeadlines (⟨s, a, s'⟩ :: tr))
    (hp : (s.edits p).claim? = some claim) (hother : a.op.ofEdit p = none) :
    Owned p claim (⟨s, a, s'⟩ :: tr) s' := by
  refine (hs p claim hp).carry h ?_
  intro r r' hr hr' hheld
  obtain ⟨r₁, h₁, hrow⟩ := fencedStep_row h hr
  obtain rfl := Option.eq_some_unique hr' h₁
  obtain ⟨t, ht, htakes⟩ := (hs p claim hp).taken
  refine hrow.held_before hheld ?_ ?_
  · intro deadline hop hbuild hclaimed hdeadline
    have htaken : takenDeadline ⟨s, a, s'⟩ = some deadline :=
      takenDeadline_of_claimed hop hr hbuild (hclaimed ▸ hr')
    exact hdistinct.fresh ht htakes.deadline (hdeadline ▸ htaken)
  · intro q d hq hown
    obtain ⟨u, hu, hutakes⟩ := (hs q d hq).taken
    refine ⟨?_, hutakes.previous⟩
    intro hdeadline
    obtain rfl := TakesClaim.unique hdistinct.tail hu ht hutakes htakes hdeadline
    exact hown hother

theorem Owned.claimed {r : Record} (htakes : TakesClaim p claim ⟨s, a, s'⟩) (hr' : s'.record = some r)
    (hclean : Clean r.automation) : Owned p claim (⟨s, a, s'⟩ :: tr) s' := by
  refine ⟨⟨_, List.mem_cons_self, htakes⟩, ⟨_, hr'⟩, ?_⟩
  intro hheld
  refine ⟨⟨hheld, [], _, tr, rfl, htakes, by simp⟩, ?_⟩
  intro r₁ h₁
  obtain rfl := Option.eq_some_unique h₁ hr'
  exact hclean

/-- The step lemma of the fence. -/
theorem Owned.step (h : fencedStep cfg s a = some s') (hdistinct : DistinctDeadlines (⟨s, a, s'⟩ :: tr))
    (hs : ∀ q d, (s.edits q).claim? = some d → Owned q d tr s)
    (hp : (s'.edits p).claim? = some claim) : Owned p claim (⟨s, a, s'⟩ :: tr) s' := by
  rcases fencedStep_edit h p with ⟨hother, hsame⟩ | ⟨o, e, ho, hm, he⟩
  · exact Owned.other hs h hdistinct (hsame ▸ hp) hother
  · have hclaim : e.claim? = some claim := by
      rcases he with ⟨-, he⟩ | ⟨-, he⟩
      · rw [he] at hp
        exact hp
      · rw [he] at hp
        exact Edit.claim?_of_lost hp
    generalize hbefore : s.edits p = e₀ at hm
    generalize hsh : s'.toShared = sh at hm
    cases hm with
    | @claimed tenantId data actor deadline r hr _ htenant hlive hbuild =>
      obtain rfl := Option.some.inj hclaim
      have hr' : s'.record = some (r.claimed deadline) := congrArg Shared.record hsh
      have htakes : TakesClaim p (r.claim deadline) ⟨s, a, s'⟩ :=
        ⟨tenantId, data, actor, none, r, ho, hr, rfl, hlive, hbuild, hr'⟩
      exact .claimed htakes hr' ⟨rfl, hlive⟩
    | committed =>
      have hsame := congrArg Shared.record hsh
      exact (hs p claim (by rw [hbefore]; exact hclaim)).same h hsame
    | commitFailed =>
      have hsame := congrArg Shared.record hsh
      exact (hs p claim (by rw [hbefore]; exact hclaim)).same h hsame
    | _ => simp [Edit.claim?] at hclaim

end OwnedStep

theorem FencedReached.owned {cfg : Config} {E : State → FencedAction → Prop} {tr : FencedTrace}
    {s : State} (h : FencedReached cfg E tr s) (hdistinct : DistinctDeadlines tr) {p : ℕ}
    {claim : BuildClaim} (hp : (s.edits p).claim? = some claim) : Owned p claim tr s := by
  obtain ⟨world, hrun⟩ := h
  refine hrun.history (P := fun tr s => DistinctDeadlines tr → ∀ p claim,
    (s.edits p).claim? = some claim → Owned p claim tr s) ?_ ?_ hdistinct p claim hp
  · intro _ p claim hp
    simp [initial, Edit.claim?] at hp
  · intro tr s a s' _ ih _ hstep hdistinct p claim hp
    exact Owned.step hstep hdistinct (ih hdistinct.tail) hp

/-- No definition column changes and no revision is added. -/
def Undefined (t : Transition State FencedAction) : Prop :=
  t.post.record.map (fun r => (r.automation.definition, r.revisions)) =
    t.pre.record.map (fun r => (r.automation.definition, r.revisions))

/-- What the fence promises at the end of a run. -/
structure SoundFence (tr : FencedTrace) (s : State) : Prop where
  /-- A finish writes its definition, its sha and its revision, or nothing; it
  writes them under its own claim only. -/
  finish : ∀ later t before p fault, tr = later ++ t :: before →
    t.act.op.ofEdit p = some (.finish fault) → t.post.record = t.pre.record ∨
      ∃ claim tenantId data actor gitSha r,
        t.pre.edits p = .finishing claim tenantId data actor gitSha ∧ t.pre.record = some r ∧
        HeldSince p claim before t.pre ∧ t.post.record = some (r.edited data actor gitSha t.act.now)
  /-- A release restores the build columns under its own claim only. -/
  release : ∀ later t before p fault, tr = later ++ t :: before →
    t.act.op.ofEdit p = some (.release fault) → t.post.record = t.pre.record ∨
      ∃ claim r, t.pre.edits p = .releasing claim ∧ t.pre.record = some r ∧
        HeldSince p claim before t.pre ∧ t.post.record = some { r with automation := { r.automation with
          buildState := claim.previousBuildState
          buildingSha := claim.previousBuildingSha
          buildLockDeadline := none } }
  /-- An edit whose second transaction has not committed has defined nothing. -/
  undefined : ∀ p, s.edits p ≠ .returned → (∀ t ∈ tr, ∀ fault, t.act.op ≠ .lost p (.finish fault)) →
    ∀ t ∈ tr, t.act.op.ofEdit p ≠ none → Undefined t
  /-- One edit at a time holds the claim. -/
  alone : ∀ p q c d, (s.edits p).claim? = some c → (s.edits q).claim? = some d →
    c.heldIn s → d.heldIn s → p = q
  /-- While it does, no delivery and no DELETE is admitted. -/
  closed : ∀ p claim r, (s.edits p).claim? = some claim → claim.heldIn s → s.record = some r →
    (∀ commitSha, admission r.automation commitSha ≠ none ∧ recheck r commitSha ≠ none) ∧
      ∀ tenantId actor now d, beginDelete tenantId actor now s.record ≠ .ok d

/-- An own step of an edit that changes the row beyond its claim is its committed
finish or its release under the claim. -/
theorem fencedStep_writes {cfg : Config} {s s' : State} {a : FencedAction} {p : ℕ} {o : EditOp}
    (h : fencedStep cfg s a = some s') (ho : a.op.ofEdit p = some o) :
    s'.record = s.record ∨
      (∃ tenantId data actor deadline fault r, o = .claim tenantId data actor deadline fault ∧
        s.record = some r ∧ s'.record = some (r.claimed deadline)) ∨
      (∃ claim r, s.edits p = .releasing claim ∧ (∃ fault, o = .release fault) ∧ s.record = some r ∧
        claim.held r.automation ∧ s'.record = some (releaseBuildClaim claim r)) ∨
      ∃ claim tenantId data actor gitSha r,
        s.edits p = .finishing claim tenantId data actor gitSha ∧ o = .finish none ∧
        s.record = some r ∧ claim.held r.automation ∧
        s'.record = some (r.edited data actor gitSha a.now) ∧
        (s'.edits p = .returned ∨ a.op = .lost p (.finish none)) := by
  rcases fencedStep_edit h p with ⟨hnone, -⟩ | ⟨o', e, ho', hm, he⟩
  · rw [hnone] at ho
    simp at ho
  obtain rfl := Option.eq_some_unique ho ho'
  generalize s.edits p = e₀ at hm
  generalize s'.toShared = sh at hm
  cases hm with
  | claimed r hr => exact Or.inr (Or.inl ⟨_, _, _, _, _, r, rfl, hr, rfl⟩)
  | @released claim =>
    cases hr : s.record with
    | none => exact Or.inl rfl
    | some r =>
      by_cases hheld : claim.held r.automation
      · exact Or.inr (Or.inr (Or.inl ⟨claim, r, rfl, ⟨none, rfl⟩, rfl, hheld, rfl⟩))
      · left
        simp [releaseBuildClaim, hheld]
  | @finished claim tenantId data actor gitSha r hr htenant hheld =>
    refine Or.inr (Or.inr (Or.inr ⟨claim, tenantId, data, actor, gitSha, r, rfl, rfl, hr, hheld, rfl, ?_⟩))
    rcases he with ⟨-, he⟩ | ⟨hop, -⟩
    · exact Or.inl he
    · exact Or.inr hop
  | _ => exact Or.inl rfl

theorem Edit.step_returned {cfg : Config} {now : Timestamp} {sh : Shared} (op : EditOp) :
    Edit.returned.step cfg now sh op = none := by
  cases op <;> rfl

theorem fencedStep_returned {cfg : Config} {s s' : State} {a : FencedAction} {p : ℕ}
    (h : fencedStep cfg s a = some s') (hp : s.edits p = .returned) : s'.edits p = .returned := by
  have stuck (now : Timestamp) (o : EditOp) : step cfg s ⟨now, .edit p o⟩ = none := by
    simp [step, apply, hp, Edit.step_returned]
  rcases fencedStep_edit h p with ⟨-, hsame⟩ | ⟨o, e, ho, -, -⟩
  · rw [hsame, hp]
  · rcases FencedOp.of_ofEdit ho with hop | hop
    · simp [fencedStep, hop, stuck] at h
    · simp [fencedStep, hop, stuck] at h

theorem Clean.closed {claim : BuildClaim} {r : Record} (hheld : claim.held r.automation)
    (hclean : Clean r.automation) :
    (∀ commitSha, admission r.automation commitSha ≠ none ∧ recheck r commitSha ≠ none) ∧
      ∀ tenantId actor now d, beginDelete tenantId actor now (some r) ≠ .ok d := by
  refine ⟨?_, ?_⟩
  · intro commitSha
    refine ⟨?_, ?_⟩
    · intro hadm
      obtain ⟨-, -, hsha⟩ := admission_none hadm
      rw [hclean.1] at hsha
      simp at hsha
    · intro hre
      obtain ⟨-, ⟨-, hsha⟩ | ⟨hfail, -⟩⟩ := recheck_none hre
      · rw [hclean.1] at hsha
        simp at hsha
      · rw [hheld.1] at hfail
        simp at hfail
  · intro tenantId actor now d hd
    obtain ⟨r₁, h₁, -, ⟨hdeleting, -⟩ | ⟨-, hbuild, -⟩⟩ := beginDelete_ok hd
    · obtain rfl := Option.some.inj h₁
      exact hclean.2 hdeleting
    · obtain rfl := Option.some.inj h₁
      exact hbuild hheld.1

theorem DistinctDeadlines.before {later tr : FencedTrace} (h : DistinctDeadlines (later ++ tr)) :
    DistinctDeadlines tr := by
  unfold DistinctDeadlines at h
  rw [List.filterMap_append] at h
  exact (List.nodup_append.mp h).2.1

/-- The edit claim is a sound fence: whatever calls run beside it and whenever the
reconciler takes a building row away, an edit writes under its own claim only,
and while it holds the claim it is alone with the row. -/
theorem edits_fenced {cfg : Config} {E : State → FencedAction → Prop} {tr : FencedTrace} {s : State}
    (h : FencedReached cfg E tr s) (hdistinct : DistinctDeadlines tr) : SoundFence tr s := by
  obtain ⟨world, hrun⟩ := h
  -- the step of a transition, and the fence where it was taken
  have at_ {later before : FencedTrace} {t : Transition State FencedAction}
      (htr : tr = later ++ t :: before) : fencedStep cfg t.pre t.act = some t.post ∧
      Run (fencedStep cfg) E t.post later s ∧
      ∀ p claim, (t.pre.edits p).claim? = some claim → Owned p claim before t.pre := by
    have hcut := htr ▸ hrun
    obtain ⟨hbefore, hlater⟩ := hcut.split
    obtain ⟨-, hstep, -⟩ := hrun.transition (t := t) (by rw [htr]; simp)
    have hdis : DistinctDeadlines before := (DistinctDeadlines.before (htr ▸ hdistinct)).tail
    exact ⟨hstep, hlater, fun p claim hp => FencedReached.owned ⟨world, hbefore⟩ hdis hp⟩
  refine ⟨?_, ?_, ?_, ?_, ?_⟩
  · intro later t before p fault htr hop
    obtain ⟨hstep, -, howned⟩ := at_ htr
    rcases fencedStep_writes hstep hop with hsame | ⟨_, _, _, _, _, _, ho, -⟩ |
      ⟨_, _, -, ⟨_, ho⟩, -⟩ | ⟨claim, tenantId, data, actor, gitSha, r, hp, -, hr, hheld, hpost, -⟩
    · exact Or.inl hsame
    · simp at ho
    · simp at ho
    · have hsince := (howned p claim (by rw [hp]; rfl)).since ⟨r, hr, hheld⟩
      exact Or.inr ⟨claim, tenantId, data, actor, gitSha, r, hp, hr, hsince.1, hpost⟩
  · intro later t before p fault htr hop
    obtain ⟨hstep, -, howned⟩ := at_ htr
    rcases fencedStep_writes hstep hop with hsame | ⟨_, _, _, _, _, _, ho, -⟩ |
      ⟨claim, r, hp, -, hr, hheld, hpost⟩ | ⟨_, _, _, _, _, _, -, ho, -⟩
    · exact Or.inl hsame
    · simp at ho
    · have hsince := (howned p claim (by rw [hp]; rfl)).since ⟨r, hr, hheld⟩
      rw [releaseBuildClaim_held hheld] at hpost
      exact Or.inr ⟨claim, r, hp, hr, hsince.1, hpost⟩
    · simp at ho
  · intro p hp hread t ht hown
    obtain ⟨later, before, htr⟩ := List.append_of_mem ht
    obtain ⟨hstep, hlater, -⟩ := at_ htr
    obtain ⟨o, ho⟩ := Option.ne_none_iff_exists'.mp hown
    unfold Undefined
    rcases fencedStep_writes hstep ho with hsame | ⟨_, _, _, _, _, r, -, hr, hpost⟩ |
      ⟨claim, r, -, -, hr, hheld, hpost⟩ | ⟨_, _, _, _, _, _, -, -, -, -, -, hend⟩
    · rw [hsame]
    · rw [hr, hpost]
      rfl
    · rw [hr, hpost, releaseBuildClaim_held hheld]
      rfl
    · rcases hend with hend | hunread
      · refine absurd ?_ hp
        exact hlater.invariant hend (fun s a s' hs _ hstep => fencedStep_returned hstep hs)
      · exact absurd hunread (hread t ht none)
  · intro p q c d hp hq hc hd
    obtain ⟨t, ht, htakes⟩ := (FencedReached.owned ⟨world, hrun⟩ hdistinct hp).taken
    obtain ⟨u, hu, hutakes⟩ := (FencedReached.owned ⟨world, hrun⟩ hdistinct hq).taken
    refine TakesClaim.unique hdistinct ht hu htakes hutakes ?_
    obtain ⟨r, hr, hheld⟩ := hc
    obtain ⟨r₁, h₁, hheld₁⟩ := hd
    obtain rfl := Option.eq_some_unique h₁ hr
    exact Option.eq_some_unique hheld.2 hheld₁.2
  · intro p claim r hp hheld hr
    obtain ⟨-, hclean⟩ := (FencedReached.owned ⟨world, hrun⟩ hdistinct hp).since hheld
    obtain ⟨r₁, h₁, hheld₁⟩ := hheld
    obtain rfl := Option.eq_some_unique h₁ hr
    rw [hr]
    exact (hclean r₁ hr).closed hheld₁

/-- Number operations as their times. -/
def fencedTimed (ops : List FencedOp) : List FencedAction := ops.mapIdx fun i op => ⟨i+1, op⟩

def runFenced (ops : List FencedOp) : Option State :=
  exec (fencedStep sampleConfig) (initial sampleWorld) (fencedTimed ops)

def fencedTrace (ops : List FencedOp) : FencedTrace :=
  execTrace (fencedStep sampleConfig) (initial sampleWorld) (fencedTimed ops)

/-- An executed list of operations is a run with the reconciler. -/
theorem fenced_of_runFenced (ops : List FencedOp) (P : State → Prop) [DecidablePred P]
    (hp : (runFenced ops).any (fun s => decide (P s)) = true) :
    ∃ s, FencedReached sampleConfig (fun _ _ => True) (fencedTrace ops) s ∧ P s := by
  obtain ⟨s, hrun, hs⟩ := Run.exists_of_exec (fun _ _ => trivial) (fencedTimed ops) P hp
  exact ⟨s, ⟨sampleWorld, hrun⟩, hs⟩

/-- An edit loses its claim to the reconciler, a second edit takes one, and the
first comes back from git. -/
def supersededOps : List FencedOp :=
  [.call (.create "t1" samplePayload "author" firstSha 99),
   .call (.deliver 0 (.receive firstFailure false)), .call (.deliver 0 (.recordFailure none)),
   .call (.edit 0 (.claim "t1" samplePayload "author" 199 none)), .reconcile,
   .call (.edit 1 (.claim "t1" samplePayload "author" 299 none)),
   .call (.edit 0 (.commit secondSha)), .call (.edit 0 (.finish none))]

theorem edits_fenced_sample : ∃ tr s,
    FencedReached sampleConfig (fun _ _ => True) tr s ∧ DistinctDeadlines tr ∧ SoundFence tr s := by
  obtain ⟨s, hreach, -⟩ := fenced_of_runFenced supersededOps
    (fun s => ∃ r ∈ s.record, r.automation.buildLockDeadline = some 299) (by decide +kernel)
  have hdistinct : DistinctDeadlines (fencedTrace supersededOps) := by
    unfold DistinctDeadlines
    decide +kernel
  exact ⟨_, s, hreach, hdistinct, edits_fenced hreach hdistinct⟩

end KeepAutomation
