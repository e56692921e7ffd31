import KeepAutomation.ReconciledEdits

/-! What a failed edit leaves behind. The release is wired to the git call alone,
so an edit that fails later, with its claim still on the row, strands the claim. -/
namespace KeepAutomation

open TransitionSystem

/-- A releasing transaction was attempted and failed. -/
def ReleaseFailed (p : ℕ) (t : Transition State FencedAction) : Prop :=
  ∃ fault, t.act.op.ofEdit p = some (.release (some fault))

/-- The build columns are those of the row the claim was taken on. -/
def Restores (t₀ t : Transition State FencedAction) : Prop :=
  ∀ r₀ r, t₀.pre.record = some r₀ → t.post.record = some r →
    r.automation.buildState = r₀.automation.buildState ∧
      r.automation.buildingSha = r₀.automation.buildingSha

/-- What an edit that raises in `t`, after the transitions `tr`, has left: nothing
of its definition, and unless its release failed, no claim. A claim that is off
the row already is another actor's business. -/
def LeavesNothing (p : ℕ) (tr : FencedTrace) (t : Transition State FencedAction) : Prop :=
  (∀ u ∈ t :: tr, u.act.op.ofEdit p ≠ none → Undefined u) ∧
    ∀ t₀ ∈ t :: tr, ∀ claim, TakesClaim p claim t₀ → ReleaseFailed p t ∨
      (¬claim.heldIn t.post ∧ (claim.heldIn t.pre → Restores t₀ t))

/-- Transaction 1 goes through. -/
def Admits (cfg : Config) (tenantId : String) (data : AutomationIn) (record : Option Record) : Prop :=
  cfg.validateAutomation data = [] ∧ ∃ r, record = some r ∧ r.automation.tenantId = tenantId ∧
    r.automation.matchingState ∉ deletionStates ∧ r.automation.buildState ≠ .building ∧
    (r.automation.cappDeploymentId = none ∨ data.nameSpace = r.automation.nameSpace)

/-- The call fails where nothing releases: in or behind its second transaction
with the claim on the row, or behind the commit of its first one. -/
def StrandsClaim (cfg : Config) (p : ℕ) (t : Transition State FencedAction) : Prop :=
  (∃ claim tenantId data actor gitSha,
    t.pre.edits p = .finishing claim tenantId data actor gitSha ∧ claim.heldIn t.pre ∧
      t.act.op ≠ .call (.edit p (.finish none))) ∨
    ∃ tenantId data actor deadline, t.act.op = .lost p (.claim tenantId data actor deadline none) ∧
      Admits cfg tenantId data t.pre.record

def Edit.ended : Edit → Bool
  | .returned | .raised _ | .crashed => true
  | _ => false

/-- The tenant of a claimed edit. -/
def Edit.tenant? : Edit → Option String
  | .committing _ tenantId _ _ | .finishing _ tenantId _ _ _ => some tenantId
  | _ => none

theorem FencedRow.tenantId {s : State} {now : Timestamp} {r r' : Record} {op : FencedOp}
    (h : FencedRow s now r op r') : r'.automation.tenantId = r.automation.tenantId := by
  cases h with
  | call hm => exact hm.tenantId
  | lost hm => exact hm.tenantId
  | reconciled => rfl
  | settled => rfl

/-- What is known of an edit that has not ended: its claim is the only one it has
taken, on the row of its tenant, and it has defined nothing. -/
structure Pending (p : ℕ) (tr : FencedTrace) (s : State) : Prop where
  taken : ∀ claim, (s.edits p).claim? = some claim → ∃ t ∈ tr, TakesClaim p claim t
  only : ∀ t ∈ tr, ∀ claim, TakesClaim p claim t → (s.edits p).claim? = some claim
  tenant : ∀ tenantId, (s.edits p).tenant? = some tenantId →
    ∃ r, s.record = some r ∧ r.automation.tenantId = tenantId
  undefined : ∀ t ∈ tr, t.act.op.ofEdit p ≠ none → Undefined t

theorem TakesClaim.own {p : ℕ} {claim : BuildClaim} {t : Transition State FencedAction}
    (h : TakesClaim p claim t) :
    ∃ tenantId data actor deadline fault,
      t.act.op.ofEdit p = some (.claim tenantId data actor deadline fault) := by
  obtain ⟨tenantId, data, actor, fault, r, hop, -⟩ := h
  exact ⟨tenantId, data, actor, _, fault, hop⟩

theorem Undefined.of_same {t : Transition State FencedAction} (h : t.post.record = t.pre.record) :
    Undefined t := by
  unfold Undefined
  rw [h]

theorem Edit.ended_lost {e : Edit} (h : e.lost.ended = false) : e.lost = e ∧ e.ended = false := by
  cases e with
  | committing => simp [Edit.lost, Edit.ended] at h
  | returned => simp [Edit.lost, Edit.ended] at h
  | _ => exact ⟨rfl, h⟩

section PendingStep

variable {cfg : Config} {tr : FencedTrace} {s s' : State} {a : FencedAction} {p : ℕ}

/-- A step that takes no claim and defines nothing keeps what is known. -/
theorem Pending.carry (hs : Pending p tr s) (h : fencedStep cfg s a = some s')
    (hclaim : (s'.edits p).claim? = (s.edits p).claim?)
    (htenant : (s'.edits p).tenant? = (s.edits p).tenant? ∨ (s'.edits p).tenant? = none)
    (htakes : ∀ claim, ¬TakesClaim p claim ⟨s, a, s'⟩)
    (hdefines : a.op.ofEdit p ≠ none → Undefined ⟨s, a, s'⟩) : Pending p (⟨s, a, s'⟩ :: tr) s' := by
  refine ⟨?_, ?_, ?_, ?_⟩
  · intro claim hc
    obtain ⟨t, ht, htaken⟩ := hs.taken claim (hclaim ▸ hc)
    exact ⟨t, List.mem_cons_of_mem _ ht, htaken⟩
  · intro t ht claim htaken
    rcases List.mem_cons.mp ht with rfl | ht
    · exact absurd htaken (htakes claim)
    · exact hclaim.trans (hs.only t ht claim htaken)
  · intro tenantId ht
    rcases htenant with hsame | hnone
    · obtain ⟨r, hr, htenant⟩ := hs.tenant tenantId (hsame ▸ ht)
      obtain ⟨r', hr', hm⟩ := fencedStep_row h hr
      exact ⟨r', hr', hm.tenantId.trans htenant⟩
    · rw [hnone] at ht
      simp at ht
  · intro t ht hown
    rcases List.mem_cons.mp ht with rfl | ht
    · exact hdefines hown
    · exact hs.undefined t ht hown

/-- The claim of an idle edit is the first it takes. -/
theorem Pending.claimed {tenantId actor : String} {data : AutomationIn} {deadline : Timestamp} {r : Record}
    (hs : Pending p tr s) (hidle : s.edits p = .idle)
    (hop : a.op.ofEdit p = some (.claim tenantId data actor deadline none)) (hr : s.record = some r)
    (htenant : r.automation.tenantId = tenantId) (hlive : r.automation.matchingState ∉ deletionStates)
    (hbuild : r.automation.buildState ≠ .building) (hr' : s'.record = some (r.claimed deadline))
    (hpost : s'.edits p = .committing (r.claim deadline) tenantId data actor) :
    Pending p (⟨s, a, s'⟩ :: tr) s' := by
  have htakes : TakesClaim p (r.claim deadline) ⟨s, a, s'⟩ :=
    ⟨tenantId, data, actor, none, r, hop, hr, rfl, hlive, hbuild, hr'⟩
  refine ⟨?_, ?_, ?_, ?_⟩
  · intro claim hc
    rw [hpost] at hc
    obtain rfl := Option.some.inj hc
    exact ⟨_, List.mem_cons_self, htakes⟩
  · intro t ht claim htaken
    rcases List.mem_cons.mp ht with rfl | ht
    · obtain ⟨_, _, _, _, r₁, hop₁, h₁, hclaim, -⟩ := htaken
      obtain rfl := Option.eq_some_unique h₁ hr
      have hdeadline : deadline = claim.deadline := by
        injection Option.eq_some_unique hop hop₁
      rw [hpost, hclaim, ← hdeadline]
      rfl
    -- an idle edit has taken no claim before
    · have hnone := hs.only t ht claim htaken
      rw [hidle] at hnone
      simp [Edit.claim?] at hnone
  · intro tenant ht
    rw [hpost] at ht
    obtain rfl := Option.some.inj ht
    exact ⟨_, hr', htenant⟩
  · intro t ht hown
    rcases List.mem_cons.mp ht with rfl | ht
    · change s'.record.map _ = s.record.map _
      rw [hr, hr']
      rfl
    · exact hs.undefined t ht hown

/-- The step lemma of a pending edit. -/
theorem Pending.step (h : fencedStep cfg s a = some s') (hs : (s.edits p).ended = false → Pending p tr s)
    (hp : (s'.edits p).ended = false) : Pending p (⟨s, a, s'⟩ :: tr) s' := by
  rcases fencedStep_edit h p with ⟨hother, hsame⟩ | ⟨o, e, ho, hm, he⟩
  · refine (hs (hsame ▸ hp)).carry h (by rw [hsame]) (Or.inl (by rw [hsame])) ?_ ?_
    · intro claim htakes
      obtain ⟨_, _, _, _, _, hown⟩ := htakes.own
      rw [hother] at hown
      simp at hown
    · exact fun hown => absurd hother hown
  · -- the call goes on, so its transaction was acknowledged
    have hpost : s'.edits p = e ∧ e.ended = false := by
      rcases he with ⟨-, he⟩ | ⟨-, he⟩
      · exact ⟨he, he ▸ hp⟩
      · obtain ⟨hsame, hended⟩ := Edit.ended_lost (he ▸ hp)
        exact ⟨he.trans hsame, hended⟩
    obtain ⟨hpost, hended⟩ := hpost
    generalize hbefore : s.edits p = e₀ at hm
    generalize hsh : s'.toShared = sh at hm
    have notClaim (hnot : ∀ tenantId data actor deadline fault,
        o ≠ .claim tenantId data actor deadline fault) (claim : BuildClaim) :
        ¬TakesClaim p claim ⟨s, a, s'⟩ := by
      intro htakes
      obtain ⟨_, _, _, _, _, hown⟩ := htakes.own
      exact hnot _ _ _ _ _ (Option.eq_some_unique ho hown)
    cases hm with
    | @claimed tenantId data actor deadline r hr _ htenant hlive hbuild =>
      have hidle := hs (by rw [hbefore]; rfl)
      exact hidle.claimed hbefore ho hr htenant hlive hbuild (congrArg Shared.record hsh) hpost
    | committed =>
      have hsame := congrArg Shared.record hsh
      exact (hs (by rw [hbefore]; rfl)).carry h (by rw [hpost, hbefore]; rfl)
        (Or.inl (by rw [hpost, hbefore]; rfl)) (notClaim (by simp)) fun _ => .of_same hsame
    | commitFailed =>
      have hsame := congrArg Shared.record hsh
      exact (hs (by rw [hbefore]; rfl)).carry h (by rw [hpost, hbefore]; rfl)
        (Or.inr (by rw [hpost]; rfl)) (notClaim (by simp)) fun _ => .of_same hsame
    -- every other move ends the call
    | _ => simp [Edit.ended] at hended

end PendingStep

theorem FencedReached.pending {cfg : Config} {E : State → FencedAction → Prop} {tr : FencedTrace}
    {s : State} (h : FencedReached cfg E tr s) {p : ℕ} (hp : (s.edits p).ended = false) :
    Pending p tr s := by
  obtain ⟨world, hrun⟩ := h
  refine hrun.history (P := fun tr s => (s.edits p).ended = false → Pending p tr s) ?_ ?_ hp
  · intro _
    exact ⟨by simp [initial, Edit.claim?], by simp, by simp [initial, Edit.tenant?], by simp⟩
  · intro tr s a s' _ ih _ hstep hp
    exact Pending.step hstep ih hp

/-- Transaction 1 is exact: an admitted claim is committed. -/
theorem fencedStep_claim {cfg : Config} {s s' : State} {a : FencedAction} {p : ℕ} {tenantId : String}
    {data : AutomationIn} {actor : String} {deadline : Timestamp}
    (h : fencedStep cfg s a = some s') (hidle : s.edits p = .idle)
    (hop : a.op.ofEdit p = some (.claim tenantId data actor deadline none))
    (hadmits : Admits cfg tenantId data s.record) :
    ∃ r, s.record = some r ∧ s'.record = some (r.claimed deadline) ∧
      TakesClaim p (r.claim deadline) ⟨s, a, s'⟩ := by
  obtain ⟨hvalid, r, hr, htenant, hlive, hbuild, hwallet⟩ := hadmits
  have hclaim : claimBuild tenantId data deadline s.record = .ok (r.claim deadline, r.claimed deadline) := by
    simp only [claimBuild, scopedGet, hr, htenant, checkWalletUnchanged, if_true, if_neg hlive,
      if_neg hbuild, if_pos hwallet]
  have hstep {now : Timestamp} {s₁ : State}
      (h₁ : step cfg s ⟨now, .edit p (.claim tenantId data actor deadline none)⟩ = some s₁) :
      s₁.record = some (r.claimed deadline) := by
    simp only [step, apply, hidle, Edit.step, hvalid, hclaim] at h₁
    split at h₁
    · obtain rfl := Option.some.inj h₁
      rfl
    · simp at h₁
  have hr' : s'.record = some (r.claimed deadline) := by
    rcases FencedOp.of_ofEdit hop with hcall | hlost
    · obtain ⟨now, op⟩ := a
      obtain rfl : op = _ := hcall
      exact hstep h
    · obtain ⟨now, op⟩ := a
      obtain rfl : op = _ := hlost
      obtain ⟨-, s₁, h₁, rfl⟩ := fencedStep_lost h
      change s₁.record = _
      exact hstep h₁
  exact ⟨r, hr, hr', tenantId, data, actor, none, r, hop, hr, rfl, hlive, hbuild, hr'⟩

/-- Transaction 2 is exact: a finish that meets no fault under its claim returns. -/
theorem fencedStep_finish {cfg : Config} {s s' : State} {now : Timestamp} {p : ℕ} {claim : BuildClaim}
    {tenantId : String} {data : AutomationIn} {actor gitSha : String} {r : Record}
    (h : fencedStep cfg s ⟨now, .call (.edit p (.finish none))⟩ = some s')
    (hp : s.edits p = .finishing claim tenantId data actor gitSha) (hr : s.record = some r)
    (htenant : r.automation.tenantId = tenantId) (hheld : claim.held r.automation) :
    s'.edits p = .returned := by
  simp only [fencedStep, step, apply, hp, Edit.step, finishUpdate, scopedGet, hr, htenant, if_true,
    if_pos hheld] at h
  split at h
  · obtain rfl := Option.some.inj h
    exact Function.update_self _ _ _
  · simp at h

/-- A held claim that is released is off the row, and the row is what it was. -/
theorem heldIn_released {claim : BuildClaim} {s s' : State} {t₀ : Transition State FencedAction} {p : ℕ}
    {a : FencedAction} (htakes : TakesClaim p claim t₀)
    (hrec : s'.record = s.record.map (releaseBuildClaim claim)) :
    ¬claim.heldIn s' ∧ (claim.heldIn s → Restores t₀ ⟨s, a, s'⟩) := by
  refine ⟨?_, ?_⟩
  · rintro ⟨r', hr', hheld⟩
    obtain ⟨r, hr, rfl⟩ := Option.map_eq_some_iff.mp (hrec.symm.trans hr')
    by_cases hbefore : claim.held r.automation
    · rw [releaseBuildClaim_held hbefore] at hheld
      exact htakes.previous hheld.1
    · rw [releaseBuildClaim, if_neg hbefore] at hheld
      exact hbefore hheld
  · rintro ⟨r, hr, hheld⟩ r₀ r' hr₀ hr'
    obtain ⟨_, _, _, _, r₁, -, h₁, hclaim, -⟩ := htakes
    obtain rfl := Option.eq_some_unique hr₀ h₁
    have hafter : r' = releaseBuildClaim claim r := by
      have hmapped := hrec.symm.trans hr'
      rw [hr, Option.map_some, Option.some.injEq] at hmapped
      exact hmapped.symm
    rw [hafter, releaseBuildClaim_held hheld]
    rw [hclaim]
    exact ⟨rfl, rfl⟩

/-- The steps in which an edit raises. -/
inductive Raises (cfg : Config) (p : ℕ) (s : State) (a : FencedAction) (s' : State) : EditOp → Prop
  | refused {tenantId data actor deadline fault} (hp : s.edits p = .idle)
      (hsame : s'.record = s.record) :
      Raises cfg p s a s' (.claim tenantId data actor deadline fault)
  | claimLost {tenantId data actor deadline} (hp : s.edits p = .idle)
      (hop : a.op = .lost p (.claim tenantId data actor deadline none))
      (hadmits : Admits cfg tenantId data s.record) :
      Raises cfg p s a s' (.claim tenantId data actor deadline none)
  | released {claim} (hp : s.edits p = .releasing claim)
      (hrec : s'.record = s.record.map (releaseBuildClaim claim)) :
      Raises cfg p s a s' (.release none)
  | releaseFailed {claim fault} (hp : s.edits p = .releasing claim) (hsame : s'.record = s.record) :
      Raises cfg p s a s' (.release (some fault))
  | finishLost {claim tenantId data actor gitSha r}
      (hp : s.edits p = .finishing claim tenantId data actor gitSha)
      (hop : a.op = .lost p (.finish none)) (hr : s.record = some r) (hheld : claim.held r.automation)
      (hr' : s'.record = some (r.edited data actor gitSha a.now)) :
      Raises cfg p s a s' (.finish none)
  | finishFailed {claim tenantId data actor gitSha fault}
      (hp : s.edits p = .finishing claim tenantId data actor gitSha) (hsame : s'.record = s.record) :
      Raises cfg p s a s' (.finish fault)

theorem fencedStep_raises {cfg : Config} {s s' : State} {a : FencedAction} {p : ℕ} {o : EditOp}
    {error : Error} (h : fencedStep cfg s a = some s') (ho : a.op.ofEdit p = some o)
    (hraised : s'.edits p = .raised error) : Raises cfg p s a s' o := by
  rcases fencedStep_edit h p with ⟨hnone, -⟩ | ⟨o', e, ho', hm, he⟩
  · rw [hnone] at ho
    simp at ho
  obtain rfl := Option.eq_some_unique ho ho'
  -- what the call would have gone on to is lost with the acknowledgement
  have lost (he₀ : e ≠ .raised error) : a.op = .lost p o ∧ s'.edits p = e.lost := by
    rcases he with ⟨-, he⟩ | hlost
    · exact absurd (he.symm.trans hraised) he₀
    · exact hlost
  generalize hedit : s.edits p = e₀ at hm
  generalize hsh : s'.toShared = sh at hm
  have hrec : s'.record = sh.record := by rw [hsh]
  cases hm with
  | refused => exact .refused hedit hrec
  | claimed r hr hvalid htenant hlive hbuild hwallet =>
    exact .claimLost hedit (lost (by simp)).1 ⟨hvalid, r, hr, htenant, hlive, hbuild, hwallet⟩
  | released => exact .released hedit hrec
  | releaseFailed => exact .releaseFailed hedit hrec
  | finished r hr htenant hheld => exact .finishLost hedit (lost (by simp)).1 hr hheld hrec
  | notFinished => exact .finishFailed hedit hrec
  | committed =>
    have hend := (lost (by simp)).2
    rw [hraised] at hend
    simp [Edit.lost] at hend
  | commitFailed =>
    have hend := (lost (by simp)).2
    rw [hraised] at hend
    simp [Edit.lost] at hend
  | crashed =>
    have hend := (lost (by simp)).2
    rw [hraised] at hend
    simp [Edit.lost] at hend

section Raised

variable {cfg : Config} {tr : FencedTrace} {s s' : State} {a : FencedAction} {p : ℕ} {o : EditOp}

/-- Only a claiming step takes a claim. -/
theorem not_takesClaim (ho : a.op.ofEdit p = some o)
    (hnot : ∀ tenantId data actor deadline fault, o ≠ .claim tenantId data actor deadline fault)
    (claim : BuildClaim) : ¬TakesClaim p claim ⟨s, a, s'⟩ := by
  intro htakes
  obtain ⟨_, _, _, _, _, hclaims⟩ := htakes.own
  exact hnot _ _ _ _ _ (Option.eq_some_unique ho hclaims)

/-- Every claim of the call is the one it holds. -/
theorem Pending.claim_eq (h : Pending p tr s) {claim d : BuildClaim}
    (hp : (s.edits p).claim? = some claim) (hnot : ∀ d, ¬TakesClaim p d ⟨s, a, s'⟩)
    {t₀ : Transition State FencedAction} (ht₀ : t₀ ∈ ⟨s, a, s'⟩ :: tr) (htakes : TakesClaim p d t₀) :
    d = claim := by
  rcases List.mem_cons.mp ht₀ with rfl | ht₀
  · exact absurd htakes (hnot d)
  · exact Option.some.inj ((h.only t₀ ht₀ d htakes).symm.trans hp)

theorem Pending.undefined_snoc (h : Pending p tr s) (hlast : Undefined ⟨s, a, s'⟩) :
    ∀ u ∈ ⟨s, a, s'⟩ :: tr, u.act.op.ofEdit p ≠ none → Undefined u := by
  intro u hu hmoved
  rcases List.mem_cons.mp hu with rfl | hu
  · exact hlast
  · exact h.undefined u hu hmoved

/-- A release strands no claim. -/
theorem not_strandsClaim {claim : BuildClaim} (ho : a.op.ofEdit p = some o)
    (hp : s.edits p = .releasing claim)
    (hnot : ∀ tenantId data actor deadline fault, o ≠ .claim tenantId data actor deadline fault) :
    ¬StrandsClaim cfg p ⟨s, a, s'⟩ := by
  rintro (⟨_, _, _, _, _, hfinishing, -⟩ | ⟨_, _, _, _, hop, -⟩)
  · exact absurd (hp.symm.trans hfinishing) (by simp)
  · change a.op = _ at hop
    rw [hop] at ho
    exact hnot _ _ _ _ _ (Option.some.inj (ho.symm.trans (if_pos rfl)))

theorem releaseBuildClaim_undefined {claim : BuildClaim}
    (hrec : s'.record = s.record.map (releaseBuildClaim claim)) : Undefined ⟨s, a, s'⟩ := by
  change s'.record.map _ = s.record.map _
  rw [hrec, Option.map_map]
  refine congrArg (fun f => s.record.map f) (funext fun r => ?_)
  obtain ⟨_, _, _, hframe⟩ := releaseBuildClaim_frame claim r
  simp only [Function.comp_apply, hframe]
  rfl

/-- A refused call has taken no claim. -/
theorem leaves_of_refused (hpending : Pending p tr s) (hstep : fencedStep cfg s a = some s')
    (hp : s.edits p = .idle) (hsame : s'.record = s.record) :
    LeavesNothing p tr ⟨s, a, s'⟩ ∧ ¬StrandsClaim cfg p ⟨s, a, s'⟩ := by
  have hnone (claim : BuildClaim) : ¬TakesClaim p claim ⟨s, a, s'⟩ := by
    rintro ⟨_, _, _, _, r, -, hr, -, -, hbuild, hr'⟩
    have hrow := (hr'.symm.trans hsame).trans hr
    rw [Option.some.injEq] at hrow
    exact hbuild (congrArg (fun r => r.automation.buildState) hrow).symm
  refine ⟨⟨hpending.undefined_snoc (.of_same hsame), ?_⟩, ?_⟩
  · intro t₀ ht₀ claim htakes
    rcases List.mem_cons.mp ht₀ with rfl | ht₀
    · exact absurd htakes (hnone claim)
    · have hclaim := hpending.only t₀ ht₀ claim htakes
      rw [hp] at hclaim
      simp [Edit.claim?] at hclaim
  · rintro (⟨_, _, _, _, _, hfinishing, -⟩ | ⟨tenantId, data, actor, deadline, hop, hadmits⟩)
    · exact absurd (hp.symm.trans hfinishing) (by simp)
    · have hclaims : a.op.ofEdit p = some (.claim tenantId data actor deadline none) := by
        change a.op = _ at hop
        rw [hop]
        exact if_pos rfl
      obtain ⟨r, -, -, htakes⟩ := fencedStep_claim hstep hp hclaims hadmits
      exact hnone _ htakes

/-- A finish that writes nothing leaves nothing, unless the claim is still on the row. -/
theorem leaves_of_finishFailed {claim : BuildClaim} {tenantId : String} {data : AutomationIn}
    {actor gitSha : String} {fault : Option DbFault} {error : Error} (hpending : Pending p tr s)
    (hstep : fencedStep cfg s a = some s') (hraised : s'.edits p = .raised error)
    (hp : s.edits p = .finishing claim tenantId data actor gitSha) (hsame : s'.record = s.record)
    (ho : a.op.ofEdit p = some (.finish fault)) :
    LeavesNothing p tr ⟨s, a, s'⟩ ↔ ¬StrandsClaim cfg p ⟨s, a, s'⟩ := by
  constructor
  · rintro ⟨-, hleft⟩ (⟨d, _, _, _, _, hfinishing, hheld, -⟩ | ⟨_, _, _, _, hop, -⟩)
    · obtain ⟨rfl, -⟩ := Edit.finishing.inj (hp.symm.trans hfinishing)
      obtain ⟨t₀, ht₀, htakes⟩ := hpending.taken claim (by rw [hp]; rfl)
      rcases hleft t₀ (List.mem_cons_of_mem _ ht₀) claim htakes with ⟨_, hrelease⟩ | ⟨hgone, -⟩
      · exact absurd (ho.symm.trans hrelease) (by simp)
      · obtain ⟨r, hr, hheld⟩ := hheld
        exact hgone ⟨r, hsame.trans hr, hheld⟩
    · change a.op = _ at hop
      rw [hop] at ho
      simp [FencedOp.ofEdit] at ho
  · intro hnot
    -- with the claim on the row, a finish without a fault would have returned
    have hfree : ¬claim.heldIn s := by
      rintro ⟨r, hr, hheld⟩
      by_cases hop : a.op = .call (.edit p (.finish none))
      · obtain ⟨r₁, h₁, htenant⟩ := hpending.tenant tenantId (by rw [hp]; rfl)
        obtain rfl := Option.eq_some_unique h₁ hr
        obtain ⟨now, op⟩ := a
        obtain rfl : op = _ := hop
        have hreturned := fencedStep_finish hstep hp hr htenant hheld
        exact absurd (hraised.symm.trans hreturned) (by simp)
      · exact hnot (Or.inl ⟨claim, tenantId, data, actor, gitSha, hp, ⟨r, hr, hheld⟩, hop⟩)
    refine ⟨hpending.undefined_snoc (.of_same hsame), ?_⟩
    intro t₀ ht₀ d htakes
    obtain rfl := hpending.claim_eq (by rw [hp]; rfl) (not_takesClaim ho (by simp)) ht₀ htakes
    refine Or.inr ⟨?_, fun hheld => absurd hheld hfree⟩
    rintro ⟨r, hr, hheld⟩
    exact hfree ⟨r, hsame.symm.trans hr, hheld⟩

end Raised

/-- A failed edit leaves nothing behind, exactly when it does not fail where
nothing releases. -/
theorem failed_edit_leaves_nothing {cfg : Config} {E : State → FencedAction → Prop} {tr : FencedTrace}
    {t : Transition State FencedAction} {s : State} {p : ℕ} {error : Error}
    (h : FencedReached cfg E (t :: tr) s) (hown : t.act.op.ofEdit p ≠ none)
    (hraised : t.post.edits p = .raised error) :
    LeavesNothing p tr t ↔ ¬StrandsClaim cfg p t := by
  obtain ⟨world, hrun⟩ := h
  have hbefore := (Run.split (show Run _ _ _ ([] ++ t :: tr) s from hrun)).1
  obtain ⟨-, hstep, -⟩ := hrun.transition List.mem_cons_self
  obtain ⟨s, a, s'⟩ := t
  obtain ⟨o, ho⟩ := Option.ne_none_iff_exists'.mp hown
  have hpending (hend : (s.edits p).ended = false) : Pending p tr s :=
    FencedReached.pending ⟨world, hbefore⟩ hend
  have hraises := fencedStep_raises hstep ho hraised
  cases hraises with
  | refused hp hsame =>
    obtain ⟨hleaves, hnot⟩ := leaves_of_refused (hpending (by rw [hp]; rfl)) hstep hp hsame
    exact iff_of_true hleaves hnot
  | @claimLost tenantId data actor deadline hp hop hadmits =>
    refine iff_of_false ?_ (fun hnot => hnot (Or.inr ⟨tenantId, data, actor, deadline, hop, hadmits⟩))
    rintro ⟨-, hleft⟩
    obtain ⟨r, -, hr', htakes⟩ := fencedStep_claim hstep hp ho hadmits
    rcases hleft _ List.mem_cons_self _ htakes with ⟨_, hrelease⟩ | ⟨hgone, -⟩
    · exact absurd (ho.symm.trans hrelease) (by simp)
    · exact hgone ⟨_, hr', rfl, rfl⟩
  | released hp hrec =>
    have hpend := hpending (by rw [hp]; rfl)
    refine iff_of_true ⟨hpend.undefined_snoc (releaseBuildClaim_undefined hrec), ?_⟩
      (not_strandsClaim ho hp (by simp))
    intro t₀ ht₀ d htakes
    obtain rfl := hpend.claim_eq (by rw [hp]; rfl) (not_takesClaim ho (by simp)) ht₀ htakes
    exact Or.inr (heldIn_released htakes hrec)
  | @releaseFailed claim fault hp hsame =>
    refine iff_of_true ⟨(hpending (by rw [hp]; rfl)).undefined_snoc (.of_same hsame), ?_⟩
      (not_strandsClaim ho hp (by simp))
    exact fun _ _ _ _ => Or.inl ⟨fault, ho⟩
  | @finishLost claim tenantId data actor gitSha r hp hop hr hheld hr' =>
    refine iff_of_false ?_ (fun hnot => hnot (Or.inl ⟨claim, tenantId, data, actor, gitSha, hp,
      ⟨r, hr, hheld⟩, fun hcall => absurd (hop.symm.trans hcall) (by simp)⟩))
    rintro ⟨-, hleft⟩
    obtain ⟨t₀, ht₀, htakes⟩ := (hpending (by rw [hp]; rfl)).taken claim (by rw [hp]; rfl)
    rcases hleft t₀ (List.mem_cons_of_mem _ ht₀) claim htakes with ⟨_, hrelease⟩ | ⟨hgone, -⟩
    · exact absurd (ho.symm.trans hrelease) (by simp)
    · exact hgone ⟨_, hr', hheld⟩
  | finishFailed hp hsame =>
    exact leaves_of_finishFailed (hpending (by rw [hp]; rfl)) hstep hraised hp hsame ho

/-- The error an edit has raised. -/
def Edit.error? : Edit → Option Error
  | .raised error => some error
  | _ => none

theorem Edit.eq_raised {e : Edit} {error : Error} (h : e.error? = some error) : e = .raised error := by
  cases e with
  | raised error' => rw [Option.some.inj h]
  | _ => simp [Edit.error?] at h

/-- Create, fail the build, and take the claim of an edit. -/
def claimedOps : List FencedOp :=
  [.call (.create "t1" samplePayload "author" firstSha 99),
   .call (.deliver 0 (.receive firstFailure false)), .call (.deliver 0 (.recordFailure none)),
   .call (.edit 0 (.claim "t1" samplePayload "author" 199 none))]

/-- An executed list of operations and one more that raises in edit 0. -/
theorem raised_of_runFenced (ops : List FencedOp) (op : FencedOp) (error : Error) (P : State → State → Prop)
    [∀ s s', Decidable (P s s')]
    (hp : (runFenced ops).any (fun s => (fencedStep sampleConfig s ⟨ops.length+1, op⟩).any fun s' =>
      decide ((s'.edits 0).error? = some error ∧ P s s')) = true) :
    ∃ tr s s', FencedReached sampleConfig (fun _ _ => True) tr s ∧
      FencedReached sampleConfig (fun _ _ => True) (⟨s, ⟨ops.length+1, op⟩, s'⟩ :: tr) s' ∧
      s'.edits 0 = .raised error ∧ P s s' := by
  obtain ⟨s, ⟨world, hrun⟩, hlast⟩ := fenced_of_runFenced ops (fun s =>
    (fencedStep sampleConfig s ⟨ops.length+1, op⟩).any (fun s' =>
      decide ((s'.edits 0).error? = some error ∧ P s s')) = true) (by simpa using hp)
  obtain ⟨s', hstep, hpost⟩ := (Option.any_eq_true _ _).mp hlast
  obtain ⟨herror, hholds⟩ := of_decide_eq_true hpost
  exact ⟨_, s, s', ⟨world, hrun⟩, ⟨world, .snoc hrun trivial hstep⟩, Edit.eq_raised herror, hholds⟩

theorem failed_edit_leaves_nothing_sample : ∃ tr t s,
    FencedReached sampleConfig (fun _ _ => True) (t :: tr) s ∧
      t.act.op = .call (.edit 0 (.release none)) ∧ t.post.edits 0 = .raised .scriptRepoUnavailableError ∧
      LeavesNothing 0 tr t := by
  obtain ⟨tr, s, s', -, hreach, hraised, htenant⟩ :=
    raised_of_runFenced (claimedOps ++ [.call (.edit 0 .commitFails)]) (.call (.edit 0 (.release none)))
      .scriptRepoUnavailableError (fun s _ => (s.edits 0).tenant? = none) (by decide +kernel)
  refine ⟨tr, _, s', hreach, rfl, hraised,
    (failed_edit_leaves_nothing hreach (by simp [FencedOp.ofEdit]) hraised).mpr ?_⟩
  -- the edit stands at its release, not at the finish
  rintro (⟨_, _, _, _, _, hfinishing, -⟩ | ⟨_, _, _, _, hlost, -⟩)
  · rw [show s.edits 0 = _ from hfinishing] at htenant
    simp [Edit.tenant?] at htenant
  · simp at hlost

/-- The row is locked by someone else when the edit comes back from git: the call
answers "retry", and its own claim turns every retry away. -/
theorem failed_edit_strands_claim : ∃ tr t s,
    FencedReached sampleConfig (fun _ _ => True) (t :: tr) s ∧
      t.act.op = .call (.edit 0 (.finish (some .busy))) ∧ t.post = s ∧
      s.edits 0 = .raised .automationBusyError ∧ ¬LeavesNothing 0 tr t ∧
      ∀ deadline, claimBuild "t1" samplePayload deadline s.record = .error .automationBuildingError := by
  obtain ⟨tr, s, s', hbefore, hreach, hraised, hended, hheld, hrow⟩ :=
    raised_of_runFenced (claimedOps ++ [.call (.edit 0 (.commit secondSha))])
      (.call (.edit 0 (.finish (some .busy)))) .automationBusyError
      (fun s s' => (s.edits 0).ended = false ∧
        ((s.edits 0).claim?.any fun c => s'.record.any fun r => c.held r.automation) = true ∧
        (s'.record.any fun r => r.automation.tenantId = "t1" ∧
          r.automation.matchingState = .inactive ∧ r.automation.buildState = .building) = true)
      (by decide +kernel)
  refine ⟨tr, _, s', hreach, rfl, rfl, hraised, ?_, ?_⟩
  · rintro ⟨-, hleft⟩
    obtain ⟨claim, hclaim, hany⟩ := (Option.any_eq_true _ _).mp hheld
    obtain ⟨r, hr, hheld⟩ := (Option.any_eq_true _ _).mp hany
    obtain ⟨t₀, ht₀, htakes⟩ := (hbefore.pending hended).taken claim hclaim
    rcases hleft t₀ (List.mem_cons_of_mem _ ht₀) claim htakes with ⟨_, hrelease⟩ | ⟨hgone, -⟩
    · simp [FencedOp.ofEdit] at hrelease
    · exact hgone ⟨r, hr, of_decide_eq_true hheld⟩
  · intro deadline
    obtain ⟨r, hr, hfacts⟩ := (Option.any_eq_true _ _).mp hrow
    obtain ⟨htenant, hlive, hbuild⟩ := of_decide_eq_true hfacts
    simp [claimBuild, scopedGet, hr, htenant, hlive, hbuild]

end KeepAutomation
