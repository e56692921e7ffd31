import KeepAutomation.Moves

/-! The invariant the row rests on: the build columns and the checkpoint are
coherent, and an edit between its claim and its finish or release is alone with
the row, which is building without a commit and not deleting. -/
namespace KeepAutomation

open TransitionSystem

/-- The checkpoint a matching state stands at. -/
def StepMatches : MatchingState → Option ℕ → Prop
  | .inactive, k | .active, k => k = none
  | .deleting, k => ∃ n, 1 ≤ n ∧ n ≤ 4 ∧ k = some n
  | .deleted, k => k = some stepDeleted

structure Coherent (a : Automation) : Prop where
  settled : a.buildState ≠ .building → a.buildLockDeadline = none ∧ a.buildingSha = none
  armed : a.buildState = .building → a.buildLockDeadline ≠ none
  notBuilding : a.matchingState ∈ deletionStates → a.buildState ≠ .building
  step : StepMatches a.matchingState a.deleteCascadeStep

/-- The row under a live claim, and what the claim would restore. -/
structure Holds (claim : BuildClaim) (a : Automation) : Prop where
  held : claim.held a
  noSha : a.buildingSha = none
  live : a.matchingState ∉ deletionStates
  previous : claim.previousBuildState ≠ .building
  previousSha : claim.previousBuildingSha = none

structure Fenced (s : State) : Prop where
  coherent : ∀ r, s.record = some r → Coherent r.automation
  holds : ∀ p claim, (s.edits p).claim? = some claim →
    ∃ r, s.record = some r ∧ Holds claim r.automation
  exclusive : ∀ p q c d, (s.edits p).claim? = some c → (s.edits q).claim? = some d → p = q

/-- A live claim is a claim on the row. -/
theorem Fenced.holds_row {s : State} {r : Record} (hs : Fenced s) (hr : s.record = some r) {p : ℕ}
    {claim : BuildClaim} (hp : (s.edits p).claim? = some claim) : Holds claim r.automation := by
  obtain ⟨r₁, h₁, hh⟩ := hs.holds p claim hp
  obtain rfl := Option.eq_some_unique h₁ hr
  exact hh

/-- A held claim leaves room for no second one. -/
theorem Fenced.alone {s : State} (hs : Fenced s) {p q : ℕ} {claim : BuildClaim}
    (hp : (s.edits p).claim? = some claim) (hq : q ≠ p) : (s.edits q).claim? = none := by
  cases hother : (s.edits q).claim? with
  | none => rfl
  | some other => exact absurd (hs.exclusive q p other claim hother hp) hq

theorem Fenced.no_claim_of_none {s : State} (hs : Fenced s) (hnone : s.record = none) (p : ℕ) :
    (s.edits p).claim? = none := by
  cases hp : (s.edits p).claim? with
  | none => rfl
  | some claim =>
    obtain ⟨r, hr, -⟩ := hs.holds p claim hp
    simp [hnone] at hr

/-- A row that is not under a claim: no edit holds one. -/
theorem Fenced.no_claim {s : State} {r : Record} (hs : Fenced s) (hr : s.record = some r)
    (hfree : ∀ claim, ¬Holds claim r.automation) (p : ℕ) : (s.edits p).claim? = none := by
  cases hp : (s.edits p).claim? with
  | none => rfl
  | some claim => exact absurd (hs.holds_row hr hp) (hfree claim)

theorem stepMatches_live {m : MatchingState} {k : Option ℕ} (h : StepMatches m k)
    (hm : m ∉ deletionStates) : k = none := by
  cases m with
  | inactive => exact h
  | active => exact h
  | deleting => simp at hm
  | deleted => simp at hm

/-- What a passed re-check says about the row: it is building this commit, or a
failure of this commit is on it. -/
theorem recheck_none {r : Record} {commitSha : String} (h : recheck r commitSha = none) :
    r.automation.matchingState ∉ deletionStates ∧
      ((r.automation.buildState = .building ∧ r.automation.buildingSha = some commitSha) ∨
       (r.automation.buildState = .buildFailed ∧
          (newestRequest r.revisions).bind AutomationRevision.gitSha = some commitSha)) := by
  unfold recheck at h
  split at h
  · next hraced =>
    obtain ⟨hadm, hfail⟩ := hraced
    unfold admission at hadm
    split at hadm
    · simp at hadm
    · next hlive =>
      unfold failureRaced at hfail
      split at hfail
      · simp at hfail
      · next hstate =>
        exact ⟨hlive, Or.inr ⟨not_ne_iff.mp hstate, of_decide_eq_true hfail⟩⟩
  · unfold admission at h
    split at h
    · simp at h
    · next hlive =>
      split at h
      · simp at h
      · next hbuild =>
        split at h
        · simp at h
        · next hsha => exact ⟨hlive, Or.inl ⟨not_ne_iff.mp hbuild, not_ne_iff.mp hsha⟩⟩

/-- The converse: nothing else can stop a cutover at its re-check. -/
theorem recheck_none_of {r : Record} {commitSha : String}
    (hlive : r.automation.matchingState ∉ deletionStates)
    (h : (r.automation.buildState = .building ∧ r.automation.buildingSha = some commitSha) ∨
      (r.automation.buildState = .buildFailed ∧
        (newestRequest r.revisions).bind AutomationRevision.gitSha = some commitSha)) :
    recheck r commitSha = none := by
  rcases h with ⟨hbuild, hsha⟩ | ⟨hfail, hnewest⟩
  · have hadm : admission r.automation commitSha = none := by
      unfold admission
      rw [if_neg hlive, if_neg (by simp [hbuild]), if_neg (by simp [hsha])]
    unfold recheck
    rw [hadm]
    simp
  · have hadm : admission r.automation commitSha = some .notBuilding := by
      unfold admission
      rw [if_neg hlive, if_pos (by simp [hfail])]
    have hraced : failureRaced r commitSha = true := by
      unfold failureRaced
      rw [if_neg (by simp [hfail])]
      exact decide_eq_true hnewest
    unfold recheck
    rw [if_pos ⟨hadm, hraced⟩]

theorem admission_none {a : Automation} {commitSha : String} (h : admission a commitSha = none) :
    a.matchingState ∉ deletionStates ∧ a.buildState = .building ∧
      a.buildingSha = some commitSha := by
  unfold admission at h
  split at h
  · simp at h
  · next hlive =>
    split at h
    · simp at h
    · next hbuild =>
      split at h
      · simp at h
      · next hsha => exact ⟨hlive, not_ne_iff.mp hbuild, not_ne_iff.mp hsha⟩

theorem recheck_deleting_iff (r : Record) (commitSha : String) :
    recheck r commitSha = some .deleting ↔ r.automation.matchingState ∈ deletionStates := by
  unfold recheck admission
  by_cases hlive : r.automation.matchingState ∈ deletionStates
  · simp [hlive]
  · rw [if_neg hlive]
    refine iff_of_false ?_ hlive
    split
    · simp
    · split
      · simp
      · split <;> simp

/-- A row under a live claim passes no re-check: it is building without a commit. -/
theorem Holds.recheck_ne_none {claim : BuildClaim} {r : Record} {commitSha : String}
    (h : Holds claim r.automation) : recheck r commitSha ≠ none := by
  intro hre
  obtain ⟨-, ⟨-, hsha⟩ | ⟨hfail, -⟩⟩ := recheck_none hre
  · rw [h.noSha] at hsha
    simp at hsha
  · rw [h.held.1] at hfail
    simp at hfail

theorem Holds.admission_ne_none {claim : BuildClaim} {a : Automation} {commitSha : String}
    (h : Holds claim a) : admission a commitSha ≠ none := by
  intro hadm
  obtain ⟨-, -, hsha⟩ := admission_none hadm
  rw [h.noSha] at hsha
  simp at hsha

theorem checkpoint_of_not_deleting {completed : ℕ} {now : Timestamp} {r : Record}
    (h : r.automation.matchingState ≠ .deleting) : checkpoint completed now r = r := by
  unfold checkpoint
  rw [if_neg (fun hm => h hm.1)]

/-- A checkpoint that wins moves the step up by one. -/
theorem checkpoint_cases (completed : ℕ) (now : Timestamp) (r : Record) :
    checkpoint completed now r = r ∨
      (r.automation.matchingState = .deleting ∧
        r.automation.deleteCascadeStep = (if completed-1 = 0 then none else some (completed-1)) ∧
        checkpoint completed now r = { r with automation := { r.automation with
          deleteCascadeStep := some completed
          matchingState := if completed = stepDeleted then .deleted else .deleting
          updatedAt := now } }) := by
  unfold checkpoint
  split
  · next hm =>
    right
    refine ⟨hm.1, hm.2, ?_⟩
    rw [hm.1]
  · exact Or.inl rfl

/-- Won or lost, a checkpoint touches three columns only. -/
theorem checkpoint_frame (completed : ℕ) (now : Timestamp) (r : Record) :
    ∃ step state date, checkpoint completed now r = { r with automation := { r.automation with
      deleteCascadeStep := step
      matchingState := state
      updatedAt := date } } := by
  rcases checkpoint_cases completed now r with he | ⟨-, -, he⟩
  · exact ⟨r.automation.deleteCascadeStep, r.automation.matchingState, r.automation.updatedAt, he⟩
  · exact ⟨_, _, _, he⟩

/-- A checkpoint that wins moves a row from step 1 to 4 on to 2 to 5, and to
`deleted` exactly at 5. -/
theorem Coherent.checkpoint {completed : ℕ} {now : Timestamp} {r : Record}
    (hc : Coherent r.automation) : Coherent (checkpoint completed now r).automation := by
  rcases checkpoint_cases completed now r with he | ⟨hdel, hstep, he⟩
  · rw [he]
    exact hc
  · rw [he]
    have hidle : r.automation.buildState ≠ .building := hc.notBuilding (by simp [hdel])
    refine ⟨hc.settled, hc.armed, fun _ => hidle, ?_⟩
    have hm := hc.step
    rw [hdel] at hm
    obtain ⟨k, hk₁, hk₄, hk⟩ := hm
    rw [hk] at hstep
    split at hstep
    · simp at hstep
    · simp only [Option.some.injEq] at hstep
      dsimp only
      split
      · next hlast => exact congrArg some hlast
      · next hlast =>
        simp only [stepDeleted] at hlast
        exact ⟨completed, by omega, by omega, rfl⟩

/-- Every row move keeps the row coherent. -/
theorem RowMove.coherent {s : State} {now : Timestamp} {r r' : Record} {op : Op} (hs : Fenced s)
    (hr : s.record = some r) (h : RowMove s now r op r') : Coherent r'.automation := by
  have hc := hs.coherent r hr
  cases h with
  | same => exact hc
  | enabled hlive _ =>
    refine ⟨hc.settled, hc.armed, ?_, stepMatches_live hc.step hlive⟩
    intro hm
    simp [Record.transition] at hm
  | disabled hlive =>
    refine ⟨hc.settled, hc.armed, ?_, stepMatches_live hc.step hlive⟩
    intro hm
    simp [Record.transition] at hm
  | deleteAdmitted hlive hbuild =>
    exact ⟨hc.settled, hc.armed, fun _ => hbuild, 1, le_rfl, by decide, rfl⟩
  | claimed hlive hbuild _ =>
    refine ⟨?_, ?_, ?_, hc.step⟩
    · intro hb
      exact absurd rfl hb
    · intro _
      simp [Record.claimed]
    · intro hm
      exact absurd hm hlive
  | @released p claim hp =>
    have hh : Holds claim r.automation := hs.holds_row hr (by rw [hp]; rfl)
    rw [releaseBuildClaim_held hh.held]
    refine ⟨?_, ?_, ?_, hc.step⟩
    · intro _
      exact ⟨rfl, hh.previousSha⟩
    · intro hb
      exact absurd hb hh.previous
    · intro _
      exact hh.previous
  | @edited p claim tenantId data actor gitSha hp hheld =>
    refine ⟨?_, hc.armed, hc.notBuilding, hc.step⟩
    intro hb
    exact absurd hheld.1 hb
  | cutOver hp hre =>
    refine ⟨?_, ?_, ?_, hc.step⟩
    · intro _
      exact ⟨rfl, rfl⟩
    · intro hb
      simp [KeepAutomation.cutOver] at hb
    · intro _
      simp [KeepAutomation.cutOver]
  | buildFailed hp hadm =>
    refine ⟨?_, ?_, ?_, hc.step⟩
    · intro _
      exact ⟨rfl, rfl⟩
    · intro hb
      simp [failBuild] at hb
    · intro _
      simp [failBuild]
  | checkpointed => exact hc.checkpoint

/-- A row move of anything but an edit leaves a live claim on the row. -/
theorem RowMove.keeps_claim {s : State} {now : Timestamp} {r r' : Record} {op : Op}
    {claim : BuildClaim} (h : RowMove s now r op r') (hop : ∀ p o, op ≠ .edit p o)
    (hh : Holds claim r.automation) : Holds claim r'.automation := by
  cases h with
  | same => exact hh
  | enabled => exact ⟨hh.held, hh.noSha, by simp [Record.transition], hh.previous, hh.previousSha⟩
  | disabled => exact ⟨hh.held, hh.noSha, by simp [Record.transition], hh.previous, hh.previousSha⟩
  | deleteAdmitted _ hbuild => exact absurd hh.held.1 hbuild
  | claimed => exact absurd rfl (hop _ _)
  | released => exact absurd rfl (hop _ _)
  | edited => exact absurd rfl (hop _ _)
  | cutOver _ hre => exact absurd hre hh.recheck_ne_none
  | buildFailed _ hadm => exact absurd hadm hh.admission_ne_none
  | checkpointed =>
    rw [checkpoint_of_not_deleting (fun hd => hh.live (by simp [hd]))]
    exact hh

theorem fenced_initial (world : World) : Fenced (initial world) :=
  ⟨fun r hr => by simp [initial] at hr, fun p claim hp => by simp [initial, Edit.claim?] at hp,
    fun p q c d hp _ => by simp [initial, Edit.claim?] at hp⟩

/-- The claims that survive an edit's move: its own may be new or gone, every
other one is what it was. -/
theorem EditMove.claims {cfg : Config} {s : State} {now : Timestamp} {p : ℕ} {op : EditOp}
    {sh : Shared} {e : Edit} (hs : Fenced s) (h : EditMove cfg now s.toShared (s.edits p) op sh e) :
    (∀ claim, e.claim? = some claim → ∃ r, sh.record = some r ∧ Holds claim r.automation) ∧
      (∀ claim, e.claim? = some claim → (s.edits p).claim? ≠ some claim →
        ∀ q, (s.edits q).claim? = none) ∧
      (∀ q claim, q ≠ p → (s.edits q).claim? = some claim → sh.record = s.record) := by
  have alone (claim : BuildClaim) (hown : (s.edits p).claim? = some claim) (q : ℕ) (hq : q ≠ p) :
      (s.edits q).claim? = none := hs.alone hown hq
  generalize he : s.edits p = e₀ at h alone
  cases h with
  | refused => exact ⟨by simp [Edit.claim?], by simp [Edit.claim?], fun _ _ _ _ => rfl⟩
  | @claimed tenantId data actor deadline r hr _ _ hlive hbuild _ =>
    have hc := hs.coherent r hr
    have free : ∀ q, (s.edits q).claim? = none :=
      hs.no_claim hr fun claim hh => hbuild hh.held.1
    refine ⟨?_, fun _ _ _ => free, ?_⟩
    · intro claim hclaim
      simp only [Edit.claim?, Option.some.injEq] at hclaim
      subst hclaim
      exact ⟨_, rfl, ⟨rfl, rfl⟩, rfl, hlive, hbuild, (hc.settled hbuild).2⟩
    · intro q claim _ hq
      rw [free q] at hq
      simp at hq
  | committed =>
    refine ⟨fun claim hc => hs.holds p claim (by rw [he]; exact hc), ?_, fun _ _ _ _ => rfl⟩
    exact fun claim hc hn => absurd hc hn
  | commitFailed =>
    refine ⟨fun claim hc => hs.holds p claim (by rw [he]; exact hc), ?_, fun _ _ _ _ => rfl⟩
    exact fun claim hc hn => absurd hc hn
  | released =>
    exact ⟨by simp [Edit.claim?], by simp [Edit.claim?],
      fun q claim hq hother => by simp [alone _ rfl q hq] at hother⟩
  | finished =>
    exact ⟨by simp [Edit.claim?], by simp [Edit.claim?],
      fun q claim hq hother => by simp [alone _ rfl q hq] at hother⟩
  | _ => exact ⟨by simp [Edit.claim?], by simp [Edit.claim?], fun _ _ _ _ => rfl⟩

/-- The step lemma of the fence. -/
theorem Fenced.step {cfg : Config} {s s' : State} {now : Timestamp} {op : Op} (hs : Fenced s)
    (h : Move cfg s now op s') : Fenced s' := by
  have coherent : ∀ r', s'.record = some r' → Coherent r'.automation := by
    intro r' hr'
    rcases h.row_after hr' with ⟨-, _, _, _, _, _, -, rfl⟩ | ⟨r, hrec, hm⟩
    · exact ⟨by simp [createAutomation], by simp [createAutomation], by simp [createAutomation], rfl⟩
    · exact hm.coherent hs hrec
  -- unless an edit moved, the claims are the old ones and the row move keeps them
  have frame (hop : ∀ p o, op ≠ .edit p o) (he : s'.edits = s.edits) : Fenced s' := by
    refine ⟨coherent, ?_, by rw [he]; exact hs.exclusive⟩
    intro p claim hp
    rw [he] at hp
    obtain ⟨r, hr, hh⟩ := hs.holds p claim hp
    obtain ⟨r', hr', hm⟩ := h.row hr
    exact ⟨r', hr', hm.keeps_claim hop hh⟩
  cases h with
  | @edited p op sh e hm =>
    obtain ⟨hown, hfresh, hothers⟩ := hm.claims hs
    refine ⟨coherent, ?_, ?_⟩
    · apply (Function.forall_update_iff s.edits fun _ e => ∀ claim, e.claim? = some claim →
        ∃ r, sh.record = some r ∧ Holds claim r.automation).mpr
      refine ⟨hown, fun q hqp claim hq => ?_⟩
      rw [hothers q claim hqp hq]
      exact hs.holds q claim hq
    · intro q q' c d hq hq'
      change (Function.update s.edits p e q).claim? = some c at hq
      change (Function.update s.edits p e q').claim? = some d at hq'
      by_cases hqp : q = p <;> by_cases hqp' : q' = p
      · exact hqp.trans hqp'.symm
      · subst hqp
        rw [Function.update_self] at hq
        rw [Function.update_of_ne hqp'] at hq'
        by_cases hsame : (s.edits q).claim? = some c
        · exact hs.exclusive q q' c d hsame hq'
        · rw [hfresh c hq hsame q'] at hq'
          simp at hq'
      · subst hqp'
        rw [Function.update_self] at hq'
        rw [Function.update_of_ne hqp] at hq
        by_cases hsame : (s.edits q').claim? = some d
        · exact hs.exclusive q q' c d hq hsame
        · rw [hfresh d hq' hsame q] at hq
          simp at hq
      · rw [Function.update_of_ne hqp] at hq
        rw [Function.update_of_ne hqp'] at hq'
        exact hs.exclusive q q' c d hq hq'
  | created => exact frame (by simp) rfl
  | refused hop => exact frame (fun p o hpo => by simp [hpo, Op.isRequest] at hop) rfl
  | enabled => exact frame (by simp) rfl
  | disabled => exact frame (by simp) rfl
  | deleteAdmitted => exact frame (by simp) rfl
  | delivered => exact frame (by simp) rfl
  | ran => exact frame (by simp) rfl
  | pushed => exact frame (by simp) rfl

/-- The fence holds in every reachable state, under any environment. -/
theorem Reached.fenced {cfg : Config} {E : State → Action → Prop} {tr : Trace State Action}
    {s : State} (h : Reached cfg E tr s) : Fenced s := by
  obtain ⟨world, hrun⟩ := h
  refine hrun.invariant (fenced_initial world) ?_
  intro s a s' hs _ hstep
  exact hs.step (step_move hstep).2.2

end KeepAutomation
