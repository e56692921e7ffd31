import KeepAutomation.Interleaving

/-! What one step can do, said once. Each relation lists the moves of one kind
of call with the guards it has checked; the invariants are case analyses over
them and never unfold the step functions. -/
namespace KeepAutomation

open TransitionSystem

/-- The moves of an edit. -/
inductive EditMove (cfg : Config) (now : Timestamp) (sh : Shared) :
    Edit → EditOp → Shared → Edit → Prop
  | refused {tenantId data actor deadline fault} (error : Error) :
      EditMove cfg now sh .idle (.claim tenantId data actor deadline fault) sh (.raised error)
  | claimed {tenantId data actor deadline} (r : Record) (hr : sh.record = some r)
      (hvalid : cfg.validateAutomation data = []) (htenant : r.automation.tenantId = tenantId)
      (hlive : r.automation.matchingState ∉ deletionStates)
      (hbuild : r.automation.buildState ≠ .building)
      (hwallet : r.automation.cappDeploymentId = none ∨ data.nameSpace = r.automation.nameSpace) :
      EditMove cfg now sh .idle (.claim tenantId data actor deadline none)
        { sh with record := some (r.claimed deadline) }
        (.committing (r.claim deadline) tenantId data actor)
  | committed {claim tenantId data actor} (gitSha : String) :
      EditMove cfg now sh (.committing claim tenantId data actor) (.commit gitSha)
        { sh with world := sh.world.commitScript gitSha }
        (.finishing claim tenantId data actor gitSha)
  | commitFailed {claim tenantId data actor} :
      EditMove cfg now sh (.committing claim tenantId data actor) .commitFails sh (.releasing claim)
  | released {claim} :
      EditMove cfg now sh (.releasing claim) (.release none)
        { sh with record := sh.record.map (releaseBuildClaim claim) }
        (.raised .scriptRepoUnavailableError)
  | releaseFailed {claim fault} :
      EditMove cfg now sh (.releasing claim) (.release (some fault)) sh
        (.raised .scriptRepoUnavailableError)
  | finished {claim tenantId data actor gitSha} (r : Record) (hr : sh.record = some r)
      (htenant : r.automation.tenantId = tenantId) (hheld : claim.held r.automation) :
      EditMove cfg now sh (.finishing claim tenantId data actor gitSha) (.finish none)
        { sh with record := some (r.edited data actor gitSha now) } .returned
  | notFinished {claim tenantId data actor gitSha fault} (error : Error) :
      EditMove cfg now sh (.finishing claim tenantId data actor gitSha) (.finish fault) sh
        (.raised error)
  | crashed {e : Edit} : EditMove cfg now sh e .crash sh .crashed

theorem Edit.step_move {cfg : Config} {now : Timestamp} {sh sh' : Shared} {e e' : Edit} {op : EditOp}
    (h : e.step cfg now sh op = some (sh', e')) : EditMove cfg now sh e op sh' e' := by
  -- every operation but the crash has one phase in which it can be made
  cases op with
  | claim tenantId data actor deadline fault =>
    cases e <;> simp only [Edit.step, reduceCtorEq] at h
    split at h
    · simp only [Option.some.injEq, Prod.mk.injEq] at h
      obtain ⟨rfl, rfl⟩ := h
      exact .refused _
    · next hvalid =>
      split at h
      · simp only [Option.some.injEq, Prod.mk.injEq] at h
        obtain ⟨rfl, rfl⟩ := h
        exact .refused _
      · split at h
        · simp only [Option.some.injEq, Prod.mk.injEq] at h
          obtain ⟨rfl, rfl⟩ := h
          exact .refused _
        · next hclaim =>
          simp only [Option.some.injEq, Prod.mk.injEq] at h
          obtain ⟨rfl, rfl⟩ := h
          obtain ⟨r, hr, htenant, hlive, hbuild, hwallet, rfl, rfl⟩ := claimBuild_ok hclaim
          exact .claimed r hr (not_ne_iff.mp hvalid) htenant hlive hbuild hwallet
  | commit gitSha =>
    cases e <;> simp only [Edit.step, Option.some.injEq, Prod.mk.injEq, reduceCtorEq] at h
    obtain ⟨rfl, rfl⟩ := h
    exact .committed gitSha
  | commitFails =>
    cases e <;> simp only [Edit.step, Option.some.injEq, Prod.mk.injEq, reduceCtorEq] at h
    obtain ⟨rfl, rfl⟩ := h
    exact .commitFailed
  | release fault =>
    cases e <;> simp only [Edit.step, reduceCtorEq] at h
    cases fault with
    | none =>
      simp only [Option.some.injEq, Prod.mk.injEq] at h
      obtain ⟨rfl, rfl⟩ := h
      exact .released
    | some f =>
      simp only [Option.some.injEq, Prod.mk.injEq] at h
      obtain ⟨rfl, rfl⟩ := h
      exact .releaseFailed
  | finish fault =>
    cases e <;> simp only [Edit.step, reduceCtorEq] at h
    cases fault with
    | some f =>
      simp only [Option.some.injEq, Prod.mk.injEq] at h
      obtain ⟨rfl, rfl⟩ := h
      exact .notFinished _
    | none =>
      dsimp only at h
      split at h
      · simp only [Option.some.injEq, Prod.mk.injEq] at h
        obtain ⟨rfl, rfl⟩ := h
        exact .notFinished _
      · next hfinish =>
        simp only [Option.some.injEq, Prod.mk.injEq] at h
        obtain ⟨rfl, rfl⟩ := h
        obtain ⟨r, hr, htenant, hheld, rfl⟩ := finishUpdate_ok hfinish
        exact .finished r hr htenant hheld
  | crash =>
    cases e <;> simp only [Edit.step, Option.some.injEq, Prod.mk.injEq, reduceCtorEq] at h
    all_goals
      obtain ⟨rfl, rfl⟩ := h
      exact .crashed

/-- The moves of a webhook delivery. -/
inductive DeliveryMove (cfg : Config) (now : Timestamp) (sh : Shared) :
    Delivery → DeliveryOp → Shared → Delivery → Prop
  | refused {event readFails} (error : Error) :
      DeliveryMove cfg now sh .idle (.receive event readFails) sh (.raised event error)
  | ignoredAtOnce {event} (r : Record) (hr : sh.record = some r) (reason : IgnoredReason)
      (hadm : admission r.automation event.commitSha = some reason) :
      DeliveryMove cfg now sh .idle (.receive event false) sh (.answered event (.ignored reason))
  | failureAdmitted {event} (hid : event.automationId = cfg.automationId) (r : Record)
      (hr : sh.record = some r)
      (hadm : admission r.automation event.commitSha = none) (hstatus : event.status = .failed) :
      DeliveryMove cfg now sh .idle (.receive event false) sh (.recordingFailure event)
  | successAdmitted {event} (hid : event.automationId = cfg.automationId) (r : Record)
      (hr : sh.record = some r)
      (hadm : admission r.automation event.commitSha = none) (hstatus : event.status = .success)
      (hown : requireOwnImage cfg.automationImageRepository event = .ok ()) :
      DeliveryMove cfg now sh .idle (.receive event false) sh
        (.callingCapp event r.automation.target)
  | failureRecorded {event} (r : Record) (hr : sh.record = some r)
      (hadm : admission r.automation event.commitSha = none) :
      DeliveryMove cfg now sh (.recordingFailure event) (.recordFailure none)
        { sh with record := some (failBuild r event now) } (.answered event .applied)
  | failureIgnored {event} (reason : IgnoredReason) :
      DeliveryMove cfg now sh (.recordingFailure event) (.recordFailure none) sh
        (.answered event (.ignored reason))
  | failureRaised {event fault} (error : Error) :
      DeliveryMove cfg now sh (.recordingFailure event) (.recordFailure fault) sh
        (.raised event error)
  | cappAccepted {event target} (deployment : CappDeployment) :
      DeliveryMove cfg now sh (.callingCapp event target) (.cappAccepts deployment)
        { sh with world := deploy cfg sh.world event target }
        (.rechecking event target
          (if target.cappDeploymentId = none then some deployment else none))
  | cappRaised {event target} :
      DeliveryMove cfg now sh (.callingCapp event target) .cappRaises sh
        (.raised event .cappUnavailableError)
  | cutOver {event target created} (r : Record) (hr : sh.record = some r)
      (hre : recheck r event.commitSha = none) :
      DeliveryMove cfg now sh (.rechecking event target created) (.recheck none)
        { sh with record := some (cutOver r event created now) } (.answered event .applied)
  | ignored {event target created} (r : Record) (hr : sh.record = some r) (reason : IgnoredReason)
      (hre : recheck r event.commitSha = some reason) (hlive : reason ≠ .deleting) :
      DeliveryMove cfg now sh (.rechecking event target created) (.recheck none) sh
        (.answered event (.ignored reason))
  | tearingDown {event target created} (r : Record) (hr : sh.record = some r)
      (hre : recheck r event.commitSha = some .deleting) :
      DeliveryMove cfg now sh (.rechecking event target created) (.recheck none) sh
        (.deletingCapp event target.wallet
          (((created.map CappDeployment.deploymentId).or target.cappDeploymentId).getD ""))
  | notRecorded {event target created fault} (error : Error)
      (hfault : fault = none → sh.record = none) :
      DeliveryMove cfg now sh (.rechecking event target created) (.recheck fault) sh
        (.raised event error)
  | cappTornDown {event wallet name} :
      DeliveryMove cfg now sh (.deletingCapp event wallet name) (.tearDown .ok)
        { sh with world := sh.world.deleteCapp wallet name } (.deletingSecret event wallet)
  | tearDownFailed {event wallet name} (outcome : CallOutcome) (hfail : outcome ≠ .ok) :
      DeliveryMove cfg now sh (.deletingCapp event wallet name) (.tearDown outcome)
        { sh with world :=
            if outcome.effective then sh.world.deleteCapp wallet name else sh.world }
        (.answered event (.ignored .deleting))
  | secretTornDown {event wallet} (outcome : CallOutcome) :
      DeliveryMove cfg now sh (.deletingSecret event wallet) (.tearDown outcome)
        { sh with world :=
            if outcome.effective then
              sh.world.deleteSecret wallet (runAuthSecretName event.automationId)
            else sh.world }
        (.answered event (.ignored .deleting))
  | crashed {d : Delivery} (event : CiWebhookIn) (hflight : d.inFlight = true) :
      DeliveryMove cfg now sh d .crash sh (.crashed event)

/-- An answered delivery moves no more. -/
theorem DeliveryMove.not_answered {cfg : Config} {now : Timestamp} {sh sh' : Shared}
    {d d' : Delivery} {op : DeliveryOp} (h : DeliveryMove cfg now sh d op sh' d')
    (event : CiWebhookIn) (out : CiWebhookOut) : d ≠ .answered event out := by
  intro hd
  subst hd
  cases h with
  | crashed _ hflight => simp [Delivery.inFlight] at hflight

theorem BuildOutcome.eq_success {o : BuildOutcome} (h : o ≠ .failed) : o = .success := by
  cases o with
  | success => rfl
  | failed => exact absurd rfl h

theorem admitDelivery_move (cfg : Config) (now : Timestamp) (sh : Shared) (event : CiWebhookIn)
    (hid : event.automationId = cfg.automationId) :
    DeliveryMove cfg now sh .idle (.receive event false) sh
      (admitDelivery cfg event sh.record) := by
  unfold admitDelivery
  split
  · exact .refused _
  · next r hr =>
    split
    · next reason hadm => exact .ignoredAtOnce r hr reason hadm
    · next hadm =>
      split
      · next hstatus => exact .failureAdmitted hid r hr hadm hstatus
      · next hstatus =>
        split
        · exact .refused _
        · next hown =>
          exact .successAdmitted hid r hr hadm (BuildOutcome.eq_success hstatus) hown

theorem recordFailure_move (cfg : Config) (now : Timestamp) (sh : Shared) (event : CiWebhookIn) :
    DeliveryMove cfg now sh (.recordingFailure event) (.recordFailure none)
      { sh with record := (recordFailure event now sh.record).1 }
      (recordFailure event now sh.record).2 := by
  obtain ⟨record, world⟩ := sh
  unfold recordFailure
  cases record with
  | none => exact .failureRaised _
  | some r =>
    dsimp only
    split
    · next reason hadm => exact .failureIgnored reason
    · next hadm => exact .failureRecorded r rfl hadm

theorem commitCutover_move (cfg : Config) (now : Timestamp) (sh : Shared) (event : CiWebhookIn)
    (target : BuildTarget) (created : Option CappDeployment) :
    DeliveryMove cfg now sh (.rechecking event target created) (.recheck none)
      { sh with record := (commitCutover event target created now sh.record).1 }
      (commitCutover event target created now sh.record).2 := by
  obtain ⟨record, world⟩ := sh
  unfold commitCutover
  cases record with
  | none => exact .notRecorded _ (fun _ => rfl)
  | some r =>
    dsimp only
    split
    · next hre => exact .cutOver r rfl hre
    · next hre => exact .tearingDown r rfl hre
    · next reason hne hre => exact .ignored r rfl reason hre hne

theorem Delivery.step_move {cfg : Config} {now : Timestamp} {sh sh' : Shared} {d d' : Delivery}
    {op : DeliveryOp} (h : d.step cfg now sh op = some (sh', d')) :
    DeliveryMove cfg now sh d op sh' d' := by
  -- here the teardown has two phases, one for each deletion
  cases op with
  | receive event readFails =>
    cases d <;> simp only [Delivery.step, reduceCtorEq] at h
    split at h
    · simp at h
    · next hid =>
      split at h
      · simp only [Option.some.injEq, Prod.mk.injEq] at h
        obtain ⟨rfl, rfl⟩ := h
        exact .refused _
      · next hread =>
        simp only [Option.some.injEq, Prod.mk.injEq] at h
        obtain ⟨rfl, rfl⟩ := h
        rw [Bool.not_eq_true] at hread
        subst hread
        exact admitDelivery_move cfg now sh event (not_ne_iff.mp hid)
  | recordFailure fault =>
    cases d <;> simp only [Delivery.step, reduceCtorEq] at h
    cases fault with
    | some f =>
      simp only [Option.some.injEq, Prod.mk.injEq] at h
      obtain ⟨rfl, rfl⟩ := h
      exact .failureRaised _
    | none =>
      simp only [Option.some.injEq, Prod.mk.injEq] at h
      obtain ⟨rfl, rfl⟩ := h
      exact recordFailure_move cfg now sh _
  | cappAccepts deployment =>
    cases d <;> simp only [Delivery.step, Option.some.injEq, Prod.mk.injEq, reduceCtorEq] at h
    obtain ⟨rfl, rfl⟩ := h
    exact .cappAccepted deployment
  | cappRaises =>
    cases d <;> simp only [Delivery.step, Option.some.injEq, Prod.mk.injEq, reduceCtorEq] at h
    obtain ⟨rfl, rfl⟩ := h
    exact .cappRaised
  | recheck fault =>
    cases d <;> simp only [Delivery.step, reduceCtorEq] at h
    cases fault with
    | some f =>
      simp only [Option.some.injEq, Prod.mk.injEq] at h
      obtain ⟨rfl, rfl⟩ := h
      exact .notRecorded _ (fun hf => by simp at hf)
    | none =>
      simp only [Option.some.injEq, Prod.mk.injEq] at h
      obtain ⟨rfl, rfl⟩ := h
      exact commitCutover_move cfg now sh _ _ _
  | tearDown outcome =>
    cases d <;> simp only [Delivery.step, Option.some.injEq, Prod.mk.injEq, reduceCtorEq] at h
    case deletingCapp event wallet name =>
      obtain ⟨rfl, rfl⟩ := h
      by_cases hok : outcome = .ok
      · subst hok
        exact .cappTornDown
      · rw [if_neg hok]
        exact .tearDownFailed outcome hok
    case deletingSecret event wallet =>
      obtain ⟨rfl, rfl⟩ := h
      exact .secretTornDown outcome
  | crash =>
    cases d <;> simp only [Delivery.step, Option.some.injEq, Prod.mk.injEq, reduceCtorEq] at h
    all_goals
      obtain ⟨rfl, rfl⟩ := h
      exact .crashed _ rfl

/-- The moves of a cascade runner. -/
inductive RunnerMove (now : Timestamp) (sh : Shared) : Runner → RunnerOp → Shared → Runner → Prop
  | started : RunnerMove now sh .idle (.snapshot false) sh (KeepAutomation.snapshot sh.record 0)
  | reread {n} :
      RunnerMove now sh (.rereading n) (.snapshot false) sh (KeepAutomation.snapshot sh.record n)
  | readFailed {pc : Runner} :
      RunnerMove now sh pc (.snapshot true) sh (.raised .sqlAlchemyError)
  | called {pc : Runner} (outcome : CallOutcome) (world : World) (next stop : Runner)
      (hcall : pc.call sh.world = some (world, next, stop)) :
      RunnerMove now sh pc (.call outcome)
        { sh with world := if outcome.effective then world else sh.world }
        (if outcome = .ok then next else stop)
  | saved {a n completed} (outcome : CallOutcome) :
      RunnerMove now sh (.saving a n completed) (.save outcome)
        { sh with record :=
            if outcome.effective then sh.record.map (checkpoint completed now) else sh.record }
        (if outcome = .ok then .rereading (n+1) else stopped a "checkpoint_failed")
  | crashed {pc : Runner} : RunnerMove now sh pc .crash sh .crashed

theorem Runner.step_call {now : Timestamp} {sh : Shared} {pc : Runner} {outcome : CallOutcome} :
    pc.step now sh (.call outcome) = (pc.call sh.world).map fun (world, next, stop) =>
      ({ sh with world := if outcome.effective then world else sh.world },
        if outcome = .ok then next else stop) := by
  cases pc <;> rfl

theorem Runner.step_move {now : Timestamp} {sh sh' : Shared} {pc pc' : Runner} {op : RunnerOp}
    (h : pc.step now sh op = some (sh', pc')) : RunnerMove now sh pc op sh' pc' := by
  cases op with
  | snapshot readFails =>
    cases pc <;> simp only [Runner.step, Option.some.injEq, Prod.mk.injEq, reduceCtorEq] at h
    all_goals
      obtain ⟨rfl, rfl⟩ := h
      cases readFails
    · exact .started
    · exact .readFailed
    · exact .reread
    · exact .readFailed
  | call outcome =>
    rw [Runner.step_call, Option.map_eq_some_iff] at h
    obtain ⟨⟨world, next, stop⟩, hcall, h⟩ := h
    simp only [Prod.mk.injEq] at h
    obtain ⟨rfl, rfl⟩ := h
    exact .called outcome world next stop hcall
  | save outcome =>
    cases pc <;> simp only [Runner.step, Option.some.injEq, Prod.mk.injEq, reduceCtorEq] at h
    obtain ⟨rfl, rfl⟩ := h
    exact .saved outcome
  | crash =>
    cases pc <;> simp only [Runner.step, Option.some.injEq, Prod.mk.injEq, reduceCtorEq] at h
    all_goals
      obtain ⟨rfl, rfl⟩ := h
      exact .crashed

/-- The calls that are one transaction: refused, they leave everything as it was. -/
def Op.isRequest : Op → Bool
  | .enable _ _ | .disable _ _ | .beginDelete _ _ => true
  | _ => false

/-- The moves of the system. -/
inductive Move (cfg : Config) (s : State) (now : Timestamp) : Op → State → Prop
  | created {tenantId data actor gitSha deadline} (hnone : s.record = none)
      (hvalid : cfg.validateAutomation data = []) :
      Move cfg s now (.create tenantId data actor gitSha deadline)
        { s with
          record := some (createAutomation tenantId cfg.automationId data actor gitSha deadline now)
          world := s.world.commitScript gitSha
          clock := now }
  | refused {op} (hop : op.isRequest = true) : Move cfg s now op { s with clock := now }
  | enabled {tenantId actor} (r : Record) (hr : s.record = some r)
      (hlive : r.automation.matchingState ∉ deletionStates)
      (hdigest : blank r.automation.activeDigest = false) :
      Move cfg s now (.enable tenantId actor)
        { s with record := some (r.transition .active .enable actor now), clock := now }
  | disabled {tenantId actor} (r : Record) (hr : s.record = some r)
      (hlive : r.automation.matchingState ∉ deletionStates) :
      Move cfg s now (.disable tenantId actor)
        { s with record := some (r.transition .inactive .disable actor now), clock := now }
  | deleteAdmitted {tenantId actor} (r : Record) (hr : s.record = some r)
      (hlive : r.automation.matchingState ∉ deletionStates)
      (hbuild : r.automation.buildState ≠ .building) :
      Move cfg s now (.beginDelete tenantId actor)
        { s with record := some (r.markDeleting actor now), clock := now }
  | edited {p op sh e} (h : EditMove cfg now s.toShared (s.edits p) op sh e) :
      Move cfg s now (.edit p op)
        { s with toShared := sh, edits := Function.update s.edits p e, clock := now }
  | delivered {p op sh d} (h : DeliveryMove cfg now s.toShared (s.deliveries p) op sh d) :
      Move cfg s now (.deliver p op)
        { s with toShared := sh, deliveries := Function.update s.deliveries p d, clock := now }
  | ran {p op sh c} (h : RunnerMove now s.toShared (s.runners p) op sh c) :
      Move cfg s now (.run p op)
        { s with toShared := sh, runners := Function.update s.runners p c, clock := now }
  | pushed {images} :
      Move cfg s now (.push images)
        { s with world := { s.world with images := images }, clock := now }

theorem step_move {cfg : Config} {s s' : State} {a : Action} (h : step cfg s a = some s') :
    s.clock < a.now ∧ s'.clock = a.now ∧ Move cfg s a.now a.op s' := by
  obtain ⟨now, op⟩ := a
  unfold step at h
  split at h
  · next hclock =>
    obtain ⟨s₁, happly, rfl⟩ := Option.map_eq_some_iff.mp h
    refine ⟨hclock, rfl, ?_⟩
    cases op with
    | create tenantId data actor gitSha deadline =>
      simp only [apply] at happly
      split at happly
      · next hg =>
        simp only [Option.some.injEq] at happly
        subst happly
        exact .created (Option.isNone_iff_eq_none.mp hg.1) hg.2
      · simp at happly
    | enable tenantId actor =>
      simp only [apply, Option.some.injEq] at happly
      subst happly
      cases ht : enableAutomation tenantId actor now s.record with
      | error e => exact .refused rfl
      | ok r' =>
        obtain ⟨r, hr, -, hlive, hdigest, rfl⟩ := toggle_ok ht
        exact .enabled r hr hlive (hdigest rfl)
    | disable tenantId actor =>
      simp only [apply, Option.some.injEq] at happly
      subst happly
      cases ht : disableAutomation tenantId actor now s.record with
      | error e => exact .refused rfl
      | ok r' =>
        obtain ⟨r, hr, -, hlive, -, rfl⟩ := toggle_ok ht
        exact .disabled r hr hlive
    | beginDelete tenantId actor =>
      simp only [apply, Option.some.injEq] at happly
      subst happly
      cases hd : beginDelete tenantId actor now s.record with
      | error e => exact .refused rfl
      | ok d =>
        obtain ⟨r, hr, -, ⟨-, rfl⟩ | ⟨hlive, hbuild, rfl⟩⟩ := beginDelete_ok hd
        · have hsame : { s with record := some r, clock := now } = { s with clock := now } := by
            rw [← hr]
          exact hsame ▸ .refused rfl
        · exact .deleteAdmitted r hr hlive hbuild
    | edit p op =>
      simp only [apply, Option.map_eq_some_iff] at happly
      obtain ⟨⟨sh, e⟩, hstep, rfl⟩ := happly
      exact .edited (Edit.step_move hstep)
    | deliver p op =>
      simp only [apply, Option.map_eq_some_iff] at happly
      obtain ⟨⟨sh, d⟩, hstep, rfl⟩ := happly
      exact .delivered (Delivery.step_move hstep)
    | run p op =>
      simp only [apply, Option.map_eq_some_iff] at happly
      obtain ⟨⟨sh, c⟩, hstep, rfl⟩ := happly
      exact .ran (Runner.step_move hstep)
    | push images =>
      simp only [apply, Option.some.injEq] at happly
      subst happly
      exact .pushed
  · simp at h

/-- The move of call `q`, seen from call `p` of the same kind. -/
theorem own_move {β ο ω : Type} (mk : ℕ → ο → ω)
    (hmk : ∀ {p q o o'}, mk p o = mk q o' → p = q) (M : β → ο → β → Prop) (f : ℕ → β) {q : ℕ} {o : ο}
    {x : β} (hM : M (f q) o x) (p : ℕ) :
    ((∀ o', mk q o ≠ mk p o') ∧ Function.update f q x p = f p) ∨
      ∃ o', mk q o = mk p o' ∧ M (f p) o' (Function.update f q x p) := by
  by_cases hpq : p = q
  · subst hpq
    refine Or.inr ⟨o, rfl, ?_⟩
    rw [Function.update_self]
    exact hM
  · refine Or.inl ⟨?_, Function.update_of_ne hpq _ _⟩
    intro o' ho
    exact hpq (hmk ho).symm

/-- A delivery is moved by its own operations only. -/
theorem Move.delivery {cfg : Config} {s s' : State} {now : Timestamp} {op : Op}
    (h : Move cfg s now op s') (p : ℕ) :
    ((∀ o, op ≠ .deliver p o) ∧ s'.deliveries p = s.deliveries p) ∨
      ∃ o, op = .deliver p o ∧
        DeliveryMove cfg now s.toShared (s.deliveries p) o s'.toShared (s'.deliveries p) := by
  cases h with
  | @delivered q o sh d hm =>
    exact own_move Op.deliver (fun h => (Op.deliver.inj h).1)
      (fun d o d' => DeliveryMove cfg now s.toShared d o sh d') s.deliveries hm p
  | refused hop =>
    refine Or.inl ⟨?_, rfl⟩
    intro o ho
    simp [ho, Op.isRequest] at hop
  | _ => exact Or.inl ⟨by simp, rfl⟩

/-- A runner is moved by its own operations only. -/
theorem Move.runner {cfg : Config} {s s' : State} {now : Timestamp} {op : Op}
    (h : Move cfg s now op s') (p : ℕ) :
    ((∀ o, op ≠ .run p o) ∧ s'.runners p = s.runners p) ∨
      ∃ o, op = .run p o ∧
        RunnerMove now s.toShared (s.runners p) o s'.toShared (s'.runners p) := by
  cases h with
  | @ran q o sh c hm =>
    exact own_move Op.run (fun h => (Op.run.inj h).1)
      (fun c o c' => RunnerMove now s.toShared c o sh c') s.runners hm p
  | refused hop =>
    refine Or.inl ⟨?_, rfl⟩
    intro o ho
    simp [ho, Op.isRequest] at hop
  | _ => exact Or.inl ⟨by simp, rfl⟩

/-- An edit is moved by its own operations only. -/
theorem Move.editor {cfg : Config} {s s' : State} {now : Timestamp} {op : Op}
    (h : Move cfg s now op s') (p : ℕ) :
    ((∀ o, op ≠ .edit p o) ∧ s'.edits p = s.edits p) ∨
      ∃ o, op = .edit p o ∧
        EditMove cfg now s.toShared (s.edits p) o s'.toShared (s'.edits p) := by
  cases h with
  | @edited q o sh e hm =>
    exact own_move Op.edit (fun h => (Op.edit.inj h).1)
      (fun e o e' => EditMove cfg now s.toShared e o sh e') s.edits hm p
  | refused hop =>
    refine Or.inl ⟨?_, rfl⟩
    intro o ho
    simp [ho, Op.isRequest] at hop
  | _ => exact Or.inl ⟨by simp, rfl⟩

/-- An invariant of the moves holds in every reachable state. The state before
the move may be taken as reachable, so that invariants build on each other. -/
theorem Reached.invariant {cfg : Config} {E : State → Action → Prop} {tr : Trace State Action}
    {s : State} {I : State → Prop} (h : Reached cfg E tr s) (h₀ : ∀ world, I (initial world))
    (hmove : ∀ tr s now op s', Reached cfg E tr s → I s → E s ⟨now, op⟩ → s.clock < now →
      s'.clock = now → Move cfg s now op s' → I s') : I s := by
  obtain ⟨world, hrun⟩ := h
  refine hrun.history (P := fun _ s => I s) (h₀ world) ?_
  intro tr s a s' hr hs ha hstep
  obtain ⟨hlt, hclock, hm⟩ := step_move hstep
  exact hmove tr s a.now a.op s' ⟨world, hr⟩ hs ha hlt hclock hm

theorem World.archive_commits (w : World) (automationId : UUID) (actor : String) :
    (w.archive automationId actor).commits = w.commits := by
  unfold World.archive
  split
  · rfl
  · rfl

theorem Runner.call_commits {pc next stop : Runner} {w world : World}
    (h : pc.call w = some (world, next, stop)) : world.commits = w.commits := by
  cases pc <;> simp only [Runner.call, Option.some.injEq, Prod.mk.injEq, reduceCtorEq] at h <;>
    obtain ⟨rfl, -, -⟩ := h
  case archiving a n => exact w.archive_commits _ _
  all_goals rfl

theorem deploy_commits (cfg : Config) (w : World) (event : CiWebhookIn) (target : BuildTarget) :
    (deploy cfg w event target).commits = w.commits := by
  unfold deploy deployCall
  split
  · rfl
  · rfl

theorem DeliveryMove.commits {cfg : Config} {now : Timestamp} {sh sh' : Shared} {d d' : Delivery}
    {op : DeliveryOp} (h : DeliveryMove cfg now sh d op sh' d') :
    sh'.world.commits = sh.world.commits := by
  cases h with
  | cappAccepted => exact deploy_commits _ _ _ _
  | tearDownFailed outcome => dsimp only; split <;> rfl
  | secretTornDown outcome => dsimp only; split <;> rfl
  | _ => rfl

theorem RunnerMove.commits {now : Timestamp} {sh sh' : Shared} {pc pc' : Runner} {op : RunnerOp}
    (h : RunnerMove now sh pc op sh' pc') : sh'.world.commits = sh.world.commits := by
  cases h with
  | called outcome world next stop hcall =>
    dsimp only
    split
    · exact Runner.call_commits hcall
    · rfl
  | _ => rfl

/-- The changes of an existing row, each with the guards under which it is
committed and the step that commits it. -/
inductive RowMove (s : State) (now : Timestamp) (r : Record) : Op → Record → Prop
  | same {op} : RowMove s now r op r
  | enabled {tenantId actor} (hlive : r.automation.matchingState ∉ deletionStates)
      (hdigest : blank r.automation.activeDigest = false) :
      RowMove s now r (.enable tenantId actor) (r.transition .active .enable actor now)
  | disabled {tenantId actor} (hlive : r.automation.matchingState ∉ deletionStates) :
      RowMove s now r (.disable tenantId actor) (r.transition .inactive .disable actor now)
  | deleteAdmitted {tenantId actor} (hlive : r.automation.matchingState ∉ deletionStates)
      (hbuild : r.automation.buildState ≠ .building) :
      RowMove s now r (.beginDelete tenantId actor) (r.markDeleting actor now)
  | claimed {p tenantId data actor deadline fault}
      (hlive : r.automation.matchingState ∉ deletionStates)
      (hbuild : r.automation.buildState ≠ .building)
      (hwallet : r.automation.cappDeploymentId = none ∨ data.nameSpace = r.automation.nameSpace) :
      RowMove s now r (.edit p (.claim tenantId data actor deadline fault)) (r.claimed deadline)
  | released {p claim} (hp : s.edits p = .releasing claim) :
      RowMove s now r (.edit p (.release none)) (releaseBuildClaim claim r)
  | edited {p claim tenantId data actor gitSha}
      (hp : s.edits p = .finishing claim tenantId data actor gitSha)
      (hheld : claim.held r.automation) :
      RowMove s now r (.edit p (.finish none)) (r.edited data actor gitSha now)
  | cutOver {p event target created} (hp : s.deliveries p = .rechecking event target created)
      (hre : recheck r event.commitSha = none) :
      RowMove s now r (.deliver p (.recheck none)) (cutOver r event created now)
  | buildFailed {p event} (hp : s.deliveries p = .recordingFailure event)
      (hadm : admission r.automation event.commitSha = none) :
      RowMove s now r (.deliver p (.recordFailure none)) (failBuild r event now)
  | checkpointed {p a n completed outcome} (hp : s.runners p = .saving a n completed) :
      RowMove s now r (.run p (.save outcome)) (checkpoint completed now r)

/-- A row never disappears, and changes by one row move at a time. -/
theorem Move.row {cfg : Config} {s s' : State} {now : Timestamp} {op : Op} {r : Record}
    (h : Move cfg s now op s') (hr : s.record = some r) :
    ∃ r', s'.record = some r' ∧ RowMove s now r op r' := by
  cases h with
  | created hnone _ => rw [hr] at hnone; simp at hnone
  | refused => exact ⟨r, hr, .same⟩
  | enabled r₁ h₁ hlive hdigest =>
    obtain rfl := Option.eq_some_unique h₁ hr
    exact ⟨_, rfl, .enabled hlive hdigest⟩
  | disabled r₁ h₁ hlive =>
    obtain rfl := Option.eq_some_unique h₁ hr
    exact ⟨_, rfl, .disabled hlive⟩
  | deleteAdmitted r₁ h₁ hlive hbuild =>
    obtain rfl := Option.eq_some_unique h₁ hr
    exact ⟨_, rfl, .deleteAdmitted hlive hbuild⟩
  | @edited p _ _ _ hm =>
    generalize he : s.edits p = e at hm
    cases hm with
    | claimed r₁ h₁ _ _ hlive hbuild hwallet =>
      obtain rfl := Option.eq_some_unique h₁ hr
      exact ⟨_, rfl, .claimed hlive hbuild hwallet⟩
    | released => exact ⟨_, by simp only [hr, Option.map_some], .released he⟩
    | finished r₁ h₁ _ hheld =>
      obtain rfl := Option.eq_some_unique h₁ hr
      exact ⟨_, rfl, .edited he hheld⟩
    | _ => exact ⟨r, hr, .same⟩
  | @delivered p _ _ _ hm =>
    generalize hd : s.deliveries p = d at hm
    cases hm with
    | failureRecorded r₁ h₁ hadm =>
      obtain rfl := Option.eq_some_unique h₁ hr
      exact ⟨_, rfl, .buildFailed hd hadm⟩
    | cutOver r₁ h₁ hre =>
      obtain rfl := Option.eq_some_unique h₁ hr
      exact ⟨_, rfl, .cutOver hd hre⟩
    | _ => exact ⟨r, hr, .same⟩
  | @ran p _ _ _ hm =>
    generalize hc : s.runners p = c at hm
    cases hm with
    | @saved a n completed outcome =>
      cases he : outcome.effective with
      | false => exact ⟨r, hr, .same⟩
      | true => exact ⟨_, by simp only [if_true, hr, Option.map_some], .checkpointed hc⟩
    | _ => exact ⟨r, hr, .same⟩
  | pushed => exact ⟨r, hr, .same⟩

/-- Only the creation makes a row. -/
theorem Move.row_of_none {cfg : Config} {s s' : State} {now : Timestamp} {op : Op}
    (h : Move cfg s now op s') (hnone : s.record = none) :
    s'.record = none ∨ ∃ tenantId data actor gitSha deadline,
      op = .create tenantId data actor gitSha deadline ∧
        s'.record = some (createAutomation tenantId cfg.automationId data actor gitSha deadline now) := by
  cases h with
  | created => exact Or.inr ⟨_, _, _, _, _, rfl, rfl⟩
  | refused => exact Or.inl hnone
  | pushed => exact Or.inl hnone
  | enabled r hr => simp [hnone] at hr
  | disabled r hr => simp [hnone] at hr
  | deleteAdmitted r hr => simp [hnone] at hr
  | @edited p _ _ _ hm =>
    generalize s.edits p = e at hm
    cases hm with
    | claimed r hr => simp [hnone] at hr
    | finished r hr => simp [hnone] at hr
    | released => exact Or.inl (by simp only [hnone, Option.map_none])
    | _ => exact Or.inl hnone
  | @delivered p _ _ _ hm =>
    generalize s.deliveries p = d at hm
    cases hm with
    | failureRecorded r hr => simp [hnone] at hr
    | cutOver r hr => simp [hnone] at hr
    | _ => exact Or.inl hnone
  | @ran p _ _ _ hm =>
    generalize s.runners p = c at hm
    cases hm with
    | saved outcome => exact Or.inl (by simp only [hnone, Option.map_none, ite_self])
    | _ => exact Or.inl hnone

/-- A row after a move is a new one, or an old one moved on. -/
theorem Move.row_after {cfg : Config} {s s' : State} {now : Timestamp} {op : Op} {r' : Record}
    (h : Move cfg s now op s') (hr' : s'.record = some r') :
    (s.record = none ∧ ∃ tenantId data actor gitSha deadline,
      op = .create tenantId data actor gitSha deadline ∧
        r' = createAutomation tenantId cfg.automationId data actor gitSha deadline now) ∨
    ∃ r, s.record = some r ∧ RowMove s now r op r' := by
  cases hrec : s.record with
  | none =>
    left
    rcases h.row_of_none hrec with hnone | ⟨tenantId, data, actor, gitSha, deadline, hop, hcreated⟩
    · simp [hnone] at hr'
    · have hnew := Option.eq_some_unique hr' hcreated
      exact ⟨rfl, tenantId, data, actor, gitSha, deadline, hop, hnew⟩
  | some r =>
    right
    obtain ⟨r₁, h₁, hrow⟩ := h.row hrec
    obtain rfl := Option.eq_some_unique h₁ hr'
    exact ⟨r, rfl, hrow⟩

/-- An invariant of the row alone holds of every new row and is kept by every row
move of a reachable state. -/
theorem Reached.row_invariant {cfg : Config} {E : State → Action → Prop} {tr : Trace State Action}
    {s : State} {P : Record → Prop} (h : Reached cfg E tr s)
    (hnew : ∀ tenantId data actor gitSha deadline now,
      P (createAutomation tenantId cfg.automationId data actor gitSha deadline now))
    (hmove : ∀ tr s now op r r', Reached cfg E tr s → s.clock < now → s.record = some r →
      RowMove s now r op r' → P r → P r') {r : Record} (hr : s.record = some r) : P r := by
  refine h.invariant (I := fun s => ∀ r, s.record = some r → P r)
    (fun world r hr => by simp [initial] at hr) ?_ r hr
  intro tr s now op s' hreach hs _ hlt _ hm r' hr'
  rcases hm.row_after hr' with ⟨-, _, _, _, _, _, -, rfl⟩ | ⟨r, hrec, hrow⟩
  · exact hnew _ _ _ _ _ now
  · exact hmove tr s now op r r' hreach hlt hrec hrow (hs r hrec)

end KeepAutomation
