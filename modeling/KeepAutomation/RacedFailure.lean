import KeepAutomation.CappContract
import KeepAutomation.AuditLog
import KeepAutomation.Sample

/-! When a success recovers from the failure that raced it: its locked re-check
must fall outside the claims of the edit attempts around it. -/
namespace KeepAutomation

open TransitionSystem

/-- Under an edit's claim: building, without a commit. -/
def Automation.underClaim (a : Automation) : Prop := a.buildState = .building ∧ a.buildingSha = none

instance (a : Automation) : Decidable a.underClaim := inferInstanceAs (Decidable (_ ∧ _))

/-- False of the steps by which an edit gets its commit or crashes. -/
def Op.editFails : Op → Bool
  | .edit _ (.commit _) | .edit _ .crash => false
  | _ => true

/-- No DELETE, no crash, no DB fault, and every edit attempt is refused or fails
in its git commit. -/
def noNewerEdit (_ : State) (a : Action) : Prop :=
  a.op.deletes = false ∧ a.op.crashesDelivery = false ∧ a.op.faulty = false ∧ a.op.editFails = true

instance (s : State) (a : Action) : Decidable (noNewerEdit s a) :=
  inferInstanceAs (Decidable (_ ∧ _ ∧ _ ∧ _))

/-- The transition re-checks a success for the commit on a row that is not under
a claim. -/
def rechecksFree (sha : String) (t : Transition State Action) : Bool :=
  match t.act.op with
  | .deliver p (.recheck none) =>
    match (t.pre.deliveries p).unchecked, t.pre.record with
    | some event, some r => event.commitSha = sha ∧ ¬r.automation.underClaim
    | _, _ => false
  | _ => false

/-- The transition is CAPP accepting the image of delivery `p`. -/
def acceptsCall (p : ℕ) (event : CiWebhookIn) (t : Transition State Action) : Bool :=
  match t.act.op, t.pre.deliveries p with
  | .deliver q (.cappAccepts _), .callingCapp e _ => q = p ∧ e = event
  | _, _ => false

/-- CAPP accepted the image of the success delivery `p`. -/
def Accepted (p : ℕ) (event : CiWebhookIn) (tr : Trace State Action) : Prop :=
  event.status = .success ∧ ∃ t ∈ tr, acceptsCall p event t = true

instance (p : ℕ) (event : CiWebhookIn) (tr : Trace State Action) :
    Decidable (Accepted p event tr) := inferInstanceAs (Decidable (_ ∧ _))

/-- Some success for the commit was applied, the row is idle and records the
image of an accepted success for the commit. -/
def Recovered (sha : String) (tr : Trace State Action) (s : State) : Prop :=
  (∃ p event, s.deliveries p = .answered event .applied ∧ event.status = .success ∧
    event.commitSha = sha) ∧
  ∃ r, s.record = some r ∧ r.automation.buildState = .idle ∧
    ∃ p event, Accepted p event tr ∧ event.commitSha = sha ∧
      r.automation.activeDigest = event.image

theorem Accepted.cons {p : ℕ} {event : CiWebhookIn} {tr : Trace State Action}
    {t : Transition State Action} (h : Accepted p event tr) : Accepted p event (t :: tr) := by
  obtain ⟨hstatus, u, hu, hacc⟩ := h
  exact ⟨hstatus, u, List.mem_cons_of_mem t hu, hacc⟩

/-- A delivery reaches its re-check only through an accepted call. -/
theorem Reached.accepted {cfg : Config} {E : State → Action → Prop} {tr : Trace State Action}
    {s : State} (h : Reached cfg E tr s) {p : ℕ} {event : CiWebhookIn}
    (hp : (s.deliveries p).unchecked = some event) : Accepted p event tr := by
  have hwf := h.wellFormed p
  cases hd : s.deliveries p with
  | rechecking event' target created =>
    rw [hd] at hp hwf
    obtain rfl : event' = event := Option.some.inj hp
    obtain ⟨t, ht, deployment, ⟨hop, hcalling⟩, -⟩ := h.called hd
    refine ⟨hwf.2.1, t, ht, ?_⟩
    simp only [acceptsCall, hop, hcalling, and_self, decide_true]
  | _ => simp [hd, Delivery.unchecked] at hp

/-- The row stands at a build state, or an edit's claim will restore it. -/
def Stands (sha : String) (s : State) (a : Automation) (state : BuildState) : Prop :=
  (a.buildState = state ∧ (state = .building → a.buildingSha = some sha)) ∨
    (state ≠ .building ∧ ∃ q claim, (s.edits q).claim? = some claim ∧
      claim.previousBuildState = state)

/-- The invariant of the race: the row stands at idle exactly when a success has
been re-checked outside the claims, and then one of them cut over. -/
structure Race (sha : String) (tr full : Trace State Action) (s : State) (r : Record)
    (state : BuildState) : Prop where
  newest : newestSha r.revisions = some sha
  live : r.automation.matchingState ∉ deletionStates
  noCommit : ∀ q claim tenantId data actor gitSha,
    s.edits q ≠ .finishing claim tenantId data actor gitSha
  stands : Stands sha s r.automation state
  idle_iff : state = .idle ↔ ∃ t ∈ tr, rechecksFree sha t = true
  applied : state = .idle → ∃ p event, s.deliveries p = .answered event .applied ∧
    event.commitSha = sha ∧ Accepted p event full ∧ r.automation.activeDigest = event.image

/-- Outside a claim the row itself shows where it stands. -/
theorem Stands.of_free {sha : String} {s : State} {r : Record} {state : BuildState}
    (hs : Fenced s) (hr : s.record = some r) (h : Stands sha s r.automation state)
    (hfree : ¬r.automation.underClaim) :
    r.automation.buildState = state ∧ (state = .building → r.automation.buildingSha = some sha) := by
  rcases h with hrow | ⟨-, q, claim, hq, -⟩
  · exact hrow
  · have hh := hs.holds_row hr hq
    exact absurd ⟨hh.held.1, hh.noSha⟩ hfree

/-- A re-check outside the claims passes exactly while the row does not stand at
idle, and then it is for the newest commit. -/
theorem Race.recheck_none_iff {sha : String} {tr full : Trace State Action} {s : State} {r : Record}
    {state : BuildState} (hs : Fenced s) (hr : s.record = some r) (h : Race sha tr full s r state)
    (commitSha : String) :
    recheck r commitSha = none ↔
      ¬r.automation.underClaim ∧ state ≠ .idle ∧ commitSha = sha := by
  constructor
  · intro hre
    have hfree : ¬r.automation.underClaim := by
      rintro ⟨hbuild, hsha⟩
      obtain ⟨-, ⟨-, hsome⟩ | ⟨hfail, -⟩⟩ := recheck_none hre
      · simp [hsha] at hsome
      · simp [hbuild] at hfail
    obtain ⟨hstate, hbuilding⟩ := h.stands.of_free hs hr hfree
    obtain ⟨-, ⟨hbuild, hsome⟩ | ⟨hfail, hnewest⟩⟩ := recheck_none hre
    · have hst : state = .building := hstate.symm.trans hbuild
      refine ⟨hfree, by simp [hst], ?_⟩
      exact Option.some.inj (hsome.symm.trans (hbuilding hst))
    · have hst : state = .buildFailed := hstate.symm.trans hfail
      refine ⟨hfree, by simp [hst], ?_⟩
      exact Option.eq_some_unique hnewest h.newest
  · rintro ⟨hfree, hidle, rfl⟩
    obtain ⟨hstate, hbuilding⟩ := h.stands.of_free hs hr hfree
    apply recheck_none_of h.live
    cases state with
    | idle => exact absurd rfl hidle
    | building => exact Or.inl ⟨hstate, hbuilding rfl⟩
    | buildFailed => exact Or.inr ⟨hstate, h.newest⟩

/-- A step that is no free re-check and keeps what the race speaks about. -/
theorem Race.frame {sha : String} {tr full : Trace State Action} {s s' : State} {r r' : Record}
    {state state' : BuildState} {t t' : Transition State Action} (h : Race sha tr full s r state)
    (hnewest : newestSha r'.revisions = newestSha r.revisions)
    (hlive : r'.automation.matchingState ∉ deletionStates)
    (hcommit : ∀ q claim tenantId data actor gitSha,
      s'.edits q ≠ .finishing claim tenantId data actor gitSha)
    (hstands : Stands sha s' r'.automation state') (hidle : state' = .idle ↔ state = .idle)
    (hfree : rechecksFree sha t = true → state = .idle)
    (hdeliveries : ∀ p event, s.deliveries p = .answered event .applied →
      s'.deliveries p = .answered event .applied)
    (hactive : r'.automation.activeDigest = r.automation.activeDigest) :
    Race sha (t :: tr) (t' :: full) s' r' state' := by
  refine ⟨hnewest.trans h.newest, hlive, hcommit, hstands, ?_, ?_⟩
  · rw [hidle, h.idle_iff]
    constructor
    · rintro ⟨u, hu, hfreeu⟩
      exact ⟨u, List.mem_cons_of_mem _ hu, hfreeu⟩
    · rintro ⟨u, hu, hfreeu⟩
      rcases List.mem_cons.mp hu with rfl | hu
      · exact h.idle_iff.mp (hfree hfreeu)
      · exact ⟨u, hu, hfreeu⟩
  · intro hst
    obtain ⟨p, event, hp, hsha, hacc, himage⟩ := h.applied (hidle.mp hst)
    exact ⟨p, event, hdeliveries p event hp, hsha, hacc.cons, hactive.trans himage⟩

/-- An edit's move, when edits never finish: the row stands where it stood. -/
theorem Race.editMove {cfg : Config} {sha : String} {tr full : Trace State Action} {s : State}
    {r : Record} {state : BuildState} {now : Timestamp} {p : ℕ} {o : EditOp} {sh : Shared} {e : Edit}
    {t : Transition State Action} (hs : Fenced s) (hr : s.record = some r)
    (hE : noNewerEdit s ⟨now, .edit p o⟩) (hop : t.act.op = .edit p o)
    (h : Race sha tr full s r state) (hm : EditMove cfg now s.toShared (s.edits p) o sh e) :
    ∃ r' state', sh.record = some r' ∧ Race sha (t :: tr) (t :: full)
      { s with toShared := sh, edits := Function.update s.edits p e, clock := now } r' state' := by
  obtain ⟨-, -, hfault, hfails⟩ := hE
  have hnotfree : rechecksFree sha t = true → state = .idle := by
    simp [rechecksFree, hop]
  have hcommit : (∀ claim tenantId data actor gitSha,
      e ≠ .finishing claim tenantId data actor gitSha) →
      ∀ q claim tenantId data actor gitSha,
        Function.update s.edits p e q ≠ .finishing claim tenantId data actor gitSha := by
    intro he
    exact (Function.forall_update_iff s.edits fun _ e => ∀ claim tenantId data actor gitSha,
      e ≠ .finishing claim tenantId data actor gitSha).mpr ⟨he, fun q _ => h.noCommit q⟩
  -- a move that keeps the edit's own claim keeps where the row stands
  have hkeep : (∀ claim, (s.edits p).claim? = some claim → e.claim? = some claim) →
      Stands sha { s with toShared := sh, edits := Function.update s.edits p e, clock := now }
        r.automation state := by
    intro hclaim
    rcases h.stands with hrow | ⟨hne, q, claim, hq, hprev⟩
    · exact Or.inl hrow
    · refine Or.inr ⟨hne, q, claim, ?_, hprev⟩
      change (Function.update s.edits p e q).claim? = some claim
      by_cases hqp : q = p
      · subst hqp
        rw [Function.update_self]
        exact hclaim claim hq
      · rw [Function.update_of_ne hqp]
        exact hq
  have hfinishing := h.noCommit p
  generalize he : s.edits p = e₀ at hm hkeep hfinishing
  cases hm with
  | refused =>
    exact ⟨r, state, hr, h.frame rfl h.live (hcommit (by simp)) (hkeep (by simp [Edit.claim?]))
      Iff.rfl hnotfree (fun _ _ hp => hp) rfl⟩
  | @claimed tenantId data actor deadline r₁ h₁ _ _ _ hbuild _ =>
    obtain rfl := Option.eq_some_unique h₁ hr
    have hfree : ¬r₁.automation.underClaim := fun hclaimed => hbuild hclaimed.1
    obtain ⟨hstate, -⟩ := h.stands.of_free hs hr hfree
    refine ⟨_, state, rfl, h.frame rfl h.live (hcommit (by simp)) ?_ Iff.rfl hnotfree
      (fun _ _ hp => hp) rfl⟩
    refine Or.inr ⟨hstate ▸ hbuild, p, r₁.claim deadline, ?_, hstate⟩
    simp only [Function.update_self, Edit.claim?]
  | committed => simp [Op.editFails] at hfails
  | commitFailed =>
    exact ⟨r, state, hr, h.frame rfl h.live (hcommit (by simp))
      (hkeep fun claim hclaim => hclaim) Iff.rfl hnotfree (fun _ _ hp => hp) rfl⟩
  | @released claim =>
    have hown : (s.edits p).claim? = some claim := by rw [he]; rfl
    have hh := hs.holds_row hr hown
    have hprev : claim.previousBuildState = state := by
      rcases h.stands with ⟨hstate, hsha⟩ | ⟨-, q, other, hq, hprev⟩
      · have hbuilding : state = .building := hstate.symm.trans hh.held.1
        have hsome := hsha hbuilding
        simp [hh.noSha] at hsome
      · obtain rfl := hs.exclusive q p other claim hq hown
        obtain rfl := Option.eq_some_unique hq hown
        exact hprev
    refine ⟨releaseBuildClaim claim r, state, by simp only [hr, Option.map_some], ?_⟩
    rw [releaseBuildClaim_held hh.held]
    refine h.frame rfl h.live (hcommit (by simp)) (Or.inl ⟨hprev, ?_⟩) Iff.rfl hnotfree
      (fun _ _ hp => hp) rfl
    intro hbuilding
    exact absurd (hprev.trans hbuilding) hh.previous
  | releaseFailed => simp [Op.faulty] at hfault
  | finished => exact absurd rfl (hfinishing _ _ _ _ _)
  | notFinished => exact absurd rfl (hfinishing _ _ _ _ _)
  | crashed => simp [Op.editFails] at hfails

/-- A delivery's move: the row comes to stand at idle by a free re-check and by
nothing else, and at a failed build by an admitted failure. -/
theorem Race.deliveryMove {cfg : Config} {sha : String} {tr full : Trace State Action} {s : State}
    {r : Record} {state : BuildState} {now : Timestamp} {p : ℕ} {o : DeliveryOp} {sh : Shared}
    {d : Delivery} (hs : Fenced s)
    (hacc : ∀ event, (s.deliveries p).unchecked = some event → Accepted p event full)
    (hr : s.record = some r) (hE : noNewerEdit s ⟨now, .deliver p o⟩)
    (h : Race sha tr full s r state) {s' : State}
    (hs' : s' = { s with
      toShared := sh, deliveries := Function.update s.deliveries p d, clock := now })
    (hd : DeliveryMove cfg now s.toShared (s.deliveries p) o sh d) :
    ∃ r' state', s'.record = some r' ∧
      Race sha (⟨s, ⟨now, .deliver p o⟩, s'⟩ :: tr) (⟨s, ⟨now, .deliver p o⟩, s'⟩ :: full)
        s' r' state' := by
  subst hs'
  obtain ⟨-, hcrash, hfault, -⟩ := hE
  have hanswered : ∀ q event, s.deliveries q = .answered event .applied →
      Function.update s.deliveries p d q = .answered event .applied := by
    intro q event hq
    by_cases hqp : q = p
    · rw [hqp] at hq
      exact absurd hq (hd.not_answered event .applied)
    · rw [Function.update_of_ne hqp]
      exact hq
  have hfreeOf : ∀ event, (s.deliveries p).unchecked = some event → o = .recheck none →
      rechecksFree sha ⟨s, ⟨now, .deliver p o⟩, { s with
        toShared := sh, deliveries := Function.update s.deliveries p d, clock := now }⟩ =
          decide (event.commitSha = sha ∧ ¬r.automation.underClaim) := by
    rintro event hevent rfl
    simp only [rechecksFree, hevent, hr]
  generalize hp : s.deliveries p = d₀ at hd hacc hfreeOf
  have hother : d₀.unchecked = none → rechecksFree sha ⟨s, ⟨now, .deliver p o⟩, { s with
        toShared := sh, deliveries := Function.update s.deliveries p d, clock := now }⟩ = true →
          state = .idle := by
    intro hnone hfree
    cases o with
    | recheck fault =>
      cases fault with
      | none => simp [rechecksFree, hp, hnone] at hfree
      | some f => simp [rechecksFree] at hfree
    | _ => simp [rechecksFree] at hfree
  cases hd with
  | @failureRecorded event r₁ h₁ hadm =>
    obtain rfl := Option.eq_some_unique h₁ hr
    obtain ⟨-, hbuild, hsha⟩ := admission_none hadm
    have hfree : ¬r₁.automation.underClaim := fun hclaimed => by simp [hclaimed.2] at hsha
    obtain ⟨hstate, -⟩ := h.stands.of_free hs hr hfree
    have hst : state = .building := hstate.symm.trans hbuild
    exact ⟨_, .buildFailed, rfl, h.frame (newestSha_failBuild ..) h.live h.noCommit
      (Or.inl ⟨rfl, by simp⟩) (by simp [hst]) (hother rfl) hanswered rfl⟩
  | @cutOver event target created r₁ h₁ hre =>
    obtain rfl := Option.eq_some_unique h₁ hr
    obtain ⟨hfree, -, hsha⟩ := (h.recheck_none_iff hs hr event.commitSha).mp hre
    refine ⟨_, .idle, rfl, ⟨?_, h.live, h.noCommit, Or.inl ⟨rfl, by simp⟩, ?_, ?_⟩⟩
    · exact (newestSha_cutOver ..).trans h.newest
    · refine iff_of_true rfl ⟨_, List.mem_cons_self .., ?_⟩
      rw [hfreeOf event rfl rfl]
      exact decide_eq_true ⟨hsha, hfree⟩
    · intro _
      refine ⟨p, event, ?_, hsha, (hacc event rfl).cons, rfl⟩
      exact Function.update_self ..
  | @ignored event target created r₁ h₁ reason hre hne =>
    obtain rfl := Option.eq_some_unique h₁ hr
    refine ⟨r₁, state, hr, h.frame rfl h.live h.noCommit h.stands Iff.rfl ?_ hanswered rfl⟩
    -- outside the claims only a row that stands at idle ignores this commit
    intro hfree
    rw [hfreeOf event rfl rfl] at hfree
    obtain ⟨hsha, hnoclaim⟩ := of_decide_eq_true hfree
    by_contra hidle
    have hpass := (h.recheck_none_iff hs hr event.commitSha).mpr ⟨hnoclaim, hidle, hsha⟩
    simp [hpass] at hre
  | tearingDown r₁ h₁ hre =>
    obtain rfl := Option.eq_some_unique h₁ hr
    exact absurd ((recheck_deleting_iff r₁ _).mp hre) h.live
  | @notRecorded event target created fault error hnone =>
    cases fault with
    | none =>
      have hrec := hnone rfl
      simp [hr] at hrec
    | some f => simp [Op.faulty] at hfault
  | crashed => simp [Op.crashesDelivery] at hcrash
  | _ => exact ⟨r, state, hr, h.frame rfl h.live h.noCommit h.stands Iff.rfl (hother rfl)
      hanswered rfl⟩

/-- The step lemma of the race. -/
theorem Race.move {cfg : Config} {sha : String} {tr full : Trace State Action} {s s' : State}
    {r : Record} {state : BuildState} {now : Timestamp} {op : Op} (hs : Fenced s)
    (haccepted : ∀ p event, (s.deliveries p).unchecked = some event → Accepted p event full)
    (hr : s.record = some r) (hE : noNewerEdit s ⟨now, op⟩) (h : Race sha tr full s r state)
    (hm : Move cfg s now op s') :
    ∃ r' state', s'.record = some r' ∧
      Race sha (⟨s, ⟨now, op⟩, s'⟩ :: tr) (⟨s, ⟨now, op⟩, s'⟩ :: full) s' r' state' := by
  have hdel := hE.1
  cases hm with
  | created hnone => simp [hr] at hnone
  | refused hop =>
    refine ⟨r, state, hr, h.frame rfl h.live h.noCommit h.stands Iff.rfl ?_ (fun _ _ hp => hp) rfl⟩
    intro hfree
    cases op <;> simp [rechecksFree, Op.isRequest] at hfree hop
  | pushed =>
    exact ⟨r, state, hr, h.frame rfl h.live h.noCommit h.stands Iff.rfl (by simp [rechecksFree])
      (fun _ _ hp => hp) rfl⟩
  | enabled r₁ h₁ =>
    obtain rfl := Option.eq_some_unique h₁ hr
    exact ⟨_, state, rfl, h.frame (newestSha_transition _ _ rfl) (by simp [Record.transition])
      h.noCommit h.stands Iff.rfl (by simp [rechecksFree]) (fun _ _ hp => hp) rfl⟩
  | disabled r₁ h₁ =>
    obtain rfl := Option.eq_some_unique h₁ hr
    exact ⟨_, state, rfl, h.frame (newestSha_transition _ _ rfl) (by simp [Record.transition])
      h.noCommit h.stands Iff.rfl (by simp [rechecksFree]) (fun _ _ hp => hp) rfl⟩
  | deleteAdmitted => simp [Op.deletes] at hdel
  | ran => simp [Op.deletes] at hdel
  | edited hedit => exact h.editMove hs hr hE rfl hedit
  | delivered hd => exact h.deliveryMove hs (haccepted _) hr hE rfl hd

/-- From a row that builds the commit, with edits that all fail: once all calls
have finished the build has recovered if and only if some success for the commit
was re-checked outside the claims. -/
theorem raced_failure_recovers_iff (cfg : Config) (tr₁ tr₂ : Trace State Action) (s₁ s : State)
    (r₁ : Record) (sha : String) (h₁ : Reached cfg anything tr₁ s₁) (hr₁ : s₁.record = some r₁)
    (hbuilding : r₁.automation.buildState = .building)
    (hsha : r₁.automation.buildingSha = some sha) (h₂ : SystemRun cfg noNewerEdit s₁ tr₂ s)
    (hfinished : ∀ p, (s.deliveries p).inFlight = false ∧ (s.edits p).claim? = none) :
    Recovered sha (tr₂ ++ tr₁) s ↔ ∃ t ∈ tr₂, rechecksFree sha t = true := by
  have hfull : ∀ {tr s}, SystemRun cfg noNewerEdit s₁ tr s → Reached cfg anything (tr ++ tr₁) s := by
    intro tr s hrun
    obtain ⟨world, hrun₁⟩ := h₁
    exact ⟨world, hrun₁.append (hrun.mono fun _ _ _ => trivial)⟩
  have hrace : ∃ r state, s.record = some r ∧ Race sha tr₂ (tr₂ ++ tr₁) s r state := by
    clear hfinished
    induction h₂ with
    | nil =>
      have hcoherent := h₁.fenced.coherent r₁ hr₁
      refine ⟨r₁, .building, hr₁, ⟨h₁.building_newest hr₁ hsha, ?_, ?_, Or.inl ⟨hbuilding, fun _ => hsha⟩,
        by simp, by simp⟩⟩
      · intro hdel
        exact hcoherent.notBuilding hdel hbuilding
      · intro q claim tenantId data actor gitSha hq
        have hh : Holds claim r₁.automation := h₁.fenced.holds_row hr₁ (by rw [hq]; rfl)
        simp [hh.noSha] at hsha
    | @snoc tr s s' a hrun ha hstep ih =>
      obtain ⟨r, state, hr, hrace⟩ := ih
      have hreach := hfull hrun
      exact hrace.move hreach.fenced (fun p event hp => hreach.accepted hp) hr ha
        (step_move hstep).2.2
  obtain ⟨r, state, hr, hrace⟩ := hrace
  -- no claim is left, so the row itself shows where it stands
  have hstate : r.automation.buildState = state := by
    rcases hrace.stands with ⟨hstate, -⟩ | ⟨-, q, claim, hq, -⟩
    · exact hstate
    · simp [(hfinished q).2] at hq
  rw [← hrace.idle_iff]
  constructor
  · rintro ⟨-, r', hr', hidle, -⟩
    obtain rfl := Option.eq_some_unique hr' hr
    exact hstate.symm.trans hidle
  · intro hidle
    obtain ⟨p, event, hp, hcommit, hacc, himage⟩ := hrace.applied hidle
    exact ⟨⟨p, event, hp, hacc.1, hcommit⟩, r, hr, hstate.trans hidle, p, event, hacc, hcommit, himage⟩

theorem raced_failure_recovers_sample : ∃ tr₁ tr₂ s,
    Reached sampleConfig anything (tr₂ ++ tr₁) s ∧ Recovered firstSha (tr₂ ++ tr₁) s := by
  obtain ⟨s₁, tr₂, s, hs₁, hs, hstart, hmoved, hsmall, hcheck⟩ :=
    runs_of_runSample anything noNewerEdit racePrefix recoveredOps
      (fun s₁ tr s =>
        (∃ r ∈ s₁.record, r.automation.buildState = .building ∧
          r.automation.buildingSha = some firstSha) ∧
        (∀ t ∈ tr ++ sampleTrace racePrefix, ∀ q ∈ t.act.op.party?, q < 2) ∧
        (∀ p : ℕ, p < 2 → (s.deliveries p).inFlight = false ∧ (s.edits p).claim? = none) ∧
        ∃ t ∈ tr, rechecksFree firstSha t = true)
      (by decide +kernel) (by decide +kernel)
  obtain ⟨r₁, hr₁, hbuilding, hsha⟩ := hstart
  have hfull := hs₁.append (hs.mono fun _ _ _ => trivial)
  have hfinished := forall_calls (P := fun d e => d.inFlight = false ∧ e.claim? = none) hfull 2 hmoved
    ⟨rfl, rfl⟩ hsmall
  have hiff := raced_failure_recovers_iff sampleConfig _ tr₂ s₁ s r₁ firstSha ⟨sampleWorld, hs₁⟩ hr₁
    hbuilding hsha hs hfinished
  exact ⟨_, tr₂, s, ⟨sampleWorld, hfull⟩, hiff.mpr hcheck⟩

/-- A success whose call CAPP accepted is re-checked under the claim of an edit
that then fails in git: the build stays failed and nothing is recorded. -/
theorem stranded_by_claim : ∃ tr₁ tr₂ s₁ s r₁, Reached sampleConfig anything tr₁ s₁ ∧
    s₁.record = some r₁ ∧ r₁.automation.buildState = .building ∧
    r₁.automation.buildingSha = some firstSha ∧
    (∃ target, s₁.deliveries 0 = .callingCapp firstSuccess target) ∧
    SystemRun sampleConfig noNewerEdit s₁ tr₂ s ∧ Accepted 0 firstSuccess tr₂ ∧
    (∀ p, (s.deliveries p).inFlight = false ∧ (s.edits p).claim? = none) ∧
    ¬Recovered firstSha (tr₂ ++ tr₁) s := by
  obtain ⟨s₁, tr₂, s, hs₁, hs, hstart, hcalling, haccepted, hmoved, hsmall, hfailed⟩ :=
    runs_of_runSample anything noNewerEdit racePrefix strandedOps
      (fun s₁ tr s =>
        (∃ r ∈ s₁.record, r.automation.buildState = .building ∧
          r.automation.buildingSha = some firstSha) ∧
        (s₁.deliveries 0).calling = some firstSuccess ∧
        Accepted 0 firstSuccess tr ∧
        (∀ t ∈ tr ++ sampleTrace racePrefix, ∀ q ∈ t.act.op.party?, q < 2) ∧
        (∀ p : ℕ, p < 2 → (s.deliveries p).inFlight = false ∧ (s.edits p).claim? = none) ∧
        ∃ r ∈ s.record, r.automation.buildState = .buildFailed)
      (by decide +kernel) (by decide +kernel)
  obtain ⟨r₁, hr₁, hbuilding, hsha⟩ := hstart
  obtain ⟨r, hr, hfailed⟩ := hfailed
  have hfull := hs₁.append (hs.mono fun _ _ _ => trivial)
  have hfinished := forall_calls (P := fun d e => d.inFlight = false ∧ e.claim? = none) hfull 2 hmoved
    ⟨rfl, rfl⟩ hsmall
  have hcall : ∃ target, s₁.deliveries 0 = .callingCapp firstSuccess target := by
    cases hd : s₁.deliveries 0 with
    | callingCapp event target =>
      simp only [hd, Delivery.calling, Option.some.injEq] at hcalling
      exact ⟨target, by rw [hcalling]⟩
    | _ => simp [hd, Delivery.calling] at hcalling
  refine ⟨_, tr₂, s₁, s, r₁, ⟨sampleWorld, hs₁⟩, hr₁, hbuilding, hsha, hcall, hs, haccepted,
    hfinished, ?_⟩
  rintro ⟨-, r', hr', hidle, -⟩
  obtain rfl := Option.eq_some_unique hr' hr
  simp [hidle] at hfailed

end KeepAutomation
