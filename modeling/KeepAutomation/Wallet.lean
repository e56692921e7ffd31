import KeepAutomation.BuildHistory
import KeepAutomation.CappContract
import KeepAutomation.Sample

/-! A cutover always deployed the current definition, and a deployed automation
stays in the wallet it was created in. -/
namespace KeepAutomation

open TransitionSystem

/-- The event and the phase-1 snapshot of a delivery between its admission and
its re-check. -/
def Delivery.snapshot? : Delivery → Option (CiWebhookIn × BuildTarget)
  | .callingCapp event target => some (event, target)
  | .rechecking event target _ => some (event, target)
  | _ => none

/-- A snapshot against the row: its commit was requested, and it is current for
as long as that commit is the newest and no success settled it. -/
structure Snapshot (r : Record) (event : CiWebhookIn) (target : BuildTarget) : Prop where
  requested : ∃ v ∈ r.revisions, v.action.onBuildAxis = true ∧ v.gitSha = some event.commitSha
  current : newestSha r.revisions = some event.commitSha →
    (∀ v ∈ r.revisions, v.action = .buildSucceeded → v.gitSha ≠ some event.commitSha) →
    target = r.automation.target

/-- What a row move does to the deployed definition and to the newest commit:
nothing, unless an edit finishes or a delivery cuts over. -/
theorem RowMove.target {s : State} {now : Timestamp} {r r' : Record} {op : Op}
    (h : RowMove s now r op r') :
    (newestSha r'.revisions = newestSha r.revisions ∧ r'.automation.target = r.automation.target) ∨
    (∃ p claim tenantId data actor gitSha, op = .edit p (.finish none) ∧
      s.edits p = .finishing claim tenantId data actor gitSha ∧ claim.held r.automation ∧
      r' = r.edited data actor gitSha now) ∨
    ∃ p event target created, op = .deliver p (.recheck none) ∧
      s.deliveries p = .rechecking event target created ∧ recheck r event.commitSha = none ∧
      r' = KeepAutomation.cutOver r event created now := by
  cases h with
  | @edited p claim tenantId data actor gitSha hp hheld =>
    exact Or.inr (Or.inl ⟨p, claim, tenantId, data, actor, gitSha, rfl, hp, hheld, rfl⟩)
  | @cutOver p event target created hp hre =>
    exact Or.inr (Or.inr ⟨p, event, target, created, rfl, hp, hre, rfl⟩)
  | same => exact Or.inl ⟨rfl, rfl⟩
  | claimed => exact Or.inl ⟨rfl, rfl⟩
  | @released p claim =>
    obtain ⟨_, _, _, he⟩ := releaseBuildClaim_frame claim r
    rw [he]
    exact Or.inl ⟨rfl, rfl⟩
  | @checkpointed p a n completed =>
    obtain ⟨_, _, _, he⟩ := checkpoint_frame completed now r
    rw [he]
    exact Or.inl ⟨rfl, rfl⟩
  | enabled => exact Or.inl ⟨newestSha_transition r now rfl, rfl⟩
  | disabled => exact Or.inl ⟨newestSha_transition r now rfl, rfl⟩
  | deleteAdmitted => exact Or.inl ⟨newestSha_markDeleting .., rfl⟩
  | buildFailed => exact Or.inl ⟨newestSha_failBuild .., rfl⟩

/-- Revisions are never removed; at most their resulting digest is stamped. -/
theorem RowMove.keeps_revision {s : State} {now : Timestamp} {r r' : Record} {op : Op}
    (h : RowMove s now r op r') {v : AutomationRevision} (hv : v ∈ r.revisions) :
    ∃ v' ∈ r'.revisions, v'.action = v.action ∧ v'.gitSha = v.gitSha := by
  rcases h.revisions with he | ⟨w, -, he | ⟨event, he⟩⟩
  · exact ⟨v, he ▸ hv, rfl, rfl⟩
  · exact ⟨v, he ▸ List.mem_append_left _ hv, rfl, rfl⟩
  · refine ⟨v.stamp event, ?_, v.stamp_action event, v.stamp_gitSha event⟩
    rw [he]
    exact List.mem_append_left _ (List.mem_map_of_mem hv)

/-- What a passed re-check says of the newest request. -/
theorem recheck_newest {r : Record} {commitSha : String} (h : recheck r commitSha = none)
    (hnewest : ∀ sha, r.automation.buildingSha = some sha → newestSha r.revisions = some sha) :
    newestSha r.revisions = some commitSha := by
  obtain ⟨-, ⟨-, hsha⟩ | ⟨-, hraced⟩⟩ := recheck_none h
  · exact hnewest commitSha hsha
  · exact hraced

/-- The step lemma of a snapshot: a finished edit makes its commit old, a cutover
settles it, and nothing else touches the definition. -/
theorem Snapshot.rowMove {s : State} {now : Timestamp} {r r' : Record} {op : Op}
    {event : CiWebhookIn} {target : BuildTarget} (h : Snapshot r event target)
    (hdated : ∀ v ∈ r.revisions, v.createdAt < now)
    (hnewest : ∀ sha, r.automation.buildingSha = some sha → newestSha r.revisions = some sha)
    (hfresh : ∀ p claim tenantId data actor gitSha,
      s.edits p = .finishing claim tenantId data actor gitSha →
        ∀ v ∈ r.revisions, v.action.onBuildAxis = true → v.gitSha ≠ some gitSha)
    (hm : RowMove s now r op r') : Snapshot r' event target := by
  obtain ⟨v, hv, haxis, hsha⟩ := h.requested
  constructor
  · obtain ⟨v', hv', haction, hsha'⟩ := hm.keeps_revision hv
    exact ⟨v', hv', by rw [haction]; exact haxis, hsha'.trans hsha⟩
  intro hnew hnosuccess
  rcases hm.target with ⟨hsame, htarget⟩ | ⟨p, claim, tenantId, data, actor, gitSha, -, hp, -, rfl⟩ |
    ⟨p, event', target', created, -, hp, hre, rfl⟩
  · rw [htarget]
    apply h.current (hsame.symm.trans hnew)
    intro u hu haction hsucc
    obtain ⟨u', hu', haction', hsucc'⟩ := hm.keeps_revision hu
    exact hnosuccess u' hu' (haction'.trans haction) (hsucc'.trans hsucc)
  · -- the finished edit's commit is not the one of the snapshot
    have hgit : newestSha (r.edited data actor gitSha now).revisions = some gitSha :=
      newestSha_edited hdated
    have hsame : gitSha = event.commitSha := Option.eq_some_unique hgit hnew
    exact absurd (hsame ▸ hsha) (hfresh p claim tenantId data actor gitSha hp v hv haxis)
  · -- the cutover that just committed was for the newest commit, so for this one
    have hold : newestSha r.revisions = some event'.commitSha := recheck_newest hre hnewest
    have hkeep := newestSha_cutOver r event' now created
    have hsame : event'.commitSha = event.commitSha :=
      Option.some.inj (hold.symm.trans (hkeep.symm.trans hnew))
    have hlast : buildRevision event' .buildSucceeded event'.image now ∈
        (cutOver r event' created now).revisions :=
      List.mem_append_right _ (List.mem_singleton.mpr rfl)
    exact absurd (congrArg some hsame) (hnosuccess _ hlast rfl)

/-- Every delivery between its admission and its re-check holds a snapshot. -/
theorem Reached.snapshot {cfg : Config} {tr : Trace State Action} {s : State}
    (h : Reached cfg freshShas tr s) {p : ℕ} {event : CiWebhookIn} {target : BuildTarget}
    (hp : (s.deliveries p).snapshot? = some (event, target)) :
    ∃ r, s.record = some r ∧ Snapshot r event target := by
  refine h.invariant (I := fun s => ∀ p event target, (s.deliveries p).snapshot? = some (event, target) →
    ∃ r, s.record = some r ∧ Snapshot r event target)
    (fun world p event target hp => by simp [initial, Delivery.snapshot?] at hp) ?_ p event target hp
  intro tr s now op s' hreach hs _ hlt _ hm p event target hp
  have carry : ∀ r, s.record = some r → Snapshot r event target →
      ∃ r', s'.record = some r' ∧ Snapshot r' event target := by
    intro r hr hsnap
    obtain ⟨r', hr', hrow⟩ := hm.row hr
    obtain ⟨b, older, hfits⟩ := hreach.history hr
    refine ⟨r', hr', hsnap.rowMove ?_ ?_ ?_ hrow⟩
    · intro v hv
      exact lt_of_le_of_lt (hreach.dated r hr v hv) hlt
    · intro sha hsha
      exact hreach.building_newest hr hsha
    · intro q claim tenantId data actor gitSha hq
      exact hfits.unrequested hq
  rcases hm.delivery p with ⟨-, hsame⟩ | ⟨o, -, hd⟩
  · rw [hsame] at hp
    obtain ⟨r, hr, hsnap⟩ := hs p event target hp
    exact carry r hr hsnap
  · suffices hsnap : ∃ r, s.record = some r ∧ Snapshot r event target by
      obtain ⟨r, hr, hsnap⟩ := hsnap
      exact carry r hr hsnap
    have hbefore := hs p event target
    clear carry hm
    generalize s.deliveries p = d at hd hbefore
    generalize s'.deliveries p = d' at hd hp
    generalize s'.toShared = sh' at hd
    cases hd with
    | @successAdmitted event' _ r hr hadm =>
      simp only [Delivery.snapshot?, Option.some.injEq, Prod.mk.injEq] at hp
      obtain ⟨rfl, rfl⟩ := hp
      obtain ⟨-, -, hsha⟩ := admission_none hadm
      -- the row is building this commit, so its newest request is this commit's
      have hnew := hreach.building_newest hr hsha
      cases hreq : newestRequest r.revisions with
      | none => simp [newestSha, hreq] at hnew
      | some v =>
        have hmem := List.mem_filter.mp (List.argmax_mem hreq)
        have haxis : v.action.onBuildAxis = true := by
          cases ha : v.action <;> simp_all [RevisionAction.requesting, RevisionAction.onBuildAxis]
        have hcommit : v.gitSha = some event'.commitSha := by
          simpa [newestSha, hreq] using hnew
        exact ⟨r, hr, ⟨v, hmem.1, haxis, hcommit⟩, fun _ _ => rfl⟩
    | cappAccepted => exact hbefore hp
    | _ => simp [Delivery.snapshot?] at hp

/-- A cutover deployed what the locked row still says. -/
theorem Reached.cutover_current {cfg : Config} {tr : Trace State Action} {s : State}
    (h : Reached cfg freshShas tr s) {p : ℕ} {event : CiWebhookIn} {target : BuildTarget}
    {created : Option CappDeployment} {r : Record}
    (hp : s.deliveries p = .rechecking event target created) (hr : s.record = some r)
    (hre : recheck r event.commitSha = none) : target = r.automation.target := by
  obtain ⟨r₁, h₁, hsnap⟩ := h.snapshot (p := p) (by rw [hp]; rfl)
  obtain rfl := Option.eq_some_unique h₁ hr
  obtain ⟨b, older, hfits⟩ := h.history hr
  apply hsnap.current
  · exact recheck_newest hre fun sha hsha => h.building_newest hr hsha
  · exact hfits.first_success hre

/-- The target holds the columns of a row that phase 1 reads. -/
structure BuildTarget.Reads (target : BuildTarget) (a : Automation) : Prop where
  tenantId : target.tenantId = a.tenantId
  wallet : target.wallet = a.nameSpace
  secretName : target.secretName = a.secretName
  cappDeploymentId : target.cappDeploymentId = a.cappDeploymentId

/-- The call to CAPP that the columns of a row ask for. -/
def Automation.asksFor (a : Automation) (image : String) : CappCall :=
  match a.cappDeploymentId with
  | none => .createDeployment a.id a.nameSpace image (a.secretName.toList.filter fun n => n ≠ "")
  | some deploymentId => .rollout deploymentId image (a.secretName.toList.filter fun n => n ≠ "")

/-- The transition in which phase 1 of delivery `p` read its target. -/
def ReadIn (p : ℕ) (event : CiWebhookIn) (target : BuildTarget) (t : Transition State Action) : Prop :=
  t.act.op = .deliver p (.receive event false) ∧ t.post.deliveries p = .callingCapp event target ∧
    ∃ r, t.pre.record = some r ∧ target.Reads r.automation

/-- A delivery that is about to cut over, against the row: what it read in phase 1
and passed to CAPP is what the row says now. -/
structure DeployedFor (tr : Trace State Action) (p : ℕ) (event : CiWebhookIn) (target : BuildTarget)
    (a : Automation) : Prop where
  read : ∃ t ∈ tr, ReadIn p event target t
  passed : ∃ t ∈ tr, ∃ deployment, CalledIn p event target deployment t ∧
    t.post.world = t.pre.world.cappCall (a.asksFor (event.image.getD ""))
  current : target.Reads a

theorem Automation.target_reads (a : Automation) : a.target.Reads a := ⟨rfl, rfl, rfl, rfl⟩

theorem BuildTarget.Reads.deployCall {target : BuildTarget} {a : Automation} (h : target.Reads a)
    (event : CiWebhookIn) : KeepAutomation.deployCall a.id event target =
      a.asksFor (event.image.getD "") := by
  have hrefs : target.secretRefs = a.secretName.toList.filter fun n => n ≠ "" := by
    rw [BuildTarget.secretRefs, h.secretName]
    cases a.secretName with
    | none => rfl
    | some n =>
      by_cases hn : n = ""
      · simp [hn]
      · simp [hn]
  have hcapp := h.cappDeploymentId
  cases hname : a.cappDeploymentId with
  | none =>
    rw [hname] at hcapp
    simp only [KeepAutomation.deployCall, Automation.asksFor, hcapp, hname, h.wallet, hrefs]
  | some n =>
    rw [hname] at hcapp
    simp only [KeepAutomation.deployCall, Automation.asksFor, hcapp, hname, hrefs]

/-- What phase 1 read is held from the admission to the re-check. -/
theorem Reached.readIn {cfg : Config} {E : State → Action → Prop} {tr : Trace State Action} {s : State}
    (h : Reached cfg E tr s) {p : ℕ} {event : CiWebhookIn} {target : BuildTarget}
    (hp : (s.deliveries p).snapshot? = some (event, target)) :
    ∃ t ∈ tr, ReadIn p event target t := by
  obtain ⟨world, hrun⟩ := h
  refine hrun.history (P := fun tr s => (s.deliveries p).snapshot? = some (event, target) →
    ∃ t ∈ tr, ReadIn p event target t) ?_ ?_ hp
  · intro hp
    simp [initial, Delivery.snapshot?] at hp
  intro tr s a s' _ hs _ hstep hp
  have older (hp : (s.deliveries p).snapshot? = some (event, target)) :
      ∃ t ∈ (⟨s, a, s'⟩ :: tr : Trace State Action), ReadIn p event target t := by
    obtain ⟨t, ht, hread⟩ := hs hp
    exact ⟨t, List.mem_cons_of_mem _ ht, hread⟩
  rcases (step_move hstep).2.2.delivery p with ⟨-, hsame⟩ | ⟨o, ho, hd⟩
  · exact older (hsame ▸ hp)
  · generalize hafter : s'.deliveries p = d' at hd hp
    generalize s.deliveries p = d at hd older
    generalize s'.toShared = sh' at hd
    cases hd with
    | successAdmitted _ r hr =>
      obtain ⟨rfl, rfl⟩ := Prod.mk.inj (Option.some.inj hp)
      exact ⟨_, List.mem_cons_self, ho, hafter, r, hr, r.automation.target_reads⟩
    | cappAccepted => exact older hp
    | _ => simp [Delivery.snapshot?] at hp

/-- An accepted call is made with what the delivery holds. -/
theorem CalledIn.world {cfg : Config} {t : Transition State Action} {p : ℕ} {event : CiWebhookIn}
    {target : BuildTarget} {deployment : CappDeployment} (h : CalledIn p event target deployment t)
    (hstep : step cfg t.pre t.act = some t.post) :
    t.post.world = t.pre.world.cappCall (deployCall cfg.automationId event target) := by
  obtain ⟨hop, hbefore⟩ := h
  rcases (step_move hstep).2.2.delivery p with ⟨hother, -⟩ | ⟨o, ho, hd⟩
  · exact absurd hop (hother _)
  · obtain rfl := (Op.deliver.inj (ho.symm.trans hop)).2
    rw [hbefore] at hd
    generalize t.post.toShared = sh' at hd ⊢
    generalize t.post.deliveries p = d' at hd
    cases hd with
    | cappAccepted => rfl

theorem Reached.rowId {cfg : Config} {E : State → Action → Prop} {tr : Trace State Action} {s : State}
    (h : Reached cfg E tr s) {r : Record} (hr : s.record = some r) :
    r.automation.id = cfg.automationId := by
  apply h.row_invariant (P := fun r => r.automation.id = cfg.automationId) _ _ hr
  · intros
    rfl
  · intro tr s now op r r' _ _ _ hrow hid
    exact hrow.id.trans hid

theorem Reached.deployedFor {cfg : Config} {tr : Trace State Action} {s : State}
    (h : Reached cfg freshShas tr s) {p : ℕ} {event : CiWebhookIn} {target : BuildTarget}
    {created : Option CappDeployment} {r : Record}
    (hp : s.deliveries p = .rechecking event target created) (hr : s.record = some r)
    (hre : recheck r event.commitSha = none) : DeployedFor tr p event target r.automation := by
  have hcurrent : target.Reads r.automation := by
    rw [h.cutover_current hp hr hre]
    exact r.automation.target_reads
  refine ⟨h.readIn (by rw [hp]; rfl), ?_, hcurrent⟩
  obtain ⟨t, ht, deployment, hcalled, -⟩ := h.called hp
  refine ⟨t, ht, deployment, hcalled, ?_⟩
  rw [← hcurrent.deployCall event, h.rowId hr]
  obtain ⟨world, hrun⟩ := h
  exact hcalled.world (hrun.transition ht).2.1

/-- The payload of an edit between its claim and its finish. -/
def Edit.data? : Edit → Option AutomationIn
  | .committing _ _ data _ => some data
  | .finishing _ _ data _ _ => some data
  | _ => none

theorem Edit.claim_of_data {e : Edit} {data : AutomationIn} (h : e.data? = some data) :
    ∃ claim, e.claim? = some claim := by
  cases e with
  | committing claim => exact ⟨claim, rfl⟩
  | finishing claim => exact ⟨claim, rfl⟩
  | _ => simp [Edit.data?] at h

/-- What a claim checked stays true until its finish: the payload keeps the
wallet of a deployed row. -/
theorem Reached.edit_keeps_wallet {cfg : Config} {E : State → Action → Prop}
    {tr : Trace State Action} {s : State} (h : Reached cfg E tr s) {p : ℕ} {data : AutomationIn}
    (hp : (s.edits p).data? = some data) {r : Record} (hr : s.record = some r) :
    r.automation.cappDeploymentId = none ∨ data.nameSpace = r.automation.nameSpace := by
  refine h.invariant (I := fun s => ∀ p data, (s.edits p).data? = some data → ∀ r, s.record = some r →
    r.automation.cappDeploymentId = none ∨ data.nameSpace = r.automation.nameSpace)
    (fun world p data hp => by simp [initial, Edit.data?] at hp) ?_ p data hp r hr
  intro tr s now op s' hreach hs _ _ _ hm p data hp r' hr'
  rcases hm.editor p with ⟨hop, hsame⟩ | ⟨o, rfl, hedit⟩
  · rw [hsame] at hp
    obtain ⟨claim, hclaim⟩ := Edit.claim_of_data hp
    obtain ⟨r, hr, hh⟩ := hreach.fenced.holds p claim hclaim
    obtain ⟨r₁, h₁, hrow⟩ := hm.row hr
    obtain rfl := Option.eq_some_unique h₁ hr'
    have hprev := hs p data hp r hr
    -- the live claim shuts out every other edit and every cutover
    rcases hrow.target with ⟨-, htarget⟩ | ⟨q, _, _, _, _, _, rfl, hq, -⟩ | ⟨_, _, _, _, -, -, hre, -⟩
    · have hcapp := congrArg BuildTarget.cappDeploymentId htarget
      have hwallet := congrArg BuildTarget.wallet htarget
      simp only [Automation.target] at hcapp hwallet
      rw [hcapp, hwallet]
      exact hprev
    · have hqp : q = p := hreach.fenced.exclusive q p _ claim (by rw [hq]; rfl) hclaim
      exact absurd (by rw [hqp]) (hop (.finish none))
    · exact absurd hre hh.recheck_ne_none
  · have hbefore := hs p data
    generalize s.edits p = e at hedit hbefore
    generalize s'.edits p = e' at hedit hp
    have hrec : s'.toShared.record = some r' := hr'
    generalize s'.toShared = sh' at hedit hrec
    cases hedit with
    | claimed r hr _ _ _ _ hwallet =>
      obtain rfl := Option.some.inj hp
      obtain rfl := Option.some.inj hrec
      exact hwallet
    | committed => exact hbefore hp r' hrec
    | _ => simp [Edit.data?] at hp

/-- Once stored, the deployment's id, its url and the wallet stay. -/
theorem Reached.deployed_keeps {cfg : Config} {tr : Trace State Action} {s : State}
    {now : Timestamp} {op : Op} {r r' : Record} (h : Reached cfg freshShas tr s)
    (hr : s.record = some r) (hrow : RowMove s now r op r')
    (hdeployed : r.automation.cappDeploymentId ≠ none) :
    r'.automation.cappDeploymentId = r.automation.cappDeploymentId ∧
      r'.automation.deploymentUrl = r.automation.deploymentUrl ∧
      r'.automation.nameSpace = r.automation.nameSpace := by
  rcases hrow.deploymentColumns with ⟨-, -, hcapp, hurl⟩ | ⟨p, event, target, created, -, hp, hre, rfl⟩
  · refine ⟨hcapp, hurl, ?_⟩
    rcases hrow.target with ⟨-, htarget⟩ | ⟨q, _, _, data, _, _, -, hq, -, rfl⟩ |
      ⟨_, _, _, _, -, -, -, rfl⟩
    · exact congrArg BuildTarget.wallet htarget
    · rcases h.edit_keeps_wallet (p := q) (by rw [hq]; rfl) hr with hnone | hwallet
      · exact absurd hnone hdeployed
      · exact hwallet
    · rfl
  · -- the delivery read the deployed row, so it created nothing
    have htarget := h.cutover_current hp hr hre
    have hwf := h.wellFormed p
    rw [hp] at hwf
    have hnone : created = none := by
      apply hwf.2.2.mpr
      rw [htarget]
      exact hdeployed
    rw [hnone]
    exact ⟨rfl, rfl, rfl⟩

/-- The deployment was created by an accepted call of delivery `p`, whose cutover
stored it in a row without one. -/
structure ProducedBy (p : ℕ) (event : CiWebhookIn) (target : BuildTarget)
    (deployment : CappDeployment) (tr : Trace State Action) : Prop where
  called : ∃ t ∈ tr, CalledIn p event target deployment t
  creating : target.cappDeploymentId = none
  stored : ∃ u ∈ tr, ∃ r, u.act.op = .deliver p (.recheck none) ∧ u.pre.record = some r ∧
    r.automation.cappDeploymentId = none ∧
    u.post.record = some (cutOver r event (some deployment) u.act.now)

/-- The row's deployment columns, traced back to the call that produced them. -/
def Deployed (tr : Trace State Action) (a : Automation) : Prop :=
  (a.cappDeploymentId = none ∧ a.deploymentUrl = none) ∨
    ∃ p event target deployment, ProducedBy p event target deployment tr ∧
      a.cappDeploymentId = some deployment.deploymentId ∧
      a.deploymentUrl = some deployment.deploymentUrl ∧ a.nameSpace = target.wallet

theorem ProducedBy.cons {p : ℕ} {event : CiWebhookIn} {target : BuildTarget}
    {deployment : CappDeployment} {tr : Trace State Action} {t : Transition State Action}
    (h : ProducedBy p event target deployment tr) :
    ProducedBy p event target deployment (t :: tr) := by
  obtain ⟨u, hu, hcalled⟩ := h.called
  obtain ⟨w, hw, hstored⟩ := h.stored
  exact ⟨⟨u, List.mem_cons_of_mem t hu, hcalled⟩, h.creating, w, List.mem_cons_of_mem t hw, hstored⟩

theorem Reached.deployed {cfg : Config} {tr : Trace State Action} {s : State}
    (h : Reached cfg freshShas tr s) {r : Record} (hr : s.record = some r) :
    Deployed tr r.automation := by
  obtain ⟨world, hrun⟩ := h
  refine hrun.history (P := fun tr s => ∀ r, s.record = some r → Deployed tr r.automation) ?_ ?_ r hr
  · intro r hr
    simp [initial] at hr
  intro tr s a s' hrun hs _ hstep r' hr'
  have hreach : Reached cfg freshShas tr s := ⟨world, hrun⟩
  have hm := (step_move hstep).2.2
  rcases hm.row_after hr' with ⟨-, _, _, _, _, _, -, rfl⟩ | ⟨r, hrec, hrow⟩
  · exact Or.inl ⟨rfl, rfl⟩
  · rcases hs r hrec with ⟨hcapp, hurl⟩ | ⟨p, event, target, deployment, hproduced, hcapp, hurl, hns⟩
    · rcases hrow.deploymentColumns with ⟨-, -, hsame, hsameUrl⟩ |
        ⟨p, event, target, created, hop, hp, hre, rfl⟩
      · exact Or.inl ⟨hsame.trans hcapp, hsameUrl.trans hurl⟩
      · -- the first cutover: what it read is what the row says, so it created
        have htarget := hreach.cutover_current hp hrec hre
        have hcreating : target.cappDeploymentId = none := by
          rw [htarget]
          exact hcapp
        obtain ⟨t, ht, deployment, hcalled, hmade⟩ := hreach.called hp
        rw [if_pos hcreating] at hmade
        subst hmade
        refine Or.inr ⟨p, event, target, deployment, ⟨⟨t, List.mem_cons_of_mem _ ht, hcalled⟩, hcreating,
          _, List.mem_cons_self .., r, hop, hrec, hcapp, hr'⟩, rfl, rfl, ?_⟩
        rw [htarget]
        rfl
    · obtain ⟨hsame, hsameUrl, hsameNs⟩ := hreach.deployed_keeps hrec hrow (by simp [hcapp])
      exact Or.inr ⟨p, event, target, deployment, hproduced.cons, hsame.trans hcapp,
        hsameUrl.trans hurl, hsameNs.trans hns⟩

/-- A cutover always deployed the current definition, and a deployed automation
never changes its deployment or its wallet. -/
theorem cutover_deploys_current (cfg : Config) (tr : Trace State Action) (s : State)
    (h : Reached cfg freshShas tr s) :
    (∀ p event target created r, s.deliveries p = .rechecking event target created →
      s.record = some r → recheck r event.commitSha = none →
        DeployedFor tr p event target r.automation) ∧
    (∀ r, s.record = some r → Deployed tr r.automation) ∧
    ∀ a s' r, step cfg s a = some s' → s.record = some r → ∃ r', s'.record = some r' ∧
      (r.automation.cappDeploymentId ≠ none ∨ r.automation.deploymentUrl ≠ none →
        r'.automation.cappDeploymentId = r.automation.cappDeploymentId ∧
        r'.automation.deploymentUrl = r.automation.deploymentUrl ∧
        r'.automation.nameSpace = r.automation.nameSpace) := by
  refine ⟨?_, fun r hr => h.deployed hr, ?_⟩
  · intro p event target created r hp hr hre
    exact h.deployedFor hp hr hre
  · intro a s' r hstep hr
    obtain ⟨r', hr', hrow⟩ := (step_move hstep).2.2.row hr
    refine ⟨r', hr', ?_⟩
    intro hdeployed
    apply h.deployed_keeps hr hrow
    rcases h.deployed hr with ⟨hcapp, hurl⟩ | ⟨_, _, _, _, -, hcapp, -⟩
    · simp [hcapp, hurl] at hdeployed
    · simp [hcapp]

/-- A first deploy, before its cutover and after it. -/
theorem cutover_deploys_current_sample :
    (∃ s target r, Reached sampleConfig freshShas (sampleTrace (buildOps.take 3)) s ∧
      s.record = some r ∧ r.automation.secretName = some "team-secret" ∧
      DeployedFor (sampleTrace (buildOps.take 3)) 0 firstSuccess target r.automation) ∧
    ∃ s r, Reached sampleConfig freshShas (sampleTrace buildOps) s ∧ s.record = some r ∧
      r.automation.cappDeploymentId = some (pinnedName sampleId) ∧
      Deployed (sampleTrace buildOps) r.automation := by
  constructor
  · obtain ⟨s, hs, hp, r, hr, hre, hsecret⟩ := run_of_runSample (E := freshShas) (buildOps.take 3)
      (fun s => (s.deliveries 0).unchecked = some firstSuccess ∧
        ∃ r ∈ s.record, recheck r firstSuccess.commitSha = none ∧
          r.automation.secretName = some "team-secret")
      (by decide +kernel) (by decide +kernel)
    have hreach : Reached sampleConfig freshShas _ s := ⟨sampleWorld, hs⟩
    have hcurrent := (cutover_deploys_current sampleConfig _ s hreach).1 0
    cases hd : s.deliveries 0 with
    | rechecking event target created =>
      rw [hd] at hp
      obtain rfl := Option.some.inj hp
      exact ⟨s, target, r, hreach, hr, hsecret, hcurrent _ _ _ r hd hr hre⟩
    | _ => simp [hd, Delivery.unchecked] at hp
  · obtain ⟨s, hs, r, hr, hcapp⟩ := run_of_runSample (E := freshShas) buildOps
      (fun s => ∃ r ∈ s.record, r.automation.cappDeploymentId = some (pinnedName sampleId))
      (by decide +kernel) (by decide +kernel)
    have hreach : Reached sampleConfig freshShas _ s := ⟨sampleWorld, hs⟩
    exact ⟨s, r, hreach, hr, hcapp, (cutover_deploys_current sampleConfig _ s hreach).2.1 r hr⟩

end KeepAutomation
