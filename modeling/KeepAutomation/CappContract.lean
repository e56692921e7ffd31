import KeepAutomation.ClaimFence

/-! The CAPP contract: deployments carry the pinned name, and a rollout of an
absent deployment is never accepted. What the row and the deliveries hold then
names the one deployment of the automation. -/
namespace KeepAutomation

open TransitionSystem

/-- What the contract promises of an accepted call. -/
def BuildTarget.accepts (id : UUID) (w : World) (target : BuildTarget)
    (deployment : CappDeployment) : Prop :=
  match target.cappDeploymentId with
  | none => deployment.deploymentId = pinnedName id
  | some n => ∃ c ∈ w.capps, c.name = n

instance (id : UUID) (w : World) (target : BuildTarget) (deployment : CappDeployment) :
    Decidable (target.accepts id w deployment) :=
  match h : target.cappDeploymentId with
  | none => decidable_of_iff (deployment.deploymentId = pinnedName id) (by rw [BuildTarget.accepts, h])
  | some n => decidable_of_iff (∃ c ∈ w.capps, c.name = n) (by rw [BuildTarget.accepts, h])

/-- `create_deployment` answers with the pinned name; `rollout` of a deployment
that no longer exists fails. -/
def cappContract (cfg : Config) (s : State) (a : Action) : Prop :=
  match a.op with
  | .deliver p (.cappAccepts deployment) =>
    match s.deliveries p with
    | .callingCapp _ target => target.accepts cfg.automationId s.world deployment
    | _ => True
  | _ => True

instance (cfg : Config) (s : State) (a : Action) : Decidable (cappContract cfg s a) := by
  unfold cappContract
  split
  · split
    · infer_instance
    · exact instDecidableTrue
  · exact instDecidableTrue

theorem cappContract_accepts {cfg : Config} {s : State} {now : Timestamp} {p : ℕ}
    {deployment : CappDeployment} {event : CiWebhookIn} {target : BuildTarget}
    (h : cappContract cfg s ⟨now, .deliver p (.cappAccepts deployment)⟩)
    (hp : s.deliveries p = .callingCapp event target) :
    target.accepts cfg.automationId s.world deployment := by
  simpa only [cappContract, hp] using h

namespace World

theorem served_createDeployment (w : World) (id : UUID) (wallet image : String)
    (secretRefs : List String) :
    (w.createDeployment id wallet image secretRefs).served (pinnedName id) = some image := by
  simp only [served, createDeployment, List.find?_cons, decide_true, Option.map_some]

theorem served_rollout {w : World} {name : String} (image : String) (secretRefs : List String)
    (h : ∃ c ∈ w.capps, c.name = name) :
    (w.rollout name image secretRefs).served name = some image := by
  have hnames : ((fun c : Capp => decide (c.name = name)) ∘ fun c : Capp =>
      if c.name = name then { c with image := image, secretRefs := secretRefs } else c) =
      fun c => decide (c.name = name) := by
    funext c
    dsimp only [Function.comp]
    split
    · rfl
    · rfl
  obtain ⟨c, hc, hname⟩ := h
  cases hfind : w.capps.find? fun c => decide (c.name = name) with
  | none =>
    have hno := List.find?_eq_none.mp hfind c hc
    simp [hname] at hno
  | some d =>
    have hd : d.name = name := by simpa using List.find?_some hfind
    simp only [served, rollout, List.find?_map, hnames, hfind, Option.map_some, hd, if_true]

end World

/-- What a delivery carries belongs to this automation, and it creates exactly
when the row it read had no deployment. -/
def Delivery.WellFormed (id : UUID) : Delivery → Prop
  | .recordingFailure event => event.automationId = id
  | .callingCapp event _ => event.automationId = id ∧ event.status = .success
  | .rechecking event target created =>
    event.automationId = id ∧ event.status = .success ∧
      (created = none ↔ target.cappDeploymentId ≠ none)
  | .deletingCapp event _ _ => event.automationId = id
  | .deletingSecret event _ => event.automationId = id
  | _ => True

theorem DeliveryMove.wellFormed {cfg : Config} {now : Timestamp} {sh sh' : Shared} {d d' : Delivery}
    {o : DeliveryOp} (hd : d.WellFormed cfg.automationId)
    (h : DeliveryMove cfg now sh d o sh' d') : d'.WellFormed cfg.automationId := by
  cases h with
  | failureAdmitted hid => exact hid
  | successAdmitted hid _ _ _ hstatus => exact ⟨hid, hstatus⟩
  | @cappAccepted event target deployment =>
    refine ⟨hd.1, hd.2, ?_⟩
    cases htarget : target.cappDeploymentId with
    | none => simp
    | some n => simp
  | tearingDown => exact hd.1
  | cappTornDown => exact hd
  | _ => exact trivial

theorem Reached.wellFormed {cfg : Config} {E : State → Action → Prop} {tr : Trace State Action}
    {s : State} (h : Reached cfg E tr s) (p : ℕ) : (s.deliveries p).WellFormed cfg.automationId := by
  refine h.invariant (I := fun s => ∀ p, (s.deliveries p).WellFormed cfg.automationId)
    (fun _ _ => trivial) ?_ p
  intro tr s now op s' _ hs _ _ _ hm p
  rcases hm.delivery p with ⟨-, hsame⟩ | ⟨o, -, hd⟩
  · rw [hsame]
    exact hs p
  · exact hd.wellFormed (hs p)

/-- The transition in which CAPP accepted the call of delivery `p`. -/
def CalledIn (p : ℕ) (event : CiWebhookIn) (target : BuildTarget) (deployment : CappDeployment)
    (t : Transition State Action) : Prop :=
  t.act.op = .deliver p (.cappAccepts deployment) ∧ t.pre.deliveries p = .callingCapp event target

/-- A delivery reaches its re-check only through an accepted call, and holds what
that call created. -/
theorem Reached.called {cfg : Config} {E : State → Action → Prop} {tr : Trace State Action}
    {s : State} (h : Reached cfg E tr s) {p : ℕ} {event : CiWebhookIn} {target : BuildTarget}
    {created : Option CappDeployment} (hp : s.deliveries p = .rechecking event target created) :
    ∃ t ∈ tr, ∃ deployment, CalledIn p event target deployment t ∧
      created = if target.cappDeploymentId = none then some deployment else none := by
  obtain ⟨world, hrun⟩ := h
  refine hrun.history (P := fun tr s => s.deliveries p = .rechecking event target created →
    ∃ t ∈ tr, ∃ deployment, CalledIn p event target deployment t ∧
      created = if target.cappDeploymentId = none then some deployment else none) ?_ ?_ hp
  · intro hp
    simp [initial] at hp
  intro tr s a s' _ hs _ hstep hp
  rcases (step_move hstep).2.2.delivery p with ⟨-, hsame⟩ | ⟨o, ho, hd⟩
  · obtain ⟨t, ht, hcalled⟩ := hs (hsame ▸ hp)
    exact ⟨t, List.mem_cons_of_mem _ ht, hcalled⟩
  · generalize hbefore : s.deliveries p = d at hd
    generalize s'.deliveries p = d' at hd hp
    generalize s'.toShared = sh' at hd
    cases hd with
    | @cappAccepted event' target' deployment =>
      obtain ⟨rfl, rfl, rfl⟩ := Delivery.rechecking.inj hp
      exact ⟨_, List.mem_cons_self .., deployment, ⟨ho, hbefore⟩, rfl⟩
    | _ => simp at hp

/-- A delivery names the automation's one deployment. -/
def Delivery.Pinned (id : UUID) : Delivery → Prop
  | .callingCapp _ target => ∀ n, target.cappDeploymentId = some n → n = pinnedName id
  | .rechecking _ target created =>
    (∀ n, target.cappDeploymentId = some n → n = pinnedName id) ∧
      ∀ d, created = some d → d.deploymentId = pinnedName id
  | .deletingCapp _ _ name => name = pinnedName id
  | _ => True

/-- The row and every delivery name the automation's one deployment. -/
structure Pinned (id : UUID) (s : State) : Prop where
  rowId : ∀ r, s.record = some r → r.automation.id = id
  row : ∀ r, s.record = some r → ∀ n, r.automation.cappDeploymentId = some n → n = pinnedName id
  deliveries : ∀ p, (s.deliveries p).Pinned id

/-- A cutover writes the deployment's columns; nothing else touches them. -/
theorem RowMove.deploymentColumns {s : State} {now : Timestamp} {r r' : Record} {op : Op}
    (h : RowMove s now r op r') :
    (r'.automation.activeDigest = r.automation.activeDigest ∧
      r'.automation.contractVersion = r.automation.contractVersion ∧
      r'.automation.cappDeploymentId = r.automation.cappDeploymentId ∧
      r'.automation.deploymentUrl = r.automation.deploymentUrl) ∨
      ∃ p event target created, op = .deliver p (.recheck none) ∧
        s.deliveries p = .rechecking event target created ∧ recheck r event.commitSha = none ∧
        r' = KeepAutomation.cutOver r event created now := by
  cases h with
  | @cutOver p event target created hp hre =>
    exact Or.inr ⟨p, event, target, created, rfl, hp, hre, rfl⟩
  | @released p claim =>
    obtain ⟨_, _, _, he⟩ := releaseBuildClaim_frame claim r
    rw [he]
    exact Or.inl ⟨rfl, rfl, rfl, rfl⟩
  | @checkpointed p a n completed =>
    obtain ⟨_, _, _, he⟩ := checkpoint_frame completed now r
    rw [he]
    exact Or.inl ⟨rfl, rfl, rfl, rfl⟩
  | _ => exact Or.inl ⟨rfl, rfl, rfl, rfl⟩

/-- A row keeps its key and its tenant. -/
theorem RowMove.identity {s : State} {now : Timestamp} {r r' : Record} {op : Op}
    (h : RowMove s now r op r') :
    r'.automation.id = r.automation.id ∧ r'.automation.tenantId = r.automation.tenantId := by
  cases h with
  | @released p claim =>
    obtain ⟨_, _, _, he⟩ := releaseBuildClaim_frame claim r
    rw [he]
    exact ⟨rfl, rfl⟩
  | @checkpointed p a n completed =>
    obtain ⟨_, _, _, he⟩ := checkpoint_frame completed now r
    rw [he]
    exact ⟨rfl, rfl⟩
  | _ => exact ⟨rfl, rfl⟩

theorem RowMove.id {s : State} {now : Timestamp} {r r' : Record} {op : Op}
    (h : RowMove s now r op r') : r'.automation.id = r.automation.id := h.identity.1

theorem RowMove.tenantId {s : State} {now : Timestamp} {r r' : Record} {op : Op}
    (h : RowMove s now r op r') : r'.automation.tenantId = r.automation.tenantId := h.identity.2

theorem DeliveryMove.pinned {cfg : Config} {s : State} {now : Timestamp} {p : ℕ}
    {o : DeliveryOp} {sh : Shared} {d : Delivery} (hs : KeepAutomation.Pinned cfg.automationId s)
    (hwf : (s.deliveries p).WellFormed cfg.automationId)
    (hcapp : cappContract cfg s ⟨now, .deliver p o⟩)
    (h : DeliveryMove cfg now s.toShared (s.deliveries p) o sh d) : d.Pinned cfg.automationId := by
  have hp := hs.deliveries p
  generalize hd : s.deliveries p = d₀ at h hp hwf
  cases h with
  | successAdmitted _ r hr => exact hs.row r hr
  | @cappAccepted event target deployment =>
    have hacc := cappContract_accepts hcapp hd
    refine ⟨hp, ?_⟩
    intro c hc
    split at hc
    · next hnone =>
      obtain rfl := Option.some.inj hc
      simpa only [BuildTarget.accepts, hnone] using hacc
    · simp at hc
  | @tearingDown event target created r hr _ =>
    obtain ⟨htarget, hcreated⟩ := hp
    cases created with
    | some c => exact hcreated c rfl
    | none =>
      -- nothing was created, so the row it read already named the deployment
      cases hn : target.cappDeploymentId with
      | none => exact absurd hn (hwf.2.2.mp rfl)
      | some n => exact htarget n hn
  | _ => exact trivial

/-- Under the contract every reachable state is pinned. -/
theorem Reached.pinned {cfg : Config} {E : State → Action → Prop} {tr : Trace State Action}
    {s : State} (hE : ∀ s a, E s a → cappContract cfg s a) (h : Reached cfg E tr s) :
    Pinned cfg.automationId s := by
  refine h.invariant (I := Pinned cfg.automationId) (fun world => ⟨?_, ?_, fun p => trivial⟩) ?_
  · intro r hr
    simp [initial] at hr
  · intro r hr
    simp [initial] at hr
  intro tr s now op s' hreach hs ha _ _ hm
  have hdeliveries : ∀ p, (s'.deliveries p).Pinned cfg.automationId := by
    intro p
    rcases hm.delivery p with ⟨-, hsame⟩ | ⟨o, rfl, hd⟩
    · rw [hsame]
      exact hs.deliveries p
    · exact hd.pinned hs (hreach.wellFormed p) (hE _ _ ha)
  refine ⟨?_, ?_, hdeliveries⟩
  · intro r' hr'
    rcases hm.row_after hr' with ⟨-, _, _, _, _, _, -, rfl⟩ | ⟨r, hrec, hrow⟩
    · rfl
    · rw [hrow.id]
      exact hs.rowId r hrec
  · intro r' hr' n hn
    rcases hm.row_after hr' with ⟨-, _, _, _, _, _, -, rfl⟩ | ⟨r, hrec, hrow⟩
    · simp [createAutomation] at hn
    · -- the name is an old one, or the one CAPP answered with
      rcases hrow.deploymentColumns with ⟨-, -, hsame, -⟩ | ⟨p, event, target, created, -, hp, -, rfl⟩
      · exact hs.row r hrec n (hsame ▸ hn)
      · have hpinned := hs.deliveries p
        rw [hp] at hpinned
        cases created with
        | none => exact hs.row r hrec n hn
        | some d =>
          obtain rfl : d.deploymentId = n := Option.some.inj hn
          exact hpinned.2 d rfl

/-- A success carries an image. -/
theorem CiWebhookIn.image_some {event : CiWebhookIn} (h : event.status = .success) :
    event.image = some (event.image.getD "") := by
  have hpinned := event.image_isDigestPinned h
  cases himage : event.image with
  | none => simp [himage] at hpinned
  | some image => rfl

/-- An accepted call makes CAPP serve its image. -/
theorem served_deploy {cfg : Config} {w : World} {event : CiWebhookIn} {target : BuildTarget}
    {deployment : CappDeployment} (hstatus : event.status = .success)
    (htarget : ∀ n, target.cappDeploymentId = some n → n = pinnedName cfg.automationId)
    (hacc : target.accepts cfg.automationId w deployment) :
    (deploy cfg w event target).served (pinnedName cfg.automationId) = event.image := by
  rw [CiWebhookIn.image_some hstatus, deploy, deployCall]
  cases hn : target.cappDeploymentId with
  | none => exact w.served_createDeployment _ _ _ _
  | some n =>
    have hexists : ∃ c ∈ w.capps, c.name = n := by
      simpa only [BuildTarget.accepts, hn] using hacc
    obtain rfl := htarget n hn
    exact World.served_rollout _ _ hexists

/-- Without a DELETE the row is live and no delivery tears anything down. -/
structure Undeleted (s : State) : Prop where
  live : ∀ r, s.record = some r → r.automation.matchingState ∉ deletionStates
  noTearDown : ∀ p event wallet,
    (∀ name, s.deliveries p ≠ .deletingCapp event wallet name) ∧
      s.deliveries p ≠ .deletingSecret event wallet

theorem RowMove.live {s : State} {now : Timestamp} {r r' : Record} {op : Op}
    (h : RowMove s now r op r') (hop : op.deletes = false)
    (hlive : r.automation.matchingState ∉ deletionStates) :
    r'.automation.matchingState ∉ deletionStates := by
  cases h with
  | enabled => simp [Record.transition]
  | disabled => simp [Record.transition]
  | deleteAdmitted => simp [Op.deletes] at hop
  | checkpointed => simp [Op.deletes] at hop
  | @released p claim =>
    obtain ⟨_, _, _, he⟩ := releaseBuildClaim_frame claim r
    rw [he]
    exact hlive
  | _ => exact hlive

/-- Only an admitted delivery is in flight, and an admission has read the row. -/
theorem DeliveryMove.row {cfg : Config} {now : Timestamp} {sh sh' : Shared} {d d' : Delivery}
    {o : DeliveryOp} (h : DeliveryMove cfg now sh d o sh' d') (hd : d'.inFlight = true) :
    d.inFlight = true ∨ sh.record ≠ none := by
  cases h with
  | failureAdmitted _ r hr => exact Or.inr (by simp [hr])
  | successAdmitted _ r hr => exact Or.inr (by simp [hr])
  | cappAccepted => exact Or.inl rfl
  | tearingDown => exact Or.inl rfl
  | cappTornDown => exact Or.inl rfl
  | _ => simp [Delivery.inFlight] at hd

theorem Move.record_ne_none {cfg : Config} {s s' : State} {now : Timestamp} {op : Op}
    (h : Move cfg s now op s') (hrec : s.record ≠ none) : s'.record ≠ none := by
  obtain ⟨r, hr⟩ := Option.ne_none_iff_exists'.mp hrec
  obtain ⟨r', hr', -⟩ := h.row hr
  simp [hr']

/-- A delivery in flight has read the row, and rows stay. -/
theorem Reached.inFlight_row {cfg : Config} {E : State → Action → Prop} {tr : Trace State Action}
    {s : State} (h : Reached cfg E tr s) {p : ℕ} (hp : (s.deliveries p).inFlight = true) :
    s.record ≠ none := by
  refine h.invariant (I := fun s => ∀ p, (s.deliveries p).inFlight = true → s.record ≠ none)
    (fun world p hp => by simp [initial, Delivery.inFlight] at hp) ?_ p hp
  intro tr s now op s' _ hs _ _ _ hm p hp
  apply hm.record_ne_none
  -- rows stay, so only an admission has to be looked at
  rcases hm.delivery p with ⟨-, hsame⟩ | ⟨o, -, hd⟩
  · exact hs p (hsame ▸ hp)
  · rcases hd.row hp with hflight | hrec
    · exact hs p hflight
    · exact hrec

theorem Reached.undeleted {cfg : Config} {E : State → Action → Prop} {tr : Trace State Action}
    {s : State} (hE : ∀ s a, E s a → a.op.deletes = false) (h : Reached cfg E tr s) :
    Undeleted s := by
  refine h.invariant (I := Undeleted) (fun world => ⟨?_, ?_⟩) ?_
  · intro r hr
    simp [initial] at hr
  · intro p event wallet
    simp [initial]
  intro tr s now op s' _ hs ha _ _ hm
  constructor
  · intro r' hr'
    rcases hm.row_after hr' with ⟨-, _, _, _, _, _, -, rfl⟩ | ⟨r, hrec, hrow⟩
    · simp [createAutomation]
    · exact hrow.live (hE _ _ ha) (hs.live r hrec)
  · intro p event wallet
    rcases hm.delivery p with ⟨-, hsame⟩ | ⟨o, -, hd⟩
    · rw [hsame]
      exact hs.noTearDown p event wallet
    · have hnot := hs.noTearDown p
      generalize s.deliveries p = d at hd hnot
      generalize s'.deliveries p = d' at hd
      generalize s'.toShared = sh' at hd
      cases hd with
      | tearingDown r hr hre =>
        exact absurd ((recheck_deleting_iff r _).mp hre) (hs.live r hr)
      | @cappTornDown event' wallet' name => exact absurd rfl ((hnot event' wallet').1 name)
      | _ => simp

end KeepAutomation
