import KeepAutomation.CiWebhookGuard
import KeepAutomation.ImageBinding
import KeepAutomation.RowCoherence
import KeepAutomation.WebhookPayload

/-! The CI webhook end to end: the gate, the decoded body, the dependency and the
payload's validators stand before `apply_build_result`, and nothing else feeds
it. What the service deploys then has an authentic request behind it. -/
namespace KeepAutomation

open PythonText TransitionSystem

section Endpoint

/-- A request's body as FastAPI hands it on. -/
inductive WebhookBody where
  | empty
  /-- not JSON from this position on -/
  | malformed (pos : ℕ)
  /-- a JSON object, or pairs that `dict` makes one of -/
  | object (members : Members)
  /-- any other value, or bytes of another content type -/
  | other

structure WebhookRequest where
  scope : Scope
  body : WebhookBody

/-- What becomes of a request before `apply_build_result`. -/
inductive Reading where
  | rejected (rejection : Rejection)
  | raised
  /-- a 400 with these errors -/
  | invalid (errors : List FieldError)
  | accepted (event : CiWebhookIn)

/-- The error of a body that is not JSON; its location is the position. -/
def jsonInvalid (pos : ℕ) : FieldError where
  field := toString pos
  code := .invalidValue
  message := "JSON decode error"

/-- The body as the route's only parameter. -/
def Python.readBody (py : Python) : WebhookBody → Reading
  | .empty => .invalid [FieldFault.missing.handled ""]
  | .malformed pos => .invalid [jsonInvalid pos]
  | .other => .invalid [FieldFault.dict.handled ""]
  | .object members =>
    match py.ciWebhookIn members with
    | .ok event => .accepted event
    | .error errors => .invalid errors

/-- A request to the route, whose clock is read at the gate and in the dependency.
The body is decoded between the two and validated behind both. -/
def readWebhook (py : Python) (sha256 : List Byte → List Byte) (settings : WebhookSettings)
    (request : WebhookRequest) (atGate inRoute : ℚ) (logs : RejectionLogs) : Reading × RejectionLogs :=
  match ciWebhookGuard sha256 settings request.scope atGate logs with
  | (.rejected rejection, _, logs) => (.rejected rejection, logs)
  | (.raised, _, logs) => (.raised, logs)
  | (.app, _, logs) =>
    match request.body with
    | .malformed pos => (.invalid [jsonInvalid pos], logs)
    | body =>
      match verifyCiWebhookToken sha256 settings request.scope inRoute logs with
      | (.rejected rejection, _, logs) => (.rejected rejection, logs)
      | (.raised, _, logs) => (.raised, logs)
      | (.app, _, logs) => (py.readBody body, logs)

/-- The request holds the token; at the webhook's own path its size was checked
too; and its body denotes the event. -/
structure Genuine (py : Python) (sha256 : List Byte → List Byte) (settings : WebhookSettings)
    (request : WebhookRequest) (event : CiWebhookIn) : Prop where
  authentic : Authentic sha256 settings request.scope.headers
  sized : request.scope.isWebhook → Sized settings request.scope.headers
  body : ∃ members, request.body = .object members ∧ py.Denotes members event

variable {py : Python} {sha256 : List Byte → List Byte} {settings : WebhookSettings}
  {request : WebhookRequest} {atGate inRoute : ℚ} {logs logs' : RejectionLogs}

theorem verify_app {scope : Scope} {now : ℚ} {log : Option LogRecord}
    (h : verifyCiWebhookToken sha256 settings scope now logs = (.app, log, logs')) :
    Authentic sha256 settings scope.headers := by
  rcases token_verdict sha256 settings scope.headers now logs with ⟨hauth, -⟩ | ⟨-, hverdict⟩
  · exact hauth
  · unfold verifyCiWebhookToken at h
    by_cases htrips : Trips settings scope.headers
    · rw [if_pos htrips] at hverdict
      simp [hverdict] at h
    · rw [if_neg htrips] at hverdict
      simp [hverdict] at h

theorem readBody_accepted {body : WebhookBody} {event : CiWebhookIn}
    (h : py.readBody body = .accepted event) :
    ∃ members, body = .object members ∧ py.Denotes members event := by
  cases body with
  | object members =>
    refine ⟨members, rfl, ?_⟩
    simp only [Python.readBody] at h
    cases hread : py.ciWebhookIn members with
    | error errors => simp [hread] at h
    | ok event' =>
      rw [hread] at h
      obtain rfl : event' = event := Reading.accepted.inj h
      exact denotes_iff.mp hread
  | _ => simp [Python.readBody] at h

theorem guard_app {scope : Scope} {now : ℚ} {log : Option LogRecord}
    (h : ciWebhookGuard sha256 settings scope now logs = (.app, log, logs'))
    (hpath : scope.isWebhook) : Sized settings scope.headers := by
  have hown : ¬(scope.type ≠ "http" ∨ scope.path ≠ ciWebhookPath) := by
    rw [not_or, not_not, not_not]
    exact hpath
  unfold ciWebhookGuard at h
  rw [if_neg hown] at h
  apply rejectSize_eq_none.mp
  dsimp only at h
  split at h
  · simp at h
  · simp at h
  · cases hsize : rejectSize settings scope.headers with
    | none => rfl
    | some rejection => simp [hsize] at h

/-- Whatever route the request took, the event has passed the dependency. -/
theorem readWebhook_accepted {event : CiWebhookIn}
    (h : readWebhook py sha256 settings request atGate inRoute logs = (.accepted event, logs')) :
    Genuine py sha256 settings request event := by
  unfold readWebhook at h
  split at h
  · simp at h
  · simp at h
  · next hguard =>
    split at h
    · simp at h
    · split at h
      · simp at h
      · simp at h
      · next hverify =>
        have hread := (Prod.mk.inj h).1
        exact ⟨verify_app hverify, guard_app hguard, readBody_accepted hread⟩

end Endpoint

section Server

/-- The service: the automation with everything that runs on it, and the log
throttles of the process. -/
structure Server where
  system : State
  logs : RejectionLogs

/-- A request of the webhook, or anything else that happens to the automation. -/
inductive ServerOp where
  | webhook (p : ℕ) (request : WebhookRequest) (atGate inRoute : ℚ) (readFails : Bool)
      (now : Timestamp)
  | other (a : Action)

def Op.receives : Op → Bool
  | .deliver _ (.receive _ _) => true
  | _ => false

/-- What the service is made of. -/
structure Service where
  py : Python
  sha256 : List Byte → List Byte
  settings : WebhookSettings
  cfg : Config

/-- An event reaches `apply_build_result` through the route only. -/
def Service.serve (d : Service) (s : Server) : ServerOp → Option Server
  | .webhook p request atGate inRoute readFails now =>
    match readWebhook d.py d.sha256 d.settings request atGate inRoute s.logs with
    | (.accepted event, logs) =>
      -- a webhook of another automation leaves this one alone
      if event.automationId = d.cfg.automationId then
        (step d.cfg s.system ⟨now, .deliver p (.receive event readFails)⟩).map fun system =>
          ⟨system, logs⟩
      else some { s with logs := logs }
    | (_, logs) => some { s with logs := logs }
  | .other a =>
    if a.op.receives then none else (step d.cfg s.system a).map fun system => { s with system := system }

abbrev ServerTrace := Trace Server ServerOp

def Service.Served (d : Service) (world : World) (tr : ServerTrace) (s : Server) : Prop :=
  Run d.serve (fun _ _ => True) ⟨initial world, freshLogs⟩ tr s

/-- A request of the trace brought this event, for the commit that was being built,
and with an image of the automation's own repository. -/
def Service.Vouched (d : Service) (tr : ServerTrace) (event : CiWebhookIn) : Prop :=
  ∃ t ∈ tr, ∃ p request atGate inRoute now,
    t.act = .webhook p request atGate inRoute false now ∧
      Genuine d.py d.sha256 d.settings request event ∧
        event.automationId = d.cfg.automationId ∧ event.status = .success ∧
          (∃ r, t.pre.system.record = some r ∧ r.automation.buildState = .building ∧
            r.automation.buildingSha = some event.commitSha) ∧
            ∃ image, event.image = some image ∧
              OwnImage d.cfg.automationImageRepository d.cfg.automationId image

/-- The image of a vouched event. -/
def Service.VouchedImage (d : Service) (tr : ServerTrace) (image : String) : Prop :=
  ∃ event, event.image = some image ∧ d.Vouched tr event

/-- A request of the trace brought this event. -/
def Service.Received (d : Service) (tr : ServerTrace) (event : CiWebhookIn) : Prop :=
  ∃ t ∈ tr, ∃ p request atGate inRoute readFails now,
    t.act = .webhook p request atGate inRoute readFails now ∧
      Genuine d.py d.sha256 d.settings request event

/-- The event a delivery handles or has answered. -/
def Delivery.handled : Delivery → Option CiWebhookIn
  | .idle | .crashed _ => none
  | .recordingFailure event | .callingCapp event _ | .rechecking event _ _
  | .deletingCapp event _ _ | .deletingSecret event _ | .answered event _ | .raised event _ =>
    some event

/-- The invariant: every delivery handles a received event, and whatever is in
flight, active or served has been vouched for, or was served before the service
began. -/
structure Service.Trusted (d : Service) (world : World) (tr : ServerTrace) (s : State) : Prop where
  handled : ∀ p event, (s.deliveries p).handled = some event → d.Received tr event
  event : ∀ p event, (s.deliveries p).deploying = some event → d.Vouched tr event
  row : ∀ r, s.record = some r → ∀ image, r.automation.activeDigest = some image →
    d.VouchedImage tr image
  served : ∀ c ∈ s.world.capps, (∃ c₀ ∈ world.capps, c₀.image = c.image) ∨ d.VouchedImage tr c.image

variable {d : Service} {world : World} {tr : ServerTrace} {s s' : State}

theorem Service.Vouched.cons {event : CiWebhookIn} {t : Transition Server ServerOp}
    (h : d.Vouched tr event) : d.Vouched (t :: tr) event := by
  obtain ⟨u, hu, hrest⟩ := h
  exact ⟨u, List.mem_cons_of_mem t hu, hrest⟩

theorem Service.Received.cons {event : CiWebhookIn} {t : Transition Server ServerOp}
    (h : d.Received tr event) : d.Received (t :: tr) event := by
  obtain ⟨u, hu, hrest⟩ := h
  exact ⟨u, List.mem_cons_of_mem t hu, hrest⟩

theorem Service.VouchedImage.cons {image : String} {t : Transition Server ServerOp}
    (h : d.VouchedImage tr image) : d.VouchedImage (t :: tr) image := by
  obtain ⟨event, himage, hevent⟩ := h
  exact ⟨event, himage, hevent.cons⟩

theorem Service.Trusted.cons {t : Transition Server ServerOp} (h : d.Trusted world tr s) :
    d.Trusted world (t :: tr) s := by
  refine ⟨fun p event hp => (h.handled p event hp).cons, fun p event hp => (h.event p event hp).cons,
    fun r hr image himage => (h.row r hr image himage).cons, ?_⟩
  intro c hc
  rcases h.served c hc with hold | hvouched
  · exact Or.inl hold
  · exact Or.inr hvouched.cons

/-- An event comes to its CAPP call by being received: the row was building its
commit, and its image is the automation's own. -/
theorem Move.deploying {cfg : Config} {now : Timestamp} {op : Op} (h : Move cfg s now op s') {p : ℕ}
    {event : CiWebhookIn} (hp : (s'.deliveries p).deploying = some event) :
    (s.deliveries p).deploying = some event ∨
      op = .deliver p (.receive event false) ∧ event.automationId = cfg.automationId ∧
        event.status = .success ∧
          (∃ r, s.record = some r ∧ r.automation.buildState = .building ∧
            r.automation.buildingSha = some event.commitSha) ∧
            ∃ image, event.image = some image ∧
              OwnImage cfg.automationImageRepository cfg.automationId image := by
  rcases h.delivery p with ⟨-, hsame⟩ | ⟨o, hop, hd⟩
  · rw [hsame] at hp
    exact Or.inl hp
  · generalize s.deliveries p = d₀ at hd ⊢
    generalize s'.deliveries p = d₁ at hd hp
    generalize s'.toShared = sh' at hd
    cases hd with
    | @successAdmitted received hid r hr hadm hstatus hown =>
      obtain rfl : received = event := Option.some.inj hp
      have hadmitted : r.automation.buildState = .building ∧
          r.automation.buildingSha = some received.commitSha := by
        unfold admission at hadm
        split at hadm
        · simp at hadm
        · split at hadm
          · simp at hadm
          · next hbuilding =>
            split at hadm
            · simp at hadm
            · next hsha => exact ⟨not_not.mp hbuilding, not_not.mp hsha⟩
      exact Or.inr ⟨hop, hid, hstatus, ⟨r, hr, hadmitted⟩, ownImage_of_admitted hid hstatus hown⟩
    | cappAccepted => exact Or.inl hp
    | _ => simp [Delivery.deploying] at hp

/-- A delivery handles the event it received. -/
theorem Move.handled {cfg : Config} {now : Timestamp} {op : Op} (h : Move cfg s now op s') {p : ℕ}
    {event : CiWebhookIn} (hp : (s'.deliveries p).handled = some event) :
    (s.deliveries p).handled = some event ∨ ∃ readFails, op = .deliver p (.receive event readFails) := by
  rcases h.delivery p with ⟨-, hsame⟩ | ⟨o, hop, hd⟩
  · rw [hsame] at hp
    exact Or.inl hp
  · generalize s.deliveries p = d₀ at hd ⊢
    generalize s'.deliveries p = d₁ at hd hp
    generalize s'.toShared = sh' at hd
    have hreceive {received : CiWebhookIn} {readFails : Bool} (ho : o = .receive received readFails)
        (he : some received = some event) : ∃ readFails, op = .deliver p (.receive event readFails) := by
      rw [hop, ho, Option.some.inj he]
      exact ⟨_, rfl⟩
    cases hd with
    | refused => exact Or.inr (hreceive rfl hp)
    | ignoredAtOnce => exact Or.inr (hreceive rfl hp)
    | failureAdmitted => exact Or.inr (hreceive rfl hp)
    | successAdmitted => exact Or.inr (hreceive rfl hp)
    | crashed => simp [Delivery.handled] at hp
    | _ => exact Or.inl hp

theorem deploy_served {cfg : Config} {w : World} {event : CiWebhookIn} {target : BuildTarget}
    {c : Capp} (hc : c ∈ (deploy cfg w event target).capps) :
    (∃ c₀ ∈ w.capps, c₀.image = c.image) ∨ c.image = event.image.getD "" := by
  unfold deploy deployCall at hc
  split at hc
  · rcases List.mem_cons.mp hc with rfl | hmem
    · exact Or.inr rfl
    · exact Or.inl ⟨c, List.mem_of_mem_filter hmem, rfl⟩
  · obtain ⟨c₀, hmem, rfl⟩ := List.mem_map.mp hc
    split
    · exact Or.inr rfl
    · exact Or.inl ⟨c₀, hmem, rfl⟩

/-- The cascade takes deployments away and changes none. -/
theorem Runner.call_capps {pc next stop : Runner} {w world : World}
    (h : pc.call w = some (world, next, stop)) : world.capps ⊆ w.capps := by
  cases pc <;> simp only [Runner.call, Option.some.injEq, Prod.mk.injEq, reduceCtorEq] at h
  all_goals obtain ⟨rfl, -, -⟩ := h
  case deletingCapp => exact List.filter_subset_self _
  case archiving =>
    unfold World.archive
    split
    · exact List.Subset.refl _
    · exact List.Subset.refl _
  all_goals exact List.Subset.refl _

/-- An image that CAPP serves was served before, or a delivery has passed it on. -/
theorem Move.served {cfg : Config} {now : Timestamp} {op : Op} (h : Move cfg s now op s') {c : Capp}
    (hc : c ∈ s'.world.capps) :
    (∃ c₀ ∈ s.world.capps, c₀.image = c.image) ∨
      ∃ p event, (s.deliveries p).deploying = some event ∧ c.image = event.image.getD "" := by
  have kept {w : World} (hsub : w.capps ⊆ s.world.capps) (hw : c ∈ w.capps) :
      ∃ c₀ ∈ s.world.capps, c₀.image = c.image := ⟨c, hsub hw, rfl⟩
  have torn {w : World} {outcome : CallOutcome} (hsub : w.capps ⊆ s.world.capps)
      (hw : c ∈ (if outcome.effective then w else s.world).capps) :
      ∃ c₀ ∈ s.world.capps, c₀.image = c.image := by
    split at hw
    · exact kept hsub hw
    · exact ⟨c, hw, rfl⟩
  cases h with
  | @edited p _ _ _ hm =>
    left
    generalize s.edits p = e at hm
    cases hm with
    | _ => exact ⟨c, hc, rfl⟩
  | @delivered p _ _ _ hm =>
    generalize hp : s.deliveries p = d₀ at hm
    cases hm with
    | cappAccepted =>
      rcases deploy_served hc with hold | hnew
      · exact Or.inl hold
      · exact Or.inr ⟨p, _, by rw [hp]; rfl, hnew⟩
    | cappTornDown => exact Or.inl (kept (List.filter_subset_self _) hc)
    | tearDownFailed => exact Or.inl (torn (List.filter_subset_self _) hc)
    | @secretTornDown event wallet =>
      exact Or.inl (torn (w := s.world.deleteSecret wallet (runAuthSecretName event.automationId))
        (List.Subset.refl _) hc)
    | _ => exact Or.inl ⟨c, hc, rfl⟩
  | @ran p _ _ _ hm =>
    left
    generalize s.runners p = pc at hm
    cases hm with
    | called _ _ _ _ hcall => exact torn (Runner.call_capps hcall) hc
    | _ => exact ⟨c, hc, rfl⟩
  | _ => exact Or.inl ⟨c, hc, rfl⟩

/-- The step lemma: an operation that receives an event keeps the trust if the
event came with a request. -/
theorem Service.Trusted.move {t : Transition Server ServerOp} {now : Timestamp} {op : Op}
    (h : d.Trusted world tr s) (hm : Move d.cfg s now op s') (hpre : t.pre.system = s)
    (hop : ∀ p event readFails, op = .deliver p (.receive event readFails) →
      ∃ request atGate inRoute, t.act = .webhook p request atGate inRoute readFails now ∧
        Genuine d.py d.sha256 d.settings request event) : d.Trusted world (t :: tr) s' := by
  refine ⟨?_, ?_, ?_, ?_⟩
  · intro p event hp
    rcases hm.handled hp with hbefore | ⟨readFails, hreceive⟩
    · exact (h.handled p event hbefore).cons
    · obtain ⟨request, atGate, inRoute, hact, hgenuine⟩ := hop p event readFails hreceive
      exact ⟨t, List.mem_cons_self, p, request, atGate, inRoute, readFails, now, hact, hgenuine⟩
  · intro p event hp
    rcases hm.deploying hp with hbefore | ⟨hreceive, hid, hstatus, hbuilding, hown⟩
    · exact (h.event p event hbefore).cons
    · obtain ⟨request, atGate, inRoute, hact, hgenuine⟩ := hop p event false hreceive
      rw [← hpre] at hbuilding
      exact ⟨t, List.mem_cons_self, p, request, atGate, inRoute, now, hact, hgenuine, hid, hstatus,
        hbuilding, hown⟩
  · intro r' hr' image himage
    rcases hm.row_after hr' with ⟨-, _, _, _, _, _, -, rfl⟩ | ⟨r, hr, hrow⟩
    · simp [createAutomation] at himage
    · rcases hrow.deploymentColumns with ⟨hsame, -⟩ | ⟨p, event, target, created, -, hp, -, rfl⟩
      · rw [hsame] at himage
        exact (h.row r hr image himage).cons
      · exact ⟨event, himage, (h.event p event (by rw [hp]; rfl)).cons⟩
  · intro c hc
    rcases hm.served hc with ⟨c₀, hc₀, himage⟩ | ⟨p, event, hp, himage⟩
    · rw [← himage]
      rcases h.served c₀ hc₀ with hold | hvouched
      · exact Or.inl hold
      · exact Or.inr hvouched.cons
    · -- a vouched event carries an image
      obtain hvouched := h.event p event hp
      obtain ⟨-, -, -, -, -, -, -, -, -, -, -, -, image, hsome, -⟩ := id hvouched
      rw [himage, hsome]
      exact Or.inr ⟨event, hsome, hvouched.cons⟩

/-- What a step of the service is to the automation: nothing, or one step of its
system, which receives an event only from a genuine request. -/
theorem Service.serve_cases {v v' : Server} {o : ServerOp} (h : d.serve v o = some v') :
    v'.system = v.system ∨ ∃ a, step d.cfg v.system a = some v'.system ∧
      ∀ p event readFails, a.op = .deliver p (.receive event readFails) →
        ∃ request atGate inRoute, o = .webhook p request atGate inRoute readFails a.now ∧
          Genuine d.py d.sha256 d.settings request event := by
  cases o with
  | webhook p request atGate inRoute readFails now =>
    simp only [Service.serve] at h
    split at h
    · next event logs hread =>
      split at h
      · obtain ⟨system, hstep, rfl⟩ := Option.map_eq_some_iff.mp h
        refine Or.inr ⟨_, hstep, ?_⟩
        intro q event' readFails' hop
        simp only [Op.deliver.injEq, DeliveryOp.receive.injEq] at hop
        obtain ⟨rfl, rfl, rfl⟩ := hop
        exact ⟨request, atGate, inRoute, rfl, readWebhook_accepted hread⟩
      · obtain rfl := Option.some.inj h
        exact Or.inl rfl
    · obtain rfl := Option.some.inj h
      exact Or.inl rfl
  | other a =>
    simp only [Service.serve] at h
    split at h
    · simp at h
    · next hno =>
      obtain ⟨system, hstep, rfl⟩ := Option.map_eq_some_iff.mp h
      refine Or.inr ⟨a, hstep, ?_⟩
      intro p event readFails hop
      simp [hop, Op.receives] at hno

/-- The service refines the system: whatever holds of all runs of the automation
holds behind the webhook. -/
theorem Service.Served.refines {s : Server} (h : d.Served world tr s) :
    ∃ tr', SystemRun d.cfg anything (initial world) tr' s.system := by
  refine Run.history (P := fun _ s => ∃ tr', SystemRun d.cfg anything (initial world) tr' s.system) h
    ⟨[], .nil⟩ ?_
  rintro tr v o v' - ⟨tr', hrun⟩ - hserve
  rcases d.serve_cases hserve with hsame | ⟨a, hstep, -⟩
  · rw [hsame]
    exact ⟨tr', hrun⟩
  · exact ⟨_, .snoc hrun trivial hstep⟩

theorem Service.Served.trusted {s : Server} (h : d.Served world tr s) : d.Trusted world tr s.system := by
  refine Run.history (P := fun tr s => d.Trusted world tr s.system) h ⟨?_, ?_, ?_, ?_⟩ ?_
  · intro p event hp
    simp [initial, Delivery.handled] at hp
  · intro p event hp
    simp [initial, Delivery.deploying] at hp
  · intro r hr
    simp [initial] at hr
  · intro c hc
    exact Or.inl ⟨c, hc, rfl⟩
  · rintro tr v o v' - htrusted - hserve
    rcases d.serve_cases hserve with hsame | ⟨a, hstep, hop⟩
    · rw [hsame]
      exact htrusted.cons
    · exact htrusted.move (step_move hstep).2.2 rfl hop

/-- Only genuine builds run, in every run of the service: a delivery handles an
event that an authentic request brought, and what is active, enabled or served by
CAPP is an image of the automation's own repository that such a request reported
as the success of the commit then building, unless CAPP served it before. -/
theorem only_genuine_builds_run {s : Server} (h : d.Served world tr s) :
    (∀ p event, (s.system.deliveries p).handled = some event → d.Received tr event) ∧
      (∀ r, s.system.record = some r → ∀ image ∈ r.automation.activeDigest, d.VouchedImage tr image) ∧
      (∀ r, s.system.record = some r → r.automation.matchingState = .active →
        ∃ image ∈ r.automation.activeDigest, d.VouchedImage tr image) ∧
      ∀ c ∈ s.system.world.capps, (∃ c₀ ∈ world.capps, c₀.image = c.image) ∨
        d.VouchedImage tr c.image := by
  have htrusted := h.trusted
  refine ⟨htrusted.handled, htrusted.row, ?_, htrusted.served⟩
  intro r hr hactive
  obtain ⟨tr', hrun⟩ := h.refines
  have hreach : Reached d.cfg anything tr' s.system := ⟨world, hrun⟩
  have hdigest := (hreach.stored.row r hr).matchable hactive
  cases himage : r.automation.activeDigest with
  | none => simp [himage, blank] at hdigest
  | some image => exact ⟨image, rfl, htrusted.row r hr image himage⟩

def sampleService : Service where
  py := samplePython
  sha256 := id
  settings := sampleWebhookSettings
  cfg := sampleConfig

/-- Create, the webhook of its first build, and enable. -/
def servedOps : List ServerOp :=
  [.other ⟨1, .create "tenant" samplePayload "alice" firstSha 100⟩,
    .webhook 0 ⟨sampleScope, .object firstSuccess.dict⟩ 0 0 false 2,
    .other ⟨3, .deliver 0 (.cappAccepts sampleDeployment)⟩, .other ⟨4, .deliver 0 (.recheck none)⟩,
    .other ⟨5, .enable "tenant" "alice"⟩]

theorem only_genuine_builds_run_sample : ∃ tr s r, sampleService.Served sampleWorld tr s ∧
    s.system.record = some r ∧ r.automation.matchingState = .active ∧
      ∃ image ∈ r.automation.activeDigest, sampleService.VouchedImage tr image := by
  obtain ⟨s, hrun, hactive⟩ : ∃ s : Server, sampleService.Served sampleWorld
      (execTrace sampleService.serve ⟨initial sampleWorld, freshLogs⟩ servedOps) s ∧
        (s.system.record.any fun r => r.automation.matchingState = .active) = true :=
    Run.exists_of_exec (fun _ _ => trivial) servedOps _ (by decide +kernel)
  obtain ⟨r, hr, hmatching⟩ := (Option.any_eq_true _ _).mp hactive
  have hstate : r.automation.matchingState = .active := of_decide_eq_true hmatching
  exact ⟨_, s, r, hrun, hr, hstate, (only_genuine_builds_run hrun).2.2.1 r hr hstate⟩

end Server

end KeepAutomation
