import KeepAutomation.Sample

/-! The clients the service ships with. CAPP's two and the archive of the script
repository refuse every call, so that nothing becomes runnable and no deletion
is reported done before the real ones are wired. -/
namespace KeepAutomation

open TransitionSystem

/-- The runner stands at a call of `UnconfiguredCappDeletionClient` or of
`GitlabGitClient.archive`. -/
def Runner.unwired : Runner → Bool
  | .deletingCapp _ _ | .deletingSecret _ _ | .archiving _ _ => true
  | _ => false

/-- `UnconfiguredCappClient`, `UnconfiguredCappDeletionClient` and
`GitlabGitClient.archive`: each call raises and does nothing. The registry may be
configured. -/
def refusesCalls (s : State) : Op → Bool
  | .deliver _ (.cappAccepts _) => false
  | .deliver _ (.tearDown outcome) => outcome = .failed
  | .run p (.call outcome) => (s.runners p).unwired → outcome = .failed
  | _ => true

def shippedClients (s : State) (a : Action) : Prop := refusesCalls s a.op = true

instance (s : State) (a : Action) : Decidable (shippedClients s a) :=
  inferInstanceAs (Decidable (refusesCalls s a.op = true))

/-- A row that has never been deployed, and whose deletion has at most begun. -/
structure Undeployed (a : Automation) : Prop where
  digest : a.activeDigest = none
  deployment : a.cappDeploymentId = none ∧ a.deploymentUrl = none ∧ a.contractVersion = none
  matching : a.matchingState = .inactive ∨ a.matchingState = .deleting
  step : a.deleteCascadeStep = none ∨ a.deleteCascadeStep = some stepMarkedDeleting

/-- No delivery gets past its CAPP call, and only failures are applied. -/
def Delivery.Refused : Delivery → Prop
  | .recordingFailure event => event.status = .failed
  | .rechecking _ _ _ | .deletingCapp _ _ _ | .deletingSecret _ _ => False
  | .answered event out => out = .applied → event.status = .failed
  | _ => True

/-- No attempt gets past its first CAPP deletion; one that returns, returns an
error. -/
def Runner.Refused : Runner → Prop
  | .saving a _ completed => a.matchingState = .deleting ∧ completed = stepMarkedDeleting
  | .deletingCapp a _ => a.matchingState = .deleting
  | .deletingSecret _ _ | .listing _ _ | .deletingImages _ _ _ _ | .relisting _ _ | .archiving _ _ => False
  | .returned result => result.completed = false ∧ result.error ≠ none
  | _ => True

/-- Of the outside world only the registry and the scripts change. -/
structure World.SameDeployments (w₀ w : World) : Prop where
  capps : w.capps = w₀.capps
  secrets : w.secrets = w₀.secrets
  archives : w.archives = w₀.archives

structure FailsClosed (w₀ : World) (s : State) : Prop where
  row : ∀ r, s.record = some r → Undeployed r.automation
  deliveries : ∀ p, (s.deliveries p).Refused
  runners : ∀ p, (s.runners p).Refused
  world : w₀.SameDeployments s.world

section

variable {cfg : Config} {w₀ : World} {s s' : State} {now : Timestamp} {op : Op}

theorem FailsClosed.row_move (h : FailsClosed w₀ s) {r r' : Record} (hr : s.record = some r)
    (hrow : RowMove s now r op r') : Undeployed r'.automation := by
  have hu := h.row r hr
  cases hrow with
  | same => exact hu
  | enabled _ hdigest =>
    rw [hu.digest] at hdigest
    exact absurd hdigest (by decide)
  | disabled => exact ⟨hu.digest, hu.deployment, Or.inl rfl, hu.step⟩
  | deleteAdmitted => exact ⟨hu.digest, hu.deployment, Or.inr rfl, Or.inr rfl⟩
  | claimed => exact ⟨hu.digest, hu.deployment, hu.matching, hu.step⟩
  | @released p claim =>
    obtain ⟨_, _, _, he⟩ := releaseBuildClaim_frame claim r
    rw [he]
    exact ⟨hu.digest, hu.deployment, hu.matching, hu.step⟩
  | edited => exact ⟨hu.digest, hu.deployment, hu.matching, hu.step⟩
  | @cutOver p event target created hp =>
    have hno := h.deliveries p
    rw [hp] at hno
    exact hno.elim
  | buildFailed => exact ⟨hu.digest, hu.deployment, hu.matching, hu.step⟩
  | @checkpointed p a n completed outcome hp =>
    have hfirst := h.runners p
    rw [hp] at hfirst
    obtain ⟨-, rfl⟩ := hfirst
    unfold checkpoint
    split
    · exact ⟨hu.digest, hu.deployment, hu.matching, Or.inr rfl⟩
    · exact hu

/-- On such a row a pass goes to the first checkpoint or to the first deletion. -/
theorem snapshot_refused (h : ∀ r, s.record = some r → Undeployed r.automation) (n : ℕ) :
    (snapshot s.record n).Refused := by
  unfold snapshot
  cases hr : s.record with
  | none => trivial
  | some r =>
    have hu := h r hr
    dsimp only [dispatch]
    split
    · refine ⟨?_, Option.some_ne_none _⟩
      rcases hu.matching with hm | hm
      · simp [cascadeResult, CascadeResult.completed, hm]
      · simp [cascadeResult, CascadeResult.completed, hm]
    · split
      · next hdeleted =>
        rcases hu.matching with hm | hm
        · simp [hm] at hdeleted
        · simp [hm] at hdeleted
      · split
        · trivial
        · next hdeleting =>
          rw [not_not] at hdeleting
          have hstep : nextStep r.automation = 1 ∨ nextStep r.automation = 2 := by
            unfold nextStep
            rcases hu.step with hs | hs
            · exact Or.inl (by rw [hs]; rfl)
            · exact Or.inr (by rw [hs]; rfl)
          rcases hstep with hs | hs
          · rw [hs]
            exact ⟨hdeleting, rfl⟩
          · rw [hs]
            exact hdeleting

theorem FailsClosed.delivery_move (h : FailsClosed w₀ s) {p : ℕ} {o : DeliveryOp} {sh : Shared}
    {d : Delivery} (hE : shippedClients s ⟨now, .deliver p o⟩)
    (hm : DeliveryMove cfg now s.toShared (s.deliveries p) o sh d) : d.Refused := by
  have hd := h.deliveries p
  generalize s.deliveries p = d₀ at hm hd
  cases hm with
  | failureAdmitted _ _ _ _ hstatus => exact hstatus
  | failureRecorded => exact fun _ => hd
  | cappAccepted => exact absurd hE Bool.false_ne_true
  | cutOver => exact hd.elim
  | tearingDown => exact hd.elim
  | cappTornDown => exact hd.elim
  | ignoredAtOnce => exact fun happlied => by simp at happlied
  | failureIgnored => exact fun happlied => by simp at happlied
  | ignored => exact fun happlied => by simp at happlied
  | tearDownFailed => exact hd.elim
  | secretTornDown => exact hd.elim
  | _ => trivial

theorem stopped_refused {a : Automation} (h : a.matchingState = .deleting) (code : String) :
    (stopped a code).Refused := by
  refine ⟨?_, Option.some_ne_none code⟩
  simp [cascadeResult, CascadeResult.completed, h]

theorem FailsClosed.runner_move (h : FailsClosed w₀ s) {p : ℕ} {o : RunnerOp} {sh : Shared}
    {pc : Runner} (hE : shippedClients s ⟨now, .run p o⟩)
    (hm : RunnerMove now s.toShared (s.runners p) o sh pc) :
    pc.Refused ∧ sh.world = s.world := by
  have hpc := h.runners p
  generalize hrun : s.runners p = pc₀ at hm hpc
  cases hm with
  | started => exact ⟨snapshot_refused h.row 0, rfl⟩
  | reread => exact ⟨snapshot_refused h.row _, rfl⟩
  | readFailed => exact ⟨trivial, rfl⟩
  | crashed => exact ⟨trivial, rfl⟩
  | saved outcome =>
    refine ⟨?_, rfl⟩
    cases outcome with
    | ok => trivial
    | failed => exact stopped_refused hpc.1 _
    | lost => exact stopped_refused hpc.1 _
  | called outcome world next stop hcall =>
    have hunwired : (s.runners p).unwired = true → outcome = .failed := of_decide_eq_true hE
    rw [hrun] at hunwired
    cases pc₀ with
    | deletingCapp a n =>
      obtain rfl := hunwired rfl
      simp only [Runner.call, Option.some.injEq, Prod.mk.injEq] at hcall
      obtain ⟨-, -, rfl⟩ := hcall
      exact ⟨stopped_refused hpc _, rfl⟩
    | deletingSecret | listing | deletingImages | relisting | archiving => exact hpc.elim
    | _ => simp [Runner.call] at hcall

theorem FailsClosed.delivery_world (h : FailsClosed w₀ s) {p : ℕ} {o : DeliveryOp} {sh : Shared}
    {d : Delivery} (hE : shippedClients s ⟨now, .deliver p o⟩)
    (hm : DeliveryMove cfg now s.toShared (s.deliveries p) o sh d) : sh.world = s.world := by
  have hd := h.deliveries p
  generalize s.deliveries p = d₀ at hm hd
  cases hm with
  | cappAccepted => exact absurd hE Bool.false_ne_true
  | cappTornDown => exact hd.elim
  | tearDownFailed => exact hd.elim
  | secretTornDown => exact hd.elim
  | _ => rfl

theorem EditMove.deployments {sh sh' : Shared} {e e' : Edit} {o : EditOp}
    (hm : EditMove cfg now sh e o sh' e') : sh.world.SameDeployments sh'.world := by
  cases hm with
  | committed => exact ⟨rfl, rfl, rfl⟩
  | _ => exact ⟨rfl, rfl, rfl⟩

theorem World.SameDeployments.trans {w₁ w₂ : World} (h₁ : w₀.SameDeployments w₁)
    (h₂ : w₁.SameDeployments w₂) : w₀.SameDeployments w₂ :=
  ⟨h₂.capps.trans h₁.capps, h₂.secrets.trans h₁.secrets, h₂.archives.trans h₁.archives⟩

/-- The step lemma. -/
theorem FailsClosed.move (h : FailsClosed w₀ s) (hE : shippedClients s ⟨now, op⟩)
    (hm : Move cfg s now op s') : FailsClosed w₀ s' := by
  constructor
  · intro r' hr'
    rcases hm.row_after hr' with ⟨-, tenantId, data, actor, gitSha, deadline, -, rfl⟩ | ⟨r, hr, hrow⟩
    · exact ⟨rfl, ⟨rfl, rfl, rfl⟩, Or.inl rfl, Or.inl rfl⟩
    · exact h.row_move hr hrow
  · intro p
    rcases hm.delivery p with ⟨-, hsame⟩ | ⟨o, rfl, hd⟩
    · rw [hsame]
      exact h.deliveries p
    · exact h.delivery_move hE hd
  · intro p
    rcases hm.runner p with ⟨-, hsame⟩ | ⟨o, rfl, hc⟩
    · rw [hsame]
      exact h.runners p
    · exact (h.runner_move hE hc).1
  · apply h.world.trans
    cases hm with
    | edited hedit => exact hedit.deployments
    | delivered hd =>
      have hworld := h.delivery_world hE hd
      dsimp only at hworld ⊢
      rw [hworld]
      exact ⟨rfl, rfl, rfl⟩
    | ran hc =>
      have hworld := (h.runner_move hE hc).2
      dsimp only at hworld ⊢
      rw [hworld]
      exact ⟨rfl, rfl, rfl⟩
    | _ => exact ⟨rfl, rfl, rfl⟩

end

/-- With the clients as shipped the service fails closed, in every run: no
automation gets a digest or a deployment or is enabled, CAPP and the archives
stay as they were, only failed builds are applied, and no deletion gets past its
first step or is reported done. -/
theorem shipped_clients_fail_closed {cfg : Config} {w₀ : World} {tr : Trace State Action} {s : State}
    (h : SystemRun cfg shippedClients (initial w₀) tr s) :
    (∀ r, s.record = some r → Undeployed r.automation) ∧ w₀.SameDeployments s.world ∧
      (∀ p event, s.deliveries p = .answered event .applied → event.status = .failed) ∧
      ∀ p result, s.runners p = .returned result → result.completed = false ∧ result.error ≠ none := by
  have hclosed : FailsClosed w₀ s := by
    apply h.invariant
    · refine ⟨fun r hr => ?_, fun _ => trivial, fun _ => trivial, rfl, rfl, rfl⟩
      simp [initial] at hr
    · intro s a s' hs hE hstep
      exact hs.move hE (step_move hstep).2.2
  refine ⟨hclosed.row, hclosed.world, ?_, ?_⟩
  · intro p event hp
    have hd := hclosed.deliveries p
    rw [hp] at hd
    exact hd rfl
  · intro p result hp
    have hpc := hclosed.runners p
    rw [hp] at hpc
    exact hpc

/-- A build that CAPP refuses is reported as failed; the automation is deleted and
its cascade stops at CAPP. -/
def shippedOps : List Op :=
  [.create "t1" samplePayload "author" firstSha 99,
   .deliver 0 (.receive firstSuccess false), .deliver 0 .cappRaises,
   .deliver 1 (.receive firstFailure false), .deliver 1 (.recordFailure none),
   .beginDelete "t1" "deleter", .run 0 (.snapshot false), .run 0 (.call .failed)]

theorem shipped_clients_fail_closed_sample : ∃ s r,
    SystemRun sampleConfig shippedClients (initial sampleWorld) (sampleTrace shippedOps) s ∧
      s.record = some r ∧ r.automation.matchingState = .deleting ∧ Undeployed r.automation := by
  obtain ⟨s, hs, hp⟩ := run_of_runSample (E := shippedClients) shippedOps
    (fun s => s.record.any (fun r => decide (r.automation.matchingState = .deleting)) = true)
    (by decide +kernel) (by decide +kernel)
  obtain ⟨r, hr, hdeleting⟩ := (Option.any_eq_true _ _).mp hp
  exact ⟨s, r, hs, hr, of_decide_eq_true hdeleting, (shipped_clients_fail_closed hs).1 r hr⟩

end KeepAutomation
