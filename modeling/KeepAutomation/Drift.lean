import KeepAutomation.CappContract
import KeepAutomation.Sample

/-! When CAPP and the row can drift apart without a warning: a cutover that
commits after another delivery's image has landed over its own. -/
namespace KeepAutomation

open TransitionSystem

/-- The image CAPP serves for the automation. -/
def servedImage (cfg : Config) (s : State) : Option String :=
  s.world.served (pinnedName cfg.automationId)

def activeDigest (s : State) : Option String :=
  s.record.bind fun r => r.automation.activeDigest

/-- The transition is a re-check that logs `CAPP ahead of row`. -/
def logsDrift (t : Transition State Action) : Bool :=
  match t.act.op with
  | .deliver p (.recheck none) =>
    match (t.pre.deliveries p).unchecked, t.pre.record with
    | some event, some r => logsAheadOfRow event r
    | _, _ => false
  | _ => false

/-- The transition is a re-check that cuts over. -/
def cutsOver (t : Transition State Action) : Bool :=
  match t.act.op with
  | .deliver p (.recheck none) =>
    match (t.pre.deliveries p).unchecked, t.pre.record with
    | some event, some r => recheck r event.commitSha = none
    | _, _ => false
  | _ => false

def Warned (tr : Trace State Action) : Prop := ∃ t ∈ tr, logsDrift t = true

/-- CAPP serves the image of a delivery that is still to be re-checked. -/
def ServesUnchecked (cfg : Config) (s : State) : Prop :=
  ∃ q event, (s.deliveries q).unchecked = some event ∧ servedImage cfg s = event.image

/-- No DELETE, no delivery crashes, no transaction fails, and CAPP keeps its
contract. -/
def undisturbed (cfg : Config) (s : State) (a : Action) : Prop :=
  a.op.deletes = false ∧ a.op.crashesDelivery = false ∧ a.op.faulty = false ∧ cappContract cfg s a

instance (cfg : Config) (s : State) (a : Action) : Decidable (undisturbed cfg s a) :=
  inferInstanceAs (Decidable (_ ∧ _ ∧ _ ∧ _))

/-- Only deliveries and the cascade change the deployments. -/
theorem Move.capps {cfg : Config} {s s' : State} {now : Timestamp} {op : Op}
    (h : Move cfg s now op s') (hop : ∀ p o, op ≠ .deliver p o) (hdel : op.deletes = false) :
    s'.world.capps = s.world.capps := by
  cases h with
  | @edited p o sh e hm =>
    generalize s.edits p = e₀ at hm
    cases hm with
    | _ => rfl
  | delivered => exact absurd rfl (hop _ _)
  | ran => simp [Op.deletes] at hdel
  | _ => rfl

theorem RowMove.activeDigest {s : State} {now : Timestamp} {r r' : Record} {op : Op}
    (h : RowMove s now r op r') (hop : ∀ p o, op ≠ .deliver p o) :
    r'.automation.activeDigest = r.automation.activeDigest := by
  rcases h.deploymentColumns with ⟨hsame, -⟩ | ⟨p, _, _, _, ho, -⟩
  · exact hsame
  · exact absurd ho (hop p _)

/-- Only deliveries change the active digest. -/
theorem Move.activeDigest {cfg : Config} {s s' : State} {now : Timestamp} {op : Op}
    (h : Move cfg s now op s') (hop : ∀ p o, op ≠ .deliver p o) :
    activeDigest s' = activeDigest s := by
  cases hrec : s.record with
  | some r =>
    obtain ⟨r', hr', hrow⟩ := h.row hrec
    have hsame := hrow.activeDigest hop
    simp only [KeepAutomation.activeDigest, hrec, hr', Option.bind_some, hsame]
  | none =>
    rcases h.row_of_none hrec with hnone | ⟨_, _, _, _, _, -, hcreated⟩
    · simp only [KeepAutomation.activeDigest, hrec, hnone]
    · simp only [KeepAutomation.activeDigest, hrec, hcreated, Option.bind_some, Option.bind_none,
        createAutomation]

/-- The invariant: a difference between CAPP and the row has been logged, or the
delivery that made it is still to be re-checked. -/
def Accounted (cfg : Config) (tr : Trace State Action) (s : State) : Prop :=
  Warned tr ∨ ServesUnchecked cfg s ∨ servedImage cfg s = activeDigest s

theorem Warned.cons {t : Transition State Action} {tr : Trace State Action} (h : Warned tr) :
    Warned (t :: tr) := by
  obtain ⟨u, hu, hlog⟩ := h
  exact ⟨u, List.mem_cons_of_mem t hu, hlog⟩

/-- A step that changes neither image and re-checks nothing keeps the account. -/
theorem Accounted.frame {cfg : Config} {tr : Trace State Action} {s s' : State} {a : Action}
    (h : Accounted cfg tr s) (hserved : servedImage cfg s' = servedImage cfg s)
    (hactive : activeDigest s' = activeDigest s)
    (hkeep : ∀ q event, (s.deliveries q).unchecked = some event →
      (s'.deliveries q).unchecked = some event) : Accounted cfg (⟨s, a, s'⟩ :: tr) s' := by
  rcases h with hwarned | ⟨q, event, hq, himage⟩ | hsame
  · exact Or.inl hwarned.cons
  · exact Or.inr (Or.inl ⟨q, event, hkeep q event hq, hserved.trans himage⟩)
  · exact Or.inr (Or.inr (by rw [hserved, hactive, hsame]))

/-- When delivery `p` is re-checked, CAPP serves its image or that of another
delivery, which is then still to be re-checked. -/
theorem ServesUnchecked.rechecked {cfg : Config} {s : State} {p : ℕ} {event : CiWebhookIn}
    {sh : Shared} (d : Delivery) (now : Timestamp) (h : ServesUnchecked cfg s)
    (hp : (s.deliveries p).unchecked = some event) (hworld : sh.world = s.world) :
    servedImage cfg s = event.image ∨ ServesUnchecked cfg { s with
      toShared := sh, deliveries := Function.update s.deliveries p d, clock := now } := by
  obtain ⟨q, event', hq, himage⟩ := h
  by_cases hqp : q = p
  · left
    rw [hqp, hp] at hq
    obtain rfl := Option.some.inj hq
    exact himage
  · right
    refine ⟨q, event', ?_, ?_⟩
    · simp only [Function.update_of_ne hqp, hq]
    · rw [← himage]
      simp only [servedImage, hworld]

/-- The step lemma: a re-check is where the account could be lost, and it is not
when CAPP serves the image of a delivery still to be re-checked. -/
theorem Accounted.move {cfg : Config} {tr : Trace State Action} {s s' : State} {now : Timestamp}
    {op : Op} (hpinned : Pinned cfg.automationId s)
    (hwell : ∀ p, (s.deliveries p).WellFormed cfg.automationId)
    (hrow : ∀ p, (s.deliveries p).inFlight = true → s.record ≠ none) (hlive : Undeleted s)
    (hE : undisturbed cfg s ⟨now, op⟩)
    (hcond : cutsOver ⟨s, ⟨now, op⟩, s'⟩ = true → Warned tr ∨ ServesUnchecked cfg s)
    (h : Accounted cfg tr s) (hm : Move cfg s now op s') :
    Accounted cfg (⟨s, ⟨now, op⟩, s'⟩ :: tr) s' := by
  obtain ⟨hdel, hcrash, hfault, hcapp⟩ := hE
  by_cases hop : ∀ p o, op ≠ .deliver p o
  · have hsame : ∀ q, s'.deliveries q = s.deliveries q := by
      intro q
      rcases hm.delivery q with ⟨-, hq⟩ | ⟨o, ho, -⟩
      · exact hq
      · exact absurd ho (hop q o)
    refine h.frame ?_ (hm.activeDigest hop) fun q event hq => by rw [hsame q]; exact hq
    simp only [servedImage, World.served, hm.capps hop hdel]
  push Not at hop
  obtain ⟨p, o, rfl⟩ := hop
  cases hm with
  | refused hreq => simp [Op.isRequest] at hreq
  | @delivered _ _ sh d hmove =>
    have hnames := hpinned.deliveries p
    have hwf := hwell p
    have hflight := hrow p
    have hnot := hlive.noTearDown p
    generalize hp : s.deliveries p = d₀ at hmove hnames hwf hflight hnot
    -- what the other deliveries have in hand stays in hand
    have hothers : d₀.unchecked = none → ∀ q event, (s.deliveries q).unchecked = some event →
        (Function.update s.deliveries p d q).unchecked = some event := by
      intro hnone q event hq
      by_cases hqp : q = p
      · rw [hqp, hp, hnone] at hq
        simp at hq
      · rw [Function.update_of_ne hqp]
        exact hq
    have hactive : ∀ r, s.record = some r → activeDigest s = r.automation.activeDigest := by
      intro r hr
      simp only [activeDigest, hr, Option.bind_some]
    cases hmove with
    | @cappAccepted event target deployment =>
      have hacc := cappContract_accepts hcapp hp
      refine Or.inr (Or.inl ⟨p, event, ?_, served_deploy hwf.2 hnames hacc⟩)
      simp only [Function.update_self, Delivery.unchecked]
    | @cutOver event target created r hr hre =>
      have hcut : Warned tr ∨ ServesUnchecked cfg s := by
        apply hcond
        simp only [cutsOver, hp, Delivery.unchecked, hr, hre, decide_true]
      rcases hcut with hwarned | hserves
      · exact Or.inl hwarned.cons
      have hunchecked : (s.deliveries p).unchecked = some event := by rw [hp]; rfl
      rcases hserves.rechecked _ now hunchecked rfl with hown | hother
      · -- its own image is the one served, and now the active one
        exact Or.inr (Or.inr hown)
      · exact Or.inr (Or.inl hother)
    | @ignored event target created r hr reason hre hne =>
      by_cases hsame : r.automation.activeDigest = event.image
      · rcases h with hwarned | hserves | hserved
        · exact Or.inl hwarned.cons
        · have hunchecked : (s.deliveries p).unchecked = some event := by rw [hp]; rfl
          rcases hserves.rechecked _ now hunchecked rfl with hown | hother
          · -- the row already records the image that is served
            exact Or.inr (Or.inr (hown.trans (by rw [← hsame]; exact (hactive r hr).symm)))
          · exact Or.inr (Or.inl hother)
        · exact Or.inr (Or.inr hserved)
      · refine Or.inl ⟨_, List.mem_cons_self .., ?_⟩
        have hlogs : logsAheadOfRow event r := ⟨by rw [hre]; simp, hsame⟩
        simp only [logsDrift, hp, Delivery.unchecked, hr, hlogs, decide_true]
    | tearingDown r hr hre =>
      exact absurd ((recheck_deleting_iff r _).mp hre) (hlive.live r hr)
    | @notRecorded event target created fault error hnone =>
      cases fault with
      | none => exact absurd (hnone rfl) (hflight rfl)
      | some f => simp [Op.faulty] at hfault
    | @cappTornDown event wallet name => exact absurd rfl ((hnot event wallet).1 name)
    | @tearDownFailed event wallet name => exact absurd rfl ((hnot event wallet).1 name)
    | @secretTornDown event wallet => exact absurd rfl (hnot event wallet).2
    | crashed => simp [Op.crashesDelivery] at hcrash
    | @failureRecorded event r hr =>
      refine h.frame rfl ?_ (hothers rfl)
      rw [hactive r hr]
      rfl
    | _ => exact h.frame rfl rfl (hothers rfl)

/-- Whenever every cutover commits while CAPP serves the image of a delivery
still to be re-checked, no drift stays silent. -/
theorem drift_is_logged (cfg : Config) (world : World) (tr : Trace State Action) (s : State)
    (hworld : world.served (pinnedName cfg.automationId) = none)
    (h : SystemRun cfg (undisturbed cfg) (initial world) tr s)
    (hcond : ∀ later t earlier, tr = later ++ t :: earlier → cutsOver t = true →
      Warned earlier ∨ ServesUnchecked cfg t.pre)
    (hquiet : ∀ p, (s.deliveries p).unchecked = none) :
    servedImage cfg s = activeDigest s ∨ Warned tr := by
  suffices hacc : Accounted cfg tr s by
    rcases hacc with hwarned | ⟨q, event, hq, -⟩ | hsame
    · exact Or.inr hwarned
    · simp [hquiet q] at hq
    · exact Or.inl hsame
  clear hquiet
  induction h with
  | nil => exact Or.inr (Or.inr hworld)
  | @snoc tr s s' a hrun ha hstep ih =>
    have hreach : Reached cfg (undisturbed cfg) tr s := ⟨world, hrun⟩
    obtain ⟨-, -, hm⟩ := step_move hstep
    refine Accounted.move (hreach.pinned fun _ _ h => h.2.2.2) hreach.wellFormed
      (fun _ => hreach.inFlight_row) (hreach.undeleted fun _ _ h => h.1) ha ?_ (ih ?_) hm
    · intro hcut
      exact hcond [] _ tr rfl hcut
    · intro later t earlier htr hcut
      exact hcond (_ :: later) t earlier (by rw [htr, List.cons_append]) hcut

theorem drift_is_logged_sample : ∃ s,
    SystemRun sampleConfig (undisturbed sampleConfig) (initial sampleWorld) (sampleTrace buildOps) s ∧
      (servedImage sampleConfig s = activeDigest s ∨ Warned (sampleTrace buildOps)) := by
  obtain ⟨s, hs, hp⟩ := run_of_runSample (E := undisturbed sampleConfig) buildOps
    (fun s => ∀ p : ℕ, p < 2 → (s.deliveries p).unchecked = none) (by decide +kernel) (by decide +kernel)
  have hquiet := forall_calls (P := fun d _ => d.unchecked = none) hs 2 (by decide +kernel) rfl hp
  have hcuts : ∀ t ∈ sampleTrace buildOps, cutsOver t = true →
      (t.pre.deliveries 0).unchecked = some firstSuccess ∧
        servedImage sampleConfig t.pre = firstSuccess.image := by
    decide +kernel
  refine ⟨s, hs, drift_is_logged sampleConfig sampleWorld _ s (by decide +kernel) hs ?_ hquiet⟩
  intro later t earlier htr hcut
  have ht : t ∈ sampleTrace buildOps := htr ▸ List.mem_append_right _ (List.mem_cons_self ..)
  obtain ⟨hevent, himage⟩ := hcuts t ht hcut
  exact Or.inr ⟨0, firstSuccess, hevent, himage⟩

/-- A run in which CAPP ends up serving the first image while the row records
the second, and nothing was logged. -/
theorem silent_drift : ∃ s,
    SystemRun sampleConfig (undisturbed sampleConfig) (initial sampleWorld) (sampleTrace driftOps) s ∧
      sampleWorld.served (pinnedName sampleConfig.automationId) = none ∧
      (∀ p, (s.deliveries p).unchecked = none) ∧
      servedImage sampleConfig s = some (sampleImage 'a') ∧
      activeDigest s = some (sampleImage 'b') ∧ ¬Warned (sampleTrace driftOps) := by
  obtain ⟨s, hs, hp⟩ := run_of_runSample (E := undisturbed sampleConfig) driftOps
    (fun s => (∀ p : ℕ, p < 3 → (s.deliveries p).unchecked = none) ∧
      servedImage sampleConfig s = some (sampleImage 'a') ∧
      activeDigest s = some (sampleImage 'b'))
    (by decide +kernel) (by decide +kernel)
  obtain ⟨hsmall, hserved, hactive⟩ := hp
  have hquiet := forall_calls (P := fun d _ => d.unchecked = none) hs 3 (by decide +kernel) rfl
    hsmall
  have hsilent : ¬Warned (sampleTrace driftOps) := by
    unfold Warned
    decide +kernel
  exact ⟨s, hs, by decide +kernel, hquiet, hserved, hactive, hsilent⟩

end KeepAutomation
