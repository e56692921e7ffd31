import KeepAutomation.CappContract
import KeepAutomation.Sample

/-! The deployment columns of a row: written in different subsets by a first
deploy and by a rollout, they are stored together and for good. -/
namespace KeepAutomation

open TransitionSystem

/-- The four columns of a deployment. -/
def Automation.deployment (a : Automation) : List (Option String) :=
  [a.activeDigest, a.contractVersion, a.cappDeploymentId, a.deploymentUrl]

def Automation.Undeployed (a : Automation) : Prop := ∀ column ∈ a.deployment, column = none

def Automation.Deployed (a : Automation) : Prop := ∀ column ∈ a.deployment, column ≠ none

theorem Automation.deployed_iff (a : Automation) : a.Deployed ↔ a.activeDigest ≠ none ∧
    a.contractVersion ≠ none ∧ a.cappDeploymentId ≠ none ∧ a.deploymentUrl ≠ none := by
  simp [Automation.Deployed, Automation.deployment]

theorem Automation.undeployed_iff (a : Automation) : a.Undeployed ↔ a.activeDigest = none ∧
    a.contractVersion = none ∧ a.cappDeploymentId = none ∧ a.deploymentUrl = none := by
  simp [Automation.Undeployed, Automation.deployment]

/-- A lowercase letter or a digit is no whitespace. -/
theorem isSpace_of_isLowerAlnum {c : Char} (h : isLowerAlnum c = true) : isSpace c = false := by
  have hrange : (48 ≤ c.toNat ∧ c.toNat ≤ 57) ∨ (97 ≤ c.toNat ∧ c.toNat ≤ 122) := by
    simpa [isLowerAlnum, Char.le_def, UInt32.le_iff_toNat_le] using h
  simp only [isSpace, Bool.or_eq_false_iff, Bool.and_eq_false_iff, decide_eq_false_iff_not,
    beq_eq_false_iff_ne]
  omega

/-- A digest reference begins with a letter or a digit. -/
theorem not_blank_of_isDigestRef {image : String} (h : isDigestRef image = true) :
    blank (some image) = false := by
  simp only [isDigestRef, Bool.and_eq_true] at h
  obtain ⟨⟨⟨hrepository, -⟩, -⟩, -⟩ := h
  cases himage : image.toList with
  | nil => simp [himage, matchesRepository] at hrepository
  | cons c cs =>
    have hfirst : isLowerAlnum c = true := by
      rw [himage, List.takeWhile_cons] at hrepository
      split at hrepository
      · simp only [matchesRepository, Bool.and_eq_true] at hrepository
        exact hrepository.1
      · simp [matchesRepository] at hrepository
    simp [blank, himage, isSpace_of_isLowerAlnum hfirst]

/-- What a cutover needs to store a whole deployment: a first deploy brings the
two columns CAPP answers with, a rollout finds them on the row. -/
theorem cutOver_deployed {r : Record} {event : CiWebhookIn} {created : Option CappDeployment}
    (now : Timestamp) (hstatus : event.status = .success)
    (hstored : created = none → r.automation.Deployed) :
    (cutOver r event created now).automation.Deployed ∧
      blank (cutOver r event created now).automation.activeDigest = false := by
  have himage := event.image_isDigestPinned hstatus
  have hversion := event.contractVersion_onSuccess hstatus
  cases hi : event.image with
  | none => simp [hi] at himage
  | some image =>
    cases hv : event.contractVersion with
    | none => simp [hv, blank] at hversion
    | some version =>
      rw [hi, Option.any_some] at himage
      constructor
      · rw [Automation.deployed_iff]
        cases created with
        | some deployment => simp [cutOver, hi, hv]
        -- a rollout writes two columns and finds the other two on the row
        | none =>
          obtain ⟨-, -, hid, hurl⟩ := (Automation.deployed_iff _).mp (hstored rfl)
          simp [cutOver, hi, hv, hid, hurl]
      · simpa only [cutOver, hi] using not_blank_of_isDigestRef himage

/-- A row move writes all deployment columns at once, in a cutover, or none. -/
theorem RowMove.deployment {s : State} {now : Timestamp} {r r' : Record} {op : Op}
    (h : RowMove s now r op r') : r'.automation.deployment = r.automation.deployment ∨
      ∃ p event target created, op = .deliver p (.recheck none) ∧
        s.deliveries p = .rechecking event target created ∧ recheck r event.commitSha = none ∧
        r' = KeepAutomation.cutOver r event created now := by
  refine h.deploymentColumns.imp_left ?_
  rintro ⟨hdigest, hversion, hid, hurl⟩
  rw [Automation.deployment, hdigest, hversion, hid, hurl, Automation.deployment]

/-- A delivery that rolls out has read a deployment on the row. -/
def Delivery.rollsOut : Delivery → Bool
  | .callingCapp _ target => target.cappDeploymentId ≠ none
  | .rechecking _ _ created => created = none
  | _ => false

/-- CAPP accepted the image of this row in one of the transitions. -/
def AcceptedIn (tr : Trace State Action) (a : Automation) : Prop :=
  ∃ t ∈ tr, ∃ p event target deployment, CalledIn p event target deployment t ∧
    event.image = a.activeDigest

/-- The deployment columns of the row. -/
structure DeploymentCoherent (tr : Trace State Action) (a : Automation) : Prop where
  together : a.Undeployed ∨ a.Deployed
  matchable : a.matchingState = .active → blank a.activeDigest = false
  accepted : a.activeDigest ≠ none → AcceptedIn tr a

theorem AcceptedIn.cons {tr : Trace State Action} {t : Transition State Action} {a b : Automation}
    (h : AcceptedIn tr a) (hsame : b.activeDigest = a.activeDigest) : AcceptedIn (t :: tr) b := by
  obtain ⟨u, hu, p, event, target, deployment, hcalled, himage⟩ := h
  exact ⟨u, List.mem_cons_of_mem t hu, p, event, target, deployment, hcalled, himage.trans hsame.symm⟩

/-- Only enable makes a row active. -/
theorem RowMove.active {s : State} {now : Timestamp} {r r' : Record} {op : Op}
    (h : RowMove s now r op r') (hactive : r'.automation.matchingState = .active) :
    r.automation.matchingState = .active ∨ blank r.automation.activeDigest = false := by
  cases h with
  | enabled hlive hdigest => exact Or.inr hdigest
  | disabled => simp [Record.transition] at hactive
  | deleteAdmitted => simp [Record.markDeleting, Record.transition] at hactive
  | @released p claim =>
    obtain ⟨_, _, _, he⟩ := releaseBuildClaim_frame claim r
    rw [he] at hactive
    exact Or.inl hactive
  | @checkpointed p a n completed =>
    rcases checkpoint_cases completed now r with he | ⟨-, -, he⟩
    · rw [he] at hactive
      exact Or.inl hactive
    · rw [he] at hactive
      dsimp only at hactive
      split at hactive
      · simp at hactive
      · simp at hactive
  | _ => exact Or.inl hactive

/-- A delivery comes to roll out by reading a deployed row. -/
theorem DeliveryMove.rollsOut {cfg : Config} {now : Timestamp} {sh sh' : Shared} {d d' : Delivery}
    {o : DeliveryOp} (h : DeliveryMove cfg now sh d o sh' d') (hd : d'.rollsOut = true) :
    d.rollsOut = true ∨ ∃ r, sh.record = some r ∧ r.automation.cappDeploymentId ≠ none := by
  cases h with
  | successAdmitted _ r hr =>
    refine Or.inr ⟨r, hr, ?_⟩
    exact of_decide_eq_true hd
  | @cappAccepted event target deployment =>
    left
    cases htarget : target.cappDeploymentId with
    | none => simp [Delivery.rollsOut, htarget] at hd
    | some n => simp [Delivery.rollsOut, htarget]
  | _ => simp [Delivery.rollsOut] at hd

theorem Automation.Deployed.of_same {a b : Automation} (h : a.Deployed)
    (hsame : b.deployment = a.deployment) : b.Deployed := by
  unfold Automation.Deployed
  rw [hsame]
  exact h

/-- A row with any column of a deployment has them all. -/
theorem DeploymentCoherent.deployed {tr : Trace State Action} {a : Automation}
    (h : DeploymentCoherent tr a) {column : Option String} (hmem : column ∈ a.deployment)
    (hcolumn : column ≠ none) : a.Deployed := by
  rcases h.together with hnull | hstored
  · exact absurd (hnull column hmem) hcolumn
  · exact hstored

/-- The columns of the row, and the row a rollout relies on. -/
structure Stored (tr : Trace State Action) (s : State) : Prop where
  row : ∀ r, s.record = some r → DeploymentCoherent tr r.automation
  rollouts : ∀ p, (s.deliveries p).rollsOut = true → ∃ r, s.record = some r ∧ r.automation.Deployed

/-- The step lemma of the columns: they change in a cutover only. -/
theorem Stored.rowMove {cfg : Config} {E : State → Action → Prop} {tr : Trace State Action}
    {s : State} {a : Action} {r r' : Record} (s' : State) (hreach : Reached cfg E tr s) (hs : Stored tr s)
    (hr : s.record = some r) (hm : RowMove s a.now r a.op r') :
    DeploymentCoherent (⟨s, a, s'⟩ :: tr) r'.automation ∧
      (r.automation.Deployed → r'.automation.Deployed) := by
  have hrow := hs.row r hr
  rcases hm.deployment with hsame | ⟨p, event, target, created, -, hp, -, rfl⟩
  · have hdigest : r'.automation.activeDigest = r.automation.activeDigest := (List.cons.inj hsame).1
    refine ⟨⟨?_, ?_, ?_⟩, fun hdeployed => hdeployed.of_same hsame⟩
    · unfold Automation.Undeployed Automation.Deployed
      rw [hsame]
      exact hrow.together
    · intro hactive
      rw [hdigest]
      rcases hm.active hactive with hbefore | hdeployed
      · exact hrow.matchable hbefore
      · exact hdeployed
    · intro hsome
      rw [hdigest] at hsome
      exact (hrow.accepted hsome).cons hdigest
  · -- the row under the cutover is the one its delivery was admitted on, or a later one
    have hwf := hreach.wellFormed p
    rw [hp] at hwf
    have hstored : created = none → r.automation.Deployed := by
      rintro rfl
      obtain ⟨r₁, hr₁, hdeployed⟩ := hs.rollouts p (by simp [hp, Delivery.rollsOut])
      obtain rfl := Option.eq_some_unique hr hr₁
      exact hdeployed
    obtain ⟨hdeployed, hblank⟩ := cutOver_deployed a.now hwf.2.1 hstored
    refine ⟨⟨Or.inr hdeployed, fun _ => hblank, fun _ => ?_⟩, fun _ => hdeployed⟩
    obtain ⟨t, ht, deployment, hcalled, -⟩ := hreach.called hp
    exact ⟨t, List.mem_cons_of_mem _ ht, p, event, target, deployment, hcalled, rfl⟩

theorem Reached.stored {cfg : Config} {E : State → Action → Prop} {tr : Trace State Action}
    {s : State} (h : Reached cfg E tr s) : Stored tr s := by
  obtain ⟨world, hrun⟩ := h
  refine hrun.history (P := Stored) ⟨?_, ?_⟩ ?_
  · intro r hr
    simp [initial] at hr
  · intro p hp
    simp [initial, Delivery.rollsOut] at hp
  intro tr s a s' hrun hs _ hstep
  have hreach : Reached cfg E tr s := ⟨world, hrun⟩
  have hm := (step_move hstep).2.2
  have carry : ∀ r, s.record = some r → r.automation.Deployed →
      ∃ r', s'.record = some r' ∧ r'.automation.Deployed := by
    intro r hr hdeployed
    obtain ⟨r', hr', hrm⟩ := hm.row hr
    exact ⟨r', hr', (hs.rowMove s' hreach hr hrm).2 hdeployed⟩
  constructor
  · intro r' hr'
    rcases hm.row_after hr' with ⟨-, _, _, _, _, _, -, rfl⟩ | ⟨r, hr, hrm⟩
    · refine ⟨Or.inl ?_, ?_, ?_⟩
      · rw [Automation.undeployed_iff]
        simp [createAutomation]
      · simp [createAutomation]
      · simp [createAutomation]
    · exact (hs.rowMove s' hreach hr hrm).1
  · intro p hp
    rcases hm.delivery p with ⟨-, hsame⟩ | ⟨o, -, hd⟩
    · obtain ⟨r, hr, hdeployed⟩ := hs.rollouts p (hsame ▸ hp)
      exact carry r hr hdeployed
    -- a delivery comes to roll out on a row with a deployment id, so with all of it
    · rcases hd.rollsOut hp with hbefore | ⟨r, hr, hid⟩
      · obtain ⟨r, hr, hdeployed⟩ := hs.rollouts p hbefore
        exact carry r hr hdeployed
      · have hmem : r.automation.cappDeploymentId ∈ r.automation.deployment := by
          simp [Automation.deployment]
        exact carry r hr ((hs.row r hr).deployed hmem hid)

/-- Once stored, a deployment is never lost. -/
theorem Reached.deployed_stays {cfg : Config} {E : State → Action → Prop} {tr tr' : Trace State Action}
    {s s' : State} (h : Reached cfg E tr s) (hrun : SystemRun cfg E s tr' s') {r : Record}
    (hr : s.record = some r) :
    ∃ r', s'.record = some r' ∧ (r.automation.Deployed → r'.automation.Deployed) := by
  obtain ⟨world, h₀⟩ := h
  refine hrun.history (P := fun _ s => ∃ r', s.record = some r' ∧
    (r.automation.Deployed → r'.automation.Deployed)) ⟨r, hr, id⟩ ?_
  rintro tr₁ s₁ a s₂ hrun₁ ⟨r₁, hr₁, hkeeps⟩ - hstep
  have hreach : Reached cfg E (tr₁ ++ tr) s₁ := ⟨world, h₀.append hrun₁⟩
  obtain ⟨r₂, hr₂, hrm⟩ := (step_move hstep).2.2.row hr₁
  have hstays := (hreach.stored.rowMove s₂ hreach hr₁ hrm).2
  exact ⟨r₂, hr₂, fun hdeployed => hstays (hkeeps hdeployed)⟩

/-- The row is coherent in every reachable state, whatever calls interleave, fail
or crash. -/
theorem row_coherence (cfg : Config) (tr : Trace State Action) (s : State)
    (h : Reached cfg anything tr s) (r : Record) (hr : s.record = some r) :
    (r.automation.buildLockDeadline ≠ none ↔ r.automation.buildState = .building) ∧
    (r.automation.buildingSha ≠ none → r.automation.buildState = .building) ∧
    (r.automation.Undeployed ∨ r.automation.Deployed) ∧
    (∀ tr' s', SystemRun cfg anything s tr' s' → ∃ r', s'.record = some r' ∧
      (r.automation.Deployed → r'.automation.Deployed)) ∧
    (r.automation.matchingState = .active → blank r.automation.activeDigest = false ∧
      r.automation.Deployed ∧ AcceptedIn tr r.automation) := by
  have hc := h.fenced.coherent r hr
  have hrow := h.stored.row r hr
  refine ⟨⟨?_, hc.armed⟩, ?_, hrow.together, fun _ _ hrun => h.deployed_stays hrun hr, ?_⟩
  · intro hdeadline
    by_contra hbuild
    exact hdeadline (hc.settled hbuild).1
  · intro hsha
    by_contra hbuild
    exact hsha (hc.settled hbuild).2
  · intro hactive
    have hblank := hrow.matchable hactive
    have hsome : r.automation.activeDigest ≠ none := by
      intro hnone
      simp [hnone, blank] at hblank
    have hmem : r.automation.activeDigest ∈ r.automation.deployment := by
      simp [Automation.deployment]
    exact ⟨hblank, hrow.deployed hmem hsome, hrow.accepted hsome⟩

theorem row_coherence_sample :
    ∃ s r, Reached sampleConfig anything
        (sampleTrace (buildOps ++ [.enable "t1" "operator"])) s ∧
      s.record = some r ∧ r.automation.matchingState = .active ∧ r.automation.Deployed := by
  obtain ⟨s, hs, r, hr, hactive⟩ := run_of_runSample (E := anything)
    (buildOps ++ [.enable "t1" "operator"])
    (fun s => ∃ r ∈ s.record, r.automation.matchingState = .active)
    (by decide +kernel) (by decide +kernel)
  have hreach : Reached sampleConfig anything _ s := ⟨sampleWorld, hs⟩
  obtain ⟨-, -, -, -, hmatchable⟩ := row_coherence sampleConfig _ s hreach r hr
  exact ⟨s, r, hreach, hr, hactive, (hmatchable hactive).2.1⟩

end KeepAutomation
