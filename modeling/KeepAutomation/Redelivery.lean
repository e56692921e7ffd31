import KeepAutomation.AtMostOnce
import KeepAutomation.DeletionProgress
import KeepAutomation.ImageBinding
import KeepAutomation.Wallet

/-! The webhook's status codes as CI reads them. A 5xx is to be redelivered: its call
has written nothing, and while the row still waits for the commit a redelivery is
applied. A 200 is final if the row had recorded the commit when it was given. -/
namespace KeepAutomation

open TransitionSystem

/-- A create or an edit of this row has recorded the commit. -/
def Recorded (r : Record) (commitSha : String) : Prop :=
  ∃ v ∈ r.revisions, v.action.requesting = true ∧ v.gitSha = some commitSha

instance (r : Record) (commitSha : String) : Decidable (Recorded r commitSha) :=
  inferInstanceAs (Decidable (∃ v ∈ r.revisions, _ ∧ _))

/-- The commit was recorded, and a webhook for it is refused. -/
def Closed (commitSha : String) (s : State) : Prop :=
  ∃ r, s.record = some r ∧ Recorded r commitSha ∧ admission r.automation commitSha ≠ none

/-- A delivery is answered 200 in this transition. -/
def Answers (event : CiWebhookIn) (t : Transition State Action) : Prop :=
  ∃ p out, t.pre.deliveries p ≠ .answered event out ∧ t.post.deliveries p = .answered event out

/-- The delivery is at work on a webhook of the commit, or was answered `applied`. -/
def Delivery.pursues (commitSha : String) : Delivery → Prop
  | .recordingFailure event | .callingCapp event _ | .rechecking event _ _ | .answered event .applied =>
    event.commitSha = commitSha
  | _ => False

section Final

variable {cfg : Config} {tr : Trace State Action} {s s' : State} {r r' : Record} {now : Timestamp}
  {op : Op} {commitSha : String}

theorem RowMove.recorded (h : RowMove s now r op r') (hr : Recorded r commitSha) :
    Recorded r' commitSha := by
  obtain ⟨v, hv, haction, hsha⟩ := hr
  obtain ⟨v', hv', haction', hsha'⟩ := h.keeps_revision hv
  exact ⟨v', hv', by rw [haction', haction], by rw [hsha', hsha]⟩

/-- A row comes to wait for a commit only when an edit finishes with it. -/
theorem RowMove.waits (hs : Fenced s) (hr : s.record = some r) (h : RowMove s now r op r')
    (hadm : admission r'.automation commitSha = none) :
    admission r.automation commitSha = none ∨
      ∃ p claim tenantId data actor, s.edits p = .finishing claim tenantId data actor commitSha := by
  obtain ⟨hlive, hbuild, hsha⟩ := admission_none hadm
  cases h with
  | same => exact Or.inl hadm
  | enabled hlive' => exact Or.inl (admission_of_building hlive' hbuild hsha)
  | disabled hlive' => exact Or.inl (admission_of_building hlive' hbuild hsha)
  | deleteAdmitted => simp [Record.markDeleting, Record.transition] at hlive
  | claimed => simp [Record.claimed] at hsha
  | @released p claim hp =>
    have hholds : Holds claim r.automation := hs.holds_row hr (by rw [hp]; rfl)
    rw [releaseBuildClaim_held hholds.held] at hsha
    change claim.previousBuildingSha = some commitSha at hsha
    simp [hholds.previousSha] at hsha
  | @edited p claim tenantId data actor gitSha hp hheld =>
    right
    obtain rfl : gitSha = commitSha := Option.some.inj hsha
    exact ⟨p, claim, tenantId, data, actor, hp⟩
  | cutOver => simp [KeepAutomation.cutOver] at hsha
  | buildFailed => simp [failBuild] at hsha
  | @checkpointed p a n completed =>
    left
    rcases checkpoint_cases completed now r with he | ⟨-, -, he⟩
    · rw [he] at hadm
      exact hadm
    · rw [he] at hlive
      dsimp only at hlive
      split at hlive
      · simp at hlive
      · simp at hlive

/-- The step lemma: git returns no commit twice, so a closed one stays closed. -/
theorem Closed.step (hreach : Reached cfg freshShas tr s) (h : Closed commitSha s)
    (hm : Move cfg s now op s') : Closed commitSha s' := by
  obtain ⟨r, hr, hrecorded, hrefused⟩ := h
  obtain ⟨r', hr', hrow⟩ := hm.row hr
  refine ⟨r', hr', hrow.recorded hrecorded, ?_⟩
  intro hadm
  rcases hrow.waits hreach.fenced hr hadm with hbefore | ⟨p, claim, tenantId, data, actor, hp⟩
  · exact hrefused hbefore
  · obtain ⟨b, older, hfits⟩ := hreach.history hr
    obtain ⟨v, hv, hrequesting, hsha⟩ := hrecorded
    have haxis : v.action.onBuildAxis = true := by
      cases ha : v.action <;> simp_all [RevisionAction.requesting, RevisionAction.onBuildAxis]
    exact hfits.unrequested hp v hv haxis hsha

/-- The run lemma. -/
theorem Closed.stays (hreach : Reached cfg freshShas tr s) (h : Closed commitSha s)
    {tr' : Trace State Action} (hrun : SystemRun cfg freshShas s tr' s') : Closed commitSha s' := by
  obtain ⟨world, h₀⟩ := hreach
  refine Run.history (P := fun _ s' => Closed commitSha s') hrun h ?_
  rintro tr₁ s₁ a s₂ hrun₁ hclosed - hstep
  exact hclosed.step ⟨world, h₀.append hrun₁⟩ (step_move hstep).2.2

theorem recheck_some {reason : IgnoredReason} (h : recheck r commitSha = some reason) :
    admission r.automation commitSha ≠ none := by
  unfold recheck at h
  split at h
  · simp at h
  · rw [h]
    exact Option.some_ne_none reason

theorem admission_ne_none_of_settled (h : r.automation.buildState ≠ .building) :
    admission r.automation commitSha ≠ none :=
  fun hadm => h (admission_none hadm).2.1

/-- An undo behind CAPP's answer. -/
def Delivery.undoes : Delivery → Bool
  | .deletingCapp _ _ _ | .deletingSecret _ _ => true
  | _ => false

/-- A delivery answers over a row that does not wait for its commit, or it has
undone its call and leaves the row alone. -/
theorem Delivery.step_answered {sh sh' : Shared} {d : Delivery} {o : DeliveryOp} {event : CiWebhookIn}
    {out : CiWebhookOut} (h : d.step cfg now sh o = some (sh', .answered event out)) :
    (∃ r, sh'.record = some r ∧ admission r.automation event.commitSha ≠ none) ∨
      d.undoes = true ∧ sh'.record = sh.record := by
  cases o with
  | receive received readFails =>
    left
    cases d <;> simp only [Delivery.step, reduceCtorEq] at h
    split at h
    · simp at h
    · split at h
      · simp at h
      · simp only [Option.some.injEq, Prod.mk.injEq] at h
        obtain ⟨rfl, hadmit⟩ := h
        unfold admitDelivery at hadmit
        split at hadmit
        · simp at hadmit
        · next r hr =>
          split at hadmit
          · next reason hadm =>
            obtain ⟨rfl, -⟩ := Delivery.answered.inj hadmit
            exact ⟨r, hr, by rw [hadm]; exact Option.some_ne_none reason⟩
          · split at hadmit
            · simp at hadmit
            · split at hadmit
              · simp at hadmit
              · simp at hadmit
  | recordFailure fault =>
    left
    cases d <;> simp only [Delivery.step, reduceCtorEq] at h
    case recordingFailure received =>
      cases fault with
      | some f => simp at h
      | none =>
        simp only [Option.some.injEq, Prod.mk.injEq] at h
        obtain ⟨rfl, hout⟩ := h
        cases hrec : sh.record with
        | none => simp [recordFailure, hrec] at hout
        | some r =>
          simp only [recordFailure, hrec] at hout ⊢
          split at hout
          · next reason hadm =>
            obtain ⟨rfl, -⟩ := Delivery.answered.inj hout
            exact ⟨r, rfl, by rw [hadm]; exact Option.some_ne_none reason⟩
          · next hadm =>
            obtain ⟨rfl, -⟩ := Delivery.answered.inj hout
            refine ⟨_, rfl, admission_ne_none_of_settled ?_⟩
            simp [failBuild]
  | cappAccepts deployment =>
    cases d <;> simp [Delivery.step] at h
  | cappRaises =>
    cases d <;> simp [Delivery.step] at h
  | recheck fault =>
    left
    cases d <;> simp only [Delivery.step, reduceCtorEq] at h
    case rechecking received target created =>
      cases fault with
      | some f => simp at h
      | none =>
        simp only [Option.some.injEq, Prod.mk.injEq] at h
        obtain ⟨rfl, hout⟩ := h
        cases hrec : sh.record with
        | none => simp [commitCutover, hrec] at hout
        | some r =>
          simp only [commitCutover, hrec] at hout ⊢
          split at hout
          · obtain ⟨rfl, -⟩ := Delivery.answered.inj hout
            refine ⟨_, rfl, admission_ne_none_of_settled ?_⟩
            simp [cutOver]
          · simp at hout
          · next reason hne hre =>
            obtain ⟨rfl, -⟩ := Delivery.answered.inj hout
            exact ⟨r, rfl, recheck_some hre⟩
  | tearDown outcome =>
    right
    cases d <;> simp only [Delivery.step, reduceCtorEq] at h
    case deletingCapp received wallet name =>
      simp only [Option.some.injEq, Prod.mk.injEq] at h
      obtain ⟨rfl, -⟩ := h
      exact ⟨rfl, rfl⟩
    case deletingSecret received wallet =>
      simp only [Option.some.injEq, Prod.mk.injEq] at h
      obtain ⟨rfl, -⟩ := h
      exact ⟨rfl, rfl⟩
  | crash =>
    cases d <;> simp [Delivery.step] at h

/-- The step of a call that has moved. -/
theorem step_delivery {a : Action} (hstep : step cfg s a = some s') {p : ℕ}
    (hne : s'.deliveries p ≠ s.deliveries p) :
    ∃ o, (s.deliveries p).step cfg a.now s.toShared o = some (s'.toShared, s'.deliveries p) := by
  rcases (step_move hstep).2.2.delivery p with ⟨-, hsame⟩ | ⟨o, hop, -⟩
  · exact absurd hsame hne
  · refine ⟨o, ?_⟩
    unfold step at hstep
    split at hstep
    · obtain ⟨s₁, happly, rfl⟩ := Option.map_eq_some_iff.mp hstep
      rw [hop] at happly
      obtain ⟨⟨sh, d⟩, hd, rfl⟩ := Option.map_eq_some_iff.mp happly
      have hlast : (Function.update s.deliveries p d) p = d := Function.update_self ..
      exact hd.trans (congrArg (fun d => some (sh, d)) hlast.symm)
    · simp at hstep

/-- A delivery undoes its CAPP call behind a deletion only. -/
theorem Reached.undoing {E : State → Action → Prop} (h : Reached cfg E tr s) :
    ∀ p, (s.deliveries p).undoes = true → s.inDeletion := by
  refine h.invariant (I := fun s => ∀ p, (s.deliveries p).undoes = true → s.inDeletion) ?_ ?_
  · intro world p hp
    simp [initial, Delivery.undoes] at hp
  intro tr s now op s' _ hs _ _ _ hm p hp
  have hstays : s.inDeletion → s'.inDeletion := by
    rintro ⟨r, hr, hdel⟩
    obtain ⟨r', hr', hrow⟩ := hm.row hr
    exact ⟨r', hr', hrow.stays_in_deletion hdel⟩
  rcases hm.delivery p with ⟨-, hsame⟩ | ⟨o, rfl, hd⟩
  · rw [hsame] at hp
    exact hstays (hs p hp)
  · have hbefore : (s.deliveries p).undoes = true → s'.inDeletion := fun hp => hstays (hs p hp)
    generalize s'.deliveries p = d' at hd hp
    generalize s.deliveries p = d at hd hbefore
    generalize s'.toShared = sh' at hd
    cases hd with
    | tearingDown r hr hre => exact hstays ⟨r, hr, (recheck_deleting_iff r _).mp hre⟩
    | cappTornDown => exact hbefore rfl
    | _ => simp [Delivery.undoes] at hp

theorem admission_ne_none_of_deletion {a : Automation} (h : a.matchingState ∈ deletionStates) :
    admission a commitSha ≠ none :=
  fun hadm => (admission_none hadm).1 h

/-- The row an answer is given over. -/
theorem Answers.refused {E : State → Action → Prop} {t : Transition State Action} {event : CiWebhookIn}
    (hreach : Reached cfg E tr t.pre) (hstep : step cfg t.pre t.act = some t.post)
    (h : Answers event t) :
    ∃ r, t.post.record = some r ∧ admission r.automation event.commitSha ≠ none := by
  obtain ⟨p, out, hbefore, hafter⟩ := h
  have hne : t.post.deliveries p ≠ t.pre.deliveries p := by
    rw [hafter]
    exact fun hsame => hbefore hsame.symm
  obtain ⟨o, hd⟩ := step_delivery hstep hne
  rw [hafter] at hd
  rcases Delivery.step_answered hd with hrow | ⟨hundoes, -⟩
  · exact hrow
  · have hdel : t.post.inDeletion := (hreach.undoing p hundoes).step hstep
    obtain ⟨r, hr, hdeletion⟩ := hdel
    exact ⟨r, hr, admission_ne_none_of_deletion hdeletion⟩

/-- An answer over a row that had recorded the commit closes it. -/
theorem Answers.closed {t : Transition State Action} {event : CiWebhookIn}
    (hreach : Reached cfg freshShas tr t.pre) (hstep : step cfg t.pre t.act = some t.post)
    (h : Answers event t) (hr : t.pre.record = some r) (hrecorded : Recorded r event.commitSha) :
    Closed event.commitSha t.post := by
  obtain ⟨r', hr', hrefused⟩ := h.refused hreach hstep
  obtain ⟨r₁, hr₁, hrow⟩ := (step_move hstep).2.2.row hr
  obtain rfl := Option.eq_some_unique hr' hr₁
  exact ⟨r', hr', hrow.recorded hrecorded, hrefused⟩

/-- A delivery takes no commit up for which the row does not wait. -/
theorem DeliveryMove.pursues {sh sh' : Shared} {d d' : Delivery} {o : DeliveryOp}
    (h : DeliveryMove cfg now sh d o sh' d')
    (hrefused : ∀ r, sh.record = some r → admission r.automation commitSha ≠ none)
    (hp : d'.pursues commitSha) : d.pursues commitSha := by
  cases h with
  | failureAdmitted _ r hr hadm =>
    rw [show _ = commitSha from hp] at hadm
    exact absurd hadm (hrefused r hr)
  | successAdmitted _ r hr hadm =>
    rw [show _ = commitSha from hp] at hadm
    exact absurd hadm (hrefused r hr)
  | failureRecorded => exact hp
  | cappAccepted => exact hp
  | cutOver => exact hp
  | _ => exact hp.elim

/-- So a delivery that comes after a closing answer is never applied. -/
theorem Closed.unpursued (hreach : Reached cfg freshShas tr s) (h : Closed commitSha s) {p : ℕ}
    (hp : ¬(s.deliveries p).pursues commitSha) {tr' : Trace State Action}
    (hrun : SystemRun cfg freshShas s tr' s') : ¬(s'.deliveries p).pursues commitSha := by
  obtain ⟨world, h₀⟩ := hreach
  refine Run.history (P := fun _ s' => ¬(s'.deliveries p).pursues commitSha) hrun hp ?_
  rintro tr₁ s₁ a s₂ hrun₁ hbefore - hstep hpursues
  obtain ⟨r, hr, -, hrefused⟩ := h.stays ⟨world, h₀⟩ hrun₁
  rcases (step_move hstep).2.2.delivery p with ⟨-, hsame⟩ | ⟨o, -, hd⟩
  · rw [hsame] at hpursues
    exact hbefore hpursues
  · apply hbefore
    refine hd.pursues ?_ hpursues
    intro r₁ hr₁
    obtain rfl := Option.eq_some_unique hr hr₁
    exact hrefused

end Final

section Retry

variable {cfg : Config} {s : State} {r : Record} {p : ℕ} {event : CiWebhookIn}
  {deployment : CappDeployment}

/-- A delivery of the event that meets no fault and no other call. -/
def redelivery (p : ℕ) (event : CiWebhookIn) (deployment : CappDeployment) : List Op :=
  match event.status with
  | .failed => [.deliver p (.receive event false), .deliver p (.recordFailure none)]
  | .success =>
    [.deliver p (.receive event false), .deliver p (.cappAccepts deployment), .deliver p (.recheck none)]

/-- A redelivery from here is answered `applied`. -/
def Applies (cfg : Config) (s : State) (p : ℕ) (event : CiWebhookIn) (deployment : CappDeployment) : Prop :=
  ∃ s', exec (step cfg) s (timedFrom s.clock (redelivery p event deployment)) = some s' ∧
    s'.deliveries p = .answered event .applied

/-- The state after one step of a delivery. -/
def State.delivered (s : State) (p : ℕ) (sh : Shared) (d : Delivery) : State :=
  { s.setShared sh with deliveries := Function.update s.deliveries p d, clock := s.clock+1 }

theorem timedFrom_cons (n : ℕ) (op : Op) (ops : List Op) :
    timedFrom n (op :: ops) = ⟨n+1, op⟩ :: timedFrom (n+1) ops := by
  have hlater : (fun i o => ⟨n+(i+1)+1, o⟩ : ℕ → Op → Action) = fun i o => ⟨n+1+i+1, o⟩ := by
    funext i o
    rw [Nat.add_right_comm n 1 i, Nat.add_assoc n i 1]
  simp only [timedFrom, List.mapIdx_cons, Nat.add_zero, hlater]

theorem exec_deliver (o : DeliveryOp) (ops : List Op) :
    exec (step cfg) s (timedFrom s.clock (.deliver p o :: ops)) =
      ((s.deliveries p).step cfg (s.clock+1) s.toShared o).bind fun next =>
        exec (step cfg) (s.delivered p next.1 next.2)
          (timedFrom (s.delivered p next.1 next.2).clock ops) := by
  rw [timedFrom_cons, exec, step, if_pos (Nat.lt_succ_self s.clock)]
  cases h : (s.deliveries p).step cfg (s.clock+1) s.toShared o with
  | none => simp only [apply, h, Option.map_none, Option.bind_none]
  | some next =>
    simp only [apply, h, Option.map_some, Option.bind_some]
    rfl

@[simp] theorem State.delivered_deliveries (sh : Shared) (d : Delivery) :
    (s.delivered p sh d).deliveries p = d := Function.update_self ..

@[simp] theorem State.delivered_toShared (sh : Shared) (d : Delivery) :
    (s.delivered p sh d).toShared = sh := rfl

/-- A success that was admitted and let through undisturbed is not stopped at its
re-check. -/
theorem recheck_none_of_admission {commitSha : String} (hadm : admission r.automation commitSha = none) :
    recheck r commitSha = none := by
  obtain ⟨hlive, hbuild, hsha⟩ := admission_none hadm
  exact recheck_none_of hlive (Or.inl ⟨hbuild, hsha⟩)

/-- A redelivery is answered `applied` exactly while the row waits for its commit,
an image that is not the automation's own apart. -/
theorem applies_iff (hr : s.record = some r) (hidle : s.deliveries p = .idle)
    (hid : event.automationId = cfg.automationId) :
    Applies cfg s p event deployment ↔ admission r.automation event.commitSha = none ∧
      (event.status = .success → requireOwnImage cfg.automationImageRepository event = .ok ()) := by
  have hours : ¬event.automationId ≠ cfg.automationId := not_not.mpr hid
  have hreceive (ops : List Op) :
      exec (step cfg) s (timedFrom s.clock (.deliver p (.receive event false) :: ops)) =
        exec (step cfg) (s.delivered p s.toShared (admitDelivery cfg event s.record))
          (timedFrom (s.clock+1) ops) := by
    rw [exec_deliver, hidle]
    simp only [Delivery.step, if_neg hours, Bool.false_eq_true, if_false, Option.bind_some]
    rfl
  -- an answer at once, a refusal of the image: the delivery is over
  have hended {d : Delivery} {o : DeliveryOp} {ops : List Op} (hd : d.inFlight = false)
      (hne : d ≠ .idle) :
      exec (step cfg) (s.delivered p s.toShared d) (timedFrom (s.clock+1) (.deliver p o :: ops)) =
        none := by
    rw [show s.clock+1 = (s.delivered p s.toShared d).clock from rfl, exec_deliver,
      State.delivered_deliveries]
    cases d <;> simp_all [Delivery.inFlight, Delivery.step]
  unfold Applies redelivery
  cases hstatus : event.status with
  | failed =>
    simp only [hreceive, hr, admitDelivery, hstatus, if_true]
    cases hadm : admission r.automation event.commitSha with
    | some reason =>
      rw [hended rfl (by simp)]
      simp
    | none =>
      rw [show s.clock+1 = (s.delivered p s.toShared (.recordingFailure event)).clock from rfl,
        exec_deliver, State.delivered_deliveries]
      simp [Delivery.step, recordFailure, hr, hadm, timedFrom, exec]
  | success =>
    have hne : ¬event.status = .failed := by simp [hstatus]
    simp only [hreceive, hr, admitDelivery, if_neg hne]
    cases hadm : admission r.automation event.commitSha with
    | some reason =>
      rw [hended rfl (by simp)]
      simp
    | none =>
      cases hown : requireOwnImage cfg.automationImageRepository event with
      | error e =>
        rw [hended rfl (by simp)]
        simp
      | ok =>
        rw [show s.clock+1 = (s.delivered p s.toShared (.callingCapp event r.automation.target)).clock from rfl,
          exec_deliver, State.delivered_deliveries]
        simp only [Delivery.step, Option.bind_some, exec_deliver, State.delivered_deliveries]
        simp [commitCutover, hr, recheck_none_of_admission hadm, timedFrom, exec]

end Retry

section Signal

variable {cfg : Config} {tr : Trace State Action} {s : State}

/-- What CI may make of an answer. A call that ends in an error has written nothing
in any of its steps; a redelivery is applied exactly while the row waits for its
commit; and once any webhook of a recorded commit has been answered 200, none of
that commit that is received later is ever applied. -/
theorem webhook_answers_final (h : Reached cfg freshShas tr s) :
    (∀ p event error, s.deliveries p = .raised event error → ∀ t ∈ tr, OwnStep p t → Untouched t) ∧
    (∀ r p event deployment, s.record = some r → s.deliveries p = .idle →
      event.automationId = cfg.automationId →
      (Applies cfg s p event deployment ↔ admission r.automation event.commitSha = none ∧
        (event.status = .success → requireOwnImage cfg.automationImageRepository event = .ok ()))) ∧
    ∀ newer t older, tr = newer ++ t :: older → ∀ r event, t.pre.record = some r →
      Recorded r event.commitSha → Answers event t →
        ∀ p later, t.post.deliveries p = .idle → later.commitSha = event.commitSha →
          s.deliveries p ≠ .answered later .applied := by
  refine ⟨?_, fun r p event deployment hr hidle hid => applies_iff hr hidle hid, ?_⟩
  · intro p event error hp
    apply (h.account p).untouched
    intro event' hanswered
    rw [hp] at hanswered
    simp at hanswered
  · rintro newer t older rfl r event hr hrecorded hanswers p later hidle hcommit happlied
    obtain ⟨world, hrun⟩ := h
    have ht : t ∈ newer ++ t :: older := List.mem_append_right _ List.mem_cons_self
    obtain ⟨hbefore, hafter⟩ := hrun.split
    have hstep : step cfg t.pre t.act = some t.post := (hrun.transition ht).2.1
    have hfresh : freshShas t.pre t.act := (hrun.transition ht).1
    have hreach : Reached cfg freshShas older t.pre := ⟨world, hbefore⟩
    have hpost : Reached cfg freshShas (⟨t.pre, t.act, t.post⟩ :: older) t.post :=
      ⟨world, .snoc hbefore hfresh hstep⟩
    have hclosed : Closed event.commitSha t.post := hanswers.closed hreach hstep hr hrecorded
    have hnot : ¬(t.post.deliveries p).pursues event.commitSha := by
      rw [hidle]
      exact not_false
    apply hclosed.unpursued hpost hnot hafter
    rw [happlied]
    exact hcommit

theorem Delivery.eq_answered {d : Delivery} {event : CiWebhookIn} {out : CiWebhookOut}
    (h : d.answer? = some (event, out)) : d = .answered event out := by
  cases d with
  | answered event' out' =>
    obtain ⟨rfl, rfl⟩ := Prod.mk.inj (Option.some.inj h)
    rfl
  | _ => simp [Delivery.answer?] at h

/-- Delivery `p` is answered in this transition. -/
def Delivered (p : ℕ) (event : CiWebhookIn) (out : CiWebhookOut) (t : Transition State Action) : Prop :=
  (t.pre.deliveries p).answer? = none ∧ (t.post.deliveries p).answer? = some (event, out)

instance (p : ℕ) (event : CiWebhookIn) (out : CiWebhookOut) (t : Transition State Action) :
    Decidable (Delivered p event out t) := inferInstanceAs (Decidable (_ ∧ _))

theorem Delivered.answers {p : ℕ} {event : CiWebhookIn} {out : CiWebhookOut}
    {t : Transition State Action} (h : Delivered p event out t) : Answers event t := by
  refine ⟨p, out, ?_, Delivery.eq_answered h.2⟩
  intro hbefore
  have hnone := h.1
  rw [hbefore] at hnone
  simp [Delivery.answer?] at hnone

/-- A success whose CAPP call fails is redelivered, and a failure of the same commit
comes after it. -/
def redeliveredOps : List Op :=
  [.deliver 2 (.receive firstSuccess false), .deliver 2 .cappRaises,
   .deliver 0 (.receive firstSuccess false), .deliver 0 (.cappAccepts sampleDeployment),
   .deliver 0 (.recheck none), .deliver 1 (.receive firstFailure false)]

theorem webhook_answers_final_sample : ∃ tr s, Reached sampleConfig freshShas tr s ∧
    s.deliveries 2 = .raised firstSuccess .cappUnavailableError ∧ (∀ t ∈ tr, OwnStep 2 t → Untouched t) ∧
    ∃ t ∈ tr, Answers firstSuccess t ∧ t.post.deliveries 1 = .idle ∧ s.deliveries 1 ≠ .idle ∧
      s.deliveries 1 ≠ .answered firstFailure .applied := by
  obtain ⟨s₁, tr, s, hrun₁, hrun, hraised, hlater, t, ht, hdelivered, hidle, r, hr, hrecorded⟩ :=
    runs_of_runSample freshShas freshShas (buildOps.take 1) redeliveredOps
      (fun _ tr s => s.deliveries 2 = .raised firstSuccess .cappUnavailableError ∧ s.deliveries 1 ≠ .idle ∧
        ∃ t ∈ tr, Delivered 0 firstSuccess .applied t ∧ t.post.deliveries 1 = .idle ∧
          ∃ r ∈ t.pre.record, Recorded r firstSuccess.commitSha)
      (by decide +kernel) (by decide +kernel)
  have hreach : Reached sampleConfig freshShas _ s := ⟨sampleWorld, hrun₁.append hrun⟩
  obtain ⟨hwrites, -, hfinal⟩ := webhook_answers_final hreach
  have hmem := List.mem_append_left (sampleTrace (buildOps.take 1)) ht
  obtain ⟨newer, older, hsplit⟩ := List.append_of_mem hmem
  exact ⟨_, s, hreach, hraised, hwrites 2 firstSuccess _ hraised, t, hmem, hdelivered.answers, hidle, hlater,
    hfinal newer t older hsplit r firstSuccess hr hrecorded hdelivered.answers 1 firstFailure hidle rfl⟩

/-- The webhook of an edit's commit arrives before the edit has recorded it. -/
def earlyWebhookOps : List Op :=
  [.edit 0 (.claim "t1" samplePayload "author" 199 none), .edit 0 (.commit secondSha),
    .deliver 2 (.receive secondSuccess false), .edit 0 (.finish none)]

/-- The commit has to be recorded: a webhook that overtakes its edit is answered
`ignored`, and the row waits for it afterwards. -/
theorem early_answer_not_final : ∃ tr s p, Reached sampleConfig freshShas tr s ∧
    (∃ t ∈ tr, Answers secondSuccess t) ∧ s.deliveries p = .idle ∧
      Applies sampleConfig s p secondSuccess sampleDeployment := by
  obtain ⟨s₁, tr, s, hrun₁, hrun, ⟨t, ht, hdelivered⟩, r, hr, hadm⟩ :=
    runs_of_runSample freshShas freshShas buildOps earlyWebhookOps
      (fun _ tr s => (∃ t ∈ tr, Delivered 2 secondSuccess (.ignored .shaMismatch) t) ∧
        ∃ r ∈ s.record, admission r.automation secondSuccess.commitSha = none)
      (by decide +kernel) (by decide +kernel)
  have hreach : Reached sampleConfig freshShas _ s := ⟨sampleWorld, hrun₁.append hrun⟩
  obtain ⟨p, hunused⟩ := hreach.unused
  have hidle : s.deliveries p = .idle := (hunused p le_rfl).1
  have hown : requireOwnImage sampleConfig.automationImageRepository secondSuccess = .ok () := by
    decide +kernel
  exact ⟨_, s, p, hreach, ⟨t, List.mem_append_left _ ht, hdelivered.answers⟩, hidle,
    (applies_iff hr hidle rfl).mpr ⟨hadm, fun _ => hown⟩⟩

end Signal

end KeepAutomation
