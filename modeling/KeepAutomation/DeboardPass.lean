import KeepAutomation.Fleet
import KeepAutomation.RunFinalization
import KeepAutomation.EditFailures

/-! What a deboard pass deletes and what it accounts for, among concurrent edits,
deliveries, toggles and deletes. Nobody but the pass takes a child off its list; an
edit can take a listed child off the wallet. -/
namespace KeepAutomation

open TransitionSystem

/-- The pass as its caller sees it: its arguments, the listed children it has not
come to, and the children it will report as not admitted. -/
def Pass.view : Pass → Option (Deboard × List UUID × List UUID)
  | .admitting job ids s => some (job, ids, s.skippedBuilding ++ s.failed)
  | .cascading job _ _ ids s => some (job, ids, s.skippedBuilding ++ s.failed)
  | .returned job s => some (job, [], s.skippedBuilding ++ s.failed)
  | _ => none

/-- An edit of a listed child the pass has not come to keeps it on the wallet. -/
def StaysOnWallet (f : Fleet) (a : FleetAction) : Prop :=
  ∀ x ∈ f.written a.op, ∀ v ∈ f.pass.view, x.1 ∈ v.2.1 → x.2.nameSpace = v.1.walletName

instance (f : Fleet) (a : FleetAction) : Decidable (StaysOnWallet f a) :=
  inferInstanceAs (Decidable (∀ x ∈ f.written a.op, ∀ v ∈ f.pass.view, x.1 ∈ v.2.1 →
    x.2.nameSpace = v.1.walletName))

/-- A step of the pass itself. Its cascades are runners of its children, and a
checkpoint moves no live row. -/
def FleetOp.ofPass : FleetOp → Bool
  | .automation _ _ => false
  | _ => true

/-- The arguments of the pass a step starts. -/
def FleetOp.listing? : FleetOp → Option Deboard
  | .list tenantId walletName actor false => some ⟨tenantId, walletName, actor⟩
  | _ => none

/-- The transition in which the pass moves an automation to deleting. -/
def PassDeletes (t : Transition Fleet FleetAction) (id : UUID) : Prop :=
  t.act.op.ofPass = true ∧ ∃ r ∈ t.pre.store.lookup id, r.automation.matchingState ∉ deletionStates ∧
    ∃ r' ∈ t.post.store.lookup id, r'.automation.matchingState = .deleting

instance (t : Transition Fleet FleetAction) (id : UUID) : Decidable (PassDeletes t id) :=
  inferInstanceAs (Decidable (t.act.op.ofPass = true ∧ ∃ r ∈ t.pre.store.lookup id,
    r.automation.matchingState ∉ deletionStates ∧
    ∃ r' ∈ t.post.store.lookup id, r'.automation.matchingState = .deleting))

/-- The summary a pass has returned. -/
def Pass.returned? : Pass → Option DeboardSummary
  | .returned _ s => some s
  | _ => none

def Fleet.InDeletion (f : Fleet) (id : UUID) : Prop :=
  ∃ r, f.store.lookup id = some r ∧ r.automation.matchingState ∈ deletionStates

theorem FleetOp.eq_list {op : FleetOp} {job : Deboard} (h : op.listing? = some job) :
    op = .list job.tenantId job.walletName job.actor false := by
  cases op with
  | list tenantId walletName actor readFails =>
    cases readFails with
    | true => simp [FleetOp.listing?] at h
    | false =>
      obtain rfl := Option.some.inj h
      rfl
  | _ => simp [FleetOp.listing?] at h

theorem Fleet.InDeletion.move {settings : Settings} {f f' : Fleet} {now : Timestamp} {op : FleetOp} {id : UUID}
    (hdel : f.InDeletion id) (h : FleetMove settings f now op f') : f'.InDeletion id := by
  obtain ⟨r, hr, hstate⟩ := hdel
  obtain ⟨r', _, hr', hmove, -⟩ := h.row hr
  exact ⟨r', hr', hmove.stays_in_deletion hstate⟩

/-- What a step does to the pass: it starts on its selection, it goes on as it
was, or it takes one child off the list, admitted or to be reported. -/
theorem FleetMove.view {settings : Settings} {f f' : Fleet} {now : Timestamp} {op : FleetOp}
    (h : FleetMove settings f now op f') {job : Deboard} {ids reported : List UUID}
    (hview : f'.pass.view = some (job, ids, reported)) :
    (f.pass = .idle ∧ op = .list job.tenantId job.walletName job.actor false ∧
      ids = f.children job.tenantId job.walletName ∧ f'.store = f.store) ∨
    f.pass.view = some (job, ids, reported) ∨
    ∃ id before, f.pass.view = some (job, id :: ids, before) ∧ before ⊆ reported ∧
      (id ∈ reported ∨ f'.InDeletion id) := by
  cases h with
  | moved => exact Or.inr (Or.inl hview)
  | @listed tenantId walletName actor hpass =>
    obtain ⟨rfl, rfl, rfl⟩ : (⟨tenantId, walletName, actor⟩ : Deboard) = job ∧
        f.children tenantId walletName = ids ∧ [] = reported := by simpa [Pass.view] using hview
    exact Or.inl ⟨hpass, rfl, rfl, rfl⟩
  | notListed => simp [Pass.view] at hview
  | @refused fault p job₁ id ids₁ s hpass outcome hout =>
    obtain ⟨rfl, rfl, rfl⟩ : job₁ = job ∧ ids₁ = ids ∧
        (s.add id outcome).skippedBuilding ++ (s.add id outcome).failed = reported := by
      simpa [Pass.view] using hview
    -- refused: the child goes from the list to the report
    refine Or.inr (Or.inr ⟨id, s.skippedBuilding ++ s.failed, by rw [hpass, Pass.view], ?_, Or.inl ?_⟩)
    · rcases hout with rfl | rfl
      · intro x hx
        simp only [DeboardSummary.add, List.mem_append, List.mem_singleton] at hx ⊢
        exact hx.imp_left Or.inl
      · intro x hx
        simp only [DeboardSummary.add, List.mem_append, List.mem_singleton] at hx ⊢
        exact hx.imp_right Or.inl
    · rcases hout with rfl | rfl <;> simp [DeboardSummary.add]
  | @resumed fault p job₁ id ids₁ s hpass r hr hdel =>
    obtain ⟨rfl, rfl, rfl⟩ : job₁ = job ∧ ids₁ = ids ∧ s.skippedBuilding ++ s.failed = reported := by
      simpa [Pass.view] using hview
    -- admitted by somebody before: the child leaves the list in deletion
    exact Or.inr (Or.inr ⟨id, _, by rw [hpass, Pass.view], List.Subset.refl _, Or.inr ⟨r, hr, hdel⟩⟩)
  | @began fault p job₁ id ids₁ s hpass r hr htenant hlive hbuild next hnext =>
    have hin : Fleet.InDeletion { f with
        store := f.store.put (r.markDeleting job₁.actor now), pass := next, clock := now } id :=
      ⟨_, lookup_markDeleting hr _ _, by simp [Record.markDeleting, Record.transition]⟩
    right
    right
    -- admitted now, and reported all the same when the refresh raises
    rcases hnext with rfl | rfl
    · obtain ⟨rfl, rfl, rfl⟩ : job₁ = job ∧ ids₁ = ids ∧ s.skippedBuilding ++ s.failed = reported := by
        simpa [Pass.view] using hview
      exact ⟨id, _, by rw [hpass, Pass.view], List.Subset.refl _, Or.inr hin⟩
    · obtain ⟨rfl, rfl, rfl⟩ : job₁ = job ∧ ids₁ = ids ∧
          s.skippedBuilding ++ (s.failed ++ [id]) = reported := by
        simpa [Pass.view, DeboardSummary.add] using hview
      refine ⟨id, s.skippedBuilding ++ s.failed, by rw [hpass, Pass.view], ?_, Or.inr hin⟩
      rw [← List.append_assoc]
      exact List.subset_append_left _ _
  | @collected job₁ id p ids₁ s hpass outcome hout =>
    right
    left
    rw [hpass, Pass.view, ← hview, Pass.view]
    rcases hout with rfl | rfl <;> rfl
  | @finished job₁ s hpass =>
    right
    left
    rw [hpass, Pass.view, ← hview, Pass.view]
  | crashed => simp [Pass.view] at hview

/-- A pass starts once. -/
theorem FleetReached.listed_once {settings : Settings} {tr : FleetTrace} {f : Fleet}
    (h : FleetReached settings tr f) :
    ∀ u ∈ tr, ∀ tenantId walletName actor, u.act.op = .list tenantId walletName actor false →
      f.pass ≠ .idle ∧ ∀ job ids reported, f.pass.view = some (job, ids, reported) →
        job = ⟨tenantId, walletName, actor⟩ := by
  refine h.history (P := fun tr f => ∀ u ∈ tr, ∀ tenantId walletName actor,
    u.act.op = .list tenantId walletName actor false → f.pass ≠ .idle ∧
      ∀ job ids reported, f.pass.view = some (job, ids, reported) → job = ⟨tenantId, walletName, actor⟩)
    (fun _ u hu => by simp at hu) ?_
  intro tr f now op f' _ hold hm u hu tenantId walletName actor hop
  rcases List.mem_cons.mp hu with rfl | hu
  · dsimp only at hop
    subst hop
    cases hm with
    | listed hpass =>
      refine ⟨by simp, ?_⟩
      intro job ids reported hview
      obtain ⟨rfl, -⟩ := Prod.mk.inj (Option.some.inj hview)
      rfl
    | crashed hop => simp at hop
  · obtain ⟨hstarted, hjob⟩ := hold u hu tenantId walletName actor hop
    refine ⟨?_, ?_⟩
    · cases hm with
      | moved => exact hstarted
      | began _ _ _ _ _ _ next hnext => rcases hnext with rfl | rfl <;> simp
      | _ => simp
    · intro job ids reported hview
      rcases hm.view hview with ⟨hidle, -⟩ | hsame | ⟨id, before, hbefore, -⟩
      · exact absurd hidle hstarted
      · exact hjob job ids reported hsame
      · exact hjob job (id :: ids) before hbefore

/-- Every automation the pass has selected is still to come, is reported as not
admitted, or is in deletion. -/
theorem FleetReached.accounted {settings : Settings} {tr : FleetTrace} {f : Fleet}
    (h : FleetReached settings tr f) :
    ∀ u ∈ tr, ∀ tenantId walletName actor, u.act.op = .list tenantId walletName actor false →
      ∀ job ids reported, f.pass.view = some (job, ids, reported) →
        ∀ id, Selected u.pre.toDatabase tenantId walletName id →
          id ∈ ids ∨ id ∈ reported ∨ f.InDeletion id := by
  refine h.history (P := fun tr f => ∀ u ∈ tr, ∀ tenantId walletName actor,
    u.act.op = .list tenantId walletName actor false →
      ∀ job ids reported, f.pass.view = some (job, ids, reported) →
        ∀ id, Selected u.pre.toDatabase tenantId walletName id →
          id ∈ ids ∨ id ∈ reported ∨ f.InDeletion id) (fun _ u hu => by simp at hu) ?_
  intro tr f now op f' hreach hold hm u hu tenantId walletName actor hop job ids reported hview id hid
  rcases List.mem_cons.mp hu with rfl | hu
  · dsimp only at hop
    subst hop
    cases hm with
    | listed hpass =>
      obtain ⟨-, hrest⟩ := Prod.mk.inj (Option.some.inj hview)
      obtain ⟨rfl, -⟩ := Prod.mk.inj hrest
      exact Or.inl (mem_children.mpr hid)
    | crashed hop => simp at hop
  -- the pass goes on: whatever was accounted for stays so, and the child that
  -- leaves the list is reported or in deletion
  · have earlier {ids' reported'} (hview' : f.pass.view = some (job, ids', reported')) :=
      hold u hu tenantId walletName actor hop job ids' reported' hview' id hid
    rcases hm.view hview with ⟨hidle, -⟩ | hsame | ⟨q, before, hbefore, hsub, hq⟩
    · exact absurd hidle (hreach.listed_once u hu tenantId walletName actor hop).1
    · exact (earlier hsame).imp_right (Or.imp_right fun hdel => hdel.move hm)
    · rcases earlier hbefore with hwaiting | hreported | hdel
      · rcases List.mem_cons.mp hwaiting with rfl | hwaiting
        · exact Or.inr hq
        · exact Or.inl hwaiting
      · exact Or.inr (Or.inl (hsub hreported))
      · exact Or.inr (Or.inr (hdel.move hm))

/-- A child the pass has not come to is of its tenant, and on its wallet unless an
edit took it off. -/
theorem FleetReached.waiting {settings : Settings} {tr : FleetTrace} {f : Fleet}
    (h : FleetReached settings tr f) :
    ∀ job ids reported, f.pass.view = some (job, ids, reported) → ∀ id ∈ ids,
      ∃ r, f.store.lookup id = some r ∧ r.automation.tenantId = job.tenantId ∧
        ((∀ t ∈ tr, StaysOnWallet t.pre t.act) → r.automation.nameSpace = job.walletName) := by
  refine h.history (P := fun tr f => ∀ job ids reported, f.pass.view = some (job, ids, reported) →
    ∀ id ∈ ids, ∃ r, f.store.lookup id = some r ∧ r.automation.tenantId = job.tenantId ∧
      ((∀ t ∈ tr, StaysOnWallet t.pre t.act) → r.automation.nameSpace = job.walletName))
    (fun _ _ _ _ hview => by simp [emptyFleet, Pass.view] at hview) ?_
  intro tr f now op f' _ hold hm job ids reported hview id hid
  have carry {ids' reported'} (hview' : f.pass.view = some (job, ids', reported')) (hid' : id ∈ ids') :
      ∃ r, f'.store.lookup id = some r ∧ r.automation.tenantId = job.tenantId ∧
        ((∀ t ∈ ⟨f, ⟨now, op⟩, f'⟩ :: tr, StaysOnWallet t.pre t.act) →
          r.automation.nameSpace = job.walletName) := by
    obtain ⟨r, hr, htenant, hwallet⟩ := hold job ids' reported' hview' id hid'
    obtain ⟨r', _, hr', hrow, -⟩ := hm.row hr
    refine ⟨r', hr', hrow.tenantId.trans htenant, ?_⟩
    intro hstays
    rcases hm.placed hr' with ⟨data, hwritten, hplaced, -⟩ | ⟨r₁, hr₁, hplaced, -⟩
    · rw [hplaced]
      exact hstays _ List.mem_cons_self (id, data) hwritten (job, ids', reported') hview' hid'
    -- no payload written, so the wallet is what it was
    · obtain rfl := Option.eq_some_unique hr₁ hr
      rw [hplaced]
      exact hwallet fun t ht => hstays t (List.mem_cons_of_mem _ ht)
  rcases hm.view hview with ⟨-, -, rfl, hstore⟩ | hsame | ⟨q, before, hbefore, -, -⟩
  · obtain ⟨r, hr, htenant, hwallet, -⟩ := mem_children.mp hid
    exact ⟨r, hstore ▸ hr, htenant, fun _ => hwallet⟩
  · exact carry hsame hid
  · exact carry hbefore (List.mem_cons_of_mem _ hid)

/-- A pass that has not started was idle all along. -/
theorem FleetReached.idle_before {settings : Settings} {tr : FleetTrace} {f : Fleet}
    (h : FleetReached settings tr f) : f.pass = .idle → ∀ t ∈ tr, t.pre.pass = .idle := by
  refine h.history (P := fun tr f => f.pass = .idle → ∀ t ∈ tr, t.pre.pass = .idle)
    (fun _ _ t ht => by simp at ht) ?_
  intro tr f now op f' _ hold hm hidle t ht
  have hbefore : f.pass = .idle := by
    cases hm with
    | moved => exact hidle
    | began _ _ _ _ _ _ next hnext => rcases hnext with rfl | rfl <;> simp at hidle
    | _ => simp at hidle
  rcases List.mem_cons.mp ht with rfl | ht
  · exact hbefore
  · exact hold hbefore t ht

/-- The arguments of a running pass are those it was started with, at whatever
point of the run the start stands. -/
theorem FleetReached.job_eq {settings : Settings} {later earlier : FleetTrace} {f : Fleet}
    {t u : Transition Fleet FleetAction} (h : FleetReached settings (later ++ t :: earlier) f)
    (hu : u ∈ later ++ t :: earlier) {tenantId walletName actor : String}
    (hlist : u.act.op = .list tenantId walletName actor false) {job : Deboard}
    {ids reported : List UUID} (hview : t.pre.pass.view = some (job, ids, reported)) :
    job = ⟨tenantId, walletName, actor⟩ := by
  have notIdle : t.pre.pass ≠ .idle := by
    intro hidle
    simp [hidle, Pass.view] at hview
  have starts {pre post : Fleet} {now : Timestamp}
      (hm : FleetMove settings pre now (.list tenantId walletName actor false) post) : pre.pass = .idle := by
    cases hm with
    | listed hpass => exact hpass
    | crashed hop => simp at hop
  rcases List.mem_append.mp hu with hlater | hrest
  · -- a later start would find a pass that is still idle
    obtain ⟨l₁, l₂, rfl⟩ := List.append_of_mem hlater
    rw [List.append_assoc, List.cons_append] at h
    obtain ⟨hreach, hm⟩ := h.cut
    rw [hlist] at hm
    exact absurd (hreach.idle_before (starts hm) t (List.mem_append_right _ List.mem_cons_self)) notIdle
  · rcases List.mem_cons.mp hrest with rfl | hearlier
    · obtain ⟨-, hm⟩ := h.cut
      rw [hlist] at hm
      exact absurd (starts hm) notIdle
    · exact (h.cut.1.listed_once u hearlier tenantId walletName actor hlist).2 job ids reported hview

/-- A deboard pass over a tenant's wallet only deletes automations that are on it,
in every run in which no edit takes a listed child off the wallet before the pass
has come to it; and in every run it accounts for each automation it has selected. -/
theorem deboard_stays_on_wallet {settings : Settings} {tr : FleetTrace} {f : Fleet}
    (h : FleetReached settings tr f) {u : Transition Fleet FleetAction} (hu : u ∈ tr) {job : Deboard}
    (hlist : u.act.op.listing? = some job) :
    ((∀ t ∈ tr, StaysOnWallet t.pre t.act) → ∀ t ∈ tr, ∀ id, PassDeletes t id →
      ∃ r, t.pre.store.lookup id = some r ∧ r.automation.tenantId = job.tenantId ∧
        r.automation.nameSpace = job.walletName) ∧
    ∀ s, f.pass.returned? = some s → ∀ id, Selected u.pre.toDatabase job.tenantId job.walletName id →
      f.InDeletion id ∨ id ∈ s.skippedBuilding ∨ id ∈ s.failed := by
  have hop := FleetOp.eq_list hlist
  constructor
  · intro hstays t ht id hdeletes
    obtain ⟨later, earlier, rfl⟩ := List.append_of_mem ht
    obtain ⟨hreach, hm⟩ := h.cut
    obtain ⟨hpass, r, hr, hlive, r', hr', hdeleting⟩ := hdeletes
    generalize t.act.op = op at hm hpass
    cases hm.part id with
    | own => simp [FleetOp.ofPass] at hpass
    | @admitted fault p job₁ ids s hadmitting =>
      have hview : t.pre.pass.view = some (job₁, id :: ids, s.skippedBuilding ++ s.failed) := by
        rw [hadmitting, Pass.view]
      obtain ⟨r₁, hr₁, htenant, hwallet⟩ := hreach.waiting _ _ _ hview id List.mem_cons_self
      obtain rfl := h.job_eq hu hop hview
      refine ⟨r₁, hr₁, htenant, hwallet fun t' ht' => ?_⟩
      exact hstays t' (List.mem_append_right _ (List.mem_cons_of_mem _ ht'))
    | other _ hrow =>
      -- the row is as it was, and so still live
      obtain rfl := Option.some.inj ((hr'.symm.trans hrow).trans hr)
      simp [hdeleting] at hlive
  · intro s hreturned id hid
    have hview : ∃ job₁, f.pass.view = some (job₁, [], s.skippedBuilding ++ s.failed) := by
      generalize f.pass = pass at hreturned
      cases pass with
      | returned job₁ s₁ =>
        obtain rfl := Option.some.inj hreturned
        exact ⟨job₁, rfl⟩
      | _ => simp [Pass.returned?] at hreturned
    obtain ⟨job₁, hview⟩ := hview
    rcases h.accounted u hu _ _ _ hop job₁ _ _ hview id hid with hwaiting | hreported | hdel
    · simp at hwaiting
    · exact Or.inr (List.mem_append.mp hreported)
    · exact Or.inl hdel

def secondFailure : CiWebhookIn := failedEvent secondSha secondSuccess.commitSha_isGitObjectId

/-- An automation that was never deployed, listed by a pass over its wallet. -/
def listedOps : List FleetOp :=
  [.automation sampleId (.create "t1" samplePayload "author" firstSha 99),
   .automation sampleId (.deliver 0 (.receive firstFailure false)),
   .automation sampleId (.deliver 0 (.recordFailure none)),
   .list "t1" "payments" "operator" false]

/-- An edit of it and the build of the edit, which fails. -/
def editedTo (data : AutomationIn) : List FleetOp :=
  [.automation sampleId (.edit 0 (.claim "t1" data "author" 199 none)),
   .automation sampleId (.edit 0 (.commit secondSha)), .automation sampleId (.edit 0 (.finish none)),
   .automation sampleId (.deliver 1 (.receive secondFailure false)),
   .automation sampleId (.deliver 1 (.recordFailure none))]

/-- The rest of the pass; the cascade stops at CAPP. -/
def passOps : List FleetOp :=
  [.beginDelete none 0, .automation sampleId (.run 0 (.snapshot false)),
   .automation sampleId (.run 0 (.call .failed)), .collect, .finish]

def stayingOps : List FleetOp := listedOps ++ editedTo samplePayload ++ passOps

def leavingOps : List FleetOp :=
  listedOps ++ editedTo { samplePayload with nameSpace := "billing" } ++ passOps

/-- An edit that stays on the wallet, and the pass to its return. -/
theorem deboard_stays_on_wallet_sample :
    ∃ f, FleetReached sampleSettings (fleetTrace stayingOps) f ∧
      ∃ u ∈ fleetTrace stayingOps, (∃ t ∈ fleetTrace stayingOps, PassDeletes t sampleId) ∧
        (∀ t ∈ fleetTrace stayingOps, ∀ id, PassDeletes t id → ∃ r, t.pre.store.lookup id = some r ∧
          r.automation.tenantId = "t1" ∧ r.automation.nameSpace = "payments") ∧
        ∀ id, Selected u.pre.toDatabase "t1" "payments" id → f.InDeletion id := by
  obtain ⟨f, hreach, hreturned⟩ := fleet_of_runFleet stayingOps
    (fun f => f.pass.returned? = some ⟨[], [sampleId], [], []⟩) (by decide +kernel)
  have hlisted : ∃ u ∈ fleetTrace stayingOps,
      u.act.op.listing? = some ⟨"t1", "payments", "operator"⟩ := by decide +kernel
  have hstays : ∀ t ∈ fleetTrace stayingOps, StaysOnWallet t.pre t.act := by decide +kernel
  have hdeletes : ∃ t ∈ fleetTrace stayingOps, PassDeletes t sampleId := by decide +kernel
  obtain ⟨u, hu, hlist⟩ := hlisted
  obtain ⟨hwallet, haccounted⟩ := deboard_stays_on_wallet hreach hu hlist
  refine ⟨f, hreach, u, hu, hdeletes, hwallet hstays, fun id hid => ?_⟩
  exact (haccounted _ hreturned id hid).resolve_right (by simp)

/-- An edit moves a listed automation to another wallet, where the pass deletes it. -/
theorem deboard_deletes_off_wallet :
    (∃ f, FleetReached sampleSettings (fleetTrace leavingOps) f) ∧
      (∃ u ∈ fleetTrace leavingOps, u.act.op.listing? = some ⟨"t1", "payments", "operator"⟩) ∧
      ∃ t ∈ fleetTrace leavingOps, PassDeletes t sampleId ∧
        ∃ r ∈ t.pre.store.lookup sampleId, r.automation.nameSpace = "billing" := by
  obtain ⟨f, hreach, -⟩ := fleet_of_runFleet leavingOps
    (fun f => f.pass.returned? = some ⟨[], [sampleId], [], []⟩) (by decide +kernel)
  exact ⟨⟨f, hreach⟩, by decide +kernel, by decide +kernel⟩

end KeepAutomation
