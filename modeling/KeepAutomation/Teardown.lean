import KeepAutomation.Wallet
import KeepAutomation.Runners

/-! No deployment outlives deletion: once a runner has deleted the resources in
CAPP, one that exists again belongs to a delivery that is going to undo it. -/
namespace KeepAutomation

open TransitionSystem

/-- After CAPP accepted the image: the re-check and the teardown. -/
def Delivery.afterAccept : Delivery → Bool
  | .rechecking _ _ _ | .deletingCapp _ _ _ | .deletingSecret _ _ => true
  | _ => false

/-- No finished edit changes the wallet. -/
def keepsNamespace (s : State) (a : Action) : Prop :=
  match a.op with
  | .edit p (.finish _) =>
    match s.edits p, s.record with
    | .finishing _ _ data _ _, some r => data.nameSpace = r.automation.nameSpace
    | _, _ => True
  | _ => True

/-- The finish of this edit leaves the wallet as it is. -/
def Edit.keepsWallet (e : Edit) (record : Option Record) : Prop :=
  match e, record with
  | .finishing _ _ data _ _, some r => data.nameSpace = r.automation.nameSpace
  | _, _ => True

instance (e : Edit) (record : Option Record) : Decidable (e.keepsWallet record) := by
  cases e with
  | finishing claim tenantId data actor gitSha =>
    cases record with
    | some r => exact instDecidableEqString data.nameSpace r.automation.nameSpace
    | none => exact instDecidableTrue
  | _ => exact instDecidableTrue

def checkNamespace (s : State) : Op → Bool
  | .edit p (.finish _) => (s.edits p).keepsWallet s.record
  | _ => true

theorem checkNamespace_iff (s : State) (a : Action) :
    checkNamespace s a.op = true ↔ keepsNamespace s a := by
  obtain ⟨now, op⟩ := a
  cases op with
  | edit p o =>
    cases o with
    | finish fault => exact decide_eq_true_iff
    | _ => exact iff_of_true rfl trivial
  | _ => exact iff_of_true rfl trivial

instance (s : State) (a : Action) : Decidable (keepsNamespace s a) :=
  decidable_of_iff _ (checkNamespace_iff s a)

/-- A delivery that CAPP accepted neither crashes nor meets a DB error, and its
teardown calls succeed. -/
def finishesAfterAccept (s : State) (a : Action) : Prop :=
  match a.op with
  | .deliver p .crash => (s.deliveries p).afterAccept = false
  | .deliver _ (.recheck fault) => fault = none
  | .deliver _ (.tearDown outcome) => outcome = .ok
  | _ => True

def checkFinishes (s : State) : Op → Bool
  | .deliver p .crash => !(s.deliveries p).afterAccept
  | .deliver _ (.recheck fault) => fault.isNone
  | .deliver _ (.tearDown outcome) => outcome = .ok
  | _ => true

theorem checkFinishes_iff (s : State) (a : Action) :
    checkFinishes s a.op = true ↔ finishesAfterAccept s a := by
  obtain ⟨now, op⟩ := a
  cases op with
  | deliver p o =>
    cases o with
    | crash => exact Bool.not_eq_eq_eq_not
    | recheck fault => exact Option.isNone_iff_eq_none
    | tearDown outcome => exact decide_eq_true_iff
    | _ => exact iff_of_true rfl trivial
  | _ => exact iff_of_true rfl trivial

instance (s : State) (a : Action) : Decidable (finishesAfterAccept s a) :=
  decidable_of_iff _ (checkFinishes_iff s a)

def teardownContract (cfg : Config) (s : State) (a : Action) : Prop :=
  cappContract cfg s a ∧ keepsNamespace s a ∧ finishesAfterAccept s a

instance (cfg : Config) (s : State) (a : Action) : Decidable (teardownContract cfg s a) :=
  inferInstanceAs (Decidable (_ ∧ _ ∧ _))

/-- The wallet a delivery works in. -/
def Delivery.InWallet (wallet : String) : Delivery → Prop
  | .callingCapp _ target => target.wallet = wallet
  | .rechecking _ target _ => target.wallet = wallet
  | .deletingCapp _ w _ => w = wallet
  | .deletingSecret _ w => w = wallet
  | _ => True

theorem RowMove.nameSpace {s : State} {now : Timestamp} {r r' : Record} {op : Op}
    (hr : s.record = some r) (hE : keepsNamespace s ⟨now, op⟩) (h : RowMove s now r op r') :
    r'.automation.nameSpace = r.automation.nameSpace := by
  rcases h.target with ⟨-, htarget⟩ | ⟨p, _, _, data, _, _, rfl, hp, -, rfl⟩ | ⟨_, _, _, _, -, -, -, rfl⟩
  · exact congrArg BuildTarget.wallet htarget
  · have hsame : data.nameSpace = r.automation.nameSpace := by
      simpa only [keepsNamespace, hp, hr] using hE
    exact hsame
  · rfl

theorem DeliveryMove.inWallet {cfg : Config} {now : Timestamp} {sh sh' : Shared} {d d' : Delivery}
    {o : DeliveryOp} {r : Record} (hr : sh.record = some r)
    (hd : d.InWallet r.automation.nameSpace) (h : DeliveryMove cfg now sh d o sh' d') :
    d'.InWallet r.automation.nameSpace := by
  cases h with
  | successAdmitted _ r₁ h₁ =>
    obtain rfl := Option.eq_some_unique h₁ hr
    rfl
  | cappAccepted => exact hd
  | tearingDown => exact hd
  | cappTornDown => exact hd
  | _ => exact trivial

theorem Delivery.inWallet_of_not_inFlight {d : Delivery} (h : d.inFlight = false) (wallet : String) :
    d.InWallet wallet := by
  cases d <;> trivial

/-- Every delivery works in the wallet of the row. -/
theorem Reached.inWallet {cfg : Config} {E : State → Action → Prop} {tr : Trace State Action}
    {s : State} (hE : ∀ s a, E s a → keepsNamespace s a) (h : Reached cfg E tr s) {r : Record}
    (hr : s.record = some r) (p : ℕ) : (s.deliveries p).InWallet r.automation.nameSpace := by
  refine h.invariant (I := fun s => ∀ r, s.record = some r → ∀ p,
    (s.deliveries p).InWallet r.automation.nameSpace)
    (fun world r hr => by simp [initial] at hr) ?_ r hr p
  intro tr s now op s' hreach hs ha _ _ hm r' hr' p
  rcases hm.row_after hr' with ⟨hrec, _, _, _, _, _, rfl, rfl⟩ | ⟨r, hrec, hrow⟩
  · -- no delivery is in flight before the row exists
    have hidle : (s.deliveries p).inFlight = false := by
      by_contra hflight
      exact hreach.inFlight_row (by simpa using hflight) hrec
    rcases hm.delivery p with ⟨-, hsame⟩ | ⟨o, ho, -⟩
    · rw [hsame]
      exact Delivery.inWallet_of_not_inFlight hidle _
    · simp at ho
  · rw [hrow.nameSpace hrec (hE _ _ ha)]
    rcases hm.delivery p with ⟨-, hsame⟩ | ⟨o, -, hd⟩
    · rw [hsame]
      exact hs r hrec p
    · exact hd.inWallet hrec (hs r hrec p)

/-- The two things the cascade deletes in CAPP. -/
inductive CappResource where
  | capp | secret

namespace CappResource

def present (id : UUID) (wallet : String) (w : World) : CappResource → Prop
  | .capp => w.hasCapp wallet (pinnedName id)
  | .secret => w.hasSecret wallet (runAuthSecretName id)

/-- A runner that has deleted the resource and not saved the step yet. -/
def deletedBy : CappResource → Runner → Bool
  | .capp, .deletingSecret _ _ => true
  | _, .saving _ _ completed => completed = stepCappResourcesDeleted
  | _, _ => false

/-- A delivery that is going to delete the resource, should the row be in
deletion at its re-check. -/
def owedBy : CappResource → Delivery → Bool
  | _, .rechecking _ _ _ => true
  | _, .deletingCapp _ _ _ => true
  | .secret, .deletingSecret _ _ => true
  | _, _ => false

end CappResource

namespace World

theorem not_hasCapp_deleteCapp (w : World) (wallet name : String) :
    ¬(w.deleteCapp wallet name).hasCapp wallet name := by
  rintro ⟨c, hc, hwallet, hname⟩
  have hkept := (List.mem_filter.mp hc).2
  simp [hwallet, hname] at hkept

theorem not_hasSecret_deleteSecret (w : World) (wallet name : String) :
    ¬(w.deleteSecret wallet name).hasSecret wallet name := by
  intro h
  have hkept := (List.mem_filter.mp h).2
  simp at hkept

/-- A deletion makes nothing. -/
theorem present_deleteCapp {id : UUID} {wallet : String} {w : World} {k : CappResource}
    {wallet' name : String} (h : k.present id wallet (w.deleteCapp wallet' name)) :
    k.present id wallet w := by
  cases k with
  | capp =>
    obtain ⟨c, hc, hsame⟩ := h
    exact ⟨c, (List.mem_filter.mp hc).1, hsame⟩
  | secret => exact h

theorem present_deleteSecret {id : UUID} {wallet : String} {w : World} {k : CappResource}
    {wallet' name : String} (h : k.present id wallet (w.deleteSecret wallet' name)) :
    k.present id wallet w := by
  cases k with
  | capp => exact h
  | secret => exact (List.mem_filter.mp h).1

theorem present_archive {id id' : UUID} {wallet actor : String} {w : World} {k : CappResource}
    (h : k.present id wallet (w.archive id' actor)) : k.present id wallet w := by
  unfold World.archive at h
  split at h
  · exact h
  · cases k with
    | capp => exact h
    | secret => exact h

end World

/-- The deletion of the resource has been done: checkpoint 2 is committed, or a
runner stands between its deletion and that checkpoint. -/
def CappResource.Done (k : CappResource) (s : State) (a : Automation) : Prop :=
  stepCappResourcesDeleted ≤ a.stepNumber ∨ ∃ p, k.deletedBy (s.runners p) = true

/-- The invariant: what exists after its deletion is owed by a delivery. -/
def CappResource.Cleared (k : CappResource) (s : State) (a : Automation) : Prop :=
  k.Done s a → k.present a.id a.nameSpace s.world → ∃ p, k.owedBy (s.deliveries p) = true

theorem CappResource.task_of_deletedBy {k : CappResource} {pc : Runner}
    (h : k.deletedBy pc = true) : ∃ a m, pc.task = some (a, m) := by
  cases pc with
  | deletingSecret a n => exact ⟨a, _, rfl⟩
  | saving a n completed => exact ⟨a, _, rfl⟩
  | _ => cases k <;> simp [CappResource.deletedBy] at h

/-- Once done, the row is in deletion. -/
theorem CappResource.Done.inDeletion {cfg : Config} {E : State → Action → Prop}
    {tr : Trace State Action} {s : State} (h : Reached cfg E tr s) {k : CappResource} {r : Record}
    (hr : s.record = some r) (hd : k.Done s r.automation) :
    r.automation.matchingState ∈ deletionStates := by
  rcases hd with hstep | ⟨p, hp⟩
  · by_contra hlive
    have hnull := stepMatches_live (h.fenced.coherent r hr).step hlive
    rw [Automation.stepNumber, hnull, Option.getD_none] at hstep
    simp [stepCappResourcesDeleted] at hstep
  · obtain ⟨a, m, htask⟩ := CappResource.task_of_deletedBy hp
    obtain ⟨r₁, h₁, hon⟩ := h.onTask htask
    obtain rfl := Option.eq_some_unique h₁ hr
    exact hon.inDeletion

/-- A step keeps the invariant if each new reason for `Done` comes with the
resource gone, each resource it makes is owed, and a debt is only settled by
deleting. -/
theorem CappResource.Cleared.carry {k : CappResource} {s s' : State} {a a' : Automation}
    (h : k.Cleared s a) (hid : a'.id = a.id) (hns : a'.nameSpace = a.nameSpace)
    (hdone : k.Done s' a' → k.Done s a ∨ ¬k.present a.id a.nameSpace s'.world)
    (hpresent : k.present a.id a.nameSpace s'.world →
      k.present a.id a.nameSpace s.world ∨ ∃ p, k.owedBy (s'.deliveries p) = true)
    (howed : k.Done s a → ∀ p, k.owedBy (s.deliveries p) = true →
      k.owedBy (s'.deliveries p) = true ∨ ¬k.present a.id a.nameSpace s'.world) :
    k.Cleared s' a' := by
  intro hd hp
  rw [hid, hns] at hp
  rcases hdone hd with hbefore | hgone
  · rcases hpresent hp with hold | hnew
    · obtain ⟨q, hq⟩ := h hbefore hold
      rcases howed hbefore q hq with hstill | hgone
      · exact ⟨q, hstill⟩
      · exact absurd hp hgone
    · exact hnew
  · exact absurd hp hgone

/-- What a delivery's move does to the resource and to its own debt. -/
theorem DeliveryMove.cleared {cfg : Config} {s : State} {now : Timestamp} {p : ℕ} {o : DeliveryOp}
    {sh : Shared} {d : Delivery} {r : Record} (k : CappResource)
    (hE : finishesAfterAccept s ⟨now, .deliver p o⟩) (hr : s.record = some r)
    (hid : r.automation.id = cfg.automationId)
    (hwf : (s.deliveries p).WellFormed cfg.automationId)
    (hpin : (s.deliveries p).Pinned cfg.automationId)
    (hwallet : (s.deliveries p).InWallet r.automation.nameSpace)
    (h : DeliveryMove cfg now s.toShared (s.deliveries p) o sh d) :
    (k.present r.automation.id r.automation.nameSpace sh.world →
      k.present r.automation.id r.automation.nameSpace s.world ∨ k.owedBy d = true) ∧
    (r.automation.matchingState ∈ deletionStates → k.owedBy (s.deliveries p) = true →
      k.owedBy d = true ∨ ¬k.present r.automation.id r.automation.nameSpace sh.world) := by
  generalize hd : s.deliveries p = d₀ at h hwf hpin hwallet
  cases h with
  | cappAccepted =>
    refine ⟨fun _ => Or.inr (by cases k <;> rfl), fun _ _ => Or.inl (by cases k <;> rfl)⟩
  | cutOver r₁ h₁ hre =>
    obtain rfl := Option.eq_some_unique h₁ hr
    exact ⟨Or.inl, fun hdel => absurd hdel (recheck_none hre).1⟩
  | @ignored event _ _ r₁ h₁ reason hre hne =>
    obtain rfl := Option.eq_some_unique h₁ hr
    refine ⟨Or.inl, ?_⟩
    intro hdel
    have hdeleting := (recheck_deleting_iff r₁ event.commitSha).mpr hdel
    exact absurd (Option.eq_some_unique hre hdeleting) hne
  | tearingDown => exact ⟨Or.inl, fun _ _ => Or.inl (by cases k <;> rfl)⟩
  | @notRecorded event target created fault error hnone =>
    have hok : fault = none := hE
    exact absurd (hnone hok) (by simp [hr])
  | @cappTornDown event wallet name =>
    refine ⟨fun hp => Or.inl (World.present_deleteCapp hp), ?_⟩
    intro _ _
    cases k with
    | secret => exact Or.inl rfl
    | capp =>
      right
      obtain rfl : wallet = r.automation.nameSpace := hwallet
      obtain rfl : name = pinnedName cfg.automationId := hpin
      rw [hid]
      exact World.not_hasCapp_deleteCapp _ _ _
  | tearDownFailed outcome hfail => exact absurd hE hfail
  | @secretTornDown event wallet outcome =>
    have hok : outcome = .ok := hE
    subst hok
    refine ⟨fun hp => Or.inl (World.present_deleteSecret hp), ?_⟩
    intro _ howed
    cases k with
    | capp => simp [CappResource.owedBy] at howed
    | secret =>
      right
      obtain rfl : wallet = r.automation.nameSpace := hwallet
      have hevent : event.automationId = cfg.automationId := hwf
      rw [hid, ← hevent]
      exact World.not_hasSecret_deleteSecret _ _ _
  | crashed event hflight =>
    refine ⟨Or.inl, ?_⟩
    intro _ howed
    have hnot : d₀.afterAccept = false := by
      have hcrash : (s.deliveries p).afterAccept = false := hE
      rwa [hd] at hcrash
    cases k <;> cases d₀ <;> simp [CappResource.owedBy, Delivery.afterAccept] at howed hnot
  | _ => exact ⟨Or.inl, fun _ howed => by cases k <;> simp [CappResource.owedBy] at howed⟩

/-- What a runner's call does: it makes nothing, and it has the resource deleted
when it goes on to count it as deleted. -/
theorem Runner.call_cleared {pc next stop : Runner} {w world : World} {a : Automation} {m : ℕ}
    {id : UUID} {wallet : String} (k : CappResource) (hcall : pc.call w = some (world, next, stop))
    (htask : pc.task = some (a, m)) (hid : a.id = id) (hns : a.nameSpace = wallet)
    (hname : cappNameFor a.id a.cappDeploymentId = pinnedName id) :
    (k.present id wallet world → k.present id wallet w) ∧ k.deletedBy stop = false ∧
      (k.deletedBy next = true → k.deletedBy pc = true ∨ ¬k.present id wallet world) := by
  have hafter (b : Automation) (n : ℕ) (entries : List String) :
      k.deletedBy (deletingAll b n entries) = false := by
    cases entries <;> cases k <;> rfl
  have hstop (b : Automation) (code : String) : k.deletedBy (stopped b code) = false := by
    cases k <;> rfl
  cases pc <;> simp only [Runner.call, Option.some.injEq, Prod.mk.injEq, reduceCtorEq] at hcall <;>
    obtain ⟨rfl, rfl, rfl⟩ := hcall <;>
    simp only [Runner.task, Option.some.injEq, Prod.mk.injEq] at htask <;>
    obtain ⟨rfl, -⟩ := htask
  case deletingCapp b n =>
    refine ⟨World.present_deleteCapp, hstop _ _, ?_⟩
    intro hd
    cases k with
    | secret => simp [CappResource.deletedBy] at hd
    | capp =>
      right
      rw [hname, hns]
      exact World.not_hasCapp_deleteCapp _ _ _
  case deletingSecret b n =>
    refine ⟨World.present_deleteSecret, hstop _ _, ?_⟩
    intro _
    cases k with
    | capp => exact Or.inl rfl
    | secret =>
      right
      rw [hid, hns]
      exact World.not_hasSecret_deleteSecret _ _ _
  case listing b n =>
    refine ⟨fun h => h, hstop _ _, ?_⟩
    intro hd
    simp [hafter] at hd
  case deletingImages b n entry entries =>
    refine ⟨fun h => by cases k <;> exact h, hstop _ _, ?_⟩
    intro hd
    simp [hafter] at hd
  case relisting b n =>
    refine ⟨fun h => h, hstop _ _, ?_⟩
    intro hd
    split at hd
    · cases k <;> simp [CappResource.deletedBy, stepImagesDeleted, stepCappResourcesDeleted] at hd
    · simp [hstop] at hd
  case archiving b n =>
    refine ⟨World.present_archive, hstop _ _, ?_⟩
    intro hd
    cases k <;> simp [CappResource.deletedBy, stepScriptArchived, stepCappResourcesDeleted] at hd

/-- A pass that has just started has deleted nothing. -/
theorem snapshot_deletedBy (k : CappResource) (record : Option Record) (n : ℕ) :
    k.deletedBy (snapshot record n) = false := by
  cases record with
  | none => cases k <;> rfl
  | some r =>
    simp only [snapshot, dispatch]
    split
    · cases k <;> rfl
    split
    · cases k <;> rfl
    split
    · cases k <;> rfl
    split
    all_goals
      cases k
      · rfl
      · rfl

/-- A runner makes nothing, and counts the resource as deleted only after it had
it deleted. -/
theorem RunnerMove.cleared {now : Timestamp} {sh sh' : Shared} {pc pc' : Runner} {o : RunnerOp}
    {id : UUID} {wallet : String} (k : CappResource)
    (hnames : ∀ a m, pc.task = some (a, m) →
      a.id = id ∧ a.nameSpace = wallet ∧ cappNameFor a.id a.cappDeploymentId = pinnedName id)
    (h : RunnerMove now sh pc o sh' pc') :
    (k.present id wallet sh'.world → k.present id wallet sh.world) ∧
      (k.deletedBy pc' = true → k.deletedBy pc = true ∨ ¬k.present id wallet sh'.world) := by
  cases h with
  | started => exact ⟨fun h => h, fun hd => by simp [snapshot_deletedBy] at hd⟩
  | reread => exact ⟨fun h => h, fun hd => by simp [snapshot_deletedBy] at hd⟩
  | called outcome world next stop hcall =>
    have hsome : ∃ a m, pc.task = some (a, m) := by
      cases pc <;> simp only [Runner.call, reduceCtorEq] at hcall <;> exact ⟨_, _, rfl⟩
    obtain ⟨a, m, hpc⟩ := hsome
    obtain ⟨hid, hns, hname⟩ := hnames a m hpc
    obtain ⟨hshrinks, hstop, hnext⟩ := Runner.call_cleared k hcall hpc hid hns hname
    cases outcome with
    | ok => exact ⟨hshrinks, hnext⟩
    | failed => exact ⟨fun h => h, fun hd => by simp [hstop] at hd⟩
    | lost => exact ⟨hshrinks, fun hd => by simp [hstop] at hd⟩
  | @saved a n completed outcome =>
    refine ⟨fun h => h, ?_⟩
    intro hd
    split at hd
    · cases k <;> simp [CappResource.deletedBy] at hd
    · cases k <;> simp [CappResource.deletedBy, stopped] at hd
  | readFailed => exact ⟨fun h => h, fun hd => by cases k <;> simp [CappResource.deletedBy] at hd⟩
  | crashed => exact ⟨fun h => h, fun hd => by cases k <;> simp [CappResource.deletedBy] at hd⟩

/-- Only deliveries and runners reach into CAPP. -/
theorem Move.present {cfg : Config} {s s' : State} {now : Timestamp} {op : Op} {k : CappResource}
    {id : UUID} {wallet : String} (h : Move cfg s now op s') (hdeliver : ∀ p o, op ≠ .deliver p o)
    (hrun : ∀ p o, op ≠ .run p o) (hp : k.present id wallet s'.world) :
    k.present id wallet s.world := by
  cases h with
  | delivered => exact absurd rfl (hdeliver _ _)
  | ran => exact absurd rfl (hrun _ _)
  | @edited p o sh e hm =>
    generalize s.edits p = e₀ at hm
    cases hm with
    | _ => cases k <;> exact hp
  | _ => cases k <;> exact hp

/-- The names a runner deletes are those of the row. -/
theorem OnTask.names {id : UUID} {s : State} {r : Record} {a : Automation} {m : ℕ}
    (hpin : Pinned id s) (hr : s.record = some r) (h : OnTask a m r.automation) :
    a.id = r.automation.id ∧ a.nameSpace = r.automation.nameSpace ∧
      cappNameFor a.id a.cappDeploymentId = pinnedName r.automation.id := by
  have hsame := h.same
  unfold Automation.SameButCheckpoint at hsame
  have hid : r.automation.id = a.id := by rw [hsame]
  have hns : r.automation.nameSpace = a.nameSpace := by rw [hsame]
  have hcapp : r.automation.cappDeploymentId = a.cappDeploymentId := by rw [hsame]
  refine ⟨hid.symm, hns.symm, ?_⟩
  rw [hid]
  unfold cappNameFor
  cases hn : a.cappDeploymentId with
  | none => rfl
  | some n =>
    have hpinned : n = pinnedName id := hpin.row r hr n (hcapp.trans hn)
    dsimp only
    split
    · rfl
    · rw [hpinned, ← hpin.rowId r hr, hid]

/-- Every reachable row is cleared: what exists in CAPP after its deletion is owed
by a delivery. -/
theorem Reached.cleared {cfg : Config} {E : State → Action → Prop} {tr : Trace State Action}
    {s : State} (hE : ∀ s a, E s a → teardownContract cfg s a) (k : CappResource)
    (h : Reached cfg E tr s) {r : Record} (hr : s.record = some r) : k.Cleared s r.automation := by
  refine h.invariant (I := fun s => ∀ r, s.record = some r → k.Cleared s r.automation)
    (fun world r hr => by simp [initial] at hr) ?_ r hr
  intro tr s now op s' hreach hs ha _ _ hm r' hr'
  obtain ⟨hcapp, hkeeps, hfinishes⟩ := hE _ _ ha
  rcases hm.row_after hr' with ⟨hrec, _, _, _, _, _, rfl, rfl⟩ | ⟨r, hrec, hrow⟩
  · -- before the creation no runner has a task, and the new row stands at no step
    intro hdone
    rcases hdone with hstep | ⟨p, hp⟩
    · simp [Automation.stepNumber, createAutomation, stepCappResourcesDeleted] at hstep
    · rcases hm.runner p with ⟨-, hsame⟩ | ⟨o, ho, -⟩
      · rw [hsame] at hp
        obtain ⟨a, m, htask⟩ := CappResource.task_of_deletedBy hp
        obtain ⟨r, hr, -⟩ := hreach.onTask htask
        simp [hrec] at hr
      · simp at ho
  · have hpin := hreach.pinned fun s a ha => (hE s a ha).1
    have hrunner : ∀ p o, op = .run p o →
        RunnerMove now s.toShared (s.runners p) o s'.toShared (s'.runners p) →
        (k.present r.automation.id r.automation.nameSpace s'.world →
          k.present r.automation.id r.automation.nameSpace s.world) ∧
        (k.deletedBy (s'.runners p) = true → k.deletedBy (s.runners p) = true ∨
          ¬k.present r.automation.id r.automation.nameSpace s'.world) := by
      intro p o _ hrun
      refine hrun.cleared k ?_
      intro a m htask
      obtain ⟨r₂, h₂, hon⟩ := hreach.onTask htask
      obtain rfl := Option.eq_some_unique h₂ hrec
      exact hon.names hpin hrec
    have hdelivery : ∀ p o, op = .deliver p o →
        DeliveryMove cfg now s.toShared (s.deliveries p) o s'.toShared (s'.deliveries p) →
        (k.present r.automation.id r.automation.nameSpace s'.world →
          k.present r.automation.id r.automation.nameSpace s.world ∨
            k.owedBy (s'.deliveries p) = true) ∧
        (r.automation.matchingState ∈ deletionStates → k.owedBy (s.deliveries p) = true →
          k.owedBy (s'.deliveries p) = true ∨
            ¬k.present r.automation.id r.automation.nameSpace s'.world) := by
      rintro p o rfl hd
      exact hd.cleared k hfinishes hrec (hpin.rowId r hrec) (hreach.wellFormed p)
        (hpin.deliveries p) (hreach.inWallet (fun s a ha => (hE s a ha).2.1) hrec p)
    refine (hs r hrec).carry hrow.id (hrow.nameSpace hrec hkeeps) ?_ ?_ ?_
    · intro hdone
      rcases hdone with hstep | ⟨p, hp⟩
      · rcases hrow.step_reached hreach.fenced hrec (by decide) hstep with hold | ⟨p, a, n, _, -, hp⟩
        · exact Or.inl (Or.inl hold)
        · exact Or.inl (Or.inr ⟨p, by rw [hp]; cases k <;> rfl⟩)
      · rcases hm.runner p with ⟨-, hsame⟩ | ⟨o, ho, hrun⟩
        · exact Or.inl (Or.inr ⟨p, hsame ▸ hp⟩)
        · rcases (hrunner p o ho hrun).2 hp with hold | hgone
          · exact Or.inl (Or.inr ⟨p, hold⟩)
          · exact Or.inr hgone
    · intro hpresent
      by_cases hdeliver : ∀ p o, op ≠ .deliver p o
      · by_cases hruns : ∀ p o, op ≠ .run p o
        · exact Or.inl (hm.present hdeliver hruns hpresent)
        · push Not at hruns
          obtain ⟨p, o, ho⟩ := hruns
          rcases hm.runner p with ⟨hnot, -⟩ | ⟨o', ho', hrun⟩
          · exact absurd ho (hnot o)
          · exact Or.inl ((hrunner p o' ho' hrun).1 hpresent)
      · push Not at hdeliver
        obtain ⟨p, o, ho⟩ := hdeliver
        rcases hm.delivery p with ⟨hnot, -⟩ | ⟨o', ho', hd⟩
        · exact absurd ho (hnot o)
        · rcases (hdelivery p o' ho' hd).1 hpresent with hold | hnew
          · exact Or.inl hold
          · exact Or.inr ⟨p, hnew⟩
    · intro hdone p howed
      rcases hm.delivery p with ⟨-, hsame⟩ | ⟨o, ho, hd⟩
      · exact Or.inl (hsame ▸ howed)
      · exact (hdelivery p o ho hd).2 (hdone.inDeletion hreach hrec) howed

/-- No deployment outlives deletion: neither the Capp nor the run-auth Secret is
left in the wallet of a deleted automation once no delivery is in flight. -/
theorem no_deployment_outlives_deletion (cfg : Config) (tr : Trace State Action) (s : State)
    (r : Record) (h : Reached cfg (teardownContract cfg) tr s) (hr : s.record = some r)
    (hdeleted : r.automation.matchingState = .deleted)
    (hquiet : ∀ p, (s.deliveries p).inFlight = false) :
    ¬s.world.hasCapp r.automation.nameSpace (pinnedName r.automation.id) ∧
      ¬s.world.hasSecret r.automation.nameSpace (runAuthSecretName r.automation.id) := by
  have hstep : stepCappResourcesDeleted ≤ r.automation.stepNumber := by
    have hmatches := (h.fenced.coherent r hr).step
    rw [hdeleted] at hmatches
    have hlast : r.automation.deleteCascadeStep = some stepDeleted := hmatches
    rw [Automation.stepNumber, hlast, Option.getD_some]
    decide
  have hgone : ∀ k : CappResource,
      ¬k.present r.automation.id r.automation.nameSpace s.world := by
    intro k hpresent
    obtain ⟨p, howed⟩ := h.cleared (fun _ _ h => h) k hr (Or.inl hstep) hpresent
    have hnot := hquiet p
    cases hd : s.deliveries p <;> cases k <;>
      simp [hd, CappResource.owedBy, Delivery.inFlight] at howed hnot
  exact ⟨hgone .capp, hgone .secret⟩

theorem no_deployment_outlives_deletion_sample : ∃ s r,
    Reached sampleConfig (teardownContract sampleConfig) (sampleTrace lateOps) s ∧
      s.record = some r ∧ r.automation.matchingState = .deleted ∧
      ¬s.world.hasCapp r.automation.nameSpace (pinnedName r.automation.id) ∧
      ¬s.world.hasSecret r.automation.nameSpace (runAuthSecretName r.automation.id) := by
  obtain ⟨s, hs, hsmall, r, hr, hdeleted⟩ :=
    run_of_runSample (E := teardownContract sampleConfig) lateOps
      (fun s => (∀ p : ℕ, p < 2 → (s.deliveries p).inFlight = false) ∧
        ∃ r ∈ s.record, r.automation.matchingState = .deleted)
      (by decide +kernel) (by decide +kernel)
  have hreach : Reached sampleConfig (teardownContract sampleConfig) _ s := ⟨sampleWorld, hs⟩
  have hquiet := forall_calls (P := fun d _ => d.inFlight = false) hs 2 (by decide +kernel) rfl hsmall
  exact ⟨s, r, hreach, hr, hdeleted,
    no_deployment_outlives_deletion sampleConfig _ s r hreach hr hdeleted hquiet⟩

end KeepAutomation
