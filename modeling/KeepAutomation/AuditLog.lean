import KeepAutomation.Deletion

/-! The revision list as an audit log: its build axis, the order of its dates
and the commits it requests. -/
namespace KeepAutomation

open TransitionSystem

/-- The actions that open or settle a build. -/
def RevisionAction.onBuildAxis : RevisionAction → Bool
  | .create | .edit | .buildFailed | .buildSucceeded => true
  | _ => false

abbrev BuildEvent := RevisionAction × Option String

def AutomationRevision.event (v : AutomationRevision) : BuildEvent := (v.action, v.gitSha)

/-- The revision log restricted to the build axis. -/
def buildLog (revisions : List AutomationRevision) : List BuildEvent :=
  (revisions.filter fun v => v.action.onBuildAxis).map AutomationRevision.event

theorem buildLog_append (vs ws : List AutomationRevision) :
    buildLog (vs ++ ws) = buildLog vs ++ buildLog ws := by
  simp only [buildLog, List.filter_append, List.map_append]

theorem buildLog_on {v : AutomationRevision} (h : v.action.onBuildAxis = true) :
    buildLog [v] = [v.event] := by
  simp only [buildLog, List.filter_cons, h, if_true, List.filter_nil, List.map_cons, List.map_nil]

theorem buildLog_off {v : AutomationRevision} (h : v.action.onBuildAxis = false) :
    buildLog [v] = [] := by
  simp only [buildLog, List.filter_cons, h, Bool.false_eq_true, if_false, List.filter_nil,
    List.map_nil]

namespace AutomationRevision

variable (event : CiWebhookIn) (v : AutomationRevision)

/-- The stamp writes the resulting digest and nothing else. -/
theorem stamp_same : (v.stamp event).action = v.action ∧ (v.stamp event).gitSha = v.gitSha ∧
    (v.stamp event).createdAt = v.createdAt ∧ (v.stamp event).actor = v.actor := by
  unfold stamp
  split
  · exact ⟨rfl, rfl, rfl, rfl⟩
  · exact ⟨rfl, rfl, rfl, rfl⟩

@[simp] theorem stamp_action : (v.stamp event).action = v.action := (stamp_same event v).1

@[simp] theorem stamp_gitSha : (v.stamp event).gitSha = v.gitSha := (stamp_same event v).2.1

@[simp] theorem stamp_createdAt : (v.stamp event).createdAt = v.createdAt := (stamp_same event v).2.2.1

@[simp] theorem stamp_actor : (v.stamp event).actor = v.actor := (stamp_same event v).2.2.2

end AutomationRevision

theorem buildLog_stamp (event : CiWebhookIn) (vs : List AutomationRevision) :
    buildLog (vs.map (AutomationRevision.stamp event)) = buildLog vs := by
  induction vs with
  | nil => rfl
  | cons v vs ih =>
    have hhead : buildLog [v.stamp event] = buildLog [v] := by
      simp only [buildLog, List.filter_cons, AutomationRevision.stamp_action, List.filter_nil]
      split
      · simp only [List.map_cons, List.map_nil, AutomationRevision.event,
          AutomationRevision.stamp_action, AutomationRevision.stamp_gitSha]
      · rfl
    rw [List.map_cons, ← List.singleton_append, buildLog_append, ih, hhead, ← buildLog_append,
      List.singleton_append]

/-- The commit of the newest create or edit revision. -/
def newestSha (revisions : List AutomationRevision) : Option String :=
  (newestRequest revisions).bind AutomationRevision.gitSha

/-- A request dated after all others is the newest. -/
theorem newestRequest_request {vs : List AutomationRevision} {w : AutomationRevision}
    (hw : w.action.requesting = true) (hdated : ∀ v ∈ vs, v.createdAt < w.createdAt) :
    newestRequest (vs ++ [w]) = some w := by
  unfold newestRequest
  rw [List.filter_append, List.filter_cons, if_pos hw, List.filter_nil, List.argmax_concat]
  cases hm : (vs.filter fun v => v.action.requesting).argmax AutomationRevision.createdAt with
  | none => rfl
  | some m =>
    have hmem : m ∈ vs := (List.mem_filter.mp (List.argmax_mem hm)).1
    exact if_pos (hdated m hmem)

theorem newestRequest_other {vs : List AutomationRevision} {w : AutomationRevision}
    (hw : w.action.requesting = false) : newestRequest (vs ++ [w]) = newestRequest vs := by
  unfold newestRequest
  rw [List.filter_append, List.filter_cons, if_neg (by rw [hw]; decide), List.filter_nil,
    List.append_nil]

theorem newestRequest_stamp (event : CiWebhookIn) (vs : List AutomationRevision) :
    newestRequest (vs.map (AutomationRevision.stamp event)) =
      (newestRequest vs).map (AutomationRevision.stamp event) := by
  unfold newestRequest
  rw [List.filter_map]
  have hpred : ((fun v : AutomationRevision => v.action.requesting) ∘
      AutomationRevision.stamp event) = fun v => v.action.requesting := by
    funext v
    simp only [Function.comp, AutomationRevision.stamp_action]
  rw [hpred]
  -- the stamp keeps the dates, so it commutes with every choice of `argmax`
  induction vs.filter fun v => v.action.requesting with
  | nil => rfl
  | cons v vs ih =>
    rw [List.map_cons, List.argmax_cons, List.argmax_cons, ih]
    cases vs.argmax AutomationRevision.createdAt with
    | none => rfl
    | some m =>
      simp only [Option.map_some, AutomationRevision.stamp_createdAt]
      split
      · rfl
      · rfl

theorem newestSha_stamp (event : CiWebhookIn) (vs : List AutomationRevision) :
    newestSha (vs.map (AutomationRevision.stamp event)) = newestSha vs := by
  unfold newestSha
  rw [newestRequest_stamp]
  cases newestRequest vs with
  | none => rfl
  | some m => simp only [Option.map_some, Option.bind_some, AutomationRevision.stamp_gitSha]

section NewestSha

/-! What each update of a row does to its newest commit. -/
variable (r : Record) (event : CiWebhookIn) (now : Timestamp)

theorem newestSha_transition {target : MatchingState} {action : RevisionAction} {actor : String}
    (haction : action.requesting = false) :
    newestSha (r.transition target action actor now).revisions = newestSha r.revisions := by
  unfold newestSha Record.transition
  rw [newestRequest_other haction]

theorem newestSha_markDeleting (actor : String) :
    newestSha (r.markDeleting actor now).revisions = newestSha r.revisions :=
  @newestSha_transition r now .deleting .delete actor rfl

theorem newestSha_failBuild :
    newestSha (failBuild r event now).revisions = newestSha r.revisions := by
  unfold newestSha failBuild
  rw [newestRequest_other rfl]

theorem newestSha_cutOver (created : Option CappDeployment) :
    newestSha (cutOver r event created now).revisions = newestSha r.revisions := by
  have hstamp := newestSha_stamp event r.revisions
  unfold newestSha at hstamp ⊢
  unfold cutOver
  rw [newestRequest_other rfl]
  exact hstamp

variable {r now} in
/-- A finished edit is newer than every revision dated before it. -/
theorem newestSha_edited {data : AutomationIn} {actor gitSha : String}
    (hdated : ∀ v ∈ r.revisions, v.createdAt < now) :
    newestSha (r.edited data actor gitSha now).revisions = some gitSha := by
  unfold newestSha Record.edited
  rw [newestRequest_request rfl hdated]
  rfl

end NewestSha

/-- No revision is dated in the future. -/
def Dated (s : State) : Prop :=
  ∀ r, s.record = some r → ∀ v ∈ r.revisions, v.createdAt ≤ s.clock

/-- The revisions of a row move are the old ones, possibly stamped, and at most
one new one dated now. -/
theorem RowMove.revisions {s : State} {now : Timestamp} {r r' : Record} {op : Op}
    (h : RowMove s now r op r') :
    r'.revisions = r.revisions ∨
      ∃ w, w.createdAt = now ∧ (r'.revisions = r.revisions ++ [w] ∨
        ∃ event, r'.revisions = r.revisions.map (AutomationRevision.stamp event) ++ [w]) := by
  cases h with
  | same => exact Or.inl rfl
  | enabled => exact Or.inr ⟨_, rfl, Or.inl rfl⟩
  | disabled => exact Or.inr ⟨_, rfl, Or.inl rfl⟩
  | deleteAdmitted => exact Or.inr ⟨_, rfl, Or.inl rfl⟩
  | claimed => exact Or.inl rfl
  | @released p claim =>
    obtain ⟨_, _, _, he⟩ := releaseBuildClaim_frame claim r
    exact Or.inl (by rw [he])
  | edited => exact Or.inr ⟨_, rfl, Or.inl rfl⟩
  | @cutOver p event => exact Or.inr ⟨_, rfl, Or.inr ⟨event, rfl⟩⟩
  | buildFailed => exact Or.inr ⟨_, rfl, Or.inl rfl⟩
  | @checkpointed p a n completed =>
    obtain ⟨_, _, _, he⟩ := checkpoint_frame completed now r
    exact Or.inl (by rw [he])

theorem Reached.dated {cfg : Config} {E : State → Action → Prop} {tr : Trace State Action}
    {s : State} (h : Reached cfg E tr s) : Dated s := by
  refine h.invariant (fun world r hr => by simp [initial] at hr) ?_
  intro tr s now op s' _ hs _ hlt hclock hm r' hr' v hv
  rw [hclock]
  rcases hm.row_after hr' with ⟨-, _, _, _, _, _, -, rfl⟩ | ⟨r, hrec, hrow⟩
  · obtain rfl := List.mem_singleton.mp hv
    exact le_rfl
  · have hold : ∀ u ∈ r.revisions, u.createdAt ≤ now := fun u hu => (hs r hrec u hu).trans hlt.le
    -- the stamp keeps dates, and a new revision is dated now
    rcases hrow.revisions with he | ⟨w, hw, he | ⟨event, he⟩⟩
    · exact hold v (he ▸ hv)
    · rw [he] at hv
      rcases List.mem_append.mp hv with hv | hv
      · exact hold v hv
      · exact (List.mem_singleton.mp hv ▸ hw).le
    · rw [he] at hv
      rcases List.mem_append.mp hv with hv | hv
      · obtain ⟨u, hu, rfl⟩ := List.mem_map.mp hv
        rw [AutomationRevision.stamp_createdAt]
        exact hold u hu
      · exact (List.mem_singleton.mp hv ▸ hw).le

/-- The commit a row is building is that of its newest create or edit. -/
theorem Reached.building_newest {cfg : Config} {E : State → Action → Prop} {tr : Trace State Action}
    {s : State} (h : Reached cfg E tr s) {r : Record} (hr : s.record = some r) {sha : String}
    (hsha : r.automation.buildingSha = some sha) : newestSha r.revisions = some sha := by
  refine h.row_invariant (P := fun r => ∀ sha, r.automation.buildingSha = some sha →
    newestSha r.revisions = some sha) ?_ ?_ hr sha hsha
  · intro _ _ _ _ _ _ sha hsha
    exact hsha
  · intro tr s now op r r' hreach hlt hrec hrow hprev sha hsha
    replace hprev := hprev sha
    have hdated : ∀ v ∈ r.revisions, v.createdAt < now :=
      fun v hv => lt_of_le_of_lt (hreach.dated r hrec v hv) hlt
    -- only a finished edit sets the commit, with a revision newer than all others
    cases hrow with
    | same => exact hprev hsha
    | enabled =>
      rw [newestSha_transition r now rfl]
      exact hprev hsha
    | disabled =>
      rw [newestSha_transition r now rfl]
      exact hprev hsha
    | deleteAdmitted =>
      rw [newestSha_markDeleting]
      exact hprev hsha
    | claimed => simp [Record.claimed] at hsha
    | @released p claim hp =>
      have hh : Holds claim r.automation := hreach.fenced.holds_row hrec (by rw [hp]; rfl)
      rw [releaseBuildClaim_held hh.held, hh.previousSha] at hsha
      simp at hsha
    | edited =>
      rw [newestSha_edited hdated]
      exact hsha
    | cutOver => simp [KeepAutomation.cutOver] at hsha
    | buildFailed => simp [failBuild] at hsha
    | @checkpointed p a n completed =>
      obtain ⟨_, _, _, he⟩ := checkpoint_frame completed now r
      rw [he] at hsha ⊢
      exact hprev hsha

/-- Where the delete revision stands: nowhere in a live row's log, and at the end
of the log of a row in deletion, with the actor the row names. -/
structure DeleteLogged (r : Record) : Prop where
  live : r.automation.matchingState ∉ deletionStates → ∀ v ∈ r.revisions, v.action ≠ .delete
  deleting : r.automation.matchingState ∈ deletionStates → ∃ vs v, r.revisions = vs ++ [v] ∧
    v.action = .delete ∧ v.actor = r.automation.updatedBy ∧ ∀ u ∈ vs, u.action ≠ .delete

/-- A revision that is no delete, added to a live row's log. -/
theorem DeleteLogged.append {r r' : Record} {w : AutomationRevision} (h : DeleteLogged r)
    (hlive : r.automation.matchingState ∉ deletionStates)
    (hlive' : r'.automation.matchingState ∉ deletionStates) (hw : w.action ≠ .delete)
    (hrev : r'.revisions = r.revisions ++ [w]) : DeleteLogged r' := by
  refine ⟨?_, fun hdel => absurd hdel hlive'⟩
  intro _ v hv
  rw [hrev] at hv
  rcases List.mem_append.mp hv with hv | hv
  · exact h.live hlive v hv
  · rw [List.mem_singleton.mp hv]
    exact hw

theorem RowMove.deleteLogged {s : State} {now : Timestamp} {r r' : Record} {op : Op} (hs : Fenced s)
    (hr : s.record = some r) (h : RowMove s now r op r') (hlog : DeleteLogged r) :
    DeleteLogged r' := by
  by_cases hdel : r.automation.matchingState ∈ deletionStates
  · -- in deletion the log and the actor stay as they are
    rcases h.in_deletion hs hr hdel with rfl | ⟨completed, rfl⟩
    · exact hlog
    · have hstate : (KeepAutomation.checkpoint completed now r).automation.matchingState ∈
          deletionStates := by
        rcases (mem_deletionStates _).mp hdel with hdeleting | hdeleted
        · rw [mem_deletionStates]
          exact checkpoint_state completed now r hdeleting
        · rw [checkpoint_of_not_deleting (by simp [hdeleted])]
          exact hdel
      refine ⟨fun hlive => absurd hstate hlive, fun _ => ?_⟩
      obtain ⟨vs, v, hrev, hv, hactor, hothers⟩ := hlog.deleting hdel
      obtain ⟨_, _, _, he⟩ := checkpoint_frame completed now r
      rw [he]
      exact ⟨vs, v, hrev, hv, hactor, hothers⟩
  · cases h with
    | same => exact hlog
    | enabled => exact hlog.append hdel (by simp [Record.transition]) (by simp) rfl
    | disabled => exact hlog.append hdel (by simp [Record.transition]) (by simp) rfl
    | deleteAdmitted =>
      refine ⟨fun hlive => absurd ?_ hlive, fun _ => ?_⟩
      · simp [Record.markDeleting, Record.transition]
      · exact ⟨r.revisions, _, rfl, rfl, rfl, hlog.live hdel⟩
    | claimed => exact ⟨hlog.live, hlog.deleting⟩
    | @released p claim =>
      obtain ⟨_, _, _, he⟩ := releaseBuildClaim_frame claim r
      rw [he]
      exact ⟨hlog.live, hlog.deleting⟩
    | edited => exact hlog.append hdel hdel (by simp) rfl
    | @cutOver p event target created =>
      refine ⟨?_, fun hdel' => absurd hdel' hdel⟩
      intro _ v hv
      rcases List.mem_append.mp hv with hv | hv
      · obtain ⟨u, hu, rfl⟩ := List.mem_map.mp hv
        rw [AutomationRevision.stamp_action]
        exact hlog.live hdel u hu
      · rw [List.mem_singleton.mp hv]
        simp [buildRevision]
    | buildFailed => exact hlog.append hdel hdel (by simp [buildRevision]) rfl
    | checkpointed =>
      have hnot : r.automation.matchingState ≠ .deleting := by
        intro hdeleting
        exact hdel (by simp [hdeleting])
      rw [checkpoint_of_not_deleting hnot]
      exact hlog

/-- A row in deletion has one delete revision, and it is the last. -/
theorem Reached.deleteLogged {cfg : Config} {E : State → Action → Prop} {tr : Trace State Action}
    {s : State} (h : Reached cfg E tr s) {r : Record} (hr : s.record = some r) : DeleteLogged r := by
  refine h.row_invariant ?_ ?_ hr
  · intro tenantId data actor gitSha deadline now
    refine ⟨?_, fun hdel => by simp [createAutomation] at hdel⟩
    intro _ v hv
    obtain rfl := List.mem_singleton.mp hv
    simp
  · intro tr s now op r r' hreach _ hrec hrow hlog
    exact hrow.deleteLogged hreach.fenced hrec hlog

end KeepAutomation
