import KeepAutomation.AuditLog

/-! The build axis as a history of blocks: each create or edit opens a block for
its commit, and a block is settled at most once by a failure and at most once by
a success, in that order. -/
namespace KeepAutomation

open TransitionSystem

/-- How a requested build stands; `recovered` is a success after its failure. -/
inductive Verdict where
  | pending | failed | succeeded | recovered
  deriving DecidableEq, Repr

structure Block where
  sha : String
  verdict : Verdict
  deriving DecidableEq, Repr

/-- The outcome revisions a verdict stands for. -/
def Verdict.events (sha : String) : Verdict → List BuildEvent
  | .pending => []
  | .failed => [(.buildFailed, some sha)]
  | .succeeded => [(.buildSucceeded, some sha)]
  | .recovered => [(.buildFailed, some sha), (.buildSucceeded, some sha)]

/-- The build state a settled verdict leaves the row in. -/
def Verdict.buildState : Verdict → BuildState
  | .pending => .building
  | .failed => .buildFailed
  | .succeeded | .recovered => .idle

def Verdict.afterSuccess : Verdict → Verdict
  | .failed => .recovered
  | _ => .succeeded

def Block.events (opener : RevisionAction) (b : Block) : List BuildEvent :=
  (opener, some b.sha) :: b.verdict.events b.sha

/-- The log of a history, newest block first: the oldest block is opened by the
create, every later one by an edit. -/
def historyLog : List Block → List BuildEvent
  | [] => []
  | b :: older => historyLog older ++ b.events (if older.isEmpty then .create else .edit)

/-- A new outcome of the newest block is one more event at the end of the log. -/
theorem historyLog_settle {sha : String} {v v' : Verdict} {older : List Block} {e : BuildEvent}
    (h : v'.events sha = v.events sha ++ [e]) :
    historyLog (⟨sha, v'⟩ :: older) = historyLog (⟨sha, v⟩ :: older) ++ [e] := by
  simp only [historyLog, Block.events, h, List.append_assoc, List.cons_append]

/-- Every event of the log belongs to a block of its commit, and a success to a
block that it settled. -/
theorem mem_historyLog {history : List Block} {e : BuildEvent} (h : e ∈ historyLog history) :
    ∃ c ∈ history, e.2 = some c.sha ∧
      (e.1 = .buildSucceeded → c.verdict = .succeeded ∨ c.verdict = .recovered) := by
  induction history with
  | nil => simp [historyLog] at h
  | cons b older ih =>
    rcases List.mem_append.mp h with h | h
    · obtain ⟨c, hc, hsha, hsucc⟩ := ih h
      exact ⟨c, List.mem_cons_of_mem b hc, hsha, hsucc⟩
    · refine ⟨b, List.mem_cons_self .., ?_⟩
      rcases List.mem_cons.mp h with rfl | h
      · refine ⟨rfl, ?_⟩
        split
        · simp
        · simp
      · cases hv : b.verdict with
        | pending => simp [hv, Verdict.events] at h
        | failed =>
          obtain rfl : e = (.buildFailed, some b.sha) := by simpa [hv, Verdict.events] using h
          exact ⟨rfl, by simp⟩
        | succeeded =>
          obtain rfl : e = (.buildSucceeded, some b.sha) := by simpa [hv, Verdict.events] using h
          exact ⟨rfl, by simp⟩
        | recovered =>
          have he : e.2 = some b.sha := by
            rcases (by simpa [hv, Verdict.events] using h) with rfl | rfl
            · rfl
            · rfl
          exact ⟨he, by simp⟩

/-- The row and its log against a history with newest block `b`. -/
structure Agrees (r : Record) (b : Block) (older : List Block) : Prop where
  log : buildLog r.revisions = historyLog (b :: older)
  newest : newestSha r.revisions = some b.sha
  settled : r.automation.buildState ≠ .building → r.automation.buildState = b.verdict.buildState
  pending : ∀ sha, r.automation.buildingSha = some sha → sha = b.sha ∧ b.verdict = .pending

namespace Agrees

variable {r : Record} {b : Block} {older : List Block} {now : Timestamp}

/-- A revision off the build axis leaves the history alone. -/
theorem off_axis {r' : Record} {v : AutomationRevision} (h : Agrees r b older)
    (hv : v.action.onBuildAxis = false) (hrev : r'.revisions = r.revisions ++ [v])
    (hstate : r'.automation.buildState = r.automation.buildState)
    (hsha : r'.automation.buildingSha = r.automation.buildingSha) : Agrees r' b older := by
  have hreq : v.action.requesting = false := by
    cases ha : v.action <;> simp_all [RevisionAction.onBuildAxis, RevisionAction.requesting]
  refine ⟨?_, ?_, ?_, ?_⟩
  · rw [hrev, buildLog_append, buildLog_off hv, List.append_nil, h.log]
  · rw [newestSha, hrev, newestRequest_other hreq, ← h.newest, newestSha]
  · rw [hstate]
    exact h.settled
  · rw [hsha]
    exact h.pending

theorem claimed (h : Agrees r b older) (deadline : Timestamp) : Agrees (r.claimed deadline) b older :=
  ⟨h.log, h.newest, fun hb => absurd rfl hb, fun sha hsha => by simp [Record.claimed] at hsha⟩

/-- A release restores the build state the claim found, so the same history fits. -/
theorem released {claim : BuildClaim} (h : Agrees r b older) (hh : Holds claim r.automation)
    (hprev : claim.previousBuildState = b.verdict.buildState) :
    Agrees (releaseBuildClaim claim r) b older := by
  rw [releaseBuildClaim_held hh.held]
  refine ⟨h.log, h.newest, fun _ => hprev, ?_⟩
  intro sha hsha
  rw [hh.previousSha] at hsha
  simp at hsha

theorem edited {data : AutomationIn} {actor gitSha : String} (h : Agrees r b older)
    (hbuild : r.automation.buildState = .building)
    (hdated : ∀ v ∈ r.revisions, v.createdAt < now) :
    Agrees (r.edited data actor gitSha now) ⟨gitSha, .pending⟩ (b :: older) := by
  refine ⟨?_, ?_, fun hb => absurd hbuild hb, ?_⟩
  · simp only [Record.edited]
    rw [buildLog_append, buildLog_on rfl, h.log]
    rfl
  · exact newestSha_edited hdated
  · intro sha hsha
    exact ⟨(Option.some.inj hsha).symm, rfl⟩

/-- A failure is recorded only while the newest block is pending. -/
theorem failBuild {event : CiWebhookIn} (h : Agrees r b older)
    (hadm : admission r.automation event.commitSha = none) :
    Agrees (failBuild r event now) ⟨b.sha, .failed⟩ older := by
  obtain ⟨-, -, hsha⟩ := admission_none hadm
  obtain ⟨hb, hv⟩ := h.pending _ hsha
  have hlog : historyLog (⟨b.sha, .failed⟩ :: older) =
      historyLog (b :: older) ++ [(.buildFailed, some event.commitSha)] := by
    rw [hb]
    have heta : b = ⟨b.sha, .pending⟩ := by rw [← hv]
    rw [heta]
    exact historyLog_settle rfl
  refine ⟨?_, ?_, fun _ => rfl, fun sha hs => by simp [KeepAutomation.failBuild] at hs⟩
  · rw [hlog, ← h.log]
    simp only [KeepAutomation.failBuild]
    rw [buildLog_append, buildLog_on rfl]
    rfl
  · rw [newestSha_failBuild]
    exact h.newest

/-- What a passed re-check says of the newest block: it is this commit's, and no
success settled it yet. -/
theorem of_recheck {event : CiWebhookIn} (h : Agrees r b older)
    (hre : recheck r event.commitSha = none) :
    event.commitSha = b.sha ∧ (b.verdict = .pending ∨ b.verdict = .failed) := by
  obtain ⟨-, ⟨-, hsha⟩ | ⟨hstate, hnewest⟩⟩ := recheck_none hre
  · obtain ⟨hb, hv⟩ := h.pending _ hsha
    exact ⟨hb, Or.inl hv⟩
  · have hb : b.sha = event.commitSha := Option.eq_some_unique h.newest hnewest
    have hv := h.settled (by rw [hstate]; decide)
    rw [hstate] at hv
    refine ⟨hb.symm, Or.inr ?_⟩
    cases hver : b.verdict with
    | failed => rfl
    | _ => rw [hver] at hv; simp [Verdict.buildState] at hv

theorem cutOver {event : CiWebhookIn} {created : Option CappDeployment} (h : Agrees r b older)
    (hre : recheck r event.commitSha = none) :
    Agrees (cutOver r event created now) ⟨b.sha, b.verdict.afterSuccess⟩ older := by
  obtain ⟨hb, hv⟩ := h.of_recheck hre
  have hlog : historyLog (⟨b.sha, b.verdict.afterSuccess⟩ :: older) =
      historyLog (b :: older) ++ [(.buildSucceeded, some event.commitSha)] := by
    rw [hb]
    apply historyLog_settle
    rcases hv with hv | hv <;> rw [hv] <;> rfl
  refine ⟨?_, ?_, fun _ => ?_, fun sha hs => by simp [KeepAutomation.cutOver] at hs⟩
  · rw [hlog, ← h.log]
    simp only [KeepAutomation.cutOver]
    rw [buildLog_append, buildLog_on rfl, buildLog_stamp]
    rfl
  · rw [newestSha_cutOver]
    exact h.newest
  · rcases hv with hv | hv <;> rw [hv] <;> rfl

theorem checkpoint (h : Agrees r b older) (completed : ℕ) :
    Agrees (checkpoint completed now r) b older := by
  obtain ⟨_, _, _, he⟩ := checkpoint_frame completed now r
  rw [he]
  exact ⟨h.log, h.newest, h.settled, h.pending⟩

end Agrees

/-- The history of a whole state: live claims would restore its newest verdict,
its commits are distinct and git returned them, and those of the edits that are
still to finish are new to it. -/
structure HistoryFits (s : State) (r : Record) (b : Block) (older : List Block) : Prop where
  agrees : Agrees r b older
  previous : ∀ p claim, (s.edits p).claim? = some claim →
    claim.previousBuildState = b.verdict.buildState
  distinct : ((b :: older).map Block.sha).Nodup
  returned : ∀ c ∈ b :: older, c.sha ∈ s.world.commits
  unfinished : ∀ p claim tenantId data actor gitSha,
    s.edits p = .finishing claim tenantId data actor gitSha →
      gitSha ∈ s.world.commits ∧ ∀ c ∈ b :: older, c.sha ≠ gitSha

namespace HistoryFits

variable {s s' : State} {r r' : Record} {b b' : Block} {older : List Block}

/-- Anything but an edit: the claims stay, and a changed verdict needs a row free
of claims. -/
theorem frame (h : HistoryFits s r b older) (hedits : s'.edits = s.edits)
    (hcommits : s'.world.commits = s.world.commits) (ha : Agrees r' b' older)
    (hsha : b'.sha = b.sha) (hb : b' = b ∨ ∀ p, (s.edits p).claim? = none) :
    HistoryFits s' r' b' older := by
  have hshas : (b' :: older).map Block.sha = (b :: older).map Block.sha := by
    rw [List.map_cons, List.map_cons, hsha]
  have hmem : ∀ c ∈ b' :: older, ∃ d ∈ b :: older, d.sha = c.sha := by
    intro c hc
    have hc' : c.sha ∈ (b :: older).map Block.sha := hshas ▸ List.mem_map_of_mem hc
    exact List.mem_map.mp hc'
  refine ⟨ha, ?_, hshas ▸ h.distinct, ?_, ?_⟩
  · intro p claim hp
    rw [hedits] at hp
    rcases hb with rfl | hfree
    · exact h.previous p claim hp
    · rw [hfree p] at hp
      simp at hp
  · intro c hc
    obtain ⟨d, hd, hdc⟩ := hmem c hc
    rw [hcommits, ← hdc]
    exact h.returned d hd
  · intro p claim tenantId data actor gitSha hp
    rw [hedits] at hp
    obtain ⟨hret, hnew⟩ := h.unfinished p claim tenantId data actor gitSha hp
    rw [hcommits]
    refine ⟨hret, ?_⟩
    intro c hc
    obtain ⟨d, hd, hdc⟩ := hmem c hc
    rw [← hdc]
    exact hnew d hd

/-- An edit's move that opens no block: its own claim must fit the history. -/
theorem edit {p : ℕ} {sh : Shared} {e : Edit} {now : Timestamp} (h : HistoryFits s r b older)
    (ha : Agrees r' b older) (hcommits : s.world.commits ⊆ sh.world.commits)
    (hprev : ∀ claim, e.claim? = some claim → claim.previousBuildState = b.verdict.buildState)
    (hfin : ∀ claim tenantId data actor gitSha, e = .finishing claim tenantId data actor gitSha →
      gitSha ∈ sh.world.commits ∧ ∀ c ∈ b :: older, c.sha ≠ gitSha) :
    HistoryFits { s with toShared := sh, edits := Function.update s.edits p e, clock := now }
      r' b older := by
  refine ⟨ha, ?_, h.distinct, fun c hc => hcommits (h.returned c hc), ?_⟩
  · exact (Function.forall_update_iff s.edits fun _ e => ∀ claim, e.claim? = some claim →
      claim.previousBuildState = b.verdict.buildState).mpr ⟨hprev, fun q _ => h.previous q⟩
  · apply (Function.forall_update_iff s.edits fun _ e => ∀ claim tenantId data actor gitSha,
      e = .finishing claim tenantId data actor gitSha →
        gitSha ∈ sh.world.commits ∧ ∀ c ∈ b :: older, c.sha ≠ gitSha).mpr
    refine ⟨hfin, fun q _ claim tenantId data actor gitSha hq => ?_⟩
    obtain ⟨hret, hnew⟩ := h.unfinished q claim tenantId data actor gitSha hq
    exact ⟨hcommits hret, hnew⟩

/-- The move of an edit keeps a fitting history, with one more block when it
finishes. -/
theorem editMove {cfg : Config} {now : Timestamp} {p : ℕ} {op : EditOp} {sh : Shared} {e : Edit}
    (hs : Fenced s) (hdated : ∀ v ∈ r.revisions, v.createdAt < now) (hr : s.record = some r)
    (hfresh : ∀ gitSha, op = .commit gitSha → gitSha ∉ s.world.commits)
    (h : HistoryFits s r b older) (hm : EditMove cfg now s.toShared (s.edits p) op sh e) :
    ∃ r' b' older', sh.record = some r' ∧
      HistoryFits { s with toShared := sh, edits := Function.update s.edits p e, clock := now }
        r' b' older' := by
  have hown : ∀ claim, (s.edits p).claim? = some claim → Holds claim r.automation ∧
      claim.previousBuildState = b.verdict.buildState :=
    fun claim hp => ⟨hs.holds_row hr hp, h.previous p claim hp⟩
  have alone : ∀ claim, (s.edits p).claim? = some claim →
      ∀ q, q ≠ p → (s.edits q).claim? = none :=
    fun claim hp q hq => hs.alone hp hq
  generalize he : s.edits p = e₀ at hm hown alone
  cases hm with
  | claimed r₁ h₁ _ _ _ hbuild _ =>
    obtain rfl := Option.eq_some_unique h₁ hr
    refine ⟨_, b, older, rfl, h.edit (h.agrees.claimed _) (List.Subset.refl _) ?_ (by simp)⟩
    intro claim hclaim
    simp only [Edit.claim?, Option.some.injEq] at hclaim
    subst hclaim
    exact h.agrees.settled hbuild
  | @committed claim _ _ _ gitSha =>
    refine ⟨r, b, older, hr, h.edit h.agrees (List.subset_append_left _ _) ?_ ?_⟩
    · intro claim' hclaim
      exact (hown claim' hclaim).2
    · intro _ _ _ _ sha hsha
      simp only [Edit.finishing.injEq] at hsha
      obtain ⟨-, -, -, -, rfl⟩ := hsha
      refine ⟨List.mem_append_right _ (List.mem_singleton.mpr rfl), ?_⟩
      -- the blocks' commits were returned before, this one was not
      intro c hc hcs
      exact hfresh gitSha rfl (hcs ▸ h.returned c hc)
  | commitFailed =>
    exact ⟨r, b, older, hr, h.edit h.agrees (List.Subset.refl _)
      (fun claim hclaim => (hown claim hclaim).2) (by simp)⟩
  | @released claim =>
    obtain ⟨hh, hprev⟩ := hown claim rfl
    refine ⟨releaseBuildClaim claim r, b, older, ?_, ?_⟩
    · simp only [hr, Option.map_some]
    · exact h.edit (h.agrees.released hh hprev) (List.Subset.refl _)
        (by simp [Edit.claim?]) (by simp)
  | @finished claim _ data actor gitSha r₁ h₁ _ hheld =>
    obtain rfl := Option.eq_some_unique h₁ hr
    obtain ⟨hret, hnew⟩ := h.unfinished p claim _ data actor gitSha he
    have hnone : ∀ q, (Function.update s.edits p .returned q).claim? = none :=
      (Function.forall_update_iff s.edits fun _ e => e.claim? = none).mpr ⟨rfl, alone claim rfl⟩
    refine ⟨_, ⟨gitSha, .pending⟩, b :: older, rfl,
      ⟨h.agrees.edited hheld.1 hdated, ?_, ?_, ?_, ?_⟩⟩
    · intro q claim' hq
      rw [hnone q] at hq
      simp at hq
    · rw [List.map_cons, List.nodup_cons]
      refine ⟨?_, h.distinct⟩
      intro hmem
      obtain ⟨c, hc, hcs⟩ := List.mem_map.mp hmem
      exact hnew c hc hcs
    · intro c hc
      rcases List.mem_cons.mp hc with rfl | hc
      · exact hret
      · exact h.returned c hc
    · intro q claim' tenantId' data' actor' sha hq
      have hclaim := hnone q
      change Function.update s.edits p .returned q = _ at hq
      rw [hq] at hclaim
      simp [Edit.claim?] at hclaim
  | _ => exact ⟨r, b, older, hr, h.edit h.agrees (List.Subset.refl _)
      (by simp [Edit.claim?]) (by simp)⟩

/-- The step lemma of the history. -/
theorem move {cfg : Config} {now : Timestamp} {op : Op} (hs : Fenced s) (hd : Dated s)
    (hlt : s.clock < now) (hfresh : freshShas s ⟨now, op⟩) (hr : s.record = some r)
    (h : HistoryFits s r b older) (hm : Move cfg s now op s') :
    ∃ r' b' older', s'.record = some r' ∧ HistoryFits s' r' b' older' := by
  have hdated : ∀ v ∈ r.revisions, v.createdAt < now :=
    fun v hv => lt_of_le_of_lt (hd r hr v hv) hlt
  cases hm with
  | created hnone => simp [hr] at hnone
  | refused => exact ⟨r, b, older, hr, h.frame rfl rfl h.agrees rfl (Or.inl rfl)⟩
  | pushed => exact ⟨r, b, older, hr, h.frame rfl rfl h.agrees rfl (Or.inl rfl)⟩
  | enabled r₁ h₁ =>
    obtain rfl := Option.eq_some_unique h₁ hr
    exact ⟨_, b, older, rfl,
      h.frame rfl rfl (h.agrees.off_axis rfl rfl rfl rfl) rfl (Or.inl rfl)⟩
  | disabled r₁ h₁ =>
    obtain rfl := Option.eq_some_unique h₁ hr
    exact ⟨_, b, older, rfl,
      h.frame rfl rfl (h.agrees.off_axis rfl rfl rfl rfl) rfl (Or.inl rfl)⟩
  | deleteAdmitted r₁ h₁ =>
    obtain rfl := Option.eq_some_unique h₁ hr
    exact ⟨_, b, older, rfl,
      h.frame rfl rfl (h.agrees.off_axis rfl rfl rfl rfl) rfl (Or.inl rfl)⟩
  | edited hedit =>
    refine h.editMove hs hdated hr ?_ hedit
    intro gitSha hop
    subst hop
    exact hfresh gitSha rfl
  | @delivered p dop sh d hdel =>
    have hcommits := hdel.commits
    generalize s.deliveries p = d₀ at hdel
    cases hdel with
    | failureRecorded r₁ h₁ hadm =>
      obtain rfl := Option.eq_some_unique h₁ hr
      refine ⟨_, _, older, rfl, h.frame rfl hcommits (h.agrees.failBuild hadm) rfl (Or.inr ?_)⟩
      exact hs.no_claim hr fun claim hh => hh.admission_ne_none hadm
    | cutOver r₁ h₁ hre =>
      obtain rfl := Option.eq_some_unique h₁ hr
      refine ⟨_, _, older, rfl, h.frame rfl hcommits (h.agrees.cutOver hre) rfl (Or.inr ?_)⟩
      exact hs.no_claim hr fun claim hh => hh.recheck_ne_none hre
    | _ => exact ⟨r, b, older, hr, h.frame rfl hcommits h.agrees rfl (Or.inl rfl)⟩
  | @ran p rop sh c hrun =>
    have hcommits := hrun.commits
    generalize s.runners p = c₀ at hrun
    cases hrun with
    | @saved a n completed outcome =>
      cases he : outcome.effective with
      | false => exact ⟨r, b, older, hr, h.frame rfl hcommits h.agrees rfl (Or.inl rfl)⟩
      | true =>
        refine ⟨checkpoint completed now r, b, older, ?_, ?_⟩
        · simp only [if_true, hr, Option.map_some]
        · exact h.frame rfl hcommits (h.agrees.checkpoint completed) rfl (Or.inl rfl)
    | _ => exact ⟨r, b, older, hr, h.frame rfl hcommits h.agrees rfl (Or.inl rfl)⟩

end HistoryFits

/-- A revision of the build axis belongs to a block of its commit. -/
theorem HistoryFits.block {s : State} {r : Record} {b : Block} {older : List Block}
    (h : HistoryFits s r b older) {v : AutomationRevision} (hv : v ∈ r.revisions)
    (haxis : v.action.onBuildAxis = true) :
    ∃ c ∈ b :: older, v.gitSha = some c.sha ∧
      (v.action = .buildSucceeded → c.verdict = .succeeded ∨ c.verdict = .recovered) := by
  have hmem : v.event ∈ buildLog r.revisions :=
    List.mem_map_of_mem (List.mem_filter.mpr ⟨hv, haxis⟩)
  rw [h.agrees.log] at hmem
  exact mem_historyLog hmem

/-- A cutover is the first success of its commit. -/
theorem HistoryFits.first_success {s : State} {r : Record} {b : Block} {older : List Block}
    (h : HistoryFits s r b older) {event : CiWebhookIn} (hre : recheck r event.commitSha = none) :
    ∀ v ∈ r.revisions, v.action = .buildSucceeded → v.gitSha ≠ some event.commitSha := by
  intro v hv haction hsha
  obtain ⟨hb, hverdict⟩ := h.agrees.of_recheck hre
  obtain ⟨c, hc, hcs, hsucc⟩ := h.block hv (by rw [haction]; rfl)
  -- the block of this commit is the newest one, and it is not settled by a success
  have hsame : c.sha = b.sha := (Option.eq_some_unique hcs hsha).trans hb
  have hcb : c = b := by
    rcases List.mem_cons.mp hc with rfl | hc
    · rfl
    · have hnot := (List.nodup_cons.mp h.distinct).1
      exact absurd (hsame ▸ List.mem_map_of_mem hc) hnot
  rcases hsucc haction with hs | hs <;> rcases hverdict with hv | hv <;>
    simp [hcb, hv] at hs

/-- The commit of an edit still to finish has never been requested. -/
theorem HistoryFits.unrequested {s : State} {r : Record} {b : Block} {older : List Block}
    (h : HistoryFits s r b older) {p : ℕ} {claim : BuildClaim} {tenantId actor gitSha : String}
    {data : AutomationIn} (hp : s.edits p = .finishing claim tenantId data actor gitSha) :
    ∀ v ∈ r.revisions, v.action.onBuildAxis = true → v.gitSha ≠ some gitSha := by
  intro v hv haxis hsha
  obtain ⟨c, hc, hcs, -⟩ := h.block hv haxis
  have hnew := (h.unfinished p claim tenantId data actor gitSha hp).2 c hc
  exact hnew (Option.eq_some_unique hcs hsha)

/-- Every reachable row has a history. -/
theorem Reached.history {cfg : Config} {tr : Trace State Action} {s : State}
    (h : Reached cfg freshShas tr s) {r : Record} (hr : s.record = some r) :
    ∃ b older, HistoryFits s r b older := by
  refine h.invariant (I := fun s => ∀ r, s.record = some r → ∃ b older, HistoryFits s r b older)
    (fun world r hr => by simp [initial] at hr) ?_ r hr
  intro tr s now op s' hreach hs hfresh hlt _ hm r' hr'
  cases hrec : s.record with
  | some r =>
    obtain ⟨b, older, hfits⟩ := hs r hrec
    obtain ⟨r₁, b', older', h₁, hfits'⟩ := hfits.move hreach.fenced hreach.dated hlt hfresh hrec hm
    obtain rfl := Option.eq_some_unique h₁ hr'
    exact ⟨b', older', hfits'⟩
  | none =>
    have hfree := hreach.fenced.no_claim_of_none hrec
    rcases hm.row_of_none hrec with hnone | ⟨_, _, _, gitSha, _, rfl, _⟩
    · simp [hnone] at hr'
    cases hm with
    | refused hop => simp [Op.isRequest] at hop
    | created =>
      obtain rfl := Option.some.inj hr'
      refine ⟨⟨gitSha, .pending⟩, [], ⟨⟨rfl, rfl, ?_, ?_⟩, ?_, by simp, ?_, ?_⟩⟩
      · intro hb
        exact absurd rfl hb
      · intro sha hsha
        exact ⟨(Option.some.inj hsha).symm, rfl⟩
      · intro p claim hp
        change (s.edits p).claim? = some claim at hp
        rw [hfree p] at hp
        simp at hp
      · intro c hc
        obtain rfl := List.mem_singleton.mp hc
        exact List.mem_append_right _ (List.mem_singleton.mpr rfl)
      · intro p claim tenantId data actor sha hp
        change s.edits p = _ at hp
        have hclaim := hfree p
        rw [hp] at hclaim
        simp [Edit.claim?] at hclaim

end KeepAutomation
