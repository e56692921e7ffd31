import KeepAutomation.Wallet

/-! The row is the replay of its audit log: every audited column is a function of
the revisions in commit order, and the definition is the payload of the call that
wrote the newest create or edit. -/
namespace KeepAutomation

open TransitionSystem

/-- The transitions of the matching axis, which move the index generation. -/
def RevisionAction.onMatchingAxis : RevisionAction → Bool
  | .enable | .disable | .delete => true
  | _ => false

def RevisionAction.toggles : RevisionAction → Bool
  | .enable | .disable => true
  | _ => false

def RevisionAction.succeeds : RevisionAction → Bool
  | .buildSucceeded => true
  | _ => false

/-- The actions a user signs; the others are build outcomes. -/
def RevisionAction.human : RevisionAction → Bool
  | .buildSucceeded | .buildFailed => false
  | _ => true

/-- The newest revision of a kind, in commit order. -/
def newestOf (kind : RevisionAction → Bool) (revisions : List AutomationRevision) :
    Option AutomationRevision := (revisions.filter fun v => kind v.action).getLast?

section Newest

variable (kind : RevisionAction → Bool) (vs : List AutomationRevision)

theorem newestOf_concat (w : AutomationRevision) :
    newestOf kind (vs ++ [w]) = if kind w.action = true then some w else newestOf kind vs := by
  unfold newestOf
  rw [List.filter_append]
  by_cases hw : kind w.action = true
  · rw [if_pos hw, List.filter_cons, if_pos hw, List.filter_nil, List.getLast?_concat]
  · rw [if_neg hw, List.filter_cons, if_neg hw, List.filter_nil, List.append_nil]

variable {kind}

theorem newestOf_own {w : AutomationRevision} (hw : kind w.action = true) :
    newestOf kind (vs ++ [w]) = some w := by
  rw [newestOf_concat, if_pos hw]

theorem newestOf_other {w : AutomationRevision} (hw : kind w.action = false) :
    newestOf kind (vs ++ [w]) = newestOf kind vs := by
  rw [newestOf_concat, hw]
  rfl

variable (kind)

theorem newestOf_stamp (event : CiWebhookIn) :
    newestOf kind (vs.map (AutomationRevision.stamp event)) =
      (newestOf kind vs).map (AutomationRevision.stamp event) := by
  unfold newestOf
  have hkind : ((fun v : AutomationRevision => kind v.action) ∘ AutomationRevision.stamp event) =
      fun v => kind v.action := by
    funext v
    simp only [Function.comp, AutomationRevision.stamp_action]
  rw [List.filter_map, hkind, List.getLast?_map]

/-- The stamp touches no revision that requests nothing. -/
theorem newestOf_stamp_other (event : CiWebhookIn)
    (hkind : ∀ action, kind action = true → action.requesting = false) :
    newestOf kind (vs.map (AutomationRevision.stamp event)) = newestOf kind vs := by
  rw [newestOf_stamp]
  cases hv : newestOf kind vs with
  | none => rfl
  | some v =>
    have hmem : v ∈ vs.filter fun v => kind v.action := List.mem_of_getLast? hv
    have hreq := hkind _ (List.mem_filter.mp hmem).2
    rw [Option.map_some, AutomationRevision.stamp, if_neg (by simp [hreq])]

theorem countP_stamp (event : CiWebhookIn) :
    (vs.map (AutomationRevision.stamp event)).countP (fun v => kind v.action) =
      vs.countP fun v => kind v.action := by
  rw [List.countP_map]
  apply List.countP_congr
  intro v _
  simp only [Function.comp, AutomationRevision.stamp_action]

end Newest

/-- The matching state a live row has after its newest toggle; it is born inactive. -/
def matchingAfter : Option RevisionAction → MatchingState
  | some .enable => .active
  | _ => .inactive

/-- The columns that one pass over the log gives. -/
structure Ledger (r : Record) : Prop where
  generation : r.automation.indexGeneration =
    r.revisions.countP fun v => v.action.onMatchingAxis
  toggled : r.automation.matchingState ∉ deletionStates → r.automation.matchingState =
    matchingAfter ((newestOf RevisionAction.toggles r.revisions).map AutomationRevision.action)
  author : (newestOf RevisionAction.human r.revisions).map AutomationRevision.actor =
    some r.automation.updatedBy
  digest : r.automation.activeDigest =
    (newestOf RevisionAction.succeeds r.revisions).bind AutomationRevision.resultingDigest

namespace Ledger

variable {r r' : Record}

/-- A move that writes none of these columns and no revision. -/
theorem same (h : Ledger r) (hrev : r'.revisions = r.revisions)
    (hgeneration : r'.automation.indexGeneration = r.automation.indexGeneration)
    (hstate : r'.automation.matchingState ∉ deletionStates →
      r'.automation.matchingState = r.automation.matchingState)
    (hauthor : r'.automation.updatedBy = r.automation.updatedBy)
    (hdigest : r'.automation.activeDigest = r.automation.activeDigest) : Ledger r' := by
  refine ⟨?_, ?_, ?_, ?_⟩
  · rw [hgeneration, hrev, h.generation]
  · intro hlive
    have hsame := hstate hlive
    rw [hsame] at hlive ⊢
    rw [h.toggled hlive, hrev]
  · rw [hrev, hauthor, h.author]
  · rw [hrev, hdigest, h.digest]

/-- A transition of the matching axis. -/
theorem transition (h : Ledger r) (target : MatchingState) (action : RevisionAction)
    (haxis : action.onMatchingAxis = true) (hhuman : action.human = true)
    (hsucceeds : action.succeeds = false)
    (htarget : target ∉ deletionStates → action.toggles = true ∧
      target = matchingAfter (some action)) (actor : String) (now : Timestamp) :
    Ledger (r.transition target action actor now) := by
  refine ⟨?_, ?_, ?_, ?_⟩
  · simp only [Record.transition, List.countP_append, List.countP_singleton, haxis, if_true,
      h.generation]
  · intro hlive
    obtain ⟨htoggles, htarget⟩ := htarget hlive
    simp only [Record.transition]
    rw [newestOf_own _ htoggles]
    exact htarget
  · simp only [Record.transition]
    rw [newestOf_own _ hhuman]
    rfl
  · simp only [Record.transition]
    rw [newestOf_other _ hsucceeds]
    exact h.digest

theorem edited (h : Ledger r) (data : AutomationIn) (actor gitSha : String) (now : Timestamp) :
    Ledger (r.edited data actor gitSha now) := by
  refine ⟨?_, ?_, ?_, ?_⟩
  · simp only [Record.edited, List.countP_append]
    exact h.generation
  · intro hlive
    simp only [Record.edited]
    rw [newestOf_other _ rfl]
    exact h.toggled hlive
  · simp only [Record.edited]
    rw [newestOf_own _ rfl]
    rfl
  · simp only [Record.edited]
    rw [newestOf_other _ rfl]
    exact h.digest

theorem failBuild (h : Ledger r) (event : CiWebhookIn) (now : Timestamp) :
    Ledger (failBuild r event now) := by
  refine ⟨?_, ?_, ?_, ?_⟩
  · simp only [KeepAutomation.failBuild, List.countP_append]
    exact h.generation
  · intro hlive
    simp only [KeepAutomation.failBuild]
    rw [newestOf_other _ rfl]
    exact h.toggled hlive
  · simp only [KeepAutomation.failBuild]
    rw [newestOf_other _ rfl]
    exact h.author
  · simp only [KeepAutomation.failBuild]
    rw [newestOf_other _ rfl]
    exact h.digest

/-- A cutover also stamps older revisions, but none of those the columns read. -/
theorem cutOver (h : Ledger r) (event : CiWebhookIn) (created : Option CappDeployment)
    (now : Timestamp) : Ledger (cutOver r event created now) := by
  refine ⟨?_, ?_, ?_, ?_⟩
  · simp only [KeepAutomation.cutOver, List.countP_append, countP_stamp]
    exact h.generation
  · intro hlive
    simp only [KeepAutomation.cutOver]
    rw [newestOf_other _ rfl, newestOf_stamp_other _ _ _ (by intro a; cases a <;> decide)]
    exact h.toggled hlive
  · have hactor : AutomationRevision.actor ∘ AutomationRevision.stamp event =
        AutomationRevision.actor := by
      funext v
      exact AutomationRevision.stamp_actor event v
    simp only [KeepAutomation.cutOver]
    rw [newestOf_other _ rfl, newestOf_stamp, Option.map_map, hactor]
    exact h.author
  · simp only [KeepAutomation.cutOver]
    rw [newestOf_own _ rfl]
    rfl

end Ledger

/-- The step lemma: each of the operations writes its columns and its revision
together. -/
theorem RowMove.ledger {s : State} {now : Timestamp} {r r' : Record} {op : Op}
    (h : RowMove s now r op r') (hl : Ledger r) : Ledger r' := by
  cases h with
  | same => exact hl
  | enabled => exact hl.transition .active .enable rfl rfl rfl (fun _ => ⟨rfl, rfl⟩) _ _
  | disabled => exact hl.transition .inactive .disable rfl rfl rfl (fun _ => ⟨rfl, rfl⟩) _ _
  | @deleteAdmitted tenantId actor =>
    have hmarked : Ledger (r.transition .deleting .delete actor now) :=
      hl.transition .deleting .delete rfl rfl rfl (fun hlive => absurd (by decide) hlive) _ _
    exact hmarked.same rfl rfl (fun _ => rfl) rfl rfl
  | claimed => exact hl.same rfl rfl (fun _ => rfl) rfl rfl
  | @released p claim =>
    obtain ⟨_, _, _, he⟩ := releaseBuildClaim_frame claim r
    rw [he]
    exact hl.same rfl rfl (fun _ => rfl) rfl rfl
  | edited => exact hl.edited _ _ _ _
  | cutOver => exact hl.cutOver _ _ _
  | buildFailed => exact hl.failBuild _ _
  | @checkpointed p a n completed =>
    rcases checkpoint_cases completed now r with he | ⟨hdel, -, he⟩
    · rw [he]
      exact hl
    · rw [he]
      refine hl.same rfl rfl ?_ rfl rfl
      intro hlive
      dsimp only at hlive ⊢
      split
      · next hlast => simp [hlast] at hlive
      · exact hdel.symm

theorem Reached.ledger {cfg : Config} {E : State → Action → Prop} {tr : Trace State Action}
    {s : State} (h : Reached cfg E tr s) {r : Record} (hr : s.record = some r) : Ledger r := by
  refine h.row_invariant ?_ ?_ hr
  · intro tenantId data actor gitSha deadline now
    exact ⟨rfl, fun _ => rfl, rfl, rfl⟩
  · intro tr s now op r r' _ _ _ hrow hledger
    exact hrow.ledger hledger

/-- A create or edit carries the digest of the success of its commit, or none. -/
def ResultsMatch (vs : List AutomationRevision) : Prop :=
  ∀ v ∈ vs, v.action.requesting = true →
    (∀ u ∈ vs, u.action = .buildSucceeded → u.gitSha = v.gitSha →
      v.resultingDigest = u.resultingDigest) ∧
    ((∀ u ∈ vs, u.action = .buildSucceeded → u.gitSha ≠ v.gitSha) → v.resultingDigest = none)

namespace ResultsMatch

variable {vs : List AutomationRevision} {w : AutomationRevision}

theorem other (h : ResultsMatch vs) (hreq : w.action.requesting = false)
    (hsucc : w.action ≠ .buildSucceeded) : ResultsMatch (vs ++ [w]) := by
  intro v hv hvreq
  rcases List.mem_append.mp hv with hv | hv
  · obtain ⟨hsome, hnone⟩ := h v hv hvreq
    constructor
    · intro u hu haction hsha
      rcases List.mem_append.mp hu with hu | hu
      · exact hsome u hu haction hsha
      · rw [List.mem_singleton.mp hu] at haction
        exact absurd haction hsucc
    · intro hall
      exact hnone fun u hu => hall u (List.mem_append_left _ hu)
  · rw [List.mem_singleton.mp hv, hreq] at hvreq
    simp at hvreq

/-- A request for a commit that has no success. -/
theorem request (h : ResultsMatch vs) (hreq : w.action.requesting = true)
    (hdigest : w.resultingDigest = none)
    (hnew : ∀ u ∈ vs, u.action = .buildSucceeded → u.gitSha ≠ w.gitSha) :
    ResultsMatch (vs ++ [w]) := by
  have hnot : w.action ≠ .buildSucceeded := by
    intro haction
    rw [haction] at hreq
    simp [RevisionAction.requesting] at hreq
  have hback : ∀ u ∈ vs ++ [w], u.action = .buildSucceeded → u ∈ vs := by
    intro u hu haction
    rcases List.mem_append.mp hu with hu | hu
    · exact hu
    · rw [List.mem_singleton.mp hu] at haction
      exact absurd haction hnot
  intro v hv hvreq
  rcases List.mem_append.mp hv with hv | hv
  · obtain ⟨hsome, hnone⟩ := h v hv hvreq
    exact ⟨fun u hu haction => hsome u (hback u hu haction) haction,
      fun hall => hnone fun u hu => hall u (List.mem_append_left _ hu)⟩
  · rw [List.mem_singleton.mp hv]
    exact ⟨fun u hu haction hsha => absurd hsha (hnew u (hback u hu haction) haction),
      fun _ => hdigest⟩

/-- The first success of a commit, with the stamp on what requested it. -/
theorem success (h : ResultsMatch vs) (event : CiWebhookIn) (now : Timestamp)
    (hfirst : ∀ u ∈ vs, u.action = .buildSucceeded → u.gitSha ≠ some event.commitSha) :
    ResultsMatch (vs.map (AutomationRevision.stamp event) ++
      [buildRevision event .buildSucceeded event.image now]) := by
  have hkeeps : ∀ u : AutomationRevision, u.action = .buildSucceeded → u.stamp event = u := by
    intro u haction
    rw [AutomationRevision.stamp, if_neg (by simp [haction, RevisionAction.requesting])]
  intro v' hv' hreq
  rcases List.mem_append.mp hv' with hv' | hv'
  · obtain ⟨v, hv, rfl⟩ := List.mem_map.mp hv'
    rw [AutomationRevision.stamp_action] at hreq
    rw [AutomationRevision.stamp_gitSha]
    by_cases hsha : v.gitSha = some event.commitSha
    · -- a stamped request: its success is the one just recorded
      have hdigest : (v.stamp event).resultingDigest = event.image := by
        rw [AutomationRevision.stamp, if_pos ⟨hsha, hreq⟩]
      rw [hdigest]
      constructor
      · intro u' hu' haction hsame
        rcases List.mem_append.mp hu' with hu' | hu'
        · obtain ⟨u, hu, rfl⟩ := List.mem_map.mp hu'
          rw [AutomationRevision.stamp_action] at haction
          rw [AutomationRevision.stamp_gitSha] at hsame
          exact absurd (hsame.trans hsha) (hfirst u hu haction)
        · rw [List.mem_singleton.mp hu']
          rfl
      · intro hall
        have hlast := hall _ (List.mem_append_right _ (List.mem_singleton_self _)) rfl
        exact absurd hsha.symm hlast
    · -- another request: nothing about its commit has changed
      obtain ⟨hsome, hnone⟩ := h v hv hreq
      have hsame : v.stamp event = v := by
        rw [AutomationRevision.stamp, if_neg (fun hm => hsha hm.1)]
      rw [hsame]
      constructor
      · intro u' hu' haction hgit
        rcases List.mem_append.mp hu' with hu' | hu'
        · obtain ⟨u, hu, rfl⟩ := List.mem_map.mp hu'
          rw [AutomationRevision.stamp_action] at haction
          rw [hkeeps u haction] at hgit ⊢
          exact hsome u hu haction hgit
        · rw [List.mem_singleton.mp hu'] at hgit
          exact absurd hgit.symm hsha
      · intro hall
        apply hnone
        intro u hu haction
        have hmem := List.mem_append_left [buildRevision event .buildSucceeded event.image now]
          (List.mem_map_of_mem (f := AutomationRevision.stamp event) hu)
        rw [hkeeps u haction] at hmem
        exact hall u hmem haction
  · rw [List.mem_singleton.mp hv'] at hreq
    simp [buildRevision, RevisionAction.requesting] at hreq

end ResultsMatch

/-- Under fresh commits every request carries the result of its own build. -/
theorem Reached.results {cfg : Config} {tr : Trace State Action} {s : State}
    (h : Reached cfg freshShas tr s) {r : Record} (hr : s.record = some r) :
    ResultsMatch r.revisions := by
  refine h.row_invariant (P := fun r => ResultsMatch r.revisions) ?_ ?_ hr
  · intro tenantId data actor gitSha deadline now
    have hempty : ResultsMatch [] := fun v hv => absurd hv List.not_mem_nil
    exact hempty.request rfl rfl fun u hu => absurd hu List.not_mem_nil
  · intro tr s now op r r' hreach _ hrec hrow hprev
    obtain ⟨b, older, hfits⟩ := hreach.history hrec
    -- only a new request and a success touch what requests carry
    cases hrow with
    | same => exact hprev
    | enabled => exact hprev.other rfl (by simp)
    | disabled => exact hprev.other rfl (by simp)
    | deleteAdmitted => exact hprev.other rfl (by simp)
    | claimed => exact hprev
    | @released p claim =>
      obtain ⟨_, _, _, he⟩ := releaseBuildClaim_frame claim r
      rw [he]
      exact hprev
    | edited hp _ =>
      refine hprev.request rfl rfl ?_
      intro u hu haction
      exact hfits.unrequested hp u hu (by rw [haction]; rfl)
    | @cutOver p event target created _ hre => exact hprev.success event now (hfits.first_success hre)
    | buildFailed => exact hprev.other rfl (by simp [buildRevision])
    | @checkpointed p a n completed =>
      obtain ⟨_, _, _, he⟩ := checkpoint_frame completed now r
      rw [he]
      exact hprev

/-- The build columns the newest revision of the build axis leaves. -/
def buildAfter : Option BuildEvent → BuildState × Option String
  | some (.buildSucceeded, _) => (.idle, none)
  | some (.buildFailed, _) => (.buildFailed, none)
  | some (_, gitSha) => (.building, gitSha)
  | none => (.idle, none)

/-- The build columns as the log gives them. -/
def buildReplay (vs : List AutomationRevision) : BuildState × Option String :=
  buildAfter ((newestOf RevisionAction.onBuildAxis vs).map AutomationRevision.event)

/-- The history says how the newest block stands. -/
theorem Agrees.buildReplay {r : Record} {b : Block} {older : List Block} (h : Agrees r b older) :
    buildReplay r.revisions =
      (b.verdict.buildState, if b.verdict = .pending then some b.sha else none) := by
  have hlog : (newestOf RevisionAction.onBuildAxis r.revisions).map AutomationRevision.event =
      (historyLog (b :: older)).getLast? := by
    rw [← h.log, newestOf, buildLog, List.getLast?_map]
  rw [KeepAutomation.buildReplay, hlog, historyLog, Block.events]
  cases hv : b.verdict with
  | pending =>
    rw [Verdict.events, List.getLast?_concat]
    split <;> rfl
  | failed =>
    rw [Verdict.events, List.getLast?_append]
    rfl
  | succeeded =>
    rw [Verdict.events, List.getLast?_append]
    rfl
  | recovered =>
    rw [Verdict.events, List.getLast?_append]
    rfl

theorem Verdict.settled {v : Verdict} (h : v.buildState ≠ .building) : v ≠ .pending := by
  rintro rfl
  exact h rfl

/-- The build columns are those of the log, unless an edit's claim is on the row;
the claim remembers those of the log. -/
theorem Reached.build_replay {cfg : Config} {tr : Trace State Action} {s : State}
    (h : Reached cfg freshShas tr s) {r : Record} (hr : s.record = some r) :
    ((r.automation.buildState, r.automation.buildingSha) = buildReplay r.revisions ∨
      (r.automation.buildState = .building ∧ r.automation.buildingSha = none)) ∧
    ∀ p claim, (s.edits p).claim? = some claim →
      (claim.previousBuildState, claim.previousBuildingSha) = buildReplay r.revisions := by
  obtain ⟨b, older, hfits⟩ := h.history hr
  have hagrees := hfits.agrees
  rw [hagrees.buildReplay]
  constructor
  · by_cases hbuild : r.automation.buildState = .building
    · cases hsha : r.automation.buildingSha with
      | none => exact Or.inr ⟨hbuild, rfl⟩
      | some sha =>
        obtain ⟨rfl, hpending⟩ := hagrees.pending sha hsha
        left
        rw [hbuild, hpending]
        rfl
    · left
      have hstate := hagrees.settled hbuild
      have hsha := ((h.fenced.coherent r hr).settled hbuild).2
      have hnot : b.verdict ≠ .pending := Verdict.settled (hstate ▸ hbuild)
      rw [hstate, hsha, if_neg hnot]
  · intro p claim hclaim
    obtain ⟨r₁, h₁, hholds⟩ := h.fenced.holds p claim hclaim
    have hstate := hfits.previous p claim hclaim
    have hnot : b.verdict ≠ .pending := Verdict.settled (hstate ▸ hholds.previous)
    rw [hstate, hholds.previousSha, if_neg hnot]

/-- The definition columns. -/
structure Definition where
  name : String
  nameSpace : String
  triggers : List Json
  secretName : Option String
  cooldownSeconds : Option ℤ
  cooldownFields : Option (List Json)
  timeoutSeconds : Option ℤ
  graceSeconds : ℤ
  logstashUrl : Option String

def Automation.definition (a : Automation) : Definition where
  name := a.name
  nameSpace := a.nameSpace
  triggers := a.triggers
  secretName := a.secretName
  cooldownSeconds := a.cooldownSeconds
  cooldownFields := a.cooldownFields
  timeoutSeconds := a.timeoutSeconds
  graceSeconds := a.graceSeconds
  logstashUrl := a.logstashUrl

/-- The definition a payload asks for, with the defaults filled in. -/
def AutomationIn.definition (data : AutomationIn) : Definition where
  name := data.name
  nameSpace := data.nameSpace
  triggers := data.triggers
  secretName := data.secretName
  cooldownSeconds := data.cooldownSeconds
  cooldownFields := data.cooldownFields
  timeoutSeconds := some (orDefault data.timeoutSeconds timeoutSecondsDefault)
  graceSeconds := orDefault data.graceSeconds graceSecondsDefault
  logstashUrl := data.logstashUrl

/-- The payload of the create, or of the edit that finishes, in this operation. -/
def Op.payload? (s : State) : Op → Option AutomationIn
  | .create _ data _ _ _ => some data
  | .edit p (.finish _) => (s.edits p).data?
  | _ => none

/-- The transition appends this revision to the log. -/
def Appends (w : AutomationRevision) (t : Transition State Action) : Prop :=
  ∃ r', t.post.record = some r' ∧
    r'.revisions = ((t.pre.record.map Record.revisions).getD []) ++ [w]

/-- The definition is the payload of the one call that wrote the newest request
in the log; a later success may have stamped that revision's digest. -/
def DefinedBy (tr : Trace State Action) (r : Record) : Prop :=
  ∃ t ∈ tr, ∃ data w v, t.act.op.payload? t.pre = some data ∧ Appends w t ∧
    newestOf RevisionAction.requesting r.revisions = some v ∧
    v = { w with resultingDigest := v.resultingDigest } ∧
    r.automation.definition = data.definition ∧ ∀ t' ∈ tr, Appends w t' → t' = t

/-- A move writes the definition with its revision, or leaves both. -/
theorem RowMove.definition {s : State} {now : Timestamp} {r r' : Record} {op : Op}
    (h : RowMove s now r op r') :
    (r'.automation.definition = r.automation.definition ∧
      (newestOf RevisionAction.requesting r'.revisions =
          newestOf RevisionAction.requesting r.revisions ∨
        ∃ event, newestOf RevisionAction.requesting r'.revisions =
          (newestOf RevisionAction.requesting r.revisions).map (AutomationRevision.stamp event))) ∨
      ∃ p claim tenantId data actor gitSha, op = .edit p (.finish none) ∧
        s.edits p = .finishing claim tenantId data actor gitSha ∧
        r' = r.edited data actor gitSha now := by
  cases h with
  | same => exact Or.inl ⟨rfl, Or.inl rfl⟩
  | enabled => exact Or.inl ⟨rfl, Or.inl (newestOf_other _ rfl)⟩
  | disabled => exact Or.inl ⟨rfl, Or.inl (newestOf_other _ rfl)⟩
  | deleteAdmitted => exact Or.inl ⟨rfl, Or.inl (newestOf_other _ rfl)⟩
  | claimed => exact Or.inl ⟨rfl, Or.inl rfl⟩
  | @released p claim =>
    left
    obtain ⟨_, _, _, he⟩ := releaseBuildClaim_frame claim r
    rw [he]
    exact ⟨rfl, Or.inl rfl⟩
  | @edited p claim tenantId data actor gitSha hp hheld =>
    exact Or.inr ⟨p, claim, tenantId, data, actor, gitSha, rfl, hp, rfl⟩
  | @cutOver p event =>
    refine Or.inl ⟨rfl, Or.inr ⟨event, ?_⟩⟩
    simp only [KeepAutomation.cutOver]
    rw [newestOf_other _ rfl, newestOf_stamp]
  | buildFailed => exact Or.inl ⟨rfl, Or.inl (newestOf_other _ rfl)⟩
  | @checkpointed p a n completed =>
    left
    obtain ⟨_, _, _, he⟩ := checkpoint_frame completed now r
    rw [he]
    exact ⟨rfl, Or.inl rfl⟩

/-- A revision is dated at the transition that appends it. -/
theorem Appends.createdAt {cfg : Config} {w : AutomationRevision} {t : Transition State Action}
    (h : Appends w t) (hstep : step cfg t.pre t.act = some t.post) : w.createdAt = t.act.now := by
  obtain ⟨r', hr', hrev⟩ := h
  obtain ⟨-, -, hm⟩ := step_move hstep
  rcases hm.row_after hr' with ⟨hrec, _, _, _, _, _, -, rfl⟩ | ⟨r, hrec, hrow⟩
  · rw [hrec] at hrev
    have hw : [w] = _ := hrev.symm
    rw [List.singleton_inj.mp hw]
  · rw [hrec] at hrev
    simp only [Option.map_some, Option.getD_some] at hrev
    rcases hrow.revisions with he | ⟨w', hw', he | ⟨event, he⟩⟩
    · have hlength := congrArg List.length (he.symm.trans hrev)
      simp at hlength
    · obtain ⟨-, hsame⟩ := List.append_inj' (he.symm.trans hrev) rfl
      rw [← List.singleton_inj.mp hsame, hw']
    · obtain ⟨-, hsame⟩ := List.append_inj' (he.symm.trans hrev) rfl
      rw [← List.singleton_inj.mp hsame, hw']

/-- Time moves with every transition, so two transitions at one time are one. -/
theorem time_unique {cfg : Config} {E : State → Action → Prop} {s₀ s : State}
    {tr : Trace State Action} (h : SystemRun cfg E s₀ tr s) :
    (∀ t ∈ tr, t.act.now ≤ s.clock) ∧
      ∀ t ∈ tr, ∀ t' ∈ tr, t.act.now = t'.act.now → t = t' := by
  induction h with
  | nil => simp
  | snoc _ _ hstep ih =>
    obtain ⟨hpast, hunique⟩ := ih
    obtain ⟨hlt, hclock, -⟩ := step_move hstep
    constructor
    · intro t ht
      rw [hclock]
      rcases List.mem_cons.mp ht with rfl | ht
      · exact le_rfl
      · exact (hpast t ht).trans hlt.le
    · intro t ht t' ht' hsame
      rcases List.mem_cons.mp ht with rfl | ht <;> rcases List.mem_cons.mp ht' with rfl | ht'
      · rfl
      · have hbefore := hsame.le.trans (hpast t' ht')
        exact absurd hlt hbefore.not_gt
      · have hbefore := hsame.ge.trans (hpast t ht)
        exact absurd hlt hbefore.not_gt
      · exact hunique t ht t' ht' hsame

/-- A row is defined by the call its log names. -/
theorem Reached.definedBy {cfg : Config} {E : State → Action → Prop} {tr : Trace State Action}
    {s : State} (h : Reached cfg E tr s) {r : Record} (hr : s.record = some r) : DefinedBy tr r := by
  obtain ⟨world, hrun⟩ := h
  refine hrun.history (P := fun tr s => ∀ r, s.record = some r → DefinedBy tr r)
    (fun r hr => by simp [initial] at hr) ?_ r hr
  intro tr s act s' hbefore hs hact hstep r' hr'
  obtain ⟨-, -, hm⟩ := step_move hstep
  have hall := Run.snoc hbefore hact hstep
  -- one revision is appended by one transition, that of its date
  have hone : ∀ t ∈ ⟨s, act, s'⟩ :: tr, ∀ w, Appends w t →
      ∀ t' ∈ ⟨s, act, s'⟩ :: tr, Appends w t' → t' = t := by
    intro t ht w hw t' ht' hw'
    have hdate := hw.createdAt (hall.transition ht).2.1
    have hdate' := hw'.createdAt (hall.transition ht').2.1
    exact (time_unique hall).2 t' ht' t ht (hdate'.symm.trans hdate)
  rcases hm.row_after hr' with ⟨hrec, tenantId, data, actor, gitSha, deadline, hop, rfl⟩ |
    ⟨r, hrec, hrow⟩
  · have happ : Appends _ (⟨s, act, s'⟩ : Transition State Action) :=
      ⟨_, hr', by rw [hrec]; rfl⟩
    refine ⟨_, List.mem_cons_self .., data, _, _, ?_, happ, rfl, rfl, rfl,
      hone _ (List.mem_cons_self ..) _ happ⟩
    rw [hop]
    rfl
  · rcases hrow.definition with ⟨hsame, hnewest⟩ | ⟨p, claim, tenantId, data, actor, gitSha, hop, hp, rfl⟩
    · obtain ⟨t, ht, data, w, v, hpayload, happ, hv, hvw, hdefinition, -⟩ := hs r hrec
      have hold := List.mem_cons_of_mem (⟨s, act, s'⟩ : Transition State Action) ht
      rcases hnewest with hnewest | ⟨event, hnewest⟩
      · exact ⟨t, hold, data, w, v, hpayload, happ, hnewest.trans hv, hvw, hsame.trans hdefinition,
          hone t hold w happ⟩
      · refine ⟨t, hold, data, w, v.stamp event, hpayload, happ, ?_, ?_, hsame.trans hdefinition,
          hone t hold w happ⟩
        · rw [hnewest, hv, Option.map_some]
        · rw [hvw]
          unfold AutomationRevision.stamp
          split
          · rfl
          · rfl
    · have happ : Appends _ (⟨s, act, s'⟩ : Transition State Action) :=
        ⟨_, hr', by rw [hrec]; rfl⟩
      refine ⟨_, List.mem_cons_self .., data, _, _, ?_, happ, newestOf_own _ rfl, rfl, rfl,
        hone _ (List.mem_cons_self ..) _ happ⟩
      rw [hop]
      simp only [Op.payload?, hp, Edit.data?]

/-- The row as its audit log replays it. -/
structure Replays (tr : Trace State Action) (s : State) (r : Record) : Prop where
  generation : r.automation.indexGeneration =
    r.revisions.countP fun v => v.action = .enable ∨ v.action = .disable ∨ v.action = .delete
  deleteLast : ∀ us v ws, r.revisions = us ++ v :: ws → v.action = .delete → ws = []
  deleting : (∃ v ∈ r.revisions, v.action = .delete) →
    r.automation.matchingState = .deleting ∨ r.automation.matchingState = .deleted
  live : (∀ v ∈ r.revisions, v.action ≠ .delete) → r.automation.matchingState =
    matchingAfter ((newestOf RevisionAction.toggles r.revisions).map AutomationRevision.action)
  author : (newestOf RevisionAction.human r.revisions).map AutomationRevision.actor =
    some r.automation.updatedBy
  digest : r.automation.activeDigest =
    (newestOf RevisionAction.succeeds r.revisions).bind AutomationRevision.resultingDigest
  results : ResultsMatch r.revisions
  definedBy : DefinedBy tr r
  build : (r.automation.buildState, r.automation.buildingSha) = buildReplay r.revisions ∨
    (r.automation.buildState = .building ∧ r.automation.buildingSha = none)
  claims : ∀ p claim, (s.edits p).claim? = some claim →
    (claim.previousBuildState, claim.previousBuildingSha) = buildReplay r.revisions

/-- The row is the replay of its audit log, whatever calls interleave, fail or
crash, as long as no commit sha repeats. -/
theorem row_is_replay (cfg : Config) (tr : Trace State Action) (s : State) (r : Record)
    (h : Reached cfg freshShas tr s) (hr : s.record = some r) : Replays tr s r := by
  have hledger := h.ledger hr
  have hdelete := h.deleteLogged hr
  obtain ⟨hbuild, hclaims⟩ := h.build_replay hr
  -- a delete revision and a row in deletion imply each other
  have hin : (∃ v ∈ r.revisions, v.action = .delete) → r.automation.matchingState ∈ deletionStates := by
    rintro ⟨v, hv, haction⟩
    by_contra hlive
    exact hdelete.live hlive v hv haction
  refine ⟨?_, ?_, fun hv => (mem_deletionStates _).mp (hin hv), ?_, hledger.author, hledger.digest,
    h.results hr, h.definedBy hr, hbuild, hclaims⟩
  · rw [hledger.generation]
    apply List.countP_congr
    intro v _
    cases v.action <;> decide
  · intro us v ws hrev haction
    have hmem : v ∈ r.revisions := by
      rw [hrev]
      exact List.mem_append_right _ (List.mem_cons_self ..)
    obtain ⟨vs, u, hlast, -, -, hothers⟩ := hdelete.deleting (hin ⟨v, hmem, haction⟩)
    rcases List.eq_nil_or_concat ws with rfl | ⟨ws', w, rfl⟩
    · rfl
    · -- a delete before the last revision is one of the others
      have hsplit : vs ++ [u] = (us ++ v :: ws') ++ [w] := by
        rw [← hlast, hrev]
        simp
      obtain ⟨hvs, -⟩ := List.append_inj' hsplit rfl
      have hother : v ∈ vs := by
        rw [hvs]
        exact List.mem_append_right _ (List.mem_cons_self ..)
      exact absurd haction (hothers v hother)
  · intro hnone
    apply hledger.toggled
    intro hdel
    obtain ⟨vs, u, hlast, haction, -⟩ := hdelete.deleting hdel
    refine hnone u ?_ haction
    rw [hlast]
    exact List.mem_append_right _ (List.mem_singleton_self _)

theorem row_is_replay_sample : ∃ s r,
    Reached sampleConfig freshShas (sampleTrace deletionOps) s ∧ s.record = some r ∧
      Replays (sampleTrace deletionOps) s r := by
  obtain ⟨s, hs, r, hr, -⟩ := run_of_runSample (E := freshShas) deletionOps
    (fun s => ∃ r ∈ s.record, r.automation.matchingState = .deleted)
    (by decide +kernel) (by decide +kernel)
  have hreach : Reached sampleConfig freshShas _ s := ⟨sampleWorld, hs⟩
  exact ⟨s, r, hreach, hr, row_is_replay sampleConfig _ s r hreach hr⟩

end KeepAutomation
