import KeepAutomation.AuditReplay
import KeepAutomation.DeletionProgress
import KeepAutomation.UserTier

/-! The scripts in git beside the row that names them. The row of an edit is
written after its commit, and a commit whose answer never came may still land, so
that the head of the branch and the definition on the row can part. -/
namespace KeepAutomation

open TransitionSystem

/-- A commit on the scripts branch; `answered` if the service got its sha. -/
structure ScriptCommit where
  path : String
  sha : String
  content : String
  answered : Bool
  deriving DecidableEq, Repr

/-- The service and the scripts branch, oldest commit first. A call of
`_bounded` that times out is let go and not cancelled: what it was to write, by
path and content, is `unanswered` and may land at any later time. -/
structure Scripts where
  service : State
  commits : List ScriptCommit
  unanswered : List (String × String)

inductive ScriptsOp where
  | call (a : Action)
  | land (path content sha : String)

/-- What `commit_script` writes in this operation, with the sha it returns. -/
def scriptCommits (cfg : Config) (s : State) : Op → List ScriptCommit
  | .create _ data _ gitSha _ => [⟨scriptPathFor cfg.automationId, gitSha, data.script, true⟩]
  | .edit p (.commit gitSha) =>
    match s.edits p with
    | .committing claim _ data _ => [⟨claim.scriptPath, gitSha, data.script, true⟩]
    | _ => []
  | _ => []

/-- What a `commit_script` that raises was to write. -/
def scriptsGivenUp (s : State) : Op → List (String × String)
  | .edit p .commitFails =>
    match s.edits p with
    | .committing claim _ data _ => [(claim.scriptPath, data.script)]
    | _ => []
  | _ => []

def scriptsStep (cfg : Config) (s : Scripts) : ScriptsOp → Option Scripts
  | .call a => (step cfg s.service a).map fun service => {
      service := service
      commits := s.commits ++ scriptCommits cfg s.service a.op
      unanswered := s.unanswered ++ scriptsGivenUp s.service a.op }
  | .land path content sha =>
    if (path, content) ∈ s.unanswered then some { s with
      commits := s.commits ++ [⟨path, sha, content, false⟩]
      unanswered := s.unanswered.erase (path, content) }
    else none

def noScripts (world : World) : Scripts where
  service := initial world
  commits := []
  unanswered := []

abbrev ScriptsRun (cfg : Config) (world : World) (tr : Trace Scripts ScriptsOp) (s : Scripts) : Prop :=
  Run (scriptsStep cfg) (fun _ _ => True) (noScripts world) tr s

/-- The last commit that writes a path. -/
def Scripts.head (s : Scripts) (path : String) : Option ScriptCommit :=
  s.commits.reverse.find? fun c => c.path = path

/-- `GET` of the automation: the row as it is in `s`, and the branch as it is when
the session has been closed. -/
def Scripts.get (s branch : Scripts) (tenantId : String) : Except Error Result :=
  (getAutomation tenantId false (fun path => .ok ((branch.head path).map ScriptCommit.content))
    s.service.toShared).1

/-- The steps of the service, newest first. -/
def serviceTrace (tr : Trace Scripts ScriptsOp) : Trace State Action :=
  tr.filterMap fun t =>
    match t.act with
    | .call a => some ⟨t.pre.service, a, t.post.service⟩
    | .land _ _ _ => none

/-- The payload of the create or of the edit that succeeds in this step. -/
def accepted? (t : Transition State Action) : Option AutomationIn :=
  match t.act.op with
  | .create _ data _ _ _ => some data
  | .edit p (.finish none) =>
    match t.pre.edits p, t.post.edits p with
    | .finishing _ _ data _ _, .returned => some data
    | _, _ => none
  | _ => none

def lastAccepted (tr : Trace State Action) : Option AutomationIn := tr.findSome? accepted?

/-- The commit is at the head of its path, or under one that nobody waited for. -/
def Scripts.Heads (s : Scripts) (c : ScriptCommit) : Prop :=
  s.head c.path = some c ∨ ∃ d, s.head c.path = some d ∧ d.answered = false

section Head

variable {s s' : Scripts} {c d : ScriptCommit}

theorem Scripts.head_append (hcommits : s'.commits = s.commits ++ [d]) (path : String) :
    s'.head path = if d.path = path then some d else s.head path := by
  unfold Scripts.head
  rw [hcommits, List.reverse_append, List.reverse_singleton, List.singleton_append, List.find?_cons]
  by_cases hpath : d.path = path
  · rw [if_pos hpath, decide_eq_true hpath]
  · rw [if_neg hpath, decide_eq_false hpath]

/-- The head of a path is the old one, or one of the commits that came on top. -/
theorem Scripts.head_of_append {ks : List ScriptCommit} (hcommits : s'.commits = s.commits ++ ks)
    (path : String) : s'.head path = s.head path ∨ ∃ d ∈ ks, d.path = path ∧ s'.head path = some d := by
  unfold Scripts.head
  rw [hcommits, List.reverse_append, List.find?_append]
  cases hfind : ks.reverse.find? fun c => decide (c.path = path) with
  | none => exact Or.inl rfl
  | some d =>
    have hfound := List.find?_some hfind
    exact Or.inr ⟨d, List.mem_reverse.mp (List.mem_of_find?_eq_some hfind), of_decide_eq_true hfound, rfl⟩

/-- The head of a path is a commit on the branch that writes it. -/
theorem Scripts.mem_of_head {path : String} (h : s.head path = some d) :
    d ∈ s.commits ∧ d.path = path := by
  have hfound := List.find?_some h
  exact ⟨List.mem_reverse.mp (List.mem_of_find?_eq_some h), of_decide_eq_true hfound⟩

theorem Scripts.Heads.same (h : s.Heads c) (hcommits : s'.commits = s.commits) : s'.Heads c := by
  unfold Scripts.Heads Scripts.head at h ⊢
  rw [hcommits]
  exact h

theorem Scripts.heads_last (hcommits : s'.commits = s.commits ++ [c]) : s'.Heads c := by
  left
  rw [Scripts.head_append hcommits, if_pos rfl]

/-- A commit that lands late may cover the head, and is seen to. -/
theorem Scripts.Heads.land (h : s.Heads c) (hcommits : s'.commits = s.commits ++ [d])
    (hlate : d.answered = false) : s'.Heads c := by
  unfold Scripts.Heads
  rw [Scripts.head_append hcommits]
  by_cases hpath : d.path = c.path
  · rw [if_pos hpath]
    exact Or.inr ⟨d, rfl, hlate⟩
  · rw [if_neg hpath]
    exact h

end Head

/-- The row is under a claim that has no commit yet. -/
def Unfinished (a : Automation) : Prop := a.buildState = .building ∧ a.buildingSha = none

section Row

variable {s : State} {now : Timestamp} {op : Op} {r r' : Record}

/-- What names the row's script: its definition, its path and its newest commit. -/
structure SameScript (r r' : Record) : Prop where
  definition : r'.automation.definition = r.automation.definition
  path : r'.automation.scriptPath = r.automation.scriptPath
  newest : newestSha r'.revisions = newestSha r.revisions

theorem RowMove.script (h : RowMove s now r op r') :
    SameScript r r' ∨ ∃ p claim tenantId data actor gitSha, op = .edit p (.finish none) ∧
      s.edits p = .finishing claim tenantId data actor gitSha ∧ r' = r.edited data actor gitSha now := by
  cases h with
  | same => exact Or.inl ⟨rfl, rfl, rfl⟩
  | enabled => exact Or.inl ⟨rfl, rfl, newestSha_transition r now rfl⟩
  | disabled => exact Or.inl ⟨rfl, rfl, newestSha_transition r now rfl⟩
  | deleteAdmitted => exact Or.inl ⟨rfl, rfl, newestSha_markDeleting r now _⟩
  | claimed => exact Or.inl ⟨rfl, rfl, rfl⟩
  | @released p claim =>
    left
    obtain ⟨_, _, _, he⟩ := releaseBuildClaim_frame claim r
    rw [he]
    exact ⟨rfl, rfl, rfl⟩
  | @edited p claim tenantId data actor gitSha hp =>
    exact Or.inr ⟨p, claim, tenantId, data, actor, gitSha, rfl, hp, rfl⟩
  | cutOver => exact Or.inl ⟨rfl, rfl, newestSha_cutOver ..⟩
  | buildFailed => exact Or.inl ⟨rfl, rfl, newestSha_failBuild ..⟩
  | @checkpointed p a n completed =>
    left
    obtain ⟨_, _, _, he⟩ := checkpoint_frame completed now r
    rw [he]
    exact ⟨rfl, rfl, rfl⟩

/-- Only an edit takes a row out of its own claim. -/
theorem RowMove.unfinished (h : RowMove s now r op r') (hop : ∀ p o, op ≠ .edit p o)
    (hrow : Unfinished r.automation) : Unfinished r'.automation := by
  cases h with
  | claimed => exact absurd rfl (hop _ _)
  | released => exact absurd rfl (hop _ _)
  | edited => exact absurd rfl (hop _ _)
  | cutOver _ hre =>
    obtain ⟨-, ⟨-, hsha⟩ | ⟨hfailed, -⟩⟩ := recheck_none hre
    · rw [hrow.2] at hsha
      simp at hsha
    · rw [hrow.1] at hfailed
      simp at hfailed
  | buildFailed _ hadm =>
    have hsha := (admission_none hadm).2.2
    rw [hrow.2] at hsha
    simp at hsha
  | @checkpointed p a n completed =>
    obtain ⟨_, _, _, he⟩ := checkpoint_frame completed now r
    rw [he]
    exact hrow
  | _ => exact hrow

end Row

section Paths

variable {cfg : Config} {E : State → Action → Prop} {tr : Trace State Action} {s : State}

theorem Reached.scriptPath (h : Reached cfg E tr s) {r : Record} (hr : s.record = some r) :
    r.automation.scriptPath = scriptPathFor cfg.automationId := by
  apply h.row_invariant (P := fun r => r.automation.scriptPath = scriptPathFor cfg.automationId) _ _ hr
  · intros
    rfl
  · intro tr s now op r r' _ _ _ hrow hpath
    rcases hrow.script with hsame | ⟨_, _, _, _, _, _, -, -, rfl⟩
    · exact hsame.path.trans hpath
    · exact hpath

/-- An edit commits under the path of its row. -/
theorem Reached.claimPath (h : Reached cfg E tr s) {p : ℕ} {claim : BuildClaim}
    (hp : (s.edits p).claim? = some claim) : claim.scriptPath = scriptPathFor cfg.automationId := by
  refine h.invariant (I := fun s => ∀ p claim, (s.edits p).claim? = some claim →
    claim.scriptPath = scriptPathFor cfg.automationId) ?_ ?_ p claim hp
  · intro world p claim hp
    simp [initial, Edit.claim?] at hp
  · intro tr s now op s' hreach hs _ _ _ hm p claim hp
    have hbefore := hs p claim
    rcases hm.editor p with ⟨-, hsame⟩ | ⟨o, -, hedit⟩
    · rw [hsame] at hp
      exact hbefore hp
    · generalize s.edits p = e at hedit hbefore
      generalize s'.edits p = e' at hedit hp
      generalize s'.toShared = sh' at hedit
      cases hedit with
      | claimed r hr =>
        obtain rfl := Option.some.inj hp
        exact hreach.scriptPath hr
      | committed => exact hbefore hp
      | commitFailed => exact hbefore hp
      | _ => simp [Edit.claim?] at hp

end Paths

/-- The edit holds a claim and has no commit. -/
def Edit.beforeCommit : Edit → Bool
  | .committing _ _ _ _ | .releasing _ => true
  | _ => false

/-- The commit of the definition that the row holds. -/
structure DefinesRow (tr : Trace State Action) (s : Scripts) (r : Record) (data : AutomationIn)
    (c : ScriptCommit) : Prop where
  accepted : lastAccepted tr = some data
  definition : r.automation.definition = data.definition
  path : c.path = r.automation.scriptPath
  committed : c ∈ s.commits
  content : c.content = data.script
  newest : newestSha r.revisions = some c.sha

/-- Row and branch, and what the running edits know of them: until its commit an
edit finds the branch as the row has it, and from then on with its own commit. -/
structure InStep (tr : Trace State Action) (s : Scripts) : Prop where
  row : ∀ r, s.service.record = some r → ∃ data c, DefinesRow tr s r data c ∧
    (s.Heads c ∨ Unfinished r.automation) ∧
    ∀ p, (s.service.edits p).beforeCommit = true → s.Heads c
  written : ∀ p claim tenantId data actor gitSha,
    s.service.edits p = .finishing claim tenantId data actor gitSha →
      ∃ c ∈ s.commits, c.path = claim.scriptPath ∧ c.sha = gitSha ∧ c.content = data.script ∧ s.Heads c

section Step

variable {cfg : Config} {tr : Trace State Action} {s s' : Scripts} {a : Action}

theorem DefinesRow.same {r r' : Record} {data : AutomationIn} {c : ScriptCommit}
    (h : DefinesRow tr s r data c) (hsame : SameScript r r')
    (haccepted : accepted? ⟨s.service, a, s'.service⟩ = none)
    (hcommits : ∀ c ∈ s.commits, c ∈ s'.commits) :
    DefinesRow (⟨s.service, a, s'.service⟩ :: tr) s' r' data c where
  accepted := by
    rw [lastAccepted, List.findSome?_cons, haccepted]
    exact h.accepted
  definition := hsame.definition.trans h.definition
  path := h.path.trans hsame.path.symm
  committed := hcommits c h.committed
  content := h.content
  newest := hsame.newest.trans h.newest

/-- A step that commits nothing and accepts nothing. A row leaves its claim only
through the edit that releases it, and only a settled row comes under one. -/
theorem InStep.quiet (h : InStep tr s) (hcommits : s'.commits = s.commits)
    (haccepted : accepted? ⟨s.service, a, s'.service⟩ = none)
    (hrow : ∀ r', s'.service.record = some r' → ∃ r, s.service.record = some r ∧ SameScript r r' ∧
      ((Unfinished r.automation → Unfinished r'.automation) ∨
        ∃ q, (s.service.edits q).beforeCommit = true) ∧
      ∀ p, (s'.service.edits p).beforeCommit = true →
        (∃ q, (s.service.edits q).beforeCommit = true) ∨ ¬Unfinished r.automation)
    (hwritten : ∀ p claim tenantId data actor gitSha,
      s'.service.edits p = .finishing claim tenantId data actor gitSha →
        s.service.edits p = .finishing claim tenantId data actor gitSha) :
    InStep (⟨s.service, a, s'.service⟩ :: tr) s' := by
  constructor
  · intro r' hr'
    obtain ⟨r, hr, hsame, hclaim, hbefore⟩ := hrow r' hr'
    obtain ⟨data, c, hdefines, hheads, hearly⟩ := h.row r hr
    have hkeeps : ∀ c ∈ s.commits, c ∈ s'.commits := by
      rw [hcommits]
      exact fun c hc => hc
    refine ⟨data, c, hdefines.same hsame haccepted hkeeps, ?_, ?_⟩
    · rcases hheads with hheads | hunfinished
      · exact Or.inl (hheads.same hcommits)
      · rcases hclaim with hstays | ⟨q, hq⟩
        · exact Or.inr (hstays hunfinished)
        · exact Or.inl ((hearly q hq).same hcommits)
    · intro p hp
      rcases hbefore p hp with ⟨q, hq⟩ | hsettled
      · exact (hearly q hq).same hcommits
      · exact (hheads.resolve_right hsettled).same hcommits
  · intro p claim tenantId data actor gitSha hp
    obtain ⟨c, hc, hpath, hsha, hcontent, hheads⟩ := h.written _ _ _ _ _ _ (hwritten _ _ _ _ _ _ hp)
    rw [← hcommits] at hc
    exact ⟨c, hc, hpath, hsha, hcontent, hheads.same hcommits⟩

/-- A commit nobody waited for lands. -/
theorem InStep.land {d : ScriptCommit} (h : InStep tr s) (hcommits : s'.commits = s.commits ++ [d])
    (hlate : d.answered = false) (hservice : s'.service = s.service) : InStep tr s' := by
  have hkeeps : ∀ c ∈ s.commits, c ∈ s'.commits := by
    intro c hc
    rw [hcommits]
    exact List.mem_append_left _ hc
  constructor
  · intro r hr
    rw [hservice] at hr
    obtain ⟨data, c, hdefines, hheads, hearly⟩ := h.row r hr
    refine ⟨data, c, { hdefines with committed := hkeeps c hdefines.committed }, ?_, ?_⟩
    · exact hheads.imp_left fun hheads => hheads.land hcommits hlate
    · intro p hp
      rw [hservice] at hp
      exact (hearly p hp).land hcommits hlate
  · intro p claim tenantId data actor gitSha hp
    rw [hservice] at hp
    obtain ⟨c, hc, hpath, hsha, hcontent, hheads⟩ := h.written _ _ _ _ _ _ hp
    exact ⟨c, hkeeps c hc, hpath, hsha, hcontent, hheads.land hcommits hlate⟩

theorem sameScript_self (r : Record) : SameScript r r := ⟨rfl, rfl, rfl⟩

/-- A step of an edit that leaves the row and the branch, and ends the edit or
keeps it where a commit is still to come. -/
theorem InStep.edit_quiet (h : InStep tr s) {p : ℕ} (hcommits : s'.commits = s.commits)
    (haccepted : accepted? ⟨s.service, a, s'.service⟩ = none)
    (hrecord : s'.service.record = s.service.record)
    (hothers : ∀ q, q ≠ p → s'.service.edits q = s.service.edits q)
    (hown : (s'.service.edits p).beforeCommit = true → (s.service.edits p).beforeCommit = true)
    (hends : ∀ claim tenantId data actor gitSha,
      s'.service.edits p ≠ .finishing claim tenantId data actor gitSha) :
    InStep (⟨s.service, a, s'.service⟩ :: tr) s' := by
  apply h.quiet hcommits haccepted
  · intro r hr
    rw [hrecord] at hr
    refine ⟨r, hr, sameScript_self r, Or.inl id, ?_⟩
    intro q hq
    left
    by_cases hqp : q = p
    · rw [hqp] at hq
      exact ⟨p, hown hq⟩
    · rw [hothers q hqp] at hq
      exact ⟨q, hq⟩
  · intro q claim tenantId data actor gitSha hq
    by_cases hqp : q = p
    · rw [hqp] at hq
      exact absurd hq (hends _ _ _ _ _)
    · rwa [hothers q hqp] at hq

theorem Edit.beforeCommit_claim {e : Edit} (h : e.beforeCommit = true) :
    ∃ claim, e.claim? = some claim := by
  cases e with
  | committing claim => exact ⟨claim, rfl⟩
  | releasing claim => exact ⟨claim, rfl⟩
  | _ => simp [Edit.beforeCommit] at h

/-- A step of an edit. -/
theorem InStep.edit {now : Timestamp} {p : ℕ} {o : EditOp} (hreach : Reached cfg anything tr s.service)
    (h : InStep tr s) (hstep : step cfg s.service ⟨now, .edit p o⟩ = some s'.service)
    (hcommits : s'.commits = s.commits ++ scriptCommits cfg s.service (.edit p o)) :
    InStep (⟨s.service, ⟨now, .edit p o⟩, s'.service⟩ :: tr) s' := by
  have hm := (step_move hstep).2.2
  have hlt := (step_move hstep).1
  have hothers (q : ℕ) (hqp : q ≠ p) : s'.service.edits q = s.service.edits q := by
    rcases hm.editor q with ⟨-, hsame⟩ | ⟨o', ho', -⟩
    · exact hsame
    · exact absurd (Op.edit.inj ho').1 hqp.symm
  have hpath {claim : BuildClaim} (hclaim : (s.service.edits p).claim? = some claim) :=
    hreach.claimPath hclaim
  have halone {claim : BuildClaim} (hclaim : (s.service.edits p).claim? = some claim) (q : ℕ)
      (hqp : q ≠ p) : (s.service.edits q).claim? = none := hreach.fenced.alone hclaim hqp
  have hholds {r : Record} (hr : s.service.record = some r) {claim : BuildClaim}
      (hclaim : (s.service.edits p).claim? = some claim) := hreach.fenced.holds_row hr hclaim
  rcases hm.editor p with ⟨hnot, -⟩ | ⟨o', ho', hedit⟩
  · exact absurd rfl (hnot o)
  obtain ⟨-, rfl⟩ := Op.edit.inj ho'
  generalize he : s.service.edits p = e at hedit hpath halone hholds
  generalize he' : s'.service.edits p = e' at hedit
  generalize hsh : s'.service.toShared = sh' at hedit
  have hrecord : s'.service.record = sh'.record := congrArg Shared.record hsh
  cases hedit with
  | refused error =>
    apply h.edit_quiet (hcommits.trans (List.append_nil _)) rfl hrecord hothers
    · rw [he']
      exact fun hbefore => absurd hbefore Bool.false_ne_true
    · rw [he']
      simp
  | @claimed tenantId data actor deadline r hr _ _ _ hbuild =>
    apply h.quiet (hcommits.trans (List.append_nil _)) rfl
    · intro r' hr'
      rw [hrecord] at hr'
      obtain rfl := Option.some.inj hr'
      refine ⟨r, hr, ⟨rfl, rfl, rfl⟩, Or.inl fun _ => ⟨rfl, rfl⟩, fun q _ => Or.inr ?_⟩
      exact fun hunfinished => hbuild hunfinished.1
    · intro q claim tenantId data actor gitSha hq
      by_cases hqp : q = p
      · rw [hqp, he'] at hq
        simp at hq
      · rwa [hothers q hqp] at hq
  | @committed claim tenantId data actor gitSha =>
    have hlast : s'.commits = s.commits ++ [⟨claim.scriptPath, gitSha, data.script, true⟩] := by
      rw [hcommits]
      simp only [scriptCommits, he]
    constructor
    · intro r hr
      rw [hrecord] at hr
      obtain ⟨data', c, hdefines, -, -⟩ := h.row r hr
      have hold := hholds hr rfl
      refine ⟨data', c, hdefines.same (sameScript_self r) rfl ?_, Or.inr ⟨hold.held.1, hold.noSha⟩, ?_⟩
      · intro c hc
        rw [hlast]
        exact List.mem_append_left _ hc
      · intro q hq
        by_cases hqp : q = p
        · rw [hqp, he'] at hq
          exact absurd hq Bool.false_ne_true
        · rw [hothers q hqp] at hq
          obtain ⟨other, hother⟩ := Edit.beforeCommit_claim hq
          rw [halone rfl q hqp] at hother
          simp at hother
    · intro q claim' tenantId' data' actor' gitSha' hq
      by_cases hqp : q = p
      · rw [hqp, he'] at hq
        injection hq with hclaim _ hdata _ hsha
        refine ⟨_, ?_, ?_, ?_, ?_, Scripts.heads_last hlast⟩
        · rw [hlast]
          exact List.mem_append_right _ List.mem_cons_self
        · rw [hclaim]
        · exact hsha
        · rw [hdata]
      · have hnone := halone rfl q hqp
        rw [← hothers q hqp, hq] at hnone
        simp [Edit.claim?] at hnone
  | commitFailed =>
    apply h.edit_quiet (hcommits.trans (List.append_nil _)) rfl hrecord hothers
    · intro _
      rw [he]
      rfl
    · rw [he']
      simp
  | @released claim =>
    apply h.quiet (hcommits.trans (List.append_nil _)) rfl
    · intro r' hr'
      rw [hrecord] at hr'
      obtain ⟨r, hr, rfl⟩ := Option.map_eq_some_iff.mp hr'
      have hfirst : (s.service.edits p).beforeCommit = true := by
        rw [he]
        rfl
      obtain ⟨_, _, _, hframe⟩ := releaseBuildClaim_frame claim r
      refine ⟨r, hr, ?_, Or.inr ⟨p, hfirst⟩, fun _ _ => Or.inl ⟨p, hfirst⟩⟩
      rw [hframe]
      exact ⟨rfl, rfl, rfl⟩
    · intro q claim tenantId data actor gitSha hq
      by_cases hqp : q = p
      · rw [hqp, he'] at hq
        simp at hq
      · rwa [hothers q hqp] at hq
  | releaseFailed =>
    apply h.edit_quiet (hcommits.trans (List.append_nil _)) rfl hrecord hothers
    · rw [he']
      exact fun hbefore => absurd hbefore Bool.false_ne_true
    · rw [he']
      simp
  | @finished claim tenantId data actor gitSha r hr =>
    have hnone : s'.commits = s.commits := hcommits.trans (List.append_nil _)
    obtain ⟨c, hc, hcpath, hsha, hcontent, hheads⟩ := h.written _ _ _ _ _ _ he
    constructor
    · intro r' hr'
      rw [hrecord] at hr'
      obtain rfl := Option.some.inj hr'
      have hdated : ∀ v ∈ r.revisions, v.createdAt < now :=
        fun v hv => lt_of_le_of_lt (hreach.dated r hr v hv) hlt
      refine ⟨data, c, ⟨?_, rfl, ?_, ?_, hcontent, ?_⟩, Or.inl (hheads.same hnone), ?_⟩
      · simp only [lastAccepted, List.findSome?_cons, accepted?, he, he']
      · exact (hcpath.trans (hpath rfl)).trans (hreach.scriptPath hr).symm
      · rw [hnone]
        exact hc
      · rw [newestSha_edited hdated, hsha]
      · exact fun _ _ => hheads.same hnone
    · intro q claim' tenantId' data' actor' gitSha' hq
      by_cases hqp : q = p
      · rw [hqp, he'] at hq
        simp at hq
      · have hfree := halone rfl q hqp
        rw [← hothers q hqp, hq] at hfree
        simp [Edit.claim?] at hfree
  | @notFinished claim tenantId data actor gitSha fault error =>
    apply h.edit_quiet (hcommits.trans (List.append_nil _)) _ hrecord hothers
    · rw [he']
      exact fun hbefore => absurd hbefore Bool.false_ne_true
    · rw [he']
      simp
    · cases fault with
      | some f => rfl
      | none => simp only [accepted?, he, he']
  | crashed =>
    apply h.edit_quiet (hcommits.trans (List.append_nil _)) rfl hrecord hothers
    · rw [he']
      exact fun hbefore => absurd hbefore Bool.false_ne_true
    · rw [he']
      simp

/-- A step of anything else. Only the creation commits, and its row is the first. -/
theorem InStep.other {now : Timestamp} {op : Op} (hop : ∀ p o, op ≠ .edit p o)
    (hreach : Reached cfg anything tr s.service) (h : InStep tr s)
    (hstep : step cfg s.service ⟨now, op⟩ = some s'.service)
    (hcommits : s'.commits = s.commits ++ scriptCommits cfg s.service op) :
    InStep (⟨s.service, ⟨now, op⟩, s'.service⟩ :: tr) s' := by
  have hm := (step_move hstep).2.2
  have hedits (p : ℕ) : s'.service.edits p = s.service.edits p := by
    rcases hm.editor p with ⟨-, hsame⟩ | ⟨o, ho, -⟩
    · exact hsame
    · exact absurd ho (hop p o)
  cases hrec : s.service.record with
  | some r₀ =>
    have hcreate : ∀ tenantId data actor gitSha deadline, op ≠ .create tenantId data actor gitSha deadline := by
      rintro tenantId data actor gitSha deadline rfl
      generalize s'.service = service' at hm
      cases hm with
      | created hnone => simp [hrec] at hnone
      | refused hrequest => simp [Op.isRequest] at hrequest
    have hnone : s'.commits = s.commits := by
      rw [hcommits]
      cases op with
      | create => exact absurd rfl (hcreate _ _ _ _ _)
      | edit p o => exact absurd rfl (hop p o)
      | _ => exact List.append_nil _
    apply h.quiet hnone
    · cases op with
      | create => exact absurd rfl (hcreate _ _ _ _ _)
      | edit p o => exact absurd rfl (hop p o)
      | _ => rfl
    · intro r' hr'
      obtain ⟨r₁, h₁, hrow⟩ := hm.row hrec
      obtain rfl := Option.eq_some_unique h₁ hr'
      refine ⟨r₀, hrec, ?_, Or.inl (hrow.unfinished hop), ?_⟩
      · rcases hrow.script with hsame | ⟨p, _, _, _, _, _, hedit, -, -⟩
        · exact hsame
        · exact absurd hedit (hop p _)
      · intro p hp
        rw [hedits] at hp
        exact Or.inl ⟨p, hp⟩
    · intro p claim tenantId data actor gitSha hp
      rwa [hedits] at hp
  | none =>
    have hfree (p : ℕ) : (s'.service.edits p).claim? = none := by
      rw [hedits]
      exact hreach.fenced.no_claim_of_none hrec p
    constructor
    · intro r' hr'
      rcases hm.row_after hr' with ⟨-, tenantId, data, actor, gitSha, deadline, rfl, rfl⟩ | ⟨r, hr, -⟩
      · have hlast := Scripts.heads_last hcommits
        refine ⟨data, _, ⟨rfl, rfl, rfl, ?_, rfl, rfl⟩, Or.inl hlast, fun _ _ => hlast⟩
        rw [hcommits]
        exact List.mem_append_right _ List.mem_cons_self
      · simp [hrec] at hr
    · intro p claim tenantId data actor gitSha hp
      have hnone := hfree p
      rw [hp] at hnone
      simp [Edit.claim?] at hnone

/-- Where a commit nobody waited for comes from: an edit that gave up on it. -/
structure LateCommits (tr : Trace State Action) (s : Scripts) : Prop where
  unanswered : ∀ w ∈ s.unanswered, ∃ t ∈ tr, w ∈ scriptsGivenUp t.pre t.act.op
  landed : ∀ d ∈ s.commits, d.answered = false →
    ∃ t ∈ tr, (d.path, d.content) ∈ scriptsGivenUp t.pre t.act.op

theorem scriptCommits_answered (service : State) (op : Op) :
    ∀ d ∈ scriptCommits cfg service op, d.answered = true := by
  intro d hd
  unfold scriptCommits at hd
  split at hd
  · rw [List.mem_singleton.mp hd]
  · split at hd
    · rw [List.mem_singleton.mp hd]
    · exact absurd hd List.not_mem_nil
  · exact absurd hd List.not_mem_nil

theorem LateCommits.call (h : LateCommits tr s)
    (hcommits : s'.commits = s.commits ++ scriptCommits cfg s.service a.op)
    (hgiven : s'.unanswered = s.unanswered ++ scriptsGivenUp s.service a.op) :
    LateCommits (⟨s.service, a, s'.service⟩ :: tr) s' := by
  constructor
  · intro w hw
    rw [hgiven] at hw
    rcases List.mem_append.mp hw with hw | hw
    · obtain ⟨t, ht, hfrom⟩ := h.unanswered w hw
      exact ⟨t, List.mem_cons_of_mem _ ht, hfrom⟩
    · exact ⟨_, List.mem_cons_self, hw⟩
  · intro d hd hlate
    rw [hcommits] at hd
    rcases List.mem_append.mp hd with hd | hd
    · obtain ⟨t, ht, hfrom⟩ := h.landed d hd hlate
      exact ⟨t, List.mem_cons_of_mem _ ht, hfrom⟩
    · rw [scriptCommits_answered s.service a.op d hd] at hlate
      exact absurd hlate.symm Bool.false_ne_true

theorem LateCommits.land {path content sha : String} (h : LateCommits tr s)
    (hfirst : (path, content) ∈ s.unanswered)
    (hcommits : s'.commits = s.commits ++ [⟨path, sha, content, false⟩])
    (hgiven : s'.unanswered = s.unanswered.erase (path, content)) : LateCommits tr s' := by
  constructor
  · intro w hw
    rw [hgiven] at hw
    exact h.unanswered w (List.mem_of_mem_erase hw)
  · intro d hd hlate
    rw [hcommits] at hd
    rcases List.mem_append.mp hd with hd | hd
    · exact h.landed d hd hlate
    · rw [List.mem_singleton.mp hd]
      exact h.unanswered _ hfirst

end Step

section Runs

variable {cfg : Config} {world : World} {tr : Trace Scripts ScriptsOp} {s : Scripts}

/-- What is kept along a run: the service runs as ever, the branch is in step with
it, and late commits are those given up on. -/
structure ScriptsKept (cfg : Config) (tr : Trace State Action) (s : Scripts) : Prop where
  reached : Reached cfg anything tr s.service
  inStep : InStep tr s
  late : LateCommits tr s

theorem ScriptsRun.kept (h : ScriptsRun cfg world tr s) : ScriptsKept cfg (serviceTrace tr) s := by
  refine h.history (P := fun tr s => ScriptsKept cfg (serviceTrace tr) s) ?_ ?_
  · refine ⟨⟨world, .nil⟩, ⟨?_, ?_⟩, ⟨?_, ?_⟩⟩
    · intro r hr
      simp [noScripts, initial] at hr
    · intro p claim tenantId data actor gitSha hp
      simp [noScripts, initial] at hp
    · intro w hw
      exact absurd hw List.not_mem_nil
    · intro d hd
      exact absurd hd List.not_mem_nil
  · intro tr s o s' _ hs _ hstep
    obtain ⟨⟨world', hrun⟩, hin, hlate⟩ := hs
    cases o with
    | call a =>
      obtain ⟨service', hservice, rfl⟩ := Option.map_eq_some_iff.mp hstep
      refine ⟨⟨world', hrun.snoc trivial hservice⟩, ?_, hlate.call rfl rfl⟩
      obtain ⟨now, op⟩ := a
      by_cases hop : ∃ p o, op = .edit p o
      · obtain ⟨p, o, rfl⟩ := hop
        exact InStep.edit ⟨world', hrun⟩ hin hservice rfl
      · exact InStep.other (fun p o ho => hop ⟨p, o, ho⟩) ⟨world', hrun⟩ hin hservice rfl
    | land path content sha =>
      simp only [scriptsStep] at hstep
      split at hstep
      · next hfirst =>
        obtain rfl := Option.some.inj hstep
        exact ⟨⟨world', hrun⟩, hin.land rfl rfl rfl, hlate.land hfirst rfl rfl⟩
      · simp at hstep

theorem Scripts.get_detail {branch : Scripts} {tenantId : String} {a : Automation} {script : Option String}
    (h : s.get branch tenantId = .ok (.detail a script)) : ∃ r, s.service.record = some r ∧
      r.automation = a ∧ script = (branch.head a.scriptPath).map ScriptCommit.content := by
  simp only [Scripts.get, getAutomation, Bool.false_eq_true, if_false] at h
  split at h
  · simp at h
  · next r hr =>
    obtain ⟨hrec, -⟩ := scopedGet_ok hr
    injection h with h
    injection h with ha hscript
    refine ⟨r, hrec, ha, ?_⟩
    rw [← ha]
    exact hscript.symm

/-- What may stand at the head of a path after a while: what stood there before, a
commit that an edit has made meanwhile, or one that nobody waited for. -/
theorem head_after {tr' : Trace Scripts ScriptsOp} {s' : Scripts}
    (h : Run (scriptsStep cfg) (fun _ _ => True) s tr' s') (path : String) :
    s'.head path = s.head path ∨ ∃ d ∈ s'.commits, d.path = path ∧ s'.head path = some d ∧
      (d.answered = false ∨ ∃ t ∈ serviceTrace tr', d ∈ scriptCommits cfg t.pre t.act.op) := by
  refine h.history (P := fun tr' s' => s'.head path = s.head path ∨ ∃ d ∈ s'.commits, d.path = path ∧
    s'.head path = some d ∧
      (d.answered = false ∨ ∃ t ∈ serviceTrace tr', d ∈ scriptCommits cfg t.pre t.act.op)) (Or.inl rfl) ?_
  intro tr' s₁ o s₂ _ ih _ hstep
  -- the head stays unless a commit of this step is on the path
  have carry {ks : List ScriptCommit} (hcommits : s₂.commits = s₁.commits ++ ks)
      (hks : ∀ d ∈ ks, d.answered = false ∨
        ∃ t ∈ serviceTrace (⟨s₁, o, s₂⟩ :: tr'), d ∈ scriptCommits cfg t.pre t.act.op)
      (hold : ∀ t ∈ serviceTrace tr', t ∈ serviceTrace (⟨s₁, o, s₂⟩ :: tr')) :
      s₂.head path = s.head path ∨ ∃ d ∈ s₂.commits, d.path = path ∧ s₂.head path = some d ∧
        (d.answered = false ∨
          ∃ t ∈ serviceTrace (⟨s₁, o, s₂⟩ :: tr'), d ∈ scriptCommits cfg t.pre t.act.op) := by
    rcases Scripts.head_of_append hcommits path with hsame | ⟨d, hd, hpath, hhead⟩
    · rw [hsame]
      rcases ih with hfirst | ⟨d, hd, hpath, hhead, hlate | ⟨t, ht, hmade⟩⟩
      · exact Or.inl hfirst
      · exact Or.inr ⟨d, hcommits ▸ List.mem_append_left _ hd, hpath, hhead, Or.inl hlate⟩
      · exact Or.inr ⟨d, hcommits ▸ List.mem_append_left _ hd, hpath, hhead, Or.inr ⟨t, hold t ht, hmade⟩⟩
    · exact Or.inr ⟨d, hcommits ▸ List.mem_append_right _ hd, hpath, hhead, hks d hd⟩
  cases o with
  | call a =>
    obtain ⟨service, -, rfl⟩ := Option.map_eq_some_iff.mp hstep
    refine carry rfl (fun d hd => Or.inr ⟨_, List.mem_cons_self, hd⟩) ?_
    exact fun t ht => List.mem_cons_of_mem _ ht
  | land landed content sha =>
    simp only [scriptsStep] at hstep
    split at hstep
    · obtain rfl := Option.some.inj hstep
      refine carry rfl (fun d hd => Or.inl ?_) fun t ht => ht
      rw [List.mem_singleton.mp hd]
    · simp at hstep

/-- A `GET` reads the row and, when the session is closed, the branch. The
definition it shows is that of the last create or edit that was accepted when it
read the row, whose script is on the branch in the commit that the row builds. The
script it shows is that one, unless an edit had the row and was not through, an edit
has committed between the two reads, or a commit that was given up on has landed. -/
theorem get_shows_definition (h : ScriptsRun cfg world tr s) {tr' : Trace Scripts ScriptsOp} {s' : Scripts}
    (hlater : Run (scriptsStep cfg) (fun _ _ => True) s tr' s') {tenantId : String} {a : Automation}
    {script : Option String} (hget : s.get s' tenantId = .ok (.detail a script)) :
    ∃ data, lastAccepted (serviceTrace tr) = some data ∧ a.definition = data.definition ∧
      (∃ c ∈ s.commits, c.path = a.scriptPath ∧ c.content = data.script ∧
        ∀ sha, a.buildingSha = some sha → c.sha = sha) ∧
      (script = some data.script ∨ (a.buildState = .building ∧ a.buildingSha = none) ∨
        ∃ content, script = some content ∧
          ((∃ t ∈ serviceTrace tr', ∃ c ∈ scriptCommits cfg t.pre t.act.op,
            c.path = a.scriptPath ∧ c.content = content) ∨
          ∃ t ∈ serviceTrace (tr' ++ tr), (a.scriptPath, content) ∈ scriptsGivenUp t.pre t.act.op)) := by
  obtain ⟨hreach, hin, -⟩ := h.kept
  have hlate : LateCommits (serviceTrace (tr' ++ tr)) s' :=
    (ScriptsRun.kept (h.append hlater)).late
  obtain ⟨r, hr, rfl, hscript⟩ := Scripts.get_detail hget
  obtain ⟨data, c, hdefines, hheads, -⟩ := hin.row r hr
  refine ⟨data, hdefines.accepted, hdefines.definition,
    ⟨c, hdefines.committed, hdefines.path, hdefines.content, ?_⟩, ?_⟩
  · intro sha hsha
    have hnewest := hreach.building_newest hr hsha
    exact Option.some.inj (hdefines.newest.symm.trans hnewest)
  -- a commit given up on that has come to the head of the path by the second read
  have givenUp {d : ScriptCommit} (hd : d ∈ s'.commits) (hpath : d.path = r.automation.scriptPath)
      (hanswered : d.answered = false) : ∃ t ∈ serviceTrace (tr' ++ tr),
        (r.automation.scriptPath, d.content) ∈ scriptsGivenUp t.pre t.act.op := by
    rw [← hpath]
    exact hlate.landed d hd hanswered
  rw [hscript]
  rcases head_after hlater r.automation.scriptPath with hsame | ⟨d, hd, hpath, hhead, hmade⟩
  · rw [hsame]
    rcases hheads with (hhead | ⟨d, hhead, hanswered⟩) | hunfinished
    · left
      rw [← hdefines.path, hhead, Option.map_some, hdefines.content]
    · right; right
      rw [hdefines.path] at hhead
      obtain ⟨hd, hpath⟩ := Scripts.mem_of_head (s := s') (hsame.trans hhead)
      exact ⟨d.content, by rw [hhead, Option.map_some], Or.inr (givenUp hd hpath hanswered)⟩
    · exact Or.inr (Or.inl hunfinished)
  · right; right
    refine ⟨d.content, by rw [hhead, Option.map_some], ?_⟩
    rcases hmade with hanswered | ⟨t, ht, hcommit⟩
    · exact Or.inr (givenUp hd hpath hanswered)
    · exact Or.inl ⟨t, ht, d, hcommit, hpath, rfl⟩

end Runs

def newScript : AutomationIn := { samplePayload with script := "def handle(event): pass" }

/-- Create the automation and fail its build; then its row is read. -/
def firstReadOps : List ScriptsOp :=
  [.call ⟨1, .create "t1" samplePayload "author" firstSha 99⟩,
   .call ⟨2, .deliver 0 (.receive firstFailure false)⟩, .call ⟨3, .deliver 0 (.recordFailure none)⟩]

/-- A whole edit, before the branch is read. -/
def betweenReadsOps : List ScriptsOp :=
  [.call ⟨4, .edit 0 (.claim "t1" newScript "author" 199 none)⟩, .call ⟨5, .edit 0 (.commit secondSha)⟩,
   .call ⟨6, .edit 0 (.finish none)⟩]

def Scripts.shows (s branch : Scripts) (tenantId script : String) : Bool :=
  match s.get branch tenantId with
  | .ok (.detail a shown) => shown = some script ∧ a.buildState ≠ .building
  | _ => false

/-- No commit is given up on in these steps. -/
def allAnswered (tr : Trace State Action) : Bool :=
  tr.all fun t => (scriptsGivenUp t.pre t.act.op).isEmpty

theorem not_givenUp {tr : Trace State Action} (h : allAnswered tr = true) {w : String × String} :
    ¬∃ t ∈ tr, w ∈ scriptsGivenUp t.pre t.act.op := by
  rintro ⟨t, ht, hw⟩
  have hnone := List.all_eq_true.mp h t ht
  rw [List.isEmpty_iff.mp hnone] at hw
  exact absurd hw List.not_mem_nil

/-- The first read, from which the second one shows the script of an edit between
the two. -/
def Scripts.RacedRead (s : Scripts) : Prop :=
  (exec (scriptsStep sampleConfig) s betweenReadsOps).any
      (fun s' => decide (s.shows s' "t1" newScript.script = true)) = true ∧
    allAnswered (serviceTrace (execTrace (scriptsStep sampleConfig) s betweenReadsOps)) = true

instance (s : Scripts) : Decidable s.RacedRead := inferInstanceAs (Decidable (_ ∧ _))

/-- The definition is the old one, with a script that is not its own. -/
theorem get_shows_definition_sample : ∃ tr s tr' s' a data,
    ScriptsRun sampleConfig sampleWorld tr s ∧
      Run (scriptsStep sampleConfig) (fun _ _ => True) s tr' s' ∧
      s.get s' "t1" = .ok (.detail a (some newScript.script)) ∧
      a.definition = (data : AutomationIn).definition ∧ data.script ≠ newScript.script ∧
      ∃ t ∈ serviceTrace tr', ∃ c ∈ scriptCommits sampleConfig t.pre t.act.op,
        c.content = newScript.script := by
  obtain ⟨s, hs, hlater, hanswered⟩ := Run.exists_of_exec (E := fun _ _ => True) (fun _ _ => trivial)
    firstReadOps Scripts.RacedRead
    (by decide +kernel : (exec (scriptsStep sampleConfig) (noScripts sampleWorld) firstReadOps).any
      (fun s => decide s.RacedRead) = true)
  obtain ⟨s', hs', hshows⟩ := Run.exists_of_exec (E := fun _ _ => True) (fun _ _ => trivial)
    betweenReadsOps (fun s' => s.shows s' "t1" newScript.script = true) hlater
  unfold Scripts.shows at hshows
  split at hshows
  · next a shown hget =>
    obtain ⟨rfl, hbuild⟩ := of_decide_eq_true hshows
    obtain ⟨data, hlast, hdefinition, -, hscript⟩ := get_shows_definition hs hs' hget
    have hold : (lastAccepted (serviceTrace
        (execTrace (scriptsStep sampleConfig) (noScripts sampleWorld) firstReadOps))).map
          AutomationIn.script = some samplePayload.script := by decide +kernel
    have hdata : data.script ≠ newScript.script := by
      have hsame : data.script = samplePayload.script := by
        rw [hlast, Option.map_some] at hold
        exact Option.some.inj hold
      rw [hsame]
      decide
    refine ⟨_, s, _, s', a, data, hs, hs', hget, hdefinition, hdata, ?_⟩
    rcases hscript with hown | hunfinished | ⟨content, hcontent, hmade | hgiven⟩
    · exact absurd (Option.some.inj hown).symm hdata
    · exact absurd hunfinished.1 hbuild
    · obtain rfl := Option.some.inj hcontent
      obtain ⟨t, ht, c, hc, -, hsame⟩ := hmade
      exact ⟨t, ht, c, hc, hsame⟩
    · have hall : allAnswered (serviceTrace (execTrace (scriptsStep sampleConfig) s betweenReadsOps ++
          execTrace (scriptsStep sampleConfig) (noScripts sampleWorld) firstReadOps)) = true := by
        rw [serviceTrace, List.filterMap_append, allAnswered, List.all_append, Bool.and_eq_true]
        exact ⟨hanswered, by decide +kernel⟩
      exact absurd hgiven (not_givenUp hall)
  · exact absurd hshows Bool.false_ne_true

end KeepAutomation
