import KeepAutomation.Authoring
import KeepAutomation.AuthoringValidation

/-! The script repository's client over GitLab: which outcomes of the GitLab calls
become the retryable error, and what a create or an edit answers on the others. -/
namespace KeepAutomation.ScriptRepo

open PythonText

section Gitlab

/-- `error_message` of a GitLab error: a text, or what the library could not
decode, with its truth value and its `str`. -/
inductive ErrorMessage where
  | text (s : Str)
  | object (truthy : Bool) (rendered : Str)
  deriving DecidableEq

/-- What a GitLab call raises: an error of the API, the wall-clock timeout, or an
exception of the transport, which the library passes on. -/
inductive GitlabRaised where
  | createError (responseCode : Option ℤ) (message : ErrorMessage)
  | getError (responseCode : Option ℤ) (message : ErrorMessage)
  | otherError (responseCode : Option ℤ) (message : ErrorMessage)
  | futureTimeoutError
  | transportError
  deriving DecidableEq

/-- The action of a requested commit. -/
inductive CommitAction where
  | update | create
  deriving DecidableEq, Repr

/-- What a file's raw content comes as. -/
inductive RawContent where
  | bytes (b : ByteArray)
  | text (s : String)

/-- The GitLab calls of one script, as they turn out. -/
structure Project where
  commit : CommitAction → Except GitlabRaised String
  raw : Except GitlabRaised RawContent

/-- What the client raises. -/
inductive GitRaised where
  | scriptRepoUnavailableError (message : Str)
  | transportError
  | unicodeDecodeError
  deriving DecidableEq

/-- `str(message or "")`. -/
def ErrorMessage.str : ErrorMessage → Str
  | .text s => s
  | .object truthy rendered => if truthy then rendered else []

/-- The 400 that says that the file is not there. Lowering its ASCII letters
decides this: no other character is lowered to a text of the two needles. -/
def isMissingFile (responseCode : Option ℤ) (message : ErrorMessage) : Bool :=
  responseCode == some 400 &&
    (contains (lit "doesn't exist") (lower message.str) ||
      contains (lit "does not exist") (lower message.str))

/-- The outer handler of a commit: GitLab's errors and the timeout. -/
def commitFailed (scriptPath : Str) : GitlabRaised → GitRaised
  | .transportError => .transportError
  | .createError _ _ | .getError _ _ | .otherError _ _ | .futureTimeoutError =>
    .scriptRepoUnavailableError (lit "GitLab commit failed for " ++ scriptPath)

/-- `commit_script`, with the commits it requests. -/
def commitScript (p : Project) (scriptPath : Str) : Except GitRaised String × List CommitAction :=
  match p.commit .update with
  | .ok id => (.ok id, [.update])
  | .error (.createError responseCode message) =>
    if isMissingFile responseCode message then
      ((p.commit .create).mapError (commitFailed scriptPath), [.update, .create])
    else (.error (commitFailed scriptPath (.createError responseCode message)), [.update])
  | .error e => (.error (commitFailed scriptPath e), [.update])

def readFailed (scriptPath : Str) : GitRaised :=
  .scriptRepoUnavailableError (lit "GitLab read failed for " ++ scriptPath)

/-- The decoding of the content, behind the handlers. -/
def decodeRaw : RawContent → Except GitRaised String
  | .text s => .ok s
  | .bytes b =>
    match String.fromUTF8? b with
    | some s => .ok s
    | none => .error .unicodeDecodeError

def readScript (p : Project) (scriptPath : Str) : Except GitRaised (Option String) :=
  match p.raw with
  | .ok content => (decodeRaw content).map some
  | .error (.getError responseCode _) =>
    if responseCode = some 404 then .ok none else .error (readFailed scriptPath)
  | .error (.createError _ _) | .error (.otherError _ _) | .error .futureTimeoutError =>
    .error (readFailed scriptPath)
  | .error .transportError => .error .transportError

end Gitlab

section Calls

inductive CallRaised where
  | git (e : GitRaised)
  | domain (e : Error)

/-- The answer's status; exceptions without a handler are a 500. -/
def CallRaised.status : CallRaised → ℕ
  | .git (.scriptRepoUnavailableError _) => Error.scriptRepoUnavailableError.status
  | .git .transportError => 500
  | .git .unicodeDecodeError => 500
  | .domain e => e.status

/-- `create_automation` behind its validation: git first, then the insert. -/
def createCall {α : Type} (git : Except GitRaised String) (insert : String → Except Error α) :
    Except CallRaised α :=
  match git with
  | .error e => .error (.git e)
  | .ok gitSha => (insert gitSha).mapError .domain

/-- `update_automation` behind its validation. The release of the claim is best
effort: whatever it raises is dropped and the git error surfaces. -/
def updateCall {α : Type} (claim : Except Error BuildClaim) (git : Except GitRaised String)
    (release : BuildClaim → Except Error Unit) (finish : BuildClaim → String → Except Error α) :
    Except CallRaised α :=
  match claim with
  | .error e => .error (.domain e)
  | .ok claim =>
    match git with
    | .error e =>
      match release claim with
      | .ok () => .error (.git e)
      | .error _ => .error (.git e)
    | .ok gitSha => (finish claim gitSha).mapError .domain

end Calls

section Claims

/-- A failure of the client is the retryable error, and its results are the
repository's. -/
structure FailsRetryably (p : Project) (scriptPath : Str) : Prop where
  commit : (∃ action ∈ (commitScript p scriptPath).2, ∃ id, p.commit action = .ok id ∧
      (commitScript p scriptPath).1 = .ok id) ∨
    ∃ message, (commitScript p scriptPath).1 = .error (.scriptRepoUnavailableError message)
  read : (∃ content s, p.raw = .ok content ∧ decodeRaw content = .ok s ∧
      readScript p scriptPath = .ok (some s)) ∨
    (readScript p scriptPath = .ok none ∧ ∃ message, p.raw = .error (.getError (some 404) message)) ∨
    ∃ message, readScript p scriptPath = .error (.scriptRepoUnavailableError message)
  absent : ∀ message, p.raw = .error (.getError (some 404) message) → readScript p scriptPath = .ok none

/-- Which commits are requested, and how many can succeed. -/
structure FallsBackOnce (p : Project) (scriptPath : Str) : Prop where
  order : (commitScript p scriptPath).2 = [.update] ∨ (commitScript p scriptPath).2 = [.update, .create]
  fallback : .create ∈ (commitScript p scriptPath).2 →
    ∃ message, p.commit .update = .error (.createError (some 400) message) ∧
      isMissingFile (some 400) message = true
  succeed : ((commitScript p scriptPath).2.filter fun a => (p.commit a).toOption.isSome).length ≤ 1

/-- A create or an edit whose git call fails is answered with a 503. -/
def AnswersUnavailable (p : Project) (scriptPath : Str) : Prop :=
  ∀ e, (commitScript p scriptPath).1 = .error e →
    (∀ (α : Type) (insert : String → Except Error α), ∃ r,
      createCall (.error e) insert = .error r ∧ r.status = 503) ∧
    ∀ (α : Type) (claim : BuildClaim) (release : BuildClaim → Except Error Unit)
      (finish : BuildClaim → String → Except Error α), ∃ r,
      updateCall (.ok claim) (.error e) release finish = .error r ∧ r.status = 503

/-- No call that is made meets a transport error, and a content is UTF-8. -/
structure CallsAnswered (p : Project) : Prop where
  update : p.commit .update ≠ .error .transportError
  create : ∀ responseCode message, p.commit .update = .error (.createError responseCode message) →
    isMissingFile responseCode message = true → p.commit .create ≠ .error .transportError
  read : p.raw ≠ .error .transportError
  utf8 : ∀ b, p.raw = .ok (.bytes b) → (String.fromUTF8? b).isSome = true

theorem isMissingFile_code {responseCode : Option ℤ} {message : ErrorMessage}
    (h : isMissingFile responseCode message = true) : responseCode = some 400 := by
  simp only [isMissingFile, Bool.and_eq_true, beq_iff_eq] at h
  exact h.1

/-- How a commit runs: the update stands, the file is absent and a create decides,
or the update fails for good. -/
theorem commitScript_cases (p : Project) (scriptPath : Str) :
    (∃ id, p.commit .update = .ok id ∧ commitScript p scriptPath = (.ok id, [.update])) ∨
    (∃ message, p.commit .update = .error (.createError (some 400) message) ∧
      isMissingFile (some 400) message = true ∧
      commitScript p scriptPath =
        ((p.commit .create).mapError (commitFailed scriptPath), [.update, .create])) ∨
    ∃ e, p.commit .update = .error e ∧
      (∀ responseCode message, e = .createError responseCode message →
        isMissingFile responseCode message = false) ∧
      commitScript p scriptPath = (.error (commitFailed scriptPath e), [.update]) := by
  unfold commitScript
  cases hu : p.commit .update with
  | ok id => exact Or.inl ⟨id, rfl, rfl⟩
  | error e =>
    cases e with
    | createError responseCode message =>
      by_cases hmissing : isMissingFile responseCode message = true
      · obtain rfl := isMissingFile_code hmissing
        refine Or.inr (Or.inl ⟨message, rfl, hmissing, ?_⟩)
        simp only [hmissing, if_true]
      · refine Or.inr (Or.inr ⟨_, rfl, ?_, ?_⟩)
        · intro code' message' he
          obtain ⟨rfl, rfl⟩ := GitlabRaised.createError.inj he
          exact Bool.not_eq_true _ ▸ hmissing
        · simp only [hmissing, if_false, Bool.false_eq_true]
    | getError | otherError | futureTimeoutError | transportError =>
      exact Or.inr (Or.inr ⟨_, rfl, by simp, rfl⟩)

theorem commitScript_fallsBackOnce (p : Project) (scriptPath : Str) : FallsBackOnce p scriptPath := by
  rcases commitScript_cases p scriptPath with
    ⟨id, hu, hrun⟩ | ⟨message, hu, hmissing, hrun⟩ | ⟨e, hu, -, hrun⟩
  · refine ⟨Or.inl (by rw [hrun]), ?_, ?_⟩
    · rw [hrun]
      simp
    · rw [hrun]
      exact (List.length_filter_le _ _).trans le_rfl
  · refine ⟨Or.inr (by rw [hrun]), fun _ => ⟨message, hu, hmissing⟩, ?_⟩
    -- the update has failed, so only the create can succeed
    have hupdate : (p.commit .update).toOption.isSome = false := by
      rw [hu]
      rfl
    rw [hrun]
    simp only [List.filter_cons, hupdate, Bool.false_eq_true, if_false, List.filter_nil]
    split <;> simp
  · refine ⟨Or.inl (by rw [hrun]), ?_, ?_⟩
    · rw [hrun]
      simp
    · rw [hrun]
      exact (List.length_filter_le _ _).trans le_rfl

/-- The outer handler lets only the transport through. -/
theorem commitFailed_unavailable (scriptPath : Str) (e : GitlabRaised) :
    (∃ message, commitFailed scriptPath e = .scriptRepoUnavailableError message) ↔
      e ≠ .transportError := by
  cases e <;> simp [commitFailed]

theorem commit_retryable (p : Project) (scriptPath : Str) :
    ((∃ action ∈ (commitScript p scriptPath).2, ∃ id, p.commit action = .ok id ∧
        (commitScript p scriptPath).1 = .ok id) ∨
      ∃ message, (commitScript p scriptPath).1 = .error (.scriptRepoUnavailableError message)) ↔
    p.commit .update ≠ .error .transportError ∧
      ∀ responseCode message, p.commit .update = .error (.createError responseCode message) →
        isMissingFile responseCode message = true → p.commit .create ≠ .error .transportError := by
  rcases commitScript_cases p scriptPath with
    ⟨id, hu, hrun⟩ | ⟨message, hu, hmissing, hrun⟩ | ⟨e, hu, hnot, hrun⟩
  · rw [hrun, hu]
    simp [hu]
  · rw [hrun, hu]
    cases hc : p.commit .create with
    | ok id => simp [hu, hc, Except.mapError]
    | error e =>
      have hfailed := commitFailed_unavailable scriptPath e
      simp only [Except.mapError, Except.error.injEq, reduceCtorEq, and_false, exists_false, false_or,
        hfailed, ne_eq, not_false_eq_true, true_and, GitlabRaised.createError.injEq, and_imp]
      constructor
      · intro h _ _ _ _ _
        exact h
      · intro h
        exact h (some 400) message rfl rfl hmissing
  · rw [hrun, hu]
    have hfailed := commitFailed_unavailable scriptPath e
    simp only [Except.error.injEq, reduceCtorEq, and_false, exists_false, false_or, hfailed, ne_eq]
    constructor
    · intro h
      refine ⟨h, fun responseCode message he hmissing => ?_⟩
      rw [hnot responseCode message he] at hmissing
      simp at hmissing
    · exact fun h => h.1

theorem read_retryable (p : Project) (scriptPath : Str) :
    (((∃ content s, p.raw = .ok content ∧ decodeRaw content = .ok s ∧
        readScript p scriptPath = .ok (some s)) ∨
      (readScript p scriptPath = .ok none ∧ ∃ message, p.raw = .error (.getError (some 404) message)) ∨
      ∃ message, readScript p scriptPath = .error (.scriptRepoUnavailableError message)) ∧
      ∀ message, p.raw = .error (.getError (some 404) message) → readScript p scriptPath = .ok none) ↔
    p.raw ≠ .error .transportError ∧
      ∀ b, p.raw = .ok (.bytes b) → (String.fromUTF8? b).isSome = true := by
  unfold readScript
  cases hraw : p.raw with
  | ok content =>
    cases content with
    | text s => simp [decodeRaw, Except.map]
    | bytes b =>
      cases hs : String.fromUTF8? b with
      | some s => simp [decodeRaw, hs, Except.map]
      | none => simp [decodeRaw, hs, Except.map]
  | error e =>
    cases e with
    | getError responseCode message =>
      by_cases hcode : responseCode = some 404
      · simp [hcode]
      · simp [hcode, readFailed]
    | createError | otherError | futureTimeoutError => simp [readFailed]
    | transportError => simp

/-- The status of a failed call is the one of the exception that git raised. -/
theorem answersUnavailable_iff {p : Project} {scriptPath : Str} : AnswersUnavailable p scriptPath ↔
    ∀ e, (commitScript p scriptPath).1 = .error e → ∃ message, e = .scriptRepoUnavailableError message := by
  constructor
  · intro h e he
    obtain ⟨r, hr, hstatus⟩ := (h e he).1 Unit fun _ => .ok ()
    obtain rfl : CallRaised.git e = r := Except.error.inj hr
    cases e with
    | scriptRepoUnavailableError message => exact ⟨message, rfl⟩
    | transportError | unicodeDecodeError => simp [CallRaised.status] at hstatus
  · intro h e he
    obtain ⟨message, rfl⟩ := h e he
    refine ⟨fun α insert => ⟨_, rfl, rfl⟩, fun α claim release finish => ?_⟩
    -- the release may raise as well; the git error surfaces
    refine ⟨.git (.scriptRepoUnavailableError message), ?_, rfl⟩
    cases hrelease : release claim with
    | ok u => simp only [updateCall, hrelease]
    | error e => simp only [updateCall, hrelease]

/-- Every failure is the retryable error, and a failed create or edit is answered
with a 503, exactly when no call that is made fails in the transport and the
content is UTF-8. The fallback needs no condition. -/
theorem script_repo_failures_retryable (p : Project) (scriptPath : Str) :
    (FailsRetryably p scriptPath ∧ FallsBackOnce p scriptPath ∧ AnswersUnavailable p scriptPath) ↔
      CallsAnswered p := by
  constructor
  · rintro ⟨h, -, -⟩
    obtain ⟨hupdate, hcreate⟩ := (commit_retryable p scriptPath).mp h.commit
    obtain ⟨hread, hutf8⟩ := (read_retryable p scriptPath).mp ⟨h.read, h.absent⟩
    exact ⟨hupdate, hcreate, hread, hutf8⟩
  · intro h
    have hcommit := (commit_retryable p scriptPath).mpr ⟨h.update, h.create⟩
    have hread := (read_retryable p scriptPath).mpr ⟨h.read, h.utf8⟩
    refine ⟨⟨hcommit, hread.1, hread.2⟩, commitScript_fallsBackOnce p scriptPath, ?_⟩
    apply answersUnavailable_iff.mpr
    intro e he
    rcases hcommit with ⟨action, -, id, -, hok⟩ | ⟨message, herror⟩
    · rw [he] at hok
      simp at hok
    · rw [he] at herror
      exact ⟨message, Except.error.inj herror⟩

/-- A first commit: the update finds no file, the create succeeds. -/
def firstCommit : Project where
  commit := fun
    | .update => .error (.createError (some 400) (.text (lit "A file with this name doesn't exist")))
    | .create => .ok "deadbeef"
  raw := .error (.getError (some 404) (.text (lit "404 File Not Found")))

example : commitScript firstCommit (lit "id/script.py") = (.ok "deadbeef", [.update, .create]) := by
  rfl

/-- A repository that cannot be reached: every call ends in a connection error. -/
def unreachable : Project where
  commit := fun _ => .error .transportError
  raw := .error .transportError

def sampleClaim : BuildClaim where
  automationId := ⟨1⟩
  scriptPath := "id/script.py"
  deadline := 99
  previousBuildState := .idle
  previousBuildingSha := none

/-- A connection error leaves the client as it is, and the create or the edit is
answered with a 500. -/
theorem script_repo_connection_error :
    commitScript unreachable (lit "id/script.py") = (.error .transportError, [.update]) ∧
      readScript unreachable (lit "id/script.py") = .error .transportError ∧
      (∃ r, createCall (.error .transportError) (fun _ => (.ok () : Except Error Unit)) = .error r ∧
        r.status = 500) ∧
      (∃ r, updateCall (.ok sampleClaim) (.error .transportError) (fun _ => .ok ())
        (fun _ _ => (.ok () : Except Error Unit)) = .error r ∧ r.status = 500) ∧
      ¬(FailsRetryably unreachable (lit "id/script.py") ∧ FallsBackOnce unreachable (lit "id/script.py") ∧
        AnswersUnavailable unreachable (lit "id/script.py")) := by
  refine ⟨rfl, rfl, ⟨_, rfl, rfl⟩, ⟨_, rfl, rfl⟩, ?_⟩
  rintro ⟨h, -, -⟩
  rcases h.commit with ⟨action, -, id, hid, -⟩ | ⟨message, hfailed⟩
  · simp [unreachable] at hid
  · have htransport : (commitScript unreachable (lit "id/script.py")).1 = .error .transportError := rfl
    rw [htransport] at hfailed
    simp at hfailed

end Claims

end KeepAutomation.ScriptRepo
