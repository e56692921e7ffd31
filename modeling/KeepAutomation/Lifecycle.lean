import KeepAutomation.Authoring

/-! Enable, disable and the admission of a delete: one row-locked transaction
each. -/
namespace KeepAutomation

def stepMarkedDeleting : ℕ := 1
def stepCappResourcesDeleted : ℕ := 2
def stepImagesDeleted : ℕ := 3
def stepScriptArchived : ℕ := 4
def stepDeleted : ℕ := 5

def activeDigestRequired : FieldError where
  field := "active_digest"
  code := .activeDigestRequired
  message := "Cannot enable an automation that has never built " ++
    "successfully; wait for the first build to finish."

/-- The row and the revision a lifecycle transition writes. -/
def Record.transition (r : Record) (target : MatchingState) (action : RevisionAction)
    (actor : String) (now : Timestamp) : Record where
  automation := { r.automation with
    matchingState := target
    indexGeneration := r.automation.indexGeneration+1
    updatedBy := actor
    updatedAt := now }
  revisions := r.revisions ++
    [{ automationId := r.automation.id
       action := action
       gitSha := none
       resultingDigest := r.automation.activeDigest
       actor := actor
       createdAt := now }]

def toggle (target : MatchingState) (action : RevisionAction) (tenantId actor : String)
    (now : Timestamp) (record : Option Record) : Except Error Record :=
  match scopedGet tenantId record with
  | .error e => .error e
  | .ok r =>
    if r.automation.matchingState ∈ deletionStates then
      .error (.automationLifecycleConflictError r.automation.matchingState)
    -- building alone does not block a toggle: the old digest keeps serving
    else if target = .active ∧ blank r.automation.activeDigest then
      .error (.automationValidationError [activeDigestRequired])
    else .ok (r.transition target action actor now)

def enableAutomation : String → String → Timestamp → Option Record → Except Error Record :=
  toggle .active .enable

def disableAutomation : String → String → Timestamp → Option Record → Except Error Record :=
  toggle .inactive .disable

/-- The row and the revision of an admitted delete. -/
def Record.markDeleting (r : Record) (actor : String) (now : Timestamp) : Record :=
  let t := r.transition .deleting .delete actor now
  { t with automation := { t.automation with deleteCascadeStep := some stepMarkedDeleting } }

/-- `DeleteAdmission`: `started` only for the call that moved the row. -/
structure DeleteAdmission where
  record : Record
  started : Bool

def beginDelete (tenantId actor : String) (now : Timestamp) (record : Option Record) :
    Except Error DeleteAdmission :=
  match scopedGet tenantId record with
  | .error e => .error e
  | .ok r =>
    if r.automation.matchingState ∈ deletionStates then
      -- the original deleter stays on the row through every retry
      .ok { record := r, started := false }
    else if r.automation.buildState = .building then
      -- a build is never cancelled
      .error .automationBuildingError
    else .ok { record := r.markDeleting actor now, started := true }

theorem toggle_ok {target : MatchingState} {action : RevisionAction} {tenantId actor : String}
    {now : Timestamp} {record : Option Record} {r' : Record}
    (h : toggle target action tenantId actor now record = .ok r') :
    ∃ r, record = some r ∧ r.automation.tenantId = tenantId ∧
      r.automation.matchingState ∉ deletionStates ∧
      (target = .active → blank r.automation.activeDigest = false) ∧
      r' = r.transition target action actor now := by
  unfold toggle at h
  split at h
  · simp at h
  · next r hr =>
    obtain ⟨hrec, htenant⟩ := scopedGet_ok hr
    split at h
    · simp at h
    · next hstate =>
      split at h
      · simp at h
      · next hdigest =>
        simp only [Except.ok.injEq] at h
        refine ⟨r, hrec, htenant, hstate, ?_, h.symm⟩
        intro ht
        simpa only [ht, true_and, Bool.not_eq_true] using hdigest

/-- A delete is admitted once, from a row that is neither deleting nor building;
every later call reads the row and writes nothing. -/
theorem beginDelete_ok {tenantId actor : String} {now : Timestamp} {record : Option Record}
    {d : DeleteAdmission} (h : beginDelete tenantId actor now record = .ok d) :
    ∃ r, record = some r ∧ r.automation.tenantId = tenantId ∧
      ((r.automation.matchingState ∈ deletionStates ∧ d = ⟨r, false⟩) ∨
       (r.automation.matchingState ∉ deletionStates ∧ r.automation.buildState ≠ .building ∧
          d = ⟨r.markDeleting actor now, true⟩)) := by
  unfold beginDelete at h
  split at h
  · simp at h
  · next r hr =>
    obtain ⟨hrec, htenant⟩ := scopedGet_ok hr
    split at h
    · next hstate =>
      simp only [Except.ok.injEq] at h
      exact ⟨r, hrec, htenant, Or.inl ⟨hstate, h.symm⟩⟩
    · next hstate =>
      split at h
      · simp at h
      · next hbuild =>
        simp only [Except.ok.injEq] at h
        exact ⟨r, hrec, htenant, Or.inr ⟨hstate, hbuild, h.symm⟩⟩

end KeepAutomation
