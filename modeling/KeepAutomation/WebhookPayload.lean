import KeepAutomation.PythonUuid
import KeepAutomation.Sample

/-! The body of the CI webhook: pydantic's reading of the five fields, the model's
validators behind it, and the 400 that names every field at fault. -/
namespace KeepAutomation

/-- What pydantic reports of a field. -/
inductive FieldFault where
  | missing | noneNotAllowed | uuid | str | enum
  /-- a body that is no object -/
  | dict
  /-- a `ValueError` of a validator -/
  | valueError (message : String)
  deriving DecidableEq, Repr

/-- `error["type"]` -/
def FieldFault.type : FieldFault → String
  | .missing => "value_error.missing"
  | .noneNotAllowed => "type_error.none.not_allowed"
  | .uuid => "type_error.uuid"
  | .str => "type_error.str"
  | .enum => "type_error.enum"
  | .dict => "type_error.dict"
  | .valueError _ => "value_error"

/-- `error["msg"]` -/
def FieldFault.msg : FieldFault → String
  | .missing => "field required"
  | .noneNotAllowed => "none is not an allowed value"
  | .uuid => "value is not a valid uuid"
  | .str => "str type expected"
  | .enum => "value is not a valid enumeration member; permitted: 'success', 'failed'"
  | .dict => "value is not a valid dict"
  | .valueError message => message

/-- One error of `request_validation_handler`; the whole body is the field `body`. -/
def FieldFault.handled (field : String) (fault : FieldFault) : FieldError where
  field := if field = "" then "body" else field
  code := if "missing".toList.isSuffixOf fault.type.toList then .fieldRequired else .invalidValue
  message := fault.msg

/-- A JSON object's members in their order. -/
abbrev Members := List (String × Json)

/-- `body.get(key)`: of a repeated key `json.loads` keeps the last value. -/
def Members.get (body : Members) (key : String) : Option Json :=
  (body.reverse.find? fun m => m.1 = key).map Prod.snd

section Fields

/-- `str_validator`: numbers are taken too, and a bool is one. -/
def Python.strValidator (py : Python) : Json → Except FieldFault String
  | .str s => .ok s
  | .bool b => .ok (if b then "True" else "False")
  | .int n => .ok (toString n)
  | .float literal => .ok (py.floatStr literal)
  | _ => .error .str

def Python.uuidValidator (py : Python) : Json → Except FieldFault UUID
  | .str s =>
    match py.uuid s with
    | some u => .ok u
    | none => .error .uuid
  | _ => .error .uuid

def BuildOutcome.value : BuildOutcome → String
  | .success => "success"
  | .failed => "failed"

/-- `enum_member_validator` of `BuildOutcome`. -/
def buildOutcomeValidator : Json → Except FieldFault BuildOutcome
  | .str s =>
    if s = BuildOutcome.success.value then .ok .success
    else if s = BuildOutcome.failed.value then .ok .failed
    else .error .enum
  | _ => .error .enum

/-- A required field: absent, null, or read by its validator. -/
def requiredField {α : Type} (validator : Json → Except FieldFault α) :
    Option Json → Except FieldFault α
  | none => .error .missing
  | some .null => .error .noneNotAllowed
  | some value => validator value

/-- A `str | None = None` field. -/
def optionalField (validator : Json → Except FieldFault String) :
    Option Json → Except FieldFault (Option String)
  | none => .ok none
  | some .null => .ok none
  | some value => (validator value).map some

def commitShaIsGitObjectId (value : String) : Except FieldFault String :=
  if isGitObjectId value then .ok value
  else .error (.valueError "commit_sha must be a lowercase hex git object id")

/-- A validator that asks for a value that passes, on a success only. `status` is
the value of the field before it, nothing where that one is at fault. -/
def requiredOnSuccess (passes : String → Bool) (message : String) (status : Option BuildOutcome)
    (value : Option String) : Except FieldFault (Option String) :=
  if status ≠ some .success then .ok value
  else
    match value with
    | none => .error .missing
    | some text => if passes text then .ok value else .error (.valueError message)

def imageIsDigestPinned : Option BuildOutcome → Option String → Except FieldFault (Option String) :=
  requiredOnSuccess isDigestRef "image must be a digest-pinned reference (repo@sha256:<hex>)"

def contractVersionOnSuccess :
    Option BuildOutcome → Option String → Except FieldFault (Option String) :=
  requiredOnSuccess
    (fun version => !(blank (some version) || decide (contractVersionMaxLength < version.toList.length)))
    "contract_version must be 1-64 characters"

def Python.automationIdField (py : Python) (body : Members) : Except FieldFault UUID :=
  requiredField py.uuidValidator (body.get "automation_id")

def Python.commitShaField (py : Python) (body : Members) : Except FieldFault String :=
  (requiredField py.strValidator (body.get "commit_sha")).bind commitShaIsGitObjectId

def statusField (body : Members) : Except FieldFault BuildOutcome :=
  requiredField buildOutcomeValidator (body.get "status")

def Python.imageField (py : Python) (body : Members) : Except FieldFault (Option String) :=
  (optionalField py.strValidator (body.get "image")).bind
    (imageIsDigestPinned (statusField body).toOption)

def Python.contractVersionField (py : Python) (body : Members) : Except FieldFault (Option String) :=
  (optionalField py.strValidator (body.get "contract_version")).bind
    (contractVersionOnSuccess (statusField body).toOption)

inductive WebhookField where
  | automationId | commitSha | status | image | contractVersion
  deriving DecidableEq, Repr

def WebhookField.name : WebhookField → String
  | .automationId => "automation_id"
  | .commitSha => "commit_sha"
  | .status => "status"
  | .image => "image"
  | .contractVersion => "contract_version"

/-- The fields in the model's order. -/
def webhookFields : List WebhookField := [.automationId, .commitSha, .status, .image, .contractVersion]

def faultIn {α : Type} : Except FieldFault α → Option FieldFault
  | .ok _ => none
  | .error fault => some fault

def Python.fieldFault (py : Python) (body : Members) : WebhookField → Option FieldFault
  | .automationId => faultIn (py.automationIdField body)
  | .commitSha => faultIn (py.commitShaField body)
  | .status => faultIn (statusField body)
  | .image => faultIn (py.imageField body)
  | .contractVersion => faultIn (py.contractVersionField body)

/-- The errors of all fields, in the model's order. -/
def Python.webhookErrors (py : Python) (body : Members) : List FieldError :=
  webhookFields.filterMap fun f => (py.fieldFault body f).map (FieldFault.handled f.name)

theorem bind_ok {α β : Type} {x : Except FieldFault α} {f : α → Except FieldFault β} {b : β} :
    x.bind f = .ok b ↔ ∃ a, x = .ok a ∧ f a = .ok b := by
  cases x with
  | error fault => simp [Except.bind]
  | ok a => simp [Except.bind]

theorem commitShaIsGitObjectId_ok {value sha : String} :
    commitShaIsGitObjectId value = .ok sha ↔ isGitObjectId sha = true ∧ value = sha := by
  unfold commitShaIsGitObjectId
  split
  · next h =>
    rw [Except.ok.injEq]
    exact ⟨fun he => ⟨he ▸ h, he⟩, fun he => he.2⟩
  · next h =>
    refine iff_of_false (by simp) ?_
    rintro ⟨hvalid, rfl⟩
    exact h hvalid

theorem requiredOnSuccess_ok {passes : String → Bool} {message : String} {status : Option BuildOutcome}
    {value out : Option String} : requiredOnSuccess passes message status value = .ok out ↔
      (status = some .success → out.any passes = true) ∧ value = out := by
  unfold requiredOnSuccess
  split
  · next h => simp [h]
  · next h =>
    rw [not_not] at h
    cases value with
    | none =>
      refine iff_of_false (by simp) ?_
      rintro ⟨hany, rfl⟩
      exact absurd (hany h) Bool.false_ne_true
    | some text =>
      dsimp only
      split
      · next hpasses =>
        rw [Except.ok.injEq]
        exact ⟨fun he => ⟨fun _ => he ▸ hpasses, he⟩, fun he => he.2⟩
      · next hfails =>
        refine iff_of_false (by simp) ?_
        rintro ⟨hany, rfl⟩
        exact hfails (hany h)

theorem imageIsDigestPinned_ok {status : Option BuildOutcome} {value image : Option String} :
    imageIsDigestPinned status value = .ok image ↔
      (status = some .success → image.any isDigestRef = true) ∧ value = image := requiredOnSuccess_ok

/-- The length and the blankness that the model's own field states. -/
def wellVersioned (version : Option String) : Bool :=
  !blank version && version.all fun v => v.toList.length ≤ contractVersionMaxLength

theorem contractVersionOnSuccess_ok {status : Option BuildOutcome} {value version : Option String} :
    contractVersionOnSuccess status value = .ok version ↔
      (status = some .success → wellVersioned version = true) ∧ value = version := by
  have hwell : wellVersioned version = version.any fun v =>
      !(blank (some v) || decide (contractVersionMaxLength < v.toList.length)) := by
    cases version with
    | none => rfl
    | some v => simp only [wellVersioned, Option.all_some, Option.any_some, Bool.not_or, ← decide_not, not_lt]
  rw [hwell]
  exact requiredOnSuccess_ok

theorem commitSha_valid {py : Python} {body : Members} {sha : String}
    (h : py.commitShaField body = .ok sha) : isGitObjectId sha = true := by
  obtain ⟨value, -, hvalue⟩ := bind_ok.mp h
  exact (commitShaIsGitObjectId_ok.mp hvalue).1

theorem image_valid {py : Python} {body : Members} {status : BuildOutcome} {image : Option String}
    (hstatus : statusField body = .ok status) (h : py.imageField body = .ok image) :
    status = .success → image.any isDigestRef = true := by
  intro hsuccess
  obtain ⟨value, -, hvalue⟩ := bind_ok.mp h
  apply (imageIsDigestPinned_ok.mp hvalue).1
  rw [hstatus, hsuccess]
  rfl

theorem contractVersion_valid {py : Python} {body : Members} {status : BuildOutcome}
    {version : Option String} (hstatus : statusField body = .ok status)
    (h : py.contractVersionField body = .ok version) :
    status = .success → !blank version && version.all fun v =>
      v.toList.length ≤ contractVersionMaxLength := by
  intro hsuccess
  obtain ⟨value, -, hvalue⟩ := bind_ok.mp h
  apply (contractVersionOnSuccess_ok.mp hvalue).1
  rw [hstatus, hsuccess]
  rfl

/-- `CiWebhookIn(**body)`: no field is skipped because of another one's fault. -/
def Python.ciWebhookIn (py : Python) (body : Members) : Except (List FieldError) CiWebhookIn :=
  match py.automationIdField body, h₂ : py.commitShaField body, h₃ : statusField body,
    h₄ : py.imageField body, h₅ : py.contractVersionField body with
  | .ok automationId, .ok commitSha, .ok status, .ok image, .ok contractVersion =>
    .ok ⟨automationId, commitSha, status, image, contractVersion, commitSha_valid h₂,
      image_valid h₃ h₄, contractVersion_valid h₃ h₅⟩
  | _, _, _, _, _ => .error (py.webhookErrors body)

end Fields

section Exact

/-- The key is missing or null. -/
def Members.absent (body : Members) (key : String) : Prop :=
  body.get key = none ∨ body.get key = some .null

/-- An optional field holds this text, or none. -/
def Python.holdsText (py : Python) (body : Members) (key : String) (text : Option String) : Prop :=
  (body.absent key ∧ text = none) ∨
    ∃ value s, body.get key = some value ∧ py.strValidator value = .ok s ∧ text = some s

/-- The status is a success. -/
def Members.claimsSuccess (body : Members) : Prop :=
  body.get "status" = some (.str BuildOutcome.success.value)

/-- What each field has to hold. -/
def Python.wellFormed (py : Python) (body : Members) : WebhookField → Prop
  | .automationId => ∃ text u, body.get "automation_id" = some (.str text) ∧ py.uuid text = some u
  | .commitSha => ∃ value sha, body.get "commit_sha" = some value ∧
      py.strValidator value = .ok sha ∧ isGitObjectId sha = true
  | .status => ∃ o : BuildOutcome, body.get "status" = some (.str o.value)
  | .image => ∃ image, py.holdsText body "image" image ∧
      (body.claimsSuccess → image.any isDigestRef = true)
  | .contractVersion => ∃ version, py.holdsText body "contract_version" version ∧
      (body.claimsSuccess → wellVersioned version = true)

/-- The body says what the event holds. -/
structure Python.Denotes (py : Python) (body : Members) (event : CiWebhookIn) : Prop where
  automationId : ∃ text, body.get "automation_id" = some (.str text) ∧
    py.uuid text = some event.automationId
  commitSha : ∃ value, body.get "commit_sha" = some value ∧
    py.strValidator value = .ok event.commitSha
  status : body.get "status" = some (.str event.status.value)
  image : py.holdsText body "image" event.image
  contractVersion : py.holdsText body "contract_version" event.contractVersion

variable {py : Python} {body : Members}

theorem ciWebhookIn_ok {event : CiWebhookIn} :
    py.ciWebhookIn body = .ok event ↔
      py.automationIdField body = .ok event.automationId ∧
        py.commitShaField body = .ok event.commitSha ∧ statusField body = .ok event.status ∧
          py.imageField body = .ok event.image ∧
            py.contractVersionField body = .ok event.contractVersion := by
  unfold Python.ciWebhookIn
  split
  · next h₁ h₂ h₃ h₄ h₅ =>
    simp only [h₁, h₂, h₃, h₄, h₅, Except.ok.injEq]
    cases event
    simp only [CiWebhookIn.mk.injEq]
  · next hno =>
    refine iff_of_false (by simp) ?_
    rintro ⟨h₁, h₂, h₃, h₄, h₅⟩
    exact hno _ _ _ _ _ h₁ h₂ h₃ h₄ h₅

theorem requiredField_ok {α : Type} {validator : Json → Except FieldFault α} {value : Option Json}
    {a : α} (hnull : validator .null ≠ .ok a) :
    requiredField validator value = .ok a ↔ ∃ v, value = some v ∧ validator v = .ok a := by
  cases value with
  | none => simp [requiredField]
  | some v =>
    simp only [Option.some.injEq, exists_eq_left']
    cases v with
    | null => exact iff_of_false (by simp [requiredField]) hnull
    | _ => rfl

theorem optionalField_ok {key : String} {text : Option String} :
    optionalField py.strValidator (body.get key) = .ok text ↔ py.holdsText body key text := by
  have hnull : py.strValidator .null = .error .str := rfl
  unfold Python.holdsText Members.absent
  cases body.get key with
  | none => simp [optionalField, eq_comm]
  | some v =>
    have hread : (py.strValidator v).map some = .ok text ↔
        ∃ s, py.strValidator v = .ok s ∧ text = some s := by
      cases py.strValidator v with
      | error fault => simp [Except.map]
      | ok s => simp [Except.map, eq_comm]
    cases v with
    | null => simp [optionalField, hnull, eq_comm]
    | _ => simpa [optionalField] using hread

theorem uuidValidator_ok {v : Json} {u : UUID} :
    py.uuidValidator v = .ok u ↔ ∃ text, v = .str text ∧ py.uuid text = some u := by
  cases v with
  | str text =>
    simp only [Python.uuidValidator, Json.str.injEq, exists_eq_left']
    cases py.uuid text with
    | none => simp
    | some w => simp
  | _ => simp [Python.uuidValidator]

theorem buildOutcomeValidator_ok {v : Json} {o : BuildOutcome} :
    buildOutcomeValidator v = .ok o ↔ v = .str o.value := by
  cases v with
  | str s =>
    simp only [buildOutcomeValidator, Json.str.injEq]
    split
    · next h => cases o <;> simp [h, BuildOutcome.value]
    · next hs =>
      split
      · next h => cases o <;> simp [h, BuildOutcome.value]
      · next hf =>
        cases o with
        | success => simpa using hs
        | failed => simpa using hf
  | _ => simp [buildOutcomeValidator]

theorem statusField_ok {o : BuildOutcome} :
    statusField body = .ok o ↔ body.get "status" = some (.str o.value) := by
  have hnull : buildOutcomeValidator .null ≠ .ok o := by simp [buildOutcomeValidator]
  unfold statusField
  rw [requiredField_ok hnull]
  simp only [buildOutcomeValidator_ok, exists_eq_right]

/-- The later validators see a success exactly when the body claims one. -/
theorem status_toOption : (statusField body).toOption = some .success ↔ body.claimsSuccess := by
  have hok : statusField body = .ok .success ↔ body.get "status" = some (.str BuildOutcome.success.value) :=
    statusField_ok
  unfold Members.claimsSuccess
  rw [← hok]
  cases statusField body with
  | error fault => simp [Except.toOption]
  | ok o => simp [Except.toOption]

theorem automationIdField_ok {u : UUID} : py.automationIdField body = .ok u ↔
    ∃ text, body.get "automation_id" = some (.str text) ∧ py.uuid text = some u := by
  have hnull : py.uuidValidator .null ≠ .ok u := by simp [Python.uuidValidator]
  unfold Python.automationIdField
  rw [requiredField_ok hnull]
  constructor
  · rintro ⟨v, hv, hread⟩
    obtain ⟨text, rfl, hu⟩ := uuidValidator_ok.mp hread
    exact ⟨text, hv, hu⟩
  · rintro ⟨text, hv, hu⟩
    exact ⟨_, hv, uuidValidator_ok.mpr ⟨text, rfl, hu⟩⟩

theorem commitShaField_ok {sha : String} : py.commitShaField body = .ok sha ↔
    ∃ value, body.get "commit_sha" = some value ∧ py.strValidator value = .ok sha ∧
      isGitObjectId sha = true := by
  have hnull {s : String} : py.strValidator .null ≠ .ok s := by simp [Python.strValidator]
  unfold Python.commitShaField
  simp only [bind_ok, requiredField_ok hnull, commitShaIsGitObjectId_ok]
  constructor
  · rintro ⟨s, ⟨v, hv, hs⟩, hvalid, rfl⟩
    exact ⟨v, hv, hs, hvalid⟩
  · rintro ⟨v, hv, hs, hvalid⟩
    exact ⟨sha, ⟨v, hv, hs⟩, hvalid, rfl⟩

theorem imageField_ok {image : Option String} : py.imageField body = .ok image ↔
    py.holdsText body "image" image ∧ (body.claimsSuccess → image.any isDigestRef = true) := by
  unfold Python.imageField
  simp only [bind_ok, optionalField_ok, imageIsDigestPinned_ok, status_toOption]
  constructor
  · rintro ⟨_, hread, hpinned, rfl⟩
    exact ⟨hread, hpinned⟩
  · rintro ⟨hread, hpinned⟩
    exact ⟨_, hread, hpinned, rfl⟩

theorem contractVersionField_ok {version : Option String} :
    py.contractVersionField body = .ok version ↔ py.holdsText body "contract_version" version ∧
      (body.claimsSuccess → wellVersioned version = true) := by
  unfold Python.contractVersionField
  simp only [bind_ok, optionalField_ok, contractVersionOnSuccess_ok, status_toOption]
  constructor
  · rintro ⟨_, hread, hwell, rfl⟩
    exact ⟨hread, hwell⟩
  · rintro ⟨hread, hwell⟩
    exact ⟨_, hread, hwell, rfl⟩

theorem denotes_iff {event : CiWebhookIn} :
    py.ciWebhookIn body = .ok event ↔ py.Denotes body event := by
  have hclaims : body.get "status" = some (.str event.status.value) →
      (body.claimsSuccess ↔ event.status = .success) := by
    intro hstatus
    unfold Members.claimsSuccess
    rw [hstatus]
    cases event.status with
    | success => simp
    | failed => simp [BuildOutcome.value]
  rw [ciWebhookIn_ok, automationIdField_ok, commitShaField_ok, statusField_ok, imageField_ok,
    contractVersionField_ok]
  constructor
  · rintro ⟨hid, ⟨value, hvalue, hsha, -⟩, hstatus, ⟨himage, -⟩, hversion, -⟩
    exact ⟨hid, ⟨value, hvalue, hsha⟩, hstatus, himage, hversion⟩
  · rintro ⟨hid, ⟨value, hvalue, hsha⟩, hstatus, himage, hversion⟩
    -- the validators hold of the event: its own fields say so
    refine ⟨hid, ⟨value, hvalue, hsha, event.commitSha_isGitObjectId⟩, hstatus, ⟨himage, ?_⟩,
      hversion, ?_⟩
    · intro h
      exact event.image_isDigestPinned ((hclaims hstatus).mp h)
    · intro h
      exact event.contractVersion_onSuccess ((hclaims hstatus).mp h)

def samplePython : Python where
  floatStr := id
  decimal := fun _ => none

/-- What a pipeline sends of an event. -/
def CiWebhookIn.dict (event : CiWebhookIn) : Members :=
  let text (value : Option String) : Json :=
    match value with
    | some s => .str s
    | none => .null
  [("automation_id", .str event.automationId.str), ("commit_sha", .str event.commitSha),
    ("status", .str event.status.value), ("image", text event.image),
    ("contract_version", text event.contractVersion)]

/-- The body has these members, in any order and beside any others; a null one may
be left out. -/
def Members.Carries (body sent : Members) : Prop :=
  ∀ m ∈ sent, body.get m.1 = some m.2 ∨ m.2 = .null ∧ body.get m.1 = none

/-- An event sent is the event received. -/
theorem webhook_payload_round_trip (py : Python) (event : CiWebhookIn) {body : Members}
    (h : body.Carries event.dict) : py.ciWebhookIn body = .ok event := by
  have hget {key : String} {s : String} (hm : (key, Json.str s) ∈ event.dict) :
      body.get key = some (.str s) := by
    rcases h _ hm with hsome | ⟨hnull, -⟩
    · exact hsome
    · simp at hnull
  have htext {key : String} {value : Option String}
      (hm : (key, match value with | some s => Json.str s | none => Json.null) ∈ event.dict) :
      py.holdsText body key value := by
    cases value with
    | some s => exact Or.inr ⟨_, s, hget hm, rfl, rfl⟩
    | none =>
      left
      rcases h _ hm with hnull | ⟨-, hnone⟩
      · exact ⟨Or.inr hnull, rfl⟩
      · exact ⟨Or.inl hnone, rfl⟩
  apply denotes_iff.mpr
  refine ⟨⟨_, hget (by simp [CiWebhookIn.dict]), py.uuid_str _⟩,
    ⟨_, hget (by simp [CiWebhookIn.dict]), rfl⟩, hget (by simp [CiWebhookIn.dict]), htext ?_, htext ?_⟩
  · simp [CiWebhookIn.dict]
  · simp [CiWebhookIn.dict]

/-- The members the other way round, behind one that the model does not have. -/
theorem webhook_payload_round_trip_sample :
    samplePython.ciWebhookIn (("pipeline", .int 7) :: firstSuccess.dict.reverse) = .ok firstSuccess := by
  apply webhook_payload_round_trip
  intro m hm
  left
  simp only [CiWebhookIn.dict, List.mem_cons, List.not_mem_nil, or_false] at hm
  rcases hm with rfl | rfl | rfl | rfl | rfl <;> rfl

end Exact

end KeepAutomation
