import KeepAutomation.PythonText
import KeepAutomation.Schema

/-! The authoring rules on triggers, cooldown, timeout, grace and wallet name.
Every rule appends a `FieldError` and goes on, so the caller returns all of them. -/
namespace KeepAutomation.Validation

open PythonText

section Limits

def matchableRequired : List Str :=
  [lit "application", lit "component", lit "status", lit "site", lit "severity",
    lit "environment", lit "operator"]

def matchableOptional : List Str := [lit "node_name", lit "network"]

def matchableFields : List Str := matchableRequired ++ matchableOptional

def triggersMin : ℕ := 2

def triggersMax : ℕ := 9

def triggerValueMaxBytes : ℕ := 512

def cooldownFieldsMax : ℕ := 9

def cooldownSecondsMax : ℕ := 86400

def timeoutSecondsMax : ℕ := 900

def graceSecondsMin : ℕ := 60

def graceSecondsMax : ℕ := 3600

def scriptMaxBytes : ℕ := 262144

/-- The count caps are one per matchable field. -/
example : triggersMax = matchableFields.dedup.length ∧
    cooldownFieldsMax = matchableFields.dedup.length := by decide

end Limits

/-- A failure as the validators report it; the message may quote the author's text. -/
structure FieldError where
  field : Str
  code : ErrorCode
  message : Str

/-- What a validator lets through besides its own failures. -/
inductive Escape where
  | unicodeEncodeError | valueError
  deriving DecidableEq, Repr

section Triggers

def triggersTooMany : FieldError where
  field := lit "triggers"
  code := .triggersTooMany
  message := lit "At most " ++ decimal triggersMax ++
    lit " conditions are allowed (one per matchable field)."

def triggersTooFew : FieldError where
  field := lit "triggers"
  code := .triggersTooFew
  message := lit "At least " ++ decimal triggersMin ++ lit " conditions are required."

/-- The path of an entry: `root[i]` and what follows it. -/
def entryPath (root : Str) (i : ℕ) (rest : Str) : Str :=
  root ++ (lit "[" ++ (decimal i ++ (lit "]" ++ rest)))

def invalidTriggerShape (i : ℕ) : FieldError where
  field := entryPath (lit "triggers") i []
  code := .invalidTriggerShape
  message := lit "Each condition must be exactly \x7bfield: string, value: string\x7d " ++
    lit "(exact equality — no operators, OR, or nesting)."

def triggerValueTooLong (i : ℕ) : FieldError where
  field := entryPath (lit "triggers") i (lit ".value")
  code := .triggerValueTooLong
  message := lit "value exceeds " ++ decimal triggerValueMaxBytes ++ lit " UTF-8 bytes — " ++
    lit "the trigger index would silently drop this automation."

def unknownTriggerField (i : ℕ) (name : Str) : FieldError where
  field := entryPath (lit "triggers") i (lit ".field")
  code := .unknownField
  message := lit "'" ++ name ++ lit "' is not a matchable alert field."

def duplicateTriggerField (i : ℕ) (name : Str) : FieldError where
  field := entryPath (lit "triggers") i (lit ".field")
  code := .triggersDuplicateField
  message := lit "Duplicate condition on '" ++ name ++
    lit "' — AND of two values on one field can never match."

/-- The field and the value of an entry of exactly the shape
`{field: string, value: string}`. -/
def asCondition : Value → Option (Str × Str)
  | .dict members =>
    if keys members = {lit "field", lit "value"} then
      match get members (lit "field"), get members (lit "value") with
      | some (.str name), some (.str value) => some (name, value)
      | _, _ => none
    else none
  | _ => none

/-- The size rule on the encoded value. -/
def valueErrors (i : ℕ) (bytes : List Byte) : List FieldError :=
  if triggerValueMaxBytes < bytes.length then [triggerValueTooLong i] else []

/-- One pass of the loop. `seenFields` holds each matchable field with the index
of its first condition. -/
def checkCondition (i : ℕ) (seenFields : List (Str × ℕ)) (condition : Value) :
    Except Escape (List FieldError × List (Str × ℕ)) :=
  match asCondition condition with
  | none => .ok ([invalidTriggerShape i], seenFields)
  | some (name, value) =>
    -- `value.encode("utf-8")` stands outside any handler
    match encode value with
    | none => .error .unicodeEncodeError
    | some bytes =>
      if name ∉ matchableFields then
        .ok (valueErrors i bytes ++ [unknownTriggerField i name], seenFields)
      else if name ∈ seenFields.map Prod.fst then
        .ok (valueErrors i bytes ++ [duplicateTriggerField i name], seenFields)
      else .ok (valueErrors i bytes, seenFields ++ [(name, i)])

def checkConditions (i : ℕ) (seenFields : List (Str × ℕ)) :
    List Value → Except Escape (List FieldError)
  | [] => .ok []
  | condition :: rest =>
    match checkCondition i seenFields condition with
    | .error e => .error e
    | .ok (errors, seenFields) =>
      match checkConditions (i+1) seenFields rest with
      | .error e => .error e
      | .ok more => .ok (errors ++ more)

def validateTriggers (triggers : List Value) : Except Escape (List FieldError) :=
  -- the count cap comes first and alone: each rule below reports once per entry
  if triggersMax < triggers.length then .ok [triggersTooMany]
  else
    match checkConditions 0 [] triggers with
    | .error e => .error e
    | .ok errors =>
      .ok ((if triggers.length < triggersMin then [triggersTooFew] else []) ++ errors)

end Triggers

section Cooldown

-- `str(value)` of the values that are no strings
variable (format : Value → Str)

def pyStr : Value → Str
  | .str s => s
  | value => format value

def cooldownOutOfRange : FieldError where
  field := lit "cooldown_seconds"
  code := .cooldownOutOfRange
  message := lit "cooldown_seconds must be in 1.." ++ decimal cooldownSecondsMax ++ lit "."

def cooldownFieldsRequired : FieldError where
  field := lit "cooldown_fields"
  code := .cooldownFieldsRequired
  message := lit "cooldown_fields is required when cooldown_seconds is set " ++
    lit "(empty list = whole-automation cooldown)."

def cooldownFieldsWithoutSeconds : FieldError where
  field := lit "cooldown_fields"
  code := .cooldownFieldsWithoutSeconds
  message := lit "cooldown_fields requires cooldown_seconds."

def cooldownFieldsTooMany : FieldError where
  field := lit "cooldown_fields"
  code := .cooldownFieldsTooMany
  message := lit "At most " ++ decimal cooldownFieldsMax ++ lit " cooldown fields are allowed."

def unknownCooldownField (i : ℕ) (value : Value) : FieldError where
  field := entryPath (lit "cooldown_fields") i []
  code := .unknownField
  message := lit "'" ++ pyStr format value ++ lit "' is not a matchable alert field."

def isMatchable : Value → Bool
  | .str name => name ∈ matchableFields
  | _ => false

/-- A range rule on an optional integer. -/
def validateRange (error : FieldError) (low high : ℤ) : Option ℤ → List FieldError
  | none => []
  | some n => if n < low ∨ high < n then [error] else []

/-- The coupling of the two cooldown settings: fields are required iff seconds
are set, and an explicit empty list is the whole-automation cooldown. -/
def checkCooldownCoupling (cooldownSeconds : Option ℤ) (cooldownFields : Option (List Value)) :
    List FieldError :=
  match cooldownSeconds, cooldownFields with
  | some _, none => [cooldownFieldsRequired]
  | none, some _ => [cooldownFieldsWithoutSeconds]
  | _, _ => []

def checkCooldownFields (i : ℕ) : List Value → List FieldError
  | [] => []
  | value :: rest =>
    (if isMatchable value then [] else [unknownCooldownField format i value]) ++
      checkCooldownFields (i+1) rest

/-- The cap on the count before the loop, as for the triggers. -/
def boundedCooldownFields (fields : List Value) : List FieldError :=
  if cooldownFieldsMax < fields.length then [cooldownFieldsTooMany]
  else checkCooldownFields format 0 fields

def validateCooldown (cooldownSeconds : Option ℤ) (cooldownFields : Option (List Value)) :
    List FieldError :=
  validateRange cooldownOutOfRange 1 cooldownSecondsMax cooldownSeconds ++
    (checkCooldownCoupling cooldownSeconds cooldownFields ++
      boundedCooldownFields format (cooldownFields.getD []))

end Cooldown

section Settings

def timeoutOutOfRange : FieldError where
  field := lit "timeout_seconds"
  code := .timeoutOutOfRange
  message := lit "timeout_seconds must be in 1.." ++ decimal timeoutSecondsMax ++ lit "."

def graceOutOfRange : FieldError where
  field := lit "grace_seconds"
  code := .graceOutOfRange
  message := lit "grace_seconds must be in " ++ decimal graceSecondsMin ++ lit ".." ++
    decimal graceSecondsMax ++ lit "."

def namespaceInvalid : FieldError where
  field := lit "namespace"
  code := .namespaceInvalid
  message := lit "namespace (wallet name) must not be blank."

def validateTimeout : Option ℤ → List FieldError := validateRange timeoutOutOfRange 1 timeoutSecondsMax

def validateGrace : Option ℤ → List FieldError :=
  validateRange graceOutOfRange graceSecondsMin graceSecondsMax

/-- `not namespace or not namespace.strip()`: nothing but whitespace. -/
def validateNamespace (nameSpace : Str) : Option FieldError :=
  if nameSpace.all PythonText.isSpace then some namespaceInvalid else none

end Settings

section Paths

/-- The path of an error that points at entry `i` of a list. -/
def PointsAt (root : Str) (i : ℕ) (path : Str) : Prop := ∃ rest, path = entryPath root i rest

/-- A decimal ends where its closing bracket stands. -/
theorem decimal_bracket (n : ℕ) (rest : Str) :
    (decimal n ++ (lit "]" ++ rest)).takeWhile isAsciiDigit = decimal n := by
  have hall : ∀ c ∈ decimal n, isAsciiDigit c = true := by
    intro c hc
    have hd := decimal_digit hc
    simp only [isAsciiDigit, Bool.and_eq_true, decide_eq_true_eq]
    exact hd
  have hstop : (lit "]" ++ rest).takeWhile isAsciiDigit = [] := rfl
  rw [List.takeWhile_append_of_pos hall, hstop, List.append_nil]

theorem pointsAt_entryPath {root : Str} {i j : ℕ} {rest : Str} :
    PointsAt root j (entryPath root i rest) ↔ i = j := by
  constructor
  · rintro ⟨rest', h⟩
    have htail : decimal i ++ (lit "]" ++ rest) = decimal j ++ (lit "]" ++ rest') :=
      List.append_cancel_left (List.append_cancel_left h)
    have hd := congrArg (List.takeWhile isAsciiDigit) htail
    rw [decimal_bracket, decimal_bracket] at hd
    exact decimal_injective hd
  · rintro rfl
    exact ⟨rest, rfl⟩

/-- The bare name of a list points at none of its entries. -/
theorem not_pointsAt_root (root : Str) (i : ℕ) : ¬PointsAt root i root := by
  rintro ⟨rest, h⟩
  have hlen := congrArg List.length h
  simp only [entryPath, List.length_append] at hlen
  have hone : (lit "[").length = 1 := rfl
  omega

end Paths

end KeepAutomation.Validation
