import KeepAutomation.DefinitionVerdicts
import KeepAutomation.PythonUrl
import KeepAutomation.ScriptCheck

/-! `validate_automation` as a whole, over the payloads that the model boundary
lets through, and the answer to an author whose payload fails. -/
namespace KeepAutomation

/-- The status of the registered exception handlers; an exception without one is
a 500. -/
def Error.status : Error → ℕ
  | .automationValidationError _ => 400
  | .automationNotFoundError => 404
  | .automationBuildingError => 409
  | .automationLifecycleConflictError _ => 409
  | .automationEditSupersededError => 409
  | .automationBusyError => 503
  | .scriptRepoUnavailableError => 503
  | .cappUnavailableError => 503
  | .buildNotRecordedError => 503
  | .sqlAlchemyError => 500
  | .keyError => 500

namespace Validation

open PythonText PythonModule PythonUrl

/-- The create/edit payload. The model boundary has encoded the script and
capped it; the other texts are whatever JSON can carry. -/
structure AutomationIn where
  name : Str
  nameSpace : Str
  script : Str
  triggers : List Value
  secretName : Option Str
  cooldownSeconds : Option ℤ
  cooldownFields : Option (List Value)
  timeoutSeconds : Option ℤ
  graceSeconds : Option ℤ
  logstashUrl : Option Str
  script_withinByteCap : WithinCap script

/-- How the bounded `getaddrinfo` ends. -/
inductive Resolution where
  | addresses (addresses : List Str)
  | timedOut
  | gaierror
  | unicodeError

/-- What the validation calls: `ast.parse`, `str` of a value that is no string,
the authority checks of `urlparse`, the resolver, `ip_address(a).is_global` of
an address, and the rendering of a `JSONResponse`. -/
structure Libraries where
  parse : Str → Except SyntaxError (List Stmt)
  format : Value → Str
  netlocValid : Str → Bool
  resolve : Str → Resolution
  ipAddress : Str → Option Bool
  render : List FieldError → Option (List Byte)

/-- What a response body can carry. -/
def FieldError.Printable (e : FieldError) : Prop := IsUtf8 e.field ∧ IsUtf8 e.message

/-- The libraries as they are documented: `repr` escapes the surrogates, the parser
quotes only the script, and a response is the UTF-8 of its texts. -/
structure Libraries.Documented (lib : Libraries) : Prop where
  format : ∀ v, (∀ s, v ≠ .str s) → IsUtf8 (lib.format v)
  parse : ∀ s e, IsUtf8 s → lib.parse s = .error e → IsUtf8 e.msg
  render : ∀ errors, (∃ body, lib.render errors = some body) ↔ ∀ e ∈ errors, e.Printable

section LogstashUrl

def resolveTimeoutSeconds : ℕ := 3

def logstashSchemeNotHttps : FieldError where
  field := lit "logstash_url"
  code := .logstashSchemeNotHttps
  message := lit "logstash_url must be a valid https:// URL."

def logstashTimedOut : FieldError where
  field := lit "logstash_url"
  code := .logstashUnresolvable
  message := lit "Hostname resolution exceeded " ++ decimal resolveTimeoutSeconds ++ lit "s."

def logstashUnresolvable : FieldError where
  field := lit "logstash_url"
  code := .logstashUnresolvable
  message := lit "Hostname does not resolve."

def logstashPrivateAddress : FieldError where
  field := lit "logstash_url"
  code := .logstashPrivateAddress
  message := lit "logstash_url resolves to a private or control-plane address."

/-- The verdict on a hostname. A text that is no address is passed over. -/
def checkHostname (lib : Libraries) (hostname : Str) : List FieldError :=
  match lib.resolve hostname with
  | .timedOut => [logstashTimedOut]
  | .gaierror => [logstashUnresolvable]
  | .unicodeError => [logstashUnresolvable]
  | .addresses addresses =>
    if addresses.any fun a => lib.ipAddress a == some false then [logstashPrivateAddress] else []

def validateLogstashUrl (lib : Libraries) : Option Str → Except Escape (List FieldError)
  | none => .ok []
  | some logstashUrl =>
    -- `urlparse` stands outside the handlers of the resolution
    match urlsplit lib.netlocValid logstashUrl with
    | none => .error .valueError
    | some parsed =>
      match parsed.hostname with
      | none => .ok [logstashSchemeNotHttps]
      | some hostname =>
        if parsed.scheme ≠ lit "https" then .ok [logstashSchemeNotHttps]
        else .ok (checkHostname lib hostname)

end LogstashUrl

/-- Every rule, in order; the failures of all of them. -/
def validateAutomation (lib : Libraries) (data : AutomationIn) : Except Escape (List FieldError) :=
  match validateTriggers data.triggers with
  | .error e => .error e
  | .ok triggers =>
    match validateLogstashUrl lib data.logstashUrl with
    | .error e => .error e
    | .ok logstash =>
      match validateScript lib.parse data.script with
      | .error e => .error e
      | .ok script =>
        .ok ((validateNamespace data.nameSpace).toList ++ (triggers ++
          (validateCooldown lib.format data.cooldownSeconds data.cooldownFields ++
            (validateTimeout data.timeoutSeconds ++ (validateGrace data.graceSeconds ++
              (logstash ++ script))))))

section Calls

/-- What an authoring call raises. -/
inductive CallError where
  | validation (errors : List FieldError)
  | escaped (e : Escape)
  | domain (e : Error)

def validated (lib : Libraries) (data : AutomationIn) : Except CallError Unit :=
  match validateAutomation lib data with
  | .error e => .error (.escaped e)
  | .ok [] => .ok ()
  | .ok (error :: errors) => .error (.validation (error :: errors))

/-- `create_automation` and `update_automation`: both validate before they do
anything else. -/
def authoringCall {α : Type} (lib : Libraries) (data : AutomationIn) (rest : Except Error α) :
    Except CallError α :=
  match validated lib data with
  | .error e => .error e
  | .ok () => rest.mapError .domain

/-- The answer's status. The handler of the validation error renders the errors,
and an exception in a handler is a 500 as well. -/
def CallError.status (lib : Libraries) : CallError → ℕ
  | .validation errors => if (lib.render errors).isSome then 400 else 500
  | .escaped _ => 500
  | .domain e => e.status

/-- Validation fails in no way but its own: it returns its failures, a call raises
all of them or goes on without any, and failures are answered as a 400. -/
structure OnlyOwnFailures (lib : Libraries) (data : AutomationIn) : Prop where
  returns : ∃ errors, validateAutomation lib data = .ok errors
  raises : ∀ (α : Type) (rest : Except Error α),
    (validateAutomation lib data = .ok [] ∧ authoringCall lib data rest = rest.mapError .domain) ∨
      ∃ errors, errors ≠ [] ∧ validateAutomation lib data = .ok errors ∧
        authoringCall lib data rest = .error (.validation errors)
  answered : ∀ errors, errors ≠ [] → validateAutomation lib data = .ok errors →
    (CallError.validation errors).status lib = 400

/-- A payload without surrogates in the texts of the entries that are looked at,
and with a URL that `urlparse` can split. -/
structure PlainText (lib : Libraries) (data : AutomationIn) : Prop where
  values : data.triggers.length ≤ triggersMax → EncodableValues data.triggers
  names : data.triggers.length ≤ triggersMax →
    ∀ t ∈ data.triggers, ∀ name value, IsCondition t name value → IsUtf8 name
  fields : (data.cooldownFields.getD []).length ≤ cooldownFieldsMax →
    ∀ name, .str name ∈ data.cooldownFields.getD [] → IsUtf8 name
  url : ∀ u, data.logstashUrl = some u → ∃ p, urlsplit lib.netlocValid u = some p

end Calls

section Escapes

theorem checkConditions_escapes {triggers : List Value} (hbad : ¬EncodableValues triggers) :
    ∀ {i : ℕ} {seenFields : List (Str × ℕ)},
      checkConditions i seenFields triggers = .error .unicodeEncodeError := by
  induction triggers with
  | nil => exact absurd (fun t ht => absurd ht List.not_mem_nil) hbad
  | cons t rest ih =>
    intro i seenFields
    by_cases hrest : EncodableValues rest
    · -- the first entry is the bad one
      have hfirst : ∃ name value, asCondition t = some (name, value) ∧ ¬IsUtf8 value := by
        by_contra hnone
        push Not at hnone
        apply hbad
        intro u hu name value hc
        rcases List.mem_cons.mp hu with rfl | hu
        · exact hnone name value (asCondition_eq_some.mpr hc)
        · exact hrest u hu name value hc
      obtain ⟨name, value, hc, henc⟩ := hfirst
      simp only [checkConditions, checkCondition, hc, encode_eq_none.mpr henc]
    · have htail (seen : List (Str × ℕ)) : checkConditions (i+1) seen rest = .error .unicodeEncodeError :=
        ih hrest
      unfold checkConditions
      cases hpass : checkCondition i seenFields t with
      | ok p => simp only [htail p.2]
      | error e =>
        cases e with
        | unicodeEncodeError => rfl
        | valueError =>
          -- no pass of the loop raises a `ValueError`
          unfold checkCondition at hpass
          split at hpass
          · simp at hpass
          · split at hpass
            · simp at hpass
            · split at hpass
              · simp at hpass
              · split at hpass <;> simp at hpass

theorem validateTriggers_returns {triggers : List Value} :
    (∃ errors, validateTriggers triggers = .ok errors) ↔
      (triggers.length ≤ triggersMax → EncodableValues triggers) := by
  constructor
  · rintro ⟨errors, h⟩ hcap
    by_contra hbad
    unfold validateTriggers at h
    rw [if_neg (Nat.not_lt.mpr hcap), checkConditions_escapes hbad] at h
    simp at h
  · intro h
    by_cases hcap : triggers.length ≤ triggersMax
    · exact ⟨_, validateTriggers_spec (h hcap) hcap⟩
    · exact ⟨_, if_pos (Nat.not_le.mp hcap)⟩

theorem validateLogstashUrl_returns {lib : Libraries} {url : Option Str} :
    (∃ errors, validateLogstashUrl lib url = .ok errors) ↔
      ∀ u, url = some u → ∃ p, urlsplit lib.netlocValid u = some p := by
  cases url with
  | none => exact ⟨fun _ u hu => by simp at hu, fun _ => ⟨[], rfl⟩⟩
  | some u =>
    simp only [Option.some.injEq, forall_eq', validateLogstashUrl]
    cases hp : urlsplit lib.netlocValid u with
    | none => simp only [reduceCtorEq, exists_false]
    | some p =>
      simp only [Option.some.injEq, exists_eq', iff_true]
      cases p.hostname with
      | none => exact ⟨_, rfl⟩
      | some hostname =>
        by_cases hscheme : p.scheme ≠ lit "https"
        · exact ⟨_, if_pos hscheme⟩
        · exact ⟨_, if_neg hscheme⟩

/-- A script that has passed the model boundary is checked without raising. -/
theorem validateScript_returns (parse : Str → Except SyntaxError (List Stmt)) {script : Str}
    (h : WithinCap script) : ∃ errors, validateScript parse script = .ok errors := by
  obtain ⟨bytes, hbytes, hcap⟩ := h
  simp only [validateScript, hbytes, if_neg hcap]
  cases parse script with
  | error e => exact ⟨_, rfl⟩
  | ok body => exact ⟨_, rfl⟩

theorem validateAutomation_returns {lib : Libraries} {data : AutomationIn} :
    (∃ errors, validateAutomation lib data = .ok errors) ↔
      (data.triggers.length ≤ triggersMax → EncodableValues data.triggers) ∧
        ∀ u, data.logstashUrl = some u → ∃ p, urlsplit lib.netlocValid u = some p := by
  rw [← validateTriggers_returns, ← validateLogstashUrl_returns]
  obtain ⟨script, hscript⟩ := validateScript_returns lib.parse data.script_withinByteCap
  unfold validateAutomation
  cases validateTriggers data.triggers with
  | error e => simp only [reduceCtorEq, exists_false, false_and]
  | ok triggers =>
    cases validateLogstashUrl lib data.logstashUrl with
    | error e => simp only [reduceCtorEq, exists_false, and_false]
    | ok logstash => simp only [hscript, Except.ok.injEq, exists_eq', and_self]

end Escapes

section Rendering

theorem printable_nil : ∀ e ∈ ([] : List FieldError), e.Printable := fun _ he =>
  absurd he List.not_mem_nil

theorem printable_singleton {error : FieldError} (h : error.Printable) : ∀ e ∈ [error], e.Printable := by
  intro e he
  rw [List.mem_singleton.mp he]
  exact h

/-- The errors of an entry quote its field, and only a field that is not matchable
can hold a surrogate. -/
theorem entryErrors_printable {before : List Value} {t : Value} :
    (∀ e ∈ entryErrors before t, e.Printable) ↔
      ∀ name value, IsCondition t name value → IsUtf8 name := by
  have hmatchable : ∀ name ∈ matchableFields, IsUtf8 name := by decide +kernel
  constructor
  · intro h name value hcond
    by_cases hfield : name ∈ matchableFields
    · exact hmatchable name hfield
    · have hprint := h (unknownTriggerField before.length name)
        (mem_entryErrors.mpr (Or.inr ⟨name, value, hcond, Or.inr (Or.inl ⟨hfield, rfl⟩)⟩))
      simpa [FieldError.Printable, unknownTriggerField, entryPath] using hprint
  · intro h e he
    rcases mem_entryErrors.mp he with ⟨-, rfl⟩ |
      ⟨name, value, hcond, ⟨-, rfl⟩ | ⟨-, rfl⟩ | ⟨hfield, -, rfl⟩⟩
    · simp [FieldError.Printable, invalidTriggerShape, entryPath]
    · simp [FieldError.Printable, triggerValueTooLong, entryPath]
    · have hname := h name value hcond
      simpa [FieldError.Printable, unknownTriggerField, entryPath] using hname
    · have hname := hmatchable name hfield
      simpa [FieldError.Printable, duplicateTriggerField, entryPath] using hname

theorem reported_printable {triggers : List Value} : ∀ {before : List Value},
    (∀ e ∈ reported before triggers, e.Printable) ↔
      ∀ t ∈ triggers, ∀ name value, IsCondition t name value → IsUtf8 name := by
  induction triggers with
  | nil => simp [reported]
  | cons t rest ih =>
    intro before
    simp only [reported, List.mem_append, or_imp, forall_and, ih, entryErrors_printable,
      List.mem_cons, forall_eq]

/-- The trigger errors can be rendered iff no field they quote has a surrogate. -/
theorem validateTriggers_printable {triggers : List Value} {errors : List FieldError}
    (h : validateTriggers triggers = .ok errors) :
    (∀ e ∈ errors, e.Printable) ↔ (triggers.length ≤ triggersMax →
      ∀ t ∈ triggers, ∀ name value, IsCondition t name value → IsUtf8 name) := by
  by_cases hcap : triggers.length ≤ triggersMax
  · have henc := validateTriggers_returns.mp ⟨errors, h⟩ hcap
    rw [validateTriggers_spec henc hcap, Except.ok.injEq] at h
    subst h
    have hcount : ∀ e ∈ (if triggers.length < triggersMin then [triggersTooFew] else []),
        e.Printable := by
      split
      · exact printable_singleton (by simp [FieldError.Printable, triggersTooFew])
      · exact printable_nil
    simp only [List.mem_append, or_imp, forall_and, reported_printable, hcap, true_imp_iff]
    exact ⟨fun hall => hall.2, fun hall => ⟨hcount, hall⟩⟩
  · rw [validateTriggers, if_pos (Nat.not_le.mp hcap), Except.ok.injEq] at h
    subst h
    refine ⟨fun _ hle => absurd hle hcap, fun _ => printable_singleton ?_⟩
    simp [FieldError.Printable, triggersTooMany]

theorem validateRange_printable {error : FieldError} {low high : ℤ} {value : Option ℤ}
    (herror : error.Printable) : ∀ e ∈ validateRange error low high value, e.Printable := by
  unfold validateRange
  split
  · exact printable_nil
  · split
    · exact printable_singleton herror
    · exact printable_nil

theorem boundedCooldownFields_printable {lib : Libraries} (hlib : lib.Documented)
    (fields : List Value) : (∀ e ∈ boundedCooldownFields lib.format fields, e.Printable) ↔
      (fields.length ≤ cooldownFieldsMax → ∀ name, .str name ∈ fields → IsUtf8 name) := by
  unfold boundedCooldownFields
  by_cases hcap : fields.length ≤ cooldownFieldsMax
  · rw [if_neg (Nat.not_lt.mpr hcap)]
    simp only [hcap, true_imp_iff]
    constructor
    · intro h name hname
      by_cases hfield : name ∈ matchableFields
      · have hmatchable : ∀ name ∈ matchableFields, IsUtf8 name := by decide +kernel
        exact hmatchable name hfield
      · obtain ⟨j, hj⟩ := List.mem_iff_getElem?.mp hname
        have hprint := h (unknownCooldownField lib.format (0+j) (.str name))
          ((mem_checkCooldownFields lib.format).mpr ⟨j, _, hj, decide_eq_false hfield, rfl⟩)
        simpa [FieldError.Printable, unknownCooldownField, entryPath, pyStr] using hprint
    · intro h e he
      obtain ⟨j, v, hv, -, rfl⟩ := (mem_checkCooldownFields lib.format).mp he
      have htext : IsUtf8 (pyStr lib.format v) := by
        unfold pyStr
        split
        · next s => exact h s (List.mem_iff_getElem?.mpr ⟨j, hv⟩)
        · next hv => exact hlib.format v fun s hs => hv s hs
      simpa [FieldError.Printable, unknownCooldownField, entryPath] using htext
  · rw [if_pos (Nat.not_le.mp hcap)]
    refine ⟨fun _ hle => absurd hle hcap, fun _ => printable_singleton ?_⟩
    simp [FieldError.Printable, cooldownFieldsTooMany]

theorem validateCooldown_printable {lib : Libraries} (hlib : lib.Documented)
    (cooldownSeconds : Option ℤ) (cooldownFields : Option (List Value)) :
    (∀ e ∈ validateCooldown lib.format cooldownSeconds cooldownFields, e.Printable) ↔
      ((cooldownFields.getD []).length ≤ cooldownFieldsMax →
        ∀ name, .str name ∈ cooldownFields.getD [] → IsUtf8 name) := by
  have hrange : ∀ e ∈ validateRange cooldownOutOfRange 1 cooldownSecondsMax cooldownSeconds,
      e.Printable := validateRange_printable (by simp [FieldError.Printable, cooldownOutOfRange])
  have hcoupling : ∀ e ∈ checkCooldownCoupling cooldownSeconds cooldownFields, e.Printable := by
    unfold checkCooldownCoupling
    split
    · exact printable_singleton (by simp [FieldError.Printable, cooldownFieldsRequired])
    · exact printable_singleton (by simp [FieldError.Printable, cooldownFieldsWithoutSeconds])
    · exact printable_nil
  simp only [validateCooldown, List.mem_append, or_imp, forall_and,
    boundedCooldownFields_printable hlib]
  exact ⟨fun h => h.2.2, fun h => ⟨hrange, hcoupling, h⟩⟩

theorem logstash_printable {lib : Libraries} {url : Option Str} {errors : List FieldError}
    (h : validateLogstashUrl lib url = .ok errors) : ∀ e ∈ errors, e.Printable := by
  have hscheme : logstashSchemeNotHttps.Printable := by
    simp [FieldError.Printable, logstashSchemeNotHttps]
  have hhost (hostname : Str) : ∀ e ∈ checkHostname lib hostname, e.Printable := by
    have hunresolvable : logstashUnresolvable.Printable := by
      simp [FieldError.Printable, logstashUnresolvable]
    unfold checkHostname
    split
    · exact printable_singleton (by simp [FieldError.Printable, logstashTimedOut])
    · exact printable_singleton hunresolvable
    · exact printable_singleton hunresolvable
    · split
      · exact printable_singleton (by simp [FieldError.Printable, logstashPrivateAddress])
      · exact printable_nil
  unfold validateLogstashUrl at h
  split at h
  · rw [← Except.ok.inj h]
    exact printable_nil
  · split at h
    · simp at h
    · split at h
      · rw [← Except.ok.inj h]
        exact printable_singleton hscheme
      · split at h
        · rw [← Except.ok.inj h]
          exact printable_singleton hscheme
        · rw [← Except.ok.inj h]
          exact hhost _

theorem script_printable {lib : Libraries} (hlib : lib.Documented) {script : Str}
    (hcap : WithinCap script) {errors : List FieldError}
    (h : validateScript lib.parse script = .ok errors) : ∀ e ∈ errors, e.Printable := by
  obtain ⟨bytes, hbytes, hle⟩ := hcap
  have htext : IsUtf8 script := (encode_eq_some.mp hbytes).1
  simp only [validateScript, hbytes, if_neg hle] at h
  cases hparse : lib.parse script with
  | error error =>
    rw [hparse, Except.ok.injEq] at h
    subst h
    have hmsg := hlib.parse script error htext hparse
    apply printable_singleton
    cases hline : error.lineno <;>
      simp [FieldError.Printable, scriptSyntaxError, hline, hmsg]
  | ok body =>
    rw [hparse, Except.ok.injEq] at h
    subst h
    unfold checkHandle
    split
    · exact printable_singleton (by simp [FieldError.Printable, handleMissing])
    · split
      · exact printable_nil
      · exact printable_singleton (by simp [FieldError.Printable, handleBadArity])

/-- The errors of the other rules quote nothing but the parser's message. -/
theorem otherErrors_printable {lib : Libraries} (hlib : lib.Documented) {data : AutomationIn}
    {logstash script : List FieldError}
    (hlogstash : validateLogstashUrl lib data.logstashUrl = .ok logstash)
    (hscript : validateScript lib.parse data.script = .ok script) :
    ∀ e ∈ (validateNamespace data.nameSpace).toList ++ (validateTimeout data.timeoutSeconds ++
      (validateGrace data.graceSeconds ++ (logstash ++ script))), e.Printable := by
  intro e he
  simp only [List.mem_append] at he
  rcases he with he | he | he | he | he
  · unfold validateNamespace at he
    split at he
    · rw [List.mem_singleton.mp he]
      simp [FieldError.Printable, namespaceInvalid]
    · simp at he
  · exact validateRange_printable (by simp [FieldError.Printable, timeoutOutOfRange]) e he
  · exact validateRange_printable (by simp [FieldError.Printable, graceOutOfRange]) e he
  · exact logstash_printable hlogstash e he
  · exact script_printable hlib data.script_withinByteCap hscript e he

end Rendering

section Answers

/-- Which errors the answer can carry, over all rules. -/
theorem validateAutomation_printable {lib : Libraries} (hlib : lib.Documented) {data : AutomationIn}
    {errors : List FieldError} (h : validateAutomation lib data = .ok errors) :
    (∀ e ∈ errors, e.Printable) ↔
      (data.triggers.length ≤ triggersMax →
        ∀ t ∈ data.triggers, ∀ name value, IsCondition t name value → IsUtf8 name) ∧
      ((data.cooldownFields.getD []).length ≤ cooldownFieldsMax →
        ∀ name, .str name ∈ data.cooldownFields.getD [] → IsUtf8 name) := by
  unfold validateAutomation at h
  split at h
  · simp at h
  · next triggers htriggers =>
    split at h
    · simp at h
    · next logstash hlogstash =>
      split at h
      · simp at h
      · next script hscript =>
        rw [Except.ok.injEq] at h
        subst h
        have hother := otherErrors_printable hlib hlogstash hscript
        rw [← validateTriggers_printable htriggers,
          ← validateCooldown_printable hlib data.cooldownSeconds]
        simp only [List.mem_append, or_imp, forall_and] at hother ⊢
        exact ⟨fun h => ⟨h.2.1, h.2.2.1⟩,
          fun h => ⟨hother.1, h.1, h.2, hother.2⟩⟩

/-- A call passes on what the validation returns. -/
theorem authoringCall_cases {lib : Libraries} {data : AutomationIn} {errors : List FieldError}
    (h : validateAutomation lib data = .ok errors) (α : Type) (rest : Except Error α) :
    (errors = [] ∧ authoringCall lib data rest = rest.mapError .domain) ∨
      (errors ≠ [] ∧ authoringCall lib data rest = .error (.validation errors)) := by
  unfold authoringCall validated
  rw [h]
  cases errors with
  | nil => exact Or.inl ⟨rfl, rfl⟩
  | cons error errors => exact Or.inr ⟨List.cons_ne_nil _ _, rfl⟩

/-- Validation fails in its own way exactly on plain text. -/
theorem validation_fails_its_own_way (lib : Libraries) (hlib : lib.Documented) (data : AutomationIn) :
    OnlyOwnFailures lib data ↔ PlainText lib data := by
  constructor
  · intro h
    obtain ⟨errors, herrors⟩ := h.returns
    obtain ⟨hvalues, hurl⟩ := validateAutomation_returns.mp ⟨errors, herrors⟩
    have hprint : ∀ e ∈ errors, e.Printable := by
      by_cases hnil : errors = []
      · rw [hnil]
        exact fun e he => absurd he List.not_mem_nil
      · -- an answer of 400 has been rendered
        have hanswer := h.answered errors hnil herrors
        apply (hlib.render errors).mp
        apply Option.isSome_iff_exists.mp
        by_contra hnone
        rw [CallError.status, if_neg hnone] at hanswer
        exact absurd hanswer (by decide)
    obtain ⟨hnames, hfields⟩ := (validateAutomation_printable hlib herrors).mp hprint
    exact ⟨hvalues, hnames, hfields, hurl⟩
  · intro h
    obtain ⟨errors, herrors⟩ := validateAutomation_returns.mpr ⟨h.values, h.url⟩
    refine ⟨⟨errors, herrors⟩, ?_, ?_⟩
    · intro α rest
      rcases authoringCall_cases herrors α rest with ⟨hnil, hcall⟩ | ⟨hne, hcall⟩
      · exact Or.inl ⟨hnil ▸ herrors, hcall⟩
      · exact Or.inr ⟨errors, hne, herrors, hcall⟩
    · intro errors' _ herrors'
      have hprint := (validateAutomation_printable hlib herrors').mpr ⟨h.names, h.fields⟩
      have hbody := Option.isSome_iff_exists.mpr ((hlib.render errors').mpr hprint)
      rw [CallError.status, if_pos hbody]

def sampleLibraries : Libraries where
  parse := parseOnly soundScript soundBody
  format := fun _ => lit "null"
  netlocValid := fun _ => true
  resolve := fun _ => .addresses [lit "93.184.216.34"]
  ipAddress := fun a => if a = lit "93.184.216.34" then some true else none
  render := fun errors => encode (errors.flatMap fun e => e.field ++ e.message)

theorem sampleLibraries_documented : sampleLibraries.Documented where
  format := fun _ _ => isUtf8_lit _
  parse := by
    intro s e _ h
    have hcases : parseOnly soundScript soundBody s = .error e := h
    unfold parseOnly at hcases
    split at hcases
    · simp at hcases
    · rw [← Except.error.inj hcases]
      exact isUtf8_lit _
  render := by
    intro errors
    have hall : IsUtf8 (errors.flatMap fun e => e.field ++ e.message) ↔ ∀ e ∈ errors, e.Printable := by
      induction errors with
      | nil => simp
      | cons e rest ih =>
        simp only [List.flatMap_cons, isUtf8_append, ih, List.mem_cons, forall_eq_or_imp,
          FieldError.Printable]
    rw [← hall]
    simp only [sampleLibraries, encode_eq_some, exists_eq_right']

theorem soundScript_withinCap : WithinCap soundScript :=
  ⟨utf8 soundScript, by decide +kernel, by decide +kernel⟩

/-- A payload that passes, but for its triggers and its URL. -/
def payloadWith (triggers : List Value) (logstashUrl : Str) : AutomationIn where
  name := lit "restart"
  nameSpace := lit "payments"
  script := soundScript
  triggers := triggers
  secretName := none
  cooldownSeconds := some 300
  cooldownFields := some []
  timeoutSeconds := none
  graceSeconds := some 120
  logstashUrl := some logstashUrl
  script_withinByteCap := soundScript_withinCap

/-- `"\ud800"`. -/
def loneSurrogate : Str := [⟨0xD800, by decide⟩]

def surrogateValue : AutomationIn :=
  payloadWith [sampleCondition (lit "severity") (lit "critical"),
    sampleCondition (lit "application") loneSurrogate] (lit "https://logs.example.com")

def bracketUrl : AutomationIn :=
  payloadWith [sampleCondition (lit "severity") (lit "critical"),
    sampleCondition (lit "application") (lit "payments")] (lit "https://[")

def surrogateName : AutomationIn :=
  payloadWith [sampleCondition (lit "severity") (lit "critical"),
    sampleCondition loneSurrogate (lit "payments")] (lit "https://logs.example.com")

/-- A surrogate in a trigger value and an unclosed bracket in the URL escape the
validation, and a surrogate in a field name escapes the handler of its failure. -/
theorem validation_escapes :
    validateAutomation sampleLibraries surrogateValue = .error .unicodeEncodeError ∧
      ¬OnlyOwnFailures sampleLibraries surrogateValue ∧
      validateAutomation sampleLibraries bracketUrl = .error .valueError ∧
      ¬OnlyOwnFailures sampleLibraries bracketUrl ∧
      validateAutomation sampleLibraries surrogateName = .ok [unknownTriggerField 1 loneSurrogate] ∧
      (CallError.validation [unknownTriggerField 1 loneSurrogate]).status sampleLibraries = 500 ∧
      ¬OnlyOwnFailures sampleLibraries surrogateName := by
  have hvalue : validateAutomation sampleLibraries surrogateValue = .error .unicodeEncodeError := by rfl
  have hurl : validateAutomation sampleLibraries bracketUrl = .error .valueError := by rfl
  have hname : validateAutomation sampleLibraries surrogateName =
      .ok [unknownTriggerField 1 loneSurrogate] := by rfl
  have hstatus : (CallError.validation [unknownTriggerField 1 loneSurrogate]).status sampleLibraries = 500 := by
    decide +kernel
  refine ⟨hvalue, ?_, hurl, ?_, hname, hstatus, ?_⟩
  · intro h
    obtain ⟨errors, herrors⟩ := h.returns
    rw [hvalue] at herrors
    simp at herrors
  · intro h
    obtain ⟨errors, herrors⟩ := h.returns
    rw [hurl] at herrors
    simp at herrors
  · intro h
    have hanswer := h.answered _ (List.cons_ne_nil _ _) hname
    rw [hstatus] at hanswer
    simp at hanswer

def plainPayload : AutomationIn :=
  payloadWith [sampleCondition (lit "severity") (lit "critical"),
    sampleCondition (lit "message") (lit "boom")] (lit "https://logs.example.com")

theorem validation_fails_its_own_way_sample :
    OnlyOwnFailures sampleLibraries plainPayload := by
  have hconditions : ∀ t ∈ plainPayload.triggers, ∀ name value, IsCondition t name value →
      IsUtf8 name ∧ IsUtf8 value := by
    intro t ht name value h
    have hall : ∀ t ∈ plainPayload.triggers, ∀ c ∈ asCondition t, IsUtf8 c.1 ∧ IsUtf8 c.2 := by
      decide +kernel
    exact hall t ht (name, value) (asCondition_eq_some.mpr h)
  apply (validation_fails_its_own_way sampleLibraries sampleLibraries_documented plainPayload).mpr
  refine ⟨fun _ t ht name value h => (hconditions t ht name value h).2,
    fun _ t ht name value h => (hconditions t ht name value h).1,
    fun _ name h => absurd h List.not_mem_nil, ?_⟩
  intro u hu
  rw [← Option.some.inj hu]
  exact Option.isSome_iff_exists.mp (by decide +kernel)

end Answers

end Validation

end KeepAutomation
