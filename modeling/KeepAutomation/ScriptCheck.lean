import KeepAutomation.DefinitionRules
import KeepAutomation.PythonModule

/-! The contract check of a submitted script: it is parsed, never executed, and
the check judges one of its top-level `handle` functions. -/
namespace KeepAutomation.Validation

open PythonText PythonModule

def handleParamsMin : ℕ := 1

def handleParamsMax : ℕ := 2

def handleName : Str := lit "handle"

/-- A `SyntaxError` of `ast.parse`. -/
structure SyntaxError where
  lineno : Option ℕ
  msg : Str

def scriptTooLarge : FieldError where
  field := lit "script"
  code := .scriptTooLarge
  message := lit "script exceeds " ++ decimal scriptMaxBytes ++ lit " bytes."

def scriptSyntaxError (e : SyntaxError) : FieldError where
  field := lit "script"
  code := .scriptSyntaxError
  message := lit "line " ++ (e.lineno.elim (lit "None") decimal ++ (lit ": " ++ e.msg))

def handleMissing : FieldError where
  field := lit "script"
  code := .handleMissing
  message := lit "script must define a top-level handle function."

def handleBadArity (positional : ℕ) : FieldError where
  field := lit "script"
  code := .handleBadArity
  message := lit "handle must take " ++ decimal handleParamsMin ++ lit "–" ++
    decimal handleParamsMax ++ lit " positional parameters (got " ++ decimal positional ++ lit ")."

/-- The byte cap, checked before any parsing. -/
def exceedsCap (bytes : List Byte) : Prop := scriptMaxBytes < bytes.length

instance (bytes : List Byte) : Decidable (exceedsCap bytes) :=
  inferInstanceAs (Decidable (scriptMaxBytes < bytes.length))

/-- `HANDLE_PARAMS_MIN <= positional <= HANDLE_PARAMS_MAX`. -/
def ArityOk (args : Arguments) : Prop :=
  handleParamsMin ≤ args.positional ∧ args.positional ≤ handleParamsMax

instance (args : Arguments) : Decidable (ArityOk args) :=
  inferInstanceAs (Decidable (handleParamsMin ≤ args.positional ∧ args.positional ≤ handleParamsMax))

/-- The check of a parsed script. The search takes the first definition. -/
def checkHandle (body : List Stmt) : List FieldError :=
  match body.findSome? (Stmt.define handleName) with
  | none => [handleMissing]
  | some args => if ArityOk args then [] else [handleBadArity args.positional]

-- `ast.parse`
variable (parse : Str → Except SyntaxError (List Stmt))

def validateScript (script : Str) : Except Escape (List FieldError) :=
  match encode script with
  | none => .error .unicodeEncodeError
  | some bytes =>
    if exceedsCap bytes then .ok [scriptTooLarge]
    else
      match parse script with
      | .error e => .ok [scriptSyntaxError e]
      | .ok body => .ok (checkHandle body)

/-- The handle that a module exposes can run: it has one or two positional
parameters and takes as many positional arguments. -/
def RunsHandle (ns : Namespace) : Prop :=
  ∃ args, ns handleName = some (.function args) ∧ ArityOk args ∧ args.AcceptsCall args.positional

/-- The check accepts a script iff the module it loads as has a handle that can run. -/
def JudgesHandle (script : Str) (body : List Stmt) : Prop :=
  ∀ ns ns', ns handleName = none → Load ns body ns' →
    (validateScript parse script = .ok [] ↔ RunsHandle ns')

/-- A script that the check parses at all. -/
def WithinCap (script : Str) : Prop := ∃ bytes, encode script = some bytes ∧ ¬exceedsCap bytes

/-- Redefining `handle` takes it across the bounds of the arity, one way or the
other. -/
def CrossesBounds (body : List Stmt) : Prop :=
  ∃ first last, (definitions handleName body).head? = some first ∧
    (definitions handleName body).getLast? = some last ∧
    (ArityOk first ∧ ¬ArityOk last ∨ ¬ArityOk first ∧ ArityOk last)

/-- The last definition is within the bounds. -/
def EndsWithinBounds (body : List Stmt) : Prop :=
  ∃ last, (definitions handleName body).getLast? = some last ∧ ArityOk last

/-- The last definition is within the bounds and requires a keyword. -/
def RequiresKeyword (body : List Stmt) : Prop :=
  ∃ last, (definitions handleName body).getLast? = some last ∧ ArityOk last ∧
    ∃ p ∈ last.kwonlyargs, p.2 = false

/-- The definition that the check counts is not of the arity of the last one; a
script over the cap, of which it counts none, ends in one it would have let pass. -/
def Miscounted (script : Str) (body : List Stmt) : Prop :=
  WithinCap script ∧ CrossesBounds body ∨ ¬WithinCap script ∧ EndsWithinBounds body

theorem findSome_define (body : List Stmt) :
    body.findSome? (Stmt.define handleName) = (definitions handleName body).head? := by
  rw [definitions, List.head?_filterMap]

/-- A parsed script passes iff it is within the cap and its first handle has an
accepted arity. -/
theorem validateScript_accepts {script : Str} {body : List Stmt} (hparse : parse script = .ok body) :
    validateScript parse script = .ok [] ↔ WithinCap script ∧
      ∃ first, (definitions handleName body).head? = some first ∧ ArityOk first := by
  unfold validateScript WithinCap
  cases hencode : encode script with
  | none => simp only [reduceCtorEq, false_and, exists_false]
  | some bytes =>
    simp only [Option.some.injEq, exists_eq_left']
    by_cases hcap : exceedsCap bytes
    · simp only [hcap, if_true, not_true_eq_false, false_and, Except.ok.injEq, List.cons_ne_nil]
    · simp only [hcap, if_false, hparse, Except.ok.injEq, not_false_eq_true, true_and, checkHandle,
        findSome_define]
      cases (definitions handleName body).head? with
      | none => simp only [List.cons_ne_nil, reduceCtorEq, false_and, exists_false]
      | some first =>
        by_cases harity : ArityOk first
        · simp only [harity, if_true, Option.some.injEq, exists_eq_left']
        · simp only [harity, if_false, List.cons_ne_nil, Option.some.injEq, exists_eq_left']

/-- What a loaded module runs is the last definition. -/
theorem runsHandle_iff {ns ns' : Namespace} {body : List Stmt} (hns : ns handleName = none)
    (hload : Load ns body ns') (hdef : BindsByDef handleName body) :
    RunsHandle ns' ↔ ∃ last, (definitions handleName body).getLast? = some last ∧ ArityOk last ∧
      ∀ p ∈ last.kwonlyargs, p.2 = true := by
  have hexposed := hload.exposes hdef
  unfold RunsHandle
  rw [hexposed]
  cases (definitions handleName body).getLast? with
  | none => simp only [hns, reduceCtorEq, false_and, exists_false]
  | some last =>
    simp only [Option.some.injEq, Object.function.injEq, exists_eq_left',
      Arguments.acceptsCall_positional]

/-- Both verdicts, read off the definitions of `handle`. -/
theorem judgesHandle_iff {script : Str} {body : List Stmt} (hparse : parse script = .ok body)
    (hdef : BindsByDef handleName body) : JudgesHandle parse script body ↔
      ((WithinCap script ∧ ∃ first, (definitions handleName body).head? = some first ∧ ArityOk first) ↔
        ∃ last, (definitions handleName body).getLast? = some last ∧ ArityOk last ∧
          ∀ p ∈ last.kwonlyargs, p.2 = true) := by
  have haccepts := validateScript_accepts parse hparse
  constructor
  · intro h
    obtain ⟨ns', hload⟩ := Load.exists body fun _ => none
    rw [← haccepts, ← runsHandle_iff rfl hload hdef]
    exact h _ ns' rfl hload
  · intro h ns ns' hns hload
    rw [haccepts, runsHandle_iff hns hload hdef]
    exact h

/-- The check judges the handle that will run unless it counts another definition's
parameters or overlooks a required keyword. Where both happen it refuses a script
that is to be refused, for the wrong reason. -/
theorem script_check_judges_last (script : Str) (body : List Stmt)
    (hparse : parse script = .ok body) (hdef : BindsByDef handleName body) :
    JudgesHandle parse script body ↔
      ¬Miscounted script body ∧ ¬RequiresKeyword body ∨
        Miscounted script body ∧ RequiresKeyword body := by
  rw [judgesHandle_iff parse hparse hdef]
  unfold Miscounted CrossesBounds EndsWithinBounds RequiresKeyword
  cases hlast : (definitions handleName body).getLast? with
  | none =>
    -- no definition at all: neither verdict accepts
    rw [List.getLast?_eq_none_iff] at hlast
    simp [hlast]
  | some last =>
    have hne : definitions handleName body ≠ [] := by
      intro hnil
      rw [hnil] at hlast
      simp at hlast
    obtain ⟨first, hfirst⟩ := Option.isSome_iff_exists.mp (List.isSome_head?.mpr hne)
    have hkeyword : (∃ p ∈ last.kwonlyargs, p.2 = false) ↔ ¬∀ p ∈ last.kwonlyargs, p.2 = true := by
      simp
    simp only [hfirst, Option.some.injEq, exists_eq_left', exists_and_left, hkeyword]
    by_cases harity : ArityOk last
    · simp only [harity, true_and, not_true_eq_false, and_false, false_or, and_true]
      tauto
    · simp only [harity, false_and, and_false, not_false_eq_true, and_true, or_false]
      tauto

/-- Plain parameters, followed by keyword-only ones. -/
def plainArguments (args : List Str) (kwonlyargs : List (Str × Bool)) : Arguments where
  posonlyargs := []
  args := args
  defaults := 0
  vararg := none
  kwonlyargs := kwonlyargs
  kwarg := none
  defaults_le := Nat.zero_le _

/-- A parser that knows one script. -/
def parseOnly (script : Str) (body : List Stmt) (s : Str) : Except SyntaxError (List Stmt) :=
  if s = script then .ok body else .error ⟨some 1, lit "invalid syntax"⟩

def redefinedScript : Str := lit "def handle(alert): pass\ndef handle(): pass\n"

def redefinedBody : List Stmt :=
  [.functionDef handleName (plainArguments [lit "alert"] []),
    .functionDef handleName (plainArguments [] [])]

def keywordScript : Str := lit "def handle(alert, *, retries): pass\n"

def keywordBody : List Stmt :=
  [.functionDef handleName (plainArguments [lit "alert"] [(lit "retries", false)])]

theorem bindsByDef_of_any {name : Str} {body : List Stmt}
    (h : ∀ s ∈ body, (s.define name).isSome = true) : BindsByDef name body := by
  intro binds hb
  have := h _ hb
  simp [Stmt.define] at this

/-- The check accepts a module whose handle takes no argument, and one whose
handle requires a keyword. -/
theorem script_check_misjudges :
    validateScript (parseOnly redefinedScript redefinedBody) redefinedScript = .ok [] ∧
      ¬JudgesHandle (parseOnly redefinedScript redefinedBody) redefinedScript redefinedBody ∧
      validateScript (parseOnly keywordScript keywordBody) keywordScript = .ok [] ∧
      ¬JudgesHandle (parseOnly keywordScript keywordBody) keywordScript keywordBody := by
  have hredefined : validateScript (parseOnly redefinedScript redefinedBody) redefinedScript = .ok [] := by
    rfl
  have hkeyword : validateScript (parseOnly keywordScript keywordBody) keywordScript = .ok [] := by rfl
  refine ⟨hredefined, ?_, hkeyword, ?_⟩
  · intro h
    have hdef : BindsByDef handleName redefinedBody := bindsByDef_of_any (by decide +kernel)
    obtain ⟨ns', hload⟩ := Load.exists redefinedBody fun _ => none
    obtain ⟨last, hlast, ⟨hmin, -⟩, -⟩ := (runsHandle_iff rfl hload hdef).mp
      ((h _ ns' rfl hload).mp hredefined)
    have hzero : last = plainArguments [] [] := (Option.some.inj hlast).symm
    rw [hzero] at hmin
    exact absurd hmin (by decide)
  · intro h
    have hdef : BindsByDef handleName keywordBody := bindsByDef_of_any (by decide +kernel)
    obtain ⟨ns', hload⟩ := Load.exists keywordBody fun _ => none
    obtain ⟨last, hlast, -, hkw⟩ := (runsHandle_iff rfl hload hdef).mp
      ((h _ ns' rfl hload).mp hkeyword)
    have hreq : last = plainArguments [lit "alert"] [(lit "retries", false)] :=
      (Option.some.inj hlast).symm
    rw [hreq] at hkw
    exact absurd (hkw _ (List.mem_cons_self ..)) (by decide)

def soundScript : Str :=
  lit "def main(): pass\nimport json\nasync def handle(alert, context): pass\n"

def soundBody : List Stmt :=
  [.functionDef (lit "main") (plainArguments [] []), .other [lit "json"],
    .asyncFunctionDef handleName (plainArguments [lit "alert", lit "context"] [])]

theorem script_check_judges_last_sample :
    JudgesHandle (parseOnly soundScript soundBody) soundScript soundBody := by
  have hdef : BindsByDef handleName soundBody := by
    intro binds hb
    simp only [soundBody, List.mem_cons, reduceCtorEq, Stmt.other.injEq, List.not_mem_nil, or_false,
      false_or] at hb
    rw [hb]
    decide
  have hcap : WithinCap soundScript := by
    refine ⟨utf8 soundScript, by decide +kernel, by decide +kernel⟩
  refine (script_check_judges_last _ soundScript soundBody rfl hdef).mpr (Or.inl ⟨?_, ?_⟩)
  · rintro (⟨-, first, last, hfirst, hlast, hcross⟩ | ⟨hlong, -⟩)
    · -- one definition: it is the first and the last
      obtain rfl : first = last := Option.eq_some_unique hfirst hlast
      tauto
    · exact hlong hcap
  · rintro ⟨last, hlast, -, p, hp, -⟩
    obtain rfl := Option.some.inj hlast
    simp [plainArguments] at hp

end KeepAutomation.Validation
