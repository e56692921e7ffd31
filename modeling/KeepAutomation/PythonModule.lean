import KeepAutomation.PythonText

/-! Loading a Python module and calling a function that it exposes: the module
body is executed statement by statement, and every `def` rebinds its name. -/
namespace PythonModule

open PythonText

section Calls

/-- `ast.arguments` of a function. `defaults` counts the positional parameters
with a default, which are the last ones; a keyword-only parameter stands with
whether it has one. -/
structure Arguments where
  posonlyargs : List Str
  args : List Str
  defaults : ℕ
  vararg : Option Str
  kwonlyargs : List (Str × Bool)
  kwarg : Option Str
  defaults_le : defaults ≤ posonlyargs.length + args.length
  deriving DecidableEq

/-- How many positional parameters there are. -/
def Arguments.positional (a : Arguments) : ℕ := a.posonlyargs.length + a.args.length

/-- The positional parameters in order, each with whether it has a default. -/
def Arguments.parameters (a : Arguments) : List (Str × Bool) :=
  (a.posonlyargs ++ a.args).mapIdx fun i name => (name, decide (a.positional-a.defaults ≤ i))

/-- What a call gives the parameters: `none` is the default value. -/
structure Frame (α : Type) where
  positional : List (Str × Option α)
  varargs : List α
  keywordOnly : List Str

/-- Positional arguments go to the positional parameters from the left; what is
left of the parameters needs a default, what is left of the arguments is returned. -/
def fillPositional {α : Type} : List (Str × Bool) → List α → Option (List (Str × Option α) × List α)
  | [], values => some ([], values)
  | (name, hasDefault) :: parameters, [] =>
    if hasDefault then (fillPositional parameters []).map fun (frame, rest) =>
      ((name, none) :: frame, rest)
    else none
  | (name, _) :: parameters, v :: values =>
    (fillPositional parameters values).map fun (frame, rest) => ((name, some v) :: frame, rest)

/-- A call with positional arguments alone; nothing where Python raises a
`TypeError`. -/
def Arguments.call {α : Type} (a : Arguments) (values : List α) : Option (Frame α) :=
  match fillPositional a.parameters values with
  | none => none
  | some (frame, rest) =>
    -- surplus arguments need a variadic parameter
    if rest ≠ [] ∧ a.vararg = none then none
    -- a required keyword-only parameter is never given
    else if a.kwonlyargs.all Prod.snd then some ⟨frame, rest, a.kwonlyargs.map Prod.fst⟩
    else none

/-- The function can be called with any `n` positional arguments. -/
def Arguments.AcceptsCall (a : Arguments) (n : ℕ) : Prop :=
  ∀ (α : Type) (values : List α), values.length = n → ∃ frame, a.call values = some frame

@[simp] theorem Arguments.length_parameters (a : Arguments) : a.parameters.length = a.positional := by
  rw [Arguments.parameters, List.length_mapIdx, List.length_append, Arguments.positional]

/-- With one argument for each parameter no default is needed and nothing is left. -/
theorem fillPositional_exact {α : Type} : ∀ (parameters : List (Str × Bool)) (values : List α),
    values.length = parameters.length → ∃ frame, fillPositional parameters values = some (frame, [])
  | [], [], _ => ⟨[], rfl⟩
  | (name, _) :: parameters, v :: values, h => by
    obtain ⟨frame, hframe⟩ := fillPositional_exact parameters values (Nat.succ.inj h)
    exact ⟨(name, some v) :: frame, by rw [fillPositional, hframe, Option.map_some]⟩

/-- A function takes as many positional arguments as it has positional parameters
unless it requires a keyword. -/
theorem Arguments.acceptsCall_positional {a : Arguments} :
    a.AcceptsCall a.positional ↔ ∀ p ∈ a.kwonlyargs, p.2 = true := by
  rw [← List.all_eq_true]
  constructor
  · intro h
    obtain ⟨frame, hframe⟩ := h Unit (List.replicate a.positional ()) List.length_replicate
    unfold Arguments.call at hframe
    split at hframe
    · simp at hframe
    · split at hframe
      · simp at hframe
      · split at hframe
        · next hall => exact hall
        · simp at hframe
  · intro hall α values hlen
    obtain ⟨frame, hframe⟩ := fillPositional_exact a.parameters values
      (by rw [hlen, a.length_parameters])
    refine ⟨⟨frame, [], a.kwonlyargs.map Prod.fst⟩, ?_⟩
    simp only [Arguments.call, hframe, ne_eq, not_true_eq_false, false_and, if_false, hall, if_true]

end Calls

section Loading

/-- A statement of a module body. Of the statements that define no function it
is known which names of the module they may bind or delete. -/
inductive Stmt where
  | functionDef (name : Str) (args : Arguments)
  | asyncFunctionDef (name : Str) (args : Arguments)
  | other (binds : List Str)
  deriving DecidableEq

inductive Object where
  | function (args : Arguments)
  | other

abbrev Namespace := Str → Option Object

/-- One statement that runs through. -/
inductive Exec : Namespace → Stmt → Namespace → Prop where
  | functionDef {ns : Namespace} {name : Str} {args : Arguments} :
      Exec ns (.functionDef name args) (Function.update ns name (some (.function args)))
  | asyncFunctionDef {ns : Namespace} {name : Str} {args : Arguments} :
      Exec ns (.asyncFunctionDef name args) (Function.update ns name (some (.function args)))
  | other {ns ns' : Namespace} {binds : List Str} : (∀ name, name ∉ binds → ns' name = ns name) →
      Exec ns (.other binds) ns'

/-- The whole module body. -/
inductive Load : Namespace → List Stmt → Namespace → Prop where
  | nil {ns : Namespace} : Load ns [] ns
  | cons {ns ns₁ ns' : Namespace} {s : Stmt} {body : List Stmt} :
      Exec ns s ns₁ → Load ns₁ body ns' → Load ns (s :: body) ns'

/-- The function a statement binds to a name. -/
def Stmt.define (name : Str) : Stmt → Option Arguments
  | .functionDef n args => if n = name then some args else none
  | .asyncFunctionDef n args => if n = name then some args else none
  | .other _ => none

/-- The definitions of a name, in the order of the body. -/
def definitions (name : Str) (body : List Stmt) : List Arguments := body.filterMap (Stmt.define name)

/-- The body binds the name by `def` and `async def` alone. -/
def BindsByDef (name : Str) (body : List Stmt) : Prop := ∀ binds, Stmt.other binds ∈ body → name ∉ binds

/-- A statement rebinds the name or leaves it. -/
theorem Exec.binding {ns ns' : Namespace} {s : Stmt} {name : Str} (h : Exec ns s ns')
    (hs : ∀ binds, s = .other binds → name ∉ binds) :
    ns' name = match s.define name with
      | some args => some (.function args)
      | none => ns name := by
  cases h with
  | @functionDef n args | @asyncFunctionDef n args =>
    by_cases hn : n = name
    · subst hn
      simp only [Function.update_self, Stmt.define, if_true]
    · simp only [Function.update_of_ne (Ne.symm hn), Stmt.define, hn, if_false]
  | other hsame => exact hsame name (hs _ rfl)

/-- A loaded module exposes the last definition of a name. -/
theorem Load.exposes {ns ns' : Namespace} {body : List Stmt} {name : Str} (h : Load ns body ns')
    (hdef : BindsByDef name body) :
    ns' name = match (definitions name body).getLast? with
      | some args => some (.function args)
      | none => ns name := by
  induction h with
  | nil => rfl
  | @cons ns ns₁ ns' s body hs _ ih =>
    have hone := hs.binding fun binds hb => hdef binds (hb ▸ List.mem_cons_self ..)
    rw [ih fun binds hb => hdef binds (List.mem_cons_of_mem _ hb)]
    unfold definitions
    rw [List.filterMap_cons]
    cases hd : s.define name with
    | none =>
      rw [hd] at hone
      simp only [hone]
    | some args =>
      rw [hd] at hone
      rw [List.getLast?_cons, hone]
      cases (body.filterMap (Stmt.define name)).getLast? <;> rfl

/-- A body can always run through. -/
theorem Load.exists (body : List Stmt) : ∀ ns : Namespace, ∃ ns', Load ns body ns' := by
  induction body with
  | nil => exact fun ns => ⟨ns, .nil⟩
  | cons s body ih =>
    intro ns
    have hone : ∃ ns₁, Exec ns s ns₁ := by
      cases s with
      | functionDef name args => exact ⟨_, .functionDef⟩
      | asyncFunctionDef name args => exact ⟨_, .asyncFunctionDef⟩
      | other binds => exact ⟨ns, .other fun _ _ => rfl⟩
    obtain ⟨ns₁, hs⟩ := hone
    obtain ⟨ns', hrest⟩ := ih ns₁
    exact ⟨ns', .cons hs hrest⟩

end Loading

end PythonModule
