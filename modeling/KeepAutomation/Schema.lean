import Mathlib.Data.BitVec
import Mathlib.Data.List.OfFn
import Mathlib.Tactic

/-! The tables `automations` and `automation_revisions`, the authoring payload
and the domain exceptions. -/
namespace KeepAutomation

abbrev Timestamp := ℕ

/-- A `uuid.UUID`: 128 bits, printed as 8-4-4-4-12 lowercase hex digits. -/
structure UUID where
  int : BitVec 128
  deriving DecidableEq, Repr

def hexDigits : List Char :=
  ['0', '1', '2', '3', '4', '5', '6', '7', '8', '9', 'a', 'b', 'c', 'd', 'e', 'f']

def hexDigit (n : Fin 16) : Char := hexDigits.get (n.cast (by decide))

/-- The `i`-th hex digit of the id, most significant first. -/
def UUID.nibble (u : UUID) (i : ℕ) : Fin 16 :=
  ⟨(u.int.extractLsb' (4*(31-i)) 4).toNat, (u.int.extractLsb' (4*(31-i)) 4).isLt⟩

def UUID.hex (u : UUID) : List Char := (List.range 32).map fun i => hexDigit (u.nibble i)

/-- `str(uuid)`. -/
def UUID.str (u : UUID) : String :=
  String.ofList (u.hex.take 8 ++ '-' :: ((u.hex.drop 8).take 4 ++ '-' :: ((u.hex.drop 12).take 4 ++
    '-' :: ((u.hex.drop 16).take 4 ++ '-' :: u.hex.drop 20))))

theorem hexDigit_injective : Function.Injective hexDigit := by decide

theorem UUID.hex_length (u : UUID) : u.hex.length = 32 := by
  simp only [UUID.hex, List.length_map, List.length_range]

theorem UUID.nibble_bit (u : UUID) (j : ℕ) (hj : j < 128) :
    u.int.getLsbD j = (u.nibble (31-j/4)).val.testBit (j%4) := by
  have hi : 4*(31-(31-j/4)) + j%4 = j := by omega
  have hm : j%4 < 4 := Nat.mod_lt _ (by decide)
  change _ = (u.int.extractLsb' (4*(31-(31-j/4))) 4).getLsbD (j%4)
  rw [BitVec.getLsbD_extractLsb', hi]
  simp only [hm, decide_true, Bool.true_and]

theorem UUID.hex_injective : Function.Injective UUID.hex := by
  intro u v h
  have hn (i : ℕ) (hi : i < 32) : u.nibble i = v.nibble i := by
    apply hexDigit_injective
    have hg := congrArg (fun l : List Char => l[i]?) h
    simpa only [UUID.hex, List.getElem?_map, List.getElem?_range hi, Option.map_some,
      Option.some.injEq] using hg
  have hb : u.int = v.int := by
    apply BitVec.eq_of_getLsbD_eq
    intro j hj
    rw [u.nibble_bit j hj, v.nibble_bit j hj, hn _ (by omega)]
  cases u
  cases v
  exact congrArg UUID.mk hb

/-- Two ids that print alike are one id: the dashes stand at fixed places. -/
theorem UUID.str_injective : Function.Injective UUID.str := by
  intro u v h
  have cut {k : ℕ} {a b r s : List Char} (hab : a.length = b.length)
      (he : a.take k ++ '-' :: r = b.take k ++ '-' :: s) : a.take k = b.take k ∧ r = s := by
    have hl : (a.take k).length = (b.take k).length := by
      rw [List.length_take, List.length_take, hab]
    obtain ⟨h₁, h₂⟩ := List.append_inj he hl
    exact ⟨h₁, (List.cons.inj h₂).2⟩
  have hlen (k : ℕ) : (u.hex.drop k).length = (v.hex.drop k).length := by
    rw [List.length_drop, List.length_drop, u.hex_length, v.hex_length]
  have h₀ := String.ofList_injective h
  obtain ⟨ha, h₁⟩ := cut (hlen 0) h₀
  obtain ⟨hb, h₂⟩ := cut (hlen 8) h₁
  obtain ⟨hc, h₃⟩ := cut (hlen 12) h₂
  obtain ⟨hd, h₄⟩ := cut (hlen 16) h₃
  apply UUID.hex_injective
  have hsplit (l : List Char) : l = l.take 8 ++ ((l.drop 8).take 4 ++ ((l.drop 12).take 4 ++
      ((l.drop 16).take 4 ++ l.drop 20))) := by
    have hstep (k n : ℕ) : (l.drop k).take n ++ l.drop (k+n) = l.drop k := by
      rw [← List.drop_drop, List.take_append_drop]
    rw [hstep 16 4, hstep 12 4, hstep 8 4, List.take_append_drop]
  rw [hsplit u.hex, hsplit v.hex]
  exact congrArg₂ _ ha (congrArg₂ _ hb (congrArg₂ _ hc (congrArg₂ _ hd h₄)))

theorem UUID.str_length (u : UUID) : u.str.toList.length = 36 := by
  simp only [UUID.str, String.toList_ofList, List.length_append, List.length_cons, List.length_take,
    List.length_drop, u.hex_length]
  rfl

/-- An id prints in hex digits, with dashes between the groups. -/
theorem UUID.mem_str (u : UUID) {c : Char} (hc : c ∈ u.str.toList) : c = '-' ∨ ∃ n, c = hexDigit n := by
  have hhex {l : List Char} (hl : l ⊆ u.hex) (h : c ∈ l) : ∃ n, c = hexDigit n := by
    obtain ⟨i, -, rfl⟩ := List.mem_map.mp (hl h)
    exact ⟨_, rfl⟩
  have hgroup (k n : ℕ) : (u.hex.drop k).take n ⊆ u.hex :=
    List.Subset.trans (List.take_subset n _) (List.drop_subset k _)
  simp only [UUID.str, String.toList_ofList, List.mem_append, List.mem_cons] at hc
  rcases hc with hc | hc | hc | hc | hc | hc | hc | hc | hc
  · exact Or.inr (hhex (List.take_subset 8 _) hc)
  · exact Or.inl hc
  · exact Or.inr (hhex (hgroup 8 4) hc)
  · exact Or.inl hc
  · exact Or.inr (hhex (hgroup 12 4) hc)
  · exact Or.inl hc
  · exact Or.inr (hhex (hgroup 16 4) hc)
  · exact Or.inl hc
  · exact Or.inr (hhex (List.drop_subset 20 _) hc)

/-- An arbitrary JSON value, as stored in a JSONB column. -/
inductive Json where
  | null
  | bool (b : Bool)
  | int (n : ℤ)
  | float (literal : String)
  | str (s : String)
  | arr (items : List Json)
  | obj (members : List (String × Json))

inductive MatchingState where
  | inactive | active | deleting | deleted
  deriving DecidableEq, Repr

/-- `DELETION_STATES`: the one-way end of the matching axis. -/
def deletionStates : List MatchingState := [.deleting, .deleted]

@[simp] theorem mem_deletionStates (m : MatchingState) :
    m ∈ deletionStates ↔ m = .deleting ∨ m = .deleted := by
  simp only [deletionStates, List.mem_cons, List.not_mem_nil, or_false]

inductive BuildState where
  | idle | building | buildFailed
  deriving DecidableEq, Repr

inductive RevisionAction where
  | create | edit | enable | disable | delete | buildSucceeded | buildFailed
  deriving DecidableEq, Repr

inductive ErrorCode where
  | fieldRequired | invalidValue | triggersTooFew | triggersTooMany | triggersDuplicateField
  | unknownField | invalidTriggerShape | triggerValueTooLong | cooldownOutOfRange
  | cooldownFieldsRequired | cooldownFieldsWithoutSeconds | cooldownFieldsTooMany
  | timeoutOutOfRange | graceOutOfRange | logstashSchemeNotHttps | logstashPrivateAddress
  | logstashUnresolvable | scriptTooLarge | scriptSyntaxError | handleMissing | handleBadArity
  | namespaceInvalid | namespaceImmutable | activeDigestRequired
  deriving DecidableEq, Repr

structure FieldError where
  field : String
  code : ErrorCode
  message : String
  deriving DecidableEq, Repr

/-- The exceptions the business logic raises or lets through. -/
inductive Error where
  | automationValidationError (errors : List FieldError)
  | automationNotFoundError
  | automationBuildingError
  | automationLifecycleConflictError (matchingState : MatchingState)
  | automationBusyError
  | automationEditSupersededError
  | scriptRepoUnavailableError
  | cappUnavailableError
  | buildNotRecordedError
  | sqlAlchemyError
  | keyError
  deriving DecidableEq, Repr

/-- `AutomationIn`, the create/edit payload. The column `namespace` holds a
CAPP wallet name. -/
structure AutomationIn where
  name : String
  nameSpace : String
  script : String
  triggers : List Json
  secretName : Option String
  cooldownSeconds : Option ℤ
  cooldownFields : Option (List Json)
  timeoutSeconds : Option ℤ
  graceSeconds : Option ℤ
  logstashUrl : Option String

/-- One row of `automations`. -/
structure Automation where
  id : UUID
  tenantId : String
  name : String
  nameSpace : String
  cappDeploymentId : Option String
  deploymentUrl : Option String
  triggers : List Json
  scriptPath : String
  secretName : Option String
  cooldownSeconds : Option ℤ
  cooldownFields : Option (List Json)
  timeoutSeconds : Option ℤ
  graceSeconds : ℤ
  logstashUrl : Option String
  matchingState : MatchingState
  buildState : BuildState
  activeDigest : Option String
  buildingSha : Option String
  contractVersion : Option String
  buildLockDeadline : Option Timestamp
  deleteCascadeStep : Option ℕ
  indexGeneration : ℕ
  createdBy : String
  updatedBy : String
  createdAt : Timestamp
  updatedAt : Timestamp

/-- One row of `automation_revisions`. -/
structure AutomationRevision where
  automationId : UUID
  action : RevisionAction
  gitSha : Option String
  resultingDigest : Option String
  actor : String
  createdAt : Timestamp
  deriving DecidableEq, Repr

/-- An automation's row with its revisions in commit order. A revision is only
ever reached through its automation, so the two tables are kept together. -/
structure Record where
  automation : Automation
  revisions : List AutomationRevision

def timeoutSecondsDefault : ℤ := 300

def graceSecondsDefault : ℤ := 300

/-- Python's `value or default` on an optional integer: zero is falsy. -/
def orDefault (value : Option ℤ) (default : ℤ) : ℤ :=
  match value with
  | none => default
  | some n => if n = 0 then default else n

/-- The characters Python's `str.strip()` removes. -/
def isSpace (c : Char) : Bool :=
  let n := c.toNat
  (9 ≤ n && n ≤ 13) || (28 ≤ n && n ≤ 32) || n == 0x85 || n == 0xa0 || n == 0x1680 ||
    (0x2000 ≤ n && n ≤ 0x200a) || n == 0x2028 || n == 0x2029 || n == 0x202f || n == 0x205f ||
    n == 0x3000

/-- `not (value and value.strip())`: null, empty or only whitespace. -/
def blank : Option String → Bool
  | none => true
  | some s => s.toList.all isSpace

/-- A fault of one DB transaction: the row lock timed out, or any other error
of the driver. The transaction then has no effect. -/
inductive DbFault where
  | busy | database
  deriving DecidableEq, Repr

def DbFault.error : DbFault → Error
  | .busy => .automationBusyError
  | .database => .sqlAlchemyError

end KeepAutomation
