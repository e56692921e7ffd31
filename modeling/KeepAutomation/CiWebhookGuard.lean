import KeepAutomation.PythonText
import KeepAutomation.Throttle

/-! The gate of the CI webhook: the token and the size of a request are checked
before its body is read, and rejections are logged at most once a minute a kind.
SHA-256 is a parameter. -/
namespace PythonText

/-- What `int` strips: ASCII whitespace, and Unicode whitespace beyond ASCII. -/
def isIntSpace (c : CodePoint) : Bool :=
  (9 ≤ c.val && c.val ≤ 13) || c.val == 32 || (127 ≤ c.val && isSpace c)

def stripInt (s : Str) : Str := ((s.dropWhile isIntSpace).reverse.dropWhile isIntSpace).reverse

/-- Digits with single underscores between them. A text may end only behind a
digit, and an underscore may stand only there. -/
def digitsFrom : Bool → Str → Option (List ℕ)
  | needDigit, [] => if needDigit then none else some []
  | needDigit, c :: s =>
    if isAsciiDigit c then (digitsFrom false s).map fun ds => (c.val-48) :: ds
    else if c = ofChar '_' ∧ needDigit = false then digitsFrom true s
    else none

def intMaxStrDigits : ℕ := 4300

/-- `int(s)` of a Latin-1 string, whose only decimal digits are the ASCII ones;
nothing where Python raises a `ValueError`. -/
def readInt (s : Str) : Option ℤ :=
  let body := stripInt s
  let negative := body.head? = some (ofChar '-')
  let digits := if negative ∨ body.head? = some (ofChar '+') then body.tail else body
  match digitsFrom true digits with
  | none => none
  | some ds =>
    if intMaxStrDigits < ds.length then none
    else
      let n : ℤ := Nat.ofDigits 10 ds.reverse
      some (if negative then -n else n)

example : readInt (lit " +1_024 ") = some 1024 := by decide +kernel

/-- `bytes.decode("latin-1")` -/
def latin1 (bytes : List Byte) : Str :=
  bytes.map fun b => ⟨b.val, b.isLt.trans (by decide)⟩

/-- A decoded header can always be encoded again. -/
theorem isUtf8_latin1 (bytes : List Byte) : IsUtf8 (latin1 bytes) := by
  intro c hc
  obtain ⟨b, -, rfl⟩ := List.mem_map.mp hc
  have hb := b.isLt
  simp only [isSurrogate, Bool.and_eq_false_iff, decide_eq_false_iff_not]
  omega

end PythonText

namespace KeepAutomation

open PythonText

section Token

/-- `REJECTION_LOG_INTERVAL_SECONDS` -/
def rejectionLogIntervalSeconds : ℚ := 60

/-- `_unconfigured_log` and `_mismatch_log`. -/
structure RejectionLogs where
  unconfigured : Throttle.State ℚ
  mismatch : Throttle.State ℚ

def freshLogs : RejectionLogs where
  unconfigured := Throttle.fresh
  mismatch := Throttle.fresh

inductive RejectionKind where
  | unconfigured | mismatch
  deriving DecidableEq, Repr

def RejectionLogs.of (logs : RejectionLogs) : RejectionKind → Throttle.State ℚ
  | .unconfigured => logs.unconfigured
  | .mismatch => logs.mismatch

/-- A record in the log: its kind and the number of similar rejections
suppressed before it. -/
structure LogRecord where
  kind : RejectionKind
  suppressed : ℕ
  deriving DecidableEq, Repr

inductive TokenVerdict where
  | valid | invalid
  /-- a `UnicodeEncodeError` -/
  | raised
  deriving DecidableEq, Repr

/-- What one check answers, logs and leaves behind. -/
structure TokenCheck where
  verdict : TokenVerdict
  record : Option LogRecord
  logs : RejectionLogs

def RejectionLogs.reject (logs : RejectionLogs) (now : ℚ) : RejectionKind → TokenCheck
  | .unconfigured =>
    let (suppressed, unconfigured) := logs.unconfigured.allow rejectionLogIntervalSeconds now
    ⟨.invalid, suppressed.map fun n => ⟨.unconfigured, n⟩, { logs with unconfigured := unconfigured }⟩
  | .mismatch =>
    let (suppressed, mismatch) := logs.mismatch.allow rejectionLogIntervalSeconds now
    ⟨.invalid, suppressed.map fun n => ⟨.mismatch, n⟩, { logs with mismatch := mismatch }⟩

/-- `ci_webhook_token_valid`. The setting and the clock are those of the call. -/
def ciWebhookTokenValid (sha256 : List Byte → List Byte) (expected : Str) (token : Option Str)
    (now : ℚ) (logs : RejectionLogs) : TokenCheck :=
  -- fails closed: with no token configured none is valid
  if expected = [] then logs.reject now .unconfigured
  else
    match token with
    -- not logged: any scan of the network would
    | none => ⟨.invalid, none, logs⟩
    | some token =>
      match encode token, encode expected with
      | some given, some wanted =>
        if sha256 given = sha256 wanted then ⟨.valid, none, logs⟩ else logs.reject now .mismatch
      | _, _ => ⟨.raised, none, logs⟩

/-- A call of the check: the setting it reads, the header and the clock. -/
structure TokenCall where
  expected : Str
  token : Option Str
  now : ℚ

def TokenCall.check (sha256 : List Byte → List Byte) (c : TokenCall) (logs : RejectionLogs) :
    TokenCheck := ciWebhookTokenValid sha256 c.expected c.token c.now logs

/-- Which log a rejected call goes to, if any. -/
def TokenCall.kind (sha256 : List Byte → List Byte) (c : TokenCall) : Option RejectionKind :=
  if c.expected = [] then some .unconfigured
  else
    match c.token with
    | none => none
    | some token =>
      match encode token, encode c.expected with
      | some given, some wanted => if sha256 given = sha256 wanted then none else some .mismatch
      | _, _ => none

/-- What a sequence of calls logs, each record with the time of its call. -/
def logged (sha256 : List Byte → List Byte) : RejectionLogs → List TokenCall → List (ℚ × LogRecord)
  | _, [] => []
  | logs, c :: calls =>
    let check := c.check sha256 logs
    let rest := logged sha256 check.logs calls
    match check.record with
    | some record => (c.now, record) :: rest
    | none => rest

/-- The logs' state after the calls. -/
def logsAfter (sha256 : List Byte → List Byte) : RejectionLogs → List TokenCall → RejectionLogs
  | logs, [] => logs
  | logs, c :: calls => logsAfter sha256 (c.check sha256 logs).logs calls

/-- The records of one kind: the time and the number suppressed. -/
def ofKind (k : RejectionKind) (log : List (ℚ × LogRecord)) : List (ℚ × ℕ) :=
  (log.filter fun r => r.2.kind = k).map fun r => (r.1, r.2.suppressed)

/-- The calls rejected as of one kind. -/
def rejected (sha256 : List Byte → List Byte) (k : RejectionKind) (calls : List TokenCall) :
    List TokenCall := calls.filter fun c => c.kind sha256 = some k

/-- A call is rejected as of its kind, or it logs nothing and counts nothing. -/
theorem check_cases (sha256 : List Byte → List Byte) (c : TokenCall) (logs : RejectionLogs) :
    (∃ k, c.kind sha256 = some k ∧ c.check sha256 logs = logs.reject c.now k) ∨
      (c.kind sha256 = none ∧ (c.check sha256 logs).record = none ∧
        (c.check sha256 logs).logs = logs) := by
  obtain ⟨expected, token, now⟩ := c
  simp only [TokenCall.kind, TokenCall.check, ciWebhookTokenValid]
  by_cases hempty : expected = []
  · left
    exact ⟨.unconfigured, if_pos hempty, if_pos hempty⟩
  · simp only [if_neg hempty]
    cases token with
    | none => exact Or.inr ⟨rfl, rfl, rfl⟩
    | some token =>
      dsimp only
      cases encode token with
      | none => exact Or.inr ⟨rfl, rfl, rfl⟩
      | some given =>
        cases encode expected with
        | none => exact Or.inr ⟨rfl, rfl, rfl⟩
        | some wanted =>
          by_cases hsame : sha256 given = sha256 wanted
          · right
            simp only [if_pos hsame, and_self]
          · left
            exact ⟨.mismatch, if_neg hsame, if_neg hsame⟩

/-- A rejection is a call of its kind's throttle and leaves the other one alone. -/
theorem reject_throttled (logs : RejectionLogs) (now : ℚ) (k : RejectionKind) :
    (logs.reject now k).record =
        (((logs.of k).allow rejectionLogIntervalSeconds now).1.map fun n => ⟨k, n⟩) ∧
      (logs.reject now k).logs.of k = ((logs.of k).allow rejectionLogIntervalSeconds now).2 ∧
        ∀ j, j ≠ k → (logs.reject now k).logs.of j = logs.of j := by
  cases k with
  | unconfigured =>
    refine ⟨rfl, rfl, ?_⟩
    intro j hj
    cases j with
    | unconfigured => exact absurd rfl hj
    | mismatch => rfl
  | mismatch =>
    refine ⟨rfl, rfl, ?_⟩
    intro j hj
    cases j with
    | unconfigured => rfl
    | mismatch => exact absurd rfl hj

/-- The run lemma: the records of a kind are those its throttle lets through, of
the calls rejected as of that kind. -/
theorem ofKind_logged (sha256 : List Byte → List Byte) (k : RejectionKind) (calls : List TokenCall) (logs : RejectionLogs) :
    ofKind k (logged sha256 logs calls) =
        Throttle.records rejectionLogIntervalSeconds (logs.of k)
          ((rejected sha256 k calls).map TokenCall.now) ∧
      (logsAfter sha256 logs calls).of k =
        Throttle.after rejectionLogIntervalSeconds (logs.of k)
          ((rejected sha256 k calls).map TokenCall.now) := by
  induction calls generalizing logs with
  | nil => exact ⟨rfl, rfl⟩
  | cons c calls ih =>
    rcases check_cases sha256 c logs with ⟨j, hkind, hcheck⟩ | ⟨hkind, hrecord, hlogs⟩
    swap
    · have hrej : rejected sha256 k (c :: calls) = rejected sha256 k calls := by
        simp only [rejected, List.filter_cons, hkind, reduceCtorEq, decide_false, Bool.false_eq_true,
          if_false]
      simp only [logged, logsAfter, hrecord, hlogs, hrej]
      exact ih logs
    · obtain ⟨hrecord, hown, hother⟩ := reject_throttled logs c.now j
      rw [← hcheck] at hrecord hown hother
      by_cases hjk : j = k
      · subst hjk
        have hrej : rejected sha256 j (c :: calls) = c :: rejected sha256 j calls := by
          simp only [rejected, List.filter_cons, hkind, decide_true, if_true]
        obtain ⟨hrest, hafter⟩ := ih (c.check sha256 logs).logs
        rw [hown] at hrest hafter
        rw [hrej, List.map_cons]
        refine ⟨?_, hafter⟩
        cases hheld : (logs.of j).holds rejectionLogIntervalSeconds c.now with
        | true =>
          rw [Throttle.records_held hheld, logged]
          rw [Throttle.allow_held hheld] at hrecord hrest
          simp only [hrecord, Option.map_none]
          exact hrest
        | false =>
          rw [Throttle.records_passed hheld, logged]
          rw [Throttle.allow_passed hheld] at hrecord hrest
          simp only [hrecord, Option.map_some, ofKind, List.filter_cons, decide_true, if_true,
            List.map_cons]
          exact congrArg (_ :: ·) hrest
      · have hrej : rejected sha256 k (c :: calls) = rejected sha256 k calls := by
          simp only [rejected, List.filter_cons, hkind, Option.some.injEq, hjk, decide_false,
            Bool.false_eq_true, if_false]
        obtain ⟨hrest, hafter⟩ := ih (c.check sha256 logs).logs
        rw [hother k fun h => hjk h.symm] at hrest hafter
        rw [hrej]
        refine ⟨?_, hafter⟩
        rw [← hrest, logged]
        cases hallow : ((logs.of j).allow rejectionLogIntervalSeconds c.now).1 with
        | none =>
          rw [hallow] at hrecord
          simp only [hrecord, Option.map_none]
        | some n =>
          rw [hallow] at hrecord
          simp only [hrecord, Option.map_some, ofKind, List.filter_cons, hjk, decide_false,
            Bool.false_eq_true, if_false]

/-- A rejected call is of one of the logged kinds, or it brings no header; that one
leaves no trace. -/
theorem check_untraced {sha256 : List Byte → List Byte} {c : TokenCall} {logs : RejectionLogs}
    (hinvalid : (c.check sha256 logs).verdict = .invalid) (hkind : c.kind sha256 = none) :
    c.expected ≠ [] ∧ c.token = none ∧ c.check sha256 logs = ⟨.invalid, none, logs⟩ := by
  obtain ⟨expected, token, now⟩ := c
  simp only [TokenCall.kind, TokenCall.check, ciWebhookTokenValid] at hinvalid hkind ⊢
  by_cases hempty : expected = []
  · simp [hempty] at hkind
  · simp only [if_neg hempty] at hinvalid hkind ⊢
    cases token with
    | none => exact ⟨hempty, rfl, rfl⟩
    | some token =>
      dsimp only at hinvalid hkind
      cases hgiven : encode token with
      | none => simp [hgiven] at hinvalid
      | some given =>
        cases hwanted : encode expected with
        | none => simp [hgiven, hwanted] at hinvalid
        | some wanted =>
          by_cases hsame : sha256 given = sha256 wanted
          · simp [hgiven, hwanted, hsame] at hinvalid
          · simp [hgiven, hwanted, hsame] at hkind

/-- Rejections for want of a configured token and for a token that does not match
are logged at most once a minute a kind, and none is lost: every one is logged,
counted in a later record, or waiting for the next. One that is not logged has the
last record of its kind before it, less than a minute old. The calls may take their
locks in another order than they read the clock. Only a call without the header is
rejected and leaves no trace. -/
theorem rejections_logged (sha256 : List Byte → List Byte) (calls : List TokenCall)
    (k : RejectionKind) :
    let log := ofKind k (logged sha256 freshLogs calls)
    (log.map Prod.snd).sum + log.length + ((logsAfter sha256 freshLogs calls).of k).suppressed =
        (rejected sha256 k calls).length ∧
      log.Pairwise (fun a b => a.1 + rejectionLogIntervalSeconds ≤ b.1) ∧
      (∀ start, (log.filter fun r =>
          start ≤ r.1 ∧ r.1 < start + rejectionLogIntervalSeconds).length ≤ 1) ∧
      (∀ before c after, calls = before ++ c :: after → c.kind sha256 = some k →
        (c.check sha256 (logsAfter sha256 freshLogs before)).record ≠ none ∨
          ∃ r, (ofKind k (logged sha256 freshLogs before)).getLast? = some r ∧
            c.now < r.1 + rejectionLogIntervalSeconds) ∧
      ∀ c ∈ calls, ∀ logs, (c.check sha256 logs).verdict = .invalid → c.kind sha256 = none →
        c.expected ≠ [] ∧ c.token = none ∧ c.check sha256 logs = ⟨.invalid, none, logs⟩ := by
  have hfresh : freshLogs.of k = Throttle.fresh := by
    cases k with
    | unconfigured => rfl
    | mismatch => rfl
  obtain ⟨hlog, hafter⟩ := ofKind_logged sha256 k calls freshLogs
  rw [hfresh] at hlog hafter
  have hpos : (0 : ℚ) < rejectionLogIntervalSeconds := by
    unfold rejectionLogIntervalSeconds
    norm_num
  have hcount := Throttle.records_count rejectionLogIntervalSeconds Throttle.fresh
    ((rejected sha256 k calls).map TokenCall.now)
  have hspaced := Throttle.records_spaced hpos.le Throttle.fresh
    ((rejected sha256 k calls).map TokenCall.now)
  dsimp only
  rw [hlog, hafter]
  refine ⟨?_, hspaced, Throttle.spaced_window Prod.fst hspaced, ?_, ?_⟩
  · rw [hcount, List.length_map]
    exact Nat.zero_add _
  · intro before c after hcalls hkind
    obtain ⟨hbefore, hstate⟩ := ofKind_logged sha256 k before freshLogs
    rw [hfresh] at hbefore hstate
    have hcheck : c.check sha256 (logsAfter sha256 freshLogs before) =
        (logsAfter sha256 freshLogs before).reject c.now k := by
      rcases check_cases sha256 c (logsAfter sha256 freshLogs before) with ⟨j, hj, hcheck⟩ | ⟨hnone, -⟩
      · obtain rfl := Option.some.inj (hkind.symm.trans hj)
        exact hcheck
      · rw [hkind] at hnone
        simp at hnone
    rw [hcheck, (reject_throttled _ c.now k).1, hstate, hbefore, ne_eq, Option.map_eq_none_iff]
    exact Throttle.fresh_heard _ _ c.now
  · intro c _ logs hinvalid hkind
    exact check_untraced hinvalid hkind

end Token

section Guard

/-- The headers of an ASGI scope. The server has put the names in lower case. -/
abbrev Headers := List (List Byte × List Byte)

def headerName (name : String) : List Byte := utf8 (lit name)

/-- `headers.get(name)`: the first of that name. -/
def Headers.get (headers : Headers) (name : String) : Option Str :=
  (headers.find? fun h => h.1 = headerName name).map fun h => latin1 h.2

/-- `name in headers` -/
def Headers.contains (headers : Headers) (name : String) : Bool :=
  headers.any fun h => h.1 = headerName name

structure Scope where
  type : String
  path : Str
  headers : Headers

structure WebhookSettings where
  ciWebhookToken : Str
  ciWebhookMaxBodyBytes : ℤ

def ciWebhookPath : Str := lit "/internal/ci-webhook"

/-- A `JSONResponse` with a `detail`. -/
structure Rejection where
  statusCode : ℕ
  detail : String
  deriving DecidableEq, Repr

def unauthorized : Rejection := ⟨401, "Invalid or missing CI webhook token"⟩

def lengthRequired : Rejection := ⟨411, "Content-Length required"⟩

def bodyTooLarge : Rejection := ⟨413, "Request body too large"⟩

/-- The size checks of `_reject`. Chunked framing is refused even beside a length:
it would win over it in the server's parser. -/
def rejectSize (settings : WebhookSettings) (headers : Headers) : Option Rejection :=
  if headers.contains "transfer-encoding" then some lengthRequired
  else
    let length := (readInt ((headers.get "content-length").getD [])).getD (-1)
    if length < 0 then some lengthRequired
    else if settings.ciWebhookMaxBodyBytes < length then some bodyTooLarge
    else none

inductive GuardAnswer where
  /-- the request goes on to the application, which may read its body -/
  | app
  | rejected (rejection : Rejection)
  /-- an exception, answered 500 by the server -/
  | raised
  deriving DecidableEq, Repr

/-- `CiWebhookGuard.__call__` -/
def ciWebhookGuard (sha256 : List Byte → List Byte) (settings : WebhookSettings) (scope : Scope)
    (now : ℚ) (logs : RejectionLogs) : GuardAnswer × Option LogRecord × RejectionLogs :=
  if scope.type ≠ "http" ∨ scope.path ≠ ciWebhookPath then (.app, none, logs)
  else
    let check := ciWebhookTokenValid sha256 settings.ciWebhookToken
      (scope.headers.get "x-gitlab-token") now logs
    match check.verdict with
    | .raised => (.raised, check.record, check.logs)
    | .invalid => (.rejected unauthorized, check.record, check.logs)
    | .valid =>
      match rejectSize settings scope.headers with
      | some rejection => (.rejected rejection, check.record, check.logs)
      | none => (.app, check.record, check.logs)

/-- `verify_ci_webhook_token`, the dependency behind the gate. -/
def verifyCiWebhookToken (sha256 : List Byte → List Byte) (settings : WebhookSettings) (scope : Scope)
    (now : ℚ) (logs : RejectionLogs) : GuardAnswer × Option LogRecord × RejectionLogs :=
  let check := ciWebhookTokenValid sha256 settings.ciWebhookToken
    (scope.headers.get "x-gitlab-token") now logs
  match check.verdict with
  | .raised => (.raised, check.record, check.logs)
  | .invalid => (.rejected unauthorized, check.record, check.logs)
  | .valid => (.app, check.record, check.logs)

/-- A request to the webhook, the only ones the gate looks at. -/
def Scope.isWebhook (scope : Scope) : Prop := scope.type = "http" ∧ scope.path = ciWebhookPath

/-- The request's first token hashes to what the configured one hashes to. -/
structure Authentic (sha256 : List Byte → List Byte) (settings : WebhookSettings) (headers : Headers) :
    Prop where
  configured : settings.ciWebhookToken ≠ []
  encodable : IsUtf8 settings.ciWebhookToken
  token : ∃ token, headers.get "x-gitlab-token" = some token ∧
    sha256 (utf8 token) = sha256 (utf8 settings.ciWebhookToken)

/-- A configured token that UTF-8 cannot carry trips the comparison with any given
one. -/
structure Trips (settings : WebhookSettings) (headers : Headers) : Prop where
  configured : settings.ciWebhookToken ≠ []
  token : headers.get "x-gitlab-token" ≠ none
  unencodable : ¬IsUtf8 settings.ciWebhookToken

theorem trips_iff {settings : WebhookSettings} {headers : Headers} :
    (settings.ciWebhookToken ≠ [] ∧ headers.get "x-gitlab-token" ≠ none ∧
      ¬IsUtf8 settings.ciWebhookToken) ↔ Trips settings headers :=
  ⟨fun ⟨hc, ht, hu⟩ => ⟨hc, ht, hu⟩, fun h => ⟨h.configured, h.token, h.unencodable⟩⟩

instance (settings : WebhookSettings) (headers : Headers) : Decidable (Trips settings headers) :=
  decidable_of_iff _ trips_iff

/-- The body's size is known before it is read, and allowed. -/
structure Sized (settings : WebhookSettings) (headers : Headers) : Prop where
  plain : headers.contains "transfer-encoding" = false
  length : ∃ value n, headers.get "content-length" = some value ∧ readInt value = some n ∧ 0 ≤ n ∧
    n ≤ settings.ciWebhookMaxBodyBytes

section

variable {sha256 : List Byte → List Byte} {settings : WebhookSettings} {headers : Headers}
  {scope : Scope} {now : ℚ} {logs : RejectionLogs}

theorem Headers.get_isUtf8 {name : String} {value : Str} (h : headers.get name = some value) :
    IsUtf8 value := by
  obtain ⟨header, -, rfl⟩ := Option.map_eq_some_iff.mp h
  exact isUtf8_latin1 header.2

theorem reject_invalid (logs : RejectionLogs) (now : ℚ) (k : RejectionKind) :
    (logs.reject now k).verdict = .invalid := by
  cases k with
  | unconfigured => rfl
  | mismatch => rfl

/-- The check accepts, refuses, or trips over a setting that has no encoding. -/
theorem token_verdict (sha256 : List Byte → List Byte) (settings : WebhookSettings)
    (headers : Headers) (now : ℚ) (logs : RejectionLogs) :
    (Authentic sha256 settings headers ∧ ciWebhookTokenValid sha256 settings.ciWebhookToken
        (headers.get "x-gitlab-token") now logs = ⟨.valid, none, logs⟩) ∨
      (¬Authentic sha256 settings headers ∧ (ciWebhookTokenValid sha256 settings.ciWebhookToken
          (headers.get "x-gitlab-token") now logs).verdict =
        if Trips settings headers then .raised else .invalid) := by
  unfold ciWebhookTokenValid
  by_cases hempty : settings.ciWebhookToken = []
  · have hno : ¬Trips settings headers := fun ht => ht.configured hempty
    rw [if_pos hempty, if_neg hno]
    exact Or.inr ⟨fun h => h.configured hempty, reject_invalid logs now _⟩
  · rw [if_neg hempty]
    cases htoken : headers.get "x-gitlab-token" with
    | none =>
      have hno : ¬Trips settings headers := fun ht => ht.token htoken
      rw [if_neg hno]
      refine Or.inr ⟨fun h => ?_, rfl⟩
      obtain ⟨token, hget, -⟩ := h.token
      simp [htoken] at hget
    | some token =>
      -- the header has an encoding, the setting may not
      have hgiven : encode token = some (utf8 token) := encode_eq_some.mpr ⟨Headers.get_isUtf8 htoken, rfl⟩
      dsimp only
      rw [hgiven]
      by_cases hutf8 : IsUtf8 settings.ciWebhookToken
      · rw [encode_eq_some.mpr ⟨hutf8, rfl⟩]
        dsimp only
        by_cases hsame : sha256 (utf8 token) = sha256 (utf8 settings.ciWebhookToken)
        · rw [if_pos hsame]
          exact Or.inl ⟨⟨hempty, hutf8, token, htoken, hsame⟩, rfl⟩
        · have hno : ¬Trips settings headers := fun ht => ht.unencodable hutf8
          rw [if_neg hsame, if_neg hno]
          refine Or.inr ⟨fun h => ?_, reject_invalid logs now _⟩
          obtain ⟨token', hget, hequal⟩ := h.token
          obtain rfl := Option.some.inj (htoken.symm.trans hget)
          exact hsame hequal
      · have htrips : Trips settings headers := ⟨hempty, by simp [htoken], hutf8⟩
        rw [encode_eq_none.mpr hutf8, if_pos htrips]
        exact Or.inr ⟨fun h => hutf8 h.encodable, rfl⟩

theorem readInt_nil : readInt [] = none := rfl

theorem rejectSize_eq_none : rejectSize settings headers = none ↔ Sized settings headers := by
  unfold rejectSize
  constructor
  · intro h
    split at h
    · simp at h
    · next hplain =>
      dsimp only at h
      split at h
      · simp at h
      · next hneg =>
        split at h
        · simp at h
        · next hmax =>
          refine ⟨Bool.eq_false_iff.mpr hplain, ?_⟩
          cases hvalue : headers.get "content-length" with
          | none => simp [hvalue, readInt_nil] at hneg
          | some value =>
            rw [hvalue, Option.getD_some] at hneg hmax
            cases hn : readInt value with
            | none => simp [hn] at hneg
            | some n =>
              rw [hn, Option.getD_some] at hneg hmax
              exact ⟨value, n, rfl, hn, not_lt.mp hneg, not_lt.mp hmax⟩
  · rintro ⟨hplain, value, n, hvalue, hn, hneg, hmax⟩
    simp only [hplain, Bool.false_eq_true, if_false, hvalue, Option.getD_some, hn,
      if_neg (not_lt.mpr hneg), if_neg (not_lt.mpr hmax)]

theorem rejectSize_cases (settings : WebhookSettings) (headers : Headers) :
    rejectSize settings headers = none ∨
    rejectSize settings headers = some lengthRequired ∨
      rejectSize settings headers = some bodyTooLarge := by
  unfold rejectSize
  dsimp only
  split
  · exact Or.inr (Or.inl rfl)
  · split
    · exact Or.inr (Or.inl rfl)
    · split
      · exact Or.inr (Or.inr rfl)
      · exact Or.inl rfl

end

/-- A request reaches the application, and its body is read, exactly if it holds
the token and a plain length within the limit. Without the token the answer does
not depend on anything else in the request. What the gate lets in, the dependency
behind it lets in too, whenever it runs, and neither then logs anything. -/
theorem guard_exact (sha256 : List Byte → List Byte) (settings : WebhookSettings) (scope : Scope)
    (now : ℚ) (logs : RejectionLogs) (h : scope.isWebhook) :
    ((ciWebhookGuard sha256 settings scope now logs).1 = .app ↔
        Authentic sha256 settings scope.headers ∧ Sized settings scope.headers) ∧
      (¬Authentic sha256 settings scope.headers →
        (ciWebhookGuard sha256 settings scope now logs).1 =
          if Trips settings scope.headers then .raised else .rejected unauthorized) ∧
      (Authentic sha256 settings scope.headers → ¬Sized settings scope.headers →
        (ciWebhookGuard sha256 settings scope now logs).1 = .rejected lengthRequired ∨
          (ciWebhookGuard sha256 settings scope now logs).1 = .rejected bodyTooLarge) ∧
      ((ciWebhookGuard sha256 settings scope now logs).1 = .app →
        (ciWebhookGuard sha256 settings scope now logs).2 = (none, logs) ∧
          ∀ later logs', verifyCiWebhookToken sha256 settings scope later logs' = (.app, none, logs')) := by
  have hpath : ¬(scope.type ≠ "http" ∨ scope.path ≠ ciWebhookPath) := by
    rw [not_or, not_not, not_not]
    exact h
  unfold ciWebhookGuard
  rw [if_neg hpath]
  dsimp only
  rcases token_verdict sha256 settings scope.headers now logs with ⟨hauth, hcheck⟩ | ⟨hauth, hcheck⟩
  · rw [hcheck]
    dsimp only
    refine ⟨?_, fun hno => absurd hauth hno, ?_, ?_⟩
    · rw [← rejectSize_eq_none]
      cases hsize : rejectSize settings scope.headers with
      | none => simp only [hauth, and_self]
      | some rejection => simp only [reduceCtorEq, and_false]
    · intro _ hno
      rw [← rejectSize_eq_none] at hno
      rcases rejectSize_cases settings scope.headers with hsize | hsize | hsize
      · exact absurd hsize hno
      · exact Or.inl (by rw [hsize])
      · exact Or.inr (by rw [hsize])
    · intro happ
      cases hsize : rejectSize settings scope.headers with
      | some rejection => simp [hsize] at happ
      | none =>
        refine ⟨rfl, ?_⟩
        intro later logs'
        rcases token_verdict sha256 settings scope.headers later logs' with ⟨-, hlater⟩ | ⟨hno, -⟩
        · simp only [verifyCiWebhookToken, hlater]
        · exact absurd hauth hno
  · rw [hcheck]
    have hno (hboth : Authentic sha256 settings scope.headers ∧ Sized settings scope.headers) : False :=
      hauth hboth.1
    by_cases htrips : Trips settings scope.headers
    · simp only [if_pos htrips, reduceCtorEq, false_iff, not_and, hauth, IsEmpty.forall_iff,
        implies_true, and_self]
    · simp only [if_neg htrips, reduceCtorEq, false_iff, not_and, hauth, IsEmpty.forall_iff,
        implies_true, and_self]

def sampleWebhookSettings : WebhookSettings where
  ciWebhookToken := lit "secret"
  ciWebhookMaxBodyBytes := 16384

def sampleScope : Scope where
  type := "http"
  path := ciWebhookPath
  headers := [(headerName "x-gitlab-token", headerName "secret"),
    (headerName "content-length", headerName "512")]

theorem guard_exact_sample :
    (ciWebhookGuard id sampleWebhookSettings sampleScope 0 freshLogs).1 = .app := by
  apply (guard_exact id sampleWebhookSettings sampleScope 0 freshLogs ⟨rfl, rfl⟩).1.mpr
  have htoken : sampleScope.headers.get "x-gitlab-token" = some (lit "secret") := by decide +kernel
  have hlength : sampleScope.headers.get "content-length" = some (lit "512") := by decide +kernel
  have hread : readInt (lit "512") = some 512 := by decide +kernel
  constructor
  · exact ⟨by decide +kernel, isUtf8_lit _, _, htoken, rfl⟩
  · exact ⟨by decide +kernel, _, 512, hlength, hread, by decide, by decide⟩

end Guard

end KeepAutomation
