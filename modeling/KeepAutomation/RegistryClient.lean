import KeepAutomation.Cascade
import KeepAutomation.PythonUrl
import Mathlib.Data.List.Sort

/-! The Artifactory client and the third step of the cascade: the requests it
sends, what it makes of the replies, and when it comes to its checkpoint. -/
namespace KeepAutomation.Registry

open PythonText PythonUrl

section Client

def isSegmentChar (c : CodePoint) : Bool :=
  isAsciiAlpha c || isAsciiDigit c || c == ofChar '_' || c == ofChar '.' || c == ofChar ':' ||
    c == ofChar '+' || c == ofChar '-'

/-- One safe path segment: no separators, escapes or dot segments. -/
def validSegment (value : Str) : Bool :=
  decide (value ≠ []) && decide (value ≠ lit ".") && decide (value ≠ lit "..") &&
    value.all isSegmentChar

/-- `timeout_seconds`, a float. -/
inductive Seconds where
  | nan
  | infinite
  | finite (q : ℚ)
  deriving DecidableEq

def Seconds.accepted : Seconds → Bool
  | .finite q => decide (0 < q)
  | _ => false

/-- The `Authorization` header; the pair goes in base64. -/
inductive Authorization where
  | bearer (token : Str)
  | basic (username password : Str)
  deriving DecidableEq

inductive InitError where
  | valueError (message : String)
  | unicodeEncodeError
  deriving DecidableEq, Repr

structure Settings where
  baseUrl : Str
  repository : Str
  imagePrefix : Str
  token : Str
  username : Str
  password : Str
  timeoutSeconds : Seconds

def falsy (value : Option Str) : Bool := value.elim true fun s => decide (s = [])

-- the checks of an authority in `urlsplit`
variable (netlocValid : Str → Bool)

def validUrl (baseUrl : Str) : Bool :=
  match urlsplit netlocValid baseUrl with
  | none => false
  | some url =>
    decide (url.scheme = lit "https") && url.hostname.isSome && falsy url.username &&
      falsy url.password && decide (url.query = []) && decide (url.fragment = []) &&
      !baseUrl.any PythonText.isSpace

def safePaths (repository imagePrefix : Str) : Bool :=
  validSegment repository && (imagePrefix.splitOn slash).all validSegment

/-- One token or one username/password pair; base64 has no newlines. -/
def authorizationOf (token username password : Str) : Except InitError Authorization :=
  if token ≠ [] ∧ username = [] ∧ password = [] then
    if ofChar '\r' ∈ token ∨ ofChar '\n' ∈ token then .error (.valueError "Invalid Artifactory credentials")
    else .ok (.bearer token)
  else if username ≠ [] ∧ password ≠ [] ∧ token = [] then
    if IsUtf8 (username ++ colon :: password) then .ok (.basic username password)
    else .error .unicodeEncodeError
  else .error (.valueError "Configure one Artifactory token or username/password pair")

/-- A constructed client: its settings have passed the checks. The URL is kept
without the slashes at its end. -/
structure ArtifactoryRegistryClient where
  baseUrl : Str
  repository : Str
  imagePrefix : Str
  authorization : Authorization
  timeout : Seconds
  baseUrl_valid : ∃ url, validUrl netlocValid url = true ∧ baseUrl = url.rdropWhile (· == slash)
  paths_safe : safePaths repository imagePrefix = true

/-- `__init__`. -/
def ArtifactoryRegistryClient.init (s : Settings) :
    Except InitError (ArtifactoryRegistryClient netlocValid) :=
  if hurl : validUrl netlocValid s.baseUrl = true then
    if hpaths : safePaths s.repository s.imagePrefix = true then
      if s.timeoutSeconds.accepted = true then
        match authorizationOf s.token s.username s.password with
        | .error e => .error e
        | .ok authorization =>
          .ok { baseUrl := s.baseUrl.rdropWhile (· == slash)
                repository := s.repository
                imagePrefix := s.imagePrefix
                authorization := authorization
                timeout := s.timeoutSeconds
                baseUrl_valid := ⟨s.baseUrl, hurl, rfl⟩
                paths_safe := hpaths }
      else .error (.valueError "Artifactory timeout must be finite and positive")
    else .error (.valueError "Artifactory repository and image prefix must be safe paths")
  else .error (.valueError "ARTIFACTORY_URL must be an HTTPS URL without credentials")

end Client

section Requests

inductive Method where
  | get | delete
  deriving DecidableEq, Repr

structure Request where
  method : Method
  url : Str
  authorization : Authorization
  timeout : Seconds
  deriving DecidableEq

/-- How a request ends: with a response, whose body may fail to be read, with an
`HTTPError`, or in the transport. -/
inductive Reply where
  | response (status : ℕ) (body : Option (List Byte))
  | httpError (status : ℕ)
  | transportError

/-- What the client raises. -/
inductive Failure where
  | registryError (message : String)
  | unicodeEncodeError
  | recursionError
  deriving DecidableEq, Repr

def maxListingBytes : ℕ := 4*1024*1024

def expectedStatus : Method → ℕ
  | .get => 200
  | .delete => 204

/-- The bounded read of a listing. -/
def readListing (body : List Byte) : Except Failure (Option (List Byte)) :=
  let read := body.take (maxListingBytes+1)
  if maxListingBytes < read.length then .error (.registryError "Artifactory listing exceeds the size limit")
  else .ok (some read)

/-- `_request` on its reply: nothing for a 404. -/
def answer (method : Method) : Reply → Except Failure (Option (List Byte))
  | .httpError status =>
    if status = 404 then .ok none
    else .error (.registryError s!"Artifactory request failed with HTTP {status}")
  | .transportError => .error (.registryError "Artifactory request failed")
  | .response status body =>
    if status ≠ expectedStatus method then
      .error (.registryError "Unexpected Artifactory response status")
    else
      match method with
      | .delete => .ok (some [])
      | .get =>
        match body with
        -- the read raises inside the same handlers
        | none => .error (.registryError "Artifactory request failed")
        | some body => readListing body

/-- How `json.loads` fails. -/
inductive LoadError where
  | valueError | recursionError
  deriving DecidableEq, Repr

end Requests

section Adapter

variable {netlocValid : Str → Bool}

/-- `quote(path, safe="/")`. -/
def quotePath (path : Str) : Option Str := quote [47] path

namespace ArtifactoryRegistryClient

variable (c : ArtifactoryRegistryClient netlocValid)

def request (method : Method) (path : Str) : Request where
  method := method
  url := c.baseUrl ++ slash :: path
  authorization := c.authorization
  timeout := c.timeout

def imagePath (automationId : UUID) : Str := c.imagePrefix ++ slash :: lit automationId.str

/-- The automation's own path in the repository. -/
def itemPath (automationId : UUID) : Str := c.repository ++ slash :: c.imagePath automationId

def listRequest (automationId : UUID) : Option Request :=
  (quotePath (c.itemPath automationId)).map fun path => c.request .get (lit "api/storage/" ++ path)

def deleteRequest (automationId : UUID) (entry : Str) : Option Request :=
  (quotePath (c.itemPath automationId ++ slash :: entry)).map (c.request .delete)

/-- The children of a well-formed listing of exactly this path. -/
def listingChildren (automationId : UUID) : Value → Option (List Value)
  | .dict members =>
    match get members (lit "repo"), get members (lit "path"), get members (lit "children") with
    | some (.str repo), some (.str path), some (.list children) =>
      if repo = c.repository ∧ path = slash :: c.imagePath automationId then some children else none
    | _, _, _ => none
  | _ => none

end ArtifactoryRegistryClient

/-- The name of a child, if it is a safe immediate child. -/
def childEntry : Value → Option Str
  | .dict members =>
    match get members (lit "uri") with
    | some (.str (first :: name)) => if first = slash ∧ validSegment name = true then some name else none
    | _ => none
  | _ => none

/-- `sorted(set(entries))`. -/
def sortedSet (entries : List Str) : List Str := entries.dedup.insertionSort (· ≤ ·)

def childEntries (children : List Value) : Except Failure (List Str) :=
  if children.all fun child => (childEntry child).isSome then
    .ok (sortedSet (children.filterMap childEntry))
  else .error (.registryError "Artifactory returned an unsafe child path")

-- `json.loads` of a body
variable (loads : List Byte → Except LoadError Value)

namespace ArtifactoryRegistryClient

variable (c : ArtifactoryRegistryClient netlocValid)

/-- What a listing says: the absent path is an empty one. -/
def entriesOf (automationId : UUID) : Option (List Byte) → Except Failure (List Str)
  | none => .ok []
  | some body =>
    match loads body with
    | .error .valueError => .error (.registryError "Artifactory returned an invalid listing")
    | .error .recursionError => .error .recursionError
    | .ok payload =>
      match c.listingChildren automationId payload with
      | none => .error (.registryError "Artifactory returned an invalid listing")
      | some children => childEntries children

end ArtifactoryRegistryClient

/-- A request that was sent, with its reply. -/
structure Exchange where
  request : Request
  reply : Reply

namespace ArtifactoryRegistryClient

variable (c : ArtifactoryRegistryClient netlocValid)

/-- `list_image_entries`, with what it sends. -/
def listImageEntries (automationId : UUID) (reply : Reply) :
    List Exchange × Except Failure (List Str) :=
  match c.listRequest automationId with
  | none => ([], .error .unicodeEncodeError)
  | some request =>
    ([⟨request, reply⟩],
      match answer .get reply with
      | .error e => .error e
      | .ok body => c.entriesOf loads automationId body)

/-- `delete_image`, with what it sends. An absent entry counts as deleted. -/
def deleteImage (automationId : UUID) (entry : Str) (reply : Reply) :
    List Exchange × Except Failure Unit :=
  if validSegment entry = false then
    ([], .error (.registryError "Registry entry must be an immediate child of the image"))
  else
    match c.deleteRequest automationId entry with
    | none => ([], .error .unicodeEncodeError)
    | some request => ([⟨request, reply⟩], (answer .delete reply).map fun _ => ())

/-- The deletes of one listing, in its order; the `n`-th request gets the `n`-th reply. -/
def deleteImages (automationId : UUID) (replies : ℕ → Reply) (n : ℕ) :
    List Str → List Exchange × Except String Unit
  | [] => ([], .ok ())
  | entry :: entries =>
    match c.deleteImage automationId entry (replies n) with
    | (sent, .error _) => (sent, .error "registry_delete_failed")
    | (sent, .ok ()) =>
      match deleteImages automationId replies (n+1) entries with
      | (more, result) => (sent ++ more, result)

/-- `_step_delete_images` up to its checkpoint, which it comes to when it does not
fail: list, delete what was listed, and list again. -/
def stepDeleteImages (automationId : UUID) (replies : ℕ → Reply) :
    List Exchange × Except String Unit :=
  match c.listImageEntries loads automationId (replies 0) with
  | (listed, .error _) => (listed, .error "registry_list_failed")
  | (listed, .ok entries) =>
    match c.deleteImages automationId replies 1 entries with
    | (deleted, .error code) => (listed ++ deleted, .error code)
    | (deleted, .ok ()) =>
      match c.listImageEntries loads automationId (replies (entries.length+1)) with
      | (relisted, .error _) => (listed ++ (deleted ++ relisted), .error "registry_list_failed")
      | (relisted, .ok remaining) =>
        (listed ++ (deleted ++ relisted),
          if remaining = [] then .ok () else .error "registry_inventory_not_empty")

/-- The step on the automation's row. -/
def saveImagesDeleted (automationId : UUID) (replies : ℕ → Reply) (now : Timestamp) (r : Record) :
    Record :=
  match (c.stepDeleteImages loads automationId replies).2 with
  | .ok () => checkpoint stepImagesDeleted now r
  | .error _ => r

end ArtifactoryRegistryClient

end Adapter

end KeepAutomation.Registry
