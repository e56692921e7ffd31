import KeepAutomation.RegistryClient
import Mathlib.Data.List.Lex

/-! What the registry cleanup can reach: every request stays under the
automation's own path, and an error is never taken for an empty inventory. -/
namespace KeepAutomation.Registry

open PythonText PythonUrl

section Scope

variable {netlocValid : Str → Bool}

/-- The path a request goes to: its query and its fragment are not part of it. -/
def Request.path (netlocValid : Str → Bool) (r : Request) : Option Str :=
  (urlsplit netlocValid r.url).map SplitResult.path

/-- Neither path is the other one or lies under it. -/
structure Apart (target other : Str) : Prop where
  not_same : target ≠ other
  not_under : ¬(other ++ [slash]) <+: target
  not_above : ¬(target ++ [slash]) <+: other

def separators : List CodePoint := [slash, ofChar '%', questionMark, hash, ofChar '\\']

/-- One segment that stays where it is put. -/
structure SafeEntry (entry : Str) : Prop where
  ne_nil : entry ≠ []
  ne_dot : entry ≠ lit "."
  ne_dots : entry ≠ lit ".."
  no_separator : ∀ ch ∈ separators, ch ∉ entry

/-- The child of a listing that is called `entry`. -/
def NamesChild (child : Value) (entry : Str) : Prop :=
  ∃ members, child = .dict members ∧ get members (lit "uri") = some (.str (slash :: entry))

variable (loads : List Byte → Except LoadError Value)

namespace ArtifactoryRegistryClient

variable (c : ArtifactoryRegistryClient netlocValid)

/-- The context path of the base URL. -/
def contextPath : Option Str := (urlsplit netlocValid c.baseUrl).map SplitResult.path

/-- The request's path, percent-decoded under the context path, is `target`. -/
def Addresses (r : Request) (target : Str) : Prop :=
  ∃ context p, c.contextPath = some context ∧ r.path netlocValid = some (context ++ slash :: p) ∧
    unquoteToBytes p = some (utf8 target)

/-- A listing of exactly this path, within the size limit. -/
def WellFormedListing (automationId : UUID) (reply : Reply) (children : List Value) : Prop :=
  ∃ body members, reply = .response 200 (some body) ∧ body.length ≤ maxListingBytes ∧
    loads body = .ok (.dict members) ∧
    get members (lit "repo") = some (.str c.repository) ∧
    get members (lit "path") = some (.str (slash :: c.imagePath automationId)) ∧
    get members (lit "children") = some (.list children)

/-- The reply lists `entry` as an immediate child of the automation's path. -/
def Lists (automationId : UUID) (reply : Reply) (entry : Str) : Prop :=
  ∃ children, c.WellFormedListing loads automationId reply children ∧
    ∃ child ∈ children, NamesChild child entry

/-- What a request of the cleanup may address: the storage listing of the
automation's path, or one listed child of it. -/
inductive InScope (automationId : UUID) (listing : Reply) (r : Request) : Prop where
  | list (method : r.method = .get)
      (addresses : c.Addresses r (lit "api/storage/" ++ c.itemPath automationId))
  | delete (entry : Str) (method : r.method = .delete)
      (addresses : c.Addresses r (c.itemPath automationId ++ slash :: entry))
      (safe : SafeEntry entry) (listed : c.Lists loads automationId listing entry)
      (apart : ∀ other, other ≠ automationId →
        Apart (c.itemPath automationId ++ slash :: entry) (c.itemPath other))

/-- The request for an automation and an entry: the listing, or the delete of an
entry that `delete_image` accepts. -/
def requestFor (automationId : UUID) : Option Str → Option Request
  | none => c.listRequest automationId
  | some entry => if validSegment entry = true then c.deleteRequest automationId entry else none

/-- The inventory is what the reply says: nothing for an absent path, else the
children's names. -/
def Inventory (automationId : UUID) (reply : Reply) (entries : List Str) : Prop :=
  (reply = .httpError 404 ∧ entries = []) ∨
    ∃ children, c.WellFormedListing loads automationId reply children ∧
      (∀ entry ∈ entries, ∃ child ∈ children, NamesChild child entry) ∧
      ∀ child ∈ children, ∃ entry ∈ entries, NamesChild child entry

/-- The cleanup of one automation on its replies. -/
structure StaysInScope (automationId : UUID) (replies : ℕ → Reply) : Prop where
  scope : ∀ x ∈ (c.stepDeleteImages loads automationId replies).1,
    c.InScope loads automationId (replies 0) x.request
  distinct : ∀ id id' entry entry' r r', c.requestFor id entry = some r →
    c.requestFor id' entry' = some r' → (id, entry) ≠ (id', entry') →
    r.path netlocValid ≠ r'.path netlocValid
  inventory : ∀ reply entries, (c.listImageEntries loads automationId reply).2 = .ok entries →
    entries.Pairwise (· < ·) ∧ c.Inventory loads automationId reply entries
  accepted : ∀ reply entries, (c.listImageEntries loads automationId reply).2 = .ok entries →
    ∀ entry ∈ entries, ∀ reply', ∃ r, c.requestFor automationId (some entry) = some r ∧
      (c.deleteImage automationId entry reply').1 = [⟨r, reply'⟩]
  checkpoint : ∀ now r, c.saveImagesDeleted loads automationId replies now r ≠ r →
    ∃ last, (c.stepDeleteImages loads automationId replies).1.getLast? = some last ∧
      c.listRequest automationId = some last.request ∧
      (last.reply = .httpError 404 ∨ c.WellFormedListing loads automationId last.reply [])

end ArtifactoryRegistryClient

end Scope

section Characters

theorem isSegmentChar_facts {ch : CodePoint} (h : isSegmentChar ch = true) :
    ch.val < 0x80 ∧ ch ∉ separators := by
  -- the class by code points; the separators lie outside it
  have hval : ch.val = 95 ∨ ch.val = 46 ∨ ch.val = 58 ∨ ch.val = 43 ∨ ch.val = 45 ∨
      (48 ≤ ch.val ∧ ch.val ≤ 57) ∨ (65 ≤ ch.val ∧ ch.val ≤ 90) ∨ (97 ≤ ch.val ∧ ch.val ≤ 122) := by
    simp only [isSegmentChar, isAsciiAlpha, isAsciiDigit, Bool.or_eq_true, Bool.and_eq_true,
      decide_eq_true_eq, beq_iff_eq] at h
    rcases h with (((((h | h) | h) | h) | h) | h) | h
    · omega
    · omega
    all_goals
      rw [h]
      decide
  refine ⟨by omega, fun hmem => ?_⟩
  have hcodes : separators.map Fin.val = [47, 37, 63, 35, 92] := rfl
  have hcode : ch.val ∈ separators.map Fin.val := List.mem_map_of_mem hmem
  rw [hcodes] at hcode
  simp only [List.mem_cons, List.not_mem_nil, or_false] at hcode
  omega

theorem slash_mem_separators : slash ∈ separators := List.mem_cons_self ..

theorem validSegment_iff {value : Str} : validSegment value = true ↔
    value ≠ [] ∧ value ≠ lit "." ∧ value ≠ lit ".." ∧ ∀ ch ∈ value, isSegmentChar ch = true := by
  simp only [validSegment, Bool.and_eq_true, decide_eq_true_eq, List.all_eq_true, and_assoc]

theorem SafeEntry.of_validSegment {entry : Str} (h : validSegment entry = true) : SafeEntry entry := by
  obtain ⟨hne, hdot, hdots, hchars⟩ := validSegment_iff.mp h
  exact ⟨hne, hdot, hdots, fun ch hsep hch => (isSegmentChar_facts (hchars ch hch)).2 hsep⟩

theorem validSegment_ascii {value : Str} (h : validSegment value = true) :
    ∀ ch ∈ value, ch.val < 0x80 := fun ch hch =>
  (isSegmentChar_facts ((validSegment_iff.mp h).2.2.2 ch hch)).1

theorem validSegment_noSlash {value : Str} (h : validSegment value = true) : slash ∉ value :=
  (SafeEntry.of_validSegment h).no_separator slash slash_mem_separators

/-- An id prints in characters of a segment. -/
theorem uuid_segmentChars (u : UUID) : ∀ ch ∈ lit u.str, isSegmentChar ch = true := by
  have hhex : ∀ n, isSegmentChar (ofChar (hexDigit n)) = true := by decide
  intro ch hch
  obtain ⟨d, hd, rfl⟩ := List.mem_map.mp hch
  obtain rfl | ⟨n, rfl⟩ := u.mem_str hd
  · decide
  · exact hhex n

theorem uuid_noSlash (u : UUID) : slash ∉ lit u.str := fun h =>
  (isSegmentChar_facts (uuid_segmentChars u slash h)).2 slash_mem_separators

theorem uuid_length (u : UUID) : (lit u.str).length = 36 := by
  rw [lit, List.length_map, u.str_length]

/-- What is joined from pieces of one kind, by a separator of that kind, is of it. -/
theorem mem_of_splitOn {α : Type} [DecidableEq α] {p : α → Prop} {sep : α} (hsep : p sep) {l : List α}
    (h : ∀ piece ∈ l.splitOn sep, ∀ a ∈ piece, p a) : ∀ a ∈ l, p a := by
  induction l with
  | nil => exact fun a ha => absurd ha List.not_mem_nil
  | cons x l ih =>
    -- a character is the separator, or it leads the first piece of the rest
    rw [List.splitOn_cons_eq_if_modifyHead] at h
    split at h
    · next hx =>
      rw [List.forall_mem_cons]
      exact ⟨beq_iff_eq.mp hx ▸ hsep, ih fun piece hpiece => h piece (List.mem_cons_of_mem _ hpiece)⟩
    · cases hl : l.splitOn sep with
      | nil => exact absurd hl (List.splitOn_ne_nil sep l)
      | cons piece pieces =>
        rw [hl, List.modifyHead_cons, List.forall_mem_cons, List.forall_mem_cons] at h
        rw [List.forall_mem_cons]
        rw [hl, List.forall_mem_cons] at ih
        exact ⟨h.1.1, ih ⟨h.1.2, h.2⟩⟩

end Characters

section Targets

variable {netlocValid : Str → Bool}

namespace ArtifactoryRegistryClient

variable (c : ArtifactoryRegistryClient netlocValid)

/-- The folder above the automations' paths. -/
def root : Str := c.repository ++ slash :: (c.imagePrefix ++ [slash])

theorem itemPath_eq (id : UUID) : c.itemPath id = c.root ++ lit id.str := by
  simp only [itemPath, imagePath, root, List.append_assoc, List.cons_append, List.nil_append]

theorem root_ascii : ∀ ch ∈ c.root, ch.val < 0x80 := by
  have hpaths := c.paths_safe
  simp only [safePaths, Bool.and_eq_true, List.all_eq_true] at hpaths
  have hslash : slash.val < 0x80 := by decide
  intro ch hch
  simp only [root, List.mem_append, List.mem_cons, List.not_mem_nil, or_false] at hch
  rcases hch with hch | rfl | hch | rfl
  · exact validSegment_ascii hpaths.1 ch hch
  · exact hslash
  · exact mem_of_splitOn (p := fun ch => ch.val < 0x80) hslash
      (fun piece hpiece => validSegment_ascii (hpaths.2 piece hpiece)) ch hch
  · exact hslash

/-- What the request for an automation and an entry is for. -/
def target (id : UUID) : Option Str → Str
  | none => lit "api/storage/" ++ c.itemPath id
  | some entry => c.itemPath id ++ slash :: entry

theorem target_ascii {id : UUID} {entry : Option Str} (h : ∀ e ∈ entry, validSegment e = true) :
    ∀ ch ∈ c.target id entry, ch.val < 0x80 := by
  have hitem : ∀ ch ∈ c.itemPath id, ch.val < 0x80 := by
    intro ch hch
    rw [itemPath_eq, List.mem_append] at hch
    rcases hch with hch | hch
    · exact c.root_ascii ch hch
    · exact (isSegmentChar_facts (uuid_segmentChars id ch hch)).1
  cases entry with
  | none =>
    intro ch hch
    rcases List.mem_append.mp hch with hch | hch
    · have hall : (lit "api/storage/").all (fun ch => decide (ch.val < 0x80)) = true := by decide
      exact of_decide_eq_true (List.all_eq_true.mp hall ch hch)
    · exact hitem ch hch
  | some e =>
    intro ch hch
    simp only [target, List.mem_append, List.mem_cons] at hch
    rcases hch with hch | rfl | hch
    · exact hitem ch hch
    · decide
    · exact validSegment_ascii (h e rfl) ch hch

theorem target_count_none (id : UUID) : (c.target id none).count slash = 2 + c.root.count slash := by
  have hstorage : (lit "api/storage/").count slash = 2 := by decide
  rw [target, itemPath_eq, List.count_append, List.count_append, hstorage,
    List.count_eq_zero_of_not_mem (uuid_noSlash id), Nat.add_zero]

theorem target_count_some (id : UUID) {e : Str} (he : validSegment e = true) :
    (c.target id (some e)).count slash = c.root.count slash + 1 := by
  rw [target, itemPath_eq, List.count_append, List.count_append, List.count_cons_self,
    List.count_eq_zero_of_not_mem (uuid_noSlash id), List.count_eq_zero_of_not_mem (validSegment_noSlash he),
    Nat.add_zero]

/-- The ids are cut at their length, and a listing has one separator more than a delete. -/
theorem target_injective {id id' : UUID} {entry entry' : Option Str}
    (he : ∀ e ∈ entry, validSegment e = true) (he' : ∀ e ∈ entry', validSegment e = true)
    (h : c.target id entry = c.target id' entry') : (id, entry) = (id', entry') := by
  have hid {s t : Str} (hst : lit id.str ++ s = lit id'.str ++ t) : id = id' ∧ s = t := by
    have hparts := List.append_inj hst (by rw [uuid_length, uuid_length])
    exact ⟨UUID.str_injective (lit_injective hparts.1), hparts.2⟩
  -- a listing against a delete: the separators do not add up
  have hcount := congrArg (List.count slash) h
  cases entry with
  | none =>
    cases entry' with
    | none =>
      rw [target, target, itemPath_eq, itemPath_eq] at h
      have hstr := List.append_cancel_left (List.append_cancel_left h)
      rw [(hid (s := []) (t := []) (by rw [hstr])).1]
    | some e' =>
      rw [c.target_count_none, c.target_count_some id' (he' e' rfl)] at hcount
      omega
  | some e =>
    cases entry' with
    | none =>
      rw [c.target_count_none, c.target_count_some id (he e rfl)] at hcount
      omega
    | some e' =>
      rw [target, target, itemPath_eq, itemPath_eq, List.append_assoc, List.append_assoc] at h
      obtain ⟨rfl, hentry⟩ := hid (List.append_cancel_left h)
      rw [(List.cons.inj hentry).2]

/-- A child of one automation's path has nothing to do with the path of another one. -/
theorem target_apart {id other : UUID} (hne : other ≠ id) (e : Str) :
    Apart (c.target id (some e)) (c.itemPath other) := by
  have hsplit : c.target id (some e) = c.root ++ (lit id.str ++ slash :: e) := by
    rw [target, itemPath_eq, List.append_assoc]
  rw [hsplit, itemPath_eq]
  constructor
  · intro h
    have hstr := List.append_cancel_left h
    apply uuid_noSlash other
    rw [← hstr]
    exact List.mem_append_right _ (List.mem_cons_self ..)
  · intro h
    -- the other id would have to stand where this one stands
    rw [List.append_assoc, List.prefix_append_right_inj] at h
    obtain ⟨rest, hrest⟩ := h
    rw [List.append_assoc] at hrest
    have hids := (List.append_inj hrest (by rw [uuid_length, uuid_length])).1
    exact hne (UUID.str_injective (lit_injective hids))
  · intro h
    rw [List.append_assoc, List.prefix_append_right_inj] at h
    apply uuid_noSlash other
    apply h.subset
    simp only [List.mem_append, List.mem_cons, true_or, or_true]

/-- A request goes to its target, percent-encoded. -/
theorem requestFor_eq_some {id : UUID} {entry : Option Str} {r : Request}
    (h : c.requestFor id entry = some r) : (∀ e ∈ entry, validSegment e = true) ∧
      ∃ q, quotePath (c.target id entry) = some q ∧ r = c.request (entry.elim .get fun _ => .delete) q := by
  cases entry with
  | none =>
    obtain ⟨q, hq, rfl⟩ := Option.map_eq_some_iff.mp h
    -- the head of a listing's path is not quoted, and quoting would not change it
    have hstorage : quotePath (lit "api/storage/") = some (lit "api/storage/") := by decide +kernel
    refine ⟨fun e he => ?_, _, quote_append _ hstorage hq, rfl⟩
    simp at he
  | some e =>
    simp only [requestFor] at h
    split at h
    · next hvalid =>
      obtain ⟨q, hq, rfl⟩ := Option.map_eq_some_iff.mp h
      refine ⟨fun e' he' => ?_, q, hq, rfl⟩
      rw [← Option.some.inj he']
      exact hvalid
    · simp at h

theorem listRequest_eq_some (id : UUID) : ∃ r, c.listRequest id = some r := by
  have hnone : ∀ e ∈ (none : Option Str), validSegment e = true := by simp
  have hitem : ∀ ch ∈ c.itemPath id, ch.val < 0x80 := fun ch hch =>
    c.target_ascii hnone ch (List.mem_append_right _ hch)
  obtain ⟨q, hq⟩ := quote_ascii [47] hitem
  exact ⟨_, by rw [listRequest, quotePath, hq, Option.map_some]⟩

theorem deleteRequest_eq_some (id : UUID) {e : Str} (he : validSegment e = true) :
    ∃ r, c.deleteRequest id e = some r := by
  have htarget : ∀ ch ∈ c.target id (some e), ch.val < 0x80 :=
    c.target_ascii fun e' he' => Option.some.inj he' ▸ he
  obtain ⟨q, hq⟩ := quote_ascii [47] htarget
  exact ⟨_, by rw [deleteRequest, quotePath, ← target, hq, Option.map_some]⟩

end ArtifactoryRegistryClient

end Targets

section Wire

variable {netlocValid : Str → Bool}

theorem not_isUnsafe_of_not_isSpace {ch : CodePoint} (h : PythonText.isSpace ch = false) :
    isUnsafe ch = false := by
  simp only [PythonText.isSpace, Bool.or_eq_false_iff, Bool.and_eq_false_iff, decide_eq_false_iff_not] at h
  simp only [isUnsafe, Bool.or_eq_false_iff, beq_eq_false_iff_ne]
  omega

/-- An accepted URL has an authority. -/
theorem validUrl_origin {url : Str} (h : validUrl netlocValid url = true) :
    (∀ ch ∈ url, isUnsafe ch = false) ∧ ∃ (o : Origin) (tail : Str), url = o.text ++ tail ∧
      IsTail tail ∧ NetlocOk netlocValid o.netloc := by
  unfold validUrl at h
  split at h
  · simp at h
  · next p hp =>
    simp only [Bool.and_eq_true, decide_eq_true_eq, Bool.not_eq_true', List.any_eq_false,
      Bool.not_eq_true] at h
    obtain ⟨⟨⟨⟨⟨⟨hscheme, hhost⟩, -⟩, -⟩, -⟩, -⟩, hspace⟩ := h
    have hsafe : ∀ ch ∈ url, isUnsafe ch = false := fun ch hch =>
      not_isUnsafe_of_not_isSpace (hspace ch hch)
    -- without an authority there is no host name
    have hnetloc : p.netloc ≠ [] := by
      intro hnil
      have hinfo : p.hostinfo = [] := by
        rw [SplitResult.hostinfo, hnil]
        rfl
      rw [SplitResult.hostname, if_pos hinfo] at hhost
      simp at hhost
    have hscheme' : p.scheme ≠ [] := by
      rw [hscheme]
      decide
    obtain ⟨o, tail, hurl, htail, hok, -⟩ := origin_of_urlsplit netlocValid hp hscheme' hnetloc hsafe
    exact ⟨hsafe, o, tail, hurl, htail, hok⟩

theorem isTail_of_prefix {l m : Str} (hlm : l <+: m) (hm : IsTail m) : IsTail l := by
  cases l with
  | nil => exact fun ch hch => absurd hch (by simp)
  | cons a l =>
    obtain ⟨rest, rfl⟩ := hlm
    exact hm

theorem isTail_append {tail path : Str} (h : IsTail tail) : IsTail (tail ++ slash :: path) := by
  cases tail with
  | nil =>
    intro ch hch
    rw [← Option.some.inj hch]
    decide
  | cons a tail => exact h

namespace ArtifactoryRegistryClient

variable (c : ArtifactoryRegistryClient netlocValid)

/-- The base URL without its slashes keeps its authority. -/
theorem baseUrl_origin : ∃ (o : Origin) (tail : Str), c.baseUrl = o.text ++ tail ∧ IsTail tail ∧
    (∀ ch ∈ tail, isUnsafe ch = false) ∧ NetlocOk netlocValid o.netloc := by
  obtain ⟨url, hvalid, hbase⟩ := c.baseUrl_valid
  obtain ⟨hsafe, o, tail, rfl, htail, hok⟩ := validUrl_origin hvalid
  -- the slashes at the end all stand in the tail: an authority does not end in one
  have hlast : ∀ ch ∈ o.text.getLast?, (ch == slash) = false := by
    intro ch hch
    have htext : o.text = (o.controls ++ (o.scheme ++ [colon, slash, slash])) ++ o.netloc := by
      simp only [Origin.text, List.append_assoc, List.cons_append, List.nil_append]
    rw [htext, List.getLast?_append_of_ne_nil _ o.netloc_ne_nil] at hch
    have hdelimiter := o.netloc_chars ch (List.mem_of_getLast? hch)
    simp only [isDelimiter, Bool.or_eq_false_iff] at hdelimiter
    exact hdelimiter.1.1
  have hlead := List.rdropWhile_prefix (· == slash) (l := tail)
  refine ⟨o, tail.rdropWhile (· == slash), ?_, isTail_of_prefix hlead htail, ?_, hok⟩
  · rw [hbase, rdropWhile_append hlast]
  · exact fun ch hch => hsafe ch (List.mem_append_right _ (hlead.mem hch))

/-- The base URL holds no query and no fragment, not even an empty one. -/
def PlainBase : Prop := ∀ ch ∈ c.baseUrl, isQueryStart ch = false

/-- Requests go under the context path if the base URL is plain, else all of them
go to the context path itself. -/
theorem request_path : ∃ context, c.contextPath = some context ∧
    ∀ method p, (∀ ch ∈ p, IsPathChar ch) →
      (c.PlainBase → (c.request method p).path netlocValid = some (context ++ slash :: p)) ∧
      (¬c.PlainBase → (c.request method p).path netlocValid = some context) := by
  obtain ⟨o, tail, hbase, htail, hsafe, hok⟩ := c.baseUrl_origin
  -- only the tail of the base URL can start a query
  have hplain : c.PlainBase ↔ ∀ ch ∈ tail, isQueryStart ch = false := by
    rw [PlainBase, hbase, List.forall_mem_append]
    exact and_iff_right o.text_noQuery
  refine ⟨tail.takeWhile (!isQueryStart ·), ?_, fun method p hp => ?_⟩
  · rw [contextPath, hbase, urlsplit_path netlocValid o htail hsafe hok]
  have hsafe' : ∀ ch ∈ tail ++ slash :: p, isUnsafe ch = false := by
    rw [List.forall_mem_append, List.forall_mem_cons]
    exact ⟨hsafe, rfl, fun ch hch => (hp ch hch).2.2⟩
  have hpath : (c.request method p).path netlocValid =
      some ((tail ++ slash :: p).takeWhile (!isQueryStart ·)) := by
    rw [Request.path, request, hbase, List.append_assoc,
      urlsplit_path netlocValid o (isTail_append htail) hsafe' hok]
  rw [hpath, Option.some.injEq, Option.some.injEq]
  have hrest : ∀ ch ∈ slash :: p, (!isQueryStart ch) = true := by
    rw [List.forall_mem_cons]
    exact ⟨rfl, fun ch hch => by rw [(hp ch hch).2.1, Bool.not_false]⟩
  constructor
  · intro h
    have hall : ∀ ch ∈ tail, (!isQueryStart ch) = true := fun ch hch => by
      rw [hplain.mp h ch hch, Bool.not_false]
    rw [List.takeWhile_append_of_pos hall, List.takeWhile_eq_self_iff.mpr hall,
      List.takeWhile_eq_self_iff.mpr hrest]
  · intro h
    -- the scan stops inside the tail, in front of what was appended
    rw [List.takeWhile_append, if_neg]
    intro hlength
    have hself := (List.takeWhile_prefix (!isQueryStart ·)).eq_of_length hlength
    refine h (hplain.mpr fun ch hch => ?_)
    have := List.takeWhile_eq_self_iff.mp hself ch hch
    simpa using this

theorem safeBytes_slash : SafeBytes [47] := by
  intro b hb
  rw [List.mem_singleton.mp hb]
  decide

theorem requestFor_addresses (hplain : c.PlainBase) {id : UUID} {entry : Option Str} {r : Request}
    (h : c.requestFor id entry = some r) : c.Addresses r (c.target id entry) := by
  obtain ⟨-, q, hq, rfl⟩ := c.requestFor_eq_some h
  obtain ⟨context, hcontext, hpath⟩ := c.request_path
  have hchars := quote_pathChar [47] safeBytes_slash hq
  exact ⟨context, q, hcontext, (hpath _ q hchars).1 hplain, unquoteToBytes_quote [47] safeBytes_slash hq⟩

/-- With a query in the base URL a request does not even get to the context path's folder. -/
theorem requestFor_not_addresses (hplain : ¬c.PlainBase) {id : UUID} {entry : Option Str} {r : Request}
    (h : c.requestFor id entry = some r) (target : Str) : ¬c.Addresses r target := by
  rintro ⟨context, p, hcontext, hp, -⟩
  obtain ⟨-, q, hq, rfl⟩ := c.requestFor_eq_some h
  obtain ⟨context', hcontext', hpath⟩ := c.request_path
  have hchars := quote_pathChar [47] safeBytes_slash hq
  rw [(hpath _ q hchars).2 hplain, Option.some.injEq] at hp
  rw [hcontext, Option.some.injEq] at hcontext'
  -- the context path would be a proper extension of itself
  have hlength := congrArg List.length (hcontext'.trans hp)
  rw [List.length_append, List.length_cons] at hlength
  omega

theorem requestFor_path_ne (hplain : c.PlainBase) {id id' : UUID} {entry entry' : Option Str}
    {r r' : Request} (h : c.requestFor id entry = some r) (h' : c.requestFor id' entry' = some r')
    (hne : (id, entry) ≠ (id', entry')) : r.path netlocValid ≠ r'.path netlocValid := by
  obtain ⟨hvalid, q, hq, rfl⟩ := c.requestFor_eq_some h
  obtain ⟨hvalid', q', hq', rfl⟩ := c.requestFor_eq_some h'
  obtain ⟨context, -, hpath⟩ := c.request_path
  rw [(hpath _ q (quote_pathChar [47] safeBytes_slash hq)).1 hplain,
    (hpath _ q' (quote_pathChar [47] safeBytes_slash hq')).1 hplain]
  intro heq
  have hquoted : q = q' := (List.cons.inj (List.append_cancel_left (Option.some.inj heq))).2
  -- equal encodings decode to equal targets
  have hbytes : some (utf8 (c.target id entry)) = some (utf8 (c.target id' entry')) := by
    rw [← unquoteToBytes_quote [47] safeBytes_slash hq, hquoted,
      unquoteToBytes_quote [47] safeBytes_slash hq']
  have htarget := utf8_ascii_injective (c.target_ascii hvalid) (c.target_ascii hvalid')
    (Option.some.inj hbytes)
  exact hne (c.target_injective hvalid hvalid' htarget)

end ArtifactoryRegistryClient

end Wire

section Listings

variable {netlocValid : Str → Bool}

theorem readListing_ok {body : List Byte} {read : Option (List Byte)} :
    readListing body = .ok read ↔ body.length ≤ maxListingBytes ∧ some body = read := by
  have hlength : (body.take (maxListingBytes+1)).length = min (maxListingBytes+1) body.length :=
    List.length_take
  -- one byte more than the cap is read, so a longer body shows
  simp only [readListing]
  split
  · next h =>
    refine iff_of_false (by simp) ?_
    rintro ⟨hsize, -⟩
    omega
  · next h =>
    have hsize : body.length ≤ maxListingBytes := by omega
    rw [List.take_of_length_le (by omega), Except.ok.injEq]
    exact (and_iff_right hsize).symm

theorem answer_get_none {reply : Reply} : answer .get reply = .ok none ↔ reply = .httpError 404 := by
  cases reply with
  | response status body =>
    refine iff_of_false ?_ (by simp)
    simp only [answer]
    split
    · simp
    · cases body with
      | none => simp
      | some body => exact fun h => by simpa using (readListing_ok.mp h).2
  | httpError status =>
    simp only [answer, Reply.httpError.injEq]
    split
    · next h => simp [h]
    · next h => simp [h]
  | transportError => simp [answer]

theorem answer_get_some {reply : Reply} {body : List Byte} : answer .get reply = .ok (some body) ↔
    reply = .response 200 (some body) ∧ body.length ≤ maxListingBytes := by
  cases reply with
  | response status body' =>
    have hexpected : expectedStatus .get = 200 := rfl
    simp only [answer, Reply.response.injEq, ← hexpected]
    by_cases h : status = expectedStatus .get
    · rw [if_neg (not_not.mpr h)]
      cases body' with
      | none => simp
      | some body' =>
        rw [readListing_ok]
        constructor
        · rintro ⟨hsize, hbody⟩
          exact ⟨⟨h, hbody⟩, Option.some.inj hbody ▸ hsize⟩
        · rintro ⟨⟨-, hbody⟩, hsize⟩
          exact ⟨Option.some.inj hbody ▸ hsize, hbody⟩
    · rw [if_pos h]
      simp [h]
  | httpError status =>
    simp only [answer]
    split
    · simp
    · simp
  | transportError => simp [answer]

theorem childEntry_eq_some {child : Value} {entry : Str} :
    childEntry child = some entry ↔ NamesChild child entry ∧ validSegment entry = true := by
  constructor
  · intro h
    unfold childEntry at h
    split at h
    · next members =>
      split at h
      · next first name huri =>
        split at h
        · next hname =>
          obtain rfl := Option.some.inj h
          exact ⟨⟨members, rfl, hname.1 ▸ huri⟩, hname.2⟩
        · simp at h
      · simp at h
    · simp at h
  · rintro ⟨⟨members, rfl, huri⟩, hvalid⟩
    simp only [childEntry, huri, hvalid, and_self, if_true]

theorem mem_sortedSet {entries : List Str} {entry : Str} : entry ∈ sortedSet entries ↔ entry ∈ entries := by
  rw [sortedSet, List.mem_insertionSort, List.mem_dedup]

theorem sortedSet_sorted (entries : List Str) : (sortedSet entries).Pairwise (· < ·) := by
  have hsorted : (sortedSet entries).Pairwise (· ≤ ·) := List.pairwise_insertionSort _ _
  have hnodup : (sortedSet entries).Nodup :=
    (List.perm_insertionSort _ _).nodup_iff.mpr (List.nodup_dedup entries)
  exact (hsorted.and hnodup).imp fun h => lt_of_le_of_ne h.1 h.2

theorem childEntries_ok {children : List Value} {entries : List Str}
    (h : childEntries children = .ok entries) :
    entries.Pairwise (· < ·) ∧ (∀ entry ∈ entries, validSegment entry = true) ∧
      (∀ entry ∈ entries, ∃ child ∈ children, NamesChild child entry) ∧
      ∀ child ∈ children, ∃ entry ∈ entries, NamesChild child entry := by
  unfold childEntries at h
  split at h
  · next hall =>
    obtain rfl := Except.ok.inj h
    have hmem {entry : Str} : entry ∈ sortedSet (children.filterMap childEntry) ↔
        ∃ child ∈ children, childEntry child = some entry := by
      rw [mem_sortedSet, List.mem_filterMap]
    refine ⟨sortedSet_sorted _, fun entry hentry => ?_, fun entry hentry => ?_, fun child hchild => ?_⟩
    · obtain ⟨child, -, hchild⟩ := hmem.mp hentry
      exact (childEntry_eq_some.mp hchild).2
    · obtain ⟨child, hin, hchild⟩ := hmem.mp hentry
      exact ⟨child, hin, (childEntry_eq_some.mp hchild).1⟩
    · obtain ⟨entry, hentry⟩ := Option.isSome_iff_exists.mp (List.all_eq_true.mp hall child hchild)
      exact ⟨entry, hmem.mpr ⟨child, hchild, hentry⟩, (childEntry_eq_some.mp hentry).1⟩
  · simp at h

variable (loads : List Byte → Except LoadError Value)

namespace ArtifactoryRegistryClient

variable (c : ArtifactoryRegistryClient netlocValid)

theorem listingChildren_eq_some {id : UUID} {payload : Value} {children : List Value} :
    c.listingChildren id payload = some children ↔ ∃ members, payload = .dict members ∧
      get members (lit "repo") = some (.str c.repository) ∧
      get members (lit "path") = some (.str (slash :: c.imagePath id)) ∧
      get members (lit "children") = some (.list children) := by
  constructor
  · intro h
    unfold listingChildren at h
    split at h
    · next members =>
      split at h
      · next repo path items hrepo hpath hitems =>
        split at h
        · next hown =>
          obtain rfl := Option.some.inj h
          exact ⟨members, rfl, hown.1 ▸ hrepo, hown.2 ▸ hpath, hitems⟩
        · simp at h
      · simp at h
    · simp at h
  · rintro ⟨members, rfl, hrepo, hpath, hitems⟩
    simp only [listingChildren, hrepo, hpath, hitems, and_self, if_true]

/-- An inventory comes from an absent path or from a well-formed listing; every
other reply is an error. -/
theorem listImageEntries_ok {id : UUID} {reply : Reply} {entries : List Str}
    (h : (c.listImageEntries loads id reply).2 = .ok entries) :
    (reply = .httpError 404 ∧ entries = []) ∨
      ∃ children, c.WellFormedListing loads id reply children ∧ childEntries children = .ok entries := by
  obtain ⟨r, hr⟩ := c.listRequest_eq_some id
  simp only [listImageEntries, hr] at h
  cases hanswer : answer .get reply with
  | error e => simp [hanswer] at h
  | ok body =>
    rw [hanswer] at h
    cases body with
    | none => exact Or.inl ⟨answer_get_none.mp hanswer, (Except.ok.inj h).symm⟩
    | some body =>
      obtain ⟨hreply, hsize⟩ := answer_get_some.mp hanswer
      simp only [entriesOf] at h
      split at h
      · simp at h
      · simp at h
      · next payload hload =>
        cases hchildren : c.listingChildren id payload with
        | none => simp [hchildren] at h
        | some children =>
          simp only [hchildren] at h
          obtain ⟨members, rfl, hown⟩ := c.listingChildren_eq_some.mp hchildren
          exact Or.inr ⟨children, ⟨body, members, hreply, hsize, hload, hown⟩, h⟩

/-- What an inventory that was returned is. -/
theorem listImageEntries_facts {id : UUID} {reply : Reply} {entries : List Str}
    (h : (c.listImageEntries loads id reply).2 = .ok entries) :
    entries.Pairwise (· < ·) ∧ (∀ entry ∈ entries, validSegment entry = true) ∧
      c.Inventory loads id reply entries := by
  rcases c.listImageEntries_ok loads h with ⟨hreply, rfl⟩ | ⟨children, hlisting, hentries⟩
  · exact ⟨List.Pairwise.nil, fun _ he => absurd he List.not_mem_nil, Or.inl ⟨hreply, rfl⟩⟩
  · obtain ⟨hsorted, hvalid, hnamed, hall⟩ := childEntries_ok hentries
    exact ⟨hsorted, hvalid, Or.inr ⟨children, hlisting, hnamed, hall⟩⟩

/-- An empty inventory is an absent path or a listing without children. -/
theorem listImageEntries_nil {id : UUID} {reply : Reply}
    (h : (c.listImageEntries loads id reply).2 = .ok []) :
    reply = .httpError 404 ∨ c.WellFormedListing loads id reply [] := by
  rcases c.listImageEntries_ok loads h with ⟨hreply, -⟩ | ⟨children, hlisting, hentries⟩
  · exact Or.inl hreply
  · -- a child would have left its entry
    cases children with
    | nil => exact Or.inr hlisting
    | cons child children =>
      obtain ⟨entry, hentry, -⟩ := (childEntries_ok hentries).2.2.2 child (List.mem_cons_self ..)
      exact absurd hentry List.not_mem_nil

end ArtifactoryRegistryClient

end Listings

section Runs

variable {netlocValid : Str → Bool} (loads : List Byte → Except LoadError Value)

namespace ArtifactoryRegistryClient

variable (c : ArtifactoryRegistryClient netlocValid)

theorem deleteImage_sent (id : UUID) {entry : Str} (h : validSegment entry = true) (reply : Reply) :
    ∃ r, c.requestFor id (some entry) = some r ∧
      c.deleteImage id entry reply = ([⟨r, reply⟩], (answer .delete reply).map fun _ => ()) := by
  obtain ⟨r, hr⟩ := c.deleteRequest_eq_some id h
  refine ⟨r, ?_, ?_⟩
  · rw [requestFor, if_pos h, hr]
  · simp only [deleteImage, h, Bool.true_eq_false, if_false, hr]

theorem listImageEntries_sent (id : UUID) : ∃ r, c.listRequest id = some r ∧ ∀ reply,
    c.listImageEntries loads id reply = ([⟨r, reply⟩], (c.listImageEntries loads id reply).2) := by
  obtain ⟨r, hr⟩ := c.listRequest_eq_some id
  exact ⟨r, hr, fun reply => by simp only [listImageEntries, hr]⟩

/-- The deletes of a listing are for its entries. -/
theorem deleteImages_sent {id : UUID} {replies : ℕ → Reply} {entries : List Str}
    (hvalid : ∀ entry ∈ entries, validSegment entry = true) (n : ℕ) :
    ∀ x ∈ (c.deleteImages id replies n entries).1, ∃ entry ∈ entries,
      c.requestFor id (some entry) = some x.request := by
  induction entries generalizing n with
  | nil => exact fun x hx => absurd hx List.not_mem_nil
  | cons entry entries ih =>
    rw [List.forall_mem_cons] at hvalid
    obtain ⟨r, hr, hsent⟩ := c.deleteImage_sent id hvalid.1 (replies n)
    intro x hx
    rw [deleteImages, hsent] at hx
    -- a failed delete ends the loop
    cases hanswer : (answer .delete (replies n)).map fun _ => () with
    | error e =>
      simp only [hanswer, List.mem_singleton] at hx
      exact ⟨entry, List.mem_cons_self .., hx ▸ hr⟩
    | ok _ =>
      simp only [hanswer, List.cons_append, List.nil_append, List.mem_cons] at hx
      rcases hx with rfl | hx
      · exact ⟨entry, List.mem_cons_self .., hr⟩
      · obtain ⟨e, he, hrequest⟩ := ih hvalid.2 (n+1) x hx
        exact ⟨e, List.mem_cons_of_mem _ he, hrequest⟩

/-- The step sends the listing, and deletes for what the first listing returned. -/
theorem stepDeleteImages_sent {id : UUID} {replies : ℕ → Reply} :
    (∃ x ∈ (c.stepDeleteImages loads id replies).1, c.requestFor id none = some x.request) ∧
      ∀ x ∈ (c.stepDeleteImages loads id replies).1, c.requestFor id none = some x.request ∨
        ∃ entries, (c.listImageEntries loads id (replies 0)).2 = .ok entries ∧
          ∃ entry ∈ entries, c.requestFor id (some entry) = some x.request := by
  obtain ⟨r, hr, hsent⟩ := c.listImageEntries_sent loads id
  have hlist : c.requestFor id none = some r := hr
  cases hlisted : (c.listImageEntries loads id (replies 0)).2 with
  | error e =>
    rw [stepDeleteImages, hsent, hlisted]
    refine ⟨⟨_, List.mem_cons_self .., hlist⟩, fun x hx => Or.inl ?_⟩
    rw [List.mem_singleton.mp hx, hlist]
  | ok entries =>
    have hvalid := (c.listImageEntries_facts loads hlisted).2.1
    have hdeletes : ∀ x ∈ (c.deleteImages id replies 1 entries).1, ∃ entries',
        (.ok entries : Except Failure (List Str)) = .ok entries' ∧
          ∃ entry ∈ entries', c.requestFor id (some entry) = some x.request := fun x hx =>
      ⟨entries, rfl, c.deleteImages_sent hvalid 1 x hx⟩
    rw [stepDeleteImages, hsent, hlisted]
    dsimp only
    cases hdeleted : c.deleteImages id replies 1 entries with
    | mk deleted result =>
      rw [hdeleted] at hdeletes
      cases result with
      | error code =>
        refine ⟨⟨⟨r, replies 0⟩, List.mem_cons_self .., hlist⟩, fun x hx => ?_⟩
        rcases List.mem_cons.mp hx with rfl | hx
        · exact Or.inl hlist
        · exact Or.inr (hdeletes x hx)
      | ok _ =>
        dsimp only
        rw [hsent (replies (entries.length+1))]
        -- whatever the second listing says, it was sent
        have hsecond : ∀ x ∈ (⟨r, replies 0⟩ : Exchange) :: (deleted ++ [⟨r, replies (entries.length+1)⟩]),
            c.requestFor id none = some x.request ∨ ∃ entries',
              (.ok entries : Except Failure (List Str)) = .ok entries' ∧
                ∃ entry ∈ entries', c.requestFor id (some entry) = some x.request := by
          intro x hx
          rcases List.mem_cons.mp hx with rfl | hx
          · exact Or.inl hlist
          rcases List.mem_append.mp hx with hx | hx
          · exact Or.inr (hdeletes x hx)
          · rw [List.mem_singleton.mp hx]
            exact Or.inl hlist
        cases hrelisted : (c.listImageEntries loads id (replies (entries.length+1))).2 with
        | error e => exact ⟨⟨⟨r, replies 0⟩, List.mem_cons_self .., hlist⟩, hsecond⟩
        | ok remaining => exact ⟨⟨⟨r, replies 0⟩, List.mem_cons_self .., hlist⟩, hsecond⟩

/-- The step comes to its checkpoint on an empty inventory only. -/
theorem stepDeleteImages_ok {id : UUID} {replies : ℕ → Reply}
    (h : (c.stepDeleteImages loads id replies).2 = .ok ()) : ∃ last,
      (c.stepDeleteImages loads id replies).1.getLast? = some last ∧
        c.listRequest id = some last.request ∧ (c.listImageEntries loads id last.reply).2 = .ok [] := by
  obtain ⟨r, hr, hsent⟩ := c.listImageEntries_sent loads id
  unfold stepDeleteImages at h ⊢
  rw [hsent] at h ⊢
  cases hlisted : (c.listImageEntries loads id (replies 0)).2 with
  | error e => simp [hlisted] at h
  | ok entries =>
    simp only [hlisted] at h ⊢
    cases hdeleted : c.deleteImages id replies 1 entries with
    | mk deleted result =>
      rw [hdeleted] at h
      cases result with
      | error code => simp at h
      | ok _ =>
        dsimp only at h ⊢
        rw [hsent (replies (entries.length+1))] at h ⊢
        cases hrelisted : (c.listImageEntries loads id (replies (entries.length+1))).2 with
        | error e => simp [hrelisted] at h
        | ok remaining =>
          simp only [hrelisted] at h ⊢
          split at h
          · next hnil =>
            refine ⟨⟨r, replies (entries.length+1)⟩, ?_, hr, hnil ▸ hrelisted⟩
            rw [← List.append_assoc, List.getLast?_append_cons]
            rfl
          · simp at h

/-- A query in the base URL swallows the path of every request, the first listing's too. -/
theorem not_staysInScope (hplain : ¬c.PlainBase) (id : UUID) (replies : ℕ → Reply) :
    ¬c.StaysInScope loads id replies := by
  intro h
  obtain ⟨x, hx, hrequest⟩ := (c.stepDeleteImages_sent loads).1
  cases h.scope x hx with
  | list _ addresses => exact c.requestFor_not_addresses hplain hrequest _ addresses
  | delete _ _ addresses => exact c.requestFor_not_addresses hplain hrequest _ addresses

/-- The cleanup keeps its promises exactly under a base URL without a query or a
fragment. The constructor lets one pass that has the mark and nothing behind it. -/
theorem cleanup_stays_in_scope (id : UUID) (replies : ℕ → Reply) :
    c.StaysInScope loads id replies ↔ c.PlainBase := by
  constructor
  · intro h
    by_contra hplain
    exact c.not_staysInScope loads hplain id replies h
  · intro hplain
    refine ⟨fun x hx => ?_, ?_, ?_, ?_, ?_⟩
    · rcases (c.stepDeleteImages_sent loads).2 x hx with hlist | ⟨entries, hlisted, entry, hentry, hdelete⟩
      · obtain ⟨-, q, -, hrequest⟩ := c.requestFor_eq_some hlist
        exact .list (hrequest ▸ rfl) (c.requestFor_addresses hplain hlist)
      · obtain ⟨-, hvalid, hinventory⟩ := c.listImageEntries_facts loads hlisted
        obtain ⟨-, q, -, hrequest⟩ := c.requestFor_eq_some hdelete
        refine .delete entry (hrequest ▸ rfl) (c.requestFor_addresses hplain hdelete)
          (.of_validSegment (hvalid entry hentry)) ?_ fun other hne => c.target_apart hne entry
        rcases hinventory with ⟨-, rfl⟩ | ⟨children, hlisting, hnamed, -⟩
        · exact absurd hentry List.not_mem_nil
        · exact ⟨children, hlisting, hnamed entry hentry⟩
    · exact fun id id' entry entry' r r' h h' hne => c.requestFor_path_ne hplain h h' hne
    · intro reply entries h
      obtain ⟨hsorted, -, hinventory⟩ := c.listImageEntries_facts loads h
      exact ⟨hsorted, hinventory⟩
    · intro reply entries h entry hentry reply'
      have hvalid := (c.listImageEntries_facts loads h).2.1 entry hentry
      obtain ⟨r, hr, hsent⟩ := c.deleteImage_sent id hvalid reply'
      exact ⟨r, hr, congrArg Prod.fst hsent⟩
    · intro now r hsaved
      cases hresult : (c.stepDeleteImages loads id replies).2 with
      | error code =>
        refine absurd ?_ hsaved
        rw [saveImagesDeleted, hresult]
      | ok _ =>
        obtain ⟨last, hlast, hrequest, hempty⟩ := c.stepDeleteImages_ok loads hresult
        exact ⟨last, hlast, hrequest, c.listImageEntries_nil loads hempty⟩

end ArtifactoryRegistryClient

def emptyQuerySettings : Settings where
  baseUrl := lit "https://registry.example/artifactory?"
  repository := lit "docker-local"
  imagePrefix := lit "automations"
  token := lit "secret-token"
  username := []
  password := []
  timeoutSeconds := .finite 10

/-- The client that the constructor makes of them. -/
def emptyQueryClient : ArtifactoryRegistryClient fun _ => true where
  baseUrl := lit "https://registry.example/artifactory?"
  repository := lit "docker-local"
  imagePrefix := lit "automations"
  authorization := .bearer (lit "secret-token")
  timeout := .finite 10
  baseUrl_valid := ⟨lit "https://registry.example/artifactory?", by decide +kernel, by decide +kernel⟩
  paths_safe := by decide +kernel

def oldTagListing : Value :=
  .dict [(lit "repo", .str (lit "docker-local")),
    (lit "path", .str (lit "/automations/00000000-0000-0000-0000-000000000007")),
    (lit "children", .list [.dict [(lit "uri", .str (lit "/old-tag"))]])]

def oldTagReplies : ℕ → Reply
  | 0 => .response 200 (some [])
  | 1 => .response 204 (some [])
  | _ => .httpError 404

/-- Under `/artifactory?` the delete of one tag goes to `/artifactory` itself. -/
theorem cleanup_leaves_its_scope :
    ArtifactoryRegistryClient.init (fun _ => true) emptyQuerySettings = .ok emptyQueryClient ∧
      ((emptyQueryClient.stepDeleteImages (fun _ => .ok oldTagListing) ⟨7⟩ oldTagReplies).1.map
        fun x => (x.request.method, x.request.path fun _ => true)) =
          [(.get, some (lit "/artifactory")), (.delete, some (lit "/artifactory")),
            (.get, some (lit "/artifactory"))] ∧
      ¬emptyQueryClient.StaysInScope (fun _ => .ok oldTagListing) ⟨7⟩ oldTagReplies := by
  refine ⟨rfl, by decide +kernel, ?_⟩
  apply ArtifactoryRegistryClient.not_staysInScope
  intro hplain
  have hmark : isQueryStart questionMark = false := hplain questionMark (by decide +kernel)
  exact absurd hmark (by decide)

end Runs

end KeepAutomation.Registry
