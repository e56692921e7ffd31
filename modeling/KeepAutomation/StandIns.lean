import KeepAutomation.CappContract

/-! The in-memory stand-ins of git and CAPP against the outside world of the
model: over any calls of the service the dictionaries they keep are views of one
branch of commits, and of the deployments the world has. -/
namespace KeepAutomation

section Git

/-- `InMemoryGitClient`, each dictionary as a function of its key. -/
structure InMemoryGitClient where
  files : String → Option String
  revisions : String → ℕ
  shas : String → Option String
  commitLog : List String

def newGitClient : InMemoryGitClient where
  files := fun _ => none
  revisions := fun _ => 0
  shas := fun _ => none
  commitLog := []

def archiveMarkerPath (automationId : UUID) : String := automationId.str ++ "/.archived"

/-- The text of which the stand-in takes the hash. -/
def hashedText (scriptPath : String) (revision : ℕ) (content : String) : String :=
  String.ofList (scriptPath.toList ++ '@' :: (Nat.toDigits 10 revision ++ '\n' :: content.toList))

namespace InMemoryGitClient

variable (sha1 : String → String)

def commitScript (g : InMemoryGitClient) (scriptPath content message : String) :
    String × InMemoryGitClient :=
  let revision := g.revisions scriptPath + 1
  let digest := sha1 (hashedText scriptPath revision content)
  (digest, {
    files := Function.update g.files scriptPath (some content)
    revisions := Function.update g.revisions scriptPath revision
    shas := Function.update g.shas scriptPath (some digest)
    commitLog := g.commitLog ++ [message] })

def readScript (g : InMemoryGitClient) (scriptPath : String) : Option String := g.files scriptPath

/-- The marker's sha, or nothing where the lookup of it would raise. -/
def archive (g : InMemoryGitClient) (automationId : UUID) (actor : String) :
    Option String × InMemoryGitClient :=
  let path := archiveMarkerPath automationId
  if (g.files path).isSome then (g.shas path, g)
  else
    let (sha, g) := g.commitScript sha1 path ("archived by " ++ actor ++ "\n")
      ("archive " ++ automationId.str)
    (some sha, g)

end InMemoryGitClient

/-- A commit of the stand-in: the path it writes, and how often that was written. -/
structure GitCommit where
  path : String
  revision : ℕ
  content : String
  message : String
  deriving DecidableEq, Repr

def GitCommit.text (c : GitCommit) : String := hashedText c.path c.revision c.content

/-- The commits that the image builds are to ignore, by the name they write. -/
def GitCommit.isMarker (c : GitCommit) : Bool := decide ("/.archived".toList <:+ c.path.toList)

def scriptCommit (automationId : UUID) (revision : ℕ) (content message : String) : GitCommit :=
  ⟨scriptPathFor automationId, revision, content, message⟩

def markerCommit (automationId : UUID) (actor : String) : GitCommit :=
  ⟨archiveMarkerPath automationId, 1, "archived by " ++ actor ++ "\n", "archive " ++ automationId.str⟩

/-- The branch, newest commit first. -/
abbrev Branch := List GitCommit

def Branch.last (b : Branch) (path : String) : Option GitCommit := b.find? fun c => c.path = path

def Branch.count (b : Branch) (path : String) : ℕ := b.countP fun c => c.path = path

/-- Every commit carries its number among those of its path. -/
inductive Branch.Numbered : Branch → Prop
  | nil : Branch.Numbered []
  | cons {b : Branch} {c : GitCommit} : b.Numbered → c.revision = b.count c.path + 1 →
      Branch.Numbered (c :: b)

theorem Branch.Numbered.le {b : Branch} (h : b.Numbered) : ∀ c ∈ b, c.revision ≤ b.count c.path := by
  induction h with
  | nil => simp
  | @cons b first _ hrevision ih =>
    intro c hc
    unfold Branch.count at hrevision ih ⊢
    rcases List.mem_cons.mp hc with rfl | hc
    · rw [List.countP_cons_of_pos (by simp), hrevision]
    · have hle := ih c hc
      rw [List.countP_cons]
      omega

/-- So no commit is numbered as another one of its path. -/
theorem Branch.Numbered.distinct {b : Branch} (h : b.Numbered) :
    b.Pairwise fun c d => ¬(c.path = d.path ∧ c.revision = d.revision) := by
  induction h with
  | nil => exact List.Pairwise.nil
  | @cons b first hnumbered hrevision ih =>
    refine List.Pairwise.cons ?_ ih
    intro d hd hsame
    have hle := hnumbered.le d hd
    rw [← hsame.1, ← hsame.2, hrevision] at hle
    omega

/-- A path without an `@` and its revision can be read off the hashed text. -/
theorem hashedText_inj {p q c d : String} {m n : ℕ} (hp : '@' ∉ p.toList) (hq : '@' ∉ q.toList)
    (h : hashedText p m c = hashedText q n d) : p = q ∧ m = n := by
  have digits (k : ℕ) : '\n' ∉ Nat.toDigits 10 k := by
    intro hmem
    have hdigit := Nat.isDigit_of_mem_toDigits (by decide) (by decide) hmem
    exact absurd hdigit (by decide)
  -- two texts cut at the first occurrence of a character
  have cut {a : Char} : ∀ {x y u v : List Char}, a ∉ x → a ∉ y → x ++ a :: u = y ++ a :: v →
      x = y ∧ u = v := by
    intro x
    induction x with
    | nil =>
      intro y u v _ hy heq
      cases y with
      | nil => exact ⟨rfl, (List.cons.inj heq).2⟩
      | cons b y =>
        have hfirst : a = b := (List.cons.inj heq).1
        exact absurd (hfirst ▸ List.mem_cons_self) hy
    | cons e x ih =>
      intro y u v hx hy heq
      cases y with
      | nil =>
        have hfirst : e = a := (List.cons.inj heq).1
        exact absurd (hfirst ▸ List.mem_cons_self) hx
      | cons b y =>
        obtain ⟨hfirst, hrest⟩ := List.cons.inj heq
        have htail := ih (fun hmem => hx (List.mem_cons_of_mem _ hmem))
          (fun hmem => hy (List.mem_cons_of_mem _ hmem)) hrest
        exact ⟨by rw [hfirst, htail.1], htail.2⟩
  obtain ⟨hpath, hrest⟩ := cut hp hq (String.ofList_injective h)
  obtain ⟨hdigits, -⟩ := cut (digits m) (digits n) hrest
  refine ⟨String.toList_injective hpath, ?_⟩
  calc m = Nat.ofDigitChars 10 (Nat.toDigits 10 m) 0 :=
        (Nat.ofDigitChars_toDigits (by decide) (by decide)).symm
    _ = Nat.ofDigitChars 10 (Nat.toDigits 10 n) 0 := by rw [hdigits]
    _ = n := Nat.ofDigitChars_toDigits (by decide) (by decide)

/-- The dictionaries are views of the branch. -/
structure InMemoryGitClient.Shows (sha1 : String → String) (g : InMemoryGitClient) (b : Branch) : Prop where
  files : ∀ path, g.files path = (b.last path).map GitCommit.content
  shas : ∀ path, g.shas path = (b.last path).map fun c => sha1 c.text
  revisions : ∀ path, g.revisions path = b.count path
  log : g.commitLog = b.reverse.map GitCommit.message

section Views

variable {sha1 : String → String} {g : InMemoryGitClient} {b : Branch}

theorem Branch.last_cons (b : Branch) (c : GitCommit) (path : String) :
    Branch.last (c :: b) path = if path = c.path then some c else b.last path := by
  unfold Branch.last
  rw [List.find?_cons]
  by_cases hpath : path = c.path
  · rw [if_pos hpath, decide_eq_true hpath.symm]
  · rw [if_neg hpath, decide_eq_false (Ne.symm hpath)]

theorem Branch.count_cons (b : Branch) (c : GitCommit) (path : String) :
    Branch.count (c :: b) path = if path = c.path then b.count path + 1 else b.count path := by
  unfold Branch.count
  rw [List.countP_cons]
  by_cases hpath : path = c.path
  · rw [if_pos hpath, if_pos (decide_eq_true hpath.symm)]
  · rw [if_neg hpath, if_neg (by simp [Ne.symm hpath]), Nat.add_zero]

/-- A commit is one more on the branch, numbered as the next of its path. -/
theorem InMemoryGitClient.Shows.commitScript (h : g.Shows sha1 b) (path content message : String) :
    let c : GitCommit := ⟨path, b.count path + 1, content, message⟩
    (g.commitScript sha1 path content message).1 = sha1 c.text ∧
      (g.commitScript sha1 path content message).2.Shows sha1 (c :: b) := by
  intro c
  have hdigest : (g.commitScript sha1 path content message).1 = sha1 c.text := by
    simp only [InMemoryGitClient.commitScript, h.revisions, GitCommit.text, c]
  refine ⟨hdigest, ⟨?_, ?_, ?_, ?_⟩⟩
  · intro p
    rw [Branch.last_cons]
    by_cases hp : p = path
    · rw [if_pos hp, hp]
      exact Function.update_self ..
    · rw [if_neg hp]
      exact (Function.update_of_ne hp ..).trans (h.files p)
  · intro p
    rw [Branch.last_cons]
    by_cases hp : p = path
    · rw [if_pos hp, hp, Option.map_some, ← hdigest]
      exact Function.update_self ..
    · rw [if_neg hp]
      exact (Function.update_of_ne hp ..).trans (h.shas p)
  · intro p
    rw [Branch.count_cons]
    by_cases hp : p = path
    · rw [if_pos hp, hp, ← h.revisions]
      exact Function.update_self ..
    · rw [if_neg hp]
      exact (Function.update_of_ne hp ..).trans (h.revisions p)
  · rw [List.reverse_cons, List.map_append, List.map_singleton, ← h.log]
    rfl

end Views

/-- The calls of the service: the commits of create and edit, and the archive of
the cascade. -/
inductive GitCall where
  | commitScript (automationId : UUID) (content message : String)
  | archive (automationId : UUID) (actor : String)
  deriving DecidableEq

def GitCall.perform (sha1 : String → String) (g : InMemoryGitClient) :
    GitCall → Option String × InMemoryGitClient
  | .commitScript automationId content message =>
    let (sha, g) := g.commitScript sha1 (scriptPathFor automationId) content message
    (some sha, g)
  | .archive automationId actor => g.archive sha1 automationId actor

/-- The same call on the outside world. -/
def World.gitCall (w : World) : GitCall → Option String → World
  | .commitScript _ _ _, sha => sha.elim w w.commitScript
  | .archive automationId actor, _ => w.archive automationId actor

/-- The script a call writes for an automation. -/
def GitCall.content? (automationId : UUID) : GitCall → Option String
  | .commitScript id content _ => if id = automationId then some content else none
  | .archive _ _ => none

/-- The stand-in and the world after some calls, with the answers of the stand-in. -/
structure GitRun where
  client : InMemoryGitClient
  world : World
  answers : List (GitCall × Option String)

def GitRun.next (sha1 : String → String) (r : GitRun) (call : GitCall) : GitRun :=
  let (answer, client) := call.perform sha1 r.client
  { client := client
    world := r.world.gitCall call answer
    answers := r.answers ++ [(call, answer)] }

/-- From an empty repository. -/
def gitRun (sha1 : String → String) (w : World) (calls : List GitCall) : GitRun :=
  calls.foldl (GitRun.next sha1) ⟨newGitClient, { w with commits := [], archives := [] }, []⟩

theorem UUID.str_no_at (u : UUID) : '@' ∉ u.str.toList := by
  intro hmem
  rcases u.mem_str hmem with hdash | ⟨n, hn⟩
  · exact absurd hdash (by decide)
  · revert hn
    revert n
    decide

theorem scriptPathFor_no_at (u : UUID) : '@' ∉ (scriptPathFor u).toList := by
  unfold scriptPathFor
  rw [String.toList_append, List.mem_append]
  rintro (hid | hname)
  · exact u.str_no_at hid
  · exact absurd hname (by decide)

theorem archiveMarkerPath_no_at (u : UUID) : '@' ∉ (archiveMarkerPath u).toList := by
  unfold archiveMarkerPath
  rw [String.toList_append, List.mem_append]
  rintro (hid | hname)
  · exact u.str_no_at hid
  · exact absurd hname (by decide)

theorem scriptPathFor_injective : Function.Injective scriptPathFor := by
  intro u v h
  exact UUID.str_injective ((String.append_left_inj _).mp h)

theorem archiveMarkerPath_injective : Function.Injective archiveMarkerPath := by
  intro u v h
  exact UUID.str_injective ((String.append_left_inj _).mp h)

theorem isMarker_scriptCommit (id : UUID) (revision : ℕ) (content message : String) :
    (scriptCommit id revision content message).isMarker = false := by
  apply decide_eq_false
  rintro ⟨front, h⟩
  -- the two names end in different letters
  have hlast := congrArg List.getLast? h
  simp [scriptCommit, scriptPathFor, List.getLast?_append] at hlast

theorem GitCommit.isMarker_of_path {c : GitCommit} {id : UUID} (h : c.path = archiveMarkerPath id) :
    c.isMarker = true := by
  apply decide_eq_true
  rw [h, archiveMarkerPath, String.toList_append]
  exact List.suffix_append ..

/-- No script is written over a marker. -/
theorem scriptPathFor_ne_marker (u v : UUID) : scriptPathFor u ≠ archiveMarkerPath v := by
  intro h
  have hscript := isMarker_scriptCommit u 1 "" ""
  rw [GitCommit.isMarker_of_path (c := scriptCommit u 1 "" "") h] at hscript
  exact absurd hscript (by decide)

/-- What is kept over the calls: one branch, of which the dictionaries, the world
and the answers are views. -/
structure StandsIn (sha1 : String → String) (calls : List GitCall) (r : GitRun) (b : Branch) : Prop where
  shows : r.client.Shows sha1 b
  numbered : b.Numbered
  paths : ∀ c ∈ b, '@' ∉ c.path.toList
  scripts : r.world.commits = (b.reverse.filter fun c => !c.isMarker).map fun c => sha1 c.text
  markers : b.reverse.filter GitCommit.isMarker = r.world.archives.map fun a => markerCommit a.1 a.2
  distinct : (r.world.archives.map Prod.fst).Nodup
  committed : ∀ id content message answer, (GitCall.commitScript id content message, answer) ∈ r.answers →
    ∃ revision, scriptCommit id revision content message ∈ b ∧
      answer = some (sha1 (scriptCommit id revision content message).text)
  answered : ∀ id actor answer, (GitCall.archive id actor, answer) ∈ r.answers →
    ∃ first, (id, first) ∈ r.world.archives ∧ answer = some (sha1 (markerCommit id first).text)
  read : ∀ id, (b.last (scriptPathFor id)).map GitCommit.content =
    calls.reverse.findSome? (GitCall.content? id)

section Step

variable {sha1 : String → String} {calls : List GitCall} {r : GitRun} {b : Branch}

theorem Branch.last_isSome (b : Branch) (path : String) : (b.last path).isSome = true ↔ 0 < b.count path := by
  unfold Branch.last Branch.count
  rw [List.find?_isSome, List.countP_pos_iff]

/-- What the branch has at a marker's path is the commit of an archive that the
world has. -/
theorem StandsIn.marker (h : StandsIn sha1 calls r b) {id : UUID} {c : GitCommit} (hc : c ∈ b)
    (hpath : c.path = archiveMarkerPath id) : ∃ first, (id, first) ∈ r.world.archives ∧ c = markerCommit id first := by
  have hmem : c ∈ b.reverse.filter GitCommit.isMarker :=
    List.mem_filter.mpr ⟨List.mem_reverse.mpr hc, GitCommit.isMarker_of_path hpath⟩
  rw [h.markers] at hmem
  obtain ⟨a, ha, rfl⟩ := List.mem_map.mp hmem
  obtain rfl := archiveMarkerPath_injective hpath
  exact ⟨a.2, ha, rfl⟩

theorem StandsIn.archived (h : StandsIn sha1 calls r b) (id : UUID) :
    r.world.archived id ↔ 0 < b.count (archiveMarkerPath id) := by
  unfold Branch.count
  rw [List.countP_pos_iff]
  constructor
  · rintro ⟨a, ha, rfl⟩
    have hmem : markerCommit a.1 a.2 ∈ b.reverse.filter GitCommit.isMarker := by
      rw [h.markers]
      exact List.mem_map_of_mem ha
    exact ⟨_, List.mem_reverse.mp (List.mem_filter.mp hmem).1, decide_eq_true rfl⟩
  · rintro ⟨c, hc, hpath⟩
    obtain ⟨first, hfirst, -⟩ := h.marker hc (of_decide_eq_true hpath)
    exact ⟨_, hfirst, rfl⟩

theorem StandsIn.commitScript (h : StandsIn sha1 calls r b) (id : UUID) (content message : String) :
    StandsIn sha1 (calls ++ [.commitScript id content message])
      (r.next sha1 (.commitScript id content message))
      (scriptCommit id (b.count (scriptPathFor id) + 1) content message :: b) := by
  obtain ⟨hdigest, hshows⟩ := h.shows.commitScript (scriptPathFor id) content message
  have hscript := isMarker_scriptCommit id (b.count (scriptPathFor id) + 1) content message
  refine ⟨hshows, .cons h.numbered rfl, ?_, ?_, ?_, h.distinct, ?_, ?_, ?_⟩
  · intro c hc
    rcases List.mem_cons.mp hc with rfl | hc
    · exact scriptPathFor_no_at id
    · exact h.paths c hc
  · rw [List.reverse_cons, List.filter_append, List.map_append, ← h.scripts,
      List.filter_cons_of_pos (by rw [hscript]; rfl)]
    exact congrArg (fun sha => r.world.commits ++ [sha]) hdigest
  · rw [List.reverse_cons, List.filter_append, List.filter_cons_of_neg (by rw [hscript]; exact Bool.false_ne_true)]
    exact (List.append_nil _).trans h.markers
  · intro v content' message' answer hanswer
    rcases List.mem_append.mp hanswer with hold | hnew
    · obtain ⟨revision, hmem, hsha⟩ := h.committed v content' message' answer hold
      exact ⟨revision, List.mem_cons_of_mem _ hmem, hsha⟩
    · obtain ⟨hcall, rfl⟩ := Prod.mk.inj (List.mem_singleton.mp hnew)
      injection hcall with hid hcontent hmessage
      rw [hid, hcontent, hmessage]
      exact ⟨_, List.mem_cons_self, congrArg some hdigest⟩
  · intro v actor answer hanswer
    rcases List.mem_append.mp hanswer with hold | hnew
    · exact h.answered v actor answer hold
    · simp at hnew
  · intro v
    rw [Branch.last_cons, List.reverse_append, List.reverse_singleton, List.singleton_append,
      List.findSome?_cons, GitCall.content?]
    by_cases hv : id = v
    · rw [if_pos hv]
      exact congrArg (Option.map _) (if_pos (congrArg scriptPathFor hv.symm))
    · have hpath : scriptPathFor v ≠ scriptPathFor id := fun hsame => hv (scriptPathFor_injective hsame.symm)
      rw [if_neg hv]
      exact (congrArg (Option.map _) (if_neg hpath)).trans (h.read v)

/-- An archive that finds the marker commits nothing. -/
theorem StandsIn.archive_again (h : StandsIn sha1 calls r b) {id : UUID} (actor : String)
    (hmarked : 0 < b.count (archiveMarkerPath id)) :
    StandsIn sha1 (calls ++ [.archive id actor]) (r.next sha1 (.archive id actor)) b := by
  obtain ⟨c, hlast⟩ := Option.isSome_iff_exists.mp ((b.last_isSome _).mpr hmarked)
  obtain ⟨first, hfirst, rfl⟩ := h.marker (List.mem_of_find?_eq_some hlast)
    (of_decide_eq_true (List.find?_some (p := fun c : GitCommit => decide (c.path = _)) hlast))
  have hfile : (r.client.files (archiveMarkerPath id)).isSome = true := by
    rw [h.shows.files, hlast]
    rfl
  have hclient : r.client.archive sha1 id actor = (some (sha1 (markerCommit id first).text), r.client) := by
    rw [InMemoryGitClient.archive, if_pos hfile, h.shows.shas, hlast, Option.map_some]
  have hworld : r.world.archive id actor = r.world := if_pos ((h.archived id).mpr hmarked)
  have hnext : r.next sha1 (.archive id actor) =
      ⟨r.client, r.world, r.answers ++ [(.archive id actor, some (sha1 (markerCommit id first).text))]⟩ := by
    simp only [GitRun.next, GitCall.perform, World.gitCall, hclient, hworld]
  rw [hnext]
  refine ⟨h.shows, h.numbered, h.paths, h.scripts, h.markers, h.distinct, ?_, ?_, ?_⟩
  · intro v content message answer hanswer
    rcases List.mem_append.mp hanswer with hold | hnew
    · exact h.committed v content message answer hold
    · simp at hnew
  · intro v actor' answer hanswer
    rcases List.mem_append.mp hanswer with hold | hnew
    · exact h.answered v actor' answer hold
    · obtain ⟨hcall, rfl⟩ := Prod.mk.inj (List.mem_singleton.mp hnew)
      injection hcall with hid
      rw [hid]
      exact ⟨first, hfirst, rfl⟩
  · intro v
    rw [List.reverse_append, List.reverse_singleton, List.singleton_append, List.findSome?_cons]
    exact h.read v

theorem StandsIn.archive_first (h : StandsIn sha1 calls r b) {id : UUID} (actor : String)
    (hnone : b.count (archiveMarkerPath id) = 0) :
    StandsIn sha1 (calls ++ [.archive id actor]) (r.next sha1 (.archive id actor))
      (markerCommit id actor :: b) := by
  have hfile : (r.client.files (archiveMarkerPath id)).isSome = false := by
    rw [h.shows.files, Option.isSome_map, Bool.eq_false_iff, Ne, Branch.last_isSome, hnone]
    exact lt_irrefl 0
  have hfree : ¬r.world.archived id := by
    rw [h.archived, hnone]
    exact lt_irrefl 0
  obtain ⟨hdigest, hshows⟩ := h.shows.commitScript (archiveMarkerPath id)
    ("archived by " ++ actor ++ "\n") ("archive " ++ id.str)
  rw [hnone] at hdigest hshows
  have hclient : r.client.archive sha1 id actor = (some (r.client.commitScript sha1 (archiveMarkerPath id)
      ("archived by " ++ actor ++ "\n") ("archive " ++ id.str)).1, (r.client.commitScript sha1
      (archiveMarkerPath id) ("archived by " ++ actor ++ "\n") ("archive " ++ id.str)).2) := by
    rw [InMemoryGitClient.archive, hfile]
    rfl
  generalize r.client.commitScript sha1 (archiveMarkerPath id) ("archived by " ++ actor ++ "\n")
    ("archive " ++ id.str) = made at hdigest hshows hclient
  have hworld : r.world.archive id actor =
      { r.world with archives := r.world.archives ++ [(id, actor)] } := if_neg hfree
  have hnext : r.next sha1 (.archive id actor) =
      ⟨made.2, { r.world with archives := r.world.archives ++ [(id, actor)] },
        r.answers ++ [(.archive id actor, some made.1)]⟩ := by
    simp only [GitRun.next, GitCall.perform, World.gitCall, hclient, hworld]
  have hmarker : (markerCommit id actor).isMarker = true := GitCommit.isMarker_of_path rfl
  rw [hnext]
  refine ⟨hshows, .cons h.numbered ?_, ?_, ?_, ?_, ?_, ?_, ?_, ?_⟩
  · exact (congrArg (· + 1) hnone).symm
  · intro c hc
    rcases List.mem_cons.mp hc with rfl | hc
    · exact archiveMarkerPath_no_at id
    · exact h.paths c hc
  · rw [List.reverse_cons, List.filter_append, List.filter_cons_of_neg (by rw [hmarker]; exact Bool.false_ne_true)]
    exact h.scripts.trans (congrArg (List.map _) (List.append_nil _).symm)
  · rw [List.reverse_cons, List.filter_append, List.filter_cons_of_pos hmarker, h.markers, List.map_append]
    rfl
  · rw [List.map_append, List.nodup_append]
    refine ⟨h.distinct, List.nodup_singleton _, ?_⟩
    intro v hv u hu hsame
    obtain ⟨a, ha, rfl⟩ := List.mem_map.mp hv
    exact hfree ⟨a, ha, hsame.trans (List.mem_singleton.mp hu)⟩
  · intro v content message answer hanswer
    rcases List.mem_append.mp hanswer with hold | hnew
    · obtain ⟨revision, hmem, hsha⟩ := h.committed v content message answer hold
      exact ⟨revision, List.mem_cons_of_mem _ hmem, hsha⟩
    · simp at hnew
  · intro v actor' answer hanswer
    rcases List.mem_append.mp hanswer with hold | hnew
    · obtain ⟨first, hfirst, hsha⟩ := h.answered v actor' answer hold
      exact ⟨first, List.mem_append_left _ hfirst, hsha⟩
    · obtain ⟨hcall, rfl⟩ := Prod.mk.inj (List.mem_singleton.mp hnew)
      injection hcall with hid
      rw [hid]
      exact ⟨actor, List.mem_append_right _ List.mem_cons_self, congrArg some hdigest⟩
  · intro v
    rw [Branch.last_cons, List.reverse_append, List.reverse_singleton, List.singleton_append,
      List.findSome?_cons]
    exact (congrArg (Option.map _) (if_neg (scriptPathFor_ne_marker v id))).trans (h.read v)

end Step

theorem gitRun_stands (sha1 : String → String) (w : World) (calls : List GitCall) :
    ∃ b, StandsIn sha1 calls (gitRun sha1 w calls) b := by
  induction calls using List.reverseRecOn with
  | nil =>
    refine ⟨[], ⟨⟨fun _ => rfl, fun _ => rfl, fun _ => rfl, rfl⟩, .nil, by simp, rfl, rfl, List.nodup_nil,
      ?_, ?_, fun _ => rfl⟩⟩
    · intro id content message answer hanswer
      exact absurd hanswer List.not_mem_nil
    · intro id actor answer hanswer
      exact absurd hanswer List.not_mem_nil
  | append_singleton calls call ih =>
    obtain ⟨b, h⟩ := ih
    have hnext : gitRun sha1 w (calls ++ [call]) = (gitRun sha1 w calls).next sha1 call := by
      rw [gitRun, List.foldl_append]
      rfl
    rw [hnext]
    cases call with
    | commitScript id content message => exact ⟨_, h.commitScript id content message⟩
    | archive id actor =>
      rcases Nat.eq_zero_or_pos (b.count (archiveMarkerPath id)) with hnone | hmarked
      · exact ⟨_, h.archive_first actor hnone⟩
      · exact ⟨b, h.archive_again actor hmarked⟩

theorem StandsIn.texts_nodup {sha1 : String → String} {calls : List GitCall} {r : GitRun} {b : Branch}
    (h : StandsIn sha1 calls r b) : (b.map GitCommit.text).Nodup := by
  rw [List.Nodup, List.pairwise_map]
  apply h.numbered.distinct.imp_of_mem
  intro c d hc hd hdistinct hsame
  exact hdistinct (hashedText_inj (h.paths c hc) (h.paths d hd) hsame)

/-- Over any calls of the service there is one branch of commits that the stand-in
and the model's world both show. No two of its commits hash one text. A read gives
the last script committed. The world's commits are the scripts' and its archives
are the markers', each in order; no automation has two markers. A commit of a
script answers the sha of its own commit, and every archive of an automation
answers the sha of the marker it has. -/
theorem git_stand_in (sha1 : String → String) (w : World) (calls : List GitCall) :
    let r := gitRun sha1 w calls
    ∃ b : Branch, (b.map GitCommit.text).Nodup ∧
      r.client.commitLog = b.reverse.map GitCommit.message ∧
      (∀ id, r.client.readScript (scriptPathFor id) = (b.last (scriptPathFor id)).map GitCommit.content ∧
        r.client.readScript (scriptPathFor id) = calls.reverse.findSome? (GitCall.content? id)) ∧
      r.world.commits = (b.reverse.filter fun c => !c.isMarker).map (fun c => sha1 c.text) ∧
      b.reverse.filter GitCommit.isMarker = r.world.archives.map (fun a => markerCommit a.1 a.2) ∧
      (r.world.archives.map Prod.fst).Nodup ∧
      (∀ id content message answer, (GitCall.commitScript id content message, answer) ∈ r.answers →
        ∃ revision, scriptCommit id revision content message ∈ b ∧
          answer = some (sha1 (scriptCommit id revision content message).text)) ∧
      ∀ id actor answer, (GitCall.archive id actor, answer) ∈ r.answers →
        ∃ first, (id, first) ∈ r.world.archives ∧ answer = some (sha1 (markerCommit id first).text) := by
  intro r
  obtain ⟨b, h⟩ := gitRun_stands sha1 w calls
  refine ⟨b, h.texts_nodup, h.shows.log, ?_, h.scripts, h.markers, h.distinct, h.committed, h.answered⟩
  intro id
  exact ⟨h.shows.files _, (h.shows.files _).trans (h.read id)⟩

end Git

section Capp

/-- What the stand-in records of each call. -/
inductive CappRecord where
  | create (key wallet image : String) (secretRefs : List String)
  | teardown (deploymentId : String)
  | rollout (deploymentId image : String) (secretRefs : List String)
  deriving DecidableEq, Repr

/-- `InMemoryCappClient`, each dictionary as a function of its key. -/
structure InMemoryCappClient where
  fail : Bool
  deployments : String → Option CappDeployment
  wallets : String → Option String
  images : String → Option String
  calls : List CappRecord

def newCappClient : InMemoryCappClient where
  fail := false
  deployments := fun _ => none
  wallets := fun _ => none
  images := fun _ => none
  calls := []

/-- The deployment the stand-in makes for a key in a wallet. -/
def standInDeployment (key wallet : String) : CappDeployment where
  deploymentId := "automation-" ++ key
  deploymentUrl := "https://" ++ wallet ++ ".capp.test/" ++ key

namespace InMemoryCappClient

/-- `self.deployments[key]` and `self.wallets[key]` are written together. -/
def store (c : InMemoryCappClient) (key wallet : String) : InMemoryCappClient :=
  { c with
    deployments := Function.update c.deployments key (some (standInDeployment key wallet))
    wallets := Function.update c.wallets key (some wallet) }

def serve (c : InMemoryCappClient) (deploymentId image : String) : InMemoryCappClient :=
  { c with images := Function.update c.images deploymentId (some image) }

def note (c : InMemoryCappClient) (call : CappRecord) : InMemoryCappClient :=
  { c with calls := c.calls ++ [call] }

def createDeployment (c : InMemoryCappClient) (automationId : UUID) (wallet image : String)
    (secretRefs : List String) : Except Error CappDeployment × InMemoryCappClient :=
  let key := automationId.str
  let c := c.note (.create key wallet image secretRefs)
  if c.fail then (.error .cappUnavailableError, c)
  else
    match c.deployments key with
    | none =>
      let made := standInDeployment key wallet
      (.ok made, (c.store key wallet).serve made.deploymentId image)
    | some found =>
      if c.wallets key = some wallet then (.ok found, c.serve found.deploymentId image)
      else
        -- found in another wallet: torn down and made again in this one
        let c := c.note (.teardown found.deploymentId)
        let c := { c with images := Function.update c.images found.deploymentId none }
        let made := standInDeployment key wallet
        (.ok made, (c.store key wallet).serve made.deploymentId image)

/-- Whether the deployment exists is not asked. -/
def rollout (c : InMemoryCappClient) (deploymentId image : String) (secretRefs : List String) :
    Except Error Unit × InMemoryCappClient :=
  let c := c.note (.rollout deploymentId image secretRefs)
  if c.fail then (.error .cappUnavailableError, c) else (.ok (), c.serve deploymentId image)

end InMemoryCappClient

/-- A call while the stand-in fails or not, on it and on the outside world; the
answer of a rollout is empty. -/
def cappCall (fail : Bool) (c : InMemoryCappClient) (w : World) :
    CappCall → Except Error (Option CappDeployment) × InMemoryCappClient × World
  | .createDeployment automationId wallet image secretRefs =>
    let (answer, c') := { c with fail := fail }.createDeployment automationId wallet image secretRefs
    (answer.map some, c',
      if answer.isOk then w.createDeployment automationId wallet image secretRefs else w)
  | .rollout deploymentId image secretRefs =>
    let (answer, c') := { c with fail := fail }.rollout deploymentId image secretRefs
    (answer.map fun _ => none, c', if answer.isOk then w.rollout deploymentId image secretRefs else w)

/-- The stand-in and the world have the same deployments, in the same wallets and
with the same images. -/
structure CappAgrees (c : InMemoryCappClient) (w : World) : Prop where
  named : ∀ id wallet, c.wallets (UUID.str id) = some wallet →
    c.deployments (UUID.str id) = some (standInDeployment (UUID.str id) wallet)
  placed : ∀ id, (c.deployments (UUID.str id)).isSome = true → (c.wallets (UUID.str id)).isSome = true
  wallets : ∀ id wallet, w.hasCapp wallet (pinnedName id) ↔ c.wallets (UUID.str id) = some wallet
  images : ∀ id, w.served (pinnedName id) =
    (c.deployments (UUID.str id)).bind fun d => c.images d.deploymentId

namespace World

/-- A create leaves the deployments of other names. -/
theorem createDeployment_other (w : World) {id : UUID} {name : String} (wallet image : String)
    (secretRefs : List String) (hname : pinnedName id ≠ name) :
    (w.createDeployment id wallet image secretRefs).served name = w.served name ∧
      ∀ wallet', (w.createDeployment id wallet image secretRefs).hasCapp wallet' name ↔
        w.hasCapp wallet' name := by
  constructor
  · have hpred : (fun c : Capp => decide (decide (c.name ≠ pinnedName id) = true ∧
        decide (c.name = name) = true)) = fun c => decide (c.name = name) := by
      funext c
      by_cases hc : c.name = name
      · simp [hc, hname.symm]
      · simp [hc]
    unfold served createDeployment
    dsimp only
    rw [List.find?_cons, decide_eq_false hname, List.find?_filter, hpred]
  · intro wallet'
    unfold hasCapp createDeployment
    dsimp only
    constructor
    · rintro ⟨c, hc, hwallet, hc'⟩
      rcases List.mem_cons.mp hc with rfl | hc
      · exact absurd hc' hname
      · exact ⟨c, (List.mem_filter.mp hc).1, hwallet, hc'⟩
    · rintro ⟨c, hc, hwallet, hc'⟩
      refine ⟨c, List.mem_cons_of_mem _ (List.mem_filter.mpr ⟨hc, ?_⟩), hwallet, hc'⟩
      rw [decide_eq_true_eq, hc']
      exact hname.symm

theorem hasCapp_createDeployment (w : World) (id : UUID) (wallet image : String)
    (secretRefs : List String) (wallet' : String) :
    (w.createDeployment id wallet image secretRefs).hasCapp wallet' (pinnedName id) ↔
      wallet' = wallet := by
  constructor
  · rintro ⟨c, hc, hwallet, hname⟩
    rcases List.mem_cons.mp hc with rfl | hc
    · exact hwallet.symm
    · have hother := of_decide_eq_true (List.mem_filter.mp hc).2
      exact absurd hname hother
  · rintro rfl
    exact ⟨_, List.mem_cons_self, rfl, rfl⟩

/-- A rollout moves no deployment, and changes the image of its name only. -/
theorem hasCapp_rollout (w : World) (deploymentId image : String) (secretRefs : List String)
    (wallet name : String) :
    (w.rollout deploymentId image secretRefs).hasCapp wallet name ↔ w.hasCapp wallet name := by
  unfold hasCapp rollout
  simp only [List.mem_map, exists_exists_and_eq_and]
  apply exists_congr
  intro c
  split
  · rfl
  · rfl

theorem served_rollout_other (w : World) {deploymentId name : String} (image : String)
    (secretRefs : List String) (hname : deploymentId ≠ name) :
    (w.rollout deploymentId image secretRefs).served name = w.served name := by
  have hpred : ((fun c : Capp => decide (c.name = name)) ∘ fun c : Capp =>
      if c.name = deploymentId then { c with image := image, secretRefs := secretRefs } else c) =
      fun c => decide (c.name = name) := by
    funext c
    dsimp only [Function.comp]
    split
    · rfl
    · rfl
  unfold served rollout
  rw [List.find?_map, hpred]
  cases hfind : w.capps.find? fun c => decide (c.name = name) with
  | none => rfl
  | some c =>
    have hfound := List.find?_some hfind
    have hc : c.name = name := of_decide_eq_true hfound
    have hne : c.name ≠ deploymentId := by
      rw [hc]
      exact hname.symm
    rw [Option.map_some, if_neg hne]

theorem served_rollout_none {w : World} {name : String} (image : String) (secretRefs : List String)
    (h : w.served name = none) : (w.rollout name image secretRefs).served name = none := by
  have hnone : ∀ c ∈ w.capps, c.name ≠ name := by
    intro c hc hname
    have hfree := List.find?_eq_none.mp (Option.map_eq_none_iff.mp h) c hc
    exact hfree (decide_eq_true hname)
  have hsame : (w.rollout name image secretRefs).capps = w.capps := by
    unfold rollout
    dsimp only
    apply List.map_congr_left (g := id) _ |>.trans (List.map_id _)
    intro c hc
    exact if_neg (hnone c hc)
  unfold served
  rw [hsame]
  exact h

theorem exists_of_hasCapp {w : World} {wallet name : String} (h : w.hasCapp wallet name) :
    ∃ c ∈ w.capps, c.name = name := by
  obtain ⟨c, hc, -, hname⟩ := h
  exact ⟨c, hc, hname⟩

end World

section Calls

variable {c c' : InMemoryCappClient} {w : World} {id : UUID} {wallet image : String}

theorem InMemoryCappClient.store_deployments (v : UUID) :
    (c.store id.str wallet).deployments v.str =
      if v = id then some (standInDeployment id.str wallet) else c.deployments v.str := by
  unfold InMemoryCappClient.store
  dsimp only
  simp only [Function.update_apply, UUID.str_injective.eq_iff]

theorem InMemoryCappClient.store_wallets (v : UUID) :
    (c.store id.str wallet).wallets v.str = if v = id then some wallet else c.wallets v.str := by
  unfold InMemoryCappClient.store
  dsimp only
  simp only [Function.update_apply, UUID.str_injective.eq_iff]

theorem InMemoryCappClient.serve_deployments (deploymentId : String) :
    (c.serve deploymentId image).deployments = c.deployments := rfl

theorem InMemoryCappClient.serve_wallets (deploymentId : String) :
    (c.serve deploymentId image).wallets = c.wallets := rfl

theorem InMemoryCappClient.serve_images (v : UUID) :
    (c.serve (pinnedName id) image).images (pinnedName v) =
      if v = id then some image else c.images (pinnedName v) := by
  unfold InMemoryCappClient.serve
  dsimp only
  simp only [Function.update_apply, pinnedName_injective.eq_iff]

/-- How the stand-in is after a create that succeeds: the automation has one
deployment, in the wallet that was asked for, and the others are as they were. -/
structure Created (c c' : InMemoryCappClient) (id : UUID) (wallet image : String) : Prop where
  deployments : ∀ v, c'.deployments (UUID.str v) =
    if v = id then some (standInDeployment id.str wallet) else c.deployments (UUID.str v)
  wallets : ∀ v, c'.wallets (UUID.str v) = if v = id then some wallet else c.wallets (UUID.str v)
  images : ∀ v, c'.images (pinnedName v) = if v = id then some image else c.images (pinnedName v)

theorem CappAgrees.deploymentId (h : CappAgrees c w) {d : CappDeployment}
    (hd : c.deployments id.str = some d) : d.deploymentId = pinnedName id := by
  have hplaced := h.placed id (by rw [hd]; rfl)
  obtain ⟨wallet', hwallet⟩ := Option.isSome_iff_exists.mp hplaced
  rw [Option.some.inj (hd.symm.trans (h.named id wallet' hwallet))]
  rfl

theorem InMemoryCappClient.createDeployment_ok (h : CappAgrees c w) {secretRefs : List String}
    {d : CappDeployment} (hmade : c.createDeployment id wallet image secretRefs = (.ok d, c')) :
    d = standInDeployment id.str wallet ∧ Created c c' id wallet image := by
  have hnew (base : InMemoryCappClient) (hdeployments : base.deployments = c.deployments)
      (hwallets : base.wallets = c.wallets)
      (himages : ∀ v, v ≠ id → base.images (pinnedName v) = c.images (pinnedName v)) :
      Created c ((base.store id.str wallet).serve (pinnedName id) image) id wallet image := by
    refine ⟨fun v => ?_, fun v => ?_, fun v => ?_⟩
    · rw [InMemoryCappClient.serve_deployments, InMemoryCappClient.store_deployments, hdeployments]
    · rw [InMemoryCappClient.serve_wallets, InMemoryCappClient.store_wallets, hwallets]
    · rw [InMemoryCappClient.serve_images]
      by_cases hv : v = id
      · rw [if_pos hv, if_pos hv]
      · rw [if_neg hv, if_neg hv]
        exact himages v hv
  unfold InMemoryCappClient.createDeployment at hmade
  dsimp only at hmade
  split at hmade
  · simp at hmade
  · split at hmade
    · obtain ⟨hd, rfl⟩ := Prod.mk.inj hmade
      exact ⟨(Except.ok.inj hd).symm, hnew (c.note _) rfl rfl fun _ _ => rfl⟩
    · next found hfound =>
      split at hmade
      · next hsame =>
        -- found in the wallet it is asked for: only the image changes
        obtain ⟨hd, rfl⟩ := Prod.mk.inj hmade
        have hstored := h.named id wallet hsame
        have hown : found = standInDeployment id.str wallet := Option.some.inj (hfound.symm.trans hstored)
        refine ⟨(Except.ok.inj hd).symm.trans hown, ?_⟩
        rw [hown]
        refine ⟨fun v => ?_, fun v => ?_, fun v => InMemoryCappClient.serve_images v⟩
        · by_cases hv : v = id
          · rw [if_pos hv, hv]
            exact hstored
          · rw [if_neg hv]
            rfl
        · by_cases hv : v = id
          · rw [if_pos hv, hv]
            exact hsame
          · rw [if_neg hv]
            rfl
      · obtain ⟨hd, rfl⟩ := Prod.mk.inj hmade
        refine ⟨(Except.ok.inj hd).symm, hnew { (c.note _).note _ with images := _ } rfl rfl ?_⟩
        intro v hv
        have hne : pinnedName v ≠ found.deploymentId := by
          rw [h.deploymentId hfound]
          exact fun hsame => hv (pinnedName_injective hsame)
        exact Function.update_of_ne hne ..

/-- The world after the same create. -/
theorem CappAgrees.created (h : CappAgrees c w) (hc : Created c c' id wallet image)
    (secretRefs : List String) : CappAgrees c' (w.createDeployment id wallet image secretRefs) := by
  have hother {v : UUID} (hv : v ≠ id) : pinnedName id ≠ pinnedName v :=
    fun hsame => hv (pinnedName_injective hsame.symm)
  refine ⟨?_, ?_, ?_, ?_⟩
  · intro v wallet' hwallet
    rw [hc.wallets] at hwallet
    rw [hc.deployments]
    by_cases hv : v = id
    · rw [if_pos hv] at hwallet ⊢
      rw [← Option.some.inj hwallet, hv]
    · rw [if_neg hv] at hwallet ⊢
      exact h.named v wallet' hwallet
  · intro v hdeployed
    rw [hc.deployments] at hdeployed
    rw [hc.wallets]
    by_cases hv : v = id
    · rw [if_pos hv]
      rfl
    · rw [if_neg hv] at hdeployed ⊢
      exact h.placed v hdeployed
  · intro v wallet'
    rw [hc.wallets]
    by_cases hv : v = id
    · rw [if_pos hv, hv]
      rw [World.hasCapp_createDeployment, Option.some.injEq, eq_comm]
    · rw [if_neg hv, ← h.wallets]
      exact (w.createDeployment_other wallet image secretRefs (hother hv)).2 wallet'
  · intro v
    rw [hc.deployments]
    by_cases hv : v = id
    · rw [if_pos hv, hv, World.served_createDeployment, Option.bind_some]
      exact ((hc.images id).trans (if_pos rfl)).symm
    · rw [if_neg hv, (w.createDeployment_other wallet image secretRefs (hother hv)).1, h.images]
      cases hd : c.deployments (UUID.str v) with
      | none => rfl
      | some d =>
        have hname := h.deploymentId hd
        rw [Option.bind_some, Option.bind_some, hname, hc.images, if_neg hv]

/-- A rollout of whatever name: where the world has no such deployment, the image
the stand-in notes is one that nothing serves. -/
theorem CappAgrees.rolledOut (h : CappAgrees c w) (deploymentId : String) (secretRefs : List String) :
    CappAgrees (c.serve deploymentId image) (w.rollout deploymentId image secretRefs) := by
  refine ⟨h.named, h.placed, ?_, ?_⟩
  · intro v wallet'
    rw [World.hasCapp_rollout]
    exact h.wallets v wallet'
  · intro v
    rw [InMemoryCappClient.serve_deployments]
    by_cases hv : deploymentId = pinnedName v
    · rw [hv]
      cases hd : c.deployments (UUID.str v) with
      | none =>
        have hserved := h.images v
        rw [hd, Option.bind_none] at hserved
        rw [Option.bind_none]
        exact World.served_rollout_none image secretRefs hserved
      | some d =>
        obtain ⟨wallet', hwallet⟩ := Option.isSome_iff_exists.mp (h.placed v (by rw [hd]; rfl))
        have hcapp := World.exists_of_hasCapp ((h.wallets v wallet').mpr hwallet)
        rw [World.served_rollout image secretRefs hcapp, Option.bind_some, h.deploymentId hd,
          InMemoryCappClient.serve_images, if_pos rfl]
    · rw [w.served_rollout_other image secretRefs hv, h.images]
      cases hd : c.deployments (UUID.str v) with
      | none => rfl
      | some d =>
        rw [Option.bind_some, Option.bind_some, h.deploymentId hd]
        exact (Function.update_of_ne (Ne.symm hv) ..).symm

/-- One call keeps the stand-in and the world alike; one that fails changes neither. -/
theorem CappAgrees.call (h : CappAgrees c w) (fail : Bool) (call : CappCall) :
    CappAgrees (cappCall fail c w call).2.1 (cappCall fail c w call).2.2 := by
  have hflag : CappAgrees { c with fail := fail } w := ⟨h.named, h.placed, h.wallets, h.images⟩
  cases call with
  | createDeployment id wallet image secretRefs =>
    cases hmade : ({ c with fail := fail } : InMemoryCappClient).createDeployment id wallet image secretRefs with
    | mk answer c' =>
      simp only [cappCall, hmade]
      cases answer with
      | ok d => exact hflag.created (InMemoryCappClient.createDeployment_ok hflag hmade).2 secretRefs
      | error e =>
        have hkept : c'.deployments = c.deployments ∧ c'.wallets = c.wallets ∧ c'.images = c.images := by
          unfold InMemoryCappClient.createDeployment at hmade
          dsimp only at hmade
          split at hmade
          · obtain ⟨-, rfl⟩ := Prod.mk.inj hmade
            exact ⟨rfl, rfl, rfl⟩
          · split at hmade
            · simp at hmade
            · split at hmade
              · simp at hmade
              · simp at hmade
        obtain ⟨hdeployments, hwallets, himages⟩ := hkept
        exact ⟨by rw [hwallets, hdeployments]; exact h.named, by rw [hwallets, hdeployments]; exact h.placed,
          by rw [hwallets]; exact h.wallets, by rw [hdeployments, himages]; exact h.images⟩
  | rollout deploymentId image secretRefs =>
    cases fail with
    | true => exact ⟨h.named, h.placed, h.wallets, h.images⟩
    | false =>
      have hnoted : CappAgrees ({ c with fail := false }.note (.rollout deploymentId image secretRefs)) w :=
        ⟨h.named, h.placed, h.wallets, h.images⟩
      exact hnoted.rolledOut deploymentId secretRefs

end Calls

/-- Calls in order, each met by a stand-in that fails or does not. -/
def cappRun (w : World) (calls : List (Bool × CappCall)) : InMemoryCappClient × World :=
  calls.foldl (fun (c, w) (fail, call) => (cappCall fail c w call).2) (newCappClient, { w with capps := [] })

/-- Over any calls, failing or not, the stand-in of CAPP is the model's world: the
same automations have a deployment, each one only, in the same wallet and with the
same image. A create answers with the pinned name and the url of the wallet it was
asked for, never with a deployment found in another. -/
theorem capp_stand_in (w : World) (calls : List (Bool × CappCall)) :
    CappAgrees (cappRun w calls).1 (cappRun w calls).2 ∧
      ∀ fail id wallet image secretRefs d,
        (cappCall fail (cappRun w calls).1 (cappRun w calls).2
          (.createDeployment id wallet image secretRefs)).1 = .ok (some d) →
        d = ⟨pinnedName id, "https://" ++ wallet ++ ".capp.test/" ++ id.str⟩ := by
  have hagrees : CappAgrees (cappRun w calls).1 (cappRun w calls).2 := by
    induction calls using List.reverseRecOn with
    | nil =>
      refine ⟨?_, ?_, ?_, fun _ => rfl⟩
      · intro id wallet hwallet
        simp [cappRun, newCappClient] at hwallet
      · intro id hdeployed
        simp [cappRun, newCappClient] at hdeployed
      · intro id wallet
        simp [cappRun, newCappClient, World.hasCapp]
    | append_singleton calls call ih =>
      have hnext : cappRun w (calls ++ [call]) =
          (cappCall call.1 (cappRun w calls).1 (cappRun w calls).2 call.2).2 := by
        rw [cappRun, List.foldl_append]
        rfl
      rw [hnext]
      exact ih.call call.1 call.2
  refine ⟨hagrees, ?_⟩
  intro fail id wallet image secretRefs d hanswer
  have hflag : CappAgrees { (cappRun w calls).1 with fail := fail } (cappRun w calls).2 :=
    ⟨hagrees.named, hagrees.placed, hagrees.wallets, hagrees.images⟩
  cases hmade : ({ (cappRun w calls).1 with fail := fail } : InMemoryCappClient).createDeployment id wallet
      image secretRefs with
  | mk answer c' =>
    simp only [cappCall, hmade] at hanswer
    cases answer with
    | error e => simp [Except.map] at hanswer
    | ok made =>
      obtain rfl := Option.some.inj (Except.ok.inj hanswer)
      exact (InMemoryCappClient.createDeployment_ok hflag hmade).1

end Capp

end KeepAutomation
