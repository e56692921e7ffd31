import KeepAutomation.CappContract
import KeepAutomation.Sample

/-! The one image grammar that the payload's validator and the cutover's binding
accept together, and what it says about the images that are deployed. -/
namespace KeepAutomation

open TransitionSystem

/-- `prefix.rstrip("/")` -/
def strippedRepository (repository : String) : String :=
  String.ofList (repository.toList.reverse.dropWhile (· = '/')).reverse

/-- A digest in the automation's own repository, and nothing around it. -/
def OwnImage (repository : String) (automationId : UUID) (image : String) : Prop :=
  strippedRepository repository ≠ "" ∧ isValidRepository (strippedRepository repository) = true ∧
    ∃ hex : String, hex.toList.length = 64 ∧ hex.toList.all isHex = true ∧
      image = strippedRepository repository ++ "/" ++ automationId.str ++ "@sha256:" ++ hex

/-- A success payload with this image passes the validators and the binding. -/
def ImageAccepted (repository : String) (automationId : UUID) (image : String) : Prop :=
  ∃ event : CiWebhookIn, event.automationId = automationId ∧ event.status = .success ∧
    event.image = some image ∧ requireOwnImage repository event = .ok ()

theorem configuredImageRepository_eq_some {repository base : String} :
    configuredImageRepository repository = some base ↔
      strippedRepository repository ≠ "" ∧ isValidRepository (strippedRepository repository) = true ∧
        base = strippedRepository repository := by
  change (if strippedRepository repository = "" ∨ ¬isValidRepository (strippedRepository repository)
    then none else some (strippedRepository repository)) = some base ↔ _
  split
  · next h =>
    refine iff_of_false (by simp) ?_
    rintro ⟨hne, hvalid, -⟩
    rcases h with hempty | hinvalid
    · exact hne hempty
    · exact hinvalid hvalid
  · next h =>
    rw [not_or, not_not] at h
    simp only [Option.some.injEq]
    constructor
    · rintro rfl
      exact ⟨h.1, h.2, rfl⟩
    · rintro ⟨-, -, rfl⟩
      rfl

/-- The part of an image before its first `@`. -/
def namedRepository (image : String) : String := String.ofList (image.toList.takeWhile (· ≠ '@'))

theorem requireOwnImage_ok {repository : String} {event : CiWebhookIn} :
    requireOwnImage repository event = .ok () ↔
      strippedRepository repository ≠ "" ∧ isValidRepository (strippedRepository repository) = true ∧
        namedRepository (event.image.getD "") =
          strippedRepository repository ++ "/" ++ event.automationId.str := by
  unfold requireOwnImage
  cases hbase : configuredImageRepository repository with
  | none =>
    refine iff_of_false (by simp) ?_
    rintro ⟨hne, hvalid, -⟩
    have hsome := configuredImageRepository_eq_some.mpr ⟨hne, hvalid, rfl⟩
    rw [hbase] at hsome
    simp at hsome
  | some base =>
    obtain ⟨hne, hvalid, rfl⟩ := configuredImageRepository_eq_some.mp hbase
    dsimp only
    split
    · next h => exact iff_of_true rfl ⟨hne, hvalid, h⟩
    · next h =>
      refine iff_of_false (by simp) ?_
      exact fun hnamed => h hnamed.2.2

theorem hexDigit_isRepositoryChar (n : Fin 16) : isRepositoryChar (hexDigit n) = true := by
  revert n
  decide

/-- An id prints in the repository's alphabet. -/
theorem UUID.str_repositoryChars (u : UUID) : ∀ c ∈ u.str.toList, isRepositoryChar c = true := by
  intro c hc
  obtain rfl | ⟨n, rfl⟩ := u.mem_str hc
  · decide
  · exact hexDigit_isRepositoryChar n

theorem lowerAlnum_isRepositoryChar {c : Char} (h : isLowerAlnum c = true) : isRepositoryChar c = true := by
  simp [isRepositoryChar, h]

theorem matchesRepository_chars {cs : List Char} (h : matchesRepository cs = true) :
    ∀ c ∈ cs, isRepositoryChar c = true := by
  cases cs with
  | nil => simp
  | cons d ds =>
    rw [matchesRepository, Bool.and_eq_true, List.all_eq_true] at h
    intro c hc
    rcases List.mem_cons.mp hc with rfl | hc
    · exact lowerAlnum_isRepositoryChar h.1
    · exact h.2 c hc

/-- A repository goes on with repository characters. -/
theorem matchesRepository_append {cs ds : List Char} (h : matchesRepository cs = true)
    (hds : ∀ c ∈ ds, isRepositoryChar c = true) : matchesRepository (cs ++ ds) = true := by
  cases cs with
  | nil => simp [matchesRepository] at h
  | cons c cs =>
    rw [matchesRepository, Bool.and_eq_true, List.all_eq_true] at h
    rw [List.cons_append, matchesRepository, Bool.and_eq_true, List.all_append, Bool.and_eq_true,
      List.all_eq_true, List.all_eq_true]
    exact ⟨h.1, h.2, hds⟩

/-- A reference splits at its first `@`. -/
theorem digestRef_split {repository rest : List Char}
    (h : ∀ c ∈ repository, isRepositoryChar c = true) :
    (repository ++ '@' :: rest).takeWhile (· ≠ '@') = repository ∧
      (repository ++ '@' :: rest).dropWhile (· ≠ '@') = '@' :: rest := by
  have hnot : ∀ c ∈ repository, decide (c ≠ '@') = true := by
    intro c hc
    rw [decide_eq_true_eq]
    rintro rfl
    exact absurd (h '@' hc) (by decide)
  constructor
  · rw [List.takeWhile_append_of_pos hnot]
    simp
  · rw [List.dropWhile_append_of_pos hnot]
    simp

/-- What a digest reference is, as a string. -/
theorem isDigestRef_iff {image : String} :
    isDigestRef image = true ↔ matchesRepository (namedRepository image).toList = true ∧
      ∃ hex : String, hex.toList.length = 64 ∧ hex.toList.all isHex = true ∧
        image = namedRepository image ++ "@sha256:" ++ hex := by
  have hparts : image.toList = (namedRepository image).toList ++
      (image.toList.dropWhile (· ≠ '@')).take 8 ++ (image.toList.dropWhile (· ≠ '@')).drop 8 := by
    rw [namedRepository, String.toList_ofList, List.append_assoc, List.take_append_drop,
      List.takeWhile_append_dropWhile]
  have hnamed : image.toList.takeWhile (· ≠ '@') = (namedRepository image).toList := by
    rw [namedRepository, String.toList_ofList]
  simp only [isDigestRef, Bool.and_eq_true, beq_iff_eq, hnamed]
  constructor
  · rintro ⟨⟨⟨hrepository, htag⟩, hhex⟩, hlength⟩
    refine ⟨hrepository, String.ofList ((image.toList.dropWhile (· ≠ '@')).drop 8), ?_, ?_, ?_⟩
    · rw [String.toList_ofList]
      exact hlength
    · rw [String.toList_ofList]
      exact hhex
    · rw [htag] at hparts
      have htail : (String.ofList ((image.toList.dropWhile (· ≠ '@')).drop 8)).toList =
          (image.toList.dropWhile (· ≠ '@')).drop 8 := String.toList_ofList
      apply String.toList_injective
      rw [String.toList_append, String.toList_append, htail]
      exact hparts
  · rintro ⟨hrepository, hex, hlength, hhex, himage⟩
    have hrest : image.toList.dropWhile (· ≠ '@') = "@sha256:".toList ++ hex.toList := by
      have hlist : image.toList = (namedRepository image).toList ++ '@' :: ("sha256:".toList ++ hex.toList) := by
        conv_lhs => rw [himage]
        rw [String.toList_append, String.toList_append, List.append_assoc]
        rfl
      rw [hlist, (digestRef_split (matchesRepository_chars hrepository)).2]
      rfl
    rw [hrest]
    exact ⟨⟨⟨hrepository, rfl⟩, hhex⟩, hlength⟩

/-- The validator and the binding accept one grammar. -/
theorem imageAccepted_iff {repository : String} {automationId : UUID} {image : String} :
    ImageAccepted repository automationId image ↔ OwnImage repository automationId image := by
  constructor
  · rintro ⟨event, rfl, hstatus, himage, hown⟩
    obtain ⟨hne, hvalid, hnamed⟩ := requireOwnImage_ok.mp hown
    have href : isDigestRef image = true := by
      have hpinned := event.image_isDigestPinned hstatus
      rw [himage] at hpinned
      exact hpinned
    rw [himage, Option.getD_some] at hnamed
    obtain ⟨-, hex, hlength, hhex, hsplit⟩ := isDigestRef_iff.mp href
    rw [hnamed] at hsplit
    exact ⟨hne, hvalid, hex, hlength, hhex, hsplit⟩
  · rintro ⟨hne, hvalid, hex, hlength, hhex, himage⟩
    have hname : matchesRepository (strippedRepository repository ++ "/" ++ automationId.str).toList = true := by
      rw [String.toList_append, String.toList_append, List.append_assoc]
      refine matchesRepository_append hvalid ?_
      intro c hc
      rcases List.mem_append.mp hc with hc | hc
      · obtain rfl : c = '/' := by simpa using hc
        decide
      · exact automationId.str_repositoryChars c hc
    have hnamed : namedRepository image = strippedRepository repository ++ "/" ++ automationId.str := by
      have hlist : image.toList = (strippedRepository repository ++ "/" ++ automationId.str).toList ++
          '@' :: ("sha256:".toList ++ hex.toList) := by
        rw [himage, String.toList_append, String.toList_append, List.append_assoc]
        rfl
      rw [namedRepository, hlist, (digestRef_split (matchesRepository_chars hname)).1, String.ofList_toList]
    have href : isDigestRef image = true := by
      refine isDigestRef_iff.mpr ⟨hnamed ▸ hname, hex, hlength, hhex, ?_⟩
      rw [hnamed]
      exact himage
    -- any commit and any contract version do; the binding reads neither
    refine ⟨{
      automationId := automationId
      commitSha := sampleSha 'a'
      status := .success
      image := some image
      contractVersion := some "1"
      commitSha_isGitObjectId := by decide +kernel
      image_isDigestPinned := fun _ => href
      contractVersion_onSuccess := fun _ => by decide }, rfl, rfl, rfl, ?_⟩
    exact requireOwnImage_ok.mpr ⟨hne, hvalid, hnamed⟩

/-- No image is own to two automations, whatever repositories are configured: the
id stands at a fixed distance from the end. -/
theorem OwnImage.unique {repository repository' : String} {u v : UUID} {image : String}
    (hu : OwnImage repository u image) (hv : OwnImage repository' v image) : u = v := by
  obtain ⟨-, -, hex, hlength, -, himage⟩ := hu
  obtain ⟨-, -, hex', hlength', -, himage'⟩ := hv
  have hlist := congrArg String.toList (himage.symm.trans himage')
  simp only [String.toList_append, List.append_assoc] at hlist
  have htail (w : UUID) (h : String) (hh : h.toList.length = 64) :
      ("/".toList ++ (w.str.toList ++ ("@sha256:".toList ++ h.toList))).length = 109 := by
    simp only [List.length_append, hh, w.str_length]
    rfl
  have hlengths := (htail u hex hlength).trans (htail v hex' hlength').symm
  have hrest := (List.append_inj' hlist hlengths).2
  have hids := List.append_cancel_left hrest
  have hstr := (List.append_inj hids (by rw [u.str_length, v.str_length])).1
  exact UUID.str_injective (String.toList_injective hstr)

/-- The event whose image a delivery is about to deploy or to record. -/
def Delivery.deploying : Delivery → Option CiWebhookIn
  | .callingCapp event _ | .rechecking event _ _ => some event
  | _ => none

/-- The image a transition passes to `create_deployment` or `rollout`: the call is
accepted, raises, or its process dies. -/
def passedImage (t : Transition State Action) : Option String :=
  match t.act.op with
  | .deliver p _ => (t.pre.deliveries p).calling.map fun event => event.image.getD ""
  | _ => none

/-- Every event in flight and the row's digest are in the automation's repository. -/
structure Bound (cfg : Config) (s : State) : Prop where
  event : ∀ p event, (s.deliveries p).deploying = some event → ∃ image, event.image = some image ∧
    OwnImage cfg.automationImageRepository cfg.automationId image
  row : ∀ r, s.record = some r → r.automation.id = cfg.automationId ∧
    ∀ image, r.automation.activeDigest = some image →
      OwnImage cfg.automationImageRepository cfg.automationId image

theorem ownImage_of_admitted {cfg : Config} {event : CiWebhookIn}
    (hid : event.automationId = cfg.automationId) (hstatus : event.status = .success)
    (hown : requireOwnImage cfg.automationImageRepository event = .ok ()) :
    ∃ image, event.image = some image ∧
      OwnImage cfg.automationImageRepository cfg.automationId image := by
  have hpinned := event.image_isDigestPinned hstatus
  cases himage : event.image with
  | none =>
    rw [himage] at hpinned
    simp at hpinned
  | some image => exact ⟨image, rfl, imageAccepted_iff.mp ⟨event, hid, hstatus, himage, hown⟩⟩

/-- The step lemma: an image comes in through the binding only. -/
theorem Bound.step {cfg : Config} {s s' : State} {now : Timestamp} {op : Op} (hs : Bound cfg s)
    (h : Move cfg s now op s') : Bound cfg s' := by
  refine ⟨?_, ?_⟩
  · intro p event hp
    rcases h.delivery p with ⟨-, hsame⟩ | ⟨o, -, hd⟩
    · exact hs.event p event (hsame ▸ hp)
    · have hbefore := hs.event p
      generalize s.deliveries p = d at hd hbefore
      generalize s'.deliveries p = d' at hd hp
      generalize s'.toShared = sh' at hd
      cases hd with
      | successAdmitted hid _ _ _ hstatus hown =>
        obtain rfl := Option.some.inj hp
        exact ownImage_of_admitted hid hstatus hown
      | cappAccepted => exact hbefore event hp
      | _ => simp [Delivery.deploying] at hp
  · intro r' hr'
    rcases h.row_after hr' with ⟨-, _, _, _, _, _, -, rfl⟩ | ⟨r, hr, hrow⟩
    · exact ⟨rfl, by simp [createAutomation]⟩
    · obtain ⟨hid, hdigest⟩ := hs.row r hr
      refine ⟨hrow.id.trans hid, ?_⟩
      intro image himage
      rcases hrow.deploymentColumns with ⟨hsame, -⟩ | ⟨p, event, target, created, -, hp, -, rfl⟩
      · exact hdigest image (hsame ▸ himage)
      · obtain ⟨own, hown, hgrammar⟩ := hs.event p event (by rw [hp]; rfl)
        obtain rfl : own = image := Option.eq_some_unique hown himage
        exact hgrammar

theorem Reached.bound {cfg : Config} {E : State → Action → Prop} {tr : Trace State Action} {s : State}
    (h : Reached cfg E tr s) : Bound cfg s := by
  refine h.invariant (fun world => ⟨?_, ?_⟩) (fun _ _ _ _ _ _ hs _ _ _ hm => hs.step hm)
  · intro p event hp
    simp [initial, Delivery.deploying] at hp
  · intro r hr
    simp [initial] at hr

theorem Delivery.deploying_of_calling {d : Delivery} {event : CiWebhookIn}
    (h : d.calling = some event) : d.deploying = some event := by
  cases d with
  | callingCapp => exact h
  | _ => simp [Delivery.calling] at h

/-- An image is deployed only if it is exactly a digest in the automation's own
repository: the webhook accepts that grammar and no other, no image for two
automations, and nothing else is ever active or passed to CAPP. -/
theorem own_images_only :
    (∀ repository automationId image,
      ImageAccepted repository automationId image ↔ OwnImage repository automationId image) ∧
    (∀ repository u v image,
      ImageAccepted repository u image → ImageAccepted repository v image → u = v) ∧
    ∀ cfg E tr s, Reached cfg E tr s →
      (∀ r, s.record = some r → r.automation.id = cfg.automationId ∧
        ∀ image ∈ r.automation.activeDigest,
          OwnImage cfg.automationImageRepository cfg.automationId image) ∧
      ∀ t ∈ tr, ∀ image ∈ passedImage t,
        OwnImage cfg.automationImageRepository cfg.automationId image := by
  refine ⟨fun _ _ _ => imageAccepted_iff, ?_, ?_⟩
  · intro repository u v image hu hv
    exact (imageAccepted_iff.mp hu).unique (imageAccepted_iff.mp hv)
  · intro cfg E tr s h
    refine ⟨h.bound.row, ?_⟩
    intro t ht image himage
    obtain ⟨world, hrun⟩ := h
    obtain ⟨-, -, tr', hbefore⟩ := hrun.transition ht
    have hbound := Reached.bound ⟨world, hbefore⟩
    have passed (p : ℕ) (hp : ((t.pre.deliveries p).calling.map fun event => event.image.getD "") =
        some image) : OwnImage cfg.automationImageRepository cfg.automationId image := by
      obtain ⟨event, hevent, rfl⟩ := Option.map_eq_some_iff.mp hp
      obtain ⟨own, hown, hgrammar⟩ := hbound.event p event (Delivery.deploying_of_calling hevent)
      rw [hown]
      exact hgrammar
    unfold passedImage at himage
    split at himage
    · exact passed _ himage
    · simp at himage

theorem own_images_only_sample : ∃ tr s, Reached sampleConfig anything tr s ∧
    (s.record.bind fun r => r.automation.activeDigest) = some (sampleImage 'a') ∧
    OwnImage sampleConfig.automationImageRepository sampleConfig.automationId (sampleImage 'a') := by
  obtain ⟨s, hrun, hdigest⟩ := run_of_runSample (E := anything) buildOps
    (fun s => (s.record.bind fun r => r.automation.activeDigest) = some (sampleImage 'a'))
    (by decide +kernel) (by decide +kernel)
  obtain ⟨r, hr, hactive⟩ := Option.bind_eq_some_iff.mp hdigest
  have hreach : Reached sampleConfig anything _ s := ⟨sampleWorld, hrun⟩
  have hown := (own_images_only.2.2 sampleConfig anything _ s hreach).1 r hr
  exact ⟨_, s, hreach, hdigest, hown.2 _ hactive⟩

/-- Nothing may follow the digest. -/
example : isDigestRef (sampleImage 'a') = true ∧ isDigestRef (sampleImage 'a' ++ "0") = false := by
  decide +kernel

end KeepAutomation
