import KeepAutomation.RowCoherence

/-! The lifecycle of an automation as an automaton over what its row shows: the
matching state, the build state, the checkpoint and whether a build was ever cut
over. The system refines it, and reaches every state of it. -/
namespace KeepAutomation

open TransitionSystem

/-- What the lifecycle is about, out of a row. -/
structure Profile where
  matching : MatchingState
  build : BuildState
  step : Option ℕ
  deployed : Bool
  deriving DecidableEq, Repr

def Automation.profile (a : Automation) : Profile where
  matching := a.matchingState
  build := a.buildState
  step := a.deleteCascadeStep
  deployed := a.activeDigest.isSome

/-- A created automation waits for its first build. -/
def Profile.fresh : Profile where
  matching := .inactive
  build := .building
  step := none
  deployed := false

def Profile.Live (p : Profile) : Prop := p.matching ∉ deletionStates

/-- The moves of the lifecycle. -/
inductive ProfileMove (p : Profile) : Profile → Prop
  | enable (hlive : p.Live) (hdeployed : p.deployed = true) :
      ProfileMove p { p with matching := .active }
  | disable (hlive : p.Live) : ProfileMove p { p with matching := .inactive }
  /-- an edit asks for a build -/
  | request (hlive : p.Live) (hbuild : p.build ≠ .building) :
      ProfileMove p { p with build := .building }
  /-- an edit that failed takes its request back -/
  | withdraw (previous : BuildState) (hlive : p.Live) (hbuild : p.build = .building)
      (hprevious : previous ≠ .building) (hidle : previous = .idle → p.deployed = true) :
      ProfileMove p { p with build := previous }
  /-- a success, possibly over a failure that raced it -/
  | cutOver (hlive : p.Live) (hbuild : p.build ≠ .idle) :
      ProfileMove p { p with build := .idle, deployed := true }
  | fail (hlive : p.Live) (hbuild : p.build = .building) :
      ProfileMove p { p with build := .buildFailed }
  | delete (hlive : p.Live) (hbuild : p.build ≠ .building) :
      ProfileMove p { p with matching := .deleting, step := some 1 }
  | checkpoint (k : ℕ) (hdeleting : p.matching = .deleting) (hstep : p.step = some k) (hk : k < 4) :
      ProfileMove p { p with step := some (k+1) }
  | finish (hdeleting : p.matching = .deleting) (hstep : p.step = some 4) :
      ProfileMove p { p with matching := .deleted, step := some 5 }

/-- Runs of the automaton. -/
abbrev ProfilePath : Profile → Profile → Prop := Relation.ReflTransGen ProfileMove

/-- The states of the automaton, said without it. -/
structure Profile.Possible (p : Profile) : Prop where
  idle : p.build = .idle → p.deployed = true
  active : p.matching = .active → p.deployed = true
  dying : p.matching ∈ deletionStates → p.build ≠ .building
  step : StepMatches p.matching p.step

theorem Profile.possible_fresh : Profile.fresh.Possible :=
  ⟨by simp [Profile.fresh], by simp [Profile.fresh], by simp [Profile.fresh], rfl⟩

/-- The step lemma of the automaton. -/
theorem ProfileMove.possible {p q : Profile} (h : ProfileMove p q) (hp : p.Possible) : q.Possible := by
  cases h with
  | enable hlive hdeployed =>
    exact ⟨fun _ => hdeployed, fun _ => hdeployed, fun hm => by simp at hm,
      stepMatches_live hp.step hlive⟩
  | disable hlive =>
    exact ⟨hp.idle, fun hm => by simp at hm, fun hm => by simp at hm, stepMatches_live hp.step hlive⟩
  | request hlive hbuild =>
    exact ⟨fun hb => by simp at hb, hp.active, fun hm => absurd hm hlive, hp.step⟩
  | withdraw previous hlive hbuild hprevious hidle =>
    exact ⟨hidle, hp.active, fun _ => hprevious, hp.step⟩
  | cutOver hlive hbuild =>
    exact ⟨fun _ => rfl, fun _ => rfl, fun _ => by simp, hp.step⟩
  | fail hlive hbuild =>
    exact ⟨fun hb => by simp at hb, hp.active, fun _ => by simp, hp.step⟩
  | delete hlive hbuild =>
    exact ⟨hp.idle, fun hm => by simp at hm, fun _ => hbuild, 1, by omega, by omega, rfl⟩
  | checkpoint k hdeleting hstep hk =>
    refine ⟨hp.idle, hp.active, hp.dying, ?_⟩
    have hm := hp.step
    dsimp only
    rw [hdeleting] at hm ⊢
    exact ⟨k+1, by omega, by omega, rfl⟩
  | finish hdeleting hstep =>
    have hbuild : p.build ≠ .building := hp.dying (by simp [hdeleting])
    exact ⟨hp.idle, fun hm => by simp at hm, fun _ => hbuild, rfl⟩

theorem ProfilePath.possible {p q : Profile} (h : ProfilePath p q) (hp : p.Possible) : q.Possible := by
  induction h with
  | refl => exact hp
  | tail _ hmove ih => exact hmove.possible ih

section Refinement

variable {cfg : Config} {E : State → Action → Prop} {tr : Trace State Action} {s s' : State}
  {r r' : Record} {now : Timestamp} {op : Op}

/-- The row shows a state of the automaton, and so does the one that a claim would
restore. -/
structure Settled (s : State) : Prop where
  row : ∀ r, s.record = some r → r.automation.profile.Possible
  claim : ∀ p claim, (s.edits p).claim? = some claim → claim.previousBuildState = .idle →
    ∃ r, s.record = some r ∧ r.automation.activeDigest.isSome = true

/-- A digest is never lost. -/
theorem RowMove.digest (hreach : Reached cfg E tr s) (h : RowMove s now r op r')
    (hr : r.automation.activeDigest.isSome = true) : r'.automation.activeDigest.isSome = true := by
  rcases h.deploymentColumns with ⟨hsame, -⟩ | ⟨p, event, target, created, -, hp, -, rfl⟩
  · rw [hsame]
    exact hr
  · have hwf := hreach.wellFormed p
    rw [hp] at hwf
    have himage := event.image_some hwf.2.1
    change event.image.isSome = true
    rw [himage, Option.isSome_some]

/-- The step lemma of the refinement: one row move is at most one move of the
lifecycle. -/
theorem RowMove.profile (hreach : Reached cfg E tr s) (hs : Settled s) (hr : s.record = some r)
    (h : RowMove s now r op r') :
    r'.automation.profile = r.automation.profile ∨
      ProfileMove r.automation.profile r'.automation.profile := by
  have hfence := hreach.fenced
  cases h with
  | same => exact Or.inl rfl
  | enabled hlive hdigest =>
    right
    apply ProfileMove.enable (p := r.automation.profile) hlive
    cases hactive : r.automation.activeDigest with
    | none => simp [hactive, blank] at hdigest
    | some digest => simp [Automation.profile, hactive]
  | disabled hlive => exact Or.inr (.disable hlive)
  | deleteAdmitted hlive hbuild => exact Or.inr (.delete hlive hbuild)
  | claimed hlive hbuild _ => exact Or.inr (.request hlive hbuild)
  | @released p claim hp =>
    right
    have hclaim : (s.edits p).claim? = some claim := by
      rw [hp]
      rfl
    have hholds := hfence.holds_row hr hclaim
    rw [releaseBuildClaim_held hholds.held]
    apply ProfileMove.withdraw (p := r.automation.profile) _ hholds.live hholds.held.1 hholds.previous
    intro hidle
    obtain ⟨r₁, hr₁, hdigest⟩ := hs.claim p claim hclaim hidle
    obtain rfl := Option.eq_some_unique hr₁ hr
    exact hdigest
  | edited => exact Or.inl rfl
  | @cutOver p event target created hp hre =>
    right
    have hwf := hreach.wellFormed p
    rw [hp] at hwf
    have himage := event.image_some hwf.2.1
    obtain ⟨hlive, hbuild⟩ := recheck_none hre
    have hne : r.automation.profile.build ≠ .idle := by
      rcases hbuild with ⟨hbuilding, -⟩ | ⟨hfailed, -⟩
      · simp [Automation.profile, hbuilding]
      · simp [Automation.profile, hfailed]
    have hprofile : (KeepAutomation.cutOver r event created now).automation.profile =
        { r.automation.profile with build := .idle, deployed := true } := by
      have hdeployed : event.image.isSome = true := by rw [himage, Option.isSome_some]
      rw [← hdeployed]
      rfl
    rw [hprofile]
    exact .cutOver hlive hne
  | @buildFailed p event hp hadm =>
    obtain ⟨hlive, hbuild, -⟩ := admission_none hadm
    exact Or.inr (.fail hlive hbuild)
  | @checkpointed p a n completed outcome hp =>
    rcases checkpoint_cases completed now r with he | ⟨hdeleting, hstep, he⟩
    · left
      rw [he]
    · right
      have hm := (hfence.coherent r hr).step
      rw [hdeleting] at hm
      obtain ⟨k, hk₁, hk₄, hk⟩ := hm
      have hcompleted : completed = k+1 := by
        rw [hk] at hstep
        split at hstep
        · simp at hstep
        · have hsame := Option.some.inj hstep
          omega
      subst hcompleted
      rw [he]
      by_cases hlast : k = 4
      · subst hlast
        exact .finish hdeleting hk
      · have hne : k+1 ≠ stepDeleted := by
          unfold stepDeleted
          omega
        have hmove := ProfileMove.checkpoint (p := r.automation.profile) k hdeleting hk (by omega)
        simpa only [Automation.profile, hdeleting, if_neg hne] using hmove

/-- A claim is taken from a row that is not building, and remembers its state. -/
theorem EditMove.previous {sh sh' : Shared} {e e' : Edit} {o : EditOp} {claim : BuildClaim}
    (h : EditMove cfg now sh e o sh' e') (hclaim : e'.claim? = some claim) :
    e.claim? = some claim ∨
      ∃ r deadline, sh.record = some r ∧ claim.previousBuildState = r.automation.buildState ∧
        sh'.record = some (r.claimed deadline) := by
  cases h with
  | claimed r hr =>
    obtain rfl := Option.some.inj hclaim
    exact Or.inr ⟨r, _, hr, rfl, rfl⟩
  | committed => exact Or.inl hclaim
  | commitFailed => exact Or.inl hclaim
  | _ => simp [Edit.claim?] at hclaim

theorem Settled.step (hreach : Reached cfg E tr s) (hs : Settled s) (h : Move cfg s now op s') :
    Settled s' := by
  have carry (r : Record) (hr : s.record = some r) (hdigest : r.automation.activeDigest.isSome = true) :
      ∃ r', s'.record = some r' ∧ r'.automation.activeDigest.isSome = true := by
    obtain ⟨r', hr', hrow⟩ := h.row hr
    exact ⟨r', hr', hrow.digest hreach hdigest⟩
  constructor
  · intro r' hr'
    rcases h.row_after hr' with ⟨-, _, _, _, _, _, -, rfl⟩ | ⟨r, hr, hrow⟩
    · exact Profile.possible_fresh
    · have hpossible := hs.row r hr
      rcases hrow.profile hreach hs hr with hsame | hmove
      · rw [hsame]
        exact hpossible
      · exact hmove.possible hpossible
  · intro p claim hclaim hidle
    rcases h.editor p with ⟨-, hsame⟩ | ⟨o, -, hedit⟩
    · rw [hsame] at hclaim
      obtain ⟨r, hr, hdigest⟩ := hs.claim p claim hclaim hidle
      exact carry r hr hdigest
    · rcases hedit.previous hclaim with hbefore | ⟨r, deadline, hr, hprevious, -⟩
      · obtain ⟨r, hr, hdigest⟩ := hs.claim p claim hbefore hidle
        exact carry r hr hdigest
      · exact carry r hr ((hs.row r hr).idle (hprevious.symm.trans hidle))

theorem Reached.settled (h : Reached cfg E tr s) : Settled s := by
  apply h.invariant (I := Settled)
  · intro world
    refine ⟨?_, ?_⟩
    · intro r hr
      simp [initial] at hr
    · intro p claim hclaim
      simp [initial, Edit.claim?] at hclaim
  · intro tr s now op s' hreach hs _ _ _ hm
    exact hs.step hreach hm

/-- Along every run the row's profile walks along the automaton. -/
theorem Reached.profilePath (h : Reached cfg E tr s) (hr : s.record = some r) {tr' : Trace State Action}
    (hrun : SystemRun cfg E s tr' s') (hr' : s'.record = some r') :
    ProfilePath r.automation.profile r'.automation.profile := by
  obtain ⟨world, h₀⟩ := h
  have hpath : ∃ r', s'.record = some r' ∧
      ProfilePath r.automation.profile r'.automation.profile := by
    refine Run.history (P := fun _ s' => ∃ r', s'.record = some r' ∧
      ProfilePath r.automation.profile r'.automation.profile) hrun ⟨r, hr, .refl⟩ ?_
    rintro tr₁ s₁ a s₂ hrun₁ ⟨r₁, hr₁, hpath⟩ - hstep
    have hreach : Reached cfg E (tr₁ ++ tr) s₁ := ⟨world, h₀.append hrun₁⟩
    obtain ⟨r₂, hr₂, hrow⟩ := (step_move hstep).2.2.row hr₁
    refine ⟨r₂, hr₂, ?_⟩
    rcases hrow.profile hreach hreach.settled hr₁ with hsame | hmove
    · rw [hsame]
      exact hpath
    · exact hpath.tail hmove
  obtain ⟨r₁, hr₁, hpath⟩ := hpath
  obtain rfl := Option.eq_some_unique hr₁ hr'
  exact hpath

/-- Every row was created with the fresh profile. -/
theorem Reached.fromFresh (h : Reached cfg E tr s) (hr : s.record = some r) :
    ProfilePath .fresh r.automation.profile := by
  refine h.invariant (I := fun s => ∀ r, s.record = some r → ProfilePath .fresh r.automation.profile)
    (fun world r hr => by simp [initial] at hr) ?_ r hr
  intro tr s now op s' hreach hs _ _ _ hm r' hr'
  rcases hm.row_after hr' with ⟨-, _, _, _, _, _, -, rfl⟩ | ⟨r, hrec, hrow⟩
  · exact .refl
  · rcases hrow.profile hreach hreach.settled hrec with hsame | hmove
    · rw [hsame]
      exact hs r hrec
    · exact (hs r hrec).tail hmove

end Refinement

section Exact

def firstDeploy : List Op :=
  [.deliver 0 (.receive firstSuccess false), .deliver 0 (.cappAccepts sampleDeployment),
   .deliver 0 (.recheck none)]

def editedFailure : CiWebhookIn := failedEvent secondSha secondSuccess.commitSha_isGitObjectId

/-- Bring a created automation to a build state. -/
def toBuild : BuildState → Bool → List Op
  | .building, false => []
  | .buildFailed, false => [.deliver 0 (.receive firstFailure false), .deliver 0 (.recordFailure none)]
  | .idle, _ => firstDeploy
  | .building, true => firstDeploy ++ [.edit 0 (.claim "t1" samplePayload "author" 199 none)]
  | .buildFailed, true => firstDeploy ++
    [.edit 0 (.claim "t1" samplePayload "author" 199 none), .edit 0 (.commit secondSha),
     .edit 0 (.finish none), .deliver 1 (.receive editedFailure false),
     .deliver 1 (.recordFailure none)]

/-- The DELETE, then the passes of one cascade runner, each up to its checkpoint. -/
def passes : List (List Op) :=
  [[.beginDelete "t1" "deleter"],
   [.run 0 (.snapshot false), .run 0 (.call .ok), .run 0 (.call .ok), .run 0 (.save .ok)],
   [.run 0 (.snapshot false), .run 0 (.call .ok), .run 0 (.call .ok), .run 0 (.call .ok),
    .run 0 (.save .ok)],
   [.run 0 (.snapshot false), .run 0 (.call .ok), .run 0 (.save .ok)],
   [.run 0 (.snapshot false), .run 0 (.save .ok)]]

def toMatching : MatchingState → Option ℕ → List Op
  | .inactive, _ => []
  | .active, _ => [.enable "t1" "owner"]
  | _, step => (passes.take (step.getD 0)).flatten

/-- A run to a state of the automaton. -/
def runTo (p : Profile) : List Op :=
  .create "t1" samplePayload "author" firstSha 99 ::
    (toBuild p.build p.deployed ++ toMatching p.matching p.step)

def lifecycle : List Profile :=
  let builds := [(BuildState.idle, true), (.building, true), (.buildFailed, true), (.buildFailed, false)]
  let dead := builds.filter fun b => b.1 ≠ .building
  [⟨.inactive, .building, none, false⟩] ++
    builds.map (fun b => ⟨.inactive, b.1, none, b.2⟩) ++
    (builds.filter fun b => b.2).map (fun b => ⟨.active, b.1, none, b.2⟩) ++
    [1, 2, 3, 4].flatMap (fun k => dead.map fun b => ⟨.deleting, b.1, some k, b.2⟩) ++
    dead.map fun b => ⟨.deleted, b.1, some 5, b.2⟩

example : lifecycle.length = 23 ∧ lifecycle.Nodup := by decide +kernel

/-- Each of the runs ends where it should. -/
theorem runTo_profile : ∀ p ∈ lifecycle, (runSample (runTo p)).any (fun s =>
    decide ((s.record.any fun r => r.automation.profile = p) = true)) = true := by
  decide +kernel

theorem Profile.Possible.mem {p : Profile} (h : p.Possible) : p ∈ lifecycle := by
  obtain ⟨matching, build, step, deployed⟩ := p
  obtain ⟨hidle, hactive, hdying, hstep⟩ := h
  cases matching with
  | inactive =>
    obtain rfl : step = none := hstep
    cases build with
    | idle =>
      obtain rfl : deployed = true := hidle rfl
      decide
    | building => cases deployed <;> decide
    | buildFailed => cases deployed <;> decide
  | active =>
    obtain rfl : step = none := hstep
    obtain rfl : deployed = true := hactive rfl
    cases build <;> decide
  | deleting =>
    obtain ⟨k, hk₁, hk₄, rfl⟩ := hstep
    cases build with
    | idle =>
      obtain rfl : deployed = true := hidle rfl
      interval_cases k <;> decide
    | building => exact absurd rfl (hdying (by simp))
    | buildFailed => interval_cases k <;> cases deployed <;> decide
  | deleted =>
    obtain rfl : step = some 5 := hstep
    cases build with
    | idle =>
      obtain rfl : deployed = true := hidle rfl
      decide
    | building => exact absurd rfl (hdying (by simp))
    | buildFailed => cases deployed <;> decide

/-- The system refines the lifecycle automaton, along any run from any reachable
state, and the automaton is exact: what rows show in some reachable state, its
states, and the profiles with a digest behind `idle` and `active`, no build in a
deletion and the checkpoint of their matching state, are the same. -/
theorem lifecycle_exact :
    (∀ cfg E tr s tr' s' r r', Reached cfg E tr s → s.record = some r → SystemRun cfg E s tr' s' →
      s'.record = some r' → ProfilePath r.automation.profile r'.automation.profile) ∧
    ∀ p : Profile,
      ((∃ cfg tr s r, Reached cfg anything tr s ∧ s.record = some r ∧ r.automation.profile = p) ↔
        ProfilePath .fresh p) ∧
      (ProfilePath .fresh p ↔ p.Possible) := by
  refine ⟨fun _ _ _ _ _ _ _ _ h hr hrun hr' => h.profilePath hr hrun hr', ?_⟩
  intro p
  have hreached : p.Possible →
      ∃ cfg tr s r, Reached cfg anything tr s ∧ s.record = some r ∧ r.automation.profile = p := by
    intro hpossible
    obtain ⟨s, hrun, hend⟩ : ∃ s, SystemRun sampleConfig anything (initial sampleWorld)
        (execTrace (step sampleConfig) (initial sampleWorld) (timed (runTo p))) s ∧
          (s.record.any fun r => r.automation.profile = p) = true :=
      Run.exists_of_exec (fun _ _ => trivial) (timed (runTo p)) _ (runTo_profile p hpossible.mem)
    obtain ⟨r, hr, hprofile⟩ := (Option.any_eq_true _ _).mp hend
    exact ⟨sampleConfig, _, s, r, ⟨sampleWorld, hrun⟩, hr, of_decide_eq_true hprofile⟩
  have hpath : (∃ cfg tr s r, Reached cfg anything tr s ∧ s.record = some r ∧
      r.automation.profile = p) → ProfilePath .fresh p := by
    rintro ⟨cfg, tr, s, r, h, hr, rfl⟩
    exact h.fromFresh hr
  have hpossible : ProfilePath .fresh p → p.Possible := fun h => h.possible Profile.possible_fresh
  exact ⟨⟨hpath, fun h => hreached (hpossible h)⟩, hpossible, fun h => hpath (hreached h)⟩

/-- The rest of a deleted automation's life, from its creation on. -/
theorem lifecycle_exact_sample : ProfilePath .fresh ⟨.deleted, .buildFailed, some 5, false⟩ := by
  obtain ⟨s, tr, s', hrun, hrest, hprofiles⟩ := runs_of_runSample anything anything
    (deletionOps.take 1) (deletionOps.drop 1)
    (fun s _ s' => (s.record.any fun r => r.automation.profile = .fresh) = true ∧
      (s'.record.any fun r => r.automation.profile = ⟨.deleted, .buildFailed, some 5, false⟩) = true)
    (by decide +kernel) (by decide +kernel)
  obtain ⟨r, hr, hfresh⟩ := (Option.any_eq_true _ _).mp hprofiles.1
  obtain ⟨r', hr', hdeleted⟩ := (Option.any_eq_true _ _).mp hprofiles.2
  have hpath := lifecycle_exact.1 sampleConfig anything _ s tr s' r r' ⟨sampleWorld, hrun⟩ hr hrest hr'
  rwa [of_decide_eq_true hfresh, of_decide_eq_true hdeleted] at hpath

end Exact

end KeepAutomation
