import KeepAutomation.BuildHistory
import KeepAutomation.Sample

/-! At most one failure and one success per requested commit, and a delivery
answers `applied` exactly when it wrote one of them. -/
namespace KeepAutomation

open TransitionSystem

/-- A transition taken by delivery `p`. -/
def OwnStep (p : ℕ) (t : Transition State Action) : Prop := ∃ o, t.act.op = .deliver p o

/-- The revisions gain exactly one outcome of the event's commit; a success also
stamps the revisions that requested it. -/
def GainsOutcome (event : CiWebhookIn) (vs ws : List AutomationRevision) : Prop :=
  ∃ w, (w.action = .buildFailed ∨ w.action = .buildSucceeded) ∧
    w.gitSha = some event.commitSha ∧
      (ws = vs ++ [w] ∨ ws = vs.map (AutomationRevision.stamp event) ++ [w])

/-- The transition appended one outcome of the event. -/
def AppendsOutcome (event : CiWebhookIn) (t : Transition State Action) : Prop :=
  ∃ r r', t.pre.record = some r ∧ t.post.record = some r' ∧
    GainsOutcome event r.revisions r'.revisions

def Untouched (t : Transition State Action) : Prop := t.post.record = t.pre.record

theorem AppendsOutcome.not_untouched {event : CiWebhookIn} {t : Transition State Action}
    (h : AppendsOutcome event t) : ¬Untouched t := by
  obtain ⟨r, r', hr, hr', w, -, -, hw⟩ := h
  intro hsame
  have he : r' = r := by
    rw [Untouched, hr, hr'] at hsame
    exact Option.some.inj hsame
  have hlen : r'.revisions.length = r.revisions.length+1 := by
    rcases hw with hw | hw <;> rw [hw]
    · simp
    · simp
  rw [he] at hlen
  omega

/-- What one move of a delivery does to the row: it answers `applied` together
with its one outcome, or it writes nothing. -/
theorem DeliveryMove.account {cfg : Config} {now : Timestamp} {sh sh' : Shared} {d d' : Delivery}
    {op : DeliveryOp} (h : DeliveryMove cfg now sh d op sh' d') :
    (sh'.record = sh.record ∧ ∀ event, d' ≠ .answered event .applied) ∨
      ∃ event r r', d' = .answered event .applied ∧ sh.record = some r ∧ sh'.record = some r' ∧
        GainsOutcome event r.revisions r'.revisions := by
  cases h with
  | @failureRecorded event r hr =>
    exact Or.inr ⟨event, r, _, rfl, hr, rfl, _, Or.inl rfl, rfl, Or.inl rfl⟩
  | @cutOver event _ _ r hr =>
    exact Or.inr ⟨event, r, _, rfl, hr, rfl, _, Or.inr rfl, rfl, Or.inr rfl⟩
  | _ => exact Or.inl ⟨rfl, by simp⟩

/-- The account of delivery `p` over a whole run. -/
structure Account (p : ℕ) (tr : Trace State Action) (s : State) : Prop where
  applied : ∀ event, s.deliveries p = .answered event .applied →
    ∃ later t earlier, tr = later ++ t :: earlier ∧ OwnStep p t ∧ AppendsOutcome event t ∧
      ∀ u ∈ later ++ earlier, OwnStep p u → Untouched u
  untouched : (∀ event, s.deliveries p ≠ .answered event .applied) →
    ∀ t ∈ tr, OwnStep p t → Untouched t

theorem Account.move {cfg : Config} {p : ℕ} {tr : Trace State Action} {s s' : State} {a : Action}
    (h : Account p tr s) (hm : Move cfg s a.now a.op s') : Account p (⟨s, a, s'⟩ :: tr) s' := by
  rcases hm.delivery p with ⟨hother, hsame⟩ | ⟨o, hop, hd⟩
  · have hnot : ¬OwnStep p ⟨s, a, s'⟩ := fun ⟨o, ho⟩ => hother o ho
    constructor
    · intro event hp
      obtain ⟨later, t, earlier, htr, hown, happ, hrest⟩ := h.applied event (hsame ▸ hp)
      refine ⟨⟨s, a, s'⟩ :: later, t, earlier, by rw [htr, List.cons_append], hown, happ, ?_⟩
      intro u hu huown
      rcases List.mem_cons.mp hu with rfl | hu
      · exact absurd huown hnot
      · exact hrest u hu huown
    · intro hp t ht hown
      rcases List.mem_cons.mp ht with rfl | ht
      · exact absurd hown hnot
      · exact h.untouched (fun event he => hp event (hsame.trans he)) t ht hown
  · -- it was still in flight or idle, so nothing of its own had touched the row
    have hbefore := h.untouched fun event he => hd.not_answered event .applied he
    constructor
    · intro event hp
      rcases hd.account with ⟨-, hnot⟩ | ⟨event', r, r', hd', hr, hr', hgain⟩
      · exact absurd hp (hnot event)
      · rw [hp] at hd'
        obtain ⟨rfl, -⟩ := Delivery.answered.inj hd'
        exact ⟨[], _, tr, rfl, ⟨o, hop⟩, ⟨r, r', hr, hr', hgain⟩, hbefore⟩
    · intro hp t ht hown
      rcases List.mem_cons.mp ht with rfl | ht
      · rcases hd.account with ⟨hsame, -⟩ | ⟨event, _, _, hd', _⟩
        · exact hsame
        · exact absurd hd' (hp event)
      · exact hbefore t ht hown

theorem Reached.account {cfg : Config} {E : State → Action → Prop} {tr : Trace State Action}
    {s : State} (h : Reached cfg E tr s) (p : ℕ) : Account p tr s := by
  obtain ⟨world, hrun⟩ := h
  refine hrun.history (P := Account p) ⟨?_, ?_⟩ ?_
  · intro event he
    simp [initial] at he
  · intro _ t ht
    simp at ht
  · intro tr s a s' _ hs _ hstep
    exact hs.move (step_move hstep).2.2

/-- At most one failure and one success per requested commit, and a delivery
answers `applied` exactly when it wrote one of them. -/
theorem outcomes_at_most_once (cfg : Config) (tr : Trace State Action) (s : State)
    (h : Reached cfg freshShas tr s) :
    (∀ r, s.record = some r → ∃ history : List Block, history ≠ [] ∧
      (history.map Block.sha).Nodup ∧ buildLog r.revisions = historyLog history) ∧
    ∀ p,
      (∀ event, s.deliveries p = .answered event .applied →
        ∃ later t earlier, tr = later ++ t :: earlier ∧ OwnStep p t ∧ AppendsOutcome event t ∧
          ∀ u ∈ later ++ earlier, OwnStep p u → Untouched u) ∧
      (∀ t ∈ tr, OwnStep p t → ∀ event, AppendsOutcome event t →
        ∃ event, s.deliveries p = .answered event .applied) ∧
      ((∀ event, s.deliveries p ≠ .answered event .applied) →
        ∀ t ∈ tr, OwnStep p t → Untouched t) := by
  constructor
  · intro r hr
    obtain ⟨b, older, hfits⟩ := h.history hr
    exact ⟨b :: older, by simp, hfits.distinct, hfits.agrees.log⟩
  · intro p
    have haccount := h.account p
    refine ⟨haccount.applied, ?_, haccount.untouched⟩
    intro t ht hown event happ
    by_contra hnot
    have hsame := haccount.untouched (fun e he => hnot ⟨e, he⟩) t ht hown
    exact happ.not_untouched hsame

theorem outcomes_at_most_once_sample :
    ∃ s, Reached sampleConfig freshShas (sampleTrace buildOps) s ∧
      ∃ t ∈ sampleTrace buildOps, AppendsOutcome firstSuccess t := by
  obtain ⟨s, hs, hp⟩ := run_of_runSample (E := freshShas) buildOps
    (fun s => (s.deliveries 0).answer? = some (firstSuccess, .applied))
    (by decide +kernel) (by decide +kernel)
  have happlied : s.deliveries 0 = .answered firstSuccess .applied := by
    cases hd : s.deliveries 0 with
    | answered event out =>
      simp only [hd, Delivery.answer?, Option.some.injEq, Prod.mk.injEq] at hp
      rw [hp.1, hp.2]
    | _ => simp [hd, Delivery.answer?] at hp
  obtain ⟨later, t, earlier, htr, -, happ, -⟩ :=
    ((outcomes_at_most_once sampleConfig _ s ⟨sampleWorld, hs⟩).2 0).1 firstSuccess happlied
  exact ⟨s, ⟨sampleWorld, hs⟩, t, htr ▸ List.mem_append_right _ (List.mem_cons_self ..), happ⟩

end KeepAutomation
