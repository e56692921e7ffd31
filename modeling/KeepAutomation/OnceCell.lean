import KeepAutomation.TransitionSystem

/-! A value built on first use and kept for the process. Calls of any number of
threads interleave; with the lock the value is built once, without it every call
that looked too early builds its own. -/
namespace OnceCell

open TransitionSystem

variable {α : Type*}

/-- Where a call stands: `storing` has built its value and not yet kept it. -/
inductive Phase (α : Type*) where
  | idle
  | waiting
  | looking
  | building
  | storing (x : α)
  | returning
  | got (x : α)
  | failed

/-- Between taking the lock and giving it back. -/
def Phase.inside : Phase α → Bool
  | .looking | .building | .storing _ | .returning => true
  | _ => false

/-- `built` lists what the factory has made, each with the call it was made in. -/
structure State (α : Type*) where
  holder : Option ℕ
  cell : Option α
  built : List (ℕ × α)
  calls : ℕ → Phase α

inductive Event (α : Type*) where
  | enter | acquire | look
  | build (result : Option α)
  | store | finish

structure Label (α : Type*) where
  caller : ℕ
  event : Event α

def empty : State α where
  holder := none
  cell := none
  built := []
  calls := fun _ => .idle

def State.goto (s : State α) (p : ℕ) (phase : Phase α) : State α :=
  { s with calls := Function.update s.calls p phase }

/-- One step of `if self._x is None: self._x = make()` and `return self._x`, under
a lock or not. A factory that raises leaves the cell empty. -/
def step (locked : Bool) (s : State α) (l : Label α) : Option (State α) :=
  match s.calls l.caller, l.event with
  | .idle, .enter => some (s.goto l.caller .waiting)
  | .waiting, .acquire =>
    if locked then
      if s.holder = none then some { s.goto l.caller .looking with holder := some l.caller } else none
    else some (s.goto l.caller .looking)
  | .looking, .look => some (s.goto l.caller (if s.cell.isNone then .building else .returning))
  | .building, .build none => some { s.goto l.caller .failed with holder := none }
  | .building, .build (some x) =>
    some { s.goto l.caller (.storing x) with built := s.built ++ [(l.caller, x)] }
  | .storing x, .store => some { s.goto l.caller .returning with cell := some x }
  | .returning, .finish =>
    s.cell.map fun x => { s.goto l.caller (.got x) with holder := none }
  | _, _ => none

/-- The steps of a call that finds nothing and builds `x`. -/
def attempt (x : α) : List (Event α) := [.enter, .acquire, .look, .build (some x), .store, .finish]

/-- What a step can do. -/
inductive Move (locked : Bool) (s : State α) (p : ℕ) : Event α → State α → Prop
  | entered (hp : s.calls p = .idle) : Move locked s p .enter (s.goto p .waiting)
  | acquired (hp : s.calls p = .waiting) (hlocked : locked = true) (hfree : s.holder = none) :
      Move locked s p .acquire { s.goto p .looking with holder := some p }
  | passed (hp : s.calls p = .waiting) (hlocked : locked = false) :
      Move locked s p .acquire (s.goto p .looking)
  | missed (hp : s.calls p = .looking) (hcell : s.cell = none) :
      Move locked s p .look (s.goto p .building)
  | found (hp : s.calls p = .looking) (hcell : s.cell ≠ none) :
      Move locked s p .look (s.goto p .returning)
  | raised (hp : s.calls p = .building) :
      Move locked s p (.build none) { s.goto p .failed with holder := none }
  | made (hp : s.calls p = .building) (x : α) :
      Move locked s p (.build (some x)) { s.goto p (.storing x) with built := s.built ++ [(p, x)] }
  | stored (x : α) (hp : s.calls p = .storing x) :
      Move locked s p .store { s.goto p .returning with cell := some x }
  | finished (hp : s.calls p = .returning) (x : α) (hcell : s.cell = some x) :
      Move locked s p .finish { s.goto p (.got x) with holder := none }

variable {locked : Bool} {s s' : State α} {l : Label α} {p q : ℕ} {event : Event α}

theorem step_move (h : step locked s l = some s') : Move locked s l.caller l.event s' := by
  obtain ⟨p, event⟩ := l
  unfold step at h
  dsimp only at h ⊢
  split at h
  · next hp =>
    obtain rfl := Option.some.inj h
    exact .entered hp
  · next hp =>
    cases locked with
    | true =>
      rw [if_pos rfl] at h
      split at h
      · next hfree =>
        obtain rfl := Option.some.inj h
        exact .acquired hp rfl hfree
      · simp at h
    | false =>
      rw [if_neg Bool.false_ne_true] at h
      obtain rfl := Option.some.inj h
      exact .passed hp rfl
  · next hp =>
    obtain rfl := Option.some.inj h
    cases hcell : s.cell with
    | none => exact .missed hp hcell
    | some x => exact .found hp (by simp [hcell])
  · next hp =>
    obtain rfl := Option.some.inj h
    exact .raised hp
  · next x hp =>
    obtain rfl := Option.some.inj h
    exact .made hp x
  · next x hp =>
    obtain rfl := Option.some.inj h
    exact .stored x hp
  · next hp =>
    obtain ⟨x, hcell, rfl⟩ := Option.map_eq_some_iff.mp h
    exact .finished hp x hcell
  · simp at h

theorem goto_self (s : State α) (p : ℕ) (phase : Phase α) : (s.goto p phase).calls p = phase :=
  Function.update_self ..

theorem goto_other (s : State α) {p q : ℕ} (phase : Phase α) (h : q ≠ p) :
    (s.goto p phase).calls q = s.calls q := Function.update_of_ne h ..

/-- A step moves the call that takes it. -/
theorem Move.other (h : Move locked s p event s') (hq : q ≠ p) : s'.calls q = s.calls q := by
  cases h <;> exact goto_other s _ hq

/-- What is built stays in the list. -/
theorem Move.built (h : Move locked s p event s') : s.built <+: s'.built := by
  cases h with
  | made hp x => exact List.prefix_append _ _
  | _ => exact List.prefix_rfl

section Locked

/-- What has become of the value: not made, made and on its way, or kept. -/
inductive Progress (s : State α) : Prop
  | unmade (hcell : s.cell = none) (hbuilt : s.built = [])
  | underway (p : ℕ) (x : α) (hp : s.calls p = .storing x) (hcell : s.cell = none)
      (hbuilt : s.built = [(p, x)])
  | kept (p : ℕ) (x : α) (hcell : s.cell = some x) (hbuilt : s.built = [(p, x)])

structure Guarded (s : State α) : Prop where
  holder : ∀ p, (s.calls p).inside = true → s.holder = some p
  early : ∀ p, s.calls p = .building → s.cell = none
  storing : ∀ p x, s.calls p = .storing x → s.cell = none ∧ s.built = [(p, x)]
  progress : Progress s
  got : ∀ p x, s.calls p = .got x → s.cell = some x

theorem Guarded.alone (h : Guarded s) (hp : (s.calls p).inside = true) (hq : (s.calls q).inside = true) :
    q = p := Option.some.inj ((h.holder q hq).symm.trans (h.holder p hp))

/-- The call that may build finds nothing made. -/
theorem Guarded.unmade (h : Guarded s) (hp : (s.calls p).inside = true)
    (hnot : ∀ x, s.calls p ≠ .storing x) (hcell : s.cell = none) : s.built = [] := by
  cases h.progress with
  | unmade _ hbuilt => exact hbuilt
  | underway q x hq =>
    have hsame : q = p := h.alone hp (by rw [hq]; rfl)
    rw [hsame] at hq
    exact absurd hq (hnot x)
  | kept q x hkept =>
    rw [hcell] at hkept
    exact absurd hkept (by simp)

/-- A value underway stays so while another call moves. -/
theorem Progress.carry (h : Progress s) (hcell : s'.cell = s.cell) (hbuilt : s'.built = s.built)
    (hstoring : ∀ q x, s.calls q = .storing x → s'.calls q = .storing x) : Progress s' := by
  cases h with
  | unmade h₁ h₂ => exact .unmade (hcell.trans h₁) (hbuilt.trans h₂)
  | underway q x hq h₁ h₂ => exact .underway q x (hstoring q x hq) (hcell.trans h₁) (hbuilt.trans h₂)
  | kept q x h₁ h₂ => exact .kept q x (hcell.trans h₁) (hbuilt.trans h₂)

/-- A step that keeps the cell and the builds, and moves its call to a phase that
holds nothing new. -/
theorem Guarded.quiet (h : Guarded s) (hm : Move locked s p event s') (hcell : s'.cell = s.cell)
    (hbuilt : s'.built = s.built) (hnot : ∀ x, s.calls p ≠ .storing x)
    (hholder : ∀ q, (s'.calls q).inside = true → s'.holder = some q)
    (hearly : s'.calls p = .building → s.cell = none) (hnew : ∀ x, s'.calls p ≠ .storing x)
    (hgot : ∀ x, s'.calls p = .got x → s.cell = some x) : Guarded s' := by
  refine ⟨hholder, ?_, ?_, ?_, ?_⟩
  · intro q hq
    rw [hcell]
    by_cases hqp : q = p
    · rw [hqp] at hq
      exact hearly hq
    · rw [hm.other hqp] at hq
      exact h.early q hq
  · intro q x hq
    rw [hcell, hbuilt]
    by_cases hqp : q = p
    · rw [hqp] at hq
      exact absurd hq (hnew x)
    · rw [hm.other hqp] at hq
      exact h.storing q x hq
  · apply h.progress.carry hcell hbuilt
    intro q x hq
    have hqp : q ≠ p := by
      intro hsame
      rw [hsame] at hq
      exact hnot x hq
    rw [hm.other hqp]
    exact hq
  · intro q x hq
    rw [hcell]
    by_cases hqp : q = p
    · rw [hqp] at hq
      exact hgot x hq
    · rw [hm.other hqp] at hq
      exact h.got q x hq

/-- The step lemma under the lock. -/
theorem Guarded.step (h : Guarded s) (hm : Move true s p event s') : Guarded s' := by
  -- the holder is as it was for every other call
  have hothers (hsame : s'.holder = s.holder) (hown : (s'.calls p).inside = true → s.holder = some p)
      (q : ℕ) (hq : (s'.calls q).inside = true) : s'.holder = some q := by
    rw [hsame]
    by_cases hqp : q = p
    · rw [hqp] at hq ⊢
      exact hown hq
    · rw [hm.other hqp] at hq
      exact h.holder q hq
  -- whoever gives the lock back was the only one inside
  have hreleased (hin : (s.calls p).inside = true) (hout : (s'.calls p).inside = false) (q : ℕ)
      (hq : (s'.calls q).inside = true) : s'.holder = some q := by
    have hqp : q ≠ p := by
      intro hsame
      rw [hsame, hout] at hq
      exact Bool.false_ne_true hq
    rw [hm.other hqp] at hq
    exact absurd (h.alone hin hq) hqp
  have hm' := hm
  cases hm with
  | entered hp =>
    have hphase := goto_self s p .waiting
    apply h.quiet hm' rfl rfl
    · simp [hp]
    · exact hothers rfl (by simp [hphase, Phase.inside])
    · simp [hphase]
    · simp [hphase]
    · simp [hphase]
  | acquired hp _ hfree =>
    have hphase := goto_self s p .looking
    apply h.quiet hm' rfl rfl
    · simp [hp]
    · intro q hq
      by_cases hqp : q = p
      · rw [hqp]
      · rw [hm'.other hqp] at hq
        have hheld := h.holder q hq
        rw [hfree] at hheld
        exact absurd hheld (by simp)
    · simp [hphase]
    · simp [hphase]
    · simp [hphase]
  | passed _ hlocked => exact absurd hlocked (by simp)
  | missed hp hcell =>
    have hphase := goto_self s p .building
    apply h.quiet hm' rfl rfl
    · simp [hp]
    · exact hothers rfl fun _ => h.holder p (by rw [hp]; rfl)
    · exact fun _ => hcell
    · simp [hphase]
    · simp [hphase]
  | found hp =>
    have hphase := goto_self s p .returning
    apply h.quiet hm' rfl rfl
    · simp [hp]
    · exact hothers rfl fun _ => h.holder p (by rw [hp]; rfl)
    · simp [hphase]
    · simp [hphase]
    · simp [hphase]
  | raised hp =>
    have hphase := goto_self s p .failed
    apply h.quiet hm' rfl rfl
    · simp [hp]
    · apply hreleased
      · rw [hp]
        rfl
      · exact congrArg Phase.inside hphase
    · simp [hphase]
    · simp [hphase]
    · simp [hphase]
  | made hp x =>
    have hcell := h.early p hp
    have hnone := h.unmade (p := p) (by rw [hp]; rfl) (by simp [hp]) hcell
    have hbuilt : s.built ++ [(p, x)] = [(p, x)] := by
      rw [hnone, List.nil_append]
    have hphase := goto_self s p (.storing x)
    refine ⟨hothers rfl fun _ => h.holder p (by rw [hp]; rfl), fun _ _ => hcell, ?_,
      .underway p x hphase hcell hbuilt, ?_⟩
    · intro q y hq
      by_cases hqp : q = p
      · rw [hqp] at hq ⊢
        rw [← Phase.storing.inj (hphase.symm.trans hq)]
        exact ⟨hcell, hbuilt⟩
      · rw [hm'.other hqp] at hq
        have hsame : q = p := h.alone (by rw [hp]; rfl) (by rw [hq]; rfl)
        exact absurd hsame hqp
    · intro q y hq
      by_cases hqp : q = p
      · rw [hqp] at hq
        exact absurd (hphase.symm.trans hq) (by simp)
      · rw [hm'.other hqp] at hq
        exact h.got q y hq
  | stored x hp =>
    obtain ⟨hcell, hbuilt⟩ := h.storing p x hp
    have hphase := goto_self s p .returning
    -- no other call is inside, and none has got a value
    have hout (q : ℕ) {phase : Phase α} (hq : (s.goto p .returning).calls q = phase)
        (hin : phase.inside = true) (hnot : phase ≠ .returning) : False := by
      by_cases hqp : q = p
      · rw [hqp, hphase] at hq
        exact hnot hq.symm
      · rw [goto_other s _ hqp] at hq
        exact hqp (h.alone (by rw [hp]; rfl) (by rw [hq]; exact hin))
    refine ⟨hothers rfl fun _ => h.holder p (by rw [hp]; rfl), ?_, ?_, .kept p x rfl hbuilt, ?_⟩
    · intro q hq
      exact (hout q hq rfl (by simp)).elim
    · intro q y hq
      exact (hout q hq rfl (by simp)).elim
    · intro q y hq
      by_cases hqp : q = p
      · rw [hqp] at hq
        exact absurd (hphase.symm.trans hq) (by simp)
      · rw [hm'.other hqp] at hq
        have hgot := h.got q y hq
        rw [hcell] at hgot
        exact absurd hgot (by simp)
  | finished hp x hcell =>
    have hphase := goto_self s p (.got x)
    apply h.quiet hm' rfl rfl
    · simp [hp]
    · apply hreleased
      · rw [hp]
        rfl
      · exact congrArg Phase.inside hphase
    · simp [hphase]
    · simp [hphase]
    · intro y hgot
      rw [hcell, Phase.got.inj (hphase.symm.trans hgot)]

theorem guarded_empty : Guarded (empty : State α) := by
  refine ⟨?_, ?_, ?_, .unmade rfl rfl, ?_⟩
  · intro p hp
    exact absurd hp Bool.false_ne_true
  all_goals simp [empty]

/-- Under the lock the value is built once, and every call that returns has it. -/
theorem Guarded.once (h : Guarded s) :
    s.built.length ≤ 1 ∧ ∀ p x, s.calls p = .got x → ∃ q, s.built = [(q, x)] := by
  constructor
  · cases h.progress with
    | unmade _ hbuilt => rw [hbuilt]; exact Nat.zero_le 1
    | underway _ _ _ _ hbuilt => rw [hbuilt]; exact le_rfl
    | kept _ _ _ hbuilt => rw [hbuilt]; exact le_rfl
  · intro p x hp
    have hcell := h.got p x hp
    cases h.progress with
    | unmade hnone => rw [hnone] at hcell; exact absurd hcell (by simp)
    | underway _ _ _ hnone => rw [hnone] at hcell; exact absurd hcell (by simp)
    | kept q y hkept hbuilt =>
      rw [hkept] at hcell
      obtain rfl := Option.some.inj hcell
      exact ⟨q, hbuilt⟩

/-- So the one that was built stays the one. -/
theorem Guarded.built_stays (h' : Guarded s') (hm : Move locked s p event s') {b : ℕ × α}
    (hb : s.built = [b]) : s'.built = [b] := by
  obtain ⟨rest, hrest⟩ := hm.built
  have hlength := h'.once.1
  rw [← hrest, hb] at hlength ⊢
  have hnil : rest = [] := by
    apply List.eq_nil_of_length_eq_zero
    rw [List.length_append, List.length_singleton] at hlength
    omega
  rw [hnil, List.append_nil]

/-- A factory that raises leaves the lock free, and nothing made. -/
theorem Guarded.raised (h : Guarded s) (hm : Move locked s p (.build none) s') :
    s'.holder = none ∧ s'.cell = none ∧ s'.built = [] := by
  cases hm with
  | raised hp =>
    have hcell := h.early p hp
    have hbuilt : s.built = [] := h.unmade (p := p) (by rw [hp]; rfl) (by simp [hp]) hcell
    exact ⟨rfl, hcell, hbuilt⟩

/-- Then the next call builds the value and gets it. -/
theorem exec_attempt (hfree : s.holder = none) (hcell : s.cell = none) (hp : s.calls p = .idle) (x : α) :
    ∃ s', exec (step true) s ((attempt x).map (Label.mk p)) = some s' ∧ s'.calls p = .got x ∧
      s'.built = s.built ++ [(p, x)] := by
  refine ⟨{ s.goto p (.got x) with cell := some x, built := s.built ++ [(p, x)] }, ?_, goto_self s p _, rfl⟩
  simp [attempt, exec, step, State.goto, hp, hfree, hcell]

end Locked

section Racing

/-- A call that has a value, its own or the kept one. -/
def Phase.settled : Phase α → Bool
  | .storing _ | .returning | .got _ => true
  | _ => false

/-- With or without the lock: a call builds at most once, and not after it has
seen a value; what calls get was built. -/
structure Raced (tr : Trace (State α) (Label α)) (s : State α) : Prop where
  nodup : (s.built.map Prod.fst).Nodup
  builders : ∀ b ∈ s.built, (s.calls b.1).settled = true
  cell : ∀ x, s.cell = some x → ∃ q, (q, x) ∈ s.built
  values : ∀ p x, s.calls p = .storing x ∨ s.calls p = .got x → ∃ q, (q, x) ∈ s.built
  late : ∀ t ∈ tr, t.act.event = .look → t.pre.cell ≠ none → t.act.caller ∉ s.built.map Prod.fst ∧
    (s.calls t.act.caller = .returning ∨ ∃ x, s.calls t.act.caller = .got x)

variable {tr : Trace (State α) (Label α)}

/-- A call that is not settled has built nothing. -/
theorem Raced.not_built (h : Raced tr s) (hp : (s.calls p).settled = false) : p ∉ s.built.map Prod.fst := by
  intro hmem
  obtain ⟨b, hb, rfl⟩ := List.mem_map.mp hmem
  rw [h.builders b hb] at hp
  exact Bool.false_ne_true hp.symm

/-- A step that builds nothing, takes no value from its call and gives it only
one that was built. -/
theorem Raced.quiet (h : Raced tr s) (hm : Move locked s p event s')
    (hbuilt : s'.built = s.built) (hcell : ∀ x, s'.cell = some x → ∃ q, (q, x) ∈ s.built)
    (hsettled : (s.calls p).settled = true → (s'.calls p).settled = true)
    (hvalues : ∀ x, s'.calls p = .storing x ∨ s'.calls p = .got x → ∃ q, (q, x) ∈ s.built)
    (hlate : s.calls p = .returning ∨ (∃ x, s.calls p = .got x) →
      s'.calls p = .returning ∨ ∃ x, s'.calls p = .got x)
    (hnew : event = .look → s.cell ≠ none →
      (s.calls p).settled = false ∧ s'.calls p = .returning) :
    Raced (⟨s, ⟨p, event⟩, s'⟩ :: tr) s' := by
  refine ⟨by rw [hbuilt]; exact h.nodup, ?_, by rw [hbuilt]; exact hcell, ?_, ?_⟩
  · intro b hb
    rw [hbuilt] at hb
    have hold := h.builders b hb
    by_cases hown : b.1 = p
    · rw [hown] at hold ⊢
      exact hsettled hold
    · rw [hm.other hown]
      exact hold
  · intro q x hq
    rw [hbuilt]
    by_cases hown : q = p
    · rw [hown] at hq
      exact hvalues x hq
    · rw [hm.other hown] at hq
      exact h.values q x hq
  · intro t ht hlook hsome
    rw [hbuilt]
    rcases List.mem_cons.mp ht with rfl | ht
    · obtain ⟨hunsettled, hreturning⟩ := hnew hlook hsome
      exact ⟨h.not_built hunsettled, Or.inl hreturning⟩
    · obtain ⟨hnot, hphase⟩ := h.late t ht hlook hsome
      refine ⟨hnot, ?_⟩
      by_cases hown : t.act.caller = p
      · rw [hown] at hphase ⊢
        exact hlate hphase
      · rw [hm.other hown]
        exact hphase

/-- The step lemma with or without the lock. -/
theorem Raced.step (h : Raced tr s) (hm : Move locked s l.caller l.event s') :
    Raced (⟨s, l, s'⟩ :: tr) s' := by
  have hm' := hm
  obtain ⟨p, event⟩ := l
  dsimp only at hm hm'
  cases hm with
  | entered hp =>
    have hphase := goto_self s p .waiting
    apply h.quiet hm' rfl h.cell <;> simp [hp, hphase, Phase.settled]
  | acquired hp _ _ =>
    have hphase := goto_self s p .looking
    apply h.quiet hm' rfl h.cell <;> simp [hp, hphase, Phase.settled]
  | passed hp _ =>
    have hphase := goto_self s p .looking
    apply h.quiet hm' rfl h.cell <;> simp [hp, hphase, Phase.settled]
  | missed hp hcell =>
    have hphase := goto_self s p .building
    apply h.quiet hm' rfl h.cell <;> simp [hp, hcell, hphase, Phase.settled]
  | found hp _ =>
    have hphase := goto_self s p .returning
    apply h.quiet hm' rfl h.cell <;> simp [hp, hphase, Phase.settled]
  | raised hp =>
    have hphase := goto_self s p .failed
    apply h.quiet hm' rfl h.cell <;> simp [hp, hphase, Phase.settled]
  | stored x hp =>
    have hphase := goto_self s p .returning
    have hmade := h.values p x (Or.inl hp)
    apply h.quiet hm' rfl
    · intro y hy
      rw [← Option.some.inj hy]
      exact hmade
    all_goals simp [hp, hphase, Phase.settled]
  | finished hp x hcell =>
    have hphase := goto_self s p (.got x)
    have hmade := h.cell x hcell
    apply h.quiet hm' rfl h.cell
    · simp [hphase, Phase.settled]
    · intro y hy
      have hgot := hy.resolve_left (by simp [hphase])
      rw [← Phase.got.inj (hphase.symm.trans hgot)]
      exact hmade
    · exact fun _ => Or.inr ⟨x, hphase⟩
    · simp
  | made hp x =>
    have hphase := goto_self s p (.storing x)
    have hfresh : p ∉ s.built.map Prod.fst := h.not_built (by rw [hp]; rfl)
    have hgrows {y : α} (hy : ∃ q, (q, y) ∈ s.built) : ∃ q, (q, y) ∈ s.built ++ [(p, x)] := by
      obtain ⟨q, hq⟩ := hy
      exact ⟨q, List.mem_append_left _ hq⟩
    refine ⟨?_, ?_, fun y hy => hgrows (h.cell y hy), ?_, ?_⟩
    · change ((s.built ++ [(p, x)]).map Prod.fst).Nodup
      rw [List.map_append, List.nodup_append]
      refine ⟨h.nodup, List.nodup_singleton p, ?_⟩
      intro q hq q' hq' hsame
      have hqp : q = p := hsame.trans (List.mem_singleton.mp hq')
      exact hfresh (hqp ▸ hq)
    · intro b hb
      rcases List.mem_append.mp hb with hb | hb
      · have hne : b.1 ≠ p := by
          intro hsame
          exact hfresh (hsame ▸ List.mem_map_of_mem hb)
        rw [hm'.other hne]
        exact h.builders b hb
      · rw [List.mem_singleton.mp hb]
        exact congrArg Phase.settled hphase
    · intro q y hq
      by_cases hqp : q = p
      · rw [hqp] at hq
        have hstoring := hq.resolve_right fun hgot => by
          exact absurd (hphase.symm.trans hgot) (by simp)
        rw [← Phase.storing.inj (hphase.symm.trans hstoring)]
        exact ⟨p, List.mem_append_right _ List.mem_cons_self⟩
      · rw [hm'.other hqp] at hq
        exact hgrows (h.values q y hq)
    · intro t ht hlook hsome
      rcases List.mem_cons.mp ht with rfl | ht
      · simp at hlook
      · obtain ⟨hnot, hreturned⟩ := h.late t ht hlook hsome
        have hne : t.act.caller ≠ p := by
          intro hsame
          rw [hsame, hp] at hreturned
          simp at hreturned
        rw [hm'.other hne]
        refine ⟨?_, hreturned⟩
        change t.act.caller ∉ (s.built ++ [(p, x)]).map Prod.fst
        rw [List.map_append, List.map_singleton, List.mem_append, List.mem_singleton, not_or]
        exact ⟨hnot, hne⟩

theorem raced_empty : Raced [] (empty : State α) := by
  refine ⟨List.nodup_nil, ?_, ?_, ?_, ?_⟩
  all_goals simp [empty]

end Racing

section Runs

variable {E : State α → Label α → Prop} {tr : Trace (State α) (Label α)}

theorem raced_run (h : Run (step locked) E empty tr s) : Raced tr s := by
  apply h.history raced_empty
  intro tr s l s' _ hs _ hstep
  exact hs.step (step_move hstep)

end Runs

end OnceCell
