import KeepAutomation.Runners
import KeepAutomation.UserTier

/-! Tenant noninterference. A call of a tenant runs the same over the whole table
and over the tenant's own rows, and leaves the rows of the others alone; two
tables that agree on the tenant's rows are then told apart by no sequence of its
calls. -/
namespace KeepAutomation

open KeyedTable

def owns (tenantId : String) (r : Record) : Bool := r.automation.tenantId = tenantId

/-- The database as if the tenant were alone in it. -/
def Database.ofTenant (d : Database) (tenantId : String) : Database where
  store := d.store.restrict (owns tenantId)
  world := d.world

/-- The rows and revisions of all other tenants. -/
def Database.others (d : Database) (tenantId : String) : Store :=
  d.store.restrict fun r => !owns tenantId r

/-- A call about one row that does not see or touch a row of another tenant. -/
structure Scoped {α : Type} (tenantId : String) (call : Shared → α × Shared) : Prop where
  foreign : ∀ r w, r.automation.tenantId ≠ tenantId →
    call ⟨some r, w⟩ = ((call ⟨none, w⟩).1, ⟨some r, (call ⟨none, w⟩).2.world⟩)
  absent : ∀ w, (call ⟨none, w⟩).2.record = none
  own : ∀ r w, r.automation.tenantId = tenantId → ∃ r', (call ⟨some r, w⟩).2.record = some r' ∧
    r'.automation.id = r.automation.id ∧ r'.automation.tenantId = tenantId

section Lens

variable {α : Type} {tenantId : String} {call : Shared → α × Shared}

/-- A scoped call commutes with the view of its tenant and is not seen by others. -/
theorem Scoped.onRow (h : Scoped tenantId call) (d : Database) (id : UUID) :
    (d.ofTenant tenantId).onRow id call =
        ((d.onRow id call).1, (d.onRow id call).2.ofTenant tenantId) ∧
      (d.onRow id call).2.others tenantId = d.others tenantId := by
  have hview : (d.ofTenant tenantId).store.lookup id = (d.store.lookup id).filter (owns tenantId) :=
    Table.lookup_restrict _ _ _
  unfold Database.onRow
  rw [hview]
  cases hl : d.store.lookup id with
  | none =>
    rw [Option.filter_none]
    simp only [h.absent]
    exact ⟨rfl, rfl⟩
  | some r =>
    by_cases hown : r.automation.tenantId = tenantId
    · have howns : owns tenantId r = true := decide_eq_true hown
      obtain ⟨r', hr', hid, htenant⟩ := h.own r d.world hown
      have howns' : owns tenantId r' = true := decide_eq_true htenant
      have hlookup : d.store.lookup r'.automation.id = some r := by
        rw [hid, (Table.mem_of_lookup hl).2, hl]
      rw [Option.filter_some, if_pos howns]
      have hput := Table.restrict_put hlookup (howns'.trans howns.symm)
      have hothers := Table.restrict_put_outside (p := fun x => !owns tenantId x) hlookup
        (by simp [howns']) (by simp [howns])
      refine ⟨?_, ?_⟩
      · simp only [Database.ofTenant, hr', hput]
      · simp only [Database.others, hr', hothers]
    · have hforeign := h.foreign r d.world hown
      rw [Option.filter_some, if_neg (by simpa [owns] using hown)]
      simp only [Database.ofTenant, Database.others, hforeign, h.absent, Table.put_self hl,
        and_self]

end Lens

section ScopedCalls

variable {tenantId : String}

theorem scopedGet_none : scopedGet tenantId none = .error .automationNotFoundError := rfl

theorem scopedGet_foreign {r : Record} (h : r.automation.tenantId ≠ tenantId) :
    scopedGet tenantId (some r) = .error .automationNotFoundError := if_neg h

/-- A transaction that starts with the scoped read is scoped. -/
theorem transact_scoped (fault : Option DbFault)
    {transaction : Option Record → Except Error (Result × Record)}
    (hnone : transaction none = .error .automationNotFoundError)
    (hforeign : ∀ r, r.automation.tenantId ≠ tenantId →
      transaction (some r) = .error .automationNotFoundError)
    (hown : ∀ r result r', r.automation.tenantId = tenantId →
      transaction (some r) = .ok (result, r') →
      r'.automation.id = r.automation.id ∧ r'.automation.tenantId = tenantId) :
    Scoped tenantId (transact fault transaction) := by
  refine ⟨?_, ?_, ?_⟩
  · intro r w hr
    cases fault with
    | some f => rfl
    | none => simp only [transact, hforeign r hr, hnone]
  · intro w
    cases fault with
    | some f => rfl
    | none => simp only [transact, hnone]
  · intro r w hr
    cases fault with
    | some f => exact ⟨r, rfl, rfl, hr⟩
    | none =>
      cases ht : transaction (some r) with
      | error e => exact ⟨r, by simp only [transact, ht], rfl, hr⟩
      | ok out =>
        obtain ⟨result, r'⟩ := out
        obtain ⟨hid, htenant⟩ := hown r result r' hr ht
        exact ⟨r', by simp only [transact, ht], hid, htenant⟩

theorem toggle_scoped (fault : Option DbFault) (target : MatchingState) (action : RevisionAction)
    (actor : String) (now : Timestamp) :
    Scoped tenantId
      (transact fault fun record => toggled (toggle target action tenantId actor now record)) := by
  apply transact_scoped
  · rfl
  · intro r hr
    simp only [toggle, scopedGet_foreign hr]
    rfl
  · intro r result r' hr ht
    cases htoggle : toggle target action tenantId actor now (some r) with
    | error e => simp [toggled, htoggle, Except.map] at ht
    | ok r₁ =>
      obtain ⟨r₀, h₀, -, -, -, rfl⟩ := toggle_ok htoggle
      obtain rfl := Option.some.inj h₀
      simp only [toggled, htoggle, Except.map, Except.ok.injEq, Prod.mk.injEq] at ht
      rw [← ht.2]
      exact ⟨rfl, hr⟩

theorem beginDelete_scoped (fault : Option DbFault) (actor : String) (now : Timestamp) :
    Scoped tenantId
      (transact fault fun record => admitted (beginDelete tenantId actor now record)) := by
  apply transact_scoped
  · rfl
  · intro r hr
    simp only [beginDelete, scopedGet_foreign hr]
    rfl
  · intro r result r' hr ht
    cases hdelete : beginDelete tenantId actor now (some r) with
    | error e => simp [admitted, hdelete, Except.map] at ht
    | ok out =>
      simp only [admitted, hdelete, Except.map, Except.ok.injEq, Prod.mk.injEq] at ht
      rw [← ht.2]
      obtain ⟨r₀, h₀, -, ⟨-, rfl⟩ | ⟨-, -, rfl⟩⟩ := beginDelete_ok hdelete
      · obtain rfl := Option.some.inj h₀
        exact ⟨rfl, hr⟩
      · obtain rfl := Option.some.inj h₀
        exact ⟨rfl, hr⟩

theorem getAutomation_scoped (readFails : Bool)
    (readScript : String → Except Error (Option String)) :
    Scoped tenantId (getAutomation tenantId readFails readScript) := by
  have hkeeps (sh : Shared) : (getAutomation tenantId readFails readScript sh).2 = sh := by
    unfold getAutomation
    split
    · rfl
    · split
      · rfl
      · split
        · rfl
        · rfl
  refine ⟨?_, ?_, ?_⟩
  · intro r w hr
    cases readFails with
    | true => rfl
    | false =>
      simp only [getAutomation, scopedGet_foreign hr, scopedGet_none, Bool.false_eq_true, if_false]
  · intro w
    rw [hkeeps]
  · intro r w hr
    rw [hkeeps]
    exact ⟨r, rfl, rfl, hr⟩

/-- The finish of an edit is scoped like any transaction. -/
theorem finishUpdate_scoped (fault : Option DbFault) (claim : BuildClaim) (data : AutomationIn)
    (actor gitSha : String) (now : Timestamp) :
    Scoped tenantId (transact fault fun record =>
      toggled (finishUpdate tenantId claim data actor gitSha now record)) := by
  apply transact_scoped
  · rfl
  · intro r hr
    simp only [finishUpdate, scopedGet_foreign hr]
    rfl
  · intro r result r' hr ht
    cases hfinish : finishUpdate tenantId claim data actor gitSha now (some r) with
    | error e => simp [toggled, hfinish, Except.map] at ht
    | ok r₁ =>
      obtain ⟨r₀, h₀, -, -, rfl⟩ := finishUpdate_ok hfinish
      obtain rfl := Option.some.inj h₀
      simp only [toggled, hfinish, Except.map, Except.ok.injEq, Prod.mk.injEq] at ht
      rw [← ht.2]
      exact ⟨rfl, hr⟩

theorem releaseBuildClaim_same (claim : BuildClaim) (r : Record) :
    (releaseBuildClaim claim r).automation.id = r.automation.id ∧
      (releaseBuildClaim claim r).automation.tenantId = r.automation.tenantId := by
  obtain ⟨_, _, _, he⟩ := releaseBuildClaim_frame claim r
  rw [he]
  exact ⟨rfl, rfl⟩

/-- A call that is refused before it reads anything. -/
theorem refused_scoped {α : Type} {call : Shared → α × Shared} (answer : α)
    (h : ∀ sh, call sh = (answer, sh)) : Scoped tenantId call := by
  refine ⟨?_, ?_, ?_⟩
  · intro r w _
    rw [h, h]
  · intro w
    rw [h]
  · intro r w hr
    rw [h]
    exact ⟨r, rfl, rfl, hr⟩

theorem updateAutomation_scoped (validateAutomation : AutomationIn → List FieldError)
    (data : AutomationIn) (actor : String) (answers : EditAnswers) :
    Scoped tenantId (updateAutomation validateAutomation tenantId data actor answers) := by
  by_cases hvalid : validateAutomation data ≠ []
  · apply refused_scoped (.error (.automationValidationError (validateAutomation data)))
    intro sh
    rw [updateAutomation, if_pos hvalid]
  cases hfault : answers.claimFault with
  | some f =>
    apply refused_scoped (.error f.error)
    intro sh
    simp only [updateAutomation, if_neg hvalid, hfault]
  | none =>
    have hrefused (record : Option Record)
        (h : scopedGet tenantId record = .error .automationNotFoundError) (w : World) :
        updateAutomation validateAutomation tenantId data actor answers ⟨record, w⟩ =
          (.error .automationNotFoundError, ⟨record, w⟩) := by
      simp only [updateAutomation, if_neg hvalid, hfault, claimBuild, h]
    refine ⟨?_, ?_, ?_⟩
    · intro r w hr
      rw [hrefused _ (scopedGet_foreign hr), hrefused _ scopedGet_none]
    · intro w
      rw [hrefused _ scopedGet_none]
    · intro r w hr
      simp only [updateAutomation, if_neg hvalid, hfault]
      cases hclaim : claimBuild tenantId data answers.deadline (some r) with
      | error e => exact ⟨r, rfl, rfl, hr⟩
      | ok out =>
        obtain ⟨claim, r₁⟩ := out
        obtain ⟨r₀, h₀, -, -, -, -, -, rfl⟩ := claimBuild_ok hclaim
        obtain rfl := Option.some.inj h₀
        cases hgit : answers.gitSha with
        | none =>
          obtain ⟨hid, htenant⟩ := releaseBuildClaim_same claim (r.claimed answers.deadline)
          by_cases hrelease : answers.releaseFault = none
          · exact ⟨_, by simp only [if_pos hrelease], hid, htenant.trans hr⟩
          · exact ⟨r.claimed answers.deadline, by simp only [if_neg hrelease], rfl, hr⟩
        | some gitSha =>
          exact (finishUpdate_scoped answers.finishFault claim data actor gitSha answers.now).own
            (r.claimed answers.deadline) (w.commitScript gitSha) hr

/-- A runner reads and writes by id alone, and its checkpoints leave the row with
its id and its tenant. -/
theorem advance_row (answer : Answer) {x : Shared × Runner} {r : Record} (hr : x.1.record = some r) :
    ∃ r', (advance answer x).1.record = some r' ∧ r'.automation.id = r.automation.id ∧
      r'.automation.tenantId = r.automation.tenantId := by
  unfold advance
  cases hs : x.2.step answer.now x.1 (x.2.nextOp answer.outcome) with
  | none => exact ⟨r, hr, rfl, rfl⟩
  | some y =>
    obtain ⟨sh', pc'⟩ := y
    have hm := Runner.step_move hs
    rw [Option.getD_some]
    generalize x.2 = pc at hm
    generalize pc.nextOp answer.outcome = op at hm
    cases hm with
    | @saved a n completed outcome =>
      dsimp only
      split
      · have hsame := checkpoint_sameButCheckpoint completed answer.now r
        unfold Automation.SameButCheckpoint at hsame
        refine ⟨checkpoint completed answer.now r, by rw [hr, Option.map_some], ?_, ?_⟩
        · rw [hsame]
        · rw [hsame]
      · exact ⟨r, hr, rfl, rfl⟩
    | _ => exact ⟨r, hr, rfl, rfl⟩

theorem runAlone_row (answers : ℕ → Answer) {x : Shared × Runner} {r : Record}
    (hr : x.1.record = some r) (n : ℕ) : ∃ r', (runAlone answers x n).1.record = some r' ∧
      r'.automation.id = r.automation.id ∧ r'.automation.tenantId = r.automation.tenantId := by
  induction n with
  | zero => exact ⟨r, hr, rfl, rfl⟩
  | succ n ih =>
    obtain ⟨r₁, h₁, hid₁, htenant₁⟩ := ih
    obtain ⟨r₂, h₂, hid₂, htenant₂⟩ := advance_row (answers n) h₁
    exact ⟨r₂, h₂, hid₂.trans hid₁, htenant₂.trans htenant₁⟩

theorem runCascade_row (answers : ℕ → Answer) {sh : Shared} {r : Record} (hr : sh.record = some r) :
    ∃ r', (runCascade answers sh).1.record = some r' ∧ r'.automation.id = r.automation.id ∧
      r'.automation.tenantId = r.automation.tenantId := by
  unfold runCascade
  generalize attemptBound sh.world = n
  exact runAlone_row answers hr n

/-- The cascade of a child runs only after an admission within the tenant. -/
theorem deboardChild_scoped (actor : String) (answers : ChildAnswers) :
    Scoped tenantId (deboardChild tenantId actor answers) := by
  cases hfault : answers.fault with
  | some f =>
    apply refused_scoped .failed
    intro sh
    simp only [deboardChild, hfault]
  | none =>
    have hrefused (record : Option Record)
        (h : scopedGet tenantId record = .error .automationNotFoundError) (w : World) :
        deboardChild tenantId actor answers ⟨record, w⟩ = (.failed, ⟨record, w⟩) := by
      simp only [deboardChild, hfault, beginDelete, h]
    refine ⟨?_, ?_, ?_⟩
    · intro r w hr
      rw [hrefused _ (scopedGet_foreign hr), hrefused _ scopedGet_none]
    · intro w
      rw [hrefused _ scopedGet_none]
    · intro r w hr
      simp only [deboardChild, hfault]
      cases hadmission : beginDelete tenantId actor answers.now (some r) with
      | error e => cases e <;> exact ⟨r, rfl, rfl, hr⟩
      | ok admission =>
        have hsame : admission.record.automation.id = r.automation.id ∧
            admission.record.automation.tenantId = r.automation.tenantId := by
          obtain ⟨r₀, h₀, -, ⟨-, rfl⟩ | ⟨-, -, rfl⟩⟩ := beginDelete_ok hadmission
          · obtain rfl := Option.some.inj h₀
            exact ⟨rfl, rfl⟩
          · obtain rfl := Option.some.inj h₀
            exact ⟨rfl, rfl⟩
        have hrow : ∃ r', (runCascade answers.cascade ⟨some admission.record, w⟩).1.record = some r' ∧
            r'.automation.id = admission.record.automation.id ∧
            r'.automation.tenantId = admission.record.automation.tenantId := runCascade_row _ rfl
        dsimp only
        generalize runCascade answers.cascade ⟨some admission.record, w⟩ = y at hrow
        obtain ⟨r', hr', hid, htenant⟩ := hrow
        refine ⟨r', ?_, hid.trans hsame.1, htenant.trans (hsame.2.trans hr)⟩
        obtain ⟨sh', pc⟩ := y
        cases pc <;> exact hr'

end ScopedCalls

section WholeTable

variable {tenantId : String}

theorem createAutomation_ofTenant (validateAutomation : AutomationIn → List FieldError) (d : Database)
    (id : UUID) (data : AutomationIn) (actor : String) (gitSha : Option String)
    (fault : Option DbFault) (deadline now : Timestamp)
    (hfresh : ∀ x ∈ d.store.rows, x.automation.id ≠ id) :
    (d.ofTenant tenantId).createAutomation validateAutomation tenantId id data actor gitSha fault
        deadline now =
      let out := d.createAutomation validateAutomation tenantId id data actor gitSha fault deadline now
      (out.1, out.2.ofTenant tenantId) := by
  have hview : ∀ x ∈ (d.ofTenant tenantId).store.rows, x.automation.id ≠ id :=
    fun x hx => hfresh x (List.mem_filter.mp hx).1
  unfold Database.createAutomation
  by_cases hvalid : validateAutomation data ≠ []
  · rw [if_pos hvalid, if_pos hvalid]
  · rw [if_neg hvalid, if_neg hvalid]
    cases gitSha with
    | none => rfl
    | some gitSha =>
      cases fault with
      | some f => rfl
      | none =>
        have howns : owns tenantId (createAutomation tenantId id data actor gitSha deadline now) = true :=
          decide_eq_true rfl
        dsimp only
        rw [dif_pos hview, dif_pos hfresh]
        simp only [Database.ofTenant, Table.restrict_insert hfresh howns]

theorem createAutomation_others (validateAutomation : AutomationIn → List FieldError) (d : Database)
    (id : UUID) (data : AutomationIn) (actor : String) (gitSha : Option String)
    (fault : Option DbFault) (deadline now : Timestamp) :
    (d.createAutomation validateAutomation tenantId id data actor gitSha fault deadline now).2.others
      tenantId = d.others tenantId := by
  unfold Database.createAutomation
  split
  · rfl
  · cases gitSha with
    | none => rfl
    | some gitSha =>
      cases fault with
      | some f => rfl
      | none =>
        dsimp only
        split
        · next hfresh =>
          apply Table.restrict_insert_outside hfresh
          simp [owns, createAutomation]
        · rfl

/-- A query of the tenant's rows reads the same from its own rows alone. -/
theorem query_ofTenant (d : Database) (query : Automation → Bool)
    (hquery : ∀ a, query a = true → a.tenantId = tenantId) :
    ((d.ofTenant tenantId).store.rows.map Record.automation).filter query =
      (d.store.rows.map Record.automation).filter query := by
  rw [List.filter_map, List.filter_map]
  have hsame : ((d.ofTenant tenantId).store.rows).filter (query ∘ Record.automation) =
      d.store.rows.filter (query ∘ Record.automation) := by
    show (d.store.rows.filter (owns tenantId)).filter _ = _
    rw [List.filter_filter]
    apply List.filter_congr
    intro r _
    cases hq : query r.automation with
    | false => simp [hq]
    | true => simp [hq, owns, hquery _ hq]
  rw [hsame]

theorem listAutomations_ofTenant (d : Database) (nameSpace : Option String)
    (matchingState : Option MatchingState) (buildState : Option BuildState) :
    (d.ofTenant tenantId).listAutomations tenantId nameSpace matchingState buildState =
      d.listAutomations tenantId nameSpace matchingState buildState := by
  unfold Database.listAutomations
  rw [query_ofTenant]
  intro a ha
  simp only [Database.listed, Bool.and_eq_true, decide_eq_true_eq] at ha
  exact ha.1.1.1

theorem children_ofTenant (d : Database) (walletName : String) :
    (d.ofTenant tenantId).children tenantId walletName = d.children tenantId walletName := by
  unfold Database.children
  rw [query_ofTenant]
  intro a ha
  simp only [Database.onWallet, Bool.and_eq_true, decide_eq_true_eq] at ha
  exact ha.1.1

/-- The deboard loop, child by child. -/
theorem deboardLoop_ofTenant (tenantId actor : String) (answers : UUID → ChildAnswers) (ids : List UUID)
    (s : DeboardSummary) (d : Database) :
    Database.deboardLoop tenantId actor answers ids s (d.ofTenant tenantId) =
        ((Database.deboardLoop tenantId actor answers ids s d).1,
          (Database.deboardLoop tenantId actor answers ids s d).2.ofTenant tenantId) ∧
      (Database.deboardLoop tenantId actor answers ids s d).2.others tenantId = d.others tenantId := by
  induction ids generalizing s d with
  | nil => exact ⟨rfl, rfl⟩
  | cons id ids ih =>
    have hscoped : Scoped tenantId (deboardChild tenantId actor (answers id)) :=
      deboardChild_scoped actor (answers id)
    obtain ⟨hchild, hothers⟩ := hscoped.onRow d id
    simp only [Database.deboardLoop, hchild]
    obtain ⟨hrest, hrestOthers⟩ := ih (s.add id _) (d.onRow id (deboardChild tenantId actor (answers id))).2
    exact ⟨hrest, hrestOthers.trans hothers⟩

end WholeTable

/-- The calls of a tenant see its own rows only, and touch no others. -/
theorem perform_ofTenant (validateAutomation : AutomationIn → List FieldError) (tenantId : String)
    (d : Database) (c : UserCall)
    (hfresh : ∀ id ∈ c.createdId?, ∀ x ∈ d.store.rows, x.automation.id ≠ id) :
    perform validateAutomation tenantId (d.ofTenant tenantId) c =
        ((perform validateAutomation tenantId d c).1,
          (perform validateAutomation tenantId d c).2.ofTenant tenantId) ∧
      (perform validateAutomation tenantId d c).2.others tenantId = d.others tenantId := by
  cases c with
  | update id data actor answers => exact (updateAutomation_scoped _ _ _ _).onRow d id
  | get id readFails readScript => exact (getAutomation_scoped _ _).onRow d id
  | enable id actor fault now => exact (toggle_scoped fault .active .enable actor now).onRow d id
  | disable id actor fault now => exact (toggle_scoped fault .inactive .disable actor now).onRow d id
  | beginDelete id actor fault now => exact (beginDelete_scoped fault actor now).onRow d id
  | create id data actor gitSha fault deadline now =>
    have hnew := hfresh id rfl
    exact ⟨createAutomation_ofTenant _ d id data actor gitSha fault deadline now hnew,
      createAutomation_others _ d id data actor gitSha fault deadline now⟩
  | list nameSpace matchingState buildState readFails =>
    refine ⟨?_, rfl⟩
    simp only [perform, listAutomations_ofTenant]
  | deboardWallet walletName actor readFails answers =>
    cases readFails with
    | true => exact ⟨rfl, rfl⟩
    | false =>
      obtain ⟨hloop, hothers⟩ := deboardLoop_ofTenant tenantId actor answers
        (d.children tenantId walletName) ⟨[], [], [], []⟩ d
      refine ⟨?_, hothers⟩
      simp only [perform, Database.deboardWallet, children_ofTenant, hloop, Bool.false_eq_true, if_false]

/-- The ids the calls create are new to the table, and new to each other. -/
def FreshIds (d : Database) (calls : List UserCall) : Prop :=
  (calls.filterMap UserCall.createdId?).Nodup ∧
    ∀ id ∈ calls.filterMap UserCall.createdId?, ∀ x ∈ d.store.rows, x.automation.id ≠ id

instance (d : Database) (calls : List UserCall) : Decidable (FreshIds d calls) :=
  inferInstanceAs (Decidable (_ ∧ _))

theorem onRow_ids {α : Type} (d : Database) (id : UUID) (call : Shared → α × Shared) :
    ∀ x ∈ (d.onRow id call).2.store.rows, ∃ y ∈ d.store.rows, y.automation.id = x.automation.id := by
  intro x hx
  unfold Database.onRow at hx
  dsimp only at hx
  split at hx
  · exact Table.mem_put hx
  · exact ⟨x, hx, rfl⟩

theorem deboardLoop_ids (tenantId actor : String) (answers : UUID → ChildAnswers) (ids : List UUID)
    (s : DeboardSummary) (d : Database) :
    ∀ x ∈ (Database.deboardLoop tenantId actor answers ids s d).2.store.rows,
      ∃ y ∈ d.store.rows, y.automation.id = x.automation.id := by
  induction ids generalizing s d with
  | nil => exact fun x hx => ⟨x, hx, rfl⟩
  | cons id ids ih =>
    intro x hx
    simp only [Database.deboardLoop] at hx
    obtain ⟨y, hy, hyx⟩ := ih (s.add id _) (d.onRow id (deboardChild tenantId actor (answers id))).2 x hx
    obtain ⟨z, hz, hzy⟩ := onRow_ids d id (deboardChild tenantId actor (answers id)) y hy
    exact ⟨z, hz, hzy.trans hyx⟩

/-- A call adds at most the row it creates. -/
theorem perform_ids (validateAutomation : AutomationIn → List FieldError) (tenantId : String)
    (d : Database) (c : UserCall) :
    ∀ x ∈ (perform validateAutomation tenantId d c).2.store.rows,
      (∃ y ∈ d.store.rows, y.automation.id = x.automation.id) ∨
        c.createdId? = some x.automation.id := by
  intro x hx
  cases c with
  | update id data actor answers => exact Or.inl (onRow_ids d id _ x hx)
  | get id readFails readScript => exact Or.inl (onRow_ids d id _ x hx)
  | enable id actor fault now => exact Or.inl (onRow_ids d id _ x hx)
  | disable id actor fault now => exact Or.inl (onRow_ids d id _ x hx)
  | beginDelete id actor fault now => exact Or.inl (onRow_ids d id _ x hx)
  | list => exact Or.inl ⟨x, hx, rfl⟩
  | deboardWallet walletName actor readFails answers =>
    cases readFails with
    | true => exact Or.inl ⟨x, hx, rfl⟩
    | false => exact Or.inl (deboardLoop_ids tenantId actor answers _ _ d x hx)
  | create id data actor gitSha fault deadline now =>
    simp only [perform, Database.createAutomation] at hx
    split at hx
    · exact Or.inl ⟨x, hx, rfl⟩
    · cases gitSha with
      | none => exact Or.inl ⟨x, hx, rfl⟩
      | some gitSha =>
        cases fault with
        | some f => exact Or.inl ⟨x, hx, rfl⟩
        | none =>
          dsimp only at hx
          split at hx
          · rcases List.mem_append.mp hx with hx | hx
            · exact Or.inl ⟨x, hx, rfl⟩
            · rw [List.mem_singleton.mp hx]
              exact Or.inr rfl
          · exact Or.inl ⟨x, hx, rfl⟩

theorem FreshIds.tail {validateAutomation : AutomationIn → List FieldError} {tenantId : String}
    {d : Database} {c : UserCall} {cs : List UserCall} (h : FreshIds d (c :: cs)) :
    FreshIds (perform validateAutomation tenantId d c).2 cs := by
  obtain ⟨hnodup, hnew⟩ := h
  cases hc : c.createdId? with
  | none =>
    rw [List.filterMap_cons_none hc] at hnodup hnew
    refine ⟨hnodup, ?_⟩
    intro id hid x hx
    rcases perform_ids validateAutomation tenantId d c x hx with ⟨y, hy, hyx⟩ | hcreated
    · rw [← hyx]
      exact hnew id hid y hy
    · simp [hc] at hcreated
  | some created =>
    rw [List.filterMap_cons_some hc] at hnodup hnew
    obtain ⟨hnot, hnodup⟩ := List.nodup_cons.mp hnodup
    refine ⟨hnodup, ?_⟩
    intro id hid x hx hxid
    rcases perform_ids validateAutomation tenantId d c x hx with ⟨y, hy, hyx⟩ | hcreated
    · exact hnew id (List.mem_cons_of_mem _ hid) y hy (hyx.trans hxid)
    · rw [hc, hxid] at hcreated
      exact hnot (Option.some.inj hcreated ▸ hid)

theorem FreshIds.head {d : Database} {c : UserCall} {cs : List UserCall} (h : FreshIds d (c :: cs)) :
    ∀ id ∈ c.createdId?, ∀ x ∈ d.store.rows, x.automation.id ≠ id := by
  intro id hid
  apply h.2
  rw [List.filterMap_cons_some hid]
  exact List.mem_cons_self ..

/-- The run lemma: a sequence of calls runs the same as if the tenant were alone. -/
theorem performAll_ofTenant (validateAutomation : AutomationIn → List FieldError) (tenantId : String)
    (calls : List UserCall) (d : Database) (hfresh : FreshIds d calls) :
    performAll validateAutomation tenantId calls (d.ofTenant tenantId) =
        ((performAll validateAutomation tenantId calls d).1,
          (performAll validateAutomation tenantId calls d).2.ofTenant tenantId) ∧
      (performAll validateAutomation tenantId calls d).2.others tenantId = d.others tenantId := by
  induction calls generalizing d with
  | nil => exact ⟨rfl, rfl⟩
  | cons c cs ih =>
    obtain ⟨hcall, hothers⟩ := perform_ofTenant validateAutomation tenantId d c hfresh.head
    have hrestFresh : FreshIds (perform validateAutomation tenantId d c).2 cs := hfresh.tail
    obtain ⟨hrest, hrestOthers⟩ := ih _ hrestFresh
    simp only [performAll, hcall]
    rw [hrest]
    exact ⟨rfl, hrestOthers.trans hothers⟩

/-- Tenant noninterference: two tables that agree on a tenant's rows and revisions
give every sequence of its calls the same results and stay in agreement, and no
row of another tenant is touched; a foreign id is answered like an unknown one. -/
theorem tenant_noninterference (validateAutomation : AutomationIn → List FieldError)
    (tenantId : String) (calls : List UserCall) (d₁ d₂ : Database)
    (hown : d₁.store.restrict (owns tenantId) = d₂.store.restrict (owns tenantId))
    (hworld : d₁.world = d₂.world) (hfresh₁ : FreshIds d₁ calls) (hfresh₂ : FreshIds d₂ calls) :
    let out₁ := performAll validateAutomation tenantId calls d₁
    let out₂ := performAll validateAutomation tenantId calls d₂
    out₁.1 = out₂.1 ∧
      out₁.2.store.restrict (owns tenantId) = out₂.2.store.restrict (owns tenantId) ∧
      out₁.2.world = out₂.2.world ∧
      out₁.2.others tenantId = d₁.others tenantId ∧ out₂.2.others tenantId = d₂.others tenantId ∧
      (performAll validateAutomation tenantId calls (d₁.ofTenant tenantId)).1 = out₁.1 ∧
      ∀ id r, d₁.store.lookup id = some r → r.automation.tenantId ≠ tenantId →
        (d₁.ofTenant tenantId).store.lookup id = none := by
  obtain ⟨hview₁, hothers₁⟩ := performAll_ofTenant validateAutomation tenantId calls d₁ hfresh₁
  obtain ⟨hview₂, hothers₂⟩ := performAll_ofTenant validateAutomation tenantId calls d₂ hfresh₂
  have hsame : d₁.ofTenant tenantId = d₂.ofTenant tenantId := by
    rw [Database.ofTenant, Database.ofTenant, hown, hworld]
  rw [hsame, hview₂] at hview₁
  obtain ⟨hresults, hafter⟩ := Prod.mk.inj hview₁
  obtain ⟨hstore, hworlds⟩ := Database.mk.inj hafter
  refine ⟨hresults.symm, hstore.symm, hworlds.symm, hothers₁, hothers₂, ?_, ?_⟩
  · rw [hsame, hview₂]
    exact hresults
  · intro id r hl hforeign
    show (d₁.store.restrict (owns tenantId)).lookup id = none
    rw [Table.lookup_restrict, hl, Option.filter_some, if_neg]
    simpa [owns] using hforeign

def ownRow : Record := createAutomation "t1" sampleId samplePayload "author" firstSha 99 1

def foreignRow (id : UUID) : Record := createAutomation "t2" id samplePayload "stranger" firstSha 99 2

/-- The sample automation beside one of another tenant. -/
def sharedTable (id : UUID) (h : [sampleId, id].Nodup) : Database :=
  ⟨⟨[ownRow, foreignRow id], h⟩, sampleWorld⟩

/-- Calls about foreign, unknown and own ids, a create, and a deboard. -/
def sampleCalls : List UserCall :=
  [.get ⟨2⟩ false fun _ => .ok none, .enable ⟨2⟩ "author" none 3, .beginDelete ⟨3⟩ "author" none 4,
   .update ⟨2⟩ samplePayload "author" ⟨199, none, some firstSha, none, none, 5⟩,
   .create ⟨4⟩ samplePayload "author" (some firstSha) none 199 6, .list (some "payments") none none false,
   .beginDelete sampleId "author" none 7,
   .deboardWallet "payments" "author" false fun _ => ⟨8, none, cleanAnswers 9⟩]

theorem tenant_noninterference_sample :
    let d₁ := sharedTable ⟨2⟩ (by decide)
    let d₂ := sharedTable ⟨3⟩ (by decide)
    FreshIds d₁ sampleCalls ∧ FreshIds d₂ sampleCalls ∧
      (performAll (fun _ => []) "t1" sampleCalls d₁).1 =
        (performAll (fun _ => []) "t1" sampleCalls d₂).1 ∧
      (performAll (fun _ => []) "t1" sampleCalls d₁).2.others "t1" = d₁.others "t1" := by
  have hfresh₁ : FreshIds (sharedTable ⟨2⟩ (by decide)) sampleCalls := by decide
  have hfresh₂ : FreshIds (sharedTable ⟨3⟩ (by decide)) sampleCalls := by decide
  obtain ⟨hresults, -, -, hothers, -⟩ := tenant_noninterference (fun _ => []) "t1" sampleCalls
    (sharedTable ⟨2⟩ (by decide)) (sharedTable ⟨3⟩ (by decide)) (Table.ext rfl) rfl hfresh₁ hfresh₂
  exact ⟨hfresh₁, hfresh₂, hresults, hothers⟩

end KeepAutomation
