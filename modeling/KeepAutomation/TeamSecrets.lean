import KeepAutomation.Fleet

/-! The Secrets that cascades and teardowns delete, against the Secrets that rows
name. A deletion only knows an id and a wallet, which once stood together in a
payload; so it can only hit a team Secret whose name some payload took from the
reserved names of its wallet. -/
namespace KeepAutomation

open KeyedTable TransitionSystem

/-- The wallet and the name of the `delete_secret` call a runner stands at. -/
def Runner.secretCall : Runner → Option (String × String)
  | .deletingSecret a _ => some (a.nameSpace, runAuthSecretName a.id)
  | _ => none

/-- The same of a webhook teardown. -/
def Delivery.secretCall : Delivery → Option (String × String)
  | .deletingSecret event wallet => some (wallet, runAuthSecretName event.automationId)
  | _ => none

def State.secretCall (s : State) : Op → Option (String × String)
  | .run p (.call _) => (s.runners p).secretCall
  | .deliver p (.tearDown _) => (s.deliveries p).secretCall
  | _ => none

/-- The `delete_secret` call a step makes, whatever comes of it. -/
def Fleet.secretCall (f : Fleet) : FleetOp → Option (String × String)
  | .automation id op => (f.part id).secretCall op
  | _ => none

/-- No payload names the reserved Secret of an automation that a payload puts on
the same wallet. -/
def NoReservedName (tr : FleetTrace) : Prop :=
  ∀ t ∈ tr, ∀ u ∈ tr, ∀ x ∈ t.pre.written t.act.op, ∀ y ∈ u.pre.written u.act.op,
    x.2.nameSpace = y.2.nameSpace → y.2.secretName ≠ some (runAuthSecretName x.1)

instance (tr : FleetTrace) : Decidable (NoReservedName tr) :=
  inferInstanceAs (Decidable (∀ t ∈ tr, ∀ u ∈ tr, ∀ x ∈ t.pre.written t.act.op,
    ∀ y ∈ u.pre.written u.act.op,
      x.2.nameSpace = y.2.nameSpace → y.2.secretName ≠ some (runAuthSecretName x.1)))

/-- A payload of the run wrote this automation. -/
def WrittenBy (tr : FleetTrace) (id : UUID) (data : AutomationIn) : Prop :=
  ∃ t ∈ tr, t.pre.written t.act.op = some (id, data)

/-- A payload of the run put the automation on the wallet. -/
def PutOn (tr : FleetTrace) (id : UUID) (wallet : String) : Prop :=
  ∃ data, WrittenBy tr id data ∧ data.nameSpace = wallet

theorem WrittenBy.cons {tr : FleetTrace} {id : UUID} {data : AutomationIn} (h : WrittenBy tr id data)
    (t : Transition Fleet FleetAction) : WrittenBy (t :: tr) id data := by
  obtain ⟨u, hu, hwritten⟩ := h
  exact ⟨u, List.mem_cons_of_mem _ hu, hwritten⟩

theorem PutOn.cons {tr : FleetTrace} {id : UUID} {wallet : String} (h : PutOn tr id wallet)
    (t : Transition Fleet FleetAction) : PutOn (t :: tr) id wallet := by
  obtain ⟨data, hdata, hwallet⟩ := h
  exact ⟨data, hdata.cons t, hwallet⟩

/-- The wallet a delivery holds from its admission on. -/
def Delivery.wallet? : Delivery → Option String
  | .callingCapp _ target => some target.wallet
  | .rechecking _ target _ => some target.wallet
  | .deletingCapp _ wallet _ => some wallet
  | .deletingSecret _ wallet => some wallet
  | _ => none

/-- The wallet of a delivery is read from the row and then handed on. -/
theorem DeliveryMove.wallet {cfg : Config} {now : Timestamp} {sh sh' : Shared} {d d' : Delivery}
    {o : DeliveryOp} (h : DeliveryMove cfg now sh d o sh' d') {wallet : String}
    (hd : d'.wallet? = some wallet) :
    d.wallet? = some wallet ∨ ∃ r, sh.record = some r ∧ r.automation.nameSpace = wallet := by
  cases h with
  | successAdmitted _ r hr => exact Or.inr ⟨r, hr, Option.some.inj hd⟩
  | cappAccepted => exact Or.inl hd
  | tearingDown => exact Or.inl hd
  | cappTornDown => exact Or.inl hd
  | _ => simp [Delivery.wallet?] at hd

/-- Where the fleet's wallets and Secret names come from: a row has those of one
payload, and a call holds a wallet its automation was put on. -/
structure Placed (tr : FleetTrace) (f : Fleet) : Prop where
  row : ∀ id r, f.store.lookup id = some r → ∃ data, WrittenBy tr id data ∧
    r.automation.nameSpace = data.nameSpace ∧ r.automation.secretName = data.secretName
  runner : ∀ id p a k, ((f.calls id).runners p).task = some (a, k) → a.id = id ∧ PutOn tr id a.nameSpace
  delivery : ∀ id p, ((f.calls id).deliveries p).WellFormed id ∧
    ∀ wallet ∈ ((f.calls id).deliveries p).wallet?, PutOn tr id wallet

theorem Placed.putOn {tr : FleetTrace} {f : Fleet} (h : Placed tr f) {id : UUID} {r : Record}
    (hr : f.store.lookup id = some r) : PutOn tr id r.automation.nameSpace := by
  obtain ⟨data, hdata, hwallet, -⟩ := h.row id r hr
  exact ⟨data, hdata, hwallet.symm⟩

/-- The step lemma. -/
theorem Placed.move {settings : Settings} {tr : FleetTrace} {f f' : Fleet} {now : Timestamp}
    {op : FleetOp} (h : Placed tr f) (hm : FleetMove settings f now op f') :
    Placed (⟨f, ⟨now, op⟩, f'⟩ :: tr) f' := by
  refine ⟨?_, ?_, ?_⟩
  -- rows: a payload is written now, or the names are those of an older one
  · intro id r' hr'
    rcases hm.placed hr' with ⟨data, hwritten, hplaced⟩ | ⟨r, hr, hwallet, hsecret⟩
    · exact ⟨data, ⟨_, List.mem_cons_self, hwritten⟩, hplaced⟩
    · obtain ⟨data, hdata, hplaced, hnamed⟩ := h.row id r hr
      exact ⟨data, hdata.cons _, hwallet.trans hplaced, hsecret.trans hnamed⟩
  -- runners: a task is carried on or taken over from the row
  · intro id p a k htask
    have kept (htask : ((f.calls id).runners p).task = some (a, k)) :
        a.id = id ∧ PutOn (⟨f, ⟨now, op⟩, f'⟩ :: tr) id a.nameSpace :=
      (h.runner id p a k htask).imp_right fun hput => hput.cons _
    cases hm.part id with
    | own s' hown _ hcalls =>
      rw [hcalls] at htask
      dsimp only at htask
      rcases hown.runner p with ⟨-, hsame⟩ | ⟨o, -, hrun⟩
      · rw [hsame] at htask
        exact kept htask
      · rcases hrun.task htask with ⟨-, hbefore⟩ | ⟨-, r, hr, rfl, -, -⟩
        · exact kept hbefore
        · -- a fresh pass takes its snapshot from the row
          exact ⟨(Table.mem_of_lookup hr).2, (h.putOn hr).cons _⟩
    | admitted _ _ _ _ _ _ _ hcalls => exact kept (hcalls ▸ htask)
    | other _ _ hcalls => exact kept (hcalls ▸ htask)
  -- deliveries: the wallet is carried on or taken over from the row
  · intro id p
    have kept : ((f.calls id).deliveries p).WellFormed id ∧
        ∀ wallet ∈ ((f.calls id).deliveries p).wallet?, PutOn (⟨f, ⟨now, op⟩, f'⟩ :: tr) id wallet :=
      (h.delivery id p).imp_right fun hput wallet hwallet => (hput wallet hwallet).cons _
    cases hm.part id with
    | own s' hown _ hcalls =>
      rw [hcalls]
      dsimp only
      rcases hown.delivery p with ⟨-, hsame⟩ | ⟨o, -, hdelivery⟩
      · rw [hsame]
        exact kept
      · refine ⟨hdelivery.wellFormed kept.1, fun wallet hwallet => ?_⟩
        rcases hdelivery.wallet hwallet with hbefore | ⟨r, hr, rfl⟩
        · exact kept.2 wallet hbefore
        · exact (h.putOn hr).cons _
    | admitted _ _ _ _ _ _ _ hcalls => rw [hcalls]; exact kept
    | other _ _ hcalls => rw [hcalls]; exact kept

/-- The run lemma. -/
theorem FleetReached.placed {settings : Settings} {tr : FleetTrace} {f : Fleet}
    (h : FleetReached settings tr f) : Placed tr f :=
  h.history (P := Placed)
    (fun _ => ⟨fun _ _ hr => by simp [emptyFleet, Table.lookup] at hr,
      fun _ _ _ _ htask => by simp [emptyFleet, Runner.task] at htask,
      fun _ _ => ⟨trivial, fun _ hwallet => by simp [emptyFleet, Delivery.wallet?] at hwallet⟩⟩)
    fun _ _ _ _ _ _ hold hm => hold.move hm

/-- A `delete_secret` call is for the reserved name of an automation that was put
on the wallet. -/
theorem FleetReached.secretCall {settings : Settings} {tr : FleetTrace} {f : Fleet}
    (h : FleetReached settings tr f) {op : FleetOp} {wallet name : String}
    (hcall : f.secretCall op = some (wallet, name)) :
    ∃ id, PutOn tr id wallet ∧ name = runAuthSecretName id := by
  have hplaced := h.placed
  cases op with
  | automation id op =>
    cases op with
    | run p o =>
      cases o with
      | call outcome =>
        change ((f.calls id).runners p).secretCall = _ at hcall
        have hrunner := hplaced.runner id p
        generalize (f.calls id).runners p = pc at hcall hrunner
        cases pc with
        | deletingSecret a n =>
          obtain ⟨rfl, rfl⟩ := Prod.mk.inj (Option.some.inj hcall)
          obtain ⟨rfl, hput⟩ := hrunner a stepCappResourcesDeleted rfl
          exact ⟨a.id, hput, rfl⟩
        | _ => simp [Runner.secretCall] at hcall
      | _ => simp [Fleet.secretCall, State.secretCall] at hcall
    | deliver p o =>
      cases o with
      | tearDown outcome =>
        change ((f.calls id).deliveries p).secretCall = _ at hcall
        obtain ⟨hid, hput⟩ := hplaced.delivery id p
        generalize (f.calls id).deliveries p = d at hcall hid hput
        cases d with
        | deletingSecret event wallet' =>
          obtain ⟨rfl, rfl⟩ := Prod.mk.inj (Option.some.inj hcall)
          exact ⟨id, hput _ rfl, congrArg runAuthSecretName hid⟩
        | _ => simp [Delivery.secretCall] at hcall
      | _ => simp [Fleet.secretCall, State.secretCall] at hcall
    | _ => simp [Fleet.secretCall, State.secretCall] at hcall
  | _ => simp [Fleet.secretCall] at hcall

theorem EditMove.secrets {cfg : Config} {now : Timestamp} {sh sh' : Shared} {e e' : Edit} {o : EditOp}
    (h : EditMove cfg now sh e o sh' e') : sh'.world.secrets = sh.world.secrets := by
  cases h with
  | _ => rfl

/-- A deletion takes one Secret. -/
theorem World.mem_deleteSecret {w : World} {wallet name : String} {x : String × String}
    (h : x ∈ w.secrets) : x ∈ (w.deleteSecret wallet name).secrets ∨ (wallet, name) = x := by
  by_cases hx : x = (wallet, name)
  · exact Or.inr hx.symm
  · exact Or.inl (List.mem_filter.mpr ⟨h, decide_eq_true hx⟩)

theorem DeliveryMove.secrets {cfg : Config} {now : Timestamp} {sh sh' : Shared} {d d' : Delivery}
    {o : DeliveryOp} (h : DeliveryMove cfg now sh d o sh' d') {x : String × String}
    (hx : x ∈ sh.world.secrets) :
    x ∈ sh'.world.secrets ∨ (∃ outcome, o = .tearDown outcome) ∧ d.secretCall = some x := by
  cases h with
  | @cappAccepted event target =>
    left
    simp only [deploy, deployCall]
    split
    · exact List.mem_cons_of_mem _ hx
    · exact hx
  | tearDownFailed outcome =>
    left
    dsimp only
    split
    · exact hx
    · exact hx
  | @secretTornDown event wallet outcome =>
    dsimp only
    split
    · exact (World.mem_deleteSecret hx).imp_right fun hcall => ⟨⟨outcome, rfl⟩, congrArg some hcall⟩
    · exact Or.inl hx
  | _ => exact Or.inl hx

theorem World.archive_secrets (w : World) (automationId : UUID) (actor : String) :
    (w.archive automationId actor).secrets = w.secrets := by
  unfold World.archive
  split
  · rfl
  · rfl

theorem RunnerMove.secrets {now : Timestamp} {sh sh' : Shared} {pc pc' : Runner} {o : RunnerOp}
    (h : RunnerMove now sh pc o sh' pc') {x : String × String} (hx : x ∈ sh.world.secrets) :
    x ∈ sh'.world.secrets ∨ (∃ outcome, o = .call outcome) ∧ pc.secretCall = some x := by
  cases h with
  | called outcome world next stop hcall =>
    dsimp only
    split
    case isFalse => exact Or.inl hx
    cases pc <;> simp only [Runner.call, Option.some.injEq, Prod.mk.injEq, reduceCtorEq] at hcall <;>
      -- of a runner's calls only the second of step 2 reaches a Secret
      obtain ⟨rfl, -, -⟩ := hcall
    case deletingSecret a n =>
      exact (World.mem_deleteSecret hx).imp_right fun hcall => ⟨⟨outcome, rfl⟩, congrArg some hcall⟩
    case archiving a n =>
      rw [World.archive_secrets]
      exact Or.inl hx
    all_goals exact Or.inl hx
  | _ => exact Or.inl hx

/-- A Secret goes by a `delete_secret` call for it. -/
theorem FleetMove.secrets {settings : Settings} {f f' : Fleet} {now : Timestamp} {op : FleetOp}
    (h : FleetMove settings f now op f') {x : String × String} (hx : x ∈ f.world.secrets) :
    x ∈ f'.world.secrets ∨ f.secretCall op = some x := by
  cases h with
  | @moved id op s' hm =>
    change x ∈ s'.world.secrets ∨ (f.part id).secretCall op = some x
    cases hm with
    | edited hm =>
      left
      dsimp only
      rw [hm.secrets]
      exact hx
    | delivered hm =>
      refine (hm.secrets hx).imp_right ?_
      rintro ⟨⟨outcome, rfl⟩, hcall⟩
      exact hcall
    | ran hm =>
      refine (hm.secrets hx).imp_right ?_
      rintro ⟨⟨outcome, rfl⟩, hcall⟩
      exact hcall
    | _ => exact Or.inl hx
  | _ => exact Or.inl hx

/-- No cascade and no teardown deletes a team Secret, in every run in which no
payload takes a reserved name of its wallet: no call is for a Secret that a row of
the wallet names, and no step loses such a Secret. -/
theorem cascade_spares_team_secrets {settings : Settings} {tr : FleetTrace} {f : Fleet}
    (h : FleetReached settings tr f) (hnames : NoReservedName tr) :
    (∀ t ∈ tr, ∀ wallet name, t.pre.secretCall t.act.op = some (wallet, name) →
      ∀ r ∈ t.pre.store.rows, r.automation.nameSpace = wallet → r.automation.secretName ≠ some name) ∧
    ∀ t ∈ tr, ∀ r ∈ t.pre.store.rows, ∀ name ∈ r.automation.secretName,
      t.pre.world.hasSecret r.automation.nameSpace name →
        t.post.world.hasSecret r.automation.nameSpace name := by
  have spared : ∀ t ∈ tr, ∀ wallet name, t.pre.secretCall t.act.op = some (wallet, name) →
      ∀ r ∈ t.pre.store.rows, r.automation.nameSpace = wallet → r.automation.secretName ≠ some name := by
    intro t ht wallet name hcall r hr hwallet hnamed
    obtain ⟨later, earlier, rfl⟩ := List.append_of_mem ht
    have hreach := h.cut.1
    have hsub {x : Transition Fleet FleetAction} (hx : x ∈ earlier) : x ∈ later ++ t :: earlier :=
      List.mem_append_right _ (List.mem_cons_of_mem _ hx)
    -- the payload that put the caller's automation on the wallet, and the one that
    -- gave the row its Secret
    obtain ⟨id, ⟨data, ⟨u, hu, hwritten⟩, hput⟩, rfl⟩ := hreach.secretCall hcall
    obtain ⟨data', ⟨u', hu', hwritten'⟩, hplaced, hsecret⟩ := hreach.placed.row r.automation.id r
      (Table.lookup_eq_some_iff.mpr ⟨hr, rfl⟩)
    have hsame : data.nameSpace = data'.nameSpace := by rw [hput, ← hplaced, hwallet]
    exact hnames u (hsub hu) u' (hsub hu') (id, data) hwritten (r.automation.id, data') hwritten' hsame
      (hsecret ▸ hnamed)
  refine ⟨spared, ?_⟩
  intro t ht r hr name hname hsecret
  obtain ⟨later, earlier, rfl⟩ := List.append_of_mem ht
  rcases h.cut.2.secrets hsecret with hkept | hcall
  · exact hkept
  · exact absurd hname (spared t ht _ _ hcall r hr rfl)

/-- One automation is deployed, a second one is created on its wallet, and the
first is deleted up to its run-auth Secret. -/
def sharedWalletOps (data : AutomationIn) : List FleetOp :=
  [.automation sampleId (.create "t1" samplePayload "author" firstSha 99),
   .automation sampleId (.deliver 0 (.receive firstSuccess false)),
   .automation sampleId (.deliver 0 (.cappAccepts sampleDeployment)),
   .automation sampleId (.deliver 0 (.recheck none)),
   .automation ⟨2⟩ (.create "t1" data "author" secondSha 99),
   .automation sampleId (.beginDelete "t1" "deleter"),
   .automation sampleId (.run 0 (.snapshot false)), .automation sampleId (.run 0 (.call .ok)),
   .automation sampleId (.run 0 (.call .ok))]

def sparedOps : List FleetOp := sharedWalletOps samplePayload

/-- The second automation names the run-auth Secret of the first as its own. -/
def borrowedOps : List FleetOp :=
  sharedWalletOps { samplePayload with secretName := some (runAuthSecretName sampleId) }

/-- A cascade past its Secret, on a wallet whose rows name another one. -/
theorem cascade_spares_team_secrets_sample :
    ∃ f, FleetReached sampleSettings (fleetTrace sparedOps) f ∧
      ∃ t ∈ fleetTrace sparedOps, ∃ name, t.pre.secretCall t.act.op = some ("payments", name) ∧
        (∃ r ∈ t.pre.store.rows, r.automation.nameSpace = "payments") ∧
        ∀ r ∈ t.pre.store.rows, r.automation.nameSpace = "payments" → r.automation.secretName ≠ some name := by
  obtain ⟨f, hreach, -⟩ := fleet_of_runFleet sparedOps (fun f => f.store.rows.length = 2) (by decide +kernel)
  have hnames : NoReservedName (fleetTrace sparedOps) := by decide +kernel
  have hcall : ∃ t ∈ fleetTrace sparedOps,
      t.pre.secretCall t.act.op = some ("payments", runAuthSecretName sampleId) ∧
        ∃ r ∈ t.pre.store.rows, r.automation.nameSpace = "payments" := by decide +kernel
  obtain ⟨t, ht, hcall, hrow⟩ := hcall
  exact ⟨f, hreach, t, ht, _, hcall, hrow, (cascade_spares_team_secrets hreach hnames).1 t ht _ _ hcall⟩

/-- The cascade of the first automation deletes the Secret the second one names. -/
theorem cascade_deletes_team_secret :
    (∃ f, FleetReached sampleSettings (fleetTrace borrowedOps) f) ∧
      ∃ t ∈ fleetTrace borrowedOps,
        t.pre.secretCall t.act.op = some ("payments", runAuthSecretName sampleId) ∧
        (∃ r ∈ t.pre.store.rows, r.automation.nameSpace = "payments" ∧
          r.automation.secretName = some (runAuthSecretName sampleId)) ∧
        ("payments", runAuthSecretName sampleId) ∈ t.pre.world.secrets ∧
        ("payments", runAuthSecretName sampleId) ∉ t.post.world.secrets := by
  obtain ⟨f, hreach, -⟩ := fleet_of_runFleet borrowedOps (fun f => f.store.rows.length = 2)
    (by decide +kernel)
  exact ⟨⟨f, hreach⟩, by decide +kernel⟩

end KeepAutomation
