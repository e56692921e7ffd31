import KeepAutomation.OnceCell

/-! What a process builds once: two publishers, each with a Redis client, and the
database engine. The first ones are built under a lock, the engine is not. -/
namespace KeepAutomation

open TransitionSystem OnceCell

section Publishing

/-- `get_default_reload_publisher` or `get_default_event_publisher`, and the
`_get_client` of each publisher object there is. `messages` lists what a client
was asked to publish, with the call that did and whether it went out. -/
structure Publishing where
  publishers : OnceCell.State ℕ
  clients : ℕ → OnceCell.State ℕ
  messages : List (ℕ × ℕ × Bool)

/-- `p` is a request that asks for the publisher, `q` one of its publishes. -/
inductive PublishingOp where
  | default (p : ℕ) (event : Event ℕ)
  | client (p q : ℕ) (event : Event ℕ)
  | publish (p q : ℕ) (delivered : Bool)

/-- Without `REDIS_URL` the publisher is the null one, which has no client. An
exception of `_get_client` or of the publish is swallowed. -/
def publishingStep (redisUrl : Bool) (s : Publishing) : PublishingOp → Option Publishing
  | .default p event =>
    (OnceCell.step true s.publishers ⟨p, event⟩).map fun publishers => { s with publishers := publishers }
  | .client p q event =>
    match s.publishers.calls p with
    | .got i =>
      if redisUrl then
        (OnceCell.step true (s.clients i) ⟨q, event⟩).map fun cell =>
          { s with clients := Function.update s.clients i cell }
      else none
    | _ => none
  | .publish p q delivered =>
    match s.publishers.calls p with
    | .got i =>
      match (s.clients i).calls q with
      | .got client =>
        if q ∈ s.messages.map Prod.fst then none
        else some { s with messages := s.messages ++ [(q, client, delivered)] }
      | _ => none
    | _ => none

def nothingBuilt : Publishing where
  publishers := OnceCell.empty
  clients := fun _ => OnceCell.empty
  messages := []

/-- The cells are guarded, each for itself, and only the client cell of the one
publisher has been used. -/
structure OneClient (redisUrl : Bool) (s : Publishing) : Prop where
  publishers : Guarded s.publishers
  clients : ∀ i, Guarded (s.clients i)
  used : ∀ i, (s.clients i).built ≠ [] → redisUrl = true ∧ ∃ p, s.publishers.built = [(p, i)]
  messages : ∀ m ∈ s.messages, ∃ i q, (s.clients i).built = [(q, m.2.1)]

variable {redisUrl : Bool} {s s' : Publishing}

/-- A step of `_get_client` is one of the cell of its publisher. -/
theorem publishingStep_client {p q : ℕ} {event : Event ℕ}
    (hstep : publishingStep redisUrl s (.client p q event) = some s') :
    ∃ i cell, s.publishers.calls p = .got i ∧ redisUrl = true ∧
      OnceCell.step true (s.clients i) ⟨q, event⟩ = some cell ∧
      { s with clients := Function.update s.clients i cell } = s' := by
  simp only [publishingStep] at hstep
  split at hstep
  · next i hi =>
    split at hstep
    · next hredis =>
      obtain ⟨cell, hcell, hs'⟩ := Option.map_eq_some_iff.mp hstep
      exact ⟨i, cell, hi, hredis, hcell, hs'⟩
    · simp at hstep
  · simp at hstep

/-- The step lemma: the outer cell, an inner one, or a message. -/
theorem OneClient.step (h : OneClient redisUrl s) {o : PublishingOp}
    (hstep : publishingStep redisUrl s o = some s') : OneClient redisUrl s' := by
  cases o with
  | default p event =>
    obtain ⟨publishers, hcell, rfl⟩ := Option.map_eq_some_iff.mp hstep
    have hm := step_move hcell
    have hguarded := h.publishers.step hm
    refine ⟨hguarded, h.clients, ?_, h.messages⟩
    intro i hi
    obtain ⟨hredis, q, hbuilt⟩ := h.used i hi
    exact ⟨hredis, q, hguarded.built_stays hm hbuilt⟩
  | client p q event =>
    obtain ⟨i, cell, hi, hredis, hcell, rfl⟩ := publishingStep_client hstep
    have hm := step_move hcell
    have hguarded := (h.clients i).step hm
    obtain ⟨r, hpublisher⟩ := h.publishers.once.2 p i hi
    refine ⟨h.publishers, ?_, ?_, ?_⟩
    · exact (Function.forall_update_iff s.clients fun _ c => Guarded c).mpr ⟨hguarded, fun j _ => h.clients j⟩
    · intro j hj
      by_cases hji : j = i
      · rw [hji]
        exact ⟨hredis, r, hpublisher⟩
      · have hsame : Function.update s.clients i cell j = s.clients j := Function.update_of_ne hji ..
        dsimp only at hj
        rw [hsame] at hj
        exact h.used j hj
    · intro m hm'
      obtain ⟨j, q', hbuilt⟩ := h.messages m hm'
      refine ⟨j, q', ?_⟩
      dsimp only
      by_cases hji : j = i
      · rw [hji] at hbuilt ⊢
        have hsame : Function.update s.clients i cell i = cell := Function.update_self ..
        rw [hsame]
        exact hguarded.built_stays hm hbuilt
      · have hsame : Function.update s.clients i cell j = s.clients j := Function.update_of_ne hji ..
        rw [hsame]
        exact hbuilt
  | publish p q delivered =>
    simp only [publishingStep] at hstep
    split at hstep
    · next i hi =>
      split at hstep
      · next client hclient =>
        split at hstep
        · simp at hstep
        · obtain rfl := Option.some.inj hstep
          refine ⟨h.publishers, h.clients, h.used, ?_⟩
          intro m hm
          rcases List.mem_append.mp hm with hm | hm
          · exact h.messages m hm
          · rw [List.mem_singleton.mp hm]
            obtain ⟨q', hbuilt⟩ := (h.clients i).once.2 q client hclient
            exact ⟨i, q', hbuilt⟩
      · simp at hstep
    · simp at hstep

theorem oneClient_nothingBuilt : OneClient redisUrl nothingBuilt := by
  refine ⟨guarded_empty, fun _ => guarded_empty, ?_, ?_⟩
  · intro i hi
    exact absurd rfl hi
  · intro m hm
    exact absurd hm List.not_mem_nil

/-- All clients of a module are one. -/
theorem OneClient.client (h : OneClient redisUrl s) {i j : ℕ} {b c : ℕ × ℕ} (hb : b ∈ (s.clients i).built)
    (hc : c ∈ (s.clients j).built) : i = j ∧ b = c ∧ redisUrl = true := by
  obtain ⟨hredis, p, hi⟩ := h.used i (List.ne_nil_of_mem hb)
  obtain ⟨-, q, hj⟩ := h.used j (List.ne_nil_of_mem hc)
  have hij : i = j := by
    have hsame := List.singleton_inj.mp (hi.symm.trans hj)
    exact (Prod.mk.inj hsame).2
  refine ⟨hij, ?_, hredis⟩
  rw [← hij] at hc
  have hlength := (h.clients i).once.1
  obtain ⟨d, hd⟩ := List.length_eq_one_iff.mp (le_antisymm hlength (List.length_pos_of_mem hb))
  rw [hd] at hb hc
  exact (List.mem_singleton.mp hb).trans (List.mem_singleton.mp hc).symm

/-- The modules of a process that publish, each with a publisher and a client of
its own. -/
inductive PublisherModule where
  | reload | automationEvents
  deriving DecidableEq, Repr

structure ProcessOp where
  publisher : PublisherModule
  op : PublishingOp

def processStep (redisUrl : Bool) (s : PublisherModule → Publishing) (o : ProcessOp) :
    Option (PublisherModule → Publishing) :=
  (publishingStep redisUrl (s o.publisher) o.op).map (Function.update s o.publisher)

theorem OneClient.process {s s' : PublisherModule → Publishing} {o : ProcessOp}
    (h : ∀ publisher, OneClient redisUrl (s publisher)) (hstep : processStep redisUrl s o = some s')
    (publisher : PublisherModule) : OneClient redisUrl (s' publisher) := by
  obtain ⟨a, ha, rfl⟩ := Option.map_eq_some_iff.mp hstep
  by_cases hsame : publisher = o.publisher
  · rw [hsame, Function.update_self]
    exact (h o.publisher).step ha
  · rw [Function.update_of_ne hsame]
    exact h publisher

/-- Nothing has been made in a cell of the module, and the next call there makes
the value and gets it. -/
def TriesAgain (redisUrl : Bool) (s : PublisherModule → Publishing) (publisher : PublisherModule)
    (cell : Publishing → OnceCell.State ℕ) (call : ℕ → Event ℕ → PublishingOp) : Prop :=
  (cell (s publisher)).built = [] ∧ ∀ q x, (cell (s publisher)).calls q = .idle →
    ∃ s', exec (processStep redisUrl) s ((attempt x).map fun e => ⟨publisher, call q e⟩) = some s' ∧
      (cell (s' publisher)).calls q = .got x ∧ (cell (s' publisher)).built = [(q, x)]

/-- A cell of the module to which a factory has raised. -/
theorem triesAgain {s : PublisherModule → Publishing} {publisher : PublisherModule}
    {cell : Publishing → OnceCell.State ℕ} {call : ℕ → Event ℕ → PublishingOp}
    (put : Publishing → OnceCell.State ℕ → Publishing) (I : Publishing → Prop)
    (hget : ∀ t c, cell (put t c) = c) (hself : ∀ t, put t (cell t) = t)
    (hput : ∀ t c c', put (put t c) c' = put t c') (hI : ∀ t c, I t → I (put t c))
    (hstep : ∀ t q e c, I t → OnceCell.step true (cell t) ⟨q, e⟩ = some c →
      publishingStep redisUrl t (call q e) = some (put t c))
    (hs : I (s publisher))
    (hraised : (cell (s publisher)).holder = none ∧ (cell (s publisher)).cell = none ∧
      (cell (s publisher)).built = []) : TriesAgain redisUrl s publisher cell call := by
  obtain ⟨hfree, hcell, hbuilt⟩ := hraised
  refine ⟨hbuilt, fun q x hq => ?_⟩
  obtain ⟨c, hc, hgot, hmade⟩ := exec_attempt hfree hcell hq x
  -- first in the module, then in the process
  have hmodule : exec (publishingStep redisUrl) (s publisher) ((attempt x).map (call q)) =
      some (put (s publisher) c) := by
    have hevents : (attempt x).map (call q) = ((attempt x).map (Label.mk q)).map fun l => call l.caller l.event := by
      rw [List.map_map]
      rfl
    rw [hevents]
    exact exec_component cell put I hget hself hput hI (fun t l c ht h => hstep t l.caller l.event c ht h) hs hc
  have hprocess : exec (processStep redisUrl) s (((attempt x).map (call q)).map (ProcessOp.mk publisher)) =
      some (Function.update s publisher (put (s publisher) c)) := by
    refine exec_component (fun s => s publisher) (fun s a => Function.update s publisher a) (fun _ => True)
      (fun s a => Function.update_self ..) (fun s => Function.update_eq_self ..)
      (fun s a a' => Function.update_idem ..) (fun _ _ _ => trivial) ?_ trivial hmodule
    intro s o a _ h
    simp only [processStep, h, Option.map_some]
  rw [List.map_map] at hprocess
  refine ⟨_, hprocess, ?_, ?_⟩
  · rw [Function.update_self, hget]
    exact hgot
  · rw [Function.update_self, hget, hmade, hbuilt, List.nil_append]

/-- However the requests of a process interleave, each of its two modules builds at
most one publisher and one Redis client, none without a `REDIS_URL`, and publishes
through that one client only. A factory that raises leaves nothing built, and the
next call builds. -/
theorem one_redis_client {tr : Trace (PublisherModule → Publishing) ProcessOp}
    {s : PublisherModule → Publishing}
    (h : Run (processStep redisUrl) (fun _ _ => True) (fun _ => nothingBuilt) tr s) :
    (∀ publisher, (s publisher).publishers.built.length ≤ 1 ∧
      (∀ i j, ∀ b ∈ ((s publisher).clients i).built, ∀ c ∈ ((s publisher).clients j).built,
        i = j ∧ b = c ∧ redisUrl = true) ∧
      ∀ m ∈ (s publisher).messages, ∃ i q, ((s publisher).clients i).built = [(q, m.2.1)]) ∧
    ∀ t ∈ tr,
      (∀ p, t.act.op = .default p (.build none) →
        TriesAgain redisUrl t.post t.act.publisher Publishing.publishers .default) ∧
      ∀ p q, t.act.op = .client p q (.build none) →
        ∃ i, (t.post t.act.publisher).publishers.calls p = .got i ∧
          TriesAgain redisUrl t.post t.act.publisher (fun a => a.clients i) (.client p) := by
  have hone {tr : Trace (PublisherModule → Publishing) ProcessOp} {s : PublisherModule → Publishing}
      (h : Run (processStep redisUrl) (fun _ _ => True) (fun _ => nothingBuilt) tr s)
      (publisher : PublisherModule) : OneClient redisUrl (s publisher) :=
    h.invariant (I := fun s => ∀ publisher, OneClient redisUrl (s publisher)) (fun _ => oneClient_nothingBuilt)
      (fun s o s' hs _ hstep publisher => OneClient.process (o := o) (s := s) hs hstep publisher) publisher
  refine ⟨fun publisher => ⟨(hone h publisher).publishers.once.1, fun _ _ _ hb _ hc =>
    (hone h publisher).client hb hc, (hone h publisher).messages⟩, ?_⟩
  intro t ht
  obtain ⟨-, hstep, tr', hreached⟩ := h.transition ht
  have hpre := hone hreached t.act.publisher
  obtain ⟨a, ha, hpost⟩ := Option.map_eq_some_iff.mp hstep
  have hmodule : t.post t.act.publisher = a := by
    rw [← hpost, Function.update_self]
  constructor
  · intro p hop
    rw [hop] at ha
    obtain ⟨cell, hcell, rfl⟩ := Option.map_eq_some_iff.mp ha
    apply triesAgain (fun s c => { s with publishers := c }) (fun _ => True)
    · exact fun _ _ => rfl
    · exact fun _ => rfl
    · exact fun _ _ _ => rfl
    · exact fun _ _ _ => trivial
    · intro s q e c _ hc
      simp only [publishingStep, hc, Option.map_some]
    · trivial
    · rw [hmodule]
      exact hpre.publishers.raised (step_move hcell)
  · intro p q hop
    rw [hop] at ha
    obtain ⟨i, cell, hi, hredis, hcell, rfl⟩ := publishingStep_client ha
    refine ⟨i, by rw [hmodule]; exact hi, ?_⟩
    apply triesAgain (fun s c => { s with clients := Function.update s.clients i c })
      (fun s => s.publishers.calls p = .got i)
    · exact fun s c => Function.update_self ..
    · intro s
      rw [Function.update_eq_self]
    · intro s c c'
      rw [Function.update_idem]
    · exact fun _ _ hs => hs
    · intro s q' e c hs hc
      simp only [publishingStep, hs, hredis, if_true, hc, Option.map_some]
    · rw [hmodule]
      exact hi
    · rw [hmodule]
      have hself : Function.update (t.pre t.act.publisher).clients i cell i = cell := Function.update_self ..
      simp only [hself]
      exact (hpre.clients i).raised (step_move hcell)

/-- Two requests publish reloads, the first of which meets a factory that raises;
both go out through the client of the second. An event has a client of its own. -/
def publishOps : List ProcessOp :=
  [.default 0 .enter, .default 1 .enter, .default 0 .acquire, .default 0 .look, .default 0 (.build (some 7)),
   .default 0 .store, .default 0 .finish, .default 1 .acquire, .default 1 .look, .default 1 .finish,
   .client 0 0 .enter, .client 1 1 .enter, .client 0 0 .acquire, .client 0 0 .look,
   .client 0 0 (.build none), .client 1 1 .acquire, .client 1 1 .look, .client 1 1 (.build (some 9)),
   .client 1 1 .store, .client 1 1 .finish, .client 0 2 .enter, .client 0 2 .acquire, .client 0 2 .look,
   .client 0 2 .finish, .publish 1 1 true, .publish 0 2 false].map (ProcessOp.mk .reload) ++
  ((attempt 5).map (PublishingOp.default 0) ++ (attempt 6).map (PublishingOp.client 0 0) ++
   [PublishingOp.publish 0 0 true]).map (ProcessOp.mk .automationEvents)

theorem one_redis_client_sample : ∃ s,
    Run (processStep true) (fun _ _ => True) (fun _ => nothingBuilt)
      (execTrace (processStep true) (fun _ => nothingBuilt) publishOps) s ∧
    (s .reload).messages = [(1, 9, true), (2, 9, false)] ∧ (s .automationEvents).messages = [(0, 6, true)] ∧
    ∀ publisher, (s publisher).publishers.built.length ≤ 1 := by
  obtain ⟨s, hs, hreload, hevents⟩ := Run.exists_of_exec (E := fun _ _ => True) (fun _ _ => trivial) publishOps
    (fun s : PublisherModule → Publishing =>
      (s .reload).messages = [(1, 9, true), (2, 9, false)] ∧ (s .automationEvents).messages = [(0, 6, true)])
    (by decide +kernel : (exec (processStep true) (fun _ => nothingBuilt) publishOps).any
      (fun s => decide ((s .reload).messages = [(1, 9, true), (2, 9, false)] ∧
        (s .automationEvents).messages = [(0, 6, true)])) = true)
  exact ⟨s, hs, hreload, hevents, fun publisher => ((one_redis_client hs).1 publisher).1⟩

end Publishing

section Engine

/-- `get_engine` looks, builds and stores with no lock. -/
def getEngineStep : OnceCell.State ℕ → Label ℕ → Option (OnceCell.State ℕ) := OnceCell.step false

/-- The engines of a process, each with its pool: a call builds at most one, and
none once it has seen an engine, so that only the calls that race the first one
can add to it; every call gets one that was built. -/
theorem engines_of_racing_calls {tr : Trace (OnceCell.State ℕ) (Label ℕ)} {s : OnceCell.State ℕ}
    (h : Run getEngineStep (fun _ _ => True) OnceCell.empty tr s) :
    (s.built.map Prod.fst).Nodup ∧ (∀ p x, s.calls p = .got x → ∃ q, (q, x) ∈ s.built) ∧
      ∀ t ∈ tr, t.act.event = .look → t.pre.cell ≠ none → t.act.caller ∉ s.built.map Prod.fst := by
  have hraced := raced_run h
  refine ⟨hraced.nodup, ?_, ?_⟩
  · intro p x hp
    exact hraced.values p x (Or.inr hp)
  · intro t ht hlook hcell
    exact (hraced.late t ht hlook hcell).1

/-- Two first calls race, and go on with an engine each. -/
def raceOps : List (Label ℕ) :=
  [⟨0, .enter⟩, ⟨1, .enter⟩, ⟨0, .acquire⟩, ⟨1, .acquire⟩, ⟨0, .look⟩, ⟨1, .look⟩, ⟨0, .build (some 1)⟩,
   ⟨0, .store⟩, ⟨0, .finish⟩, ⟨1, .build (some 2)⟩, ⟨1, .store⟩, ⟨1, .finish⟩]

theorem engines_of_racing_calls_sample : ∃ s,
    Run getEngineStep (fun _ _ => True) OnceCell.empty (execTrace getEngineStep OnceCell.empty raceOps) s ∧
    s.built = [(0, 1), (1, 2)] ∧ (s.built.map Prod.fst).Nodup := by
  obtain ⟨s, hs, hbuilt⟩ := Run.exists_of_exec (E := fun _ _ => True) (fun _ _ => trivial) raceOps
    (fun s : OnceCell.State ℕ => s.built = [(0, 1), (1, 2)])
    (by decide +kernel : (exec getEngineStep OnceCell.empty raceOps).any
      (fun s => decide (s.built = [(0, 1), (1, 2)])) = true)
  exact ⟨s, hs, hbuilt, (engines_of_racing_calls hs).1⟩

end Engine

end KeepAutomation
