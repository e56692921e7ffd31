import KeepAutomation.Fleet
import Mathlib.Data.List.Sort

/-! The list of a tenant's automations. It is the newest first, cut at the limit;
no edit, build, toggle or deletion moves an automation in it, and creations come
in front. -/
namespace KeepAutomation

open KeyedTable TransitionSystem

/-- What of a row never changes. -/
def Automation.birth (a : Automation) : UUID × String × Timestamp := (a.id, a.tenantId, a.createdAt)

def Fleet.births (f : Fleet) : List (UUID × String × Timestamp) :=
  f.store.rows.map fun r => r.automation.birth

theorem RowMove.birth {s : State} {now : Timestamp} {r r' : Record} {op : Op} (h : RowMove s now r op r') :
    r'.automation.birth = r.automation.birth := by
  have hcreated : r'.automation.createdAt = r.automation.createdAt := by
    cases h with
    | @released p claim =>
      obtain ⟨_, _, _, he⟩ := releaseBuildClaim_frame claim r
      rw [he]
    | @checkpointed p a n completed =>
      obtain ⟨_, _, _, he⟩ := checkpoint_frame completed now r
      rw [he]
    | _ => rfl
  rw [Automation.birth, h.id, h.tenantId, hcreated]
  rfl

section Births

variable {settings : Settings} {f f' : Fleet} {now : Timestamp} {op : FleetOp} {tr : FleetTrace}

/-- The step lemma: a step adds one row at the end, or none. -/
theorem FleetMove.births (h : FleetMove settings f now op f') :
    f'.births = f.births ∨
      ∃ id tenantId, f.store.lookup id = none ∧ f'.births = f.births ++ [(id, tenantId, now)] := by
  cases h with
  | @moved id o s' hm =>
    cases hrec : f.store.lookup id with
    | none =>
      rcases hm.row_of_none hrec with hnone | ⟨tenantId, data, actor, gitSha, deadline, -, hcreated⟩
      · left
        simp only [Fleet.births, Fleet.withPart, hnone]
      · right
        refine ⟨id, tenantId, hrec, ?_⟩
        simp only [Fleet.births, Fleet.withPart, hcreated]
        rw [Table.rows_upsert_of_none hrec, List.map_append]
        rfl
    | some r =>
      left
      obtain ⟨r', hr', hrow⟩ := hm.row (r := r) hrec
      have hkey : r'.automation.id = id := hrow.id.trans (Table.mem_of_lookup hrec).2
      have hread : f.store.lookup r'.automation.id = some r := by rw [hkey, hrec]
      simp only [Fleet.births, Fleet.withPart, hr']
      rw [Table.upsert_of_lookup hread]
      exact Table.map_put hread hrow.birth
  | @began fault p job id ids s hpass r hr =>
    left
    have hkey : r.automation.id = id := (Table.mem_of_lookup hr).2
    have hread : f.store.lookup (r.markDeleting job.actor now).automation.id = some r := by
      change f.store.lookup r.automation.id = some r
      rw [hkey, hr]
    exact Table.map_put hread rfl
  | _ => exact Or.inl rfl

theorem FleetMove.clock (h : FleetMove settings f now op f') : f'.clock = now := by
  cases h <;> rfl

/-- The rows stand in the order of their creation. -/
structure InOrder (f : Fleet) : Prop where
  increasing : f.births.Pairwise fun x y => x.2.2 < y.2.2
  past : ∀ x ∈ f.births, x.2.2 ≤ f.clock

theorem InOrder.move (h : InOrder f) (hclock : f.clock < now) (hm : FleetMove settings f now op f') :
    InOrder f' := by
  have hlater : ∀ x ∈ f.births, x.2.2 < now := fun x hx => (h.past x hx).trans_lt hclock
  rcases hm.births with hsame | ⟨id, tenantId, -, hnew⟩
  · refine ⟨hsame ▸ h.increasing, ?_⟩
    rw [hsame, hm.clock]
    exact fun x hx => (hlater x hx).le
  · constructor
    · rw [hnew]
      refine List.pairwise_append.mpr ⟨h.increasing, List.pairwise_singleton .., ?_⟩
      intro x hx y hy
      rw [List.mem_singleton.mp hy]
      exact hlater x hx
    · rw [hnew, hm.clock]
      intro x hx
      rcases List.mem_append.mp hx with hx | hx
      · exact (hlater x hx).le
      · rw [List.mem_singleton.mp hx]

theorem FleetReached.inOrder (h : FleetReached settings tr f) : InOrder f := by
  obtain ⟨world, hrun⟩ := h
  refine hrun.invariant (I := InOrder) ⟨List.Pairwise.nil, ?_⟩ ?_
  · intro x hx
    exact absurd hx List.not_mem_nil
  · intro f a f' hf _ hstep
    obtain ⟨hclock, hm⟩ := fleetStep_move hstep
    exact hf.move hclock hm

end Births

section Listing

variable {settings : Settings} {f f' : Fleet} {tr tr' : FleetTrace}

theorem FleetReached.increasing (h : FleetReached settings tr f) :
    (f.store.rows.map Record.automation).Pairwise fun a b => a.createdAt < b.createdAt := by
  have hbirths : (f.store.rows.map fun r => r.automation.birth).Pairwise fun x y => x.2.2 < y.2.2 :=
    h.inOrder.increasing
  rw [List.pairwise_map] at hbirths ⊢
  exact hbirths

end Listing

end KeepAutomation
