import KeepAutomation.Cascade
import Mathlib.Dynamics.FixedPoints.Basic

/-! What a deletion leaves of the outside world. Its effects are idempotent and
commute with each other, so nothing depends on who makes them, how often, or in
which order. -/
namespace KeepAutomation

open Function

attribute [ext] World

def World.deleteImages (w : World) (automationId : UUID) : World :=
  { w with images := w.images.filter fun i => i.1 ≠ automationId }

/-- The effects of a deletion. -/
inductive Cleanup where
  | capp | secret | images | script
  deriving DecidableEq

def Cleanup.clean (a : Automation) : Cleanup → World → World
  | .capp, w => w.deleteCapp a.nameSpace (cappNameFor a.id a.cappDeploymentId)
  | .secret, w => w.deleteSecret a.nameSpace (runAuthSecretName a.id)
  | .images, w => w.deleteImages a.id
  | .script, w => w.archive a.id a.updatedBy

/-- The step whose checkpoint says that the effect has been made. -/
def Cleanup.step : Cleanup → ℕ
  | .capp | .secret => stepCappResourcesDeleted
  | .images => stepImagesDeleted
  | .script => stepScriptArchived

theorem Cleanup.step_eq (k : Cleanup) :
    (k.step = stepCappResourcesDeleted ↔ k = .capp ∨ k = .secret) ∧
      (k.step = stepImagesDeleted ↔ k = .images) ∧ (k.step = stepScriptArchived ↔ k = .script) ∧
      stepMarkedDeleting < k.step ∧ k.step < stepDeleted := by
  cases k <;> decide

/-- The effect has been made: making it again changes nothing. -/
def Cleanup.Made (a : Automation) (w : World) (k : Cleanup) : Prop := IsFixedPt (k.clean a) w

/-- All the effects of a deletion, as one act. -/
def World.cleanDeletion (w : World) (a : Automation) : World :=
  Cleanup.script.clean a (Cleanup.images.clean a (Cleanup.secret.clean a (Cleanup.capp.clean a w)))

namespace World

variable (w : World)

theorem archived_archive (id : UUID) (actor : String) : (w.archive id actor).archived id := by
  unfold World.archive
  split
  · assumption
  · exact ⟨(id, actor), List.mem_append_right _ (List.mem_singleton_self _), rfl⟩

theorem archive_of_archived {id : UUID} (actor : String) (h : w.archived id) :
    w.archive id actor = w := if_pos h

/-- The archive commutes with whatever leaves the script repository alone. -/
theorem archive_comm {f : World → World} (hkeep : ∀ w, (f w).archives = w.archives)
    (hset : ∀ w l, f { w with archives := l } = { f w with archives := l }) (id : UUID)
    (actor : String) : (f w).archive id actor = f (w.archive id actor) := by
  have hiff : (f w).archived id ↔ w.archived id := by
    unfold World.archived
    rw [hkeep]
  unfold World.archive
  by_cases h : w.archived id
  · rw [if_pos h, if_pos (hiff.mpr h)]
  · rw [if_neg h, if_neg (fun hf => h (hiff.mp hf)), hkeep w]
    exact (hset w _).symm

theorem deleteImages_deleteImage (id : UUID) (entry : String) :
    (w.deleteImage id entry).deleteImages id = w.deleteImages id := by
  ext1
  case images =>
    -- the entry's own condition is implied
    change (w.images.filter _).filter _ = w.images.filter _
    rw [List.filter_filter]
    apply List.filter_congr
    intro i _
    by_cases hi : i.1 = id
    · simp [hi]
    · simp [hi, Prod.ext_iff]
  all_goals rfl

/-- An automation with an empty inventory has no image left. -/
theorem deleteImages_of_empty {id : UUID} (h : w.listImageEntries id = []) :
    w.deleteImages id = w := by
  ext1
  case images =>
    apply List.filter_eq_self.mpr
    intro i hi
    rw [decide_eq_true_eq]
    intro hid
    have hlisted : i.2 ∈ w.listImageEntries id :=
      List.mem_map_of_mem (List.mem_filter.mpr ⟨hi, decide_eq_true hid⟩)
    rw [h] at hlisted
    exact absurd hlisted (List.not_mem_nil)
  all_goals rfl

end World

namespace Cleanup

variable (a : Automation)

theorem clean_idem (k : Cleanup) (w : World) : k.clean a (k.clean a w) = k.clean a w := by
  have hfilter {α : Type} (p : α → Bool) (l : List α) : (l.filter p).filter p = l.filter p := by
    rw [List.filter_filter]
    simp only [Bool.and_self]
  cases k with
  | capp =>
    ext1
    case capps => exact hfilter _ _
    all_goals rfl
  | secret =>
    ext1
    case secrets => exact hfilter _ _
    all_goals rfl
  | images =>
    ext1
    case images => exact hfilter _ _
    all_goals rfl
  | script => exact (w.archive a.id a.updatedBy).archive_of_archived _ (w.archived_archive _ _)

/-- Deleting one image commutes with every effect. -/
theorem clean_deleteImage (k : Cleanup) (id : UUID) (entry : String) (w : World) :
    k.clean a (w.deleteImage id entry) = (k.clean a w).deleteImage id entry := by
  cases k with
  | capp => rfl
  | secret => rfl
  | images =>
    ext1
    case images => exact List.filter_comm _ _ _
    all_goals rfl
  | script =>
    exact w.archive_comm (f := fun w => w.deleteImage id entry) (fun _ => rfl) (fun _ _ => rfl) _ _

theorem clean_comm (k l : Cleanup) : Function.Commute (k.clean a) (l.clean a) := by
  have hscript (k : Cleanup) (w : World) :
      k.clean a (Cleanup.script.clean a w) = Cleanup.script.clean a (k.clean a w) := by
    cases k with
    | script => rfl
    | _ => exact (w.archive_comm (f := Cleanup.clean a _) (fun _ => rfl) (fun _ _ => rfl) _ _).symm
  intro w
  cases l with
  | script => exact hscript k w
  | capp =>
    cases k with
    | script => exact (hscript .capp w).symm
    | _ => rfl
  | secret =>
    cases k with
    | script => exact (hscript .secret w).symm
    | _ => rfl
  | images =>
    cases k with
    | script => exact (hscript .images w).symm
    | _ => rfl

/-- An effect made stays made, whichever effect follows. -/
theorem Made.clean {k : Cleanup} {w : World} (h : k.Made a w) (l : Cleanup) :
    k.Made a (l.clean a w) := h.map (clean_comm a l k)

theorem Made.deleteImage {k : Cleanup} {w : World} (h : k.Made a w) (id : UUID) (entry : String) :
    k.Made a (w.deleteImage id entry) := by
  unfold Made IsFixedPt at *
  rw [clean_deleteImage, h]

theorem made_clean (k : Cleanup) (w : World) : k.Made a (k.clean a w) := clean_idem a k w

end Cleanup

namespace World

variable (w : World) (a : Automation)

/-- The whole deletion absorbs each of its effects. -/
theorem cleanDeletion_clean (k : Cleanup) : (k.clean a w).cleanDeletion a = w.cleanDeletion a := by
  unfold cleanDeletion
  cases k with
  | capp => rw [Cleanup.clean_idem]
  | secret => rw [Cleanup.clean_comm a .capp .secret w, Cleanup.clean_idem]
  | images =>
    rw [Cleanup.clean_comm a .capp .images w, Cleanup.clean_comm a .secret .images,
      Cleanup.clean_idem]
  | script =>
    rw [Cleanup.clean_comm a .capp .script w, Cleanup.clean_comm a .secret .script,
      Cleanup.clean_comm a .images .script, Cleanup.clean_idem]

theorem cleanDeletion_deleteImage (entry : String) :
    (w.deleteImage a.id entry).cleanDeletion a = w.cleanDeletion a := by
  unfold cleanDeletion
  have hsecret := Cleanup.clean_deleteImage a .secret a.id entry (Cleanup.capp.clean a w)
  rw [Cleanup.clean_deleteImage, hsecret]
  exact congrArg _ (deleteImages_deleteImage _ a.id entry)

theorem cleanDeletion_of_made (h : ∀ k, Cleanup.Made a w k) : w.cleanDeletion a = w := by
  have hfix (k : Cleanup) : k.clean a w = w := h k
  rw [cleanDeletion, hfix, hfix, hfix, hfix]

/-- What an automation whose deployment has the pinned name has outside. -/
structure Holdings where
  capps : List Capp
  runAuthSecrets : List (String × String)
  inventory : List String
  archives : List (UUID × String)

def holdings (id : UUID) : Holdings where
  capps := w.capps.filter fun c => c.name = pinnedName id
  runAuthSecrets := w.secrets.filter fun s => s.2 = runAuthSecretName id
  inventory := w.listImageEntries id
  archives := w.archives.filter fun c => c.1 = id

theorem archive_archives (id : UUID) (actor : String) :
    (w.archive id actor).archives =
      if w.archived id then w.archives else w.archives ++ [(id, actor)] := by
  unfold archive
  split
  · rfl
  · rfl

/-- What a filter keeps is not touched by the removal of something else. -/
theorem filter_filter_of_imp {α : Type} {p q : α → Bool} {l : List α} (h : ∀ x, p x = true → q x = true) :
    (l.filter q).filter p = l.filter p := by
  rw [List.filter_filter]
  apply List.filter_congr
  intro x _
  cases hp : p x with
  | true => rw [h x hp, Bool.and_self]
  | false => rw [Bool.false_and]

/-- A clean deletion leaves every other automation as it was. -/
theorem holdings_cleanDeletion {id : UUID} (hid : id ≠ a.id)
    (hpinned : cappNameFor a.id a.cappDeploymentId = pinnedName a.id) :
    (w.cleanDeletion a).holdings id = w.holdings id := by
  have hscript (v : World) : (v.archive a.id a.updatedBy).holdings id = v.holdings id := by
    unfold archive
    split
    · rfl
    · have hother : [(a.id, a.updatedBy)].filter (fun c => decide (c.1 = id)) = [] := by
        simp only [List.filter_cons, hid.symm, decide_false, Bool.false_eq_true, if_false,
          List.filter_nil]
      simp only [holdings, List.filter_append, hother, List.append_nil, listImageEntries]
  have himages (v : World) : (v.deleteImages a.id).holdings id = v.holdings id := by
    have hkept : (v.images.filter fun i => i.1 ≠ a.id).filter (fun i => decide (i.1 = id)) =
        v.images.filter fun i => i.1 = id := by
      apply filter_filter_of_imp
      intro i hi
      rw [decide_eq_true_eq] at hi ⊢
      rw [hi]
      exact hid
    simp only [holdings, deleteImages, listImageEntries, hkept]
  have hsecret (v : World) (wallet : String) :
      (v.deleteSecret wallet (runAuthSecretName a.id)).holdings id = v.holdings id := by
    have hkept : (v.secrets.filter fun s => s ≠ (wallet, runAuthSecretName a.id)).filter
        (fun s => decide (s.2 = runAuthSecretName id)) =
        v.secrets.filter fun s => s.2 = runAuthSecretName id := by
      apply filter_filter_of_imp
      intro s hs
      rw [decide_eq_true_eq] at hs ⊢
      intro he
      rw [he] at hs
      exact hid (runAuthSecretName_injective hs).symm
    simp only [holdings, deleteSecret, listImageEntries, hkept]
  have hcapp (v : World) (wallet : String) :
      (v.deleteCapp wallet (pinnedName a.id)).holdings id = v.holdings id := by
    have hkept : (v.capps.filter fun c => ¬(c.wallet = wallet ∧ c.name = pinnedName a.id)).filter
        (fun c => decide (c.name = pinnedName id)) =
        v.capps.filter fun c => c.name = pinnedName id := by
      apply filter_filter_of_imp
      intro c hc
      rw [decide_eq_true_eq] at hc ⊢
      rintro ⟨-, hname⟩
      exact hid (pinnedName_injective (hc.symm.trans hname))
    simp only [holdings, deleteCapp, listImageEntries, hkept]
  calc (w.cleanDeletion a).holdings id
      = (Cleanup.images.clean a (Cleanup.secret.clean a (Cleanup.capp.clean a w))).holdings id :=
        hscript _
    _ = (Cleanup.secret.clean a (Cleanup.capp.clean a w)).holdings id := himages _
    _ = (Cleanup.capp.clean a w).holdings id := hsecret _ _
    _ = w.holdings id := by rw [Cleanup.clean, hpinned, hcapp]

/-- A clean deletion archives the script with one commit, unless it is archived. -/
theorem archives_cleanDeletion : (w.cleanDeletion a).archives =
    if w.archived a.id then w.archives else w.archives ++ [(a.id, a.updatedBy)] :=
  archive_archives _ _ _

end World

end KeepAutomation
