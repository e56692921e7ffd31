import KeepAutomation.DefinitionRules

/-! What the trigger and cooldown rules accept, where they point, and how much
they report. The loop over the triggers is compared with a report that looks back
at the entries before each entry instead of carrying `seenFields`. -/
namespace KeepAutomation.Validation

open PythonText

/-- An object with exactly the string members `field` and `value`. -/
def IsCondition (condition : Value) (name value : Str) : Prop :=
  ∃ members, condition = .dict members ∧
    (∀ key, (∃ v, get members key = some v) ↔ key = lit "field" ∨ key = lit "value") ∧
    get members (lit "field") = some (.str name) ∧ get members (lit "value") = some (.str value)

theorem asCondition_eq_some {condition : Value} {name value : Str} :
    asCondition condition = some (name, value) ↔ IsCondition condition name value := by
  constructor
  · intro h
    unfold asCondition at h
    split at h
    · next members =>
      split at h
      · next hkeys =>
        split at h
        · next hname hvalue =>
          simp only [Option.some.injEq, Prod.mk.injEq] at h
          obtain ⟨rfl, rfl⟩ := h
          refine ⟨members, rfl, fun key => ?_, hname, hvalue⟩
          rw [← mem_keys, hkeys, Finset.mem_insert, Finset.mem_singleton]
        · simp at h
      · simp at h
    · simp at h
  · rintro ⟨members, rfl, hkeys, hname, hvalue⟩
    have hset : keys members = {lit "field", lit "value"} := by
      ext key
      rw [mem_keys, hkeys, Finset.mem_insert, Finset.mem_singleton]
    simp only [asCondition, hset, if_true, hname, hvalue]

theorem asCondition_eq_none {condition : Value} :
    asCondition condition = none ↔ ∀ name value, ¬IsCondition condition name value := by
  simp only [Option.eq_none_iff_forall_ne_some, Prod.forall, ne_eq, asCondition_eq_some]

theorem IsCondition.unique {condition : Value} {name name' value value' : Str}
    (h : IsCondition condition name value) (h' : IsCondition condition name' value') :
    name = name' ∧ value = value' := by
  have hc := asCondition_eq_some.mpr h
  rw [asCondition_eq_some.mpr h'] at hc
  have hpair := Prod.mk.inj (Option.some.inj hc)
  exact ⟨hpair.1.symm, hpair.2.symm⟩

section Report

/-- The fields of the well-shaped entries of a list. -/
def conditionNames (entries : List Value) : List Str :=
  entries.filterMap fun t => (asCondition t).map Prod.fst

theorem mem_conditionNames {entries : List Value} {name : Str} :
    name ∈ conditionNames entries ↔ ∃ t ∈ entries, ∃ value, IsCondition t name value := by
  simp only [conditionNames, List.mem_filterMap, Option.map_eq_some_iff, Prod.exists,
    exists_and_right, exists_eq_right, asCondition_eq_some]

theorem conditionNames_snoc (entries : List Value) {t : Value} {name value : Str}
    (h : asCondition t = some (name, value)) :
    conditionNames (entries ++ [t]) = conditionNames entries ++ [name] := by
  simp only [conditionNames, List.filterMap_append, List.filterMap_cons, h, Option.map_some,
    List.filterMap_nil]

/-- The errors of the entry that stands behind `before`. -/
def entryErrors (before : List Value) (condition : Value) : List FieldError :=
  match asCondition condition with
  | none => [invalidTriggerShape before.length]
  | some (name, value) =>
    valueErrors before.length (utf8 value) ++
      if name ∉ matchableFields then [unknownTriggerField before.length name]
      else if name ∈ conditionNames before then [duplicateTriggerField before.length name] else []

theorem mem_valueErrors {i : ℕ} {bytes : List Byte} {e : FieldError} :
    e ∈ valueErrors i bytes ↔ triggerValueMaxBytes < bytes.length ∧ e = triggerValueTooLong i := by
  unfold valueErrors
  split
  · next h => simp only [List.mem_singleton, h, true_and]
  · next h => simp only [List.not_mem_nil, h, false_and]

/-- An entry is reported for its shape, or for its value, its field or the
repetition of the field. -/
theorem mem_entryErrors {before : List Value} {condition : Value} {e : FieldError} :
    e ∈ entryErrors before condition ↔
      ((∀ name value, ¬IsCondition condition name value) ∧ e = invalidTriggerShape before.length) ∨
        ∃ name value, IsCondition condition name value ∧
          ((triggerValueMaxBytes < (utf8 value).length ∧ e = triggerValueTooLong before.length) ∨
            (name ∉ matchableFields ∧ e = unknownTriggerField before.length name) ∨
            (name ∈ matchableFields ∧ name ∈ conditionNames before ∧
              e = duplicateTriggerField before.length name)) := by
  unfold entryErrors
  cases hc : asCondition condition with
  | none =>
    have hnone := asCondition_eq_none.mp hc
    rw [List.mem_singleton, and_iff_right hnone, or_iff_left]
    rintro ⟨name, value, h, -⟩
    exact hnone name value h
  | some p =>
    obtain ⟨name, value⟩ := p
    have hcond := asCondition_eq_some.mp hc
    have hfield : (e ∈ if name ∉ matchableFields then [unknownTriggerField before.length name]
        else if name ∈ conditionNames before then [duplicateTriggerField before.length name] else []) ↔
        (name ∉ matchableFields ∧ e = unknownTriggerField before.length name) ∨
          (name ∈ matchableFields ∧ name ∈ conditionNames before ∧
            e = duplicateTriggerField before.length name) := by
      by_cases hm : name ∈ matchableFields
      · by_cases hdup : name ∈ conditionNames before
        · simp only [hm, hdup, not_true_eq_false, if_false, if_true, List.mem_singleton, false_and,
            true_and, false_or]
        · simp only [hm, hdup, not_true_eq_false, if_false, List.not_mem_nil, false_and, and_false,
            or_self]
      · simp only [hm, not_false_eq_true, if_true, List.mem_singleton, true_and, false_and, or_false]
    rw [List.mem_append, mem_valueErrors, hfield]
    constructor
    · exact fun h => Or.inr ⟨name, value, hcond, h⟩
    · rintro (⟨hnone, -⟩ | ⟨name', value', hcond', h⟩)
      · exact absurd hcond (hnone name value)
      · obtain ⟨rfl, rfl⟩ := hcond.unique hcond'
        exact h

/-- The errors of all entries behind `before`. -/
def reported (before : List Value) : List Value → List FieldError
  | [] => []
  | condition :: rest => entryErrors before condition ++ reported (before ++ [condition]) rest

/-- The loop has recorded the matchable fields it has come by, and only these. -/
def Tracks (seenFields : List (Str × ℕ)) (before : List Value) : Prop :=
  ∀ name, name ∈ seenFields.map Prod.fst ↔ name ∈ matchableFields ∧ name ∈ conditionNames before

/-- The values of the well-shaped entries are encodable text. -/
def EncodableValues (triggers : List Value) : Prop :=
  ∀ t ∈ triggers, ∀ name value, IsCondition t name value → IsUtf8 value

/-- An entry without a new matchable field leaves the record as it is. -/
theorem Tracks.skip {seenFields : List (Str × ℕ)} {before : List Value} {condition : Value}
    (hseen : Tracks seenFields before)
    (hold : ∀ name value, asCondition condition = some (name, value) → name ∈ matchableFields →
      name ∈ conditionNames before) : Tracks seenFields (before ++ [condition]) := by
  intro name
  rw [hseen name, and_congr_right_iff]
  intro hmatchable
  cases hc : asCondition condition with
  | none =>
    simp only [conditionNames, List.filterMap_append, List.filterMap_cons, hc, Option.map_none,
      List.filterMap_nil, List.append_nil]
  | some p =>
    rw [conditionNames_snoc before hc, List.mem_append, List.mem_singleton]
    constructor
    · exact Or.inl
    · rintro (hin | rfl)
      · exact hin
      · exact hold p.1 p.2 hc hmatchable

/-- A new matchable field is recorded. -/
theorem Tracks.record {seenFields : List (Str × ℕ)} {before : List Value} {condition : Value}
    {name value : Str} (hseen : Tracks seenFields before) (i : ℕ)
    (hc : asCondition condition = some (name, value)) (hmatchable : name ∈ matchableFields) :
    Tracks (seenFields ++ [(name, i)]) (before ++ [condition]) := by
  intro other
  rw [conditionNames_snoc before hc, List.map_append, List.mem_append, hseen other, List.mem_append]
  simp only [List.map_cons, List.map_nil, List.mem_singleton]
  constructor
  · rintro (⟨hm, hin⟩ | rfl)
    · exact ⟨hm, Or.inl hin⟩
    · exact ⟨hmatchable, Or.inr rfl⟩
  · rintro ⟨hm, hin | rfl⟩
    · exact Or.inl ⟨hm, hin⟩
    · exact Or.inr rfl

/-- One pass of the loop reports the entry's errors and keeps the record. -/
theorem checkCondition_spec {before : List Value} {seenFields : List (Str × ℕ)} {condition : Value}
    (hseen : Tracks seenFields before)
    (henc : ∀ name value, IsCondition condition name value → IsUtf8 value) :
    ∃ seenFields', checkCondition before.length seenFields condition =
        .ok (entryErrors before condition, seenFields') ∧
      Tracks seenFields' (before ++ [condition]) := by
  unfold checkCondition entryErrors
  cases hc : asCondition condition with
  | none =>
    refine ⟨seenFields, rfl, hseen.skip fun name value h => ?_⟩
    rw [hc] at h
    simp at h
  | some p =>
    obtain ⟨name, value⟩ := p
    have hbytes : encode value = some (utf8 value) :=
      encode_eq_some.mpr ⟨henc name value (asCondition_eq_some.mp hc), rfl⟩
    have hname {n v : Str} (h : asCondition condition = some (n, v)) : n = name := by
      rw [hc] at h
      exact (Prod.mk.inj (Option.some.inj h)).1.symm
    simp only [hbytes]
    by_cases hfield : name ∈ matchableFields
    · by_cases hdup : name ∈ conditionNames before
      · -- a repeated field is recorded already
        have hrec : name ∈ seenFields.map Prod.fst := (hseen name).mpr ⟨hfield, hdup⟩
        refine ⟨seenFields, ?_, hseen.skip fun n v h _ => hname h ▸ hdup⟩
        simp only [hfield, not_true_eq_false, if_false, hrec, if_true, hdup]
      · have hrec : name ∉ seenFields.map Prod.fst := fun h => hdup ((hseen name).mp h).2
        refine ⟨seenFields ++ [(name, before.length)], ?_, hseen.record before.length hc hfield⟩
        simp only [hfield, not_true_eq_false, if_false, hrec, hdup, List.append_nil]
    · -- an unknown field is never recorded
      refine ⟨seenFields, ?_, hseen.skip fun n v h hm => absurd (hname h ▸ hm) hfield⟩
      simp only [hfield, not_false_eq_true, if_true]

theorem checkConditions_spec {triggers : List Value} (henc : EncodableValues triggers) :
    ∀ {before : List Value} {seenFields : List (Str × ℕ)}, Tracks seenFields before →
      checkConditions before.length seenFields triggers = .ok (reported before triggers) := by
  induction triggers with
  | nil =>
    intro before seenFields _
    rfl
  | cons condition rest ih =>
    intro before seenFields hseen
    obtain ⟨seenFields', hpass, hseen'⟩ := checkCondition_spec hseen
      fun name value => henc condition (List.mem_cons_self ..) name value
    have hrest := ih (fun t ht => henc t (List.mem_cons_of_mem _ ht)) hseen'
    rw [List.length_append, List.length_singleton] at hrest
    simp only [checkConditions, hpass, hrest, reported]

/-- Within the cap: the count rule and the report of the entries. -/
theorem validateTriggers_spec {triggers : List Value} (henc : EncodableValues triggers)
    (hcap : triggers.length ≤ triggersMax) :
    validateTriggers triggers =
      .ok ((if triggers.length < triggersMin then [triggersTooFew] else []) ++ reported [] triggers) := by
  have hstart : Tracks [] [] := by
    intro name
    simp only [conditionNames, List.map_nil, List.filterMap_nil, List.not_mem_nil, and_false]
  have hloop := checkConditions_spec henc hstart
  rw [List.length_nil] at hloop
  simp only [validateTriggers, Nat.not_lt.mpr hcap, if_false, hloop]

end Report

section Locating

/-- Entry `i` breaks a rule, which is reported under a code of its own. -/
inductive TriggerDefect (triggers : List Value) (i : ℕ) : ErrorCode → Prop where
  | shape {t : Value} : triggers[i]? = some t → (∀ name value, ¬IsCondition t name value) →
      TriggerDefect triggers i .invalidTriggerShape
  | value {t : Value} {name value : Str} : triggers[i]? = some t → IsCondition t name value →
      triggerValueMaxBytes < (utf8 value).length → TriggerDefect triggers i .triggerValueTooLong
  | field {t : Value} {name value : Str} : triggers[i]? = some t → IsCondition t name value →
      name ∉ matchableFields → TriggerDefect triggers i .unknownField
  | repeated {t : Value} {name value : Str} : triggers[i]? = some t → IsCondition t name value →
      name ∈ matchableFields →
      (∃ j u w, j < i ∧ triggers[j]? = some u ∧ IsCondition u name w) →
      TriggerDefect triggers i .triggersDuplicateField

theorem mem_conditionNames_take {triggers : List Value} {i : ℕ} {name : Str} :
    name ∈ conditionNames (triggers.take i) ↔
      ∃ j u w, j < i ∧ triggers[j]? = some u ∧ IsCondition u name w := by
  rw [mem_conditionNames]
  constructor
  · rintro ⟨u, hu, w, hw⟩
    obtain ⟨j, hj⟩ := List.mem_iff_getElem?.mp hu
    have hlt : j < i := by
      by_contra hge
      rw [List.getElem?_eq_none (by simp only [List.length_take]; omega)] at hj
      simp at hj
    rw [List.getElem?_take_of_lt hlt] at hj
    exact ⟨j, u, w, hlt, hj, hw⟩
  · rintro ⟨j, u, w, hlt, hj, hw⟩
    refine ⟨u, List.mem_iff_getElem?.mpr ⟨j, ?_⟩, w, hw⟩
    rw [List.getElem?_take_of_lt hlt]
    exact hj

/-- Every error of an entry points at the entry. -/
theorem entryErrors_pointsAt {before : List Value} {condition : Value} {e : FieldError}
    (h : e ∈ entryErrors before condition) (j : ℕ) :
    PointsAt (lit "triggers") j e.field ↔ before.length = j := by
  rcases mem_entryErrors.mp h with ⟨-, rfl⟩ | ⟨name, value, -, ⟨-, rfl⟩ | ⟨-, rfl⟩ | ⟨-, -, rfl⟩⟩
  · exact pointsAt_entryPath
  · exact pointsAt_entryPath
  · exact pointsAt_entryPath
  · exact pointsAt_entryPath

/-- The errors of entry `i` are its defects. -/
theorem entryErrors_defect {triggers : List Value} {i : ℕ} {t : Value} (ht : triggers[i]? = some t)
    (code : ErrorCode) :
    (∃ e ∈ entryErrors (triggers.take i) t, e.code = code) ↔ TriggerDefect triggers i code := by
  have hsome {u : Value} (hu : triggers[i]? = some u) : u = t := by
    rw [ht] at hu
    exact (Option.some.inj hu).symm
  constructor
  · rintro ⟨e, he, rfl⟩
    rcases mem_entryErrors.mp he with ⟨hnone, rfl⟩ |
      ⟨name, value, hcond, ⟨hlong, rfl⟩ | ⟨hfield, rfl⟩ | ⟨hfield, hdup, rfl⟩⟩
    · exact .shape ht hnone
    · exact .value ht hcond hlong
    · exact .field ht hcond hfield
    · exact .repeated ht hcond hfield (mem_conditionNames_take.mp hdup)
  · intro h
    cases h with
    | shape hu hshape =>
      have hnone := hsome hu ▸ hshape
      exact ⟨_, mem_entryErrors.mpr (Or.inl ⟨hnone, rfl⟩), rfl⟩
    | value hu hcond hlong =>
      have hcond := hsome hu ▸ hcond
      exact ⟨_, mem_entryErrors.mpr (Or.inr ⟨_, _, hcond, Or.inl ⟨hlong, rfl⟩⟩), rfl⟩
    | field hu hcond hfield =>
      have hcond := hsome hu ▸ hcond
      exact ⟨_, mem_entryErrors.mpr (Or.inr ⟨_, _, hcond, Or.inr (Or.inl ⟨hfield, rfl⟩)⟩), rfl⟩
    | repeated hu hcond hfield hdup =>
      have hcond := hsome hu ▸ hcond
      have hnames := mem_conditionNames_take.mpr hdup
      exact ⟨_, mem_entryErrors.mpr (Or.inr ⟨_, _, hcond, Or.inr (Or.inr ⟨hfield, hnames, rfl⟩)⟩), rfl⟩

/-- The report collects the errors of its entries. -/
theorem mem_reported {triggers : List Value} {e : FieldError} :
    ∀ {before : List Value}, e ∈ reported before triggers ↔
      ∃ i t, triggers[i]? = some t ∧ e ∈ entryErrors (before ++ triggers.take i) t := by
  induction triggers with
  | nil =>
    intro before
    simp [reported]
  | cons condition rest ih =>
    intro before
    rw [reported, List.mem_append, ih]
    constructor
    · rintro (h | ⟨i, t, ht, he⟩)
      · refine ⟨0, condition, rfl, ?_⟩
        rw [List.take_zero, List.append_nil]
        exact h
      · refine ⟨i+1, t, ht, ?_⟩
        simpa only [List.take_succ_cons, List.append_assoc, List.singleton_append] using he
    · rintro ⟨i, t, ht, he⟩
      cases i with
      | zero =>
        rw [List.getElem?_cons_zero, Option.some.injEq] at ht
        rw [List.take_zero, List.append_nil] at he
        exact Or.inl (ht ▸ he)
      | succ i =>
        refine Or.inr ⟨i, t, ht, ?_⟩
        simpa only [List.take_succ_cons, List.append_assoc, List.singleton_append] using he

/-- Within the cap an error points at an entry with the code of a defect it has. -/
theorem validateTriggers_locates {triggers : List Value} (i : ℕ) (code : ErrorCode) :
    (∃ e ∈ (if triggers.length < triggersMin then [triggersTooFew] else []) ++ reported [] triggers,
      e.code = code ∧ PointsAt (lit "triggers") i e.field) ↔ TriggerDefect triggers i code := by
  constructor
  · rintro ⟨e, he, rfl, hpath⟩
    rcases List.mem_append.mp he with he | he
    · -- the count rule points at the list itself
      split at he
      · rw [List.mem_singleton.mp he] at hpath
        exact absurd hpath (not_pointsAt_root _ i)
      · simp at he
    · obtain ⟨j, t, ht, he⟩ := mem_reported.mp he
      rw [List.nil_append] at he
      have hj : (triggers.take j).length = i := (entryErrors_pointsAt he i).mp hpath
      have hlt : j < triggers.length := (List.getElem?_eq_some_iff.mp ht).1
      rw [List.length_take, Nat.min_eq_left hlt.le] at hj
      subst hj
      exact (entryErrors_defect ht e.code).mp ⟨e, he, rfl⟩
  · intro h
    have hentry : ∃ t, triggers[i]? = some t := by
      cases h with
      | shape ht | value ht | field ht | repeated ht => exact ⟨_, ht⟩
    obtain ⟨t, ht⟩ := hentry
    have hlt : i < triggers.length := (List.getElem?_eq_some_iff.mp ht).1
    obtain ⟨e, he, hcode⟩ := (entryErrors_defect ht code).mpr h
    refine ⟨e, List.mem_append_right _ (mem_reported.mpr ⟨i, t, ht, he⟩), hcode, ?_⟩
    apply (entryErrors_pointsAt he i).mpr
    rw [List.length_take, Nat.min_eq_left hlt.le]

end Locating

section Accepting

/-- What the trigger index can match: enough conditions and not too many, each
with a field of its own and a value that fits. -/
structure Matchable (triggers : List Value) : Prop where
  min : triggersMin ≤ triggers.length
  max : triggers.length ≤ triggersMax
  conditions : ∃ conditions : List (Str × Str),
    List.Forall₂ (fun t c => IsCondition t c.1 c.2) triggers conditions ∧
    (∀ c ∈ conditions, c.1 ∈ matchableFields ∧ (utf8 c.2).length ≤ triggerValueMaxBytes) ∧
    (conditions.map Prod.fst).Nodup

theorem entryErrors_eq_nil {before : List Value} {t : Value} :
    entryErrors before t = [] ↔ ∃ name value, asCondition t = some (name, value) ∧
      name ∈ matchableFields ∧ (utf8 value).length ≤ triggerValueMaxBytes ∧
      name ∉ conditionNames before := by
  unfold entryErrors
  cases hc : asCondition t with
  | none => simp only [reduceCtorEq, false_and, exists_false, List.cons_ne_nil]
  | some p =>
    obtain ⟨name, value⟩ := p
    have hsize : valueErrors before.length (utf8 value) = [] ↔
        (utf8 value).length ≤ triggerValueMaxBytes := by
      unfold valueErrors
      split
      · next hlong => simp only [List.cons_ne_nil, false_iff, not_le, hlong]
      · next hlong => simp only [not_lt.mp hlong]
    simp only [Option.some.injEq, Prod.mk.injEq, List.append_eq_nil_iff, hsize]
    constructor
    · rintro ⟨hle, hfield⟩
      split at hfield
      · simp at hfield
      · next hmem =>
        split at hfield
        · simp at hfield
        · next hnew => exact ⟨name, value, ⟨rfl, rfl⟩, not_not.mp hmem, hle, hnew⟩
    · rintro ⟨name', value', ⟨rfl, rfl⟩, hmem, hle, hnew⟩
      refine ⟨hle, ?_⟩
      rw [if_neg (not_not.mpr hmem), if_neg hnew]

/-- Nothing is reported of entries that are conditions, each on a new field. -/
theorem reported_eq_nil {triggers : List Value} : ∀ {before : List Value},
    reported before triggers = [] ↔ ∃ conditions : List (Str × Str),
      List.Forall₂ (fun t c => IsCondition t c.1 c.2) triggers conditions ∧
      (∀ c ∈ conditions, c.1 ∈ matchableFields ∧ (utf8 c.2).length ≤ triggerValueMaxBytes) ∧
      (conditions.map Prod.fst).Nodup ∧ ∀ c ∈ conditions, c.1 ∉ conditionNames before := by
  induction triggers with
  | nil =>
    intro before
    refine ⟨fun _ => ⟨[], .nil, by simp, List.nodup_nil, by simp⟩, fun _ => rfl⟩
  | cons t rest ih =>
    intro before
    rw [reported, List.append_eq_nil_iff, entryErrors_eq_nil, ih]
    constructor
    · rintro ⟨⟨name, value, hc, hmem, hle, hnew⟩, conditions, hall, hok, hnodup, hfresh⟩
      rw [conditionNames_snoc _ hc] at hfresh
      refine ⟨(name, value) :: conditions, .cons (asCondition_eq_some.mp hc) hall, ?_, ?_, ?_⟩
      · intro c h
        rcases List.mem_cons.mp h with rfl | h
        · exact ⟨hmem, hle⟩
        · exact hok c h
      · rw [List.map_cons, List.nodup_cons]
        refine ⟨?_, hnodup⟩
        intro h
        obtain ⟨c, hin, hname⟩ := List.mem_map.mp h
        apply hfresh c hin
        rw [hname]
        exact List.mem_append_right _ (List.mem_singleton.mpr rfl)
      · intro c h
        rcases List.mem_cons.mp h with rfl | h
        · exact hnew
        · exact fun hin => hfresh c h (List.mem_append_left _ hin)
    · rintro ⟨conditions, hall, hok, hnodup, hfresh⟩
      cases hall with
      | @cons _ c _ conditions hcond hall =>
        have hc := asCondition_eq_some.mpr hcond
        obtain ⟨hmem, hle⟩ := hok c (List.mem_cons_self ..)
        rw [List.map_cons, List.nodup_cons] at hnodup
        refine ⟨⟨c.1, c.2, hc, hmem, hle, hfresh c (List.mem_cons_self ..)⟩, conditions, hall,
          fun d hd => hok d (List.mem_cons_of_mem _ hd), hnodup.2, fun d hd => ?_⟩
        rw [conditionNames_snoc _ hc, List.mem_append, List.mem_singleton]
        rintro (hin | hname)
        · exact hfresh d (List.mem_cons_of_mem _ hd) hin
        · exact hnodup.1 (List.mem_map.mpr ⟨d, hd, hname⟩)

end Accepting

section Bounding

theorem entryErrors_length_le (before : List Value) (t : Value) :
    (entryErrors before t).length ≤ 2 := by
  unfold entryErrors
  split
  · exact Nat.le_succ 1
  · next name value _ =>
    have hvalue : (valueErrors before.length (utf8 value)).length ≤ 1 := by
      unfold valueErrors
      split <;> simp
    rw [List.length_append]
    split
    · simpa using hvalue
    · split
      · simpa using hvalue
      · simpa using Nat.le_succ_of_le hvalue

theorem reported_length_le (before triggers : List Value) :
    (reported before triggers).length ≤ 2*triggers.length := by
  induction triggers generalizing before with
  | nil => exact Nat.zero_le _
  | cons t rest ih =>
    have hentry := entryErrors_length_le before t
    have hrest := ih (before ++ [t])
    rw [reported, List.length_append, List.length_cons]
    omega

end Bounding

section Cooldown

variable (format : Value → Str)

/-- What the cooldown rules accept. -/
def CooldownValid (cooldownSeconds : Option ℤ) (cooldownFields : Option (List Value)) : Prop :=
  (cooldownSeconds = none ∧ cooldownFields = none) ∨
    ∃ seconds fields, cooldownSeconds = some seconds ∧ cooldownFields = some fields ∧
      1 ≤ seconds ∧ seconds ≤ cooldownSecondsMax ∧ fields.length ≤ cooldownFieldsMax ∧
      ∀ v ∈ fields, ∃ name ∈ matchableFields, v = .str name

theorem isMatchable_iff {v : Value} : isMatchable v = true ↔ ∃ name ∈ matchableFields, v = .str name := by
  constructor
  · intro h
    unfold isMatchable at h
    split at h
    · next name => exact ⟨name, of_decide_eq_true h, rfl⟩
    · simp at h
  · rintro ⟨name, hname, rfl⟩
    exact decide_eq_true hname

theorem mem_checkCooldownFields {fields : List Value} {e : FieldError} : ∀ {i : ℕ},
    e ∈ checkCooldownFields format i fields ↔
      ∃ j v, fields[j]? = some v ∧ isMatchable v = false ∧ e = unknownCooldownField format (i+j) v := by
  induction fields with
  | nil =>
    intro i
    simp [checkCooldownFields]
  | cons v rest ih =>
    intro i
    rw [checkCooldownFields, List.mem_append, ih]
    constructor
    · rintro (h | ⟨j, w, hw, hbad, rfl⟩)
      · split at h
        · simp at h
        · next hbad =>
          rw [List.mem_singleton.mp h]
          exact ⟨0, v, rfl, Bool.not_eq_true _ ▸ hbad, rfl⟩
      · refine ⟨j+1, w, hw, hbad, ?_⟩
        rw [Nat.add_right_comm, Nat.add_assoc]
    · rintro ⟨j, w, hw, hbad, rfl⟩
      cases j with
      | zero =>
        rw [List.getElem?_cons_zero, Option.some.injEq] at hw
        subst hw
        exact Or.inl (by simp only [hbad, Bool.false_eq_true, if_false, Nat.add_zero,
          List.mem_singleton])
      | succ j =>
        refine Or.inr ⟨j, w, hw, hbad, ?_⟩
        rw [Nat.add_right_comm, Nat.add_assoc]

theorem checkCooldownFields_length_le {fields : List Value} : ∀ {i : ℕ},
    (checkCooldownFields format i fields).length ≤ fields.length := by
  induction fields with
  | nil =>
    intro i
    exact Nat.zero_le _
  | cons v rest ih =>
    intro i
    have hrest := ih (i := i+1)
    rw [checkCooldownFields, List.length_append, List.length_cons]
    split
    · simp only [List.length_nil]
      omega
    · simp only [List.length_singleton]
      omega

theorem validateRange_eq_nil {error : FieldError} {low high : ℤ} {value : Option ℤ} :
    validateRange error low high value = [] ↔ ∀ n, value = some n → low ≤ n ∧ n ≤ high := by
  cases value with
  | none => simp only [validateRange, reduceCtorEq, false_implies, implies_true]
  | some n =>
    simp only [validateRange, Option.some.injEq, forall_eq']
    split
    · next h =>
      simp only [List.cons_ne_nil, false_iff]
      omega
    · next h =>
      simp only [true_iff]
      omega

theorem checkCooldownFields_eq_nil {fields : List Value} {i : ℕ} :
    checkCooldownFields format i fields = [] ↔
      ∀ v ∈ fields, ∃ name ∈ matchableFields, v = .str name := by
  rw [List.eq_nil_iff_forall_not_mem]
  constructor
  · intro h v hv
    obtain ⟨j, hj⟩ := List.mem_iff_getElem?.mp hv
    rw [← isMatchable_iff]
    by_contra hbad
    exact h _ ((mem_checkCooldownFields format).mpr ⟨j, v, hj, Bool.not_eq_true _ ▸ hbad, rfl⟩)
  · intro h e he
    obtain ⟨j, v, hj, hbad, -⟩ := (mem_checkCooldownFields format).mp he
    have hgood := isMatchable_iff.mpr (h v (List.mem_iff_getElem?.mpr ⟨j, hj⟩))
    rw [hbad] at hgood
    simp at hgood

theorem boundedCooldownFields_length_le (fields : List Value) :
    (boundedCooldownFields format fields).length ≤ cooldownFieldsMax := by
  unfold boundedCooldownFields
  split
  · decide
  · next hcap =>
    exact le_trans (checkCooldownFields_length_le format) (Nat.not_lt.mp hcap)

/-- An error of the two rules before the fields points at no entry. -/
theorem cooldown_header {cooldownSeconds : Option ℤ} {cooldownFields : Option (List Value)}
    {e : FieldError} (h : e ∈ validateRange cooldownOutOfRange 1 cooldownSecondsMax cooldownSeconds ∨
      e ∈ checkCooldownCoupling cooldownSeconds cooldownFields) (i : ℕ) :
    ¬PointsAt (lit "cooldown_fields") i e.field := by
  have hfield : e.field = lit "cooldown_seconds" ∨ e.field = lit "cooldown_fields" := by
    rcases h with h | h
    · unfold validateRange at h
      split at h
      · simp at h
      · split at h
        · rw [List.mem_singleton.mp h]
          exact Or.inl rfl
        · simp at h
    · unfold checkCooldownCoupling at h
      split at h
      · rw [List.mem_singleton.mp h]
        exact Or.inr rfl
      · rw [List.mem_singleton.mp h]
        exact Or.inr rfl
      · simp at h
  rcases hfield with hfield | hfield
  · rintro ⟨rest, hpath⟩
    rw [hfield] at hpath
    -- the two names part at their tenth character
    have hten := congrArg (fun s : Str => s.drop 9) hpath
    have : (lit "seconds") = lit "fields" ++ (lit "[" ++ (decimal i ++ (lit "]" ++ rest))) := hten
    exact absurd (congrArg List.head? this) (by simp [lit, ofChar])
  · rw [hfield]
    exact not_pointsAt_root _ i

theorem validateCooldown_eq_nil {cooldownSeconds : Option ℤ} {cooldownFields : Option (List Value)} :
    validateCooldown format cooldownSeconds cooldownFields = [] ↔
      CooldownValid cooldownSeconds cooldownFields := by
  unfold validateCooldown
  rw [List.append_eq_nil_iff, List.append_eq_nil_iff, validateRange_eq_nil]
  cases cooldownSeconds with
  | none =>
    cases cooldownFields with
    | none => exact ⟨fun _ => Or.inl ⟨rfl, rfl⟩, fun _ => ⟨by simp, rfl, rfl⟩⟩
    | some fields => simp [checkCooldownCoupling, CooldownValid]
  | some seconds =>
    cases cooldownFields with
    | none => simp [checkCooldownCoupling, CooldownValid]
    | some fields =>
      simp only [Option.some.injEq, forall_eq', checkCooldownCoupling, Option.getD_some, true_and,
        CooldownValid, reduceCtorEq, false_and, false_or]
      constructor
      · rintro ⟨⟨hlow, hhigh⟩, hfields⟩
        unfold boundedCooldownFields at hfields
        split at hfields
        · simp at hfields
        · next hcap =>
          exact ⟨seconds, fields, rfl, rfl, hlow, hhigh, Nat.not_lt.mp hcap,
            (checkCooldownFields_eq_nil format).mp hfields⟩
      · rintro ⟨_, _, rfl, rfl, hlow, hhigh, hcap, hall⟩
        refine ⟨⟨hlow, hhigh⟩, ?_⟩
        rw [boundedCooldownFields, if_neg (Nat.not_lt.mpr hcap)]
        exact (checkCooldownFields_eq_nil format).mpr hall

/-- Within the cap the errors that point at an entry are those of unmatchable ones. -/
theorem validateCooldown_locates {cooldownSeconds : Option ℤ} {cooldownFields : Option (List Value)}
    (hcap : (cooldownFields.getD []).length ≤ cooldownFieldsMax) (i : ℕ) (code : ErrorCode) :
    (∃ e ∈ validateCooldown format cooldownSeconds cooldownFields,
      e.code = code ∧ PointsAt (lit "cooldown_fields") i e.field) ↔
      code = .unknownField ∧ ∃ v, (cooldownFields.getD [])[i]? = some v ∧
        ∀ name ∈ matchableFields, v ≠ .str name := by
  rw [validateCooldown, boundedCooldownFields, if_neg (Nat.not_lt.mpr hcap)]
  constructor
  · rintro ⟨e, he, rfl, hpath⟩
    rw [← List.append_assoc, List.mem_append, List.mem_append] at he
    rcases he with he | he
    · exact absurd hpath (cooldown_header he i)
    · obtain ⟨j, v, hv, hbad, rfl⟩ := (mem_checkCooldownFields format).mp he
      have hij : 0+j = i := pointsAt_entryPath.mp hpath
      rw [Nat.zero_add] at hij
      subst hij
      refine ⟨rfl, v, hv, fun name hname hv => ?_⟩
      rw [isMatchable_iff.mpr ⟨name, hname, hv⟩] at hbad
      simp at hbad
  · rintro ⟨rfl, v, hv, hnone⟩
    have hbad : isMatchable v = false := by
      rw [← Bool.not_eq_true, isMatchable_iff]
      rintro ⟨name, hname, rfl⟩
      exact hnone name hname rfl
    refine ⟨unknownCooldownField format (0+i) v, ?_, rfl, ?_⟩
    · apply List.mem_append_right
      apply List.mem_append_right
      exact (mem_checkCooldownFields format).mpr ⟨i, v, hv, hbad, rfl⟩
    · exact pointsAt_entryPath.mpr (Nat.zero_add i)

theorem validateRange_length_le (error : FieldError) (low high : ℤ) (value : Option ℤ) :
    (validateRange error low high value).length ≤ if value.isSome then 1 else 0 := by
  unfold validateRange
  split
  · exact Nat.zero_le _
  · split
    · exact le_rfl
    · exact Nat.zero_le _

/-- The range rule needs seconds; where it has them, the coupling rule reports only
if there are no fields. -/
theorem validateCooldown_length_le {cooldownSeconds : Option ℤ} {cooldownFields : Option (List Value)} :
    (validateCooldown format cooldownSeconds cooldownFields).length ≤ cooldownFieldsMax+1 := by
  have hrange := validateRange_length_le cooldownOutOfRange 1 cooldownSecondsMax cooldownSeconds
  have hentries := boundedCooldownFields_length_le format (cooldownFields.getD [])
  simp only [validateCooldown, List.length_append]
  cases cooldownSeconds with
  | none =>
    have hcoupling : (checkCooldownCoupling none cooldownFields).length ≤ 1 := by
      cases cooldownFields <;> simp [checkCooldownCoupling]
    simp only [Option.isSome_none, Bool.false_eq_true, if_false] at hrange
    omega
  | some seconds =>
    simp only [Option.isSome_some, if_true] at hrange
    cases cooldownFields with
    | none =>
      have hnone : (boundedCooldownFields format []).length = 0 := rfl
      have hmax : cooldownFieldsMax = 9 := rfl
      simp only [checkCooldownCoupling, List.length_singleton, Option.getD_none, hnone]
      omega
    | some fields =>
      simp only [checkCooldownCoupling, List.length_nil]
      omega

end Cooldown

section Verdicts

/-- What the trigger rules report of a list. -/
structure TriggersVerdict (triggers : List Value) (errors : List FieldError) : Prop where
  accepts : errors = [] ↔ Matchable triggers
  locates : triggers.length ≤ triggersMax → ∀ i code,
    (∃ e ∈ errors, e.code = code ∧ PointsAt (lit "triggers") i e.field) ↔ TriggerDefect triggers i code
  bounded : errors.length ≤ 2*triggersMax
  capped : triggersMax < triggers.length → errors = [triggersTooMany]

/-- What the cooldown rules report. -/
structure CooldownVerdict (cooldownSeconds : Option ℤ) (cooldownFields : Option (List Value))
    (errors : List FieldError) : Prop where
  accepts : errors = [] ↔ CooldownValid cooldownSeconds cooldownFields
  locates : (cooldownFields.getD []).length ≤ cooldownFieldsMax → ∀ i code,
    (∃ e ∈ errors, e.code = code ∧ PointsAt (lit "cooldown_fields") i e.field) ↔
      code = .unknownField ∧ ∃ v, (cooldownFields.getD [])[i]? = some v ∧
        ∀ name ∈ matchableFields, v ≠ .str name
  bounded : errors.length ≤ cooldownFieldsMax+1

theorem validateTriggers_verdict {triggers : List Value} (henc : EncodableValues triggers) :
    ∃ errors, validateTriggers triggers = .ok errors ∧ TriggersVerdict triggers errors := by
  by_cases hcap : triggers.length ≤ triggersMax
  · refine ⟨_, validateTriggers_spec henc hcap, ?_, fun _ => validateTriggers_locates, ?_,
      fun h => absurd hcap (Nat.not_le.mpr h)⟩
    · rw [List.append_eq_nil_iff, reported_eq_nil]
      constructor
      · rintro ⟨hmin, conditions, hall, hok, hnodup, -⟩
        refine ⟨?_, hcap, conditions, hall, hok, hnodup⟩
        split at hmin
        · simp at hmin
        · next h => exact Nat.not_lt.mp h
      · rintro ⟨hmin, -, conditions, hall, hok, hnodup⟩
        refine ⟨if_neg (Nat.not_lt.mpr hmin), conditions, hall, hok, hnodup, ?_⟩
        intro c _
        simp only [conditionNames, List.filterMap_nil, List.not_mem_nil, not_false_eq_true]
    · have hentries := reported_length_le [] triggers
      have hmax : triggersMax = 9 := rfl
      have hmin : triggersMin = 2 := rfl
      rw [List.length_append]
      -- a list that is too short leaves room for the count rule's own error
      split
      · rw [List.length_singleton]
        omega
      · rw [List.length_nil]
        omega
  · have hover : triggersMax < triggers.length := Nat.not_le.mp hcap
    refine ⟨[triggersTooMany], if_pos hover, ?_, fun h => absurd h hcap, by decide, fun _ => rfl⟩
    simp only [List.cons_ne_nil, false_iff]
    intro h
    exact hcap h.max

theorem validateCooldown_verdict (format : Value → Str) (cooldownSeconds : Option ℤ)
    (cooldownFields : Option (List Value)) :
    CooldownVerdict cooldownSeconds cooldownFields
      (validateCooldown format cooldownSeconds cooldownFields) :=
  ⟨validateCooldown_eq_nil format, validateCooldown_locates format, validateCooldown_length_le format⟩

/-- The trigger and cooldown rules accept the matchable definitions and nothing
else, report exactly the defects of each entry, and never more than a fixed
number of errors. -/
theorem definition_rules_exact (format : Value → Str) (triggers : List Value)
    (henc : EncodableValues triggers) (cooldownSeconds : Option ℤ)
    (cooldownFields : Option (List Value)) :
    (∃ errors, validateTriggers triggers = .ok errors ∧ TriggersVerdict triggers errors) ∧
      CooldownVerdict cooldownSeconds cooldownFields
        (validateCooldown format cooldownSeconds cooldownFields) :=
  ⟨validateTriggers_verdict henc, validateCooldown_verdict format cooldownSeconds cooldownFields⟩

def sampleCondition (name value : Str) : Value :=
  .dict [(lit "field", .str name), (lit "value", .str value)]

/-- Two good conditions, a repeated field and an entry that is no object. -/
def sampleTriggers : List Value :=
  [sampleCondition (lit "severity") (lit "critical"),
    sampleCondition (lit "application") (lit "payments"),
    sampleCondition (lit "severity") (lit "warning"), .null]

theorem sampleTriggers_encodable : EncodableValues sampleTriggers := by
  intro t ht name value h
  have hc := asCondition_eq_some.mpr h
  have hall : ∀ t ∈ sampleTriggers, ∀ c ∈ asCondition t, IsUtf8 c.2 := by decide +kernel
  exact hall t ht (name, value) hc

theorem definition_rules_exact_sample :
    validateTriggers sampleTriggers =
        .ok [duplicateTriggerField 2 (lit "severity"), invalidTriggerShape 3] ∧
      TriggersVerdict sampleTriggers
        [duplicateTriggerField 2 (lit "severity"), invalidTriggerShape 3] ∧
      CooldownVerdict (some 300) (some [.str (lit "site"), .int 3])
        (validateCooldown (fun _ => lit "3") (some 300) (some [.str (lit "site"), .int 3])) := by
  obtain ⟨⟨errors, herrors, hverdict⟩, hcooldown⟩ := definition_rules_exact (fun _ => lit "3")
    sampleTriggers sampleTriggers_encodable (some 300) (some [.str (lit "site"), .int 3])
  have heval : validateTriggers sampleTriggers =
      .ok [duplicateTriggerField 2 (lit "severity"), invalidTriggerShape 3] := by rfl
  rw [heval, Except.ok.injEq] at herrors
  subst herrors
  exact ⟨heval, hverdict, hcooldown⟩

end Verdicts

end KeepAutomation.Validation
