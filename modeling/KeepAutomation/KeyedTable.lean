import Mathlib.Data.List.Nodup
import Mathlib.Tactic

/-! Tables with a primary key, as lists of rows with distinct keys in the order
they were inserted. A restriction to some of the rows commutes with every
operation on a row it keeps, and does not see the operations on the others. -/
namespace KeyedTable

variable {ρ κ : Type*}

@[ext]
structure Table (key : ρ → κ) where
  rows : List ρ
  nodup : (rows.map key).Nodup

namespace Table

variable {key : ρ → κ} {t : Table key} {p : ρ → Bool} {r r₀ : ρ} {k : κ}

def insert (t : Table key) (r : ρ) (h : ∀ x ∈ t.rows, key x ≠ key r) : Table key where
  rows := t.rows ++ [r]
  nodup := by
    rw [List.map_append, List.map_singleton, List.nodup_append]
    refine ⟨t.nodup, List.nodup_singleton _, ?_⟩
    intro k hk k' hk'
    obtain ⟨x, hx, rfl⟩ := List.mem_map.mp hk
    rw [List.mem_singleton.mp hk']
    exact h x hx

/-- The rows a predicate keeps. -/
def restrict (t : Table key) (p : ρ → Bool) : Table key where
  rows := t.rows.filter p
  nodup := (List.filter_sublist.map key).nodup t.nodup

/-- The key identifies the row. -/
theorem unique {x y : ρ} (hx : x ∈ t.rows) (hy : y ∈ t.rows) (h : key x = key y) : x = y :=
  List.inj_on_of_nodup_map t.nodup hx hy h

theorem restrict_insert (h : ∀ x ∈ t.rows, key x ≠ key r) (hp : p r = true) :
    (t.insert r h).restrict p =
      (t.restrict p).insert r (fun x hx => h x (List.mem_filter.mp hx).1) := by
  ext1
  show (t.rows ++ [r]).filter p = t.rows.filter p ++ [r]
  rw [List.filter_append, List.filter_cons, if_pos hp, List.filter_nil]

theorem restrict_insert_outside (h : ∀ x ∈ t.rows, key x ≠ key r) (hp : p r = false) :
    (t.insert r h).restrict p = t.restrict p := by
  ext1
  show (t.rows ++ [r]).filter p = t.rows.filter p
  rw [List.filter_append, List.filter_cons, hp, List.filter_nil]
  exact List.append_nil _

variable [DecidableEq κ]

def lookup (t : Table key) (k : κ) : Option ρ := t.rows.find? fun x => key x = k

/-- `r` in the place of the row with its key. -/
def replace (key : ρ → κ) (r x : ρ) : ρ := if key x = key r then r else x

theorem key_replace (key : ρ → κ) (r x : ρ) : key (replace key r x) = key x := by
  unfold replace
  split
  · next h => exact h.symm
  · rfl

/-- Write a row by its key; no row is added. -/
def put (t : Table key) (r : ρ) : Table key where
  rows := t.rows.map (replace key r)
  nodup := by
    have hkeys : key ∘ replace key r = key := by
      funext x
      exact key_replace key r x
    rw [List.map_map, hkeys]
    exact t.nodup

theorem mem_of_lookup (h : t.lookup k = some r) : r ∈ t.rows ∧ key r = k := by
  unfold lookup at h
  have hkey := List.find?_some h
  exact ⟨List.mem_of_find?_eq_some h, of_decide_eq_true hkey⟩

theorem lookup_eq_none_iff : t.lookup k = none ↔ ∀ x ∈ t.rows, key x ≠ k := by
  unfold lookup
  rw [List.find?_eq_none]
  simp only [decide_eq_true_eq]

theorem lookup_eq_some_iff : t.lookup k = some r ↔ r ∈ t.rows ∧ key r = k := by
  refine ⟨mem_of_lookup, ?_⟩
  rintro ⟨hr, hkey⟩
  cases hl : t.lookup k with
  | none => exact absurd hkey (lookup_eq_none_iff.mp hl r hr)
  | some x =>
    obtain ⟨hx, hxk⟩ := mem_of_lookup hl
    rw [unique hx hr (hxk.trans hkey.symm)]

/-- A row read through a restriction is the row, if the restriction keeps it. -/
theorem lookup_restrict (t : Table key) (p : ρ → Bool) (k : κ) :
    (t.restrict p).lookup k = (t.lookup k).filter p := by
  cases hl : t.lookup k with
  | none =>
    rw [Option.filter_none, lookup_eq_none_iff]
    intro x hx
    exact lookup_eq_none_iff.mp hl x (List.mem_filter.mp hx).1
  | some r =>
    obtain ⟨hr, hkey⟩ := mem_of_lookup hl
    by_cases hp : p r = true
    · rw [Option.filter_some, if_pos hp, lookup_eq_some_iff]
      exact ⟨List.mem_filter.mpr ⟨hr, hp⟩, hkey⟩
    · rw [Option.filter_some, if_neg hp, lookup_eq_none_iff]
      intro x hx hxk
      obtain ⟨hx, hpx⟩ := List.mem_filter.mp hx
      rw [unique hx hr (hxk.trans hkey.symm)] at hpx
      exact hp hpx

theorem put_of_fixed (h : ∀ x ∈ t.rows, replace key r x = x) : t.put r = t := by
  ext1
  show t.rows.map (replace key r) = t.rows
  rw [List.map_congr_left h, List.map_id']

/-- Nothing is written where there is no row with the key. -/
theorem put_of_absent (h : ∀ x ∈ t.rows, key x ≠ key r) : t.put r = t :=
  put_of_fixed fun x hx => if_neg (h x hx)

/-- Writing a row back as it was read. -/
theorem put_self (h : t.lookup k = some r) : t.put r = t := by
  obtain ⟨hr, -⟩ := mem_of_lookup h
  apply put_of_fixed
  intro x hx
  by_cases hkey : key x = key r
  · rw [replace, if_pos hkey, unique hx hr hkey]
  · rw [replace, if_neg hkey]

/-- A write of a row that the restriction treats as it treated the old one. -/
theorem restrict_put (h : t.lookup (key r) = some r₀) (hp : p r = p r₀) :
    (t.put r).restrict p = (t.restrict p).put r := by
  obtain ⟨hr₀, hkey⟩ := mem_of_lookup h
  have hkeeps : ∀ x ∈ t.rows, (p ∘ replace key r) x = p x := by
    intro x hx
    by_cases hx₀ : key x = key r
    · rw [Function.comp, replace, if_pos hx₀, hp, unique hx hr₀ (hx₀.trans hkey.symm)]
    · rw [Function.comp, replace, if_neg hx₀]
  ext1
  show (t.rows.map (replace key r)).filter p = (t.rows.filter p).map (replace key r)
  rw [List.filter_map, List.filter_congr hkeeps]

/-- A write of a row outside the restriction is not seen through it. -/
theorem restrict_put_outside (h : t.lookup (key r) = some r₀) (hp : p r = false)
    (hp₀ : p r₀ = false) : (t.put r).restrict p = t.restrict p := by
  rw [restrict_put h (hp.trans hp₀.symm)]
  apply put_of_absent
  intro x hx hkey
  obtain ⟨hx, hpx⟩ := List.mem_filter.mp hx
  obtain ⟨hr₀, hkey₀⟩ := mem_of_lookup h
  rw [unique hx hr₀ (hkey.trans hkey₀.symm), hp₀] at hpx
  simp at hpx

/-- A written row is read back. -/
theorem lookup_put_self (h : t.lookup (key r) = some r₀) : (t.put r).lookup (key r) = some r := by
  obtain ⟨hr₀, hkey⟩ := mem_of_lookup h
  refine lookup_eq_some_iff.mpr ⟨List.mem_map.mpr ⟨r₀, hr₀, ?_⟩, rfl⟩
  rw [replace, if_pos hkey]

/-- A write is not seen under another key. -/
theorem lookup_put_of_ne (h : key r ≠ k) : (t.put r).lookup k = t.lookup k := by
  have hsame {x : ρ} (hx : key x = k) : replace key r x = x := if_neg (hx ▸ h.symm)
  cases hl : t.lookup k with
  | none =>
    rw [lookup_eq_none_iff] at hl ⊢
    intro x hx hxk
    obtain ⟨y, hy, rfl⟩ := List.mem_map.mp hx
    rw [key_replace key r y] at hxk
    exact hl y hy hxk
  | some x =>
    obtain ⟨hx, hkey⟩ := mem_of_lookup hl
    exact lookup_eq_some_iff.mpr ⟨List.mem_map.mpr ⟨x, hx, hsame hkey⟩, hkey⟩

/-- Write a row by its key, adding it if there is none. -/
def upsert (t : Table key) (r : ρ) : Table key :=
  if h : ∀ x ∈ t.rows, key x ≠ key r then t.insert r h else t.put r

theorem lookup_insert (h : ∀ x ∈ t.rows, key x ≠ key r) (k : κ) :
    (t.insert r h).lookup k = if key r = k then some r else t.lookup k := by
  have happend : (t.insert r h).lookup k = (t.lookup k).or (if key r = k then some r else none) := by
    show (t.rows ++ [r]).find? _ = _
    rw [List.find?_append, List.find?_singleton]
    simp only [lookup, decide_eq_true_eq]
  rw [happend]
  by_cases hkey : key r = k
  · have habsent : t.lookup k = none := lookup_eq_none_iff.mpr fun x hx hxk => h x hx (hxk.trans hkey.symm)
    rw [habsent, if_pos hkey, Option.none_or]
  · rw [if_neg hkey, if_neg hkey, Option.or_none]

/-- What is written is read back, and nothing else has changed. -/
theorem lookup_upsert (t : Table key) (r : ρ) (k : κ) :
    (t.upsert r).lookup k = if key r = k then some r else t.lookup k := by
  unfold upsert
  split
  · next h => exact lookup_insert h k
  · next h =>
    by_cases hkey : key r = k
    · simp only [ne_eq, not_forall, not_not, exists_prop] at h
      obtain ⟨x, hx, hxr⟩ := h
      have hread : t.lookup (key r) = some x := lookup_eq_some_iff.mpr ⟨hx, hxr⟩
      rw [if_pos hkey, ← hkey, lookup_put_self hread]
    · rw [if_neg hkey, lookup_put_of_ne hkey]

/-- A write that keeps what `g` sees of the row. -/
theorem map_put {β : Type*} {g : ρ → β} (h : t.lookup (key r) = some r₀) (hg : g r = g r₀) :
    (t.put r).rows.map g = t.rows.map g := by
  obtain ⟨hr₀, hkey⟩ := mem_of_lookup h
  show (t.rows.map (replace key r)).map g = t.rows.map g
  rw [List.map_map]
  apply List.map_congr_left
  intro x hx
  by_cases hsame : key x = key r
  · have hrow : x = r₀ := unique hx hr₀ (hsame.trans hkey.symm)
    rw [Function.comp, replace, if_pos hsame, hg, hrow]
  · rw [Function.comp, replace, if_neg hsame]

theorem upsert_of_lookup (h : t.lookup (key r) = some r₀) : t.upsert r = t.put r := by
  obtain ⟨hr₀, hkey⟩ := mem_of_lookup h
  exact dif_neg fun habsent => habsent r₀ hr₀ hkey

theorem rows_upsert_of_none (h : t.lookup (key r) = none) : (t.upsert r).rows = t.rows ++ [r] := by
  unfold upsert
  rw [dif_pos (lookup_eq_none_iff.mp h)]
  rfl

theorem mem_put {x : ρ} (h : x ∈ (t.put r).rows) : ∃ y ∈ t.rows, key y = key x := by
  obtain ⟨y, hy, rfl⟩ := List.mem_map.mp h
  exact ⟨y, hy, (key_replace key r y).symm⟩

end Table

end KeyedTable
