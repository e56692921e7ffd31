import Mathlib.Algebra.Order.Group.Defs
import Mathlib.Algebra.BigOperators.Group.List.Basic
import Mathlib.Tactic

/-! A throttle that lets one record through per interval and counts the rest. The
clock is read before the lock is taken, so that the times may come in any order. -/
namespace Throttle

variable {T : Type*} [AddCommGroup T] [LinearOrder T]

structure State (T : Type*) where
  last : Option T
  suppressed : ℕ
  deriving DecidableEq, Repr

/-- Nothing let through yet. -/
def fresh : State T where
  last := none
  suppressed := 0

/-- Too soon after the last record. -/
def State.holds (interval now : T) (s : State T) : Bool :=
  match s.last with
  | none => false
  | some last => now-last < interval

/-- The records swallowed since the last one let through, or nothing. -/
def State.allow (interval now : T) (s : State T) : Option ℕ × State T :=
  if s.holds interval now then (none, { s with suppressed := s.suppressed+1 })
  else (some s.suppressed, { last := some now, suppressed := 0 })

/-- Calls in the order in which they take the lock, each with its answer. -/
def answers (interval : T) : State T → List T → List (T × Option ℕ)
  | _, [] => []
  | s, now :: nows => (now, (s.allow interval now).1) :: answers interval (s.allow interval now).2 nows

def after (interval : T) : State T → List T → State T
  | s, [] => s
  | s, now :: nows => after interval (s.allow interval now).2 nows

/-- The records that get through, each with its count. -/
def records (interval : T) (s : State T) (nows : List T) : List (T × ℕ) :=
  (answers interval s nows).filterMap fun a => a.2.map fun n => (a.1, n)

variable {interval : T} {s : State T}

theorem allow_held {now : T} (h : s.holds interval now = true) :
    s.allow interval now = (none, { s with suppressed := s.suppressed+1 }) := if_pos h

theorem allow_passed {now : T} (h : s.holds interval now = false) :
    s.allow interval now = (some s.suppressed, { last := some now, suppressed := 0 }) := by
  unfold State.allow
  rw [h]
  rfl

theorem records_held {now : T} (h : s.holds interval now = true) (nows : List T) :
    records interval s (now :: nows) =
      records interval { s with suppressed := s.suppressed+1 } nows := by
  simp only [records, answers, allow_held h, List.filterMap_cons, Option.map_none]

theorem records_passed {now : T} (h : s.holds interval now = false) (nows : List T) :
    records interval s (now :: nows) =
      (now, s.suppressed) :: records interval { last := some now, suppressed := 0 } nows := by
  simp only [records, answers, allow_passed h, List.filterMap_cons, Option.map_some]

/-- No call is lost from the count: it was let through, is reported by a later
record, or waits for the next one. -/
theorem records_count (interval : T) (s : State T) (nows : List T) :
    ((records interval s nows).map Prod.snd).sum + (records interval s nows).length +
      (after interval s nows).suppressed = s.suppressed + nows.length := by
  induction nows generalizing s with
  | nil => simp only [records, answers, after, List.filterMap_nil, List.map_nil, List.sum_nil,
      List.length_nil, zero_add, add_zero]
  | cons now nows ih =>
    cases h : s.holds interval now with
    | true =>
      have hrest := ih { s with suppressed := s.suppressed+1 }
      rw [records_held h, after, allow_held h, List.length_cons]
      dsimp only at hrest ⊢
      omega
    | false =>
      have hrest := ih { last := some now, suppressed := 0 }
      rw [records_passed h, after, allow_passed h, List.map_cons, List.sum_cons, List.length_cons,
        List.length_cons]
      dsimp only at hrest ⊢
      omega

/-- The time a throttle remembers is that of the last record it let through. -/
theorem after_last (interval : T) (s : State T) (nows : List T) :
    (after interval s nows).last = ((records interval s nows).getLast?.map Prod.fst).or s.last := by
  induction nows generalizing s with
  | nil => rfl
  | cons now nows ih =>
    cases h : s.holds interval now with
    | true =>
      rw [after, allow_held h, records_held h]
      exact ih { s with suppressed := s.suppressed+1 }
    | false =>
      rw [after, allow_passed h, records_passed h, ih, List.getLast?_cons]
      cases (records interval { last := some now, suppressed := 0 } nows).getLast? with
      | none => rfl
      | some r => rfl

variable [IsOrderedAddMonoid T]

/-- A record that gets through is an interval later than the last one before. -/
theorem not_holds {now last : T} (hlast : s.last = some last) (h : s.holds interval now = false) :
    last + interval ≤ now := by
  simp only [State.holds, hlast, decide_eq_false_iff_not, not_lt] at h
  calc last + interval ≤ last + (now-last) := by
        apply add_le_add_right
        exact h
    _ = now := add_sub_cancel last now

/-- After a record every later one is an interval away, even if clocks were read
in another order. -/
theorem records_later (hi : 0 ≤ interval) {last : T} (hlast : s.last = some last) (nows : List T) :
    ∀ r ∈ records interval s nows, last + interval ≤ r.1 := by
  -- the last time only grows: induction with the state generalized
  induction nows generalizing s last with
  | nil => exact fun r hr => absurd hr List.not_mem_nil
  | cons now nows ih =>
    cases h : s.holds interval now with
    | true =>
      rw [records_held h]
      exact ih hlast
    | false =>
      have hnow := not_holds hlast h
      have hle : last + interval ≤ now + interval := by
        apply hnow.trans
        exact le_add_of_nonneg_right hi
      rw [records_passed h]
      intro r hr
      rcases List.mem_cons.mp hr with rfl | hr
      · exact hnow
      · exact hle.trans (ih (s := { last := some now, suppressed := 0 }) rfl r hr)

/-- Any two records are at least an interval apart. -/
theorem records_spaced (hi : 0 ≤ interval) (s : State T) (nows : List T) :
    (records interval s nows).Pairwise fun a b => a.1 + interval ≤ b.1 := by
  induction nows generalizing s with
  | nil => exact List.Pairwise.nil
  | cons now nows ih =>
    cases h : s.holds interval now with
    | true =>
      rw [records_held h]
      exact ih _
    | false =>
      rw [records_passed h]
      refine List.Pairwise.cons ?_ (ih _)
      exact records_later (s := { last := some now, suppressed := 0 }) hi rfl nows

/-- So there is at most one in any window of an interval's length. -/
theorem spaced_window {α : Type*} (time : α → T) {rs : List α}
    (h : rs.Pairwise fun a b => time a + interval ≤ time b) (start : T) :
    (rs.filter fun r => start ≤ time r ∧ time r < start + interval).length ≤ 1 := by
  induction rs with
  | nil => exact Nat.zero_le 1
  | cons a rs ih =>
    obtain ⟨hlater, hrest⟩ := List.pairwise_cons.mp h
    rw [List.filter_cons]
    split
    · next ha =>
      have hin : start ≤ time a ∧ time a < start + interval := of_decide_eq_true ha
      have hnone : (rs.filter fun r => start ≤ time r ∧ time r < start + interval) = [] := by
        rw [List.filter_eq_nil_iff]
        intro b hb hwindow
        have hb' : start ≤ time b ∧ time b < start + interval := of_decide_eq_true hwindow
        have hge : start + interval ≤ time b :=
          (add_le_add_left hin.1 interval).trans (hlater b hb)
        exact absurd hb'.2 (not_lt.mpr hge)
      rw [hnone, List.length_singleton]
    · exact ih hrest

/-- From a fresh throttle a call is let through, or the last record before it is
less than an interval old. -/
theorem fresh_heard (interval : T) (nows : List T) (now : T) :
    ((after interval fresh nows).allow interval now).1 ≠ none ∨
      ∃ r, (records interval fresh nows).getLast? = some r ∧ now < r.1 + interval := by
  cases h : (after interval fresh nows).holds interval now with
  | false =>
    left
    rw [allow_passed h]
    simp
  | true =>
    right
    have hlast := after_last interval fresh nows
    cases hrecord : (records interval fresh nows).getLast? with
    | none =>
      rw [hrecord] at hlast
      have hnone : (after interval fresh nows).last = none := hlast
      simp [State.holds, hnone] at h
    | some r =>
      rw [hrecord] at hlast
      have hsome : (after interval fresh nows).last = some r.1 := hlast
      simp only [State.holds, hsome, decide_eq_true_eq] at h
      exact ⟨r, rfl, sub_lt_iff_lt_add'.mp h⟩

end Throttle
