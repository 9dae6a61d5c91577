import Mathlib.Data.List.Sort
import Mathlib.Algebra.Order.Ring.Nat
import Mathlib.Tactic.Common

/-!
# Timers on an ideal clock

What a service for one-shot timers is for: a timer that was added is fired once, unless it is
cancelled, not before it is due, and timers are fired in the order in which they are due, those
due at the same time in the order in which they were added. Times are those of a clock that never
goes back, in any linear order.

The second half is about a counter that is read in place of the clock and wraps around: the
difference of two readings tells which of two times is the earlier one, if they are no more than
half of the range apart.
-/

namespace TimerQueue

variable {τ ι : Type*} [LinearOrder τ]

/-- A timer: when it is due, how many were added before it, and what it is for. -/
structure Timer (τ ι : Type*) where
  due : τ
  seq : ℕ
  what : ι
deriving DecidableEq, Repr

/-- The timers added so far: those to come, those fired and those cancelled. -/
structure Agenda (τ ι : Type*) where
  now : τ
  pending : List (Timer τ ι)
  fired : List (Timer τ ι)
  cancelled : List (Timer τ ι)
  added : ℕ
deriving DecidableEq, Repr

/-- The order in which timers are fired. -/
def Timer.Before (t u : Timer τ ι) : Prop := t.due < u.due ∨ t.due = u.due ∧ t.seq < u.seq

namespace Agenda

/-- No timer yet. -/
def empty (now : τ) : Agenda τ ι := ⟨now, [], [], [], 0⟩

/-- The clock goes on. -/
def advance (a : Agenda τ ι) (now : τ) : Agenda τ ι := { a with now }

/-- Add a timer, behind those that are due no later. -/
def add (a : Agenda τ ι) (due : τ) (what : ι) : Agenda τ ι :=
  { a with
    pending := a.pending.orderedInsert (fun t u => t.due < u.due) ⟨due, a.added, what⟩
    added := a.added + 1 }

/-- Cancel the first of the timers that `p` holds of. -/
def cancel (a : Agenda τ ι) (p : ι → Bool) : Agenda τ ι :=
  { a with
    pending := a.pending.eraseP fun t => p t.what
    cancelled := a.cancelled ++ (a.pending.find? fun t => p t.what).toList }

/-- The first timer is fired. -/
def fire (a : Agenda τ ι) : Agenda τ ι :=
  { a with pending := a.pending.tail, fired := a.fired ++ a.pending.head?.toList }

/-- Fired and pending timers are in order, no timer was fired before it was due, and every timer
added is in one of the three lists once. -/
structure Good (a : Agenda τ ι) : Prop where
  ordered : (a.fired ++ a.pending).Pairwise Timer.Before
  past : ∀ t ∈ a.fired, t.due ≤ a.now
  once : ((a.fired ++ a.pending ++ a.cancelled).map Timer.seq).Perm (List.range a.added)

variable {a : Agenda τ ι}

theorem good_empty (now : τ) : (empty now : Agenda τ ι).Good where
  ordered := List.Pairwise.nil
  past := by simp [empty]
  once := List.Perm.nil

theorem Good.advance (h : a.Good) {now : τ} (hnow : a.now ≤ now) : (a.advance now).Good where
  ordered := h.ordered
  past := fun t ht => (h.past t ht).trans hnow
  once := h.once

/-- The timers in the lists were added before. -/
theorem Good.seq_lt (h : a.Good) {t : Timer τ ι} (ht : t ∈ a.fired ++ a.pending) :
    t.seq < a.added := by
  have hmem : t.seq ∈ (a.fired ++ a.pending ++ a.cancelled).map Timer.seq :=
    List.mem_map_of_mem (List.mem_append_left _ ht)
  exact List.mem_range.mp (h.once.subset hmem)

/-- The pending timers are sorted by the time they are due. -/
theorem Good.sorted (h : a.Good) : a.pending.Pairwise fun t u => t.due ≤ u.due := by
  refine (List.pairwise_append.mp h.ordered).2.1.imp ?_
  intro t u htu
  rcases htu with hlt | ⟨heq, -⟩
  · exact hlt.le
  · exact heq.le

/-- A sorted list with a timer put behind those that are due no later. -/
theorem orderedInsert_ordered {t : Timer τ ι} {l : List (Timer τ ι)} (hl : l.Pairwise Timer.Before)
    (hseq : ∀ u ∈ l, u.seq < t.seq) :
    (l.orderedInsert (fun t u => t.due < u.due) t).Pairwise Timer.Before := by
  induction l with
  | nil => exact List.pairwise_singleton _ _
  | cons u l ih =>
    rw [List.pairwise_cons] at hl
    rw [List.orderedInsert_cons]
    by_cases hlt : t.due < u.due
    · rw [if_pos hlt, List.pairwise_cons, List.pairwise_cons]
      refine ⟨?_, hl⟩
      intro v hv
      left
      rcases List.mem_cons.mp hv with rfl | hv
      · exact hlt
      · rcases hl.1 v hv with huv | ⟨huv, -⟩
        · exact hlt.trans huv
        · exact hlt.trans_eq huv
    · rw [if_neg hlt, List.pairwise_cons]
      refine ⟨?_, ih hl.2 fun v hv => hseq v (List.mem_cons_of_mem u hv)⟩
      intro v hv
      rcases (List.mem_orderedInsert _).mp hv with rfl | hv
      · -- the new timer is due no earlier than `u`, and was added later
        rcases (not_lt.mp hlt).lt_or_eq with hlt' | heq
        · exact .inl hlt'
        · exact .inr ⟨heq, hseq u List.mem_cons_self⟩
      · exact hl.1 v hv

/-- A timer may be added that is not due in the past. -/
theorem Good.add (h : a.Good) {due : τ} (hdue : a.now ≤ due) (what : ι) : (a.add due what).Good := by
  have hperm := List.perm_orderedInsert (fun t u : Timer τ ι => t.due < u.due)
    ⟨due, a.added, what⟩ a.pending
  have hparts := List.pairwise_append.mp h.ordered
  refine ⟨?_, h.past, ?_⟩
  · apply List.pairwise_append.mpr
    refine ⟨hparts.1, ?_, ?_⟩
    · apply orderedInsert_ordered hparts.2.1
      intro u hu
      exact h.seq_lt (List.mem_append_right _ hu)
    · intro t ht u hu
      rcases (List.mem_orderedInsert _).mp hu with rfl | hu
      · rcases ((h.past t ht).trans hdue).lt_or_eq with hlt | heq
        · exact .inl hlt
        · exact .inr ⟨heq, h.seq_lt (List.mem_append_left _ ht)⟩
      · exact hparts.2.2 t ht u hu
  · show ((a.fired ++ List.orderedInsert _ _ a.pending ++ a.cancelled).map Timer.seq).Perm
      (List.range (a.added + 1))
    rw [List.range_succ]
    have hcons : (a.fired ++ List.orderedInsert (fun t u : Timer τ ι => t.due < u.due)
        ⟨due, a.added, what⟩ a.pending ++ a.cancelled).Perm
        (⟨due, a.added, what⟩ :: (a.fired ++ a.pending ++ a.cancelled)) := by
      have hfront := (hperm.append_left a.fired).trans List.perm_middle
      exact hfront.append_right a.cancelled
    refine (hcons.map Timer.seq).trans ?_
    rw [List.map_cons]
    exact (h.once.cons a.added).trans (List.perm_append_singleton _ _).symm

omit [LinearOrder τ] in
theorem perm_eraseP (p : Timer τ ι → Bool) (l : List (Timer τ ι)) :
    (l.eraseP p ++ (l.find? p).toList).Perm l := by
  induction l with
  | nil => exact List.Perm.nil
  | cons t l ih =>
    by_cases hp : p t
    · rw [List.eraseP_cons_of_pos hp, List.find?_cons_of_pos hp, Option.toList_some]
      exact List.perm_append_singleton t l
    · rw [List.eraseP_cons_of_neg hp, List.find?_cons_of_neg hp, List.cons_append]
      exact ih.cons t

theorem Good.cancel (h : a.Good) (p : ι → Bool) : (a.cancel p).Good where
  ordered := h.ordered.sublist (List.Sublist.append_left List.eraseP_sublist a.fired)
  past := h.past
  once := by
    refine List.Perm.trans ?_ h.once
    apply List.Perm.map
    show (a.fired ++ a.pending.eraseP _ ++ (a.cancelled ++ _)).Perm _
    rw [List.append_assoc, List.append_assoc]
    apply List.Perm.append_left
    have hswap : (a.cancelled ++ (a.pending.find? fun t => p t.what).toList).Perm
        ((a.pending.find? fun t => p t.what).toList ++ a.cancelled) := List.perm_append_comm
    refine (hswap.append_left (a.pending.eraseP fun t => p t.what)).trans ?_
    rw [← List.append_assoc]
    exact (perm_eraseP _ _).append_right a.cancelled

theorem head_append_tail {α : Type*} (l : List α) : l.head?.toList ++ l.tail = l := by
  cases l <;> rfl

/-- The first timer may be fired once it is due. -/
theorem Good.fire (h : a.Good) (hdue : ∀ t ∈ a.pending.head?, t.due ≤ a.now) : a.fire.Good := by
  have happend : a.fire.fired ++ a.fire.pending = a.fired ++ a.pending := by
    show a.fired ++ a.pending.head?.toList ++ a.pending.tail = _
    rw [List.append_assoc, head_append_tail]
  refine ⟨?_, ?_, ?_⟩
  · rw [happend]
    exact h.ordered
  · intro t ht
    rcases List.mem_append.mp ht with ht | ht
    · exact h.past t ht
    · exact hdue t (Option.mem_toList.mp ht)
  · rw [happend]
    exact h.once

/-! ### A part of the timers -/

section Part

variable {β : Type*} {f : Timer τ ι → Option β} {t : Timer τ ι} {l : List (Timer τ ι)}

/-- Adding a timer leaves a part that it does not belong to as it is. -/
theorem filterMap_insert_of_none (h : f t = none) :
    (l.orderedInsert (fun t u => t.due < u.due) t).filterMap f = l.filterMap f := by
  induction l with
  | nil => rw [List.orderedInsert_nil, List.filterMap_cons_none h]
  | cons u l ih =>
    rw [List.orderedInsert_cons]
    split
    · rw [List.filterMap_cons_none h]
    · rw [List.filterMap_cons, List.filterMap_cons, ih]

/-- It is the first one in a part that it does belong to. -/
theorem filterMap_insert_of_nil {b : β} (h : f t = some b) (hl : l.filterMap f = []) :
    (l.orderedInsert (fun t u => t.due < u.due) t).filterMap f = [b] := by
  induction l with
  | nil => rw [List.orderedInsert_nil, List.filterMap_cons_some h, List.filterMap_nil]
  | cons u l ih =>
    have hall := List.filterMap_eq_nil_iff.mp hl
    have hu : f u = none := hall u List.mem_cons_self
    have hrest : l.filterMap f = [] := by rwa [List.filterMap_cons_none hu] at hl
    rw [List.orderedInsert_cons]
    split
    · rw [List.filterMap_cons_some h, hl]
    · rw [List.filterMap_cons_none hu, ih hrest]

omit [LinearOrder τ] in
/-- Cancelling a timer leaves a part that it does not belong to as it is. -/
theorem filterMap_eraseP {p : Timer τ ι → Bool} (h : ∀ t, p t → f t = none) :
    (l.eraseP p).filterMap f = l.filterMap f := by
  induction l with
  | nil => rfl
  | cons u l ih =>
    by_cases hu : p u
    · rw [List.eraseP_cons_of_pos hu, List.filterMap_cons_none (h u hu)]
    · rw [List.eraseP_cons_of_neg hu, List.filterMap_cons, List.filterMap_cons, ih]

end Part

end Agenda

end TimerQueue

/-! ## Counters that wrap around -/

namespace WrappingClock

/-- The difference of the readings at the times `a` and `b` of a counter that wraps at `n`. -/
def diff (n a b : ℕ) : ℕ := (n - b % n + a % n) % n

variable {n a b : ℕ}

theorem diff_of_le (h : b ≤ a) (hlt : a < b + n) : diff n a b = a - b := by
  have hn : 0 < n := by omega
  have hb : b % n < n := Nat.mod_lt b hn
  unfold diff
  rw [Nat.add_mod_mod]
  have hsum : n - b % n + a = a - b + n * (b / n + 1) := by
    have hdiv := Nat.div_add_mod b n
    rw [Nat.mul_add, Nat.mul_one]
    omega
  rw [hsum, Nat.add_mul_mod_self_left, Nat.mod_eq_of_lt (by omega)]

theorem diff_of_lt (h : a < b) (hle : b ≤ a + n) : diff n a b = n - (b - a) := by
  have hn : 0 < n := by omega
  have hb : b % n < n := Nat.mod_lt b hn
  unfold diff
  rw [Nat.add_mod_mod]
  have hsum : n - b % n + a = n - (b - a) + n * (b / n) := by
    have hdiv := Nat.div_add_mod b n
    omega
  rw [hsum, Nat.add_mul_mod_self_left, Nat.mod_eq_of_lt (by omega)]

/-- The upper half of the differences says that `a` is the earlier time. -/
theorem half_le_diff_iff {m : ℕ} (h : a < b + m) (h' : b ≤ a + m) :
    m ≤ diff (2 * m) a b ↔ a < b := by
  by_cases hlt : a < b
  · rw [diff_of_lt hlt (by omega)]
    omega
  · rw [diff_of_le (by omega) (by omega)]
    omega

theorem toNat_sub_ofNat (a b : ℕ) :
    (UInt32.ofNat a - UInt32.ofNat b).toNat = diff (2 * 2 ^ 31) a b := by
  rw [UInt32.toNat_sub, UInt32.toNat_ofNat', UInt32.toNat_ofNat']
  rfl

end WrappingClock
