import Cannelloni.Lib.Machine

/-!
# Bounded queues

The list of at most `capacity` values that a first-in first-out buffer stands for. `put` is
answered by the value when there is room and refused (`none`) otherwise; `take` and `peek` are
answered by the oldest value, if any.
-/

namespace Fifo

/-- The operations of a queue. -/
inductive Op (α : Type*)
  | put (x : α)
  | take
  | peek

/-- The values in a queue, oldest first. -/
structure Bounded (α : Type*) (capacity : ℕ) where
  items : List α
  length_le : items.length ≤ capacity

variable {α : Type*} {capacity : ℕ}

/-- The queue without values. -/
def empty (α : Type*) (capacity : ℕ) : Bounded α capacity := ⟨[], Nat.zero_le _⟩

/-- The queue with one more value, if it has room. -/
def put (s : Bounded α capacity) (x : α) : Option α × Bounded α capacity :=
  if h : s.items.length < capacity then
    (some x, ⟨s.items ++ [x], by rw [List.length_append]; exact h⟩)
  else (none, s)

/-- The queue without its oldest value. -/
def take (s : Bounded α capacity) : Option α × Bounded α capacity :=
  (s.items.head?, ⟨s.items.tail, by
    have := s.length_le
    rw [List.length_tail]
    omega⟩)

def step (s : Bounded α capacity) : Op α → Option α × Bounded α capacity
  | .put x => put s x
  | .take => take s
  | .peek => (s.items.head?, s)

theorem put_of_lt {s : Bounded α capacity} (h : s.items.length < capacity) (x : α) :
    (put s x).1 = some x ∧ (put s x).2.items = s.items ++ [x] := by
  unfold put
  rw [dif_pos h]
  exact ⟨rfl, rfl⟩

theorem put_of_eq {s : Bounded α capacity} (h : s.items.length = capacity) (x : α) :
    put s x = (none, s) := by
  unfold put
  rw [dif_neg (by omega)]

/-! ## What goes in and what comes out -/

/-- The values put in a run, without the refused ones. -/
def accepted (trace : List (Op α × Option α)) : List α :=
  trace.filterMap fun e => match e with
    | (.put _, answer) => answer
    | _ => none

/-- The values taken in a run. -/
def taken (trace : List (Op α × Option α)) : List α :=
  trace.filterMap fun e => match e with
    | (.take, answer) => answer
    | _ => none

/-- One operation neither loses nor duplicates nor reorders a value. -/
theorem items_step (s : Bounded α capacity) (o : Op α) :
    s.items ++ accepted [(o, (step s o).1)]
      = taken [(o, (step s o).1)] ++ (step s o).2.items := by
  cases o with
  | put x =>
    by_cases h : s.items.length < capacity
    · rcases put_of_lt h x with ⟨hanswer, hitems⟩
      simp [step, accepted, taken, hanswer, hitems]
    · have hfull : s.items.length = capacity := by
        have := s.length_le
        omega
      simp [step, accepted, taken, put_of_eq hfull x]
  | take =>
    rcases s with ⟨_ | ⟨x, xs⟩, _⟩
    · rfl
    · simp [step, take, accepted, taken]
  | peek => simp [step, accepted, taken]

/-- The values come out in the order in which they went in: those taken in a run, followed by
those left, are those of the start followed by those put. -/
theorem items_run (s : Bounded α capacity) (os : List (Op α)) :
    s.items ++ accepted (Machine.run step s os).1
      = taken (Machine.run step s os).1 ++ (Machine.run step s os).2.items := by
  induction os generalizing s with
  | nil => simp [accepted, taken]
  | cons o os ih =>
    have hone := items_step s o
    have hrest := ih (step s o).2
    have hacc : accepted (Machine.run step s (o :: os)).1
        = accepted [(o, (step s o).1)] ++ accepted (Machine.run step (step s o).2 os).1 := by
      rw [Machine.run_cons_fst]
      exact List.filterMap_append (l := [_])
    have htak : taken (Machine.run step s (o :: os)).1
        = taken [(o, (step s o).1)] ++ taken (Machine.run step (step s o).2 os).1 := by
      rw [Machine.run_cons_fst]
      exact List.filterMap_append (l := [_])
    calc s.items ++ accepted (Machine.run step s (o :: os)).1
        = taken [(o, (step s o).1)] ++ (step s o).2.items
            ++ accepted (Machine.run step (step s o).2 os).1 := by
          rw [hacc, ← List.append_assoc, hone]
      _ = taken (Machine.run step s (o :: os)).1 ++ (Machine.run step s (o :: os)).2.items := by
          rw [List.append_assoc, hrest, htak, List.append_assoc]
          rfl

end Fifo
