import Mathlib.Data.List.Basic
import Mathlib.Data.List.Range
import Mathlib.Logic.Function.Basic
import Mathlib.Tactic.Common

/-!
# Ring indices and the list they denote

A ring of `count` cells is described by two indices, `head` (the oldest cell in use) and
`tail` (the next cell to fill). The cells in use are `head, head + 1, …, tail - 1` modulo
`count`, and one cell always stays unused, so that `head = tail` means empty.

`Cursor` carries the three numbers, `Cursor.contents` the list of cell values they denote.
The lemmas below are the whole interface: what `push` and `pop` do to the number of cells
in use and to the list, and which cells a write may touch without changing the list.
-/

namespace Ring

/-- The two indices of a ring and its number of cells. -/
structure Cursor where
  head : ℕ
  tail : ℕ
  count : ℕ
deriving DecidableEq, Repr

namespace Cursor

/-- Both indices name a cell of the ring. -/
structure Valid (c : Cursor) : Prop where
  head_lt : c.head < c.count
  tail_lt : c.tail < c.count

/-- Number of cells in use. -/
def held (c : Cursor) : ℕ :=
  if c.head ≤ c.tail then c.tail - c.head else c.tail + c.count - c.head

/-- Number of cells that can still be filled: one cell always stays unused. -/
def free (c : Cursor) : ℕ := c.count - 1 - c.held

/-- The `k`-th cell counted from `head`. -/
def cell (c : Cursor) (k : ℕ) : ℕ := (c.head + k) % c.count

/-- The `k`-th cell counted from `tail`: the one the `k`-th of several pushes fills. -/
def freeCell (c : Cursor) (k : ℕ) : ℕ := (c.tail + k) % c.count

/-- Advance the tail by one cell. -/
def push (c : Cursor) : Cursor := { c with tail := (c.tail + 1) % c.count }

/-- Advance the head by one cell. -/
def pop (c : Cursor) : Cursor := { c with head := (c.head + 1) % c.count }

/-- No cell is left for a further push. -/
def Full (c : Cursor) : Prop := (c.tail + 1) % c.count = c.head

/-- No cell is in use. -/
def Empty (c : Cursor) : Prop := c.head = c.tail

instance (c : Cursor) : Decidable c.Full := inferInstanceAs (Decidable (_ = _))

instance (c : Cursor) : Decidable c.Empty := inferInstanceAs (Decidable (_ = _))

/-- The values of the cells in use, oldest first. -/
def contents {α : Type*} (c : Cursor) (cells : ℕ → α) : List α :=
  (List.range c.held).map fun k => cells (c.cell k)

/-! ## Index arithmetic -/

/-- An index moved up by at most one turn wraps at most once. -/
theorem add_mod_eq {a k n : ℕ} (ha : a < n) (hk : k ≤ n) :
    (a + k) % n = if a + k < n then a + k else a + k - n := by
  split
  · next h => exact Nat.mod_eq_of_lt h
  · next h =>
    rw [Nat.mod_eq_sub_mod (by omega)]
    exact Nat.mod_eq_of_lt (by omega)

variable {c : Cursor}

theorem Valid.push (h : c.Valid) : c.push.Valid := by
  have hpos : 0 < c.count := by have := h.head_lt; omega
  exact ⟨h.head_lt, Nat.mod_lt _ hpos⟩

theorem Valid.pop (h : c.Valid) : c.pop.Valid := by
  have hpos : 0 < c.count := by have := h.head_lt; omega
  exact ⟨Nat.mod_lt _ hpos, h.tail_lt⟩

theorem held_lt (h : c.Valid) : c.held < c.count := by
  have h1 := h.head_lt
  have h2 := h.tail_lt
  unfold held
  split <;> omega

theorem empty_iff_held (h : c.Valid) : c.Empty ↔ c.held = 0 := by
  have h1 := h.head_lt
  have h2 := h.tail_lt
  unfold Empty held
  split <;> omega

theorem full_iff_free (h : c.Valid) : c.Full ↔ c.free = 0 := by
  have h1 := h.head_lt
  have h2 := h.tail_lt
  unfold Full free held
  -- the tail wraps or not, and the head is before or behind it
  rw [add_mod_eq h2 (by omega)]
  split <;> split <;> omega

theorem held_push (h : c.Valid) (hf : ¬ c.Full) : c.push.held = c.held + 1 := by
  have h1 := h.head_lt
  have h2 := h.tail_lt
  have htail : c.push.tail = if c.tail + 1 < c.count then c.tail + 1 else c.tail + 1 - c.count :=
    add_mod_eq h2 (by omega)
  have hne : c.push.tail ≠ c.head := hf
  have hhead : c.push.head = c.head := rfl
  have hcount : c.push.count = c.count := rfl
  unfold held
  split_ifs at htail ⊢ <;> omega

theorem held_pop (h : c.Valid) (he : ¬ c.Empty) : c.pop.held + 1 = c.held := by
  have h1 := h.head_lt
  have h2 := h.tail_lt
  have hhead : c.pop.head = if c.head + 1 < c.count then c.head + 1 else c.head + 1 - c.count :=
    add_mod_eq h1 (by omega)
  have hne : c.head ≠ c.tail := he
  have htail : c.pop.tail = c.tail := rfl
  have hcount : c.pop.count = c.count := rfl
  unfold held
  split_ifs at hhead ⊢ <;> omega

theorem free_push (h : c.Valid) (hf : ¬ c.Full) : c.push.free + 1 = c.free := by
  have hheld := held_push h hf
  have hlt : c.push.held < c.count := held_lt h.push
  have hcount : c.push.count = c.count := rfl
  unfold free
  omega

/-- The cell one past the last cell in use is the tail. -/
theorem cell_held (h : c.Valid) : c.cell c.held = c.tail := by
  have h1 := h.head_lt
  have h2 := h.tail_lt
  have h3 := held_lt h
  unfold cell
  rw [add_mod_eq h1 h3.le]
  unfold held at h3 ⊢
  split_ifs at h3 ⊢ <;> omega

/-- Cells at different distances from the head are different cells. -/
theorem cell_inj (h : c.Valid) {j k : ℕ} (hj : j < c.count) (hk : k < c.count)
    (heq : c.cell j = c.cell k) : j = k := by
  have h1 := h.head_lt
  unfold cell at heq
  rw [add_mod_eq h1 hj.le, add_mod_eq h1 hk.le] at heq
  split at heq <;> split at heq <;> omega

/-- The tail is not among the cells in use. -/
theorem cell_ne_tail (h : c.Valid) {k : ℕ} (hk : k < c.held) : c.cell k ≠ c.tail := by
  intro heq
  rw [← cell_held h] at heq
  have hlt := held_lt h
  have := cell_inj h (by omega) hlt heq
  omega

/-- Counting from the tail and counting on from the last cell in use agree. -/
theorem freeCell_eq_cell (h : c.Valid) (k : ℕ) : c.freeCell k = c.cell (c.held + k) := by
  have hheld := cell_held h
  unfold cell at hheld ⊢
  unfold freeCell
  rw [← hheld, Nat.mod_add_mod, Nat.add_assoc]

theorem cell_pop (k : ℕ) : c.pop.cell k = c.cell (k + 1) := by
  unfold cell pop
  simp only
  rw [Nat.mod_add_mod]
  congr 1
  omega

@[simp] theorem cell_push (k : ℕ) : c.push.cell k = c.cell k := rfl

theorem freeCell_push (k : ℕ) : c.push.freeCell k = c.freeCell (k + 1) := by
  unfold freeCell push
  simp only
  rw [Nat.mod_add_mod]
  congr 1
  omega

theorem freeCell_zero (h : c.Valid) : c.freeCell 0 = c.tail := by
  unfold freeCell
  exact Nat.mod_eq_of_lt h.tail_lt

/-- The cells that pushes may fill are never cells in use. -/
theorem freeCell_ne_cell (h : c.Valid) {j k : ℕ} (hj : j < c.free) (hk : k < c.held) :
    c.freeCell j ≠ c.cell k := by
  intro heq
  rw [freeCell_eq_cell h] at heq
  have hlt := held_lt h
  unfold free at hj
  have := cell_inj h (by omega) (by omega) heq
  omega

/-! ## The list of cells in use -/

section Contents

variable {α : Type*} {cells cells' : ℕ → α}

@[simp] theorem length_contents (c : Cursor) (cells : ℕ → α) :
    (c.contents cells).length = c.held := by
  simp [contents]

/-- The list depends on the cells in use only. -/
theorem contents_congr (h : ∀ k < c.held, cells (c.cell k) = cells' (c.cell k)) :
    c.contents cells = c.contents cells' := by
  unfold contents
  apply List.map_congr_left
  intro k hk
  exact h k (List.mem_range.mp hk)

theorem contents_eq_nil (h : c.Valid) : c.contents cells = [] ↔ c.Empty := by
  rw [empty_iff_held h, ← List.length_eq_zero_iff, length_contents]

/-- Filling the tail cell and pushing appends the new value. -/
theorem contents_push (h : c.Valid) (hf : ¬ c.Full) (x : α) :
    c.push.contents (Function.update cells c.tail x) = c.contents cells ++ [x] := by
  unfold contents
  rw [held_push h hf, List.range_succ, List.map_append]
  congr 1
  · -- the old cells are not the tail
    apply List.map_congr_left
    intro k hk
    rw [cell_push, Function.update_of_ne (cell_ne_tail h (List.mem_range.mp hk))]
  · simp [cell_held h]

/-- A nonempty ring starts with its head cell and goes on with the popped ring. -/
theorem contents_pop (h : c.Valid) (he : ¬ c.Empty) :
    c.contents cells = cells c.head :: c.pop.contents cells := by
  unfold contents
  rw [← held_pop h he, List.range_succ_eq_map, List.map_cons, List.map_map]
  congr 1
  · have : c.cell 0 = c.head := Nat.mod_eq_of_lt h.head_lt
    rw [this]
  · apply List.map_congr_left
    intro k _
    rw [Function.comp_apply, cell_pop]

end Contents

end Cursor

end Ring
