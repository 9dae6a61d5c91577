import Mathlib.Data.List.Basic
import Mathlib.Data.List.Range
import Mathlib.Logic.Function.Basic
import Mathlib.Order.Bounds.Basic
import Mathlib.Tactic.Common

/-!
# Cells filled from below and read by sweeps

Cells `first, …, limit - 1` each hold a value or nothing. A writer puts a value into the lowest
free cell. A reader sweeps upwards: at position `k` it takes the value of cell `k` and goes on
to `k + 1`, and when the cell is free it starts again at `first`.

`pending` is the order in which the cells would be read with no further writes. `Ordered` is
the shape of the cells under which this order is the order of the writes: the reader does not
meet a gap before the values of its own sweep end, and the values written behind it start at
`first`. A write keeps it as long as it is not overtaken: the reader stands at `first`, or some
cell behind it is free.
-/

namespace Sweep

variable {α : Type*} {first limit : ℕ} {cell : ℕ → Option α} {i j k f : ℕ} {x : α}

/-! ## The values of a range of cells -/

/-- The values in the cells `i, …, j - 1`. -/
def values (cell : ℕ → Option α) (i j : ℕ) : List α := (List.range' i (j - i)).filterMap cell

theorem values_self (cell : ℕ → Option α) (i : ℕ) : values cell i i = [] := by
  simp [values]

theorem values_append (hij : i ≤ j) (hjk : j ≤ k) :
    values cell i j ++ values cell j k = values cell i k := by
  unfold values
  rw [← List.filterMap_append]
  have hrange : List.range' i (j - i) ++ List.range' j (k - j) = List.range' i (k - i) := by
    have happ := List.range'_append_1 (s := i) (m := j - i) (n := k - j)
    rw [show i + (j - i) = j by omega, show j - i + (k - j) = k - i by omega] at happ
    exact happ
  rw [hrange]

theorem values_of_none (h : ∀ n, i ≤ n → n < j → cell n = none) : values cell i j = [] := by
  refine List.filterMap_eq_nil_iff.mpr fun n hn => ?_
  rw [List.mem_range'_1] at hn
  exact h n hn.1 (by omega)

theorem values_succ_of_some (h : cell i = some x) : values cell i (i + 1) = [x] := by
  simp [values, h]

/-- A write outside the range. -/
theorem values_update_of_notMem (h : f < i ∨ j ≤ f) (v : Option α) :
    values (Function.update cell f v) i j = values cell i j := by
  refine List.filterMap_congr fun n hn => ?_
  rw [List.mem_range'_1] at hn
  exact Function.update_of_ne (by omega) _ _

/-- A write behind the last value of the range. -/
theorem values_update_of_last (hi : i ≤ f) (hj : f < j)
    (hafter : ∀ n, f ≤ n → n < j → cell n = none) :
    values (Function.update cell f (some x)) i j = values cell i j ++ [x] := by
  have hrest : ∀ n, f + 1 ≤ n → n < j → Function.update cell f (some x) n = none := by
    intro n hn hnj
    rw [Function.update_of_ne (by omega)]
    exact hafter n (by omega) hnj
  have hold : values cell i f = values cell i j := by
    rw [← values_append hi hj.le, values_of_none hafter, List.append_nil]
  rw [← values_append hi hj.le, ← values_append (Nat.le_succ f) hj, values_of_none hrest,
    values_succ_of_some (Function.update_self f (some x) cell),
    values_update_of_notMem (.inr le_rfl), hold, List.append_nil]

/-! ## The reading order -/

/-- The values in the order in which a reader at position `k` gets to them. -/
def pending (first limit : ℕ) (cell : ℕ → Option α) (k : ℕ) : List α :=
  values cell k limit ++ values cell first k

/-- The cells hold values below `j` and from the reader's position `k` up to `t`, and nothing
in between and above. -/
structure Ordered (first limit : ℕ) (cell : ℕ → Option α) (k j t : ℕ) : Prop where
  first_le : first ≤ j
  le_pos : j ≤ k
  pos_le : k ≤ t
  le_limit : t ≤ limit
  isSome_iff : ∀ n, first ≤ n → n < limit → ((cell n).isSome ↔ n < j ∨ k ≤ n ∧ n < t)

theorem Ordered.none_iff {t : ℕ} (h : Ordered first limit cell k j t) {n : ℕ} (hn : first ≤ n)
    (hlt : n < limit) : cell n = none ↔ j ≤ n ∧ (k ≤ n → t ≤ n) := by
  rw [← Option.not_isSome_iff_eq_none, h.isSome_iff n hn hlt]
  omega

theorem ordered_of_none (hle : first ≤ limit) (h : ∀ n, first ≤ n → n < limit → cell n = none) :
    Ordered first limit cell first first first := by
  refine ⟨le_rfl, le_rfl, le_rfl, hle, fun n hn hlt => ?_⟩
  rw [h n hn hlt]
  simp only [Option.isSome_none, Bool.false_eq_true, false_iff]
  omega

/-! ## Reading -/

/-- Taking a value removes the head of the reading order. -/
theorem pending_of_some (hk : first ≤ k) (hlt : k < limit) (hx : cell k = some x) :
    pending first limit cell k
      = x :: pending first limit (Function.update cell k none) (k + 1) := by
  have hbehind : values (Function.update cell k none) first (k + 1) = values cell first k := by
    rw [← values_append hk (Nat.le_succ k), values_update_of_notMem (.inr le_rfl)]
    have hself : values (Function.update cell k none) k (k + 1) = [] := by
      refine values_of_none fun n hn hlt => ?_
      obtain rfl : n = k := by omega
      exact Function.update_self n none cell
    rw [hself, List.append_nil]
  unfold pending
  rw [hbehind, values_update_of_notMem (.inl (Nat.lt_succ_self k)),
    ← values_append (Nat.le_succ k) hlt, values_succ_of_some hx]
  rfl

theorem Ordered.of_some {t : ℕ} (h : Ordered first limit cell k j t) (hlt : k < limit)
    (hx : cell k = some x) : Ordered first limit (Function.update cell k none) (k + 1) j t := by
  have hfirst := h.first_le
  have hpos := h.le_pos
  have hkt : k < t := by
    have hsome := (h.isSome_iff k (by omega) hlt).mp (by rw [hx]; rfl)
    omega
  refine ⟨hfirst, by omega, hkt, h.le_limit, fun n hn hnl => ?_⟩
  by_cases hnk : n = k
  · subst hnk
    rw [Function.update_self]
    simp only [Option.isSome_none, Bool.false_eq_true, false_iff]
    omega
  · rw [Function.update_of_ne hnk, h.isSome_iff n hn hnl]
    omega

/-- At a free cell nothing is left above the reader. -/
theorem Ordered.eq_of_none {t : ℕ} (h : Ordered first limit cell k j t)
    (hnone : k = limit ∨ cell k = none) : t = k := by
  have hfirst := h.first_le
  have hpos := h.le_pos
  have hle := h.pos_le
  have hlim := h.le_limit
  rcases hnone with hk | hk
  · omega
  · by_cases hlt : k < limit
    · have := (h.none_iff (by omega) hlt).mp hk
      omega
    · omega

theorem Ordered.pending_of_none {t : ℕ} (h : Ordered first limit cell k j t)
    (hnone : k = limit ∨ cell k = none) :
    pending first limit cell first = pending first limit cell k := by
  obtain rfl := h.eq_of_none hnone
  have hfirst := h.first_le
  have hpos := h.le_pos
  have hlim := h.le_limit
  have habove : values cell t limit = [] := by
    refine values_of_none fun n hn hlt => ?_
    exact (h.none_iff (by omega) hlt).mpr (by omega)
  unfold pending
  rw [habove, values_self, List.nil_append, List.append_nil,
    ← values_append (by omega : first ≤ t) hlim, habove, List.append_nil]

/-- Starting again at `first`. -/
theorem Ordered.of_none {t : ℕ} (h : Ordered first limit cell k j t)
    (hnone : k = limit ∨ cell k = none) : Ordered first limit cell first first j := by
  obtain rfl := h.eq_of_none hnone
  have hpos := h.le_pos
  have hlim := h.le_limit
  refine ⟨le_rfl, le_rfl, h.first_le, by omega, fun n hn hlt => ?_⟩
  rw [h.isSome_iff n hn hlt]
  omega

/-! ## Writing -/

/-- The lowest free cell. -/
def LowestFree (first limit : ℕ) (cell : ℕ → Option α) (f : ℕ) : Prop :=
  IsLeast {n | first ≤ n ∧ n < limit ∧ cell n = none} f

/-- The reader is about to begin a sweep, or some cell behind it is free. -/
def NotOvertaken (first : ℕ) (cell : ℕ → Option α) (k : ℕ) : Prop :=
  k = first ∨ ∃ n < k, first ≤ n ∧ cell n = none

/-- Which cell a write fills that is not overtaken: the one above the reader's sweep when the
reader is about to begin, else the first free one behind it. -/
theorem Ordered.lowestFree_eq {t : ℕ} (h : Ordered first limit cell k j t)
    (hf : LowestFree first limit cell f) (hnot : NotOvertaken first cell k) :
    k = first ∧ j = first ∧ f = t ∨ j < k ∧ f = j := by
  obtain ⟨⟨hfirst, hlt, hnone⟩, hleast⟩ := hf
  have hj := h.first_le
  have hpos := h.le_pos
  have hle := h.pos_le
  have hlim := h.le_limit
  have hfree := (h.none_iff hfirst hlt).mp hnone
  rcases hnot with rfl | ⟨n, hnk, hn, hcell⟩
  · left
    obtain rfl : j = k := by omega
    have htf : t ≤ f := hfree.2 hfree.1
    have ht_none : cell t = none := (h.none_iff (by omega) (by omega)).mpr (by omega)
    have hft : f ≤ t := hleast ⟨by omega, by omega, ht_none⟩
    exact ⟨rfl, rfl, by omega⟩
  · right
    have hjn := (h.none_iff hn (by omega)).mp hcell
    have hfj : f ≤ j := hleast ⟨hj, by omega, (h.none_iff hj (by omega)).mpr (by omega)⟩
    omega

theorem Ordered.pending_write {t : ℕ} (h : Ordered first limit cell k j t)
    (hf : LowestFree first limit cell f) (hnot : NotOvertaken first cell k) :
    pending first limit (Function.update cell f (some x)) k
      = pending first limit cell k ++ [x] := by
  have hpos := h.le_pos
  have hle := h.pos_le
  have hlim := h.le_limit
  have hfirst : first ≤ f := hf.1.1
  have hlt : f < limit := hf.1.2.1
  unfold pending
  rcases h.lowestFree_eq hf hnot with ⟨rfl, rfl, rfl⟩ | ⟨hjk, rfl⟩
  · rw [values_self, values_self, List.append_nil, List.append_nil]
    exact values_update_of_last hfirst hlt fun n hn hnl =>
      (h.none_iff (by omega) hnl).mpr (by omega)
  · rw [values_update_of_notMem (.inl hjk), List.append_assoc]
    congr 1
    exact values_update_of_last hfirst hjk fun n hn hnk =>
      (h.none_iff (by omega) (by omega)).mpr (by omega)

theorem Ordered.write {t : ℕ} (h : Ordered first limit cell k j t)
    (hf : LowestFree first limit cell f) (hnot : NotOvertaken first cell k) :
    ∃ j' t', Ordered first limit (Function.update cell f (some x)) k j' t' := by
  have hfirst := h.first_le
  have hpos := h.le_pos
  have hle := h.pos_le
  have hlim := h.le_limit
  have hlt : f < limit := hf.1.2.1
  -- the new value is above the reader's sweep, or the last one behind it
  obtain ⟨j', t', hj', hjk, hkt, ht', hfilled⟩ : ∃ j' t', first ≤ j' ∧ j' ≤ k ∧ k ≤ t' ∧
      t' ≤ limit ∧ ∀ n, first ≤ n →
        (n < j' ∨ k ≤ n ∧ n < t' ↔ n = f ∨ n < j ∨ k ≤ n ∧ n < t) := by
    rcases h.lowestFree_eq hf hnot with ⟨rfl, rfl, rfl⟩ | ⟨hjk, rfl⟩
    · exact ⟨j, f + 1, by omega, by omega, by omega, hlt, fun n hn => by omega⟩
    · exact ⟨f + 1, t, by omega, hjk, hle, hlim, fun n hn => by omega⟩
  refine ⟨j', t', hj', hjk, hkt, ht', fun n hn hnl => ?_⟩
  rw [hfilled n hn]
  by_cases hnf : n = f
  · subst hnf
    simp
  · rw [Function.update_of_ne hnf, h.isSome_iff n hn hnl]
    simp [hnf]

/-! ## How far a sweep gets -/

/-- A sweep that goes on as long as a test holds covers a run of positions, and the test fails
right behind it. -/
theorem exists_takeWhile_range' (p : ℕ → Bool) (n : ℕ) :
    ∃ l ≤ n, (List.range' i n).takeWhile p = List.range' i l ∧
      (∀ m, i ≤ m → m < i + l → p m = true) ∧ (l < n → p (i + l) = false) := by
  induction n generalizing i with
  | zero => exact ⟨0, Nat.le_refl 0, rfl, fun m h₁ h₂ => by omega, fun h => by omega⟩
  | succ n ih =>
    rw [List.range'_succ, List.takeWhile_cons]
    cases hp : p i with
    | false => exact ⟨0, Nat.zero_le _, rfl, fun m h₁ h₂ => by omega, fun _ => hp⟩
    | true =>
      obtain ⟨l, hl, htake, hall, hstop⟩ := ih (i := i + 1)
      refine ⟨l + 1, by omega, ?_, ?_, ?_⟩
      · rw [htake, List.range'_succ]
        rfl
      · intro m h₁ h₂
        rcases Nat.eq_or_lt_of_le h₁ with rfl | h₁
        · exact hp
        · exact hall m h₁ (by omega)
      · intro h
        have := hstop (by omega)
        rwa [Nat.add_right_comm, Nat.add_assoc] at this

end Sweep
