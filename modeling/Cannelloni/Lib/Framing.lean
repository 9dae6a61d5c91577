import Mathlib.Data.List.Basic
import Mathlib.Tactic.Common

/-!
# Frames in a stream

A stream whose entries say whether their frame goes on behind them, as a chip select that is held
between the characters of a transaction. `mark` turns a frame into entries, `frames` finds the
frames in a stream (`frames_flatMap_mark`).
-/

namespace Framing

variable {α : Type*}

/-- The entries of a frame, each with whether the frame goes on behind it. -/
def mark : List α → List (α × Bool)
  | [] => []
  | [a] => [(a, false)]
  | a :: b :: l => (a, true) :: mark (b :: l)

/-- The frames of a stream that begins behind the entries `opened` of a frame. -/
def frames (opened : List α) : List (α × Bool) → List (List α)
  | [] => []
  | (a, true) :: s => frames (opened ++ [a]) s
  | (a, false) :: s => (opened ++ [a]) :: frames [] s

@[simp] theorem map_fst_mark (f : List α) : (mark f).map Prod.fst = f := by
  induction f with
  | nil => rfl
  | cons a l ih =>
    cases l with
    | nil => rfl
    | cons b l =>
      rw [mark, List.map_cons, ih]

@[simp] theorem length_mark (f : List α) : (mark f).length = f.length := by
  rw [← List.length_map (f := Prod.fst), map_fst_mark]

/-- An entry goes on exactly when it is not the last one. -/
theorem getElem_mark (f : List α) {i : ℕ} (h : i < (mark f).length) (hi : i < f.length) :
    (mark f)[i] = (f[i], decide (i + 1 ≠ f.length)) := by
  induction f generalizing i with
  | nil => simp [mark] at h
  | cons a l ih =>
    cases l with
    | nil =>
      obtain rfl : i = 0 := by simpa [mark] using h
      rfl
    | cons b l =>
      cases i with
      | zero => simp [mark]
      | succ i =>
        have hmark : i < (mark (b :: l)).length := by simpa [mark] using h
        simp only [mark, List.getElem_cons_succ]
        rw [ih hmark (Nat.lt_of_succ_lt_succ hi)]
        simp

theorem frames_mark {f : List α} (h : f ≠ []) (opened : List α) (s : List (α × Bool)) :
    frames opened (mark f ++ s) = (opened ++ f) :: frames [] s := by
  induction f generalizing opened with
  | nil => exact absurd rfl h
  | cons a l ih =>
    cases l with
    | nil => rfl
    | cons b l =>
      show frames (opened ++ [a]) (mark (b :: l) ++ s) = _
      rw [ih (List.cons_ne_nil b l), List.append_assoc, List.singleton_append]

/-- What is to come does not change the frames that are complete. -/
theorem frames_prefix (s t : List (α × Bool)) (opened : List α) :
    frames opened s <+: frames opened (s ++ t) := by
  induction s generalizing opened with
  | nil => exact List.nil_prefix
  | cons e s ih =>
    obtain ⟨a, more⟩ := e
    cases more with
    | true => exact ih (opened ++ [a])
    | false => exact List.cons_prefix_cons.mpr ⟨rfl, ih []⟩

/-- The frames come back out of the stream. -/
theorem frames_flatMap_mark {fs : List (List α)} (h : ∀ f ∈ fs, f ≠ []) :
    frames [] (fs.flatMap mark) = fs := by
  induction fs with
  | nil => rfl
  | cons f fs ih =>
    rw [List.flatMap_cons, frames_mark (h f List.mem_cons_self), List.nil_append,
      ih fun g hg => h g (List.mem_cons_of_mem f hg)]

end Framing
