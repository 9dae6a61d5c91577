import Mathlib.Data.List.Basic
import Mathlib.Data.List.Nodup
import Mathlib.Logic.Function.Basic
import Mathlib.Tactic.Common

/-!
# Linked segments

Cells that point to each other through a `next` pointer. A segment is the list of cells a walk
passes, and `e` is where the last of them points to, so that segments can be put one after the
other (`segment_append`) and cut again by writing one pointer (`Segment.relink`). A loose list of
cells is a segment some of whose links are missing.
-/

namespace Linked

variable {α : Type*} {next next' : α → Option α} {l m : List α} {e e' : Option α} {a : α}

/-- The pointer to a segment that is followed by `e`. -/
def first (l : List α) (e : Option α) : Option α := l.head?.or e

@[simp] theorem first_nil (e : Option α) : first [] e = e := rfl

@[simp] theorem first_cons (a : α) (l : List α) (e : Option α) : first (a :: l) e = some a := rfl

theorem first_append (l m : List α) (e : Option α) : first (l ++ m) e = first l (first m e) := by
  cases l <;> rfl

theorem first_of_ne_nil (h : l ≠ []) (e e' : Option α) : first l e = first l e' := by
  cases l with
  | nil => exact absurd rfl h
  | cons a l => rfl

/-- The pointer to a segment is the pointer to its first cell. -/
theorem first_of_head? (h : l.head? = some a) (e : Option α) : first l e = some a := by
  unfold first
  rw [h, Option.some_or]

theorem first_append_of_head? (h : l.head? = some a) (m : List α) (e : Option α) :
    first (l ++ m) e = some a := by
  rw [first_append, first_of_head? h]

/-- The cells of `l` are linked in order, and the last one to `e`. -/
def Segment (next : α → Option α) : List α → Option α → Prop
  | [], _ => True
  | a :: l, e => next a = first l e ∧ Segment next l e

theorem segment_append :
    Segment next (l ++ m) e ↔ Segment next l (first m e) ∧ Segment next m e := by
  induction l with
  | nil => exact ⟨fun h => ⟨trivial, h⟩, fun h => h.2⟩
  | cons a l ih =>
    show (next a = first (l ++ m) e ∧ Segment next (l ++ m) e) ↔
      (next a = first l (first m e) ∧ Segment next l (first m e)) ∧ Segment next m e
    rw [ih, first_append, and_assoc]

/-- A segment depends on the pointers of its own cells only. -/
theorem Segment.congr (h : Segment next l e) (hnext : ∀ a ∈ l, next' a = next a) :
    Segment next' l e := by
  induction l with
  | nil => trivial
  | cons a l ih =>
    rcases h with ⟨ha, hl⟩
    exact ⟨(hnext a List.mem_cons_self).trans ha,
      ih hl fun b hb => hnext b (List.mem_cons_of_mem _ hb)⟩

theorem Segment.next_last (h : Segment next l e) (hlast : l.getLast? = some a) : next a = e := by
  rcases List.getLast?_eq_some_iff.mp hlast with ⟨l, rfl⟩
  exact ((segment_append.mp h).2).1

/-- The last pointer of a segment is written. -/
theorem Segment.relink (h : Segment next l e) (hnodup : l.Nodup) (hlast : l.getLast? = some a)
    (hnext : ∀ b ∈ l, b ≠ a → next' b = next b) (ha : next' a = e') : Segment next' l e' := by
  rcases List.getLast?_eq_some_iff.mp hlast with ⟨l, rfl⟩
  rw [segment_append] at h ⊢
  refine ⟨?_, ha, trivial⟩
  apply h.1.congr
  intro b hb
  apply hnext b (List.mem_append_left _ hb)
  intro hba
  exact List.disjoint_of_nodup_append hnodup hb (hba ▸ List.mem_cons_self)

/-- A segment is put behind another one by writing the last pointers of both. -/
theorem Segment.splice {e₁ e₂ : Option α} {b : α} (hl : Segment next l e₁) (hm : Segment next m e₂)
    (hnodup : (l ++ m).Nodup) (hlastl : l.getLast? = some a) (hlastm : m.getLast? = some b)
    (hnext : ∀ c, c ≠ a → c ≠ b → next' c = next c) (ha : next' a = first m e)
    (hb : next' b = e) : Segment next' (l ++ m) e := by
  have hdisj := List.disjoint_of_nodup_append hnodup
  rw [segment_append]
  constructor
  · refine hl.relink hnodup.of_append_left hlastl (fun c hc hca => hnext c hca ?_) ha
    intro hcb
    exact hdisj hc (hcb ▸ List.mem_of_getLast? hlastm)
  · refine hm.relink hnodup.of_append_right hlastm (fun c hc hcb => hnext c ?_ hcb) hb
    intro hca
    exact hdisj (List.mem_of_getLast? hlastl) (hca ▸ hc)

/-- A cell of a segment points to the next one, or to what follows. -/
theorem Segment.next_of_mem {b : α} (h : Segment next l (some b)) (ha : a ∈ l) :
    ∃ c ∈ l ++ [b], next a = some c := by
  induction l with
  | nil => simp at ha
  | cons d l ih =>
    rcases List.mem_cons.mp ha with rfl | ha
    · cases l with
      | nil => exact ⟨b, by simp, h.1⟩
      | cons c l => exact ⟨c, by simp, h.1⟩
    · rcases ih h.2 ha with ⟨c, hc, hac⟩
      exact ⟨c, List.mem_cons_of_mem _ hc, hac⟩

/-- Cells that point to the one behind them. -/
theorem segment_range {next : ℕ → Option ℕ} {n : ℕ} (h : ∀ i < n, next i = some (i + 1)) :
    Segment next (List.range n) (some n) := by
  induction n with
  | zero => trivial
  | succ n ih =>
    rw [List.range_succ, segment_append]
    exact ⟨ih fun i hi => h i (by omega), h n (by omega), trivial⟩

/-! ## Segments that end -/

/-- What is behind a pointer is known by the pointer. -/
theorem Segment.unique (hl : Segment next l none) (hm : Segment next m none)
    (hfirst : first l none = first m none) : l = m := by
  induction l generalizing m with
  | nil =>
    cases m with
    | nil => rfl
    | cons b m => cases hfirst
  | cons a l ih =>
    cases m with
    | nil => cases hfirst
    | cons b m =>
      obtain rfl : a = b := Option.some.inj hfirst
      rw [ih hl.2 hm.2 (hl.1.symm.trans hm.1)]

/-- A walk that ends passes no cell twice. -/
theorem Segment.nodup (h : Segment next l none) : l.Nodup := by
  induction l with
  | nil => exact List.nodup_nil
  | cons a l ih =>
    refine List.nodup_cons.mpr ⟨?_, ih h.2⟩
    intro ha
    rcases List.append_of_mem ha with ⟨m, r, rfl⟩
    -- from `a` on the walk is as long as from the second `a` on
    have hagain : Segment next (a :: r) none := (segment_append.mp h.2).2
    have hsame := congrArg List.length (h.unique hagain rfl)
    simp only [List.length_cons, List.length_append] at hsame
    omega

/-! ## Missing links -/

/-- Cells of which each points to the next one or nowhere. -/
def Loose (next : α → Option α) : List α → Prop
  | [] => True
  | a :: l => (next a = none ∨ next a = l.head?) ∧ Loose next l

theorem Segment.loose (h : Segment next l none) : Loose next l := by
  induction l with
  | nil => trivial
  | cons a l ih => exact ⟨.inr (h.1.trans Option.or_none), ih h.2⟩

/-- Nothing is missing if the last cell points nowhere. -/
theorem Loose.append (hl : Loose next l) (hm : Loose next m) : Loose next (l ++ m) := by
  induction l with
  | nil => exact hm
  | cons a l ih =>
    rcases hl with ⟨ha, hl⟩
    refine ⟨?_, ih hl⟩
    cases l with
    | nil => exact .inl (ha.elim id id)
    | cons b l => exact ha

theorem Loose.of_append_right (h : Loose next (l ++ m)) : Loose next m := by
  induction l with
  | nil => exact h
  | cons a l ih => exact ih h.2

theorem Loose.congr (h : Loose next l) (hnext : ∀ a ∈ l, next' a = next a) : Loose next' l := by
  induction l with
  | nil => trivial
  | cons a l ih =>
    refine ⟨?_, ih h.2 fun b hb => hnext b (List.mem_cons_of_mem _ hb)⟩
    rw [hnext a List.mem_cons_self]
    exact h.1

/-! ## Walking -/

/-- Follow the pointers, over so many cells at most. -/
def walk (next : α → Option α) : ℕ → Option α → List α
  | 0, _ => []
  | _ + 1, none => []
  | fuel + 1, some a => a :: walk next fuel (next a)

theorem walk_segment (h : Segment next l none) {fuel : ℕ} (hfuel : l.length ≤ fuel) :
    walk next fuel (first l none) = l := by
  induction l generalizing fuel with
  | nil => cases fuel <;> rfl
  | cons a l ih =>
    obtain ⟨fuel, rfl⟩ := Nat.exists_eq_succ_of_ne_zero (Nat.ne_zero_of_lt hfuel)
    show a :: walk next fuel (next a) = a :: l
    rw [h.1, ih h.2 (Nat.le_of_succ_le_succ hfuel)]

end Linked
