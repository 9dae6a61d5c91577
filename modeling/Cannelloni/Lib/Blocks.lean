import Mathlib.Algebra.Order.Ring.Nat
import Mathlib.Data.List.Chain
import Mathlib.Tactic.Common

/-!
# An interval cut into blocks

What an allocator hands out memory from: blocks that lie one behind the other, some in use and no
two unused ones next to each other. Then every gap between the blocks in use is one block, so that
a search of the blocks misses no room (`exists_unused`), and how much room there must be follows
from what is in use (`span_le`).

The second half is about headers in front of the blocks, each with the positions of its two
neighbours, that are written one at a time.
-/

namespace Blocks

/-- A block, its header included. -/
structure Block where
  size : ℕ
  used : Bool
deriving DecidableEq, Repr

variable {l r bs : List Block} {b : Block} {a n : ℕ}

/-! ## Where the blocks are -/

/-- The length of the interval. -/
def span : List Block → ℕ
  | [] => 0
  | b :: bs => b.size + span bs

/-- Start and length of the blocks in use, the first block being at `a`. -/
def extents : ℕ → List Block → List (ℕ × ℕ)
  | _, [] => []
  | a, b :: bs => (if b.used then [(a, b.size)] else []) ++ extents (a + b.size) bs

/-- The start of the first unused block, or the end. -/
def firstUnused : ℕ → List Block → ℕ
  | a, [] => a
  | a, b :: bs => if b.used then firstUnused (a + b.size) bs else a

@[simp] theorem span_nil : span [] = 0 := rfl

@[simp] theorem span_cons : span (b :: bs) = b.size + span bs := rfl

@[simp] theorem span_append : span (l ++ r) = span l + span r := by
  induction l with
  | nil => simp
  | cons b l ih => simp [ih, Nat.add_assoc]

@[simp] theorem extents_nil : extents a [] = [] := rfl

@[simp] theorem extents_used : extents a (⟨n, true⟩ :: bs) = (a, n) :: extents (a + n) bs := rfl

@[simp] theorem extents_unused : extents a (⟨n, false⟩ :: bs) = extents (a + n) bs := rfl

@[simp] theorem extents_append : extents a (l ++ r) = extents a l ++ extents (a + span l) r := by
  induction l generalizing a with
  | nil => simp
  | cons b l ih => simp only [List.cons_append, extents, ih, span_cons, Nat.add_assoc,
      List.append_assoc]

/-- The blocks in use lie in the interval. -/
theorem extent_bounds {e : ℕ × ℕ} (he : e ∈ extents a bs) :
    a ≤ e.1 ∧ e.1 + e.2 ≤ a + span bs := by
  induction bs generalizing a with
  | nil => simp at he
  | cons b bs ih =>
    rcases List.mem_append.mp he with he | he
    · split at he
      · rw [List.mem_singleton.mp he]
        simp only [span_cons]
        omega
      · simp at he
    · have hrest := ih he
      simp only [span_cons]
      omega

/-- The blocks in use lie one behind the other. -/
theorem extents_pairwise (a : ℕ) (bs : List Block) :
    (extents a bs).Pairwise fun e f => e.1 + e.2 ≤ f.1 := by
  induction bs generalizing a with
  | nil => exact List.Pairwise.nil
  | cons b bs ih =>
    refine List.pairwise_append.mpr ⟨?_, ih _, ?_⟩
    · split <;> simp
    · intro e he f hf
      have hbounds := extent_bounds hf
      split at he
      · rw [List.mem_singleton.mp he]
        exact hbounds.1
      · simp at he

/-- Two blocks in use are the same, or one is behind the other. -/
theorem eq_or_apart {e f : ℕ × ℕ} (he : e ∈ extents a bs) (hf : f ∈ extents a bs) :
    e = f ∨ e.1 + e.2 ≤ f.1 ∨ f.1 + f.2 ≤ e.1 := by
  induction bs generalizing a with
  | nil => simp at he
  | cons b bs ih =>
    rcases List.mem_append.mp he with he | he
    · split at he
      · rcases List.mem_append.mp hf with hf | hf
        · rw [if_pos ‹_›] at hf
          rw [List.mem_singleton.mp he, List.mem_singleton.mp hf]
          exact .inl rfl
        · have hbounds := extent_bounds hf
          rw [List.mem_singleton.mp he]
          exact .inr (.inl hbounds.1)
      · simp at he
    · rcases List.mem_append.mp hf with hf | hf
      · split at hf
        · have hbounds := extent_bounds he
          rw [List.mem_singleton.mp hf]
          exact .inr (.inr hbounds.1)
        · simp at hf
      · exact ih he hf

theorem size_le_span (hb : b ∈ bs) : b.size ≤ span bs := by
  induction bs with
  | nil => simp at hb
  | cons c bs ih =>
    rw [span_cons]
    rcases List.mem_cons.mp hb with rfl | hb
    · omega
    · have hle := ih hb
      omega

theorem length_le_span (hpos : ∀ b ∈ bs, 0 < b.size) : bs.length ≤ span bs := by
  induction bs with
  | nil => simp
  | cons b bs ih =>
    have hb := hpos b List.mem_cons_self
    have hle := ih fun c hc => hpos c (List.mem_cons_of_mem _ hc)
    rw [span_cons, List.length_cons]
    omega

/-- A block in use, with what lies in front of it and behind it. -/
theorem exists_of_mem_extents {e : ℕ × ℕ} (he : e ∈ extents a bs) :
    ∃ l r, bs = l ++ ⟨e.2, true⟩ :: r ∧ e.1 = a + span l := by
  induction bs generalizing a with
  | nil => simp at he
  | cons b bs ih =>
    rcases List.mem_append.mp he with he | he
    · split at he
      · next hb =>
        rw [List.mem_singleton.mp he, ← hb]
        exact ⟨[], bs, rfl, by simp⟩
      · simp at he
    · rcases ih he with ⟨l, r, rfl, heq⟩
      exact ⟨b :: l, r, rfl, by simp [heq, Nat.add_assoc]⟩

theorem firstUnused_append :
    firstUnused a (l ++ r)
      = if ∀ b ∈ l, b.used = true then firstUnused (a + span l) r else firstUnused a l := by
  induction l generalizing a with
  | nil => simp
  | cons b l ih =>
    by_cases hb : b.used = true
    · simp [firstUnused, hb, ih, Nat.add_assoc]
    · simp [firstUnused, hb]

/-- What lies in front of the first unused block, and the blocks from there on. -/
theorem exists_firstUnused (a : ℕ) (bs : List Block) :
    ∃ l r, bs = l ++ r ∧ (∀ b ∈ l, b.used = true) ∧ (∀ b ∈ r.head?, b.used = false) ∧
      firstUnused a bs = a + span l := by
  induction bs generalizing a with
  | nil => exact ⟨[], [], rfl, by simp, by simp, rfl⟩
  | cons b bs ih =>
    unfold firstUnused
    split
    · next hb =>
      rcases ih (a + b.size) with ⟨l, r, rfl, hl, hr, heq⟩
      refine ⟨b :: l, r, rfl, ?_, hr, ?_⟩
      · simpa [hb] using hl
      · rw [heq, span_cons, Nat.add_assoc]
    · next hb => exact ⟨[], b :: bs, rfl, by simp, by simpa using hb, rfl⟩

/-- Behind the first unused block it does not matter what there is. -/
theorem firstUnused_congr {n' : ℕ} {r' : List Block} :
    firstUnused a (l ++ ⟨n, false⟩ :: r) = firstUnused a (l ++ ⟨n', false⟩ :: r') := by
  rw [firstUnused_append, firstUnused_append]
  rfl

/-- An unused block is not in front of the first one. -/
theorem firstUnused_le (hb : b.used = false) : firstUnused a (l ++ b :: r) ≤ a + span l := by
  induction l generalizing a with
  | nil => simp [firstUnused, hb]
  | cons c l ih =>
    have hrest := ih (a := a + c.size)
    simp only [List.cons_append, firstUnused, span_cons]
    split <;> omega

theorem le_firstUnused (a : ℕ) (bs : List Block) : a ≤ firstUnused a bs := by
  induction bs generalizing a with
  | nil => exact le_rfl
  | cons b bs ih =>
    unfold firstUnused
    split
    · have hrest := ih (a + b.size)
      omega
    · exact le_rfl

theorem firstUnused_lt (hpos : ∀ b ∈ bs, 0 < b.size) (h : ¬∀ b ∈ bs, b.used = true) :
    firstUnused a bs < a + span bs := by
  induction bs generalizing a with
  | nil => simp at h
  | cons b bs ih =>
    have hb := hpos b List.mem_cons_self
    unfold firstUnused
    rw [span_cons]
    split
    · next hused =>
      have hrest := ih (a := a + b.size) (fun c hc => hpos c (List.mem_cons_of_mem _ hc))
        (by simpa [hused] using h)
      omega
    · omega

/-! ## No two unused blocks next to each other -/

/-- No two unused blocks are next to each other. -/
def Merged (bs : List Block) : Prop := bs.IsChain fun b c => b.used = true ∨ c.used = true

/-- The last block, if there is one, is in use. -/
def LastUsed (bs : List Block) : Prop := ∀ b ∈ bs.getLast?, b.used = true

/-- The first block, if there is one, is in use. -/
def HeadUsed (bs : List Block) : Prop := ∀ b ∈ bs.head?, b.used = true

@[simp] theorem merged_nil : Merged [] := List.isChain_nil

@[simp] theorem headUsed_nil : HeadUsed [] := by simp [HeadUsed]

@[simp] theorem headUsed_cons : HeadUsed (b :: bs) ↔ b.used = true := by simp [HeadUsed]

@[simp] theorem lastUsed_nil : LastUsed [] := by simp [LastUsed]

@[simp] theorem lastUsed_concat : LastUsed (bs ++ [b]) ↔ b.used = true := by simp [LastUsed]

theorem merged_cons : Merged (b :: bs) ↔ (b.used = true ∨ HeadUsed bs) ∧ Merged bs := by
  unfold Merged
  cases bs with
  | nil => simp
  | cons c bs => rw [List.isChain_cons_cons, headUsed_cons]

theorem merged_append :
    Merged (l ++ r) ↔ Merged l ∧ Merged r ∧ (LastUsed l ∨ HeadUsed r) := by
  unfold Merged
  rw [List.isChain_append]
  refine and_congr_right fun _ => and_congr_right fun _ => ?_
  unfold LastUsed HeadUsed
  cases hl : l.getLast? <;> cases hr : r.head? <;> simp

/-- Around a block in use the rest is arbitrary. -/
theorem merged_used : Merged (l ++ ⟨n, true⟩ :: r) ↔ Merged l ∧ Merged r := by
  simp [merged_append, merged_cons]

/-- The neighbours of an unused block are in use. -/
theorem merged_unused :
    Merged (l ++ ⟨n, false⟩ :: r) ↔ Merged l ∧ Merged r ∧ LastUsed l ∧ HeadUsed r := by
  simp only [merged_append, merged_cons, headUsed_cons, Bool.false_eq_true, false_or, or_false]
  tauto

/-- Room that meets no block in use lies in one unused block. -/
theorem exists_unused (hm : Merged bs) (hpos : ∀ b ∈ bs, 0 < b.size) (hn : 0 < n) {x : ℕ}
    (hx : a ≤ x) (hxn : x + n ≤ a + span bs)
    (hfree : ∀ e ∈ extents a bs, x + n ≤ e.1 ∨ e.1 + e.2 ≤ x) :
    ∃ l m r, bs = l ++ ⟨m, false⟩ :: r ∧ a + span l ≤ x ∧ x + n ≤ a + span l + m := by
  induction bs generalizing a with
  | nil =>
    simp only [span_nil] at hxn
    omega
  | cons b bs ih =>
    rw [merged_cons] at hm
    rcases b with ⟨m, used⟩
    by_cases hin : a + m ≤ x
    · -- behind this block
      rcases ih hm.2 (fun c hc => hpos c (List.mem_cons_of_mem _ hc)) hin
          (by simpa [Nat.add_assoc] using hxn)
          (fun e he => hfree e (List.mem_append_right _ he)) with ⟨l, k, r, rfl, hle, hend⟩
      refine ⟨⟨m, used⟩ :: l, k, r, rfl, ?_, ?_⟩ <;> simp only [span_cons] <;> omega
    · cases used with
      | true =>
        have hthis := hfree (a, m) (by simp)
        omega
      | false =>
        refine ⟨[], m, bs, rfl, by simpa using hx, ?_⟩
        -- else it would reach into the next block, which is in use
        by_contra hout
        cases bs with
        | nil => simp at hxn hout; omega
        | cons c bs =>
          rcases c with ⟨k, used⟩
          have hused : used = true := by simpa using hm.1
          subst hused
          have hk := hpos ⟨k, true⟩ (by simp)
          have hnext := hfree (a + m, k) (by simp)
          simp only [span_nil] at hout hk
          omega

/-- If no unused block is longer than `n`, the interval is not longer than the blocks in use with
a gap of `n` in front of each and at the end. -/
theorem span_le (hm : Merged bs) (hn : ∀ b ∈ bs, b.used = false → b.size ≤ n) :
    span bs ≤ ((extents a bs).map Prod.snd).sum + ((extents a bs).length + 1) * n := by
  -- the gap in front of the first block is there only if that block is unused
  have hgaps : span bs ≤ ((extents a bs).map Prod.snd).sum + ((extents a bs).length + 1) * n ∧
      (HeadUsed bs → span bs ≤ ((extents a bs).map Prod.snd).sum + (extents a bs).length * n) := by
    induction bs generalizing a with
    | nil => simp
    | cons b bs ih =>
      rw [merged_cons] at hm
      rcases b with ⟨m, used⟩
      have hrest := @ih (a + m) hm.2 fun c hc => hn c (List.mem_cons_of_mem _ hc)
      have hthis := hn ⟨m, used⟩ List.mem_cons_self
      cases used with
      | true =>
        simp only [extents_used, span_cons, List.map_cons, List.sum_cons, List.length_cons,
          Nat.add_mul] at hrest ⊢
        omega
      | false =>
        have hm' : m ≤ n := hthis rfl
        have hhead : HeadUsed bs := by simpa using hm.1
        have hle := hrest.2 hhead
        simp only [extents_unused, span_cons, Nat.add_mul] at hle ⊢
        refine ⟨by omega, fun hused => ?_⟩
        simp at hused
  exact hgaps.1

/-! ## Headers -/

/-- What the headers say, by position: where the next block begins, where the one in front does,
and whether the block is in use. -/
structure Headers where
  next : ℕ → ℕ
  prev : ℕ → ℕ
  used : ℕ → Bool

variable {H H' : Headers} {p q k : ℕ}

/-- From `a` on there are the headers of `bs`; the block in front of them begins at `p`. -/
def Links (H : Headers) : ℕ → ℕ → List Block → Prop
  | _, _, [] => True
  | p, a, b :: bs =>
    H.next a = a + b.size ∧ H.prev a = p ∧ H.used a = b.used ∧ Links H a (a + b.size) bs

/-- The start of the last block, or `p`. -/
def lastStart : ℕ → ℕ → List Block → ℕ
  | p, _, [] => p
  | _, a, b :: bs => lastStart a (a + b.size) bs

theorem links_append :
    Links H p a (l ++ r) ↔ Links H p a l ∧ Links H (lastStart p a l) (a + span l) r := by
  induction l generalizing p a with
  | nil => simp [Links, lastStart]
  | cons b l ih =>
    simp only [List.cons_append, Links, ih, lastStart, span_cons, ← Nat.add_assoc, and_assoc]

theorem lastStart_concat : lastStart p a (l ++ [b]) = a + span l := by
  induction l generalizing p a with
  | nil => simp [lastStart]
  | cons c l ih => simp [lastStart, ih, Nat.add_assoc]

theorem Links.prev_eq (h : Links H p a bs) (hbs : bs ≠ []) : H.prev a = p := by
  cases bs with
  | nil => exact absurd rfl hbs
  | cons b bs => exact h.2.1

/-- Headers that are not written, but for what the first one says about the block in front. -/
theorem Links.congr (h : Links H p a bs) (hsize : ∀ b ∈ bs, k ≤ b.size)
    (hsame : ∀ x, x = a ∨ a + k ≤ x → x + k ≤ a + span bs →
      H'.next x = H.next x ∧ H'.used x = H.used x)
    (hprev : ∀ x, a + k ≤ x → x + k ≤ a + span bs → H'.prev x = H.prev x)
    (hfirst : bs ≠ [] → H'.prev a = q) : Links H' q a bs := by
  induction bs generalizing p q a with
  | nil => trivial
  | cons b bs ih =>
    rcases h with ⟨hnext, -, hused, hrest⟩
    have hb := hsize b List.mem_cons_self
    simp only [span_cons] at hsame hprev
    have hhere := hsame a (.inl rfl) (by omega)
    refine ⟨hhere.1.trans hnext, hfirst (by simp), hhere.2.trans hused, ?_⟩
    refine ih hrest (fun c hc => hsize c (List.mem_cons_of_mem _ hc)) ?_ ?_ ?_
    · intro x hx hend
      exact hsame x (by omega) (by omega)
    · intro x hx hend
      exact hprev x (by omega) (by omega)
    · intro hne
      refine (hprev (a + b.size) (by omega) ?_).trans (hrest.prev_eq hne)
      cases bs with
      | nil => exact absurd rfl hne
      | cons c bs =>
        have hc := hsize c (by simp)
        simp only [span_cons]
        omega

/-- The headers of some blocks are written anew, and the one behind them says so. -/
theorem Links.replace {m m' : List Block} (h : Links H p a (l ++ m ++ r))
    (hsize : ∀ b ∈ l ++ r, k ≤ b.size) (hspan : span m' = span m)
    (hl : ∀ x, a ≤ x → x + k ≤ a + span l →
      H'.next x = H.next x ∧ H'.prev x = H.prev x ∧ H'.used x = H.used x)
    (hm : Links H' (lastStart p a l) (a + span l) m')
    (hr : ∀ x, x = a + span (l ++ m) ∨ a + span (l ++ m) + k ≤ x →
      x + k ≤ a + span (l ++ m ++ r) → H'.next x = H.next x ∧ H'.used x = H.used x)
    (hprev : ∀ x, a + span (l ++ m) + k ≤ x → x + k ≤ a + span (l ++ m ++ r) →
      H'.prev x = H.prev x)
    (hfirst : r ≠ [] → H'.prev (a + span (l ++ m)) = lastStart p a (l ++ m')) :
    Links H' p a (l ++ m' ++ r) := by
  have hsize' := List.forall_mem_append.mp hsize
  rw [links_append, links_append] at h
  rw [links_append, links_append]
  have hspan' : span (l ++ m') = span (l ++ m) := by simp [hspan]
  refine ⟨⟨?_, hm⟩, ?_⟩
  · refine h.1.1.congr hsize'.1 ?_ ?_ ?_
    · intro x hx hend
      have hx' := hl x (by omega) hend
      exact ⟨hx'.1, hx'.2.2⟩
    · intro x hx hend
      exact (hl x (by omega) hend).2.1
    · intro hne
      refine (hl a le_rfl ?_).2.1.trans (h.1.1.prev_eq hne)
      cases l with
      | nil => exact absurd rfl hne
      | cons c l =>
        have hc := hsize'.1 c (by simp)
        simp only [span_cons]
        omega
  · have hend : a + span (l ++ m ++ r) = a + span (l ++ m) + span r := by
      rw [span_append, Nat.add_assoc]
    rw [hend] at hr hprev
    rw [hspan']
    exact h.2.congr hsize'.2 hr hprev hfirst

end Blocks
