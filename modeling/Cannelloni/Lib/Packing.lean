import Mathlib.Data.Nat.Bitwise
import Mathlib.Data.Nat.Digits.Defs
import Mathlib.Data.Nat.Digits.Lemmas
import Mathlib.Tactic.Common

/-!
# Bit fields of a register

A `Range` names the bits of a field. `pack` makes a register of the values of its fields by
shifting and or-ing, which is right when the ranges are pairwise disjoint and the values fit
(`get_pack`). `words` cuts a register into words of equal width, lowest first; Mathlib's
`Nat.ofDigits` is the way back.
-/

namespace Packing

/-- The bits `start`, …, `start + width - 1`. -/
structure Range where
  start : ℕ
  width : ℕ

/-- The bit belongs to the range. -/
def Range.Has (r : Range) (i : ℕ) : Prop := r.start ≤ i ∧ i < r.start + r.width

instance (r : Range) (i : ℕ) : Decidable (r.Has i) := inferInstanceAs (Decidable (_ ∧ _))

/-- No bit belongs to both ranges. -/
def Range.Disjoint (r r' : Range) : Prop := ∀ i, r.Has i → ¬ r'.Has i

theorem Range.Disjoint.symm {r r' : Range} (h : r.Disjoint r') : r'.Disjoint r :=
  fun i hi' hi => h i hi hi'

theorem Range.disjoint_iff {r r' : Range} : r.Disjoint r' ↔
    r.width = 0 ∨ r'.width = 0 ∨ r.start + r.width ≤ r'.start ∨ r'.start + r'.width ≤ r.start := by
  constructor
  · intro h
    by_contra hover
    push Not at hover
    -- the later of the two starts belongs to both
    rcases Nat.le_total r.start r'.start with hle | hle
    · exact h r'.start ⟨hle, by omega⟩ ⟨le_rfl, by omega⟩
    · exact h r.start ⟨le_rfl, by omega⟩ ⟨hle, by omega⟩
  · intro h i hi hi'
    have h1 := hi.1
    have h2 := hi.2
    have h1' := hi'.1
    have h2' := hi'.2
    omega

instance (r r' : Range) : Decidable (r.Disjoint r') := decidable_of_iff _ Range.disjoint_iff.symm

/-- The value of the bits in a range. -/
def get (r : Range) (n : ℕ) : ℕ := n >>> r.start % 2 ^ r.width

/-- Or the value of a field into a register. -/
def put (n : ℕ) (part : Range × ℕ) : ℕ := n ||| part.2 <<< part.1.start

/-- The register with the given values in its fields. -/
def pack (parts : List (Range × ℕ)) : ℕ := parts.foldl put 0

/-- Every value fits its field. -/
def Fits (parts : List (Range × ℕ)) : Prop := ∀ part ∈ parts, part.2 < 2 ^ part.1.width

/-- No two fields have a bit in common. -/
def Apart (parts : List (Range × ℕ)) : Prop :=
  parts.Pairwise fun part part' => part.1.Disjoint part'.1

theorem get_lt (r : Range) (n : ℕ) : get r n < 2 ^ r.width := Nat.mod_lt _ (Nat.two_pow_pos _)

theorem testBit_get (r : Range) (n i : ℕ) :
    (get r n).testBit i = (decide (i < r.width) && n.testBit (r.start + i)) := by
  unfold get
  rw [Nat.testBit_mod_two_pow, Nat.testBit_shiftRight]

/-- A value that fits its field shows in the bits of the field only. -/
theorem testBit_shiftLeft_start {r : Range} {v : ℕ} (hv : v < 2 ^ r.width) (i : ℕ) :
    (v <<< r.start).testBit i = (decide (r.Has i) && v.testBit (i - r.start)) := by
  rw [Nat.testBit_shiftLeft]
  by_cases hhas : r.Has i
  · rw [decide_eq_true hhas, decide_eq_true hhas.1]
  · rw [decide_eq_false hhas, Bool.false_and]
    by_cases hstart : i ≥ r.start
    · -- the bit is behind the end of the field
      have hend : r.width ≤ i - r.start := by
        by_contra hlt
        exact hhas ⟨hstart, by omega⟩
      have hzero : v.testBit (i - r.start) = false :=
        Nat.testBit_lt_two_pow (lt_of_lt_of_le hv (Nat.pow_le_pow_right (by decide) hend))
      rw [hzero, Bool.and_false]
    · rw [decide_eq_false hstart, Bool.false_and]

/-! ## Packing -/

section Pack

variable {parts : List (Range × ℕ)} {n i : ℕ}

/-- A bit outside all fields is left alone. -/
theorem testBit_foldl_put_of_not_has (hfits : Fits parts) (h : ∀ part ∈ parts, ¬ part.1.Has i) :
    (parts.foldl put n).testBit i = n.testBit i := by
  induction parts generalizing n with
  | nil => rfl
  | cons part parts ih =>
    have hfits' : Fits parts := fun p hp => hfits p (List.mem_cons_of_mem _ hp)
    rw [List.foldl_cons, ih hfits' fun p hp => h p (List.mem_cons_of_mem _ hp)]
    unfold put
    rw [Nat.testBit_or, testBit_shiftLeft_start (hfits part List.mem_cons_self),
      decide_eq_false (h part List.mem_cons_self), Bool.false_and, Bool.or_false]

/-- A bit of a field that was clear is the bit of the field's value. -/
theorem testBit_foldl_put_of_mem (hfits : Fits parts) (hapart : Apart parts)
    {part : Range × ℕ} (hmem : part ∈ parts) (hhas : part.1.Has i) (hn : n.testBit i = false) :
    (parts.foldl put n).testBit i = part.2.testBit (i - part.1.start) := by
  induction parts generalizing n with
  | nil => simp at hmem
  | cons p parts ih =>
    have hfits' : Fits parts := fun q hq => hfits q (List.mem_cons_of_mem _ hq)
    rcases List.pairwise_cons.mp hapart with ⟨hhead, htail⟩
    rw [List.foldl_cons]
    rcases List.mem_cons.mp hmem with rfl | hmem'
    · -- the fields behind this one do not have the bit
      rw [testBit_foldl_put_of_not_has hfits' fun q hq => hhead q hq i hhas]
      unfold put
      rw [Nat.testBit_or, hn, Bool.false_or,
        testBit_shiftLeft_start (hfits _ List.mem_cons_self), decide_eq_true hhas, Bool.true_and]
    · apply ih hfits' htail hmem'
      unfold put
      rw [Nat.testBit_or, hn, Bool.false_or,
        testBit_shiftLeft_start (hfits _ List.mem_cons_self),
        decide_eq_false ((hhead part hmem').symm i hhas), Bool.false_and]

theorem testBit_pack_of_mem (hfits : Fits parts) (hapart : Apart parts) {part : Range × ℕ}
    (hmem : part ∈ parts) (hhas : part.1.Has i) :
    (pack parts).testBit i = part.2.testBit (i - part.1.start) :=
  testBit_foldl_put_of_mem hfits hapart hmem hhas (Nat.zero_testBit i)

theorem testBit_pack_of_not_has (hfits : Fits parts) (h : ∀ part ∈ parts, ¬ part.1.Has i) :
    (pack parts).testBit i = false := by
  unfold pack
  rw [testBit_foldl_put_of_not_has hfits h, Nat.zero_testBit]

/-- The fields of a packed register have the values it was packed from. -/
theorem get_pack (hfits : Fits parts) (hapart : Apart parts) {part : Range × ℕ}
    (hmem : part ∈ parts) : get part.1 (pack parts) = part.2 := by
  apply Nat.eq_of_testBit_eq
  intro i
  rw [testBit_get]
  by_cases hi : i < part.1.width
  · have hhas : part.1.Has (part.1.start + i) := ⟨by omega, by omega⟩
    rw [decide_eq_true hi, Bool.true_and, testBit_pack_of_mem hfits hapart hmem hhas,
      Nat.add_sub_cancel_left]
  · have hzero : part.2.testBit i = false :=
      Nat.testBit_lt_two_pow
        (lt_of_lt_of_le (hfits part hmem) (Nat.pow_le_pow_right (by decide) (by omega)))
    rw [decide_eq_false hi, Bool.false_and, hzero]

/-- Packing the fields of a register clears the bits outside them. -/
theorem testBit_pack_get {ranges : List Range}
    (hapart : ranges.Pairwise Range.Disjoint) (n i : ℕ) :
    (pack (ranges.map fun r => (r, get r n))).testBit i
      = (n.testBit i && decide (∃ r ∈ ranges, r.Has i)) := by
  have hfits : Fits (ranges.map fun r => (r, get r n)) := by
    intro part hpart
    rcases List.mem_map.mp hpart with ⟨r, -, rfl⟩
    exact get_lt r n
  by_cases hcover : ∃ r ∈ ranges, r.Has i
  · rcases id hcover with ⟨r, hr, hhas⟩
    have hmem : (r, get r n) ∈ ranges.map fun r => (r, get r n) := List.mem_map_of_mem hr
    have hbit : r.start + (i - r.start) = i := Nat.add_sub_cancel' hhas.1
    have hwidth : i - r.start < r.width := by
      have := hhas.1
      have := hhas.2
      omega
    rw [testBit_pack_of_mem hfits (List.pairwise_map.mpr hapart) hmem hhas, testBit_get, hbit,
      decide_eq_true hwidth, decide_eq_true hcover, Bool.true_and, Bool.and_true]
  · rw [decide_eq_false hcover, Bool.and_false]
    apply testBit_pack_of_not_has hfits
    intro part hpart
    rcases List.mem_map.mp hpart with ⟨r, hr, rfl⟩
    exact fun hhas => hcover ⟨r, hr, hhas⟩

end Pack

/-! ## Words -/

/-- The `k` low words of a number, lowest first. -/
def words (w : ℕ) : ℕ → ℕ → List ℕ
  | 0, _ => []
  | k + 1, n => n % 2 ^ w :: words w k (n >>> w)

@[simp] theorem length_words (w k n : ℕ) : (words w k n).length = k := by
  induction k generalizing n with
  | zero => rfl
  | succ k ih => rw [words, List.length_cons, ih]

theorem lt_of_mem_words {w k n x : ℕ} (h : x ∈ words w k n) : x < 2 ^ w := by
  induction k generalizing n with
  | zero => simp [words] at h
  | succ k ih =>
    rw [words] at h
    rcases List.mem_cons.mp h with rfl | h
    · exact Nat.mod_lt _ (Nat.two_pow_pos w)
    · exact ih h

/-- The words of a number make up the number again. -/
theorem words_ofDigits {w : ℕ} {l : List ℕ} (h : ∀ x ∈ l, x < 2 ^ w) :
    words w l.length (Nat.ofDigits (2 ^ w) l) = l := by
  induction l with
  | nil => rfl
  | cons x l ih =>
    have hx : x < 2 ^ w := h x List.mem_cons_self
    have hlow : Nat.ofDigits (2 ^ w) (x :: l) % 2 ^ w = x := by
      rw [Nat.ofDigits_cons, Nat.add_mul_mod_self_left, Nat.mod_eq_of_lt hx]
    have hhigh : Nat.ofDigits (2 ^ w) (x :: l) >>> w = Nat.ofDigits (2 ^ w) l := by
      rw [Nat.ofDigits_cons, Nat.shiftRight_eq_div_pow,
        Nat.add_mul_div_left _ _ (Nat.two_pow_pos w),
        Nat.div_eq_of_lt hx, Nat.zero_add]
    rw [List.length_cons, words, hlow, hhigh, ih fun y hy => h y (List.mem_cons_of_mem x hy)]

/-- A number that has no more words is made up of its words. -/
theorem ofDigits_words {w k n : ℕ} (h : n < 2 ^ (w * k)) :
    Nat.ofDigits (2 ^ w) (words w k n) = n := by
  induction k generalizing n with
  | zero =>
    have hzero : n = 0 := by simpa using h
    rw [hzero]
    rfl
  | succ k ih =>
    have hhigh : n >>> w < 2 ^ (w * k) := by
      rw [Nat.shiftRight_eq_div_pow, Nat.div_lt_iff_lt_mul (Nat.two_pow_pos w), ← pow_add]
      exact h
    rw [words, Nat.ofDigits_cons, ih hhigh, Nat.shiftRight_eq_div_pow, Nat.mod_add_div]

/-- Two numbers have the same words when they agree in the bits of these words. -/
theorem words_eq_iff {w k m n : ℕ} :
    words w k m = words w k n ↔ ∀ i < w * k, m.testBit i = n.testBit i := by
  induction k generalizing m n with
  | zero => simp [words]
  | succ k ih =>
    rw [words, words, List.cons.injEq, ih]
    constructor
    · intro h i hi
      rcases h with ⟨hlow, hhigh⟩
      by_cases hw : i < w
      · have hbit := congrArg (fun x => x.testBit i) hlow
        simpa [Nat.testBit_mod_two_pow, hw] using hbit
      · have hbit := hhigh (i - w) (by rw [Nat.mul_succ] at hi; omega)
        rw [Nat.testBit_shiftRight, Nat.testBit_shiftRight] at hbit
        rwa [Nat.add_sub_cancel' (by omega)] at hbit
    · intro h
      constructor
      · apply Nat.eq_of_testBit_eq
        intro i
        rw [Nat.testBit_mod_two_pow, Nat.testBit_mod_two_pow]
        by_cases hw : i < w
        · rw [h i (by rw [Nat.mul_succ]; omega)]
        · rw [decide_eq_false hw, Bool.false_and, Bool.false_and]
      · intro i hi
        rw [Nat.testBit_shiftRight, Nat.testBit_shiftRight]
        exact h (w + i) (by rw [Nat.mul_succ]; omega)

/-- Two registers with the same fields have the same words when the values agree in the bits that
are in front of the end of the words. -/
theorem words_pack_eq_iff {ι : Type*} {l : List ι} {range : ι → Range} {v v' : ι → ℕ}
    (hfits : Fits (l.map fun x => (range x, v x))) (hfits' : Fits (l.map fun x => (range x, v' x)))
    (hapart : l.Pairwise fun x y => (range x).Disjoint (range y)) {w k : ℕ} :
    words w k (pack (l.map fun x => (range x, v x)))
        = words w k (pack (l.map fun x => (range x, v' x))) ↔
      ∀ x ∈ l, v x % 2 ^ (w * k - (range x).start) = v' x % 2 ^ (w * k - (range x).start) := by
  have hbit : ∀ {u : ι → ℕ}, Fits (l.map fun x => (range x, u x)) → ∀ x ∈ l, ∀ i,
      (range x).Has i → (pack (l.map fun x => (range x, u x))).testBit i
        = (u x).testBit (i - (range x).start) := by
    intro u hu x hx i hhas
    exact testBit_pack_of_mem hu (List.pairwise_map.mpr hapart)
      (List.mem_map_of_mem (f := fun x => (range x, u x)) hx) hhas
  rw [words_eq_iff]
  constructor
  · intro h x hx
    apply Nat.eq_of_testBit_eq
    intro j
    rw [Nat.testBit_mod_two_pow, Nat.testBit_mod_two_pow]
    by_cases hj : j < w * k - (range x).start
    · by_cases hwidth : j < (range x).width
      · have hhas : (range x).Has ((range x).start + j) := ⟨by omega, by omega⟩
        have hsame := h ((range x).start + j) (by omega)
        rw [hbit hfits x hx _ hhas, hbit hfits' x hx _ hhas, Nat.add_sub_cancel_left] at hsame
        rw [hsame]
      · -- neither value has bits behind the end of its field
        have hpow : 2 ^ (range x).width ≤ 2 ^ j := Nat.pow_le_pow_right (by decide) (by omega)
        have hv : v x < 2 ^ (range x).width :=
          hfits (range x, v x) (List.mem_map_of_mem (f := fun x => (range x, v x)) hx)
        have hv' : v' x < 2 ^ (range x).width :=
          hfits' (range x, v' x) (List.mem_map_of_mem (f := fun x => (range x, v' x)) hx)
        rw [Nat.testBit_lt_two_pow (lt_of_lt_of_le hv hpow),
          Nat.testBit_lt_two_pow (lt_of_lt_of_le hv' hpow)]
    · rw [decide_eq_false hj, Bool.false_and, Bool.false_and]
  · intro h i hi
    by_cases hcover : ∃ x ∈ l, (range x).Has i
    · rcases hcover with ⟨x, hx, hhas⟩
      have hstart := hhas.1
      have hlow : i - (range x).start < w * k - (range x).start := by omega
      have hsame := congrArg (fun n => n.testBit (i - (range x).start)) (h x hx)
      simp only [Nat.testBit_mod_two_pow, decide_eq_true hlow, Bool.true_and] at hsame
      rw [hbit hfits x hx i hhas, hbit hfits' x hx i hhas, hsame]
    · have hnone : ∀ {u : ι → ℕ}, ∀ part ∈ l.map fun x => (range x, u x), ¬ part.1.Has i := by
        intro u part hpart
        rcases List.mem_map.mp hpart with ⟨x, hx, rfl⟩
        exact fun hhas => hcover ⟨x, hx, hhas⟩
      rw [testBit_pack_of_not_has hfits hnone, testBit_pack_of_not_has hfits' hnone]

end Packing
