import Cannelloni.Lib.Blocks
import Cannelloni.Lwip.Mem

/-!
# The blocks of the heap

The headers in the heap describe blocks that fill it, no two unused ones next to each other, and
`lfree` is the first unused one. Each operation turns one such sequence of blocks into another and
does not touch the data of the blocks in use.
-/

namespace Cannelloni

open Bytes Blocks

/-! ## Sizes -/

theorem toNat_and_not_three (x : UInt32) : (x &&& ~~~(3 : UInt32)).toNat = x.toNat / 4 * 4 := by
  have h : x &&& ~~~(3 : UInt32) = x >>> 2 <<< 2 := by
    apply UInt32.toBitVec_inj.mp
    apply BitVec.eq_of_getLsbD_eq
    intro i hi
    have hthree : (UInt32.toBitVec 3).getLsbD i = decide (i < 2) := Nat.testBit_two_pow_sub_one 2 i
    have htwo : (UInt32.toBitVec 2 % 32 : BitVec 32).toNat = 2 := by decide
    simp only [UInt32.toBitVec_and, UInt32.toBitVec_not, BitVec.getLsbD_and, BitVec.getLsbD_not,
      hthree, UInt32.toBitVec_shiftLeft, UInt32.toBitVec_shiftRight, BitVec.shiftLeft_eq',
      BitVec.ushiftRight_eq', BitVec.getLsbD_shiftLeft, BitVec.getLsbD_ushiftRight, hi, htwo,
      decide_true, Bool.true_and]
    by_cases hlow : i < 2
    · simp [hlow]
    · have hback : 2 + (i - 2) = i := by omega
      simp [hlow, hback]
  rw [h, UInt32.toNat_shiftLeft, UInt32.toNat_shiftRight, Nat.shiftLeft_eq,
    Nat.shiftRight_eq_div_pow]
  have hx := x.toNat_lt
  show x.toNat / 4 * 4 % 4294967296 = _
  omega

/-- The size rounded up to a multiple of four, which wraps around at the end of the range. -/
theorem toNat_lwipMemAlignSize (size : UInt32) :
    (lwipMemAlignSize size).toNat = (size.toNat + 3) % 4294967296 / 4 * 4 := by
  unfold lwipMemAlignSize
  rw [toNat_and_not_three, UInt32.toNat_add]
  rfl

theorem memSizeAligned_lt : memSizeAligned < 4294967296 := by decide

/-- The size of the data for a request of so many bytes. -/
def roundUp (n : ℕ) : ℕ := max minSizeAligned ((n + 3) / 4 * 4)

theorem roundUp_bounds (n : ℕ) : n ≤ roundUp n ∧ 12 ≤ roundUp n ∧ 4 ∣ roundUp n := by
  simp only [roundUp, minSizeAligned]
  omega

theorem roundUp_mono {m n : ℕ} (h : m ≤ n) : roundUp m ≤ roundUp n := by
  simp only [roundUp, minSizeAligned]
  omega

/-- The check in front of `mem_malloc` and `mem_trim` lets those sizes through that fit. -/
theorem dataSize_spec (size : UInt32) :
    memSizeAligned < dataSize size ∨ dataSize size < size.toNat ↔
      memSizeAligned < roundUp size.toNat := by
  have hlt := size.toNat_lt
  simp only [dataSize, toNat_lwipMemAlignSize, roundUp, memSizeAligned, minSizeAligned]
  split <;> omega

theorem dataSize_eq {size : UInt32} (h : roundUp size.toNat ≤ memSizeAligned) :
    dataSize size = roundUp size.toNat := by
  have hlt := size.toNat_lt
  simp only [dataSize, toNat_lwipMemAlignSize, roundUp, memSizeAligned, minSizeAligned] at h ⊢
  split <;> omega

/-! ## Reading what was written -/

namespace Heap

variable {h h' h'' : Heap} {x y v j : ℕ} {u : UInt8}

@[simp] theorem next_setNext (hv : v < 4294967296) : (h.setNext x v).next x = v := by
  simp only [next, setNext, load32_store32]
  exact UInt32.toNat_ofNat_of_lt' hv

@[simp] theorem next_setNext_of_ne (hxy : y + 4 ≤ x ∨ x + 4 ≤ y) :
    (h.setNext x v).next y = h.next y := by
  simp only [next, setNext, load32_store32_of_ne _ hxy]

@[simp] theorem next_setPrev (hxy : y ≤ x ∨ x + 8 ≤ y) : (h.setPrev x v).next y = h.next y := by
  have hne : y + 4 ≤ x + 4 ∨ x + 4 + 4 ≤ y := by omega
  simp only [next, setPrev, load32_store32_of_ne _ hne]

@[simp] theorem next_setUsed (hxy : y ≤ x + 4 ∨ x + 9 ≤ y) : (h.setUsed x u).next y = h.next y := by
  have hne : x + 8 < y ∨ y + 4 ≤ x + 8 := by omega
  simp only [next, setUsed, load32_update_of_ne _ hne]

@[simp] theorem prev_setNext (hxy : x ≤ y ∨ y + 8 ≤ x) : (h.setNext x v).prev y = h.prev y := by
  have hne : y + 4 + 4 ≤ x ∨ x + 4 ≤ y + 4 := by omega
  simp only [prev, setNext, load32_store32_of_ne _ hne]

@[simp] theorem prev_setPrev (hv : v < 4294967296) : (h.setPrev x v).prev x = v := by
  simp only [prev, setPrev, load32_store32]
  exact UInt32.toNat_ofNat_of_lt' hv

@[simp] theorem prev_setPrev_of_ne (hxy : y + 4 ≤ x ∨ x + 4 ≤ y) :
    (h.setPrev x v).prev y = h.prev y := by
  have hne : y + 4 + 4 ≤ x + 4 ∨ x + 4 + 4 ≤ y + 4 := by omega
  simp only [prev, setPrev, load32_store32_of_ne _ hne]

@[simp] theorem prev_setUsed (hxy : y ≤ x ∨ x + 5 ≤ y) : (h.setUsed x u).prev y = h.prev y := by
  have hne : x + 8 < y + 4 ∨ y + 4 + 4 ≤ x + 8 := by omega
  simp only [prev, setUsed, load32_update_of_ne _ hne]

@[simp] theorem bytes_setNext (hj : j < x ∨ x + 4 ≤ j) : (h.setNext x v).bytes j = h.bytes j :=
  store32_of_ne _ hj

@[simp] theorem bytes_setPrev (hj : j < x + 4 ∨ x + 8 ≤ j) : (h.setPrev x v).bytes j = h.bytes j :=
  store32_of_ne _ (by omega)

@[simp] theorem bytes_setUsed (hj : j ≠ x + 8) : (h.setUsed x u).bytes j = h.bytes j := by
  unfold setUsed
  exact Function.update_of_ne hj u h.bytes

@[simp] theorem used_setNext (hxy : x ≤ y + 4 ∨ y + 9 ≤ x) : (h.setNext x v).used y = h.used y :=
  bytes_setNext (by omega)

@[simp] theorem used_setPrev (hxy : x ≤ y ∨ y + 5 ≤ x) : (h.setPrev x v).used y = h.used y :=
  bytes_setPrev (by omega)

@[simp] theorem used_setUsed : (h.setUsed x u).used x = u := by
  unfold used setUsed
  exact Function.update_self (x + 8) u h.bytes

@[simp] theorem used_setUsed_of_ne (hxy : y ≠ x) : (h.setUsed x u).used y = h.used y :=
  bytes_setUsed (by omega)

/-! ## Blocks -/

/-- What the headers say. -/
def headers (h : Heap) : Headers := ⟨h.next, h.prev, fun mem => h.used mem ≠ 0⟩

/-- The headers describe the blocks `bs`, which fill the heap. -/
structure Chain (h : Heap) (bs : List Block) : Prop where
  links : Links h.headers 0 0 bs
  fills : span bs = memSizeAligned
  size : ∀ b ∈ bs, 24 ≤ b.size ∧ 4 ∣ b.size
  ramEnd : h.used memSizeAligned ≠ 0

/-- No two unused blocks are next to each other, and `lfree` is the first of them. -/
structure Layout (h : Heap) (bs : List Block) : Prop extends Chain h bs where
  merged : Merged bs
  lfree : h.lfree = firstUnused 0 bs

/-- The heap became one with the blocks `bs`, and the data of those in use stayed. -/
structure Turns (h h' : Heap) (bs : List Block) : Prop where
  chain : h'.Chain bs
  ram : h'.ram = h.ram
  data : ∀ e ∈ extents 0 bs, ∀ j, e.1 + 12 ≤ j → j < e.1 + e.2 → h'.bytes j = h.bytes j

/-- After an operation: the heap has the blocks `bs`, no two unused ones next to each other, and
`lfree` is up to date. -/
structure Becomes (h h' : Heap) (bs : List Block) : Prop extends Turns h h' bs where
  merged : Merged bs
  lfree : h'.lfree = firstUnused 0 bs

variable {bs bs' l m m' r : List Block}

theorem Becomes.layout (hb : h.Becomes h' bs) : h'.Layout bs := ⟨hb.chain, hb.merged, hb.lfree⟩

/-- One change after the other, the second of which keeps the blocks in use. -/
theorem Turns.trans (ht : h.Turns h' bs) (ht' : h'.Turns h'' bs')
    (hext : extents 0 bs' = extents 0 bs) : h.Turns h'' bs' where
  chain := ht'.chain
  ram := ht'.ram.trans ht.ram
  data := fun e he j hj hje =>
    (ht'.data e he j hj hje).trans (ht.data e (hext ▸ he) j hj hje)

theorem Chain.setLfree (hc : h.Chain bs) (mem : ℕ) : (h.setLfree mem).Chain bs := by
  rcases hc with ⟨hlinks, hfills, hsize, hend⟩
  exact ⟨hlinks, hfills, hsize, hend⟩

theorem Turns.setLfree (ht : h.Turns h' bs) (mem : ℕ) : h.Turns (h'.setLfree mem) bs where
  chain := ht.chain.setLfree mem
  ram := ht.ram
  data := ht.data

theorem ite_setLfree {c : Prop} [Decidable c] (mem : ℕ) :
    (if c then h.setLfree mem else h) = h.setLfree (if c then mem else h.lfree) := by
  split <;> rfl

theorem next_congr (hb : ∀ i < 4, h'.bytes (x + i) = h.bytes (x + i)) : h'.next x = h.next x := by
  unfold next
  rw [load32_congr hb]

theorem prev_congr (hb : ∀ i < 4, h'.bytes (x + 4 + i) = h.bytes (x + 4 + i)) :
    h'.prev x = h.prev x := by
  unfold prev
  rw [load32_congr hb]

/-- Some blocks are replaced: their headers are written anew, and what the one behind them says
about the block in front of it. -/
theorem Chain.replace (hc : h.Chain (l ++ m ++ r)) (hspan : span m' = span m)
    (hsize : ∀ b ∈ m', 24 ≤ b.size ∧ 4 ∣ b.size) (hlow : ∀ j < span l, h'.bytes j = h.bytes j)
    (hhigh : ∀ j, span (l ++ m) ≤ j → j < span (l ++ m) + 4 ∨ span (l ++ m) + 8 ≤ j →
      h'.bytes j = h.bytes j)
    (hlinks : Links h'.headers (lastStart 0 0 l) (span l) m')
    (hback : r ≠ [] → h'.prev (span (l ++ m)) = lastStart 0 0 (l ++ m')) :
    h'.Chain (l ++ m' ++ r) := by
  have hend : span (l ++ m) ≤ memSizeAligned := by
    rw [← hc.fills]
    simp
  have hold : ∀ b ∈ l ++ r, 24 ≤ b.size ∧ 4 ∣ b.size := by
    intro b hb
    apply hc.size
    rcases List.mem_append.mp hb with hb | hb <;> simp [hb]
  refine ⟨?_, ?_, ?_, ?_⟩
  · -- the headers in front are as before, and those behind but for one word
    apply hc.links.replace (k := 12)
    · intro b hb
      have hb' := (hold b hb).1
      omega
    · exact hspan
    · intro y _ hy
      rw [Nat.zero_add] at hy
      have hused : h'.used y = h.used y := hlow (y + 8) (by omega)
      refine ⟨?_, ?_, ?_⟩
      · exact next_congr fun i hi => hlow (y + i) (by omega)
      · exact prev_congr fun i hi => hlow (y + 4 + i) (by omega)
      · simp only [headers, hused]
    · rw [Nat.zero_add]
      exact hlinks
    · intro y hy _
      rw [Nat.zero_add] at hy
      have hused : h'.used y = h.used y := hhigh (y + 8) (by omega) (by omega)
      refine ⟨next_congr fun i hi => hhigh (y + i) (by omega) (by omega), ?_⟩
      simp only [headers, hused]
    · intro y hy _
      rw [Nat.zero_add] at hy
      exact prev_congr fun i hi => hhigh (y + 4 + i) (by omega) (by omega)
    · rw [Nat.zero_add]
      exact hback
  · rw [← hc.fills]
    simp [hspan]
  · intro b hb
    rcases List.mem_append.mp hb with hb | hb
    · rcases List.mem_append.mp hb with hb | hb
      · exact hold b (List.mem_append_left r hb)
      · exact hsize b hb
    · exact hold b (List.mem_append_right l hb)
  · have hused : h'.used memSizeAligned = h.used memSizeAligned :=
      hhigh (memSizeAligned + 8) (by omega) (by omega)
    rw [hused]
    exact hc.ramEnd

/-- The data of the blocks around the replaced ones stays. -/
theorem Chain.turns (hc : h.Chain (l ++ m ++ r)) (hspan : span m' = span m)
    (hsize : ∀ b ∈ m', 24 ≤ b.size ∧ 4 ∣ b.size) (hram : h'.ram = h.ram)
    (hlow : ∀ j < span l, h'.bytes j = h.bytes j)
    (hhigh : ∀ j, span (l ++ m) ≤ j → j < span (l ++ m) + 4 ∨ span (l ++ m) + 8 ≤ j →
      h'.bytes j = h.bytes j)
    (hlinks : Links h'.headers (lastStart 0 0 l) (span l) m')
    (hback : r ≠ [] → h'.prev (span (l ++ m)) = lastStart 0 0 (l ++ m'))
    (hdata : ∀ e ∈ extents (span l) m', ∀ j, e.1 + 12 ≤ j → j < e.1 + e.2 →
      h'.bytes j = h.bytes j) :
    h.Turns h' (l ++ m' ++ r) := by
  refine ⟨hc.replace hspan hsize hlow hhigh hlinks hback, hram, ?_⟩
  intro e he j hj hje
  rw [extents_append, extents_append, List.mem_append, List.mem_append, Nat.zero_add, Nat.zero_add,
    span_append, hspan, ← span_append] at he
  rcases he with (he | he) | he
  · have hbounds := extent_bounds he
    exact hlow j (by omega)
  · exact hdata e he j hj hje
  · have hbounds := extent_bounds he
    exact hhigh j (by omega) (by omega)

variable {b : Block} {s t n k e : ℕ} {used used' : Bool}

/-! ## What is read -/

theorem Chain.at (hc : h.Chain (l ++ b :: r)) :
    h.next (span l) = span l + b.size ∧ h.prev (span l) = lastStart 0 0 l ∧
      decide (h.used (span l) ≠ 0) = b.used := by
  have hlinks := (links_append.mp hc.links).2
  rw [Nat.zero_add] at hlinks
  exact ⟨hlinks.1, hlinks.2.1, hlinks.2.2.1⟩

theorem Chain.used_eq_zero (hc : h.Chain (l ++ b :: r)) : h.used (span l) = 0 ↔ b.used = false := by
  rw [← hc.at.2.2]
  simp

/-- Where a block is. -/
theorem Chain.bounds (hc : h.Chain (l ++ b :: r)) :
    span l + b.size + span r = memSizeAligned ∧ 24 ≤ b.size ∧ 4 ∣ b.size ∧ 4 ∣ span l := by
  have hfills := hc.fills
  have hsize := hc.size b (by simp)
  simp only [span_append, span_cons] at hfills
  refine ⟨by omega, hsize.1, hsize.2, ?_⟩
  have hl : ∀ c ∈ l, 4 ∣ c.size := fun c hcl => (hc.size c (by simp [hcl])).2
  clear hfills hsize hc
  induction l with
  | nil => simp
  | cons c l ih =>
    have hc := hl c (by simp)
    have hrest := ih fun d hd => hl d (by simp [hd])
    simp only [span_cons]
    omega

/-- A block is in front of the end. -/
theorem Chain.lt_of_ne_nil (hc : h.Chain (l ++ r)) (hr : r ≠ []) : span l < memSizeAligned := by
  rcases List.exists_cons_of_ne_nil hr with ⟨b, r, rfl⟩
  have hbounds := hc.bounds
  omega

/-! ## What is written -/

/-- The block at `e` is told that the one in front of it is at `x`, unless `e` is the end. -/
def setBack (h : Heap) (e x : ℕ) : Heap := if e ≠ memSizeAligned then h.setPrev e x else h

theorem setBack_ram : (h.setBack e x).ram = h.ram := by
  unfold setBack
  split <;> rfl

theorem setBack_lfree : (h.setBack e x).lfree = h.lfree := by
  unfold setBack
  split <;> rfl

theorem bytes_setBack (hj : j < e + 4 ∨ e + 8 ≤ j) : (h.setBack e x).bytes j = h.bytes j := by
  unfold setBack
  split
  · exact bytes_setPrev hj
  · rfl

theorem next_setBack (hy : y ≤ e ∨ e + 8 ≤ y) : (h.setBack e x).next y = h.next y := by
  unfold setBack
  split
  · exact next_setPrev hy
  · rfl

theorem prev_setBack (hy : y + 4 ≤ e ∨ e + 4 ≤ y) : (h.setBack e x).prev y = h.prev y := by
  unfold setBack
  split
  · exact prev_setPrev_of_ne hy
  · rfl

theorem used_setBack (hy : y + 5 ≤ e ∨ e ≤ y) : (h.setBack e x).used y = h.used y :=
  bytes_setBack (by omega)

theorem prev_setBack_self (he : e < memSizeAligned) (hx : x < 4294967296) :
    (h.setBack e x).prev e = x := by
  unfold setBack
  rw [if_pos (by omega)]
  exact prev_setPrev hx

theorem setBack_next (he : h.next x = e) :
    (if h.next x ≠ memSizeAligned then h.setPrev (h.next x) x else h) = h.setBack e x := by
  rw [he]
  rfl

/-- A block is marked. -/
theorem Chain.setUsed (hc : h.Chain (l ++ ⟨s, used⟩ :: r)) (u : UInt8) :
    h.Turns (h.setUsed (span l) u) (l ++ ⟨s, u ≠ 0⟩ :: r) := by
  have hat := hc.at
  have hbounds := hc.bounds
  simp only at hat hbounds
  rw [List.append_cons] at hc ⊢
  refine hc.turns (by simp) ?_ rfl ?_ ?_ ?_ ?_ ?_
  · intro b hb
    rw [List.mem_singleton.mp hb]
    exact ⟨hbounds.2.1, hbounds.2.2.1⟩
  · intro j hj
    exact bytes_setUsed (by omega)
  · intro j hj _
    simp only [span_append, span_cons] at hj
    exact bytes_setUsed (by omega)
  · refine ⟨?_, ?_, ?_, trivial⟩
    · exact (next_setUsed (by omega)).trans hat.1
    · exact (prev_setUsed (by omega)).trans hat.2.1
    · simp [headers]
  · intro hr
    rcases List.exists_cons_of_ne_nil hr with ⟨c, r, rfl⟩
    rw [lastStart_concat, Nat.zero_add]
    rw [prev_setUsed (by simp only [span_append, span_cons]; omega), (hc.at).2.1, lastStart_concat,
      Nat.zero_add]
  · intro e he j hj hje
    have hbnd := extent_bounds he
    exact bytes_setUsed (by omega)

/-- An unused block swallows the one behind it. -/
theorem Chain.merge (hc : h.Chain (l ++ ⟨s, false⟩ :: ⟨t, used⟩ :: r)) :
    h.Turns ((h.setNext (span l) (span l + s + t)).setBack (span l + s + t) (span l))
      (l ++ ⟨s + t, false⟩ :: r) := by
  have hat := hc.at
  have hbounds := hc.bounds
  have hnext := (by simpa using hc :
    h.Chain ((l ++ [⟨s, false⟩]) ++ ⟨t, used⟩ :: r)).bounds
  simp only [span_append, span_cons, span_nil] at hat hbounds hnext
  have hlist : l ++ ⟨s, false⟩ :: ⟨t, used⟩ :: r = l ++ [⟨s, false⟩, ⟨t, used⟩] ++ r := by simp
  have hlist' : l ++ ⟨s + t, false⟩ :: r = l ++ [⟨s + t, false⟩] ++ r := by simp
  have hmem := memSizeAligned_lt
  rw [hlist] at hc
  rw [hlist']
  refine hc.turns (by simp) ?_ setBack_ram ?_ ?_ ?_ ?_ ?_
  · intro b hb
    rw [List.mem_singleton.mp hb]
    simp only
    omega
  · intro j hj
    rw [bytes_setBack (by omega), bytes_setNext (by omega)]
  · intro j hj hne
    simp only [span_append, span_cons, span_nil] at hj hne
    rw [bytes_setBack (by omega), bytes_setNext (by omega)]
  · refine ⟨?_, ?_, ?_, trivial⟩
    · show (setBack _ _ _).next _ = _
      rw [next_setBack (by omega), next_setNext (by omega), Nat.add_assoc]
    · show (setBack _ _ _).prev _ = _
      rw [prev_setBack (by omega), prev_setNext (by omega), hat.2.1]
    · show decide ((setBack _ _ _).used _ ≠ 0) = _
      rw [used_setBack (by omega), used_setNext (by omega), hat.2.2]
  · intro hr
    have hlt := hc.lt_of_ne_nil hr
    rw [lastStart_concat, Nat.zero_add]
    simp only [span_append, span_cons, span_nil] at hlt ⊢
    rw [Nat.add_zero, ← Nat.add_assoc, prev_setBack_self (by omega) (by omega)]
  · intro e he
    simp at he

/-- The header of an unused block at `x'`, in front of the one at `e`, is written into the block at
`x`. -/
def insert (h : Heap) (x x' e : ℕ) : Heap :=
  (((h.setUsed x' 0).setNext x' e).setPrev x' x).setNext x x'

/-- What is written, and what is not. -/
theorem insert_spec (h : Heap) {x x' e : ℕ} (hx : x + 12 ≤ x') (hx' : x' < 4294967296) (he : e < 4294967296) :
    ((h.insert x x' e).next x = x' ∧ (h.insert x x' e).prev x = h.prev x ∧
      (h.insert x x' e).used x = h.used x) ∧
    ((h.insert x x' e).next x' = e ∧ (h.insert x x' e).prev x' = x ∧
      (h.insert x x' e).used x' = 0) ∧
    ∀ j, (j < x ∨ x + 4 ≤ j) → (j < x' ∨ x' + 12 ≤ j) → (h.insert x x' e).bytes j = h.bytes j := by
  unfold insert
  refine ⟨⟨?_, ?_, ?_⟩, ⟨?_, ?_, ?_⟩, ?_⟩
  · rw [next_setNext hx']
  · rw [prev_setNext (by omega), prev_setPrev_of_ne (by omega), prev_setNext (by omega),
      prev_setUsed (by omega)]
  · rw [used_setNext (by omega), used_setPrev (by omega), used_setNext (by omega),
      used_setUsed_of_ne (by omega)]
  · rw [next_setNext_of_ne (by omega), next_setPrev (by omega), next_setNext he]
  · rw [prev_setNext (by omega), prev_setPrev (by omega)]
  · rw [used_setNext (by omega), used_setPrev (by omega), used_setNext (by omega), used_setUsed]
  · intro j hj hj'
    rw [bytes_setNext (by omega), bytes_setPrev (by omega), bytes_setNext (by omega),
      bytes_setUsed (by omega)]

/-- A block is cut in two, the second one unused, or its border with an unused one is moved. -/
theorem Chain.cut (hc : h.Chain (l ++ m ++ r)) (h' : Heap) (hm : m ≠ []) (hspan : span m = n + k)
    (hn : 24 ≤ n ∧ 4 ∣ n) (hk : 24 ≤ k ∧ 4 ∣ k) (hx : x = span l + n) (he : e = span l + n + k)
    (hram : h'.ram = h.ram)
    (hat : h'.next (span l) = x ∧ h'.prev (span l) = h.prev (span l) ∧ h'.used (span l) ≠ 0)
    (hat' : h'.next x = e ∧ h'.prev x = span l ∧ h'.used x = 0)
    (hbytes : ∀ j, (j < span l ∨ span l + 12 ≤ j) → (j < x ∨ x + 12 ≤ j) →
      h'.bytes j = h.bytes j) :
    h.Turns (h'.setBack e x) (l ++ ⟨n, true⟩ :: ⟨k, false⟩ :: r) := by
  have hlist : l ++ ⟨n, true⟩ :: ⟨k, false⟩ :: r = l ++ [⟨n, true⟩, ⟨k, false⟩] ++ r := by simp
  have hmem := memSizeAligned_lt
  have hfills := hc.fills
  simp only [span_append] at hfills
  subst hx he
  rw [hlist]
  refine hc.turns (by simp [hspan]) ?_ (setBack_ram.trans hram) ?_ ?_ ?_ ?_ ?_
  · intro b hb
    simp only [List.mem_cons, List.not_mem_nil, or_false] at hb
    rcases hb with rfl | rfl
    · exact hn
    · exact hk
  · intro j hj
    rw [bytes_setBack (by omega), hbytes j (by omega) (by omega)]
  · intro j hj hne
    simp only [span_append] at hj hne
    rw [bytes_setBack (by omega), hbytes j (by omega) (by omega)]
  · have hfirst : h.prev (span l) = lastStart 0 0 l := by
      rcases List.exists_cons_of_ne_nil hm with ⟨b, m, rfl⟩
      rw [List.append_assoc, List.cons_append] at hc
      exact hc.at.2.1
    refine ⟨?_, ?_, ?_, ?_, ?_, ?_, trivial⟩
    · show (setBack _ _ _).next _ = _
      rw [next_setBack (by omega), hat.1]
    · show (setBack _ _ _).prev _ = _
      rw [prev_setBack (by omega), hat.2.1, hfirst]
    · show decide ((setBack _ _ _).used _ ≠ 0) = _
      rw [used_setBack (by omega), decide_eq_true hat.2.2]
    · show (setBack _ _ _).next (_ + n) = _
      rw [next_setBack (by omega), hat'.1]
    · show (setBack _ _ _).prev (_ + n) = _
      rw [prev_setBack (by omega), hat'.2.1]
    · show decide ((setBack _ _ _).used (_ + n) ≠ 0) = _
      rw [used_setBack (by omega), hat'.2.2]
      rfl
  · intro hr
    have hlast : lastStart 0 0 (l ++ [⟨n, true⟩, ⟨k, false⟩]) = span l + n := by
      rw [List.append_cons, lastStart_concat]
      simp
    have hlt := hc.lt_of_ne_nil hr
    rw [hlast]
    simp only [span_append] at hlt ⊢
    rw [hspan, ← Nat.add_assoc, prev_setBack_self (by omega) (by omega)]
  · intro e he j hj hje
    simp only [extents_used, extents_unused, extents_nil, List.mem_singleton] at he
    subst he
    simp only at hj hje
    rw [bytes_setBack (by omega), hbytes j (by omega) (by omega)]

/-- A block in use is written by its user. -/
theorem Chain.write (hc : h.Chain (l ++ ⟨s, true⟩ :: r)) (hj : span l + 12 ≤ j ∧ j < span l + s)
    (v : UInt8) :
    Chain { h with bytes := Function.update h.bytes j v } (l ++ ⟨s, true⟩ :: r) := by
  have hat := hc.at
  have hbounds := hc.bounds
  simp only at hat hbounds
  have hsame : ∀ i ≠ j, Function.update h.bytes j v i = h.bytes i :=
    fun i hi => Function.update_of_ne hi v h.bytes
  rw [List.append_cons] at hc ⊢
  refine hc.replace rfl ?_ ?_ ?_ ?_ ?_
  · intro b hb
    rw [List.mem_singleton.mp hb]
    exact ⟨hbounds.2.1, hbounds.2.2.1⟩
  · intro i hi
    exact hsame i (by omega)
  · intro i hi _
    simp only [span_append, span_cons] at hi
    exact hsame i (by omega)
  · refine ⟨(next_congr fun i hi => hsame _ (by omega)).trans hat.1,
      (prev_congr fun i hi => hsame _ (by omega)).trans hat.2.1, ?_, trivial⟩
    have hused : Heap.used { h with bytes := Function.update h.bytes j v } (span l)
        = h.used (span l) := hsame (span l + 8) (by omega)
    show decide (Heap.used _ _ ≠ 0) = _
    rw [hused, hat.2.2]
  · intro hr
    rcases List.exists_cons_of_ne_nil hr with ⟨c, r, rfl⟩
    rw [← hc.at.2.1]
    apply prev_congr
    intro i hi
    simp only [span_append, span_cons, span_nil]
    exact hsame _ (by omega)

end Heap

end Cannelloni
