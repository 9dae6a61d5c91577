import Cannelloni.Lib.Crc

/-!
# The checksum of the switch configuration

`Writer.crc32` of `gen_switch_config.py`. The register shifts towards its high end and is never
cut to 32 bits, `bit_not` of it may be negative, and the bits of every byte and of the result are
reversed. `crc32_eq` says that this is the usual CRC-32 of the words' bytes, least significant
byte first.
-/

namespace Cannelloni.SwitchConfig

/-! ## The code -/

/-- One pass of `bit_reverse`: bit `i` of `val` goes to the other end. -/
def bitReverseStep (val : ℤ) (width newVal i : ℕ) : ℕ :=
  newVal ||| (if Int.land val (1 <<< i : ℕ) ≠ 0 then 1 else 0) <<< (width - i - 1)

/-- `bit_reverse`. -/
def bitReverse (val : ℤ) (width : ℕ) : ℕ :=
  (List.range width).foldl (bitReverseStep val width) 0

/-- `bit_not`. -/
def bitNot (n : ℤ) (numbits : ℕ) : ℤ := (1 <<< numbits : ℕ) - 1 - n

/-- One pass of the loop in `crc32_add`, on `crc` and `b`. -/
def crc32Bit (s : ℕ × ℕ) : ℕ × ℕ :=
  (if (s.1 ^^^ s.2) &&& 1 <<< 31 ≠ 0 then s.1 <<< 1 ^^^ 0x04C11DB7 else s.1 <<< 1, s.2 <<< 1)

/-- `crc32_add`. -/
def crc32Add (crc b : ℕ) : ℕ := (crc32Bit^[8] (crc, bitReverse b 32)).1

/-- The body of the loop in `crc32`. -/
def crc32Word (crc w : ℕ) : ℕ :=
  crc32Add (crc32Add (crc32Add (crc32Add crc (w &&& 0xFF)) (w >>> 8 &&& 0xFF))
    (w >>> 16 &&& 0xFF)) (w >>> 24 &&& 0xFF)

/-- `crc32`. -/
def crc32 (data : List ℕ) : ℕ :=
  bitReverse (bitNot ((data.foldl crc32Word 0xFFFFFFFF : ℕ) : ℤ) 32) 32

/-! ## Reversed bits -/

/-- The test of a single bit in `bit_reverse`. -/
theorem land_bit_ne_zero_iff (val : ℤ) (i : ℕ) :
    Int.land val (1 <<< i : ℕ) ≠ 0 ↔ val.testBit i = true := by
  obtain ⟨m, hm⟩ : ∃ m : ℕ, Int.land val (1 <<< i : ℕ) = m := by
    cases val <;> exact ⟨_, rfl⟩
  have hbits : ∀ j, m.testBit j = (val.testBit j && decide (i = j)) := by
    intro j
    have hj := Int.testBit_land val (1 <<< i : ℕ) j
    rw [hm] at hj
    show Int.testBit m j = _
    rw [hj, Nat.one_shiftLeft]
    show (val.testBit j && (2 ^ i).testBit j) = _
    rw [Nat.testBit_two_pow]
  rw [hm]
  constructor
  · intro hne
    by_contra hi
    apply hne
    rw [Nat.cast_eq_zero]
    apply Nat.eq_of_testBit_eq
    intro j
    rw [hbits, Nat.zero_testBit]
    by_cases hij : i = j
    · rw [← hij, Bool.not_eq_true _ |>.mp hi, Bool.false_and]
    · rw [decide_eq_false hij, Bool.and_false]
  · intro hi hzero
    have h := hbits i
    rw [Nat.cast_eq_zero.mp hzero, hi, Nat.zero_testBit] at h
    simp at h

theorem testBit_bitReverseStep (val : ℤ) {width i : ℕ} (hi : i < width) (newVal j : ℕ) :
    (bitReverseStep val width newVal i).testBit j
      = (newVal.testBit j || (decide (j = width - 1 - i) && val.testBit i)) := by
  unfold bitReverseStep
  rw [Nat.testBit_or]
  congr 1
  by_cases hbit : val.testBit i = true
  · rw [if_pos ((land_bit_ne_zero_iff val i).mpr hbit), Nat.one_shiftLeft, Nat.testBit_two_pow,
      hbit, Bool.and_true]
    apply decide_eq_decide.mpr
    omega
  · rw [if_neg (mt (land_bit_ne_zero_iff val i).mp hbit), Nat.zero_shiftLeft, Nat.zero_testBit,
      Bool.not_eq_true _ |>.mp hbit, Bool.and_false]

/-- After `n` passes the `n` low bits of `val` stand at the top. -/
theorem testBit_foldl_bitReverseStep (val : ℤ) {width n : ℕ} (hn : n ≤ width) (j : ℕ) :
    ((List.range n).foldl (bitReverseStep val width) 0).testBit j
      = (decide (width - n ≤ j ∧ j < width) && val.testBit (width - 1 - j)) := by
  induction n with
  | zero =>
    have hj : ¬ (width - 0 ≤ j ∧ j < width) := by omega
    rw [decide_eq_false hj, Bool.false_and]
    exact Nat.zero_testBit j
  | succ n ih =>
    rw [List.range_succ, List.foldl_append, List.foldl_cons, List.foldl_nil,
      testBit_bitReverseStep val hn, ih (by omega)]
    by_cases hj : j = width - 1 - n
    · have hold : ¬ (width - n ≤ j ∧ j < width) := by omega
      have hnew : width - (n + 1) ≤ j ∧ j < width := by omega
      have hbit : width - 1 - j = n := by omega
      rw [decide_eq_false hold, decide_eq_true hj, decide_eq_true hnew, hbit, Bool.false_and,
        Bool.false_or]
    · have hsame : (width - n ≤ j ∧ j < width) ↔ (width - (n + 1) ≤ j ∧ j < width) := by omega
      rw [decide_eq_false hj, Bool.false_and, Bool.or_false, decide_eq_decide.mpr hsame]

/-- `bit_reverse` sees the low bits of an integer in two's complement. -/
theorem bitReverse_eq (val : ℤ) (width : ℕ) :
    bitReverse val width = (BitVec.ofInt width val).reverse.toNat := by
  apply Nat.eq_of_testBit_eq
  intro j
  unfold bitReverse
  rw [testBit_foldl_bitReverseStep val le_rfl, BitVec.testBit_toNat, BitVec.getLsbD_reverse,
    BitVec.getMsbD_eq_getLsbD, Crc.getLsbD_ofInt]
  by_cases hj : j < width
  · have hflip : width - 1 - j < width := by omega
    simp [hj, hflip]
  · simp [hj]

/-! ## The register -/

/-- The 32 low bits of a number. -/
def low (n : ℕ) : BitVec 32 := BitVec.ofNat 32 n

@[simp] theorem low_xor (a b : ℕ) : low (a ^^^ b) = low a ^^^ low b := BitVec.ofNat_xor

@[simp] theorem low_shiftLeft_one (n : ℕ) : low (n <<< 1) = low n <<< 1 :=
  Crc.ofNat_shiftLeft_one n

@[simp] theorem low_toNat (x : BitVec 32) : low x.toNat = x := by
  unfold low
  rw [BitVec.ofNat_toNat, BitVec.setWidth_eq]

theorem and_bit31_ne_zero_iff (n : ℕ) : n &&& 1 <<< 31 ≠ 0 ↔ (low n).msb = true := by
  unfold low
  rw [BitVec.msb_eq_getLsbD_last, BitVec.getLsbD_ofNat, Nat.one_shiftLeft, Nat.and_two_pow]
  cases n.testBit 31 <;> simp

/-- With the byte's bits taken into account, a pass of the loop is a step of the register. -/
theorem low_crc32Bit (s : ℕ × ℕ) :
    low ((crc32Bit s).1 ^^^ (crc32Bit s).2) = Crc.msbStep 0x04C11DB7#32 (low (s.1 ^^^ s.2)) := by
  have hshift : low (s.1 <<< 1) ^^^ low (s.2 <<< 1) = low (s.1 ^^^ s.2) <<< 1 := by
    rw [← low_xor, ← Nat.shiftLeft_xor_distrib, low_shiftLeft_one]
  unfold crc32Bit Crc.msbStep
  by_cases h : (low (s.1 ^^^ s.2)).msb = true
  · rw [if_pos h, if_pos ((and_bit31_ne_zero_iff _).mpr h), ← hshift]
    show low (s.1 <<< 1 ^^^ 0x04C11DB7 ^^^ s.2 <<< 1) = _
    rw [Nat.xor_right_comm, low_xor, low_xor]
    rfl
  · rw [if_neg h, if_neg (mt (and_bit31_ne_zero_iff _).mp h), ← hshift]
    exact low_xor _ _

theorem low_iterate_crc32Bit (s : ℕ × ℕ) (n : ℕ) :
    low ((crc32Bit^[n] s).1 ^^^ (crc32Bit^[n] s).2)
      = (Crc.msbStep 0x04C11DB7#32)^[n] (low (s.1 ^^^ s.2)) :=
  Function.Semiconj.iterate_right (f := fun s : ℕ × ℕ => low (s.1 ^^^ s.2)) low_crc32Bit n s

theorem snd_iterate_crc32Bit (s : ℕ × ℕ) (n : ℕ) : (crc32Bit^[n] s).2 = s.2 <<< n := by
  induction n with
  | zero => rfl
  | succ n ih =>
    rw [Function.iterate_succ_apply', Nat.shiftLeft_add, ← ih]
    rfl

/-- The reversed byte has left the 32 bits after eight passes. -/
theorem low_bitReverse_shiftLeft (b : UInt8) : low (bitReverse b.toNat 32 <<< 8) = 0#32 := by
  apply BitVec.eq_of_getLsbD_eq
  intro i hi
  unfold low bitReverse
  rw [BitVec.getLsbD_ofNat, Nat.testBit_shiftLeft, testBit_foldl_bitReverseStep _ le_rfl,
    BitVec.getLsbD_zero]
  by_cases hi8 : i ≥ 8
  · -- this is a bit of the byte above its eighth
    have hbit : Int.testBit (b.toNat : ℤ) (32 - 1 - (i - 8)) = false := by
      show b.toNat.testBit (32 - 1 - (i - 8)) = false
      apply Nat.testBit_lt_two_pow
      calc b.toNat < 2 ^ 8 := b.toNat_lt
        _ ≤ 2 ^ (32 - 1 - (i - 8)) := Nat.pow_le_pow_right (by decide) (by omega)
    rw [hbit, Bool.and_false, Bool.and_false, Bool.and_false]
  · rw [decide_eq_false hi8, Bool.false_and, Bool.and_false]

/-- The register of `crc32_add` mirrors that of the CRC-32. -/
theorem low_crc32Add {crc : ℕ} {r : BitVec 32} (h : low crc = r.reverse) (b : UInt8) :
    low (crc32Add crc b.toNat) = (Crc.lsbByte 0xEDB88320#32 r b).reverse := by
  have hpoly : (0xEDB88320#32).reverse = 0x04C11DB7#32 := by decide +kernel
  have hbyte : low (bitReverse b.toNat 32) = (low b.toNat).reverse := by
    rw [bitReverse_eq, BitVec.ofInt_natCast, low_toNat]
    rfl
  have hrun := low_iterate_crc32Bit (crc, bitReverse b.toNat 32) 8
  simp only [snd_iterate_crc32Bit, low_xor, low_bitReverse_shiftLeft, h, hbyte,
    BitVec.xor_zero] at hrun
  unfold crc32Add Crc.lsbByte
  rw [Crc.reverse_iterate_lsbStep, hpoly, Crc.reverse_xor, hrun]
  rfl

/-! ## The checksum -/

/-- The bytes of a word's 32 low bits, least significant first. -/
def le32 (w : ℕ) : List UInt8 :=
  [UInt8.ofNat w, UInt8.ofNat (w >>> 8), UInt8.ofNat (w >>> 16), UInt8.ofNat (w >>> 24)]

theorem and_0xFF (n : ℕ) : n &&& 0xFF = (UInt8.ofNat n).toNat := by
  rw [UInt8.toNat_ofNat']
  exact Nat.and_two_pow_sub_one_eq_mod n 8

theorem low_crc32Word {crc : ℕ} {r : BitVec 32} (h : low crc = r.reverse) (w : ℕ) :
    low (crc32Word crc w) = ((le32 w).foldl (Crc.lsbByte 0xEDB88320#32) r).reverse := by
  unfold crc32Word
  rw [and_0xFF, and_0xFF, and_0xFF, and_0xFF]
  exact low_crc32Add (low_crc32Add (low_crc32Add (low_crc32Add h _) _) _) _

theorem low_foldl_crc32Word {crc : ℕ} {r : BitVec 32} (h : low crc = r.reverse) (data : List ℕ) :
    low (data.foldl crc32Word crc)
      = ((data.flatMap le32).foldl (Crc.lsbByte 0xEDB88320#32) r).reverse := by
  induction data generalizing crc r with
  | nil => exact h
  | cons w data ih =>
    rw [List.flatMap_cons, List.foldl_append, List.foldl_cons]
    exact ih (low_crc32Word h w)

/-- `bit_not` of a number that has outgrown its width is negative, with the bits inverted. -/
theorem ofInt_bitNot (n : ℕ) : BitVec.ofInt 32 (bitNot n 32) = ~~~ low n := by
  have hneg : bitNot n 32 = (2 ^ 32 : ℕ) + Int.negSucc n := by
    unfold bitNot
    rw [Int.negSucc_eq]
    omega
  rw [hneg, BitVec.ofInt_add, BitVec.ofInt_negSucc_eq_not_ofNat, BitVec.ofInt_natCast]
  show 0#32 + ~~~ low n = _
  rw [BitVec.zero_add]

/-- `crc32` is the CRC-32 of the words' bytes. -/
theorem crc32_eq (data : List ℕ) : crc32 data = (Crc.crc32 (data.flatMap le32)).toNat := by
  have hinit : low 0xFFFFFFFF = (BitVec.allOnes 32).reverse := by decide +kernel
  have hones : (BitVec.allOnes 32).reverse = BitVec.allOnes 32 := by decide +kernel
  unfold crc32 Crc.crc32
  rw [bitReverse_eq, ofInt_bitNot, low_foldl_crc32Word hinit, ← BitVec.xor_allOnes,
    Crc.reverse_xor, BitVec.reverse_reverse_eq, hones]

/-- `crc32` of words of any size is the reflected CRC-32 of the bytes of their 32 low bits, least
significant byte first, and a number of 32 bits. -/
theorem crc32_standard (words : List ℕ) :
    crc32 words = (Crc.crc32 (words.flatMap le32)).toNat ∧ crc32 words < 2 ^ 32 := by
  refine ⟨crc32_eq words, ?_⟩
  rw [crc32_eq]
  exact BitVec.isLt _

/-- The check value of the catalogues: the checksum of `123456789`. -/
example : Crc.crc32 [49, 50, 51, 52, 53, 54, 55, 56, 57] = 0xCBF43926#32 := by decide +kernel

end Cannelloni.SwitchConfig
