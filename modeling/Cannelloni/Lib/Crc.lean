import Mathlib.Data.Int.Bitwise
import Mathlib.Logic.Function.Iterate
import Mathlib.Tactic.Common

/-!
# Cyclic redundancy checks

A check register shifts one bit at a time, either towards the low end (`lsbStep`) or towards the
high end (`msbStep`). The two directions mirror each other (`reverse_lsbStep`), so a register that
shifts upwards may be used to compute a check that is defined with shifts downwards. `crc32` is
the usual one.
-/

namespace Crc

variable {w : ℕ}

/-- A step of a register that shifts towards its low end. -/
def lsbStep (poly r : BitVec w) : BitVec w :=
  if r.getLsbD 0 then r >>> 1 ^^^ poly else r >>> 1

/-- A step of a register that shifts towards its high end. -/
def msbStep (poly r : BitVec w) : BitVec w :=
  if r.msb then r <<< 1 ^^^ poly else r <<< 1

/-- A register that shifts towards its low end takes in a byte. -/
def lsbByte (poly r : BitVec w) (b : UInt8) : BitVec w :=
  (lsbStep poly)^[8] (r ^^^ BitVec.ofNat w b.toNat)

/-- The reflected CRC-32: polynomial `0xEDB88320`, initial value and final mask all ones. -/
def crc32 (bytes : List UInt8) : BitVec 32 :=
  bytes.foldl (lsbByte 0xEDB88320#32) (.allOnes 32) ^^^ .allOnes 32

/-! ## The mirror image -/

theorem reverse_xor (x y : BitVec w) : (x ^^^ y).reverse = x.reverse ^^^ y.reverse := by
  apply BitVec.eq_of_getLsbD_eq
  intro i hi
  simp only [BitVec.getLsbD_reverse, BitVec.getLsbD_xor, BitVec.getMsbD_xor]

theorem reverse_ushiftRight_one (x : BitVec w) : (x >>> 1).reverse = x.reverse <<< 1 := by
  apply BitVec.eq_of_getLsbD_eq
  intro i hi
  simp only [BitVec.getLsbD_reverse, BitVec.getMsbD_ushiftRight, BitVec.getLsbD_shiftLeft, hi,
    decide_true, Bool.true_and]

/-- The two directions mirror each other. -/
theorem reverse_lsbStep (poly r : BitVec w) :
    (lsbStep poly r).reverse = msbStep poly.reverse r.reverse := by
  unfold lsbStep msbStep
  rw [BitVec.msb_reverse]
  split
  · rw [reverse_xor, reverse_ushiftRight_one]
  · exact reverse_ushiftRight_one r

theorem reverse_iterate_lsbStep (poly r : BitVec w) (n : ℕ) :
    ((lsbStep poly)^[n] r).reverse = (msbStep poly.reverse)^[n] r.reverse :=
  Function.Semiconj.iterate_right (f := BitVec.reverse) (reverse_lsbStep poly) n r

/-! ## Bits of integers -/

/-- The bits of an integer in two's complement. -/
theorem getLsbD_ofInt (n : ℤ) (i : ℕ) :
    (BitVec.ofInt w n).getLsbD i = (decide (i < w) && n.testBit i) := by
  cases n with
  | ofNat n =>
    show (BitVec.ofInt w (n : ℤ)).getLsbD i = (decide (i < w) && n.testBit i)
    rw [BitVec.ofInt_natCast, BitVec.getLsbD_ofNat]
  | negSucc n =>
    show (BitVec.ofInt w (Int.negSucc n)).getLsbD i = (decide (i < w) && !n.testBit i)
    rw [BitVec.ofInt_negSucc_eq_not_ofNat, BitVec.getLsbD_not, BitVec.getLsbD_ofNat]
    by_cases hi : i < w
    · simp only [hi, decide_true, Bool.true_and]
    · simp only [hi, decide_false, Bool.false_and]

theorem ofNat_shiftLeft_one (n : ℕ) : BitVec.ofNat w (n <<< 1) = BitVec.ofNat w n <<< 1 := by
  apply BitVec.eq_of_toNat_eq
  rw [BitVec.toNat_shiftLeft, BitVec.toNat_ofNat, BitVec.toNat_ofNat, Nat.shiftLeft_eq,
    Nat.shiftLeft_eq, Nat.mod_mul_mod]

end Crc
