import Mathlib.Data.Nat.Bitwise
import Mathlib.Tactic.Common
import Cannelloni.Lib.Bytes

/-!
# CAN frames of the gateway (`cannelloni.h`)

The frame type both queues hold, the constants of the wire format, and the byte-wise copy
into a frame's data array. The array has `CNL_CANFD_MAX_DLEN = 8` bytes; a store behind its
end is not given a meaning but stops the program with `Fault.dataIndex`.
-/

namespace Cannelloni

/-! ## Constants -/

/-- Base size of a frame on the wire: `can_id` and `len`. -/
@[simp] def cannelloniFrameBaseSize : ℕ := 5

/-- Size of `struct cannelloni_data_packet`. -/
@[simp] def cannelloniDataPacketBaseSize : ℕ := 5

def cannelloniFrameVersion : UInt8 := 2

/-- The bit of a `len` byte that marks a CAN FD frame. -/
def canfdFrame : UInt8 := 0x80

/-- `enum op_codes`. -/
inductive OpCodes
  | cnlData
  | cnlAck
  | cnlNack
deriving DecidableEq, Repr

def OpCodes.toUInt8 : OpCodes → UInt8
  | .cnlData => 0
  | .cnlAck => 1
  | .cnlNack => 2

/-- The bit of a `can_id` that marks a remote transmission request. -/
def canRtrFlag : UInt32 := 0x40000000

@[simp] def cnlCanfdMaxDlen : ℕ := 8

/-! ## Frames -/

/-- `struct canfd_frame`. -/
structure CanfdFrame where
  canId : UInt32
  len : UInt8
  flags : UInt8
  data : Vector UInt8 cnlCanfdMaxDlen
deriving DecidableEq, Repr

/-- A frame of a zero-initialised array. -/
def CanfdFrame.zero : CanfdFrame := ⟨0, 0, 0, Vector.replicate _ 0⟩

/-- The length a `len` byte stands for, `len & ~CANFD_FRAME`. -/
def dlcOf (len : UInt8) : ℕ := (len &&& ~~~canfdFrame).toNat

/-- `canfd_len`: the real length of a frame. -/
def canfdLen (f : CanfdFrame) : ℕ := dlcOf f.len

/-- The identifier carries the remote transmission request flag. -/
abbrev IsRtr (canId : UInt32) : Prop := canId &&& canRtrFlag ≠ 0

/-- The `len` byte carries the CAN FD bit. -/
abbrev IsFd (len : UInt8) : Prop := len &&& canfdFrame ≠ 0

/-- What a frame says on a bus: identifier, length byte and the bytes the length covers. -/
def CanfdFrame.view (f : CanfdFrame) : UInt32 × UInt8 × List UInt8 :=
  (f.canId, f.len, f.data.toList.take (canfdLen f))

/-- A classic data frame whose payload fits the data array. -/
structure CanfdFrame.Classic (f : CanfdFrame) : Prop where
  not_rtr : ¬ IsRtr f.canId
  not_fd : ¬ IsFd f.len
  len_le : canfdLen f ≤ cnlCanfdMaxDlen

theorem dlcOf_eq_mod (len : UInt8) : dlcOf len = len.toNat % 2 ^ 7 := by
  unfold dlcOf canfdFrame
  rw [UInt8.toNat_and]
  exact Nat.and_two_pow_sub_one_eq_mod len.toNat 7

/-- The CAN FD bit is the top bit of the byte. -/
theorem isFd_iff (len : UInt8) : IsFd len ↔ 128 ≤ len.toNat := by
  have hlt := len.toNat_lt
  have hand : (len &&& canfdFrame).toNat = (len.toNat.testBit 7).toNat * 2 ^ 7 := by
    unfold canfdFrame
    rw [UInt8.toNat_and]
    exact Nat.and_two_pow len.toNat 7
  have hzero : len &&& canfdFrame = 0 ↔ (len &&& canfdFrame).toNat = 0 := by
    rw [← UInt8.toNat_inj]
    rfl
  unfold IsFd
  rw [Ne, hzero, hand, Nat.testBit_eq_decide_div_mod_eq]
  by_cases h : 128 ≤ len.toNat
  · have hbit : len.toNat / 128 % 2 = 1 := by omega
    simp [hbit, h]
  · have hbit : len.toNat / 128 % 2 = 0 := by omega
    simp [hbit, h]

/-- Without the CAN FD bit the byte is the length itself. -/
theorem dlcOf_of_not_isFd {len : UInt8} (h : ¬ IsFd len) : dlcOf len = len.toNat := by
  rw [isFd_iff] at h
  rw [dlcOf_eq_mod]
  omega

theorem not_isFd_of_le {len : UInt8} (h : len.toNat ≤ cnlCanfdMaxDlen) : ¬ IsFd len := by
  rw [isFd_iff]
  simp only [cnlCanfdMaxDlen] at h
  omega

/-! ## Stores into the data array -/

/-- A store the program has no right to make. -/
inductive Fault
  /-- `data[i]` of a frame was written with `i` behind the end of the array. -/
  | dataIndex (i : ℕ)
deriving DecidableEq, Repr

/-- `frame->data[i] = b`. -/
def CanfdFrame.writeData (f : CanfdFrame) (i : ℕ) (b : UInt8) : Except Fault CanfdFrame :=
  if h : i < cnlCanfdMaxDlen then .ok { f with data := f.data.set i b h }
  else .error (.dataIndex i)

/-- Store `src 0, …, src (n - 1)` to `data[0], …, data[n - 1]`, in this order. -/
def CanfdFrame.copyData (f : CanfdFrame) (src : ℕ → UInt8) : ℕ → Except Fault CanfdFrame
  | 0 => .ok f
  | n + 1 => do
    let g ← f.copyData src n
    g.writeData n (src n)

/-- The frame with the first `n` data bytes taken from `src`. -/
def CanfdFrame.withData (f : CanfdFrame) (src : ℕ → UInt8) (n : ℕ) : CanfdFrame :=
  { f with data := Bytes.overlay f.data src n }

/-- A copy that fits the array succeeds and replaces exactly the bytes it covers. -/
theorem CanfdFrame.copyData_eq_ok (f : CanfdFrame) (src : ℕ → UInt8) {n : ℕ}
    (h : n ≤ cnlCanfdMaxDlen) : f.copyData src n = .ok (f.withData src n) := by
  induction n with
  | zero => rw [copyData, withData, Bytes.overlay_zero]
  | succ n ih =>
    have hn : n < cnlCanfdMaxDlen := by omega
    rw [copyData, ih (by omega)]
    simp only [bind, Except.bind, writeData, dif_pos hn]
    simp only [withData, Bytes.set_overlay]

/-- A copy that is longer than the array stores behind its end. -/
theorem CanfdFrame.copyData_eq_error (f : CanfdFrame) (src : ℕ → UInt8) {n : ℕ}
    (h : cnlCanfdMaxDlen < n) : f.copyData src n = .error (.dataIndex cnlCanfdMaxDlen) := by
  obtain ⟨k, rfl⟩ := Nat.exists_eq_add_of_lt h
  -- the first eight stores succeed, and the ninth fails whatever would follow
  induction k with
  | zero =>
    rw [Nat.add_zero, copyData, copyData_eq_ok f src (Nat.le_refl _)]
    rfl
  | succ k ih =>
    rw [show cnlCanfdMaxDlen + (k + 1) + 1 = (cnlCanfdMaxDlen + k + 1) + 1 by omega, copyData,
      ih (by omega)]
    rfl

/-- The first `n` bytes of the array are the ones that were copied. -/
theorem CanfdFrame.take_withData (f : CanfdFrame) (src : ℕ → UInt8) {n : ℕ}
    (h : n ≤ cnlCanfdMaxDlen) :
    (f.withData src n).data.toList.take n = (List.range n).map src := by
  have htake := Bytes.take_overlay f.data src h
  simp only [Bytes.slice, Nat.zero_add] at htake
  exact htake

end Cannelloni
