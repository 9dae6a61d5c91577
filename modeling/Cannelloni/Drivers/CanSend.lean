import Cannelloni.Drivers.Can

/-!
# Sending a frame (`can_send`, `on_can_transmit`)

The transmit side of the driver. `can_send` programs mailbox 1 through `IF1` unless a
transmission is still requested for it. The length byte of the frame goes into the message
control register as it is and bounds the loop over the data bytes; the table that orders the
bytes has eight entries, and an index behind its end is a `CanFault`.
-/

namespace Cannelloni

/-! ## Constants -/

/-- `1U << DCAN_IFARB_MSGVAL_SHIFT`. -/
def ifarbMsgval : UInt32 := (1 : UInt32) <<< 31

/-- `1U << DCAN_IFARB_DIR_SHIFT`. -/
def ifarbDir : UInt32 := (1 : UInt32) <<< 29

/-- `1U << DCAN_IFMCTL_TXRQST_SHIFT`. -/
def ifmctlTxrqst : UInt32 := (1 : UInt32) <<< 8

/-- `CAN_MSGID_XTD_MASK`. -/
def canMsgidXtdMask : UInt32 := ((1 : UInt32) <<< 29) - 1

/-- `CAN_MSGID_STD_MASK`. -/
def canMsgidStdMask : UInt32 := ((1 : UInt32) <<< 11) - 1

/-- `DCAN_IFARB_ID_STD_SHIFT`. -/
def ifarbIdStdShift : UInt32 := 18

/-! ## The code -/

/-- The registers of a controller that `can_send` uses. -/
structure CanReg where
  txrq : Vector UInt32 4
  if1 : If1
  if1Cmd : UInt8
  if1No : UInt8
deriving DecidableEq, Repr

inductive CanFault
  /-- `data_byte_order[i]` was read behind the end of the table. -/
  | orderIndex (i : ℕ)
deriving DecidableEq, Repr

/-- `canreg->IF1DATx[data_byte_order[i]] = data[i]` for `i = 0, …, n - 1`. -/
def If1.storeData (m : If1) (data : ℕ → UInt8) : ℕ → Except CanFault If1
  | 0 => .ok m
  | n + 1 => do
    let m ← m.storeData data n
    if h : n < 8 then .ok { m with datx := m.datx.setIfInBounds dataByteOrder[n] (data n) }
    else .error (.orderIndex n)

/-- A transmission is requested for mailbox 1. -/
abbrev CanReg.Busy (r : CanReg) : Prop := r.txrq[0] &&& 1 ≠ 0

/-- The value of `IF1ARB` for an identifier word. -/
def arbOf (id : UInt32) : UInt32 :=
  let arb := ifarbMsgval ||| ifarbDir
  if id &&& canMsgidExtended ≠ 0 then arb ||| (ifarbXtd ||| (id &&& canMsgidXtdMask))
  else arb ||| ((id &&& canMsgidStdMask) <<< ifarbIdStdShift)

/-- The value of `IF1MCTL` for a length byte. -/
def mctlOf (dlc : UInt8) : UInt32 := ifmctlNewdat ||| ifmctlTxrqst ||| (dlc.toUInt32 <<< 0)

/-- `can_send`. -/
def canSend (r : CanReg) (id : UInt32) (dlc : UInt8) (data : ℕ → UInt8) :
    Except CanFault (Bool × CanReg) :=
  if r.Busy then .ok (false, r)
  else do
    let if1 := { r.if1 with arb := arbOf id, mctl := mctlOf dlc }
    let if1 ← if1.storeData data dlc.toNat
    -- the command that starts the transfer to mailbox 1
    return (true, { r with if1 := if1, if1Cmd := 0xFF, if1No := 1 })

/-- `frame->data[i]`. -/
def CanfdFrame.byteAt (f : CanfdFrame) (i : ℕ) : UInt8 := f.data.toList.getD i 0

/-- `on_can_transmit`. -/
def onCanTransmit (r : CanReg) (f : CanfdFrame) : Except CanFault (Bool × CanReg) :=
  canSend r f.canId f.len f.byteAt

/-! ## The data registers -/

/-- The byte order is its own inverse. -/
theorem dataByteOrder_dataByteOrder (i : Fin 8) : dataByteOrder[dataByteOrder[i]] = i := by
  revert i
  decide

/-- The registers after the first `n` data bytes were stored. -/
def If1.loaded (m : If1) (data : ℕ → UInt8) (n : ℕ) : If1 :=
  { m with datx := Vector.ofFn fun j : Fin 8 =>
      if dataByteOrder[j] < n then data dataByteOrder[j] else m.datx[j] }

section Store

variable (m : If1) (data : ℕ → UInt8)

theorem If1.storeData_eq_ok {n : ℕ} (h : n ≤ 8) : m.storeData data n = .ok (m.loaded data n) := by
  induction n with
  | zero =>
    have hdatx : m.datx = Vector.ofFn fun j : Fin 8 => m.datx[j] := by
      apply Vector.ext
      intro j hj
      simp
    unfold storeData loaded
    simp only [Nat.not_lt_zero, if_false]
    rw [← hdatx]
  | succ n ih =>
    have hn : n < 8 := by omega
    rw [storeData, ih (by omega)]
    simp only [bind, Except.bind, dif_pos hn]
    unfold loaded
    congr 2
    apply Vector.ext
    intro j hj
    -- register `j` is written in this pass exactly when it is the one of byte `n`
    have hj_iff : (dataByteOrder[n]).val = j ↔ (dataByteOrder[j]).val = n := by
      have hdd := dataByteOrder_dataByteOrder
      constructor
      · intro hjn
        subst hjn
        exact congrArg Fin.val (hdd ⟨n, hn⟩)
      · intro hnj
        subst hnj
        exact congrArg Fin.val (hdd ⟨j, hj⟩)
    rw [Vector.getElem_setIfInBounds]
    by_cases hnj : (dataByteOrder[j]).val = n
    · simp [hj_iff.mpr hnj, hnj]
    · have hlt : (dataByteOrder[j]).val < n + 1 ↔ (dataByteOrder[j]).val < n := by omega
      rw [if_neg (mt hj_iff.mp hnj)]
      simp only [Vector.getElem_ofFn, Fin.getElem_fin, hlt]

theorem If1.storeData_eq_error {n : ℕ} (h : 8 < n) :
    m.storeData data n = .error (.orderIndex 8) := by
  obtain ⟨k, rfl⟩ := Nat.exists_eq_add_of_lt h
  induction k with
  | zero =>
    rw [Nat.add_zero, storeData, storeData_eq_ok m data (Nat.le_refl 8)]
    rfl
  | succ k ih =>
    rw [show 8 + (k + 1) + 1 = (8 + k + 1) + 1 by omega, storeData, ih (by omega)]
    rfl

/-- A reader finds the stored bytes in the order of the bus. -/
theorem If1.dataByte_loaded {n i : ℕ} (h : i < n) (h8 : i < 8) :
    (m.loaded data n).dataByte i = data i := by
  have hdd : dataByteOrder[(dataByteOrder[i]).val] = ⟨i, h8⟩ := dataByteOrder_dataByteOrder ⟨i, h8⟩
  unfold dataByte loaded
  rw [dif_pos h8]
  simp only [Vector.getElem_ofFn, Fin.getElem_fin, hdd, if_pos h]

end Store

/-! ## What a call does -/

section Send

variable {r : CanReg} {id : UInt32} {dlc : UInt8} {data : ℕ → UInt8}

/-- The values of the `IF1` registers after a frame was programmed over `old`. -/
def If1.programmed (old : If1) (id : UInt32) (dlc : UInt8) (data : ℕ → UInt8) :
    If1 :=
  { old with arb := arbOf id, mctl := mctlOf dlc }.loaded data dlc.toNat

@[simp] theorem If1.programmed_arb (old : If1) : (old.programmed id dlc data).arb = arbOf id := rfl

@[simp] theorem If1.programmed_mctl (old : If1) :
    (old.programmed id dlc data).mctl = mctlOf dlc := rfl

theorem canSend_busy (h : r.Busy) : canSend r id dlc data = .ok (false, r) := if_pos h

theorem canSend_free (h : ¬ r.Busy) (hdlc : dlc.toNat ≤ 8) :
    canSend r id dlc data
      = .ok (true, { r with if1 := r.if1.programmed id dlc data, if1Cmd := 0xFF, if1No := 1 }) := by
  unfold canSend
  rw [if_neg h]
  simp only [If1.storeData_eq_ok _ _ hdlc]
  rfl

/-- A length byte above eight runs over the table of the byte order. -/
theorem canSend_error (h : ¬ r.Busy) (hdlc : 8 < dlc.toNat) :
    canSend r id dlc data = .error (.orderIndex 8) := by
  unfold canSend
  rw [if_neg h]
  simp only [If1.storeData_eq_error _ _ hdlc]
  rfl

end Send

end Cannelloni
