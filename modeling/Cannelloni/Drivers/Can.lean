import Cannelloni.Frame

/-!
# The DCAN controller (`drivers/can.c`)

The receive side of the driver: the message RAM with its mailboxes, the interface register
set `IF1` through which the processor sees one mailbox at a time, and the two functions that
read a mailbox. A read command copies the mailbox to `IF1` and clears its `NewDat` bit.
-/

namespace Cannelloni

/-- First mailbox of the receive FIFO. -/
@[simp] def canRxQueueFirstMbox : ℕ := 2

/-- Last mailbox of the receive FIFO. -/
@[simp] def canMboxLast : ℕ := 64

/-- `1U << DCAN_IFMCTL_NEWDAT_SHIFT`. -/
def ifmctlNewdat : UInt32 := (1 : UInt32) <<< 15

/-- `1U << DCAN_IFARB_XTD_SHIFT`. -/
def ifarbXtd : UInt32 := (1 : UInt32) <<< 30

/-- `CAN_MSGID_EXTENDED`. -/
def canMsgidExtended : UInt32 := (1 : UInt32) <<< 31

/-- The arbitration, message control and data registers of an interface register set; a
mailbox of the message RAM has the same fields. -/
structure If1 where
  arb : UInt32
  mctl : UInt32
  datx : Vector UInt8 8
deriving DecidableEq, Repr

/-- The controller: its mailboxes and `IF1`. -/
structure Dcan where
  mailbox : ℕ → If1
  if1 : If1

/-- The mailbox holds a message that was not read yet. -/
abbrev If1.NewDat (m : If1) : Prop := m.mctl &&& ifmctlNewdat ≠ 0

/-- The mailbox after its message was read. -/
def If1.read (m : If1) : If1 := { m with mctl := m.mctl &&& ~~~ifmctlNewdat }

/-- A controller that received nothing. -/
def Dcan.idle : Dcan := ⟨fun _ => ⟨0, 0, Vector.replicate _ 0⟩, ⟨0, 0, Vector.replicate _ 0⟩⟩

/-! ## The code -/

/-- `data_byte_order`. -/
def dataByteOrder : Vector (Fin 8) 8 := #v[3, 2, 1, 0, 7, 6, 5, 4]

/-- `can_mbox_has_data`. -/
def canMboxHasData (c : Dcan) (mbox : ℕ) : Bool × Dcan :=
  if mbox > canMboxLast then (false, c)
  else
    let if1 := c.mailbox mbox
    (if1.NewDat, { mailbox := Function.update c.mailbox mbox if1.read, if1 := if1 })

/-- The identifier word `can_fill_rx_mbox` makes of the arbitration register. -/
def If1.canId (m : If1) : UInt32 :=
  let id := m.arb &&& 0x1FFFFFFF
  if m.arb &&& ifarbXtd = 0 then id >>> 18 else id ||| canMsgidExtended

/-- The length byte `can_fill_rx_mbox` makes of the message control register. -/
def If1.len (m : If1) : UInt8 := (m.mctl &&& 0b1111).toUInt8

/-- The `i`-th data byte in the order of the bus. -/
def If1.dataByte (m : If1) (i : ℕ) : UInt8 :=
  if h : i < 8 then m.datx[dataByteOrder[i]] else 0

/-- `can_fill_rx_mbox`: the frame a slot with contents `f` holds afterwards. Its `flags` are
left as they are. -/
def canFillRxMbox (m : If1) (f : CanfdFrame) : Except Fault CanfdFrame :=
  { f with canId := m.canId, len := m.len }.copyData m.dataByte m.len.toNat

/-! ## What a read mailbox becomes -/

/-- The message fits a frame: its length code is one of classic CAN's data lengths. -/
def If1.Fits (m : If1) : Prop := m.len.toNat ≤ cnlCanfdMaxDlen

instance If1.decidableFits (m : If1) : Decidable m.Fits := inferInstanceAs (Decidable (_ ≤ _))

/-- The frame a slot with former contents `old` holds after the message was read to it. -/
def If1.frame (m : If1) (old : CanfdFrame) : CanfdFrame :=
  { old with canId := m.canId, len := m.len }.withData m.dataByte m.len.toNat

theorem canFillRxMbox_ok {m : If1} (h : m.Fits) (f : CanfdFrame) :
    canFillRxMbox m f = .ok (m.frame f) := CanfdFrame.copyData_eq_ok _ _ h

theorem canFillRxMbox_error {m : If1} (h : ¬ m.Fits) (f : CanfdFrame) :
    canFillRxMbox m f = .error (.dataIndex cnlCanfdMaxDlen) :=
  CanfdFrame.copyData_eq_error _ _ (not_le.mp h)

/-- The length code has four bits. -/
theorem If1.len_lt (m : If1) : m.len.toNat < 16 := by
  have hand : (m.mctl &&& 0b1111).toNat = m.mctl.toNat % 2 ^ 4 := by
    rw [UInt32.toNat_and]
    exact Nat.and_two_pow_sub_one_eq_mod _ 4
  unfold len
  rw [UInt32.toNat_toUInt8, hand]
  omega

theorem If1.canfdLen_frame (m : If1) (old : CanfdFrame) :
    canfdLen (m.frame old) = m.len.toNat := by
  have hlt := m.len_lt
  show dlcOf m.len = m.len.toNat
  rw [dlcOf_eq_mod]
  omega

/-- What the bus saw of a message. -/
def If1.view (m : If1) : UInt32 × UInt8 × List UInt8 :=
  (m.canId, m.len, (List.range m.len.toNat).map m.dataByte)

/-- The frame says what the message said, whatever the slot held before. -/
theorem If1.frame_view {m : If1} (h : m.Fits) (old : CanfdFrame) : (m.frame old).view = m.view := by
  have hlen := m.canfdLen_frame old
  unfold CanfdFrame.view
  rw [hlen]
  exact congrArg (fun d => (m.canId, m.len, d)) (CanfdFrame.take_withData _ _ h)

end Cannelloni
