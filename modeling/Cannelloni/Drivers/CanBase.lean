import Cannelloni.Lib.Run
import Cannelloni.BusOutput

/-!
# Registers and message RAM (`drivers/can.c`)

The registers of `canBASE_t` that the driver uses, the message RAM behind them, and what the
controller does by itself: it completes a transfer between `IF1` and the message RAM, it stores a
frame from the bus, and it sends a mailbox. The functions of the driver are cut at their calls of
`can_if_wait_ready`.

`Receiver` is what the loop of `can_init` makes of a mailbox and what stored frames and read
commands leave of it, `Outgoing` what `can_send` makes of mailbox 1.
-/

namespace Cannelloni

/-! ## Constants -/

/-- `1U << DCAN_IFMCTL_MSGLST_SHIFT`. -/
def ifmctlMsglst : UInt32 := (1 : UInt32) <<< 14

/-- `1U << DCAN_IFMCTL_INTPND_SHIFT`. -/
def ifmctlIntpnd : UInt32 := (1 : UInt32) <<< 13

/-- `1U << DCAN_IFMCTL_UMASK_SHIFT`. -/
def ifmctlUmask : UInt32 := (1 : UInt32) <<< 12

/-- `1U << DCAN_IFMCTL_RXIE_SHIFT`. -/
def ifmctlRxie : UInt32 := (1 : UInt32) <<< 10

/-- `1U << DCAN_IFMCTL_EOB_SHIFT`. -/
def ifmctlEob : UInt32 := (1 : UInt32) <<< 7

/-- The length code of the message control register. -/
def ifmctlDlc : UInt32 := 0b1111

/-- `1U << DCAN_IFMSK_MDIR_SHIFT`. -/
def ifmskMdir : UInt32 := (1 : UInt32) <<< 30

/-- The bit above it: the extended identifier bit counts for the acceptance. -/
def ifmskMxtd : UInt32 := (1 : UInt32) <<< 31

/-- `DCAN_IFCMD_WRRD_SHIFT` and the other bits of `IF1CMD`. -/
def ifcmdWrrd : UInt8 := (1 : UInt8) <<< 7
def ifcmdMask : UInt8 := (1 : UInt8) <<< 6
def ifcmdArb : UInt8 := (1 : UInt8) <<< 5
def ifcmdControl : UInt8 := (1 : UInt8) <<< 4
def ifcmdClrintpnd : UInt8 := (1 : UInt8) <<< 3
def ifcmdTxrqst : UInt8 := (1 : UInt8) <<< 2
def ifcmdDataa : UInt8 := (1 : UInt8) <<< 1
def ifcmdDatab : UInt8 := (1 : UInt8) <<< 0

/-- `1U << DCAN_CTL_INIT_SHIFT`. -/
def ctlInit : UInt32 := (1 : UInt32) <<< 0

/-- `1U << DCAN_CTL_CCE_SHIFT`. -/
def ctlCce : UInt32 := (1 : UInt32) <<< 6

/-! ## The controller -/

/-- A mailbox of the message RAM with its acceptance mask. -/
structure MsgObject where
  msk : UInt32
  reg : If1

/-- The registers the driver uses and the message RAM. `busy` is the bit of `IF1STAT` that
`can_if_wait_ready` waits for. -/
structure CanBase where
  ctl : UInt32
  btr : UInt32
  tioc : UInt32
  rioc : UInt32
  if1Msk : UInt32
  if1 : If1
  if1Cmd : UInt8
  if1No : UInt8
  busy : Bool
  ram : ℕ → MsgObject

/-- A frame on the bus: the identifier with the extended bit where the arbitration register has
them, and the data bytes where the data registers have them. -/
structure BusFrame where
  ident : UInt32
  remote : Bool
  dlc : UInt32
  datx : Vector UInt8 8
  ident_fits : ident &&& (ifarbMsgval ||| ifarbDir) = 0
  dlc_fits : dlc &&& ~~~ifmctlDlc = 0

/-- What is seen of a received message: identifier word, length and data bytes. -/
abbrev MsgView := UInt32 × UInt8 × List UInt8

/-- What is to be seen of a frame. -/
def BusFrame.view (f : BusFrame) : MsgView := (⟨f.ident, f.dlc, f.datx⟩ : If1).view

namespace MsgObject

/-- An object the controller does not use. -/
def blank : MsgObject := ⟨0, 0, 0, Vector.replicate _ 0⟩

/-- A message waits to be read. -/
abbrev NewDat (o : MsgObject) : Prop := o.reg.NewDat

/-- The object takes part in a FIFO and is not its end. -/
abbrev Chained (o : MsgObject) : Prop := o.reg.mctl &&& ifmctlEob = 0

/-- A transmission is requested. -/
abbrev TxRqst (o : MsgObject) : Prop := o.reg.mctl &&& ifmctlTxrqst ≠ 0

/-- The mask registers are used for the acceptance. -/
abbrev Umask (o : MsgObject) : Prop := o.reg.mctl &&& ifmctlUmask ≠ 0

/-- A transmit object. -/
abbrev Dir (o : MsgObject) : Prop := o.reg.arb &&& ifarbDir ≠ 0

/-- The object is in use. -/
abbrev MsgVal (o : MsgObject) : Prop := o.reg.arb &&& ifarbMsgval ≠ 0

/-- The acceptance filter. A transmit object without mask stores nothing. -/
def Accepts (o : MsgObject) (f : BusFrame) : Prop :=
  let mask := if o.Umask then o.msk else ~~~0
  o.MsgVal ∧ (o.Dir → o.Umask) ∧
    (o.reg.arb ^^^ f.ident) &&& (mask &&& canMsgidXtdMask) = 0 ∧
    (mask &&& ifmskMxtd ≠ 0 → o.reg.arb &&& ifarbXtd = f.ident &&& ifarbXtd) ∧
    -- receive objects take data frames, transmit objects remote frames
    (mask &&& ifmskMdir ≠ 0 → (o.Dir ↔ f.remote))

instance (o : MsgObject) (f : BusFrame) : Decidable (o.Accepts f) :=
  inferInstanceAs (Decidable (_ ∧ _ ∧ _ ∧ _ ∧ _))

/-- The object after a frame was stored in it. -/
def store (o : MsgObject) (f : BusFrame) : MsgObject :=
  let lost := if o.NewDat then ifmctlMsglst else 0
  let intpnd := if o.reg.mctl &&& ifmctlRxie ≠ 0 then ifmctlIntpnd else 0
  { o with reg :=
    { arb := ifarbMsgval ||| f.ident
      mctl := o.reg.mctl &&& ~~~ifmctlDlc ||| (ifmctlNewdat ||| lost ||| intpnd ||| f.dlc)
      datx := f.datx } }

/-- The object is sent: it is valid, a transmit object, and a transmission is requested. -/
def Sends (o : MsgObject) : Prop := o.MsgVal ∧ o.Dir ∧ o.TxRqst

instance (o : MsgObject) : Decidable o.Sends := inferInstanceAs (Decidable (_ ∧ _ ∧ _))

/-- The object after it was sent. -/
def sent (o : MsgObject) : MsgObject :=
  { o with reg := { o.reg with mctl := o.reg.mctl &&& ~~~(ifmctlTxrqst ||| ifmctlNewdat) } }

end MsgObject

namespace CanBase

/-- A bit of the command register is set. -/
abbrev Cmd (c : CanBase) (bit : UInt8) : Prop := c.if1Cmd &&& bit ≠ 0

/-- The data bytes the command selects, from `datx`, and the others from `old`. -/
def selectData (c : CanBase) (datx old : Vector UInt8 8) : Vector UInt8 8 :=
  Vector.ofFn fun j : Fin 8 =>
    if c.Cmd (if j.val < 4 then ifcmdDataa else ifcmdDatab) then datx.get j else old.get j

/-- What a write command makes of the object. -/
def written (c : CanBase) (o : MsgObject) : MsgObject where
  msk := if c.Cmd ifcmdMask then c.if1Msk else o.msk
  reg :=
    { arb := if c.Cmd ifcmdArb then c.if1.arb else o.reg.arb
      mctl := (if c.Cmd ifcmdControl then c.if1.mctl else o.reg.mctl)
        ||| if c.Cmd ifcmdTxrqst then ifmctlTxrqst ||| ifmctlNewdat else 0
      datx := c.selectData c.if1.datx o.reg.datx }

/-- What a read command leaves of the object. -/
def fetched (c : CanBase) (o : MsgObject) : MsgObject :=
  let intpnd := if c.Cmd ifcmdClrintpnd then ifmctlIntpnd else 0
  let newdat := if c.Cmd ifcmdTxrqst then ifmctlNewdat else 0
  { o with reg := { o.reg with mctl := o.reg.mctl &&& ~~~(intpnd ||| newdat) } }

/-- The transfer started last comes to its end. -/
def transfer (c : CanBase) : CanBase :=
  if c.busy then
    let mbox := c.if1No.toNat
    let o := c.ram mbox
    if c.Cmd ifcmdWrrd then
      { c with busy := false, ram := Function.update c.ram mbox (c.written o) }
    else
      { c with
        busy := false
        if1Msk := if c.Cmd ifcmdMask then o.msk else c.if1Msk
        if1 :=
          { arb := if c.Cmd ifcmdArb then o.reg.arb else c.if1.arb
            mctl := if c.Cmd ifcmdControl then o.reg.mctl else c.if1.mctl
            datx := c.selectData o.reg.datx c.if1.datx }
        ram := Function.update c.ram mbox (c.fetched o) }
  else c

/-- The object that a frame is stored in: the first that accepts it and has no message waiting,
or is the end of a FIFO. -/
def target (c : CanBase) (f : BusFrame) : Option ℕ :=
  (List.range' 1 canMboxLast).find? fun i =>
    (c.ram i).Accepts f ∧ ¬ ((c.ram i).NewDat ∧ (c.ram i).Chained)

/-- The controller takes part in the traffic of the bus. -/
abbrev Normal (c : CanBase) : Prop := c.ctl &&& ctlInit = 0

/-- The registers and the message RAM after the reset, and the first statement of `can_init`. -/
def reset : CanBase where
  ctl := ((0x5 : UInt32) <<< 10) ||| ctlInit ||| ctlCce
  btr := 0
  tioc := 0
  rioc := 0
  if1Msk := 0
  if1 := ⟨0, 0, Vector.replicate _ 0⟩
  if1Cmd := 0
  if1No := 0
  busy := false
  ram := fun _ => .blank

/-! ## The driver between its waits -/

/-- The body of the loop of `can_init` behind the wait. -/
def initMbox (c : CanBase) (mbox : ℕ) : CanBase :=
  { c with
    if1Msk := ifmskMdir
    if1 :=
      { c.if1 with
        arb := ifarbMsgval ||| ifarbXtd
        mctl := ifmctlUmask ||| (if mbox = 64 then ifmctlEob else 0) ||| ifmctlRxie }
    if1Cmd := ifcmdWrrd ||| ifcmdMask ||| ifcmdArb ||| ifcmdControl ||| ifcmdClrintpnd
    if1No := UInt8.ofNat mbox
    busy := true }

/-- `can_init` behind its loop. -/
def initDone (c : CanBase) : CanBase :=
  let ioc : UInt32 := ((1 : UInt32) <<< 18) ||| ((1 : UInt32) <<< 3)
  { c with
    btr := ((0 : UInt32) <<< 16) ||| ((4 - 1 : UInt32) <<< 12) ||| ((6 + 4 - 1 : UInt32) <<< 8)
      ||| ((4 - 1 : UInt32) <<< 6) ||| ((9 : UInt32) <<< 0)
    tioc := ioc
    rioc := ioc
    ctl := c.ctl &&& ~~~(ctlInit ||| ctlCce) }

/-- `can_send` behind the wait. -/
def sendMbox (c : CanBase) (id : UInt32) (dlc : UInt8) (data : ℕ → UInt8) :
    Except CanFault CanBase := do
  let if1 ← { c.if1 with arb := arbOf id, mctl := mctlOf dlc }.storeData data dlc.toNat
  return { c with if1 := if1, if1Cmd := 0xFF, if1No := 1, busy := true }

/-- The command of `can_mbox_has_data`. -/
def readCmd : UInt8 := ifcmdArb ||| ifcmdControl ||| ifcmdClrintpnd ||| ifcmdTxrqst ||| ifcmdDataa
  ||| ifcmdDatab

/-- `can_mbox_has_data` between its waits. -/
def selectMbox (c : CanBase) (mbox : UInt8) : CanBase :=
  { c with
    if1Cmd := readCmd
    if1No := mbox
    busy := true }

end CanBase

/-! ## Objects -/

/-- The image of a frame that `can_send` gets. -/
def imageOf (id : UInt32) (dlc : UInt8) (data : ℕ → UInt8) : BusImage :=
  ⟨arbOf id, mctlOf dlc, (List.range dlc.toNat).map data⟩

/-- The image in a mailbox. -/
def If1.ownImage (m : If1) : BusImage := m.image m.len.toNat


/-- The view depends on the identifier, the length code and the data. -/
theorem If1.view_congr {m m' : If1} (hid : m.arb &&& canMsgidXtdMask = m'.arb &&& canMsgidXtdMask)
    (hxtd : m.arb &&& ifarbXtd = m'.arb &&& ifarbXtd)
    (hdlc : m.mctl &&& ifmctlDlc = m'.mctl &&& ifmctlDlc) (hdatx : m.datx = m'.datx) :
    m.view = m'.view := by
  have hcanId : m.canId = m'.canId := by
    unfold canId
    rw [show (0x1FFFFFFF : UInt32) = canMsgidXtdMask by decide, hid, hxtd]
  have hlen : m.len = m'.len := congrArg UInt32.toUInt8 hdlc
  have hbyte : m.dataByte = m'.dataByte := by
    funext i
    unfold dataByte
    rw [hdatx]
  unfold view
  rw [hcanId, hlen, hbyte]

namespace MsgObject

variable {o : MsgObject} {f : BusFrame}

/-- The bits of the message control word that a stored frame leaves as they are. -/
theorem mctl_store_and {mask : UInt32} (hdlc : ~~~ifmctlDlc &&& mask = mask)
    (hflags : (ifmctlNewdat ||| ifmctlMsglst ||| ifmctlIntpnd) &&& mask = 0) :
    (o.store f).reg.mctl &&& mask = o.reg.mctl &&& mask := by
  rw [Bytes.or_and_distrib, Bytes.or_and_distrib, UInt32.or_eq_zero_iff, UInt32.or_eq_zero_iff]
    at hflags
  obtain ⟨⟨hnewdat, hmsglst⟩, hintpnd⟩ := hflags
  have hlen : f.dlc &&& mask = 0 := Bytes.and_eq_zero_of_part f.dlc_fits hdlc
  unfold store
  simp only [Bytes.or_and_distrib, Bytes.and_not_and hdlc, hnewdat, hlen]
  split <;> split <;> simp [hmsglst, hintpnd]

theorem newDat_store : (o.store f).NewDat := by
  show (o.store f).reg.mctl &&& ifmctlNewdat ≠ 0
  unfold store
  simp only [Bytes.or_and_distrib, ne_eq, UInt32.or_eq_zero_iff, not_and_or]
  exact .inr (.inl (.inl (.inl (by decide))))

/-- The stored frame is seen as it was on the bus. -/
theorem view_store : (o.store f).reg.view = f.view := by
  apply If1.view_congr
  · show (ifarbMsgval ||| f.ident) &&& canMsgidXtdMask = f.ident &&& canMsgidXtdMask
    rw [Bytes.or_and_distrib, show ifarbMsgval &&& canMsgidXtdMask = 0 by decide, UInt32.zero_or]
  · show (ifarbMsgval ||| f.ident) &&& ifarbXtd = f.ident &&& ifarbXtd
    rw [Bytes.or_and_distrib, show ifarbMsgval &&& ifarbXtd = 0 by decide, UInt32.zero_or]
  · show (o.store f).reg.mctl &&& ifmctlDlc = f.dlc &&& ifmctlDlc
    unfold store
    simp only [Bytes.or_and_distrib]
    rw [Bytes.and_not_and_part (by decide), show ifmctlNewdat &&& ifmctlDlc = 0 by decide]
    split <;> split <;> simp [show ifmctlMsglst &&& ifmctlDlc = 0 by decide,
      show ifmctlIntpnd &&& ifmctlDlc = 0 by decide]
  · rfl

/-- What `can_init` makes of a mailbox of the receive FIFO, whatever it holds. -/
structure Receiver (i : ℕ) (o : MsgObject) : Prop where
  msk_eq : o.msk = ifmskMdir
  msgVal : o.MsgVal
  not_dir : ¬ o.Dir
  umask : o.Umask
  chained_iff : o.Chained ↔ i ≠ 64

/-- A receive object takes every data frame and no remote frame. -/
theorem Receiver.accepts_iff {i : ℕ} (h : o.Receiver i) : o.Accepts f ↔ f.remote = false := by
  unfold Accepts
  simp only [if_pos h.umask, h.msk_eq]
  rw [show ifmskMdir &&& canMsgidXtdMask = 0 by decide, UInt32.and_zero,
    show ifmskMdir &&& ifmskMxtd = 0 by decide]
  simp [h.msgVal, h.not_dir, show ifmskMdir ≠ 0 by decide]

theorem Receiver.store {i : ℕ} (h : o.Receiver i) (f : BusFrame) : (o.store f).Receiver i where
  msk_eq := h.msk_eq
  msgVal := by
    show (ifarbMsgval ||| f.ident) &&& ifarbMsgval ≠ 0
    rw [Bytes.or_and_distrib, ne_eq, UInt32.or_eq_zero_iff, not_and_or]
    exact .inl (by decide)
  not_dir := by
    show ¬ (ifarbMsgval ||| f.ident) &&& ifarbDir ≠ 0
    rw [not_not, Bytes.or_and_distrib, Bytes.and_eq_zero_of_part f.ident_fits (by decide)]
    decide
  umask := by
    show (o.store f).reg.mctl &&& ifmctlUmask ≠ 0
    rw [mctl_store_and (by decide) (by decide)]
    exact h.umask
  chained_iff := by
    show (o.store f).reg.mctl &&& ifmctlEob = 0 ↔ i ≠ 64
    rw [mctl_store_and (by decide) (by decide)]
    exact h.chained_iff

/-- What `can_send` makes of mailbox 1, whatever it holds. -/
structure Outgoing (image : BusImage) (o : MsgObject) : Prop where
  msgVal : o.MsgVal
  dir : o.Dir
  not_umask : ¬ o.Umask
  txRqst : o.TxRqst
  image_eq : o.reg.ownImage = image

/-- A mailbox that stores nothing. -/
structure Closed (o : MsgObject) : Prop where
  not_umask : ¬ o.Umask
  dir_of_msgVal : o.MsgVal → o.Dir

theorem Outgoing.closed {image : BusImage} (h : o.Outgoing image) : o.Closed :=
  ⟨h.not_umask, fun _ => h.dir⟩

theorem Outgoing.sends {image : BusImage} (h : o.Outgoing image) : o.Sends :=
  ⟨h.msgVal, h.dir, h.txRqst⟩

theorem Closed.not_accepts (h : o.Closed) (f : BusFrame) : ¬ o.Accepts f := by
  intro hacc
  exact h.not_umask (hacc.2.1 (h.dir_of_msgVal hacc.1))

theorem closed_blank : blank.Closed := ⟨by decide, by decide⟩

theorem not_sends_blank : ¬ blank.Sends := by decide

theorem Closed.sent (h : o.Closed) : o.sent.Closed where
  not_umask := by
    show ¬ o.reg.mctl &&& ~~~(ifmctlTxrqst ||| ifmctlNewdat) &&& ifmctlUmask ≠ 0
    rw [Bytes.and_not_and (by decide)]
    exact h.not_umask
  dir_of_msgVal := h.dir_of_msgVal

theorem not_txRqst_sent : ¬ o.sent.TxRqst := by
  show ¬ o.reg.mctl &&& ~~~(ifmctlTxrqst ||| ifmctlNewdat) &&& ifmctlTxrqst ≠ 0
  rw [Bytes.and_not_and_part (by decide)]
  simp

end MsgObject

/-! ## Commands -/

namespace CanBase

variable {c : CanBase} {o : MsgObject}

theorem selectData_all (h : c.Cmd ifcmdDataa ∧ c.Cmd ifcmdDatab) (datx old : Vector UInt8 8) :
    c.selectData datx old = datx := by
  apply Vector.ext
  intro j hj
  unfold selectData
  rw [Vector.getElem_ofFn, if_pos]
  · rfl
  · split
    · exact h.1
    · exact h.2

/-- The words of an object after a write command for both of them. -/
theorem written_words (harb : c.Cmd ifcmdArb) (hcontrol : c.Cmd ifcmdControl) :
    (c.written o).reg.arb = c.if1.arb ∧ (c.written o).reg.mctl
      = c.if1.mctl ||| if c.Cmd ifcmdTxrqst then ifmctlTxrqst ||| ifmctlNewdat else 0 := by
  unfold written
  simp only [if_pos harb, if_pos hcontrol, and_self]

theorem cmd_initMbox_iff (c : CanBase) (i : ℕ) {bit : UInt8} :
    (c.initMbox i).Cmd bit ↔ 0xF8 &&& bit ≠ 0 := Iff.rfl

/-- The command of `can_init` makes a receive object without a message of any mailbox. -/
theorem written_initMbox (c : CanBase) (i : ℕ) (o : MsgObject) :
    ((c.initMbox i).written o).Receiver i ∧ ¬ ((c.initMbox i).written o).NewDat := by
  have hclear : ¬ (c.initMbox i).Cmd ifcmdTxrqst := by
    rw [cmd_initMbox_iff]
    decide
  obtain ⟨harb, hmctl⟩ := written_words (c := c.initMbox i) (o := o)
    ((cmd_initMbox_iff c i).mpr (by decide)) ((cmd_initMbox_iff c i).mpr (by decide))
  rw [if_neg hclear, UInt32.or_zero] at hmctl
  have hmctl' : ((c.initMbox i).written o).reg.mctl
      = ifmctlUmask ||| (if i = 64 then ifmctlEob else 0) ||| ifmctlRxie := hmctl
  have harb' : ((c.initMbox i).written o).reg.arb = ifarbMsgval ||| ifarbXtd := harb
  refine ⟨⟨?_, ?_, ?_, ?_, ?_⟩, ?_⟩
  · show (if (c.initMbox i).Cmd ifcmdMask then ifmskMdir else o.msk) = ifmskMdir
    exact if_pos ((cmd_initMbox_iff c i).mpr (by decide))
  · unfold MsgObject.MsgVal
    rw [harb']
    decide
  · unfold MsgObject.Dir
    rw [harb']
    decide
  · unfold MsgObject.Umask
    rw [hmctl']
    split <;> decide
  · unfold MsgObject.Chained
    rw [hmctl']
    split
    · next h => exact iff_of_false (by decide) (not_not.mpr h)
    · next h => exact iff_of_true (by decide) h
  · unfold MsgObject.NewDat If1.NewDat
    rw [hmctl']
    split <;> decide

/-- A length byte has no bits above the lowest eight. -/
theorem toUInt32_and_eq_zero (len : UInt8) {mask : UInt32} (h : 0xFF &&& mask = 0) :
    len.toUInt32 &&& mask = 0 := by
  have hlow : len.toUInt32 = len.toUInt32 &&& 0xFF := by
    apply UInt32.toNat_inj.mp
    rw [UInt32.toNat_and, UInt8.toNat_toUInt32]
    have hlt := len.toNat_lt
    exact ((Nat.and_two_pow_sub_one_eq_mod len.toNat 8).trans (Nat.mod_eq_of_lt hlt)).symm
  rw [hlow, UInt32.and_assoc, h, UInt32.and_zero]

theorem arbOf_and_msgval (id : UInt32) : arbOf id &&& ifarbMsgval ≠ 0 := by
  by_cases h : IsEff id
  · rw [and_of_eff h, ne_eq, UInt32.or_eq_zero_iff, not_and_or]
    exact .inl (by decide)
  · rw [and_of_not_eff h, ne_eq, UInt32.or_eq_zero_iff, not_and_or]
    exact .inl (by decide)

/-- What is in `IF1` when `can_send` starts the transfer. -/
theorem written_programmed {c : CanBase} (o : MsgObject) {old : If1} {id : UInt32} {dlc : UInt8}
    {data : ℕ → UInt8} (hdlc : dlc.toNat ≤ 8) (hcmd : c.if1Cmd = 0xFF)
    (hif1 : c.if1 = old.programmed id dlc data) :
    (c.written o).Outgoing (imageOf id dlc data) := by
  have hbit : ∀ bit : UInt8, 0xFF &&& bit ≠ 0 → c.Cmd bit := by
    intro bit hbit
    unfold Cmd
    rw [hcmd]
    exact hbit
  obtain ⟨harb, hmctl⟩ := written_words (o := o) (hbit ifcmdArb (by decide))
    (hbit ifcmdControl (by decide))
  rw [if_pos (hbit ifcmdTxrqst (by decide)), hif1, If1.programmed_mctl] at hmctl
  rw [hif1, If1.programmed_arb] at harb
  have hdatx : (c.written o).reg.datx = c.if1.datx :=
    selectData_all ⟨hbit ifcmdDataa (by decide), hbit ifcmdDatab (by decide)⟩ _ _
  have hlen : (c.written o).reg.len = dlc := by
    apply If1.len_of_mctl hdlc
    rw [hmctl, Bytes.or_and_distrib,
      show (ifmctlTxrqst ||| ifmctlNewdat) &&& 0b1111 = 0 by decide, UInt32.or_zero]
  refine ⟨?_, ?_, ?_, ?_, ?_⟩
  · unfold MsgObject.MsgVal
    rw [harb]
    exact arbOf_and_msgval id
  · unfold MsgObject.Dir
    rw [harb, arbOf_and_dir]
    decide
  · unfold MsgObject.Umask
    rw [hmctl, mctlOf, UInt32.shiftLeft_zero, Bytes.or_and_distrib, Bytes.or_and_distrib,
      toUInt32_and_eq_zero dlc (by decide)]
    decide
  · unfold MsgObject.TxRqst
    rw [hmctl, Bytes.or_and_distrib, ne_eq, UInt32.or_eq_zero_iff, not_and_or]
    exact .inr (by decide)
  · -- the flags of the command are in the word already
    have hword : mctlOf dlc ||| (ifmctlTxrqst ||| ifmctlNewdat) = mctlOf dlc := by
      unfold mctlOf
      rw [UInt32.or_comm ifmctlTxrqst, UInt32.or_comm, ← UInt32.or_assoc, UInt32.or_self]
    have hdata : ∀ i ∈ List.range dlc.toNat, (c.written o).reg.dataByte i = data i := by
      intro i hi
      have hi' := List.mem_range.mp hi
      have hbyte : (c.written o).reg.dataByte i = c.if1.dataByte i := by
        unfold If1.dataByte
        rw [hdatx]
      rw [hbyte, hif1]
      exact If1.dataByte_loaded _ _ hi' (by omega)
    unfold If1.ownImage If1.image imageOf
    rw [hlen, harb, hmctl, hword, List.map_congr_left hdata]

/-- `can_send` behind the wait starts the transfer of the frame to mailbox 1. -/
theorem sendMbox_ok (c : CanBase) {id : UInt32} {dlc : UInt8} {data : ℕ → UInt8}
    (hdlc : dlc.toNat ≤ 8) :
    c.sendMbox id dlc data = .ok { c with
      if1 := c.if1.programmed id dlc data, if1Cmd := 0xFF, if1No := 1, busy := true } := by
  unfold sendMbox
  rw [If1.storeData_eq_ok _ _ hdlc]
  rfl

theorem transfer_idle (h : c.busy = false) : c.transfer = c := by
  unfold transfer
  rw [h]
  rfl

theorem transfer_write (h : c.busy = true) (hcmd : c.Cmd ifcmdWrrd) :
    c.transfer = { c with
      busy := false
      ram := Function.update c.ram c.if1No.toNat (c.written (c.ram c.if1No.toNat)) } := by
  unfold transfer
  rw [if_pos h]
  simp only [if_pos hcmd]

/-- A read of `can_mbox_has_data` copies the mailbox to `IF1`. -/
theorem transfer_read (h : c.busy = true) (hcmd : c.if1Cmd = readCmd) :
    c.transfer = { c with
      busy := false
      if1 := (c.ram c.if1No.toNat).reg
      ram := Function.update c.ram c.if1No.toNat (c.fetched (c.ram c.if1No.toNat)) } := by
  have hbit : ∀ bit : UInt8, readCmd &&& bit ≠ 0 → c.Cmd bit := by
    intro bit hbit
    unfold Cmd
    rw [hcmd]
    exact hbit
  have hwrrd : ¬ c.Cmd ifcmdWrrd := by
    unfold Cmd
    rw [hcmd]
    decide
  have hmask : ¬ c.Cmd ifcmdMask := by
    unfold Cmd
    rw [hcmd]
    decide
  unfold transfer
  rw [if_pos h]
  simp only [if_neg hwrrd, if_neg hmask, if_pos (hbit ifcmdArb (by decide)),
    if_pos (hbit ifcmdControl (by decide)),
    selectData_all ⟨hbit ifcmdDataa (by decide), hbit ifcmdDatab (by decide)⟩]

theorem fetched_mctl (hcmd : c.if1Cmd = readCmd) :
    (c.fetched o).reg.mctl = o.reg.mctl &&& ~~~(ifmctlIntpnd ||| ifmctlNewdat) := by
  have hclr : c.Cmd ifcmdClrintpnd := by
    unfold Cmd
    rw [hcmd]
    decide
  have htx : c.Cmd ifcmdTxrqst := by
    unfold Cmd
    rw [hcmd]
    decide
  unfold fetched
  simp only [if_pos hclr, if_pos htx]

/-- The message that was read is gone, and nothing else changed for the receiver. -/
theorem fetched_spec (hcmd : c.if1Cmd = readCmd) {i : ℕ} (h : o.Receiver i) :
    (c.fetched o).Receiver i ∧ ¬ (c.fetched o).NewDat := by
  have hmctl : (c.fetched o).reg.mctl = o.reg.mctl &&& ~~~(ifmctlIntpnd ||| ifmctlNewdat) :=
    fetched_mctl hcmd
  refine ⟨⟨h.msk_eq, h.msgVal, h.not_dir, ?_, ?_⟩, ?_⟩
  · unfold MsgObject.Umask
    rw [hmctl, Bytes.and_not_and (by decide)]
    exact h.umask
  · unfold MsgObject.Chained
    rw [hmctl, Bytes.and_not_and (by decide)]
    exact h.chained_iff
  · unfold MsgObject.NewDat If1.NewDat
    rw [hmctl, Bytes.and_not_and_part (by decide)]
    simp

/-- A frame is stored in an object that accepts it, and that has no message waiting unless it is
the end of the FIFO. -/
theorem target_spec {f : BusFrame} {i : ℕ} (h : c.target f = some i) :
    (c.ram i).Accepts f ∧ ((c.ram i).NewDat → ¬ (c.ram i).Chained) := by
  have hfind := List.find?_some h
  rw [decide_eq_true_eq] at hfind
  exact ⟨hfind.1, fun hnew hchained => hfind.2 ⟨hnew, hchained⟩⟩

/-! ## The functions as single steps -/

/-- The mailboxes and `IF1` alone. -/
def dcan (c : CanBase) : Dcan := ⟨fun i => (c.ram i).reg, c.if1⟩

/-- When no call waits, `can_send` behind its wait does what `canSend` says. -/
theorem sendMbox_canSend (c : CanBase) {r r' : CanReg} {id : UInt32} {dlc : UInt8}
    {data : ℕ → UInt8} (hif1 : r.if1 = c.if1) (h : canSend r id dlc data = .ok (true, r')) :
    c.sendMbox id dlc data
      = .ok { c with if1 := r'.if1, if1Cmd := r'.if1Cmd, if1No := r'.if1No, busy := true } := by
  by_cases hbusy : r.Busy
  · rw [canSend_busy hbusy] at h
    simp at h
  · by_cases hdlc : dlc.toNat ≤ 8
    · rw [canSend_free hbusy hdlc] at h
      obtain ⟨-, rfl⟩ := Prod.mk.inj (Except.ok.inj h)
      rw [sendMbox_ok c hdlc, hif1]
    · rw [canSend_error hbusy (by omega)] at h
      cases h

/-- The transfer of a read does what `canMboxHasData` says, except that it clears the interrupt
bit as well. -/
theorem transfer_canMboxHasData {mbox : ℕ} (hbusy : c.busy = true) (hcmd : c.if1Cmd = readCmd)
    (hno : c.if1No.toNat = mbox) (hmbox : mbox ≤ canMboxLast) :
    let after := canMboxHasData c.dcan mbox
    (c.transfer.if1.NewDat ↔ after.1 = true) ∧ c.transfer.if1 = after.2.if1 ∧
      ∀ i, (c.transfer.dcan.mailbox i).arb = (after.2.mailbox i).arb ∧
        (c.transfer.dcan.mailbox i).datx = (after.2.mailbox i).datx ∧
        (c.transfer.dcan.mailbox i).mctl &&& ~~~ifmctlIntpnd
          = (after.2.mailbox i).mctl &&& ~~~ifmctlIntpnd := by
  intro after
  have hafter : after = (decide (c.ram mbox).reg.NewDat, ⟨Function.update c.dcan.mailbox mbox
      (c.ram mbox).reg.read, (c.ram mbox).reg⟩) := if_neg (not_lt.mpr hmbox)
  rw [transfer_read hbusy hcmd, hno, hafter]
  refine ⟨by simp, rfl, ?_⟩
  intro i
  by_cases hi : i = mbox
  · subst hi
    simp only [dcan, Function.update_self]
    refine ⟨rfl, rfl, ?_⟩
    have hfetched : (c.fetched (c.ram i)).reg.mctl
        = (c.ram i).reg.mctl &&& ~~~(ifmctlIntpnd ||| ifmctlNewdat) := fetched_mctl hcmd
    rw [hfetched]
    show _ = (c.ram i).reg.mctl &&& ~~~ifmctlNewdat &&& ~~~ifmctlIntpnd
    rw [UInt32.and_assoc, UInt32.and_assoc]
    exact congrArg ((c.ram i).reg.mctl &&& ·) (by decide)
  · simp only [dcan, Function.update_of_ne hi]
    exact ⟨trivial, trivial, trivial⟩

end CanBase

end Cannelloni
