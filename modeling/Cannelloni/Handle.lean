import Cannelloni.Queue

/-!
# Gateway handles and received packets

`cannelloni_handle_t` with the part of `Init` its functions read, `init_cannelloni`, and the
packet buffers lwIP hands to the receive callback. The protocol control block that
`udp_new`, `udp_bind` and `udp_recv` set up belongs to the network stack and is left out.
-/

namespace Cannelloni

/-! ## Handles -/

/-- The `Init` part of a handle. The two arrays are different ones and have at least one
slot, as whoever fills this structure has to see to. -/
structure Init where
  port : UInt16
  remotePort : UInt16
  canBufSize : UInt8
  canTxBuf : Buf
  canRxBuf : Buf
  /-- `can_tx_fn` is not `NULL`. -/
  canTxFn : Bool
  /-- `can_rx_fn` is not `NULL`. -/
  canRxFn : Bool
  bufSize_pos : 0 < canBufSize.toNat
  bufs_ne : canTxBuf ≠ canRxBuf

/-- `cannelloni_handle_t`. -/
structure Handle where
  init : Init
  txQueue : FramesQueue
  rxQueue : FramesQueue
  sequenceNumber : UInt32
  udpRxCount : UInt32

/-- `init_cannelloni`. -/
def initCannelloni (init : Init) : Handle where
  init := init
  txQueue := queueInit init.canTxBuf init.canBufSize.toNat
  rxQueue := queueInit init.canRxBuf init.canBufSize.toNat
  sequenceNumber := 0
  udpRxCount := 0

/-- `CNL_BUF_SIZE`. -/
def cnlBufSize : UInt8 := 128

/-- `CAN_IFACES`. -/
abbrev canIfaces : ℕ := 4

/-- The `Init` part that `main` gives to interface `i`. The array pointers are written
`can_interfaces->tx_buf` and `can_interfaces->rx_buf`, which are the arrays of interface 0
whatever `i` is. -/
def mainInit (nodeId : UInt8) (i : ℕ) : Init where
  port := 20000 + nodeId.toUInt16 * 10 + UInt16.ofNat i
  remotePort := 20000 + nodeId.toUInt16 * 10 + UInt16.ofNat i
  canBufSize := cnlBufSize
  canTxBuf := .txBuf 0
  canRxBuf := .rxBuf 0
  canTxFn := true
  canRxFn := true
  bufSize_pos := by decide
  bufs_ne := by decide

/-- The queues are in order and still live in the arrays `init_cannelloni` gave them. -/
structure Handle.Valid (h : Handle) : Prop where
  tx : h.txQueue.Valid
  rx : h.rxQueue.Valid
  tx_frames : h.txQueue.frames = h.init.canTxBuf
  rx_frames : h.rxQueue.frames = h.init.canRxBuf
  tx_count : h.txQueue.count = h.init.canBufSize.toNat
  rx_count : h.rxQueue.count = h.init.canBufSize.toNat

theorem initCannelloni_valid (init : Init) : (initCannelloni init).Valid where
  tx := queueInit_valid _ init.bufSize_pos
  rx := queueInit_valid _ init.bufSize_pos
  tx_frames := rfl
  rx_frames := rfl
  tx_count := rfl
  rx_count := rfl

/-- A handle stays in order when only its `tx_queue` moves on. -/
theorem Handle.Valid.of_txQueue {h h' : Handle} (hv : h.Valid) (hinit : h'.init = h.init)
    (hrx : h'.rxQueue = h.rxQueue) (htx : h'.txQueue.Valid)
    (hframes : h'.txQueue.frames = h.txQueue.frames)
    (hcount : h'.txQueue.count = h.txQueue.count) : h'.Valid := by
  refine ⟨htx, ?_, ?_, ?_, ?_, ?_⟩
  · rw [hrx]; exact hv.rx
  · rw [hframes, hinit]; exact hv.tx_frames
  · rw [hrx, hinit]; exact hv.rx_frames
  · rw [hcount, hinit]; exact hv.tx_count
  · rw [hrx, hinit]; exact hv.rx_count

/-- A handle stays in order when only its `rx_queue` moves on. -/
theorem Handle.Valid.of_rxQueue {h h' : Handle} (hv : h.Valid) (hinit : h'.init = h.init)
    (htx : h'.txQueue = h.txQueue) (hrx : h'.rxQueue.Valid)
    (hframes : h'.rxQueue.frames = h.rxQueue.frames)
    (hcount : h'.rxQueue.count = h.rxQueue.count) : h'.Valid := by
  refine ⟨?_, hrx, ?_, ?_, ?_, ?_⟩
  · rw [htx]; exact hv.tx
  · rw [htx, hinit]; exact hv.tx_frames
  · rw [hframes, hinit]; exact hv.rx_frames
  · rw [htx, hinit]; exact hv.tx_count
  · rw [hcount, hinit]; exact hv.rx_count

theorem Handle.Valid.frames_ne {h : Handle} (hv : h.Valid) :
    h.txQueue.frames ≠ h.rxQueue.frames := by
  rw [hv.tx_frames, hv.rx_frames]
  exact h.init.bufs_ne

/-- A handle together with the memory its queues point into. -/
structure Node where
  mem : Memory
  handle : Handle

/-- The frames waiting for the CAN bus. -/
def Node.txFrames (n : Node) : List CanfdFrame := n.handle.txQueue.contents n.mem

/-- The frames waiting for a datagram. -/
def Node.rxFrames (n : Node) : List CanfdFrame := n.handle.rxQueue.contents n.mem

/-- A node of interface 0 whose `rx_queue` holds `k` copies of a frame. -/
def Node.backlog (k : ℕ) (f : CanfdFrame) : Node :=
  ⟨fun _ => f, { initCannelloni (mainInit 0 0) with
    rxQueue := { queueInit (.rxBuf 0) cnlBufSize.toNat with tail := k } }⟩

theorem Node.backlog_valid {k : ℕ} (h : k < cnlBufSize.toNat) (f : CanfdFrame) :
    (backlog k f).handle.Valid where
  tx := (initCannelloni_valid (mainInit 0 0)).tx
  rx := ⟨show 0 < cnlBufSize.toNat by decide, h⟩
  tx_frames := rfl
  rx_frames := rfl
  tx_count := rfl
  rx_count := rfl

theorem Node.rxFrames_backlog (k : ℕ) (f : CanfdFrame) :
    (backlog k f).rxFrames = List.replicate k f := by
  have hcontents : (backlog k f).rxFrames = (List.range k).map fun _ => f := rfl
  rw [hcontents, List.map_const', List.length_range]

theorem Node.not_empty_backlog {k : ℕ} (h : 0 < k) (f : CanfdFrame) :
    ¬ (backlog k f).handle.rxQueue.Empty := by
  intro he
  have hzero : 0 = k := he
  omega

/-! ## Received packets -/

/-- The longest payload a UDP datagram can have: the 16-bit length field counts the 8 bytes
of the UDP header, too. -/
@[simp] def maxUdpPayload : ℕ := 65527

/-- A `struct pbuf`: the `len` bytes of its payload and whatever memory holds behind them. -/
structure Pbuf where
  bytes : List UInt8
  spare : ℕ → UInt8

/-- A chain of packet buffers that carries one datagram. -/
structure PbufChain where
  head : Pbuf
  rest : List Pbuf
  fits : (head.bytes ++ rest.flatMap Pbuf.bytes).length ≤ maxUdpPayload

namespace PbufChain

/-- The datagram the chain carries. -/
def datagram (p : PbufChain) : List UInt8 := p.head.bytes ++ p.rest.flatMap Pbuf.bytes

/-- `p->tot_len`. -/
def totLen (p : PbufChain) : ℕ := p.datagram.length

/-- `((uint8_t *)p->payload)[i]`: memory from the payload of the first buffer on. -/
def payload (p : PbufChain) : ℕ → UInt8 := Bytes.ofList p.head.bytes p.head.spare

/-- A datagram in one buffer. -/
def contiguous (d : List UInt8) (spare : ℕ → UInt8) (h : d.length ≤ maxUdpPayload) :
    PbufChain where
  head := ⟨d, spare⟩
  rest := []
  fits := by simpa using h

/-- The data packet with one record of an 11-bit identifier below 256 and one data byte. -/
def single (id byte : UInt8) : PbufChain :=
  contiguous [2, 0, 0, 0, 1, 0, 0, 0, id, 1, byte] (fun _ => 0) (by simp)

theorem totLen_le (p : PbufChain) : p.totLen ≤ maxUdpPayload := p.fits

@[simp] theorem contiguous_datagram (d : List UInt8) (spare : ℕ → UInt8)
    (h : d.length ≤ maxUdpPayload) : (contiguous d spare h).datagram = d := by
  simp [contiguous, datagram]

@[simp] theorem contiguous_totLen (d : List UInt8) (spare : ℕ → UInt8)
    (h : d.length ≤ maxUdpPayload) : (contiguous d spare h).totLen = d.length := by
  simp [totLen]

@[simp] theorem contiguous_payload (d : List UInt8) (spare : ℕ → UInt8)
    (h : d.length ≤ maxUdpPayload) :
    (contiguous d spare h).payload = Bytes.ofList d spare := rfl

end PbufChain

end Cannelloni
