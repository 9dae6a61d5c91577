import Cannelloni.CanReceive
import Cannelloni.CanTransmit
import Cannelloni.Encoder

/-!
# One turn of the main loop (`run_cannelloni`)

A turn offers frames to the bus, reads the mailboxes and sends datagrams. What the outside
world does during the turn is collected in `RunEnv`; `runCannelloni_ok` says what the turn
does to both queues and which slots it writes.
-/

namespace Cannelloni

/-! ## The code -/

/-- The answers of the outside world during one turn. -/
structure RunEnv where
  /-- the return values of `can_tx_fn` -/
  answers : List Bool
  /-- what the controller does before each mailbox access -/
  hw : ℕ → Dcan → Dcan
  /-- the outcomes of `pbuf_alloc` -/
  pbufs : List (Option (ℕ → UInt8))
  /-- what memory holds behind the data array of a slot -/
  spill : Slot → ℕ → UInt8

/-- `receive_can_frames`, with `on_can_receive` as `can_rx_fn`. -/
def receiveCanFrames (hw : ℕ → Dcan → Dcan) (c : Dcan) (n : Node) : Except Fault Scan :=
  if n.handle.init.canRxFn then onCanReceive hw c n
  else .ok ⟨c, n, canRxQueueFirstMbox, []⟩

/-- `while (transmit_udp_frame(handle));`. Outcomes of `pbuf_alloc` that are used up are
failures. -/
def transmitUdpLoop (spill : Slot → ℕ → UInt8) :
    List (Option (ℕ → UInt8)) → Node → Node × List Datagram
  | [], n =>
    let o := transmitUdpFrame spill none n
    (o.node, o.sent.toList)
  | pbuf :: pbufs, n =>
    let o := transmitUdpFrame spill pbuf n
    if o.more then
      let (n, sent) := transmitUdpLoop spill pbufs o.node
      (n, o.sent.toList ++ sent)
    else (o.node, o.sent.toList)

/-- What a turn leaves behind, and (ghost) the frames offered to the bus with their answers,
the frames read from the mailboxes, and the datagrams sent. -/
structure Ran where
  node : Node
  dcan : Dcan
  offers : List (CanfdFrame × Bool)
  received : List CanfdFrame
  sent : List Datagram

/-- `run_cannelloni`. -/
def runCannelloni (env : RunEnv) (c : Dcan) (n : Node) : Except Fault Ran := do
  let (n, offers) := transmitCanFrames env.answers n
  let scan ← receiveCanFrames env.hw c n
  let (n, sent) := transmitUdpLoop env.spill env.pbufs scan.node
  return ⟨n, scan.dcan, offers, scan.stored, sent⟩

/-! ## Sending datagrams -/

/-- Sending `sent` takes the frames it carries from the front of `rx_queue` and leaves
everything but that queue and the sequence number alone. -/
structure Drains (n n' : Node) (sent : List Datagram) (fs : List CanfdFrame) : Prop where
  taken : Taken n.mem n.handle.rxQueue fs n'.handle.rxQueue
  carried_eq : sent.flatMap Datagram.carried = fs.map CanfdFrame.view
  mem_eq : n'.mem = n.mem
  handle_eq : n'.handle = { n.handle with
    rxQueue := n'.handle.rxQueue
    sequenceNumber := n'.handle.sequenceNumber }

theorem Drains.refl {n : Node} (hv : n.handle.Valid) : Drains n n [] [] where
  taken := Taken.refl hv.rx
  carried_eq := rfl
  mem_eq := rfl
  handle_eq := rfl

theorem Drains.valid {n n' : Node} {sent : List Datagram} {fs : List CanfdFrame}
    (hv : n.handle.Valid) (h : Drains n n' sent fs) : n'.handle.Valid := by
  rw [h.handle_eq]
  exact hv.of_rxQueue rfl rfl h.taken.valid h.taken.frames_eq h.taken.count_eq

theorem Drains.rxFrames_eq {n n' : Node} {sent : List Datagram} {fs : List CanfdFrame}
    (h : Drains n n' sent fs) : n.rxFrames = fs ++ n'.rxFrames := by
  have := h.taken.contents_eq
  unfold Node.rxFrames
  rw [h.mem_eq]
  exact this

theorem Drains.txFrames_eq {n n' : Node} {sent : List Datagram} {fs : List CanfdFrame}
    (h : Drains n n' sent fs) : n'.txFrames = n.txFrames := by
  unfold Node.txFrames
  rw [h.mem_eq, h.handle_eq]

theorem Drains.trans {n n₁ n₂ : Node} {sent₁ sent₂ : List Datagram} {fs₁ fs₂ : List CanfdFrame}
    (h₁ : Drains n n₁ sent₁ fs₁) (h₂ : Drains n₁ n₂ sent₂ fs₂) :
    Drains n n₂ (sent₁ ++ sent₂) (fs₁ ++ fs₂) where
  taken := by
    have := h₂.taken
    rw [h₁.mem_eq] at this
    exact h₁.taken.trans this
  carried_eq := by
    rw [List.flatMap_append, h₁.carried_eq, h₂.carried_eq, List.map_append]
  mem_eq := h₂.mem_eq.trans h₁.mem_eq
  handle_eq := by
    rw [h₂.handle_eq, h₁.handle_eq]

/-- One call, whatever `pbuf_alloc` answers. -/
theorem transmitUdpFrame_drains (spill : Slot → ℕ → UInt8) (pbuf : Option (ℕ → UInt8)) {n : Node}
    (hv : n.handle.Valid) (hle : ∀ f ∈ n.rxFrames, canfdLen f ≤ cnlCanfdMaxDlen) :
    ∃ fs, Drains n (transmitUdpFrame spill pbuf n).node
      (transmitUdpFrame spill pbuf n).sent.toList fs := by
  by_cases he : n.handle.rxQueue.Empty
  · rw [transmitUdpFrame_of_empty spill pbuf he]
    exact ⟨[], Drains.refl hv⟩
  cases pbuf with
  | none =>
    rw [transmitUdpFrame_of_alloc_failed]
    exact ⟨[], Drains.refl hv⟩
  | some payload =>
    have hsends := transmitUdpFrame_sent spill hv he payload
    have hle' : ∀ f ∈ packed n.rxFrames, canfdLen f ≤ cnlCanfdMaxDlen :=
      fun f hf => hle f (List.mem_of_mem_take hf)
    refine ⟨packed n.rxFrames, hsends.taken, ?_, hsends.mem_eq, ?_⟩
    · rw [hsends.sent_eq hle', Option.toList_some, List.flatMap_singleton]
      exact carried_datagramOf hle' _ _
    · rw [hsends.handle_eq]

/-- The loop of calls. -/
theorem transmitUdpLoop_drains (spill : Slot → ℕ → UInt8) (pbufs : List (Option (ℕ → UInt8)))
    {n : Node} (hv : n.handle.Valid) (hle : ∀ f ∈ n.rxFrames, canfdLen f ≤ cnlCanfdMaxDlen) :
    ∃ fs, Drains n (transmitUdpLoop spill pbufs n).1 (transmitUdpLoop spill pbufs n).2 fs := by
  induction pbufs generalizing n with
  | nil => exact transmitUdpFrame_drains spill none hv hle
  | cons pbuf pbufs ih =>
    obtain ⟨fs, hfs⟩ := transmitUdpFrame_drains spill pbuf hv hle
    unfold transmitUdpLoop
    simp only
    split
    · have hle' : ∀ f ∈ (transmitUdpFrame spill pbuf n).node.rxFrames,
          canfdLen f ≤ cnlCanfdMaxDlen := by
        intro f hf
        apply hle
        rw [hfs.rxFrames_eq]
        exact List.mem_append_right _ hf
      obtain ⟨gs, hgs⟩ := ih (hfs.valid hv) hle'
      exact ⟨fs ++ gs, hfs.trans hgs⟩
    · exact ⟨fs, hfs⟩

/-! ## The whole turn -/

/-- The messages a turn stores, when each fits a slot. -/
def turnMessages (env : RunEnv) (c : Dcan) (h : Handle) : List If1 :=
  if h.init.canRxFn then (foundMessages env.hw c).take h.rxQueue.free else []

/-- What a turn does to the queues and to memory. -/
structure Turn (n : Node) (ms : List If1) (o : Ran) (fs : List CanfdFrame) : Prop where
  valid : o.node.handle.Valid
  init_eq : o.node.handle.init = n.handle.init
  tx_taken : Taken n.mem n.handle.txQueue (Run.delivered o.offers) o.node.handle.txQueue
  inOrder : Run.InOrder o.offers n.txFrames
  received_eq : o.received = fillSlots If1.frame n.mem n.handle.rxQueue ms
  rx_eq : n.rxFrames ++ o.received = fs ++ o.node.rxFrames
  carried_eq : o.sent.flatMap Datagram.carried = fs.map CanfdFrame.view
  writes : WritesFree n.handle.rxQueue ms.length n.mem o.node.mem

theorem receiveCanFrames_ok {env : RunEnv} {c : Dcan} {n : Node} (hv : n.handle.rxQueue.Valid)
    (hfit : ∀ m ∈ turnMessages env c n.handle, m.Fits) :
    ∃ s, receiveCanFrames env.hw c n = .ok s ∧
      Reads ⟨c, n, canRxQueueFirstMbox, []⟩ (turnMessages env c n.handle) s := by
  unfold receiveCanFrames turnMessages at *
  split
  · next hfn =>
    rw [if_pos hfn] at hfit
    exact onCanReceive_ok hv hfit
  · exact ⟨_, rfl, Reads.refl hv rfl rfl⟩

/-- A turn with queued frames and messages that fit the data array. -/
theorem runCannelloni_ok {env : RunEnv} {c : Dcan} {n : Node} (hv : n.handle.Valid)
    (hle : ∀ f ∈ n.rxFrames, canfdLen f ≤ cnlCanfdMaxDlen)
    (hfit : ∀ m ∈ turnMessages env c n.handle, m.Fits) :
    ∃ o fs, runCannelloni env c n = .ok o ∧ Turn n (turnMessages env c n.handle) o fs := by
  -- offering frames to the bus
  have hoffers := transmitCanFrames_spec env.answers hv.tx
  set n₁ := (transmitCanFrames env.answers n).1
  set offers := (transmitCanFrames env.answers n).2
  have hv₁ := hoffers.valid hv
  have hrx₁ : n₁.handle.rxQueue = n.handle.rxQueue := by rw [hoffers.handle_eq]
  have hms : turnMessages env c n₁.handle = turnMessages env c n.handle := by
    unfold turnMessages
    rw [hoffers.handle_eq]
  -- reading the mailboxes
  rw [← hms] at hfit ⊢
  obtain ⟨scan, hscan, hreads⟩ := receiveCanFrames_ok hv₁.rx hfit
  have hv₂ := hreads.valid hv₁
  have hstored : scan.stored = fillSlots If1.frame n₁.mem n₁.handle.rxQueue
      (turnMessages env c n₁.handle) := hreads.stored_eq
  have hrx₂ : scan.node.rxFrames = n.rxFrames ++ scan.stored := by
    have := hreads.appended.contents_eq
    rw [← hoffers.rxFrames_eq, hstored]
    exact this
  have hle₂ : ∀ f ∈ scan.node.rxFrames, canfdLen f ≤ cnlCanfdMaxDlen := by
    intro f hf
    rw [hrx₂] at hf
    rcases List.mem_append.mp hf with hf | hf
    · exact hle f hf
    · rw [hstored] at hf
      exact forall_canfdLen_le_of_fits hfit _ _ f hf
  -- sending datagrams
  obtain ⟨fs, hdrains⟩ := transmitUdpLoop_drains env.spill env.pbufs hv₂ hle₂
  set n₃ := (transmitUdpLoop env.spill env.pbufs scan.node).1
  set sent := (transmitUdpLoop env.spill env.pbufs scan.node).2
  refine ⟨⟨n₃, scan.dcan, offers, scan.stored, sent⟩, fs, ?_, hdrains.valid hv₂, ?_, ?_,
    hoffers.inOrder, ?_, ?_, hdrains.carried_eq, ?_⟩
  · have hunfold : runCannelloni env c n = receiveCanFrames env.hw c n₁ >>= fun scan =>
        pure ⟨(transmitUdpLoop env.spill env.pbufs scan.node).1, scan.dcan, offers, scan.stored,
          (transmitUdpLoop env.spill env.pbufs scan.node).2⟩ := rfl
    rw [hunfold, hscan]
    rfl
  · rw [hdrains.handle_eq, hreads.handle_eq, hoffers.handle_eq]
  · have htx : n₃.handle.txQueue = n₁.handle.txQueue := by
      rw [hdrains.handle_eq, hreads.handle_eq]
    rw [htx]
    exact hoffers.taken
  · rw [← hoffers.mem_eq, ← hrx₁]
    exact hstored
  · rw [← hrx₂]
    exact hdrains.rxFrames_eq
  · have hw := hreads.appended.writes
    simp only [length_fillSlots] at hw
    rw [hdrains.mem_eq, ← hoffers.mem_eq, ← hrx₁]
    exact hw

end Cannelloni
