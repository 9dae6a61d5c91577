import Cannelloni.Lib.Run
import Cannelloni.CanReceive
import Cannelloni.Encoder

/-!
# From the bus to the network: nothing is lost

One handle whose `rx_queue` is filled through `get_can_rx_frame` and emptied through
`transmit_udp_frame`, in any order and with any pattern of `pbuf_alloc` failures. The frames
in the datagrams sent, followed by those still queued, are the frames put.
-/

namespace Cannelloni

/-! ## The system -/

/-- A handle, and (ghost) the frames put and the datagrams sent so far. -/
structure RxSystem where
  node : Node
  put : List CanfdFrame
  sent : List Datagram

inductive RxEvent
  /-- `get_can_rx_frame`; when it returns a slot, the caller fills it with `frame`. -/
  | getCanRxFrame (frame : CanfdFrame)
  /-- `transmit_udp_frame`, with the outcome of its `pbuf_alloc`. -/
  | transmitUdpFrame (spill : Slot → ℕ → UInt8) (pbuf : Option (ℕ → UInt8))

/-- The state after `init_cannelloni`. -/
def RxSystem.start (mem : Memory) (init : Init) : RxSystem := ⟨⟨mem, initCannelloni init⟩, [], []⟩

def RxSystem.step (s : RxSystem) : RxEvent → Except Fault RxSystem
  | .getCanRxFrame frame =>
    match Cannelloni.getCanRxFrame s.node.handle with
    | (none, _) => .ok s
    | (some slot, handle) =>
      .ok { s with
        node := ⟨Function.update s.node.mem slot frame, handle⟩
        put := s.put ++ [frame] }
  | .transmitUdpFrame spill pbuf =>
    let o := Cannelloni.transmitUdpFrame spill pbuf s.node
    .ok { s with node := o.node, sent := s.sent ++ o.sent.toList }

/-- The caller of `get_can_rx_frame` fills in a frame whose length fits the data array. -/
def RxEvent.Bounded : RxEvent → Prop
  | .getCanRxFrame frame => canfdLen frame ≤ cnlCanfdMaxDlen
  | .transmitUdpFrame _ _ => True

instance RxEvent.decidableBounded (e : RxEvent) : Decidable e.Bounded :=
  match e with
  | .getCanRxFrame _ => inferInstanceAs (Decidable (_ ≤ _))
  | .transmitUdpFrame _ _ => inferInstanceAs (Decidable True)

/-- The `k`-th datagram is a well-formed data packet with the `k`-th sequence number. -/
structure PacketOk (k : ℕ) (d : Datagram) : Prop where
  version : d.payload[0]? = some cannelloniFrameVersion
  opCode : d.payload[1]? = some OpCodes.cnlData.toUInt8
  seqNo : ∃ b, d.payload[2]? = some b ∧ b.toNat = k % 256
  count : ∃ a b, d.payload[3]? = some a ∧ d.payload[4]? = some b ∧
    Bytes.ofBe16 a b = d.carried.length
  length_eq : d.payload.length = cannelloniDataPacketBaseSize
    + (d.carried.map fun f => cannelloniFrameBaseSize + dlcOf f.2.1).sum
  length_lt : d.payload.length < txPbufLen

theorem packetOk_datagramOf {fs : List CanfdFrame}
    (hle : ∀ f ∈ fs, canfdLen f ≤ cnlCanfdMaxDlen)
    (hsize : cannelloniDataPacketBaseSize + packSize fs < txPbufLen) (port : UInt16) (k : ℕ) :
    PacketOk k ⟨port, datagramOf (UInt32.ofNat k).toUInt8 fs⟩ := by
  have hcarried := carried_datagramOf hle port (UInt32.ofNat k).toUInt8
  have hlen := length_datagramOf hle (UInt32.ofNat k).toUInt8
  refine ⟨rfl, rfl, ⟨_, rfl, ?_⟩, ⟨_, _, rfl, rfl, ?_⟩, ?_, ?_⟩
  · rw [UInt32.toNat_toUInt8, UInt32.toNat_ofNat']
    omega
  · have := length_le_packSize fs
    simp only [txPbufLen] at hsize
    rw [hcarried, List.length_map]
    exact Bytes.ofBe16_bytes (by omega)
  · rw [hcarried, hlen, List.map_map]
    rfl
  · rw [hlen]
    exact hsize

/-! ## The invariant -/

structure RxSystem.Inv (s : RxSystem) : Prop where
  valid : s.node.handle.Valid
  bounded : ∀ f ∈ s.node.rxFrames, canfdLen f ≤ cnlCanfdMaxDlen
  conserved : s.sent.flatMap Datagram.carried ++ s.node.rxFrames.map CanfdFrame.view
    = s.put.map CanfdFrame.view
  packets : ∀ k d, s.sent[k]? = some d → PacketOk k d
  seq_eq : s.node.handle.sequenceNumber = UInt32.ofNat s.sent.length

theorem RxSystem.inv_start (mem : Memory) (init : Init) : (RxSystem.start mem init).Inv where
  valid := initCannelloni_valid init
  bounded := by simp [start, Node.rxFrames, initCannelloni]
  conserved := by simp [start, Node.rxFrames, initCannelloni]
  packets := by simp [start]
  seq_eq := rfl

theorem RxSystem.inv_put {s : RxSystem} (h : s.Inv) {f : CanfdFrame}
    (hle : canfdLen f ≤ cnlCanfdMaxDlen) : ∃ s', s.step (.getCanRxFrame f) = .ok s' ∧ s'.Inv := by
  by_cases hf : s.node.handle.rxQueue.Full
  · -- no slot, and nothing changes
    refine ⟨s, ?_, h⟩
    simp only [step, Cannelloni.getCanRxFrame, queuePut_of_full hf]
  · set n' : Node := ⟨Function.update s.node.mem
        ⟨s.node.handle.rxQueue.frames, s.node.handle.rxQueue.tail⟩ f,
      { s.node.handle with rxQueue := s.node.handle.rxQueue.push }⟩
    have hframes : n'.rxFrames = s.node.rxFrames ++ [f] := contents_push h.valid.rx hf f
    refine ⟨⟨n', s.put ++ [f], s.sent⟩, ?_, ?_, ?_, ?_, h.packets, h.seq_eq⟩
    · simp only [step, Cannelloni.getCanRxFrame, queuePut_of_not_full hf]
      rfl
    · exact h.valid.of_rxQueue rfl rfl h.valid.rx.push rfl rfl
    · intro g hg
      simp only [hframes] at hg
      rcases List.mem_append.mp hg with hg | hg
      · exact h.bounded g hg
      · rw [List.mem_singleton.mp hg]
        exact hle
    · simp only [hframes]
      rw [List.map_append, ← List.append_assoc, h.conserved, List.map_append]

theorem RxSystem.inv_transmit {s : RxSystem} (h : s.Inv) (spill : Slot → ℕ → UInt8)
    (pbuf : Option (ℕ → UInt8)) :
    ∃ s', s.step (.transmitUdpFrame spill pbuf) = .ok s' ∧ s'.Inv := by
  by_cases he : s.node.handle.rxQueue.Empty
  · refine ⟨s, ?_, h⟩
    simp [step, transmitUdpFrame_of_empty spill pbuf he]
  cases pbuf with
  | none =>
    refine ⟨s, ?_, h⟩
    simp [step, transmitUdpFrame_of_alloc_failed]
  | some payload =>
    have hsends := transmitUdpFrame_sent spill h.valid he payload
    set o := Cannelloni.transmitUdpFrame spill (some payload) s.node
    have hsplit := hsends.rxFrames_eq
    have hle : ∀ f ∈ packed s.node.rxFrames, canfdLen f ≤ cnlCanfdMaxDlen :=
      fun f hf => h.bounded f (List.mem_of_mem_take hf)
    have hsent := hsends.sent_eq hle
    rw [h.seq_eq] at hsent
    set d : Datagram := ⟨s.node.handle.init.remotePort,
      datagramOf (UInt32.ofNat s.sent.length).toUInt8 (packed s.node.rxFrames)⟩
    have hcarried : d.carried = (packed s.node.rxFrames).map CanfdFrame.view :=
      carried_datagramOf hle _ _
    refine ⟨⟨o.node, s.put, s.sent ++ [d]⟩, ?_, hsends.valid h.valid, ?_, ?_, ?_, ?_⟩
    · show Except.ok _ = _
      rw [hsent]
      rfl
    · intro f hf
      apply h.bounded
      rw [hsplit]
      exact List.mem_append_right _ hf
    · have hcons := h.conserved
      rw [hsplit, List.map_append, ← hcarried] at hcons
      rw [List.flatMap_append, List.flatMap_singleton, List.append_assoc]
      exact hcons
    · intro k e hk
      -- an earlier datagram, the new one, or none
      rcases Nat.lt_trichotomy k s.sent.length with hlt | heq | hgt
      · rw [List.getElem?_append_left hlt] at hk
        exact h.packets k e hk
      · subst heq
        obtain rfl : d = e := by simpa using hk
        exact packetOk_datagramOf hle (packSize_take_packCount (by simp) _) _ _
      · rw [List.getElem?_eq_none (by simp; omega)] at hk
        simp at hk
    · rw [hsends.handle_eq, List.length_append, List.length_singleton]
      simp only [h.seq_eq, UInt32.ofNat_add]
      rfl

/-! ## Whole runs -/

/-- For every sequence of puts and transmissions: the frames carried by the datagrams sent,
followed by the frames still queued, are the frames put; the `k`-th datagram is a well-formed
packet with the `k`-th sequence number; and a transmission that gets no buffer changes
nothing. -/
theorem rx_conservation (mem : Memory) (init : Init) (events : List RxEvent)
    (hbounded : ∀ e ∈ events, e.Bounded) :
    ∃ s, Run.exec RxSystem.step (RxSystem.start mem init) events = .ok s ∧
      s.sent.flatMap Datagram.carried ++ s.node.rxFrames.map CanfdFrame.view
        = s.put.map CanfdFrame.view ∧
      (∀ k d, s.sent[k]? = some d → PacketOk k d) ∧
      ∀ spill, s.step (.transmitUdpFrame spill none) = .ok s := by
  have hstep : ∀ (s : RxSystem) (e : RxEvent), s.Inv → e.Bounded →
      ∃ s', s.step e = .ok s' ∧ s'.Inv := by
    intro s e hinv he
    cases e with
    | getCanRxFrame f => exact s.inv_put hinv he
    | transmitUdpFrame spill pbuf => exact s.inv_transmit hinv spill pbuf
  obtain ⟨s, hs, hinv⟩ := Run.exec_of_along hstep (RxSystem.inv_start mem init)
    (Run.along_of_forall hbounded _)
  refine ⟨s, hs, hinv.conserved, hinv.packets, ?_⟩
  intro spill
  simp [RxSystem.step, transmitUdpFrame_of_alloc_failed]

/-- Two frames are put; a transmission without a buffer keeps them, and one with a buffer sends
them. A third one is put behind them. -/
theorem rx_conservation_retry :
    let events := [.getCanRxFrame ⟨5, 2, 0, Vector.replicate _ 7⟩,
      .getCanRxFrame ⟨6, 1, 0, Vector.replicate _ 8⟩, .transmitUdpFrame (fun _ _ => 0) none,
      .transmitUdpFrame (fun _ _ => 0) (some fun _ => 0),
      .getCanRxFrame ⟨9, 3, 0, Vector.replicate _ 1⟩]
    ∃ s, Run.exec RxSystem.step (RxSystem.start zeroMemory (mainInit 0 0)) events = .ok s ∧
      s.sent.length = 1 ∧
      s.sent.flatMap Datagram.carried ++ s.node.rxFrames.map CanfdFrame.view
        = [(5, 2, [7, 7]), (6, 1, [8]), (9, 3, [1, 1, 1])] := by
  intro events
  obtain ⟨s, hs, hconserved, -⟩ := rx_conservation zeroMemory (mainInit 0 0) events (by decide)
  have hends : (Run.exec RxSystem.step (RxSystem.start zeroMemory (mainInit 0 0))
      events).toOption.map (fun s => (s.sent.length, s.put.map CanfdFrame.view))
      = some (1, [(5, 2, [7, 7]), (6, 1, [8]), (9, 3, [1, 1, 1])]) := by
    decide +kernel
  rw [hs] at hends
  obtain ⟨hone, hput⟩ := Prod.mk.inj (Option.some.inj hends)
  exact ⟨s, hs, hone, hconserved.trans hput⟩

end Cannelloni
