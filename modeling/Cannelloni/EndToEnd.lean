import Cannelloni.Lib.Channel
import Cannelloni.Gateway
import Cannelloni.ArrivalOrder
import Cannelloni.Runner
import Mathlib.Data.List.Flatten

/-!
# From bus to host and back

One interface of the gateway, the tunnel of the bridge that belongs to it, and the network
between them, which may lose datagrams. The gateway runs its main loop and is interrupted
between turns by datagrams, the bridge forwards what waits at its two sockets, in any order.

`frames_in_order` is about every such run: the frames on the host's side are the messages read
from the mailboxes, and the frames taken by the bus driver are those the host sent, in order and
without repetition, with nothing left out unless a datagram was lost or found its queue full. It
needs every datagram to fit the bridge's buffer, which `fitting_of_allocated` gives for every run
in which the gateway gets its packet buffers.
-/

namespace Cannelloni

/-! ## The system -/

/-- A datagram of the bridge, and (ghost) the frame it was made of. -/
structure HostDatagram where
  bytes : List UInt8
  frame : CanFrame

/-- The gateway's handle and controller, the network in both directions, and (ghost) what went
in and out at either end. `dropped` counts the datagrams that found `tx_queue` full. -/
structure EndToEnd where
  node : Node
  dcan : Dcan
  toBridge : Channel Datagram
  toGateway : Channel HostDatagram
  messages : List If1
  offers : List (CanfdFrame × Bool)
  accepted : List CanfdFrame
  fromSocket : List CanFrame
  toSocket : List CanFrame
  dropped : ℕ

inductive EndToEndFault
  | gateway (fault : Fault)
  | bridge (fault : BridgeFault)
deriving DecidableEq

inductive EndToEndEvent
  /-- a turn of the gateway's main loop -/
  | turn (env : RunEnv)
  /-- the gateway's receive interrupt, with what memory holds behind the datagram -/
  | interrupt (spare : ℕ → UInt8)
  /-- the bridge finds a frame at its CAN socket -/
  | fromSocket (f : CanFrame)
  /-- the bridge finds a datagram at its UDP socket -/
  | toSocket (stack : Stack)
  /-- the network loses a datagram -/
  | loseToBridge (i : ℕ)
  | loseToGateway (i : ℕ)

namespace EndToEnd

/-- The state after `init_cannelloni`. -/
def start (mem : Memory) (init : Init) : EndToEnd where
  node := ⟨mem, initCannelloni init⟩
  dcan := .idle
  toBridge := .empty
  toGateway := .empty
  messages := []
  offers := []
  accepted := []
  fromSocket := []
  toSocket := []
  dropped := 0

/-- The receive interrupt with a datagram that arrived. -/
def receive (s : EndToEnd) (d : HostDatagram) (spare : ℕ → UInt8) :
    Except EndToEndFault EndToEnd :=
  if hd : d.bytes.length ≤ maxUdpPayload then
    match handleCannelloniFrame s.node (some (.contiguous d.bytes spare hd)) with
    | .error fault => .error (.gateway fault)
    | .ok o => .ok { s with
        node := o.node
        accepted := s.accepted ++ o.stored
        dropped := if o.stored = [] then s.dropped + 1 else s.dropped }
  else .ok s

def step (o : Bytes.ByteOrder) (s : EndToEnd) : EndToEndEvent → Except EndToEndFault EndToEnd
  | .turn env =>
    match runCannelloni env s.dcan s.node with
    | .error fault => .error (.gateway fault)
    | .ok r => .ok { s with
        node := r.node
        dcan := r.dcan
        toBridge := s.toBridge.send r.sent
        messages := s.messages ++ turnMessages env s.dcan s.node.handle
        offers := s.offers ++ r.offers }
  | .interrupt spare =>
    match h : s.toGateway.inFlight with
    | [] => .ok s
    | d :: rest => receive { s with toGateway := s.toGateway.deliver d rest h } d spare
  | .fromSocket f =>
    match CanEndpoint.read (some f) [] >>= UdpEndpoint.write o with
    | .error fault => .error (.bridge fault)
    | .ok bytes => .ok { s with
        toGateway := s.toGateway.send [⟨bytes, f⟩]
        fromSocket := s.fromSocket ++ [f] }
  | .toSocket stack =>
    match h : s.toBridge.inFlight with
    | [] => .ok s
    | d :: rest =>
      match UdpEndpoint.read stack d.payload [] with
      | .error fault => .error (.bridge fault)
      | .ok r => .ok { s with
          toBridge := s.toBridge.deliver d rest h
          toSocket := s.toSocket ++ r.frames }
  | .loseToBridge i => .ok { s with toBridge := s.toBridge.lose i }
  | .loseToGateway i => .ok { s with toGateway := s.toGateway.lose i }

end EndToEnd

/-- Bytes the record of a message takes in a datagram. -/
def If1.wireSize (m : If1) : ℕ := cannelloniFrameBaseSize + m.len.toNat

/-- In a turn the messages fit a frame, and together with the backlog they fit one datagram that
the bridge has room for. The frames on the host's side have at most eight bytes. -/
def EndToEndEvent.Fitting (s : EndToEnd) : EndToEndEvent → Prop
  | .turn env => (∀ m ∈ turnMessages env s.dcan s.node.handle, m.Fits) ∧
    cannelloniDataPacketBaseSize + packSize s.node.rxFrames
      + ((turnMessages env s.dcan s.node.handle).map If1.wireSize).sum ≤ readBufLen
  | .fromSocket f => f.canDlc.toNat ≤ canMaxDlen
  | _ => True

instance EndToEndEvent.decidableFitting (s : EndToEnd) (e : EndToEndEvent) :
    Decidable (e.Fitting s) :=
  match e with
  | .turn _ => inferInstanceAs (Decidable (_ ∧ _))
  | .fromSocket _ => inferInstanceAs (Decidable (_ ≤ _))
  | .interrupt _ | .toSocket _ | .loseToBridge _ | .loseToGateway _ => .isTrue trivial

/-! ## The messages of a turn are classic data frames -/

theorem If1.not_isRtr_canId (m : If1) : ¬ IsRtr m.canId := by
  have hmask : (m.arb &&& 0x1FFFFFFF) &&& canRtrFlag = 0 := by
    rw [UInt32.and_assoc, show (0x1FFFFFFF : UInt32) &&& canRtrFlag = 0 by decide, UInt32.and_zero]
  unfold IsRtr canId
  rw [not_not]
  split
  · -- a standard identifier is below `2 ^ 11`
    have hlt : ((m.arb &&& 0x1FFFFFFF) >>> 18).toNat < 2 ^ 30 := by
      rw [UInt32.toNat_shiftRight]
      have := Nat.shiftRight_le (m.arb &&& 0x1FFFFFFF).toNat ((18 : UInt32).toNat % 32)
      have hle : (m.arb &&& 0x1FFFFFFF).toNat ≤ 0x1FFFFFFF := by
        rw [UInt32.toNat_and]
        exact Nat.and_le_right
      omega
    rw [← UInt32.toNat_inj, UInt32.toNat_and]
    show _ &&& 2 ^ 30 = 0
    rw [Nat.and_two_pow, Nat.testBit_lt_two_pow hlt]
    rfl
  · rw [Bytes.or_and_distrib, hmask]
    decide

theorem If1.frame_classic {m : If1} (h : m.Fits) (old : CanfdFrame) : (m.frame old).Classic where
  not_rtr := m.not_isRtr_canId
  not_fd := not_isFd_of_le h
  len_le := by
    rw [If1.canfdLen_frame]
    exact h

/-- The bytes the stored frames take are the bytes the messages take. -/
theorem packSize_fillSlots (mem : Memory) (q : FramesQueue) (ms : List If1) :
    packSize (fillSlots If1.frame mem q ms) = (ms.map If1.wireSize).sum := by
  unfold packSize
  refine congrArg List.sum (map_fillSlots If1.frame ?_)
  intro m _ old
  rw [frameSize, If1.canfdLen_frame]
  rfl

/-! ## The datagrams of a turn -/

/-- The datagram was packed from some of the frames `fs` that stand next to each other. -/
def Datagram.PackedFrom (fs : List CanfdFrame) (d : Datagram) : Prop :=
  ∃ seqNo gs, gs <:+: fs ∧ d.payload = datagramOf seqNo gs

theorem Datagram.PackedFrom.mono {fs gs : List CanfdFrame} {d : Datagram} (h : d.PackedFrom gs)
    (hpart : gs <:+: fs) : d.PackedFrom fs := by
  obtain ⟨seqNo, hs, hhs, hd⟩ := h
  exact ⟨seqNo, hs, hhs.trans hpart, hd⟩

theorem transmitUdpFrame_packedFrom (spill : Slot → ℕ → UInt8) (pbuf : Option (ℕ → UInt8))
    {n : Node} (hv : n.handle.Valid) (hle : ∀ f ∈ n.rxFrames, canfdLen f ≤ cnlCanfdMaxDlen) :
    ∀ d ∈ (transmitUdpFrame spill pbuf n).sent.toList, d.PackedFrom n.rxFrames := by
  intro d hd
  by_cases he : n.handle.rxQueue.Empty
  · rw [transmitUdpFrame_of_empty spill pbuf he] at hd
    simp at hd
  cases pbuf with
  | none =>
    rw [transmitUdpFrame_of_alloc_failed] at hd
    simp at hd
  | some payload =>
    have hsends := transmitUdpFrame_sent spill hv he payload
    rw [hsends.sent_eq fun f hf => hle f (List.mem_of_mem_take hf), Option.toList_some,
      List.mem_singleton] at hd
    subst hd
    exact ⟨_, _, (List.take_prefix _ _).isInfix, rfl⟩

theorem transmitUdpLoop_packedFrom (spill : Slot → ℕ → UInt8)
    (pbufs : List (Option (ℕ → UInt8))) {n : Node} (hv : n.handle.Valid)
    (hle : ∀ f ∈ n.rxFrames, canfdLen f ≤ cnlCanfdMaxDlen) :
    ∀ d ∈ (transmitUdpLoop spill pbufs n).2, d.PackedFrom n.rxFrames := by
  induction pbufs generalizing n with
  | nil => exact transmitUdpFrame_packedFrom spill none hv hle
  | cons pbuf pbufs ih =>
    have hfirst := transmitUdpFrame_packedFrom spill pbuf hv hle
    obtain ⟨fs, hfs⟩ := transmitUdpFrame_drains spill pbuf hv hle
    have hsplit := hfs.rxFrames_eq
    have hsuffix : (transmitUdpFrame spill pbuf n).node.rxFrames <:+: n.rxFrames := by
      rw [hsplit]
      exact (List.suffix_append _ _).isInfix
    unfold transmitUdpLoop
    simp only
    split
    · intro d hd
      rcases List.mem_append.mp hd with hd | hd
      · exact hfirst d hd
      · exact (ih (hfs.valid hv) (fun f hf => hle f (hsuffix.subset hf)) d hd).mono hsuffix
    · exact hfirst

/-- A turn that does not fault goes through a scan, whose frames join the backlog, and sends the
datagrams it makes of them. -/
theorem runCannelloni_sent {env : RunEnv} {c : Dcan} {n : Node} {r : Ran} (hv : n.handle.Valid)
    (hfit : ∀ m ∈ turnMessages env c n.handle, m.Fits) (h : runCannelloni env c n = .ok r) :
    ∃ n', n'.handle.Valid ∧ n'.rxFrames = n.rxFrames ++ r.received ∧
      transmitUdpLoop env.spill env.pbufs n' = (r.node, r.sent) := by
  have hoffers := transmitCanFrames_spec env.answers hv.tx
  set n₁ := (transmitCanFrames env.answers n).1
  have hv₁ := hoffers.valid hv
  have hms : turnMessages env c n₁.handle = turnMessages env c n.handle := by
    unfold turnMessages
    rw [hoffers.handle_eq]
  rw [← hms] at hfit
  obtain ⟨scan, hscan, hreads⟩ := receiveCanFrames_ok hv₁.rx hfit
  have hunfold : runCannelloni env c n = receiveCanFrames env.hw c n₁ >>= fun scan =>
      pure ⟨(transmitUdpLoop env.spill env.pbufs scan.node).1, scan.dcan,
        (transmitCanFrames env.answers n).2, scan.stored,
        (transmitUdpLoop env.spill env.pbufs scan.node).2⟩ := rfl
  rw [hunfold, hscan] at h
  obtain rfl := Except.ok.inj h
  refine ⟨scan.node, hreads.valid hv₁, ?_, rfl⟩
  have hstored : scan.stored = fillSlots If1.frame n₁.mem n₁.handle.rxQueue
      (turnMessages env c n₁.handle) := hreads.stored_eq
  rw [← hoffers.rxFrames_eq, hstored]
  exact hreads.appended.contents_eq

/-- A datagram that the bridge reads: it has room for it, and its frames are classic. -/
def Datagram.Readable (d : Datagram) : Prop :=
  ∃ seqNo fs, d.payload = datagramOf seqNo fs ∧ (∀ f ∈ fs, f.Classic) ∧
    cannelloniDataPacketBaseSize + packSize fs ≤ readBufLen

theorem packSize_le_of_infix {fs gs : List CanfdFrame} (h : gs <:+: fs) :
    packSize gs ≤ packSize fs := by
  obtain ⟨before, after, rfl⟩ := h
  rw [packSize_append, packSize_append]
  omega

theorem Datagram.PackedFrom.readable {fs : List CanfdFrame} {d : Datagram} (h : d.PackedFrom fs)
    (hclassic : ∀ f ∈ fs, f.Classic)
    (hsize : cannelloniDataPacketBaseSize + packSize fs ≤ readBufLen) : d.Readable := by
  obtain ⟨seqNo, gs, hpart, hd⟩ := h
  have hle := packSize_le_of_infix hpart
  exact ⟨seqNo, gs, hd, fun f hf => hclassic f (hpart.subset hf), by omega⟩

/-- The bridge reads the frames the datagram carries. -/
theorem Datagram.Readable.read {d : Datagram} (h : d.Readable) (stack : Stack) :
    ∃ out, UdpEndpoint.read stack d.payload [] = .ok ⟨out, 0⟩ ∧
      out.map CanFrame.view = d.carried := by
  obtain ⟨seqNo, fs, hd, hclassic, hsize⟩ := h
  obtain ⟨out, hread, hviews⟩ := UdpEndpoint.read_datagramOf hclassic hsize stack seqNo
  refine ⟨out, by rw [hd]; exact hread, ?_⟩
  have hcarried := carried_datagramOf (fun f hf => (hclassic f hf).len_le) d.remotePort seqNo
  rw [← hd] at hcarried
  exact hviews.trans hcarried.symm

/-! ## The datagrams of the bridge -/

/-- The datagram the bridge makes of a frame. -/
def HostDatagram.Ok (d : HostDatagram) : Prop :=
  d.frame.canDlc.toNat ≤ canMaxDlen ∧ d.bytes = packetHeader 0 1 ++ wireBytes d.frame.toCanfd

/-- What the gateway is to make of a frame of the host: a remote frame loses its data. -/
def CanFrame.expected (f : CanFrame) : UInt32 × UInt8 × UInt8 × List UInt8 :=
  f.toCanfd.onWire.reading

theorem HostDatagram.Ok.length_le {d : HostDatagram} (h : d.Ok) :
    d.bytes.length ≤ maxUdpPayload := by
  have hlen : canfdLen d.frame.toCanfd = d.frame.canDlc.toNat :=
    dlcOf_of_not_isFd (not_isFd_of_le h.1)
  have hdlc := h.1
  have hle : canfdLen d.frame.toCanfd ≤ cnlCanfdMaxDlen := by
    rw [hlen]
    exact hdlc
  have hheader : (packetHeader 0 1).length = 5 := rfl
  rw [h.2, List.length_append, length_wireBytes hle, hheader]
  simp only [frameSize, cannelloniFrameBaseSize, cnlCanfdMaxDlen, maxUdpPayload] at hle ⊢
  omega

/-- The receive callback stores the frame, or nothing when the queue is full. -/
theorem HostDatagram.Ok.handle {d : HostDatagram} (h : d.Ok) {n : Node} (hv : n.handle.Valid)
    (spare : ℕ → UInt8) (hd : d.bytes.length ≤ maxUdpPayload) :
    ∃ o, handleCannelloniFrame n (some (.contiguous d.bytes spare hd)) = .ok o ∧
      Stores n (.contiguous d.bytes spare hd) o ∧
      (o.stored = [] ∨ o.stored.map CanfdFrame.reading = [d.frame.expected]) := by
  obtain ⟨hdlc, hbytes⟩ := h
  obtain ⟨bytes, f⟩ := d
  simp only at hdlc hbytes hd ⊢
  subst hbytes
  have hfd : ¬ IsFd f.canDlc := not_isFd_of_le hdlc
  by_cases hfull : n.handle.txQueue.Full
  · -- no record finds a free slot
    have hzero : n.handle.txQueue.free = 0 := (Ring.Cursor.full_iff_free hv.tx).mp hfull
    have hnone : PbufChain.storable (.contiguous _ spare hd) n.handle.txQueue.free = [] := by
      rw [hzero]
      exact List.take_zero
    obtain ⟨o, ho, hs⟩ := handleCannelloniFrame_ok (p := .contiguous _ spare hd) hv.tx (by
      rw [hnone]
      simp)
    refine ⟨o, ho, hs, .inl ?_⟩
    rw [hs.stored_eq, hnone]
    rfl
  · have hfree : 1 ≤ n.handle.txQueue.free := by
      have hpush : n.handle.txQueue.push.free + 1 = n.handle.txQueue.free :=
        Ring.Cursor.free_push hv.tx hfull
      omega
    have hle : canfdLen f.toCanfd ≤ cnlCanfdMaxDlen := by
      rw [show canfdLen f.toCanfd = f.canDlc.toNat from dlcOf_of_not_isFd hfd]
      exact hdlc
    have hpre : [f.toCanfd].flatMap recordBytes <+: wireBytes f.toCanfd := by
      simpa using recordBytes_prefix_wireBytes hfd
    obtain ⟨o, ho, hs, -, hreading⟩ := handleCannelloniFrame_reads hv.tx
      (List.cons_ne_nil _ _) (by simpa using hle) hpre hfree spare hd
    exact ⟨o, ho, hs, .inr hreading⟩

/-! ## The invariant -/

structure EndToEnd.Inv (s : EndToEnd) : Prop where
  valid : s.node.handle.Valid
  classic : ∀ f ∈ s.node.rxFrames, f.Classic
  readable : ∀ d ∈ s.toBridge.sent, d.Readable
  up_sent : s.toBridge.sent.flatMap Datagram.carried ++ s.node.rxFrames.map CanfdFrame.view
    = s.messages.map If1.view
  up_arrived : s.toSocket.map CanFrame.view = s.toBridge.arrived.flatMap Datagram.carried
  ok : ∀ d ∈ s.toGateway.sent, d.Ok
  down_sent : s.toGateway.sent.map HostDatagram.frame = s.fromSocket
  down_arrived : (s.accepted.map CanfdFrame.reading).Sublist
    (s.toGateway.arrived.map fun d => d.frame.expected)
  down_exact : s.dropped = 0 → s.accepted.map CanfdFrame.reading
    = s.toGateway.arrived.map fun d => d.frame.expected
  offered : Run.delivered s.offers ++ s.node.txFrames = s.accepted

theorem EndToEnd.inv_start (mem : Memory) (init : Init) : (EndToEnd.start mem init).Inv where
  valid := initCannelloni_valid init
  classic := by simp [start, Node.rxFrames, initCannelloni]
  readable := by simp [start]
  up_sent := by simp [start, Node.rxFrames, initCannelloni]
  up_arrived := by simp [start]
  ok := by simp [start]
  down_sent := by simp [start]
  down_arrived := by simp [start]
  down_exact := by simp [start]
  offered := by simp [start, Node.txFrames, initCannelloni]

namespace EndToEnd.Inv

variable {s : EndToEnd} {o : Bytes.ByteOrder}

/-- A turn of the main loop. -/
theorem turn (h : s.Inv) {env : RunEnv} (hcond : EndToEndEvent.Fitting s (.turn env)) :
    ∃ s', s.step o (.turn env) = .ok s' ∧ s'.Inv := by
  obtain ⟨hfit, hsize⟩ := hcond
  obtain ⟨r, fs, hr, hturn⟩ := runCannelloni_ok h.valid
    (fun f hf => (h.classic f hf).len_le) hfit
  set ms := turnMessages env s.dcan s.node.handle
  -- what was queued and what was read, all of it classic and within the bridge's bound
  have hreceived : r.received.map CanfdFrame.view = ms.map If1.view := by
    rw [hturn.received_eq]
    exact map_fillSlots If1.frame fun m hm old => If1.frame_view (hfit m hm) old
  have hclassic : ∀ f ∈ s.node.rxFrames ++ r.received, f.Classic := by
    intro f hf
    rcases List.mem_append.mp hf with hf | hf
    · exact h.classic f hf
    · rw [hturn.received_eq] at hf
      exact forall_mem_fillSlots If1.frame (fun m hm old => If1.frame_classic (hfit m hm) old) f hf
  have hroom : cannelloniDataPacketBaseSize + packSize (s.node.rxFrames ++ r.received)
      ≤ readBufLen := by
    rw [packSize_append, hturn.received_eq, packSize_fillSlots, ← Nat.add_assoc]
    exact hsize
  obtain ⟨n', hv', hframes, hloop⟩ := runCannelloni_sent h.valid hfit hr
  have hpacked : ∀ d ∈ r.sent, d.Readable := by
    intro d hd
    have hd' : d ∈ (transmitUdpLoop env.spill env.pbufs n').2 := by
      rw [hloop]
      exact hd
    have hfrom := transmitUdpLoop_packedFrom env.spill env.pbufs hv'
      (fun f hf => (hclassic f (hframes ▸ hf)).len_le) d hd'
    rw [hframes] at hfrom
    exact hfrom.readable hclassic hroom
  have hsplit := hturn.rx_eq
  have htx : r.node.txFrames = r.node.handle.txQueue.contents s.node.mem := by
    have hq := hturn.tx_taken
    apply hturn.writes.contents_of_ne
    rw [hq.frames_eq]
    exact h.valid.frames_ne
  simp only [step, hr]
  refine ⟨_, rfl, ?_⟩
  refine ⟨hturn.valid, ?_, ?_, ?_, h.up_arrived, h.ok, h.down_sent, h.down_arrived, h.down_exact,
    ?_⟩
  · intro f hf
    apply hclassic
    rw [hsplit]
    exact List.mem_append_right _ hf
  · intro d hd
    rcases List.mem_append.mp hd with hd | hd
    · exact h.readable d hd
    · exact hpacked d hd
  · have hviews : fs.map CanfdFrame.view ++ r.node.rxFrames.map CanfdFrame.view
        = s.node.rxFrames.map CanfdFrame.view ++ ms.map If1.view := by
      rw [← List.map_append, ← hsplit, List.map_append, hreceived]
    show (s.toBridge.sent ++ r.sent).flatMap Datagram.carried
      ++ r.node.rxFrames.map CanfdFrame.view = (s.messages ++ ms).map If1.view
    rw [List.flatMap_append, hturn.carried_eq, List.append_assoc, hviews, ← List.append_assoc,
      h.up_sent, List.map_append]
  · show Run.delivered (s.offers ++ r.offers) ++ r.node.txFrames = s.accepted
    have hcontents : s.node.txFrames = Run.delivered r.offers ++ r.node.txFrames := by
      rw [htx]
      exact hturn.tx_taken.contents_eq
    rw [Run.delivered_append, List.append_assoc, ← hcontents]
    exact h.offered

/-- The receive interrupt. -/
theorem interrupt (h : s.Inv) (spare : ℕ → UInt8) :
    ∃ s', s.step o (.interrupt spare) = .ok s' ∧ s'.Inv := by
  simp only [step]
  split
  · exact ⟨s, rfl, h⟩
  · next d rest hflight =>
    have hok : d.Ok := h.ok d (s.toGateway.mem_sent_of_mem_inFlight (by simp [hflight]))
    obtain ⟨out, hout, hs, hstored⟩ := hok.handle h.valid spare hok.length_le
    simp only [receive, dif_pos hok.length_le, hout]
    refine ⟨_, rfl, ?_⟩
    have hrx : out.node.rxFrames = s.node.rxFrames := hs.rxFrames_eq h.valid
    refine ⟨hs.valid h.valid, ?_, h.readable, ?_, h.up_arrived, h.ok, h.down_sent, ?_, ?_, ?_⟩
    · intro f hf
      apply h.classic
      rw [← hrx]
      exact hf
    · simp only [hrx]
      exact h.up_sent
    · simp only [Channel.arrived_deliver, List.map_append]
      rcases hstored with hnil | hone
      · rw [hnil, List.map_nil, List.append_nil]
        exact h.down_arrived.trans (List.sublist_append_left _ _)
      · rw [hone]
        exact h.down_arrived.append (List.Sublist.refl _)
    · intro hdropped
      rcases hstored with hnil | hone
      · rw [if_pos hnil] at hdropped
        exact absurd hdropped (Nat.succ_ne_zero _)
      · have hne : out.stored ≠ [] := by
          intro hnil
          rw [hnil] at hone
          simp at hone
        rw [if_neg hne] at hdropped
        simp only [Channel.arrived_deliver, List.map_append]
        rw [hone, h.down_exact hdropped]
        rfl
    · simp only [hs.txFrames_eq]
      rw [← List.append_assoc, h.offered]

/-- The bridge forwards a frame of the host. -/
theorem fromSocket (h : s.Inv) {f : CanFrame} (hdlc : f.canDlc.toNat ≤ canMaxDlen) :
    ∃ s', s.step o (.fromSocket f) = .ok s' ∧ s'.Inv := by
  have hwrite : CanEndpoint.read (some f) [] >>= UdpEndpoint.write o
      = .ok (packetHeader 0 1 ++ wireBytes f.toCanfd) := UdpEndpoint.write_singleton o hdlc
  simp only [step, hwrite]
  refine ⟨_, rfl, ?_⟩
  refine ⟨h.valid, h.classic, h.readable, h.up_sent, h.up_arrived, ?_, ?_, h.down_arrived,
    h.down_exact, h.offered⟩
  · intro d hd
    rcases List.mem_append.mp hd with hd | hd
    · exact h.ok d hd
    · obtain rfl := List.mem_singleton.mp hd
      exact ⟨hdlc, rfl⟩
  · simp only [Channel.sent_send, List.map_append]
    rw [h.down_sent]
    rfl

/-- The bridge forwards a datagram of the gateway. -/
theorem toSocket (h : s.Inv) (stack : Stack) :
    ∃ s', s.step o (.toSocket stack) = .ok s' ∧ s'.Inv := by
  simp only [step]
  split
  · exact ⟨s, rfl, h⟩
  · next d rest hflight =>
    have hd : d.Readable := h.readable d (s.toBridge.mem_sent_of_mem_inFlight (by simp [hflight]))
    obtain ⟨out, hread, hviews⟩ := hd.read stack
    simp only [hread]
    refine ⟨_, rfl, ?_⟩
    refine ⟨h.valid, h.classic, h.readable, h.up_sent, ?_, h.ok, h.down_sent, h.down_arrived,
      h.down_exact, h.offered⟩
    simp only [Channel.arrived_deliver, List.map_append, List.flatMap_append,
      List.flatMap_singleton]
    rw [h.up_arrived, hviews]

theorem step (h : s.Inv) {e : EndToEndEvent} (hcond : e.Fitting s) :
    ∃ s', EndToEnd.step o s e = .ok s' ∧ s'.Inv := by
  cases e with
  | turn env => exact h.turn hcond
  | interrupt spare => exact h.interrupt spare
  | fromSocket f => exact h.fromSocket hcond
  | toSocket stack => exact h.toSocket stack
  | loseToBridge i =>
    exact ⟨_, rfl, h.valid, h.classic, h.readable, h.up_sent, h.up_arrived, h.ok, h.down_sent,
      h.down_arrived, h.down_exact, h.offered⟩
  | loseToGateway i =>
    exact ⟨_, rfl, h.valid, h.classic, h.readable, h.up_sent, h.up_arrived, h.ok, h.down_sent,
      h.down_arrived, h.down_exact, h.offered⟩

end EndToEnd.Inv

/-! ## Whole runs -/

/-- For every run in which the messages fit a frame, a turn's messages and the backlog fit the
bridge's buffer, and the network loses whatever it likes: the frames the bridge hands to the host
are messages read from the mailboxes, in the order they were read; if nothing was lost they are
all of them, but for those under way or still queued. In the other direction the frames the bus
driver took are frames of the host, in order, and if nothing was lost or found a full queue, all
of them, but for those under way or still queued. -/
theorem frames_in_order (o : Bytes.ByteOrder) (mem : Memory) (init : Init)
    (events : List EndToEndEvent)
    (hfit : Run.Along (EndToEnd.step o) (fun s e => e.Fitting s) (.start mem init) events) :
    ∃ s, Run.exec (EndToEnd.step o) (.start mem init) events = .ok s ∧
      ((s.toSocket.map CanFrame.view).Sublist (s.messages.map If1.view) ∧
        (s.toBridge.lost = 0 →
          s.toSocket.map CanFrame.view ++ s.toBridge.inFlight.flatMap Datagram.carried
            ++ s.node.rxFrames.map CanfdFrame.view = s.messages.map If1.view)) ∧
      (((Run.delivered s.offers).map CanfdFrame.reading).Sublist
          (s.fromSocket.map CanFrame.expected) ∧
        (s.toGateway.lost = 0 → s.dropped = 0 →
          (Run.delivered s.offers ++ s.node.txFrames).map CanfdFrame.reading
            ++ s.toGateway.inFlight.map (fun d => d.frame.expected)
            = s.fromSocket.map CanFrame.expected)) := by
  obtain ⟨s, hs, h⟩ := Run.exec_of_along (fun _ _ hinv hcond => EndToEnd.Inv.step hinv hcond)
    (EndToEnd.inv_start mem init) hfit
  have hreadings : s.fromSocket.map CanFrame.expected
      = s.toGateway.sent.map fun d => d.frame.expected := by
    rw [← h.down_sent, List.map_map]
    rfl
  refine ⟨s, hs, ⟨?_, ?_⟩, ?_, ?_⟩
  · rw [h.up_arrived, ← h.up_sent]
    exact (s.toBridge.arrived_sublist.flatMap _).trans (List.sublist_append_left _ _)
  · intro hlost
    rw [h.up_arrived, ← List.flatMap_append, s.toBridge.exact hlost]
    exact h.up_sent
  · rw [hreadings]
    have hdelivered : (Run.delivered s.offers).Sublist s.accepted := by
      rw [← h.offered]
      exact List.sublist_append_left _ _
    exact (hdelivered.map _).trans (h.down_arrived.trans (s.toGateway.arrived_sublist.map _))
  · intro hlost hdropped
    rw [h.offered, h.down_exact hdropped, ← List.map_append, s.toGateway.exact hlost, hreadings]

/-- A turn before which a message arrives, with one packet buffer. -/
def RunEnv.single (m : If1) : RunEnv where
  answers := [true]
  hw := fun i c => if i = canRxQueueFirstMbox then c.arrive m else c
  pbufs := [some fun _ => 0]
  spill := fun _ _ => 0

/-- A frame of the host and a message of the bus pass each other. -/
theorem frames_in_order_both :
    let events : List EndToEndEvent := [.fromSocket ⟨0x123, 1, Vector.replicate _ 7⟩,
      .interrupt fun _ => 0, .turn (.single (.short 5)), .toSocket .zero]
    ∃ s, Run.exec (EndToEnd.step .littleEndian) (.start zeroMemory (mainInit 0 0)) events = .ok s ∧
      s.toSocket.map CanFrame.view = [(5, 0, [])] ∧
      (Run.delivered s.offers).map CanfdFrame.reading = [(0x123, 1, 0, [7])] := by
  intro events
  obtain ⟨s, hs, ⟨-, hup⟩, -, hdown⟩ := frames_in_order .littleEndian zeroMemory (mainInit 0 0)
    events (by decide +kernel)
  -- in the end nothing is lost, under way or queued
  have hends : (Run.exec (EndToEnd.step .littleEndian) (.start zeroMemory (mainInit 0 0)) events).map
      (fun s => [s.toBridge.lost, s.toBridge.inFlight.length, s.node.rxFrames.length,
        s.toGateway.lost, s.dropped, s.toGateway.inFlight.length, s.node.txFrames.length])
      = .ok [0, 0, 0, 0, 0, 0, 0] := by
    decide +kernel
  have hmessages : (Run.exec (EndToEnd.step .littleEndian) (.start zeroMemory (mainInit 0 0))
      events).map (fun s => s.messages.map If1.view) = .ok [(5, 0, [])] := by
    decide +kernel
  have hhost : (Run.exec (EndToEnd.step .littleEndian) (.start zeroMemory (mainInit 0 0))
      events).map (fun s => s.fromSocket.map CanFrame.expected) = .ok [(0x123, 1, 0, [7])] := by
    decide +kernel
  rw [hs] at hends hmessages hhost
  simp only [Except.map, Except.ok.injEq, List.cons.injEq, List.length_eq_zero_iff] at hends
  obtain ⟨hlostUp, hflightUp, hqueued, hlostDown, hdropped, hflightDown, hwaiting, -⟩ := hends
  refine ⟨s, hs, ?_, ?_⟩
  · simpa [hflightUp, hqueued, Except.ok.inj hmessages] using hup hlostUp
  · simpa [hflightDown, hwaiting, Except.ok.inj hhost] using hdown hlostDown hdropped

/-! ## A gateway that gets its buffers -/

/-- The first packet buffer the turn asks for is there. -/
def RunEnv.Allocates (env : RunEnv) : Prop :=
  ∃ pbuf, env.pbufs.head? = some pbuf ∧ pbuf.isSome

instance (env : RunEnv) : Decidable env.Allocates :=
  decidable_of_iff (env.pbufs.head?.any Option.isSome) (Option.any_eq_true _ _)

/-- The messages fit a frame and the first packet buffer a turn asks for is there. -/
def EndToEndEvent.Allocated (s : EndToEnd) : EndToEndEvent → Prop
  | .turn env => (∀ m ∈ turnMessages env s.dcan s.node.handle, m.Fits) ∧ env.Allocates
  | .fromSocket f => f.canDlc.toNat ≤ canMaxDlen
  | _ => True

instance EndToEndEvent.decidableAllocated (s : EndToEnd) (e : EndToEndEvent) :
    Decidable (e.Allocated s) :=
  match e with
  | .turn _ => inferInstanceAs (Decidable (_ ∧ _))
  | .fromSocket _ => inferInstanceAs (Decidable (_ ≤ _))
  | .interrupt _ | .toSocket _ | .loseToBridge _ | .loseToGateway _ => .isTrue trivial

theorem RunEnv.Allocates.pbufs_eq {env : RunEnv} (h : env.Allocates) :
    ∃ payload rest, env.pbufs = some payload :: rest := by
  obtain ⟨pbuf, hhead, hsome⟩ := h
  obtain ⟨payload, rfl⟩ := Option.isSome_iff_exists.mp hsome
  obtain ⟨rest, hrest⟩ := List.head?_eq_some_iff.mp hhead
  exact ⟨payload, rest, hrest⟩

/-- There are 63 receive mailboxes, and a scan meets each of them once. -/
theorem length_found_le (hw : ℕ → Dcan → Dcan) (fuel : ℕ) (c : Dcan) (mbox : ℕ) :
    (found hw fuel c mbox).length ≤ canMboxLast + 1 - mbox := by
  induction fuel generalizing c mbox with
  | zero => simp [found]
  | succ fuel ih =>
    unfold found
    simp only
    split
    · next hdata =>
      have hle : mbox ≤ canMboxLast := by
        by_contra hlt
        unfold canMboxHasData at hdata
        rw [if_pos (not_le.mp hlt)] at hdata
        simp at hdata
      have := ih (canMboxHasData (hw mbox c) mbox).2 (mbox + 1)
      rw [List.length_cons]
      omega
    · simp

theorem length_turnMessages_le (env : RunEnv) (c : Dcan) (h : Handle) :
    (turnMessages env c h).length ≤ 63 := by
  have hfound := length_found_le env.hw canMboxLast c canRxQueueFirstMbox
  unfold turnMessages
  split
  · rw [List.length_take]
    exact (Nat.min_le_right _ _).trans hfound
  · simp

theorem sum_wireSize_le {ms : List If1} (hfit : ∀ m ∈ ms, m.Fits) :
    (ms.map If1.wireSize).sum ≤ 13 * ms.length := by
  induction ms with
  | nil => simp
  | cons m ms ih =>
    have hm : m.len.toNat ≤ 8 := hfit m List.mem_cons_self
    have hrest := ih fun m' hm' => hfit m' (List.mem_cons_of_mem m hm')
    rw [List.map_cons, List.sum_cons, List.length_cons, If1.wireSize]
    simp only [cannelloniFrameBaseSize]
    omega

/-- One datagram takes a queue that fits it, and the loop ends. -/
theorem transmitUdpLoop_all (spill : Slot → ℕ → UInt8) (payload : ℕ → UInt8)
    (rest : List (Option (ℕ → UInt8))) {n : Node} (hv : n.handle.Valid)
    (hsize : cannelloniDataPacketBaseSize + packSize n.rxFrames < txPbufLen) :
    (transmitUdpLoop spill (some payload :: rest) n).1.rxFrames = [] := by
  unfold transmitUdpLoop
  simp only
  by_cases he : n.handle.rxQueue.Empty
  · rw [transmitUdpFrame_of_empty spill _ he]
    exact contents_of_empty hv.rx he
  · have hsends := transmitUdpFrame_sent spill hv he payload
    have hleft : (transmitUdpFrame spill (some payload) n).node.rxFrames = [] := by
      have hsplit := hsends.rxFrames_eq
      rw [packed_eq_self hsize] at hsplit
      exact List.self_eq_append_right.mp hsplit
    have hmore : ¬ (transmitUdpFrame spill (some payload) n).more = true := by
      rw [hsends.more_eq, not_not]
      exact hleft
    rw [if_neg hmore]
    exact hleft

/-- The longest datagram of a gateway without a backlog. -/
def turnDatagramLen : ℕ := cannelloniDataPacketBaseSize + 13 * 63

theorem turnDatagramLen_le : turnDatagramLen ≤ readBufLen ∧ turnDatagramLen < txPbufLen := by
  decide

/-- Without a backlog the messages of a turn fit one datagram that the bridge has room for. -/
theorem turn_fits {env : RunEnv} {c : Dcan} {h : Handle}
    (hfit : ∀ m ∈ turnMessages env c h, m.Fits) :
    cannelloniDataPacketBaseSize + ((turnMessages env c h).map If1.wireSize).sum
      ≤ turnDatagramLen := by
  have hlen := length_turnMessages_le env c h
  have hsum := sum_wireSize_le hfit
  unfold turnDatagramLen
  omega

/-- The state of a gateway that sends whatever it reads. -/
structure EndToEnd.Prompt (s : EndToEnd) : Prop where
  inv : s.Inv
  no_backlog : s.node.rxFrames = []
  length_le : ∀ d ∈ s.toBridge.sent, d.payload.length ≤ turnDatagramLen

theorem EndToEnd.Prompt.fitting {s : EndToEnd} (h : s.Prompt) {e : EndToEndEvent}
    (he : e.Allocated s) : e.Fitting s := by
  cases e with
  | turn env =>
    refine ⟨he.1, ?_⟩
    have hsize := turn_fits he.1
    have hroom := turnDatagramLen_le.1
    rw [h.no_backlog, packSize_nil]
    omega
  | fromSocket f => exact he
  | _ => trivial

theorem EndToEnd.Prompt.turn {s : EndToEnd} (h : s.Prompt) {env : RunEnv}
    (he : EndToEndEvent.Allocated s (.turn env)) {r : Ran}
    (hr : runCannelloni env s.dcan s.node = .ok r) :
    r.node.rxFrames = [] ∧ ∀ d ∈ r.sent, d.payload.length ≤ turnDatagramLen := by
  obtain ⟨hfit, halloc⟩ := he
  obtain ⟨payload, rest, hpbufs⟩ := halloc.pbufs_eq
  obtain ⟨n', hv', hframes, hloop⟩ := runCannelloni_sent h.inv.valid hfit hr
  obtain ⟨r', fs, hr', hturn⟩ := runCannelloni_ok h.inv.valid
    (fun f hf => (h.inv.classic f hf).len_le) hfit
  obtain rfl : r' = r := Except.ok.inj (hr'.symm.trans hr)
  rw [h.no_backlog, List.nil_append, hturn.received_eq] at hframes
  have hle : ∀ f ∈ n'.rxFrames, canfdLen f ≤ cnlCanfdMaxDlen := by
    rw [hframes]
    exact forall_canfdLen_le_of_fits hfit _ _
  have hsize := turn_fits hfit
  rw [← packSize_fillSlots s.node.mem s.node.handle.rxQueue, ← hframes] at hsize
  constructor
  · have hroom := turnDatagramLen_le.2
    have hall := transmitUdpLoop_all env.spill payload rest hv' (by omega)
    rw [← hpbufs, hloop] at hall
    exact hall
  · intro d hd
    have hd' : d ∈ (transmitUdpLoop env.spill env.pbufs n').2 := by
      rw [hloop]
      exact hd
    obtain ⟨seqNo, gs, hpart, hpayload⟩ :=
      transmitUdpLoop_packedFrom env.spill env.pbufs hv' hle d hd'
    have hgs := packSize_le_of_infix hpart
    rw [hpayload, length_datagramOf fun f hf => hle f (hpart.subset hf)]
    omega

theorem EndToEnd.Prompt.step {s : EndToEnd} (h : s.Prompt) {o : Bytes.ByteOrder}
    {e : EndToEndEvent} (he : e.Allocated s) :
    ∃ s', EndToEnd.step o s e = .ok s' ∧ s'.Prompt := by
  obtain ⟨s', hs', hinv⟩ := h.inv.step (o := o) (h.fitting he)
  suffices hrest : s'.node.rxFrames = [] ∧
      ∀ d ∈ s'.toBridge.sent, d.payload.length ≤ turnDatagramLen from
    ⟨s', hs', hinv, hrest.1, hrest.2⟩
  cases e with
  | turn env =>
    simp only [EndToEnd.step] at hs'
    split at hs'
    · cases hs'
    · next r hr =>
      obtain rfl := Except.ok.inj hs'
      obtain ⟨hnil, hlen⟩ := h.turn he hr
      refine ⟨hnil, ?_⟩
      intro d hd
      rcases List.mem_append.mp hd with hd | hd
      · exact h.length_le d hd
      · exact hlen d hd
  | interrupt spare =>
    -- the callback does not touch `rx_queue`
    simp only [EndToEnd.step] at hs'
    split at hs'
    · obtain rfl := Except.ok.inj hs'
      exact ⟨h.no_backlog, h.length_le⟩
    · next d rest hflight =>
      have hok : d.Ok := h.inv.ok d (s.toGateway.mem_sent_of_mem_inFlight (by simp [hflight]))
      obtain ⟨out, hout, hstores, -⟩ := hok.handle h.inv.valid spare hok.length_le
      simp only [EndToEnd.receive, dif_pos hok.length_le, hout] at hs'
      obtain rfl := Except.ok.inj hs'
      exact ⟨(hstores.rxFrames_eq h.inv.valid).trans h.no_backlog, h.length_le⟩
  | fromSocket f =>
    simp only [EndToEnd.step] at hs'
    split at hs'
    · cases hs'
    · obtain rfl := Except.ok.inj hs'
      exact ⟨h.no_backlog, h.length_le⟩
  | toSocket stack =>
    simp only [EndToEnd.step] at hs'
    split at hs'
    · obtain rfl := Except.ok.inj hs'
      exact ⟨h.no_backlog, h.length_le⟩
    · split at hs'
      · cases hs'
      · obtain rfl := Except.ok.inj hs'
        exact ⟨h.no_backlog, h.length_le⟩
  | loseToBridge i =>
    obtain rfl := Except.ok.inj hs'
    exact ⟨h.no_backlog, h.length_le⟩
  | loseToGateway i =>
    obtain rfl := Except.ok.inj hs'
    exact ⟨h.no_backlog, h.length_le⟩

/-- In every run in which the messages fit a frame and each turn gets the first packet buffer it
asks for: what a turn reads it sends before it ends, no datagram is longer than 824 bytes, and so
the bridge has room for all of them. -/
theorem fitting_of_allocated (o : Bytes.ByteOrder) (mem : Memory) (init : Init)
    (events : List EndToEndEvent)
    (halloc : Run.Along (EndToEnd.step o) (fun s e => e.Allocated s) (.start mem init) events) :
    Run.Along (EndToEnd.step o) (fun s e => e.Fitting s) (.start mem init) events ∧
      ∃ s, Run.exec (EndToEnd.step o) (.start mem init) events = .ok s ∧ s.node.rxFrames = [] ∧
        ∀ d ∈ s.toBridge.sent, d.payload.length ≤ turnDatagramLen := by
  have hstart : (EndToEnd.start mem init).Prompt := by
    refine ⟨EndToEnd.inv_start mem init, ?_, ?_⟩
    · simp [EndToEnd.start, Node.rxFrames, initCannelloni]
    · simp [EndToEnd.start]
  constructor
  · refine Run.Along.imp (fun s e h he => h.fitting he) ?_ hstart halloc
    intro s e s' h he hs'
    obtain ⟨t, ht, hprompt⟩ := h.step he
    obtain rfl : t = s' := Except.ok.inj (ht.symm.trans hs')
    exact hprompt
  · obtain ⟨s, hs, h⟩ := Run.exec_of_along (fun _ _ h he => EndToEnd.Prompt.step h he) hstart
      halloc
    exact ⟨s, hs, h.no_backlog, h.length_le⟩

/-- Two turns, each with a message. -/
theorem fitting_of_allocated_two :
    ∃ s, Run.exec (EndToEnd.step .littleEndian) (.start zeroMemory (mainInit 0 0))
        [.turn (.single (.short 5)), .turn (.single (.short 6))] = .ok s ∧
      s.node.rxFrames = [] ∧ ∀ d ∈ s.toBridge.sent, d.payload.length ≤ turnDatagramLen :=
  (fitting_of_allocated .littleEndian zeroMemory (mainInit 0 0)
    [.turn (.single (.short 5)), .turn (.single (.short 6))] (by decide +kernel)).2

end Cannelloni
