import Cannelloni.Bridge
import Cannelloni.Layout

/-!
# Gateway and bridge

What one of the two programs writes, the other one reads. The gateway packs up to 1200 bytes
into a datagram while the bridge has room for 1024; the bridge writes the data of a remote
frame while the gateway does not read it.
-/

namespace Cannelloni

/-! ## Frames as the bridge sees them -/

theorem flatMap_wireBytes (fs : List CanfdFrame) :
    fs.flatMap wireBytes = (fs.map CanfdFrame.view).flatMap viewBytes := by
  rw [List.flatMap_map]
  rfl

section Classic

variable {fs : List CanfdFrame}

theorem viewOk_view {f : CanfdFrame} (hfd : ¬ IsFd f.len) (hle : canfdLen f ≤ cnlCanfdMaxDlen) :
    ViewOk f.view where
  length_eq := by
    show (f.data.toList.take (canfdLen f)).length = f.len.toNat
    rw [length_take_data hle, canfdLen, dlcOf_of_not_isFd hfd]
  dlc_le := by
    rw [canfdLen, dlcOf_of_not_isFd hfd] at hle
    exact hle

theorem viewsSize_view (hfd : ∀ f ∈ fs, ¬ IsFd f.len) :
    viewsSize (fs.map CanfdFrame.view) = packSize fs := by
  unfold viewsSize packSize
  rw [List.map_map]
  congr 1
  apply List.map_congr_left
  intro f hf
  show 5 + f.len.toNat = 5 + canfdLen f
  rw [canfdLen, dlcOf_of_not_isFd (hfd f hf)]

end Classic

theorem viewsSize_take_le (vs : List (UInt32 × UInt8 × List UInt8)) (k : ℕ) :
    viewsSize (vs.take k) ≤ viewsSize vs := by
  have hsplit := viewsSize_append (vs.take k) (vs.drop k)
  rw [List.take_append_drop] at hsplit
  omega

theorem viewsSize_take_lt {vs : List (UInt32 × UInt8 × List UInt8)} {k : ℕ} (h : k < vs.length) :
    viewsSize (vs.take k) < viewsSize vs := by
  have hsplit := viewsSize_append (vs.take k) (vs.drop k)
  rw [List.take_append_drop] at hsplit
  have hdrop := length_le_viewsSize (vs.drop k)
  rw [List.length_drop] at hdrop
  omega

/-! ## From the gateway to the bridge -/

/-- A datagram that leaves frames behind is nearly full. -/
theorem packed_eq_self_of_le {fs : List CanfdFrame} (hle : ∀ f ∈ fs, canfdLen f ≤ cnlCanfdMaxDlen)
    (h : cannelloniDataPacketBaseSize + packSize (packed fs) ≤ readBufLen) : packed fs = fs := by
  cases hrest : fs.drop (packCount cannelloniDataPacketBaseSize fs) with
  | nil =>
    rw [List.drop_eq_nil_iff] at hrest
    exact List.take_of_length_le hrest
  | cons f rest =>
    have hmax := packCount_maximal hrest
    have hf : canfdLen f ≤ cnlCanfdMaxDlen := by
      apply hle
      have hmem : f ∈ fs.drop (packCount cannelloniDataPacketBaseSize fs) := by
        rw [hrest]
        exact List.mem_cons_self
      exact List.mem_of_mem_drop hmem
    unfold packed at h
    simp only [frameSize, cannelloniFrameBaseSize, cannelloniDataPacketBaseSize, readBufLen,
      txPbufLen, cnlCanfdMaxDlen] at *
    omega

/-- The bridge reads a datagram of classic frames that fits its buffer. -/
theorem UdpEndpoint.read_datagramOf {fs : List CanfdFrame} (hclassic : ∀ f ∈ fs, f.Classic)
    (hsize : cannelloniDataPacketBaseSize + packSize fs ≤ readBufLen) (stack : Stack)
    (seqNo : UInt8) :
    ∃ out, UdpEndpoint.read stack (datagramOf seqNo fs) [] = .ok ⟨out, 0⟩ ∧
      out.map CanFrame.view = fs.map CanfdFrame.view := by
  have hle : ∀ f ∈ fs, canfdLen f ≤ cnlCanfdMaxDlen := fun f hf => (hclassic f hf).len_le
  have hviews := viewsSize_view fun f hf => (hclassic f hf).not_fd
  have hlen := length_datagramOf hle seqNo
  have hcount := length_le_packSize fs
  simp only [cannelloniDataPacketBaseSize, readBufLen] at hsize hlen
  apply UdpEndpoint.read_complete
  · intro hnil
    rw [hnil] at hlen
    simp at hlen
    omega
  · rw [hlen]
    exact hsize
  · intro v hv
    obtain ⟨f, hf, rfl⟩ := List.mem_map.mp hv
    exact viewOk_view (hclassic f hf).not_fd (hle f hf)
  · rw [hviews, Bytes.slice_ofList_of_le (by rw [hlen]), ← flatMap_wireBytes]
    have hdrop : (datagramOf seqNo fs).drop 5 = fs.flatMap wireBytes := rfl
    rw [hdrop, ← length_flatMap_wireBytes hle, List.take_length]
  · rw [hviews]
    exact hsize
  · intro k hk
    have := viewsSize_take_lt hk
    rw [hviews] at this
    omega
  · rw [hlen, hviews]
  · rw [List.length_map]
    exact Bytes.ofBe16_bytes (by omega)

/-- Whatever the bridge reads fits its buffer. -/
theorem packSize_le_of_read {fs : List CanfdFrame} (hfd : ∀ f ∈ fs, ¬ IsFd f.len) {stack : Stack}
    {d : List UInt8} {r : Received} (h : UdpEndpoint.read stack d [] = .ok r)
    (hviews : r.frames.map CanFrame.view = fs.map CanfdFrame.view) :
    cannelloniDataPacketBaseSize + packSize fs ≤ readBufLen := by
  have hroom := (UdpEndpoint.read_sound h).2
  rw [hviews, viewsSize_view hfd] at hroom
  exact hroom

/-- The datagram sent for a queue of classic frames, which the bridge reads as the frames that
left the queue. -/
def BridgeReads (n : Node) (spill : Slot → ℕ → UInt8) (payload : ℕ → UInt8) (stack : Stack) :
    Prop :=
  ∃ d r fs, (transmitUdpFrame spill (some payload) n).sent = some d ∧
    n.rxFrames = fs ++ (transmitUdpFrame spill (some payload) n).node.rxFrames ∧
    UdpEndpoint.read stack d.payload [] = .ok r ∧
    r.frames.map CanFrame.view = fs.map CanfdFrame.view ∧ r.missing = 0

section BridgeReads

variable {n : Node} (hv : n.handle.Valid) (he : ¬ n.handle.rxQueue.Empty)
  (hclassic : ∀ f ∈ n.rxFrames, f.Classic) {spill : Slot → ℕ → UInt8} {payload : ℕ → UInt8}
  {stack : Stack}
include hv he hclassic

theorem bridgeReads_of_packSize_le
    (hsize : cannelloniDataPacketBaseSize + packSize n.rxFrames ≤ readBufLen) :
    BridgeReads n spill payload stack := by
  have hsends := transmitUdpFrame_sent spill hv he payload
  have hpacked : packed n.rxFrames = n.rxFrames := by
    apply packed_eq_self
    simp only [readBufLen, txPbufLen] at hsize ⊢
    omega
  have hsent := hsends.sent_eq fun f hf => (hclassic f (List.mem_of_mem_take hf)).len_le
  obtain ⟨out, hread, hviews⟩ := UdpEndpoint.read_datagramOf hclassic hsize stack
    n.handle.sequenceNumber.toUInt8
  rw [hpacked] at hsent
  refine ⟨_, _, n.rxFrames, hsent, ?_, hread, hviews, rfl⟩
  have hsplit := hsends.rxFrames_eq
  rw [hpacked] at hsplit
  exact hsplit

theorem packSize_le_of_bridgeReads (h : BridgeReads n spill payload stack) :
    cannelloniDataPacketBaseSize + packSize n.rxFrames ≤ readBufLen := by
  obtain ⟨d, r, fs, -, hsplit, hread, hviews, -⟩ := h
  have hsends := transmitUdpFrame_sent spill hv he payload
  -- the frames that left the queue are those that were packed
  obtain rfl : fs = packed n.rxFrames := by
    rw [hsends.rxFrames_eq] at hsplit
    exact (List.append_cancel_right hsplit).symm
  have hsize : cannelloniDataPacketBaseSize + packSize (packed n.rxFrames) ≤ readBufLen :=
    packSize_le_of_read (fun f hf => (hclassic f (List.mem_of_mem_take hf)).not_fd) hread hviews
  rw [packed_eq_self_of_le (fun f hf => (hclassic f hf).len_le) hsize] at hsize
  exact hsize

end BridgeReads

/-- The bridge reads the next datagram as exactly the frames that were packed, with none
reported missing, exactly when all queued frames together fit the bridge's buffer. -/
theorem bridgeReads_iff (n : Node) (hv : n.handle.Valid) (he : ¬ n.handle.rxQueue.Empty)
    (hclassic : ∀ f ∈ n.rxFrames, f.Classic) (spill : Slot → ℕ → UInt8) (payload : ℕ → UInt8)
    (stack : Stack) :
    BridgeReads n spill payload stack ↔
      cannelloniDataPacketBaseSize + packSize n.rxFrames ≤ readBufLen :=
  ⟨packSize_le_of_bridgeReads hv he hclassic, bridgeReads_of_packSize_le hv he hclassic⟩

/-- A full-length classic data frame. -/
def CanfdFrame.full : CanfdFrame := ⟨1, 8, 0, Vector.replicate _ 7⟩

theorem CanfdFrame.full_classic : CanfdFrame.full.Classic := ⟨by decide, by decide, by decide⟩

/-- Local variables that happen to be zero. -/
def Stack.zero : Stack := ⟨fun _ => 0, fun _ => ⟨0, 0, Vector.replicate _ 0⟩⟩

/-- Three queued frames. -/
theorem bridgeReads_three : BridgeReads (.backlog 3 .full) (fun _ _ => 0) (fun _ => 0) .zero :=
  (bridgeReads_iff (.backlog 3 .full) (Node.backlog_valid (by decide) _)
    (Node.not_empty_backlog (by decide) _)
    (by
      intro f hf
      rw [Node.rxFrames_backlog] at hf
      rw [List.eq_of_mem_replicate hf]
      exact CanfdFrame.full_classic)
    (fun _ _ => 0) (fun _ => 0) .zero).mpr (by decide)

/-- Eighty frames of eight bytes are packed into one datagram, and the bridge has room for
seventy-eight. -/
theorem bridge_cuts_off :
    ¬ ∀ (n : Node) (spill : Slot → ℕ → UInt8) (payload : ℕ → UInt8) (stack : Stack),
      n.handle.Valid → ¬ n.handle.rxQueue.Empty → (∀ f ∈ n.rxFrames, f.Classic) →
      BridgeReads n spill payload stack := by
  intro h
  have hvalid := Node.backlog_valid (k := 80) (by decide) CanfdFrame.full
  have hempty := Node.not_empty_backlog (k := 80) (by decide) CanfdFrame.full
  have hclassic : ∀ f ∈ (Node.backlog 80 .full).rxFrames, f.Classic := by
    intro f hf
    rw [Node.rxFrames_backlog] at hf
    rw [List.eq_of_mem_replicate hf]
    exact CanfdFrame.full_classic
  have hsize := packSize_le_of_bridgeReads hvalid hempty hclassic
    (h _ (fun _ _ => 0) (fun _ => 0) .zero hvalid hempty hclassic)
  rw [Node.rxFrames_backlog] at hsize
  exact absurd hsize (by decide)

/-! ## From the bridge to the gateway -/

/-- A frame of a SocketCAN interface as the gateway holds it. -/
def CanFrame.toCanfd (f : CanFrame) : CanfdFrame := ⟨f.canId, f.canDlc, 0, f.data⟩

/-- The datagram the bridge makes of one frame. -/
theorem UdpEndpoint.write_singleton (o : Bytes.ByteOrder) {f : CanFrame}
    (h : f.canDlc.toNat ≤ canMaxDlen) :
    UdpEndpoint.write o [f] = .ok (packetHeader 0 1 ++ wireBytes f.toCanfd) := by
  have hfd : ¬ IsFd f.canDlc := not_isFd_of_le h
  have hlen : canfdLen f.toCanfd = f.canDlc.toNat := dlcOf_of_not_isFd hfd
  have hbytes : [2, 0, 0, 0, 1] ++ o.store32 (o.htonl f.canId) ++ [f.canDlc]
      ++ f.data.toList.take f.canDlc.toNat = packetHeader 0 1 ++ wireBytes f.toCanfd := by
    rw [o.store32_htonl, wireBytes, hlen]
    simp only [List.append_assoc, List.singleton_append]
    rfl
  have hroom : ¬ (packetHeader 0 1 ++ wireBytes f.toCanfd).length > writeBufLen := by
    have hle : canfdLen f.toCanfd ≤ cnlCanfdMaxDlen := by
      rw [hlen]
      exact h
    have hheader : (packetHeader 0 1).length = 5 := rfl
    rw [List.length_append, length_wireBytes hle, hheader]
    simp only [frameSize, cannelloniFrameBaseSize, cnlCanfdMaxDlen, writeBufLen] at hle ⊢
    omega
  simp only [UdpEndpoint.write, List.foldlM_cons, List.foldlM_nil, writeFrame,
    if_neg (not_lt.mpr h)]
  rw [hbytes, if_neg hroom]
  rfl

/-- A frame that the bridge reads from a CAN interface and sends arrives in `tx_queue` with its
identifier and length, without flags and, unless it is a remote frame, with its data. -/
theorem bridge_frame_received (o : Bytes.ByteOrder) (f : CanFrame)
    (hdlc : f.canDlc.toNat ≤ canMaxDlen) (n : Node) (hv : n.handle.Valid)
    (hfull : ¬ n.handle.txQueue.Full) (spare : ℕ → UInt8) :
    ∃ frames d, CanEndpoint.read (some f) [] = .ok frames ∧ UdpEndpoint.write o frames = .ok d ∧
      ∃ (hd : d.length ≤ maxUdpPayload) (out : Handled),
        handleCannelloniFrame n (some (.contiguous d spare hd)) = .ok out ∧
        (∃ g, out.node.txFrames = n.txFrames ++ [g] ∧ g.canId = f.canId ∧ g.len = f.canDlc ∧
          g.flags = 0 ∧ (¬ IsRtr f.canId →
            g.data.toList.take f.canDlc.toNat = f.data.toList.take f.canDlc.toNat)) ∧
        out.node.rxFrames = n.rxFrames ∧
        out.node.handle.udpRxCount = n.handle.udpRxCount + 1 := by
  have hfd : ¬ IsFd f.canDlc := not_isFd_of_le hdlc
  have hlen : canfdLen f.toCanfd = f.canDlc.toNat := dlcOf_of_not_isFd hfd
  have hle : canfdLen f.toCanfd ≤ cnlCanfdMaxDlen := by
    rw [hlen]
    exact hdlc
  have hd : (packetHeader 0 1 ++ wireBytes f.toCanfd).length ≤ maxUdpPayload := by
    have hheader : (packetHeader 0 1).length = 5 := rfl
    rw [List.length_append, length_wireBytes hle, hheader]
    simp only [frameSize, cannelloniFrameBaseSize, cnlCanfdMaxDlen, maxUdpPayload] at hle ⊢
    omega
  have hfree : 1 ≤ n.handle.txQueue.free := by
    have hpush : n.handle.txQueue.push.free + 1 = n.handle.txQueue.free :=
      Ring.Cursor.free_push hv.tx hfull
    omega
  -- a remote frame is written with its data, which the callback does not look at
  have hpre : [f.toCanfd].flatMap recordBytes <+: wireBytes f.toCanfd := by
    simpa using recordBytes_prefix_wireBytes hfd
  obtain ⟨out, hout, hs, hcount, hreading⟩ := handleCannelloniFrame_reads hv.tx
    (List.cons_ne_nil _ _) (by simpa using hle) hpre hfree spare hd
  refine ⟨[f], _, rfl, UdpEndpoint.write_singleton o hdlc, hd, out, hout, ?_,
    hs.rxFrames_eq hv, hcount⟩
  -- one frame was stored
  obtain ⟨g, hg⟩ : ∃ g, out.stored = [g] := by
    rw [← List.length_eq_one_iff, ← List.length_map (f := CanfdFrame.reading), hreading]
    rfl
  have hgf : g.reading = f.toCanfd.reading := by
    rw [← CanfdFrame.onWire_eq_self (f := f.toCanfd) fun _ => rfl]
    simpa [hg] using hreading
  obtain ⟨hid, hglen, hflags, hdata⟩ := CanfdFrame.reading_eq_iff.mp hgf
  rw [hlen] at hdata
  exact ⟨g, by rw [hs.txFrames_eq, hg], hid, hglen, hflags, hdata⟩

/-- A remote frame with a length, to an empty queue. -/
theorem bridge_frame_received_remote :
    ∃ frames d, CanEndpoint.read (some ⟨0x40000001, 3, Vector.replicate _ 9⟩) [] = .ok frames ∧
      UdpEndpoint.write .littleEndian frames = .ok d ∧
      ∃ (hd : d.length ≤ maxUdpPayload) (out : Handled),
        handleCannelloniFrame ⟨zeroMemory, initCannelloni (mainInit 0 0)⟩
          (some (.contiguous d (fun _ => 0) hd)) = .ok out ∧
        ∃ g, out.node.txFrames = [g] ∧ g.canId = 0x40000001 ∧ g.len = 3 := by
  obtain ⟨frames, d, hframes, hd, hle, out, hout, ⟨g, hg, hid, hlen, -⟩, -⟩ :=
    bridge_frame_received .littleEndian ⟨0x40000001, 3, Vector.replicate _ 9⟩ (by decide)
      ⟨zeroMemory, initCannelloni (mainInit 0 0)⟩ (initCannelloni_valid _) (by decide) fun _ => 0
  exact ⟨frames, d, hframes, hd, hle, out, hout, g, hg, hid, hlen⟩

end Cannelloni
