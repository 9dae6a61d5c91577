import Cannelloni.Gateway

/-!
# Draining `rx_queue`

The loop `while (transmit_udp_frame(handle));` of `run_cannelloni`, for any frames in the queue:
the length byte of a frame may say up to 127 bytes, more than the data array has. A call that
sends a datagram takes a frame at least, since an empty datagram has room for every frame, and the
loop ends with the queue or with the first failure of `pbuf_alloc`.
-/

namespace Cannelloni

/-! ## The code -/

/-- `while (transmit_udp_frame(handle));` as far as `passes` passes go, with the outcome of
`pbuf_alloc` for each pass: the node and the datagrams sent, or `none` if that is not the end. -/
def transmitUdpWhile (spill : Slot → ℕ → UInt8) :
    ℕ → (ℕ → Option (ℕ → UInt8)) → Node → Option (Node × List Datagram)
  | 0, _, _ => none
  | passes + 1, pbufs, n =>
    let o := transmitUdpFrame spill (pbufs 0) n
    if o.more then
      (transmitUdpWhile spill passes (fun k => pbufs (k + 1)) o.node).map
        fun r => (r.1, o.sent.toList ++ r.2)
    else some (o.node, o.sent.toList)

/-! ## One call -/

theorem canfdLen_lt (f : CanfdFrame) : canfdLen f < 128 := by
  have hall : ∀ len : BitVec 8, (len &&& ~~~128#8).toNat < 128 := by decide
  exact hall f.len.toBitVec

/-- An empty datagram has room for any frame. -/
theorem packed_ne_nil {fs : List CanfdFrame} (h : fs ≠ []) : packed fs ≠ [] := by
  rcases fs with _ | ⟨f, fs⟩
  · exact absurd rfl h
  · have hfit : cannelloniDataPacketBaseSize + frameSize f < txPbufLen := by
      have := canfdLen_lt f
      simp only [frameSize, cannelloniDataPacketBaseSize, cannelloniFrameBaseSize, txPbufLen]
      omega
    unfold packed packCount
    rw [if_pos hfit, List.take_succ_cons]
    exact List.cons_ne_nil _ _

/-- What a call that sends the datagram `d` with the frames `fs` does. -/
structure Progress (n : Node) (o : Transmitted) (d : Datagram) (fs : List CanfdFrame) : Prop where
  nonempty : fs ≠ []
  rxFrames_eq : n.rxFrames = fs ++ o.node.rxFrames
  count : ∃ a b, d.payload[3]? = some a ∧ d.payload[4]? = some b ∧ Bytes.ofBe16 a b = fs.length
  length_eq : d.payload.length = cannelloniDataPacketBaseSize + packSize fs
  length_lt : d.payload.length < txPbufLen
  greedy : ∀ f rest, o.node.rxFrames = f :: rest →
    txPbufLen ≤ d.payload.length + cannelloniFrameBaseSize + canfdLen f
  more_eq : o.more = true ↔ o.node.rxFrames ≠ []

section Call

variable {n : Node} (spill : Slot → ℕ → UInt8)

/-- The length of the datagram and its header, whatever the frames are. -/
theorem transmitUdpFrame_header (hv : n.handle.Valid) (he : ¬ n.handle.rxQueue.Empty)
    (payload : ℕ → UInt8) :
    ∃ d, (transmitUdpFrame spill (some payload) n).sent = some d ∧
      d.payload.length = cannelloniDataPacketBaseSize + packSize (packed n.rxFrames) ∧
      d.payload.take cannelloniDataPacketBaseSize
        = packetHeader n.handle.sequenceNumber.toUInt8 (packed n.rxFrames).length := by
  have hpeek := queuePeek_of_not_empty he
  have hheld := Ring.Cursor.held_lt hv.rx
  set start : PackLoop :=
    { rxQueue := n.handle.rxQueue, frame := some ⟨n.handle.rxQueue.frames, n.handle.rxQueue.head⟩,
      payload := payload, pos := cannelloniDataPacketBaseSize, frameCount := 0 } with hstart
  have hpacks : start.Packs n.mem (packed n.rxFrames)
      (packLoop n.mem spill n.handle.rxQueue.count start) :=
    packLoop_spec n.mem spill hv.rx hpeek.symm hheld.le
  simp only [transmitUdpFrame, hpeek, ← hstart]
  set s' := packLoop n.mem spill n.handle.rxQueue.count start
  have hpos : s'.pos = cannelloniDataPacketBaseSize + packSize (packed n.rxFrames) :=
    hpacks.pos_eq
  have hcount : s'.frameCount = (packed n.rxFrames).length :=
    hpacks.frameCount_eq.trans (Nat.zero_add _)
  set header := packetHeader n.handle.sequenceNumber.toUInt8 s'.frameCount with hheader
  have hlen : header.length = cannelloniDataPacketBaseSize := rfl
  refine ⟨_, rfl, ?_, ?_⟩
  · show (Bytes.slice _ 0 s'.pos).length = _
    rw [Bytes.length_slice, hpos]
  · show (Bytes.slice (Bytes.writeBytes s'.payload 0 header) 0 s'.pos).take _ = _
    rw [Bytes.take_slice _ _ (by omega), ← hlen, Bytes.slice_writeBytes, hheader, hcount]

/-- A call that sends a datagram makes progress. -/
theorem transmitUdpFrame_progress (hv : n.handle.Valid) {pbuf : Option (ℕ → UInt8)} {d : Datagram}
    (h : (transmitUdpFrame spill pbuf n).sent = some d) :
    Progress n (transmitUdpFrame spill pbuf n) d (packed n.rxFrames) := by
  have he : ¬ n.handle.rxQueue.Empty := by
    intro he
    rw [transmitUdpFrame_of_empty spill pbuf he] at h
    simp at h
  rcases pbuf with _ | payload
  · rw [transmitUdpFrame_of_alloc_failed] at h
    simp at h
  · have hsends := transmitUdpFrame_sent spill hv he payload
    rcases transmitUdpFrame_header spill hv he payload with ⟨d', hd', hlength, htake⟩
    obtain rfl : d' = d := Option.some.inj (hd'.symm.trans h)
    have hframes : n.rxFrames ≠ [] := by
      rw [Ne, Node.rxFrames, FramesQueue.contents, Ring.Cursor.contents_eq_nil hv.rx]
      exact he
    have hsize : cannelloniDataPacketBaseSize + packSize (packed n.rxFrames) < txPbufLen :=
      packSize_take_packCount (by decide) n.rxFrames
    have hsplit := hsends.rxFrames_eq
    refine ⟨packed_ne_nil hframes, hsplit, ?_, hlength, by rw [hlength]; exact hsize, ?_,
      hsends.more_eq⟩
    · -- the count is at bytes 3 and 4 and below `2 ^ 16`
      have hbyte : ∀ i < cannelloniDataPacketBaseSize, d'.payload[i]?
          = (packetHeader n.handle.sequenceNumber.toUInt8 (packed n.rxFrames).length)[i]? := by
        intro i hi
        rw [← htake, List.getElem?_take_of_lt hi]
      have hle := length_le_packSize (packed n.rxFrames)
      refine ⟨_, _, (hbyte 3 (by decide)).trans rfl, (hbyte 4 (by decide)).trans rfl, ?_⟩
      simp only [txPbufLen] at hsize
      exact Bytes.ofBe16_bytes (by omega)
    · intro f rest hrest
      have hdrop : n.rxFrames.drop (packCount cannelloniDataPacketBaseSize n.rxFrames)
          = f :: rest := by
        have htd := List.take_append_drop (packCount cannelloniDataPacketBaseSize n.rxFrames)
          n.rxFrames
        have heq := htd.trans hsplit
        rw [hrest] at heq
        exact List.append_cancel_left heq
      have hmax := packCount_maximal hdrop
      unfold frameSize at hmax
      rw [hlength, Nat.add_assoc]
      exact hmax

/-- A call that sends nothing stops the loop and leaves the queue as it was. -/
theorem transmitUdpFrame_not_sent {pbuf : Option (ℕ → UInt8)}
    (h : (transmitUdpFrame spill pbuf n).sent = none) :
    (transmitUdpFrame spill pbuf n).more = false ∧ (transmitUdpFrame spill pbuf n).node = n ∧
      (n.handle.rxQueue.Empty ∨ pbuf = none) := by
  by_cases he : n.handle.rxQueue.Empty
  · rw [transmitUdpFrame_of_empty spill pbuf he]
    exact ⟨rfl, rfl, .inl he⟩
  · rcases pbuf with _ | payload
    · rw [transmitUdpFrame_of_alloc_failed]
      exact ⟨rfl, rfl, .inr rfl⟩
    · simp [transmitUdpFrame, queuePeek_of_not_empty he] at h

end Call

/-! ## The loop -/

/-- The measure of the loop is the number of queued frames: a pass that is not the last one takes
some of them. -/
theorem transmitUdpWhile_ends (spill : Slot → ℕ → UInt8) (pbufs : ℕ → Option (ℕ → UInt8))
    {n : Node} (hv : n.handle.Valid) :
    ∃ passes ≤ n.rxFrames.length + 1, ∃ n' sent,
      transmitUdpWhile spill passes pbufs n = some (n', sent) ∧
      ((∀ k < passes, pbufs k ≠ none) → n'.rxFrames = []) := by
  obtain ⟨m, hm⟩ : ∃ m, n.rxFrames.length = m := ⟨_, rfl⟩
  induction m using Nat.strong_induction_on generalizing n pbufs with
  | _ m ih =>
    have hv' := transmitUdpFrame_valid spill (pbufs 0) hv
    rcases hsent : (transmitUdpFrame spill (pbufs 0) n).sent with _ | d
    · rcases transmitUdpFrame_not_sent spill hsent with ⟨hmore, hnode, hwhy⟩
      refine ⟨1, by omega, n, [], ?_, ?_⟩
      · simp only [transmitUdpWhile, hmore, hnode, hsent]
        rfl
      · intro hall
        rcases hwhy with he | hnone
        · exact contents_of_empty hv.rx he
        · exact absurd hnone (hall 0 (by decide))
    · have hprogress := transmitUdpFrame_progress spill hv hsent
      by_cases hmore : (transmitUdpFrame spill (pbufs 0) n).more = true
      · have hlen : (packed n.rxFrames).length
            + (transmitUdpFrame spill (pbufs 0) n).node.rxFrames.length = m := by
          rw [← hm, ← List.length_append, ← hprogress.rxFrames_eq]
        have hpos := List.length_pos_of_ne_nil hprogress.nonempty
        rcases ih _ (by omega) (fun k => pbufs (k + 1)) hv' rfl with
          ⟨passes, hpasses, n', sent, hloop, hempty⟩
        refine ⟨passes + 1, by omega, n', [d] ++ sent, ?_, ?_⟩
        · simp only [transmitUdpWhile, hmore, if_true, hloop, hsent]
          rfl
        · intro hall
          exact hempty fun k hk => hall (k + 1) (by omega)
      · -- the last datagram took what was left
        have hnil : (transmitUdpFrame spill (pbufs 0) n).node.rxFrames = [] := by
          by_contra hne
          exact hmore (hprogress.more_eq.mpr hne)
        refine ⟨1, by omega, (transmitUdpFrame spill (pbufs 0) n).node, [d], ?_, fun _ => hnil⟩
        simp only [transmitUdpWhile, hmore, hsent]
        rfl

/-- The loop as the turn of the main loop has it, where the outcomes of `pbuf_alloc` are given as a
list, is this loop. -/
theorem transmitUdpLoop_of_while {spill : Slot → ℕ → UInt8} {pbufs : ℕ → Option (ℕ → UInt8)}
    {passes : ℕ} {n : Node} {r : Node × List Datagram}
    (h : transmitUdpWhile spill passes pbufs n = some r) :
    transmitUdpLoop spill ((List.range passes).map pbufs) n = r := by
  induction passes generalizing n pbufs r with
  | zero => simp [transmitUdpWhile] at h
  | succ passes ih =>
    rw [List.range_succ_eq_map, List.map_cons, List.map_map]
    unfold transmitUdpWhile at h
    unfold transmitUdpLoop
    simp only at h ⊢
    split_ifs at h ⊢ with hmore
    · rcases Option.map_eq_some_iff.mp h with ⟨r', hr', rfl⟩
      have hrest := ih hr'
      rw [show (pbufs ∘ Nat.succ) = fun k => pbufs (k + 1) from rfl, hrest]
    · exact Option.some.inj h

/-- Every call that sends a datagram takes frames, counts them, packs as many as fit, and returns
whether frames are left. The loop ends after at most one pass more than there are frames, with any
outcomes of `pbuf_alloc`, and with an empty queue if none of them is a failure. -/
theorem drain_progress (spill : Slot → ℕ → UInt8) {n : Node} (hv : n.handle.Valid) :
    (∀ pbuf d, (transmitUdpFrame spill pbuf n).sent = some d →
      ∃ fs, Progress n (transmitUdpFrame spill pbuf n) d fs) ∧
    ∀ pbufs : ℕ → Option (ℕ → UInt8), ∃ passes ≤ n.rxFrames.length + 1, ∃ n' sent,
      transmitUdpWhile spill passes pbufs n = some (n', sent) ∧
      transmitUdpLoop spill ((List.range passes).map pbufs) n = (n', sent) ∧
      ((∀ k < passes, pbufs k ≠ none) → n'.rxFrames = []) := by
  constructor
  · intro pbuf d h
    exact ⟨_, transmitUdpFrame_progress spill hv h⟩
  · intro pbufs
    rcases transmitUdpWhile_ends spill pbufs hv with ⟨passes, hpasses, n', sent, hloop, hempty⟩
    exact ⟨passes, hpasses, n', sent, hloop, transmitUdpLoop_of_while hloop, hempty⟩

/-- Twenty frames whose length byte says 127. -/
theorem drain_progress_long :
    (∀ pbuf d, (transmitUdpFrame (fun _ _ => 0) pbuf
        (Node.backlog 20 ⟨0, 0x7F, 0, Vector.replicate _ 0⟩)).sent = some d →
      ∃ fs, Progress (Node.backlog 20 ⟨0, 0x7F, 0, Vector.replicate _ 0⟩)
        (transmitUdpFrame (fun _ _ => 0) pbuf
          (Node.backlog 20 ⟨0, 0x7F, 0, Vector.replicate _ 0⟩)) d fs) ∧
    ∀ pbufs : ℕ → Option (ℕ → UInt8),
      ∃ passes ≤ (Node.backlog 20 ⟨0, 0x7F, 0, Vector.replicate _ 0⟩).rxFrames.length + 1,
      ∃ n' sent, transmitUdpWhile (fun _ _ => 0) passes pbufs
          (Node.backlog 20 ⟨0, 0x7F, 0, Vector.replicate _ 0⟩) = some (n', sent) ∧
        transmitUdpLoop (fun _ _ => 0) ((List.range passes).map pbufs)
          (Node.backlog 20 ⟨0, 0x7F, 0, Vector.replicate _ 0⟩) = (n', sent) ∧
        ((∀ k < passes, pbufs k ≠ none) → n'.rxFrames = []) :=
  drain_progress _ (Node.backlog_valid (by decide) _)

end Cannelloni
