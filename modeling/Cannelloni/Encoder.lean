import Cannelloni.Handle

/-!
# The datagram writer (`transmit_udp_frame`)

The function packs frames from `rx_queue` into a packet buffer of 1200 bytes as long as they
fit, writes the packet header last and sends what it packed. `packCount` says how many frames
the loop takes, `packSize` how many bytes they need; `packLoop_spec` is what the loop does,
`transmitUdpFrame_sent` what a call that got a buffer does.
-/

namespace Cannelloni

/-- Length of the packet buffer `transmit_udp_frame` asks for. -/
@[simp] def txPbufLen : ℕ := 1200

/-- A datagram handed to `udp_sendto`. -/
structure Datagram where
  remotePort : UInt16
  payload : List UInt8
deriving DecidableEq, Repr

/-! ## The code -/

/-- `frame->data[i]` as a copy reads it: behind the end of the array whatever memory holds. -/
def CanfdFrame.dataByte (f : CanfdFrame) (spill : ℕ → UInt8) (i : ℕ) : UInt8 :=
  if h : i < cnlCanfdMaxDlen then f.data[i] else spill i

/-- The variables of the packing loop. -/
structure PackLoop where
  rxQueue : FramesQueue
  frame : Option Slot
  payload : ℕ → UInt8
  pos : ℕ
  frameCount : ℕ

/-- The loop body behind `queue_take`: write the frame, peek at the next one. -/
def PackLoop.write (s : PackLoop) (f : CanfdFrame) (spill : ℕ → UInt8) (q : FramesQueue) :
    PackLoop :=
  let payload := Bytes.writeBytes s.payload s.pos (Bytes.be32 f.canId)
  let pos := s.pos + 4
  let payload := Bytes.writeBytes payload pos [f.len]
  let pos := pos + 1
  let payload := Bytes.writeBytes payload pos
    ((List.range (canfdLen f)).map (f.dataByte spill))
  { rxQueue := q, frame := queuePeek q, payload := payload, pos := pos + canfdLen f,
    frameCount := s.frameCount + 1 }

/-- The `while` loop. Each pass takes a frame, so as many passes as the queue has slots are
always enough (`packLoop_spec`). The position stays below 1200 and the count below the
number of slots, so neither 16-bit variable wraps. -/
def packLoop (mem : Memory) (spill : Slot → ℕ → UInt8) : ℕ → PackLoop → PackLoop
  | 0, s => s
  | fuel + 1, s =>
    match s.frame with
    | none => s
    | some slot =>
      -- the frame fits: remove it from the queue
      if s.pos + cannelloniFrameBaseSize + canfdLen (mem slot) < txPbufLen then
        match queueTake s.rxQueue with
        | (none, _) => s
        | (some slot, q) => packLoop mem spill fuel (s.write (mem slot) (spill slot) q)
      else s

/-- The packet header: version, operation, sequence number, and `htons(frameCount)` as the
big-endian target stores it. -/
def packetHeader (seqNo : UInt8) (frameCount : ℕ) : List UInt8 :=
  [cannelloniFrameVersion, OpCodes.cnlData.toUInt8, seqNo] ++ Bytes.be16 frameCount

/-- What a call leaves behind: its return value, the new state, and the datagram it sent. -/
structure Transmitted where
  more : Bool
  node : Node
  sent : Option Datagram

/-- `transmit_udp_frame`. `pbuf` is the outcome of `pbuf_alloc`: `none` for `NULL`, otherwise
what the memory of the new buffer happens to hold. -/
def transmitUdpFrame (spill : Slot → ℕ → UInt8) (pbuf : Option (ℕ → UInt8)) (n : Node) :
    Transmitted :=
  match queuePeek n.handle.rxQueue with
  -- nothing to send
  | none => ⟨false, n, none⟩
  | some slot =>
    match pbuf with
    -- allocation error
    | none => ⟨false, n, none⟩
    | some payload =>
      let s := packLoop n.mem spill n.handle.rxQueue.count
        { rxQueue := n.handle.rxQueue, frame := some slot, payload := payload,
          pos := cannelloniDataPacketBaseSize, frameCount := 0 }
      -- the header goes in front of the frames when their number is known
      let header := packetHeader n.handle.sequenceNumber.toUInt8 s.frameCount
      let payload := Bytes.writeBytes s.payload 0 header
      { more := s.frame.isSome
        node := { n with handle := { n.handle with
          rxQueue := s.rxQueue
          sequenceNumber := n.handle.sequenceNumber + 1 } }
        sent := some ⟨n.handle.init.remotePort, Bytes.slice payload 0 s.pos⟩ }

/-! ## What the loop packs -/

/-- Bytes a frame needs in a datagram. -/
def frameSize (f : CanfdFrame) : ℕ := cannelloniFrameBaseSize + canfdLen f

/-- Bytes a list of frames needs in a datagram. -/
def packSize (fs : List CanfdFrame) : ℕ := (fs.map frameSize).sum

/-- How many of the frames fit behind position `pos`. -/
def packCount : ℕ → List CanfdFrame → ℕ
  | _, [] => 0
  | pos, f :: fs =>
    if pos + frameSize f < txPbufLen then packCount (pos + frameSize f) fs + 1 else 0

/-- The frames a datagram takes from the front of the queue. -/
def packed (fs : List CanfdFrame) : List CanfdFrame :=
  fs.take (packCount cannelloniDataPacketBaseSize fs)

/-- The bytes of a frame in a datagram. -/
def wireBytes (f : CanfdFrame) : List UInt8 :=
  Bytes.be32 f.canId ++ f.len :: f.data.toList.take (canfdLen f)

@[simp] theorem packSize_nil : packSize [] = 0 := rfl

@[simp] theorem packSize_cons (f : CanfdFrame) (fs : List CanfdFrame) :
    packSize (f :: fs) = frameSize f + packSize fs := rfl

theorem packSize_append (fs gs : List CanfdFrame) :
    packSize (fs ++ gs) = packSize fs + packSize gs := by
  unfold packSize
  rw [List.map_append, List.sum_append]

/-- Whatever the loop packs stays below the buffer's length. -/
theorem packSize_take_packCount {pos : ℕ} (hpos : pos < txPbufLen) (fs : List CanfdFrame) :
    pos + packSize (fs.take (packCount pos fs)) < txPbufLen := by
  induction fs generalizing pos with
  | nil => simpa [packCount] using hpos
  | cons f fs ih =>
    unfold packCount
    split
    · next hfit =>
      have := ih hfit
      rw [List.take_succ_cons, packSize_cons]
      omega
    · simpa using hpos

/-- The frame that is left next, if any, did not fit. -/
theorem packCount_maximal {pos : ℕ} {fs : List CanfdFrame} {f : CanfdFrame}
    {rest : List CanfdFrame} (h : fs.drop (packCount pos fs) = f :: rest) :
    txPbufLen ≤ pos + packSize (fs.take (packCount pos fs)) + frameSize f := by
  induction fs generalizing pos with
  | nil => simp at h
  | cons g fs ih =>
    unfold packCount at h ⊢
    split at h
    · next hfit =>
      rw [if_pos hfit]
      rw [List.drop_succ_cons] at h
      have := ih h
      rw [List.take_succ_cons, packSize_cons]
      omega
    · next hfit =>
      rw [if_neg hfit]
      obtain ⟨rfl, -⟩ : g = f ∧ fs = rest := by simpa using h
      simp only [List.take_zero, packSize_nil]
      omega

/-- Frames that fit one datagram are all packed. -/
theorem packCount_eq_length {pos : ℕ} {fs : List CanfdFrame} (h : pos + packSize fs < txPbufLen) :
    packCount pos fs = fs.length := by
  induction fs generalizing pos with
  | nil => rfl
  | cons f fs ih =>
    rw [packSize_cons] at h
    rw [packCount, if_pos (by omega), ih (by omega), List.length_cons]

theorem packed_eq_self {fs : List CanfdFrame}
    (h : cannelloniDataPacketBaseSize + packSize fs < txPbufLen) : packed fs = fs := by
  rw [packed, packCount_eq_length h, List.take_length]

theorem length_wireBytes {f : CanfdFrame} (h : canfdLen f ≤ cnlCanfdMaxDlen) :
    (wireBytes f).length = frameSize f := by
  have hdata : (f.data.toList.take (canfdLen f)).length = canfdLen f := by
    rw [List.length_take, Vector.length_toList]
    omega
  unfold wireBytes frameSize
  rw [List.length_append, List.length_cons, hdata, Bytes.length_be32]
  simp only [cannelloniFrameBaseSize]
  omega

theorem length_flatMap_wireBytes {fs : List CanfdFrame}
    (h : ∀ f ∈ fs, canfdLen f ≤ cnlCanfdMaxDlen) :
    (fs.flatMap wireBytes).length = packSize fs := by
  induction fs with
  | nil => rfl
  | cons f fs ih =>
    rw [List.flatMap_cons, List.length_append, length_wireBytes (h f List.mem_cons_self),
      ih fun g hg => h g (List.mem_cons_of_mem f hg), packSize_cons]

/-- A copy that stays inside the array copies the array's first bytes. -/
theorem map_dataByte {f : CanfdFrame} (spill : ℕ → UInt8) (h : canfdLen f ≤ cnlCanfdMaxDlen) :
    (List.range (canfdLen f)).map (f.dataByte spill) = f.data.toList.take (canfdLen f) := by
  apply List.ext_getElem
  · rw [List.length_map, List.length_range, List.length_take, Vector.length_toList]
    omega
  · intro i hi _
    have hi' : i < canfdLen f := by simpa using hi
    have hi8 : i < cnlCanfdMaxDlen := by omega
    rw [List.getElem_map, List.getElem_range, List.getElem_take, CanfdFrame.dataByte,
      dif_pos hi8, Vector.getElem_toList]

/-! ## One pass of the loop -/

section Write

variable (s : PackLoop) (f : CanfdFrame) (spill : ℕ → UInt8) (q : FramesQueue)

@[simp] theorem PackLoop.write_frameCount :
    (s.write f spill q).frameCount = s.frameCount + 1 := rfl

theorem PackLoop.write_pos : (s.write f spill q).pos = s.pos + frameSize f := by
  simp only [write, frameSize, cannelloniFrameBaseSize]
  omega

/-- A pass does not change what was written before. -/
theorem PackLoop.write_payload_of_lt {i : ℕ} (h : i < s.pos) :
    (s.write f spill q).payload i = s.payload i := by
  simp only [write]
  rw [Bytes.writeBytes_of_lt (by omega), Bytes.writeBytes_of_lt (by omega),
    Bytes.writeBytes_of_lt h]

/-- The three writes of a pass are adjacent. -/
theorem PackLoop.write_payload :
    (s.write f spill q).payload = Bytes.writeBytes s.payload s.pos
      (Bytes.be32 f.canId ++ [f.len] ++ (List.range (canfdLen f)).map (f.dataByte spill)) := by
  rw [← Bytes.writeBytes_append, ← Bytes.writeBytes_append]
  rfl

/-- A pass writes the bytes of its frame. -/
theorem PackLoop.slice_write (h : canfdLen f ≤ cnlCanfdMaxDlen) :
    Bytes.slice (s.write f spill q).payload s.pos (frameSize f) = wireBytes f := by
  have hwire : Bytes.be32 f.canId ++ [f.len] ++ (List.range (canfdLen f)).map (f.dataByte spill)
      = wireBytes f := by
    rw [map_dataByte spill h, wireBytes, List.append_assoc]
    rfl
  rw [write_payload, hwire, ← length_wireBytes h, Bytes.slice_writeBytes]

end Write

/-! ## The whole loop -/

/-- The loop takes the frames that fit from the front of the queue and writes them one
behind the other. -/
structure PackLoop.Packs (mem : Memory) (s : PackLoop) (fs : List CanfdFrame) (s' : PackLoop) :
    Prop where
  taken : Taken mem s.rxQueue fs s'.rxQueue
  frame_eq : s'.frame = queuePeek s'.rxQueue
  pos_eq : s'.pos = s.pos + packSize fs
  frameCount_eq : s'.frameCount = s.frameCount + fs.length
  before : ∀ i < s.pos, s'.payload i = s.payload i
  written : (∀ f ∈ fs, canfdLen f ≤ cnlCanfdMaxDlen) →
    Bytes.slice s'.payload s.pos (packSize fs) = fs.flatMap wireBytes

theorem PackLoop.Packs.refl {mem : Memory} {s : PackLoop} (hv : s.rxQueue.Valid)
    (hframe : s.frame = queuePeek s.rxQueue) : PackLoop.Packs mem s [] s where
  taken := Taken.refl hv
  frame_eq := hframe
  pos_eq := rfl
  frameCount_eq := rfl
  before := fun _ _ => rfl
  written := fun _ => rfl

/-- One pass, followed by the rest of the loop. -/
theorem PackLoop.Packs.cons {mem : Memory} (spill : ℕ → UInt8) {s s' : PackLoop}
    {fs : List CanfdFrame} (hv : s.rxQueue.Valid) (he : ¬ s.rxQueue.Empty)
    (h : PackLoop.Packs mem
      (s.write (mem ⟨s.rxQueue.frames, s.rxQueue.head⟩) spill s.rxQueue.pop) fs s') :
    PackLoop.Packs mem s (mem ⟨s.rxQueue.frames, s.rxQueue.head⟩ :: fs) s' where
  taken := ((Taken.refl hv).snoc he).trans h.taken
  frame_eq := h.frame_eq
  pos_eq := by
    rw [h.pos_eq, write_pos, packSize_cons]
    omega
  frameCount_eq := by
    rw [h.frameCount_eq, write_frameCount, List.length_cons]
    omega
  before := by
    intro i hi
    rw [h.before i (by rw [write_pos]; omega), write_payload_of_lt s _ spill _ hi]
  written := by
    intro hle
    have hhead := hle _ List.mem_cons_self
    have htail := h.written fun f hf => hle f (List.mem_cons_of_mem _ hf)
    rw [write_pos] at htail
    rw [packSize_cons, Bytes.slice_add, htail, List.flatMap_cons]
    congr 1
    -- later passes leave the bytes of this one alone
    rw [← slice_write s _ spill s.rxQueue.pop hhead]
    apply Bytes.slice_congr
    intro i hi
    exact h.before _ (by rw [write_pos]; omega)

theorem packLoop_spec (mem : Memory) (spill : Slot → ℕ → UInt8) {fuel : ℕ} {s : PackLoop}
    (hv : s.rxQueue.Valid) (hframe : s.frame = queuePeek s.rxQueue)
    (hfuel : s.rxQueue.held ≤ fuel) :
    s.Packs mem ((s.rxQueue.contents mem).take (packCount s.pos (s.rxQueue.contents mem)))
      (packLoop mem spill fuel s) := by
  induction fuel generalizing s with
  | zero =>
    -- no fuel is left only when nothing is queued
    have hnil : s.rxQueue.contents mem = [] := by
      rw [← List.length_eq_zero_iff, length_contents]
      omega
    rw [hnil]
    exact PackLoop.Packs.refl hv hframe
  | succ fuel ih =>
    by_cases he : s.rxQueue.Empty
    · rw [contents_of_empty hv he]
      rw [queuePeek_of_empty he] at hframe
      simp only [packLoop, hframe]
      exact PackLoop.Packs.refl hv (by rw [hframe, queuePeek_of_empty he])
    · rw [contents_of_not_empty hv he]
      have hpeek := queuePeek_of_not_empty he
      rw [hpeek] at hframe
      by_cases hfit : s.pos + frameSize (mem ⟨s.rxQueue.frames, s.rxQueue.head⟩) < txPbufLen
      · -- the frame fits: it is taken and written, and the loop goes on
        have hpop : s.rxQueue.pop.held + 1 = s.rxQueue.held := Ring.Cursor.held_pop hv he
        have hstep : packLoop mem spill (fuel + 1) s = packLoop mem spill fuel
            (s.write (mem ⟨s.rxQueue.frames, s.rxQueue.head⟩)
              (spill ⟨s.rxQueue.frames, s.rxQueue.head⟩) s.rxQueue.pop) := by
          rw [frameSize, ← Nat.add_assoc] at hfit
          simp only [packLoop, hframe, if_pos hfit, queueTake_of_not_empty he]
        rw [hstep, packCount, if_pos hfit, List.take_succ_cons]
        apply PackLoop.Packs.cons (spill ⟨s.rxQueue.frames, s.rxQueue.head⟩) hv he
        have hrest := ih (s := s.write (mem ⟨s.rxQueue.frames, s.rxQueue.head⟩)
              (spill ⟨s.rxQueue.frames, s.rxQueue.head⟩) s.rxQueue.pop) hv.pop rfl
              (show s.rxQueue.pop.held ≤ fuel by omega)
        rw [PackLoop.write_pos] at hrest
        exact hrest
      · -- the frame stays in the queue for the next datagram
        rw [packCount, if_neg hfit]
        rw [frameSize, ← Nat.add_assoc] at hfit
        simp only [packLoop, hframe, if_neg hfit]
        exact PackLoop.Packs.refl hv (by rw [hframe, hpeek])

/-! ## The whole call -/

section Call

variable {n : Node} (spill : Slot → ℕ → UInt8)

/-- With nothing to send or without a buffer the call does nothing. -/
theorem transmitUdpFrame_of_empty (pbuf : Option (ℕ → UInt8)) (h : n.handle.rxQueue.Empty) :
    transmitUdpFrame spill pbuf n = ⟨false, n, none⟩ := by
  simp only [transmitUdpFrame, queuePeek_of_empty h]

theorem transmitUdpFrame_of_alloc_failed : transmitUdpFrame spill none n = ⟨false, n, none⟩ := by
  unfold transmitUdpFrame
  cases queuePeek n.handle.rxQueue <;> rfl

/-- The header and the packed frames. -/
def datagramOf (seqNo : UInt8) (fs : List CanfdFrame) : List UInt8 :=
  packetHeader seqNo fs.length ++ fs.flatMap wireBytes

/-- A call that finds frames and gets a buffer. -/
structure Sends (n : Node) (o : Transmitted) : Prop where
  taken : Taken n.mem n.handle.rxQueue (packed n.rxFrames) o.node.handle.rxQueue
  mem_eq : o.node.mem = n.mem
  handle_eq : o.node.handle = { n.handle with
    rxQueue := o.node.handle.rxQueue
    sequenceNumber := n.handle.sequenceNumber + 1 }
  more_eq : o.more = true ↔ o.node.rxFrames ≠ []
  sent_eq : (∀ f ∈ packed n.rxFrames, canfdLen f ≤ cnlCanfdMaxDlen) →
    o.sent = some ⟨n.handle.init.remotePort,
      datagramOf n.handle.sequenceNumber.toUInt8 (packed n.rxFrames)⟩

theorem transmitUdpFrame_sent (hv : n.handle.Valid) (he : ¬ n.handle.rxQueue.Empty)
    (payload : ℕ → UInt8) : Sends n (transmitUdpFrame spill (some payload) n) := by
  have hpeek := queuePeek_of_not_empty he
  have hheld := Ring.Cursor.held_lt hv.rx
  set start : PackLoop :=
    { rxQueue := n.handle.rxQueue, frame := some ⟨n.handle.rxQueue.frames, n.handle.rxQueue.head⟩,
      payload := payload, pos := cannelloniDataPacketBaseSize, frameCount := 0 } with hstart
  have hpacks : start.Packs n.mem (packed n.rxFrames)
      (packLoop n.mem spill n.handle.rxQueue.count start) :=
    packLoop_spec n.mem spill hv.rx hpeek.symm hheld.le
  simp only [transmitUdpFrame, hpeek, ← hstart]
  set s' := packLoop n.mem spill n.handle.rxQueue.count start
  refine ⟨hpacks.taken, rfl, rfl, ?_, ?_⟩
  · simp only [Node.rxFrames]
    rw [hpacks.frame_eq, Ne, FramesQueue.contents, Ring.Cursor.contents_eq_nil hpacks.taken.valid]
    by_cases hs : s'.rxQueue.Empty
    · simp [queuePeek_of_empty hs, hs]
    · simp [queuePeek_of_not_empty hs, hs]
  · intro hle
    have hcount : s'.frameCount = (packed n.rxFrames).length := by
      rw [hpacks.frameCount_eq]
      exact Nat.zero_add _
    have hpos : s'.pos = cannelloniDataPacketBaseSize + packSize (packed n.rxFrames) :=
      hpacks.pos_eq
    set header := packetHeader n.handle.sequenceNumber.toUInt8 s'.frameCount with hheader
    have hlen : header.length = cannelloniDataPacketBaseSize := rfl
    -- the header was written last and does not reach the frames
    have hframes : Bytes.slice (Bytes.writeBytes s'.payload 0 header)
        cannelloniDataPacketBaseSize (packSize (packed n.rxFrames))
          = (packed n.rxFrames).flatMap wireBytes := by
      rw [← hpacks.written hle]
      apply Bytes.slice_congr
      intro i _
      apply Bytes.writeBytes_of_le
      rw [hlen]
      omega
    have hbytes : Bytes.slice (Bytes.writeBytes s'.payload 0 header) 0 s'.pos
        = datagramOf n.handle.sequenceNumber.toUInt8 (packed n.rxFrames) := by
      rw [hpos, Bytes.slice_add, Nat.zero_add, hframes, ← hlen, Bytes.slice_writeBytes, hheader,
        hcount, datagramOf]
    exact congrArg (fun d => some (Datagram.mk n.handle.init.remotePort d)) hbytes

/-- A call keeps the handle in order. -/
theorem Sends.valid {o : Transmitted} (hv : n.handle.Valid) (h : Sends n o) :
    o.node.handle.Valid := by
  rw [h.handle_eq]
  exact hv.of_rxQueue rfl rfl h.taken.valid h.taken.frames_eq h.taken.count_eq

theorem transmitUdpFrame_valid (pbuf : Option (ℕ → UInt8)) (hv : n.handle.Valid) :
    (transmitUdpFrame spill pbuf n).node.handle.Valid := by
  by_cases he : n.handle.rxQueue.Empty
  · rw [transmitUdpFrame_of_empty spill pbuf he]
    exact hv
  cases pbuf with
  | none =>
    rw [transmitUdpFrame_of_alloc_failed]
    exact hv
  | some payload => exact (transmitUdpFrame_sent spill hv he payload).valid hv

/-- What was packed and what is left are what was there. -/
theorem Sends.rxFrames_eq {o : Transmitted} (h : Sends n o) :
    n.rxFrames = packed n.rxFrames ++ o.node.rxFrames := by
  have := h.taken.contents_eq
  unfold Node.rxFrames at this ⊢
  rw [h.mem_eq]
  exact this

/-- A call does not touch `tx_queue`. -/
theorem Sends.txFrames_eq {o : Transmitted} (h : Sends n o) : o.node.txFrames = n.txFrames := by
  unfold Node.txFrames
  rw [h.mem_eq, h.handle_eq]

end Call

/-! ## Reading a datagram back -/

/-- The records of a byte string in the layout the loop writes: identifier, length byte, and
as many data bytes as the length says. -/
def readWire : ℕ → List UInt8 → List (UInt32 × UInt8 × List UInt8)
  | fuel + 1, a :: b :: c :: d :: len :: rest =>
    (Bytes.ofBe32 a b c d, len, rest.take (dlcOf len)) :: readWire fuel (rest.drop (dlcOf len))
  | _, _ => []

/-- The frames a datagram carries. -/
def Datagram.carried (d : Datagram) : List (UInt32 × UInt8 × List UInt8) :=
  readWire d.payload.length (d.payload.drop cannelloniDataPacketBaseSize)

theorem readWire_wireBytes {f : CanfdFrame} (h : canfdLen f ≤ cnlCanfdMaxDlen) (fuel : ℕ)
    (rest : List UInt8) :
    readWire (fuel + 1) (wireBytes f ++ rest) = f.view :: readWire fuel rest := by
  have hlen : (f.data.toList.take (canfdLen f)).length = dlcOf f.len := by
    rw [List.length_take, Vector.length_toList]
    exact Nat.min_eq_left h
  have htake : (f.data.toList.take (canfdLen f) ++ rest).take (dlcOf f.len)
      = f.data.toList.take (canfdLen f) := by
    rw [← hlen, List.take_left]
  have hdrop : (f.data.toList.take (canfdLen f) ++ rest).drop (dlcOf f.len) = rest := by
    rw [← hlen, List.drop_left]
  simp only [wireBytes, Bytes.be32, List.cons_append, List.nil_append, readWire, htake, hdrop,
    Bytes.ofBe32_bytes, CanfdFrame.view]

theorem readWire_flatMap {fs : List CanfdFrame} (h : ∀ f ∈ fs, canfdLen f ≤ cnlCanfdMaxDlen)
    {fuel : ℕ} (hfuel : fs.length ≤ fuel) :
    readWire fuel (fs.flatMap wireBytes) = fs.map CanfdFrame.view := by
  induction fs generalizing fuel with
  | nil => cases fuel <;> rfl
  | cons f fs ih =>
    obtain ⟨fuel, rfl⟩ : ∃ k, fuel = k + 1 := ⟨fuel - 1, by simp at hfuel; omega⟩
    rw [List.flatMap_cons, readWire_wireBytes (h f List.mem_cons_self), List.map_cons,
      ih (fun g hg => h g (List.mem_cons_of_mem f hg)) (by simpa using hfuel)]

theorem length_datagramOf {fs : List CanfdFrame} (h : ∀ f ∈ fs, canfdLen f ≤ cnlCanfdMaxDlen)
    (seqNo : UInt8) :
    (datagramOf seqNo fs).length = cannelloniDataPacketBaseSize + packSize fs := by
  rw [datagramOf, List.length_append, length_flatMap_wireBytes h]
  rfl

theorem length_le_packSize (fs : List CanfdFrame) : fs.length ≤ packSize fs := by
  induction fs with
  | nil => rfl
  | cons f fs ih =>
    rw [List.length_cons, packSize_cons, frameSize]
    simp only [cannelloniFrameBaseSize]
    omega

/-- A datagram carries exactly the frames it was made of. -/
theorem carried_datagramOf {fs : List CanfdFrame} (h : ∀ f ∈ fs, canfdLen f ≤ cnlCanfdMaxDlen)
    (port : UInt16) (seqNo : UInt8) :
    Datagram.carried ⟨port, datagramOf seqNo fs⟩ = fs.map CanfdFrame.view := by
  have hdrop : (datagramOf seqNo fs).drop cannelloniDataPacketBaseSize = fs.flatMap wireBytes := rfl
  have hlen := length_le_packSize fs
  rw [Datagram.carried, hdrop]
  apply readWire_flatMap h
  rw [length_datagramOf h]
  omega

end Cannelloni
