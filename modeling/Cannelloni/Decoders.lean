import Mathlib.Algebra.Order.BigOperators.Group.List
import Cannelloni.Interop

/-!
# Two readers of one packet

The callback of the gateway loops on the record count and does not look for data of a remote
frame; the bridge loops on the length of the datagram and takes every frame for a data frame.
`decodersAgree_iff` says on which well-formed packets the two agree.
-/

namespace Cannelloni

/-- What the gateway's layout keeps of a frame the bridge read. -/
def CanFrame.reading (f : CanFrame) : UInt32 × UInt8 × UInt8 × List UInt8 :=
  (f.canId, f.canDlc, 0, if IsRtr f.canId then [] else f.data.toList.take f.canDlc.toNat)

/-- A packet in the layout the callback reads, with nothing behind its last record. -/
def packetOf (seqNo : UInt8) (fs : List CanfdFrame) : List UInt8 :=
  packetHeader seqNo fs.length ++ fs.flatMap recordBytes

/-- The bridge reads the packet as the frames the callback stores. -/
def DecodersAgree (n : Node) (d : List UInt8) (spare : ℕ → UInt8) (stack : Stack) : Prop :=
  ∃ (hd : d.length ≤ maxUdpPayload) (o : Handled) (r : Received),
    handleCannelloniFrame n (some (.contiguous d spare hd)) = .ok o ∧
    UdpEndpoint.read stack d [] = .ok r ∧
    r.frames.map CanFrame.reading = o.stored.map CanfdFrame.reading

section Decoders

variable {fs init : List CanfdFrame} {last : CanfdFrame}

theorem length_packetOf (hle : ∀ f ∈ fs, canfdLen f ≤ cnlCanfdMaxDlen) (seqNo : UInt8) :
    (packetOf seqNo fs).length = 5 + (fs.map recordSize).sum := by
  rw [packetOf, List.length_append, length_flatMap_recordBytes hle]
  rfl

/-- What the callback stores is settled, so the bridge has to read just that. -/
theorem decodersAgree_iff_read {n : Node} (hv : n.handle.Valid) {seqNo : UInt8} (hne : fs ≠ [])
    (hle : ∀ f ∈ fs, canfdLen f ≤ cnlCanfdMaxDlen) (hfree : fs.length ≤ n.handle.txQueue.free)
    (hd : (packetOf seqNo fs).length ≤ maxUdpPayload) (spare : ℕ → UInt8) (stack : Stack) :
    DecodersAgree n (packetOf seqNo fs) spare stack ↔
      ∃ r, UdpEndpoint.read stack (packetOf seqNo fs) [] = .ok r ∧
        r.frames.map CanFrame.reading = fs.map fun f => f.onWire.reading := by
  obtain ⟨o, ho, -, -, hreading⟩ := handleCannelloniFrame_reads hv.tx hne hle
    (List.prefix_refl _) hfree spare hd
  constructor
  · intro h
    rcases h with ⟨_, o', r, ho', hr, heq⟩
    obtain rfl : o = o' := Except.ok.inj (ho.symm.trans ho')
    exact ⟨r, hr, heq.trans hreading⟩
  · intro h
    rcases h with ⟨r, hr, heq⟩
    exact ⟨hd, o, r, ho, hr, heq.trans hreading.symm⟩

/-- What the bridge takes for the last frame of a packet: when it is a remote frame, its data
are whatever the buffer holds behind the packet. -/
def lastView (buffer : ℕ → UInt8) (len : ℕ) (f : CanfdFrame) : UInt32 × UInt8 × List UInt8 :=
  (f.canId, f.len, if IsRtr f.canId then Bytes.slice buffer len (canfdLen f)
    else f.data.toList.take (canfdLen f))

/-- How many bytes behind the packet these are. -/
def overrun (f : CanfdFrame) : ℕ := if IsRtr f.canId then canfdLen f else 0

theorem viewBytes_lastView (hfd : ¬ IsFd last.len) (buffer : ℕ → UInt8) (len : ℕ) :
    viewBytes (lastView buffer len last)
      = recordBytes last ++ Bytes.slice buffer len (overrun last) := by
  unfold lastView viewBytes recordBytes readingBytes CanfdFrame.reading overrun
  simp only [if_neg hfd, List.nil_append]
  by_cases h : IsRtr last.canId
  · simp only [if_pos h, List.append_assoc, List.cons_append, List.nil_append]
  · have hnil : Bytes.slice buffer len 0 = [] := rfl
    simp only [if_neg h, hnil, List.append_nil]

theorem viewSize_lastView (hfd : ¬ IsFd last.len) (buffer : ℕ → UInt8) (len : ℕ) :
    viewSize (lastView buffer len last) = recordSize last + overrun last := by
  have hlen : last.len.toNat = canfdLen last := (dlcOf_of_not_isFd hfd).symm
  unfold viewSize lastView recordSize overrun
  simp only [cannelloniFrameBaseSize, if_neg hfd, hlen]
  split <;> omega

theorem viewOk_lastView (hfd : ¬ IsFd last.len) (hle : canfdLen last ≤ cnlCanfdMaxDlen)
    (buffer : ℕ → UInt8) (len : ℕ) : ViewOk (lastView buffer len last) where
  length_eq := by
    have hlen : last.len.toNat = canfdLen last := (dlcOf_of_not_isFd hfd).symm
    unfold lastView
    simp only [hlen]
    split
    · exact Bytes.length_slice _ _ _
    · exact length_take_data hle
  dlc_le := by
    rw [canfdLen, dlcOf_of_not_isFd hfd] at hle
    exact hle

/-- The part of a view that the gateway's layout keeps. -/
def viewReading (v : UInt32 × UInt8 × List UInt8) : UInt32 × UInt8 × UInt8 × List UInt8 :=
  (v.1, v.2.1, 0, if IsRtr v.1 then [] else v.2.2)

theorem map_reading_eq (out : List CanFrame) :
    out.map CanFrame.reading = (out.map CanFrame.view).map viewReading := by
  rw [List.map_map]
  rfl

/-- What the layout keeps stands at the beginning. -/
theorem readingBytes_prefix_viewBytes {v : UInt32 × UInt8 × List UInt8} (hfd : ¬ IsFd v.2.1) :
    readingBytes (viewReading v) <+: viewBytes v := by
  obtain ⟨canId, len, data⟩ := v
  unfold readingBytes viewReading viewBytes
  simp only at hfd ⊢
  rw [if_neg hfd, List.nil_append]
  by_cases hrtr : IsRtr canId
  · rw [if_pos hrtr]
    refine ⟨data, ?_⟩
    rw [List.append_assoc]
    rfl
  · simp only [if_neg hrtr, List.prefix_refl]

theorem onWire_reading_eq {f : CanfdFrame} (hfd : ¬ IsFd f.len) :
    f.onWire.reading = viewReading f.view := by
  unfold CanfdFrame.onWire CanfdFrame.reading viewReading CanfdFrame.view
  rw [if_neg hfd]
  rfl

theorem onWire_reading_eq_lastView (hfd : ¬ IsFd last.len) (buffer : ℕ → UInt8) (len : ℕ) :
    last.onWire.reading = viewReading (lastView buffer len last) := by
  rw [onWire_reading_eq hfd]
  unfold viewReading CanfdFrame.view lastView
  by_cases h : IsRtr last.canId
  · simp only [if_pos h]
  · simp only [if_neg h]

section Snoc

variable (hfd : ∀ f ∈ init ++ [last], ¬ IsFd f.len)
  (hrtr : ∀ f ∈ init, IsRtr f.canId → canfdLen f = 0) (buffer : ℕ → UInt8) (len : ℕ)
include hfd hrtr

/-- The bytes the bridge reads are those of the packet and some behind it. -/
theorem flatMap_viewBytes_snoc :
    (init.map CanfdFrame.view ++ [lastView buffer len last]).flatMap viewBytes
      = (init ++ [last]).flatMap recordBytes ++ Bytes.slice buffer len (overrun last) := by
  have hinit : init.flatMap recordBytes = (init.map CanfdFrame.view).flatMap viewBytes := by
    rw [List.flatMap_map]
    apply List.flatMap_congr
    intro f hf
    exact recordBytes_eq_wireBytes (hfd f (List.mem_append_left _ hf)) (hrtr f hf)
  rw [List.flatMap_append, List.flatMap_append, List.flatMap_singleton, List.flatMap_singleton,
    hinit, viewBytes_lastView (hfd last (by simp)), List.append_assoc]

theorem viewsSize_snoc :
    viewsSize (init.map CanfdFrame.view ++ [lastView buffer len last])
      = ((init ++ [last]).map recordSize).sum + overrun last := by
  have hfd_init : ∀ f ∈ init, ¬ IsFd f.len := fun f hf => hfd f (List.mem_append_left _ hf)
  rw [viewsSize_append, viewsSize_view hfd_init, viewsSize_cons,
    viewSize_lastView (hfd last (by simp)), viewsSize_nil, List.map_append, List.sum_append,
    sum_recordSize_eq_packSize hfd_init hrtr, List.map_singleton, List.sum_singleton]
  omega

end Snoc

/-- A packet in which only the last record may be a remote one with a length. -/
theorem read_packetOf (hfd : ∀ f ∈ init ++ [last], ¬ IsFd f.len)
    (hle : ∀ f ∈ init ++ [last], canfdLen f ≤ cnlCanfdMaxDlen)
    (hrtr : ∀ f ∈ init, IsRtr f.canId → canfdLen f = 0) (seqNo : UInt8)
    (hd : (packetOf seqNo (init ++ [last])).length + overrun last ≤ readBufLen) (stack : Stack) :
    ∃ r, UdpEndpoint.read stack (packetOf seqNo (init ++ [last])) [] = .ok r ∧
      r.frames.map CanFrame.reading = (init ++ [last]).map fun f => f.onWire.reading := by
  set d := packetOf seqNo (init ++ [last]) with hd_def
  set buffer := Bytes.ofList d stack.buffer with hbuffer
  set vs := init.map CanfdFrame.view ++ [lastView buffer d.length last] with hvs
  have hfd_init : ∀ f ∈ init, ¬ IsFd f.len := fun f hf => hfd f (List.mem_append_left _ hf)
  have hfd_last : ¬ IsFd last.len := hfd last (by simp)
  have hlen : d.length = 5 + ((init ++ [last]).map recordSize).sum := length_packetOf hle seqNo
  have hviews : viewsSize vs = ((init ++ [last]).map recordSize).sum + overrun last :=
    viewsSize_snoc hfd hrtr buffer d.length
  have hcount : vs.length = (init ++ [last]).length := by simp [hvs]
  have hcount_le := length_le_viewsSize vs
  simp only [readBufLen] at hd
  obtain ⟨out, hread, hout⟩ : ∃ out, UdpEndpoint.read stack d [] = .ok ⟨out, 0⟩ ∧
      out.map CanFrame.view = vs := by
    apply UdpEndpoint.read_complete
    · exact List.ne_nil_of_length_pos (by omega)
    · simp only [readBufLen]
      omega
    · intro v hv
      rcases List.mem_append.mp hv with hv | hv
      · obtain ⟨f, hf, rfl⟩ := List.mem_map.mp hv
        exact viewOk_view (hfd_init f hf) (hle f (List.mem_append_left _ hf))
      · rw [List.mem_singleton.mp hv]
        exact viewOk_lastView hfd_last (hle last (by simp)) _ _
    · have hpacket : Bytes.slice buffer 5 ((init ++ [last]).map recordSize).sum
          = (init ++ [last]).flatMap recordBytes := by
        rw [hbuffer, Bytes.slice_ofList_of_le (by omega), ← length_flatMap_recordBytes hle]
        exact List.take_length
      rw [hviews, Bytes.slice_add, hpacket, ← hlen]
      exact (flatMap_viewBytes_snoc hfd hrtr buffer d.length).symm
    · simp only [readBufLen]
      omega
    · -- the last record starts inside the packet
      intro k hk
      have hk' : k ≤ (init.map CanfdFrame.view).length := by
        rw [hcount, List.length_append, List.length_singleton] at hk
        rw [List.length_map]
        omega
      have hsplit := viewsSize_append (init.map CanfdFrame.view) [lastView buffer d.length last]
      rw [← hvs, viewsSize_cons, viewsSize_nil, viewSize_lastView hfd_last] at hsplit
      have htake := viewsSize_take_le (init.map CanfdFrame.view) k
      have hlast : 5 ≤ recordSize last := five_le_recordSize last
      rw [hvs, List.take_append_of_le_length hk']
      omega
    · omega
    · rw [hcount]
      exact Bytes.ofBe16_bytes (by omega)
  refine ⟨_, hread, ?_⟩
  rw [map_reading_eq, hout, hvs, List.map_append, List.map_append, List.map_map,
    List.map_singleton, List.map_singleton,
    onWire_reading_eq_lastView hfd_last buffer d.length]
  congr 1
  apply List.map_congr_left
  intro f hf
  exact (onWire_reading_eq (hfd_init f hf)).symm

/-- The sizes of frames the bridge read are those of the frames it agrees on. -/
theorem viewsSize_of_reading (hfd : ∀ f ∈ fs, ¬ IsFd f.len) {out : List CanFrame}
    (h : out.map CanFrame.reading = fs.map fun f => f.onWire.reading) :
    viewsSize (out.map CanFrame.view) = packSize fs := by
  have hsizes := congrArg (List.map fun v => 5 + v.2.1.toNat) h
  rw [List.map_map, List.map_map] at hsizes
  have hout : viewsSize (out.map CanFrame.view)
      = (out.map ((fun v => 5 + v.2.1.toNat) ∘ CanFrame.reading)).sum := by
    unfold viewsSize
    rw [List.map_map]
    rfl
  rw [hout, hsizes, ← viewsSize_view hfd, viewsSize, List.map_map]
  rfl

/-- When the bridge agrees on a packet, the bytes where it looks for the last record are those
of that record. -/
theorem slice_last_of_read (hfd : ∀ f ∈ init ++ [last], ¬ IsFd f.len)
    (hle : canfdLen last ≤ cnlCanfdMaxDlen) {buffer : ℕ → UInt8} {out : List CanFrame}
    (hbytes : (out.map CanFrame.view).flatMap viewBytes
      = Bytes.slice buffer 5 (viewsSize (out.map CanFrame.view)))
    (h : out.map CanFrame.reading = (init ++ [last]).map fun f => f.onWire.reading) :
    Bytes.slice buffer (5 + packSize init) (recordSize last) = recordBytes last.onWire := by
  rw [List.map_append, List.map_singleton] at h
  obtain ⟨out₁, out₂, rfl, hinit, hlast⟩ := List.map_eq_append_iff.mp h
  obtain ⟨l, rfl⟩ : ∃ l, out₂ = [l] := by
    rw [← List.length_eq_one_iff, ← List.length_map (f := CanFrame.reading), hlast]
    rfl
  have hfd_last : ¬ IsFd last.len := hfd last (by simp)
  have hsize₁ := viewsSize_of_reading (fun f hf => hfd f (List.mem_append_left _ hf)) hinit
  have hl : viewReading l.view = last.onWire.reading := by
    have : l.reading = last.onWire.reading := by simpa using hlast
    exact this
  have hdlc : l.canDlc = last.len := congrArg (fun v => v.2.1) hl
  have hlen : last.len.toNat = canfdLen last := (dlcOf_of_not_isFd hfd_last).symm
  have hok : ViewOk l.view := by
    refine ⟨?_, ?_⟩
    · show (l.data.toList.take l.canDlc.toNat).length = l.canDlc.toNat
      rw [List.length_take, Vector.length_toList, hdlc, hlen]
      exact Nat.min_eq_left hle
    · show l.canDlc.toNat ≤ canMaxDlen
      rw [hdlc, hlen]
      exact hle
  -- the bytes of the last frame
  rw [List.map_append, List.flatMap_append, viewsSize_append, Bytes.slice_add, hsize₁] at hbytes
  have hview : viewBytes l.view = Bytes.slice buffer (5 + packSize init) (viewSize l.view) := by
    have hright := List.append_inj_right' hbytes (by simp [viewsSize, length_viewBytes hok])
    simpa [viewsSize] using hright
  have hsize : recordSize last ≤ viewSize l.view := by
    have := recordSize_le_frameSize hfd_last
    show recordSize last ≤ 5 + l.canDlc.toNat
    rw [hdlc, hlen]
    exact this
  -- of these the record is the beginning
  have hfd_l : ¬ IsFd l.view.2.1 := by
    show ¬ IsFd l.canDlc
    rw [hdlc]
    exact hfd_last
  have hpre := readingBytes_prefix_viewBytes hfd_l
  rw [hl] at hpre
  have htake := List.prefix_iff_eq_take.mp hpre
  have hlength : (readingBytes last.onWire.reading).length = recordSize last :=
    length_recordBytes (f := last.onWire) hle
  rw [hlength, hview, Bytes.take_slice _ _ hsize] at htake
  exact htake.symm

/-- A remote record with a length makes the bridge look too far. -/
theorem sum_recordSize_lt_packSize (hfd : ∀ f ∈ fs, ¬ IsFd f.len)
    (h : ∃ f ∈ fs, IsRtr f.canId ∧ canfdLen f ≠ 0) : (fs.map recordSize).sum < packSize fs := by
  apply List.sum_lt_sum _ _ fun f hf => recordSize_le_frameSize (hfd f hf)
  obtain ⟨f, hf, hrtr, hlen⟩ := h
  refine ⟨f, hf, ?_⟩
  unfold recordSize frameSize
  rw [if_neg (hfd f hf), if_pos hrtr]
  omega

section Necessary

variable (hfd : ∀ f ∈ init ++ [last], ¬ IsFd f.len)
  (hle : ∀ f ∈ init ++ [last], canfdLen f ≤ cnlCanfdMaxDlen) {seqNo : UInt8}
  (h : ∀ stack, ∃ r, UdpEndpoint.read stack (packetOf seqNo (init ++ [last])) [] = .ok r ∧
    r.frames.map CanFrame.reading = (init ++ [last]).map fun f => f.onWire.reading)
include hfd hle h

/-- When the bridge agrees whatever its buffer held, no remote record but the last has a
length. -/
theorem remote_len_of_reads (hlen : (packetOf seqNo (init ++ [last])).length ≤ readBufLen) :
    ∀ f ∈ init, IsRtr f.canId → canfdLen f = 0 := by
  have hsize := length_packetOf hle seqNo
  rw [List.map_append, List.sum_append, List.map_singleton, List.sum_singleton] at hsize
  have hlast_size := five_le_recordSize last
  have htake : (packetOf seqNo (init ++ [last])).take readBufLen
      = packetOf seqNo (init ++ [last]) := List.take_of_length_le hlen
  have hslice : ∀ b : UInt8, Bytes.slice (Bytes.ofList (packetOf seqNo (init ++ [last]))
      fun _ => b) (5 + packSize init) (recordSize last) = recordBytes last.onWire := by
    intro b
    obtain ⟨r, hr, hreading⟩ := h ⟨fun _ => b, Stack.zero.frame⟩
    have hbytes := (UdpEndpoint.read_sound hr).1
    rw [htake] at hbytes
    exact slice_last_of_read hfd (hle last (by simp)) hbytes hreading
  intro f hf hrtr
  by_contra hpos
  have hlt := sum_recordSize_lt_packSize (fun g hg => hfd g (List.mem_append_left _ hg))
    ⟨f, hf, hrtr, hpos⟩
  -- the last byte of the last record is one behind the packet, where any byte may stand
  have hbyte := Bytes.eq_of_slice_eq ((hslice 0).trans (hslice 1).symm)
    (show recordSize last - 1 < recordSize last by omega)
  rw [Bytes.ofList_of_le (by omega), Bytes.ofList_of_le (by omega)] at hbyte
  exact absurd hbyte (by decide)

/-- The data the bridge takes for that of a last remote record still fits its buffer. -/
theorem room_of_reads (hinit : ∀ f ∈ init, IsRtr f.canId → canfdLen f = 0)
    (hrtr : IsRtr last.canId) :
    (packetOf seqNo (init ++ [last])).length + canfdLen last ≤ readBufLen := by
  have hsize := length_packetOf hle seqNo
  rw [List.map_append, List.sum_append, List.map_singleton, List.sum_singleton] at hsize
  obtain ⟨r, hr, hreading⟩ := h .zero
  have hroom := (UdpEndpoint.read_sound hr).2
  have hinit_size := sum_recordSize_eq_packSize
    (fun g hg => hfd g (List.mem_append_left _ hg)) hinit
  have hrecord : recordSize last = 5 := by
    unfold recordSize
    rw [if_neg (hfd last (by simp)), if_pos hrtr]
    rfl
  rw [viewsSize_of_reading hfd hreading, packSize_append, packSize_cons, packSize_nil,
    frameSize] at hroom
  simp only [cannelloniFrameBaseSize] at hroom
  omega

end Necessary

end Decoders

/-- A well-formed packet of classic records is read by the bridge as the frames the callback
stores, whatever the bridge's buffer held before, exactly when no remote record but the last
one has a length, and the length of the last one, if it is a remote one, still fits the buffer
behind the packet. -/
theorem decodersAgree_iff (n : Node) (hv : n.handle.Valid) (seqNo : UInt8) (fs : List CanfdFrame)
    (hne : fs ≠ []) (hclassic : ∀ f ∈ fs, ¬ IsFd f.len ∧ canfdLen f ≤ cnlCanfdMaxDlen)
    (hfree : fs.length ≤ n.handle.txQueue.free)
    (hlen : (packetOf seqNo fs).length ≤ readBufLen) (spare : ℕ → UInt8) :
    (∀ stack, DecodersAgree n (packetOf seqNo fs) spare stack) ↔
      (∀ f ∈ fs.dropLast, IsRtr f.canId → canfdLen f = 0) ∧
      ∀ f ∈ fs.getLast?, IsRtr f.canId →
        (packetOf seqNo fs).length + canfdLen f ≤ readBufLen := by
  have hfd : ∀ f ∈ fs, ¬ IsFd f.len := fun f hf => (hclassic f hf).1
  have hle : ∀ f ∈ fs, canfdLen f ≤ cnlCanfdMaxDlen := fun f hf => (hclassic f hf).2
  have hmax : (packetOf seqNo fs).length ≤ maxUdpPayload := hlen.trans (by simp)
  rw [forall_congr' fun stack => decodersAgree_iff_read hv hne hle hfree hmax spare stack]
  obtain ⟨init, last, rfl⟩ : ∃ init last, fs = init ++ [last] :=
    ⟨fs.dropLast, fs.getLast hne, (List.dropLast_append_getLast hne).symm⟩
  rw [List.dropLast_concat, List.getLast?_concat]
  constructor
  · intro h
    have hinit := remote_len_of_reads hfd hle h hlen
    refine ⟨hinit, ?_⟩
    intro f hf hrtr
    obtain rfl : last = f := by simpa using hf
    exact room_of_reads hfd hle h hinit hrtr
  · intro h stack
    rcases h with ⟨hinit, hlast⟩
    apply read_packetOf hfd hle hinit seqNo
    unfold overrun
    split
    · next hrtr => exact hlast last rfl hrtr
    · exact hlen

/-- A remote record with a length at the end of a packet. -/
theorem decodersAgree_remote_last :
    DecodersAgree ⟨zeroMemory, initCannelloni (mainInit 0 0)⟩
      (packetOf 0 [.full, ⟨0x40000001, 3, 0, Vector.replicate _ 0⟩]) (fun _ => 0) .zero :=
  (decodersAgree_iff ⟨zeroMemory, initCannelloni (mainInit 0 0)⟩ (initCannelloni_valid _) 0
    [.full, ⟨0x40000001, 3, 0, Vector.replicate _ 0⟩] (by simp) (by decide) (by decide)
    (by decide) fun _ => 0).mpr (by decide) .zero

/-- A remote record with a length before another record. -/
def remoteFirst : List CanfdFrame :=
  [⟨0x40000001, 1, 0, Vector.replicate _ 0⟩, ⟨2, 0, 0, Vector.replicate _ 0⟩]

/-- The bridge takes the first byte of the second identifier for data of the remote frame. -/
theorem decoders_disagree :
    ¬ ∀ (n : Node) (seqNo : UInt8) (fs : List CanfdFrame) (spare : ℕ → UInt8), n.handle.Valid →
      fs ≠ [] → (∀ f ∈ fs, ¬ IsFd f.len ∧ canfdLen f ≤ cnlCanfdMaxDlen) →
      fs.length ≤ n.handle.txQueue.free → (packetOf seqNo fs).length ≤ readBufLen →
      ∀ stack, DecodersAgree n (packetOf seqNo fs) spare stack := by
  intro h
  obtain ⟨hd, o, r, ho, hr, heq⟩ := h ⟨zeroMemory, initCannelloni (mainInit 0 0)⟩ 0 remoteFirst
    (fun _ => 0) (initCannelloni_valid _) (by simp [remoteFirst]) (by decide) (by decide)
    (by decide) .zero
  have hbridge : (UdpEndpoint.read .zero (packetOf 0 remoteFirst) []).map
      (fun r => r.frames.map CanFrame.canId) = .ok [0x40000001, 0x200] := by decide +kernel
  have hgateway : (handleCannelloniFrame ⟨zeroMemory, initCannelloni (mainInit 0 0)⟩
      (some (.contiguous (packetOf 0 remoteFirst) (fun _ => 0) (by decide)))).map
        (fun o => o.stored.map CanfdFrame.canId) = .ok [0x40000001, 2] := by decide +kernel
  rw [hr] at hbridge
  rw [ho] at hgateway
  have hread : r.frames.map CanFrame.canId = [0x40000001, 0x200] := Except.ok.inj hbridge
  have hstored : o.stored.map CanfdFrame.canId = [0x40000001, 2] := Except.ok.inj hgateway
  have hids := congrArg (List.map Prod.fst) heq
  rw [List.map_map, List.map_map] at hids
  have hids' : r.frames.map CanFrame.canId = o.stored.map CanfdFrame.canId := hids
  rw [hread, hstored] at hids'
  exact absurd hids' (by decide)

end Cannelloni
