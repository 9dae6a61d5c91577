import Cannelloni.Decoder
import Cannelloni.Encoder

/-!
# The record layout the callback reads

The callback expects an identifier, a length byte, a flags byte when the length byte carries
the CAN FD bit, and the data bytes unless the identifier carries the RTR flag. `recordBytes`
is this layout. A frame the callback stored shows the bytes it was read from
(`RecordsAt.slice_fillSlots`), and bytes in this layout are read as the frames they were made
of (`records_of_slice`).
-/

namespace Cannelloni

/-! ## Layout -/

/-- What the layout keeps of a frame: everything but the data of a remote frame. -/
def CanfdFrame.reading (f : CanfdFrame) : UInt32 × UInt8 × UInt8 × List UInt8 :=
  (f.canId, f.len, f.flags, if IsRtr f.canId then [] else f.data.toList.take (canfdLen f))

/-- The bytes of an identifier, length byte, flags and data. -/
def readingBytes : UInt32 × UInt8 × UInt8 × List UInt8 → List UInt8
  | (canId, len, flags, data) =>
    Bytes.be32 canId ++ len :: ((if IsFd len then [flags] else []) ++ data)

/-- The bytes of a frame in the layout the callback reads. -/
def recordBytes (f : CanfdFrame) : List UInt8 := readingBytes f.reading

/-- How many bytes these are. -/
def recordSize (f : CanfdFrame) : ℕ :=
  cannelloniFrameBaseSize + (if IsFd f.len then 1 else 0)
    + if IsRtr f.canId then 0 else canfdLen f

/-- The frame as it comes out of the layout, in which a classic frame has no flags. -/
def CanfdFrame.onWire (f : CanfdFrame) : CanfdFrame :=
  { f with flags := if IsFd f.len then f.flags else 0 }

theorem CanfdFrame.onWire_eq_self {f : CanfdFrame} (h : ¬ IsFd f.len → f.flags = 0) :
    f.onWire = f := by
  unfold onWire
  by_cases hfd : IsFd f.len
  · rw [if_pos hfd]
  · rw [if_neg hfd, ← h hfd]

theorem CanfdFrame.reading_eq_iff {f g : CanfdFrame} :
    g.reading = f.reading ↔ g.canId = f.canId ∧ g.len = f.len ∧ g.flags = f.flags ∧
      (¬ IsRtr f.canId →
        g.data.toList.take (canfdLen f) = f.data.toList.take (canfdLen f)) := by
  unfold reading canfdLen
  rw [Prod.mk.injEq, Prod.mk.injEq, Prod.mk.injEq]
  constructor
  · intro h
    rcases h with ⟨hid, hlen, hflags, hdata⟩
    refine ⟨hid, hlen, hflags, fun hrtr => ?_⟩
    rw [hid, hlen, if_neg hrtr, if_neg hrtr] at hdata
    exact hdata
  · intro h
    rcases h with ⟨hid, hlen, hflags, hdata⟩
    refine ⟨hid, hlen, hflags, ?_⟩
    rw [hid, hlen]
    by_cases hrtr : IsRtr f.canId
    · rw [if_pos hrtr, if_pos hrtr]
    · rw [if_neg hrtr, if_neg hrtr, hdata hrtr]

theorem flatMap_recordBytes (fs : List CanfdFrame) :
    fs.flatMap recordBytes = (fs.map CanfdFrame.reading).flatMap readingBytes := by
  rw [List.flatMap_map]
  rfl

theorem length_take_data {f : CanfdFrame} (h : canfdLen f ≤ cnlCanfdMaxDlen) :
    (f.data.toList.take (canfdLen f)).length = canfdLen f := by
  rw [List.length_take, Vector.length_toList]
  omega

theorem length_recordBytes {f : CanfdFrame} (h : canfdLen f ≤ cnlCanfdMaxDlen) :
    (recordBytes f).length = recordSize f := by
  have hflags : (if IsFd f.len then [f.flags] else []).length = if IsFd f.len then 1 else 0 := by
    split <;> rfl
  have hdata : (if IsRtr f.canId then [] else f.data.toList.take (canfdLen f)).length
      = if IsRtr f.canId then 0 else canfdLen f := by
    split
    · rfl
    · exact length_take_data h
  unfold recordBytes readingBytes CanfdFrame.reading recordSize
  rw [List.length_append, List.length_cons, List.length_append, hflags, hdata, Bytes.length_be32]
  simp only [cannelloniFrameBaseSize]
  omega

/-! ## The layout that is written -/

/-- Without the CAN FD bit, what the callback reads is the beginning of what is written. -/
theorem recordBytes_prefix_wireBytes {f : CanfdFrame} (h : ¬ IsFd f.len) :
    recordBytes f <+: wireBytes f := by
  unfold recordBytes readingBytes CanfdFrame.reading wireBytes
  simp only [if_neg h, List.nil_append]
  by_cases hrtr : IsRtr f.canId
  · rw [if_pos hrtr]
    refine ⟨f.data.toList.take (canfdLen f), ?_⟩
    rw [List.append_assoc]
    rfl
  · simp only [if_neg hrtr, List.prefix_refl]

/-- The two layouts of a classic frame differ in the data of a remote frame only. -/
theorem recordBytes_eq_wireBytes {f : CanfdFrame} (hfd : ¬ IsFd f.len)
    (hrtr : IsRtr f.canId → canfdLen f = 0) : recordBytes f = wireBytes f := by
  unfold recordBytes CanfdFrame.reading readingBytes wireBytes
  simp only [if_neg hfd, List.nil_append]
  by_cases h : IsRtr f.canId
  · rw [if_pos h, hrtr h, List.take_zero]
  · rw [if_neg h]

theorem recordSize_eq_frameSize {f : CanfdFrame} (hfd : ¬ IsFd f.len)
    (hrtr : IsRtr f.canId → canfdLen f = 0) : recordSize f = frameSize f := by
  unfold recordSize frameSize
  rw [if_neg hfd, Nat.add_zero]
  by_cases h : IsRtr f.canId
  · rw [if_pos h, hrtr h]
  · rw [if_neg h]

theorem five_le_recordSize (f : CanfdFrame) : 5 ≤ recordSize f := by
  unfold recordSize
  simp only [cannelloniFrameBaseSize]
  omega

theorem recordSize_le_frameSize {f : CanfdFrame} (hfd : ¬ IsFd f.len) :
    recordSize f ≤ frameSize f := by
  unfold recordSize frameSize
  rw [if_neg hfd]
  split <;> omega

theorem sum_recordSize_eq_packSize {fs : List CanfdFrame} (hfd : ∀ f ∈ fs, ¬ IsFd f.len)
    (hrtr : ∀ f ∈ fs, IsRtr f.canId → canfdLen f = 0) : (fs.map recordSize).sum = packSize fs := by
  unfold packSize
  rw [List.map_congr_left fun f hf => recordSize_eq_frameSize (hfd f hf) (hrtr f hf)]

/-! ## Stored frames show the bytes they were read from -/

/-- The records `rs` stand one behind the other from `pos` on. -/
def RecordsAt (rawData : ℕ → UInt8) (totLen : ℕ) : ℕ → List Record → Prop
  | _, [] => True
  | pos, r :: rs => RecordAt rawData totLen pos r ∧ RecordsAt rawData totLen r.next rs

section Sound

variable {rawData : ℕ → UInt8} {totLen pos : ℕ}

theorem recordsAt_records (hlen : totLen ≤ maxUdpPayload) (i pos : ℕ) :
    RecordsAt rawData totLen pos (records rawData totLen i pos) := by
  induction i generalizing pos with
  | zero => trivial
  | succ i ih =>
    unfold records
    split
    · trivial
    · next r hr => exact ⟨(readRecord_eq_some_iff hlen).mp hr, ih r.next⟩

theorem RecordsAt.take {rs : List Record} (h : RecordsAt rawData totLen pos rs) (k : ℕ) :
    RecordsAt rawData totLen pos (rs.take k) := by
  induction rs generalizing pos k with
  | nil => simpa using h
  | cons r rs ih =>
    cases k with
    | zero => trivial
    | succ k => exact ⟨h.1, ih h.2 k⟩

/-- The frame made of a record shows the bytes of the record. -/
theorem RecordAt.slice_eq (hlen : totLen ≤ maxUdpPayload) {r : Record}
    (h : RecordAt rawData totLen pos r) (hfit : r.Fits) (old : CanfdFrame) :
    r.next = pos + recordSize (r.frame rawData old) ∧
      Bytes.slice rawData pos (recordSize (r.frame rawData old))
        = recordBytes (r.frame rawData old) := by
  have hpos := h.pos_eq
  have hnext := h.next_eq hlen
  have hsize : recordSize (r.frame rawData old) = 4 + (1 + ((if IsFd r.len then 1 else 0)
      + if IsRtr r.canId then 0 else dlcOf r.len)) := by
    unfold recordSize
    rw [Record.frame_canId, Record.frame_len, Record.canfdLen_frame]
    simp only [cannelloniFrameBaseSize]
    omega
  simp only [cannelloniFrameBaseSize] at hpos
  refine ⟨by omega, ?_⟩
  -- the four parts of the record: identifier, length, flags and data
  have hlen_byte : Bytes.slice rawData (pos + 4) 1 = [r.len] := by
    rw [h.len_eq, Bytes.slice_one]
  have hflags : Bytes.slice rawData (pos + 4 + 1) (if IsFd r.len then 1 else 0)
      = if IsFd r.len then [r.flags] else [] := by
    have hf := h.flags_eq
    split
    · next hfd =>
      rw [if_pos hfd] at hf
      rw [hf]
      rfl
    · rfl
  have hdata : Bytes.slice rawData r.pos (if IsRtr r.canId then 0 else dlcOf r.len)
      = if IsRtr r.canId then [] else (r.frame rawData old).data.toList.take (dlcOf r.len) := by
    split
    · rfl
    · next hrtr =>
      have hdlc := hfit.resolve_left hrtr
      unfold Record.frame
      rw [if_neg hrtr]
      exact (CanfdFrame.take_withData _ _ hdlc).symm
  rw [hsize, Bytes.slice_add, Bytes.slice_add, Bytes.slice_add, Bytes.slice_four, ← h.canId_eq,
    hlen_byte, hflags, show pos + 4 + 1 + (if IsFd r.len then 1 else 0) = r.pos by omega, hdata]
  unfold recordBytes CanfdFrame.reading readingBytes
  rw [Record.frame_canId, Record.frame_len, Record.frame_flags, Record.canfdLen_frame]
  rfl

/-- Stored frames, one behind the other, show the bytes they were read from. -/
theorem RecordsAt.slice_fillSlots (hlen : totLen ≤ maxUdpPayload) {rs : List Record}
    (h : RecordsAt rawData totLen pos rs) (hfit : ∀ r ∈ rs, r.Fits) (mem : Memory)
    (q : FramesQueue) :
    ((fillSlots (Record.frame rawData) mem q rs).flatMap recordBytes)
      = Bytes.slice rawData pos
        ((fillSlots (Record.frame rawData) mem q rs).map recordSize).sum := by
  induction rs generalizing pos q with
  | nil => rfl
  | cons r rs ih =>
    obtain ⟨hnext, hslice⟩ := h.1.slice_eq hlen (hfit r List.mem_cons_self)
      (mem (q.freeSlot 0))
    have hrest := ih h.2 (fun r' hr' => hfit r' (List.mem_cons_of_mem r hr')) q.push
    rw [fillSlots, List.flatMap_cons, List.map_cons, List.sum_cons, Bytes.slice_add, hslice,
      hrest, hnext]

end Sound

/-! ## Bytes in the layout are read as the frames they were made of -/

section Complete

variable {rawData : ℕ → UInt8} {totLen pos : ℕ}

/-- The parts of a record in the bytes of a frame. -/
theorem slice_parts {f : CanfdFrame}
    (h : Bytes.slice rawData pos (recordSize f) = recordBytes f) :
    Bytes.slice rawData pos 4 = Bytes.be32 f.canId ∧ rawData (pos + 4) = f.len ∧
      (IsFd f.len → rawData (pos + 5) = f.flags) ∧
      Bytes.slice rawData (pos + cannelloniFrameBaseSize + if IsFd f.len then 1 else 0)
          (if IsRtr f.canId then 0 else canfdLen f)
        = if IsRtr f.canId then [] else f.data.toList.take (canfdLen f) := by
  have hsize : recordSize f = 4 + (1 + ((if IsFd f.len then 1 else 0)
      + if IsRtr f.canId then 0 else canfdLen f)) := by
    unfold recordSize
    simp only [cannelloniFrameBaseSize]
    omega
  rw [hsize, Bytes.slice_add, Bytes.slice_add, Bytes.slice_add, Bytes.slice_one,
    List.singleton_append] at h
  obtain ⟨hid, h⟩ := List.append_inj h (by simp)
  obtain ⟨hlen, h⟩ := List.cons.inj h
  obtain ⟨hflags, hdata⟩ := List.append_inj h (by rw [Bytes.length_slice]; split <;> rfl)
  refine ⟨hid, hlen, ?_, hdata⟩
  intro hfd
  rw [if_pos hfd, if_pos hfd] at hflags
  exact (List.cons.inj hflags).1

theorem exists_recordAt_of_slice (hlen : totLen ≤ maxUdpPayload) {f : CanfdFrame}
    (hle : canfdLen f ≤ cnlCanfdMaxDlen)
    (h : Bytes.slice rawData pos (recordSize f) = recordBytes f)
    (hroom : pos + recordSize f ≤ totLen) :
    ∃ r, RecordAt rawData totLen pos r ∧ r.Fits ∧ r.next = pos + recordSize f ∧
      ∀ old, (r.frame rawData old).reading = f.onWire.reading := by
  obtain ⟨hid, hl, hflags, hdata⟩ := slice_parts h
  set r : Record := ⟨f.canId, f.len, if IsFd f.len then f.flags else 0,
    pos + cannelloniFrameBaseSize + if IsFd f.len then 1 else 0⟩ with hr
  have hfit : r.Fits := .inr hle
  have hat : RecordAt rawData totLen pos r := by
    refine ⟨?_, ?_, hl.symm, ?_, rfl, ?_⟩
    · unfold recordSize at hroom
      omega
    · rw [Bytes.slice_four] at hid
      exact (Bytes.be32_injective hid).symm
    · show (if IsFd f.len then f.flags else 0) = if IsFd f.len then rawData (pos + 5) else 0
      split
      · next hfd => exact (hflags hfd).symm
      · rfl
    · by_cases hrtr : IsRtr f.canId
      · exact .inl hrtr
      · right
        unfold recordSize at hroom
        rw [if_neg hrtr, ← Nat.add_assoc, ← Nat.add_assoc] at hroom
        exact hroom
  refine ⟨r, hat, hfit, ?_, ?_⟩
  · rw [(hat.slice_eq hlen hfit .zero).1]
    unfold recordSize
    rw [Record.frame_canId, Record.frame_len, Record.canfdLen_frame]
    rfl
  · intro old
    have hrest : (if IsRtr f.canId then [] else (r.frame rawData old).data.toList.take (canfdLen f))
        = if IsRtr f.canId then [] else f.data.toList.take (canfdLen f) := by
      rw [← hdata]
      split
      · rfl
      · next hrtr =>
        unfold Record.frame
        rw [if_neg hrtr]
        exact CanfdFrame.take_withData _ _ hle
    unfold CanfdFrame.reading
    rw [Record.frame_canId, Record.frame_len, Record.frame_flags, Record.canfdLen_frame]
    exact congrArg (fun d => (f.canId, f.len, (if IsFd f.len then f.flags else 0), d)) hrest

/-- Bytes in the layout are read as the frames they were made of. -/
theorem records_of_slice (hlen : totLen ≤ maxUdpPayload) {fs : List CanfdFrame}
    (hle : ∀ f ∈ fs, canfdLen f ≤ cnlCanfdMaxDlen)
    (h : Bytes.slice rawData pos (fs.map recordSize).sum = fs.flatMap recordBytes)
    (hroom : pos + (fs.map recordSize).sum ≤ totLen) :
    (records rawData totLen fs.length pos).length = fs.length ∧
      (∀ r ∈ records rawData totLen fs.length pos, r.Fits) ∧
      ∀ mem q, (fillSlots (Record.frame rawData) mem q
          (records rawData totLen fs.length pos)).map CanfdFrame.reading
        = fs.map fun f => f.onWire.reading := by
  induction fs generalizing pos with
  | nil => exact ⟨rfl, by simp [records], fun _ _ => rfl⟩
  | cons f fs ih =>
    have hf := hle f List.mem_cons_self
    rw [List.map_cons, List.sum_cons] at h hroom
    rw [Bytes.slice_add, List.flatMap_cons] at h
    obtain ⟨hhead, htail⟩ := List.append_inj h (by rw [Bytes.length_slice, length_recordBytes hf])
    obtain ⟨r, hat, hfit, hnext, hreading⟩ := exists_recordAt_of_slice hlen hf hhead (by omega)
    obtain ⟨hlength, hfits, hrest⟩ := ih (fun g hg => hle g (List.mem_cons_of_mem f hg)) htail
      (by omega)
    -- the walk meets the record of `f` first and goes on behind it
    have hrecords : records rawData totLen (f :: fs).length pos
        = r :: records rawData totLen fs.length (pos + recordSize f) := by
      rw [List.length_cons, records, (readRecord_eq_some_iff hlen).mpr hat, ← hnext]
    rw [hrecords]
    refine ⟨by rw [List.length_cons, hlength, List.length_cons], ?_, ?_⟩
    · intro r' hr'
      rcases List.mem_cons.mp hr' with rfl | hr'
      · exact hfit
      · exact hfits r' hr'
    · intro mem q
      rw [fillSlots, List.map_cons, List.map_cons, hreading, hrest]

end Complete

/-! ## The whole call -/

section Call

variable {n : Node}

/-- A call that did not fault stored every record that found a free slot. -/
theorem stores_of_ok (hv : n.handle.txQueue.Valid) {p : PbufChain} {o : Handled}
    (h : handleCannelloniFrame n (some p) = .ok o) :
    (∀ r ∈ p.storable n.handle.txQueue.free, r.Fits) ∧ Stores n p o := by
  by_cases hfit : ∀ r ∈ p.storable n.handle.txQueue.free, r.Fits
  · obtain ⟨o', ho', hs⟩ := handleCannelloniFrame_ok hv hfit
    obtain rfl : o' = o := by simpa [ho'] using h
    exact ⟨hfit, hs⟩
  · push Not at hfit
    rw [handleCannelloniFrame_error hv hfit] at h
    cases h

theorem PbufChain.recordsAt_storable (p : PbufChain) (free : ℕ) :
    RecordsAt p.payload p.totLen cannelloniDataPacketBaseSize (p.storable free) := by
  unfold storable PbufChain.records
  split
  · exact (recordsAt_records p.totLen_le _ _).take free
  · rw [List.take_nil]
    trivial

/-- The frames a call stored show the bytes of the packet. -/
theorem Stores.flatMap_recordBytes {p : PbufChain} {o : Handled} (h : Stores n p o)
    (hfit : ∀ r ∈ p.storable n.handle.txQueue.free, r.Fits) :
    o.stored.flatMap recordBytes
      = Bytes.slice p.payload cannelloniDataPacketBaseSize (o.stored.map recordSize).sum := by
  rw [h.stored_eq]
  exact (p.recordsAt_storable _).slice_fillSlots p.totLen_le hfit _ _

/-- The length of a list of frames in the layout. -/
theorem length_flatMap_recordBytes {fs : List CanfdFrame}
    (h : ∀ f ∈ fs, canfdLen f ≤ cnlCanfdMaxDlen) :
    (fs.flatMap recordBytes).length = (fs.map recordSize).sum := by
  induction fs with
  | nil => rfl
  | cons f fs ih =>
    rw [List.flatMap_cons, List.length_append, length_recordBytes (h f List.mem_cons_self),
      ih fun g hg => h g (List.mem_cons_of_mem f hg), List.map_cons, List.sum_cons]

theorem length_le_sum_recordSize (fs : List CanfdFrame) :
    fs.length * cannelloniFrameBaseSize ≤ (fs.map recordSize).sum := by
  induction fs with
  | nil => simp
  | cons f fs ih =>
    rw [List.length_cons, List.map_cons, List.sum_cons, Nat.add_mul, recordSize]
    omega

/-- A packet that starts with the bytes of `fs` in the layout, with room for all of them. -/
theorem handleCannelloniFrame_reads (hv : n.handle.txQueue.Valid) {seqNo : UInt8}
    {fs : List CanfdFrame} {body : List UInt8} (hne : fs ≠ [])
    (hle : ∀ f ∈ fs, canfdLen f ≤ cnlCanfdMaxDlen) (hpre : fs.flatMap recordBytes <+: body)
    (hfree : fs.length ≤ n.handle.txQueue.free) (spare : ℕ → UInt8)
    (hd : (packetHeader seqNo fs.length ++ body).length ≤ maxUdpPayload) :
    ∃ o, handleCannelloniFrame n (some (.contiguous _ spare hd)) = .ok o ∧
      Stores n (.contiguous _ spare hd) o ∧
      o.node.handle.udpRxCount = n.handle.udpRxCount + 1 ∧
      o.stored.map CanfdFrame.reading = fs.map fun f => f.onWire.reading := by
  set p : PbufChain := .contiguous (packetHeader seqNo fs.length ++ body) spare hd with hp
  have hheader : (packetHeader seqNo fs.length).length = cannelloniDataPacketBaseSize := rfl
  have htot : p.totLen = cannelloniDataPacketBaseSize + body.length := by
    rw [hp, PbufChain.contiguous_totLen, List.length_append, hheader]
  have hbytes := length_flatMap_recordBytes hle
  have hsum := length_le_sum_recordSize fs
  have hbody := hpre.length_le
  have hpos : 0 < fs.length := List.length_pos_iff.mpr hne
  have hmax := p.totLen_le
  simp only [cannelloniFrameBaseSize, cannelloniDataPacketBaseSize, maxUdpPayload] at hsum htot hmax
  have hcount : packetCount p.payload = fs.length := Bytes.ofBe16_bytes (by omega)
  have hacc : p.Accepted := by
    refine ⟨?_, rfl, rfl⟩
    simp only [cannelloniDataPacketBaseSize]
    omega
  -- the bytes behind the header
  have hslice : Bytes.slice p.payload cannelloniDataPacketBaseSize (fs.map recordSize).sum
      = fs.flatMap recordBytes := by
    have hroom : cannelloniDataPacketBaseSize + (fs.map recordSize).sum
        ≤ (packetHeader seqNo fs.length ++ body).length := by
      rw [List.length_append, hheader]
      omega
    rw [hp, PbufChain.contiguous_payload, Bytes.slice_ofList_of_le hroom, ← hheader,
      List.drop_left, ← hbytes]
    exact (List.prefix_iff_eq_take.mp hpre).symm
  obtain ⟨hlength, hfits, hreading⟩ := records_of_slice p.totLen_le hle hslice
    (by simp only [cannelloniDataPacketBaseSize]; omega)
  -- every record finds a free slot
  have hstorable : p.storable n.handle.txQueue.free
      = Cannelloni.records p.payload p.totLen fs.length cannelloniDataPacketBaseSize := by
    unfold PbufChain.storable PbufChain.records
    rw [if_pos hacc, hcount, List.take_of_length_le (by omega)]
  obtain ⟨o, ho, hs⟩ := handleCannelloniFrame_ok (p := p) hv (by rwa [hstorable])
  refine ⟨o, ho, hs, ?_, ?_⟩
  · rw [hs.handle_eq, if_pos hacc]
  · rw [hs.stored_eq, hstorable, hreading]

end Call

end Cannelloni
