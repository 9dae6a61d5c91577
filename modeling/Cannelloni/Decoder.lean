import Cannelloni.Handle

/-!
# The receive callback (`handle_cannelloni_frame`)

The callback walks over the records of a datagram with a 16-bit position, reads each record
header from the first packet buffer, and stores the record into a slot of `tx_queue`. It
breaks off at the first record that is cut off or finds the queue full.

`records` is the list of records the walk meets when the queue never fills up. The two
theorems about the loop say what it does with them: it stores the first `free` of them
(`recordLoop_ok`), unless one of those is a data record longer than a slot
(`recordLoop_error`).
-/

namespace Cannelloni

/-- The value of a `uint16_t` after an assignment. -/
def u16 (n : ℕ) : ℕ := n % 2 ^ 16

theorem u16_of_lt {n : ℕ} (h : n < 2 ^ 16) : u16 n = n := Nat.mod_eq_of_lt h

/-! ## The code -/

/-- A record header, with the position behind it. -/
structure Record where
  canId : UInt32
  len : UInt8
  flags : UInt8
  pos : ℕ
deriving DecidableEq, Repr

/-- The first half of the loop body: read the record header at `pos`. `none` stands for the
two breaks on an incomplete packet. -/
def readRecord (rawData : ℕ → UInt8) (totLen pos : ℕ) : Option Record :=
  if pos + cannelloniFrameBaseSize > totLen then none
  else
    let canId := Bytes.ofBe32 (rawData pos) (rawData (pos + 1)) (rawData (pos + 2))
      (rawData (pos + 3))
    let pos := u16 (pos + 4)
    let len := rawData pos
    let pos := u16 (pos + 1)
    -- a CAN FD frame has its flags behind the length
    let flags := if IsFd len then rawData pos else 0
    let pos := if IsFd len then u16 (pos + 1) else pos
    -- a remote frame has no data section although it has a length
    if ¬ IsRtr canId ∧ pos + dlcOf len > totLen then none
    else some ⟨canId, len, flags, pos⟩

/-- The variables of the loop, and (ghost) the frames stored so far. -/
structure RecordLoop where
  mem : Memory
  txQueue : FramesQueue
  pos : ℕ
  stored : List CanfdFrame

/-- The `for` loop, with the number of iterations left. -/
def recordLoop (rawData : ℕ → UInt8) (totLen : ℕ) : ℕ → RecordLoop → Except Fault RecordLoop
  | 0, s => .ok s
  | i + 1, s =>
    match readRecord rawData totLen s.pos with
    -- `break` on an incomplete packet
    | none => .ok s
    | some r =>
      match queuePut s.txQueue with
      -- `break` without a free slot
      | (none, _) => .ok s
      | (some slot, q) =>
        let frame := { s.mem slot with canId := r.canId, len := r.len, flags := r.flags }
        if IsRtr r.canId then
          recordLoop rawData totLen i
            { mem := Function.update s.mem slot frame, txQueue := q, pos := r.pos,
              stored := s.stored ++ [frame] }
        else do
          let frame ← frame.copyData (fun k => rawData (r.pos + k)) (dlcOf r.len)
          recordLoop rawData totLen i
            { mem := Function.update s.mem slot frame, txQueue := q,
              pos := u16 (r.pos + dlcOf r.len), stored := s.stored ++ [frame] }

/-- What the callback leaves behind: the new state, (ghost) the frames it stored, and how
often it called `pbuf_free`. -/
structure Handled where
  node : Node
  stored : List CanfdFrame
  freed : ℕ

/-- `ntohs(data->count)`. The target is big-endian, so the bytes are in network order. -/
def packetCount (rawData : ℕ → UInt8) : ℕ := Bytes.ofBe16 (rawData 3) (rawData 4)

/-- The header test: enough bytes, the right version and the right operation. -/
def PbufChain.Accepted (p : PbufChain) : Prop :=
  p.totLen > cannelloniDataPacketBaseSize ∧ p.payload 0 = cannelloniFrameVersion ∧
    p.payload 1 = OpCodes.cnlData.toUInt8

instance PbufChain.decidableAccepted (p : PbufChain) : Decidable p.Accepted :=
  inferInstanceAs (Decidable (_ ∧ _ ∧ _))

/-- `handle_cannelloni_frame`, with `none` for `p == NULL`. -/
def handleCannelloniFrame (n : Node) : Option PbufChain → Except Fault Handled
  | none => .ok ⟨n, [], 0⟩
  | some p =>
    if p.Accepted then do
      let s ← recordLoop p.payload p.totLen (packetCount p.payload)
        { mem := n.mem, txQueue := n.handle.txQueue, pos := cannelloniDataPacketBaseSize,
          stored := [] }
      return ⟨{ mem := s.mem
                handle := { n.handle with
                  udpRxCount := n.handle.udpRxCount + 1
                  txQueue := s.txQueue } }, s.stored, 1⟩
    -- a packet that is too short or has the wrong header is only freed
    else .ok ⟨n, [], 1⟩

/-! ## Records -/

/-- The position at which the walk goes on behind the record. -/
def Record.next (r : Record) : ℕ := if IsRtr r.canId then r.pos else u16 (r.pos + dlcOf r.len)

/-- The record can be stored: a data record is no longer than the data array. -/
def Record.Fits (r : Record) : Prop := IsRtr r.canId ∨ dlcOf r.len ≤ cnlCanfdMaxDlen

instance Record.decidableFits (r : Record) : Decidable r.Fits := inferInstanceAs (Decidable (_ ∨ _))

/-- The record is a classic data record that fits a frame. -/
structure Record.Classic (r : Record) : Prop where
  not_rtr : ¬ IsRtr r.canId
  not_fd : ¬ IsFd r.len
  dlc_le : dlcOf r.len ≤ cnlCanfdMaxDlen

instance Record.decidableClassic (r : Record) : Decidable r.Classic :=
  decidable_of_iff (¬ IsRtr r.canId ∧ ¬ IsFd r.len ∧ dlcOf r.len ≤ cnlCanfdMaxDlen)
    ⟨fun h => ⟨h.1, h.2.1, h.2.2⟩, fun h => ⟨h.not_rtr, h.not_fd, h.dlc_le⟩⟩

/-- The frame a slot with former contents `old` holds after the record was stored to it. -/
def Record.frame (rawData : ℕ → UInt8) (r : Record) (old : CanfdFrame) : CanfdFrame :=
  let f := { old with canId := r.canId, len := r.len, flags := r.flags }
  if IsRtr r.canId then f else f.withData (fun k => rawData (r.pos + k)) (dlcOf r.len)

/-- The records the walk meets from `pos` on in at most `i` iterations. -/
def records (rawData : ℕ → UInt8) (totLen : ℕ) : ℕ → ℕ → List Record
  | 0, _ => []
  | i + 1, pos =>
    match readRecord rawData totLen pos with
    | none => []
    | some r => r :: records rawData totLen i r.next

section Frame

variable (rawData : ℕ → UInt8) (r : Record) (old : CanfdFrame)

@[simp] theorem Record.frame_canId : (r.frame rawData old).canId = r.canId := by
  unfold frame
  split <;> rfl

@[simp] theorem Record.frame_len : (r.frame rawData old).len = r.len := by
  unfold frame
  split <;> rfl

@[simp] theorem Record.frame_flags : (r.frame rawData old).flags = r.flags := by
  unfold frame
  split <;> rfl

@[simp] theorem Record.canfdLen_frame : canfdLen (r.frame rawData old) = dlcOf r.len := by
  unfold canfdLen
  rw [frame_len]

end Frame

/-! ## Where a record stands -/

/-- The record `r` stands at `pos`. -/
structure RecordAt (rawData : ℕ → UInt8) (totLen pos : ℕ) (r : Record) : Prop where
  header : pos + cannelloniFrameBaseSize ≤ totLen
  canId_eq : r.canId = Bytes.ofBe32 (rawData pos) (rawData (pos + 1)) (rawData (pos + 2))
    (rawData (pos + 3))
  len_eq : r.len = rawData (pos + 4)
  flags_eq : r.flags = if IsFd r.len then rawData (pos + 5) else 0
  pos_eq : r.pos = pos + cannelloniFrameBaseSize + if IsFd r.len then 1 else 0
  data : IsRtr r.canId ∨ r.pos + dlcOf r.len ≤ totLen

/-- In a datagram no position wraps, so `readRecord` finds the record that stands there. -/
theorem readRecord_eq_some_iff {rawData : ℕ → UInt8} {totLen pos : ℕ} {r : Record}
    (hlen : totLen ≤ maxUdpPayload) :
    readRecord rawData totLen pos = some r ↔ RecordAt rawData totLen pos r := by
  simp only [maxUdpPayload] at hlen
  unfold readRecord
  by_cases hhead : pos + cannelloniFrameBaseSize > totLen
  · rw [if_pos hhead]
    refine iff_of_false (by simp) fun h => ?_
    have := h.header
    omega
  rw [if_neg hhead]
  simp only [cannelloniFrameBaseSize] at hhead
  -- the positions stay inside the packet, far below the range of a `uint16_t`
  have h4 : u16 (pos + 4) = pos + 4 := u16_of_lt (by omega)
  have h5 : u16 (pos + 4 + 1) = pos + 5 := u16_of_lt (by omega)
  have h6 : u16 (pos + 5 + 1) = pos + 6 := u16_of_lt (by omega)
  simp only [h4, h5, h6]
  set canId := Bytes.ofBe32 (rawData pos) (rawData (pos + 1)) (rawData (pos + 2))
    (rawData (pos + 3))
  set len := rawData (pos + 4)
  have hpos : (if IsFd len then pos + 6 else pos + 5)
      = pos + cannelloniFrameBaseSize + if IsFd len then 1 else 0 := by
    split <;> simp
  rw [hpos]
  set dataPos := pos + cannelloniFrameBaseSize + if IsFd len then 1 else 0
  constructor
  · intro h
    split at h
    · simp at h
    · next hdata =>
      obtain rfl := Option.some.inj h
      refine ⟨by simp only [cannelloniFrameBaseSize]; omega, rfl, rfl, rfl, rfl, ?_⟩
      by_cases hrtr : IsRtr canId
      · exact .inl hrtr
      · exact .inr (not_lt.mp fun hlt => hdata ⟨hrtr, hlt⟩)
  · intro h
    rcases h with ⟨-, hid, hl, hflags, hp, hdata⟩
    obtain ⟨rid, rlen, rflags, rpos⟩ := r
    simp only at hid hl hflags hp hdata
    subst hid hl
    rw [hp] at hdata
    rw [hflags, hp, if_neg]
    intro h
    rcases h with ⟨hrtr, hlt⟩
    exact absurd (hdata.resolve_left hrtr) (not_le.mpr hlt)

section RecordAt

variable {rawData : ℕ → UInt8} {totLen pos : ℕ} {r : Record}

theorem RecordAt.next_eq (hlen : totLen ≤ maxUdpPayload) (h : RecordAt rawData totLen pos r) :
    r.next = r.pos + if IsRtr r.canId then 0 else dlcOf r.len := by
  simp only [maxUdpPayload] at hlen
  unfold Record.next
  split
  · rfl
  · next hrtr =>
    have := h.data.resolve_left hrtr
    exact u16_of_lt (by omega)

theorem RecordAt.pos_bounds (h : RecordAt rawData totLen pos r) :
    pos + 5 ≤ r.pos ∧ r.pos ≤ totLen + 1 := by
  have hhead := h.header
  have hpos := h.pos_eq
  simp only [cannelloniFrameBaseSize] at hhead hpos
  split at hpos <;> omega

end RecordAt

/-! ## One pass of the loop -/

section Loop

variable {rawData : ℕ → UInt8} {totLen i : ℕ} {s : RecordLoop}

theorem recordLoop_of_readRecord_none (h : readRecord rawData totLen s.pos = none) :
    recordLoop rawData totLen i s = .ok s := by
  cases i with
  | zero => rfl
  | succ i => simp only [recordLoop, h]

theorem recordLoop_of_full (h : s.txQueue.Full) : recordLoop rawData totLen i s = .ok s := by
  cases i with
  | zero => rfl
  | succ i =>
    simp only [recordLoop, queuePut_of_full h]
    cases readRecord rawData totLen s.pos <;> rfl

/-- The loop variables after a record was stored. -/
def RecordLoop.store (rawData : ℕ → UInt8) (s : RecordLoop) (r : Record) : RecordLoop :=
  let frame := r.frame rawData (s.mem (s.txQueue.freeSlot 0))
  { mem := Function.update s.mem (s.txQueue.freeSlot 0) frame, txQueue := s.txQueue.push,
    pos := r.next, stored := s.stored ++ [frame] }

theorem recordLoop_succ_fits {r : Record} (hv : s.txQueue.Valid) (hf : ¬ s.txQueue.Full)
    (hr : readRecord rawData totLen s.pos = some r) (hfit : r.Fits) :
    recordLoop rawData totLen (i + 1) s = recordLoop rawData totLen i (s.store rawData r) := by
  have hslot : s.txQueue.freeSlot 0 = ⟨s.txQueue.frames, s.txQueue.tail⟩ := freeSlot_zero hv
  simp only [recordLoop, hr, queuePut_of_not_full hf]
  by_cases hrtr : IsRtr r.canId
  · rw [if_pos hrtr]
    simp only [RecordLoop.store, Record.frame, Record.next, if_pos hrtr, hslot]
  · have hlen : dlcOf r.len ≤ cnlCanfdMaxDlen := hfit.resolve_left hrtr
    rw [if_neg hrtr, CanfdFrame.copyData_eq_ok _ _ hlen]
    simp only [RecordLoop.store, Record.frame, Record.next, if_neg hrtr, hslot]
    rfl

theorem recordLoop_succ_not_fits {r : Record} (hf : ¬ s.txQueue.Full)
    (hr : readRecord rawData totLen s.pos = some r) (hfit : ¬ r.Fits) :
    recordLoop rawData totLen (i + 1) s = .error (.dataIndex cnlCanfdMaxDlen) := by
  unfold Record.Fits at hfit
  push Not at hfit
  obtain ⟨hrtr, hlen⟩ := hfit
  simp only [recordLoop, hr, queuePut_of_not_full hf]
  rw [if_neg (not_not.mpr hrtr), CanfdFrame.copyData_eq_error _ _ hlen]
  rfl

/-! ## The whole loop -/

/-- The records that find a free slot. -/
abbrev RecordLoop.fitting (rawData : ℕ → UInt8) (totLen i : ℕ) (s : RecordLoop) : List Record :=
  (records rawData totLen i s.pos).take s.txQueue.free

theorem RecordLoop.fitting_succ {r : Record} (hv : s.txQueue.Valid) (hf : ¬ s.txQueue.Full)
    (hr : readRecord rawData totLen s.pos = some r) :
    s.fitting rawData totLen (i + 1) = r :: (s.store rawData r).fitting rawData totLen i := by
  have hfree : s.txQueue.push.free + 1 = s.txQueue.free := Ring.Cursor.free_push hv hf
  simp only [fitting, records, hr, store]
  rw [← hfree, List.take_succ_cons]

/-- When every record that finds a free slot also fits it, the loop stores them all. -/
theorem recordLoop_ok (hv : s.txQueue.Valid)
    (hfit : ∀ r ∈ s.fitting rawData totLen i, r.Fits) :
    ∃ s', recordLoop rawData totLen i s = .ok s' ∧
      s'.stored = s.stored
        ++ fillSlots (Record.frame rawData) s.mem s.txQueue (s.fitting rawData totLen i) ∧
      Appended s.mem s.txQueue
        (fillSlots (Record.frame rawData) s.mem s.txQueue (s.fitting rawData totLen i))
        s'.mem s'.txQueue := by
  induction i generalizing s with
  | zero => exact ⟨s, rfl, by simp [RecordLoop.fitting, records, fillSlots],
      by simpa [RecordLoop.fitting, records, fillSlots] using Appended.refl hv⟩
  | succ i ih =>
    cases hr : readRecord rawData totLen s.pos with
    | none =>
      have hnil : s.fitting rawData totLen (i + 1) = [] := by
        simp [RecordLoop.fitting, records, hr]
      rw [hnil, recordLoop_of_readRecord_none hr]
      exact ⟨s, rfl, by simp [fillSlots], Appended.refl hv⟩
    | some r =>
      by_cases hf : s.txQueue.Full
      · have hnil : s.fitting rawData totLen (i + 1) = [] := by
          have hzero : s.txQueue.free = 0 := (Ring.Cursor.full_iff_free hv).mp hf
          simp [RecordLoop.fitting, hzero]
        rw [hnil, recordLoop_of_full hf]
        exact ⟨s, rfl, by simp [fillSlots], Appended.refl hv⟩
      · -- the record is stored; go on with the queue pushed by one slot
        rw [RecordLoop.fitting_succ hv hf hr] at hfit ⊢
        have hr_fits : r.Fits := hfit r List.mem_cons_self
        have hrest : ∀ r' ∈ (s.store rawData r).fitting rawData totLen i, r'.Fits :=
          fun r' h' => hfit r' (List.mem_cons_of_mem r h')
        obtain ⟨s', hs', hstored, happ⟩ := ih (s := s.store rawData r) hv.push hrest
        have hlen : ((s.store rawData r).fitting rawData totLen i).length
            ≤ s.txQueue.push.free := by
          rw [RecordLoop.fitting, List.length_take]
          exact Nat.min_le_left _ _
        have hfill : fillSlots (Record.frame rawData) (s.store rawData r).mem s.txQueue.push
              ((s.store rawData r).fitting rawData totLen i)
            = fillSlots (Record.frame rawData) s.mem s.txQueue.push
              ((s.store rawData r).fitting rawData totLen i) :=
          fillSlots_update_tail _ hv hf _ hlen
        have hq : (s.store rawData r).txQueue = s.txQueue.push := rfl
        rw [hq, hfill] at hstored happ
        refine ⟨s', ?_, ?_, ?_⟩
        · rw [recordLoop_succ_fits hv hf hr hr_fits, hs']
        · rw [hstored, fillSlots, RecordLoop.store, List.append_assoc]
          rfl
        · exact Appended.fill_cons _ hv hf happ

/-- A record that finds a free slot but does not fit it makes the copy run over the slot. -/
theorem recordLoop_error (hv : s.txQueue.Valid)
    (hfit : ∃ r ∈ s.fitting rawData totLen i, ¬ r.Fits) :
    recordLoop rawData totLen i s = .error (.dataIndex cnlCanfdMaxDlen) := by
  induction i generalizing s with
  | zero => simp [RecordLoop.fitting, records] at hfit
  | succ i ih =>
    cases hr : readRecord rawData totLen s.pos with
    | none => simp [RecordLoop.fitting, records, hr] at hfit
    | some r =>
      -- some record finds a free slot, so there is one
      have hf : ¬ s.txQueue.Full := by
        intro hf
        have hzero : s.txQueue.free = 0 := (Ring.Cursor.full_iff_free hv).mp hf
        simp [RecordLoop.fitting, hzero] at hfit
      by_cases hr_fits : r.Fits
      · rw [recordLoop_succ_fits hv hf hr hr_fits]
        rw [RecordLoop.fitting_succ hv hf hr] at hfit
        obtain ⟨r', hmem, hnot⟩ := hfit
        rcases List.mem_cons.mp hmem with rfl | hmem
        · exact absurd hr_fits hnot
        · exact ih (s := s.store rawData r) hv.push ⟨r', hmem, hnot⟩
      · exact recordLoop_succ_not_fits hf hr hr_fits

end Loop

/-! ## The whole call -/

/-- The records of a packet that passes the header test. -/
def PbufChain.records (p : PbufChain) : List Record :=
  if p.Accepted then
    Cannelloni.records p.payload p.totLen (packetCount p.payload) cannelloniDataPacketBaseSize
  else []

/-- The records that find a free slot. -/
def PbufChain.storable (p : PbufChain) (free : ℕ) : List Record := p.records.take free

/-- A packet of classic data records that fit a frame. -/
def PbufChain.Classic (p : PbufChain) : Prop := ∀ r ∈ p.records, r.Classic

instance PbufChain.decidableClassic (p : PbufChain) : Decidable p.Classic :=
  inferInstanceAs (Decidable (∀ r ∈ p.records, r.Classic))

/-- A call that stores every record that finds a free slot. -/
structure Stores (n : Node) (p : PbufChain) (o : Handled) : Prop where
  stored_eq : o.stored = fillSlots (Record.frame p.payload) n.mem n.handle.txQueue
    (p.storable n.handle.txQueue.free)
  appended : Appended n.mem n.handle.txQueue o.stored o.node.mem o.node.handle.txQueue
  handle_eq : o.node.handle = { n.handle with
    txQueue := o.node.handle.txQueue
    udpRxCount := if p.Accepted then n.handle.udpRxCount + 1 else n.handle.udpRxCount }
  freed_eq : o.freed = 1

theorem Record.Classic.fits {r : Record} (h : r.Classic) : r.Fits := .inr h.dlc_le

theorem PbufChain.Classic.fits {p : PbufChain} (h : p.Classic) (free : ℕ) :
    ∀ r ∈ p.storable free, r.Fits :=
  fun r hr => (h r (List.mem_of_mem_take hr)).fits

theorem handleCannelloniFrame_ok {n : Node} {p : PbufChain} (hv : n.handle.txQueue.Valid)
    (hfit : ∀ r ∈ p.storable n.handle.txQueue.free, r.Fits) :
    ∃ o, handleCannelloniFrame n (some p) = .ok o ∧ Stores n p o := by
  by_cases hacc : p.Accepted
  · simp only [PbufChain.storable, PbufChain.records, if_pos hacc] at hfit
    obtain ⟨s', hs', hstored, happ⟩ := recordLoop_ok (i := packetCount p.payload)
      (s := ⟨n.mem, n.handle.txQueue, cannelloniDataPacketBaseSize, []⟩) hv hfit
    rw [List.nil_append] at hstored
    have hcall : handleCannelloniFrame n (some p) = .ok
        ⟨⟨s'.mem, { n.handle with
            udpRxCount := n.handle.udpRxCount + 1
            txQueue := s'.txQueue }⟩, s'.stored, 1⟩ := by
      simp only [handleCannelloniFrame, if_pos hacc, hs']
      rfl
    refine ⟨_, hcall, ?_, ?_, ?_, rfl⟩
    · simp only [PbufChain.storable, PbufChain.records, if_pos hacc]
      exact hstored
    · rw [← hstored] at happ
      exact happ
    · simp only [if_pos hacc]
  · have hcall : handleCannelloniFrame n (some p) = .ok ⟨n, [], 1⟩ := by
      simp only [handleCannelloniFrame, if_neg hacc]
    refine ⟨_, hcall, ?_, Appended.refl hv, ?_, rfl⟩
    · simp only [PbufChain.storable, PbufChain.records, if_neg hacc, List.take_nil, fillSlots]
    · simp only [if_neg hacc]

theorem handleCannelloniFrame_error {n : Node} {p : PbufChain} (hv : n.handle.txQueue.Valid)
    (hfit : ∃ r ∈ p.storable n.handle.txQueue.free, ¬ r.Fits) :
    handleCannelloniFrame n (some p) = .error (.dataIndex cnlCanfdMaxDlen) := by
  have hacc : p.Accepted := by
    by_contra hacc
    simp [PbufChain.storable, PbufChain.records, hacc] at hfit
  simp only [PbufChain.storable, PbufChain.records, if_pos hacc] at hfit
  have hloop := recordLoop_error (i := packetCount p.payload)
    (s := ⟨n.mem, n.handle.txQueue, cannelloniDataPacketBaseSize, []⟩) hv hfit
  simp only [handleCannelloniFrame, if_pos hacc, hloop]
  rfl

/-- The callback keeps the handle in order. -/
theorem Stores.valid {n : Node} {p : PbufChain} {o : Handled} (hv : n.handle.Valid)
    (h : Stores n p o) : o.node.handle.Valid := by
  rw [h.handle_eq]
  exact hv.of_txQueue rfl rfl h.appended.valid h.appended.frames_eq h.appended.count_eq

/-- The callback appends the stored frames to `tx_queue`. -/
theorem Stores.txFrames_eq {n : Node} {p : PbufChain} {o : Handled} (h : Stores n p o) :
    o.node.txFrames = n.txFrames ++ o.stored := h.appended.contents_eq

/-- The callback does not touch `rx_queue`. -/
theorem Stores.rxFrames_eq {n : Node} {p : PbufChain} {o : Handled} (hv : n.handle.Valid)
    (h : Stores n p o) : o.node.rxFrames = n.rxFrames := by
  have hq : o.node.handle.rxQueue = n.handle.rxQueue := by rw [h.handle_eq]
  unfold Node.rxFrames
  rw [hq]
  exact h.appended.writes.contents_of_ne hv.frames_ne.symm

end Cannelloni
