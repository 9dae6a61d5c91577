import Cannelloni.Layout

/-!
# The grammar of a data packet

A data packet is a five-byte header followed by records: a big-endian identifier, a length
byte, a flags byte when the length byte carries the CAN FD bit, and the data bytes unless the
identifier carries the RTR flag. `parseRecord` states this for a list of bytes, without
positions or memory behind the packet. `readRecord_eq_parseRecord` compares one record of the
callback's walk with it, and `handleCannelloniFrame_grammar` the whole call.
-/

namespace Cannelloni

/-! ## The reference parse -/

/-- A record header at the front of the bytes: the identifier, the length byte, and what
follows. -/
def parseHeader : List UInt8 → Option (UInt32 × UInt8 × List UInt8)
  | a :: b :: c :: d :: len :: rest => some (Bytes.ofBe32 a b c d, len, rest)
  | _ => none

/-- The flags of a record with the length byte `len`. -/
def parseFlags (len : UInt8) (bytes : List UInt8) : Option (UInt8 × List UInt8) :=
  if IsFd len then
    match bytes with
    | [] => none
    | flags :: rest => some (flags, rest)
  else some (0, bytes)

/-- The data of a record. -/
def parseData (canId : UInt32) (len : UInt8) (bytes : List UInt8) :
    Option (List UInt8 × List UInt8) :=
  if IsRtr canId then some ([], bytes)
  else if dlcOf len ≤ bytes.length then some (bytes.take (dlcOf len), bytes.drop (dlcOf len))
  else none

/-- A complete record at the front of the bytes, and what follows. -/
def parseRecord (bytes : List UInt8) :
    Option ((UInt32 × UInt8 × UInt8 × List UInt8) × List UInt8) := do
  let (canId, len, bytes) ← parseHeader bytes
  let (flags, bytes) ← parseFlags len bytes
  let (data, bytes) ← parseData canId len bytes
  return ((canId, len, flags, data), bytes)

/-- The first `count` complete records, as far as there are so many. -/
def parseRecords : ℕ → List UInt8 → List (UInt32 × UInt8 × UInt8 × List UInt8)
  | 0, _ => []
  | count + 1, bytes =>
    match parseRecord bytes with
    | none => []
    | some (x, rest) => x :: parseRecords count rest

/-- The headers of the first `count` records with the bytes behind each, and of the record
that is cut off behind its header. -/
def parseHeaders : ℕ → List UInt8 → List (UInt32 × UInt8 × List UInt8)
  | 0, _ => []
  | count + 1, bytes =>
    match parseHeader bytes with
    | none => []
    | some h =>
      h :: match parseRecord bytes with
        | none => []
        | some (_, rest) => parseHeaders count rest

/-- All complete records of the bytes; a record has at least five bytes. -/
def completeRecords (bytes : List UInt8) : List (UInt32 × UInt8 × UInt8 × List UInt8) :=
  parseRecords bytes.length bytes

/-- The header is that of a data packet with something behind it. -/
def HeaderOk (d : List UInt8) : Prop :=
  5 < d.length ∧ d[0]? = some cannelloniFrameVersion ∧ d[1]? = some OpCodes.cnlData.toUInt8

instance decidableHeaderOk (d : List UInt8) : Decidable (HeaderOk d) :=
  inferInstanceAs (Decidable (_ ∧ _ ∧ _))

/-- The number of records the header announces. -/
def headerCount : List UInt8 → ℕ
  | _ :: _ :: _ :: a :: b :: _ => Bytes.ofBe16 a b
  | _ => 0

/-! ## How far a record reaches -/

theorem parseHeader_eq_none {bytes : List UInt8} (h : bytes.length < 5) :
    parseHeader bytes = none := by
  unfold parseHeader
  split
  · simp only [List.length_cons] at h
    omega
  · rfl

theorem length_parseHeader {bytes rest : List UInt8} {canId : UInt32} {len : UInt8}
    (h : parseHeader bytes = some (canId, len, rest)) : rest.length + 5 = bytes.length := by
  unfold parseHeader at h
  split at h
  · obtain ⟨-, -, rfl⟩ : _ ∧ _ ∧ _ := by simpa using h
    simp only [List.length_cons]
  · cases h

theorem length_parseFlags {len flags : UInt8} {bytes rest : List UInt8}
    (h : parseFlags len bytes = some (flags, rest)) : rest.length ≤ bytes.length := by
  unfold parseFlags at h
  split at h
  · split at h
    · cases h
    · obtain ⟨-, rfl⟩ := Prod.mk.inj (Option.some.inj h)
      simp
  · obtain ⟨-, rfl⟩ := Prod.mk.inj (Option.some.inj h)
    exact Nat.le_refl _

theorem length_parseData {canId : UInt32} {len : UInt8} {bytes data rest : List UInt8}
    (h : parseData canId len bytes = some (data, rest)) : rest.length ≤ bytes.length := by
  unfold parseData at h
  split at h
  · obtain ⟨-, rfl⟩ := Prod.mk.inj (Option.some.inj h)
    exact Nat.le_refl _
  · split at h
    · obtain ⟨-, rfl⟩ := Prod.mk.inj (Option.some.inj h)
      rw [List.length_drop]
      omega
    · cases h

/-- A complete record has a header, flags and data. -/
theorem parts_of_parseRecord {bytes rest : List UInt8} {x : UInt32 × UInt8 × UInt8 × List UInt8}
    (h : parseRecord bytes = some (x, rest)) :
    ∃ b₁ b₂, parseHeader bytes = some (x.1, x.2.1, b₁) ∧
      parseFlags x.2.1 b₁ = some (x.2.2.1, b₂) ∧
      parseData x.1 x.2.1 b₂ = some (x.2.2.2, rest) := by
  unfold parseRecord at h
  obtain ⟨⟨canId, len, b₁⟩, h₁, h⟩ := Option.bind_eq_some_iff.mp h
  obtain ⟨⟨flags, b₂⟩, h₂, h⟩ := Option.bind_eq_some_iff.mp h
  obtain ⟨⟨data, b₃⟩, h₃, h⟩ := Option.bind_eq_some_iff.mp h
  obtain ⟨rfl, rfl⟩ := Prod.mk.inj (Option.some.inj h)
  exact ⟨b₁, b₂, h₁, h₂, h₃⟩

/-- A record takes at least five bytes. -/
theorem length_parseRecord {bytes rest : List UInt8} {x : UInt32 × UInt8 × UInt8 × List UInt8}
    (h : parseRecord bytes = some (x, rest)) : rest.length + 5 ≤ bytes.length := by
  obtain ⟨b₁, b₂, h₁, h₂, h₃⟩ := parts_of_parseRecord h
  have := length_parseHeader h₁
  have := length_parseFlags h₂
  have := length_parseData h₃
  omega

/-- As many passes as there are bytes find every complete record. -/
theorem take_parseRecords (count : ℕ) {fuel : ℕ} {bytes : List UInt8} (h : bytes.length ≤ fuel) :
    (parseRecords fuel bytes).take count = parseRecords count bytes := by
  induction count generalizing fuel bytes with
  | zero => rw [List.take_zero, parseRecords]
  | succ count ih =>
    cases fuel with
    | zero =>
      obtain rfl : bytes = [] := List.length_eq_zero_iff.mp (by omega)
      rfl
    | succ fuel =>
      rw [parseRecords, parseRecords]
      cases hrec : parseRecord bytes with
      | none => rfl
      | some xr =>
        obtain ⟨x, rest⟩ := xr
        have := length_parseRecord hrec
        simp only [List.take_succ_cons]
        rw [ih (by omega)]

theorem parseRecords_eq_take (count : ℕ) (bytes : List UInt8) :
    parseRecords count bytes = (completeRecords bytes).take count :=
  (take_parseRecords count (Nat.le_refl _)).symm

/-! ## One record of the walk -/

/-- What the record says: everything the layout keeps of the frame made of it. -/
def Record.reading (rawData : ℕ → UInt8) (r : Record) : UInt32 × UInt8 × UInt8 × List UInt8 :=
  (r.canId, r.len, r.flags,
    if IsRtr r.canId then [] else Bytes.slice rawData r.pos (dlcOf r.len))

/-- The frame a slot holds says what the record said. -/
theorem Record.reading_frame {rawData : ℕ → UInt8} {r : Record} (h : r.Fits) (old : CanfdFrame) :
    (r.frame rawData old).reading = r.reading rawData := by
  unfold CanfdFrame.reading reading
  rw [frame_canId, frame_len, frame_flags, canfdLen_frame]
  by_cases hrtr : IsRtr r.canId
  · rw [if_pos hrtr, if_pos hrtr]
  · have hdata : (r.frame rawData old).data.toList.take (dlcOf r.len)
        = Bytes.slice rawData r.pos (dlcOf r.len) := by
      unfold frame
      rw [if_neg hrtr]
      exact CanfdFrame.take_withData _ _ (h.resolve_left hrtr)
    rw [if_neg hrtr, if_neg hrtr, hdata]

section Walk

variable {d : List UInt8} {spare : ℕ → UInt8} {pos : ℕ}

/-- The header at a position. -/
theorem parseHeader_drop (spare : ℕ → UInt8) (h : pos + 5 ≤ d.length) :
    parseHeader (d.drop pos) = some
      (Bytes.ofBe32 (Bytes.ofList d spare pos) (Bytes.ofList d spare (pos + 1))
        (Bytes.ofList d spare (pos + 2)) (Bytes.ofList d spare (pos + 3)),
      Bytes.ofList d spare (pos + 4), d.drop (pos + 5)) := by
  have hcons : ∀ i < 5, d.drop (pos + i) = Bytes.ofList d spare (pos + i) :: d.drop (pos + i + 1) :=
    fun i hi => Bytes.drop_eq_ofList_cons spare (by omega)
  have h0 := hcons 0 (by omega)
  rw [Nat.add_zero] at h0
  rw [h0, hcons 1 (by omega), hcons 2 (by omega), hcons 3 (by omega), hcons 4 (by omega)]
  rfl

/-- The data behind position `p`. -/
theorem parseData_drop (spare : ℕ → UInt8) (canId : UInt32) (len : UInt8) {p : ℕ}
    (hp : p ≤ d.length) :
    parseData canId len (d.drop p)
      = if ¬ IsRtr canId ∧ p + dlcOf len > d.length then none
        else some (if IsRtr canId then [] else Bytes.slice (Bytes.ofList d spare) p (dlcOf len),
          d.drop (p + if IsRtr canId then 0 else dlcOf len)) := by
  unfold parseData
  by_cases hrtr : IsRtr canId
  · rw [if_pos hrtr, if_neg fun h => h.1 hrtr]
    simp only [if_pos hrtr, Nat.add_zero]
  · rw [if_neg hrtr, List.length_drop, List.drop_drop]
    simp only [if_neg hrtr]
    by_cases hroom : p + dlcOf len ≤ d.length
    · rw [if_pos (by omega), if_neg (by omega), Bytes.slice_ofList_of_le hroom]
    · rw [if_neg (by omega), if_pos ⟨hrtr, by omega⟩]

/-- A remote CAN FD header that ends the packet, so that its flags lie behind the packet. -/
def FlagsCutOff (h : UInt32 × UInt8 × List UInt8) : Prop := IsRtr h.1 ∧ IsFd h.2.1 ∧ h.2.2 = []

/-- Where the data of a record with the length byte `len` starts behind its header. -/
def dataStart (pos : ℕ) (len : UInt8) : ℕ := pos + 5 + if IsFd len then 1 else 0

/-- The flags behind a header. -/
theorem parseFlags_drop (spare : ℕ → UInt8) (len : UInt8) (h : dataStart pos len ≤ d.length) :
    parseFlags len (d.drop (pos + 5))
      = some (if IsFd len then Bytes.ofList d spare (pos + 5) else 0,
        d.drop (dataStart pos len)) := by
  unfold dataStart at h ⊢
  unfold parseFlags
  by_cases hfd : IsFd len
  · rw [if_pos hfd] at h
    simp only [if_pos hfd]
    rw [Bytes.drop_eq_ofList_cons spare (by omega)]
  · simp only [if_neg hfd, Nat.add_zero]

/-- In a packet no position wraps, and the walk reads a header that fits. -/
theorem readRecord_of_header {rawData : ℕ → UInt8} {totLen : ℕ} (hlen : totLen ≤ maxUdpPayload)
    (h : pos + 5 ≤ totLen) {canId : UInt32} {len : UInt8}
    (hid : Bytes.ofBe32 (rawData pos) (rawData (pos + 1)) (rawData (pos + 2)) (rawData (pos + 3))
      = canId) (hl : rawData (pos + 4) = len) :
    readRecord rawData totLen pos
      = if ¬ IsRtr canId ∧ dataStart pos len + dlcOf len > totLen then none
        else some ⟨canId, len, if IsFd len then rawData (pos + 5) else 0, dataStart pos len⟩ := by
  simp only [maxUdpPayload] at hlen
  have h4 : u16 (pos + 4) = pos + 4 := u16_of_lt (by omega)
  have h5 : u16 (pos + 4 + 1) = pos + 5 := u16_of_lt (by omega)
  have h6 : u16 (pos + 5 + 1) = pos + 6 := u16_of_lt (by omega)
  have hstart : (if IsFd len then pos + 6 else pos + 5) = dataStart pos len := by
    unfold dataStart
    split <;> rfl
  unfold readRecord
  rw [if_neg (by simp only [cannelloniFrameBaseSize]; omega)]
  simp only [h4, h5, h6, hid, hl, hstart]

theorem Record.next_of_lt {r : Record} (h : ¬ IsRtr r.canId → r.pos + dlcOf r.len < 2 ^ 16) :
    r.next = r.pos + if IsRtr r.canId then 0 else dlcOf r.len := by
  unfold next
  split
  · rfl
  · next hrtr => exact u16_of_lt (h hrtr)

/-- The walk reads a record where the grammar has one, and goes on behind it. -/
theorem readRecord_eq_parseRecord (spare : ℕ → UInt8) (hd : d.length ≤ maxUdpPayload)
    (hcut : ∀ h, parseHeader (d.drop pos) = some h → ¬ FlagsCutOff h) :
    (readRecord (Bytes.ofList d spare) d.length pos).map
        (fun r => (r.reading (Bytes.ofList d spare), d.drop r.next))
      = parseRecord (d.drop pos) := by
  set raw := Bytes.ofList d spare with hraw
  by_cases hhead : pos + 5 ≤ d.length
  · have hheader := parseHeader_drop spare hhead
    rw [← hraw] at hheader
    generalize hid : Bytes.ofBe32 (raw pos) (raw (pos + 1)) (raw (pos + 2)) (raw (pos + 3)) = canId
      at hheader
    generalize hl : raw (pos + 4) = len at hheader
    rw [readRecord_of_header hd hhead hid hl]
    unfold parseRecord
    rw [hheader]
    simp only [maxUdpPayload] at hd
    by_cases hstart : dataStart pos len ≤ d.length
    · simp only [Option.bind_eq_bind, Option.bind_some, parseFlags_drop spare len hstart,
        parseData_drop spare canId len hstart]
      split
      · rfl
      · next hroom =>
        have hnext : Record.next ⟨canId, len, if IsFd len then raw (pos + 5) else 0,
              dataStart pos len⟩
            = dataStart pos len + if IsRtr canId then 0 else dlcOf len := by
          apply Record.next_of_lt
          intro hrtr
          show dataStart pos len + dlcOf len < 2 ^ 16
          have hle := not_lt.mp fun hlt => hroom ⟨hrtr, hlt⟩
          omega
        simp only [Option.map_some, hnext]
        rfl
    · -- the flags are cut off, which leaves no room for the data of a data record
      have hfd : IsFd len ∧ pos + 5 = d.length := by
        unfold dataStart at hstart
        split at hstart
        · next hfd => exact ⟨hfd, by omega⟩
        · omega
      have hnil : d.drop (pos + 5) = [] := List.drop_of_length_le (by omega)
      have hrtr : ¬ IsRtr canId := fun hrtr => hcut _ hheader ⟨hrtr, hfd.1, hnil⟩
      have hflags : parseFlags len (d.drop (pos + 5)) = none := by
        unfold parseFlags
        rw [if_pos hfd.1, hnil]
      rw [if_pos ⟨hrtr, by omega⟩]
      simp only [Option.bind_eq_bind, Option.bind_some, hflags]
      rfl
  · have hnone : readRecord raw d.length pos = none := if_pos (by
      simp only [cannelloniFrameBaseSize]
      omega)
    rw [hnone]
    unfold parseRecord
    rw [parseHeader_eq_none (by rw [List.length_drop]; omega)]
    rfl

/-! ## The whole walk -/

theorem head_mem_parseHeaders {bytes : List UInt8} {h : UInt32 × UInt8 × List UInt8}
    (hh : parseHeader bytes = some h) (count : ℕ) : h ∈ parseHeaders (count + 1) bytes := by
  rw [parseHeaders, hh]
  exact List.mem_cons_self

theorem mem_parseHeaders_of_rest {bytes rest : List UInt8} {count : ℕ}
    {x : UInt32 × UInt8 × UInt8 × List UInt8} {h : UInt32 × UInt8 × List UInt8}
    (hrec : parseRecord bytes = some (x, rest)) (hmem : h ∈ parseHeaders count rest) :
    h ∈ parseHeaders (count + 1) bytes := by
  obtain ⟨g, hg, -⟩ := Option.bind_eq_some_iff.mp hrec
  rw [parseHeaders, hg, hrec]
  exact List.mem_cons_of_mem g hmem

/-- The records the walk meets are those of the grammar. -/
theorem map_reading_records (spare : ℕ → UInt8) (hd : d.length ≤ maxUdpPayload) {count : ℕ}
    (hcut : ∀ h ∈ parseHeaders count (d.drop pos), ¬ FlagsCutOff h) :
    (records (Bytes.ofList d spare) d.length count pos).map
        (Record.reading (Bytes.ofList d spare))
      = parseRecords count (d.drop pos) := by
  induction count generalizing pos with
  | zero => rfl
  | succ count ih =>
    have hstep := readRecord_eq_parseRecord spare hd
      fun h hh => hcut h (head_mem_parseHeaders hh count)
    rw [records, parseRecords, ← hstep]
    cases hr : readRecord (Bytes.ofList d spare) d.length pos with
    | none => rfl
    | some r =>
      rw [hr] at hstep
      simp only [Option.map_some, List.map_cons]
      rw [ih fun h hh => hcut h (mem_parseHeaders_of_rest hstep.symm hh)]

end Walk

/-! ## The whole call -/

section Call

variable {d : List UInt8} (spare : ℕ → UInt8) (hd : d.length ≤ maxUdpPayload)

theorem accepted_contiguous_iff :
    (PbufChain.contiguous d spare hd).Accepted ↔ HeaderOk d := by
  unfold PbufChain.Accepted HeaderOk
  rw [PbufChain.contiguous_totLen, PbufChain.contiguous_payload]
  apply and_congr_right
  intro hlen
  simp only [cannelloniDataPacketBaseSize] at hlen
  have hbyte : ∀ i b, i < 5 → (Bytes.ofList d spare i = b ↔ d[i]? = some b) := by
    intro i b hi
    have hi' : i < d.length := by omega
    rw [Bytes.ofList, List.getElem?_eq_getElem hi', Option.getD_some, Option.some_inj]
  rw [hbyte 0 _ (by omega), hbyte 1 _ (by omega)]

theorem packetCount_contiguous (h : HeaderOk d) :
    packetCount (PbufChain.contiguous d spare hd).payload = headerCount d := by
  match d, h with
  | _ :: _ :: _ :: _ :: _ :: _, _ => rfl
  | [], h => exact absurd h.1 (by simp)
  | [_], h => exact absurd h.1 (by simp)
  | [_, _], h => exact absurd h.1 (by simp)
  | [_, _, _], h => exact absurd h.1 (by simp)
  | [_, _, _, _], h => exact absurd h.1 (by simp)

/-- The records of an accepted packet are those of the grammar. -/
theorem map_reading_storable (h : HeaderOk d)
    (hcut : ∀ h ∈ parseHeaders (headerCount d) (d.drop 5), ¬ FlagsCutOff h) (free : ℕ) :
    ((PbufChain.contiguous d spare hd).storable free).map (Record.reading (Bytes.ofList d spare))
      = (parseRecords (headerCount d) (d.drop 5)).take free := by
  have hacc := (accepted_contiguous_iff spare hd).mpr h
  unfold PbufChain.storable PbufChain.records
  rw [if_pos hacc, packetCount_contiguous spare hd h, List.map_take, PbufChain.contiguous_totLen,
    PbufChain.contiguous_payload, cannelloniDataPacketBaseSize, map_reading_records spare hd hcut]

/-- A record of the reference parse has its header among the headers. -/
theorem exists_header_of_mem_parseRecords {count : ℕ} {bytes : List UInt8}
    {x : UInt32 × UInt8 × UInt8 × List UInt8} (h : x ∈ parseRecords count bytes) :
    ∃ g ∈ parseHeaders count bytes, g.1 = x.1 ∧ g.2.1 = x.2.1 := by
  induction count generalizing bytes with
  | zero => simp [parseRecords] at h
  | succ count ih =>
    rw [parseRecords] at h
    split at h
    · simp at h
    · next y rest hrec =>
      rcases List.mem_cons.mp h with rfl | h
      · obtain ⟨b₁, -, hheader, -⟩ := parts_of_parseRecord hrec
        exact ⟨_, head_mem_parseHeaders hheader count, rfl, rfl⟩
      · obtain ⟨g, hg, heq⟩ := ih h
        exact ⟨g, mem_parseHeaders_of_rest hrec hg, heq⟩

/-- The callback implements the grammar. A packet with a bad header changes nothing; of any
other, the first records of the reference parse are appended to `tx_queue`, as many as the
header announces, the packet has completely, and the queue has room for. -/
theorem handleCannelloniFrame_grammar (n : Node) (hv : n.handle.txQueue.Valid)
    (hboth : ∀ h ∈ parseHeaders (headerCount d) (d.drop 5), ¬ (IsRtr h.1 ∧ IsFd h.2.1))
    (hdlc : ∀ x ∈ parseRecords (headerCount d) (d.drop 5),
      ¬ IsRtr x.1 → dlcOf x.2.1 ≤ cnlCanfdMaxDlen) :
    ∃ o, handleCannelloniFrame n (some (.contiguous d spare hd)) = .ok o ∧ o.freed = 1 ∧
      (¬ HeaderOk d → o.node = n) ∧
      (HeaderOk d →
        o.node.handle = { n.handle with
          txQueue := o.node.handle.txQueue
          udpRxCount := n.handle.udpRxCount + 1 } ∧
        ∃ appended, o.node.txFrames = n.txFrames ++ appended ∧
          appended.map CanfdFrame.reading = (completeRecords (d.drop 5)).take
            (min (headerCount d)
              (min (completeRecords (d.drop 5)).length n.handle.txQueue.free))) := by
  set p : PbufChain := .contiguous d spare hd with hp
  by_cases hok : HeaderOk d
  · have hacc := (accepted_contiguous_iff spare hd).mpr hok
    have hreading := map_reading_storable spare hd hok
      (fun h hh hcut => hboth h hh ⟨hcut.1, hcut.2.1⟩) n.handle.txQueue.free
    rw [← hp] at hacc hreading
    -- a record that finds a slot is one of the reference parse, and so it fits the slot
    have hfit : ∀ r ∈ p.storable n.handle.txQueue.free, r.Fits := by
      intro r hr
      have hmem := List.mem_map_of_mem (f := Record.reading (Bytes.ofList d spare)) hr
      rw [hreading] at hmem
      by_cases hrtr : IsRtr r.canId
      · exact .inl hrtr
      · exact .inr (hdlc (r.reading (Bytes.ofList d spare)) (List.mem_of_mem_take hmem) hrtr)
    obtain ⟨o, ho, hs⟩ := handleCannelloniFrame_ok hv hfit
    have hmap : o.stored.map CanfdFrame.reading
        = (p.storable n.handle.txQueue.free).map (Record.reading (Bytes.ofList d spare)) := by
      rw [hs.stored_eq]
      exact map_fillSlots _ fun r hr old => Record.reading_frame (hfit r hr) old
    refine ⟨o, ho, hs.freed_eq, fun h => absurd hok h, fun _ => ⟨?_, o.stored, hs.txFrames_eq, ?_⟩⟩
    · have hhandle := hs.handle_eq
      rw [if_pos hacc] at hhandle
      exact hhandle
    · rw [hmap, hreading, parseRecords_eq_take, List.take_take, List.take_eq_take_iff]
      omega
  · have hacc := mt (accepted_contiguous_iff spare hd).mp hok
    rw [← hp] at hacc
    refine ⟨⟨n, [], 1⟩, ?_, rfl, fun _ => rfl, fun h => absurd h hok⟩
    simp only [handleCannelloniFrame, if_neg hacc]

end Call

/-- A record of one data byte, and a second record that is cut off. -/
theorem handleCannelloniFrame_grammar_cut_off :
    ∃ o, handleCannelloniFrame ⟨zeroMemory, initCannelloni (mainInit 0 0)⟩
        (some (.contiguous [2, 0, 0, 0, 2, 0, 0, 0, 1, 1, 7, 0, 0, 0, 2, 5, 1] (fun _ => 0)
          (by simp))) = .ok o ∧ o.freed = 1 ∧ o.node.handle.udpRxCount = 1 ∧
      ∃ appended, o.node.txFrames = appended ∧
        appended.map CanfdFrame.reading = [(1, 1, 0, [7])] := by
  obtain ⟨o, ho, hfreed, -, hok⟩ := handleCannelloniFrame_grammar
    (d := [2, 0, 0, 0, 2, 0, 0, 0, 1, 1, 7, 0, 0, 0, 2, 5, 1]) (fun _ => 0) (by simp)
    ⟨zeroMemory, initCannelloni (mainInit 0 0)⟩ (initCannelloni_valid _).tx (by decide +kernel)
    (by decide +kernel)
  obtain ⟨hhandle, appended, htx, hmap⟩ := hok (by decide)
  refine ⟨o, ho, hfreed, ?_, appended, htx, hmap.trans (by decide +kernel)⟩
  rw [hhandle]
  rfl

end Cannelloni
