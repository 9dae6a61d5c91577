import Mathlib.Algebra.Order.BigOperators.Group.List
import Cannelloni.Layout

/-!
# The gateway reads its own datagrams

`transmit_udp_frame` writes the data of every frame and no flags, while
`handle_cannelloni_frame` expects flags behind a length with the CAN FD bit and no data behind
an identifier with the RTR flag. A datagram comes back as the frames it was made of when the
layout that is read is the beginning of what was written (`prefix_of_roundTrips`), and
`roundTrips_iff` says for which frames this is so.
-/

namespace Cannelloni

/-! ## The system -/

/-- The datagram sent by `n` is stored by `n'` as the frames `n` had queued. -/
def RoundTrips (n n' : Node) (spill : Slot → ℕ → UInt8) (payload spare : ℕ → UInt8) : Prop :=
  ∃ d, (transmitUdpFrame spill (some payload) n).sent = some d ∧
    ∃ (hd : d.payload.length ≤ maxUdpPayload) (o : Handled),
      handleCannelloniFrame n' (some (.contiguous d.payload spare hd)) = .ok o ∧
      o.stored.map CanfdFrame.reading = n.rxFrames.map CanfdFrame.reading

/-! ## What is stored -/

section Sound

variable {rawData : ℕ → UInt8} {totLen pos : ℕ}

theorem RecordsAt.exists_recordAt {rs : List Record} (h : RecordsAt rawData totLen pos rs) :
    ∀ r ∈ rs, ∃ pos, RecordAt rawData totLen pos r := by
  induction rs generalizing pos with
  | nil => simp
  | cons r rs ih =>
    intro r' hr'
    rcases List.mem_cons.mp hr' with rfl | hr'
    · exact ⟨pos, h.1⟩
    · exact ih h.2 r' hr'

/-- A record that is not both a remote and a CAN FD one ends inside the packet. -/
theorem RecordAt.next_le (hlen : totLen ≤ maxUdpPayload) {r : Record}
    (h : RecordAt rawData totLen pos r) (hboth : ¬ (IsFd r.len ∧ IsRtr r.canId)) :
    r.next ≤ totLen := by
  have hhead := h.header
  have hpos := h.pos_eq
  rw [h.next_eq hlen]
  by_cases hrtr : IsRtr r.canId
  · rw [if_neg fun hfd => hboth ⟨hfd, hrtr⟩] at hpos
    rw [if_pos hrtr]
    omega
  · rw [if_neg hrtr]
    exact h.data.resolve_left hrtr

/-- So do several records. -/
theorem RecordsAt.end_le (hlen : totLen ≤ maxUdpPayload) {rs : List Record}
    (h : RecordsAt rawData totLen pos rs) (hfit : ∀ r ∈ rs, r.Fits)
    (hboth : ∀ r ∈ rs, ¬ (IsFd r.len ∧ IsRtr r.canId)) (hpos : pos ≤ totLen) (mem : Memory)
    (q : FramesQueue) :
    pos + ((fillSlots (Record.frame rawData) mem q rs).map recordSize).sum ≤ totLen := by
  induction rs generalizing pos q with
  | nil => simpa [fillSlots] using hpos
  | cons r rs ih =>
    obtain ⟨hnext, -⟩ := h.1.slice_eq hlen (hfit r List.mem_cons_self) (mem (q.freeSlot 0))
    have hle := h.1.next_le hlen (hboth r List.mem_cons_self)
    have hrest := ih h.2 (fun r' hr' => hfit r' (List.mem_cons_of_mem r hr'))
      (fun r' hr' => hboth r' (List.mem_cons_of_mem r hr')) hle q.push
    rw [fillSlots, List.map_cons, List.sum_cons]
    omega

end Sound

theorem exists_mem_of_map_eq {α β : Type*} {φ : α → β} {xs ys : List α} (h : xs.map φ = ys.map φ)
    {x : α} (hx : x ∈ xs) : ∃ y ∈ ys, φ y = φ x := by
  apply List.mem_map.mp
  rw [← h]
  exact List.mem_map_of_mem hx

section Node

variable {n n' : Node} {spill : Slot → ℕ → UInt8} {payload spare : ℕ → UInt8}

/-- A packet that was read as the frames `fs` starts with the layout of these frames, and the
classic ones among them have no flags. -/
theorem prefix_of_stored (hv : n'.handle.txQueue.Valid) {seqNo : UInt8} {fs : List CanfdFrame}
    {body : List UInt8} (hboth : ∀ f ∈ fs, ¬ (IsFd f.len ∧ IsRtr f.canId))
    (hd : (packetHeader seqNo fs.length ++ body).length ≤ maxUdpPayload) {o : Handled}
    (ho : handleCannelloniFrame n' (some (.contiguous _ spare hd)) = .ok o)
    (hstored : o.stored.map CanfdFrame.reading = fs.map CanfdFrame.reading) :
    fs.flatMap recordBytes <+: body ∧ ∀ f ∈ fs, ¬ IsFd f.len → f.flags = 0 := by
  set p : PbufChain := .contiguous (packetHeader seqNo fs.length ++ body) spare hd with hp
  obtain ⟨hfit, hs⟩ := stores_of_ok hv ho
  have hat := p.recordsAt_storable n'.handle.txQueue.free
  have hheader : (packetHeader seqNo fs.length).length = 5 := rfl
  have htot : p.totLen = 5 + body.length := by
    rw [hp, PbufChain.contiguous_totLen, List.length_append, hheader]
  -- the headers of the records that were stored are those of `fs`
  have hkeys : (p.storable n'.handle.txQueue.free).map (fun r => (r.canId, r.len, r.flags))
      = fs.map fun f => (f.canId, f.len, f.flags) := by
    have hfs := congrArg (List.map fun v => (v.1, v.2.1, v.2.2.1)) hstored
    rw [List.map_map, List.map_map, hs.stored_eq] at hfs
    have hrs : (fillSlots (Record.frame p.payload) n'.mem n'.handle.txQueue
          (p.storable n'.handle.txQueue.free)).map (fun f => (f.canId, f.len, f.flags))
        = (p.storable n'.handle.txQueue.free).map fun r => (r.canId, r.len, r.flags) :=
      map_fillSlots _ (by simp)
    exact hrs.symm.trans hfs
  constructor
  · have hroom := hat.end_le p.totLen_le hfit
      (fun r hr => by
        have hmem := List.mem_map_of_mem (f := fun r : Record => (r.canId, r.len, r.flags)) hr
        rw [hkeys] at hmem
        obtain ⟨f, hf, heq⟩ := List.mem_map.mp hmem
        simp only [Prod.mk.injEq] at heq
        rw [← heq.1, ← heq.2.1]
        exact hboth f hf)
      (by simp only [cannelloniDataPacketBaseSize]; omega) n'.mem n'.handle.txQueue
    have hbytes := hs.flatMap_recordBytes hfit
    rw [← hs.stored_eq, htot] at hroom
    rw [flatMap_recordBytes, hstored, ← flatMap_recordBytes, hp, PbufChain.contiguous_payload,
      Bytes.slice_ofList_of_le (by rw [List.length_append, hheader]; exact hroom)] at hbytes
    rw [hbytes]
    exact List.take_prefix _ _
  · intro f hf hfd
    have hmem := List.mem_map_of_mem (f := fun f : CanfdFrame => (f.canId, f.len, f.flags)) hf
    rw [← hkeys] at hmem
    obtain ⟨r, hr, heq⟩ := List.mem_map.mp hmem
    simp only [Prod.mk.injEq] at heq
    obtain ⟨pos, hrat⟩ := hat.exists_recordAt r hr
    have hflags := hrat.flags_eq
    rw [heq.2.1, if_neg hfd] at hflags
    rw [← heq.2.2, hflags]

end Node

/-! ## Data of remote frames -/

/-- The frame with its data changed, if it is a remote one. -/
def CanfdFrame.scramble (f : CanfdFrame) : CanfdFrame :=
  if IsRtr f.canId then { f with data := f.data.map (· ^^^ 1) } else f

theorem CanfdFrame.reading_scramble (f : CanfdFrame) : f.scramble.reading = f.reading := by
  unfold scramble
  by_cases h : IsRtr f.canId
  · rw [if_pos h]
    unfold reading
    simp only [if_pos h]
  · rw [if_neg h]

section Scramble

variable {fs : List CanfdFrame}

/-- Frames that do not show the data of a remote frame. -/
theorem wireBytes_scramble {f : CanfdFrame} (h : IsRtr f.canId → canfdLen f = 0) :
    wireBytes f.scramble = wireBytes f := by
  unfold CanfdFrame.scramble
  by_cases hrtr : IsRtr f.canId
  · have hlen : canfdLen f = 0 := h hrtr
    have hlen' : canfdLen { f with data := f.data.map (· ^^^ 1) } = 0 := hlen
    rw [if_pos hrtr]
    unfold wireBytes
    rw [hlen, hlen', List.take_zero, List.take_zero]
  · rw [if_neg hrtr]

/-- The first data byte stands behind the header. -/
theorem getElem?_wireBytes {f : CanfdFrame} (hpos : canfdLen f ≠ 0) (rest : List UInt8) :
    (wireBytes f ++ rest)[5]? = some f.data[0] := by
  have hlen : 0 < (f.data.toList.take (canfdLen f)).length := by
    rw [List.length_take, Vector.length_toList]
    simp only [cnlCanfdMaxDlen]
    omega
  show (f.data.toList.take (canfdLen f) ++ rest)[0]? = some f.data[0]
  rw [List.getElem?_append_left hlen, List.getElem?_take_of_lt (by omega),
    List.getElem?_eq_getElem (by rw [Vector.length_toList]; decide), Vector.getElem_toList]

/-- A remote frame with a length shows its data. -/
theorem wireBytes_scramble_ne {f : CanfdFrame} (hrtr : IsRtr f.canId) (hpos : canfdLen f ≠ 0)
    (rest rest' : List UInt8) :
    (wireBytes f.scramble ++ rest)[5]? ≠ (wireBytes f ++ rest')[5]? := by
  have hscramble : f.scramble = { f with data := f.data.map (· ^^^ 1) } := if_pos hrtr
  have hpos' : canfdLen f.scramble ≠ 0 := by
    rw [hscramble]
    exact hpos
  rw [getElem?_wireBytes hpos', getElem?_wireBytes hpos, hscramble]
  simp only [Vector.getElem_map, ne_eq, Option.some.injEq]
  intro heq
  have hone := (UInt8.xor_right_inj f.data[0]).mp (heq.trans (UInt8.xor_zero).symm)
  exact absurd hone (by decide)

/-- Without data of remote frames, what is read is at least as long as what is written. -/
theorem frameSize_le_recordSize {f : CanfdFrame} (h : IsRtr f.canId → canfdLen f = 0) :
    frameSize f + (if IsFd f.len then 1 else 0) ≤ recordSize f := by
  unfold frameSize recordSize
  by_cases hrtr : IsRtr f.canId
  · rw [if_pos hrtr, h hrtr]
    omega
  · rw [if_neg hrtr]
    omega

theorem packSize_le_sum_recordSize (h : ∀ f ∈ fs, IsRtr f.canId → canfdLen f = 0) :
    packSize fs ≤ (fs.map recordSize).sum := by
  apply List.sum_le_sum
  intro f hf
  have := frameSize_le_recordSize (h f hf)
  omega

theorem packSize_lt_sum_recordSize (h : ∀ f ∈ fs, IsRtr f.canId → canfdLen f = 0)
    (hfd : ∃ f ∈ fs, IsFd f.len) : packSize fs < (fs.map recordSize).sum := by
  obtain ⟨f, hf, hf_fd⟩ := hfd
  apply List.sum_lt_sum
  · intro g hg
    have := frameSize_le_recordSize (h g hg)
    omega
  · refine ⟨f, hf, ?_⟩
    have := frameSize_le_recordSize (h f hf)
    rw [if_pos hf_fd] at this
    omega

theorem getElem?_of_prefix_of_lt {α : Type*} {xs ys : List α} (h : xs <+: ys) {k : ℕ}
    (hk : k < xs.length) : xs[k]? = ys[k]? := by
  obtain ⟨rest, rfl⟩ := h
  rw [List.getElem?_append_left hk]

/-- The first remote frame with a length, if there is one. -/
theorem exists_first_remote (fs : List CanfdFrame) :
    (∀ f ∈ fs, IsRtr f.canId → canfdLen f = 0) ∨
      ∃ pre f post, fs = pre ++ f :: post ∧ IsRtr f.canId ∧ canfdLen f ≠ 0 ∧
        ∀ g ∈ pre, IsRtr g.canId → canfdLen g = 0 := by
  cases hfind : fs.find? fun f => decide (IsRtr f.canId ∧ canfdLen f ≠ 0) with
  | none =>
    left
    intro f hf hrtr
    by_contra hpos
    have := List.find?_eq_none.mp hfind f hf
    simp only [decide_eq_true_eq] at this
    exact this ⟨hrtr, hpos⟩
  | some f =>
    right
    obtain ⟨hf, pre, post, hsplit, hpre⟩ := List.find?_eq_some_iff_append.mp hfind
    obtain ⟨hrtr, hpos⟩ := of_decide_eq_true hf
    refine ⟨pre, f, post, hsplit, hrtr, hpos, ?_⟩
    intro g hg hg_rtr
    by_contra hg_pos
    have := hpre g hg
    simp [hg_rtr, hg_pos] at this

/-- When the layout that is read stands at the beginning of what is written, whatever the data
of remote frames, there are no CAN FD frames and no remote frame but the last has a length. -/
theorem classic_of_prefix (hle : ∀ f ∈ fs, canfdLen f ≤ cnlCanfdMaxDlen)
    (h : fs.flatMap recordBytes <+: fs.flatMap wireBytes)
    (h' : fs.flatMap recordBytes <+: (fs.map CanfdFrame.scramble).flatMap wireBytes) :
    (∀ f ∈ fs, ¬ IsFd f.len) ∧ ∀ f ∈ fs.dropLast, IsRtr f.canId → canfdLen f = 0 := by
  have hlength := length_flatMap_recordBytes hle
  rcases exists_first_remote fs with hnone | ⟨pre, f, post, rfl, hrtr, hpos, hpre⟩
  · -- both layouts have the same length, less the flags of the CAN FD frames
    refine ⟨?_, fun f hf => hnone f (List.dropLast_subset _ hf)⟩
    intro f hf hfd
    have hlt := packSize_lt_sum_recordSize hnone ⟨f, hf, hfd⟩
    have hshort := h.length_le
    rw [hlength, length_flatMap_wireBytes hle] at hshort
    omega
  · have hpre_bytes : (pre.map CanfdFrame.scramble).flatMap wireBytes = pre.flatMap wireBytes := by
      rw [List.flatMap_map]
      exact List.flatMap_congr fun g hg => wireBytes_scramble (hpre g hg)
    have hpre_length : (pre.flatMap wireBytes).length = packSize pre :=
      length_flatMap_wireBytes fun g hg => hle g (List.mem_append_left _ hg)
    have hbehind : ∀ bs, (pre.flatMap wireBytes ++ bs)[packSize pre + 5]? = bs[5]? := by
      intro bs
      rw [List.getElem?_append_right (by omega), hpre_length, Nat.add_sub_cancel_left]
    -- the first data byte of `f` lies behind everything that is read
    have hshort : ((pre ++ f :: post).flatMap recordBytes).length ≤ packSize pre + 5 := by
      by_contra hlong
      rw [not_le] at hlong
      have hbyte := (getElem?_of_prefix_of_lt h' hlong).symm.trans
        (getElem?_of_prefix_of_lt h hlong)
      rw [List.map_append, List.map_cons, List.flatMap_append, List.flatMap_append, hpre_bytes,
        hbehind, hbehind, List.flatMap_cons, List.flatMap_cons] at hbyte
      exact wireBytes_scramble_ne hrtr hpos _ _ hbyte
    rw [hlength, List.map_append, List.map_cons, List.sum_append, List.sum_cons] at hshort
    have hpre_size := packSize_le_sum_recordSize hpre
    have hf_size := five_le_recordSize f
    have hpost_size := length_le_sum_recordSize post
    simp only [cannelloniFrameBaseSize] at hpost_size
    obtain rfl : post = [] := List.length_eq_zero_iff.mp (by omega)
    refine ⟨?_, by rwa [List.dropLast_concat]⟩
    intro g hg hfd
    rcases List.mem_append.mp hg with hg | hg
    · have := packSize_lt_sum_recordSize hpre ⟨g, hg, hfd⟩
      omega
    · obtain rfl : g = f := by simpa using hg
      have : recordSize g = 5 + 1 + 0 := by
        unfold recordSize
        rw [if_pos hfd, if_pos hrtr]
        rfl
      omega

end Scramble

/-! ## The round trip -/

section RoundTrip

variable {n n' : Node} {spill : Slot → ℕ → UInt8} {payload spare : ℕ → UInt8}

/-- The frames in a queue, seen through a function that two memories agree on. -/
theorem map_contents_congr {β : Type*} {φ : CanfdFrame → β} {mem mem' : Memory}
    (h : ∀ s, φ (mem' s) = φ (mem s)) (q : FramesQueue) :
    (q.contents mem').map φ = (q.contents mem).map φ := by
  simp only [FramesQueue.contents, Ring.Cursor.contents, List.map_map]
  exact List.map_congr_left fun k _ => h _

theorem contents_scramble (mem : Memory) (q : FramesQueue) :
    q.contents (fun s => (mem s).scramble) = (q.contents mem).map CanfdFrame.scramble := by
  simp only [FramesQueue.contents, Ring.Cursor.contents, List.map_map]
  rfl

/-- The datagram of a queue that fits one. -/
theorem sent_of_fits (hv : n.handle.Valid) (hne : n.rxFrames ≠ [])
    (hle : ∀ f ∈ n.rxFrames, canfdLen f ≤ cnlCanfdMaxDlen)
    (hfit : cannelloniDataPacketBaseSize + packSize n.rxFrames < txPbufLen) :
    (transmitUdpFrame spill (some payload) n).sent = some ⟨n.handle.init.remotePort,
      datagramOf n.handle.sequenceNumber.toUInt8 n.rxFrames⟩ := by
  have he : ¬ n.handle.rxQueue.Empty := by
    intro he
    exact hne (contents_of_empty hv.rx he)
  have hsends := transmitUdpFrame_sent spill hv he payload
  have hsent := hsends.sent_eq fun f hf => hle f (List.mem_of_mem_take hf)
  rw [packed_eq_self hfit] at hsent
  exact hsent

/-- Frames of which the layout that is read stands at the beginning of what is written. -/
theorem prefix_of_classic {fs : List CanfdFrame} (hfd : ∀ f ∈ fs, ¬ IsFd f.len)
    (hrtr : ∀ f ∈ fs.dropLast, IsRtr f.canId → canfdLen f = 0) :
    fs.flatMap recordBytes <+: fs.flatMap wireBytes := by
  by_cases hne : fs = []
  · rw [hne]
    exact List.prefix_refl _
  obtain ⟨init, last, rfl⟩ : ∃ init last, fs = init ++ [last] :=
    ⟨fs.dropLast, fs.getLast hne, (List.dropLast_append_getLast hne).symm⟩
  rw [List.dropLast_concat] at hrtr
  have hinit : init.flatMap recordBytes = init.flatMap wireBytes :=
    List.flatMap_congr fun f hf =>
      recordBytes_eq_wireBytes (hfd f (List.mem_append_left _ hf)) (hrtr f hf)
  rw [List.flatMap_append, List.flatMap_append, hinit, List.flatMap_singleton,
    List.flatMap_singleton]
  exact (List.prefix_append_right_inj _).mpr (recordBytes_prefix_wireBytes (hfd last (by simp)))

section Fits

variable (hv : n.handle.Valid) (hv' : n'.handle.Valid) (hne : n.rxFrames ≠ [])
  (hle : ∀ f ∈ n.rxFrames, canfdLen f ≤ cnlCanfdMaxDlen)
  (hfit : cannelloniDataPacketBaseSize + packSize n.rxFrames < txPbufLen)
include hv hv' hne hle hfit

theorem roundTrips_of_classic (hfree : n.rxFrames.length ≤ n'.handle.txQueue.free)
    (hfd : ∀ f ∈ n.rxFrames, ¬ IsFd f.len ∧ f.flags = 0)
    (hrtr : ∀ f ∈ n.rxFrames.dropLast, IsRtr f.canId → canfdLen f = 0) :
    RoundTrips n n' spill payload spare := by
  have hd : (datagramOf n.handle.sequenceNumber.toUInt8 n.rxFrames).length ≤ maxUdpPayload := by
    rw [length_datagramOf hle]
    simp only [txPbufLen, maxUdpPayload] at hfit ⊢
    omega
  obtain ⟨o, ho, -, -, hreading⟩ := handleCannelloniFrame_reads hv'.tx hne hle
    (prefix_of_classic (fun f hf => (hfd f hf).1) hrtr) hfree spare hd
  refine ⟨_, sent_of_fits hv hne hle hfit, hd, o, ho, ?_⟩
  rw [hreading]
  apply List.map_congr_left
  intro f hf
  rw [CanfdFrame.onWire_eq_self fun _ => (hfd f hf).2]

theorem prefix_of_roundTrips (hboth : ∀ f ∈ n.rxFrames, ¬ (IsFd f.len ∧ IsRtr f.canId))
    (h : RoundTrips n n' spill payload spare) :
    n.rxFrames.flatMap recordBytes <+: n.rxFrames.flatMap wireBytes ∧
      ∀ f ∈ n.rxFrames, ¬ IsFd f.len → f.flags = 0 := by
  obtain ⟨d, hsent, hd, o, ho, hstored⟩ := h
  rw [sent_of_fits hv hne hle hfit] at hsent
  obtain rfl := Option.some.inj hsent
  exact prefix_of_stored hv'.tx hboth hd ho hstored

end Fits

end RoundTrip

/-- What the conditions on a list of frames ask for is settled by their readings. -/
theorem forall_of_map_reading {P : CanfdFrame → Prop}
    (hP : ∀ f g : CanfdFrame, f.reading = g.reading → P f → P g) {fs gs : List CanfdFrame}
    (h : gs.map CanfdFrame.reading = fs.map CanfdFrame.reading) (hfs : ∀ f ∈ fs, P f) :
    ∀ g ∈ gs, P g := by
  intro g hg
  obtain ⟨f, hf, heq⟩ := exists_mem_of_map_eq h hg
  exact hP f g heq (hfs f hf)

theorem packSize_congr {fs gs : List CanfdFrame}
    (h : gs.map CanfdFrame.reading = fs.map CanfdFrame.reading) : packSize gs = packSize fs := by
  have hsizes := congrArg (List.map fun v => cannelloniFrameBaseSize + dlcOf v.2.1) h
  rw [List.map_map, List.map_map] at hsizes
  exact congrArg List.sum hsizes

section SameReadings

variable {n : Node} {mem : Memory} (hreading : ∀ s, (mem s).reading = (n.mem s).reading)
include hreading

/-- Memories with the same readings hold frames to which the same conditions apply. -/
theorem map_reading_rxFrames :
    (Node.mk mem n.handle).rxFrames.map CanfdFrame.reading
      = n.rxFrames.map CanfdFrame.reading :=
  map_contents_congr hreading n.handle.rxQueue

theorem rxFrames_ne_nil_of_reading (hne : n.rxFrames ≠ []) :
    (Node.mk mem n.handle).rxFrames ≠ [] := by
  intro hnil
  have hmap := map_reading_rxFrames hreading
  rw [hnil] at hmap
  exact hne (by simpa using hmap.symm)

theorem canfdLen_le_of_reading (hle : ∀ f ∈ n.rxFrames, canfdLen f ≤ cnlCanfdMaxDlen) :
    ∀ f ∈ (Node.mk mem n.handle).rxFrames, canfdLen f ≤ cnlCanfdMaxDlen := by
  refine forall_of_map_reading (fun f g hfg hf => ?_) (map_reading_rxFrames hreading) hle
  rw [canfdLen, ← (CanfdFrame.reading_eq_iff.mp hfg).2.1]
  exact hf

theorem not_both_of_reading (hboth : ∀ f ∈ n.rxFrames, ¬ (IsFd f.len ∧ IsRtr f.canId)) :
    ∀ f ∈ (Node.mk mem n.handle).rxFrames, ¬ (IsFd f.len ∧ IsRtr f.canId) := by
  refine forall_of_map_reading (fun f g hfg hf => ?_) (map_reading_rxFrames hreading) hboth
  obtain ⟨hid, hlen, -⟩ := CanfdFrame.reading_eq_iff.mp hfg
  rw [← hid, ← hlen]
  exact hf

theorem classic_of_reading (hfd : ∀ f ∈ n.rxFrames, ¬ IsFd f.len ∧ f.flags = 0) :
    ∀ f ∈ (Node.mk mem n.handle).rxFrames, ¬ IsFd f.len ∧ f.flags = 0 := by
  refine forall_of_map_reading (fun f g hfg hf => ?_) (map_reading_rxFrames hreading) hfd
  obtain ⟨-, hlen, hflags, -⟩ := CanfdFrame.reading_eq_iff.mp hfg
  rw [← hlen, ← hflags]
  exact hf

theorem remote_len_of_reading
    (hrtr : ∀ f ∈ n.rxFrames.dropLast, IsRtr f.canId → canfdLen f = 0) :
    ∀ f ∈ (Node.mk mem n.handle).rxFrames.dropLast, IsRtr f.canId → canfdLen f = 0 := by
  have hlast : (Node.mk mem n.handle).rxFrames.dropLast.map CanfdFrame.reading
      = n.rxFrames.dropLast.map CanfdFrame.reading := by
    rw [List.map_dropLast, List.map_dropLast, map_reading_rxFrames hreading]
  refine forall_of_map_reading (fun f g hfg hf => ?_) hlast hrtr
  obtain ⟨hid, hlen, -⟩ := CanfdFrame.reading_eq_iff.mp hfg
  rw [canfdLen, ← hid, ← hlen]
  exact hf

end SameReadings

/-- A datagram of frames that fit it comes back as these frames, whatever the data arrays of
remote frames hold, exactly when no frame is a CAN FD one, none has flags, and no remote frame
but the last has a length. -/
theorem roundTrips_iff (n n' : Node) (hv : n.handle.Valid) (hv' : n'.handle.Valid)
    (hne : n.rxFrames ≠ []) (hle : ∀ f ∈ n.rxFrames, canfdLen f ≤ cnlCanfdMaxDlen)
    (hboth : ∀ f ∈ n.rxFrames, ¬ (IsFd f.len ∧ IsRtr f.canId))
    (hfit : cannelloniDataPacketBaseSize + packSize n.rxFrames < txPbufLen)
    (hfree : n.rxFrames.length ≤ n'.handle.txQueue.free) (spill : Slot → ℕ → UInt8)
    (payload spare : ℕ → UInt8) :
    (∀ mem : Memory, (∀ s, (mem s).reading = (n.mem s).reading) →
      RoundTrips ⟨mem, n.handle⟩ n' spill payload spare) ↔
      (∀ f ∈ n.rxFrames, ¬ IsFd f.len ∧ f.flags = 0) ∧
        ∀ f ∈ n.rxFrames.dropLast, IsRtr f.canId → canfdLen f = 0 := by
  constructor
  · intro h
    obtain ⟨hpre, hflags⟩ := prefix_of_roundTrips hv hv' hne hle hfit hboth
      (h n.mem fun _ => rfl)
    -- the same frames with other bytes in the data arrays of the remote ones
    set mem : Memory := fun s => (n.mem s).scramble
    have hreading : ∀ s, (mem s).reading = (n.mem s).reading :=
      fun s => (n.mem s).reading_scramble
    have hgs := map_reading_rxFrames hreading
    obtain ⟨hpre', -⟩ := prefix_of_roundTrips (n := ⟨mem, n.handle⟩) hv hv'
      (rxFrames_ne_nil_of_reading hreading hne) (canfdLen_le_of_reading hreading hle)
      (by rw [packSize_congr hgs]; exact hfit) (not_both_of_reading hreading hboth)
      (h mem hreading)
    have hscramble : (Node.mk mem n.handle).rxFrames = n.rxFrames.map CanfdFrame.scramble :=
      contents_scramble n.mem n.handle.rxQueue
    rw [flatMap_recordBytes, hgs, ← flatMap_recordBytes, hscramble] at hpre'
    -- what is read is the beginning of both datagrams, so it shows no data of a remote frame
    obtain ⟨hfd, hrtr⟩ := classic_of_prefix hle hpre hpre'
    exact ⟨fun f hf => ⟨hfd f hf, hflags f hf (hfd f hf)⟩, hrtr⟩
  · intro hclassic mem hreading
    rcases hclassic with ⟨hfd, hrtr⟩
    have hgs := map_reading_rxFrames hreading
    have hlength : (Node.mk mem n.handle).rxFrames.length = n.rxFrames.length := by
      simpa using congrArg List.length hgs
    apply roundTrips_of_classic (n := ⟨mem, n.handle⟩) hv hv'
      (rxFrames_ne_nil_of_reading hreading hne) (canfdLen_le_of_reading hreading hle)
    · rw [packSize_congr hgs]
      exact hfit
    · rw [hlength]
      exact hfree
    · exact classic_of_reading hreading hfd
    · exact remote_len_of_reading hreading hrtr

/-- A remote frame with a length, alone in its datagram. -/
theorem roundTrips_remote :
    RoundTrips (.backlog 1 ⟨0x40000001, 3, 0, Vector.replicate _ 9⟩)
      ⟨zeroMemory, initCannelloni (mainInit 0 0)⟩ (fun _ _ => 0) (fun _ => 0) (fun _ => 0) :=
  (roundTrips_iff (.backlog 1 ⟨0x40000001, 3, 0, Vector.replicate _ 9⟩)
    ⟨zeroMemory, initCannelloni (mainInit 0 0)⟩ (Node.backlog_valid (by decide) _)
    (initCannelloni_valid _) (by decide) (by decide) (by decide) (by decide) (by decide)
    (fun _ _ => 0) (fun _ => 0) (fun _ => 0)).mpr (by decide) _ fun _ => rfl

/-- A CAN FD frame does not come back: its flags are expected but were not written. -/
theorem fd_frame_lost :
    ¬ ∀ (n n' : Node) (spill : Slot → ℕ → UInt8) (payload spare : ℕ → UInt8), n.handle.Valid →
      n'.handle.Valid → n.rxFrames ≠ [] →
      (∀ f ∈ n.rxFrames, canfdLen f ≤ cnlCanfdMaxDlen) →
      (∀ f ∈ n.rxFrames, ¬ (IsFd f.len ∧ IsRtr f.canId)) →
      cannelloniDataPacketBaseSize + packSize n.rxFrames < txPbufLen →
      n.rxFrames.length ≤ n'.handle.txQueue.free → RoundTrips n n' spill payload spare := by
  intro h
  set n := Node.backlog 1 ⟨1, 0x81, 5, Vector.replicate _ 7⟩ with hn
  have hv : n.handle.Valid := Node.backlog_valid (by decide) _
  have hv' := initCannelloni_valid (mainInit 0 0)
  have hne : n.rxFrames ≠ [] := by decide
  have hle : ∀ f ∈ n.rxFrames, canfdLen f ≤ cnlCanfdMaxDlen := by decide
  have hboth : ∀ f ∈ n.rxFrames, ¬ (IsFd f.len ∧ IsRtr f.canId) := by decide
  have hfit : cannelloniDataPacketBaseSize + packSize n.rxFrames < txPbufLen := by decide
  obtain ⟨hpre, -⟩ := prefix_of_roundTrips hv hv' hne hle hfit hboth
    (h n ⟨zeroMemory, _⟩ (fun _ _ => 0) (fun _ => 0) (fun _ => 0) hv hv' hne hle hboth hfit
      (by decide))
  exact absurd hpre (by decide)

end Cannelloni
