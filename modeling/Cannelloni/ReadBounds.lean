import Cannelloni.Grammar

/-!
# Where the callback reads

The walk over the records once more, now with the positions of `rawData` it reads in each pass
and the position it has reached behind an accepted record. The first bound check covers the
identifier and the length byte; the flags byte is read before the second one, which a remote
record skips. `readsInside_iff` says which packets the callback reads behind the end of.
-/

namespace Cannelloni

/-! ## The positions that are read -/

/-- The positions read for a record header. -/
def headerReads (rawData : ℕ → UInt8) (totLen pos : ℕ) : List ℕ :=
  if pos + cannelloniFrameBaseSize > totLen then []
  else
    let len := u16 (pos + 4)
    [pos, pos + 1, pos + 2, pos + 3, len] ++ if IsFd (rawData len) then [u16 (len + 1)] else []

/-- The positions `memcpy` reads for a record. -/
def Record.dataReads (r : Record) : List ℕ :=
  if IsRtr r.canId then [] else (List.range (dlcOf r.len)).map (r.pos + ·)

/-- One pass of the loop: the positions read and, when the record was accepted, the position
behind it. -/
structure Pass where
  reads : List ℕ
  stop : Option ℕ
deriving DecidableEq, Repr

/-- The passes of the loop, with the number of iterations left. -/
def passes (rawData : ℕ → UInt8) (totLen : ℕ) : ℕ → FramesQueue → ℕ → List Pass
  | 0, _, _ => []
  | i + 1, q, pos =>
    match readRecord rawData totLen pos with
    | none => [⟨headerReads rawData totLen pos, none⟩]
    | some r =>
      match queuePut q with
      | (none, _) => [⟨headerReads rawData totLen pos, none⟩]
      | (some _, q) =>
        ⟨headerReads rawData totLen pos ++ r.dataReads, some r.next⟩
          :: passes rawData totLen i q r.next

/-- The positions read for the packet header: `version` and `op_code` when the packet is long
enough, and `count` when they are right. -/
def PbufChain.headReads (p : PbufChain) : List ℕ :=
  if p.Accepted then [0, 1, 3, 4]
  else if p.totLen > cannelloniDataPacketBaseSize then [0, 1] else []

/-- The passes of a call. -/
def PbufChain.passes (p : PbufChain) (q : FramesQueue) : List Pass :=
  if p.Accepted then
    Cannelloni.passes p.payload p.totLen (packetCount p.payload) q cannelloniDataPacketBaseSize
  else []

/-- The call reads inside the packet, and accepts only records that end inside it. -/
structure ReadsInside (p : PbufChain) (q : FramesQueue) : Prop where
  head : ∀ i ∈ p.headReads, i < p.totLen
  reads : ∀ pass ∈ p.passes q, ∀ i ∈ pass.reads, i < p.totLen
  stop : ∀ pass ∈ p.passes q, ∀ pos ∈ pass.stop, pos ≤ p.totLen

/-! ## Nothing else is read -/

section Congr

variable {rawData rawData' : ℕ → UInt8} {totLen : ℕ}

theorem readRecord_eq_of_reads {pos : ℕ}
    (h : ∀ i ∈ headerReads rawData totLen pos, rawData' i = rawData i) :
    readRecord rawData' totLen pos = readRecord rawData totLen pos := by
  unfold headerReads at h
  unfold readRecord
  by_cases hhead : pos + cannelloniFrameBaseSize > totLen
  · rw [if_pos hhead, if_pos hhead]
  · rw [if_neg hhead] at h
    rw [if_neg hhead, if_neg hhead]
    simp only [List.cons_append, List.nil_append, List.forall_mem_cons] at h
    obtain ⟨h0, h1, h2, h3, h4, hflags⟩ := h
    simp only [h0, h1, h2, h3, h4]
    by_cases hfd : IsFd (rawData (u16 (pos + 4)))
    · rw [if_pos hfd] at hflags
      simp only [if_pos hfd, hflags _ (List.mem_singleton_self _)]
    · simp only [if_neg hfd]

/-- The first pass reads a record header, whatever it does with the record. -/
theorem exists_pass_headerReads (rawData : ℕ → UInt8) (totLen i : ℕ) (q : FramesQueue) (pos : ℕ) :
    ∃ pass ∈ passes rawData totLen (i + 1) q pos,
      ∀ k ∈ headerReads rawData totLen pos, k ∈ pass.reads := by
  rw [passes]
  split
  · exact ⟨_, List.mem_cons_self, fun k hk => hk⟩
  · split
    · exact ⟨_, List.mem_cons_self, fun k hk => hk⟩
    · exact ⟨_, List.mem_cons_self, fun k hk => List.mem_append_left _ hk⟩

theorem CanfdFrame.copyData_congr {src src' : ℕ → UInt8} (f : CanfdFrame) {n : ℕ}
    (h : ∀ k < n, src' k = src k) : f.copyData src' n = f.copyData src n := by
  induction n with
  | zero => rfl
  | succ n ih => rw [copyData, copyData, ih fun k hk => h k (by omega), h n (by omega)]

/-- The outcome of the loop depends on the bytes at these positions only. -/
theorem recordLoop_eq_of_reads {i : ℕ} {s : RecordLoop}
    (h : ∀ pass ∈ passes rawData totLen i s.txQueue s.pos, ∀ k ∈ pass.reads,
      rawData' k = rawData k) :
    recordLoop rawData' totLen i s = recordLoop rawData totLen i s := by
  induction i generalizing s with
  | zero => rfl
  | succ i ih =>
    have hheader : ∀ k ∈ headerReads rawData totLen s.pos, rawData' k = rawData k := by
      obtain ⟨pass, hpass, hreads⟩ := exists_pass_headerReads rawData totLen i s.txQueue s.pos
      exact fun k hk => h pass hpass k (hreads k hk)
    rw [passes] at h
    rw [recordLoop, recordLoop, readRecord_eq_of_reads hheader]
    split
    · rfl
    · next r hr =>
      simp only [hr] at h
      split
      · rfl
      · next slot q hput =>
        rw [hput, List.forall_mem_cons] at h
        obtain ⟨hthis, hrest⟩ := h
        by_cases hrtr : IsRtr r.canId
        · simp only [if_pos hrtr]
          refine ih (s := ⟨_, q, r.pos, _⟩) ?_
          rw [Record.next, if_pos hrtr] at hrest
          exact hrest
        · -- the data bytes are those at the positions of the copy
          have hdata : ∀ k < dlcOf r.len, rawData' (r.pos + k) = rawData (r.pos + k) := by
            intro k hk
            apply hthis
            apply List.mem_append_right
            rw [Record.dataReads, if_neg hrtr]
            exact List.mem_map.mpr ⟨k, List.mem_range.mpr hk, rfl⟩
          simp only [if_neg hrtr, CanfdFrame.copyData_congr _ hdata]
          rw [Record.next, if_neg hrtr] at hrest
          exact bind_congr fun frame => ih (s := ⟨_, q, u16 (r.pos + dlcOf r.len), _⟩) hrest

/-- The outcome of a call depends on the bytes at the positions listed only. -/
theorem handleCannelloniFrame_eq_of_reads {n : Node} {p p' : PbufChain}
    (htot : p'.totLen = p.totLen)
    (hhead : ∀ k ∈ p.headReads, p'.payload k = p.payload k)
    (hreads : ∀ pass ∈ p.passes n.handle.txQueue, ∀ k ∈ pass.reads, p'.payload k = p.payload k) :
    handleCannelloniFrame n (some p') = handleCannelloniFrame n (some p) := by
  have hacc_iff : p'.Accepted ↔ p.Accepted := by
    unfold PbufChain.Accepted
    rw [htot]
    apply and_congr_right
    intro hlong
    have hmem : 0 ∈ p.headReads ∧ 1 ∈ p.headReads := by
      unfold PbufChain.headReads
      rw [if_pos hlong]
      split <;> simp
    rw [hhead 0 hmem.1, hhead 1 hmem.2]
  unfold handleCannelloniFrame
  by_cases hacc : p.Accepted
  · have hcount : packetCount p'.payload = packetCount p.payload := by
      unfold PbufChain.headReads at hhead
      rw [if_pos hacc] at hhead
      unfold packetCount
      rw [hhead 3 (by simp), hhead 4 (by simp)]
    unfold PbufChain.passes at hreads
    rw [if_pos hacc] at hreads
    simp only [if_pos hacc, if_pos (hacc_iff.mpr hacc), htot, hcount]
    rw [recordLoop_eq_of_reads hreads]
  · simp only [if_neg hacc, if_neg (mt hacc_iff.mp hacc)]

end Congr

/-! ## When they lie inside the packet -/

/-- A CAN FD header that ends the packet. -/
def EndsAtFlags (h : UInt32 × UInt8 × List UInt8) : Prop := IsFd h.2.1 ∧ h.2.2 = []

instance decidableEndsAtFlags (h : UInt32 × UInt8 × List UInt8) : Decidable (EndsAtFlags h) :=
  inferInstanceAs (Decidable (_ ∧ _))

/-- The pass reads inside a packet of `totLen` bytes and ends there. -/
def Pass.Inside (totLen : ℕ) (pass : Pass) : Prop :=
  (∀ i ∈ pass.reads, i < totLen) ∧ ∀ pos ∈ pass.stop, pos ≤ totLen

section Inside

variable {d : List UInt8} {pos : ℕ} (spare : ℕ → UInt8)

/-- The header of a record is read inside the packet unless its flags lie behind it. -/
theorem headerReads_inside_iff (hd : d.length ≤ maxUdpPayload) (pos : ℕ) :
    (∀ i ∈ headerReads (Bytes.ofList d spare) d.length pos, i < d.length)
      ↔ ∀ h, parseHeader (d.drop pos) = some h → ¬ EndsAtFlags h := by
  simp only [maxUdpPayload] at hd
  unfold headerReads
  by_cases hhead : pos + 5 ≤ d.length
  · have h4 : u16 (pos + 4) = pos + 4 := u16_of_lt (by omega)
    have h5 : u16 (pos + 4 + 1) = pos + 5 := u16_of_lt (by omega)
    have hnil : d.drop (pos + 5) = [] ↔ ¬ pos + 5 < d.length := by
      rw [List.drop_eq_nil_iff]
      omega
    rw [if_neg (by simp only [cannelloniFrameBaseSize]; omega), parseHeader_drop spare hhead]
    simp only [h4, h5, Option.some_inj, forall_eq', EndsAtFlags, hnil, not_and, not_not]
    constructor
    · intro h hfd
      rw [if_pos hfd] at h
      exact h (pos + 5) (by simp)
    · intro h i hi
      rcases List.mem_append.mp hi with hi | hi
      · simp only [List.mem_cons, List.not_mem_nil, or_false] at hi
        omega
      · split at hi
        · next hfd =>
          rw [List.mem_singleton.mp hi]
          exact h hfd
        · simp at hi
  · rw [if_pos (by simp only [cannelloniFrameBaseSize]; omega),
      parseHeader_eq_none (by rw [List.length_drop]; omega)]
    simp

/-- The data of a record whose flags lie inside the packet do so, too. -/
theorem RecordAt.dataReads_inside {rawData : ℕ → UInt8} {totLen : ℕ}
    (hlen : totLen ≤ maxUdpPayload) {r : Record} (h : RecordAt rawData totLen pos r)
    (hpos : r.pos ≤ totLen) : (∀ i ∈ r.dataReads, i < totLen) ∧ r.next ≤ totLen := by
  have hnext := h.next_eq hlen
  unfold Record.dataReads
  by_cases hrtr : IsRtr r.canId
  · rw [if_pos hrtr] at hnext ⊢
    exact ⟨by simp, by omega⟩
  · have hdata := h.data.resolve_left hrtr
    rw [if_neg hrtr] at hnext ⊢
    refine ⟨?_, by omega⟩
    intro i hi
    obtain ⟨k, hk, rfl⟩ := List.mem_map.mp hi
    have := List.mem_range.mp hk
    omega

theorem RecordAt.pos_le_of_not_endsAtFlags {spare : ℕ → UInt8} {r : Record}
    (h : RecordAt (Bytes.ofList d spare) d.length pos r)
    (hends : ∀ h, parseHeader (d.drop pos) = some h → ¬ EndsAtFlags h) : r.pos ≤ d.length := by
  have hhead := h.header
  have hpos := h.pos_eq
  simp only [cannelloniFrameBaseSize] at hhead hpos
  by_cases hfd : IsFd r.len
  · have hnot := hends _ (parseHeader_drop spare hhead)
    have hlt : pos + 5 < d.length := by
      by_contra hge
      exact hnot ⟨by rw [← h.len_eq]; exact hfd, List.drop_of_length_le (by omega)⟩
    rw [if_pos hfd] at hpos
    omega
  · rw [if_neg hfd] at hpos
    omega

/-- The headers of a walk: the first one, and those behind the first record. -/
theorem forall_parseHeaders_succ {P : UInt32 × UInt8 × List UInt8 → Prop} {count : ℕ}
    {bytes : List UInt8} :
    (∀ h ∈ parseHeaders (count + 1) bytes, P h)
      ↔ (∀ h, parseHeader bytes = some h → P h) ∧
        ∀ x rest, parseRecord bytes = some (x, rest) → ∀ h ∈ parseHeaders count rest, P h := by
  constructor
  · intro hall
    exact ⟨fun h hh => hall h (head_mem_parseHeaders hh count),
      fun x rest hrec h hh => hall h (mem_parseHeaders_of_rest hrec hh)⟩
  · intro hall h hh
    rcases hall with ⟨hfirst, hrest⟩
    rw [parseHeaders] at hh
    split at hh
    · simp at hh
    · next g hg =>
      rcases List.mem_cons.mp hh with rfl | hh
      · exact hfirst _ hg
      · split at hh
        · simp at hh
        · next x rest hrec => exact hrest x rest hrec h hh

/-- The passes stay inside the packet when no header they read ends it with its flags
missing. A full queue ends the loop only after the header of one more record was read. -/
theorem passes_inside_iff (hd : d.length ≤ maxUdpPayload) {i : ℕ} {q : FramesQueue}
    (hv : q.Valid) :
    (∀ pass ∈ passes (Bytes.ofList d spare) d.length i q pos, pass.Inside d.length)
      ↔ ∀ h ∈ parseHeaders (min i (q.free + 1)) (d.drop pos), ¬ EndsAtFlags h := by
  induction i generalizing pos q with
  | zero => simp [passes, parseHeaders]
  | succ i ih =>
    have hmin : min (i + 1) (q.free + 1) = min i q.free + 1 := by omega
    rw [hmin, forall_parseHeaders_succ]
    have hheader := headerReads_inside_iff spare hd pos
    by_cases hends : ∀ h, parseHeader (d.drop pos) = some h → ¬ EndsAtFlags h
    · -- the flags lie inside the packet, and the walk agrees with the grammar
      have hreads := hheader.mpr hends
      have hstep := readRecord_eq_parseRecord spare hd
        fun h hh hcut => hends h hh ⟨hcut.2.1, hcut.2.2⟩
      rw [passes]
      cases hr : readRecord (Bytes.ofList d spare) d.length pos with
      | none =>
        rw [hr, Option.map_none] at hstep
        refine iff_of_true ?_ ⟨hends, ?_⟩
        · intro pass hpass
          rw [List.mem_singleton.mp hpass]
          exact ⟨hreads, by simp⟩
        · intro x rest hrec
          rw [← hstep] at hrec
          cases hrec
      | some r =>
        rw [hr, Option.map_some] at hstep
        by_cases hf : q.Full
        · have hzero : q.free = 0 := (Ring.Cursor.full_iff_free hv).mp hf
          simp only [queuePut_of_full hf, hzero, Nat.min_zero]
          refine iff_of_true ?_ ⟨hends, by simp [parseHeaders]⟩
          intro pass hpass
          rw [List.mem_singleton.mp hpass]
          exact ⟨hreads, by simp⟩
        · have hfree : q.push.free + 1 = q.free := Ring.Cursor.free_push hv hf
          have hat := (readRecord_eq_some_iff hd).mp hr
          have hpos := hat.pos_le_of_not_endsAtFlags hends
          obtain ⟨hdata, hnext⟩ := hat.dataReads_inside hd hpos
          simp only [queuePut_of_not_full hf, List.forall_mem_cons]
          rw [ih (q := q.push) hv.push, hfree]
          constructor
          · intro h
            refine ⟨hends, fun x rest hrec => ?_⟩
            rw [← hstep] at hrec
            obtain ⟨-, rfl⟩ := Prod.mk.inj (Option.some.inj hrec)
            exact h.2
          · intro h
            refine ⟨⟨?_, ?_⟩, h.2 _ _ hstep.symm⟩
            · intro k hk
              rcases List.mem_append.mp hk with hk | hk
              · exact hreads k hk
              · exact hdata k hk
            · intro p hp
              rw [← Option.mem_some.mp hp]
              exact hnext
    · refine iff_of_false ?_ fun h => hends h.1
      intro hall
      apply hends
      apply hheader.mp
      obtain ⟨pass, hpass, hmem⟩ :=
        exists_pass_headerReads (Bytes.ofList d spare) d.length i q pos
      exact fun k hk => (hall pass hpass).1 k (hmem k hk)

/-- The callback reads inside the packet exactly when none of the record headers it comes to
carries the CAN FD bit and is the end of the packet. -/
theorem readsInside_iff (hd : d.length ≤ maxUdpPayload) {q : FramesQueue} (hv : q.Valid) :
    ReadsInside (.contiguous d spare hd) q ↔ (HeaderOk d →
      ∀ h ∈ parseHeaders (min (headerCount d) (q.free + 1)) (d.drop 5), ¬ EndsAtFlags h) := by
  set p : PbufChain := .contiguous d spare hd with hp
  have htot : p.totLen = d.length := PbufChain.contiguous_totLen d spare hd
  have hacc_iff := accepted_contiguous_iff spare hd
  rw [← hp] at hacc_iff
  have hhead : ∀ i ∈ p.headReads, i < p.totLen := by
    intro i hi
    unfold PbufChain.headReads at hi
    split at hi
    · next hacc =>
      have := hacc.1
      simp only [cannelloniDataPacketBaseSize, List.mem_cons, List.not_mem_nil, or_false] at this hi
      omega
    · split at hi
      · next hlong =>
        simp only [cannelloniDataPacketBaseSize, List.mem_cons, List.not_mem_nil, or_false]
          at hlong hi
        omega
      · simp at hi
  have hinside : ReadsInside p q ↔ ∀ pass ∈ p.passes q, pass.Inside d.length := by
    rw [← htot]
    exact ⟨fun h pass hpass => ⟨h.reads pass hpass, h.stop pass hpass⟩,
      fun h => ⟨hhead, fun pass hpass => (h pass hpass).1, fun pass hpass => (h pass hpass).2⟩⟩
  rw [hinside]
  by_cases hok : HeaderOk d
  · have hpasses : p.passes q
        = Cannelloni.passes (Bytes.ofList d spare) d.length (headerCount d) q 5 := by
      unfold PbufChain.passes
      rw [if_pos (hacc_iff.mpr hok), htot, hp, packetCount_contiguous spare hd hok]
      rfl
    rw [hpasses, passes_inside_iff spare hd hv]
    exact ⟨fun h _ => h, fun h => h hok⟩
  · have hpasses : p.passes q = [] := if_neg (mt hacc_iff.mp hok)
    rw [hpasses]
    exact iff_of_true (by simp) fun h => absurd h hok

end Inside

/-- A CAN FD record with its flags byte is read inside the packet. -/
theorem readsInside_fd :
    ReadsInside (.contiguous [2, 0, 0, 0, 1, 0, 0, 0, 1, 0x81, 5, 7] (fun _ => 0) (by simp))
      (queueInit (.txBuf 0) 128) :=
  (readsInside_iff (fun _ => 0) (by simp) (queueInit_valid _ (by decide))).mpr
    fun _ => by decide +kernel

/-- A remote CAN FD record that is cut off behind its length byte: its flags are read behind
the end of the packet. -/
theorem not_readsInside :
    ¬ ∀ (d : List UInt8) (spare : ℕ → UInt8) (hd : d.length ≤ maxUdpPayload) (q : FramesQueue),
      q.Valid → ReadsInside (.contiguous d spare hd) q := by
  intro h
  have hinside := h [2, 0, 0, 0, 1, 0x40, 0, 0, 1, 0x80] (fun _ => 0) (by simp)
    (queueInit (.txBuf 0) 128) (queueInit_valid _ (by decide))
  have hlt := hinside.reads ⟨[5, 6, 7, 8, 9, 10], some 11⟩ (by decide +kernel) 10 (by simp)
  exact absurd hlt (by decide +kernel)

end Cannelloni
