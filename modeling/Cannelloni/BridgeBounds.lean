import Cannelloni.Bridge

/-!
# Where the bridge reads and writes

`UDPEndpoint::read` checks its position against the number of bytes received once for each
record, before it knows how long the record is. `bridgePasses` lists what each pass of its loop
reads of `buffer` and writes of `frame.data`; `bridgeInside_iff` says for which datagrams all of
this lies inside the bytes received and inside the eight bytes of a frame.
-/

namespace Cannelloni

/-! ## The positions -/

/-- One pass of the read loop: the positions of `buffer` that are read and the indices of
`frame.data` that are written. -/
structure BridgePass where
  reads : List ℕ
  writes : List ℕ
deriving DecidableEq, Repr

/-- The passes of `while (pos < n)`. -/
def bridgePasses (buffer : ℕ → UInt8) (n : ℕ) : ℕ → ℕ → List BridgePass
  | 0, _ => []
  | fuel + 1, pos =>
    if pos < n then
      let len := (buffer (pos + 4)).toNat
      ⟨[pos, pos + 1, pos + 2, pos + 3, pos + 4] ++ (List.range len).map (pos + 5 + ·),
        List.range len⟩ :: bridgePasses buffer n fuel (pos + 5 + len)
    else []

/-- The pass stays inside `n` bytes received and inside a frame. -/
def BridgePass.Inside (n : ℕ) (pass : BridgePass) : Prop :=
  (∀ i ∈ pass.reads, i < n) ∧ ∀ i ∈ pass.writes, i < canMaxDlen

/-- The bytes the socket delivers. -/
def receivedBytes (d : List UInt8) : List UInt8 := d.take readBufLen

/-- The array `buffer` after the socket was read. -/
def Stack.received (stack : Stack) (d : List UInt8) : ℕ → UInt8 :=
  Bytes.ofList (receivedBytes d) stack.buffer

/-- The decoder stays in bounds: every pass does, and the loop ends behind the last byte
received, with frames whose bytes are among those received. -/
structure BridgeInside (stack : Stack) (d : List UInt8) : Prop where
  passes : ∀ pass ∈ bridgePasses (stack.received d) (receivedBytes d).length readBufLen 5,
    pass.Inside (receivedBytes d).length
  returns : ∀ frames, ∃ s, udpReadLoop (stack.received d) stack.frame (receivedBytes d).length
      readBufLen ⟨frames, Bytes.ofBe16 (stack.received d 3) (stack.received d 4), 5⟩ = .ok s ∧
    (receivedBytes d).length ≤ s.pos ∧
    UdpEndpoint.read stack d frames = .ok ⟨s.frames, s.count⟩ ∧
    ∃ out, s.frames = frames ++ out ∧
      (out.map CanFrame.view).flatMap viewBytes <+: (receivedBytes d).drop 5

/-- The bytes are those of complete records of at most eight data bytes each. -/
def CompleteViews (bytes : List UInt8) : Prop :=
  ∃ vs : List (UInt32 × UInt8 × List UInt8), (∀ v ∈ vs, ViewOk v) ∧ bytes = vs.flatMap viewBytes

/-! ## Nothing else is read -/

section Congr

variable {buffer buffer' : ℕ → UInt8} {frame : ℕ → CanFrame}

theorem bufferAt_congr {i : ℕ} (h : buffer' i = buffer i) :
    bufferAt buffer' i = bufferAt buffer i := by
  unfold bufferAt
  rw [h]

theorem CanFrame.readData_congr (f : CanFrame) {pos n : ℕ}
    (h : ∀ k < n, buffer' (pos + k) = buffer (pos + k)) :
    f.readData buffer' pos n = f.readData buffer pos n := by
  induction n with
  | zero => rfl
  | succ n ih =>
    rw [readData, readData, ih fun k hk => h k (by omega), bufferAt_congr (h n (by omega))]

theorem UdpRead.pass_congr (frame : ℕ → CanFrame) {s : UdpRead}
    (hhead : ∀ k < 5, buffer' (s.pos + k) = buffer (s.pos + k))
    (hdata : ∀ k < (buffer (s.pos + 4)).toNat,
      buffer' (s.pos + 5 + k) = buffer (s.pos + 5 + k)) :
    s.pass buffer' frame = s.pass buffer frame := by
  have hat : ∀ k < 5, bufferAt buffer' (s.pos + k) = bufferAt buffer (s.pos + k) :=
    fun k hk => bufferAt_congr (hhead k hk)
  have h0 := hat 0 (by omega)
  rw [Nat.add_zero] at h0
  unfold pass
  rw [h0, hat 1 (by omega), hat 2 (by omega), hat 3 (by omega), hat 4 (by omega)]
  refine bind_congr fun b₀ => bind_congr fun b₁ => bind_congr fun b₂ => bind_congr fun b₃ => ?_
  -- the length byte decides how many data bytes are read
  by_cases hi : s.pos + 4 < readBufLen
  · have hlen : bufferAt buffer (s.pos + 4) = .ok (buffer (s.pos + 4)) := if_pos hi
    rw [hlen]
    show (CanFrame.readData _ buffer' _ _ >>= _) = (CanFrame.readData _ buffer _ _ >>= _)
    rw [CanFrame.readData_congr _ hdata]
  · have hlen : bufferAt buffer (s.pos + 4) = .error (.bufferIndex (s.pos + 4)) := if_neg hi
    rw [hlen]
    rfl

theorem mem_header_of_lt {pos k : ℕ} (h : k < 5) :
    pos + k ∈ [pos, pos + 1, pos + 2, pos + 3, pos + 4] := by
  simp only [List.mem_cons, List.not_mem_nil, or_false]
  omega

/-- The outcome of the loop depends on the bytes at the positions listed only. -/
theorem udpReadLoop_eq_of_reads {n fuel : ℕ} {s : UdpRead}
    (h : ∀ pass ∈ bridgePasses buffer n fuel s.pos, ∀ i ∈ pass.reads, buffer' i = buffer i) :
    udpReadLoop buffer' frame n fuel s = udpReadLoop buffer frame n fuel s := by
  induction fuel generalizing s with
  | zero => rfl
  | succ fuel ih =>
    rw [udpReadLoop, udpReadLoop]
    by_cases hpos : s.pos < n
    · rw [bridgePasses, if_pos hpos, List.forall_mem_cons] at h
      obtain ⟨hthis, hrest⟩ := h
      have hdata : ∀ k < (buffer (s.pos + 4)).toNat,
          buffer' (s.pos + 5 + k) = buffer (s.pos + 5 + k) := by
        intro k hk
        apply hthis
        exact List.mem_append_right _ (List.mem_map.mpr ⟨k, List.mem_range.mpr hk, rfl⟩)
      have hpass := UdpRead.pass_congr frame
        (fun k hk => hthis _ (List.mem_append_left _ (mem_header_of_lt hk))) hdata
      rw [if_pos hpos, if_pos hpos, hpass]
      cases hok : s.pass buffer frame with
      | error e => rfl
      | ok t =>
        obtain ⟨hlen, hend⟩ := UdpRead.pass_bounds hok
        rw [UdpRead.pass_eq_ok hlen hend] at hok
        obtain rfl := Except.ok.inj hok
        exact ih hrest
    · rw [if_neg hpos, if_neg hpos]

end Congr

/-! ## From bounds to records -/

section Loop

variable {bs : List UInt8} {rest : ℕ → UInt8} {pos : ℕ}

/-- What one pass inside the bytes says about them. -/
theorem BridgePass.inside_iff {n len : ℕ} :
    BridgePass.Inside n ⟨[pos, pos + 1, pos + 2, pos + 3, pos + 4]
        ++ (List.range len).map (pos + 5 + ·), List.range len⟩
      ↔ pos + 5 + len ≤ n ∧ len ≤ canMaxDlen := by
  unfold Inside
  constructor
  · intro h
    rcases h with ⟨hreads, hwrites⟩
    have hhead := hreads (pos + 4) (by simp)
    rcases len with _ | len
    · exact ⟨by omega, Nat.zero_le _⟩
    · have hlast := hreads (pos + 5 + len) (by simp)
      have hdata := hwrites len (by simp)
      exact ⟨by omega, hdata⟩
  · intro h
    rcases h with ⟨hend, hlen⟩
    constructor
    · intro i hi
      rcases List.mem_append.mp hi with hi | hi
      · simp only [List.mem_cons, List.not_mem_nil, or_false] at hi
        omega
      · obtain ⟨k, hk, rfl⟩ := List.mem_map.mp hi
        have := List.mem_range.mp hk
        omega
    · intro i hi
      have := List.mem_range.mp hi
      omega

/-- The record that stands at a position. -/
theorem exists_view_of_inside (hend : pos + 5 + (Bytes.ofList bs rest (pos + 4)).toNat ≤ bs.length)
    (hlen : (Bytes.ofList bs rest (pos + 4)).toNat ≤ canMaxDlen) :
    ∃ v, ViewOk v ∧ bs.drop pos
      = viewBytes v ++ bs.drop (pos + 5 + (Bytes.ofList bs rest (pos + 4)).toNat) := by
  set buffer := Bytes.ofList bs rest
  set f := frameAt buffer ⟨0, 0, Vector.replicate _ 0⟩ pos with hf
  have hslice : Bytes.slice buffer pos (5 + (buffer (pos + 4)).toNat)
      = (bs.drop pos).take (5 + (buffer (pos + 4)).toNat) :=
    Bytes.slice_ofList_of_le (by omega)
  have hsize : viewSize f.view = 5 + (buffer (pos + 4)).toNat := rfl
  refine ⟨f.view, ⟨?_, hlen⟩, ?_⟩
  · show (f.data.toList.take (buffer (pos + 4)).toNat).length = (buffer (pos + 4)).toNat
    rw [List.length_take, Vector.length_toList]
    omega
  · rw [viewBytes_frameAt _ _ hlen, ← hf, hsize, hslice, Nat.add_assoc pos 5, ← List.drop_drop,
      List.take_append_drop]

/-- Passes that stay inside take the bytes apart into complete records. -/
theorem completeViews_of_inside {fuel : ℕ} (hfuel : bs.length ≤ pos + fuel)
    (h : ∀ pass ∈ bridgePasses (Bytes.ofList bs rest) bs.length fuel pos, pass.Inside bs.length) :
    CompleteViews (bs.drop pos) := by
  induction fuel generalizing pos with
  | zero => exact ⟨[], by simp, List.drop_of_length_le (by omega)⟩
  | succ fuel ih =>
    rw [bridgePasses] at h
    by_cases hpos : pos < bs.length
    · simp only [if_pos hpos, List.forall_mem_cons] at h
      obtain ⟨hend, hlen⟩ := BridgePass.inside_iff.mp h.1
      obtain ⟨v, hv, hbytes⟩ := exists_view_of_inside hend hlen
      obtain ⟨vs, hvs, hrest⟩ := ih (by omega) h.2
      refine ⟨v :: vs, ?_, ?_⟩
      · intro w hw
        rcases List.mem_cons.mp hw with rfl | hw
        · exact hv
        · exact hvs w hw
      · rw [hbytes, hrest, List.flatMap_cons]
    · exact ⟨[], by simp, List.drop_of_length_le (by omega)⟩

/-! ## From records to bounds -/

/-- The length byte of the record at a position, and where it ends. -/
theorem bounds_of_view (rest : ℕ → UInt8) {v : UInt32 × UInt8 × List UInt8} {tail : List UInt8}
    (hv : ViewOk v)
    (h : bs.drop pos = viewBytes v ++ tail) :
    Bytes.ofList bs rest (pos + 4) = v.2.1 ∧ pos + viewSize v ≤ bs.length ∧
      bs.drop (pos + viewSize v) = tail ∧ pos < bs.length := by
  have hsize := length_viewBytes hv
  have hfive : 5 ≤ viewSize v := Nat.le_add_right _ _
  have hlength := congrArg List.length h
  rw [List.length_drop, List.length_append, hsize] at hlength
  have hend : pos + viewSize v ≤ bs.length := by omega
  refine ⟨?_, hend, ?_, by omega⟩
  · apply len_of_slice
    rw [Bytes.slice_ofList_of_le hend, h, ← hsize, List.take_left]
  · rw [← List.drop_drop, h, ← hsize, List.drop_left]

/-- The passes over complete records stay inside them. -/
theorem inside_of_completeViews {vs : List (UInt32 × UInt8 × List UInt8)}
    (hvs : ∀ v ∈ vs, ViewOk v) (h : bs.drop pos = vs.flatMap viewBytes) (fuel : ℕ) :
    ∀ pass ∈ bridgePasses (Bytes.ofList bs rest) bs.length fuel pos, pass.Inside bs.length := by
  induction fuel generalizing pos vs with
  | zero => simp [bridgePasses]
  | succ fuel ih =>
    cases vs with
    | nil =>
      have hle : bs.length ≤ pos := List.drop_eq_nil_iff.mp h
      simp [bridgePasses, Nat.not_lt.mpr hle]
    | cons v vs =>
      have hv := hvs v List.mem_cons_self
      rw [List.flatMap_cons] at h
      obtain ⟨hlen, hend, htail, hpos⟩ := bounds_of_view rest hv h
      unfold viewSize at hend htail
      rw [← Nat.add_assoc] at hend htail
      simp only [bridgePasses, if_pos hpos, List.forall_mem_cons, hlen]
      exact ⟨BridgePass.inside_iff.mpr ⟨hend, hv.dlc_le⟩,
        ih (fun w hw => hvs w (List.mem_cons_of_mem v hw)) htail⟩

/-- The loop reads complete records one after the other and ends behind the last one. -/
theorem udpReadLoop_of_completeViews (rest : ℕ → UInt8) (frame : ℕ → CanFrame)
    (hbs : bs.length ≤ readBufLen)
    {vs : List (UInt32 × UInt8 × List UInt8)} (hvs : ∀ v ∈ vs, ViewOk v) {s : UdpRead}
    (h : bs.drop s.pos = vs.flatMap viewBytes) {fuel : ℕ} (hfuel : vs.length ≤ fuel) :
    ∃ t, udpReadLoop (Bytes.ofList bs rest) frame bs.length fuel s = .ok t ∧
      bs.length ≤ t.pos ∧ ∃ out, t.frames = s.frames ++ out ∧ out.map CanFrame.view = vs := by
  induction vs generalizing s fuel with
  | nil =>
    have hle : bs.length ≤ s.pos := List.drop_eq_nil_iff.mp h
    refine ⟨s, ?_, hle, [], by simp, rfl⟩
    cases fuel with
    | zero => rfl
    | succ fuel => simp [udpReadLoop, Nat.not_lt.mpr hle]
  | cons v vs ih =>
    obtain ⟨fuel, rfl⟩ : ∃ k, fuel = k + 1 := ⟨fuel - 1, by simp at hfuel; omega⟩
    have hv := hvs v List.mem_cons_self
    rw [List.flatMap_cons] at h
    obtain ⟨hlen, hend, htail, hpos⟩ := bounds_of_view rest hv h
    set buffer := Bytes.ofList bs rest with hbuffer
    have hlen8 : (buffer (s.pos + 4)).toNat ≤ canMaxDlen := by
      rw [hlen]
      exact hv.dlc_le
    have hnext : (s.next buffer frame).pos = s.pos + viewSize v := by
      show s.pos + 5 + (buffer (s.pos + 4)).toNat = s.pos + (5 + v.2.1.toNat)
      rw [hlen, Nat.add_assoc]
    have hpass : s.pass buffer frame = .ok (s.next buffer frame) := by
      apply UdpRead.pass_eq_ok hlen8
      show (s.next buffer frame).pos ≤ readBufLen
      omega
    have hview : (frameAt buffer (frame s.pos) s.pos).view = v := by
      apply viewBytes_injective
      have hsize : viewSize (frameAt buffer (frame s.pos) s.pos).view = viewSize v := by
        show 5 + (buffer (s.pos + 4)).toNat = 5 + v.2.1.toNat
        rw [hlen]
      rw [viewBytes_frameAt _ _ hlen8, hsize, hbuffer, Bytes.slice_ofList_of_le hend, h,
        ← length_viewBytes hv, List.take_left]
    rw [← hnext] at htail
    obtain ⟨t, ht, hstop, out, hout, hviews⟩ := ih
      (fun w hw => hvs w (List.mem_cons_of_mem v hw)) htail (by simpa using hfuel)
    refine ⟨t, ?_, hstop, frameAt buffer (frame s.pos) s.pos :: out, ?_, ?_⟩
    · rw [udpReadLoop, if_pos hpos, hpass]
      exact ht
    · rw [hout]
      simp [UdpRead.next]
    · rw [List.map_cons, hview, hviews]

end Loop

/-! ## The whole call -/

theorem length_receivedBytes_le (d : List UInt8) : (receivedBytes d).length ≤ readBufLen := by
  unfold receivedBytes
  rw [List.length_take]
  exact Nat.min_le_left _ _

theorem length_le_length_flatMap (vs : List (UInt32 × UInt8 × List UInt8)) :
    vs.length ≤ (vs.flatMap viewBytes).length := by
  induction vs with
  | nil => simp
  | cons v vs ih =>
    have hone : 1 ≤ (viewBytes v).length := by
      simp only [viewBytes, List.length_append, List.length_cons]
      omega
    rw [List.length_cons, List.flatMap_cons, List.length_append]
    omega

/-- The decoder stays in bounds exactly when the bytes received behind the packet header are
complete records of at most eight data bytes each. -/
theorem bridgeInside_iff (stack : Stack) {d : List UInt8} (hne : d ≠ []) :
    BridgeInside stack d ↔ CompleteViews ((receivedBytes d).drop 5) := by
  have hle := length_receivedBytes_le d
  constructor
  · intro h
    exact completeViews_of_inside (by omega) h.passes
  · intro h
    rcases h with ⟨vs, hvs, hbytes⟩
    refine ⟨inside_of_completeViews hvs hbytes readBufLen, ?_⟩
    intro frames
    have hcount : vs.length ≤ readBufLen := by
      have hviews := length_le_length_flatMap vs
      rw [← hbytes, List.length_drop] at hviews
      omega
    obtain ⟨s, hs, hstop, out, hout, hviews⟩ := udpReadLoop_of_completeViews stack.buffer
      stack.frame hle hvs
      (s := ⟨frames, Bytes.ofBe16 (stack.received d 3) (stack.received d 4), 5⟩) hbytes hcount
    refine ⟨s, hs, hstop, ?_, out, hout, ?_⟩
    · have hn : ¬ (d.take readBufLen).length = 0 := by
        have hpos := List.length_pos_iff.mpr hne
        rw [List.length_take]
        simp only [readBufLen]
        omega
      have hloop : udpReadLoop (Bytes.ofList (d.take readBufLen) stack.buffer) stack.frame
          (d.take readBufLen).length readBufLen
          ⟨frames, Bytes.ofBe16 (Bytes.ofList (d.take readBufLen) stack.buffer 3)
            (Bytes.ofList (d.take readBufLen) stack.buffer 4), 5⟩ = .ok s := hs
      unfold UdpEndpoint.read
      simp only [if_neg hn, hloop]
      rfl
    · rw [hviews, hbytes]

/-- A packet of one frame with one data byte. -/
theorem bridgeInside_single :
    BridgeInside ⟨fun _ => 0, fun _ => ⟨0, 0, Vector.replicate _ 0⟩⟩
      [2, 0, 0, 0, 1, 0, 0, 0, 5, 1, 7] := by
  apply (bridgeInside_iff _ (by simp)).mpr
  refine ⟨[(5, 1, [7])], ?_, rfl⟩
  intro v hv
  rw [List.mem_singleton.mp hv]
  exact ⟨rfl, by decide⟩

/-- A record that announces nine data bytes. -/
theorem not_bridgeInside :
    ¬ ∀ (stack : Stack) (d : List UInt8), d ≠ [] → BridgeInside stack d := by
  intro h
  have hinside := h ⟨fun _ => 0, fun _ => ⟨0, 0, Vector.replicate _ 0⟩⟩
    [2, 0, 0, 0, 1, 0, 0, 0, 5, 9] (by simp)
  have hpass := hinside.passes
    ⟨[5, 6, 7, 8, 9, 10, 11, 12, 13, 14, 15, 16, 17, 18], [0, 1, 2, 3, 4, 5, 6, 7, 8]⟩
    (by decide +kernel)
  exact absurd (hpass.2 8 (by simp)) (by simp)

end Cannelloni
