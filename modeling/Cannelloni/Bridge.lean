import Cannelloni.Frame
import Cannelloni.Lib.Run

/-!
# The bridge on the host (`bridge/cannelloni_bridge.cpp`)

The bridge forwards frames between a SocketCAN interface and the gateway. `UdpEndpoint.read`
takes a datagram apart with a loop on its byte length; its buffer has 1024 bytes, and a longer
datagram is cut off by the socket. `UdpEndpoint.write` makes a datagram of the frames
`CanEndpoint.read` got.

An access behind the end of one of the program's arrays is a `BridgeFault`. Local variables
that are not initialised hold whatever `Stack` says.
-/

namespace Cannelloni

/-! ## Data -/

/-- Length of the array `data` of a SocketCAN frame. -/
@[simp] def canMaxDlen : ℕ := 8

/-- `struct can_frame` of SocketCAN. -/
structure CanFrame where
  canId : UInt32
  canDlc : UInt8
  data : Vector UInt8 canMaxDlen
deriving DecidableEq, Repr

inductive BridgeFault
  /-- `buffer[i]` was read behind the end of the array. -/
  | bufferIndex (i : ℕ)
  /-- `tx[i]` was written behind the end of the array. -/
  | txIndex (i : ℕ)
  /-- `frame.data[i]` was accessed behind the end of the array. -/
  | dataIndex (i : ℕ)
  /-- The program called `exit(1)`. -/
  | exited
deriving DecidableEq, Repr

/-- What the uninitialised local variables of `UDPEndpoint::read` hold: the array `buffer`, and
`frame` in the pass that starts at a position. -/
structure Stack where
  buffer : ℕ → UInt8
  frame : ℕ → CanFrame

/-- `sizeof(buffer)`. -/
@[simp] def readBufLen : ℕ := 1024

/-- `sizeof(tx)`. -/
@[simp] def writeBufLen : ℕ := 128

/-! ## The code -/

/-- `buffer[i]`. -/
def bufferAt (buffer : ℕ → UInt8) (i : ℕ) : Except BridgeFault UInt8 :=
  if i < readBufLen then .ok (buffer i) else .error (.bufferIndex i)

/-- `for (i = 0; i < n; i++) frame.data[i] = buffer[pos++];`. -/
def CanFrame.readData (f : CanFrame) (buffer : ℕ → UInt8) (pos : ℕ) :
    ℕ → Except BridgeFault CanFrame
  | 0 => .ok f
  | n + 1 => do
    let g ← f.readData buffer pos n
    let b ← bufferAt buffer (pos + n)
    if h : n < canMaxDlen then .ok { g with data := g.data.set n b h }
    else .error (.dataIndex n)

/-- The variables of the read loop. -/
structure UdpRead where
  frames : List CanFrame
  count : ℕ
  pos : ℕ

/-- The loop body. -/
def UdpRead.pass (buffer : ℕ → UInt8) (frame : ℕ → CanFrame) (s : UdpRead) :
    Except BridgeFault UdpRead := do
  let b₀ ← bufferAt buffer s.pos
  let b₁ ← bufferAt buffer (s.pos + 1)
  let b₂ ← bufferAt buffer (s.pos + 2)
  let b₃ ← bufferAt buffer (s.pos + 3)
  let len ← bufferAt buffer (s.pos + 4)
  let frame := { frame s.pos with canId := Bytes.ofBe32 b₀ b₁ b₂ b₃, canDlc := len }
  let frame ← frame.readData buffer (s.pos + 5) len.toNat
  return { frames := s.frames ++ [frame]
           -- a `uint16_t` that is decremented
           count := (s.count + (2 ^ 16 - 1)) % 2 ^ 16
           pos := s.pos + 5 + len.toNat }

/-- `while (pos < n)`. Each pass moves the position by at least five bytes, so as many passes
as the buffer has bytes are always enough (`udpReadLoop_complete`). -/
def udpReadLoop (buffer : ℕ → UInt8) (frame : ℕ → CanFrame) (n : ℕ) :
    ℕ → UdpRead → Except BridgeFault UdpRead
  | 0, s => .ok s
  | fuel + 1, s =>
    if s.pos < n then do
      let s ← s.pass buffer frame
      udpReadLoop buffer frame n fuel s
    else .ok s

/-- The frames read, and the `count` that is left: the frames reported missing. -/
structure Received where
  frames : List CanFrame
  missing : ℕ
deriving DecidableEq

/-- `UDPEndpoint::read` with a datagram `d` waiting at the socket. -/
def UdpEndpoint.read (stack : Stack) (d : List UInt8) (frames : List CanFrame) :
    Except BridgeFault Received :=
  -- the socket cuts off what the buffer cannot hold
  let received := d.take readBufLen
  let buffer := Bytes.ofList received stack.buffer
  let n := received.length
  if n = 0 then .error .exited
  else do
    let s ← udpReadLoop buffer stack.frame n readBufLen
      { frames := frames, count := Bytes.ofBe16 (buffer 3) (buffer 4), pos := 5 }
    return ⟨s.frames, s.count⟩

/-- The loop body of `UDPEndpoint::write`: the bytes in `tx` so far, and one more frame. -/
def writeFrame (o : Bytes.ByteOrder) (tx : List UInt8) (f : CanFrame) :
    Except BridgeFault (List UInt8) :=
  let tx := tx ++ o.store32 (o.htonl f.canId)
  let tx := tx ++ [f.canDlc]
  -- `memcpy` from a data array of eight bytes
  if f.canDlc.toNat > canMaxDlen then .error (.dataIndex canMaxDlen)
  else
    let tx := tx ++ f.data.toList.take f.canDlc.toNat
    if tx.length > writeBufLen then .error (.txIndex writeBufLen) else .ok tx

/-- `UDPEndpoint::write`: the datagram handed to `sendto`. -/
def UdpEndpoint.write (o : Bytes.ByteOrder) (frames : List CanFrame) :
    Except BridgeFault (List UInt8) :=
  frames.foldlM (writeFrame o) [2, 0, 0, 0, 1]

/-- `CANEndpoint::read`, with `none` for a read that did not return a whole frame. -/
def CanEndpoint.read (message : Option CanFrame) (frames : List CanFrame) :
    Except BridgeFault (List CanFrame) :=
  match message with
  | none => .error .exited
  | some f => .ok (frames ++ [f])

/-! ## Frames and their bytes -/

/-- Identifier, length and the data bytes the length covers. -/
def CanFrame.view (f : CanFrame) : UInt32 × UInt8 × List UInt8 :=
  (f.canId, f.canDlc, f.data.toList.take f.canDlc.toNat)

/-- The bytes of an identifier, a length and data. -/
def viewBytes : UInt32 × UInt8 × List UInt8 → List UInt8
  | (canId, len, data) => Bytes.be32 canId ++ len :: data

/-- How many bytes a frame takes when its data is as long as its length says. -/
def viewSize (v : UInt32 × UInt8 × List UInt8) : ℕ := 5 + v.2.1.toNat

/-- The data is as long as the length says, and fits a frame. -/
structure ViewOk (v : UInt32 × UInt8 × List UInt8) : Prop where
  length_eq : v.2.2.length = v.2.1.toNat
  dlc_le : v.2.1.toNat ≤ canMaxDlen

/-- The frame that is read at a position. -/
def frameAt (buffer : ℕ → UInt8) (old : CanFrame) (pos : ℕ) : CanFrame where
  canId := Bytes.ofBe32 (buffer pos) (buffer (pos + 1)) (buffer (pos + 2)) (buffer (pos + 3))
  canDlc := buffer (pos + 4)
  data := Bytes.overlay old.data (fun i => buffer (pos + 5 + i)) (buffer (pos + 4)).toNat

section FrameAt

variable (buffer : ℕ → UInt8) (old : CanFrame) {pos : ℕ}

/-- The frame shows the bytes it was read from. -/
theorem viewBytes_frameAt (h : (buffer (pos + 4)).toNat ≤ canMaxDlen) :
    viewBytes (frameAt buffer old pos).view
      = Bytes.slice buffer pos (viewSize (frameAt buffer old pos).view) := by
  have hdata : (frameAt buffer old pos).data.toList.take (buffer (pos + 4)).toNat
      = Bytes.slice buffer (pos + 5) (buffer (pos + 4)).toNat := by
    have htake := Bytes.take_overlay old.data (fun i => buffer (pos + 5 + i)) h
    simp only [Bytes.slice, Nat.zero_add] at htake
    exact htake
  have hsize : viewSize (frameAt buffer old pos).view = 4 + (1 + (buffer (pos + 4)).toNat) := by
    show 5 + (buffer (pos + 4)).toNat = _
    omega
  rw [hsize, Bytes.slice_add, Bytes.slice_add, Bytes.slice_one, Bytes.slice_four]
  unfold CanFrame.view viewBytes
  simp only [List.singleton_append]
  exact congrArg (fun d => _ ++ _ :: d) hdata

end FrameAt

theorem length_viewBytes {v : UInt32 × UInt8 × List UInt8} (h : ViewOk v) :
    (viewBytes v).length = viewSize v := by
  obtain ⟨canId, len, data⟩ := v
  have hlen := h.length_eq
  simp only at hlen
  unfold viewBytes viewSize
  rw [List.length_append, List.length_cons, Bytes.length_be32, hlen]
  simp only
  omega

/-- A view is determined by its bytes. -/
theorem viewBytes_injective {v w : UInt32 × UInt8 × List UInt8}
    (h : viewBytes v = viewBytes w) : v = w := by
  obtain ⟨vid, vlen, vdata⟩ := v
  obtain ⟨wid, wlen, wdata⟩ := w
  obtain ⟨hid, hrest⟩ := List.append_inj h rfl
  obtain ⟨hlen, hdata⟩ := List.cons.inj hrest
  rw [Bytes.be32_injective hid, hlen, hdata]

/-- Where the length stands in the bytes of a frame. -/
theorem len_of_slice {buffer : ℕ → UInt8} {pos : ℕ} {v : UInt32 × UInt8 × List UInt8}
    (h : Bytes.slice buffer pos (viewSize v) = viewBytes v) : buffer (pos + 4) = v.2.1 := by
  obtain ⟨canId, len, data⟩ := v
  have hsize : viewSize (canId, len, data) = 4 + (1 + len.toNat) := by
    unfold viewSize
    simp only
    omega
  rw [hsize, Bytes.slice_add, Bytes.slice_add, Bytes.slice_one, List.singleton_append] at h
  obtain ⟨-, hrest⟩ := List.append_inj h (by simp)
  exact (List.cons.inj hrest).1

/-! ## One pass of the read loop -/

theorem CanFrame.readData_eq_ok (f : CanFrame) (buffer : ℕ → UInt8) {pos n : ℕ}
    (h : n ≤ canMaxDlen) (hpos : pos + n ≤ readBufLen) :
    f.readData buffer pos n
      = .ok { f with data := Bytes.overlay f.data (fun i => buffer (pos + i)) n } := by
  induction n with
  | zero => rw [readData, Bytes.overlay_zero]
  | succ n ih =>
    have hn : n < canMaxDlen := by omega
    have hi : pos + n < readBufLen := by omega
    rw [readData, ih (by omega) (by omega)]
    simp only [bind, Except.bind, bufferAt, if_pos hi, dif_pos hn]
    rw [Bytes.set_overlay f.data fun i => buffer (pos + i)]

theorem CanFrame.readData_ok_iff (f : CanFrame) (buffer : ℕ → UInt8) {pos n : ℕ}
    (hpos : pos ≤ readBufLen) :
    (∃ g, f.readData buffer pos n = .ok g) ↔ n ≤ canMaxDlen ∧ pos + n ≤ readBufLen := by
  constructor
  · induction n with
    | zero => exact fun _ => ⟨Nat.zero_le _, hpos⟩
    | succ n ih =>
      intro hok
      rcases hok with ⟨g, hg⟩
      cases hprev : f.readData buffer pos n with
      | error e => simp [readData, hprev, bind, Except.bind] at hg
      | ok g' =>
        have := ih ⟨g', hprev⟩
        simp only [readData, hprev, bind, Except.bind, bufferAt] at hg
        split at hg
        · cases hg
        · next hbyte =>
          split at hbyte
          · split at hg
            · omega
            · cases hg
          · cases hbyte
  · intro h
    rcases h with ⟨hn, hpos'⟩
    exact ⟨_, f.readData_eq_ok buffer hn hpos'⟩

section Pass

variable {buffer : ℕ → UInt8} {frame : ℕ → CanFrame} {s : UdpRead}

/-- The loop variables after a pass. -/
def UdpRead.next (buffer : ℕ → UInt8) (frame : ℕ → CanFrame) (s : UdpRead) : UdpRead where
  frames := s.frames ++ [frameAt buffer (frame s.pos) s.pos]
  count := (s.count + (2 ^ 16 - 1)) % 2 ^ 16
  pos := s.pos + 5 + (buffer (s.pos + 4)).toNat

theorem UdpRead.pass_eq_ok (hlen : (buffer (s.pos + 4)).toNat ≤ canMaxDlen)
    (hpos : s.pos + 5 + (buffer (s.pos + 4)).toNat ≤ readBufLen) :
    s.pass buffer frame = .ok (s.next buffer frame) := by
  have hat : ∀ i < 5, bufferAt buffer (s.pos + i) = .ok (buffer (s.pos + i)) :=
    fun i hi => if_pos (by omega)
  have h0 := hat 0 (by omega)
  rw [Nat.add_zero] at h0
  unfold pass
  rw [h0, hat 1 (by omega), hat 2 (by omega), hat 3 (by omega), hat 4 (by omega)]
  simp only [bind, Except.bind]
  rw [CanFrame.readData_eq_ok _ _ hlen hpos]
  rfl

theorem bufferAt_eq_ok {i : ℕ} {b : UInt8} (h : bufferAt buffer i = .ok b) :
    i < readBufLen ∧ buffer i = b := by
  unfold bufferAt at h
  split at h
  · next hi => exact ⟨hi, Except.ok.inj h⟩
  · cases h

/-- A pass that does not fault stays inside the arrays. -/
theorem UdpRead.pass_bounds {s' : UdpRead} (h : s.pass buffer frame = .ok s') :
    (buffer (s.pos + 4)).toNat ≤ canMaxDlen ∧
      s.pos + 5 + (buffer (s.pos + 4)).toNat ≤ readBufLen := by
  unfold pass at h
  obtain ⟨_, -, h⟩ := Run.bind_eq_ok.mp h
  obtain ⟨_, -, h⟩ := Run.bind_eq_ok.mp h
  obtain ⟨_, -, h⟩ := Run.bind_eq_ok.mp h
  obtain ⟨_, -, h⟩ := Run.bind_eq_ok.mp h
  obtain ⟨len, hlen, h⟩ := Run.bind_eq_ok.mp h
  obtain ⟨g, hg, -⟩ := Run.bind_eq_ok.mp h
  obtain ⟨hpos, rfl⟩ := bufferAt_eq_ok hlen
  exact (CanFrame.readData_ok_iff _ _ (by omega)).mp ⟨g, hg⟩

end Pass

/-! ## The whole read loop -/

section Loop

variable {buffer : ℕ → UInt8} {frame : ℕ → CanFrame} {n fuel : ℕ} {s : UdpRead}

/-- Bytes a list of frames takes. -/
def viewsSize (vs : List (UInt32 × UInt8 × List UInt8)) : ℕ := (vs.map viewSize).sum

@[simp] theorem viewsSize_nil : viewsSize [] = 0 := rfl

@[simp] theorem viewsSize_cons (v : UInt32 × UInt8 × List UInt8)
    (vs : List (UInt32 × UInt8 × List UInt8)) :
    viewsSize (v :: vs) = viewSize v + viewsSize vs := rfl

theorem viewsSize_append (vs ws : List (UInt32 × UInt8 × List UInt8)) :
    viewsSize (vs ++ ws) = viewsSize vs + viewsSize ws := by
  unfold viewsSize
  rw [List.map_append, List.sum_append]

/-- What the loop read shows the bytes of the buffer, and lies inside it. -/
theorem udpReadLoop_sound {s' : UdpRead}
    (h : udpReadLoop buffer frame n fuel s = .ok s') (hpos : s.pos ≤ readBufLen) :
    ∃ out, s'.frames = s.frames ++ out ∧
      (out.map CanFrame.view).flatMap viewBytes
        = Bytes.slice buffer s.pos (viewsSize (out.map CanFrame.view)) ∧
      s.pos + viewsSize (out.map CanFrame.view) ≤ readBufLen := by
  induction fuel generalizing s with
  | zero =>
    obtain rfl : s = s' := Except.ok.inj h
    exact ⟨[], by simp, rfl, by simpa using hpos⟩
  | succ fuel ih =>
    unfold udpReadLoop at h
    split at h
    · obtain ⟨t, ht, hrest⟩ := Run.bind_eq_ok.mp h
      obtain ⟨hlen, hend⟩ := UdpRead.pass_bounds ht
      obtain rfl : s.next buffer frame = t := by
        rw [UdpRead.pass_eq_ok hlen hend] at ht
        exact Except.ok.inj ht
      obtain ⟨out, hframes, hbytes, hroom⟩ := ih hrest hend
      set f := frameAt buffer (frame s.pos) s.pos with hf
      have hnext : (s.next buffer frame).pos = s.pos + viewSize f.view := Nat.add_assoc _ _ _
      rw [hnext] at hbytes hroom
      refine ⟨f :: out, ?_, ?_, ?_⟩
      · rw [hframes]
        simp [UdpRead.next, hf]
      · rw [List.map_cons, List.flatMap_cons, viewsSize_cons, Bytes.slice_add, hbytes,
          viewBytes_frameAt _ _ hlen]
      · rw [List.map_cons, viewsSize_cons]
        omega
    · obtain rfl : s = s' := Except.ok.inj h
      exact ⟨[], by simp, rfl, by simpa using hpos⟩

/-- Bytes of frames that start before `n` and end behind it are read as these frames. -/
theorem udpReadLoop_complete {vs : List (UInt32 × UInt8 × List UInt8)} (hok : ∀ v ∈ vs, ViewOk v)
    (hbytes : Bytes.slice buffer s.pos (viewsSize vs) = vs.flatMap viewBytes)
    (hroom : s.pos + viewsSize vs ≤ readBufLen)
    (hstart : ∀ k < vs.length, s.pos + viewsSize (vs.take k) < n)
    (hend : n ≤ s.pos + viewsSize vs) (hfuel : vs.length ≤ fuel)
    (hcount : vs.length ≤ s.count) (hcount' : s.count < 2 ^ 16) :
    ∃ out, udpReadLoop buffer frame n fuel s
        = .ok ⟨s.frames ++ out, s.count - vs.length, s.pos + viewsSize vs⟩ ∧
      out.map CanFrame.view = vs := by
  induction vs generalizing fuel s with
  | nil =>
    refine ⟨[], ?_, rfl⟩
    have hstop : ¬ s.pos < n := by simpa using hend
    cases fuel with
    | zero => simp [udpReadLoop]
    | succ fuel => simp [udpReadLoop, hstop]
  | cons v vs ih =>
    -- the first frame is read in one pass, which leaves the bytes of the others
    obtain ⟨fuel, rfl⟩ : ∃ k, fuel = k + 1 := ⟨fuel - 1, by simp at hfuel; omega⟩
    have hv := hok v List.mem_cons_self
    rw [viewsSize_cons, Bytes.slice_add, List.flatMap_cons] at hbytes
    rw [viewsSize_cons] at hroom hend
    obtain ⟨hhead, htail⟩ := List.append_inj hbytes
      (by rw [Bytes.length_slice, length_viewBytes hv])
    have hlen : buffer (s.pos + 4) = v.2.1 := len_of_slice hhead
    have hlen8 : (buffer (s.pos + 4)).toNat ≤ canMaxDlen := by
      rw [hlen]
      exact hv.dlc_le
    have hpass : s.pass buffer frame = .ok (s.next buffer frame) :=
      UdpRead.pass_eq_ok hlen8 (by rw [hlen]; unfold viewSize at hroom; omega)
    have hgo : s.pos < n := by simpa using hstart 0 (by simp)
    set f := frameAt buffer (frame s.pos) s.pos with hf
    have hview : f.view = v := by
      apply viewBytes_injective
      rw [viewBytes_frameAt _ _ hlen8, ← hhead]
      congr 1
      show 5 + (buffer (s.pos + 4)).toNat = 5 + v.2.1.toNat
      rw [hlen]
    have hpos : (s.next buffer frame).pos = s.pos + viewSize v := by
      show s.pos + 5 + (buffer (s.pos + 4)).toNat = s.pos + (5 + v.2.1.toNat)
      rw [hlen]
      omega
    -- `count--` does not wrap while frames are left
    have hcnt : (s.next buffer frame).count = s.count - 1 := by
      show (s.count + (2 ^ 16 - 1)) % 2 ^ 16 = s.count - 1
      simp only [List.length_cons] at hcount
      omega
    rw [← hpos] at htail
    obtain ⟨out, hloop, hviews⟩ := ih (s := s.next buffer frame)
      (fun w hw => hok w (List.mem_cons_of_mem v hw)) htail (by rw [hpos]; omega)
      (fun k hk => by
        have := hstart (k + 1) (by simpa using hk)
        rw [List.take_succ_cons, viewsSize_cons] at this
        rw [hpos]
        omega)
      (by rw [hpos]; omega) (show vs.length ≤ fuel by simpa using hfuel)
      (by rw [hcnt]; simp only [List.length_cons] at hcount; omega) (by rw [hcnt]; omega)
    refine ⟨f :: out, ?_, by rw [List.map_cons, hview, hviews]⟩
    rw [udpReadLoop, if_pos hgo, hpass]
    show udpReadLoop buffer frame n fuel (s.next buffer frame) = _
    rw [hloop, hcnt, hpos, viewsSize_cons, List.length_cons]
    have hframes : (s.next buffer frame).frames ++ out = s.frames ++ f :: out := by
      simp [UdpRead.next, hf]
    rw [hframes, Nat.sub_sub, Nat.add_comm 1, Nat.add_assoc]

end Loop

/-! ## The whole call -/

section Call

variable {stack : Stack} {d : List UInt8}

theorem length_le_viewsSize (vs : List (UInt32 × UInt8 × List UInt8)) :
    vs.length ≤ viewsSize vs := by
  induction vs with
  | nil => simp
  | cons v vs ih =>
    rw [List.length_cons, viewsSize_cons, viewSize]
    omega

/-- The frames that were read show the bytes of the buffer, and lie inside it. -/
theorem UdpEndpoint.read_sound {r : Received} (h : UdpEndpoint.read stack d [] = .ok r) :
    (r.frames.map CanFrame.view).flatMap viewBytes
        = Bytes.slice (Bytes.ofList (d.take readBufLen) stack.buffer) 5
          (viewsSize (r.frames.map CanFrame.view)) ∧
      5 + viewsSize (r.frames.map CanFrame.view) ≤ readBufLen := by
  unfold read at h
  simp only at h
  split at h
  · cases h
  · obtain ⟨s, hs, hr⟩ := Run.bind_eq_ok.mp h
    obtain rfl : (⟨s.frames, s.count⟩ : Received) = r := Except.ok.inj hr
    obtain ⟨out, hout, hbytes, hroom⟩ := udpReadLoop_sound hs (by simp)
    rw [List.nil_append] at hout
    simp only [hout]
    exact ⟨hbytes, hroom⟩

/-- A datagram whose frames start before its end is read as these frames. -/
theorem UdpEndpoint.read_complete {vs : List (UInt32 × UInt8 × List UInt8)}
    (hne : d ≠ []) (hd : d.length ≤ readBufLen) (hok : ∀ v ∈ vs, ViewOk v)
    (hbytes : Bytes.slice (Bytes.ofList d stack.buffer) 5 (viewsSize vs) = vs.flatMap viewBytes)
    (hroom : 5 + viewsSize vs ≤ readBufLen)
    (hstart : ∀ k < vs.length, 5 + viewsSize (vs.take k) < d.length)
    (hend : d.length ≤ 5 + viewsSize vs)
    (hcount : Bytes.ofBe16 (Bytes.ofList d stack.buffer 3) (Bytes.ofList d stack.buffer 4)
      = vs.length) :
    ∃ out, UdpEndpoint.read stack d [] = .ok ⟨out, 0⟩ ∧ out.map CanFrame.view = vs := by
  have htake : d.take readBufLen = d := List.take_of_length_le hd
  have hlen : ¬ d.length = 0 := fun h => hne (List.length_eq_zero_iff.mp h)
  have hfuel := length_le_viewsSize vs
  have hcount' : vs.length < 2 ^ 16 := by
    simp only [readBufLen] at hroom
    omega
  obtain ⟨out, hloop, hviews⟩ : ∃ out, udpReadLoop (Bytes.ofList d stack.buffer) stack.frame
      d.length readBufLen ⟨[], vs.length, 5⟩
        = .ok ⟨[] ++ out, vs.length - vs.length, 5 + viewsSize vs⟩ ∧ out.map CanFrame.view = vs :=
    udpReadLoop_complete (s := ⟨[], vs.length, 5⟩) hok hbytes hroom hstart hend (by omega)
      (Nat.le_refl _) hcount'
  refine ⟨out, ?_, hviews⟩
  unfold read
  simp only [htake, if_neg hlen, hcount]
  rw [hloop]
  simp [bind, Except.bind, pure, Except.pure]

end Call

end Cannelloni
