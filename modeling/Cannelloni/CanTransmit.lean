import Cannelloni.Lib.Run
import Cannelloni.Handle

/-!
# Sending to the bus (`transmit_can_frames`)

The function offers the oldest frame of `tx_queue` to `can_tx_fn` and releases its slot when
the frame was taken, until a frame is refused or the queue is empty. The answers of
`can_tx_fn` come from outside, as a list with one entry for each attempt; a list that is used
up refuses.
-/

namespace Cannelloni

/-- The `while` loop: the queue afterwards, and the frames offered with their answers. -/
def offerLoop (mem : Memory) : List Bool → FramesQueue → FramesQueue × List (CanfdFrame × Bool)
  | [], q =>
    match queuePeek q with
    | none => (q, [])
    | some slot => (q, [(mem slot, false)])
  | answer :: answers, q =>
    match queuePeek q with
    | none => (q, [])
    | some slot =>
      if answer then
        let (_, q) := queueTake q
        let (q, offers) := offerLoop mem answers q
        (q, (mem slot, true) :: offers)
      else (q, [(mem slot, false)])

/-- `transmit_can_frames`. -/
def transmitCanFrames (answers : List Bool) (n : Node) : Node × List (CanfdFrame × Bool) :=
  if n.handle.init.canTxFn then
    let (q, offers) := offerLoop n.mem answers n.handle.txQueue
    ({ n with handle := { n.handle with txQueue := q } }, offers)
  else (n, [])

/-- The loop takes the frames that were accepted, and offers each frame when it is due. -/
theorem offerLoop_spec (mem : Memory) (answers : List Bool) {q : FramesQueue} (hv : q.Valid) :
    Taken mem q (Run.delivered (offerLoop mem answers q).2) (offerLoop mem answers q).1 ∧
      Run.InOrder (offerLoop mem answers q).2 (q.contents mem) := by
  induction answers generalizing q with
  | nil =>
    by_cases he : q.Empty
    · simp only [offerLoop, queuePeek_of_empty he]
      exact ⟨Taken.refl hv, Run.InOrder.nil _⟩
    · simp only [offerLoop, queuePeek_of_not_empty he]
      rw [contents_of_not_empty hv he]
      exact ⟨Taken.refl hv, Run.InOrder.refused (by simp)⟩
  | cons answer answers ih =>
    by_cases he : q.Empty
    · simp only [offerLoop, queuePeek_of_empty he]
      exact ⟨Taken.refl hv, Run.InOrder.nil _⟩
    · rw [contents_of_not_empty hv he]
      cases answer with
      | false =>
        simp only [offerLoop, queuePeek_of_not_empty he, Bool.false_eq_true, if_false]
        exact ⟨Taken.refl hv, Run.InOrder.refused (by simp)⟩
      | true =>
        obtain ⟨htaken, horder⟩ := ih (q := q.pop) hv.pop
        simp only [offerLoop, queuePeek_of_not_empty he, if_true, queueTake_of_not_empty he]
        exact ⟨((Taken.refl hv).snoc he).trans htaken, horder.cons_accepted⟩

/-- A call hands frames to the bus and leaves everything but `tx_queue` alone. -/
structure Offers (n : Node) (n' : Node) (offers : List (CanfdFrame × Bool)) : Prop where
  taken : Taken n.mem n.handle.txQueue (Run.delivered offers) n'.handle.txQueue
  inOrder : Run.InOrder offers n.txFrames
  mem_eq : n'.mem = n.mem
  handle_eq : n'.handle = { n.handle with txQueue := n'.handle.txQueue }

theorem transmitCanFrames_spec (answers : List Bool) {n : Node} (hv : n.handle.txQueue.Valid) :
    Offers n (transmitCanFrames answers n).1 (transmitCanFrames answers n).2 := by
  unfold transmitCanFrames
  split
  · obtain ⟨htaken, horder⟩ := offerLoop_spec n.mem answers hv
    exact ⟨htaken, horder, rfl, rfl⟩
  · exact ⟨Taken.refl hv, Run.InOrder.nil _, rfl, rfl⟩

theorem Offers.valid {n n' : Node} {offers : List (CanfdFrame × Bool)} (hv : n.handle.Valid)
    (h : Offers n n' offers) : n'.handle.Valid := by
  rw [h.handle_eq]
  exact hv.of_txQueue rfl rfl h.taken.valid h.taken.frames_eq h.taken.count_eq

/-- What was accepted and what is left are what was there. -/
theorem Offers.txFrames_eq {n n' : Node} {offers : List (CanfdFrame × Bool)}
    (h : Offers n n' offers) : n.txFrames = Run.delivered offers ++ n'.txFrames := by
  have := h.taken.contents_eq
  unfold Node.txFrames
  rw [h.mem_eq]
  exact this

theorem Offers.rxFrames_eq {n n' : Node} {offers : List (CanfdFrame × Bool)}
    (h : Offers n n' offers) : n'.rxFrames = n.rxFrames := by
  unfold Node.rxFrames
  rw [h.mem_eq, h.handle_eq]

end Cannelloni
