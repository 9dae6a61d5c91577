import Cannelloni.Lib.Fifo
import Cannelloni.Queue

/-!
# The frame ring is a bounded queue

Any sequence of `queue_put`, `queue_take` and `queue_peek` after `queue_init`, where the caller
fills the slot a put returned. The ring of `count` slots refines a queue of capacity
`count - 1`. `size_t` never wraps in `tail + 1`: the tail stays below `count`, which is a
`size_t` itself.
-/

namespace Cannelloni

/-- A queue with the memory its slots are in. -/
structure QueueState where
  mem : Memory
  queue : FramesQueue

namespace QueueState

/-- The frames in the queue. -/
def frames (s : QueueState) : List CanfdFrame := s.queue.contents s.mem

/-- One call. The answer is the returned pointer with the frame that is there: for a put the
one the caller stores. -/
def step (s : QueueState) : Fifo.Op CanfdFrame → Option (Slot × CanfdFrame) × QueueState
  | .put f =>
    match queuePut s.queue with
    | (none, queue) => (none, { s with queue := queue })
    | (some slot, queue) => (some (slot, f), ⟨Function.update s.mem slot f, queue⟩)
  | .take =>
    let r := queueTake s.queue
    (r.1.map fun slot => (slot, s.mem slot), { s with queue := r.2 })
  | .peek => ((queuePeek s.queue).map fun slot => (slot, s.mem slot), s)

/-- The ring is in order and denotes the values of the abstract queue. -/
structure Denotes {count : ℕ} (s : QueueState) (t : Fifo.Bounded CanfdFrame (count - 1)) :
    Prop where
  valid : s.queue.Valid
  count_eq : s.queue.count = count
  frames_eq : s.frames = t.items

variable {count : ℕ} {s : QueueState} {t : Fifo.Bounded CanfdFrame (count - 1)}

theorem denotes_init (buf : Buf) (hcount : 1 ≤ count) (mem : Memory) :
    Denotes ⟨mem, queueInit buf count⟩ (Fifo.empty CanfdFrame (count - 1)) where
  valid := queueInit_valid buf hcount
  count_eq := rfl
  frames_eq := rfl

theorem Denotes.held_eq (h : Denotes s t) : s.queue.held = t.items.length := by
  rw [← h.frames_eq, frames, length_contents]

/-- One cell always stays unused. -/
theorem Denotes.full_iff (h : Denotes s t) : s.queue.Full ↔ t.items.length = count - 1 := by
  have hle := t.length_le
  have hfree : s.queue.free = count - 1 - t.items.length := by
    unfold Ring.Cursor.free
    rw [h.count_eq, h.held_eq]
  rw [Ring.Cursor.full_iff_free h.valid, hfree]
  omega

theorem Denotes.empty_iff (h : Denotes s t) : s.queue.Empty ↔ t.items = [] := by
  rw [Ring.Cursor.empty_iff_held h.valid, h.held_eq, List.length_eq_zero_iff]

/-- The frame at the head is the oldest one. -/
theorem Denotes.items_eq (h : Denotes s t) (he : ¬ s.queue.Empty) :
    t.items = s.mem ⟨s.queue.frames, s.queue.head⟩ :: s.queue.pop.contents s.mem := by
  rw [← h.frames_eq]
  exact contents_of_not_empty h.valid he

/-! ## One call -/

theorem Denotes.put (h : Denotes s t) (f : CanfdFrame) :
    (s.step (.put f)).1.map Prod.snd = (Fifo.step t (.put f)).1 ∧
      Denotes (s.step (.put f)).2 (Fifo.step t (.put f)).2 := by
  by_cases hf : s.queue.Full
  · have hstep : s.step (.put f) = (none, s) := by
      unfold QueueState.step
      rw [queuePut_of_full hf]
    have habs : Fifo.step t (.put f) = (none, t) := Fifo.put_of_eq (h.full_iff.mp hf) f
    rw [hstep, habs]
    exact ⟨rfl, h⟩
  · have hlt : t.items.length < count - 1 := by
      have hle := t.length_le
      have hne := mt h.full_iff.mpr hf
      omega
    rcases Fifo.put_of_lt hlt f with ⟨hanswer, hitems⟩
    have hstep : s.step (.put f) = (some (⟨s.queue.frames, s.queue.tail⟩, f),
        ⟨Function.update s.mem ⟨s.queue.frames, s.queue.tail⟩ f, s.queue.push⟩) := by
      unfold QueueState.step
      rw [queuePut_of_not_full hf]
    rw [hstep]
    refine ⟨hanswer.symm, h.valid.push, h.count_eq, ?_⟩
    show s.queue.push.contents (Function.update s.mem _ f) = (Fifo.put t f).2.items
    rw [contents_push h.valid hf, hitems, ← h.frames_eq]
    rfl

theorem Denotes.take (h : Denotes s t) :
    (s.step .take).1.map Prod.snd = (Fifo.step t .take).1 ∧
      Denotes (s.step .take).2 (Fifo.step t .take).2 := by
  by_cases he : s.queue.Empty
  · have hnil := h.empty_iff.mp he
    have hstep : s.step .take = (none, s) := by
      unfold QueueState.step
      rw [queueTake_of_empty he]
      rfl
    rw [hstep]
    refine ⟨?_, h.valid, h.count_eq, ?_⟩
    · show none = t.items.head?
      rw [hnil]
      rfl
    · show s.frames = t.items.tail
      rw [h.frames_eq, hnil]
      rfl
  · have hitems := h.items_eq he
    have hstep : s.step .take = (some (⟨s.queue.frames, s.queue.head⟩,
        s.mem ⟨s.queue.frames, s.queue.head⟩), ⟨s.mem, s.queue.pop⟩) := by
      unfold QueueState.step
      rw [queueTake_of_not_empty he]
      rfl
    rw [hstep]
    refine ⟨?_, h.valid.pop, h.count_eq, ?_⟩
    · show some _ = t.items.head?
      rw [hitems]
      rfl
    · show s.queue.pop.contents s.mem = t.items.tail
      rw [hitems]
      rfl

/-- What a peek answers. -/
theorem Denotes.peek (h : Denotes s t) : (queuePeek s.queue).map s.mem = t.items.head? := by
  by_cases he : s.queue.Empty
  · rw [queuePeek_of_empty he, h.empty_iff.mp he]
    rfl
  · rw [queuePeek_of_not_empty he, h.items_eq he]
    rfl

/-- What a call does to the ring is what it does to the abstract queue, and it answers the
same. -/
theorem Denotes.step (h : Denotes s t) (o : Fifo.Op CanfdFrame) :
    (s.step o).1.map Prod.snd = (Fifo.step t o).1 ∧ Denotes (s.step o).2 (Fifo.step t o).2 := by
  cases o with
  | put f => exact h.put f
  | take => exact h.take
  | peek =>
    refine ⟨?_, h⟩
    show ((queuePeek s.queue).map fun slot => (slot, s.mem slot)).map Prod.snd = t.items.head?
    rw [Option.map_map, ← h.peek]
    rfl

/-! ## What a caller sees -/

/-- The next call on a queue of `count` slots that holds `items`. -/
structure Behaves (s : QueueState) (count : ℕ) (items : List CanfdFrame) : Prop where
  head_lt : s.queue.head < count
  tail_lt : s.queue.tail < count
  frames_eq : s.frames = items
  put_eq_none : (queuePut s.queue).1 = none ↔ items.length = count - 1
  put_none : (queuePut s.queue).1 = none → ∀ f, (s.step (.put f)).2 = s
  put_fresh : ∀ slot, (queuePut s.queue).1 = some slot → ¬ s.queue.Holds slot
  take_eq_none : (queueTake s.queue).1 = none ↔ items = []
  take_none : (queueTake s.queue).1 = none → (s.step .take).2 = s
  take_oldest : (queueTake s.queue).1.map s.mem = items.head?
  peek_eq_none : queuePeek s.queue = none ↔ items = []
  peek_unchanged : (s.step .peek).2 = s
  peek_oldest : (queuePeek s.queue).map s.mem = items.head?

theorem Denotes.behaves (h : Denotes s t) : s.Behaves count t.items where
  head_lt := h.count_eq ▸ h.valid.head_lt
  tail_lt := h.count_eq ▸ h.valid.tail_lt
  frames_eq := h.frames_eq
  put_eq_none := by
    rw [← h.full_iff]
    by_cases hf : s.queue.Full
    · rw [queuePut_of_full hf]
      exact ⟨fun _ => hf, fun _ => rfl⟩
    · rw [queuePut_of_not_full hf]
      exact ⟨fun hsome => by simp at hsome, fun hfull => absurd hfull hf⟩
  put_none := by
    intro hnone f
    by_cases hf : s.queue.Full
    · unfold QueueState.step
      rw [queuePut_of_full hf]
    · rw [queuePut_of_not_full hf] at hnone
      simp at hnone
  put_fresh := by
    intro slot hslot
    by_cases hf : s.queue.Full
    · rw [queuePut_of_full hf] at hslot
      simp at hslot
    · rw [queuePut_of_not_full hf, ← freeSlot_zero h.valid] at hslot
      have hpos : 0 < s.queue.free := by
        have := mt (Ring.Cursor.full_iff_free h.valid).mpr hf
        omega
      rcases Option.some.inj hslot with rfl
      exact not_holds_freeSlot h.valid hpos
  take_eq_none := by
    rw [← h.empty_iff]
    by_cases he : s.queue.Empty
    · simp [queueTake_of_empty he, he]
    · simp [queueTake_of_not_empty he, he]
  take_none := by
    intro hnone
    by_cases he : s.queue.Empty
    · unfold QueueState.step
      rw [queueTake_of_empty he]
    · rw [queueTake_of_not_empty he] at hnone
      simp at hnone
  take_oldest := by
    by_cases he : s.queue.Empty
    · rw [queueTake_of_empty he, h.empty_iff.mp he]
      rfl
    · rw [queueTake_of_not_empty he, h.items_eq he]
      rfl
  peek_eq_none := by
    rw [← h.empty_iff]
    by_cases he : s.queue.Empty
    · simp [queuePeek_of_empty he, he]
    · simp [queuePeek_of_not_empty he, he]
  peek_unchanged := rfl
  peek_oldest := h.peek

/-! ## Any sequence of calls -/

/-- A run on the ring answers like the abstract queue of capacity `count - 1`, leaves the frames
it holds, and the frames come out in the order they were put. -/
theorem run_refines_fifo (buf : Buf) (hcount : 1 ≤ count) (mem : Memory)
    (calls : List (Fifo.Op CanfdFrame)) :
    let ring := Machine.run step ⟨mem, queueInit buf count⟩ calls
    let fifo := Machine.run Fifo.step (Fifo.empty CanfdFrame (count - 1)) calls
    ring.1.map (Prod.map id (Option.map Prod.snd)) = fifo.1
      ∧ ring.2.Behaves count fifo.2.items
      ∧ Fifo.taken fifo.1 ++ ring.2.frames = Fifo.accepted fifo.1 := by
  intro ring fifo
  have hsim : ring.1.map (Prod.map id (Option.map Prod.snd)) = fifo.1
      ∧ Denotes ring.2 fifo.2 :=
    Machine.run_simulates (fun _ _ o h (_ : True) => h.step o) (denotes_init buf hcount mem)
      fun _ _ => trivial
  rcases hsim with ⟨hanswers, hdenotes⟩
  refine ⟨hanswers, hdenotes.behaves, ?_⟩
  have hitems := Fifo.items_run (Fifo.empty CanfdFrame (count - 1)) calls
  rw [hdenotes.frames_eq, ← hitems]
  rfl

/-- Two slots: the second put is refused, and the ring has wrapped around at the end. -/
theorem run_refines_fifo_two :
    let one : CanfdFrame := ⟨1, 1, 0, Vector.replicate _ 1⟩
    let two : CanfdFrame := ⟨2, 2, 0, Vector.replicate _ 2⟩
    let three : CanfdFrame := ⟨3, 3, 0, Vector.replicate _ 3⟩
    let calls := [.put one, .put two, .peek, .take, .put three, .take, .take]
    let ring := Machine.run step ⟨zeroMemory, queueInit (.rxBuf 0) 2⟩ calls
    let fifo := Machine.run Fifo.step (Fifo.empty CanfdFrame (2 - 1)) calls
    ring.1.map (Prod.map id (Option.map Prod.snd)) = fifo.1
      ∧ ring.2.Behaves 2 fifo.2.items
      ∧ Fifo.taken fifo.1 ++ ring.2.frames = Fifo.accepted fifo.1
      ∧ Fifo.taken fifo.1 = [one, three] := by
  intro one two three calls ring fifo
  rcases run_refines_fifo (.rxBuf 0) (show 1 ≤ 2 by decide) zeroMemory calls with
    ⟨hanswers, hbehaves, hconserved⟩
  exact ⟨hanswers, hbehaves, hconserved, by decide +kernel⟩

end QueueState

end Cannelloni
