import Cannelloni.Lib.Ring
import Cannelloni.Frame

/-!
# Frame queues (`cannelloni.c`, `frames_queue_t`)

A queue is a ring of slots in an array it does not own: `frames` only points to the array,
and the array is assigned by whoever sets the queue up. The model keeps that split. `Memory`
maps every slot of every array to the frame stored there, a queue holds the indices and the
name of its array, and `queue_put`, `queue_take` and `queue_peek` return slots (pointers),
not frames. A caller of `queue_put` fills the slot afterwards.
-/

namespace Cannelloni

/-- The arrays of `struct CANInterface`, one pair for each interface. -/
inductive Buf
  | txBuf (iface : ℕ)
  | rxBuf (iface : ℕ)
deriving DecidableEq, Repr

/-- A `struct canfd_frame *` into one of the arrays. -/
structure Slot where
  buf : Buf
  idx : ℕ
deriving DecidableEq, Repr

/-- What the arrays hold. -/
abbrev Memory := Slot → CanfdFrame

/-- The arrays are static: all zero when the program starts. -/
def zeroMemory : Memory := fun _ => .zero

/-- `frames_queue_t`: the ring indices `head`, `tail`, `count`, and the array. -/
structure FramesQueue extends Ring.Cursor where
  frames : Buf
deriving DecidableEq, Repr

/-! ## Operations -/

/-- `queue_init`. -/
def queueInit (frames : Buf) (count : ℕ) : FramesQueue :=
  { head := 0, tail := 0, count := count, frames := frames }

/-- `queue_put`: the slot to fill, or `none` (`NULL`) when the ring is full. -/
def queuePut (q : FramesQueue) : Option Slot × FramesQueue :=
  if (q.tail + 1) % q.count = q.head then (none, q)
  else (some ⟨q.frames, q.tail⟩, { q with tail := (q.tail + 1) % q.count })

/-- `queue_take`: release the oldest slot. -/
def queueTake (q : FramesQueue) : Option Slot × FramesQueue :=
  if q.head = q.tail then (none, q)
  else (some ⟨q.frames, q.head⟩, { q with head := (q.head + 1) % q.count })

/-- `queue_peek`: the oldest slot. -/
def queuePeek (q : FramesQueue) : Option Slot :=
  if q.head = q.tail then none else some ⟨q.frames, q.head⟩

/-! ## What a queue holds -/

namespace FramesQueue

/-- The frames in the queue, oldest first. -/
def contents (q : FramesQueue) (mem : Memory) : List CanfdFrame :=
  q.toCursor.contents fun i => mem ⟨q.frames, i⟩

/-- The slot that the `k`-th of several puts fills. -/
def freeSlot (q : FramesQueue) (k : ℕ) : Slot := ⟨q.frames, q.freeCell k⟩

/-- The slot is one the queue has in use. -/
def Holds (q : FramesQueue) (s : Slot) : Prop :=
  s.buf = q.frames ∧ ∃ k < q.held, s.idx = q.cell k

instance (q : FramesQueue) (s : Slot) : Decidable (q.Holds s) :=
  inferInstanceAs (Decidable (_ ∧ ∃ k < q.held, s.idx = q.cell k))

/-- The queue after a put. -/
def push (q : FramesQueue) : FramesQueue := { q with toCursor := q.toCursor.push }

/-- The queue after a take. -/
def pop (q : FramesQueue) : FramesQueue := { q with toCursor := q.toCursor.pop }

end FramesQueue

variable {q : FramesQueue} {mem : Memory}

/-! ## One operation -/

theorem queueInit_valid (frames : Buf) {count : ℕ} (h : 0 < count) :
    (queueInit frames count).Valid := ⟨h, h⟩

@[simp] theorem queueInit_contents (frames : Buf) (count : ℕ) (mem : Memory) :
    (queueInit frames count).contents mem = [] := rfl

theorem queuePut_of_full (h : q.Full) : queuePut q = (none, q) := if_pos h

theorem queuePut_of_not_full (h : ¬ q.Full) :
    queuePut q = (some ⟨q.frames, q.tail⟩, q.push) := if_neg h

theorem queueTake_of_empty (h : q.Empty) : queueTake q = (none, q) := if_pos h

theorem queueTake_of_not_empty (h : ¬ q.Empty) :
    queueTake q = (some ⟨q.frames, q.head⟩, q.pop) := if_neg h

theorem queuePeek_of_empty (h : q.Empty) : queuePeek q = none := if_pos h

theorem queuePeek_of_not_empty (h : ¬ q.Empty) : queuePeek q = some ⟨q.frames, q.head⟩ :=
  if_neg h

/-- The slot `queue_peek` returns holds the first frame of the queue. -/
theorem contents_of_not_empty (hv : q.Valid) (h : ¬ q.Empty) :
    q.contents mem = mem ⟨q.frames, q.head⟩ :: q.pop.contents mem :=
  Ring.Cursor.contents_pop hv h

theorem contents_of_empty (hv : q.Valid) (h : q.Empty) : q.contents mem = [] :=
  (Ring.Cursor.contents_eq_nil hv).mpr h

@[simp] theorem length_contents (q : FramesQueue) (mem : Memory) :
    (q.contents mem).length = q.held := Ring.Cursor.length_contents _ _

/-- A store to a slot that is not in use does not change the queue's frames. -/
theorem contents_congr {mem' : Memory} (h : ∀ s, q.Holds s → mem' s = mem s) :
    q.contents mem' = q.contents mem := by
  apply Ring.Cursor.contents_congr
  intro k hk
  exact h ⟨q.frames, q.cell k⟩ ⟨rfl, k, hk, rfl⟩

/-- The head slot of a nonempty queue is in use. -/
theorem holds_head (hv : q.Valid) (h : ¬ q.Empty) : q.Holds ⟨q.frames, q.head⟩ := by
  have hpos : 0 < q.held := by
    have := mt (Ring.Cursor.empty_iff_held hv).mpr h
    omega
  exact ⟨rfl, 0, hpos, (Nat.mod_eq_of_lt hv.head_lt).symm⟩

/-- No free slot is in use. -/
theorem not_holds_freeSlot (hv : q.Valid) {k : ℕ} (hk : k < q.free) : ¬ q.Holds (q.freeSlot k) := by
  intro hheld
  rcases hheld with ⟨_, j, hj, heq⟩
  exact Ring.Cursor.freeCell_ne_cell hv hk hj heq

/-- Filling the slot a put returned appends the frame. -/
theorem contents_push (hv : q.Valid) (h : ¬ q.Full) (f : CanfdFrame) :
    q.push.contents (Function.update mem ⟨q.frames, q.tail⟩ f) = q.contents mem ++ [f] := by
  have hcells : (fun i => Function.update mem ⟨q.frames, q.tail⟩ f ⟨q.frames, i⟩)
      = Function.update (fun i => mem ⟨q.frames, i⟩) q.tail f := by
    funext i
    by_cases hi : i = q.tail
    · subst hi
      simp
    · rw [Function.update_of_ne hi, Function.update_of_ne]
      intro heq
      exact hi (congrArg Slot.idx heq)
  have hring : q.toCursor.push.contents (Function.update (fun i => mem ⟨q.frames, i⟩) q.tail f)
      = q.toCursor.contents (fun i => mem ⟨q.frames, i⟩) ++ [f] :=
    Ring.Cursor.contents_push hv h f
  rw [← hcells] at hring
  exact hring

/-! ## Several puts -/

/-- Memory changed at most at the first `n` free slots of the queue. -/
def WritesFree (q : FramesQueue) (n : ℕ) (mem mem' : Memory) : Prop :=
  ∀ s, (∀ k < n, s ≠ q.freeSlot k) → mem' s = mem s

/-- Putting `fs` one after the other takes the queue `q` in memory `mem` to `q'` in `mem'`. -/
structure Appended (mem : Memory) (q : FramesQueue) (fs : List CanfdFrame) (mem' : Memory)
    (q' : FramesQueue) : Prop where
  valid : q'.Valid
  contents_eq : q'.contents mem' = q.contents mem ++ fs
  free_eq : q'.free + fs.length = q.free
  tail_eq : q'.tail = q.freeCell fs.length
  frames_eq : q'.frames = q.frames
  head_eq : q'.head = q.head
  count_eq : q'.count = q.count
  writes : WritesFree q fs.length mem mem'

theorem Appended.refl (hv : q.Valid) : Appended mem q [] mem q where
  valid := hv
  contents_eq := (List.append_nil _).symm
  free_eq := rfl
  tail_eq := (Ring.Cursor.freeCell_zero hv).symm
  frames_eq := rfl
  head_eq := rfl
  count_eq := rfl
  writes := fun _ _ => rfl

/-- One more put, with its slot filled. -/
theorem Appended.snoc {mem' : Memory} {q' : FramesQueue} {fs : List CanfdFrame}
    (h : Appended mem q fs mem' q') (hf : ¬ q'.Full) (f : CanfdFrame) :
    Appended mem q (fs ++ [f]) (Function.update mem' ⟨q'.frames, q'.tail⟩ f) q'.push where
  valid := h.valid.push
  contents_eq := by
    rw [contents_push h.valid hf, h.contents_eq, List.append_assoc]
  free_eq := by
    have hpush : q'.push.free + 1 = q'.free := Ring.Cursor.free_push h.valid hf
    have hfree := h.free_eq
    rw [List.length_append, List.length_singleton]
    omega
  tail_eq := by
    have htail : q'.push.tail = (q'.tail + 1) % q'.count := rfl
    rw [htail, h.tail_eq, h.count_eq, List.length_append, List.length_singleton]
    unfold Ring.Cursor.freeCell
    rw [Nat.mod_add_mod, Nat.add_assoc]
  frames_eq := h.frames_eq
  head_eq := h.head_eq
  count_eq := h.count_eq
  writes := by
    intro s hs
    rw [List.length_append, List.length_singleton] at hs
    -- the slot filled now is the one at distance `fs.length` from the old tail
    have hne : s ≠ ⟨q'.frames, q'.tail⟩ := by
      rw [h.frames_eq, h.tail_eq]
      exact hs fs.length (by omega)
    rw [Function.update_of_ne hne]
    exact h.writes s fun k hk => hs k (by omega)

theorem Appended.freeCell_eq {mem' : Memory} {q' : FramesQueue} {fs : List CanfdFrame}
    (h : Appended mem q fs mem' q') (k : ℕ) : q'.freeCell k = q.freeCell (fs.length + k) := by
  unfold Ring.Cursor.freeCell
  rw [h.tail_eq, h.count_eq]
  unfold Ring.Cursor.freeCell
  rw [Nat.mod_add_mod, Nat.add_assoc]

theorem Appended.freeSlot_eq {mem' : Memory} {q' : FramesQueue} {fs : List CanfdFrame}
    (h : Appended mem q fs mem' q') (k : ℕ) : q'.freeSlot k = q.freeSlot (fs.length + k) := by
  unfold FramesQueue.freeSlot
  rw [h.freeCell_eq, h.frames_eq]

/-- Puts followed by further puts. -/
theorem Appended.trans {mem₁ mem₂ : Memory} {q₁ q₂ : FramesQueue} {fs gs : List CanfdFrame}
    (h₁ : Appended mem q fs mem₁ q₁) (h₂ : Appended mem₁ q₁ gs mem₂ q₂) :
    Appended mem q (fs ++ gs) mem₂ q₂ where
  valid := h₂.valid
  contents_eq := by rw [h₂.contents_eq, h₁.contents_eq, List.append_assoc]
  free_eq := by
    have e₁ := h₁.free_eq
    have e₂ := h₂.free_eq
    rw [List.length_append]
    omega
  tail_eq := by rw [h₂.tail_eq, h₁.freeCell_eq, List.length_append]
  frames_eq := h₂.frames_eq.trans h₁.frames_eq
  head_eq := h₂.head_eq.trans h₁.head_eq
  count_eq := h₂.count_eq.trans h₁.count_eq
  writes := by
    intro s hs
    rw [List.length_append] at hs
    rw [h₂.writes s, h₁.writes s]
    · exact fun k hk => hs k (by omega)
    · intro k hk
      rw [h₁.freeSlot_eq]
      exact hs (fs.length + k) (by omega)

theorem Appended.length_le {mem' : Memory} {q' : FramesQueue} {fs : List CanfdFrame}
    (h : Appended mem q fs mem' q') : fs.length ≤ q.free := by
  have hfree := h.free_eq
  omega

/-- A queue that has none of the written slots in use keeps its frames. -/
theorem WritesFree.of_not_holds {n : ℕ} {mem' : Memory} {r : FramesQueue}
    (h : WritesFree q n mem mem') (hno : ∀ k < n, ¬ r.Holds (q.freeSlot k)) {s : Slot}
    (hs : r.Holds s) : mem' s = mem s := by
  apply h
  intro k hk hslot
  subst hslot
  exact hno k hk hs

/-- A queue in another array does not have a slot of this one in use. -/
theorem not_holds_of_ne {r : FramesQueue} (hne : r.frames ≠ q.frames) (k : ℕ) :
    ¬ r.Holds (q.freeSlot k) := by
  intro hs
  exact hne hs.1.symm

/-- The slots that were in use keep their frames. -/
theorem Appended.holds_unchanged {mem' : Memory} {q' : FramesQueue} {fs : List CanfdFrame}
    (hv : q.Valid) (h : Appended mem q fs mem' q') {s : Slot} (hs : q.Holds s) :
    mem' s = mem s := by
  apply h.writes.of_not_holds _ hs
  intro k hk
  exact not_holds_freeSlot hv (lt_of_lt_of_le hk h.length_le)

/-- A queue in another array does not notice. -/
theorem WritesFree.contents_of_ne {n : ℕ} {mem' : Memory} {r : FramesQueue}
    (h : WritesFree q n mem mem') (hne : r.frames ≠ q.frames) :
    r.contents mem' = r.contents mem := by
  apply contents_congr
  intro s hs
  exact h.of_not_holds (fun k _ => not_holds_of_ne hne k) hs

/-! ## Filling slots in place

Whoever puts a frame does not bring it along but changes the former contents of the slot. -/

section Fill

variable {ι : Type*} (render : ι → CanfdFrame → CanfdFrame)

/-- The frames that rendering the items one after the other leaves in the free slots. -/
def fillSlots (mem : Memory) : FramesQueue → List ι → List CanfdFrame
  | _, [] => []
  | q, x :: xs => render x (mem (q.freeSlot 0)) :: fillSlots mem q.push xs

@[simp] theorem length_fillSlots (mem : Memory) (q : FramesQueue) (xs : List ι) :
    (fillSlots render mem q xs).length = xs.length := by
  induction xs generalizing q with
  | nil => rfl
  | cons x xs ih => simp [fillSlots, ih]

theorem freeSlot_push (q : FramesQueue) (k : ℕ) : q.push.freeSlot k = q.freeSlot (k + 1) :=
  congrArg (Slot.mk q.frames) (Ring.Cursor.freeCell_push k)

theorem freeSlot_zero (hv : q.Valid) : q.freeSlot 0 = ⟨q.frames, q.tail⟩ :=
  congrArg (Slot.mk q.frames) (Ring.Cursor.freeCell_zero hv)

/-- Only the former contents of the slots that get filled matter. -/
theorem fillSlots_congr {mem mem' : Memory} {q : FramesQueue} {xs : List ι}
    (h : ∀ k < xs.length, mem' (q.freeSlot k) = mem (q.freeSlot k)) :
    fillSlots render mem' q xs = fillSlots render mem q xs := by
  induction xs generalizing q with
  | nil => rfl
  | cons x xs ih =>
    have hhead := h 0 (by simp)
    have htail : ∀ k < xs.length, mem' (q.push.freeSlot k) = mem (q.push.freeSlot k) := by
      intro k hk
      rw [freeSlot_push]
      exact h (k + 1) (by simpa using hk)
    rw [fillSlots, fillSlots, hhead, ih htail]

/-- A property of everything `render` makes of the items holds of the frames. -/
theorem forall_mem_fillSlots {P : CanfdFrame → Prop} {mem : Memory} {q : FramesQueue}
    {xs : List ι} (h : ∀ x ∈ xs, ∀ old, P (render x old)) :
    ∀ f ∈ fillSlots render mem q xs, P f := by
  induction xs generalizing q with
  | nil => simp [fillSlots]
  | cons x xs ih =>
    intro f hf
    rcases List.mem_cons.mp hf with rfl | hf
    · exact h x List.mem_cons_self _
    · exact ih (fun y hy => h y (List.mem_cons_of_mem x hy)) f hf

/-- What the rendering makes of an item does not depend on the slot, as far as `g` sees. -/
theorem map_fillSlots {β : Type*} {g : CanfdFrame → β} {g' : ι → β} {mem : Memory}
    {q : FramesQueue} {xs : List ι} (h : ∀ x ∈ xs, ∀ old, g (render x old) = g' x) :
    (fillSlots render mem q xs).map g = xs.map g' := by
  induction xs generalizing q with
  | nil => rfl
  | cons x xs ih =>
    rw [fillSlots, List.map_cons, List.map_cons, h x List.mem_cons_self,
      ih fun y hy => h y (List.mem_cons_of_mem x hy)]

/-- The slot filled now is not among those filled later. -/
theorem fillSlots_update_tail (hv : q.Valid) (hf : ¬ q.Full) (f : CanfdFrame) {xs : List ι}
    (hlen : xs.length ≤ q.push.free) :
    fillSlots render (Function.update mem (q.freeSlot 0) f) q.push xs
      = fillSlots render mem q.push xs := by
  apply fillSlots_congr
  intro k hk
  have hfree : q.push.free + 1 = q.free := Ring.Cursor.free_push hv hf
  have hlt := Ring.Cursor.held_lt hv
  have hfr : q.free = q.count - 1 - q.held := rfl
  apply Function.update_of_ne
  rw [freeSlot_push]
  intro heq
  -- free cells at different distances from the tail are different cells
  have hidx : q.freeCell (k + 1) = q.freeCell 0 := congrArg Slot.idx heq
  rw [Ring.Cursor.freeCell_eq_cell hv, Ring.Cursor.freeCell_eq_cell hv] at hidx
  have := Ring.Cursor.cell_inj hv (by omega) (by omega) hidx
  omega

/-- Filling one slot, followed by filling the others. -/
theorem Appended.fill_cons {mem' : Memory} {q' : FramesQueue} (hv : q.Valid) (hf : ¬ q.Full)
    {x : ι} {xs : List ι}
    (h : Appended (Function.update mem (q.freeSlot 0) (render x (mem (q.freeSlot 0)))) q.push
      (fillSlots render mem q.push xs) mem' q') :
    Appended mem q (fillSlots render mem q (x :: xs)) mem' q' := by
  have hone : Appended mem q ([] ++ [render x (mem (q.freeSlot 0))])
      (Function.update mem (q.freeSlot 0) (render x (mem (q.freeSlot 0)))) q.push := by
    rw [freeSlot_zero hv]
    exact (Appended.refl hv).snoc hf _
  exact hone.trans h

end Fill

/-! ## Several takes -/

/-- Taking `fs` one after the other takes the queue `q` to `q'`. -/
structure Taken (mem : Memory) (q : FramesQueue) (fs : List CanfdFrame) (q' : FramesQueue) :
    Prop where
  valid : q'.Valid
  contents_eq : q.contents mem = fs ++ q'.contents mem
  tail_eq : q'.tail = q.tail
  frames_eq : q'.frames = q.frames
  count_eq : q'.count = q.count

theorem Taken.refl (hv : q.Valid) : Taken mem q [] q :=
  ⟨hv, rfl, rfl, rfl, rfl⟩

/-- One more take. -/
theorem Taken.snoc {q' : FramesQueue} {fs : List CanfdFrame} (h : Taken mem q fs q')
    (he : ¬ q'.Empty) : Taken mem q (fs ++ [mem ⟨q'.frames, q'.head⟩]) q'.pop where
  valid := h.valid.pop
  contents_eq := by
    rw [h.contents_eq, contents_of_not_empty h.valid he, List.append_assoc]
    rfl
  tail_eq := h.tail_eq
  frames_eq := h.frames_eq
  count_eq := h.count_eq

/-- Takes followed by further takes. -/
theorem Taken.trans {q₁ q₂ : FramesQueue} {fs gs : List CanfdFrame} (h₁ : Taken mem q fs q₁)
    (h₂ : Taken mem q₁ gs q₂) : Taken mem q (fs ++ gs) q₂ where
  valid := h₂.valid
  contents_eq := by rw [h₁.contents_eq, h₂.contents_eq, List.append_assoc]
  tail_eq := h₂.tail_eq.trans h₁.tail_eq
  frames_eq := h₂.frames_eq.trans h₁.frames_eq
  count_eq := h₂.count_eq.trans h₁.count_eq

end Cannelloni
