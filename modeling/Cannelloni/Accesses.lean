import Cannelloni.BusOutput
import Cannelloni.Delivery

/-!
# Between two accesses

`transmit_can_frames` with `on_can_transmit` and `can_send`, cut at every access to the queue, to
the frame and to the registers of the controller. The receive interrupt may fire between any two of
them; it puts frames into the queue that the main loop reads byte by byte. The controller ends a
transmission or a transfer at any time. `q->frames`, which nobody writes, is read along with
`q->head`.

`accesses_refine` says that this is an interleaving of the larger steps of `TxSystem`: nothing the
main loop reads is torn, or older than a decision it takes on it.
-/

namespace Cannelloni

/-! ## The system -/

/-- The place of the main loop, before the access named, with the values it has in registers. -/
inductive AccessPc
  /-- outside `transmit_can_frames` -/
  | idle
  /-- `queue_peek` loads `q->head` -/
  | peekHead
  /-- `queue_peek` loads `q->tail` and compares -/
  | peekTail (head : ℕ)
  /-- `queue_peek` loads `q->head` for the address -/
  | peekSlot
  /-- `on_can_transmit` loads `frame->can_id` -/
  | canId (frame : Slot)
  /-- `on_can_transmit` loads `frame->len` -/
  | len (frame : Slot) (id : UInt32)
  /-- `can_send` reads `TXRQx` -/
  | txrq (frame : Slot) (id : UInt32) (dlc : UInt8)
  /-- `can_if_wait_ready` reads `IF1STAT` -/
  | wait (frame : Slot) (id : UInt32) (dlc : UInt8)
  /-- `can_send` writes `IF1ARB` -/
  | arb (frame : Slot) (id : UInt32) (dlc : UInt8)
  /-- `can_send` reads `IF1ARB` to add the identifier -/
  | arbRead (frame : Slot) (id : UInt32) (dlc : UInt8)
  /-- `can_send` writes `IF1ARB` with the identifier -/
  | arbId (frame : Slot) (id : UInt32) (dlc : UInt8) (arb : UInt32)
  /-- `can_send` writes `IF1MCTL` -/
  | mctl (frame : Slot) (dlc : UInt8)
  /-- `can_send` loads `data[i]`, or writes `IF1CMD` behind the last byte -/
  | data (frame : Slot) (dlc : UInt8) (i : ℕ)
  /-- `can_send` writes `IF1DATx` -/
  | datx (frame : Slot) (dlc : UInt8) (i : Fin 8) (byte : UInt8)
  /-- `can_send` writes `IF1NO`, which starts the transfer -/
  | no (dlc : UInt8)
  /-- `queue_take` loads `q->head` -/
  | takeHead
  /-- `queue_take` loads `q->tail` and compares -/
  | takeTail (head : ℕ)
  /-- `queue_take` loads `q->head` for the address, which nobody uses -/
  | takeSlot
  /-- `queue_take` loads `q->head` -/
  | takeNext
  /-- `queue_take` loads `q->count` -/
  | takeCount (head : ℕ)
  /-- `queue_take` stores `q->head` -/
  | takeStore (head : ℕ)
deriving DecidableEq, Repr

/-- A handle with its controller, the bit of `IF1STAT` that `can_if_wait_ready` waits for, the place
of the main loop, and (ghost) the frames accepted from the network and the images programmed so
far. -/
structure AccessSystem where
  node : Node
  reg : CanReg
  busy : Bool
  pc : AccessPc
  accepted : List CanfdFrame
  images : List BusImage

inductive AccessEvent
  /-- the receive interrupt, with the packet it delivers -/
  | receive (p : Option PbufChain)
  /-- the next access of the main loop -/
  | main
  /-- the controller sets or clears transmission requests and the bit of `IF1STAT` -/
  | controller (txrq : Vector UInt32 4) (busy : Bool)

namespace AccessSystem

/-- The state after `init_cannelloni`. -/
def start (mem : Memory) (init : Init) (reg : CanReg) : AccessSystem :=
  ⟨⟨mem, initCannelloni init⟩, reg, false, .idle, [], []⟩

/-- The bits that `can_send` adds to `IF1ARB` for an identifier word. -/
def arbBits (id : UInt32) : UInt32 :=
  if id &&& canMsgidExtended ≠ 0 then ifarbXtd ||| (id &&& canMsgidXtdMask)
  else (id &&& canMsgidStdMask) <<< ifarbIdStdShift

/-- The next access of the main loop. -/
def mainStep (s : AccessSystem) : Except CanFault AccessSystem :=
  let q := s.node.handle.txQueue
  match s.pc with
  | .idle => .ok { s with pc := if s.node.handle.init.canTxFn then .peekHead else .idle }
  | .peekHead => .ok { s with pc := .peekTail q.head }
  | .peekTail head => .ok { s with pc := if head = q.tail then .idle else .peekSlot }
  | .peekSlot => .ok { s with pc := .canId ⟨q.frames, q.head⟩ }
  | .canId frame => .ok { s with pc := .len frame (s.node.mem frame).canId }
  | .len frame id => .ok { s with pc := .txrq frame id (s.node.mem frame).len }
  | .txrq frame id dlc =>
    if s.reg.Busy then .ok { s with pc := .idle } else .ok { s with pc := .wait frame id dlc }
  | .wait frame id dlc => .ok (if s.busy then s else { s with pc := .arb frame id dlc })
  | .arb frame id dlc => .ok { s with
      reg := { s.reg with if1 := { s.reg.if1 with arb := ifarbMsgval ||| ifarbDir } }
      pc := .arbRead frame id dlc }
  | .arbRead frame id dlc => .ok { s with pc := .arbId frame id dlc s.reg.if1.arb }
  | .arbId frame id dlc arb => .ok { s with
      reg := { s.reg with if1 := { s.reg.if1 with arb := arb ||| arbBits id } }
      pc := .mctl frame dlc }
  | .mctl frame dlc => .ok { s with
      reg := { s.reg with if1 := { s.reg.if1 with mctl := mctlOf dlc } }
      pc := .data frame dlc 0 }
  | .data frame dlc i =>
    if i < dlc.toNat then
      if h : i < 8 then
        .ok { s with pc := .datx frame dlc ⟨i, h⟩ ((s.node.mem frame).byteAt i) }
      else .error (.orderIndex i)
    else .ok { s with reg := { s.reg with if1Cmd := 0xFF }, pc := .no dlc }
  | .datx frame dlc i byte =>
    let datx := s.reg.if1.datx.setIfInBounds (dataByteOrder.get i) byte
    .ok { s with
      reg := { s.reg with if1 := { s.reg.if1 with datx } }
      pc := .data frame dlc (i.val + 1) }
  | .no dlc => .ok { s with
      reg := { s.reg with if1No := 1 }
      busy := true
      pc := .takeHead
      images := s.images ++ [s.reg.if1.image dlc.toNat] }
  | .takeHead => .ok { s with pc := .takeTail q.head }
  | .takeTail head => .ok { s with pc := if head = q.tail then .peekHead else .takeSlot }
  | .takeSlot => .ok { s with pc := .takeNext }
  | .takeNext => .ok { s with pc := .takeCount q.head }
  | .takeCount head => .ok { s with pc := .takeStore ((head + 1) % q.count) }
  | .takeStore head =>
    .ok { s with
      node := { s.node with handle := { s.node.handle with txQueue := { q with head } } }
      pc := .peekHead }

def step (s : AccessSystem) : AccessEvent → Except (Fault ⊕ CanFault) AccessSystem
  | .receive p =>
    match handleCannelloniFrame s.node p with
    | .error e => .error (.inl e)
    | .ok o => .ok { s with node := o.node, accepted := s.accepted ++ o.stored }
  | .main =>
    match s.mainStep with
    | .error e => .error (.inr e)
    | .ok s' => .ok s'
  | .controller txrq busy => .ok { s with reg := { s.reg with txrq }, busy }

end AccessSystem

/-- The packet holds classic data records that fit a frame. -/
def AccessEvent.Classic : AccessEvent → Prop
  | .receive (some p) => p.Classic
  | _ => True

instance : (e : AccessEvent) → Decidable e.Classic
  | .receive (some p) => inferInstanceAs (Decidable p.Classic)
  | .receive none | .main | .controller _ _ => .isTrue trivial

/-- The packets that interrupts deliver. -/
def AccessEvent.packets : AccessEvent → List (Option PbufChain)
  | .receive p => [p]
  | _ => []

def TxEvent.packets : TxEvent → List (Option PbufChain)
  | .receive p => [p]
  | .main _ => []

/-! ## The relation -/

/-- The registers hold a frame up to its first `i` data bytes. -/
def If1.Programming (m : If1) (f : CanfdFrame) (i : ℕ) : Prop :=
  ∃ old : If1, m = old.loaded f.byteAt i ∧ old.arb = arbOf f.canId ∧ old.mctl = mctlOf f.len

/-- The place between two accesses belongs to the place between two steps of `TxSystem`, and the
values in registers are those that the queue and the frame have now. -/
inductive AccessPc.Refines (q : FramesQueue) (m : If1) : AccessPc → TxPc → Prop
  | idle : Refines q m .idle .idle
  | peekHead : Refines q m .peekHead .peek
  | peekTail : Refines q m (.peekTail q.head) .peek
  | peekSlot (slot : Slot) (f : CanfdFrame) : Refines q m .peekSlot (.offer slot f)
  | canId (slot : Slot) (f : CanfdFrame) : Refines q m (.canId slot) (.offer slot f)
  | len (slot : Slot) (f : CanfdFrame) : Refines q m (.len slot f.canId) (.offer slot f)
  | txrq (slot : Slot) (f : CanfdFrame) :
    Refines q m (.txrq slot f.canId f.len) (.offer slot f)
  | wait (slot : Slot) (f : CanfdFrame) :
    Refines q m (.wait slot f.canId f.len) (.offer slot f)
  | arb (slot : Slot) (f : CanfdFrame) : Refines q m (.arb slot f.canId f.len) (.offer slot f)
  | arbRead (slot : Slot) (f : CanfdFrame) (h : m.arb = ifarbMsgval ||| ifarbDir) :
    Refines q m (.arbRead slot f.canId f.len) (.offer slot f)
  | arbId (slot : Slot) (f : CanfdFrame) :
    Refines q m (.arbId slot f.canId f.len (ifarbMsgval ||| ifarbDir)) (.offer slot f)
  | mctl (slot : Slot) (f : CanfdFrame) (h : m.arb = arbOf f.canId) :
    Refines q m (.mctl slot f.len) (.offer slot f)
  | data (slot : Slot) (f : CanfdFrame) (i : ℕ) (hi : i ≤ f.len.toNat) (h : m.Programming f i) :
    Refines q m (.data slot f.len i) (.offer slot f)
  | datx (slot : Slot) (f : CanfdFrame) (i : Fin 8) (hi : i.val < f.len.toNat)
      (h : m.Programming f i.val) :
    Refines q m (.datx slot f.len i (f.byteAt i.val)) (.offer slot f)
  | no (slot : Slot) (f : CanfdFrame) (h : m.Programming f f.len.toNat) :
    Refines q m (.no f.len) (.offer slot f)
  | takeHead (slot : Slot) (f : CanfdFrame) : Refines q m .takeHead (.take slot f)
  | takeTail (slot : Slot) (f : CanfdFrame) : Refines q m (.takeTail q.head) (.take slot f)
  | takeSlot (slot : Slot) (f : CanfdFrame) : Refines q m .takeSlot (.take slot f)
  | takeNext (slot : Slot) (f : CanfdFrame) : Refines q m .takeNext (.take slot f)
  | takeCount (slot : Slot) (f : CanfdFrame) : Refines q m (.takeCount q.head) (.take slot f)
  | takeStore (slot : Slot) (f : CanfdFrame) :
    Refines q m (.takeStore ((q.head + 1) % q.count)) (.take slot f)

structure AccessSystem.Refines (a : AccessSystem) (s : TxSystem) : Prop where
  inv : s.Inv
  short : ∀ f ∈ s.accepted, f.len.toNat ≤ 8
  node : a.node = s.node
  accepted : a.accepted = s.accepted
  images : a.images = (Run.delivered s.offers).map CanfdFrame.image
  place : a.pc.Refines s.node.handle.txQueue a.reg.if1 s.pc

/-! ## Matching one access -/

/-- Some steps of `TxSystem` that show the packets `ps` lead to a state that `a` belongs to. -/
def TxSystem.Matches (s : TxSystem) (ps : List (Option PbufChain)) (a : AccessSystem) : Prop :=
  ∃ (es : List TxEvent) (s' : TxSystem), (∀ e ∈ es, e.Classic) ∧ es.flatMap TxEvent.packets = ps ∧
    Run.exec TxSystem.step s es = .ok s' ∧ a.Refines s'

theorem TxSystem.mainStep_accepted (s : TxSystem) (answer : Bool) :
    (s.mainStep answer).accepted = s.accepted := by
  unfold mainStep
  split
  · split <;> rfl
  · split <;> rfl
  · rfl
  · rfl

section Access

variable {a a' : AccessSystem} {s : TxSystem}

/-- An access that is no step yet. -/
theorem AccessSystem.Refines.stay (h : a.Refines s) (hnode : a'.node = a.node)
    (haccepted : a'.accepted = a.accepted) (himages : a'.images = a.images)
    (hplace : a'.pc.Refines s.node.handle.txQueue a'.reg.if1 s.pc) : s.Matches [] a' :=
  ⟨[], s, by simp, rfl, rfl, h.inv, h.short, hnode.trans h.node, haccepted.trans h.accepted,
    himages.trans h.images, hplace⟩

/-- An access that is a step of the main loop. -/
theorem AccessSystem.Refines.go (h : a.Refines s) (answer : Bool)
    (hnode : a'.node = (s.mainStep answer).node) (haccepted : a'.accepted = a.accepted)
    (himages : a'.images = (Run.delivered (s.mainStep answer).offers).map CanfdFrame.image)
    (hplace : a'.pc.Refines (s.mainStep answer).node.handle.txQueue a'.reg.if1
      (s.mainStep answer).pc) : s.Matches [] a' := by
  refine ⟨[.main answer], s.mainStep answer, ?_, rfl, rfl, s.inv_mainStep h.inv answer, ?_, hnode,
    ?_, himages, hplace⟩
  · intro e he
    rw [List.mem_singleton.mp he]
    trivial
  · rw [s.mainStep_accepted]
    exact h.short
  · rw [s.mainStep_accepted, haccepted, h.accepted]

/-- The frame that the main loop points to is as long as a classic frame. -/
theorem AccessSystem.Refines.len_le (h : a.Refines s) {slot : Slot} {f : CanfdFrame}
    (hpc : s.pc = .offer slot f) : f.len.toNat ≤ 8 := by
  apply h.short
  rw [← h.inv.conserved]
  have hwaiting : s.waiting = s.node.txFrames := by
    unfold TxSystem.waiting
    rw [hpc]
  rw [hwaiting, h.inv.txFrames_of_holds (.inl hpc)]
  exact List.mem_append_right _ List.mem_cons_self

theorem If1.programming_zero {m : If1} {f : CanfdFrame} (harb : m.arb = arbOf f.canId)
    (hmctl : m.mctl = mctlOf f.len) : m.Programming f 0 :=
  ⟨m, Except.ok.inj (m.storeData_eq_ok f.byteAt (Nat.zero_le 8)), harb, hmctl⟩

/-- The two writes of `IF1ARB` make the word. -/
theorem arbOf_eq (id : UInt32) :
    arbOf id = (ifarbMsgval ||| ifarbDir) ||| AccessSystem.arbBits id := by
  unfold arbOf AccessSystem.arbBits
  split <;> rfl

theorem If1.Programming.next {m : If1} {f : CanfdFrame} {i : ℕ} (h : m.Programming f i)
    (hi : i < 8) :
    If1.Programming { m with datx := m.datx.setIfInBounds dataByteOrder[i] (f.byteAt i) } f
      (i + 1) := by
  rcases h with ⟨old, rfl, harb, hmctl⟩
  refine ⟨old, ?_, harb, hmctl⟩
  have hstore := old.storeData_eq_ok f.byteAt (show i + 1 ≤ 8 by omega)
  rw [If1.storeData, If1.storeData_eq_ok _ _ (by omega)] at hstore
  simp only [bind, Except.bind, dif_pos hi] at hstore
  exact Except.ok.inj hstore

theorem If1.Programming.image_eq {m : If1} {f : CanfdFrame} (h : m.Programming f f.len.toNat)
    (hlen : f.len.toNat ≤ 8) : m.image f.len.toNat = f.image := by
  rcases h with ⟨old, rfl, harb, hmctl⟩
  unfold If1.image CanfdFrame.image
  have hbytes : ∀ i ∈ List.range f.len.toNat,
      (old.loaded f.byteAt f.len.toNat).dataByte i = f.byteAt i := by
    intro i hi
    have hlt := List.mem_range.mp hi
    exact If1.dataByte_loaded _ _ hlt (by omega)
  rw [List.map_congr_left hbytes, ← harb, ← hmctl]
  rfl

/-- Outside `transmit_can_frames`. -/
theorem AccessSystem.Refines.ofIdle (h : a.Refines s) (hs : s.pc = .idle) :
    ∃ a', a.mainStep = .ok a' ∧ s.Matches [] a' := by
  have hnode := h.node
  have hplace := h.place
  rw [hs] at hplace
  generalize hpc : a.pc = pc at hplace
  cases hplace with
  | idle =>
    simp only [AccessSystem.mainStep, hpc]
    refine ⟨_, rfl, h.go false ?_ rfl ?_ ?_⟩
    all_goals simp only [TxSystem.mainStep, hs, hnode]
    · split <;> rfl
    · split <;> exact h.images
    · by_cases hfn : s.node.handle.init.canTxFn
      · rw [if_pos hfn, if_pos hfn]
        exact .peekHead
      · rw [if_neg hfn, if_neg hfn, hs]
        exact .idle

/-- In `queue_peek`, up to its comparison. -/
theorem AccessSystem.Refines.ofPeek (h : a.Refines s) (hs : s.pc = .peek) :
    ∃ a', a.mainStep = .ok a' ∧ s.Matches [] a' := by
  have hnode := h.node
  have hplace := h.place
  rw [hs] at hplace
  generalize hpc : a.pc = pc at hplace
  cases hplace with
  | peekHead =>
    simp only [AccessSystem.mainStep, hpc]
    refine ⟨_, rfl, h.stay rfl rfl rfl ?_⟩
    rw [hs, hnode]
    exact .peekTail
  | peekTail =>
    -- the comparison with the tail as it is now is the one of `queue_peek`
    simp only [AccessSystem.mainStep, hpc]
    refine ⟨_, rfl, h.go false ?_ rfl ?_ ?_⟩
    all_goals simp only [TxSystem.mainStep, hs, queuePeek, hnode]
    · split <;> rfl
    · split <;> exact h.images
    · by_cases he : s.node.handle.txQueue.head = s.node.handle.txQueue.tail
      · rw [if_pos he, if_pos he]
        exact .idle
      · rw [if_neg he, if_neg he]
        exact .peekSlot _ _

/-- Behind the comparison of `queue_peek`, in `on_can_transmit` and in `can_send`. -/
theorem AccessSystem.Refines.ofOffer (h : a.Refines s) {slot : Slot} {f : CanfdFrame}
    (hs : s.pc = .offer slot f) : ∃ a', a.mainStep = .ok a' ∧ s.Matches [] a' := by
  have hnode := h.node
  have hplace := h.place
  rw [hs] at hplace
  generalize hpc : a.pc = pc at hplace
  cases hplace with
  | peekSlot =>
    simp only [AccessSystem.mainStep, hpc]
    refine ⟨_, rfl, h.stay rfl rfl rfl ?_⟩
    rw [hs, hnode, ← (h.inv.held slot f (.inl hs)).2.1]
    exact .canId slot f
  | canId =>
    simp only [AccessSystem.mainStep, hpc]
    refine ⟨_, rfl, h.stay rfl rfl rfl ?_⟩
    rw [hs, hnode, (h.inv.held slot f (.inl hs)).2.2]
    exact .len slot f
  | len =>
    simp only [AccessSystem.mainStep, hpc]
    refine ⟨_, rfl, h.stay rfl rfl rfl ?_⟩
    rw [hs, hnode, (h.inv.held slot f (.inl hs)).2.2]
    exact .txrq slot f
  | txrq =>
    simp only [AccessSystem.mainStep, hpc]
    by_cases hbusy : a.reg.Busy
    · -- refused
      rw [if_pos hbusy]
      refine ⟨_, rfl, h.go false ?_ rfl ?_ ?_⟩
      all_goals simp only [TxSystem.mainStep, hs]
      · exact hnode
      · rw [Run.delivered_append, Run.delivered_refused, List.append_nil]
        exact h.images
      · exact .idle
    · rw [if_neg hbusy]
      refine ⟨_, rfl, h.stay rfl rfl rfl ?_⟩
      rw [hs]
      exact .wait slot f
  | wait =>
    simp only [AccessSystem.mainStep, hpc]
    by_cases hbusy : a.busy
    · rw [if_pos hbusy]
      refine ⟨_, rfl, h.stay rfl rfl rfl ?_⟩
      rw [hs, hpc]
      exact .wait slot f
    · rw [if_neg hbusy]
      refine ⟨_, rfl, h.stay rfl rfl rfl ?_⟩
      rw [hs]
      exact .arb slot f
  | arb =>
    simp only [AccessSystem.mainStep, hpc]
    refine ⟨_, rfl, h.stay rfl rfl rfl ?_⟩
    rw [hs]
    exact .arbRead slot f rfl
  | arbRead _ _ harb =>
    simp only [AccessSystem.mainStep, hpc]
    refine ⟨_, rfl, h.stay rfl rfl rfl ?_⟩
    rw [hs, harb]
    exact .arbId slot f
  | arbId =>
    simp only [AccessSystem.mainStep, hpc]
    refine ⟨_, rfl, h.stay rfl rfl rfl ?_⟩
    rw [hs]
    exact .mctl slot f (arbOf_eq f.canId).symm
  | mctl _ _ harb =>
    simp only [AccessSystem.mainStep, hpc]
    refine ⟨_, rfl, h.stay rfl rfl rfl ?_⟩
    rw [hs]
    exact .data slot f 0 (Nat.zero_le _) (If1.programming_zero harb rfl)
  | data _ _ i hi hprog =>
    have hlen := h.len_le hs
    have hmem := (h.inv.held slot f (.inl hs)).2.2
    simp only [AccessSystem.mainStep, hpc]
    by_cases hlt : i < f.len.toNat
    · rw [if_pos hlt, dif_pos (show i < 8 by omega)]
      refine ⟨_, rfl, h.stay rfl rfl rfl ?_⟩
      rw [hs, hnode, hmem]
      exact .datx slot f ⟨i, by omega⟩ hlt hprog
    · -- all bytes are there
      obtain rfl : i = f.len.toNat := by omega
      rw [if_neg hlt]
      refine ⟨_, rfl, h.stay rfl rfl rfl ?_⟩
      rw [hs]
      exact .no slot f hprog
  | datx _ _ i hi hprog =>
    simp only [AccessSystem.mainStep, hpc]
    refine ⟨_, rfl, h.stay rfl rfl rfl ?_⟩
    rw [hs]
    exact .data slot f (i.val + 1) hi (hprog.next i.isLt)
  | no _ _ hprog =>
    -- the transfer starts: taken
    have hmem := (h.inv.held slot f (.inl hs)).2.2
    simp only [AccessSystem.mainStep, hpc]
    refine ⟨_, rfl, h.go true ?_ rfl ?_ ?_⟩
    all_goals simp only [TxSystem.mainStep, hs]
    · exact hnode
    · rw [Run.delivered_append, Run.delivered_accepted, List.map_append, List.map_singleton, hmem,
        ← h.images, hprog.image_eq (h.len_le hs)]
    · exact .takeHead _ _

/-- In `queue_take`. -/
theorem AccessSystem.Refines.ofTake (h : a.Refines s) {slot : Slot} {f : CanfdFrame}
    (hs : s.pc = .take slot f) : ∃ a', a.mainStep = .ok a' ∧ s.Matches [] a' := by
  have hnode := h.node
  have hplace := h.place
  rw [hs] at hplace
  generalize hpc : a.pc = pc at hplace
  cases hplace with
  | takeHead =>
    simp only [AccessSystem.mainStep, hpc]
    refine ⟨_, rfl, h.stay rfl rfl rfl ?_⟩
    rw [hs, hnode]
    exact .takeTail slot f
  | takeTail =>
    -- the frame that was sent is still in the queue
    have hne : ¬ s.node.handle.txQueue.head = s.node.handle.txQueue.tail :=
      (h.inv.held slot f (.inr hs)).1
    simp only [AccessSystem.mainStep, hpc]
    refine ⟨_, rfl, h.stay rfl rfl rfl ?_⟩
    rw [hs, hnode, if_neg hne]
    exact .takeSlot slot f
  | takeSlot =>
    simp only [AccessSystem.mainStep, hpc]
    refine ⟨_, rfl, h.stay rfl rfl rfl ?_⟩
    rw [hs]
    exact .takeNext slot f
  | takeNext =>
    simp only [AccessSystem.mainStep, hpc]
    refine ⟨_, rfl, h.stay rfl rfl rfl ?_⟩
    rw [hs, hnode]
    exact .takeCount slot f
  | takeCount =>
    simp only [AccessSystem.mainStep, hpc]
    refine ⟨_, rfl, h.stay rfl rfl rfl ?_⟩
    rw [hs, hnode]
    exact .takeStore slot f
  | takeStore =>
    have hne := (h.inv.held slot f (.inr hs)).1
    simp only [AccessSystem.mainStep, hpc]
    refine ⟨_, rfl, h.go false ?_ rfl ?_ ?_⟩
    all_goals simp only [TxSystem.mainStep, hs, queueTake_of_not_empty hne, hnode]
    · rfl
    · exact h.images
    · exact .peekHead

/-- Every access of the main loop is matched. -/
theorem AccessSystem.Refines.mainStep (h : a.Refines s) :
    ∃ a', a.mainStep = .ok a' ∧ s.Matches [] a' := by
  cases hs : s.pc with
  | idle => exact h.ofIdle hs
  | peek => exact h.ofPeek hs
  | offer slot f => exact h.ofOffer hs
  | take slot f => exact h.ofTake hs

/-! ## Matching an interrupt -/

/-- The frames of a packet with classic records are short. -/
theorem Stores.short {n : Node} {p : PbufChain} {o : Handled} (h : Stores n p o)
    (hclassic : p.Classic) : ∀ f ∈ o.stored, f.len.toNat ≤ 8 := by
  rw [h.stored_eq]
  apply forall_mem_fillSlots
  intro r hr old
  have hr' := hclassic r (List.mem_of_mem_take hr)
  rw [Record.frame_len, ← dlcOf_of_not_isFd hr'.not_fd]
  exact hr'.dlc_le

/-- The place refers to the front of the queue only. -/
theorem AccessPc.Refines.congr {q q' : FramesQueue} {m : If1} {pc : AccessPc} {place : TxPc}
    (h : pc.Refines q m place) (hhead : q'.head = q.head) (hcount : q'.count = q.count) :
    pc.Refines q' m place := by
  cases h with
  | peekTail =>
    rw [← hhead]
    exact .peekTail
  | takeTail slot f =>
    rw [← hhead]
    exact .takeTail slot f
  | takeStore slot f =>
    rw [← hhead, ← hcount]
    exact .takeStore slot f
  | takeCount slot f =>
    rw [← hhead]
    exact .takeCount slot f
  | arbRead slot f harb => exact .arbRead slot f harb
  | mctl slot f harb => exact .mctl slot f harb
  | data slot f i hi hprog => exact .data slot f i hi hprog
  | datx slot f i hi hprog => exact .datx slot f i hi hprog
  | no slot f hprog => exact .no slot f hprog
  | _ => constructor

/-- Every interrupt is matched. -/
theorem AccessSystem.Refines.receive (h : a.Refines s) {p : Option PbufChain}
    (hclassic : (AccessEvent.receive p).Classic) :
    ∃ a', a.step (.receive p) = .ok a' ∧ s.Matches [p] a' := by
  cases p with
  | none =>
    have hcall (n : Node) : handleCannelloniFrame n none = .ok ⟨n, [], 0⟩ := rfl
    refine ⟨{ a with accepted := a.accepted ++ [] }, ?_, [.receive none],
      { s with accepted := s.accepted ++ [] }, by simp [TxEvent.Classic], rfl, ?_, ?_⟩
    · simp only [AccessSystem.step, hcall]
    · simp only [Run.exec, TxSystem.step, hcall]
      rfl
    · rw [List.append_nil, List.append_nil]
      exact h
  | some p =>
    obtain ⟨o, ho, hstores⟩ := handleCannelloniFrame_ok h.inv.valid.tx (hclassic.fits _)
    obtain ⟨s', hs', hinv⟩ := s.inv_receive h.inv (hclassic.fits _)
    have hstep : s.step (.receive (some p))
        = .ok { s with node := o.node, accepted := s.accepted ++ o.stored } := by
      simp only [TxSystem.step, ho]
      rfl
    obtain rfl := Except.ok.inj (hs'.symm.trans hstep)
    refine ⟨{ a with node := o.node, accepted := a.accepted ++ o.stored }, ?_,
      [.receive (some p)], _, ?_, rfl, ?_, hinv, ?_, rfl, ?_, h.images, ?_⟩
    · simp only [AccessSystem.step, h.node, ho]
    · intro e he
      rw [List.mem_singleton.mp he]
      exact hclassic
    · exact Run.exec_cons_ok hstep []
    · intro f hf
      rcases List.mem_append.mp hf with hf | hf
      · exact h.short f hf
      · exact hstores.short hclassic f hf
    · show a.accepted ++ o.stored = s.accepted ++ o.stored
      rw [h.accepted]
    · exact h.place.congr hstores.appended.head_eq hstores.appended.count_eq

/-- Every event is matched. -/
theorem AccessSystem.Refines.step (h : a.Refines s) {e : AccessEvent} (hclassic : e.Classic) :
    ∃ a', a.step e = .ok a' ∧ s.Matches e.packets a' := by
  cases e with
  | receive p => exact h.receive hclassic
  | main =>
    obtain ⟨a', ha', hmatches⟩ := h.mainStep
    refine ⟨a', ?_, hmatches⟩
    simp only [AccessSystem.step, ha']
  | controller txrq busy => exact ⟨_, rfl, h.stay rfl rfl rfl h.place⟩

end Access

theorem AccessSystem.refines_start (mem : Memory) (init : Init) (reg : CanReg) :
    (start mem init reg).Refines (TxSystem.start mem init) where
  inv := TxSystem.inv_start mem init
  short := nofun
  node := rfl
  accepted := rfl
  images := rfl
  place := .idle

/-- Packets hold classic records. Whatever the interrupts and the controller do between two accesses
of the main loop: the run is one of `TxSystem`, with the same packets, the same queue and the same
frames accepted and taken, and the images programmed for mailbox 1 are those of the accepted frames,
in order and from the first on; those still missing are the frames that wait. -/
theorem accesses_refine (mem : Memory) (init : Init) (reg : CanReg) (events : List AccessEvent)
    (hclassic : ∀ e ∈ events, e.Classic) :
    ∃ a, Run.exec AccessSystem.step (.start mem init reg) events = .ok a ∧
      ∃ (es : List TxEvent) (s : TxSystem), (∀ e ∈ es, e.Classic) ∧
        es.flatMap TxEvent.packets = events.flatMap AccessEvent.packets ∧
        Run.exec TxSystem.step (.start mem init) es = .ok s ∧
        a.node = s.node ∧ a.accepted = s.accepted ∧
        a.images = (Run.delivered s.offers).map CanfdFrame.image ∧
        a.images ++ s.waiting.map CanfdFrame.image = a.accepted.map CanfdFrame.image := by
  have hstep (a : AccessSystem) (s : TxSystem) (e : AccessEvent) (h : a.Refines s)
      (he : e.Classic) : ∃ a', a.step e = .ok a' ∧ s.Matches e.packets a' := h.step he
  obtain ⟨a, ha, es, s, hes, hpackets, hs, h⟩ :=
    Run.exec_simulates hstep (AccessSystem.refines_start mem init reg) hclassic
  refine ⟨a, ha, es, s, hes, hpackets, hs, h.node, h.accepted, h.images, ?_⟩
  rw [h.images, h.accepted, ← h.inv.conserved, List.map_append]

/-- An interrupt between the data byte of a frame and the command, and one in the next frame. -/
theorem accesses_refine_interrupted :
    let events := [.receive (some (.single 1 7))] ++ List.replicate 14 .main ++
      [.receive (some (.single 2 8))] ++ List.replicate 12 .main ++
      [.controller (Vector.replicate _ 0) false, .receive (some (.single 3 9))]
    ∃ a, Run.exec AccessSystem.step (.start zeroMemory (mainInit 0 0) .idle) events = .ok a ∧
      a.images.length = 1 ∧ a.accepted.length = 3 ∧
      a.images <+: a.accepted.map CanfdFrame.image := by
  intro events
  obtain ⟨a, ha, es, s, -, -, -, -, -, -, himages⟩ :=
    accesses_refine zeroMemory (mainInit 0 0) .idle events (by decide +kernel)
  have hlengths : (Run.exec AccessSystem.step (.start zeroMemory (mainInit 0 0) .idle)
      events).toOption.map (fun a => (a.images.length, a.accepted.length)) = some (1, 3) := by
    decide +kernel
  rw [ha] at hlengths
  obtain ⟨hone, hthree⟩ := Prod.mk.inj (Option.some.inj hlengths)
  exact ⟨a, ha, hone, hthree, _, himages⟩

end Cannelloni
