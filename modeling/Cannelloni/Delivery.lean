import Cannelloni.Lib.Run
import Cannelloni.CanTransmit
import Cannelloni.Decoder

/-!
# From the network to the bus, with interrupts

The receive callback runs to completion in an interrupt, which may fire between any two steps
of the main loop inside `transmit_can_frames`. The main loop holds a pointer into the ring
while the interrupt fills further slots of it.

`TxPc` names the places where the main loop can be interrupted. `udp_to_can_delivery` is the
result about every interleaving, `exec_main_eq_offerLoop` says that without interrupts the
steps are those of `transmit_can_frames`.
-/

namespace Cannelloni

/-! ## The system -/

/-- Where the main loop stands. The pointer it holds comes with (ghost) the frame the slot
held when the pointer was obtained. -/
inductive TxPc
  /-- outside `transmit_can_frames` -/
  | idle
  /-- before `queue_peek` -/
  | peek
  /-- before the call of `can_tx_fn` with the pointer -/
  | offer (slot : Slot) (frame : CanfdFrame)
  /-- `can_tx_fn` returned true; before `queue_take` -/
  | take (slot : Slot) (frame : CanfdFrame)
deriving DecidableEq, Repr

/-- A handle, the place of the main loop, and (ghost) the frames for which `queue_put`
succeeded and the calls of `can_tx_fn` with their answers. -/
structure TxSystem where
  node : Node
  pc : TxPc
  accepted : List CanfdFrame
  offers : List (CanfdFrame × Bool)

inductive TxEvent
  /-- the receive interrupt, with the packet it delivers -/
  | receive (p : Option PbufChain)
  /-- the next step of the main loop; a call of `can_tx_fn` returns `answer` -/
  | main (answer : Bool)

/-- The state after `init_cannelloni`. -/
def TxSystem.start (mem : Memory) (init : Init) : TxSystem :=
  ⟨⟨mem, initCannelloni init⟩, .idle, [], []⟩

/-- One step of the main loop. -/
def TxSystem.mainStep (s : TxSystem) (answer : Bool) : TxSystem :=
  match s.pc with
  | .idle => if s.node.handle.init.canTxFn then { s with pc := .peek } else s
  | .peek =>
    match queuePeek s.node.handle.txQueue with
    | none => { s with pc := .idle }
    | some slot => { s with pc := .offer slot (s.node.mem slot) }
  | .offer slot _ =>
    { s with
      pc := if answer then .take slot (s.node.mem slot) else .idle
      offers := s.offers ++ [(s.node.mem slot, answer)] }
  | .take _ _ =>
    let (_, q) := queueTake s.node.handle.txQueue
    { s with pc := .peek, node := { s.node with handle := { s.node.handle with txQueue := q } } }

def TxSystem.step (s : TxSystem) : TxEvent → Except Fault TxSystem
  | .receive p => do
    let o ← handleCannelloniFrame s.node p
    return { s with node := o.node, accepted := s.accepted ++ o.stored }
  | .main answer => .ok (s.mainStep answer)

/-- The packet holds classic data records that fit a frame. -/
def TxEvent.Classic : TxEvent → Prop
  | .receive (some p) => p.Classic
  | .receive none => True
  | .main _ => True

instance TxEvent.decidableClassic (e : TxEvent) : Decidable e.Classic :=
  match e with
  | .receive (some p) => inferInstanceAs (Decidable p.Classic)
  | .receive none => inferInstanceAs (Decidable True)
  | .main _ => inferInstanceAs (Decidable True)

/-- The frames still waiting for the bus. A frame that `can_tx_fn` took counts as sent as soon
as the call returned, while its slot is still to be released. -/
def TxSystem.waiting (s : TxSystem) : List CanfdFrame :=
  match s.pc with
  | .take _ _ => s.node.txFrames.tail
  | _ => s.node.txFrames

/-- The main loop holds a pointer to `slot`, obtained when it held `frame`. -/
def TxPc.Holds (pc : TxPc) (slot : Slot) (frame : CanfdFrame) : Prop :=
  pc = .offer slot frame ∨ pc = .take slot frame

/-! ## The invariant -/

structure TxSystem.Inv (s : TxSystem) : Prop where
  valid : s.node.handle.Valid
  conserved : Run.delivered s.offers ++ s.waiting = s.accepted
  inOrder : Run.InOrder s.offers s.accepted
  held : ∀ slot frame, s.pc.Holds slot frame →
    ¬ s.node.handle.txQueue.Empty ∧
    slot = ⟨s.node.handle.txQueue.frames, s.node.handle.txQueue.head⟩ ∧ s.node.mem slot = frame

theorem TxSystem.inv_start (mem : Memory) (init : Init) : (TxSystem.start mem init).Inv where
  valid := initCannelloni_valid init
  conserved := rfl
  inOrder := Run.InOrder.nil _
  held := by
    intro slot frame hpc
    rcases hpc with h | h <;> cases h

/-- While the main loop holds a pointer, the queue starts with the frame it points to. -/
theorem TxSystem.Inv.txFrames_of_holds {s : TxSystem} (h : s.Inv) {slot : Slot}
    {frame : CanfdFrame} (hpc : s.pc.Holds slot frame) :
    s.node.txFrames = frame :: s.node.handle.txQueue.pop.contents s.node.mem := by
  obtain ⟨hne, rfl, rfl⟩ := h.held slot frame hpc
  exact contents_of_not_empty h.valid.tx hne

theorem TxSystem.Inv.txFrames_eq {s : TxSystem} (h : s.Inv) :
    s.node.txFrames = s.waiting ∨
      ∃ slot frame, s.pc = .take slot frame ∧ s.node.txFrames = frame :: s.waiting := by
  cases hpc : s.pc with
  | take slot frame =>
    right
    refine ⟨slot, frame, rfl, ?_⟩
    simp only [waiting, hpc]
    rw [h.txFrames_of_holds (.inr hpc), List.tail_cons]
  | _ =>
    left
    simp only [waiting, hpc]

/-- New frames go behind those that wait. -/
theorem TxSystem.Inv.waiting_append {s s' : TxSystem} (h : s.Inv) (hpc : s'.pc = s.pc)
    {fs : List CanfdFrame} (hframes : s'.node.txFrames = s.node.txFrames ++ fs) :
    s'.waiting = s.waiting ++ fs := by
  unfold waiting
  rw [hpc, hframes]
  cases hcase : s.pc with
  | take slot frame =>
    rw [h.txFrames_of_holds (.inr hcase)]
    rfl
  | _ => rfl

theorem TxSystem.inv_receive {s : TxSystem} (h : s.Inv) {p : PbufChain}
    (hfit : ∀ r ∈ p.storable s.node.handle.txQueue.free, r.Fits) :
    ∃ s', s.step (.receive (some p)) = .ok s' ∧ s'.Inv := by
  obtain ⟨o, ho, hstores⟩ := handleCannelloniFrame_ok h.valid.tx hfit
  set s' : TxSystem := { s with node := o.node, accepted := s.accepted ++ o.stored }
  have hwait : s'.waiting = s.waiting ++ o.stored :=
    h.waiting_append (show s'.pc = s.pc from rfl) hstores.txFrames_eq
  refine ⟨s', ?_, hstores.valid h.valid, ?_, ?_, ?_⟩
  · simp only [step, ho]
    rfl
  · rw [hwait, ← List.append_assoc]
    exact congrArg (· ++ o.stored) h.conserved
  · exact h.inOrder.mono (List.prefix_append _ _)
  · -- the slot the main loop points to is in use, and the callback fills free slots only
    intro slot frame hpc
    obtain ⟨hne, hslot, hmem⟩ := h.held slot frame hpc
    have happ := hstores.appended
    refine ⟨?_, ?_, ?_⟩
    · intro hempty
      have hnil : s'.node.txFrames = [] := contents_of_empty happ.valid hempty
      have hframes : s'.node.txFrames = s.node.txFrames ++ o.stored := hstores.txFrames_eq
      rw [h.txFrames_of_holds hpc, hnil] at hframes
      simp at hframes
    · rw [happ.frames_eq, happ.head_eq]
      exact hslot
    · rw [← hmem, hslot]
      exact happ.holds_unchanged h.valid.tx (holds_head h.valid.tx hne)

theorem TxSystem.inv_mainStep {s : TxSystem} (h : s.Inv) (answer : Bool) :
    (s.mainStep answer).Inv := by
  unfold mainStep
  split
  · next hpc =>
    -- entering the function
    have hw : s.waiting = s.node.txFrames := by simp only [waiting, hpc]
    split
    · refine ⟨h.valid, ?_, h.inOrder, ?_⟩
      · rw [← h.conserved, hw]
        rfl
      · intro slot frame hpc'
        rcases hpc' with h | h <;> cases h
    · exact h
  · next hpc =>
    -- `queue_peek`
    have hw : s.waiting = s.node.txFrames := by simp only [waiting, hpc]
    by_cases he : s.node.handle.txQueue.Empty
    · simp only [queuePeek_of_empty he]
      refine ⟨h.valid, ?_, h.inOrder, ?_⟩
      · rw [← h.conserved, hw]
        rfl
      · intro slot frame hpc'
        rcases hpc' with h | h <;> cases h
    · simp only [queuePeek_of_not_empty he]
      refine ⟨h.valid, ?_, h.inOrder, ?_⟩
      · rw [← h.conserved, hw]
        rfl
      · intro slot frame hpc'
        rcases hpc' with h | h
        · cases h
          exact ⟨he, rfl, rfl⟩
        · cases h
  · next slot frame hpc =>
    -- the call of `can_tx_fn`
    obtain ⟨hne, hslot, hmem⟩ := h.held slot frame (.inl hpc)
    have hframes := h.txFrames_of_holds (.inl hpc)
    have hw : s.waiting = s.node.txFrames := by simp only [waiting, hpc]
    have hdue : Run.delivered s.offers ++ [s.node.mem slot] <+: s.accepted := by
      rw [← h.conserved, hw, hframes, hmem]
      exact List.prefix_append_right_inj _ |>.mpr (by simp)
    refine ⟨h.valid, ?_, h.inOrder.snoc hdue answer, ?_⟩
    · rw [← h.conserved, hw]
      cases answer with
      | false => simp [waiting, Node.txFrames]
      | true =>
        simp only [if_true, waiting, Run.delivered_append, Run.delivered_accepted]
        rw [hframes, hmem, List.append_assoc]
        rfl
    · intro slot' frame' hpc'
      rcases hpc' with h' | h'
      · cases answer <;> cases h'
      · cases answer with
        | false => cases h'
        | true =>
          cases h'
          exact ⟨hne, hslot, rfl⟩
  · next slot frame hpc =>
    -- `queue_take`
    obtain ⟨hne, -, -⟩ := h.held slot frame (.inr hpc)
    have hframes := h.txFrames_of_holds (.inr hpc)
    simp only [queueTake_of_not_empty hne]
    refine ⟨?_, ?_, h.inOrder, ?_⟩
    · exact h.valid.of_txQueue rfl rfl h.valid.tx.pop rfl rfl
    · have hw : s.waiting = s.node.handle.txQueue.pop.contents s.node.mem := by
        simp only [waiting, hpc, hframes, List.tail_cons]
      rw [← h.conserved, hw]
      rfl
    · intro slot frame hpc'
      rcases hpc' with h | h <;> cases h

/-! ## Uninterrupted steps -/

theorem mainStep_peek_of_empty {s : TxSystem} (hpc : s.pc = .peek) (answer : Bool)
    (he : s.node.handle.txQueue.Empty) : s.mainStep answer = { s with pc := .idle } := by
  simp only [TxSystem.mainStep, hpc, queuePeek_of_empty he]

/-- Peek and offer, with a refusal. -/
theorem exec_refused {s : TxSystem} (hpc : s.pc = .peek) (he : ¬ s.node.handle.txQueue.Empty) :
    Run.exec TxSystem.step s [.main false, .main false] = .ok { s with
      pc := .idle
      offers := s.offers ++
        [(s.node.mem ⟨s.node.handle.txQueue.frames, s.node.handle.txQueue.head⟩, false)] } := by
  simp [Run.exec, TxSystem.step, TxSystem.mainStep, hpc, queuePeek_of_not_empty he, bind,
    Except.bind]

/-- Peek, offer and take. -/
theorem exec_taken {s : TxSystem} (hpc : s.pc = .peek) (he : ¬ s.node.handle.txQueue.Empty)
    (events : List TxEvent) :
    Run.exec TxSystem.step s (.main true :: .main true :: .main true :: events)
      = Run.exec TxSystem.step { s with
          node := { s.node with handle := { s.node.handle with
            txQueue := s.node.handle.txQueue.pop } }
          offers := s.offers ++
            [(s.node.mem ⟨s.node.handle.txQueue.frames, s.node.handle.txQueue.head⟩, true)] }
        events := by
  obtain ⟨n, pc, accepted, offers⟩ := s
  obtain rfl : pc = .peek := hpc
  simp [Run.exec, TxSystem.step, TxSystem.mainStep, queuePeek_of_not_empty he,
    queueTake_of_not_empty he, bind, Except.bind]

/-- Without interrupts the steps of the main loop, from `queue_peek` on, are the loop of
`transmit_can_frames`. -/
theorem exec_main_eq_offerLoop (answers : List Bool) {s : TxSystem} (hpc : s.pc = .peek)
    (hv : s.node.handle.txQueue.Valid) :
    ∃ events : List TxEvent, (∀ e ∈ events, ∃ answer, e = .main answer) ∧
      Run.exec TxSystem.step s events = .ok
        { node := { s.node with handle := { s.node.handle with
            txQueue := (offerLoop s.node.mem answers s.node.handle.txQueue).1 } }
          pc := .idle
          accepted := s.accepted
          offers := s.offers ++ (offerLoop s.node.mem answers s.node.handle.txQueue).2 } := by
  have hmain : ∀ bs : List Bool, ∀ e ∈ bs.map TxEvent.main, ∃ answer, e = .main answer := by
    intro bs e he
    obtain ⟨b, -, rfl⟩ := List.mem_map.mp he
    exact ⟨b, rfl⟩
  induction answers generalizing s with
  | nil =>
    by_cases he : s.node.handle.txQueue.Empty
    · refine ⟨[.main false], hmain [false], ?_⟩
      simp [Run.exec, TxSystem.step, mainStep_peek_of_empty hpc false he, offerLoop,
        queuePeek_of_empty he, bind, Except.bind]
    · refine ⟨[.main false, .main false], hmain [false, false], ?_⟩
      rw [exec_refused hpc he]
      simp only [offerLoop, queuePeek_of_not_empty he]
  | cons answer answers ih =>
    by_cases he : s.node.handle.txQueue.Empty
    · refine ⟨[.main false], hmain [false], ?_⟩
      simp [Run.exec, TxSystem.step, mainStep_peek_of_empty hpc false he, offerLoop,
        queuePeek_of_empty he, bind, Except.bind]
    · cases answer with
      | false =>
        refine ⟨[.main false, .main false], hmain [false, false], ?_⟩
        rw [exec_refused hpc he]
        simp only [offerLoop, queuePeek_of_not_empty he, Bool.false_eq_true, if_false]
      | true =>
        set t : TxSystem := { s with
          node := { s.node with handle := { s.node.handle with
            txQueue := s.node.handle.txQueue.pop } }
          offers := s.offers ++
            [(s.node.mem ⟨s.node.handle.txQueue.frames, s.node.handle.txQueue.head⟩, true)] }
        obtain ⟨events, hevents, hexec⟩ := ih (s := t) hpc hv.pop
        refine ⟨.main true :: .main true :: .main true :: events, ?_, ?_⟩
        · intro e he'
          simp only [List.mem_cons] at he'
          rcases he' with rfl | rfl | rfl | he'
          · exact ⟨true, rfl⟩
          · exact ⟨true, rfl⟩
          · exact ⟨true, rfl⟩
          · exact hevents e he'
        · rw [exec_taken hpc he, hexec]
          simp [offerLoop, queuePeek_of_not_empty he, queueTake_of_not_empty he, t]

/-! ## Whole runs -/

/-- For every interleaving of interrupts with steps of the main loop: the frames `can_tx_fn`
took, followed by those still waiting, are the frames the queue accepted; those still waiting
are the frames in `tx_queue`, less the first one when it was just taken and its slot is about
to be released; a refused frame is the next one offered, unchanged; and the slot the main loop
points to keeps its frame until it is released. -/
theorem udp_to_can_delivery (mem : Memory) (init : Init) (events : List TxEvent)
    (hclassic : ∀ e ∈ events, e.Classic) :
    ∃ s, Run.exec TxSystem.step (TxSystem.start mem init) events = .ok s ∧
      Run.delivered s.offers ++ s.waiting = s.accepted ∧
      (s.node.txFrames = s.waiting ∨
        ∃ slot frame, s.pc = .take slot frame ∧ s.node.txFrames = frame :: s.waiting) ∧
      (∀ before x y b after, s.offers = before ++ (x, false) :: (y, b) :: after → y = x) ∧
      ∀ slot frame, s.pc.Holds slot frame → s.node.mem slot = frame := by
  have hstep : ∀ (s : TxSystem) (e : TxEvent), s.Inv → e.Classic →
      ∃ s', s.step e = .ok s' ∧ s'.Inv := by
    intro s e hinv he
    cases e with
    | main answer => exact ⟨_, rfl, s.inv_mainStep hinv answer⟩
    | receive p =>
      cases p with
      | none => exact ⟨s, by simp [TxSystem.step, handleCannelloniFrame, bind, Except.bind, pure,
          Except.pure], hinv⟩
      | some p => exact s.inv_receive hinv (PbufChain.Classic.fits he _)
  obtain ⟨s, hs, hinv⟩ := Run.exec_of_along hstep (TxSystem.inv_start mem init)
    (Run.along_of_forall hclassic _)
  refine ⟨s, hs, hinv.conserved, hinv.txFrames_eq, ?_, ?_⟩
  · intro before x y b after heq
    exact hinv.inOrder.refused_again heq
  · intro slot frame hpc
    exact (hinv.held slot frame hpc).2.2

/-- An interrupt while the main loop holds a pointer, a refusal, and a second attempt. -/
theorem udp_to_can_delivery_interrupted :
    ∃ s, Run.exec TxSystem.step (TxSystem.start zeroMemory (mainInit 0 0))
        [.receive (some (.single 1 7)), .main false, .main false,
          .receive (some (.single 2 8)), .main false, .main false, .main false, .main true,
          .receive (some (.single 3 9)), .main false] = .ok s ∧
      Run.delivered s.offers ++ s.waiting = s.accepted := by
  obtain ⟨s, hs, hconserved, -⟩ := udp_to_can_delivery zeroMemory (mainInit 0 0)
    [.receive (some (.single 1 7)), .main false, .main false, .receive (some (.single 2 8)),
      .main false, .main false, .main false, .main true, .receive (some (.single 3 9)),
      .main false] (by decide +kernel)
  exact ⟨s, hs, hconserved⟩

end Cannelloni
