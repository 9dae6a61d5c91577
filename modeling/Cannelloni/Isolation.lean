import Cannelloni.Decoder
import Cannelloni.Gateway

/-!
# Four interfaces on shared arrays

`main` sets up four handles, and `mainInit` shows that it gives all of them the same two
arrays. Each queue still has its own indices, so an interface may fill a slot that another one
has in use. `Interfaces.step` runs the four handles on one memory, and the results say what
becomes of the frames: each interface's traffic stays its own as long as no slot is filled
that another interface has in use.
-/

namespace Cannelloni

/-! ## The system -/

/-- (Ghost) what happened at one interface: the frames its `tx_queue` accepted, the frames
offered to its controller with the answers, the frames read from its mailboxes, and the
datagrams it sent. -/
structure IfaceLog where
  accepted : List CanfdFrame
  offers : List (CanfdFrame × Bool)
  received : List CanfdFrame
  sent : List Datagram

/-- `can_interfaces`, with the memory of the arrays. -/
structure Interfaces where
  mem : Memory
  handle : Fin canIfaces → Handle
  dcan : Fin canIfaces → Dcan
  log : Fin canIfaces → IfaceLog

inductive IfaceEvent
  /-- lwIP delivers a packet to the callback of interface `i` -/
  | datagram (i : Fin canIfaces) (p : PbufChain)
  /-- the main loop calls `run_cannelloni` for interface `i` -/
  | run (i : Fin canIfaces) (env : RunEnv)

/-- The state after the setup loop of `main`. -/
def Interfaces.start (nodeId : UInt8) (mem : Memory) (dcan : Fin canIfaces → Dcan) :
    Interfaces where
  mem := mem
  handle := fun i => initCannelloni (mainInit nodeId i)
  dcan := dcan
  log := fun _ => ⟨[], [], [], []⟩

/-- One interface with the memory its queues point into. -/
def Interfaces.node (g : Interfaces) (i : Fin canIfaces) : Node := ⟨g.mem, g.handle i⟩

def Interfaces.step (g : Interfaces) : IfaceEvent → Except Fault Interfaces
  | .datagram i p => do
    let o ← handleCannelloniFrame (g.node i) (some p)
    return { g with
      mem := o.node.mem
      handle := Function.update g.handle i o.node.handle
      log := Function.update g.log i
        { g.log i with accepted := (g.log i).accepted ++ o.stored } }
  | .run i env => do
    let o ← runCannelloni env (g.dcan i) (g.node i)
    return { mem := o.node.mem
             handle := Function.update g.handle i o.node.handle
             dcan := Function.update g.dcan i o.dcan
             log := Function.update g.log i
              { g.log i with
                offers := (g.log i).offers ++ o.offers
                received := (g.log i).received ++ o.received
                sent := (g.log i).sent ++ o.sent } }

/-- The frames of the event are classic data frames that fit the data array. -/
def Interfaces.Classic (g : Interfaces) : IfaceEvent → Prop
  | .datagram _ p => p.Classic
  | .run i env => ∀ m ∈ foundMessages env.hw (g.dcan i), m.Fits

/-- The event fills no slot that another interface has in use. -/
def Interfaces.NoOverlap (g : Interfaces) : IfaceEvent → Prop
  | .datagram i p => ∀ j, j ≠ i → ∀ k < (p.storable (g.handle i).txQueue.free).length,
    ¬ (g.handle j).txQueue.Holds ((g.handle i).txQueue.freeSlot k)
  | .run i env => ∀ j, j ≠ i → ∀ k < (turnMessages env (g.dcan i) (g.handle i)).length,
    ¬ (g.handle j).rxQueue.Holds ((g.handle i).rxQueue.freeSlot k)

instance Interfaces.decidableClassic (g : Interfaces) (e : IfaceEvent) : Decidable (g.Classic e) :=
  match e with
  | .datagram _ p => inferInstanceAs (Decidable p.Classic)
  | .run i env => inferInstanceAs (Decidable (∀ m ∈ foundMessages env.hw (g.dcan i), m.Fits))

instance Interfaces.decidableNoOverlap (g : Interfaces) (e : IfaceEvent) :
    Decidable (g.NoOverlap e) :=
  match e with
  | .datagram i p => inferInstanceAs (Decidable (∀ j, j ≠ i → ∀ k < (p.storable
      (g.handle i).txQueue.free).length, ¬ (g.handle j).txQueue.Holds
        ((g.handle i).txQueue.freeSlot k)))
  | .run i env => inferInstanceAs (Decidable (∀ j, j ≠ i → ∀ k < (turnMessages env (g.dcan i)
      (g.handle i)).length, ¬ (g.handle j).rxQueue.Holds ((g.handle i).rxQueue.freeSlot k)))

/-- The traffic of an interface is its own: what is handed to its controller is, in order,
what its datagrams brought (a refused frame is offered again until it is taken), and what its
datagrams carry away is, in order, what was read from its mailboxes. -/
structure IfaceLog.Isolated (l : IfaceLog) : Prop where
  handed : (Run.delivered l.offers).map CanfdFrame.view <+: l.accepted.map CanfdFrame.view
  offered : ∀ before x b after, l.offers = before ++ (x, b) :: after →
    (Run.delivered before ++ [x]).map CanfdFrame.view <+: l.accepted.map CanfdFrame.view
  sent : l.sent.flatMap Datagram.carried <+: l.received.map CanfdFrame.view

/-! ## The invariant -/

/-- One interface and its log. -/
structure IfaceInv (n : Node) (l : IfaceLog) : Prop where
  valid : n.handle.Valid
  tx_buf : n.handle.init.canTxBuf = .txBuf 0
  rx_buf : n.handle.init.canRxBuf = .rxBuf 0
  bounded : ∀ f ∈ n.rxFrames, canfdLen f ≤ cnlCanfdMaxDlen
  inOrder : Run.InOrder l.offers l.accepted
  conserved_tx : Run.delivered l.offers ++ n.txFrames = l.accepted
  conserved_rx : l.sent.flatMap Datagram.carried ++ n.rxFrames.map CanfdFrame.view
    = l.received.map CanfdFrame.view

def Interfaces.Inv (g : Interfaces) : Prop := ∀ i, IfaceInv (g.node i) (g.log i)

theorem IfaceInv.isolated {n : Node} {l : IfaceLog} (h : IfaceInv n l) : l.Isolated where
  handed := by
    rw [← h.conserved_tx]
    exact (List.prefix_append _ _).map _
  offered := fun before x b after heq => (h.inOrder before x b after heq).map _
  sent := by
    rw [← h.conserved_rx]
    exact List.prefix_append _ _

theorem Interfaces.inv_start (nodeId : UInt8) (mem : Memory) (dcan : Fin canIfaces → Dcan) :
    (Interfaces.start nodeId mem dcan).Inv := by
  intro i
  have htx : ((Interfaces.start nodeId mem dcan).node i).txFrames = [] := rfl
  have hrx : ((Interfaces.start nodeId mem dcan).node i).rxFrames = [] := rfl
  exact ⟨initCannelloni_valid _, rfl, rfl, by simp [hrx], Run.InOrder.nil _, htx, by rw [hrx]; rfl⟩

/-- An interface whose slots in use were left alone. -/
theorem IfaceInv.frame {h : Handle} {l : IfaceLog} {mem mem' : Memory} (hinv : IfaceInv ⟨mem, h⟩ l)
    (htx : ∀ s, h.txQueue.Holds s → mem' s = mem s)
    (hrx : ∀ s, h.rxQueue.Holds s → mem' s = mem s) : IfaceInv ⟨mem', h⟩ l := by
  have htx' : (Node.mk mem' h).txFrames = (Node.mk mem h).txFrames := contents_congr htx
  have hrx' : (Node.mk mem' h).rxFrames = (Node.mk mem h).rxFrames := contents_congr hrx
  exact ⟨hinv.valid, hinv.tx_buf, hinv.rx_buf, by rw [hrx']; exact hinv.bounded, hinv.inOrder,
    by rw [htx']; exact hinv.conserved_tx, by rw [hrx']; exact hinv.conserved_rx⟩

/-- The interface that received a packet. -/
theorem IfaceInv.stores {n : Node} {l : IfaceLog} {p : PbufChain} {o : Handled}
    (h : IfaceInv n l) (hs : Stores n p o) :
    IfaceInv o.node { l with accepted := l.accepted ++ o.stored } where
  valid := hs.valid h.valid
  tx_buf := by rw [hs.handle_eq]; exact h.tx_buf
  rx_buf := by rw [hs.handle_eq]; exact h.rx_buf
  bounded := by rw [hs.rxFrames_eq h.valid]; exact h.bounded
  inOrder := h.inOrder.mono (List.prefix_append _ _)
  conserved_tx := by
    rw [hs.txFrames_eq, ← List.append_assoc]
    exact congrArg (· ++ o.stored) h.conserved_tx
  conserved_rx := by rw [hs.rxFrames_eq h.valid]; exact h.conserved_rx

/-- A turn does not touch the slots its own `tx_queue` has in use. -/
theorem Turn.txFrames_eq {n : Node} {ms : List If1} {o : Ran} {fs : List CanfdFrame}
    (hv : n.handle.Valid) (ht : Turn n ms o fs) :
    n.txFrames = Run.delivered o.offers ++ o.node.txFrames := by
  have hmem : o.node.handle.txQueue.contents o.node.mem
      = o.node.handle.txQueue.contents n.mem := by
    apply ht.writes.contents_of_ne
    rw [ht.tx_taken.frames_eq]
    exact hv.frames_ne
  unfold Node.txFrames
  rw [hmem]
  exact ht.tx_taken.contents_eq

/-- The interface whose turn it was. -/
theorem IfaceInv.turn {n : Node} {l : IfaceLog} {ms : List If1} {o : Ran} {fs : List CanfdFrame}
    (h : IfaceInv n l) (hfit : ∀ m ∈ ms, m.Fits) (ht : Turn n ms o fs) :
    IfaceInv o.node { l with
      offers := l.offers ++ o.offers
      received := l.received ++ o.received
      sent := l.sent ++ o.sent } where
  valid := ht.valid
  tx_buf := by rw [ht.init_eq]; exact h.tx_buf
  rx_buf := by rw [ht.init_eq]; exact h.rx_buf
  bounded := by
    intro f hf
    have hmem : f ∈ n.rxFrames ++ o.received := by
      rw [ht.rx_eq]
      exact List.mem_append_right _ hf
    rcases List.mem_append.mp hmem with hmem | hmem
    · exact h.bounded f hmem
    · rw [ht.received_eq] at hmem
      exact forall_canfdLen_le_of_fits hfit _ _ f hmem
  inOrder := by
    have hacc := h.conserved_tx
    rw [← hacc]
    have hold := h.inOrder
    rw [← hacc] at hold
    exact hold.append ht.inOrder
  conserved_tx := by
    rw [Run.delivered_append, List.append_assoc, ← ht.txFrames_eq h.valid]
    exact h.conserved_tx
  conserved_rx := by
    rw [List.flatMap_append, ht.carried_eq, List.append_assoc, ← List.map_append, ← ht.rx_eq,
      List.map_append, ← List.append_assoc, h.conserved_rx, List.map_append]

/-! ## Steps -/

/-- No `tx_queue` lives in the array of an `rx_queue`. -/
theorem Interfaces.Inv.frames_ne {g : Interfaces} (h : g.Inv) (i j : Fin canIfaces) :
    (g.handle i).txQueue.frames ≠ (g.handle j).rxQueue.frames := by
  have htx : (g.handle i).txQueue.frames = .txBuf 0 :=
    (h i).valid.tx_frames.trans (h i).tx_buf
  have hrx : (g.handle j).rxQueue.frames = .rxBuf 0 :=
    (h j).valid.rx_frames.trans (h j).rx_buf
  rw [htx, hrx]
  decide

theorem Interfaces.inv_datagram {g : Interfaces} (h : g.Inv) {i : Fin canIfaces} {p : PbufChain}
    (hclassic : p.Classic) (hno : g.NoOverlap (.datagram i p)) :
    ∃ g', g.step (.datagram i p) = .ok g' ∧ g'.Inv := by
  obtain ⟨o, ho, hs⟩ := handleCannelloniFrame_ok (n := g.node i) (h i).valid.tx
    (hclassic.fits _)
  refine ⟨_, by simp only [step, ho]; rfl, ?_⟩
  intro j
  by_cases hj : j = i
  · subst hj
    simp only [node, Function.update_self]
    exact (h j).stores hs
  · have hlen : o.stored.length = (p.storable (g.handle i).txQueue.free).length := by
      rw [hs.stored_eq, length_fillSlots]
      rfl
    have hwrites : WritesFree (g.handle i).txQueue o.stored.length g.mem o.node.mem :=
      hs.appended.writes
    have hframe : IfaceInv ⟨o.node.mem, g.handle j⟩ (g.log j) := by
      apply (h j).frame
      · intro s hheld
        rw [hlen] at hwrites
        exact hwrites.of_not_holds (hno j hj) hheld
      · -- the other array
        intro s hheld
        exact hwrites.of_not_holds (fun k _ => not_holds_of_ne (h.frames_ne i j).symm k) hheld
    simp only [node, Function.update_of_ne hj]
    exact hframe

theorem Interfaces.inv_run {g : Interfaces} (h : g.Inv) {i : Fin canIfaces} {env : RunEnv}
    (hclassic : g.Classic (.run i env)) (hno : g.NoOverlap (.run i env)) :
    ∃ g', g.step (.run i env) = .ok g' ∧ g'.Inv := by
  have hfit : ∀ m ∈ turnMessages env (g.dcan i) (g.node i).handle, m.Fits := by
    intro m hm
    apply hclassic
    unfold turnMessages at hm
    split at hm
    · exact List.mem_of_mem_take hm
    · simp at hm
  obtain ⟨o, fs, ho, ht⟩ := runCannelloni_ok (n := g.node i) (h i).valid (h i).bounded hfit
  refine ⟨_, by simp only [step, ho]; rfl, ?_⟩
  intro j
  by_cases hj : j = i
  · subst hj
    simp only [node, Function.update_self]
    exact (h j).turn hfit ht
  · have hwrites : WritesFree (g.handle i).rxQueue
        (turnMessages env (g.dcan i) (g.handle i)).length g.mem o.node.mem := ht.writes
    have hframe : IfaceInv ⟨o.node.mem, g.handle j⟩ (g.log j) := by
      apply (h j).frame
      · -- the other array
        intro s hheld
        exact hwrites.of_not_holds (fun k _ => not_holds_of_ne (h.frames_ne j i) k) hheld
      · intro s hheld
        exact hwrites.of_not_holds (hno j hj) hheld
    simp only [node, Function.update_of_ne hj]
    exact hframe

/-! ## Whole runs -/

/-- In every state of a run of the four interfaces in which no event fills a slot that another
interface has in use, the traffic of every interface is its own. -/
theorem isolated_of_noOverlap (nodeId : UInt8) (mem : Memory) (dcan : Fin canIfaces → Dcan)
    (events : List IfaceEvent)
    (hclassic : Run.Along Interfaces.step Interfaces.Classic
      (Interfaces.start nodeId mem dcan) events)
    (hno : Run.Along Interfaces.step Interfaces.NoOverlap
      (Interfaces.start nodeId mem dcan) events) (k : ℕ) :
    ∃ g, Run.exec Interfaces.step (Interfaces.start nodeId mem dcan) (events.take k) = .ok g ∧
      ∀ i, (g.log i).Isolated := by
  have hstep : ∀ (g : Interfaces) (e : IfaceEvent), g.Inv → g.Classic e ∧ g.NoOverlap e →
      ∃ g', g.step e = .ok g' ∧ g'.Inv := by
    intro g e hinv hcond
    rcases hcond with ⟨hc, hn⟩
    cases e with
    | datagram i p => exact g.inv_datagram hinv hc hn
    | run i env => exact g.inv_run hinv hc hn
  obtain ⟨g, hg, hinv⟩ := Run.exec_of_along hstep (Interfaces.inv_start nodeId mem dcan)
    ((hclassic.and hno).take k)
  exact ⟨g, hg, fun i => (hinv i).isolated⟩

/-- A turn in which nothing arrives and no datagram is sent. -/
def RunEnv.quiet (answers : List Bool) : RunEnv where
  answers := answers
  hw := fun _ c => c
  pbufs := []
  spill := fun _ _ => 0

/-- Two interfaces that use the shared array one after the other. -/
theorem isolated_of_noOverlap_in_turn :
    ∃ g, Run.exec Interfaces.step (Interfaces.start 0 zeroMemory fun _ => .idle)
        [.datagram 0 (.single 1 7), .run 0 (.quiet [true]), .datagram 1 (.single 2 8),
          .run 1 (.quiet [true])] = .ok g ∧
      ∀ i, (g.log i).Isolated :=
  isolated_of_noOverlap 0 zeroMemory (fun _ => .idle)
    [.datagram 0 (.single 1 7), .run 0 (.quiet [true]), .datagram 1 (.single 2 8),
      .run 1 (.quiet [true])] (by decide +kernel) (by decide +kernel) 4

/-- The setup of `main` does not isolate the interfaces: a frame that waits at interface 0 is
overwritten by one that arrives at interface 1, and interface 0 hands out the latter. -/
theorem main_not_isolated :
    ¬ ∀ (nodeId : UInt8) (mem : Memory) (dcan : Fin canIfaces → Dcan) (events : List IfaceEvent),
      Run.Along Interfaces.step Interfaces.Classic (Interfaces.start nodeId mem dcan) events →
      ∀ k, ∃ g, Run.exec Interfaces.step (Interfaces.start nodeId mem dcan) (events.take k)
        = .ok g ∧ ∀ i, (g.log i).Isolated := by
  intro h
  obtain ⟨g, hg, hisolated⟩ := h 0 zeroMemory (fun _ => .idle)
    [.datagram 0 (.single 1 7), .datagram 1 (.single 2 8), .run 0 (.quiet [true])]
    (by decide +kernel) 3
  have hlog : (Run.exec Interfaces.step (Interfaces.start 0 zeroMemory fun _ => .idle)
      [.datagram 0 (.single 1 7), .datagram 1 (.single 2 8), .run 0 (.quiet [true])]).map
        (fun g => ((Run.delivered (g.log 0).offers).map CanfdFrame.view,
          (g.log 0).accepted.map CanfdFrame.view))
      = .ok ([(2, 1, [8])], [(1, 1, [7])]) := by decide +kernel
  have hg' : Run.exec Interfaces.step (Interfaces.start 0 zeroMemory fun _ => .idle)
      [.datagram 0 (.single 1 7), .datagram 1 (.single 2 8), .run 0 (.quiet [true])]
      = .ok g := hg
  rw [hg'] at hlog
  obtain ⟨hhanded, haccepted⟩ : (Run.delivered (g.log 0).offers).map CanfdFrame.view
      = [(2, 1, [8])] ∧ (g.log 0).accepted.map CanfdFrame.view = [(1, 1, [7])] := by
    simpa [Except.map] using hlog
  have hpre := (hisolated 0).handed
  rw [hhanded, haccepted] at hpre
  simp at hpre

end Cannelloni
