import Cannelloni.Handle
import Cannelloni.Drivers.Can

/-!
# Reading the mailboxes (`on_can_receive`)

The callback reads mailbox 2, 3, … until it meets one without a new message or finds
`rx_queue` full. Messages may arrive between any two mailbox accesses; `hw m` is what the
controller did by itself since the access before, up to the one to mailbox `m`.

`found` is the list of messages the scan meets when the queue never fills up.
-/

namespace Cannelloni

/-! ## The code -/

/-- `get_can_rx_frame`. -/
def getCanRxFrame (h : Handle) : Option Slot × Handle :=
  let (slot, q) := queuePut h.rxQueue
  (slot, { h with rxQueue := q })

/-- The state of a scan, and (ghost) the frames stored so far. -/
structure Scan where
  dcan : Dcan
  node : Node
  mbox : ℕ
  stored : List CanfdFrame

/-- One evaluation of the loop condition and, when it holds, the loop body. The flag tells
whether the loop goes on. -/
def scanStep (s : Scan) : Except Fault (Bool × Scan) :=
  let (hasData, dcan) := canMboxHasData s.dcan s.mbox
  if hasData then
    match getCanRxFrame s.node.handle with
    -- `return`; the access has already cleared `NewDat`
    | (none, _) => .ok (false, { s with dcan := dcan })
    | (some slot, handle) => do
      let frame ← canFillRxMbox dcan.if1 (s.node.mem slot)
      return (true,
        { dcan := dcan, node := ⟨Function.update s.node.mem slot frame, handle⟩,
          mbox := s.mbox + 1, stored := s.stored ++ [frame] })
  else .ok (false, { s with dcan := dcan })

/-- The `while` loop. The mailbox number grows with every pass and the access to mailbox 65
fails, so 64 passes are always enough (`scanLoop_ok`). -/
def scanLoop (hw : ℕ → Dcan → Dcan) : ℕ → Scan → Except Fault Scan
  | 0, s => .ok s
  | fuel + 1, s => do
    let (go, s) ← scanStep { s with dcan := hw s.mbox s.dcan }
    if go then scanLoop hw fuel s else return s

/-- `on_can_receive`. -/
def onCanReceive (hw : ℕ → Dcan → Dcan) (c : Dcan) (n : Node) : Except Fault Scan :=
  scanLoop hw canMboxLast { dcan := c, node := n, mbox := canRxQueueFirstMbox, stored := [] }

/-! ## One pass -/

section Step

variable {s : Scan}

/-- The scan after it read an empty mailbox, or a message it has no room for. -/
def Scan.stop (s : Scan) : Scan := { s with dcan := (canMboxHasData s.dcan s.mbox).2 }

/-- The scan after it stored the message of the current mailbox. -/
def Scan.store (s : Scan) : Scan :=
  let dcan := (canMboxHasData s.dcan s.mbox).2
  let slot := s.node.handle.rxQueue.freeSlot 0
  let frame := dcan.if1.frame (s.node.mem slot)
  { dcan := dcan
    node := ⟨Function.update s.node.mem slot frame,
      { s.node.handle with rxQueue := s.node.handle.rxQueue.push }⟩
    mbox := s.mbox + 1, stored := s.stored ++ [frame] }

theorem scanStep_no_data (h : (canMboxHasData s.dcan s.mbox).1 = false) :
    scanStep s = .ok (false, s.stop) := by
  simp only [scanStep, h]
  rfl

theorem scanStep_full (h : (canMboxHasData s.dcan s.mbox).1 = true)
    (hf : s.node.handle.rxQueue.Full) : scanStep s = .ok (false, s.stop) := by
  simp only [scanStep, h, getCanRxFrame, queuePut_of_full hf]
  rfl

theorem scanStep_store (hv : s.node.handle.rxQueue.Valid)
    (h : (canMboxHasData s.dcan s.mbox).1 = true) (hf : ¬ s.node.handle.rxQueue.Full)
    (hfit : (canMboxHasData s.dcan s.mbox).2.if1.Fits) : scanStep s = .ok (true, s.store) := by
  simp only [scanStep, h, getCanRxFrame, queuePut_of_not_full hf, canFillRxMbox_ok hfit]
  simp only [Scan.store, freeSlot_zero hv]
  rfl

theorem scanStep_error (h : (canMboxHasData s.dcan s.mbox).1 = true)
    (hf : ¬ s.node.handle.rxQueue.Full)
    (hfit : ¬ (canMboxHasData s.dcan s.mbox).2.if1.Fits) :
    scanStep s = .error (.dataIndex cnlCanfdMaxDlen) := by
  simp only [scanStep, h, getCanRxFrame, queuePut_of_not_full hf, canFillRxMbox_error hfit]
  rfl

end Step

/-! ## The whole scan -/

/-- The messages a scan meets from mailbox `mbox` on in at most `fuel` accesses. -/
def found (hw : ℕ → Dcan → Dcan) : ℕ → Dcan → ℕ → List If1
  | 0, _, _ => []
  | fuel + 1, c, mbox =>
    let c := hw mbox c
    if (canMboxHasData c mbox).1 then
      (canMboxHasData c mbox).2.if1 :: found hw fuel (canMboxHasData c mbox).2 (mbox + 1)
    else []

/-- The messages a call meets. -/
def foundMessages (hw : ℕ → Dcan → Dcan) (c : Dcan) : List If1 :=
  found hw canMboxLast c canRxQueueFirstMbox

/-- A scan that stores the messages `ms`. -/
structure Reads (s : Scan) (ms : List If1) (s' : Scan) : Prop where
  stored_eq : s'.stored = s.stored ++ fillSlots If1.frame s.node.mem s.node.handle.rxQueue ms
  appended : Appended s.node.mem s.node.handle.rxQueue
    (fillSlots If1.frame s.node.mem s.node.handle.rxQueue ms) s'.node.mem s'.node.handle.rxQueue
  handle_eq : s'.node.handle = { s.node.handle with rxQueue := s'.node.handle.rxQueue }

theorem Reads.refl {s s' : Scan} (hv : s.node.handle.rxQueue.Valid) (hn : s'.node = s.node)
    (hs : s'.stored = s.stored) : Reads s [] s' where
  stored_eq := by rw [hs, fillSlots, List.append_nil]
  appended := by
    rw [hn, fillSlots]
    exact Appended.refl hv
  handle_eq := by rw [hn]

theorem Reads.cons {s s' : Scan} {ms : List If1} (hv : s.node.handle.rxQueue.Valid)
    (hf : ¬ s.node.handle.rxQueue.Full) (hlen : ms.length ≤ s.node.handle.rxQueue.push.free)
    (h : Reads s.store ms s') :
    Reads s ((canMboxHasData s.dcan s.mbox).2.if1 :: ms) s' := by
  have hq : s.store.node.handle.rxQueue = s.node.handle.rxQueue.push := rfl
  have hfill : fillSlots If1.frame s.store.node.mem s.node.handle.rxQueue.push ms
      = fillSlots If1.frame s.node.mem s.node.handle.rxQueue.push ms :=
    fillSlots_update_tail _ hv hf _ hlen
  have hstored := h.stored_eq
  have happ := h.appended
  rw [hq, hfill] at hstored happ
  refine ⟨?_, Appended.fill_cons _ hv hf happ, h.handle_eq⟩
  rw [hstored, fillSlots, Scan.store, List.append_assoc]
  rfl

/-- When every message that finds a free slot also fits it, the scan stores them all. -/
theorem scanLoop_ok {hw : ℕ → Dcan → Dcan} {fuel : ℕ} {s : Scan}
    (hv : s.node.handle.rxQueue.Valid)
    (hfit : ∀ m ∈ (found hw fuel s.dcan s.mbox).take s.node.handle.rxQueue.free, m.Fits) :
    ∃ s', scanLoop hw fuel s = .ok s' ∧
      Reads s ((found hw fuel s.dcan s.mbox).take s.node.handle.rxQueue.free) s' := by
  induction fuel generalizing s with
  | zero => exact ⟨s, rfl, by simpa [found] using Reads.refl hv rfl rfl⟩
  | succ fuel ih =>
    -- what the controller did before the access
    set t : Scan := { s with dcan := hw s.mbox s.dcan } with ht
    have hunfold : scanLoop hw (fuel + 1) s = scanStep t >>= fun r =>
      if r.1 then scanLoop hw fuel r.2 else pure r.2 := rfl
    cases hdata : (canMboxHasData t.dcan t.mbox).1 with
    | false =>
      have hnil : found hw (fuel + 1) s.dcan s.mbox = [] := by
        have : (canMboxHasData (hw s.mbox s.dcan) s.mbox).1 = false := hdata
        simp [found, this]
      rw [hnil, List.take_nil, hunfold, scanStep_no_data hdata]
      exact ⟨t.stop, rfl, Reads.refl hv rfl rfl⟩
    | true =>
      have hcons : found hw (fuel + 1) s.dcan s.mbox = (canMboxHasData t.dcan t.mbox).2.if1
          :: found hw fuel (canMboxHasData t.dcan t.mbox).2 (t.mbox + 1) := by
        have : (canMboxHasData (hw s.mbox s.dcan) s.mbox).1 = true := hdata
        simp [found, this, ht]
      rw [hcons] at hfit ⊢
      by_cases hf : t.node.handle.rxQueue.Full
      · -- a full queue ends the scan
        have hzero : s.node.handle.rxQueue.free = 0 := (Ring.Cursor.full_iff_free hv).mp hf
        rw [hzero, List.take_zero, hunfold, scanStep_full hdata hf]
        exact ⟨t.stop, rfl, Reads.refl hv rfl rfl⟩
      · have hfree : s.node.handle.rxQueue.push.free + 1 = s.node.handle.rxQueue.free :=
          Ring.Cursor.free_push hv hf
        rw [← hfree, List.take_succ_cons] at hfit ⊢
        have hstep := scanStep_store (s := t) hv hdata hf (hfit _ List.mem_cons_self)
        obtain ⟨s', hs', hreads⟩ := ih (s := t.store) hv.push
          fun m hm => hfit m (List.mem_cons_of_mem _ hm)
        refine ⟨s', ?_, ?_⟩
        · rw [hunfold, hstep]
          exact hs'
        · have hlen : ((found hw fuel t.store.dcan t.store.mbox).take
              t.store.node.handle.rxQueue.free).length ≤ t.node.handle.rxQueue.push.free := by
            rw [List.length_take]
            exact Nat.min_le_left _ _
          have hall := Reads.cons (s := t) hv hf hlen hreads
          exact ⟨hall.stored_eq, hall.appended, hall.handle_eq⟩

/-- A message that finds a free slot but does not fit it makes the copy run over the slot. -/
theorem scanLoop_error {hw : ℕ → Dcan → Dcan} {fuel : ℕ} {s : Scan}
    (hv : s.node.handle.rxQueue.Valid)
    (hfit : ∃ m ∈ (found hw fuel s.dcan s.mbox).take s.node.handle.rxQueue.free, ¬ m.Fits) :
    scanLoop hw fuel s = .error (.dataIndex cnlCanfdMaxDlen) := by
  induction fuel generalizing s with
  | zero => simp [found] at hfit
  | succ fuel ih =>
    set t : Scan := { s with dcan := hw s.mbox s.dcan } with ht
    have hunfold : scanLoop hw (fuel + 1) s = scanStep t >>= fun r =>
      if r.1 then scanLoop hw fuel r.2 else pure r.2 := rfl
    cases hdata : (canMboxHasData t.dcan t.mbox).1 with
    | false =>
      have : (canMboxHasData (hw s.mbox s.dcan) s.mbox).1 = false := hdata
      simp [found, this] at hfit
    | true =>
      have hcons : found hw (fuel + 1) s.dcan s.mbox = (canMboxHasData t.dcan t.mbox).2.if1
          :: found hw fuel (canMboxHasData t.dcan t.mbox).2 (t.mbox + 1) := by
        have : (canMboxHasData (hw s.mbox s.dcan) s.mbox).1 = true := hdata
        simp [found, this, ht]
      rw [hcons] at hfit
      -- some message finds a free slot, so there is one
      have hf : ¬ t.node.handle.rxQueue.Full := by
        intro hf
        have hzero : s.node.handle.rxQueue.free = 0 := (Ring.Cursor.full_iff_free hv).mp hf
        simp [hzero] at hfit
      have hfree : s.node.handle.rxQueue.push.free + 1 = s.node.handle.rxQueue.free :=
        Ring.Cursor.free_push hv hf
      rw [← hfree, List.take_succ_cons] at hfit
      by_cases hthis : (canMboxHasData t.dcan t.mbox).2.if1.Fits
      · obtain ⟨m, hm, hnot⟩ := hfit
        rcases List.mem_cons.mp hm with rfl | hm
        · exact absurd hthis hnot
        · rw [hunfold, scanStep_store (s := t) hv hdata hf hthis]
          exact ih (s := t.store) hv.push ⟨m, hm, hnot⟩
      · rw [hunfold, scanStep_error hdata hf hthis]
        rfl

/-- A call that stores every message that finds a free slot. -/
theorem onCanReceive_ok {hw : ℕ → Dcan → Dcan} {c : Dcan} {n : Node}
    (hv : n.handle.rxQueue.Valid)
    (hfit : ∀ m ∈ (foundMessages hw c).take n.handle.rxQueue.free, m.Fits) :
    ∃ s', onCanReceive hw c n = .ok s' ∧
      Reads ⟨c, n, canRxQueueFirstMbox, []⟩
        ((foundMessages hw c).take n.handle.rxQueue.free) s' :=
  scanLoop_ok (s := ⟨c, n, canRxQueueFirstMbox, []⟩) hv hfit

/-- A call that did not fault stored every message that found a free slot. -/
theorem reads_of_ok {hw : ℕ → Dcan → Dcan} {c : Dcan} {n : Node} (hv : n.handle.rxQueue.Valid)
    {s : Scan} (h : onCanReceive hw c n = .ok s) :
    (∀ m ∈ (foundMessages hw c).take n.handle.rxQueue.free, m.Fits) ∧
      Reads ⟨c, n, canRxQueueFirstMbox, []⟩
        ((foundMessages hw c).take n.handle.rxQueue.free) s := by
  by_cases hfit : ∀ m ∈ (foundMessages hw c).take n.handle.rxQueue.free, m.Fits
  · obtain ⟨s', hs', hreads⟩ := onCanReceive_ok hv hfit
    obtain rfl : s' = s := Except.ok.inj (hs'.symm.trans h)
    exact ⟨hfit, hreads⟩
  · push Not at hfit
    have herr := scanLoop_error (s := ⟨c, n, canRxQueueFirstMbox, []⟩) hv hfit
    rw [show scanLoop hw canMboxLast ⟨c, n, canRxQueueFirstMbox, []⟩ = .ok s from h] at herr
    cases herr

theorem Reads.valid {s s' : Scan} {ms : List If1} (hv : s.node.handle.Valid)
    (h : Reads s ms s') : s'.node.handle.Valid := by
  rw [h.handle_eq]
  exact hv.of_rxQueue rfl rfl h.appended.valid h.appended.frames_eq h.appended.count_eq

/-- The frames a scan stores are no longer than the messages. -/
theorem forall_canfdLen_le_of_fits {ms : List If1} (hfit : ∀ m ∈ ms, m.Fits) (mem : Memory)
    (q : FramesQueue) : ∀ f ∈ fillSlots If1.frame mem q ms, canfdLen f ≤ cnlCanfdMaxDlen := by
  apply forall_mem_fillSlots
  intro m hm old
  rw [If1.canfdLen_frame]
  exact hfit m hm

/-- The scan does not touch `tx_queue`. -/
theorem Reads.txFrames_eq {s s' : Scan} {ms : List If1} (hv : s.node.handle.Valid)
    (h : Reads s ms s') : s'.node.txFrames = s.node.txFrames := by
  have hq : s'.node.handle.txQueue = s.node.handle.txQueue := by rw [h.handle_eq]
  unfold Node.txFrames
  rw [hq]
  exact h.appended.writes.contents_of_ne hv.frames_ne

end Cannelloni
