import Cannelloni.Decoder
import Cannelloni.Gateway

/-!
# Lengths and the data array of a slot

One handle under any sequence of calls of its four entry points, with arbitrary datagrams and
arbitrary mailbox contents. The length of a frame comes from a 7-bit field of the datagram or
from a 4-bit field of the mailbox, and neither is compared with the size of the data array.
`bounded_iff_withinDlen` says which runs keep every queued frame, and every store into a data
array, within the eight bytes a slot has.
-/

namespace Cannelloni

/-! ## The system -/

inductive NodeEvent
  | handleCannelloniFrame (p : Option PbufChain)
  /-- `on_can_receive` on a controller with arbitrary mailbox contents. -/
  | onCanReceive (hw : ℕ → Dcan → Dcan) (c : Dcan)
  | transmitCanFrames (answers : List Bool)
  | transmitUdpFrame (spill : Slot → ℕ → UInt8) (pbuf : Option (ℕ → UInt8))

/-- A call; it fails when it stores behind the end of a data array. -/
def Node.step (n : Node) : NodeEvent → Except Fault Node
  | .handleCannelloniFrame p => do
    let o ← Cannelloni.handleCannelloniFrame n p
    return o.node
  | .onCanReceive hw c => do
    let s ← Cannelloni.onCanReceive hw c n
    return s.node
  | .transmitCanFrames answers => .ok (Cannelloni.transmitCanFrames answers n).1
  | .transmitUdpFrame spill pbuf => .ok (Cannelloni.transmitUdpFrame spill pbuf n).node

/-- The state after `init_cannelloni`. -/
def Node.start (mem : Memory) (init : Init) : Node := ⟨mem, initCannelloni init⟩

/-- Every queued frame has a length that its data array can hold. -/
structure Node.Bounded (n : Node) : Prop where
  tx : ∀ f ∈ n.txFrames, canfdLen f ≤ cnlCanfdMaxDlen
  rx : ∀ f ∈ n.rxFrames, canfdLen f ≤ cnlCanfdMaxDlen

/-- What the call finds and has a free slot for is no longer than a data array: the records of
a packet, remote ones included, and the messages in the mailboxes. -/
def Node.WithinDlen (n : Node) : NodeEvent → Prop
  | .handleCannelloniFrame (some p) =>
    ∀ r ∈ p.storable n.handle.txQueue.free, dlcOf r.len ≤ cnlCanfdMaxDlen
  | .handleCannelloniFrame none => True
  | .onCanReceive hw c => ∀ m ∈ (foundMessages hw c).take n.handle.rxQueue.free, m.Fits
  | .transmitCanFrames _ => True
  | .transmitUdpFrame _ _ => True

/-! ## One call -/

structure Node.BoundedInv (n : Node) : Prop extends n.Bounded where
  valid : n.handle.Valid

/-- The lengths of the stored frames are those the records announce. -/
theorem Stores.forall_canfdLen_le {n : Node} {p : PbufChain} {o : Handled} (h : Stores n p o) :
    (∀ f ∈ o.stored, canfdLen f ≤ cnlCanfdMaxDlen) ↔
      ∀ r ∈ p.storable n.handle.txQueue.free, dlcOf r.len ≤ cnlCanfdMaxDlen := by
  have hmap : o.stored.map canfdLen
      = (p.storable n.handle.txQueue.free).map fun r => dlcOf r.len := by
    rw [h.stored_eq]
    exact map_fillSlots _ fun r _ old => r.canfdLen_frame p.payload old
  have hforall : (∀ l ∈ o.stored.map canfdLen, l ≤ cnlCanfdMaxDlen) ↔
      ∀ l ∈ (p.storable n.handle.txQueue.free).map (fun r => dlcOf r.len), l ≤ cnlCanfdMaxDlen := by
    rw [hmap]
  simpa using hforall

section Step

variable {n : Node} (h : n.BoundedInv)
include h

theorem Node.step_receive {p : PbufChain}
    (hwithin : n.WithinDlen (.handleCannelloniFrame (some p))) :
    ∃ n', n.step (.handleCannelloniFrame (some p)) = .ok n' ∧ n'.BoundedInv := by
  obtain ⟨o, ho, hs⟩ := handleCannelloniFrame_ok h.valid.tx fun r hr => .inr (hwithin r hr)
  refine ⟨o.node, ?_, ⟨?_, ?_⟩, hs.valid h.valid⟩
  · simp only [step, ho]
    rfl
  · intro f hf
    rw [hs.txFrames_eq] at hf
    rcases List.mem_append.mp hf with hf | hf
    · exact h.tx f hf
    · exact hs.forall_canfdLen_le.mpr hwithin f hf
  · rw [hs.rxFrames_eq h.valid]
    exact h.rx

theorem Node.step_scan {hw : ℕ → Dcan → Dcan} {c : Dcan}
    (hwithin : n.WithinDlen (.onCanReceive hw c)) :
    ∃ n', n.step (.onCanReceive hw c) = .ok n' ∧ n'.BoundedInv := by
  obtain ⟨s, hs, hreads⟩ := onCanReceive_ok h.valid.rx hwithin
  refine ⟨s.node, ?_, ⟨?_, ?_⟩, hreads.valid h.valid⟩
  · simp only [step, hs]
    rfl
  · rw [hreads.txFrames_eq h.valid]
    exact h.tx
  · intro f hf
    have hrx : s.node.rxFrames = _ := hreads.appended.contents_eq
    rw [hrx] at hf
    rcases List.mem_append.mp hf with hf | hf
    · exact h.rx f hf
    · exact forall_canfdLen_le_of_fits hwithin _ _ f hf

/-- A call that finds nothing longer than a data array does not fault and keeps the bound. -/
theorem Node.step_ok {e : NodeEvent} (hwithin : n.WithinDlen e) :
    ∃ n', n.step e = .ok n' ∧ n'.BoundedInv := by
  cases e with
  | handleCannelloniFrame p =>
    cases p with
    | none => exact ⟨n, rfl, h⟩
    | some p => exact n.step_receive h hwithin
  | onCanReceive hw c => exact n.step_scan h hwithin
  | transmitCanFrames answers =>
    have hoffers := transmitCanFrames_spec answers h.valid.tx
    refine ⟨_, rfl, ⟨?_, ?_⟩, hoffers.valid h.valid⟩
    · intro f hf
      apply h.tx
      rw [hoffers.txFrames_eq]
      exact List.mem_append_right _ hf
    · rw [hoffers.rxFrames_eq]
      exact h.rx
  | transmitUdpFrame spill pbuf =>
    obtain ⟨fs, hdrains⟩ := transmitUdpFrame_drains spill pbuf h.valid h.rx
    refine ⟨_, rfl, ⟨?_, ?_⟩, hdrains.valid h.valid⟩
    · rw [hdrains.txFrames_eq]
      exact h.tx
    · intro f hf
      apply h.rx
      rw [hdrains.rxFrames_eq]
      exact List.mem_append_right _ hf

/-- A call that neither faults nor queues a frame that is too long found none. -/
theorem Node.withinDlen_of_step {e : NodeEvent} {n' : Node} (hstep : n.step e = .ok n')
    (hbounded : n'.Bounded) : n.WithinDlen e := by
  cases e with
  | handleCannelloniFrame p =>
    cases p with
    | none => trivial
    | some p =>
      by_cases hfit : ∀ r ∈ p.storable n.handle.txQueue.free, r.Fits
      · -- remote records fit any slot, but their length is queued with them
        obtain ⟨o, ho, hs⟩ := handleCannelloniFrame_ok h.valid.tx hfit
        obtain rfl : o.node = n' := by
          simpa [step, ho, bind, Except.bind, pure, Except.pure] using hstep
        apply hs.forall_canfdLen_le.mp
        intro f hf
        apply hbounded.tx
        rw [hs.txFrames_eq]
        exact List.mem_append_right _ hf
      · -- a data record that does not fit is copied over the end of its slot
        push Not at hfit
        have herror := handleCannelloniFrame_error h.valid.tx hfit
        simp [step, herror, bind, Except.bind] at hstep
  | onCanReceive hw c =>
    by_contra hfit
    unfold WithinDlen at hfit
    push Not at hfit
    have herror : Cannelloni.onCanReceive hw c n = .error (.dataIndex cnlCanfdMaxDlen) :=
      scanLoop_error (s := ⟨c, n, canRxQueueFirstMbox, []⟩) h.valid.rx hfit
    simp [step, herror, bind, Except.bind] at hstep
  | transmitCanFrames answers => trivial
  | transmitUdpFrame spill pbuf => trivial

end Step

/-! ## Whole runs -/

theorem Node.boundedInv_start (mem : Memory) (init : Init) : (Node.start mem init).BoundedInv where
  tx := by simp [start, txFrames, initCannelloni]
  rx := by simp [start, rxFrames, initCannelloni]
  valid := initCannelloni_valid init

/-- Every state of a run is reached without a store behind the end of a data array and has
only frames that fit theirs, exactly when no call of the run finds a free slot for a record or
a message that is longer than eight bytes. -/
theorem bounded_iff_withinDlen (mem : Memory) (init : Init) (events : List NodeEvent) :
    (∀ k, ∃ n, Run.exec Node.step (Node.start mem init) (events.take k) = .ok n ∧ n.Bounded) ↔
      Run.Along Node.step Node.WithinDlen (Node.start mem init) events := by
  have hstart := Node.boundedInv_start mem init
  have hcond : ∀ (n : Node) (e : NodeEvent), n.BoundedInv →
      ((∃ n', n.step e = .ok n' ∧ n'.Bounded) ↔ n.WithinDlen e) := by
    intro n e hinv
    constructor
    · intro hex
      rcases hex with ⟨n', hstep, hbounded⟩
      exact n.withinDlen_of_step hinv hstep hbounded
    · intro hwithin
      obtain ⟨n', hstep, hinv'⟩ := n.step_ok hinv hwithin
      exact ⟨n', hstep, hinv'.toBounded⟩
  have hinv : ∀ (n : Node) (e : NodeEvent) (n' : Node), n.BoundedInv →
      (∃ n', n.step e = .ok n' ∧ n'.Bounded) → n.step e = .ok n' → n'.BoundedInv := by
    intro n e n' hinv hex hstep
    obtain ⟨m, hm, hinv'⟩ := n.step_ok hinv ((hcond n e hinv).mp hex)
    obtain rfl : m = n' := by simpa [hm] using hstep
    exact hinv'
  rw [Run.forall_exec_take_iff, Run.along_congr hcond hinv hstart]
  exact and_iff_right hstart.toBounded

/-- A datagram with one data record of length nine is enough to store behind the end of a data
array. -/
theorem not_bounded :
    ¬ ∀ (mem : Memory) (init : Init) (events : List NodeEvent) (k : ℕ),
      ∃ n, Run.exec Node.step (Node.start mem init) (events.take k) = .ok n ∧ n.Bounded := by
  intro h
  obtain ⟨n, hn, -⟩ := h zeroMemory (mainInit 0 0)
    [.handleCannelloniFrame (some (.contiguous
      [2, 0, 0, 0, 1, 0, 0, 0, 1, 9, 1, 2, 3, 4, 5, 6, 7, 8, 9] (fun _ => 0) (by simp)))] 1
  have hfault : (Run.exec Node.step (Node.start zeroMemory (mainInit 0 0))
    [.handleCannelloniFrame (some (.contiguous
      [2, 0, 0, 0, 1, 0, 0, 0, 1, 9, 1, 2, 3, 4, 5, 6, 7, 8, 9] (fun _ => 0) (by simp)))]).map
        (fun _ => ()) = .error (.dataIndex 8) := by decide +kernel
  have hok := congrArg (Except.map fun _ => ()) hn
  exact absurd (hfault.symm.trans hok) (by simp [Except.map])

end Cannelloni
