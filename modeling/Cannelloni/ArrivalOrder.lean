import Cannelloni.Lib.Run
import Cannelloni.Lib.Sweep
import Cannelloni.CanReceive
import Cannelloni.Encoder

/-!
# The order of reception

The controller stores an arriving message in the lowest free receive mailbox, and
`on_can_receive` frees mailbox 2, 3, … while it scans. Messages may arrive between any two
mailbox accesses, so a message can get into a mailbox in front of the scan while older ones
wait behind it.

`MailSystem.step` takes the scans apart into single mailbox accesses, and `exec_eq_scanLoop`
says that together they are the loop of `on_can_receive`. The mailboxes are cells read by
sweeps, and the invariant is that the reading order is the order of arrival.
-/

namespace Cannelloni

/-! ## Arrivals -/

/-- The message as the controller stores it. -/
def If1.received (m : If1) : If1 := { m with mctl := m.mctl ||| ifmctlNewdat }

/-- The lowest receive mailbox without a new message. -/
def Dcan.firstFree (c : Dcan) : Option ℕ :=
  (List.range' canRxQueueFirstMbox (canMboxLast + 1 - canRxQueueFirstMbox)).find?
    fun i => ¬ (c.mailbox i).NewDat

/-- The controller receives a message. Without a free mailbox the message is lost; the results
are about runs where this does not happen. -/
def Dcan.arrive (c : Dcan) (m : If1) : Dcan :=
  match c.firstFree with
  | some i => { c with mailbox := Function.update c.mailbox i m.received }
  | none => c

/-- No receive mailbox holds a new message. -/
def Dcan.Quiet (c : Dcan) : Prop :=
  ∀ i, canRxQueueFirstMbox ≤ i → i ≤ canMboxLast → ¬ (c.mailbox i).NewDat

theorem Dcan.idle_quiet : Dcan.idle.Quiet := by
  intro i _ _
  show ¬ (0 : UInt32) &&& ifmctlNewdat ≠ 0
  decide

/-- The mailboxes as cells: a mailbox with a new message holds what the bus saw of it. -/
def Dcan.cell (c : Dcan) (i : ℕ) : Option (UInt32 × UInt8 × List UInt8) :=
  if (c.mailbox i).NewDat then some (c.mailbox i).view else none

/-! ## The system -/

/-- An interface, the mailbox a running scan accesses next, and (ghost) the messages that
arrived and the frames put into `rx_queue`. -/
structure MailSystem where
  dcan : Dcan
  node : Node
  scan : Option ℕ
  arrived : List If1
  stored : List CanfdFrame

inductive MailEvent
  /-- a message arrives from the bus -/
  | arrive (m : If1)
  /-- the next mailbox access of `on_can_receive`, which is called when no scan is running -/
  | access
  /-- `transmit_udp_frame` makes room in `rx_queue` -/
  | transmitUdpFrame (spill : Slot → ℕ → UInt8) (pbuf : Option (ℕ → UInt8))

/-- The state after `init_cannelloni`. -/
def MailSystem.start (mem : Memory) (init : Init) (c : Dcan) : MailSystem :=
  ⟨c, ⟨mem, initCannelloni init⟩, none, [], []⟩

/-- The mailbox that is accessed next. -/
def MailSystem.mbox (s : MailSystem) : ℕ := s.scan.getD canRxQueueFirstMbox

/-- The scan as the next access finds it. -/
def MailSystem.toScan (s : MailSystem) : Scan := ⟨s.dcan, s.node, s.mbox, s.stored⟩

/-- The system after an access, with the flag that tells whether the scan goes on. -/
def MailSystem.afterAccess (s : MailSystem) (go : Bool) (t : Scan) : MailSystem :=
  ⟨t.dcan, t.node, if go then some t.mbox else none, s.arrived, t.stored⟩

def MailSystem.step (s : MailSystem) : MailEvent → Except Fault MailSystem
  | .arrive m => .ok { s with dcan := s.dcan.arrive m, arrived := s.arrived ++ [m] }
  | .access => do
    let (go, t) ← scanStep s.toScan
    return s.afterAccess go t
  | .transmitUdpFrame spill pbuf =>
    .ok { s with node := (Cannelloni.transmitUdpFrame spill pbuf s.node).node }

/-- Some receive mailbox is free on arrival. -/
def MailSystem.MailboxFree (s : MailSystem) : MailEvent → Prop
  | .arrive _ => s.dcan.firstFree.isSome
  | _ => True

/-- `rx_queue` is not full. -/
def MailSystem.QueueRoom (s : MailSystem) (_ : MailEvent) : Prop := ¬ s.node.handle.rxQueue.Full

/-- A message does not arrive while a scan is under way and every mailbox the scan already
passed holds a new message again. -/
def MailSystem.NotOvertaking (s : MailSystem) : MailEvent → Prop
  | .arrive _ => s.mbox = canRxQueueFirstMbox ∨
    ∃ i < s.mbox, canRxQueueFirstMbox ≤ i ∧ ¬ (s.dcan.mailbox i).NewDat
  | _ => True

instance MailSystem.decidableMailboxFree (s : MailSystem) (e : MailEvent) :
    Decidable (s.MailboxFree e) :=
  match e with
  | .arrive _ => inferInstanceAs (Decidable (s.dcan.firstFree.isSome = true))
  | .access => inferInstanceAs (Decidable True)
  | .transmitUdpFrame _ _ => inferInstanceAs (Decidable True)

instance MailSystem.decidableQueueRoom (s : MailSystem) (e : MailEvent) :
    Decidable (s.QueueRoom e) := inferInstanceAs (Decidable (¬ _))

instance MailSystem.decidableNotOvertaking (s : MailSystem) (e : MailEvent) :
    Decidable (s.NotOvertaking e) :=
  match e with
  | .arrive _ => inferInstanceAs (Decidable (s.mbox = canRxQueueFirstMbox ∨
      ∃ i < s.mbox, canRxQueueFirstMbox ≤ i ∧ ¬ (s.dcan.mailbox i).NewDat))
  | .access => inferInstanceAs (Decidable True)
  | .transmitUdpFrame _ _ => inferInstanceAs (Decidable True)

/-- The frames put into `rx_queue` are, in order, the first of the messages that arrived. -/
def MailSystem.InArrivalOrder (s : MailSystem) : Prop :=
  s.stored.map CanfdFrame.view <+: s.arrived.map If1.view

/-! ## The mailboxes as cells -/

theorem If1.newDat_received (m : If1) : m.received.NewDat := by
  have hor : (m.mctl ||| ifmctlNewdat) &&& ifmctlNewdat
      = m.mctl &&& ifmctlNewdat ||| ifmctlNewdat := by
    rw [Bytes.or_and_distrib, UInt32.and_self]
  show (m.mctl ||| ifmctlNewdat) &&& ifmctlNewdat ≠ 0
  rw [hor]
  intro hzero
  exact absurd (UInt32.or_eq_zero_iff.mp hzero).2 (by decide)

theorem If1.not_newDat_read (m : If1) : ¬ m.read.NewDat := by
  show ¬ m.mctl &&& ~~~ifmctlNewdat &&& ifmctlNewdat ≠ 0
  rw [UInt32.and_assoc, UInt32.not_and_self, UInt32.and_zero]
  exact not_not.mpr rfl

theorem If1.len_received (m : If1) : m.received.len = m.len := by
  have hmask : (m.mctl ||| ifmctlNewdat) &&& 0b1111 = m.mctl &&& 0b1111 := by
    rw [Bytes.or_and_distrib]
    exact UInt32.or_zero
  exact congrArg UInt32.toUInt8 hmask

theorem If1.view_received (m : If1) : m.received.view = m.view := by
  unfold view
  rw [m.len_received]
  rfl

theorem Dcan.cell_eq_none_iff {c : Dcan} {i : ℕ} : c.cell i = none ↔ ¬ (c.mailbox i).NewDat := by
  simp [cell]

theorem Dcan.cell_of_newDat {c : Dcan} {i : ℕ} (h : (c.mailbox i).NewDat) :
    c.cell i = some (c.mailbox i).view := if_pos h

theorem Dcan.lowestFree_of_firstFree {c : Dcan} {i : ℕ} (h : c.firstFree = some i) :
    Sweep.LowestFree canRxQueueFirstMbox (canMboxLast + 1) c.cell i := by
  obtain ⟨hfree, hmem, hleast⟩ := List.find?_range'_eq_some.mp h
  rw [List.mem_range'_1] at hmem
  have hlt : i < canMboxLast + 1 := by
    simp only [canRxQueueFirstMbox, canMboxLast] at hmem ⊢
    omega
  refine ⟨⟨hmem.1, hlt, cell_eq_none_iff.mpr (by simpa using hfree)⟩, ?_⟩
  intro n hn_mem
  rcases hn_mem with ⟨hn, -, hcell⟩
  by_contra hni
  have hsome := hleast n hn (not_le.mp hni)
  exact absurd (cell_eq_none_iff.mp hcell) (by simpa using hsome)

/-- An arriving message fills a cell. -/
theorem Dcan.cell_arrive {c : Dcan} {i : ℕ} (h : c.firstFree = some i) (m : If1) :
    (c.arrive m).cell = Function.update c.cell i (some m.view) := by
  funext n
  simp only [arrive, h, cell]
  by_cases hn : n = i
  · subst hn
    rw [Function.update_self, Function.update_self, if_pos m.newDat_received, m.view_received]
  · rw [Function.update_of_ne hn, Function.update_of_ne hn]
    rfl

/-- An access empties a cell. -/
theorem cell_canMboxHasData (c : Dcan) {i : ℕ} (hle : i ≤ canMboxLast) :
    (canMboxHasData c i).2.cell = Function.update c.cell i none := by
  funext n
  simp only [canMboxHasData, if_neg (not_lt.mpr hle), Dcan.cell]
  by_cases hn : n = i
  · subst hn
    rw [Function.update_self, Function.update_self, if_neg (c.mailbox n).not_newDat_read]
  · rw [Function.update_of_ne hn, Function.update_of_ne hn]
    rfl

theorem cell_of_hasData {c : Dcan} {i : ℕ} (h : (canMboxHasData c i).1 = true) :
    i ≤ canMboxLast ∧ c.cell i = some (canMboxHasData c i).2.if1.view := by
  unfold canMboxHasData at h ⊢
  split at h
  · cases h
  · next hle =>
    rw [if_neg hle]
    exact ⟨not_lt.mp hle, Dcan.cell_of_newDat (of_decide_eq_true h)⟩

/-- An access that finds no message changes no cell. -/
theorem cell_of_not_hasData {c : Dcan} {i : ℕ} (h : (canMboxHasData c i).1 = false) :
    (canMboxLast < i ∨ c.cell i = none) ∧ (canMboxHasData c i).2.cell = c.cell := by
  by_cases hle : i ≤ canMboxLast
  · have hnone : c.cell i = none := by
      simp only [canMboxHasData, if_neg (not_lt.mpr hle)] at h
      exact Dcan.cell_eq_none_iff.mpr (of_decide_eq_false h)
    refine ⟨.inr hnone, ?_⟩
    rw [cell_canMboxHasData c hle, ← hnone, Function.update_eq_self]
  · simp only [canMboxHasData, if_pos (not_le.mp hle), and_true]
    exact .inl (not_le.mp hle)

/-! ## The invariant -/

/-- The order in which the messages in the mailboxes are going to be read. -/
def MailSystem.pending (s : MailSystem) : List (UInt32 × UInt8 × List UInt8) :=
  Sweep.pending canRxQueueFirstMbox (canMboxLast + 1) s.dcan.cell s.mbox

structure MailSystem.Inv (s : MailSystem) : Prop where
  valid : s.node.handle.Valid
  ordered : ∃ j t, Sweep.Ordered canRxQueueFirstMbox (canMboxLast + 1) s.dcan.cell s.mbox j t
  conserved : s.stored.map CanfdFrame.view ++ s.pending = s.arrived.map If1.view

theorem MailSystem.Inv.inArrivalOrder {s : MailSystem} (h : s.Inv) : s.InArrivalOrder := by
  unfold InArrivalOrder
  rw [← h.conserved]
  exact List.prefix_append _ _

theorem MailSystem.inv_start (mem : Memory) (init : Init) {c : Dcan} (hquiet : c.Quiet) :
    (MailSystem.start mem init c).Inv := by
  have hnone : ∀ n, canRxQueueFirstMbox ≤ n → n < canMboxLast + 1 → c.cell n = none :=
    fun n hn hlt => Dcan.cell_eq_none_iff.mpr (hquiet n hn (Nat.le_of_lt_succ hlt))
  have hpending : Sweep.pending canRxQueueFirstMbox (canMboxLast + 1) c.cell canRxQueueFirstMbox
      = [] := by
    rw [Sweep.pending, Sweep.values_of_none hnone, Sweep.values_self]
    rfl
  exact ⟨initCannelloni_valid init, ⟨_, _, Sweep.ordered_of_none (by decide) hnone⟩, hpending⟩

theorem MailSystem.inv_arrive {s : MailSystem} (h : s.Inv) {m : If1}
    (hfree : s.MailboxFree (.arrive m)) (hnot : s.NotOvertaking (.arrive m)) :
    Inv { s with dcan := s.dcan.arrive m, arrived := s.arrived ++ [m] } := by
  obtain ⟨i, hi⟩ := Option.isSome_iff_exists.mp hfree
  obtain ⟨j, t, hord⟩ := h.ordered
  have hlowest := Dcan.lowestFree_of_firstFree hi
  have hsweep : Sweep.NotOvertaken canRxQueueFirstMbox s.dcan.cell s.mbox := by
    refine hnot.imp id ?_
    intro hpassed
    rcases hpassed with ⟨n, hn, hfirst, hdat⟩
    exact ⟨n, hn, hfirst, Dcan.cell_eq_none_iff.mpr hdat⟩
  refine ⟨h.valid, ?_, ?_⟩
  · show ∃ j t, Sweep.Ordered _ _ (s.dcan.arrive m).cell s.mbox j t
    rw [Dcan.cell_arrive hi]
    exact hord.write hlowest hsweep
  · show _ ++ Sweep.pending _ _ (s.dcan.arrive m).cell s.mbox = _
    rw [Dcan.cell_arrive hi, hord.pending_write hlowest hsweep, ← List.append_assoc,
      List.map_append, ← h.conserved]
    rfl

/-- What one mailbox access can do. -/
theorem MailSystem.access_cases {s s' : MailSystem} (hv : s.node.handle.Valid)
    (hroom : ¬ s.node.handle.rxQueue.Full) (h : s.step .access = .ok s') :
    ((canMboxHasData s.dcan s.mbox).1 = false ∧ s' = s.afterAccess false s.toScan.stop) ∨
    ((canMboxHasData s.dcan s.mbox).1 = true ∧ (canMboxHasData s.dcan s.mbox).2.if1.Fits ∧
      s' = s.afterAccess true s.toScan.store) := by
  obtain ⟨r, hr, hs'⟩ := Run.bind_eq_ok.mp h
  cases hdata : (canMboxHasData s.dcan s.mbox).1 with
  | false =>
    have hstep : scanStep s.toScan = .ok (false, s.toScan.stop) := scanStep_no_data hdata
    rw [hstep] at hr
    cases hr
    cases hs'
    exact .inl ⟨rfl, rfl⟩
  | true =>
    by_cases hfit : (canMboxHasData s.dcan s.mbox).2.if1.Fits
    · have hstep : scanStep s.toScan = .ok (true, s.toScan.store) :=
        scanStep_store (s := s.toScan) hv.rx hdata hroom hfit
      rw [hstep] at hr
      cases hr
      cases hs'
      exact .inr ⟨rfl, hfit, rfl⟩
    · have hstep : scanStep s.toScan = .error (.dataIndex cnlCanfdMaxDlen) :=
        scanStep_error (s := s.toScan) hdata hroom hfit
      rw [hstep] at hr
      cases hr

theorem MailSystem.inv_stop {s : MailSystem} (h : s.Inv)
    (hdata : (canMboxHasData s.dcan s.mbox).1 = false) :
    (s.afterAccess false s.toScan.stop).Inv := by
  obtain ⟨j, t, hord⟩ := h.ordered
  obtain ⟨hnone, hcell⟩ := cell_of_not_hasData hdata
  have hend : s.mbox = canMboxLast + 1 ∨ s.dcan.cell s.mbox = none := by
    refine hnone.imp (fun hlast => ?_) id
    have hle := hord.pos_le.trans hord.le_limit
    omega
  refine ⟨h.valid, ⟨canRxQueueFirstMbox, j, ?_⟩, ?_⟩
  · show Sweep.Ordered _ _ (canMboxHasData s.dcan s.mbox).2.cell canRxQueueFirstMbox _ _
    rw [hcell]
    exact hord.of_none hend
  · show _ ++ Sweep.pending _ _ (canMboxHasData s.dcan s.mbox).2.cell canRxQueueFirstMbox = _
    rw [hcell, hord.pending_of_none hend]
    exact h.conserved

/-- The message moves from the mailboxes to the queue. -/
theorem MailSystem.inv_store {s : MailSystem} (h : s.Inv)
    (hdata : (canMboxHasData s.dcan s.mbox).1 = true)
    (hfit : (canMboxHasData s.dcan s.mbox).2.if1.Fits) :
    (s.afterAccess true s.toScan.store).Inv := by
  obtain ⟨j, t, hord⟩ := h.ordered
  obtain ⟨hle, hcell⟩ := cell_of_hasData hdata
  have hfirst : canRxQueueFirstMbox ≤ s.mbox := hord.first_le.trans hord.le_pos
  have hlt : s.mbox < canMboxLast + 1 := Nat.lt_succ_of_le hle
  have hread := cell_canMboxHasData s.dcan hle
  refine ⟨h.valid.of_rxQueue rfl rfl h.valid.rx.push rfl rfl, ⟨j, t, ?_⟩, ?_⟩
  · show Sweep.Ordered _ _ (canMboxHasData s.dcan s.mbox).2.cell (s.mbox + 1) _ _
    rw [hread]
    exact hord.of_some hlt hcell
  · have hconserved : s.stored.map CanfdFrame.view ++ Sweep.pending canRxQueueFirstMbox
        (canMboxLast + 1) s.dcan.cell s.mbox = s.arrived.map If1.view := h.conserved
    show (s.stored ++ [(canMboxHasData s.dcan s.mbox).2.if1.frame _]).map CanfdFrame.view
      ++ Sweep.pending _ _ (canMboxHasData s.dcan s.mbox).2.cell (s.mbox + 1) = _
    rw [Sweep.pending_of_some hfirst hlt hcell] at hconserved
    rw [hread, List.map_append, List.map_singleton, List.append_assoc, List.singleton_append,
      If1.frame_view hfit]
    exact hconserved

theorem MailSystem.inv_step {s s' : MailSystem} {e : MailEvent} (h : s.Inv)
    (hfree : s.MailboxFree e) (hroom : s.QueueRoom e) (hnot : s.NotOvertaking e)
    (hs' : s.step e = .ok s') : s'.Inv := by
  cases e with
  | arrive m =>
    cases hs'
    exact MailSystem.inv_arrive h hfree hnot
  | access =>
    rcases MailSystem.access_cases h.valid hroom hs' with ⟨hdata, rfl⟩ | ⟨hdata, hfit, rfl⟩
    · exact MailSystem.inv_stop h hdata
    · exact MailSystem.inv_store h hdata hfit
  | transmitUdpFrame spill pbuf =>
    cases hs'
    exact ⟨transmitUdpFrame_valid spill pbuf h.valid, h.ordered, h.conserved⟩

/-! ## Accesses make up a call -/

/-- The frames stored before do not matter to an access. -/
theorem scanStep_stored_append (fs : List CanfdFrame) (s : Scan) :
    scanStep { s with stored := fs ++ s.stored }
      = (scanStep s).map (Prod.map id fun t => { t with stored := fs ++ t.stored }) := by
  rcases hmbox : canMboxHasData s.dcan s.mbox with ⟨_ | _, dcan⟩
  · simp [scanStep, hmbox, Except.map]
  · rcases hslot : getCanRxFrame s.node.handle with ⟨_ | slot, handle⟩
    · simp [scanStep, hmbox, hslot, Except.map]
    · cases hfill : canFillRxMbox dcan.if1 (s.node.mem slot) <;>
        simp [scanStep, hmbox, hslot, hfill, Except.map, bind, Except.bind, pure, Except.pure]

/-- A scan that goes on looks at the next mailbox. -/
theorem mbox_of_scanStep {s t : Scan} (h : scanStep s = .ok (true, t)) : t.mbox = s.mbox + 1 := by
  unfold scanStep at h
  rcases hmbox : canMboxHasData s.dcan s.mbox with ⟨_ | _, dcan⟩
  · simp [hmbox] at h
  · rcases hslot : getCanRxFrame s.node.handle with ⟨_ | slot, handle⟩
    · simp [hmbox, hslot] at h
    · simp only [hmbox, hslot, if_true] at h
      obtain ⟨frame, -, ht⟩ := Run.bind_eq_ok.mp h
      cases ht
      rfl

theorem exec_arrivals (s : MailSystem) (ms : List If1) :
    Run.exec MailSystem.step s (ms.map MailEvent.arrive)
      = .ok { s with dcan := ms.foldl Dcan.arrive s.dcan, arrived := s.arrived ++ ms } := by
  induction ms generalizing s with
  | nil => simp
  | cons m ms ih =>
    have hstep : s.step (.arrive m)
        = .ok { s with dcan := s.dcan.arrive m, arrived := s.arrived ++ [m] } := rfl
    rw [List.map_cons, Run.exec_cons_ok hstep, ih]
    simp

/-- Some arrivals and an access are one pass of the loop. -/
theorem exec_pass {ms : List If1} {s : MailSystem} {u u' : Scan} {fs : List CanfdFrame} {go : Bool}
    (hs : s.toScan = { u with stored := fs ++ u.stored })
    (hstep : scanStep { u with dcan := ms.foldl Dcan.arrive u.dcan } = .ok (go, u'))
    (events : List MailEvent) :
    Run.exec MailSystem.step s (ms.map MailEvent.arrive ++ .access :: events)
      = Run.exec MailSystem.step ⟨u'.dcan, u'.node, if go then some u'.mbox else none,
          s.arrived ++ ms, fs ++ u'.stored⟩ events := by
  set s₁ : MailSystem := { s with
    dcan := ms.foldl Dcan.arrive s.dcan, arrived := s.arrived ++ ms } with hs₁
  have hscan : s₁.toScan = { u with
      dcan := ms.foldl Dcan.arrive u.dcan, stored := fs ++ u.stored } := by
    have hdcan : s.dcan = u.dcan := congrArg Scan.dcan hs
    show ({ s.toScan with dcan := ms.foldl Dcan.arrive s.dcan } : Scan) = _
    rw [hs, hdcan]
  have happ := scanStep_stored_append fs { u with dcan := ms.foldl Dcan.arrive u.dcan }
  have haccess : s₁.step .access
      = .ok (s₁.afterAccess go { u' with stored := fs ++ u'.stored }) := by
    simp only [MailSystem.step, hscan]
    rw [happ, hstep]
    rfl
  rw [Run.exec_append, exec_arrivals]
  exact Run.exec_cons_ok haccess events

/-- The access behind the last mailbox ends the scan. -/
theorem access_behind_last {s : MailSystem} (hlast : canMboxLast < s.mbox) :
    s.step .access = .ok (s.afterAccess false s.toScan) := by
  have hdata : canMboxHasData s.dcan s.mbox = (false, s.dcan) := by
    simp only [canMboxHasData, if_pos hlast]
  have hstep : scanStep s.toScan = .ok (false, s.toScan.stop) :=
    scanStep_no_data (s := s.toScan) (congrArg Prod.fst hdata)
  have hstop : s.toScan.stop = s.toScan := by
    show ({ s.toScan with dcan := (canMboxHasData s.dcan s.mbox).2 } : Scan) = _
    rw [hdata]
    rfl
  simp only [MailSystem.step, hstep, hstop]
  rfl

/-- The accesses of a scan, with the messages `arrivals m` arriving before the access to
mailbox `m`, are the loop of `on_can_receive`. -/
theorem exec_eq_scanLoop (arrivals : ℕ → List If1) {fuel : ℕ} {s : MailSystem} {u t : Scan}
    {fs : List CanfdFrame} (hs : s.toScan = { u with stored := fs ++ u.stored })
    (hfuel : canMboxLast < u.mbox + fuel)
    (h : scanLoop (fun m c => (arrivals m).foldl Dcan.arrive c) fuel u = .ok t) :
    ∃ events arrived, Run.exec MailSystem.step s events
      = .ok ⟨t.dcan, t.node, none, arrived, fs ++ t.stored⟩ := by
  induction fuel generalizing s u with
  | zero =>
    cases h
    have hlast : canMboxLast < s.mbox := by
      have hmbox : s.mbox = t.mbox := congrArg Scan.mbox hs
      omega
    refine ⟨[.access], s.arrived, ?_⟩
    rw [Run.exec_cons_ok (access_behind_last hlast), hs]
    rfl
  | succ fuel ih =>
    obtain ⟨⟨go, u'⟩, hstep, hrest⟩ := Run.bind_eq_ok.mp h
    have hexec := exec_pass hs hstep
    cases go with
    | false =>
      cases hrest
      exact ⟨_, _, hexec []⟩
    | true =>
      have hmbox := mbox_of_scanStep hstep
      simp only at hmbox
      obtain ⟨events, arrived, hrun⟩ := ih (u := u')
        (s := ⟨u'.dcan, u'.node, some u'.mbox, s.arrived ++ arrivals u.mbox, fs ++ u'.stored⟩)
        rfl (by omega) hrest
      exact ⟨_, arrived, (hexec events).trans hrun⟩

/-- Every call of `on_can_receive` is a run of accesses and arrivals. -/
theorem exec_eq_onCanReceive (arrivals : ℕ → List If1) {s : MailSystem} {t : Scan}
    (hidle : s.scan = none)
    (h : onCanReceive (fun m c => (arrivals m).foldl Dcan.arrive c) s.dcan s.node = .ok t) :
    ∃ events arrived, Run.exec MailSystem.step s events
      = .ok ⟨t.dcan, t.node, none, arrived, s.stored ++ t.stored⟩ := by
  refine exec_eq_scanLoop arrivals ?_ (show 64 < 2 + 64 by omega) h
  simp [MailSystem.toScan, MailSystem.mbox, hidle]

/-! ## Messages that fit a frame -/

/-- The messages in the receive mailboxes fit a frame. -/
def MailSystem.AllFit (s : MailSystem) : Prop :=
  ∀ i, canRxQueueFirstMbox ≤ i → i ≤ canMboxLast → (s.dcan.mailbox i).NewDat →
    (s.dcan.mailbox i).Fits

/-- An arriving message fits a frame. -/
def MailEvent.Fits : MailEvent → Prop
  | .arrive m => m.Fits
  | _ => True

instance MailEvent.decidableFits (e : MailEvent) : Decidable e.Fits :=
  match e with
  | .arrive m => inferInstanceAs (Decidable m.Fits)
  | .access => inferInstanceAs (Decidable True)
  | .transmitUdpFrame _ _ => inferInstanceAs (Decidable True)

theorem MailSystem.AllFit.arrive {s : MailSystem} (h : s.AllFit) {m : If1} (hm : m.Fits) :
    AllFit { s with dcan := s.dcan.arrive m, arrived := s.arrived ++ [m] } := by
  have hreceived : m.received.Fits := by
    unfold If1.Fits
    rw [m.len_received]
    exact hm
  intro i hfirst hlast
  simp only [Dcan.arrive]
  cases s.dcan.firstFree with
  | none => exact h i hfirst hlast
  | some f =>
    by_cases hi : i = f
    · subst hi
      simp only [Function.update_self]
      exact fun _ => hreceived
    · simp only [Function.update_of_ne hi]
      exact h i hfirst hlast

/-- An access leaves every mailbox as it is, or read. -/
theorem MailSystem.AllFit.access {s : MailSystem} (h : s.AllFit) {go : Bool} {t : Scan}
    (ht : t.dcan = (canMboxHasData s.dcan s.mbox).2) : (s.afterAccess go t).AllFit := by
  intro i hfirst hlast
  show (t.dcan.mailbox i).NewDat → (t.dcan.mailbox i).Fits
  rw [ht]
  unfold canMboxHasData
  split
  · exact h i hfirst hlast
  · by_cases hi : i = s.mbox
    · subst hi
      simp only [Function.update_self]
      exact fun hdat => absurd hdat (If1.not_newDat_read _)
    · simp only [Function.update_of_ne hi]
      exact h i hfirst hlast

theorem MailSystem.AllFit.exists_step {s : MailSystem} {e : MailEvent} (h : s.AllFit)
    (hinv : s.Inv) (hroom : s.QueueRoom e) (he : e.Fits) : ∃ s', s.step e = .ok s' ∧ s'.AllFit := by
  cases e with
  | arrive m => exact ⟨_, rfl, h.arrive he⟩
  | transmitUdpFrame spill pbuf => exact ⟨_, rfl, h⟩
  | access =>
    have haccess : ∀ {go : Bool} {t : Scan}, scanStep s.toScan = .ok (go, t) →
        s.step .access = .ok (s.afterAccess go t) := by
      intro go t ht
      simp only [step, ht]
      rfl
    cases hdata : (canMboxHasData s.dcan s.mbox).1 with
    | false => exact ⟨_, haccess (scanStep_no_data (s := s.toScan) hdata), h.access rfl⟩
    | true =>
      obtain ⟨j, t, hord⟩ := hinv.ordered
      have hfirst : canRxQueueFirstMbox ≤ s.mbox := hord.first_le.trans hord.le_pos
      have hfit : (canMboxHasData s.dcan s.mbox).2.if1.Fits := by
        unfold canMboxHasData at hdata ⊢
        split at hdata
        · cases hdata
        · next hle =>
          rw [if_neg hle]
          exact h s.mbox hfirst (not_lt.mp hle) (of_decide_eq_true hdata)
      exact ⟨_, haccess (scanStep_store (s := s.toScan) hinv.valid.rx hdata hroom hfit),
        h.access rfl⟩

/-! ## Whole runs -/

/-- As long as no message arrives while every mailbox that the running scan passed is taken
again, the frames put into `rx_queue` are, in order, the first of the messages that arrived, in
every state of the run; and when the messages fit a frame, the run gets to its end. -/
theorem inArrivalOrder_of_notOvertaking (mem : Memory) (init : Init) {c : Dcan} (hquiet : c.Quiet)
    (events : List MailEvent)
    (hfree : Run.Along MailSystem.step MailSystem.MailboxFree (.start mem init c) events)
    (hroom : Run.Along MailSystem.step MailSystem.QueueRoom (.start mem init c) events)
    (hnot : Run.Along MailSystem.step MailSystem.NotOvertaking (.start mem init c) events)
    (k : ℕ) :
    (∀ s, Run.exec MailSystem.step (.start mem init c) (events.take k) = .ok s →
      s.InArrivalOrder) ∧
    ((∀ e ∈ events, e.Fits) →
      ∃ s, Run.exec MailSystem.step (.start mem init c) (events.take k) = .ok s) := by
  have hcond := ((hfree.and hroom).and hnot).take k
  have hinv : (MailSystem.start mem init c).Inv := MailSystem.inv_start mem init hquiet
  constructor
  · intro s hs
    refine MailSystem.Inv.inArrivalOrder ?_
    refine Run.inv_of_exec (fun s e s' hinv hc hs' => ?_) hinv hcond hs
    exact MailSystem.inv_step hinv hc.1.1 hc.1.2 hc.2 hs'
  · intro hfits
    have hfit : (MailSystem.start mem init c).AllFit :=
      fun i hfirst hlast hdat => absurd hdat (hquiet i hfirst hlast)
    have hevents : ∀ e ∈ events.take k, e.Fits := fun e he => hfits e (List.mem_of_mem_take he)
    have hstep : ∀ (s : MailSystem) (e : MailEvent), s.Inv ∧ s.AllFit →
        ((s.MailboxFree e ∧ s.QueueRoom e) ∧ s.NotOvertaking e) ∧ e.Fits →
        ∃ s', s.step e = .ok s' ∧ s'.Inv ∧ s'.AllFit := by
      intro s e hs hc
      rcases hs with ⟨hinv, hfit⟩
      rcases hc with ⟨⟨⟨hfree, hroom⟩, hnot⟩, he⟩
      obtain ⟨s', hs', hfit'⟩ := hfit.exists_step hinv hroom he
      exact ⟨s', hs', MailSystem.inv_step hinv hfree hroom hnot hs', hfit'⟩
    obtain ⟨s, hs, -⟩ := Run.exec_of_along hstep ⟨hinv, hfit⟩
      (hcond.and (Run.along_of_forall hevents _))
    exact ⟨s, hs⟩

instance MailSystem.decidableInArrivalOrder (s : MailSystem) : Decidable s.InArrivalOrder :=
  inferInstanceAs (Decidable (_ <+: _))

/-- A message with a standard identifier and no data. -/
def If1.short (id : UInt32) : If1 := ⟨id <<< 18, 0, Vector.replicate _ 0⟩

/-- A message that arrives in the middle of a scan waits for the next one. -/
theorem inArrivalOrder_second_scan :
    let events : List MailEvent :=
      [.arrive (.short 1), .access, .arrive (.short 2), .access, .access, .access]
    ∃ s, Run.exec MailSystem.step (.start zeroMemory (mainInit 0 0) .idle) events = .ok s ∧
      s.InArrivalOrder ∧ s.stored.map CanfdFrame.view = [(1, 0, []), (2, 0, [])] := by
  intro events
  have h := inArrivalOrder_of_notOvertaking zeroMemory (mainInit 0 0) Dcan.idle_quiet events
    (by decide +kernel) (by decide +kernel) (by decide +kernel) 6
  obtain ⟨s, hs⟩ := h.2 (by decide)
  refine ⟨s, hs, h.1 s hs, ?_⟩
  have hviews : (Run.exec MailSystem.step (.start zeroMemory (mainInit 0 0) .idle) events).map
      (fun s => s.stored.map CanfdFrame.view) = .ok [(1, 0, []), (2, 0, [])] := by decide +kernel
  have hs₆ : Run.exec MailSystem.step (.start zeroMemory (mainInit 0 0) .idle) events = .ok s := hs
  rw [hs₆] at hviews
  exact Except.ok.inj hviews

/-- After the first message was read from mailbox 2, the second gets mailbox 2 and the third
gets mailbox 3, where the scan reads it first. -/
theorem not_inArrivalOrder :
    let events : List MailEvent :=
      [.arrive (.short 1), .access, .arrive (.short 2), .arrive (.short 3), .access]
    let start : MailSystem := .start zeroMemory (mainInit 0 0) .idle
    Dcan.idle.Quiet ∧ Run.Along MailSystem.step MailSystem.MailboxFree start events ∧
      Run.Along MailSystem.step MailSystem.QueueRoom start events ∧
      ∃ s, Run.exec MailSystem.step start events = .ok s ∧ ¬ s.InArrivalOrder := by
  intro events start
  refine ⟨Dcan.idle_quiet, by decide +kernel, by decide +kernel, ?_⟩
  have horder : (Run.exec MailSystem.step start events).map (fun s => decide s.InArrivalOrder)
      = .ok false := by decide +kernel
  cases hexec : Run.exec MailSystem.step start events with
  | error x =>
    rw [hexec] at horder
    cases horder
  | ok s =>
    rw [hexec] at horder
    exact ⟨s, rfl, of_decide_eq_false (Except.ok.inj horder)⟩

end Cannelloni
