import Cannelloni.Gateway
import Cannelloni.Grammar
import Cannelloni.MailboxWrite

/-!
# What goes onto the bus

`transmit_can_frames` with `on_can_transmit` for `can_tx_fn`: one handle, the registers of its
controller, and the register values programmed so far. Slots of `tx_queue` are never cleared,
`handle_cannelloni_frame` stores data only for data records, and `can_send` copies as many data
bytes as the length says for every frame. `sameOnBus_iff` says for which datagrams two runs
with different pasts program the same values.
-/

namespace Cannelloni

/-! ## The code -/

/-- What a frame looks like in the registers: arbitration, message control, and the data bytes
below the length code in the order of the bus. -/
structure BusImage where
  arb : UInt32
  mctl : UInt32
  data : List UInt8
deriving DecidableEq, Repr

/-- The image in the `IF1` registers after a frame of `dlc` bytes was programmed. -/
def If1.image (m : If1) (dlc : ℕ) : BusImage := ⟨m.arb, m.mctl, (List.range dlc).map m.dataByte⟩

/-- What a call of `transmit_can_frames` leaves: the queue, the registers, and (ghost) the
images programmed. -/
structure Sent where
  txQueue : FramesQueue
  reg : CanReg
  images : List BusImage

/-- The `while` loop. `hw` is what happened to the registers before each attempt. A frame that
was taken leaves the queue, so as many passes as the queue has frames are enough. -/
def sendLoop (mem : Memory) (hw : ℕ → CanReg → CanReg) :
    ℕ → CanReg → FramesQueue → Except CanFault Sent
  | 0, r, q => .ok ⟨q, r, []⟩
  | fuel + 1, r, q =>
    match queuePeek q with
    | none => .ok ⟨q, r, []⟩
    | some slot => do
      let (taken, r) ← onCanTransmit (hw fuel r) (mem slot)
      if taken then
        let (_, q) := queueTake q
        let rest ← sendLoop mem hw fuel r q
        return { rest with images := r.if1.image (mem slot).len.toNat :: rest.images }
      else return ⟨q, r, []⟩

/-- `transmit_can_frames` with `on_can_transmit`. -/
def sendCanFrames (hw : ℕ → CanReg → CanReg) (r : CanReg) (n : Node) : Except CanFault Sent :=
  if n.handle.init.canTxFn then sendLoop n.mem hw n.handle.txQueue.count r n.handle.txQueue
  else .ok ⟨n.handle.txQueue, r, []⟩

/-! ## The image of a frame -/

/-- The image of a queued frame, whatever the registers held before. -/
def CanfdFrame.image (f : CanfdFrame) : BusImage :=
  ⟨arbOf f.canId, mctlOf f.len, (List.range f.len.toNat).map f.byteAt⟩

theorem onCanTransmit_cases {r r' : CanReg} {f : CanfdFrame} {taken : Bool}
    (h : onCanTransmit r f = .ok (taken, r')) :
    taken = false ∨ taken = true ∧ f.len.toNat ≤ 8 ∧ r'.if1.image f.len.toNat = f.image := by
  by_cases hbusy : r.Busy
  · unfold onCanTransmit at h
    rw [canSend_busy hbusy] at h
    exact .inl (Prod.mk.inj (Except.ok.inj h)).1.symm
  · right
    by_cases hlen : f.len.toNat ≤ 8
    · unfold onCanTransmit at h
      rw [canSend_free hbusy hlen] at h
      obtain ⟨rfl, rfl⟩ := Prod.mk.inj (Except.ok.inj h)
      refine ⟨rfl, hlen, ?_⟩
      have hdata : ∀ i ∈ List.range f.len.toNat,
          (r.if1.programmed f.canId f.len f.byteAt).dataByte i = f.byteAt i := by
        intro i hi
        have hi' := List.mem_range.mp hi
        exact If1.dataByte_loaded _ _ hi' (by omega)
      unfold If1.image CanfdFrame.image
      rw [List.map_congr_left hdata]
      rfl
    · unfold onCanTransmit at h
      rw [canSend_error hbusy (by omega)] at h
      cases h

/-- The loop takes frames from the front of the queue and programs their images in order. -/
theorem sendLoop_spec {mem : Memory} {hw : ℕ → CanReg → CanReg} {fuel : ℕ} {r : CanReg}
    {q : FramesQueue} (hv : q.Valid) {o : Sent} (h : sendLoop mem hw fuel r q = .ok o) :
    ∃ fs, Taken mem q fs o.txQueue ∧ o.images = fs.map CanfdFrame.image := by
  induction fuel generalizing r q o with
  | zero =>
    obtain rfl := Except.ok.inj h
    exact ⟨[], Taken.refl hv, rfl⟩
  | succ fuel ih =>
    rw [sendLoop] at h
    by_cases he : q.Empty
    · simp only [queuePeek_of_empty he] at h
      obtain rfl := Except.ok.inj h
      exact ⟨[], Taken.refl hv, rfl⟩
    · simp only [queuePeek_of_not_empty he, queueTake_of_not_empty he] at h
      obtain ⟨⟨taken, r'⟩, hsend, h⟩ := Run.bind_eq_ok.mp h
      rcases onCanTransmit_cases hsend with rfl | ⟨rfl, -, himage⟩
      · obtain rfl := Except.ok.inj h
        exact ⟨[], Taken.refl hv, rfl⟩
      · obtain ⟨rest, hrest, h⟩ := Run.bind_eq_ok.mp h
        obtain rfl := Except.ok.inj h
        obtain ⟨fs, htaken, himages⟩ := ih hv.pop hrest
        refine ⟨mem ⟨q.frames, q.head⟩ :: fs, ((Taken.refl hv).snoc he).trans htaken, ?_⟩
        simp only [List.map_cons, himages, himage]

/-- A mailbox that is free at every attempt takes all frames. -/
theorem sendLoop_free {mem : Memory} (hw : ℕ → CanReg → CanReg) (hfree : ∀ k r, ¬ (hw k r).Busy)
    {fuel : ℕ} (r : CanReg) {q : FramesQueue} (hv : q.Valid)
    (hfuel : (q.contents mem).length ≤ fuel) (hlen : ∀ f ∈ q.contents mem, f.len.toNat ≤ 8) :
    ∃ o, sendLoop mem hw fuel r q = .ok o ∧
      o.images = (q.contents mem).map CanfdFrame.image := by
  induction fuel generalizing r q with
  | zero =>
    have hnil : q.contents mem = [] := List.length_eq_zero_iff.mp (Nat.le_zero.mp hfuel)
    exact ⟨⟨q, r, []⟩, rfl, by rw [hnil]; rfl⟩
  | succ fuel ih =>
    rw [sendLoop]
    by_cases he : q.Empty
    · simp only [queuePeek_of_empty he]
      exact ⟨⟨q, r, []⟩, rfl, by rw [contents_of_empty hv he]; rfl⟩
    · simp only [queuePeek_of_not_empty he, queueTake_of_not_empty he]
      rw [contents_of_not_empty hv he] at hfuel hlen ⊢
      have hsend : ∃ r', onCanTransmit (hw fuel r) (mem ⟨q.frames, q.head⟩) = .ok (true, r') :=
        ⟨_, canSend_free (hfree fuel r) (hlen _ List.mem_cons_self)⟩
      obtain ⟨r', hsend⟩ := hsend
      have himage := ((onCanTransmit_cases hsend).resolve_left (by simp)).2.2
      obtain ⟨o, ho, himages⟩ := ih r' hv.pop (Nat.le_of_succ_le_succ hfuel)
        fun f hf => hlen f (List.mem_cons_of_mem _ hf)
      refine ⟨⟨o.txQueue, o.reg, r'.if1.image (mem ⟨q.frames, q.head⟩).len.toNat :: o.images⟩,
        ?_, ?_⟩
      · rw [hsend]
        show (sendLoop mem hw fuel r' q.pop >>= _) = _
        rw [ho]
        rfl
      · rw [himages, himage, List.map_cons]

/-! ## The system -/

/-- A handle with its controller, and (ghost) the frames accepted from the network and the
images programmed so far. -/
structure BusSystem where
  node : Node
  reg : CanReg
  accepted : List CanfdFrame
  images : List BusImage

/-- The calls of a handle's entry points. -/
inductive BusEvent
  | handleCannelloniFrame (p : PbufChain)
  | sendCanFrames (hw : ℕ → CanReg → CanReg)
  | onCanReceive (hw : ℕ → Dcan → Dcan) (c : Dcan)
  | transmitUdpFrame (spill : Slot → ℕ → UInt8) (pbuf : Option (ℕ → UInt8))

/-- The state after `init_cannelloni`. -/
def BusSystem.start (mem : Memory) (init : Init) (reg : CanReg) : BusSystem :=
  ⟨⟨mem, initCannelloni init⟩, reg, [], []⟩

def BusSystem.step (s : BusSystem) : BusEvent → Except (Fault ⊕ CanFault) BusSystem
  | .handleCannelloniFrame p =>
    match Cannelloni.handleCannelloniFrame s.node (some p) with
    | .error e => .error (.inl e)
    | .ok o => .ok { s with node := o.node, accepted := s.accepted ++ o.stored }
  | .sendCanFrames hw =>
    match Cannelloni.sendCanFrames hw s.reg s.node with
    | .error e => .error (.inr e)
    | .ok o => .ok { s with
        node := { s.node with handle := { s.node.handle with txQueue := o.txQueue } }
        reg := o.reg
        images := s.images ++ o.images }
  | .onCanReceive hw c =>
    match Cannelloni.onCanReceive hw c s.node with
    | .error e => .error (.inl e)
    | .ok o => .ok { s with node := o.node }
  | .transmitUdpFrame spill pbuf =>
    .ok { s with node := (Cannelloni.transmitUdpFrame spill pbuf s.node).node }

/-- The images programmed are those of the first accepted frames, and the others wait in
`tx_queue`. -/
structure BusSystem.Inv (s : BusSystem) : Prop where
  valid : s.node.handle.Valid
  sent : ∃ done, s.accepted = done ++ s.node.txFrames ∧ s.images = done.map CanfdFrame.image

theorem BusSystem.inv_start (mem : Memory) (init : Init) (reg : CanReg) :
    (start mem init reg).Inv where
  valid := initCannelloni_valid init
  sent := ⟨[], rfl, rfl⟩

section Step

variable {s s' : BusSystem}

/-- An event that leaves `tx_queue` alone keeps the invariant. -/
theorem BusSystem.Inv.of_txFrames {n : Node} (h : s.Inv) (hv : n.handle.Valid)
    (htx : n.txFrames = s.node.txFrames) : BusSystem.Inv { s with node := n } := by
  obtain ⟨done, haccepted, himages⟩ := h.sent
  refine ⟨hv, done, ?_, himages⟩
  show s.accepted = done ++ n.txFrames
  rw [htx, haccepted]

theorem transmitUdpFrame_txFrames (spill : Slot → ℕ → UInt8) (pbuf : Option (ℕ → UInt8)) {n : Node}
    (hv : n.handle.Valid) : (transmitUdpFrame spill pbuf n).node.txFrames = n.txFrames := by
  by_cases he : n.handle.rxQueue.Empty
  · rw [transmitUdpFrame_of_empty spill pbuf he]
  · cases pbuf with
    | none => rw [transmitUdpFrame_of_alloc_failed]
    | some payload => exact (transmitUdpFrame_sent spill hv he payload).txFrames_eq

/-- What a datagram does to the system. -/
theorem BusSystem.inv_datagram {p : PbufChain} (h : s.Inv)
    (hstep : s.step (.handleCannelloniFrame p) = .ok s') :
    s'.Inv ∧ ∃ o, Cannelloni.handleCannelloniFrame s.node (some p) = .ok o ∧ Stores s.node p o ∧
      s'.accepted = s.accepted ++ o.stored := by
  simp only [step] at hstep
  cases ho : Cannelloni.handleCannelloniFrame s.node (some p) with
  | error e =>
    rw [ho] at hstep
    cases hstep
  | ok o =>
    rw [ho] at hstep
    obtain rfl := Except.ok.inj hstep
    obtain ⟨-, hstores⟩ := stores_of_ok h.valid.tx ho
    obtain ⟨done, haccepted, himages⟩ := h.sent
    refine ⟨⟨hstores.valid h.valid, done, ?_, himages⟩, o, rfl, hstores, rfl⟩
    show s.accepted ++ o.stored = done ++ o.node.txFrames
    rw [hstores.txFrames_eq, haccepted, List.append_assoc]

theorem BusSystem.inv_send {hw : ℕ → CanReg → CanReg} (h : s.Inv)
    (hstep : s.step (.sendCanFrames hw) = .ok s') : s'.Inv ∧ s'.accepted = s.accepted := by
  simp only [step] at hstep
  cases ho : Cannelloni.sendCanFrames hw s.reg s.node with
  | error e =>
    rw [ho] at hstep
    cases hstep
  | ok o =>
    rw [ho] at hstep
    obtain rfl := Except.ok.inj hstep
    have htaken : ∃ fs, Taken s.node.mem s.node.handle.txQueue fs o.txQueue ∧
        o.images = fs.map CanfdFrame.image := by
      unfold Cannelloni.sendCanFrames at ho
      split at ho
      · exact sendLoop_spec h.valid.tx ho
      · obtain rfl := Except.ok.inj ho
        exact ⟨[], Taken.refl h.valid.tx, rfl⟩
    obtain ⟨fs, htaken, hfs⟩ := htaken
    obtain ⟨done, haccepted, himages⟩ := h.sent
    refine ⟨⟨?_, done ++ fs, ?_, ?_⟩, rfl⟩
    · exact h.valid.of_txQueue rfl rfl htaken.valid htaken.frames_eq htaken.count_eq
    · have hcontents : s.node.txFrames = fs ++ o.txQueue.contents s.node.mem := htaken.contents_eq
      show s.accepted = done ++ fs ++ o.txQueue.contents s.node.mem
      rw [haccepted, hcontents, List.append_assoc]
    · show s.images ++ o.images = (done ++ fs).map CanfdFrame.image
      rw [himages, hfs, List.map_append]

/-- Every event keeps the invariant, and accepted frames are never taken back. -/
theorem BusSystem.inv_step {e : BusEvent} (h : s.Inv) (hstep : s.step e = .ok s') :
    s'.Inv ∧ s.accepted <+: s'.accepted := by
  cases e with
  | handleCannelloniFrame p =>
    obtain ⟨hinv, o, -, -, haccepted⟩ := BusSystem.inv_datagram h hstep
    exact ⟨hinv, by rw [haccepted]; exact List.prefix_append _ _⟩
  | sendCanFrames hw =>
    obtain ⟨hinv, haccepted⟩ := BusSystem.inv_send h hstep
    exact ⟨hinv, by simp only [haccepted, List.prefix_refl]⟩
  | onCanReceive hw c =>
    simp only [step] at hstep
    cases ho : Cannelloni.onCanReceive hw c s.node with
    | error e =>
      rw [ho] at hstep
      cases hstep
    | ok o =>
      rw [ho] at hstep
      obtain rfl := Except.ok.inj hstep
      obtain ⟨-, hreads⟩ := reads_of_ok h.valid.rx ho
      exact ⟨h.of_txFrames (hreads.valid h.valid) (hreads.txFrames_eq h.valid),
        List.prefix_refl _⟩
  | transmitUdpFrame spill pbuf =>
    obtain rfl := Except.ok.inj hstep
    exact ⟨h.of_txFrames (transmitUdpFrame_valid spill pbuf h.valid)
      (transmitUdpFrame_txFrames spill pbuf h.valid), List.prefix_refl _⟩

end Step

/-- A run keeps the invariant, and accepted frames are never taken back. -/
theorem BusSystem.inv_exec {s s' : BusSystem} {es : List BusEvent} (h : s.Inv)
    (hexec : Run.exec BusSystem.step s es = .ok s') : s'.Inv ∧ s.accepted <+: s'.accepted := by
  induction es generalizing s with
  | nil =>
    obtain rfl := Except.ok.inj hexec
    exact ⟨h, List.prefix_refl _⟩
  | cons e es ih =>
    obtain ⟨t, ht, hrest⟩ := Run.bind_eq_ok.mp hexec
    obtain ⟨hinv, hpre⟩ := BusSystem.inv_step h ht
    obtain ⟨hinv', hpre'⟩ := ih hinv hrest
    exact ⟨hinv', hpre.trans hpre'⟩

/-- What was programmed for an accepted frame is its image. -/
theorem BusSystem.Inv.image_of_getElem {s : BusSystem} (h : s.Inv) {k : ℕ} {a : BusImage}
    (ha : s.images[k]? = some a) : ∃ f, s.accepted[k]? = some f ∧ a = f.image := by
  obtain ⟨done, haccepted, himages⟩ := h.sent
  rw [himages, List.getElem?_map] at ha
  obtain ⟨f, hf, rfl⟩ := Option.map_eq_some_iff.mp ha
  refine ⟨f, ?_, rfl⟩
  have hlt : k < done.length := (List.getElem?_eq_some_iff.mp hf).1
  rw [haccepted, List.getElem?_append_left hlt, hf]

/-! ## Two runs -/

/-- The system can get into this state. -/
def BusSystem.Reachable (s : BusSystem) : Prop :=
  ∃ mem init reg es, Run.exec BusSystem.step (BusSystem.start mem init reg) es = .ok s

theorem BusSystem.Reachable.inv {s : BusSystem} (h : s.Reachable) : s.Inv := by
  obtain ⟨mem, init, reg, es, hexec⟩ := h
  exact (BusSystem.inv_exec (BusSystem.inv_start mem init reg) hexec).1

/-- Whatever happened before, and whatever happens afterwards: two runs that accept the
datagram `d` with `k` free slots program the same values for each of its frames. The memory
behind the datagram may differ, too. -/
def SameOnBus (d : List UInt8) (hd : d.length ≤ maxUdpPayload) (k : ℕ) : Prop :=
  ∀ s₁ s₂ : BusSystem, s₁.Reachable → s₂.Reachable →
    s₁.node.handle.txQueue.free = k → s₂.node.handle.txQueue.free = k →
    ∀ (spare₁ spare₂ : ℕ → UInt8) (t₁ t₂ : BusSystem),
      s₁.step (.handleCannelloniFrame (.contiguous d spare₁ hd)) = .ok t₁ →
      s₂.step (.handleCannelloniFrame (.contiguous d spare₂ hd)) = .ok t₂ →
      ∀ (es₁ es₂ : List BusEvent) (u₁ u₂ : BusSystem), Run.exec BusSystem.step t₁ es₁ = .ok u₁ →
        Run.exec BusSystem.step t₂ es₂ = .ok u₂ →
        ∀ i a b, s₁.accepted.length + i < t₁.accepted.length →
          u₁.images[s₁.accepted.length + i]? = some a →
          u₂.images[s₂.accepted.length + i]? = some b → a = b

/-- The records of a datagram that are stored when the queue has `k` free slots. -/
def acceptedRecords (d : List UInt8) (k : ℕ) : List (UInt32 × UInt8 × UInt8 × List UInt8) :=
  if HeaderOk d then (parseRecords (headerCount d) (d.drop 5)).take k else []

/-- The records carry no CAN FD bit and announce at most eight bytes. -/
structure ClassicDatagram (d : List UInt8) : Prop where
  not_fd : ∀ h ∈ parseHeaders (headerCount d) (d.drop 5), ¬ IsFd h.2.1
  dlc_le : ∀ x ∈ parseRecords (headerCount d) (d.drop 5), dlcOf x.2.1 ≤ cnlCanfdMaxDlen

section Datagram

variable {d : List UInt8} {hd : d.length ≤ maxUdpPayload} {k : ℕ}

theorem ClassicDatagram.of_mem (h : ClassicDatagram d)
    {x : UInt32 × UInt8 × UInt8 × List UInt8} (hx : x ∈ acceptedRecords d k) :
    ¬ IsFd x.2.1 ∧ dlcOf x.2.1 ≤ cnlCanfdMaxDlen := by
  unfold acceptedRecords at hx
  split at hx
  · have hmem := List.mem_of_mem_take hx
    obtain ⟨g, hg, -, hlen⟩ := exists_header_of_mem_parseRecords hmem
    rw [← hlen]
    refine ⟨h.not_fd g hg, ?_⟩
    rw [hlen]
    exact h.dlc_le x hmem
  · simp at hx

/-- What the stored frames say does not depend on what the slots held. -/
theorem Stores.map_reading (hc : ClassicDatagram d) {n : Node} {spare : ℕ → UInt8} {o : Handled}
    (h : Stores n (.contiguous d spare hd) o)
    (hfit : ∀ r ∈ (PbufChain.contiguous d spare hd).storable n.handle.txQueue.free, r.Fits) :
    o.stored.map CanfdFrame.reading = acceptedRecords d n.handle.txQueue.free := by
  have hmap : o.stored.map CanfdFrame.reading
      = ((PbufChain.contiguous d spare hd).storable n.handle.txQueue.free).map
        (Record.reading (Bytes.ofList d spare)) := by
    rw [h.stored_eq]
    exact map_fillSlots _ fun r hr old => Record.reading_frame (hfit r hr) old
  unfold acceptedRecords
  by_cases hok : HeaderOk d
  · rw [if_pos hok, hmap,
      map_reading_storable spare hd hok fun h hh hcut => hc.not_fd h hh hcut.2.1]
  · have hacc := mt (accepted_contiguous_iff spare hd).mp hok
    rw [if_neg hok, hmap, PbufChain.storable, PbufChain.records, if_neg hacc, List.take_nil]
    rfl

theorem map_byteAt {f : CanfdFrame} {n : ℕ} (h : n ≤ cnlCanfdMaxDlen) :
    (List.range n).map f.byteAt = f.data.toList.take n := by
  apply List.ext_getElem
  · rw [List.length_map, List.length_range, List.length_take, Vector.length_toList]
    omega
  · intro i hi _
    have hi' : i < n := by simpa using hi
    rw [List.getElem_map, List.getElem_range, List.getElem_take]
    unfold CanfdFrame.byteAt
    rw [List.getD_eq_getElem?_getD, List.getElem?_eq_getElem (by rw [Vector.length_toList]; omega),
      Option.getD_some]

/-- Frames that say the same have the same image, unless there are bytes in the data array
that the length covers but the record did not bring. -/
theorem CanfdFrame.image_eq_of_reading_eq {f g : CanfdFrame} (h : g.reading = f.reading)
    (hfd : ¬ IsFd f.len) (hlen : canfdLen f ≤ cnlCanfdMaxDlen)
    (hrtr : IsRtr f.canId → canfdLen f = 0) : g.image = f.image := by
  obtain ⟨hid, hl, -, hdata⟩ := CanfdFrame.reading_eq_iff.mp h
  have hn : f.len.toNat = canfdLen f := (dlcOf_of_not_isFd hfd).symm
  have hbytes : g.data.toList.take (canfdLen f) = f.data.toList.take (canfdLen f) := by
    by_cases h : IsRtr f.canId
    · rw [hrtr h, List.take_zero, List.take_zero]
    · exact hdata h
  unfold image
  rw [hid, hl, hn, map_byteAt hlen, map_byteAt hlen, hbytes]

/-- The frame that was accepted for the `i`-th record of the datagram, in any later state. -/
theorem BusSystem.accepted_later (hc : ClassicDatagram d) {s t u : BusSystem} {es : List BusEvent}
    {spare : ℕ → UInt8} (h : s.Inv)
    (hstep : s.step (.handleCannelloniFrame (.contiguous d spare hd)) = .ok t)
    (hexec : Run.exec BusSystem.step t es = .ok u) :
    t.accepted.length = s.accepted.length
        + (acceptedRecords d s.node.handle.txQueue.free).length ∧
      ∀ i a, u.images[s.accepted.length + i]? = some a →
        s.accepted.length + i < t.accepted.length →
        ∃ f : CanfdFrame, (acceptedRecords d s.node.handle.txQueue.free)[i]? = some f.reading ∧
          a = f.image := by
  obtain ⟨htinv, o, ho, hstores, haccepted⟩ := BusSystem.inv_datagram h hstep
  obtain ⟨hfit, -⟩ := stores_of_ok h.valid.tx ho
  have hreading := hstores.map_reading hc hfit
  obtain ⟨huinv, later, hlater⟩ := BusSystem.inv_exec htinv hexec
  have hlength : t.accepted.length = s.accepted.length
      + (acceptedRecords d s.node.handle.txQueue.free).length := by
    rw [haccepted, List.length_append, ← hreading, List.length_map]
  refine ⟨hlength, ?_⟩
  intro i a ha hi
  obtain ⟨f, hf, rfl⟩ := huinv.image_of_getElem ha
  rw [← hlater, List.getElem?_append_left hi, haccepted,
    List.getElem?_append_right (Nat.le_add_right _ _), Nat.add_sub_cancel_left] at hf
  exact ⟨f, by rw [← hreading, List.getElem?_map, hf]; rfl, rfl⟩

/-- Without remote records of nonzero length the two runs program the same values. -/
theorem sameOnBus_of_remote_empty (hc : ClassicDatagram d)
    (hrtr : ∀ x ∈ acceptedRecords d k, IsRtr x.1 → dlcOf x.2.1 = 0) : SameOnBus d hd k := by
  intro s₁ s₂ hs₁ hs₂ hk₁ hk₂ spare₁ spare₂ t₁ t₂ ht₁ ht₂ es₁ es₂ u₁ u₂ hu₁ hu₂ i a b hi ha hb
  obtain ⟨hlen₁, himage₁⟩ := BusSystem.accepted_later hc hs₁.inv ht₁ hu₁
  obtain ⟨hlen₂, himage₂⟩ := BusSystem.accepted_later hc hs₂.inv ht₂ hu₂
  rw [hk₁] at hlen₁ himage₁
  rw [hk₂] at hlen₂ himage₂
  obtain ⟨f, hf, rfl⟩ := himage₁ i a ha hi
  obtain ⟨g, hg, rfl⟩ := himage₂ i b hb (by omega)
  have hreading : g.reading = f.reading := Option.some.inj (hg.symm.trans hf)
  have hmem : f.reading ∈ acceptedRecords d k := List.mem_of_getElem? hf
  obtain ⟨hfd, hdlc⟩ := hc.of_mem hmem
  exact (CanfdFrame.image_eq_of_reading_eq hreading hfd hdlc (hrtr _ hmem)).symm

end Datagram

/-! ## A slot that remembers -/

theorem txBuf_ne_rxBuf : Buf.txBuf 0 ≠ .rxBuf 0 := by decide

/-- The `Init` part of a handle with `k + 1` slots. -/
def Init.ofSize (k : ℕ) (hk : k < 255) : Init where
  port := 20000
  remotePort := 20000
  canBufSize := UInt8.ofNat (k + 1)
  canTxBuf := .txBuf 0
  canRxBuf := .rxBuf 0
  canTxFn := true
  canRxFn := true
  bufSize_pos := by
    rw [UInt8.toNat_ofNat']
    omega
  bufs_ne := txBuf_ne_rxBuf

/-- A frame with the same byte everywhere in its data array. -/
def CanfdFrame.filled (b : UInt8) : CanfdFrame := ⟨0, 0, 0, Vector.replicate _ b⟩

theorem fillSlots_const {ι : Type*} (render : ι → CanfdFrame → CanfdFrame) (f : CanfdFrame)
    (q : FramesQueue) (xs : List ι) :
    fillSlots render (fun _ => f) q xs = xs.map fun x => render x f := by
  induction xs generalizing q with
  | nil => rfl
  | cons x xs ih => rw [fillSlots, ih, List.map_cons]

/-- The mailbox has sent whatever it held. -/
def CanReg.release (r : CanReg) : CanReg := { r with txrq := Vector.replicate _ 0 }

theorem CanReg.not_busy_release (r : CanReg) : ¬ r.release.Busy := by
  show ¬ (0 : UInt32) &&& 1 ≠ 0
  decide

section Leak

variable {d : List UInt8} {k : ℕ}

theorem ClassicDatagram.fits (hc : ClassicDatagram d) (hd : d.length ≤ maxUdpPayload)
    (spare : ℕ → UInt8) (k : ℕ) :
    ∀ r ∈ (PbufChain.contiguous d spare hd).storable k,
      r.reading (Bytes.ofList d spare) ∈ acceptedRecords d k ∧ r.Fits := by
  intro r hr
  have hmem : r.reading (Bytes.ofList d spare) ∈ acceptedRecords d k := by
    unfold acceptedRecords
    by_cases hok : HeaderOk d
    · rw [if_pos hok, ← map_reading_storable spare hd hok
        fun h hh hcut => hc.not_fd h hh hcut.2.1]
      exact List.mem_map_of_mem hr
    · have hacc := mt (accepted_contiguous_iff spare hd).mp hok
      rw [PbufChain.storable, PbufChain.records, if_neg hacc, List.take_nil] at hr
      simp at hr
  exact ⟨hmem, .inr (hc.of_mem hmem).2⟩

/-- A run that accepts the datagram with `k` free slots, all of which hold the byte `b`
everywhere, and then sends everything. -/
theorem exists_run (hc : ClassicDatagram d) (hd : d.length ≤ maxUdpPayload) (hk : k < 255)
    (b : UInt8) :
    ∃ s t u : BusSystem, s.Reachable ∧ s.node.handle.txQueue.free = k ∧ s.accepted = [] ∧
      s.step (.handleCannelloniFrame (.contiguous d (fun _ => 0) hd)) = .ok t ∧
      Run.exec BusSystem.step t [.sendCanFrames fun _ => CanReg.release] = .ok u ∧
      u.images = ((PbufChain.contiguous d (fun _ => 0) hd).storable k).map
        fun r => (r.frame (Bytes.ofList d fun _ => 0) (.filled b)).image := by
  set p : PbufChain := .contiguous d (fun _ => 0) hd with hp
  set s := BusSystem.start (fun _ => .filled b) (Init.ofSize k hk) .idle with hs
  have hvalid : s.node.handle.Valid := initCannelloni_valid (Init.ofSize k hk)
  have hfree : s.node.handle.txQueue.free = k := by
    have hcount : (Init.ofSize k hk).canBufSize.toNat = k + 1 := by
      show (UInt8.ofNat (k + 1)).toNat = k + 1
      rw [UInt8.toNat_ofNat']
      omega
    show (Init.ofSize k hk).canBufSize.toNat - 1 - _ = k
    rw [hcount]
    rfl
  have hfits := hc.fits hd (fun _ => 0) k
  rw [← hp] at hfits
  obtain ⟨o, ho, hstores⟩ := handleCannelloniFrame_ok (p := p) hvalid.tx
    (by rw [hfree]; exact fun r hr => (hfits r hr).2)
  set t : BusSystem := { s with node := o.node, accepted := s.accepted ++ o.stored } with ht
  have hstored : o.stored = (p.storable k).map
      fun r => r.frame (Bytes.ofList d fun _ => 0) (.filled b) := by
    rw [hstores.stored_eq, hfree]
    exact fillSlots_const _ _ _ _
  have htx : o.node.handle.txQueue.contents o.node.mem = o.stored := hstores.txFrames_eq
  have htvalid := hstores.valid hvalid
  -- no frame in the queue is too long for the mailbox
  have hlen : ∀ f ∈ o.node.handle.txQueue.contents o.node.mem, f.len.toNat ≤ 8 := by
    intro f hf
    rw [htx, hstored] at hf
    obtain ⟨r, hr, rfl⟩ := List.mem_map.mp hf
    obtain ⟨hfd, hdlc⟩ := hc.of_mem (hfits r hr).1
    rw [Record.frame_len]
    exact (dlcOf_of_not_isFd hfd).symm.trans_le hdlc
  have hheld : (o.node.handle.txQueue.contents o.node.mem).length
      ≤ o.node.handle.txQueue.count := by
    rw [length_contents]
    exact (Ring.Cursor.held_lt htvalid.tx).le
  obtain ⟨sent, hsent, himages⟩ := sendLoop_free (fun _ => CanReg.release)
    (fun _ r => r.not_busy_release) s.reg htvalid.tx hheld hlen
  have htxFn : o.node.handle.init.canTxFn = true := by
    rw [hstores.handle_eq]
    rfl
  have hcall : sendCanFrames (fun _ => CanReg.release) s.reg o.node = .ok sent := by
    unfold sendCanFrames
    rw [if_pos htxFn]
    exact hsent
  have hlast : t.step (.sendCanFrames fun _ => CanReg.release) = .ok { t with
      node := { o.node with handle := { o.node.handle with txQueue := sent.txQueue } }
      reg := sent.reg
      images := t.images ++ sent.images } := by
    simp only [BusSystem.step, ht, hcall]
  refine ⟨s, t, _, ⟨_, _, _, [], rfl⟩, hfree, rfl, ?_, Run.exec_cons_ok hlast [], ?_⟩
  · simp only [BusSystem.step, ho, ht]
  · show [] ++ sent.images = _
    rw [List.nil_append, himages, htx, hstored, List.map_map]
    rfl

/-- The first data byte of a remote record's frame is what the slot held. -/
theorem head_image_remote {rawData : ℕ → UInt8} {r : Record} (hrtr : IsRtr r.canId)
    (hlen : r.len.toNat ≠ 0) (b : UInt8) :
    (r.frame rawData (.filled b)).image.data.head? = some b := by
  obtain ⟨m, hm⟩ := Nat.exists_eq_succ_of_ne_zero hlen
  have hbyte : (r.frame rawData (.filled b)).byteAt 0 = b := by
    unfold Record.frame
    rw [if_pos hrtr]
    rfl
  unfold CanfdFrame.image
  simp only [Record.frame_len, hm, List.range_succ_eq_map, List.map_cons, List.head?_cons, hbyte]

/-- Two runs that accept a classic datagram with the same number of free slots program the same
register values for its frames, whatever they did before, exactly when every remote record that
is stored has length zero. -/
theorem sameOnBus_iff (hc : ClassicDatagram d) (hd : d.length ≤ maxUdpPayload) (hk : k < 255) :
    SameOnBus d hd k ↔ ∀ x ∈ acceptedRecords d k, IsRtr x.1 → dlcOf x.2.1 = 0 := by
  refine ⟨?_, sameOnBus_of_remote_empty hc⟩
  intro h x hx hrtr
  by_contra hdlc
  obtain ⟨s₁, t₁, u₁, hs₁, hk₁, hacc₁, ht₁, hu₁, himages₁⟩ := exists_run hc hd hk 0
  obtain ⟨s₂, t₂, u₂, hs₂, hk₂, hacc₂, ht₂, hu₂, himages₂⟩ := exists_run hc hd hk 1
  -- the record of `x` in the walk
  have hok : HeaderOk d := by
    by_contra hok
    rw [acceptedRecords, if_neg hok] at hx
    simp at hx
  have hreading := map_reading_storable (fun _ => 0) hd hok
    (fun h hh hcut => hc.not_fd h hh hcut.2.1) k
  obtain ⟨j, hj⟩ := List.getElem?_of_mem hx
  obtain ⟨r, hr, hrx⟩ : ∃ r, ((PbufChain.contiguous d (fun _ => 0) hd).storable k)[j]? = some r ∧
      r.reading (Bytes.ofList d fun _ => 0) = x := by
    rw [acceptedRecords, if_pos hok, ← hreading, List.getElem?_map] at hj
    exact Option.map_eq_some_iff.mp hj
  have hrtr' : IsRtr r.canId := by
    rw [← hrx] at hrtr
    exact hrtr
  have hlen : r.len.toNat ≠ 0 := by
    intro hzero
    apply hdlc
    rw [← hrx]
    show dlcOf r.len = 0
    rw [dlcOf_eq_mod, hzero, Nat.zero_mod]
  have hlt : 0 + j < t₁.accepted.length := by
    have hlength := (BusSystem.accepted_later hc hs₁.inv ht₁ hu₁).1
    rw [hacc₁, hk₁] at hlength
    have hjlt := (List.getElem?_eq_some_iff.mp hj).1
    rw [hlength]
    simp only [List.length_nil]
    omega
  have heq := h s₁ s₂ hs₁ hs₂ hk₁ hk₂ _ _ t₁ t₂ ht₁ ht₂ _ _ u₁ u₂ hu₁ hu₂ j
    (r.frame (Bytes.ofList d fun _ => 0) (.filled 0)).image
    (r.frame (Bytes.ofList d fun _ => 0) (.filled 1)).image (by rw [hacc₁]; exact hlt)
    (by rw [hacc₁, himages₁, List.length_nil, Nat.zero_add, List.getElem?_map, hr]; rfl)
    (by rw [hacc₂, himages₂, List.length_nil, Nat.zero_add, List.getElem?_map, hr]; rfl)
  have hhead := congrArg (fun a => a.data.head?) heq
  simp only [head_image_remote hrtr' hlen] at hhead
  exact absurd (Option.some.inj hhead) (by decide)

end Leak

/-- A packet of one data record. -/
theorem sameOnBus_single : SameOnBus [2, 0, 0, 0, 1, 0, 0, 0, 5, 1, 7] (by simp) 127 :=
  (sameOnBus_iff ⟨by decide +kernel, by decide +kernel⟩ (by simp) (by decide)).mpr
    (by decide +kernel)

/-- The packet that asks for one data byte by a remote frame. -/
def remotePacket : List UInt8 := [2, 0, 0, 0, 1, 0x40, 0, 0, 1, 1]

/-- A packet with the data byte `0xAA`. -/
def dataPacket : List UInt8 := [2, 0, 0, 0, 1, 0, 0, 0, 5, 1, 0xAA]

/-- The start of interface 0, as `main` sets it up. -/
def BusSystem.main : BusSystem := .start zeroMemory (mainInit 0 0) .idle

theorem remotePacket_length_le : remotePacket.length ≤ maxUdpPayload := by decide

/-- A history, the remote packet, and a transmission: the free slots and the number of accepted
frames before the packet, and the image of its frame. -/
def remoteAfter (es : List BusEvent) : Except (Fault ⊕ CanFault) (ℕ × ℕ × Option BusImage) := do
  let s ← Run.exec BusSystem.step .main es
  let t ← s.step
    (.handleCannelloniFrame (.contiguous remotePacket (fun _ => 0) remotePacket_length_le))
  let u ← Run.exec BusSystem.step t [.sendCanFrames fun _ => CanReg.release]
  return (s.node.handle.txQueue.free, s.accepted.length, u.images[s.accepted.length]?)

theorem exists_run_remotePacket (es : List BusEvent) {k m : ℕ} {a : BusImage}
    (h : remoteAfter es = .ok (k, m, some a)) :
    ∃ s t u : BusSystem, s.Reachable ∧ s.node.handle.txQueue.free = k ∧
      s.step (.handleCannelloniFrame
        (.contiguous remotePacket (fun _ => 0) remotePacket_length_le)) = .ok t ∧
      Run.exec BusSystem.step t [.sendCanFrames fun _ => CanReg.release] = .ok u ∧
      u.images[s.accepted.length]? = some a := by
  obtain ⟨s, hs, h⟩ := Run.bind_eq_ok.mp h
  obtain ⟨t, ht, h⟩ := Run.bind_eq_ok.mp h
  obtain ⟨u, hu, h⟩ := Run.bind_eq_ok.mp h
  obtain ⟨hk, h⟩ := Prod.mk.inj (Except.ok.inj h)
  obtain ⟨-, ha⟩ := Prod.mk.inj h
  exact ⟨s, t, u, ⟨_, _, _, es, hs⟩, hk, ht, hu, ha⟩

/-- A data packet and a transmission. -/
def dataSent : List BusEvent :=
  [.handleCannelloniFrame (.contiguous dataPacket (fun _ => 0) (by decide)),
    .sendCanFrames fun _ => CanReg.release]

/-- The ring comes round to a slot that was used. -/
theorem remoteAfter_data :
    remoteAfter (List.replicate 128 dataSent).flatten
      = .ok (127, 128, some ⟨arbOf 0x40000001, mctlOf 1, [0xAA]⟩) := by
  decide +kernel

/-- The answer to a remote packet shows a data byte of an earlier frame once the ring has come
round to a used slot. -/
theorem stale_byte_on_bus :
    ¬ ∀ (d : List UInt8) (hd : d.length ≤ maxUdpPayload) (k : ℕ), ClassicDatagram d →
      SameOnBus d hd k := by
  intro h
  have hc : ClassicDatagram remotePacket := ⟨by decide +kernel, by decide +kernel⟩
  have hfresh : remoteAfter [] = .ok (127, 0, some ⟨arbOf 0x40000001, mctlOf 1, [0]⟩) := by
    decide +kernel
  obtain ⟨s₁, t₁, u₁, hs₁, hk₁, ht₁, hu₁, ha⟩ := exists_run_remotePacket [] hfresh
  obtain ⟨s₂, t₂, u₂, hs₂, hk₂, ht₂, hu₂, hb⟩ := exists_run_remotePacket _ remoteAfter_data
  have hlt : s₁.accepted.length + 0 < t₁.accepted.length := by
    have hlength := (BusSystem.accepted_later hc hs₁.inv ht₁ hu₁).1
    have hone : (acceptedRecords remotePacket 127).length = 1 := by decide +kernel
    rw [hk₁, hone] at hlength
    omega
  have heq := h remotePacket remotePacket_length_le 127 hc s₁ s₂ hs₁ hs₂ hk₁ hk₂ _ _ t₁ t₂ ht₁ ht₂
    _ _ u₁ u₂ hu₁ hu₂ 0 _ _ hlt ha hb
  cases heq

end Cannelloni
