import Cannelloni.Lib.Run
import Cannelloni.Drivers.CanBase

/-!
# The driver and the controller side by side

The processor stops in every wait of the driver, and the controller may act there and between
the calls. `mailboxes_exactly_once` is about every interleaving from the first statement of
`can_init` on: the bus carries exactly the frames for which `can_send` returned true, and each
receive mailbox hands out the messages that were stored in it once and in order.

It needs that no call of `can_send` begins while the transfer to mailbox 1 that the last one
started still goes on: `can_send` looks at the transmission request before it waits, and the
request appears with the end of the transfer. `frame_overwritten` is what happens otherwise.
-/

namespace Cannelloni

/-! ## The system -/

/-- The wait in which the processor stands. -/
inductive CanPc
  /-- outside the driver -/
  | idle
  /-- in `can_init`, before the mailbox is programmed -/
  | init (mbox : ℕ)
  /-- in `can_send` -/
  | send (id : UInt32) (dlc : UInt8) (data : ℕ → UInt8)
  /-- in the first and in the second wait of `can_mbox_has_data` -/
  | select (mbox : UInt8)
  | fetch (mbox : UInt8)

/-- The controller, the place of the processor, and (ghost) the frames `can_send` took, the
frames the bus carried with the mailbox they came from, the messages stored in a mailbox, those
of them that overwrote one, and the messages read from a mailbox. -/
structure CanSystem where
  can : CanBase
  pc : CanPc
  taken : List BusImage
  bus : List (ℕ × BusImage)
  stored : ℕ → List MsgView
  overwritten : ℕ → ℕ
  read : ℕ → List MsgView

inductive CanEvent
  /-- a call of `can_send` -/
  | send (id : UInt32) (dlc : UInt8) (data : ℕ → UInt8)
  /-- a call of `can_mbox_has_data`; when it returns true the message is read -/
  | read (mbox : UInt8)
  /-- the processor reads `IF1STAT` -/
  | poll
  /-- the controller completes a transfer -/
  | transfer
  /-- the controller receives a frame -/
  | receive (f : BusFrame)
  /-- the controller has sent a mailbox -/
  | transmit (mbox : ℕ)

namespace CanSystem

/-- `can_init` up to its first wait. The message RAM is blank: no mailbox is in use. -/
def start : CanSystem where
  can := .reset
  pc := .init canRxQueueFirstMbox
  taken := []
  bus := []
  stored := fun _ => []
  overwritten := fun _ => 0
  read := fun _ => []

/-- The processor goes on when no transfer goes on. -/
def poll (s : CanSystem) : Except CanFault CanSystem :=
  if s.can.busy then .ok s
  else match s.pc with
    | .idle => .ok s
    | .init mbox =>
      let c := s.can.initMbox mbox
      if mbox + 1 ≤ canMboxLast then .ok { s with can := c, pc := .init (mbox + 1) }
      else .ok { s with can := c.initDone, pc := .idle }
    | .send id dlc data => do
      let c ← s.can.sendMbox id dlc data
      return { s with can := c, pc := .idle, taken := s.taken ++ [imageOf id dlc data] }
    | .select mbox => .ok { s with can := s.can.selectMbox mbox, pc := .fetch mbox }
    | .fetch mbox =>
      let i := mbox.toNat
      if s.can.if1.NewDat then
        .ok { s with
          pc := .idle
          read := Function.update s.read i (s.read i ++ [s.can.if1.view]) }
      else .ok { s with pc := .idle }

/-- A frame from the bus. -/
def receive (s : CanSystem) (f : BusFrame) : CanSystem :=
  match s.can.target f with
  | none => s
  | some i =>
    let o := s.can.ram i
    { s with
      can := { s.can with ram := Function.update s.can.ram i (o.store f) }
      stored := Function.update s.stored i (s.stored i ++ [f.view])
      overwritten := if o.NewDat
        then Function.update s.overwritten i (s.overwritten i + 1) else s.overwritten }

/-- The end of a transmission. -/
def transmit (s : CanSystem) (i : ℕ) : CanSystem :=
  let o := s.can.ram i
  if o.Sends then
    { s with
      can := { s.can with ram := Function.update s.can.ram i o.sent }
      bus := s.bus ++ [(i, o.reg.ownImage)] }
  else s

def step (s : CanSystem) : CanEvent → Except CanFault CanSystem
  | .send id dlc data =>
    match s.pc with
    | .idle =>
      -- bit 0 of `TXRQx[0]`
      if (s.can.ram 1).TxRqst then .ok s else .ok { s with pc := .send id dlc data }
    | _ => .ok s
  | .read mbox =>
    match s.pc with
    | .idle => if canMboxLast < mbox.toNat then .ok s else .ok { s with pc := .select mbox }
    | _ => .ok s
  | .poll => s.poll
  | .transfer => .ok { s with can := s.can.transfer }
  | .receive f => .ok (if s.can.Normal then s.receive f else s)
  | .transmit i => .ok (if s.can.Normal then s.transmit i else s)

end CanSystem

/-- A transfer to mailbox 1 goes on. -/
abbrev CanBase.Sending (c : CanBase) : Prop := c.busy ∧ c.if1No = 1

/-- Frames are classic, the receive mailboxes are read, and a call of `can_send` does not begin
while the transfer of the last one goes on. -/
def CanSystem.Allowed (s : CanSystem) : CanEvent → Prop
  | .send _ dlc _ => dlc.toNat ≤ 8 ∧ ¬ s.can.Sending
  | .read mbox => canRxQueueFirstMbox ≤ mbox.toNat
  | _ => True

/-! ## The invariant -/

/-- The transfer that goes on. -/
inductive CanJob
  | nothing
  | config (mbox : ℕ)
  | frame (image : BusImage)
  | read (mbox : ℕ)

/-- What the registers say about the transfer that goes on. -/
def CanBase.Doing (c : CanBase) : CanJob → Prop
  | .nothing => c.busy = false
  | .config i => c.busy = true ∧ c.if1No.toNat = i ∧ c.Cmd ifcmdWrrd ∧
    ∀ o, (c.written o).Receiver i ∧ ¬ (c.written o).NewDat
  | .frame image => c.busy = true ∧ c.if1No = 1 ∧ c.Cmd ifcmdWrrd ∧
    ∀ o, (c.written o).Outgoing image
  | .read i => c.busy = true ∧ c.if1No.toNat = i ∧ c.if1Cmd = CanBase.readCmd

/-- A mailbox of the receive FIFO. -/
abbrev IsRxMbox (i : ℕ) : Prop := canRxQueueFirstMbox ≤ i ∧ i ≤ canMboxLast

/-- Outside the driver or in the first wait of a call. -/
def CanPc.Calls : CanPc → Prop
  | .idle => True
  | .send _ dlc _ => dlc.toNat ≤ 8
  | .select mbox => IsRxMbox mbox.toNat
  | .init _ | .fetch _ => False

theorem CanPc.calls_idle : CanPc.idle.Calls := trivial

/-- In the wait of `can_send`. -/
def CanPc.Sends (pc : CanPc) : Prop := ∃ id dlc data, pc = .send id dlc data

/-- Where the processor stands while a transfer goes on and the mailboxes from 2 up to the given
one are programmed. `can_init` does not wait for its last transfer. -/
inductive CanPlace : CanPc → CanJob → ℕ → Prop
  | init {m : ℕ} (hm : IsRxMbox m) : CanPlace (.init m) .nothing m
  | initBusy {m : ℕ} (hm : IsRxMbox m) (hm' : IsRxMbox (m + 1)) :
    CanPlace (.init (m + 1)) (.config m) m
  | last {pc : CanPc} (hpc : pc.Calls) : CanPlace pc (.config canMboxLast) canMboxLast
  | free {pc : CanPc} (hpc : pc.Calls) : CanPlace pc .nothing (canMboxLast + 1)
  | sending {pc : CanPc} (hpc : pc.Calls) (hsend : ¬ pc.Sends) (image : BusImage) :
    CanPlace pc (.frame image) (canMboxLast + 1)
  | fetching {mbox : UInt8} (hm : IsRxMbox mbox.toNat) :
    CanPlace (.fetch mbox) (.read mbox.toNat) (canMboxLast + 1)
  | fetched {mbox : UInt8} (hm : IsRxMbox mbox.toNat) :
    CanPlace (.fetch mbox) .nothing (canMboxLast + 1)

theorem CanPlace.two_le {pc : CanPc} {job : CanJob} {k : ℕ} (h : CanPlace pc job k) :
    canRxQueueFirstMbox ≤ k := by
  cases h with
  | init hm => exact hm.1
  | initBusy hm => exact hm.1
  | _ => decide

/-- The frame on its way to mailbox 1. -/
def CanJob.outgoing : CanJob → List BusImage
  | .frame image => [image]
  | _ => []

namespace CanSystem

/-- The frame that waits in mailbox 1. -/
def inMbox (s : CanSystem) : List BusImage :=
  if (s.can.ram 1).TxRqst then [(s.can.ram 1).reg.ownImage] else []

/-- The message of the mailbox that is in `IF1` and not read yet. -/
def inIf1 (s : CanSystem) (i : ℕ) : List MsgView :=
  match s.pc with
  | .fetch mbox =>
    if mbox.toNat = i ∧ s.can.busy = false ∧ s.can.if1.NewDat then [s.can.if1.view] else []
  | _ => []

/-- The message that waits in the mailbox. -/
def waiting (s : CanSystem) (i : ℕ) : List MsgView :=
  if (s.can.ram i).NewDat then [(s.can.ram i).reg.view] else []

/-- The messages of the mailbox, from those that were read to the one that waits. -/
def history (s : CanSystem) (i : ℕ) : List MsgView := s.read i ++ (s.inIf1 i ++ s.waiting i)

/-- The history of a mailbox is what was stored in it, but for the messages overwritten in the
last mailbox. -/
structure Accounts (s : CanSystem) (i : ℕ) : Prop where
  sublist : (s.history i).Sublist (s.stored i)
  exact : s.overwritten i = 0 → s.history i = s.stored i
  overwritten_eq : i ≠ canMboxLast → s.overwritten i = 0

theorem Accounts.congr {s s' : CanSystem} {i : ℕ} (h : s.Accounts i)
    (hhistory : s'.history i = s.history i) (hstored : s'.stored i = s.stored i)
    (hover : s'.overwritten i = s.overwritten i) : s'.Accounts i := by
  refine ⟨?_, ?_, ?_⟩
  · rw [hhistory, hstored]
    exact h.sublist
  · rw [hhistory, hstored, hover]
    exact h.exact
  · rw [hover]
    exact h.overwritten_eq

/-- Only the second wait of a read has something in `IF1`. -/
theorem inIf1_eq_nil {s : CanSystem} (h : ∀ mbox, s.pc ≠ .fetch mbox) (i : ℕ) : s.inIf1 i = [] := by
  unfold inIf1
  split
  · next mbox hpc => exact absurd hpc (h mbox)
  · rfl

/-- Outside the second wait of a read the mailbox alone decides. -/
theorem Accounts.of_waiting {s s' : CanSystem} {i : ℕ} (h : s.Accounts i) (hpc : s'.pc = s.pc)
    (hfetch : ∀ mbox, s.pc ≠ .fetch mbox) (hwaiting : s'.waiting i = s.waiting i)
    (hread : s'.read i = s.read i) (hstored : s'.stored i = s.stored i)
    (hover : s'.overwritten i = s.overwritten i) : s'.Accounts i := by
  refine h.congr ?_ hstored hover
  have hfetch' : ∀ mbox, s'.pc ≠ .fetch mbox := by
    rw [hpc]
    exact hfetch
  unfold history
  rw [inIf1_eq_nil hfetch, inIf1_eq_nil hfetch', hwaiting, hread]

/-- The invariant, with the transfer that goes on and the mailboxes that are programmed. -/
structure Holds (s : CanSystem) (job : CanJob) (k : ℕ) : Prop where
  doing : s.can.Doing job
  place : CanPlace s.pc job k
  normal_iff : s.can.Normal ↔ ∀ m, s.pc ≠ .init m
  receiver : ∀ i, canRxQueueFirstMbox ≤ i → i < k → (s.can.ram i).Receiver i
  blank : ∀ i, i = 0 ∨ k ≤ i → s.can.ram i = .blank
  closed : (s.can.ram 1).Closed
  free : s.pc.Sends ∨ job.outgoing ≠ [] → ¬ (s.can.ram 1).TxRqst
  sent : s.bus.map Prod.snd ++ (s.inMbox ++ job.outgoing) = s.taken
  from_one : ∀ e ∈ s.bus, e.1 = 1
  accounts : ∀ i, IsRxMbox i → s.Accounts i

def Inv (s : CanSystem) : Prop := ∃ job k, s.Holds job k

theorem inv_start : start.Inv := by
  refine ⟨.nothing, canRxQueueFirstMbox, rfl, .init ⟨le_refl _, by decide⟩, ?_, ?_, ?_,
    MsgObject.closed_blank, ?_, rfl, by simp [start], ?_⟩
  · refine iff_of_false (by decide) ?_
    intro h
    exact h _ rfl
  · intro i hi hlt
    omega
  · intro i _
    rfl
  · rintro (⟨_, _, _, h⟩ | h)
    · cases h
    · exact absurd rfl h
  · intro i _
    have hhistory : start.history i = [] := by
      have hblank : ¬ (start.can.ram i).NewDat := show ¬ MsgObject.blank.NewDat by decide
      unfold history waiting
      rw [if_neg hblank]
      rfl
    exact ⟨by rw [hhistory]; exact List.nil_sublist _, fun _ => hhistory, fun _ => rfl⟩

variable {s : CanSystem} {job : CanJob} {k : ℕ}

/-- A mailbox that accepts a frame is a programmed receive mailbox. -/
theorem Holds.of_accepts (h : s.Holds job k) {i : ℕ} {f : BusFrame}
    (hacc : (s.can.ram i).Accepts f) : canRxQueueFirstMbox ≤ i ∧ i < k := by
  have hnot_blank : ¬ (i = 0 ∨ k ≤ i) := by
    intro hi
    rw [h.blank i hi] at hacc
    exact MsgObject.closed_blank.not_accepts f hacc
  have hne : i ≠ 1 := by
    rintro rfl
    exact h.closed.not_accepts f hacc
  simp only [canRxQueueFirstMbox]
  omega

/-- A mailbox that is sent is mailbox 1. -/
theorem Holds.of_sends (h : s.Holds job k) {i : ℕ} (hsends : (s.can.ram i).Sends) : i = 1 := by
  by_contra hne
  by_cases hi : i = 0 ∨ k ≤ i
  · rw [h.blank i hi] at hsends
    exact MsgObject.not_sends_blank hsends
  · have hrx := h.receiver i (by simp only [canRxQueueFirstMbox]; omega) (by omega)
    exact hrx.not_dir hsends.2.1

/-! ### The steps of the processor -/

/-- The processor goes on and leaves the message RAM as it is. -/
theorem Holds.move (h : s.Holds job k) {s' : CanSystem} {job' : CanJob} {new : List BusImage}
    (hram : s'.can.ram = s.can.ram) (hdoing : s'.can.Doing job') (hplace : CanPlace s'.pc job' k)
    (hnormal : s'.can.Normal ↔ ∀ m, s'.pc ≠ .init m)
    (hfree : s'.pc.Sends ∨ job'.outgoing ≠ [] → ¬ (s.can.ram 1).TxRqst)
    (hout : job'.outgoing = job.outgoing ++ new) (htaken : s'.taken = s.taken ++ new)
    (hbus : s'.bus = s.bus) (hstored : s'.stored = s.stored)
    (hover : s'.overwritten = s.overwritten)
    (hread : ∀ i, s'.read i ++ s'.inIf1 i = s.read i ++ s.inIf1 i) : s'.Holds job' k := by
  have hmbox : s'.inMbox = s.inMbox := by
    unfold inMbox
    rw [hram]
  have hwaiting : s'.waiting = s.waiting := by
    unfold waiting
    rw [hram]
  refine ⟨hdoing, hplace, hnormal, ?_, ?_, ?_, ?_, ?_, ?_, ?_⟩
  · rw [hram]
    exact h.receiver
  · rw [hram]
    exact h.blank
  · rw [hram]
    exact h.closed
  · rw [hram]
    exact hfree
  · rw [hbus, hmbox, hout, htaken, ← h.sent]
    simp only [List.append_assoc]
  · rw [hbus]
    exact h.from_one
  · intro i hi
    refine (h.accounts i hi).congr ?_ (by rw [hstored]) (by rw [hover])
    unfold history
    rw [← List.append_assoc, hread, hwaiting, List.append_assoc]

theorem Holds.not_busy (h : s.Holds job k) (hbusy : s.can.busy = false) : job = .nothing := by
  have hdoing := h.doing
  cases job with
  | nothing => rfl
  | _ =>
    unfold CanBase.Doing at hdoing
    rw [hbusy] at hdoing
    simp at hdoing

theorem inv_send (h : s.Inv) {id : UInt32} {dlc : UInt8} {data : ℕ → UInt8}
    (hallowed : s.Allowed (.send id dlc data)) :
    ∃ s', s.step (.send id dlc data) = .ok s' ∧ s'.Inv := by
  obtain ⟨hdlc, hsending⟩ := hallowed
  obtain ⟨job, k, hk⟩ := h
  unfold step
  cases hpc : s.pc with
  | idle =>
    simp only
    by_cases hbusy : (s.can.ram 1).TxRqst
    · rw [if_pos hbusy]
      exact ⟨s, rfl, job, k, hk⟩
    · rw [if_neg hbusy]
      refine ⟨_, rfl, job, k, hk.move rfl hk.doing ?_ ?_ (fun _ => hbusy) (List.append_nil _).symm
        (List.append_nil _).symm rfl rfl rfl ?_⟩
      · have hplace := hk.place
        have hdoing := hk.doing
        rw [hpc] at hplace
        cases hplace with
        | last _ => exact .last hdlc
        | free _ => exact .free hdlc
        | sending _ _ image => exact absurd ⟨hdoing.1, hdoing.2.1⟩ hsending
      · exact iff_of_true (hk.normal_iff.mpr (by simp [hpc])) (by simp)
      · intro i
        rw [inIf1_eq_nil (by simp), inIf1_eq_nil (by simp [hpc])]
  | _ => exact ⟨s, rfl, job, k, hk⟩

theorem inv_read (h : s.Inv) {mbox : UInt8} (hallowed : s.Allowed (.read mbox)) :
    ∃ s', s.step (.read mbox) = .ok s' ∧ s'.Inv := by
  obtain ⟨job, k, hk⟩ := h
  unfold step
  cases hpc : s.pc with
  | idle =>
    simp only
    by_cases hlast : canMboxLast < mbox.toNat
    · rw [if_pos hlast]
      exact ⟨s, rfl, job, k, hk⟩
    · rw [if_neg hlast]
      have hm : (CanPc.select mbox).Calls := ⟨hallowed, not_lt.mp hlast⟩
      have hsends : ¬ (CanPc.select mbox).Sends := by
        rintro ⟨_, _, _, h⟩
        cases h
      refine ⟨_, rfl, job, k, hk.move rfl hk.doing ?_ ?_ ?_ (List.append_nil _).symm
        (List.append_nil _).symm rfl rfl rfl ?_⟩
      · have hplace := hk.place
        rw [hpc] at hplace
        cases hplace with
        | last _ => exact .last hm
        | free _ => exact .free hm
        | sending _ _ image => exact .sending hm hsends image
      · exact iff_of_true (hk.normal_iff.mpr (by simp [hpc])) (by simp)
      · rintro (h | h)
        · exact absurd h hsends
        · exact hk.free (.inr h)
      · intro i
        rw [inIf1_eq_nil (by simp), inIf1_eq_nil (by simp [hpc])]
  | _ => exact ⟨s, rfl, job, k, hk⟩

/-- The loop of `can_init` programs a mailbox. -/
theorem inv_poll_init {m : ℕ} (h : s.Holds .nothing m) (hpc : s.pc = .init m) (hm : IsRxMbox m) :
    ∃ s', s.poll = .ok s' ∧ s'.Inv := by
  have hbusy : s.can.busy = false := h.doing
  have hno : (UInt8.ofNat m).toNat = m := by
    have hlast := hm.2
    simp only [canMboxLast] at hlast
    rw [UInt8.toNat_ofNat']
    omega
  have hwrrd : (s.can.initMbox m).Cmd ifcmdWrrd :=
    (CanBase.cmd_initMbox_iff s.can m).mpr (by decide)
  have hwritten := CanBase.written_initMbox s.can m
  have hin : ∀ i, s.inIf1 i = [] := inIf1_eq_nil (by simp [hpc])
  have hinit : ¬ s.can.Normal := by
    rw [h.normal_iff, hpc]
    simp
  unfold poll
  rw [if_neg (by simp [hbusy]), hpc]
  simp only
  by_cases hlast : m + 1 ≤ canMboxLast
  · rw [if_pos hlast]
    have hm' : IsRxMbox (m + 1) := ⟨Nat.le_succ_of_le hm.1, hlast⟩
    refine ⟨_, rfl, .config m, m, h.move rfl ⟨rfl, hno, hwrrd, hwritten⟩ (.initBusy hm hm')
      (iff_of_false hinit fun hne => hne _ rfl) ?_ rfl (List.append_nil _).symm rfl rfl rfl ?_⟩
    · rintro (⟨_, _, _, h⟩ | h)
      · cases h
      · exact absurd rfl h
    · intro i
      rw [inIf1_eq_nil (by simp), hin]
  · rw [if_neg hlast]
    obtain rfl : m = canMboxLast := le_antisymm hm.2 (by omega)
    refine ⟨_, rfl, .config canMboxLast, canMboxLast, h.move rfl ⟨rfl, hno, hwrrd, hwritten⟩
      (.last CanPc.calls_idle) (iff_of_true ?_ (by simp)) ?_ rfl (List.append_nil _).symm rfl rfl rfl ?_⟩
    · show s.can.ctl &&& ~~~(ctlInit ||| ctlCce) &&& ctlInit = 0
      exact Bytes.and_not_and_part (by decide)
    · rintro (⟨_, _, _, h⟩ | h)
      · cases h
      · exact absurd rfl h
    · intro i
      rw [inIf1_eq_nil (by simp), hin]

theorem inv_poll (h : s.Inv) : ∃ s', s.poll = .ok s' ∧ s'.Inv := by
  obtain ⟨job, k, hk⟩ := h
  by_cases hbusy : s.can.busy = true
  · unfold poll
    rw [if_pos hbusy]
    exact ⟨s, rfl, job, k, hk⟩
  · obtain rfl := hk.not_busy (Bool.not_eq_true _ ▸ hbusy)
    have hplace := hk.place
    generalize hpc : s.pc = pc at hplace
    cases hplace with
    | init hm => exact inv_poll_init hk hpc hm
    | free hcalls =>
      have hnormal : s.can.Normal := by
        rw [hk.normal_iff, hpc]
        rintro m rfl
        exact hcalls
      unfold poll
      rw [if_neg hbusy, hpc]
      cases pc with
      | idle => exact ⟨s, rfl, .nothing, _, hk⟩
      | send id dlc data =>
        have hfree : ¬ (s.can.ram 1).TxRqst := hk.free (.inl ⟨id, dlc, data, hpc⟩)
        simp only [s.can.sendMbox_ok hcalls]
        refine ⟨_, rfl, .frame (imageOf id dlc data), _, hk.move rfl ⟨rfl, rfl, ?_, ?_⟩
          (.sending CanPc.calls_idle ?_ _) ?_ (fun _ => hfree) rfl rfl rfl rfl rfl ?_⟩
        · show (0xFF : UInt8) &&& ifcmdWrrd ≠ 0
          decide
        · intro o
          exact CanBase.written_programmed o hcalls rfl rfl
        · rintro ⟨_, _, _, h⟩
          cases h
        · exact iff_of_true hnormal (by simp)
        · intro i
          rw [inIf1_eq_nil (by simp), inIf1_eq_nil (by simp [hpc])]
      | select mbox =>
        refine ⟨_, rfl, .read mbox.toNat, _, hk.move rfl ⟨rfl, rfl, rfl⟩ (.fetching hcalls)
          (iff_of_true hnormal (by simp)) ?_ rfl (List.append_nil _).symm rfl rfl rfl ?_⟩
        · rintro (⟨_, _, _, h⟩ | h)
          · cases h
          · exact absurd rfl h
        · -- while the transfer goes on, `IF1` does not count
          intro i
          rw [inIf1_eq_nil (s := s) (by simp [hpc])]
          unfold inIf1 CanBase.selectMbox
          simp
      | init m => exact hcalls.elim
      | fetch mbox => exact hcalls.elim
    | @fetched mbox hm =>
      have hnormal : s.can.Normal := by
        rw [hk.normal_iff, hpc]
        simp
      have hsends : ¬ CanPc.idle.Sends := by
        rintro ⟨_, _, _, h⟩
        cases h
      unfold poll
      rw [if_neg hbusy, hpc]
      simp only
      by_cases hnew : s.can.if1.NewDat
      · rw [if_pos hnew]
        refine ⟨_, rfl, .nothing, _, hk.move rfl hk.doing (.free CanPc.calls_idle)
          (iff_of_true hnormal (by simp)) ?_ rfl (List.append_nil _).symm rfl rfl rfl ?_⟩
        · rintro (h | h)
          · exact absurd h hsends
          · exact absurd rfl h
        · intro i
          rw [inIf1_eq_nil (by simp), List.append_nil]
          unfold inIf1
          rw [hpc]
          by_cases hi : mbox.toNat = i
          · subst hi
            simp [hbusy, hnew]
          · simp [hi, Function.update_of_ne (Ne.symm hi)]
      · rw [if_neg hnew]
        refine ⟨_, rfl, .nothing, _, hk.move rfl hk.doing (.free CanPc.calls_idle)
          (iff_of_true hnormal (by simp)) ?_ rfl (List.append_nil _).symm rfl rfl rfl ?_⟩
        · rintro (h | h)
          · exact absurd h hsends
          · exact absurd rfl h
        · intro i
          rw [inIf1_eq_nil (by simp)]
          unfold inIf1
          rw [hpc]
          simp [hnew]

/-! ### The steps of the controller -/

/-- A receive mailbox changes. -/
theorem Holds.moveRx (h : s.Holds job k) {s' : CanSystem} {job' : CanJob} {k' m : ℕ} {o : MsgObject}
    (hram : s'.can.ram = Function.update s.can.ram m o) (hm : canRxQueueFirstMbox ≤ m)
    (ho : o.Receiver m) (hmk : m < k') (hkk : k ≤ k') (hrange : ∀ i < k', i < k ∨ i = m)
    (hdoing : s'.can.Doing job') (hplace : CanPlace s'.pc job' k')
    (hctl : s'.can.ctl = s.can.ctl) (hinit : (∀ m, s'.pc ≠ .init m) ↔ ∀ m, s.pc ≠ .init m)
    (hsends : s'.pc.Sends → s.pc.Sends) (hout : job'.outgoing = job.outgoing)
    (htaken : s'.taken = s.taken) (hbus : s'.bus = s.bus)
    (hacc : ∀ i, IsRxMbox i → s'.Accounts i) :
    s'.Holds job' k' := by
  have hother : ∀ i, i ≠ m → s'.can.ram i = s.can.ram i := by
    intro i hi
    rw [hram, Function.update_of_ne hi]
  have hone : s'.can.ram 1 = s.can.ram 1 := hother 1 (by simp only [canRxQueueFirstMbox] at hm; omega)
  refine ⟨hdoing, hplace, ?_, ?_, ?_, ?_, ?_, ?_, ?_, hacc⟩
  · unfold CanBase.Normal
    rw [hctl, hinit]
    exact h.normal_iff
  · intro i hi hik
    by_cases him : i = m
    · subst him
      rw [hram, Function.update_self]
      exact ho
    · rw [hother i him]
      exact h.receiver i hi ((hrange i hik).resolve_right him)
  · intro i hi
    simp only [canRxQueueFirstMbox] at hm
    rw [hother i (by omega)]
    exact h.blank i (by omega)
  · rw [hone]
    exact h.closed
  · rw [hone, hout]
    rintro (hpc | hjob)
    · exact h.free (.inl (hsends hpc))
    · exact h.free (.inr hjob)
  · have hsent := h.sent
    unfold inMbox at hsent ⊢
    rw [hone, hbus, hout, htaken]
    exact hsent
  · rw [hbus]
    exact h.from_one

/-- A mailbox is programmed. -/
theorem inv_transfer_config {m : ℕ} (h : s.Holds (.config m) m) {pc : CanPc} {k' : ℕ}
    (hpc : s.pc = pc) (hm : IsRxMbox m) (hplace : CanPlace pc .nothing k') (hk' : k' = m + 1)
    (hfetch : ∀ mbox, pc ≠ .fetch mbox) :
    ({ s with can := s.can.transfer } : CanSystem).Inv := by
  obtain ⟨hbusy, hno, hwrrd, hwritten⟩ := h.doing
  subst hpc hk'
  rw [CanBase.transfer_write hbusy hwrrd, hno]
  refine ⟨.nothing, m + 1, h.moveRx rfl hm.1 (hwritten _).1 (Nat.lt_succ_self m) (Nat.le_succ m)
    (fun i hi => by omega) rfl hplace rfl Iff.rfl id rfl rfl rfl ?_⟩
  intro i hrx
  refine (h.accounts i hrx).of_waiting rfl hfetch ?_ rfl rfl rfl
  unfold waiting
  by_cases hi : i = m
  · subst hi
    have hblank : ¬ (s.can.ram i).NewDat := by
      rw [h.blank i (.inr (le_refl i))]
      decide
    simp only [Function.update_self]
    rw [if_neg (hwritten _).2, if_neg hblank]
  · simp only [Function.update_of_ne hi]

/-- Mailbox 1 gets its frame. -/
theorem inv_transfer_frame {image : BusImage} (h : s.Holds (.frame image) (canMboxLast + 1))
    (hcalls : s.pc.Calls) (hsends : ¬ s.pc.Sends) :
    ({ s with can := s.can.transfer } : CanSystem).Inv := by
  obtain ⟨hbusy, hno, hwrrd, hwritten⟩ := h.doing
  have hone : s.can.if1No.toNat = 1 := by
    rw [hno]
    rfl
  have hout := hwritten (s.can.ram 1)
  have hother : ∀ i, i ≠ 1 → Function.update s.can.ram 1 (s.can.written (s.can.ram 1)) i
      = s.can.ram i := fun i hi => Function.update_of_ne hi _ _
  have hfree : ¬ (s.can.ram 1).TxRqst := h.free (.inr (List.cons_ne_nil _ _))
  rw [CanBase.transfer_write hbusy hwrrd, hone]
  refine ⟨.nothing, canMboxLast + 1, rfl, .free hcalls, h.normal_iff, ?_, ?_, ?_, ?_, ?_,
    h.from_one, ?_⟩
  · intro i hi hlast
    simp only [canRxQueueFirstMbox] at hi
    simp only [hother i (by omega)]
    exact h.receiver i hi hlast
  · intro i hi
    simp only [canMboxLast] at hi
    simp only [hother i (by omega)]
    exact h.blank i hi
  · simp only [Function.update_self]
    exact hout.closed
  · rintro (hpc | hjob)
    · exact absurd hpc hsends
    · exact absurd rfl hjob
  · have hsent := h.sent
    unfold inMbox at hsent ⊢
    rw [if_neg hfree] at hsent
    simp only [Function.update_self]
    rw [if_pos hout.txRqst, hout.image_eq]
    exact hsent
  · have hfetch : ∀ mbox, s.pc ≠ .fetch mbox := by
      intro mbox hpc
      rw [hpc] at hcalls
      exact hcalls
    intro i hrx
    refine (h.accounts i hrx).of_waiting rfl hfetch ?_ rfl rfl rfl
    have hi := hrx.1
    simp only [canRxQueueFirstMbox] at hi
    unfold waiting
    simp only [hother i (by omega)]

/-- A mailbox is copied to `IF1`. -/
theorem inv_transfer_read {mbox : UInt8} (h : s.Holds (.read mbox.toNat) (canMboxLast + 1))
    (hpc : s.pc = .fetch mbox) (hm : IsRxMbox mbox.toNat) :
    ({ s with can := s.can.transfer } : CanSystem).Inv := by
  obtain ⟨hbusy, hno, hcmd⟩ := h.doing
  have hrecv := h.receiver mbox.toNat hm.1 (Nat.lt_succ_of_le hm.2)
  obtain ⟨hrecv', hold⟩ := CanBase.fetched_spec hcmd hrecv
  rw [CanBase.transfer_read hbusy hcmd, hno]
  refine ⟨.nothing, canMboxLast + 1, h.moveRx rfl hm.1 hrecv' (Nat.lt_succ_of_le hm.2)
    (le_refl _) (fun i hi => .inl hi) rfl ?_ rfl Iff.rfl id rfl rfl rfl ?_⟩
  · show CanPlace s.pc .nothing (canMboxLast + 1)
    rw [hpc]
    exact .fetched hm
  · intro i hrx
    refine (h.accounts i hrx).congr ?_ rfl rfl
    have hbefore : s.inIf1 i = [] := by
      unfold inIf1
      rw [hpc]
      simp [hbusy]
    unfold history
    rw [hbefore]
    unfold inIf1 waiting
    simp only [hpc]
    -- the message moves from the mailbox to `IF1`
    by_cases hi : mbox.toNat = i
    · subst hi
      simp only [Function.update_self, true_and]
      rw [if_neg hold, List.append_nil, List.nil_append]
    · rw [if_neg fun hc => hi hc.1]
      simp only [Function.update_of_ne (Ne.symm hi)]

theorem inv_transfer (h : s.Inv) : ({ s with can := s.can.transfer } : CanSystem).Inv := by
  obtain ⟨job, k, hk⟩ := h
  have hplace := hk.place
  have hnot_fetch : ∀ {pc : CanPc}, pc.Calls → ∀ mbox, pc ≠ .fetch mbox := by
    rintro pc hcalls mbox rfl
    exact hcalls
  obtain ⟨pc, hpc⟩ : ∃ pc, s.pc = pc := ⟨_, rfl⟩
  rw [hpc] at hplace
  cases hplace with
  | init _ | free _ | fetched _ =>
    rw [CanBase.transfer_idle hk.doing]
    exact ⟨_, _, hk⟩
  | initBusy hm hm' => exact inv_transfer_config hk hpc hm (.init hm') rfl (by simp)
  | last hcalls =>
    exact inv_transfer_config hk hpc ⟨by decide, le_refl _⟩ (.free hcalls) rfl (hnot_fetch hcalls)
  | sending hcalls hsends image =>
    subst hpc
    exact inv_transfer_frame hk hcalls hsends
  | fetching hm => exact inv_transfer_read hk hpc hm

/-- A message is stored in a mailbox. -/
theorem Accounts.store {i : ℕ} (h : s.Accounts i) {f : BusFrame}
    (hchained : (s.can.ram i).NewDat → i = canMboxLast) {s' : CanSystem}
    (hpc : s'.pc = s.pc) (hbusy : s'.can.busy = s.can.busy) (hif1 : s'.can.if1 = s.can.if1)
    (hram : s'.can.ram i = (s.can.ram i).store f) (hread : s'.read i = s.read i)
    (hstored : s'.stored i = s.stored i ++ [f.view])
    (hover : s'.overwritten i = if (s.can.ram i).NewDat then s.overwritten i + 1
      else s.overwritten i) : s'.Accounts i := by
  have hin : s'.inIf1 i = s.inIf1 i := by
    unfold inIf1
    rw [hpc, hbusy, hif1]
  have hwaiting : s'.waiting i = [f.view] := by
    unfold waiting
    rw [hram, if_pos MsgObject.newDat_store, MsgObject.view_store]
  have hhistory : s'.history i = (s.read i ++ s.inIf1 i) ++ [f.view] := by
    unfold history
    rw [hread, hin, hwaiting, List.append_assoc]
  by_cases hnew : (s.can.ram i).NewDat
  · -- the message that waited is gone
    rw [if_pos hnew] at hover
    have hsub : (s.read i ++ s.inIf1 i).Sublist (s.stored i) := by
      refine List.Sublist.trans ?_ h.sublist
      unfold history
      rw [← List.append_assoc]
      exact List.sublist_append_left _ _
    refine ⟨?_, ?_, ?_⟩
    · rw [hhistory, hstored]
      exact hsub.append (List.Sublist.refl _)
    · intro hzero
      omega
    · intro hne
      exact absurd (hchained hnew) hne
  · rw [if_neg hnew] at hover
    have hbefore : s.history i = s.read i ++ s.inIf1 i := by
      unfold history waiting
      rw [if_neg hnew, List.append_nil]
    refine ⟨?_, ?_, ?_⟩
    · rw [hhistory, hstored, ← hbefore]
      exact h.sublist.append (List.Sublist.refl _)
    · intro hzero
      rw [hhistory, hstored, ← hbefore, h.exact (hover ▸ hzero)]
    · rw [hover]
      exact h.overwritten_eq

theorem inv_receive (h : s.Inv) (f : BusFrame) : (s.receive f).Inv := by
  obtain ⟨job, k, hk⟩ := h
  unfold receive
  split
  · exact ⟨job, k, hk⟩
  · next m htarget =>
    obtain ⟨hacc, hchained⟩ := CanBase.target_spec htarget
    obtain ⟨hm, hmk⟩ := hk.of_accepts hacc
    have hrecv := hk.receiver m hm hmk
    have hlast : (s.can.ram m).NewDat → m = canMboxLast := by
      intro hnew
      by_contra hne
      exact hchained hnew (hrecv.chained_iff.mpr hne)
    refine ⟨job, k, hk.moveRx rfl hm (hrecv.store f) hmk (le_refl k) (fun i hi => .inl hi) ?_
      hk.place rfl Iff.rfl id rfl rfl rfl ?_⟩
    · cases job <;> exact hk.doing
    · intro i hrx
      by_cases hi : i = m
      · subst hi
        refine (hk.accounts i hrx).store hlast rfl rfl rfl (Function.update_self _ _ _) rfl
          (Function.update_self _ _ _) ?_
        show (if _ then Function.update s.overwritten i _ else s.overwritten) i = _
        split
        · rw [Function.update_self]
        · rfl
      · refine (hk.accounts i hrx).congr ?_ (Function.update_of_ne hi _ _) ?_
        · unfold history waiting inIf1
          simp only [Function.update_of_ne hi]
        · show (if _ then Function.update s.overwritten m _ else s.overwritten) i = _
          split
          · rw [Function.update_of_ne hi]
          · rfl

theorem inv_transmit (h : s.Inv) (m : ℕ) : (s.transmit m).Inv := by
  obtain ⟨job, k, hk⟩ := h
  unfold transmit
  simp only
  split
  · next hsends =>
    obtain rfl := hk.of_sends hsends
    have hother : ∀ i, i ≠ 1 → Function.update s.can.ram 1 (s.can.ram 1).sent i = s.can.ram i :=
      fun i hi => Function.update_of_ne hi _ _
    -- a frame on its way to mailbox 1 finds it empty
    have hjob : job.outgoing = [] := by
      by_contra hne
      exact hk.free (.inr hne) hsends.2.2
    refine ⟨job, k, ?_, hk.place, hk.normal_iff, ?_, ?_, ?_, ?_, ?_, ?_, ?_⟩
    · cases job <;> exact hk.doing
    · intro i hi hlt
      simp only [canRxQueueFirstMbox] at hi
      simp only [hother i (by omega)]
      exact hk.receiver i hi hlt
    · intro i hi
      have hk2 : i ≠ 1 := by
        rintro rfl
        have := hk.place.two_le
        simp only [canRxQueueFirstMbox] at this
        omega
      simp only [hother i hk2]
      exact hk.blank i hi
    · simp only [Function.update_self]
      exact hk.closed.sent
    · intro _
      simp only [Function.update_self]
      exact MsgObject.not_txRqst_sent
    · have hsent := hk.sent
      unfold inMbox at hsent ⊢
      simp only [Function.update_self]
      rw [if_pos hsends.2.2, hjob] at hsent
      rw [if_neg MsgObject.not_txRqst_sent, hjob, ← hsent]
      simp
    · intro e he
      rcases List.mem_append.mp he with he | he
      · exact hk.from_one e he
      · rw [List.mem_singleton.mp he]
    · intro i hrx
      have hi := hrx.1
      simp only [canRxQueueFirstMbox] at hi
      refine (hk.accounts i hrx).congr ?_ rfl rfl
      unfold history waiting inIf1
      simp only [hother i (by omega)]
  · exact ⟨job, k, hk⟩

theorem inv_step (h : s.Inv) {e : CanEvent} (hallowed : s.Allowed e) :
    ∃ s', s.step e = .ok s' ∧ s'.Inv := by
  cases e with
  | send id dlc data => exact inv_send h hallowed
  | read mbox => exact inv_read h hallowed
  | poll => exact inv_poll h
  | transfer => exact ⟨_, rfl, inv_transfer h⟩
  | receive f =>
    refine ⟨_, rfl, ?_⟩
    split
    · exact inv_receive h f
    · exact h
  | transmit i =>
    refine ⟨_, rfl, ?_⟩
    split
    · exact inv_transmit h i
    · exact h

/-! ## Whole runs -/

/-- Every data frame finds a mailbox as long as the last one accepts it. -/
theorem isSome_target {f : BusFrame} (hrecv : (s.can.ram canMboxLast).Receiver canMboxLast)
    (hf : f.remote = false) : (s.can.target f).isSome := by
  unfold CanBase.target
  rw [List.find?_isSome]
  refine ⟨canMboxLast, by decide, ?_⟩
  rw [decide_eq_true_eq]
  refine ⟨hrecv.accepts_iff.mpr hf, ?_⟩
  rintro ⟨-, hchained⟩
  exact hrecv.chained_iff.mp hchained rfl

theorem exec_inv {events : List CanEvent} (hallowed : Run.Along step Allowed start events) :
    ∃ s, Run.exec step start events = .ok s ∧ s.Inv :=
  Run.exec_of_along (fun _ _ h he => inv_step h he) inv_start hallowed

end CanSystem

/-- The bus carries the frames that `can_send` took, each of them once, in order and from
mailbox 1, and at most the last one is still missing. -/
theorem bus_carries_taken (events : List CanEvent)
    (hallowed : Run.Along CanSystem.step CanSystem.Allowed .start events) :
    ∃ s, Run.exec CanSystem.step .start events = .ok s ∧ (∀ e ∈ s.bus, e.1 = 1) ∧
      (∃ late : List BusImage, late.length ≤ 1 ∧ s.bus.map Prod.snd ++ late = s.taken) ∧
      (s.can.busy = false → ¬ (s.can.ram 1).TxRqst → s.bus.map Prod.snd = s.taken) := by
  obtain ⟨s, hs, job, k, h⟩ := CanSystem.exec_inv hallowed
  refine ⟨s, hs, h.from_one, ⟨s.inMbox ++ job.outgoing, ?_, h.sent⟩, ?_⟩
  · by_cases hjob : job.outgoing = []
    · rw [hjob, List.append_nil]
      unfold CanSystem.inMbox
      split <;> simp
    · unfold CanSystem.inMbox
      rw [if_neg (h.free (.inr hjob))]
      cases job <;> simp [CanJob.outgoing]
  · intro hbusy hfree
    obtain rfl := h.not_busy hbusy
    have hsent := h.sent
    unfold CanSystem.inMbox at hsent
    rw [if_neg hfree] at hsent
    simpa [CanJob.outgoing] using hsent

/-- A receive mailbox hands out the messages stored in it, each of them once and in order; only in
the last mailbox a message can be overwritten before it is read. When `can_init` is through and no
transfer goes on, every receive mailbox accepts all data frames, and each of these finds a
mailbox. -/
theorem mailboxes_exactly_once (events : List CanEvent)
    (hallowed : Run.Along CanSystem.step CanSystem.Allowed .start events) :
    ∃ s, Run.exec CanSystem.step .start events = .ok s ∧
      (∀ i, IsRxMbox i → (s.history i).Sublist (s.stored i) ∧
        (s.overwritten i = 0 → s.history i = s.stored i) ∧
        (i ≠ canMboxLast → s.overwritten i = 0)) ∧
      (s.can.Normal → s.can.busy = false → ∀ f : BusFrame,
        (∀ i, IsRxMbox i → ((s.can.ram i).Accepts f ↔ f.remote = false)) ∧
        (f.remote = false → (s.can.target f).isSome)) := by
  obtain ⟨s, hs, job, k, h⟩ := CanSystem.exec_inv hallowed
  refine ⟨s, hs, ?_, ?_⟩
  · intro i hrx
    have hacc := h.accounts i hrx
    exact ⟨hacc.sublist, hacc.exact, hacc.overwritten_eq⟩
  · intro hnormal hbusy f
    obtain rfl := h.not_busy hbusy
    have hk : k = canMboxLast + 1 := by
      have hplace := h.place
      obtain ⟨pc, hpc⟩ : ∃ pc, s.pc = pc := ⟨_, rfl⟩
      rw [hpc] at hplace
      cases hplace with
      | init _ => exact absurd hpc (h.normal_iff.mp hnormal _)
      | _ => rfl
    subst hk
    have hrecv : ∀ i, IsRxMbox i → (s.can.ram i).Receiver i :=
      fun i hrx => h.receiver i hrx.1 (Nat.lt_succ_of_le hrx.2)
    exact ⟨fun i hrx => (hrecv i hrx).accepts_iff,
      CanSystem.isSome_target (hrecv canMboxLast ⟨by decide, le_refl _⟩)⟩

instance CanSystem.decidableAllowed (s : CanSystem) (e : CanEvent) : Decidable (s.Allowed e) :=
  match e with
  | .send _ _ _ => inferInstanceAs (Decidable (_ ∧ _))
  | .read _ => inferInstanceAs (Decidable (_ ≤ _))
  | .poll | .transfer | .receive _ | .transmit _ => .isTrue trivial

/-- `can_init` with a controller that completes every transfer at once. -/
def CanEvent.init : List CanEvent :=
  (List.replicate (canMboxLast + 1 - canRxQueueFirstMbox) [.poll, .transfer]).flatten

/-- A data frame with the standard identifier 5 and no data. -/
def BusFrame.five : BusFrame where
  ident := (5 : UInt32) <<< 18
  remote := false
  dlc := 0
  datx := Vector.replicate _ 0
  ident_fits := by decide
  dlc_fits := by decide

/-- One frame after the other. -/
theorem bus_carries_taken_two :
    ∃ s, Run.exec CanSystem.step .start (CanEvent.init ++
        [.send 1 0 fun _ => 0, .poll, .transfer, .transmit 1, .send 2 0 fun _ => 0, .poll, .transfer,
          .transmit 1]) = .ok s ∧ s.bus.map Prod.snd = s.taken ∧ s.taken.length = 2 := by
  obtain ⟨s, hs, -, -, hdone⟩ := bus_carries_taken (CanEvent.init ++
    [.send 1 0 fun _ => 0, .poll, .transfer, .transmit 1, .send 2 0 fun _ => 0, .poll, .transfer,
      .transmit 1]) (by decide +kernel)
  have hends : (Run.exec CanSystem.step .start (CanEvent.init ++
      [.send 1 0 fun _ => 0, .poll, .transfer, .transmit 1, .send 2 0 fun _ => 0, .poll, .transfer,
        .transmit 1])).map (fun s => (s.can.busy, decide (s.can.ram 1).TxRqst, s.taken.length))
      = .ok (false, false, 2) := by
    decide +kernel
  rw [hs] at hends
  obtain ⟨hbusy, hfree, hlength⟩ : s.can.busy = false ∧ decide (s.can.ram 1).TxRqst = false ∧
      s.taken.length = 2 := by
    simpa [Except.map] using hends
  exact ⟨s, hs, hdone hbusy (of_decide_eq_false hfree), hlength⟩

/-- The second call begins before the transfer of the first has ended: the transmission request
is not set yet, and the second frame replaces the first in mailbox 1. -/
theorem frame_overwritten :
    ∃ s, Run.exec CanSystem.step .start (CanEvent.init ++
        [.send 1 0 fun _ => 0, .poll, .send 2 0 fun _ => 0, .transfer, .poll, .transfer,
          .transmit 1, .transmit 1]) = .ok s ∧
      s.taken = [imageOf 1 0 fun _ => 0, imageOf 2 0 fun _ => 0] ∧
      s.bus = [(1, imageOf 2 0 fun _ => 0)] := by
  have hends : (Run.exec CanSystem.step .start (CanEvent.init ++
      [.send 1 0 fun _ => 0, .poll, .send 2 0 fun _ => 0, .transfer, .poll, .transfer,
        .transmit 1, .transmit 1])).map (fun s => (s.taken, s.bus))
      = .ok ([imageOf 1 0 fun _ => 0, imageOf 2 0 fun _ => 0], [(1, imageOf 2 0 fun _ => 0)]) := by
    decide +kernel
  cases hexec : Run.exec CanSystem.step .start (CanEvent.init ++
      [.send 1 0 fun _ => 0, .poll, .send 2 0 fun _ => 0, .transfer, .poll, .transfer,
        .transmit 1, .transmit 1]) with
  | error x =>
    rw [hexec] at hends
    cases hends
  | ok s =>
    rw [hexec] at hends
    obtain ⟨htaken, hbus⟩ := Prod.mk.inj (Except.ok.inj hends)
    exact ⟨s, rfl, htaken, hbus⟩

/-- A message is received, read and gone, while the next one waits. -/
theorem mailboxes_exactly_once_two :
    ∃ s, Run.exec CanSystem.step .start (CanEvent.init ++
        [.receive .five, .read 2, .poll, .transfer, .receive .five, .poll]) = .ok s ∧
      s.history 2 = s.stored 2 ∧ s.read 2 = [(5, 0, [])] ∧ s.waiting 2 = [(5, 0, [])] := by
  obtain ⟨s, hs, hhistory, -⟩ := mailboxes_exactly_once (CanEvent.init ++
    [.receive .five, .read 2, .poll, .transfer, .receive .five, .poll]) (by decide +kernel)
  have hends : (Run.exec CanSystem.step .start (CanEvent.init ++
      [.receive .five, .read 2, .poll, .transfer, .receive .five, .poll])).map
        (fun s => (s.read 2, s.waiting 2)) = .ok ([(5, 0, [])], [(5, 0, [])]) := by
    decide +kernel
  rw [hs] at hends
  obtain ⟨hread, hwaiting⟩ := Prod.mk.inj (Except.ok.inj hends)
  have h2 := hhistory 2 (by decide)
  exact ⟨s, hs, h2.2.1 (h2.2.2 (by decide)), hread, hwaiting⟩

end Cannelloni
