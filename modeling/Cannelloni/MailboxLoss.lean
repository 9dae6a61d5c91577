import Cannelloni.ArrivalOrder

/-!
# Messages taken out of the mailboxes

`on_can_receive` asks for a slot only after `can_mbox_has_data` has read the mailbox, and the
read clears `NewDat`. A message that then finds `rx_queue` full is neither in a mailbox nor in
the queue. `consumesStored_iff` says when a call takes out exactly what it stores. No message
arrives during the call here.
-/

namespace Cannelloni

/-! ## What a call takes out -/

/-- The controller does nothing by itself. -/
def still : ℕ → Dcan → Dcan := fun _ c => c

/-- The messages of `c` that are no longer pending in `c'`, in the order of their mailboxes. -/
def removedMessages (c c' : Dcan) : List If1 :=
  ((List.range' canRxQueueFirstMbox (canMboxLast + 1 - canRxQueueFirstMbox)).filter fun i =>
    (c.mailbox i).NewDat ∧ ¬ (c'.mailbox i).NewDat).map c.mailbox

/-- A scan from the first mailbox on reaches every pending message. -/
def Dcan.AllReachable (c : Dcan) : Prop :=
  ∀ i, canRxQueueFirstMbox ≤ i → i ≤ canMboxLast → (c.mailbox i).NewDat →
    ∀ j, canRxQueueFirstMbox ≤ j → j ≤ i → (c.mailbox j).NewDat

/-- The scan stopped at a mailbox with a message, which it does only without a free slot. -/
def Scan.StoppedFull (c : Dcan) (s : Scan) : Prop :=
  s.mbox ≤ canMboxLast ∧ (c.mailbox s.mbox).NewDat

/-- The call returns, takes out exactly the messages it appends to `rx_queue`, and when it
stops for want of a slot it leaves the others pending where a later scan reaches them. -/
def ConsumesStored (c : Dcan) (n : Node) : Prop :=
  ∃ s, onCanReceive still c n = .ok s ∧ s.node.rxFrames = n.rxFrames ++ s.stored ∧
    (removedMessages c s.dcan).map If1.view = s.stored.map CanfdFrame.view ∧
    (s.StoppedFull c →
      (∀ i, s.mbox ≤ i → i ≤ canMboxLast → (c.mailbox i).NewDat →
        s.dcan.mailbox i = c.mailbox i) ∧ s.dcan.AllReachable)

/-- The mailboxes from the first one on, up to the first without a message. -/
def Dcan.pendingRun (c : Dcan) : List ℕ :=
  (List.range' canRxQueueFirstMbox canMboxLast).takeWhile fun i =>
    i ≤ canMboxLast ∧ (c.mailbox i).NewDat

/-! ## The mailboxes a scan accesses -/

theorem mailbox_canMboxHasData (c : Dcan) (mbox i : ℕ) :
    (canMboxHasData c mbox).2.mailbox i
      = if i = mbox ∧ mbox ≤ canMboxLast then (c.mailbox i).read else c.mailbox i := by
  unfold canMboxHasData
  by_cases hle : mbox ≤ canMboxLast
  · rw [if_neg (not_lt.mpr hle)]
    by_cases hi : i = mbox
    · subst hi
      simp only [Function.update_self, hle, and_self, if_true]
    · simp only [Function.update_of_ne hi, hi, false_and, if_false]
  · rw [if_pos (not_le.mp hle), if_neg fun h => hle h.2]

/-- A scan reads the mailboxes up to the one it stops at, and stores one frame for each but
that one. -/
theorem scanLoop_mailboxes {fuel : ℕ} {s s' : Scan} (hv : s.node.handle.rxQueue.Valid)
    (h : scanLoop still fuel s = .ok s') (hfuel : canMboxLast < s.mbox + fuel) :
    s'.mbox + s.stored.length = s.mbox + s'.stored.length ∧
      s.stored.length ≤ s'.stored.length ∧
      ∀ i, s'.dcan.mailbox i = if s.mbox ≤ i ∧ i ≤ s'.mbox ∧ i ≤ canMboxLast
        then (s.dcan.mailbox i).read else s.dcan.mailbox i := by
  induction fuel generalizing s with
  | zero =>
    obtain rfl : s = s' := Except.ok.inj h
    refine ⟨rfl, Nat.le_refl _, ?_⟩
    intro i
    rw [if_neg (by omega)]
  | succ fuel ih =>
    have hunfold : scanLoop still (fuel + 1) s = scanStep s >>= fun r =>
      if r.1 then scanLoop still fuel r.2 else pure r.2 := rfl
    rw [hunfold] at h
    -- a scan that stops here has accessed this mailbox only
    have hstop : s.stop = s' → s'.mbox + s.stored.length = s.mbox + s'.stored.length ∧
        s.stored.length ≤ s'.stored.length ∧
        ∀ i, s'.dcan.mailbox i = if s.mbox ≤ i ∧ i ≤ s'.mbox ∧ i ≤ canMboxLast
          then (s.dcan.mailbox i).read else s.dcan.mailbox i := by
      intro hs
      subst hs
      refine ⟨rfl, Nat.le_refl _, ?_⟩
      intro i
      show (canMboxHasData s.dcan s.mbox).2.mailbox i
        = if s.mbox ≤ i ∧ i ≤ s.mbox ∧ i ≤ canMboxLast then _ else _
      rw [mailbox_canMboxHasData]
      congr 1
      exact propext (by omega)
    cases hdata : (canMboxHasData s.dcan s.mbox).1 with
    | false =>
      rw [scanStep_no_data hdata] at h
      exact hstop (Except.ok.inj h)
    | true =>
      by_cases hf : s.node.handle.rxQueue.Full
      · rw [scanStep_full hdata hf] at h
        exact hstop (Except.ok.inj h)
      · by_cases hfit : (canMboxHasData s.dcan s.mbox).2.if1.Fits
        · rw [scanStep_store hv hdata hf hfit] at h
          have hmbox : s.store.mbox = s.mbox + 1 := rfl
          have hstored : s.store.stored.length = s.stored.length + 1 := by simp [Scan.store]
          obtain ⟨hlen, hle, hmail⟩ := ih (s := s.store) hv.push h (by omega)
          refine ⟨by omega, by omega, ?_⟩
          intro i
          have hhere : s.store.dcan.mailbox i
              = if i = s.mbox ∧ s.mbox ≤ canMboxLast then (s.dcan.mailbox i).read
                else s.dcan.mailbox i := mailbox_canMboxHasData s.dcan s.mbox i
          have hin := (cell_of_hasData hdata).1
          rw [hmail i, hmbox]
          by_cases hi : i = s.mbox
          · rw [if_pos ⟨hi, hin⟩] at hhere
            rw [if_neg (by omega), if_pos ⟨by omega, by omega, by omega⟩, hhere]
          · rw [if_neg fun h => hi h.1] at hhere
            rw [hhere]
            congr 1
            exact propext (by omega)
        · rw [scanStep_error hdata hf hfit] at h
          cases h

/-! ## The messages a scan finds -/

/-- With nothing arriving, a scan finds the messages of a run of mailboxes. -/
theorem found_still {fuel mbox : ℕ} {c c' : Dcan} (h : ∀ i, mbox ≤ i → c'.mailbox i = c.mailbox i) :
    found still fuel c' mbox = ((List.range' mbox fuel).takeWhile fun i =>
      i ≤ canMboxLast ∧ (c.mailbox i).NewDat).map c.mailbox := by
  induction fuel generalizing mbox c' with
  | zero => rfl
  | succ fuel ih =>
    have hhere := h mbox (Nat.le_refl _)
    have hdata : (canMboxHasData c' mbox).1
        = decide (mbox ≤ canMboxLast ∧ (c.mailbox mbox).NewDat) := by
      unfold canMboxHasData
      by_cases hle : mbox ≤ canMboxLast
      · simp only [if_neg (not_lt.mpr hle), hhere, hle, true_and]
      · simp only [if_pos (not_le.mp hle), hle, false_and, decide_false]
    rw [List.range'_succ, List.takeWhile_cons]
    simp only [found]
    show (if (canMboxHasData c' mbox).1 = true then _ else _) = _
    by_cases hnew : mbox ≤ canMboxLast ∧ (c.mailbox mbox).NewDat
    · have hif1 : (canMboxHasData c' mbox).2.if1 = c.mailbox mbox := by
        unfold canMboxHasData
        rw [if_neg (not_lt.mpr hnew.1), ← hhere]
      -- the mailboxes above are still as they were
      have habove : ∀ i, mbox + 1 ≤ i → (canMboxHasData c' mbox).2.mailbox i = c.mailbox i := by
        intro i hi
        rw [mailbox_canMboxHasData, if_neg (by omega), h i (by omega)]
      rw [hdata, decide_eq_true hnew]
      simp only [if_true, List.map_cons]
      rw [← ih habove, ← hif1]
      rfl
    · rw [hdata, decide_eq_false hnew]
      rfl

theorem foundMessages_still (c : Dcan) : foundMessages still c = c.pendingRun.map c.mailbox :=
  found_still fun _ _ => rfl

/-- The run of mailboxes with messages, by its length. -/
theorem Dcan.pendingRun_spec (c : Dcan) :
    ∃ l ≤ canMboxLast + 1 - canRxQueueFirstMbox, c.pendingRun = List.range' canRxQueueFirstMbox l ∧
      (∀ i, canRxQueueFirstMbox ≤ i → i < canRxQueueFirstMbox + l → (c.mailbox i).NewDat) ∧
      (canRxQueueFirstMbox + l ≤ canMboxLast → ¬ (c.mailbox (canRxQueueFirstMbox + l)).NewDat) := by
  obtain ⟨l, hl, htake, hall, hstop⟩ := Sweep.exists_takeWhile_range'
    (i := canRxQueueFirstMbox) (fun i => i ≤ canMboxLast ∧ (c.mailbox i).NewDat) canMboxLast
  simp only [decide_eq_true_eq, decide_eq_false_iff_not, not_and] at hall hstop
  have hle : l ≤ canMboxLast + 1 - canRxQueueFirstMbox := by
    by_contra hgt
    have := (hall (canMboxLast + 1) (by simp) (by omega)).1
    omega
  refine ⟨l, hle, htake, fun i h₁ h₂ => (hall i h₁ h₂).2, fun h => hstop ?_ h⟩
  simp only [canRxQueueFirstMbox] at h ⊢
  omega

/-! ## What is stored and what is lost -/

/-- A call takes out the messages it stores and, when it stops at a message, that one too. -/
theorem removedMessages_eq {c c' : Dcan} {k l : ℕ}
    (hl : l ≤ canMboxLast + 1 - canRxQueueFirstMbox)
    (hall : ∀ i, canRxQueueFirstMbox ≤ i → i < canRxQueueFirstMbox + l → (c.mailbox i).NewDat)
    (hend : canRxQueueFirstMbox + l ≤ canMboxLast →
      ¬ (c.mailbox (canRxQueueFirstMbox + l)).NewDat) (hkl : k ≤ l)
    (hmail : ∀ i, c'.mailbox i = if canRxQueueFirstMbox ≤ i ∧ i ≤ canRxQueueFirstMbox + k ∧
      i ≤ canMboxLast then (c.mailbox i).read else c.mailbox i) :
    removedMessages c c' = (List.range' canRxQueueFirstMbox (min l (k + 1))).map c.mailbox := by
  have hsplit : List.range' canRxQueueFirstMbox (canMboxLast + 1 - canRxQueueFirstMbox)
      = List.range' canRxQueueFirstMbox (min l (k + 1))
        ++ List.range' (canRxQueueFirstMbox + min l (k + 1))
          (canMboxLast + 1 - canRxQueueFirstMbox - min l (k + 1)) := by
    rw [List.range'_append_1]
    congr 1
    omega
  unfold removedMessages
  rw [hsplit, List.filter_append, List.filter_eq_self.mpr, List.filter_eq_nil_iff.mpr,
    List.append_nil]
  · -- above the run of messages taken out
    intro i hi
    rw [List.mem_range'_1] at hi
    rw [hmail i, decide_eq_true_eq]
    split
    · next hin =>
      obtain rfl : i = canRxQueueFirstMbox + l := by omega
      exact fun h => hend hin.2.2 h.1
    · exact fun h => h.2 h.1
  · intro i hi
    rw [List.mem_range'_1] at hi
    rw [hmail i, if_pos ⟨hi.1, by omega, by simp only [canRxQueueFirstMbox] at *; omega⟩,
      decide_eq_true_eq]
    exact ⟨hall i hi.1 (by omega), If1.not_newDat_read _⟩

/-- How far a call gets that returns, and what it has taken out then. -/
theorem onCanReceive_still_spec {c : Dcan} {n : Node} (hv : n.handle.rxQueue.Valid) {s : Scan}
    (hs : onCanReceive still c n = .ok s) :
    s.stored.length = min c.pendingRun.length n.handle.rxQueue.free ∧
      s.mbox = canRxQueueFirstMbox + s.stored.length ∧
      removedMessages c s.dcan = (List.range' canRxQueueFirstMbox
        (min c.pendingRun.length (s.stored.length + 1))).map c.mailbox := by
  obtain ⟨l, hl, hrun, hall, hend⟩ := c.pendingRun_spec
  have hlen : c.pendingRun.length = l := by rw [hrun, List.length_range']
  obtain ⟨-, hreads⟩ := reads_of_ok hv hs
  have hcount : s.stored.length = min l n.handle.rxQueue.free := by
    rw [hreads.stored_eq, List.length_append, length_fillSlots, List.length_take,
      foundMessages_still, List.length_map, hlen]
    show 0 + min n.handle.rxQueue.free l = _
    omega
  obtain ⟨hmbox, -, hmail⟩ :=
    scanLoop_mailboxes hv hs (show canMboxLast < 2 + canMboxLast by decide)
  have hpos : s.mbox = canRxQueueFirstMbox + s.stored.length := hmbox
  rw [hpos] at hmail
  rw [hlen]
  exact ⟨hcount, hpos, removedMessages_eq hl hall hend (by omega) hmail⟩

/-- A call takes out exactly what it stores when no more messages wait in the run of mailboxes
from the first one on than `rx_queue` has free slots, and each fits its slot. -/
theorem consumesStored_iff (c : Dcan) (n : Node) (hv : n.handle.rxQueue.Valid) :
    ConsumesStored c n ↔ c.pendingRun.length ≤ n.handle.rxQueue.free ∧
      ∀ i ∈ c.pendingRun, (c.mailbox i).Fits := by
  have hall : c.pendingRun.length ≤ n.handle.rxQueue.free →
      (foundMessages still c).take n.handle.rxQueue.free = c.pendingRun.map c.mailbox := by
    intro hle
    rw [foundMessages_still, List.take_of_length_le (by rw [List.length_map]; exact hle)]
  constructor
  · intro h
    rcases h with ⟨s, hs, -, hremoved, -⟩
    obtain ⟨hfit, -⟩ := reads_of_ok hv hs
    obtain ⟨hcount, -, hlist⟩ := onCanReceive_still_spec hv hs
    -- one more message than was stored would have been taken out
    have hlength := congrArg List.length hremoved
    rw [List.length_map, List.length_map, hlist, List.length_map, List.length_range'] at hlength
    have hle : c.pendingRun.length ≤ n.handle.rxQueue.free := by omega
    refine ⟨hle, ?_⟩
    intro i hi
    rw [hall hle] at hfit
    exact hfit _ (List.mem_map_of_mem hi)
  · intro h
    rcases h with ⟨hle, hfits⟩
    have hfit : ∀ m ∈ (foundMessages still c).take n.handle.rxQueue.free, m.Fits := by
      rw [hall hle]
      intro m hm
      obtain ⟨i, hi, rfl⟩ := List.mem_map.mp hm
      exact hfits i hi
    obtain ⟨s, hs, hreads⟩ := onCanReceive_ok hv hfit
    obtain ⟨hcount, hmbox, hlist⟩ := onCanReceive_still_spec hv hs
    have hstored : s.stored = fillSlots If1.frame n.mem n.handle.rxQueue
        ((foundMessages still c).take n.handle.rxQueue.free) := hreads.stored_eq
    have hviews : s.stored.map CanfdFrame.view
        = ((foundMessages still c).take n.handle.rxQueue.free).map If1.view := by
      rw [hstored]
      exact map_fillSlots _ fun m hm old => If1.frame_view (hfit m hm) old
    obtain ⟨l, -, hrun, -, hend⟩ := c.pendingRun_spec
    have hl : c.pendingRun.length = l := by rw [hrun, List.length_range']
    refine ⟨s, hs, ?_, ?_, ?_⟩
    · rw [hstored]
      exact hreads.appended.contents_eq
    · rw [hviews, hall hle, hlist, show min c.pendingRun.length (s.stored.length + 1) = l by omega,
        ← hrun]
    · -- the scan stopped behind the last message
      intro hfull
      unfold Scan.StoppedFull at hfull
      rw [hmbox, show s.stored.length = l by omega] at hfull
      exact absurd hfull.2 (hend hfull.1)

/-- A controller with the given messages pending from the first mailbox on. -/
def Dcan.holding (ms : List If1) : Dcan :=
  ⟨fun i => if h : canRxQueueFirstMbox ≤ i ∧ i - canRxQueueFirstMbox < ms.length
    then (ms.get ⟨i - canRxQueueFirstMbox, h.2⟩).received else Dcan.idle.mailbox i, Dcan.idle.if1⟩

theorem Dcan.fits_holding {ms : List If1} (h : ∀ m ∈ ms, m.received.Fits) (i : ℕ) :
    ((holding ms).mailbox i).Fits := by
  unfold holding
  simp only
  split
  · exact h _ (List.get_mem _ _)
  · exact (by decide : (Dcan.idle.mailbox 0).Fits)

/-- Two messages and an empty queue. -/
theorem consumesStored_two :
    ConsumesStored (.holding [.short 1, .short 2]) (.backlog 0 .zero) :=
  (consumesStored_iff (.holding [.short 1, .short 2]) (.backlog 0 .zero)
    (Node.backlog_valid (by decide) .zero).rx).mpr (by decide +kernel)

/-- A message that finds `rx_queue` full is taken out of its mailbox all the same. -/
theorem message_lost :
    ¬ ∀ (c : Dcan) (n : Node), n.handle.Valid → (∀ i, (c.mailbox i).Fits) →
      ConsumesStored c n := by
  intro h
  obtain ⟨s, hs, -, hremoved, -⟩ := h (.holding [.short 1]) (.backlog 127 .zero)
    (Node.backlog_valid (by decide) .zero) (Dcan.fits_holding (by decide +kernel))
  have hrun : (onCanReceive still (.holding [.short 1]) (.backlog 127 .zero)).map
      (fun s => ((removedMessages (.holding [.short 1]) s.dcan).length, s.stored.length))
      = .ok (1, 0) := by decide +kernel
  rw [hs] at hrun
  have hlengths : ((removedMessages (.holding [.short 1]) s.dcan).length, s.stored.length)
      = (1, 0) := Except.ok.inj hrun
  have hlength := congrArg List.length hremoved
  rw [List.length_map, List.length_map, (Prod.mk.inj hlengths).1, (Prod.mk.inj hlengths).2]
    at hlength
  cases hlength

end Cannelloni
