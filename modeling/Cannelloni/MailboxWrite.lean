import Cannelloni.Decoder
import Cannelloni.Drivers.CanSend

/-!
# What the transmit mailbox is told about a frame

`arbOf` and `mctlOf` are the register values `can_send` makes of the identifier word and the
length byte of a queued frame. Here are their fields, the frames for which they describe what
the queue meant (`sendsFaithfully_iff`), and what a receiver reads from the same register
values (`canFillRxMbox_canSend`).
-/

namespace Cannelloni

/-- The identifier word carries the extended frame format flag. -/
abbrev IsEff (canId : UInt32) : Prop := canId &&& canMsgidExtended ≠ 0

/-! ## Fields of the arbitration register -/

section Fields

variable (id : UInt32)

theorem arbOf_of_eff {id : UInt32} (h : IsEff id) :
    arbOf id = ifarbMsgval ||| ifarbDir ||| (ifarbXtd ||| (id &&& canMsgidXtdMask)) := if_pos h

theorem arbOf_of_not_eff {id : UInt32} (h : ¬ IsEff id) :
    arbOf id = ifarbMsgval ||| ifarbDir |||
      ((id <<< ifarbIdStdShift) &&& (canMsgidStdMask <<< ifarbIdStdShift)) := by
  rw [← UInt32.shiftLeft_and]
  exact if_neg h

/-- A mask sees each of the disjoint fields for itself. -/
theorem and_of_eff {id : UInt32} (h : IsEff id) (mask : UInt32) :
    arbOf id &&& mask = (ifarbMsgval ||| ifarbDir) &&& mask |||
      (ifarbXtd &&& mask ||| id &&& (canMsgidXtdMask &&& mask)) := by
  rw [arbOf_of_eff h, Bytes.or_and_distrib, Bytes.or_and_distrib ifarbXtd, UInt32.and_assoc id]

theorem and_of_not_eff {id : UInt32} (h : ¬ IsEff id) (mask : UInt32) :
    arbOf id &&& mask = (ifarbMsgval ||| ifarbDir) &&& mask |||
      (id <<< ifarbIdStdShift) &&& ((canMsgidStdMask <<< ifarbIdStdShift) &&& mask) := by
  rw [arbOf_of_not_eff h, Bytes.or_and_distrib, UInt32.and_assoc (id <<< ifarbIdStdShift)]

theorem arbOf_and_xtd : arbOf id &&& ifarbXtd = if IsEff id then ifarbXtd else 0 := by
  by_cases h : IsEff id
  · rw [if_pos h, and_of_eff h, show canMsgidXtdMask &&& ifarbXtd = 0 by decide, UInt32.and_zero]
    decide
  · rw [if_neg h, and_of_not_eff h,
      show (canMsgidStdMask <<< ifarbIdStdShift) &&& ifarbXtd = 0 by decide, UInt32.and_zero]
    decide

/-- The identifier field: all 29 bits, or 11 bits from bit 18 on. -/
theorem arbOf_and_mask : arbOf id &&& canMsgidXtdMask
    = if IsEff id then id &&& canMsgidXtdMask
      else (id &&& canMsgidStdMask) <<< ifarbIdStdShift := by
  have hflags : (ifarbMsgval ||| ifarbDir) &&& canMsgidXtdMask = 0 := by decide
  by_cases h : IsEff id
  · rw [if_pos h, and_of_eff h, hflags, show ifarbXtd &&& canMsgidXtdMask = 0 by decide,
      UInt32.and_self, UInt32.zero_or, UInt32.zero_or]
  · have hstd : (canMsgidStdMask <<< ifarbIdStdShift) &&& canMsgidXtdMask
        = canMsgidStdMask <<< ifarbIdStdShift := by decide
    rw [if_neg h, and_of_not_eff h, hflags, hstd, UInt32.zero_or, ← UInt32.shiftLeft_and]

/-- The direction bit is set whatever the identifier word says. -/
theorem arbOf_and_dir : arbOf id &&& ifarbDir = ifarbDir := by
  have hflags : (ifarbMsgval ||| ifarbDir) &&& ifarbDir = ifarbDir := by decide
  by_cases h : IsEff id
  · rw [and_of_eff h, hflags, show ifarbXtd &&& ifarbDir = 0 by decide,
      show canMsgidXtdMask &&& ifarbDir = 0 by decide, UInt32.and_zero]
    decide
  · rw [and_of_not_eff h, hflags,
      show (canMsgidStdMask <<< ifarbIdStdShift) &&& ifarbDir = 0 by decide, UInt32.and_zero]
    decide

end Fields

/-! ## Frames that are sent as they were queued -/

/-- The register values describe the frame: the length code, the identifier at its place, and
a remote request for a remote frame. -/
structure If1.Describes (m : If1) (f : CanfdFrame) : Prop where
  mctl_eq : m.mctl = ifmctlNewdat ||| ifmctlTxrqst ||| UInt32.ofNat (canfdLen f)
  xtd_iff : m.arb &&& ifarbXtd ≠ 0 ↔ IsEff f.canId
  id_eq : m.arb &&& canMsgidXtdMask = if IsEff f.canId then f.canId &&& canMsgidXtdMask
    else (f.canId &&& canMsgidStdMask) <<< ifarbIdStdShift
  dir_iff : m.arb &&& ifarbDir = 0 ↔ IsRtr f.canId

/-- A call with the mailbox busy writes nothing; with the mailbox free it stays inside the
tables and the registers, and describes the frame. -/
def SendsFaithfully (r : CanReg) (f : CanfdFrame) : Prop :=
  if r.Busy then onCanTransmit r f = .ok (false, r)
  else ∃ r', onCanTransmit r f = .ok (true, r') ∧ r'.if1.Describes f

theorem If1.describes_programmed {old : If1} {f : CanfdFrame} (hfd : ¬ IsFd f.len)
    (hrtr : ¬ IsRtr f.canId) : (old.programmed f.canId f.len f.byteAt).Describes f where
  mctl_eq := by
    have hlen : UInt32.ofNat (canfdLen f) = f.len.toUInt32 := by
      unfold canfdLen
      rw [dlcOf_of_not_isFd hfd]
      apply UInt32.toNat_inj.mp
      simp
    rw [programmed_mctl, hlen]
    unfold mctlOf
    rw [UInt32.shiftLeft_zero]
  xtd_iff := by
    rw [programmed_arb, arbOf_and_xtd]
    by_cases h : IsEff f.canId
    · rw [if_pos h]
      exact iff_of_true (by decide) h
    · rw [if_neg h]
      exact iff_of_false (fun h0 => h0 rfl) h
  id_eq := arbOf_and_mask f.canId
  dir_iff := by
    rw [programmed_arb, arbOf_and_dir]
    exact iff_of_false (by decide) hrtr

/-- A free mailbox is told the truth about a frame exactly when the frame is neither a CAN FD
nor a remote frame. -/
theorem sendsFaithfully_iff (r : CanReg) (f : CanfdFrame) (hlen : canfdLen f ≤ cnlCanfdMaxDlen) :
    SendsFaithfully r f ↔ r.Busy ∨ (¬ IsFd f.len ∧ ¬ IsRtr f.canId) := by
  unfold SendsFaithfully
  by_cases hbusy : r.Busy
  · rw [if_pos hbusy]
    exact iff_of_true (canSend_busy hbusy) (.inl hbusy)
  rw [if_neg hbusy]
  constructor
  · intro h
    rcases h with ⟨r', hsend, hdesc⟩
    right
    -- with the CAN FD bit in it, the length byte drives the loop over the table
    have hfd : ¬ IsFd f.len := by
      intro hfd
      have h8 : 8 < f.len.toNat := by
        have := (isFd_iff f.len).mp hfd
        omega
      unfold onCanTransmit at hsend
      rw [canSend_error hbusy h8] at hsend
      cases hsend
    refine ⟨hfd, ?_⟩
    have h8 : f.len.toNat ≤ 8 := by
      rw [← dlcOf_of_not_isFd hfd]
      exact hlen
    unfold onCanTransmit at hsend
    rw [canSend_free hbusy h8] at hsend
    obtain rfl := (Prod.mk.inj (Except.ok.inj hsend)).2
    intro hrtr
    have hdir := hdesc.dir_iff.mpr hrtr
    rw [If1.programmed_arb, arbOf_and_dir] at hdir
    exact absurd hdir (by decide)
  · intro h
    rcases h with hb | ⟨hfd, hrtr⟩
    · exact absurd hb hbusy
    · have h8 : f.len.toNat ≤ 8 := by
        rw [← dlcOf_of_not_isFd hfd]
        exact hlen
      exact ⟨_, canSend_free hbusy h8, If1.describes_programmed hfd hrtr⟩

/-- A controller at rest. -/
def CanReg.idle : CanReg := ⟨Vector.replicate _ 0, Dcan.idle.if1, 0, 0⟩

/-- A classic data frame with an extended identifier. -/
theorem sendsFaithfully_classic :
    SendsFaithfully .idle ⟨0x80000005, 2, 0, #v[1, 2, 0, 0, 0, 0, 0, 0]⟩ :=
  (sendsFaithfully_iff .idle ⟨0x80000005, 2, 0, #v[1, 2, 0, 0, 0, 0, 0, 0]⟩ (by decide)).mpr
    (by decide)

/-- A remote record of length 0 is queued and then sent as a data frame. -/
theorem remote_frame_sent_as_data :
    ¬ ∀ (n : Node) (p : PbufChain) (o : Handled) (f : CanfdFrame) (r : CanReg), n.handle.Valid →
      handleCannelloniFrame n (some p) = .ok o → f ∈ o.stored → canfdLen f ≤ cnlCanfdMaxDlen →
      SendsFaithfully r f := by
  intro h
  set p : PbufChain := .contiguous [2, 0, 0, 0, 1, 0x40, 0, 0, 1, 0] (fun _ => 0) (by simp)
  set f : CanfdFrame := ⟨0x40000001, 0, 0, Vector.replicate _ 0⟩
  have hv := initCannelloni_valid (mainInit 0 0)
  obtain ⟨o, ho, -⟩ := handleCannelloniFrame_ok (n := ⟨zeroMemory, initCannelloni (mainInit 0 0)⟩)
    (p := p) hv.tx (by decide +kernel)
  have hstored : (handleCannelloniFrame ⟨zeroMemory, initCannelloni (mainInit 0 0)⟩
      (some p)).map Handled.stored = .ok [f] := by decide +kernel
  rw [ho] at hstored
  have hf : f ∈ o.stored := by
    rw [Except.ok.inj hstored]
    exact List.mem_singleton_self f
  -- the direction bit that `can_send` sets makes a data frame of it
  have hsent := h _ p o f .idle hv ho hf (by decide)
  unfold SendsFaithfully at hsent
  rw [if_neg (by decide)] at hsent
  obtain ⟨r', hr', hdesc⟩ := hsent
  have hdir : (onCanTransmit .idle f).map (fun out => out.2.if1.arb &&& ifarbDir)
      = .ok ifarbDir := by decide +kernel
  rw [hr'] at hdir
  have hset : r'.if1.arb &&& ifarbDir = ifarbDir := Except.ok.inj hdir
  have hzero := hdesc.dir_iff.mpr (by decide)
  rw [hset] at hzero
  exact absurd hzero (by decide)

/-! ## A receiver reads what was written -/

/-- An 11-bit identifier, or the extended format flag and a 29-bit identifier. -/
def ClassicId (id : UInt32) : Prop :=
  id.toNat < 2 ^ 11 ∨ ∃ x : UInt32, x.toNat < 2 ^ 29 ∧ id = canMsgidExtended ||| x

/-- The registers of a receiver show what `sent` put on the bus. -/
structure If1.Presents (m sent : If1) : Prop where
  arb_eq : m.arb = sent.arb &&& ~~~ifarbDir
  dlc_eq : m.mctl &&& 0b1111 = sent.mctl &&& 0b1111
  newDat : m.NewDat
  data_eq : ∀ i < sent.len.toNat, m.dataByte i = sent.dataByte i

theorem and_stdMask_of_lt {id : UInt32} (h : id.toNat < 2 ^ 11) : id &&& canMsgidStdMask = id := by
  apply UInt32.toNat_inj.mp
  rw [UInt32.toNat_and]
  exact (Nat.and_two_pow_sub_one_eq_mod id.toNat 11).trans (Nat.mod_eq_of_lt h)

theorem and_xtdMask_of_lt {id : UInt32} (h : id.toNat < 2 ^ 29) : id &&& canMsgidXtdMask = id := by
  apply UInt32.toNat_inj.mp
  rw [UInt32.toNat_and]
  exact (Nat.and_two_pow_sub_one_eq_mod id.toNat 29).trans (Nat.mod_eq_of_lt h)

/-- An 11-bit identifier survives the shift to its place in the register and back. -/
theorem shift_back {id : UInt32} (h : id.toNat < 2 ^ 11) :
    (id <<< ifarbIdStdShift) >>> 18 = id := by
  have hshift : ifarbIdStdShift.toNat % 32 = 18 := rfl
  have hback : (18 : UInt32).toNat % 32 = 18 := rfl
  apply UInt32.toNat_inj.mp
  rw [UInt32.toNat_shiftRight, UInt32.toNat_shiftLeft, hshift, hback, Nat.shiftLeft_eq,
    Nat.shiftRight_eq_div_pow]
  omega

theorem not_isEff_of_lt {id : UInt32} (h : id.toNat < 2 ^ 11) : ¬ IsEff id := by
  have hand : id &&& canMsgidExtended = 0 := by
    rw [← and_stdMask_of_lt h, UInt32.and_assoc,
      show canMsgidStdMask &&& canMsgidExtended = 0 by decide, UInt32.and_zero]
  exact fun h => h hand

theorem isEff_extended (x : UInt32) : IsEff (canMsgidExtended ||| x) := by
  intro hzero
  rw [Bytes.or_and_distrib, UInt32.and_self] at hzero
  exact absurd (UInt32.or_eq_zero_iff.mp hzero).1 (by decide)

/-- The identifier word comes back out of the arbitration register. -/
theorem If1.canId_of_arb {m : If1} {id : UInt32} (hid : ClassicId id)
    (harb : m.arb = arbOf id &&& ~~~ifarbDir) : m.canId = id := by
  have hmask : m.arb &&& 0x1FFFFFFF = arbOf id &&& canMsgidXtdMask := by
    rw [harb, UInt32.and_assoc]
    exact congrArg (arbOf id &&& ·) (by decide)
  have hxtd : m.arb &&& ifarbXtd = arbOf id &&& ifarbXtd := by
    rw [harb, UInt32.and_assoc]
    exact congrArg (arbOf id &&& ·) (by decide)
  unfold canId
  simp only [hmask, hxtd, arbOf_and_xtd, arbOf_and_mask]
  rcases hid with hstd | ⟨x, hx, rfl⟩
  · have heff := not_isEff_of_lt hstd
    rw [if_neg heff, if_neg heff, if_pos rfl, and_stdMask_of_lt hstd, shift_back hstd]
  · have heff := isEff_extended x
    rw [if_pos heff, if_pos heff, if_neg (by decide), Bytes.or_and_distrib,
      show canMsgidExtended &&& canMsgidXtdMask = 0 by decide, UInt32.zero_or,
      and_xtdMask_of_lt hx, UInt32.or_comm]

/-- The length byte comes back out of the message control register. -/
theorem If1.len_of_mctl {m : If1} {len : UInt8} (hlen : len.toNat ≤ 8)
    (hmctl : m.mctl &&& 0b1111 = mctlOf len &&& 0b1111) : m.len = len := by
  have hflags : (ifmctlNewdat ||| ifmctlTxrqst) &&& 0b1111 = 0 := by decide
  have hdlc : len.toUInt32 &&& 0b1111 = len.toUInt32 := by
    apply UInt32.toNat_inj.mp
    rw [UInt32.toNat_and, UInt8.toNat_toUInt32]
    exact (Nat.and_two_pow_sub_one_eq_mod len.toNat 4).trans (Nat.mod_eq_of_lt (by omega))
  unfold If1.len
  rw [hmctl, mctlOf, Bytes.or_and_distrib, hflags, UInt32.zero_or, UInt32.shiftLeft_zero, hdlc]
  simp

theorem CanfdFrame.byteAt_withData (f : CanfdFrame) (src : ℕ → UInt8) {n i : ℕ} (h : i < n)
    (hn : n ≤ cnlCanfdMaxDlen) : (f.withData src n).byteAt i = src i := by
  have htake := congrArg (·[i]?) (f.take_withData src hn)
  simp only [List.getElem?_take_of_lt h, List.getElem?_map, List.getElem?_range h,
    Option.map_some] at htake
  unfold byteAt
  rw [List.getD_eq_getElem?_getD, htake]
  rfl

/-- A receiver that sees the register values of a classic frame reads the frame back,
whatever the registers and the slot held before. -/
theorem canFillRxMbox_canSend {r : CanReg} {id : UInt32} {len : UInt8} (data : ℕ → UInt8)
    (hfree : ¬ r.Busy) (hid : ClassicId id) (hlen : len.toNat ≤ cnlCanfdMaxDlen) :
    ∃ r', canSend r id len data = .ok (true, r') ∧ ∀ m : If1, m.Presents r'.if1 →
      ∀ old : CanfdFrame, ∃ g, canFillRxMbox m old = .ok g ∧ g.canId = id ∧ g.len = len ∧
        ∀ i < len.toNat, g.byteAt i = data i := by
  refine ⟨_, canSend_free hfree hlen, ?_⟩
  intro m hm old
  have hcanId : m.canId = id := If1.canId_of_arb hid hm.arb_eq
  have hmlen : m.len = len := If1.len_of_mctl hlen hm.dlc_eq
  have hsent : (r.if1.programmed id len data).len = len := If1.len_of_mctl hlen rfl
  have hfits : m.Fits := by
    unfold If1.Fits
    rw [hmlen]
    exact hlen
  refine ⟨_, canFillRxMbox_ok hfits old, hcanId, hmlen, ?_⟩
  intro i hi
  have h8 : i < 8 := lt_of_lt_of_le hi hlen
  calc (m.frame old).byteAt i
      = m.dataByte i := CanfdFrame.byteAt_withData _ _ (by rw [hmlen]; exact hi) hfits
    _ = (r.if1.programmed id len data).dataByte i := hm.data_eq i (by rw [hsent]; exact hi)
    _ = data i := If1.dataByte_loaded _ _ hi h8

/-- Three bytes under the standard identifier 0x123. -/
theorem canFillRxMbox_canSend_standard :
    ∃ r', canSend .idle 0x123 3 (fun i => UInt8.ofNat (i + 1)) = .ok (true, r') ∧
      ∀ m : If1, m.Presents r'.if1 →
      ∀ old : CanfdFrame, ∃ g, canFillRxMbox m old = .ok g ∧ g.canId = 0x123 ∧ g.len = 3 ∧
        ∀ i < (3 : UInt8).toNat, g.byteAt i = UInt8.ofNat (i + 1) :=
  canFillRxMbox_canSend (fun i => UInt8.ofNat (i + 1)) (by decide) (.inl (by decide)) (by decide)

end Cannelloni
