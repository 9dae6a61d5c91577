import Cannelloni.Drivers.Mdio
import Cannelloni.Lib.Store

/-!
# MDIO access is access to a flat register map

What a PHY keeps at its 16-bit addresses, and that `mdio_read` and `mdio_write` are reads and
writes of it, standard and extended addresses alike. The two registers behind which the extended
ones are, 13 and 14, are not part of the map.
-/

namespace Cannelloni

/-! ## One transaction -/

/-- The controller when no transaction is under way any more. -/
def Mdio.settled (c : Mdio) : Mdio := if c.access.go then c.finish else c

theorem Mdio.settled_of_idle {c : Mdio} (h : c.access.go = false) : c.settled = c := by
  unfold settled
  rw [h]
  rfl

theorem Mdio.go_settled (c : Mdio) : c.settled.access.go = false := by
  unfold settled
  split
  · exact c.go_finish
  · next h => exact Bool.not_eq_true _ |>.mp h

theorem Mdio.readReg_of_idle {c : Mdio} (h : c.access.go = false) :
    c.readReg = (c.access.word, c) := by
  unfold readReg
  rw [if_neg (by rw [h]; decide)]

/-- Waiting lets the transaction that is under way come to its end. -/
theorem mdioWaitUntilRdy_eq (c : Mdio) : mdioWaitUntilRdy c = c.settled := by
  obtain ⟨polls, hpolls⟩ : ∃ polls, c.polls = polls := ⟨_, rfl⟩
  induction polls generalizing c with
  | zero =>
    rw [mdioWaitUntilRdy]
    by_cases hgo : c.access.go = true
    · have hread : c.readReg = (c.finish.access.word, c.finish) := by
        unfold Mdio.readReg
        rw [if_pos hgo, if_pos hpolls]
      rw [hread, Mdio.settled, if_pos hgo]
      exact if_neg (by simp [UserAccess.word_and_go, c.go_finish])
    · rw [Mdio.readReg_of_idle (Bool.not_eq_true _ |>.mp hgo), Mdio.settled, if_neg hgo]
      exact if_neg (by simp [UserAccess.word_and_go, hgo])
  | succ polls ih =>
    rw [mdioWaitUntilRdy]
    by_cases hgo : c.access.go = true
    · have hread : c.readReg = (c.access.word, { c with polls := polls }) := by
        unfold Mdio.readReg
        rw [if_pos hgo, if_neg (by omega), hpolls]
        rfl
      have hnow : c.settled = c.finish := if_pos hgo
      have hlater : Mdio.settled { c with polls := polls } = c.finish := if_pos hgo
      rw [hread, if_pos (c.access.word_and_go.mpr hgo), ih _ rfl, hnow]
      exact hlater
    · rw [Mdio.readReg_of_idle (Bool.not_eq_true _ |>.mp hgo), Mdio.settled, if_neg hgo]
      exact if_neg (by simp [UserAccess.word_and_go, hgo])

/-- A field of five bits shifted to its place. -/
theorem toNat_and_shiftLeft (w : UInt32) {s : UInt32} (hs : s.toNat ≤ 27) :
    ((w &&& 0x1F) <<< s).toNat = (w.toNat % 2 ^ 5) <<< s.toNat := by
  have hmask : (w &&& 0x1F).toNat = w.toNat % 2 ^ 5 := by
    rw [UInt32.toNat_and]
    exact Nat.and_two_pow_sub_one_eq_mod _ 5
  have hlt : (w.toNat % 2 ^ 5) <<< s.toNat < 2 ^ 32 := by
    rw [Nat.shiftLeft_eq]
    calc w.toNat % 2 ^ 5 * 2 ^ s.toNat < 2 ^ 5 * 2 ^ s.toNat :=
          Nat.mul_lt_mul_of_pos_right (Nat.mod_lt _ (by decide)) (Nat.two_pow_pos _)
      _ = 2 ^ (5 + s.toNat) := (pow_add 2 5 s.toNat).symm
      _ ≤ 2 ^ 32 := Nat.pow_le_pow_right (by decide) (by omega)
  rw [UInt32.toNat_shiftLeft, hmask, Nat.mod_eq_of_lt (show s.toNat < 32 by omega),
    Nat.mod_eq_of_lt hlt]

/-- The word `mdio_reg_write` puts together. -/
theorem writeWord_eq (phyAddr regNum : UInt32) (regVal : UInt16) :
    mdioUseraccess0Write ||| mdioUseraccess0Go ||| (regNum &&& 0x1F) <<< 21
        ||| (phyAddr &&& 0x1F) <<< 16 ||| regVal.toUInt32
      = UserAccess.word ⟨true, true, false, regNum.toNat, phyAddr.toNat, regVal⟩ := by
  rw [← UInt32.toNat_inj, UserAccess.toNat_word]
  simp only [UInt32.toNat_or, toNat_and_shiftLeft _ (show (21 : UInt32).toNat ≤ 27 by decide),
    toNat_and_shiftLeft _ (show (16 : UInt32).toNat ≤ 27 by decide), UInt16.toNat_toUInt32]
  simp [Packing.pack, Packing.put, UserAccess.parts, writeBit, goBit, regadrBits, phyadrBits,
    dataBits, ackBit, mdioUseraccess0Write, mdioUseraccess0Go]

/-- The word `mdio_reg_read` puts together. -/
theorem readWord_eq (phyAddr regNum : UInt32) :
    mdioUseraccess0Read ||| mdioUseraccess0Go ||| (regNum &&& 0x1F) <<< 21
        ||| (phyAddr &&& 0x1F) <<< 16
      = UserAccess.word ⟨true, false, false, regNum.toNat, phyAddr.toNat, 0⟩ := by
  rw [← UInt32.toNat_inj, UserAccess.toNat_word]
  simp only [UInt32.toNat_or, toNat_and_shiftLeft _ (show (21 : UInt32).toNat ≤ 27 by decide),
    toNat_and_shiftLeft _ (show (16 : UInt32).toNat ≤ 27 by decide)]
  simp [Packing.pack, Packing.put, UserAccess.parts, writeBit, goBit, regadrBits, phyadrBits,
    dataBits, ackBit, mdioUseraccess0Read, mdioUseraccess0Go]

/-- The register of a PHY that a register number names. -/
def regOf (regNum : UInt32) : UInt16 := UInt16.ofNat (regNum.toNat % 2 ^ 5)

/-- The PHY that an address names. -/
def phyOf (phyAddr : UInt32) : ℕ := phyAddr.toNat % 2 ^ 5

/-- Starting a transaction on an idle controller. -/
theorem Mdio.writeReg_word {c : Mdio} (h : c.access.go = false) {u : UserAccess}
    (hgo : u.go = true) : c.writeReg u.word = { c with
      access := { u with regadr := u.regadr % 2 ^ 5, phyadr := u.phyadr % 2 ^ 5 }
      polls := c.latency c.started
      started := c.started + 1 } := by
  unfold writeReg
  rw [if_neg (by rw [h]; decide), u.ofWord_word]
  exact if_pos hgo

/-- `mdio_reg_write` writes the register and leaves the controller idle. -/
theorem mdioRegWrite_spec (phyAddr regNum : UInt32) (regVal : UInt16) (c : Mdio) :
    (mdioRegWrite phyAddr regNum regVal c).access.go = false ∧
      (mdioRegWrite phyAddr regNum regVal c).phys = Function.update c.settled.phys (phyOf phyAddr)
        ((c.settled.phys (phyOf phyAddr)).write (regOf regNum) regVal) := by
  unfold mdioRegWrite
  simp only [mdioWaitUntilRdy_eq, writeWord_eq]
  refine ⟨Mdio.go_settled _, ?_⟩
  rw [Mdio.writeReg_word c.go_settled rfl]
  rfl

/-- `mdio_reg_read` reads the register and leaves the controller idle. -/
theorem mdioRegRead_spec (phyAddr regNum : UInt32) (c : Mdio) :
    (mdioRegRead phyAddr regNum c).1
        = ((c.settled.phys (phyOf phyAddr)).read (regOf regNum)).1 ∧
      (mdioRegRead phyAddr regNum c).2.access.go = false ∧
      (mdioRegRead phyAddr regNum c).2.phys = Function.update c.settled.phys (phyOf phyAddr)
        ((c.settled.phys (phyOf phyAddr)).read (regOf regNum)).2 := by
  set u : UserAccess := ⟨true, false, false, regNum.toNat, phyAddr.toNat, 0⟩ with hu
  obtain ⟨d, hd⟩ : ∃ d, (c.settled.writeReg u.word).settled = d := ⟨_, rfl⟩
  have hfinish := hd
  rw [Mdio.writeReg_word c.go_settled rfl] at hfinish
  have hidle : d.access.go = false := hd ▸ Mdio.go_settled _
  have hack : d.access.ack = true := hfinish ▸ rfl
  have hcall : mdioRegRead phyAddr regNum c = (d.access.data, d) := by
    unfold mdioRegRead
    simp only [mdioWaitUntilRdy_eq, readWord_eq, ← hu, hd, Mdio.readReg_of_idle hidle,
      if_pos (d.access.word_and_ack.mpr hack), UserAccess.word_and_data]
  rw [hcall]
  refine ⟨?_, hidle, ?_⟩
  · rw [← hfinish]
    rfl
  · rw [← hfinish]
    rfl

/-! ## One call -/

theorem Phy.write_regcr (p : Phy) (val : UInt16) :
    p.write mdioRegcr val = { p with regcr := val } :=
  if_pos rfl

/-- With the address function selected, `ADDAR` is the extended address. -/
theorem Phy.write_addar_address {p : Phy} (h : p.Selected) (hfn : p.function = 0) (val : UInt16) :
    p.write mdioAddar val = { p with extAddr := val } := by
  unfold write
  rw [if_neg (by decide), if_pos rfl, if_neg (not_not.mpr h), if_pos hfn]

/-- With the data function selected, `ADDAR` is the register at the extended address. -/
theorem Phy.write_addar_data {p : Phy} (h : p.Selected) (hfn : p.function = 1) (val : UInt16) :
    p.write mdioAddar val = { p with regs := Function.update p.regs p.extAddr val } := by
  unfold write
  rw [if_neg (by decide), if_pos rfl, if_neg (not_not.mpr h), if_neg (by omega), if_pos hfn]

theorem Phy.read_addar_data {p : Phy} (h : p.Selected) (hfn : p.function = 1) :
    p.read mdioAddar = (p.regs p.extAddr, p) := by
  unfold read
  rw [if_neg (by decide), if_pos rfl, if_neg (not_not.mpr h), if_neg (by omega),
    if_neg (by omega)]

/-- A PHY whose `ADDAR` is the register at an extended address. -/
def Phy.pointed (p : Phy) (addr : UInt16) : Phy :=
  { p with regcr := mdioRegcrFnDataNoIncr ||| mdioRegcrDevadAll, extAddr := addr }

theorem Phy.selected_pointed (p : Phy) (addr : UInt16) : (p.pointed addr).Selected :=
  show (mdioRegcrFnDataNoIncr ||| mdioRegcrDevadAll).toNat % 2 ^ 5 = 0x1F by decide

theorem Phy.function_pointed (p : Phy) (addr : UInt16) : (p.pointed addr).function = 1 :=
  show (mdioRegcrFnDataNoIncr ||| mdioRegcrDevadAll).toNat / 2 ^ 14 = 1 by decide

theorem Phy.write_addar_pointed (p : Phy) (addr val : UInt16) :
    (p.pointed addr).write mdioAddar val
      = { p.pointed addr with regs := Function.update p.regs addr val } :=
  write_addar_data (p.selected_pointed addr) (p.function_pointed addr) val

theorem Phy.read_addar_pointed (p : Phy) (addr : UInt16) :
    (p.pointed addr).read mdioAddar = (p.regs addr, p.pointed addr) :=
  read_addar_data (p.selected_pointed addr) (p.function_pointed addr)

/-- Selecting the address, giving it, and selecting the data, whatever was selected before. -/
theorem Phy.write_three (p : Phy) (addr : UInt16) :
    ((p.write mdioRegcr (mdioRegcrFnAddr ||| mdioRegcrDevadAll)).write mdioAddar addr).write
      mdioRegcr (mdioRegcrFnDataNoIncr ||| mdioRegcrDevadAll) = p.pointed addr := by
  have hselected : ({ p with regcr := mdioRegcrFnAddr ||| mdioRegcrDevadAll } : Phy).Selected :=
    show (mdioRegcrFnAddr ||| mdioRegcrDevadAll).toNat % 2 ^ 5 = 0x1F by decide
  have hfunction : ({ p with regcr := mdioRegcrFnAddr ||| mdioRegcrDevadAll } : Phy).function = 0 :=
    show (mdioRegcrFnAddr ||| mdioRegcrDevadAll).toNat / 2 ^ 14 = 0 by decide
  rw [p.write_regcr, write_addar_address hselected hfunction, write_regcr]
  rfl

theorem Phy.write_direct {reg : UInt16} (hr : reg ≠ mdioRegcr) (ha : reg ≠ mdioAddar) (p : Phy)
    (val : UInt16) : p.write reg val = { p with regs := Function.update p.regs reg val } := by
  unfold write
  rw [if_neg hr, if_neg ha]

theorem Phy.read_direct {reg : UInt16} (hr : reg ≠ mdioRegcr) (ha : reg ≠ mdioAddar) (p : Phy) :
    p.read reg = (p.regs reg, p) := by
  unfold read
  rw [if_neg hr, if_neg ha]

theorem phyOf_of_lt {phyid : UInt32} (h : phyid.toNat < 32) : phyOf phyid = phyid.toNat :=
  Nat.mod_eq_of_lt h

/-- A standard address fits the register number. -/
theorem regOf_toUInt8 {addr : UInt16} (h : addr ≤ mdioLastStdReg) :
    regOf addr.toUInt8.toUInt32 = addr := by
  have hle : addr.toNat ≤ 31 := h
  have hnum : addr.toUInt8.toUInt32.toNat = addr.toNat := by
    rw [UInt8.toNat_toUInt32, UInt16.toNat_toUInt8, Nat.mod_eq_of_lt (by omega)]
  unfold regOf
  rw [hnum, Nat.mod_eq_of_lt (by omega), UInt16.ofNat_toNat]

/-- The three writes in front of an extended access: wherever `REGCR` and the extended address
stood before, `ADDAR` stands for the register afterwards. -/
theorem mdioSendAddr_extended {addr : UInt16} (h : ¬ addr ≤ mdioLastStdReg) (phyid : UInt32)
    (c : Mdio) :
    (mdioSendAddr phyid addr c).1 = mdioAddar.toUInt8 ∧
      (mdioSendAddr phyid addr c).2.access.go = false ∧
      (mdioSendAddr phyid addr c).2.phys = Function.update c.settled.phys (phyOf phyid)
        ((c.settled.phys (phyOf phyid)).pointed addr) := by
  rcases mdioRegWrite_spec phyid mdioRegcr.toUInt32 (mdioRegcrFnAddr ||| mdioRegcrDevadAll) c with
    ⟨hidle₁, hphys₁⟩
  set c₁ := mdioRegWrite phyid mdioRegcr.toUInt32 (mdioRegcrFnAddr ||| mdioRegcrDevadAll) c
    with hc₁
  rcases mdioRegWrite_spec phyid mdioAddar.toUInt32 addr c₁ with ⟨hidle₂, hphys₂⟩
  set c₂ := mdioRegWrite phyid mdioAddar.toUInt32 addr c₁ with hc₂
  rcases mdioRegWrite_spec phyid mdioRegcr.toUInt32
    (mdioRegcrFnDataNoIncr ||| mdioRegcrDevadAll) c₂ with ⟨hidle₃, hphys₃⟩
  have hsend : mdioSendAddr phyid addr c = (mdioAddar.toUInt8,
      mdioRegWrite phyid mdioRegcr.toUInt32 (mdioRegcrFnDataNoIncr ||| mdioRegcrDevadAll) c₂) := by
    unfold mdioSendAddr
    rw [if_neg h]
  rw [Mdio.settled_of_idle hidle₁] at hphys₂
  rw [Mdio.settled_of_idle hidle₂] at hphys₃
  rw [hsend]
  refine ⟨rfl, hidle₃, ?_⟩
  rw [hphys₃, hphys₂, hphys₁]
  have hregcr : regOf mdioRegcr.toUInt32 = mdioRegcr := by decide
  have haddar : regOf mdioAddar.toUInt32 = mdioAddar := by decide
  simp only [Function.update_self, Function.update_idem, hregcr, haddar, Phy.write_three]

/-- A call leaves the controller idle and touches one PHY, which keeps `regs` afterwards. -/
structure Mdio.Leaves (c c' : Mdio) (phy : ℕ) (regs : UInt16 → UInt16) : Prop where
  idle : c'.access.go = false
  phys : ∃ p : Phy, c'.phys = Function.update c.settled.phys phy p ∧ p.regs = regs

/-- The addresses of the flat map: any PHY, and any register but the pair for extended ones. -/
def Accessible (key : UInt32 × UInt16) : Prop :=
  key.1.toNat < 32 ∧ key.2 ≠ mdioRegcr ∧ key.2 ≠ mdioAddar

instance (key : UInt32 × UInt16) : Decidable (Accessible key) :=
  inferInstanceAs (Decidable (_ ∧ _ ∧ _))

section Call

variable {phyid : UInt32} {addr : UInt16}

theorem mdioWrite_spec (h : Accessible (phyid, addr)) (value : UInt16) (c : Mdio) :
    c.Leaves (mdioWrite phyid addr value c) phyid.toNat
      (Function.update (c.settled.phys phyid.toNat).regs addr value) := by
  rcases h with ⟨hphy, hregcr, haddar⟩
  have hphyOf := phyOf_of_lt hphy
  by_cases hstd : addr ≤ mdioLastStdReg
  · have hcall : mdioWrite phyid addr value c
        = mdioRegWrite phyid addr.toUInt8.toUInt32 value c := by
      unfold mdioWrite mdioSendAddr
      rw [if_pos hstd]
    rcases mdioRegWrite_spec phyid addr.toUInt8.toUInt32 value c with ⟨hidle, hphys⟩
    rw [hcall]
    rw [hphyOf, regOf_toUInt8 hstd, Phy.write_direct hregcr haddar] at hphys
    exact ⟨hidle, _, hphys, rfl⟩
  · rcases mdioSendAddr_extended hstd phyid c with ⟨haddr, hidle, hphys⟩
    have hcall : mdioWrite phyid addr value c
        = mdioRegWrite phyid mdioAddar.toUInt8.toUInt32 value (mdioSendAddr phyid addr c).2 := by
      unfold mdioWrite
      rw [← haddr]
    rcases mdioRegWrite_spec phyid mdioAddar.toUInt8.toUInt32 value (mdioSendAddr phyid addr c).2
      with ⟨hidle', hphys'⟩
    rw [hcall]
    rw [Mdio.settled_of_idle hidle, hphys, hphyOf, Function.update_self, Function.update_idem,
      regOf_toUInt8 (by decide), Phy.write_addar_pointed] at hphys'
    exact ⟨hidle', _, hphys', rfl⟩

theorem mdioRead_spec (h : Accessible (phyid, addr)) (c : Mdio) :
    (mdioRead phyid addr c).1 = (c.settled.phys phyid.toNat).regs addr ∧
      c.Leaves (mdioRead phyid addr c).2 phyid.toNat (c.settled.phys phyid.toNat).regs := by
  rcases h with ⟨hphy, hregcr, haddar⟩
  have hphyOf := phyOf_of_lt hphy
  by_cases hstd : addr ≤ mdioLastStdReg
  · have hcall : mdioRead phyid addr c = mdioRegRead phyid addr.toUInt8.toUInt32 c := by
      unfold mdioRead mdioSendAddr
      rw [if_pos hstd]
    rcases mdioRegRead_spec phyid addr.toUInt8.toUInt32 c with ⟨hval, hidle, hphys⟩
    rw [hcall]
    rw [hphyOf, regOf_toUInt8 hstd, Phy.read_direct hregcr haddar] at hval hphys
    exact ⟨hval, hidle, _, hphys, rfl⟩
  · rcases mdioSendAddr_extended hstd phyid c with ⟨haddr, hidle, hphys⟩
    have hcall : mdioRead phyid addr c
        = mdioRegRead phyid mdioAddar.toUInt8.toUInt32 (mdioSendAddr phyid addr c).2 := by
      unfold mdioRead
      rw [← haddr]
    rcases mdioRegRead_spec phyid mdioAddar.toUInt8.toUInt32 (mdioSendAddr phyid addr c).2 with
      ⟨hval, hidle', hphys'⟩
    rw [hcall]
    rw [Mdio.settled_of_idle hidle, hphys, hphyOf, Function.update_self,
      regOf_toUInt8 (by decide), Phy.read_addar_pointed] at hval hphys'
    rw [Function.update_idem] at hphys'
    exact ⟨hval, hidle', _, hphys', rfl⟩

end Call

/-! ## Any sequence of calls -/

/-- A call of `mdio_read` or `mdio_write` for a PHY and an address. -/
def Mdio.step (c : Mdio) : Store.Op (UInt32 × UInt16) UInt16 → Option UInt16 × Mdio
  | .read key => (some (mdioRead key.1 key.2 c).1, (mdioRead key.1 key.2 c).2)
  | .write key value => (none, mdioWrite key.1 key.2 value c)

/-- What the PHYs keep, once no transaction is under way. -/
def Mdio.registers (c : Mdio) (key : UInt32 × UInt16) : UInt16 :=
  (c.settled.phys key.1.toNat).regs key.2

theorem Mdio.Leaves.settled_phys {c c' : Mdio} {phy : ℕ} {regs : UInt16 → UInt16}
    (h : c.Leaves c' phy regs) (q : ℕ) (a : UInt16) :
    (c'.settled.phys q).regs a = if q = phy then regs a else (c.settled.phys q).regs a := by
  rcases h.phys with ⟨p, hphys, hregs⟩
  rw [settled_of_idle h.idle, hphys]
  by_cases hq : q = phy
  · rw [if_pos hq, hq, Function.update_self, hregs]
  · rw [if_neg hq, Function.update_of_ne hq]

/-- The other PHYs are not touched at all. -/
theorem Mdio.Leaves.phys_of_ne {c c' : Mdio} {phy : ℕ} {regs : UInt16 → UInt16}
    (h : c.Leaves c' phy regs) {q : ℕ} (hq : q ≠ phy) : c'.settled.phys q = c.settled.phys q := by
  rcases h.phys with ⟨p, hphys, -⟩
  rw [settled_of_idle h.idle, hphys, Function.update_of_ne hq]

/-- What a call does to a PHY. -/
def Mdio.regsAfter (c : Mdio) : Store.Op (UInt32 × UInt16) UInt16 → UInt16 → UInt16
  | .read key => (c.settled.phys key.1.toNat).regs
  | .write key value => Function.update (c.settled.phys key.1.toNat).regs key.2 value

theorem Mdio.step_leaves {o : Store.Op (UInt32 × UInt16) UInt16} (h : Accessible o.key)
    (c : Mdio) : c.Leaves (c.step o).2 o.key.1.toNat (c.regsAfter o) := by
  cases o with
  | read key => exact (mdioRead_spec h c).2
  | write key value => exact mdioWrite_spec h value c

/-- The flat map the PHYs stand for. -/
def Mdio.Denotes (c : Mdio) (m : UInt32 × UInt16 → UInt16) : Prop :=
  ∀ key, Accessible key → c.registers key = m key

/-- A call does to the PHYs what it does to the map, and answers the same. -/
theorem Mdio.Denotes.step {c : Mdio} {m : UInt32 × UInt16 → UInt16} (h : c.Denotes m)
    {o : Store.Op (UInt32 × UInt16) UInt16} (ho : Accessible o.key) :
    (c.step o).1 = (Store.step m o).1 ∧ (c.step o).2.Denotes (Store.step m o).2 := by
  cases o with
  | read key =>
    have hleaves : c.Leaves (c.step (.read key)).2 key.1.toNat (c.settled.phys key.1.toNat).regs :=
      c.step_leaves ho
    constructor
    · show some (mdioRead key.1 key.2 c).1 = some (m key)
      rw [(mdioRead_spec ho c).1]
      exact congrArg some (h key ho)
    · intro key' hkey'
      show ((c.step (.read key)).2.settled.phys key'.1.toNat).regs key'.2 = m key'
      rw [hleaves.settled_phys, ← h key' hkey']
      split
      · next hphy =>
        rw [← hphy]
        rfl
      · rfl
  | write key value =>
    have hleaves : c.Leaves (c.step (.write key value)).2 key.1.toNat
        (Function.update (c.settled.phys key.1.toNat).regs key.2 value) := c.step_leaves ho
    refine ⟨rfl, ?_⟩
    intro key' hkey'
    show ((c.step (.write key value)).2.settled.phys key'.1.toNat).regs key'.2
      = Function.update m key value key'
    rw [hleaves.settled_phys]
    by_cases hkey : key' = key
    · rw [hkey, if_pos rfl, Function.update_self, Function.update_self]
    · rw [Function.update_of_ne hkey, ← h key' hkey']
      split
      · next hphy =>
        have haddr : key'.2 ≠ key.2 := by
          intro heq
          exact hkey (Prod.ext (UInt32.toNat_inj.mp hphy) heq)
        rw [Function.update_of_ne haddr, ← hphy]
        rfl
      · rfl

/-- MDIO access refines a flat register map. A run answers as the map does, and a read after it
gives what was last written to its register, or the initial value. A further call touches no other
PHY, and of its own PHY only the register that it writes, if any, and the pair of 13 and 14. -/
theorem mdio_refines_registers (c : Mdio) (calls : List (Store.Op (UInt32 × UInt16) UInt16))
    (hcalls : ∀ o ∈ calls, Accessible o.key) :
    let after := (Machine.run Mdio.step c calls).2
    (Machine.run Mdio.step c calls).1 = (Machine.run Store.step c.registers calls).1 ∧
    (∀ key, Accessible key →
      (mdioRead key.1 key.2 after).1 = (Store.lastWrite calls key).getD (c.registers key)) ∧
    ∀ o, Accessible o.key →
      (∀ q, q ≠ o.key.1.toNat → (after.step o).2.settled.phys q = after.settled.phys q) ∧
      ∀ a, (∀ value, o = .write o.key value → a ≠ o.key.2) →
        ((after.step o).2.settled.phys o.key.1.toNat).regs a
          = (after.settled.phys o.key.1.toNat).regs a := by
  intro after
  have hsim : (Machine.run Mdio.step c calls).1.map (Prod.map id id)
        = (Machine.run Store.step c.registers calls).1
      ∧ after.Denotes (Machine.run Store.step c.registers calls).2 :=
    Machine.run_simulates (fun _ _ _ h ho => h.step ho) (fun _ _ => rfl) hcalls
  rcases hsim with ⟨hanswers, hdenotes⟩
  rw [Prod.map_id, List.map_id] at hanswers
  refine ⟨hanswers, ?_, ?_⟩
  · intro key hkey
    rw [(mdioRead_spec hkey after).1, ← Store.run_get]
    exact hdenotes key hkey
  · intro o ho
    have hleaves := after.step_leaves ho
    refine ⟨fun q hq => hleaves.phys_of_ne hq, ?_⟩
    intro a ha
    rw [hleaves.settled_phys, if_pos rfl]
    cases o with
    | read key => rfl
    | write key value => exact Function.update_of_ne (ha value rfl) _ _

/-- The register that `DP8386_init` sets, with other accesses in between. -/
theorem mdio_refines_registers_rgmii :
    let c : Mdio :=
      ⟨⟨false, false, false, 0, 0, 0⟩, 0, 0, fun k => k % 5, fun _ => ⟨0, 0, fun _ => 7⟩⟩
    let calls : List (Store.Op (UInt32 × UInt16) UInt16) :=
      [.write (3, 0x32) 0xD3, .read (3, 1), .write (5, 0x32) 1, .read (3, 0x32)]
    let after := (Machine.run Mdio.step c calls).2
    (Machine.run Mdio.step c calls).1 = (Machine.run Store.step c.registers calls).1 ∧
    (∀ key, Accessible key →
      (mdioRead key.1 key.2 after).1 = (Store.lastWrite calls key).getD (c.registers key)) ∧
    ∀ o, Accessible o.key →
      (∀ q, q ≠ o.key.1.toNat → (after.step o).2.settled.phys q = after.settled.phys q) ∧
      ∀ a, (∀ value, o = .write o.key value → a ≠ o.key.2) →
        ((after.step o).2.settled.phys o.key.1.toNat).regs a
          = (after.settled.phys o.key.1.toNat).regs a :=
  mdio_refines_registers _ _ (by decide)

end Cannelloni
