import Cannelloni.Lib.Packing
import Mathlib.Data.UInt
import Mathlib.Logic.Function.Basic

/-!
# The MDIO driver (`drivers/mdio.c`)

The driver reads and writes PHY registers through one register of the MDIO controller,
`USERACCESS0`. The controller and the PHYs are modelled with what the driver relies on: a
transaction is started by a write with `GO`, stays under way for any number of reads, is always
acknowledged, and a PHY stores what is written to its registers. Register numbers have five bits;
a PHY has more registers behind the pair `REGCR` and `ADDAR`.
-/

namespace Cannelloni

/-! ## A PHY -/

/-- The registers of a PHY: `REGCR`, the extended address that goes with it, and the others by
their 16-bit address. -/
structure Phy where
  regcr : UInt16
  extAddr : UInt16
  regs : UInt16 → UInt16

/-- `MDIO_REGCR`. -/
abbrev mdioRegcr : UInt16 := 0xD

/-- `MDIO_ADDAR`. -/
abbrev mdioAddar : UInt16 := 0xE

/-- The function `REGCR` selects: 0 for the address, 1 for data, 2 and 3 for data with an
address that moves on after accesses or after writes. -/
def Phy.function (p : Phy) : ℕ := p.regcr.toNat / 2 ^ 14

/-- `REGCR` addresses the device that has the extended registers. -/
def Phy.Selected (p : Phy) : Prop := p.regcr.toNat % 2 ^ 5 = 0x1F

instance (p : Phy) : Decidable p.Selected := inferInstanceAs (Decidable (_ = _))

/-- A read of a register. -/
def Phy.read (p : Phy) (reg : UInt16) : UInt16 × Phy :=
  if reg = mdioRegcr then (p.regcr, p)
  else if reg = mdioAddar then
    if ¬ p.Selected then (0, p)
    else if p.function = 0 then (p.extAddr, p)
    else (p.regs p.extAddr, if p.function = 2 then { p with extAddr := p.extAddr + 1 } else p)
  else (p.regs reg, p)

/-- A write to a register. -/
def Phy.write (p : Phy) (reg val : UInt16) : Phy :=
  if reg = mdioRegcr then { p with regcr := val }
  else if reg = mdioAddar then
    if ¬ p.Selected then p
    else if p.function = 0 then { p with extAddr := val }
    else { p with
      regs := Function.update p.regs p.extAddr val
      extAddr := if p.function = 1 then p.extAddr else p.extAddr + 1 }
  else { p with regs := Function.update p.regs reg val }

/-! ## The controller -/

/-- The fields of `USERACCESS0`. -/
structure UserAccess where
  go : Bool
  write : Bool
  ack : Bool
  regadr : ℕ
  phyadr : ℕ
  data : UInt16

/-- The ranges of the fields, as `HL_hw_mdio.h` has them. -/
def goBit : Packing.Range := ⟨31, 1⟩
def writeBit : Packing.Range := ⟨30, 1⟩
def ackBit : Packing.Range := ⟨29, 1⟩
def regadrBits : Packing.Range := ⟨21, 5⟩
def phyadrBits : Packing.Range := ⟨16, 5⟩
def dataBits : Packing.Range := ⟨0, 16⟩

/-- The fields with their ranges. -/
def UserAccess.parts (u : UserAccess) : List (Packing.Range × ℕ) :=
  [(writeBit, u.write.toNat), (goBit, u.go.toNat), (regadrBits, u.regadr % 2 ^ 5),
    (phyadrBits, u.phyadr % 2 ^ 5), (dataBits, u.data.toNat), (ackBit, u.ack.toNat)]

/-- What a read of `USERACCESS0` gives. -/
def UserAccess.word (u : UserAccess) : UInt32 := UInt32.ofNat (Packing.pack u.parts)

/-- What a write to `USERACCESS0` means. -/
def UserAccess.ofWord (w : UInt32) : UserAccess where
  go := Packing.get goBit w.toNat = 1
  write := Packing.get writeBit w.toNat = 1
  ack := Packing.get ackBit w.toNat = 1
  regadr := Packing.get regadrBits w.toNat
  phyadr := Packing.get phyadrBits w.toNat
  data := UInt16.ofNat (Packing.get dataBits w.toNat)

/-- The controller and the PHYs at its bus. The `k`-th transaction is under way for `latency k`
reads of the register. -/
structure Mdio where
  access : UserAccess
  polls : ℕ
  started : ℕ
  latency : ℕ → ℕ
  phys : ℕ → Phy

/-- The transaction that is under way comes to its end. -/
def Mdio.finish (c : Mdio) : Mdio :=
  let u := c.access
  let p := c.phys u.phyadr
  let reg := UInt16.ofNat u.regadr
  if u.write then
    { c with
      access := { u with go := false, ack := true }
      polls := 0
      phys := Function.update c.phys u.phyadr (p.write reg u.data) }
  else
    { c with
      access := { u with go := false, ack := true, data := (p.read reg).1 }
      polls := 0
      phys := Function.update c.phys u.phyadr (p.read reg).2 }

theorem Mdio.go_finish (c : Mdio) : c.finish.access.go = false := by
  unfold finish
  simp only
  split <;> rfl

/-- A read of `USERACCESS0`. -/
def Mdio.readReg (c : Mdio) : UInt32 × Mdio :=
  if c.access.go then
    if c.polls = 0 then (c.finish.access.word, c.finish)
    else (c.access.word, { c with polls := c.polls - 1 })
  else (c.access.word, c)

/-- A write to `USERACCESS0`. It has no effect while a transaction is under way. -/
def Mdio.writeReg (c : Mdio) (w : UInt32) : Mdio :=
  if c.access.go then c
  else if (UserAccess.ofWord w).go then
    { c with access := .ofWord w, polls := c.latency c.started, started := c.started + 1 }
  else { c with access := .ofWord w }

/-! ## Words -/

def mdioUseraccess0Go : UInt32 := 0x80000000
def mdioUseraccess0Write : UInt32 := 0x40000000
def mdioUseraccess0Read : UInt32 := 0x00000000
def mdioUseraccess0Ack : UInt32 := 0x20000000

section Words

variable (u : UserAccess)

theorem UserAccess.fits_parts : Packing.Fits u.parts := by
  have hbool : ∀ b : Bool, b.toNat < 2 ^ 1 := by decide
  intro part hpart
  simp only [parts, List.mem_cons, List.not_mem_nil, or_false] at hpart
  rcases hpart with rfl | rfl | rfl | rfl | rfl | rfl
  · exact hbool _
  · exact hbool _
  · exact Nat.mod_lt _ (by decide)
  · exact Nat.mod_lt _ (by decide)
  · exact u.data.toNat_lt
  · exact hbool _

theorem UserAccess.apart_parts : Packing.Apart u.parts := by
  have hranges : (u.parts.map Prod.fst).Pairwise Packing.Range.Disjoint := by
    show [writeBit, goBit, regadrBits, phyadrBits, dataBits, ackBit].Pairwise _
    decide
  exact List.pairwise_map.mp hranges

theorem UserAccess.toNat_word : u.word.toNat = Packing.pack u.parts := by
  have hlt : Packing.pack u.parts < 2 ^ 32 := by
    apply Nat.lt_pow_two_of_testBit
    intro i hi
    apply Packing.testBit_pack_of_not_has u.fits_parts
    intro part hpart hhas
    have hend := hhas.2
    simp only [parts, List.mem_cons, List.not_mem_nil, or_false] at hpart
    rcases hpart with rfl | rfl | rfl | rfl | rfl | rfl <;>
      simp only [writeBit, goBit, regadrBits, phyadrBits, dataBits, ackBit] at hend <;> omega
  unfold word
  rw [UInt32.toNat_ofNat', Nat.mod_eq_of_lt hlt]

/-- The word has the fields it was made of. -/
theorem UserAccess.get_word {r : Packing.Range} {v : ℕ} (h : (r, v) ∈ u.parts) :
    Packing.get r u.word.toNat = v := by
  rw [toNat_word]
  exact Packing.get_pack u.fits_parts u.apart_parts h

theorem UserAccess.get_goBit : Packing.get goBit u.word.toNat = u.go.toNat :=
  u.get_word (by simp [parts])

theorem UserAccess.get_ackBit : Packing.get ackBit u.word.toNat = u.ack.toNat :=
  u.get_word (by simp [parts])

theorem UserAccess.get_dataBits : Packing.get dataBits u.word.toNat = u.data.toNat :=
  u.get_word (by simp [parts])

/-- What is written comes out with the addresses cut to five bits. -/
theorem UserAccess.ofWord_word : UserAccess.ofWord u.word
    = { u with regadr := u.regadr % 2 ^ 5, phyadr := u.phyadr % 2 ^ 5 } := by
  have hbool : ∀ b : Bool, decide (b.toNat = 1) = b := by decide
  have hwrite : Packing.get writeBit u.word.toNat = u.write.toNat := u.get_word (by simp [parts])
  have hreg : Packing.get regadrBits u.word.toNat = u.regadr % 2 ^ 5 :=
    u.get_word (by simp [parts])
  have hphy : Packing.get phyadrBits u.word.toNat = u.phyadr % 2 ^ 5 :=
    u.get_word (by simp [parts])
  unfold ofWord
  rw [u.get_goBit, u.get_ackBit, u.get_dataBits, hwrite, hreg, hphy, hbool, hbool, hbool,
    UInt16.ofNat_toNat]

/-- The test of a bit of a word. -/
theorem and_eq_self_iff {w m : UInt32} {i : ℕ} (hm : m.toNat = 2 ^ i) :
    w &&& m = m ↔ Packing.get ⟨i, 1⟩ w.toNat = 1 := by
  rw [← UInt32.toNat_inj, UInt32.toNat_and, hm, Nat.and_two_pow]
  unfold Packing.get
  rw [Nat.shiftRight_eq_div_pow, pow_one, Nat.testBit_eq_decide_div_mod_eq]
  by_cases hbit : w.toNat / 2 ^ i % 2 = 1
  · simp [hbit]
  · have hpos := Nat.two_pow_pos i
    simp only [hbit, decide_false, Bool.toNat_false, Nat.zero_mul, iff_false]
    omega

theorem UserAccess.word_and_go :
    u.word &&& mdioUseraccess0Go = mdioUseraccess0Go ↔ u.go = true := by
  rw [and_eq_self_iff (show mdioUseraccess0Go.toNat = 2 ^ 31 from rfl)]
  show Packing.get goBit _ = 1 ↔ _
  rw [u.get_goBit]
  exact Bool.toNat_eq_one

theorem UserAccess.word_and_ack :
    u.word &&& mdioUseraccess0Ack = mdioUseraccess0Ack ↔ u.ack = true := by
  rw [and_eq_self_iff (show mdioUseraccess0Ack.toNat = 2 ^ 29 from rfl)]
  show Packing.get ackBit _ = 1 ↔ _
  rw [u.get_ackBit]
  exact Bool.toNat_eq_one

theorem UserAccess.word_and_data : (u.word &&& 0xFFFF).toUInt16 = u.data := by
  have hmask : (u.word &&& 0xFFFF).toNat = u.data.toNat := by
    rw [UInt32.toNat_and, ← u.get_dataBits]
    exact Nat.and_two_pow_sub_one_eq_mod _ 16
  rw [← UInt16.toNat_inj, UInt32.toNat_toUInt16, hmask, Nat.mod_eq_of_lt u.data.toNat_lt]

end Words

/-! ## The code -/

/-- A read that finds a transaction under way is one of finitely many. -/
theorem Mdio.polls_readReg_lt {c : Mdio}
    (h : c.readReg.1 &&& mdioUseraccess0Go = mdioUseraccess0Go) :
    c.readReg.2.polls < c.polls := by
  unfold readReg at h ⊢
  by_cases hgo : c.access.go = true
  · by_cases hpolls : c.polls = 0
    · -- the read that finds the transaction at its end does not see `GO`
      rw [if_pos hgo, if_pos hpolls, UserAccess.word_and_go, go_finish] at h
      simp at h
    · rw [if_pos hgo, if_neg hpolls]
      show c.polls - 1 < c.polls
      omega
  · rw [if_neg hgo, UserAccess.word_and_go] at h
    exact absurd h hgo

/-- `mdio_wait_until_rdy`: the transaction that is under way comes to its end after finitely many
reads. -/
def mdioWaitUntilRdy (c : Mdio) : Mdio :=
  if c.readReg.1 &&& mdioUseraccess0Go = mdioUseraccess0Go then mdioWaitUntilRdy c.readReg.2
  else c.readReg.2
termination_by c.polls
decreasing_by exact Mdio.polls_readReg_lt ‹_›

/-- `mdio_reg_read`. -/
def mdioRegRead (phyAddr regNum : UInt32) (c : Mdio) : UInt16 × Mdio :=
  let c := mdioWaitUntilRdy c
  let c := c.writeReg (mdioUseraccess0Read ||| mdioUseraccess0Go ||| (regNum &&& 0x1F) <<< 21
    ||| (phyAddr &&& 0x1F) <<< 16)
  let c := mdioWaitUntilRdy c
  -- use rx data only if acknowledged
  let (status, c) := c.readReg
  if status &&& mdioUseraccess0Ack = mdioUseraccess0Ack then
    let (word, c) := c.readReg
    ((word &&& 0xFFFF).toUInt16, c)
  else (0, c)

/-- `mdio_reg_write`. -/
def mdioRegWrite (phyAddr regNum : UInt32) (regVal : UInt16) (c : Mdio) : Mdio :=
  let c := mdioWaitUntilRdy c
  let c := c.writeReg (mdioUseraccess0Write ||| mdioUseraccess0Go ||| (regNum &&& 0x1F) <<< 21
    ||| (phyAddr &&& 0x1F) <<< 16 ||| regVal.toUInt32)
  mdioWaitUntilRdy c

/-- `MDIO_LAST_STD_REG`. -/
def mdioLastStdReg : UInt16 := 31

def mdioRegcrDevadAll : UInt16 := 0x1F
def mdioRegcrFnAddr : UInt16 := 0
def mdioRegcrFnDataNoIncr : UInt16 := 0x4000

/-- `mdio_send_addr`. -/
def mdioSendAddr (phyid : UInt32) (addr : UInt16) (c : Mdio) : UInt8 × Mdio :=
  if addr ≤ mdioLastStdReg then (addr.toUInt8, c)
  else
    let c := mdioRegWrite phyid mdioRegcr.toUInt32 (mdioRegcrFnAddr ||| mdioRegcrDevadAll) c
    let c := mdioRegWrite phyid mdioAddar.toUInt32 addr c
    let c := mdioRegWrite phyid mdioRegcr.toUInt32 (mdioRegcrFnDataNoIncr ||| mdioRegcrDevadAll) c
    (mdioAddar.toUInt8, c)

/-- `mdio_read`. -/
def mdioRead (phyid : UInt32) (addr : UInt16) (c : Mdio) : UInt16 × Mdio :=
  let (addr, c) := mdioSendAddr phyid addr c
  mdioRegRead phyid addr.toUInt32 c

/-- `mdio_write`. -/
def mdioWrite (phyid : UInt32) (addr value : UInt16) (c : Mdio) : Mdio :=
  let (addr, c) := mdioSendAddr phyid addr c
  mdioRegWrite phyid addr.toUInt32 value c

end Cannelloni
