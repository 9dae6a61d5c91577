import Cannelloni.SwitchConfig.Writer

/-!
# The record classes and blocks of the switch configuration

The subclasses of `Mem` in `gen_switch_config.py` and the blocks it writes. `MACConfigTable` names
`TOP0`, `BASE0` and `ENABLED0` twice: in a class body the later annotation replaces the earlier
one in its place.
-/

namespace Cannelloni.SwitchConfig

/-- A name in the source. -/
def ident (name : String)
    (h : (name.toList.all fun c => c.isAlphanum = true ∨ c = '_' ∨ 128 ≤ c.toNat) = true := by
      decide +kernel) : Ident :=
  ⟨name, fun c hc => of_decide_eq_true (List.all_eq_true.mp h c hc)⟩

/-- A field with its symbol and its default. -/
def field (name : Ident) (endBit startBit : ℕ) (default : ℤ) (h : startBit ≤ endBit := by decide) :
    Field := ⟨name, ⟨endBit, startBit, h⟩, default⟩

/-! ## Record classes -/

def l2PolicyRecord : RecordClass where
  name := ident "L2PolicyRecord"
  words := 2
  fields := [
    field (ident "SHARINDX") 63 58 0,
    field (ident "SMAX") 57 42 0,
    field (ident "RATE") 41 26 0,
    field (ident "MAXLEN") 25 15 0,
    field (ident "PARTITION") 14 12 0]
  nodup := by decide +kernel

def l2ForwardingRecord : RecordClass where
  name := ident "L2ForwardingRecord"
  words := 2
  fields := [
    field (ident "BC_DOMAIN") 63 59 0,
    field (ident "REACH_PORT") 58 54 0,
    field (ident "FL_DOMAIN") 53 49 0,
    field (ident "VLAN_PMAP7") 48 46 0,
    field (ident "VLAN_PMAP0") 27 25 0]
  nodup := by decide +kernel

def xMIIModeParams : RecordClass where
  name := ident "XMIIModeParams"
  words := 1
  fields := [
    field (ident "xMII_MODE0") 18 17 0,
    field (ident "xMII_MAC0") 19 19 0,
    field (ident "xMII_MODE1") 21 20 0,
    field (ident "xMII_MAC1") 22 22 0,
    field (ident "xMII_MODE2") 24 23 0,
    field (ident "xMII_MAC2") 25 25 0,
    field (ident "xMII_MODE3") 27 26 0,
    field (ident "xMII_MAC3") 28 28 0,
    field (ident "xMII_MODE4") 30 29 0,
    field (ident "xMII_MAC4") 31 31 0]
  nodup := by decide +kernel

def generalParameters : RecordClass where
  name := ident "GeneralParameters"
  words := 10
  fields := [
    field (ident "VLLUPFORMAT") 351 351 0,
    field (ident "MIRR_PTACU") 350 350 0,
    field (ident "SWITCHID") 349 347 0,
    field (ident "HOSTPRIO") 346 344 0,
    field (ident "MAC_FLTRES1") 343 296 0,
    field (ident "MAC_FLTRES0") 295 248 0,
    field (ident "MAC_FLT1") 247 200 0,
    field (ident "MAC_FLT0") 199 152 0,
    field (ident "INCL_SRCPT1") 151 151 0,
    field (ident "INCL_SRCPT0") 150 150 0,
    field (ident "SEND_META1") 149 149 0,
    field (ident "SEND_META0") 148 148 0,
    field (ident "CASC_PORT") 147 145 0,
    field (ident "HOST_PORT") 144 142 0,
    field (ident "MIRR_PORT") 141 139 0,
    field (ident "VIMARKER") 138 107 0,
    field (ident "VIMASK") 106 75 0,
    field (ident "TPID") 74 59 0,
    field (ident "IGNORE2STF") 58 58 0,
    field (ident "TPID2") 57 42 0,
    field (ident "QUEUE_TS") 41 41 0,
    field (ident "EGRMIRRVID") 40 29 0,
    field (ident "EGRMIRRPCP") 28 26 0,
    field (ident "EGRMIRRDEI") 25 25 0,
    field (ident "REPLAY_PORT") 24 22 0]
  nodup := by decide +kernel

def l2ForwardingParam : RecordClass where
  name := ident "L2ForwardingParam"
  words := 3
  fields := [
    field (ident "PART_SPC0") 22 13 0]
  nodup := by decide +kernel

def macConfigTable : RecordClass where
  name := ident "MACConfigTable"
  words := 7
  fields := [
    field (ident "TOP0") 122 114 0,
    field (ident "BASE0") 113 105 0,
    field (ident "ENABLED0") 104 104 0,
    field (ident "IFG") 103 99 0,
    field (ident "SPEED") 98 97 0,
    field (ident "TP_DELIN") 96 81 0,
    field (ident "TP_DELOUT") 80 65 0,
    field (ident "MAXAGE") 64 57 0,
    field (ident "VLANPRIO") 56 54 0,
    field (ident "VLANID") 53 42 0,
    field (ident "ING_MIRR") 41 41 0,
    field (ident "EGR_MIRR") 40 40 0,
    field (ident "DRPNONA664") 39 39 0,
    field (ident "DRPDTAG") 38 38 0,
    field (ident "DRPSOTAG") 37 37 0,
    field (ident "DRPSITAG") 36 36 0,
    field (ident "DRPUNTAG") 35 35 0,
    field (ident "RETAG") 34 34 0,
    field (ident "DYN_LEARN") 33 33 0,
    field (ident "EGRESS") 32 32 0,
    field (ident "INGRESS") 31 31 0,
    field (ident "MIRRCIE") 30 30 0,
    field (ident "MIRRCETAG") 29 29 0,
    field (ident "INGMIRRVID") 28 17 0,
    field (ident "INGMIRRPCP") 16 14 0,
    field (ident "INGMIRRDEI") 13 13 0,
    field (ident "X") 4 0 0xE]
  nodup := by decide +kernel

/-! ## The blocks -/

/-- `ports_bits`. -/
def portsBits (excluding : ℕ) : ℤ := Int.land 0b11111 (Int.lnot (1 <<< excluding : ℕ))

def maxPorts : ℕ := 5

/-- The records of a forwarding table: what each port may reach, then the priorities. -/
def forwardingRecords : List Item :=
  (List.range maxPorts).map (fun i => .mem (l2ForwardingRecord.new [
    (ident "BC_DOMAIN", portsBits i), (ident "REACH_PORT", portsBits i),
    (ident "FL_DOMAIN", portsBits i)]))
  ++ List.replicate 8 (.mem (l2ForwardingRecord.new []))

/-- The record of a port that is delayed by `tpDelout` on its way out. -/
def macConfig (tpDelout : ℤ) : Item :=
  .mem (macConfigTable.new [(ident "TP_DELIN", 1022), (ident "TP_DELOUT", tpDelout)])

/-- `blocks`. -/
def blocks : Blocks where
  items := [
    (0x6, List.replicate 45 (.mem (l2PolicyRecord.new [(ident "SHARINDX", 0), (ident "SMAX", -1),
      (ident "RATE", -1), (ident "MAXLEN", 1518), (ident "PARTITION", 0)]))),
    (0x8, forwardingRecords),
    (0x9, [macConfig 130, macConfig 130, macConfig 130, macConfig 130, macConfig 129]),
    (0xE, [.mem (l2ForwardingParam.new [(ident "PART_SPC0", 929)])]),
    (0x11, [.mem (generalParameters.new [(ident "MAC_FLT1", -1), (ident "MAC_FLT0", -1),
      (ident "CASC_PORT", -1), (ident "HOST_PORT", -1), (ident "MIRR_PORT", -1),
      (ident "TPID", 0x88A8), (ident "TPID2", 0x8100)])]),
    (0x4E, [.mem (xMIIModeParams.new [(ident "xMII_MAC0", 1), (ident "xMII_MAC1", 1),
      (ident "xMII_MAC2", 1), (ident "xMII_MODE3", 0b01), (ident "xMII_MODE4", 0b10)])])]
  nodup := by decide +kernel

end Cannelloni.SwitchConfig
