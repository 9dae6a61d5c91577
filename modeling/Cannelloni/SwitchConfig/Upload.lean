import Cannelloni.Drivers.Spi
import Cannelloni.SwitchConfig.Image
import Cannelloni.SwitchConfig.Target

/-!
# From the script to the switch (`SJA1105.c`)

The array `config` of `SJA1105.c` is a header that `WRITE` makes and the bytes of the region that
`gen_switch_config.py` fills. `SJA1105_init` writes a register and sends the array.

`config_uploaded` goes all the way to the wire: for every interleaving of the driver with the SPI
controller, the frames at the chip select are two writes, and the words of the second one are an
image of the blocks that the script was given.
-/

namespace Cannelloni.SwitchConfig

/-! ## The code -/

/-- `WRITE`. -/
def writeHeader (addr : UInt32) : List UInt8 :=
  [((0x80 : UInt32) ||| ((addr >>> 20) &&& 1)).toUInt8, (addr >>> 12).toUInt8,
    ((addr >>> 4) &&& 0xFF).toUInt8, ((addr <<< 4) &&& 0xFF).toUInt8]

/-- `STATIC_CONFIG_ADDR`. -/
def staticConfigAddr : UInt32 := 0x20000

/-- The array `config`, with the given text between its markers. -/
def configArray (region : List Char) : List UInt8 :=
  writeHeader staticConfigAddr ++ (textBytes region).map UInt8.ofNat

/-- `tx` in `SJA1105_write`. -/
def sja1105Write (addr value : UInt32) : List UInt8 :=
  writeHeader addr ++
    [(value >>> 24).toUInt8, (value >>> 16).toUInt8, (value >>> 8).toUInt8, value.toUInt8]

/-- The calls of `spi_transfer` in `SJA1105_init`. -/
def sja1105Init (region : List Char) : List (List UInt8) :=
  [sja1105Write 0x100032 0xB000800, configArray region]

/-! ## Headers and words -/

/-- The control word of a write to the low 21 bits of an address. -/
def writeControl (addr : UInt32) : UInt32 := (0x80000000 : UInt32) ||| ((addr &&& 0x1FFFFF) <<< 4)

/-- `WRITE` makes the control word. -/
theorem writeHeader_eq (addr : UInt32) : writeHeader addr = Bytes.be32 (writeControl addr) := by
  have hbits : ((0x80 : UInt32) ||| ((addr >>> 20) &&& 1)).toUInt8
        = (writeControl addr >>> 24).toUInt8 ∧
      (addr >>> 12).toUInt8 = (writeControl addr >>> 16).toUInt8 ∧
      ((addr >>> 4) &&& 0xFF).toUInt8 = (writeControl addr >>> 8).toUInt8 ∧
      ((addr <<< 4) &&& 0xFF).toUInt8 = (writeControl addr).toUInt8 := by
    unfold writeControl
    simp only [← UInt8.toBitVec_inj, UInt32.toBitVec_toUInt8, UInt32.toBitVec_or,
      UInt32.toBitVec_and, UInt32.toBitVec_shiftRight, UInt32.toBitVec_shiftLeft]
    -- bit by bit
    refine ⟨?_, ?_, ?_, ?_⟩ <;>
      · ext i hi
        interval_cases i <;> simp
  obtain ⟨h24, h16, h8, h0⟩ := hbits
  unfold writeHeader Bytes.be32
  rw [h24, h16, h8, h0]

/-- The bytes of the text are the bytes of a machine word. -/
theorem map_ofNat_be32 (w : ℕ) : (be32 w).map UInt8.ofNat = Bytes.be32 (UInt32.ofNat w) := by
  have hbyte : ∀ k, k = 24 ∨ k = 16 ∨ k = 8 ∨ k = 0 → UInt8.ofNat (w >>> k &&& 0xFF)
      = (UInt32.ofNat w >>> UInt32.ofNat k).toUInt8 := by
    intro k hk
    have hshift : k % 2 ^ 32 % 32 = k := by omega
    apply UInt8.toNat_inj.mp
    rw [UInt8.toNat_ofNat', UInt32.toNat_toUInt8, UInt32.toNat_shiftRight, UInt32.toNat_ofNat',
      UInt32.toNat_ofNat', Nat.shiftRight_eq_div_pow, Nat.shiftRight_eq_div_pow,
      show (0xFF : ℕ) = 2 ^ 8 - 1 from rfl, Nat.and_two_pow_sub_one_eq_mod, Nat.mod_mod, hshift]
    rcases hk with rfl | rfl | rfl | rfl <;> omega
  have h0 : (UInt32.ofNat w >>> UInt32.ofNat 0).toUInt8 = (UInt32.ofNat w).toUInt8 := by simp
  have hlast := hbyte 0 (by omega)
  rw [h0, Nat.shiftRight_zero] at hlast
  show [_, _, _, _] = _
  rw [hbyte 24 (by omega), hbyte 16 (by omega), hbyte 8 (by omega), hlast]
  rfl

/-! ## What is in the array -/

/-- The bytes of a region are those of the generated text. -/
theorem textBytes_region {w : Writer} {ws : List ℕ} (h : Writer.init.Adds w ws) :
    textBytes w.region = w.written.flatMap be32 := by
  obtain ⟨lines, htext, -, -⟩ := h.text
  have hpadding : ∀ lines : List (List Char),
      textBytes (lines.flatMap (· ++ ['\n']) ++ Writer.padding.toList)
        = textBytes (lines.flatMap (· ++ ['\n'])) := by
    intro lines
    induction lines with
    | nil => rfl
    | cons line lines ih =>
      simp only [List.flatMap_cons, List.append_assoc, List.cons_append, List.nil_append]
      rw [textBytes_append_newline, textBytes_append_newline, ih]
  have hcode : w.newCode.toList = lines.flatMap (· ++ ['\n']) := htext
  calc textBytes w.region
      = textBytes ([] ++ '\n' :: (w.newCode.toList ++ Writer.padding.toList)) := rfl
    _ = textBytes (w.newCode.toList ++ Writer.padding.toList) := textBytes_append_newline [] _
    _ = textBytes w.newCode.toList := by rw [hcode, hpadding]
    _ = w.written.flatMap be32 := h.textBytes_eq

/-- A write of words from an address on. -/
def writeFrame (addr : UInt32) (ws : List UInt32) : List UInt8 :=
  Bytes.be32 (writeControl addr) ++ ws.flatMap Bytes.be32

/-- The array is the write of the words. -/
theorem configArray_region {w : Writer} {ws : List ℕ} (h : Writer.init.Adds w ws) :
    configArray w.region = writeFrame staticConfigAddr (w.written.map UInt32.ofNat) := by
  unfold configArray writeFrame
  rw [textBytes_region h, List.map_flatMap, List.flatMap_map, writeHeader_eq]
  simp only [map_ofNat_be32]

theorem sja1105Write_eq (addr value : UInt32) :
    sja1105Write addr value = writeFrame addr [value] := by
  unfold sja1105Write writeFrame
  rw [writeHeader_eq]
  rfl

/-- The frames of `SJA1105_init`. -/
theorem sja1105Init_region {w : Writer} {ws : List ℕ} (h : Writer.init.Adds w ws) :
    sja1105Init w.region = [writeFrame 0x100032 [0xB000800],
      writeFrame 0x20000 (w.written.map UInt32.ofNat)] := by
  unfold sja1105Init
  rw [sja1105Write_eq, configArray_region h]
  rfl

/-- No bit of a word is lost. -/
theorem map_toNat_ofNat {ws : List ℕ} (h : ∀ w ∈ ws, w < 2 ^ 32) :
    (ws.map UInt32.ofNat).map UInt32.toNat = ws := by
  rw [List.map_map]
  conv_rhs => rw [← List.map_id ws]
  apply List.map_congr_left
  intro w hw
  exact UInt32.toNat_ofNat_of_lt' (h w hw)

/-! ## On the wire -/

/-- The calls of `SJA1105_init` have characters. -/
theorem filter_sja1105Init (region : List Char) :
    (sja1105Init region).filter (· ≠ []) = sja1105Init region := by
  rw [List.filter_eq_self]
  intro tx htx
  rw [decide_eq_true_eq]
  rcases List.mem_cons.mp htx with rfl | htx
  · exact List.cons_ne_nil _ _
  · rw [List.mem_singleton.mp htx]
    exact List.cons_ne_nil _ _

/-- The script is given blocks, its text is compiled into the array, and `SJA1105_init` runs beside
the controller, in any interleaving. The characters at the chip select are at every moment the
first ones of two frames, and the frames that are complete are the first of these: a write to the
register, and a write of words to `0x20000`. The words are an image of the blocks with their ids.
In the end both frames are complete, and until then one of the two parties gets on. -/
theorem config_uploaded (blocks : Blocks) (h : blocks.WellFormed) :
    ∃ w cs, Writer.init.generate blocks = .ok w ∧ contents blocks.items = .ok cs ∧
      ((∀ b ∈ cs, b.2.length < 2 ^ 32) → ∃ ws : List UInt32,
        readImage (ws.map UInt32.toNat) = some (cs, []) ∧
        ∀ events : List SpiEvent,
          let s := SpiSystem.run (.start (sja1105Init w.region)) events
          let frames := [writeFrame 0x100032 [0xB000800], writeFrame 0x20000 ws]
          s.spi.chars <+: frames.flatten ∧ s.spi.frames <+: frames ∧
            (s.Done → s.spi.frames = frames) ∧
            (¬ s.Done → (s.step .poll).todo < s.todo ∨ (s.step .shift).todo < s.todo)) := by
  obtain ⟨cs, hcs, hids, hlt, hlast⟩ := contents_ok h.inRange h.not_last
  obtain ⟨w, hw, hadds⟩ := Writer.generate_adds hcs
  refine ⟨w, cs, hw, hcs, ?_⟩
  intro hlength
  have hwritten : w.written = imageWords cs ++ [crc32 (imageWords cs)] := hadds.written_eq
  have hwords : ∀ word ∈ w.written, word < 2 ^ 32 := by
    rw [hwritten]
    refine lt_of_mem_image ?_ hlt hlength
    intro b hb
    have hmem : b.1 ∈ blocks.items.map Prod.fst := by
      rw [← hids]
      exact List.mem_map_of_mem hb
    obtain ⟨b', hb', heq⟩ := List.mem_map.mp hmem
    rw [← heq]
    exact h.id_lt b' hb'
  refine ⟨w.written.map UInt32.ofNat, ?_, ?_⟩
  · rw [map_toNat_ofNat hwords, hwritten]
    exact readImage_imageWords hlast
  · intro events
    have hinv := SpiSystem.inv_run (sja1105Init w.region) events
    have hprefix := hinv.frames_prefix
    have hdone := hinv.frames_of_done
    rw [filter_sja1105Init, sja1105Init_region hadds] at hprefix hdone
    have hchars := hinv.chars_prefix
    rw [sja1105Init_region hadds] at hchars
    rw [sja1105Init_region hadds] at hinv ⊢
    exact ⟨hchars, hprefix, hdone, hinv.progress⟩

/-- The blocks of the script. -/
theorem config_uploaded_blocks :
    ∃ w cs, Writer.init.generate blocks = .ok w ∧ contents blocks.items = .ok cs ∧
      ∃ ws : List UInt32, readImage (ws.map UInt32.toNat) = some (cs, []) ∧
        ∀ events : List SpiEvent, (SpiSystem.run (.start (sja1105Init w.region)) events).spi.frames
          <+: [writeFrame 0x100032 [0xB000800], writeFrame 0x20000 ws] := by
  obtain ⟨w, cs, hw, hcs, h⟩ :=
    config_uploaded blocks ⟨by decide +kernel, by decide +kernel, by decide +kernel⟩
  have hshort : (contents blocks.items).toOption.map
      (fun cs => decide (∀ b ∈ cs, b.2.length < 2 ^ 32)) = some true := by
    decide +kernel
  rw [hcs] at hshort
  obtain ⟨ws, himage, hwire⟩ := h (of_decide_eq_true (Option.some.inj hshort))
  exact ⟨w, cs, hw, hcs, ws, himage, fun events => (hwire events).2.1⟩

end Cannelloni.SwitchConfig
