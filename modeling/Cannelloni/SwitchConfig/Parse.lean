import Cannelloni.Lib.Packing
import Cannelloni.SwitchConfig.Records

/-!
# Reading a record back

`Mem.parse` of `gen_switch_config.py`, and how it and `to_bytes` undo each other for every record
class whose fields are apart and inside its words.
-/

namespace Cannelloni.SwitchConfig

/-! ## The code -/

/-- What `parse` raises: the assertion on the number of bytes, or the `ValueError` of
`bytearray`. -/
inductive ParseError
  | assertion
  | value
deriving DecidableEq

/-- `int.from_bytes` with `"big"`. -/
def fromBytesBig (bytes : List ℕ) : ℕ := bytes.foldl (fun n b => n * 256 + b) 0

/-- A pass of the loop in `parse`: the four bytes at `4 * b` are a word, most significant byte
first. -/
def parseDword (bytes : List ℕ) (num b : ℕ) : Except ParseError ℕ :=
  let chunk := (bytes.take (4 * (b + 1))).drop (4 * b)
  if chunk.all (· < 256) then .ok (num ||| fromBytesBig chunk <<< (b * 32)) else .error .value

/-- The value of a field in the register. -/
def Symbol.extract (s : Symbol) (num : ℕ) : ℕ := num >>> s.startBit &&& s.mask

/-- `parse`. -/
def Mem.parse (cls : RecordClass) (bytes : List ℕ) : Except ParseError Mem :=
  if bytes.length ≠ 4 * cls.words then .error .assertion
  else do
    let num ← (List.range (bytes.length / 4)).foldlM (parseDword bytes) 0
    return cls.new (cls.fields.map fun f => (f.name, (f.symbol.extract num : ℤ)))

/-! ## Layouts -/

/-- The bits of a symbol. -/
def Symbol.range (s : Symbol) : Packing.Range := ⟨s.startBit, s.bits⟩

/-- No two fields of the class have a bit in common. -/
def RecordClass.Apart (cls : RecordClass) : Prop :=
  cls.fields.Pairwise fun f g => f.symbol.range.Disjoint g.symbol.range

/-- Moreover every field ends inside the words of the class. -/
structure RecordClass.Layout (cls : RecordClass) : Prop where
  apart : cls.Apart
  inside : ∀ f ∈ cls.fields, f.symbol.endBit < 32 * cls.words

instance (cls : RecordClass) : Decidable cls.Apart :=
  inferInstanceAs (Decidable (List.Pairwise _ _))

/-- The bit of the register belongs to a field. -/
def RecordClass.Covers (cls : RecordClass) (i : ℕ) : Prop :=
  ∃ f ∈ cls.fields, f.symbol.startBit ≤ i ∧ i ≤ f.symbol.endBit

instance (cls : RecordClass) (i : ℕ) : Decidable (cls.Covers i) :=
  inferInstanceAs (Decidable (∃ _ ∈ _, _))

theorem Symbol.has_range (s : Symbol) (i : ℕ) :
    s.range.Has i ↔ s.startBit ≤ i ∧ i ≤ s.endBit := by
  have hle := s.start_le_end
  show (s.startBit ≤ i ∧ i < s.startBit + (s.endBit - s.startBit + 1)) ↔ _
  omega

theorem Symbol.extract_eq (s : Symbol) (num : ℕ) : s.extract num = Packing.get s.range num := by
  unfold extract
  rw [mask_eq, Nat.and_two_pow_sub_one_eq_mod]
  rfl

/-! ## Packing a record -/

/-- What is stored for a value in range fits the symbol. -/
theorem Symbol.InRange.stored_lt {s : Symbol} {val : ℤ} (h : s.InRange val) :
    0 ≤ s.stored val ∧ s.stored val < 2 ^ s.bits :=
  (land_mask_eq_iff s _).mp ((s.land_stored_iff val).mpr h)

/-- The fields of a record with the values that are stored for them. -/
def Mem.parts (m : Mem) : List (Packing.Range × ℕ) :=
  m.cls.fields.map fun f => (f.symbol.range, (f.symbol.stored (m.val f.name)).toNat)

theorem Mem.fits_parts {m : Mem} (h : m.InRange) : Packing.Fits m.parts := by
  intro part hpart
  rcases List.mem_map.mp hpart with ⟨f, hf, rfl⟩
  rcases (h f hf).stored_lt with ⟨hnonneg, hlt⟩
  show (f.symbol.stored (m.val f.name)).toNat < 2 ^ f.symbol.bits
  rw [Int.toNat_lt hnonneg]
  exact_mod_cast hlt

theorem Mem.apart_parts {m : Mem} (h : m.cls.Apart) : Packing.Apart m.parts :=
  List.pairwise_map.mpr h

/-- The loop over fields in range or-s their values into the register. -/
theorem Mem.foldlM_addField_eq {m : Mem} {fields : List Field}
    (h : ∀ f ∈ fields, f.symbol.InRange (m.val f.name)) (registerVal : ℕ) :
    fields.foldlM m.addField registerVal = .ok ((fields.map fun f =>
      (f.symbol.range, (f.symbol.stored (m.val f.name)).toNat)).foldl Packing.put registerVal) := by
  induction fields generalizing registerVal with
  | nil => rfl
  | cons f fields ih =>
    have hland := (f.symbol.land_stored_iff _).mpr (h f List.mem_cons_self)
    have hstep : m.addField registerVal f = .ok (Packing.put registerVal
        (f.symbol.range, (f.symbol.stored (m.val f.name)).toNat)) := by
      unfold addField
      simp only [hland]
      exact if_neg (not_not.mpr rfl)
    rw [List.foldlM_cons, hstep, List.map_cons, List.foldl_cons]
    exact ih (fun g hg => h g (List.mem_cons_of_mem _ hg)) _

theorem dwords_eq (n registerVal : ℕ) : dwords n registerVal = Packing.words 32 n registerVal := by
  induction n generalizing registerVal with
  | zero => rfl
  | succ n ih =>
    rw [dwords, Packing.words, ih, show 0xFFFFFFFF = 2 ^ 32 - 1 from rfl,
      Nat.and_two_pow_sub_one_eq_mod]

/-- A record in range becomes the words of its packed fields. -/
theorem Mem.toBytes_eq {m : Mem} (h : m.InRange) :
    m.toBytes = .ok (Packing.words 32 m.cls.words (Packing.pack m.parts)) := by
  unfold toBytes
  rw [foldlM_addField_eq h, ← dwords_eq]
  rfl

/-- A loop that meets a field out of range raises, naming such a field. -/
theorem Mem.foldlM_addField_error {m : Mem} {fields : List Field}
    (h : ∃ f ∈ fields, ¬ f.symbol.InRange (m.val f.name)) (registerVal : ℕ) :
    ∃ f ∈ fields, ¬ f.symbol.InRange (m.val f.name) ∧ fields.foldlM m.addField registerVal
      = .error ⟨f.name, f.symbol.stored (m.val f.name), f.symbol.bits⟩ := by
  induction fields generalizing registerVal with
  | nil => simp at h
  | cons f fields ih =>
    by_cases hf : f.symbol.InRange (m.val f.name)
    · rcases addField_ok hf registerVal with ⟨r, hr⟩
      rcases ih ((List.exists_mem_cons_iff _ _ _).mp h |>.resolve_left (not_not.mpr hf)) r with
        ⟨g, hg, hout, herror⟩
      refine ⟨g, List.mem_cons_of_mem f hg, hout, ?_⟩
      rw [List.foldlM_cons, hr]
      exact herror
    · refine ⟨f, List.mem_cons_self, hf, ?_⟩
      have hland := mt (f.symbol.land_stored_iff _).mp hf
      have hstep : m.addField registerVal f
          = .error ⟨f.name, f.symbol.stored (m.val f.name), f.symbol.bits⟩ := if_pos hland
      rw [List.foldlM_cons, hstep]
      rfl

theorem Mem.toBytes_error {m : Mem} (h : ¬ m.InRange) :
    ∃ f ∈ m.cls.fields, ¬ f.symbol.InRange (m.val f.name) ∧
      m.toBytes = .error ⟨f.name, f.symbol.stored (m.val f.name), f.symbol.bits⟩ := by
  have hout : ∃ f ∈ m.cls.fields, ¬ f.symbol.InRange (m.val f.name) := by
    simpa [Mem.InRange] using h
  rcases foldlM_addField_error hout 0 with ⟨f, hf, hf', herror⟩
  refine ⟨f, hf, hf', ?_⟩
  unfold toBytes
  rw [herror]
  rfl

/-! ## The bytes of words -/

theorem be32_eq (w : ℕ) :
    be32 w = [w / 2 ^ 24 % 256, w / 2 ^ 16 % 256, w / 2 ^ 8 % 256, w % 256] := by
  have hmask : ∀ n : ℕ, n &&& 0xFF = n % 256 := fun n => Nat.and_two_pow_sub_one_eq_mod n 8
  unfold be32
  rw [hmask, hmask, hmask, hmask, Nat.shiftRight_eq_div_pow, Nat.shiftRight_eq_div_pow,
    Nat.shiftRight_eq_div_pow]

@[simp] theorem length_be32 (w : ℕ) : (be32 w).length = 4 := rfl

theorem fromBytesBig_be32 {w : ℕ} (h : w < 2 ^ 32) : fromBytesBig (be32 w) = w := by
  rw [be32_eq]
  show (((0 * 256 + w / 2 ^ 24 % 256) * 256 + w / 2 ^ 16 % 256) * 256 + w / 2 ^ 8 % 256) * 256
    + w % 256 = w
  omega

theorem length_flatMap_be32 (ws : List ℕ) : (ws.flatMap be32).length = 4 * ws.length := by
  induction ws with
  | nil => rfl
  | cons w ws ih =>
    rw [List.flatMap_cons, List.length_append, ih, length_be32, List.length_cons]
    omega

/-- The slice of a word. -/
theorem slice_flatMap_be32 {ws : List ℕ} {k : ℕ} (hk : k < ws.length) :
    ((ws.flatMap be32).take (4 * (k + 1))).drop (4 * k) = be32 (ws[k]) := by
  induction ws generalizing k with
  | nil => simp at hk
  | cons w ws ih =>
    cases k with
    | zero => rfl
    | succ k =>
      have hk' : k < ws.length := by simpa using hk
      rw [List.flatMap_cons, List.getElem_cons_succ, ← ih hk']
      have htake : 4 * (k + 1 + 1) = (be32 w).length + 4 * (k + 1) := by
        rw [length_be32]
        omega
      have hdrop : 4 * (k + 1) = (be32 w).length + 4 * k := by
        rw [length_be32]
        omega
      rw [htake, List.take_length_add_append, hdrop, List.drop_length_add_append, ← hdrop]

/-- Four bytes are the bytes of a word. -/
theorem be32_of_bytes {a b c d : ℕ} (ha : a < 256) (hb : b < 256) (hc : c < 256) (hd : d < 256) :
    ∃ w < 2 ^ 32, be32 w = [a, b, c, d] := by
  refine ⟨a * 2 ^ 24 + b * 2 ^ 16 + c * 2 ^ 8 + d, by omega, ?_⟩
  rw [be32_eq]
  congr 1
  · omega
  congr 1
  · omega
  congr 1
  · omega
  congr 1
  omega

/-- Bytes in groups of four are the bytes of words. -/
theorem exists_words {n : ℕ} {bytes : List ℕ} (hlen : bytes.length = 4 * n)
    (hlt : ∀ b ∈ bytes, b < 256) :
    ∃ ws : List ℕ, ws.length = n ∧ (∀ w ∈ ws, w < 2 ^ 32) ∧ ws.flatMap be32 = bytes := by
  induction n generalizing bytes with
  | zero =>
    have hnil : bytes = [] := List.length_eq_zero_iff.mp hlen
    exact ⟨[], rfl, by simp, hnil.symm⟩
  | succ n ih =>
    rcases bytes with _ | ⟨a, _ | ⟨b, _ | ⟨c, _ | ⟨d, rest⟩⟩⟩⟩
    · simp at hlen
    · simp at hlen
      omega
    · simp at hlen
      omega
    · simp at hlen
      omega
    · have hlen' : rest.length = 4 * n := by
        simp only [List.length_cons] at hlen
        omega
      simp only [List.mem_cons, forall_eq_or_imp] at hlt
      rcases hlt with ⟨ha, hb, hc, hd, hrest⟩
      rcases ih hlen' hrest with ⟨ws, hws, hlt', hbytes⟩
      rcases be32_of_bytes ha hb hc hd with ⟨w, hw, hword⟩
      refine ⟨w :: ws, by rw [List.length_cons, hws], ?_, ?_⟩
      · intro x hx
        rcases List.mem_cons.mp hx with rfl | hx
        · exact hw
        · exact hlt' x hx
      · rw [List.flatMap_cons, hword, hbytes]
        rfl

/-- Where the bits of the register are in the bytes of its words: bit `j` of byte `p`. -/
def bitAt (p j : ℕ) : ℕ := 32 * (p / 4) + 8 * (3 - p % 4) + j

theorem testBit_be32 {w p j : ℕ} (hp : p < 4) (hj : j < 8) :
    ((be32 w).getD p 0).testBit j = w.testBit (bitAt p j) := by
  have hbyte : ∀ k, (w >>> k &&& 0xFF).testBit j = w.testBit (k + j) := by
    intro k
    rw [show (0xFF : ℕ) = 2 ^ 8 - 1 from rfl, Nat.testBit_and, Nat.testBit_two_pow_sub_one,
      Nat.testBit_shiftRight, decide_eq_true hj, Bool.and_true]
  have hcases : p = 0 ∨ p = 1 ∨ p = 2 ∨ p = 3 := by omega
  rcases hcases with rfl | rfl | rfl | rfl
  · exact hbyte 24
  · exact hbyte 16
  · exact hbyte 8
  · have hlow := hbyte 0
    rwa [Nat.shiftRight_zero] at hlow

/-- The bits of the bytes of a register. -/
theorem testBit_bytes (n : ℕ) {k p j : ℕ} (hp : p < 4 * k) (hj : j < 8) :
    (((Packing.words 32 k n).flatMap be32).getD p 0).testBit j = n.testBit (bitAt p j) := by
  induction k generalizing n p with
  | zero => omega
  | succ k ih =>
    rw [Packing.words, List.flatMap_cons]
    by_cases hp4 : p < 4
    · have hin : bitAt p j < 32 := by
        unfold bitAt
        omega
      rw [List.getD_append _ _ _ _ (by rw [length_be32]; exact hp4), testBit_be32 hp4 hj,
        Nat.testBit_mod_two_pow, decide_eq_true hin, Bool.true_and]
    · have hnext : 32 + bitAt (p - 4) j = bitAt p j := by
        unfold bitAt
        omega
      rw [List.getD_append_right _ _ _ _ (by rw [length_be32]; omega), length_be32,
        ih (n >>> 32) (by omega), Nat.testBit_shiftRight, hnext]

/-! ## Parsing -/

/-- The loop over the words of the bytes puts the register together. -/
theorem foldlM_parseDword {ws : List ℕ} (hws : ∀ w ∈ ws, w < 2 ^ 32) {n : ℕ}
    (hn : n ≤ ws.length) :
    (List.range n).foldlM (parseDword (ws.flatMap be32)) 0
      = .ok (Nat.ofDigits (2 ^ 32) (ws.take n)) := by
  induction n with
  | zero => rfl
  | succ n ih =>
    have hlt : n < ws.length := hn
    have hw : ws[n] < 2 ^ 32 := hws _ (List.getElem_mem hlt)
    have hbytes : ((be32 ws[n]).all (· < 256)) = true :=
      List.all_eq_true.mpr fun b hb => decide_eq_true (lt_of_mem_be32 hb)
    have hlow : Nat.ofDigits (2 ^ 32) (ws.take n) < 2 ^ (n * 32) := by
      have hdigits : ∀ w ∈ ws.take n, w < 2 ^ 32 := fun w hw => hws w (List.mem_of_mem_take hw)
      have := Nat.ofDigits_lt_base_pow_length (by decide) hdigits
      rwa [List.length_take_of_le (by omega), ← pow_mul, Nat.mul_comm] at this
    rw [List.range_succ, List.foldlM_append, ih (by omega)]
    show (List.foldlM (parseDword _) _ [n]) = _
    rw [List.foldlM_cons]
    unfold parseDword
    simp only [slice_flatMap_be32 hlt, if_pos hbytes, fromBytesBig_be32 hw]
    show Except.ok _ = _
    congr 1
    rw [Nat.or_comm, ← Nat.shiftLeft_add_eq_or_of_lt hlow, Nat.shiftLeft_eq,
      List.take_add_one, List.getElem?_eq_getElem hlt, Nat.ofDigits_append,
      List.length_take_of_le (by omega), ← pow_mul, Nat.add_comm, Nat.mul_comm 32 n]
    show _ = _ + 2 ^ (n * 32) * Nat.ofDigits (2 ^ 32) [ws[n]]
    rw [Nat.ofDigits_singleton, Nat.mul_comm]

/-- The record made of the fields of a register. -/
def RecordClass.ofRegister (cls : RecordClass) (num : ℕ) : Mem :=
  cls.new (cls.fields.map fun f => (f.name, (f.symbol.extract num : ℤ)))

/-- What a record read from a register has in its fields. -/
theorem RecordClass.val_ofRegister (cls : RecordClass) (num : ℕ) {f : Field}
    (hf : f ∈ cls.fields) : (cls.ofRegister num).val f.name = f.symbol.extract num := by
  have hlookup : ∀ {fields : List Field}, (fields.map Field.name).Nodup → f ∈ fields →
      (fields.map fun f => (f.name, (f.symbol.extract num : ℤ))).lookup f.name
        = some (f.symbol.extract num : ℤ) := by
    intro fields
    induction fields with
    | nil => simp
    | cons g fields ih =>
      intro hnodup hmem
      rw [List.map_cons, List.nodup_cons] at hnodup
      rw [List.map_cons]
      rcases List.mem_cons.mp hmem with rfl | hmem
      · simp
      · have hne : f.name ≠ g.name := by
          intro heq
          exact hnodup.1 (heq ▸ List.mem_map_of_mem hmem)
        rw [List.lookup_cons, beq_false_of_ne hne]
        exact ih hnodup.2 hmem
  unfold ofRegister new
  simp only [hlookup cls.nodup hf]

/-- Parsing the bytes of words reads the fields of the register they make up. -/
theorem Mem.parse_eq {cls : RecordClass} {ws : List ℕ} (hlen : ws.length = cls.words)
    (hws : ∀ w ∈ ws, w < 2 ^ 32) :
    Mem.parse cls (ws.flatMap be32) = .ok (cls.ofRegister (Nat.ofDigits (2 ^ 32) ws)) := by
  have hbytes : (ws.flatMap be32).length = 4 * cls.words := by
    rw [length_flatMap_be32, hlen]
  have hcount : (ws.flatMap be32).length / 4 = ws.length := by
    rw [length_flatMap_be32]
    omega
  unfold parse
  rw [if_neg (not_not.mpr hbytes), hcount, foldlM_parseDword hws le_rfl, List.take_length]
  rfl

/-! ## There and back -/

/-- A register is made up of its words when no field is behind them. -/
theorem Mem.pack_lt {m : Mem} (hlayout : m.cls.Layout) (h : m.InRange) :
    Packing.pack m.parts < 2 ^ (32 * m.cls.words) := by
  apply Nat.lt_pow_two_of_testBit
  intro i hi
  apply Packing.testBit_pack_of_not_has (fits_parts h)
  intro part hpart hhas
  rcases List.mem_map.mp hpart with ⟨f, hf, rfl⟩
  have hend := hlayout.inside f hf
  have hi' := ((f.symbol.has_range i).mp hhas).2
  omega

/-- Reading back what `to_bytes` made of a record gives what was stored for each field. -/
theorem Mem.parse_toBytes {m : Mem} (hlayout : m.cls.Layout) (h : m.InRange) :
    ∃ ws m', m.toBytes = .ok ws ∧ Mem.parse m.cls (ws.flatMap be32) = .ok m' ∧ m'.cls = m.cls ∧
      ∀ f ∈ m.cls.fields, m'.val f.name = f.symbol.stored (m.val f.name) := by
  refine ⟨_, m.cls.ofRegister (Packing.pack m.parts), toBytes_eq h, ?_, rfl, ?_⟩
  · rw [parse_eq (Packing.length_words _ _ _) fun w hw => Packing.lt_of_mem_words hw,
      Packing.ofDigits_words (pack_lt hlayout h)]
  · intro f hf
    have hmem : (f.symbol.range, (f.symbol.stored (m.val f.name)).toNat) ∈ m.parts :=
      List.mem_map_of_mem hf
    rw [m.cls.val_ofRegister _ hf, Symbol.extract_eq,
      Packing.get_pack (fits_parts h) (apart_parts hlayout.apart) hmem]
    exact Int.toNat_of_nonneg (h f hf).stored_lt.1

/-- What is read from a register is in range. -/
theorem RecordClass.inRange_ofRegister (cls : RecordClass) (num : ℕ) :
    (cls.ofRegister num).InRange := by
  intro f hf
  have hlt := Packing.get_lt f.symbol.range num
  rw [cls.val_ofRegister num hf, Symbol.extract_eq]
  exact .inr ⟨Int.natCast_nonneg _, by exact_mod_cast hlt⟩

/-- Packing what was read from a register leaves the bits of the fields. -/
theorem RecordClass.testBit_pack_ofRegister {cls : RecordClass} (hapart : cls.Apart) (num i : ℕ) :
    (Packing.pack (cls.ofRegister num).parts).testBit i
      = (num.testBit i && decide (cls.Covers i)) := by
  have hparts : (cls.ofRegister num).parts
      = (cls.fields.map fun f => f.symbol.range).map fun r => (r, Packing.get r num) := by
    rw [List.map_map]
    apply List.map_congr_left
    intro f hf
    have hpos : (f.symbol.extract num : ℤ) ≠ -1 := by
      have := Int.natCast_nonneg (f.symbol.extract num)
      omega
    show (f.symbol.range, (f.symbol.stored ((cls.ofRegister num).val f.name)).toNat) = _
    rw [cls.val_ofRegister num hf, Symbol.stored, if_neg hpos, Int.toNat_natCast,
      Symbol.extract_eq]
    rfl
  have hcover : (∃ r ∈ cls.fields.map fun f => f.symbol.range, r.Has i) ↔ cls.Covers i := by
    unfold Covers
    simp only [List.mem_map, exists_exists_and_eq_and, Symbol.has_range]
  rw [hparts, Packing.testBit_pack_get (List.pairwise_map.mpr hapart), decide_eq_decide.mpr hcover]

/-- Encoding what was parsed clears the bits outside the fields and nothing else. -/
theorem RecordClass.Layout.reencode {cls : RecordClass} (h : cls.Layout) {bytes : List ℕ}
    (hlen : bytes.length = 4 * cls.words) (hlt : ∀ b ∈ bytes, b < 256) :
    ∃ m ws, Mem.parse cls bytes = .ok m ∧ m.toBytes = .ok ws ∧
      (ws.flatMap be32).length = bytes.length ∧
      ∀ p < bytes.length, ∀ j < 8, ((ws.flatMap be32).getD p 0).testBit j
        = ((bytes.getD p 0).testBit j && decide (cls.Covers (bitAt p j))) := by
  rcases exists_words hlen hlt with ⟨ws, hwords, hws, rfl⟩
  have hregister : ws = Packing.words 32 cls.words (Nat.ofDigits (2 ^ 32) ws) := by
    rw [← hwords, Packing.words_ofDigits hws]
  set num := Nat.ofDigits (2 ^ 32) ws with hnum
  refine ⟨_, _, Mem.parse_eq hwords hws, Mem.toBytes_eq (cls.inRange_ofRegister num), ?_, ?_⟩
  · rw [length_flatMap_be32, length_flatMap_be32, Packing.length_words, hwords]
    rfl
  · intro p hp j hj
    rw [hlen] at hp
    have hin : ((ws.flatMap be32).getD p 0).testBit j = num.testBit (bitAt p j) := by
      rw [hregister]
      exact testBit_bytes num hp hj
    rw [hin, ← RecordClass.testBit_pack_ofRegister h.apart]
    exact testBit_bytes _ hp hj

/-- Records and bytes, for every layout. `to_bytes` raises exactly when a value is neither `-1` nor
in the range of its field. Otherwise it gives `WORDS` words, and parsing their bytes gives the
values back, with all ones for `-1`. Packing what was parsed from any bytes gives these bytes with
the bits outside the fields cleared. -/
theorem record_round_trip (cls : RecordClass) (h : cls.Layout) :
    (∀ val : Ident → ℤ,
      ((∃ e, (Mem.mk cls val).toBytes = .error e) ↔
        ∃ f ∈ cls.fields, ¬ (val f.name = -1 ∨ 0 ≤ val f.name ∧ val f.name < 2 ^ f.symbol.bits)) ∧
      ∀ ws, (Mem.mk cls val).toBytes = .ok ws →
        ws.length = cls.words ∧ (∀ w ∈ ws, w < 2 ^ 32) ∧
        ∃ m, Mem.parse cls (ws.flatMap be32) = .ok m ∧ m.cls = cls ∧
          ∀ f ∈ cls.fields, m.val f.name
            = if val f.name = -1 then 2 ^ f.symbol.bits - 1 else val f.name) ∧
    ∀ bytes : List ℕ, bytes.length = 4 * cls.words → (∀ b ∈ bytes, b < 256) →
      ∃ m ws, Mem.parse cls bytes = .ok m ∧ m.toBytes = .ok ws ∧
        (ws.flatMap be32).length = bytes.length ∧
        ∀ p < bytes.length, ∀ j < 8, ((ws.flatMap be32).getD p 0).testBit j
          = ((bytes.getD p 0).testBit j && decide (cls.Covers (bitAt p j))) := by
  constructor
  · intro val
    by_cases hin : (Mem.mk cls val).InRange
    · rcases Mem.toBytes_ok hin with ⟨ws, hws, hlen, hlt⟩
      rcases Mem.parse_toBytes h hin with ⟨ws', m, hws', hparse, hcls, hval⟩
      obtain rfl : ws = ws' := Except.ok.inj (hws.symm.trans hws')
      constructor
      · refine iff_of_false ?_ ?_
        · intro herror
          rcases herror with ⟨e, he⟩
          rw [hws] at he
          cases he
        · intro hout
          rcases hout with ⟨f, hf, hout⟩
          exact hout (hin f hf)
      · intro ws' hws'
        obtain rfl : ws = ws' := Except.ok.inj (hws.symm.trans hws')
        refine ⟨hlen, hlt, m, hparse, hcls, ?_⟩
        intro f hf
        rw [hval f hf, Symbol.stored, Symbol.mask_eq, Nat.cast_sub (Nat.two_pow_pos _)]
        push_cast
        rfl
    · rcases Mem.toBytes_error hin with ⟨f, hf, hout, herror⟩
      constructor
      · exact iff_of_true ⟨_, herror⟩ ⟨f, hf, hout⟩
      · intro ws hws
        rw [herror] at hws
        cases hws
  · exact fun bytes hlen hlt => h.reencode hlen hlt

/-- A class with fields that cross from one word to the next. -/
theorem record_round_trip_l2Policy :
    (∀ val : Ident → ℤ,
      ((∃ e, (Mem.mk l2PolicyRecord val).toBytes = .error e) ↔ ∃ f ∈ l2PolicyRecord.fields,
        ¬ (val f.name = -1 ∨ 0 ≤ val f.name ∧ val f.name < 2 ^ f.symbol.bits)) ∧
      ∀ ws, (Mem.mk l2PolicyRecord val).toBytes = .ok ws →
        ws.length = l2PolicyRecord.words ∧ (∀ w ∈ ws, w < 2 ^ 32) ∧
        ∃ m, Mem.parse l2PolicyRecord (ws.flatMap be32) = .ok m ∧ m.cls = l2PolicyRecord ∧
          ∀ f ∈ l2PolicyRecord.fields, m.val f.name
            = if val f.name = -1 then 2 ^ f.symbol.bits - 1 else val f.name) ∧
    ∀ bytes : List ℕ, bytes.length = 4 * l2PolicyRecord.words → (∀ b ∈ bytes, b < 256) →
      ∃ m ws, Mem.parse l2PolicyRecord bytes = .ok m ∧ m.toBytes = .ok ws ∧
        (ws.flatMap be32).length = bytes.length ∧
        ∀ p < bytes.length, ∀ j < 8, ((ws.flatMap be32).getD p 0).testBit j
          = ((bytes.getD p 0).testBit j && decide (l2PolicyRecord.Covers (bitAt p j))) :=
  record_round_trip l2PolicyRecord ⟨by decide +kernel, by decide +kernel⟩

end Cannelloni.SwitchConfig
