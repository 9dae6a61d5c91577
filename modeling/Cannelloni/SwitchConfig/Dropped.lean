import Cannelloni.SwitchConfig.Parse

/-!
# What the words of a record tell about its fields

`to_bytes` cuts the register into `WORDS` words and drops what is behind them without an error.
The words keep the low bits of a field that are in front of their end. In `GeneralParameters` the
fields go up to bit 351 and the words to bit 319.
-/

namespace Cannelloni.SwitchConfig

/-- Every value is within the width of its field. -/
def Mem.Within (m : Mem) : Prop :=
  ∀ f ∈ m.cls.fields, 0 ≤ m.val f.name ∧ m.val f.name < 2 ^ f.symbol.bits

/-- How many of a field's bits can be in the words. -/
def RecordClass.room (cls : RecordClass) (f : Field) : ℕ := 32 * cls.words - f.symbol.startBit

section Words

variable {cls : RecordClass} {val val' : Ident → ℤ}

theorem Mem.Within.inRange {m : Mem} (h : m.Within) : m.InRange := fun f hf => .inr (h f hf)

/-- A value within the width of its field is stored as it is. -/
theorem Mem.Within.parts_eq {m : Mem} (h : m.Within) :
    m.parts = m.cls.fields.map fun f => (f.symbol.range, (m.val f.name).toNat) := by
  apply List.map_congr_left
  intro f hf
  have hne : m.val f.name ≠ -1 := by
    have := (h f hf).1
    omega
  rw [Symbol.stored, if_neg hne]

theorem toNat_mod_eq_iff {a b : ℤ} (ha : 0 ≤ a) (hb : 0 ≤ b) (n : ℕ) :
    a.toNat % 2 ^ n = b.toNat % 2 ^ n ↔ a % 2 ^ n = b % 2 ^ n := by
  rcases Int.eq_ofNat_of_zero_le ha with ⟨x, rfl⟩
  rcases Int.eq_ofNat_of_zero_le hb with ⟨y, rfl⟩
  rw [Int.toNat_natCast, Int.toNat_natCast]
  exact_mod_cast Iff.rfl

/-- Two records have the same words exactly when their fields agree in the bits that are in front
of the end of the words. -/
theorem Mem.toBytes_eq_iff (hapart : cls.Apart) (h : (Mem.mk cls val).Within)
    (h' : (Mem.mk cls val').Within) :
    (Mem.mk cls val).toBytes = (Mem.mk cls val').toBytes ↔
      ∀ f ∈ cls.fields, val f.name % 2 ^ cls.room f = val' f.name % 2 ^ cls.room f := by
  have hfits := fits_parts h.inRange
  have hfits' := fits_parts h'.inRange
  rw [h.parts_eq] at hfits
  rw [h'.parts_eq] at hfits'
  rw [toBytes_eq h.inRange, toBytes_eq h'.inRange, h.parts_eq, h'.parts_eq, Except.ok.injEq]
  refine (Packing.words_pack_eq_iff hfits hfits' hapart).trans ?_
  exact forall₂_congr fun f hf => toNat_mod_eq_iff (h f hf).1 (h' f hf).1 _

/-- A field that ends inside the words has room for its width. -/
theorem RecordClass.Layout.bits_le (h : cls.Layout) {f : Field} (hf : f ∈ cls.fields) :
    f.symbol.bits ≤ cls.room f := by
  have hend := h.inside f hf
  have hle := f.symbol.start_le_end
  unfold room Symbol.bits
  omega

theorem Mem.Within.mod_eq {m : Mem} (h : m.Within) {f : Field} (hf : f ∈ m.cls.fields) {n : ℕ}
    (hn : f.symbol.bits ≤ n) : m.val f.name % 2 ^ n = m.val f.name := by
  rcases h f hf with ⟨hnonneg, hlt⟩
  apply Int.emod_eq_of_lt hnonneg
  calc m.val f.name < 2 ^ f.symbol.bits := hlt
    _ ≤ 2 ^ n := by exact_mod_cast Nat.pow_le_pow_right (by decide) hn

/-- Where every field has room for its width, the words determine the record. -/
theorem Mem.toBytes_injective (hlayout : cls.Layout) (h : (Mem.mk cls val).Within)
    (h' : (Mem.mk cls val').Within)
    (heq : (Mem.mk cls val).toBytes = (Mem.mk cls val').toBytes) :
    ∀ f ∈ cls.fields, val f.name = val' f.name := by
  intro f hf
  have hmod := (toBytes_eq_iff hlayout.apart h h').mp heq f hf
  rw [h.mod_eq hf (hlayout.bits_le hf), h'.mod_eq hf (hlayout.bits_le hf)] at hmod
  exact hmod

end Words

/-! ## The classes of the generator -/

/-- The record classes of the generator. -/
def recordClasses : List RecordClass :=
  [l2PolicyRecord, l2ForwardingRecord, xMIIModeParams, generalParameters, l2ForwardingParam,
    macConfigTable]

/-- The fields of `GeneralParameters` that are not, or not wholly, in its words. -/
def behindWords : List String :=
  ["VLLUPFORMAT", "MIRR_PTACU", "SWITCHID", "HOSTPRIO", "MAC_FLTRES1"]

/-- The classes other than `GeneralParameters` have room for their fields. -/
theorem layout_of_mem {cls : RecordClass} (hcls : cls ∈ recordClasses)
    (hne : cls ≠ generalParameters) : cls.Layout := by
  simp only [recordClasses, List.mem_cons, List.not_mem_nil, or_false] at hcls
  rcases hcls with rfl | rfl | rfl | rfl | rfl | rfl
  · exact ⟨by decide +kernel, by decide +kernel⟩
  · exact ⟨by decide +kernel, by decide +kernel⟩
  · exact ⟨by decide +kernel, by decide +kernel⟩
  · exact absurd rfl hne
  · exact ⟨by decide +kernel, by decide +kernel⟩
  · exact ⟨by decide +kernel, by decide +kernel⟩

theorem apart_generalParameters : generalParameters.Apart := by decide +kernel

theorem bits_le_room_of_not_mem : ∀ f ∈ generalParameters.fields, f.name.name ∉ behindWords →
    f.symbol.bits ≤ generalParameters.room f := by decide +kernel

/-- Of the fields behind the words, `MAC_FLTRES1` has its 24 low bits in front of the end. -/
theorem room_of_mem : ∀ f ∈ generalParameters.fields, f.name.name ∈ behindWords →
    if f.name.name = "MAC_FLTRES1" then generalParameters.room f = 24
    else generalParameters.room f = 0 := by decide +kernel

/-- For two assignments of values within the widths of the fields that differ in a field: the words
differ exactly when the class is another one than `GeneralParameters`, or a field with all its bits
in the words differs, or the 24 low bits of `MAC_FLTRES1` do. -/
theorem words_differ_iff {cls : RecordClass} (hcls : cls ∈ recordClasses) {val val' : Ident → ℤ}
    (h : (Mem.mk cls val).Within) (h' : (Mem.mk cls val').Within)
    (hdiffer : ∃ f ∈ cls.fields, val f.name ≠ val' f.name) :
    (Mem.mk cls val).toBytes ≠ (Mem.mk cls val').toBytes ↔
      cls ≠ generalParameters
      ∨ (∃ f ∈ cls.fields, f.name.name ∉ behindWords ∧ val f.name ≠ val' f.name)
      ∨ ∃ f ∈ cls.fields, f.name.name = "MAC_FLTRES1"
        ∧ val f.name % 2 ^ 24 ≠ val' f.name % 2 ^ 24 := by
  by_cases hgeneral : cls = generalParameters
  · subst hgeneral
    rw [Ne, Mem.toBytes_eq_iff apart_generalParameters h h']
    constructor
    · intro hwords
      push Not at hwords
      rcases hwords with ⟨f, hf, hmod⟩
      by_cases hbehind : f.name.name ∈ behindWords
      · have hroom := room_of_mem f hf hbehind
        split_ifs at hroom with hname
        · rw [hroom] at hmod
          exact .inr (.inr ⟨f, hf, hname, hmod⟩)
        · -- no bit of the field is in the words
          rw [hroom] at hmod
          simp at hmod
      · refine .inr (.inl ⟨f, hf, hbehind, ?_⟩)
        intro heq
        exact hmod (by rw [heq])
    · intro hcond hwords
      rcases hcond with hne | ⟨f, hf, hkept, hne⟩ | ⟨f, hf, hname, hlow⟩
      · exact hne rfl
      · have hmod := hwords f hf
        have hroom := bits_le_room_of_not_mem f hf hkept
        rw [h.mod_eq hf hroom, h'.mod_eq hf hroom] at hmod
        exact hne hmod
      · have hbehind : f.name.name ∈ behindWords := by
          rw [hname]
          decide
        have hroom := room_of_mem f hf hbehind
        have hmod := hwords f hf
        rw [if_pos hname] at hroom
        rw [hroom] at hmod
        exact hlow hmod
  · refine iff_of_true ?_ (.inl hgeneral)
    intro heq
    rcases hdiffer with ⟨f, hf, hne⟩
    exact hne (Mem.toBytes_injective (layout_of_mem hcls hgeneral) h h' heq f hf)

/-- The assignment with one field that is not zero. -/
def only (name : String) (v : ℤ) : Ident → ℤ := fun n => if n.name = name then v else 0

/-- Two values of `HOST_PORT` give different words. -/
theorem words_differ_hostPort :
    (Mem.mk generalParameters (only "HOST_PORT" 1)).toBytes
        ≠ (Mem.mk generalParameters (only "HOST_PORT" 2)).toBytes ↔
      generalParameters ≠ generalParameters
      ∨ (∃ f ∈ generalParameters.fields, f.name.name ∉ behindWords
        ∧ only "HOST_PORT" 1 f.name ≠ only "HOST_PORT" 2 f.name)
      ∨ ∃ f ∈ generalParameters.fields, f.name.name = "MAC_FLTRES1"
        ∧ only "HOST_PORT" 1 f.name % 2 ^ 24 ≠ only "HOST_PORT" 2 f.name % 2 ^ 24 :=
  words_differ_iff (List.mem_of_getElem? (show recordClasses[3]? = some _ from rfl))
    (by unfold Mem.Within; decide +kernel) (by unfold Mem.Within; decide +kernel)
    (by decide +kernel)

/-- Two values of `SWITCHID` give the same words. -/
theorem switchId_dropped : ¬ ∀ cls ∈ recordClasses, ∀ val val' : Ident → ℤ,
    (Mem.mk cls val).Within → (Mem.mk cls val').Within →
    (∃ f ∈ cls.fields, val f.name ≠ val' f.name) →
    (Mem.mk cls val).toBytes ≠ (Mem.mk cls val').toBytes := by
  intro hall
  have hwithin : (Mem.mk generalParameters (only "SWITCHID" 0)).Within := by
    unfold Mem.Within
    decide +kernel
  have hwithin' : (Mem.mk generalParameters (only "SWITCHID" 1)).Within := by
    unfold Mem.Within
    decide +kernel
  refine hall generalParameters (List.mem_of_getElem? (show recordClasses[3]? = some _ from rfl))
    _ _ hwithin hwithin' (by decide +kernel) ?_
  rw [Mem.toBytes_eq_iff apart_generalParameters hwithin hwithin']
  decide +kernel

end Cannelloni.SwitchConfig
