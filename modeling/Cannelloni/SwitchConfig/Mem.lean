import Mathlib.Data.Int.Bitwise
import Mathlib.Tactic.Common

/-!
# Records of the switch configuration

`Symbol` and `Mem` of `gen_switch_config.py`: a record class names bit ranges of a register of
`WORDS` words, and `to_bytes` packs the values of a record into those words, low word first.
-/

namespace Cannelloni.SwitchConfig

/-- `Symbol`: a range of bits, ends included. -/
structure Symbol where
  endBit : ℕ
  startBit : ℕ
  start_le_end : startBit ≤ endBit

def Symbol.bits (s : Symbol) : ℕ := s.endBit - s.startBit + 1

/-- `Symbol` with one argument. -/
def Symbol.bit (i : ℕ) : Symbol := ⟨i, i, le_rfl⟩

/-- A Python identifier: of the ASCII characters it has letters, digits and `_` only. Nothing else
about the names matters to the generated text. -/
structure Ident where
  name : String
  plain : ∀ c ∈ name.toList, c.isAlphanum = true ∨ c = '_' ∨ 128 ≤ c.toNat
deriving DecidableEq

/-- A field of a record class. -/
structure Field where
  name : Ident
  symbol : Symbol
  default : ℤ

/-- A subclass of `Mem`: its name, `WORDS`, and `__dataclass_fields__` in order. -/
structure RecordClass where
  name : Ident
  words : ℕ
  fields : List Field
  nodup : (fields.map Field.name).Nodup

/-- An instance of a subclass of `Mem`, with the value of each attribute. -/
structure Mem where
  cls : RecordClass
  val : Ident → ℤ

/-- The constructor of the dataclass: fields that are not given have their default. -/
def RecordClass.new (cls : RecordClass) (given : List (Ident × ℤ)) : Mem where
  cls := cls
  val name := match given.lookup name with
    | some val => val
    | none => ((cls.fields.find? fun f => f.name = name).map Field.default).getD 0

/-- The exception of `to_bytes`. -/
structure SymbolOverflow where
  name : Ident
  val : ℤ
  bits : ℕ

/-! ## Text -/

/-- A number in hexadecimal, as the format `x`. -/
def hex (n : ℕ) : String := .ofList (Nat.toDigits 16 n)

/-- An integer in hexadecimal, as the format `x`. -/
def hexInt (n : ℤ) : String := if n < 0 then "-" ++ hex n.natAbs else hex n.natAbs

/-- The text of the exception. -/
def SymbolOverflow.message (e : SymbolOverflow) : String :=
  "Symbol " ++ e.name.name ++ " with value 0x" ++ hexInt e.val ++ " overflows " ++ toString e.bits
    ++ " bits"

/-- `__str__`: the fields that are not zero. -/
def Mem.str (m : Mem) : String :=
  let fields := (m.cls.fields.filter fun f => m.val f.name ≠ 0).map fun f =>
    f.name.name ++ "=" ++ toString (m.val f.name)
  m.cls.name.name ++ "(" ++ ", ".intercalate fields ++ ")"

/-! ## Packing -/

/-- The bits a symbol may have. -/
def Symbol.mask (s : Symbol) : ℕ := 1 <<< s.bits - 1

/-- The value that is stored for a value of a field: `-1` stands for all ones. -/
def Symbol.stored (s : Symbol) (val : ℤ) : ℤ := if val = -1 then s.mask else val

/-- One pass of the loop over the fields. -/
def Mem.addField (m : Mem) (registerVal : ℕ) (f : Field) : Except SymbolOverflow ℕ :=
  let val := f.symbol.stored (m.val f.name)
  if Int.land val f.symbol.mask ≠ val then .error ⟨f.name, val, f.symbol.bits⟩
  else .ok (registerVal ||| (Int.land val f.symbol.mask).toNat <<< f.symbol.startBit)

/-- The `while` loop: `n` words of the register, low word first. -/
def dwords : ℕ → ℕ → List ℕ
  | 0, _ => []
  | n + 1, registerVal => (registerVal &&& 0xFFFFFFFF) :: dwords n (registerVal >>> 32)

/-- `to_bytes`. -/
def Mem.toBytes (m : Mem) : Except SymbolOverflow (List ℕ) := do
  let registerVal ← m.cls.fields.foldlM m.addField 0
  return dwords m.cls.words registerVal

/-! ## What `to_bytes` accepts -/

/-- The value fits the symbol, or is the `-1` that stands for all ones. -/
def Symbol.InRange (s : Symbol) (val : ℤ) : Prop := val = -1 ∨ 0 ≤ val ∧ val < 2 ^ s.bits

instance (s : Symbol) (val : ℤ) : Decidable (s.InRange val) :=
  inferInstanceAs (Decidable (_ ∨ _))

/-- Every field of the record is in range. -/
def Mem.InRange (m : Mem) : Prop := ∀ f ∈ m.cls.fields, f.symbol.InRange (m.val f.name)

instance (m : Mem) : Decidable m.InRange := inferInstanceAs (Decidable (∀ _ ∈ _, _))

theorem Symbol.mask_eq (s : Symbol) : s.mask = 2 ^ s.bits - 1 := by
  unfold mask
  rw [Nat.one_shiftLeft]

/-- A mask leaves exactly the values alone that fit it. -/
theorem land_mask_eq_iff (s : Symbol) (val : ℤ) :
    Int.land val s.mask = val ↔ 0 ≤ val ∧ val < 2 ^ s.bits := by
  rw [Symbol.mask_eq]
  cases val with
  | ofNat n =>
    show ((n &&& (2 ^ s.bits - 1) : ℕ) : ℤ) = (n : ℤ) ↔ 0 ≤ (n : ℤ) ∧ (n : ℤ) < 2 ^ s.bits
    rw [Nat.and_two_pow_sub_one_eq_mod, Nat.cast_inj, Nat.mod_eq_iff_lt (Nat.two_pow_pos _).ne']
    constructor
    · intro h
      exact ⟨Int.natCast_nonneg n, by exact_mod_cast h⟩
    · intro h
      exact_mod_cast h.2
  | negSucc n =>
    refine iff_of_false ?_ ?_
    · intro h
      cases h
    · intro h
      exact absurd h.1 (by simp)

theorem Symbol.land_stored_iff (s : Symbol) (val : ℤ) :
    Int.land (s.stored val) s.mask = s.stored val ↔ s.InRange val := by
  rw [land_mask_eq_iff]
  unfold stored InRange
  by_cases h : val = -1
  · rw [if_pos h]
    refine iff_of_true ⟨Int.natCast_nonneg _, ?_⟩ (.inl h)
    have hlt : s.mask < 2 ^ s.bits := by
      rw [mask_eq]
      exact Nat.sub_lt (Nat.two_pow_pos _) (by decide)
    exact_mod_cast hlt
  · rw [if_neg h]
    exact ⟨.inr, fun hr => hr.resolve_left h⟩

/-- A pass over a field in range stores something. -/
theorem Mem.addField_ok {m : Mem} {f : Field} (h : f.symbol.InRange (m.val f.name))
    (registerVal : ℕ) : ∃ r, m.addField registerVal f = .ok r := by
  unfold addField
  simp only [(f.symbol.land_stored_iff _).mpr h]
  exact ⟨_, if_neg (not_not.mpr rfl)⟩

theorem Mem.foldlM_addField_ok {m : Mem} {fields : List Field}
    (h : ∀ f ∈ fields, f.symbol.InRange (m.val f.name)) (registerVal : ℕ) :
    ∃ r, fields.foldlM m.addField registerVal = .ok r := by
  induction fields generalizing registerVal with
  | nil => exact ⟨registerVal, rfl⟩
  | cons f fields ih =>
    rcases addField_ok (h f List.mem_cons_self) registerVal with ⟨r, hr⟩
    rw [List.foldlM_cons, hr]
    exact ih (fun g hg => h g (List.mem_cons_of_mem _ hg)) r

theorem length_dwords (n registerVal : ℕ) : (dwords n registerVal).length = n := by
  induction n generalizing registerVal with
  | zero => rfl
  | succ n ih => rw [dwords, List.length_cons, ih]

theorem lt_of_mem_dwords {n registerVal w : ℕ} (h : w ∈ dwords n registerVal) : w < 2 ^ 32 := by
  induction n generalizing registerVal with
  | zero => simp [dwords] at h
  | succ n ih =>
    rw [dwords] at h
    rcases List.mem_cons.mp h with rfl | h
    · rw [show 0xFFFFFFFF = 2 ^ 32 - 1 from rfl, Nat.and_two_pow_sub_one_eq_mod]
      exact Nat.mod_lt _ (Nat.two_pow_pos 32)
    · exact ih h

/-- A record in range is packed into `WORDS` words. -/
theorem Mem.toBytes_ok {m : Mem} (h : m.InRange) :
    ∃ ws, m.toBytes = .ok ws ∧ ws.length = m.cls.words ∧ ∀ w ∈ ws, w < 2 ^ 32 := by
  rcases foldlM_addField_ok h 0 with ⟨r, hr⟩
  refine ⟨dwords m.cls.words r, ?_, length_dwords _ _, fun w hw => lt_of_mem_dwords hw⟩
  unfold toBytes
  rw [hr]
  rfl

end Cannelloni.SwitchConfig
