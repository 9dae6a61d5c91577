import Mathlib.Data.List.Basic
import Mathlib.Data.List.Range
import Mathlib.Data.Nat.Bits
import Mathlib.Logic.Function.Basic
import Mathlib.Tactic.Common
import Mathlib.Tactic.Ring

/-!
# Bytes of machine words and byte buffers

Masks of a word, big-endian bytes of 16- and 32-bit words, the two byte orders a host may
store a word in, and byte buffers as functions from positions to bytes: `slice` reads a run of
bytes as a list, `writeBytes` overwrites one.
-/

namespace Bytes

/-! ## Bits of a word -/

/-- A mask distributes over a union of bits. -/
theorem or_and_distrib (a b c : UInt32) : (a ||| b) &&& c = a &&& c ||| b &&& c := by
  apply UInt32.toBitVec_inj.mp
  simp only [UInt32.toBitVec_and, UInt32.toBitVec_or]
  ext i
  simp only [BitVec.getElem_and, BitVec.getElem_or, Bool.and_or_distrib_right]

/-- A word without bits under a mask has none under a part of the mask. -/
theorem and_eq_zero_of_part {w mask part : UInt32} (h : w &&& mask = 0) (hpart : mask &&& part = part) :
    w &&& part = 0 := by
  rw [← hpart, ← UInt32.and_assoc, h, UInt32.zero_and]

/-- Bits outside a mask stay when the bits under the mask are cleared. -/
theorem and_not_and {w mask rest : UInt32} (h : ~~~mask &&& rest = rest) :
    (w &&& ~~~mask) &&& rest = w &&& rest := by
  rw [UInt32.and_assoc, h]

/-- Bits under a mask are gone when they were cleared. -/
theorem and_not_and_part {w mask part : UInt32} (h : ~~~mask &&& part = 0) :
    (w &&& ~~~mask) &&& part = 0 := by
  rw [UInt32.and_assoc, h, UInt32.and_zero]

/-! ## Big-endian words -/

/-- The four bytes of a word, most significant first. -/
def be32 (w : UInt32) : List UInt8 :=
  [(w >>> 24).toUInt8, (w >>> 16).toUInt8, (w >>> 8).toUInt8, w.toUInt8]

/-- The word with the given bytes, most significant first. -/
def ofBe32 (a b c d : UInt8) : UInt32 :=
  (a.toUInt32 <<< 24) ||| (b.toUInt32 <<< 16) ||| (c.toUInt32 <<< 8) ||| d.toUInt32

/-- The two bytes of the low 16 bits of a number, most significant first. -/
def be16 (n : ℕ) : List UInt8 := [UInt8.ofNat (n / 256), UInt8.ofNat n]

/-- The 16-bit number with the given bytes, most significant first. -/
def ofBe16 (a b : UInt8) : ℕ := a.toNat * 256 + b.toNat

@[simp] theorem length_be32 (w : UInt32) : (be32 w).length = 4 := rfl

/-- Or-ing a number into the free low bits of a multiple of `2 ^ n` adds it. -/
private theorem mul_two_pow_or {n b : ℕ} (a : ℕ) (h : b < 2 ^ n) :
    a * 2 ^ n ||| b = a * 2 ^ n + b := by
  rw [Nat.mul_comm]
  exact (Nat.two_pow_add_eq_or_of_lt h a).symm

theorem toNat_ofBe32 (a b c d : UInt8) :
    (ofBe32 a b c d).toNat
      = a.toNat * 2 ^ 24 + b.toNat * 2 ^ 16 + c.toNat * 2 ^ 8 + d.toNat := by
  have ha := a.toNat_lt
  have hb := b.toNat_lt
  have hc := c.toNat_lt
  have hd := d.toNat_lt
  have h24 : a.toNat <<< 24 % 2 ^ 32 = a.toNat * 2 ^ 24 := by
    rw [Nat.shiftLeft_eq]; omega
  have h16 : b.toNat <<< 16 % 2 ^ 32 = b.toNat * 2 ^ 16 := by
    rw [Nat.shiftLeft_eq]; omega
  have h8 : c.toNat <<< 8 % 2 ^ 32 = c.toNat * 2 ^ 8 := by
    rw [Nat.shiftLeft_eq]; omega
  have hword : (ofBe32 a b c d).toNat
      = a.toNat <<< 24 % 2 ^ 32 ||| b.toNat <<< 16 % 2 ^ 32 ||| c.toNat <<< 8 % 2 ^ 32
        ||| d.toNat := by
    simp [ofBe32, UInt32.toNat_or, UInt32.toNat_shiftLeft]
  -- each byte lands in bits the bytes before it left free
  rw [hword, h24, h16, h8, mul_two_pow_or _ (by omega),
    show a.toNat * 2 ^ 24 + b.toNat * 2 ^ 16 = (a.toNat * 2 ^ 8 + b.toNat) * 2 ^ 16 by ring,
    mul_two_pow_or _ (by omega),
    show (a.toNat * 2 ^ 8 + b.toNat) * 2 ^ 16 + c.toNat * 2 ^ 8
      = ((a.toNat * 2 ^ 8 + b.toNat) * 2 ^ 8 + c.toNat) * 2 ^ 8 by ring,
    mul_two_pow_or _ (by omega)]

/-- The byte a word shows after a shift, as a number. -/
private theorem toNat_shiftRight_toUInt8 (w s : UInt32) (k : ℕ) (hs : s.toNat % 32 = k) :
    (w >>> s).toUInt8.toNat = w.toNat / 2 ^ k % 2 ^ 8 := by
  rw [UInt32.toNat_toUInt8, UInt32.toNat_shiftRight, Nat.shiftRight_eq_div_pow, hs]

/-- Splitting a word into bytes and joining them again gives the word back. -/
theorem ofBe32_bytes (w : UInt32) :
    ofBe32 (w >>> 24).toUInt8 (w >>> 16).toUInt8 (w >>> 8).toUInt8 w.toUInt8 = w := by
  apply UInt32.toNat_inj.mp
  have := w.toNat_lt
  rw [toNat_ofBe32, toNat_shiftRight_toUInt8 w 24 24 rfl, toNat_shiftRight_toUInt8 w 16 16 rfl,
    toNat_shiftRight_toUInt8 w 8 8 rfl, UInt32.toNat_toUInt8]
  omega

/-- Joining four bytes and splitting the word again gives the bytes back. -/
theorem be32_ofBe32 (a b c d : UInt8) : be32 (ofBe32 a b c d) = [a, b, c, d] := by
  have ha := a.toNat_lt
  have hb := b.toNat_lt
  have hc := c.toNat_lt
  have hd := d.toNat_lt
  have hw := toNat_ofBe32 a b c d
  have h24 : (ofBe32 a b c d >>> 24).toUInt8 = a := by
    apply UInt8.toNat_inj.mp
    rw [toNat_shiftRight_toUInt8 _ 24 24 rfl, hw]
    omega
  have h16 : (ofBe32 a b c d >>> 16).toUInt8 = b := by
    apply UInt8.toNat_inj.mp
    rw [toNat_shiftRight_toUInt8 _ 16 16 rfl, hw]
    omega
  have h8 : (ofBe32 a b c d >>> 8).toUInt8 = c := by
    apply UInt8.toNat_inj.mp
    rw [toNat_shiftRight_toUInt8 _ 8 8 rfl, hw]
    omega
  have h0 : (ofBe32 a b c d).toUInt8 = d := by
    apply UInt8.toNat_inj.mp
    rw [UInt32.toNat_toUInt8, hw]
    omega
  rw [be32, h24, h16, h8, h0]

theorem be32_injective {v w : UInt32} (h : be32 v = be32 w) : v = w := by
  simp only [be32, List.cons.injEq, and_true] at h
  obtain ⟨h24, h16, h8, h0⟩ := h
  rw [← ofBe32_bytes v, ← ofBe32_bytes w, h24, h16, h8, h0]

theorem ofBe16_bytes {n : ℕ} (h : n < 2 ^ 16) :
    ofBe16 (UInt8.ofNat (n / 256)) (UInt8.ofNat n) = n := by
  simp only [ofBe16, UInt8.toNat_ofNat']
  omega

/-! ## Host byte order -/

/-- The order in which a host stores the bytes of a word. -/
inductive ByteOrder
  | bigEndian
  | littleEndian
deriving DecidableEq, Repr

/-- The bytes of a 32-bit word as the host stores them. -/
def ByteOrder.store32 : ByteOrder → UInt32 → List UInt8
  | .bigEndian, w => be32 w
  | .littleEndian, w => (be32 w).reverse

/-- `htonl`: the word whose stored bytes are the big-endian bytes of the argument. -/
def ByteOrder.htonl : ByteOrder → UInt32 → UInt32
  | .bigEndian, w => w
  | .littleEndian, w =>
    ofBe32 w.toUInt8 (w >>> 8).toUInt8 (w >>> 16).toUInt8 (w >>> 24).toUInt8

/-- Whatever the host's byte order, storing `htonl w` stores `w` most significant byte
first. -/
theorem ByteOrder.store32_htonl (o : ByteOrder) (w : UInt32) : o.store32 (o.htonl w) = be32 w := by
  cases o with
  | bigEndian => rfl
  | littleEndian =>
    simp only [store32, htonl, be32_ofBe32]
    rfl

/-! ## Byte buffers -/

/-- The `n` bytes from position `pos` on. -/
def slice (buf : ℕ → UInt8) (pos n : ℕ) : List UInt8 :=
  (List.range n).map fun i => buf (pos + i)

/-- Overwrite the bytes from position `pos` on. -/
def writeBytes (buf : ℕ → UInt8) (pos : ℕ) (bs : List UInt8) : ℕ → UInt8 :=
  fun i => if pos ≤ i then (bs[i - pos]?).getD (buf i) else buf i

/-- The buffer whose first bytes are `bs` and that goes on as `rest`. -/
def ofList (bs : List UInt8) (rest : ℕ → UInt8) : ℕ → UInt8 :=
  fun i => (bs[i]?).getD (rest i)

@[simp] theorem length_slice (buf : ℕ → UInt8) (pos n : ℕ) : (slice buf pos n).length = n := by
  simp [slice]

theorem slice_congr {buf buf' : ℕ → UInt8} {pos n : ℕ}
    (h : ∀ i < n, buf (pos + i) = buf' (pos + i)) : slice buf pos n = slice buf' pos n := by
  unfold slice
  apply List.map_congr_left
  intro i hi
  exact h i (List.mem_range.mp hi)

theorem slice_add (buf : ℕ → UInt8) (pos m n : ℕ) :
    slice buf pos (m + n) = slice buf pos m ++ slice buf (pos + m) n := by
  unfold slice
  rw [List.range_add, List.map_append, List.map_map]
  congr 1
  apply List.map_congr_left
  intro i _
  simp only [Function.comp_apply, Nat.add_assoc]

theorem take_slice (buf : ℕ → UInt8) (pos : ℕ) {m n : ℕ} (h : m ≤ n) :
    (slice buf pos n).take m = slice buf pos m := by
  obtain ⟨k, rfl⟩ := Nat.exists_eq_add_of_le h
  rw [slice_add, List.take_left' (length_slice buf pos m)]

/-- Equal runs of bytes are equal byte by byte. -/
theorem eq_of_slice_eq {buf buf' : ℕ → UInt8} {pos n i : ℕ}
    (h : slice buf pos n = slice buf' pos n) (hi : i < n) : buf (pos + i) = buf' (pos + i) := by
  have := congrArg (fun l => l[i]?) h
  simpa [slice, hi] using this

@[simp] theorem slice_one (buf : ℕ → UInt8) (pos : ℕ) : slice buf pos 1 = [buf pos] := rfl

/-- Four bytes are the bytes of the word they make up. -/
theorem slice_four (buf : ℕ → UInt8) (pos : ℕ) :
    slice buf pos 4 = be32 (ofBe32 (buf pos) (buf (pos + 1)) (buf (pos + 2)) (buf (pos + 3))) := by
  rw [be32_ofBe32]
  rfl

/-- Reading back what was just written. -/
theorem slice_writeBytes (buf : ℕ → UInt8) (pos : ℕ) (bs : List UInt8) :
    slice (writeBytes buf pos bs) pos bs.length = bs := by
  apply List.ext_getElem (by simp)
  intro i hi _
  have hi' : i < bs.length := by simpa using hi
  simp [slice, writeBytes, List.getElem?_eq_getElem hi']

/-- A write does not change what lies before it. -/
theorem writeBytes_of_lt {buf : ℕ → UInt8} {pos i : ℕ} {bs : List UInt8} (h : i < pos) :
    writeBytes buf pos bs i = buf i := by
  unfold writeBytes
  rw [if_neg (by omega)]

/-- A write does not change what lies behind it. -/
theorem writeBytes_of_le {buf : ℕ → UInt8} {pos i : ℕ} {bs : List UInt8}
    (h : pos + bs.length ≤ i) : writeBytes buf pos bs i = buf i := by
  unfold writeBytes
  rw [if_pos (by omega), List.getElem?_eq_none (by omega)]
  rfl

/-- Two adjacent writes are one write. -/
theorem writeBytes_append (buf : ℕ → UInt8) (pos : ℕ) (xs ys : List UInt8) :
    writeBytes (writeBytes buf pos xs) (pos + xs.length) ys = writeBytes buf pos (xs ++ ys) := by
  funext i
  by_cases hlow : i < pos
  · rw [writeBytes_of_lt (by omega), writeBytes_of_lt hlow, writeBytes_of_lt hlow]
  · by_cases hmid : i < pos + xs.length
    · rw [writeBytes_of_lt hmid]
      unfold writeBytes
      rw [if_pos (by omega), if_pos (by omega), List.getElem?_append_left (by omega)]
    · have hinner : writeBytes buf pos xs i = buf i := writeBytes_of_le (by omega)
      have hleft : writeBytes (writeBytes buf pos xs) (pos + xs.length) ys i
          = (ys[i - (pos + xs.length)]?).getD (writeBytes buf pos xs i) := if_pos (by omega)
      have hright : writeBytes buf pos (xs ++ ys) i = ((xs ++ ys)[i - pos]?).getD (buf i) :=
        if_pos (by omega)
      rw [hleft, hright, hinner, List.getElem?_append_right (by omega), Nat.sub_sub]

/-- Behind the list. -/
theorem ofList_of_le {bs : List UInt8} {rest : ℕ → UInt8} {i : ℕ} (h : bs.length ≤ i) :
    ofList bs rest i = rest i := by
  rw [ofList, List.getElem?_eq_none h]
  rfl

/-- Reading inside the list. -/
theorem slice_ofList_of_le {bs : List UInt8} {rest : ℕ → UInt8} {pos n : ℕ}
    (h : pos + n ≤ bs.length) : slice (ofList bs rest) pos n = (bs.drop pos).take n := by
  apply List.ext_getElem
  · rw [length_slice, List.length_take, List.length_drop]
    omega
  · intro i hi _
    have hi' : i < n := by simpa using hi
    have hpos : pos + i < bs.length := by omega
    simp [slice, ofList, List.getElem?_eq_getElem hpos]

/-- The bytes from a position on, one byte read. -/
theorem drop_eq_ofList_cons {bs : List UInt8} (rest : ℕ → UInt8) {pos : ℕ}
    (h : pos < bs.length) : bs.drop pos = ofList bs rest pos :: bs.drop (pos + 1) := by
  rw [List.drop_eq_getElem_cons h, ofList, List.getElem?_eq_getElem h]
  rfl

/-- The buffer that agrees with `buf` below `m` and goes on as `rest`. -/
def splice (buf : ℕ → UInt8) (m : ℕ) (rest : ℕ → UInt8) : ℕ → UInt8 :=
  fun i => if i < m then buf i else rest i

section Overlay

variable {k : ℕ} (v : Vector UInt8 k) (src : ℕ → UInt8)

/-- The array with its first `n` bytes taken from `src`. -/
def overlay (n : ℕ) : Vector UInt8 k :=
  Vector.ofFn fun i => if i.val < n then src i.val else v[i.val]

theorem overlay_zero : overlay v src 0 = v := by
  ext i hi
  simp [overlay]

/-- One more byte. -/
theorem set_overlay {n : ℕ} (h : n < k) :
    (overlay v src n).set n (src n) h = overlay v src (n + 1) := by
  ext i hi
  simp only [overlay, Vector.getElem_set, Vector.getElem_ofFn]
  by_cases hin : n = i
  · simp [hin]
  · have : i < n + 1 ↔ i < n := by omega
    simp only [if_neg hin, this]

/-- The first bytes are those of `src`. -/
theorem take_overlay {n : ℕ} (h : n ≤ k) : (overlay v src n).toList.take n = slice src 0 n := by
  apply List.ext_getElem
  · rw [List.length_take, Vector.length_toList, length_slice]
    omega
  · intro i hi _
    have hi' : i < n := by
      rw [List.length_take] at hi
      omega
    simp [overlay, slice, hi']

end Overlay

/-! ## Words in a buffer -/

/-- The word at a position. -/
def load32 (buf : ℕ → UInt8) (pos : ℕ) : UInt32 :=
  ofBe32 (buf pos) (buf (pos + 1)) (buf (pos + 2)) (buf (pos + 3))

/-- Overwrite the word at a position. -/
def store32 (buf : ℕ → UInt8) (pos : ℕ) (w : UInt32) : ℕ → UInt8 := writeBytes buf pos (be32 w)

theorem load32_store32 (buf : ℕ → UInt8) (pos : ℕ) (w : UInt32) :
    load32 (store32 buf pos w) pos = w := by
  apply be32_injective
  rw [load32, ← slice_four]
  exact slice_writeBytes buf pos (be32 w)

/-- A word that is written leaves the other bytes. -/
theorem store32_of_ne {buf : ℕ → UInt8} {pos i : ℕ} (w : UInt32) (h : i < pos ∨ pos + 4 ≤ i) :
    store32 buf pos w i = buf i := by
  rcases h with hlt | hle
  · exact writeBytes_of_lt hlt
  · exact writeBytes_of_le hle

theorem load32_congr {buf buf' : ℕ → UInt8} {pos : ℕ} (h : ∀ i < 4, buf' (pos + i) = buf (pos + i)) :
    load32 buf' pos = load32 buf pos := by
  have h0 := h 0 (by omega)
  have h1 := h 1 (by omega)
  have h2 := h 2 (by omega)
  have h3 := h 3 (by omega)
  rw [Nat.add_zero] at h0
  simp only [load32, h0, h1, h2, h3]

theorem load32_store32_of_ne {buf : ℕ → UInt8} {pos pos' : ℕ} (w : UInt32)
    (h : pos' + 4 ≤ pos ∨ pos + 4 ≤ pos') : load32 (store32 buf pos w) pos' = load32 buf pos' := by
  apply load32_congr
  intro i hi
  apply store32_of_ne
  omega

theorem load32_update_of_ne {buf : ℕ → UInt8} {pos pos' : ℕ} (b : UInt8)
    (h : pos < pos' ∨ pos' + 4 ≤ pos) :
    load32 (Function.update buf pos b) pos' = load32 buf pos' := by
  apply load32_congr
  intro i hi
  have hne : pos' + i ≠ pos := by omega
  exact Function.update_of_ne hne b buf

end Bytes
