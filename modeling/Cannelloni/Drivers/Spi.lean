import Cannelloni.Lib.Bytes
import Cannelloni.Lib.Framing
import Cannelloni.Lib.Run

/-!
# The SPI driver (`drivers/spi.c`)

`spi_transfer` polls the transmit buffer and writes one character after the other to `DAT1`, with
the chip select held behind every character but the last. It returns while its last character may
still wait in the buffer, so the next call runs beside the end of the one before it.

`frames_on_wire` is about a list of calls and every interleaving of the polls with the controller
that shifts characters out: a device at the chip select sees the calls as its frames, in order.
-/

namespace Cannelloni

/-! ## The controller -/

/-- The registers of `mibspiREG2` that the driver writes. `txBuf` is the word in `DAT1` that was
not shifted out yet, `wire` (ghost) the words that were. -/
structure MibSpi where
  gcr0 : UInt32
  gcr1 : UInt32
  pc0 : UInt32
  delay : UInt32
  fmt0 : UInt32
  txBuf : Option UInt32
  wire : List UInt32
deriving DecidableEq, Repr

namespace MibSpi

/-- `SPIBUF_TXFULL_SHIFT`. -/
abbrev TxFull (r : MibSpi) : Prop := r.txBuf.isSome

/-- After the reset. -/
def reset : MibSpi := ⟨0, 0, 0, 0, 0, none, []⟩

/-- The controller takes a word out of the buffer and shifts it out, once it is enabled. -/
def shift (r : MibSpi) : MibSpi :=
  if r.gcr0 &&& 1 ≠ 0 ∧ r.gcr1 &&& ((1 : UInt32) <<< 24) ≠ 0 then
    { r with txBuf := none, wire := r.wire ++ r.txBuf.toList }
  else r

/-! ## The code -/

/-- `spi_init`. -/
def init (r : MibSpi) : MibSpi :=
  { r with
    gcr0 := 1
    pc0 := ((1 : UInt32) <<< 0) ||| ((1 : UInt32) <<< 1) ||| ((1 : UInt32) <<< 9)
      ||| ((1 : UInt32) <<< 10) ||| ((1 : UInt32) <<< 11)
    gcr1 := ((1 : UInt32) <<< 0) ||| ((1 : UInt32) <<< 1) ||| ((1 : UInt32) <<< 24)
    delay := ((45 : UInt32) <<< 24) ||| ((45 : UInt32) <<< 16)
    fmt0 := ((0xFF : UInt32) <<< 24) ||| ((74 : UInt32) <<< 8) ||| ((8 : UInt32) <<< 0) }

end MibSpi

/-- `1U << SPIDAT1_CSHOLD_SHIFT`. -/
def spidat1Cshold : UInt32 := (1 : UInt32) <<< 28

/-- The part of `flags` in `spi_transfer` that is the same for every character: chip select 0,
the delay behind the character, format 0. -/
def spiFlags : UInt32 :=
  (((0xFF : UInt32) &&& ~~~((1 : UInt32) <<< 0)) <<< 16) ||| ((1 : UInt32) <<< 26)
    ||| ((0 : UInt32) <<< 24)

/-- The word that `spi_transfer` writes to `DAT1` for `tx[i]`. -/
def spiWord (b : UInt8) (last : Bool) : UInt32 :=
  b.toUInt32 ||| if last then spiFlags else spiFlags ||| spidat1Cshold

/-- The calls of `spi_transfer` that are not through, and the index in the first of them. -/
structure SpiSystem where
  spi : MibSpi
  calls : List (List UInt8)
  i : ℕ
deriving DecidableEq, Repr

inductive SpiEvent
  /-- the processor polls the buffer, or goes on to the next call -/
  | poll
  /-- the controller shifts a character out -/
  | shift
deriving DecidableEq, Repr

namespace SpiSystem

/-- `spi_init`, and the calls that follow. -/
def start (calls : List (List UInt8)) : SpiSystem := ⟨MibSpi.reset.init, calls, 0⟩

/-- A pass of the wait, and the body of the loop behind it. -/
def poll (s : SpiSystem) : SpiSystem :=
  match s.calls with
  | [] => s
  | tx :: rest =>
    if h : s.i < tx.length then
      if s.spi.TxFull then s
      else { s with
        spi := { s.spi with txBuf := some (spiWord tx[s.i] (s.i + 1 = tx.length)) }
        i := s.i + 1 }
    else { s with calls := rest, i := 0 }

def step (s : SpiSystem) : SpiEvent → SpiSystem
  | .poll => s.poll
  | .shift => { s with spi := s.spi.shift }

def run (s : SpiSystem) (events : List SpiEvent) : SpiSystem := events.foldl step s

/-- The calls are through and the last character is on the wire. -/
abbrev Done (s : SpiSystem) : Prop := s.calls = [] ∧ s.spi.txBuf = none

end SpiSystem

/-! ## What a device sees -/

/-- The character of a word in a format, and whether the chip select is held behind it. -/
def wireChar (fmt : UInt32) (w : UInt32) : UInt8 × Bool :=
  ((w &&& ((1 : UInt32) <<< (fmt &&& 0x1F) - 1)).toUInt8, w &&& spidat1Cshold ≠ 0)

/-- The chip select lines of a word are low active. -/
abbrev Selects (w : UInt32) (cs : UInt32) : Prop := (w >>> 16) &&& ((1 : UInt32) <<< cs) = 0

/-- The characters that the device at chip select 0 has seen so far. -/
def MibSpi.chars (r : MibSpi) : List UInt8 :=
  (r.wire.filter fun w => Selects w 0).map fun w => (wireChar r.fmt0 w).1

/-- The frames that the device at chip select 0 sees. -/
def MibSpi.frames (r : MibSpi) : List (List UInt8) :=
  Framing.frames [] ((r.wire.filter fun w => Selects w 0).map (wireChar r.fmt0))

/-! ## Words and characters -/

/-- The words of a call. -/
def callWords (tx : List UInt8) : List UInt32 :=
  (Framing.mark tx).map fun e => spiWord e.1 (!e.2)

@[simp] theorem length_callWords (tx : List UInt8) : (callWords tx).length = tx.length := by
  unfold callWords
  rw [List.length_map, Framing.length_mark]

/-- The loop writes the words of the call. -/
theorem getElem_callWords {tx : List UInt8} {i : ℕ} (h : i < tx.length)
    (h' : i < (callWords tx).length) : (callWords tx)[i] = spiWord tx[i] (i + 1 = tx.length) := by
  simp only [callWords, List.getElem_map, Framing.getElem_mark tx _ h]
  simp

/-- Every character goes to chip select 0, as it is. -/
theorem spiWord_spec (b : UInt8) (last : Bool) :
    Selects (spiWord b last) 0 ∧
      wireChar (((0xFF : UInt32) <<< 24) ||| ((74 : UInt32) <<< 8) ||| ((8 : UInt32) <<< 0))
        (spiWord b last) = (b, !last) := by
  have hall : ∀ n < 256, ∀ last : Bool, Selects (spiWord (UInt8.ofNat n) last) 0 ∧
      wireChar (((0xFF : UInt32) <<< 24) ||| ((74 : UInt32) <<< 8) ||| ((8 : UInt32) <<< 0))
        (spiWord (UInt8.ofNat n) last) = (UInt8.ofNat n, !last) := by
    decide +kernel
  have hb := hall b.toNat b.toNat_lt last
  rwa [UInt8.ofNat_toNat] at hb

/-! ## The invariant -/

namespace SpiSystem

/-- The words that were not written to `DAT1` yet. -/
def remaining (s : SpiSystem) : List UInt32 :=
  match s.calls with
  | [] => []
  | tx :: rest => (callWords tx).drop s.i ++ rest.flatMap callWords

/-- The steps that are still to be done. -/
def todo (s : SpiSystem) : ℕ :=
  2 * s.remaining.length + s.spi.txBuf.toList.length + s.calls.length

/-- The words on the wire, in the buffer and to come are those of the calls. -/
structure Inv (s : SpiSystem) (calls : List (List UInt8)) : Prop where
  conserved : s.spi.wire ++ s.spi.txBuf.toList ++ s.remaining = calls.flatMap callWords
  gcr0_eq : s.spi.gcr0 = MibSpi.reset.init.gcr0
  gcr1_eq : s.spi.gcr1 = MibSpi.reset.init.gcr1
  fmt0_eq : s.spi.fmt0 = MibSpi.reset.init.fmt0

theorem inv_start (calls : List (List UInt8)) : (start calls).Inv calls where
  conserved := by cases calls <;> rfl
  gcr0_eq := rfl
  gcr1_eq := rfl
  fmt0_eq := rfl

variable {s : SpiSystem} {calls : List (List UInt8)}

/-- What a pass of the wait does: nothing while the buffer is full, else the next word goes into
the buffer, or the call is through. -/
theorem poll_cases (s : SpiSystem) :
    s.poll = s ∧ (s.calls = [] ∨ s.spi.TxFull) ∨
      (∃ w, s.spi.txBuf = none ∧ s.remaining = w :: s.poll.remaining ∧
        s.poll.spi = { s.spi with txBuf := some w } ∧ s.poll.calls = s.calls) ∨
      s.poll.remaining = s.remaining ∧ s.poll.spi = s.spi ∧
        s.calls.length = s.poll.calls.length + 1 := by
  obtain ⟨spi, calls, i⟩ := s
  cases calls with
  | nil => exact .inl ⟨rfl, .inl rfl⟩
  | cons tx rest =>
    unfold poll
    simp only
    by_cases hi : i < tx.length
    · rw [dif_pos hi]
      by_cases hfull : spi.TxFull
      · rw [if_pos hfull]
        exact .inl ⟨rfl, .inr hfull⟩
      · rw [if_neg hfull]
        refine .inr (.inl ⟨_, Option.not_isSome_iff_eq_none.mp hfull, ?_, rfl, rfl⟩)
        have hlength : i < (callWords tx).length := by rwa [length_callWords]
        show (callWords tx).drop i ++ _ = _ :: ((callWords tx).drop (i + 1) ++ _)
        rw [List.drop_eq_getElem_cons hlength, getElem_callWords hi, List.cons_append]
    · rw [dif_neg hi]
      refine .inr (.inr ⟨?_, rfl, rfl⟩)
      have hdrop : (callWords tx).drop i = [] := by
        rw [List.drop_eq_nil_iff, length_callWords]
        omega
      show _ = (callWords tx).drop i ++ rest.flatMap callWords
      rw [hdrop, List.nil_append]
      cases rest with
      | nil => rfl
      | cons tx' rest' => rfl

theorem Inv.poll (h : s.Inv calls) : s.poll.Inv calls := by
  have hconserved := h.conserved
  rcases s.poll_cases with ⟨hsame, -⟩ | ⟨w, hnone, hremaining, hspi, -⟩ | ⟨hremaining, hspi, -⟩
  · rw [hsame]
    exact h
  · refine ⟨?_, ?_, ?_, ?_⟩
    · rw [hnone, hremaining] at hconserved
      rw [hspi, ← hconserved]
      simp
    · rw [hspi]
      exact h.gcr0_eq
    · rw [hspi]
      exact h.gcr1_eq
    · rw [hspi]
      exact h.fmt0_eq
  · refine ⟨?_, ?_, ?_, ?_⟩
    · rw [hremaining, hspi]
      exact hconserved
    · rw [hspi]
      exact h.gcr0_eq
    · rw [hspi]
      exact h.gcr1_eq
    · rw [hspi]
      exact h.fmt0_eq

/-- The driver enabled the controller. -/
theorem Inv.shift_eq (h : s.Inv calls) :
    s.spi.shift = { s.spi with txBuf := none, wire := s.spi.wire ++ s.spi.txBuf.toList } := by
  unfold MibSpi.shift
  rw [if_pos]
  rw [h.gcr0_eq, h.gcr1_eq]
  decide

theorem Inv.step (h : s.Inv calls) (e : SpiEvent) : (s.step e).Inv calls := by
  cases e with
  | poll => exact h.poll
  | shift =>
    show ({ s with spi := s.spi.shift } : SpiSystem).Inv calls
    rw [h.shift_eq]
    refine ⟨?_, h.gcr0_eq, h.gcr1_eq, h.fmt0_eq⟩
    have hconserved := h.conserved
    show (s.spi.wire ++ s.spi.txBuf.toList) ++ [] ++ s.remaining = _
    rw [List.append_nil, hconserved]

theorem inv_run (calls : List (List UInt8)) (events : List SpiEvent) :
    (run (start calls) events).Inv calls := by
  induction events using List.reverseRecOn with
  | nil => exact inv_start calls
  | append_singleton events e ih =>
    unfold run at ih ⊢
    rw [List.foldl_append]
    exact ih.step e

/-! ## Progress -/

theorem todo_poll_le (s : SpiSystem) : s.poll.todo ≤ s.todo := by
  unfold todo
  rcases s.poll_cases with ⟨hsame, -⟩ | ⟨w, hnone, hremaining, hspi, hcalls⟩
    | ⟨hremaining, hspi, hcalls⟩
  · rw [hsame]
  · rw [hremaining, hspi, hnone, hcalls]
    simp only [List.length_cons, Option.toList_some, Option.toList_none, List.length_nil]
    omega
  · rw [hremaining, hspi, hcalls]
    omega

theorem Inv.todo_shift (h : s.Inv calls) :
    (s.step .shift).todo + s.spi.txBuf.toList.length = s.todo := by
  have hspi : (s.step .shift).spi.txBuf = none := by
    show s.spi.shift.txBuf = none
    rw [h.shift_eq]
  have hremaining : (s.step .shift).remaining = s.remaining := rfl
  have hcalls : (s.step .shift).calls = s.calls := rfl
  unfold todo
  rw [hspi, hremaining, hcalls, Option.toList_none, List.length_nil]
  omega

/-- As long as something is to be done, the processor or the controller gets on. -/
theorem Inv.progress (h : s.Inv calls) (hdone : ¬ s.Done) :
    (s.step .poll).todo < s.todo ∨ (s.step .shift).todo < s.todo := by
  have hshift := h.todo_shift
  show s.poll.todo < s.todo ∨ _
  rcases s.poll_cases with ⟨-, hstuck⟩ | ⟨w, hnone, hremaining, hspi, hcalls⟩
    | ⟨hremaining, hspi, hcalls⟩
  · right
    obtain ⟨w, hw⟩ : ∃ w, s.spi.txBuf = some w := by
      rcases hstuck with hnil | hfull
      · exact Option.ne_none_iff_exists'.mp fun hnone => hdone ⟨hnil, hnone⟩
      · exact Option.isSome_iff_exists.mp hfull
    rw [hw, Option.toList_some, List.length_singleton] at hshift
    omega
  · left
    unfold todo
    rw [hremaining, hspi, hnone, hcalls]
    simp only [List.length_cons, Option.toList_some, Option.toList_none, List.length_nil]
    omega
  · left
    unfold todo
    rw [hremaining, hspi, hcalls]
    omega

/-! ## Frames -/

/-- The words of the calls are seen as their characters. -/
theorem map_wireChar_callWords (tx : List UInt8) :
    ((callWords tx).filter fun w => Selects w 0).map (wireChar MibSpi.reset.init.fmt0)
      = Framing.mark tx := by
  have hall : (callWords tx).filter (fun w => Selects w 0) = callWords tx := by
    rw [List.filter_eq_self]
    intro w hw
    obtain ⟨e, -, rfl⟩ := List.mem_map.mp hw
    exact decide_eq_true (spiWord_spec e.1 (!e.2)).1
  rw [hall]
  unfold callWords
  rw [List.map_map]
  conv_rhs => rw [← List.map_id (Framing.mark tx)]
  apply List.map_congr_left
  intro e _
  have hchar := (spiWord_spec e.1 (!e.2)).2
  rw [Bool.not_not] at hchar
  exact hchar

theorem frames_flatMap_callWords (calls : List (List UInt8)) :
    Framing.frames [] (((calls.flatMap callWords).filter fun w => Selects w 0).map
      (wireChar MibSpi.reset.init.fmt0)) = calls.filter (· ≠ []) := by
  have hmark : ((calls.flatMap callWords).filter fun w => Selects w 0).map
      (wireChar MibSpi.reset.init.fmt0) = (calls.filter (· ≠ [])).flatMap Framing.mark := by
    induction calls with
    | nil => rfl
    | cons tx rest ih =>
      rw [List.flatMap_cons, List.filter_append, List.map_append, map_wireChar_callWords, ih]
      cases tx with
      | nil => rfl
      | cons b tx => simp
  rw [hmark]
  exact Framing.frames_flatMap_mark fun f hf => of_decide_eq_true (List.mem_filter.mp hf).2

theorem chars_flatMap_callWords (calls : List (List UInt8)) :
    ((calls.flatMap callWords).filter fun w => Selects w 0).map
      (fun w => (wireChar MibSpi.reset.init.fmt0 w).1) = calls.flatten := by
  induction calls with
  | nil => rfl
  | cons tx rest ih =>
    have htx := congrArg (List.map Prod.fst) (map_wireChar_callWords tx)
    rw [List.map_map, Framing.map_fst_mark] at htx
    rw [List.flatMap_cons, List.filter_append, List.map_append, ih, List.flatten_cons]
    exact congrArg (· ++ rest.flatten) htx

/-- The characters on the wire are the first ones of the calls, also within a frame. -/
theorem Inv.chars_prefix (h : s.Inv calls) : s.spi.chars <+: calls.flatten := by
  rw [← chars_flatMap_callWords calls, ← h.conserved, List.append_assoc, List.filter_append,
    List.map_append]
  unfold MibSpi.chars
  rw [h.fmt0_eq]
  exact List.prefix_append _ _

/-- The frames that are complete are the first ones. -/
theorem Inv.frames_prefix (h : s.Inv calls) : s.spi.frames <+: calls.filter (· ≠ []) := by
  rw [← frames_flatMap_callWords calls, ← h.conserved, List.append_assoc, List.filter_append,
    List.map_append]
  unfold MibSpi.frames
  rw [h.fmt0_eq]
  exact Framing.frames_prefix _ _ _

/-- In the end all frames are complete. -/
theorem Inv.frames_of_done (h : s.Inv calls) (hdone : s.Done) :
    s.spi.frames = calls.filter (· ≠ []) := by
  obtain ⟨hcalls, hbuf⟩ := hdone
  have hremaining : s.remaining = [] := by
    unfold remaining
    rw [hcalls]
  have hconserved := h.conserved
  rw [hbuf, hremaining, Option.toList_none, List.append_nil, List.append_nil] at hconserved
  unfold MibSpi.frames
  rw [h.fmt0_eq, hconserved, frames_flatMap_callWords calls]

end SpiSystem

/-- The device at chip select 0 sees the calls as its frames: in every interleaving the frames
that are complete are the first ones, and when the calls are through and the buffer is empty they
are all there. Until then the processor or the controller gets on, and neither falls back. A call
without characters leaves no frame. -/
theorem frames_on_wire (calls : List (List UInt8)) (events : List SpiEvent) :
    let s := SpiSystem.run (.start calls) events
    s.spi.frames <+: calls.filter (· ≠ []) ∧
      (s.Done → s.spi.frames = calls.filter (· ≠ [])) ∧
      (¬ s.Done → (s.step .poll).todo < s.todo ∨ (s.step .shift).todo < s.todo) ∧
      ∀ e, (s.step e).todo ≤ s.todo := by
  intro s
  have h : s.Inv calls := SpiSystem.inv_run calls events
  refine ⟨h.frames_prefix, h.frames_of_done, h.progress, ?_⟩
  intro e
  cases e with
  | poll => exact s.todo_poll_le
  | shift =>
    have hshift := h.todo_shift
    omega

end Cannelloni
