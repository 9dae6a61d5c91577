import Cannelloni.SwitchConfig.Records

/-!
# Reading the switch configuration

A reader of the configuration image as the switch loads it: the device id, blocks with their
checksums, and a last header with the checksum of everything in front of it. `generate_readable`
says that it gets back what the generator was given.
-/

namespace Cannelloni.SwitchConfig

/-! ## The reader -/

/-- The CRC-32 of a run of words. -/
def wordsCrc (words : List ℕ) : ℕ := (Crc.crc32 (words.flatMap le32)).toNat

/-- Read blocks up to the last header. `front` is what was read so far, and every block takes a
pass. The ids come with their payloads, and with the words behind the image. -/
def readBlocks : ℕ → List ℕ → List ℕ → Option (List (ℕ × List ℕ) × List ℕ)
  | 0, _, _ => none
  | passes + 1, front, idWord :: size :: crc :: rest =>
    if idWord = 0 ∧ size = 0 then
      if crc = wordsCrc (front ++ [idWord, size]) then some ([], rest) else none
    else if crc = wordsCrc [idWord, size] ∧ size ≤ rest.length then
      match rest.drop size with
      | [] => none
      | payloadCrc :: rest' =>
        if payloadCrc = wordsCrc (rest.take size) then
          (readBlocks passes (front ++ idWord :: size :: crc :: (rest.take size ++ [payloadCrc]))
            rest').map fun r => ((idWord >>> 24, rest.take size) :: r.1, r.2)
        else none
    else none
  | _, _, _ => none

/-- Read an image. -/
def readImage : List ℕ → Option (List (ℕ × List ℕ) × List ℕ)
  | [] => none
  | deviceId :: words =>
    if deviceId = Writer.deviceId then readBlocks words.length [deviceId] words else none

theorem crc32_eq_wordsCrc (words : List ℕ) : crc32 words = wordsCrc words := crc32_eq words

theorem header_eq (blockId size : ℕ) :
    header blockId size = [blockId <<< 24, size, wordsCrc [blockId <<< 24, size]] := by
  rw [← crc32_eq_wordsCrc]
  rfl

/-- A pass over a block. -/
theorem readBlocks_block {block : ℕ × List ℕ} (h : ¬ (block.1 = 0 ∧ block.2 = []))
    (passes : ℕ) (front rest : List ℕ) :
    readBlocks (passes + 1) front (blockWords block ++ rest)
      = (readBlocks passes (front ++ blockWords block) rest).map
        fun r => (block :: r.1, r.2) := by
  rcases block with ⟨blockId, ps⟩
  have hlast : ¬ (blockId <<< 24 = 0 ∧ ps.length = 0) := by
    intro h0
    apply h
    refine ⟨?_, List.length_eq_zero_iff.mp h0.2⟩
    have hid := h0.1
    rw [Nat.shiftLeft_eq] at hid
    omega
  have hwords : blockWords (blockId, ps) = blockId <<< 24 :: ps.length
      :: wordsCrc [blockId <<< 24, ps.length] :: (ps ++ [wordsCrc ps]) := by
    unfold blockWords
    rw [header_eq, crc32_eq_wordsCrc]
    rfl
  have hrest : blockWords (blockId, ps) ++ rest = blockId <<< 24 :: ps.length
      :: wordsCrc [blockId <<< 24, ps.length] :: (ps ++ wordsCrc ps :: rest) := by
    rw [hwords]
    simp
  rw [hrest, readBlocks, if_neg hlast, if_pos ⟨rfl, by simp⟩, List.drop_left, List.take_left,
    hwords]
  show (if wordsCrc ps = wordsCrc ps then _ else _) = _
  rw [if_pos rfl, Nat.shiftLeft_shiftRight]

/-- The reader gets the blocks back. -/
theorem readBlocks_blocks {cs : List (ℕ × List ℕ)} (h : ∀ b ∈ cs, ¬ (b.1 = 0 ∧ b.2 = []))
    {passes : ℕ} (hpasses : cs.length < passes) (front : List ℕ) :
    readBlocks passes front (cs.flatMap blockWords
      ++ [0, 0, wordsCrc (front ++ cs.flatMap blockWords ++ [0, 0])]) = some (cs, []) := by
  obtain ⟨passes, rfl⟩ := Nat.exists_eq_succ_of_ne_zero (Nat.ne_zero_of_lt hpasses)
  induction cs generalizing passes front with
  | nil =>
    show readBlocks (passes + 1) front [0, 0, wordsCrc (front ++ [] ++ [0, 0])] = _
    rw [List.append_nil, readBlocks, if_pos ⟨rfl, rfl⟩, if_pos rfl]
  | cons block cs ih =>
    obtain ⟨passes, rfl⟩ := Nat.exists_eq_succ_of_ne_zero
      (Nat.ne_zero_of_lt (Nat.lt_of_succ_lt_succ hpasses))
    rw [List.flatMap_cons, List.append_assoc, readBlocks_block (h block List.mem_cons_self),
      ← List.append_assoc front,
      ih (fun b hb => h b (List.mem_cons_of_mem _ hb)) _ passes (Nat.lt_of_succ_lt_succ hpasses)]
    rfl

theorem length_le_length_flatMap (cs : List (ℕ × List ℕ)) :
    cs.length ≤ (cs.flatMap blockWords).length := by
  induction cs with
  | nil => exact Nat.zero_le _
  | cons b cs ih =>
    have hpos : 0 < (blockWords b).length := by
      unfold blockWords
      rw [List.length_append]
      exact Nat.succ_pos _
    rw [List.flatMap_cons, List.length_append, List.length_cons]
    omega

/-- The reader gets back what was written. -/
theorem readImage_imageWords {cs : List (ℕ × List ℕ)} (h : ∀ b ∈ cs, ¬ (b.1 = 0 ∧ b.2 = [])) :
    readImage (imageWords cs ++ [crc32 (imageWords cs)]) = some (cs, []) := by
  set last := [0, 0, wordsCrc ([Writer.deviceId] ++ cs.flatMap blockWords ++ [0, 0])] with hlast
  have hwords : imageWords cs ++ [crc32 (imageWords cs)]
      = Writer.deviceId :: (cs.flatMap blockWords ++ last) := by
    rw [crc32_eq_wordsCrc, imageWords, hlast, List.append_assoc]
    rfl
  have hpasses : cs.length < (cs.flatMap blockWords ++ last).length := by
    have hblocks := length_le_length_flatMap cs
    rw [List.length_append]
    show cs.length < _ + 3
    omega
  rw [hwords, readImage, if_pos rfl, hlast]
  exact readBlocks_blocks h hpasses _

/-! ## What the generator is given -/

/-- A record in range, or a word of 32 bits. -/
def Item.InRange : Item → Prop
  | .mem m => m.InRange
  | .word w => w < 2 ^ 32

/-- The number of words of an entry. -/
def Item.size : Item → ℕ
  | .mem m => m.cls.words
  | .word _ => 1

/-- Ids of a byte, values in range, and no block that looks like the last header. -/
structure Blocks.WellFormed (blocks : Blocks) : Prop where
  id_lt : ∀ b ∈ blocks.items, b.1 < 256
  inRange : ∀ b ∈ blocks.items, ∀ item ∈ b.2, item.InRange
  not_last : ∀ b ∈ blocks.items, b.1 = 0 → ∃ item ∈ b.2, item.size ≠ 0

theorem Item.words_ok {item : Item} (h : item.InRange) :
    ∃ ws, item.words = .ok ws ∧ ws.length = item.size ∧ ∀ w ∈ ws, w < 2 ^ 32 := by
  cases item with
  | mem m => exact Mem.toBytes_ok h
  | word w => exact ⟨[w], rfl, rfl, fun w' hw' => by rw [List.mem_singleton.mp hw']; exact h⟩

theorem payload_ok {records : List Item} (h : ∀ item ∈ records, item.InRange) :
    ∃ ps, payload records = .ok ps ∧ (∀ w ∈ ps, w < 2 ^ 32) ∧
      (ps = [] → ∀ item ∈ records, item.size = 0) := by
  induction records with
  | nil => exact ⟨[], rfl, by simp, by simp⟩
  | cons item records ih =>
    rcases Item.words_ok (h item List.mem_cons_self) with ⟨ws, hws, hsize, hlt⟩
    rcases ih fun i hi => h i (List.mem_cons_of_mem _ hi) with ⟨rest, hrest, hlt', hempty⟩
    refine ⟨ws ++ rest, ?_, ?_, ?_⟩
    · rw [payload, hws, hrest]
      rfl
    · intro w hw
      exact (List.mem_append.mp hw).elim (hlt w) (hlt' w)
    · intro hnil i hi
      obtain ⟨rfl, rfl⟩ := List.append_eq_nil_iff.mp hnil
      rcases List.mem_cons.mp hi with rfl | hi
      · exact hsize.symm
      · exact hempty rfl i hi

theorem contents_ok {items : List (ℕ × List Item)} (hin : ∀ b ∈ items, ∀ item ∈ b.2, item.InRange)
    (hlast : ∀ b ∈ items, b.1 = 0 → ∃ item ∈ b.2, item.size ≠ 0) :
    ∃ cs, contents items = .ok cs ∧ cs.map Prod.fst = items.map Prod.fst ∧
      (∀ b ∈ cs, ∀ w ∈ b.2, w < 2 ^ 32) ∧ ∀ b ∈ cs, ¬ (b.1 = 0 ∧ b.2 = []) := by
  induction items with
  | nil => exact ⟨[], rfl, rfl, by simp, by simp⟩
  | cons block items ih =>
    rcases payload_ok (hin block List.mem_cons_self) with ⟨ps, hps, hlt, hempty⟩
    rcases ih (fun b hb => hin b (List.mem_cons_of_mem _ hb))
      (fun b hb => hlast b (List.mem_cons_of_mem _ hb)) with ⟨rest, hrest, hids, hlt', hlast'⟩
    refine ⟨(block.1, ps) :: rest, ?_, ?_, ?_, ?_⟩
    · rw [contents, hps, hrest]
      rfl
    · rw [List.map_cons, List.map_cons, hids]
    · exact List.forall_mem_cons.mpr ⟨hlt, hlt'⟩
    · refine List.forall_mem_cons.mpr ⟨?_, hlast'⟩
      intro hboth
      rcases hlast block List.mem_cons_self hboth.1 with ⟨item, hitem, hsize⟩
      exact hsize (hempty hboth.2 item hitem)

theorem crc32_lt (words : List ℕ) : crc32 words < 2 ^ 32 := by
  rw [crc32_eq]
  exact BitVec.isLt _

/-- Blocks of less than `2 ^ 32` words give words of 32 bits. -/
theorem lt_of_mem_image {cs : List (ℕ × List ℕ)} (hid : ∀ b ∈ cs, b.1 < 256)
    (hlt : ∀ b ∈ cs, ∀ w ∈ b.2, w < 2 ^ 32) (hlen : ∀ b ∈ cs, b.2.length < 2 ^ 32) :
    ∀ w ∈ imageWords cs ++ [crc32 (imageWords cs)], w < 2 ^ 32 := by
  have hblock : ∀ b ∈ cs, ∀ w ∈ blockWords b, w < 2 ^ 32 := by
    intro b hb w hw
    unfold blockWords header at hw
    simp only [List.cons_append, List.nil_append, List.mem_cons, List.mem_append, List.not_mem_nil,
      or_false] at hw
    rcases hw with hw | hw | hw | hw | hw
    · have hb256 := hid b hb
      rw [hw, Nat.shiftLeft_eq]
      omega
    · rw [hw]
      exact hlen b hb
    · rw [hw]
      exact crc32_lt _
    · exact hlt b hb w hw
    · rw [hw]
      exact crc32_lt _
  intro w hw
  unfold imageWords at hw
  simp only [List.cons_append, List.append_assoc, List.nil_append, List.mem_cons, List.mem_append,
    List.mem_flatMap, List.not_mem_nil, or_false] at hw
  rcases hw with hw | ⟨b, hb, hw⟩ | hw | hw | hw
  · rw [hw]
    decide
  · exact hblock b hb w hw
  · rw [hw]
    decide
  · rw [hw]
    decide
  · rw [hw]
    exact crc32_lt _

/-- The words that are written describe themselves: the reader accepts them, has nothing left,
and gets back the ids in order with the words of their entries. The bytes in the text are those
words, most significant byte first, and a word is never longer than that unless a block has
`2 ^ 32` words. -/
theorem generate_readable (blocks : Blocks) (h : blocks.WellFormed) :
    ∃ w cs, Writer.init.generate blocks = .ok w ∧ contents blocks.items = .ok cs ∧
      readImage w.written = some (cs, []) ∧
      textBytes w.newCode.toList = w.written.flatMap be32 ∧
      ((∀ b ∈ cs, b.2.length < 2 ^ 32) → ∀ word ∈ w.written, word < 2 ^ 32) := by
  rcases contents_ok h.inRange h.not_last with ⟨cs, hcs, hids, hlt, hlast⟩
  rcases Writer.generate_adds hcs with ⟨w, hw, hadds⟩
  have hwritten : w.written = imageWords cs ++ [crc32 (imageWords cs)] := hadds.written_eq
  refine ⟨w, cs, hw, hcs, ?_, hadds.textBytes_eq, ?_⟩
  · rw [hwritten]
    exact readImage_imageWords hlast
  · intro hlen
    rw [hwritten]
    refine lt_of_mem_image ?_ hlt hlen
    intro b hb
    have hmem : b.1 ∈ blocks.items.map Prod.fst := by
      rw [← hids]
      exact List.mem_map_of_mem hb
    rcases List.mem_map.mp hmem with ⟨b', hb', heq⟩
    rw [← heq]
    exact h.id_lt b' hb'

instance (item : Item) : Decidable item.InRange :=
  match item with
  | .mem m => inferInstanceAs (Decidable m.InRange)
  | .word w => inferInstanceAs (Decidable (w < 2 ^ 32))

/-- The blocks of the script. -/
theorem blocks_readable :
    ∃ w cs, Writer.init.generate blocks = .ok w ∧ contents blocks.items = .ok cs ∧
      readImage w.written = some (cs, []) ∧
      textBytes w.newCode.toList = w.written.flatMap be32 ∧
      ((∀ b ∈ cs, b.2.length < 2 ^ 32) → ∀ word ∈ w.written, word < 2 ^ 32) :=
  generate_readable blocks ⟨by decide +kernel, by decide +kernel, by decide +kernel⟩

end Cannelloni.SwitchConfig
