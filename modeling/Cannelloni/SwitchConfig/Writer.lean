import Cannelloni.Lib.Run
import Cannelloni.SwitchConfig.Checksum
import Cannelloni.SwitchConfig.Mem

/-!
# The writer of the switch configuration

`Writer` of `gen_switch_config.py` up to the point where the file is opened: the words it writes
and the C text it makes of them. `Writer.Adds` says which words a part of the code writes, and
that the bytes in the text are those words, most significant byte first.
-/

namespace Cannelloni.SwitchConfig

/-! ## The code -/

/-- An entry of a block: a record, or a word that is written as it is. -/
inductive Item
  | mem (m : Mem)
  | word (w : ℕ)

/-- The `dict` of blocks in its order of insertion: an id once at most, with its records. -/
structure Blocks where
  items : List (ℕ × List Item)
  nodup : (items.map Prod.fst).Nodup

/-- The state of a `Writer`: `new_code` and `written`. -/
structure Writer where
  newCode : String
  written : List ℕ

def Writer.padding : String := "    "

def Writer.deviceId : ℕ := 0x9E00030E

/-- The markers that `write` looks for in the target file. -/
def Writer.delimiter : String := "SWITCH CONFIG"

def Writer.beginMarker : String := "// BEGIN " ++ delimiter

def Writer.endMarker : String := "// END " ++ delimiter

/-- `__init__`. -/
def Writer.init : Writer := ⟨"", []⟩

/-- What `str.strip` takes away. -/
def isSpace (c : Char) : Bool :=
  c.toNat ∈ [0x09, 0x0A, 0x0B, 0x0C, 0x0D, 0x1C, 0x1D, 0x1E, 0x1F, 0x20, 0x85, 0xA0, 0x1680, 0x2000,
    0x2001, 0x2002, 0x2003, 0x2004, 0x2005, 0x2006, 0x2007, 0x2008, 0x2009, 0x200A, 0x2028, 0x2029,
    0x202F, 0x205F, 0x3000]

/-- `str.strip`. -/
def strip (s : String) : String :=
  .ofList ((s.toList.dropWhile isSpace).reverse.dropWhile isSpace).reverse

/-- `add_line`. -/
def Writer.addLine (w : Writer) (line : String) : Writer :=
  { w with newCode := w.newCode ++ (if line ≠ "" then padding ++ strip line else "") ++ "\n" }

/-- A byte in hexadecimal, as the format `02x`. -/
def hex02 (b : ℕ) : String :=
  let digits := Nat.toDigits 16 b
  .ofList (List.replicate (2 - digits.length) '0' ++ digits)

/-- The bytes of a word's 32 low bits, most significant first. -/
def be32 (w : ℕ) : List ℕ := [w >>> 24 &&& 0xFF, w >>> 16 &&& 0xFF, w >>> 8 &&& 0xFF, w &&& 0xFF]

/-- The line of a word. -/
def wordLine (w : ℕ) : String := ", ".intercalate ((be32 w).map fun b => "0x" ++ hex02 b) ++ ","

/-- `add_word`. -/
def Writer.addWord (w : Writer) (word : ℕ) : Writer :=
  { w with written := w.written ++ [word] }.addLine (wordLine word)

/-- `add_words`. -/
def Writer.addWords (w : Writer) (words : List ℕ) : Writer := words.foldl addWord w

/-- A pass of the loop that computes the size of a block. -/
def addSize (size : ℕ) : Item → Except SymbolOverflow ℕ
  | .mem m => do
    let words ← m.toBytes
    return size + words.length
  | .word _ => return size + 1

/-- A pass of the loop that writes the payload of a block, with `payload_words`. -/
def Writer.addItem (s : Writer × List ℕ) : Item → Except SymbolOverflow (Writer × List ℕ)
  | .mem m => do
    let w := s.1.addLine ("// " ++ m.str)
    let words ← m.toBytes
    return (w.addWords words, s.2 ++ words)
  | .word word => return (s.1.addWord word, s.2 ++ [word])

/-- The header of a block. -/
def header (blockId size : ℕ) : List ℕ :=
  let hdr := [blockId <<< 24, size]
  hdr ++ [crc32 hdr]

/-- A pass of the loop over the blocks. -/
def Writer.addBlock (w : Writer) (block : ℕ × List Item) : Except SymbolOverflow Writer := do
  let (blockId, records) := block
  let size ← records.foldlM addSize 0
  let w := w.addLine ("// BLOCK 0x" ++ hex blockId ++ " HEADER")
  let w := w.addWords (header blockId size)
  let w := w.addLine ("// BLOCK 0x" ++ hex blockId ++ " PAYLOAD")
  let (w, payloadWords) ← records.foldlM addItem (w, [])
  let w := w.addLine ("// BLOCK 0x" ++ hex blockId ++ " CRC")
  let w := w.addWord (crc32 payloadWords)
  return w.addLine ""

/-- `write` up to the point where the file is opened. -/
def Writer.generate (w : Writer) (blocks : Blocks) : Except SymbolOverflow Writer := do
  let w := w.addWord deviceId
  let w ← blocks.items.foldlM addBlock w
  let w := w.addLine "// TOTAL CRC"
  let w := w.addWords [0, 0]
  return w.addWord (crc32 w.written)

/-! ## The bytes in the text -/

/-- The value of a hexadecimal digit. -/
def hexValue (c : Char) : ℕ := if c.isDigit then c.toNat - 48 else c.toNat - 87

/-- The two-digit constants in a line of C, up to a comment. -/
def lineBytes : List Char → List ℕ
  | '/' :: '/' :: _ => []
  | '0' :: 'x' :: a :: b :: rest => (16 * hexValue a + hexValue b) :: lineBytes rest
  | _ :: rest => lineBytes rest
  | [] => []

/-- The bytes of an initialiser in C. -/
def textBytes (text : List Char) : List ℕ := (text.splitOn '\n').flatMap lineBytes

theorem textBytes_append_newline (line rest : List Char) :
    textBytes (line ++ '\n' :: rest) = textBytes line ++ textBytes rest := by
  unfold textBytes
  rw [List.splitOn_append_cons_self, List.flatMap_append]

theorem textBytes_of_not_mem {line : List Char} (h : '\n' ∉ line) :
    textBytes line = lineBytes line := by
  unfold textBytes
  rw [List.splitOn_eq_singleton h, List.flatMap_singleton]

theorem dropWhile_eq_self {p : Char → Bool} {l : List Char}
    (h : ∀ c, l.head? = some c → p c = false) : l.dropWhile p = l := by
  cases l with
  | nil => rfl
  | cons c l => exact List.dropWhile_cons_of_neg (by rw [h c rfl]; decide)

theorem strip_eq_self {s : String} (hhead : ∀ c, s.toList.head? = some c → isSpace c = false)
    (hlast : ∀ c, s.toList.getLast? = some c → isSpace c = false) : strip s = s := by
  rw [← List.head?_reverse] at hlast
  unfold strip
  rw [dropWhile_eq_self hhead, dropWhile_eq_self hlast, List.reverse_reverse, String.ofList_toList]

theorem toList_hex02 {b : ℕ} (h : b < 256) :
    (hex02 b).toList = [Nat.digitChar (b / 16), Nat.digitChar (b % 16)] := by
  unfold hex02
  rw [String.toList_ofList, Nat.toDigits_eq_if (by decide)]
  by_cases hb : b < 16
  · rw [if_pos hb, Nat.div_eq_of_lt hb, Nat.mod_eq_of_lt hb]
    rfl
  · rw [if_neg hb, Nat.toDigits_of_lt_base (show b / 16 < 16 by omega)]
    rfl

theorem hexValue_digitChar {d : ℕ} (h : d < 16) : hexValue (Nat.digitChar d) = d := by
  have hall : ∀ d < 16, hexValue (Nat.digitChar d) = d := by decide
  exact hall d h

theorem lt_of_mem_be32 {w b : ℕ} (h : b ∈ be32 w) : b < 256 := by
  have hlt : ∀ n : ℕ, n &&& 0xFF < 256 := by
    intro n
    exact lt_of_le_of_lt Nat.and_le_right (by decide)
  simp only [be32, List.mem_cons, List.not_mem_nil, or_false] at h
  rcases h with rfl | rfl | rfl | rfl <;> exact hlt _

/-! ## Lines -/

/-- The text of a word's bytes. -/
def byteChars (b : ℕ) : List Char := ['0', 'x', Nat.digitChar (b / 16), Nat.digitChar (b % 16)]

theorem toList_wordLine (w : ℕ) : (wordLine w).toList =
    byteChars (w >>> 24 &&& 0xFF) ++ ',' :: ' ' :: (byteChars (w >>> 16 &&& 0xFF) ++ ',' :: ' ' ::
      (byteChars (w >>> 8 &&& 0xFF) ++ ',' :: ' ' :: (byteChars (w &&& 0xFF) ++ [','])))  := by
  have hbytes : (be32 w).map (String.toList ∘ fun b => "0x" ++ hex02 b)
      = (be32 w).map byteChars := by
    apply List.map_congr_left
    intro b hb
    show ("0x" ++ hex02 b).toList = _
    rw [String.toList_append, toList_hex02 (lt_of_mem_be32 hb)]
    rfl
  unfold wordLine
  rw [String.toList_append, String.toList_intercalate, List.map_map, hbytes]
  simp [be32, List.intercalate, List.append_assoc]

/-- No line break, no slash, and no backslash. -/
def Inert (l : List Char) : Prop := ∀ c ∈ l, c ≠ '\n' ∧ c ≠ '\r' ∧ c ≠ '\\' ∧ c ≠ '/'

instance (l : List Char) : Decidable (Inert l) := List.decidableBAll _ l

theorem Inert.append {l l' : List Char} (h : Inert l) (h' : Inert l') : Inert (l ++ l') :=
  List.forall_mem_append.mpr ⟨h, h'⟩

theorem inert_byteChars (b : ℕ) : Inert (byteChars b) := by
  simp [Inert, byteChars]

theorem inert_wordLine (w : ℕ) : Inert (wordLine w).toList := by
  have hcomma : Inert [',', ' '] := by decide
  rw [toList_wordLine]
  exact (inert_byteChars _).append <| hcomma.append <| (inert_byteChars _).append <|
    hcomma.append <| (inert_byteChars _).append <| hcomma.append <|
    (inert_byteChars _).append (by decide)

/-- The line of a word has its four bytes, most significant first. -/
theorem lineBytes_wordLine (w : ℕ) :
    lineBytes (Writer.padding.toList ++ (wordLine w).toList) = be32 w := by
  have hvalue : ∀ b ∈ be32 w,
      16 * hexValue (Nat.digitChar (b / 16)) + hexValue (Nat.digitChar (b % 16)) = b := by
    intro b hb
    have hlt := lt_of_mem_be32 hb
    rw [hexValue_digitChar (by omega), hexValue_digitChar (by omega)]
    omega
  rw [toList_wordLine]
  calc _ = (be32 w).map fun b =>
        16 * hexValue (Nat.digitChar (b / 16)) + hexValue (Nat.digitChar (b % 16)) := rfl
    _ = (be32 w).map id := List.map_congr_left hvalue
    _ = be32 w := List.map_id _

/-- A line of the generated text: a line, nothing that a template would take for an escape, and no
end marker. -/
structure CleanLine (l : List Char) : Prop where
  newline : '\n' ∉ l
  carriageReturn : '\r' ∉ l
  backslash : '\\' ∉ l
  marker : ¬ Writer.endMarker.toList <:+: l

theorem Inert.clean {l : List Char} (h : Inert l) : CleanLine l where
  newline := fun hc => (h _ hc).1 rfl
  carriageReturn := fun hc => (h _ hc).2.1 rfl
  backslash := fun hc => (h _ hc).2.2.1 rfl
  marker := by
    intro hin
    exact (h '/' (hin.subset (by decide))).2.2.2 rfl

/-- The text of a comment: it is not the end marker, and has no blank at the end. -/
structure IsComment (line : String) : Prop where
  text : ∃ l, line.toList = '/' :: '/' :: ' ' :: l ∧ Inert l
    ∧ ¬ ("END " ++ Writer.delimiter).toList <+: l
  last : ∃ c, line.toList.getLast? = some c ∧ isSpace c = false

/-- The only place where an end marker could start in the line of a comment is its slashes. -/
theorem IsComment.clean {line : String} (h : IsComment line) :
    CleanLine (Writer.padding.toList ++ line.toList) := by
  rcases h.text with ⟨l, hline, hinert, hnot⟩
  have hl := hinert.clean
  have hmarker : Writer.endMarker.toList
      = '/' :: '/' :: ' ' :: ("END " ++ Writer.delimiter).toList := rfl
  obtain ⟨word, hword⟩ : ∃ word, ("END " ++ Writer.delimiter).toList = word := ⟨_, rfl⟩
  rw [hword] at hmarker hnot
  rw [hline, show Writer.padding.toList = [' ', ' ', ' ', ' '] from rfl]
  constructor
  · simp [hl.newline]
  · simp [hl.carriageReturn]
  · simp [hl.backslash]
  · have hnot' : ¬ Writer.endMarker.toList <:+: l := hl.marker
    intro hin
    simp only [List.cons_append, List.nil_append, List.infix_cons_iff] at hin
    rw [hmarker] at hin hnot'
    simp [hnot, hnot'] at hin

theorem inert_toDigits {b : ℕ} (hb : 1 < b) (n : ℕ) : Inert (Nat.toDigits b n) := by
  have hdigit : ∀ d, Inert [Nat.digitChar d] := by
    intro d
    simp [Inert]
  induction n using Nat.strong_induction_on with
  | _ n ih =>
    rw [Nat.toDigits_eq_if hb]
    split
    · exact hdigit n
    · next h => exact (ih _ (Nat.div_lt_self (by omega) hb)).append (hdigit _)

theorem inert_hex (n : ℕ) : Inert (hex n).toList := by
  unfold hex
  rw [String.toList_ofList]
  exact inert_toDigits (by decide) n

theorem inert_toString (v : ℤ) : Inert (toString v).toList := by
  cases v with
  | ofNat n =>
    show Inert (Nat.repr n).toList
    rw [Nat.toList_repr]
    exact inert_toDigits (by decide) n
  | negSucc n =>
    show Inert ("-" ++ Nat.repr (n + 1)).toList
    have hsign : Inert "-".toList := by decide
    rw [String.toList_append, Nat.toList_repr]
    exact hsign.append (inert_toDigits (by decide) _)

/-- What a name does not have in it. -/
theorem Ident.ne_of_mem (name : Ident) {c : Char} (hc : c ∈ name.name.toList) :
    c ≠ '\n' ∧ c ≠ '\r' ∧ c ≠ '\\' ∧ c ≠ '/' ∧ c ≠ ' ' ∧ c ≠ '(' := by
  have hplain := name.plain c hc
  refine ⟨?_, ?_, ?_, ?_, ?_, ?_⟩ <;>
    · intro heq
      rw [heq] at hplain
      revert hplain
      decide

theorem inert_ident (name : Ident) : Inert name.name.toList := by
  intro c hc
  rcases name.ne_of_mem hc with ⟨hn, hr, hb, hs, -, -⟩
  exact ⟨hn, hr, hb, hs⟩

theorem inert_intercalate {ls : List String} (h : ∀ l ∈ ls, Inert l.toList) :
    Inert (", ".intercalate ls).toList := by
  induction ls with
  | nil => simp [Inert]
  | cons l ls ih =>
    have hl := h l List.mem_cons_self
    cases ls with
    | nil => simpa using hl
    | cons l' ls =>
      have hcomma : Inert ", ".toList := by decide
      rw [String.intercalate_cons_cons, String.toList_append, String.toList_append]
      exact (hl.append hcomma).append (ih fun l'' hl'' => h l'' (List.mem_cons_of_mem _ hl''))

/-- The comments on the parts of a block. -/
theorem isComment_block (blockId : ℕ) (part : String) {c : Char}
    (hlast : part.toList.getLast? = some c) (hc : isSpace c = false)
    (hpart : Inert part.toList) : IsComment ("// BLOCK 0x" ++ hex blockId ++ part) where
  text := by
    have hhead : Inert "BLOCK 0x".toList := by decide
    refine ⟨"BLOCK 0x".toList ++ ((hex blockId).toList ++ part.toList), ?_,
      hhead.append ((inert_hex blockId).append hpart), ?_⟩
    · rw [String.toList_append, String.toList_append, List.append_assoc]
      rfl
    · intro hpre
      have hfirst : 'E' = 'B' := (List.cons_prefix_cons.mp hpre).1
      exact absurd hfirst (by decide)
  last := by
    refine ⟨c, ?_, hc⟩
    rw [String.toList_append, List.getLast?_append, hlast, Option.some_or]

/-- A name with a parenthesis behind it does not start like an end marker: a blank would have to be
in the name. -/
theorem not_end_prefix (name : Ident) (rest : List Char) :
    ¬ ("END " ++ Writer.delimiter).toList <+: name.name.toList ++ '(' :: rest := by
  have hname := fun c hc => (name.ne_of_mem (c := c) hc).2.2.2.2
  intro hpre
  have hword : ['E', 'N', 'D', ' '] <+: name.name.toList ++ '(' :: rest :=
    (show ['E', 'N', 'D', ' '] <+: ("END " ++ Writer.delimiter).toList from ⟨_, rfl⟩).trans hpre
  rcases h : name.name.toList with _ | ⟨c₁, _ | ⟨c₂, _ | ⟨c₃, _ | ⟨c₄, cs⟩⟩⟩⟩
  · rw [h] at hword
    simp at hword
  · rw [h] at hword
    simp at hword
  · rw [h] at hword
    simp at hword
  · rw [h] at hword
    simp at hword
  · rw [h] at hword hname
    simp only [List.cons_append, List.cons_prefix_cons] at hword
    exact (hname c₄ (by simp)).1 hword.2.2.2.1.symm

/-- The comment on a record. -/
theorem isComment_str (m : Mem) : IsComment ("// " ++ m.str) where
  text := by
    obtain ⟨fields, hfields⟩ : ∃ fields, fields = (m.cls.fields.filter fun f =>
        m.val f.name ≠ 0).map fun f => f.name.name ++ "=" ++ toString (m.val f.name) := ⟨_, rfl⟩
    have hinert : Inert (", ".intercalate fields).toList := by
      apply inert_intercalate
      intro l hl
      rw [hfields] at hl
      rcases List.mem_map.mp hl with ⟨f, -, rfl⟩
      have hequals : Inert "=".toList := by decide
      rw [String.toList_append, String.toList_append]
      exact ((inert_ident _).append hequals).append (inert_toString _)
    have hstr : m.str.toList
        = m.cls.name.name.toList ++ '(' :: ((", ".intercalate fields).toList ++ [')']) := by
      unfold Mem.str
      rw [← hfields, String.toList_append, String.toList_append, String.toList_append,
        List.append_assoc, List.append_assoc]
      rfl
    have hopen : Inert ['('] := by decide
    have hclose : Inert [')'] := by decide
    refine ⟨m.str.toList, ?_, ?_, ?_⟩
    · rw [String.toList_append]
      rfl
    · rw [hstr]
      exact (inert_ident _).append (hopen.append (hinert.append hclose))
    · rw [hstr]
      exact not_end_prefix _ _
  last := by
    refine ⟨')', ?_, by decide⟩
    unfold Mem.str
    rw [String.toList_append, String.toList_append, List.getLast?_append, List.getLast?_append]
    rfl

/-! ## What is written -/

/-- From `w` to `w'` the words `ws` were written, and clean lines with their bytes. -/
structure Writer.Adds (w w' : Writer) (ws : List ℕ) : Prop where
  written_eq : w'.written = w.written ++ ws
  text : ∃ lines : List (List Char),
    w'.newCode.toList = w.newCode.toList ++ lines.flatMap (· ++ ['\n']) ∧
    lines.flatMap textBytes = ws.flatMap be32 ∧ ∀ l ∈ lines, CleanLine l

section Adds

variable {w w' w'' : Writer} {ws ws' : List ℕ}

theorem Writer.Adds.refl (w : Writer) : w.Adds w [] where
  written_eq := (List.append_nil _).symm
  text := ⟨[], (List.append_nil _).symm, rfl, by simp⟩

theorem Writer.Adds.trans (h : w.Adds w' ws) (h' : w'.Adds w'' ws') : w.Adds w'' (ws ++ ws') where
  written_eq := by rw [h'.written_eq, h.written_eq, List.append_assoc]
  text := by
    rcases h.text with ⟨lines, htext, hbytes, hclean⟩
    rcases h'.text with ⟨lines', htext', hbytes', hclean'⟩
    refine ⟨lines ++ lines', ?_, ?_, List.forall_mem_append.mpr ⟨hclean, hclean'⟩⟩
    · rw [htext', htext, List.flatMap_append, List.append_assoc]
    · rw [List.flatMap_append, List.flatMap_append, hbytes, hbytes']

/-- A line without words changes nothing about the words. -/
theorem Writer.Adds.trans_nil (h : w.Adds w' ws) (h' : w'.Adds w'' []) : w.Adds w'' ws := by
  rw [← List.append_nil ws]
  exact h.trans h'

theorem Writer.toList_addLine (w : Writer) (line : String) : (w.addLine line).newCode.toList =
    w.newCode.toList ++ ((if line ≠ "" then padding ++ strip line else "").toList ++ ['\n']) := by
  show (w.newCode ++ _ ++ "\n").toList = _
  rw [String.toList_append, String.toList_append, List.append_assoc]
  rfl

/-- A clean line without blanks at its ends is added as it is. -/
theorem Writer.addLine_text (w : Writer) {line : String} {c c' : Char}
    (hhead : line.toList.head? = some c) (hlast : line.toList.getLast? = some c')
    (hc : isSpace c = false) (hc' : isSpace c' = false)
    (hclean : CleanLine (padding.toList ++ line.toList)) :
    ∃ lines : List (List Char),
      (w.addLine line).newCode.toList = w.newCode.toList ++ lines.flatMap (· ++ ['\n']) ∧
      lines.flatMap textBytes = lineBytes (padding.toList ++ line.toList) ∧
      ∀ l ∈ lines, CleanLine l := by
  have hne : line ≠ "" := by
    intro h0
    rw [h0] at hhead
    cases hhead
  have hstrip : strip line = line := by
    apply strip_eq_self
    · intro d hd
      rw [← Option.some.inj (hhead.symm.trans hd), hc]
    · intro d hd
      rw [← Option.some.inj (hlast.symm.trans hd), hc']
  refine ⟨[padding.toList ++ line.toList], ?_, ?_, List.forall_mem_singleton.mpr hclean⟩
  · rw [toList_addLine, if_pos hne, hstrip, String.toList_append, List.flatMap_singleton]
  · rw [List.flatMap_singleton, textBytes_of_not_mem hclean.newline]

theorem Writer.addLine_comment (w : Writer) {line : String} (h : IsComment line) :
    w.Adds (w.addLine line) [] where
  written_eq := (List.append_nil _).symm
  text := by
    rcases h.text with ⟨l, hl, -, -⟩
    rcases h.last with ⟨c, hlast, hc⟩
    rcases addLine_text w (by rw [hl]; rfl) hlast (by decide) hc h.clean with
      ⟨lines, htext, hbytes, hclean⟩
    refine ⟨lines, htext, ?_, hclean⟩
    rw [hbytes, hl]
    rfl

theorem Writer.addLine_empty (w : Writer) : w.Adds (w.addLine "") [] where
  written_eq := (List.append_nil _).symm
  text := by
    have hnil : Inert [] := by decide
    exact ⟨[[]], toList_addLine w "", rfl, List.forall_mem_singleton.mpr hnil.clean⟩

theorem Writer.addWord_adds (w : Writer) (word : ℕ) : w.Adds (w.addWord word) [word] where
  written_eq := rfl
  text := by
    have hhead : (wordLine word).toList.head? = some '0' := by
      rw [toList_wordLine]
      rfl
    have hlast : (wordLine word).toList.getLast? = some ',' := by
      unfold wordLine
      rw [String.toList_append, List.getLast?_append]
      rfl
    have hpadding : Inert padding.toList := by decide
    rcases addLine_text { w with written := w.written ++ [word] } hhead hlast (by decide)
      (by decide) (hpadding.append (inert_wordLine word)).clean with ⟨lines, htext, hbytes, hclean⟩
    exact ⟨lines, htext, by rw [hbytes, lineBytes_wordLine, List.flatMap_singleton], hclean⟩

theorem Writer.addWords_adds (w : Writer) (words : List ℕ) : w.Adds (w.addWords words) words := by
  induction words generalizing w with
  | nil => exact Adds.refl w
  | cons word words ih => exact (addWord_adds w word).trans (ih (w.addWord word))

end Adds

/-! ## What a block and a configuration add -/

/-- The words of an entry. -/
def Item.words : Item → Except SymbolOverflow (List ℕ)
  | .mem m => m.toBytes
  | .word w => .ok [w]

/-- The words of the entries of a block, one after the other. -/
def payload : List Item → Except SymbolOverflow (List ℕ)
  | [] => .ok []
  | item :: records => do
    let ws ← item.words
    let rest ← payload records
    return ws ++ rest

/-- The ids of the blocks with their payloads. -/
def contents : List (ℕ × List Item) → Except SymbolOverflow (List (ℕ × List ℕ))
  | [] => .ok []
  | block :: blocks => do
    let ws ← payload block.2
    let rest ← contents blocks
    return (block.1, ws) :: rest

/-- The words of a block: header, payload, and the checksum of the payload. -/
def blockWords (block : ℕ × List ℕ) : List ℕ :=
  header block.1 block.2.length ++ block.2 ++ [crc32 block.2]

section Generate

variable {records : List Item} {ps : List ℕ}

/-- The first pass over a block counts the words that the second one writes. -/
theorem foldlM_addSize (h : payload records = .ok ps) (size : ℕ) :
    records.foldlM addSize size = .ok (size + ps.length) := by
  induction records generalizing ps size with
  | nil =>
    obtain rfl := Except.ok.inj h
    rfl
  | cons item records ih =>
    rcases Run.bind_eq_ok.mp h with ⟨ws, hws, h⟩
    rcases Run.bind_eq_ok.mp h with ⟨rest, hrest, h⟩
    obtain rfl := Except.ok.inj h
    have hstep : addSize size item = .ok (size + ws.length) := by
      cases item with
      | mem m =>
        show (m.toBytes >>= _) = _
        rw [show m.toBytes = .ok ws from hws]
        rfl
      | word w =>
        obtain rfl := Except.ok.inj hws
        rfl
    rw [List.foldlM_cons, hstep, List.length_append, ← Nat.add_assoc]
    exact ih hrest (size + ws.length)

theorem Writer.addItem_adds {item : Item} {ws : List ℕ} (h : item.words = .ok ws) (w : Writer)
    (acc : List ℕ) : ∃ w', addItem (w, acc) item = .ok (w', acc ++ ws) ∧ w.Adds w' ws := by
  cases item with
  | mem m =>
    refine ⟨(w.addLine ("// " ++ m.str)).addWords ws, ?_, ?_⟩
    · show (m.toBytes >>= _) = _
      rw [show m.toBytes = .ok ws from h]
      rfl
    · exact (addLine_comment w (isComment_str m)).trans (addWords_adds _ ws)
  | word word =>
    obtain rfl := Except.ok.inj h
    exact ⟨w.addWord word, rfl, addWord_adds w word⟩

/-- The second pass writes the payload and collects it. -/
theorem Writer.foldlM_addItem (h : payload records = .ok ps) (w : Writer) (acc : List ℕ) :
    ∃ w', records.foldlM addItem (w, acc) = .ok (w', acc ++ ps) ∧ w.Adds w' ps := by
  induction records generalizing ps w acc with
  | nil =>
    obtain rfl := Except.ok.inj h
    exact ⟨w, by rw [List.append_nil]; rfl, Adds.refl w⟩
  | cons item records ih =>
    rcases Run.bind_eq_ok.mp h with ⟨ws, hws, h⟩
    rcases Run.bind_eq_ok.mp h with ⟨rest, hrest, h⟩
    obtain rfl := Except.ok.inj h
    rcases addItem_adds hws w acc with ⟨w₁, hstep, hadds⟩
    rcases ih hrest w₁ (acc ++ ws) with ⟨w₂, hrun, hadds'⟩
    refine ⟨w₂, ?_, hadds.trans hadds'⟩
    rw [List.foldlM_cons, hstep, ← List.append_assoc]
    exact hrun

theorem Writer.addBlock_adds (blockId : ℕ) (h : payload records = .ok ps) (w : Writer) :
    ∃ w', w.addBlock (blockId, records) = .ok w' ∧ w.Adds w' (blockWords (blockId, ps)) := by
  have hsize := foldlM_addSize h 0
  rw [Nat.zero_add] at hsize
  set w₁ := w.addLine ("// BLOCK 0x" ++ hex blockId ++ " HEADER") with hw₁
  set w₂ := w₁.addWords (header blockId ps.length) with hw₂
  set w₃ := w₂.addLine ("// BLOCK 0x" ++ hex blockId ++ " PAYLOAD") with hw₃
  rcases foldlM_addItem h w₃ [] with ⟨w₄, hitems, hadds⟩
  set w₅ := w₄.addLine ("// BLOCK 0x" ++ hex blockId ++ " CRC") with hw₅
  refine ⟨(w₅.addWord (crc32 ps)).addLine "", ?_, ?_⟩
  · show (records.foldlM addSize 0 >>= _) = _
    rw [hsize]
    show (records.foldlM addItem (w₃, []) >>= _) = _
    rw [hitems]
    rfl
  · have hheader : w.Adds w₃ (header blockId ps.length) := by
      have h₁ := addLine_comment w (isComment_block blockId " HEADER" rfl (by decide) (by decide))
      exact (h₁.trans (addWords_adds w₁ _)).trans_nil
        (addLine_comment w₂ (isComment_block blockId " PAYLOAD" rfl (by decide) (by decide)))
    have hcrc : w₄.Adds ((w₅.addWord (crc32 ps)).addLine "") [crc32 ps] := by
      have h₅ := addLine_comment w₄ (isComment_block blockId " CRC" rfl (by decide) (by decide))
      exact (h₅.trans (addWord_adds w₅ _)).trans_nil (addLine_empty _)
    exact (hheader.trans hadds).trans hcrc

theorem Writer.foldlM_addBlock {blocks : List (ℕ × List Item)} {cs : List (ℕ × List ℕ)}
    (h : contents blocks = .ok cs) (w : Writer) :
    ∃ w', blocks.foldlM addBlock w = .ok w' ∧ w.Adds w' (cs.flatMap blockWords) := by
  induction blocks generalizing cs w with
  | nil =>
    obtain rfl := Except.ok.inj h
    exact ⟨w, rfl, Adds.refl w⟩
  | cons block blocks ih =>
    rcases Run.bind_eq_ok.mp h with ⟨ps, hps, h⟩
    rcases Run.bind_eq_ok.mp h with ⟨rest, hrest, h⟩
    obtain rfl := Except.ok.inj h
    rcases addBlock_adds block.1 hps w with ⟨w₁, hstep, hadds⟩
    rcases ih hrest w₁ with ⟨w₂, hrun, hadds'⟩
    refine ⟨w₂, ?_, hadds.trans hadds'⟩
    rw [List.foldlM_cons, hstep]
    exact hrun

/-- The words in front of the total checksum. -/
def imageWords (cs : List (ℕ × List ℕ)) : List ℕ :=
  Writer.deviceId :: cs.flatMap blockWords ++ [0, 0]

/-- What `write` writes. -/
theorem Writer.generate_adds {blocks : Blocks} {cs : List (ℕ × List ℕ)}
    (h : contents blocks.items = .ok cs) :
    ∃ w, init.generate blocks = .ok w ∧
      init.Adds w (imageWords cs ++ [crc32 (imageWords cs)]) := by
  rcases foldlM_addBlock h (init.addWord deviceId) with ⟨w₁, hblocks, hadds⟩
  set w₂ := (w₁.addLine "// TOTAL CRC").addWords [0, 0] with hw₂
  have himage : init.Adds w₂ (imageWords cs) := by
    have htotal : IsComment "// TOTAL CRC" :=
      ⟨⟨"TOTAL CRC".toList, rfl, by decide, by decide⟩, ⟨'C', rfl, by decide⟩⟩
    exact (((addWord_adds init deviceId).trans hadds).trans_nil (addLine_comment w₁ htotal)).trans
      (addWords_adds _ [0, 0])
  have hwritten : w₂.written = imageWords cs := himage.written_eq
  refine ⟨w₂.addWord (crc32 w₂.written), ?_, ?_⟩
  · show (blocks.items.foldlM addBlock (init.addWord deviceId) >>= _) = _
    rw [hblocks]
    rfl
  · rw [hwritten]
    exact himage.trans (addWord_adds w₂ _)

/-- The bytes in the text are those of the words. -/
theorem Writer.Adds.textBytes_eq {w : Writer} {ws : List ℕ} (h : init.Adds w ws) :
    textBytes w.newCode.toList = w.written.flatMap be32 := by
  have hlines : ∀ lines : List (List Char),
      textBytes (lines.flatMap (· ++ ['\n'])) = lines.flatMap textBytes := by
    intro lines
    induction lines with
    | nil => rfl
    | cons line lines ih =>
      rw [List.flatMap_cons, List.append_assoc, List.singleton_append, textBytes_append_newline, ih,
        List.flatMap_cons]
  rcases h.text with ⟨lines, htext, hbytes, -⟩
  rw [htext, h.written_eq]
  show textBytes (lines.flatMap (· ++ ['\n'])) = ws.flatMap be32
  rw [hlines, hbytes]

end Generate

end Cannelloni.SwitchConfig
