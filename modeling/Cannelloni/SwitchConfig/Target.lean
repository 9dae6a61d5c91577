import Cannelloni.Lib.Markers
import Cannelloni.SwitchConfig.Parse

/-!
# Writing to the target file

`Writer.write` of `gen_switch_config.py` with the file it edits. The text is generated before the
file is opened. The file is opened as text: every kind of line end is read as `\n`. A `\n` is
written as it is, as on systems whose `os.linesep` it is.
-/

namespace Cannelloni.SwitchConfig

/-! ## The code -/

/-- Universal newlines: `\r\n` and `\r` are read as `\n`. -/
def readText : List Char → List Char
  | '\r' :: '\n' :: cs => '\n' :: readText cs
  | '\r' :: cs => '\n' :: readText cs
  | c :: cs => c :: readText cs
  | [] => []

/-- What `re.sub` takes a replacement for: itself, unless a backslash starts an escape. -/
def template (repl : List Char) : Option (List Char) := if '\\' ∈ repl then none else some repl

inductive WriteError
  | overflow (e : SymbolOverflow)
  | escape

/-- `re.sub` with the pattern `begin(.*?)end`. -/
def reSub (repl code : List Char) : List Char :=
  Markers.replaceAll Writer.beginMarker.toList Writer.endMarker.toList repl code

/-- `write`: the exception it raises, if any, and the file afterwards. -/
def Writer.write (w : Writer) (blocks : Blocks) (file : List Char) :
    Except WriteError Unit × List Char :=
  match w.generate blocks with
  | .error e => (.error (.overflow e), file)
  | .ok w =>
    match template (beginMarker ++ "\n" ++ w.newCode ++ padding ++ endMarker).toList with
    | none => (.error .escape, file)
    | some repl => (.ok (), reSub repl (readText file))

/-! ## Line ends -/

theorem not_mem_readText (cs : List Char) : '\r' ∉ readText cs := by
  induction cs using readText.induct with
  | case1 cs ih => simpa [readText] using ih
  | case2 cs hne ih =>
    rw [readText]
    · simpa using ih
    · exact hne
  | case3 c cs hpair hreturn ih =>
    rw [readText]
    · simp only [List.mem_cons, not_or]
      exact ⟨fun heq => hreturn heq.symm, ih⟩
    · exact hpair
    · exact hreturn
  | case4 => simp [readText]

theorem readText_eq_self {cs : List Char} (h : '\r' ∉ cs) : readText cs = cs := by
  induction cs using readText.induct with
  | case1 cs ih => simp at h
  | case2 cs hne ih => simp at h
  | case3 c cs hpair hreturn ih =>
    rw [readText]
    · rw [ih fun hmem => h (List.mem_cons_of_mem c hmem)]
    · exact hpair
    · exact hreturn
  | case4 => rfl

/-! ## Generating -/

/-- Every record of the blocks is in range. -/
def Blocks.InRange (blocks : Blocks) : Prop :=
  ∀ block ∈ blocks.items, ∀ m, Item.mem m ∈ block.2 → m.InRange

theorem payload_of_inRange {records : List Item} (h : ∀ m, Item.mem m ∈ records → m.InRange) :
    ∃ ps, payload records = .ok ps := by
  induction records with
  | nil => exact ⟨[], rfl⟩
  | cons item records ih =>
    rcases ih fun m hm => h m (List.mem_cons_of_mem item hm) with ⟨ps, hps⟩
    obtain ⟨ws, hws⟩ : ∃ ws, item.words = .ok ws := by
      cases item with
      | mem m => exact ⟨_, Mem.toBytes_eq (h m List.mem_cons_self)⟩
      | word w => exact ⟨[w], rfl⟩
    exact ⟨ws ++ ps, Run.bind_eq_ok.mpr ⟨ws, hws, Run.bind_eq_ok.mpr ⟨ps, hps, rfl⟩⟩⟩

theorem contents_of_inRange {blocks : List (ℕ × List Item)}
    (h : ∀ block ∈ blocks, ∀ m, Item.mem m ∈ block.2 → m.InRange) :
    ∃ cs, contents blocks = .ok cs := by
  induction blocks with
  | nil => exact ⟨[], rfl⟩
  | cons block blocks ih =>
    rcases ih fun b hb => h b (List.mem_cons_of_mem block hb) with ⟨cs, hcs⟩
    rcases payload_of_inRange (h block List.mem_cons_self) with ⟨ps, hps⟩
    exact ⟨(block.1, ps) :: cs, Run.bind_eq_ok.mpr ⟨ps, hps, Run.bind_eq_ok.mpr ⟨cs, hcs, rfl⟩⟩⟩

/-- A record out of range stops the loop that computes the size of its block. -/
theorem addSize_error {m : Mem} (h : ¬ m.InRange) (size : ℕ) :
    ∃ e, addSize size (.mem m) = .error e := by
  obtain ⟨e, he⟩ : ∃ e, m.toBytes = .error e := by
    rcases Mem.toBytes_error h with ⟨f, -, -, he⟩
    exact ⟨_, he⟩
  refine ⟨e, ?_⟩
  show (m.toBytes >>= _) = _
  rw [he]
  rfl

theorem Writer.addBlock_error {block : ℕ × List Item} {m : Mem} (hm : Item.mem m ∈ block.2)
    (h : ¬ m.InRange) (w : Writer) : ∃ e, w.addBlock block = .error e := by
  rcases Run.foldlM_error hm (addSize_error h) 0 with ⟨e, he⟩
  refine ⟨e, ?_⟩
  show (block.2.foldlM addSize 0 >>= _) = _
  rw [he]
  rfl

/-- A record out of range in any block, and no text is generated. -/
theorem Writer.generate_error {blocks : Blocks} (h : ¬ blocks.InRange) (w : Writer) :
    ∃ e, w.generate blocks = .error e := by
  simp only [Blocks.InRange, not_forall] at h
  rcases h with ⟨block, hblock, m, hm, hout⟩
  rcases Run.foldlM_error hblock (addBlock_error hm hout) (w.addWord deviceId) with ⟨e, he⟩
  refine ⟨e, ?_⟩
  show (blocks.items.foldlM addBlock (w.addWord deviceId) >>= _) = _
  rw [he]
  rfl

/-- Otherwise the text is clean lines. -/
theorem Writer.generate_clean {blocks : Blocks} (h : blocks.InRange) :
    ∃ w, init.generate blocks = .ok w ∧ ∃ lines : List (List Char),
      w.newCode.toList = lines.flatMap (· ++ ['\n']) ∧ ∀ l ∈ lines, CleanLine l := by
  rcases contents_of_inRange h with ⟨cs, hcs⟩
  rcases generate_adds hcs with ⟨w, hw, hadds⟩
  rcases hadds.text with ⟨lines, htext, -, hclean⟩
  exact ⟨w, hw, lines, htext, hclean⟩

/-! ## The region -/

/-- What stands between the markers afterwards. -/
def Writer.region (w : Writer) : List Char :=
  '\n' :: (w.newCode.toList ++ padding.toList)

section Lines

variable {lines : List (List Char)}

/-- The end marker is not in clean lines, and does not start in them. -/
theorem first_lines (h : ∀ l ∈ lines, CleanLine l) :
    Markers.First Writer.endMarker.toList
      (lines.flatMap (· ++ ['\n']) ++ Writer.padding.toList) := by
  induction lines with
  | nil =>
    show ∀ k < 4, _
    decide
  | cons l lines ih =>
    have hrest := ih fun l' hl' => h l' (List.mem_cons_of_mem l hl')
    rw [List.flatMap_cons, List.append_assoc, List.append_assoc, List.singleton_append]
    exact hrest.line (by decide) (h l List.mem_cons_self).marker

/-- What is not in the lines is not in the region, apart from line ends and padding. -/
theorem Writer.not_mem_region {w : Writer} {c : Char} (hc : c ≠ '\n')
    (hpadding : c ∉ padding.toList) (htext : w.newCode.toList = lines.flatMap (· ++ ['\n']))
    (h : ∀ l ∈ lines, c ∉ l) : c ∉ w.region := by
  unfold region
  rw [htext, List.mem_cons, List.mem_append, List.mem_flatMap]
  intro hmem
  rcases hmem with heq | ⟨l, hl, hcl⟩ | hin
  · exact hc heq
  · rcases List.mem_append.mp hcl with hcl | hcl
    · exact h l hl hcl
    · exact hc (List.mem_singleton.mp hcl)
  · exact hpadding hin

end Lines

/-- The region has no end marker, and nothing in it that a template or the next reading of the file
would change. -/
structure Writer.PlainRegion (w : Writer) : Prop where
  marker : Markers.First endMarker.toList w.region
  backslash : '\\' ∉ w.region
  carriageReturn : '\r' ∉ w.region

theorem Writer.generate_plainRegion {blocks : Blocks} (h : blocks.InRange) :
    ∃ w, init.generate blocks = .ok w ∧ w.PlainRegion := by
  rcases generate_clean h with ⟨w, hw, lines, htext, hclean⟩
  refine ⟨w, hw, ?_, ?_, ?_⟩
  · have hempty : ¬ endMarker.toList <:+: [] := by
      intro hin
      exact absurd (List.infix_nil.mp hin) (by decide)
    have hnewline : '\n' ∉ endMarker.toList := by decide
    unfold region
    rw [htext]
    exact (first_lines hclean).line hnewline hempty
  · exact not_mem_region (by decide) (by decide) htext fun l hl => (hclean l hl).backslash
  · exact not_mem_region (by decide) (by decide) htext fun l hl => (hclean l hl).carriageReturn

/-- What a region becomes: the marker, the generated lines and the end marker. -/
def Writer.replacement (w : Writer) : List Char :=
  beginMarker.toList ++ (w.region ++ endMarker.toList)

section Write

variable {blocks : Blocks} {w : Writer}

/-- A generated text that a template leaves alone is what is put into the file. -/
theorem Writer.write_eq (hw : init.generate blocks = .ok w) (h : w.PlainRegion)
    (file : List Char) :
    init.write blocks file = (.ok (), reSub w.replacement (readText file)) := by
  have hrepl : (beginMarker ++ "\n" ++ w.newCode ++ padding ++ endMarker).toList
      = w.replacement := by
    have hnewline : "\n".toList = ['\n'] := rfl
    simp only [String.toList_append, hnewline, replacement, region, List.append_assoc,
      List.cons_append, List.nil_append]
  have hnot : '\\' ∉ w.replacement := by
    unfold replacement
    rw [List.mem_append, List.mem_append, not_or, not_or]
    exact ⟨by decide, h.backslash, by decide⟩
  have htemplate : template w.replacement = some w.replacement := if_neg hnot
  unfold write
  rw [hw]
  dsimp only
  rw [hrepl, htemplate]

theorem beginMarker_ne_nil : Writer.beginMarker.toList ≠ [] := by decide

theorem exists_cut_readText (file : List Char) : ∃ c : Markers.Cut Char,
    c.Leftmost Writer.beginMarker.toList Writer.endMarker.toList ∧
      c.text Writer.beginMarker.toList Writer.endMarker.toList = readText file :=
  Markers.exists_cut beginMarker_ne_nil _

/-- The file afterwards is the one before, with other contents of its regions. -/
theorem reSub_text {c : Markers.Cut Char}
    (hc : c.Leftmost Writer.beginMarker.toList Writer.endMarker.toList) :
    reSub w.replacement (c.text Writer.beginMarker.toList Writer.endMarker.toList)
      = (c.fill w.region).text Writer.beginMarker.toList Writer.endMarker.toList :=
  Markers.replaceAll_text beginMarker_ne_nil hc

/-- There is no carriage return in the file afterwards. -/
theorem not_mem_reSub (h : w.PlainRegion) (file : List Char) :
    '\r' ∉ reSub w.replacement (readText file) := by
  rcases exists_cut_readText file with ⟨c, hc, htext⟩
  rw [← htext, reSub_text hc]
  intro hmem
  rcases Markers.Cut.mem_text_fill hmem with hin | hin | hin | hin
  · rw [htext] at hin
    exact not_mem_readText file hin
  · exact absurd hin (by decide)
  · exact h.carriageReturn hin
  · exact absurd hin (by decide)

/-- Writing the same text into the file again changes nothing. -/
theorem Writer.write_idem (hw : init.generate blocks = .ok w) (h : w.PlainRegion)
    (file : List Char) :
    init.write blocks (init.write blocks file).2 = init.write blocks file := by
  rw [write_eq hw h file, write_eq hw h, readText_eq_self (not_mem_reSub h file)]
  exact congrArg (Prod.mk _) (Markers.replaceAll_idem beginMarker_ne_nil h.marker (readText file))

end Write

/-- Writing is all or nothing: a record out of range leaves the file as it was, and otherwise the
regions, and only they, get the generated text. Writing again changes nothing. Line ends are read
as `\n` in either case. -/
theorem write_regions (blocks : Blocks) (file : List Char) :
    (¬ blocks.InRange → ∃ e, Writer.init.write blocks file = (.error (.overflow e), file)) ∧
    (blocks.InRange → ∃ (w : Writer) (c : Markers.Cut Char),
      Writer.init.generate blocks = .ok w ∧
      c.Leftmost Writer.beginMarker.toList Writer.endMarker.toList ∧
      c.text Writer.beginMarker.toList Writer.endMarker.toList = readText file ∧
      Writer.init.write blocks file = (.ok (),
        (c.fill w.region).text Writer.beginMarker.toList Writer.endMarker.toList) ∧
      (Markers.NoPair Writer.beginMarker.toList Writer.endMarker.toList (readText file) →
        (Writer.init.write blocks file).2 = readText file) ∧
      Writer.init.write blocks (Writer.init.write blocks file).2
        = Writer.init.write blocks file) ∧
    ('\r' ∉ file → readText file = file) := by
  refine ⟨?_, ?_, readText_eq_self⟩
  · intro hout
    rcases Writer.generate_error hout Writer.init with ⟨e, he⟩
    refine ⟨e, ?_⟩
    unfold Writer.write
    rw [he]
  · intro hin
    rcases Writer.generate_plainRegion hin with ⟨w, hw, hplain⟩
    rcases exists_cut_readText file with ⟨c, hc, htext⟩
    have hwrite := Writer.write_eq hw hplain file
    refine ⟨w, c, hw, hc, htext, ?_, ?_, Writer.write_idem hw hplain file⟩
    · rw [hwrite, ← htext, reSub_text hc]
    · intro hnone
      rw [hwrite]
      exact Markers.sub_of_noPair hnone _

/-- A file without markers is changed where it has other line ends than `\n`. -/
theorem write_carriageReturn : ¬ ∀ (blocks : Blocks) (file : List Char), blocks.InRange →
    Markers.NoPair Writer.beginMarker.toList Writer.endMarker.toList file →
    (Writer.init.write blocks file).2 = file := by
  intro h
  have hnone : Markers.NoPair Writer.beginMarker.toList Writer.endMarker.toList ['\r', '\n'] := by
    intro pre body post heq
    have hlen := congrArg List.length heq
    rw [List.length_append, List.length_append] at hlen
    have hmarker : Writer.beginMarker.toList.length = 22 := by decide
    have htwo : ['\r', '\n'].length = 2 := rfl
    omega
  have hfile := h ⟨[], List.nodup_nil⟩ ['\r', '\n'] (by simp [Blocks.InRange]) hnone
  revert hfile
  decide +kernel

end Cannelloni.SwitchConfig
