import Mathlib.Data.List.Basic
import Mathlib.Data.List.Infix
import Mathlib.Tactic.Common

/-!
# Replacing the regions between two markers

Substitution for the pattern `opening(.*?)closing`: the text is searched from the left, a match
goes from an opening marker to the next closing one, and the search goes on behind it. A `Cut` is
a text taken apart into the regions that are found; `replaceAll_text` says what the substitution
makes of it, and `replaceAll_idem` that a second one finds the same regions.
-/

namespace Markers

variable {α : Type*}

/-! ## First occurrences -/

/-- The first occurrence of the pattern in `pre ++ pat` is the one at the end. -/
def First (pat pre : List α) : Prop := ∀ k < pre.length, ¬ pat <+: (pre ++ pat).drop k

/-- There is no opening marker with a closing one behind it. -/
def NoPair (opening closing text : List α) : Prop :=
  ∀ pre body post, text ≠ pre ++ (opening ++ (body ++ (closing ++ post)))

variable {opening closing pat pre body s : List α}

/-- What follows the pattern makes no difference. -/
theorem First.not_prefix (h : First pat pre) {k : ℕ} (hk : k < pre.length) (rest : List α) :
    ¬ pat <+: (pre ++ (pat ++ rest)).drop k := by
  intro hpre
  apply h k hk
  have hdrop : (pre ++ (pat ++ rest)).drop k = (pre ++ pat).drop k ++ rest := by
    rw [← List.append_assoc, List.drop_append_of_le_length]
    rw [List.length_append]
    omega
  rw [hdrop] at hpre
  apply List.prefix_of_prefix_length_le hpre (List.prefix_append _ _)
  rw [List.length_drop, List.length_append]
  omega

theorem First.nil (pat : List α) : First pat [] := fun k hk => absurd hk (Nat.not_lt_zero k)

theorem First.of_cons {c : α} (h : First pat (c :: pre)) : First pat pre := by
  intro k hk
  exact h (k + 1) (Nat.succ_lt_succ hk)

theorem First.cons {c : α} (h : First pat pre) (hc : ¬ pat <+: c :: (pre ++ pat)) :
    First pat (c :: pre) := by
  intro k hk
  cases k with
  | zero => exact hc
  | succ k => exact h k (Nat.lt_of_succ_lt_succ hk)

/-- A pattern without the separator is not first met in a line that does not have it. -/
theorem First.line {line : List α} {sep : α} (h : First pat pre) (hsep : sep ∉ pat)
    (hline : ¬ pat <:+: line) : First pat (line ++ sep :: pre) := by
  induction line with
  | nil =>
    refine h.cons ?_
    intro hpre
    rcases pat with _ | ⟨p, pat⟩
    · exact hline (List.infix_refl [])
    · rcases List.cons_prefix_cons.mp hpre with ⟨rfl, -⟩
      exact hsep List.mem_cons_self
  | cons c line ih =>
    have htail : ¬ pat <:+: line := fun hin => hline (hin.trans (List.suffix_cons c line).isInfix)
    refine (ih htail).cons ?_
    intro hpre
    have hassoc : c :: (line ++ sep :: pre ++ pat) = (c :: line) ++ sep :: (pre ++ pat) := by
      simp
    have hpre' : pat <+: (c :: line) ++ sep :: (pre ++ pat) := hassoc ▸ hpre
    -- the occurrence would be in the line or reach the separator
    by_cases hlen : pat.length ≤ (c :: line).length
    · have hprefix : pat <+: c :: line :=
        List.prefix_of_prefix_length_le hpre' (List.prefix_append _ _) hlen
      exact hline hprefix.isInfix
    · rcases hpre' with ⟨t, ht⟩
      apply hsep
      have hget : (pat ++ t)[(c :: line).length]? = some sep := by
        rw [ht, List.getElem?_append_right le_rfl]
        simp
      rw [List.getElem?_append_left (by omega)] at hget
      exact List.mem_of_getElem? hget

/-! ## Cuts -/

/-- A text taken apart: regions between markers, each with what is in front of it, and the end. -/
structure Cut (α : Type*) where
  regions : List (List α × List α)
  last : List α

/-- The text that was taken apart. -/
def Cut.text (opening closing : List α) (c : Cut α) : List α :=
  c.regions.flatMap (fun r => r.1 ++ (opening ++ (r.2 ++ closing))) ++ c.last

/-- The same cut with other contents of the regions. -/
def Cut.fill (mid : List α) (c : Cut α) : Cut α := ⟨c.regions.map fun r => (r.1, mid), c.last⟩

/-- The regions are those that are found from the left, each as short as it can be. -/
structure Cut.Leftmost (opening closing : List α) (c : Cut α) : Prop where
  before : ∀ r ∈ c.regions, First opening r.1
  shortest : ∀ r ∈ c.regions, First closing r.2
  last : NoPair opening closing c.last

variable {c : Cut α} {mid repl : List α}

/-- Other contents do not move the regions, unless they have a closing marker. -/
theorem Cut.Leftmost.fill (h : c.Leftmost opening closing) (hmid : First closing mid) :
    (c.fill mid).Leftmost opening closing where
  before := by
    intro r hr
    rcases List.mem_map.mp hr with ⟨r', hr', rfl⟩
    exact h.before r' hr'
  shortest := by
    intro r hr
    rcases List.mem_map.mp hr with ⟨r', -, rfl⟩
    exact hmid
  last := h.last

theorem Cut.text_fill (c : Cut α) : (c.fill mid).text opening closing
    = c.regions.flatMap (fun r => r.1 ++ (opening ++ (mid ++ closing))) ++ c.last := by
  unfold text fill
  rw [List.flatMap_map]

/-- What is in a text with other contents was in the text or is in them. -/
theorem Cut.mem_text_fill {x : α} (h : x ∈ (c.fill mid).text opening closing) :
    x ∈ c.text opening closing ∨ x ∈ opening ∨ x ∈ mid ∨ x ∈ closing := by
  rw [text_fill, List.mem_append, List.mem_flatMap] at h
  rw [text, List.mem_append, List.mem_flatMap]
  rcases h with ⟨r, hr, hx⟩ | hx
  · rcases List.mem_append.mp hx with hx | hx
    · exact .inl (.inl ⟨r, hr, List.mem_append_left _ hx⟩)
    · rcases List.mem_append.mp hx with hx | hx
      · exact .inr (.inl hx)
      · exact .inr (.inr (List.mem_append.mp hx))
  · exact .inl (.inr hx)

section Replace

variable [DecidableEq α]

/-! ## Searching -/

/-- The shortest part in front of a pattern, and what is behind the pattern. -/
def upTo (pat : List α) : List α → Option (List α × List α)
  | [] => if pat.isPrefixOf [] then some ([], []) else none
  | c :: cs =>
    if pat.isPrefixOf (c :: cs) then some ([], (c :: cs).drop pat.length)
    else (upTo pat cs).map fun r => (c :: r.1, r.2)

/-- What is behind a match at the beginning of the text. -/
def matchAt (opening closing text : List α) : Option (List α) :=
  if opening.isPrefixOf text then (upTo closing (text.drop opening.length)).map Prod.snd else none

/-- Replace every match, from the left. A pass takes a match or a character. -/
def sub (opening closing repl : List α) : ℕ → List α → List α
  | 0, text => text
  | passes + 1, text =>
    match matchAt opening closing text with
    | some rest => repl ++ sub opening closing repl passes rest
    | none =>
      match text with
      | [] => []
      | c :: cs => c :: sub opening closing repl passes cs

/-- Replace every match. -/
def replaceAll (opening closing repl text : List α) : List α :=
  sub opening closing repl text.length text

theorem upTo_of_prefix (h : pat <+: s) : upTo pat s = some ([], s.drop pat.length) := by
  have htrue := List.isPrefixOf_iff_prefix.mpr h
  cases s with
  | nil => rw [upTo, if_pos htrue, List.drop_nil]
  | cons c cs => rw [upTo, if_pos htrue]

/-- The search stops at the first occurrence. -/
theorem upTo_first (h : First pat pre) (rest : List α) :
    upTo pat (pre ++ (pat ++ rest)) = some (pre, rest) := by
  induction pre with
  | nil => rw [List.nil_append, upTo_of_prefix (List.prefix_append _ _), List.drop_left]
  | cons c pre ih =>
    have hnot : ¬ pat <+: c :: (pre ++ (pat ++ rest)) := h.not_prefix (Nat.succ_pos _) rest
    rw [List.cons_append, upTo, if_neg (mt List.isPrefixOf_iff_prefix.mp hnot), ih h.of_cons]
    rfl

theorem first_of_upTo {rest : List α} (h : upTo pat s = some (pre, rest)) :
    s = pre ++ (pat ++ rest) ∧ First pat pre := by
  induction s generalizing pre with
  | nil =>
    unfold upTo at h
    split at h
    · next hpre =>
      rcases Prod.mk.inj (Option.some.inj h) with ⟨rfl, rfl⟩
      have hnil : pat = [] := List.prefix_nil.mp (List.isPrefixOf_iff_prefix.mp hpre)
      rw [hnil]
      exact ⟨rfl, First.nil _⟩
    · cases h
  | cons c cs ih =>
    unfold upTo at h
    split at h
    · next hpre =>
      rcases Prod.mk.inj (Option.some.inj h) with ⟨rfl, rfl⟩
      exact ⟨List.prefix_iff_eq_append.mp (List.isPrefixOf_iff_prefix.mp hpre) |>.symm,
        First.nil _⟩
    · next hpre =>
      rcases Option.map_eq_some_iff.mp h with ⟨r, hr, heq⟩
      rcases Prod.mk.inj heq with ⟨rfl, rfl⟩
      rcases ih hr with ⟨hs, hfirst⟩
      refine ⟨by rw [hs]; rfl, ?_⟩
      apply hfirst.cons
      intro hprefix
      apply hpre
      rw [List.isPrefixOf_iff_prefix, hs, ← List.append_assoc, ← List.cons_append]
      exact hprefix.trans (List.prefix_append _ _)

theorem upTo_eq_none (h : upTo pat s = none) : ¬ pat <:+: s := by
  induction s with
  | nil =>
    unfold upTo at h
    intro hin
    rw [List.infix_nil.mp hin] at h
    cases h
  | cons c cs ih =>
    unfold upTo at h
    split at h
    · cases h
    · next hpre =>
      intro hin
      rcases List.infix_cons_iff.mp hin with hprefix | htail
      · exact hpre (List.isPrefixOf_iff_prefix.mpr hprefix)
      · exact ih (Option.map_eq_none_iff.mp h) htail

theorem pair_of_matchAt {rest : List α} (h : matchAt opening closing s = some rest) :
    ∃ body, s = opening ++ (body ++ (closing ++ rest)) := by
  unfold matchAt at h
  split at h
  · next hpre =>
    rcases Option.map_eq_some_iff.mp h with ⟨r, hr, rfl⟩
    refine ⟨r.1, ?_⟩
    rw [← (first_of_upTo hr).1]
    exact List.prefix_iff_eq_append.mp (List.isPrefixOf_iff_prefix.mp hpre) |>.symm
  · cases h

/-- Every text can be taken apart. -/
theorem exists_cut (hopening : opening ≠ []) (text : List α) :
    ∃ c : Cut α, c.Leftmost opening closing ∧ c.text opening closing = text := by
  classical
  obtain ⟨n, hn⟩ : ∃ n, text.length = n := ⟨_, rfl⟩
  induction n using Nat.strong_induction_on generalizing text with
  | _ n ih =>
    by_cases hpair : NoPair opening closing text
    · exact ⟨⟨[], text⟩, ⟨by simp, by simp, hpair⟩, rfl⟩
    · simp only [NoPair, ne_eq, not_forall, not_not] at hpair
      rcases hpair with ⟨p, b, q, htext⟩
      have hin : opening <:+: text := ⟨p, b ++ (closing ++ q), by rw [htext, List.append_assoc]⟩
      rcases hopen : upTo opening text with _ | ⟨pre, rest⟩
      · exact absurd hin (upTo_eq_none hopen)
      · rcases first_of_upTo hopen with ⟨hsplit, hfirst⟩
        -- the first opening marker is not behind the one of the pair
        have hle : pre.length ≤ p.length := by
          by_contra hlt
          apply hfirst.not_prefix (Nat.lt_of_not_le hlt) rest
          rw [← hsplit, htext, List.drop_left]
          exact List.prefix_append _ _
        have hrest : rest = text.drop (pre ++ opening).length := by
          rw [hsplit, ← List.append_assoc, List.drop_left]
        have hclose : closing <:+: rest := by
          have hassoc : text = (p ++ opening ++ b) ++ (closing ++ q) := by
            rw [htext, List.append_assoc, List.append_assoc]
          rw [hrest, hassoc, List.drop_append_of_le_length (by simp; omega)]
          exact ⟨_, q, List.append_assoc _ _ _⟩
        rcases hbody : upTo closing rest with _ | ⟨body, post⟩
        · exact absurd hclose (upTo_eq_none hbody)
        · rcases first_of_upTo hbody with ⟨hsplit', hfirst'⟩
          have hpos := List.length_pos_of_ne_nil hopening
          have hlen : post.length < n := by
            rw [← hn, hsplit, hsplit']
            simp only [List.length_append]
            omega
          rcases ih post.length hlen post rfl with ⟨c, hc, hcut⟩
          refine ⟨⟨(pre, body) :: c.regions, c.last⟩, ⟨?_, ?_, hc.last⟩, ?_⟩
          · exact List.forall_mem_cons.mpr ⟨hfirst, hc.before⟩
          · exact List.forall_mem_cons.mpr ⟨hfirst', hc.shortest⟩
          · rw [hsplit, hsplit', ← hcut]
            simp [Cut.text]

/-! ## Replacing -/

theorem sub_of_match {rest : List α} (h : matchAt opening closing s = some rest) (passes : ℕ) :
    sub opening closing repl (passes + 1) s = repl ++ sub opening closing repl passes rest := by
  simp only [sub, h]

theorem sub_of_no_match {x : α} {xs : List α} (h : matchAt opening closing (x :: xs) = none)
    (passes : ℕ) :
    sub opening closing repl (passes + 1) (x :: xs) = x :: sub opening closing repl passes xs := by
  simp only [sub, h]

/-- A text without a pair of markers is left alone. -/
theorem sub_of_noPair (h : NoPair opening closing s) (passes : ℕ) :
    sub opening closing repl passes s = s := by
  induction passes generalizing s with
  | zero => rfl
  | succ passes ih =>
    have hmatch : matchAt opening closing s = none := by
      rcases hm : matchAt opening closing s with _ | rest
      · rfl
      · rcases pair_of_matchAt hm with ⟨body, hbody⟩
        exact absurd hbody (h [] body rest)
    cases s with
    | nil => simp only [sub, hmatch]
    | cons c cs =>
      have htail : NoPair opening closing cs := by
        intro pre body post hcs
        exact h (c :: pre) body post (by rw [hcs]; rfl)
      rw [sub_of_no_match hmatch, ih htail]

/-- The search passes what is in front of a region and replaces the region. -/
theorem sub_region (hpre : First opening pre) (hbody : First closing body) (passes : ℕ)
    (rest : List α) :
    sub opening closing repl (pre.length + (passes + 1))
        (pre ++ (opening ++ (body ++ (closing ++ rest))))
      = pre ++ (repl ++ sub opening closing repl passes rest) := by
  induction pre with
  | nil =>
    have hmatch : matchAt opening closing (opening ++ (body ++ (closing ++ rest))) = some rest := by
      unfold matchAt
      rw [if_pos (List.isPrefixOf_iff_prefix.mpr (List.prefix_append _ _)), List.drop_left,
        upTo_first hbody]
      rfl
    rw [List.nil_append, List.length_nil, Nat.zero_add, sub_of_match hmatch, List.nil_append]
  | cons c pre ih =>
    have hmatch : matchAt opening closing (c :: (pre ++ (opening ++ (body ++ (closing ++ rest)))))
        = none := by
      unfold matchAt
      rw [if_neg]
      rw [List.isPrefixOf_iff_prefix]
      exact hpre.not_prefix (Nat.succ_pos _) _
    rw [List.cons_append, List.length_cons, Nat.add_right_comm, sub_of_no_match hmatch,
      ih hpre.of_cons, List.cons_append]

/-- The substitution replaces the regions of a cut and nothing else. -/
theorem sub_text (hopening : opening ≠ []) (h : c.Leftmost opening closing) {passes : ℕ}
    (hpasses : (c.text opening closing).length ≤ passes) :
    sub opening closing repl passes (c.text opening closing)
      = c.regions.flatMap (fun r => r.1 ++ repl) ++ c.last := by
  rcases c with ⟨regions, last⟩
  induction regions generalizing passes with
  | nil => exact sub_of_noPair h.last passes
  | cons r regions ih =>
    have hrest : (Cut.mk regions last).Leftmost opening closing :=
      ⟨fun r' hr' => h.before r' (List.mem_cons_of_mem r hr'),
        fun r' hr' => h.shortest r' (List.mem_cons_of_mem r hr'), h.last⟩
    have htext : (Cut.mk (r :: regions) last).text opening closing = r.1 ++ (opening ++ (r.2
        ++ (closing ++ (Cut.mk regions last).text opening closing))) := by
      simp [Cut.text]
    have hpos := List.length_pos_of_ne_nil hopening
    rw [htext] at hpasses ⊢
    simp only [List.length_append] at hpasses
    obtain ⟨k, rfl⟩ : ∃ k, passes = r.1.length + (k + 1) := ⟨passes - r.1.length - 1, by omega⟩
    rw [sub_region (h.before r List.mem_cons_self) (h.shortest r List.mem_cons_self),
      ih hrest (by omega)]
    simp

/-- Where the replacement keeps the markers, it gives the regions other contents. -/
theorem replaceAll_text (hopening : opening ≠ []) (h : c.Leftmost opening closing) :
    replaceAll opening closing (opening ++ (mid ++ closing)) (c.text opening closing)
      = (c.fill mid).text opening closing := by
  unfold replaceAll
  rw [sub_text hopening h le_rfl, Cut.text_fill]

/-- The second substitution finds the same regions. -/
theorem replaceAll_idem (hopening : opening ≠ []) (hmid : First closing mid) (text : List α) :
    replaceAll opening closing (opening ++ (mid ++ closing))
        (replaceAll opening closing (opening ++ (mid ++ closing)) text)
      = replaceAll opening closing (opening ++ (mid ++ closing)) text := by
  obtain ⟨c, hc, rfl⟩ : ∃ c : Cut α, c.Leftmost opening closing ∧ c.text opening closing = text :=
    exists_cut hopening text
  have htwice : (c.fill mid).fill mid = c.fill mid := by
    simp [Cut.fill]
  rw [replaceAll_text hopening hc, replaceAll_text hopening (hc.fill hmid), htwice]

end Replace

end Markers
