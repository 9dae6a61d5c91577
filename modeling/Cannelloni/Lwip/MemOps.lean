import Cannelloni.Lwip.MemBlocks

/-!
# What the operations on the heap do

For a heap whose headers describe blocks: what `mem_malloc`, `mem_free` and `mem_trim` make of
these, and that no assertion fails, but for one in `mem_trim`: when the last block of the heap is
made smaller and the rest of it would be a block, it takes the links for corrupted and halts.
-/

namespace Cannelloni

open Bytes Blocks

namespace Heap

variable {h h' : Heap} {l m r bs : List Block} {a p s t n k size steps : ℕ}

theorem lwipAssert_pos {P : Prop} [Decidable P] {f : MemFault} (hp : P) :
    lwipAssert P f = .ok () := if_pos hp

theorem lwipAssert_neg {P : Prop} [Decidable P] {f : MemFault} (hp : ¬P) :
    lwipAssert P f = .error f := if_neg hp

theorem Chain.turns_self (hc : h.Chain bs) : h.Turns h bs := ⟨hc, rfl, fun _ _ _ _ _ => rfl⟩

/-! ## `mem_free` -/

/-- A free block is merged with the one behind it, if that is free, too. -/
theorem Chain.plugForward (hc : h.Chain (l ++ ⟨s, false⟩ :: r)) (hm : Merged r)
    (hlfree : h.lfree ≤ span l) :
    ∃ n r', h.Turns (h.plugForward (span l)) (l ++ ⟨n, false⟩ :: r') ∧ Merged r' ∧ HeadUsed r' ∧
      extents (span l + n) r' = extents (span l + s) r ∧
      (h.plugForward (span l)).lfree = h.lfree := by
  have hnext : h.next (span l) = span l + s := hc.at.1
  have hbounds := hc.bounds
  simp only at hbounds
  unfold Heap.plugForward
  simp only [hnext]
  rcases r with _ | ⟨⟨t, used⟩, r⟩
  · -- the end of the heap
    simp only [span_nil] at hbounds
    rw [if_neg (by omega)]
    exact ⟨s, [], hc.turns_self, hm, headUsed_nil, rfl, rfl⟩
  · have hc' : h.Chain ((l ++ [⟨s, false⟩]) ++ ⟨t, used⟩ :: r) := by simpa using hc
    have hnext' := hc'.at.1
    have hused := hc'.used_eq_zero
    have hbounds' := hc'.bounds
    simp only [span_append, span_cons, span_nil, Nat.add_zero] at hnext' hused hbounds'
    cases used with
    | true =>
      rw [if_neg (by simp [hused])]
      exact ⟨s, ⟨t, true⟩ :: r, hc.turns_self, hm, by simp, rfl, rfl⟩
    | false =>
      rw [merged_cons] at hm
      have hne : h.lfree ≠ span l + s := by omega
      rw [if_pos ⟨by omega, hused.mpr rfl, by omega⟩, if_neg hne, hnext',
        next_setNext_of_ne (by omega), hnext']
      have hturns := hc.merge
      refine ⟨s + t, r, hturns, hm.2, ?_, ?_, ?_⟩
      · simpa using hm.1
      · simp [Nat.add_assoc]
      · exact setBack_lfree

/-- A free block is merged with the one in front of it, if that is free, too. -/
theorem Chain.plugBackward (hc : h.Chain (l ++ ⟨s, false⟩ :: r)) (hm : Merged l)
    (hlfree : h.lfree = firstUnused 0 (l ++ ⟨s, false⟩ :: r)) :
    ∃ l' n, h.Turns (h.plugBackward (span l)) (l' ++ ⟨n, false⟩ :: r) ∧ Merged l' ∧ LastUsed l' ∧
      extents 0 l' = extents 0 l ∧ span l' + n = span l + s ∧
      (h.plugBackward (span l)).lfree = firstUnused 0 (l' ++ ⟨n, false⟩ :: r) ∧
      (h.plugBackward (span l)).used (span l) = 0 := by
  have hat := hc.at
  simp only at hat
  have hzero := hc.used_eq_zero.mpr rfl
  have hs : 24 ≤ s := hc.bounds.2.1
  unfold Heap.plugBackward
  simp only [hat.2.1]
  rcases List.eq_nil_or_concat' l with rfl | ⟨l, ⟨t, used⟩, rfl⟩
  · -- the first block is its own predecessor
    rw [if_neg (by simp [lastStart])]
    exact ⟨[], s, hc.turns_self, merged_nil, lastUsed_nil, rfl, rfl, hlfree, hzero⟩
  · have hc' : h.Chain (l ++ ⟨t, used⟩ :: ⟨s, false⟩ :: r) := by simpa using hc
    have hused := hc'.used_eq_zero
    have hbounds := hc'.bounds
    simp only [lastStart_concat, Nat.zero_add, span_append, span_cons, span_nil, Nat.add_zero]
      at hbounds hat ⊢
    cases used with
    | true =>
      rw [if_neg (by simp [hused])]
      refine ⟨l ++ [⟨t, true⟩], s, hc.turns_self, hm, by simp, rfl, by simp, hlfree, ?_⟩
      simpa using hzero
    | false =>
      have hle := firstUnused_le (a := 0) (l := l) (r := ⟨s, false⟩ :: r) (b := ⟨t, false⟩) rfl
      have hm' := merged_unused.mp hm
      rw [List.append_assoc, List.cons_append, List.nil_append] at hlfree
      have hne : h.lfree ≠ span l + t := by omega
      rw [if_pos ⟨by omega, hused.mpr rfl⟩, if_neg hne, hat.1, next_setNext_of_ne (by omega), hat.1]
      refine ⟨l, t + s, hc'.merge, hm'.1, hm'.2.2.1, ?_, by omega, ?_, ?_⟩
      · simp
      · exact setBack_lfree.trans (hlfree.trans firstUnused_congr)
      · show (setBack _ _ _).used _ = 0
        simp only [span_append, span_cons, span_nil, Nat.add_zero] at hzero
        rw [used_setBack (by omega), used_setNext (by omega), hzero]

/-- The links of a block in use are valid. -/
theorem Chain.memLinkValid (hc : h.Chain (l ++ ⟨s, true⟩ :: r)) : h.memLinkValid (span l) := by
  have hat := hc.at
  have hbounds := hc.bounds
  simp only at hat hbounds
  have hback : h.prev (span l) ≠ span l → h.next (h.prev (span l)) = span l ∧
      h.prev (span l) ≤ memSizeAligned := by
    intro hne
    rw [hat.2.1] at hne ⊢
    rcases List.eq_nil_or_concat' l with rfl | ⟨l, ⟨t, used⟩, rfl⟩
    · exact absurd rfl hne
    · have hc' : h.Chain (l ++ ⟨t, used⟩ :: ⟨s, true⟩ :: r) := by simpa using hc
      have hnext := hc'.at.1
      have hbounds' := hc'.bounds
      simp only at hnext hbounds'
      rw [lastStart_concat, Nat.zero_add, hnext]
      simp only [span_append, span_cons, span_nil, Nat.add_zero, true_and]
      omega
  have hfront : h.next (span l) ≠ memSizeAligned → h.prev (h.next (span l)) = span l := by
    intro hne
    rw [hat.1] at hne ⊢
    rcases r with _ | ⟨c, r⟩
    · simp only [span_nil] at hbounds
      omega
    · have hc' : h.Chain ((l ++ [⟨s, true⟩]) ++ c :: r) := by simpa using hc
      have hprev := hc'.at.2.1
      simpa [lastStart_concat] using hprev
  unfold Heap.memLinkValid
  rw [decide_eq_true_eq]
  rintro (hlt | hlt | ⟨hne, hne'⟩ | ⟨hne, hne'⟩)
  · omega
  · by_cases hself : h.prev (span l) = span l
    · omega
    · have hle := (hback hself).2
      omega
  · exact hne' (hback hne).1
  · exact hne' (hfront hne)

/-- The lowest free block once the one behind `l` is free. -/
theorem min_firstUnused (hpos : ∀ b ∈ l, 0 < b.size) (hs : 0 < s) :
    (if span l < firstUnused 0 (l ++ ⟨s, true⟩ :: r) then span l
      else firstUnused 0 (l ++ ⟨s, true⟩ :: r)) = firstUnused 0 (l ++ ⟨s, false⟩ :: r) := by
  rw [firstUnused_append, firstUnused_append, Nat.zero_add]
  by_cases hall : ∀ b ∈ l, b.used = true
  · rw [if_pos hall, if_pos hall]
    have hle := le_firstUnused (span l + s) r
    have hlt : span l < firstUnused (span l) (⟨s, true⟩ :: r) := by
      show span l < firstUnused (span l + s) r
      omega
    rw [if_pos hlt]
    rfl
  · rw [if_neg hall, if_neg hall]
    have hlt := firstUnused_lt (a := 0) hpos hall
    rw [if_neg (by omega)]

/-- `mem_free` gives a block in use back. -/
theorem Layout.memFree (hl : h.Layout (l ++ ⟨s, true⟩ :: r)) (hram : 4 ∣ h.ram) :
    ∃ h' bs', h.memFree (h.ram + span l + sizeofStructMem) = .ok h' ∧ h.Becomes h' bs' ∧
      extents 0 bs' = extents 0 l ++ extents (span l + s) r ∧ h'.used (span l) = 0 := by
  have hc := hl.toChain
  have hbounds := hc.bounds
  simp only at hbounds
  have hmerged := merged_used.mp hl.merged
  have hmem : h.ram + span l + sizeofStructMem - sizeofStructMem - h.ram = span l := by omega
  have hused : h.used (span l) ≠ 0 := by simp [hc.used_eq_zero]
  -- the block is marked, and `lfree` is set back
  have hpos : ∀ b ∈ l, 0 < b.size := by
    intro b hb
    have hsize := hc.size b (by simp [hb])
    omega
  have hlfree := min_firstUnused (r := r) hpos (by omega : 0 < s)
  rw [← hl.lfree] at hlfree
  have hmark := (hc.setUsed 0).setLfree (firstUnused 0 (l ++ ⟨s, false⟩ :: r))
  set h1 := (h.setUsed (span l) 0).setLfree (firstUnused 0 (l ++ ⟨s, false⟩ :: r)) with hh1
  have hle : h1.lfree ≤ span l := by
    have hle := firstUnused_le (a := 0) (l := l) (r := r) (b := ⟨s, false⟩) rfl
    rw [Nat.zero_add] at hle
    exact hle
  -- then it is merged with its neighbours
  rcases Chain.plugForward hmark.chain hmerged.2 hle with ⟨n, r', hfwd, hmr', hhead, hextr, hlf⟩
  have hlf' : (h1.plugForward (span l)).lfree = firstUnused 0 (l ++ ⟨n, false⟩ :: r') :=
    hlf.trans firstUnused_congr
  rcases Chain.plugBackward hfwd.chain hmerged.1 hlf' with
    ⟨l', k, hback, hml', hlast, hextl, hspan, hlf'', hzero⟩
  have hext1 : extents 0 (l ++ ⟨n, false⟩ :: r') = extents 0 (l ++ ⟨s, false⟩ :: r) := by
    simp [hextr]
  have hext2 : extents 0 (l' ++ ⟨k, false⟩ :: r') = extents 0 (l ++ ⟨n, false⟩ :: r') := by
    simp [hextl, hspan]
  refine ⟨(h1.plugForward (span l)).plugBackward (span l), l' ++ ⟨k, false⟩ :: r', ?_,
    ⟨(hmark.trans hfwd hext1).trans hback hext2, ?_, hlf''⟩, ?_, hzero⟩
  · have hused1 : h1.used (span l) = 0 := hmark.chain.used_eq_zero.mpr rfl
    have hnext1 : h1.next (span l) = span l + s := hmark.chain.at.1
    unfold Heap.memFree
    rw [if_neg (by simp only [sizeofStructMem]; omega)]
    simp only [hmem]
    rw [lwipAssert_pos (by simp only [sizeofStructMem]; omega),
      lwipAssert_pos (by simp only [sizeofStructMem, minSizeAligned]; omega),
      lwipAssert_pos hused, lwipAssert_pos hc.memLinkValid, ite_setLfree]
    show (Heap.plugHoles ((h.setUsed (span l) 0).setLfree (if _ < h.lfree then _ else h.lfree)) _) = _
    rw [hlfree, ← hh1]
    unfold Heap.plugHoles
    rw [lwipAssert_pos (by omega), lwipAssert_pos hused1, lwipAssert_pos (by omega)]
    rfl
  · exact merged_unused.mpr ⟨hml', hmr', hlast, hhead⟩
  · rw [hext2, hext1]
    simp

/-! ## `mem_malloc` -/

/-- The search takes the first free block that is long enough. -/
theorem scan_spec (hlinks : Links h.headers p a bs) (hend : a + span bs = memSizeAligned)
    (hsize : ∀ b ∈ bs, 24 ≤ b.size) (steps : ℕ) (hsteps : bs.length < steps)
    (hle : size ≤ memSizeAligned) :
    (∃ l s r, bs = l ++ ⟨s, false⟩ :: r ∧ size + 12 ≤ s ∧
      (∀ c ∈ l, c.used = false → c.size < size + 12) ∧
      h.scan size steps a = .ok (some (a + span l))) ∨
    ((∀ c ∈ bs, c.used = false → c.size < size + 12) ∧ h.scan size steps a = .ok none) := by
  induction bs generalizing p a steps with
  | nil =>
    rcases steps with _ | steps
    · simp at hsteps
    · right
      simp only [span_nil, Nat.add_zero] at hend
      refine ⟨by simp, ?_⟩
      unfold Heap.scan
      rw [if_neg (by omega)]
  | cons b bs ih =>
    rcases steps with _ | steps
    · simp at hsteps
    · rcases b with ⟨s, used⟩
      rcases hlinks with ⟨hnext, -, hused, hrest⟩
      simp only [span_cons] at hend hnext hused
      have hnext' : h.next a = a + s := hnext
      unfold Heap.scan
      by_cases hlt : a < memSizeAligned - size
      · rw [if_pos hlt, hnext']
        by_cases hfit : h.used a = 0 ∧ size ≤ a + s - (a + sizeofStructMem)
        · left
          have hunused : used = false := by
            rw [← hused]
            simp [headers, hfit.1]
          subst hunused
          rw [if_pos hfit]
          have h24 := hsize _ List.mem_cons_self
          simp only [sizeofStructMem] at hfit h24
          exact ⟨[], s, bs, rfl, by omega, by simp, rfl⟩
        · rw [if_neg hfit]
          have hshort : used = false → s < size + 12 := by
            intro hunused
            rw [hunused] at hused
            have hzero : h.used a = 0 := by simpa [headers] using hused
            simp only [hzero, true_and, sizeofStructMem] at hfit
            omega
          rcases ih hrest (by simp only; omega) (fun c hc => hsize c (List.mem_cons_of_mem _ hc))
              _ (by simpa using hsteps) with ⟨l, t, r, rfl, hts, hl, hscan⟩ | ⟨hnone, hscan⟩
          · left
            refine ⟨⟨s, used⟩ :: l, t, r, rfl, hts, ?_, ?_⟩
            · intro c hc
              rcases List.mem_cons.mp hc with rfl | hc
              · exact hshort
              · exact hl c hc
            · rw [hscan, span_cons, Nat.add_assoc]
          · right
            refine ⟨?_, hscan⟩
            intro c hc
            rcases List.mem_cons.mp hc with rfl | hc
            · exact hshort
            · exact hnone c hc
      · -- there is not enough left
        right
        rw [if_neg hlt]
        refine ⟨?_, rfl⟩
        intro c hc _
        have hc' := size_le_span hc
        simp only [span_cons] at hc'
        omega

/-- The loop that looks for the next free block ends at the first one. -/
theorem nextFree_spec (hlinks : Links h.headers p a bs) (hend : a + span bs = memSizeAligned)
    (hsize : ∀ b ∈ bs, 24 ≤ b.size) (steps : ℕ) (hsteps : bs.length < steps) :
    h.nextFree steps a = .ok (firstUnused a bs) := by
  induction bs generalizing p a steps with
  | nil =>
    rcases steps with _ | steps
    · simp at hsteps
    · simp only [span_nil, Nat.add_zero] at hend
      unfold Heap.nextFree
      rw [if_neg (by simp [hend])]
      rfl
  | cons b bs ih =>
    rcases steps with _ | steps
    · simp at hsteps
    · rcases hlinks with ⟨hnext, -, hused, hrest⟩
      have h24 := hsize b List.mem_cons_self
      simp only [span_cons] at hend
      have hnext' : h.next a = a + b.size := hnext
      unfold Heap.nextFree firstUnused
      by_cases hb : b.used = true
      · rw [hb] at hused
        have hne : h.used a ≠ 0 := by simpa [headers] using hused
        rw [if_pos ⟨hne, by omega⟩, if_pos hb, hnext']
        exact ih hrest (by omega) (fun c hc => hsize c (List.mem_cons_of_mem _ hc))
          _ (by simpa using hsteps)
      · have hzero : h.used a = 0 := by
          simp only [Bool.not_eq_true] at hb
          rw [hb] at hused
          simpa [headers] using hused
        rw [if_neg (by simp [hzero]), if_neg hb]

/-- A block is taken, and what is left over is a block again if it is long enough. -/
theorem Chain.split (hc : h.Chain (l ++ ⟨s, false⟩ :: r))
    (hm : Merged (l ++ ⟨s, false⟩ :: r)) (hsize : 12 ≤ size ∧ 4 ∣ size) (hfit : size + 12 ≤ s) :
    ∃ h' n r', h.split (span l) size = .ok h' ∧ h.Turns h' (l ++ ⟨n, true⟩ :: r') ∧
      Merged (l ++ ⟨n, true⟩ :: r') ∧ extents (span l + n) r' = extents (span l + s) r ∧
      (size + 12 ≤ n ∧ n < size + 36) ∧ h'.lfree = h.lfree := by
  have hnext : h.next (span l) = span l + s := hc.at.1
  have hbounds := hc.bounds
  simp only at hbounds
  have hmem := memSizeAligned_lt
  have h12 : sizeofStructMem = 12 := rfl
  have hmin : minSizeAligned = 12 := rfl
  have hm' := merged_unused.mp hm
  unfold Heap.split
  by_cases hroom : size + sizeofStructMem + minSizeAligned
      ≤ h.next (span l) - (span l + sizeofStructMem)
  · rw [if_pos hroom]
    rw [hnext] at hroom
    have hlist : l ++ ⟨s, false⟩ :: r = l ++ [⟨s, false⟩] ++ r := by simp
    rw [hlist] at hc
    have hnext2 : (h.setUsed (span l + sizeofStructMem + size) 0).next (span l) = span l + s := by
      rw [next_setUsed (by omega), hnext]
    simp only [hnext2]
    rw [lwipAssert_pos (by omega)]
    rcases h.insert_spec (show span l + 12 ≤ span l + sizeofStructMem + size by omega)
      (by omega) (show span l + s < 4294967296 by omega) with ⟨hat, hat', hbytes⟩
    have hcut := hc.cut ((h.insert (span l) (span l + sizeofStructMem + size)
        (span l + s)).setUsed (span l) 1) (n := size + 12) (k := s - (size + 12))
        (x := span l + sizeofStructMem + size) (e := span l + s) (by simp)
        (by simp only [span_cons, span_nil]; omega) (by omega) (by omega) (by omega) (by omega) rfl
      ⟨(next_setUsed (by omega)).trans hat.1, (prev_setUsed (by omega)).trans hat.2.1, by simp⟩
      ⟨(next_setUsed (by omega)).trans hat'.1, (prev_setUsed (by omega)).trans hat'.2.1,
        (used_setUsed_of_ne (by omega)).trans hat'.2.2⟩
      (fun j hj hj' => (bytes_setUsed (by omega)).trans (hbytes j (by omega) hj'))
    have hnext1 := (next_setUsed (u := 1) (h := h.insert (span l)
      (span l + sizeofStructMem + size) (span l + s)) (x := span l)
      (y := span l + sizeofStructMem + size) (by omega)).trans hat'.1
    refine ⟨_, size + 12, ⟨s - (size + 12), false⟩ :: r, ?_, hcut, ?_, ?_, by omega, ?_⟩
    · exact congrArg Except.ok (setBack_next hnext1)
    · rw [merged_used, merged_cons]
      exact ⟨hm'.1, .inr hm'.2.2.2, hm'.2.1⟩
    · rw [extents_unused]
      congr 1
      omega
    · exact setBack_lfree
  · rw [if_neg hroom]
    rw [hnext] at hroom
    refine ⟨_, s, r, rfl, hc.setUsed 1, ?_, rfl, by omega, rfl⟩
    exact merged_used.mpr ⟨hm'.1, hm'.2.1⟩

/-- The lowest free block is up to date once the block behind `l` is in use. -/
theorem Chain.adjustLfree (hc : h.Chain (l ++ ⟨n, true⟩ :: r))
    (hlfree : h.lfree = firstUnused 0 (l ++ ⟨s, false⟩ :: m)) :
    h.adjustLfree (span l) = .ok (h.setLfree (firstUnused 0 (l ++ ⟨n, true⟩ :: r))) := by
  have hpos : ∀ b ∈ l, 0 < b.size := by
    intro b hb
    have hsize := hc.size b (by simp [hb])
    omega
  rw [firstUnused_append, Nat.zero_add] at hlfree
  rw [firstUnused_append, Nat.zero_add]
  unfold Heap.adjustLfree
  by_cases hall : ∀ b ∈ l, b.used = true
  · rw [if_pos hall] at hlfree
    rw [if_pos hall]
    have hlfree' : h.lfree = span l := hlfree
    have hlinks := (links_append.mp hc.links).2
    rw [Nat.zero_add] at hlinks
    have hbounds := hc.bounds
    simp only at hbounds
    have hlen := length_le_span fun b hb => by
      have hsize := hc.size b hb
      omega
    rw [hc.fills, List.length_append] at hlen
    have hnext := nextFree_spec hlinks (by simp only [span_cons]; omega)
      (fun b hb => (hc.size b (by simp [hb])).1) (memSizeAligned + 1) (by omega)
    rw [if_pos hlfree'.symm, hlfree', hnext]
    -- the one found is free, or the end
    have hfree : firstUnused (span l) (⟨n, true⟩ :: r) = memSizeAligned ∨
        h.used (firstUnused (span l) (⟨n, true⟩ :: r)) = 0 := by
      rcases exists_firstUnused (span l) (⟨n, true⟩ :: r) with ⟨l', r', heq, -, hr', hat⟩
      rw [hat]
      rw [heq, ← List.append_assoc] at hc
      have hfills := hc.fills
      rw [span_append, span_append] at hfills
      rcases r' with _ | ⟨b, r'⟩
      · left
        simpa using hfills
      · right
        have hused := hc.used_eq_zero.mpr (hr' b (by simp))
        rwa [span_append] at hused
    show (lwipAssert (firstUnused (span l) (⟨n, true⟩ :: r) = memSizeAligned ∨
      h.used (firstUnused (span l) (⟨n, true⟩ :: r)) = 0) .lfreeUsed >>= fun _ => _) = _
    rw [lwipAssert_pos hfree]
    rfl
  · rw [if_neg hall] at hlfree
    rw [if_neg hall]
    have hlt := firstUnused_lt (a := 0) hpos hall
    rw [if_neg (by omega), ← hlfree]
    rfl

/-- `mem_malloc` takes the first free block that is long enough for the request, and returns `NULL`
if there is none. -/
theorem Layout.memMalloc (hl : h.Layout bs) (hram : 4 ∣ h.ram) {sizeIn : UInt32}
    (hpos : sizeIn ≠ 0) :
    (∃ l s r h' n r', bs = l ++ ⟨s, false⟩ :: r ∧ roundUp sizeIn.toNat + 12 ≤ s ∧
      (∀ c ∈ l, c.used = false → c.size < roundUp sizeIn.toNat + 12) ∧
      h.memMalloc sizeIn = .ok (some (h.ram + span l + sizeofStructMem), h') ∧
      h.Becomes h' (l ++ ⟨n, true⟩ :: r') ∧ extents (span l + n) r' = extents (span l + s) r ∧
      roundUp sizeIn.toNat + 12 ≤ n ∧ n < roundUp sizeIn.toNat + 36) ∨
    ((∀ c ∈ bs, c.used = false → c.size < roundUp sizeIn.toNat + 12) ∧
      h.memMalloc sizeIn = .ok (none, h)) := by
  have hc := hl.toChain
  have hround := roundUp_bounds sizeIn.toNat
  have h12 : sizeofStructMem = 12 := rfl
  unfold Heap.memMalloc
  rw [if_neg hpos]
  by_cases hlarge : memSizeAligned < roundUp sizeIn.toNat
  · -- more than the heap
    right
    refine ⟨?_, if_pos ((dataSize_spec sizeIn).mpr hlarge)⟩
    intro c hcs _
    have hle := size_le_span hcs
    rw [hc.fills] at hle
    omega
  · rw [if_neg (mt (dataSize_spec sizeIn).mp hlarge), dataSize_eq (by omega)]
    -- the search begins behind blocks in use
    rcases exists_firstUnused 0 bs with ⟨l0, r0, rfl, hl0, -, hat⟩
    rw [Nat.zero_add] at hat
    have hlfree := hl.lfree
    have hlinks := (links_append.mp hc.links).2
    rw [Nat.zero_add] at hlinks
    have hfills := hc.fills
    rw [span_append] at hfills
    have hlen := length_le_span fun b hb => by
      have hsize := hc.size b hb
      omega
    rw [hc.fills, List.length_append] at hlen
    rcases scan_spec hlinks hfills (fun b hb => (hc.size b (by simp [hb])).1)
        (memSizeAligned + 1) (by omega) (show roundUp sizeIn.toNat ≤ memSizeAligned by omega) with
      ⟨l1, s, r, rfl, hfit, hl1, hscan⟩ | ⟨hnone, hscan⟩
    · left
      rw [← span_append, ← hat, ← hlfree] at hscan
      rw [← List.append_assoc] at hl hc hlfree hat ⊢
      rcases hc.split hl.merged hround.2 hfit with ⟨h1, n, r', hsplit, hturns, hm, hext, hn, hlf⟩
      have hadj := Chain.adjustLfree hturns.chain (hlf.trans hlfree)
      have hbounds := hturns.chain.bounds
      simp only at hbounds
      refine ⟨l0 ++ l1, s, r, _, n, r', rfl, hfit, ?_, ?_, ⟨hturns.setLfree _, hm, rfl⟩, hext, hn⟩
      · intro c hcl hunused
        rcases List.mem_append.mp hcl with hcl | hcl
        · simp [hl0 c hcl] at hunused
        · exact hl1 c hcl hunused
      · have hram1 : h1.ram = h.ram := hturns.ram
        refine Run.bind_eq_ok.mpr ⟨_, hscan, Run.bind_eq_ok.mpr ⟨_, hsplit,
          Run.bind_eq_ok.mpr ⟨_, hadj, Run.bind_eq_ok.mpr ⟨(), lwipAssert_pos (by omega),
          Run.bind_eq_ok.mpr ⟨(), lwipAssert_pos ?_, Run.bind_eq_ok.mpr ⟨(), lwipAssert_pos ?_,
            ?_⟩⟩⟩⟩⟩⟩
        · show (h1.ram + _ + _) % 4 = 0
          omega
        · show (h1.ram + _) % 4 = 0
          omega
        · show Except.ok (some (h1.ram + _ + _), _) = _
          rw [hram1]
    · right
      rw [← hat, ← hlfree] at hscan
      refine ⟨?_, ?_⟩
      · intro c hcl hunused
        rcases List.mem_append.mp hcl with hcl | hcl
        · simp [hl0 c hcl] at hunused
        · exact hnone c hcl hunused
      · rw [hscan]
        rfl

/-! ## `mem_trim` -/

/-- A header is written into a block in use: what is behind it is an unused block. -/
theorem Chain.cut_insert (hc : h.Chain (l ++ m ++ r)) (hm : m ≠ []) (hused : h.used (span l) ≠ 0)
    (hsize : 12 ≤ size ∧ 4 ∣ size) (hk : 24 ≤ k ∧ 4 ∣ k)
    (hspan : span m = size + 12 + k) (mem : ℕ) :
    h.Turns (((h.setLfree mem).insert (span l) (span l + sizeofStructMem + size)
        (span (l ++ m))).setBack (span (l ++ m)) (span l + sizeofStructMem + size))
      (l ++ ⟨size + 12, true⟩ :: ⟨k, false⟩ :: r) := by
  have hmem := memSizeAligned_lt
  have h12 : sizeofStructMem = 12 := rfl
  have hfills := hc.fills
  simp only [span_append] at hfills ⊢
  rcases (h.setLfree mem).insert_spec
    (show span l + 12 ≤ span l + sizeofStructMem + size by omega) (by omega)
    (show span l + span m < 4294967296 by omega) with ⟨hat, hat', hbytes⟩
  have hcut := hc.cut ((h.setLfree mem).insert (span l) (span l + sizeofStructMem + size)
    (span l + span m)) (n := size + 12) (k := k) (x := span l + sizeofStructMem + size)
    (e := span l + span m) hm hspan (by omega) hk (by omega) (by omega) rfl
    ⟨hat.1, hat.2.1, fun hzero => hused (hat.2.2.symm.trans hzero)⟩ hat'
    (fun j hj hj' => hbytes j (by omega) hj')
  exact hcut

/-- The lowest free block after the border behind the one at the end of `l` was moved. -/
theorem moved_firstUnused (hpos : ∀ b ∈ l, 0 < b.size) (hs : 0 < s) :
    (if firstUnused 0 (l ++ ⟨s, true⟩ :: ⟨t, false⟩ :: r) = span l + s then span l + n
      else firstUnused 0 (l ++ ⟨s, true⟩ :: ⟨t, false⟩ :: r))
      = firstUnused 0 (l ++ ⟨n, true⟩ :: ⟨k, false⟩ :: r) := by
  rw [firstUnused_append, firstUnused_append, Nat.zero_add]
  by_cases hall : ∀ b ∈ l, b.used = true
  · rw [if_pos hall, if_pos hall]
    exact if_pos rfl
  · rw [if_neg hall, if_neg hall]
    have hlt := firstUnused_lt (a := 0) hpos hall
    rw [if_neg (by omega)]

/-- The lowest free block after a part of the block behind `l` became free. -/
theorem cut_firstUnused (hpos : ∀ b ∈ l, 0 < b.size) (hn : n < s) :
    (if span l + n < firstUnused 0 (l ++ ⟨s, true⟩ :: r) then span l + n
      else firstUnused 0 (l ++ ⟨s, true⟩ :: r))
      = firstUnused 0 (l ++ ⟨n, true⟩ :: ⟨k, false⟩ :: r) := by
  rw [firstUnused_append, firstUnused_append, Nat.zero_add]
  by_cases hall : ∀ b ∈ l, b.used = true
  · rw [if_pos hall, if_pos hall]
    have hle := le_firstUnused (span l + s) r
    have hlt : span l + n < firstUnused (span l) (⟨s, true⟩ :: r) := by
      show span l + n < firstUnused (span l + s) r
      omega
    rw [if_pos hlt]
    rfl
  · rw [if_neg hall, if_neg hall]
    have hlt := firstUnused_lt (a := 0) hpos hall
    rw [if_neg (by omega)]

/-- The block behind is in use, or it is the end of the heap. -/
theorem Chain.used_behind (hc : h.Chain (l ++ ⟨s, true⟩ :: r)) (hr : HeadUsed r) :
    h.used (span l + s) ≠ 0 := by
  rcases r with _ | ⟨⟨t, used⟩, r⟩
  · have hfills := hc.fills
    simp only [span_append, span_cons, span_nil, Nat.add_zero] at hfills
    rw [hfills]
    exact hc.ramEnd
  · have hc' : h.Chain ((l ++ [⟨s, true⟩]) ++ ⟨t, used⟩ :: r) := by simpa using hc
    have hused := hc'.used_eq_zero
    simp only [headUsed_cons] at hr
    simp only [span_append, span_cons, span_nil, Nat.add_zero, hr] at hused
    simp [hused]

/-- `mem_trim` moves the unused block behind the one that becomes smaller. -/
theorem Layout.shrink_move (hl : h.Layout (l ++ ⟨s, true⟩ :: ⟨t, false⟩ :: r))
    (hsize : 12 ≤ size ∧ 4 ∣ size) (hlt : size + 12 < s) (old : ℕ) :
    ∃ h', h.shrink (span l) old size = .ok h' ∧
      h.Becomes h' (l ++ ⟨size + 12, true⟩ :: ⟨s + t - (size + 12), false⟩ :: r) := by
  have hc := hl.toChain
  have hnext : h.next (span l) = span l + s := hc.at.1
  have hbounds := hc.bounds
  have hc' : h.Chain ((l ++ [⟨s, true⟩]) ++ ⟨t, false⟩ :: r) := by simpa using hc
  have hzero := hc'.used_eq_zero.mpr rfl
  have hnext' := hc'.at.1
  have hbounds' := hc'.bounds
  simp only [span_append, span_cons, span_nil, Nat.add_zero] at hbounds hbounds' hzero hnext'
  have h12 : sizeofStructMem = 12 := rfl
  have hmem := memSizeAligned_lt
  have hused : h.used (span l) ≠ 0 := by simp [hc.used_eq_zero]
  have hlist : l ++ ⟨s, true⟩ :: ⟨t, false⟩ :: r = l ++ [⟨s, true⟩, ⟨t, false⟩] ++ r := by simp
  have hspan : span (l ++ [⟨s, true⟩, ⟨t, false⟩]) = span l + s + t := by simp [Nat.add_assoc]
  have hpos : ∀ b ∈ l, 0 < b.size := by
    intro b hb
    have hb' := hc.size b (by simp [hb])
    omega
  have hlfree := moved_firstUnused (t := t) (r := r) (n := size + 12) (k := s + t - (size + 12))
    hpos (by omega : 0 < s)
  rw [← hl.lfree] at hlfree
  have hptr2 : span l + (size + 12) = span l + sizeofStructMem + size := by omega
  rw [hptr2] at hlfree
  have hm := merged_used.mp hl.merged
  rw [merged_cons] at hm
  rw [hlist] at hc
  set lf := firstUnused 0 (l ++ ⟨size + 12, true⟩ :: ⟨s + t - (size + 12), false⟩ :: r) with hlf
  have hcut := hc.cut_insert (k := s + t - (size + 12)) (by simp) hused hsize
    (by omega) (by simp; omega) lf
  rw [hspan] at hcut
  refine ⟨_, ?_, ⟨hcut, ?_, setBack_lfree⟩⟩
  · unfold Heap.shrink
    simp only [hnext, hnext']
    rw [if_pos hzero, lwipAssert_pos (by omega), ite_setLfree, hlfree]
    have hnext1 := ((h.setLfree lf).insert_spec
      (show span l + 12 ≤ span l + sizeofStructMem + size by omega) (by omega)
      (show span l + s + t < 4294967296 by omega)).2.1.1
    exact congrArg Except.ok (setBack_next hnext1)
  · rw [merged_used, merged_cons]
    exact ⟨hm.1, .inr (by simpa using hm.2.1), hm.2.2⟩

/-- What `mem_trim` does when the block behind is in use, or there is none. It halts if the block is
the last one and the rest of it would be a block. -/
theorem Layout.shrink_cut (hl : h.Layout (l ++ ⟨s, true⟩ :: r)) (hr : HeadUsed r)
    (hsize : 12 ≤ size ∧ 4 ∣ size) :
    h.shrink (span l) (s - 12) size = .ok h ∧ s < size + 36 ∨
    r = [] ∧ size + 36 ≤ s ∧ h.shrink (span l) (s - 12) size = .error .invalidNextPtr ∨
    r ≠ [] ∧ ∃ h', h.shrink (span l) (s - 12) size = .ok h' ∧ size + 36 ≤ s ∧
      h.Becomes h' (l ++ ⟨size + 12, true⟩ :: ⟨s - (size + 12), false⟩ :: r) := by
  have hc := hl.toChain
  have hnext : h.next (span l) = span l + s := hc.at.1
  have hbounds := hc.bounds
  simp only at hbounds
  have h12 : sizeofStructMem = 12 := rfl
  have hmin : minSizeAligned = 12 := rfl
  have hmem := memSizeAligned_lt
  have hbehind := hc.used_behind hr
  unfold Heap.shrink
  simp only [hnext]
  rw [if_neg hbehind]
  by_cases hroom : size + sizeofStructMem + minSizeAligned ≤ s - 12
  · right
    rw [if_pos hroom]
    by_cases hnil : r = []
    · left
      rw [hnil, span_nil] at hbounds
      refine ⟨hnil, by omega, ?_⟩
      rw [lwipAssert_neg (by omega)]
      rfl
    · right
      have hlist : l ++ ⟨s, true⟩ :: r = l ++ [⟨s, true⟩] ++ r := by simp
      have hspan : span (l ++ [⟨s, true⟩]) = span l + s := by simp
      have hpos : ∀ b ∈ l, 0 < b.size := by
        intro b hb
        have hb' := hc.size b (by simp [hb])
        omega
      have hused : h.used (span l) ≠ 0 := by simp [hc.used_eq_zero]
      have hlfree := cut_firstUnused (r := r) (k := s - (size + 12)) hpos
        (by omega : size + 12 < s)
      have hptr2 : span l + (size + 12) = span l + sizeofStructMem + size := by omega
      rw [← hl.lfree, hptr2] at hlfree
      have hm := merged_used.mp hl.merged
      rw [hlist] at hc
      have hlt := hc.lt_of_ne_nil hnil
      rw [hspan] at hlt
      set lf := firstUnused 0 (l ++ ⟨size + 12, true⟩ :: ⟨s - (size + 12), false⟩ :: r) with hlf
      have hcut := hc.cut_insert (k := s - (size + 12)) (by simp) hused hsize
        (by omega) (by simp; omega) lf
      rw [hspan] at hcut
      refine ⟨hnil, _, ?_, by omega, ⟨hcut, ?_, setBack_lfree⟩⟩
      · rw [lwipAssert_pos (by omega), ite_setLfree, hlfree]
        have hnext2 : ((h.setLfree lf).setUsed (span l + sizeofStructMem + size) 0).next (span l)
            = span l + s := (next_setUsed (by omega)).trans hnext
        rw [hnext2]
        have hnext1 := ((h.setLfree lf).insert_spec
          (show span l + 12 ≤ span l + sizeofStructMem + size by omega) (by omega)
          (show span l + s < 4294967296 by omega)).2.1.1
        exact congrArg Except.ok (setBack_next hnext1)
      · rw [merged_used, merged_cons]
        exact ⟨hm.1, .inr hr, hm.2⟩
  · left
    rw [if_neg hroom]
    exact ⟨rfl, by omega⟩

/-- `mem_trim` of a block in use. -/
theorem Layout.memTrim (hl : h.Layout (l ++ ⟨s, true⟩ :: r)) (newSize : UInt32)
    (hle : roundUp newSize.toNat + 12 ≤ s) :
    (r = [] ∧ roundUp newSize.toNat + 36 ≤ s ∧
      h.memTrim (h.ram + span l + sizeofStructMem) newSize = .error .invalidNextPtr) ∨
    (¬(r = [] ∧ roundUp newSize.toNat + 36 ≤ s) ∧ ∃ h' n r',
      h.memTrim (h.ram + span l + sizeofStructMem) newSize
        = .ok (some (h.ram + span l + sizeofStructMem), h') ∧
      h.Becomes h' (l ++ ⟨n, true⟩ :: r') ∧ extents (span l + n) r' = extents (span l + s) r ∧
      (roundUp newSize.toNat + 12 ≤ n ∧ n ≤ s) ∧ n < roundUp newSize.toNat + 36) := by
  have hc := hl.toChain
  have hnext : h.next (span l) = span l + s := hc.at.1
  have hbounds := hc.bounds
  simp only at hbounds
  have h12 : sizeofStructMem = 12 := rfl
  have hround := roundUp_bounds newSize.toNat
  have hptr : h.ram + span l + sizeofStructMem - sizeofStructMem - h.ram = span l := by omega
  have hold : span l + s - span l - sizeofStructMem = s - 12 := by omega
  have hkeep : h.Becomes h (l ++ ⟨s, true⟩ :: r) := ⟨hc.turns_self, hl.merged, hl.lfree⟩
  have htrim : h.memTrim (h.ram + span l + sizeofStructMem) newSize
      = if roundUp newSize.toNat = s - 12 then .ok (some (h.ram + span l + sizeofStructMem), h)
        else h.shrink (span l) (s - 12) (roundUp newSize.toNat) >>= fun h' =>
          .ok (some (h.ram + span l + sizeofStructMem), h') := by
    unfold Heap.memTrim
    simp only [hptr, hnext, hold]
    rw [if_neg (mt (dataSize_spec newSize).mp (by omega)), dataSize_eq (by omega),
      lwipAssert_pos (by omega), lwipAssert_pos (by omega)]
    rfl
  rw [htrim]
  by_cases heq : roundUp newSize.toNat = s - 12
  · right
    rw [if_pos heq]
    exact ⟨by omega, h, s, r, rfl, hkeep, rfl, by omega, by omega⟩
  · rw [if_neg heq]
    by_cases hr : HeadUsed r
    · rcases hl.shrink_cut hr hround.2 with ⟨hshrink, hlt⟩ | ⟨hnil, hle', hshrink⟩ |
        ⟨hnil, h', hshrink, hle', hbecomes⟩
      · right
        rw [hshrink]
        exact ⟨by omega, h, s, r, rfl, hkeep, rfl, by omega, hlt⟩
      · left
        rw [hshrink]
        exact ⟨hnil, hle', rfl⟩
      · right
        rw [hshrink]
        refine ⟨fun hend => hnil hend.1, h', _, _, rfl, hbecomes, ?_, by omega, by omega⟩
        rw [extents_unused]
        congr 1
        omega
    · right
      rcases r with _ | ⟨⟨t, used⟩, r⟩
      · exact absurd headUsed_nil hr
      · have hused : used = false := by simpa using hr
        subst hused
        rcases hl.shrink_move hround.2 (by omega) (s - 12) with ⟨h', hshrink, hbecomes⟩
        rw [hshrink]
        refine ⟨by simp, h', _, _, rfl, hbecomes, ?_, by omega, by omega⟩
        rw [extents_unused, extents_unused]
        congr 1
        omega

end Heap

end Cannelloni
