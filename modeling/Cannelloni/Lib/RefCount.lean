import Cannelloni.Lib.Linked
import Mathlib.Data.Finset.Card
import Mathlib.Data.List.Count

/-!
# Reference counts

Cells with a pointer each that are in use as long as someone refers to them: a holder outside, or
another cell in use. `Counted` says that the counts are exact and that every walk ends. It is kept
when a holder is added or given up, a cell that nobody else refers to is collected, a new one is
handed out, a holder's reference becomes a pointer, or a pointer a holder's reference. Each
statement says what is written, so that it fits any way to store the cells.

`Summed` is for cells that keep a sum over themselves and all cells behind them.
-/

namespace RefCount

open Linked

variable {α : Type*} {live : Finset α} {next next' : α → Option α}
  {ref ref' : α → ℕ} {hs : List α} {a b t : α} {l m k : List α}

/-! ## Paths -/

/-- The cells of `l` are in use, and lead from `a` to the end. -/
def Path (live : Finset α) (next : α → Option α) (a : α) (l : List α) : Prop :=
  Segment next (a :: l) none ∧ ∀ b ∈ a :: l, b ∈ live

theorem Path.mem (h : Path live next a l) : a ∈ live := h.2 a List.mem_cons_self

theorem Path.nodup (h : Path live next a l) : (a :: l).Nodup := h.1.nodup

theorem Path.ne_of_mem (h : Path live next a l) (hb : b ∈ l) : b ≠ a := by
  rintro rfl
  exact (List.nodup_cons.mp h.nodup).1 hb

theorem Path.unique (hl : Path live next a l) (hm : Path live next a m) : l = m :=
  (List.cons.inj (hl.1.unique hm.1 rfl)).2

/-- The first step of a path. -/
theorem path_cons :
    Path live next a (b :: l) ↔ a ∈ live ∧ next a = some b ∧ Path live next b l := by
  unfold Path
  constructor
  · rintro ⟨⟨hnext, hseg⟩, hmem⟩
    exact ⟨hmem a List.mem_cons_self, hnext, hseg, fun c hc => hmem c (List.mem_cons_of_mem _ hc)⟩
  · rintro ⟨ha, hnext, hseg, hmem⟩
    refine ⟨⟨hnext, hseg⟩, ?_⟩
    intro c hc
    rcases List.mem_cons.mp hc with rfl | hc
    · exact ha
    · exact hmem c hc

theorem path_nil : Path live next a [] ↔ a ∈ live ∧ next a = none := by
  simp [Path, Segment, and_comm]

/-- The path from where a pointer goes. -/
theorem Path.tail (h : Path live next a l) (ht : next a = some t) : ∃ m, l = t :: m ∧
    Path live next t m := by
  cases l with
  | nil =>
    rw [(path_nil.mp h).2] at ht
    cases ht
  | cons b m =>
    rcases path_cons.mp h with ⟨-, hb, hpath⟩
    obtain rfl : b = t := Option.some.inj (hb.symm.trans ht)
    exact ⟨m, rfl, hpath⟩

/-- The rest of a path from one of its cells on. -/
theorem Path.drop (h : Path live next a (l ++ b :: m)) : Path live next b m :=
  ⟨(segment_append.mp h.1.2).2, fun c hc =>
    h.2 c (List.mem_cons_of_mem _ (List.mem_append_right _ hc))⟩

theorem Path.suffix (h : Path live next a l) (heq : a :: l = m ++ b :: k) : Path live next b k := by
  have hseg := h.1
  rw [heq, segment_append] at hseg
  refine ⟨hseg.2, ?_⟩
  intro c hc
  apply h.2
  rw [heq]
  exact List.mem_append_right _ hc

theorem Path.of_mem (h : Path live next a l) (hb : b ∈ a :: l) : ∃ m, Path live next b m ∧
    ∀ c ∈ b :: m, c ∈ a :: l := by
  rcases List.mem_cons.mp hb with rfl | hb
  · exact ⟨l, h, fun c hc => hc⟩
  · rcases List.append_of_mem hb with ⟨k, m, rfl⟩
    refine ⟨m, h.drop, ?_⟩
    intro c hc
    exact List.mem_cons_of_mem _ (List.mem_append_right _ hc)

/-- A path is the same where its cells are. -/
theorem Path.congr {live' : Finset α} (h : Path live next a l) (hlive : ∀ b ∈ a :: l, b ∈ live')
    (hnext : ∀ b ∈ a :: l, next' b = next b) : Path live' next' a l :=
  ⟨h.1.congr hnext, hlive⟩

/-- Each cell of a path but the first has one of them in front. -/
theorem Path.pred (h : Path live next a l) (hb : b ∈ l) : ∃ c ∈ a :: l, next c = some b := by
  induction l generalizing a with
  | nil => simp at hb
  | cons c l ih =>
    rcases path_cons.mp h with ⟨-, hnext, hrest⟩
    rcases List.mem_cons.mp hb with rfl | hb
    · exact ⟨a, List.mem_cons_self, hnext⟩
    · rcases ih hrest hb with ⟨d, hd, hdb⟩
      exact ⟨d, List.mem_cons_of_mem _ hd, hdb⟩

/-- A path leads nowhere but to its own cells. -/
theorem Path.next_mem (h : Path live next a l) (hb : b ∈ a :: l) (ht : next b = some t) :
    t ∈ a :: l := by
  rcases h.of_mem hb with ⟨m, hm, hsub⟩
  rcases hm.tail ht with ⟨k, rfl, -⟩
  exact hsub t (by simp)

/-- Only one cell of a path points nowhere. -/
theorem Path.eq_of_next_none {c : α} (h : Path live next a l) (hb : b ∈ a :: l) (hc : c ∈ a :: l)
    (hnb : next b = none) (hnc : next c = none) : b = c := by
  induction l generalizing a with
  | nil => rw [List.mem_singleton.mp hb, List.mem_singleton.mp hc]
  | cons d l ih =>
    rcases path_cons.mp h with ⟨-, hnext, hrest⟩
    have hbehind : ∀ e ∈ a :: d :: l, next e = none → e ∈ d :: l := by
      intro e he hnone
      rcases List.mem_cons.mp he with rfl | he
      · rw [hnone] at hnext
        cases hnext
      · exact he
    exact ih hrest (hbehind b hb hnb) (hbehind c hc hnc)

/-- A path has no more cells than there are in use. -/
theorem Path.length_lt (h : Path live next a l) : l.length < live.card := by
  classical
  have hcard := Finset.card_le_card (s := (a :: l).toFinset) (t := live) fun c hc =>
    h.2 c (List.mem_toFinset.mp hc)
  rw [List.toFinset_card_of_nodup h.nodup, List.length_cons] at hcard
  omega

/-! ## Sums -/

/-- Each cell has the sum over itself and the cells behind it. -/
def Summed (live : Finset α) (next : α → Option α) (len tot : α → ℕ) : Prop :=
  ∀ a ∈ live, tot a = len a + (next a).elim 0 tot

/-- The sum gets smaller along a path. -/
theorem Summed.le {len tot : α → ℕ} (h : Summed live next len tot) (hpath : Path live next a l)
    (hb : b ∈ a :: l) : tot b ≤ tot a := by
  induction l generalizing a with
  | nil =>
    rw [List.mem_singleton.mp hb]
  | cons c l ih =>
    rcases path_cons.mp hpath with ⟨ha, hnext, hrest⟩
    rcases List.mem_cons.mp hb with rfl | hb
    · exact le_rfl
    · have hsum := h a ha
      have hle := ih hrest hb
      rw [hnext] at hsum
      simp only [Option.elim_some] at hsum
      omega

/-! ## Counts -/

variable [DecidableEq α]

/-- How many cells in use point to `a`. -/
def pointers (live : Finset α) (next : α → Option α) (a : α) : ℕ :=
  (live.filter fun b => next b = some a).card

/-- The counts are the numbers of references: those of the holders `hs`, and the pointers. -/
structure Counted (live : Finset α) (next : α → Option α) (ref : α → ℕ) (hs : List α) : Prop where
  held : ∀ a ∈ hs, a ∈ live
  path : ∀ a ∈ live, ∃ l, Path live next a l
  ref_eq : ∀ a ∈ live, ref a = hs.count a + pointers live next a
  pos : ∀ a ∈ live, 0 < ref a

theorem pointers_pos : 0 < pointers live next a ↔ ∃ b ∈ live, next b = some a := by
  unfold pointers
  rw [Finset.card_pos]
  simp only [Finset.Nonempty, Finset.mem_filter]

/-- One pointer is written. -/
theorem pointers_update (hb : b ∈ live) (hnext : ∀ c ∈ live, c ≠ b → next' c = next c) :
    pointers live next' a + (if next b = some a then 1 else 0)
      = pointers live next a + (if next' b = some a then 1 else 0) := by
  have hsplit : ∀ f : α → Option α, pointers live f a
      = pointers (live.erase b) f a + (if f b = some a then 1 else 0) := by
    intro f
    unfold pointers
    conv_lhs => rw [← Finset.insert_erase hb, Finset.filter_insert]
    split
    · rw [Finset.card_insert_of_notMem (by simp)]
    · rfl
  have hrest : pointers (live.erase b) next' a = pointers (live.erase b) next a := by
    unfold pointers
    congr 1
    apply Finset.filter_congr
    intro c hc
    rw [hnext c (Finset.mem_of_mem_erase hc) (Finset.ne_of_mem_erase hc)]
  have hnew := hsplit next'
  have hold := hsplit next
  omega

/-! ## What the operations keep -/

/-- Another holder. -/
theorem Counted.retain (h : Counted live next ref hs) (ref' : α → ℕ) (ha : a ∈ live)
    (href : ref' a = ref a + 1)
    (hrest : ∀ b ∈ live, b ≠ a → ref' b = ref b) : Counted live next ref' (a :: hs) where
  held := by
    intro b hb
    rcases List.mem_cons.mp hb with rfl | hb
    · exact ha
    · exact h.held b hb
  path := h.path
  ref_eq := by
    intro b hb
    have hold := h.ref_eq b hb
    by_cases hab : b = a
    · subst hab
      rw [List.count_cons_self]
      omega
    · rw [List.count_cons_of_ne (Ne.symm hab), hrest b hb hab, hold]
  pos := by
    intro b hb
    by_cases hab : b = a
    · rw [hab, href]
      omega
    · rw [hrest b hb hab]
      exact h.pos b hb

/-- A holder gives up its reference, which is not the last one. -/
theorem Counted.release (h : Counted live next ref hs) (ref' : α → ℕ) (ha : a ∈ hs)
    (href : ref' a + 1 = ref a) (hpos : 0 < ref' a) (hrest : ∀ b ∈ live, b ≠ a → ref' b = ref b) :
    Counted live next ref' (hs.erase a) where
  held b hb := h.held b (List.mem_of_mem_erase hb)
  path := h.path
  ref_eq := by
    intro b hb
    have hold := h.ref_eq b hb
    by_cases hab : b = a
    · subst hab
      have hcount := List.count_pos_iff.mpr ha
      rw [List.count_erase_self]
      omega
    · rw [List.count_erase_of_ne hab, hrest b hb hab, hold]
  pos := by
    intro b hb
    by_cases hab : b = a
    · rw [hab]
      exact hpos
    · rw [hrest b hb hab]
      exact h.pos b hb

/-- What is pointed to is in use. -/
theorem Counted.next_mem (h : Counted live next ref hs) (ha : a ∈ live) (ht : next a = some t) :
    t ∈ live := by
  rcases h.path a ha with ⟨l, hpath⟩
  exact hpath.2 t (hpath.next_mem List.mem_cons_self ht)

/-- Nothing points to a cell if its count is that of its holders. -/
theorem Counted.no_pointer (h : Counted live next ref hs) (ha : a ∈ live)
    (hcount : ref a = hs.count a) (hb : b ∈ live) : next b ≠ some a := by
  intro hnext
  have href := h.ref_eq a ha
  have hpos := pointers_pos.mpr ⟨b, hb, hnext⟩
  omega

theorem Counted.congr (h : Counted live next ref hs) (hnext : ∀ a ∈ live, next' a = next a)
    (href : ∀ a ∈ live, ref' a = ref a) : Counted live next' ref' hs where
  held := h.held
  path := by
    intro a ha
    rcases h.path a ha with ⟨l, hpath⟩
    exact ⟨l, hpath.congr hpath.2 fun b hb => hnext b (hpath.2 b hb)⟩
  ref_eq := by
    intro a ha
    have hpointers : pointers live next' a = pointers live next a := by
      unfold pointers
      congr 1
      apply Finset.filter_congr
      intro b hb
      rw [hnext b hb]
    rw [href a ha, hpointers]
    exact h.ref_eq a ha
  pos := by
    intro a ha
    rw [href a ha]
    exact h.pos a ha

/-- In which order the holders are listed does not matter. -/
theorem Counted.perm {ks : List α} (h : Counted live next ref hs) (hperm : hs.Perm ks) :
    Counted live next ref ks where
  held a ha := h.held a (hperm.symm.subset ha)
  path := h.path
  ref_eq := by
    intro a ha
    rw [← hperm.count_eq]
    exact h.ref_eq a ha
  pos := h.pos

/-- If the counts leave room for no other pointers, only the cells of a path point to it. -/
theorem Counted.alone (h : Counted live next ref hs) (hpath : Path live next a l)
    (hcount : ∀ b ∈ a :: l, ref b = hs.count b + if b = a then 0 else 1) {c : α} (hc : c ∈ live)
    (hb : b ∈ a :: l) (hnext : next c = some b) : c ∈ a :: l := by
  have href := h.ref_eq b (hpath.2 b hb)
  rw [hcount b hb] at href
  have hpos := pointers_pos.mpr ⟨c, hc, hnext⟩
  by_cases hba : b = a
  · rw [if_pos hba] at href
    omega
  · rw [if_neg hba] at href
    rcases hpath.pred ((List.mem_cons.mp hb).resolve_left hba) with ⟨d, hd, hdb⟩
    have hone : pointers live next b ≤ 1 := by omega
    have heq := Finset.card_le_one.mp hone c (Finset.mem_filter.mpr ⟨hc, hnext⟩) d
      (Finset.mem_filter.mpr ⟨hpath.2 d hd, hdb⟩)
    rwa [heq]

/-- Nobody else refers to a cell with one reference. -/
theorem Counted.sole (h : Counted live next ref hs) (ha : a ∈ hs) (hone : ref a = 1) :
    hs.count a = 1 ∧ ∀ b ∈ live, next b ≠ some a := by
  have hcount := List.count_pos_iff.mpr ha
  have href := h.ref_eq a (h.held a ha)
  refine ⟨by omega, ?_⟩
  intro b hb hba
  have hpointers := pointers_pos.mpr ⟨b, hb, hba⟩
  omega

/-- A cell that only its holder refers to is collected. The holder has its pointer now. -/
theorem Counted.collect (h : Counted live next ref hs) (ha : a ∈ hs) (hone : ref a = 1)
    (hnext : ∀ b ∈ live, b ≠ a → next' b = next b) (href : ∀ b ∈ live, b ≠ a → ref' b = ref b) :
    Counted (live.erase a) next' ref' ((next a).toList ++ hs.erase a) := by
  rcases h.sole ha hone with ⟨hcount, hsole⟩
  have halive := h.held a ha
  have hnot : a ∉ hs.erase a := by
    rw [← List.count_eq_zero, List.count_erase_self]
    omega
  -- no path from another cell comes through `a`
  have havoid : ∀ {b l}, b ≠ a → Path live next b l → a ∉ b :: l := by
    intro b l hba hpath
    induction l generalizing b with
    | nil => simp [Ne.symm hba]
    | cons c l ih =>
      rcases path_cons.mp hpath with ⟨hb, hbc, hrest⟩
      have hca : c ≠ a := fun hca => hsole b hb (by rw [hbc, hca])
      simp only [List.mem_cons, not_or]
      exact ⟨Ne.symm hba, by simpa using ih hca hrest⟩
  have hkeep : ∀ {b l}, b ≠ a → Path live next b l → Path (live.erase a) next' b l := by
    intro b l hba hpath
    have hmem := havoid hba hpath
    have hne : ∀ c ∈ b :: l, c ≠ a := fun c hc hca => hmem (hca ▸ hc)
    exact hpath.congr (fun c hc => Finset.mem_erase.mpr ⟨hne c hc, hpath.2 c hc⟩)
      fun c hc => hnext c (hpath.2 c hc) (hne c hc)
  have hpointers : ∀ b, pointers live next b
      = pointers (live.erase a) next' b + (next a).toList.count b := by
    intro b
    unfold pointers
    conv_lhs => rw [← Finset.insert_erase halive, Finset.filter_insert]
    have hsame : (live.erase a).filter (fun c => next c = some b)
        = (live.erase a).filter (fun c => next' c = some b) := by
      apply Finset.filter_congr
      intro c hc
      rw [hnext c (Finset.mem_of_mem_erase hc) (Finset.ne_of_mem_erase hc)]
    by_cases hb : next a = some b
    · rw [if_pos hb, Finset.card_insert_of_notMem (by simp), hsame, hb]
      simp
    · rw [if_neg hb, hsame]
      have hnone : (next a).toList.count b = 0 := by
        rw [List.count_eq_zero, Option.mem_toList]
        exact hb
      omega
  refine ⟨?_, ?_, ?_, ?_⟩
  · intro b hb
    rcases List.mem_append.mp hb with hb | hb
    · rcases h.path a halive with ⟨l, hpath⟩
      rcases hpath.tail (Option.mem_toList.mp hb) with ⟨m, -, hm⟩
      refine Finset.mem_erase.mpr ⟨?_, hm.mem⟩
      rintro rfl
      exact hsole b halive (Option.mem_toList.mp hb)
    · exact Finset.mem_erase.mpr ⟨fun hba => hnot (hba ▸ hb), h.held b (List.mem_of_mem_erase hb)⟩
  · intro b hb
    rcases Finset.mem_erase.mp hb with ⟨hba, hlive⟩
    rcases h.path b hlive with ⟨l, hpath⟩
    exact ⟨l, hkeep hba hpath⟩
  · intro b hb
    rcases Finset.mem_erase.mp hb with ⟨hba, hlive⟩
    rw [href b hlive hba, h.ref_eq b hlive, hpointers b, List.count_append,
      List.count_erase_of_ne hba]
    omega
  · intro b hb
    rcases Finset.mem_erase.mp hb with ⟨hba, hlive⟩
    rw [href b hlive hba]
    exact h.pos b hlive

/-- A new cell is handed out. -/
theorem Counted.alloc (h : Counted live next ref hs) (ha : a ∉ live) (hnone : next' a = none)
    (hone : ref' a = 1) (hnext : ∀ b ∈ live, next' b = next b) (href : ∀ b ∈ live, ref' b = ref b) :
    Counted (insert a live) next' ref' (a :: hs) := by
  have hne : ∀ b ∈ live, b ≠ a := fun b hb hba => ha (hba ▸ hb)
  have hkeep : ∀ {b l}, Path live next b l → Path (insert a live) next' b l := by
    intro b l hpath
    exact hpath.congr (fun c hc => Finset.mem_insert_of_mem (hpath.2 c hc))
      fun c hc => hnext c (hpath.2 c hc)
  have hpointers : ∀ b, pointers (insert a live) next' b = pointers live next b := by
    intro b
    unfold pointers
    rw [Finset.filter_insert, if_neg (by simp [hnone])]
    congr 1
    apply Finset.filter_congr
    intro c hc
    rw [hnext c hc]
  have hcount : hs.count a = 0 := List.count_eq_zero.mpr fun hmem => ha (h.held a hmem)
  have hnopointer : pointers live next a = 0 := by
    by_contra hpos
    rcases pointers_pos.mp (Nat.pos_of_ne_zero hpos) with ⟨b, hb, hba⟩
    rcases h.path b hb with ⟨l, hpath⟩
    rcases hpath.tail hba with ⟨m, -, hm⟩
    exact ha hm.mem
  refine ⟨?_, ?_, ?_, ?_⟩
  · intro b hb
    rcases List.mem_cons.mp hb with rfl | hb
    · exact Finset.mem_insert_self _ _
    · exact Finset.mem_insert_of_mem (h.held b hb)
  · intro b hb
    rcases Finset.mem_insert.mp hb with rfl | hb
    · exact ⟨[], path_nil.mpr ⟨Finset.mem_insert_self _ _, hnone⟩⟩
    · rcases h.path b hb with ⟨l, hpath⟩
      exact ⟨l, hkeep hpath⟩
  · intro b hb
    rw [hpointers b]
    rcases Finset.mem_insert.mp hb with rfl | hb
    · rw [hone, List.count_cons_self]
      omega
    · rw [href b hb, h.ref_eq b hb, List.count_cons_of_ne (Ne.symm (hne b hb))]
  · intro b hb
    rcases Finset.mem_insert.mp hb with rfl | hb
    · rw [hone]
      exact Nat.one_pos
    · rw [href b hb]
      exact h.pos b hb

/-- The reference of a holder becomes the pointer of a cell that had none, and that is not behind
it. -/
theorem Counted.link (h : Counted live next ref hs) (next' : α → Option α) (ha : a ∈ live)
    (hnone : next a = none) (ht : t ∈ hs) (hm : Path live next t m) (hbehind : a ∉ t :: m)
    (hnew : next' a = some t) (hnext : ∀ b ∈ live, b ≠ a → next' b = next b) :
    Counted live next' ref (hs.erase t) := by
  have hmne : ∀ c ∈ t :: m, c ≠ a := fun c hc hca => hbehind (hca ▸ hc)
  have hm' : Path live next' t m :=
    hm.congr hm.2 fun c hc => hnext c (hm.2 c hc) (hmne c hc)
  -- a path that ended at `a` goes on
  have hpath' : ∀ {b l}, Path live next b l → ∃ l', Path live next' b l' := by
    intro b l hpath
    induction l generalizing b with
    | nil =>
      rcases path_nil.mp hpath with ⟨hb, hbnone⟩
      by_cases hba : b = a
      · exact ⟨t :: m, path_cons.mpr ⟨hb, hba ▸ hnew, hm'⟩⟩
      · exact ⟨[], path_nil.mpr ⟨hb, (hnext b hb hba).trans hbnone⟩⟩
    | cons c l ih =>
      rcases path_cons.mp hpath with ⟨hb, hbc, hrest⟩
      have hba : b ≠ a := by
        rintro rfl
        rw [hnone] at hbc
        cases hbc
      rcases ih hrest with ⟨l', hl'⟩
      exact ⟨c :: l', path_cons.mpr ⟨hb, (hnext b hb hba).trans hbc, hl'⟩⟩
  refine ⟨fun b hb => h.held b (List.mem_of_mem_erase hb), ?_, ?_, h.pos⟩
  · intro b hb
    rcases h.path b hb with ⟨l, hpath⟩
    exact hpath' hpath
  · intro b hb
    have hpointers := pointers_update (a := b) ha hnext
    rw [hnone, hnew] at hpointers
    have hold := h.ref_eq b hb
    by_cases hbt : b = t
    · subst hbt
      have hcount := List.count_pos_iff.mpr ht
      simp only [reduceCtorEq, if_false, if_true] at hpointers
      rw [List.count_erase_self]
      omega
    · have hne : ¬(some t = some b) := by simpa using Ne.symm hbt
      rw [if_neg (by simp), if_neg hne] at hpointers
      rw [List.count_erase_of_ne hbt]
      omega

/-- A pointer becomes the reference of a holder. -/
theorem Counted.cut (h : Counted live next ref hs) (next' : α → Option α) (ha : a ∈ live)
    (hsome : next a = some t) (hnew : next' a = none)
    (hnext : ∀ b ∈ live, b ≠ a → next' b = next b) :
    Counted live next' ref (t :: hs) := by
  have htlive : t ∈ live := by
    rcases h.path a ha with ⟨l, hpath⟩
    rcases hpath.tail hsome with ⟨m, -, hm⟩
    exact hm.mem
  -- a path ends at `a` now
  have hpath' : ∀ {b l}, Path live next b l → ∃ l', Path live next' b l' := by
    intro b l hpath
    induction l generalizing b with
    | nil =>
      rcases path_nil.mp hpath with ⟨hb, hbnone⟩
      by_cases hba : b = a
      · exact ⟨[], path_nil.mpr ⟨hb, hba ▸ hnew⟩⟩
      · exact ⟨[], path_nil.mpr ⟨hb, (hnext b hb hba).trans hbnone⟩⟩
    | cons c l ih =>
      rcases path_cons.mp hpath with ⟨hb, hbc, hrest⟩
      by_cases hba : b = a
      · exact ⟨[], path_nil.mpr ⟨hb, hba ▸ hnew⟩⟩
      · rcases ih hrest with ⟨l', hl'⟩
        exact ⟨c :: l', path_cons.mpr ⟨hb, (hnext b hb hba).trans hbc, hl'⟩⟩
  refine ⟨?_, ?_, ?_, h.pos⟩
  · intro b hb
    rcases List.mem_cons.mp hb with rfl | hb
    · exact htlive
    · exact h.held b hb
  · intro b hb
    rcases h.path b hb with ⟨l, hpath⟩
    exact hpath' hpath
  · intro b hb
    have hpointers := pointers_update (a := b) ha hnext
    rw [hsome, hnew] at hpointers
    have hold := h.ref_eq b hb
    by_cases hbt : b = t
    · subst hbt
      simp only [reduceCtorEq, if_false, if_true] at hpointers
      rw [List.count_cons_self]
      omega
    · have hne : ¬(some t = some b) := by simpa using Ne.symm hbt
      rw [if_neg hne, if_neg (by simp)] at hpointers
      rw [List.count_cons_of_ne (Ne.symm hbt)]
      omega

/-! ## Nothing is left behind -/

/-- Whatever is in use can be reached from a holder. -/
theorem Counted.reached (h : Counted live next ref hs) (ha : a ∈ live) :
    ∃ b ∈ hs, ∃ l, Path live next b l ∧ a ∈ b :: l := by
  -- a cell that points to `a` has a longer path, and no path is longer than there are cells
  suffices hgen : ∀ n a l, Path live next a l → live.card - l.length = n →
      ∃ b ∈ hs, ∃ l, Path live next b l ∧ a ∈ b :: l by
    rcases h.path a ha with ⟨l, hpath⟩
    exact hgen _ a l hpath rfl
  intro n
  induction n with
  | zero =>
    intro a l hpath hlen
    have hshort := hpath.length_lt
    omega
  | succ n ih =>
    intro a l hpath hlen
    by_cases hcount : hs.count a = 0
    · have hpos := h.pos a hpath.mem
      have href := h.ref_eq a hpath.mem
      rcases pointers_pos.mp (by omega : 0 < pointers live next a) with ⟨c, hc, hca⟩
      rcases ih c (a :: l) (path_cons.mpr ⟨hc, hca, hpath⟩) (by simp only [List.length_cons]; omega)
        with ⟨b, hb, m, hm, hmem⟩
      refine ⟨b, hb, m, hm, ?_⟩
      rcases hm.of_mem hmem with ⟨k, hk, hsub⟩
      rcases hk.tail hca with ⟨k', rfl, -⟩
      exact hsub a (by simp)
    · exact ⟨a, List.count_pos_iff.mp (Nat.pos_of_ne_zero hcount), l, hpath, List.mem_cons_self⟩

/-- What holders have, and what that leads to, is all there is. -/
theorem Counted.subset (h : Counted live next ref hs) {S : Finset α}
    (hclosed : ∀ a ∈ S, ∀ b, next a = some b → b ∈ S) (hheld : ∀ a ∈ hs, a ∈ S) (ha : a ∈ live) :
    a ∈ S := by
  rcases h.reached ha with ⟨b, hb, l, hpath, hmem⟩
  have hb' := hheld b hb
  clear hb
  induction l generalizing b with
  | nil => rwa [List.mem_singleton.mp hmem]
  | cons c l ih =>
    rcases path_cons.mp hpath with ⟨-, hnext, hrest⟩
    rcases List.mem_cons.mp hmem with rfl | hmem
    · exact hb'
    · exact ih c hrest hmem (hclosed b hb' c hnext)

/-- Without a holder nothing is in use. -/
theorem Counted.eq_empty (h : Counted live next ref []) : live = ∅ := by
  rw [Finset.eq_empty_iff_forall_notMem]
  intro a ha
  rcases h.reached ha with ⟨b, hb, -⟩
  simp at hb

end RefCount
