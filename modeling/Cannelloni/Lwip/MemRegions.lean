import Cannelloni.Lwip.MemOps
import Mathlib.Data.List.Nodup
import Mathlib.Data.List.Perm.Basic
import Mathlib.Algebra.Order.BigOperators.Group.List

/-!
# What the users of the heap get

The regions the users hold are the blocks in use, one each, and what was written into a region is
there until it is given back. The rest of the heap is one block between any two of them, so that
`mem_malloc` finds room wherever there is some.
-/

namespace Cannelloni

open Blocks

/-! ## The block of a region -/

namespace Heap

variable {h h' : Heap} {bs : List Block} {e : ℕ × ℕ} {rmem : ℕ}

/-- The `struct mem` of a region. -/
def block (h : Heap) (rmem : ℕ) : ℕ := rmem - sizeofStructMem - h.ram

/-- How long the block of a region is. -/
def blockSize (h : Heap) (rmem : ℕ) : ℕ := h.next (h.block rmem) - h.block rmem

/-- What is handed out for the block at `start`. -/
def address (h : Heap) (start : ℕ) : ℕ := h.ram + start + sizeofStructMem

@[simp] theorem block_address (start : ℕ) : h.block (h.address start) = start := by
  simp only [block, address]
  omega

/-- The header of a block in use says how long it is. -/
theorem Chain.next_of_mem (hc : h.Chain bs) (he : e ∈ extents 0 bs) : h.next e.1 = e.1 + e.2 := by
  rcases exists_of_mem_extents he with ⟨l, r, rfl, heq⟩
  rw [Nat.zero_add] at heq
  rw [heq]
  exact hc.at.1

theorem Chain.blockSize_of_mem (hc : h.Chain bs) (he : e ∈ extents 0 bs) :
    h.blockSize (h.address e.1) = e.2 := by
  rw [blockSize, block_address, hc.next_of_mem he]
  omega

theorem Chain.size_of_mem (hc : h.Chain bs) (he : e ∈ extents 0 bs) : 24 ≤ e.2 := by
  rcases exists_of_mem_extents he with ⟨l, r, rfl, -⟩
  exact hc.bounds.2.1

/-- A block in use is known by its start. -/
theorem Chain.eq_of_start (hc : h.Chain bs) {f : ℕ × ℕ} (he : e ∈ extents 0 bs)
    (hf : f ∈ extents 0 bs) (hstart : e.1 = f.1) : e = f := by
  have hse := hc.size_of_mem he
  have hsf := hc.size_of_mem hf
  rcases eq_or_apart he hf with heq | hle | hle
  · exact heq
  · omega
  · omega

end Heap

/-! ## The regions are the blocks in use -/

namespace HeapSystem

variable {s s' : HeapSystem} {bs bs' : List Block} {heap : Heap} {held : List Region}

/-- Each block in use is held by one user, who fits in it, and has the bytes that were written. -/
structure Good (s : HeapSystem) (bs : List Block) : Prop where
  layout : s.heap.Layout bs
  ram : 4 ∣ s.heap.ram
  owners : (s.held.map Region.rmem).Perm ((extents 0 bs).map fun e => s.heap.address e.1)
  fits : ∀ r ∈ s.held, roundUp r.data.length + 12 ≤ s.heap.blockSize r.rmem ∧
    s.heap.blockSize r.rmem < roundUp r.data.length + 36
  intact : ∀ r ∈ s.held, ∀ i v, r.data[i]? = some (some v) →
    s.heap.bytes (r.rmem - s.heap.ram + i) = v

/-- The block of a region. -/
theorem Good.extent (h : s.Good bs) {r : Region} (hr : r ∈ s.held) :
    ∃ e ∈ extents 0 bs, r.rmem = s.heap.address e.1 ∧ roundUp r.data.length + 12 ≤ e.2 ∧
      e.2 < roundUp r.data.length + 36 := by
  have hmem := h.owners.subset (List.mem_map_of_mem hr)
  rcases List.mem_map.mp hmem with ⟨e, he, heq⟩
  have hfits := h.fits r hr
  rw [← heq, h.layout.blockSize_of_mem he] at hfits
  exact ⟨e, he, heq.symm, hfits⟩

/-- The region of a block. -/
theorem Good.region (h : s.Good bs) {e : ℕ × ℕ} (he : e ∈ extents 0 bs) :
    ∃ r ∈ s.held, r.rmem = s.heap.address e.1 :=
  List.mem_map.mp (h.owners.symm.subset (List.mem_map_of_mem (f := fun e => s.heap.address e.1) he))

/-- No two users hold the same pointer. -/
theorem Good.nodup (h : s.Good bs) : (s.held.map Region.rmem).Nodup := by
  rw [h.owners.nodup_iff, List.Nodup, List.pairwise_map]
  refine (extents_pairwise 0 bs).imp_of_mem ?_
  intro e f he _ hle heq
  have hsize := h.layout.size_of_mem he
  simp only [Heap.address] at heq
  omega

/-- An operation keeps what the users have if the blocks in use are those of what is held now. -/
theorem good_of_becomes (hram : 4 ∣ s.heap.ram) (hb : s.heap.Becomes heap bs)
    (howners : (held.map Region.rmem).Perm ((extents 0 bs).map fun e => s.heap.address e.1))
    (hfits : ∀ r ∈ held, ∀ e ∈ extents 0 bs, r.rmem = s.heap.address e.1 →
      roundUp r.data.length + 12 ≤ e.2 ∧ e.2 < roundUp r.data.length + 36)
    (hintact : ∀ r ∈ held, ∀ i v, r.data[i]? = some (some v) →
      s.heap.bytes (r.rmem - s.heap.ram + i) = v) : Good ⟨heap, held⟩ bs := by
  have haddress : ∀ start, heap.address start = s.heap.address start := by
    intro start
    simp only [Heap.address, hb.ram]
  have hextent : ∀ r ∈ held, ∃ e ∈ extents 0 bs, r.rmem = s.heap.address e.1 := by
    intro r hr
    rcases List.mem_map.mp (howners.subset (List.mem_map_of_mem hr)) with ⟨e, he, heq⟩
    exact ⟨e, he, heq.symm⟩
  refine ⟨hb.layout, ?_, ?_, ?_, ?_⟩
  · simpa only [hb.ram] using hram
  · simpa only [haddress] using howners
  · intro r hr
    rcases hextent r hr with ⟨e, he, heq⟩
    show _ ≤ heap.blockSize r.rmem ∧ heap.blockSize r.rmem < _
    rw [heq, ← haddress, hb.layout.blockSize_of_mem he]
    exact hfits r hr e he heq
  · intro r hr i v hv
    rcases hextent r hr with ⟨e, he, heq⟩
    have hlen : i < r.data.length := (List.getElem?_eq_some_iff.mp hv).1
    have hfit := (hfits r hr e he heq).1
    have hround := roundUp_bounds r.data.length
    show heap.bytes (r.rmem - heap.ram + i) = v
    rw [hb.ram, ← hintact r hr i v hv]
    have h12 : sizeofStructMem = 12 := rfl
    simp only [Heap.address] at heq
    exact hb.data e he _ (by omega) (by omega)

/-! ## The steps -/

/-- The state after `mem_malloc`. -/
theorem Good.malloc (h : s.Good bs) (size : UInt32) :
    ∃ s' bs', s.step (.malloc size) = .ok s' ∧ s'.Good bs' := by
  by_cases hpos : size = 0
  · have hnull : s.heap.memMalloc size = .ok (none, s.heap) := if_pos hpos
    refine ⟨s, bs, ?_, h⟩
    exact Run.bind_eq_ok.mpr ⟨_, hnull, rfl⟩
  · rcases h.layout.memMalloc h.ram hpos with
      ⟨l, n0, r, heap, n, r', rfl, -, -, hmalloc, hbecomes, hext, hn, hn'⟩ | ⟨-, hnull⟩
    · have hold : extents 0 (l ++ ⟨n0, false⟩ :: r) = extents 0 l ++ extents (span l + n) r' := by
        rw [extents_append, extents_unused, Nat.zero_add, hext]
      have hnew : extents 0 (l ++ ⟨n, true⟩ :: r')
          = extents 0 l ++ (span l, n) :: extents (span l + n) r' := by
        rw [extents_append, extents_used, Nat.zero_add]
      refine ⟨_, l ++ ⟨n, true⟩ :: r', Run.bind_eq_ok.mpr ⟨_, hmalloc, rfl⟩, ?_⟩
      refine good_of_becomes h.ram hbecomes ?_ ?_ ?_
      · have howners := h.owners
        rw [hold] at howners
        rw [hnew]
        simp only [List.map_append, List.map_cons, Option.toList_some, List.map_nil,
          List.singleton_append] at howners ⊢
        exact (howners.cons _).trans List.perm_middle.symm
      · intro q hq e he heq
        rcases List.mem_append.mp hq with hq | hq
        · -- the new region
          simp only [Option.toList_some, List.map_cons, List.map_nil, List.mem_singleton] at hq
          subst hq
          have hstart : e.1 = span l := by
            simp only [Heap.address] at heq
            omega
          have heq' := hbecomes.chain.eq_of_start (f := (span l, n)) he (by simp [hnew]) hstart
          rw [heq', List.length_replicate]
          exact ⟨hn, hn'⟩
        · rcases h.extent hq with ⟨f, hf, hq', hfit⟩
          have hf' : f ∈ extents 0 (l ++ ⟨n, true⟩ :: r') := by
            rw [hold, List.mem_append] at hf
            rw [hnew, List.mem_append, List.mem_cons]
            rcases hf with hf | hf
            · exact .inl hf
            · exact .inr (.inr hf)
          have hstart : e.1 = f.1 := by
            simp only [hq', Heap.address] at heq
            omega
          rw [hbecomes.chain.eq_of_start he hf' hstart]
          exact hfit
      · intro q hq i v hv
        rcases List.mem_append.mp hq with hq | hq
        · simp only [Option.toList_some, List.map_cons, List.map_nil, List.mem_singleton] at hq
          subst hq
          simp [List.getElem?_replicate] at hv
        · exact h.intact q hq i v hv
    · refine ⟨s, bs, ?_, h⟩
      exact Run.bind_eq_ok.mpr ⟨_, hnull, rfl⟩

/-- The state after `mem_free` of a region. -/
theorem Good.free (h : s.Good bs) {r : Region} (hr : r ∈ s.held) :
    ∃ s' bs', s.step (.free r.rmem) = .ok s' ∧ s'.Good bs' ∧ s'.heap.ram = s.heap.ram ∧
      s'.heap.used (s.heap.block r.rmem) = 0 := by
  rcases h.extent hr with ⟨e, he, hrmem, -⟩
  rcases exists_of_mem_extents he with ⟨l, r', rfl, hstart⟩
  rw [Nat.zero_add] at hstart
  rw [hstart] at hrmem
  rcases h.layout.memFree h.ram with ⟨heap, bs', hfree, hbecomes, hext, hused⟩
  have hold : extents 0 (l ++ ⟨e.2, true⟩ :: r')
      = extents 0 l ++ (span l, e.2) :: extents (span l + e.2) r' := by
    rw [extents_append, extents_used, Nat.zero_add]
  -- the region is taken out of what is held
  rcases List.exists_of_eraseP (p := fun q => decide (q.rmem = r.rmem)) hr (by simp) with
    ⟨q, held₁, held₂, -, hq, hheld, herase⟩
  have hqr : q.rmem = s.heap.address (span l) := by
    rw [← hrmem]
    simpa using hq
  have howners := h.owners
  rw [hold, hheld] at howners
  simp only [List.map_append, List.map_cons, hqr] at howners
  have hperm : ((held₁ ++ held₂).map Region.rmem).Perm
      ((extents 0 bs').map fun e => s.heap.address e.1) := by
    rw [hext, List.map_append, List.map_append]
    exact (List.perm_cons _).mp ((List.perm_middle.symm.trans howners).trans List.perm_middle)
  have hsub : ∀ q ∈ held₁ ++ held₂, q ∈ s.held := by
    intro q hq
    rw [hheld]
    rcases List.mem_append.mp hq with hq | hq <;> simp [hq]
  refine ⟨⟨heap, held₁ ++ held₂⟩, bs', ?_, ?_, hbecomes.ram, ?_⟩
  · refine Run.bind_eq_ok.mpr ⟨heap, ?_, ?_⟩
    · rw [hrmem]
      exact hfree
    · rw [herase]
      rfl
  · refine good_of_becomes h.ram hbecomes hperm ?_ ?_
    · intro q hq f hf heq
      rcases h.extent (hsub q hq) with ⟨f', hf', hq', hfit⟩
      have hfold : f ∈ extents 0 (l ++ ⟨e.2, true⟩ :: r') := by
        rw [hext, List.mem_append] at hf
        rw [hold, List.mem_append, List.mem_cons]
        rcases hf with hf | hf
        · exact .inl hf
        · exact .inr (.inr hf)
      have hstart' : f.1 = f'.1 := by
        simp only [hq', Heap.address] at heq
        omega
      rw [h.layout.eq_of_start hfold hf' hstart']
      exact hfit
    · exact fun q hq => h.intact q (hsub q hq)
  · rw [hrmem, Heap.block_address]
    exact hused

/-- The region is the last one in the heap, and the part that is given back would be a block. -/
def TrimsEnd (s : HeapSystem) : HeapEvent → Prop
  | .trim rmem newSize =>
    s.heap.next (s.heap.block rmem) = memSizeAligned ∧
      roundUp newSize.toNat + 36 ≤ s.heap.blockSize rmem
  | _ => False

instance (s : HeapSystem) : ∀ e, Decidable (s.TrimsEnd e)
  | .trim rmem newSize => inferInstanceAs (Decidable (s.heap.next (s.heap.block rmem) = memSizeAligned ∧
      roundUp newSize.toNat + 36 ≤ s.heap.blockSize rmem))
  | .malloc _ => inferInstanceAs (Decidable False)
  | .free _ => inferInstanceAs (Decidable False)
  | .write _ _ _ => inferInstanceAs (Decidable False)

/-- The block of a region is the last one exactly when its header says that the heap ends there. -/
theorem nil_iff_next {h : Heap} {l r : List Block} {n : ℕ} (hc : h.Chain (l ++ ⟨n, true⟩ :: r)) :
    r = [] ↔ h.next (span l) = memSizeAligned := by
  have hbounds := hc.bounds
  simp only at hbounds
  rw [hc.at.1]
  constructor
  · rintro rfl
    simpa using hbounds.1
  · intro hend
    by_contra hr
    rw [List.append_cons] at hc
    have hlt := hc.lt_of_ne_nil hr
    simp only [span_append, span_cons, span_nil] at hlt hend
    omega

/-- The state after `mem_trim` of a region. -/
theorem Good.trim (h : s.Good bs) {r : Region} (hr : r ∈ s.held) {newSize : UInt32}
    (hle : newSize.toNat ≤ r.data.length) :
    (s.TrimsEnd (.trim r.rmem newSize) ∧ s.step (.trim r.rmem newSize) = .error .invalidNextPtr) ∨
    ¬s.TrimsEnd (.trim r.rmem newSize) ∧
      ∃ s' bs', s.step (.trim r.rmem newSize) = .ok s' ∧ s'.Good bs' := by
  rcases h.extent hr with ⟨e, he, hrmem, hfit, -⟩
  have hsize := h.layout.blockSize_of_mem he
  rcases exists_of_mem_extents he with ⟨l, r', rfl, hstart⟩
  rw [Nat.zero_add] at hstart
  rw [hstart] at hrmem hsize
  have hmono := roundUp_mono hle
  have hends : s.TrimsEnd (.trim r.rmem newSize) ↔ r' = [] ∧ roundUp newSize.toNat + 36 ≤ e.2 := by
    show (s.heap.next (s.heap.block r.rmem) = memSizeAligned ∧
      roundUp newSize.toNat + 36 ≤ s.heap.blockSize r.rmem) ↔ _
    rw [nil_iff_next h.layout.toChain, hrmem, Heap.block_address, hsize]
  rw [hends]
  rcases h.layout.memTrim newSize (by omega) with
    ⟨hnil, hlong, htrim⟩ | ⟨hcond, heap, n, r'', htrim, hbecomes, hext, hn, hn'⟩
  · left
    refine ⟨⟨hnil, hlong⟩, ?_⟩
    show (s.heap.memTrim r.rmem newSize >>= fun _ => _) = _
    have htrim' : s.heap.memTrim r.rmem newSize = .error .invalidNextPtr := by
      rw [hrmem]
      exact htrim
    rw [htrim']
    rfl
  · right
    have htrim' : s.heap.memTrim r.rmem newSize = .ok (some r.rmem, heap) := by
      rw [hrmem]
      exact htrim
    refine ⟨hcond, _, l ++ ⟨n, true⟩ :: r'', Run.bind_eq_ok.mpr ⟨_, htrim', rfl⟩, ?_⟩
    have hold : extents 0 (l ++ ⟨e.2, true⟩ :: r')
        = extents 0 l ++ (span l, e.2) :: extents (span l + e.2) r' := by
      rw [extents_append, extents_used, Nat.zero_add]
    have hnew : extents 0 (l ++ ⟨n, true⟩ :: r'')
        = extents 0 l ++ (span l, n) :: extents (span l + e.2) r' := by
      rw [extents_append, extents_used, Nat.zero_add, hext]
    -- a region that is held now, and what it was
    have hheld : ∀ q' ∈ s.held.map (fun q => if some r.rmem = some q.rmem then
        { q with data := q.data.take newSize.toNat } else q), ∃ q ∈ s.held, q'.rmem = q.rmem ∧
        (q = r ∧ q'.data = r.data.take newSize.toNat ∨ q.rmem ≠ r.rmem ∧ q' = q) := by
      intro q' hq'
      rcases List.mem_map.mp hq' with ⟨q, hq, rfl⟩
      refine ⟨q, hq, ?_⟩
      by_cases hqr : q.rmem = r.rmem
      · rw [if_pos (by rw [hqr])]
        obtain rfl : q = r := List.inj_on_of_nodup_map h.nodup hq hr hqr
        exact ⟨rfl, .inl ⟨rfl, rfl⟩⟩
      · rw [if_neg (by simpa using Ne.symm hqr)]
        exact ⟨rfl, .inr ⟨hqr, rfl⟩⟩
    refine good_of_becomes h.ram hbecomes ?_ ?_ ?_
    · have howners := h.owners
      rw [hold] at howners
      rw [hnew, List.map_map]
      have hmap : Region.rmem ∘ (fun q => if some r.rmem = some q.rmem then
          { q with data := q.data.take newSize.toNat } else q) = Region.rmem := by
        funext q
        simp only [Function.comp_apply]
        split <;> rfl
      rw [hmap]
      simpa only [List.map_append, List.map_cons] using howners
    · intro q' hq' f hf heq
      rcases hheld q' hq' with ⟨q, hq, hrq, ⟨rfl, hdata⟩ | ⟨hne, rfl⟩⟩
      · have hstart' : f.1 = span l := by
          simp only [hrq, hrmem, Heap.address] at heq
          omega
        have heq' := hbecomes.chain.eq_of_start (f := (span l, n)) hf (by simp [hnew]) hstart'
        rw [heq', hdata, List.length_take, Nat.min_eq_left hle]
        exact ⟨hn.1, hn'⟩
      · rcases h.extent hq with ⟨f', hf', hq'', hfit'⟩
        have hf'' : f' ∈ extents 0 (l ++ ⟨n, true⟩ :: r'') := by
          rw [hold, List.mem_append, List.mem_cons] at hf'
          rw [hnew, List.mem_append, List.mem_cons]
          rcases hf' with hf' | rfl | hf'
          · exact .inl hf'
          · exact absurd (hq''.trans hrmem.symm) hne
          · exact .inr (.inr hf')
        have hstart' : f.1 = f'.1 := by
          simp only [hq'', Heap.address] at heq
          omega
        rw [hbecomes.chain.eq_of_start hf hf'' hstart']
        exact hfit'
    · intro q' hq' i v hv
      rcases hheld q' hq' with ⟨q, hq, hrq, ⟨rfl, hdata⟩ | ⟨-, rfl⟩⟩
      · rw [hdata, List.getElem?_take] at hv
        split at hv
        · rw [hrq]
          exact h.intact q hq i v hv
        · simp at hv
      · exact h.intact q' hq i v hv

/-- The state after a byte was written. -/
theorem Good.write (h : s.Good bs) {r : Region} (hr : r ∈ s.held) {offset : ℕ}
    (hlt : offset < r.data.length) (v : UInt8) :
    ∃ s', s.step (.write r.rmem offset v) = .ok s' ∧ s'.Good bs := by
  rcases h.extent hr with ⟨e, he, hrmem, hfit, -⟩
  have hround := roundUp_bounds r.data.length
  have h12 : sizeofStructMem = 12 := rfl
  set j := r.rmem - s.heap.ram + offset with hj
  have hin : e.1 + 12 ≤ j ∧ j < e.1 + e.2 := by
    simp only [hrmem, Heap.address] at hj
    omega
  have hchain : Heap.Chain { s.heap with bytes := Function.update s.heap.bytes j v } bs := by
    rcases exists_of_mem_extents he with ⟨l, r', rfl, hstart⟩
    rw [Nat.zero_add] at hstart
    rw [hstart] at hin
    exact h.layout.write hin v
  refine ⟨_, rfl, ⟨⟨hchain, h.layout.merged, h.layout.lfree⟩, h.ram, ?_, ?_, ?_⟩⟩
  · have hmap : Region.rmem ∘ (fun q => if q.rmem = r.rmem then
        { q with data := q.data.set offset (some v) } else q) = Region.rmem := by
      funext q
      simp only [Function.comp_apply]
      split <;> rfl
    rw [List.map_map, hmap]
    exact h.owners
  · intro q' hq'
    rcases List.mem_map.mp hq' with ⟨q, hq, rfl⟩
    have hsame : Heap.blockSize { s.heap with bytes := Function.update s.heap.bytes j v } q.rmem
        = s.heap.blockSize q.rmem := by
      rcases h.extent hq with ⟨f, hf, hqf, -⟩
      rw [hqf, h.layout.blockSize_of_mem hf]
      exact hchain.blockSize_of_mem hf
    have hfits := h.fits q hq
    rw [← hsame] at hfits
    split
    · simpa only [List.length_set] using hfits
    · exact hfits
  · intro q' hq' i w hw
    rcases List.mem_map.mp hq' with ⟨q, hq, rfl⟩
    show Function.update s.heap.bytes j v (_ - s.heap.ram + i) = w
    by_cases hqr : q.rmem = r.rmem
    · rw [if_pos hqr] at hw ⊢
      obtain rfl : q = r := List.inj_on_of_nodup_map h.nodup hq hr hqr
      show Function.update s.heap.bytes j v (q.rmem - s.heap.ram + i) = w
      by_cases hi : i = offset
      · -- the byte that was written
        rw [hi, List.getElem?_set_self hlt] at hw
        rw [hi, ← hj, Function.update_self]
        simpa using hw
      · rw [List.getElem?_set_ne (Ne.symm hi)] at hw
        rw [Function.update_of_ne (by omega)]
        exact h.intact q hq i w hw
    · rw [if_neg hqr] at hw ⊢
      rcases h.extent hq with ⟨f, hf, hqf, hfitf, -⟩
      have hlen : i < q.data.length := (List.getElem?_eq_some_iff.mp hw).1
      have hroundf := roundUp_bounds q.data.length
      have hapart : e.1 + e.2 ≤ f.1 ∨ f.1 + f.2 ≤ e.1 := by
        rcases eq_or_apart he hf with rfl | hor
        · exact absurd (hqf.trans hrmem.symm) hqr
        · exact hor
      have hne : q.rmem - s.heap.ram + i ≠ j := by
        simp only [hqf, Heap.address]
        omega
      rw [Function.update_of_ne hne]
      exact h.intact q hq i w hw

/-! ## The runs -/

/-- `mem_init` makes one free block of the heap. -/
theorem good_init (ramHeapPointer : ℕ) (bytes : ℕ → UInt8) :
    (init ramHeapPointer bytes).Good [⟨memSizeAligned, false⟩] := by
  have hmem := memSizeAligned_lt
  have h24 : 24 ≤ memSizeAligned := by decide
  set h1 : Heap := ⟨lwipMemAlign ramHeapPointer, bytes, 0⟩
  set h2 := ((h1.setNext 0 memSizeAligned).setPrev 0 0).setUsed 0 0 with hh2
  set h3 := ((h2.setUsed memSizeAligned 1).setNext memSizeAligned memSizeAligned).setPrev
    memSizeAligned memSizeAligned with hh3
  have hnext : h3.next 0 = memSizeAligned := by
    rw [hh3, Heap.next_setPrev (by omega), Heap.next_setNext_of_ne (by omega),
      Heap.next_setUsed (by omega), hh2, Heap.next_setUsed (by omega), Heap.next_setPrev (by omega),
      Heap.next_setNext hmem]
  have hprev : h3.prev 0 = 0 := by
    rw [hh3, Heap.prev_setPrev_of_ne (by omega), Heap.prev_setNext (by omega),
      Heap.prev_setUsed (by omega), hh2, Heap.prev_setUsed (by omega), Heap.prev_setPrev (by omega)]
  have hused : h3.used 0 = 0 := by
    rw [hh3, Heap.used_setPrev (by omega), Heap.used_setNext (by omega),
      Heap.used_setUsed_of_ne (by omega), hh2, Heap.used_setUsed]
  have hend : h3.used memSizeAligned = 1 := by
    rw [hh3, Heap.used_setPrev (by omega), Heap.used_setNext (by omega), Heap.used_setUsed]
  refine ⟨⟨⟨⟨?_, hprev, ?_, trivial⟩, rfl, ?_, ?_⟩, ?_, rfl⟩, ?_, List.Perm.nil, ?_, ?_⟩
  · exact hnext.trans (Nat.zero_add _).symm
  · show decide (h3.used 0 ≠ 0) = false
    rw [hused]
    rfl
  · intro b hb
    rw [List.mem_singleton.mp hb]
    decide
  · show h3.used memSizeAligned ≠ 0
    rw [hend]
    decide
  · exact List.isChain_singleton _
  · show 4 ∣ lwipMemAlign ramHeapPointer
    unfold lwipMemAlign
    omega
  · intro r hr
    simp [init] at hr
  · intro r hr
    simp [init] at hr

/-- What a step does as long as the users keep to what they hold. -/
theorem Good.step (h : s.Good bs) {e : HeapEvent} (he : s.Proper e) :
    (s.TrimsEnd e ∧ s.step e = .error .invalidNextPtr) ∨
      ¬s.TrimsEnd e ∧ ∃ s' bs', s.step e = .ok s' ∧ s'.Good bs' := by
  cases e with
  | malloc size => exact .inr ⟨id, h.malloc size⟩
  | free rmem =>
    right
    refine ⟨id, ?_⟩
    rcases he with rfl | ⟨r, hr, rfl⟩
    · -- `NULL`
      refine ⟨s, bs, ?_, h⟩
      have hheld : s.held.eraseP (fun r => r.rmem = 0) = s.held := by
        apply List.eraseP_of_forall_not
        intro r hr
        rcases h.extent hr with ⟨e, -, hrmem, -⟩
        simp [hrmem, Heap.address, sizeofStructMem]
      show Except.ok (⟨s.heap, s.held.eraseP fun r => r.rmem = 0⟩ : HeapSystem) = _
      rw [hheld]
    · rcases h.free hr with ⟨s', bs', hstep, hgood, -⟩
      exact ⟨s', bs', hstep, hgood⟩
  | trim rmem newSize =>
    rcases he with ⟨r, hr, rfl, hle⟩
    exact h.trim hr hle
  | write rmem offset v =>
    rcases he with ⟨r, hr, rfl, hlt⟩
    rcases h.write hr hlt v with ⟨s', hstep, hgood⟩
    exact .inr ⟨id, s', bs, hstep, hgood⟩

/-- What the users can rely on: their regions are aligned and in the heap, no two of them meet, and
a byte that was written is there. -/
structure Sound (s : HeapSystem) : Prop where
  aligned : ∀ r ∈ s.held, 4 ∣ r.rmem
  inside : ∀ r ∈ s.held, s.heap.ram + sizeofStructMem ≤ r.rmem ∧
    r.rmem + roundUp r.data.length ≤ s.heap.ram + memSizeAligned
  apart : s.held.Pairwise fun r q =>
    r.rmem + roundUp r.data.length + sizeofStructMem ≤ q.rmem ∨
      q.rmem + roundUp q.data.length + sizeofStructMem ≤ r.rmem
  intact : ∀ r ∈ s.held, ∀ i v, r.data[i]? = some (some v) →
    s.heap.bytes (r.rmem - s.heap.ram + i) = v

theorem Good.sound (h : s.Good bs) : s.Sound where
  aligned := by
    intro r hr
    rcases h.extent hr with ⟨e, he, hrmem, -⟩
    rcases exists_of_mem_extents he with ⟨l, r', rfl, hstart⟩
    have hbounds := h.layout.bounds
    have hram := h.ram
    have h12 : sizeofStructMem = 12 := rfl
    rw [hrmem, Heap.address, hstart]
    omega
  inside := by
    intro r hr
    rcases h.extent hr with ⟨e, he, hrmem, hfit, -⟩
    have hbounds := extent_bounds he
    rw [h.layout.fills] at hbounds
    have h12 : sizeofStructMem = 12 := rfl
    rw [hrmem, Heap.address]
    omega
  apart := by
    have hne := List.pairwise_map.mp h.nodup
    refine hne.imp_of_mem ?_
    intro r q hr hq hrq
    rcases h.extent hr with ⟨e, he, hrmem, hfit, -⟩
    rcases h.extent hq with ⟨f, hf, hqmem, hfitf, -⟩
    have h12 : sizeofStructMem = 12 := rfl
    rw [hrmem, hqmem] at hrq ⊢
    rcases eq_or_apart he hf with rfl | hle | hle
    · exact absurd rfl hrq
    · left
      simp only [Heap.address]
      omega
    · right
      simp only [Heap.address]
      omega
  intact := h.intact

/-- As long as the users keep to what they hold, no assertion of the heap fails, and their regions
are sound, unless the end of the last region is given back. -/
theorem heap_sound (ramHeapPointer : ℕ) (bytes : ℕ → UInt8) {events : List HeapEvent}
    (h : Run.Along step (fun s e => s.Proper e ∧ ¬s.TrimsEnd e) (init ramHeapPointer bytes)
      events) : ∃ s, run ramHeapPointer bytes events = .ok s ∧ s.Sound := by
  have hstep : ∀ (s : HeapSystem) (e : HeapEvent), (∃ bs, s.Good bs) →
      s.Proper e ∧ ¬s.TrimsEnd e → ∃ s', s.step e = .ok s' ∧ ∃ bs, s'.Good bs := by
    rintro s e ⟨bs, hgood⟩ ⟨hproper, hends⟩
    rcases hgood.step hproper with ⟨hends', -⟩ | ⟨-, s', bs', hs', hgood'⟩
    · exact absurd hends' hends
    · exact ⟨s', hs', bs', hgood'⟩
  rcases Run.exec_of_along hstep ⟨_, good_init ramHeapPointer bytes⟩ h with ⟨s, hs, bs, hgood⟩
  exact ⟨s, hs, hgood.sound⟩

theorem heap_sound_trimmed : ∃ s, run 1001 (fun _ => 0) [.malloc 5, .malloc 100, .write 1040 70 9,
    .free 1016, .trim 1040 71, .malloc 300, .free 0] = .ok s ∧ s.Sound :=
  heap_sound 1001 (fun _ => 0) (by decide +kernel)

/-! ## In every state that is reached -/

section

variable {ramHeapPointer : ℕ} {bytes : ℕ → UInt8} {events : List HeapEvent}

theorem exists_good (h : Run.Along step Proper (init ramHeapPointer bytes) events)
    (hs : run ramHeapPointer bytes events = .ok s) : ∃ bs, s.Good bs := by
  have hstep : ∀ (s : HeapSystem) (e : HeapEvent) (s' : HeapSystem), (∃ bs, s.Good bs) →
      s.Proper e → s.step e = .ok s' → ∃ bs, s'.Good bs := by
    rintro s e s' ⟨bs, hgood⟩ hproper hs'
    rcases hgood.step hproper with ⟨-, herror⟩ | ⟨-, s'', bs', hs'', hgood'⟩
    · rw [hs'] at herror
      cases herror
    · rw [hs'] at hs''
      cases hs''
      exact ⟨bs', hgood'⟩
  exact Run.inv_of_exec hstep ⟨_, good_init ramHeapPointer bytes⟩ h hs

/-- Users who keep to what they hold halt the gateway in one way only: they give back the end of
the last region. -/
theorem heap_halts_iff (h : Run.Along step Proper (init ramHeapPointer bytes) events)
    (hs : run ramHeapPointer bytes events = .ok s) {e : HeapEvent} (he : s.Proper e) :
    (s.TrimsEnd e → s.step e = .error .invalidNextPtr) ∧
      (¬s.TrimsEnd e → ∃ s', s.step e = .ok s') := by
  rcases exists_good h hs with ⟨bs, hgood⟩
  rcases hgood.step he with ⟨hends, herror⟩ | ⟨hends, s', bs', hs', -⟩
  · exact ⟨fun _ => herror, fun hnot => absurd hends hnot⟩
  · exact ⟨fun hends' => absurd hends' hends, fun _ => ⟨s', hs'⟩⟩

theorem heap_halts_iff_last : ∃ s, run 1001 (fun _ => 0) [.malloc 262132] = .ok s ∧
    s.TrimsEnd (.trim 1016 100) ∧
    (s.TrimsEnd (.trim 1016 100) → s.step (.trim 1016 100) = .error .invalidNextPtr) ∧
      (¬s.TrimsEnd (.trim 1016 100) → ∃ s', s.step (.trim 1016 100) = .ok s') :=
  ⟨_, rfl, by decide +kernel, heap_halts_iff
    (show Run.Along step Proper (init 1001 fun _ => 0) [.malloc 262132] by decide +kernel) rfl
    ⟨_, List.mem_cons_self, rfl, by
      show 100 ≤ (List.replicate 262132 none).length
      rw [List.length_replicate]
      omega⟩⟩

/-- From `x` on there are `len` bytes outside of the blocks of the regions. -/
def Room (s : HeapSystem) (x len : ℕ) : Prop :=
  x + len ≤ memSizeAligned ∧ ∀ r ∈ s.held,
    x + len ≤ s.heap.block r.rmem ∨ s.heap.block r.rmem + s.heap.blockSize r.rmem ≤ x

theorem Good.room_iff (h : s.Good bs) {x len : ℕ} :
    s.Room x len ↔ x + len ≤ span bs ∧ ∀ e ∈ extents 0 bs, x + len ≤ e.1 ∨ e.1 + e.2 ≤ x := by
  unfold Room
  rw [h.layout.fills]
  refine and_congr_right fun _ => ?_
  constructor
  · intro hall e he
    rcases h.region he with ⟨r, hr, hrmem⟩
    have hr' := hall r hr
    rwa [hrmem, Heap.block_address, h.layout.blockSize_of_mem he] at hr'
  · intro hall r hr
    rcases h.extent hr with ⟨e, he, hrmem, -⟩
    rw [hrmem, Heap.block_address, h.layout.blockSize_of_mem he]
    exact hall e he

/-- Where there is room, there is an unused block. -/
theorem Good.exists_unused (h : s.Good bs) {x len : ℕ} (hpos : 0 < len) (hroom : s.Room x len) :
    ∃ l m r, bs = l ++ ⟨m, false⟩ :: r ∧ span l ≤ x ∧ len ≤ m := by
  rw [h.room_iff] at hroom
  have hsize : ∀ b ∈ bs, 0 < b.size := by
    intro b hb
    have hb' := h.layout.size b hb
    omega
  rcases Blocks.exists_unused (a := 0) h.layout.merged hsize hpos (Nat.zero_le x)
    (by simpa using hroom.1) hroom.2 with ⟨l, m, r, hbs, hle, hend⟩
  exact ⟨l, m, r, hbs, by omega, by omega⟩

/-- `mem_malloc` returns `NULL` only if there is no room for the request and its header anywhere,
and else the lowest place there is. -/
theorem malloc_first_fit (h : Run.Along step Proper (init ramHeapPointer bytes) events)
    (hs : run ramHeapPointer bytes events = .ok s) {size : UInt32} (hpos : size ≠ 0) :
    (s.heap.memMalloc size = .ok (none, s.heap) ∧
      ∀ x, ¬s.Room x (roundUp size.toNat + sizeofStructMem)) ∨
    ∃ x heap, s.heap.memMalloc size = .ok (some (s.heap.address x), heap) ∧
      s.Room x (roundUp size.toNat + sizeofStructMem) ∧
      ∀ y, s.Room y (roundUp size.toNat + sizeofStructMem) → x ≤ y := by
  rcases exists_good h hs with ⟨bs, hgood⟩
  have h12 : sizeofStructMem = 12 := rfl
  rcases hgood.layout.memMalloc hgood.ram hpos with
    ⟨l, n, r, heap, -, -, rfl, hfit, hfirst, hmalloc, -⟩ | ⟨hnone, hnull⟩
  · right
    refine ⟨span l, heap, hmalloc, ?_, ?_⟩
    · rw [hgood.room_iff]
      simp only [span_append, span_cons, extents_append, extents_unused, Nat.zero_add]
      refine ⟨by omega, ?_⟩
      intro e he
      rcases List.mem_append.mp he with he | he
      · have hbounds := extent_bounds he
        omega
      · have hbounds := extent_bounds he
        omega
    · intro y hy
      rcases hgood.exists_unused (by omega) hy with ⟨l', m, r', heq, hle, hlen⟩
      -- the block there is not in front of the first one that is long enough
      rcases List.append_eq_append_iff.mp heq with ⟨k, rfl, -⟩ | ⟨k, hk, hk'⟩
      · rw [span_append] at hle
        omega
      · rcases k with _ | ⟨b, k⟩
        · rw [List.append_nil] at hk
          rw [hk]
          exact hle
        · have hb : b = ⟨m, false⟩ := (List.cons.inj hk').1.symm
          subst hb
          have hshort := hfirst ⟨m, false⟩ (by simp [hk]) rfl
          simp only at hshort
          omega
  · left
    refine ⟨hnull, ?_⟩
    intro x hx
    rcases hgood.exists_unused (by omega) hx with ⟨l, m, r, rfl, -, hlen⟩
    have hshort := hnone ⟨m, false⟩ (by simp) rfl
    simp only at hshort
    omega

theorem malloc_first_fit_gap : ∃ s,
    run 1001 (fun _ => 0) [.malloc 5, .malloc 100, .malloc 5, .free 1040] = .ok s ∧
    ((s.heap.memMalloc 50 = .ok (none, s.heap) ∧
      ∀ x, ¬s.Room x (roundUp (50 : UInt32).toNat + sizeofStructMem)) ∨
    ∃ x heap, s.heap.memMalloc 50 = .ok (some (s.heap.address x), heap) ∧
      s.Room x (roundUp (50 : UInt32).toNat + sizeofStructMem) ∧
      ∀ y, s.Room y (roundUp (50 : UInt32).toNat + sizeofStructMem) → x ≤ y) :=
  ⟨_, rfl, malloc_first_fit (show Run.Along step Proper (init 1001 fun _ => 0)
    [.malloc 5, .malloc 100, .malloc 5, .free 1040] by decide +kernel) rfl (by decide)⟩

/-- `mem_malloc` grants a request if the heap is larger than what the regions take up at most, with
a gap in front of each and at the end that is too short for the request. -/
theorem malloc_granted (h : Run.Along step Proper (init ramHeapPointer bytes) events)
    (hs : run ramHeapPointer bytes events = .ok s) {size : UInt32} (hpos : size ≠ 0)
    (hroom : (s.held.map fun r => roundUp r.data.length + 32).sum
      + (s.held.length + 1) * (roundUp size.toNat + 8) < memSizeAligned) :
    ∃ rmem heap, s.heap.memMalloc size = .ok (some rmem, heap) := by
  rcases exists_good h hs with ⟨bs, hgood⟩
  rcases hgood.layout.memMalloc hgood.ram hpos with
    ⟨l, n, r, heap, -, -, -, -, -, hmalloc, -⟩ | ⟨hnone, -⟩
  · exact ⟨_, heap, hmalloc⟩
  · exfalso
    have hround := roundUp_bounds size.toNat
    have hspan := span_le (a := 0) (n := roundUp size.toNat + 8) hgood.layout.merged (by
      intro b hb hunused
      have hshort := hnone b hb hunused
      have hsize := hgood.layout.size b hb
      omega)
    rw [hgood.layout.fills] at hspan
    -- the blocks in use are those of the regions
    have hsum : ((extents 0 bs).map Prod.snd).sum
        = (s.held.map fun r => s.heap.blockSize r.rmem).sum := by
      have hsizes : (extents 0 bs).map Prod.snd
          = ((extents 0 bs).map fun e => s.heap.address e.1).map s.heap.blockSize := by
        rw [List.map_map]
        apply List.map_congr_left
        intro e he
        exact (hgood.layout.blockSize_of_mem he).symm
      rw [hsizes, ((hgood.owners.map s.heap.blockSize).sum_eq).symm, List.map_map]
      rfl
    have hlen : (extents 0 bs).length = s.held.length := by
      have hlen := hgood.owners.length_eq
      simpa using hlen.symm
    have hle : (s.held.map fun r => s.heap.blockSize r.rmem).sum
        ≤ (s.held.map fun r => roundUp r.data.length + 32).sum := by
      apply List.sum_le_sum
      intro r hr
      rcases hgood.extent hr with ⟨e, he, hrmem, -, hlt⟩
      have hfour := hgood.layout.size ⟨e.2, true⟩ (by
        rcases exists_of_mem_extents he with ⟨l, r', rfl, -⟩
        simp)
      have hround' := roundUp_bounds r.data.length
      rw [hrmem, hgood.layout.blockSize_of_mem he]
      simp only at hfour
      omega
    rw [hsum, hlen] at hspan
    omega

theorem malloc_granted_large : ∃ s,
    run 1001 (fun _ => 0) [.malloc 5, .malloc 100] = .ok s ∧
      ∃ rmem heap, s.heap.memMalloc 80000 = .ok (some rmem, heap) :=
  ⟨_, rfl, malloc_granted (show Run.Along step Proper (init 1001 fun _ => 0)
    [.malloc 5, .malloc 100] by decide +kernel) rfl (by decide) (by decide +kernel)⟩

/-- A region that is freed again at once is refused. -/
theorem free_twice (h : Run.Along step Proper (init ramHeapPointer bytes) events)
    (hs : run ramHeapPointer bytes events = .ok s) {r : Region} (hr : r ∈ s.held) :
    ∃ s', s.step (.free r.rmem) = .ok s' ∧ s'.step (.free r.rmem) = .error .doubleFree := by
  rcases exists_good h hs with ⟨bs, hgood⟩
  rcases hgood.free hr with ⟨s', bs', hstep, hgood', hram, hused⟩
  refine ⟨s', hstep, ?_⟩
  have hsound := hgood.sound
  have haligned := hsound.aligned r hr
  have hinside := hsound.inside r hr
  have hround := roundUp_bounds r.data.length
  have h12 : sizeofStructMem = 12 := rfl
  have hmin : minSizeAligned = 12 := rfl
  show (s'.heap.memFree r.rmem >>= fun _ => _) = _
  have hblock : r.rmem - sizeofStructMem - s.heap.ram = s.heap.block r.rmem := rfl
  have hrefused : s'.heap.memFree r.rmem = .error .doubleFree := by
    unfold Heap.memFree
    rw [if_neg (by omega)]
    simp only [hram, hblock]
    rw [Heap.lwipAssert_pos (by omega), Heap.lwipAssert_pos (by omega),
      Heap.lwipAssert_neg (not_not.mpr hused)]
    rfl
  rw [hrefused]
  rfl

theorem free_twice_merged : ∃ s,
    run 1001 (fun _ => 0) [.malloc 5, .malloc 100, .free 1016] = .ok s ∧
    ∃ s', s.step (.free 1040) = .ok s' ∧ s'.step (.free 1040) = .error .doubleFree :=
  ⟨_, rfl, free_twice (show Run.Along step Proper (init 1001 fun _ => 0)
    [.malloc 5, .malloc 100, .free 1016] by decide +kernel) rfl List.mem_cons_self⟩

end

end HeapSystem

end Cannelloni
