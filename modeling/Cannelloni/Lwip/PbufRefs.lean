import Cannelloni.Lwip.Pbuf

/-!
# The references to packet buffers

`Good` is what the operations of `pbuf.c` keep: the count of a pbuf in use is the number of
references the users hold and of the pbufs that point to it, and an element of a pool is either
free or a pbuf in use. Each operation has a lemma that says what it does to the references.
-/

namespace Cannelloni

open RefCount

namespace PbufStore

variable {s s' : PbufStore} {elems : Memp → List ℕ} {hs : List ℕ} {p q t : ℕ} {l : List ℕ}

def next (s : PbufStore) (a : ℕ) : Option ℕ := (s.mem a).next

def ref (s : PbufStore) (a : ℕ) : ℕ := (s.mem a).ref.toNat

def len (s : PbufStore) (a : ℕ) : ℕ := (s.mem a).len.toNat

def tot (s : PbufStore) (a : ℕ) : ℕ := (s.mem a).totLen.toNat

/-- An element of a pool is free, or in use as a pbuf of that pool. -/
structure Pooled (elems : Memp → List ℕ) (s : PbufStore) : Prop where
  nodup : ∀ m, (s.tabs m).Nodup
  mem_iff : ∀ m a, a ∈ elems m ↔ a ∈ s.tabs m ∨ a ∈ s.live ∧ (s.mem a).allocsrc = m.src
  notMem : ∀ m, ∀ a ∈ s.tabs m, a ∉ s.live
  src : ∀ a ∈ s.live, (s.mem a).allocsrc = 0x02 ∨ (s.mem a).allocsrc = 0x01 ∨
    (s.mem a).allocsrc = 0x00
  aligned : ∀ m, ∀ a ∈ elems m, a % 4 = 0
  apart : ∀ a ∈ elems .pbuf, a ∉ elems .pbufPool

/-- The counts are exact for the holders `hs`, and no element of the pools is lost. -/
structure Good (elems : Memp → List ℕ) (s : PbufStore) (hs : List ℕ) : Prop where
  counted : Counted s.live s.next s.ref hs
  pooled : s.Pooled elems

/-- Only counts have changed, and pbufs have been given back. -/
structure Frame (s s' : PbufStore) : Prop where
  live : s'.live ⊆ s.live
  mem : ∀ a ∈ s'.live, s'.mem a = { s.mem a with ref := (s'.mem a).ref }

theorem Frame.next (h : s.Frame s') {a : ℕ} (ha : a ∈ s'.live) : s'.next a = s.next a := by
  unfold PbufStore.next
  rw [h.mem a ha]

theorem Frame.len (h : s.Frame s') {a : ℕ} (ha : a ∈ s'.live) : s'.len a = s.len a := by
  unfold PbufStore.len
  rw [h.mem a ha]

theorem Frame.tot (h : s.Frame s') {a : ℕ} (ha : a ∈ s'.live) : s'.tot a = s.tot a := by
  unfold PbufStore.tot
  rw [h.mem a ha]

theorem pbufAssert_pos {P : Prop} [Decidable P] {f : PbufFault} (hp : P) :
    pbufAssert P f = .ok () := if_pos hp

theorem get_of_mem (hp : p ∈ s.live) : s.get p = .ok (s.mem p) := if_pos hp

theorem set_mem_self (b : StructPbuf) : (s.set p b).mem p = b := Function.update_self ..

theorem set_mem_of_ne (b : StructPbuf) {a : ℕ} (ha : a ≠ p) : (s.set p b).mem a = s.mem a :=
  Function.update_of_ne ha ..

@[simp] theorem set_live (b : StructPbuf) : (s.set p b).live = s.live := rfl

/-- The pools do not see a change that leaves the allocation sources alone. -/
theorem Pooled.congr (h : s.Pooled elems) (hlive : s'.live = s.live) (htabs : s'.tabs = s.tabs)
    (hsrc : ∀ a, (s'.mem a).allocsrc = (s.mem a).allocsrc) : s'.Pooled elems where
  nodup := by
    rw [htabs]
    exact h.nodup
  mem_iff := by
    intro m a
    rw [htabs, hlive, hsrc a]
    exact h.mem_iff m a
  notMem := by
    rw [htabs, hlive]
    exact h.notMem
  src := by
    intro a ha
    rw [hlive] at ha
    rw [hsrc a]
    exact h.src a ha
  aligned := h.aligned
  apart := h.apart

theorem Pooled.set (h : s.Pooled elems) {b : StructPbuf} (hb : b.allocsrc = (s.mem p).allocsrc) :
    (s.set p b).Pooled elems := by
  have hsrc : ∀ a, ((s.set p b).mem a).allocsrc = (s.mem a).allocsrc := by
    intro a
    by_cases ha : a = p
    · rw [ha, set_mem_self, hb]
    · rw [set_mem_of_ne b ha]
  exact h.congr rfl rfl hsrc

/-! ## Counters of one byte -/

theorem pred_toNat {r : UInt8} (h : 0 < r.toNat) : (r - 1).toNat = r.toNat - 1 := by
  have hlt := r.toNat_lt
  rw [UInt8.toNat_sub]
  simp only [UInt8.toNat_one]
  omega

theorem succ_toNat {r : UInt8} (h : r < 255) : (r + 1).toNat = r.toNat + 1 := by
  have hlt : r.toNat < 255 := UInt8.lt_iff_toNat_lt.mp h
  rw [UInt8.toNat_add]
  simp only [UInt8.toNat_one]
  omega

/-! ## `pbuf_free` and `pbuf_ref` -/

/-- An element goes back to its pool. -/
theorem Pooled.give (h : s.Pooled elems) (hp : p ∈ s.live) {m : Memp}
    (hsrc : (s.mem p).allocsrc = m.src) :
    ∃ s', ({ s with live := s.live.erase p } : PbufStore).mempFree m p = .ok s' ∧
      s'.Pooled elems ∧ s'.live = s.live.erase p ∧ s'.mem = s.mem := by
  have helem : p ∈ elems m := (h.mem_iff m p).mpr (.inr ⟨hp, hsrc⟩)
  refine ⟨_, Run.bind_eq_ok.mpr ⟨(), pbufAssert_pos (h.aligned m p helem), rfl⟩, ?_, rfl, rfl⟩
  have htabs : ∀ k, Function.update s.tabs m (p :: s.tabs m) k
      = if k = m then p :: s.tabs m else s.tabs k := by
    intro k
    by_cases hk : k = m
    · subst hk
      rw [Function.update_self, if_pos rfl]
    · rw [Function.update_of_ne hk, if_neg hk]
  have hnot : ∀ k, p ∉ s.tabs k := fun k hmem => h.notMem k p hmem hp
  refine ⟨?_, ?_, ?_, ?_, h.aligned, h.apart⟩
  · intro k
    simp only [htabs]
    split
    · exact List.nodup_cons.mpr ⟨hnot m, h.nodup m⟩
    · exact h.nodup k
  · intro k a
    simp only [htabs]
    have hold := h.mem_iff k a
    by_cases hk : k = m
    · subst hk
      rw [if_pos rfl, hold, List.mem_cons, Finset.mem_erase]
      by_cases hap : a = p
      · subst hap
        simp [hp, hsrc]
      · simp [hap]
    · rw [if_neg hk, hold, Finset.mem_erase]
      by_cases hap : a = p
      · subst hap
        have hne : (s.mem a).allocsrc ≠ k.src := by
          rw [hsrc]
          cases k <;> cases m <;> first | exact absurd rfl hk | decide
        simp [hne]
      · simp [hap]
  · intro k a ha
    simp only [htabs] at ha
    rw [Finset.mem_erase]
    split at ha
    · rcases List.mem_cons.mp ha with rfl | ha
      · simp
      · exact fun hmem => h.notMem m a ha hmem.2
    · exact fun hmem => h.notMem k a ha hmem.2
  · exact fun a ha => h.src a (Finset.mem_of_mem_erase ha)

/-- A pbuf goes back to where it came from. -/
theorem Pooled.dealloc (h : s.Pooled elems) (hp : p ∈ s.live) :
    ∃ s', s.dealloc p (s.mem p).allocsrc = .ok s' ∧ s'.Pooled elems ∧ s'.live = s.live.erase p ∧
      s'.mem = s.mem := by
  unfold PbufStore.dealloc
  rcases h.src p hp with hsrc | hsrc | hsrc
  · rw [if_pos hsrc]
    exact h.give hp hsrc
  · rw [hsrc, if_neg (by decide), if_pos rfl]
    exact h.give hp hsrc
  · rw [hsrc, if_neg (by decide), if_neg (by decide), if_pos rfl]
    refine ⟨_, rfl, ⟨h.nodup, ?_, ?_, ?_, h.aligned, h.apart⟩, rfl, rfl⟩
    · intro k a
      rw [h.mem_iff k a, Finset.mem_erase]
      by_cases hap : a = p
      · subst hap
        have hne : (s.mem a).allocsrc ≠ k.src := by
          rw [hsrc]
          cases k <;> decide
        simp [hne]
      · simp [hap]
    · exact fun k a ha hmem => h.notMem k a ha (Finset.mem_of_mem_erase hmem)
    · exact fun a ha => h.src a (Finset.mem_of_mem_erase ha)

theorem set_ref_next (r : UInt8) (a : ℕ) :
    (s.set p { s.mem p with ref := r }).next a = s.next a := by
  by_cases hap : a = p
  · rw [hap, next, set_mem_self]
    rfl
  · rw [next, set_mem_of_ne _ hap]
    rfl

theorem set_ref_of_ne (b : StructPbuf) (hap : a ≠ p) : (s.set p b).ref a = s.ref a := by
  rw [ref, set_mem_of_ne _ hap]
  rfl

theorem set_ref_frame (r : UInt8) : s.Frame (s.set p { s.mem p with ref := r }) := by
  refine ⟨Finset.Subset.refl _, ?_⟩
  intro a _
  by_cases hap : a = p
  · rw [hap, set_mem_self]
  · rw [set_mem_of_ne _ hap]

/-- The last reference is given up: the pbuf goes back, and the holder has what it points to. -/
theorem Good.collect (h : s.Good elems hs) (hp : p ∈ hs) (hone : s.ref p = 1) (r : UInt8) :
    ∃ s', (s.set p { s.mem p with ref := r }).dealloc p (s.mem p).allocsrc = .ok s' ∧
      s'.Good elems ((s.next p).toList ++ hs.erase p) ∧ s.Frame s' ∧
      s'.live = s.live.erase p ∧ ∀ a, s'.next a = s.next a := by
  have hpool : (s.set p { s.mem p with ref := r }).Pooled elems := h.pooled.set rfl
  rcases hpool.dealloc (p := p) (h.counted.held p hp) with ⟨s', hdealloc, hpool', hlive', hmem'⟩
  rw [set_mem_self] at hdealloc
  have hnext : ∀ a, s'.next a = s.next a := by
    intro a
    rw [next, hmem']
    exact set_ref_next r a
  have hcounted : Counted s'.live s'.next s'.ref ((s.next p).toList ++ hs.erase p) := by
    rw [hlive']
    apply h.counted.collect hp hone
    · exact fun a _ _ => hnext a
    · intro a _ hap
      rw [ref, hmem']
      exact set_ref_of_ne _ hap
  have hframe : s.Frame s' := by
    refine ⟨?_, ?_⟩
    · rw [hlive']
      exact Finset.erase_subset _ _
    · intro a ha
      rw [hlive'] at ha
      rw [hmem', set_mem_of_ne _ (Finset.ne_of_mem_erase ha)]
  exact ⟨s', hdealloc, ⟨hcounted, hpool'⟩, hframe, hlive', hnext⟩

/-- A reference is given up that is not the last one. -/
theorem Good.release (h : s.Good elems hs) (hp : p ∈ hs) {r : UInt8} (hr : s.ref p = r.toNat + 1)
    (hpos : 0 < r.toNat) : (s.set p { s.mem p with ref := r }).Good elems (hs.erase p) := by
  have hself : (s.set p { s.mem p with ref := r }).ref p = r.toNat := by
    rw [ref, set_mem_self]
  have hreleased := h.counted.release (s.set p { s.mem p with ref := r }).ref hp (by omega)
    (by omega) fun a _ hap => set_ref_of_ne _ hap
  exact ⟨hreleased.congr (fun a _ => set_ref_next r a) fun _ _ => rfl, h.pooled.set rfl⟩

/-- One pass of the loop. -/
theorem freeLoop_succ (n : ℕ) (hp : p ∈ s.live) (hpos : 0 < (s.mem p).ref) (count : UInt8) :
    freeLoop (n + 1) (some p) count s =
      if (s.mem p).ref - 1 = 0 then
        (s.set p { s.mem p with ref := (s.mem p).ref - 1 }).dealloc p (s.mem p).allocsrc >>=
          freeLoop n (s.mem p).next (count + 1)
      else .ok (count, s.set p { s.mem p with ref := (s.mem p).ref - 1 }) := by
  rw [freeLoop, get_of_mem hp]
  show (pbufAssert (0 < (s.mem p).ref) .refZero >>= _) = _
  rw [pbufAssert_pos hpos]
  rfl

/-- One holder gives up its reference: the loop ends, and no other holder loses anything. -/
theorem Good.freeLoop {n : ℕ} (h : s.Good elems hs) (hp : p ∈ hs) (hpath : Path s.live s.next p l)
    (hn : l.length < n) (count : UInt8) :
    ∃ c s', PbufStore.freeLoop n (some p) count s = .ok (c, s') ∧ s'.Good elems (hs.erase p) ∧
      s.Frame s' := by
  induction n generalizing s hs p l count with
  | zero => omega
  | succ n ih =>
    have hlive := h.counted.held p hp
    have hpos : 0 < (s.mem p).ref.toNat := h.counted.pos p hlive
    have hpred := pred_toNat hpos
    have href : s.ref p = ((s.mem p).ref - 1).toNat + 1 := by
      have hval : s.ref p = (s.mem p).ref.toNat := rfl
      omega
    have hassert : 0 < (s.mem p).ref := UInt8.lt_iff_toNat_lt.mpr hpos
    rw [freeLoop_succ n hlive hassert]
    by_cases hzero : (s.mem p).ref - 1 = 0
    · rw [hzero] at href
      rcases h.collect hp href ((s.mem p).ref - 1) with
        ⟨s2, hdealloc, hgood2, hframe, hlive2, hnext2⟩
      rw [if_pos hzero, hdealloc]
      -- the walk goes on with the reference that the pbuf had to the next one
      cases l with
      | nil =>
        have hnone : s.next p = none := (path_nil.mp hpath).2
        rw [hnone] at hgood2
        refine ⟨count + 1, s2, ?_, hgood2, hframe⟩
        show PbufStore.freeLoop n (s.next p) (count + 1) s2 = .ok (count + 1, s2)
        rw [hnone]
        cases n <;> rfl
      | cons q l =>
        rcases path_cons.mp hpath with ⟨-, hnext, hrest⟩
        rw [hnext, Option.toList_some, List.singleton_append] at hgood2
        have hpathq : Path s2.live s2.next q l := by
          refine hrest.congr ?_ fun c _ => hnext2 c
          intro c hc
          rw [hlive2]
          exact Finset.mem_erase.mpr ⟨hpath.ne_of_mem hc, hrest.2 c hc⟩
        rcases ih hgood2 List.mem_cons_self hpathq (by simpa using hn) (count + 1) with
          ⟨c, s3, hloop, hgood, hframe3⟩
        rw [List.erase_cons_head] at hgood
        refine ⟨c, s3, ?_, hgood, ⟨hframe3.live.trans hframe.live, ?_⟩⟩
        · show PbufStore.freeLoop n (s.next p) (count + 1) s2 = .ok (c, s3)
          rw [hnext]
          exact hloop
        · intro a ha
          rw [hframe3.mem a ha, hframe.mem a (hframe3.live ha)]
    · have hval : 0 < ((s.mem p).ref - 1).toNat :=
        Nat.pos_of_ne_zero fun hval => hzero (UInt8.toNat_inj.mp hval)
      rw [if_neg hzero]
      exact ⟨count, _, rfl, h.release hp href hval, set_ref_frame _⟩

/-- `pbuf_free` of a reference that is held. -/
theorem Good.free (h : s.Good elems hs) (hp : p ∈ hs) :
    ∃ c s', s.pbufFree (some p) = .ok (c, s') ∧ s'.Good elems (hs.erase p) ∧ s.Frame s' := by
  rcases h.counted.path p (h.counted.held p hp) with ⟨l, hpath⟩
  have hlt := hpath.length_lt
  exact h.freeLoop hp hpath (by unfold steps; omega) 0

/-- `pbuf_ref`. -/
theorem Good.retain (h : s.Good elems hs) (hp : p ∈ s.live) (hlt : (s.mem p).ref < 255) :
    ∃ s', s.pbufRef (some p) = .ok s' ∧ s'.Good elems (p :: hs) ∧ s.Frame s' ∧
      s'.live = s.live := by
  have hsucc := succ_toNat hlt
  set s1 := s.set p { s.mem p with ref := (s.mem p).ref + 1 } with hs1
  refine ⟨s1, ?_, ⟨?_, h.pooled.set rfl⟩, set_ref_frame _, rfl⟩
  · refine Run.bind_eq_ok.mpr ⟨_, get_of_mem hp, Run.bind_eq_ok.mpr ⟨(), pbufAssert_pos ?_, rfl⟩⟩
    apply UInt8.lt_iff_toNat_lt.mpr
    rw [hsucc]
    exact Nat.succ_pos _
  · have hself : s1.ref p = s.ref p + 1 := by
      rw [hs1, ref, set_mem_self]
      exact hsucc
    have hretained := h.counted.retain s1.ref hp hself fun a _ hap => set_ref_of_ne _ hap
    exact hretained.congr (fun a _ => set_ref_next _ a) fun _ _ => rfl

/-! ## `pbuf_alloc` -/

/-- The sums over the chains are right. -/
def SummedUp (s : PbufStore) : Prop := Summed s.live s.next s.len s.tot

theorem tot_of_mem {c : ℕ} (h : s'.mem c = s.mem c) : s'.tot c = s.tot c := by
  unfold tot
  rw [h]

/-- What comes behind a pbuf counts the same. -/
theorem elim_tot {a : ℕ} (h : ∀ c, s.next a = some c → s'.tot c = s.tot c) :
    (s.next a).elim 0 s.tot = (s.next a).elim 0 s'.tot := by
  cases hcase : s.next a with
  | none => rfl
  | some c => exact (h c hcase).symm

/-- A pbuf that was not in use is now. -/
structure Added (s s' : PbufStore) (q : ℕ) (b : StructPbuf) : Prop where
  fresh : q ∉ s.live
  live : s'.live = insert q s.live
  self : s'.mem q = b
  rest : ∀ a, a ≠ q → s'.mem a = s.mem a

theorem Added.old {b : StructPbuf} (h : s.Added s' q b) {a : ℕ} (ha : a ∈ s.live) :
    s'.mem a = s.mem a := h.rest a fun haq => h.fresh (haq ▸ ha)

theorem Good.add (h : s.Good elems hs) {b : StructPbuf} (ha : s.Added s' q b)
    (hnext : b.next = none) (href : b.ref = 1) (hpool : s'.Pooled elems) :
    s'.Good elems (q :: hs) := by
  refine ⟨?_, hpool⟩
  rw [ha.live]
  apply h.counted.alloc ha.fresh
  · rw [next, ha.self, hnext]
  · rw [ref, ha.self, href]
    rfl
  · intro a hlive
    rw [next, ha.old hlive]
    rfl
  · intro a hlive
    rw [ref, ha.old hlive]
    rfl

/-- A pbuf that is not linked yet has the sum of its own length. -/
theorem SummedUp.add (h : s.SummedUp) (hgood : s.Good elems hs) {b : StructPbuf}
    (ha : s.Added s' q b) (hnext : b.next = none) (hlen : b.totLen = b.len) : s'.SummedUp := by
  intro a hlive
  rw [ha.live] at hlive
  by_cases haq : a = q
  · subst haq
    rw [tot, len, next, ha.self, hnext, hlen]
    rfl
  · have hold := (Finset.mem_insert.mp hlive).resolve_left haq
    have hsum := h a hold
    have hnext' : s'.next a = s.next a := by
      rw [next, ha.old hold]
      rfl
    rw [hnext']
    rw [tot, len, ha.old hold]
    cases hcase : s.next a with
    | none =>
      rw [hcase] at hsum
      exact hsum
    | some t =>
      rw [hcase] at hsum
      have ht := hgood.counted.next_mem hold hcase
      have htot : s'.tot t = s.tot t := by
        rw [tot, ha.old ht]
        rfl
      simp only [Option.elim_some, htot] at hsum ⊢
      exact hsum

/-- An element is taken from its pool, and is a pbuf now. -/
theorem Good.take (h : s.Good elems hs) {m : Memp} {rest : List ℕ} (htabs : s.tabs m = q :: rest)
    {type : PbufType} (htype : type.internal &&& 0x0F = m.src) (payload : ℕ) (totLen len : UInt16) :
    s.mempMalloc m = .ok (some q, { s with tabs := Function.update s.tabs m rest }) ∧
      s.Added (({ s with tabs := Function.update s.tabs m rest } : PbufStore).initAlloced q payload
        totLen len type) q ⟨none, payload, totLen, len, type.internal, 1⟩ ∧
      (({ s with tabs := Function.update s.tabs m rest } : PbufStore).initAlloced q payload totLen
        len type).Pooled elems := by
  have hq : q ∈ s.tabs m := by
    rw [htabs]
    exact List.mem_cons_self
  have hfresh := h.pooled.notMem m q hq
  have helem : q ∈ elems m := (h.pooled.mem_iff m q).mpr (.inl hq)
  have hnodup := h.pooled.nodup m
  rw [htabs, List.nodup_cons] at hnodup
  refine ⟨?_, ⟨hfresh, rfl, Function.update_self .., fun a ha => Function.update_of_ne ha ..⟩, ?_⟩
  · unfold mempMalloc
    rw [htabs]
    exact Run.bind_eq_ok.mpr ⟨(), pbufAssert_pos (h.pooled.aligned m q helem), rfl⟩
  · have htabs' : ∀ k, Function.update s.tabs m rest k = if k = m then rest else s.tabs k := by
      intro k
      by_cases hk : k = m
      · subst hk
        rw [Function.update_self, if_pos rfl]
      · rw [Function.update_of_ne hk, if_neg hk]
    have hother : ∀ k, k ≠ m → q ∉ s.tabs k := by
      intro k hk hmem
      have helem' := (h.pooled.mem_iff k q).mpr (.inl hmem)
      cases k <;> cases m
      · exact hk rfl
      · exact h.pooled.apart q helem' helem
      · exact h.pooled.apart q helem helem'
      · exact hk rfl
    have hself : (Function.update s.mem q ⟨none, payload, totLen, len, type.internal, 1⟩ q).allocsrc
        = m.src := by
      rw [Function.update_self]
      exact htype
    refine ⟨?_, ?_, ?_, ?_, h.pooled.aligned, h.pooled.apart⟩
    · intro k
      show (Function.update s.tabs m rest k).Nodup
      rw [htabs']
      split
      · exact hnodup.2
      · exact h.pooled.nodup k
    · intro k a
      show a ∈ elems k ↔ a ∈ Function.update s.tabs m rest k ∨
        a ∈ insert q s.live ∧ (Function.update s.mem q _ a).allocsrc = k.src
      rw [htabs', h.pooled.mem_iff k a]
      by_cases haq : a = q
      · subst haq
        rw [hself]
        by_cases hk : k = m
        · subst hk
          simp [hq]
        · have hsrc : m.src ≠ k.src := by
            cases k <;> cases m <;> first | exact absurd rfl hk | decide
          simp [hk, hsrc, hfresh]
      · rw [Function.update_of_ne haq, Finset.mem_insert]
        by_cases hk : k = m
        · subst hk
          simp [htabs, haq]
        · simp [hk, haq]
    · intro k a ha
      change a ∈ Function.update s.tabs m rest k at ha
      show a ∉ insert q s.live
      rw [htabs'] at ha
      rw [Finset.mem_insert, not_or]
      split at ha
      · refine ⟨fun haq => hnodup.1 (haq ▸ ha), h.pooled.notMem m a ?_⟩
        rw [htabs]
        exact List.mem_cons_of_mem _ ha
      · next hk => exact ⟨fun haq => hother k hk (haq ▸ ha), h.pooled.notMem k a ha⟩
    · intro a ha
      show (Function.update s.mem q _ a).allocsrc = _ ∨ (Function.update s.mem q _ a).allocsrc = _ ∨
        (Function.update s.mem q _ a).allocsrc = _
      by_cases haq : a = q
      · subst haq
        rw [hself]
        cases m <;> decide
      · rw [Function.update_of_ne haq]
        exact h.pooled.src a ((Finset.mem_insert.mp ha).resolve_left haq)

/-- A chain from `p` to `last` is being made, of which `rem` bytes are missing. The pbufs that were
in use before are `old`. -/
structure Building (elems : Memp → List ℕ) (old : Finset ℕ) (s : PbufStore) (hs : List ℕ)
    (p last rem : ℕ) : Prop where
  good : s.Good elems (p :: hs)
  last_live : last ∈ s.live
  last_next : s.next last = none
  last_new : last ∉ old
  last_tot : s.tot last = s.len last + rem
  held : ∀ a ∈ hs, a ∈ old
  closed : ∀ a ∈ old, ∀ b, s.next a = some b → b ∈ old
  summed : ∀ a ∈ s.live, a ≠ last → s.tot a = s.len a + (s.next a).elim 0 s.tot

/-- What is missing is the next pbuf of the chain. -/
theorem Building.link {old : Finset ℕ} {last rem qlen : ℕ} {b : StructPbuf}
    (h : Building elems old s hs p last rem) (hold : old ⊆ s.live) (ha : s.Added s' q b)
    (hpool : s'.Pooled elems) (hnext : b.next = none) (href : b.ref = 1)
    (htot : b.totLen.toNat = rem) (hlen : b.len.toNat = qlen) (hle : qlen ≤ rem) :
    ∃ s2, s'.linkLast (some (p, last)) q = .ok s2 ∧ Building elems old s2 hs p q (rem - qlen) ∧
      s2.live = s'.live ∧ s2.tabs = s'.tabs := by
  have hlast : last ∈ s'.live := by
    rw [ha.live]
    exact Finset.mem_insert_of_mem h.last_live
  have hne : last ≠ q := fun heq => ha.fresh (heq ▸ h.last_live)
  have hgood := h.good.add ha hnext href hpool
  set s2 := s'.set last { s'.mem last with next := some q } with hs2
  have hmem2 : ∀ a, a ≠ last → s2.mem a = s'.mem a := fun a ha => set_mem_of_ne _ ha
  have hlast2 : s2.mem last = { s'.mem last with next := some q } := set_mem_self _
  have hnext2 : ∀ a, a ≠ last → s2.next a = s'.next a := by
    intro a ha
    rw [next, hmem2 a ha]
    rfl
  have hlen2 : ∀ a, s2.len a = s'.len a := by
    intro a
    by_cases ha : a = last
    · rw [ha, len, hlast2]
      rfl
    · rw [len, hmem2 a ha]
      rfl
  have htot2 : ∀ a, s2.tot a = s'.tot a := by
    intro a
    by_cases ha : a = last
    · rw [ha, tot, hlast2]
      rfl
    · rw [tot, hmem2 a ha]
      rfl
  have hkeep : ∀ a ∈ s.live, s'.next a = s.next a ∧ s'.len a = s.len a ∧ s'.tot a = s.tot a := by
    intro a hlive
    rw [next, len, tot, ha.old hlive]
    exact ⟨rfl, rfl, rfl⟩
  have hqnext : s'.next q = none := by
    rw [next, ha.self, hnext]
  have hqlive : q ∈ s'.live := by
    rw [ha.live]
    exact Finset.mem_insert_self _ _
  have hqtot : s'.tot q = rem := by
    rw [tot, ha.self, htot]
  refine ⟨s2, Run.bind_eq_ok.mpr ⟨_, get_of_mem hlast, rfl⟩, ?_, rfl, rfl⟩
  refine ⟨⟨?_, hgood.pooled.set rfl⟩, hqlive, ?_, ?_, ?_, h.held, ?_, ?_⟩
  · have hlinked := hgood.counted.link s2.next hlast
      ((hkeep last h.last_live).1.trans h.last_next) List.mem_cons_self
      (path_nil.mpr ⟨hqlive, hqnext⟩) (by simpa using hne)
      (by rw [next, hlast2]) fun a _ hal => hnext2 a hal
    rw [List.erase_cons_head] at hlinked
    refine hlinked.congr (fun _ _ => rfl) ?_
    intro a _
    by_cases hal : a = last
    · rw [hal, ref, hlast2]
      rfl
    · rw [ref, hmem2 a hal]
      rfl
  · rw [hnext2 q (Ne.symm hne)]
    exact hqnext
  · exact fun hq => ha.fresh (hold hq)
  · rw [htot2, hlen2, hqtot, len, ha.self, hlen]
    omega
  · intro a hmem c hac
    have hal : a ≠ last := fun hal => h.last_new (hal ▸ hmem)
    rw [hnext2 a hal, (hkeep a (hold hmem)).1] at hac
    exact h.closed a hmem c hac
  · intro a hlive haq
    have hlive' : a ∈ s.live := by
      have hins : a ∈ s'.live := hlive
      rw [ha.live] at hins
      exact (Finset.mem_insert.mp hins).resolve_left haq
    rw [htot2, hlen2]
    rcases hkeep a hlive' with ⟨hn, hl, ht⟩
    by_cases hal : a = last
    · subst hal
      rw [hl, ht, h.last_tot, next, hlast2]
      show _ = _ + s2.tot q
      rw [htot2, hqtot]
    · rw [hnext2 a hal, hn, hl, ht, h.summed a hlive' hal]
      refine congrArg (s.len a + ·) (elim_tot ?_)
      intro c hcase
      rw [htot2, (hkeep c (h.good.counted.next_mem hlive' hcase)).2.2]

theorem uint16_min_le (a b : UInt16) : min a b ≤ a := by
  show (if a ≤ b then a else b) ≤ a
  split
  · exact UInt16.le_refl a
  · next hlt =>
    rw [UInt16.le_iff_toNat_le] at hlt ⊢
    omega

/-- The chain is made when nothing is missing. -/
theorem Building.summedUp {old : Finset ℕ} {last : ℕ} (h : Building elems old s hs p last 0) :
    s.SummedUp := by
  intro a ha
  by_cases hal : a = last
  · rw [hal, h.last_tot, h.last_next]
    rfl
  · exact h.summed a ha hal

/-- One more pass of the loop. -/
theorem Building.pass {old : Finset ℕ} {last : ℕ} {rem : UInt16} {rest : List ℕ}
    (h : Building elems old s hs p last rem.toNat) (hold : old ⊆ s.live)
    (htabs : s.tabs .pbufPool = q :: rest) {qlen : UInt16}
    (hqlen : qlen = min rem (pbufPoolBufsize - alignSize16 0)) :
    ∃ b s1 s2, b.next = none ∧ b.len = qlen ∧ s.Added s1 q b ∧
      s1.linkLast (some (p, last)) q = .ok s2 ∧
      Building elems old s2 hs p q (rem - qlen).toNat ∧ old ⊆ s2.live ∧
      s2.tabs .pbufPool = rest ∧
      ∀ n r, (if 0 < rem - qlen then PbufStore.allocPool n (some (p, q)) (rem - qlen) 0 s2
        else .ok (some p, s2)) = .ok r →
        PbufStore.allocPool (n + 1) (some (p, last)) rem 0 s = .ok r := by
  rcases h.good.take htabs (show PbufType.pool.internal &&& 0x0F = Memp.pbufPool.src from rfl)
    (lwipMemAlign (q + sizeofStructPbuf + (0 : UInt16).toNat)) rem qlen with
    ⟨hmalloc, hadded, hpool⟩
  have hle : qlen ≤ rem := hqlen ▸ uint16_min_le _ _
  have hsub : (rem - qlen).toNat = rem.toNat - qlen.toNat := UInt16.toNat_sub_of_le _ _ hle
  rw [UInt16.le_iff_toNat_le] at hle
  rcases h.link hold hadded hpool rfl rfl rfl rfl hle with ⟨s2, hlink, hbuild, hlive2, htabs2⟩
  rw [← hsub] at hbuild
  refine ⟨_, _, s2, rfl, rfl, hadded, hlink, hbuild, ?_, ?_, ?_⟩
  · rw [hlive2, hadded.live]
    exact hold.trans (Finset.subset_insert _ _)
  · rw [htabs2]
    show Function.update s.tabs Memp.pbufPool rest Memp.pbufPool = rest
    rw [Function.update_self]
  · intro n r hr
    subst hqlen
    unfold PbufStore.allocPool
    refine Run.bind_eq_ok.mpr ⟨_, hmalloc, ?_⟩
    refine Run.bind_eq_ok.mpr ⟨(), pbufAssert_pos (by unfold lwipMemAlign; omega), ?_⟩
    refine Run.bind_eq_ok.mpr ⟨(), pbufAssert_pos (by decide), ?_⟩
    exact Run.bind_eq_ok.mpr ⟨s2, hlink, hr⟩

/-- The pool is empty before the chain is made: all there is of it is given back. -/
theorem Building.giveUp {old : Finset ℕ} {last rem : ℕ}
    (h : Building elems old s hs p last rem)
    (htabs : s.tabs .pbufPool = []) :
    ∃ s', s'.Good elems hs ∧ s.Frame s' ∧ (∀ a ∈ s'.live, a ∈ old) ∧
      ∀ n remLen, PbufStore.allocPool (n + 1) (some (p, last)) remLen 0 s = .ok (none, s') := by
  rcases h.good.free List.mem_cons_self with ⟨c, s', hfree, hgood, hframe⟩
  rw [List.erase_cons_head] at hgood
  refine ⟨s', hgood, hframe, ?_, ?_⟩
  · intro a ha
    -- what was in use before leads nowhere else, and the holders have nothing else any more
    have hclosed : ∀ b ∈ old ∩ s'.live, ∀ c, s'.next b = some c → c ∈ old ∩ s'.live := by
      intro b hb c hbc
      rcases Finset.mem_inter.mp hb with ⟨hb, hb'⟩
      have hc := hgood.counted.next_mem hb' hbc
      rw [hframe.next hb'] at hbc
      exact Finset.mem_inter.mpr ⟨h.closed b hb c hbc, hc⟩
    have hheld : ∀ b ∈ hs, b ∈ old ∩ s'.live := fun b hb =>
      Finset.mem_inter.mpr ⟨h.held b hb, hgood.counted.held b hb⟩
    exact (Finset.mem_inter.mp (hgood.counted.subset hclosed hheld ha)).1
  · intro n remLen
    unfold PbufStore.allocPool mempMalloc
    rw [htabs]
    exact Run.bind_eq_ok.mpr ⟨_, rfl, Run.bind_eq_ok.mpr ⟨_, hfree, rfl⟩⟩

/-- The chain is made, or what there is of it is given back. -/
theorem Building.allocPool {n : ℕ} {old : Finset ℕ} {last : ℕ} {rem : UInt16}
    (h : Building elems old s hs p last rem.toNat) (hold : old ⊆ s.live)
    (hn : (s.tabs .pbufPool).length < n) :
    ∃ r s', PbufStore.allocPool n (some (p, last)) rem 0 s = .ok (r, s') ∧
      s'.Good elems (r.toList ++ hs) ∧ s'.SummedUp := by
  induction n generalizing s last rem with
  | zero => omega
  | succ n ih =>
    rcases htabs : s.tabs .pbufPool with _ | ⟨q, rest⟩
    · rcases h.giveUp htabs with ⟨s', hgood, hframe, hsub, hgo⟩
      refine ⟨none, s', hgo n rem, hgood, ?_⟩
      intro a ha
      have hne : a ≠ last := fun heq => h.last_new (heq ▸ hsub a ha)
      have hsum := h.summed a (hframe.live ha) hne
      rw [hframe.tot ha, hframe.len ha, hframe.next ha, hsum]
      refine congrArg (s.len a + ·) (elim_tot ?_)
      intro c hcase
      exact hframe.tot (hgood.counted.next_mem ha ((hframe.next ha).trans hcase))
    · rcases h.pass hold htabs rfl with
        ⟨b, s1, s2, -, -, -, -, hbuild, hold2, htabs2, hgo⟩
      by_cases hmore : 0 < rem - min rem (pbufPoolBufsize - alignSize16 0)
      · have hshort : (s2.tabs .pbufPool).length < n := by
          rw [htabs, List.length_cons] at hn
          rw [htabs2]
          omega
        rcases ih hbuild hold2 hshort with ⟨r, s', hloop, hgood, hsummed⟩
        refine ⟨r, s', hgo n _ ?_, hgood, hsummed⟩
        rw [if_pos hmore]
        exact hloop
      · refine ⟨some p, s2, hgo n _ (if_neg hmore), hbuild.good, ?_⟩
        have hzero : (rem - min rem (pbufPoolBufsize - alignSize16 0)).toNat = 0 :=
          Nat.eq_zero_of_not_pos fun hpos => hmore (UInt16.lt_iff_toNat_lt.mpr hpos)
        rw [hzero] at hbuild
        exact hbuild.summedUp

/-- The first pass of the loop. -/
theorem Good.firstPass {rest : List ℕ} (h : s.Good elems hs) (hsum : s.SummedUp)
    (htabs : s.tabs .pbufPool = q :: rest) (layer : PbufLayer) (length : UInt16) {qlen : UInt16}
    (hqlen : qlen = min length (pbufPoolBufsize - alignSize16 layer.offset)) :
    ∃ b s1, b.next = none ∧ b.len = qlen ∧ s.Added s1 q b ∧
      Building elems s.live s1 hs q q (length - qlen).toNat ∧ s.live ⊆ s1.live ∧
      s1.tabs .pbufPool = rest ∧
      ∀ n r, (if 0 < length - qlen then PbufStore.allocPool n (some (q, q)) (length - qlen) 0 s1
        else .ok (some q, s1)) = .ok r →
        PbufStore.allocPool (n + 1) none length layer.offset s = .ok r := by
  have hroom : 0 < pbufPoolBufsize - alignSize16 layer.offset := by
    cases layer <;> decide
  rcases h.take htabs (show PbufType.pool.internal &&& 0x0F = Memp.pbufPool.src from rfl)
    (lwipMemAlign (q + sizeofStructPbuf + layer.offset.toNat)) length qlen with
    ⟨hmalloc, hadded, hpool⟩
  set s1 := ({ s with tabs := Function.update s.tabs Memp.pbufPool rest } :
    PbufStore).initAlloced q (lwipMemAlign (q + sizeofStructPbuf + layer.offset.toNat)) length
      qlen .pool with hs1
  have hle : qlen ≤ length := hqlen ▸ uint16_min_le _ _
  have hsub : (length - qlen).toNat = length.toNat - qlen.toNat := UInt16.toNat_sub_of_le _ _ hle
  rw [UInt16.le_iff_toNat_le] at hle
  have hqtot : s1.tot q = length.toNat := by
    rw [tot, hadded.self]
  have hqlen' : s1.len q = qlen.toNat := by
    rw [len, hadded.self]
  have hold : s.live ⊆ s1.live := by
    rw [hadded.live]
    exact Finset.subset_insert _ _
  refine ⟨_, s1, rfl, rfl, hadded, ?_, hold, ?_, ?_⟩
  · refine ⟨h.add hadded rfl rfl hpool, ?_, ?_, hadded.fresh, ?_, h.counted.held, ?_, ?_⟩
    · rw [hadded.live]
      exact Finset.mem_insert_self _ _
    · rw [next, hadded.self]
    · rw [hqtot, hqlen', hsub]
      omega
    · intro a ha b hab
      rw [next, hadded.old ha] at hab
      exact h.counted.next_mem ha hab
    · -- the pbufs that were in use are as they were
      intro a ha haq
      rw [hadded.live] at ha
      have hlive := (Finset.mem_insert.mp ha).resolve_left haq
      have hsum' := hsum a hlive
      rw [tot, len, next, hadded.old hlive]
      show s.tot a = s.len a + (s.next a).elim 0 s1.tot
      rw [hsum']
      refine congrArg (s.len a + ·) (elim_tot ?_)
      exact fun t hcase => tot_of_mem (hadded.old (h.counted.next_mem hlive hcase))
  · show Function.update s.tabs Memp.pbufPool rest Memp.pbufPool = rest
    rw [Function.update_self]
  · intro n r hr
    subst hqlen
    unfold PbufStore.allocPool
    refine Run.bind_eq_ok.mpr ⟨_, hmalloc, ?_⟩
    refine Run.bind_eq_ok.mpr ⟨(), pbufAssert_pos (by unfold lwipMemAlign; omega), ?_⟩
    refine Run.bind_eq_ok.mpr ⟨(), pbufAssert_pos hroom, ?_⟩
    exact Run.bind_eq_ok.mpr ⟨s1, rfl, hr⟩

/-- `pbuf_alloc_reference`. -/
theorem Good.allocReference (h : s.Good elems hs) (hsum : s.SummedUp) (payload : ℕ)
    (length : UInt16) {type : PbufType} (htype : type.internal &&& 0x0F = Memp.pbuf.src) :
    ∃ r s', s.pbufAllocReference payload length type = .ok (r, s') ∧
      s'.Good elems (r.toList ++ hs) ∧ s'.SummedUp := by
  rcases htabs : s.tabs .pbuf with _ | ⟨q, rest⟩
  · refine ⟨none, s, ?_, h, hsum⟩
    unfold pbufAllocReference mempMalloc
    rw [htabs]
    rfl
  · rcases h.take htabs htype payload length length with ⟨hmalloc, hadded, hpool⟩
    refine ⟨some q, _, ?_, h.add hadded rfl rfl hpool, hsum.add h hadded rfl rfl⟩
    exact Run.bind_eq_ok.mpr ⟨_, hmalloc, rfl⟩

/-- A buffer on the heap is a pbuf. -/
theorem Good.allocRam (h : s.Good elems hs) (hp : p ∉ s.live) (hpbuf : p ∉ elems .pbuf)
    (hpool : p ∉ elems .pbufPool) (payload : ℕ) (totLen len : UInt16) :
    s.Added (s.initAlloced p payload totLen len .ram) p ⟨none, payload, totLen, len, 0x80, 1⟩ ∧
      (s.initAlloced p payload totLen len .ram).Pooled elems := by
  have helem : ∀ m, p ∉ elems m := by
    intro m
    cases m
    · exact hpbuf
    · exact hpool
  have hself : (Function.update s.mem p ⟨none, payload, totLen, len, 0x80, 1⟩ p).allocsrc = 0 := by
    rw [Function.update_self]
    show (0x80 : UInt8) &&& 0x0F = 0
    decide
  refine ⟨⟨hp, rfl, Function.update_self .., fun a ha => Function.update_of_ne ha ..⟩, ?_⟩
  refine ⟨h.pooled.nodup, ?_, ?_, ?_, h.pooled.aligned, h.pooled.apart⟩
  · intro m a
    show a ∈ elems m ↔ a ∈ s.tabs m ∨
      a ∈ insert p s.live ∧ (Function.update s.mem p _ a).allocsrc = m.src
    rw [Finset.mem_insert]
    by_cases hap : a = p
    · subst hap
      have htab : a ∉ s.tabs m := fun hmem => helem m ((h.pooled.mem_iff m a).mpr (.inl hmem))
      have hsrc : ¬(0 : UInt8) = m.src := by cases m <;> decide
      have hself' : (Function.update s.mem a ⟨none, payload, totLen, len, PbufType.ram.internal, 1⟩
          a).allocsrc = 0 := hself
      rw [hself']
      simp [helem m, htab, hsrc]
    · rw [Function.update_of_ne hap, h.pooled.mem_iff m a]
      simp [hap]
  · intro m a ha
    show a ∉ insert p s.live
    rw [Finset.mem_insert, not_or]
    exact ⟨fun hap => helem m (hap ▸ (h.pooled.mem_iff m a).mpr (.inl ha)), h.pooled.notMem m a ha⟩
  · intro a ha
    by_cases hap : a = p
    · subst hap
      exact .inr (.inr hself)
    · have hmem : (s.initAlloced p payload totLen len .ram).mem a = s.mem a :=
        Function.update_of_ne hap ..
      rw [hmem]
      exact h.pooled.src a ((Finset.mem_insert.mp ha).resolve_left hap)

/-- `pbuf_alloc`. -/
theorem Good.alloc (h : s.Good elems hs) (hsum : s.SummedUp) (layer : PbufLayer) (length : UInt16)
    (type : PbufType) {rmem : Option ℕ}
    (hfresh : ∀ p ∈ rmem, p ∉ s.live ∧ p ∉ elems .pbuf ∧ p ∉ elems .pbufPool) :
    ∃ r s', s.pbufAlloc layer length type rmem = .ok (r, s') ∧ s'.Good elems (r.toList ++ hs) ∧
      s'.SummedUp := by
  cases type with
  | ref => exact h.allocReference hsum 0 length rfl
  | rom => exact h.allocReference hsum 0 length rfl
  | ram =>
    cases rmem with
    | none => exact ⟨none, s, rfl, h, hsum⟩
    | some p =>
      rcases hfresh p rfl with ⟨hp, hpbuf, hpool⟩
      rcases h.allocRam hp hpbuf hpool (lwipMemAlign (p + sizeofStructPbuf + layer.offset.toNat))
        length length with ⟨hadded, hpooled⟩
      refine ⟨some p, _, ?_, h.add hadded rfl rfl hpooled, hsum.add h hadded rfl rfl⟩
      exact Run.bind_eq_ok.mpr ⟨(), pbufAssert_pos (by unfold lwipMemAlign; omega), rfl⟩
  | pool =>
    show ∃ r s', PbufStore.allocPool ((s.tabs .pbufPool).length + 1) none length layer.offset s
      = .ok (r, s') ∧ _
    rcases htabs : s.tabs .pbufPool with _ | ⟨q, rest⟩
    · refine ⟨none, s, ?_, h, hsum⟩
      unfold PbufStore.allocPool mempMalloc
      rw [htabs]
      rfl
    · rcases h.firstPass hsum htabs layer length rfl with
        ⟨b, s1, -, -, -, hbuild, hold, htabs1, hgo⟩
      by_cases hmore : 0 < length - min length (pbufPoolBufsize - alignSize16 layer.offset)
      · have hshort : (s1.tabs .pbufPool).length < (q :: rest).length := by
          rw [htabs1, List.length_cons]
          omega
        rcases hbuild.allocPool hold hshort with ⟨r, s', hloop, hgood, hsummed⟩
        refine ⟨r, s', hgo _ _ ?_, hgood, hsummed⟩
        rw [if_pos hmore]
        exact hloop
      · refine ⟨some q, s1, hgo _ _ (if_neg hmore), hbuild.good, ?_⟩
        have hzero : (length - min length (pbufPoolBufsize - alignSize16 layer.offset)).toNat = 0 :=
          Nat.eq_zero_of_not_pos fun hpos => hmore (UInt16.lt_iff_toNat_lt.mpr hpos)
        rw [hzero] at hbuild
        exact hbuild.summedUp

end PbufStore

end Cannelloni
