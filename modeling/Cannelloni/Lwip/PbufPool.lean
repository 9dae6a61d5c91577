import Cannelloni.Lwip.PbufRuns
import Cannelloni.Hdkif.RxChain

/-!
# What the receive driver gets from the pool

`pbuf_alloc` with `PBUF_POOL`, in every state the users of pbufs can bring about: the driver gets a
chain of pbufs nobody has, with the lengths it relies on, or `NULL` when the pool has too few
elements, and then everything is as it was.
-/

namespace Cannelloni

open RefCount
open Hdkif (poolLens allocLens PoolChain NewPbufs)

namespace PbufStore

variable {s s' s0 : PbufStore} {elems : Memp → List ℕ} {hs : List ℕ} {p q last : ℕ} {l : List ℕ}

/-- The driver and the pool agree on how long a pbuf is. -/
theorem poolLens_succ (passes : ℕ) (rem : UInt16) : poolLens (passes + 1) rem
    = min rem (pbufPoolBufsize - alignSize16 0) ::
      if 0 < rem - min rem (pbufPoolBufsize - alignSize16 0) then
        poolLens passes (rem - min rem (pbufPoolBufsize - alignSize16 0)) else [] := by
  have hsize : pbufPoolBufsize - alignSize16 0 = 1400 := by decide
  have hmin : min rem (pbufPoolBufsize - alignSize16 0)
      = if rem < pbufPoolBufsize then rem else pbufPoolBufsize := by
    rw [hsize]
    show (if rem ≤ 1400 then rem else 1400) = if rem < 1400 then rem else 1400
    by_cases hlt : rem < 1400
    · rw [if_pos hlt, if_pos (UInt16.le_of_lt hlt)]
    · rw [if_neg hlt]
      by_cases hle : rem ≤ 1400
      · rw [if_pos hle]
        exact UInt16.le_antisymm hle (UInt16.not_lt.mp hlt)
      · rw [if_neg hle]
  rw [hmin]
  rfl

theorem min_poolBufsize_toNat (rem : UInt16) :
    (min rem (pbufPoolBufsize - alignSize16 0)).toNat = min rem.toNat 1400 := by
  have hsize : pbufPoolBufsize - alignSize16 0 = 1400 := by decide
  rw [hsize]
  show (if rem ≤ 1400 then rem else 1400).toNat = _
  split
  · next hle =>
    have hle' : rem.toNat ≤ 1400 := UInt16.le_iff_toNat_le.mp hle
    omega
  · next hle =>
    have hle' : ¬rem.toNat ≤ 1400 := fun hcon => hle (UInt16.le_iff_toNat_le.mpr hcon)
    show 1400 = min rem.toNat 1400
    omega

/-- What `last->next = q` writes. -/
theorem linkLast_spec (h : s.linkLast (some (p, last)) q = .ok s') :
    s'.live = s.live ∧ s'.mem last = { s.mem last with next := some q } ∧
      ∀ a, a ≠ last → s'.mem a = s.mem a := by
  rcases Run.bind_eq_ok.mp h with ⟨b, hb, hs'⟩
  have hmem : b = s.mem last := by
    unfold PbufStore.get at hb
    split at hb
    · exact (Except.ok.inj hb).symm
    · cases hb
  cases hs'
  rw [hmem]
  exact ⟨rfl, set_mem_self _, fun a ha => set_mem_of_ne _ ha⟩

/-- The chain so far, of pbufs that were free in `s0`, with their lengths. -/
structure Taking (elems : Memp → List ℕ) (s0 s : PbufStore) (hs : List ℕ) (p last : ℕ)
    (rem : UInt16) (l : List ℕ) (lens : List UInt16) : Prop where
  building : Building elems s0.live s hs p last rem.toNat
  path : Path s.live s.next p l
  last_eq : (p :: l).getLast? = some last
  lens_eq : (p :: l).map (fun a => (s.mem a).len) = lens
  fresh : ∀ a ∈ p :: l, a ∉ s0.live
  old : ∀ a ∈ s0.live, s.mem a = s0.mem a
  sub : s0.live ⊆ s.live
  count : lens.length + (s.tabs .pbufPool).length = (s0.tabs .pbufPool).length

/-- The next pbuf of the chain. -/
theorem Taking.pass {rem qlen : UInt16} {lens : List UInt16} {rest : List ℕ}
    (h : Taking elems s0 s hs p last rem l lens) (htabs : s.tabs .pbufPool = q :: rest)
    (hqlen : qlen = min rem (pbufPoolBufsize - alignSize16 0)) :
    ∃ s2, Taking elems s0 s2 hs p q (rem - qlen) (l ++ [q]) (lens ++ [qlen]) ∧
      s2.tabs .pbufPool = rest ∧
      ∀ n r, (if 0 < rem - qlen then PbufStore.allocPool n (some (p, q)) (rem - qlen) 0 s2
        else .ok (some p, s2)) = .ok r →
        PbufStore.allocPool (n + 1) (some (p, last)) rem 0 s = .ok r := by
  rcases h.building.pass h.sub htabs hqlen with
    ⟨b, s1, s2, -, hlen, hadded, hlink, hbuild, hsub, htabs2, hgo⟩
  rcases linkLast_spec hlink with ⟨hlive2, hmemlast, hmem2⟩
  have hlastmem : last ∈ p :: l := List.mem_of_getLast? h.last_eq
  have hne : ∀ a ∈ p :: l, a ≠ q := fun a ha haq => hadded.fresh (haq ▸ h.path.2 a ha)
  have hql : q ≠ last := fun heq => hne last hlastmem heq.symm
  have hmem : ∀ a ∈ p :: l, a ≠ last → s2.mem a = s.mem a := by
    intro a ha hal
    rw [hmem2 a hal, hadded.rest a (hne a ha)]
  have hmemq : s2.mem q = b := by rw [hmem2 q hql, hadded.self]
  refine ⟨s2, ⟨hbuild, ⟨?_, ?_⟩, ?_, ?_, ?_, ?_, hsub, ?_⟩, htabs2, hgo⟩
  · show Linked.Segment s2.next ((p :: l) ++ [q]) none
    rw [Linked.segment_append]
    refine ⟨?_, hbuild.last_next, trivial⟩
    refine h.path.1.relink h.path.nodup h.last_eq ?_ ?_
    · intro a ha hal
      rw [next, hmem a ha hal]
      rfl
    · rw [next, hmemlast]
      rfl
  · intro a ha
    rw [hlive2, hadded.live]
    have ha' : a ∈ (p :: l) ++ [q] := ha
    rcases List.mem_append.mp ha' with ha' | ha'
    · exact Finset.mem_insert_of_mem (h.path.2 a ha')
    · rw [List.mem_singleton.mp ha']
      exact Finset.mem_insert_self _ _
  · show ((p :: l) ++ [q]).getLast? = some q
    rw [List.getLast?_append]
    rfl
  · show ((p :: l) ++ [q]).map (fun a => (s2.mem a).len) = _
    rw [List.map_append, ← h.lens_eq]
    congr 1
    · apply List.map_congr_left
      intro a ha
      by_cases hal : a = last
      · rw [hal, hmemlast, hadded.rest last (hne last hlastmem)]
      · rw [hmem a ha hal]
    · rw [List.map_singleton, hmemq, hlen]
  · intro a ha
    have ha' : a ∈ (p :: l) ++ [q] := ha
    rcases List.mem_append.mp ha' with ha' | ha'
    · exact h.fresh a ha'
    · rw [List.mem_singleton.mp ha']
      exact fun hq => hadded.fresh (h.sub hq)
  · intro a ha
    have hal : a ≠ last := fun heq => h.fresh last hlastmem (heq ▸ ha)
    rw [hmem2 a hal, hadded.old (h.sub ha), h.old a ha]
  · have hcount := h.count
    rw [htabs, List.length_cons] at hcount
    rw [htabs2, List.length_append, List.length_singleton]
    omega

/-- The same references to the same pbufs: nothing has changed but the order of the pools. -/
theorem Good.same (h0 : s0.Good elems hs) (h : s.Good elems hs) (hsub : ∀ a ∈ s.live, a ∈ s0.live)
    (hmem : ∀ a ∈ s.live, s.mem a = { s0.mem a with ref := (s.mem a).ref }) :
    s.live = s0.live ∧ ∀ a ∈ s0.live, s.mem a = s0.mem a := by
  have hnext : ∀ a ∈ s.live, s.next a = s0.next a := by
    intro a ha
    rw [next, hmem a ha]
    rfl
  have hclosed : ∀ a ∈ s.live, ∀ b, s0.next a = some b → b ∈ s.live := by
    intro a ha b hab
    rw [← hnext a ha] at hab
    exact h.counted.next_mem ha hab
  have hlive : s.live = s0.live := by
    ext a
    exact ⟨hsub a, h0.counted.subset hclosed h.counted.held⟩
  refine ⟨hlive, ?_⟩
  intro a ha
  have ha' : a ∈ s.live := hlive ▸ ha
  have hpointers : pointers s.live s.next a = pointers s0.live s0.next a := by
    unfold pointers
    rw [← hlive]
    congr 1
    apply Finset.filter_congr
    intro b hb
    rw [hnext b hb]
  have href : (s.mem a).ref = (s0.mem a).ref := by
    apply UInt8.toNat_inj.mp
    show s.ref a = s0.ref a
    rw [h.counted.ref_eq a ha', h0.counted.ref_eq a ha, hpointers]
  rw [hmem a ha', href]

/-- The loop: a chain with all the lengths, or everything as it was. -/
theorem Taking.allocPool {n passes : ℕ} {rem : UInt16} {lens : List UInt16}
    (h0 : s0.Good elems hs) (h : Taking elems s0 s hs p last rem l lens)
    (hpasses : rem.toNat < 1400 * passes) (hn : (s.tabs .pbufPool).length < n) :
    ((lens ++ poolLens passes rem).length ≤ (s0.tabs .pbufPool).length ∧
      ∃ s' l', PbufStore.allocPool n (some (p, last)) rem 0 s = .ok (some p, s') ∧
        Path s'.live s'.next p l' ∧
        (p :: l').map (fun a => (s'.mem a).len) = lens ++ poolLens passes rem ∧
        ∀ a ∈ p :: l', a ∉ s0.live) ∨
    ((s0.tabs .pbufPool).length < (lens ++ poolLens passes rem).length ∧
      ∃ s', PbufStore.allocPool n (some (p, last)) rem 0 s = .ok (none, s') ∧
        s'.live = s0.live ∧ ∀ a ∈ s0.live, s'.mem a = s0.mem a) := by
  induction n generalizing s last rem l lens passes with
  | zero => omega
  | succ n ih =>
    rcases passes with _ | passes
    · omega
    rw [poolLens_succ, List.length_append]
    rcases htabs : s.tabs .pbufPool with _ | ⟨q, rest⟩
    · right
      rcases h.building.giveUp htabs with ⟨s', hgood, hframe, hsub, hgo⟩
      have hcount := h.count
      rw [htabs, List.length_nil] at hcount
      rw [List.length_cons]
      refine ⟨by omega, s', hgo n rem, ?_⟩
      apply h0.same hgood hsub
      intro a ha
      rw [hframe.mem a ha, h.old a (hsub a ha)]
    · rcases h.pass htabs rfl with ⟨s2, hnext, htabs2, hgo⟩
      set qlen := min rem (pbufPoolBufsize - alignSize16 0) with hqlen
      by_cases hmore : 0 < rem - qlen
      · have hqval : qlen.toNat = min rem.toNat 1400 := min_poolBufsize_toNat rem
        have hsub : (rem - qlen).toNat = rem.toNat - qlen.toNat :=
          UInt16.toNat_sub_of_le _ _ (uint16_min_le _ _)
        have hpos : 0 < (rem - qlen).toNat := UInt16.lt_iff_toNat_lt.mp hmore
        have hshort : (s2.tabs .pbufPool).length < n := by
          rw [htabs, List.length_cons] at hn
          rw [htabs2]
          omega
        have hloop := ih hnext (show (rem - qlen).toNat < 1400 * passes by omega) hshort
        rw [if_pos hmore]
        rw [List.append_assoc, List.singleton_append, List.length_append] at hloop
        rcases hloop with ⟨hle, s', l', halloc, hrest⟩ | ⟨hlt, s', halloc, hrest⟩
        · refine .inl ⟨hle, s', l', hgo n _ ?_, hrest⟩
          rw [if_pos hmore]
          exact halloc
        · refine .inr ⟨hlt, s', hgo n _ ?_, hrest⟩
          rw [if_pos hmore]
          exact halloc
      · left
        rw [if_neg hmore]
        have hcount := hnext.count
        rw [List.length_append] at hcount
        exact ⟨by omega, s2, l ++ [q], hgo n _ (if_neg hmore), hnext.path, hnext.lens_eq,
          hnext.fresh⟩

/-- `pbuf_alloc` with `PBUF_RAW` and `PBUF_POOL`. -/
theorem Good.allocRaw (h : s.Good elems hs) (hsum : s.SummedUp) (length : UInt16) :
    ((allocLens length).length ≤ (s.tabs .pbufPool).length ∧
      ∃ p s' l', s.pbufAlloc .raw length .pool none = .ok (some p, s') ∧
        Path s'.live s'.next p l' ∧
        (p :: l').map (fun a => (s'.mem a).len) = allocLens length ∧
        ∀ a ∈ p :: l', a ∉ s.live) ∨
    ((s.tabs .pbufPool).length < (allocLens length).length ∧
      ∃ s', s.pbufAlloc .raw length .pool none = .ok (none, s') ∧ s'.live = s.live ∧
        ∀ a ∈ s.live, s'.mem a = s.mem a) := by
  show ((allocLens length).length ≤ _ ∧ ∃ p s' l',
      PbufStore.allocPool ((s.tabs .pbufPool).length + 1) none length 0 s = _ ∧ _) ∨
    (_ ∧ ∃ s', PbufStore.allocPool ((s.tabs .pbufPool).length + 1) none length 0 s = _ ∧ _)
  have hlens : allocLens length = poolLens (46 + 1) length := rfl
  rw [hlens, poolLens_succ, List.length_cons]
  rcases htabs : s.tabs .pbufPool with _ | ⟨q, rest⟩
  · right
    refine ⟨by simp, s, ?_, rfl, fun a _ => rfl⟩
    unfold PbufStore.allocPool mempMalloc
    rw [htabs]
    rfl
  · rcases h.firstPass hsum htabs .raw length rfl with
      ⟨b, s1, hnone, hlen, hadded, hbuild, hsub, htabs1, hgo⟩
    have hoff : PbufLayer.raw.offset = 0 := rfl
    rw [hoff] at hbuild hgo hlen
    set qlen := min length (pbufPoolBufsize - alignSize16 0) with hqlen
    have htaking : Taking elems s s1 hs q q (length - qlen) [] [qlen] := by
      refine ⟨hbuild, path_nil.mpr ⟨hbuild.last_live, hbuild.last_next⟩, rfl, ?_, ?_,
        fun a ha => hadded.old ha, hsub, ?_⟩
      · rw [List.map_singleton, hadded.self, hlen]
      · intro a ha
        rw [List.mem_singleton.mp ha]
        exact hadded.fresh
      · rw [htabs, htabs1]
        simp only [List.length_cons, List.length_nil]
        omega
    by_cases hmore : 0 < length - qlen
    · have hlt := length.toNat_lt
      have hqval : qlen.toNat = min length.toNat 1400 := min_poolBufsize_toNat length
      have hsub' : (length - qlen).toNat = length.toNat - qlen.toNat :=
        UInt16.toNat_sub_of_le _ _ (uint16_min_le _ _)
      have hpasses : (length - qlen).toNat < 1400 * 46 := by omega
      have hshort : (s1.tabs .pbufPool).length < (q :: rest).length := by
        rw [htabs1, List.length_cons]
        omega
      have hloop := htaking.allocPool h hpasses hshort
      rw [List.length_append, List.singleton_append, List.length_singleton, htabs] at hloop
      rw [if_pos hmore]
      rcases hloop with ⟨hle, s', l', halloc, hrest⟩ | ⟨hlt, s', halloc, hrest⟩
      · refine .inl ⟨by omega, q, s', l', hgo _ _ ?_, hrest⟩
        rw [if_pos hmore]
        exact halloc
      · refine .inr ⟨by omega, s', hgo _ _ ?_, hrest⟩
        rw [if_pos hmore]
        exact halloc
    · left
      rw [if_neg hmore]
      exact ⟨by simp, q, s1, [], hgo _ _ (if_neg hmore), htaking.path, htaking.lens_eq,
        htaking.fresh⟩

end PbufStore

namespace PbufSystem

open PbufStore

variable {s : PbufSystem} {areas : PbufAreas} {mem : ℕ → StructPbuf} {events : List PbufEvent}

/-- In every state that is reached the receive driver gets a chain of pbufs nobody has, with the
lengths it relies on, if the pool has as many elements. Else it gets `NULL`, and nothing has changed
but the order of the pools. -/
theorem alloc_pool (h : Run.Along step (Proper areas.elems) (init areas mem) events)
    (hs : run areas mem events = .ok s) (length : UInt16) :
    ((allocLens length).length ≤ (s.store.tabs .pbufPool).length ∧
      ∃ p s', ∃ new : NewPbufs, s.step (.alloc .raw length .pool none) = .ok s' ∧
        s'.holders = p :: s.holders ∧
        new.chain = (s'.chainOf p).map (fun q => (q, (s'.store.mem q).len)) ∧
        PoolChain length new ∧ ∀ q ∈ s'.chainOf p, q ∉ s.store.live) ∨
    ((s.store.tabs .pbufPool).length < (allocLens length).length ∧
      ∃ s', s.step (.alloc .raw length .pool none) = .ok s' ∧ s'.holders = s.holders ∧
        s'.store.live = s.store.live ∧ (∀ q ∈ s.store.live, s'.store.mem q = s.store.mem q) ∧
        ∀ m, (s'.store.tabs m).Perm (s.store.tabs m)) := by
  have hinv := inv_of_run h hs
  have hproper : s.Proper areas.elems (.alloc .raw length .pool none) := by
    intro p hp
    cases hp
  rcases hinv.step hproper with ⟨s', hs', hinv'⟩
  rcases hinv.good.allocRaw hinv.summedUp length with
    ⟨hle, p, store, l, halloc, hpath, hlens, hfresh⟩ | ⟨hlt, store, halloc, hlive, hmem⟩
  · left
    have hstep : s.step (.alloc .raw length .pool none) = .ok ⟨store, p :: s.holders⟩ :=
      Run.bind_eq_ok.mpr ⟨_, halloc, rfl⟩
    obtain rfl : s' = ⟨store, p :: s.holders⟩ := Except.ok.inj (hs'.symm.trans hstep)
    rcases hinv'.path hpath.mem with ⟨m, hm, hchain⟩
    obtain rfl : l = m := hpath.unique hm
    refine ⟨hle, p, _, ⟨(p :: l).map fun q => (q, (store.mem q).len), by simp⟩, hstep, rfl, ?_,
      ⟨?_, ?_⟩, ?_⟩
    · rw [hchain]
    · rw [List.map_map]
      exact hlens
    · rw [List.map_map]
      show ((p :: l).map id).Nodup
      rw [List.map_id]
      exact hpath.nodup
    · rw [hchain]
      exact hfresh
  · right
    have hstep : s.step (.alloc .raw length .pool none) = .ok ⟨store, s.holders⟩ :=
      Run.bind_eq_ok.mpr ⟨_, halloc, rfl⟩
    obtain rfl : s' = ⟨store, s.holders⟩ := Except.ok.inj (hs'.symm.trans hstep)
    refine ⟨hlt, _, hstep, rfl, hlive, hmem, ?_⟩
    intro m
    have hnodup := hinv.good.pooled.nodup m
    have hnodup' : (store.tabs m).Nodup := hinv'.good.pooled.nodup m
    have hiff : ∀ a, a ∈ store.tabs m ↔ a ∈ s.store.tabs m := by
      intro a
      constructor
      · intro ha
        have helem := (hinv'.good.pooled.mem_iff m a).mpr (.inl ha)
        have hnot : a ∉ store.live := (hinv'.mem_tabs_iff helem).mp ha
        rw [hlive] at hnot
        exact (hinv.mem_tabs_iff helem).mpr hnot
      · intro ha
        have helem := (hinv.good.pooled.mem_iff m a).mpr (.inl ha)
        have hnot := (hinv.mem_tabs_iff helem).mp ha
        rw [← hlive] at hnot
        exact (hinv'.mem_tabs_iff helem).mpr hnot
    exact (List.perm_ext_iff_of_nodup hnodup' hnodup).mpr hiff

theorem alloc_pool_two : ∃ s, run ⟨1001, 2000, by decide⟩ (fun _ => ⟨none, 0, 0, 0, 0, 0⟩)
    [.alloc .raw 1514 .pool none, .alloc .raw 19000 .pool none] = .ok s ∧
    (((allocLens 2801).length ≤ (s.store.tabs .pbufPool).length ∧
      ∃ p s', ∃ new : NewPbufs, s.step (.alloc .raw 2801 .pool none) = .ok s' ∧
        s'.holders = p :: s.holders ∧
        new.chain = (s'.chainOf p).map (fun q => (q, (s'.store.mem q).len)) ∧
        PoolChain 2801 new ∧ ∀ q ∈ s'.chainOf p, q ∉ s.store.live) ∨
    ((s.store.tabs .pbufPool).length < (allocLens 2801).length ∧
      ∃ s', s.step (.alloc .raw 2801 .pool none) = .ok s' ∧ s'.holders = s.holders ∧
        s'.store.live = s.store.live ∧ (∀ q ∈ s.store.live, s'.store.mem q = s.store.mem q) ∧
        ∀ m, (s'.store.tabs m).Perm (s.store.tabs m))) :=
  ⟨_, rfl, alloc_pool (show Run.Along step (Proper (PbufAreas.elems ⟨1001, 2000, by decide⟩))
    (init ⟨1001, 2000, by decide⟩ fun _ => ⟨none, 0, 0, 0, 0, 0⟩)
    [.alloc .raw 1514 .pool none, .alloc .raw 19000 .pool none] by decide +kernel) rfl 2801⟩

end PbufSystem

end Cannelloni
