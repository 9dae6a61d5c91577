import Cannelloni.Lwip.PbufChains

/-!
# What the users of packet buffers get

As long as the users keep to their references, no assertion of `pbuf.c` fails and nobody looks at
a pbuf that was given back. The counts are exact, the lengths add up, and nothing is lost: without
a reference to a pbuf or to one in front of it, the pbuf is back where it came from.
-/

namespace Cannelloni

open RefCount

/-! ## The pools at the start -/

namespace PbufStore

theorem foldl_cons {α β : Type*} (f : α → β) (l : List α) (tab : List β) :
    l.foldl (fun tab i => f i :: tab) tab = (l.map f).reverse ++ tab := by
  induction l generalizing tab with
  | nil => rfl
  | cons a l ih =>
    rw [List.foldl_cons, ih, List.map_cons, List.reverse_cons, List.append_assoc]
    rfl

theorem mempInitPool_eq (base num size : ℕ) : mempInitPool base num size
    = ((List.range num).map fun i => lwipMemAlign base + i * size).reverse := by
  unfold mempInitPool
  rw [foldl_cons, List.append_nil]

theorem mem_mempInitPool {base num size a : ℕ} :
    a ∈ mempInitPool base num size ↔ ∃ i < num, a = lwipMemAlign base + i * size := by
  rw [mempInitPool_eq, List.mem_reverse, List.mem_map]
  constructor
  · rintro ⟨i, hi, rfl⟩
    exact ⟨i, List.mem_range.mp hi, rfl⟩
  · rintro ⟨i, hi, rfl⟩
    exact ⟨i, List.mem_range.mpr hi, rfl⟩

theorem nodup_mempInitPool {base num size : ℕ} (hsize : 0 < size) :
    (mempInitPool base num size).Nodup := by
  rw [mempInitPool_eq, List.nodup_reverse]
  refine List.Nodup.map ?_ List.nodup_range
  intro i j hij
  have hmul : i * size = j * size := by
    simp only at hij
    omega
  exact Nat.eq_of_mul_eq_mul_right hsize hmul

end PbufStore

open PbufStore

theorem PbufAreas.nodup (areas : PbufAreas) (m : Memp) : (areas.elems m).Nodup := by
  cases m
  · exact nodup_mempInitPool (by decide)
  · exact nodup_mempInitPool (by decide)

theorem PbufAreas.aligned (areas : PbufAreas) (m : Memp) {a : ℕ} (ha : a ∈ areas.elems m) :
    a % 4 = 0 := by
  cases m
  · rcases mem_mempInitPool.mp ha with ⟨i, -, rfl⟩
    unfold lwipMemAlign
    omega
  · rcases mem_mempInitPool.mp ha with ⟨i, -, rfl⟩
    unfold lwipMemAlign
    omega

theorem PbufAreas.notMem (areas : PbufAreas) {a : ℕ} (ha : a ∈ areas.elems .pbuf) :
    a ∉ areas.elems .pbufPool := by
  intro ha'
  rcases mem_mempInitPool.mp ha with ⟨i, hi, rfl⟩
  rcases mem_mempInitPool.mp ha' with ⟨j, hj, heq⟩
  have hapart := areas.apart
  omega

namespace PbufSystem

variable {s s' : PbufSystem} {elems : Memp → List ℕ} {p : ℕ}

/-! ## The steps -/

/-- What every step keeps. -/
structure Inv (elems : Memp → List ℕ) (s : PbufSystem) : Prop where
  good : s.store.Good elems s.holders
  summedUp : s.store.SummedUp

/-- The chain of a pbuf in use. -/
theorem Inv.path (h : s.Inv elems) (hp : p ∈ s.store.live) :
    ∃ l, Path s.store.live s.store.next p l ∧ s.chainOf p = p :: l := by
  rcases h.good.counted.path p hp with ⟨l, hpath⟩
  have hlen := hpath.length_lt
  refine ⟨l, hpath, ?_⟩
  exact Linked.walk_segment hpath.1 (by simp only [List.length_cons, steps]; omega)

/-- Two packets that may be put together. -/
theorem Inv.joins (h : s.Inv elems) {t : ℕ} (hj : s.Joins p t) :
    ∃ l m, Path s.store.live s.store.next p l ∧ s.store.Sole s.holders p l ∧
      Path s.store.live s.store.next t m ∧ (∀ a ∈ p :: l, a ∉ t :: m) ∧
      s.store.tot p + s.store.tot t < 65536 := by
  rcases hj with ⟨hp, ht, halone, hdisj, hlt⟩
  rcases h.path (h.good.counted.held p hp) with ⟨l, hl, hchain⟩
  rcases h.path (h.good.counted.held t ht) with ⟨m, hm, hchain'⟩
  rw [hchain, hchain'] at hdisj
  refine ⟨l, m, hl, ?_, hm, hdisj, hlt⟩
  intro a ha
  exact halone a (hchain ▸ ha)

/-- Users who keep to their references do not halt the gateway, and the invariant is kept. -/
theorem Inv.step (h : s.Inv elems) {e : PbufEvent} (he : s.Proper elems e) :
    ∃ s', s.step e = .ok s' ∧ s'.Inv elems := by
  rcases h with ⟨hgood, hsum⟩
  have hinv : s.Inv elems := ⟨hgood, hsum⟩
  cases e with
  | alloc layer length type rmem =>
    rcases hgood.alloc hsum layer length type he with ⟨r, store, halloc, hgood', hsum'⟩
    exact ⟨_, Run.bind_eq_ok.mpr ⟨_, halloc, rfl⟩, hgood', hsum'⟩
  | ref p =>
    rcases he with ⟨hp, hlt⟩
    rcases hgood.retain (hgood.counted.held p hp) hlt with ⟨store, hretain, hgood', hframe, -⟩
    exact ⟨_, Run.bind_eq_ok.mpr ⟨_, hretain, rfl⟩, hgood', hsum.frame hframe hgood'⟩
  | free p =>
    rcases hgood.free he with ⟨c, store, hfree, hgood', hframe⟩
    exact ⟨_, Run.bind_eq_ok.mpr ⟨_, hfree, rfl⟩, hgood', hsum.frame hframe hgood'⟩
  | cat p t =>
    rcases hinv.joins he with ⟨l, m, hl, hsole, hm, hdisj, hlt⟩
    rcases hgood.cat hsum hl hsole he.2.1 hm hdisj hlt with ⟨store, hcat, hgood', hsum', -⟩
    exact ⟨_, Run.bind_eq_ok.mpr ⟨_, hcat, rfl⟩, hgood', hsum'⟩
  | chain p t =>
    rcases he with ⟨hj, href⟩
    rcases hinv.joins hj with ⟨l, m, hl, hsole, hm, hdisj, hlt⟩
    rcases hgood.chain hsum hl hsole hj.2.1 hm hdisj hlt href with ⟨store, hchain, hgood', hsum'⟩
    exact ⟨_, Run.bind_eq_ok.mpr ⟨_, hchain, rfl⟩, hgood', hsum'⟩
  | dechain p =>
    rcases hgood.dechain hsum he.1 he.2 with ⟨r, store, hdechain, hgood', hsum'⟩
    exact ⟨_, Run.bind_eq_ok.mpr ⟨_, hdechain, rfl⟩, hgood', hsum'⟩
  | realloc p newLen =>
    rcases he with ⟨hp, halone⟩
    rcases hinv.path (hgood.counted.held p hp) with ⟨l, hl, hchain⟩
    have hsole : s.store.Sole s.holders p l := fun a ha => halone a (hchain ▸ ha)
    rcases hgood.realloc hsum hp hl hsole newLen with ⟨store, hrealloc, hgood', hsum'⟩
    exact ⟨_, Run.bind_eq_ok.mpr ⟨_, hrealloc, rfl⟩, hgood', hsum'⟩
  | addHeader p n force =>
    rcases hgood.addHeader hsum he.1 he.2 n force with ⟨r, store, hadd, hgood', hsum'⟩
    exact ⟨_, Run.bind_eq_ok.mpr ⟨_, hadd, rfl⟩, hgood', hsum'⟩
  | removeHeader p n =>
    rcases hgood.removeHeader hsum he.1 he.2 n with ⟨r, store, hremove, hgood', hsum'⟩
    exact ⟨_, Run.bind_eq_ok.mpr ⟨_, hremove, rfl⟩, hgood', hsum'⟩

/-- Behind `memp_init` the pools are full. -/
theorem inv_init (areas : PbufAreas) (mem : ℕ → StructPbuf) : (init areas mem).Inv areas.elems where
  good := by
    refine ⟨⟨?_, ?_, ?_, ?_⟩, ⟨areas.nodup, ?_, ?_, ?_, fun m a => areas.aligned m,
      fun a => areas.notMem⟩⟩
    · intro a ha
      simp [init] at ha
    · intro a ha
      simp [init] at ha
    · intro a ha
      simp [init] at ha
    · intro a ha
      simp [init] at ha
    · intro m a
      simp [init]
    · intro m a _
      simp [init]
    · intro a ha
      simp [init] at ha
  summedUp := by
    intro a ha
    simp [init] at ha

/-! ## The runs -/

/-- What the users can rely on: what they hold is in use, and what that leads to, but nothing else;
each count is the number of references, each sum is right, and a pool has what is not in use. -/
structure Sound (elems : Memp → List ℕ) (s : PbufSystem) : Prop where
  held : ∀ p ∈ s.holders, p ∈ s.store.live
  linked : ∀ p ∈ s.store.live, ∀ q, (s.store.mem p).next = some q → q ∈ s.store.live
  reached : ∀ p ∈ s.store.live, ∃ q ∈ s.holders, p ∈ s.chainOf q
  counts : ∀ p ∈ s.store.live, (s.store.mem p).ref.toNat
    = s.holders.count p + (s.store.live.filter fun q => (s.store.mem q).next = some p).card
  totals : ∀ p ∈ s.store.live, (s.store.mem p).totLen.toNat = (s.store.mem p).len.toNat
    + (s.store.mem p).next.elim 0 fun q => (s.store.mem q).totLen.toNat
  pools : ∀ m, (s.store.tabs m).Nodup ∧ ∀ a ∈ elems m, a ∈ s.store.tabs m ↔ a ∉ s.store.live

/-- An element of a pool in use is a pbuf of this pool. -/
theorem Inv.mem_tabs_iff (h : s.Inv elems) {m : Memp} {a : ℕ} (ha : a ∈ elems m) :
    a ∈ s.store.tabs m ↔ a ∉ s.store.live := by
  constructor
  · exact h.good.pooled.notMem m a
  · intro hlive
    rcases (h.good.pooled.mem_iff m a).mp ha with htab | hused
    · exact htab
    · exact absurd hused.1 hlive

theorem Inv.sound (h : s.Inv elems) : s.Sound elems where
  held := h.good.counted.held
  linked _ hp _ hq := h.good.counted.next_mem hp hq
  reached := by
    intro p hp
    rcases h.good.counted.reached hp with ⟨q, hq, l, hpath, hmem⟩
    rcases h.path (h.good.counted.held q hq) with ⟨m, hpath', hchain⟩
    refine ⟨q, hq, ?_⟩
    rw [hchain, hpath'.unique hpath]
    exact hmem
  counts := h.good.counted.ref_eq
  totals := h.summedUp
  pools m := ⟨h.good.pooled.nodup m, fun _ ha => h.mem_tabs_iff ha⟩

section

variable {areas : PbufAreas} {mem : ℕ → StructPbuf} {events : List PbufEvent}

theorem inv_of_run (h : Run.Along step (Proper areas.elems) (init areas mem) events)
    (hs : run areas mem events = .ok s) : s.Inv areas.elems := by
  rcases Run.exec_of_along (fun s e hinv he => Inv.step hinv he) (inv_init areas mem) h with
    ⟨s', hs', hinv⟩
  have hsame : s' = s := Except.ok.inj (hs'.symm.trans hs)
  rwa [hsame] at hinv

/-- As long as the users keep to their references, no assertion fails, no pbuf is looked at that
was given back, and the counts, the sums and the pools are right. -/
theorem pbufs_sound (areas : PbufAreas) (mem : ℕ → StructPbuf) {events : List PbufEvent}
    (h : Run.Along step (Proper areas.elems) (init areas mem) events) :
    ∃ s, run areas mem events = .ok s ∧ s.Sound areas.elems := by
  rcases Run.exec_of_along (fun s e hinv he => Inv.step hinv he) (inv_init areas mem) h with
    ⟨s, hs, hinv⟩
  exact ⟨s, hs, hinv.sound⟩

theorem pbufs_sound_packet : ∃ s, run ⟨1001, 2000, by decide⟩ (fun _ => ⟨none, 0, 0, 0, 0, 0⟩)
    [.alloc .raw 1514 .pool none, .alloc .ip 8 .ram (some 50000), .chain 50000 23240, .free 23240,
      .removeHeader 50000 3, .ref 50000, .realloc 50000 6, .dechain 50000, .free 50000,
      .free 50000] = .ok s ∧ s.Sound (PbufAreas.elems ⟨1001, 2000, by decide⟩) :=
  pbufs_sound ⟨1001, 2000, by decide⟩ (fun _ => ⟨none, 0, 0, 0, 0, 0⟩) (by decide +kernel)

/-- When the users have given up all references, everything is back. -/
theorem nothing_left (h : Run.Along step (Proper areas.elems) (init areas mem) events)
    (hs : run areas mem events = .ok s) (hnone : s.holders = []) :
    s.store.live = ∅ ∧ ∀ m, (s.store.tabs m).Perm (areas.elems m) := by
  have hinv := inv_of_run h hs
  have hcounted := hinv.good.counted
  rw [hnone] at hcounted
  have hempty := hcounted.eq_empty
  refine ⟨hempty, ?_⟩
  intro m
  rw [List.perm_ext_iff_of_nodup (hinv.good.pooled.nodup m) (areas.nodup m)]
  intro a
  rw [hinv.good.pooled.mem_iff m a, hempty]
  simp

theorem nothing_left_packet : ∃ s, run ⟨1001, 2000, by decide⟩ (fun _ => ⟨none, 0, 0, 0, 0, 0⟩)
    [.alloc .raw 1514 .pool none, .alloc .ip 8 .rom none, .cat 1244 23240, .free 1244] = .ok s ∧
    s.store.live = ∅ ∧ ∀ m, (s.store.tabs m).Perm (PbufAreas.elems ⟨1001, 2000, by decide⟩ m) :=
  ⟨_, rfl, nothing_left (show Run.Along step (Proper (PbufAreas.elems ⟨1001, 2000, by decide⟩))
    (init ⟨1001, 2000, by decide⟩ fun _ => ⟨none, 0, 0, 0, 0, 0⟩)
    [.alloc .raw 1514 .pool none, .alloc .ip 8 .rom none, .cat 1244 23240, .free 1244]
    by decide +kernel) rfl (by decide +kernel)⟩

end

end PbufSystem

end Cannelloni
