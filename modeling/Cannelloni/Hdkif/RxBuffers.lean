import Cannelloni.Hdkif.RxChain

/-!
# Receive buffers are neither lost nor mixed up

The lengths of the buffers of the active descriptors and `freed_pbuf_len` always have the same sum:
a pass adds to `freed_pbuf_len` what the pbufs of a packet had, and takes away what the new ones
have. New pbufs always find enough free descriptors, since no buffer of the pool is longer than
1400 bytes and `freed_pbuf_len` is not more than that for each free descriptor. So no pbuf of a
chain is left without a descriptor, and the links that a packet finds are those within it.
-/

namespace Cannelloni.Hdkif

open Linked

/-! ## What is measured, and what is relied on -/

/-- The descriptors from `active_head` on. -/
def Rx.activeBds (s : Rx) : List ℕ := walk (nextOf s.bds) rxNumBd s.rxch.activeHead

/-- The lengths of the buffers of the active descriptors, with `freed_pbuf_len`. -/
def Rx.capacity (s : Rx) : ℕ :=
  (s.activeBds.map fun d => (s.pbufs (pbufOf s.bds d)).len.toNat).sum + s.rxch.freedPbufLen.toNat

/-- The lengths of the buffers of the descriptors the DMA owns, with `freed_pbuf_len`. -/
def Rx.armedCapacity (s : Rx) : ℕ :=
  ((s.activeBds.filter fun d => (s.bds d).flags.owner).map fun d => (s.bds d).bufoffLen.toNat).sum
    + s.rxch.freedPbufLen.toNat

/-- The packet a pass finds, if there is one: its first descriptor, and what the `do` loop
leaves. -/
def Rx.collected (s : Rx) (out : RxOutside) : Option (ℕ × Collected) :=
  match s.rxch.activeHead with
  | none => none
  | some currBd =>
    if (s.bds currBd).flags.sop ∧ ¬ (s.bds currBd).flags.owner then
      match collect s.bds out.atNull (s.bds currBd).flags.pktlen rxNumBd currBd 0 0 s.pbufs with
      | .ok c => some (currBd, c)
      | .error _ => none
    else none

/-- What the DMA and the functions that are called are relied on for: the lengths of the parts of a
packet sum to its length, `ethernet_input` leaves the pbufs of the descriptors that stay active
alone, and so does `pbuf_alloc`, which returns `NULL` or a chain of the length it is asked for. -/
def Rx.Relies (s : Rx) : RxEvent → Prop
  | .receive lens => (lens.map UInt16.toNat).sum = (sumLens lens).toNat
  | .pass out => ∀ r ∈ s.collected out,
    (∀ d ∈ (s.deliver out r.1 r.2).activeBds,
      out.ethernetInput r.2.closed (pbufOf s.bds d) = r.2.closed (pbufOf s.bds d)) ∧
    ∀ new ∈ out.alloc, PoolChain (s.deliver out r.1 r.2).rxch.freedPbufLen.toUInt16 new ∧
      ∀ d ∈ (s.deliver out r.1 r.2).activeBds, pbufOf s.bds d ∉ new.chain.map Prod.fst

instance (length : UInt16) (new : NewPbufs) : Decidable (PoolChain length new) :=
  decidable_of_iff (new.chain.map Prod.snd = allocLens length ∧ (new.chain.map Prod.fst).Nodup)
    ⟨fun h => ⟨h.1, h.2⟩, fun h => ⟨h.lens, h.nodup⟩⟩

instance (s : Rx) (e : RxEvent) : Decidable (s.Relies e) :=
  match e with
  | .receive lens => inferInstanceAs (Decidable ((lens.map UInt16.toNat).sum = _))
  | .pass out => inferInstanceAs (Decidable (∀ r ∈ s.collected out, _ ∧ ∀ new ∈ out.alloc, _ ∧ _))

/-! ## The invariant -/

/-- The active descriptors have the pbufs `qs`, whose lengths make up `total` with those freed. -/
structure Rx.Buffers (s : Rx) (free : List ℕ) (packets : List (List ℕ)) (armed : List ℕ)
    (qs : List (ℕ × UInt16)) (total : ℕ) : Prop where
  pbufs_eq : (packets.flatten ++ armed).map (pbufOf s.bds) = qs.map Prod.fst
  stored : Stored s.pbufs qs
  len_le : ∀ q ∈ qs, q.2.toNat ≤ 1400
  sum : (qs.map fun q => q.2.toNat).sum + s.rxch.freedPbufLen.toNat = total
  freed_le : s.rxch.freedPbufLen.toNat ≤ 1400 * free.length
  armed_len : ∀ d ∈ armed, (s.bds d).bufoffLen = (s.pbufs (pbufOf s.bds d)).len
  packet_len : ∀ p ∈ packets, ∀ d, p.head? = some d →
    (p.map fun d => (s.bds d).bufoffLen.toNat).sum = (s.bds d).flags.pktlen.toNat

section Buffers

variable {n total : ℕ} {s : Rx} {free armed : List ℕ} {packets : List (List ℕ)}
  {qs : List (ℕ × UInt16)}

theorem Rx.Inv.activeBds_eq (h : s.Inv n free packets armed) (hn : n ≤ rxNumBd) :
    s.activeBds = packets.flatten ++ armed := by
  have hlen := h.perm.length_eq
  simp only [List.length_append, List.length_range] at hlen
  unfold Rx.activeBds
  rw [h.activeHead]
  apply walk_segment (segment_append.mp h.segment).2
  rw [List.length_append]
  omega

theorem Rx.Buffers.capacity_eq (h : s.Buffers free packets armed qs total)
    (hactive : s.activeBds = packets.flatten ++ armed) : s.capacity = total := by
  have hlens : (s.activeBds.map fun d => (s.pbufs (pbufOf s.bds d)).len.toNat)
      = qs.map fun q => q.2.toNat := by
    calc _ = ((packets.flatten ++ armed).map (pbufOf s.bds)).map
            (fun a => (s.pbufs a).len.toNat) := by rw [hactive, List.map_map]; rfl
      _ = qs.map fun q => (s.pbufs q.1).len.toNat := by rw [h.pbufs_eq, List.map_map]; rfl
      _ = _ := List.map_congr_left fun q hq => by rw [h.stored.len_eq q hq]
  unfold Rx.capacity
  rw [hlens]
  exact h.sum

/-- The first descriptors the DMA owns have become a packet. -/
theorem Rx.Buffers.fill {p q : List ℕ} {bds' : ℕ → RxBdp} {pktlen : UInt16} {lens : List UInt16}
    (h : s.Buffers free packets (p ++ q) qs total) (hnodup : (packets.flatten ++ (p ++ q)).Nodup)
    (hlens : (lens.map UInt16.toNat).sum = pktlen.toNat)
    (hfills : Fills s.bds bds' pktlen true lens p) :
    Rx.Buffers { s with bds := bds', hdp := first q none } free (packets ++ [p]) q qs total := by
  have hpbuf : pbufOf bds' = pbufOf s.bds := funext hfills.pbuf_eq
  have hlist : (packets ++ [p]).flatten ++ q = packets.flatten ++ (p ++ q) := by
    rw [List.flatten_append, List.flatten_singleton, List.append_assoc]
  refine ⟨?_, h.stored, h.len_le, h.sum, h.freed_le, ?_, ?_⟩
  · rw [hlist]
    show (packets.flatten ++ (p ++ q)).map (pbufOf bds') = _
    rw [hpbuf]
    exact h.pbufs_eq
  · intro d hd
    have hdp : d ∉ p := fun hp => List.disjoint_of_nodup_append hnodup.of_append_right hp hd
    show (bds' d).bufoffLen = (s.pbufs (pbufOf bds' d)).len
    rw [hfills.frame d hdp, hpbuf]
    exact h.armed_len d (List.mem_append_right _ hd)
  · intro p' hp' d hd
    show (p'.map fun d => (bds' d).bufoffLen.toNat).sum = (bds' d).flags.pktlen.toNat
    rcases List.mem_append.mp hp' with hp' | hp'
    · have hframe : ∀ a ∈ p', bds' a = s.bds a := by
        intro a ha
        apply hfills.frame
        intro hap
        exact List.disjoint_of_nodup_append hnodup (List.mem_flatten.mpr ⟨p', hp', ha⟩)
          (List.mem_append_left _ hap)
      rw [List.map_congr_left fun a ha => by rw [hframe a ha], hframe d (List.mem_of_mem_head? hd)]
      exact h.packet_len p' hp' d hd
    · rw [List.mem_singleton.mp hp'] at hd ⊢
      have hmap : (p.map fun d => (bds' d).bufoffLen.toNat) = lens.map UInt16.toNat := by
        rw [← hfills.bufoffLen_eq, List.map_map]
        rfl
      rw [hmap, hlens, hfills.pktlen_eq d hd]
      rfl

/-! ### A packet is given away -/

/-- A pass gives the closed chain to `ethernet_input`. -/
theorem Rx.deliver_pbufs (s : Rx) (out : RxOutside) (currBd : ℕ) (c : Collected) :
    (s.deliver out currBd c).pbufs = out.ethernetInput c.closed := rfl

/-- What the `do` loop does to the first packet. -/
theorem Rx.Buffers.collects {p : List ℕ} {curr : ℕ} {atNull : Option ℕ} {c : Collected}
    (hb : s.Buffers free (p :: packets) armed qs total)
    (h : s.Inv n free (p :: packets) armed) (hcurr : p.head? = some curr)
    (hc : collect s.bds atNull (s.bds curr).flags.pktlen rxNumBd curr 0 0 s.pbufs = .ok c) :
    ∃ qp qr, qs = qp ++ qr ∧ p.map (pbufOf s.bds) = qp.map Prod.fst ∧
      (packets.flatten ++ armed).map (pbufOf s.bds) = qr.map Prod.fst ∧
      Collects s.bds s.pbufs c (s.bds curr).flags.pktlen 0 p qp := by
  have hlist : (p :: packets).flatten ++ armed = p ++ (packets.flatten ++ armed) := by
    rw [List.flatten_cons, List.append_assoc]
  have hqs := hb.pbufs_eq
  rw [hlist, List.map_append] at hqs
  rcases List.map_eq_append_iff.mp hqs.symm with ⟨qp, qr, rfl, hqp, hqr⟩
  rcases (h.packet p List.mem_cons_self).stop with ⟨l, e, rfl, hends⟩
  have hseg := (segment_append.mp h.segment).2
  rw [hlist] at hseg
  have hstart : first (l ++ [e]) none = some curr := first_of_head? hcurr none
  have hcollects := collect_closed hends (segment_append.mp hseg).1 hqp.symm hb.stored hstart hc
  have htot : ((s.bds curr).flags.pktlen.toUInt32 - 0).toUInt16 = (s.bds curr).flags.pktlen := by
    rw [UInt32.sub_zero, UInt16.toUInt16_toUInt32]
  rw [htot] at hcollects
  exact ⟨qp, qr, rfl, hqp.symm, hqr.symm, hcollects⟩

theorem sum_le_of_forall_le {qs : List (ℕ × UInt16)} (h : ∀ q ∈ qs, q.2.toNat ≤ 1400) :
    (qs.map fun q => q.2.toNat).sum ≤ 1400 * qs.length := by
  induction qs with
  | nil => exact Nat.zero_le _
  | cons q qs ih =>
    rcases List.forall_mem_cons.mp h with ⟨hq, hqs⟩
    have hrest := ih hqs
    rw [List.map_cons, List.sum_cons, List.length_cons]
    omega

/-- The lengths of a packet's buffers are counted as freed. -/
theorem Rx.Buffers.deliver {p : List ℕ} {curr : ℕ} {out : RxOutside} {c : Collected}
    {qp qr : List (ℕ × UInt16)} (hb : s.Buffers free (p :: packets) armed (qp ++ qr) total)
    (htotal : total < 2 ^ 16) (hqp : p.map (pbufOf s.bds) = qp.map Prod.fst)
    (hqr : (packets.flatten ++ armed).map (pbufOf s.bds) = qr.map Prod.fst) {totLen : UInt16}
    (hc : Collects s.bds s.pbufs c totLen 0 p qp)
    (hinput : ∀ d ∈ packets.flatten ++ armed,
      out.ethernetInput c.closed (pbufOf s.bds d) = c.closed (pbufOf s.bds d)) :
    (s.deliver out curr c).Buffers (free ++ p) packets armed qr total := by
  have hdisj : ∀ q ∈ qr, q.1 ∉ qp.map Prod.fst := by
    intro q hq hmem
    have hnodup := hb.stored.nodup
    rw [List.map_append] at hnodup
    exact List.disjoint_of_nodup_append hnodup hmem (List.mem_map_of_mem hq)
  have hkept : ∀ q ∈ qr, (s.deliver out curr c).pbufs q.1 = s.pbufs q.1 := by
    intro q hq
    have hmem : q.1 ∈ (packets.flatten ++ armed).map (pbufOf s.bds) :=
      hqr ▸ List.mem_map_of_mem hq
    rcases List.mem_map.mp hmem with ⟨d, hd, heq⟩
    rw [Rx.deliver_pbufs, ← heq, hinput d hd, heq, hc.frame _ (hdisj q hq)]
  have hsum := hb.sum
  rw [List.map_append, List.sum_append] at hsum
  have hlen : qp.length = p.length := by
    rw [← List.length_map (f := Prod.fst), ← hqp, List.length_map]
  have hqp_le := sum_le_of_forall_le fun q hq => hb.len_le q (List.mem_append_left _ hq)
  obtain ⟨m, hm⟩ : ∃ m, (qp.map fun q => q.2.toNat).sum = m := ⟨_, rfl⟩
  rw [hm] at hsum hqp_le
  have hfreed : (s.deliver out curr c).rxch.freedPbufLen.toNat
      = s.rxch.freedPbufLen.toNat + m := by
    show (s.rxch.freedPbufLen + c.lenToAlloc).toNat = _
    rw [hc.lenToAlloc_eq, hm, UInt32.zero_add, UInt32.toNat_add, UInt32.toNat_ofNat']
    omega
  refine ⟨hqr, ?_, fun q hq => hb.len_le q (List.mem_append_right _ hq), ?_, ?_, ?_,
    fun p' hp' => hb.packet_len p' (List.mem_cons_of_mem _ hp')⟩
  · exact hb.stored.of_append_right.congr hkept
  · rw [hfreed]
    omega
  · have hfree := hb.freed_le
    rw [hfreed, List.length_append]
    omega
  · intro d hd
    have hmem : pbufOf s.bds d ∈ qr.map Prod.fst := by
      rw [← hqr]
      exact List.mem_map_of_mem (List.mem_append_right _ hd)
    rcases List.mem_map.mp hmem with ⟨q, hq, heq⟩
    show (s.bds d).bufoffLen = ((s.deliver out curr c).pbufs (pbufOf s.bds d)).len
    rw [← heq, hkept q hq, heq]
    exact hb.armed_len d hd

/-! ### New buffers -/

theorem Rx.append_pbuf (s : Rx) (r : Refilled) (d : ℕ) :
    ((s.append r).bds d).pbuf = (r.bds d).pbuf := by
  show (setNext (setNext r.bds r.lastBd none) s.rxch.activeTail s.rxch.freeHead d).pbuf = _
  rw [setNext_pbuf, setNext_pbuf]

theorem Rx.append_bufoffLen (s : Rx) (r : Refilled) (d : ℕ) :
    ((s.append r).bds d).bufoffLen = (r.bds d).bufoffLen := by
  show (setNext (setNext r.bds r.lastBd none) s.rxch.activeTail s.rxch.freeHead d).bufoffLen = _
  rw [setNext_bufoffLen, setNext_bufoffLen]

/-- What the lengths of the new pbufs leave of `freed_pbuf_len`. -/
theorem toNat_foldl_freed {freed : UInt32} (h : (qs.map fun q => q.2.toNat).sum ≤ freed.toNat) :
    (qs.foldl (fun m q => m - q.2.toUInt32) freed).toNat
      = freed.toNat - (qs.map fun q => q.2.toNat).sum := by
  induction qs generalizing freed with
  | nil => rfl
  | cons q qs ih =>
    rw [List.map_cons, List.sum_cons] at h ⊢
    have hlen : q.2.toUInt32.toNat = q.2.toNat := UInt16.toNat_toUInt32 _
    have hsub : (freed - q.2.toUInt32).toNat = freed.toNat - q.2.toNat := by
      rw [UInt32.toNat_sub_of_le, hlen]
      rw [UInt32.le_iff_toNat_le, hlen]
      omega
    rw [List.foldl_cons, ih (by omega), hsub]
    omega

/-- A chain of what was freed has a free descriptor for each of its pbufs. -/
theorem Rx.Buffers.length_le {new : NewPbufs} (hb : s.Buffers free packets armed qs total)
    (htotal : total < 2 ^ 16) (hfree : free ≠ [])
    (hnew : PoolChain s.rxch.freedPbufLen.toUInt16 new) :
    (new.chain.map fun q => q.2.toNat).sum = s.rxch.freedPbufLen.toNat ∧
      (∀ q ∈ new.chain, q.2.toNat ≤ 1400) ∧ new.chain.length ≤ free.length := by
  have hspec := allocLens_spec s.rxch.freedPbufLen.toUInt16
  have hsum := hb.sum
  have hlength : s.rxch.freedPbufLen.toUInt16.toNat = s.rxch.freedPbufLen.toNat := by
    rw [UInt32.toNat_toUInt16]
    omega
  rw [← hnew.lens, hlength] at hspec
  refine ⟨?_, ?_, ?_⟩
  · have hlens := hspec.sum
    rw [List.map_map] at hlens
    exact hlens
  · intro q hq
    exact hspec.le q.2 (List.mem_map_of_mem hq)
  · have hfits := hspec.fits free.length (List.length_pos_of_ne_nil hfree) hb.freed_le
    rwa [List.length_map] at hfits

theorem map_fst_buffersOf (bds : ℕ → RxBdp) (ds : List ℕ) :
    (buffersOf bds ds).map Prod.fst = ds.map (pbufOf bds) := by
  unfold buffersOf
  rw [List.map_map]
  rfl

/-- If all of the new pbufs find a descriptor, nothing is left of `freed_pbuf_len`. -/
theorem Refills.of_fits {r' : Refilled} {x : ℕ} {armed' rest : List ℕ}
    (h : Refills s.toRefill r' x qs armed' rest)
    (hsum : (qs.map fun q => q.2.toNat).sum = s.rxch.freedPbufLen.toNat)
    (hfits : qs.length ≤ armed'.length) :
    buffersOf r'.bds armed' = qs ∧ r'.freedPbufLen.toNat = 0 := by
  have htake : qs.take armed'.length = qs := List.take_of_length_le hfits
  have hbuffers := h.buffers_eq
  have hfreed := h.freed_eq
  rw [htake] at hbuffers hfreed
  refine ⟨hbuffers, ?_⟩
  rw [hfreed]
  show (qs.foldl (fun n q => n - q.2.toUInt32) s.rxch.freedPbufLen).toNat = 0
  rw [toNat_foldl_freed hsum.le, hsum, Nat.sub_self]

/-- All of the new pbufs find a descriptor, and are behind those that were there. -/
theorem Rx.Buffers.append {r' : Refilled} {x : ℕ} {new : NewPbufs} {armed' rest : List ℕ}
    (hb : s.Buffers (armed' ++ rest) packets armed qs total) (htotal : total < 2 ^ 16)
    (hnew : PoolChain s.rxch.freedPbufLen.toUInt16 new) (hfree : armed' ++ rest ≠ [])
    (hfresh : ∀ d ∈ packets.flatten ++ armed, pbufOf s.bds d ∉ new.chain.map Prod.fst)
    (hnodup : (armed' ++ rest ++ (packets.flatten ++ armed)).Nodup)
    (hlen : armed'.length = min new.chain.length (armed' ++ rest).length)
    (hrefills : Refills s.toRefill r' x new.chain armed' rest) :
    (Rx.append { s with pbufs := storeChain new.chain s.pbufs } r').Buffers rest packets
      (armed ++ armed') (qs ++ new.chain) total := by
  rcases hb.length_le htotal hfree hnew with ⟨hsum, hle, hfits⟩
  rcases hrefills.of_fits hsum (by omega) with ⟨hbuffers, hnone⟩
  obtain ⟨s', hs'⟩ : ∃ s', Rx.append { s with pbufs := storeChain new.chain s.pbufs } r' = s' :=
    ⟨_, rfl⟩
  have hpbuf : ∀ d, pbufOf s'.bds d = (r'.bds d).pbuf := fun d => hs' ▸ Rx.append_pbuf _ r' d
  have hbufoff : ∀ d, (s'.bds d).bufoffLen = (r'.bds d).bufoffLen :=
    fun d => hs' ▸ Rx.append_bufoffLen _ r' d
  have hflags : ∀ d, (s'.bds d).flags = (r'.bds d).flags := fun d => hs' ▸ Rx.append_flags _ r' d
  have hpbufs : s'.pbufs = storeChain new.chain s.pbufs := hs' ▸ rfl
  have hfreed : s'.rxch.freedPbufLen = r'.freedPbufLen := hs' ▸ rfl
  rw [hs']
  -- the active descriptors are not touched, and the new ones have the new pbufs
  have hold : ∀ d ∈ packets.flatten ++ armed, r'.bds d = s.bds d := by
    intro d hd
    apply hrefills.frame
    intro hd'
    exact List.disjoint_of_nodup_append hnodup (List.mem_append_left _ hd') hd
  have hmap_old : (packets.flatten ++ armed).map (pbufOf s'.bds) = qs.map Prod.fst := by
    rw [← hb.pbufs_eq]
    exact List.map_congr_left fun d hd => by rw [hpbuf, hold d hd]
  have hmap_new : armed'.map (pbufOf s'.bds) = new.chain.map Prod.fst := by
    rw [← hbuffers, map_fst_buffersOf]
    exact List.map_congr_left fun d _ => hpbuf d
  have hfresh' : ∀ q ∈ qs, q.1 ∉ new.chain.map Prod.fst := by
    intro q hq
    have hmem : q.1 ∈ (packets.flatten ++ armed).map (pbufOf s.bds) :=
      hb.pbufs_eq ▸ List.mem_map_of_mem hq
    rcases List.mem_map.mp hmem with ⟨d, hd, heq⟩
    exact heq ▸ hfresh d hd
  have hstored : Stored s'.pbufs (qs ++ new.chain) := by
    rw [hpbufs]
    exact hb.stored.append hnew.nodup hfresh'
  have hzero : s'.rxch.freedPbufLen.toNat = 0 := by
    rw [hfreed]
    exact hnone
  refine ⟨?_, hstored, List.forall_mem_append.mpr ⟨hb.len_le, hle⟩, ?_, ?_, ?_, ?_⟩
  · rw [← List.append_assoc, List.map_append, hmap_old, hmap_new, List.map_append]
  · have hall := hb.sum
    rw [List.map_append, List.sum_append, hsum, hzero]
    omega
  · rw [hzero]
    exact Nat.zero_le _
  · intro d hd
    rcases List.mem_append.mp hd with hd | hd
    · have hactive : d ∈ packets.flatten ++ armed := List.mem_append_right _ hd
      rw [hbufoff, hpbuf, hpbufs, hold d hactive, storeChain_of_not_mem (hfresh d hactive)]
      exact hb.armed_len d hd
    · have hmem : ((r'.bds d).pbuf, (r'.bds d).bufoffLen) ∈ new.chain :=
        hbuffers ▸ mem_buffersOf hd
      rw [hbufoff, hpbuf]
      exact (hstored.len_eq _ (List.mem_append_right _ hmem)).symm
  · intro p hp d hd
    have hframe : ∀ a ∈ p, r'.bds a = s.bds a :=
      fun a ha => hold a (List.mem_append_left _ (List.mem_flatten.mpr ⟨p, hp, ha⟩))
    rw [hflags, hframe d (List.mem_of_mem_head? hd), ← hb.packet_len p hp d hd]
    exact congrArg List.sum (List.map_congr_left fun a ha => by rw [hbufoff, hframe a ha])

/-! ### A pass -/

/-- What a pass does with the packet it finds. -/
theorem Rx.pass_of_collected {out : RxOutside} {currBd : ℕ} {c : Collected}
    (h : s.collected out = some (currBd, c)) :
    s.pass out = match out.alloc with
      | none => .ok (s.deliver out currBd c)
      | some new => (s.deliver out currBd c).rearm new := by
  unfold Rx.collected at h
  unfold Rx.pass
  cases hhead : s.rxch.activeHead with
  | none =>
    rw [hhead] at h
    cases h
  | some d =>
    simp only [hhead] at h
    split at h
    · next hflags =>
      split at h
      · next c' hc =>
        obtain ⟨rfl, rfl⟩ := Prod.mk.inj (Option.some.inj h)
        simp only [hflags.1, hflags.2, if_true]
        unfold Rx.processPacket
        rw [hc]
        rfl
      · cases h
    · cases h

/-- Without a packet nothing is given to `ethernet_input`. -/
theorem Rx.Inv.collected_of_nil (h : s.Inv n free [] armed) (out : RxOutside) :
    s.collected out = none := by
  have hhead : s.rxch.activeHead = first armed none := h.activeHead
  unfold Rx.collected
  rw [hhead]
  cases armed with
  | nil => rfl
  | cons d armed =>
    have hsop : (s.bds d).flags.sop = false := by
      rw [h.armed_flags d List.mem_cons_self]
      rfl
    simp [hsop]

/-- The packet that a pass finds is the first one that waits. -/
theorem Rx.Inv.collected_eq {p : List ℕ} {curr : ℕ} (h : s.Inv n free (p :: packets) armed)
    (hn : n ≤ rxNumBd) (hcurr : p.head? = some curr) (hhead : s.rxch.activeHead = some curr)
    (hsop : (s.bds curr).flags.sop = true) (howner : (s.bds curr).flags.owner = false)
    (out : RxOutside) :
    ∃ c, s.collected out = some (curr, c) ∧
      collect s.bds out.atNull (s.bds curr).flags.pktlen rxNumBd curr 0 0 s.pbufs = .ok c ∧
      c.currBd = first (packets.flatten ++ armed) none := by
  rcases (h.processPacket_eq hn hcurr out).2 with ⟨c, hc, hbehind, -⟩
  refine ⟨c, ?_, hc, hbehind⟩
  unfold Rx.collected
  rw [hhead]
  simp only [hsop, howner, hc]
  rfl

/-- The ring and its buffers are in order. -/
def Rx.Accounted (n total : ℕ) (s : Rx) : Prop :=
  ∃ free packets armed qs, s.Inv n free packets armed ∧ s.Buffers free packets armed qs total

theorem Rx.Accounted.capacity_eq (h : s.Accounted n total) (hn : n ≤ rxNumBd) :
    s.capacity = total := by
  rcases h with ⟨free, packets, armed, qs, h, hb⟩
  exact hb.capacity_eq (h.activeBds_eq hn)

/-- A step that leaves something active keeps the buffers in order. -/
theorem Rx.Accounted.step (h : s.Accounted n total) (hn : n ≤ rxNumBd) (htotal : total < 2 ^ 16)
    {e : RxEvent} (hleaves : s.LeavesActive e) (hrelies : s.Relies e) :
    ∃ s', s.step e = .ok s' ∧ s'.Accounted n total := by
  rcases h with ⟨free, packets, armed, qs, h, hb⟩
  cases e with
  | receive lens =>
    refine ⟨s.receive lens, rfl, ?_⟩
    rcases h.receive_cases lens with heq | ⟨p, q, bds', rfl, hp, heq, hfills⟩
    · rw [heq]
      exact ⟨free, packets, armed, qs, h, hb⟩
    · rw [heq]
      exact ⟨free, packets ++ [p], q, qs, h.fill hp hfills,
        hb.fill h.nodup.of_append_right hrelies hfills⟩
  | pass out =>
    rcases h.pass_cases with ⟨rfl, hpass⟩ |
      ⟨p, packets, curr, rfl, hcurr, hhead, hsop, howner, hpass⟩
    · exact ⟨s, (hpass out).1, free, [], armed, qs, h, hb⟩
    · have hrest := hleaves curr hhead hsop howner
      rw [(h.processPacket_eq hn hcurr out).1, h.activeTail_mem_iff] at hrest
      rcases h.collected_eq hn hcurr hhead hsop howner out with ⟨c, hcollected, hc, hbehind⟩
      rcases h.deliver hrest hcurr out hbehind with ⟨hdeliver, hfree⟩
      rcases hrelies (curr, c) hcollected with ⟨hinput, hnew⟩
      rw [hdeliver.activeBds_eq hn] at hinput hnew
      rcases hb.collects h hcurr hc with ⟨qp, qr, rfl, hqp, hqr, hcollects⟩
      have hb' : (s.deliver out curr c).Buffers (free ++ p) packets armed qr total :=
        hb.deliver htotal hqp hqr hcollects hinput
      show ∃ s', s.pass out = .ok s' ∧ _
      rw [Rx.pass_of_collected hcollected]
      cases halloc : out.alloc with
      | none => exact ⟨_, rfl, free ++ p, packets, armed, qr, hdeliver, hb'⟩
      | some new =>
        have hp : free ++ p ≠ [] := by
          intro h0
          rw [(List.append_eq_nil_iff.mp h0).2] at hcurr
          cases hcurr
        rcases hnew new halloc with ⟨hchain, hfresh⟩
        rcases hdeliver.rearm_eq hp hfree hrest new with
          ⟨r', x, armed', rest, hsplit, hlen, hrefills, hs', h'⟩
        have hnodup := hdeliver.nodup
        rw [hsplit] at hb' hp hlen hnodup
        exact ⟨_, hs', rest, packets, armed ++ armed', qr ++ new.chain, h',
          hb'.append htotal hchain hp hfresh hnodup hlen hrefills⟩

/-- What a pass gives to `ethernet_input` is the chain of the packet at `active_head`, up to its
`EOP`. -/
theorem Rx.Accounted.packetChain (h : s.Accounted n total) (hn : n ≤ rxNumBd) {out : RxOutside}
    {currBd : ℕ} {c : Collected} (hcollected : s.collected out = some (currBd, c)) :
    ∃ l e, packetFrom s.bds rxNumBd s.rxch.activeHead = l ++ [e] ∧
      EndsPacket (flagsOf s.bds) l e ∧
      PacketChain s.bds c.closed (pbufOf s.bds currBd) (l ++ [e]) := by
  rcases h with ⟨free, packets, armed, qs, h, hb⟩
  rcases h.pass_cases with ⟨rfl, -⟩ | ⟨p, packets, curr, rfl, hcurr, hhead, hsop, howner, -⟩
  · rw [h.collected_of_nil] at hcollected
    cases hcollected
  · rcases h.collected_eq hn hcurr hhead hsop howner out with ⟨c', hcollected', hc, -⟩
    obtain ⟨rfl, rfl⟩ := Prod.mk.inj (Option.some.inj (hcollected'.symm.trans hcollected))
    rcases hb.collects h hcurr hc with ⟨qp, qr, rfl, hqp, -, hcollects⟩
    have hnodup : (p.map (pbufOf s.bds)).Nodup := by
      have hall := hb.stored.nodup
      rw [List.map_append] at hall
      rw [hqp]
      exact hall.of_append_left
    have hchain := hcollects.spells.packetChain hcurr hnodup
      (hb.packet_len p List.mem_cons_self curr hcurr)
    rcases (h.packet p List.mem_cons_self).stop with ⟨l, e, rfl, hends⟩
    refine ⟨l, e, ?_, hends, hchain⟩
    rw [hhead]
    exact (h.processPacket_eq hn hcurr out).1

/-- Where no packet waits, all the active descriptors are armed, and the lengths in them are those
of their buffers. -/
theorem Rx.Accounted.armedCapacity_eq (h : s.Accounted n total) (hn : n ≤ rxNumBd)
    (howner : ∀ d ∈ s.activeBds, (s.bds d).flags.owner = true) : s.armedCapacity = s.capacity := by
  rcases h with ⟨free, packets, armed, qs, h, hb⟩
  have hactive := h.activeBds_eq hn
  have hnil : packets = [] := by
    rcases h.pass_cases with ⟨hnil, -⟩ | ⟨p, packets', curr, hcons, hcurr, -, -, hnot, -⟩
    · exact hnil
    · have hmem : curr ∈ s.activeBds := by
        rw [hactive, hcons, List.flatten_cons, List.append_assoc]
        exact List.mem_append_left _ (List.mem_of_mem_head? hcurr)
      rw [howner curr hmem] at hnot
      cases hnot
  subst hnil
  have hfilter : s.activeBds.filter (fun d => (s.bds d).flags.owner) = s.activeBds :=
    List.filter_eq_self.mpr howner
  unfold Rx.armedCapacity Rx.capacity
  rw [hfilter, hactive]
  have hlens : armed.map (fun d => (s.bds d).bufoffLen.toNat)
      = armed.map fun d => (s.pbufs (pbufOf s.bds d)).len.toNat :=
    List.map_congr_left fun d hd => congrArg UInt16.toNat (hb.armed_len d hd)
  show (armed.map fun d => (s.bds d).bufoffLen.toNat).sum + _
    = (armed.map fun d => (s.pbufs (pbufOf s.bds d)).len.toNat).sum + _
  rw [hlens]

end Buffers

/-! ## The start -/

/-- `PBUF_LEN_MAX`. -/
def pbufLenMax : UInt16 := 1514

/-- The outcomes of `pbuf_alloc` in `hdkif_hw_init`, which gives nothing back: chains of
`PBUF_LEN_MAX` bytes that have no pbuf in common. -/
structure PoolOutcomes (alloc : ℕ → Option NewPbufs) : Prop where
  chain : ∀ i, ∀ new ∈ alloc i, PoolChain pbufLenMax new
  fresh : ∀ i j, i < j → ∀ new ∈ alloc i, ∀ new' ∈ alloc j, ∀ q ∈ new.chain,
    q.1 ∉ new'.chain.map Prod.fst

/-- The loop in `hdkif_hw_init` has armed descriptors with the pbufs `qs` of its first passes. -/
structure RxInit.Stocked (alloc : ℕ → Option NewPbufs) (s : RxInit) (pbufCnt : ℕ)
    (qs : List (ℕ × UInt16)) : Prop where
  buffers_eq : buffersOf s.bds (List.range s.currBd) = qs
  stored : Stored s.pbufs qs
  len_le : ∀ q ∈ qs, q.2.toNat ≤ 1400
  sum_le : (qs.map fun q => q.2.toNat).sum ≤ 1514 * pbufCnt
  used : ∀ q ∈ qs, ∃ i < pbufCnt, ∃ new ∈ alloc i, q ∈ new.chain

section Init

variable {alloc : ℕ → Option NewPbufs} {s : RxInit} {pbufCnt : ℕ} {qs : List (ℕ × UInt16)}

theorem RxInit.buffersOf_arm (s : RxInit) (q : ℕ × UInt16) :
    buffersOf (s.arm q).bds (List.range (s.arm q).currBd)
      = buffersOf s.bds (List.range s.currBd) ++ [q] := by
  show buffersOf (Function.update s.bds s.currBd _) (List.range (s.currBd + 1)) = _
  unfold buffersOf
  rw [List.range_succ, List.map_append, List.map_singleton, Function.update_self]
  congr 1
  apply List.map_congr_left
  intro d hd
  rw [Function.update_of_ne (List.mem_range.mp hd).ne]

theorem RxInit.buffersOf_foldl_arm (s : RxInit) (chain : List (ℕ × UInt16)) :
    buffersOf (chain.foldl arm s).bds (List.range (chain.foldl arm s).currBd)
        = buffersOf s.bds (List.range s.currBd) ++ chain ∧
      (chain.foldl arm s).pbufs = s.pbufs := by
  induction chain generalizing s with
  | nil => exact ⟨(List.append_nil _).symm, rfl⟩
  | cons q chain ih =>
    rcases ih (s.arm q) with ⟨hbuffers, hpbufs⟩
    refine ⟨?_, hpbufs⟩
    rw [List.foldl_cons, hbuffers, buffersOf_arm, List.append_assoc]
    rfl

/-- A pass that gets a chain. -/
theorem RxInit.Stocked.pass (h : s.Stocked alloc pbufCnt qs) (halloc : PoolOutcomes alloc)
    {new : NewPbufs} (hnew : new ∈ alloc pbufCnt) :
    (new.chain.foldl RxInit.arm { s with pbufs := storeChain new.chain s.pbufs }).Stocked alloc
      (pbufCnt + 1) (qs ++ new.chain) := by
  have hchain := halloc.chain pbufCnt new hnew
  have hspec := allocLens_spec pbufLenMax
  rw [← hchain.lens] at hspec
  rcases RxInit.buffersOf_foldl_arm { s with pbufs := storeChain new.chain s.pbufs } new.chain with
    ⟨hbuffers, hpbufs⟩
  refine ⟨?_, ?_, List.forall_mem_append.mpr ⟨h.len_le, ?_⟩, ?_,
    List.forall_mem_append.mpr ⟨?_, ?_⟩⟩
  · rw [hbuffers, ← h.buffers_eq]
  · rw [hpbufs]
    apply h.stored.append hchain.nodup
    intro q hq
    rcases h.used q hq with ⟨i, hi, new', hnew', hmem⟩
    exact halloc.fresh i pbufCnt hi new' hnew' new hnew q hmem
  · intro q hq
    exact hspec.le q.2 (List.mem_map_of_mem hq)
  · have hsum := hspec.sum
    have hmax : pbufLenMax.toNat = 1514 := rfl
    have hold := h.sum_le
    rw [List.map_map] at hsum
    have hsum' : (new.chain.map fun q => q.2.toNat).sum = pbufLenMax.toNat := hsum
    rw [List.map_append, List.sum_append]
    omega
  · intro q hq
    rcases h.used q hq with ⟨i, hi, hused⟩
    exact ⟨i, Nat.lt_succ_of_lt hi, hused⟩
  · exact fun q hq => ⟨pbufCnt, Nat.lt_succ_self _, new, hnew, hq⟩

theorem RxInit.Stocked.mono (h : s.Stocked alloc pbufCnt qs) (m : ℕ) :
    s.Stocked alloc (pbufCnt + m) qs where
  buffers_eq := h.buffers_eq
  stored := h.stored
  len_le := h.len_le
  sum_le := h.sum_le.trans (Nat.mul_le_mul_left _ (Nat.le_add_right _ _))
  used := by
    intro q hq
    rcases h.used q hq with ⟨i, hi, hused⟩
    exact ⟨i, Nat.lt_add_right m hi, hused⟩

theorem RxInit.Stocked.loop (h : s.Stocked alloc pbufCnt qs) (halloc : PoolOutcomes alloc)
    (n : ℕ) : ∃ qs', (RxInit.loop alloc n pbufCnt s).Stocked alloc (pbufCnt + n) qs' := by
  induction n generalizing s pbufCnt qs with
  | zero => exact ⟨qs, h⟩
  | succ n ih =>
    rw [RxInit.loop]
    split
    · exact ⟨qs, h.mono (n + 1)⟩
    · next new hnew =>
      split
      · rcases ih (h.pass halloc hnew) with ⟨qs', hqs'⟩
        rw [Nat.add_right_comm] at hqs'
        exact ⟨qs', hqs'⟩
      · exact ⟨qs, h.mono (n + 1)⟩

end Init

/-- After `hdkif_hw_init` there are ten chains at most. -/
theorem Rx.accounted_hwInitRx (ram : ℕ → RxBdp) (pbufs : ℕ → Pbuf) {alloc : ℕ → Option NewPbufs}
    (halloc : PoolOutcomes alloc) (hpos : 0 < initialised ram pbufs alloc) :
    initialised ram pbufs alloc ≤ rxNumBd ∧ ∃ total < 2 ^ 16,
      (hwInitRx ram pbufs alloc).Accounted (initialised ram pbufs alloc) total := by
  rcases Rx.inv_hwInitRx ram pbufs alloc hpos with ⟨hn, hinv⟩
  have hstart : RxInit.Stocked alloc ⟨ram, pbufs, 0, 0, rxNumBd⟩ 0 [] :=
    ⟨rfl, ⟨List.nodup_nil, trivial, by simp⟩, by simp, Nat.le_refl 0, by simp⟩
  rcases hstart.loop halloc maxRxPbufAlloc with ⟨qs, hqs⟩
  have hten : maxRxPbufAlloc = 10 := rfl
  have hsum := hqs.sum_le
  refine ⟨hn, (qs.map fun q => q.2.toNat).sum, by omega, [], [], _, qs, hinv, ?_⟩
  have hbuffers := hqs.buffers_eq
  unfold initialised hwInitRx
  obtain ⟨s, hs⟩ : ∃ s, RxInit.loop alloc maxRxPbufAlloc 0 ⟨ram, pbufs, 0, 0, rxNumBd⟩ = s :=
    ⟨_, rfl⟩
  rw [hs] at hqs hbuffers ⊢
  have hpbuf : pbufOf (setNext s.bds s.lastBd none) = pbufOf s.bds :=
    funext fun d => setNext_pbuf s.bds s.lastBd none d
  refine ⟨?_, hqs.stored, hqs.len_le, Nat.add_zero _, Nat.zero_le _, ?_, by simp⟩
  · show (List.range s.currBd).map (pbufOf (setNext s.bds s.lastBd none)) = _
    rw [hpbuf, ← hbuffers, map_fst_buffersOf]
  · intro d hd
    have hmem : ((s.bds d).pbuf, (s.bds d).bufoffLen) ∈ qs := by
      rw [← hbuffers]
      exact mem_buffersOf hd
    show (setNext s.bds s.lastBd none d).bufoffLen
      = (s.pbufs (setNext s.bds s.lastBd none d).pbuf).len
    rw [setNext_bufoffLen, setNext_pbuf]
    exact (hqs.stored.len_eq _ hmem).symm

/-! ## Whole runs -/

/-- In every state of a run that leaves something active: the lengths of the buffers of the active
descriptors and `freed_pbuf_len` have the sum they had at first, and so have those of the armed
ones where no packet waits; and what a pass gives to `ethernet_input` is the chain of the first
packet that waits. -/
theorem rx_buffers_conserved (ram : ℕ → RxBdp) (pbufs : ℕ → Pbuf) (alloc : ℕ → Option NewPbufs)
    (halloc : PoolOutcomes alloc) (hpos : 0 < initialised ram pbufs alloc)
    (events : List RxEvent)
    (hrun : Run.Along Rx.step (fun s e => s.LeavesActive e ∧ s.Relies e)
      (hwInitRx ram pbufs alloc) events) (k : ℕ) :
    ∃ s, Run.exec Rx.step (hwInitRx ram pbufs alloc) (events.take k) = .ok s ∧
      s.capacity = (hwInitRx ram pbufs alloc).capacity ∧
      ((∀ d ∈ s.activeBds, (s.bds d).flags.owner = true) →
        s.armedCapacity = (hwInitRx ram pbufs alloc).armedCapacity) ∧
      ∀ out currBd c, s.collected out = some (currBd, c) →
        ∃ l e, packetFrom s.bds rxNumBd s.rxch.activeHead = l ++ [e] ∧
          EndsPacket (flagsOf s.bds) l e ∧
          PacketChain s.bds c.closed (pbufOf s.bds currBd) (l ++ [e]) := by
  rcases Rx.accounted_hwInitRx ram pbufs halloc hpos with ⟨hn, total, htotal, hstart⟩
  have hstep : ∀ (s : Rx) (e : RxEvent), s.Accounted (initialised ram pbufs alloc) total →
      s.LeavesActive e ∧ s.Relies e →
      ∃ s', s.step e = .ok s' ∧ s'.Accounted (initialised ram pbufs alloc) total :=
    fun s e h hcond => h.step hn htotal hcond.1 hcond.2
  rcases Run.exec_of_along hstep hstart (hrun.take k) with ⟨s, hs, h⟩
  have hcapacity : s.capacity = (hwInitRx ram pbufs alloc).capacity := by
    rw [h.capacity_eq hn, hstart.capacity_eq hn]
  have hinit := (Rx.inv_hwInitRx ram pbufs alloc hpos).2
  refine ⟨s, hs, hcapacity, ?_, fun out currBd c hcollected => h.packetChain hn hcollected⟩
  intro howner
  rw [h.armedCapacity_eq hn howner, hcapacity, hstart.armedCapacity_eq hn]
  intro d hd
  rw [hinit.activeBds_eq hn] at hd
  rw [hinit.armed_flags d hd]
  rfl

/-- A receive channel with four descriptors: the pool has two buffers of 1514 bytes, in two parts
each. -/
def fourBuffers : ℕ → Option NewPbufs
  | 0 => some ⟨[(1000, 1400), (1400, 114)], List.cons_ne_nil _ _⟩
  | 1 => some ⟨[(2000, 1400), (2400, 114)], List.cons_ne_nil _ _⟩
  | _ => none

theorem poolOutcomes_fourBuffers : PoolOutcomes fourBuffers where
  chain := by
    intro i new hnew
    match i with
    | 0 =>
      obtain rfl := Option.some.inj hnew
      decide
    | 1 =>
      obtain rfl := Option.some.inj hnew
      decide
    | i + 2 => cases hnew
  fresh := by
    intro i j hij new hnew new' hnew'
    match j with
    | 0 => exact absurd hij (Nat.not_lt_zero i)
    | 1 =>
      obtain rfl : i = 0 := Nat.lt_one_iff.mp hij
      obtain rfl := Option.some.inj hnew
      obtain rfl := Option.some.inj hnew'
      decide
    | j + 2 => cases hnew'

/-- A packet in one buffer that is not replaced, one in two of them, and a chain for all three. -/
def mergedEvents : List RxEvent :=
  [.receive [60], .pass (.of none), .receive [114, 20],
    .pass (.of (some ⟨[(5000, 1400), (6000, 1400), (7000, 114)], by simp⟩))]

/-- The chain makes up for both packets. -/
theorem rx_buffers_conserved_merged :
    ∃ s, Run.exec Rx.step (hwInitRx (fun _ => .zero) (fun _ => ⟨none, 0, 0⟩) fourBuffers)
        (mergedEvents.take 4) = .ok s ∧
      s.capacity = (hwInitRx (fun _ => .zero) (fun _ => ⟨none, 0, 0⟩) fourBuffers).capacity ∧
      ((∀ d ∈ s.activeBds, (s.bds d).flags.owner = true) → s.armedCapacity
        = (hwInitRx (fun _ => .zero) (fun _ => ⟨none, 0, 0⟩) fourBuffers).armedCapacity) ∧
      ∀ out currBd c, s.collected out = some (currBd, c) →
        ∃ l e, packetFrom s.bds rxNumBd s.rxch.activeHead = l ++ [e] ∧
          EndsPacket (flagsOf s.bds) l e ∧
          PacketChain s.bds c.closed (pbufOf s.bds currBd) (l ++ [e]) :=
  rx_buffers_conserved (fun _ => .zero) (fun _ => ⟨none, 0, 0⟩) fourBuffers poolOutcomes_fourBuffers
    (by decide +kernel) mergedEvents (by decide +kernel) 4

/-- While a second packet waits, its buffers are neither armed nor counted as freed. -/
theorem armedCapacity_waiting :
    ¬ ∀ (ram : ℕ → RxBdp) (pbufs : ℕ → Pbuf) (alloc : ℕ → Option NewPbufs)
      (events : List RxEvent), PoolOutcomes alloc → 0 < initialised ram pbufs alloc →
      Run.Along Rx.step (fun s e => s.LeavesActive e ∧ s.Relies e) (hwInitRx ram pbufs alloc)
        events →
      ∀ k k' out out' s s', events[k]? = some (.pass out) → events[k']? = some (.pass out') →
        Run.exec Rx.step (hwInitRx ram pbufs alloc) (events.take (k + 1)) = .ok s →
        Run.exec Rx.step (hwInitRx ram pbufs alloc) (events.take (k' + 1)) = .ok s' →
        s.armedCapacity = s'.armedCapacity := by
  intro h
  set events : List RxEvent := [.receive [60], .receive [60], .pass (.of none), .pass (.of none)]
    with hevents
  have hconst := h (fun _ => .zero) (fun _ => ⟨none, 0, 0⟩) fourBuffers events
    poolOutcomes_fourBuffers (by decide +kernel) (by decide +kernel) 2 3 (.of none) (.of none)
  have hfirst : (Run.exec Rx.step (hwInitRx (fun _ => .zero) (fun _ => ⟨none, 0, 0⟩) fourBuffers)
      (events.take 3)).map Rx.armedCapacity = .ok 2914 := by decide +kernel
  have hsecond : (Run.exec Rx.step (hwInitRx (fun _ => .zero) (fun _ => ⟨none, 0, 0⟩) fourBuffers)
      (events.take 4)).map Rx.armedCapacity = .ok 3028 := by decide +kernel
  rcases hs : Run.exec Rx.step (hwInitRx (fun _ => .zero) (fun _ => ⟨none, 0, 0⟩) fourBuffers)
    (events.take 3) with e | s
  · rw [hs] at hfirst
    cases hfirst
  rcases hs' : Run.exec Rx.step (hwInitRx (fun _ => .zero) (fun _ => ⟨none, 0, 0⟩) fourBuffers)
    (events.take 4) with e | s'
  · rw [hs'] at hsecond
    cases hsecond
  have heq := hconst s s' rfl rfl hs hs'
  rw [hs] at hfirst
  rw [hs'] at hsecond
  have hlens : s.armedCapacity = 2914 := Except.ok.inj hfirst
  have hlens' : s'.armedCapacity = 3028 := Except.ok.inj hsecond
  omega

end Cannelloni.Hdkif
