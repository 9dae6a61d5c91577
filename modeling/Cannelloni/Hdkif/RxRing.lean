import Cannelloni.Hdkif.Rx

/-!
# The receive ring keeps its descriptors

The descriptors of the receive channel are one linked list: the free ones, whose buffers went to
`ethernet_input`, then the active ones. The active ones are those of packets that wait for the
handler, then those the DMA may still fill. A pass cuts descriptors off the front of the list
and puts the ones it has new buffers for at its end.

`ringOk_iff_leavesActive` says that this goes well as long as no packet takes up all the active
descriptors. A packet that does leaves `active_head` at `NULL`, and the handler follows it.
-/

namespace Cannelloni.Hdkif

open Linked

/-- The `next` pointers. -/
abbrev nextOf (bds : ℕ → RxBdp) (d : ℕ) : Option ℕ := (bds d).next

/-- The flags. -/
abbrev flagsOf (bds : ℕ → RxBdp) (d : ℕ) : Flags := (bds d).flags

/-- The pbufs of descriptors with their lengths. -/
def buffersOf (bds : ℕ → RxBdp) (ds : List ℕ) : List (ℕ × UInt16) :=
  ds.map fun d => ((bds d).pbuf, (bds d).bufoffLen)

theorem buffersOf_cons (bds : ℕ → RxBdp) (d : ℕ) (ds : List ℕ) :
    buffersOf bds (d :: ds) = ((bds d).pbuf, (bds d).bufoffLen) :: buffersOf bds ds := rfl

theorem mem_buffersOf {bds : ℕ → RxBdp} {ds : List ℕ} {d : ℕ} (hd : d ∈ ds) :
    ((bds d).pbuf, (bds d).bufoffLen) ∈ buffersOf bds ds :=
  List.mem_map_of_mem (f := fun d => ((bds d).pbuf, (bds d).bufoffLen)) hd

/-! ## What the loops do -/

section Collect

variable {bds : ℕ → RxBdp} {d d' : ℕ}

/-- The `do` loop stops behind an `EOP`. -/
theorem collect_eop (heop : (bds d).flags.eop = true) (atNull : Option ℕ) (totLen : UInt16)
    (fuel : ℕ) (exLen lenToAlloc : UInt32) (pbufs : ℕ → Pbuf) :
    ∃ next, collect bds atNull totLen (fuel + 1) d exLen lenToAlloc pbufs = .ok
      ⟨Function.update pbufs (bds d).pbuf
          ⟨next, (bds d).bufoffLen, (totLen.toUInt32 - exLen).toUInt16⟩,
        (bds d).pbuf, d, (bds d).next, lenToAlloc + (pbufs (bds d).pbuf).len.toUInt32⟩ := by
  simp only [collect, heop, if_true]
  exact ⟨_, rfl⟩

/-- Otherwise it goes on in the next descriptor, to whose pbuf it links if there is no link. -/
theorem collect_next (heop : (bds d).flags.eop = false) (hnext : (bds d).next = some d')
    (atNull : Option ℕ) (totLen : UInt16) (fuel : ℕ) (exLen lenToAlloc : UInt32)
    (pbufs : ℕ → Pbuf) :
    collect bds atNull totLen (fuel + 1) d exLen lenToAlloc pbufs =
      collect bds atNull totLen fuel d' (exLen + (bds d).bufoffLen.toUInt32)
        (lenToAlloc + (pbufs (bds d).pbuf).len.toUInt32)
        (Function.update pbufs (bds d).pbuf
          ⟨if (pbufs (bds d).pbuf).next = none then some (bds d').pbuf
            else (pbufs (bds d).pbuf).next,
          (bds d).bufoffLen, (totLen.toUInt32 - exLen).toUInt16⟩) := by
  simp only [collect, heop, hnext]
  rfl

end Collect

/-- The `do` loop walks over the descriptors of a packet and stops behind them. -/
theorem collect_packet {bds : ℕ → RxBdp} {l : List ℕ} {e : ℕ} {behind : Option ℕ}
    (hends : EndsPacket (flagsOf bds) l e) (hseg : Segment (nextOf bds) (l ++ [e]) behind)
    (atNull : Option ℕ) (totLen : UInt16) {fuel : ℕ} (hfuel : l.length < fuel) {start : ℕ}
    (hstart : first (l ++ [e]) none = some start) (exLen lenToAlloc : UInt32) (pbufs : ℕ → Pbuf) :
    ∃ c, collect bds atNull totLen fuel start exLen lenToAlloc pbufs = .ok c ∧
      c.currBd = behind := by
  induction l generalizing fuel start exLen lenToAlloc pbufs with
  | nil =>
    obtain ⟨fuel, rfl⟩ := Nat.exists_eq_succ_of_ne_zero (Nat.ne_zero_of_lt hfuel)
    obtain rfl := Option.some.inj hstart
    rcases collect_eop hends.eop atNull totLen fuel exLen lenToAlloc pbufs with ⟨next, hc⟩
    exact ⟨_, hc, hseg.1⟩
  | cons d l ih =>
    obtain ⟨fuel, rfl⟩ := Nat.exists_eq_succ_of_ne_zero (Nat.ne_zero_of_lt hfuel)
    obtain rfl := Option.some.inj hstart
    rcases hseg with ⟨hd, hseg⟩
    obtain ⟨d', hd'⟩ : ∃ d', first (l ++ [e]) none = some d' := by
      cases l <;> exact ⟨_, rfl⟩
    have hnext : (bds d).next = some d' := by
      rw [← hd']
      exact hd.trans (first_of_ne_nil (by simp) _ _)
    rw [collect_next (hends.not_eop d List.mem_cons_self) hnext]
    exact ih hends.tail hseg
      (Nat.lt_of_succ_lt_succ hfuel) hd' _ _ _

/-- The `for` loop over the new pbufs `qs` has armed the descriptors `armed`, and left `rest` in
front of `x`. -/
structure Refills (r r' : Refilled) (x : ℕ) (qs : List (ℕ × UInt16)) (armed rest : List ℕ) :
    Prop where
  currBd_eq : r'.currBd = first rest (some x)
  lastBd_eq : r'.lastBd = armed.getLastD r.lastBd
  next_eq : ∀ d, (r'.bds d).next = (r.bds d).next
  flags_eq : ∀ d ∈ armed, (r'.bds d).flags = .armed
  frame : ∀ d ∉ armed, r'.bds d = r.bds d
  buffers_eq : buffersOf r'.bds armed = qs.take armed.length
  freed_eq : r'.freedPbufLen = (qs.take armed.length).foldl (fun n q => n - q.2.toUInt32)
    r.freedPbufLen

/-- The loop goes on until there are no more free descriptors or no more pbufs. -/
theorem refill_segment {x : ℕ} {fs : List ℕ} {r : Refilled} (qs : List (ℕ × UInt16))
    (hseg : Segment (nextOf r.bds) fs (some x)) (hcurr : r.currBd = first fs (some x))
    (hx : x ∉ fs) (hnodup : fs.Nodup) :
    ∃ r' armed rest, refill (some x) qs r = .ok r' ∧ fs = armed ++ rest ∧
      armed.length = min qs.length fs.length ∧ Refills r r' x qs armed rest := by
  induction qs generalizing r fs with
  | nil =>
    exact ⟨_, [], fs, rfl, rfl, by simp, hcurr, rfl, by simp, by simp, by simp, rfl, rfl⟩
  | cons q qs ih =>
    cases fs with
    | nil =>
      rw [first_nil] at hcurr
      refine ⟨{ r with rest := q :: qs }, [], [], ?_, rfl, by simp, hcurr, rfl, by simp, by simp,
        by simp, rfl, rfl⟩
      rw [refill, if_pos hcurr]
    | cons d fs =>
      have hne : ¬ (r.currBd = some x) := by
        intro h
        rw [hcurr] at h
        rw [Option.some.inj h] at hx
        exact hx List.mem_cons_self
      set r₁ : Refilled := { r with
        bds := Function.update r.bds d
          { r.bds d with bufoffLen := q.2, flags := .armed, pbuf := q.1 }
        currBd := (r.bds d).next
        lastBd := d
        freedPbufLen := r.freedPbufLen - q.2.toUInt32 } with hr₁
      have hnext : ∀ a, (r₁.bds a).next = (r.bds a).next :=
        fun a => update_proj RxBdp.next r.bds d a rfl
      rcases hseg with ⟨hd, hseg⟩
      rcases List.nodup_cons.mp hnodup with ⟨hmem, hnodup⟩
      rcases ih (r := r₁) (hseg.congr fun a _ => hnext a) hd
        (fun h => hx (List.mem_cons_of_mem _ h)) hnodup with
        ⟨r', armed, rest, hr', hfs, hlen, hrefills⟩
      have hmem' : d ∉ armed := by
        intro h
        apply hmem
        rw [hfs]
        exact List.mem_append_left _ h
      refine ⟨r', d :: armed, rest, ?_, by rw [hfs]; rfl, ?_, hrefills.currBd_eq, ?_, ?_, ?_, ?_,
        ?_, hrefills.freed_eq⟩
      · rw [refill, if_neg hne, hcurr]
        exact hr'
      · simp only [List.length_cons]
        omega
      · rw [List.getLastD_cons]
        exact hrefills.lastBd_eq
      · intro a
        rw [hrefills.next_eq, hnext]
      · intro a ha
        rcases List.mem_cons.mp ha with rfl | ha
        · rw [hrefills.frame _ hmem', hr₁]
          simp only [Function.update_self]
        · exact hrefills.flags_eq a ha
      · intro a ha
        rw [List.mem_cons, not_or] at ha
        rw [hrefills.frame a ha.2, hr₁]
        simp only [Function.update_of_ne ha.1]
      · rw [buffersOf_cons, hrefills.buffers_eq, hrefills.frame d hmem', hr₁]
        simp only [Function.update_self]
        rfl

/-- The DMA has filled the descriptors `p` with the lengths `lens`, the first of them with the given
`SOP`. -/
structure Fills (bds bds' : ℕ → RxBdp) (pktlen : UInt16) (sop : Bool) (lens : List UInt16)
    (p : List ℕ) : Prop where
  next_eq : ∀ d, (bds' d).next = (bds d).next
  pbuf_eq : ∀ d, (bds' d).pbuf = (bds d).pbuf
  bufoffLen_eq : p.map (fun d => (bds' d).bufoffLen) = lens
  pktlen_eq : ∀ d, p.head? = some d → (bds' d).flags.pktlen = if sop then pktlen else 0
  frame : ∀ d ∉ p, bds' d = bds d
  owner : ∀ d ∈ p, (bds' d).flags.owner = false
  eoq : ∀ d ∈ p, (bds' d).flags.eoq = (bds d).next.isNone
  sop : ∀ d, p.head? = some d → (bds' d).flags.sop = sop
  ends : ∀ l e, p = l ++ [e] → EndsPacket (flagsOf bds') l e

/-- The DMA fills a descriptor for each length if there are enough. -/
theorem dmaFill_segment {bds : ℕ → RxBdp} {p q : List ℕ} {lens : List UInt16} (pktlen : UInt16)
    (sop : Bool) (hlen : lens.length = p.length) (hseg : Segment (nextOf bds) (p ++ q) none)
    (hnodup : p.Nodup) (howner : ∀ d ∈ p, (bds d).flags.owner = true) :
    ∃ bds', dmaFill pktlen sop lens (first (p ++ q) none) bds = some (bds', first q none) ∧
      Fills bds bds' pktlen sop lens p := by
  induction lens generalizing p bds sop with
  | nil =>
    obtain rfl := List.length_eq_zero_iff.mp hlen.symm
    exact ⟨bds, rfl, by simp, by simp, rfl, by simp, by simp, by simp, by simp, by simp, by simp⟩
  | cons len lens ih =>
    cases p with
    | nil => simp at hlen
    | cons d p =>
      set bds₁ := Function.update bds d { bds d with
        bufoffLen := len
        flags := ⟨sop, lens.isEmpty, false, (bds d).next.isNone, if sop then pktlen else 0⟩ }
        with hbds₁
      have hself : bds₁ d = { bds d with
          bufoffLen := len
          flags := ⟨sop, lens.isEmpty, false, (bds d).next.isNone, if sop then pktlen else 0⟩ } :=
        Function.update_self _ _ _
      have hother : ∀ a, a ≠ d → bds₁ a = bds a := fun a ha => Function.update_of_ne ha _ _
      have hnext : ∀ a, (bds₁ a).next = (bds a).next :=
        fun a => update_proj RxBdp.next bds d a rfl
      rcases hseg with ⟨hd, hseg⟩
      rcases List.nodup_cons.mp hnodup with ⟨hmem, hnodup⟩
      have hne : ∀ a ∈ p, a ≠ d := fun a ha had => hmem (had ▸ ha)
      rcases ih false (Nat.succ.inj hlen) (hseg.congr fun a _ => hnext a) hnodup
        (fun a ha => by rw [hother a (hne a ha)]; exact howner a (List.mem_cons_of_mem _ ha)) with
        ⟨bds', hfill, hfills⟩
      have hd' : bds' d = bds₁ d := hfills.frame d hmem
      refine ⟨bds', ?_, ?_, ?_, ?_, ?_, ?_, ?_, ?_, ?_, ?_⟩
      · show dmaFill pktlen sop (len :: lens) (some d) bds = _
        rw [dmaFill, if_pos (howner d List.mem_cons_self), ← hbds₁]
        rw [show (bds d).next = first (p ++ q) none from hd]
        exact hfill
      · intro a
        rw [hfills.next_eq, hnext]
      · intro a
        rw [hfills.pbuf_eq]
        exact update_proj RxBdp.pbuf bds d a rfl
      · rw [List.map_cons, hfills.bufoffLen_eq, hd', hself]
      · intro a ha
        obtain rfl := Option.some.inj ha
        rw [hd', hself]
      · intro a ha
        rw [List.mem_cons, not_or] at ha
        rw [hfills.frame a ha.2, hother a ha.1]
      · intro a ha
        rcases List.mem_cons.mp ha with rfl | ha
        · rw [hd', hself]
        · exact hfills.owner a ha
      · intro a ha
        rcases List.mem_cons.mp ha with rfl | ha
        · rw [hd', hself]
        · rw [hfills.eoq a ha, hnext]
      · intro a ha
        obtain rfl := Option.some.inj ha
        rw [hd', hself]
      · intro l e hp
        cases l with
        | nil =>
          obtain ⟨rfl, rfl⟩ := List.cons.inj hp
          have hlens : lens = [] := List.length_eq_zero_iff.mp (Nat.succ.inj hlen)
          refine ⟨by simp, ?_⟩
          show (bds' d).flags.eop = true
          rw [hd', hself, hlens]
          rfl
        | cons a l =>
          obtain ⟨rfl, rfl⟩ := List.cons.inj hp
          have hrest := hfills.ends l e rfl
          refine ⟨List.forall_mem_cons.mpr ⟨?_, hrest.not_eop⟩, hrest.eop⟩
          have hlens : lens ≠ [] := by
            intro h0
            rw [h0] at hlen
            simp at hlen
          show (bds' d).flags.eop = false
          rw [hd', hself]
          simpa using hlens

/-- A packet that is longer than what there is is lost. -/
theorem dmaFill_none {bds : ℕ → RxBdp} {p : List ℕ} {lens : List UInt16} (pktlen : UInt16)
    (sop : Bool) (hlen : p.length < lens.length) (hseg : Segment (nextOf bds) p none)
    (hnodup : p.Nodup) : dmaFill pktlen sop lens (first p none) bds = none := by
  induction p generalizing lens sop bds with
  | nil =>
    cases lens with
    | nil => simp at hlen
    | cons len lens => rfl
  | cons d p ih =>
    cases lens with
    | nil => simp at hlen
    | cons len lens =>
      rcases hseg with ⟨hd, hseg⟩
      rcases List.nodup_cons.mp hnodup with ⟨hmem, hnodup⟩
      show dmaFill pktlen sop (len :: lens) (some d) bds = none
      rw [dmaFill]
      split
      · rw [show (bds d).next = first p none from hd]
        refine ih false (Nat.lt_of_succ_lt_succ hlen) (hseg.congr ?_) hnodup
        intro a ha
        have had : a ≠ d := fun h => hmem (h ▸ ha)
        show (Function.update bds d _ a).next = _
        rw [Function.update_of_ne had]
      · rfl

/-! ## The invariant -/

/-- The descriptors of a packet that waits for the handler. -/
structure IsPacket (bds : ℕ → RxBdp) (p : List ℕ) : Prop where
  start : ∀ d, p.head? = some d → (bds d).flags.sop = true ∧ (bds d).flags.owner = false
  stop : ∃ l e, p = l ++ [e] ∧ EndsPacket (flagsOf bds) l e

/-- The ring of `n` descriptors: a free segment, the packets that wait, and what the DMA may
fill. -/
structure Rx.Inv (n : ℕ) (s : Rx) (free : List ℕ) (packets : List (List ℕ)) (armed : List ℕ) :
    Prop where
  segment : Segment (nextOf s.bds) (free ++ (packets.flatten ++ armed)) none
  perm : (free ++ (packets.flatten ++ armed)).Perm (List.range n)
  freeHead : s.rxch.freeHead = first (free ++ (packets.flatten ++ armed)) none ∨
    free = [] ∧ s.rxch.freeHead = none
  activeHead : s.rxch.activeHead = first (packets.flatten ++ armed) none
  activeTail : (packets.flatten ++ armed).getLast? = some s.rxch.activeTail
  packet : ∀ p ∈ packets, IsPacket s.bds p
  armed_flags : ∀ d ∈ armed, (s.bds d).flags = .armed
  hdp_eq : s.hdp = first armed none
  eoq : (s.bds s.rxch.activeTail).flags.eoq = armed.isEmpty

theorem IsPacket.congr {bds bds' : ℕ → RxBdp} {p : List ℕ} (h : IsPacket bds p)
    (hflags : ∀ d ∈ p, (bds' d).flags = (bds d).flags) : IsPacket bds' p where
  start := by
    intro d hd
    rw [hflags d (List.mem_of_mem_head? hd)]
    exact h.start d hd
  stop := by
    rcases h.stop with ⟨l, e, rfl, hends⟩
    refine ⟨l, e, rfl, ?_, ?_⟩
    · intro d hd
      show (bds' d).flags.eop = false
      rw [hflags d (List.mem_append_left _ hd)]
      exact hends.not_eop d hd
    · show (bds' e).flags.eop = true
      rw [hflags e (List.mem_append_right _ List.mem_cons_self)]
      exact hends.eop

/-- Up to the first `EOP`, from a descriptor on. -/
def packetFrom (bds : ℕ → RxBdp) : ℕ → Option ℕ → List ℕ
  | 0, _ => []
  | _, none => []
  | fuel + 1, some d =>
    if (bds d).flags.eop then [d] else d :: packetFrom bds fuel (bds d).next

theorem packetFrom_eq {bds : ℕ → RxBdp} {l : List ℕ} {e : ℕ} {behind : Option ℕ}
    (hends : EndsPacket (flagsOf bds) l e) (hseg : Segment (nextOf bds) (l ++ [e]) behind)
    {fuel : ℕ} (hfuel : l.length < fuel) :
    packetFrom bds fuel (first (l ++ [e]) behind) = l ++ [e] := by
  induction l generalizing fuel with
  | nil =>
    obtain ⟨fuel, rfl⟩ := Nat.exists_eq_succ_of_ne_zero (Nat.ne_zero_of_lt hfuel)
    show packetFrom bds (fuel + 1) (some e) = [e]
    rw [packetFrom, if_pos hends.eop]
  | cons d l ih =>
    obtain ⟨fuel, rfl⟩ := Nat.exists_eq_succ_of_ne_zero (Nat.ne_zero_of_lt hfuel)
    rcases hseg with ⟨hd, hseg⟩
    have hnot : ¬ (bds d).flags.eop = true := by
      rw [hends.not_eop d List.mem_cons_self]
      decide
    show packetFrom bds (fuel + 1) (some d) = d :: (l ++ [e])
    rw [packetFrom, if_neg hnot, show (bds d).next = first (l ++ [e]) behind from hd,
      ih hends.tail hseg
        (Nat.lt_of_succ_lt_succ hfuel)]

section Inv

variable {n : ℕ} {s : Rx} {free armed : List ℕ} {packets : List (List ℕ)}

theorem Rx.Inv.nodup (h : s.Inv n free packets armed) :
    (free ++ (packets.flatten ++ armed)).Nodup := h.perm.nodup_iff.mpr List.nodup_range

/-- The DMA has filled the first descriptors it owns. -/
theorem Rx.Inv.fill {p q : List ℕ} {bds' : ℕ → RxBdp} {pktlen : UInt16} {lens : List UInt16}
    (h : s.Inv n free packets (p ++ q)) (hp : p ≠ [])
    (hfills : Fills s.bds bds' pktlen true lens p) :
    Rx.Inv n { s with bds := bds', hdp := first q none } free (packets ++ [p]) q := by
  have hlist : (packets ++ [p]).flatten ++ q = packets.flatten ++ (p ++ q) := by
    rw [List.flatten_append, List.flatten_singleton, List.append_assoc]
  have hnodup := h.nodup
  have hdisj : ∀ d ∈ packets.flatten, d ∉ p := by
    intro d hd hdp
    exact List.disjoint_of_nodup_append hnodup.of_append_right hd (List.mem_append_left _ hdp)
  have hq : ∀ d ∈ q, d ∉ p := by
    intro d hd hdp
    exact List.disjoint_of_nodup_append hnodup.of_append_right.of_append_right hdp hd
  refine ⟨?_, ?_, ?_, ?_, ?_, ?_, ?_, rfl, ?_⟩
  · rw [hlist]
    exact h.segment.congr fun d _ => hfills.next_eq d
  · rw [hlist]
    exact h.perm
  · rw [hlist]
    exact h.freeHead
  · rw [hlist]
    exact h.activeHead
  · rw [hlist]
    exact h.activeTail
  · intro p' hp'
    rcases List.mem_append.mp hp' with hp' | hp'
    · refine (h.packet p' hp').congr fun d hd => ?_
      show (bds' d).flags = _
      rw [hfills.frame d (hdisj d (List.mem_flatten.mpr ⟨p', hp', hd⟩))]
    · rw [List.mem_singleton.mp hp']
      refine ⟨?_, ?_⟩
      · intro d hd
        exact ⟨hfills.sop d hd, hfills.owner d (List.mem_of_mem_head? hd)⟩
      · refine ⟨p.dropLast, p.getLast hp, (List.dropLast_append_getLast hp).symm, ?_⟩
        exact hfills.ends _ _ (List.dropLast_append_getLast hp).symm
  · intro d hd
    show (bds' d).flags = _
    rw [hfills.frame d (hq d hd)]
    exact h.armed_flags d (List.mem_append_right _ hd)
  · -- the DMA has come to the end of the queue if it owns nothing more
    show (bds' s.rxch.activeTail).flags.eoq = q.isEmpty
    have htail := h.activeTail
    rw [← List.append_assoc] at htail
    cases hqs : q with
    | nil =>
      rw [hqs, List.append_nil] at htail
      have hmem : s.rxch.activeTail ∈ p := by
        rw [List.getLast?_append_of_ne_nil _ hp] at htail
        exact List.mem_of_getLast? htail
      have hlast : (s.bds s.rxch.activeTail).next = none :=
        (segment_append.mp h.segment).2.next_last h.activeTail
      rw [hfills.eoq _ hmem, hlast]
      rfl
    | cons d q' =>
      have hmem : s.rxch.activeTail ∈ q := by
        rw [List.getLast?_append_of_ne_nil _ (by rw [hqs]; simp)] at htail
        exact List.mem_of_getLast? htail
      rw [hfills.frame _ (hq _ hmem), h.eoq, hqs]
      simp

/-- A packet that arrives is lost, or takes the first descriptors the DMA owns. -/
theorem Rx.Inv.receive_cases (h : s.Inv n free packets armed) (lens : List UInt16) :
    s.receive lens = s ∨ ∃ p q bds', armed = p ++ q ∧ p ≠ [] ∧
      s.receive lens = { s with bds := bds', hdp := first q none } ∧
      Fills s.bds bds' (sumLens lens) true lens p := by
  have hseg : Segment (nextOf s.bds) armed none :=
    (segment_append.mp (segment_append.mp h.segment).2).2
  have hnodup : armed.Nodup := h.nodup.of_append_right.of_append_right
  unfold Rx.receive
  rw [h.hdp_eq]
  by_cases hlen : lens.length ≤ armed.length
  · by_cases hnil : lens = []
    · subst hnil
      left
      show { s with bds := s.bds, hdp := first armed none } = s
      rw [← h.hdp_eq]
    · obtain ⟨p, q, harmed, hplen⟩ : ∃ p q, armed = p ++ q ∧ lens.length = p.length :=
        ⟨_, _, (List.take_append_drop lens.length armed).symm, by rw [List.length_take]; omega⟩
      rw [harmed] at h hseg hnodup ⊢
      right
      have howner : ∀ d ∈ p, (s.bds d).flags.owner = true := by
        intro d hd
        rw [h.armed_flags d (List.mem_append_left _ hd)]
        rfl
      rcases dmaFill_segment (sumLens lens) true hplen hseg hnodup.of_append_left howner with
        ⟨bds', hfill, hfills⟩
      have hp : p ≠ [] := by
        intro h0
        rw [h0] at hplen
        exact hnil (List.length_eq_zero_iff.mp hplen)
      rw [hfill]
      exact ⟨p, q, bds', rfl, hp, rfl, hfills⟩
  · left
    rw [dmaFill_none (sumLens lens) true (by omega) hseg hnodup]

/-- The ring afterwards. -/
theorem Rx.Inv.receive (h : s.Inv n free packets armed) (lens : List UInt16) :
    ∃ packets' armed', (s.receive lens).Inv n free packets' armed' := by
  rcases h.receive_cases lens with heq | ⟨p, q, bds', rfl, hp, heq, hfills⟩
  · rw [heq]
    exact ⟨packets, armed, h⟩
  · rw [heq]
    exact ⟨packets ++ [p], q, h.fill hp hfills⟩

/-- A packet's descriptors go to the free ones. -/
theorem Rx.Inv.deliver {p : List ℕ} (h : s.Inv n free (p :: packets) armed)
    (hrest : packets.flatten ++ armed ≠ []) {curr : ℕ} (hcurr : p.head? = some curr)
    (out : RxOutside) {c : Collected} (hc : c.currBd = first (packets.flatten ++ armed) none) :
    (s.deliver out curr c).Inv n (free ++ p) packets armed ∧
      (s.deliver out curr c).rxch.freeHead
        = first (free ++ p ++ (packets.flatten ++ armed)) none := by
  have hfirst : first (p ++ (packets.flatten ++ armed)) none = some curr :=
    first_append_of_head? hcurr _ _
  have hlist : free ++ p ++ (packets.flatten ++ armed)
      = free ++ ((p :: packets).flatten ++ armed) := by
    rw [List.flatten_cons, List.append_assoc, List.append_assoc]
  have hfree : (s.deliver out curr c).rxch.freeHead
      = first (free ++ p ++ (packets.flatten ++ armed)) none := by
    rw [hlist]
    show s.rxch.freeHead.or (some curr) = _
    rcases h.freeHead with hfree | ⟨rfl, hfree⟩
    · rw [hfree]
      cases free with
      | nil =>
        rw [List.flatten_cons, List.append_assoc, List.nil_append, hfirst]
        rfl
      | cons d free => rfl
    · rw [hfree, List.flatten_cons, List.append_assoc, List.nil_append, hfirst]
      rfl
  refine ⟨⟨?_, ?_, .inl hfree, hc, ?_, ?_, h.armed_flags, h.hdp_eq, h.eoq⟩, hfree⟩
  · rw [hlist]
    exact h.segment
  · rw [hlist]
    exact h.perm
  · have htail := h.activeTail
    rw [List.flatten_cons, List.append_assoc, List.getLast?_append_of_ne_nil _ hrest] at htail
    exact htail
  · exact fun p' hp' => h.packet p' (List.mem_cons_of_mem _ hp')

/-! What is written when new descriptors are put behind the active ones: the pointers of
`active_tail` and of the last new one, and no flags. -/

theorem Rx.append_flags (s : Rx) (r : Refilled) (d : ℕ) :
    ((s.append r).bds d).flags = (r.bds d).flags := by
  show (setNext (setNext r.bds r.lastBd none) s.rxch.activeTail s.rxch.freeHead d).flags = _
  rw [setNext_flags, setNext_flags]

theorem Rx.append_next_tail (s : Rx) (r : Refilled) :
    ((s.append r).bds s.rxch.activeTail).next = s.rxch.freeHead :=
  setNext_next_self _ _ _

theorem Rx.append_next_last (s : Rx) {r : Refilled} (h : r.lastBd ≠ s.rxch.activeTail) :
    ((s.append r).bds r.lastBd).next = none := by
  show (setNext (setNext r.bds r.lastBd none) s.rxch.activeTail s.rxch.freeHead r.lastBd).next = _
  rw [setNext_of_ne _ h, setNext_next_self]

theorem Rx.append_next_of_ne (s : Rx) {r : Refilled} {d : ℕ} (ht : d ≠ s.rxch.activeTail)
    (hl : d ≠ r.lastBd) : ((s.append r).bds d).next = (r.bds d).next := by
  show (setNext (setNext r.bds r.lastBd none) s.rxch.activeTail s.rxch.freeHead d).next = _
  rw [setNext_of_ne _ ht, setNext_of_ne _ hl]

/-- The descriptors with new buffers are put behind the active ones. -/
theorem Rx.Inv.append {r r' : Refilled} {x : ℕ} {qs : List (ℕ × UInt16)} {new rest : List ℕ}
    (h : s.Inv n (new ++ rest) packets armed) (hnew : new ≠ [])
    (hfree : s.rxch.freeHead = first (new ++ rest) none)
    (hx : first (packets.flatten ++ armed) none = some x) (hr : r.bds = s.bds)
    (hrefills : Refills r r' x qs new rest) : (s.append r').Inv n rest packets (armed ++ new) := by
  set active := packets.flatten ++ armed with hactive
  set t := s.rxch.activeTail with ht
  have hnodup : (new ++ (rest ++ active)).Nodup := by
    rw [← List.append_assoc]
    exact h.nodup
  have hlast : new.getLast? = some r'.lastBd := by
    rw [hrefills.lastBd_eq]
    cases new with
    | nil => exact absurd rfl hnew
    | cons d new => rw [List.getLastD_cons, List.getLast?_cons, List.getLastD_eq_getLast?]
  have hlast_mem : r'.lastBd ∈ new := List.mem_of_getLast? hlast
  have htail_mem : t ∈ active := List.mem_of_getLast? h.activeTail
  have hdisj : ∀ d ∈ new, d ∉ rest ++ active := fun d hd hd' =>
    List.disjoint_of_nodup_append hnodup hd hd'
  have hne : t ≠ r'.lastBd := by
    intro heq
    exact hdisj _ hlast_mem (heq ▸ List.mem_append_right _ htail_mem)
  have hnext_tail : nextOf (s.append r').bds t = first new none := by
    rw [nextOf, s.append_next_tail r', hfree, first_append]
    exact first_of_ne_nil hnew _ _
  have hnext : ∀ d, d ≠ t → d ≠ r'.lastBd → nextOf (s.append r').bds d = nextOf s.bds d := by
    intro d hdt hdl
    rw [nextOf, s.append_next_of_ne hdt hdl, hrefills.next_eq, hr]
  have hflags := s.append_flags r'
  have hflags_old : ∀ d, d ∉ new → ((s.append r').bds d).flags = (s.bds d).flags := by
    intro d hd
    rw [hflags, hrefills.frame d hd, hr]
  have hflags_active : ∀ d ∈ active, ((s.append r').bds d).flags = (s.bds d).flags :=
    fun d hd => hflags_old d fun hd' => hdisj d hd' (List.mem_append_right _ hd)
  have hlist : rest ++ (packets.flatten ++ (armed ++ new)) = rest ++ active ++ new := by
    rw [hactive, List.append_assoc, List.append_assoc]
  have hfirst : first (packets.flatten ++ (armed ++ new)) none = some x := by
    rw [← List.append_assoc, first_append,
      first_of_ne_nil (List.ne_nil_of_mem htail_mem) _ none]
    exact hx
  have hseg := h.segment
  rw [List.append_assoc, segment_append] at hseg
  rcases hseg with ⟨hseg_new, hseg_old⟩
  have hold_last : (rest ++ active).getLast? = some t := by
    rw [List.getLast?_append_of_ne_nil _ (List.ne_nil_of_mem htail_mem)]
    exact h.activeTail
  refine ⟨?_, ?_, ?_, ?_, ?_, ?_, ?_, ?_, ?_⟩
  · rw [hlist]
    exact hseg_old.splice hseg_new (List.nodup_append_comm.mp hnodup) hold_last hlast hnext
      hnext_tail (s.append_next_last hne.symm)
  · rw [hlist]
    refine (List.perm_append_comm).trans ?_
    rw [← List.append_assoc]
    exact h.perm
  · left
    show r'.currBd = _
    rw [hrefills.currBd_eq, first_append, hfirst]
  · show s.rxch.activeHead = _
    rw [h.activeHead, hfirst]
    exact hx
  · show (packets.flatten ++ (armed ++ new)).getLast? = some r'.lastBd
    rw [← List.append_assoc, List.getLast?_append_of_ne_nil _ hnew]
    exact hlast
  · intro p hp
    refine (h.packet p hp).congr fun d hd => hflags_active d ?_
    exact List.mem_append_left _ (List.mem_flatten.mpr ⟨p, hp, hd⟩)
  · intro d hd
    rcases List.mem_append.mp hd with hd | hd
    · rw [hflags_active d (List.mem_append_right _ hd)]
      exact h.armed_flags d hd
    · rw [hflags]
      exact hrefills.flags_eq d hd
  · -- the DMA goes on in what it has, or is started where the new descriptors begin
    show (if ((s.append r').bds t).flags.eoq then s.rxch.freeHead else s.hdp) = _
    rw [hflags_active t htail_mem, h.eoq, h.hdp_eq, hfree, first_append, first_append]
    cases armed with
    | nil => exact first_of_ne_nil hnew _ _
    | cons d armed => rfl
  · show ((s.append r').bds r'.lastBd).flags.eoq = _
    rw [hflags, hrefills.flags_eq _ hlast_mem]
    cases new with
    | nil => exact absurd rfl hnew
    | cons d new => cases armed <;> rfl

/-- What the `for` loop begins with. -/
def Rx.toRefill (s : Rx) : Refilled :=
  ⟨s.bds, s.rxch.freeHead, s.rxch.activeTail, s.rxch.freedPbufLen, []⟩

/-- Free descriptors get new buffers, as far as these go. -/
theorem Rx.Inv.rearm_eq (h : s.Inv n free packets armed) (hne : free ≠ [])
    (hfree : s.rxch.freeHead = first (free ++ (packets.flatten ++ armed)) none)
    (hactive : packets.flatten ++ armed ≠ []) (new : NewPbufs) :
    ∃ r' x armed' rest, free = armed' ++ rest ∧
      armed'.length = min new.chain.length free.length ∧
      Refills s.toRefill r' x new.chain armed' rest ∧
      s.rearm new = .ok (Rx.append { s with pbufs := storeChain new.chain s.pbufs } r') ∧
      (Rx.append { s with pbufs := storeChain new.chain s.pbufs } r').Inv n rest packets
        (armed ++ armed') := by
  obtain ⟨x, m, hxm⟩ := List.exists_cons_of_ne_nil hactive
  have hx : first (packets.flatten ++ armed) none = some x := by rw [hxm]; rfl
  have hxnot : x ∉ free := fun hx' =>
    List.disjoint_of_nodup_append h.nodup hx' (hxm ▸ List.mem_cons_self)
  have hseg := (segment_append.mp h.segment).1
  rw [hx] at hseg
  rw [first_append, hx] at hfree
  rcases refill_segment (r := s.toRefill) new.chain hseg hfree hxnot h.nodup.of_append_left with
    ⟨r', armed', rest, hr', rfl, hlen, hrefills⟩
  refine ⟨r', x, armed', rest, rfl, hlen, hrefills, ?_, ?_⟩
  · unfold toRefill at hr'
    unfold Rx.rearm
    rw [h.activeHead, hx, hr']
    rfl
  · have hnew : armed' ≠ [] := by
      intro h0
      have hchain := List.length_pos_of_ne_nil new.ne_nil
      have hpos := List.length_pos_of_ne_nil hne
      have hzero := List.length_eq_zero_iff.mpr h0
      omega
    have hstored : Rx.Inv n { s with pbufs := storeChain new.chain s.pbufs } (armed' ++ rest)
        packets armed :=
      ⟨h.segment, h.perm, h.freeHead, h.activeHead, h.activeTail, h.packet, h.armed_flags, h.hdp_eq,
        h.eoq⟩
    refine hstored.append hnew ?_ hx rfl hrefills
    show s.rxch.freeHead = _
    rw [hfree]
    exact first_of_ne_nil hne _ _

/-- The ring afterwards. -/
theorem Rx.Inv.rearm (h : s.Inv n free packets armed) (hne : free ≠ [])
    (hfree : s.rxch.freeHead = first (free ++ (packets.flatten ++ armed)) none)
    (hactive : packets.flatten ++ armed ≠ []) (new : NewPbufs) :
    ∃ s' free' armed', s.rearm new = .ok s' ∧ s'.Inv n free' packets armed' := by
  rcases h.rearm_eq hne hfree hactive new with ⟨r', x, armed', rest, -, -, -, hs', h'⟩
  exact ⟨_, rest, armed ++ armed', hs', h'⟩

/-- The packet at `active_head`, if there is one, does not take up all the active
descriptors. -/
def Rx.LeavesActive (s : Rx) : RxEvent → Prop
  | .receive _ => True
  | .pass _ => ∀ d ∈ s.rxch.activeHead, (s.bds d).flags.sop = true →
    (s.bds d).flags.owner = false → s.rxch.activeTail ∉ packetFrom s.bds rxNumBd (some d)

instance (s : Rx) (e : RxEvent) : Decidable (s.LeavesActive e) :=
  match e with
  | .receive _ => .isTrue trivial
  | .pass _ => inferInstanceAs (Decidable (∀ d ∈ s.rxch.activeHead, _))

/-- The packet at `active_head` is the first one that waits, and what a pass does with it. -/
theorem Rx.Inv.processPacket_eq {p : List ℕ} {curr : ℕ} (h : s.Inv n free (p :: packets) armed)
    (hn : n ≤ rxNumBd) (hcurr : p.head? = some curr) (out : RxOutside) :
    packetFrom s.bds rxNumBd (some curr) = p ∧
      ∃ c : Collected, collect s.bds out.atNull (s.bds curr).flags.pktlen rxNumBd curr 0 0 s.pbufs
          = .ok c ∧ c.currBd = first (packets.flatten ++ armed) none ∧
        s.processPacket out curr = match out.alloc with
          | none => .ok (s.deliver out curr c)
          | some new => (s.deliver out curr c).rearm new := by
  rcases (h.packet p List.mem_cons_self).stop with ⟨l, e, rfl, hends⟩
  set active := packets.flatten ++ armed with hactive
  have hlist : ((l ++ [e]) :: packets).flatten ++ armed = (l ++ [e]) ++ active := by
    rw [List.flatten_cons, List.append_assoc]
  have hstart : ∀ e', first (l ++ [e]) e' = some curr := first_of_head? hcurr
  have hseg : Segment (nextOf s.bds) (l ++ [e]) (first active none) := by
    have hall := (segment_append.mp h.segment).2
    rw [hlist] at hall
    exact (segment_append.mp hall).1
  -- the packet is not longer than the ring
  have hfuel : l.length < rxNumBd := by
    have hlen := h.perm.length_eq
    rw [hlist] at hlen
    simp only [List.length_append, List.length_range, List.length_singleton] at hlen
    omega
  refine ⟨by rw [← hstart (first active none), packetFrom_eq hends hseg hfuel], ?_⟩
  rcases collect_packet hends hseg out.atNull (s.bds curr).flags.pktlen hfuel (hstart none) 0 0
    s.pbufs with ⟨c, hc, hbehind⟩
  refine ⟨c, hc, hbehind, ?_⟩
  unfold Rx.processPacket
  rw [hc]
  rfl

/-- The first packet has the last active descriptor only if nothing comes behind it. -/
theorem Rx.Inv.activeTail_mem_iff {p : List ℕ} (h : s.Inv n free (p :: packets) armed) :
    s.rxch.activeTail ∈ p ↔ packets.flatten ++ armed = [] := by
  have htail := h.activeTail
  have hnodup := h.nodup.of_append_right
  rw [List.flatten_cons, List.append_assoc] at htail hnodup
  constructor
  · intro hmem
    by_contra hne
    rw [List.getLast?_append_of_ne_nil _ hne] at htail
    exact List.disjoint_of_nodup_append hnodup hmem (List.mem_of_getLast? htail)
  · intro h0
    rw [h0, List.append_nil] at htail
    exact List.mem_of_getLast? htail

theorem Rx.rearm_activeHead {s' : Rx} {new : NewPbufs} (h : s.rearm new = .ok s') :
    s'.rxch.activeHead = s.rxch.activeHead := by
  rcases Run.bind_eq_ok.mp h with ⟨r, -, h⟩
  obtain rfl := Except.ok.inj h
  rfl

/-- A pass over a packet. -/
theorem Rx.Inv.processPacket {p : List ℕ} {curr : ℕ} (h : s.Inv n free (p :: packets) armed)
    (hn : n ≤ rxNumBd) (hcurr : p.head? = some curr) (hrest : packets.flatten ++ armed ≠ [])
    (out : RxOutside) :
    ∃ s' free' armed', s.processPacket out curr = .ok s' ∧ s'.Inv n free' packets armed' := by
  rcases (h.processPacket_eq hn hcurr out).2 with ⟨c, -, hc, hrun⟩
  rcases h.deliver hrest hcurr out hc with ⟨hdeliver, hfree⟩
  rw [hrun]
  cases out.alloc with
  | none => exact ⟨_, free ++ p, armed, rfl, hdeliver⟩
  | some new =>
    have hp : free ++ p ≠ [] := by
      intro h0
      rw [(List.append_eq_nil_iff.mp h0).2] at hcurr
      cases hcurr
    exact hdeliver.rearm hp hfree hrest new

/-- A pass over the last packet of a ring without anything behind it leaves `active_head` at
`NULL`. -/
theorem Rx.Inv.processPacket_last {p : List ℕ} {curr : ℕ} {s' : Rx}
    (h : s.Inv n free (p :: packets) armed) (hn : n ≤ rxNumBd) (hcurr : p.head? = some curr)
    (hrest : packets.flatten ++ armed = []) {out : RxOutside}
    (hrun : s.processPacket out curr = .ok s') : s'.rxch.activeHead = none := by
  rcases (h.processPacket_eq hn hcurr out).2 with ⟨c, -, hc, heq⟩
  rw [hrest] at hc
  rw [heq] at hrun
  cases halloc : out.alloc with
  | none =>
    rw [halloc] at hrun
    obtain rfl := Except.ok.inj hrun
    exact hc
  | some new =>
    rw [halloc] at hrun
    rw [Rx.rearm_activeHead hrun]
    exact hc

/-- A pass finds no packet and does nothing, or processes the first one. -/
theorem Rx.Inv.pass_cases (h : s.Inv n free packets armed) :
    (packets = [] ∧ (∀ out, s.pass out = .ok s ∧ s.LeavesActive (.pass out))) ∨
      ∃ p packets' curr, packets = p :: packets' ∧ p.head? = some curr ∧
        s.rxch.activeHead = some curr ∧ (s.bds curr).flags.sop = true ∧
        (s.bds curr).flags.owner = false ∧ ∀ out, s.pass out = s.processPacket out curr := by
  cases packets with
  | nil =>
    left
    cases armed with
    | nil => exact absurd h.activeTail (by simp)
    | cons d armed =>
      have hhead : s.rxch.activeHead = some d := h.activeHead
      have hsop : (s.bds d).flags.sop = false := by
        rw [h.armed_flags d List.mem_cons_self]
        rfl
      refine ⟨rfl, fun out => ⟨?_, ?_⟩⟩
      · unfold Rx.pass
        rw [hhead]
        simp only [hsop]
        rfl
      · intro d' hd' hsop'
        rw [hhead] at hd'
        rw [← Option.mem_some_iff.mp hd', hsop] at hsop'
        cases hsop'
  | cons p packets =>
    right
    have hpacket := h.packet p List.mem_cons_self
    obtain ⟨curr, hcurr⟩ : ∃ curr, p.head? = some curr := by
      rcases hpacket.stop with ⟨l, e, rfl, -⟩
      cases l <;> exact ⟨_, rfl⟩
    have hhead : s.rxch.activeHead = some curr := by
      rw [h.activeHead, List.flatten_cons, List.append_assoc]
      exact first_append_of_head? hcurr _ _
    rcases hpacket.start curr hcurr with ⟨hsop, howner⟩
    refine ⟨p, packets, curr, rfl, hcurr, hhead, hsop, howner, fun out => ?_⟩
    unfold Rx.pass
    rw [hhead]
    simp only [hsop, howner]
    rfl

end Inv

/-! ## Whole runs -/

/-- The descriptors below `n` are a free segment from `free_head` up to `active_head` and an active
one from there to `active_tail`, in one list that ends in `NULL`. -/
def RingOk (n : ℕ) (s : Rx) : Prop :=
  ∃ free active, active ≠ [] ∧ Segment (nextOf s.bds) (free ++ active) none ∧
    (free ++ active).Perm (List.range n) ∧
    (s.rxch.freeHead = first (free ++ active) none ∨ free = [] ∧ s.rxch.freeHead = none) ∧
    s.rxch.activeHead = active.head? ∧ active.getLast? = some s.rxch.activeTail

/-- The invariant, whatever the packets. -/
def Rx.Invariant (n : ℕ) (s : Rx) : Prop := ∃ free packets armed, s.Inv n free packets armed

theorem Rx.Invariant.ringOk {n : ℕ} {s : Rx} (h : s.Invariant n) : RingOk n s := by
  rcases h with ⟨free, packets, armed, h⟩
  refine ⟨free, packets.flatten ++ armed, ?_, h.segment, h.perm, h.freeHead, ?_, h.activeTail⟩
  · intro h0
    have htail := h.activeTail
    rw [h0] at htail
    cases htail
  · rw [h.activeHead]
    exact Option.or_none

/-- A step that leaves something active goes well. -/
theorem Rx.Invariant.step {n : ℕ} {s : Rx} (h : s.Invariant n) (hn : n ≤ rxNumBd) {e : RxEvent}
    (hleaves : s.LeavesActive e) : ∃ s', s.step e = .ok s' ∧ s'.Invariant n := by
  rcases h with ⟨free, packets, armed, h⟩
  cases e with
  | receive lens =>
    rcases h.receive lens with ⟨packets', armed', h'⟩
    exact ⟨_, rfl, free, packets', armed', h'⟩
  | pass out =>
    rcases h.pass_cases with ⟨rfl, hpass⟩ |
      ⟨p, packets, curr, rfl, hcurr, hhead, hsop, howner, hpass⟩
    · exact ⟨s, (hpass out).1, free, [], armed, h⟩
    · have hmem := hleaves curr hhead hsop howner
      rw [(h.processPacket_eq hn hcurr out).1, h.activeTail_mem_iff] at hmem
      rcases h.processPacket hn hcurr hmem out with ⟨s', free', armed', hs', h'⟩
      exact ⟨s', (hpass out).trans hs', free', packets, armed', h'⟩

/-- A step that does not leave anything active does not go well. -/
theorem Rx.Invariant.leavesActive {n : ℕ} {s s' : Rx} (h : s.Invariant n) (hn : n ≤ rxNumBd)
    {e : RxEvent} (hstep : s.step e = .ok s') (hok : RingOk n s') : s.LeavesActive e := by
  rcases h with ⟨free, packets, armed, h⟩
  cases e with
  | receive lens => trivial
  | pass out =>
    rcases h.pass_cases with ⟨rfl, hpass⟩ |
      ⟨p, packets, curr, rfl, hcurr, hhead, hsop, howner, hpass⟩
    · exact (hpass out).2
    · intro d hd _ _
      rw [hhead] at hd
      rw [← Option.mem_some_iff.mp hd, (h.processPacket_eq hn hcurr out).1, h.activeTail_mem_iff]
      intro hrest
      have hnull := h.processPacket_last hn hcurr hrest ((hpass out).symm.trans hstep)
      rcases hok with ⟨free', active, hne, -, -, -, hactive, -⟩
      rw [hnull] at hactive
      exact hne (List.head?_eq_none_iff.mp hactive.symm)

/-! ### The start -/

/-- The loop in `hdkif_hw_init` has armed the descriptors below `currBd`. -/
structure RxInit.Ok (s : RxInit) : Prop where
  armed : ∀ i < s.currBd, (s.bds i).next = some (i + 1) ∧ (s.bds i).flags = .armed
  last : 0 < s.currBd → s.lastBd + 1 = s.currBd
  count : s.currBd + s.numBd = rxNumBd

theorem RxInit.Ok.arm {s : RxInit} (h : s.Ok) (hnum : 0 < s.numBd) (q : ℕ × UInt16) :
    (s.arm q).Ok where
  armed := by
    intro i hi
    show (Function.update s.bds s.currBd _ i).next = _ ∧
      (Function.update s.bds s.currBd _ i).flags = _
    by_cases hcurr : i = s.currBd
    · rw [hcurr, Function.update_self]
      exact ⟨rfl, rfl⟩
    · have hlt : i < s.currBd + 1 := hi
      rw [Function.update_of_ne hcurr]
      exact h.armed i (by omega)
  last := fun _ => rfl
  count := by
    have hcount := h.count
    show s.currBd + 1 + (s.numBd - 1) = rxNumBd
    omega

theorem RxInit.Ok.foldl_arm {s : RxInit} (h : s.Ok) {qs : List (ℕ × UInt16)}
    (hlen : qs.length ≤ s.numBd) : (qs.foldl RxInit.arm s).Ok := by
  induction qs generalizing s with
  | nil => exact h
  | cons q qs ih =>
    rw [List.length_cons] at hlen
    have hnum : (s.arm q).numBd = s.numBd - 1 := rfl
    exact ih (h.arm (by omega) q) (by omega)

theorem RxInit.Ok.loop {s : RxInit} (h : s.Ok) (alloc : ℕ → Option NewPbufs) (n pbufCnt : ℕ) :
    (RxInit.loop alloc n pbufCnt s).Ok := by
  induction n generalizing s pbufCnt with
  | zero => exact h
  | succ n ih =>
    rw [RxInit.loop]
    split
    · exact h
    · next new hnew =>
      split
      · next hlen =>
        have hstored : RxInit.Ok { s with pbufs := storeChain new.chain s.pbufs } :=
          ⟨h.armed, h.last, h.count⟩
        exact ih (hstored.foldl_arm hlen) (pbufCnt + 1)
      · exact h

/-- After `hdkif_hw_init` everything is armed. -/
theorem Rx.inv_hwInitRx (ram : ℕ → RxBdp) (pbufs : ℕ → Pbuf) (alloc : ℕ → Option NewPbufs)
    (hpos : 0 < initialised ram pbufs alloc) :
    initialised ram pbufs alloc ≤ rxNumBd ∧
      (hwInitRx ram pbufs alloc).Inv (initialised ram pbufs alloc) [] []
        (List.range (initialised ram pbufs alloc)) := by
  have hstart : RxInit.Ok ⟨ram, pbufs, 0, 0, rxNumBd⟩ :=
    ⟨fun i hi => absurd hi (Nat.not_lt_zero i), fun h => absurd h (Nat.lt_irrefl 0),
      Nat.zero_add _⟩
  have hok := hstart.loop alloc maxRxPbufAlloc 0
  unfold initialised at hpos ⊢
  unfold hwInitRx
  set s := RxInit.loop alloc maxRxPbufAlloc 0 ⟨ram, pbufs, 0, 0, rxNumBd⟩ with hs
  refine ⟨by have hcount := hok.count; omega, ?_⟩
  obtain ⟨m, hm⟩ := Nat.exists_eq_succ_of_ne_zero hpos.ne'
  have hlastBd : s.lastBd = m := by
    have hlast := hok.last hpos
    omega
  have hlast : (List.range s.currBd).getLast? = some s.lastBd := by
    rw [hm, hlastBd, List.range_succ, List.getLast?_concat]
  have hseg : Segment (nextOf s.bds) (List.range s.currBd) (some s.currBd) :=
    segment_range fun i hi => (hok.armed i hi).1
  have hhead : first (List.range s.currBd) none = some 0 := by
    rw [hm, List.range_succ_eq_map]
    rfl
  refine ⟨?_, .refl _, .inr ⟨rfl, rfl⟩, hhead.symm, hlast, by simp, ?_, hhead.symm, ?_⟩
  · refine hseg.relink List.nodup_range hlast (fun i _ hi => ?_) (setNext_next_self _ _ _)
    show (setNext s.bds s.lastBd none i).next = _
    rw [setNext_of_ne _ hi]
  · intro i hi
    show (setNext s.bds s.lastBd none i).flags = _
    rw [setNext_flags]
    exact (hok.armed i (List.mem_range.mp hi)).2
  · show (setNext s.bds s.lastBd none s.lastBd).flags.eoq = _
    rw [setNext_flags, (hok.armed s.lastBd (by omega)).2, hm, List.range_succ_eq_map]
    rfl

/-- In every state of a run the descriptors are a free and an active segment, and the handler
never follows an `active_head` that is `NULL`, exactly when no pass finds a packet that takes up
all the active descriptors. -/
theorem ringOk_iff_leavesActive (ram : ℕ → RxBdp) (pbufs : ℕ → Pbuf)
    (alloc : ℕ → Option NewPbufs) (hpos : 0 < initialised ram pbufs alloc)
    (events : List RxEvent) :
    (∀ k, ∃ s, Run.exec Rx.step (hwInitRx ram pbufs alloc) (events.take k) = .ok s ∧
        RingOk (initialised ram pbufs alloc) s) ↔
      Run.Along Rx.step Rx.LeavesActive (hwInitRx ram pbufs alloc) events := by
  set n := initialised ram pbufs alloc with hn'
  rcases Rx.inv_hwInitRx ram pbufs alloc hpos with ⟨hn, hinit⟩
  rw [← hn'] at hn hinit
  have hstart : (hwInitRx ram pbufs alloc).Invariant n := ⟨_, _, _, hinit⟩
  have hcond : ∀ (s : Rx) (e : RxEvent), s.Invariant n →
      ((∃ s', s.step e = .ok s' ∧ RingOk n s') ↔ s.LeavesActive e) := by
    intro s e hinv
    constructor
    · intro hex
      rcases hex with ⟨s', hstep, hok⟩
      exact hinv.leavesActive hn hstep hok
    · intro hleaves
      rcases hinv.step hn hleaves with ⟨s', hstep, hinv'⟩
      exact ⟨s', hstep, hinv'.ringOk⟩
  have hinv : ∀ (s : Rx) (e : RxEvent) (s' : Rx), s.Invariant n →
      (∃ s', s.step e = .ok s' ∧ RingOk n s') → s.step e = .ok s' → s'.Invariant n := by
    intro s e s' hinv hex hstep
    rcases hinv.step hn ((hcond s e hinv).mp hex) with ⟨s'', hstep', hinv'⟩
    obtain rfl := Except.ok.inj (hstep'.symm.trans hstep)
    exact hinv'
  rw [Run.forall_exec_take_iff, Run.along_congr hcond hinv hstart]
  exact and_iff_right hstart.ringOk

/-- A receive channel with two descriptors: the pool has one buffer of 1514 bytes, in two
parts. -/
def twoBuffers (pbufCnt : ℕ) : Option NewPbufs :=
  if pbufCnt = 0 then some ⟨[(1000, 1400), (2000, 114)], by simp⟩ else none

/-- Descriptor memory after a reset. -/
def RxBdp.zero : RxBdp := ⟨none, 0, ⟨false, false, false, false, 0⟩, 0⟩

/-- A pass in which `pbuf_alloc` returns the given chain. -/
def RxOutside.of (alloc : Option NewPbufs) : RxOutside := ⟨none, id, alloc⟩

/-- Two packets arrive and their buffers are replaced. -/
theorem ringOk_replaced :
    0 < initialised (fun _ => .zero) (fun _ => ⟨none, 0, 0⟩) twoBuffers ∧ ∀ k, ∃ s,
      Run.exec Rx.step (hwInitRx (fun _ => .zero) (fun _ => ⟨none, 0, 0⟩) twoBuffers)
          (([.receive [60], .pass (.of (some ⟨[(3000, 1400)], by simp⟩)), .receive [100],
            .pass (.of (some ⟨[(4000, 114)], by simp⟩))] : List RxEvent).take k) = .ok s ∧
        RingOk (initialised (fun _ => .zero) (fun _ => ⟨none, 0, 0⟩) twoBuffers) s :=
  ⟨by decide +kernel, (ringOk_iff_leavesActive (fun _ => .zero) (fun _ => ⟨none, 0, 0⟩) twoBuffers
    (by decide +kernel) [.receive [60], .pass (.of (some ⟨[(3000, 1400)], by simp⟩)),
      .receive [100], .pass (.of (some ⟨[(4000, 114)], by simp⟩))]).mpr (by decide +kernel)⟩

/-- With two packets whose buffers are not replaced the handler is at the end of the ring and
follows `NULL`. -/
theorem null_active_head_followed :
    ¬ ∀ (ram : ℕ → RxBdp) (pbufs : ℕ → Pbuf) (alloc : ℕ → Option NewPbufs)
      (events : List RxEvent), 0 < initialised ram pbufs alloc →
      ∀ k, ∃ s, Run.exec Rx.step (hwInitRx ram pbufs alloc) (events.take k) = .ok s ∧
        RingOk (initialised ram pbufs alloc) s := by
  intro h
  set events : List RxEvent := [.receive [60], .receive [60], .pass (.of none), .pass (.of none),
    .pass (.of none)] with hevents
  rcases h (fun _ => .zero) (fun _ => ⟨none, 0, 0⟩) twoBuffers events (by decide +kernel) 5 with
    ⟨s, hs, -⟩
  have hfault : (Run.exec Rx.step (hwInitRx (fun _ => .zero) (fun _ => ⟨none, 0, 0⟩) twoBuffers)
      (events.take 5)).map (fun _ => ()) = .error .nullActiveHead := by decide +kernel
  rw [hs] at hfault
  cases hfault

end Cannelloni.Hdkif
