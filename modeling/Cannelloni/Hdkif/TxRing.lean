import Cannelloni.Hdkif.Tx

/-!
# The transmit ring gives every packet back

All descriptors of the transmit channel are one linked list: the free ones from `free_head` on,
then those of the packets that were not released yet. A packet takes descriptors from the front of
the list, which go to its end, and releasing one makes its descriptors free where they are. The
list ends at `active_tail`; only before the first packet it is closed to a ring.

Nothing stops `hdkif_transmit` from walking on into the second part of the list.
`releases_of_room` says that as long as it does not, packets are released once and in order.
-/

namespace Cannelloni.Hdkif

open Linked

/-- The `next` pointers. -/
abbrev txNext (bds : ℕ → TxBdp) (d : ℕ) : Option ℕ := (bds d).next

/-- The flags. -/
abbrev txFlags (bds : ℕ → TxBdp) (d : ℕ) : Flags := (bds d).flags

/-! ## What the loops and the DMA do -/

theorem findEop_eq {bds : ℕ → TxBdp} {l : List ℕ} {e d : ℕ} {behind : Option ℕ}
    (hends : EndsPacket (txFlags bds) l e) (hseg : Segment (txNext bds) (l ++ [e]) behind)
    (hd : (l ++ [e]).head? = some d) {fuel : ℕ} (hfuel : l.length < fuel) :
    findEop bds fuel d = .ok e := by
  induction l generalizing fuel d with
  | nil =>
    obtain ⟨fuel, rfl⟩ := Nat.exists_eq_succ_of_ne_zero (Nat.ne_zero_of_lt hfuel)
    obtain rfl := Option.some.inj hd
    rw [findEop, if_pos hends.eop]
  | cons a l ih =>
    obtain ⟨fuel, rfl⟩ := Nat.exists_eq_succ_of_ne_zero (Nat.ne_zero_of_lt hfuel)
    obtain rfl := Option.some.inj hd
    rcases hseg with ⟨ha, hseg⟩
    have hnot : ¬ (bds a).flags.eop = true := by
      rw [show (bds a).flags.eop = false from hends.not_eop a List.mem_cons_self]
      decide
    obtain ⟨b, hb⟩ : ∃ b, (l ++ [e]).head? = some b := by
      cases l <;> exact ⟨_, rfl⟩
    have hnext : (bds a).next = some b := ha.trans (first_of_head? hb behind)
    rw [findEop, if_neg hnot, hnext]
    exact ih hends.tail hseg hb (Nat.lt_of_succ_lt_succ hfuel)

/-- The descriptors after the DMA has sent the packet from `d` to `e`. -/
def completeBds (bds : ℕ → TxBdp) (d e : ℕ) : ℕ → TxBdp :=
  modifyBd (modifyBd bds d fun bd => bd.withFlags fun f => { f with owner := false })
    e fun bd => bd.withFlags fun f => { f with eoq := f.eoq || bd.next.isNone }

/-- Descriptors that differ in `OWNER` and `EOQ` only. -/
structure SameBut (bds bds' : ℕ → TxBdp) : Prop where
  next_eq : ∀ a, (bds' a).next = (bds a).next
  sop_eq : ∀ a, (bds' a).flags.sop = (bds a).flags.sop
  eop_eq : ∀ a, (bds' a).flags.eop = (bds a).flags.eop
  pbuf_eq : ∀ a, (bds' a).pbuf = (bds a).pbuf

theorem completeBds_cases (bds : ℕ → TxBdp) (d e a : ℕ) : completeBds bds d e a =
    { bds a with flags := { (bds a).flags with
      owner := if a = d then false else (bds a).flags.owner
      eoq := if a = e then (bds a).flags.eoq || (bds a).next.isNone else (bds a).flags.eoq } } := by
  unfold completeBds modifyBd
  split_ifs <;> rfl

theorem sameBut_completeBds (bds : ℕ → TxBdp) (d e : ℕ) : SameBut bds (completeBds bds d e) where
  next_eq a := by rw [completeBds_cases]
  sop_eq a := by rw [completeBds_cases]
  eop_eq a := by rw [completeBds_cases]
  pbuf_eq a := by rw [completeBds_cases]

/-- The DMA sends a packet with nothing behind it. -/
theorem Tx.dmaComplete_eq {s : Tx} {l : List ℕ} {e d : ℕ}
    (hends : EndsPacket (txFlags s.bds) l e) (hseg : Segment (txNext s.bds) (l ++ [e]) none)
    (hd : (l ++ [e]).head? = some d) (hfuel : l.length < txNumBd) (hhdp : s.hdp = some d) :
    s.dmaComplete = { s with bds := completeBds s.bds d e, hdp := none } := by
  have hnext : (s.bds e).next = none := hseg.next_last List.getLast?_concat
  unfold dmaComplete
  rw [hhdp]
  simp only [findEop_eq hends hseg hd hfuel, hnext]
  rfl

theorem Tx.dmaRun_of_none {s : Tx} (h : s.hdp = none) (n : ℕ) : s.dmaRun n = s := by
  induction n with
  | zero => rfl
  | succ n ih =>
    have hstay : s.dmaComplete = s := by
      unfold dmaComplete
      rw [h]
    rw [dmaRun, hstay, ih]

/-- The loop over the pbufs has filled the descriptors `a` for the packet `pbuf`. -/
structure FillsTx (bds bds' : ℕ → TxBdp) (pbuf : ℕ) (a : List ℕ) : Prop where
  next_eq : ∀ d, (bds' d).next = (bds d).next
  flags_eq : ∀ d, (bds' d).flags = (bds d).flags
  pbuf_eq : ∀ d ∈ a, (bds' d).pbuf = pbuf
  frame : ∀ d ∉ a, bds' d = bds d

/-- The loop takes a descriptor for each pbuf. -/
theorem fillBds_segment (pbuf : ℕ) {lens : List UInt16} {bds : ℕ → TxBdp} {a b : List ℕ}
    {behind : Option ℕ} (hlen : lens.length = a.length)
    (hseg : Segment (txNext bds) (a ++ b) behind) (hnodup : a.Nodup) :
    ∃ bds', fillBds pbuf lens bds (first (a ++ b) behind) = .ok ⟨bds', first b behind, a⟩ ∧
      FillsTx bds bds' pbuf a := by
  induction lens generalizing a bds with
  | nil =>
    obtain rfl := List.length_eq_zero_iff.mp hlen.symm
    exact ⟨bds, rfl, by simp, by simp, by simp, by simp⟩
  | cons len lens ih =>
    cases a with
    | nil => simp at hlen
    | cons d a =>
      set bds₁ := modifyBd bds d fun bd => { bd with bufoffLen := len, pbuf := pbuf } with hbds₁
      have hself : bds₁ d = { bds d with bufoffLen := len, pbuf := pbuf } := modifyBd_self _ _ _
      have hother : ∀ c, c ≠ d → bds₁ c = bds c := fun c hc => modifyBd_of_ne _ hc _
      have hnext : ∀ c, (bds₁ c).next = (bds c).next :=
        fun c => modifyBd_proj TxBdp.next bds d c fun _ => rfl
      have hflags : ∀ c, (bds₁ c).flags = (bds c).flags :=
        fun c => modifyBd_proj TxBdp.flags bds d c fun _ => rfl
      rcases hseg with ⟨hd, hseg⟩
      rcases List.nodup_cons.mp hnodup with ⟨hmem, hnodup⟩
      rcases ih (Nat.succ.inj hlen) (hseg.congr fun c _ => hnext c) hnodup with
        ⟨bds', hfill, hfills⟩
      refine ⟨bds', ?_, ?_, ?_, ?_, ?_⟩
      · show fillBds pbuf (len :: lens) bds (some d) = _
        rw [fillBds, ← hbds₁, show (bds d).next = first (a ++ b) behind from hd, hfill]
        rfl
      · intro c
        rw [hfills.next_eq, hnext]
      · intro c
        rw [hfills.flags_eq, hflags]
      · intro c hc
        rcases List.mem_cons.mp hc with rfl | hc
        · rw [hfills.frame c hmem, hself]
        · exact hfills.pbuf_eq c hc
      · intro c hc
        rw [List.mem_cons, not_or] at hc
        rw [hfills.frame c hc.2, hother c hc.1]

/-! ## The invariant -/

/-- A packet that was not released yet, in its descriptors. -/
structure Held (bds : ℕ → TxBdp) (x : ℕ × List ℕ) : Prop where
  sop : ∀ d, x.2.head? = some d → (bds d).flags.sop = true
  not_sop : ∀ d ∈ x.2.tail, (bds d).flags.sop = false
  ends : ∃ l e, x.2 = l ++ [e] ∧ EndsPacket (txFlags bds) l e ∧ (bds e).pbuf = x.1

theorem Held.ne_nil {bds : ℕ → TxBdp} {x : ℕ × List ℕ} (h : Held bds x) : x.2 ≠ [] := by
  rcases h.ends with ⟨l, e, hx, -⟩
  rw [hx]
  simp

/-- The DMA is at none of the packets, or at the last of them. -/
inductive DmaState (bds : ℕ → TxBdp) (hdp tail : Option ℕ) (held : List (ℕ × List ℕ)) : Prop
  | idle (hdp_eq : hdp = none) (eoq : ∀ t, tail = some t → (bds t).flags.eoq = true)
      (owner : ∀ x ∈ held, ∀ d, x.2.head? = some d → (bds d).flags.owner = false)
  | busy (xs : List (ℕ × List ℕ)) (x : ℕ × List ℕ) (held_eq : held = xs ++ [x])
      (hdp_eq : hdp = x.2.head?)
      (owner : ∀ y ∈ xs, ∀ d, y.2.head? = some d → (bds d).flags.owner = false)
      (owner_last : ∀ d, x.2.head? = some d → (bds d).flags.owner = true)

/-- The descriptors of the packets that were not released yet. -/
def Tx.used (s : Tx) : List ℕ := s.held.flatMap Prod.snd

/-- Where the last descriptor points to. -/
def Tx.ringEnd (s : Tx) (free : List ℕ) : Option ℕ :=
  if s.txch.activeTail = none then first free none else none

/-- The list of descriptors: the free ones, then those of the packets. -/
structure Tx.Inv (s : Tx) (free : List ℕ) : Prop where
  perm : (free ++ s.used).Perm (List.range txNumBd)
  segment : Segment (txNext s.bds) (free ++ s.used) (s.ringEnd free)
  freeHead : s.txch.freeHead = first (free ++ s.used) none
  nextBd : s.txch.nextBdToProcess = first (s.used ++ free) none
  activeTail : ∀ t, s.txch.activeTail = some t → (free ++ s.used).getLast? = some t
  held_nil : s.txch.activeTail = none → s.held = []
  free_flags : ∀ d ∈ free, (s.bds d).flags.sop = false ∧ (s.bds d).flags.eop = false
  held : ∀ x ∈ s.held, Held s.bds x
  dma : DmaState s.bds s.hdp s.txch.activeTail s.held
  submitted : s.submitted = s.freed ++ s.held.map Prod.fst
  overwritten : s.overwritten = []

theorem Held.congr {bds bds' : ℕ → TxBdp} {x : ℕ × List ℕ} (h : Held bds x)
    (hsop : ∀ d ∈ x.2, (bds' d).flags.sop = (bds d).flags.sop)
    (heop : ∀ d ∈ x.2, (bds' d).flags.eop = (bds d).flags.eop)
    (hpbuf : ∀ d ∈ x.2, (bds' d).pbuf = (bds d).pbuf) : Held bds' x where
  sop := by
    intro d hd
    rw [hsop d (List.mem_of_mem_head? hd)]
    exact h.sop d hd
  not_sop := by
    intro d hd
    rw [hsop d (List.mem_of_mem_tail hd)]
    exact h.not_sop d hd
  ends := by
    rcases h.ends with ⟨l, e, hx, hends, hp⟩
    have hmem : e ∈ x.2 := by
      rw [hx]
      exact List.mem_append_right _ List.mem_cons_self
    refine ⟨l, e, hx, ⟨?_, ?_⟩, (hpbuf e hmem).trans hp⟩
    · intro d hd
      show (bds' d).flags.eop = false
      rw [heop d (by rw [hx]; exact List.mem_append_left _ hd)]
      exact hends.not_eop d hd
    · show (bds' e).flags.eop = true
      rw [heop e hmem]
      exact hends.eop

/-- What the state of the DMA depends on. -/
theorem DmaState.congr {bds bds' : ℕ → TxBdp} {hdp tail : Option ℕ} {held : List (ℕ × List ℕ)}
    (h : DmaState bds hdp tail held)
    (howner : ∀ c ∈ held.flatMap Prod.snd, (bds' c).flags.owner = (bds c).flags.owner)
    (heoq : ∀ t, tail = some t → (bds' t).flags.eoq = (bds t).flags.eoq) :
    DmaState bds' hdp tail held := by
  have hhead : ∀ x ∈ held, ∀ d, x.2.head? = some d →
      (bds' d).flags.owner = (bds d).flags.owner := by
    intro x hx d hd
    exact howner d (List.mem_flatMap.mpr ⟨x, hx, List.mem_of_mem_head? hd⟩)
  cases h with
  | idle hhdp heoqs howners =>
    refine .idle hhdp ?_ ?_
    · intro t ht
      rw [heoq t ht]
      exact heoqs t ht
    · intro x hx d hd
      rw [hhead x hx d hd]
      exact howners x hx d hd
  | busy xs x hxs hhdp howners hlast =>
    refine .busy xs x hxs hhdp ?_ ?_
    · intro y hy d hd
      rw [hhead y (by rw [hxs]; exact List.mem_append_left _ hy) d hd]
      exact howners y hy d hd
    · intro d hd
      rw [hhead x (by rw [hxs]; exact List.mem_append_right _ List.mem_cons_self) d hd]
      exact hlast d hd

/-! ## The DMA comes to the end -/

/-- The DMA has sent everything that was queued. -/
structure Sent (s s' : Tx) (held : List (ℕ × List ℕ)) (tail : Option ℕ) : Prop where
  eq : s' = { s with bds := s'.bds, hdp := none }
  same : SameBut s.bds s'.bds
  frame : ∀ c ∉ held.flatMap Prod.snd, s'.bds c = s.bds c
  eoq : ∀ t, tail = some t → (s'.bds t).flags.eoq = true
  owner : ∀ x ∈ held, ∀ d, x.2.head? = some d → (s'.bds d).flags.owner = false

theorem Tx.sent_dmaRun {s : Tx} {held : List (ℕ × List ℕ)} {tail : Option ℕ}
    (hdma : DmaState s.bds s.hdp tail held) (hheld : ∀ x ∈ held, Held s.bds x)
    (hseg : Segment (txNext s.bds) (held.flatMap Prod.snd) none)
    (hlen : (held.flatMap Prod.snd).length ≤ txNumBd)
    (htail : ∀ t, tail = some t → held ≠ [] → (held.flatMap Prod.snd).getLast? = some t)
    {n : ℕ} (hn : n ≠ 0) : Sent s (s.dmaRun n) held tail := by
  cases hdma with
  | idle hhdp heoq howner =>
    rw [dmaRun_of_none hhdp]
    refine ⟨?_, ⟨fun a => rfl, fun a => rfl, fun a => rfl, fun a => rfl⟩, fun c _ => rfl, heoq,
      howner⟩
    rw [← hhdp]
  | busy xs x hxs hhdp howner hlast =>
    have hx : Held s.bds x := by
      apply hheld x
      rw [hxs]
      exact List.mem_append_right _ List.mem_cons_self
    rcases hx.ends with ⟨l, e, hle, hends, -⟩
    have hflat : held.flatMap Prod.snd = xs.flatMap Prod.snd ++ (l ++ [e]) := by
      rw [hxs, List.flatMap_append, List.flatMap_singleton, hle]
    obtain ⟨d, hd⟩ : ∃ d, (l ++ [e]).head? = some d := by
      cases l <;> exact ⟨_, rfl⟩
    have hseg' : Segment (txNext s.bds) (l ++ [e]) none := by
      rw [hflat] at hseg
      exact (segment_append.mp hseg).2
    have hshort : l.length < txNumBd := by
      rw [hflat] at hlen
      simp only [List.length_append, List.length_singleton] at hlen
      omega
    rw [hle, hd] at hhdp
    obtain ⟨n, rfl⟩ := Nat.exists_eq_succ_of_ne_zero hn
    rw [dmaRun, dmaComplete_eq hends hseg' hd hshort hhdp, dmaRun_of_none rfl]
    refine ⟨rfl, sameBut_completeBds _ _ _, ?_, ?_, ?_⟩
    · intro c hc
      rw [hflat] at hc
      have hcd : c ≠ d := by
        intro h
        exact hc (List.mem_append_right _ (List.mem_of_mem_head? (h ▸ hd)))
      have hce : c ≠ e := by
        intro h
        exact hc (List.mem_append_right _ (by rw [h]; simp))
      show completeBds s.bds d e c = _
      rw [completeBds_cases, if_neg hcd, if_neg hce]
    · -- the last descriptor of the packet is the last one of all
      intro t ht
      have hte : t = e := by
        have h := htail t ht (by rw [hxs]; simp)
        rw [hflat, ← List.append_assoc, List.getLast?_concat] at h
        exact (Option.some.inj h).symm
      have hnext : (s.bds e).next = none := hseg'.next_last List.getLast?_concat
      show (completeBds s.bds d e t).flags.eoq = true
      rw [hte, completeBds_cases, if_pos rfl, hnext]
      simp
    · intro y hy c hc
      show (completeBds s.bds d e c).flags.owner = false
      rw [completeBds_cases]
      by_cases hcd : c = d
      · rw [if_pos hcd]
      · rw [if_neg hcd]
        rw [hxs] at hy
        rcases List.mem_append.mp hy with hy | hy
        · exact howner y hy c hc
        · rw [List.mem_singleton.mp hy, hle, hd] at hc
          exact absurd (Option.some.inj hc).symm hcd

section Inv

variable {s : Tx} {free : List ℕ}

theorem Tx.Inv.nodup (h : s.Inv free) : (free ++ s.used).Nodup :=
  h.perm.nodup_iff.mpr List.nodup_range

theorem Tx.Inv.length_eq (h : s.Inv free) : free.length + s.used.length = txNumBd := by
  have hlen := h.perm.length_eq
  rw [List.length_append, List.length_range] at hlen
  exact hlen

theorem Tx.Inv.ringEnd_of_held (h : s.Inv free) (hheld : s.held ≠ []) : s.ringEnd free = none := by
  unfold ringEnd
  rw [if_neg]
  intro ht
  exact hheld (h.held_nil ht)

/-- The descriptors of the packets end the list. -/
theorem Tx.Inv.segment_used (h : s.Inv free) : Segment (txNext s.bds) s.used none := by
  by_cases hheld : s.held = []
  · unfold used
    rw [hheld]
    trivial
  · rw [← h.ringEnd_of_held hheld]
    exact (segment_append.mp h.segment).2

theorem used_ne_nil (h : s.Inv free) (hheld : s.held ≠ []) : s.used ≠ [] := by
  obtain ⟨x, xs, hxs⟩ := List.exists_cons_of_ne_nil hheld
  have hx : x ∈ s.held := by
    rw [hxs]
    exact List.mem_cons_self
  unfold Tx.used
  rw [hxs, List.flatMap_cons]
  intro hnil
  exact (h.held x hx).ne_nil (List.append_eq_nil_iff.mp hnil).1

theorem Tx.Inv.getLast_used (h : s.Inv free) {t : ℕ} (ht : s.txch.activeTail = some t)
    (hheld : s.held ≠ []) : s.used.getLast? = some t := by
  rw [← h.activeTail t ht, List.getLast?_append_of_ne_nil _ (used_ne_nil h hheld)]

theorem Tx.Inv.sent (h : s.Inv free) {n : ℕ} (hn : n ≠ 0) :
    Sent s (s.dmaRun n) s.held s.txch.activeTail := by
  refine sent_dmaRun h.dma h.held h.segment_used ?_ (fun t ht hheld => h.getLast_used ht hheld) hn
  have hlen := h.length_eq
  unfold used at hlen
  omega

/-- The DMA changes nothing but `OWNER` and `EOQ`. -/
theorem Tx.Inv.of_sent (h : s.Inv free) {s' : Tx} (hs' : Sent s s' s.held s.txch.activeTail) :
    s'.Inv free := by
  rw [hs'.eq]
  refine ⟨h.perm, h.segment.congr fun d _ => hs'.same.next_eq d, h.freeHead, h.nextBd,
    h.activeTail, h.held_nil, ?_, ?_, .idle rfl hs'.eoq hs'.owner,
    h.submitted, h.overwritten⟩
  · intro d hd
    show (s'.bds d).flags.sop = false ∧ (s'.bds d).flags.eop = false
    rw [hs'.same.sop_eq, hs'.same.eop_eq]
    exact h.free_flags d hd
  · intro x hx
    exact (h.held x hx).congr (fun d _ => hs'.same.sop_eq d) (fun d _ => hs'.same.eop_eq d)
      fun d _ => hs'.same.pbuf_eq d

theorem Tx.Inv.dmaComplete (h : s.Inv free) : s.dmaComplete.Inv free :=
  h.of_sent (h.sent Nat.one_ne_zero)

/-! ## A packet is released -/

theorem Tx.release_bds (s : Tx) (d e a : ℕ) : (s.release d e).bds a =
    { s.bds a with flags := { (s.bds a).flags with
      sop := if a = d then false else (s.bds a).flags.sop
      eop := if a = e then false else (s.bds a).flags.eop } } := by
  show modifyBd (modifyBd s.bds d fun bd => bd.withFlags fun f => { f with sop := false })
    e (fun bd => bd.withFlags fun f => { f with eop := false }) a = _
  unfold modifyBd
  split_ifs <;> rfl

/-- Neither flag is left in the descriptors of the packet. -/
theorem Tx.release_flags {x : ℕ × List ℕ} (hx : Held s.bds x) {l : List ℕ} {d e : ℕ}
    (hle : x.2 = l ++ [e]) (hends : EndsPacket (txFlags s.bds) l e) (hd : x.2.head? = some d) :
    ∀ c ∈ x.2, ((s.release d e).bds c).flags.sop = false ∧
      ((s.release d e).bds c).flags.eop = false := by
  intro c hc
  rw [release_bds]
  constructor
  · show (if c = d then false else (s.bds c).flags.sop) = false
    by_cases hcd : c = d
    · rw [if_pos hcd]
    · rw [if_neg hcd]
      apply hx.not_sop c
      cases hl : x.2 with
      | nil => simp [hl] at hc
      | cons a as =>
        rw [hl] at hd hc
        obtain rfl := Option.some.inj hd
        exact List.mem_of_ne_of_mem hcd hc
  · show (if c = e then false else (s.bds c).flags.eop) = false
    by_cases hce : c = e
    · rw [if_pos hce]
    · rw [if_neg hce]
      apply hends.not_eop c
      rw [hle] at hc
      rcases List.mem_append.mp hc with hc | hc
      · exact hc
      · exact absurd (List.mem_singleton.mp hc) hce

/-- The first packet is not the one that the DMA is at if its `OWNER` is taken away. -/
theorem DmaState.tail {bds : ℕ → TxBdp} {hdp tail : Option ℕ} {x : ℕ × List ℕ}
    {xs : List (ℕ × List ℕ)} (h : DmaState bds hdp tail (x :: xs)) {d : ℕ}
    (hd : x.2.head? = some d) (howner : (bds d).flags.owner = false) :
    DmaState bds hdp tail xs := by
  cases h with
  | idle hhdp heoq howners =>
    exact .idle hhdp heoq fun y hy => howners y (List.mem_cons_of_mem _ hy)
  | busy ys y hys hhdp howners hlast =>
    cases ys with
    | nil =>
      obtain ⟨rfl, rfl⟩ := List.cons.inj hys
      rw [hlast d hd] at howner
      exact absurd howner (by decide)
    | cons z zs =>
      obtain ⟨rfl, rfl⟩ := List.cons.inj hys
      exact .busy zs y rfl hhdp (fun w hw => howners w (List.mem_cons_of_mem _ hw)) hlast

/-- What the handler does with the first packet makes its descriptors free where they are. -/
theorem Tx.Inv.release (h : s.Inv free) {x : ℕ × List ℕ} {xs : List (ℕ × List ℕ)}
    (hxs : s.held = x :: xs) {l : List ℕ} {d e : ℕ} (hle : x.2 = l ++ [e])
    (hends : EndsPacket (txFlags s.bds) l e) (hpbuf : (s.bds e).pbuf = x.1)
    (hd : x.2.head? = some d) (howner : (s.bds d).flags.owner = false) :
    (s.release d e).Inv (free ++ x.2) := by
  have hused : s.used = x.2 ++ xs.flatMap Prod.snd := by
    unfold used
    rw [hxs, List.flatMap_cons]
  have hheld' : (s.release d e).held = xs := by
    show s.held.tail = xs
    rw [hxs, List.tail_cons]
  have hused' : (s.release d e).used = xs.flatMap Prod.snd := by
    unfold used
    rw [hheld']
  have hlist : free ++ x.2 ++ (s.release d e).used = free ++ s.used := by
    rw [hused, hused', List.append_assoc]
  have hend : s.ringEnd free = none := h.ringEnd_of_held (by rw [hxs]; simp)
  have htail : s.txch.activeTail ≠ none := by
    intro ht
    have hnil := h.held_nil ht
    rw [hxs] at hnil
    exact absurd hnil (by simp)
  have hend' : (s.release d e).ringEnd (free ++ x.2) = none := if_neg htail
  -- the descriptors of the other packets
  have hother : ∀ y ∈ xs, ∀ c ∈ y.2, c ∉ x.2 := by
    intro y hy c hc hcx
    have hnodup := h.nodup.of_append_right
    rw [hused] at hnodup
    exact List.disjoint_of_nodup_append hnodup hcx (List.mem_flatMap.mpr ⟨y, hy, hc⟩)
  have hdx : d ∈ x.2 := List.mem_of_mem_head? hd
  have hex : e ∈ x.2 := by
    rw [hle]
    exact List.mem_append_right _ List.mem_cons_self
  have hframe : ∀ y ∈ xs, ∀ c ∈ y.2, (s.release d e).bds c = s.bds c := by
    intro y hy c hc
    have hcd : c ≠ d := fun hcd => hother y hy c hc (hcd ▸ hdx)
    have hce : c ≠ e := fun hce => hother y hy c hc (hce ▸ hex)
    rw [release_bds, if_neg hcd, if_neg hce]
  have hnext : ∀ c, ((s.release d e).bds c).next = (s.bds c).next := by
    intro c
    rw [release_bds]
  have hnext_e : (s.bds e).next = first (xs.flatMap Prod.snd) none := by
    have hseg := h.segment_used
    rw [hused, hle] at hseg
    exact (segment_append.mp hseg).1.next_last List.getLast?_concat
  refine ⟨?_, ?_, ?_, ?_, ?_, fun ht => absurd ht htail, ?_, ?_, ?_, ?_, h.overwritten⟩
  · rw [hlist]
    exact h.perm
  · rw [hlist, hend', ← hend]
    exact h.segment.congr fun c _ => hnext c
  · rw [hlist]
    exact h.freeHead
  · show (if (s.bds e).next = none then s.txch.freeHead else (s.bds e).next) = _
    rw [hnext_e, h.freeHead, hused', hused]
    cases xs.flatMap Prod.snd with
    | nil => rw [first_nil, if_pos rfl, List.append_nil, List.nil_append]
    | cons c cs =>
      rw [first_cons, if_neg (by simp)]
      rfl
  · rw [hlist]
    exact h.activeTail
  · intro c hc
    rcases List.mem_append.mp hc with hc | hc
    · rcases h.free_flags c hc with ⟨hsop, heop⟩
      rw [release_bds]
      simp [hsop, heop]
    · exact release_flags (h.held x (by rw [hxs]; exact List.mem_cons_self)) hle hends hd c hc
  · rw [hheld']
    intro y hy
    have hy' := h.held y (by rw [hxs]; exact List.mem_cons_of_mem _ hy)
    exact hy'.congr (fun c hc => by rw [hframe y hy c hc]) (fun c hc => by rw [hframe y hy c hc])
      fun c hc => by rw [hframe y hy c hc]
  · rw [hheld']
    have hdma := h.dma
    rw [hxs] at hdma
    refine (hdma.tail hd howner).congr ?_ ?_
    · intro c _
      rw [release_bds]
    · intro c _
      rw [release_bds]
  · show s.submitted = s.freed ++ [(s.bds e).pbuf] ++ s.held.tail.map Prod.fst
    rw [h.submitted, hxs, hpbuf, List.append_assoc]
    rfl

theorem length_held_le {held : List (ℕ × List ℕ)} (h : ∀ x ∈ held, x.2 ≠ []) :
    held.length ≤ (held.flatMap Prod.snd).length := by
  induction held with
  | nil => exact Nat.le_refl _
  | cons x held ih =>
    have hx := List.length_pos_of_ne_nil (h x List.mem_cons_self)
    have hrest := ih fun y hy => h y (List.mem_cons_of_mem _ hy)
    rw [List.flatMap_cons, List.length_append, List.length_cons]
    omega

/-- If the first packet is not sent yet, the handler waits for that. -/
theorem Tx.Inv.wait (h : s.Inv free) {x : ℕ × List ℕ} (hx : x ∈ s.held) {d : ℕ}
    (hd : x.2.head? = some d) {t : Tx}
    (ht : t = if (s.bds d).flags.owner then s.dmaRun txNumBd else s) :
    t.Inv free ∧ t.held = s.held ∧ t.submitted = s.submitted ∧
      (t.bds d).flags.owner = false := by
  by_cases howner : (s.bds d).flags.owner = true
  · rw [if_pos howner] at ht
    have hsent : Sent s (s.dmaRun txNumBd) s.held s.txch.activeTail := h.sent (by decide)
    rw [← ht] at hsent
    exact ⟨h.of_sent hsent, by rw [hsent.eq], by rw [hsent.eq], hsent.owner x hx d hd⟩
  · rw [if_neg howner] at ht
    rw [ht]
    exact ⟨h, rfl, rfl, by simpa using howner⟩

/-- The handler finds the end of the first packet and releases it. -/
theorem Tx.Inv.findEop_ok (h : s.Inv free) {x : ℕ × List ℕ} {xs : List (ℕ × List ℕ)}
    (hxs : s.held = x :: xs) {d : ℕ} (hd : x.2.head? = some d)
    (howner : (s.bds d).flags.owner = false) :
    ∃ e, findEop s.bds txNumBd d = .ok e ∧ (s.release d e).Inv (free ++ x.2) := by
  have hx : Held s.bds x := h.held x (by rw [hxs]; exact List.mem_cons_self)
  rcases hx.ends with ⟨l, e, hle, hends, hpbuf⟩
  have hused : s.used = x.2 ++ xs.flatMap Prod.snd := by
    unfold used
    rw [hxs, List.flatMap_cons]
  have hlen := h.length_eq
  rw [hused, hle] at hlen
  simp only [List.length_append, List.length_singleton] at hlen
  have hseg := h.segment_used
  rw [hused, hle] at hseg
  refine ⟨e, findEop_eq hends (segment_append.mp hseg).1 ?_ (by omega),
    h.release hxs hle hends hpbuf hd howner⟩
  rw [← hle]
  exact hd

/-- Without packets the handler comes to a free descriptor. -/
theorem Tx.Inv.next_free (h : s.Inv free) (hheld : s.held = []) :
    ∃ d, s.txch.nextBdToProcess = some d ∧ (s.bds d).flags.sop = false := by
  have hused : s.used = [] := by
    unfold used
    rw [hheld]
    rfl
  obtain ⟨d, rest, hfree⟩ : ∃ d rest, free = d :: rest := by
    apply List.exists_cons_of_ne_nil
    intro hnil
    have hlen := h.length_eq
    rw [hnil, hused] at hlen
    exact absurd hlen (by decide)
  refine ⟨d, ?_, (h.free_flags d (by rw [hfree]; exact List.mem_cons_self)).1⟩
  rw [h.nextBd, hused, hfree]
  rfl

/-- Otherwise it comes to the first packet. -/
theorem Tx.Inv.next_held (h : s.Inv free) {x : ℕ × List ℕ} {xs : List (ℕ × List ℕ)}
    (hxs : s.held = x :: xs) :
    ∃ d, s.txch.nextBdToProcess = some d ∧ x.2.head? = some d ∧ (s.bds d).flags.sop = true := by
  have hx : Held s.bds x := h.held x (by rw [hxs]; exact List.mem_cons_self)
  obtain ⟨d, m, hdm⟩ := List.exists_cons_of_ne_nil hx.ne_nil
  have hd : x.2.head? = some d := by
    rw [hdm]
    rfl
  refine ⟨d, ?_, hd, hx.sop d hd⟩
  rw [h.nextBd]
  unfold used
  rw [hxs, List.flatMap_cons, hdm]
  rfl

/-- The handler has released every packet. -/
theorem Tx.Inv.handlerLoop (h : s.Inv free) {fuel : ℕ} (hfuel : s.held.length < fuel) :
    ∃ s' free', s.handlerLoop fuel = .ok s' ∧ s'.Inv free' ∧ s'.held = [] ∧
      s'.submitted = s.submitted := by
  induction fuel generalizing s free with
  | zero => omega
  | succ fuel ih =>
    cases hheld : s.held with
    | nil =>
      rcases h.next_free hheld with ⟨d, hnext, hsop⟩
      refine ⟨s, free, ?_, h, hheld, rfl⟩
      rw [Tx.handlerLoop, hnext]
      simp only [hsop]
      rfl
    | cons x xs =>
      rcases h.next_held hheld with ⟨d, hnext, hd, hsop⟩
      have hx : x ∈ s.held := by
        rw [hheld]
        exact List.mem_cons_self
      set t := if (s.bds d).flags.owner then s.dmaRun txNumBd else s with ht
      rcases h.wait hx hd ht with ⟨hinvt, hheldt, hsubt, hownert⟩
      rcases hinvt.findEop_ok (hheldt.trans hheld) hd hownert with ⟨e, hfind, hinv⟩
      have hfuel' : (t.release d e).held.length < fuel := by
        show t.held.tail.length < fuel
        rw [hheldt, hheld, List.tail_cons]
        rw [hheld, List.length_cons] at hfuel
        omega
      rcases ih hinv hfuel' with ⟨s', free', hloop, hinv', hnil, hsub⟩
      refine ⟨s', free', ?_, hinv', hnil, hsub.trans hsubt⟩
      rw [Tx.handlerLoop, hnext]
      simp only [hsop, if_true]
      rw [← ht]
      simp only [hownert, hfind]
      exact hloop

/-- After the handler has run, the packets given to `hdkif_output` have been freed in order. -/
theorem Tx.Inv.inthandler (h : s.Inv free) :
    ∃ s' free', s.inthandler = .ok s' ∧ s'.Inv free' ∧ s'.freed = s.submitted ∧
      s'.submitted = s.submitted := by
  have hheld := length_held_le fun x hx => (h.held x hx).ne_nil
  have hlen := h.length_eq
  unfold used at hlen
  have hfuel : s.held.length < txNumBd + 1 := by omega
  rcases h.handlerLoop hfuel with ⟨s', free', hs', hinv', hnil, hsub⟩
  refine ⟨s', free', hs', hinv', ?_, hsub⟩
  rw [← hsub, hinv'.submitted, hnil, List.map_nil, List.append_nil]

/-! ## A packet is queued -/

/-- The descriptors `a` are a packet for the DMA. -/
structure Prepared (bds bds' : ℕ → TxBdp) (pbuf : ℕ) (a : List ℕ) : Prop where
  frame : ∀ c ∉ a, bds' c = bds c
  segment : Segment (txNext bds') a none
  held : Held bds' (pbuf, a)
  owner : ∀ d, a.head? = some d → (bds' d).flags.owner = true

/-- The descriptors `d` and then `m` are filled for a packet, and the end is not marked yet. -/
structure Headed (bds bds' : ℕ → TxBdp) (pbuf d : ℕ) (m : List ℕ) : Prop where
  next_eq : ∀ c, (bds' c).next = (bds c).next
  frame : ∀ c ∉ d :: m, bds' c = bds c
  head : (bds' d).flags.sop = true ∧ (bds' d).flags.owner = true ∧ (bds' d).flags.eop = false
  rest : ∀ c ∈ m, (bds' c).flags = (bds c).flags
  pbuf_eq : ∀ c ∈ d :: m, (bds' c).pbuf = pbuf

theorem fillBds_headed {bds : ℕ → TxBdp} {m b : List ℕ} {behind : Option ℕ} {d : ℕ} {p : Packet}
    (hlen : p.lens.length = (d :: m).length)
    (hseg : Segment (txNext bds) (d :: m ++ b) behind) (hnodup : (d :: m).Nodup) :
    ∃ bds', fillBds p.pbuf p.lens
        (modifyBd bds d fun bd => bd.withFlags fun _ => ⟨true, false, true, false, p.totLen⟩)
        (some d) = .ok ⟨bds', first b behind, d :: m⟩ ∧ Headed bds bds' p.pbuf d m := by
  set bds₀ := modifyBd bds d fun bd => bd.withFlags fun _ => ⟨true, false, true, false, p.totLen⟩
    with hbds₀
  have hnext : ∀ c, (bds₀ c).next = (bds c).next :=
    fun c => modifyBd_proj TxBdp.next bds d c fun _ => rfl
  have hhead : (bds₀ d).flags = ⟨true, false, true, false, p.totLen⟩ := by
    rw [hbds₀, modifyBd_self]
    rfl
  rcases fillBds_segment p.pbuf hlen (hseg.congr fun c _ => hnext c) hnodup with
    ⟨bds', hfill, hfills⟩
  refine ⟨bds', hfill, ?_, ?_, ?_, ?_, hfills.pbuf_eq⟩
  · intro c
    rw [hfills.next_eq, hnext]
  · intro c hc
    have hcd : c ≠ d := fun h => hc (h ▸ List.mem_cons_self)
    rw [hfills.frame c hc, hbds₀, modifyBd_of_ne _ hcd]
  · rw [hfills.flags_eq, hhead]
    exact ⟨rfl, rfl, rfl⟩
  · intro c hc
    have hcd : c ≠ d := fun h => (List.nodup_cons.mp hnodup).1 (h ▸ hc)
    rw [hfills.flags_eq, hbds₀, modifyBd_of_ne _ hcd]

/-- Marking the end cuts the packet off the list. -/
theorem Headed.prepared {bds bds' : ℕ → TxBdp} {pbuf d e : ℕ} {m l : List ℕ} {behind : Option ℕ}
    (h : Headed bds bds' pbuf d m) (hle : d :: m = l ++ [e])
    (hseg : Segment (txNext bds) (d :: m) behind) (hnodup : (d :: m).Nodup)
    (hclear : ∀ c ∈ d :: m, (bds c).flags.sop = false ∧ (bds c).flags.eop = false) :
    Prepared bds (modifyBd bds' e fun bd =>
      { bd.withFlags fun f => { f with eop := true } with next := none }) pbuf (d :: m) := by
  set bds₂ := modifyBd bds' e fun bd =>
    { bd.withFlags fun f => { f with eop := true } with next := none } with hbds₂
  have he : bds₂ e = { (bds' e).withFlags fun f => { f with eop := true } with next := none } := by
    rw [hbds₂, modifyBd_self]
  have hne : ∀ c, c ≠ e → bds₂ c = bds' c := fun c hc => modifyBd_of_ne _ hc _
  have hsop : ∀ c, (bds₂ c).flags.sop = (bds' c).flags.sop := by
    intro c
    rw [hbds₂]
    exact modifyBd_proj (fun bd : TxBdp => bd.flags.sop) bds' e c fun _ => rfl
  have howner : ∀ c, (bds₂ c).flags.owner = (bds' c).flags.owner := by
    intro c
    rw [hbds₂]
    exact modifyBd_proj (fun bd : TxBdp => bd.flags.owner) bds' e c fun _ => rfl
  have hmem : e ∈ d :: m := by
    rw [hle]
    exact List.mem_append_right _ List.mem_cons_self
  refine ⟨?_, ?_, ⟨?_, ?_, l, e, hle, ⟨?_, ?_⟩, ?_⟩, ?_⟩
  · intro c hc
    have hce : c ≠ e := fun h => hc (h ▸ hmem)
    rw [hne c hce, h.frame c hc]
  · refine hseg.relink (a := e) hnodup (by rw [hle]; simp) ?_ ?_
    · intro c _ hce
      show (bds₂ c).next = (bds c).next
      rw [hne c hce, h.next_eq]
    · show (bds₂ e).next = none
      rw [he]
  · intro c hc
    obtain rfl := Option.some.inj hc
    rw [hsop]
    exact h.head.1
  · intro c hc
    rw [hsop, h.rest c hc]
    exact (hclear c (List.mem_cons_of_mem _ hc)).1
  · -- in front of the end there is no `EOP`, as there was none in the free descriptors
    intro c hc
    have hce : c ≠ e := by
      rw [hle] at hnodup
      intro h
      exact List.disjoint_of_nodup_append hnodup hc (h ▸ List.mem_cons_self)
    have hcm : c ∈ d :: m := by
      rw [hle]
      exact List.mem_append_left _ hc
    show (bds₂ c).flags.eop = false
    rw [hne c hce]
    rcases List.mem_cons.mp hcm with rfl | hcm
    · exact h.head.2.2
    · rw [h.rest c hcm]
      exact (hclear c (List.mem_cons_of_mem _ hcm)).2
  · show (bds₂ e).flags.eop = true
    rw [he]
    rfl
  · rw [he]
    exact h.pbuf_eq e hmem
  · intro c hc
    obtain rfl := Option.some.inj hc
    rw [howner]
    exact h.head.2.1

/-- What is written for a packet before it is linked. -/
theorem fillBds_prepared {bds : ℕ → TxBdp} {a b : List ℕ} {behind : Option ℕ} {d : ℕ} {p : Packet}
    (hlen : p.lens.length = a.length) (hd : a.head? = some d)
    (hseg : Segment (txNext bds) (a ++ b) behind) (hnodup : a.Nodup)
    (hclear : ∀ c ∈ a, (bds c).flags.sop = false ∧ (bds c).flags.eop = false) :
    ∃ bds', fillBds p.pbuf p.lens
        (modifyBd bds d fun bd => bd.withFlags fun _ => ⟨true, false, true, false, p.totLen⟩)
        (some d) = .ok ⟨bds', first b behind, a⟩ ∧
      Prepared bds (modifyBd bds' (a.getLastD d) fun bd =>
        { bd.withFlags fun f => { f with eop := true } with next := none }) p.pbuf a := by
  obtain ⟨m, rfl⟩ : ∃ m, a = d :: m := by
    cases a with
    | nil => simp at hd
    | cons c m =>
      obtain rfl := Option.some.inj hd
      exact ⟨m, rfl⟩
  obtain ⟨l, e, hle⟩ : ∃ l e, d :: m = l ++ [e] :=
    ⟨_, _, (List.dropLast_append_getLast (by simp)).symm⟩
  have hlast : (d :: m).getLastD d = e := by
    rw [hle]
    simp
  rcases fillBds_headed hlen hseg hnodup with ⟨bds', hfill, hheaded⟩
  rw [hlast]
  exact ⟨bds', hfill, hheaded.prepared hle (segment_append.mp hseg).1 hnodup hclear⟩

/-- The packet in `a` is linked behind the others, which are all sent. -/
structure Queued (s : Tx) (bds' : ℕ → TxBdp) (pbuf : ℕ) (a b : List ℕ) : Prop where
  segment : Segment (txNext bds') (b ++ s.used) (first a none)
  segment_new : Segment (txNext bds') a none
  free_flags : ∀ c ∈ b, (bds' c).flags.sop = false ∧ (bds' c).flags.eop = false
  held : ∀ x ∈ s.held, Held bds' x
  held_new : Held bds' (pbuf, a)
  owner : ∀ x ∈ s.held, ∀ d, x.2.head? = some d → (bds' d).flags.owner = false
  owner_new : ∀ d, a.head? = some d → (bds' d).flags.owner = true

section Link

variable {a b : List ℕ} {bds' : ℕ → TxBdp} {pbuf d : ℕ}

/-- The descriptors that are not taken for the packet. -/
theorem Tx.Inv.notMem_taken (h : s.Inv (a ++ b)) {c : ℕ} (hc : c ∈ b ++ s.used) : c ∉ a := by
  have hnodup := h.nodup
  rw [List.append_assoc] at hnodup
  intro hca
  exact List.disjoint_of_nodup_append hnodup hca hc

theorem Tx.Inv.segment_rest (h : s.Inv (a ++ b)) :
    Segment (txNext s.bds) (b ++ s.used) (s.ringEnd (a ++ b)) := by
  have hseg := h.segment
  rw [List.append_assoc] at hseg
  exact (segment_append.mp hseg).2

/-- Preparing a packet leaves the other descriptors as they are. -/
theorem Tx.Inv.prepared_eq (h : s.Inv (a ++ b)) (hprep : Prepared s.bds bds' pbuf a) {c : ℕ}
    (hc : c ∈ b ++ s.used) : bds' c = s.bds c := hprep.frame c (h.notMem_taken hc)

theorem Tx.Inv.prepared_held (h : s.Inv (a ++ b)) (hprep : Prepared s.bds bds' pbuf a) :
    ∀ x ∈ s.held, Held bds' x := by
  intro x hx
  have hframe : ∀ c ∈ x.2, bds' c = s.bds c := fun c hc =>
    h.prepared_eq hprep (List.mem_append_right _ (List.mem_flatMap.mpr ⟨x, hx, hc⟩))
  exact (h.held x hx).congr (fun c hc => by rw [hframe c hc]) (fun c hc => by rw [hframe c hc])
    fun c hc => by rw [hframe c hc]

theorem Tx.Inv.prepared_free (h : s.Inv (a ++ b)) (hprep : Prepared s.bds bds' pbuf a) :
    ∀ c ∈ b, (bds' c).flags.sop = false ∧ (bds' c).flags.eop = false := by
  intro c hc
  rw [h.prepared_eq hprep (List.mem_append_left _ hc)]
  exact h.free_flags c (List.mem_append_right _ hc)

/-- The first packet: the ring goes from the end of `b` to the start of `a`. -/
theorem Tx.Inv.link_first (h : s.Inv (a ++ b)) (s₁ : Tx) (hd : a.head? = some d)
    (hprep : Prepared s.bds s₁.bds pbuf a) (htx : s₁.txch.activeTail = s.txch.activeTail)
    (htail : s.txch.activeTail = none) :
    s₁.link d = .ok { s₁ with hdp := some d } ∧ Queued s s₁.bds pbuf a b := by
  have hend : s.ringEnd (a ++ b) = first a none := by
    unfold ringEnd
    rw [if_pos htail, first_append, first_of_head? hd, first_of_head? hd]
  refine ⟨?_, ?_, hprep.segment, h.prepared_free hprep, h.prepared_held hprep, hprep.held, ?_,
    hprep.owner⟩
  · unfold Tx.link
    rw [htx, htail]
  · rw [← hend]
    exact h.segment_rest.congr fun c hc => by rw [txNext, h.prepared_eq hprep hc]
  · rw [h.held_nil htail]
    simp

/-- The DMA sends what was queued before the new packet is linked. -/
theorem Tx.Inv.sent_prepared (h : s.Inv (a ++ b)) (s₁ : Tx)
    (hprep : Prepared s.bds s₁.bds pbuf a) (hhdp : s₁.hdp = s.hdp) {t : ℕ}
    (htail : s.txch.activeTail = some t) (ht : t ∈ b ++ s.used) :
    Sent s₁ (s₁.dmaRun txNumBd) s.held (some t) := by
  refine sent_dmaRun ?_ (h.prepared_held hprep) ?_ ?_ ?_ (by decide)
  · rw [hhdp, ← htail]
    refine h.dma.congr ?_ ?_
    · intro c hc
      rw [h.prepared_eq hprep (List.mem_append_right _ hc)]
    · intro c hc
      rw [htail] at hc
      rw [← Option.some.inj hc, h.prepared_eq hprep ht]
  · apply h.segment_used.congr
    intro c hc
    show (s₁.bds c).next = _
    rw [h.prepared_eq hprep (List.mem_append_right _ hc)]
  · have hlen := h.length_eq
    unfold Tx.used at hlen
    omega
  · intro c hc hne
    rw [← Option.some.inj hc]
    exact h.getLast_used htail hne

/-- The packet is queued once the pointer at the end of the others is written. -/
theorem Tx.Inv.queued_behind (h : s.Inv (a ++ b)) {s₁ s₂ : Tx} (hd : a.head? = some d)
    (hprep : Prepared s.bds s₁.bds pbuf a) {t : ℕ} (htail : s.txch.activeTail = some t)
    (hlast : (b ++ s.used).getLast? = some t) (hsent : Sent s₁ s₂ s.held (some t)) :
    Queued s (modifyBd s₂.bds t fun bd => { bd with next := some d }) pbuf a b := by
  have ht : t ∈ b ++ s.used := List.mem_of_getLast? hlast
  set bds₃ := modifyBd s₂.bds t fun bd => { bd with next := some d } with hbds₃
  have hflags : ∀ c, (bds₃ c).flags = (s₂.bds c).flags :=
    fun c => modifyBd_proj TxBdp.flags s₂.bds t c fun _ => rfl
  have hpbuf : ∀ c, (bds₃ c).pbuf = (s₂.bds c).pbuf :=
    fun c => modifyBd_proj TxBdp.pbuf s₂.bds t c fun _ => rfl
  have hnew : ∀ c ∈ a, bds₃ c = s₁.bds c := by
    intro c hc
    have hct : c ≠ t := by
      intro hct
      exact h.notMem_taken ht (hct ▸ hc)
    rw [hbds₃, modifyBd_of_ne _ hct]
    apply hsent.frame
    intro hcu
    exact h.notMem_taken (List.mem_append_right _ hcu) hc
  refine ⟨?_, ?_, ?_, ?_, ?_, ?_, ?_⟩
  · have hend : s.ringEnd (a ++ b) = none := by
      unfold ringEnd
      rw [if_neg (by rw [htail]; simp)]
    have hnodup := h.nodup
    rw [List.append_assoc] at hnodup
    refine Segment.relink (hend ▸ h.segment_rest) hnodup.of_append_right hlast ?_ ?_
    · intro c hc hct
      show (bds₃ c).next = (s.bds c).next
      rw [hbds₃, modifyBd_of_ne _ hct, hsent.same.next_eq, h.prepared_eq hprep hc]
    · show (bds₃ t).next = first a none
      rw [hbds₃, modifyBd_self, first_of_head? hd]
  · apply hprep.segment.congr
    intro c hc
    show (bds₃ c).next = _
    rw [hnew c hc]
  · intro c hc
    rw [hflags, hsent.same.sop_eq, hsent.same.eop_eq]
    exact h.prepared_free hprep c hc
  · intro x hx
    refine (h.prepared_held hprep x hx).congr ?_ ?_ ?_
    · intro c _
      rw [hflags, hsent.same.sop_eq]
    · intro c _
      rw [hflags, hsent.same.eop_eq]
    · intro c _
      rw [hpbuf, hsent.same.pbuf_eq]
  · exact hprep.held.congr (fun c hc => by rw [hnew c hc]) (fun c hc => by rw [hnew c hc])
      fun c hc => by rw [hnew c hc]
  · intro x hx c hc
    rw [hflags]
    exact hsent.owner x hx c hc
  · intro c hc
    rw [hnew c (List.mem_of_mem_head? hc)]
    exact hprep.owner c hc

/-- Linking the packet in `a`, for which there is room. -/
theorem Tx.Inv.link (h : s.Inv (a ++ b)) (s₁ : Tx)
    (hroom : s.txch.activeTail ≠ none → b ++ s.used ≠ []) (hd : a.head? = some d)
    (hprep : Prepared s.bds s₁.bds pbuf a) (htx : s₁.txch.activeTail = s.txch.activeTail)
    (hhdp : s₁.hdp = s.hdp) :
    ∃ bds', s₁.link d = .ok { s₁ with bds := bds', hdp := some d } ∧
      Queued s bds' pbuf a b := by
  cases htail : s.txch.activeTail with
  | none => exact ⟨s₁.bds, h.link_first s₁ hd hprep htx htail⟩
  | some t =>
    have hlast : (b ++ s.used).getLast? = some t := by
      have hlast := h.activeTail t htail
      rwa [List.append_assoc, List.getLast?_append_of_ne_nil _ (hroom (by rw [htail]; simp))]
        at hlast
    have hsent := h.sent_prepared s₁ hprep hhdp htail (List.mem_of_getLast? hlast)
    obtain ⟨s₂, hs₂⟩ : ∃ s₂, s₁.dmaRun txNumBd = s₂ := ⟨_, rfl⟩
    rw [hs₂] at hsent
    refine ⟨_, ?_, h.queued_behind hd hprep htail hlast hsent⟩
    have hidle : s₂.hdp = none := by rw [hsent.eq]
    unfold Tx.link
    rw [htx, htail]
    simp only [hs₂, hsent.eoq t rfl, hidle, and_self, if_true]
    rw [hsent.eq]

/-- The list with the queued packet. `s'` is the state in which `hdkif_transmit` returns. -/
theorem Tx.Inv.queued (h : s.Inv (a ++ b)) {s' : Tx} {p : Packet} (hd : a.head? = some d)
    (hroom : s.txch.activeTail ≠ none → b ++ s.used ≠ []) (hq : Queued s s'.bds p.pbuf a b)
    (hs' : s' = { s with
      bds := s'.bds
      txch := ⟨first (b ++ s.used) (s.ringEnd (a ++ b)), some (a.getLastD d),
        s.txch.nextBdToProcess⟩
      hdp := some d
      submitted := s.submitted ++ [p.pbuf]
      held := s.held ++ [(p.pbuf, a)]
      overwritten := s.overwritten ++ a.filter fun d => d ∈ s.held.flatMap Prod.snd }) :
    s'.Inv b := by
  have hne : a ≠ [] := by
    intro h0
    rw [h0] at hd
    simp at hd
  have hheld : s'.held = s.held ++ [(p.pbuf, a)] := by rw [hs']
  have hused : s'.used = s.used ++ a := by
    unfold used
    rw [hheld, List.flatMap_append, List.flatMap_singleton]
  have htail : s'.txch.activeTail = some (a.getLastD d) := by rw [hs']
  have hperm : (b ++ (s.used ++ a)).Perm (a ++ b ++ s.used) := by
    rw [← List.append_assoc, List.append_assoc a]
    exact List.perm_append_comm
  have hend : s'.ringEnd b = none := by
    unfold ringEnd
    rw [if_neg (by rw [htail]; simp)]
  refine ⟨?_, ?_, ?_, ?_, ?_, ?_, hq.free_flags, ?_, ?_, ?_, ?_⟩
  · rw [hused]
    exact hperm.trans h.perm
  · rw [hused, hend, ← List.append_assoc]
    exact segment_append.mpr ⟨hq.segment, hq.segment_new⟩
  · -- `curr_bd` after the loop is the next free descriptor, or the one of the oldest packet
    have hfree : s'.txch.freeHead = first (b ++ s.used) (s.ringEnd (a ++ b)) := by rw [hs']
    rw [hused, ← List.append_assoc, first_append (b ++ s.used), hfree]
    by_cases htail : s.txch.activeTail = none
    · unfold Tx.ringEnd
      rw [if_pos htail, first_append a, first_of_ne_nil hne]
    · exact first_of_ne_nil (hroom htail) _ _
  · have hnext : s'.txch.nextBdToProcess = s.txch.nextBdToProcess := by rw [hs']
    rw [hused, List.append_assoc, hnext]
    exact h.nextBd
  · intro t ht
    rw [htail] at ht
    rw [← Option.some.inj ht, hused, ← List.append_assoc, List.getLast?_append_of_ne_nil _ hne]
    cases a with
    | nil => exact absurd rfl hne
    | cons c m => rw [List.getLastD_cons, List.getLast?_cons, List.getLastD_eq_getLast?]
  · intro h0
    rw [htail] at h0
    simp at h0
  · rw [hheld]
    intro x hx
    rcases List.mem_append.mp hx with hx | hx
    · exact hq.held x hx
    · rw [List.mem_singleton.mp hx]
      exact hq.held_new
  · exact .busy s.held (p.pbuf, a) hheld (by rw [hs', hd]) hq.owner hq.owner_new
  · have hsub : s'.submitted = s.submitted ++ [p.pbuf] := by rw [hs']
    have hfreed : s'.freed = s.freed := by rw [hs']
    rw [hsub, hfreed, hheld, h.submitted, List.map_append, List.append_assoc]
    rfl
  · have hover : s'.overwritten = s.overwritten ++ a.filter fun d => d ∈ s.used := by
      rw [hs']
      rfl
    rw [hover, h.overwritten, List.nil_append, List.filter_eq_nil_iff]
    intro c hc
    have hcu : c ∉ s.used := fun hcu => h.notMem_taken (List.mem_append_right _ hcu) hc
    simpa using hcu

end Link

/-- What is queued when there is room for it keeps the list. -/
theorem Tx.Inv.transmit (h : s.Inv free) {p : Packet} (hlen : p.lens.length ≤ free.length)
    (hroom : s.txch.activeTail ≠ none → p.lens.length < txNumBd) :
    ∃ s' free', s.transmit p = .ok s' ∧ s'.Inv free' ∧
      s'.submitted = s.submitted ++ [p.pbuf] := by
  obtain ⟨a, b, rfl, ha⟩ : ∃ a b, free = a ++ b ∧ p.lens.length = a.length :=
    ⟨_, _, (List.take_append_drop p.lens.length free).symm, by rw [List.length_take]; omega⟩
  have hne : a ≠ [] := by
    intro h0
    rw [h0] at ha
    exact p.ne_nil (List.length_eq_zero_iff.mp ha)
  obtain ⟨d, hd⟩ : ∃ d, a.head? = some d := by
    cases a with
    | nil => exact absurd rfl hne
    | cons c m => exact ⟨c, rfl⟩
  have hseg := h.segment
  rw [List.append_assoc] at hseg
  have hfree : s.txch.freeHead = some d := by
    rw [h.freeHead, List.append_assoc]
    exact first_append_of_head? hd _ _
  rcases fillBds_prepared ha hd hseg h.nodup.of_append_left.of_append_left
    (fun c hc => h.free_flags c (List.mem_append_left _ hc)) with ⟨bds', hfill, hprep⟩
  have hroom' : s.txch.activeTail ≠ none → b ++ s.used ≠ [] := by
    intro ht h0
    have hlt := hroom ht
    have hall := h.length_eq
    rcases List.append_eq_nil_iff.mp h0 with ⟨rfl, hu⟩
    rw [hu, List.append_nil, ← ha, List.length_nil] at hall
    omega
  set bds₁ := modifyBd bds' (a.getLastD d) fun bd =>
    { bd.withFlags fun f => { f with eop := true } with next := none } with hbds₁
  set s₁ : Tx := { s with
    bds := bds₁
    txch := { s.txch with freeHead := first (b ++ s.used) (s.ringEnd (a ++ b)) }
    submitted := s.submitted ++ [p.pbuf]
    held := s.held ++ [(p.pbuf, a)]
    overwritten := s.overwritten ++ a.filter fun d => d ∈ s.held.flatMap Prod.snd } with hs₁
  rcases h.link s₁ hroom' hd hprep rfl rfl with ⟨bds₃, hlink, hqueued⟩
  have htransmit : s.transmit p = .ok { s₁ with
      bds := bds₃
      hdp := some d
      txch := { s₁.txch with activeTail := some (a.getLastD d) } } := by
    unfold Tx.transmit
    rw [hfree]
    simp only [hfill, bind, Except.bind]
    rw [← hbds₁, ← hs₁, hlink]
    rfl
  exact ⟨_, b, htransmit, h.queued hd hroom' hqueued rfl, rfl⟩

end Inv

/-! ## Whole runs -/

/-- The packet of a call of `hdkif_output`. -/
def TxEvent.sent : TxEvent → List ℕ
  | .output p => [p.pbuf]
  | .dma => []
  | .inthandler => []

/-- `hdkif_output` finds enough descriptors that are not in use. After the first packet one more
has to stay, since the list then ends at `active_tail`. -/
def Tx.Room (s : Tx) : TxEvent → Prop
  | .output p => p.lens.length + s.used.length ≤ txNumBd ∧
      (s.txch.activeTail ≠ none → p.lens.length < txNumBd)
  | .dma => True
  | .inthandler => True

instance (s : Tx) (e : TxEvent) : Decidable (s.Room e) :=
  match e with
  | .output _ => inferInstanceAs (Decidable (_ ∧ _))
  | .dma => .isTrue trivial
  | .inthandler => .isTrue trivial

/-! ### The start -/

theorem initTxBds_lt (ram : ℕ → TxBdp) {numBd i : ℕ} (hi : i < numBd) :
    (initTxBds ram numBd i).next = some (i + 1) ∧
      (initTxBds ram numBd i).flags = ⟨false, false, false, false, 0⟩ := by
  induction numBd with
  | zero => omega
  | succ n ih =>
    have hsucc : initTxBds ram (n + 1) = modifyBd (initTxBds ram n) n fun bd =>
        { bd with next := some (n + 1), flags := ⟨false, false, false, false, 0⟩ } := by
      unfold initTxBds
      rw [List.range_succ, List.foldl_append]
      rfl
    rw [hsucc]
    by_cases hin : i = n
    · rw [hin, modifyBd_self]
      exact ⟨rfl, rfl⟩
    · rw [modifyBd_of_ne _ hin]
      exact ih (by omega)

theorem Tx.inv_hwInitTx (ram : ℕ → TxBdp) : (hwInitTx ram).Inv (List.range txNumBd) := by
  have hbds : (hwInitTx ram).bds = modifyBd (initTxBds ram txNumBd) (txNumBd - 1)
      fun bd => { bd with next := some 0 } := rfl
  have hother : ∀ i, i ≠ txNumBd - 1 → (hwInitTx ram).bds i = initTxBds ram txNumBd i := by
    intro i hi
    rw [hbds, modifyBd_of_ne _ hi]
  have hlast : (hwInitTx ram).bds (txNumBd - 1)
      = { initTxBds ram txNumBd (txNumBd - 1) with next := some 0 } := by
    rw [hbds, modifyBd_self]
  have hused : (hwInitTx ram).used = [] := rfl
  have hfirst : first (List.range txNumBd) none = some 0 := by decide
  have htail : (hwInitTx ram).txch.activeTail = none := rfl
  refine ⟨?_, ?_, ?_, ?_, by simp [htail], fun _ => rfl, ?_, ?_, ?_, rfl, rfl⟩
  · rw [hused, List.append_nil]
  · rw [hused, List.append_nil]
    refine (segment_range fun i hi => (initTxBds_lt ram hi).1).relink (a := txNumBd - 1)
      List.nodup_range (by decide) ?_ ?_
    · intro i _ hi
      rw [txNext, hother i hi]
    · unfold ringEnd
      rw [txNext, hlast, if_pos htail, hfirst]
  · rw [hused, List.append_nil, hfirst]
    rfl
  · rw [hused, List.nil_append, hfirst]
    rfl
  · intro i hi
    have hflags : ((hwInitTx ram).bds i).flags = (initTxBds ram txNumBd i).flags := by
      by_cases hi' : i = txNumBd - 1
      · rw [hi', hlast]
      · rw [hother i hi']
    rw [hflags, (initTxBds_lt ram (List.mem_range.mp hi)).2]
    exact ⟨rfl, rfl⟩
  · intro x hx
    exact absurd hx List.not_mem_nil
  · refine .idle rfl (by simp [htail]) ?_
    intro x hx
    exact absurd hx List.not_mem_nil

/-! ### A step and a run -/

theorem Tx.Inv.output {s : Tx} {free : List ℕ} (h : s.Inv free) {p : Packet}
    (hroom : s.Room (.output p)) : ∃ s' free', s.output p = .ok s' ∧ s'.Inv free' ∧
      s'.submitted = s.submitted ++ [p.pbuf] := by
  rcases hroom with ⟨hlen, hlt⟩
  have hall := h.length_eq
  have hpos := List.length_pos_of_ne_nil p.ne_nil
  unfold Tx.output
  split
  · have hpad : (minPktLen :: p.lens.tail).length = p.lens.length := by
      rw [List.length_cons, List.length_tail]
      omega
    apply h.transmit
    · show (minPktLen :: p.lens.tail).length ≤ _
      omega
    · intro ht
      show (minPktLen :: p.lens.tail).length < _
      rw [hpad]
      exact hlt ht
  · exact h.transmit (by omega) hlt

theorem Tx.dmaComplete_submitted (s : Tx) : s.dmaComplete.submitted = s.submitted := by
  unfold dmaComplete
  split
  · rfl
  · split <;> rfl

theorem Tx.Inv.step {s : Tx} {free : List ℕ} (h : s.Inv free) {e : TxEvent} (hroom : s.Room e) :
    ∃ s' free', s.step e = .ok s' ∧ s'.Inv free' ∧ s'.submitted = s.submitted ++ e.sent := by
  cases e with
  | output p => exact h.output hroom
  | dma =>
    refine ⟨_, free, rfl, h.dmaComplete, ?_⟩
    rw [s.dmaComplete_submitted]
    exact (List.append_nil _).symm
  | inthandler =>
    rcases h.inthandler with ⟨s', free', hs', hinv', -, hsub⟩
    exact ⟨s', free', hs', hinv', by rw [hsub]; exact (List.append_nil _).symm⟩

/-- If there is always room, no descriptor is filled before its packet is released, the packets
that were freed are the first ones given to `hdkif_output`, and the handler frees the others. -/
theorem releases_of_room (ram : ℕ → TxBdp) {events : List TxEvent}
    (h : Run.Along Tx.step Tx.Room (hwInitTx ram) events) (k : ℕ) :
    ∃ s s', Run.exec Tx.step (hwInitTx ram) (events.take k) = .ok s ∧ s.overwritten = [] ∧
      s.freed <+: (events.take k).flatMap TxEvent.sent ∧
      s.step .inthandler = .ok s' ∧ s'.freed = (events.take k).flatMap TxEvent.sent := by
  have hstep : ∀ (s : Tx) (e : TxEvent), (∃ free, s.Inv free) → s.Room e →
      ∃ s', s.step e = .ok s' ∧ (∃ free, s'.Inv free) ∧ s'.submitted = s.submitted ++ e.sent := by
    intro s e hinv hroom
    rcases hinv with ⟨free, hinv⟩
    rcases hinv.step hroom with ⟨s', free', hs', hinv', hsub⟩
    exact ⟨s', hs', ⟨free', hinv'⟩, hsub⟩
  rcases Run.exec_log_of_along hstep ⟨_, Tx.inv_hwInitTx ram⟩ (h.take k) with
    ⟨s, hs, ⟨free, hinv⟩, hsub⟩
  rw [show (hwInitTx ram).submitted = [] from rfl, List.nil_append] at hsub
  rcases hinv.inthandler with ⟨s', free', hs', -, hfreed, -⟩
  refine ⟨s, s', hs, hinv.overwritten, ?_, hs', hfreed.trans hsub⟩
  rw [← hsub, hinv.submitted]
  exact List.prefix_append _ _

/-- Descriptor memory after a reset. -/
def TxBdp.zero : TxBdp := ⟨none, 0, ⟨false, false, false, false, 0⟩, 0⟩

/-- A packet with `n` parts behind the first one, of 100 bytes each. -/
def Packet.ofParts (pbuf n : ℕ) : Packet :=
  ⟨pbuf, 100 * (n + 1).toUInt16, List.replicate (n + 1) 100, by simp⟩

/-- Two packets that are sent before the handler runs. -/
theorem releases_of_room_two :
    ∃ s s', Run.exec Tx.step (hwInitTx fun _ => .zero)
        (([.output (.ofParts 1000 0), .dma, .output (.ofParts 2000 2), .inthandler] :
          List TxEvent).take 3) = .ok s ∧ s.overwritten = [] ∧
      s.freed <+: [1000, 2000] ∧ s.step .inthandler = .ok s' ∧ s'.freed = [1000, 2000] :=
  releases_of_room (fun _ => .zero) (by decide +kernel) 3

/-- A packet with a part for each descriptor is not released when one more packet is sent before
the handler runs, since that overwrites its first descriptor. -/
theorem unreleased_overwritten :
    ¬ ∀ (ram : ℕ → TxBdp) (events : List TxEvent),
      ∃ s s', Run.exec Tx.step (hwInitTx ram) events = .ok s ∧ s.overwritten = [] ∧
        s.freed <+: events.flatMap TxEvent.sent ∧
        s.step .inthandler = .ok s' ∧ s'.freed = events.flatMap TxEvent.sent := by
  intro h
  set events : List TxEvent := [.output (.ofParts 1000 203), .dma, .output (.ofParts 2000 0)]
    with hevents
  rcases h (fun _ => .zero) events with ⟨s, s', hs, -, -, hs', hfreed⟩
  -- the handler finds the second packet at the first descriptor, and nothing behind it
  have hrun : ((do
      let s ← Run.exec Tx.step (hwInitTx fun _ => .zero) events
      let s' ← s.step .inthandler
      return (s.overwritten, s'.freed)) : Except TxFault (List ℕ × List ℕ)).toOption
      = some ([0], [2000]) := by decide +kernel
  rw [hs] at hrun
  simp only [bind, Except.bind, hs'] at hrun
  have hwrong : s'.freed = [2000] := congrArg Prod.snd (Option.some.inj hrun)
  rw [show s'.freed = [1000, 2000] from hfreed] at hwrong
  exact absurd hwrong (by decide)

end Cannelloni.Hdkif
