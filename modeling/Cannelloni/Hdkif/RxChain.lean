import Mathlib.Algebra.GroupWithZero.Nat
import Cannelloni.Hdkif.RxRing
import Cannelloni.Lwip.Pbuf

/-!
# The chains of the receive ring

The pbufs of the active descriptors, in the order of the descriptors: each points to the next one
or nowhere, since `pbuf_alloc` links those of one allocation only. `collect_closed` says that the
`do` loop of the handler writes the missing links of a packet, and the lengths.
-/

namespace Cannelloni.Hdkif

open Linked

/-- The pbufs of descriptors. -/
abbrev pbufOf (bds : ℕ → RxBdp) (d : ℕ) : ℕ := (bds d).pbuf

/-- The `next` pointers of pbufs. -/
abbrev nextPbuf (pbufs : ℕ → Pbuf) (a : ℕ) : Option ℕ := (pbufs a).next

/-! ## `pbuf_alloc` -/

/-- The lengths of the pbufs that `pbuf_alloc` takes from the pool. -/
def poolLens : ℕ → UInt16 → List UInt16
  | 0, _ => []
  | passes + 1, remLen =>
    let qlen := if remLen < pbufPoolBufsize then remLen else pbufPoolBufsize
    qlen :: if 0 < remLen - qlen then poolLens passes (remLen - qlen) else []

/-- `pbuf_alloc` with `PBUF_POOL`. It does not take more passes than this. -/
def allocLens (length : UInt16) : List UInt16 := poolLens 47 length

/-- A chain as `pbuf_alloc` returns it: with these lengths, and of different pbufs. -/
structure PoolChain (length : UInt16) (new : NewPbufs) : Prop where
  lens : new.chain.map Prod.snd = allocLens length
  nodup : (new.chain.map Prod.fst).Nodup

/-- What a chain of the pool adds up to. -/
structure PoolLens (length : ℕ) (lens : List UInt16) : Prop where
  sum : (lens.map UInt16.toNat).sum = length
  le : ∀ len ∈ lens, len.toNat ≤ 1400
  fits : ∀ n, 0 < n → length ≤ 1400 * n → lens.length ≤ n

theorem poolLens_spec {passes : ℕ} {remLen : UInt16} (h : remLen.toNat < 1400 * passes) :
    PoolLens remLen.toNat (poolLens passes remLen) := by
  induction passes generalizing remLen with
  | zero => exact absurd h (Nat.not_lt_zero _)
  | succ passes ih =>
    have hsize : pbufPoolBufsize.toNat = 1400 := rfl
    by_cases hlt : remLen < pbufPoolBufsize
    · have hlens : poolLens (passes + 1) remLen = [remLen] := by
        simp only [poolLens, if_pos hlt, UInt16.sub_self]
        rfl
      have hle : remLen.toNat < 1400 := UInt16.lt_iff_toNat_lt.mp hlt
      rw [hlens]
      exact ⟨by simp, by simpa using hle.le, fun n hn _ => hn⟩
    · have hle : pbufPoolBufsize ≤ remLen := UInt16.not_lt.mp hlt
      have hle' : 1400 ≤ remLen.toNat := UInt16.le_iff_toNat_le.mp hle
      have hsub : (remLen - pbufPoolBufsize).toNat = remLen.toNat - 1400 :=
        UInt16.toNat_sub_of_le _ _ hle
      by_cases hpos : 0 < remLen - pbufPoolBufsize
      · have hlens : poolLens (passes + 1) remLen
            = pbufPoolBufsize :: poolLens passes (remLen - pbufPoolBufsize) := by
          simp only [poolLens, if_neg hlt, if_pos hpos]
        have hpos' : 0 < remLen.toNat - 1400 := hsub ▸ UInt16.lt_iff_toNat_lt.mp hpos
        have hrest : PoolLens (remLen - pbufPoolBufsize).toNat
            (poolLens passes (remLen - pbufPoolBufsize)) := ih (by omega)
        rw [hlens]
        refine ⟨?_, List.forall_mem_cons.mpr ⟨hsize.le, hrest.le⟩, ?_⟩
        · rw [List.map_cons, List.sum_cons, hrest.sum, hsize, hsub]
          omega
        · intro n hn hlen
          have hfits := hrest.fits (n - 1) (by omega) (by omega)
          rw [List.length_cons]
          omega
      · have hlens : poolLens (passes + 1) remLen = [pbufPoolBufsize] := by
          simp only [poolLens, if_neg hlt, if_neg hpos]
        have hzero : (remLen - pbufPoolBufsize).toNat ≤ 0 :=
          UInt16.le_iff_toNat_le.mp (UInt16.not_lt.mp hpos)
        rw [hlens]
        refine ⟨?_, by simp [hsize], fun n hn _ => hn⟩
        rw [List.map_singleton, List.sum_singleton, hsize]
        omega

theorem allocLens_spec (length : UInt16) : PoolLens length.toNat (allocLens length) := by
  have hlt := length.toNat_lt
  exact poolLens_spec (by omega)

/-! ## Pbufs in order -/

/-- The pbufs `qs` are different, have their lengths, and point to the next one or nowhere. -/
structure Stored (pbufs : ℕ → Pbuf) (qs : List (ℕ × UInt16)) : Prop where
  nodup : (qs.map Prod.fst).Nodup
  loose : Loose (nextPbuf pbufs) (qs.map Prod.fst)
  len_eq : ∀ q ∈ qs, (pbufs q.1).len = q.2

section Stored

variable {pbufs pbufs' : ℕ → Pbuf} {q : ℕ × UInt16} {qs qs' : List (ℕ × UInt16)}

theorem Stored.congr (h : Stored pbufs qs) (hpbufs : ∀ q ∈ qs, pbufs' q.1 = pbufs q.1) :
    Stored pbufs' qs where
  nodup := h.nodup
  loose := by
    apply h.loose.congr
    intro a ha
    rcases List.mem_map.mp ha with ⟨q, hq, rfl⟩
    exact congrArg Pbuf.next (hpbufs q hq)
  len_eq := fun q hq => (congrArg Pbuf.len (hpbufs q hq)).trans (h.len_eq q hq)

theorem Stored.of_append_right (h : Stored pbufs (qs ++ qs')) : Stored pbufs qs' := by
  rcases h with ⟨hnodup, hloose, hlen⟩
  rw [List.map_append] at hnodup hloose
  exact ⟨hnodup.of_append_right, hloose.of_append_right,
    fun q hq => hlen q (List.mem_append_right _ hq)⟩

/-- The pbufs behind the first one stay as they are when it is written. -/
theorem Stored.tail (h : Stored pbufs (q :: qs)) (p : Pbuf) :
    Stored (Function.update pbufs q.1 p) qs := by
  have hsplit : Stored pbufs ([q] ++ qs) := h
  have htail : Stored pbufs qs := hsplit.of_append_right
  apply htail.congr
  intro q' hq'
  refine Function.update_of_ne ?_ _ _
  intro heq
  exact (List.nodup_cons.mp h.nodup).1 (heq ▸ List.mem_map_of_mem hq')

/-- A pbuf that points nowhere is made to point to the next one. -/
theorem Stored.link {a : ℕ} (h : Stored pbufs (q :: (qs ++ qs')))
    (ha : (qs.map Prod.fst).head? = some a) :
    (if (pbufs q.1).next = none then some a else (pbufs q.1).next) = some a := by
  have hloose := h.loose.1
  rw [List.map_append, List.head?_append, ha] at hloose
  split
  · rfl
  · next hnext => exact hloose.resolve_left hnext

/-- `pbuf_alloc` leaves other pbufs alone. -/
theorem storeChain_of_not_mem {a : ℕ} (ha : a ∉ qs.map Prod.fst) :
    storeChain qs pbufs a = pbufs a := by
  induction qs generalizing pbufs with
  | nil => rfl
  | cons q qs ih =>
    rw [List.map_cons, List.mem_cons, not_or] at ha
    rw [storeChain, ih ha.2, Function.update_of_ne ha.1]

/-- A chain that `pbuf_alloc` has made. -/
theorem stored_storeChain (hnodup : (qs.map Prod.fst).Nodup) :
    Stored (storeChain qs pbufs) qs := by
  induction qs generalizing pbufs with
  | nil => exact ⟨List.nodup_nil, trivial, by simp⟩
  | cons q qs ih =>
    have hnodup' := List.nodup_cons.mp hnodup
    obtain ⟨stored, hstored⟩ : ∃ stored, storeChain (q :: qs) pbufs = stored := ⟨_, rfl⟩
    have hrest : Stored stored qs := by
      rw [← hstored]
      exact ih hnodup'.2
    have hself : stored q.1
        = ⟨qs.head?.map Prod.fst, q.2, q.2 + sumLens (qs.map Prod.snd)⟩ := by
      rw [← hstored, storeChain, storeChain_of_not_mem hnodup'.1, Function.update_self]
    rw [hstored]
    refine ⟨hnodup, ⟨.inr ?_, hrest.loose⟩, List.forall_mem_cons.mpr ⟨?_, hrest.len_eq⟩⟩
    · show (stored q.1).next = _
      rw [hself]
      exact List.head?_map.symm
    · rw [hself]

/-- A new chain is put behind pbufs it has nothing to do with. -/
theorem Stored.append (h : Stored pbufs qs) (hnodup : (qs'.map Prod.fst).Nodup)
    (hfresh : ∀ q ∈ qs, q.1 ∉ qs'.map Prod.fst) :
    Stored (storeChain qs' pbufs) (qs ++ qs') := by
  have hold : Stored (storeChain qs' pbufs) qs :=
    h.congr fun q hq => storeChain_of_not_mem (hfresh q hq)
  have hnew : Stored (storeChain qs' pbufs) qs' := stored_storeChain hnodup
  refine ⟨?_, ?_, List.forall_mem_append.mpr ⟨hold.len_eq, hnew.len_eq⟩⟩
  · rw [List.map_append]
    apply hold.nodup.append hnodup
    intro a ha
    rcases List.mem_map.mp ha with ⟨q, hq, rfl⟩
    exact hfresh q hq
  · rw [List.map_append]
    exact hold.loose.append hnew.loose

end Stored

/-! ## The chain of a packet -/

/-- The pbufs when the chain of a packet is closed. -/
def Collected.closed (c : Collected) : ℕ → Pbuf :=
  Function.update c.pbufs c.pbuf { c.pbufs c.pbuf with next := none }

/-- The pbufs of the descriptors are linked up to the last one, with the lengths that were
received, and `totLen` is what is left in the first one and all behind it. -/
def Spells (bds : ℕ → RxBdp) (pbufs : ℕ → Pbuf) : UInt16 → List ℕ → Prop
  | _, [] => True
  | totLen, d :: p =>
    pbufs (pbufOf bds d) = ⟨(p.map (pbufOf bds)).head?, (bds d).bufoffLen, totLen⟩ ∧
      Spells bds pbufs (totLen - (bds d).bufoffLen) p

/-- What the `do` loop does to the pbufs, with the closing of the chain. -/
structure Collects (bds : ℕ → RxBdp) (pbufs : ℕ → Pbuf) (c : Collected) (totLen : UInt16)
    (lenToAlloc : UInt32) (p : List ℕ) (qs : List (ℕ × UInt16)) : Prop where
  lenToAlloc_eq : c.lenToAlloc = lenToAlloc + .ofNat (qs.map fun q => q.2.toNat).sum
  frame : ∀ a ∉ qs.map Prod.fst, c.closed a = pbufs a
  spells : Spells bds c.closed totLen p

theorem collect_closed {bds : ℕ → RxBdp} {l : List ℕ} {e : ℕ} {behind : Option ℕ}
    {qs rest : List (ℕ × UInt16)} {pbufs : ℕ → Pbuf} (hends : EndsPacket (flagsOf bds) l e)
    (hseg : Segment (nextOf bds) (l ++ [e]) behind)
    (hqs : (l ++ [e]).map (pbufOf bds) = qs.map Prod.fst) (hstored : Stored pbufs (qs ++ rest))
    {atNull : Option ℕ} {totLen : UInt16} {fuel start : ℕ}
    (hstart : first (l ++ [e]) none = some start) {exLen lenToAlloc : UInt32} {c : Collected}
    (hc : collect bds atNull totLen fuel start exLen lenToAlloc pbufs = .ok c) :
    Collects bds pbufs c (totLen.toUInt32 - exLen).toUInt16 lenToAlloc (l ++ [e]) qs := by
  induction l generalizing fuel start exLen lenToAlloc pbufs qs with
  | nil =>
    obtain ⟨q, rfl⟩ : ∃ q, qs = [q] := List.length_eq_one_iff.mp (by
      rw [← List.length_map (f := Prod.fst), ← hqs]
      rfl)
    have he : pbufOf bds e = q.1 := (List.cons.inj hqs).1
    obtain rfl := Option.some.inj hstart
    cases fuel with
    | zero => cases hc
    | succ fuel =>
      rcases collect_eop hends.eop atNull totLen fuel exLen lenToAlloc pbufs with ⟨next, hc'⟩
      obtain rfl := Except.ok.inj (hc'.symm.trans hc)
      have hlen : (pbufs (bds e).pbuf).len = q.2 :=
        (congrArg (fun a => (pbufs a).len) he).trans (hstored.len_eq q List.mem_cons_self)
      refine ⟨?_, ?_, ?_, trivial⟩
      · simp only [hlen, List.map_singleton, List.sum_singleton, UInt32.ofNat_uInt16ToNat]
      · intro a ha
        have hne : a ≠ (bds e).pbuf := fun h => ha (by rw [h]; simp [he])
        simp only [Collected.closed, Function.update_of_ne hne]
      · simp only [Collected.closed, Function.update_self]
        rfl
  | cons d l ih =>
    rcases qs with _ | ⟨q, qs⟩
    · cases hqs
    rw [List.cons_append] at hqs hseg hstart hstored ⊢
    rcases List.cons.inj hqs with ⟨hd, hqs⟩
    rcases hseg with ⟨hnext, hseg⟩
    obtain rfl := Option.some.inj hstart
    obtain ⟨d', hd'⟩ : ∃ d', (l ++ [e]).head? = some d' := by
      cases l <;> exact ⟨_, rfl⟩
    have hnext' : (bds d).next = some d' := hnext.trans (first_of_head? hd' behind)
    have hhead : ((l ++ [e]).map (pbufOf bds)).head? = some (bds d').pbuf := by
      rw [List.head?_map, hd']
      rfl
    have hd : (bds d).pbuf = q.1 := hd
    have hmem : q.1 ∉ qs.map Prod.fst := by
      intro hin
      apply (List.nodup_cons.mp hstored.nodup).1
      rw [List.map_append]
      exact List.mem_append_left _ hin
    cases fuel with
    | zero => cases hc
    | succ fuel =>
      -- the pbuf points to the one of the next descriptor, now if not before
      have hlink : (if (pbufs q.1).next = none then some (bds d').pbuf else (pbufs q.1).next)
          = some (bds d').pbuf := hstored.link (hqs ▸ hhead)
      have hlen : (pbufs q.1).len = q.2 := hstored.len_eq q List.mem_cons_self
      rw [collect_next (hends.not_eop d List.mem_cons_self) hnext', hd, hlink, hlen] at hc
      have hrest := ih hends.tail hseg hqs (hstored.tail _) (first_of_head? hd' none) hc
      refine ⟨?_, ?_, ?_, ?_⟩
      · rw [hrest.lenToAlloc_eq, List.map_cons, List.sum_cons, UInt32.ofNat_add,
          UInt32.ofNat_uInt16ToNat, UInt32.add_assoc]
      · intro a ha
        rw [List.map_cons, List.mem_cons, not_or] at ha
        rw [hrest.frame a ha.2, Function.update_of_ne ha.1]
      · rw [show pbufOf bds d = q.1 from hd, hrest.frame _ hmem, Function.update_self, hhead]
      · have htot : (totLen.toUInt32 - (exLen + (bds d).bufoffLen.toUInt32)).toUInt16
            = (totLen.toUInt32 - exLen).toUInt16 - (bds d).bufoffLen := by
          have hsub : totLen.toUInt32 - (exLen + (bds d).bufoffLen.toUInt32)
              = totLen.toUInt32 - exLen - (bds d).bufoffLen.toUInt32 := by grind
          rw [hsub, UInt32.toUInt16_sub, UInt16.toUInt16_toUInt32]
        rw [← htot]
        exact hrest.spells

/-- A chain that starts at `q` and has the pbufs of the descriptors `p`: in order, each once, with
`NULL` behind the last one, the lengths that were received, and total lengths that add up. -/
structure PacketChain (bds : ℕ → RxBdp) (pbufs : ℕ → Pbuf) (q : ℕ) (p : List ℕ) : Prop where
  start : (p.map (pbufOf bds)).head? = some q
  nodup : (p.map (pbufOf bds)).Nodup
  linked : Segment (nextPbuf pbufs) (p.map (pbufOf bds)) none
  len_eq : ∀ d ∈ p, (pbufs (pbufOf bds d)).len = (bds d).bufoffLen
  totLen_eq : ∀ d ∈ p, (pbufs (pbufOf bds d)).totLen.toNat = (pbufs (pbufOf bds d)).len.toNat
    + match (pbufs (pbufOf bds d)).next with
      | none => 0
      | some a => (pbufs a).totLen.toNat

section Spells

variable {bds : ℕ → RxBdp} {pbufs : ℕ → Pbuf} {totLen : UInt16} {p : List ℕ}

theorem Spells.linked (h : Spells bds pbufs totLen p) :
    Segment (nextPbuf pbufs) (p.map (pbufOf bds)) none := by
  induction p generalizing totLen with
  | nil => trivial
  | cons d p ih =>
    refine ⟨?_, ih h.2⟩
    show (pbufs (pbufOf bds d)).next = (p.map (pbufOf bds)).head?.or none
    rw [h.1, Option.or_none]

theorem Spells.len_eq (h : Spells bds pbufs totLen p) :
    ∀ d ∈ p, (pbufs (pbufOf bds d)).len = (bds d).bufoffLen := by
  induction p generalizing totLen with
  | nil => simp
  | cons d p ih =>
    refine List.forall_mem_cons.mpr ⟨?_, ih h.2⟩
    rw [h.1]

/-- The total lengths add up where the first one is the sum of the lengths. -/
theorem Spells.totLen_eq (h : Spells bds pbufs totLen p)
    (hsum : (p.map fun d => (bds d).bufoffLen.toNat).sum = totLen.toNat) :
    ∀ d ∈ p, (pbufs (pbufOf bds d)).totLen.toNat = (bds d).bufoffLen.toNat
      + match (pbufs (pbufOf bds d)).next with
        | none => 0
        | some a => (pbufs a).totLen.toNat := by
  induction p generalizing totLen with
  | nil => simp
  | cons d p ih =>
    rw [List.map_cons, List.sum_cons] at hsum
    have hle : (bds d).bufoffLen ≤ totLen := UInt16.le_iff_toNat_le.mpr (by omega)
    have hsub : (totLen - (bds d).bufoffLen).toNat = totLen.toNat - (bds d).bufoffLen.toNat :=
      UInt16.toNat_sub_of_le _ _ hle
    refine List.forall_mem_cons.mpr ⟨?_, ih h.2 (by omega)⟩
    rw [h.1]
    cases p with
    | nil =>
      show totLen.toNat = (bds d).bufoffLen.toNat + 0
      rw [List.map_nil, List.sum_nil] at hsum
      omega
    | cons d' p =>
      show totLen.toNat = (bds d).bufoffLen.toNat + (pbufs (pbufOf bds d')).totLen.toNat
      rw [h.2.1]
      show totLen.toNat = (bds d).bufoffLen.toNat + (totLen - (bds d).bufoffLen).toNat
      omega

theorem Spells.packetChain (h : Spells bds pbufs totLen p) {curr : ℕ} (hcurr : p.head? = some curr)
    (hnodup : (p.map (pbufOf bds)).Nodup)
    (hsum : (p.map fun d => (bds d).bufoffLen.toNat).sum = totLen.toNat) :
    PacketChain bds pbufs (pbufOf bds curr) p where
  start := by
    rw [List.head?_map, hcurr]
    rfl
  nodup := hnodup
  linked := h.linked
  len_eq := h.len_eq
  totLen_eq := by
    intro d hd
    rw [h.len_eq d hd]
    exact h.totLen_eq hsum d hd

end Spells

end Cannelloni.Hdkif
