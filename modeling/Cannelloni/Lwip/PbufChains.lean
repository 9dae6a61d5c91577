import Cannelloni.Lwip.PbufRefs

/-!
# Chains of packet buffers

What the operations that change a packet do: `pbuf_cat`, `pbuf_chain`, `pbuf_dechain`,
`pbuf_realloc`, and those on the headers. They keep the counts and the sums of the lengths, as long
as nobody else has the pbufs whose lengths they change.
-/

namespace Cannelloni

open RefCount

namespace PbufStore

variable {s s' : PbufStore} {elems : Memp → List ℕ} {hs : List ℕ} {p q t : ℕ} {l : List ℕ}

/-! ## `pbuf_cat`, `pbuf_chain` -/

/-- What the first chain of `pbuf_cat` becomes. -/
theorem catLoop_spec {n : ℕ} (hpath : Path s.live s.next p l) (hn : l.length < n)
    (ht : t ∈ s.live) (htl : t ∉ p :: l) :
    ∃ last s', catLoop t n p s = .ok (last, s') ∧ (p :: l).getLast? = some last ∧
      s'.live = s.live ∧ s'.tabs = s.tabs ∧
      ∀ a, s'.mem a = if a ∈ (p :: l).dropLast then
        { s.mem a with totLen := (s.mem a).totLen + (s.mem t).totLen } else s.mem a := by
  induction l generalizing n s p with
  | nil =>
    rcases n with _ | n
    · omega
    · refine ⟨p, s, ?_, rfl, rfl, rfl, fun a => rfl⟩
      have hnone : (s.mem p).next = none := (path_nil.mp hpath).2
      refine Run.bind_eq_ok.mpr ⟨_, get_of_mem hpath.mem, ?_⟩
      rw [hnone]
      rfl
  | cons q l ih =>
    rcases n with _ | n
    · omega
    · rcases path_cons.mp hpath with ⟨hp, hnext, hrest⟩
      have hsome : (s.mem p).next = some q := hnext
      have hnodup := hpath.nodup
      rw [List.nodup_cons] at hnodup
      have htp : t ≠ p := fun heq => htl (heq ▸ List.mem_cons_self)
      set s1 := s.set p { s.mem p with totLen := (s.mem p).totLen + (s.mem t).totLen } with hs1
      have hmem1 : ∀ a, a ≠ p → s1.mem a = s.mem a := fun a ha => set_mem_of_ne _ ha
      have hmemp : s1.mem p = { s.mem p with totLen := (s.mem p).totLen + (s.mem t).totLen } :=
        set_mem_self _
      have hpath1 : Path s1.live s1.next q l := by
        refine hrest.congr hrest.2 ?_
        intro a ha
        rw [next, hmem1 a fun hap => hnodup.1 (hap ▸ ha)]
        rfl
      rcases ih hpath1 (by simpa using hn) ht fun hmem => htl (List.mem_cons_of_mem _ hmem) with
        ⟨last, s', hloop, hlast, hlive, htabs, hmem⟩
      refine ⟨last, s', ?_, ?_, hlive, htabs, ?_⟩
      · refine Run.bind_eq_ok.mpr ⟨_, get_of_mem hp, ?_⟩
        split
        · next hnone =>
          rw [hsome] at hnone
          cases hnone
        · next q' hq' =>
          obtain rfl : q' = q := Option.some.inj (hq'.symm.trans hsome)
          exact Run.bind_eq_ok.mpr ⟨_, get_of_mem ht, hloop⟩
      · rw [← hlast]
        simp
      · intro a
        rw [hmem a, hmem1 t htp, List.dropLast_cons_cons]
        by_cases hap : a = p
        · subst hap
          have hnot : a ∉ (q :: l).dropLast := fun hmem' => hnodup.1 (List.dropLast_subset _ hmem')
          rw [if_neg hnot, if_pos List.mem_cons_self, hmemp]
        · rw [hmem1 a hap]
          by_cases hin : a ∈ (q :: l).dropLast
          · rw [if_pos hin, if_pos (List.mem_cons_of_mem _ hin)]
          · rw [if_neg hin, if_neg (by simp [hap, hin])]

/-- The references to the pbufs of a chain are those of the holders and its own pointers. -/
def Sole (s : PbufStore) (hs : List ℕ) (p : ℕ) (l : List ℕ) : Prop :=
  ∀ a ∈ p :: l, s.ref a = hs.count a + if a = p then 0 else 1

/-- What `pbuf_cat` writes: the pbufs of `p :: l` count those of `t` too, and the last one points
to `t`. -/
structure Joined (s s' : PbufStore) (p : ℕ) (l : List ℕ) (last t : ℕ) : Prop where
  last_mem : last ∈ p :: l
  last_next : s.next last = none
  live : s'.live = s.live
  tabs : s'.tabs = s.tabs
  mem : ∀ a, s'.mem a =
    if a = last then { s.mem last with
      totLen := (s.mem last).totLen + (s.mem t).totLen, next := some t }
    else if a ∈ p :: l then { s.mem a with totLen := (s.mem a).totLen + (s.mem t).totLen }
    else s.mem a

section Joined

variable {last : ℕ} (h : Joined s s' p l last t)

include h

theorem Joined.next_last : s'.next last = some t := by
  rw [next, h.mem last, if_pos rfl]

theorem Joined.next_of_ne {a : ℕ} (hal : a ≠ last) : s'.next a = s.next a := by
  rw [next, h.mem a, if_neg hal]
  split <;> rfl

theorem Joined.len (a : ℕ) : s'.len a = s.len a := by
  rw [PbufStore.len, h.mem a]
  split
  · next hal => rw [hal, PbufStore.len]
  · split <;> rfl

theorem Joined.ref (a : ℕ) : (s'.mem a).ref = (s.mem a).ref := by
  rw [h.mem a]
  split
  · next hal => rw [hal]
  · split <;> rfl

theorem Joined.allocsrc (a : ℕ) : (s'.mem a).allocsrc = (s.mem a).allocsrc := by
  rw [h.mem a]
  split
  · next hal =>
    rw [hal]
    rfl
  · split <;> rfl

/-- No sum overflows. -/
theorem Joined.tot_in {a : ℕ} (hsum : s.SummedUp) (hpath : Path s.live s.next p l)
    (hlt : s.tot p + s.tot t < 65536) (hin : a ∈ p :: l) : s'.tot a = s.tot a + s.tot t := by
  have hle := hsum.le hpath hin
  have hadd : ((s.mem a).totLen + (s.mem t).totLen).toNat = s.tot a + s.tot t := by
    rw [UInt16.toNat_add]
    exact Nat.mod_eq_of_lt (show s.tot a + s.tot t < 65536 by omega)
  rw [tot, h.mem a]
  split
  · next hal =>
    rw [hal] at hadd
    rw [hal]
    exact hadd
  · exact hadd

theorem Joined.tot_out {a : ℕ} (hout : a ∉ p :: l) : s'.tot a = s.tot a := by
  rw [tot, h.mem a, if_neg fun hal : a = last => hout (hal ▸ h.last_mem), if_neg hout]
  rfl

theorem Joined.summedUp (hgood : s.Good elems hs) (hsum : s.SummedUp)
    (hpath : Path s.live s.next p l) (hsole : s.Sole hs p l) (htl : t ∉ p :: l)
    (hlt : s.tot p + s.tot t < 65536) : s'.SummedUp := by
  intro a ha
  have ha' : a ∈ s.live := h.live ▸ ha
  have hval := hsum a ha'
  rw [h.len a]
  by_cases hal : a = last
  · -- the new link
    rw [hal] at hval ⊢
    rw [h.last_next] at hval
    rw [h.tot_in hsum hpath hlt h.last_mem, h.next_last, hval]
    show _ = _ + s'.tot t
    rw [h.tot_out htl]
    rfl
  · rw [h.next_of_ne hal]
    by_cases hin : a ∈ p :: l
    · rw [h.tot_in hsum hpath hlt hin, hval]
      cases hcase : s.next a with
      | none => exact absurd (hpath.eq_of_next_none hin h.last_mem hcase h.last_next) hal
      | some c =>
        show _ + s.tot c + _ = _ + s'.tot c
        rw [h.tot_in hsum hpath hlt (hpath.next_mem hin hcase)]
        omega
    · -- a pbuf of another chain: nothing but the reference that was joined points into this one
      rw [h.tot_out hin, hval]
      refine congrArg (s.len a + ·) (elim_tot ?_)
      intro c hcase
      have hc : c ∉ p :: l := fun hmem => hin (hgood.counted.alone hpath hsole ha' hmem hcase)
      exact h.tot_out hc

end Joined

/-- `pbuf_cat` returns. -/
theorem pbufCat_joined (hsum : s.SummedUp) (hpath : Path s.live s.next p l) (ht : t ∈ s.live)
    (htl : t ∉ p :: l) : ∃ last s', s.pbufCat p t = .ok s' ∧ Joined s s' p l last t := by
  have hlen := hpath.length_lt
  rcases catLoop_spec (n := s.steps) hpath (by unfold steps; omega) ht htl with
    ⟨last, s1, hloop, hlast, hlive1, htabs1, hmem1⟩
  have hlastmem : last ∈ p :: l := List.mem_of_getLast? hlast
  have hlastlive := hpath.2 last hlastmem
  have hlastnext : s.next last = none := hpath.1.next_last hlast
  have hnodup := hpath.nodup
  rcases List.getLast?_eq_some_iff.mp hlast with ⟨k, hk⟩
  have hdrop : ∀ a, a ∈ (p :: l).dropLast ↔ a ∈ p :: l ∧ a ≠ last := by
    intro a
    rw [hk, List.dropLast_concat, List.mem_append, List.mem_singleton]
    rw [hk] at hnodup
    have hnot : last ∉ k := fun hmem =>
      List.disjoint_of_nodup_append hnodup hmem List.mem_cons_self
    constructor
    · exact fun hmem => ⟨.inl hmem, fun heq => hnot (heq ▸ hmem)⟩
    · exact fun hmem => hmem.1.resolve_right hmem.2
  have hlast1 : s1.mem last = s.mem last := by
    rw [hmem1 last, if_neg (by rw [hdrop]; simp)]
  have ht1 : s1.mem t = s.mem t := by
    rw [hmem1 t, if_neg (by rw [hdrop]; exact fun hmem => htl hmem.1)]
  -- the last pbuf of a chain has the sum of its own length
  have hlasttot : (s.mem last).totLen = (s.mem last).len := by
    have hval := hsum last hlastlive
    rw [hlastnext] at hval
    exact UInt16.toNat_inj.mp hval
  refine ⟨last, s1.set last { s.mem last with
    totLen := (s.mem last).totLen + (s.mem t).totLen, next := some t }, ?_,
    hlastmem, hlastnext, hlive1, htabs1, ?_⟩
  · refine Run.bind_eq_ok.mpr ⟨_, hloop, ?_⟩
    refine Run.bind_eq_ok.mpr ⟨s.mem last, ?_, ?_⟩
    · rw [← hlast1]
      exact get_of_mem (hlive1 ▸ hlastlive)
    · refine Run.bind_eq_ok.mpr ⟨(), pbufAssert_pos hlasttot, ?_⟩
      refine Run.bind_eq_ok.mpr ⟨s.mem t, ?_, rfl⟩
      rw [← ht1]
      exact get_of_mem (hlive1 ▸ ht)
  · intro a
    by_cases hal : a = last
    · rw [if_pos hal, hal, set_mem_self]
    · rw [if_neg hal, set_mem_of_ne _ hal, hmem1 a]
      by_cases hin : a ∈ p :: l
      · rw [if_pos hin, if_pos ((hdrop a).mpr ⟨hin, hal⟩)]
      · rw [if_neg hin, if_neg (by rw [hdrop]; exact fun hmem => hin hmem.1)]

/-- `pbuf_cat` of two packets. The reference to the second one is the pointer of the first one's
last pbuf now. -/
theorem Good.cat {m : List ℕ} (h : s.Good elems hs) (hsum : s.SummedUp)
    (hpath : Path s.live s.next p l) (hsole : s.Sole hs p l) (ht : t ∈ hs)
    (hm : Path s.live s.next t m) (hdisj : ∀ a ∈ p :: l, a ∉ t :: m)
    (hlt : s.tot p + s.tot t < 65536) :
    ∃ s', s.pbufCat p t = .ok s' ∧ s'.Good elems (hs.erase t) ∧ s'.SummedUp ∧ s'.live = s.live ∧
      (s'.mem t).ref = (s.mem t).ref := by
  have htl : t ∉ p :: l := fun hmem => hdisj t hmem List.mem_cons_self
  rcases pbufCat_joined hsum hpath hm.mem htl with ⟨last, s', hcat, hjoin⟩
  have hlinked := h.counted.link s'.next (hpath.2 last hjoin.last_mem) hjoin.last_next ht hm
    (hdisj last hjoin.last_mem) hjoin.next_last fun a _ hal => hjoin.next_of_ne hal
  have hcounted : Counted s'.live s'.next s'.ref (hs.erase t) := by
    rw [hjoin.live]
    exact hlinked.congr (fun _ _ => rfl) fun a _ => congrArg UInt8.toNat (hjoin.ref a)
  exact ⟨s', hcat, ⟨hcounted, h.pooled.congr hjoin.live hjoin.tabs hjoin.allocsrc⟩,
    hjoin.summedUp h hsum hpath hsole htl hlt, hjoin.live, hjoin.ref t⟩

/-- The sums of the pbufs that are left stay right. -/
theorem SummedUp.frame (h : s.SummedUp) (hframe : s.Frame s') (hgood : s'.Good elems hs) :
    s'.SummedUp := by
  intro a ha
  have hsum := h a (hframe.live ha)
  rw [hframe.tot ha, hframe.len ha, hframe.next ha, hsum]
  refine congrArg (s.len a + ·) (elim_tot ?_)
  intro c hcase
  exact hframe.tot (hgood.counted.next_mem ha ((hframe.next ha).trans hcase))

/-- `pbuf_chain` of two packets. -/
theorem Good.chain {m : List ℕ} (h : s.Good elems hs) (hsum : s.SummedUp)
    (hpath : Path s.live s.next p l) (hsole : s.Sole hs p l) (ht : t ∈ hs)
    (hm : Path s.live s.next t m) (hdisj : ∀ a ∈ p :: l, a ∉ t :: m)
    (hlt : s.tot p + s.tot t < 65536) (href : (s.mem t).ref < 255) :
    ∃ s', s.pbufChain p t = .ok s' ∧ s'.Good elems hs ∧ s'.SummedUp := by
  rcases h.cat hsum hpath hsole ht hm hdisj hlt with ⟨s1, hcat, hgood1, hsum1, hlive1, href1⟩
  have ht1 : t ∈ s1.live := hlive1 ▸ hm.mem
  rcases hgood1.retain ht1 (by rw [href1]; exact href) with ⟨s2, hretain, hgood2, hframe, -⟩
  have hperm : (t :: hs.erase t).Perm hs := (List.perm_cons_erase ht).symm
  exact ⟨s2, Run.bind_eq_ok.mpr ⟨s1, hcat, hretain⟩, ⟨hgood2.counted.perm hperm, hgood2.pooled⟩,
    hsum1.frame hframe hgood2⟩

/-! ## `pbuf_dechain` -/

theorem set_self : s.set p (s.mem p) = s := by
  unfold PbufStore.set
  rw [Function.update_eq_self]

/-- The first pbuf of a packet is taken out of its chain, and keeps its own length. -/
theorem Good.dechain (h : s.Good elems hs) (hsum : s.SummedUp) (hp : p ∈ hs)
    (hcount : s.ref p = hs.count p) :
    ∃ r s', s.pbufDechain p = .ok (r, s') ∧ s'.Good elems hs ∧ s'.SummedUp := by
  have hlive := h.counted.held p hp
  have hval := hsum p hlive
  unfold pbufDechain
  cases hcase : (s.mem p).next with
  | none =>
    have hnone : s.next p = none := hcase
    rw [hnone] at hval
    refine ⟨none, s, ?_, h, hsum⟩
    refine Run.bind_eq_ok.mpr ⟨_, get_of_mem hlive, ?_⟩
    rw [hcase]
    exact Run.bind_eq_ok.mpr ⟨(), pbufAssert_pos (UInt16.toNat_inj.mp hval), rfl⟩
  | some q =>
    have hsome : s.next p = some q := hcase
    have hq := h.counted.next_mem hlive hsome
    have hqp : q ≠ p := by
      rintro rfl
      exact h.counted.no_pointer hlive hcount hlive hsome
    rw [hsome] at hval
    have htot : s.tot p = s.len p + s.tot q := hval
    have hle : (s.mem p).len ≤ (s.mem p).totLen := by
      rw [UInt16.le_iff_toNat_le]
      show s.len p ≤ s.tot p
      omega
    have hsub : (s.mem p).totLen - (s.mem p).len = (s.mem q).totLen := by
      apply UInt16.toNat_inj.mp
      rw [UInt16.toNat_sub_of_le _ _ hle]
      show s.tot p - s.len p = s.tot q
      omega
    have hsame : s.set q { s.mem q with totLen := (s.mem p).totLen - (s.mem p).len } = s := by
      rw [hsub]
      exact set_self
    set s1 := s.set p { s.mem p with next := none, totLen := (s.mem p).len } with hs1
    have hmem1 : ∀ a, a ≠ p → s1.mem a = s.mem a := fun a ha => set_mem_of_ne _ ha
    have hmemp : s1.mem p = { s.mem p with next := none, totLen := (s.mem p).len } := set_mem_self _
    have hgood1 : s1.Good elems (q :: hs) := by
      refine ⟨?_, h.pooled.set rfl⟩
      have hcut := h.counted.cut s1.next hlive hsome (by rw [next, hmemp]) (by
        intro a _ hap
        rw [next, hmem1 a hap]
        rfl)
      refine hcut.congr (fun _ _ => rfl) ?_
      intro a _
      by_cases hap : a = p
      · rw [hap, ref, hmemp]
        rfl
      · rw [ref, hmem1 a hap]
        rfl
    have hsum1 : s1.SummedUp := by
      intro a ha
      by_cases hap : a = p
      · rw [hap, tot, len, next, hmemp]
        rfl
      · have hsum' := hsum a ha
        rw [tot, len, next, hmem1 a hap]
        show s.tot a = s.len a + (s.next a).elim 0 s1.tot
        rw [hsum']
        refine congrArg (s.len a + ·) (elim_tot ?_)
        intro c hc
        have hcp : c ≠ p := fun heq => h.counted.no_pointer hlive hcount ha (heq ▸ hc)
        exact tot_of_mem (hmem1 c hcp)
    rcases hgood1.free List.mem_cons_self with ⟨c, s2, hfree, hgood2, hframe⟩
    rw [List.erase_cons_head] at hgood2
    have hp2 := hgood2.counted.held p hp
    have hlen2 : (s2.mem p).totLen = (s2.mem p).len := by
      rw [hframe.mem p hp2, hmemp]
    refine ⟨if 0 < c then none else some q, s2, ?_, hgood2, hsum1.frame hframe hgood2⟩
    refine Run.bind_eq_ok.mpr ⟨_, get_of_mem hlive, ?_⟩
    split
    · next hnone =>
      rw [hcase] at hnone
      cases hnone
    · next q' hq' =>
      obtain rfl : q' = q := Option.some.inj (hq'.symm.trans hcase)
      refine Run.bind_eq_ok.mpr ⟨_, get_of_mem hq, ?_⟩
      refine Run.bind_eq_ok.mpr ⟨(), pbufAssert_pos ?_, ?_⟩
      · show (s.tot q' : ℤ) = s.tot p - s.len p
        omega
      · simp only [hsame]
        refine Run.bind_eq_ok.mpr ⟨_, hfree, ?_⟩
        refine Run.bind_eq_ok.mpr ⟨_, get_of_mem hp2, ?_⟩
        exact Run.bind_eq_ok.mpr ⟨(), pbufAssert_pos hlen2, rfl⟩

/-! ## `pbuf_realloc` -/

theorem get_set (hne : p ≠ q) (b : StructPbuf) : (s.set q b).get p = s.get p := by
  unfold PbufStore.get
  rw [set_mem_of_ne b hne, set_live]

theorem set_comm (hne : p ≠ q) (b c : StructPbuf) :
    (s.set q b).set p c = (s.set p c).set q b := by
  unfold PbufStore.set
  rw [Function.update_comm hne]

theorem dealloc_set (b : StructPbuf) (allocSrc : UInt8) :
    (s.set q b).dealloc p allocSrc = (s.dealloc p allocSrc).map fun s => s.set q b := by
  unfold PbufStore.dealloc PbufStore.mempFree
  by_cases hp : p % 4 = 0
  · simp only [pbufAssert_pos hp]
    split_ifs <;> rfl
  · have hno : pbufAssert (p % 4 = 0) .notAligned = .error .notAligned := if_neg hp
    simp only [hno]
    split_ifs <;> rfl

theorem dealloc_mem {allocSrc : UInt8} (h : s.dealloc p allocSrc = .ok s') : s'.mem = s.mem := by
  unfold PbufStore.dealloc PbufStore.mempFree at h
  split_ifs at h
  · rcases Run.bind_eq_ok.mp h with ⟨-, -, hs'⟩
    cases hs'
    rfl
  · rcases Run.bind_eq_ok.mp h with ⟨-, -, hs'⟩
    cases hs'
    rfl
  · cases h
    rfl

/-- The loop does not look at a pbuf that is not in the chain, and leaves it as it is. -/
theorem freeLoop_set {n : ℕ} (hseg : Linked.Segment s.next (p :: l) none) (hq : q ∉ p :: l)
    (b : StructPbuf) (count : UInt8) :
    freeLoop n (some p) count (s.set q b)
      = (freeLoop n (some p) count s).map fun r => (r.1, r.2.set q b) := by
  induction n generalizing s p l count with
  | zero => rfl
  | succ n ih =>
    have hpq : p ≠ q := fun heq => hq (heq ▸ List.mem_cons_self)
    unfold freeLoop
    rw [get_set hpq]
    by_cases hp : p ∈ s.live
    · rw [get_of_mem hp]
      simp only [bind, Except.bind]
      by_cases href : 0 < (s.mem p).ref
      · rw [pbufAssert_pos href]
        simp only [set_comm hpq]
        split
        · rw [dealloc_set]
          cases hd : (s.set p { s.mem p with ref := (s.mem p).ref - 1 }).dealloc p
              (s.mem p).allocsrc with
          | error e => rfl
          | ok s2 =>
            have hmem2 := dealloc_mem hd
            simp only [Except.map]
            cases hcase : (s.mem p).next with
            | none => cases n <;> rfl
            | some r =>
              cases l with
              | nil =>
                have hnone : s.next p = none := hseg.1
                have hsome : s.next p = some r := hcase
                rw [hnone] at hsome
                cases hsome
              | cons r' l =>
                have hr : s.next p = some r' := hseg.1
                obtain rfl : r = r' := Option.some.inj (hcase.symm.trans hr)
                have hnext2 : ∀ a, s2.next a = s.next a := by
                  intro a
                  rw [next, hmem2]
                  by_cases hap : a = p
                  · rw [hap, set_mem_self]
                    rfl
                  · rw [set_mem_of_ne _ hap]
                    rfl
                exact ih (hseg.2.congr fun a _ => hnext2 a)
                  (fun hmem => hq (List.mem_cons_of_mem _ hmem)) (count + 1)
        · rfl
      · have hno : pbufAssert (0 < (s.mem p).ref) .refZero = .error .refZero := if_neg href
        rw [hno]
        rfl
    · have hno : s.get p = .error .notInUse := if_neg hp
      rw [hno]
      rfl

/-- The loop ends at the pbuf that is the last one in future: those in front of it lose what the
packet loses. -/
theorem reallocLoop_spec (shrink : UInt16) {n : ℕ} {rem : UInt16}
    (hpath : Path s.live s.next p l) (hn : l.length < n)
    (hsum : ∀ a ∈ p :: l, s.tot a = s.len a + (s.next a).elim 0 s.tot)
    (hrem : rem.toNat < s.tot p) :
    ∃ k q m, ∃ rem' : UInt16, ∃ s', reallocLoop shrink n p rem s = .ok (q, rem', s') ∧
      p :: l = k ++ q :: m ∧ rem'.toNat ≤ s.len q ∧ s.tot q + rem.toNat = s.tot p + rem'.toNat ∧
      s'.live = s.live ∧ s'.tabs = s.tabs ∧
      ∀ a, s'.mem a = if a ∈ k then { s.mem a with totLen := (s.mem a).totLen - shrink }
        else s.mem a := by
  induction l generalizing n s p rem with
  | nil =>
    rcases n with _ | n
    · omega
    · have hval := hsum p List.mem_cons_self
      rw [(path_nil.mp hpath).2] at hval
      have hle : ¬(s.mem p).len < rem := by
        rw [UInt16.lt_iff_toNat_lt]
        show ¬s.len p < rem.toNat
        simp only [Option.elim_none] at hval
        omega
      refine ⟨[], p, [], rem, s, ?_, rfl, ?_, rfl, rfl, rfl, fun a => rfl⟩
      · exact Run.bind_eq_ok.mpr ⟨_, get_of_mem hpath.mem, if_neg hle⟩
      · rw [UInt16.lt_iff_toNat_lt] at hle
        exact Nat.not_lt.mp hle
  | cons r l ih =>
    rcases n with _ | n
    · omega
    · rcases path_cons.mp hpath with ⟨hp, hnext, hrest⟩
      by_cases hlt : (s.mem p).len < rem
      · have hval := hsum p List.mem_cons_self
        rw [hnext] at hval
        have htot : s.tot p = s.len p + s.tot r := hval
        have hsub : (rem - (s.mem p).len).toNat = rem.toNat - s.len p :=
          UInt16.toNat_sub_of_le _ _ (UInt16.le_of_lt hlt)
        rw [UInt16.lt_iff_toNat_lt] at hlt
        have hlt' : s.len p < rem.toNat := hlt
        have hnodup := hpath.nodup
        rw [List.nodup_cons] at hnodup
        set s1 := s.set p { s.mem p with totLen := (s.mem p).totLen - shrink } with hs1
        have hmem1 : ∀ a, a ≠ p → s1.mem a = s.mem a := fun a ha => set_mem_of_ne _ ha
        have hmemp : s1.mem p = { s.mem p with totLen := (s.mem p).totLen - shrink } :=
          set_mem_self _
        have hne : ∀ a ∈ r :: l, a ≠ p := fun a ha hap => hnodup.1 (hap ▸ ha)
        have htot1 : ∀ a ∈ r :: l, s1.tot a = s.tot a := by
          intro a ha
          rw [tot, hmem1 a (hne a ha)]
          rfl
        have hpath1 : Path s1.live s1.next r l := by
          refine hrest.congr hrest.2 ?_
          intro a ha
          rw [next, hmem1 a (hne a ha)]
          rfl
        have hsum1 : ∀ a ∈ r :: l, s1.tot a = s1.len a + (s1.next a).elim 0 s1.tot := by
          intro a ha
          have hval' := hsum a (List.mem_cons_of_mem _ ha)
          rw [htot1 a ha, len, next, hmem1 a (hne a ha)]
          show s.tot a = s.len a + (s.next a).elim 0 s1.tot
          rw [hval']
          refine congrArg (s.len a + ·) (elim_tot ?_)
          exact fun c hcase => htot1 c (hrest.next_mem ha hcase)
        have hr1 := htot1 r List.mem_cons_self
        have hrem1 : (rem - (s.mem p).len).toNat < s1.tot r := by omega
        rcases ih hpath1 (by simpa using hn) hsum1 hrem1 with
          ⟨k, q, m, rem', s', hloop, hk, hle, heq, hlive, htabs, hmem⟩
        have hq : q ∈ r :: l := by
          rw [hk]
          simp
        refine ⟨p :: k, q, m, rem', s', ?_, ?_, ?_, ?_, hlive, htabs, ?_⟩
        · refine Run.bind_eq_ok.mpr ⟨_, get_of_mem hp, ?_⟩
          rw [if_pos (UInt16.lt_iff_toNat_lt.mpr hlt)]
          split
          · next hnone =>
            have hnone' : s.next p = none := hnone
            rw [hnext] at hnone'
            cases hnone'
          · next r' hr' =>
            obtain rfl : r' = r := Option.some.inj (hr'.symm.trans hnext)
            exact hloop
        · rw [hk]
          rfl
        · rw [len, hmem1 q (hne q hq)] at hle
          exact hle
        · rw [htot1 q hq, hr1, hsub] at heq
          omega
        · intro a
          rw [hmem a]
          by_cases hap : a = p
          · subst hap
            have hnot : a ∉ k := by
              intro hak
              apply hnodup.1
              rw [hk]
              exact List.mem_append_left _ hak
            rw [if_neg hnot, if_pos List.mem_cons_self, hmemp]
          · rw [hmem1 a hap]
            by_cases hak : a ∈ k
            · rw [if_pos hak, if_pos (List.mem_cons_of_mem _ hak)]
            · rw [if_neg hak, if_neg (by simp [hap, hak])]
      · refine ⟨[], p, r :: l, rem, s, ?_, rfl, ?_, rfl, rfl, rfl, fun a => rfl⟩
        · exact Run.bind_eq_ok.mpr ⟨_, get_of_mem hpath.mem, if_neg hlt⟩
        · rw [UInt16.lt_iff_toNat_lt] at hlt
          exact Nat.not_lt.mp hlt

theorem pbufFree_set {r : ℕ} {c : UInt8} (hseg : Linked.Segment s.next (r :: l) none)
    (hq : q ∉ r :: l) (b : StructPbuf) (hfree : s.pbufFree (some r) = .ok (c, s')) :
    (s.set q b).pbufFree (some r) = .ok (c, s'.set q b) := by
  have hset := freeLoop_set (n := s.steps) hseg hq b 0
  have hfree' : PbufStore.freeLoop s.steps (some r) 0 s = .ok (c, s') := hfree
  rw [hfree'] at hset
  exact hset

theorem pbufFree_mem {r : ℕ} {c : UInt8} (hseg : Linked.Segment s.next (r :: l) none)
    (hq : q ∉ r :: l) (hfree : s.pbufFree (some r) = .ok (c, s')) : s'.mem q = s.mem q := by
  have hset := pbufFree_set hseg hq (s.mem q) hfree
  rw [set_self, hfree] at hset
  have hs' : s' = s'.set q (s.mem q) := congrArg Prod.snd (Except.ok.inj hset)
  rw [hs', set_mem_self]

/-- A packet gets shorter: `q` is its last pbuf now, and has `rem` bytes. -/
structure Shrunk (s s' : PbufStore) (k : List ℕ) (q : ℕ) (shrink rem : UInt16) : Prop where
  live : s'.live = s.live
  tabs : s'.tabs = s.tabs
  last : s'.mem q = { s.mem q with len := rem, totLen := rem, next := none }
  front : ∀ a ∈ k, s'.mem a = { s.mem a with totLen := (s.mem a).totLen - shrink }
  rest : ∀ a, a ∉ k → a ≠ q → s'.mem a = s.mem a

theorem Shrunk.next {k : List ℕ} {shrink rem : UInt16} (h : s.Shrunk s' k q shrink rem) {a : ℕ}
    (ha : a ≠ q) : s'.next a = s.next a := by
  by_cases hak : a ∈ k
  · rw [PbufStore.next, h.front a hak]
    rfl
  · rw [PbufStore.next, h.rest a hak ha]
    rfl

theorem Shrunk.ref {k : List ℕ} {shrink rem : UInt16} (h : s.Shrunk s' k q shrink rem) (a : ℕ) :
    s'.ref a = s.ref a := by
  by_cases haq : a = q
  · rw [haq, PbufStore.ref, h.last]
    rfl
  · by_cases hak : a ∈ k
    · rw [PbufStore.ref, h.front a hak]
      rfl
    · rw [PbufStore.ref, h.rest a hak haq]
      rfl

theorem Shrunk.pooled {k : List ℕ} {shrink rem : UInt16} (h : s.Shrunk s' k q shrink rem)
    (hpool : s.Pooled elems) : s'.Pooled elems := by
  refine hpool.congr h.live h.tabs ?_
  intro a
  by_cases haq : a = q
  · rw [haq, h.last]
    rfl
  · by_cases hak : a ∈ k
    · rw [h.front a hak]
      rfl
    · rw [h.rest a hak haq]

/-- The sums are right again. -/
theorem Shrunk.summedUp {k m : List ℕ} {shrink rem : UInt16} (h : s.Shrunk s' k q shrink rem)
    (hgood : s.Good elems hs) (hsum : s.SummedUp) (hpath : Path s.live s.next p l)
    (hsole : s.Sole hs p l) (hk : p :: l = k ++ q :: m)
    (heq : s.tot q = rem.toNat + shrink.toNat) : s'.SummedUp := by
  have hnodup := hpath.nodup
  have hseg := hpath.1
  rw [hk] at hnodup hseg
  have hkq : ∀ a ∈ k, a ≠ q := fun a ha haq =>
    List.disjoint_of_nodup_append hnodup (haq ▸ ha) List.mem_cons_self
  have hfront := (Linked.segment_append.mp hseg).1
  -- the pbufs that stay lose `shrink`
  have hlose : ∀ c ∈ k ++ [q], s'.tot c + shrink.toNat = s.tot c := by
    intro c hc
    rcases List.mem_append.mp hc with hc | hc
    · have hle : s.tot q ≤ s.tot c := by
        rcases List.append_of_mem hc with ⟨k₁, k₂, rfl⟩
        have hsuffix : Path s.live s.next c (k₂ ++ q :: m) := hpath.suffix (m := k₁) (by
          rw [hk]
          simp)
        exact hsum.le hsuffix (by simp)
      have hle' : shrink ≤ (s.mem c).totLen := by
        rw [UInt16.le_iff_toNat_le]
        show shrink.toNat ≤ s.tot c
        omega
      rw [tot, h.front c hc]
      show ((s.mem c).totLen - shrink).toNat + _ = _
      rw [UInt16.toNat_sub_of_le _ _ hle']
      show s.tot c - shrink.toNat + _ = _
      omega
    · rw [List.mem_singleton.mp hc, tot, h.last, heq]
  intro a ha
  rw [h.live] at ha
  have hval := hsum a ha
  by_cases haq : a = q
  · rw [haq, tot, len, PbufStore.next, h.last]
    rfl
  rw [h.next haq]
  by_cases hak : a ∈ k
  · rcases hfront.next_of_mem hak with ⟨c, hc, hac⟩
    have ha' := hlose a (List.mem_append_left _ hak)
    have hc' := hlose c hc
    rw [hac] at hval ⊢
    have hlen : s'.len a = s.len a := by
      rw [len, h.front a hak]
      rfl
    rw [hlen]
    simp only [Option.elim_some] at hval ⊢
    omega
  · rw [tot, len, h.rest a hak haq]
    show s.tot a = s.len a + (s.next a).elim 0 s'.tot
    rw [hval]
    refine congrArg (s.len a + ·) (elim_tot ?_)
    intro c hcase
    -- what comes behind a pbuf that does not stay does not stay, or is not of the packet
    have hc : c ∉ k ++ [q] := by
      intro hmem
      have hcl : c ∈ p :: l := by
        rw [hk]
        rcases List.mem_append.mp hmem with hmem | hmem
        · exact List.mem_append_left _ hmem
        · rw [List.mem_singleton.mp hmem]
          simp
      have hal := hgood.counted.alone hpath hsole ha hcl hcase
      rw [hk, List.mem_append, List.mem_cons] at hal
      have ham := (hal.resolve_left hak).resolve_left haq
      have hcm : c ∈ m := by
        rcases List.append_of_mem ham with ⟨m₁, m₂, rfl⟩
        have hsuffix : Path s.live s.next a m₂ := hpath.suffix (m := k ++ q :: m₁) (by
          rw [hk]
          simp)
        rcases hsuffix.tail hcase with ⟨m₃, rfl, -⟩
        simp
      rw [List.append_cons] at hnodup
      exact List.disjoint_of_nodup_append hnodup hmem hcm
    rw [List.mem_append, List.mem_singleton, not_or] at hc
    exact tot_of_mem (h.rest c hc.1 hc.2)

/-- The last pbuf of the shorter packet stays in use as long as the first one does: it is still
behind it. -/
theorem Shrunk.last_mem {k m l' : List ℕ} {shrink rem : UInt16} (h : s.Shrunk s' k q shrink rem)
    (hpath : Path s.live s.next p l) (hk : p :: l = k ++ q :: m)
    (hpath' : Path s'.live s'.next p l') : q ∈ p :: l' := by
  have hnodup := hpath.nodup
  have hseg := hpath.1
  rw [hk] at hnodup
  rw [hk, Linked.segment_append] at hseg
  have hkq : ∀ a ∈ k, a ≠ q := fun a ha haq =>
    List.disjoint_of_nodup_append hnodup (haq ▸ ha) List.mem_cons_self
  have hnextq : s'.next q = none := by rw [PbufStore.next, h.last]
  have hfront : Linked.Segment s'.next (k ++ [q]) none := by
    rw [Linked.segment_append]
    exact ⟨hseg.1.congr fun a ha => h.next (hkq a ha), hnextq, trivial⟩
  have hheads : Linked.first (p :: l') none = Linked.first (k ++ [q]) none := by
    cases k with
    | nil =>
      rw [List.nil_append] at hk
      rw [(List.cons.inj hk).1]
      rfl
    | cons b k =>
      rw [List.cons_append] at hk
      rw [(List.cons.inj hk).1]
      rfl
  rw [hpath'.1.unique hfront hheads]
  simp

/-- `pbuf_realloc` of a packet. -/
theorem Good.realloc (h : s.Good elems hs) (hsum : s.SummedUp) (hp : p ∈ hs)
    (hpath : Path s.live s.next p l) (hsole : s.Sole hs p l) (newLen : UInt16) :
    ∃ s', s.pbufRealloc p newLen = .ok s' ∧ s'.Good elems hs ∧ s'.SummedUp := by
  have hlive := h.counted.held p hp
  unfold pbufRealloc
  by_cases hle : (s.mem p).totLen ≤ newLen
  · exact ⟨s, Run.bind_eq_ok.mpr ⟨_, get_of_mem hlive, if_pos hle⟩, h, hsum⟩
  have hlt : newLen < (s.mem p).totLen := UInt16.not_le.mp hle
  set shrink := (s.mem p).totLen - newLen with hshrink
  have hshrink' : shrink.toNat = s.tot p - newLen.toNat :=
    UInt16.toNat_sub_of_le _ _ (UInt16.le_of_lt hlt)
  have hlt' : newLen.toNat < s.tot p := UInt16.lt_iff_toNat_lt.mp hlt
  have hlen := hpath.length_lt
  rcases reallocLoop_spec shrink (n := s.steps) hpath (by unfold steps; omega)
    (fun a ha => hsum a (hpath.2 a ha)) hlt' with
    ⟨k, q, m, rem', s1, hloop, hk, -, heq, hlive1, htabs1, hmem1⟩
  have hnodup := hpath.nodup
  rw [hk] at hnodup
  have hqk : q ∉ k := fun hmem => List.disjoint_of_nodup_append hnodup hmem List.mem_cons_self
  have hqlive : q ∈ s.live := hpath.2 q (by rw [hk]; simp)
  have hmemq : s1.mem q = s.mem q := by rw [hmem1 q, if_neg hqk]
  have hget1 : s1.get q = .ok (s.mem q) := by
    rw [← hmemq]
    exact get_of_mem (hlive1 ▸ hqlive)
  set s2 := s1.set q { s.mem q with len := rem', totLen := rem' } with hs2
  set s2c := s2.set q { s2.mem q with next := none } with hs2c
  have hmem2q : s2.mem q = { s.mem q with len := rem', totLen := rem' } := set_mem_self _
  have hmem2cq : s2c.mem q = { s2.mem q with next := none } := set_mem_self _
  have hshrunk : s.Shrunk s2c k q shrink rem' := by
    refine ⟨hlive1, htabs1, ?_, ?_, ?_⟩
    · rw [hmem2cq, hmem2q]
    · intro a ha
      have haq : a ≠ q := fun haq => hqk (haq ▸ ha)
      rw [hs2c, set_mem_of_ne _ haq, hs2, set_mem_of_ne _ haq, hmem1 a, if_pos ha]
    · intro a ha haq
      rw [hs2c, set_mem_of_ne _ haq, hs2, set_mem_of_ne _ haq, hmem1 a, if_neg ha]
  have hsum2 : s2c.SummedUp := hshrunk.summedUp h hsum hpath hsole hk (by omega)
  have hlive2 : s2c.live = s.live := hlive1
  have hnextq : s2c.next q = none := by
    rw [next, hshrunk.last]
  cases hcase : (s.mem q).next with
  | none =>
    have hsame : s2c = s2 := by
      have hnone : ({ s2.mem q with next := none } : StructPbuf) = s2.mem q := by
        rw [hmem2q, ← hcase]
      rw [hs2c, hnone, set_self]
    refine ⟨s2c, ?_, ⟨?_, hshrunk.pooled h.pooled⟩, hsum2⟩
    · refine Run.bind_eq_ok.mpr ⟨_, get_of_mem hlive, ?_⟩
      rw [if_neg hle]
      refine Run.bind_eq_ok.mpr ⟨_, hloop, Run.bind_eq_ok.mpr ⟨_, hget1, ?_⟩⟩
      split
      · rw [hsame]
        rfl
      · next r hr =>
        rw [hcase] at hr
        cases hr
    · rw [hlive2]
      refine h.counted.congr ?_ fun a _ => hshrunk.ref a
      intro a _
      by_cases haq : a = q
      · rw [haq, hnextq]
        exact hcase.symm
      · exact hshrunk.next haq
  | some r =>
    have hsome : s.next q = some r := hcase
    -- the pointer to the rest is given up as the reference of a holder
    have hgood2 : s2c.Good elems (r :: hs) := by
      refine ⟨?_, hshrunk.pooled h.pooled⟩
      rw [hlive2]
      exact (h.counted.cut s2c.next hqlive hsome hnextq
        fun a _ haq => hshrunk.next haq).congr (fun _ _ => rfl) fun a _ => hshrunk.ref a
    rcases hgood2.free List.mem_cons_self with ⟨c, s3, hfree, hgood3, hframe⟩
    rw [List.erase_cons_head] at hgood3
    have hpathq : Path s.live s.next q m := hpath.suffix hk
    rcases hpathq.tail hsome with ⟨m', rfl, hpathr⟩
    have hqr : q ∉ r :: m' := fun hmem => hpathq.ne_of_mem hmem rfl
    have hsegr : Linked.Segment s2c.next (r :: m') none := hpathr.1.congr fun a ha =>
      hshrunk.next fun haq => hqr (haq ▸ ha)
    -- the loop does not see that `q` still points to the rest
    have hback : s2c.set q (s2.mem q) = s2 := by
      rw [hs2c]
      unfold PbufStore.set
      rw [Function.update_idem, Function.update_eq_self]
    have hfree2 : s2.pbufFree (some r) = .ok (c, s3.set q (s2.mem q)) := by
      have hset := pbufFree_set hsegr hqr (s2.mem q) hfree
      rw [hback] at hset
      exact hset
    have hmem3q : s3.mem q = s2c.mem q := pbufFree_mem hsegr hqr hfree
    have hq3 : q ∈ s3.live := by
      rcases hgood3.counted.path p (hgood3.counted.held p hp) with ⟨l3, hpath3⟩
      have hpath3' : Path s2c.live s2c.next p l3 := hpath3.congr
        (fun a ha => hframe.live (hpath3.2 a ha)) fun a ha => (hframe.next (hpath3.2 a ha)).symm
      exact hpath3.2 q (hshrunk.last_mem hpath hk hpath3')
    refine ⟨s3, ?_, hgood3, hsum2.frame hframe hgood3⟩
    refine Run.bind_eq_ok.mpr ⟨_, get_of_mem hlive, ?_⟩
    rw [if_neg hle]
    refine Run.bind_eq_ok.mpr ⟨_, hloop, Run.bind_eq_ok.mpr ⟨_, hget1, ?_⟩⟩
    split
    · next hnone =>
      rw [hcase] at hnone
      cases hnone
    · next r' hr' =>
      obtain rfl : r' = r := Option.some.inj (hr'.symm.trans hcase)
      refine Run.bind_eq_ok.mpr ⟨_, hfree2, ?_⟩
      refine Run.bind_eq_ok.mpr ⟨_, get_of_mem hq3, ?_⟩
      have hend : (s3.set q (s2.mem q)).set q { s2.mem q with next := none } = s3 := by
        have hlast : ({ s2.mem q with next := none } : StructPbuf) = s3.mem q := by
          rw [hmem3q, hmem2cq]
        rw [hlast]
        unfold PbufStore.set
        rw [Function.update_idem, Function.update_eq_self]
      have hmemq' : (s3.set q (s2.mem q)).mem q = s2.mem q := set_mem_self _
      rw [hmemq']
      exact congrArg Except.ok hend

/-! ## Headers -/

/-- The length of the first pbuf of a packet changes, and its sum with it. -/
theorem Good.resize (h : s.Good elems hs) (hsum : s.SummedUp) (hp : p ∈ hs)
    (hcount : s.ref p = hs.count p) {b : StructPbuf} (hnext : b.next = (s.mem p).next)
    (href : b.ref = (s.mem p).ref) (htype : b.typeInternal = (s.mem p).typeInternal)
    (htot : b.totLen.toNat + s.len p = s.tot p + b.len.toNat) :
    (s.set p b).Good elems hs ∧ (s.set p b).SummedUp := by
  have hlive := h.counted.held p hp
  set s1 := s.set p b with hs1
  have hmem1 : ∀ a, a ≠ p → s1.mem a = s.mem a := fun a ha => set_mem_of_ne _ ha
  have hmemp : s1.mem p = b := set_mem_self _
  have hnext1 : ∀ a, s1.next a = s.next a := by
    intro a
    by_cases hap : a = p
    · rw [hap, next, hmemp, hnext]
      rfl
    · rw [next, hmem1 a hap]
      rfl
  refine ⟨⟨?_, h.pooled.set ?_⟩, ?_⟩
  · refine h.counted.congr (fun a _ => hnext1 a) ?_
    intro a _
    by_cases hap : a = p
    · rw [hap, ref, hmemp, href]
      rfl
    · rw [ref, hmem1 a hap]
      rfl
  · unfold StructPbuf.allocsrc
    rw [htype]
  · intro a ha
    have hsum' := hsum a ha
    have hrest : (s.next a).elim 0 s1.tot = (s.next a).elim 0 s.tot := by
      refine (elim_tot ?_).symm
      intro c hc
      have hcp : c ≠ p := fun heq => h.counted.no_pointer hlive hcount ha (heq ▸ hc)
      exact tot_of_mem (hmem1 c hcp)
    rw [hnext1 a, hrest]
    by_cases hap : a = p
    · subst hap
      rw [tot, len, hmemp]
      omega
    · rw [tot, len, hmem1 a hap]
      exact hsum'

/-- `pbuf_add_header`. -/
theorem Good.addHeader (h : s.Good elems hs) (hsum : s.SummedUp) (hp : p ∈ hs)
    (hcount : s.ref p = hs.count p) (n : ℕ) (force : Bool) :
    ∃ r s', s.pbufAddHeader p n force = .ok (r, s') ∧ s'.Good elems hs ∧ s'.SummedUp := by
  have hlive := h.counted.held p hp
  unfold pbufAddHeader
  by_cases hbig : 0xFFFF < n
  · exact ⟨true, s, if_pos hbig, h, hsum⟩
  by_cases hzero : n = 0
  · exact ⟨false, s, (if_neg hbig).trans (if_pos hzero), h, hsum⟩
  rw [if_neg hbig, if_neg hzero, get_of_mem hlive]
  simp only [bind, Except.bind]
  by_cases hwrap : UInt16.ofNat n + (s.mem p).totLen < UInt16.ofNat n
  · rw [if_pos hwrap]
    exact ⟨true, s, rfl, h, hsum⟩
  rw [if_neg hwrap]
  split
  · exact ⟨true, s, rfl, h, hsum⟩
  split
  · exact ⟨true, s, rfl, h, hsum⟩
  refine ⟨false, _, rfl, ?_⟩
  refine h.resize hsum hp hcount rfl rfl rfl ?_
  have hval := hsum p hlive
  have htotlt := (s.mem p).totLen.toNat_lt
  have hn : (UInt16.ofNat n).toNat = n := by
    rw [UInt16.toNat_ofNat']
    omega
  rw [UInt16.lt_iff_toNat_lt, UInt16.toNat_add, hn] at hwrap
  show ((s.mem p).totLen + UInt16.ofNat n).toNat + s.len p
    = s.tot p + ((s.mem p).len + UInt16.ofNat n).toNat
  rw [UInt16.toNat_add, UInt16.toNat_add, hn]
  have hle : s.len p ≤ s.tot p := by omega
  unfold len tot at *
  omega

/-- `pbuf_remove_header`. -/
theorem Good.removeHeader (h : s.Good elems hs) (hsum : s.SummedUp) (hp : p ∈ hs)
    (hcount : s.ref p = hs.count p) (n : ℕ) :
    ∃ r s', s.pbufRemoveHeader p n = .ok (r, s') ∧ s'.Good elems hs ∧ s'.SummedUp := by
  have hlive := h.counted.held p hp
  unfold pbufRemoveHeader
  by_cases hbig : 0xFFFF < n
  · exact ⟨true, s, if_pos hbig, h, hsum⟩
  by_cases hzero : n = 0
  · exact ⟨false, s, (if_neg hbig).trans (if_pos hzero), h, hsum⟩
  rw [if_neg hbig, if_neg hzero, get_of_mem hlive]
  simp only [bind, Except.bind]
  by_cases hshort : (s.mem p).len < UInt16.ofNat n
  · rw [if_pos hshort]
    exact ⟨true, s, rfl, h, hsum⟩
  rw [if_neg hshort]
  refine ⟨false, _, rfl, ?_⟩
  refine h.resize hsum hp hcount rfl rfl rfl ?_
  have hval := hsum p hlive
  have hle : UInt16.ofNat n ≤ (s.mem p).len := UInt16.not_lt.mp hshort
  have hle' : UInt16.ofNat n ≤ (s.mem p).totLen := by
    rw [UInt16.le_iff_toNat_le] at hle ⊢
    unfold len tot at hval
    omega
  show ((s.mem p).totLen - UInt16.ofNat n).toNat + s.len p
    = s.tot p + ((s.mem p).len - UInt16.ofNat n).toNat
  rw [UInt16.toNat_sub_of_le _ _ hle, UInt16.toNat_sub_of_le _ _ hle']
  rw [UInt16.le_iff_toNat_le] at hle hle'
  unfold len tot at *
  omega

end PbufStore

end Cannelloni
