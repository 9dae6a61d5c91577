import Cannelloni.Lib.Linked
import Cannelloni.Lib.Run

/-!
# The receive ring of the Ethernet port

The receive side of `hdkif.c`: buffer descriptors, `struct rxch`, the receive part of
`hdkif_hw_init`, a pass of the loop in `hdkif_rx_inthandler`, and the DMA that fills descriptors.
Descriptors are numbered from the first one of the receive channel on, and pbufs by their
addresses.
-/

namespace Cannelloni.Hdkif

/-! ## The data -/

/-- `flags_pktlen`: the four flags the driver looks at, and the length of the packet. -/
structure Flags where
  sop : Bool
  eop : Bool
  owner : Bool
  eoq : Bool
  pktlen : UInt16
deriving DecidableEq, Repr

/-- `EMAC_BUF_DESC_OWNER` and nothing else. -/
def Flags.armed : Flags := ⟨false, false, true, false, 0⟩

/-- The packet in the descriptors `l` and then `e` ends with the first `EOP`. -/
structure EndsPacket (flags : ℕ → Flags) (l : List ℕ) (e : ℕ) : Prop where
  not_eop : ∀ d ∈ l, (flags d).eop = false
  eop : (flags e).eop = true

theorem EndsPacket.tail {flags : ℕ → Flags} {l : List ℕ} {d e : ℕ}
    (h : EndsPacket flags (d :: l) e) : EndsPacket flags l e where
  not_eop := fun a ha => h.not_eop a (List.mem_cons_of_mem d ha)
  eop := h.eop

/-- `struct emac_rx_bdp`. Buffers have no offset, so `bufoff_len` is a length. -/
structure RxBdp where
  next : Option ℕ
  bufoffLen : UInt16
  flags : Flags
  pbuf : ℕ

/-- What the driver uses of `struct pbuf`. -/
structure Pbuf where
  next : Option ℕ
  len : UInt16
  totLen : UInt16
deriving DecidableEq

/-- `struct rxch`. -/
structure Rxch where
  freeHead : Option ℕ
  activeHead : Option ℕ
  activeTail : ℕ
  freedPbufLen : UInt32

/-- The receive channel, and the descriptor the DMA fills next. -/
structure Rx where
  bds : ℕ → RxBdp
  pbufs : ℕ → Pbuf
  rxch : Rxch
  hdp : Option ℕ

/-- A descriptor is changed. -/
def modifyBd {α : Type} (bds : ℕ → α) (d : ℕ) (f : α → α) : ℕ → α :=
  fun a => if a = d then f (bds a) else bds a

@[simp] theorem modifyBd_self {α : Type} (bds : ℕ → α) (d : ℕ) (f : α → α) :
    modifyBd bds d f d = f (bds d) := if_pos rfl

theorem modifyBd_of_ne {α : Type} (bds : ℕ → α) {d a : ℕ} (h : a ≠ d) (f : α → α) :
    modifyBd bds d f a = bds a := if_neg h

/-- What a change leaves as it is, it leaves as it is everywhere. -/
theorem modifyBd_proj {α β : Type} (π : α → β) (bds : ℕ → α) (d a : ℕ) {f : α → α}
    (h : ∀ bd, π (f bd) = π bd) : π (modifyBd bds d f a) = π (bds a) := by
  by_cases had : a = d
  · rw [had, modifyBd_self, h]
  · rw [modifyBd_of_ne _ had]

theorem update_proj {α β : Type} (π : α → β) (bds : ℕ → α) (d a : ℕ) {bd : α}
    (h : π bd = π (bds d)) : π (Function.update bds d bd a) = π (bds a) := by
  by_cases had : a = d
  · rw [had, Function.update_self, h]
  · rw [Function.update_of_ne had]

/-- The `next` pointer of a descriptor is written. -/
def setNext (bds : ℕ → RxBdp) (d : ℕ) (next : Option ℕ) : ℕ → RxBdp :=
  modifyBd bds d fun bd => { bd with next := next }

@[simp] theorem setNext_next_self (bds : ℕ → RxBdp) (d : ℕ) (next : Option ℕ) :
    (setNext bds d next d).next = next := by
  unfold setNext
  rw [modifyBd_self]

theorem setNext_of_ne (bds : ℕ → RxBdp) {d a : ℕ} (h : a ≠ d) (next : Option ℕ) :
    setNext bds d next a = bds a := modifyBd_of_ne bds h _

@[simp] theorem setNext_flags (bds : ℕ → RxBdp) (d : ℕ) (next : Option ℕ) (a : ℕ) :
    (setNext bds d next a).flags = (bds a).flags :=
  modifyBd_proj RxBdp.flags bds d a fun _ => rfl

@[simp] theorem setNext_pbuf (bds : ℕ → RxBdp) (d : ℕ) (next : Option ℕ) (a : ℕ) :
    (setNext bds d next a).pbuf = (bds a).pbuf :=
  modifyBd_proj RxBdp.pbuf bds d a fun _ => rfl

@[simp] theorem setNext_bufoffLen (bds : ℕ → RxBdp) (d : ℕ) (next : Option ℕ) (a : ℕ) :
    (setNext bds d next a).bufoffLen = (bds a).bufoffLen :=
  modifyBd_proj RxBdp.bufoffLen bds d a fun _ => rfl

/-- A chain of new pbufs with their lengths, as `pbuf_alloc` returns it. -/
structure NewPbufs where
  chain : List (ℕ × UInt16)
  ne_nil : chain ≠ []

/-- What goes wrong: a pointer that is followed is `NULL`, or a packet has no end. -/
inductive RxFault
  | nullActiveHead
  | nullFreeHead
  | nullNext
  | noEnd
deriving DecidableEq, Repr

/-- `num_bd` of the receive channel. -/
def rxNumBd : ℕ := (0x2000 >>> 1) / 20 - 1

/-- `MAX_RX_PBUF_ALLOC`. -/
def maxRxPbufAlloc : ℕ := 10

/-- The length of a chain from the lengths of its parts. -/
def sumLens (lens : List UInt16) : UInt16 := lens.foldr (· + ·) 0

/-! ## `pbuf_alloc` -/

/-- The fields `pbuf_alloc` writes. -/
def storeChain : List (ℕ × UInt16) → (ℕ → Pbuf) → ℕ → Pbuf
  | [], pbufs => pbufs
  | (q, len) :: qs, pbufs =>
    storeChain qs (Function.update pbufs q
      ⟨qs.head?.map Prod.fst, len, len + sumLens (qs.map Prod.snd)⟩)

/-! ## `hdkif_hw_init` -/

/-- The variables of the loop in `hdkif_hw_init`. -/
structure RxInit where
  bds : ℕ → RxBdp
  pbufs : ℕ → Pbuf
  currBd : ℕ
  lastBd : ℕ
  numBd : ℕ

/-- A descriptor is written for a pbuf of the chain. -/
def RxInit.arm (s : RxInit) (q : ℕ × UInt16) : RxInit where
  bds := Function.update s.bds s.currBd ⟨some (s.currBd + 1), q.2, .armed, q.1⟩
  pbufs := s.pbufs
  currBd := s.currBd + 1
  lastBd := s.currBd
  numBd := s.numBd - 1

/-- The loop, with the outcomes of `pbuf_alloc`. -/
def RxInit.loop (alloc : ℕ → Option NewPbufs) : ℕ → ℕ → RxInit → RxInit
  | 0, _, s => s
  | n + 1, pbufCnt, s =>
    match alloc pbufCnt with
    | none => s
    | some new =>
      if new.chain.length ≤ s.numBd then
        loop alloc n (pbufCnt + 1)
          (new.chain.foldl arm { s with pbufs := storeChain new.chain s.pbufs })
      else s

/-- The receive part of `hdkif_hw_init`. `ram` is what the descriptors held before. -/
def hwInitRx (ram : ℕ → RxBdp) (pbufs : ℕ → Pbuf) (alloc : ℕ → Option NewPbufs) : Rx :=
  let s := RxInit.loop alloc maxRxPbufAlloc 0 ⟨ram, pbufs, 0, 0, rxNumBd⟩
  { bds := setNext s.bds s.lastBd none
    pbufs := s.pbufs
    rxch := ⟨none, some 0, s.lastBd, 0⟩
    hdp := some 0 }

/-- The number of descriptors `hdkif_hw_init` arms. -/
def initialised (ram : ℕ → RxBdp) (pbufs : ℕ → Pbuf) (alloc : ℕ → Option NewPbufs) : ℕ :=
  (RxInit.loop alloc maxRxPbufAlloc 0 ⟨ram, pbufs, 0, 0, rxNumBd⟩).currBd

/-! ## The DMA -/

/-- The DMA fills a descriptor for each length, from a pointer on. It goes on only in descriptors
that it owns, and a descriptor that points to nowhere ends the queue. -/
def dmaFill (pktlen : UInt16) : Bool → List UInt16 → Option ℕ → (ℕ → RxBdp) →
    Option ((ℕ → RxBdp) × Option ℕ)
  | _, [], hdp, bds => some (bds, hdp)
  | _, _ :: _, none, _ => none
  | sop, len :: lens, some d, bds =>
    if (bds d).flags.owner then
      dmaFill pktlen false lens (bds d).next (Function.update bds d { bds d with
        bufoffLen := len
        flags := ⟨sop, lens.isEmpty, false, (bds d).next.isNone, if sop then pktlen else 0⟩ })
    else none

/-- A packet with the given lengths of its parts arrives. It is lost if there are not enough
descriptors. -/
def Rx.receive (s : Rx) (lens : List UInt16) : Rx :=
  match dmaFill (sumLens lens) true lens s.hdp s.bds with
  | none => s
  | some (bds, hdp) => { s with bds := bds, hdp := hdp }

/-! ## `hdkif_rx_inthandler` -/

/-- What a pass of the loop gets from outside: what is read as a pbuf through a `next` that is
`NULL`, what `ethernet_input` does with the pbufs, and the outcome of `pbuf_alloc`. -/
structure RxOutside where
  atNull : Option ℕ
  ethernetInput : (ℕ → Pbuf) → ℕ → Pbuf
  alloc : Option NewPbufs

/-- What the `do` loop leaves: the pbufs, `pbuf`, `processed_bd`, `curr_bd` and `len_to_alloc`. -/
structure Collected where
  pbufs : ℕ → Pbuf
  pbuf : ℕ
  processedBd : ℕ
  currBd : Option ℕ
  lenToAlloc : UInt32

/-- The `do` loop over the descriptors of a packet. -/
def collect (bds : ℕ → RxBdp) (atNull : Option ℕ) (totLen : UInt16) :
    ℕ → ℕ → UInt32 → UInt32 → (ℕ → Pbuf) → Except RxFault Collected
  | 0, _, _, _, _ => .error .noEnd
  | fuel + 1, currBd, exLen, lenToAlloc, pbufs =>
    let bd := bds currBd
    let p := pbufs bd.pbuf
    let next := if p.next = none then
        match bd.next with
        | some d => some (bds d).pbuf
        | none => atNull
      else p.next
    let pbufs' := Function.update pbufs bd.pbuf
      ⟨next, bd.bufoffLen, (totLen.toUInt32 - exLen).toUInt16⟩
    let lenToAlloc' := lenToAlloc + p.len.toUInt32
    if bd.flags.eop then .ok ⟨pbufs', bd.pbuf, currBd, bd.next, lenToAlloc'⟩
    else
      match bd.next with
      | none => .error .nullNext
      | some d =>
        collect bds atNull totLen fuel d (exLen + bd.bufoffLen.toUInt32) lenToAlloc' pbufs'

/-- What the `for` loop over the new pbufs leaves. `rest` are the pbufs that found no
descriptor. -/
structure Refilled where
  bds : ℕ → RxBdp
  currBd : Option ℕ
  lastBd : ℕ
  freedPbufLen : UInt32
  rest : List (ℕ × UInt16)

/-- The `for` loop over the new pbufs. -/
def refill (activeHead : Option ℕ) : List (ℕ × UInt16) → Refilled → Except RxFault Refilled
  | [], r => .ok { r with rest := [] }
  | (q, len) :: qs, r =>
    if r.currBd = activeHead then .ok { r with rest := (q, len) :: qs }
    else
      match r.currBd with
      | none => .error .nullFreeHead
      | some d => refill activeHead qs
        { r with
          bds := Function.update r.bds d
            { r.bds d with bufoffLen := len, flags := .armed, pbuf := q }
          currBd := (r.bds d).next
          lastBd := d
          freedPbufLen := r.freedPbufLen - len.toUInt32 }

/-- The new descriptors are put behind the active ones, and the DMA is started again if it had
come to their end. -/
def Rx.append (s : Rx) (r : Refilled) : Rx :=
  let tail := s.rxch.activeTail
  let bds := setNext (setNext r.bds r.lastBd none) tail s.rxch.freeHead
  { s with
    bds := bds
    rxch := { s.rxch with
      freeHead := r.currBd
      activeTail := r.lastBd
      freedPbufLen := r.freedPbufLen }
    hdp := if (bds tail).flags.eoq then s.rxch.freeHead else s.hdp }

/-- Descriptors are written for the new pbufs, and the rest of these is given back. `last_bd` is
`active_tail` whenever a pass begins. -/
def Rx.rearm (s : Rx) (new : NewPbufs) : Except RxFault Rx := do
  let r ← refill s.rxch.activeHead new.chain
    ⟨s.bds, s.rxch.freeHead, s.rxch.activeTail, s.rxch.freedPbufLen, []⟩
  return { s with pbufs := storeChain new.chain s.pbufs }.append r

/-- The chain of a packet is closed and given to `ethernet_input`, and its descriptors to the
free ones. -/
def Rx.deliver (s : Rx) (out : RxOutside) (currBd : ℕ) (c : Collected) : Rx :=
  { s with
    pbufs := out.ethernetInput
      (Function.update c.pbufs c.pbuf { c.pbufs c.pbuf with next := none })
    rxch := { s.rxch with
      freeHead := s.rxch.freeHead.or (some currBd)
      activeHead := c.currBd
      freedPbufLen := s.rxch.freedPbufLen + c.lenToAlloc } }

/-- A pass over a packet that starts at `currBd`. -/
def Rx.processPacket (s : Rx) (out : RxOutside) (currBd : ℕ) : Except RxFault Rx := do
  let c ← collect s.bds out.atNull (s.bds currBd).flags.pktlen rxNumBd currBd 0 0 s.pbufs
  match out.alloc with
  | none => return s.deliver out currBd c
  | some new => (s.deliver out currBd c).rearm new

/-- A pass of the `while` loop, with its test. Without a packet at `active_head` the handler is
done; one that is still being received is waited for. -/
def Rx.pass (s : Rx) (out : RxOutside) : Except RxFault Rx :=
  match s.rxch.activeHead with
  | none => .error .nullActiveHead
  | some currBd =>
    if (s.bds currBd).flags.sop then
      if (s.bds currBd).flags.owner then .ok s
      else s.processPacket out currBd
    else .ok s

/-! ## The system -/

/-- A packet arrives, or the handler makes a pass. -/
inductive RxEvent
  | receive (lens : List UInt16)
  | pass (out : RxOutside)

def Rx.step (s : Rx) : RxEvent → Except RxFault Rx
  | .receive lens => .ok (s.receive lens)
  | .pass out => s.pass out

end Cannelloni.Hdkif
