import Cannelloni.Hdkif.Rx

/-!
# The transmit ring of the Ethernet port

The transmit side of `hdkif.c`: the ring of descriptors `hdkif_hw_init` makes, `hdkif_output` with
`hdkif_transmit`, `hdkif_tx_inthandler`, and the DMA that sends what is queued. Both functions wait
for the DMA in loops, which is modelled by letting it finish. Descriptors are numbered in the
order of the descriptor memory.
-/

namespace Cannelloni.Hdkif

/-! ## The data -/

/-- `struct emac_tx_bdp`. -/
structure TxBdp where
  next : Option ℕ
  bufoffLen : UInt16
  flags : Flags
  pbuf : ℕ

/-- `struct txch`. -/
structure Txch where
  freeHead : Option ℕ
  activeTail : Option ℕ
  nextBdToProcess : Option ℕ

/-- A packet of the stack: its address, `tot_len`, and the lengths of the pbufs in its chain. -/
structure Packet where
  pbuf : ℕ
  totLen : UInt16
  lens : List UInt16
  ne_nil : lens ≠ []

/-- The transmit channel and the head descriptor pointer. The rest is the history: the packets
given to `hdkif_output`, those `hdkif_tx_inthandler` has freed, the others with their
descriptors, and the descriptors of these that `hdkif_transmit` has filled for another packet. -/
structure Tx where
  bds : ℕ → TxBdp
  txch : Txch
  hdp : Option ℕ
  submitted : List ℕ
  freed : List ℕ
  held : List (ℕ × List ℕ)
  overwritten : List ℕ

/-- What goes wrong: a pointer that is followed is `NULL`, a packet has no end, or a wait for the
DMA never ends. -/
inductive TxFault
  | nullFreeHead
  | nullNext
  | noEnd
  | endlessWait
deriving DecidableEq, Repr

/-- `num_bd` of the transmit channel. -/
def txNumBd : ℕ := (0x2000 >>> 1) / 20

/-- `MIN_PKT_LEN`. -/
def minPktLen : UInt16 := 60

/-- The flags of a descriptor are changed. -/
def TxBdp.withFlags (bd : TxBdp) (f : Flags → Flags) : TxBdp := { bd with flags := f bd.flags }

/-! ## `hdkif_hw_init` -/

/-- The loop over the transmit descriptors. -/
def initTxBds (ram : ℕ → TxBdp) (numBd : ℕ) : ℕ → TxBdp :=
  (List.range numBd).foldl (fun bds d => modifyBd bds d fun bd =>
    { bd with next := some (d + 1), flags := ⟨false, false, false, false, 0⟩ }) ram

/-- The transmit part of `hdkif_hw_init`: the last descriptor points to the first one. -/
def hwInitTx (ram : ℕ → TxBdp) : Tx where
  bds := modifyBd (initTxBds ram txNumBd) (txNumBd - 1) fun bd => { bd with next := some 0 }
  txch := ⟨some 0, none, some 0⟩
  hdp := none
  submitted := []
  freed := []
  held := []
  overwritten := []

/-! ## The DMA -/

/-- The last descriptor of a packet: from `d` on, the first one with `EOP`. -/
def findEop (bds : ℕ → TxBdp) : ℕ → ℕ → Except TxFault ℕ
  | 0, _ => .error .noEnd
  | fuel + 1, d =>
    if (bds d).flags.eop then .ok d
    else
      match (bds d).next with
      | none => .error .nullNext
      | some d' => findEop bds fuel d'

/-- The DMA sends the packet it is at. It gives it back, goes on with what is linked behind it,
and sets `EOQ` when there is nothing. -/
def Tx.dmaComplete (s : Tx) : Tx :=
  match s.hdp with
  | none => s
  | some d =>
    match findEop s.bds txNumBd d with
    | .error _ => s
    | .ok e =>
      { s with
        bds := modifyBd (modifyBd s.bds d fun bd => bd.withFlags fun f => { f with owner := false })
          e fun bd => bd.withFlags fun f => { f with eoq := f.eoq || bd.next.isNone }
        hdp := (s.bds e).next }

/-- The DMA sends what is queued. -/
def Tx.dmaRun : ℕ → Tx → Tx
  | 0, s => s
  | n + 1, s => dmaRun n s.dmaComplete

/-! ## `hdkif_output` -/

/-- What the loop over the pbufs of a packet leaves: the descriptors it filled, and `curr_bd`. -/
structure Filled where
  bds : ℕ → TxBdp
  currBd : Option ℕ
  filled : List ℕ

/-- The loop over the pbufs of a packet. -/
def fillBds (pbuf : ℕ) : List UInt16 → (ℕ → TxBdp) → Option ℕ → Except TxFault Filled
  | [], bds, currBd => .ok ⟨bds, currBd, []⟩
  | _ :: _, _, none => .error .nullNext
  | len :: lens, bds, some d => do
    let r ← fillBds pbuf lens (modifyBd bds d fun bd => { bd with bufoffLen := len, pbuf := pbuf })
      (bds d).next
    return { r with filled := d :: r.filled }

/-- The new packet is linked behind the last one, once the DMA has come to the end of that one,
and the DMA is started. -/
def Tx.link (s : Tx) (activeHead : ℕ) : Except TxFault Tx :=
  match s.txch.activeTail with
  | none => .ok { s with hdp := some activeHead }
  | some tail =>
    let s := s.dmaRun txNumBd
    if (s.bds tail).flags.eoq ∧ s.hdp = none then
      .ok { s with
        bds := modifyBd s.bds tail fun bd => { bd with next := some activeHead }
        hdp := some activeHead }
    else .error .endlessWait

/-- `hdkif_transmit`. -/
def Tx.transmit (s : Tx) (p : Packet) : Except TxFault Tx :=
  match s.txch.freeHead with
  | none => .error .nullFreeHead
  | some activeHead => do
    let r ← fillBds p.pbuf p.lens
      (modifyBd s.bds activeHead fun bd =>
        bd.withFlags fun _ => ⟨true, false, true, false, p.totLen⟩) (some activeHead)
    let bdEnd := r.filled.getLastD activeHead
    let s' := { s with
      bds := modifyBd r.bds bdEnd fun bd =>
        { bd.withFlags fun f => { f with eop := true } with next := none }
      txch := { s.txch with freeHead := r.currBd }
      submitted := s.submitted ++ [p.pbuf]
      held := s.held ++ [(p.pbuf, r.filled)]
      overwritten := s.overwritten ++ r.filled.filter fun d => d ∈ s.held.flatMap Prod.snd }
    let s'' ← s'.link activeHead
    return { s'' with txch := { s''.txch with activeTail := some bdEnd } }

/-- `hdkif_output`: a packet that is too short is sent with the least length. -/
def Tx.output (s : Tx) (p : Packet) : Except TxFault Tx :=
  if p.totLen < minPktLen then
    s.transmit { p with
      totLen := minPktLen
      lens := minPktLen :: p.lens.tail
      ne_nil := by simp }
  else s.transmit p

/-! ## `hdkif_tx_inthandler` -/

/-- The packet at `d` is given back to the stack: `SOP` and `EOP` are taken away, and the next one
to look at is the one behind it, or the next one that will be sent. -/
def Tx.release (s : Tx) (d e : ℕ) : Tx :=
  { s with
    bds := modifyBd (modifyBd s.bds d fun bd => bd.withFlags fun f => { f with sop := false })
      e fun bd => bd.withFlags fun f => { f with eop := false }
    txch := { s.txch with
      nextBdToProcess := if (s.bds e).next = none then s.txch.freeHead else (s.bds e).next }
    freed := s.freed ++ [(s.bds e).pbuf]
    held := s.held.tail }

/-- The loop over the packets. -/
def Tx.handlerLoop : ℕ → Tx → Except TxFault Tx
  | 0, _ => .error .endlessWait
  | fuel + 1, s =>
    match s.txch.nextBdToProcess with
    | none => .error .nullNext
    | some d =>
      if (s.bds d).flags.sop then
        let s := if (s.bds d).flags.owner then s.dmaRun txNumBd else s
        if (s.bds d).flags.owner then .error .endlessWait
        else do
          let e ← findEop s.bds txNumBd d
          handlerLoop fuel (s.release d e)
      else .ok s

/-- `hdkif_tx_inthandler`. There are not more packets than descriptors. -/
def Tx.inthandler (s : Tx) : Except TxFault Tx := s.handlerLoop (txNumBd + 1)

/-! ## The system -/

/-- The stack sends a packet, the DMA is done with one, or the handler runs. -/
inductive TxEvent
  | output (p : Packet)
  | dma
  | inthandler

def Tx.step (s : Tx) : TxEvent → Except TxFault Tx
  | .output p => s.output p
  | .dma => .ok s.dmaComplete
  | .inthandler => s.inthandler

end Cannelloni.Hdkif
