import Cannelloni.Lib.RefCount
import Cannelloni.Lib.Run
import Cannelloni.Lwip.Mem

/-!
# Packet buffers (`core/pbuf.c`, `core/memp.c`)

The reference counts of the packet buffers, their chains, and the two pools they come from. A pbuf
is known by its address. Which addresses are pbufs in use is part of the state, and it is a fault
to look at any other one. Buffers of type `PBUF_RAM` are on the heap: what `mem_malloc` returns is
part of the event.

`PbufSystem` is the pbufs with their users, who hold references: a reference is given up once, by
`pbuf_free`, or by `pbuf_cat` to the chain.
-/

namespace Cannelloni

/-! ## The data -/

/-- `pbuf_layer`. -/
inductive PbufLayer
  | transport
  | ip
  | link
  | rawTx
  | raw
deriving DecidableEq, Repr

/-- The value of a layer: the room for its header and those below. -/
def PbufLayer.offset : PbufLayer → UInt16
  | .transport => 74
  | .ip => 54
  | .link => 14
  | .rawTx => 0
  | .raw => 0

/-- `pbuf_type`. -/
inductive PbufType
  | ram
  | rom
  | ref
  | pool
deriving DecidableEq, Repr

/-- `(u8_t)type`. -/
def PbufType.internal : PbufType → UInt8
  | .ram => 0x80
  | .rom => 0x01
  | .ref => 0x41
  | .pool => 0x82

/-- The pools of `memp.c` for pbufs. -/
inductive Memp
  | pbuf
  | pbufPool
deriving DecidableEq, Repr

/-- The allocation source of what comes from a pool. -/
def Memp.src : Memp → UInt8
  | .pbuf => 0x01
  | .pbufPool => 0x02

/-- `struct pbuf`. -/
structure StructPbuf where
  next : Option ℕ
  payload : ℕ
  totLen : UInt16
  len : UInt16
  typeInternal : UInt8
  ref : UInt8
deriving DecidableEq, Repr

/-- `pbuf_get_allocsrc`. -/
def StructPbuf.allocsrc (b : StructPbuf) : UInt8 := b.typeInternal &&& 0x0F

/-- `SIZEOF_STRUCT_PBUF`. -/
def sizeofStructPbuf : ℕ := 16

/-- `PBUF_POOL_BUFSIZE_ALIGNED`. -/
def pbufPoolBufsize : UInt16 := 1400

/-- `PBUF_TYPE_FLAG_STRUCT_DATA_CONTIGUOUS`. -/
def structDataContiguous : UInt8 := 0x80

/-- The assertions, a look at what is not a pbuf, and a loop that does not come to its end. -/
inductive PbufFault
  | notInUse
  | notAligned
  | bufSize
  | freeNull
  | refZero
  | invalidType
  | refOverflow
  | lastTotLen
  | dechainTotLen
  | dechainLen
  | reallocNull
  | endless
deriving DecidableEq, Repr

/-- `LWIP_ASSERT`. -/
def pbufAssert (p : Prop) [Decidable p] (f : PbufFault) : Except PbufFault Unit :=
  if p then .ok () else .error f

/-- `LWIP_MEM_ALIGN_SIZE` of a `u16_t`. -/
def alignSize16 (n : UInt16) : UInt16 := (n + 3) &&& ~~~3

/-! ## The pools -/

/-- The pbufs in use, what is stored in them, and the free elements of the pools. -/
structure PbufStore where
  live : Finset ℕ
  mem : ℕ → StructPbuf
  tabs : Memp → List ℕ

namespace PbufStore

/-- The loop of `memp_init_pool`. -/
def mempInitPool (base num size : ℕ) : List ℕ :=
  (List.range num).foldl (fun tab i => (lwipMemAlign base + i * size) :: tab) []

/-- `do_memp_malloc_pool`. -/
def mempMalloc (s : PbufStore) (type : Memp) : Except PbufFault (Option ℕ × PbufStore) :=
  match s.tabs type with
  | [] => .ok (none, s)
  | memp :: rest => do
    pbufAssert (memp % 4 = 0) .notAligned
    return (some memp, { s with tabs := Function.update s.tabs type rest })

/-- `do_memp_free_pool`. -/
def mempFree (s : PbufStore) (type : Memp) (mem : ℕ) : Except PbufFault PbufStore := do
  pbufAssert (mem % 4 = 0) .notAligned
  return { s with tabs := Function.update s.tabs type (mem :: s.tabs type) }

/-! ## Access -/

def get (s : PbufStore) (p : ℕ) : Except PbufFault StructPbuf :=
  if p ∈ s.live then .ok (s.mem p) else .error .notInUse

def set (s : PbufStore) (p : ℕ) (b : StructPbuf) : PbufStore :=
  { s with mem := Function.update s.mem p b }

/-- No loop over a chain takes more steps. -/
def steps (s : PbufStore) : ℕ := s.live.card + 1

/-! ## `pbuf_free` and `pbuf_ref` -/

/-- A pbuf goes back to where it came from. -/
def dealloc (s : PbufStore) (p : ℕ) (allocSrc : UInt8) : Except PbufFault PbufStore :=
  let s := { s with live := s.live.erase p }
  if allocSrc = 0x02 then s.mempFree .pbufPool p
  else if allocSrc = 0x01 then s.mempFree .pbuf p
  else if allocSrc = 0x00 then .ok s
  else .error .invalidType

/-- The loop of `pbuf_free`. -/
def freeLoop : ℕ → Option ℕ → UInt8 → PbufStore → Except PbufFault (UInt8 × PbufStore)
  | _, none, count, s => .ok (count, s)
  | 0, some _, _, _ => .error .endless
  | n + 1, some p, count, s => do
    let b ← s.get p
    pbufAssert (0 < b.ref) .refZero
    let ref := b.ref - 1
    let s := s.set p { b with ref := ref }
    if ref = 0 then
      let s ← s.dealloc p b.allocsrc
      freeLoop n b.next (count + 1) s
    else return (count, s)

/-- `pbuf_free`. -/
def pbufFree (s : PbufStore) : Option ℕ → Except PbufFault (UInt8 × PbufStore)
  | none => .error .freeNull
  | some p => freeLoop s.steps (some p) 0 s

/-- `pbuf_ref`. -/
def pbufRef (s : PbufStore) : Option ℕ → Except PbufFault PbufStore
  | none => .ok s
  | some p => do
    let b ← s.get p
    let s := s.set p { b with ref := b.ref + 1 }
    pbufAssert (0 < b.ref + 1) .refOverflow
    return s

/-! ## `pbuf_alloc` -/

/-- `pbuf_init_alloced_pbuf`. -/
def initAlloced (s : PbufStore) (p payload : ℕ) (totLen len : UInt16) (type : PbufType) :
    PbufStore where
  live := insert p s.live
  mem := Function.update s.mem p ⟨none, payload, totLen, len, type.internal, 1⟩
  tabs := s.tabs

/-- `pbuf_alloc_reference`. -/
def pbufAllocReference (s : PbufStore) (payload : ℕ) (length : UInt16) (type : PbufType) :
    Except PbufFault (Option ℕ × PbufStore) := do
  let (p, s) ← s.mempMalloc .pbuf
  match p with
  | none => return (none, s)
  | some p => return (some p, s.initAlloced p payload length length type)

/-- `last->next = q`. -/
def linkLast (s : PbufStore) (head : Option (ℕ × ℕ)) (q : ℕ) : Except PbufFault PbufStore :=
  match head with
  | none => .ok s
  | some (_, last) => do
    let b ← s.get last
    return s.set last { b with next := some q }

/-- The loop for `PBUF_POOL`. `head` is the first and the last pbuf of the chain so far. -/
def allocPool : ℕ → Option (ℕ × ℕ) → UInt16 → UInt16 → PbufStore →
    Except PbufFault (Option ℕ × PbufStore)
  | 0, _, _, _, _ => .error .endless
  | n + 1, head, remLen, offset, s => do
    let (q, s) ← s.mempMalloc .pbufPool
    match q with
    | none =>
      match head with
      | none => return (none, s)
      | some (p, _) =>
        let (_, s) ← s.pbufFree (some p)
        return (none, s)
    | some q =>
      let qlen := min remLen (pbufPoolBufsize - alignSize16 offset)
      let payload := lwipMemAlign (q + sizeofStructPbuf + offset.toNat)
      let s := s.initAlloced q payload remLen qlen .pool
      pbufAssert (payload % 4 = 0) .notAligned
      pbufAssert (0 < pbufPoolBufsize - alignSize16 offset) .bufSize
      let s ← s.linkLast head q
      let p := (head.map Prod.fst).getD q
      if 0 < remLen - qlen then allocPool n (some (p, q)) (remLen - qlen) 0 s
      else return (some p, s)

/-- `pbuf_alloc`. `rmem` is what `mem_malloc` returns for `PBUF_RAM`. -/
def pbufAlloc (s : PbufStore) (layer : PbufLayer) (length : UInt16) (type : PbufType)
    (rmem : Option ℕ) : Except PbufFault (Option ℕ × PbufStore) :=
  match type with
  | .ref => s.pbufAllocReference 0 length .ref
  | .rom => s.pbufAllocReference 0 length .rom
  | .pool => allocPool ((s.tabs .pbufPool).length + 1) none length layer.offset s
  | .ram =>
    match rmem with
    | none => .ok (none, s)
    | some p => do
      let payload := lwipMemAlign (p + sizeofStructPbuf + layer.offset.toNat)
      let s := s.initAlloced p payload length length .ram
      pbufAssert (payload % 4 = 0) .notAligned
      return (some p, s)

/-! ## Chains -/

/-- The loop of `pbuf_cat` to the last pbuf of the chain. -/
def catLoop (t : ℕ) : ℕ → ℕ → PbufStore → Except PbufFault (ℕ × PbufStore)
  | 0, _, _ => .error .endless
  | n + 1, p, s => do
    let b ← s.get p
    match b.next with
    | none => return (p, s)
    | some q =>
      let tb ← s.get t
      catLoop t n q (s.set p { b with totLen := b.totLen + tb.totLen })

/-- `pbuf_cat`. -/
def pbufCat (s : PbufStore) (h t : ℕ) : Except PbufFault PbufStore := do
  let (p, s) ← catLoop t s.steps h s
  let b ← s.get p
  pbufAssert (b.totLen = b.len) .lastTotLen
  let tb ← s.get t
  return s.set p { b with totLen := b.totLen + tb.totLen, next := some t }

/-- `pbuf_chain`. -/
def pbufChain (s : PbufStore) (h t : ℕ) : Except PbufFault PbufStore := do
  let s ← s.pbufCat h t
  s.pbufRef (some t)

/-- `pbuf_dechain`. -/
def pbufDechain (s : PbufStore) (p : ℕ) : Except PbufFault (Option ℕ × PbufStore) := do
  let b ← s.get p
  match b.next with
  | none =>
    pbufAssert (b.totLen = b.len) .dechainLen
    return (none, s)
  | some q =>
    let qb ← s.get q
    pbufAssert ((qb.totLen.toNat : ℤ) = b.totLen.toNat - b.len.toNat) .dechainTotLen
    let s := s.set q { qb with totLen := b.totLen - b.len }
    let s := s.set p { b with next := none, totLen := b.len }
    let (tailGone, s) ← s.pbufFree (some q)
    let b ← s.get p
    pbufAssert (b.totLen = b.len) .dechainLen
    return (if 0 < tailGone then none else some q, s)

/-- The loop of `pbuf_realloc` over the pbufs that stay: the new last one, and its length. -/
def reallocLoop (shrink : UInt16) : ℕ → ℕ → UInt16 → PbufStore →
    Except PbufFault (ℕ × UInt16 × PbufStore)
  | 0, _, _, _ => .error .endless
  | n + 1, q, remLen, s => do
    let b ← s.get q
    if b.len < remLen then
      let s := s.set q { b with totLen := b.totLen - shrink }
      match b.next with
      | none => throw .reallocNull
      | some q' => reallocLoop shrink n q' (remLen - b.len) s
    else return (q, remLen, s)

/-- `pbuf_realloc`. The call of `mem_trim` for a last pbuf on the heap is left out: it is taken to
return the pbuf it is given, as the two assertions behind it ask for. `Heap.memTrim` does so unless
it fails itself, for a region at the end of the heap. -/
def pbufRealloc (s : PbufStore) (p : ℕ) (newLen : UInt16) : Except PbufFault PbufStore := do
  let b ← s.get p
  if b.totLen ≤ newLen then return s
  else
    let (q, remLen, s) ← reallocLoop (b.totLen - newLen) s.steps p newLen s
    let qb ← s.get q
    let s := s.set q { qb with len := remLen, totLen := remLen }
    match qb.next with
    | none => return s
    | some r =>
      let (_, s) ← s.pbufFree (some r)
      let qb ← s.get q
      return s.set q { qb with next := none }

/-! ## Headers -/

/-- `pbuf_add_header_impl`, which returns whether it fails. -/
def pbufAddHeader (s : PbufStore) (p n : ℕ) (force : Bool) :
    Except PbufFault (Bool × PbufStore) := do
  if 0xFFFF < n then return (true, s)
  else if n = 0 then return (false, s)
  else
    let b ← s.get p
    let magnitude := UInt16.ofNat n
    if magnitude + b.totLen < magnitude then return (true, s)
    else if b.typeInternal &&& structDataContiguous ≠ 0 ∧ b.payload < p + sizeofStructPbuf + n then
      return (true, s)
    else if b.typeInternal &&& structDataContiguous = 0 ∧ ¬force then return (true, s)
    else
      return (false, s.set p { b with
        payload := b.payload - n, len := b.len + magnitude, totLen := b.totLen + magnitude })

/-- `pbuf_remove_header`, which returns whether it fails. -/
def pbufRemoveHeader (s : PbufStore) (p n : ℕ) : Except PbufFault (Bool × PbufStore) := do
  if 0xFFFF < n then return (true, s)
  else if n = 0 then return (false, s)
  else
    let b ← s.get p
    let magnitude := UInt16.ofNat n
    if b.len < magnitude then return (true, s)
    else
      return (false, s.set p { b with
        payload := b.payload + n, len := b.len - magnitude, totLen := b.totLen - magnitude })

end PbufStore

/-! ## The pbufs and their users -/

/-- The pbufs, and the references of the users. -/
structure PbufSystem where
  store : PbufStore
  holders : List ℕ

inductive PbufEvent
  | alloc (layer : PbufLayer) (length : UInt16) (type : PbufType) (rmem : Option ℕ)
  | ref (p : ℕ)
  | free (p : ℕ)
  | cat (h t : ℕ)
  | chain (h t : ℕ)
  | dechain (p : ℕ)
  | realloc (p : ℕ) (newLen : UInt16)
  | addHeader (p n : ℕ) (force : Bool)
  | removeHeader (p n : ℕ)
deriving DecidableEq, Repr

namespace PbufSystem

def step (s : PbufSystem) : PbufEvent → Except PbufFault PbufSystem
  | .alloc layer length type rmem => do
    let (p, store) ← s.store.pbufAlloc layer length type rmem
    return ⟨store, p.toList ++ s.holders⟩
  | .ref p => do
    let store ← s.store.pbufRef (some p)
    return ⟨store, p :: s.holders⟩
  | .free p => do
    let (_, store) ← s.store.pbufFree (some p)
    return ⟨store, s.holders.erase p⟩
  | .cat h t => do
    let store ← s.store.pbufCat h t
    return ⟨store, s.holders.erase t⟩
  | .chain h t => do
    let store ← s.store.pbufChain h t
    return ⟨store, s.holders⟩
  | .dechain p => do
    let (_, store) ← s.store.pbufDechain p
    return ⟨store, s.holders⟩
  | .realloc p newLen => do
    let store ← s.store.pbufRealloc p newLen
    return ⟨store, s.holders⟩
  | .addHeader p n force => do
    let (_, store) ← s.store.pbufAddHeader p n force
    return ⟨store, s.holders⟩
  | .removeHeader p n => do
    let (_, store) ← s.store.pbufRemoveHeader p n
    return ⟨store, s.holders⟩

/-- The chain from a pbuf on. -/
def chainOf (s : PbufSystem) (p : ℕ) : List ℕ :=
  Linked.walk (fun a => (s.store.mem a).next) s.store.steps (some p)

/-- Nobody but the users and the pbufs in front refers to the pbufs of the chain. -/
def Alone (s : PbufSystem) (p : ℕ) : Prop :=
  ∀ a ∈ s.chainOf p,
    (s.store.mem a).ref.toNat = s.holders.count a + if a = p then 0 else 1

instance (s : PbufSystem) (p : ℕ) : Decidable (s.Alone p) :=
  inferInstanceAs (Decidable (∀ a ∈ s.chainOf p, _ = _))

/-- Two chains may be put together: they are two packets, no other chain runs into the first one,
and the length of both fits in its field. -/
def Joins (s : PbufSystem) (h t : ℕ) : Prop :=
  h ∈ s.holders ∧ t ∈ s.holders ∧ s.Alone h ∧ (∀ a ∈ s.chainOf h, a ∉ s.chainOf t) ∧
    (s.store.mem h).totLen.toNat + (s.store.mem t).totLen.toNat < 65536

instance (s : PbufSystem) (h t : ℕ) : Decidable (s.Joins h t) :=
  inferInstanceAs (Decidable (_ ∧ _))

/-- The users keep to their references. The heap hands out what is not in use and not in a pool,
whose elements are `elems`. Who changes lengths has the chain for itself, as far as its links go,
and no more than 255 references are taken. -/
def Proper (elems : Memp → List ℕ) (s : PbufSystem) : PbufEvent → Prop
  | .alloc _ _ _ rmem =>
    ∀ p ∈ rmem, p ∉ s.store.live ∧ p ∉ elems .pbuf ∧ p ∉ elems .pbufPool
  | .ref p => p ∈ s.holders ∧ (s.store.mem p).ref < 255
  | .free p => p ∈ s.holders
  | .cat h t => s.Joins h t
  | .chain h t => s.Joins h t ∧ (s.store.mem t).ref < 255
  | .dechain p => p ∈ s.holders ∧ (s.store.mem p).ref.toNat = s.holders.count p
  | .realloc p _ => p ∈ s.holders ∧ s.Alone p
  | .addHeader p _ _ => p ∈ s.holders ∧ (s.store.mem p).ref.toNat = s.holders.count p
  | .removeHeader p _ => p ∈ s.holders ∧ (s.store.mem p).ref.toNat = s.holders.count p

instance (elems : Memp → List ℕ) (s : PbufSystem) : ∀ e, Decidable (s.Proper elems e)
  | .alloc _ _ _ rmem => inferInstanceAs (Decidable (∀ p ∈ rmem, _ ∧ _))
  | .ref _ => inferInstanceAs (Decidable (_ ∧ _))
  | .free p => inferInstanceAs (Decidable (p ∈ s.holders))
  | .cat h t => inferInstanceAs (Decidable (s.Joins h t))
  | .chain _ _ => inferInstanceAs (Decidable (_ ∧ _))
  | .dechain _ => inferInstanceAs (Decidable (_ ∧ _))
  | .realloc _ _ => inferInstanceAs (Decidable (_ ∧ _))
  | .addHeader _ _ _ => inferInstanceAs (Decidable (_ ∧ _))
  | .removeHeader _ _ => inferInstanceAs (Decidable (_ ∧ _))

end PbufSystem

/-- Where the linker puts the two pools. They do not overlap. -/
structure PbufAreas where
  pbufBase : ℕ
  poolBase : ℕ
  apart : lwipMemAlign pbufBase + 16 * 16 ≤ lwipMemAlign poolBase ∨
    lwipMemAlign poolBase + 16 * 1416 ≤ lwipMemAlign pbufBase

/-- `memp_init`, for the two pools: `MEMP_NUM_PBUF` and `PBUF_POOL_SIZE` elements. -/
def PbufAreas.elems (areas : PbufAreas) : Memp → List ℕ
  | .pbuf => PbufStore.mempInitPool areas.pbufBase 16 16
  | .pbufPool => PbufStore.mempInitPool areas.poolBase 16 1416

namespace PbufSystem

/-- Behind `memp_init`: no pbuf is in use. -/
def init (areas : PbufAreas) (mem : ℕ → StructPbuf) : PbufSystem := ⟨⟨∅, mem, areas.elems⟩, []⟩

/-- The events from the start on. -/
def run (areas : PbufAreas) (mem : ℕ → StructPbuf) (events : List PbufEvent) :
    Except PbufFault PbufSystem := Run.exec step (init areas mem) events

end PbufSystem

end Cannelloni
