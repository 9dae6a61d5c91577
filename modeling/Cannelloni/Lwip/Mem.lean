import Cannelloni.Lib.Bytes
import Cannelloni.Lib.Run

/-!
# The heap of lwIP (`core/mem.c`)

The packet buffers the gateway allocates come from here. The heap is an array of bytes in which
each block has a `struct mem` in front; a `struct mem *` is known by its index, the one
`mem_to_ptr` gives. What `mem_malloc` hands out and the others take back is an address. The
statistics and the overflow checks are off, and the mutex does nothing without an operating system.

`HeapSystem` is the heap with its users: each holds the regions it was given, writes into them and
nowhere else, and frees them once.
-/

namespace Cannelloni

open Bytes

/-! ## Sizes and addresses -/

/-- `LWIP_MEM_ALIGN_SIZE`, with `MEM_ALIGNMENT` 4. -/
def lwipMemAlignSize (size : UInt32) : UInt32 := (size + 3) &&& ~~~3

/-- `LWIP_MEM_ALIGN`. -/
def lwipMemAlign (addr : ℕ) : ℕ := (addr + 3) / 4 * 4

/-- `MEM_SIZE_ALIGNED`, and the index of `ram_end`. -/
def memSizeAligned : ℕ := 256 * 1024

/-- `SIZEOF_STRUCT_MEM`. -/
def sizeofStructMem : ℕ := 12

/-- `MIN_SIZE_ALIGNED`. -/
def minSizeAligned : ℕ := 12

/-- The size of the data of a block for a request: `mem_malloc` and `mem_trim` begin with it. -/
def dataSize (size : UInt32) : ℕ :=
  if (lwipMemAlignSize size).toNat < minSizeAligned then minSizeAligned
  else (lwipMemAlignSize size).toNat

/-- The assertions, and a loop that does not come to its end. -/
inductive MemFault
  | plugHolesMem
  | plugHolesUsed
  | plugHolesNext
  | freeAlignment
  | freeIllegalMemory
  | doubleFree
  | notLinked
  | trimIllegalMemory
  | trimGrows
  | invalidNextPtr
  | lfreeUsed
  | aboveRamEnd
  | notAligned
  | endless
deriving DecidableEq, Repr

/-- `LWIP_ASSERT`, which halts the gateway. -/
def lwipAssert (p : Prop) [Decidable p] (f : MemFault) : Except MemFault Unit :=
  if p then .ok () else .error f

/-! ## The heap -/

/-- `ram`, the bytes behind it, and `lfree`. -/
structure Heap where
  ram : ℕ
  bytes : ℕ → UInt8
  lfree : ℕ

namespace Heap

/-- `mem->next`. -/
def next (h : Heap) (mem : ℕ) : ℕ := (load32 h.bytes mem).toNat

/-- `mem->prev`. -/
def prev (h : Heap) (mem : ℕ) : ℕ := (load32 h.bytes (mem + 4)).toNat

/-- `mem->used`. -/
def used (h : Heap) (mem : ℕ) : UInt8 := h.bytes (mem + 8)

def setNext (h : Heap) (mem v : ℕ) : Heap :=
  { h with bytes := store32 h.bytes mem (UInt32.ofNat v) }

def setPrev (h : Heap) (mem v : ℕ) : Heap :=
  { h with bytes := store32 h.bytes (mem + 4) (UInt32.ofNat v) }

def setUsed (h : Heap) (mem : ℕ) (v : UInt8) : Heap :=
  { h with bytes := Function.update h.bytes (mem + 8) v }

def setLfree (h : Heap) (mem : ℕ) : Heap := { h with lfree := mem }

/-- "plug hole forward", in `plug_holes`. -/
def plugForward (h : Heap) (mem : ℕ) : Heap :=
  let nmem := h.next mem
  if mem ≠ nmem ∧ h.used nmem = 0 ∧ nmem ≠ memSizeAligned then
    let h := if h.lfree = nmem then h.setLfree mem else h
    let h := h.setNext mem (h.next nmem)
    if h.next nmem ≠ memSizeAligned then h.setPrev (h.next nmem) mem else h
  else h

/-- "plug hole backward". -/
def plugBackward (h : Heap) (mem : ℕ) : Heap :=
  let pmem := h.prev mem
  if pmem ≠ mem ∧ h.used pmem = 0 then
    let h := if h.lfree = mem then h.setLfree pmem else h
    let h := h.setNext pmem (h.next mem)
    if h.next mem ≠ memSizeAligned then h.setPrev (h.next mem) pmem else h
  else h

/-- `plug_holes`. -/
def plugHoles (h : Heap) (mem : ℕ) : Except MemFault Heap := do
  lwipAssert (mem < memSizeAligned) .plugHolesMem
  lwipAssert (h.used mem = 0) .plugHolesUsed
  lwipAssert (h.next mem ≤ memSizeAligned) .plugHolesNext
  return (h.plugForward mem).plugBackward mem

/-- `mem_init`, with the heap at `LWIP_RAM_HEAP_POINTER`. -/
def memInit (ramHeapPointer : ℕ) (bytes : ℕ → UInt8) : Heap :=
  let h : Heap := ⟨lwipMemAlign ramHeapPointer, bytes, 0⟩
  let h := ((h.setNext 0 memSizeAligned).setPrev 0 0).setUsed 0 0
  let h := ((h.setUsed memSizeAligned 1).setNext memSizeAligned memSizeAligned).setPrev
    memSizeAligned memSizeAligned
  h.setLfree 0

/-- `mem_link_valid`. -/
def memLinkValid (h : Heap) (mem : ℕ) : Bool :=
  let nmem := h.next mem
  let pmem := h.prev mem
  ¬(memSizeAligned < nmem ∨ memSizeAligned < pmem ∨ pmem ≠ mem ∧ h.next pmem ≠ mem ∨
    nmem ≠ memSizeAligned ∧ h.prev nmem ≠ mem)

/-- `mem_free`. -/
def memFree (h : Heap) (rmem : ℕ) : Except MemFault Heap :=
  if rmem = 0 then .ok h
  else do
    lwipAssert (rmem % 4 = 0) .freeAlignment
    lwipAssert (¬(rmem < h.ram + sizeofStructMem ∨
      h.ram + memSizeAligned < rmem + minSizeAligned)) .freeIllegalMemory
    let mem := rmem - sizeofStructMem - h.ram
    lwipAssert (h.used mem ≠ 0) .doubleFree
    lwipAssert (h.memLinkValid mem) .notLinked
    let h := h.setUsed mem 0
    let h := if mem < h.lfree then h.setLfree mem else h
    h.plugHoles mem

/-- The part of `mem_trim` behind its checks: the data of the block at `ptr` shrinks from `size` to
`newsize`. -/
def shrink (h : Heap) (ptr size newsize : ℕ) : Except MemFault Heap :=
  let mem2 := h.next ptr
  let ptr2 := ptr + sizeofStructMem + newsize
  if h.used mem2 = 0 then do
    -- the unused block behind it is moved
    lwipAssert (h.next ptr ≠ memSizeAligned) .invalidNextPtr
    let next := h.next mem2
    let h := if h.lfree = mem2 then h.setLfree ptr2 else h
    let h := (((h.setUsed ptr2 0).setNext ptr2 next).setPrev ptr2 ptr).setNext ptr ptr2
    return if h.next ptr2 ≠ memSizeAligned then h.setPrev (h.next ptr2) ptr2 else h
  else if newsize + sizeofStructMem + minSizeAligned ≤ size then do
    -- there is room for another block
    lwipAssert (h.next ptr ≠ memSizeAligned) .invalidNextPtr
    let h := if ptr2 < h.lfree then h.setLfree ptr2 else h
    let h := h.setUsed ptr2 0
    let h := ((h.setNext ptr2 (h.next ptr)).setPrev ptr2 ptr).setNext ptr ptr2
    return if h.next ptr2 ≠ memSizeAligned then h.setPrev (h.next ptr2) ptr2 else h
  else .ok h

/-- `mem_trim`, which returns `rmem` or `NULL`. -/
def memTrim (h : Heap) (rmem : ℕ) (newSize : UInt32) : Except MemFault (Option ℕ × Heap) :=
  let newsize := dataSize newSize
  if memSizeAligned < newsize ∨ newsize < newSize.toNat then .ok (none, h)
  else do
    lwipAssert (h.ram ≤ rmem ∧ rmem < h.ram + memSizeAligned) .trimIllegalMemory
    let ptr := rmem - sizeofStructMem - h.ram
    let size := h.next ptr - ptr - sizeofStructMem
    lwipAssert (newsize ≤ size) .trimGrows
    if newsize = size then return (some rmem, h)
    else do
      let h ← h.shrink ptr size newsize
      return (some rmem, h)

/-- The search in `mem_malloc`, of at most so many blocks. -/
def scan (h : Heap) (size : ℕ) : ℕ → ℕ → Except MemFault (Option ℕ)
  | 0, _ => .error .endless
  | steps + 1, ptr =>
    if ptr < memSizeAligned - size then
      if h.used ptr = 0 ∧ size ≤ h.next ptr - (ptr + sizeofStructMem) then .ok (some ptr)
      else h.scan size steps (h.next ptr)
    else .ok none

/-- The loop that looks for the next free block. -/
def nextFree (h : Heap) : ℕ → ℕ → Except MemFault ℕ
  | 0, _ => .error .endless
  | steps + 1, cur =>
    if h.used cur ≠ 0 ∧ cur ≠ memSizeAligned then h.nextFree steps (h.next cur) else .ok cur

/-- The block at `ptr` is taken, and split if there is room for another one behind it. -/
def split (h : Heap) (ptr size : ℕ) : Except MemFault Heap :=
  if size + sizeofStructMem + minSizeAligned ≤ h.next ptr - (ptr + sizeofStructMem) then do
    let ptr2 := ptr + sizeofStructMem + size
    lwipAssert (ptr2 ≠ memSizeAligned) .invalidNextPtr
    let h := h.setUsed ptr2 0
    let h := ((h.setNext ptr2 (h.next ptr)).setPrev ptr2 ptr).setNext ptr ptr2
    let h := h.setUsed ptr 1
    return if h.next ptr2 ≠ memSizeAligned then h.setPrev (h.next ptr2) ptr2 else h
  else .ok (h.setUsed ptr 1)

/-- The lowest free block is looked for if it is the one that was taken. -/
def adjustLfree (h : Heap) (mem : ℕ) : Except MemFault Heap :=
  if mem = h.lfree then do
    let cur ← h.nextFree (memSizeAligned + 1) h.lfree
    let h := h.setLfree cur
    lwipAssert (h.lfree = memSizeAligned ∨ h.used h.lfree = 0) .lfreeUsed
    return h
  else .ok h

/-- `mem_malloc`. -/
def memMalloc (h : Heap) (sizeIn : UInt32) : Except MemFault (Option ℕ × Heap) :=
  if sizeIn = 0 then .ok (none, h)
  else
    let size := dataSize sizeIn
    if memSizeAligned < size ∨ size < sizeIn.toNat then .ok (none, h)
    else do
      match ← h.scan size (memSizeAligned + 1) h.lfree with
      | none => return (none, h)
      | some mem =>
        let h ← h.split mem size
        let h ← h.adjustLfree mem
        lwipAssert (mem + sizeofStructMem + size ≤ memSizeAligned) .aboveRamEnd
        lwipAssert ((h.ram + mem + sizeofStructMem) % 4 = 0) .notAligned
        lwipAssert ((h.ram + mem) % 4 = 0) .notAligned
        return (some (h.ram + mem + sizeofStructMem), h)

end Heap

/-! ## The heap and its users -/

/-- What a user holds: the pointer, and for each byte it asked for what it has written there. -/
structure Region where
  rmem : ℕ
  data : List (Option UInt8)
deriving DecidableEq, Repr

structure HeapSystem where
  heap : Heap
  held : List Region

inductive HeapEvent
  | malloc (size : UInt32)
  | free (rmem : ℕ)
  | trim (rmem : ℕ) (newSize : UInt32)
  /-- a byte is written into a region -/
  | write (rmem offset : ℕ) (v : UInt8)
deriving DecidableEq, Repr

namespace HeapSystem

def step (s : HeapSystem) : HeapEvent → Except MemFault HeapSystem
  | .malloc size => do
    let (rmem, heap) ← s.heap.memMalloc size
    return ⟨heap, rmem.toList.map (⟨·, List.replicate size.toNat none⟩) ++ s.held⟩
  | .free rmem => do
    let heap ← s.heap.memFree rmem
    return ⟨heap, s.held.eraseP fun r => r.rmem = rmem⟩
  | .trim rmem newSize => do
    let (res, heap) ← s.heap.memTrim rmem newSize
    return ⟨heap, s.held.map fun r =>
      if res = some r.rmem then { r with data := r.data.take newSize.toNat } else r⟩
  | .write rmem offset v =>
    .ok ⟨{ s.heap with bytes := Function.update s.heap.bytes (rmem - s.heap.ram + offset) v },
      s.held.map fun r =>
        if r.rmem = rmem then { r with data := r.data.set offset (some v) } else r⟩

/-- The users keep to what they hold: they free and trim regions they were given and have not given
back, a region only shrinks, and they write inside of it. -/
def Proper (s : HeapSystem) : HeapEvent → Prop
  | .malloc _ => True
  | .free rmem => rmem = 0 ∨ ∃ r ∈ s.held, r.rmem = rmem
  | .trim rmem newSize => ∃ r ∈ s.held, r.rmem = rmem ∧ newSize.toNat ≤ r.data.length
  | .write rmem offset _ => ∃ r ∈ s.held, r.rmem = rmem ∧ offset < r.data.length

instance (s : HeapSystem) : ∀ e, Decidable (s.Proper e)
  | .malloc _ => inferInstanceAs (Decidable True)
  | .free rmem => inferInstanceAs (Decidable (rmem = 0 ∨ ∃ r ∈ s.held, r.rmem = rmem))
  | .trim rmem newSize =>
    inferInstanceAs (Decidable (∃ r ∈ s.held, r.rmem = rmem ∧ newSize.toNat ≤ r.data.length))
  | .write rmem offset _ =>
    inferInstanceAs (Decidable (∃ r ∈ s.held, r.rmem = rmem ∧ offset < r.data.length))

/-- Behind `mem_init`: nothing is held. -/
def init (ramHeapPointer : ℕ) (bytes : ℕ → UInt8) : HeapSystem :=
  ⟨.memInit ramHeapPointer bytes, []⟩

/-- The events from the start on. -/
def run (ramHeapPointer : ℕ) (bytes : ℕ → UInt8) (events : List HeapEvent) :
    Except MemFault HeapSystem := Run.exec step (init ramHeapPointer bytes) events

end HeapSystem

end Cannelloni
