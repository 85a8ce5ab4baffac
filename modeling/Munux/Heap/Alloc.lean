import Munux.Lib.ByteMem
import Munux.Lib.Links

/-!
# The heap allocator

The executable half of the kernel heap, following `kernel/rust/munux-rs/src/heap.rs`: a first-fit
list of blocks threaded through the heap's own memory. A block is a three-word header (`size`,
`is_free`, `next`) followed by its payload; nothing about the list is kept anywhere else.

The target is 32-bit and built with `overflow-checks = true`, so `usize` arithmetic is `checked`
and a failed check is a panic. Pointer arithmetic (`ptr.add`, `ptr.sub`) is not checked and wraps.
Growing the heap calls back into C; here that callback is a parameter, run on a state `σ` of its
own, so that the allocator can be read alone or on top of the page tables.
-/

namespace Munux

open ByteMem

/-- The allocator's own record. `head` is never null, so it is a plain address. -/
structure Heap where
  head : Nat
  heapEnd : Nat
  max : Nat
  deriving DecidableEq, Repr

namespace Heap

/-- `HEADER_SIZE`: three 32-bit words. -/
def headerSize : Nat := 12

/-- `MIN_SPLIT_REMAINDER` -/
def minSplitRemainder : Nat := headerSize + 16

/-- `DEFAULT_ALIGN` -/
def defaultAlign : Nat := 4

/-- `size_of::<usize>()` -/
def word : Nat := 4

/-! ## Block headers -/

/-- A header as it lies in memory. -/
structure Block where
  size : Nat
  isFree : Nat
  next : Nat
  deriving DecidableEq, Repr

/-- The `size` field of the header at `h`. -/
def sizeOf (m : ByteMem) (h : Nat) : Nat := load32 m h

/-- The `is_free` field of the header at `h`. -/
def isFreeOf (m : ByteMem) (h : Nat) : Nat := load32 m (h + 4)

/-- The `next` field of the header at `h`. -/
def nextOf (m : ByteMem) (h : Nat) : Nat := load32 m (h + 8)

def setSize (m : ByteMem) (h v : Nat) : ByteMem := store32 m h v

def setIsFree (m : ByteMem) (h v : Nat) : ByteMem := store32 m (h + 4) v

def setNext (m : ByteMem) (h v : Nat) : ByteMem := store32 m (h + 8) v

/-- Write all three fields of the header at `h`. -/
def writeBlock (m : ByteMem) (h : Nat) (b : Block) : ByteMem :=
  setNext (setIsFree (setSize m h b.size) h b.isFree) h b.next

/-- `payload_of` -/
def payloadOf (header : Nat) : Nat := (header + headerSize) % wordCount

/-! ## The heap -/

/-- Memory together with the allocator's record. -/
structure State where
  mem : ByteMem
  heap : Heap

/-- `align_up` -/
def alignUp (value align : Nat) : Outcome Nat := do
  let sum ← checkedAdd value align
  let sum ← checkedSub sum 1
  let low ← checkedSub align 1
  return sum &&& (wordCount - 1 - low)

/-- `usize::is_power_of_two` -/
def isPowerOfTwo (n : Nat) : Bool := (List.range 32).any fun k => n == 2 ^ k

/-- `Heap::new` -/
def new (m : ByteMem) (start initialSize max : Nat) : Outcome State := do
  let size ← checkedSub initialSize headerSize
  let m := writeBlock m start { size := size, isFree := 1, next := 0 }
  let heapEnd ← checkedAdd start initialSize
  let max ← checkedAdd start max
  return { mem := m, heap := { head := start, heapEnd := heapEnd, max := max } }

/-- `Heap::split_if_worthwhile` -/
def splitIfWorthwhile (m : ByteMem) (block requested : Nat) : Outcome ByteMem := do
  let least ← checkedAdd requested minSplitRemainder
  if sizeOf m block ≤ least then
    return m
  let newHeader := (payloadOf block + requested) % wordCount
  let rest ← checkedSub (sizeOf m block) requested
  let rest ← checkedSub rest headerSize
  let m' := writeBlock m newHeader { size := rest, isFree := 1, next := nextOf m block }
  return setNext (setSize m' block requested) block newHeader

section Grow

variable {σ : Type}

/-- `Heap::grow_and_attach`. `grow` is the C callback `munux_c_heap_grow`. -/
def growAndAttach (grow : Nat → σ → Outcome (Nat × σ)) (env : σ) (s : State) (tail needed : Nat) :
    Outcome (Nat × State × σ) := do
  let required ← checkedAdd needed headerSize
  -- `end.checked_add(required).is_none_or(|e| e > max)`
  if wordCount ≤ s.heap.heapEnd + required ∨ s.heap.max < s.heap.heapEnd + required then
    return (0, s, env)
  let (newEnd, env) ← grow required env
  if newEnd = 0 ∨ newEnd ≤ s.heap.heapEnd ∨ s.heap.max < newEnd then
    return (0, s, env)
  let newBlock := s.heap.heapEnd
  let m := writeBlock s.mem newBlock { size := needed, isFree := 0, next := 0 }
  let m := setNext m tail newBlock
  return (payloadOf newBlock, { mem := m, heap := { s.heap with heapEnd := newEnd } }, env)

/-- The test of the first-fit loop: a free block that is large enough. -/
def fits (m : ByteMem) (needed block : Nat) : Bool :=
  isFreeOf m block == 1 && decide (needed ≤ sizeOf m block)

/-- `Heap::allocate`. The loop leaves at the first block that fits or at the last one. -/
def allocate (grow : Nat → σ → Outcome (Nat × σ)) (env : σ) (s : State) (size : Nat) :
    Outcome (Nat × State × σ) := do
  if size = 0 then
    return (0, s, env)
  let needed ← alignUp size defaultAlign
  let current ← follow (fun c => fits s.mem needed c || nextOf s.mem c == 0) (nextOf s.mem)
    s.heap.head
  if fits s.mem needed current then
    let m ← splitIfWorthwhile s.mem current needed
    return (payloadOf current, { s with mem := setIsFree m current 0 }, env)
  else
    growAndAttach grow env s current needed

/-- `Heap::allocate_aligned` -/
def allocateAligned (grow : Nat → σ → Outcome (Nat × σ)) (env : σ) (s : State)
    (size align : Nat) : Outcome (Nat × State × σ) := do
  if size = 0 ∨ isPowerOfTwo align = false then
    return (0, s, env)
  let align := Max.max align defaultAlign
  -- `size.checked_add(align).and_then(|v| v.checked_add(word))`
  if wordCount ≤ size + align ∨ wordCount ≤ size + align + word then
    return (0, s, env)
  let (base, s, env) ← allocate grow env s (size + align + word)
  if base = 0 then
    return (0, s, env)
  let first ← checkedAdd base word
  let aligned ← alignUp first align
  let slot ← checkedSub aligned word
  return (aligned, { s with mem := store32 s.mem slot base }, env)

end Grow

/-- `Heap::find_predecessor`. In the release build the walk carries no assertion. -/
def findPredecessor (s : State) (target : Nat) : Outcome (Option Nat) := do
  if s.heap.head = target then
    return none
  let current ← follow (fun c => nextOf s.mem c == target) (nextOf s.mem) s.heap.head
  return some current

/-- `Heap::merge_with_next_if_free` -/
def mergeWithNextIfFree (m : ByteMem) (block : Nat) : Outcome ByteMem := do
  if isFreeOf m block ≠ 1 ∨ nextOf m block = 0 then
    return m
  let n := nextOf m block
  if isFreeOf m n ≠ 1 then
    return m
  let extra ← checkedAdd headerSize (sizeOf m n)
  let size ← checkedAdd (sizeOf m block) extra
  return setNext (setSize m block size) block (nextOf m n)

/-- `Heap::deallocate` -/
def deallocate (s : State) (ptr : Nat) : Outcome State := do
  let header := (ptr + wordCount - headerSize) % wordCount
  let prev ← findPredecessor s header
  let m ← mergeWithNextIfFree (setIsFree s.mem header 1) header
  match prev with
  | some p =>
      let m ← mergeWithNextIfFree m p
      return { s with mem := m }
  | none => return { s with mem := m }

/-- `Heap::deallocate_aligned` -/
def deallocateAligned (s : State) (ptr : Nat) : Outcome State := do
  let slot ← checkedSub ptr word
  let base := load32 s.mem slot
  if base = 0 then
    return s
  deallocate s base

end Heap

end Munux
