import AliluOS.Lib.Extent
import AliluOS.Lib.LinkedList
import Mathlib.Algebra.Order.Ring.Nat
import Mathlib.Logic.Function.Basic

/-! The kernel heap: the fixed-size block allocator over the address-sorted
fallback list (`allocator.rs`). Free memory holds its own list nodes, so the
model keeps the 64-bit words of memory and follows the same links as the code.
A loop over links takes fuel, and `none` means that the fuel ran out or the code
panicked. -/

namespace AliluOS.Allocator
open Lib

/-- `usize` arithmetic, which panics outside the range in the dev profile. -/
def addUsize (a b : Nat) : Option Nat := if a + b < 2 ^ 64 then some (a + b) else none

def subUsize (a b : Nat) : Option Nat := if b ≤ a then some (a - b) else none

/-- What `Layout::from_size_align` accepts: a power of two for the alignment,
and a size that rounded up to it is at most `isize::MAX`. -/
structure Layout where
  size : Nat
  align : Nat
  align_pow : ∃ k, align = 2 ^ k
  size_le : size + align ≤ 2 ^ 63

structure ListNode where
  size : Nat
  next : Nat

namespace ListNode

def sizeOf : Nat := 16

def alignOf : Nat := 8

def new (size : Nat) : ListNode := ⟨size, 0⟩

end ListNode

/-- The words of memory by their address, and the addresses of the node headers
that the call in progress has written so far. -/
structure Memory where
  word : Nat → Nat
  headerWrites : List Nat

/-- A place that holds a link: `fallback.head.next`, `list_heads[i]`, or the
`next` field of the node at an address. -/
inductive Slot
  | head
  | classHead (i : Fin 8)
  | node (a : Nat)
deriving DecidableEq

structure Heap where
  mem : Memory
  listHeads : Fin 8 → Nat
  head : ListNode

namespace Heap

def new (word : Nat → Nat) : Heap := ⟨⟨word, []⟩, fun _ => 0, ListNode.new 0⟩

def poke (h : Heap) (w v : Nat) : Heap :=
  { h with mem := { h.mem with word := Function.update h.mem.word w v } }

def logWrite (h : Heap) (a : Nat) : Heap :=
  { h with mem := { h.mem with headerWrites := a :: h.mem.headerWrites } }

def next (h : Heap) : Slot → Nat
  | .head => h.head.next
  | .classHead i => h.listHeads i
  | .node a => h.mem.word (a + 8)

def setNext (h : Heap) (s : Slot) (p : Nat) : Heap :=
  match s with
  | .head => { h with head := { h.head with next := p } }
  | .classHead i => { h with listHeads := Function.update h.listHeads i p }
  | .node a => (h.poke (a + 8) p).logWrite a

def size (h : Heap) (a : Nat) : Nat := h.mem.word a

def setSize (h : Heap) (a n : Nat) : Heap := (h.poke a n).logWrite a

def write (h : Heap) (a : Nat) (n : ListNode) : Heap :=
  (h.setSize a n.size).setNext (.node a) n.next

def region (h : Heap) (a : Nat) : Extent := ⟨a, h.size a⟩

end Heap

def endAddress (region : Extent) : Option Nat := addUsize region.addr region.size

def alignUp (addr align : Nat) : Option Nat :=
  let remainder := addr % align
  if remainder = 0 then some addr else addUsize (addr - remainder) align

def insertionPoint (h : Heap) (alignedAddr : Nat) : Nat → Slot → Option Slot
  | 0, _ => none
  | fuel + 1, current =>
    let nextNode := h.next current
    if nextNode = 0 then some current
    else if nextNode > alignedAddr then some current
    else insertionPoint h alignedAddr fuel (.node nextNode)

def coalesce : Nat → Heap → Slot → Option Heap
  | 0, _, _ => none
  | fuel + 1, h, iter =>
    let currNode := h.next iter
    if currNode = 0 then some h
    else
      let nextNode := h.next (.node currNode)
      if nextNode = 0 then coalesce fuel h (.node currNode)
      else do
        if (← endAddress (h.region currNode)) = nextNode then
          let h := h.setSize currNode (← addUsize (h.size currNode) (h.size nextNode))
          coalesce fuel (h.setNext (.node currNode) (h.next (.node nextNode))) iter
        else coalesce fuel h (.node currNode)

def addFreeRegion (fuel : Nat) (h : Heap) (addr size : Nat) : Option Heap := do
  let alignedAddr ← alignUp addr ListNode.alignOf
  let padding ← subUsize alignedAddr addr
  if size ≤ padding then some h
  else
    let adjustedSize := size - padding
    if adjustedSize < ListNode.sizeOf then some h
    else do
      let h := h.write alignedAddr (ListNode.new adjustedSize)
      let current ← insertionPoint h alignedAddr fuel .head
      let h := h.setNext (.node alignedAddr) (h.next current)
      coalesce fuel (h.setNext current alignedAddr) .head

/-- The start of a block of this size and alignment in the region, or `some none` where it
does not fit. -/
def allocFromRegion (region : Extent) (size align : Nat) : Option (Option Nat) := do
  let allocStart ← alignUp region.addr align
  -- `checked_add`
  match addUsize allocStart size with
  | none => some none
  | some rawAllocEnd =>
    let allocEnd ← alignUp rawAllocEnd ListNode.alignOf
    let stop ← endAddress region
    if allocEnd > stop then some none
    else
      let excessSize := stop - allocEnd
      if excessSize > 0 ∧ excessSize < ListNode.sizeOf then some none else some (some allocStart)

def findRegion (h : Heap) (size align : Nat) : Nat → Slot → Option (Heap × Option (Nat × Nat))
  | 0, _ => none
  | fuel + 1, current =>
    let nextNode := h.next current
    if nextNode = 0 then some (h, none)
    else
      match allocFromRegion (h.region nextNode) size align with
      | none => none
      | some (some allocStart) =>
        some (h.setNext current (h.next (.node nextNode)), some (nextNode, allocStart))
      | some none => findRegion h size align fuel (.node nextNode)

def fallbackAlloc (fuel : Nat) (h : Heap) (layout : Layout) : Option (Heap × Nat) := do
  match ← findRegion h layout.size layout.align fuel .head with
  | (h, some (node, allocStart)) =>
    let nodeSize := h.size node
    let rawAllocEnd ← addUsize allocStart layout.size
    let allocEnd ← alignUp rawAllocEnd ListNode.alignOf
    -- `saturating_sub`
    let excessSize := (← addUsize node nodeSize) - allocEnd
    if excessSize ≥ ListNode.sizeOf then
      let h ← addFreeRegion fuel h allocEnd excessSize
      return (h, allocStart)
    else return (h, allocStart)
  | (h, none) => return (h, 0)

def blockSizes : List Nat := [16, 32, 64, 128, 256, 512, 1024, 2048]

def blockSize (i : Fin 8) : Nat := blockSizes.get i

def listIndex (layout : Layout) : Option (Fin 8) :=
  blockSizes.findFinIdx? fun s => s ≥ max layout.size layout.align

def blockLayout (i : Fin 8) : Layout where
  size := blockSize i
  align := blockSize i
  align_pow := ⟨i + 4, by revert i; decide⟩
  size_le := by revert i; decide

/-- `GlobalAlloc::alloc`; address 0 is the null pointer. -/
def alloc (fuel : Nat) (h : Heap) (layout : Layout) : Option (Heap × Nat) :=
  match listIndex layout with
  | some index =>
    let head := h.next (.classHead index)
    if head ≠ 0 then some (h.setNext (.classHead index) (h.next (.node head)), head)
    else fallbackAlloc fuel h (blockLayout index)
  | none => fallbackAlloc fuel h layout

def dealloc (fuel : Nat) (h : Heap) (ptr : Nat) (layout : Layout) : Option Heap :=
  match listIndex layout with
  | some index =>
    let nextNode := h.next (.classHead index)
    let h := h.write ptr ⟨blockSize index, nextNode⟩
    some (h.setNext (.classHead index) ptr)
  | none => addFreeRegion fuel h ptr layout.size

def init (fuel : Nat) (h : Heap) (heapStart heapSize : Nat) : Option Heap :=
  addFreeRegion fuel h heapStart heapSize

end AliluOS.Allocator
