import AliluOS.Allocator.Walks
import AliluOS.Lib.Run
import Mathlib.Data.List.FinRange

/-! Runs of the allocator and its callers. The callers own the bytes of their
live blocks and may store anything there between two calls. -/

namespace AliluOS.Allocator
open Lib Lib.Extent

deriving instance DecidableEq for Layout

/-- The heap, and the live blocks with the layouts they were allocated for. -/
structure State where
  heap : Heap
  live : List (Nat × Layout)

def Heap.startCall (h : Heap) : Heap := { h with mem := { h.mem with headerWrites := [] } }

inductive Call
  | alloc (layout : Layout)
  | dealloc (ptr : Nat) (layout : Layout)
  | store (w v : Nat)

/-- The contract of `GlobalAlloc`: no layout of size zero, and `dealloc` takes a
live pointer with the layout it was allocated with. A store changes one word
that holds at least one byte of a live block. -/
inductive Step : State → Call → State → Prop
  | alloc {s : State} {layout : Layout} {fuel p : Nat} {h : Heap} :
      1 ≤ layout.size → alloc fuel s.heap.startCall layout = some (h, p) →
      Step s (.alloc layout) ⟨h, if p = 0 then s.live else (p, layout) :: s.live⟩
  | dealloc {s : State} {layout : Layout} {fuel p : Nat} {h : Heap} :
      (p, layout) ∈ s.live → dealloc fuel s.heap.startCall p layout = some h →
      Step s (.dealloc p layout) ⟨h, s.live.erase (p, layout)⟩
  | store {s : State} {layout : Layout} {p w v : Nat} :
      (p, layout) ∈ s.live → 8 ∣ w → p < w + 8 → w < p + layout.size →
      Step s (.store w v) ⟨s.heap.startCall.poke w v, s.live⟩

def Boot (heapStart heapSize : Nat) (s : State) : Prop :=
  ∃ fuel word, init fuel (Heap.new word) heapStart heapSize = some s.heap ∧ s.live = []

/-- The bytes kept for a live block: the whole class block on the fast path. -/
def footprint (layout : Layout) : Nat :=
  match listIndex layout with
  | some i => blockSize i
  | none => layout.size

def reserved (live : List (Nat × Layout)) : List Extent :=
  live.map fun x => ⟨x.1, footprint x.2⟩

def classExtents (blocks : Fin 8 → List Nat) : List Extent :=
  (List.finRange 8).flatMap fun i => (blocks i).map fun a => ⟨a, blockSize i⟩

end AliluOS.Allocator
