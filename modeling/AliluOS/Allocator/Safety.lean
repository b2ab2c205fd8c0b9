import AliluOS.Allocator.Calls

/-! Every run keeps the heap invariant, and every legal call returns. -/

namespace AliluOS.Allocator
open Lib Lib.Extent

/-- A node at address 0 is null to every walk: the list stays empty. -/
theorem addFreeRegion_zero {h h' : Heap} {size fuel : Nat} (hempty : h.head.next = 0)
    (hsize : 16 ≤ size) (hrun : addFreeRegion fuel h 0 size = some h') :
    h'.head.next = 0 ∧ Agree h h' [0] := by
  rw [addFreeRegion_of_dvd fuel h (dvd_zero 8), if_neg (by omega)] at hrun
  have hag : Agree h (h.write 0 (ListNode.new size)) [0] := h.agree_write 0 _
  have hhead : (h.write 0 (ListNode.new size)).next .head = 0 := hempty
  cases fuel with
  | zero => simp [insertionPoint] at hrun
  | succ fuel =>
    simp only [insertionPoint, hhead, if_true, Option.bind_some, coalesce,
      Heap.next_setNext_self] at hrun
    obtain rfl := Option.some.inj hrun
    refine ⟨rfl, hag.trans ?_⟩
    exact ((Heap.agree_setNext_node _ 0 0).trans ((Heap.agree_setNext_head _ 0).mono (by simp)))

theorem init_returns {heapStart size : Nat} (hstart : 0 < heapStart)
    (haligned : heapStart ≤ 2 ^ 64 - 8) (hstop : heapStart + size ≤ 2 ^ 64) (word : Nat → Nat) :
    ∃ h, init 2 (Heap.new word) heapStart size = some h := by
  rw [init]
  rcases addFreeRegion_trim 2 (Heap.new word) (alignUp_eight haligned) with
    ⟨-, htriv⟩ | ⟨q, hle, hdvd, hge, -, heq⟩
  · exact ⟨_, htriv⟩
  · have hempty : FreeAt (Heap.new word) .head [] := ⟨rfl, by simp⟩
    have hnew : IsNode ⟨q, heapStart + size - q⟩ := ⟨hdvd, by simp only; omega⟩
    have hp : Packed heapStart (heapStart + size) [⟨q, heapStart + size - q⟩] :=
      Packed.nil.cons (by simp only; omega) ⟨hle, by simp only [Extent.stop]; omega⟩ (by simp)
    obtain ⟨h, hrun, -, -⟩ := addFreeRegion_spec hempty (by simp) .nil (packed_widen hp hstop) hnew
      (hstart.trans_le hle).ne' (Nat.lt_succ_self _)
    exact ⟨h, heq.trans hrun⟩

theorem boot_inv {heapStart heapSize : Nat} {s : State} (hstop : heapStart + heapSize ≤ 2 ^ 64)
    (hboot : Boot heapStart heapSize s) :
    (∃ free, Inv heapStart (heapStart + heapSize) s free (fun _ => []) ∧ free.length ≤ 1) ∧
      WritesOk heapStart (heapStart + heapSize) s := by
  obtain ⟨fuel, word, hrun, hlive⟩ := hboot
  obtain ⟨h, live⟩ := s
  obtain rfl : live = [] := hlive
  have hempty : FreeAt (Heap.new word) .head [] := ⟨rfl, by simp⟩
  have hinv : ∀ {free}, FreeAt h .head free → h.listHeads = (Heap.new word).listHeads →
      Packed heapStart (heapStart + heapSize) free → (∀ e ∈ free, IsNode e) →
      Canonical free → Inv heapStart (heapStart + heapSize) ⟨h, []⟩ free fun _ => [] := by
    intro free hl hheads hp hnode hc
    refine ⟨hl, fun i => congrFun hheads i, ?_, hnode, hc, by simp, by simp⟩
    simpa [reserved, classExtents_nil] using hp
  have hwrites : ∀ {q}, Agree (Heap.new word) h [q] → heapStart ≤ q →
      q + 16 ≤ heapStart + heapSize → WritesOk heapStart (heapStart + heapSize) ⟨h, []⟩ := by
    intro q hag hq hq' a ha
    obtain rfl : a = q := by simpa [Heap.new] using hag.writes a ha
    exact ⟨hq, hq', by simp⟩
  rcases addFreeRegion_trim fuel (Heap.new word) (alignUp_of_addFreeRegion hrun) with
    ⟨-, htriv⟩ | ⟨q, hle, hdvd, hge, -, heq⟩
  · obtain rfl := Option.some.inj (htriv.symm.trans hrun)
    refine ⟨⟨[], hinv hempty rfl Packed.nil (by simp) .nil, by simp⟩, ?_⟩
    simp [WritesOk, Heap.new]
  · have hrun' := heq.symm.trans hrun
    rcases Nat.eq_zero_or_pos q with rfl | hpos
    · obtain ⟨hnext, hag⟩ := addFreeRegion_zero rfl (by omega) hrun'
      have hnil : FreeAt h .head [] := ⟨hnext, by simp⟩
      exact ⟨⟨[], hinv hnil hag.listHeads Packed.nil (by simp) .nil, by simp⟩, hwrites hag hle hge⟩
    · have hnew : IsNode ⟨q, heapStart + heapSize - q⟩ := ⟨hdvd, by simp only; omega⟩
      have hp : Packed heapStart (heapStart + heapSize) [⟨q, heapStart + heapSize - q⟩] :=
        Packed.nil.cons (by simp only; omega) ⟨hle, by simp only [Extent.stop]; omega⟩ (by simp)
      obtain ⟨h', hrun'', hl', hag⟩ :=
        addFreeRegion_spec hempty (by simp) .nil (packed_widen hp hstop)
        hnew hpos.ne' (Nat.lt_succ_self _)
      obtain rfl := eq_of_mono addFreeRegion_mono hrun' hrun''
      have hreg := regrouped_insert ⟨q, heapStart + heapSize - q⟩ []
      have hc := canonical_coalesceList (sorted_insertSorted List.Pairwise.nil hp)
      refine ⟨⟨_, hinv hl' hag.listHeads ?_ (hreg.nodes (by simpa using hnew)) hc, ?_⟩,
        hwrites hag hle hge⟩
      · have hpacked := hreg.packed (by rwa [List.append_nil])
        rwa [List.append_nil] at hpacked
      · simp [insertSorted, coalesceList]

def Good (start stop : Nat) (s : State) : Prop :=
  (∃ free blocks, Inv start stop s free blocks) ∧ WritesOk start stop s

variable {start stop : Nat} {s s' : State}

theorem alloc_good {layout : Layout} {fuel p : Nat} {h : Heap} (hgood : Good start stop s)
    (hstop : stop ≤ 2 ^ 64) (hsize : 1 ≤ layout.size)
    (hrun : alloc fuel s.heap.startCall layout = some (h, p)) :
    Good start stop ⟨h, if p = 0 then s.live else (p, layout) :: s.live⟩ := by
  obtain ⟨⟨free, blocks, hinv⟩, -⟩ := hgood
  rcases alloc_cases hinv hstop hsize hrun with
    ⟨-, hp, hinv', hwrites⟩ | ⟨-, -, -, -, hp, hinv', hwrites⟩ | ⟨-, -, rfl, hinv', hwrites⟩
  · rw [if_neg hp]
    exact ⟨⟨_, _, hinv'⟩, hwrites⟩
  · rw [if_neg hp]
    exact ⟨⟨_, _, hinv'⟩, hwrites⟩
  · exact ⟨⟨_, _, hinv'⟩, hwrites⟩

theorem dealloc_good {layout : Layout} {fuel p : Nat} {h : Heap} (hgood : Good start stop s)
    (hstop : stop ≤ 2 ^ 64) (hmem : (p, layout) ∈ s.live)
    (hrun : dealloc fuel s.heap.startCall p layout = some h) :
    Good start stop ⟨h, s.live.erase (p, layout)⟩ := by
  obtain ⟨⟨free, blocks, hinv⟩, -⟩ := hgood
  obtain ⟨hinv', hwrites⟩ := dealloc_inv hinv hstop hmem hrun
  exact ⟨⟨_, _, hinv'⟩, hwrites⟩

theorem step_good {c : Call} (hstop : stop ≤ 2 ^ 64) (hgood : Good start stop s)
    (hs : Step s c s') : Good start stop s' := by
  cases hs with
  | alloc hsize hrun => exact alloc_good hgood hstop hsize hrun
  | dealloc hmem hrun => exact dealloc_good hgood hstop hmem hrun
  | store hmem h8 hlo hhi =>
    obtain ⟨⟨free, blocks, hinv⟩, -⟩ := hgood
    exact ⟨⟨free, blocks, hinv.store hmem h8 hlo hhi _⟩, writesOk_nil rfl⟩

theorem run_good {heapStart heapSize : Nat} {s₀ s : State} {tr : List (State × Call)}
    (hstop : heapStart + heapSize ≤ 2 ^ 64) (hboot : Boot heapStart heapSize s₀)
    (hrun : Run Step s₀ tr s) : Good heapStart (heapStart + heapSize) s := by
  obtain ⟨⟨free, hinv, -⟩, hwrites⟩ := boot_inv hstop hboot
  exact hrun.invariant ⟨⟨free, _, hinv⟩, hwrites⟩ fun _ _ _ hP hs => step_good hstop hP hs

theorem alloc_returns {layout : Layout} (hgood : Good start stop s) (hlow : stop ≤ 2 ^ 63)
    (hsize : 1 ≤ layout.size) : ∃ s', Step s (.alloc layout) s' := by
  obtain ⟨⟨free, blocks, hinv⟩, -⟩ := hgood
  obtain ⟨fuel, ⟨h, p⟩, hrun⟩ :=
    alloc_runs hinv (by omega) fun request _ => examined_of_low hinv hlow request
  exact ⟨_, .alloc hsize hrun⟩

theorem dealloc_returns {layout : Layout} {p : Nat} (hgood : Good start stop s)
    (hstop : stop ≤ 2 ^ 64) (hmem : (p, layout) ∈ s.live) :
    ∃ s', Step s (.dealloc p layout) s' := by
  obtain ⟨⟨free, blocks, hinv⟩, -⟩ := hgood
  obtain ⟨fuel, h, hrun⟩ := dealloc_runs hinv hstop hmem
  exact ⟨_, .dealloc hmem hrun⟩

def allocated (live : List (Nat × Layout)) : List Extent := live.map fun x => ⟨x.1, x.2.size⟩

theorem packed_allocated {live : List (Nat × Layout)} {l : List Extent}
    (hsize : ∀ x ∈ live, 1 ≤ x.2.size) (hp : Packed start stop (reserved live ++ l)) :
    Packed start stop (allocated live ++ l) := by
  induction live generalizing l with
  | nil => exact hp
  | cons x live ih =>
    obtain ⟨hx, hsize⟩ := List.forall_mem_cons.mp hsize
    have hshrunk := hp.shrink (Inv.within_footprint x) hx
    -- the shrunk block waits behind the others
    exact (ih hsize (hshrunk.perm List.perm_middle.symm)).perm List.perm_middle

/-- In every state of every run, each block is aligned and inside the region, no two of the
live blocks, the blocks on the class lists and the free nodes overlap, and no header was
written into memory that a caller owns. -/
theorem heap_safe {heapStart heapSize : Nat} {s₀ s : State} {tr : List (State × Call)}
    (hstop : heapStart + heapSize ≤ 2 ^ 64) (hboot : Boot heapStart heapSize s₀)
    (hrun : Run Step s₀ tr s) :
    (∀ x ∈ s.live, x.2.align ∣ x.1 ∧ heapStart ≤ x.1 ∧ x.1 + x.2.size ≤ heapStart + heapSize) ∧
      (∃ free blocks, FreeAt s.heap .head free ∧
        (∀ i, Linked Slot.node s.heap.next (.classHead i) (blocks i)) ∧
        (allocated s.live ++ (classExtents blocks ++ free)).Pairwise
          fun e f => Disjoint e.bytes f.bytes) ∧
      ∀ a ∈ s.heap.mem.headerWrites, heapStart ≤ a ∧ a + ListNode.sizeOf ≤ heapStart + heapSize ∧
        ∀ e ∈ allocated s.live, Disjoint (Extent.mk a ListNode.sizeOf).bytes e.bytes := by
  obtain ⟨⟨free, blocks, hinv⟩, hwrites⟩ := run_good hstop hboot hrun
  have hp := packed_allocated (fun x hx => (hinv.live x hx).size_pos) hinv.packed
  refine ⟨fun x hx => ⟨(hinv.live x hx).align_dvd, ?_⟩,
    ⟨free, blocks, hinv.freeAt, hinv.classes, hp.apart.imp Apart.disjoint_bytes⟩,
    fun a ha => ?_⟩
  · exact hp.inside ⟨x.1, x.2.size⟩ (List.mem_append_left _ (List.mem_map.mpr ⟨x, hx, rfl⟩))
  · obtain ⟨hlo, hhi, hap⟩ := hwrites a ha
    refine ⟨hlo, hhi, fun e he => ?_⟩
    obtain ⟨x, hx, rfl⟩ := List.mem_map.mp he
    exact (hap x hx).disjoint_bytes

theorem heap_safe_first_block :
    ∃ s : State, s.live = [(4096, blockLayout 1)] ∧
      ∀ x ∈ s.live, x.2.align ∣ x.1 ∧ 4096 ≤ x.1 ∧ x.1 + x.2.size ≤ 4096 + 4096 := by
  have hcalls : ((init 3 (Heap.new fun _ => 0) 4096 4096).bind fun h =>
      (alloc 3 h.startCall (blockLayout 1)).map Prod.snd) = some 4096 := by decide
  obtain ⟨h₀, hinit, hcall⟩ := Option.bind_eq_some_iff.mp hcalls
  obtain ⟨⟨h, p⟩, halloc, hp⟩ := Option.map_eq_some_iff.mp hcall
  obtain rfl : p = 4096 := hp
  have hstep := Step.alloc (s := ⟨h₀, []⟩) (show 1 ≤ (blockLayout 1).size by decide) halloc
  exact ⟨_, rfl, (heap_safe (by decide) ⟨3, _, hinit, rfl⟩ (Run.nil.cons hstep)).1⟩

end AliluOS.Allocator
