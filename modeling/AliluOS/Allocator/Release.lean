import AliluOS.Allocator.Canonical
import AliluOS.Allocator.Walks

/-! Giving memory back keeps the fallback list canonical, and a canonical list
does not remember the order in which its regions came back. -/

namespace AliluOS.Allocator
open Lib Lib.Extent

/-- Memory that a caller of `add_free_region` hands over. It is not at the null address,
it ends inside the address space, and there is an 8-aligned address from its start on. -/
structure Region extends Extent where
  not_null : addr ≠ 0
  inside : addr + size ≤ 2 ^ 64
  aligned : addr ≤ 2 ^ 64 - 8

/-- Sorted by address with a gap between neighbours, each region 8-aligned with room for
a header. -/
structure CanonicalFree (free : List Extent) : Prop where
  gaps : Canonical free
  nodes : ∀ e ∈ free, IsNode e
  inside : ∀ e ∈ free, e.stop ≤ 2 ^ 64

def addFreeRegions (fuel : Nat) : Heap → List Region → Option Heap
  | h, [] => some h
  | h, r :: rs => (addFreeRegion fuel h r.addr r.size).bind fun h' => addFreeRegions fuel h' rs

variable {h h' : Heap} {free free' : List Extent} {rs : List Region} {fuel fuel' : Nat}

namespace CanonicalFree

theorem pos (hc : CanonicalFree free) : ∀ e ∈ free, 0 < e.size :=
  fun e he => Nat.lt_of_lt_of_le (by decide) (hc.nodes e he).2

theorem packed (hc : CanonicalFree free) : Packed 0 (2 ^ 64) free :=
  ⟨hc.pos, fun e he => ⟨Nat.zero_le _, hc.inside e he⟩, hc.gaps.imp fun hlt => .inl hlt.le⟩

theorem eq_of_covers (hc : CanonicalFree free) (hc' : CanonicalFree free')
    (hcovers : ∀ x, Covers free x ↔ Covers free' x) : free = free' :=
  hc.gaps.eq_of_covers hc'.gaps hc.pos hc'.pos hcovers

end CanonicalFree

theorem packed_usable {r : Region} {e : Extent} (hc : CanonicalFree free)
    (hr : ∀ x ∈ r.bytes, ¬ Covers free x) (he : e ∈ usable r.toExtent) :
    Packed 0 (2 ^ 64) (e :: free) := by
  have hin := within_usable e he
  have hpos : 0 < e.size := Nat.lt_of_lt_of_le (by decide) (isNode_usable e he).2
  apply hc.packed.cons hpos ⟨Nat.zero_le _, hin.2.trans r.inside⟩
  intro f hf
  apply apart_of_disjoint hpos (hc.pos f hf)
  rw [Set.disjoint_left]
  intro x hx hxf
  exact hr x ⟨hin.1.trans hx.1, hx.2.trans_le hin.2⟩ ⟨f, hf, hxf⟩

theorem addFreeRegion_canonical {r : Region} (hl : FreeAt h .head free) (hc : CanonicalFree free)
    (hr : ∀ x ∈ r.bytes, ¬ Covers free x) :
    ∃ fuel h' free', addFreeRegion fuel h r.addr r.size = some h' ∧ FreeAt h' .head free' ∧
      CanonicalFree free' ∧ ∀ x, Covers free' x ↔ Covers free x ∨ Covers (usable r.toExtent) x := by
  rcases addFreeRegion_trim (free.length + 2) h (alignUp_eight r.aligned) with
    ⟨hnone, hrun⟩ | ⟨q, hle, hdvd, hge, hsome, htrim⟩
  · exact ⟨_, h, free, hrun, hl, hc, by simp [hnone]⟩
  · have hmem : ⟨q, r.addr + r.size - q⟩ ∈ usable r.toExtent := by simp [hsome]
    have hnew := isNode_usable _ hmem
    have hp := packed_usable hc hr hmem
    have hne : q ≠ 0 := Nat.ne_of_gt ((Nat.pos_of_ne_zero r.not_null).trans_le hle)
    obtain ⟨h', hrun, hl', -⟩ :=
      addFreeRegion_spec hl hc.nodes hc.gaps hp hnew hne (Nat.lt_succ_self _)
    have hreg := regrouped_insert ⟨q, r.addr + r.size - q⟩ free
    have hp' : Packed 0 (2 ^ 64)
        (coalesceList (insertSorted ⟨q, r.addr + r.size - q⟩ free) ++ []) :=
      hreg.packed (by rwa [List.append_nil])
    rw [List.append_nil] at hp'
    refine ⟨_, h', _, htrim.trans hrun, hl', ⟨?_, ?_, fun e he => (hp'.inside e he).2⟩, ?_⟩
    · exact canonical_coalesceList (sorted_insertSorted hc.gaps.sorted hp)
    · exact hreg.nodes (List.forall_mem_cons.mpr ⟨hnew, hc.nodes⟩)
    · intro x
      rw [hreg.covers, covers_cons, hsome, covers_cons, or_comm]
      simp

theorem addFreeRegions_mono (hle : fuel ≤ fuel') (hrun : addFreeRegions fuel h rs = some h') :
    addFreeRegions fuel' h rs = some h' := by
  induction rs generalizing h with
  | nil => exact hrun
  | cons r rs ih =>
    obtain ⟨h₁, hstep, hrest⟩ := Option.bind_eq_some_iff.mp hrun
    rw [addFreeRegions, addFreeRegion_mono hle hstep]
    exact ih hrest

theorem addFreeRegions_canonical (hl : FreeAt h .head free) (hc : CanonicalFree free)
    (hdisjoint : rs.Pairwise fun r r' => Disjoint r.bytes r'.bytes)
    (hrs : ∀ r ∈ rs, ∀ x ∈ r.bytes, ¬ Covers free x) :
    ∃ fuel h' free', addFreeRegions fuel h rs = some h' ∧ FreeAt h' .head free' ∧
      CanonicalFree free' ∧
      ∀ x, Covers free' x ↔ Covers free x ∨ ∃ r ∈ rs, Covers (usable r.toExtent) x := by
  induction rs generalizing h free with
  | nil => exact ⟨0, h, free, rfl, hl, hc, by simp⟩
  | cons r rs ih =>
    obtain ⟨hr, hdisjoint⟩ := List.pairwise_cons.mp hdisjoint
    obtain ⟨fuel₁, h₁, free₁, hstep, hl₁, hc₁, hcovers₁⟩ :=
      addFreeRegion_canonical hl hc (hrs r (by simp))
    -- the other regions are still apart from the list after the first one joined it
    have hrs₁ : ∀ r' ∈ rs, ∀ x ∈ r'.bytes, ¬ Covers free₁ x := by
      intro r' hr' x hx hcov
      rcases (hcovers₁ x).mp hcov with hfree | ⟨e, he, hxe⟩
      · exact hrs r' (List.mem_cons_of_mem _ hr') x hx hfree
      · have hin := within_usable e he
        have hxr : x ∈ r.bytes := ⟨hin.1.trans hxe.1, hxe.2.trans_le hin.2⟩
        exact Set.disjoint_left.mp (hr r' hr') hxr hx
    obtain ⟨fuel₂, h₂, free₂, hrest, hl₂, hc₂, hcovers₂⟩ := ih hl₁ hc₁ hdisjoint hrs₁
    refine ⟨max fuel₁ fuel₂, h₂, free₂, ?_, hl₂, hc₂, fun x => ?_⟩
    · rw [addFreeRegions, addFreeRegion_mono (le_max_left _ _) hstep]
      exact addFreeRegions_mono (le_max_right _ _) hrest
    · rw [hcovers₂, hcovers₁, List.exists_mem_cons_iff, or_assoc]

/-- A call of `add_free_region` ends with a canonical list, which holds the old bytes and
the usable part of the region. Freeing disjoint regions ends with one list, whatever
the order. -/
theorem free_list_canonical (hl : FreeAt h .head free) (hc : CanonicalFree free) :
    (∀ r : Region, (∀ x ∈ r.bytes, ¬ Covers free x) →
      ∃ fuel h' free', addFreeRegion fuel h r.addr r.size = some h' ∧ FreeAt h' .head free' ∧
        CanonicalFree free' ∧ ∀ x, Covers free' x ↔ Covers free x ∨
          (firstAligned r.addr + 16 ≤ r.stop ∧ firstAligned r.addr ≤ x ∧ x < r.stop)) ∧
      ∀ rs : List Region, (rs.Pairwise fun r r' => Disjoint r.bytes r'.bytes) →
        (∀ r ∈ rs, ∀ x ∈ r.bytes, ¬ Covers free x) →
        ∃ free', CanonicalFree free' ∧ ∀ rs', rs'.Perm rs →
          ∃ fuel h', addFreeRegions fuel h rs' = some h' ∧ FreeAt h' .head free' := by
  constructor
  · intro r hr
    obtain ⟨fuel, h', free', hrun, hl', hc', hcovers⟩ := addFreeRegion_canonical hl hc hr
    refine ⟨fuel, h', free', hrun, hl', hc', fun x => ?_⟩
    rw [hcovers, covers_usable]
  · intro rs hdisjoint hrs
    obtain ⟨-, -, free', -, -, hc', hcovers⟩ := addFreeRegions_canonical hl hc hdisjoint hrs
    refine ⟨free', hc', fun rs' hperm => ?_⟩
    have hdisjoint' := hperm.symm.pairwise hdisjoint fun hd => hd.symm
    have hrs' : ∀ r ∈ rs', ∀ x ∈ r.bytes, ¬ Covers free x :=
      fun r hr => hrs r (hperm.mem_iff.mp hr)
    obtain ⟨fuel, h'', free'', hrun, hl'', hc'', hcovers'⟩ :=
      addFreeRegions_canonical hl hc hdisjoint' hrs'
    -- both lists hold the same bytes
    have heq : free'' = free' := by
      apply hc''.eq_of_covers hc'
      intro x
      rw [hcovers', hcovers]
      simp only [hperm.mem_iff]
    exact ⟨fuel, h'', hrun, heq ▸ hl''⟩

theorem free_list_canonical_touching :
    ∃ fuel h' free',
      addFreeRegion fuel ((Heap.new fun w => if w = 4096 then 16 else 0).setNext .head 4096)
        4112 20 = some h' ∧ FreeAt h' .head free' ∧ CanonicalFree free' ∧
      ∀ x, Covers free' x ↔ 4096 ≤ x ∧ x < 4132 := by
  have hl : FreeAt ((Heap.new fun w => if w = 4096 then 16 else 0).setNext .head 4096) .head
      [⟨4096, 16⟩] := ⟨⟨rfl, by decide, rfl⟩, by simp [Heap.size, Heap.setNext, Heap.new]⟩
  have hc : CanonicalFree [⟨4096, 16⟩] :=
    ⟨List.pairwise_singleton _ _, by simp [IsNode], by simp [Extent.stop]⟩
  have hr : ∀ x ∈ (Extent.mk 4112 20).bytes, ¬ Covers [⟨4096, 16⟩] x := by
    intro x hx
    simp only [bytes, Set.mem_Ico, covers_cons, covers_nil, or_false, Extent.stop] at *
    omega
  obtain ⟨fuel, h', free', hrun, hl', hc', hcovers⟩ :=
    (free_list_canonical hl hc).1 ⟨⟨4112, 20⟩, by decide, by decide, by decide⟩ hr
  refine ⟨fuel, h', free', hrun, hl', hc', fun x => ?_⟩
  rw [hcovers]
  simp only [covers_cons, covers_nil, or_false, Extent.stop, firstAligned]
  omega

end AliluOS.Allocator
