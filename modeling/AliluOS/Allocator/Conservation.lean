import AliluOS.Allocator.Safety

/-! Which bytes come back when every block is freed. `alloc` drops the padding
before a block and the bytes that round its end up, and `dealloc` drops a block
that has no room for a header. -/

namespace AliluOS.Allocator
open Lib Lib.Extent

theorem FreeAt.unique {h : Heap} {s : Slot} {l l' : List Extent} (hl : FreeAt h s l)
    (hl' : FreeAt h s l') : l = l' := by
  have haddr := hl.linked.unique hl'.linked
  have hmap : ∀ {l}, FreeAt h s l → (l.map Extent.addr).map h.region = l := by
    intro l hl
    rw [List.map_map]
    exact (List.map_congr_left fun e he => hl.region_eq he).trans (List.map_id l)
  rw [← hmap hl, haddr, hmap hl']

def freeBytes (h : Heap) : Set Nat := {x | ∃ free, FreeAt h .head free ∧ Covers free x}

theorem FreeAt.mem_freeBytes {h : Heap} {free : List Extent} (hl : FreeAt h .head free) (x : Nat) :
    x ∈ freeBytes h ↔ Covers free x := by
  constructor
  · rintro ⟨free', hl', hx⟩
    rwa [hl.unique hl']
  · exact fun hx => ⟨free, hl, hx⟩

/-- The free bytes, and those that `dealloc` will give back: a block under 16
bytes never returns. -/
def accounted (s : State) : Set Nat :=
  {x | x ∈ freeBytes s.heap ∨ ∃ y ∈ s.live, 16 ≤ y.2.size ∧ y.1 ≤ x ∧ x < y.1 + y.2.size}

/-- A block of this layout takes a whole front part of the region, and leaves no
bytes that round its end up. -/
def CutsExactly (e : Extent) (layout : Layout) : Prop :=
  layout.align ∣ e.addr ∧ 8 ∣ layout.size ∧ 16 ≤ layout.size

def FallbackOnly (_ : State) : Call → Prop
  | .alloc layout => listIndex layout = none
  | _ => True

def Exact (s : State) : Call → Prop
  | .alloc layout => ∀ free e, FreeAt s.heap .head free → firstFit free layout = some e →
      CutsExactly e layout
  | _ => True

/-- The bytes of `e` that neither the list nor a later `dealloc` gets. -/
def lost (e : Extent) (layout : Layout) (a : Nat) : Set Nat :=
  {x | x ∈ e.bytes ∧ ¬ Covers (remainder e layout a) x ∧
    ¬ (16 ≤ layout.size ∧ a ≤ x ∧ x < a + layout.size)}

theorem covers_remainder {e : Extent} {layout : Layout} {a x : Nat} :
    Covers (remainder e layout a) x ↔ roundUp (a + layout.size) 8 ≤ x ∧ x < e.stop := by
  unfold remainder
  simp only
  split_ifs
  · simp only [covers_cons, covers_nil, or_false, Extent.stop]
    omega
  · simp only [covers_nil, false_iff]
    omega

theorem covers_cut {e : Extent} {layout : Layout} {a : Nat} {l : List Extent}
    (hfit : Fits e layout a) (x : Nat) :
    Covers (e :: l) x ↔ x ∈ lost e layout a ∨ Covers (remainder e layout a ++ l) x ∨
      (16 ≤ layout.size ∧ a ≤ x ∧ x < a + layout.size) := by
  have hstart := hfit.addr_le
  have hle := hfit.le_end
  have hend := hfit.end_le
  rw [covers_cons, covers_append]
  by_cases hrem : Covers (remainder e layout a) x
  · have := covers_remainder.mp hrem
    simp only [hrem, true_or, or_true, iff_true]
    exact .inl (by omega)
  by_cases hblock : 16 ≤ layout.size ∧ a ≤ x ∧ x < a + layout.size
  · simp only [hblock, and_self, or_true, iff_true]
    exact .inl (by omega)
  simp only [lost, Set.mem_ofPred_eq, bytes, Set.mem_Ico, hrem, hblock, not_false_eq_true,
    and_true, false_or, or_false]

theorem lost_eq_empty {e : Extent} {layout : Layout} {a : Nat} (hfit : Fits e layout a)
    (hsize : 1 ≤ layout.size) (ha : a = roundUp e.addr layout.align) :
    lost e layout a = ∅ ↔ CutsExactly e layout := by
  have h1 := hfit.addr_le
  have h2 := hfit.le_end
  have h3 := hfit.end_le
  have h4 := hfit.eight_dvd
  have h5 := hfit.end_dvd
  have h6 := hfit.end_lt
  have hmem : ∀ x, x ∉ lost e layout a ↔ (e.addr ≤ x → x < e.stop →
      ¬ roundUp (a + layout.size) 8 ≤ x → 16 ≤ layout.size ∧ a ≤ x ∧ x < a + layout.size) := by
    intro x
    simp only [lost, Set.mem_ofPred_eq, covers_remainder, bytes, Set.mem_Ico]
    tauto
  constructor
  · intro hempty
    have hno : ∀ x, x ∉ lost e layout a := fun x hx => by simp [hempty] at hx
    have hfront := (hmem e.addr).mp (hno _) le_rfl (by omega) (by omega)
    have hback :=
      (hmem (roundUp (a + layout.size) 8 - 1)).mp (hno _) (by omega) (by omega) (by omega)
    obtain rfl : a = e.addr := by omega
    exact ⟨hfit.align_dvd, by omega, by omega⟩
  · rintro ⟨hdvd, h8, h16⟩
    rw [roundUp_of_dvd hdvd] at ha
    have hend : roundUp (a + layout.size) 8 = a + layout.size :=
      roundUp_of_dvd (Nat.dvd_add h4 h8)
    refine Set.eq_empty_of_forall_notMem fun x => (hmem x).mpr ?_
    omega

section Step

variable {start stop : Nat} {s s' : State}

theorem covers_reserved {live : List (Nat × Layout)} {x : Nat}
    (h : ∃ y ∈ live, 16 ≤ y.2.size ∧ y.1 ≤ x ∧ x < y.1 + y.2.size) : Covers (reserved live) x := by
  obtain ⟨y, hy, -, hlo, hhi⟩ := h
  have hfoot := size_le_footprint y.2
  refine ⟨_, Inv.mem_reserved hy, hlo, ?_⟩
  simp only [Extent.stop]
  omega

theorem accounted_mono_iff {P Q : Set Nat} {D : Set Nat} (hunion : ∀ x, x ∈ P ↔ x ∈ D ∨ x ∈ Q)
    (hdisj : ∀ x ∈ D, x ∉ Q) : Q ≤ P ∧ (Q = P ↔ D = ∅) := by
  refine ⟨fun x hx => (hunion x).mpr (.inr hx), fun h => ?_, fun h => ?_⟩
  · exact Set.eq_empty_of_forall_notMem fun x hx => hdisj x hx (h ▸ (hunion x).mpr (.inl hx))
  · ext x
    rw [hunion x, h]
    simp

theorem accounted_cut {layout : Layout} {p : Nat} {h : Heap} {pre post : List Extent} {e : Extent}
    {blocks blocks' : Fin 8 → List Nat} (hinv : Inv start stop s (pre ++ e :: post) blocks)
    (hcut : Inv start stop ⟨h, (p, layout) :: s.live⟩ (cutList pre post e layout p) blocks')
    (hf : Fits e layout p) :
    accounted ⟨h, (p, layout) :: s.live⟩ ≤ accounted s ∧
      (accounted ⟨h, (p, layout) :: s.live⟩ = accounted s ↔ lost e layout p = ∅) := by
  have hp := hinv.packed_region
  have hmem := fun x => hinv.freeAt.mem_freeBytes x
  have hmem' := fun x => hcut.freeAt.mem_freeBytes x
  refine accounted_mono_iff (fun x => ?_) fun x hx => ?_
  · have hcovers : Covers (pre ++ e :: post) x ↔ Covers (e :: (pre ++ post)) x :=
      ⟨Covers.perm List.perm_middle, Covers.perm List.perm_middle.symm⟩
    simp only [accounted, Set.mem_ofPred_eq, hmem, hmem', hcovers, covers_cut hf,
      (regrouped_cutList ..).covers, List.exists_mem_cons_iff, or_assoc]
  · simp only [accounted, Set.mem_ofPred_eq, hmem', (regrouped_cutList ..).covers, covers_append,
      List.exists_mem_cons_iff]
    -- a lost byte is in the region that was cut, so in nothing that is packed beside it
    have hno := hp.not_covers_tail hx.1
    simp only [covers_append] at hno
    rintro ((hrem | hrest) | hblock | hlive)
    · exact hx.2.1 hrem
    · exact hno (.inl hrest)
    · exact hx.2.2 hblock
    · exact hno (.inr (.inl (covers_reserved hlive)))

theorem alloc_accounted {layout : Layout} {fuel p : Nat} {h : Heap} {free : List Extent}
    {blocks : Fin 8 → List Nat} (hinv : Inv start stop s free blocks) (hstop : stop ≤ 2 ^ 64)
    (hnone : listIndex layout = none) (hsize : 1 ≤ layout.size)
    (hrun : alloc fuel s.heap.startCall layout = some (h, p)) :
    let s' : State := ⟨h, if p = 0 then s.live else (p, layout) :: s.live⟩
    (∃ free', Inv start stop s' free' blocks) ∧ accounted s' ≤ accounted s ∧
      (accounted s' = accounted s ↔ ∀ e, firstFit free layout = some e → CutsExactly e layout) := by
  have hreq : fallbackRequest s.heap layout = some layout := by simp [fallbackRequest, hnone]
  cases alloc_cases hinv hstop hsize hrun with
  | pop hpop => simp [hreq] at hpop
  | cut hcut hfree hno he hp hinv' =>
    obtain rfl := Option.some.inj (hreq.symm.trans hcut)
    subst hfree
    have hf := fits_of_place (hinv.nodes _ (by simp)) he
    rw [if_neg hp, firstFit_append hno he]
    obtain ⟨hle, hiff⟩ := accounted_cut hinv hinv' hf
    have hlost := lost_eq_empty hf hsize (place_eq_some.mp he).1
    exact ⟨⟨_, hinv'⟩, hle, by simpa using hiff.trans hlost⟩
  | fail hfail hnofit hp hinv' =>
    obtain rfl := Option.some.inj (hreq.symm.trans hfail)
    rw [if_pos hp, hnofit]
    have hsame : accounted ⟨h, s.live⟩ = accounted s := by
      ext x
      simp only [accounted, Set.mem_ofPred_eq]
      rw [hinv'.freeAt.mem_freeBytes, hinv.freeAt.mem_freeBytes]
    exact ⟨⟨free, hinv'⟩, hsame.le, by simpa using hsame⟩

theorem dealloc_accounted {layout : Layout} {fuel p : Nat} {h : Heap} {free : List Extent}
    {blocks : Fin 8 → List Nat} (hinv : Inv start stop s free blocks) (hstop : stop ≤ 2 ^ 64)
    (hnone : listIndex layout = none) (hmem : (p, layout) ∈ s.live)
    (hrun : dealloc fuel s.heap.startCall p layout = some h) :
    (∃ free' blocks', Inv start stop ⟨h, s.live.erase (p, layout)⟩ free' blocks') ∧
      accounted ⟨h, s.live.erase (p, layout)⟩ = accounted s := by
  obtain ⟨hinv', -⟩ := dealloc_inv hinv hstop hmem hrun
  refine ⟨⟨_, _, hinv'⟩, ?_⟩
  have hafter : freeAfter free p layout = releaseList free p layout.size := by
    simp [freeAfter, hnone]
  have hlive : ∀ x, (∃ y ∈ s.live, 16 ≤ y.2.size ∧ y.1 ≤ x ∧ x < y.1 + y.2.size) ↔
      ∃ y ∈ (p, layout) :: s.live.erase (p, layout),
        16 ≤ y.2.size ∧ y.1 ≤ x ∧ x < y.1 + y.2.size := by
    intro x
    simp only [(List.perm_cons_erase hmem).mem_iff]
  ext x
  simp only [accounted, Set.mem_ofPred_eq]
  rw [hinv.freeAt.mem_freeBytes, hinv'.freeAt.mem_freeBytes, hafter, covers_releaseList, hlive,
    List.exists_mem_cons_iff]
  exact or_assoc.trans or_left_comm

def FallbackInv (start stop : Nat) (s : State) : Prop :=
  (∃ free blocks, Inv start stop s free blocks) ∧ ∀ y ∈ s.live, listIndex y.2 = none

theorem exact_alloc {layout : Layout} {free : List Extent} (hl : FreeAt s.heap .head free) :
    Exact s (.alloc layout) ↔ ∀ e, firstFit free layout = some e → CutsExactly e layout := by
  constructor
  · exact fun h e he => h free e hl he
  · rintro h free' e hl' he
    rw [hl'.unique hl] at he
    exact h e he

theorem step_accounted {c : Call} (hinv : FallbackInv start stop s) (hstop : stop ≤ 2 ^ 64)
    (hs : Step s c s') (hc : FallbackOnly s c) :
    FallbackInv start stop s' ∧ accounted s' ≤ accounted s ∧
      (accounted s' = accounted s ↔ Exact s c) := by
  obtain ⟨⟨free, blocks, hinv⟩, hnone⟩ := hinv
  cases hs with
  | alloc hsize hrun =>
    rename_i layout fuel p h
    have hi : listIndex layout = none := hc
    obtain ⟨⟨free', hinv'⟩, hacc⟩ := alloc_accounted hinv hstop hi hsize hrun
    refine ⟨⟨⟨free', blocks, hinv'⟩, ?_⟩, ?_⟩
    · split_ifs
      · exact hnone
      · exact List.forall_mem_cons.mpr ⟨hi, hnone⟩
    · rw [exact_alloc hinv.freeAt]
      exact hacc
  | dealloc hmem hrun =>
    rename_i layout fuel p h
    have hi := hnone _ hmem
    obtain ⟨⟨free', blocks', hinv'⟩, hacc⟩ := dealloc_accounted hinv hstop hi hmem hrun
    refine ⟨⟨⟨free', blocks', hinv'⟩, fun y hy => hnone y (List.mem_of_mem_erase hy)⟩, hacc.le, ?_⟩
    simp [hacc, Exact]
  | store hmem h8 hlo hhi =>
    rename_i layout p w v
    have hinv' := hinv.store hmem h8 hlo hhi v
    have hacc : accounted ⟨s.heap.startCall.poke w v, s.live⟩ = accounted s := by
      ext x
      simp only [accounted, Set.mem_ofPred_eq, hinv.freeAt.mem_freeBytes,
        hinv'.freeAt.mem_freeBytes]
    exact ⟨⟨⟨free, blocks, hinv'⟩, hnone⟩, hacc.le, by simp [hacc, Exact]⟩

end Step

theorem accounted_of_live_nil {s : State} (hlive : s.live = []) :
    accounted s = freeBytes s.heap := by
  ext x
  simp [accounted, hlive]

/-- When everything is freed again, the free list covers the bytes it covered
after `init` exactly if every allocation cut its block exactly. -/
theorem freed_heap_complete_iff {heapStart heapSize : Nat} {s₀ s : State}
    {tr : List (State × Call)} (hstop : heapStart + heapSize ≤ 2 ^ 64)
    (hboot : Boot heapStart heapSize s₀) (hrun : Run Step s₀ tr s)
    (hfall : Guarded FallbackOnly tr) (hlive : s.live = []) :
    freeBytes s.heap = freeBytes s₀.heap ↔ Guarded Exact tr := by
  have hlive₀ : s₀.live = [] := hboot.choose_spec.choose_spec.2
  have hinv₀ : FallbackInv heapStart (heapStart + heapSize) s₀ := by
    obtain ⟨⟨free, hinv, -⟩, -⟩ := boot_inv hstop hboot
    exact ⟨⟨free, _, hinv⟩, by simp [hlive₀]⟩
  rw [← accounted_of_live_nil hlive, ← accounted_of_live_nil hlive₀]
  refine ((hrun.restrict hfall).measure_iff_guarded hinv₀ ?_ ?_).2
  · exact fun s c s' hinv hs => (step_accounted hinv hstop hs.1 hs.2).1
  · exact fun s c s' hinv hs => (step_accounted hinv hstop hs.1 hs.2).2

theorem run_cycle {heapStart heapSize fuel p : Nat} {layout : Layout} {h₀ h₁ h₂ : Heap}
    (hinit : init fuel (Heap.new fun _ => 0) heapStart heapSize = some h₀)
    (hsize : 1 ≤ layout.size) (halloc : alloc fuel h₀.startCall layout = some (h₁, p))
    (hp : p ≠ 0) (hdealloc : dealloc fuel h₁.startCall p layout = some h₂) :
    Boot heapStart heapSize ⟨h₀, []⟩ ∧
      Run Step ⟨h₀, []⟩ [(⟨h₁, [(p, layout)]⟩, .dealloc p layout), (⟨h₀, []⟩, .alloc layout)]
        ⟨h₂, []⟩ := by
  have hfirst := Step.alloc (s := ⟨h₀, []⟩) hsize halloc
  rw [if_neg hp] at hfirst
  have hsecond := Step.dealloc (s := ⟨h₁, [(p, layout)]⟩) (List.mem_cons_self ..) hdealloc
  rw [List.erase_cons_head] at hsecond
  exact ⟨⟨fuel, _, hinit, rfl⟩, (Run.nil.cons hfirst).cons hsecond⟩

def pageLayout : Layout := ⟨4096, 8, ⟨3, rfl⟩, by decide⟩

theorem freed_heap_complete_page :
    ∃ s₀ s tr, Boot 4096 8192 s₀ ∧ Run Step s₀ tr s ∧ tr.length = 2 ∧
      freeBytes s.heap = freeBytes s₀.heap := by
  have hcalls : ((init 4 (Heap.new fun _ => 0) 4096 8192).bind fun h₀ =>
      (alloc 4 h₀.startCall pageLayout).bind fun r =>
        (dealloc 4 r.1.startCall 4096 pageLayout).map fun _ =>
          (h₀.next .head, h₀.size 4096, h₀.next (.node 4096), r.2)) =
      some (4096, 8192, 0, 4096) := by decide
  obtain ⟨h₀, hinit, hcalls⟩ := Option.bind_eq_some_iff.mp hcalls
  obtain ⟨⟨h₁, p⟩, halloc, hcalls⟩ := Option.bind_eq_some_iff.mp hcalls
  obtain ⟨h₂, hdealloc, heq⟩ := Option.map_eq_some_iff.mp hcalls
  simp only [Prod.mk.injEq] at heq
  obtain ⟨hnext, hsize, hlast, rfl⟩ := heq
  obtain ⟨hboot, hrun⟩ := run_cycle hinit (by decide) halloc (by decide) hdealloc
  have hl : FreeAt h₀ .head [⟨4096, 8192⟩] := ⟨⟨hnext, by decide, hlast⟩, by simpa using hsize⟩
  have hexact : Exact ⟨h₀, []⟩ (.alloc pageLayout) := (exact_alloc hl).mpr fun e he => by
    obtain rfl : ⟨4096, 8192⟩ = e := Option.some.inj ((by decide : firstFit _ _ = _).symm.trans he)
    exact ⟨by decide, by decide, by decide⟩
  refine ⟨_, _, _, hboot, hrun, rfl, ?_⟩
  refine (freed_heap_complete_iff (by decide) hboot hrun ?_ rfl).mpr ?_
  · simp [FallbackOnly, show listIndex pageLayout = none by decide]
  · exact guarded_cons.mpr ⟨trivial, guarded_cons.mpr ⟨hexact, guarded_nil _⟩⟩

def oddLayout : Layout := ⟨2049, 1, ⟨0, rfl⟩, by decide⟩

/-- A block of 2049 bytes ends at 6145, its region is cut at 6152, and the seven
bytes between are gone once the block is freed. -/
theorem freed_heap_incomplete :
    ∃ s₀ s tr, Boot 4096 8192 s₀ ∧ Run Step s₀ tr s ∧ Guarded FallbackOnly tr ∧ s.live = [] ∧
      6145 ∈ freeBytes s₀.heap ∧ 6145 ∉ freeBytes s.heap := by
  have hcalls : ((init 4 (Heap.new fun _ => 0) 4096 8192).bind fun h₀ =>
      (alloc 4 h₀.startCall oddLayout).bind fun r =>
        (dealloc 4 r.1.startCall 4096 oddLayout).map fun h₂ =>
          ((h₀.next .head, h₀.size 4096, h₀.next (.node 4096), r.2),
            (h₂.next .head, h₂.size 4096, h₂.next (.node 4096), h₂.size 6152,
              h₂.next (.node 6152)))) =
      some ((4096, 8192, 0, 4096), (4096, 2049, 6152, 6136, 0)) := by decide
  obtain ⟨h₀, hinit, hcalls⟩ := Option.bind_eq_some_iff.mp hcalls
  obtain ⟨⟨h₁, p⟩, halloc, hcalls⟩ := Option.bind_eq_some_iff.mp hcalls
  obtain ⟨h₂, hdealloc, heq⟩ := Option.map_eq_some_iff.mp hcalls
  simp only [Prod.mk.injEq] at heq
  obtain ⟨⟨hnext, hsize, hlast, rfl⟩, hnext₂, hsize₂, hlink₂, hsize₂', hlast₂⟩ := heq
  obtain ⟨hboot, hrun⟩ := run_cycle hinit (by decide) halloc (by decide) hdealloc
  have hl : FreeAt h₀ .head [⟨4096, 8192⟩] := ⟨⟨hnext, by decide, hlast⟩, by simpa using hsize⟩
  have hl₂ : FreeAt h₂ .head [⟨4096, 2049⟩, ⟨6152, 6136⟩] :=
    ⟨⟨hnext₂, by decide, hlink₂, by decide, hlast₂⟩, by simpa using ⟨hsize₂, hsize₂'⟩⟩
  refine ⟨_, _, _, hboot, hrun, ?_, rfl, ?_, ?_⟩
  · simp [FallbackOnly, show listIndex oddLayout = none by decide]
  · rw [hl.mem_freeBytes]
    simp [Extent.stop]
  · rw [hl₂.mem_freeBytes]
    simp [Extent.stop]

end AliluOS.Allocator
