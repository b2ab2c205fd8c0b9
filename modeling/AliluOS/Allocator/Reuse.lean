import AliluOS.Allocator.Canonical
import AliluOS.Allocator.Conservation

/-! What `dealloc` does for later allocations: it never takes a place away, and when the
block just freed can be handed out once more. -/

namespace AliluOS.Allocator
open Lib Lib.Extent

def Takes (e : Extent) (layout : Layout) : Prop :=
  (place e layout).isSome = true

instance (e : Extent) (layout : Layout) : Decidable (Takes e layout) :=
  inferInstanceAs (Decidable (_ = true))

theorem firstFit_isSome {free : List Extent} {layout : Layout} :
    (firstFit free layout).isSome = true ↔ ∃ e ∈ free, Takes e layout := by
  simp [firstFit, Takes]

/-- The class list has a block, or some free region takes one. -/
def CanServe (h : Heap) (free : List Extent) (layout : Layout) : Prop :=
  ∀ request, fallbackRequest h layout = some request → ∃ e ∈ free, Takes e request

section

variable {start stop : Nat} {s : State} {free : List Extent} {blocks : Fin 8 → List Nat}
  {layout : Layout} {fuel p : Nat} {h : Heap}

theorem alloc_ne_zero_iff (hinv : Inv start stop s free blocks) (hstop : stop ≤ 2 ^ 64)
    (hsize : 1 ≤ layout.size) (hrun : alloc fuel s.heap.startCall layout = some (h, p)) :
    p ≠ 0 ↔ CanServe s.heap free layout := by
  unfold CanServe
  rcases alloc_cases hinv hstop hsize hrun with
    ⟨hreq, hp, -⟩ | ⟨hreq, rfl, -, he, hp, -⟩ | ⟨hreq, hfit, rfl, -⟩
  · simp [hreq, hp]
  · apply iff_of_true hp
    intro request hreq'
    obtain rfl := Option.some.inj (hreq.symm.trans hreq')
    exact ⟨_, by simp, Option.isSome_iff_exists.mpr ⟨p, he⟩⟩
  · apply iff_of_false (by simp)
    intro hserve
    have hsome := firstFit_isSome.mpr (hserve _ hreq)
    simp [hfit] at hsome

end

/-! ## Larger regions -/

theorem roundUp_grown {e g : Extent} (layout : Layout) (he : IsNode e) (hg : IsNode g)
    (hgrown : Grown e g) : roundUp g.addr layout.align = roundUp e.addr layout.align ∨
      roundUp g.addr layout.align + 16 ≤ roundUp e.addr layout.align := by
  have hle : g.addr ≤ e.addr := by
    rcases hgrown.addr with h | h <;> omega
  obtain ⟨h1, h2, h3⟩ := roundUp_spec layout.align_pos e.addr
  obtain ⟨h4, h5, h6⟩ := roundUp_spec layout.align_pos g.addr
  -- alignments up to 8 leave node addresses as they are
  by_cases h8 : layout.align ∣ 8
  · rw [roundUp_of_dvd (h8.trans he.1), roundUp_of_dvd (h8.trans hg.1)]
    exact hgrown.addr
  · have h16 : 16 ≤ layout.align := by
      obtain ⟨n, hn⟩ := layout.align_cases.resolve_left h8
      have hne : n ≠ 1 := by
        rintro rfl
        exact h8 (by simp [hn])
      have hpos := layout.align_pos
      omega
    obtain ⟨m, hm⟩ := h2
    obtain ⟨n, hn⟩ := h5
    -- both are multiples of the alignment, and the lower one is the first from `g` on
    rcases Nat.lt_trichotomy n m with hlt | rfl | hlt
    · have hmul : layout.align * (n + 1) ≤ layout.align * m := Nat.mul_le_mul_left _ hlt
      rw [Nat.mul_add] at hmul
      omega
    · exact .inl (hn.trans hm.symm)
    · have hmul : layout.align * (m + 1) ≤ layout.align * n := Nat.mul_le_mul_left _ hlt
      rw [Nat.mul_add] at hmul
      omega

theorem Takes.grow {e g : Extent} {layout : Layout} (h : Takes e layout) (he : IsNode e)
    (hg : IsNode g) (hlast : g.stop < 2 ^ 64) (hgrown : Grown e g) : Takes g layout := by
  have hstop : e.stop ≤ g.stop := by
    rcases hgrown.stop with h | h <;> omega
  obtain ⟨a, ha⟩ := Option.isSome_iff_exists.mp h
  have hfits := fits_of_place he ha
  have hstart := roundUp_grown layout he hg hgrown
  obtain ⟨rfl, -⟩ := place_eq_some.mp ha
  obtain ⟨h1, h2, h3⟩ := roundUp_spec (show 0 < 8 by omega)
    (roundUp g.addr layout.align + layout.size)
  have h4 := hfits.eight_dvd
  have h5 := hfits.end_dvd
  have h6 := hfits.le_end
  have h7 := hfits.end_lt
  have h8 := hfits.rest
  refine Option.isSome_iff_exists.mpr ⟨_, place_eq_some.mpr ⟨rfl, ?_, hlast, ?_⟩⟩
  · omega
  · rcases hstart with heq | hlt
    · rw [heq]
      have hgap := hgrown.stop
      omega
    · omega

/-! ## Freeing -/

section

variable {start stop : Nat} {s : State} {free : List Extent} {blocks : Fin 8 → List Nat}
  {layout other : Layout} {fuel p : Nat} {h : Heap}

theorem listHeads_eq_zero (hinv : Inv start stop s free blocks) (i : Fin 8) :
    s.heap.listHeads i = 0 ↔ blocks i = [] := by
  have hlist := hinv.classes i
  constructor
  · intro hnull
    cases hb : blocks i with
    | nil => rfl
    | cons a rest =>
      rw [hb] at hlist
      exact absurd (hlist.1.symm.trans hnull) hlist.2.1
  · intro hb
    rw [hb] at hlist
    exact hlist

theorem grown_freeAfter (hinv : Inv start stop s free blocks) (hmem : (p, layout) ∈ s.live) :
    ∀ e ∈ free, ∃ g ∈ freeAfter free p layout, Grown e g := by
  intro e he
  unfold freeAfter
  cases listIndex layout with
  | some i => exact ⟨e, he, .refl e⟩
  | none =>
    unfold releaseList
    split_ifs with hlt
    · exact ⟨e, he, .refl e⟩
    · have hperm := insertSorted_perm ⟨p, layout.size⟩ free
      have hnew : IsNode ⟨p, layout.size⟩ := ⟨(hinv.live _ hmem).eight_dvd, Nat.le_of_not_lt hlt⟩
      have hnodes : ∀ f ∈ insertSorted ⟨p, layout.size⟩ free, IsNode f := fun f hf =>
        List.forall_mem_cons.mpr ⟨hnew, hinv.nodes⟩ f (hperm.mem_iff.mp hf)
      exact grown_coalesceList hnodes e (hperm.mem_iff.mpr (List.mem_cons_of_mem _ he))

theorem fallbackRequest_dealloc {request : Layout} (hinv : Inv start stop s free blocks)
    (hinv' : Inv start stop ⟨h, s.live.erase (p, layout)⟩ (freeAfter free p layout)
      (blocksAfter blocks p layout)) (hreq : fallbackRequest h other = some request) :
    fallbackRequest s.heap other = some request := by
  unfold fallbackRequest at hreq ⊢
  cases hi : listIndex other with
  | none => simpa only [hi] using hreq
  | some i =>
    simp only [hi, Option.ite_none_right_eq_some] at hreq ⊢
    obtain ⟨hnull, hrequest⟩ := hreq
    rw [listHeads_eq_zero hinv' i] at hnull
    refine ⟨(listHeads_eq_zero hinv i).mpr ?_, hrequest⟩
    unfold blocksAfter at hnull
    cases hj : listIndex layout with
    | none => simpa only [hj] using hnull
    | some j =>
      simp only [hj] at hnull
      rcases eq_or_ne i j with rfl | hij
      · simp at hnull
      · rwa [Function.update_of_ne hij] at hnull

theorem canServe_dealloc (hinv : Inv start stop s free blocks) (hstop : stop < 2 ^ 64)
    (hmem : (p, layout) ∈ s.live)
    (hinv' : Inv start stop ⟨h, s.live.erase (p, layout)⟩ (freeAfter free p layout)
      (blocksAfter blocks p layout)) (hserve : CanServe s.heap free other) :
    CanServe h (freeAfter free p layout) other := by
  intro request hreq
  have hbefore := fallbackRequest_dealloc hinv hinv' hreq
  obtain ⟨e, he, htakes⟩ := hserve request hbefore
  obtain ⟨g, hg, hgrown⟩ := grown_freeAfter hinv hmem e he
  have hlast := (hinv'.packed_free.inside g hg).2.trans_lt hstop
  exact ⟨g, hg, htakes.grow (hinv.nodes e he) (hinv'.nodes g hg) hlast hgrown⟩

end

/-- A layout that can be allocated in some state can be allocated after any live block is
freed there, with the heap in the lower half of memory. -/
theorem freeing_never_hurts {heapStart heapSize : Nat} {s₀ s : State} {tr : List (State × Call)}
    {p q fuel : Nat} {layout other : Layout} {h : Heap} (hlow : heapStart + heapSize ≤ 2 ^ 63)
    (hboot : Boot heapStart heapSize s₀) (hrun : Run Step s₀ tr s) (hmem : (p, layout) ∈ s.live)
    (hsize : 1 ≤ other.size) (halloc : alloc fuel s.heap.startCall other = some (h, q))
    (hq : q ≠ 0) :
    ∃ fuel h₁, dealloc fuel s.heap.startCall p layout = some h₁ ∧
      ∃ fuel h₂ q', alloc fuel h₁.startCall other = some (h₂, q') ∧ q' ≠ 0 := by
  have hstop : heapStart + heapSize ≤ 2 ^ 64 := by omega
  obtain ⟨⟨free, blocks, hinv⟩, -⟩ := run_good hstop hboot hrun
  have hserve := (alloc_ne_zero_iff hinv hstop hsize halloc).mp hq
  obtain ⟨n, h₁, hdealloc⟩ := dealloc_runs hinv hstop hmem
  obtain ⟨hinv', -⟩ := dealloc_inv hinv hstop hmem hdealloc
  obtain ⟨n', ⟨h₂, q'⟩, halloc'⟩ := alloc_runs hinv' hstop
    fun request (_ : fallbackRequest h₁ other = some request) =>
      examined_of_low hinv' hlow request
  have hserve' := canServe_dealloc hinv (by omega) hmem hinv' hserve
  exact ⟨n, h₁, hdealloc, n', h₂, q', halloc',
    (alloc_ne_zero_iff hinv' hstop hsize halloc').mpr hserve'⟩

theorem freeing_never_hurts_page :
    ∃ s : State, s.live = [(4096, pageLayout)] ∧
      ∃ fuel h₁, dealloc fuel s.heap.startCall 4096 pageLayout = some h₁ ∧
        ∃ fuel h₂ q', alloc fuel h₁.startCall (blockLayout 1) = some (h₂, q') ∧ q' ≠ 0 := by
  have hcalls : ((init 4 (Heap.new fun _ => 0) 4096 8192).bind fun h₀ =>
      (alloc 4 h₀.startCall pageLayout).bind fun r =>
        (alloc 4 r.1.startCall (blockLayout 1)).map fun r' => (r.2, r'.2)) =
      some (4096, 8192) := by decide
  obtain ⟨h₀, hinit, hcalls⟩ := Option.bind_eq_some_iff.mp hcalls
  obtain ⟨⟨h₁, p⟩, halloc, hcalls⟩ := Option.bind_eq_some_iff.mp hcalls
  obtain ⟨⟨h₂, q⟩, hother, heq⟩ := Option.map_eq_some_iff.mp hcalls
  obtain ⟨rfl, rfl⟩ := Prod.mk.inj heq
  have hstep := Step.alloc (s := ⟨h₀, []⟩) (show 1 ≤ pageLayout.size by decide) halloc
  exact ⟨_, rfl, freeing_never_hurts (by decide) ⟨4, _, hinit, rfl⟩ (Run.nil.cons hstep)
    (List.mem_cons_self ..) (by decide) hother (by decide)⟩

/-! ## The block just freed -/

section

variable {pre post : List Extent} {e : Extent} {layout : Layout} {p : Nat}

theorem block_within (hfit : Fits e layout p) : Extent.Within ⟨p, layout.size⟩ e :=
  ⟨hfit.addr_le, hfit.le_end.trans hfit.end_le⟩

theorem insertSorted_block (h : Canonical (pre ++ e :: post)) (hfit : Fits e layout p)
    (hsize : 1 ≤ layout.size) :
    insertSorted ⟨p, layout.size⟩ (pre ++ (remainder e layout p ++ post)) =
      pre ++ ⟨p, layout.size⟩ :: (remainder e layout p ++ post) := by
  obtain ⟨-, htail, hacross⟩ := List.pairwise_append.mp h
  obtain ⟨he, -⟩ := List.pairwise_cons.mp htail
  have hstop := (block_within hfit).2
  refine insertSorted_eq (fun f hf => ?_) fun f hf => ?_
  · have hlt := hacross f hf e (by simp)
    exact (Nat.le_add_right _ _).trans (hlt.le.trans hfit.addr_le)
  · rcases List.mem_append.mp hf with hf | hf
    · have hr := (within_remainder hfit f hf).2.2
      simp only
      omega
    · have hlt := he f hf
      unfold Extent.stop at *
      simp only at *
      omega

theorem gap_before_block (h : Canonical (pre ++ e :: post)) (hfit : Fits e layout p) :
    ∀ f ∈ pre, ∀ g ∈ ⟨p, layout.size⟩ :: (remainder e layout p ++ post), f.stop < g.addr := by
  obtain ⟨-, -, hacross⟩ := List.pairwise_append.mp h
  intro f hf g hg
  have hlt := hacross f hf e (by simp)
  rcases List.mem_cons.mp hg with rfl | hg
  · exact hlt.trans_le hfit.addr_le
  rcases List.mem_append.mp hg with hg | hg
  · exact hlt.trans_le (within_remainder hfit g hg).1.1
  · exact hacross f hf g (List.mem_cons_of_mem _ hg)

theorem releaseList_even (h : Canonical (pre ++ e :: post)) (hfit : Fits e layout p)
    (h8 : 8 ∣ layout.size) (h16 : 16 ≤ layout.size) :
    releaseList (pre ++ (remainder e layout p ++ post)) p layout.size =
      pre ++ ⟨p, e.stop - p⟩ :: post := by
  have hend : roundUp (p + layout.size) 8 = p + layout.size :=
    roundUp_of_dvd (Nat.dvd_add hfit.eight_dvd h8)
  have hle : p + layout.size ≤ e.stop := (block_within hfit).2
  have hmerged : Canonical (pre ++ ([⟨p, e.stop - p⟩] ++ post)) := by
    apply h.replace (List.pairwise_singleton _ _)
    simp only [List.mem_singleton, forall_eq]
    refine ⟨hfit.addr_le, ?_⟩
    simp only [Extent.stop] at hle ⊢
    omega
  obtain ⟨hpre, hpost, hacross⟩ := List.pairwise_append.mp hmerged
  rw [releaseList, if_neg (by omega), insertSorted_block h hfit (by omega)]
  have hblock : coalesceList (⟨p, layout.size⟩ :: (remainder e layout p ++ post)) =
      ⟨p, e.stop - p⟩ :: post := by
    unfold remainder
    simp only [hend]
    split_ifs with hlt
    · have hsum : layout.size + (e.stop - (p + layout.size)) = e.stop - p := by omega
      have htouch : Extent.stop ⟨p, layout.size⟩ = p + layout.size := rfl
      rw [List.singleton_append, coalesceList, if_pos htouch]
      simp only [hsum]
      exact coalesceList_of_canonical hpost
    · have hsize : layout.size = e.stop - p := by omega
      rw [List.nil_append, hsize]
      exact coalesceList_of_canonical hpost
  rw [coalesceList_append (gap_before_block h hfit) hpre, hblock]

theorem releaseList_odd (h : Canonical (pre ++ e :: post)) (hfit : Fits e layout p)
    (h8 : ¬ 8 ∣ layout.size) (h16 : 16 ≤ layout.size) :
    releaseList (pre ++ (remainder e layout p ++ post)) p layout.size =
      pre ++ ⟨p, layout.size⟩ :: (remainder e layout p ++ post) := by
  have hlt : p + layout.size < roundUp (p + layout.size) 8 := by
    have h1 := hfit.eight_dvd
    have h2 := hfit.end_dvd
    have h3 := hfit.le_end
    omega
  have hmid : Canonical (⟨p, layout.size⟩ :: remainder e layout p) := by
    refine List.pairwise_cons.mpr ⟨fun r hr => hlt.trans_le ?_, canonical_remainder⟩
    exact (covers_remainder.mp ⟨r, hr, le_rfl, Nat.lt_add_of_pos_right
      (within_remainder hfit r hr).2.1⟩).1
  rw [releaseList, if_neg (by omega), insertSorted_block h hfit (by omega)]
  refine coalesceList_of_canonical (h.replace hmid fun f hf => ?_)
  rcases List.mem_cons.mp hf with rfl | hf
  · exact block_within hfit
  · exact (within_remainder hfit f hf).1

/-- A second block of the layout has a place next to the first one: in another region, or
in what is left of the region that the first one is cut from. -/
def RoomForTwo (free : List Extent) (layout : Layout) : Prop :=
  ∃ e a, firstFit free layout = some e ∧ place e layout = some a ∧
    ∃ g ∈ remainder e layout a ++ free.erase e, Takes g layout

theorem roomForTwo_iff (hp : place e layout = some p) (hno : ∀ f ∈ pre, place f layout = none) :
    RoomForTwo (pre ++ e :: post) layout ↔
      ∃ g ∈ pre ++ (remainder e layout p ++ post), Takes g layout := by
  have hfit : firstFit (pre ++ e :: post) layout = some e := firstFit_append hno hp
  have hmem : e ∉ pre := by
    intro he
    simp [hno e he] at hp
  have herase : (pre ++ e :: post).erase e = pre ++ post := by
    rw [List.erase_append_right _ hmem, List.erase_cons_head]
  have hperm : (remainder e layout p ++ (pre ++ post)).Perm
      (pre ++ (remainder e layout p ++ post)) := List.perm_append_comm_assoc ..
  constructor
  · rintro ⟨e', a, he', ha, g, hg, htakes⟩
    obtain rfl := Option.some.inj (hfit.symm.trans he')
    obtain rfl := Option.some.inj (hp.symm.trans ha)
    rw [herase] at hg
    exact ⟨g, hperm.mem_iff.mp hg, htakes⟩
  · rintro ⟨g, hg, htakes⟩
    refine ⟨e, p, hfit, hp, g, ?_, htakes⟩
    rw [herase]
    exact hperm.mem_iff.mpr hg

theorem takes_merged (hp : place e layout = some p) (hfit : Fits e layout p) :
    Takes ⟨p, e.stop - p⟩ layout := by
  obtain ⟨-, hraw, hlast, hend, hrest⟩ := place_eq_some.mp hp
  have hle : p + layout.size ≤ e.stop := (block_within hfit).2
  have hstop : Extent.stop ⟨p, e.stop - p⟩ = e.stop := by
    simp only [Extent.stop] at hle ⊢
    omega
  refine Option.isSome_iff_exists.mpr ⟨p, place_eq_some.mpr ⟨?_, hraw, ?_⟩⟩
  · exact (roundUp_of_dvd hfit.align_dvd).symm
  · rw [hstop]
    exact ⟨hlast, hend, hrest⟩

theorem not_takes_odd (hfit : Fits e layout p) (h8 : ¬ 8 ∣ layout.size) :
    ¬ Takes ⟨p, layout.size⟩ layout := by
  intro htakes
  obtain ⟨a, ha⟩ := Option.isSome_iff_exists.mp htakes
  obtain ⟨hstart, -, -, hend, -⟩ := place_eq_some.mp ha
  rw [roundUp_of_dvd hfit.align_dvd] at hstart
  subst hstart
  have h1 := hfit.eight_dvd
  have h2 := hfit.end_dvd
  have h3 := hfit.le_end
  simp only [Extent.stop] at hend
  omega

theorem takes_released_iff (h : Canonical (pre ++ e :: post)) (hfit : Fits e layout p)
    (hp : place e layout = some p) :
    (∃ g ∈ releaseList (pre ++ (remainder e layout p ++ post)) p layout.size, Takes g layout) ↔
      (8 ∣ layout.size ∧ 16 ≤ layout.size) ∨
        ∃ g ∈ pre ++ (remainder e layout p ++ post), Takes g layout := by
  by_cases h16 : 16 ≤ layout.size
  · by_cases h8 : 8 ∣ layout.size
    -- the merged region starts at the block, so it takes it there once more
    · rw [releaseList_even h hfit h8 h16]
      exact iff_of_true ⟨_, by simp, takes_merged hp hfit⟩ (.inl ⟨h8, h16⟩)
    · rw [releaseList_odd h hfit h8 h16]
      have hno := not_takes_odd hfit h8
      simp only [h8, false_and, false_or, List.mem_append, List.mem_cons]
      constructor
      · rintro ⟨g, hg | rfl | hg, htakes⟩
        · exact ⟨g, .inl hg, htakes⟩
        · exact absurd htakes hno
        · exact ⟨g, .inr hg, htakes⟩
      · rintro ⟨g, hg | hg, htakes⟩
        · exact ⟨g, .inl hg, htakes⟩
        · exact ⟨g, .inr (.inr hg), htakes⟩
  · rw [releaseList, if_pos (by omega)]
    simp [h16]

end

/-! ## Runs -/

/-- No address that `alloc` computes in its search is out of range. -/
def Unwrapped (s : State) (layout : Layout) : Prop :=
  ∀ request free, fallbackRequest s.heap layout = some request → FreeAt s.heap .head free →
    Examined free request

/-- The freed block is found again in its size class, or as whole words, or another block
of the layout had a place beside it. -/
def Reusable (s : State) (layout : Layout) : Prop :=
  (listIndex layout).isSome = true ∨ (8 ∣ layout.size ∧ 16 ≤ layout.size) ∨
    ∃ free, FreeAt s.heap .head free ∧ RoomForTwo free layout

section

variable {start stop : Nat} {s s' : State} {free pre post : List Extent}
  {blocks : Fin 8 → List Nat} {layout : Layout} {e : Extent} {p : Nat} {h : Heap}

theorem canServe_class {i : Fin 8} (hi : listIndex layout = some i)
    (hinv : Inv start stop s free (blocksAfter blocks p layout)) :
    CanServe s.heap free layout := by
  intro request hreq
  have hne : s.heap.listHeads i ≠ 0 := by
    rw [Ne, listHeads_eq_zero hinv i]
    simp [blocksAfter, hi]
  simp [fallbackRequest, hi, hne] at hreq

theorem canServe_fallback (hi : listIndex layout = none) :
    CanServe h free layout ↔ ∃ e ∈ free, Takes e layout := by
  simp [CanServe, fallbackRequest, hi]

theorem reusable_fallback (hi : listIndex layout = none) (hl : FreeAt s.heap .head free) :
    Reusable s layout ↔ (8 ∣ layout.size ∧ 16 ≤ layout.size) ∨ RoomForTwo free layout := by
  have hroom : (∃ free', FreeAt s.heap .head free' ∧ RoomForTwo free' layout) ↔
      RoomForTwo free layout := by
    constructor
    · rintro ⟨free', hl', hroom⟩
      rwa [hl'.unique hl] at hroom
    · exact fun hroom => ⟨free, hl, hroom⟩
  simp [Reusable, hi, hroom]

theorem canServe_reused_iff (hi : listIndex layout = none)
    (hinv : Inv start stop s (pre ++ e :: post) blocks)
    (hno : ∀ f ∈ pre, place f layout = none) (hp : place e layout = some p) :
    CanServe h (freeAfter (cutList pre post e layout p) p layout) layout ↔
      Reusable s layout := by
  have hfit := fits_of_place (hinv.nodes e (by simp)) hp
  rw [canServe_fallback hi, reusable_fallback hi hinv.freeAt, roomForTwo_iff hp hno,
    ← takes_released_iff hinv.gaps hfit hp, cutList_eq hinv.gaps hfit]
  simp only [freeAfter, hi]

theorem alloc_then_freed {fuel : Nat} (hinv : Inv start stop s free blocks)
    (hstop : stop ≤ 2 ^ 64) (hsize : 1 ≤ layout.size)
    (hcall : alloc fuel s.heap.startCall layout = some (h, p)) (hp : p ≠ 0) :
    ∃ free' blocks', Inv start stop ⟨h, (p, layout) :: s.live⟩ free' blocks' ∧
      (listIndex layout = none → ∀ h',
        (CanServe h' (freeAfter free' p layout) layout ↔ Reusable s layout)) := by
  rcases alloc_cases hinv hstop hsize hcall with
    ⟨hreq, -, hinv', -⟩ | ⟨hreq, rfl, hno, he, -, hinv', -⟩ | ⟨-, -, rfl, -⟩
  · refine ⟨_, _, hinv', fun hi => ?_⟩
    simp [fallbackRequest, hi] at hreq
  · refine ⟨_, _, hinv', fun hi h' => ?_⟩
    obtain rfl : _ = layout := by simpa [fallbackRequest, hi] using hreq.symm
    exact canServe_reused_iff hi hinv hno he
  · exact absurd rfl hp

theorem unwrapped_iff_returns (layout : Layout) (hinv : Inv start stop s free blocks)
    (hstop : stop ≤ 2 ^ 64) :
    Unwrapped s layout ↔ ∃ fuel r, alloc fuel s.heap.startCall layout = some r := by
  constructor
  · exact fun hw => alloc_runs hinv hstop fun request hreq => hw request free hreq hinv.freeAt
  · rintro ⟨fuel, r, hrun⟩ request free' hreq hl
    rw [hl.unique hinv.freeAt]
    exact examined_of_alloc hinv hstop hreq hrun

end

/-- After a block was allocated and freed at once, `alloc` returns a block of the same
layout exactly when the block is reusable and no address overflows in the search. -/
theorem freed_block_reused_iff {heapStart heapSize : Nat} {s₀ s s₁ s₂ : State}
    {tr : List (State × Call)} {layout : Layout} {p : Nat}
    (hstop : heapStart + heapSize ≤ 2 ^ 64) (hboot : Boot heapStart heapSize s₀)
    (hrun : Run Step s₀ tr s) (halloc : Step s (.alloc layout) s₁)
    (hlive : s₁.live = (p, layout) :: s.live) (hdealloc : Step s₁ (.dealloc p layout) s₂) :
    ((∃ fuel h p', alloc fuel s₂.heap.startCall layout = some (h, p') ∧ p' ≠ 0) ↔
        Reusable s layout ∧ Unwrapped s₂ layout) ∧
      (Unwrapped s₂ layout → ∃ fuel r, alloc fuel s₂.heap.startCall layout = some r) ∧
      (heapStart + heapSize ≤ 2 ^ 63 → Unwrapped s₂ layout) := by
  obtain ⟨⟨free, blocks, hinv⟩, -⟩ := run_good hstop hboot hrun
  cases halloc with
  | alloc hsize hcall =>
    rename_i n q h₁
    have hq : q ≠ 0 := by
      rintro rfl
      simp at hlive
    obtain rfl : q = p := by simpa [hq] using hlive
    rw [if_neg hq] at hdealloc
    obtain ⟨free₁, blocks₁, hinv₁, hserve⟩ := alloc_then_freed hinv hstop hsize hcall hq
    cases hdealloc with
    | dealloc hmem hcall₁ =>
      rename_i m h₂
      obtain ⟨hinv₂, -⟩ := dealloc_inv hinv₁ hstop hmem hcall₁
      have hreturns := unwrapped_iff_returns layout hinv₂ hstop
      refine ⟨?_, hreturns.mp, fun hlow request free₂ _ hl => ?_⟩
      · have hblock : CanServe h₂ (freeAfter free₁ q layout) layout ↔ Reusable s layout := by
          cases hi : listIndex layout with
          | none => exact hserve hi _
          -- the class list now starts with the block itself
          | some i => exact iff_of_true (canServe_class hi hinv₂) (.inl (by simp [hi]))
        rw [← hblock, hreturns]
        constructor
        · rintro ⟨fuel, h, p', hcall₂, hp'⟩
          exact ⟨(alloc_ne_zero_iff hinv₂ hstop hsize hcall₂).mp hp', fuel, _, hcall₂⟩
        · rintro ⟨hcan, fuel, ⟨h, p'⟩, hcall₂⟩
          exact ⟨fuel, h, p', hcall₂, (alloc_ne_zero_iff hinv₂ hstop hsize hcall₂).mpr hcan⟩
      · rw [hl.unique hinv₂.freeAt]
        exact examined_of_low hinv₂ hlow request

theorem freed_block_reused_page :
    ∃ s₂ : State, s₂.live = [] ∧
      ∃ fuel h p', alloc fuel s₂.heap.startCall pageLayout = some (h, p') ∧ p' ≠ 0 := by
  have hcalls : ((init 4 (Heap.new fun _ => 0) 4096 8192).bind fun h₀ =>
      (alloc 4 h₀.startCall pageLayout).bind fun r =>
        (dealloc 4 r.1.startCall 4096 pageLayout).map fun _ => r.2) = some 4096 := by decide
  obtain ⟨h₀, hinit, hcalls⟩ := Option.bind_eq_some_iff.mp hcalls
  obtain ⟨⟨h₁, p⟩, halloc, hcalls⟩ := Option.bind_eq_some_iff.mp hcalls
  obtain ⟨h₂, hdealloc, rfl : p = 4096⟩ := Option.map_eq_some_iff.mp hcalls
  have hboot : Boot 4096 8192 ⟨h₀, []⟩ := ⟨4, _, hinit, rfl⟩
  have hfirst := Step.alloc (s := ⟨h₀, []⟩) (show 1 ≤ pageLayout.size by decide) halloc
  have hsecond := Step.dealloc (s := ⟨h₁, [(4096, pageLayout)]⟩) (List.mem_cons_self ..) hdealloc
  obtain ⟨hiff, -, hlow⟩ := freed_block_reused_iff (by decide) hboot .nil hfirst rfl hsecond
  obtain ⟨fuel, h, p', hcall, hp'⟩ := hiff.mpr ⟨.inr (.inl (by decide)), hlow (by decide)⟩
  exact ⟨_, rfl, fuel, h, p', hcall, hp'⟩

/-- In a heap of 2056 bytes a block of 2049 bytes is found once: `dealloc` gives back 2049
bytes, and the next block needs 2056. -/
theorem freed_block_not_reused :
    ¬ ∀ (heapStart heapSize : Nat) (s₀ s s₁ s₂ : State) (tr : List (State × Call))
      (layout : Layout) (p : Nat), heapStart + heapSize ≤ 2 ^ 64 → Boot heapStart heapSize s₀ →
      Run Step s₀ tr s → Step s (.alloc layout) s₁ → s₁.live = (p, layout) :: s.live →
      Step s₁ (.dealloc p layout) s₂ →
      ∃ fuel h p', alloc fuel s₂.heap.startCall layout = some (h, p') ∧ p' ≠ 0 := by
  intro hall
  have hcalls : ((init 4 (Heap.new fun _ => 0) 4096 2056).bind fun h₀ =>
      (alloc 4 h₀.startCall oddLayout).bind fun r =>
        (dealloc 4 r.1.startCall 4096 oddLayout).bind fun h₂ =>
          (alloc 4 h₂.startCall oddLayout).map fun r' => (r.2, r'.2)) = some (4096, 0) := by decide
  obtain ⟨h₀, hinit, hcalls⟩ := Option.bind_eq_some_iff.mp hcalls
  obtain ⟨⟨h₁, p⟩, halloc, hcalls⟩ := Option.bind_eq_some_iff.mp hcalls
  obtain ⟨h₂, hdealloc, hcalls⟩ := Option.bind_eq_some_iff.mp hcalls
  obtain ⟨⟨h₃, p₃⟩, hagain, heq⟩ := Option.map_eq_some_iff.mp hcalls
  obtain ⟨rfl, rfl⟩ := Prod.mk.inj heq
  have hfirst := Step.alloc (s := ⟨h₀, []⟩) (show 1 ≤ oddLayout.size by decide) halloc
  have hsecond := Step.dealloc (s := ⟨h₁, [(4096, oddLayout)]⟩) (List.mem_cons_self ..) hdealloc
  obtain ⟨fuel, h, p', hcall, hne⟩ := hall 4096 2056 _ _ _ _ [] oddLayout 4096 (by decide)
    ⟨4, _, hinit, rfl⟩ .nil hfirst rfl hsecond
  exact hne (Prod.mk.inj (eq_of_mono alloc_mono hcall hagain)).2

end AliluOS.Allocator
