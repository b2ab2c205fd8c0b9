import AliluOS.Allocator.Model
import Mathlib.Tactic.Ring

/-! What the loops compute, on lists of extents: sorted insertion, coalescing
of neighbours that touch, and the address arithmetic of a first fit. -/

namespace AliluOS.Allocator
open Lib Lib.Extent

theorem addUsize_eq_some {a b c : Nat} : addUsize a b = some c ↔ c = a + b ∧ a + b < 2 ^ 64 := by
  unfold addUsize
  split_ifs with h
  · exact ⟨fun heq => ⟨(Option.some.inj heq).symm, h⟩, fun heq => congrArg some heq.1.symm⟩
  · exact ⟨nofun, fun heq => absurd heq.2 h⟩

def roundUp (a n : Nat) : Nat := if a % n = 0 then a else a - a % n + n

theorem roundUp_of_dvd {a n : Nat} (h : n ∣ a) : roundUp a n = a :=
  if_pos (Nat.mod_eq_zero_of_dvd h)

theorem roundUp_spec {n : Nat} (hn : 0 < n) (a : Nat) :
    a ≤ roundUp a n ∧ n ∣ roundUp a n ∧ roundUp a n < a + n := by
  unfold roundUp
  split_ifs with h
  · exact ⟨le_rfl, Nat.dvd_of_mod_eq_zero h, by omega⟩
  · have hlt := Nat.mod_lt a hn
    have hle := Nat.mod_le a n
    exact ⟨by omega, Nat.dvd_add (Nat.dvd_sub_mod a) (Nat.dvd_refl n), by omega⟩

theorem eq_roundUp_of_alignUp {a n q : Nat} (h : alignUp a n = some q) : q = roundUp a n := by
  unfold alignUp at h
  unfold roundUp
  dsimp only at h
  split_ifs at h ⊢ with hmod
  · exact (Option.some.inj h).symm
  · exact (addUsize_eq_some.mp h).1

theorem alignUp_of_lt {a n : Nat} (h : roundUp a n < 2 ^ 64) :
    alignUp a n = some (roundUp a n) := by
  unfold alignUp
  unfold roundUp at h ⊢
  dsimp only
  split_ifs at h ⊢ with hmod
  · rfl
  · exact addUsize_eq_some.mpr ⟨rfl, h⟩

theorem alignUp_of_dvd {a n : Nat} (h : n ∣ a) : alignUp a n = some a :=
  if_pos (Nat.mod_eq_zero_of_dvd h)

theorem endAddress_eq {e : Extent} (h : e.stop < 2 ^ 64) : endAddress e = some e.stop :=
  if_pos h

/-- A free region is a node: 8-aligned, and with room for its header. -/
def IsNode (e : Extent) : Prop := 8 ∣ e.addr ∧ 16 ≤ e.size

def insertSorted (e : Extent) (l : List Extent) : List Extent :=
  l.takeWhile (·.addr ≤ e.addr) ++ e :: l.dropWhile (·.addr ≤ e.addr)

theorem insertSorted_split (e : Extent) (l : List Extent) :
    ∃ pre post, l = pre ++ post ∧ l.takeWhile (·.addr ≤ e.addr) = pre ∧
      insertSorted e l = pre ++ e :: post :=
  ⟨_, _, List.takeWhile_append_dropWhile.symm, rfl, rfl⟩

theorem insertSorted_perm (e : Extent) (l : List Extent) : (insertSorted e l).Perm (e :: l) := by
  unfold insertSorted
  apply List.perm_middle.trans
  rw [List.takeWhile_append_dropWhile]

def coalesceList : List Extent → List Extent
  | e :: f :: l =>
    if e.stop = f.addr then coalesceList (⟨e.addr, e.size + f.size⟩ :: l)
    else e :: coalesceList (f :: l)
  | l => l
termination_by l => l.length

theorem covers_coalesceList (l : List Extent) (x : Nat) :
    Covers (coalesceList l) x ↔ Covers l x := by
  induction l using coalesceList.induct with
  | case1 e f l htouch ih =>
    rw [coalesceList, if_pos htouch, ih]
    simp only [covers_cons, Extent.stop] at *
    rw [← or_assoc]
    apply or_congr_left
    omega
  | case2 e f l htouch ih =>
    rw [coalesceList, if_neg htouch, covers_cons, covers_cons, ih]
  | case3 l => simp [coalesceList]

theorem isNode_coalesceList {l : List Extent} (h : ∀ e ∈ l, IsNode e) :
    ∀ e ∈ coalesceList l, IsNode e := by
  induction l using coalesceList.induct with
  | case1 e f l htouch ih =>
    rw [coalesceList, if_pos htouch]
    refine ih (List.forall_mem_cons.mpr ⟨?_, fun g hg => h g (by simp [hg])⟩)
    obtain ⟨he, hs⟩ := h e (by simp)
    exact ⟨he, by simp only; omega⟩
  | case2 e f l htouch ih =>
    rw [coalesceList, if_neg htouch]
    exact List.forall_mem_cons.mpr ⟨h e (by simp), ih fun g hg => h g (List.mem_cons_of_mem _ hg)⟩
  | case3 l => simpa [coalesceList] using h

theorem packed_coalesceList {start stop : Nat} {l : List Extent} (rest : List Extent)
    (h : Packed start stop (l ++ rest)) : Packed start stop (coalesceList l ++ rest) := by
  induction l using coalesceList.induct generalizing rest with
  | case1 e f l htouch ih =>
    rw [coalesceList, if_pos htouch]
    exact ih rest (h.merge htouch)
  | case2 e f l htouch ih =>
    rw [coalesceList, if_neg htouch]
    -- `e` waits among the other extents while the tail is coalesced
    exact (ih (e :: rest) (h.perm List.perm_middle.symm)).perm List.perm_middle
  | case3 l => simpa [coalesceList] using h

/-- `l'` holds the memory of `l`, in another order or in larger pieces. -/
structure Regrouped (l l' : List Extent) : Prop where
  covers : ∀ x, Covers l' x ↔ Covers l x
  packed : ∀ {start stop : Nat} {rest : List Extent},
    Packed start stop (l ++ rest) → Packed start stop (l' ++ rest)
  nodes : (∀ e ∈ l, IsNode e) → ∀ e ∈ l', IsNode e

theorem Regrouped.refl (l : List Extent) : Regrouped l l := ⟨fun _ => Iff.rfl, id, id⟩

theorem regrouped_insert (e : Extent) (l : List Extent) :
    Regrouped (e :: l) (coalesceList (insertSorted e l)) := by
  have hperm := insertSorted_perm e l
  refine ⟨fun x => ?_, fun {_ _ rest} h => ?_, fun h => ?_⟩
  · rw [covers_coalesceList]
    exact ⟨Covers.perm hperm, Covers.perm hperm.symm⟩
  · exact packed_coalesceList rest (h.perm (hperm.symm.append_right rest))
  · exact isNode_coalesceList fun f hf => h f (hperm.mem_iff.mp hf)

def releaseList (free : List Extent) (p size : Nat) : List Extent :=
  if size < 16 then free else coalesceList (insertSorted ⟨p, size⟩ free)

theorem covers_releaseList {free : List Extent} {p size x : Nat} :
    Covers (releaseList free p size) x ↔
      (16 ≤ size ∧ p ≤ x ∧ x < p + size) ∨ Covers free x := by
  unfold releaseList
  split_ifs with hlt
  · exact (or_iff_right fun hx => absurd hx.1 (by omega)).symm
  · rw [(regrouped_insert _ _).covers, covers_cons]
    simp only [Nat.le_of_not_lt hlt, true_and, Extent.stop]

def firstAligned (addr : Nat) : Nat := (addr + 7) / 8 * 8

def usable (r : Extent) : List Extent :=
  if firstAligned r.addr + 16 ≤ r.stop then
    [⟨firstAligned r.addr, r.stop - firstAligned r.addr⟩]
  else []

theorem isLeast_firstAligned (addr : Nat) : IsLeast {a | addr ≤ a ∧ 8 ∣ a} (firstAligned addr) := by
  unfold firstAligned
  refine ⟨⟨by omega, Nat.dvd_mul_left 8 _⟩, fun a ha => ?_⟩
  obtain ⟨hle, k, rfl⟩ := ha
  omega

theorem covers_usable {r : Extent} {x : Nat} : Covers (usable r) x ↔
    firstAligned r.addr + 16 ≤ r.stop ∧ firstAligned r.addr ≤ x ∧ x < r.stop := by
  unfold usable
  split_ifs with hroom
  · simp only [covers_cons, covers_nil, or_false, Extent.stop] at *
    omega
  · simp [hroom]

theorem isNode_usable {r : Extent} : ∀ e ∈ usable r, IsNode e := by
  intro e he
  unfold usable at he
  split_ifs at he with hroom
  · obtain rfl := List.mem_singleton.mp he
    exact ⟨Nat.dvd_mul_left 8 _, by simp only; omega⟩
  · exact absurd he List.not_mem_nil

theorem within_usable {r : Extent} : ∀ e ∈ usable r, e.Within r := by
  intro e he
  unfold usable at he
  split_ifs at he with hroom
  · obtain rfl := List.mem_singleton.mp he
    simp only [Within, Extent.stop, firstAligned] at *
    omega
  · exact absurd he List.not_mem_nil

/-- `a` is an address in `e` for a block of the layout, with what the code
computes for the end of the block and what it leaves behind. -/
structure Fits (e : Extent) (layout : Layout) (a : Nat) : Prop where
  addr_le : e.addr ≤ a
  align_dvd : layout.align ∣ a
  eight_dvd : 8 ∣ a
  end_dvd : 8 ∣ roundUp (a + layout.size) 8
  le_end : a + layout.size ≤ roundUp (a + layout.size) 8
  end_lt : roundUp (a + layout.size) 8 < a + layout.size + 8
  end_le : roundUp (a + layout.size) 8 ≤ e.stop
  rest : roundUp (a + layout.size) 8 = e.stop ∨ roundUp (a + layout.size) 8 + 16 ≤ e.stop

def remainder (e : Extent) (layout : Layout) (a : Nat) : List Extent :=
  let stop := roundUp (a + layout.size) 8
  if stop < e.stop then [⟨stop, e.stop - stop⟩] else []

def cutList (pre post : List Extent) (e : Extent) (layout : Layout) (a : Nat) : List Extent :=
  (remainder e layout a).foldr (fun r l => coalesceList (insertSorted r l)) (pre ++ post)

theorem regrouped_cutList (pre post : List Extent) (e : Extent) (layout : Layout) (a : Nat) :
    Regrouped (remainder e layout a ++ (pre ++ post)) (cutList pre post e layout a) := by
  unfold cutList remainder
  simp only
  split_ifs
  · exact regrouped_insert _ _
  · exact Regrouped.refl _

theorem packed_cut {start stop a : Nat} {e : Extent} {layout : Layout} {rest : List Extent}
    (hp : Packed start stop (e :: rest)) (hfit : Fits e layout a) (hsize : 1 ≤ layout.size) :
    Packed start stop (⟨a, layout.size⟩ :: (remainder e layout a ++ rest)) := by
  have h1 := hfit.addr_le
  have h2 := hfit.le_end
  have h3 := hfit.end_le
  have hblock : Extent.Within ⟨a, layout.size⟩ e := ⟨h1, h2.trans h3⟩
  unfold remainder
  simp only
  split_ifs with hlt
  · refine hp.split hblock ⟨?_, ?_⟩ hsize (Nat.sub_pos_of_lt hlt) (.inl h2)
    · exact h1.trans ((Nat.le_add_right _ _).trans h2)
    · exact (Nat.add_sub_cancel' h3).le
  · exact hp.shrink hblock hsize

theorem isNode_remainder {a : Nat} {e : Extent} {layout : Layout} (hfit : Fits e layout a) :
    ∀ f ∈ remainder e layout a, IsNode f := by
  have hrest := hfit.rest
  unfold remainder
  simp only
  split_ifs
  · simp only [List.mem_singleton, forall_eq]
    exact ⟨hfit.end_dvd, by simp only; omega⟩
  · simp

def place (e : Extent) (layout : Layout) : Option Nat :=
  (allocFromRegion e layout.size layout.align).join

def firstFit (free : List Extent) (layout : Layout) : Option Extent :=
  free.find? fun e => (place e layout).isSome

theorem firstFit_none {free : List Extent} {layout : Layout} :
    firstFit free layout = none ↔ ∀ e ∈ free, place e layout = none := by
  simp [firstFit]

theorem firstFit_append {pre post : List Extent} {layout : Layout} {e : Extent} {a : Nat}
    (hno : ∀ f ∈ pre, place f layout = none) (he : place e layout = some a) :
    firstFit (pre ++ e :: post) layout = some e := by
  refine List.find?_eq_some_iff_append.mpr ⟨by simp [he], pre, post, rfl, fun f hf => ?_⟩
  simp [hno f hf]

theorem firstFit_some {free : List Extent} {layout : Layout} {e : Extent}
    (h : firstFit free layout = some e) :
    ∃ pre post a, free = pre ++ e :: post ∧ (∀ f ∈ pre, place f layout = none) ∧
      place e layout = some a := by
  obtain ⟨he, pre, post, hfree, hpre⟩ := List.find?_eq_some_iff_append.mp h
  obtain ⟨a, ha⟩ := Option.isSome_iff_exists.mp he
  exact ⟨pre, post, a, hfree, fun f hf => by simpa using hpre f hf, ha⟩

theorem allocFromRegion_of_place {e : Extent} {layout : Layout} {a : Nat}
    (h : place e layout = some a) :
    allocFromRegion e layout.size layout.align = some (some a) := Option.join_eq_some_iff.mp h

theorem place_eq_some {e : Extent} {layout : Layout} {a : Nat} : place e layout = some a ↔
    a = roundUp e.addr layout.align ∧ a + layout.size < 2 ^ 64 ∧ e.stop < 2 ^ 64 ∧
      roundUp (a + layout.size) 8 ≤ e.stop ∧
        (roundUp (a + layout.size) 8 = e.stop ∨ roundUp (a + layout.size) 8 + 16 ≤ e.stop) := by
  rw [place, Option.join_eq_some_iff]
  unfold allocFromRegion ListNode.alignOf ListNode.sizeOf
  constructor
  · intro h
    obtain ⟨start, hstart, h⟩ := Option.bind_eq_some_iff.mp h
    cases hraw : addUsize start layout.size with
    | none => simp [hraw] at h
    | some raw =>
      rw [hraw] at h
      obtain ⟨rfl, hlt⟩ := addUsize_eq_some.mp hraw
      obtain ⟨allocEnd, hend, h⟩ := Option.bind_eq_some_iff.mp h
      obtain ⟨stop, hstop, h⟩ := Option.bind_eq_some_iff.mp h
      obtain ⟨rfl, hlast⟩ := addUsize_eq_some.mp hstop
      obtain rfl := eq_roundUp_of_alignUp hstart
      obtain rfl := eq_roundUp_of_alignUp hend
      dsimp only at h
      split_ifs at h with hover hgap
      · cases Option.some.inj h
      · cases Option.some.inj h
      · obtain rfl := Option.some.inj (Option.some.inj h)
        exact ⟨rfl, hlt, hlast, by unfold Extent.stop; omega, by unfold Extent.stop; omega⟩
  · rintro ⟨rfl, hraw, hstop, hend, hrest⟩
    have hstart : alignUp e.addr layout.align = some (roundUp e.addr layout.align) :=
      alignUp_of_lt (by omega)
    have hround := alignUp_of_lt (hend.trans_lt hstop)
    rw [hstart, Option.bind_eq_bind, Option.bind_some, addUsize, if_pos hraw]
    dsimp only
    rw [hround, Option.bind_some, endAddress_eq hstop, Option.bind_some, if_neg (by omega),
      if_neg (by omega)]

theorem Layout.align_pos (layout : Layout) : 0 < layout.align := by
  obtain ⟨k, hk⟩ := layout.align_pow
  rw [hk]
  exact Nat.two_pow_pos k

theorem Layout.align_cases (layout : Layout) : layout.align ∣ 8 ∨ 8 ∣ layout.align := by
  obtain ⟨k, hk⟩ := layout.align_pow
  rw [hk, show 8 = 2 ^ 3 from rfl]
  rcases le_total k 3 with h | h
  · exact .inl (Nat.pow_dvd_pow 2 h)
  · exact .inr (Nat.pow_dvd_pow 2 h)

theorem fits_of_place {e : Extent} {layout : Layout} {a : Nat} (he : IsNode e)
    (h : place e layout = some a) : Fits e layout a := by
  obtain ⟨rfl, -, -, hend, hrest⟩ := place_eq_some.mp h
  obtain ⟨h1, h2, -⟩ := roundUp_spec layout.align_pos e.addr
  obtain ⟨h3, h4, h5⟩ := roundUp_spec (show 0 < 8 by omega)
    (roundUp e.addr layout.align + layout.size)
  have h8 : 8 ∣ roundUp e.addr layout.align := by
    rcases layout.align_cases with h8 | h8
    · rw [roundUp_of_dvd (h8.trans he.1)]
      exact he.1
    · exact h8.trans h2
  exact ⟨h1, h2, h8, h4, h3, h5, hend, hrest⟩

/-- No address that `alloc_from_region` computes for the region is out of range. -/
structure NoOverflow (e : Extent) (layout : Layout) : Prop where
  start : roundUp e.addr layout.align < 2 ^ 64
  stop : roundUp e.addr layout.align + layout.size < 2 ^ 64 →
    roundUp (roundUp e.addr layout.align + layout.size) 8 < 2 ^ 64 ∧ e.stop < 2 ^ 64

theorem NoOverflow.isSome {e : Extent} {layout : Layout} (h : NoOverflow e layout) :
    (allocFromRegion e layout.size layout.align).isSome = true := by
  unfold allocFromRegion
  rw [alignUp_of_lt h.start, Option.bind_eq_bind, Option.bind_some, addUsize]
  by_cases hraw : roundUp e.addr layout.align + layout.size < 2 ^ 64
  · obtain ⟨hend, hstop⟩ := h.stop hraw
    rw [if_pos hraw]
    dsimp only
    rw [show ListNode.alignOf = 8 from rfl, alignUp_of_lt hend, Option.bind_some,
      endAddress_eq hstop, Option.bind_some]
    split_ifs <;> rfl
  · rw [if_neg hraw]
    rfl

theorem lt_of_alignUp {a n q : Nat} (ha : a < 2 ^ 64) (h : alignUp a n = some q) : q < 2 ^ 64 := by
  unfold alignUp at h
  dsimp only at h
  split_ifs at h with hmod
  · rwa [← Option.some.inj h]
  · obtain ⟨rfl, hlt⟩ := addUsize_eq_some.mp h
    exact hlt

theorem noOverflow_of_isSome {e : Extent} {layout : Layout} (he : e.addr < 2 ^ 64)
    (h : (allocFromRegion e layout.size layout.align).isSome = true) : NoOverflow e layout := by
  obtain ⟨r, hr⟩ := Option.isSome_iff_exists.mp h
  unfold allocFromRegion at hr
  obtain ⟨start, hstart, hr⟩ := Option.bind_eq_some_iff.mp hr
  have hlt := lt_of_alignUp he hstart
  obtain rfl := eq_roundUp_of_alignUp hstart
  refine ⟨hlt, fun hraw => ?_⟩
  rw [addUsize, if_pos hraw] at hr
  dsimp only at hr
  obtain ⟨allocEnd, hend, hr⟩ := Option.bind_eq_some_iff.mp hr
  obtain ⟨stop, hstop, -⟩ := Option.bind_eq_some_iff.mp hr
  have hend_lt := lt_of_alignUp hraw hend
  obtain rfl := eq_roundUp_of_alignUp hend
  exact ⟨hend_lt, (addUsize_eq_some.mp hstop).2⟩

theorem Layout.align_dvd_half (layout : Layout) : layout.align ∣ 2 ^ 63 := by
  have h := layout.size_le
  obtain ⟨k, hk⟩ := layout.align_pow
  rw [hk] at h ⊢
  apply Nat.pow_dvd_pow 2
  by_contra hlt
  have : 2 ^ 64 ≤ 2 ^ k := Nat.pow_le_pow_right (by omega) (by omega)
  omega

theorem Layout.roundUp_le_half (layout : Layout) {a : Nat} (hlow : a ≤ 2 ^ 63) :
    roundUp a layout.align ≤ 2 ^ 63 := by
  obtain ⟨-, ⟨m, hm⟩, hlt⟩ := roundUp_spec layout.align_pos a
  obtain ⟨n, hn⟩ := layout.align_dvd_half
  rw [hm] at hlt ⊢
  rw [hn] at hlow ⊢
  apply Nat.mul_le_mul_left _
  by_contra hmn
  have hnext : layout.align * (n + 1) ≤ layout.align * m := Nat.mul_le_mul_left _ (by omega)
  rw [Nat.mul_add] at hnext
  omega

theorem noOverflow_of_low {e : Extent} {layout : Layout} (he : IsNode e) (hlow : e.stop ≤ 2 ^ 63) :
    NoOverflow e layout := by
  have hstop : e.addr + 16 ≤ e.stop := Nat.add_le_add_left he.2 _
  have hhalf := layout.roundUp_le_half (a := e.addr) (by omega)
  have hbound : roundUp e.addr layout.align + layout.size + 8 ≤ 2 ^ 64 := by
    have hle := layout.size_le
    rcases layout.align_cases with h8 | h8
    · rw [roundUp_of_dvd (h8.trans he.1)]
      omega
    · have halign := Nat.le_of_dvd layout.align_pos h8
      omega
  have hround := (roundUp_spec (show 0 < 8 by omega)
    (roundUp e.addr layout.align + layout.size)).2.2
  exact ⟨by omega, fun _ => ⟨by omega, by omega⟩⟩

end AliluOS.Allocator
