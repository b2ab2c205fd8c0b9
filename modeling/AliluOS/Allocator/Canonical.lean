import AliluOS.Allocator.FreeList
import Mathlib.Data.List.TakeWhile

/-! Free lists in canonical form, and how regions grow when they are coalesced. -/

namespace AliluOS.Allocator
open Lib Lib.Extent

def Sorted (l : List Extent) : Prop := l.Pairwise fun e f => e.stop ≤ f.addr

def Canonical (l : List Extent) : Prop := l.Pairwise fun e f => e.stop < f.addr

variable {l pre post : List Extent} {e f g : Extent}

theorem Canonical.sorted (h : Canonical l) : Sorted l := h.imp fun hlt => hlt.le

theorem Sorted.addr_le (h : Sorted (e :: l)) : ∀ g ∈ e :: l, e.addr ≤ g.addr := by
  intro g hg
  rcases List.mem_cons.mp hg with rfl | hg
  · exact le_rfl
  · exact (Nat.le_add_right _ _).trans ((List.pairwise_cons.mp h).1 g hg)

theorem lt_of_mem_dropWhile {a : Nat} (h : Sorted l) (hg : g ∈ l.dropWhile (·.addr ≤ a)) :
    a < g.addr := by
  induction l with
  | nil => simp at hg
  | cons e l ih =>
    by_cases hle : e.addr ≤ a
    · rw [List.dropWhile_cons_of_pos (by simpa using hle)] at hg
      exact ih (List.pairwise_cons.mp h).2 hg
    · rw [List.dropWhile_cons_of_neg (by simpa using hle)] at hg
      exact (Nat.lt_of_not_le hle).trans_le (h.addr_le g hg)

theorem sorted_insertSorted {start stop : Nat} (h : Sorted l) (hp : Packed start stop (e :: l)) :
    Sorted (insertSorted e l) := by
  have hsub := List.takeWhile_append_dropWhile (p := (·.addr ≤ e.addr)) (l := l)
  have hpos := hp.pos e (by simp)
  have happart := hp.head_apart
  unfold Sorted insertSorted
  rw [← hsub] at h
  obtain ⟨hbefore, hafter, hacross⟩ := List.pairwise_append.mp h
  refine List.pairwise_append.mpr ⟨hbefore, List.pairwise_cons.mpr ⟨fun f hf => ?_, hafter⟩, ?_⟩
  · have hlt := lt_of_mem_dropWhile (hsub ▸ h) hf
    have hap := happart f ((List.dropWhile_sublist _).subset hf)
    unfold Apart Extent.stop at *
    omega
  · intro f hf g hg
    rcases List.mem_cons.mp hg with rfl | hg
    · have hle : f.addr ≤ g.addr := by simpa using List.mem_takeWhile_imp hf
      have hap := happart f ((List.takeWhile_sublist _).subset hf)
      have hfpos := hp.pos f (List.mem_cons_of_mem _ ((List.takeWhile_sublist _).subset hf))
      unfold Apart Extent.stop at *
      omega
    · exact hacross f hf g hg

theorem insertSorted_eq (hpre : ∀ f ∈ pre, f.addr ≤ e.addr) (hpost : ∀ f ∈ post, e.addr < f.addr) :
    insertSorted e (pre ++ post) = pre ++ e :: post := by
  have htake : (pre ++ post).takeWhile (·.addr ≤ e.addr) = pre := by
    rw [List.takeWhile_append_of_pos (by simpa using hpre)]
    cases post with
    | nil => simp
    | cons f post => simp [hpost f (by simp)]
  have hdrop : (pre ++ post).dropWhile (·.addr ≤ e.addr) = post := by
    rw [List.dropWhile_append_of_pos (by simpa using hpre)]
    cases post with
    | nil => simp
    | cons f post => simp [hpost f (by simp)]
  rw [insertSorted, htake, hdrop]

theorem Canonical.lt_of_covers_tail (h : Canonical (e :: l)) {x : Nat} (hx : Covers l x) :
    e.stop < x := by
  obtain ⟨f, hf, hle, -⟩ := hx
  exact ((List.pairwise_cons.mp h).1 f hf).trans_le hle

theorem Canonical.le_of_covers (h : Canonical (e :: l)) {x : Nat} (hx : Covers (e :: l) x) :
    e.addr ≤ x := by
  rcases (covers_cons e l x).mp hx with hx | hx
  · exact hx.1
  · exact (Nat.le_add_right _ _).trans (h.lt_of_covers_tail hx).le

theorem Canonical.not_covers_stop (h : Canonical (e :: l)) : ¬ Covers (e :: l) e.stop := by
  rw [covers_cons]
  rintro (hx | hx)
  · exact absurd hx.2 (lt_irrefl _)
  · exact absurd (h.lt_of_covers_tail hx) (lt_irrefl _)

theorem Canonical.covers_tail (h : Canonical (e :: l)) (x : Nat) :
    Covers l x ↔ Covers (e :: l) x ∧ e.stop < x := by
  rw [covers_cons]
  constructor
  · exact fun hx => ⟨.inr hx, h.lt_of_covers_tail hx⟩
  · rintro ⟨hx, hlt⟩
    exact hx.resolve_left fun hin => absurd hin.2 hlt.not_gt

theorem covers_addr (l : List Extent) (hpos : 0 < e.size) : Covers (e :: l) e.addr :=
  (covers_cons e l _).mpr (.inl ⟨le_rfl, Nat.lt_add_of_pos_right hpos⟩)

theorem Canonical.head_eq {f : Extent} {l' : List Extent} (h : Canonical (e :: l))
    (h' : Canonical (f :: l')) (hpos : 0 < e.size) (hpos' : 0 < f.size)
    (hcovers : ∀ x, Covers (e :: l) x ↔ Covers (f :: l') x) : e = f := by
  have haddr : e.addr = f.addr :=
    le_antisymm (h.le_of_covers ((hcovers _).mpr (covers_addr _ hpos')))
      (h'.le_of_covers ((hcovers _).mp (covers_addr _ hpos)))
  -- a byte behind the one region would still be in the other
  have hstop : ¬ Covers (f :: l') e.stop := fun hx => h.not_covers_stop ((hcovers _).mpr hx)
  have hstop' : ¬ Covers (e :: l) f.stop := fun hx => h'.not_covers_stop ((hcovers _).mp hx)
  rw [covers_cons, not_or] at hstop hstop'
  cases e
  cases f
  simp only [Extent.stop, Extent.mk.injEq] at *
  omega

theorem Canonical.eq_of_covers {l' : List Extent} (h : Canonical l) (h' : Canonical l')
    (hpos : ∀ e ∈ l, 0 < e.size) (hpos' : ∀ e ∈ l', 0 < e.size)
    (hcovers : ∀ x, Covers l x ↔ Covers l' x) : l = l' := by
  induction l generalizing l' with
  | nil =>
    cases l' with
    | nil => rfl
    | cons f l' =>
      exact absurd ((hcovers _).mpr (covers_addr l' (hpos' f (by simp)))) (covers_nil _)
  | cons e l ih =>
    cases l' with
    | nil => exact absurd ((hcovers _).mp (covers_addr l (hpos e (by simp)))) (covers_nil _)
    | cons f l' =>
      obtain rfl := h.head_eq h' (hpos e (by simp)) (hpos' f (by simp)) hcovers
      have htail : ∀ x, Covers l x ↔ Covers l' x := by
        intro x
        rw [h.covers_tail, h'.covers_tail, hcovers x]
      rw [ih (List.pairwise_cons.mp h).2 (List.pairwise_cons.mp h').2
        (fun g hg => hpos g (List.mem_cons_of_mem _ hg))
        (fun g hg => hpos' g (List.mem_cons_of_mem _ hg)) htail]

theorem coalesceList_addr : ∀ g ∈ coalesceList l, ∃ e ∈ l, g.addr = e.addr := by
  induction l using coalesceList.induct with
  | case1 e f l htouch ih =>
    rw [coalesceList, if_pos htouch]
    intro g hg
    obtain ⟨x, hx, haddr⟩ := ih g hg
    rcases List.mem_cons.mp hx with rfl | hx
    · exact ⟨e, by simp, haddr⟩
    · exact ⟨x, by simp [hx], haddr⟩
  | case2 e f l htouch ih =>
    rw [coalesceList, if_neg htouch]
    intro g hg
    rcases List.mem_cons.mp hg with rfl | hg
    · exact ⟨g, by simp, rfl⟩
    · obtain ⟨x, hx, haddr⟩ := ih g hg
      exact ⟨x, List.mem_cons_of_mem _ hx, haddr⟩
  | case3 l =>
    rw [coalesceList]
    · exact fun x hx => ⟨x, hx, rfl⟩
    · assumption

theorem canonical_coalesceList (h : Sorted l) : Canonical (coalesceList l) := by
  induction l using coalesceList.induct with
  | case1 e f l htouch ih =>
    rw [coalesceList, if_pos htouch]
    obtain ⟨-, hf, hl⟩ := List.pairwise_cons.mp h |>.imp_right List.pairwise_cons.mp
    refine ih (List.pairwise_cons.mpr ⟨fun g hg => ?_, hl⟩)
    have hle := hf g hg
    unfold Extent.stop at *
    simp only
    omega
  | case2 e f l htouch ih =>
    rw [coalesceList, if_neg htouch]
    obtain ⟨he, hl⟩ := List.pairwise_cons.mp h
    refine List.pairwise_cons.mpr ⟨fun g hg => ?_, ih hl⟩
    obtain ⟨x, hx, haddr⟩ := coalesceList_addr g hg
    have hlt := lt_of_le_of_ne (he f (by simp)) htouch
    rw [haddr]
    exact hlt.trans_le (Sorted.addr_le hl x hx)
  | case3 l hshape =>
    rw [coalesceList]
    · rcases l with _ | ⟨e, _ | ⟨f, l⟩⟩
      · exact .nil
      · exact List.pairwise_singleton _ _
      · exact absurd rfl (hshape e f l)
    · exact hshape

theorem coalesceList_cons (h : ∀ f ∈ l, e.stop < f.addr) :
    coalesceList (e :: l) = e :: coalesceList l := by
  cases l with
  | nil => simp [coalesceList]
  | cons f l => rw [coalesceList, if_neg (h f (by simp)).ne]

theorem coalesceList_append (h : ∀ e ∈ pre, ∀ f ∈ l, e.stop < f.addr) (hpre : Canonical pre) :
    coalesceList (pre ++ l) = pre ++ coalesceList l := by
  induction pre with
  | nil => rfl
  | cons e pre ih =>
    obtain ⟨he, hpre⟩ := List.pairwise_cons.mp hpre
    have hgap : ∀ f ∈ pre ++ l, e.stop < f.addr := by
      intro f hf
      rcases List.mem_append.mp hf with hf | hf
      · exact he f hf
      · exact h e (by simp) f hf
    rw [List.cons_append, coalesceList_cons hgap,
      ih (fun x hx => h x (List.mem_cons_of_mem _ hx)) hpre, List.cons_append]

theorem coalesceList_of_canonical (h : Canonical l) : coalesceList l = l := by
  have hall := coalesceList_append (l := []) (by simp) h
  simpa [coalesceList] using hall

theorem Canonical.replace {mid : List Extent} (h : Canonical (pre ++ e :: post))
    (hmid : Canonical mid) (hin : ∀ f ∈ mid, f.Within e) : Canonical (pre ++ (mid ++ post)) := by
  obtain ⟨hpre, htail, hacross⟩ := List.pairwise_append.mp h
  obtain ⟨he, hpost⟩ := List.pairwise_cons.mp htail
  refine List.pairwise_append.mpr ⟨hpre, List.pairwise_append.mpr ⟨hmid, hpost, ?_⟩, ?_⟩
  · intro f hf g hg
    exact (hin f hf).2.trans_lt (he g hg)
  · intro f hf g hg
    rcases List.mem_append.mp hg with hg | hg
    · exact (hacross f hf e (by simp)).trans_le (hin g hg).1
    · exact hacross f hf g (List.mem_cons_of_mem _ hg)

theorem insertSorted_within (h : Canonical (pre ++ e :: post)) (hin : f.Within e)
    (hpos : 0 < f.size) : insertSorted f (pre ++ post) = pre ++ f :: post := by
  obtain ⟨-, htail, hacross⟩ := List.pairwise_append.mp h
  obtain ⟨he, -⟩ := List.pairwise_cons.mp htail
  have hlt : f.addr < f.stop := Nat.lt_add_of_pos_right hpos
  refine insertSorted_eq (fun g hg => ?_) fun g hg => ?_
  · have hstop := (hacross g hg e (by simp)).trans_le hin.1
    exact (Nat.le_add_right _ _).trans hstop.le
  · exact hlt.trans_le (hin.2.trans (he g hg).le)

theorem within_remainder {layout : Layout} {a : Nat} (hfit : Fits e layout a) :
    ∀ r ∈ remainder e layout a, r.Within e ∧ 0 < r.size ∧ a + layout.size ≤ r.addr := by
  have hle := hfit.le_end
  have haddr := hfit.addr_le
  unfold remainder
  simp only
  split_ifs with hlt
  · simp only [List.mem_singleton, forall_eq, Within, Extent.stop]
    unfold Extent.stop at hlt
    omega
  · simp

theorem canonical_remainder {layout : Layout} {a : Nat} : Canonical (remainder e layout a) := by
  unfold remainder
  simp only
  split_ifs
  · exact List.pairwise_singleton _ _
  · exact .nil

theorem cutList_eq {layout : Layout} {a : Nat} (h : Canonical (pre ++ e :: post))
    (hfit : Fits e layout a) :
    cutList pre post e layout a = pre ++ (remainder e layout a ++ post) := by
  have hwithin := within_remainder hfit
  have hcanonical := h.replace canonical_remainder fun r hr => (hwithin r hr).1
  unfold cutList
  rcases hrem : remainder e layout a with _ | ⟨r, _ | ⟨r', l⟩⟩
  · rfl
  · rw [hrem] at hwithin hcanonical
    obtain ⟨hin, hpos, -⟩ := hwithin r (by simp)
    rw [List.foldr_cons, List.foldr_nil, insertSorted_within h hin hpos]
    exact coalesceList_of_canonical hcanonical
  · unfold remainder at hrem
    simp only at hrem
    split_ifs at hrem
    simp at hrem

theorem canonical_cutList {layout : Layout} {a : Nat} (h : Canonical (pre ++ e :: post))
    (hfit : Fits e layout a) : Canonical (cutList pre post e layout a) := by
  rw [cutList_eq h hfit]
  exact h.replace canonical_remainder fun r hr => (within_remainder hfit r hr).1

/-- `e` merged with nodes in front of it, behind it, or both: each is 16 bytes at least. -/
structure Grown (e g : Extent) : Prop where
  addr : g.addr = e.addr ∨ g.addr + 16 ≤ e.addr
  stop : g.stop = e.stop ∨ e.stop + 16 ≤ g.stop

theorem Grown.refl (e : Extent) : Grown e e := ⟨.inl rfl, .inl rfl⟩

theorem Grown.trans (h : Grown e f) (h' : Grown f g) : Grown e g := by
  obtain ⟨haddr, hstop⟩ := h
  obtain ⟨haddr', hstop'⟩ := h'
  exact ⟨by omega, by omega⟩

theorem grown_coalesceList (h : ∀ e ∈ l, IsNode e) : ∀ e ∈ l, ∃ g ∈ coalesceList l, Grown e g := by
  induction l using coalesceList.induct with
  | case1 e f l htouch ih =>
    rw [coalesceList, if_pos htouch]
    have he := h e (by simp)
    have hf := h f (by simp)
    have hmerged : IsNode ⟨e.addr, e.size + f.size⟩ :=
      ⟨he.1, he.2.trans (Nat.le_add_right _ _)⟩
    have ih := ih (List.forall_mem_cons.mpr ⟨hmerged, fun g hg => h g (by simp [hg])⟩)
    obtain ⟨g, hg, hgrown⟩ := ih _ (List.mem_cons_self ..)
    have hparts : Grown e ⟨e.addr, e.size + f.size⟩ ∧ Grown f ⟨e.addr, e.size + f.size⟩ := by
      have := he.2
      have := hf.2
      unfold Extent.stop at htouch
      refine ⟨⟨.inl rfl, .inr ?_⟩, ⟨.inr ?_, .inl ?_⟩⟩ <;> simp only [Extent.stop] <;> omega
    intro x hx
    rcases List.mem_cons.mp hx with rfl | hx
    · exact ⟨g, hg, hparts.1.trans hgrown⟩
    rcases List.mem_cons.mp hx with rfl | hx
    · exact ⟨g, hg, hparts.2.trans hgrown⟩
    · exact ih x (List.mem_cons_of_mem _ hx)
  | case2 e f l htouch ih =>
    rw [coalesceList, if_neg htouch]
    intro x hx
    rcases List.mem_cons.mp hx with rfl | hx
    · exact ⟨x, by simp, .refl x⟩
    · obtain ⟨g, hg, hgrown⟩ := ih (fun g hg => h g (List.mem_cons_of_mem _ hg)) x hx
      exact ⟨g, List.mem_cons_of_mem _ hg, hgrown⟩
  | case3 l =>
    rw [coalesceList]
    · exact fun x hx => ⟨x, hx, .refl x⟩
    · assumption

end AliluOS.Allocator
