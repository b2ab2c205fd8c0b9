import AliluOS.Text.Str

/-! `str::replace` for a piece that begins with a mark which does not come again in it:
no two places of the piece overlap. -/

namespace AliluOS.Text

variable {mark c : Char} {name word new s : Str}

theorem replaceFrom_append (pat new s t : Str) :
    replaceFrom pat new s.length (s ++ t) = replaceFrom pat new 0 t := by
  induction s with
  | nil => rfl
  | cons c s ih => exact ih

@[simp] theorem replace_nil (pat new : Str) : replace pat new [] = [] := by
  rw [replace, replaceFrom]

theorem replace_here (mark : Char) (name new s : Str) :
    replace (mark :: name) new (mark :: (name ++ s)) = new ++ replace (mark :: name) new s := by
  have hhere : (mark :: name).isPrefixOf (mark :: (name ++ s)) = true :=
    List.isPrefixOf_iff_prefix.mpr ⟨s, rfl⟩
  rw [replace, replaceFrom, if_pos hhere, List.length_cons, Nat.add_sub_cancel,
    replaceFrom_append]
  rfl

theorem replace_mark (h : ¬ name <+: s) :
    replace (mark :: name) new (mark :: s) = mark :: replace (mark :: name) new s := by
  have hnot : ¬ (mark :: name).isPrefixOf (mark :: s) = true := by
    rw [List.isPrefixOf_iff_prefix, List.cons_prefix_cons]
    exact fun hpre => h hpre.2
  rw [replace, replaceFrom, if_neg hnot]
  rfl

theorem replace_ne (h : c ≠ mark) :
    replace (mark :: name) new (c :: s) = c :: replace (mark :: name) new s := by
  have hnot : ¬ (mark :: name).isPrefixOf (c :: s) = true := by
    rw [List.isPrefixOf_iff_prefix, List.cons_prefix_cons]
    exact fun hpre => h hpre.1.symm
  rw [replace, replaceFrom, if_neg hnot]
  rfl

theorem replace_unmarked (h : mark ∉ word) (s : Str) :
    replace (mark :: name) new (word ++ s) = word ++ replace (mark :: name) new s := by
  induction word with
  | nil => rfl
  | cons c word ih =>
    simp only [List.mem_cons, not_or] at h
    rw [List.cons_append, replace_ne (Ne.symm h.1), ih h.2, List.cons_append]

theorem prefix_replace (hmark : mark ∉ word) (hc : c ∉ word) :
    word <+: replace (mark :: name) [c] s ↔ word <+: s := by
  induction word generalizing s with
  | nil => simp
  | cons d word ih =>
    simp only [List.mem_cons, not_or] at hmark hc
    cases s with
    | nil => simp
    | cons e s =>
      by_cases heq : e = mark
      · subst heq
        by_cases hhere : name <+: s
        · obtain ⟨s, rfl⟩ := hhere
          rw [replace_here]
          simp [List.cons_prefix_cons, Ne.symm hmark.1, Ne.symm hc.1]
        · rw [replace_mark hhere]
          simp [List.cons_prefix_cons, Ne.symm hmark.1]
      · rw [replace_ne heq, List.cons_prefix_cons, List.cons_prefix_cons, ih hmark.2 hc.2]

def replaceAll (mark : Char) : List (Str × Char) → Str → Str
  | [], s => s
  | (name, c) :: rest, s => replaceAll mark rest (replace (mark :: name) [c] s)

/-- The mark is in no name, and neither is a character that is put in. -/
def Separate (mark : Char) (pieces : List (Str × Char)) : Prop :=
  ∀ piece ∈ pieces, mark ∉ piece.1 ∧ ∀ other ∈ pieces, other.2 ∉ piece.1

variable {pieces before after : List (Str × Char)} {piece : Str × Char}

theorem Separate.tail (h : Separate mark (piece :: pieces)) : Separate mark pieces := by
  intro other hother
  obtain ⟨hmark, hput⟩ := h other (List.mem_cons_of_mem _ hother)
  exact ⟨hmark, fun third hthird => hput third (List.mem_cons_of_mem _ hthird)⟩

theorem replaceAll_ne (h : c ≠ mark) (s : Str) :
    replaceAll mark pieces (c :: s) = c :: replaceAll mark pieces s := by
  induction pieces generalizing s with
  | nil => rfl
  | cons piece pieces ih => rw [replaceAll, replace_ne h, ih, replaceAll]

theorem replaceAll_mark (hpieces : Separate mark pieces) (h : ∀ piece ∈ pieces, ¬ piece.1 <+: s) :
    replaceAll mark pieces (mark :: s) = mark :: replaceAll mark pieces s := by
  induction pieces generalizing s with
  | nil => rfl
  | cons piece pieces ih =>
    obtain ⟨hhere, hlater⟩ := List.forall_mem_cons.mp h
    rw [replaceAll, replace_mark hhere, ih hpieces.tail, replaceAll]
    intro other hother
    obtain ⟨hmark, hput⟩ := hpieces other (List.mem_cons_of_mem _ hother)
    rw [prefix_replace hmark (hput piece (List.mem_cons_self ..))]
    exact hlater other hother

theorem replaceAll_here (hname : mark ∉ piece.1) (hput : piece.2 ≠ mark)
    (h : ∀ other ∈ before, ∀ s, ¬ other.1 <+: piece.1 ++ s) (s : Str) :
    replaceAll mark (before ++ piece :: after) (mark :: (piece.1 ++ s)) =
      piece.2 :: replaceAll mark (before ++ piece :: after) s := by
  induction before generalizing s with
  | nil =>
    rw [List.nil_append, replaceAll, replace_here, List.singleton_append, replaceAll_ne hput,
      replaceAll]
  | cons other before ih =>
    obtain ⟨hother, hbefore⟩ := List.forall_mem_cons.mp h
    rw [List.cons_append, replaceAll, replace_mark (hother s), replace_unmarked hname,
      ih hbefore, replaceAll]

def HasPiece (mark : Char) (words : List Str) (s : Str) : Prop :=
  ∃ word ∈ words, (mark :: word) <:+: s

variable {words : List Str}

theorem hasPiece_mark :
    HasPiece mark words (mark :: s) ↔ (∃ word ∈ words, word <+: s) ∨ HasPiece mark words s := by
  simp only [HasPiece, List.infix_cons_iff, List.cons_prefix_cons, true_and, and_or_left, exists_or]

theorem hasPiece_ne (h : c ≠ mark) : HasPiece mark words (c :: s) ↔ HasPiece mark words s := by
  simp only [HasPiece, List.infix_cons_iff, List.cons_prefix_cons, Ne.symm h, false_and, false_or]

theorem hasPiece_unmarked (h : mark ∉ word) (s : Str) :
    HasPiece mark words (word ++ s) ↔ HasPiece mark words s := by
  induction word with
  | nil => rfl
  | cons c word ih =>
    simp only [List.mem_cons, not_or] at h
    rw [List.cons_append, hasPiece_ne (Ne.symm h.1), ih h.2]

end AliluOS.Text
