import AliluOS.Network.Html
import AliluOS.Text.Replace

/-! `decode_entities` against a pass that decodes once. -/

namespace AliluOS.Network
open Text

/-- One pass from left to right. -/
def decodeOnce : Str → Str
  | '&' :: 'a' :: 'm' :: 'p' :: ';' :: s => '&' :: decodeOnce s
  | '&' :: 'l' :: 't' :: ';' :: s => '<' :: decodeOnce s
  | '&' :: 'g' :: 't' :: ';' :: s => '>' :: decodeOnce s
  | '&' :: 'q' :: 'u' :: 'o' :: 't' :: ';' :: s => '"' :: decodeOnce s
  | c :: s => c :: decodeOnce s
  | [] => []

def escapeChar (c : Char) : Str :=
  if c = '&' then "&amp;" else if c = '<' then "&lt;" else if c = '>' then "&gt;"
  else if c = '"' then "&quot;" else [c]

def escape (t : Str) : Str := t.flatMap escapeChar

def laterEntities : List (Str × Char) := [("lt;", '<'), ("gt;", '>'), ("quot;", '"')]

/-- `&amp;lt;`, `&amp;gt;` or `&amp;quot;` stands in the text. -/
def EscapedTwice (s : Str) : Prop :=
  HasPiece '&' (laterEntities.map fun e => "amp;".toList ++ e.1) s

def ShowsEntity (t : Str) : Prop := HasPiece '&' (laterEntities.map Prod.fst) t

variable {s t word : Str} {c : Char} {e : Str × Char}

theorem decodeEntities_eq (s : Str) :
    decodeEntities s = replaceAll '&' (("amp;".toList, '&') :: laterEntities) s := rfl

theorem separate_laterEntities : Separate '&' laterEntities := by
  unfold Separate
  decide

theorem later_spec (he : e ∈ laterEntities) : '&' ∉ e.1 ∧ e.2 ≠ '&' := by
  revert e
  decide

theorem decodeEntities_ne (h : c ≠ '&') (s : Str) :
    decodeEntities (c :: s) = c :: decodeEntities s := by
  rw [decodeEntities_eq, replaceAll_ne h, decodeEntities_eq]

theorem laterEntities_split (he : e ∈ laterEntities) : ∃ before after,
    laterEntities = before ++ e :: after ∧ ∀ other ∈ before, ∀ s, ¬ other.1 <+: e.1 ++ s := by
  simp only [laterEntities, List.mem_cons, List.not_mem_nil, or_false] at he
  rcases he with rfl | rfl | rfl
  · exact ⟨[], _, rfl, by simp⟩
  · exact ⟨[("lt;".toList, '<')], _, rfl, by simp [List.cons_prefix_cons]⟩
  · exact ⟨[("lt;".toList, '<'), ("gt;".toList, '>')], _, rfl, by simp [List.cons_prefix_cons]⟩

theorem not_amp_of_later (he : e ∈ laterEntities) (s : Str) : ¬ "amp;".toList <+: e.1 ++ s := by
  simp only [laterEntities, List.mem_cons, List.not_mem_nil, or_false] at he
  rcases he with rfl | rfl | rfl <;> simp [List.cons_prefix_cons]

theorem decodeEntities_later (he : e ∈ laterEntities) (s : Str) :
    decodeEntities ('&' :: (e.1 ++ s)) = e.2 :: decodeEntities s ∧
      decodeEntities ('&' :: ("amp;".toList ++ (e.1 ++ s))) = e.2 :: decodeEntities s := by
  obtain ⟨hname, hput⟩ := later_spec he
  obtain ⟨before, after, hsplit, hbefore⟩ := laterEntities_split he
  have hlater : replaceAll '&' laterEntities
      ('&' :: (e.1 ++ replace ('&' :: "amp;".toList) ['&'] s)) = e.2 :: decodeEntities s := by
    rw [decodeEntities_eq, replaceAll, hsplit]
    exact replaceAll_here hname hput hbefore _
  constructor
  · rw [decodeEntities_eq, replaceAll, replace_mark (not_amp_of_later he s), replace_unmarked hname]
    exact hlater
  · rw [decodeEntities_eq, replaceAll, replace_here, replace_unmarked hname]
    exact hlater

theorem replaceAll_later (h : ∀ e ∈ laterEntities, ¬ e.1 <+: s) :
    replaceAll '&' laterEntities ('&' :: replace ('&' :: "amp;".toList) ['&'] s) =
      '&' :: decodeEntities s := by
  apply replaceAll_mark separate_laterEntities
  intro e he
  rw [prefix_replace (later_spec he).1 (later_spec he).1]
  exact h e he

theorem decodeEntities_amp (h : ∀ e ∈ laterEntities, ¬ e.1 <+: s) :
    decodeEntities ('&' :: ("amp;".toList ++ s)) = '&' :: decodeEntities s := by
  rw [decodeEntities_eq, replaceAll, replace_here, List.singleton_append]
  exact replaceAll_later h

theorem decodeEntities_mark (hamp : ¬ "amp;".toList <+: s)
    (h : ∀ e ∈ laterEntities, ¬ e.1 <+: s) :
    decodeEntities ('&' :: s) = '&' :: decodeEntities s := by
  rw [decodeEntities_eq, replaceAll, replace_mark hamp]
  exact replaceAll_later h

theorem decodeOnce_later (he : e ∈ laterEntities) (s : Str) :
    decodeOnce ('&' :: (e.1 ++ s)) = e.2 :: decodeOnce s := by
  simp only [laterEntities, List.mem_cons, List.not_mem_nil, or_false] at he
  rcases he with rfl | rfl | rfl <;> rfl

theorem decodeOnce_ne (h : c ≠ '&') (s : Str) : decodeOnce (c :: s) = c :: decodeOnce s := by
  rw [decodeOnce]
  all_goals exact fun _ heq => absurd heq h

theorem escapedTwice_mark (h : ¬ "amp;".toList <+: s) :
    EscapedTwice ('&' :: s) ↔ EscapedTwice s := by
  unfold EscapedTwice
  rw [hasPiece_mark, or_iff_right]
  rintro ⟨word, hword, hpre⟩
  obtain ⟨e, -, rfl⟩ := List.mem_map.mp hword
  exact h ((List.prefix_append _ _).trans hpre)

theorem escapedTwice_later (he : e ∈ laterEntities) (s : Str) :
    EscapedTwice ('&' :: (e.1 ++ s)) ↔ EscapedTwice s := by
  rw [escapedTwice_mark (not_amp_of_later he s)]
  exact hasPiece_unmarked (later_spec he).1 s

theorem escapedTwice_amp (s : Str) : EscapedTwice ('&' :: ("amp;".toList ++ s)) ↔
    (∃ e ∈ laterEntities, e.1 <+: s) ∨ EscapedTwice s := by
  have hamp : '&' ∉ "amp;".toList := by decide
  unfold EscapedTwice
  rw [hasPiece_mark, hasPiece_unmarked hamp]
  simp only [List.mem_map, exists_exists_and_eq_and, List.prefix_append_right_inj]

def DecodedOnce (s : Str) : Prop := decodeEntities s = decodeOnce s ↔ ¬ EscapedTwice s

theorem decodedOnce_later (he : e ∈ laterEntities) (h : DecodedOnce s) :
    DecodedOnce ('&' :: (e.1 ++ s)) := by
  rw [DecodedOnce, (decodeEntities_later he s).1, decodeOnce_later he, escapedTwice_later he,
    List.cons.injEq, and_iff_right rfl]
  exact h

/-- Behind `&amp;` the replacements go wrong exactly where the rest of an entity stands. -/
theorem decodedOnce_amp (h : DecodedOnce s) : DecodedOnce ('&' :: ("amp;".toList ++ s)) := by
  have honce : decodeOnce ('&' :: ("amp;".toList ++ s)) = '&' :: decodeOnce s := rfl
  rw [DecodedOnce, escapedTwice_amp, honce]
  by_cases hlater : ∃ e ∈ laterEntities, e.1 <+: s
  · obtain ⟨e, he, s, rfl⟩ := hlater
    rw [(decodeEntities_later he s).2]
    simp only [List.cons.injEq, (later_spec he).2, false_and, false_iff, not_not]
    exact .inl ⟨e, he, List.prefix_append _ _⟩
  · rw [decodeEntities_amp (by simpa using hlater), or_iff_right hlater, List.cons.injEq,
      and_iff_right rfl]
    exact h

theorem decodedOnce_mark (hamp : ¬ "amp;".toList <+: s) (hlater : ∀ e ∈ laterEntities, ¬ e.1 <+: s)
    (honce : decodeOnce ('&' :: s) = '&' :: decodeOnce s) (h : DecodedOnce s) :
    DecodedOnce ('&' :: s) := by
  rw [DecodedOnce, decodeEntities_mark hamp hlater, escapedTwice_mark hamp, honce,
    List.cons.injEq, and_iff_right rfl]
  exact h

theorem decodedOnce_ne (hc : c ≠ '&') (h : DecodedOnce s) : DecodedOnce (c :: s) := by
  rw [DecodedOnce, decodeEntities_ne hc, decodeOnce_ne hc, EscapedTwice, hasPiece_ne hc,
    ← EscapedTwice, List.cons.injEq, and_iff_right rfl]
  exact h

theorem decodeEntities_eq_decodeOnce (s : Str) : DecodedOnce s := by
  induction s using decodeOnce.induct with
  | case1 s ih => exact decodedOnce_amp ih
  | case2 s ih => exact decodedOnce_later (e := ("lt;".toList, '<')) (by decide) ih
  | case3 s ih => exact decodedOnce_later (e := ("gt;".toList, '>')) (by decide) ih
  | case4 s ih => exact decodedOnce_later (e := ("quot;".toList, '"')) (by decide) ih
  | case5 c s hamp hlt hgt hquot ih =>
    by_cases hc : c = '&'
    · subst hc
      refine decodedOnce_mark ?_ ?_ ?_ ih
      · rintro ⟨s, rfl⟩
        exact hamp s rfl rfl
      · intro e he
        simp only [laterEntities, List.mem_cons, List.not_mem_nil, or_false] at he
        rcases he with rfl | rfl | rfl <;> rintro ⟨s, rfl⟩
        · exact hlt s rfl rfl
        · exact hgt s rfl rfl
        · exact hquot s rfl rfl
      · rw [decodeOnce]
        all_goals assumption
    · exact decodedOnce_ne hc ih
  | case6 => simp [DecodedOnce, EscapedTwice, HasPiece, laterEntities, decodeEntities, decodeOnce]

theorem escapeChar_cases (c : Char) : (c ≠ '&' ∧ escapeChar c = [c]) ∨
    (c = '&' ∧ escapeChar c = '&' :: "amp;".toList) ∨
      ∃ e ∈ laterEntities, c = e.2 ∧ escapeChar c = '&' :: e.1 := by
  unfold escapeChar
  split_ifs with hamp hlt hgt hquot
  · exact .inr (.inl ⟨hamp, rfl⟩)
  · exact .inr (.inr ⟨("lt;".toList, '<'), by decide, hlt, rfl⟩)
  · exact .inr (.inr ⟨("gt;".toList, '>'), by decide, hgt, rfl⟩)
  · exact .inr (.inr ⟨("quot;".toList, '"'), by decide, hquot, rfl⟩)
  · exact .inl ⟨hamp, rfl⟩

theorem escape_cons (c : Char) (t : Str) : escape (c :: t) = escapeChar c ++ escape t :=
  List.flatMap_cons

theorem decodeOnce_escape (t : Str) : decodeOnce (escape t) = t := by
  induction t with
  | nil => rfl
  | cons c t ih =>
    rw [escape_cons]
    rcases escapeChar_cases c with ⟨hc, hplain⟩ | ⟨rfl, hamp⟩ | ⟨e, he, rfl, hlater⟩
    · rw [hplain, List.singleton_append, decodeOnce_ne hc, ih]
    · rw [hamp]
      exact congrArg ('&' :: ·) ih
    · rw [hlater, List.cons_append, decodeOnce_later he, ih]

theorem prefix_escape (hplain : ∀ c ∈ word, escapeChar c = [c]) (t : Str) :
    word <+: escape t ↔ word <+: t := by
  induction word generalizing t with
  | nil => simp
  | cons d word ih =>
    obtain ⟨hd, hword⟩ := List.forall_mem_cons.mp hplain
    cases t with
    | nil => simp [escape]
    | cons c t =>
      rw [escape_cons, List.cons_prefix_cons, ← ih hword]
      by_cases heq : d = c
      · rw [← heq, hd, List.singleton_append, List.cons_prefix_cons]
      · -- an escaped character begins with the mark, which is not plain
        have hmark : d ≠ '&' := fun heq => by simp [heq, escapeChar] at hd
        rcases escapeChar_cases c with ⟨-, hc⟩ | ⟨-, hc⟩ | ⟨e, -, -, hc⟩ <;>
          simp [hc, List.cons_prefix_cons, heq, hmark]

theorem escapedTwice_escape (t : Str) : EscapedTwice (escape t) ↔ ShowsEntity t := by
  have hplain : ∀ e ∈ laterEntities, ∀ c ∈ e.1, escapeChar c = [c] := by decide
  induction t with
  | nil => simp [escape, EscapedTwice, ShowsEntity, HasPiece]
  | cons c t ih =>
    rw [escape_cons]
    rcases escapeChar_cases c with ⟨hc, hself⟩ | ⟨rfl, hamp⟩ | ⟨e, he, rfl, hlater⟩
    · rw [hself, List.singleton_append]
      exact (hasPiece_ne hc).trans (ih.trans (hasPiece_ne hc).symm)
    · have hfront : (∃ e ∈ laterEntities, e.1 <+: escape t) ↔
          ∃ word ∈ laterEntities.map Prod.fst, word <+: t := by
        simp only [List.mem_map, exists_exists_and_eq_and]
        exact exists_congr fun e => and_congr_right fun he => prefix_escape (hplain e he) t
      rw [hamp, List.cons_append, escapedTwice_amp, hfront, ShowsEntity, hasPiece_mark]
      exact or_congr_right ih
    · rw [hlater, List.cons_append, escapedTwice_later he]
      exact ih.trans (hasPiece_ne (later_spec he).2).symm

/-- The replacements decode once exactly where no `&amp;` stands before the rest of an
entity, and give an escaped text back exactly when it shows no entity. -/
theorem decodes_once_iff (s t : Str) : (decodeEntities s = decodeOnce s ↔ ¬ EscapedTwice s) ∧
    (decodeEntities (escape t) = t ↔ ¬ ShowsEntity t) := by
  refine ⟨decodeEntities_eq_decodeOnce s, ?_⟩
  calc decodeEntities (escape t) = t
      ↔ decodeEntities (escape t) = decodeOnce (escape t) := by rw [decodeOnce_escape]
    _ ↔ ¬ EscapedTwice (escape t) := decodeEntities_eq_decodeOnce _
    _ ↔ ¬ ShowsEntity t := not_congr (escapedTwice_escape t)

theorem amp_lt_decoded_twice : ¬ ∀ s t : Str,
    decodeEntities s = decodeOnce s ∧ decodeEntities (escape t) = t := by
  intro h
  have htwice := (h "&amp;lt;".toList "&lt;".toList).1
  revert htwice
  decide +kernel

end AliluOS.Network
