import AliluOS.Network.Markup

/-! The address of an anchor. Its position is found in the lower case of the tag, and
used in the tag itself. -/

namespace AliluOS.Network
open Text HtmlParser

def hrefAt (tag : Str) : Option (Str × Str) := locate "href=\"" tag

def anchorTags (html : Str) : List Str :=
  ((html.splitOn '<').tail.filter (·.contains '>')).map (·.takeWhile (· ≠ '>'))
    |>.filter opensAnchor

variable {tag before rest : Str} {s s' : HtmlParser}

theorem find_href (tag : Str) : find "href=\"" (toLowercase tag) =
    (hrefAt tag).map fun x => utf8Len (toLowercase x.1) :=
  find_toLowercase (by decide) (by decide) (by decide) tag

theorem hrefSlice_eq (h : hrefAt tag = some (before, rest)) :
    hrefSlice tag = sliceFrom (utf8Len (toLowercase before) + 6) tag := by
  rw [hrefSlice, find_href, h]
  rfl

theorem hrefSlice_eq_some {back : Str} (h : hrefAt tag = some (before, rest)) :
    hrefSlice tag = some back ↔
      ∃ front, tag = front ++ back ∧ utf8Len front = utf8Len (toLowercase before) + 6 := by
  rw [hrefSlice_eq h, sliceFrom_eq_some]

theorem hrefSlice_eq_rest (h : hrefAt tag = some (before, rest))
    (hbytes : utf8Len (toLowercase before) = utf8Len before) : hrefSlice tag = some rest := by
  obtain ⟨piece, rfl, hpiece⟩ := locate_eq_some h
  have hascii := ascii_of_toLowercase hpiece (by decide) (by decide)
  have hlen : utf8Len piece = 6 := by
    rw [← utf8Len_toLowercase_ascii hascii, hpiece]
    decide
  exact (hrefSlice_eq_some h).mpr
    ⟨before ++ piece, (List.append_assoc ..).symm, by rw [utf8Len_append, hlen, hbytes]⟩

/-- Where an anchor tag has an `href="`, the bytes up to there, counted in the lower case,
are those of whole characters at the front of the tag itself. -/
def Readable (tag : Str) : Prop :=
  opensAnchor tag = true → ∀ before rest, hrefAt tag = some (before, rest) →
    ∃ front, front <+: tag ∧ utf8Len front = utf8Len (toLowercase before) + 6

theorem readable_iff : Readable tag ↔
    (opensAnchor tag = true → (hrefAt tag).isSome → (hrefSlice tag).isSome) := by
  unfold Readable
  refine forall_congr' fun _ => ?_
  rcases hhref : hrefAt tag with _ | ⟨before, rest⟩
  · simp
  · constructor
    · intro h _
      obtain ⟨front, ⟨back, heq⟩, hbytes⟩ := h before rest rfl
      rw [(hrefSlice_eq_some hhref).mpr ⟨front, heq.symm, hbytes⟩]
      rfl
    · rintro h _ _ ⟨⟩
      obtain ⟨back, hback⟩ := Option.isSome_iff_exists.mp (h rfl)
      obtain ⟨front, heq, hbytes⟩ := (hrefSlice_eq_some hhref).mp hback
      exact ⟨front, ⟨back, heq.symm⟩, hbytes⟩

theorem closeTag_anchor (h : opensAnchor s.tagBuffer = true) :
    s.closeTag = { s with inAnchor := true }.href (toLowercase s.tagBuffer) := by
  obtain ⟨hopens, hcloses, hheading⟩ := no_skip_of_anchor (.inl h)
  simp only [opensSkip, closesSkip, opensAnchor, Bool.or_eq_false_iff, Bool.or_eq_true,
    decide_eq_true_eq] at hopens hcloses h
  unfold closeTag
  dsimp only
  rw [if_neg (by simp [hopens]), if_neg (by simp [hcloses]), if_neg (by simp [hheading]),
    if_pos h]

theorem exists_closeTag : (∃ s', s.closeTag = some s') ↔ Readable s.tagBuffer := by
  by_cases hanchor : opensAnchor s.tagBuffer = true
  · have hreadable : Readable s.tagBuffer ↔
        ((hrefAt s.tagBuffer).isSome → (hrefSlice s.tagBuffer).isSome) :=
      readable_iff.trans ⟨fun h => h hanchor, fun h _ => h⟩
    rw [hreadable, closeTag_anchor hanchor, href, find_href]
    rcases hhref : hrefAt s.tagBuffer with _ | ⟨before, rest⟩
    · simp
    · rw [hrefSlice_eq hhref]
      rcases hslice : sliceFrom (utf8Len (toLowercase before) + 6) s.tagBuffer with _ | rest'
      · simp [hslice]
      · simp only [Option.map_some, Option.bind_eq_bind, hslice, Option.bind_some,
          Option.isSome_some, imp_self, iff_true]
        split_ifs <;> exact ⟨_, rfl⟩
  · refine iff_of_true ?_ fun h => absurd h hanchor
    simp only [opensAnchor, Bool.or_eq_true, decide_eq_true_eq] at hanchor
    unfold closeTag
    dsimp only
    split_ifs <;> exact ⟨_, rfl⟩

theorem exists_readPiece {piece : Str} : (∃ s', s.readPiece piece = some s') ↔
    ('>' ∈ piece → Readable (piece.takeWhile (· ≠ '>'))) := by
  unfold readPiece
  split_ifs with hclosed
  · simp only [hclosed, true_imp_iff, readTag, Option.map_map, Option.map_eq_some_iff]
    rw [← exists_closeTag (s := { s.flushText with
      inTag := false, textBuffer := [], tagBuffer := piece.takeWhile (· ≠ '>') })]
    simp
  · simp [hclosed]

theorem exists_foldlM_readPiece {pieces : List Str} :
    (∃ s', pieces.foldlM readPiece s = some s') ↔
      ∀ piece ∈ pieces, '>' ∈ piece → Readable (piece.takeWhile (· ≠ '>')) := by
  induction pieces generalizing s with
  | nil => simp
  | cons piece pieces ih =>
    rw [List.forall_mem_cons, ← exists_readPiece (s := s), List.foldlM_cons]
    cases hread : s.readPiece piece with
    | none => simp
    | some s₁ =>
      rw [and_iff_right ⟨s₁, rfl⟩]
      exact ih

theorem mem_anchorTags {html : Str} : tag ∈ anchorTags html ↔
    (∃ piece ∈ (html.splitOn '<').tail, '>' ∈ piece ∧ piece.takeWhile (· ≠ '>') = tag) ∧
      opensAnchor tag = true := by
  simp [anchorTags, List.mem_filter, and_assoc]

theorem exists_parseHtml (html : Str) : (∃ doc, parseHtml html = some doc) ↔
    ∀ tag ∈ anchorTags html, Readable tag := by
  obtain ⟨first, pieces, hsplit, -⟩ := exists_pieces html
  simp only [parseHtml_eq hsplit, Option.map_eq_some_iff, mem_anchorTags, hsplit, List.tail_cons]
  constructor
  · rintro ⟨-, s', hrun, -⟩ tag ⟨⟨piece, hpiece, hclosed, rfl⟩, -⟩
    exact exists_foldlM_readPiece.mp ⟨s', hrun⟩ piece hpiece hclosed
  · intro h
    have hall : ∀ piece ∈ pieces, '>' ∈ piece → Readable (piece.takeWhile (· ≠ '>')) :=
      fun piece hpiece hclosed hanchor => h _ ⟨⟨piece, hpiece, hclosed, rfl⟩, hanchor⟩ hanchor
    obtain ⟨s', hrun⟩ := exists_foldlM_readPiece.mpr hall
    exact ⟨_, s', hrun, rfl⟩

/-- What an anchor tag does to the address, whatever it was, is what its `href` says:
the text between the quotes, or nothing where the closing quote is missing. -/
def TakesHref (tag rest : Str) : Prop :=
  ∀ s : HtmlParser, s.tagBuffer = tag → ∃ s', s.closeTag = some s' ∧
    s'.currentLinkUrl = (quoted rest).getD s.currentLinkUrl

theorem eq_of_getD {a b : Option Str} (h : ∀ url, a.getD url = b.getD url) : a = b := by
  rcases a with _ | x <;> rcases b with _ | y
  · rfl
  · exact absurd (h (' ' :: y)) (List.cons_ne_self ' ' y)
  · exact absurd (h (' ' :: x)).symm (List.cons_ne_self ' ' x)
  · exact congrArg some (h [])

theorem takesHref_iff (hanchor : opensAnchor tag = true) (h : hrefAt tag = some (before, rest)) :
    TakesHref tag rest ↔ ∃ back, hrefSlice tag = some back ∧ quoted back = quoted rest := by
  constructor
  · intro htakes
    have hclose (url : Str) : ∃ s', ({ start with
        tagBuffer := tag, currentLinkUrl := url } : HtmlParser).closeTag = some s' ∧
          s'.currentLinkUrl = (quoted rest).getD url := htakes _ rfl
    obtain ⟨s', hs', -⟩ := hclose []
    obtain ⟨back, hback⟩ := Option.isSome_iff_exists.mp
      (readable_iff.mp (exists_closeTag.mp ⟨s', hs'⟩) hanchor (by rw [h]; rfl))
    refine ⟨back, hback, eq_of_getD fun url => ?_⟩
    obtain ⟨s', hs', hurl⟩ := hclose url
    obtain ⟨-, -, hurl', -⟩ := closeTag_spec hs'
    rw [if_pos hanchor] at hurl'
    rw [← hurl, hurl']
    show _ = ((hrefSlice tag).bind quoted).getD url
    rw [hback, Option.bind_some]
  · rintro ⟨back, hback, hquoted⟩ s rfl
    obtain ⟨s', hclose⟩ := exists_closeTag.mpr (readable_iff.mpr fun _ _ => by rw [hback]; rfl)
    obtain ⟨-, -, hurl, -⟩ := closeTag_spec hclose
    rw [if_pos hanchor, hback, Option.bind_some, hquoted] at hurl
    exact ⟨s', hclose, hurl⟩

/-- The parser returns, and takes each address from where its `href` stands, exactly
when in every anchor tag the bytes before the `href`, counted in the lower case, lead to
the same address: as they do where the lower case takes as many bytes. -/
theorem parseHtml_hrefs_iff (html : Str) :
    ((∃ doc, parseHtml html = some doc) ∧ ∀ tag ∈ anchorTags html, ∀ before rest,
      hrefAt tag = some (before, rest) → TakesHref tag rest) ↔
      ∀ tag ∈ anchorTags html, ∀ before rest, hrefAt tag = some (before, rest) →
        ∃ front back, tag = front ++ back ∧
          utf8Len front = utf8Len (toLowercase before) + 6 ∧ quoted back = quoted rest := by
  have htakes {tag before rest : Str} (htag : tag ∈ anchorTags html)
      (hhref : hrefAt tag = some (before, rest)) : TakesHref tag rest ↔
        ∃ front back, tag = front ++ back ∧
          utf8Len front = utf8Len (toLowercase before) + 6 ∧ quoted back = quoted rest := by
    rw [takesHref_iff (mem_anchorTags.mp htag).2 hhref]
    simp only [hrefSlice_eq_some hhref]
    constructor
    · rintro ⟨back, ⟨front, htag, hbytes⟩, hquoted⟩
      exact ⟨front, back, htag, hbytes, hquoted⟩
    · rintro ⟨front, back, htag, hbytes, hquoted⟩
      exact ⟨back, ⟨front, htag, hbytes⟩, hquoted⟩
  constructor
  · rintro ⟨-, h⟩ tag htag before rest hhref
    exact (htakes htag hhref).mp (h tag htag before rest hhref)
  · intro h
    refine ⟨(exists_parseHtml html).mpr ?_,
      fun tag htag before rest hhref => (htakes htag hhref).mpr (h tag htag before rest hhref)⟩
    intro tag htag _ before rest hhref
    obtain ⟨front, back, heq, hbytes, -⟩ := h tag htag before rest hhref
    exact ⟨front, ⟨back, heq.symm⟩, hbytes⟩

/-- A dotted capital I takes two bytes, and its lower case three. -/
theorem dotted_capital_panics : ¬ ∀ html : Str, (∃ doc, parseHtml html = some doc) ∧
    ∀ tag ∈ anchorTags html, ∀ before rest, hrefAt tag = some (before, rest) →
      TakesHref tag rest := by
  intro h
  obtain ⟨⟨doc, hdoc⟩, -⟩ := h "<a \u0130href=\">x</a>".toList
  have hnone : parseHtml "<a \u0130href=\">x</a>".toList = none := by decide +kernel
  rw [hnone] at hdoc
  simp at hdoc

end AliluOS.Network
