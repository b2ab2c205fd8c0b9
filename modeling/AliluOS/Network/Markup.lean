import AliluOS.Network.Html
import AliluOS.Text.Bytes
import AliluOS.Text.Tokens

/-! A page as the tags in it and the text between them, and what the loop of
`parse_html` makes of both. -/

namespace AliluOS.Network
open Text

/-- A stretch of text, with the tags before it, the last one first. -/
structure Passage where
  tags : List Str
  text : Str
deriving DecidableEq

def Passage.next (p : Passage) (piece : Str) : Passage :=
  if '>' ∈ piece then
    ⟨piece.takeWhile (· ≠ '>') :: p.tags, (piece.dropWhile (· ≠ '>')).filter (· ≠ '>')⟩
  else ⟨p.tags, []⟩

def passagesFrom (p : Passage) : List Str → List Passage
  | [] => [p]
  | piece :: pieces => p :: passagesFrom (p.next piece) pieces

def passages (html : Str) : List Passage :=
  match html.splitOn '<' with
  | [] => []
  | first :: pieces => passagesFrom ⟨[], first.filter (· ≠ '>')⟩ pieces

def opensSkip (tag : Str) : Bool :=
  let tagLower := toLowercase tag
  HtmlParser.startsWith tagLower "script" || HtmlParser.startsWith tagLower "style" ||
    HtmlParser.startsWith tagLower "head"

def closesSkip (tag : Str) : Bool :=
  let tagLower := toLowercase tag
  HtmlParser.startsWith tagLower "/script" || HtmlParser.startsWith tagLower "/style" ||
    HtmlParser.startsWith tagLower "/head"

def opensAnchor (tag : Str) : Bool :=
  let tagLower := toLowercase tag
  HtmlParser.startsWith tagLower "a " || tagLower = "a".toList

def closesAnchor (tag : Str) : Bool := toLowercase tag = "/a".toList

/-- Text behind these tags is skipped: the last of them that matters starts a skip. -/
def skipping : List Str → Bool
  | [] => false
  | tag :: tags => opensSkip tag || (!closesSkip tag && skipping tags)

def anchored : List Str → Bool
  | [] => false
  | tag :: tags => opensAnchor tag || (!closesAnchor tag && anchored tags)

theorem startsWith_cons_iff {s : Str} {c d : Char} {pat : String} {pat' : Str}
    (hpat : pat.toList = d :: pat') :
    HtmlParser.startsWith (c :: s) pat = true ↔ d = c ∧ pat'.isPrefixOf s = true := by
  rw [HtmlParser.startsWith, hpat, List.isPrefixOf_cons_cons, Bool.and_eq_true, beq_iff_eq]

theorem no_skip_of_anchor {tag : Str} (h : opensAnchor tag = true ∨ closesAnchor tag = true) :
    opensSkip tag = false ∧ closesSkip tag = false ∧
      HtmlParser.startsWith (toLowercase tag) "h1" = false := by
  unfold opensAnchor closesAnchor at h
  unfold opensSkip closesSkip
  dsimp only at h ⊢
  generalize toLowercase tag = lower at h ⊢
  have hfront : (∃ rest, lower = 'a' :: rest) ∨ lower = "/a".toList := by
    rcases h with h | h
    · rw [Bool.or_eq_true, decide_eq_true_eq] at h
      rcases h with h | rfl
      · cases lower with
        | nil => simp [HtmlParser.startsWith] at h
        | cons c rest =>
          obtain ⟨rfl, -⟩ := (startsWith_cons_iff rfl).mp h
          exact .inl ⟨rest, rfl⟩
      · exact .inl ⟨[], rfl⟩
    · exact .inr (by simpa using h)
  rcases hfront with ⟨rest, rfl⟩ | rfl
  · simp [HtmlParser.startsWith, List.isPrefixOf_cons_cons]
  · decide

/-- What stands behind the quote of the first `href="`, as the code cuts it out. -/
def hrefSlice (tag : Str) : Option Str :=
  (find "href=\"" (toLowercase tag)).bind fun pos => sliceFrom (pos + 6) tag

def quoted (rest : Str) : Option Str :=
  if rest.contains '"' then some (rest.takeWhile (· ≠ '"')) else none

def urlAfter : List Str → Str
  | [] => []
  | tag :: tags =>
    if opensAnchor tag then ((hrefSlice tag).bind quoted).getD (urlAfter tags) else urlAfter tags

namespace HtmlParser

variable {s s' : HtmlParser} {tag text piece : Str} {c : Char}

theorem href_spec (h : s.href (toLowercase s.tagBuffer) = some s') :
    s'.currentLinkUrl = ((hrefSlice s.tagBuffer).bind quoted).getD s.currentLinkUrl ∧
      s'.skipContent = s.skipContent ∧ s'.inAnchor = s.inAnchor ∧ s'.lines = s.lines ∧
      s'.links = s.links ∧ s'.linkCounter = s.linkCounter ∧ s'.textBuffer = s.textBuffer ∧
      s'.inTag = s.inTag := by
  unfold href at h
  unfold hrefSlice
  cases hpos : find "href=\"" (toLowercase s.tagBuffer) with
  | none =>
    rw [hpos] at h
    obtain rfl := Option.some.inj h
    simp
  | some pos =>
    rw [hpos] at h
    obtain ⟨rest, hslice, hrest⟩ := Option.bind_eq_some_iff.mp h
    rw [Option.bind_some, hslice, Option.bind_some, quoted]
    split_ifs at hrest ⊢ <;> obtain rfl := Option.some.inj hrest <;> simp

theorem closeTag_spec (h : s.closeTag = some s') :
    s'.skipContent = (opensSkip s.tagBuffer || (!closesSkip s.tagBuffer && s.skipContent)) ∧
      s'.inAnchor = (opensAnchor s.tagBuffer || (!closesAnchor s.tagBuffer && s.inAnchor)) ∧
      s'.currentLinkUrl = (if opensAnchor s.tagBuffer then
        ((hrefSlice s.tagBuffer).bind quoted).getD s.currentLinkUrl else s.currentLinkUrl) ∧
      s.lines <+: s'.lines ∧ s'.links = s.links ∧ s'.linkCounter = s.linkCounter ∧
      s'.textBuffer = s.textBuffer ∧ s'.inTag = s.inTag := by
  have hnone : opensSkip s.tagBuffer = true ∨ closesSkip s.tagBuffer = true ∨
      startsWith (toLowercase s.tagBuffer) "h1" = true →
      opensAnchor s.tagBuffer = false ∧ closesAnchor s.tagBuffer = false := by
    intro hskip
    rw [← Bool.not_eq_true, ← Bool.not_eq_true, ← not_or]
    intro hanchor
    obtain ⟨h1, h2, h3⟩ := no_skip_of_anchor hanchor
    simp [h1, h2, h3] at hskip
  unfold closeTag at h
  dsimp only at h
  split_ifs at h with h1 h2 h3 h4 h5
  · have h1 : opensSkip s.tagBuffer = true := by simpa [opensSkip, or_assoc] using h1
    obtain ⟨h4, h5⟩ := hnone (.inl h1)
    obtain rfl := Option.some.inj h
    simp [h1, h4, h5]
  all_goals
    have h1 : opensSkip s.tagBuffer = false := by simpa [opensSkip, and_assoc] using h1
  · have h2 : closesSkip s.tagBuffer = true := by simpa [closesSkip, or_assoc] using h2
    obtain ⟨h4, h5⟩ := hnone (.inr (.inl h2))
    obtain rfl := Option.some.inj h
    simp [h1, h2, h4, h5]
  all_goals
    have h2 : closesSkip s.tagBuffer = false := by simpa [closesSkip, and_assoc] using h2
  · obtain ⟨h4, h5⟩ := hnone (.inr (.inr h3))
    obtain rfl := Option.some.inj h
    simp [h1, h2, h4, h5]
  · have h4 : opensAnchor s.tagBuffer = true := by simpa [opensAnchor] using h4
    obtain ⟨hurl, hskip, hin, hlines, hlinks, hcounter, htext, htag⟩ := href_spec h
    simp [h1, h2, h4, hurl, hskip, hin, hlines, hlinks, hcounter, htext, htag]
  all_goals
    have h4 : opensAnchor s.tagBuffer = false := by simpa [opensAnchor] using h4
    obtain rfl := Option.some.inj h
  · have h5 : closesAnchor s.tagBuffer = true := by simpa [closesAnchor] using h5
    simp [h1, h2, h4, h5]
  · have h5 : closesAnchor s.tagBuffer = false := by simpa [closesAnchor] using h5
    simp [h1, h2, h4, h5]

theorem foldlM_text (htext : '<' ∉ text) (hs : s.inTag = false) (htag : s.tagBuffer = []) :
    text.foldlM step s = some { s with textBuffer := s.textBuffer ++ text.filter (· ≠ '>') } := by
  obtain ⟨title, lines, links, counter, inTag, tagBuffer, textBuffer, skip, url, inAnchor⟩ := s
  obtain rfl : inTag = false := hs
  obtain rfl : tagBuffer = [] := htag
  induction text generalizing textBuffer with
  | nil => simp
  | cons c text ih =>
    simp only [List.mem_cons, not_or] at htext
    rw [List.foldlM_cons, step, if_neg (Ne.symm htext.1)]
    by_cases hc : c = '>'
    · rw [if_pos hc, List.filter_cons_of_neg (by simpa using hc)]
      exact ih htext.2 textBuffer
    · rw [if_neg hc]
      apply (ih htext.2 (textBuffer ++ [c])).trans
      simp [hc]

theorem foldlM_tag (htag : ∀ c ∈ tag, c ≠ '<' ∧ c ≠ '>') (hs : s.inTag = true) :
    tag.foldlM step s = some { s with tagBuffer := s.tagBuffer ++ tag } := by
  obtain ⟨title, lines, links, counter, inTag, tagBuffer, textBuffer, skip, url, inAnchor⟩ := s
  obtain rfl : inTag = true := hs
  induction tag generalizing tagBuffer with
  | nil => simp
  | cons c tag ih =>
    obtain ⟨hc, htag⟩ := List.forall_mem_cons.mp htag
    rw [List.foldlM_cons, step, if_neg hc.1, if_neg hc.2]
    apply (ih htag (tagBuffer ++ [c])).trans
    simp

def readTag (s : HtmlParser) (tag : Str) : Option HtmlParser :=
  ({ s.flushText with inTag := false, textBuffer := [], tagBuffer := tag }.closeTag).map
    fun s : HtmlParser => { s with tagBuffer := [] }

theorem foldlM_open (htag : ∀ c ∈ tag, c ≠ '<' ∧ c ≠ '>') :
    ('<' :: tag).foldlM step s =
      some { s.flushText with inTag := true, textBuffer := [], tagBuffer := tag } := by
  rw [List.foldlM_cons, step, if_pos rfl]
  exact foldlM_tag htag rfl

theorem foldlM_closed (htag : ∀ c ∈ tag, c ≠ '<' ∧ c ≠ '>') :
    ('<' :: (tag ++ ['>'])).foldlM step s = s.readTag tag := by
  rw [← List.cons_append, List.foldlM_append, foldlM_open htag]
  simp [step, readTag, Option.map_eq_bind]

def readPiece (s : HtmlParser) (piece : Str) : Option HtmlParser :=
  if '>' ∈ piece then
    (s.readTag (piece.takeWhile (· ≠ '>'))).map fun s : HtmlParser =>
      { s with textBuffer := (piece.dropWhile (· ≠ '>')).filter (· ≠ '>') }
  else some { s.flushText with inTag := true, textBuffer := [], tagBuffer := piece }

theorem readTag_spec (h : s.readTag tag = some s') :
    s'.inTag = false ∧ s'.tagBuffer = [] ∧ s'.textBuffer = [] := by
  obtain ⟨s₁, hclose, rfl⟩ := Option.map_eq_some_iff.mp h
  obtain ⟨-, -, -, -, -, -, htext, hin⟩ := closeTag_spec hclose
  exact ⟨hin, rfl, htext⟩

theorem foldlM_piece (hpiece : '<' ∉ piece) :
    ('<' :: piece).foldlM step s = s.readPiece piece := by
  unfold readPiece
  split_ifs with hclosed
  · obtain ⟨tag, rest, rfl, htag⟩ := List.eq_append_cons_of_mem hclosed
    simp only [List.mem_append, List.mem_cons, not_or] at hpiece
    have hplain : ∀ c ∈ tag, c ≠ '<' ∧ c ≠ '>' := fun c hc =>
      ⟨fun heq => hpiece.1 (heq ▸ hc), fun heq => htag (heq ▸ hc)⟩
    have hbefore : ∀ c ∈ tag, decide (c ≠ '>') = true := fun c hc => by simp [(hplain c hc).2]
    rw [List.takeWhile_append_of_pos hbefore, List.takeWhile_cons_of_neg (by simp),
      List.dropWhile_append_of_pos hbefore, List.dropWhile_cons_of_neg (by simp),
      List.filter_cons_of_neg (by simp), List.append_nil, List.append_cons, ← List.cons_append,
      List.foldlM_append, foldlM_closed hplain]
    cases hread : s.readTag tag with
    | none => rfl
    | some s₁ =>
      obtain ⟨hin, htag, htext⟩ := readTag_spec hread
      apply (foldlM_text hpiece.2.2 hin htag).trans
      simp [htext]
  · exact foldlM_open fun c hc => ⟨fun heq => hpiece (heq ▸ hc), fun heq => hclosed (heq ▸ hc)⟩

theorem foldlM_pieces {pieces : List Str} (h : ∀ piece ∈ pieces, '<' ∉ piece) :
    (pieces.flatMap ('<' :: ·)).foldlM step s = pieces.foldlM readPiece s := by
  induction pieces generalizing s with
  | nil => rfl
  | cons piece pieces ih =>
    obtain ⟨hpiece, hpieces⟩ := List.forall_mem_cons.mp h
    rw [List.flatMap_cons, List.foldlM_append, foldlM_piece hpiece, List.foldlM_cons]
    congr 1
    funext s
    exact ih hpieces

structure At (s : HtmlParser) (p : Passage) : Prop where
  text : s.textBuffer = p.text
  skip : s.skipContent = skipping p.tags
  anchor : s.inAnchor = anchored p.tags
  url : s.currentLinkUrl = urlAfter p.tags

theorem flushText_spec (s : HtmlParser) : s.flushText.skipContent = s.skipContent ∧
    s.flushText.inAnchor = s.inAnchor ∧ s.flushText.currentLinkUrl = s.currentLinkUrl ∧
      s.lines <+: s.flushText.lines := by
  unfold flushText
  split_ifs <;> simp

theorem step_spec (h : s.step c = some s') :
    s.lines <+: s'.lines ∧ (c ≠ '<' → s'.links = s.links) := by
  unfold step at h
  split_ifs at h with hopen hclose
  · obtain ⟨-, -, -, hlines⟩ := s.flushText_spec
    obtain rfl := Option.some.inj h
    exact ⟨hlines, fun hne => absurd hopen hne⟩
  · obtain ⟨s₁, hs₁, heq⟩ := Option.bind_eq_some_iff.mp h
    obtain rfl := Option.some.inj heq
    obtain ⟨-, -, -, hlines, hlinks, -⟩ := closeTag_spec hs₁
    exact ⟨hlines, fun _ => hlinks⟩
  all_goals
    obtain rfl := Option.some.inj h
    exact ⟨List.prefix_rfl, fun _ => rfl⟩

theorem At.next {p : Passage} (hs : s.At p) (h : s.readPiece piece = some s') :
    s'.At (p.next piece) := by
  obtain ⟨hskip, hanchor, hurl, -⟩ := s.flushText_spec
  unfold readPiece at h
  unfold Passage.next
  split_ifs at h ⊢ with hclosed
  · obtain ⟨s₁, hread, rfl⟩ := Option.map_eq_some_iff.mp h
    obtain ⟨s₂, hclose, rfl⟩ := Option.map_eq_some_iff.mp hread
    obtain ⟨hskip', hanchor', hurl', -⟩ := closeTag_spec hclose
    refine ⟨rfl, ?_, ?_, ?_⟩
    · rw [skipping, ← hs.skip, ← hskip]
      exact hskip'
    · rw [anchored, ← hs.anchor, ← hanchor]
      exact hanchor'
    · rw [urlAfter, ← hs.url, ← hurl]
      exact hurl'
  · obtain rfl := Option.some.inj h
    exact ⟨rfl, hskip.trans hs.skip, hanchor.trans hs.anchor, hurl.trans hs.url⟩

end HtmlParser

theorem exists_pieces (html : Str) : ∃ first pieces, html.splitOn '<' = first :: pieces ∧
    html = first ++ pieces.flatMap ('<' :: ·) ∧ '<' ∉ first ∧ ∀ piece ∈ pieces, '<' ∉ piece := by
  have hno : ∀ piece ∈ html.splitOn '<', '<' ∉ piece := fun piece hpiece =>
    sep_notMem_of_mem_split hpiece
  have hjoin : ['<'].intercalate (html.splitOn '<') = html := List.intercalate_splitOn '<'
  rcases hsplit : html.splitOn '<' with _ | ⟨first, pieces⟩
  · exact absurd hsplit (List.splitOn_ne_nil _ _)
  · rw [hsplit] at hno hjoin
    obtain ⟨hfirst, hpieces⟩ := List.forall_mem_cons.mp hno
    refine ⟨first, pieces, rfl, hjoin.symm.trans ?_, hfirst, hpieces⟩
    clear hsplit hno hjoin hfirst hpieces
    induction pieces generalizing first with
    | nil => simp
    | cons piece pieces ih => simp [List.intercalate_cons_cons, ih]

open HtmlParser in
theorem parseHtml_eq {html first : Str} {pieces : List Str}
    (h : html.splitOn '<' = first :: pieces) : parseHtml html = Option.map finish
      (pieces.foldlM readPiece { start with textBuffer := first.filter (· ≠ '>') }) := by
  obtain ⟨first', pieces', hsplit, hhtml, hfirst, hpieces⟩ := exists_pieces html
  obtain ⟨rfl, rfl⟩ := List.cons.inj (h.symm.trans hsplit)
  rw [parseHtml, hhtml, List.foldlM_append, foldlM_text hfirst rfl rfl]
  exact congrArg (Option.map finish) (foldlM_pieces hpieces)

end AliluOS.Network
