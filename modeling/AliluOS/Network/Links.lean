import AliluOS.Network.Href
import AliluOS.Text.Decimal

/-! The links of a page, and the numbers shown for them. -/

namespace AliluOS.Network
open Text HtmlParser

def isLink (p : Passage) : Bool := trim p.text ≠ [] && !skipping p.tags && anchored p.tags

/-- The passages of a page that become links. What follows the last tag is none. -/
def linkPassages (html : Str) : List Passage := (passages html).dropLast.filter isLink

def Passage.hyperlink (p : Passage) (index : Nat) : Str × Hyperlink :=
  ("[".toList ++ decimal (index % 256) ++ "] ".toList ++ decodeEntities (trim p.text),
    ⟨index, decodeEntities (trim p.text), urlAfter p.tags⟩)

def emitted (s s' : HtmlParser) : List (Str × Hyperlink) :=
  (s'.lines.drop s.lines.length).zip (s'.links.drop s.links.length)

def linkLines (s : HtmlParser) : Str → List (Str × Hyperlink)
  | [] => []
  | c :: html =>
    match s.step c with
    | some s' => emitted s s' ++ linkLines s' html
    | none => []

/-- What a line shows between its first character and the first bracket behind it. -/
def shownNumber (line : Str) : Str := (line.drop 1).takeWhile (· ≠ ']')

structure LinksNumbered (html : Str) (doc : HtmlDocument) : Prop where
  links : (linkLines .start html).map Prod.snd = doc.links
  index : doc.links.map Hyperlink.index = List.range' 1 doc.links.length
  line : ∀ x ∈ linkLines .start html,
    x.1 = "[".toList ++ x.2.index.repr.toList ++ "] ".toList ++ x.2.text
  distinct : ((linkLines .start html).map fun x => shownNumber x.1).Nodup

variable {html text piece : Str} {pieces : List Str} {p : Passage} {s s' : HtmlParser} {c : Char}

theorem emitted_of_links (h : s'.links = s.links) : emitted s s' = [] := by
  simp [emitted, h]

theorem linkLines_cons (h : s.step c = some s') :
    linkLines s (c :: html) = emitted s s' ++ linkLines s' html := by
  rw [linkLines, h]

theorem linkLines_text (htext : '<' ∉ text) : linkLines s text = [] := by
  induction text generalizing s with
  | nil => rfl
  | cons c text ih =>
    simp only [List.mem_cons, not_or] at htext
    cases hstep : s.step c with
    | none => rw [linkLines, hstep]
    | some s₁ =>
      rw [linkLines_cons hstep, emitted_of_links ((step_spec hstep).2 (Ne.symm htext.1))]
      exact ih htext.2

theorem linkLines_append (h : text.foldlM step s = some s') :
    linkLines s (text ++ html) = linkLines s text ++ linkLines s' html := by
  induction text generalizing s with
  | nil =>
    obtain rfl := Option.some.inj h
    rfl
  | cons c text ih =>
    obtain ⟨s₁, hstep, hrun⟩ := Option.bind_eq_some_iff.mp h
    rw [List.cons_append, linkLines_cons hstep, linkLines_cons hstep, ih hrun, List.append_assoc]

theorem linkLines_piece (hpiece : '<' ∉ piece) (h : s.readPiece piece = some s') :
    linkLines s (('<' :: piece) ++ html) = emitted s s.flushText ++ linkLines s' html := by
  rw [linkLines_append ((foldlM_piece hpiece).trans h), linkLines_cons (if_pos rfl),
    linkLines_text hpiece, List.append_nil]
  rfl

theorem emitted_flushText (hs : s.At p) :
    emitted s s.flushText = if isLink p then [p.hyperlink s.linkCounter] else [] := by
  obtain ⟨htext, hskip, hanchor, hurl⟩ := hs
  unfold flushText isLink
  rw [htext, hskip, hanchor]
  by_cases hblank : trim p.text = []
  · simp [hblank, emitted]
  by_cases hskipping : skipping p.tags = true
  · simp [hskipping, emitted]
  by_cases hanchored : anchored p.tags = true
  · simp [hblank, hskipping, hanchored, emitted, Passage.hyperlink, hurl]
  · simp [hblank, hskipping, hanchored, emitted]

theorem flushText_links (s : HtmlParser) :
    s.flushText.links = s.links ++ (emitted s s.flushText).map Prod.snd ∧
      s.flushText.linkCounter = s.linkCounter + (emitted s s.flushText).length := by
  unfold flushText
  split_ifs <;> simp [emitted]

theorem readPiece_links (h : s.readPiece piece = some s') :
    s'.links = s.flushText.links ∧ s'.linkCounter = s.flushText.linkCounter := by
  unfold readPiece at h
  split_ifs at h with hclosed
  · obtain ⟨s₁, hread, rfl⟩ := Option.map_eq_some_iff.mp h
    obtain ⟨s₂, hclose, rfl⟩ := Option.map_eq_some_iff.mp hread
    obtain ⟨-, -, -, -, hlinks, hcounter, -⟩ := closeTag_spec hclose
    exact ⟨hlinks, hcounter⟩
  · obtain rfl := Option.some.inj h
    exact ⟨rfl, rfl⟩

theorem linkLines_pieces (hs : s.At p) (hpieces : ∀ piece ∈ pieces, '<' ∉ piece)
    (h : pieces.foldlM readPiece s = some s') :
    linkLines s (pieces.flatMap ('<' :: ·)) =
        ((passagesFrom p pieces).dropLast.filter isLink).mapIdx
          (fun k p => p.hyperlink (s.linkCounter + k)) ∧
      s'.links = s.links ++ (linkLines s (pieces.flatMap ('<' :: ·))).map Prod.snd := by
  induction pieces generalizing s p with
  | nil =>
    obtain rfl := Option.some.inj h
    simp [linkLines, passagesFrom]
  | cons piece pieces ih =>
    obtain ⟨hpiece, hpieces⟩ := List.forall_mem_cons.mp hpieces
    obtain ⟨s₁, hread, hrun⟩ := Option.bind_eq_some_iff.mp h
    obtain ⟨hrest, hlinks⟩ := ih (hs.next hread) hpieces hrun
    obtain ⟨hlinks₁, hcounter₁⟩ := readPiece_links hread
    obtain ⟨hflush, hcount⟩ := flushText_links s
    have hne : passagesFrom (p.next piece) pieces ≠ [] := by cases pieces <;> simp [passagesFrom]
    rw [List.flatMap_cons, linkLines_piece hpiece hread, passagesFrom,
      List.dropLast_cons_of_ne_nil hne]
    constructor
    · rw [hrest, hcounter₁, hcount, emitted_flushText hs]
      by_cases hlink : isLink p = true
      · simp [hlink, Nat.add_assoc, Nat.add_comm 1]
      · simp [hlink]
    · rw [hlinks, hlinks₁, hflush, List.map_append, List.append_assoc]

theorem linkLines_eq {doc : HtmlDocument} (h : parseHtml html = some doc) :
    linkLines .start html = (linkPassages html).mapIdx (fun k p => p.hyperlink (k + 1)) ∧
      doc.links = (linkLines .start html).map Prod.snd := by
  obtain ⟨first, pieces, hsplit, hhtml, hfirst, hpieces⟩ := exists_pieces html
  rw [parseHtml_eq hsplit] at h
  obtain ⟨s', hrun, rfl⟩ := Option.map_eq_some_iff.mp h
  have htext := foldlM_text (s := start) hfirst rfl rfl
  obtain ⟨hlines, hlinks⟩ := linkLines_pieces (p := ⟨[], first.filter (· ≠ '>')⟩)
    ⟨rfl, rfl, rfl, rfl⟩ hpieces hrun
  have hpage : linkLines .start html = linkLines
      { start with textBuffer := first.filter (· ≠ '>') } (pieces.flatMap ('<' :: ·)) := by
    conv_lhs => rw [hhtml, linkLines_append htext, linkLines_text hfirst]
    rfl
  rw [hpage, linkPassages, passages, hsplit]
  refine ⟨hlines.trans ?_, hlinks⟩
  congr 1
  funext k p
  exact congrArg p.hyperlink (Nat.add_comm 1 k)

theorem hyperlink_line (p : Passage) (k : Nat) :
    (p.hyperlink k).1 =
        "[".toList ++ k.repr.toList ++ "] ".toList ++ decodeEntities (trim p.text) ↔ k < 256 := by
  have hlabel : (p.hyperlink k).1 =
      "[".toList ++ k.repr.toList ++ "] ".toList ++ decodeEntities (trim p.text) ↔
      decimal (k % 256) = decimal k := by
    rw [Passage.hyperlink, Nat.toList_repr, ← decimal_eq]
    simp
  rw [hlabel, decimal_injective.eq_iff]
  omega

theorem shownNumber_hyperlink (p : Passage) (k : Nat) :
    shownNumber (p.hyperlink k).1 = decimal (k % 256) := by
  have hdigits : ∀ c ∈ decimal (k % 256), decide (c ≠ ']') = true := by
    intro c hc
    have hdigit := isDigit_of_mem_decimal hc
    rw [decide_eq_true_eq]
    rintro rfl
    revert hdigit
    decide
  have hline : (p.hyperlink k).1.drop 1 =
      decimal (k % 256) ++ ']' :: (' ' :: decodeEntities (trim p.text)) := by
    simp [Passage.hyperlink]
  rw [shownNumber, hline, List.takeWhile_append_of_pos hdigits,
    List.takeWhile_cons_of_neg (by decide), List.append_nil]

theorem LinksNumbered.length_le {doc : HtmlDocument} (hparse : parseHtml html = some doc)
    (h : LinksNumbered html doc) : (linkPassages html).length ≤ 255 := by
  have hline := h.line
  rw [(linkLines_eq hparse).1] at hline
  by_contra hmany
  -- the line of the 256th link
  have hlast : 255 < (linkPassages html).length := Nat.lt_of_not_le hmany
  have hmem : (linkPassages html)[255].hyperlink 256 ∈
      (linkPassages html).mapIdx fun k p => p.hyperlink (k + 1) :=
    List.mem_mapIdx.mpr ⟨255, hlast, rfl⟩
  have hlt := (hyperlink_line _ 256).mp (hline _ hmem)
  omega

/-- The numbers are right exactly when there are at most 255 links: they are shown
modulo 256. -/
theorem link_numbers_iff (html : Str) :
    (∃ doc, parseHtml html = some doc ∧ LinksNumbered html doc) ↔
      (∀ tag ∈ anchorTags html, Readable tag) ∧ (linkPassages html).length ≤ 255 := by
  rw [← exists_parseHtml]
  constructor
  · rintro ⟨doc, hparse, hnumbered⟩
    exact ⟨⟨doc, hparse⟩, hnumbered.length_le hparse⟩
  · rintro ⟨⟨doc, hparse⟩, hfew⟩
    obtain ⟨hlines, hlinks⟩ := linkLines_eq hparse
    refine ⟨doc, hparse, hlinks.symm, ?_, ?_, ?_⟩
    · rw [hlinks, hlines]
      apply List.ext_getElem
      · simp
      · intro k _ _
        simp [Passage.hyperlink, Nat.add_comm]
    · rw [hlines]
      intro x hx
      obtain ⟨k, hk, rfl⟩ := List.mem_mapIdx.mp hx
      exact (hyperlink_line _ _).mpr (by omega)
    · rw [hlines, List.Nodup, List.pairwise_iff_getElem]
      intro i j hi hj hij
      simp only [List.length_map, List.length_mapIdx] at hi hj
      simp only [List.getElem_map, List.getElem_mapIdx, shownNumber_hyperlink]
      exact decimal_injective.ne (by omega)

/-- The 256th link has the number 0. -/
theorem link_256_shows_zero :
    ¬ ∀ html : Str, ∃ doc, parseHtml html = some doc ∧ LinksNumbered html doc := by
  intro h
  obtain ⟨doc, hparse, hnumbered⟩ :=
    h (List.replicate 256 "<a>x".toList ++ ["</a>".toList]).flatten
  have hmany : (linkPassages (List.replicate 256 "<a>x".toList ++ ["</a>".toList]).flatten).length =
      256 := by decide +kernel
  have hfew := hnumbered.length_le hparse
  omega

end AliluOS.Network
