import AliluOS.Network.Links

/-! The address of a link against the anchor that it stands behind. -/

namespace AliluOS.Network
open Text HtmlParser

def isHtmlSpace (c : Char) : Bool := c ∈ [' ', '\t', '\n', '\r', Char.ofNat 12]

def inName (c : Char) : Bool := !isHtmlSpace c && c ≠ '/'

inductive AttributeState
  | tagName
  | before
  | name (name : Str)
  | afterName (name : Str)
  | beforeValue (name : Str)
  | quoted (quote : Char) (name value : Str)
  | unquoted (name : Str)

namespace AttributeState

def next : AttributeState → Char → AttributeState × Option (Str × Option Str)
  | .tagName, c => (if inName c then .tagName else .before, none)
  | .before, c => (if isHtmlSpace c ∨ c = '/' then .before else .name [c], none)
  | .name n, c =>
    if c = '=' then (.beforeValue n, none)
    else if isHtmlSpace c then (.afterName n, none)
    else if c = '/' then (.before, some (n, none))
    else (.name (n ++ [c]), none)
  | .afterName n, c =>
    if isHtmlSpace c then (.afterName n, none)
    else if c = '=' then (.beforeValue n, none)
    else (if c = '/' then .before else .name [c], some (n, none))
  | .beforeValue n, c =>
    if isHtmlSpace c then (.beforeValue n, none)
    else if c = '"' ∨ c = Char.ofNat 39 then (.quoted c n [], none)
    else (.unquoted n, none)
  | .quoted quote n value, c =>
    if c = quote then (.before, some (n, if quote = '"' then some value else none))
    else (.quoted quote n (value ++ [c]), none)
  | .unquoted n, c => if isHtmlSpace c then (.before, some (n, none)) else (.unquoted n, none)

def last : AttributeState → Option (Str × Option Str)
  | .tagName | .before => none
  | .name n | .afterName n | .beforeValue n | .quoted _ n _ | .unquoted n => some (n, none)

/-- Here neither `<` nor `>` has a meaning. -/
def inQuotes : AttributeState → Bool
  | .quoted .. => true
  | _ => false

end AttributeState

def attributesFrom (a : AttributeState) : Str → List (Str × Option Str)
  | [] => a.last.toList
  | c :: s => (a.next c).2.toList ++ attributesFrom (a.next c).1 s

/-- The rest of a tag, which ends at the first `>` outside quotes. A tag that meets another
`<` there, or the end of the page, is none. -/
def tagText (a : AttributeState) : Str → Option Str
  | [] => none
  | c :: s =>
    if a.inQuotes = false ∧ c = '>' then some []
    else if a.inQuotes = false ∧ c = '<' then none
    else (tagText (a.next c).1 s).map (c :: ·)

/-- The tags that the `<` of a page open, one entry for each `<`; one in quotes opens none.
`a` is the state of the tag that the reading is in. -/
def tagsFrom (a : Option AttributeState) : Str → List (Option Str)
  | [] => []
  | c :: s =>
    if c = '<' then
      match a.filter (·.inQuotes) with
      | some a => none :: tagsFrom (some (a.next c).1) s
      | none => tagText .tagName s :: tagsFrom (some .tagName) s
    else tagsFrom (a.bind fun a => if a.inQuotes = false ∧ c = '>' then none else (a.next c).1) s

def tagsBefore (html : Str) (k : Nat) : List Str :=
  ((tagsFrom none html).take k).reverse.filterMap id

/-- The texts of a page that become links, each with the tags that open before it. -/
def pageLinks (html : Str) : List (Passage × List Str) :=
  ((passages html).mapIdx fun k p => (p, tagsBefore html k)).dropLast.filter (isLink ·.1)

def isAnchorTag (tag : Str) : Bool := toLowercase (tag.takeWhile inName) = "a".toList

def hrefValue (tag : Str) : Option Str :=
  ((attributesFrom .tagName tag).find? fun x => toLowercase x.1 = "href".toList).bind Prod.snd

/-- What the most recent anchor start tag declares. -/
def declaredUrl (tags : List Str) : Str := ((tags.find? isAnchorTag).bind hrefValue).getD []

def firstHref (tag : Str) : Option Str := (hrefAt tag).bind fun x => quoted x.2

/-- The `firstHref` of the last tag that has one and is written `<a ..>`. -/
def staleUrl (tags : List Str) : Str := ((tags.filter opensAnchor).findSome? firstHref).getD []

/-- The most recent anchor start tag is the last that is written `<a ..>` when tags are cut
at every `<` and `>`, and its first `href="` is that of its `href`. A tag that is cut short,
or without one, or with a tab behind its name, declares what earlier tags have left
behind. -/
def TargetRight (cut tags : List Str) : Prop :=
  match tags.find? isAnchorTag with
  | some tag =>
    if cut.find? opensAnchor = some tag ∧ (firstHref tag).isSome then
      (firstHref tag).getD [] = (hrefValue tag).getD []
    else staleUrl cut = (hrefValue tag).getD []
  | none => staleUrl cut = []

instance (cut tags : List Str) : Decidable (TargetRight cut tags) := by
  unfold TargetRight
  split <;> infer_instance

variable {html tag : Str} {cut tags : List Str}

def Ascii (s : Str) : Prop := ∀ c ∈ s, c.toNat < 128

instance (s : Str) : Decidable (Ascii s) := inferInstanceAs (Decidable (∀ c ∈ s, c.toNat < 128))

theorem Ascii.append {s t : Str} (hs : Ascii s) (ht : Ascii t) : Ascii (s ++ t) := fun c hc =>
  (List.mem_append.mp hc).elim (hs c) (ht c)

theorem ascii_ofList {s : Str} (h : ∀ c ∈ s, c.toNat < 128) : Ascii (String.ofList s).toList := by
  rwa [String.toList_ofList]

theorem hrefSlice_of_ascii {before rest : Str} (hascii : Ascii tag)
    (h : hrefAt tag = some (before, rest)) : hrefSlice tag = some rest := by
  obtain ⟨piece, heq, -⟩ := locate_eq_some h
  have hbefore : Ascii before := fun c hc => hascii c (heq ▸ List.mem_append_left _ hc)
  exact hrefSlice_eq_rest h (utf8Len_toLowercase_ascii hbefore)

theorem hrefSlice_bind_quoted (hascii : Ascii tag) :
    (hrefSlice tag).bind quoted = firstHref tag := by
  unfold firstHref
  cases hhref : hrefAt tag with
  | none =>
    rw [hrefSlice, find_href, hhref]
    rfl
  | some x => rw [hrefSlice_of_ascii hascii hhref, Option.bind_some, Option.bind_some]

theorem readable_of_ascii (hascii : Ascii tag) : Readable tag := by
  refine readable_iff.mpr fun _ hsome => ?_
  obtain ⟨⟨before, rest⟩, hhref⟩ := Option.isSome_iff_exists.mp hsome
  rw [hrefSlice_of_ascii hascii hhref]
  rfl

theorem piece_subset {piece : Str} (hpiece : piece ∈ html.splitOn '<') :
    piece.takeWhile (· ≠ '>') ⊆ html :=
  List.Subset.trans (List.takeWhile_subset _) (subset_of_mem_split hpiece)

theorem tag_subset_of_mem_anchorTags (h : tag ∈ anchorTags html) : tag ⊆ html := by
  obtain ⟨⟨piece, hpiece, -, rfl⟩, -⟩ := mem_anchorTags.mp h
  exact piece_subset (List.mem_of_mem_tail hpiece)

theorem mem_tags_of_mem_passagesFrom {p q : Passage} {pieces : List Str}
    (hp : p ∈ passagesFrom q pieces) (htag : tag ∈ p.tags) :
    tag ∈ q.tags ∨ ∃ piece ∈ pieces, piece.takeWhile (· ≠ '>') = tag := by
  induction pieces generalizing q with
  | nil =>
    obtain rfl : p = q := by simpa [passagesFrom] using hp
    exact .inl htag
  | cons piece pieces ih =>
    rcases List.mem_cons.mp hp with rfl | hp
    · exact .inl htag
    · rcases ih hp with hq | ⟨later, hlater, heq⟩
      · unfold Passage.next at hq
        split_ifs at hq
        · rcases List.mem_cons.mp hq with rfl | hq
          · exact .inr ⟨piece, List.mem_cons_self .., rfl⟩
          · exact .inl hq
        · exact .inl hq
      · exact .inr ⟨later, List.mem_cons_of_mem _ hlater, heq⟩

theorem tag_subset_of_mem_passages {p : Passage} (hp : p ∈ passages html) (htag : tag ∈ p.tags) :
    tag ⊆ html := by
  obtain ⟨first, pieces, hsplit, -⟩ := exists_pieces html
  rw [passages, hsplit] at hp
  rcases mem_tags_of_mem_passagesFrom hp htag with hnone | ⟨piece, hpiece, rfl⟩
  · simp at hnone
  · exact piece_subset (hsplit ▸ List.mem_cons_of_mem _ hpiece)

theorem exists_parseHtml_of_ascii (hascii : Ascii html) : ∃ doc, parseHtml html = some doc := by
  refine (exists_parseHtml html).mpr fun tag htag => readable_of_ascii fun c hc => ?_
  exact hascii c (tag_subset_of_mem_anchorTags htag hc)

theorem staleUrl_cons (tag : Str) (tags : List Str) : staleUrl (tag :: tags) =
    if opensAnchor tag then (firstHref tag).getD (staleUrl tags) else staleUrl tags := by
  unfold staleUrl
  by_cases hopens : opensAnchor tag = true
  · rw [List.filter_cons_of_pos hopens, if_pos hopens, List.findSome?_cons]
    cases firstHref tag <;> rfl
  · rw [List.filter_cons_of_neg hopens, if_neg hopens]

theorem urlAfter_ascii (hascii : ∀ tag ∈ tags, Ascii tag) : urlAfter tags = staleUrl tags := by
  induction tags with
  | nil => rfl
  | cons tag tags ih =>
    obtain ⟨htag, htags⟩ := List.forall_mem_cons.mp hascii
    rw [urlAfter, staleUrl_cons, hrefSlice_bind_quoted htag, ih htags]

theorem staleUrl_of_find (h : cut.find? opensAnchor = some tag) (hhref : (firstHref tag).isSome) :
    staleUrl cut = (firstHref tag).getD [] := by
  obtain ⟨url, hurl⟩ := Option.isSome_iff_exists.mp hhref
  obtain ⟨rest, hrest⟩ : ∃ rest, cut.filter opensAnchor = tag :: rest := by
    rw [← List.head?_filter] at h
    exact List.head?_eq_some_iff.mp h
  rw [staleUrl, hrest, List.findSome?_cons, hurl]

theorem staleUrl_eq_declaredUrl : staleUrl cut = declaredUrl tags ↔ TargetRight cut tags := by
  unfold TargetRight declaredUrl
  cases tags.find? isAnchorTag with
  | none => rfl
  | some tag =>
    show _ = (hrefValue tag).getD [] ↔ if _ then _ else _
    split_ifs with hwhole
    · rw [staleUrl_of_find hwhole.1 hwhole.2]
    · rfl

theorem linkPassages_eq (html : Str) : linkPassages html = (pageLinks html).map Prod.fst := by
  have hpassages : ((passages html).mapIdx fun k p => (p, tagsBefore html k)).map Prod.fst =
      passages html := by
    apply List.ext_getElem
    · simp
    · intro k _ _
      simp
  conv_lhs => rw [linkPassages, ← hpassages, ← List.map_dropLast, List.filter_map]
  rfl

end AliluOS.Network
