import AliluOS.Text.Str

/-! The text-only HTML parser of `network.rs`. -/

namespace AliluOS.Network
open Text

structure Hyperlink where
  index : Nat
  text : Str
  targetUrl : Str
deriving DecidableEq

structure HtmlDocument where
  title : Str
  lines : List Str
  links : List Hyperlink
deriving DecidableEq

def decodeEntities (input : Str) : Str :=
  let s := replace "&amp;" "&" input
  let s := replace "&lt;" "<" s
  let s := replace "&gt;" ">" s
  replace "&quot;" "\"" s

structure HtmlParser where
  title : Str
  lines : List Str
  links : List Hyperlink
  linkCounter : Nat
  inTag : Bool
  tagBuffer : Str
  textBuffer : Str
  skipContent : Bool
  currentLinkUrl : Str
  inAnchor : Bool

namespace HtmlParser

def start : HtmlParser := ⟨"Web Page", [], [], 1, false, [], [], false, [], false⟩

def flushText (p : HtmlParser) : HtmlParser :=
  if trim p.textBuffer ≠ [] ∧ p.skipContent = false then
    let decoded := decodeEntities (trim p.textBuffer)
    if p.inAnchor then
      { p with
        lines := p.lines ++ ["[".toList ++ decimal (p.linkCounter % 256) ++ "] ".toList ++ decoded]
        links := p.links ++ [⟨p.linkCounter, decoded, p.currentLinkUrl⟩]
        linkCounter := p.linkCounter + 1 }
    else { p with lines := p.lines ++ [decoded] }
  else p

/-- The `href` of an anchor tag. The position is found in the lower-cased tag and
used in the tag itself. -/
def href (p : HtmlParser) (tagLower : Str) : Option HtmlParser :=
  match find "href=\"" tagLower with
  | some pos => do
    let rest ← sliceFrom (pos + 6) p.tagBuffer
    if rest.contains '"' then
      return { p with currentLinkUrl := rest.takeWhile (· ≠ '"') }
    else return p
  | none => some p

def startsWith (s : Str) (pat : String) : Bool := pat.toList.isPrefixOf s

def closeTag (p : HtmlParser) : Option HtmlParser :=
  let tagLower := toLowercase p.tagBuffer
  if startsWith tagLower "script" ∨ startsWith tagLower "style" ∨ startsWith tagLower "head" then
    some { p with skipContent := true }
  else if startsWith tagLower "/script" ∨ startsWith tagLower "/style" ∨
      startsWith tagLower "/head" then
    some { p with skipContent := false }
  else if startsWith tagLower "h1" then some { p with lines := p.lines ++ ["# ".toList] }
  else if startsWith tagLower "a " ∨ tagLower = "a".toList then
    { p with inAnchor := true }.href tagLower
  else if tagLower = "/a".toList then some { p with inAnchor := false }
  else some p

/-- One round of the loop; `none` when the slice of an anchor tag panics. -/
def step (p : HtmlParser) (c : Char) : Option HtmlParser :=
  if c = '<' then some { p.flushText with inTag := true, textBuffer := [], tagBuffer := [] }
  else if c = '>' then do
    let p ← { p with inTag := false }.closeTag
    return { p with tagBuffer := [] }
  else if p.inTag then some { p with tagBuffer := p.tagBuffer ++ [c] }
  else some { p with textBuffer := p.textBuffer ++ [c] }

/-- The text after the last tag is never a link. -/
def finish (p : HtmlParser) : HtmlDocument where
  title := p.title
  lines := { p with inAnchor := false }.flushText.lines
  links := p.links

end HtmlParser

def parseHtml (html : Str) : Option HtmlDocument :=
  (html.foldlM HtmlParser.step .start).map HtmlParser.finish

end AliluOS.Network
