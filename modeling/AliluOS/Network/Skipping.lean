import AliluOS.Network.Href

/-! The text that `parse_html` strips, against the elements that it stands in. -/

namespace AliluOS.Network
open Text HtmlParser

/-! ## Pages -/

/-- A page as a run of text, and perhaps an element behind it with the rest of the page.
Runs may be empty. -/
inductive HtmlTree
  | text (run : Str)
  | element (run name : Str) (inner rest : HtmlTree)

def bracket (tag : Str) : Str := '<' :: (tag ++ ['>'])

def IsText (run : Str) : Prop := ∀ c ∈ run, c ≠ '<' ∧ c ≠ '>'

structure IsTagName (name : Str) : Prop where
  nonempty : name ≠ []
  lower : toLowercase name = name
  plain : ∀ c ∈ name, c ≠ '<' ∧ c ≠ '>' ∧ c ≠ '/' ∧ isWhitespace c = false

def rawNames : List Str := ["script", "style"]

def strippedNames : List Str := ["script", "style", "head"]

structure Around where
  name : Str
  ended : List Str
deriving DecidableEq

structure TextRun where
  before : Str
  text : Str
  after : Str
  around : List Around
deriving DecidableEq

namespace HtmlTree

def html : HtmlTree → Str
  | text run => run
  | element run name inner rest =>
    run ++ bracket name ++ inner.html ++ bracket ('/' :: name) ++ rest.html

def names : HtmlTree → List Str
  | text _ => []
  | element _ name inner rest => name :: inner.names ++ rest.names

inductive WellFormed : HtmlTree → Prop
  | text {run : Str} (hrun : IsText run) : WellFormed (text run)
  | element {run name : Str} {inner rest : HtmlTree} (hrun : IsText run)
      (hname : IsTagName name) (hraw : name ∈ rawNames → inner.names = [])
      (hinner : WellFormed inner) (hrest : WellFormed rest) :
      WellFormed (element run name inner rest)

def runsIn (before after : Str) (around : List Around) : HtmlTree → List TextRun
  | text run => [⟨before, run, after, around⟩]
  | element run name inner rest =>
    let opened := before ++ run ++ bracket name
    let closed := bracket ('/' :: name) ++ rest.html ++ after
    ⟨before, run, bracket name ++ inner.html ++ closed, around⟩ ::
      inner.runsIn opened closed (⟨name, []⟩ :: around) ++
      rest.runsIn (opened ++ inner.html ++ bracket ('/' :: name)) after
        (around.map fun a => { a with ended := a.ended ++ name :: inner.names })

def runs (t : HtmlTree) : List TextRun := t.runsIn [] [] []

end HtmlTree

/-- The innermost element around whose name begins like a stripped one is still the last
such element: none has ended in it. -/
def covers (around : List Around) : Bool :=
  match around.find? (opensSkip ·.name) with
  | some a => !a.ended.any opensSkip
  | none => false

def HtmlParser.linesAtEnd (s : HtmlParser) : Str → Option (List Str)
  | [] => some s.finish.lines
  | c :: _ => (s.step c).map lines

namespace TextRun

def Inside (r : TextRun) : Prop := ∃ a ∈ r.around, a.name ∈ strippedNames

def Covered (r : TextRun) : Prop := covers r.around = true

/-- The end of the run adds a line for it, behind the number of a link inside an anchor. -/
def Contributes (r : TextRun) (doc : HtmlDocument) : Prop :=
  ∃ s lines label, (r.before ++ r.text).foldlM step .start = some s ∧
    s.linesAtEnd r.after = some lines ∧
    (label = [] ∨ ∃ n, label = "[".toList ++ decimal n ++ "] ".toList) ∧
    lines = s.lines ++ [label ++ decodeEntities (trim r.text)] ∧ lines <+: doc.lines

end TextRun

variable {s s' : HtmlParser} {t : HtmlTree} {r : TextRun} {before after text tag name : Str}
  {around : List Around} {skip skip' : Bool}

/-! ## Tags -/

structure IsTag (tag : Str) : Prop where
  plain : ∀ c ∈ tag, c ≠ '<' ∧ c ≠ '>'
  readable : Readable tag

def skipsAfter (tag : Str) (skip : Bool) : Bool := opensSkip tag || (!closesSkip tag && skip)

theorem toLowercase_slash (h : toLowercase name = name) :
    toLowercase ('/' :: name) = '/' :: name := by
  have hslash : charToLowercase '/' = ['/'] := by decide
  rw [toLowercase_cons, hslash, h, List.singleton_append]

theorem IsTagName.no_slash (h : IsTagName name) (rest : Str) : name ≠ '/' :: rest := by
  rintro rfl
  exact (h.plain '/' (List.mem_cons_self ..)).2.2.1 rfl

theorem IsTagName.eq_of_opensAnchor (h : IsTagName name) (hopens : opensAnchor name = true) :
    name = "a".toList := by
  simp only [opensAnchor, h.lower, Bool.or_eq_true, decide_eq_true_eq] at hopens
  rcases hopens with hopens | hopens
  · obtain ⟨rest, rfl⟩ := List.isPrefixOf_iff_prefix.mp hopens
    have hspace := (h.plain ' ' (by simp)).2.2.2
    exact absurd hspace (by decide)
  · exact hopens

theorem IsTagName.isTag (h : IsTagName name) : IsTag name where
  plain := fun c hc => ⟨(h.plain c hc).1, (h.plain c hc).2.1⟩
  readable := by
    intro hopens before rest hhref
    have hnone : hrefAt "a".toList = none := by decide
    rw [h.eq_of_opensAnchor hopens, hnone] at hhref
    cases hhref

theorem IsTagName.isTag_slash (h : IsTagName name) : IsTag ('/' :: name) where
  plain := by
    intro c hc
    rcases List.mem_cons.mp hc with rfl | hc
    · decide
    · exact h.isTag.plain c hc
  readable := by
    intro hopens
    simp [opensAnchor, toLowercase_slash h.lower, startsWith, List.isPrefixOf_cons_cons] at hopens

theorem IsTagName.skipsAfter_open (h : IsTagName name) (skip : Bool) :
    skipsAfter name skip = (opensSkip name || skip) := by
  have hcloses : closesSkip name = false := by
    cases name with
    | nil => rfl
    | cons c rest =>
      have hc : '/' ≠ c := fun heq => h.no_slash rest (heq ▸ rfl)
      simp [closesSkip, h.lower, startsWith, List.isPrefixOf_cons_cons, hc]
  simp [skipsAfter, hcloses]

theorem IsTagName.skipsAfter_close (h : IsTagName name) (skip : Bool) :
    skipsAfter ('/' :: name) skip = (!opensSkip name && skip) := by
  have hopens : opensSkip ('/' :: name) = false := by
    simp [opensSkip, toLowercase_slash h.lower, startsWith, List.isPrefixOf_cons_cons]
  have hcloses : closesSkip ('/' :: name) = opensSkip name := by
    simp [closesSkip, opensSkip, toLowercase_slash h.lower, h.lower, startsWith]
  rw [skipsAfter, hopens, hcloses, Bool.false_or]

/-! ## Reading -/

structure HtmlParser.Resting (s : HtmlParser) (skip : Bool) : Prop where
  inTag : s.inTag = false
  tagBuffer : s.tagBuffer = []
  skipContent : s.skipContent = skip

def Reads (html : Str) (skip skip' : Bool) : Prop :=
  ∀ s : HtmlParser, s.Resting skip → ∃ s', html.foldlM step s = some s' ∧ s'.Resting skip'

def Behind (before : Str) (skip : Bool) : Prop :=
  ∃ s, before.foldlM step .start = some s ∧ s.Resting skip ∧ s.textBuffer = []

theorem foldlM_isText (htext : IsText text) (hs : s.Resting skip) :
    text.foldlM step s = some { s with textBuffer := s.textBuffer ++ text } := by
  have hopen : '<' ∉ text := fun hmem => (htext _ hmem).1 rfl
  have hclose : text.filter (· ≠ '>') = text :=
    List.filter_eq_self.mpr fun c hc => by simpa using (htext c hc).2
  rw [foldlM_text hopen hs.inTag hs.tagBuffer, hclose]

theorem foldlM_bracket (htag : IsTag tag) (hs : s.Resting skip) :
    ∃ s', (bracket tag).foldlM step s = some s' ∧ s'.Resting (skipsAfter tag skip) ∧
      s'.textBuffer = [] := by
  obtain ⟨s₁, hclose⟩ := (exists_closeTag (s := { s.flushText with
    inTag := false, textBuffer := [], tagBuffer := tag })).mpr htag.readable
  obtain ⟨hskip, -, -, -, -, -, htext, hin⟩ := closeTag_spec hclose
  refine ⟨{ s₁ with tagBuffer := [] }, ?_, ⟨hin, rfl, ?_⟩, htext⟩
  · rw [bracket, foldlM_closed htag.plain, readTag, hclose, Option.map_some]
  · rw [skipsAfter, ← hs.skipContent, ← (flushText_spec s).1]
    exact hskip

theorem reads_text (htext : IsText text) (skip : Bool) : Reads text skip skip := fun _ hs =>
  ⟨_, foldlM_isText htext hs, hs.inTag, hs.tagBuffer, hs.skipContent⟩

theorem reads_bracket (htag : IsTag tag) (skip : Bool) :
    Reads (bracket tag) skip (skipsAfter tag skip) := by
  intro s hs
  obtain ⟨s', hrun, hrest, -⟩ := foldlM_bracket htag hs
  exact ⟨s', hrun, hrest⟩

theorem Reads.append {html html' : Str} {skip'' : Bool} (h : Reads html skip skip')
    (h' : Reads html' skip' skip'') : Reads (html ++ html') skip skip'' := by
  intro s hs
  obtain ⟨s₁, hrun, hs₁⟩ := h s hs
  obtain ⟨s₂, hrun', hs₂⟩ := h' s₁ hs₁
  exact ⟨s₂, by rw [List.foldlM_append, hrun]; exact hrun', hs₂⟩

theorem behind_nil : Behind [] false := ⟨.start, rfl, ⟨rfl, rfl, rfl⟩, rfl⟩

theorem Behind.bracket {html : Str} (h : Behind before skip) (hhtml : Reads html skip skip')
    (htag : IsTag tag) : Behind (before ++ html ++ bracket tag) (skipsAfter tag skip') := by
  obtain ⟨s, hbefore, hs, -⟩ := h
  obtain ⟨s₁, hrun, hs₁⟩ := hhtml s hs
  obtain ⟨s₂, hrun', hs₂, htext⟩ := foldlM_bracket htag hs₁
  refine ⟨s₂, ?_, hs₂, htext⟩
  rw [List.foldlM_append, List.foldlM_append, hbefore, Option.bind_eq_bind, Option.bind_some,
    hrun]
  exact hrun'

/-- Elements that have ended leave the flag set only when none of them could change it. -/
theorem reads_html (ht : t.WellFormed) (skip : Bool) :
    Reads t.html skip (skip && !t.names.any opensSkip) := by
  induction ht generalizing skip with
  | text hrun =>
    rw [HtmlTree.names, List.any_nil, Bool.not_false, Bool.and_true]
    exact reads_text hrun skip
  | @element run name inner rest hrun hname _ _ _ ihinner ihrest =>
    have hopen := (reads_text hrun skip).append (reads_bracket hname.isTag skip)
    have hinner := hopen.append (ihinner _)
    have hall := (hinner.append (reads_bracket hname.isTag_slash _)).append (ihrest _)
    rw [hname.skipsAfter_open, hname.skipsAfter_close] at hall
    have hskip : (skip && !(HtmlTree.element run name inner rest).names.any opensSkip) =
        ((!opensSkip name && ((opensSkip name || skip) && !inner.names.any opensSkip)) &&
          !rest.names.any opensSkip) := by
      simp only [HtmlTree.names, List.cons_append, List.any_cons, List.any_append]
      cases opensSkip name <;> cases skip <;> simp
    rw [hskip]
    exact hall

/-! ## Runs -/

theorem covers_cons (name : Str) (around : List Around) :
    covers (⟨name, []⟩ :: around) = (opensSkip name || covers around) := by
  unfold covers
  cases hopens : opensSkip name <;> simp [hopens]

theorem covers_ended (ended : List Str) (around : List Around) :
    covers (around.map fun a => { a with ended := a.ended ++ ended }) =
      (covers around && !ended.any opensSkip) := by
  unfold covers
  rw [List.find?_map]
  cases hfind : around.find? ((fun a => opensSkip a.name) ∘
    fun a : Around => { a with ended := a.ended ++ ended }) with
  | none =>
    have hsame : around.find? (fun a => opensSkip a.name) = none := hfind
    simp [hsame]
  | some a =>
    have hsame : around.find? (fun a => opensSkip a.name) = some a := hfind
    simp [hsame]

theorem behind_of_mem_runsIn (ht : t.WellFormed) (hbefore : Behind before (covers around))
    (hr : r ∈ t.runsIn before after around) : Behind r.before (covers r.around) := by
  induction ht generalizing before after around with
  | text hrun =>
    obtain rfl := List.mem_singleton.mp hr
    exact hbefore
  | @element run name inner rest hrun hname _ hinner _ ihinner ihrest =>
    have hopened : Behind (before ++ run ++ bracket name) (covers (⟨name, []⟩ :: around)) := by
      rw [covers_cons, ← hname.skipsAfter_open]
      exact hbefore.bracket (reads_text hrun _) hname.isTag
    rw [HtmlTree.runsIn, List.cons_append, List.mem_cons, List.mem_append] at hr
    rcases hr with rfl | hr | hr
    · exact hbefore
    · exact ihinner hopened hr
    · refine ihrest ?_ hr
      have hclosed := hopened.bracket (reads_html hinner _) hname.isTag_slash
      convert hclosed using 1
      rw [hname.skipsAfter_close, covers_ended, covers_cons, List.any_cons]
      cases opensSkip name <;> cases covers around <;> simp

theorem parts_of_mem_runsIn (ht : t.WellFormed) (hafter : after = [] ∨ ∃ rest, after = '<' :: rest)
    (hr : r ∈ t.runsIn before after around) : IsText r.text ∧
      (r.after = [] ∨ ∃ rest, r.after = '<' :: rest) ∧
        r.before ++ r.text ++ r.after = before ++ t.html ++ after := by
  induction ht generalizing before after around with
  | text hrun =>
    obtain rfl := List.mem_singleton.mp hr
    exact ⟨hrun, hafter, rfl⟩
  | @element run name inner rest hrun hname _ hinner _ ihinner ihrest =>
    rw [HtmlTree.runsIn, List.cons_append, List.mem_cons, List.mem_append] at hr
    have hclose : ∃ rest', bracket ('/' :: name) ++ rest.html ++ after = '<' :: rest' := ⟨_, rfl⟩
    rcases hr with rfl | hr | hr
    · exact ⟨hrun, .inr ⟨_, rfl⟩, by simp [HtmlTree.html]⟩
    · obtain ⟨htext, hend, hpage⟩ := ihinner (.inr hclose) hr
      exact ⟨htext, hend, hpage.trans (by simp [HtmlTree.html])⟩
    · obtain ⟨htext, hend, hpage⟩ := ihrest hafter hr
      exact ⟨htext, hend, hpage.trans (by simp [HtmlTree.html])⟩

theorem covered_of_raw (ht : t.WellFormed) (haround : ∀ a ∈ around, a.name ∉ rawNames)
    (hr : r ∈ t.runsIn before after around) (hraw : ∃ a ∈ r.around, a.name ∈ rawNames) :
    r.Covered := by
  induction ht generalizing before after around with
  | text hrun =>
    obtain rfl := List.mem_singleton.mp hr
    obtain ⟨a, ha, hname⟩ := hraw
    exact absurd hname (haround a ha)
  | @element run name inner rest hrun _ honly _ _ ihinner ihrest =>
    rw [HtmlTree.runsIn, List.cons_append, List.mem_cons, List.mem_append] at hr
    rcases hr with rfl | hr | hr
    · obtain ⟨a, ha, hname⟩ := hraw
      exact absurd hname (haround a ha)
    · by_cases hname : name ∈ rawNames
      · have hopens : ∀ name ∈ rawNames, opensSkip name = true := by decide
        cases inner with
        | text run' =>
          obtain rfl := List.mem_singleton.mp hr
          rw [TextRun.Covered, covers_cons, hopens name hname, Bool.true_or]
        | element => exact absurd (honly hname) (by simp [HtmlTree.names])
      · exact ihinner (List.forall_mem_cons.mpr ⟨hname, haround⟩) hr
    · refine ihrest ?_ hr
      simpa using haround

/-! ## Lines -/

theorem foldlM_lines (h : text.foldlM step s = some s') : s.lines <+: s'.lines := by
  induction text generalizing s with
  | nil =>
    obtain rfl := Option.some.inj h
    exact List.prefix_rfl
  | cons c text ih =>
    obtain ⟨s₁, hstep, hrun⟩ := Option.bind_eq_some_iff.mp h
    exact (step_spec hstep).1.trans (ih hrun)

theorem flushText_adds (hblank : trim s.textBuffer ≠ []) : if s.skipContent then
    s.flushText.lines = s.lines else ∃ label,
      (label = [] ∨ ∃ n, label = "[".toList ++ decimal n ++ "] ".toList) ∧
        s.flushText.lines = s.lines ++ [label ++ decodeEntities (trim s.textBuffer)] := by
  unfold flushText
  cases hskip : s.skipContent with
  | true => simp
  | false =>
    rw [if_neg (by simp), if_pos ⟨hblank, rfl⟩]
    split_ifs
    · exact ⟨_, .inr ⟨_, rfl⟩, rfl⟩
    · exact ⟨[], .inl rfl, rfl⟩

theorem linesAtEnd_spec (hafter : after = [] ∨ ∃ rest, after = '<' :: rest)
    (hblank : trim s.textBuffer ≠ []) : ∃ lines, s.linesAtEnd after = some lines ∧
      if s.skipContent then lines = s.lines else ∃ label,
        (label = [] ∨ ∃ n, label = "[".toList ++ decimal n ++ "] ".toList) ∧
          lines = s.lines ++ [label ++ decodeEntities (trim s.textBuffer)] := by
  rcases hafter with rfl | ⟨rest, rfl⟩
  · exact ⟨_, rfl, flushText_adds (s := { s with inAnchor := false }) hblank⟩
  · refine ⟨s.flushText.lines, ?_, flushText_adds hblank⟩
    rw [linesAtEnd, step, if_pos rfl, Option.map_some]

theorem linesAtEnd_prefix {lines : List Str} (hlines : s.linesAtEnd after = some lines)
    (h : after.foldlM step s = some s') : lines <+: s'.finish.lines := by
  cases after with
  | nil =>
    obtain rfl := Option.some.inj h
    obtain rfl := Option.some.inj hlines
    exact List.prefix_rfl
  | cons c after =>
    obtain ⟨s₁, hstep, hrun⟩ := Option.bind_eq_some_iff.mp h
    rw [linesAtEnd, hstep] at hlines
    obtain rfl := Option.some.inj hlines
    exact (foldlM_lines hrun).trans (flushText_spec { s' with inAnchor := false }).2.2.2

theorem contributes_iff {doc : HtmlDocument} (ht : t.WellFormed)
    (hdoc : parseHtml t.html = some doc) (hr : r ∈ t.runs) (hblank : trim r.text ≠ []) :
    r.Contributes doc ↔ ¬ r.Covered := by
  obtain ⟨htext, hafter, hpage⟩ := parts_of_mem_runsIn ht (.inl rfl) hr
  obtain ⟨s, hbefore, hs, hnil⟩ := behind_of_mem_runsIn ht behind_nil hr
  have hread : (r.before ++ r.text).foldlM step .start =
      some { s with textBuffer := r.text } := by
    rw [List.foldlM_append, hbefore, Option.bind_eq_bind, Option.bind_some,
      foldlM_isText htext hs, hnil, List.nil_append]
  obtain ⟨lines, hlines, hadds⟩ :=
    linesAtEnd_spec (s := { s with textBuffer := r.text }) hafter hblank
  have hstays : lines <+: doc.lines := by
    obtain ⟨s', hrun, rfl⟩ := Option.map_eq_some_iff.mp hdoc
    rw [List.nil_append, List.append_nil] at hpage
    rw [← hpage, List.foldlM_append, hread] at hrun
    exact linesAtEnd_prefix hlines hrun
  have hskip : s.skipContent = covers r.around := hs.skipContent
  rw [TextRun.Covered, ← hskip]
  dsimp only at hadds
  constructor
  · rintro ⟨s₁, lines₁, label, hread₁, hlines₁, -, heq, -⟩ hcovered
    obtain rfl := Option.some.inj (hread₁.symm.trans hread)
    obtain rfl := Option.some.inj (hlines₁.symm.trans hlines)
    rw [if_pos hcovered] at hadds
    simp [hadds] at heq
  · intro hcovered
    rw [if_neg hcovered] at hadds
    obtain ⟨label, hlabel, hadded⟩ := hadds
    exact ⟨_, lines, label, hread, hlines, hlabel, hadded, hstays⟩

theorem raw_is_stripped {doc : HtmlDocument} (ht : t.WellFormed)
    (hdoc : parseHtml t.html = some doc) (hr : r ∈ t.runs) (hblank : trim r.text ≠ [])
    (hraw : ∃ a ∈ r.around, a.name ∈ rawNames) : ¬ r.Contributes doc := by
  rw [contributes_iff ht hdoc hr hblank, not_not]
  exact covered_of_raw ht (by simp) hr hraw

/-- A well-formed page is parsed, and a run that is not blank is stripped as it should be
exactly when it is covered exactly inside a script, a style or a head. -/
theorem stripped_iff (t : HtmlTree) (ht : t.WellFormed) :
    ∃ doc, parseHtml t.html = some doc ∧ ∀ r ∈ t.runs, trim r.text ≠ [] →
      ((r.Contributes doc ↔ ¬ r.Inside) ↔ (r.Covered ↔ r.Inside)) := by
  obtain ⟨s, hrun, -⟩ := reads_html ht false .start ⟨rfl, rfl, rfl⟩
  have hdoc : parseHtml t.html = some s.finish := by rw [parseHtml, hrun, Option.map_some]
  refine ⟨s.finish, hdoc, fun r hr hblank => ?_⟩
  rw [contributes_iff ht hdoc hr hblank, not_iff_not]

def scriptedPage : HtmlTree :=
  .element [] "head" (.element [] "title" (.text "t") (.text [])) <|
    .element [] "p" (.text "x") <| .element [] "script" (.text "y") (.text "z")

theorem stripped_script : ∃ doc, parseHtml
      "<head><title>t</title></head><p>x</p><script>y</script>z".toList = some doc ∧
    (scriptedPage.runs.filter fun r => trim r.text ≠ []).map TextRun.text = ["t", "x", "y", "z"] ∧
    ∀ r ∈ scriptedPage.runs, trim r.text ≠ [] → (r.Contributes doc ↔ ¬ r.Inside) := by
  have htext : ∀ run ∈ ([[], "t", "x", "y", "z"] : List Str), IsText run := by
    unfold IsText
    decide
  have hname : ∀ name ∈ (["head", "title", "p", "script"] : List Str), IsTagName name := by
    intro name hmem
    simp only [List.mem_cons, List.not_mem_nil, or_false] at hmem
    rcases hmem with rfl | rfl | rfl | rfl <;> exact ⟨by decide, by decide, by decide⟩
  have hpage : scriptedPage.WellFormed :=
    .element (htext _ (by simp)) (hname _ (by simp)) (by decide)
      (.element (htext _ (by simp)) (hname _ (by simp)) (by decide)
        (.text (htext _ (by simp))) (.text (htext _ (by simp))))
      (.element (htext _ (by simp)) (hname _ (by simp)) (by decide) (.text (htext _ (by simp)))
        (.element (htext _ (by simp)) (hname _ (by simp)) (by decide) (.text (htext _ (by simp)))
          (.text (htext _ (by simp)))))
  obtain ⟨doc, hdoc, hruns⟩ := stripped_iff scriptedPage hpage
  have hcovered : ∀ r ∈ scriptedPage.runs, trim r.text ≠ [] → (r.Covered ↔ r.Inside) := by
    unfold TextRun.Covered TextRun.Inside
    decide +kernel
  exact ⟨doc, hdoc, by decide +kernel, fun r hr hblank =>
    (hruns r hr hblank).mpr (hcovered r hr hblank)⟩

theorem header_is_stripped : ¬ ∀ t : HtmlTree, t.WellFormed →
    ∃ doc, parseHtml t.html = some doc ∧ ∀ r ∈ t.runs, trim r.text ≠ [] →
      (r.Contributes doc ↔ ¬ r.Inside) := by
  intro h
  have hname : IsTagName "header" := ⟨by decide, by decide, by decide⟩
  obtain ⟨doc, hdoc, hruns⟩ := h (.element [] "header" (.text "x") (.text []))
    (.element (by simp [IsText]) hname (by decide) (.text (by unfold IsText; decide))
      (.text (by simp [IsText])))
  have hparse : parseHtml (HtmlTree.element [] "header" (.text "x") (.text [])).html =
      some ⟨"Web Page", [], []⟩ := by decide +kernel
  obtain rfl := Option.some.inj (hdoc.symm.trans hparse)
  obtain ⟨s, lines, label, -, -, -, heq, hlines⟩ :=
    (hruns ⟨"<header>", "x", "</header>", [⟨"header", []⟩]⟩ (by decide) (by decide)).mpr
      (by unfold TextRun.Inside; decide)
  rw [heq] at hlines
  simp at hlines

end AliluOS.Network
