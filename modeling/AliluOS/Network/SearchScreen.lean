import AliluOS.Network.SearchBrowser
import Mathlib.Data.List.Flatten

/-! What the screen shows of the search browser. -/

namespace AliluOS
open Text Kernel Lib

def Print.ofCall : VgaCall → Option Print
  | .setColor fg bg => some (.setColor fg bg)
  | .write text => some (.write text)
  | .println text => some (.println text)
  | .putChar c => some (.putChar c)
  | .clear | .putCharAt _ _ _ | .backspace => none

theorem Ink.paint_append (color : UInt8) (s t : Str) :
    paint color (s ++ t) = paint color s ++ paint color t := List.map_append

def inkLine (color : UInt8) (text : Str) : List Ink × Ink := (Ink.paint color text, ('\n', color))

end AliluOS

namespace AliluOS.Network
open Text Kernel Lib

def lineColor (line : Str) : UInt8 :=
  if "# ".toList.isPrefixOf line then 0x0A else if "[".toList.isPrefixOf line then 0x0B else 0x0F

namespace Browser

def resultLines (b : Browser) : List (List Ink × Ink) :=
  match b.results with
  | some lines =>
    if lines.isEmpty then [inkLine 0x0F "No search results found."]
    else ((lines.drop b.scrollOffset).take 17).map fun line => inkLine (lineColor line) line
  | none =>
    [inkLine 0x0F "", inkLine 0x0E "  Type what you want to search for above and press Enter!",
      inkLine 0x0E "  Example queries: 'rust os', 'bare metal keyboard', 'b-tree fs'"]

def searchBox (b : Browser) : List Ink :=
  Ink.paint 0x0A "Search: ".toList ++ Ink.paint 0x0F (b.query ++ "_".toList)

/-- The lines of a frame: the second is the search box. -/
def frameLines (b : Browser) : List (List Ink × Ink) :=
  [inkLine 0xB0 " DuckDuckGo Search Engine [AliluOS CLI Web Browser]                     ",
    (b.searchBox, ('\n', 0x0F)),
    inkLine 0x08 "[Type query + Enter: Search | Up/Down: Scroll Results | ESC: Exit]",
    inkLine 0x0B "------------------------------------------------------------------------"] ++
      b.resultLines

def frameRows (b : Browser) : List (List Ink) :=
  (b.frameLines.flatMap fun line => (Ink.layout line.1).toList) ++ [[]]

def prints (b : Browser) : List Print := b.render.filterMap Print.ofCall

variable {b : Browser} {query : Str}

theorem map_ofCall_renderLines (lines : List Str) :
    ((lines.flatMap renderLine).filterMap Print.ofCall).map Print.call =
      lines.flatMap renderLine := by
  induction lines with
  | nil => rfl
  | cons line lines ih =>
    rw [List.flatMap_cons, List.filterMap_append, List.map_append, ih]
    unfold renderLine
    split_ifs <;> rfl

theorem render_eq (b : Browser) : b.render = .clear :: b.prints.map Print.call := by
  unfold prints render
  cases b.results with
  | none => rfl
  | some lines =>
    dsimp only
    split_ifs with hempty
    · rfl
    · rw [List.filterMap_append, List.map_append, map_ofCall_renderLines]
      rfl

theorem inks_renderLines (lines : List Str) :
    inks 0x0F ((lines.flatMap renderLine).filterMap Print.ofCall) =
      (lines.map fun line => inkLine (lineColor line) line).flatMap fun line =>
        line.1 ++ [line.2] := by
  induction lines with
  | nil => rfl
  | cons line lines ih =>
    have hline : ∀ color : UInt8, Ink.paint color (line ++ ['\n']) =
        (inkLine color line).1 ++ [(inkLine color line).2] := fun color => Ink.paint_append ..
    rw [List.flatMap_cons, List.filterMap_append, List.map_cons, List.flatMap_cons, ← ih]
    unfold renderLine lineColor
    split_ifs
    · exact congrArg (· ++ _) (hline 0x0A)
    · exact congrArg (· ++ _) (hline 0x0B)
    · exact congrArg (· ++ _) (hline 0x0F)

theorem inks_header (color : UInt8) (banner box query mark keys rule : Str)
    (rest : List Print) :
    inks color (.setColor .black .lightCyan :: .write banner :: .println [] ::
      .setColor .white .black :: .setColor .lightGreen .black :: .write box ::
      .setColor .white .black :: .write query :: .write mark :: .println [] ::
      .setColor .darkGray .black :: .println keys :: .setColor .lightCyan .black ::
      .println rule :: .setColor .white .black :: rest) =
    ([inkLine 0xB0 banner, (Ink.paint 0x0A box ++ Ink.paint 0x0F (query ++ mark), ('\n', 0x0F)),
      inkLine 0x08 keys, inkLine 0x0B rule].flatMap fun line => line.1 ++ [line.2]) ++
        inks 0x0F rest := by
  have hcolors : Paper.colorCode .black .lightCyan = 0xB0 ∧ Paper.colorCode .white .black = 0x0F ∧
      Paper.colorCode .lightGreen .black = 0x0A ∧ Paper.colorCode .darkGray .black = 0x08 ∧
      Paper.colorCode .lightCyan .black = 0x0B := by decide
  obtain ⟨hbanner, hwhite, hgreen, hgray, hcyan⟩ := hcolors
  simp only [inks, hbanner, hwhite, hgreen, hgray, hcyan, Ink.paint_append, inkLine,
    List.flatMap_cons, List.flatMap_nil, List.append_assoc, List.append_nil]
  rfl

theorem inks_prints (color : UInt8) (b : Browser) :
    inks color b.prints = b.frameLines.flatMap fun line => line.1 ++ [line.2] := by
  have hresults : inks 0x0F ((match b.results with
      | some lines =>
        if lines.isEmpty then [VgaCall.println "No search results found."]
        else ((lines.drop b.scrollOffset).take 17).flatMap renderLine
      | none =>
        [.println "", .setColor .yellow .black,
          .println "  Type what you want to search for above and press Enter!",
          .println "  Example queries: 'rust os', 'bare metal keyboard', 'b-tree fs'",
          .setColor .white .black]).filterMap Print.ofCall) =
      b.resultLines.flatMap fun line => line.1 ++ [line.2] := by
    unfold resultLines
    cases b.results with
    | none => rfl
    | some lines =>
      dsimp only
      split_ifs
      · rfl
      · exact inks_renderLines _
  unfold prints render
  rw [List.filterMap_append, frameLines, List.flatMap_append, ← hresults]
  exact inks_header color _ _ b.query _ _ _ _

theorem toList_layout_frame (color : UInt8) (b : Browser) :
    (Ink.layout (inks color b.prints)).toList = b.frameRows := by
  have hbreaks : ∀ line ∈ b.frameLines, Ink.isBreak line.2 := by
    have hresults : ∀ line ∈ b.resultLines, Ink.isBreak line.2 := by
      unfold resultLines
      intro line hline
      cases hb : b.results with
      | none =>
        rw [hb] at hline
        simp only [List.mem_cons, List.not_mem_nil, or_false] at hline
        rcases hline with rfl | rfl | rfl <;> rfl
      | some lines =>
        rw [hb] at hline
        dsimp only at hline
        split_ifs at hline
        · obtain rfl := List.mem_singleton.mp hline
          rfl
        · obtain ⟨text, -, rfl⟩ := List.mem_map.mp hline
          rfl
    intro line hline
    rcases List.mem_append.mp hline with hline | hline
    · simp only [List.mem_cons, List.not_mem_nil, or_false] at hline
      rcases hline with rfl | rfl | rfl | rfl <;> rfl
    · exact hresults line hline
  rw [inks_prints]
  exact Rows.toList_layout_lines hbreaks

def Fits (text : List Ink) : Prop := (∀ i ∈ text, ¬ Ink.isBreak i) ∧ text.length ≤ 80

instance (text : List Ink) : Decidable (Fits text) := inferInstanceAs (Decidable (_ ∧ _))

theorem toList_layout_of_fits {text : List Ink} (h : Fits text) :
    (Ink.layout text).toList = [text] :=
  congrArg Rows.toList (Rows.layout_of_fits h.1 h.2)

theorem length_rows_of_fits {lines : List (List Ink × Ink)} (h : ∀ line ∈ lines, Fits line.1) :
    (lines.flatMap fun line => (Ink.layout line.1).toList).length = lines.length := by
  induction lines with
  | nil => rfl
  | cons line lines ih =>
    obtain ⟨hline, hlines⟩ := List.forall_mem_cons.mp h
    rw [List.flatMap_cons, List.length_append, ih hlines, toList_layout_of_fits hline,
      List.length_cons, Nat.add_comm]
    rfl

theorem length_rows_le {text : List Ink} (hbreak : ∀ i ∈ text, ¬ Ink.isBreak i) :
    (Ink.layout text).toList.length ≤ text.length / 80 + 1 := by
  have hrows : (Ink.layout text).above.length * 80 + _ = text.length :=
    (Rows.length_layout (by decide : 0 < VGA.bufferWidth) hbreak).1
  rw [Rows.length_toList]
  exact Nat.add_le_add_right ((Nat.le_div_iff_mul_le (by decide)).mpr (by omega)) 1

theorem not_isBreak_paint {color : UInt8} {text : Str} (h : '\n' ∉ text) :
    ∀ i ∈ Ink.paint color text, ¬ Ink.isBreak i := by
  intro i hi hbreak
  obtain ⟨c, hc, rfl⟩ := List.mem_map.mp hi
  exact h (hbreak ▸ hc)

theorem rows_header {banner box keys rule : List Ink × Ink} (hbanner : Fits banner.1)
    (hkeys : Fits keys.1) (hrule : Fits rule.1) (rest : List (List Ink × Ink)) :
    (([banner, box, keys, rule] ++ rest).flatMap fun line => (Ink.layout line.1).toList) =
      banner.1 :: ((Ink.layout box.1).toList ++ keys.1 :: rule.1 ::
        rest.flatMap fun line => (Ink.layout line.1).toList) := by
  simp only [List.cons_append, List.nil_append, List.flatMap_cons, toList_layout_of_fits hbanner,
    toList_layout_of_fits hkeys, toList_layout_of_fits hrule]

theorem frameRows_eq (b : Browser) : ∃ banner keys rule : List Ink, b.frameRows =
    banner :: ((Ink.layout b.searchBox).toList ++ keys :: rule ::
      b.resultLines.flatMap fun line => (Ink.layout line.1).toList) ++ [[]] := by
  have hfixed : ∀ line ∈
      [inkLine 0xB0 " DuckDuckGo Search Engine [AliluOS CLI Web Browser]                     ",
        inkLine 0x08 "[Type query + Enter: Search | Up/Down: Scroll Results | ESC: Exit]",
        inkLine 0x0B "------------------------------------------------------------------------"],
      Fits line.1 := by decide +kernel
  simp only [List.forall_mem_cons] at hfixed
  obtain ⟨hbanner, hkeys, hrule, -⟩ := hfixed
  exact ⟨_, _, _, congrArg (· ++ [[]]) (rows_header hbanner hkeys hrule _)⟩

def OneLine (n : Nat) (query : Str) : Prop := '\n' ∉ query ∧ Short n query

variable {n : Nat}

theorem oneLine_after (hn : 60 ≤ n) (h : b.Showing (OneLine n)) (code : UInt8) :
    (b.after code).Showing (OneLine n) := by
  refine Showing.after (fun query hquery => ?_) (fun query code c hquery hroom hchar => ?_) h code
  · exact ⟨fun hmem => hquery.1 (List.dropLast_subset _ hmem), short_dropLast hquery.2⟩
  · have hkeys : ∀ key ∈ queryKeys, key.2 ≠ '\n' := by decide
    obtain ⟨before, behind, hsplit, -⟩ := List.lookup_eq_some_iff.mp hchar
    have hc : c ≠ '\n' := hkeys (code, c) (by simp [hsplit])
    exact ⟨by simp [hquery.1, hc.symm], short_push hn hroom hchar⟩

theorem length_rows_around (h : OneLine n query) {color : UInt8} {before behind : Str}
    (hbefore : '\n' ∉ before) (hbehind : '\n' ∉ behind) :
    (Ink.layout (Ink.paint color (before ++ query ++ behind))).toList.length ≤
      (before.length + n + behind.length) / 80 + 1 := by
  have hquery : query.length ≤ n := (length_le_utf8Len query).trans h.2
  refine (length_rows_le (not_isBreak_paint (by simp [hbefore, hbehind, h.1]))).trans ?_
  rw [Ink.paint, List.length_map, List.length_append, List.length_append]
  omega

theorem length_rows_searchLines (h : OneLine n query) :
    (((searchLines query).map fun line => inkLine (lineColor line) line).flatMap
      fun line => (Ink.layout line.1).toList).length ≤ (n + 31) / 80 + 6 := by
  have hpage : ∀ line ∈ ([] :: pageLines).map fun line => inkLine (lineColor line) line,
      Fits line.1 := by decide +kernel
  have htitle : ∀ text ∈ ["# DuckDuckGo Search Results: \"", "\""], '\n' ∉ text.toList := by
    decide +kernel
  have hlength : "# DuckDuckGo Search Results: \"".toList.length = 30 ∧ "\"".toList.length = 1 := by
    decide +kernel
  simp only [List.forall_mem_cons] at htitle
  obtain ⟨hbefore, hbehind, -⟩ := htitle
  unfold searchLines
  generalize "# DuckDuckGo Search Results: \"".toList = before at *
  generalize "\"".toList = behind at *
  rw [List.cons_append, List.map_cons, List.flatMap_cons, List.length_append]
  refine (Nat.add_le_add (length_rows_around h hbefore hbehind)
    (length_rows_of_fits hpage).le).trans ?_
  rw [hlength.1, hlength.2, List.length_map, pageLines, List.length_cons]
  simp only [List.length_cons, List.length_nil]
  omega

theorem length_rows_resultLines (h : b.Showing (OneLine n)) :
    (b.resultLines.flatMap fun line => (Ink.layout line.1).toList).length ≤ (n + 31) / 80 + 6 := by
  unfold resultLines
  cases hresults : b.results with
  | none =>
    have hhelp : ∀ line ∈ [inkLine 0x0F "",
        inkLine 0x0E "  Type what you want to search for above and press Enter!",
        inkLine 0x0E "  Example queries: 'rust os', 'bare metal keyboard', 'b-tree fs'"],
        Fits line.1 := by decide +kernel
    exact (length_rows_of_fits hhelp).trans_le (Nat.le_add_left_of_le (by decide))
  | some lines =>
    obtain ⟨-, query, rfl, hquery⟩ := h.results lines hresults
    have hshown : (((searchLines query).drop b.scrollOffset).take 17).Sublist (searchLines query) :=
      (List.take_sublist ..).trans (List.drop_sublist ..)
    dsimp only
    rw [if_neg (by simp [searchLines])]
    exact (((hshown.map _).flatMap _).length_le).trans (length_rows_searchLines hquery)

theorem length_frameRows_le (hn : n ≤ 600) (h : b.Showing (OneLine n)) :
    b.frameRows.length ≤ 25 := by
  have hbox : (Ink.layout b.searchBox).toList.length ≤ (n + 9) / 80 + 1 := by
    have htexts : ∀ text ∈ ["Search: ", "_"], '\n' ∉ text.toList := by decide +kernel
    have hquery : b.query.length ≤ n := (length_le_utf8Len b.query).trans h.query.2
    have hlength : b.searchBox.length = 8 + (b.query.length + 1) := by
      simp only [searchBox, Ink.paint, List.length_append, List.length_map]
      rfl
    refine (length_rows_le fun i hi => ?_).trans (by omega)
    rcases List.mem_append.mp hi with hi | hi
    · exact not_isBreak_paint (htexts _ (by simp)) i hi
    · exact not_isBreak_paint (by simpa using h.query.1) i hi
  have hresults := length_rows_resultLines h
  obtain ⟨banner, keys, rule, hrows⟩ := b.frameRows_eq
  rw [hrows]
  simp only [List.length_append, List.length_cons, List.length_nil]
  omega

attribute [irreducible] prints frameRows

theorem seen_render (h : b.frameRows.length ≤ 25) (v : VGA) {row col : Nat} (hrow : row < 25)
    (hcol : col < 80) :
    Ink.Seen ((v.perform b.render).cells (row * 80 + col)) (b.frameRows[row]?.getD [])[col]? := by
  rw [render_eq]
  exact VGA.seen_of_fits (toList_layout_frame v.colorCode b) h hrow hcol

end Browser

open Browser

/-- After any scancodes, on any screen: the frame that is drawn next is all seen, the query
in its box under the banner, of at most sixty bytes if it was not longer at first, and
below it the results, from a line that they have, of a query that was searched for. -/
theorem frame_shows_browser {query : Str} (hline : '\n' ∉ query) (hlength : utf8Len query ≤ 600)
    (codes : List UInt8) (v : VGA) :
    let b := codes.foldl after (opened query)
    b.frameRows.length ≤ 25 ∧
      (∀ row < 25, ∀ col < 80, Ink.Seen ((v.perform b.render).cells (row * 80 + col))
        (b.frameRows[row]?.getD [])[col]?) ∧
      (Ink.layout b.searchBox).toList <+: b.frameRows.drop 1 ∧
      utf8Len b.query ≤ max 60 (utf8Len query) ∧
      ∀ lines, b.results = some lines → b.scrollOffset < lines.length ∧
        ∃ searched, lines = searchLines searched ∧
          utf8Len searched ≤ max 60 (utf8Len query) := by
  intro b
  have hshowing : b.Showing (OneLine (max 60 (utf8Len query))) :=
    List.foldlRecOn codes after (showing_opened ⟨hline, Nat.le_max_right ..⟩)
      fun _ h code _ => oneLine_after (Nat.le_max_left ..) h code
  have hrows : b.frameRows.length ≤ 25 := length_frameRows_le (by omega) hshowing
  refine ⟨hrows, ?_, ?_, hshowing.query.2, fun lines hlines => ?_⟩
  · exact fun row hrow col hcol => seen_render hrows v hrow hcol
  · obtain ⟨banner, keys, rule, hframe⟩ := b.frameRows_eq
    rw [hframe, List.cons_append, List.drop_one, List.tail_cons, List.append_assoc]
    exact List.prefix_append ..
  · obtain ⟨hoffset, searched, hsearched, hquery⟩ := hshowing.results lines hlines
    exact ⟨hoffset, searched, hsearched, hquery.2⟩

theorem frame_shows_browser_typed :
    ([0x1E, 0x1C].foldl after (opened [])).frameRows.length ≤ 25 ∧
      utf8Len ([0x1E, 0x1C].foldl after (opened [])).query ≤ 60 := by
  obtain ⟨hrows, -, -, hquery, -⟩ := @frame_shows_browser [] List.not_mem_nil (by decide)
    [0x1E, 0x1C] (VGA.new fun _ => ⟨0, 0⟩)
  exact ⟨hrows, hquery⟩

end AliluOS.Network
