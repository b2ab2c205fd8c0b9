import AliluOS.Text.Str

/-! Words and paths: what a command line or a path is put together from comes
back when it is taken apart. -/

namespace AliluOS.Text

def Token (word : Str) : Prop := word ≠ [] ∧ ∀ c ∈ word, isWhitespace c = false

instance (word : Str) : Decidable (Token word) :=
  decidable_of_iff (word.isEmpty = false ∧ word.all (! isWhitespace ·) = true)
    (by simp [Token])

theorem splitOnP_join {words : List Str} (hne : words ≠ []) (h : ∀ w ∈ words, Token w) :
    (join " " words).splitOnP isWhitespace = words := by
  induction words with
  | nil => exact absurd rfl hne
  | cons word words ih =>
    have hword := (h word (List.mem_cons_self ..)).2
    cases words with
    | nil => simpa [join] using List.splitOnP_eq_singleton hword
    | cons next rest =>
      have hrest := ih (by simp) fun w hw => h w (List.mem_cons_of_mem _ hw)
      have hjoin : join " " (word :: next :: rest) = word ++ ' ' :: join " " (next :: rest) := by
        simp [join, List.intercalate_cons_cons]
      rw [hjoin, List.splitOnP_append_cons_of_forall_mem hword ' ' (by decide), hrest]

theorem splitWhitespace_join {words : List Str} (h : ∀ w ∈ words, Token w) :
    splitWhitespace (join " " words) = words := by
  rcases eq_or_ne words [] with rfl | hne
  · rfl
  rw [splitWhitespace, splitOnP_join hne h, List.filter_eq_self]
  intro w hw
  simpa using (h w hw).1

theorem splitWhitespace_token {word : Str} (h : Token word) : splitWhitespace word = [word] := by
  rw [splitWhitespace, List.splitOnP_eq_singleton h.2]
  simp [h.1]

theorem spec_of_mem_splitOnP {p : Char → Bool} {s piece : Str} (h : piece ∈ s.splitOnP p) :
    piece ⊆ s ∧ ∀ c ∈ piece, p c = false := by
  induction s generalizing piece with
  | nil =>
    obtain rfl : piece = [] := by simpa using h
    simp
  | cons x s ih =>
    have hlater : ∀ {piece : Str}, piece ⊆ s ∧ (∀ c ∈ piece, p c = false) →
        piece ⊆ x :: s ∧ ∀ c ∈ piece, p c = false := fun hpiece =>
      ⟨List.Subset.trans hpiece.1 (List.subset_cons_self x s), hpiece.2⟩
    rw [List.splitOnP_cons_eq_if_modifyHead] at h
    split_ifs at h with hx
    · rcases List.mem_cons.mp h with rfl | h
      · simp
      · exact hlater (ih h)
    · rcases hpieces : s.splitOnP p with _ | ⟨first, rest⟩
      · exact absurd hpieces (List.splitOnP_ne_nil p s)
      rw [hpieces] at h ih
      rcases List.mem_cons.mp h with rfl | h
      · obtain ⟨hsub, hfirst⟩ := ih (List.mem_cons_self ..)
        exact ⟨List.cons_subset_cons x hsub, List.forall_mem_cons.mpr ⟨by simpa using hx, hfirst⟩⟩
      · exact hlater (ih (List.mem_cons_of_mem _ h))

theorem token_of_mem_splitWhitespace {s word : Str} (h : word ∈ splitWhitespace s) :
    Token word := by
  obtain ⟨hmem, hne⟩ := List.mem_filter.mp h
  exact ⟨by simpa using hne, (spec_of_mem_splitOnP hmem).2⟩

theorem splitWhitespace_dropWhile (s : Str) :
    splitWhitespace (s.dropWhile isWhitespace) = splitWhitespace s := by
  induction s with
  | nil => rfl
  | cons c s ih =>
    by_cases hc : isWhitespace c = true
    · rw [List.dropWhile_cons_of_pos hc, ih]
      simp [splitWhitespace, List.splitOnP_cons_eq_if_modifyHead, hc]
    · rw [List.dropWhile_cons_of_neg hc]

theorem splitWhitespace_rdropWhile (s : Str) :
    splitWhitespace (s.rdropWhile isWhitespace) = splitWhitespace s := by
  induction s using List.reverseRecOn with
  | nil => rfl
  | append_singleton s c ih =>
    by_cases hc : isWhitespace c = true
    · rw [List.rdropWhile_concat_pos _ _ _ hc, ih]
      simp [splitWhitespace, List.splitOnP_append_cons s [] hc]
    · rw [List.rdropWhile_concat_neg _ _ _ hc]

theorem splitWhitespace_trim (s : Str) : splitWhitespace (trim s) = splitWhitespace s := by
  rw [trim, splitWhitespace_rdropWhile, splitWhitespace_dropWhile]

def absolute (segments : List Str) : Str := '/' :: join "/" segments

theorem split_absolute {segments : List Str} (hne : segments ≠ [])
    (h : ∀ n ∈ segments, '/' ∉ n) : split '/' (absolute segments) = [] :: segments := by
  have hjoin : absolute segments = [] ++ '/' :: join "/" segments := rfl
  rw [hjoin, split, List.splitOn_append_cons_self]
  have hsegments := List.splitOn_intercalate '/' h hne
  simpa [join] using hsegments

theorem sep_notMem_of_mem_split {sep : Char} {s piece : Str} (h : piece ∈ split sep s) :
    sep ∉ piece := by
  rw [split, List.splitOn_eq_splitOnP] at h
  intro hsep
  have hno := (spec_of_mem_splitOnP h).2 sep hsep
  simp at hno

theorem subset_of_mem_split {sep : Char} {path piece : Str} (h : piece ∈ split sep path) :
    piece ⊆ path := by
  rw [split, List.splitOn_eq_splitOnP] at h
  exact (spec_of_mem_splitOnP h).1

theorem mem_join {sep : Str} {parts : List Str} {c : Char} (h : c ∈ join sep parts) :
    c ∈ sep ∨ ∃ part ∈ parts, c ∈ part := by
  induction parts with
  | nil => simp [join] at h
  | cons part parts ih =>
    cases parts with
    | nil => exact .inr ⟨part, by simp, by simpa [join] using h⟩
    | cons next rest =>
      rw [join, List.intercalate_cons_cons, List.mem_append, List.mem_append] at h
      rcases h with (h | h) | h
      · exact .inr ⟨part, List.mem_cons_self .., h⟩
      · exact .inl h
      · rcases ih h with hsep | ⟨piece, hmem, hc⟩
        · exact .inl hsep
        · exact .inr ⟨piece, List.mem_cons_of_mem _ hmem, hc⟩

theorem token_absolute {segments : List Str}
    (h : ∀ n ∈ segments, ∀ c ∈ n, isWhitespace c = false) : Token (absolute segments) := by
  refine ⟨by simp [absolute], fun c hc => ?_⟩
  rcases List.mem_cons.mp hc with rfl | hc
  · decide
  · rcases mem_join hc with hc | ⟨segment, hmem, hc⟩
    · obtain rfl : c = '/' := by simpa using hc
      decide
    · exact h segment hmem c hc

end AliluOS.Text
