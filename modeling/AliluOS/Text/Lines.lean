import AliluOS.Text.Str

/-! The lines of a text: those that a newline ends, and what stands behind the
last newline. -/

namespace AliluOS.Text

def endedLines (text : Str) : List Str := (text.splitOn '\n').dropLast

variable {text above line : Str} {c : Char}

theorem splitOn_newline : (text ++ ['\n']).splitOn '\n' = text.splitOn '\n' ++ [[]] := by
  rw [List.splitOn_append_cons_self, List.splitOn_nil]

theorem exists_open_line (text : Str) : ∃ above last, text = above ++ last ∧ '\n' ∉ last ∧
    ∀ last', '\n' ∉ last' → (above ++ last').splitOn '\n' = endedLines text ++ [last'] := by
  have splitOn_open : ∀ {last : Str}, '\n' ∉ last → last.splitOn '\n' = [last] := by
    intro last hlast
    rw [List.splitOn_eq_splitOnP]
    apply List.splitOnP_eq_singleton
    rintro c hc
    simp only [beq_eq_false_iff_ne]
    exact ne_of_mem_of_not_mem hc hlast
  induction text using List.reverseRecOn with
  | nil => exact ⟨[], [], rfl, by simp, fun last' h => splitOn_open h⟩
  | append_singleton text c ih =>
    obtain ⟨above, last, rfl, hlast, hsplit⟩ := ih
    by_cases hc : c = '\n'
    · subst hc
      refine ⟨above ++ last ++ ['\n'], [], by simp, by simp, fun last' h => ?_⟩
      rw [endedLines, splitOn_newline, List.dropLast_concat, List.append_assoc _ ['\n'],
        List.singleton_append, List.splitOn_append_cons_self, splitOn_open h]
    · have hlast' : '\n' ∉ last ++ [c] := by simp [hlast, Ne.symm hc]
      refine ⟨above, last ++ [c], by simp, hlast', fun last' h => ?_⟩
      rw [endedLines, List.append_assoc, hsplit _ hlast', List.dropLast_concat, hsplit _ h]

theorem endedLines_newline (text : Str) :
    endedLines (text ++ ['\n']) = text.splitOn '\n' := by
  rw [endedLines, splitOn_newline, List.dropLast_concat]

theorem endedLines_concat (hc : c ≠ '\n') : endedLines (text ++ [c]) = endedLines text := by
  obtain ⟨above, last, rfl, hlast, hsplit⟩ := exists_open_line text
  have hlast' : '\n' ∉ last ++ [c] := by simp [hlast, hc.symm]
  rw [endedLines, List.append_assoc, hsplit _ hlast', List.dropLast_concat]

theorem endedLines_subset_concat (text : Str) (c : Char) :
    endedLines text ⊆ endedLines (text ++ [c]) := by
  rcases eq_or_ne c '\n' with rfl | hc
  · rw [endedLines_newline]
    exact List.dropLast_subset _
  · rw [endedLines_concat hc]
    exact List.Subset.refl _

theorem endedLines_mono (h : above <+: text) : endedLines above ⊆ endedLines text := by
  obtain ⟨rest, rfl⟩ := h
  induction rest using List.reverseRecOn with
  | nil => simp
  | append_singleton rest c ih =>
    rw [← List.append_assoc]
    exact List.Subset.trans ih (endedLines_subset_concat _ _)

theorem endedLines_of_notMem (h : '\n' ∉ text) : endedLines text = [] := by
  induction text using List.reverseRecOn with
  | nil => rfl
  | append_singleton text c ih =>
    simp only [List.mem_append, List.mem_singleton, not_or] at h
    rw [endedLines_concat (Ne.symm h.2), ih h.1]

theorem trim_concat_whitespace (hc : isWhitespace c = true) : trim (text ++ [c]) = trim text := by
  rw [trim, trim, List.dropWhile_append]
  split_ifs with hempty
  · rw [List.isEmpty_iff.mp hempty, List.dropWhile_cons_of_pos hc]
    rfl
  · exact List.rdropWhile_concat_pos _ _ _ hc

@[simp] theorem trim_stripCarriageReturn (line : Str) :
    trim (stripCarriageReturn line) = trim line := by
  unfold stripCarriageReturn
  split_ifs with hlast
  · obtain ⟨above, rfl⟩ := List.getLast?_eq_some_iff.mp hlast
    rw [List.dropLast_concat, trim_concat_whitespace (by decide)]
  · rfl

theorem getLast?_lines (text : Str) : ∃ above last, text = above ++ last ∧
    text.splitOn '\n' = endedLines text ++ [last] ∧
    (lines text).getLast? =
      if last = [] then (endedLines text).getLast?.map stripCarriageReturn else some last := by
  obtain ⟨above, last, htext, hlast, hsplit⟩ := exists_open_line text
  have hpieces : text.splitOn '\n' = endedLines text ++ [last] := by
    rw [← hsplit last hlast, ← htext]
  refine ⟨above, last, htext, hpieces, ?_⟩
  simp only [lines, hpieces, List.dropLast_concat, List.getLast?_concat, Option.getD_some]
  split_ifs with hnone
  · rw [List.append_nil, List.getLast?_map]
  · rw [List.getLast?_concat]

end AliluOS.Text
