import AliluOS.Fs.Tree

/-! `normalize_and_validate_filename`: which names `create` and `edit` accept. -/

namespace AliluOS.Shell
open Text Fs

def allowed : List Str :=
  ["txt", "md", "doc", "rs", "c", "h", "cpp", "hpp", "py", "js", "ts", "jsx", "tsx", "html", "htm",
    "css", "java", "kt", "sh", "bat", "ps1", "json", "toml", "yaml", "yml", "xml", "ini", "asm",
    "s"]

def unsupportedFileType : Str :=
  ("Error: Unsupported file type. Only text (.txt) and source code files " ++
    "(.rs, .c, .py, .js, .cpp, .html, .css, etc.) are allowed.").toList

def afterLast (c : Char) (s : Str) : Option Str := (rfind c s).map fun idx => s.drop (idx + 1)

def normalizeAndValidateFilename (pathStr : Str) : Except Str Str :=
  let filename := (afterLast '/' pathStr).getD pathStr
  match afterLast '.' filename with
  | none => .ok (pathStr ++ ".txt".toList)
  | some ext =>
    if toLowercase ext ∈ allowed then .ok pathStr else .error unsupportedFileType

theorem normalize_error {rawPath e : Str} (h : normalizeAndValidateFilename rawPath = .error e) :
    e = unsupportedFileType := by
  unfold normalizeAndValidateFilename at h
  dsimp only at h
  split at h
  · cases h
  · split_ifs at h
    exact (Except.error.inj h).symm

variable {c : Char} {a b s : Str}

theorem exists_last (h : c ∈ s) : ∃ a b, s = a ++ c :: b ∧ c ∉ b := by
  obtain ⟨b, a, heq, hb⟩ := List.eq_append_cons_of_mem (List.mem_reverse.mpr h)
  refine ⟨a.reverse, b.reverse, ?_, by simpa using hb⟩
  rw [← List.reverse_reverse s, heq]
  simp

theorem findIdx?_reverse (h : c ∉ s) : s.reverse.findIdx? (· = c) = none := by
  rw [List.findIdx?_eq_none_iff]
  intro x hx
  apply decide_eq_false
  rintro rfl
  exact h (List.mem_reverse.mp hx)

theorem afterLast_append (hb : c ∉ b) : afterLast c (a ++ c :: b) = some b := by
  have hfind : (b.reverse ++ c :: a.reverse).findIdx? (· = c) = some b.length := by
    simp [List.findIdx?_append, findIdx?_reverse hb, List.findIdx?_cons]
  rw [afterLast, rfind, List.reverse_append, List.reverse_cons, List.append_assoc,
    List.singleton_append, hfind]
  simp

theorem afterLast_eq_none (h : c ∉ s) : afterLast c s = none := by
  simp [afterLast, rfind, findIdx?_reverse h]

theorem split_eq_append (path : Str) :
    ∃ init, split '/' path = init ++ [(afterLast '/' path).getD path] := by
  unfold split
  by_cases h : '/' ∈ path
  · obtain ⟨a, b, rfl, hb⟩ := exists_last h
    rw [afterLast_append hb, List.splitOn_append_cons_self, List.splitOn_eq_singleton hb]
    exact ⟨_, rfl⟩
  · rw [afterLast_eq_none h, List.splitOn_eq_singleton h]
    exact ⟨[], rfl⟩

/-- What follows the last dot is an allowed extension, in any case. -/
def HasAllowedType (name : Str) : Prop :=
  ∃ ext, afterLast '.' name = some ext ∧ toLowercase ext ∈ allowed

theorem hasAllowedType_append (name : Str) : HasAllowedType (name ++ ".txt".toList) :=
  ⟨"txt".toList, afterLast_append (by decide), by decide⟩

theorem normalize_ok {rawPath finalPath : Str}
    (h : normalizeAndValidateFilename rawPath = .ok finalPath) :
    HasAllowedType ((afterLast '/' finalPath).getD finalPath) := by
  unfold normalizeAndValidateFilename at h
  dsimp only at h
  split at h
  · next hdot =>
    obtain rfl := Except.ok.inj h
    by_cases hslash : '/' ∈ rawPath
    · obtain ⟨a, b, rfl, hb⟩ := exists_last hslash
      have hb' : '/' ∉ b ++ ".txt".toList := by simp [hb]
      rw [List.append_assoc, List.cons_append, afterLast_append hb']
      exact hasAllowedType_append b
    · have hslash' : '/' ∉ rawPath ++ ".txt".toList := by simp [hslash]
      rw [afterLast_eq_none hslash']
      exact hasAllowedType_append rawPath
  · next ext hext =>
    split_ifs at h with hallowed
    obtain rfl := Except.ok.inj h
    exact ⟨ext, hext, hallowed⟩

theorem HasAllowedType.ordinary {name : Str} (h : HasAllowedType name) :
    name ≠ [] ∧ name ≠ ".".toList ∧ name ≠ "..".toList := by
  obtain ⟨ext, hext, hallowed⟩ := h
  refine ⟨?_, ?_, ?_⟩ <;> rintro rfl
  · simp [afterLast, rfind] at hext
  all_goals
    obtain rfl : [] = ext := Option.some.inj hext
    exact absurd hallowed (by decide)

theorem resolve_normalized {rawPath finalPath : Str}
    (h : normalizeAndValidateFilename rawPath = .ok finalPath) (cwd : List Str) :
    ∃ parent, resolvePath cwd finalPath = parent ++ [(afterLast '/' finalPath).getD finalPath] := by
  obtain ⟨init, hsplit⟩ := split_eq_append finalPath
  obtain ⟨hnil, hdot, hdots⟩ := (normalize_ok h).ordinary
  rw [resolvePath, hsplit, List.foldl_append, List.foldl_cons, List.foldl_nil,
    walk_of_ne hnil hdot hdots]
  exact ⟨_, rfl⟩

def lastPiece (path : Str) : Str := (afterLast '/' path).getD path

theorem resolve_suffix {path suffix : Str} (hpath : path ≠ []) (hsuffix : '/' ∉ suffix)
    (cwd : List Str) : ∃ segments, resolvePath cwd path = walk segments (lastPiece path) ∧
      resolvePath cwd (path ++ suffix) = walk segments (lastPiece path ++ suffix) := by
  have hhead : (path ++ suffix).head? = path.head? := List.head?_append_of_ne_nil _ hpath
  have hsplit : ∃ init, split '/' path = init ++ [lastPiece path] ∧
      split '/' (path ++ suffix) = init ++ [lastPiece path ++ suffix] := by
    unfold lastPiece split
    by_cases h : '/' ∈ path
    · obtain ⟨a, b, rfl, hb⟩ := exists_last h
      have hb' : '/' ∉ b ++ suffix := by simp [hb, hsuffix]
      rw [afterLast_append hb, List.append_assoc, List.cons_append, List.splitOn_append_cons_self,
        List.splitOn_append_cons_self, List.splitOn_eq_singleton hb, List.splitOn_eq_singleton hb']
      exact ⟨_, rfl, rfl⟩
    · have h' : '/' ∉ path ++ suffix := by simp [h, hsuffix]
      rw [afterLast_eq_none h, List.splitOn_eq_singleton h, List.splitOn_eq_singleton h']
      exact ⟨[], rfl, rfl⟩
  obtain ⟨init, hplain, hlong⟩ := hsplit
  refine ⟨init.foldl walk (if path.head? = some '/' then [] else cwd), ?_, ?_⟩
  · rw [resolvePath, hplain, List.foldl_append, List.foldl_cons, List.foldl_nil]
  · rw [resolvePath, hlong, hhead, List.foldl_append, List.foldl_cons, List.foldl_nil]

/-- `create` and `edit` keep a path that has a dot in its last piece, and no other. -/
theorem normalize_eq {rawPath finalPath : Str}
    (h : normalizeAndValidateFilename rawPath = .ok finalPath) :
    finalPath = if '.' ∈ lastPiece rawPath then rawPath else rawPath ++ ".txt".toList := by
  unfold normalizeAndValidateFilename at h
  rw [← lastPiece] at h
  dsimp only at h
  by_cases hdot : '.' ∈ lastPiece rawPath
  · obtain ⟨a, b, heq, hb⟩ := exists_last hdot
    rw [heq, afterLast_append hb] at h
    dsimp only at h
    split_ifs at h
    rw [if_pos hdot]
    exact (Except.ok.inj h).symm
  · rw [afterLast_eq_none hdot] at h
    rw [if_neg hdot]
    exact (Except.ok.inj h).symm

end AliluOS.Shell
