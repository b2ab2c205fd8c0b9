import AliluOS.Fs.Refinement
import AliluOS.Shell.Commands
import AliluOS.Shell.Session

/-! Paths from one directory to the next, and the names that `create` and `edit` take
out of them. -/

namespace AliluOS
open Text Fs Kernel Shell Lib Thread

theorem split_append (p q : Str) : split '/' (p ++ '/' :: q) = split '/' p ++ split '/' q :=
  List.splitOn_append_cons_self ..

theorem resolvePath_relative {path : Str} (h : path.head? ≠ some '/') (cwd : List Str) :
    resolvePath cwd path = (split '/' path).foldl walk cwd := by
  rw [resolvePath, if_neg h]

theorem resolvePath_append {p q : Str} (hp : p ≠ []) (hq : q.head? ≠ some '/')
    (cwd : List Str) :
    resolvePath cwd (p ++ '/' :: q) = resolvePath (resolvePath cwd p) q := by
  have hhead : (p ++ '/' :: q).head? = p.head? := List.head?_append_of_ne_nil _ hp
  rw [resolvePath_relative hq, resolvePath, resolvePath, hhead, split_append,
    List.foldl_append]

namespace Session

variable {s : Session} {p q : Str}

theorem execute_goTo (h : (s.fs.findDirectory (s.resolve p)).isSome) (ticks : Nat) :
    s.execute ticks (.goTo p) = { s with shell := { s.shell with cwd := s.resolve p } } := by
  change s.goTo p = _
  rw [goTo, if_pos h]

/-- Resolution composes. A directory that was entered makes `q` mean what `p/q` meant
before. -/
theorem resolve_entered (hp : p ≠ []) (hq : q.head? ≠ some '/') :
    (∀ cwd, resolvePath (resolvePath cwd p) q = resolvePath cwd (p ++ '/' :: q)) ∧
      ∀ (s : Session) (ticks : Nat), (s.fs.findDirectory (s.resolve p)).isSome →
        (s.execute ticks (.goTo p)).resolve q = s.resolve (p ++ '/' :: q) ∧
          (s.execute ticks (.goTo p)).fs.paths.entry ((s.execute ticks (.goTo p)).resolve q) =
            s.fs.paths.entry (s.resolve (p ++ '/' :: q)) := by
  refine ⟨fun cwd => (resolvePath_append hp hq cwd).symm, fun s ticks hdir => ?_⟩
  have hresolve : (s.execute ticks (.goTo p)).resolve q = s.resolve (p ++ '/' :: q) := by
    rw [execute_goTo hdir]
    exact (resolvePath_append hp hq s.shell.cwd).symm
  refine ⟨hresolve, ?_⟩
  rw [hresolve, execute_goTo hdir]

theorem resolve_entered_above :
    resolvePath (resolvePath ["a".toList] "../.".toList) "..//b".toList =
        resolvePath ["a".toList] ("../.".toList ++ '/' :: "..//b".toList) ∧
      ((Session.mk .new .new).execute 0 (.goTo "..".toList)).resolve "b".toList =
        (Session.mk .new .new).resolve "../b".toList := by
  obtain ⟨habove, -⟩ :=
    resolve_entered (p := "../.".toList) (q := "..//b".toList) (by decide) (by decide)
  obtain ⟨-, henter⟩ :=
    resolve_entered (p := "..".toList) (q := "b".toList) (by decide) (by decide)
  exact ⟨habove ["a".toList], (henter ⟨.new, .new⟩ 0 rfl).1⟩

end Session

namespace Shell

variable {rawPath finalPath : Str}

theorem normalize_idem (h : normalizeAndValidateFilename rawPath = .ok finalPath) :
    normalizeAndValidateFilename finalPath = .ok finalPath := by
  obtain ⟨ext, hext, hallowed⟩ := normalize_ok h
  unfold normalizeAndValidateFilename
  dsimp only
  rw [hext]
  exact if_pos hallowed

theorem HasAllowedType.dot_mem {name : Str} (h : HasAllowedType name) : '.' ∈ name := by
  obtain ⟨ext, hext, -⟩ := h
  by_contra hdot
  rw [afterLast_eq_none hdot] at hext
  cases hext

theorem eq_append_lastPiece (path : Str) :
    '/' ∉ lastPiece path ∧
      ∃ before, path = before ++ lastPiece path ∧ (before = [] ∨ before.getLast? = some '/') := by
  unfold lastPiece
  by_cases hslash : '/' ∈ path
  · obtain ⟨before, piece, rfl, hpiece⟩ := exists_last hslash
    rw [afterLast_append hpiece]
    exact ⟨hpiece, before ++ ['/'], by simp, .inr (by simp)⟩
  · rw [afterLast_eq_none hslash]
    exact ⟨hslash, [], rfl, .inl rfl⟩

theorem splitParentAndName_concat (parent : List Str) (name : Str) :
    splitParentAndName (parent ++ [name]) = (parent, name) := by
  simp [splitParentAndName]

theorem split_normalized (h : normalizeAndValidateFilename rawPath = .ok finalPath)
    (cwd : List Str) :
    splitParentAndName (resolvePath cwd finalPath) =
      ((resolvePath cwd finalPath).dropLast, lastPiece finalPath) := by
  obtain ⟨parent, hresolve⟩ := resolve_normalized h cwd
  rw [← lastPiece] at hresolve
  rw [hresolve, splitParentAndName_concat, List.dropLast_concat]

/-- `create` and `edit` never come to say that a name is invalid. -/
theorem withTarget_normalized (h : normalizeAndValidateFilename rawPath = .ok finalPath)
    (invalid : Str) (body : List Str → Str → KernelM Unit) :
    withTarget finalPath invalid body = withLock .fs (getShell >>= fun shell =>
      body (resolvePath shell.cwd finalPath).dropLast (lastPiece finalPath)) := by
  have hname : ¬ (lastPiece finalPath).isEmpty := by
    rw [List.isEmpty_iff]
    exact (normalize_ok h).ordinary.1
  unfold withTarget
  congr 2
  funext shell
  rw [split_normalized h]
  exact if_neg hname

/-- An accepted path is accepted again, and the name that the filesystem takes out of it
is the one that was checked. -/
theorem normalize_usable (h : normalizeAndValidateFilename rawPath = .ok finalPath)
    (cwd : List Str) :
    normalizeAndValidateFilename finalPath = .ok finalPath ∧
      resolvePath cwd finalPath ≠ [] ∧
      (resolvePath cwd finalPath).getLast? = some (lastPiece finalPath) ∧
      ('/' ∉ lastPiece finalPath ∧ ∃ before, finalPath = before ++ lastPiece finalPath ∧
        (before = [] ∨ before.getLast? = some '/')) ∧
      '.' ∈ lastPiece finalPath ∧ HasAllowedType (lastPiece finalPath) ∧
      (splitParentAndName (resolvePath cwd finalPath)).2 = lastPiece finalPath ∧
      lastPiece finalPath ≠ [] ∧
      ∀ (invalid : Str) (body : List Str → Str → KernelM Unit),
        withTarget finalPath invalid body = withLock .fs (getShell >>= fun shell =>
          body (resolvePath shell.cwd finalPath).dropLast (lastPiece finalPath)) := by
  obtain ⟨parent, hresolve⟩ := resolve_normalized h cwd
  have htype : HasAllowedType (lastPiece finalPath) := normalize_ok h
  rw [← lastPiece] at hresolve
  refine ⟨normalize_idem h, ?_, ?_, eq_append_lastPiece finalPath, htype.dot_mem, htype, ?_,
    htype.ordinary.1, withTarget_normalized h⟩
  · rw [hresolve]
    exact List.append_ne_nil_of_right_ne_nil _ (List.cons_ne_nil _ _)
  · rw [hresolve, List.getLast?_concat]
  · rw [split_normalized h]

theorem normalize_usable_hidden :
    resolvePath ["a".toList] "docs/..//.Notes.TXT".toList =
        ["a".toList, lastPiece "docs/..//.Notes.TXT".toList] ∧
      (splitParentAndName (resolvePath ["a".toList] "docs/..//.Notes.TXT".toList)).2 =
        lastPiece "docs/..//.Notes.TXT".toList := by
  have hok : normalizeAndValidateFilename "docs/..//.Notes.TXT".toList =
      .ok "docs/..//.Notes.TXT".toList := by decide
  exact ⟨by decide, (normalize_usable hok ["a".toList]).2.2.2.2.2.2.1⟩

end Shell

end AliluOS
