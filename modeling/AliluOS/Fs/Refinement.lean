import AliluOS.Fs.Operations
import Mathlib.Data.Set.Finite.Lattice

/-! The tree refines a path map: every operation reads and changes exactly the
entries that the path map says. -/

namespace AliluOS.Fs
open Text Lib

/-! ## Entries by path -/

def Node.kind : Node → Entry Str
  | .file f => .file f.content
  | .directory _ => .dir

namespace DirectoryOf

def entry : DirectoryNode → List Str → Option (Entry Str)
  | _, [] => some .dir
  | d, n :: rest =>
    match d.children[n]? with
    | none => none
    | some (.file f) => if rest.isEmpty then some (.file f.content) else none
    | some (.directory sub) => entry sub rest

end DirectoryOf

def Node.entry : Node → List Str → Option (Entry Str)
  | .file f, rest => if rest.isEmpty then some (.file f.content) else none
  | .directory d, rest => d.entry rest

@[simp] theorem Node.entry_nil (node : Node) : node.entry [] = some node.kind := by
  cases node <;> rfl

namespace DirectoryOf

variable {d : DirectoryNode}

theorem entry_cons (d : DirectoryNode) (n : Str) (rest : List Str) :
    d.entry (n :: rest) = d.children[n]?.bind (·.entry rest) := by
  rw [entry]
  rcases d.children[n]? with _ | ⟨f⟩ | ⟨sub⟩ <;> rfl

theorem entry_append (d : DirectoryNode) {ps q : List Str} (hq : q ≠ []) :
    d.entry (ps ++ q) = (d.dirAt ps).bind (·.entry q) := by
  induction ps generalizing d with
  | nil => rfl
  | cons n ps ih =>
    rw [List.cons_append, entry_cons, dirAt]
    rcases d.children[n]? with _ | ⟨f⟩ | ⟨sub⟩
    · rfl
    · simp [Node.entry, hq]
    · exact ih sub

theorem entry_eq_dir_iff (d : DirectoryNode) (ps : List Str) :
    d.entry ps = some .dir ↔ (d.dirAt ps).isSome := by
  induction ps generalizing d with
  | nil => simp [entry, dirAt]
  | cons n ps ih =>
    rw [entry_cons, dirAt]
    rcases d.children[n]? with _ | ⟨f⟩ | ⟨sub⟩
    · simp
    · simp [Node.entry]
    · exact ih sub

theorem entry_putDir {ps q : List Str} {sub new : DirectoryNode}
    (hd : (Node.directory d).Ordered) (hsub : d.dirAt ps = some sub) :
    (putDir new d ps).entry q = if ps <+: q then new.entry (q.drop ps.length) else d.entry q := by
  induction ps generalizing d q with
  | nil => simp [putDir]
  | cons n ps ih =>
    obtain ⟨child, hn, hchild, hput⟩ := dirAt_cons hsub
    rw [hput]
    cases q with
    | nil => simp [entry]
    | cons k q =>
      have hc := ih (q := q) (ordered_child hd hn) hchild
      rw [entry_cons, entry_cons]
      rw [getElem?_insert (wf_of_ordered hd)]
      simp only [List.cons_prefix_cons]
      rcases eq_or_ne n k with rfl | hne
      · simpa [hn, Node.entry] using hc
      · simp [hne]

end DirectoryOf

namespace FileSystem

variable (fs : FileSystem)

/-- The path map of a filesystem, read off by walking `children` from the root. -/
def paths : PathMap Str Str where
  entry := fs.root.entry
  root := by simp [DirectoryOf.entry]
  closed := by
    intro p n h
    rw [DirectoryOf.entry_append _ (by simp)] at h
    rw [DirectoryOf.entry_eq_dir_iff]
    rcases hp : fs.root.dirAt p with _ | sub
    · simp [hp] at h
    · rfl

theorem entry_new (q : List Str) : new.paths.entry q = if q = [] then some .dir else none := by
  cases q with
  | nil => rfl
  | cons n rest =>
    change new.root.entry (n :: rest) = _
    rw [DirectoryOf.entry_cons, new, DirectoryOf.getElem?_new]
    rfl

theorem entry_under {ps : List Str} {parent : DirectoryNode}
    (hp : fs.root.dirAt ps = some parent) (n : Str) (rest : List Str) :
    fs.paths.entry (ps ++ n :: rest) = parent.children[n]?.bind (·.entry rest) := by
  change fs.root.entry (ps ++ n :: rest) = _
  rw [DirectoryOf.entry_append _ (by simp), hp, Option.bind_some, DirectoryOf.entry_cons]

theorem entry_child {ps : List Str} {parent : DirectoryNode}
    (hp : fs.root.dirAt ps = some parent) (n : Str) :
    fs.paths.entry (ps ++ [n]) = parent.children[n]?.map Node.kind := by
  rw [fs.entry_under hp]
  cases parent.children[n]? <;> simp

theorem entry_eq_dir_iff (ps : List Str) :
    fs.paths.entry ps = some .dir ↔ (fs.root.dirAt ps).isSome := fs.root.entry_eq_dir_iff ps

variable {fs} {fs' : FileSystem} {ps : List Str} {n : Str} {parent : DirectoryNode} {node : Node}

theorem dir_of_dirAt (hp : fs.root.dirAt ps = some parent) : fs.paths.entry ps = some .dir :=
  (fs.entry_eq_dir_iff ps).mpr (by simp [hp])

theorem entry_written {new : DirectoryNode} (hp : fs.root.dirAt ps = some parent)
    (hroot : fs'.root = DirectoryOf.putDir new fs.root ps) (q : List Str) :
    fs'.paths.entry q = if ps <+: q then new.entry (q.drop ps.length) else fs.paths.entry q := by
  change fs'.root.entry q = _
  rw [hroot, DirectoryOf.entry_putDir fs.ordered hp]
  rfl

theorem paths_insert (hp : fs.root.dirAt ps = some parent)
    (hroot : fs'.root = DirectoryOf.putDir (parent.insert n node) fs.root ps)
    (hleaf : ∀ k rest, node.entry (k :: rest) = none)
    (hn : fs.paths.entry (ps ++ [n]) ≠ some .dir) :
    fs'.paths = fs.paths.set ps n node.kind (dir_of_dirAt hp) (fun h => absurd h hn) := by
  have hwf := DirectoryOf.wf_of_ordered (DirectoryOf.ordered_dirAt fs.ordered hp)
  apply PathMap.ext
  intro q
  rw [entry_written hp hroot, PathMap.entry_set]
  by_cases hq : ps <+: q
  · obtain ⟨r, rfl⟩ := hq
    rw [if_pos (List.prefix_append ps r), List.drop_left]
    cases r with
    | nil => simp [DirectoryOf.entry, dir_of_dirAt hp]
    | cons k rest =>
      rw [DirectoryOf.entry_cons, DirectoryOf.getElem?_insert hwf, fs.entry_under hp]
      simp only [List.append_cancel_left_eq, List.cons.injEq]
      rcases eq_or_ne n k with rfl | hne
      · cases rest with
        | nil => simp
        | cons m rest =>
          -- nothing stands below what is no directory
          have hbelow : ¬ (fs.paths.entry (ps ++ [n] ++ (m :: rest))).isSome := fun h =>
            hn (fs.paths.dir_of_append (by simp) h)
          rw [List.append_assoc, List.singleton_append, fs.entry_under hp,
            Option.not_isSome_iff_eq_none] at hbelow
          simp [hleaf, hbelow]
      · simp [hne, hne.symm]
  · rw [if_neg hq, if_neg]
    rintro rfl
    exact hq (List.prefix_append ps [n])

theorem paths_remove (hp : fs.root.dirAt ps = some parent)
    (hroot : fs'.root = DirectoryOf.putDir (parent.remove n) fs.root ps) :
    fs'.paths = fs.paths.remove (ps ++ [n]) (by simp) := by
  have hwf := DirectoryOf.wf_of_ordered (DirectoryOf.ordered_dirAt fs.ordered hp)
  apply PathMap.ext
  intro q
  rw [entry_written hp hroot, PathMap.entry_remove]
  by_cases hq : ps <+: q
  · obtain ⟨r, rfl⟩ := hq
    rw [if_pos (List.prefix_append ps r), List.drop_left]
    simp only [List.prefix_append_right_inj]
    cases r with
    | nil => simp [DirectoryOf.entry, dir_of_dirAt hp]
    | cons k rest =>
      rw [DirectoryOf.entry_cons, DirectoryOf.getElem?_remove hwf, fs.entry_under hp]
      simp only [List.cons_prefix_cons, List.nil_prefix, and_true]
      split_ifs <;> rfl
  · rw [if_neg hq, if_neg fun h => hq ((List.prefix_append ps [n]).trans h)]

/-! ## The operations -/

theorem updateDirectory_none {missing : Str} {body : DirectoryNode → Except Str DirectoryNode}
    {hbody} (hp : fs.root.dirAt ps = none) :
    fs.updateDirectory ps missing body hbody = (.error missing, fs) := by
  have hfind := fs.findDirectoryMut_eq ps
  rw [hp, Option.map_none] at hfind
  unfold updateDirectory
  split
  · next h => simp [hfind] at h
  · rfl

theorem updateDirectory_error {missing e : Str} {body : DirectoryNode → Except Str DirectoryNode}
    {hbody} (hp : fs.root.dirAt ps = some parent) (hrun : body parent = .error e) :
    fs.updateDirectory ps missing body hbody = (.error e, fs) := by
  have hfind := fs.findDirectoryMut_eq ps
  rw [hp, Option.map_some] at hfind
  unfold updateDirectory
  split
  · next r h =>
    obtain rfl := Option.some.inj (hfind.symm.trans h)
    split
    · next dir hok => simp [hrun] at hok
    · next e' herr =>
      obtain rfl := Except.error.inj (hrun.symm.trans herr)
      rfl
  · next h => simp [hfind] at h

theorem updateDirectory_ok {missing : Str} {body : DirectoryNode → Except Str DirectoryNode}
    {hbody} {new : DirectoryNode} (hp : fs.root.dirAt ps = some parent)
    (hrun : body parent = .ok new) :
    ∃ fs', fs.updateDirectory ps missing body hbody = (.ok (), fs') ∧
      fs'.root = DirectoryOf.putDir new fs.root ps := by
  have hfind := fs.findDirectoryMut_eq ps
  rw [hp, Option.map_some] at hfind
  unfold updateDirectory
  split
  · next r h =>
    obtain rfl := Option.some.inj (hfind.symm.trans h)
    split
    · next dir hok =>
      obtain rfl := Except.ok.inj (hrun.symm.trans hok)
      exact ⟨_, rfl, rfl⟩
    · next e herr => simp [hrun] at herr
  · next h => simp [hfind] at h

theorem updateDirectory_cases (fs : FileSystem) (ps : List Str) (missing : Str)
    (body : DirectoryNode → Except Str DirectoryNode) (hbody) :
    (fs.updateDirectory ps missing body hbody).1 = .ok () ∨
      ∃ e, fs.updateDirectory ps missing body hbody = (.error e, fs) ∧
        (e = missing ∨ ∃ parent, body parent = .error e) := by
  rcases hp : fs.root.dirAt ps with _ | parent
  · exact .inr ⟨missing, updateDirectory_none hp, .inl rfl⟩
  rcases hrun : body parent with e | new
  · exact .inr ⟨e, updateDirectory_error hp hrun, .inr ⟨parent, hrun⟩⟩
  · obtain ⟨fs', hres, -⟩ : ∃ fs', fs.updateDirectory ps missing body hbody = (.ok (), fs') ∧
        fs'.root = DirectoryOf.putDir new fs.root ps := updateDirectory_ok hp hrun
    exact .inl (by rw [hres])

/-- An operation that succeeds exactly under `pre`, then has the entries `after`,
and otherwise changes nothing. -/
structure Refines (fs : FileSystem) (pre : Prop) (after : List Str → Option (Entry Str))
    (r : Except Str Unit × FileSystem) : Prop where
  ok_iff : r.1 = .ok () ↔ pre
  ok : pre → r.2.paths.entry = after
  error : ¬ pre → r.2 = fs

theorem Refines.cases {pre : Prop} {after : List Str → Option (Entry Str)}
    {r : Except Str Unit × FileSystem} (h : Refines fs pre after r) :
    pre ∧ r.2.paths.entry = after ∨ ¬ pre ∧ r.2 = fs := by
  by_cases hpre : pre
  · exact .inl ⟨hpre, h.ok hpre⟩
  · exact .inr ⟨hpre, h.error hpre⟩

def IsDirectory (fs : FileSystem) (ps : List Str) : Prop := ps = [] ∨ fs.paths.entry ps = some .dir

theorem isDirectory_iff : fs.IsDirectory ps ↔ (fs.root.dirAt ps).isSome := by
  rw [← fs.entry_eq_dir_iff]
  apply or_iff_right_of_imp
  rintro rfl
  exact fs.paths.root

theorem refines_updateDirectory {missing : Str} {body : DirectoryNode → Except Str DirectoryNode}
    {hbody} {P : Prop} {after : List Str → Option (Entry Str)}
    (hok : ∀ parent, fs.root.dirAt ps = some parent → P → ∃ new, body parent = .ok new ∧
      ∀ fs' : FileSystem, fs'.root = DirectoryOf.putDir new fs.root ps → fs'.paths.entry = after)
    (herr : ∀ parent, fs.root.dirAt ps = some parent → ¬ P → ∃ e, body parent = .error e) :
    Refines fs (fs.IsDirectory ps ∧ P) after (fs.updateDirectory ps missing body hbody) := by
  rw [isDirectory_iff]
  rcases hp : fs.root.dirAt ps with _ | parent
  · rw [updateDirectory_none hp]
    exact ⟨by simp, by simp, fun _ => rfl⟩
  by_cases hP : P
  · obtain ⟨new, hrun, hafter⟩ := hok parent hp hP
    obtain ⟨fs', hres, hroot⟩ : ∃ fs', fs.updateDirectory ps missing body hbody = (.ok (), fs') ∧
        fs'.root = DirectoryOf.putDir new fs.root ps := updateDirectory_ok hp hrun
    rw [hres]
    exact ⟨by simp [hP], fun _ => hafter fs' hroot, by simp [hP]⟩
  · obtain ⟨e, hrun⟩ := herr parent hp hP
    rw [updateDirectory_error hp hrun]
    exact ⟨by simp [hP], by simp [hP], fun _ => rfl⟩

theorem refines_create (node : Node) {missing : Str} {hbody}
    (hleaf : ∀ k rest, node.entry (k :: rest) = none) :
    Refines fs (fs.IsDirectory ps ∧ fs.paths.entry (ps ++ [n]) = none)
      (fun q => if q = ps ++ [n] then some node.kind else fs.paths.entry q)
      (fs.updateDirectory ps missing (createIn n node) hbody) := by
  refine refines_updateDirectory (fun parent hp hnew => ?_) fun parent hp hold => ?_
  all_goals
    have hwf := DirectoryOf.wf_of_ordered (DirectoryOf.ordered_dirAt fs.ordered hp)
    have hchild := fs.entry_child hp n
    unfold createIn
    rw [Std.TreeMap.Raw.contains_eq_isSome_getElem? hwf]
  · rw [hnew, eq_comm, Option.map_eq_none_iff] at hchild
    refine ⟨_, if_neg (by simp [hchild]), fun fs' hroot => ?_⟩
    rw [paths_insert hp hroot hleaf (by simp [hnew])]
    funext q
    simp
  · rw [hchild, Option.map_eq_none_iff] at hold
    exact ⟨_, if_pos (Option.isSome_iff_ne_none.mpr hold)⟩

theorem refines_createDirectory {ticks : Nat} :
    Refines fs (fs.IsDirectory ps ∧ fs.paths.entry (ps ++ [n]) = none)
      (fun q => if q = ps ++ [n] then some .dir else fs.paths.entry q)
      (fs.createDirectory ps n ticks) := by
  apply refines_create (.directory (.new n ticks))
  intro k rest
  simp [Node.entry, DirectoryOf.entry_cons, DirectoryOf.getElem?_new]

theorem refines_createFile {ticks : Nat} :
    Refines fs (fs.IsDirectory ps ∧ fs.paths.entry (ps ++ [n]) = none)
      (fun q => if q = ps ++ [n] then some (.file []) else fs.paths.entry q)
      (fs.createFile ps n ticks) :=
  refines_create (.file ⟨n, [], ticks⟩) fun _ _ => rfl

theorem refines_writeFile {c : Str} :
    Refines fs (fs.IsDirectory ps ∧ fs.paths.entry (ps ++ [n]) ≠ some .dir)
      (fun q => if q = ps ++ [n] then some (.file c) else fs.paths.entry q)
      (fs.writeFile ps n c) := by
  have hafter : ∀ parent, fs.root.dirAt ps = some parent →
      fs.paths.entry (ps ++ [n]) ≠ some .dir → ∀ (f : FileNode) (fs' : FileSystem), f.content = c →
      fs'.root = DirectoryOf.putDir (parent.insert n (.file f)) fs.root ps →
      fs'.paths.entry = fun q => if q = ps ++ [n] then some (.file c) else fs.paths.entry q := by
    rintro parent hp hn f fs' rfl hroot
    rw [paths_insert hp hroot (fun _ _ => rfl) hn]
    funext q
    simp [Node.kind]
  refine refines_updateDirectory (fun parent hp hn => ?_) fun parent hp hn => ?_
  all_goals
    have hchild := fs.entry_child hp n
    unfold writeIn
    rcases hc : parent.children[n]? with _ | ⟨f⟩ | ⟨d⟩ <;> rw [hc] at hchild
  · exact ⟨_, rfl, fun fs' hroot => hafter parent hp hn _ fs' rfl hroot⟩
  · exact ⟨_, rfl, fun fs' hroot => hafter parent hp hn _ fs' rfl hroot⟩
  · exact absurd hchild hn
  · exact absurd (by simp [hchild]) hn
  · exact absurd (by simp [hchild, Node.kind]) hn
  · exact ⟨_, rfl⟩

theorem refines_deleteNode :
    Refines fs (fs.IsDirectory ps ∧ fs.paths.entry (ps ++ [n]) ≠ none)
      (fun q => if ps ++ [n] <+: q then none else fs.paths.entry q) (fs.deleteNode ps n) := by
  refine refines_updateDirectory (fun parent hp hn => ?_) fun parent hp hn => ?_
  all_goals
    have hchild := fs.entry_child hp n
    unfold deleteIn
    rcases hc : parent.children[n]? with _ | node <;> rw [hc] at hchild
  · exact absurd hchild hn
  · refine ⟨_, rfl, fun fs' hroot => ?_⟩
    rw [paths_remove hp hroot]
    rfl
  · exact ⟨_, rfl⟩
  · exact absurd (by simp [hchild]) hn

/-! ## What holds of every file -/

def Files (P : List Str → Str → Prop) (fs : FileSystem) : Prop :=
  ∀ q c, fs.paths.entry q = some (.file c) → P q c

section Files

variable {P : List Str → Str → Prop}

theorem files_of_refines {pre : Prop} {after : List Str → Option (Entry Str)}
    {r : Except Str Unit × FileSystem} (h : Refines fs pre after r) (hfs : Files P fs)
    (hafter : pre → ∀ q c, after q = some (.file c) → P q c) : Files P r.2 := by
  rcases h.cases with ⟨hpre, heq⟩ | ⟨-, heq⟩
  · intro q c hq
    rw [heq] at hq
    exact hafter hpre q c hq
  · rwa [heq]

theorem files_createDirectory (hfs : Files P fs) (ps : List Str) (n : Str) (ticks : Nat) :
    Files P (fs.createDirectory ps n ticks).2 := by
  apply files_of_refines refines_createDirectory hfs
  intro _ q c hq
  split_ifs at hq
  · simp at hq
  · exact hfs q c hq

theorem files_createFile (hfs : Files P fs) (hnew : P (ps ++ [n]) []) (ticks : Nat) :
    Files P (fs.createFile ps n ticks).2 := by
  apply files_of_refines refines_createFile hfs
  intro _ q c hq
  split_ifs at hq with htarget
  · obtain rfl : [] = c := by simpa using hq
    rwa [htarget]
  · exact hfs q c hq

theorem files_writeFile {c : Str} (hfs : Files P fs) (hnew : P (ps ++ [n]) c) :
    Files P (fs.writeFile ps n c).2 := by
  apply files_of_refines refines_writeFile hfs
  intro _ q c' hq
  split_ifs at hq with htarget
  · obtain rfl : c = c' := by simpa using hq
    rwa [htarget]
  · exact hfs q c' hq

theorem files_deleteNode (hfs : Files P fs) (ps : List Str) (n : Str) :
    Files P (fs.deleteNode ps n).2 := by
  apply files_of_refines refines_deleteNode hfs
  intro _ q c hq
  split_ifs at hq
  exact hfs q c hq

end Files

/-! ## What a write leaves alone -/

end FileSystem

inductive Header
  | directory (name : Str) (createdAt : Nat)
  | file (f : FileNode)

def Header.kind : Header → Entry Str
  | .directory _ _ => .dir
  | .file f => .file f.content

def DirectoryOf.headerAt : DirectoryNode → List Str → Option Header
  | d, [] => some (.directory d.name d.createdAt)
  | d, n :: rest =>
    match d.children[n]? with
    | none => none
    | some (.file f) => if rest.isEmpty then some (.file f) else none
    | some (.directory sub) => headerAt sub rest

def Node.headerAt : Node → List Str → Option Header
  | .file f, rest => if rest.isEmpty then some (.file f) else none
  | .directory d, rest => d.headerAt rest

namespace DirectoryOf

theorem headerAt_cons (d : DirectoryNode) (n : Str) (rest : List Str) :
    d.headerAt (n :: rest) = d.children[n]?.bind (·.headerAt rest) := by
  rw [headerAt]
  rcases d.children[n]? with _ | ⟨f⟩ | ⟨sub⟩ <;> rfl

theorem entry_eq_kind (d : DirectoryNode) (q : List Str) :
    d.entry q = (d.headerAt q).map Header.kind := by
  induction q generalizing d with
  | nil => rfl
  | cons n rest ih =>
    rw [entry_cons, headerAt_cons]
    rcases d.children[n]? with _ | ⟨f⟩ | ⟨sub⟩
    · rfl
    · cases rest <;> rfl
    · exact ih sub

theorem headerAt_putDir {d parent : DirectoryNode} {ps q : List Str} {n : Str} {f : FileNode}
    (hd : (Node.directory d).Ordered) (hp : d.dirAt ps = some parent)
    (hn : ∀ sub, parent.children[n]? ≠ some (.directory sub)) (hq : q ≠ ps ++ [n]) :
    (putDir (parent.insert n (.file f)) d ps).headerAt q = d.headerAt q := by
  induction ps generalizing d q with
  | nil =>
    obtain rfl := Option.some.inj hp
    rw [putDir]
    cases q with
    | nil => rfl
    | cons k rest =>
      rw [headerAt_cons, headerAt_cons, getElem?_insert (wf_of_ordered hd)]
      split_ifs with hk
      · subst hk
        -- below a file there are no headers, neither before nor after
        have hrest : rest ≠ [] := fun hrest => hq (by simp [hrest])
        rcases hold : d.children[n]? with _ | ⟨f'⟩ | ⟨sub⟩
        · simp [Node.headerAt, hrest]
        · simp [Node.headerAt, hrest]
        · exact absurd hold (hn sub)
      · rfl
  | cons m ps ih =>
    obtain ⟨child, hm, hchild, hput⟩ := dirAt_cons hp
    rw [hput]
    cases q with
    | nil => rfl
    | cons k rest =>
      rw [headerAt_cons, headerAt_cons, getElem?_insert (wf_of_ordered hd)]
      split_ifs with hk
      · subst hk
        rw [hm]
        exact ih (ordered_child hd hm) hchild fun hrest => hq (by simp [hrest])
      · rfl

end DirectoryOf

namespace FileSystem

def headers (fs : FileSystem) (q : List Str) : Option Header := fs.root.headerAt q

variable {fs : FileSystem} {ps : List Str} {n : Str}

theorem entry_eq_kind (fs : FileSystem) (q : List Str) :
    fs.paths.entry q = (fs.headers q).map Header.kind := fs.root.entry_eq_kind q

theorem writeIn_ok {c : Str} {parent new : DirectoryNode} (h : writeIn n c parent = .ok new) :
    (∃ f, new = parent.insert n (.file f)) ∧
      ∀ sub, parent.children[n]? ≠ some (.directory sub) := by
  unfold writeIn at h
  rcases hc : parent.children[n]? with _ | ⟨f⟩ | ⟨d⟩ <;> rw [hc] at h
  · exact ⟨⟨_, (Except.ok.inj h).symm⟩, by simp⟩
  · exact ⟨⟨_, (Except.ok.inj h).symm⟩, by simp⟩
  · simp at h

theorem headers_writeFile {c : Str} {q : List Str} (hq : q ≠ ps ++ [n]) :
    (fs.writeFile ps n c).2.headers q = fs.headers q := by
  rcases hp : fs.root.dirAt ps with _ | parent
  · rw [writeFile, updateDirectory_none hp]
  rcases hrun : writeIn n c parent with e | new
  · rw [writeFile, updateDirectory_error hp hrun]
  · obtain ⟨fs', hres, hroot⟩ : ∃ fs', fs.writeFile ps n c = (.ok (), fs') ∧
        fs'.root = DirectoryOf.putDir new fs.root ps := updateDirectory_ok hp hrun
    obtain ⟨⟨f, rfl⟩, hn⟩ := writeIn_ok hrun
    rw [hres]
    change fs'.root.headerAt q = _
    rw [hroot]
    exact DirectoryOf.headerAt_putDir fs.ordered hp hn hq

/-! ## What is read -/

theorem readFile_eq_ok {c : Str} :
    fs.readFile ps n = .ok c ↔ fs.paths.entry (ps ++ [n]) = some (.file c) := by
  unfold readFile
  rw [findDirectory_eq]
  rcases hp : fs.root.dirAt ps with _ | parent
  · have hnone : fs.paths.entry (ps ++ [n]) = none := by
      apply Option.not_isSome_iff_eq_none.mp
      intro h
      have hdir := (fs.entry_eq_dir_iff ps).mp (fs.paths.dir_of_append (by simp) h)
      simp [hp] at hdir
    simp [hnone]
  · rw [fs.entry_child hp]
    rcases hc : parent.children[n]? with _ | ⟨f⟩ | ⟨d⟩ <;> simp [Node.kind, hc]

theorem compare_lt {a b : Str} (h : compare a b = .lt) : a < b := by
  induction a generalizing b with
  | nil =>
    cases b with
    | nil => exact absurd h (by decide)
    | cons y b => exact List.Lex.nil
  | cons x a ih =>
    cases b with
    | nil => simp at h
    | cons y b =>
      rw [List.compare_eq_compareLex, List.compareLex_cons_cons] at h
      rcases hxy : compare x y with _ | _ | _
      · exact List.Lex.rel (compareOfLessAndEq_eq_lt.mp hxy)
      · obtain rfl := Std.LawfulEqCmp.compare_eq_iff_eq.mp hxy
        rw [hxy] at h
        exact List.Lex.cons (ih h)
      · simp [hxy] at h

theorem listDirectory_ok (hp : fs.IsDirectory ps) :
    ∃ items, fs.listDirectory ps = .ok items ∧ items.Pairwise (fun x y => x.1 < y.1) ∧
      ∀ k b, (k, b) ∈ items ↔
        ∃ e, fs.paths.entry (ps ++ [k]) = some e ∧ (b = true ↔ e = .dir) := by
  obtain ⟨parent, hp⟩ := Option.isSome_iff_exists.mp (isDirectory_iff.mp hp)
  have hwf := DirectoryOf.wf_of_ordered (DirectoryOf.ordered_dirAt fs.ordered hp)
  have hlist : fs.listDirectory ps =
      .ok (parent.children.toList.map fun child => (child.1, child.2.isDirectory)) := by
    simp only [listDirectory, findDirectory_eq, hp]
  refine ⟨_, hlist, ?_, fun k b => ?_⟩
  · rw [List.pairwise_map]
    exact (Std.TreeMap.Raw.ordered_keys_toList hwf).imp compare_lt
  · rw [fs.entry_child hp, List.mem_map]
    have hflag : ∀ node : Node, node.isDirectory = true ↔ node.kind = .dir := by
      rintro (⟨f⟩ | ⟨d⟩) <;> simp [Node.isDirectory, Node.kind]
    constructor
    · rintro ⟨⟨k', node⟩, hmem, heq⟩
      obtain ⟨rfl, rfl⟩ := Prod.mk.inj heq
      rw [Std.TreeMap.Raw.mem_toList_iff_getElem?_eq_some hwf] at hmem
      exact ⟨node.kind, by simp [hmem], hflag node⟩
    · rintro ⟨e, he, hb⟩
      obtain ⟨node, hnode, rfl⟩ := Option.map_eq_some_iff.mp he
      refine ⟨(k, node), (Std.TreeMap.Raw.mem_toList_iff_getElem?_eq_some hwf).mpr hnode, ?_⟩
      rw [← hflag] at hb
      exact Prod.ext rfl (Bool.eq_iff_iff.mpr hb.symm)

theorem finite_entries {node : Node} (h : node.Ordered) :
    {q | (node.entry q).isSome}.Finite := by
  induction h with
  | file f =>
    apply (Set.finite_singleton []).subset
    intro q hq
    cases q with
    | nil => rfl
    | cons n rest => simp [Node.entry] at hq
  | directory d hwf _ ih =>
    have hchildren : (⋃ x ∈ {x | x ∈ d.children.toList},
        List.cons x.1 '' {q | (x.2.entry q).isSome}).Finite := by
      apply (List.finite_toSet _).biUnion
      intro x hx
      exact (ih x.1 x.2 ((Std.TreeMap.Raw.mem_toList_iff_getElem?_eq_some hwf).mp hx)).image _
    apply ((Set.finite_singleton []).union hchildren).subset
    intro q hq
    cases q with
    | nil => exact .inl rfl
    | cons n rest =>
      rw [Set.mem_ofPred_eq, Node.entry, DirectoryOf.entry_cons] at hq
      rcases hn : d.children[n]? with _ | node <;> rw [hn] at hq
      · simp at hq
      · have hmem : (n, node) ∈ {x | x ∈ d.children.toList} := by
          rwa [Set.mem_ofPred_eq, Std.TreeMap.Raw.mem_toList_iff_getElem?_eq_some hwf]
        exact .inr (Set.mem_biUnion hmem ⟨rest, by simpa using hq, rfl⟩)

/-- Every operation refines its path map: it succeeds exactly when the path map
allows it, and then changes the entry at `ps ++ [n]` (for a deletion also those
below it) and no other; an error changes nothing. -/
theorem fileSystem_refines_pathMap (fs : FileSystem) (ps : List Str) (n c : Str) (ticks : Nat) :
    let entry := fs.paths.entry
    let target := ps ++ [n]
    {q | (entry q).isSome}.Finite ∧
      Refines fs (fs.IsDirectory ps ∧ entry target = none)
        (fun q => if q = target then some .dir else entry q) (fs.createDirectory ps n ticks) ∧
      Refines fs (fs.IsDirectory ps ∧ entry target = none)
        (fun q => if q = target then some (.file []) else entry q) (fs.createFile ps n ticks) ∧
      Refines fs (fs.IsDirectory ps ∧ entry target ≠ some .dir)
        (fun q => if q = target then some (.file c) else entry q) (fs.writeFile ps n c) ∧
      Refines fs (fs.IsDirectory ps ∧ entry target ≠ none)
        (fun q => if target <+: q then none else entry q) (fs.deleteNode ps n) ∧
      (∀ c, fs.readFile ps n = .ok c ↔ entry target = some (.file c)) ∧
      (fs.IsDirectory ps → ∃ items, fs.listDirectory ps = .ok items ∧
        items.Pairwise (fun x y => x.1 < y.1) ∧
        ∀ k b, (k, b) ∈ items ↔ ∃ e, entry (ps ++ [k]) = some e ∧ (b = true ↔ e = .dir)) ∧
      (¬ fs.IsDirectory ps → fs.listDirectory ps = .error "Directory not found".toList) := by
  refine ⟨finite_entries fs.ordered, refines_createDirectory, refines_createFile,
    refines_writeFile, refines_deleteNode, fun c => readFile_eq_ok, listDirectory_ok, fun hp => ?_⟩
  rw [isDirectory_iff, Option.not_isSome_iff_eq_none] at hp
  simp only [listDirectory, findDirectory_eq, hp]

end FileSystem

end AliluOS.Fs
