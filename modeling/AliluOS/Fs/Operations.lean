import AliluOS.Fs.Tree
import AliluOS.Lib.PathMap

/-! The operations of `FileSystem`. The four that write share the walk to the
parent directory and the way its new version gets back into the tree. -/

namespace AliluOS.Fs
open Text

namespace DirectoryOf

variable {d : DirectoryNode} {n k : Str} {node : Node}

theorem getElem?_insert (hd : d.children.WF) :
    (d.insert n node).children[k]? = if n = k then some node else d.children[k]? := by
  rw [insert, Std.TreeMap.Raw.getElem?_insert hd]
  simp only [Std.LawfulEqCmp.compare_eq_iff_eq]

theorem getElem?_remove (hd : d.children.WF) :
    (d.remove n).children[k]? = if n = k then none else d.children[k]? := by
  rw [remove, Std.TreeMap.Raw.getElem?_erase hd]
  simp only [Std.LawfulEqCmp.compare_eq_iff_eq]

theorem getElem?_new {name : Str} {ticks : Nat} : (new name ticks).children[k]? = none :=
  Std.TreeMap.Raw.getElem?_emptyc

theorem wf_of_ordered (h : (Node.directory d).Ordered) : d.children.WF := by
  cases h with
  | directory _ hd _ => exact hd

theorem ordered_child (h : (Node.directory d).Ordered) (hk : d.children[k]? = some node) :
    node.Ordered := by
  cases h with
  | directory _ _ hch => exact hch k node hk

theorem ordered_new (name : Str) (ticks : Nat) : (Node.directory (new name ticks)).Ordered := by
  refine .directory _ Std.TreeMap.Raw.WF.emptyc fun k node hk => ?_
  rw [getElem?_new] at hk
  simp at hk

theorem ordered_insert (h : (Node.directory d).Ordered) (hnode : node.Ordered) :
    (Node.directory (d.insert n node)).Ordered := by
  have hd := wf_of_ordered h
  refine .directory _ hd.insert fun k node' hk => ?_
  rw [getElem?_insert hd] at hk
  split_ifs at hk
  · obtain rfl := Option.some.inj hk
    exact hnode
  · exact ordered_child h hk

theorem ordered_remove (h : (Node.directory d).Ordered) :
    (Node.directory (d.remove n)).Ordered := by
  have hd := wf_of_ordered h
  refine .directory _ hd.erase fun k node' hk => ?_
  rw [getElem?_remove hd] at hk
  split_ifs at hk
  exact ordered_child h hk

theorem ordered_dirAt {ps : List Str} {sub : DirectoryNode} (h : (Node.directory d).Ordered)
    (hsub : d.dirAt ps = some sub) : (Node.directory sub).Ordered := by
  induction ps generalizing d with
  | nil =>
    obtain rfl := Option.some.inj hsub
    exact h
  | cons n ps ih =>
    obtain ⟨child, hn, hchild, -⟩ := dirAt_cons hsub
    exact ih (ordered_child h hn) hchild

theorem ordered_putDir {ps : List Str} {new : DirectoryNode} (h : (Node.directory d).Ordered)
    (hnew : (Node.directory new).Ordered) : (Node.directory (putDir new d ps)).Ordered := by
  induction ps generalizing d with
  | nil => exact hnew
  | cons n ps ih =>
    unfold putDir
    rcases hn : d.children[n]? with _ | ⟨f⟩ | ⟨c⟩
    · exact h
    · exact h
    · exact ordered_insert h (ih (ordered_child h hn))

end DirectoryOf

namespace FileSystem

def new : FileSystem := ⟨DirectoryOf.new [] 0, DirectoryOf.ordered_new [] 0⟩

theorem findDirectory_eq (fs : FileSystem) (segments : List Str) :
    fs.findDirectory segments = fs.root.dirAt segments := by
  unfold findDirectory
  cases segments with
  | nil => rfl
  | cons n rest => exact fs.root.findNode_cons n rest

theorem findDirectoryMut_eq (fs : FileSystem) (segments : List Str) :
    fs.findDirectoryMut segments =
      (fs.root.dirAt segments).map fun dir =>
        ⟨dir, fun new => DirectoryOf.putDir new fs.root segments⟩ := by
  unfold findDirectoryMut
  cases segments with
  | nil => rfl
  | cons n rest => exact fs.root.findNodeMut_cons n rest

theorem ordered_write {fs : FileSystem} {segments : List Str}
    {parent : RefMut DirectoryNode DirectoryNode}
    {body : DirectoryNode → Except Str DirectoryNode} {dir : DirectoryNode}
    (hbody : ∀ d d', (Node.directory d).Ordered → body d = .ok d' → (Node.directory d').Ordered)
    (hfind : fs.findDirectoryMut segments = some parent) (hrun : body parent.get = .ok dir) :
    (Node.directory (parent.set dir)).Ordered := by
  rw [findDirectoryMut_eq] at hfind
  obtain ⟨d, hd, rfl⟩ := Option.map_eq_some_iff.mp hfind
  exact DirectoryOf.ordered_putDir fs.ordered
    (hbody d dir (DirectoryOf.ordered_dirAt fs.ordered hd) hrun)

def updateDirectory (fs : FileSystem) (segments : List Str) (missing : Str)
    (body : DirectoryNode → Except Str DirectoryNode)
    (hbody : ∀ d d', (Node.directory d).Ordered → body d = .ok d' → (Node.directory d').Ordered) :
    Except Str Unit × FileSystem :=
  match hfind : fs.findDirectoryMut segments with
  | some parent =>
    match hrun : body parent.get with
    | .ok dir => (.ok (), ⟨parent.set dir, ordered_write hbody hfind hrun⟩)
    | .error e => (.error e, fs)
  | none => (.error missing, fs)

/-- What `create_directory` and `create_file` do with a parent directory. -/
def createIn (name : Str) (node : Node) (parent : DirectoryNode) : Except Str DirectoryNode :=
  if parent.children.contains name then .error "Name already exists in this folder".toList
  else .ok (parent.insert name node)

def writeIn (name content : Str) (parent : DirectoryNode) : Except Str DirectoryNode :=
  match parent.children[name]? with
  | some (.file file) => .ok (parent.insert name (.file { file with content := content }))
  | some (.directory _) => .error "Target is a directory".toList
  | none => .ok (parent.insert name (.file ⟨name, content, 0⟩))

def deleteIn (name : Str) (parent : DirectoryNode) : Except Str DirectoryNode :=
  match parent.children[name]? with
  | some _ => .ok (parent.remove name)
  | none => .error "Target not found".toList

theorem ordered_createIn {name : Str} {node : Node} (hnode : node.Ordered) (d d' : DirectoryNode)
    (hd : (Node.directory d).Ordered) (h : createIn name node d = .ok d') :
    (Node.directory d').Ordered := by
  unfold createIn at h
  split_ifs at h
  obtain rfl := Except.ok.inj h
  exact DirectoryOf.ordered_insert hd hnode

theorem ordered_writeIn {name content : Str} (d d' : DirectoryNode)
    (hd : (Node.directory d).Ordered) (h : writeIn name content d = .ok d') :
    (Node.directory d').Ordered := by
  unfold writeIn at h
  rcases hn : d.children[name]? with _ | ⟨f⟩ | ⟨c⟩ <;> rw [hn] at h
  · obtain rfl := Except.ok.inj h
    exact DirectoryOf.ordered_insert hd (.file _)
  · obtain rfl := Except.ok.inj h
    exact DirectoryOf.ordered_insert hd (.file _)
  · simp at h

theorem ordered_deleteIn {name : Str} (d d' : DirectoryNode) (hd : (Node.directory d).Ordered)
    (h : deleteIn name d = .ok d') : (Node.directory d').Ordered := by
  unfold deleteIn at h
  rcases hn : d.children[name]? with _ | node <;> rw [hn] at h
  · simp at h
  · obtain rfl := Except.ok.inj h
    exact DirectoryOf.ordered_remove hd

def createDirectory (fs : FileSystem) (parentSegments : List Str) (name : Str) (ticks : Nat) :
    Except Str Unit × FileSystem :=
  fs.updateDirectory parentSegments "Parent directory not found".toList
    (createIn name (.directory (.new name ticks)))
    (ordered_createIn (DirectoryOf.ordered_new name ticks))

def createFile (fs : FileSystem) (parentSegments : List Str) (name : Str) (ticks : Nat) :
    Except Str Unit × FileSystem :=
  fs.updateDirectory parentSegments "Parent directory not found".toList
    (createIn name (.file ⟨name, [], ticks⟩)) (ordered_createIn (.file _))

def writeFile (fs : FileSystem) (parentSegments : List Str) (name content : Str) :
    Except Str Unit × FileSystem :=
  fs.updateDirectory parentSegments "Parent directory not found".toList (writeIn name content)
    ordered_writeIn

def deleteNode (fs : FileSystem) (parentSegments : List Str) (name : Str) :
    Except Str Unit × FileSystem :=
  fs.updateDirectory parentSegments "Directory not found".toList (deleteIn name) ordered_deleteIn

def listDirectory (fs : FileSystem) (segments : List Str) : Except Str (List (Str × Bool)) :=
  match fs.findDirectory segments with
  | some dir => .ok (dir.children.toList.map fun (name, node) => (name, node.isDirectory))
  | none => .error "Directory not found".toList

def readFile (fs : FileSystem) (parentSegments : List Str) (name : Str) : Except Str Str :=
  match fs.findDirectory parentSegments with
  | some parent =>
    match parent.children[name]? with
    | some (.file file) => .ok file.content
    | _ => .error "File not found or is a directory".toList
  | none => .error "Directory not found".toList

end FileSystem

end AliluOS.Fs
