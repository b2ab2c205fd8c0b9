import AliluOS.Fs.Operations
import AliluOS.Text.Tokens

/-! Names in the tree: each child is stored under its own name, and a path made of
these names leads back to it. -/

namespace AliluOS.Fs
open Text

/-- A name that `resolve_path` takes for itself, and that stays one word of a command
line. -/
structure Ordinary (n : Str) : Prop where
  token : Token n
  slash : '/' ∉ n
  dot : n ≠ ".".toList
  dots : n ≠ "..".toList

def Node.name : Node → Str
  | .file f => f.name
  | .directory d => d.name

inductive Node.Named : Node → Prop
  | file (f : FileNode) : Named (.file f)
  | directory (d : DirectoryNode) :
      (∀ (n : Str) (node : Node), d.children[n]? = some node → node.name = n ∧ Ordinary n) →
      (∀ (n : Str) (node : Node), d.children[n]? = some node → Named node) →
      Named (.directory d)

namespace DirectoryOf

variable {d : DirectoryNode} {n k : Str} {node : Node} {ps : List Str}

theorem name_of_named (h : (Node.directory d).Named) (hk : d.children[k]? = some node) :
    node.name = k ∧ Ordinary k := by
  cases h with
  | directory _ hnames _ => exact hnames k node hk

theorem named_child (h : (Node.directory d).Named) (hk : d.children[k]? = some node) :
    node.Named := by
  cases h with
  | directory _ _ hch => exact hch k node hk

theorem named_new (name : Str) (ticks : Nat) : (Node.directory (new name ticks)).Named := by
  refine .directory _ (fun k node hk => ?_) fun k node hk => ?_
  all_goals
    rw [getElem?_new] at hk
    simp at hk

theorem named_insert (hd : (Node.directory d).Ordered) (h : (Node.directory d).Named)
    (hname : node.name = n) (hn : Ordinary n) (hnode : node.Named) :
    (Node.directory (d.insert n node)).Named := by
  refine .directory _ (fun k node' hk => ?_) fun k node' hk => ?_
  all_goals
    rw [getElem?_insert (wf_of_ordered hd)] at hk
    split_ifs at hk with heq
  · obtain rfl := Option.some.inj hk
    exact heq ▸ ⟨hname, hn⟩
  · exact name_of_named h hk
  · obtain rfl := Option.some.inj hk
    exact hnode
  · exact named_child h hk

theorem named_remove (hd : (Node.directory d).Ordered) (h : (Node.directory d).Named) :
    (Node.directory (d.remove n)).Named := by
  refine .directory _ (fun k node' hk => ?_) fun k node' hk => ?_
  all_goals
    rw [getElem?_remove (wf_of_ordered hd)] at hk
    split_ifs at hk
  · exact name_of_named h hk
  · exact named_child h hk

theorem named_dirAt {sub : DirectoryNode} (h : (Node.directory d).Named)
    (hsub : d.dirAt ps = some sub) : (Node.directory sub).Named := by
  induction ps generalizing d with
  | nil =>
    obtain rfl := Option.some.inj hsub
    exact h
  | cons n ps ih =>
    obtain ⟨child, hn, hchild, -⟩ := dirAt_cons hsub
    exact ih (named_child h hn) hchild

theorem named_putDir {sub new : DirectoryNode} (hd : (Node.directory d).Ordered)
    (h : (Node.directory d).Named) (hsub : d.dirAt ps = some sub) (hname : new.name = sub.name)
    (hnew : (Node.directory new).Named) :
    (Node.directory (putDir new d ps)).Named ∧ (putDir new d ps).name = d.name := by
  induction ps generalizing d with
  | nil =>
    obtain rfl := Option.some.inj hsub
    exact ⟨hnew, hname⟩
  | cons n ps ih =>
    obtain ⟨child, hn, hchild, hput⟩ := dirAt_cons hsub
    obtain ⟨hnamed, hkept⟩ := ih (ordered_child hd hn) (named_child h hn) hchild
    obtain ⟨hc, hord⟩ := name_of_named h hn
    rw [hput]
    exact ⟨named_insert hd h (hkept.trans hc) hord hnamed, rfl⟩

end DirectoryOf

namespace FileSystem

variable {fs : FileSystem} {ps : List Str} {n : Str}

def Named (fs : FileSystem) : Prop := (Node.directory fs.root).Named

theorem named_new : new.Named := DirectoryOf.named_new [] 0

theorem named_updateDirectory {missing : Str} {body : DirectoryNode → Except Str DirectoryNode}
    {hbody} (h : fs.Named)
    (hkeep : ∀ d d', (Node.directory d).Ordered → (Node.directory d).Named → body d = .ok d' →
      (Node.directory d').Named ∧ d'.name = d.name) :
    (fs.updateDirectory ps missing body hbody).2.Named := by
  have hfound := fs.findDirectoryMut_eq ps
  unfold updateDirectory
  split
  · next parent hparent =>
    split
    · next dir hrun =>
      rw [hparent] at hfound
      obtain ⟨d, hd, rfl⟩ := Option.map_eq_some_iff.mp hfound.symm
      obtain ⟨hnamed, hname⟩ := hkeep d dir (DirectoryOf.ordered_dirAt fs.ordered hd)
        (DirectoryOf.named_dirAt h hd) hrun
      exact (DirectoryOf.named_putDir fs.ordered h hd hname hnamed).1
    · exact h
  · exact h

theorem named_create {node : Node} {missing : Str} {hbody} (h : fs.Named) (hn : Ordinary n)
    (hname : node.name = n) (hnode : node.Named) :
    (fs.updateDirectory ps missing (createIn n node) hbody).2.Named := by
  apply named_updateDirectory h
  intro d d' hd hnamed hrun
  unfold createIn at hrun
  split_ifs at hrun
  obtain rfl := Except.ok.inj hrun
  exact ⟨DirectoryOf.named_insert hd hnamed hname hn hnode, rfl⟩

theorem named_createDirectory {ticks : Nat} (h : fs.Named) (hn : Ordinary n) :
    (fs.createDirectory ps n ticks).2.Named :=
  named_create h hn rfl (DirectoryOf.named_new n ticks)

theorem named_createFile {ticks : Nat} (h : fs.Named) (hn : Ordinary n) :
    (fs.createFile ps n ticks).2.Named :=
  named_create h hn rfl (.file _)

theorem named_writeFile {c : Str} (h : fs.Named) (hn : Ordinary n) :
    (fs.writeFile ps n c).2.Named := by
  apply named_updateDirectory h
  intro d d' hd hnamed hrun
  unfold writeIn at hrun
  rcases hold : d.children[n]? with _ | ⟨f⟩ | ⟨sub⟩ <;> rw [hold] at hrun
  · obtain rfl := Except.ok.inj hrun
    exact ⟨DirectoryOf.named_insert hd hnamed rfl hn (.file _), rfl⟩
  · obtain rfl := Except.ok.inj hrun
    have hname : f.name = n := (DirectoryOf.name_of_named hnamed hold).1
    exact ⟨DirectoryOf.named_insert hd hnamed hname hn (.file _), rfl⟩
  · simp at hrun

theorem named_deleteNode (h : fs.Named) : (fs.deleteNode ps n).2.Named := by
  apply named_updateDirectory h
  intro d d' hd hnamed hrun
  unfold deleteIn at hrun
  rcases hold : d.children[n]? with _ | node <;> rw [hold] at hrun
  · simp at hrun
  · obtain rfl := Except.ok.inj hrun
    exact ⟨DirectoryOf.named_remove hd hnamed, rfl⟩

end FileSystem

inductive DirectoryOf.At : DirectoryNode → List Str → Node → Prop
  | here {d : DirectoryNode} {n : Str} {node : Node} :
      d.children[n]? = some node → At d [n] node
  | inside {d sub : DirectoryNode} {n : Str} {segments : List Str} {node : Node} :
      d.children[n]? = some (.directory sub) → At sub segments node → At d (n :: segments) node

namespace DirectoryOf.At

variable {d : DirectoryNode} {segments : List Str} {node : Node}

theorem ne_nil (h : d.At segments node) : segments ≠ [] := by
  cases h <;> simp

theorem findNode (h : d.At segments node) : d.findNode segments = some node := by
  induction h with
  | here hn => simp [DirectoryOf.findNode, hn]
  | inside hn hrest ih => simp [DirectoryOf.findNode, hn, hrest.ne_nil, ih]

theorem ordinary (h : d.At segments node) (hd : (Node.directory d).Named) :
    ∀ n ∈ segments, Ordinary n := by
  induction h with
  | here hn =>
    intro k hk
    obtain rfl := List.mem_singleton.mp hk
    exact (name_of_named hd hn).2
  | inside hn _ ih =>
    intro k hk
    rcases List.mem_cons.mp hk with rfl | hk
    · exact (name_of_named hd hn).2
    · exact ih (named_child hd hn) k hk

theorem getLast_name (h : d.At segments node) (hd : (Node.directory d).Named) :
    segments.getLast? = some node.name := by
  induction h with
  | here hn => simp [(name_of_named hd hn).1]
  | inside hn hrest ih =>
    rw [List.getLast?_cons_of_ne_nil hrest.ne_nil]
    exact ih (named_child hd hn)

end DirectoryOf.At

theorem foldl_walk_ordinary {items : List Str} (h : ∀ n ∈ items, Ordinary n)
    (segments : List Str) : items.foldl walk segments = segments ++ items := by
  induction items generalizing segments with
  | nil => simp
  | cons n items ih =>
    obtain ⟨hn, hitems⟩ := List.forall_mem_cons.mp h
    rw [List.foldl_cons, walk_of_ne hn.token.1 hn.dot hn.dots, ih hitems, List.append_assoc]
    rfl

theorem resolvePath_absolute {segments : List Str} (hne : segments ≠ [])
    (h : ∀ n ∈ segments, Ordinary n) (cwd : List Str) :
    resolvePath cwd (absolute segments) = segments := by
  have hsplit := split_absolute hne fun n hn => (h n hn).slash
  have hhead : (absolute segments).head? = some '/' := rfl
  rw [resolvePath, hsplit, if_pos hhead, List.foldl_cons, walk_nil]
  exact foldl_walk_ordinary h []

end AliluOS.Fs
