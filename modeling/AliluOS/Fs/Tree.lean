import AliluOS.Text.Str
import Mathlib.Order.Lex
import Mathlib.Data.List.Lex
import Std.Data.TreeMap.Raw.Lemmas
import Std.Data.TreeMap.Raw.WF

/-! The in-memory filesystem (`fs.rs`): directories as sorted maps from names to
nodes. -/

namespace AliluOS.Fs
open Text

structure FileNode where
  name : Str
  content : Str
  createdAt : Nat

structure DirectoryOf (ν : Type) where
  name : Str
  children : Std.TreeMap.Raw Str ν compare
  createdAt : Nat

inductive Node
  | file (f : FileNode)
  | directory (d : DirectoryOf Node)

abbrev DirectoryNode := DirectoryOf Node

def Node.isDirectory : Node → Bool
  | .file _ => false
  | .directory _ => true

inductive Node.Ordered : Node → Prop
  | file (f : FileNode) : Ordered (.file f)
  | directory (d : DirectoryNode) : d.children.WF →
      (∀ (n : Str) (node : Node), d.children[n]? = some node → Ordered node) →
      Ordered (.directory d)

/-- `&mut α` into a `β`: what it points to, and the `β` after a write through it. -/
structure RefMut (α β : Type) where
  get : α
  set : α → β

def RefMut.directory? {β : Type} (r : RefMut Node β) : Option (RefMut DirectoryNode β) :=
  match r.get with
  | .directory d => some ⟨d, fun d => r.set (.directory d)⟩
  | .file _ => none

namespace DirectoryOf

def new (name : Str) (ticks : Nat) : DirectoryNode := ⟨name, ∅, ticks⟩

def insert (d : DirectoryNode) (name : Str) (node : Node) : DirectoryNode :=
  { d with children := d.children.insert name node }

def remove (d : DirectoryNode) (name : Str) : DirectoryNode :=
  { d with children := d.children.erase name }

def findNode : DirectoryNode → List Str → Option Node
  | _, [] => none
  | dir, nextSegment :: rest =>
    match dir.children[nextSegment]? with
    | none => none
    | some child =>
      if rest.isEmpty then some child
      else
        match child with
        | .directory dir => findNode dir rest
        | .file _ => none

def findNodeMut : DirectoryNode → List Str → Option (RefMut Node DirectoryNode)
  | _, [] => none
  | dir, nextSegment :: rest =>
    match dir.children[nextSegment]? with
    | none => none
    | some child =>
      if rest.isEmpty then some ⟨child, dir.insert nextSegment⟩
      else
        match child with
        | .directory sub =>
          (findNodeMut sub rest).map fun r =>
            ⟨r.get, fun node => dir.insert nextSegment (.directory (r.set node))⟩
        | .file _ => none

end DirectoryOf

/-- The tree, with the promise of `BTreeMap` that its maps are sorted. -/
structure FileSystem where
  root : DirectoryNode
  ordered : (Node.directory root).Ordered

/-- One round of the loop of `resolve_path`. -/
def walk (segments : List Str) (item : Str) : List Str :=
  if item.isEmpty ∨ item = ".".toList then segments
  else if item = "..".toList then segments.dropLast
  else segments ++ [item]

def resolvePath (cwd : List Str) (path : Str) : List Str :=
  (split '/' path).foldl walk (if path.head? = some '/' then [] else cwd)

@[simp] theorem walk_nil (segments : List Str) : walk segments [] = segments := rfl

theorem walk_of_ne {segments : List Str} {item : Str} (hne : item ≠ []) (hdot : item ≠ ".".toList)
    (hdots : item ≠ "..".toList) : walk segments item = segments ++ [item] := by
  have hplain : ¬ (item.isEmpty ∨ item = ".".toList) := by
    rw [List.isEmpty_iff, not_or]
    exact ⟨hne, hdot⟩
  rw [walk, if_neg hplain, if_neg hdots]

theorem forall_resolvePath {Q : Str → Prop} {cwd : List Str} {path : Str} (hcwd : ∀ n ∈ cwd, Q n)
    (hpath : ∀ item ∈ split '/' path, item ≠ [] → item ≠ ".".toList → item ≠ "..".toList →
      Q item) : ∀ n ∈ resolvePath cwd path, Q n := by
  rw [resolvePath]
  have hstart : ∀ n ∈ (if path.head? = some '/' then [] else cwd), Q n := by
    split_ifs
    · simp
    · exact hcwd
  revert hstart
  generalize (if path.head? = some '/' then [] else cwd) = segments
  generalize split '/' path = items at hpath
  induction items generalizing segments with
  | nil => exact id
  | cons item items ih =>
    intro hsegments
    obtain ⟨hitem, hitems⟩ := List.forall_mem_cons.mp hpath
    apply ih _ hitems
    unfold walk
    split_ifs with hskip hup
    · exact hsegments
    · exact fun n hmem => hsegments n (List.dropLast_subset _ hmem)
    · intro n hmem
      rcases List.mem_append.mp hmem with hmem | hmem
      · exact hsegments n hmem
      · obtain rfl := List.mem_singleton.mp hmem
        exact hitem (fun hnil => hskip (.inl (by simp [hnil]))) (fun hdot => hskip (.inr hdot)) hup

def splitParentAndName (resolved : List Str) : List Str × Str :=
  if resolved.isEmpty then ([], []) else (resolved.dropLast, resolved.getLast?.getD [])

theorem eq_of_splitParentAndName {resolved parent : List Str} {name : Str}
    (h : splitParentAndName resolved = (parent, name)) (hname : name ≠ []) :
    resolved = parent ++ [name] := by
  rcases List.eq_nil_or_concat resolved with rfl | ⟨init, last, rfl⟩
  · obtain ⟨-, rfl⟩ := Prod.mk.inj h
    exact absurd rfl hname
  · simp only [splitParentAndName, List.concat_eq_append] at h
    simpa using h

namespace FileSystem

def findDirectory (fs : FileSystem) (segments : List Str) : Option DirectoryNode :=
  if segments.isEmpty then some fs.root
  else
    match fs.root.findNode segments with
    | some (.directory dir) => some dir
    | _ => none

def findDirectoryMut (fs : FileSystem) (segments : List Str) :
    Option (RefMut DirectoryNode DirectoryNode) :=
  if segments.isEmpty then some ⟨fs.root, id⟩
  else (fs.root.findNodeMut segments).bind RefMut.directory?

end FileSystem

namespace DirectoryOf

def dirAt : DirectoryNode → List Str → Option DirectoryNode
  | d, [] => some d
  | d, n :: rest =>
    match d.children[n]? with
    | some (.directory sub) => dirAt sub rest
    | _ => none

def putDir (new : DirectoryNode) : DirectoryNode → List Str → DirectoryNode
  | _, [] => new
  | d, n :: rest =>
    match d.children[n]? with
    | some (.directory sub) => d.insert n (.directory (putDir new sub rest))
    | _ => d

theorem dirAt_cons {d sub : DirectoryNode} {n : Str} {rest : List Str}
    (h : d.dirAt (n :: rest) = some sub) :
    ∃ child, d.children[n]? = some (.directory child) ∧ child.dirAt rest = some sub ∧
      ∀ new, putDir new d (n :: rest) = d.insert n (.directory (putDir new child rest)) := by
  unfold dirAt at h
  rcases hn : d.children[n]? with _ | ⟨f⟩ | ⟨child⟩ <;> rw [hn] at h
  · cases h
  · cases h
  · exact ⟨child, rfl, h, fun new => by simp [putDir, hn]⟩

theorem findNode_cons (d : DirectoryNode) (n : Str) (rest : List Str) :
    (match d.findNode (n :: rest) with
      | some (.directory dir) => some dir
      | _ => none) = d.dirAt (n :: rest) := by
  induction rest generalizing d n with
  | nil =>
    unfold findNode dirAt
    rcases d.children[n]? with _ | ⟨f⟩ | ⟨sub⟩ <;> rfl
  | cons m rest ih =>
    unfold findNode dirAt
    rcases d.children[n]? with _ | ⟨f⟩ | ⟨sub⟩
    · rfl
    · rfl
    · exact ih sub m

theorem findNodeMut_cons (d : DirectoryNode) (n : Str) (rest : List Str) :
    (d.findNodeMut (n :: rest)).bind RefMut.directory? =
      (d.dirAt (n :: rest)).map fun dir => ⟨dir, fun new => putDir new d (n :: rest)⟩ := by
  induction rest generalizing d n with
  | nil =>
    unfold findNodeMut dirAt
    rcases h : d.children[n]? with _ | ⟨f⟩ | ⟨sub⟩
    · rfl
    · rfl
    · simp [dirAt, putDir, h, RefMut.directory?]
  | cons m rest ih =>
    unfold findNodeMut dirAt
    rcases h : d.children[n]? with _ | ⟨f⟩ | ⟨sub⟩
    · rfl
    · rfl
    · simp only [List.isEmpty_cons, Bool.false_eq_true, if_false]
      let lift (r : RefMut DirectoryNode DirectoryNode) : RefMut DirectoryNode DirectoryNode :=
        ⟨r.get, fun new => d.insert n (.directory (r.set new))⟩
      have hlift : ∀ r : RefMut Node DirectoryNode,
          RefMut.directory? ⟨r.get, fun node => d.insert n (.directory (r.set node))⟩ =
            r.directory?.map lift := by
        rintro ⟨⟨f⟩ | ⟨dir⟩, set⟩ <;> rfl
      rw [Option.bind_map]
      calc
        _ = (sub.findNodeMut (m :: rest)).bind fun r => r.directory?.map lift := by
          simp only [Function.comp_def, hlift]
        _ = ((sub.findNodeMut (m :: rest)).bind RefMut.directory?).map lift := Option.map_bind.symm
        _ = _ := by
          rw [ih, Option.map_map]
          simp [Function.comp_def, lift, putDir, h]

end DirectoryOf

end AliluOS.Fs
