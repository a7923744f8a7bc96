import SandboxVfs.Library.NameGraph
import SandboxVfs.Filesystem

/-! `MemoryFS`: the namespace of `impls/memory.rs`. An `Arc<Node>` is the id of its
node, which `NEXT_NODE_ID` hands out once; what the node holds is in `heap`,
also after the node has left the node map. -/

namespace SandboxVfs

open NameGraph

abbrev NodeId := Nat
abbrev Entries := Std.ExtTreeMap FileName NodeId compare

inductive NodeKind where
  | file (backingFd : Int)
  | directory (entries : Entries) (placeholderFd : Int)

structure Node where
  id : NodeId
  parent : Option NodeId
  mode : Mode
  links : Nat
  kind : NodeKind

def NodeKind.backingFd : NodeKind → Int
  | .file fd => fd
  | .directory _ fd => fd

def NodeKind.entries? : NodeKind → Option Entries
  | .file _ => none
  | .directory es _ => some es

/-- What the kernel answers to the `n`-th call that asks for a descriptor while
`live` are in use: an unused number, or a negative one for failure. `fstat` is
what it reports of a backing file. -/
structure Kernel where
  answer : Nat → Finset Int → Int
  answer_fresh : ∀ n live, 0 ≤ answer n live → answer n live ∉ live
  fstat : Nat → Int → Stat

def Kernel.lowest : Kernel where
  answer _ live :=
    let unused : Option Nat := (List.range (live.card + 1)).find? fun n : Nat => (n : Int) ∉ live
    unused.elim (-1) fun n => n
  answer_fresh := by
    intro n live h
    dsimp only at h ⊢
    cases hf : (List.range (live.card + 1)).find? fun n : Nat => (n : Int) ∉ live with
    | none =>
      rw [hf] at h
      exact absurd h (by decide)
    | some m => simpa using List.find?_some hf
  fstat _ _ := {}

/-- The process-wide state that all file systems share. -/
structure Sys where
  kernel : Kernel
  calls : Nat
  live : Finset Int
  nextNodeId : NodeId

/-- `create_memfd` and the `openat` of `open_backing`, as far as they are visible. -/
def Sys.newFd (s : Sys) : Int × Sys :=
  let fd := s.kernel.answer s.calls s.live
  (fd, { s with calls := s.calls + 1, live := if 0 ≤ fd then insert fd s.live else s.live })

/-- `NEXT_NODE_ID.fetch_add(1)`. -/
def Sys.takeId (s : Sys) : Sys := { s with nextNodeId := s.nextNodeId + 1 }

def Sys.boot : Sys := { kernel := .lowest, calls := 0, live := {0, 1, 2}, nextNodeId := 1 }

structure MemoryFS where
  root : NodeId
  heap : NodeId → Option Node
  nodes : Finset NodeId

structure MemoryState where
  fs : MemoryFS
  sys : Sys

namespace MemoryFS

/-- `MemoryFS::new`. The answer of `create_memfd` is not looked at. -/
def new (sys : Sys) : MemoryState :=
  let id := sys.nextNodeId
  let made := sys.takeId.newFd
  let root : Node :=
    { id, parent := some id, mode := 0o755, links := 1, kind := .directory ∅ made.1 }
  ⟨{ root := id, heap := Function.update (fun _ => none) id (some root), nodes := {id} }, made.2⟩

variable (fs : MemoryFS)

def nodeFromMap (id : NodeId) : Option NodeId := if id ∈ fs.nodes then some id else none

def entriesOf (id : NodeId) : Option Entries := (fs.heap id).bind (·.kind.entries?)

def isDir (id : NodeId) : Bool := (fs.entriesOf id).isSome

def parentOf (id : NodeId) : Option NodeId := (fs.heap id).bind (·.parent)

/-- One round of the lookup loop: the entry's id, then the node map. -/
def edge : Edges NodeId FileName := fun d x =>
  (fs.entriesOf d).bind fun es => es[x]?.bind fs.nodeFromMap

def resolveNames (p : List FileName) : Option NodeId :=
  (fs.nodeFromMap fs.root).bind fun r => walk fs.edge r p

/-- `MemoryFS::resolve` and `resolve_from_root`, which have the same body. -/
def resolve (path : AbsPath) : Option NodeId := fs.resolveNames path.names

def resolveParent (path : AbsPath) : Option (NodeId × FileName) := do
  let parent ← fs.resolve (← path.parent)
  return (parent, ← path.fileName)

def setNode (id : NodeId) (f : Node → Node) : MemoryFS :=
  { fs with heap := Function.update fs.heap id ((fs.heap id).map f) }

def setEntries (id : NodeId) (es : Entries) : MemoryFS :=
  fs.setNode id fun n =>
    match n.kind with
    | .file _ => n
    | .directory _ fd => { n with kind := .directory es fd }

def setParent (id : NodeId) (parent : NodeId) : MemoryFS :=
  fs.setNode id fun n => { n with parent := some parent }

/-- The node loses its parent, its link and its place in the node map. -/
def dropNode (id : NodeId) : MemoryFS :=
  { fs.setNode id fun n => { n with parent := none, links := 0 } with
    nodes := fs.nodes.erase id }

def insertNode (n : Node) : MemoryFS :=
  { fs with heap := Function.update fs.heap n.id (some n), nodes := insert n.id fs.nodes }

def newNode (id parent : NodeId) (kind : VfsEntryKind) (mode : Mode) (fd : Int) : Node :=
  { id, parent := some parent, mode := mode &&& 0o7777, links := 1,
    kind := match kind with
      | .file => .file fd
      | .dir => .directory ∅ fd }

/-- An id is used up also when no backing file can be made for it. -/
def createNodeInDir (m : MemoryState) (parent : NodeId) (name : FileName)
    (kind : VfsEntryKind) (mode : Mode) : Option NodeId × MemoryState :=
  match m.fs.entriesOf parent with
  | none => (none, m)
  | some entries =>
    if name ∈ entries then (none, m)
    else
      let id := m.sys.nextNodeId
      let made := m.sys.takeId.newFd
      if made.1 < 0 then (none, ⟨m.fs, made.2⟩)
      else
        (some id,
          ⟨(m.fs.insertNode (newNode id parent kind mode made.1)).setEntries parent
            (entries.insert name id), made.2⟩)

def createNode (m : MemoryState) (path : AbsPath) (kind : VfsEntryKind) (mode : Mode) :
    Option NodeId × MemoryState :=
  match m.fs.resolveParent path with
  | none => (none, m)
  | some (parent, name) => createNodeInDir m parent name kind mode

def kindMatches (id : NodeId) : VfsEntryKind → Bool
  | .file => !fs.isDir id
  | .dir => (fs.entriesOf id).any (·.isEmpty)

/-- `remove_node_at` in the parent it has found. A dangling entry is dropped although
the call fails. -/
def removeEntry (parent : NodeId) (name : FileName) (kind : VfsEntryKind) : Int × MemoryFS :=
  match fs.entriesOf parent with
  | none => (-1, fs)
  | some entries =>
    match entries[name]? with
    | none => (-1, fs)
    | some id =>
      match fs.nodeFromMap id with
      | none => (-1, fs.setEntries parent (entries.erase name))
      | some node =>
        if fs.kindMatches node kind then
          (0, (fs.setEntries parent (entries.erase name)).dropNode node)
        else (-1, fs)

def removeNodeAt (path : AbsPath) (kind : VfsEntryKind) : Int × MemoryFS :=
  if path.isRoot then (-1, fs)
  else
    match fs.resolveParent path with
    | none => (-1, fs)
    | some (parent, name) => fs.removeEntry parent name kind

def canReplaceNode (source destination : NodeId) : Bool :=
  if fs.isDir source then (fs.entriesOf destination).any (·.isEmpty)
  else !fs.isDir destination

/-- The node at the target of a rename inside one directory is dropped first. -/
def clearTarget (node : NodeId) : Option NodeId → Option MemoryFS
  | none => some fs
  | some replacedId => do
    let replaced ← fs.nodeFromMap replacedId
    if fs.canReplaceNode node replaced then some (fs.dropNode replaced) else none

/-- The branch of `rename_node_at` for one parent. `none` stands for -1. -/
def renameWithin (oldPath newPath : AbsPath) (parent : NodeId) (oldName newName : FileName)
    (entries : Entries) : Option MemoryFS := do
  let oldId ← entries[oldName]?
  let node ← fs.nodeFromMap oldId
  if fs.isDir node && newPath.startsWith oldPath then none
  else if entries[newName]? = some oldId then some fs
  else
    (fs.clearTarget node entries[newName]?).map fun fs' =>
      fs'.setEntries parent ((entries.erase oldName).insert newName oldId)

/-- The branch for two different parents: all checks, then the moves. -/
def renameAcross (oldPath newPath : AbsPath) (oldParent newParent : NodeId)
    (oldName newName : FileName) (oldEntries newEntries : Entries) : Option MemoryFS := do
  let oldId ← oldEntries[oldName]?
  let node ← fs.nodeFromMap oldId
  if fs.isDir node && newPath.startsWith oldPath then none
  else
    let moved := ((fs.setEntries oldParent (oldEntries.erase oldName)).setEntries newParent
      (newEntries.insert newName oldId))
    match newEntries[newName]? with
    | none => some (moved.setParent node newParent)
    | some replacedId =>
      if replacedId = oldId then some fs
      else do
        let replaced ← fs.nodeFromMap replacedId
        if fs.canReplaceNode node replaced then
          some ((moved.dropNode replaced).setParent node newParent)
        else none

def renameEntry (oldPath newPath : AbsPath) (old new : NodeId × FileName) :
    Option MemoryFS := do
  let oldEntries ← fs.entriesOf old.1
  let newEntries ← fs.entriesOf new.1
  if old.1 = new.1 then fs.renameWithin oldPath newPath old.1 old.2 new.2 oldEntries
  else fs.renameAcross oldPath newPath old.1 new.1 old.2 new.2 oldEntries newEntries

def renameNodeAt (oldPath newPath : AbsPath) : Option MemoryFS :=
  if oldPath.isRoot || newPath.isRoot then none
  else if oldPath.components = newPath.components then some fs
  else do
    let old ← fs.resolveParent oldPath
    let new ← fs.resolveParent newPath
    fs.renameEntry oldPath newPath old new

def chmod (path : AbsPath) (mode : Mode) : Option MemoryFS :=
  (fs.resolve path).map fun node => fs.setNode node fun n => { n with mode := mode &&& 0o7777 }

def stepRelative (node : NodeId) : Component → Option NodeId
  | .curDir => some node
  | .normal name => fs.edge node name
  | .parentDir => (fs.parentOf node).bind fs.nodeFromMap

def resolveRelative (start : NodeId) (path : RelPath) : Option NodeId :=
  path.components.foldlM fs.stepRelative start

def createRelativeNode (m : MemoryState) (start : NodeId) (path : RelPath)
    (kind : VfsEntryKind) (mode : Mode) : Option NodeId × MemoryState :=
  match path.parent, path.fileName with
  | some parentPath, some name =>
    match m.fs.resolveRelative start parentPath with
    | some parent => createNodeInDir m parent name kind mode
    | none => (none, m)
  | _, _ => (none, m)

def openFound (m : MemoryState) (node : NodeId) (flags : Flags) :
    OpenResult NodeId × MemoryState :=
  if flags.has O_DIRECTORY && !m.fs.isDir node then (⟨-1, none⟩, m)
  else
    let backing := m.sys.newFd
    (⟨backing.1, if backing.1 < 0 then none else some node⟩, ⟨m.fs, backing.2⟩)

def openResolvedNode (m : MemoryState) (existing : Option NodeId)
    (create : MemoryState → Option NodeId × MemoryState) (flags : Flags) :
    OpenResult NodeId × MemoryState :=
  match existing with
  | some node =>
    if flags &&& (O_CREAT ||| O_EXCL) == O_CREAT ||| O_EXCL then (⟨-1, none⟩, m)
    else openFound m node flags
  | none =>
    if flags.has O_CREAT then
      match create m with
      | (none, m) => (⟨-1, none⟩, m)
      | (some node, m) => openFound m node flags
    else (⟨-1, none⟩, m)

def openNode (m : MemoryState) (path : AbsPath) (flags : Flags) (mode : Mode) :
    OpenResult NodeId × MemoryState :=
  openResolvedNode m (m.fs.resolve path) (createNode · path .file mode) flags

def openNodeRelative (m : MemoryState) (start : NodeId) (path : RelPath) (flags : Flags)
    (mode : Mode) : OpenResult NodeId × MemoryState :=
  openResolvedNode m (m.fs.resolveRelative start path)
    (createRelativeNode · start path .file mode) flags

def entryKind (id : NodeId) : VfsEntryKind := if fs.isDir id then .dir else .file

/-- One entry whose node is missing makes the whole listing fail. -/
def readNodeDir (id : NodeId) : Option (List VfsDirEntry) := do
  let entries ← fs.entriesOf id
  entries.toList.mapM fun (name, child) => do
    let node ← fs.nodeFromMap child
    return { name := name.bytes, kind := fs.entryKind node, ino := some node }

def linkCount (n : Node) : Nat :=
  if n.links = 0 then 0
  else
    match n.kind with
    | .file _ => 1
    | .directory es _ => 2 + es.values.countP fun id => (fs.nodeFromMap id).any fs.isDir

def statNode (sys : Sys) (n : Node) : Stat :=
  let statbuf :=
    match n.kind with
    | .file fd => sys.kernel.fstat sys.calls fd
    | .directory _ _ => {}
  { statbuf with
    stMode := (match n.kind with
      | .file _ => S_IFREG
      | .directory _ _ => S_IFDIR) ||| n.mode
    stIno := n.id
    stNlink := fs.linkCount n
    stBlksize := 4096 }

end MemoryFS

/-- The world of the memory backends: every `Box<MemoryFS>` by its place, and the
shared state. -/
structure World (ι : Type) where
  fs : ι → MemoryFS
  sys : Sys

structure MemoryRef (ι : Type) where
  index : ι
  deriving DecidableEq, Repr

/-- The `Arc<Node>` of the opened node, and the file system whose node map it shares. -/
structure MemoryOpenedFile (ι : Type) where
  nodes : MemoryRef ι
  node : NodeId
  deriving DecidableEq, Repr

variable {ι : Type} [DecidableEq ι]

namespace World

def state (w : World ι) (f : MemoryRef ι) : MemoryState := ⟨w.fs f.index, w.sys⟩

def put (w : World ι) (f : MemoryRef ι) (m : MemoryState) : World ι :=
  { fs := Function.update w.fs f.index m.fs, sys := m.sys }

def putFs (w : World ι) (f : MemoryRef ι) (fs : MemoryFS) : World ι :=
  { w with fs := Function.update w.fs f.index fs }

end World

def createdStatus (r : Option NodeId) : Int := if r.isSome then 0 else -1

def openedFile (f : MemoryRef ι) (r : OpenResult NodeId) : OpenResult (MemoryOpenedFile ι) :=
  ⟨r.fd, r.opened.map (⟨f, ·⟩)⟩

instance : LowLevelFS (MemoryRef ι) (MemoryOpenedFile ι) (World ι) where
  access f w path _ := if ((w.fs f.index).resolve path).isSome then 0 else -1
  openWithHandle f w path flags mode :=
    let r := MemoryFS.openNode (w.state f) path flags mode
    (openedFile f r.1, w.put f r.2)
  mkdir f w path mode :=
    let r := MemoryFS.createNode (w.state f) path .dir mode
    (createdStatus r.1, w.put f r.2)
  unlink f w path :=
    let r := (w.fs f.index).removeNodeAt path .file
    (r.1, w.putFs f r.2)
  rmdir f w path :=
    let r := (w.fs f.index).removeNodeAt path .dir
    (r.1, w.putFs f r.2)
  rename f w oldPath newPath :=
    match (w.fs f.index).renameNodeAt oldPath newPath with
    | none => (-1, w)
    | some fs => (0, w.putFs f fs)
  chmod f w path mode :=
    match (w.fs f.index).chmod path mode with
    | none => (-1, w)
    | some fs => (0, w.putFs f fs)
  stat f w path := do
    let node ← (w.fs f.index).resolve path
    return (w.fs f.index).statNode w.sys (← (w.fs f.index).heap node)
  readDir f w path := ((w.fs f.index).resolve path).bind (w.fs f.index).readNodeDir

/-- Absolute paths are left to the lookup by path. -/
instance : OpenedFile (MemoryOpenedFile ι) (World ι) where
  stat h w :=
    match (w.fs h.nodes.index).heap h.node with
    | none => {}
    | some n => (w.fs h.nodes.index).statNode w.sys n
  openChild h w path flags mode :=
    match path with
    | .abs _ => none
    | .rel path =>
      let r := MemoryFS.openNodeRelative (w.state h.nodes) h.node path flags mode
      some (openedFile h.nodes r.1, w.put h.nodes r.2)
  mkdirChild h w path mode :=
    match path with
    | .abs _ => none
    | .rel path =>
      let r := MemoryFS.createRelativeNode (w.state h.nodes) h.node path .dir mode
      some (createdStatus r.1, w.put h.nodes r.2)
  readDir h w := (w.fs h.nodes.index).readNodeDir h.node

end SandboxVfs
