import SandboxVfs.Library.LockedPrograms
import SandboxVfs.BackendSteps
import SandboxVfs.LockedActs

/-! The calls of a `MemoryFS` lock by lock, for threads that share it. What a thread does
between two locks is one action. An `Arc<Node>` that a call keeps is the id of its node. -/

namespace SandboxVfs

open LockedPrograms

namespace MemoryFS

/-- What a call did to the namespace, for its caller to rely on. -/
inductive Effect where
  | unchanged
  | created (d : NodeId) (x : FileName) (n : NodeId)
  | removed (c : NodeId)
  | moved (c b : NodeId) (y : FileName) (replaced : Option NodeId)
  deriving DecidableEq, Repr

namespace Locked

abbrev Prog (α : Type) := LockedPrograms.Prog Lock Act MemoryState α

variable {α : Type}

/-- Something that no lock protects, as the kind of a node, or whose lock is held. -/
def look (f : MemoryState → α) : Prog α := .act .look fun m => .done (f m)

def perform (a : Act) : Prog Unit := .act a fun _ => .done ()

def reading (l : Lock) (f : MemoryState → α) : Prog α := .holding l false (look f)

def writing (l : Lock) (a : Act) : Prog Unit := .holding l true (perform a)

def isDir (id : NodeId) : Prog Bool := look (·.fs.isDir id)

def nodeFromMap (id : NodeId) : Prog (Option NodeId) := reading .nodes (·.fs.nodeFromMap id)

def isEmpty (id : NodeId) : Prog Bool :=
  reading (.entries id) fun m => (m.fs.entriesOf id).any (·.isEmpty)

/-- The entry, if the node is a directory, and then the node map. -/
def child (node : NodeId) (name : FileName) : Prog (Option NodeId) := do
  if ← isDir node then
    (reading (.entries node) (·.fs.entryAt node name)).bindSome nodeFromMap
  else pure none

def resolveNames (node : NodeId) : List FileName → Prog (Option NodeId)
  | [] => pure (some node)
  | name :: rest => (child node name).bindSome fun node => resolveNames node rest

def resolve (path : AbsPath) : Prog (Option NodeId) := do
  let root ← look (·.fs.root)
  (nodeFromMap root).bindSome fun node => resolveNames node path.names

def resolveParent (path : AbsPath) : Prog (Option (NodeId × FileName)) :=
  path.parent.elim (pure none) fun parent =>
    (resolve parent).bindSome fun node => pure (path.fileName.map (node, ·))

def stepRelative (node : NodeId) : Component → Prog (Option NodeId)
  | .curDir => pure (some node)
  | .normal name => child node name
  | .parentDir => (reading (.parent node) (·.fs.parentOf node)).bindSome nodeFromMap

def resolveComponents (node : NodeId) : List Component → Prog (Option NodeId)
  | [] => pure (some node)
  | c :: rest => (stepRelative node c).bindSome fun node => resolveComponents node rest

def resolveRelative (start : NodeId) (path : RelPath) : Prog (Option NodeId) :=
  resolveComponents start path.components

def create (parent : NodeId) (kind : VfsEntryKind) (mode : Mode) : Prog (Option NodeId) :=
  .act (.create parent kind mode) fun m =>
    .done (if m.sys.takeId.newFd.1 < 0 then none else some m.sys.nextNodeId)

def createNodeInDir (parent : NodeId) (name : FileName) (kind : VfsEntryKind) (mode : Mode) :
    Prog (Option NodeId) := do
  if ← isDir parent then
    .holding (.entries parent) true do
      if ← look (fun m => (m.fs.entryAt parent name).isSome) then pure none
      else
        (create parent kind mode).bindSome fun id => do
          writing .nodes (.mapInsert id)
          perform (.entryInsert parent name id)
          pure (some id)
  else pure none

/-- The new node and where it has its entry. -/
def createEntry (parent : NodeId) (name : FileName) (kind : VfsEntryKind) (mode : Mode) :
    Prog (Option (NodeId × Effect)) :=
  (createNodeInDir parent name kind mode).bindSome fun id =>
    pure (some (id, .created parent name id))

def createNode (path : AbsPath) (kind : VfsEntryKind) (mode : Mode) :
    Prog (Option (NodeId × Effect)) :=
  (resolveParent path).bindSome fun t => createEntry t.1 t.2 kind mode

def createRelativeNode (start : NodeId) (path : RelPath) (kind : VfsEntryKind) (mode : Mode) :
    Prog (Option (NodeId × Effect)) :=
  path.parent.elim (pure none) fun parentPath =>
    path.fileName.elim (pure none) fun name =>
      (resolveRelative start parentPath).bindSome fun parent => createEntry parent name kind mode

/-- The node loses its parent, its link and its place in the map, each under its own lock. -/
def dropNode (id : NodeId) : Prog Unit := do
  writing (.parent id) (.setParent id none)
  writing (.links id) (.clearLinks id)
  writing .nodes (.mapRemove id)

def kindMatches (id : NodeId) : VfsEntryKind → Prog Bool
  | .file => do return !(← isDir id)
  | .dir => do if ← isDir id then isEmpty id else return false

def removeEntry (parent : NodeId) (name : FileName) (kind : VfsEntryKind) :
    Prog (Option Effect) := do
  if ← isDir parent then
    .holding (.entries parent) true <|
      (look (·.fs.entryAt parent name)).bindSome fun id => do
        let node? ← nodeFromMap id
        node?.elim
          (do
            perform (.entryRemove parent name none)
            pure none)
          fun node => do
            if ← kindMatches node kind then
              perform (.entryRemove parent name (some node))
              dropNode node
              pure (some (.removed node))
            else pure none
  else pure none

def removeNodeAt (path : AbsPath) (kind : VfsEntryKind) : Prog (Option Effect) :=
  if path.isRoot then pure none
  else (resolveParent path).bindSome fun t => removeEntry t.1 t.2 kind

def canReplaceNode (source destination : NodeId) : Prog Bool := do
  if ← isDir source then
    if ← isDir destination then isEmpty destination else return false
  else return !(← isDir destination)

def clearTarget (node : NodeId) (replacedId : Option NodeId) : Prog (Option Unit) :=
  replacedId.elim (pure (some ())) fun id =>
    (nodeFromMap id).bindSome fun replaced => do
      if ← canReplaceNode node replaced then
        dropNode replaced
        pure (some ())
      else pure none

def renameWithin (oldPath newPath : AbsPath) (parent : NodeId) (oldName newName : FileName) :
    Prog (Option Effect) :=
  .holding (.entries parent) true <|
    (look (·.fs.entryAt parent oldName)).bindSome fun oldId =>
      (nodeFromMap oldId).bindSome fun node => do
        if (← isDir node) && newPath.startsWith oldPath then pure none
        else
          let there ← look (·.fs.entryAt parent newName)
          if there = some oldId then pure (some (.moved oldId parent newName none))
          else
            (clearTarget node there).bindSome fun _ => do
              perform (.entryRemove parent oldName (some oldId))
              perform (.entryInsert parent newName oldId)
              pure (some (.moved oldId parent newName there))

def attach (node newParent : NodeId) (newName : FileName) : Prog (Option NodeId) :=
  .holding (.entries newParent) true do
    let there ← .act (.entryInsert newParent newName node) fun m =>
      .done (m.fs.entryAt newParent newName)
    there.elim (pure ()) fun replacedId => do
      let replaced? ← nodeFromMap replacedId
      replaced?.elim (pure ()) fun replaced => do
        writing (.parent replaced) (.setParent replaced none)
        writing (.links replaced) (.clearLinks replaced)
      writing .nodes (.mapRemove replacedId)
    writing (.parent node) (.setParent node (some newParent))
    pure there

/-- The moves of a rename between two directories: the first lock is given back before the
second one is taken. -/
def move (oldParent newParent : NodeId) (oldName newName : FileName) (node : NodeId) :
    Prog (Option Effect) := do
  writing (.entries oldParent) (.entryRemove oldParent oldName (some node))
  let replaced ← attach node newParent newName
  pure (some (.moved node newParent newName replaced))

def renameAcross (oldPath newPath : AbsPath) (oldParent newParent : NodeId)
    (oldName newName : FileName) : Prog (Option Effect) :=
  (reading (.entries oldParent) (·.fs.entryAt oldParent oldName)).bindSome fun oldId =>
    (nodeFromMap oldId).bindSome fun node => do
      if (← isDir node) && newPath.startsWith oldPath then pure none
      else
        let there ← reading (.entries newParent) (·.fs.entryAt newParent newName)
        there.elim (move oldParent newParent oldName newName node) fun replacedId =>
          if replacedId = oldId then pure (some (.moved oldId newParent newName none))
          else
            (nodeFromMap replacedId).bindSome fun replaced => do
              if ← canReplaceNode node replaced then
                move oldParent newParent oldName newName node
              else pure none

def renameNodeAt (oldPath newPath : AbsPath) : Prog (Option Effect) :=
  if oldPath.isRoot || newPath.isRoot then pure none
  else if oldPath.components = newPath.components then pure (some .unchanged)
  else
    (resolveParent oldPath).bindSome fun old =>
      (resolveParent newPath).bindSome fun new => do
        if (← isDir old.1) && (← isDir new.1) then
          if old.1 = new.1 then renameWithin oldPath newPath old.1 old.2 new.2
          else renameAcross oldPath newPath old.1 new.1 old.2 new.2
        else pure none

def chmod (path : AbsPath) (mode : Mode) : Prog (Option Unit) :=
  (resolve path).bindSome fun node => do
    writing (.mode node) (.setMode node mode)
    pure (some ())

def openFound (node : NodeId) (flags : Flags) : Prog (OpenResult NodeId) := do
  let dir ← isDir node
  if flags.has O_DIRECTORY && !dir then return ⟨-1, none⟩
  else
    .act .openBacking fun m =>
      .done ⟨m.sys.newFd.1, if m.sys.newFd.1 < 0 then none else some node⟩

def openResolvedNode (existing : Option NodeId) (create : Prog (Option (NodeId × Effect)))
    (flags : Flags) : Prog (OpenResult NodeId × Effect) :=
  existing.elim
    (if flags.has O_CREAT then do
      let made ← create
      made.elim (pure (⟨-1, none⟩, .unchanged)) fun t => do
        let r ← openFound t.1 flags
        pure (r, t.2)
    else pure (⟨-1, none⟩, .unchanged))
    fun node =>
      if flags &&& (O_CREAT ||| O_EXCL) == O_CREAT ||| O_EXCL then pure (⟨-1, none⟩, .unchanged)
      else do
        let r ← openFound node flags
        pure (r, .unchanged)

def openNode (path : AbsPath) (flags : Flags) (mode : Mode) :
    Prog (OpenResult NodeId × Effect) := do
  let existing ← resolve path
  openResolvedNode existing (createNode path .file mode) flags

def openNodeRelative (start : NodeId) (path : RelPath) (flags : Flags) (mode : Mode) :
    Prog (OpenResult NodeId × Effect) := do
  let existing ← resolveRelative start path
  openResolvedNode existing (createRelativeNode start path .file mode) flags

def countDirs : List NodeId → Prog Nat
  | [] => pure 0
  | id :: rest => do
    let node? ← nodeFromMap id
    let dir ← node?.elim (pure false) isDir
    let n ← countDirs rest
    return if dir then n + 1 else n

def linkCount (id : NodeId) : Prog Nat := do
  let links ← reading (.links id) fun m => (m.fs.heap id).elim 0 (·.links)
  if links = 0 then return 0
  else if ← isDir id then
    .holding (.entries id) false do
      let es ← look (·.fs.entriesOf id)
      return 2 + (← countDirs (es.elim [] (·.values)))
  else return 1

def statNode (id : NodeId) : Prog Stat := do
  let dir ← isDir id
  let statbuf ← look fun m => (m.fs.heap id).elim {} fun n =>
    if dir then {} else m.sys.kernel.fstat m.sys.calls n.kind.backingFd
  let mode ← reading (.mode id) fun m => (m.fs.heap id).elim 0 (·.mode)
  let links ← linkCount id
  return { statbuf with
    stMode := (if dir then S_IFDIR else S_IFREG) ||| mode
    stIno := id
    stNlink := links
    stBlksize := 4096 }

def listEntries : List (FileName × NodeId) → Prog (Option (List VfsDirEntry))
  | [] => pure (some [])
  | (name, id) :: rest =>
    (nodeFromMap id).bindSome fun node => do
      let kind ← look (·.fs.entryKind node)
      (listEntries rest).bindSome fun es =>
        pure (some ({ name := name.bytes, kind, ino := some node } :: es))

def readNodeDir (id : NodeId) : Prog (Option (List VfsDirEntry)) := do
  if ← isDir id then
    .holding (.entries id) false do
      let es ← look (·.fs.entriesOf id)
      listEntries (es.elim [] (·.toList))
  else pure none

section

variable {m : MemoryState}

@[simp] theorem alone_look (f : MemoryState → α) (m : MemoryState) :
    (look f).alone Act.apply m = (f m, m) := rfl

@[simp] theorem alone_perform (a : Act) (m : MemoryState) :
    (perform a).alone Act.apply m = ((), a.apply m) := rfl

@[simp] theorem alone_reading (l : Lock) (f : MemoryState → α) (m : MemoryState) :
    (reading l f).alone Act.apply m = (f m, m) := by
  rw [reading, Prog.alone_holding]
  rfl

@[simp] theorem alone_writing (l : Lock) (a : Act) (m : MemoryState) :
    (writing l a).alone Act.apply m = ((), a.apply m) := by
  rw [writing, Prog.alone_holding]
  rfl

@[simp] theorem alone_isDir (id : NodeId) (m : MemoryState) :
    (isDir id).alone Act.apply m = (m.fs.isDir id, m) := rfl

@[simp] theorem alone_nodeFromMap (id : NodeId) (m : MemoryState) :
    (nodeFromMap id).alone Act.apply m = (m.fs.nodeFromMap id, m) := alone_reading _ _ m

@[simp] theorem alone_isEmpty (id : NodeId) (m : MemoryState) :
    (isEmpty id).alone Act.apply m = ((m.fs.entriesOf id).any (·.isEmpty), m) :=
  alone_reading _ _ m

theorem alone_child (node : NodeId) (name : FileName) (m : MemoryState) :
    (child node name).alone Act.apply m = (m.fs.edge node name, m) := by
  rw [child, Prog.alone_bind, alone_isDir, edge_eq]
  cases hd : m.fs.isDir node with
  | false =>
    cases he : m.fs.entryAt node name with
    | none => rfl
    | some c => exact absurd (entryAt_isDir he) (by simp [hd])
  | true =>
    dsimp only
    rw [if_pos rfl, Prog.alone_bindSome, alone_reading]
    cases m.fs.entryAt node name with
    | none => rfl
    | some c => exact alone_nodeFromMap c m

theorem alone_resolveNames (node : NodeId) (p : List FileName) (m : MemoryState) :
    (resolveNames node p).alone Act.apply m = (NameGraph.walk m.fs.edge node p, m) := by
  induction p generalizing node with
  | nil => rfl
  | cons x p ih =>
    rw [resolveNames, Prog.alone_bindSome, alone_child, NameGraph.walk]
    cases m.fs.edge node x with
    | none => rfl
    | some c => exact ih c

@[simp] theorem alone_resolve (path : AbsPath) (m : MemoryState) :
    (resolve path).alone Act.apply m = (m.fs.resolve path, m) := by
  rw [resolve, Prog.alone_bind, alone_look, Prog.alone_bindSome, alone_nodeFromMap]
  unfold MemoryFS.resolve MemoryFS.resolveNames
  cases m.fs.nodeFromMap m.fs.root with
  | none => rfl
  | some r => exact alone_resolveNames r path.names m

@[simp] theorem alone_resolveParent (path : AbsPath) (m : MemoryState) :
    (resolveParent path).alone Act.apply m = (m.fs.resolveParent path, m) := by
  unfold resolveParent MemoryFS.resolveParent
  cases path.parent with
  | none => rfl
  | some parent =>
    rw [Option.elim_some, Prog.alone_bindSome, alone_resolve]
    cases hr : m.fs.resolve parent with
    | none => simp [hr]
    | some d => cases path.fileName <;> simp [hr]

theorem alone_stepRelative (node : NodeId) (c : Component) (m : MemoryState) :
    (stepRelative node c).alone Act.apply m = (m.fs.stepRelative node c, m) := by
  cases c with
  | curDir => rfl
  | normal name => exact alone_child node name m
  | parentDir =>
    rw [stepRelative, Prog.alone_bindSome, alone_reading, MemoryFS.stepRelative]
    cases m.fs.parentOf node with
    | none => rfl
    | some d => exact alone_nodeFromMap d m

@[simp] theorem alone_resolveRelative (start : NodeId) (path : RelPath) (m : MemoryState) :
    (resolveRelative start path).alone Act.apply m = (m.fs.resolveRelative start path, m) := by
  unfold resolveRelative MemoryFS.resolveRelative
  induction path.components generalizing start with
  | nil => rfl
  | cons c cs ih =>
    rw [resolveComponents, Prog.alone_bindSome, alone_stepRelative, List.foldlM_cons]
    cases m.fs.stepRelative start c with
    | none => rfl
    | some d => exact ih d

theorem insertEntry_newNode {fs : MemoryFS} {next parent : NodeId} (hw : fs.WF next)
    {es : Entries} (he : fs.entriesOf parent = some es) (name : FileName) (kind : VfsEntryKind)
    (mode : Mode) (fd : Int) :
    (fs.insertNode (newNode next parent kind mode fd)).insertEntry parent name next =
      (fs.insertNode (newNode next parent kind mode fd)).setEntries parent
        (es.insert name next) := by
  have hne : parent ≠ (newNode next parent kind mode fd).id := by
    intro hh
    have hnone : fs.heap parent = none := by
      rw [← inodeOf_eq_none]
      exact hw.heap_fresh (le_of_eq hh.symm)
    simp [entriesOf, hnone] at he
  have he' : (fs.insertNode (newNode next parent kind mode fd)).entriesOf parent = some es := by
    rw [entriesOf, heap_insertNode, if_neg hne]
    exact he
  simp [insertEntry, he']

theorem alone_createNodeInDir (hw : m.fs.WF m.sys.nextNodeId) (parent : NodeId)
    (name : FileName) (kind : VfsEntryKind) (mode : Mode) :
    (createNodeInDir parent name kind mode).alone Act.apply m =
      MemoryFS.createNodeInDir m parent name kind mode := by
  rw [createNodeInDir, Prog.alone_bind, alone_isDir]
  unfold MemoryFS.createNodeInDir
  cases he : m.fs.entriesOf parent with
  | none => simp [MemoryFS.isDir, he]
  | some es =>
    have hdir : m.fs.isDir parent = true := isDir_iff_entries.mpr ⟨es, he⟩
    have hx : (m.fs.entryAt parent name).isSome = true ↔ name ∈ es := by
      simp [entryAt_of_entriesOf he]
    dsimp only
    rw [if_pos hdir, Prog.alone_holding, Prog.alone_bind, alone_look]
    by_cases hn : name ∈ es
    · simp [hx.mpr hn, hn]
    · simp only [hx, hn, if_false, Prog.alone_bindSome, create, Prog.alone, Act.apply]
      by_cases hfd : m.sys.takeId.newFd.1 < 0
      · simp [hfd]
      · simp only [hfd, if_false, Option.elim_some, Prog.alone_bind, alone_writing, alone_perform,
          Prog.alone_pure, Act.apply]
        rw [← insertEntry_newNode hw he]
        rfl

theorem alone_createEntry (hw : m.fs.WF m.sys.nextNodeId) (parent : NodeId) (name : FileName)
    (kind : VfsEntryKind) (mode : Mode) :
    ((createEntry parent name kind mode).alone Act.apply m).map (Option.map Prod.fst) id =
      MemoryFS.createNodeInDir m parent name kind mode := by
  rw [createEntry, Prog.alone_bindSome, alone_createNodeInDir hw]
  cases h : MemoryFS.createNodeInDir m parent name kind mode with
  | mk made m' => cases made <;> rfl

theorem alone_createNode (hw : m.fs.WF m.sys.nextNodeId) (path : AbsPath) (kind : VfsEntryKind)
    (mode : Mode) :
    ((createNode path kind mode).alone Act.apply m).map (Option.map Prod.fst) id =
      MemoryFS.createNode m path kind mode := by
  rw [createNode, Prog.alone_bindSome, alone_resolveParent]
  unfold MemoryFS.createNode
  cases m.fs.resolveParent path with
  | none => rfl
  | some t => exact alone_createEntry hw t.1 t.2 kind mode

theorem alone_createRelativeNode (hw : m.fs.WF m.sys.nextNodeId) (start : NodeId)
    (path : RelPath) (kind : VfsEntryKind) (mode : Mode) :
    ((createRelativeNode start path kind mode).alone Act.apply m).map (Option.map Prod.fst) id =
      MemoryFS.createRelativeNode m start path kind mode := by
  unfold createRelativeNode MemoryFS.createRelativeNode
  cases path.parent with
  | none => rfl
  | some parentPath =>
    cases path.fileName with
    | none => rfl
    | some name =>
      rw [Option.elim_some, Option.elim_some, Prog.alone_bindSome, alone_resolveRelative]
      cases hr : m.fs.resolveRelative start parentPath with
      | none => simp [hr]
      | some d => simpa [hr] using alone_createEntry hw d name kind mode

theorem setNode_parent_links (fs : MemoryFS) (id : NodeId) :
    (fs.setNode id fun n => { n with parent := none }).setNode id
        (fun n => { n with links := 0 }) =
      fs.setNode id fun n => { n with parent := none, links := 0 } := by
  simp [setNode, Function.comp_def]

theorem alone_dropNode (id : NodeId) (m : MemoryState) :
    (dropNode id).alone Act.apply m = ((), ⟨m.fs.dropNode id, m.sys⟩) := by
  simp only [dropNode, Prog.alone_bind, alone_writing, Act.apply, setNode_parent_links]
  rfl

theorem alone_kindMatches (id : NodeId) (kind : VfsEntryKind) (m : MemoryState) :
    (kindMatches id kind).alone Act.apply m = (m.fs.kindMatches id kind, m) := by
  cases kind with
  | file => rfl
  | dir =>
    rw [kindMatches, Prog.alone_bind, alone_isDir]
    cases he : m.fs.entriesOf id <;> simp [MemoryFS.isDir, MemoryFS.kindMatches, he]

theorem alone_canReplaceNode (source destination : NodeId) (m : MemoryState) :
    (canReplaceNode source destination).alone Act.apply m =
      (m.fs.canReplaceNode source destination, m) := by
  rw [canReplaceNode, Prog.alone_bind, alone_isDir]
  unfold MemoryFS.canReplaceNode
  cases m.fs.isDir source with
  | false => rfl
  | true =>
    dsimp only
    rw [if_pos rfl, if_pos rfl, Prog.alone_bind, alone_isDir]
    cases he : m.fs.entriesOf destination <;> simp [MemoryFS.isDir, he]

def outcome (m : MemoryState) (r : Option MemoryFS) : Option Unit × MemoryState :=
  (r.map fun _ => (), ⟨r.getD m.fs, m.sys⟩)

def success (r : Option α × MemoryState) : Option Unit × MemoryState := (r.1.map fun _ => (), r.2)

theorem success_eq {r : Option α × MemoryState} {o : Option Unit × MemoryState}
    (h : success r = o) : r.1.isSome = o.1.isSome ∧ r.2 = o.2 := by
  rw [← h]
  exact ⟨Option.isSome_map.symm, rfl⟩

theorem alone_removeEntry (parent : NodeId) (name : FileName) (kind : VfsEntryKind)
    (m : MemoryState) :
    success ((removeEntry parent name kind).alone Act.apply m) =
      (if (m.fs.removeEntry parent name kind).1 = 0 then some () else none,
        ⟨(m.fs.removeEntry parent name kind).2, m.sys⟩) := by
  rw [removeEntry, Prog.alone_bind, alone_isDir]
  unfold MemoryFS.removeEntry
  cases he : m.fs.entriesOf parent with
  | none => simp [MemoryFS.isDir, he, success]
  | some es =>
    have hdir : m.fs.isDir parent = true := isDir_iff_entries.mpr ⟨es, he⟩
    have herase : m.fs.eraseEntry parent name = m.fs.setEntries parent (es.erase name) := by
      simp [eraseEntry, he]
    dsimp only
    rw [if_pos hdir, Prog.alone_holding, Prog.alone_bindSome, alone_look,
      entryAt_of_entriesOf he]
    obtain hx | ⟨id, hx⟩ := Option.eq_none_or_eq_some es[name]?
    · simp [hx, success]
    · simp only [hx, Option.elim_some, Prog.alone_bind, alone_nodeFromMap]
      cases m.fs.nodeFromMap id with
      | none =>
        simp only [Option.elim_none, Prog.alone_bind, alone_perform, Act.apply, herase]
        rfl
      | some node =>
        simp only [Option.elim_some, Prog.alone_bind, alone_kindMatches]
        by_cases hk : m.fs.kindMatches node kind = true
        · simp only [hk, if_true, Prog.alone_bind, alone_perform, alone_dropNode, Act.apply, herase]
          rfl
        · simp [hk, success]

theorem alone_removeNodeAt (path : AbsPath) (kind : VfsEntryKind) (m : MemoryState) :
    success ((removeNodeAt path kind).alone Act.apply m) =
      (if (m.fs.removeNodeAt path kind).1 = 0 then some () else none,
        ⟨(m.fs.removeNodeAt path kind).2, m.sys⟩) := by
  unfold removeNodeAt MemoryFS.removeNodeAt
  by_cases hroot : path.isRoot = true
  · simp [hroot, success]
  · rw [if_neg hroot, if_neg hroot, Prog.alone_bindSome, alone_resolveParent]
    cases m.fs.resolveParent path with
    | none => rfl
    | some t => exact alone_removeEntry t.1 t.2 kind m

theorem alone_clearTarget (node : NodeId) (replacedId : Option NodeId) (m : MemoryState) :
    (clearTarget node replacedId).alone Act.apply m =
      outcome m (m.fs.clearTarget node replacedId) := by
  cases replacedId with
  | none => rfl
  | some id =>
    rw [clearTarget, Option.elim_some, Prog.alone_bindSome, alone_nodeFromMap,
      MemoryFS.clearTarget]
    cases m.fs.nodeFromMap id with
    | none => rfl
    | some replaced =>
      simp only [Option.elim_some, Prog.alone_bind, alone_canReplaceNode, Option.bind_eq_bind,
        Option.bind_some]
      cases m.fs.canReplaceNode node replaced with
      | false => rfl
      | true =>
        simp only [if_true, Prog.alone_bind, alone_dropNode]
        rfl

theorem setEntries_setEntries (fs : MemoryFS) (d : NodeId) (es es' : Entries) :
    (fs.setEntries d es).setEntries d es' = fs.setEntries d es' := by
  unfold setEntries setNode
  simp only [Function.update_self, Function.update_idem, Option.map_map]
  congr 2
  refine congrArg (Option.map · (fs.heap d)) (funext fun n => ?_)
  obtain ⟨id, parent, mode, links, kind⟩ := n
  cases kind <;> rfl

theorem insertEntry_eraseEntry {fs : MemoryFS} {d : NodeId} {es : Entries}
    (he : fs.entriesOf d = some es) (x y : FileName) (c : NodeId) :
    (fs.eraseEntry d x).insertEntry d y c = fs.setEntries d ((es.erase x).insert y c) := by
  have hdir : fs.isDir d = true := isDir_iff_entries.mpr ⟨es, he⟩
  have he' : (fs.setEntries d (es.erase x)).entriesOf d = some (es.erase x) := by
    rw [entriesOf_setEntries, if_pos ⟨rfl, hdir⟩]
  have herase : fs.eraseEntry d x = fs.setEntries d (es.erase x) := by simp [eraseEntry, he]
  rw [herase, insertEntry, he']
  exact setEntries_setEntries fs d _ _

theorem alone_renameWithin {oldPath newPath : AbsPath} {parent : NodeId} {es : Entries}
    (he : m.fs.entriesOf parent = some es) (oldName newName : FileName) :
    success ((renameWithin oldPath newPath parent oldName newName).alone Act.apply m) =
      outcome m (m.fs.renameWithin oldPath newPath parent oldName newName es) := by
  rw [renameWithin, Prog.alone_holding, Prog.alone_bindSome, alone_look,
    entryAt_of_entriesOf he]
  unfold MemoryFS.renameWithin
  obtain hx | ⟨oldId, hx⟩ := Option.eq_none_or_eq_some es[oldName]?
  · simp [hx, outcome, success]
  · simp only [hx, Option.elim_some, Prog.alone_bindSome, alone_nodeFromMap, Option.bind_eq_bind,
      Option.bind_some]
    cases m.fs.nodeFromMap oldId with
    | none => rfl
    | some node =>
      simp only [Option.elim_some, Prog.alone_bind, alone_isDir, Option.bind_some]
      by_cases hg : (m.fs.isDir node && newPath.startsWith oldPath) = true
      · simp [hg, outcome, success]
      · simp only [hg, Bool.false_eq_true, if_false, Prog.alone_bind, alone_look,
          entryAt_of_entriesOf he]
        by_cases hs : es[newName]? = some oldId
        · rw [if_pos hs, if_pos hs]
          rfl
        · rw [if_neg hs, if_neg hs, Prog.alone_bindSome, alone_clearTarget]
          cases hc : m.fs.clearTarget node es[newName]? with
          | none => rfl
          | some fs₁ =>
            have he₁ : fs₁.entriesOf parent = some es := by
              obtain ⟨-, -, -, hents, -⟩ := clearTarget_spec hc
              exact (hents parent).trans he
            simp only [outcome, Option.map_some, Option.getD_some, Option.elim_some,
              Prog.alone_bind, alone_perform, Act.apply, insertEntry_eraseEntry he₁]
            rfl

theorem alone_move {a b : NodeId} {x y : FileName} {c : NodeId} {es es' : Entries} (hab : a ≠ b)
    (ha : m.fs.entriesOf a = some es) (hb : m.fs.entriesOf b = some es')
    (hmap : ∀ r, es'[y]? = some r → m.fs.nodeFromMap r = some r) :
    (move a b x y c).alone Act.apply m =
      (some (.moved c b y es'[y]?), ⟨((es'[y]?.elim (fun fs => fs) fun r fs => fs.dropNode r)
        ((m.fs.setEntries a (es.erase x)).setEntries b (es'.insert y c))).setParent c b,
          m.sys⟩) := by
  have hdir : m.fs.isDir a = true := isDir_iff_entries.mpr ⟨es, ha⟩
  have herase : m.fs.eraseEntry a x = m.fs.setEntries a (es.erase x) := by simp [eraseEntry, ha]
  have hb' : (m.fs.setEntries a (es.erase x)).entriesOf b = some es' := by
    rw [entriesOf_setEntries, if_neg fun hh => hab hh.1.symm, hb]
  have hins : (m.fs.setEntries a (es.erase x)).insertEntry b y c =
      (m.fs.setEntries a (es.erase x)).setEntries b (es'.insert y c) := by
    simp [insertEntry, hb']
  simp only [move, Prog.alone_bind, alone_writing, Act.apply, herase, attach, Prog.alone_holding,
    Prog.alone, hins, entryAt_of_entriesOf hb']
  obtain hy | ⟨r, hy⟩ := Option.eq_none_or_eq_some es'[y]?
  · simp only [hy, Option.elim_none]
    rfl
  · have hr : r ∈ m.fs.nodes := (nodeFromMap_eq_some.mp (hmap r hy)).1
    have hmap' : ((m.fs.setEntries a (es.erase x)).setEntries b (es'.insert y c)).nodeFromMap r =
        some r := nodeFromMap_eq_some.mpr ⟨hr, rfl⟩
    simp only [hy, Option.elim_some, Prog.alone_bind, alone_nodeFromMap, hmap', alone_writing,
      Act.apply, setNode_parent_links]
    rfl

theorem alone_renameAcross {oldPath newPath : AbsPath} {a b : NodeId} {es es' : Entries}
    (hab : a ≠ b) (ha : m.fs.entriesOf a = some es) (hb : m.fs.entriesOf b = some es')
    (x y : FileName) :
    success ((renameAcross oldPath newPath a b x y).alone Act.apply m) =
      outcome m (m.fs.renameAcross oldPath newPath a b x y es es') := by
  rw [renameAcross, Prog.alone_bindSome, alone_reading, entryAt_of_entriesOf ha]
  unfold MemoryFS.renameAcross
  obtain hx | ⟨oldId, hx⟩ := Option.eq_none_or_eq_some es[x]?
  · simp [hx, outcome, success]
  · simp only [hx, Option.elim_some, Prog.alone_bindSome, alone_nodeFromMap, Option.bind_eq_bind,
      Option.bind_some]
    cases hn : m.fs.nodeFromMap oldId with
    | none => rfl
    | some node =>
      obtain ⟨-, rfl⟩ := nodeFromMap_eq_some.mp hn
      simp only [Option.elim_some, Prog.alone_bind, alone_isDir, Option.bind_some]
      by_cases hg : (m.fs.isDir node && newPath.startsWith oldPath) = true
      · simp [hg, outcome, success]
      · simp only [hg, Bool.false_eq_true, if_false, Prog.alone_bind, alone_reading,
          entryAt_of_entriesOf hb]
        obtain hy | ⟨r, hy⟩ := Option.eq_none_or_eq_some es'[y]?
        · rw [hy, Option.elim_none, alone_move hab ha hb (by simp [hy])]
          simp [hy, outcome, success]
        · simp only [hy, Option.elim_some]
          by_cases hr : r = node
          · simp [hr, outcome, success]
          · rw [if_neg hr, if_neg hr, Prog.alone_bindSome, alone_nodeFromMap]
            cases hm : m.fs.nodeFromMap r with
            | none => rfl
            | some replaced =>
              obtain ⟨-, rfl⟩ := nodeFromMap_eq_some.mp hm
              simp only [Option.elim_some, Prog.alone_bind, alone_canReplaceNode, Option.bind_some]
              by_cases hcan : m.fs.canReplaceNode node replaced = true
              · rw [if_pos hcan, if_pos hcan, alone_move hab ha hb (by simp [hy, hm])]
                simp [hy, outcome, success]
              · simp [hcan, outcome, success]

theorem alone_renameNodeAt (oldPath newPath : AbsPath) (m : MemoryState) :
    success ((renameNodeAt oldPath newPath).alone Act.apply m) =
      outcome m (m.fs.renameNodeAt oldPath newPath) := by
  unfold renameNodeAt MemoryFS.renameNodeAt
  by_cases hroot : (oldPath.isRoot || newPath.isRoot) = true
  · simp [hroot, outcome, success]
  · rw [if_neg hroot, if_neg hroot]
    by_cases hsame : oldPath.components = newPath.components
    · simp [hsame, outcome, success]
    · rw [if_neg hsame, if_neg hsame, Prog.alone_bindSome, alone_resolveParent]
      cases m.fs.resolveParent oldPath with
      | none => rfl
      | some old =>
        simp only [Option.elim_some, Prog.alone_bindSome, alone_resolveParent, Option.bind_eq_bind,
          Option.bind_some]
        cases m.fs.resolveParent newPath with
        | none => rfl
        | some new =>
          simp only [Option.elim_some, Prog.alone_bind, alone_isDir, Option.bind_some]
          unfold MemoryFS.renameEntry
          cases ho : m.fs.entriesOf old.1 with
          | none => simp [MemoryFS.isDir, ho, outcome, success]
          | some es =>
            cases hn : m.fs.entriesOf new.1 with
            | none => simp [MemoryFS.isDir, ho, hn, outcome, success]
            | some es' =>
              have hdirs : (m.fs.isDir old.1 && m.fs.isDir new.1) = true := by
                simp [MemoryFS.isDir, ho, hn]
              simp only [hdirs, if_true]
              by_cases hpar : old.1 = new.1
              · rw [if_pos hpar, alone_renameWithin ho]
                simp [hpar]
              · rw [if_neg hpar, alone_renameAcross hpar ho hn]
                simp [hpar]

theorem alone_chmod (path : AbsPath) (mode : Mode) (m : MemoryState) :
    (chmod path mode).alone Act.apply m = outcome m (m.fs.chmod path mode) := by
  rw [chmod, Prog.alone_bindSome, alone_resolve, MemoryFS.chmod]
  cases m.fs.resolve path with
  | none => rfl
  | some node => simp [Prog.alone_bind, Act.apply, outcome]

theorem alone_openFound (node : NodeId) (flags : Flags) (m : MemoryState) :
    (openFound node flags).alone Act.apply m = MemoryFS.openFound m node flags := by
  rw [openFound, Prog.alone_bind, alone_isDir]
  unfold MemoryFS.openFound
  dsimp only
  by_cases hd : (flags.has O_DIRECTORY && !m.fs.isDir node) = true
  · rw [if_pos hd, if_pos hd]
    rfl
  · rw [if_neg hd, if_neg hd]
    rfl

theorem alone_openResolvedNode {create : Prog (Option (NodeId × Effect))}
    {create' : MemoryState → Option NodeId × MemoryState}
    (hc : (create.alone Act.apply m).map (Option.map Prod.fst) id = create' m)
    (existing : Option NodeId) (flags : Flags) :
    ((openResolvedNode existing create flags).alone Act.apply m).map Prod.fst id =
      MemoryFS.openResolvedNode m existing create' flags := by
  cases existing with
  | some node =>
    rw [openResolvedNode, Option.elim_some, MemoryFS.openResolvedNode]
    split_ifs with h
    · rfl
    · rw [Prog.alone_bind, alone_openFound]
      rfl
  | none =>
    rw [openResolvedNode, Option.elim_none, MemoryFS.openResolvedNode]
    split_ifs with h
    · rw [Prog.alone_bind, ← hc]
      cases he : create.alone Act.apply m with
      | mk made m' =>
        cases made with
        | none => rfl
        | some t =>
          rw [Option.elim_some, Prog.alone_bind, alone_openFound]
          rfl
    · rfl

theorem alone_openNode (hw : m.fs.WF m.sys.nextNodeId) (path : AbsPath) (flags : Flags)
    (mode : Mode) :
    ((openNode path flags mode).alone Act.apply m).map Prod.fst id =
      MemoryFS.openNode m path flags mode := by
  rw [openNode, Prog.alone_bind, alone_resolve]
  exact alone_openResolvedNode (alone_createNode hw path .file mode) _ flags

theorem alone_openNodeRelative (hw : m.fs.WF m.sys.nextNodeId) (start : NodeId) (path : RelPath)
    (flags : Flags) (mode : Mode) :
    ((openNodeRelative start path flags mode).alone Act.apply m).map Prod.fst id =
      MemoryFS.openNodeRelative m start path flags mode := by
  rw [openNodeRelative, Prog.alone_bind, alone_resolveRelative]
  exact alone_openResolvedNode (alone_createRelativeNode hw start path .file mode) _ flags

theorem alone_countDirs (ids : List NodeId) (m : MemoryState) :
    (countDirs ids).alone Act.apply m =
      (ids.countP fun id => (m.fs.nodeFromMap id).any m.fs.isDir, m) := by
  induction ids with
  | nil => rfl
  | cons id ids ih =>
    rw [countDirs, Prog.alone_bind, alone_nodeFromMap, Prog.alone_bind, List.countP_cons]
    cases m.fs.nodeFromMap id with
    | none => simp [Prog.alone_bind, ih]
    | some c =>
      simp only [Option.elim_some, alone_isDir, Prog.alone_bind, ih, Option.any_some]
      split_ifs <;> simp

theorem alone_linkCount {id : NodeId} {n : Node} (hn : m.fs.heap id = some n) :
    (linkCount id).alone Act.apply m = (m.fs.linkCount n, m) := by
  rw [linkCount, Prog.alone_bind, alone_reading, MemoryFS.linkCount, hn, Option.elim_some]
  dsimp only
  split_ifs with hl
  · rfl
  · rw [Prog.alone_bind, alone_isDir]
    cases hk : n.kind with
    | file fd => simp [MemoryFS.isDir, entriesOf, hn, hk, NodeKind.entries?]
    | directory es fd =>
      simp [MemoryFS.isDir, entriesOf, hn, hk, NodeKind.entries?, Prog.alone_bind,
        alone_countDirs]

theorem alone_statNode (hw : m.fs.WF m.sys.nextNodeId) {id : NodeId} {n : Node}
    (hn : m.fs.heap id = some n) :
    (statNode id).alone Act.apply m = (m.fs.statNode m.sys n, m) := by
  have hid : n.id = id := (hw.heap_id id n.inode (by simp [inodeOf, hn])).1
  simp only [statNode, Prog.alone_bind, alone_isDir, alone_look, alone_reading,
    alone_linkCount hn, hn, Option.elim_some, Prog.alone_pure, MemoryFS.statNode]
  cases hk : n.kind <;>
    simp [MemoryFS.isDir, entriesOf, hn, hk, NodeKind.entries?, NodeKind.backingFd, hid]

theorem alone_listEntries (es : List (FileName × NodeId)) (m : MemoryState) :
    (listEntries es).alone Act.apply m =
      (es.mapM fun e => (m.fs.nodeFromMap e.2).bind fun node =>
        some { name := e.1.bytes, kind := m.fs.entryKind node, ino := some node }, m) := by
  induction es with
  | nil => rfl
  | cons e es ih =>
    rw [listEntries, Prog.alone_bindSome, alone_nodeFromMap, List.mapM_cons]
    cases m.fs.nodeFromMap e.2 with
    | none => rfl
    | some node =>
      simp only [Option.elim_some, Prog.alone_bind, alone_look, Prog.alone_bindSome, ih]
      generalize List.mapM (m := Option) _ es = r
      cases r <;> rfl

theorem alone_readNodeDir (id : NodeId) (m : MemoryState) :
    (readNodeDir id).alone Act.apply m = (m.fs.readNodeDir id, m) := by
  rw [readNodeDir, Prog.alone_bind, alone_isDir]
  unfold MemoryFS.readNodeDir
  cases he : m.fs.entriesOf id with
  | none => simp [MemoryFS.isDir, he]
  | some es =>
    have hdir : m.fs.isDir id = true := isDir_iff_entries.mpr ⟨es, he⟩
    dsimp only
    rw [if_pos hdir, Prog.alone_holding, Prog.alone_bind, alone_look, he]
    exact alone_listEntries es.toList m

end

end Locked

/-- A call of `LowLevelFS`, or of `OpenedFile` on a node that is open. -/
inductive FsCall where
  | access (path : AbsPath)
  | openWithHandle (path : AbsPath) (flags : Flags) (mode : Mode)
  | mkdir (path : AbsPath) (mode : Mode)
  | unlink (path : AbsPath)
  | rmdir (path : AbsPath)
  | rename (oldPath newPath : AbsPath)
  | chmod (path : AbsPath) (mode : Mode)
  | stat (path : AbsPath)
  | readDir (path : AbsPath)
  | openChild (node : NodeId) (path : RelPath) (flags : Flags) (mode : Mode)
  | mkdirChild (node : NodeId) (path : RelPath) (mode : Mode)
  | nodeStat (node : NodeId)
  | nodeReadDir (node : NodeId)

inductive FsAnswer where
  | status (r : Int)
  | opened (r : OpenResult NodeId)
  | stat (r : Option Stat)
  | listing (r : Option (List VfsDirEntry))

namespace FsCall

open Locked

def traced : FsCall → Locked.Prog (FsAnswer × Effect)
  | access path => do
    let node? ← Locked.resolve path
    pure (.status (createdStatus node?), .unchanged)
  | openWithHandle path flags mode => do
    let r ← Locked.openNode path flags mode
    pure (.opened r.1, r.2)
  | mkdir path mode => do
    let made ← Locked.createNode path .dir mode
    pure (.status (createdStatus (made.map (·.1))), made.elim .unchanged (·.2))
  | unlink path => do
    let done ← Locked.removeNodeAt path .file
    pure (.status (if done.isSome then 0 else -1), done.getD .unchanged)
  | rmdir path => do
    let done ← Locked.removeNodeAt path .dir
    pure (.status (if done.isSome then 0 else -1), done.getD .unchanged)
  | rename oldPath newPath => do
    let done ← Locked.renameNodeAt oldPath newPath
    pure (.status (if done.isSome then 0 else -1), done.getD .unchanged)
  | chmod path mode => do
    let done ← Locked.chmod path mode
    pure (.status (if done.isSome then 0 else -1), .unchanged)
  | stat path => do
    let r ← (Locked.resolve path).bindSome fun node => do
      let statbuf ← Locked.statNode node
      pure (some statbuf)
    pure (.stat r, .unchanged)
  | readDir path => do
    let r ← (Locked.resolve path).bindSome Locked.readNodeDir
    pure (.listing r, .unchanged)
  | openChild node path flags mode => do
    let r ← Locked.openNodeRelative node path flags mode
    pure (.opened r.1, r.2)
  | mkdirChild node path mode => do
    let made ← Locked.createRelativeNode node path .dir mode
    pure (.status (createdStatus (made.map (·.1))), made.elim .unchanged (·.2))
  | nodeStat node => do
    let statbuf ← Locked.statNode node
    pure (.stat (some statbuf), .unchanged)
  | nodeReadDir node => do
    let r ← Locked.readNodeDir node
    pure (.listing r, .unchanged)

def locked (call : FsCall) : Locked.Prog FsAnswer := do
  let r ← call.traced
  pure r.1

/-- The calls as they are when nobody else is there. -/
def sequential (m : MemoryState) : FsCall → FsAnswer × MemoryState
  | access path => (.status (createdStatus (m.fs.resolve path)), m)
  | openWithHandle path flags mode =>
    (.opened (MemoryFS.openNode m path flags mode).1, (MemoryFS.openNode m path flags mode).2)
  | mkdir path mode =>
    (.status (createdStatus (MemoryFS.createNode m path .dir mode).1),
      (MemoryFS.createNode m path .dir mode).2)
  | unlink path =>
    (.status (m.fs.removeNodeAt path .file).1, ⟨(m.fs.removeNodeAt path .file).2, m.sys⟩)
  | rmdir path =>
    (.status (m.fs.removeNodeAt path .dir).1, ⟨(m.fs.removeNodeAt path .dir).2, m.sys⟩)
  | rename oldPath newPath =>
    (.status (if (m.fs.renameNodeAt oldPath newPath).isSome then 0 else -1),
      ⟨(m.fs.renameNodeAt oldPath newPath).getD m.fs, m.sys⟩)
  | chmod path mode =>
    (.status (if (m.fs.chmod path mode).isSome then 0 else -1),
      ⟨(m.fs.chmod path mode).getD m.fs, m.sys⟩)
  | stat path =>
    (.stat ((m.fs.resolve path).bind fun node => (m.fs.heap node).map (m.fs.statNode m.sys)), m)
  | readDir path => (.listing ((m.fs.resolve path).bind m.fs.readNodeDir), m)
  | openChild node path flags mode =>
    (.opened (MemoryFS.openNodeRelative m node path flags mode).1,
      (MemoryFS.openNodeRelative m node path flags mode).2)
  | mkdirChild node path mode =>
    (.status (createdStatus (MemoryFS.createRelativeNode m node path .dir mode).1),
      (MemoryFS.createRelativeNode m node path .dir mode).2)
  | nodeStat node => (.stat ((m.fs.heap node).map (m.fs.statNode m.sys)), m)
  | nodeReadDir node => (.listing (m.fs.readNodeDir node), m)

theorem alone_traced {m : MemoryState} (hw : m.fs.WF m.sys.nextNodeId) (call : FsCall)
    (hnode : ∀ node, call = .nodeStat node → (m.fs.heap node).isSome) :
    (call.traced.alone Act.apply m).map Prod.fst id = call.sequential m := by
  have hstatus (path : AbsPath) (kind : VfsEntryKind) :
      (if (m.fs.removeNodeAt path kind).1 = 0 then (0 : Int) else -1) =
        (m.fs.removeNodeAt path kind).1 := by
    rcases m.fs.removeNodeAt_cases hw path kind with h | ⟨_, _, _, _, _, h, _⟩ <;> simp [h]
  have hremove (path : AbsPath) (kind : VfsEntryKind) := success_eq (alone_removeNodeAt path kind m)
  cases call with
  | access path => simp [traced, sequential, Prog.alone_bind]
  | openWithHandle path flags mode =>
    simp [traced, sequential, Prog.alone_bind, ← alone_openNode hw]
  | mkdir path mode => simp [traced, sequential, Prog.alone_bind, ← alone_createNode hw]
  | unlink path =>
    obtain ⟨hs, hm⟩ := hremove path .file
    simp [traced, sequential, Prog.alone_bind, hs, hm, hstatus path .file]
  | rmdir path =>
    obtain ⟨hs, hm⟩ := hremove path .dir
    simp [traced, sequential, Prog.alone_bind, hs, hm, hstatus path .dir]
  | rename oldPath newPath =>
    obtain ⟨hs, hm⟩ := success_eq (alone_renameNodeAt oldPath newPath m)
    simp [traced, sequential, Prog.alone_bind, hs, hm, outcome]
  | chmod path mode => simp [traced, sequential, Prog.alone_bind, alone_chmod, outcome]
  | stat path =>
    simp only [traced, sequential, Prog.alone_bind, Prog.alone_bindSome, alone_resolve]
    cases hc : m.fs.resolve path with
    | none => rfl
    | some c =>
      have hk := hw.resolve_known hc
      rw [inodeOf, Option.isSome_map] at hk
      obtain ⟨n, hn⟩ := Option.isSome_iff_exists.mp hk
      simp [alone_statNode hw hn, hn]
  | readDir path =>
    simp only [traced, sequential, Prog.alone_bind, Prog.alone_bindSome, alone_resolve]
    cases hc : m.fs.resolve path with
    | none => rfl
    | some c => simp [alone_readNodeDir]
  | openChild node path flags mode =>
    simp [traced, sequential, Prog.alone_bind, ← alone_openNodeRelative hw]
  | mkdirChild node path mode =>
    simp [traced, sequential, Prog.alone_bind, ← alone_createRelativeNode hw]
  | nodeStat node =>
    obtain ⟨n, hn⟩ := Option.isSome_iff_exists.mp (hnode node rfl)
    simp [traced, sequential, Prog.alone_bind, alone_statNode hw hn, hn]
  | nodeReadDir node => simp [traced, sequential, Prog.alone_bind, alone_readNodeDir]

theorem alone_locked {m : MemoryState} (hw : m.fs.WF m.sys.nextNodeId) (call : FsCall)
    (hnode : ∀ node, call = .nodeStat node → (m.fs.heap node).isSome) :
    call.locked.alone Act.apply m = call.sequential m := by
  rw [locked, Prog.alone_bind, ← alone_traced hw call hnode]
  rfl

end FsCall

end MemoryFS

end SandboxVfs
