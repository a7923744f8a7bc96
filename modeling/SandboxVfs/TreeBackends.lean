import SandboxVfs.Library.FileTrees
import SandboxVfs.Memory

/-! What memory file systems are for: directory trees by path. A backend that has the
trees themselves, with no node map, no parent pointers and no link counts. -/

namespace SandboxVfs

open FileTrees

/-- The mode, and what the contents are kept under. -/
structure FileAttr where
  mode : Mode
  backing : Int

abbrev FileTree := FileForest FileName NodeId FileAttr
abbrev TreeEntry := Entry NodeId FileAttr
abbrev TreePlace := Place FileName NodeId

namespace FileTree

variable (t : FileTree)

def target (path : AbsPath) : Option (TreePlace × FileName) := do
  let parent ← path.parent
  let _ ← t.look t.root parent.names
  return ((t.root, parent.names), ← path.fileName)

def stepRelative (pl : TreePlace) : Component → Option TreePlace
  | .curDir => some pl
  | .normal x => t.child pl x
  | .parentDir => t.above pl

def walkFrom (pl : TreePlace) (path : RelPath) : Option TreePlace :=
  path.components.foldlM t.stepRelative pl

def relativeTarget (pl : TreePlace) (path : RelPath) : Option (TreePlace × FileName) := do
  let parent ← t.walkFrom pl (← path.parent)
  return (parent, ← path.fileName)

/-- What was taken out has no link; a directory has one for itself, one for its name and
one for each directory in it. -/
noncomputable def linkCount (pl : TreePlace) (e : TreeEntry) : Nat :=
  if pl.2 = [] ∧ pl.1 ≠ t.root then 0
  else if e.dir then
    2 + (t.names pl.1 pl.2).countP fun x => (t.look pl.1 (pl.2 ++ [x])).any (·.dir)
  else 1

noncomputable def stat (sys : Sys) (pl : TreePlace) (e : TreeEntry) : Stat :=
  let statbuf := if e.dir then {} else sys.kernel.fstat sys.calls e.attr.backing
  { statbuf with
    stMode := (if e.dir then S_IFDIR else S_IFREG) ||| e.attr.mode
    stIno := e.object
    stNlink := t.linkCount pl e
    stBlksize := 4096 }

def dirEntry (x : FileName) (e : TreeEntry) : VfsDirEntry :=
  { name := x.bytes, kind := if e.dir then .dir else .file, ino := some e.object }

noncomputable def list (pl : TreePlace) (e : TreeEntry) : Option (List VfsDirEntry) :=
  if e.dir then
    some ((t.names pl.1 pl.2).filterMap fun x => (t.look pl.1 (pl.2 ++ [x])).map (dirEntry x))
  else none

def CanRemove (p : PathBuf) (kind : VfsEntryKind) : Prop :=
  ∃ e, t.look t.root p = some e ∧ e.dir = (kind == .dir) ∧ t.Leaf t.root p

end FileTree

/-- The forests of all backends, and the state that they share. -/
structure TreeWorld (ι : Type) where
  forest : ι → FileTree
  sys : Sys
  fresh : ∀ i r p e, (forest i).look r p = some e → e.object < sys.nextNodeId

structure TreeRef (ι : Type) where
  index : ι

structure TreeHandle (ι : Type) where
  tree : TreeRef ι
  object : NodeId

namespace TreeWorld

variable {ι : Type} [DecidableEq ι] (w : TreeWorld ι)

def newFd : Int × TreeWorld ι :=
  (w.sys.newFd.1, { w with sys := w.sys.newFd.2, fresh := w.fresh })

def takeId : TreeWorld ι :=
  { w with
    sys := w.sys.takeId
    fresh := fun i r p e h => (w.fresh i r p e h).trans (Nat.lt_succ_self _) }

def put (f : TreeRef ι) (t : FileTree)
    (ht : ∀ r p e, t.look r p = some e → e.object < w.sys.nextNodeId) : TreeWorld ι where
  forest := Function.update w.forest f.index t
  sys := w.sys
  fresh := by
    intro i r p e h
    by_cases hi : i = f.index
    · subst hi
      rw [Function.update_self] at h
      exact ht r p e h
    · rw [Function.update_of_ne hi] at h
      exact w.fresh i r p e h

omit [DecidableEq ι] in
theorem within_fresh {f : TreeRef ι} {t : FileTree} (ht : t.Within (w.forest f.index)) :
    ∀ r p e, t.look r p = some e → e.object < w.sys.nextNodeId := by
  intro r p e h
  obtain ⟨s, q, e', he', ho⟩ := ht r p e h
  exact ho ▸ w.fresh f.index s q e' he'

omit [DecidableEq ι] in
theorem unused (i : ι) : (w.forest i).Unused w.sys.nextNodeId :=
  fun r p e h => (w.fresh i r p e h).ne

omit [DecidableEq ι] in
theorem made_fresh (f : TreeRef ι) {r : NodeId} {p : PathBuf} {x : FileName} {e : TreeEntry}
    (hm : (w.forest f.index).CanMake r p x) (he : e.object = w.sys.nextNodeId) :
    ∀ s q d, ((w.forest f.index).make r p x e hm (he ▸ w.unused f.index)).look s q = some d →
      d.object < w.takeId.newFd.2.sys.nextNodeId := by
  intro s q d h
  rcases FileForest.madeLook_cases h with ⟨-, -, rfl⟩ | h
  · exact he ▸ Nat.lt_succ_self _
  · exact (w.fresh f.index s q d h).trans (Nat.lt_succ_self _)

def newEntry (kind : VfsEntryKind) (mode : Mode) : TreeEntry :=
  ⟨w.sys.nextNodeId, kind == .dir, ⟨mode &&& 0o7777, w.takeId.newFd.1⟩⟩

open Classical in
noncomputable def makeAt (f : TreeRef ι) (target : Option (TreePlace × FileName))
    (kind : VfsEntryKind) (mode : Mode) : Option TreeEntry × TreeWorld ι :=
  match target with
  | none => (none, w)
  | some (pl, x) =>
    if h : (w.forest f.index).CanMake pl.1 pl.2 x then
      let made := w.takeId.newFd
      if made.1 < 0 then (none, made.2)
      else
        (some (w.newEntry kind mode),
          made.2.put f ((w.forest f.index).make pl.1 pl.2 x (w.newEntry kind mode) h
            (w.unused f.index)) (w.made_fresh f h rfl))
    else (none, w)

section

variable {w} {f : TreeRef ι} {pl : TreePlace} {x : FileName} {kind : VfsEntryKind} {mode : Mode}

theorem makeAt_of_not (h : ¬ (w.forest f.index).CanMake pl.1 pl.2 x) :
    w.makeAt f (some (pl, x)) kind mode = (none, w) := dif_neg h

theorem makeAt_refused (h : (w.forest f.index).CanMake pl.1 pl.2 x) (hfd : w.takeId.newFd.1 < 0) :
    w.makeAt f (some (pl, x)) kind mode = (none, w.takeId.newFd.2) :=
  (dif_pos h).trans (if_pos hfd)

theorem makeAt_made (h : (w.forest f.index).CanMake pl.1 pl.2 x) (hfd : 0 ≤ w.takeId.newFd.1) :
    w.makeAt f (some (pl, x)) kind mode =
      (some (w.newEntry kind mode),
        w.takeId.newFd.2.put f ((w.forest f.index).make pl.1 pl.2 x (w.newEntry kind mode) h
          (w.unused f.index)) (w.made_fresh f h rfl)) :=
  (dif_pos h).trans (if_neg (not_lt.mpr hfd))

end

def openEntry (f : TreeRef ι) (e : TreeEntry) (flags : Flags) :
    OpenResult (TreeHandle ι) × TreeWorld ι :=
  if flags.has O_DIRECTORY && !e.dir then (⟨-1, none⟩, w)
  else (⟨w.newFd.1, if w.newFd.1 < 0 then none else some ⟨f, e.object⟩⟩, w.newFd.2)

noncomputable def openAt (f : TreeRef ι) (existing : Option TreeEntry)
    (target : Option (TreePlace × FileName)) (flags : Flags) (mode : Mode) :
    OpenResult (TreeHandle ι) × TreeWorld ι :=
  match existing with
  | some e =>
    if flags &&& (O_CREAT ||| O_EXCL) == O_CREAT ||| O_EXCL then (⟨-1, none⟩, w)
    else w.openEntry f e flags
  | none =>
    if flags.has O_CREAT then
      match w.makeAt f target .file mode with
      | (none, w) => (⟨-1, none⟩, w)
      | (some e, w) => w.openEntry f e flags
    else (⟨-1, none⟩, w)

open Classical in
noncomputable def remove (f : TreeRef ι) (p : PathBuf) (kind : VfsEntryKind) :
    Int × TreeWorld ι :=
  if h : p ≠ [] ∧ FileTree.CanRemove (w.forest f.index) p kind then
    (0, w.put f ((w.forest f.index).clear p h.1) (w.within_fresh (FileForest.clear_within h.1)))
  else (-1, w)

section

variable {w} {f : TreeRef ι} {p : PathBuf} {kind : VfsEntryKind}

theorem remove_of_not (h : ¬ (p ≠ [] ∧ FileTree.CanRemove (w.forest f.index) p kind)) :
    w.remove f p kind = (-1, w) := dif_neg h

theorem remove_of_can (h : p ≠ [] ∧ FileTree.CanRemove (w.forest f.index) p kind) :
    w.remove f p kind =
      (0, w.put f ((w.forest f.index).clear p h.1)
        (w.within_fresh (FileForest.clear_within h.1))) := dif_pos h

end

/-- A path renamed to itself is not looked at. -/
noncomputable def rename (f : TreeRef ι) (old new : PathBuf) : Int × TreeWorld ι :=
  open Classical in
  if old = new then (if old = [] then -1 else 0, w)
  else if h : (w.forest f.index).CanMove old new then
    (0, w.put f ((w.forest f.index).move old new h) (w.within_fresh (FileForest.move_within h)))
  else (-1, w)

section

variable {w} {f : TreeRef ι} {old new : PathBuf}

theorem rename_same : w.rename f old old = (if old = [] then -1 else 0, w) := if_pos rfl

theorem rename_of_not (hne : old ≠ new) (h : ¬ (w.forest f.index).CanMove old new) :
    w.rename f old new = (-1, w) := (if_neg hne).trans (dif_neg h)

theorem rename_of_can (hne : old ≠ new) (h : (w.forest f.index).CanMove old new) :
    w.rename f old new =
      (0, w.put f ((w.forest f.index).move old new h)
        (w.within_fresh (FileForest.move_within h))) := (if_neg hne).trans (dif_pos h)

end

def setMode (f : TreeRef ι) (p : PathBuf) (mode : Mode) : Int × TreeWorld ι :=
  match (w.forest f.index).look (w.forest f.index).root p with
  | none => (-1, w)
  | some _ =>
    (0, w.put f ((w.forest f.index).change (w.forest f.index).root p
      ({ · with mode := mode &&& 0o7777 })) (w.within_fresh (FileForest.change_within _)))

end TreeWorld

variable {ι : Type} [DecidableEq ι]

noncomputable instance : LowLevelFS (TreeRef ι) (TreeHandle ι) (TreeWorld ι) where
  access f w path _ :=
    if ((w.forest f.index).look (w.forest f.index).root path.names).isSome then 0 else -1
  openWithHandle f w path flags mode :=
    w.openAt f ((w.forest f.index).look (w.forest f.index).root path.names)
      (FileTree.target (w.forest f.index) path) flags mode
  mkdir f w path mode :=
    let r := w.makeAt f (FileTree.target (w.forest f.index) path) .dir mode
    (if r.1.isSome then 0 else -1, r.2)
  unlink f w path := w.remove f path.names .file
  rmdir f w path := w.remove f path.names .dir
  rename f w oldPath newPath := w.rename f oldPath.names newPath.names
  chmod f w path mode := w.setMode f path.names mode
  stat f w path :=
    let t := w.forest f.index
    (t.look t.root path.names).map (FileTree.stat t w.sys (t.root, path.names))
  readDir f w path :=
    let t := w.forest f.index
    (t.look t.root path.names).bind (FileTree.list t (t.root, path.names))

/-- An opened object is looked for where it is now. -/
noncomputable instance : OpenedFile (TreeHandle ι) (TreeWorld ι) where
  stat h w :=
    let t := w.forest h.tree.index
    ((t.locate h.object).bind fun pl =>
      (t.look pl.1 pl.2).map (FileTree.stat t w.sys pl)).getD {}
  openChild h w path flags mode :=
    match path with
    | .abs _ => none
    | .rel path =>
      let t := w.forest h.tree.index
      some (w.openAt h.tree
        (((t.locate h.object).bind (FileTree.walkFrom t · path)).bind fun pl => t.look pl.1 pl.2)
        ((t.locate h.object).bind (FileTree.relativeTarget t · path)) flags mode)
  mkdirChild h w path mode :=
    match path with
    | .abs _ => none
    | .rel path =>
      let t := w.forest h.tree.index
      let r := w.makeAt h.tree ((t.locate h.object).bind (FileTree.relativeTarget t · path)) .dir
        mode
      some (if r.1.isSome then 0 else -1, r.2)
  readDir h w :=
    let t := w.forest h.tree.index
    (t.locate h.object).bind fun pl => (t.look pl.1 pl.2).bind (FileTree.list t pl)

end SandboxVfs
