import SandboxVfs.HostTree

/-! The directories that the hook of `opendir` makes on the host, and their removal. What is
made is made by the C library itself, what is removed goes through the hooks again. -/

namespace SandboxVfs

variable {ι : Type}

/-- The backends of the hooks: in memory, or a bind over another one. -/
inductive HooksBackend (ι : Type) where
  | memory (f : MemoryRef ι)
  | overlay (upper lower : BindFS)

abbrev HooksFS (ι : Type) := PlainFS ι HostFs ⊕ OverlayFS (PlainFS ι HostFs)

abbrev HooksVfs (ι : Type) := RootVFS (HooksFS ι) (HostOpenedFile ι HostFs) (HostWorld ι HostFs)

def HooksBackend.fs : HooksBackend ι → HooksFS ι
  | .memory f => .inl (.memory f)
  | .overlay upper lower => .inr ⟨.bind upper, none, .bind lower⟩

/-- `static VFS`. Only an overlay can have the memory file system mounted. -/
def staticVfs (b : HooksBackend ι) (memoryMount : Option (PathBuf × MemoryRef ι))
    (inodeForPath : List (List UInt8) → Nat) (world : HostWorld ι HostFs) : HooksVfs ι :=
  let root := RootVFS.new b.fs inodeForPath world
  match b, memoryMount with
  | .overlay _ _, some (path, f) => root.withMount path (.inl (.memory f))
  | _, _ => root

structure MaterializedDir where
  path : HostPath
  entries : List VfsDirEntry
  deriving DecidableEq, Repr

def decimal (n : Nat) : List UInt8 := (Nat.toDigits 10 n).map fun c => UInt8.ofNat c.toNat

/-- `/tmp/sandbox-vfs-opendir-{}-{}` -/
def materializedPath (processId next : Nat) : HostPath :=
  [47, 116, 109, 112, 47, 115, 97, 110, 100, 98, 111, 120, 45, 118, 102, 115, 45, 111, 112, 101, 110,
    100, 105, 114, 45] ++ decimal processId ++ [45] ++ decimal next

/-- A path with a nul in it, which panics there, comes in no C string. -/
def pathToCstring (path : HostPath) : List UInt8 := path ++ [0]

namespace HooksVfs

variable [DecidableEq ι]

def setHost (v : HooksVfs ι) (host : HostFs) : HooksVfs ι := v.setWorld (v.world.setHost host)

def callOrigMkdir (v : HooksVfs ι) (path : List UInt8) (mode : Mode) : Int × HooksVfs ι :=
  let r := v.world.libc.mkdir v.world.host (cString path) mode
  (r.1, v.setHost r.2)

def callOrigOpen (v : HooksVfs ι) (path : List UInt8) (flags : Flags) (mode : Mode) :
    Int × HooksVfs ι :=
  let r := v.world.libc.openPath v.world.host (cString path) flags mode
  (r.1, v.setHost r.2)

def callOrigClose (v : HooksVfs ι) (fd : Int) : Int × HooksVfs ι :=
  let r := v.world.host.close fd
  (r.1, v.setHost r.2)

def callOrigOpendir (v : HooksVfs ι) (path : List UInt8) : Bool × HooksVfs ι :=
  let r := v.world.host.opendir (cString path)
  (r.1, v.setHost r.2)

def libcRmdir (v : HooksVfs ι) (path : List UInt8) : HooksVfs ι := (v.rmdir (.fromCStr path)).2

def libcUnlink (v : HooksVfs ι) (path : List UInt8) : HooksVfs ι := (v.unlink (.fromCStr path)).2

def cleanupEntry (path : HostPath) (v : HooksVfs ι) (entry : VfsDirEntry) : HooksVfs ι :=
  let entryPath := pathToCstring (joinHost path entry.name)
  match entry.kind with
  | .dir => v.libcRmdir entryPath
  | .file => v.libcUnlink entryPath

def cleanupMaterializedDir (v : HooksVfs ι) (materialized : MaterializedDir) : HooksVfs ι :=
  (materialized.entries.reverse.foldl (cleanupEntry materialized.path) v).libcRmdir
    (pathToCstring materialized.path)

def materializeEntry (v : HooksVfs ι) (path : HostPath) (entry : VfsDirEntry) : Int × HooksVfs ι :=
  let entryPath := pathToCstring (joinHost path entry.name)
  match entry.kind with
  | .dir => v.callOrigMkdir entryPath 0o700
  | .file =>
    let r := v.callOrigOpen entryPath (O_CREAT ||| O_WRONLY ||| O_TRUNC) 0o600
    if r.1 < 0 then (-1, r.2) else r.2.callOrigClose r.1

def materializeEntries (path : HostPath) (v : HooksVfs ι) :
    List VfsDirEntry → List VfsDirEntry → Option MaterializedDir × HooksVfs ι
  | created, [] => (some ⟨path, created⟩, v)
  | created, entry :: entries =>
    if entry.name = dotName ∨ entry.name = dotDotName then
      materializeEntries path v created entries
    else
      let r := v.materializeEntry path entry
      if r.1 ≠ 0 then (none, r.2.cleanupMaterializedDir ⟨path, created⟩)
      else materializeEntries path r.2 (created ++ [entry]) entries

def materializeDir (v : HooksVfs ι) (path : HostPath) (entries : List VfsDirEntry) :
    Option MaterializedDir × HooksVfs ι :=
  let r := v.callOrigMkdir (pathToCstring path) 0o700
  if r.1 ≠ 0 then (none, r.2) else materializeEntries path r.2 [] entries

end HooksVfs

/-- The state of the hooks, with `NEXT_MATERIALIZED_DIR`. -/
structure DirHooks (ι : Type) where
  vfs : HooksVfs ι
  materializedDirs : Std.ExtTreeMap Nat MaterializedDir compare
  processId : Nat
  next : Nat

namespace DirHooks

variable [DecidableEq ι] (s : DirHooks ι)

def callOrig (name : List UInt8) : Bool × DirHooks ι :=
  let r := s.vfs.callOrigOpendir name
  (r.1, { s with vfs := r.2 })

/-- `dirp` is the address of the stream, should the C library open one. -/
def opendir (name : List UInt8) (dirp : Nat) : Bool × DirHooks ι :=
  match s.vfs.readDir (.fromCStr name) with
  | none => s.callOrig name
  | some entries =>
    let r := s.vfs.materializeDir (materializedPath s.processId s.next) entries
    let s := { s with vfs := r.2, next := s.next + 1 }
    match r.1 with
    | none => s.callOrig name
    | some materialized =>
      let opened := s.callOrig (pathToCstring materialized.path)
      let s := opened.2
      if opened.1 then
        (true, { s with materializedDirs := s.materializedDirs.insert dirp materialized })
      else { s with vfs := s.vfs.cleanupMaterializedDir materialized }.callOrig name

def closedir (dirp : Nat) : DirHooks ι :=
  let materialized := s.materializedDirs[dirp]?
  let s := { s with materializedDirs := s.materializedDirs.erase dirp }
  match materialized with
  | some materialized => { s with vfs := s.vfs.cleanupMaterializedDir materialized }
  | none => s

/-- A stream that is closed as soon as it is there. -/
def openedAndClosed (name : List UInt8) (dirp : Nat) : DirHooks ι :=
  let r := s.opendir name dirp
  if r.1 then r.2.closedir dirp else r.2

end DirHooks

end SandboxVfs
