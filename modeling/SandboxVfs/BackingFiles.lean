import SandboxVfs.Library.OpenFiles
import SandboxVfs.Creations
import SandboxVfs.DescriptorOwners

/-! What the memory file system asks of the kernel: `create_memfd` for each node that it
makes, and `open_backing` for each descriptor that it hands out. -/

namespace SandboxVfs

open MemoryFS

def O_NOFOLLOW : Flags := 0x20000
def O_PATH : Flags := 0x200000

def backingFlags (flags : Flags) : Flags :=
  flags &&& ~~~(O_CREAT ||| O_EXCL ||| O_NOFOLLOW ||| O_DIRECTORY)

/-- The flags of `open` that say how to find the file have no effect on one that is found. -/
structure LookupFlagsApart {P C Q R : Type} (K : FileKernel Flags P C Q R) : Prop where
  opens : ∀ flags, K.opens (backingFlags flags) = K.opens flags
  io : ∀ flags, K.io (backingFlags flags) = K.io flags

/-- The calls that ask the kernel for a descriptor, with its answer. A new file and a new
description have the number of the call for a name. -/
inductive KernelCall where
  | memfdCreate (fd : Int) (number : Nat)
  | openBacking (backing : Int) (flags : Flags) (fd : Int) (number : Nat)

def KernelCall.fd : KernelCall → Int
  | .memfdCreate fd _ | .openBacking _ _ fd _ => fd

/-- `memfd_create` opens for reading and writing, and `/proc/self/fd/N` is the file that is
open as `N`, whatever its description. -/
def OpenFiles.kernelCall {P C Q R : Type} (K : FileKernel Flags P C Q R)
    (s : OpenFiles Nat Nat Flags P C) : KernelCall → OpenFiles Nat Nat Flags P C
  | .memfdCreate fd number => if fd < 0 then s else s.create K fd number number O_RDWR
  | .openBacking backing flags fd number =>
    if fd < 0 then s
    else
      match s.fileAt backing with
      | none => s
      | some f => s.openAs K fd number f flags

theorem OpenFiles.foldl_refused {P C Q R : Type} (K : FileKernel Flags P C Q R)
    (s : OpenFiles Nat Nat Flags P C) {cs : List KernelCall} (h : ∀ c ∈ cs, c.fd < 0) :
    cs.foldl (kernelCall K) s = s := by
  induction cs with
  | nil => rfl
  | cons c cs ih =>
    have hc : s.kernelCall K c = s := by
      cases c <;> exact if_pos (h _ List.mem_cons_self)
    rw [List.foldl_cons, hc, ih fun c hc => h c (List.mem_cons_of_mem _ hc)]

namespace MemoryFS

def backingOf (fs : MemoryFS) (id : NodeId) : Int := (fs.heap id).elim (-1) (·.kind.backingFd)

/-- The calls of `create_node_in_dir` in the directory that has been found. -/
def createCalls (m : MemoryState) : Option (NodeId × FileName) → List KernelCall
  | none => []
  | some (parent, name) =>
    match m.fs.entriesOf parent with
    | none => []
    | some entries =>
      if name ∈ entries then []
      else [.memfdCreate m.sys.takeId.newFd.1 m.sys.takeId.newFd.2.calls]

def openFoundCalls (m : MemoryState) (node : NodeId) (flags : Flags) : List KernelCall :=
  if flags.has O_DIRECTORY && !m.fs.isDir node then []
  else [.openBacking (m.fs.backingOf node) (backingFlags flags) m.sys.newFd.1 m.sys.newFd.2.calls]

def openCalls (m : MemoryState) (existing : Option NodeId) (target : Option (NodeId × FileName))
    (flags : Flags) (mode : Mode) : List KernelCall :=
  match existing with
  | some node =>
    if flags &&& (O_CREAT ||| O_EXCL) == O_CREAT ||| O_EXCL then []
    else openFoundCalls m node flags
  | none =>
    if flags.has O_CREAT then
      createCalls m target ++
        match createAt m target .file mode with
        | (none, _) => []
        | (some node, m') => openFoundCalls m' node flags
    else []

theorem createAt_calls {m : MemoryState} (h : m.fs.WF m.sys.nextNodeId)
    (target : Option (NodeId × FileName)) (kind : VfsEntryKind) (mode : Mode) :
    (createAt m target kind mode = (none, m) ∧ createCalls m target = []) ∨
      (∃ sys', createAt m target kind mode = (none, ⟨m.fs, sys'⟩) ∧ sys'.live = m.sys.live ∧
        m.sys.calls ≤ sys'.calls ∧
        ∀ c ∈ createCalls m target, c.fd < 0) ∨
      ∃ m' d x n, createAt m target kind mode = (some n.id, m') ∧ n.id = m.sys.nextNodeId ∧
        0 ≤ n.backingFd ∧ n.backingFd ∉ m.sys.live ∧ m'.sys.live = insert n.backingFd m.sys.live ∧
        m'.sys.calls = m.sys.calls + 1 ∧ Created m.fs m'.fs d x n ∧
        createCalls m target = [.memfdCreate n.backingFd m'.sys.calls] := by
  cases target with
  | none => exact Or.inl ⟨rfl, rfl⟩
  | some t =>
    obtain ⟨d, x⟩ := t
    cases he : m.fs.entriesOf d with
    | none => exact Or.inl ⟨by simp [createAt, createNodeInDir, he], by simp [createCalls, he]⟩
    | some es =>
      by_cases hx : x ∈ es
      · exact Or.inl ⟨by simp [createAt, createNodeInDir, he, hx], by simp [createCalls, he, hx]⟩
      have hc : createCalls m (some (d, x)) =
          [.memfdCreate m.sys.takeId.newFd.1 m.sys.takeId.newFd.2.calls] := by
        simp [createCalls, he, hx]
      by_cases hfd : m.sys.takeId.newFd.1 < 0
      · refine Or.inr (Or.inl ⟨m.sys.takeId.newFd.2, ?_, ?_, Nat.le_succ _, ?_⟩)
        · simp [createAt, createNodeInDir, he, hx, hfd]
        · exact if_neg (not_le.mpr hfd)
        · rw [hc]
          simpa [KernelCall.fd] using hfd
      · cases hr : createNodeInDir m d x kind mode with
        | mk r m' =>
          cases r with
          | none => simp [createNodeInDir, he, hx, hfd] at hr
          | some id =>
            obtain ⟨rfl, -, hs, hcr⟩ := createNodeInDir_made h hr
            have hn : (newNode m.sys.nextNodeId d kind mode m.sys.takeId.newFd.1).inode.backingFd =
                m.sys.takeId.newFd.1 := by
              rw [newNode_inode]
            have hid : (newNode m.sys.nextNodeId d kind mode m.sys.takeId.newFd.1).inode.id =
                m.sys.nextNodeId := by
              rw [newNode_inode]
            refine Or.inr (Or.inr ⟨m', d, x, _, ?_, hid, ?_, ?_, ?_, ?_, hcr, ?_⟩)
            · rw [hid]
              exact hr
            · rw [hn]
              exact not_lt.mp hfd
            · rw [hn]
              exact (Sys.newFd_fresh _ (not_lt.mp hfd)).1
            · rw [hn, hs]
              exact if_pos (not_lt.mp hfd)
            · rw [hs]
              rfl
            · rw [hn, hs, hc]

end MemoryFS

variable {ι : Type} [DecidableEq ι]

namespace Vfs

variable (v : Vfs ι)

def openCallsAt (path : PathBuf) (flags : Flags) (mode : Mode) : List KernelCall :=
  let target := v.absolutePathToFs path
  match v.fsAt target.1 with
  | .memory f =>
    openCalls (v.world.state f) ((v.world.fs f.index).resolve target.2.toAbs)
      ((v.world.fs f.index).resolveParent target.2.toAbs) flags mode
  | .overlay _ => []

def mkdirCallsAt (path : PathBuf) : List KernelCall :=
  let target := v.absolutePathToFs path
  match v.fsAt target.1 with
  | .memory f =>
    createCalls (v.world.state f) ((v.world.fs f.index).resolveParent target.2.toAbs)
  | .overlay _ => []

/-- The calls of the kernel that a hook makes, in their order. -/
def kernelCalls : VfsOp → List KernelCall
  | .openPath path oflag mode => v.openCallsAt (v.resolvePath path) oflag mode
  | .openat dirfd path oflag mode =>
    match path, v.handleOf dirfd with
    | .rel p, some h =>
      openCalls (v.world.state h.nodes) ((v.world.fs h.nodes.index).resolveRelative h.node p)
        ((v.world.fs h.nodes.index).resolveRelativeParent h.node p) oflag mode
    | _, _ => (v.resolveOpenatPath dirfd path).elim [] (v.openCallsAt · oflag mode)
  | .mkdir path _ => v.mkdirCallsAt (v.resolvePath path)
  | .mkdirat dirfd path _ =>
    match path, v.handleOf dirfd with
    | .rel p, some h =>
      createCalls (v.world.state h.nodes)
        ((v.world.fs h.nodes.index).resolveRelativeParent h.node p)
    | _, _ => (v.resolveOpenatPath dirfd path).elim [] v.mkdirCallsAt
  | _ => []

def calls : Nat := v.world.sys.calls

variable {v} {v' : Vfs ι} {h : MemoryOpenedFile ι} {fd : Int}

/-- The node map has given up `o`, if that is a node, and the kernel has opened nothing. -/
structure GivesUp (v v' : Vfs ι) (o : Option (MemoryOpenedFile ι)) : Prop where
  live : v'.live = v.live
  opened : ∀ fd, v'.opened fd = v.opened fd
  inMap : ∀ h, v.inMap h = true ↔ v'.inMap h = true ∨ o = some h
  known : ∀ h, v.Known h → v'.Known h
  backingFd : ∀ h, v.Known h → v'.backingFd h = v.backingFd h
  calls : v.calls ≤ v'.calls

/-- `h` has been made, with the backing file `fd`. -/
structure Made (v v' : Vfs ι) (h : MemoryOpenedFile ι) (fd : Int) : Prop where
  fresh : fd ∉ v.live
  unknown : ¬ v.Known h
  live : v'.live = insert fd v.live
  opened : ∀ fd, v'.opened fd = v.opened fd
  inMap : ∀ h', v'.inMap h' = true ↔ v.inMap h' = true ∨ h' = h
  known : ∀ h', v'.Known h' ↔ v.Known h' ∨ h' = h
  backing : v'.backingFd h = fd
  backingFd : ∀ h', v.Known h' → v'.backingFd h' = v.backingFd h'
  calls : v'.calls = v.calls + 1

structure Opened (v v' : Vfs ι) (h : MemoryOpenedFile ι) (fd : Int) : Prop where
  fresh : fd ∉ v.live
  live : v'.live = insert fd v.live
  opened : ∀ fd', v'.opened fd' = if fd' = fd then some h else v.opened fd'
  world : v'.world.fs = v.world.fs
  calls : v'.calls = v.calls + 1

omit [DecidableEq ι] in
theorem GivesUp.of_fs_eq (hfs : v'.world.fs = v.world.fs) (hlive : v'.live = v.live)
    (hopened : ∀ fd, v'.opened fd = v.opened fd) (hcalls : v.calls ≤ v'.calls) :
    GivesUp v v' none := by
  refine ⟨hlive, hopened, fun h => ?_, fun h hk => ?_, fun h _ => ?_, hcalls⟩
  · simp only [Vfs.inMap, hfs, reduceCtorEq, or_false]
  · rwa [Known, hfs]
  · simp only [Vfs.backingFd, hfs]

omit [DecidableEq ι] in
theorem GivesUp.refl (v : Vfs ι) : GivesUp v v none :=
  .of_fs_eq rfl rfl (fun _ => rfl) le_rfl

theorem put_givesUp (v : Vfs ι) (f : MemoryRef ι) {m : MemoryState}
    (hfs : m.fs = v.world.fs f.index) (hlive : m.sys.live = v.live)
    (hcalls : v.calls ≤ m.sys.calls) : GivesUp v (v.setWorld (v.world.put f m)) none := by
  refine .of_fs_eq ?_ hlive (fun _ => rfl) hcalls
  show Function.update v.world.fs f.index m.fs = _
  rw [hfs, Function.update_eq_self]

theorem put_made (v : Vfs ι) (f : MemoryRef ι) {m : MemoryState} {d : NodeId} {x : FileName}
    {n : Inode} (hc : Created (v.world.fs f.index) m.fs d x n) (hfresh : n.backingFd ∉ v.live)
    (hlive : m.sys.live = insert n.backingFd v.live) (hcalls : m.sys.calls = v.calls + 1) :
    Made v (v.setWorld (v.world.put f m)) ⟨f, n.id⟩ n.backingFd := by
  have hfs (i : ι) : (v.world.put f m).fs i = if i = f.index then m.fs else v.world.fs i :=
    Function.update_apply ..
  have hinode (h : MemoryOpenedFile ι) :
      ((v.world.put f m).fs h.nodes.index).inodeOf h.node =
        if h = ⟨f, n.id⟩ then some n else (v.world.fs h.nodes.index).inodeOf h.node := by
    obtain ⟨⟨i⟩, id⟩ := h
    rw [hfs]
    by_cases hi : i = f.index
    · subst hi
      rw [if_pos rfl, hc.inodeOf]
      by_cases hid : id = n.id
      · rw [if_pos hid, if_pos (by rw [hid])]
      · rw [if_neg hid, if_neg]
        intro he
        exact hid (congrArg MemoryOpenedFile.node he)
    · rw [if_neg hi, if_neg]
      intro he
      exact hi (congrArg (fun h => h.nodes.index) he)
  have hnew : ¬ v.Known ⟨f, n.id⟩ := by
    show ¬ ((v.world.fs f.index).inodeOf n.id).isSome
    rw [hc.fresh]
    exact Bool.false_ne_true
  have hback (h : MemoryOpenedFile ι) : backingFd (v.setWorld (v.world.put f m)) h =
      if h = ⟨f, n.id⟩ then n.backingFd else v.backingFd h := by
    rw [backingFd_eq_inode, backingFd_eq_inode]
    show (((v.world.put f m).fs h.nodes.index).inodeOf h.node).elim (-1) (·.backingFd) = _
    rw [hinode]
    split_ifs <;> rfl
  refine ⟨hfresh, hnew, hlive, fun _ => rfl, ?_, ?_, ?_, ?_, hcalls⟩
  · rintro ⟨⟨i⟩, id⟩
    show decide (id ∈ ((v.world.put f m).fs i).nodes) = true ↔
      decide (id ∈ (v.world.fs i).nodes) = true ∨ _
    rw [decide_eq_true_iff, decide_eq_true_iff, hfs, MemoryOpenedFile.mk.injEq]
    split_ifs with hi
    · subst hi
      rw [hc.nodes, Finset.mem_insert, or_comm]
      exact or_congr_right (and_iff_right rfl).symm
    · refine (or_iff_left ?_).symm
      rintro ⟨he, -⟩
      exact hi (congrArg MemoryRef.index he)
  · intro h
    show (((v.world.put f m).fs h.nodes.index).inodeOf h.node).isSome ↔ _
    rw [hinode]
    split_ifs with he
    · simp [he]
    · simp [he, Known]
  · rw [hback, if_pos rfl]
  · intro h hh
    rw [hback, if_neg]
    rintro rfl
    exact hnew hh

theorem createAt_asks (hv : v.WF) (f : MemoryRef ι) (target : Option (NodeId × FileName))
    (kind : VfsEntryKind) (mode : Mode) :
    let r := createAt (v.world.state f) target kind mode
    let v' := v.setWorld (v.world.put f r.2)
    (r.1 = none ∧ GivesUp v v' none ∧ ∀ c ∈ createCalls (v.world.state f) target, c.fd < 0) ∨
      ∃ fd, r.1 = some v.world.sys.nextNodeId ∧ 0 ≤ fd ∧
        Made v v' ⟨f, v.world.sys.nextNodeId⟩ fd ∧
        createCalls (v.world.state f) target = [.memfdCreate fd v'.world.sys.calls] := by
  rcases createAt_calls (m := v.world.state f) (hv.world.fs f.index) target kind mode with
    ⟨hr, hc⟩ | ⟨sys', hr, hlive, hcalls, hc⟩ |
      ⟨m', d, x, n, hr, hid, hfd, hold, hlive, hcalls, hcr, hc⟩
  · left
    rw [hr, hc]
    exact ⟨rfl, put_givesUp v f rfl rfl le_rfl, by simp⟩
  · left
    rw [hr]
    exact ⟨rfl, put_givesUp v f rfl hlive hcalls, hc⟩
  · right
    have hid' : n.id = v.world.sys.nextNodeId := hid
    rw [hr, hc, ← hid']
    exact ⟨n.backingFd, rfl, hfd, put_made v f hcr hold hlive hcalls, rfl⟩

def openedFound (v : Vfs ι) (f : MemoryRef ι) (node : NodeId) (flags : Flags) (path : PathBuf) :
    Int × Vfs ι :=
  let r := openFound (v.world.state f) node flags
  (v.setWorld (v.world.put f r.2)).trackOpen (openedFile f r.1) path

theorem openedFound_asks (v : Vfs ι) (f : MemoryRef ι) (node : NodeId) (flags : Flags)
    (path : PathBuf) :
    let r := v.openedFound f node flags path
    (r.1 < 0 ∧ GivesUp v r.2 none ∧
        ∀ c ∈ openFoundCalls (v.world.state f) node flags, c.fd < 0) ∨
      0 ≤ r.1 ∧ Opened v r.2 ⟨f, node⟩ r.1 ∧
        openFoundCalls (v.world.state f) node flags =
          [.openBacking (v.backingFd ⟨f, node⟩) (backingFlags flags) r.1 r.2.calls] := by
  intro r
  by_cases hd : (flags.has O_DIRECTORY && !(v.world.state f).fs.isDir node) = true
  · left
    have hr : r = (-1, v.setWorld (v.world.put f (v.world.state f))) := by
      show openedFound v f node flags path = _
      rw [openedFound, openFound, if_pos hd]
      rfl
    have hc : openFoundCalls (v.world.state f) node flags = [] := if_pos hd
    rw [hr, hc]
    exact ⟨(by decide : (-1 : Int) < 0), put_givesUp v f rfl rfl le_rfl, by simp⟩
  · have hc : openFoundCalls (v.world.state f) node flags =
        [.openBacking (v.backingFd ⟨f, node⟩) (backingFlags flags) v.world.sys.newFd.1
          v.world.sys.newFd.2.calls] := if_neg hd
    have hr : r = (v.setWorld (v.world.put f ⟨v.world.fs f.index, v.world.sys.newFd.2⟩)).trackOpen
        ⟨v.world.sys.newFd.1,
          (if v.world.sys.newFd.1 < 0 then none else some node).map (⟨f, ·⟩)⟩ path := by
      show openedFound v f node flags path = _
      rw [openedFound, openFound, if_neg hd]
      rfl
    have hfst : r.1 = v.world.sys.newFd.1 := by
      rw [hr, RootVFS.trackOpen_fst]
    have hworld : r.2.world = v.world.put f ⟨v.world.fs f.index, v.world.sys.newFd.2⟩ := by
      rw [hr, RootVFS.trackOpen_world]
      rfl
    have hfs : r.2.world.fs = v.world.fs := by
      rw [hworld]
      exact Function.update_eq_self ..
    have hopened (fd : Int) : r.2.opened fd =
        if 0 ≤ r.1 ∧ fd = r.1 then some ⟨f, node⟩ else v.opened fd := by
      rw [hfst, hr, opened, RootVFS.trackOpen_getElem?]
      by_cases hfd : 0 ≤ v.world.sys.newFd.1
      · simp only [hfd, true_and, not_lt.mpr hfd, if_false]
        split_ifs <;> rfl
      · simp only [hfd, false_and, if_false]
        rfl
    have hcalls : r.2.calls = v.calls + 1 := by
      rw [calls, hworld]
      rfl
    by_cases hfd : 0 ≤ r.1
    · right
      have hfd' : 0 ≤ v.world.sys.newFd.1 := by rwa [← hfst]
      refine ⟨hfd, ⟨?_, ?_, ?_, hfs, hcalls⟩, ?_⟩
      · rw [hfst]
        exact (Sys.newFd_fresh _ hfd').1
      · rw [live, hworld, hfst]
        exact if_pos hfd'
      · intro fd
        rw [hopened]
        simp only [hfd, true_and]
      · rw [hc, hcalls, hfst]
        rfl
    · left
      have hfd' : v.world.sys.newFd.1 < 0 := by rwa [← hfst, ← not_le]
      refine ⟨not_le.mp hfd, .of_fs_eq hfs ?_ ?_ (hcalls ▸ Nat.le_succ _), ?_⟩
      · rw [live, hworld]
        exact if_neg (not_le.mpr hfd')
      · intro fd
        rw [hopened, if_neg fun hh => hfd hh.1]
      · rw [hc]
        simpa [KernelCall.fd] using hfd'

theorem referenced_of_mem {f : MemoryRef ι} {node : NodeId}
    (h : node ∈ (v.world.fs f.index).nodes) : v.referenced ⟨f, node⟩ = true :=
  (referenced_iff _).mpr (Or.inl (decide_eq_true h))

/-- A lookup from a node ends at a node of the map, or where it began. -/
theorem resolveRelative_mem {fs : MemoryFS} {start node : NodeId} {path : RelPath}
    (h : fs.resolveRelative start path = some node) : node = start ∨ node ∈ fs.nodes := by
  unfold resolveRelative at h
  generalize path.components = comps at h
  induction comps generalizing start with
  | nil => exact Or.inl (Option.some.inj h).symm
  | cons comp comps ih =>
    rw [List.foldlM_cons] at h
    obtain ⟨d, hd, hrest⟩ := Option.bind_eq_some_iff.mp h
    rcases ih hrest with rfl | hm
    · exact stepRelative_mem hd
    · exact Or.inr hm

/-- An open asks for nothing, or opens what it has found or makes. -/
def OpenAsks (v : Vfs ι) (op : VfsOp) (r : Int × Vfs ι) : Prop :=
  (v.kernelCalls op = [] ∧ r = (-1, v)) ∨ ∃ f existing target mode path,
    v.found op = some (f, existing) ∧
      (∀ node, existing = some node → v.referenced ⟨f, node⟩ = true) ∧
      v.kernelCalls op = openCalls (v.world.state f) existing target (openFlags op) mode ∧
      r = v.openedAt f existing target (openFlags op) mode path

theorem openVirtual_asks (hv : v.Ready) {op : VfsOp} {path : PathBuf} {mode : Mode}
    (hfound : v.found op = v.foundAt path)
    (hcalls : v.kernelCalls op = v.openCallsAt path (openFlags op) mode) :
    OpenAsks v op (v.openVirtual path (openFlags op) mode) := by
  obtain ⟨f, hf⟩ := hv.memory.fsAt (v.absolutePathToFs path).1
  refine Or.inr ⟨f, (v.world.fs f.index).resolve (v.absolutePathToFs path).2.toAbs,
    (v.world.fs f.index).resolveParent (v.absolutePathToFs path).2.toAbs, mode, path,
    ?_, ?_, ?_, ?_⟩
  · rw [hfound]
    simp [foundAt, hf]
  · intro node hn
    exact referenced_of_mem ((hv.wf.world.fs f.index).resolveNames_mem hn)
  · rw [hcalls]
    simp [openCallsAt, hf]
  · unfold RootVFS.openVirtual
    dsimp only
    rw [hf]
    show (v.setWorld (v.world.put f (openNode (v.world.state f) _ (openFlags op) mode).2)).trackOpen
      (openedFile f (openNode (v.world.state f) _ (openFlags op) mode).1) path = _
    rw [openNode_eq]
    rfl

theorem openat_asks (hv : v.Ready) (dirfd : Int) (path : Path) (flags : Flags) (mode : Mode) :
    OpenAsks v (.openat dirfd path flags mode) (v.openat dirfd path flags mode) := by
  cases path with
  | abs p => exact openVirtual_asks hv rfl rfl
  | rel p =>
    cases hh : v.handleOf dirfd with
    | none =>
      rw [RootVFS.openat_of_no_handle hh]
      cases hq : v.resolveOpenatPath dirfd (.rel p) with
      | none => exact Or.inl ⟨by simp [kernelCalls, hh, hq], rfl⟩
      | some q =>
        exact openVirtual_asks hv (by simp [found, hh, hq])
          (by simp [kernelCalls, hh, hq, openFlags])
    | some h =>
      obtain ⟨q, -, he⟩ := RootVFS.openat_of_handle hh p flags mode rfl
      refine Or.inr ⟨h.nodes, (v.world.fs h.nodes.index).resolveRelative h.node p,
        (v.world.fs h.nodes.index).resolveRelativeParent h.node p, mode, q, ?_, ?_, ?_, ?_⟩
      · simp only [found, hh]
      · intro node hn
        rcases resolveRelative_mem hn with rfl | hm
        · obtain ⟨-, info, hi, ho⟩ := RootVFS.handleOf_eq_some hh
          exact (referenced_iff _).mpr (Or.inr ⟨dirfd, by simp [opened, hi, ho]⟩)
        · exact referenced_of_mem hm
      · simp only [kernelCalls, hh, openFlags]
      · rw [he, openedAt]
        simp only [openNodeRelative_eq]
        rfl

/-- A `mkdir` asks for nothing, or makes what it makes in a directory. -/
def MakeAsks (v : Vfs ι) (op : VfsOp) (v' : Vfs ι) : Prop :=
  (v.kernelCalls op = [] ∧ v' = v) ∨ ∃ f target mode,
    v.kernelCalls op = createCalls (v.world.state f) target ∧
      v' = v.setWorld (v.world.put f (createAt (v.world.state f) target .dir mode).2)

theorem mkdirVirtual_asks (hv : v.Ready) {op : VfsOp} (path : PathBuf) (mode : Mode)
    (hcalls : v.kernelCalls op = v.mkdirCallsAt path) :
    MakeAsks v op (v.dispatch (fun fs w p => LowLevelFS.mkdir fs w p mode) path).2 := by
  obtain ⟨f, hf⟩ := hv.memory.fsAt (v.absolutePathToFs path).1
  refine Or.inr ⟨f, (v.world.fs f.index).resolveParent (v.absolutePathToFs path).2.toAbs, mode,
    ?_, ?_⟩
  · rw [hcalls]
    simp [mkdirCallsAt, hf]
  · unfold RootVFS.dispatch
    dsimp only
    rw [hf]
    show v.setWorld (v.world.put f (createNode (v.world.state f) _ .dir mode).2) = _
    rw [createNode_eq]
    rfl

theorem mkdirat_asks (hv : v.Ready) (dirfd : Int) (path : Path) (mode : Mode) :
    MakeAsks v (.mkdirat dirfd path mode) (v.mkdirat dirfd path mode).2 := by
  cases path with
  | abs p => exact mkdirVirtual_asks hv _ mode rfl
  | rel p =>
    cases hh : v.handleOf dirfd with
    | none =>
      rw [RootVFS.mkdirat_of_no_handle hh]
      cases hq : v.resolveOpenatPath dirfd (.rel p) with
      | none => exact Or.inl ⟨by simp [kernelCalls, hh, hq], rfl⟩
      | some q => exact mkdirVirtual_asks hv q mode (by simp [kernelCalls, hh, hq])
    | some h =>
      rw [RootVFS.mkdirat_of_handle hh p mode rfl]
      refine Or.inr ⟨h.nodes, (v.world.fs h.nodes.index).resolveRelativeParent h.node p, mode,
        ?_, ?_⟩
      · simp only [kernelCalls, hh]
      · simp only [createRelativeNode_eq]
        rfl

theorem LosesOneIn.givesUp (hv : v.WF) {op : VfsOp} {f : MemoryRef ι}
    (h : LosesOneIn v (v.step op) f) :
    GivesUp v (v.step op)
      ((removedNode (v.world.fs f.index) ((v.step op).world.fs f.index)).map (⟨f, ·⟩)) := by
  refine ⟨congrArg Sys.live h.sys, fun fd => ?_, fun g => ?_, fun g hg => ?_,
    fun g hg => hg.backingFd_eq hv op, (congrArg Sys.calls h.sys).ge⟩
  · simp only [Vfs.opened, h.fds]
  · obtain ⟨⟨i⟩, id⟩ := g
    simp only [Vfs.inMap, decide_eq_true_eq, Option.map_eq_some_iff, MemoryOpenedFile.mk.injEq,
      exists_eq_right_right]
    by_cases hi : i = f.index
    · subst hi
      rw [h.one.mem_iff]
      constructor
      · intro hm
        by_cases hr : removedNode (v.world.fs f.index) ((v.step op).world.fs f.index) = some id
        · exact Or.inr ⟨hr, rfl⟩
        · exact Or.inl ⟨hm, hr⟩
      · rintro (hm | ⟨hr, -⟩)
        · exact hm.1
        · exact (mem_of_removedNode hr).1
    · rw [h.others i hi, or_iff_left]
      rintro ⟨-, he⟩
      exact hi (congrArg MemoryRef.index he).symm
  · obtain ⟨i, i', -, hi', -⟩ := hg.kept hv op
    exact Option.isSome_iff_exists.mpr ⟨i', hi'⟩

theorem chmod_givesUp (hv : v.Ready) (path : Path) (mode : Mode) :
    GivesUp v (v.step (.chmod path mode)) none := by
  obtain ⟨f, hf⟩ := hv.memory.fsAt (v.absolutePathToFs (v.resolvePath path)).1
  have hlose : LosesOneIn v (v.step (.chmod path mode)) f ∧
      ((v.step (.chmod path mode)).world.fs f.index).nodes = (v.world.fs f.index).nodes := by
    show LosesOneIn v (v.dispatch _ _).2 f ∧ ((v.dispatch _ _).2.world.fs f.index).nodes = _
    unfold RootVFS.dispatch
    dsimp only
    rw [hf]
    cases hc : (v.world.fs f.index).chmod (v.absolutePathToFs (v.resolvePath path)).2.toAbs mode with
    | none =>
      have he : LowLevelFS.chmod (Backend.memory f) v.world
          (v.absolutePathToFs (v.resolvePath path)).2.toAbs mode = (-1, v.world) := by
        show LowLevelFS.chmod f v.world _ mode = _
        simp [LowLevelFS.chmod, hc]
      rw [he]
      exact ⟨.refl v f, rfl⟩
    | some fs' =>
      have he : LowLevelFS.chmod (Backend.memory f) v.world
          (v.absolutePathToFs (v.resolvePath path)).2.toAbs mode = (0, v.world.putFs f fs') := by
        show LowLevelFS.chmod f v.world _ mode = _
        simp [LowLevelFS.chmod, hc]
      obtain ⟨id, -, hs⟩ := chmod_cases hc
      rw [he]
      refine ⟨.of_putFs f (Or.inl hs.nodes), ?_⟩
      show ((v.world.putFs f fs').fs f.index).nodes = _
      rw [World.putFs_fs, hs.nodes]
  have hnone : removedNode (v.world.fs f.index) ((v.step (.chmod path mode)).world.fs f.index) =
      none := by
    rw [removedNode, hlose.2]
    simp
  have hg := hlose.1.givesUp hv.wf
  rwa [hnone] at hg

theorem removal_givesUp (hv : v.Ready) (op : VfsOp) {path : PathBuf}
    (hp : v.removalPath op = some path) : GivesUp v (v.step op) (v.removed op) := by
  obtain ⟨f, hf⟩ := hv.memory.fsAt (v.absolutePathToFs path).1
  have hg := (removal_losesOneIn hv.wf hp hf).givesUp hv.wf
  have he : v.removed op =
      (removedNode (v.world.fs f.index) ((v.step op).world.fs f.index)).map (⟨f, ·⟩) := by
    simp [removed, hp, hf, Option.map_eq_bind]
  rwa [he]

theorem effect_vfs_asks (hv : v.Ready) (op : VfsOp) :
    (OpenAsks v op (v.answered op, (v.effect (.vfs op)).1) ∧ v.removed op = none) ∨
      v.answered op = -1 ∧ MakeAsks v op (v.effect (.vfs op)).1 ∧ v.removed op = none ∨
      v.answered op = -1 ∧ v.kernelCalls op = [] ∧
        GivesUp v (v.effect (.vfs op)).1 (v.removed op) := by
  have hwithout {v' : Vfs ι} (hfs : v'.world = v.world)
      (hopened : ∀ fd, v'.opened fd = v.opened fd) : GivesUp v v' none :=
    .of_fs_eq (congrArg World.fs hfs) (congrArg (fun w : World ι => w.sys.live) hfs) hopened
      (congrArg (fun w : World ι => w.sys.calls) hfs).ge
  cases op with
  | openPath path oflag mode => exact Or.inl ⟨openVirtual_asks hv rfl rfl, rfl⟩
  | openat dirfd path oflag mode => exact Or.inl ⟨openat_asks hv dirfd path oflag mode, rfl⟩
  | mkdir path mode => exact Or.inr (Or.inl ⟨rfl, mkdirVirtual_asks hv _ mode rfl, rfl⟩)
  | mkdirat dirfd path mode => exact Or.inr (Or.inl ⟨rfl, mkdirat_asks hv dirfd path mode, rfl⟩)
  | unlink path => exact Or.inr (Or.inr ⟨rfl, rfl, removal_givesUp hv (.unlink path) rfl⟩)
  | rmdir path => exact Or.inr (Or.inr ⟨rfl, rfl, removal_givesUp hv (.rmdir path) rfl⟩)
  | unlinkat dirfd path flags =>
    refine Or.inr (Or.inr ⟨rfl, rfl, ?_⟩)
    cases hp : v.resolveOpenatPath dirfd path with
    | none =>
      have he : v.step (.unlinkat dirfd path flags) = v := by
        simp [step, RootVFS.unlinkat, hp]
      have hr : v.removed (.unlinkat dirfd path flags) = none := by
        simp [removed, removalPath, hp]
      rw [hr]
      show GivesUp v (v.step (.unlinkat dirfd path flags)) none
      rw [he]
      exact .refl v
    | some p => exact removal_givesUp hv (.unlinkat dirfd path flags) hp
  | rename oldPath newPath =>
    exact Or.inr (Or.inr ⟨rfl, rfl, removal_givesUp hv (.rename oldPath newPath) rfl⟩)
  | renameat oldDirfd oldPath newDirfd newPath =>
    refine Or.inr (Or.inr ⟨rfl, rfl, ?_⟩)
    cases hp : v.resolveOpenatPath newDirfd newPath with
    | none =>
      have he : v.step (.renameat oldDirfd oldPath newDirfd newPath) = v := by
        simp only [step, RootVFS.renameat, hp]
        cases v.resolveOpenatPath oldDirfd oldPath <;> rfl
      have hr : v.removed (.renameat oldDirfd oldPath newDirfd newPath) = none := by
        simp [removed, removalPath, hp]
      rw [hr]
      show GivesUp v (v.step (.renameat oldDirfd oldPath newDirfd newPath)) none
      rw [he]
      exact .refl v
    | some p => exact removal_givesUp hv (.renameat oldDirfd oldPath newDirfd newPath) hp
  | chmod path mode => exact Or.inr (Or.inr ⟨rfl, rfl, chmod_givesUp hv path mode⟩)
  | setCwd path => exact Or.inr (Or.inr ⟨rfl, rfl, hwithout rfl fun _ => rfl⟩)
  | getdents64 fd dirpIsNull count =>
    refine Or.inr (Or.inr ⟨rfl, rfl, hwithout ?_ (getdents64_opened v fd dirpIsNull count)⟩)
    show (v.step (.getdents64 fd dirpIsNull count)).world = v.world
    rcases getdents64_step_cases v fd dirpIsNull count with he | ⟨info, n, he, -⟩
    · rw [he]
    · rw [he]
      rfl
  | forgetFd fd => exact Or.inr (Or.inr ⟨rfl, rfl, .refl v⟩)
  | cloneFd oldfd newfd => exact Or.inr (Or.inr ⟨rfl, rfl, .refl v⟩)
  | elsewhere live => exact Or.inr (Or.inr ⟨rfl, rfl, .refl v⟩)

end Vfs

end SandboxVfs
