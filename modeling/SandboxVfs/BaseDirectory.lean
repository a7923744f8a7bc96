import SandboxVfs.NamespaceTree

/-! In which directory the calls relative to a descriptor look their name up: some go
by the node of its handle, the others by the path recorded when it was opened. -/

namespace SandboxVfs

open MemoryFS

variable {ι : Type} [DecidableEq ι]

namespace MemoryFS

variable {fs : MemoryFS} {next : NodeId}

def single (x : FileName) : RelPath := ⟨[.normal x]⟩

theorem WF.resolveRelative_single (h : fs.WF next) (d : NodeId) (x : FileName) :
    fs.resolveRelative d (single x) = fs.entryAt d x := by
  have hc : (single x).components = [.normal x] := rfl
  rw [resolveRelative, hc, ← h.edge_eq]
  simp [stepRelative]

theorem resolveRelativeParent_single (fs : MemoryFS) (d : NodeId) (x : FileName) :
    fs.resolveRelativeParent d (single x) = some (d, x) := rfl

theorem removeNodeAt_of_parent {q : PathBuf} {d : NodeId} {x : FileName}
    (hd : fs.resolveNames q = some d) (kind : VfsEntryKind) :
    fs.removeNodeAt (PathBuf.toAbs (q ++ [x])) kind = fs.removeEntry d x kind := by
  simp [removeNodeAt, resolveParent_toAbs_concat, hd]

def statEntry (w : World ι) (f : MemoryRef ι) (d : NodeId) (x : FileName) : Option Stat := do
  let node ← (w.fs f.index).entryAt d x
  return (w.fs f.index).statNode w.sys (← (w.fs f.index).heap node)

end MemoryFS

namespace Vfs

/-- A memory file system as the root, and nothing else mounted. -/
structure MemoryRoot (f : MemoryRef ι) (v : Vfs ι) : Prop where
  wf : v.WF
  root : v.root = .memory f
  mounts : ∀ p, v.mounts p = none

/-- All calls relative to `dirfd` resolve the name `x` in the directory `d`. What is
made there is what is removed there. -/
structure AgreeOn (f : MemoryRef ι) (v : Vfs ι) (dirfd : Int) (d : NodeId) (x : FileName) :
    Prop where
  openat : ∀ flags mode, ∃ q, v.openat dirfd (.rel (single x)) flags mode =
    (v.setWorld (v.world.put f (openAt (v.world.state f) ((v.world.fs f.index).entryAt d x)
      (some (d, x)) flags mode).2)).trackOpen
        (openedFile f (openAt (v.world.state f) ((v.world.fs f.index).entryAt d x)
          (some (d, x)) flags mode).1) q
  mkdirat : ∀ mode, v.mkdirat dirfd (.rel (single x)) mode =
    (createdStatus (createNodeInDir (v.world.state f) d x .dir mode).1,
      v.setWorld (v.world.put f (createNodeInDir (v.world.state f) d x .dir mode).2))
  unlinkat : ∀ flags : Flags, v.unlinkat dirfd (.rel (single x)) flags =
    let r := (v.world.fs f.index).removeEntry d x (if flags.has AT_REMOVEDIR then .dir else .file)
    (r.1, v.setWorld (v.world.putFs f r.2))
  renameat : ∃ q, v.resolveOpenatPath dirfd (.rel (single x)) = some q ∧
    (v.world.fs f.index).resolveParent q.toAbs = some (d, x)
  stat : ((v.resolveOpenatPath dirfd (.rel (single x))).bind fun q => v.stat (.abs q.toAbs)) =
    statEntry v.world f d x
  unlink_created : ∀ mode, 0 ≤ (v.openat dirfd (.rel (single x)) (O_CREAT ||| O_EXCL) mode).1 →
    ∃ c, let v' := (v.openat dirfd (.rel (single x)) (O_CREAT ||| O_EXCL) mode).2
      v'.handleOf (v.openat dirfd (.rel (single x)) (O_CREAT ||| O_EXCL) mode).1 = some ⟨f, c⟩ ∧
        (v'.unlinkat dirfd (.rel (single x)) 0).1 = 0 ∧
        Removed (v'.world.fs f.index)
          ((v'.unlinkat dirfd (.rel (single x)) 0).2.world.fs f.index) d x c

variable {f : MemoryRef ι} {v : Vfs ι} {dirfd : Int} {info : FdInfo (MemoryOpenedFile ι)}
  {d : NodeId}

/-- A tracked descriptor of this process with a handle on a directory. -/
structure OpenDir (f : MemoryRef ι) (v : Vfs ι) (dirfd : Int)
    (info : FdInfo (MemoryOpenedFile ι)) (d : NodeId) : Prop where
  nonneg : 0 ≤ dirfd
  live : dirfd ∈ v.world.sys.live
  tracked : v.fds[dirfd]? = some info
  opened : info.opened = some ⟨f, d⟩
  dir : (v.world.fs f.index).isDir d = true

omit [DecidableEq ι] in
theorem OpenDir.ne_cwd (h : OpenDir f v dirfd info d) : dirfd ≠ AT_FDCWD := by
  have hn := h.nonneg
  unfold AT_FDCWD
  omega

omit [DecidableEq ι] in
theorem OpenDir.handleOf (h : OpenDir f v dirfd info d) : v.handleOf dirfd = some ⟨f, d⟩ := by
  simp [RootVFS.handleOf, h.ne_cwd, h.tracked, h.opened]

omit [DecidableEq ι] in
theorem OpenDir.resolveOpenatPath (h : OpenDir f v dirfd info d) (x : FileName) :
    v.resolveOpenatPath dirfd (.rel (single x)) = some (info.path ++ [x]) := by
  have hj : normalizeAbsolute (info.path.toAbs.join (single x)) = info.path ++ [x] := by
    rw [normalizeAbsolute_join]
    rfl
  simp [RootVFS.resolveOpenatPath, h.ne_cwd, h.tracked, hj]

theorem OpenDir.openat (hv : MemoryRoot f v) (h : OpenDir f v dirfd info d) (x : FileName)
    (flags : Flags) (mode : Mode) :
    v.openat dirfd (.rel (single x)) flags mode =
      (v.setWorld (v.world.put f (openAt (v.world.state f) ((v.world.fs f.index).entryAt d x)
        (some (d, x)) flags mode).2)).trackOpen
          (openedFile f (openAt (v.world.state f) ((v.world.fs f.index).entryAt d x)
            (some (d, x)) flags mode).1) (info.path ++ [x]) := by
  obtain ⟨q, hq, he⟩ := RootVFS.openat_of_handle h.handleOf (single x) flags mode rfl
  rw [h.resolveOpenatPath] at hq
  cases hq
  have hrel := openNodeRelative_eq (v.world.state f) d (single x) flags mode
  have hex : (v.world.state f).fs.resolveRelative d (single x) =
      (v.world.fs f.index).entryAt d x := (hv.wf.world.fs f.index).resolveRelative_single d x
  rw [hex, resolveRelativeParent_single] at hrel
  rw [he, ← hrel]

theorem OpenDir.mkdirat (h : OpenDir f v dirfd info d) (x : FileName) (mode : Mode) :
    v.mkdirat dirfd (.rel (single x)) mode =
      (createdStatus (createNodeInDir (v.world.state f) d x .dir mode).1,
        v.setWorld (v.world.put f (createNodeInDir (v.world.state f) d x .dir mode).2)) := by
  have he := RootVFS.mkdirat_of_handle h.handleOf (single x) mode rfl
  have hrel := createRelativeNode_eq (v.world.state f) d (single x) .dir mode
  rw [resolveRelativeParent_single] at hrel
  have hc : createRelativeNode (v.world.state f) d (single x) .dir mode =
      createNodeInDir (v.world.state f) d x .dir mode := hrel
  rw [he, ← hc]

/-- By the recorded path `unlinkat` works in `d` when that path leads there. -/
theorem OpenDir.unlinkat (hv : MemoryRoot f v) (h : OpenDir f v dirfd info d)
    (hd : (v.world.fs f.index).resolveNames info.path = some d) (x : FileName) (flags : Flags) :
    v.unlinkat dirfd (.rel (single x)) flags =
      (((v.world.fs f.index).removeEntry d x
          (if flags.has AT_REMOVEDIR then .dir else .file)).1,
        v.setWorld (v.world.putFs f ((v.world.fs f.index).removeEntry d x
          (if flags.has AT_REMOVEDIR then .dir else .file)).2)) := by
  have hrm (kind : VfsEntryKind) := removeNodeAt_of_parent (x := x) hd kind
  simp only [RootVFS.unlinkat, h.resolveOpenatPath]
  split_ifs
  · rw [← hrm, v.dispatch_of_no_mounts hv.mounts, hv.root]
    rfl
  · rw [← hrm, v.dispatch_of_no_mounts hv.mounts, hv.root]
    rfl

theorem OpenDir.stat (hv : MemoryRoot f v) (h : OpenDir f v dirfd info d)
    (hd : (v.world.fs f.index).resolveNames info.path = some d) (x : FileName) :
    ((v.resolveOpenatPath dirfd (.rel (single x))).bind fun q => v.stat (.abs q.toAbs)) =
      statEntry v.world f d x := by
  rw [h.resolveOpenatPath, Option.bind_some]
  simp only [RootVFS.stat, RootVFS.resolvePath, normalizeAbsolute_toAbs,
    v.absolutePathToFs_of_no_mounts hv.mounts, RootVFS.fsAt, hv.root]
  have hs : LowLevelFS.stat (Backend.memory f) v.world (PathBuf.toAbs (info.path ++ [x])) =
      ((v.world.fs f.index).resolve (PathBuf.toAbs (info.path ++ [x]))).bind fun node =>
        ((v.world.fs f.index).heap node).bind fun n =>
          some ((v.world.fs f.index).statNode v.world.sys n) := rfl
  rw [hs, resolve_toAbs, (hv.wf.world.fs f.index).resolveNames_concat, hd]
  rfl

theorem MemoryRoot.of_step {v' : Vfs ι} (hv : MemoryRoot f v) {op : VfsOp} (hs : Step v op v') :
    MemoryRoot f v' :=
  ⟨hs.wf hv.wf, hs.root_eq.trans hv.root, fun p => by rw [hs.mounts_eq, hv.mounts p]⟩

theorem OpenDir.openat_created (hv : MemoryRoot f v) (h : OpenDir f v dirfd info d)
    (x : FileName) (mode : Mode) {r : Int × Vfs ι}
    (he : v.openat dirfd (.rel (single x)) (O_CREAT ||| O_EXCL) mode = r) (hr : 0 ≤ r.1) :
    ∃ n, Created (v.world.fs f.index) (r.2.world.fs f.index) d x n ∧
      n.id = v.world.sys.nextNodeId ∧ n.isDir = false ∧ r.2.handleOf r.1 = some ⟨f, n.id⟩ ∧
      OpenDir f r.2 dirfd info d := by
  have hwf := hv.wf.world.fs f.index
  have hspec := World.openAt_spec hv.wf.world f ((v.world.fs f.index).entryAt d x)
    (fun n hn => hwf.mem_heap n (hwf.entry_mem d x n hn)) (some (d, x)) (O_CREAT ||| O_EXCL) mode
  obtain ⟨hch, hok⟩ := hspec
  rw [h.openat hv] at he
  rcases openAt_cases (m := v.world.state f) hwf ((v.world.fs f.index).entryAt d x) (some (d, x))
    (O_CREAT ||| O_EXCL) mode with
    ⟨sys', hc, -⟩ | ⟨node, hn, -⟩ | ⟨m', d', x', n, -, -, ht, hid, -, hdir, -, hcr, hc⟩
  · -- nothing was opened
    rw [hc] at he
    subst he
    rw [RootVFS.trackOpen_fst] at hr
    simp [openedFile] at hr
  · -- an existing node is refused
    have hneg : openAt (v.world.state f) ((v.world.fs f.index).entryAt d x) (some (d, x))
        (O_CREAT ||| O_EXCL) mode = (⟨-1, none⟩, v.world.state f) := by
      rw [hn]
      rfl
    rw [hneg] at he
    subst he
    rw [RootVFS.trackOpen_fst] at hr
    simp [openedFile] at hr
  · cases ht
    obtain ⟨sys', hm, -, ho, -⟩ := openFound_cases m' n.id (O_CREAT ||| O_EXCL)
    rw [hc, hm] at he hch hok
    subst he
    rw [RootVFS.trackOpen_fst] at hr ⊢
    have hfd : 0 ≤ (openFound m' n.id (O_CREAT ||| O_EXCL)).1.fd := hr
    have hopened : (openedFile f (openFound m' n.id (O_CREAT ||| O_EXCL)).1).opened =
        some ⟨f, n.id⟩ := by
      simp [openedFile, ho, hfd]
    have hne : dirfd ≠ (openedFile f (openFound m' n.id (O_CREAT ||| O_EXCL)).1).fd := by
      intro heq
      exact (hok.fresh hr).1 (heq ▸ h.live)
    have hcwd : (openedFile f (openFound m' n.id (O_CREAT ||| O_EXCL)).1).fd ≠ AT_FDCWD := by
      unfold AT_FDCWD
      omega
    have hfs : ((v.setWorld (v.world.put f ⟨m'.fs, sys'⟩)).trackOpen
        (openedFile f (openFound m' n.id (O_CREAT ||| O_EXCL)).1)
        (info.path ++ [x])).2.world.fs f.index = m'.fs := by
      rw [RootVFS.trackOpen_world]
      exact World.put_fs _ _ _
    refine ⟨n, ?_, hid, hdir, ?_, h.nonneg, ?_, ?_, h.opened, ?_⟩
    · rw [hfs]
      exact hcr
    · rw [RootVFS.handleOf, if_neg hcwd, RootVFS.trackOpen_getElem?, if_pos ⟨hr, rfl⟩, hopened]
      rfl
    · rw [RootVFS.trackOpen_world]
      exact hch.later.live h.live
    · rw [RootVFS.trackOpen_getElem?, if_neg fun hh => hne hh.2]
      exact h.tracked
    · rw [hfs, hcr.isDir_eq, if_neg]
      · exact h.dir
      · rintro rfl
        have hnone := h.dir
        rw [isDir_eq_inode, show (v.world.fs f.index).inodeOf n.id = none from hcr.fresh] at hnone
        cases hnone

theorem OpenDir.unlinkat_entry (hv : MemoryRoot f v) (h : OpenDir f v dirfd info d)
    (hd : (v.world.fs f.index).resolveNames info.path = some d) {x : FileName} {c : NodeId}
    (hx : (v.world.fs f.index).entryAt d x = some c)
    (hdir : (v.world.fs f.index).isDir c = false) :
    (v.unlinkat dirfd (.rel (single x)) 0).1 = 0 ∧
      Removed (v.world.fs f.index)
        ((v.unlinkat dirfd (.rel (single x)) 0).2.world.fs f.index) d x c := by
  have hwf := hv.wf.world.fs f.index
  have hkind : (if Flags.has 0 AT_REMOVEDIR then VfsEntryKind.dir else .file) = .file := rfl
  have hkm : (v.world.fs f.index).kindMatches c .file = true := by
    simp [kindMatches, hdir]
  have hzero := removeEntry_eq_zero hwf hx hkm
  rw [h.unlinkat hv hd, hkind]
  refine ⟨hzero, ?_⟩
  show Removed _ ((v.world.putFs f _).fs f.index) d x c
  rw [World.putFs_fs]
  rcases removeEntry_cases hwf d x .file with hbad | ⟨c', fs', hgood, -, hrem⟩
  · rw [hbad] at hzero
    cases hzero
  · have hcc : c' = c := Option.some.inj (hrem.present.symm.trans hx)
    subst hcc
    rw [hgood]
    exact hrem

theorem OpenDir.unlink_created (hv : MemoryRoot f v) (h : OpenDir f v dirfd info d)
    (hd : (v.world.fs f.index).resolveNames info.path = some d) (x : FileName) (mode : Mode)
    {r : Int × Vfs ι} (he : v.openat dirfd (.rel (single x)) (O_CREAT ||| O_EXCL) mode = r)
    (hr : 0 ≤ r.1) :
    ∃ c, r.2.handleOf r.1 = some ⟨f, c⟩ ∧ (r.2.unlinkat dirfd (.rel (single x)) 0).1 = 0 ∧
      Removed (r.2.world.fs f.index)
        ((r.2.unlinkat dirfd (.rel (single x)) 0).2.world.fs f.index) d x c := by
  obtain ⟨n, hcr, hid, hdir, hh, hopen⟩ := h.openat_created hv x mode he hr
  have hstep : Step v (.openat dirfd (.rel (single x)) (O_CREAT ||| O_EXCL) mode)
      (v.openat dirfd (.rel (single x)) (O_CREAT ||| O_EXCL) mode).2 :=
    .growth (openat_opening hv.wf dirfd (.rel (single x)) (O_CREAT ||| O_EXCL) mode).growth
  rw [he] at hstep
  have hv' := hv.of_step hstep
  have hd' : (r.2.world.fs f.index).resolveNames info.path = some d := by
    rw [hcr.resolveNames (hv.wf.world.fs f.index) hid hd]
    simp [NameGraph.addPath, hd]
  have hx : (r.2.world.fs f.index).entryAt d x = some n.id := by
    rw [hcr.entryAt, if_pos ⟨rfl, rfl⟩]
  have hfile : (r.2.world.fs f.index).isDir n.id = false := by
    rw [hcr.isDir_eq, if_pos rfl, hdir]
  exact ⟨n.id, hh, hopen.unlinkat_entry hv' hd' hx hfile⟩

/-- The calls relative to a directory descriptor agree if and only if the path recorded
for it still leads to the directory of its handle. -/
theorem agreeOn_iff (hv : MemoryRoot f v) (h : OpenDir f v dirfd info d) :
    (∀ x, AgreeOn f v dirfd d x) ↔ (v.world.fs f.index).resolveNames info.path = some d := by
  constructor
  · intro hh
    obtain ⟨q, hq, hp⟩ := (hh .a).renameat
    rw [h.resolveOpenatPath] at hq
    cases hq
    rw [resolveParent_toAbs_concat] at hp
    obtain ⟨d', hd', he⟩ := Option.map_eq_some_iff.mp hp
    cases he
    exact hd'
  · intro hd x
    constructor
    · exact fun flags mode => ⟨_, h.openat hv x flags mode⟩
    · exact h.mkdirat x
    · exact h.unlinkat hv hd x
    · refine ⟨_, h.resolveOpenatPath x, ?_⟩
      rw [resolveParent_toAbs_concat, hd]
      rfl
    · exact h.stat hv hd x
    · exact fun mode hr => h.unlink_created hv hd x mode rfl hr

theorem newMemory_root (inodeForPath : List (List UInt8) → Nat) (sys : Sys) :
    MemoryRoot ⟨()⟩ (newMemory inodeForPath sys) :=
  ⟨newMemory_wf inodeForPath sys, rfl, fun _ => rfl⟩

theorem MemoryRoot.run (hv : MemoryRoot f v) (ops : List VfsOp) : MemoryRoot f (v.run ops) :=
  Runs.foldl_inv (MemoryRoot f) (fun _ op hs => hs.of_step (step_spec hs.wf op)) hv ops

def dirA : PathBuf := [.a]
def dirB : PathBuf := [.b]

/-- After these the descriptor of `/a` is 5 and its node 2. -/
def openedA : List VfsOp := [.mkdir (.abs dirA.toAbs) 0o755, .openPath (.abs dirA.toAbs) 0 0]

theorem openDir_openedA :
    OpenDir ⟨()⟩ ((newMemory (fun _ => 0) .boot).run openedA) 5 ⟨dirA, 0, some ⟨⟨()⟩, 2⟩⟩ 2 :=
  ⟨by decide, by decide +kernel, by decide +kernel, rfl, by decide +kernel⟩

/-- The directory becomes `/b`, and another one `/a`. -/
def replacedA : Vfs Unit :=
  (newMemory (fun _ => 0) .boot).run
    (openedA ++ [.rename (.abs dirA.toAbs) (.abs dirB.toAbs), .mkdir (.abs dirA.toAbs) 0o755])

end Vfs

end SandboxVfs
