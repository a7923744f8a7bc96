import SandboxVfs.WorldSteps

/-! The changes behind each method of the backends, and the handles that they
give out. -/

namespace SandboxVfs

open MemoryFS

variable {ι : Type} [DecidableEq ι]

namespace World

variable {w w' w'' : World ι} {f : MemoryRef ι} {S : Set ι}

theorem put_self (w : World ι) (f : MemoryRef ι) (sys : Sys) :
    w.put f ⟨w.fs f.index, sys⟩ = { w with sys } := by simp [put]

@[simp] theorem put_fs (w : World ι) (f : MemoryRef ι) (m : MemoryState) :
    (w.put f m).fs f.index = m.fs := by simp [put]

theorem put_fs_ne (w : World ι) (f : MemoryRef ι) (m : MemoryState) {j : ι} (hj : j ≠ f.index) :
    (w.put f m).fs j = w.fs j := by simp [put, hj]

theorem put_put (w : World ι) (f : MemoryRef ι) (m m' : MemoryState) :
    (w.put f m).put f m' = w.put f m' := by simp [put]

@[simp] theorem putFs_fs (w : World ι) (f : MemoryRef ι) (fs : MemoryFS) :
    (w.putFs f fs).fs f.index = fs := by simp [putFs]

theorem putFs_fs_ne (w : World ι) (f : MemoryRef ι) (fs : MemoryFS) {j : ι}
    (hj : j ≠ f.index) : (w.putFs f fs).fs j = w.fs j := by simp [putFs, hj]

@[simp] theorem putFs_self (w : World ι) (f : MemoryRef ι) : w.putFs f (w.fs f.index) = w := by
  simp [putFs]

@[simp] theorem putFs_sys (w : World ι) (f : MemoryRef ι) (fs : MemoryFS) :
    (w.putFs f fs).sys = w.sys := rfl

theorem memory_readDir_eq (f : MemoryRef ι) (w : World ι) (p : PathBuf) :
    LowLevelFS.readDir f w p.toAbs =
      ((w.fs f.index).resolveNames p).bind (w.fs f.index).readNodeDir := by
  have hd : LowLevelFS.readDir f w p.toAbs =
      ((w.fs f.index).resolve p.toAbs).bind (w.fs f.index).readNodeDir := rfl
  rw [hd, resolve_toAbs]

theorem memory_readDir_isSome_iff (hw : w.WF) (f : MemoryRef ι) (p : PathBuf) :
    (LowLevelFS.readDir f w p.toAbs).isSome = true ↔
      ∃ d, (w.fs f.index).resolveNames p = some d ∧ (w.fs f.index).isDir d = true := by
  rw [memory_readDir_eq]
  cases hp : (w.fs f.index).resolveNames p with
  | none => simp
  | some d =>
    rw [Option.bind_some, (hw.fs _).readNodeDir_eq, Option.isSome_map]
    simp [isDir]

theorem idle_put (w : World ι) (f : MemoryRef ι) {sys : Sys} (h : w.sys.Later sys) :
    Grow S w (w.put f ⟨w.fs f.index, sys⟩) := by
  rw [put_self]
  exact .idle rfl h

/-- What `RootVFS` relies on when it tracks the result of an open. -/
structure OpenOk (w w' : World ι) (r : OpenResult (MemoryOpenedFile ι)) : Prop where
  isSome_iff : r.opened.isSome = true ↔ 0 ≤ r.fd
  known : ∀ h, r.opened = some h → ((w'.fs h.nodes.index).inodeOf h.node).isSome
  fresh : 0 ≤ r.fd → r.fd ∉ w.sys.live ∧ r.fd ∈ w'.sys.live

omit [DecidableEq ι] in
theorem OpenOk.of_later (hl : w.sys.Later w'.sys) {r : OpenResult (MemoryOpenedFile ι)}
    (h : OpenOk w' w'' r) : OpenOk w w'' r := by
  refine ⟨h.isSome_iff, h.known, ?_⟩
  intro hr
  exact ⟨fun hm => (h.fresh hr).1 (hl.live hm), (h.fresh hr).2⟩

theorem openFound_ok (f : MemoryRef ι) {m : MemoryState} {node : NodeId}
    (hn : (m.fs.inodeOf node).isSome) (flags : Flags) :
    ∃ sys', w.put f (openFound m node flags).2 = w.put f ⟨m.fs, sys'⟩ ∧ m.sys.Later sys' ∧
      OpenOk (w.put f m) (w.put f ⟨m.fs, sys'⟩) (openedFile f (openFound m node flags).1) := by
  obtain ⟨sys', he, hl, ho, hfresh⟩ := openFound_cases m node flags
  refine ⟨sys', by rw [he], hl, ?_, ?_, hfresh⟩
  · simp only [openedFile, ho]
    split_ifs with hfd <;> simp [hfd]
  · intro h hh
    simp only [openedFile, ho] at hh
    split_ifs at hh
    · simp only [Option.map_some, Option.some.injEq] at hh
      subst hh
      simpa using hn
    · simp at hh

theorem openAt_spec (hw : w.WF) (f : MemoryRef ι) (existing : Option NodeId)
    (hex : ∀ n, existing = some n → ((w.fs f.index).inodeOf n).isSome)
    (target : Option (NodeId × FileName)) (flags : Flags) (mode : Mode) :
    let r := openAt (w.state f) existing target flags mode
    Grows {i | i = f.index ∧ flags.has O_CREAT = true} w (w.put f r.2) ∧
      OpenOk w (w.put f r.2) (openedFile f r.1) := by
  intro r
  rcases openAt_cases (m := w.state f) (hw.fs f.index) existing target flags mode with
    ⟨sys', he, hl⟩ | ⟨node, hn, he⟩ | ⟨m', d, x, n, -, hcreat, -, hid, hl, -, -, hc, he⟩
  · simp only [r, he]
    exact ⟨.single (idle_put w f hl), by simp [openedFile], by simp [openedFile],
      by simp [openedFile]⟩
  · obtain ⟨sys', hp, hl, ho⟩ := openFound_ok (w := w) f (m := w.state f) (hex node hn) flags
    have hself : w.put f (w.state f) = w := by
      rw [state, put_self]
    simp only [r, he, hp]
    rw [hself] at ho
    exact ⟨.single (idle_put w f hl), ho⟩
  · have hn : (m'.fs.inodeOf n.id).isSome := by
      rw [hc.inodeOf, if_pos rfl]
      rfl
    obtain ⟨sys', hp, hl', ho⟩ := openFound_ok (w := w) f hn flags
    simp only [r, he, hp]
    have hch : Grow {i | i = f.index ∧ flags.has O_CREAT = true} w (w.put f m') := by
      refine .created f.index d x n ⟨rfl, hcreat⟩ hid ?_ (fun j hj => put_fs_ne w f m' hj) hl
      rwa [put_fs]
    refine ⟨(Relation.ReflTransGen.single hch).tail ?_, ho.of_later hch.later⟩
    have hid' := idle_put (S := {i | i = f.index ∧ flags.has O_CREAT = true}) (w.put f m') f hl'
    rwa [put_fs, put_put] at hid'

theorem createAt_spec (hw : w.WF) (f : MemoryRef ι) (target : Option (NodeId × FileName))
    (kind : VfsEntryKind) (mode : Mode) :
    Grows {f.index} w (w.put f (createAt (w.state f) target kind mode).2) := by
  rcases createAt_cases (m := w.state f) (hw.fs f.index) target kind mode with
    ⟨sys', he, hl⟩ | ⟨m', d, x, n, he, -, hid, hl, -, -, hc⟩
  · rw [he]
    exact .single (idle_put w f hl)
  · rw [he]
    refine .single (.created f.index d x n rfl hid ?_ (fun j hj => put_fs_ne w f m' hj) hl)
    rwa [put_fs]

end World

namespace MemoryFS

variable {fs : MemoryFS} {next : NodeId}

theorem WF.resolve_known (h : fs.WF next) {path : AbsPath} {c : NodeId}
    (hp : fs.resolve path = some c) : (fs.inodeOf c).isSome :=
  h.mem_heap c (h.resolveNames_mem hp)

theorem stepRelative_mem {node c : NodeId} {comp : Component}
    (h : fs.stepRelative node comp = some c) : c = node ∨ c ∈ fs.nodes := by
  cases comp with
  | curDir => exact Or.inl (Option.some.inj h).symm
  | parentDir =>
    obtain ⟨p, -, hc⟩ := Option.bind_eq_some_iff.mp h
    obtain ⟨hm, rfl⟩ := nodeFromMap_eq_some.mp hc
    exact Or.inr hm
  | normal x =>
    change fs.edge node x = some c at h
    rw [edge_eq] at h
    obtain ⟨p, -, hc⟩ := Option.bind_eq_some_iff.mp h
    obtain ⟨hm, rfl⟩ := nodeFromMap_eq_some.mp hc
    exact Or.inr hm

theorem WF.resolveRelative_known (h : fs.WF next) {start c : NodeId} {path : RelPath}
    (hs : (fs.inodeOf start).isSome) (hp : fs.resolveRelative start path = some c) :
    (fs.inodeOf c).isSome := by
  unfold resolveRelative at hp
  generalize path.components = comps at hp
  induction comps generalizing start with
  | nil =>
    cases hp
    exact hs
  | cons comp comps ih =>
    rw [List.foldlM_cons] at hp
    obtain ⟨d, hd, hc⟩ := Option.bind_eq_some_iff.mp hp
    rcases stepRelative_mem hd with rfl | hm
    · exact ih hs hc
    · exact ih (h.mem_heap d hm) hc

end MemoryFS

namespace World

variable {w : World ι}

theorem memory_openWithHandle (hw : w.WF) (f : MemoryRef ι) (path : AbsPath) (flags : Flags)
    (mode : Mode) :
    Grows {i | i = f.index ∧ flags.has O_CREAT = true} w
        (LowLevelFS.openWithHandle f w path flags mode).2 ∧
      OpenOk w (LowLevelFS.openWithHandle f w path flags mode).2
        (LowLevelFS.openWithHandle f w path flags mode).1 := by
  have hh := openAt_spec hw f ((w.fs f.index).resolve path)
    (fun n hn => (hw.fs f.index).resolve_known hn) ((w.fs f.index).resolveParent path) flags mode
  change Grows _ w (w.put f (openNode (w.state f) path flags mode).2) ∧
    OpenOk w (w.put f (openNode (w.state f) path flags mode).2)
      (openedFile f (openNode (w.state f) path flags mode).1)
  rw [openNode_eq]
  exact hh

theorem memory_mkdir (hw : w.WF) (f : MemoryRef ι) (path : AbsPath) (mode : Mode) :
    Grows {f.index} w (LowLevelFS.mkdir f w path mode).2 := by
  change Grows _ w (w.put f (createNode (w.state f) path .dir mode).2)
  rw [createNode_eq]
  exact createAt_spec hw f _ _ _

theorem memory_remove (hw : w.WF) (f : MemoryRef ι) (path : AbsPath) (kind : VfsEntryKind) :
    Changes {f.index} w (w.putFs f ((w.fs f.index).removeNodeAt path kind).2) := by
  rcases removeNodeAt_cases (hw.fs f.index) path kind with he | ⟨d, x, c, -, -, -, hr⟩
  · rw [he, putFs_self]
  · refine .single (.removed f.index d x c rfl ?_ (fun j hj => putFs_fs_ne w f _ hj) rfl)
    rwa [putFs_fs]

theorem memory_rename (hw : w.WF) (f : MemoryRef ι) (oldPath newPath : AbsPath) :
    Changes {f.index} w (LowLevelFS.rename f w oldPath newPath).2 := by
  cases he : (w.fs f.index).renameNodeAt oldPath newPath with
  | none =>
    have hr : LowLevelFS.rename f w oldPath newPath = (-1, w) := by simp [LowLevelFS.rename, he]
    rw [hr]
  | some fs' =>
    have hr : LowLevelFS.rename f w oldPath newPath = (0, w.putFs f fs') := by
      simp [LowLevelFS.rename, he]
    rw [hr]
    rcases renameNodeAt_cases (hw.fs f.index) he with
      ⟨rfl, -⟩ | ⟨a, x, b, y, c, replaced, -, -, hm, -, -⟩
    · rw [putFs_self]
    · refine .single (.moved f.index a x b y c replaced rfl ?_
        (fun j hj => putFs_fs_ne w f _ hj) rfl)
      rwa [putFs_fs]

theorem memory_chmod (f : MemoryRef ι) (path : AbsPath) (mode : Mode) :
    Changes {f.index} w (LowLevelFS.chmod f w path mode).2 := by
  cases he : (w.fs f.index).chmod path mode with
  | none =>
    have hr : LowLevelFS.chmod f w path mode = (-1, w) := by simp [LowLevelFS.chmod, he]
    rw [hr]
  | some fs' =>
    have hr : LowLevelFS.chmod f w path mode = (0, w.putFs f fs') := by
      simp [LowLevelFS.chmod, he]
    rw [hr]
    obtain ⟨id, -, hs⟩ := chmod_cases he
    refine .single (.modeSet f.index id (mode &&& 0o7777) rfl ?_ (fun j hj => putFs_fs_ne w f _ hj) rfl)
    rwa [putFs_fs]

theorem handle_openChild (hw : w.WF) {h : MemoryOpenedFile ι}
    (hn : ((w.fs h.nodes.index).inodeOf h.node).isSome) (path : RelPath) (flags : Flags)
    (mode : Mode) :
    ∃ r w', OpenedFile.openChild h w (.rel path) flags mode = some (r, w') ∧
      Grows {i | i = h.nodes.index ∧ flags.has O_CREAT = true} w w' ∧ OpenOk w w' r := by
  have hh := openAt_spec hw h.nodes ((w.fs h.nodes.index).resolveRelative h.node path)
    (fun n hp => (hw.fs h.nodes.index).resolveRelative_known hn hp)
    ((w.fs h.nodes.index).resolveRelativeParent h.node path) flags mode
  refine ⟨_, _, rfl, ?_⟩
  rw [openNodeRelative_eq]
  exact hh

theorem handle_mkdirChild (hw : w.WF) (h : MemoryOpenedFile ι) (path : RelPath) (mode : Mode) :
    ∃ r w', OpenedFile.mkdirChild h w (.rel path) mode = some (r, w') ∧
      Grows {h.nodes.index} w w' := by
  refine ⟨_, _, rfl, ?_⟩
  rw [createRelativeNode_eq]
  exact createAt_spec hw h.nodes _ _ _

theorem ensureTopParentDirs_grows (hw : w.WF) (o : OverlayFS (MemoryRef ι)) (path : AbsPath) :
    Grows {o.top.index} w (o.ensureTopParentDirs w path) := by
  have hloop (ps : List AbsPath) (w' : World ι) (hw' : Grows {o.top.index} w w') :
      Grows {o.top.index} w (ps.foldl o.ensureTopDir w') := by
    induction ps generalizing w' with
    | nil => exact hw'
    | cons p ps ih =>
      apply ih
      unfold OverlayFS.ensureTopDir
      split_ifs
      · exact hw'.trans (memory_mkdir (hw'.wf hw) o.top p 0o755)
      · exact hw'
  unfold OverlayFS.ensureTopParentDirs
  split
  · exact .refl
  · split_ifs
    · exact .refl
    · exact hloop _ w .refl

end World

omit [DecidableEq ι] in
theorem OverlayFS.visibleLayer_mem {F H W : Type} [LowLevelFS F H W] (o : OverlayFS F) (w : W)
    (path : AbsPath) : o.visibleLayer w path ∈ o.layers := by
  unfold visibleLayer layers
  split_ifs
  · simp
  · cases o.middle with
    | none => simp
    | some middle =>
      dsimp only
      split_ifs <;> simp

omit [DecidableEq ι] in
theorem OverlayFS.actingLayer_mem {F H W : Type} [LowLevelFS F H W] (o : OverlayFS F) (w : W)
    (path : AbsPath) : o.actingLayer w path ∈ o.layers := by
  unfold actingLayer
  split_ifs
  · simp [layers]
  · exact o.visibleLayer_mem w path

namespace Backend

variable {w : World ι}

def layers : Backend ι → List (MemoryRef ι)
  | .memory f => [f]
  | .overlay o => o.layers

def indices (b : Backend ι) : Set ι := {i | ∃ f ∈ b.layers, f.index = i}

omit [DecidableEq ι] in
theorem singleton_subset_indices {b : Backend ι} {f : MemoryRef ι} (hf : f ∈ b.layers) :
    {f.index} ⊆ b.indices := by
  intro i hi
  exact ⟨f, hf, hi.symm⟩

omit [DecidableEq ι] in
theorem top_mem (o : OverlayFS (MemoryRef ι)) : o.top ∈ (Backend.overlay o).layers :=
  List.mem_cons_self

theorem overlay_openWithHandle (hw : w.WF) (o : OverlayFS (MemoryRef ι)) (path : AbsPath)
    (flags : Flags) (mode : Mode) :
    World.Grows {o.top.index} w (LowLevelFS.openWithHandle o w path flags mode).2 ∧
      World.OpenOk w (LowLevelFS.openWithHandle o w path flags mode).2
        (LowLevelFS.openWithHandle o w path flags mode).1 := by
  by_cases hwr : OverlayFS.writes flags = true
  · have he : LowLevelFS.openWithHandle o w path flags mode =
        LowLevelFS.openWithHandle o.top (o.ensureTopParentDirs w path) path flags mode :=
      if_pos hwr
    have hp := World.ensureTopParentDirs_grows hw o path
    obtain ⟨hc, ho⟩ := World.memory_openWithHandle (hp.wf hw) o.top path flags mode
    rw [he]
    exact ⟨hp.trans (hc.mono fun i hi => hi.1), ho.of_later hp.later⟩
  · have he : LowLevelFS.openWithHandle o w path flags mode =
        LowLevelFS.openWithHandle (o.visibleLayer w path) w path flags mode := if_neg hwr
    obtain ⟨hc, ho⟩ := World.memory_openWithHandle hw (o.visibleLayer w path) path flags mode
    have hcreat : ¬ flags.has O_CREAT = true :=
      fun h => hwr (Flags.has_of_has_part (by decide) h)
    rw [he]
    exact ⟨hc.mono fun i hi => absurd hi.2 hcreat, ho⟩

theorem openWithHandle_spec (hw : w.WF) (b : Backend ι) (path : AbsPath) (flags : Flags)
    (mode : Mode) :
    World.Grows b.indices w (LowLevelFS.openWithHandle b w path flags mode).2 ∧
      World.OpenOk w (LowLevelFS.openWithHandle b w path flags mode).2
        (LowLevelFS.openWithHandle b w path flags mode).1 := by
  cases b with
  | memory f =>
    obtain ⟨hc, ho⟩ := World.memory_openWithHandle hw f path flags mode
    exact ⟨hc.mono fun i hi => ⟨f, List.mem_singleton_self f, hi.1.symm⟩, ho⟩
  | overlay o =>
    obtain ⟨hc, ho⟩ := overlay_openWithHandle hw o path flags mode
    exact ⟨hc.mono (singleton_subset_indices (top_mem o)), ho⟩

theorem overlay_mkdir (hw : w.WF) (o : OverlayFS (MemoryRef ι)) (path : AbsPath) (mode : Mode) :
    World.Grows {o.top.index} w (LowLevelFS.mkdir o w path mode).2 := by
  have hp := World.ensureTopParentDirs_grows hw o path
  exact hp.trans (World.memory_mkdir (hp.wf hw) o.top path mode)

theorem mkdir_spec (hw : w.WF) (b : Backend ι) (path : AbsPath) (mode : Mode) :
    World.Grows b.indices w (LowLevelFS.mkdir b w path mode).2 := by
  cases b with
  | memory f =>
    exact (World.memory_mkdir hw f path mode).mono
      (singleton_subset_indices (List.mem_singleton_self f))
  | overlay o => exact (overlay_mkdir hw o path mode).mono (singleton_subset_indices (top_mem o))

theorem unlink_spec (hw : w.WF) (b : Backend ι) (path : AbsPath) :
    World.Changes b.indices w (LowLevelFS.unlink b w path).2 := by
  cases b with
  | memory f =>
    exact (World.memory_remove hw f path .file).mono
      (singleton_subset_indices (List.mem_singleton_self f))
  | overlay o =>
    exact (World.memory_remove hw (o.actingLayer w path) path .file).mono
      (singleton_subset_indices (o.actingLayer_mem w path))

theorem rmdir_spec (hw : w.WF) (b : Backend ι) (path : AbsPath) :
    World.Changes b.indices w (LowLevelFS.rmdir b w path).2 := by
  cases b with
  | memory f =>
    exact (World.memory_remove hw f path .dir).mono
      (singleton_subset_indices (List.mem_singleton_self f))
  | overlay o =>
    exact (World.memory_remove hw (o.actingLayer w path) path .dir).mono
      (singleton_subset_indices (o.actingLayer_mem w path))

theorem rename_spec (hw : w.WF) (b : Backend ι) (oldPath newPath : AbsPath) :
    World.Changes b.indices w (LowLevelFS.rename b w oldPath newPath).2 := by
  cases b with
  | memory f =>
    exact (World.memory_rename hw f oldPath newPath).mono
      (singleton_subset_indices (List.mem_singleton_self f))
  | overlay o =>
    by_cases htop : LowLevelFS.access o.top w oldPath F_OK = 0
    · have he : LowLevelFS.rename (Backend.overlay o) w oldPath newPath =
          LowLevelFS.rename o.top (o.ensureTopParentDirs w newPath) oldPath newPath :=
        if_pos htop
      have hp := World.ensureTopParentDirs_grows hw o newPath
      rw [he]
      exact World.Changes.mono (singleton_subset_indices (top_mem o))
        (hp.changes.trans (World.memory_rename (hp.wf hw) o.top oldPath newPath))
    · have he : LowLevelFS.rename (Backend.overlay o) w oldPath newPath =
          LowLevelFS.rename (o.visibleLayer w oldPath) w oldPath newPath := if_neg htop
      rw [he]
      exact (World.memory_rename hw (o.visibleLayer w oldPath) oldPath newPath).mono
        (singleton_subset_indices (o.visibleLayer_mem w oldPath))

theorem chmod_spec (b : Backend ι) (path : AbsPath) (mode : Mode) :
    World.Changes b.indices w (LowLevelFS.chmod b w path mode).2 := by
  cases b with
  | memory f =>
    exact (World.memory_chmod f path mode).mono
      (singleton_subset_indices (List.mem_singleton_self f))
  | overlay o =>
    exact (World.memory_chmod (o.visibleLayer w path) path mode).mono
      (singleton_subset_indices (o.visibleLayer_mem w path))

end Backend

end SandboxVfs
