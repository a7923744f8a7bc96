import SandboxVfs.OverlayOpens

/-! Direct calls on memory file systems, without a `RootVFS` above them, and which of
them fail and still leave something behind. -/

namespace SandboxVfs

open MemoryFS NameGraph

variable {ι : Type}

/-- A call of `LowLevelFS` or of an opened node. `elsewhere` is the rest of the process,
which opens and closes descriptors of its own. -/
inductive MemoryCall (ι : Type) where
  | openWithHandle (f : MemoryRef ι) (path : AbsPath) (flags : Flags) (mode : Mode)
  | openChild (h : MemoryOpenedFile ι) (path : RelPath) (flags : Flags) (mode : Mode)
  | mkdir (f : MemoryRef ι) (path : AbsPath) (mode : Mode)
  | mkdirChild (h : MemoryOpenedFile ι) (path : RelPath) (mode : Mode)
  | unlink (f : MemoryRef ι) (path : AbsPath)
  | rmdir (f : MemoryRef ι) (path : AbsPath)
  | rename (f : MemoryRef ι) (oldPath newPath : AbsPath)
  | chmod (f : MemoryRef ι) (path : AbsPath) (mode : Mode)
  | elsewhere (live : Finset Int)

namespace MemoryFS

variable {fs : MemoryFS}

/-- A node can be made in this place, but for a descriptor. -/
def Vacant (fs : MemoryFS) (target : Option (NodeId × FileName)) : Prop :=
  ∃ d x, target = some (d, x) ∧ fs.isDir d = true ∧ fs.entryAt d x = none

theorem createAt_isSome_iff (m : MemoryState) (target : Option (NodeId × FileName))
    (kind : VfsEntryKind) (mode : Mode) :
    (createAt m target kind mode).1.isSome = true ↔
      m.fs.Vacant target ∧ m.sys.grants 1 = true := by
  rw [grants_one_iff]
  cases target with
  | none => simp [createAt, Vacant]
  | some t =>
    have hh := createNodeInDir_isSome_iff m t.1 t.2 kind mode
    simp only [createAt, hh, Vacant, Option.some.injEq]
    constructor
    · rintro ⟨hd, hx, hk⟩
      exact ⟨⟨t.1, t.2, rfl, hd, hx⟩, hk⟩
    · rintro ⟨⟨d, x, rfl, hd, hx⟩, hk⟩
      exact ⟨hd, hx, hk⟩

theorem openAt_refused {m : MemoryState} {target : Option (NodeId × FileName)} {flags : Flags}
    (h : ¬ (flags.has O_CREAT = true ∧ m.fs.Vacant target ∧ m.sys.grants 1 = true))
    (mode : Mode) :
    (openAt m none target flags mode).1 = ⟨-1, none⟩ ∧
      (openAt m none target flags mode).2.fs = m.fs := by
  unfold openAt openResolvedNode
  by_cases hc : flags.has O_CREAT = true
  · have hno : ¬ (createAt m target .file mode).1.isSome = true := by
      rw [createAt_isSome_iff]
      exact fun hh => h ⟨hc, hh⟩
    simp only [hc, if_true]
    cases he : createAt m target .file mode with
    | mk r m' =>
      cases r with
      | none =>
        refine ⟨rfl, ?_⟩
        cases target with
        | none =>
          cases he
          rfl
        | some t => exact createNodeInDir_none he
      | some n => simp [he] at hno
  · simp [hc]

/-- The file is made first. Then the rest of the open is decided as for any file. -/
theorem openAt_creates {m : MemoryState} (h : m.fs.WF m.sys.nextNodeId)
    {target : Option (NodeId × FileName)} {flags : Flags} (hc : flags.has O_CREAT = true)
    (hv : m.fs.Vacant target) (hg : m.sys.grants 1 = true) (mode : Mode) :
    ∃ d x n m', target = some (d, x) ∧ openAt m none target flags mode = openFound m' n.id flags ∧
      n.id = m.sys.nextNodeId ∧ n.mode = mode &&& 0o7777 ∧ Created m.fs m'.fs d x n ∧
      m'.fs.isDir n.id = false ∧ ∀ k, m'.sys.grants k = m.sys.grants (k + 1) := by
  obtain ⟨d, x, rfl, hd, hx⟩ := hv
  obtain ⟨n, m', hcr, hid, hfile, hmode, hcreated, -, hgrants⟩ :=
    createNodeInDir_granted h hd hx hg .file mode
  refine ⟨d, x, n, m', rfl, ?_, hid, hmode, hcreated, ?_, hgrants⟩
  · have hat : createAt m (some (d, x)) .file mode = (some n.id, m') := hcr
    simp [openAt, openResolvedNode, hc, hat]
  · rw [hcreated.isDir_eq, if_pos rfl, hfile]
    rfl

theorem openFound_fd_nonneg_iff (m : MemoryState) (node : NodeId) (flags : Flags) :
    0 ≤ (openFound m node flags).1.fd ↔ CanOpen m node flags := by
  by_cases h : CanOpen m node flags
  · exact iff_of_true (openFound_of_canOpen h).1 h
  · exact iff_of_false (not_le.mpr (openFound_of_not_canOpen h).1) h

/-- A file is created for an open that is then rejected: no regular file passes
`O_DIRECTORY`, and the backing file may get no second descriptor. -/
def StrandsFile (m : MemoryState) (existing : Option NodeId)
    (target : Option (NodeId × FileName)) (flags : Flags) : Prop :=
  existing = none ∧ flags.has O_CREAT = true ∧ m.fs.Vacant target ∧ m.sys.grants 1 = true ∧
    (flags.has O_DIRECTORY = true ∨ m.sys.grants 2 = false)

theorem openAt_failsClean_iff {m : MemoryState} (h : m.fs.WF m.sys.nextNodeId)
    (existing : Option NodeId) (target : Option (NodeId × FileName)) (flags : Flags)
    (mode : Mode) :
    ((openAt m existing target flags mode).1.fd < 0 →
        (openAt m existing target flags mode).2.fs = m.fs) ↔
      ¬ StrandsFile m existing target flags := by
  cases existing with
  | some node =>
    refine iff_of_true (fun _ => openAt_fs_some m node target flags mode) ?_
    rintro ⟨hn, -⟩
    cases hn
  | none =>
    by_cases hcan : flags.has O_CREAT = true ∧ m.fs.Vacant target ∧ m.sys.grants 1 = true
    · obtain ⟨d, x, n, m', -, he, -, -, hcr, hfile, hgrants⟩ :=
        openAt_creates h hcan.1 hcan.2.1 hcan.2.2 mode
      -- the new file is in the map of nodes, whatever the rest of the open does
      have hne : (openAt m none target flags mode).2.fs ≠ m.fs := by
        rw [he, openFound_fs]
        intro heq
        have hmem : n.id ∈ m.fs.nodes := by
          rw [← heq, hcr.nodes]
          exact Finset.mem_insert_self _ _
        have hsome := h.mem_heap n.id hmem
        rw [hcr.fresh] at hsome
        cases hsome
      have hfd : (openAt m none target flags mode).1.fd < 0 ↔
          flags.has O_DIRECTORY = true ∨ m.sys.grants 2 = false := by
        rw [he, ← not_le, openFound_fd_nonneg_iff, CanOpen, hfile, hgrants]
        cases flags.has O_DIRECTORY <;> simp
      have hst : StrandsFile m none target flags ↔
          flags.has O_DIRECTORY = true ∨ m.sys.grants 2 = false :=
        ⟨fun hh => hh.2.2.2.2, fun hh => ⟨rfl, hcan.1, hcan.2.1, hcan.2.2, hh⟩⟩
      rw [hst, ← hfd]
      exact ⟨fun hh hneg => hne (hh hneg), fun hh hneg => absurd hneg hh⟩
    · refine iff_of_true (fun _ => (openAt_refused hcan mode).2) ?_
      rintro ⟨-, hc, hv, hg, -⟩
      exact hcan ⟨hc, hv, hg⟩

end MemoryFS

namespace World

variable [DecidableEq ι] {w : World ι}

/-- The status of a call, which is a descriptor for the two that open, and the world
after it. -/
def call (w : World ι) : MemoryCall ι → Int × World ι
  | .openWithHandle f path flags mode =>
    let r := LowLevelFS.openWithHandle f w path flags mode
    (r.1.fd, r.2)
  | .openChild h path flags mode =>
    match OpenedFile.openChild h w (.rel path) flags mode with
    | some r => (r.1.fd, r.2)
    | none => (0, w)
  | .mkdir f path mode => LowLevelFS.mkdir f w path mode
  | .mkdirChild h path mode =>
    match OpenedFile.mkdirChild h w (.rel path) mode with
    | some r => r
    | none => (0, w)
  | .unlink f path => LowLevelFS.unlink f w path
  | .rmdir f path => LowLevelFS.rmdir f w path
  | .rename f oldPath newPath => LowLevelFS.rename f w oldPath newPath
  | .chmod f path mode => LowLevelFS.chmod f w path mode
  | .elsewhere live => (0, { w with sys := { w.sys with live } })

def step (w : World ι) (c : MemoryCall ι) : World ι := (w.call c).2

def calls (w : World ι) (cs : List (MemoryCall ι)) : World ι := cs.foldl step w

theorem openAt_grows (hw : w.WF) (f : MemoryRef ι) (existing : Option NodeId)
    (target : Option (NodeId × FileName)) (flags : Flags) (mode : Mode) :
    Grows {f.index} w (w.put f (openAt (w.state f) existing target flags mode).2) := by
  rcases openAt_cases (m := w.state f) (hw.fs f.index) existing target flags mode with
    ⟨sys', he, hl⟩ | ⟨node, -, he⟩ | ⟨m', d, x, n, -, -, -, hid, hl, -, -, hc, he⟩
  · rw [he]
    exact .single (idle_put w f hl)
  · obtain ⟨sys', hs, hl, -⟩ := openFound_cases (w.state f) node flags
    rw [he, hs]
    exact .single (idle_put w f hl)
  · obtain ⟨sys', hs, hl', -⟩ := openFound_cases m' n.id flags
    rw [he, hs]
    have hch : Grow {f.index} w (w.put f m') := by
      refine .created f.index d x n rfl hid ?_ (fun j hj => put_fs_ne w f m' hj) hl
      rwa [put_fs]
    have hidle := idle_put (S := {f.index}) (w.put f m') f hl'
    rw [put_fs, put_put] at hidle
    exact (Relation.ReflTransGen.single hch).tail hidle

theorem call_openWithHandle (f : MemoryRef ι) (path : AbsPath) (flags : Flags) (mode : Mode) :
    let r := openAt (w.state f) ((w.fs f.index).resolve path) ((w.fs f.index).resolveParent path)
      flags mode
    w.call (.openWithHandle f path flags mode) = (r.1.fd, w.put f r.2) := by
  intro r
  have he : openNode (w.state f) path flags mode = r := openNode_eq (w.state f) path flags mode
  rw [← he]
  rfl

theorem call_openChild (h : MemoryOpenedFile ι) (path : RelPath) (flags : Flags) (mode : Mode) :
    let r := openAt (w.state h.nodes) ((w.fs h.nodes.index).resolveRelative h.node path)
      ((w.fs h.nodes.index).resolveRelativeParent h.node path) flags mode
    w.call (.openChild h path flags mode) = (r.1.fd, w.put h.nodes r.2) := by
  intro r
  have he : openNodeRelative (w.state h.nodes) h.node path flags mode = r :=
    openNodeRelative_eq (w.state h.nodes) h.node path flags mode
  rw [← he]
  rfl

theorem call_mkdir (f : MemoryRef ι) (path : AbsPath) (mode : Mode) :
    let r := createAt (w.state f) ((w.fs f.index).resolveParent path) .dir mode
    w.call (.mkdir f path mode) = (createdStatus r.1, w.put f r.2) := by
  intro r
  have he : createNode (w.state f) path .dir mode = r := createNode_eq (w.state f) path .dir mode
  rw [← he]
  rfl

theorem call_mkdirChild (h : MemoryOpenedFile ι) (path : RelPath) (mode : Mode) :
    let r := createAt (w.state h.nodes)
      ((w.fs h.nodes.index).resolveRelativeParent h.node path) .dir mode
    w.call (.mkdirChild h path mode) = (createdStatus r.1, w.put h.nodes r.2) := by
  intro r
  have he : createRelativeNode (w.state h.nodes) h.node path .dir mode = r :=
    createRelativeNode_eq (w.state h.nodes) h.node path .dir mode
  rw [← he]
  rfl

theorem step_wf (hw : w.WF) (c : MemoryCall ι) : (w.step c).WF := by
  unfold step
  cases c with
  | openWithHandle f path flags mode =>
    rw [call_openWithHandle]
    exact (openAt_grows hw f _ _ flags mode).wf hw
  | openChild h path flags mode =>
    rw [call_openChild]
    exact (openAt_grows hw h.nodes _ _ flags mode).wf hw
  | mkdir f path mode => exact (memory_mkdir hw f path mode).wf hw
  | mkdirChild h path mode =>
    rw [call_mkdirChild]
    exact (createAt_spec hw h.nodes _ .dir mode).wf hw
  | unlink f path => exact (memory_remove hw f path .file).wf hw
  | rmdir f path => exact (memory_remove hw f path .dir).wf hw
  | rename f oldPath newPath => exact (memory_rename hw f oldPath newPath).wf hw
  | chmod f path mode => exact (memory_chmod f path mode).wf hw
  | elsewhere live => exact ⟨hw.fs, hw.apart⟩

theorem calls_wf (hw : w.WF) (cs : List (MemoryCall ι)) : (w.calls cs).WF :=
  Runs.foldl_inv WF (fun _ c hs => step_wf hs c) hw cs

def Strands (w : World ι) : MemoryCall ι → Prop
  | .openWithHandle f path flags _ =>
    StrandsFile (w.state f) ((w.fs f.index).resolve path) ((w.fs f.index).resolveParent path) flags
  | .openChild h path flags _ =>
    StrandsFile (w.state h.nodes) ((w.fs h.nodes.index).resolveRelative h.node path)
      ((w.fs h.nodes.index).resolveRelativeParent h.node path) flags
  | _ => False

/-- The file systems, with all their nodes, are as before if the call fails. -/
def FailsClean (w : World ι) (c : MemoryCall ι) : Prop :=
  (w.call c).1 < 0 → (w.call c).2.fs = w.fs

theorem put_fs_eq_iff (f : MemoryRef ι) (m : MemoryState) :
    (w.put f m).fs = w.fs ↔ m.fs = w.fs f.index :=
  Function.update_eq_self_iff

theorem createAt_failsClean (f : MemoryRef ι) (target : Option (NodeId × FileName))
    (mode : Mode) (hneg : createdStatus (createAt (w.state f) target .dir mode).1 < 0) :
    (w.put f (createAt (w.state f) target .dir mode).2).fs = w.fs := by
  rw [put_fs_eq_iff]
  cases hr : createAt (w.state f) target .dir mode with
  | mk r m' =>
    cases r with
    | some n => simp [createdStatus, hr] at hneg
    | none =>
      cases target with
      | none =>
        cases hr
        rfl
      | some t => exact createNodeInDir_none hr

theorem remove_failsClean (hw : w.WF) (f : MemoryRef ι) (path : AbsPath) (kind : VfsEntryKind)
    (hneg : ((w.fs f.index).removeNodeAt path kind).1 < 0) :
    (w.putFs f ((w.fs f.index).removeNodeAt path kind).2).fs = w.fs := by
  rcases removeNodeAt_cases (hw.fs f.index) path kind with he | ⟨d, x, c, -, -, hz, -⟩
  · rw [he, putFs_self]
  · rw [hz] at hneg
    exact absurd hneg (lt_irrefl 0)

theorem failsClean_iff (hw : w.WF) (c : MemoryCall ι) : w.FailsClean c ↔ ¬ w.Strands c := by
  unfold FailsClean
  cases c with
  | openWithHandle f path flags mode =>
    rw [call_openWithHandle, put_fs_eq_iff]
    exact openAt_failsClean_iff (m := w.state f) (hw.fs f.index) _ _ flags mode
  | openChild h path flags mode =>
    rw [call_openChild, put_fs_eq_iff]
    exact openAt_failsClean_iff (m := w.state h.nodes) (hw.fs h.nodes.index) _ _ flags mode
  | mkdir f path mode =>
    rw [call_mkdir]
    exact iff_of_true (createAt_failsClean f _ mode) not_false
  | mkdirChild h path mode =>
    rw [call_mkdirChild]
    exact iff_of_true (createAt_failsClean h.nodes _ mode) not_false
  | unlink f path => exact iff_of_true (remove_failsClean hw f path .file) not_false
  | rmdir f path => exact iff_of_true (remove_failsClean hw f path .dir) not_false
  | rename f oldPath newPath =>
    refine iff_of_true ?_ not_false
    cases he : (w.fs f.index).renameNodeAt oldPath newPath with
    | none => simp [call, LowLevelFS.rename, he]
    | some fs' => simp [call, LowLevelFS.rename, he]
  | chmod f path mode =>
    refine iff_of_true ?_ not_false
    cases he : (w.fs f.index).chmod path mode with
    | none => simp [call, LowLevelFS.chmod, he]
    | some fs' => simp [call, LowLevelFS.chmod, he]
  | elsewhere live => exact iff_of_true (fun _ => rfl) not_false

/-- Along any calls: the failing ones leave the file systems alone as long as none of
them is an open that strands its file. -/
theorem calls_failClean_iff (hw : w.WF) (cs : List (MemoryCall ι)) :
    Runs.EveryStep step FailsClean w cs ↔ Runs.EveryStep step (fun w c => ¬ w.Strands c) w cs := by
  constructor
  · intro h
    exact h.imp WF (fun w c hw hc => ⟨step_wf hw c, (failsClean_iff hw c).mp hc⟩) hw
  · intro h
    exact h.imp WF (fun w c hw hc => ⟨step_wf hw c, (failsClean_iff hw c).mpr hc⟩) hw

abbrev two : World (Fin 2) := fresh 2 .boot

theorem fails_clean_mkdirD :
    Runs.EveryStep step FailsClean two
      [.mkdir fst (PathBuf.toAbs [.d]) 0o755, .mkdir fst (PathBuf.toAbs [.d]) 0o755,
        .openWithHandle fst (PathBuf.toAbs [.d, .a]) O_CREAT 0o644] := by
  refine (calls_failClean_iff (fresh_wf 2 .boot) _).mpr ⟨not_false, not_false, ?_, trivial⟩
  rintro ⟨-, -, -, -, hdir | hg⟩
  · exact absurd hdir (by decide)
  · exact absurd hg (by decide +kernel)

/-- `open("/a", O_CREAT | O_DIRECTORY)` fails and leaves the file. -/
theorem not_failsClean_openDirectory :
    ¬ ∀ c, two.FailsClean c := by
  intro h
  refine (failsClean_iff (fresh_wf 2 .boot) _).mp
    (h (.openWithHandle fst (PathBuf.toAbs [.a]) (O_CREAT ||| O_DIRECTORY) 0o644)) ?_
  refine ⟨by decide +kernel, by decide, ⟨1, .a, ?_, ?_, ?_⟩, by decide +kernel, Or.inl (by decide)⟩
  · decide +kernel
  · decide +kernel
  · decide +kernel

end World

end SandboxVfs
