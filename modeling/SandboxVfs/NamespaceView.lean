import SandboxVfs.MemoryPaths

/-! What a memory file system shows by path, and exactly when an operation changes it. -/

namespace SandboxVfs

open NameGraph

namespace MemoryFS

def view (fs : MemoryFS) (p : PathBuf) : Option (NodeId × Bool × Mode) :=
  (fs.resolveNames p).bind fun c => (fs.inodeOf c).map fun i => (c, i.isDir, i.mode)

def CanRemove (fs : MemoryFS) (p : PathBuf) (kind : VfsEntryKind) : Prop :=
  p ≠ [] ∧ ∃ c, fs.resolveNames p = some c ∧ fs.kindMatches c kind = true

def SetsMode (fs : MemoryFS) (p : PathBuf) (mode : Mode) : Prop :=
  ∃ c i, fs.resolveNames p = some c ∧ fs.inodeOf c = some i ∧ i.mode ≠ mode &&& 0o7777

def CanCreate (m : MemoryState) (target : Option (NodeId × FileName)) : Prop :=
  ∃ d x q, target = some (d, x) ∧ m.fs.resolveNames q = some d ∧ m.fs.isDir d = true ∧
    m.fs.entryAt d x = none ∧ 0 ≤ m.sys.kernel.answer m.sys.calls m.sys.live

variable {fs fs' : MemoryFS} {next : NodeId}

theorem WF.view_node (h : fs.WF next) (p : PathBuf) :
    (fs.view p).map (·.1) = fs.resolveNames p := by
  unfold view
  cases hp : fs.resolveNames p with
  | none => rfl
  | some c =>
    obtain ⟨i, hi⟩ := Option.isSome_iff_exists.mp (h.mem_heap c (h.resolveNames_mem hp))
    simp [hi]

theorem WF.resolveNames_eq_of_view (h : fs.WF next) {next' : NodeId} (h' : fs'.WF next')
    (hv : fs'.view = fs.view) : fs'.resolveNames = fs.resolveNames := by
  funext p
  rw [← h.view_node, ← h'.view_node, hv]

theorem view_congr (hr : fs'.resolveNames = fs.resolveNames)
    (hi : ∀ p c, fs.resolveNames p = some c → fs'.inodeOf c = fs.inodeOf c) :
    fs'.view = fs.view := by
  funext p
  simp only [view, hr]
  cases hp : fs.resolveNames p with
  | none => rfl
  | some c => simp only [Option.bind_some, hi p c hp]

theorem remove_view_iff (h : fs.WF next) (p : PathBuf) (kind : VfsEntryKind) :
    (fs.removeNodeAt p.toAbs kind).2.view = fs.view ↔ ¬ fs.CanRemove p kind := by
  have hcan : fs.CanRemove p kind ↔ (fs.removeNodeAt p.toAbs kind).1 = 0 :=
    (removeNodeAt_toAbs_iff h p kind).symm
  rcases removeNodeAt_toAbs_cases h p kind with he | ⟨fs', q, x, d, c, he, rfl, -, hc, -, hr, hp⟩
  · rw [hcan, he]
    simp
  · rw [hcan, he]
    refine ⟨fun hv => ?_, fun hh => absurd rfl hh⟩
    have hh := h.resolveNames_eq_of_view (hr.wf h) hv
    rw [hp] at hh
    have hq := congrFun hh (q ++ [x])
    rw [hc] at hq
    simp [erasePath] at hq

theorem rename_view_iff (h : fs.WF next) (old new : PathBuf) :
    ((fs.renameNodeAt old.toAbs new.toAbs).getD fs).view = fs.view ↔ ¬ fs.CanMove old new := by
  by_cases hne : old = new
  · subst hne
    have hcan : ¬ fs.CanMove old old := fun hh => hh.ne rfl
    rw [renameNodeAt_same]
    split_ifs <;> simp [hcan]
  · rw [← renameNodeAt_isSome_iff h hne]
    cases hr : fs.renameNodeAt old.toAbs new.toAbs with
    | none => simp
    | some fs' =>
      obtain ⟨pa, x, a, pb, y, b, c, replaced, -, -, -, -, hc, hm, -, -, hp⟩ :=
        renameNodeAt_toAbs h hne hr
      simp only [Option.getD_some, Option.isSome_some, not_true_eq_false, iff_false]
      intro hv
      have hh := congrFun (h.resolveNames_eq_of_view (hm.wf h) hv) new
      rw [hp] at hh
      simp only [movePath, List.prefix_rfl, if_true, List.drop_length, List.append_nil, hc] at hh
      exact hne (h.resolveNames_inj hc hh.symm)

theorem chmod_view_iff (h : fs.WF next) (p : PathBuf) (mode : Mode) :
    ((fs.chmod p.toAbs mode).getD fs).view = fs.view ↔ ¬ fs.SetsMode p mode := by
  cases hc : fs.chmod p.toAbs mode with
  | none =>
    have hp : fs.resolveNames p = none := by
      rw [← resolve_toAbs]
      exact Option.map_eq_none_iff.mp hc
    simp [SetsMode, hp]
  | some fs' =>
    obtain ⟨c, hp, hm⟩ := chmod_cases hc
    rw [resolve_toAbs] at hp
    obtain ⟨i, hi⟩ := Option.isSome_iff_exists.mp (h.mem_heap c (h.resolveNames_mem hp))
    have hr := hm.resolveNames h
    have hset : fs.SetsMode p mode ↔ i.mode ≠ mode &&& 0o7777 := by
      simp [SetsMode, hp, hi]
    rw [Option.getD_some, hset, not_not]
    constructor
    · intro hv
      have hh := congrFun hv p
      simp only [view, hr, hp, Option.bind_some, hm.inodeOf, hi, if_true, Option.map_some,
        Option.some.injEq, Prod.mk.injEq, true_and] at hh
      exact hh.symm
    · intro he
      refine view_congr hr ?_
      intro q d _
      rw [hm.inodeOf]
      split_ifs with hd
      · subst hd
        rw [hi, ← he]
        rfl
      · rfl

theorem Created.view_eq_iff (h : fs.WF next) {d : NodeId} {x : FileName} {n : Inode}
    (hc : Created fs fs' d x n) (hid : n.id = next) :
    fs'.view = fs.view ↔ ∀ q, fs.resolveNames q ≠ some d := by
  constructor
  · intro hv q hq
    have hh := congrFun (h.resolveNames_eq_of_view (hc.wf h hid) hv) (q ++ [x])
    rw [hc.resolveNames h hid hq, h.resolveNames_concat, hq, Option.bind_some, hc.absent] at hh
    simp [addPath] at hh
  · intro hq
    refine view_congr (hc.resolveNames_detached h hid hq) ?_
    intro p c hp
    rw [hc.inodeOf, if_neg]
    rintro rfl
    exact h.not_mem_fresh hid.ge (h.resolveNames_mem hp)

theorem createAt_view_iff {m : MemoryState} (h : m.fs.WF m.sys.nextNodeId)
    (target : Option (NodeId × FileName)) (kind : VfsEntryKind) (mode : Mode) :
    (createAt m target kind mode).2.fs.view = m.fs.view ↔ ¬ CanCreate m target := by
  rcases createAt_cases h target kind mode with
    ⟨sys', he, -⟩ | ⟨m', d, x, n, he, rfl, hid, -, -, -, hc⟩
  · rw [he]
    refine ⟨fun _ hh => ?_, fun _ => rfl⟩
    obtain ⟨d, x, q, rfl, -, hd, ha, hk⟩ := hh
    have hs := (createNodeInDir_isSome_iff m d x kind mode).mpr ⟨hd, ha, hk⟩
    change ((createAt m (some (d, x)) kind mode).1).isSome = true at hs
    rw [he] at hs
    cases hs
  · rw [he, hc.view_eq_iff h hid]
    have hs : (createNodeInDir m d x kind mode).1.isSome = true := by
      change ((createAt m (some (d, x)) kind mode).1).isSome = true
      rw [he]
      rfl
    obtain ⟨hd, ha, hk⟩ := (createNodeInDir_isSome_iff m d x kind mode).mp hs
    constructor
    · rintro hq ⟨d', x', q, ht, hq', -⟩
      cases ht
      exact hq q hq'
    · intro hn q hq
      exact hn ⟨d, x, q, rfl, hq, hd, ha, hk⟩

theorem openFound_fs (m : MemoryState) (node : NodeId) (flags : Flags) :
    (openFound m node flags).2.fs = m.fs := by
  obtain ⟨sys', he, -⟩ := openFound_cases m node flags
  rw [he]

theorem openAt_fs_some (m : MemoryState) (node : NodeId) (target : Option (NodeId × FileName))
    (flags : Flags) (mode : Mode) : (openAt m (some node) target flags mode).2.fs = m.fs := by
  unfold openAt openResolvedNode
  dsimp only
  split_ifs
  · rfl
  · exact openFound_fs m node flags

theorem openAt_fs_none (m : MemoryState) (target : Option (NodeId × FileName)) (flags : Flags)
    (mode : Mode) :
    (openAt m none target flags mode).2.fs =
      if flags.has O_CREAT then (createAt m target .file mode).2.fs else m.fs := by
  unfold openAt openResolvedNode
  dsimp only
  split_ifs
  · cases he : createAt m target .file mode with
    | mk r m' =>
      cases r with
      | none => rfl
      | some node => exact openFound_fs m' node flags
  · rfl

theorem openAt_view_iff {m : MemoryState} (h : m.fs.WF m.sys.nextNodeId)
    (existing : Option NodeId) (target : Option (NodeId × FileName)) (flags : Flags)
    (mode : Mode) :
    (openAt m existing target flags mode).2.fs.view = m.fs.view ↔
      ¬ (existing = none ∧ flags.has O_CREAT = true ∧ CanCreate m target) := by
  cases existing with
  | some node =>
    rw [openAt_fs_some]
    simp
  | none =>
    rw [openAt_fs_none]
    split_ifs with hcreat
    · rw [createAt_view_iff h]
      simp [hcreat]
    · simp [hcreat]

end MemoryFS

end SandboxVfs
