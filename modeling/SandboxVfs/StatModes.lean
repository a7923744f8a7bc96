import SandboxVfs.KeptByPath

/-! What `stat` reports as the kind of a node, and the modes that the nodes can have. -/

namespace SandboxVfs

open MemoryFS

def S_IFMT : Mode := 0xf000

def Stat.isDir (st : Stat) : Bool := st.stMode &&& S_IFMT == S_IFDIR

namespace MemoryFS

variable {fs fs' : MemoryFS} {next : NodeId}

def statMode (v : NodeId × Bool × Mode) : Mode := (if v.2.1 then S_IFDIR else S_IFREG) ||| v.2.2

theorem statMode_isDir {v : NodeId × Bool × Mode} (hm : v.2.2 &&& 0o7777 = v.2.2) :
    (statMode v &&& S_IFMT == S_IFDIR) = v.2.1 := by
  obtain ⟨c, d, m⟩ := v
  have hlow : S_IFMT &&& m = 0 := by
    rw [← (show m &&& 0o7777 = m from hm), BitVec.and_comm, BitVec.and_assoc]
    exact BitVec.and_zero
  have hkind (k : Mode) (hk : S_IFMT &&& k = k) : (k ||| m) &&& S_IFMT = k := by
    rw [BitVec.and_comm, BitVec.and_or_distrib_left, hlow, hk]
    exact BitVec.or_zero
  cases d with
  | true =>
    show ((S_IFDIR ||| m) &&& S_IFMT == S_IFDIR) = true
    rw [hkind S_IFDIR (by decide)]
    decide
  | false =>
    show ((S_IFREG ||| m) &&& S_IFMT == S_IFDIR) = false
    rw [hkind S_IFREG (by decide)]
    decide

def ModesMasked (fs : MemoryFS) : Prop :=
  ∀ id n, fs.inodeOf id = some n → n.mode &&& 0o7777 = n.mode

theorem mask_idem (mode : Mode) : (mode &&& 0o7777) &&& 0o7777 = mode &&& 0o7777 := by
  rw [BitVec.and_assoc, BitVec.and_self]

theorem createAt_modesMasked {m : MemoryState} (h : m.fs.WF m.sys.nextNodeId)
    (hq : m.fs.ModesMasked) (target : Option (NodeId × FileName)) (kind : VfsEntryKind)
    (mode : Mode) : (createAt m target kind mode).2.fs.ModesMasked := by
  rcases createAt_cases h target kind mode with
    ⟨sys', he, -⟩ | ⟨m', d, x, n, he, -, -, -, -, hmode, hc⟩
  · rwa [he]
  · rw [he]
    intro id i hi
    rw [hc.inodeOf] at hi
    split_ifs at hi
    · cases hi
      rw [hmode, mask_idem]
    · exact hq id i hi

theorem openAt_modesMasked {m : MemoryState} (h : m.fs.WF m.sys.nextNodeId)
    (hq : m.fs.ModesMasked) (existing : Option NodeId) (target : Option (NodeId × FileName))
    (flags : Flags) (mode : Mode) : (openAt m existing target flags mode).2.fs.ModesMasked := by
  cases existing with
  | some node => rwa [openAt_fs_some]
  | none =>
    rw [openAt_fs_none]
    split_ifs
    · exact createAt_modesMasked h hq target .file mode
    · exact hq

theorem modesMasked_keptByPath : KeptByPath ModesMasked := by
  constructor
  · intro m path kind mode h hq
    rw [createNode_eq]
    exact createAt_modesMasked h hq _ kind mode
  · intro fs next path kind h hq
    rcases removeNodeAt_cases h path kind with he | ⟨d, x, c, -, -, -, hr⟩
    · rwa [he]
    · intro id i hi
      rw [hr.inodeOf] at hi
      split_ifs at hi
      · obtain ⟨k, hk, rfl⟩ := Option.map_eq_some_iff.mp hi
        exact hq id k hk
      · exact hq id i hi
  · intro fs next old new fs' h hq hr
    rcases renameNodeAt_cases h hr with ⟨rfl, -⟩ | ⟨a, x, b, y, c, replaced, -, -, hm, -, -⟩
    · exact hq
    · intro id i hi
      rw [hm.inodeOf] at hi
      split_ifs at hi
      · obtain ⟨k, hk, rfl⟩ := Option.map_eq_some_iff.mp hi
        exact hq id k hk
      · obtain ⟨k, hk, rfl⟩ := Option.map_eq_some_iff.mp hi
        exact hq id k hk
      · exact hq id i hi
  · intro fs next path mode fs' _ hq hc
    obtain ⟨c, -, hm⟩ := chmod_cases hc
    intro id i hi
    rw [hm.inodeOf] at hi
    split_ifs at hi
    · obtain ⟨k, -, rfl⟩ := Option.map_eq_some_iff.mp hi
      exact mask_idem mode
    · exact hq id i hi

theorem new_modesMasked (sys : Sys) : (MemoryFS.new sys).fs.ModesMasked := by
  intro id n hn
  rw [new_inodeOf] at hn
  split_ifs at hn
  cases hn
  show (0o755 : Mode) &&& 0o7777 = 0o755
  decide

end MemoryFS

variable {ι : Type} [DecidableEq ι] {w : World ι}

namespace World

theorem memory_stat (f : MemoryRef ι) (w : World ι) (q : PathBuf) :
    LowLevelFS.stat f w q.toAbs = ((w.fs f.index).resolveNames q).bind fun c =>
      ((w.fs f.index).heap c).map ((w.fs f.index).statNode w.sys) := by
  have hd : LowLevelFS.stat f w q.toAbs = ((w.fs f.index).resolve q.toAbs).bind fun node =>
      ((w.fs f.index).heap node).bind fun n => some ((w.fs f.index).statNode w.sys n) := rfl
  rw [hd, resolve_toAbs]
  congr 1
  funext c
  exact Option.map_eq_bind.symm

theorem memory_stat_mode (hw : w.WF) (f : MemoryRef ι) (q : PathBuf) :
    (LowLevelFS.stat f w q.toAbs).map (·.stMode) =
      ((w.fs f.index).view q).map statMode := by
  rw [memory_stat, view]
  cases hq : (w.fs f.index).resolveNames q with
  | none => rfl
  | some c =>
    have hmem := (hw.fs f.index).mem_heap c ((hw.fs f.index).resolveNames_mem hq)
    cases hn : (w.fs f.index).heap c with
    | none =>
      rw [inodeOf, hn] at hmem
      cases hmem
    | some n =>
      cases hk : n.kind <;>
        simp [inodeOf, hn, Node.inode, statMode, statNode, hk, NodeKind.entries?]

theorem memory_stat_ino (hw : w.WF) (f : MemoryRef ι) (q : PathBuf) :
    (LowLevelFS.stat f w q.toAbs).map (·.stIno) = (w.fs f.index).resolveNames q := by
  rw [memory_stat]
  cases hq : (w.fs f.index).resolveNames q with
  | none => rfl
  | some c =>
    have hmem := (hw.fs f.index).mem_heap c ((hw.fs f.index).resolveNames_mem hq)
    obtain ⟨i, hi⟩ := Option.isSome_iff_exists.mp hmem
    obtain ⟨n, hn, rfl⟩ := Option.map_eq_some_iff.mp hi
    have hid : n.id = c := ((hw.fs f.index).heap_id c n.inode hi).1
    rw [Option.bind_some, hn, Option.map_some, Option.map_some]
    exact congrArg some hid

theorem memory_stat_isDir_iff (hw : w.WF) (hm : ∀ i, (w.fs i).ModesMasked) (f : MemoryRef ι)
    (q : PathBuf) :
    (∃ st, LowLevelFS.stat f w q.toAbs = some st ∧ st.isDir = true) ↔
      ∃ c, (w.fs f.index).resolveNames q = some c ∧ (w.fs f.index).isDir c = true := by
  have hmode := memory_stat_mode hw f q
  have hview : ∀ st, LowLevelFS.stat f w q.toAbs = some st →
      ∃ c i, (w.fs f.index).resolveNames q = some c ∧ (w.fs f.index).inodeOf c = some i ∧
        st.isDir = i.isDir := by
    intro st hst
    rw [hst, Option.map_some] at hmode
    obtain ⟨v, hv, hst'⟩ := Option.map_eq_some_iff.mp hmode.symm
    obtain ⟨c, hc, hv'⟩ := Option.bind_eq_some_iff.mp hv
    obtain ⟨i, hi, rfl⟩ := Option.map_eq_some_iff.mp hv'
    refine ⟨c, i, hc, hi, ?_⟩
    rw [Stat.isDir, ← hst', statMode_isDir (hm f.index c i hi)]
  constructor
  · rintro ⟨st, hst, hdir⟩
    obtain ⟨c, i, hc, hi, he⟩ := hview st hst
    refine ⟨c, hc, ?_⟩
    rw [isDir_eq_inode, hi, ← hdir, he]
    rfl
  · rintro ⟨c, hc, hdir⟩
    have hino := memory_stat_ino hw f q
    rw [hc] at hino
    obtain ⟨st, hst, -⟩ := Option.map_eq_some_iff.mp hino
    obtain ⟨c', i, hc', hi, he⟩ := hview st hst
    rw [hc] at hc'
    cases hc'
    refine ⟨st, hst, ?_⟩
    rw [isDir_eq_inode, hi] at hdir
    exact he.trans hdir

end World

namespace Vfs

variable {v : Vfs ι}

theorem step_modesMasked (hv : v.WF) (hq : ∀ i, (v.world.fs i).ModesMasked) (op : VfsOp) :
    ∀ i, ((v.step op).world.fs i).ModesMasked := by
  by_cases hth : v.ThroughHandle op
  · have hput (h : MemoryOpenedFile ι) (m : MemoryState) (hm : m.fs.ModesMasked) (i : ι) :
        ((v.world.put h.nodes m).fs i).ModesMasked := by
      refine KeptByPath.of_fs hq h.nodes ?_ (fun j hj => World.put_fs_ne _ _ _ hj) i
      rwa [World.put_fs]
    cases op with
    | openat dirfd path flags mode =>
      cases path with
      | abs p => exact absurd hth not_false
      | rel p =>
        obtain ⟨h, hh⟩ := Option.ne_none_iff_exists'.mp hth
        obtain ⟨path, -, he⟩ := RootVFS.openat_of_handle hh p flags mode rfl
        show ∀ i, ((v.openat dirfd (.rel p) flags mode).2.world.fs i).ModesMasked
        rw [he, RootVFS.trackOpen_world]
        refine hput h _ ?_
        rw [openNodeRelative_eq]
        exact openAt_modesMasked (m := v.world.state h.nodes) (hv.world.fs _) (hq _) _ _ flags mode
    | mkdirat dirfd path mode =>
      cases path with
      | abs p => exact absurd hth not_false
      | rel p =>
        obtain ⟨h, hh⟩ := Option.ne_none_iff_exists'.mp hth
        show ∀ i, ((v.mkdirat dirfd (.rel p) mode).2.world.fs i).ModesMasked
        rw [RootVFS.mkdirat_of_handle hh p mode rfl]
        refine hput h _ ?_
        rw [createRelativeNode_eq]
        exact createAt_modesMasked (m := v.world.state h.nodes) (hv.world.fs _) (hq _) _ .dir mode
    | _ => exact absurd hth not_false
  · exact modesMasked_keptByPath.step hv hq hth

theorem run_modesMasked (hv : v.WF) (hq : ∀ i, (v.world.fs i).ModesMasked) (ops : List VfsOp) :
    ∀ i, ((v.run ops).world.fs i).ModesMasked :=
  (Runs.foldl_inv (fun v : Vfs ι => v.WF ∧ ∀ i, (v.world.fs i).ModesMasked)
    (fun _ op hs => ⟨step_wf hs.1 op, step_modesMasked hs.1 hs.2 op⟩) ⟨hv, hq⟩ ops).2

end Vfs

end SandboxVfs
