import SandboxVfs.DirentBytes
import SandboxVfs.HandleRoutes
import SandboxVfs.OverlayTree

/-! Which names the calls add to the directories, and whether the 16 bits of `d_reclen`
hold the lengths of their records. -/

namespace SandboxVfs

open MemoryFS NameGraph

namespace MemoryFS

variable {fs fs' : MemoryFS} {next : NodeId} {Q : FileName → Prop}

def NamesIn (Q : FileName → Prop) (fs : MemoryFS) : Prop := ∀ d x c, fs.entryAt d x = some c → Q x

theorem Created.namesIn_iff {d : NodeId} {x : FileName} {n : Inode} (hc : Created fs fs' d x n)
    (h : fs.NamesIn Q) : fs'.NamesIn Q ↔ Q x := by
  constructor
  · intro h'
    apply h' d x n.id
    rw [hc.entryAt, if_pos ⟨rfl, rfl⟩]
  · intro hx e y c hy
    rw [hc.entryAt] at hy
    split_ifs at hy with he
    · exact he.2 ▸ hx
    · exact h e y c hy

theorem Moved.namesIn_iff {a b c : NodeId} {x y : FileName} {replaced : Option NodeId}
    (hm : Moved fs fs' a x b y c replaced) (h : fs.NamesIn Q) : fs'.NamesIn Q ↔ Q y := by
  constructor
  · intro h'
    apply h' b y c
    rw [hm.entryAt, if_pos ⟨rfl, rfl⟩]
  · intro hy e z c' hz
    rw [hm.entryAt] at hz
    split_ifs at hz with he
    · exact he.2 ▸ hy
    · exact h e z c' hz

theorem Removed.namesIn {d c : NodeId} {x : FileName} (hr : Removed fs fs' d x c)
    (h : fs.NamesIn Q) : fs'.NamesIn Q := by
  intro e y c' hy
  rw [hr.entryAt] at hy
  split_ifs at hy
  exact h e y c' hy

theorem ModeSet.namesIn {id : NodeId} {mode : Mode} (hm : ModeSet fs fs' id mode)
    (h : fs.NamesIn Q) : fs'.NamesIn Q := by
  intro e y c hy
  rw [hm.entryAt] at hy
  exact h e y c hy

theorem NamesIn.of_resolveNames (hq : fs.NamesIn Q) (h : fs.WF next) {p : PathBuf}
    (hp : fs.resolveNames p ≠ none) : ∀ x ∈ p, Q x := by
  induction p using List.reverseRecOn with
  | nil => simp
  | append_singleton p y ih =>
    obtain ⟨c, hc⟩ := Option.ne_none_iff_exists'.mp hp
    rw [h.resolveNames_concat] at hc
    obtain ⟨d, hd, hy⟩ := Option.bind_eq_some_iff.mp hc
    intro x hx
    rcases List.mem_append.mp hx with hx | hx
    · exact ih (by simp [hd]) x hx
    · rw [List.mem_singleton.mp hx]
      exact hq d y c hy

theorem createAt_namesIn_iff {m : MemoryState} (h : m.fs.WF m.sys.nextNodeId)
    (hq : m.fs.NamesIn Q) (target : Option (NodeId × FileName)) (kind : VfsEntryKind)
    (mode : Mode) :
    (createAt m target kind mode).2.fs.NamesIn Q ↔
      ∀ d x, target = some (d, x) → m.fs.Vacant target ∧ m.sys.grants 1 = true → Q x := by
  rw [← createAt_isSome_iff m target kind mode]
  rcases createAt_cases h target kind mode with
    ⟨sys', he, -⟩ | ⟨m', d, x, n, he, rfl, -, -, -, -, hc⟩
  · rw [he]
    exact iff_of_true hq fun _ _ _ hs => by cases hs
  · rw [he, hc.namesIn_iff hq]
    constructor
    · intro hx d' x' ht _
      cases ht
      exact hx
    · intro hh
      exact hh d x rfl rfl

theorem openAt_namesIn_iff {m : MemoryState} (h : m.fs.WF m.sys.nextNodeId)
    (hq : m.fs.NamesIn Q) {existing : Option NodeId} {target : Option (NodeId × FileName)}
    (hfree : m.fs.Vacant target → existing = none) (flags : Flags) (mode : Mode) :
    (openAt m existing target flags mode).2.fs.NamesIn Q ↔
      (flags.has O_CREAT = true → ∀ d x, target = some (d, x) →
        m.fs.Vacant target ∧ m.sys.grants 1 = true → Q x) := by
  cases existing with
  | some c =>
    rw [openAt_fs_some]
    refine iff_of_true hq fun _ _ _ _ hv => ?_
    cases hfree hv.1
  | none =>
    rw [openAt_fs_none]
    split_ifs with hc
    · rw [createAt_namesIn_iff h hq]
      exact (imp_iff_right hc).symm
    · exact iff_of_true hq fun hc' => absurd hc' hc

theorem removeNodeAt_namesIn (h : fs.WF next) (hq : fs.NamesIn Q) (path : AbsPath)
    (kind : VfsEntryKind) : (fs.removeNodeAt path kind).2.NamesIn Q := by
  rcases removeNodeAt_cases h path kind with he | ⟨d, x, c, -, -, -, hr⟩
  · rwa [he]
  · exact hr.namesIn hq

theorem createAt_wf {m : MemoryState} (h : m.fs.WF m.sys.nextNodeId)
    (target : Option (NodeId × FileName)) (kind : VfsEntryKind) (mode : Mode) :
    (createAt m target kind mode).2.fs.WF (createAt m target kind mode).2.sys.nextNodeId := by
  rcases createAt_cases h target kind mode with
    ⟨sys', he, hl⟩ | ⟨m', d, x, n, he, -, hid, hl, -, -, hc⟩
  · rw [he]
    exact h.mono hl.next
  · rw [he]
    exact (hc.wf h hid).mono hl.next

theorem ensureDirs_namesIn {m : MemoryState} (h : m.fs.WF m.sys.nextNodeId) (hq : m.fs.NamesIn Q)
    {ps : List PathBuf} (hp : ∀ p ∈ ps, ∀ x ∈ p, Q x) : (ps.foldl ensureDir m).fs.NamesIn Q := by
  induction ps generalizing m with
  | nil => exact hq
  | cons p ps ih =>
    have hrest : ∀ q ∈ ps, ∀ x ∈ q, Q x := fun q hq => hp q (List.mem_cons_of_mem p hq)
    rw [List.foldl_cons, ensureDir]
    split_ifs
    · rw [createNode_eq]
      apply ih (createAt_wf h _ _ _) _ hrest
      rw [createAt_namesIn_iff h hq]
      intro d x ht _
      obtain ⟨q, rfl, -⟩ := resolveParent_toAbs_eq_some ht
      exact hp _ List.mem_cons_self x (by simp)
    · exact ih h hq hrest

end MemoryFS

variable {ι : Type} [DecidableEq ι]

namespace World

variable {w : World ι} {Q : FileName → Prop}

def NamesIn (Q : FileName → Prop) (w : World ι) : Prop := ∀ i, (w.fs i).NamesIn Q

theorem put_namesIn_iff (hq : w.NamesIn Q) (f : MemoryRef ι) (m : MemoryState) :
    (w.put f m).NamesIn Q ↔ m.fs.NamesIn Q := by
  constructor
  · intro h
    have hf := h f.index
    rwa [put_fs] at hf
  · intro h j
    by_cases hj : j = f.index
    · rwa [hj, put_fs]
    · rw [put_fs_ne w f m hj]
      exact hq j

theorem putFs_namesIn_iff (hq : w.NamesIn Q) (f : MemoryRef ι) (fs : MemoryFS) :
    (w.putFs f fs).NamesIn Q ↔ fs.NamesIn Q :=
  put_namesIn_iff hq f ⟨fs, w.sys⟩

end World

namespace Backend

variable {w : World ι} {Q : FileName → Prop} {b : Backend ι}

theorem readied_namesIn (hw : w.WF) (hq : w.NamesIn Q) (b : Backend ι) (s : PathBuf)
    (writing : Bool) : (b.readied w s writing).NamesIn Q := by
  cases b with
  | memory f => exact hq
  | overlay o =>
    cases writing with
    | false => exact hq
    | true =>
      show (o.ensureTopParentDirs w s.toAbs).NamesIn Q
      rw [OverlayFS.ensureTopParentDirs_eq hw]
      split_ifs with hm
      · obtain ⟨-, g, -, hg⟩ := hm
        rw [World.put_namesIn_iff hq]
        apply ensureDirs_namesIn (m := w.state o.top) (hw.fs o.top.index) (hq o.top.index)
        intro p hp x hx
        obtain ⟨t, rfl, ht⟩ := mem_extensions hp
        exact (hq g.index).of_resolveNames (hw.fs g.index) hg x (ht.subset hx)
      · exact hq

/-- A place for a new node at `s` can be had when and where `mkdir` makes one. -/
theorem vacant_iff_makes (hw : w.WF) (s : PathBuf) :
    ((b.readied w s true).fs (b.layerFor w s true).index).Vacant
        (((b.readied w s true).fs (b.layerFor w s true).index).resolveParent s.toAbs) ∧
      (b.readied w s true).sys.grants 1 = true ↔ b.Makes w s := by
  rw [← makes_iff hw 0, createNode_eq, createAt_isSome_iff]
  rfl

theorem namesIn_target_iff {fs : MemoryFS} {s : PathBuf} {P : Prop}
    (hP : P → fs.Vacant (fs.resolveParent s.toAbs)) :
    (∀ d x, fs.resolveParent s.toAbs = some (d, x) → P → Q x) ↔
      (P → ∀ x, s.getLast? = some x → Q x) := by
  constructor
  · intro h hp x hx
    obtain ⟨d, y, ht, -⟩ := hP hp
    obtain ⟨q, rfl, -⟩ := resolveParent_toAbs_eq_some ht
    rw [List.getLast?_concat] at hx
    cases hx
    exact h d _ ht hp
  · intro h d x ht hp
    obtain ⟨q, rfl, -⟩ := resolveParent_toAbs_eq_some ht
    exact h hp x List.getLast?_concat

theorem mkdir_namesIn_iff (hw : w.WF) (hq : w.NamesIn Q) (s : PathBuf) (mode : Mode) :
    (LowLevelFS.mkdir b w s.toAbs mode).2.NamesIn Q ↔
      (b.Makes w s → ∀ x, s.getLast? = some x → Q x) := by
  have hready := readied_namesIn hw hq b s true
  have hwf := ((readied_grows hw b s true).wf hw).fs (b.layerFor w s true).index
  rw [mkdir_eq]
  dsimp only
  rw [World.put_namesIn_iff hready, createNode_eq,
    createAt_namesIn_iff hwf (hready (b.layerFor w s true).index), ← vacant_iff_makes hw s]
  exact namesIn_target_iff fun hv => hv.1

theorem open_namesIn_iff (hw : w.WF) (hq : w.NamesIn Q) (s : PathBuf) (flags : Flags) (mode : Mode) :
    (LowLevelFS.openWithHandle b w s.toAbs flags mode).2.NamesIn Q ↔
      (flags.has O_CREAT = true → b.Makes w s → ∀ x, s.getLast? = some x → Q x) := by
  have hready := readied_namesIn hw hq b s (OverlayFS.writes flags)
  have hwf := ((readied_grows hw b s (OverlayFS.writes flags)).wf hw).fs
    (b.layerFor w s (OverlayFS.writes flags)).index
  have hfree (hv : ((b.readied w s (OverlayFS.writes flags)).fs
      (b.layerFor w s (OverlayFS.writes flags)).index).Vacant
        (((b.readied w s (OverlayFS.writes flags)).fs
          (b.layerFor w s (OverlayFS.writes flags)).index).resolveParent s.toAbs)) :
      ((b.readied w s (OverlayFS.writes flags)).fs
        (b.layerFor w s (OverlayFS.writes flags)).index).resolve s.toAbs = none := by
    rw [resolve_toAbs]
    exact ((hwf.vacant_iff s).mp hv).1
  rw [openWithHandle_eq]
  dsimp only
  rw [World.put_namesIn_iff hready, openNode_eq,
    openAt_namesIn_iff hwf (hready (b.layerFor w s (OverlayFS.writes flags)).index) hfree]
  refine imp_congr_right fun hc => ?_
  have hwr : OverlayFS.writes flags = true := Flags.has_of_has_part (by decide) hc
  rw [hwr, ← vacant_iff_makes hw s]
  exact namesIn_target_iff fun hv => hv.1

theorem memory_rename_namesIn_iff (hw : w.WF) (hq : w.NamesIn Q) (f : MemoryRef ι)
    (old new : PathBuf) :
    (LowLevelFS.rename f w old.toAbs new.toAbs).2.NamesIn Q ↔
      ((w.fs f.index).CanMove old new → ∀ x, new.getLast? = some x → Q x) := by
  by_cases hne : old = new
  · subst hne
    rw [OverlayFS.memory_rename_same]
    exact iff_of_true hq fun hcan => absurd rfl hcan.ne
  have hiff := renameNodeAt_isSome_iff (hw.fs f.index) hne
  cases hr : (w.fs f.index).renameNodeAt old.toAbs new.toAbs with
  | none =>
    have he : LowLevelFS.rename f w old.toAbs new.toAbs = (-1, w) := by
      simp [LowLevelFS.rename, hr]
    rw [he]
    refine iff_of_true hq fun hcan => ?_
    have hsome := hiff.mpr hcan
    rw [hr] at hsome
    cases hsome
  | some fs' =>
    have he : LowLevelFS.rename f w old.toAbs new.toAbs = (0, w.putFs f fs') := by
      simp [LowLevelFS.rename, hr]
    have hcan : (w.fs f.index).CanMove old new := hiff.mp (by rw [hr]; rfl)
    obtain ⟨pa, x, a, pb, y, b, c, replaced, rfl, rfl, -, -, -, hm, -⟩ :=
      renameNodeAt_toAbs (hw.fs f.index) hne hr
    rw [he, World.putFs_namesIn_iff hq, hm.namesIn_iff (hq f.index), List.getLast?_concat]
    constructor
    · intro hy _ z hz
      cases hz
      exact hy
    · intro h
      exact h hcan y rfl

def Renames (b : Backend ι) (w : World ι) (old new : PathBuf) : Prop :=
  match b with
  | .memory f => (w.fs f.index).CanMove old new
  | .overlay o => o.CanRename w old new

theorem rename_namesIn_iff (hw : w.WF) (hq : w.NamesIn Q) (old new : PathBuf) :
    (LowLevelFS.rename b w old.toAbs new.toAbs).2.NamesIn Q ↔
      (b.Renames w old new → ∀ x, new.getLast? = some x → Q x) := by
  cases b with
  | memory f => exact memory_rename_namesIn_iff hw hq f old new
  | overlay o =>
    show (LowLevelFS.rename o w old.toAbs new.toAbs).2.NamesIn Q ↔ (o.CanRename w old new → _)
    by_cases ht : (w.fs o.top.index).resolveNames old = none
    · have he : LowLevelFS.rename o w old.toAbs new.toAbs =
          LowLevelFS.rename (o.visibleLayer w old.toAbs) w old.toAbs new.toAbs :=
        if_neg fun hacc => (OverlayFS.access_toAbs _ _ _ _).mp hacc ht
      rw [he, OverlayFS.canRename_below_iff ht]
      exact memory_rename_namesIn_iff hw hq (o.visibleLayer w old.toAbs) old new
    · have he : LowLevelFS.rename o w old.toAbs new.toAbs =
          LowLevelFS.rename o.top (o.ensureTopParentDirs w new.toAbs) old.toAbs new.toAbs :=
        if_pos ((OverlayFS.access_toAbs _ _ _ _).mpr ht)
      have hw' := (World.ensureTopParentDirs_grows hw o new.toAbs).wf hw
      have hq' : (o.ensureTopParentDirs w new.toAbs).NamesIn Q :=
        readied_namesIn hw hq (.overlay o) new true
      rw [he, OverlayFS.canRename_top_iff hw ht]
      exact memory_rename_namesIn_iff hw' hq' o.top old new

theorem memory_remove_namesIn (hw : w.WF) (hq : w.NamesIn Q) (f : MemoryRef ι) (path : AbsPath)
    (kind : VfsEntryKind) : (w.putFs f ((w.fs f.index).removeNodeAt path kind).2).NamesIn Q :=
  (World.putFs_namesIn_iff hq f _).mpr
    (removeNodeAt_namesIn (hw.fs f.index) (hq f.index) path kind)

theorem memory_chmod_namesIn (hq : w.NamesIn Q) (f : MemoryRef ι) (path : AbsPath) (mode : Mode) :
    (LowLevelFS.chmod f w path mode).2.NamesIn Q := by
  cases he : (w.fs f.index).chmod path mode with
  | none =>
    have hr : LowLevelFS.chmod f w path mode = (-1, w) := by simp [LowLevelFS.chmod, he]
    rwa [hr]
  | some fs' =>
    have hr : LowLevelFS.chmod f w path mode = (0, w.putFs f fs') := by simp [LowLevelFS.chmod, he]
    obtain ⟨id, -, hs⟩ := chmod_cases he
    rw [hr, World.putFs_namesIn_iff hq]
    exact hs.namesIn (hq f.index)

theorem unlink_namesIn (hw : w.WF) (hq : w.NamesIn Q) (b : Backend ι) (path : AbsPath) :
    (LowLevelFS.unlink b w path).2.NamesIn Q := by
  cases b with
  | memory f => exact memory_remove_namesIn hw hq f path .file
  | overlay o => exact memory_remove_namesIn hw hq (o.actingLayer w path) path .file

theorem rmdir_namesIn (hw : w.WF) (hq : w.NamesIn Q) (b : Backend ι) (path : AbsPath) :
    (LowLevelFS.rmdir b w path).2.NamesIn Q := by
  cases b with
  | memory f => exact memory_remove_namesIn hw hq f path .dir
  | overlay o => exact memory_remove_namesIn hw hq (o.actingLayer w path) path .dir

theorem chmod_namesIn (hq : w.NamesIn Q) (b : Backend ι) (path : AbsPath) (mode : Mode) :
    (LowLevelFS.chmod b w path mode).2.NamesIn Q := by
  cases b with
  | memory f => exact memory_chmod_namesIn hq f path mode
  | overlay o => exact memory_chmod_namesIn hq (o.visibleLayer w path) path mode

end Backend

namespace Vfs

variable {v : Vfs ι} {Q : FileName → Prop}

/-- Something can be made at this virtual path, and its entry is called `x`. -/
def MakesAt (v : Vfs ι) (path : PathBuf) (x : FileName) : Prop :=
  let target := v.absolutePathToFs path
  (v.fsAt target.1).Makes v.world target.2 ∧ target.2.getLast? = some x

def MakesUnder (v : Vfs ι) (h : MemoryOpenedFile ι) (p : RelPath) (x : FileName) : Prop :=
  let fs := v.world.fs h.nodes.index
  ∃ d, fs.resolveRelativeParent h.node p = some (d, x) ∧ fs.Vacant (some (d, x)) ∧
    v.world.sys.grants 1 = true

def MakesFrom (v : Vfs ι) (dirfd : Int) (path : Path) (x : FileName) : Prop :=
  match path, v.handleOf dirfd with
  | .rel p, some h => v.MakesUnder h p x
  | path, _ => ∃ q, v.resolveOpenatPath dirfd path = some q ∧ v.MakesAt q x

def MovesTo (v : Vfs ι) (oldDirfd : Int) (oldPath : Path) (newDirfd : Int) (newPath : Path)
    (x : FileName) : Prop :=
  ∃ p q, v.resolveOpenatPath oldDirfd oldPath = some p ∧
    v.resolveOpenatPath newDirfd newPath = some q ∧
    (v.absolutePathToFs p).1 = (v.absolutePathToFs q).1 ∧
    (v.fsAt (v.absolutePathToFs p).1).Renames v.world (v.absolutePathToFs p).2
      (v.absolutePathToFs q).2 ∧
    (v.absolutePathToFs q).2.getLast? = some x

/-- The call puts an entry called `x` into a directory. -/
def AddsName (v : Vfs ι) (op : VfsOp) (x : FileName) : Prop :=
  match op with
  | .openPath path flags _ => flags.has O_CREAT = true ∧ v.MakesAt (v.resolvePath path) x
  | .openat dirfd path flags _ => flags.has O_CREAT = true ∧ v.MakesFrom dirfd path x
  | .mkdir path _ => v.MakesAt (v.resolvePath path) x
  | .mkdirat dirfd path _ => v.MakesFrom dirfd path x
  | .rename oldPath newPath => v.MovesTo AT_FDCWD oldPath AT_FDCWD newPath x
  | .renameat oldDirfd oldPath newDirfd newPath => v.MovesTo oldDirfd oldPath newDirfd newPath x
  | _ => False

theorem openVirtual_namesIn_iff (hv : v.WF) (hq : v.world.NamesIn Q) (path : PathBuf)
    (flags : Flags) (mode : Mode) :
    (v.openVirtual path flags mode).2.world.NamesIn Q ↔
      ∀ x, flags.has O_CREAT = true ∧ v.MakesAt path x → Q x := by
  unfold RootVFS.openVirtual
  dsimp only
  rw [RootVFS.trackOpen_world]
  refine (Backend.open_namesIn_iff hv.world hq _ flags mode).trans ?_
  constructor
  · intro h x hx
    exact h hx.1 hx.2.1 x hx.2.2
  · intro h hc hm x hx
    exact h x ⟨hc, hm, hx⟩

theorem mkdirVirtual_namesIn_iff (hv : v.WF) (hq : v.world.NamesIn Q) (path : PathBuf)
    (mode : Mode) :
    (v.dispatch (fun fs w p => LowLevelFS.mkdir fs w p mode) path).2.world.NamesIn Q ↔
      ∀ x, v.MakesAt path x → Q x := by
  refine (Backend.mkdir_namesIn_iff hv.world hq _ mode).trans ?_
  constructor
  · intro h x hx
    exact h hx.1 x hx.2
  · intro h hm x hx
    exact h x ⟨hm, hx⟩

theorem makesFrom_abs (v : Vfs ι) (dirfd : Int) (p : AbsPath) (x : FileName) :
    v.MakesFrom dirfd (.abs p) x ↔ v.MakesAt (normalizeAbsolute p) x := by
  simp [MakesFrom, RootVFS.resolveOpenatPath]

theorem makesFrom_of_no_handle {dirfd : Int} (hh : v.handleOf dirfd = none) (p : RelPath)
    (x : FileName) : v.MakesFrom dirfd (.rel p) x ↔
      ∃ q, v.resolveOpenatPath dirfd (.rel p) = some q ∧ v.MakesAt q x := by
  simp [MakesFrom, hh]

theorem makesFrom_of_handle {dirfd : Int} {h : MemoryOpenedFile ι}
    (hh : v.handleOf dirfd = some h) (p : RelPath) (x : FileName) :
    v.MakesFrom dirfd (.rel p) x ↔ v.MakesUnder h p x := by
  simp [MakesFrom, hh]

theorem openat_namesIn_iff (hv : v.WF) (hq : v.world.NamesIn Q) (dirfd : Int) (path : Path)
    (flags : Flags) (mode : Mode) :
    (v.openat dirfd path flags mode).2.world.NamesIn Q ↔
      ∀ x, flags.has O_CREAT = true ∧ v.MakesFrom dirfd path x → Q x := by
  cases path with
  | abs p =>
    simp only [RootVFS.openat_abs, makesFrom_abs]
    exact openVirtual_namesIn_iff hv hq _ flags mode
  | rel p =>
    cases hh : v.handleOf dirfd with
    | none =>
      rw [RootVFS.openat_of_no_handle hh]
      simp only [makesFrom_of_no_handle hh]
      cases v.resolveOpenatPath dirfd (.rel p) with
      | none => simpa using hq
      | some path => simpa using openVirtual_namesIn_iff hv hq path flags mode
    | some h =>
      obtain ⟨path, -, he⟩ := RootVFS.openat_of_handle hh p flags mode rfl
      have hwf := hv.world.fs h.nodes.index
      rw [he, RootVFS.trackOpen_world]
      show (v.world.put h.nodes _).NamesIn Q ↔ _
      simp only [makesFrom_of_handle hh]
      rw [World.put_namesIn_iff hq, openNodeRelative_eq,
        openAt_namesIn_iff hwf (hq h.nodes.index)]
      · constructor
        · rintro hx x ⟨hc, d, ht, hvac⟩
          exact hx hc d x ht (ht ▸ hvac)
        · intro hx hc d x ht hvac
          exact hx x ⟨hc, d, ht, ht ▸ hvac⟩
      · rintro ⟨d, x, ht, -, hfree⟩
        exact (hwf.resolveRelative_of_parent ht).trans hfree

theorem mkdirat_namesIn_iff (hv : v.WF) (hq : v.world.NamesIn Q) (dirfd : Int) (path : Path)
    (mode : Mode) :
    (v.mkdirat dirfd path mode).2.world.NamesIn Q ↔ ∀ x, v.MakesFrom dirfd path x → Q x := by
  cases path with
  | abs p =>
    simp only [RootVFS.mkdirat_abs, makesFrom_abs]
    exact mkdirVirtual_namesIn_iff hv hq _ mode
  | rel p =>
    cases hh : v.handleOf dirfd with
    | none =>
      rw [RootVFS.mkdirat_of_no_handle hh]
      simp only [makesFrom_of_no_handle hh]
      cases v.resolveOpenatPath dirfd (.rel p) with
      | none => simpa using hq
      | some path => simpa using mkdirVirtual_namesIn_iff hv hq path mode
    | some h =>
      rw [RootVFS.mkdirat_of_handle hh p mode rfl]
      show (v.world.put h.nodes _).NamesIn Q ↔ _
      simp only [makesFrom_of_handle hh]
      rw [World.put_namesIn_iff hq, createRelativeNode_eq,
        createAt_namesIn_iff (hv.world.fs h.nodes.index) (hq h.nodes.index)]
      constructor
      · rintro hx x ⟨d, ht, hvac⟩
        exact hx d x ht (ht ▸ hvac)
      · intro hx d x ht hvac
        exact hx x ⟨d, ht, ht ▸ hvac⟩

theorem renameat_namesIn_iff (hv : v.WF) (hq : v.world.NamesIn Q) (oldDirfd : Int)
    (oldPath : Path) (newDirfd : Int) (newPath : Path) :
    (v.renameat oldDirfd oldPath newDirfd newPath).2.world.NamesIn Q ↔
      ∀ x, v.MovesTo oldDirfd oldPath newDirfd newPath x → Q x := by
  unfold RootVFS.renameat
  split
  · rename_i p q hp hp'
    unfold RootVFS.renameVirtual
    dsimp only
    split_ifs with hkey
    · refine iff_of_true hq ?_
      rintro x ⟨p', q', hp₁, hq₁, hsame, -⟩
      cases hp.symm.trans hp₁
      cases hp'.symm.trans hq₁
      exact absurd hsame hkey
    · refine (Backend.rename_namesIn_iff hv.world hq _ _).trans ?_
      constructor
      · rintro h x ⟨p', q', hp₁, hq₁, -, hr, hx⟩
        cases hp.symm.trans hp₁
        cases hp'.symm.trans hq₁
        exact h hr x hx
      · intro h hr x hx
        exact h x ⟨p, q, hp, hp', not_not.mp hkey, hr, hx⟩
  · rename_i hnone
    refine iff_of_true hq ?_
    rintro x ⟨p, q, hp, hp', -⟩
    exact absurd hp' (hnone p q hp)

theorem unlinkat_namesIn (hv : v.WF) (hq : v.world.NamesIn Q) (dirfd : Int) (path : Path)
    (flags : Flags) : (v.unlinkat dirfd path flags).2.world.NamesIn Q := by
  unfold RootVFS.unlinkat
  split
  · exact hq
  · split_ifs
    · exact Backend.rmdir_namesIn hv.world hq _ _
    · exact Backend.unlink_namesIn hv.world hq _ _

/-- What a call adds to the names is the name of the entry it makes or moves. -/
theorem step_namesIn_iff (hv : v.WF) (hq : v.world.NamesIn Q) (op : VfsOp) :
    (v.step op).world.NamesIn Q ↔ ∀ x, v.AddsName op x → Q x := by
  cases op with
  | openPath path flags mode => exact openVirtual_namesIn_iff hv hq _ flags mode
  | openat dirfd path flags mode => exact openat_namesIn_iff hv hq dirfd path flags mode
  | mkdir path mode => exact mkdirVirtual_namesIn_iff hv hq _ mode
  | mkdirat dirfd path mode => exact mkdirat_namesIn_iff hv hq dirfd path mode
  | rename oldPath newPath => exact renameat_namesIn_iff hv hq _ oldPath _ newPath
  | renameat oldDirfd oldPath newDirfd newPath =>
    exact renameat_namesIn_iff hv hq oldDirfd oldPath newDirfd newPath
  | unlink path => exact iff_of_true (Backend.unlink_namesIn hv.world hq _ _) fun _ => False.elim
  | unlinkat dirfd path flags =>
    exact iff_of_true (unlinkat_namesIn hv hq dirfd path flags) fun _ => False.elim
  | rmdir path => exact iff_of_true (Backend.rmdir_namesIn hv.world hq _ _) fun _ => False.elim
  | chmod path mode => exact iff_of_true (Backend.chmod_namesIn hq _ _ mode) fun _ => False.elim
  | forgetFd fd => exact iff_of_true hq fun _ => False.elim
  | cloneFd oldfd newfd =>
    refine iff_of_true ?_ fun _ => False.elim
    show (v.cloneFd oldfd newfd).world.NamesIn Q
    rwa [RootVFS.cloneFd_world]
  | setCwd path => exact iff_of_true hq fun _ => False.elim
  | getdents64 fd dirpIsNull count =>
    refine iff_of_true ?_ fun _ => False.elim
    rcases getdents64_step_cases v fd dirpIsNull count with he | ⟨info, n, he, -⟩
    · rwa [he]
    · rw [he]
      exact hq
  | elsewhere live => exact iff_of_true hq fun _ => False.elim

end Vfs

/-- The record of the name fits into `u16::MAX` bytes. -/
def FileName.Fits (x : FileName) : Prop := x.bytes.length ≤ 65508

theorem reclen_lt_iff (e : VfsDirEntry) : reclen e < 2 ^ 16 ↔ e.name.length ≤ 65508 := by
  unfold reclen alignTo
  omega

namespace Vfs

variable {v : Vfs ι}

/-- For each directory and each buffer: `d_reclen` has the length of the record, and takes
a reader from each record to the next. -/
def RecordsExact (v : Vfs ι) : Prop :=
  ∀ i d entries, (v.world.fs i).readNodeDir d = some entries →
    ∀ path start dirp count mem,
      let all := (dotEntries ++ entries).drop start
      let w := writeDirents64 v.inodeForPath path all start (decide (dirp = 0)) count
      let r := writeDirents64Into v.inodeForPath path all start dirp count mem
      (∀ record ∈ w.records, record.dReclen = record.bytes.length) ∧
        (readBuffer r.2.2 dirp r.1.toNat).map (·.1) = Dirent.starts 0 w.records

theorem dirent_exact_iff (inodeForPath : List (List UInt8) → Nat) (path : PathBuf)
    (e : VfsDirEntry) (offset : Nat) :
    (dirent inodeForPath path e offset).dReclen = (dirent inodeForPath path e offset).bytes.length ↔
      e.name.length ≤ 65508 := by
  rw [Dirent.length_bytes, size_dirent, ← reclen_lt_iff]
  exact Nat.mod_eq_iff_lt (by decide)

theorem records_exact {inodeForPath : List (List UInt8) → Nat} {path : PathBuf}
    {entries : List VfsDirEntry} (h : ∀ e ∈ entries, e.name.length ≤ 65508) (start dirp : Nat)
    (count : Int) (mem : ByteBuffers.Memory) :
    let w := writeDirents64 inodeForPath path entries start (decide (dirp = 0)) count
    let r := writeDirents64Into inodeForPath path entries start dirp count mem
    (∀ record ∈ w.records, record.dReclen = record.bytes.length) ∧
      (readBuffer r.2.2 dirp r.1.toNat).map (·.1) = Dirent.starts 0 w.records := by
  intro w r
  have hr : r = _ := writeDirents64Into_eq entries start dirp count mem
  rcases writeDirents64_cases inodeForPath path entries start (decide (dirp = 0)) count with
    ⟨-, hw⟩ | ⟨-, -, -, hrec, hlen, -⟩
  · have hw' : w = ⟨-1, 0, []⟩ := hw
    have hbytes : r.1.toNat = 0 := by
      rw [hr]
      show w.bytesWritten.toNat = 0
      rw [hw']
      rfl
    rw [hbytes, hw']
    exact ⟨by simp, rfl⟩
  · have hall : ∀ record ∈ w.records,
        record.dReclen = record.bytes.length ∧ record.bytes.length < 2 ^ 16 := by
      intro record hmem
      have hrec' : w.records = _ := hrec
      rw [hrec'] at hmem
      obtain ⟨⟨e, offset⟩, he, rfl⟩ := List.mem_map.mp hmem
      have hshort := h e (List.fst_mem_of_mem_zipIdx (List.mem_of_mem_take he))
      refine ⟨(dirent_exact_iff inodeForPath path e offset).mpr hshort, ?_⟩
      rw [Dirent.length_bytes, size_dirent]
      exact (reclen_lt_iff e).mpr hshort
    refine ⟨fun record hmem => (hall record hmem).1, ?_⟩
    have hbytes : r.1.toNat = (w.records.flatMap Dirent.bytes).length := by
      rw [hr]
      show w.bytesWritten.toNat = _
      have hlen' : w.bytesWritten = _ := hlen
      rw [hlen', Int.toNat_natCast]
    have hload : ByteBuffers.load r.2.2 dirp (w.records.flatMap Dirent.bytes).length =
        w.records.flatMap Dirent.bytes := by
      rw [hr]
      exact ByteBuffers.load_store mem dirp _
    rw [hbytes, readBuffer, hload]
    exact Dirent.readDirents_starts hall (Dirent.length_le_bytes w.records)

theorem head_records (inodeForPath : List (List UInt8) → Nat) (path : PathBuf) (e : VfsDirEntry)
    (es : List VfsDirEntry) (start : Nat) :
    dirent inodeForPath path e (start + 1) ∈
      (writeDirents64 inodeForPath path (e :: es) start false (reclen e)).records := by
  have hpos : 0 < reclen e := by
    unfold reclen alignTo
    omega
  rcases writeDirents64_cases inodeForPath path (e :: es) start false (reclen e) with
    ⟨hbad, -⟩ | ⟨-, -, hnone, hrec, -⟩
  · exfalso
    simp at hbad
    omega
  · obtain ⟨k, hk⟩ := Nat.exists_eq_succ_of_ne_zero fun hz => List.cons_ne_nil e es (hnone.mp hz)
    rw [hrec, hk, List.zipIdx_cons, List.take_succ_cons, List.map_cons]
    exact List.mem_cons_self

omit [DecidableEq ι] in
theorem recordsExact_iff (hv : v.WF) : v.RecordsExact ↔ v.world.NamesIn FileName.Fits := by
  constructor
  · intro h i d x c hx
    have hwf := hv.world.fs i
    obtain ⟨l, hl, hnames⟩ := hwf.readNodeDir_names (entryAt_isDir hx)
    have hmem : x.bytes ∈ l.map (·.name) := by
      rw [hnames]
      exact List.mem_map_of_mem (mem_namesIn.mpr ⟨c, hx⟩)
    obtain ⟨e, he, hname⟩ := List.mem_map.mp hmem
    obtain ⟨before, after, hl'⟩ := List.append_of_mem he
    have hdrop : (dotEntries ++ l).drop (2 + before.length) = e :: after := by
      rw [hl', ← List.append_assoc, List.drop_left' (by simp [dotEntries]; omega)]
    obtain ⟨hexact, -⟩ := h i d l hl [] (2 + before.length) 1 (reclen e) fun _ => 0
    rw [hdrop] at hexact
    have hfits := hexact _ (head_records v.inodeForPath [] e after (2 + before.length))
    rw [dirent_exact_iff, hname] at hfits
    exact hfits
  · intro h i d l hl path start dirp count mem
    refine records_exact ?_ start dirp count mem
    intro e he
    rcases List.mem_append.mp (List.mem_of_mem_drop he) with he | he
    · have hdots : ∀ e ∈ dotEntries, e.name.length ≤ 65508 := by decide
      exact hdots e he
    · obtain ⟨x, c, hname, hx⟩ := (hv.world.fs i).mem_readNodeDir hl he
      rw [hname]
      exact h i d x c hx

theorem run_recordsExact_iff (hv : v.WF) (h : v.RecordsExact) (ops : List VfsOp) :
    (∀ l, l <+: ops → (v.run l).RecordsExact) ↔
      Runs.EveryStep step (fun v op => ∀ x, v.AddsName op x → x.Fits) v ops := by
  have hstep (v : Vfs ι) (op : VfsOp) (hs : v.WF) (hp : v.RecordsExact) :
      (v.step op).RecordsExact ↔ ∀ x, v.AddsName op x → x.Fits := by
    rw [recordsExact_iff (step_wf hs op)]
    exact step_namesIn_iff hs ((recordsExact_iff hs).mp hp) op
  exact Runs.forall_prefix_iff (P := RecordsExact) (fun _ op hs => step_wf hs op) hstep hv h ops

theorem newMemory_recordsExact (inodeForPath : List (List UInt8) → Nat) (sys : Sys) :
    (newMemory inodeForPath sys).RecordsExact := by
  rw [recordsExact_iff (newMemory_wf inodeForPath sys)]
  intro i d x c hx
  cases (MemoryFS.new_entryAt sys d x).symm.trans hx

theorem newMemory_makesAt (inodeForPath : List (List UInt8) → Nat) (x y : FileName) :
    (newMemory inodeForPath .boot).MakesAt [x] y ↔ y = x := by
  have hwf := (newMemory_wf inodeForPath .boot).world.fs ()
  have hfree : ((newMemory inodeForPath .boot).world.fs ()).resolveNames [x] = none := by
    rw [← List.nil_append [x], hwf.resolveNames_concat, hwf.resolveNames_nil, Option.bind_some]
    exact MemoryFS.new_entryAt .boot _ x
  have hroot : (MemoryFS.new .boot).fs.isDir (MemoryFS.new .boot).fs.root = true := by
    decide +kernel
  have hgrants : (MemoryFS.new .boot).sys.grants 1 = true := by decide +kernel
  have hparent : ((newMemory inodeForPath .boot).world.fs ()).HasParent [x] :=
    ⟨_, hwf.resolveNames_nil, hroot⟩
  have htarget : (newMemory inodeForPath .boot).absolutePathToFs [x] = (none, [x]) :=
    RootVFS.absolutePathToFs_of_no_mounts _ (fun _ => rfl) [x]
  have hmakes : (Backend.memory ⟨()⟩).Makes (newMemory inodeForPath .boot).world [x] :=
    ⟨hfree, hparent, hgrants⟩
  unfold MakesAt
  rw [htarget]
  constructor
  · rintro ⟨-, hy⟩
    cases hy
    rfl
  · rintro rfl
    exact ⟨hmakes, rfl⟩

theorem run_recordsExact_mkdirA :
    ((newMemory (fun _ => 0) .boot).run
      [.mkdir (.abs (PathBuf.toAbs [.a])) 0o755]).RecordsExact := by
  have hruns := run_recordsExact_iff (newMemory_wf (fun _ => 0) .boot)
    (newMemory_recordsExact (fun _ => 0) .boot) [.mkdir (.abs (PathBuf.toAbs [.a])) 0o755]
  refine hruns.mpr ⟨?_, trivial⟩ _ List.prefix_rfl
  intro x hx
  rw [AddsName, RootVFS.resolvePath, normalizeAbsolute_toAbs, newMemory_makesAt] at hx
  subst hx
  exact Nat.le_of_ble_eq_true rfl

def repeatedName (n : Nat) : FileName where
  bytes := List.replicate (n + 3) 97
  ne_nil := by simp
  no_slash := by simp
  ne_dot := by simp [List.replicate_succ]
  ne_dot_dot := by simp [List.replicate_succ]

/-- A directory with a name of 65509 bytes is made, and the length of its record is
stored as 0. -/
theorem repeatedName_not_exact :
    ¬ ((newMemory (fun _ => 0) .boot).run
        [.mkdir (.abs (PathBuf.toAbs [repeatedName 65506])) 0o755]).RecordsExact ∧
      ∀ path offset,
        (dirent (fun _ => 0) path ⟨(repeatedName 65506).bytes, .dir, none⟩ offset).dReclen = 0 := by
  have hv := newMemory_wf (fun _ => 0) .boot
  have hlen : (repeatedName 65506).bytes.length = 65509 := List.length_replicate
  constructor
  · intro hexact
    have hnames : ((newMemory (fun _ => 0) .boot).step
        (.mkdir (.abs (PathBuf.toAbs [repeatedName 65506])) 0o755)).world.NamesIn FileName.Fits :=
      (recordsExact_iff (step_wf hv _)).mp hexact
    have hstart := (recordsExact_iff hv).mp (newMemory_recordsExact (fun _ => 0) .boot)
    have hfits := (step_namesIn_iff hv hstart _).mp hnames (repeatedName 65506)
    rw [AddsName, RootVFS.resolvePath, normalizeAbsolute_toAbs, newMemory_makesAt] at hfits
    have hle := hfits rfl
    rw [FileName.Fits, hlen] at hle
    omega
  · intro path offset
    have hwraps (e : VfsDirEntry) (he : e.name.length = 65509) :
        (dirent (fun _ => 0) path e offset).dReclen = 0 := by
      rw [dirent, reclen, he]
      rfl
    exact hwraps _ hlen

end Vfs

end SandboxVfs
