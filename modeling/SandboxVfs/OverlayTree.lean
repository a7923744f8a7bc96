import SandboxVfs.OverlayOpens

/-! When the view of an overlay is a tree: wherever some layer has a directory, the first
layer that has the path has one. Which calls keep that is decided call by call. -/

namespace SandboxVfs

open MemoryFS NameGraph LayeredNames

namespace MemoryFS

theorem entryKind_inj {fs fs' : MemoryFS} {c d : NodeId} (h : fs.entryKind c = fs'.entryKind d) :
    fs.isDir c = fs'.isDir d := by
  unfold entryKind at h
  cases hc : fs.isDir c <;> cases hd : fs'.isDir d <;> simp [hc, hd] at h ⊢

end MemoryFS

variable {ι : Type} [DecidableEq ι]

namespace OverlayFS

variable {o : OverlayFS (MemoryRef ι)} {w w' : World ι} {p q : PathBuf}

def ReportsDir (o : OverlayFS (MemoryRef ι)) (w : World ι) (p : PathBuf) : Prop :=
  ∃ st, LowLevelFS.stat o w p.toAbs = some st ∧ st.isDir = true

structure TreeView (o : OverlayFS (MemoryRef ι)) (w : World ι) : Prop where
  parent : ∀ (p : PathBuf) (x : FileName), LowLevelFS.access o w (PathBuf.toAbs (p ++ [x])) F_OK = 0 →
    o.ReportsDir w p
  listing : ∀ p : PathBuf, (LowLevelFS.readDir o w p.toAbs).isSome = true → o.ReportsDir w p

def IsDirObject (v : NodeId × VfsEntryKind) : Prop := v.2 = .dir

def objectsAt (w : World ι) (fs : List (MemoryRef ι)) (q : PathBuf) :
    List (Option (NodeId × VfsEntryKind)) :=
  fs.map fun f => (w.fs f.index).objectAt q

def column (o : OverlayFS (MemoryRef ι)) (w : World ι) (q : PathBuf) :
    List (Option (NodeId × VfsEntryKind)) := objectsAt w o.layers q

theorem isDirObject_iff (fs : MemoryFS) (p : PathBuf) :
    (∃ v, fs.objectAt p = some v ∧ IsDirObject v) ↔
      ∃ c, fs.resolveNames p = some c ∧ fs.isDir c = true := by
  constructor
  · rintro ⟨v, hv, hdir⟩
    obtain ⟨c, hc, rfl⟩ := Option.map_eq_some_iff.mp hv
    refine ⟨c, hc, ?_⟩
    by_contra hno
    simp [IsDirObject, entryKind, hno] at hdir
  · rintro ⟨c, hc, hdir⟩
    exact ⟨(c, .dir), by simp [objectAt, hc, entryKind, hdir], rfl⟩

theorem reportsDir_iff (hw : w.WF) (hm : ∀ i, (w.fs i).ModesMasked) :
    o.ReportsDir w p ↔ ∃ v, lookup (o.objects w) p = some v ∧ IsDirObject v := by
  have hstat := World.memory_stat_isDir_iff hw hm (o.visibleLayer w p.toAbs) p
  rw [← isDirObject_iff] at hstat
  rw [← visibleObject_eq_lookup]
  exact hstat

/-- The view of an overlay is a tree if and only if no layer has a file, in sight, where a
layer below has a directory. -/
theorem treeView_iff (hw : w.WF) (hm : ∀ i, (w.fs i).ModesMasked) :
    TreeView o w ↔ ∀ q, Solid IsDirObject (o.column w q) := by
  have hcol (q : PathBuf) : o.column w q = (o.objects w).map (· q) := by
    simp [column, objectsAt, objects, Function.comp_def]
  constructor
  · intro h q
    rw [hcol, solid_iff_lookup]
    rintro ⟨g, hg, v, hv, hdir⟩
    obtain ⟨f, hf, rfl⟩ := List.mem_map.mp hg
    obtain ⟨l, hl⟩ := Option.isSome_iff_exists.mp
      ((World.memory_readDir_isSome_iff hw f q).mpr ((isDirObject_iff _ q).mp ⟨v, hv, hdir⟩))
    obtain ⟨es, hes⟩ := readDir_isSome hf hl
    exact (reportsDir_iff hw hm).mp (h.listing q (by rw [hes]; rfl))
  · intro h
    have hreports (f : MemoryRef ι) (hf : f ∈ o.layers) (q : PathBuf)
        (hv : ∃ v, (w.fs f.index).objectAt q = some v ∧ IsDirObject v) : o.ReportsDir w q := by
      have hq := h q
      rw [hcol, solid_iff_lookup] at hq
      exact (reportsDir_iff hw hm).mpr (hq ⟨_, List.mem_map_of_mem hf, hv⟩)
    constructor
    · intro p x hacc
      rw [access_iff] at hacc
      obtain ⟨v, hv⟩ := Option.ne_none_iff_exists'.mp hacc
      obtain ⟨g, hg, hgv⟩ := List.exists_of_findSome?_eq_some hv
      obtain ⟨f, hf, rfl⟩ := List.mem_map.mp hg
      refine hreports f hf p ?_
      obtain ⟨c, hc, -⟩ := Option.map_eq_some_iff.mp hgv
      obtain ⟨d, hd, hdir⟩ := (hw.fs f.index).resolveNames_of_append hc
      exact ⟨(d, .dir), by simp [objectAt, hd, entryKind, hdir], rfl⟩
    · intro p hsome
      obtain ⟨es, hes⟩ := Option.isSome_iff_exists.mp hsome
      change o.readLayers w p.toAbs = some es at hes
      unfold readLayers at hes
      split at hes
      · cases hes
      · rename_i ls hne
        obtain ⟨l, hl⟩ := List.exists_mem_of_ne_nil _ hne
        obtain ⟨f, hf, hfl⟩ := List.mem_filterMap.mp hl
        refine hreports f hf p ((isDirObject_iff _ p).mpr ?_)
        exact (World.memory_readDir_isSome_iff hw f p).mp (by rw [hfl]; rfl)

inductive OverlayOp where
  | openPath (p : PathBuf) (flags : Flags) (mode : Mode)
  | mkdir (p : PathBuf) (mode : Mode)
  | unlink (p : PathBuf)
  | rmdir (p : PathBuf)
  | rename (old new : PathBuf)
  | chmod (p : PathBuf) (mode : Mode)

def step (o : OverlayFS (MemoryRef ι)) (w : World ι) : OverlayOp → World ι
  | .openPath p flags mode => (LowLevelFS.openWithHandle o w p.toAbs flags mode).2
  | .mkdir p mode => (LowLevelFS.mkdir o w p.toAbs mode).2
  | .unlink p => (LowLevelFS.unlink o w p.toAbs).2
  | .rmdir p => (LowLevelFS.rmdir o w p.toAbs).2
  | .rename old new => (LowLevelFS.rename o w old.toAbs new.toAbs).2
  | .chmod p mode => (LowLevelFS.chmod o w p.toAbs mode).2

theorem step_wf (hw : w.WF) (o : OverlayFS (MemoryRef ι)) (op : OverlayOp) : (o.step w op).WF := by
  cases op with
  | openPath p flags mode => exact (Backend.overlay_openWithHandle hw o p.toAbs flags mode).1.wf hw
  | mkdir p mode => exact (Backend.overlay_mkdir hw o p.toAbs mode).wf hw
  | unlink p => exact (Backend.unlink_spec hw (.overlay o) p.toAbs).wf hw
  | rmdir p => exact (Backend.rmdir_spec hw (.overlay o) p.toAbs).wf hw
  | rename old new => exact (Backend.rename_spec hw (.overlay o) old.toAbs new.toAbs).wf hw
  | chmod p mode => exact (Backend.chmod_spec (.overlay o) p.toAbs mode).wf hw

theorem step_kept {Q : MemoryFS → Prop} (hQ : KeptByPath Q) (hw : w.WF) (hq : ∀ i, Q (w.fs i))
    (o : OverlayFS (MemoryRef ι)) (op : OverlayOp) : ∀ i, Q ((o.step w op).fs i) := by
  cases op with
  | openPath p flags mode => exact hQ.overlay_open hw hq o p.toAbs flags mode
  | mkdir p mode => exact hQ.overlay_mkdir hw hq o p.toAbs mode
  | unlink p => exact hQ.backend_unlink hw hq (.overlay o) p.toAbs
  | rmdir p => exact hQ.backend_rmdir hw hq (.overlay o) p.toAbs
  | rename old new => exact hQ.overlay_rename hw hq o old new
  | chmod p mode => exact hQ.backend_chmod hw hq (.overlay o) p.toAbs mode

omit [DecidableEq ι] in
theorem column_exchange {above below : List (MemoryRef ι)} {f : MemoryRef ι}
    (hl : o.layers = above ++ f :: below) (hown : o.layers.Nodup)
    (hfs : ∀ j, j ≠ f.index → w'.fs j = w.fs j) (q : PathBuf) :
    o.column w' q =
      objectsAt w above q ++ (w'.fs f.index).objectAt q :: objectsAt w below q := by
  have hobjects := congrArg (List.map (· q)) (objects_exchange hl hown hfs)
  simpa [column, objectsAt, objects, Function.comp_def] using hobjects

def DirBelow (o : OverlayFS (MemoryRef ι)) (w : World ι) (p : PathBuf) : Prop :=
  ∃ g ∈ o.lower, ∃ v, (w.fs g.index).objectAt p = some v ∧ IsDirObject v

omit [DecidableEq ι] in
/-- A change in the top layer that puts only directories where something else was. -/
theorem solid_top (hown : o.layers.Nodup) (hfs : ∀ j, j ≠ o.top.index → w'.fs j = w.fs j)
    (hq : (w'.fs o.top.index).objectAt q = (w.fs o.top.index).objectAt q ∨
      ∃ v, (w'.fs o.top.index).objectAt q = some v ∧ IsDirObject v)
    (h : Solid IsDirObject (o.column w q)) : Solid IsDirObject (o.column w' q) := by
  have hl : o.layers = [] ++ o.top :: o.lower := rfl
  rw [column_exchange hl hown hfs]
  rcases hq with he | ⟨v, hv, hdir⟩
  · rw [he, ← column_exchange hl hown (fun _ _ => rfl)]
    exact h
  · rw [hv]
    exact Or.inl hdir

omit [DecidableEq ι] in
theorem solid_file_iff (hown : o.layers.Nodup) (hfs : ∀ j, j ≠ o.top.index → w'.fs j = w.fs j)
    {v : NodeId × VfsEntryKind} (hv : (w'.fs o.top.index).objectAt q = some v)
    (hfile : ¬ IsDirObject v) :
    Solid IsDirObject (o.column w' q) ↔ ¬ o.DirBelow w q := by
  have hl : o.layers = [] ++ o.top :: o.lower := rfl
  rw [column_exchange hl hown hfs, hv]
  constructor
  · rintro hs ⟨g, hg, u, hu, hdir⟩
    exact (hs.resolve_left hfile) u (List.mem_map.mpr ⟨g, hg, hu⟩) hdir
  · intro h
    right
    intro u hu hdir
    obtain ⟨g, hg, hgu⟩ := List.mem_map.mp hu
    exact h ⟨g, hg, u, hgu, hdir⟩

theorem objectAt_of_view {fs fs' : MemoryFS} {next next' : NodeId} (h : fs.WF next)
    (h' : fs'.WF next') (hv : fs'.view q = fs.view q) : fs'.objectAt q = fs.objectAt q := by
  rw [h.objectAt_eq, h'.objectAt_eq, hv]

theorem dirObject_of_view {fs : MemoryFS} {next : NodeId} (h : fs.WF next) (id : NodeId)
    (mode : Mode) (hv : fs.view q = some (id, true, mode)) :
    ∃ v, fs.objectAt q = some v ∧ IsDirObject v := by
  rw [h.objectAt_eq, hv]
  exact ⟨_, rfl, rfl⟩

theorem ensured_objectAt (hw : w.WF) (o : OverlayFS (MemoryRef ι)) (p q : PathBuf) :
    ((o.ensureTopParentDirs w p.toAbs).fs o.top.index).objectAt q =
        (w.fs o.top.index).objectAt q ∨
      ∃ v, ((o.ensureTopParentDirs w p.toAbs).fs o.top.index).objectAt q = some v ∧
        IsDirObject v := by
  have hwf := ((World.ensureTopParentDirs_grows hw o p.toAbs).wf hw).fs o.top.index
  by_cases hm : o.MakesDir w p q
  · obtain ⟨id, hid⟩ := ensured_view_made hw hm
    exact Or.inr (dirObject_of_view hwf _ _ hid)
  · exact Or.inl (objectAt_of_view (hw.fs _) hwf (ensured_view_eq hw hm))

theorem write_solid_other (hw : w.WF) (hown : o.layers.Nodup) {c : WriteCall} (hc : c.Writes)
    (hq : q ≠ p) (h : Solid IsDirObject (o.column w q)) :
    Solid IsDirObject (o.column (o.write w p c) q) := by
  have hgrows := write_grows hw o p c
  have hwf := ((World.ensureTopParentDirs_grows hw o p.toAbs).wf hw).fs o.top.index
  refine solid_top hown (fun j hj => hgrows.fs_eq (by simpa using hj)) ?_ h
  rw [objectAt_of_view hwf ((hgrows.wf hw).fs _) (write_view hw hc hq)]
  exact ensured_objectAt hw o p q

theorem mkdir_solid (hw : w.WF) (hown : o.layers.Nodup) (p : PathBuf) (mode : Mode)
    (h : ∀ q, Solid IsDirObject (o.column w q)) (q : PathBuf) :
    Solid IsDirObject (o.column (LowLevelFS.mkdir o w p.toAbs mode).2 q) := by
  by_cases hq : q = p
  · subst hq
    have hgrows := Backend.overlay_mkdir hw o q.toAbs mode
    have hwf := ((World.ensureTopParentDirs_grows hw o q.toAbs).wf hw).fs o.top.index
    refine solid_top hown (fun j hj => hgrows.fs_eq (by simpa using hj)) ?_ (h q)
    have hfs : (LowLevelFS.mkdir o w q.toAbs mode).2.fs o.top.index =
        (createNode ((o.ensureTopParentDirs w q.toAbs).state o.top) q.toAbs .dir mode).2.fs :=
      World.put_fs _ _ _
    rw [hfs, createNode_eq]
    rcases createAt_cases (m := (o.ensureTopParentDirs w q.toAbs).state o.top) hwf
      (((o.ensureTopParentDirs w q.toAbs).state o.top).fs.resolveParent q.toAbs) .dir mode with
      ⟨sys', he, -⟩ | ⟨m', d, x, n, he, ht, hid, -, hdir, -, hcr⟩
    · rw [he]
      exact ensured_objectAt hw o q q
    · right
      obtain ⟨pa, rfl, hd⟩ := resolveParent_toAbs_eq_some ht
      rw [he]
      refine dirObject_of_view (hcr.wf hwf hid) n.id n.mode ?_
      rw [hcr.view hwf hid hd, addPath, if_pos rfl, hdir]
      rfl
  · exact write_solid_other hw hown (c := .mkdir mode) trivial hq (h q)

/-- The open creates a file in the top layer where a lower layer has a directory. -/
def CoversDir (o : OverlayFS (MemoryRef ι)) (w : World ι) (p : PathBuf) (flags : Flags) : Prop :=
  flags.has O_CREAT = true ∧ (w.fs o.top.index).resolveNames p = none ∧
    (o.HasTopParent w p ∧ w.sys.grants (o.parentCost w p + 1) = true) ∧ o.DirBelow w p

theorem open_fs_of_not_created (hw : w.WF) {flags : Flags} (hwr : writes flags = true)
    (h : ¬ (flags.has O_CREAT = true ∧ (w.fs o.top.index).resolveNames p = none ∧
      o.HasTopParent w p ∧ w.sys.grants (o.parentCost w p + 1) = true)) (mode : Mode) :
    (LowLevelFS.openWithHandle o w p.toAbs flags mode).2.fs o.top.index =
      (o.ensureTopParentDirs w p.toAbs).fs o.top.index := by
  have hwf := ((World.ensureTopParentDirs_grows hw o p.toAbs).wf hw).fs o.top.index
  rw [write_open_eq hwr, World.put_fs]
  by_cases hc : flags.has O_CREAT = true
  · by_cases ht : (w.fs o.top.index).resolveNames p = none
    · have hno : ¬ _ := fun hmake => h ⟨hc, ht, (ensured_canCreate_iff hw).mp hmake⟩
      exact (openNode_refused (m := (o.ensureTopParentDirs w p.toAbs).state o.top) hwf
        (ensured_missing hw ht) hno flags mode).2
    · have hsame : ((o.ensureTopParentDirs w p.toAbs).state o.top).fs.resolveNames p ≠ none := by
        rwa [ensured_of_top hw ht]
      rw [openNode_fs, if_neg fun hh => hsame hh.1]
      rfl
  · rw [openNode_fs, if_neg fun hh => hc hh.2]
    rfl

omit [DecidableEq ι] in
theorem forall_solid_iff (hothers : ∀ q, q ≠ p → Solid IsDirObject (o.column w q)) :
    (∀ q, Solid IsDirObject (o.column w q)) ↔ Solid IsDirObject (o.column w p) := by
  constructor
  · intro h
    exact h p
  · intro hp q
    by_cases hq : q = p
    · rw [hq]
      exact hp
    · exact hothers q hq

theorem open_created_objectAt (hw : w.WF) {flags : Flags} (hc : flags.has O_CREAT = true)
    (ht : (w.fs o.top.index).resolveNames p = none)
    (hcan : o.HasTopParent w p ∧ w.sys.grants (o.parentCost w p + 1) = true) (mode : Mode) :
    ∃ n, ((LowLevelFS.openWithHandle o w p.toAbs flags mode).2.fs o.top.index).objectAt p =
      some (n, .file) := by
  have hwr : writes flags = true := Flags.has_of_has_part (by decide) hc
  have hwf := ((World.ensureTopParentDirs_grows hw o p.toAbs).wf hw).fs o.top.index
  obtain ⟨hparent, hgrant⟩ := (ensured_canCreate_iff hw).mpr hcan
  obtain ⟨n, m', he, -, hdir, hn, -⟩ := openNode_creates
    (m := (o.ensureTopParentDirs w p.toAbs).state o.top) hwf (ensured_missing hw ht) hc
    hparent hgrant mode
  refine ⟨n, ?_⟩
  have hfs : (LowLevelFS.openWithHandle o w p.toAbs flags mode).2.fs o.top.index = m'.fs := by
    rw [write_open_eq hwr, World.put_fs, he, openFound_fs]
  rw [hfs, objectAt, hn, Option.map_some, entryKind, hdir]
  rfl

theorem open_solid_iff (hw : w.WF) (hown : o.layers.Nodup) (p : PathBuf) (flags : Flags)
    (mode : Mode) (h : ∀ q, Solid IsDirObject (o.column w q)) :
    (∀ q, Solid IsDirObject (o.column (LowLevelFS.openWithHandle o w p.toAbs flags mode).2 q)) ↔
      ¬ o.CoversDir w p flags := by
  by_cases hwr : writes flags = true
  · have hgrows := (Backend.overlay_openWithHandle hw o p.toAbs flags mode).1
    have hfs (j : ι) (hj : j ≠ o.top.index) :
        (LowLevelFS.openWithHandle o w p.toAbs flags mode).2.fs j = w.fs j :=
      hgrows.fs_eq (by simpa using hj)
    have hothers (q : PathBuf) (hq : q ≠ p) :
        Solid IsDirObject (o.column (LowLevelFS.openWithHandle o w p.toAbs flags mode).2 q) :=
      write_solid_other hw hown (c := .openPath flags mode) hwr hq (h q)
    rw [forall_solid_iff hothers]
    by_cases hmade : flags.has O_CREAT = true ∧ (w.fs o.top.index).resolveNames p = none ∧
        o.HasTopParent w p ∧ w.sys.grants (o.parentCost w p + 1) = true
    · obtain ⟨hc, ht, hcan⟩ := hmade
      obtain ⟨n, hobj⟩ := open_created_objectAt hw hc ht hcan mode
      have hcov : o.CoversDir w p flags ↔ o.DirBelow w p :=
        ⟨fun hh => hh.2.2.2, fun hh => ⟨hc, ht, hcan, hh⟩⟩
      rw [hcov]
      exact solid_file_iff hown hfs hobj VfsEntryKind.noConfusion
    · refine iff_of_true ?_ fun hh => hmade ⟨hh.1, hh.2.1, hh.2.2.1⟩
      refine solid_top hown hfs ?_ (h p)
      rw [open_fs_of_not_created hw hwr hmade]
      exact ensured_objectAt hw o p p
  · have hcreat : ¬ flags.has O_CREAT = true :=
      fun hc => hwr (Flags.has_of_has_part (by decide) hc)
    refine iff_of_true ?_ fun hh => hcreat hh.1
    have he : LowLevelFS.openWithHandle o w p.toAbs flags mode =
        LowLevelFS.openWithHandle (o.visibleLayer w p.toAbs) w p.toAbs flags mode := if_neg hwr
    have hfs : (LowLevelFS.openWithHandle o w p.toAbs flags mode).2.fs = w.fs := by
      rw [he]
      show (w.put _ (openNode (w.state (o.visibleLayer w p.toAbs)) p.toAbs flags mode).2).fs = _
      rw [World.put, openNode_fs, if_neg fun hh => hcreat hh.2]
      exact Function.update_eq_self _ _
    intro q
    have hcolumn : o.column (LowLevelFS.openWithHandle o w p.toAbs flags mode).2 q =
        o.column w q := by
      rw [column, objectsAt, hfs]
      rfl
    rw [hcolumn]
    exact h q

/-- The removal of a directory brings a file into sight that is over a directory. -/
def Uncovers (o : OverlayFS (MemoryRef ι)) (w : World ι) (p : PathBuf) : Prop :=
  (o.visibleFs w p).CanRemove p .dir ∧
    ¬ Solid IsDirObject (objectsAt w (o.layersBelow (o.visibleLayer w p.toAbs)) p)

omit [DecidableEq ι] in
theorem objectsAt_none (hw : w.WF) {fs : List (MemoryRef ι)}
    (h : ∀ g ∈ fs, (w.fs g.index).objectAt p = none) (s : PathBuf) :
    ∀ a ∈ objectsAt w fs (p ++ s), a = none := by
  intro a ha
  obtain ⟨g, hg, rfl⟩ := List.mem_map.mp ha
  exact (hw.fs g.index).objectAt_prefixClosed p s (h g hg)

theorem layers_split_of_visible (hown : o.layers.Nodup)
    (hp : (o.visibleFs w p).resolveNames p ≠ none) :
    ∃ above, o.layers =
        above ++ o.visibleLayer w p.toAbs :: o.layersBelow (o.visibleLayer w p.toAbs) ∧
      o.layersAbove (o.visibleLayer w p.toAbs) = above ∧
      ∀ g ∈ above, (w.fs g.index).objectAt p = none := by
  have hlook : lookup (o.objects w) p ≠ none := by
    rw [← visibleObject_eq_lookup]
    exact fun hnone => hp (objectAt_eq_none_iff.mp hnone)
  obtain ⟨above, below, hl, habove, -⟩ := visibleLayer_split hlook
  obtain ⟨ha, hb⟩ := layers_split hl hown
  exact ⟨above, by rw [hb]; exact hl, ha, habove⟩

theorem layer_remove_solid_iff (hw : w.WF) (hown : o.layers.Nodup)
    {above below : List (MemoryRef ι)} {f : MemoryRef ι} (hl : o.layers = above ++ f :: below)
    (habove : ∀ g ∈ above, (w.fs g.index).objectAt p = none) {kind : VfsEntryKind} {c : NodeId}
    (hc : (w.fs f.index).resolveNames p = some c) (hk : (w.fs f.index).kindMatches c kind = true)
    {fs' : MemoryFS} (hfs : fs'.objectAt = erasePath (w.fs f.index).objectAt p)
    (h : ∀ q, Solid IsDirObject (o.column w q)) :
    (∀ q, Solid IsDirObject (o.column (w.putFs f fs') q)) ↔
      (kind = .dir → Solid IsDirObject (objectsAt w below p)) := by
  have hwf := hw.fs f.index
  have hbefore (q : PathBuf) : o.column w q =
      objectsAt w above q ++ (w.fs f.index).objectAt q :: objectsAt w below q :=
    column_exchange hl hown (fun _ _ => rfl) q
  have hafter (q : PathBuf) : o.column (w.putFs f fs') q = objectsAt w above q ++
      erasePath (w.fs f.index).objectAt p q :: objectsAt w below q := by
    rw [column_exchange hl hown (fun j hj => World.putFs_fs_ne w f fs' hj), World.putFs_fs, hfs]
  have hothers (q : PathBuf) (hq : q ≠ p) :
      Solid IsDirObject (o.column (w.putFs f fs') q) := by
    by_cases hpq : p <+: q
    · -- nothing was below the removed node in its layer
      obtain ⟨s, rfl⟩ := hpq
      have hnone : (w.fs f.index).objectAt (p ++ s) = none := by
        by_contra hsome
        obtain ⟨e, he⟩ := Option.ne_none_iff_exists'.mp fun hn => hsome (objectAt_eq_none_iff.mpr hn)
        have hnil := hwf.eq_nil_of_childless hc (childless_of_kindMatches hk) he
        exact hq (by rw [hnil, List.append_nil])
      have hh := h (p ++ s)
      rw [hbefore, hnone] at hh
      rwa [hafter, erasePath, if_pos (List.prefix_append p s)]
    · rw [hafter, erasePath, if_neg hpq, ← hbefore]
      exact h q
  rw [forall_solid_iff hothers, hafter, erasePath, if_pos (List.prefix_refl p)]
  have hnone := objectsAt_none hw habove []
  rw [List.append_nil] at hnone
  rw [solid_append_of_none hnone]
  show Solid IsDirObject (objectsAt w below p) ↔ _
  have hp := h p
  rw [hbefore, solid_append_of_none hnone, objectAt, hc, Option.map_some] at hp
  cases kind with
  | dir => simp
  | file =>
    refine iff_of_true ?_ fun he => VfsEntryKind.noConfusion he
    have hdir : (w.fs f.index).isDir c = false := by simpa [kindMatches] using hk
    have hfile : ¬ IsDirObject (c, (w.fs f.index).entryKind c) := by
      simp [IsDirObject, entryKind, hdir]
    exact solid_of_no_dir (hp.resolve_left hfile)

theorem remove_solid_iff (hw : w.WF) (hown : o.layers.Nodup) (p : PathBuf) (kind : VfsEntryKind)
    (h : ∀ q, Solid IsDirObject (o.column w q)) :
    (∀ q, Solid IsDirObject (o.column (o.remove w p.toAbs kind).2 q)) ↔
      ¬ (kind = .dir ∧ o.Uncovers w p) := by
  have hwv := hw.fs (o.visibleLayer w p.toAbs).index
  have hcan := removeNodeAt_toAbs_iff hwv p kind
  rw [remove_eq]
  rcases removeNodeAt_toAbs_cases hwv p kind with
    he | ⟨fs', q₀, x, d, c, he, hpq, hd, hc, hk, hr, -⟩
  · have hno : ¬ (o.visibleFs w p).CanRemove p kind := by
      intro hh
      have hz := hcan.mpr hh
      rw [he] at hz
      exact absurd hz neg_one_lt_zero.ne
    rw [he, World.putFs_self]
    refine iff_of_true h ?_
    rintro ⟨rfl, hh, -⟩
    exact hno hh
  · have hvis : (o.visibleFs w p).resolveNames p ≠ none := Option.ne_none_iff_exists'.mpr ⟨c, hc⟩
    obtain ⟨above, hl, -, habove⟩ := layers_split_of_visible hown hvis
    have hfs : fs'.objectAt = erasePath (w.fs (o.visibleLayer w p.toAbs).index).objectAt p := by
      rw [hr.objectAt hwv hd, hpq]
    have hok : (o.visibleFs w p).CanRemove p kind := by
      have hz : ((w.fs (o.visibleLayer w p.toAbs).index).removeNodeAt p.toAbs kind).1 = 0 := by
        rw [he]
      exact hcan.mp hz
    rw [he, layer_remove_solid_iff hw hown hl habove hc hk hfs h]
    constructor
    · rintro hs ⟨rfl, -, hno⟩
      exact hno (hs rfl)
    · rintro hno rfl
      by_contra hs
      exact hno ⟨rfl, hok, hs⟩

/-- The layers above and below `f` go with a move in `f`. -/
structure MovesSolid (o : OverlayFS (MemoryRef ι)) (w : World ι) (f : MemoryRef ι)
    (old new : PathBuf) : Prop where
  source : ∀ s, Solid IsDirObject (objectsAt w (o.layersBelow f) (old ++ s))
  target : ∀ s, Solid IsDirObject (objectsAt w (o.layersAbove f) (new ++ s) ++
    (w.fs f.index).objectAt (old ++ s) :: objectsAt w (o.layersBelow f) (new ++ s))

theorem layer_rename_solid_iff (hw : w.WF) (hown : o.layers.Nodup)
    {above below : List (MemoryRef ι)} {f : MemoryRef ι} (hl : o.layers = above ++ f :: below)
    {old new : PathBuf} (hne : old ≠ new)
    (habove : ∀ g ∈ above, (w.fs g.index).objectAt old = none) {fs' : MemoryFS}
    (hr : (w.fs f.index).renameNodeAt old.toAbs new.toAbs = some fs')
    (h : ∀ q, Solid IsDirObject (o.column w q)) :
    (∀ q, Solid IsDirObject (o.column (w.putFs f fs') q)) ↔ o.MovesSolid w f old new := by
  have hwf := hw.fs f.index
  obtain ⟨h₁, h₂⟩ := hwf.not_prefix_of_renamed hne hr
  obtain ⟨pa, x, a, pb, y, b, c, replaced, -, -, -, -, hc, hm, -, -, hp⟩ :=
    renameNodeAt_toAbs hwf hne hr
  obtain ⟨ha, hb⟩ := layers_split hl hown
  have hafter (q : PathBuf) : o.column (w.putFs f fs') q = objectsAt w above q ++
      movePath (w.fs f.index).objectAt old new q :: objectsAt w below q := by
    rw [column_exchange hl hown (fun j hj => World.putFs_fs_ne w f fs' hj), World.putFs_fs,
      hm.objectAt hp]
  have hsource (s : PathBuf) : Solid IsDirObject (o.column (w.putFs f fs') (old ++ s)) ↔
      Solid IsDirObject (objectsAt w below (old ++ s)) := by
    rw [hafter, movePath_old h₁ h₂, solid_append_of_none (objectsAt_none hw habove s)]
    rfl
  have htarget (s : PathBuf) : o.column (w.putFs f fs') (new ++ s) = objectsAt w above (new ++ s) ++
      (w.fs f.index).objectAt (old ++ s) :: objectsAt w below (new ++ s) := by
    rw [hafter, movePath_below]
  constructor
  · intro hh
    constructor
    · intro s
      rw [hb]
      exact (hsource s).mp (hh (old ++ s))
    · intro s
      rw [ha, hb, ← htarget]
      exact hh (new ++ s)
  · rintro ⟨hs, ht⟩ q
    rw [ha, hb] at *
    by_cases hn : new <+: q
    · obtain ⟨s, rfl⟩ := hn
      rw [htarget]
      exact ht s
    · by_cases ho : old <+: q
      · obtain ⟨s, rfl⟩ := ho
        exact (hsource s).mpr (hs s)
      · rw [hafter, movePath, if_neg hn, if_neg ho,
          ← column_exchange hl hown (fun _ _ => rfl)]
        exact h q

structure CanRename (o : OverlayFS (MemoryRef ι)) (w : World ι) (old new : PathBuf) : Prop where
  ne : old ≠ new
  old_ne : old ≠ []
  new_ne : new ≠ []
  source : ∃ c, (o.visibleFs w old).resolveNames old = some c ∧
    ((o.visibleFs w old).isDir c = true → ¬ old <+: new) ∧
    ∀ r, (o.visibleFs w old).resolveNames new = some r →
      (o.visibleFs w old).canReplaceNode c r = true
  target : (o.visibleFs w old).HasParent new ∨
    (w.fs o.top.index).resolveNames old ≠ none ∧ o.MakesDir w new new.dropLast

/-- The rename brings a file into sight that is over a directory, or puts one there. -/
def Misplaces (o : OverlayFS (MemoryRef ι)) (w : World ι) (old new : PathBuf) : Prop :=
  o.CanRename w old new ∧ ¬ o.MovesSolid w (o.visibleLayer w old.toAbs) old new

theorem canRename_below_iff {old new : PathBuf} (ht : (w.fs o.top.index).resolveNames old = none) :
    o.CanRename w old new ↔ (o.visibleFs w old).CanMove old new := by
  constructor
  · rintro ⟨hne, hold, hnew, hsource, htarget⟩
    exact ⟨hne, hold, hnew, hsource, htarget.resolve_right fun hh => hh.1 ht⟩
  · rintro ⟨hne, hold, hnew, hsource, htarget⟩
    exact ⟨hne, hold, hnew, hsource, Or.inl htarget⟩

theorem canRename_top_iff (hw : w.WF) {old new : PathBuf}
    (ht : (w.fs o.top.index).resolveNames old ≠ none) :
    o.CanRename w old new ↔
      ((o.ensureTopParentDirs w new.toAbs).fs o.top.index).CanMove old new := by
  have hvis : o.visibleFs w old = w.fs o.top.index := by rw [visibleFs, visibleLayer_of_top ht]
  have hparent := ensured_hasParent_iff (o := o) (p := new) hw
  have htarget : ((o.visibleFs w old).HasParent new ∨
      (w.fs o.top.index).resolveNames old ≠ none ∧ o.MakesDir w new new.dropLast) ↔
      o.HasTopParent w new := by
    rw [hvis]
    exact or_congr_right (and_iff_right ht)
  have hwf := ((World.ensureTopParentDirs_grows hw o new.toAbs).wf hw).fs o.top.index
  have hnode : ((o.ensureTopParentDirs w new.toAbs).fs o.top.index).objectAt old =
      (w.fs o.top.index).objectAt old :=
    objectAt_of_view (hw.fs _) hwf (ensured_view_of_exists hw ht)
  have hsource : (∃ c, (w.fs o.top.index).resolveNames old = some c ∧
        ((w.fs o.top.index).isDir c = true → ¬ old <+: new) ∧
        ∀ r, (w.fs o.top.index).resolveNames new = some r →
          (w.fs o.top.index).canReplaceNode c r = true) ↔
      ∃ c, ((o.ensureTopParentDirs w new.toAbs).fs o.top.index).resolveNames old = some c ∧
        (((o.ensureTopParentDirs w new.toAbs).fs o.top.index).isDir c = true → ¬ old <+: new) ∧
        ∀ r, ((o.ensureTopParentDirs w new.toAbs).fs o.top.index).resolveNames new = some r →
          ((o.ensureTopParentDirs w new.toAbs).fs o.top.index).canReplaceNode c r = true := by
    by_cases hn : (w.fs o.top.index).resolveNames new = none
    · have hn' := ensured_missing hw hn
      obtain ⟨c, hc⟩ := Option.ne_none_iff_exists'.mp ht
      rw [objectAt, objectAt, hc] at hnode
      obtain ⟨c', hc', he⟩ := Option.map_eq_some_iff.mp hnode
      have hcc : c' = c := congrArg Prod.fst he
      subst hcc
      have hkind : ((o.ensureTopParentDirs w new.toAbs).fs o.top.index).isDir c' =
          (w.fs o.top.index).isDir c' := entryKind_inj (congrArg Prod.snd he)
      simp [hn, hn', hc, hc', hkind]
    · rw [ensured_of_top hw hn]
  constructor
  · rintro ⟨hne, hold, hnew, hs, hp⟩
    rw [hvis] at hs
    exact ⟨hne, hold, hnew, hsource.mp hs, hparent.mpr (htarget.mp hp)⟩
  · rintro ⟨hne, hold, hnew, hs, hp⟩
    refine ⟨hne, hold, hnew, ?_, htarget.mpr (hparent.mp hp)⟩
    rw [hvis]
    exact hsource.mpr hs

theorem ensured_solid (hw : w.WF) (hown : o.layers.Nodup) (p : PathBuf)
    (h : ∀ q, Solid IsDirObject (o.column w q)) (q : PathBuf) :
    Solid IsDirObject (o.column (o.ensureTopParentDirs w p.toAbs) q) := by
  have hgrows := World.ensureTopParentDirs_grows hw o p.toAbs
  exact solid_top hown (fun j hj => hgrows.fs_eq (by simpa using hj)) (ensured_objectAt hw o p q)
    (h q)

theorem memory_rename_same {f : MemoryRef ι} (w : World ι) (p : PathBuf) :
    (LowLevelFS.rename f w p.toAbs p.toAbs).2 = w := by
  have he := renameNodeAt_same (w.fs f.index) p
  by_cases hp : p = []
  · rw [if_pos hp] at he
    simp [LowLevelFS.rename, he]
  · rw [if_neg hp] at he
    simp [LowLevelFS.rename, he]

theorem ensured_movesSolid_iff (hw : w.WF) (hown : o.layers.Nodup) {old new : PathBuf}
    (h : ¬ old <+: new) :
    o.MovesSolid (o.ensureTopParentDirs w new.toAbs) o.top old new ↔
      o.MovesSolid w o.top old new := by
  have hp := World.ensureTopParentDirs_grows hw o new.toAbs
  have hl : o.layers = [] ++ o.top :: o.lower := rfl
  obtain ⟨ha, hb⟩ := layers_split hl hown
  have hbelow (q : PathBuf) :
      objectsAt (o.ensureTopParentDirs w new.toAbs) o.lower q = objectsAt w o.lower q := by
    refine List.map_congr_left fun g hg => ?_
    have hg' : g.index ≠ o.top.index := by
      intro he
      have hgt : g = o.top := congrArg MemoryRef.mk he
      exact top_not_mem_lower hown (hgt ▸ hg)
    rw [hp.fs_eq hg']
  have htop (s : PathBuf) : ((o.ensureTopParentDirs w new.toAbs).fs o.top.index).objectAt
      (old ++ s) = (w.fs o.top.index).objectAt (old ++ s) := by
    refine ensureTopParentDirs_objectAt hw o fun hpre => ?_
    exact h ((List.prefix_append old s).trans (hpre.trans (List.dropLast_prefix new)))
  constructor
  · rintro ⟨hs, ht⟩
    rw [hb] at hs
    rw [ha, hb] at ht
    refine ⟨fun s => ?_, fun s => ?_⟩
    · rw [hb, ← hbelow]
      exact hs s
    · rw [ha, hb, ← hbelow, ← htop]
      exact ht s
  · rintro ⟨hs, ht⟩
    rw [hb] at hs
    rw [ha, hb] at ht
    refine ⟨fun s => ?_, fun s => ?_⟩
    · rw [hb, hbelow]
      exact hs s
    · rw [ha, hb, hbelow, htop]
      exact ht s

theorem memory_rename_solid_iff (hw : w.WF) (hown : o.layers.Nodup)
    {above below : List (MemoryRef ι)} {f : MemoryRef ι} (hl : o.layers = above ++ f :: below)
    {old new : PathBuf} (hne : old ≠ new)
    (habove : ∀ g ∈ above, (w.fs g.index).objectAt old = none)
    (h : ∀ q, Solid IsDirObject (o.column w q)) :
    (∀ q, Solid IsDirObject (o.column (LowLevelFS.rename f w old.toAbs new.toAbs).2 q)) ↔
      ¬ ((w.fs f.index).CanMove old new ∧ ¬ o.MovesSolid w f old new) := by
  have hiff := renameNodeAt_isSome_iff (hw.fs f.index) hne
  cases hr : (w.fs f.index).renameNodeAt old.toAbs new.toAbs with
  | none =>
    have he : LowLevelFS.rename f w old.toAbs new.toAbs = (-1, w) := by
      simp [LowLevelFS.rename, hr]
    rw [he]
    refine iff_of_true h ?_
    rintro ⟨hcan, -⟩
    have hsome := hiff.mpr hcan
    rw [hr] at hsome
    cases hsome
  | some fs' =>
    have he : LowLevelFS.rename f w old.toAbs new.toAbs = (0, w.putFs f fs') := by
      simp [LowLevelFS.rename, hr]
    have hcan : (w.fs f.index).CanMove old new := hiff.mp (by rw [hr]; rfl)
    rw [he, layer_rename_solid_iff hw hown hl hne habove hr h, not_and, not_not]
    exact (imp_iff_right hcan).symm

theorem rename_solid_iff (hw : w.WF) (hown : o.layers.Nodup) (old new : PathBuf)
    (h : ∀ q, Solid IsDirObject (o.column w q)) :
    (∀ q, Solid IsDirObject (o.column (LowLevelFS.rename o w old.toAbs new.toAbs).2 q)) ↔
      ¬ o.Misplaces w old new := by
  have hl : o.layers = [] ++ o.top :: o.lower := rfl
  by_cases ht : (w.fs o.top.index).resolveNames old = none
  · have hacc : ¬ LowLevelFS.access o.top w old.toAbs F_OK = 0 :=
      fun ha => (access_toAbs _ _ _ _).mp ha ht
    have he : LowLevelFS.rename o w old.toAbs new.toAbs =
        LowLevelFS.rename (o.visibleLayer w old.toAbs) w old.toAbs new.toAbs := if_neg hacc
    rw [he, Misplaces, canRename_below_iff ht]
    by_cases hne : old = new
    · subst hne
      rw [memory_rename_same]
      exact iff_of_true h fun hh => hh.1.ne rfl
    · by_cases hvis : (o.visibleFs w old).resolveNames old = none
      · -- nothing has the path, so nothing is moved
        have hno : ¬ (o.visibleFs w old).CanMove old new := by
          intro hcan
          obtain ⟨c, hc, -⟩ := hcan.source
          rw [hvis] at hc
          cases hc
        have hmiss : (w.fs (o.visibleLayer w old.toAbs).index).renameNodeAt old.toAbs new.toAbs =
            none := by
          by_contra hsome
          exact hno ((renameNodeAt_isSome_iff (hw.fs _) hne).mp
            (Option.isSome_iff_ne_none.mpr hsome))
        have hw' : (LowLevelFS.rename (o.visibleLayer w old.toAbs) w old.toAbs new.toAbs).2 = w := by
          simp [LowLevelFS.rename, hmiss]
        rw [hw']
        exact iff_of_true h fun hh => hno hh.1
      · obtain ⟨above, hl', -, habove⟩ := layers_split_of_visible hown hvis
        exact memory_rename_solid_iff hw hown hl' hne habove h
  · have hacc : LowLevelFS.access o.top w old.toAbs F_OK = 0 := (access_toAbs _ _ _ _).mpr ht
    have he : LowLevelFS.rename o w old.toAbs new.toAbs =
        LowLevelFS.rename o.top (o.ensureTopParentDirs w new.toAbs) old.toAbs new.toAbs :=
      if_pos hacc
    have hsolid := ensured_solid hw hown new h
    rw [he, Misplaces, canRename_top_iff hw ht, visibleLayer_of_top ht]
    by_cases hne : old = new
    · subst hne
      rw [memory_rename_same]
      exact iff_of_true hsolid fun hh => hh.1.ne rfl
    · have hwf := (World.ensureTopParentDirs_grows hw o new.toAbs).wf hw
      rw [memory_rename_solid_iff hwf hown hl hne (by simp) hsolid]
      refine not_congr (and_congr_right fun hcan => not_congr ?_)
      obtain ⟨fs', hr⟩ := Option.isSome_iff_exists.mp
        ((renameNodeAt_isSome_iff (hwf.fs o.top.index) hne).mpr hcan)
      exact ensured_movesSolid_iff hw hown ((hwf.fs _).not_prefix_of_renamed hne hr).2

theorem chmod_column (hw : w.WF) (p : PathBuf) (mode : Mode) (q : PathBuf) :
    o.column (LowLevelFS.chmod o w p.toAbs mode).2 q = o.column w q := by
  have hd : LowLevelFS.chmod o w p.toAbs mode =
      LowLevelFS.chmod (o.visibleLayer w p.toAbs) w p.toAbs mode := rfl
  rw [hd]
  generalize o.visibleLayer w p.toAbs = f
  cases he : (w.fs f.index).chmod p.toAbs mode with
  | none => simp [LowLevelFS.chmod, he]
  | some fs' =>
    have hw' : (LowLevelFS.chmod f w p.toAbs mode).2 = w.putFs f fs' := by
      simp [LowLevelFS.chmod, he]
    obtain ⟨c, -, hs⟩ := chmod_cases he
    have hobj : fs'.objectAt q = (w.fs f.index).objectAt q := by
      unfold objectAt entryKind
      rw [hs.resolveNames (hw.fs f.index)]
      simp only [hs.isDir_eq]
    rw [hw', column, column, objectsAt, objectsAt]
    refine List.map_congr_left fun g _ => ?_
    by_cases hg : g = f
    · rw [hg, World.putFs_fs]
      exact hobj
    · rw [World.putFs_fs_ne w f fs' fun hi => hg (congrArg MemoryRef.mk hi)]

/-- No call puts a file in sight over a directory. -/
def KeepsTree (o : OverlayFS (MemoryRef ι)) (w : World ι) : OverlayOp → Prop
  | .openPath p flags _ => ¬ o.CoversDir w p flags
  | .rmdir p => ¬ o.Uncovers w p
  | .rename old new => ¬ o.Misplaces w old new
  | .mkdir _ _ | .unlink _ | .chmod _ _ => True

theorem step_solid_iff (hw : w.WF) (hown : o.layers.Nodup) (op : OverlayOp)
    (h : ∀ q, Solid IsDirObject (o.column w q)) :
    (∀ q, Solid IsDirObject (o.column (o.step w op) q)) ↔ o.KeepsTree w op := by
  cases op with
  | openPath p flags mode => exact open_solid_iff hw hown p flags mode h
  | mkdir p mode => exact iff_of_true (mkdir_solid hw hown p mode h) trivial
  | unlink p =>
    exact (remove_solid_iff hw hown p .file h).trans
      (iff_of_true (fun hh => VfsEntryKind.noConfusion hh.1) trivial)
  | rmdir p =>
    exact (remove_solid_iff hw hown p .dir h).trans (not_congr (and_iff_right rfl))
  | rename old new => exact rename_solid_iff hw hown old new h
  | chmod p mode =>
    refine iff_of_true (fun q => ?_) trivial
    have hq := chmod_column (o := o) hw p mode q
    rw [step, hq]
    exact h q

structure TreeInv (w : World ι) : Prop where
  wf : w.WF
  masked : ∀ i, (w.fs i).ModesMasked

theorem step_treeInv (o : OverlayFS (MemoryRef ι)) (w : World ι) (op : OverlayOp)
    (h : TreeInv w) : TreeInv (o.step w op) :=
  ⟨step_wf h.wf o op, step_kept modesMasked_keptByPath h.wf h.masked o op⟩

/-- Every state of a run shows a tree if and only if no step puts a file in sight over a
directory of a layer below. -/
theorem run_treeView_iff (h : TreeInv w) (hown : o.layers.Nodup) (ht : o.TreeView w)
    (ops : List OverlayOp) :
    (∀ l, l <+: ops → o.TreeView (l.foldl o.step w)) ↔
      Runs.EveryStep o.step o.KeepsTree w ops := by
  refine Runs.forall_prefix_iff (P := o.TreeView) (o.step_treeInv) ?_ h ht ops
  intro w op hi hp
  have hstep := o.step_treeInv w op hi
  rw [treeView_iff hi.wf hi.masked] at hp
  rw [treeView_iff hstep.wf hstep.masked]
  exact step_solid_iff hi.wf hown op hp

theorem new_isDirObject {sys : Sys} {v : NodeId × VfsEntryKind}
    (h : (MemoryFS.new sys).fs.objectAt q = some v) : IsDirObject v := by
  have hwf := MemoryFS.new_wf sys
  obtain ⟨c, hc, rfl⟩ := Option.map_eq_some_iff.mp h
  rcases List.eq_nil_or_concat q with rfl | ⟨q, x, rfl⟩
  · rw [hwf.resolveNames_nil] at hc
    cases hc
    simp [IsDirObject, entryKind, hwf.root_dir]
  · rw [List.concat_eq_append, hwf.resolveNames_concat] at hc
    obtain ⟨d, -, hd⟩ := Option.bind_eq_some_iff.mp hc
    rw [MemoryFS.new_entryAt] at hd
    cases hd

theorem baseDir_treeInv (mode : Mode) : TreeInv (baseDir mode) :=
  ⟨baseDir_wf mode, modesMasked_keptByPath.memory_mkdir (World.fresh_wf 2 .boot)
    (fun i => new_modesMasked (World.madeSys .boot i)) _ _ _⟩

theorem baseDir_treeView (mode : Mode) : twoLayers.TreeView (baseDir mode) := by
  rw [treeView_iff (baseDir_wf mode) (baseDir_treeInv mode).masked]
  intro q
  have htop : (baseDir mode).fs 0 = (MemoryFS.new (World.madeSys .boot 0)).fs :=
    World.put_fs_ne _ _ _ (by decide)
  show Solid IsDirObject [((baseDir mode).fs 0).objectAt q, ((baseDir mode).fs 1).objectAt q]
  rw [htop]
  cases hq : (MemoryFS.new (World.madeSys .boot 0)).fs.objectAt q with
  | some v => exact Or.inl (new_isDirObject hq)
  | none =>
    cases ((baseDir mode).fs 1).objectAt q with
    | none => trivial
    | some v => exact Or.inr fun u hu => absurd hu (List.not_mem_nil)

theorem run_treeView_baseDir :
    twoLayers.TreeView
      ([OverlayOp.mkdir [.d, .a] 0o755].foldl twoLayers.step (baseDir 0o755)) :=
  (run_treeView_iff (baseDir_treeInv 0o755) (by decide) (baseDir_treeView 0o755)
    [OverlayOp.mkdir [.d, .a] 0o755]).mpr ⟨trivial, trivial⟩ _ List.prefix_rfl

/-- The base still lists `/d`, which is a file of the top layer now. -/
theorem not_treeView_baseDir :
    twoLayers.TreeView (baseDir 0o755) ∧
      ¬ twoLayers.TreeView (twoLayers.step (baseDir 0o755)
        (.openPath [.d] (O_CREAT ||| O_WRONLY) 0o644)) := by
  refine ⟨baseDir_treeView 0o755, ?_⟩
  intro h
  obtain ⟨st, hst, hdir⟩ := h.listing [.d] (by decide +kernel)
  have hfile : (LowLevelFS.stat twoLayers (twoLayers.step (baseDir 0o755)
      (.openPath [.d] (O_CREAT ||| O_WRONLY) 0o644)) (PathBuf.toAbs [.d])).map Stat.isDir =
        some false := by decide +kernel
  rw [hst, Option.map_some, hdir] at hfile
  cases hfile

end OverlayFS

end SandboxVfs
