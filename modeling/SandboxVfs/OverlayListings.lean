import SandboxVfs.DirectoryScans
import SandboxVfs.OverlayVisibility

/-! The two listings of a directory: `read_dir` merges the layers of an overlay, while
`getdents64` lists the node in the layer that answered the open. -/

namespace SandboxVfs

open MemoryFS

namespace OverlayFS

/-- Merging appends what is new, and nothing else. -/
theorem mergeEntries_eq_append (acc layer : List VfsDirEntry) :
    ∃ extra, mergeEntries acc layer = acc ++ extra ∧
      (extra = [] ↔ ∀ e ∈ layer, ∃ a ∈ acc, a.name = e.name) := by
  unfold mergeEntries
  induction layer generalizing acc with
  | nil => exact ⟨[], by simp, by simp⟩
  | cons e layer ih =>
    rw [List.foldl_cons]
    by_cases hany : acc.any (fun a => a.name = e.name) = true
    · obtain ⟨extra, he, hiff⟩ := ih acc
      refine ⟨extra, by rw [if_pos hany, he], ?_⟩
      have hex : ∃ a ∈ acc, a.name = e.name := by simpa using hany
      rw [hiff, List.forall_mem_cons]
      exact ⟨fun h => ⟨hex, h⟩, fun h => h.2⟩
    · obtain ⟨extra, he, -⟩ := ih (acc ++ [e])
      refine ⟨e :: extra, by rw [if_neg hany, he, List.append_assoc, List.singleton_append], ?_⟩
      refine iff_of_false (List.cons_ne_nil e extra) ?_
      intro h
      have hex := h e List.mem_cons_self
      exact hany (by simpa using hex)

theorem foldl_mergeEntries_eq_append (acc : List VfsDirEntry) (ls : List (List VfsDirEntry)) :
    ∃ extra, ls.foldl mergeEntries acc = acc ++ extra ∧
      (extra = [] ↔ ∀ l ∈ ls, ∀ e ∈ l, ∃ a ∈ acc, a.name = e.name) := by
  induction ls generalizing acc with
  | nil => exact ⟨[], by simp, by simp⟩
  | cons l ls ih =>
    obtain ⟨new, hn, hniff⟩ := mergeEntries_eq_append acc l
    obtain ⟨extra, he, heiff⟩ := ih (acc ++ new)
    refine ⟨new ++ extra, by rw [List.foldl_cons, hn, he, List.append_assoc], ?_⟩
    rw [List.append_eq_nil_iff, hniff, List.forall_mem_cons]
    constructor
    · rintro ⟨hl, rfl⟩
      rw [hniff.mpr hl, List.append_nil] at heiff
      exact ⟨hl, heiff.mp rfl⟩
    · rintro ⟨hl, hls⟩
      rw [hniff.mpr hl, List.append_nil] at heiff
      exact ⟨hl, heiff.mpr hls⟩

theorem mergeEntries_nil {l : List VfsDirEntry} (h : (l.map (·.name)).Nodup) :
    mergeEntries [] l = l := by
  have hgen (acc layer : List VfsDirEntry) (hn : ((acc ++ layer).map (·.name)).Nodup) :
      mergeEntries acc layer = acc ++ layer := by
    unfold mergeEntries
    induction layer generalizing acc with
    | nil => simp
    | cons e layer ih =>
      have hnot : ¬ acc.any (fun a => a.name = e.name) = true := by
        intro hany
        obtain ⟨a, ha, hae⟩ : ∃ a ∈ acc, a.name = e.name := by simpa using hany
        rw [List.map_append, List.nodup_append] at hn
        exact hn.2.2 a.name (List.mem_map_of_mem ha) e.name (List.mem_map_of_mem
          List.mem_cons_self) hae
      rw [List.foldl_cons, if_neg hnot, ih (acc ++ [e]) (by simpa using hn)]
      simp
  exact hgen [] l h

variable {ι : Type} [DecidableEq ι] {o : OverlayFS (MemoryRef ι)} {w : World ι}

/-- Nothing lies below `p` in any layer that the visible layer does not hold too. -/
def ListsAlone (o : OverlayFS (MemoryRef ι)) (w : World ι) (p : PathBuf) : Prop :=
  ∀ g ∈ o.layers, ∀ x, (w.fs g.index).objectAt (p ++ [x]) ≠ none →
    (o.visibleFs w p).objectAt (p ++ [x]) ≠ none

theorem memory_readDir_names (hw : w.WF) (g : MemoryRef ι) (p : PathBuf) :
    (∀ l, LowLevelFS.readDir g w p.toAbs = some l →
        (l.map (·.name)).Nodup ∧ (∀ e ∈ l, ∃ x : FileName, e.name = x.bytes) ∧
          ∀ x : FileName, (∃ e ∈ l, e.name = x.bytes) ↔
            (w.fs g.index).objectAt (p ++ [x]) ≠ none) ∧
      ∀ x, (w.fs g.index).objectAt (p ++ [x]) ≠ none →
        ∃ l, LowLevelFS.readDir g w p.toAbs = some l := by
  have hinj : Function.Injective FileName.bytes := fun a b h => FileName.ext h
  have hwf := hw.fs g.index
  have hobj (x : FileName) : (w.fs g.index).objectAt (p ++ [x]) ≠ none ↔
      ∃ d, (w.fs g.index).resolveNames p = some d ∧ x ∈ (w.fs g.index).namesIn d := by
    rw [ne_eq, objectAt_eq_none_iff, hwf.resolveNames_concat]
    cases (w.fs g.index).resolveNames p <;> simp [mem_namesIn, Option.eq_none_iff_forall_ne_some]
  rw [World.memory_readDir_eq]
  constructor
  · intro l hl
    obtain ⟨d, hd, hl⟩ := Option.bind_eq_some_iff.mp hl
    have hdir : (w.fs g.index).isDir d = true := by
      by_contra hfile
      rw [hwf.readNodeDir_file (Bool.eq_false_iff.mpr hfile)] at hl
      cases hl
    obtain ⟨l', hl', hnames⟩ := hwf.readNodeDir_names hdir
    cases hl.symm.trans hl'
    have hmem (b : List UInt8) : (∃ e ∈ l, e.name = b) ↔
        ∃ x ∈ (w.fs g.index).namesIn d, x.bytes = b := by
      rw [← List.mem_map, hnames, List.mem_map]
    refine ⟨?_, ?_, ?_⟩
    · rw [hnames]
      exact ((w.fs g.index).namesIn_nodup d).map hinj
    · intro e he
      obtain ⟨x, -, hx⟩ := (hmem e.name).mp ⟨e, he, rfl⟩
      exact ⟨x, hx.symm⟩
    · intro x
      rw [hmem, hobj]
      constructor
      · rintro ⟨y, hy, hyx⟩
        exact ⟨d, hd, hinj hyx ▸ hy⟩
      · rintro ⟨d', hd', hx⟩
        cases hd.symm.trans hd'
        exact ⟨x, hx, rfl⟩
  · intro x hx
    obtain ⟨d, hd, hxd⟩ := (hobj x).mp hx
    obtain ⟨c, hc⟩ := mem_namesIn.mp hxd
    obtain ⟨l, hl, -⟩ := hwf.readNodeDir_names (entryAt_isDir hc)
    exact ⟨l, by rw [hd]; exact hl⟩

/-- The merged listing starts with that of the visible layer, and ends there when no
other layer adds a name. -/
theorem readDir_eq_append (hw : w.WF) {p : PathBuf} {l : List VfsDirEntry}
    (hl : LowLevelFS.readDir (o.visibleLayer w p.toAbs) w p.toAbs = some l) :
    ∃ extra, LowLevelFS.readDir o w p.toAbs = some (l ++ extra) ∧
      (extra = [] ↔ o.ListsAlone w p) := by
  have hvis : LayeredNames.lookup (o.objects w) p ≠ none := by
    rw [← visibleObject_eq_lookup]
    intro hnone
    have hr := objectAt_eq_none_iff.mp hnone
    rw [World.memory_readDir_eq] at hl
    obtain ⟨d, hd, -⟩ := Option.bind_eq_some_iff.mp hl
    rw [show (w.fs (o.visibleLayer w p.toAbs).index).resolveNames p = none from hr] at hd
    cases hd
  obtain ⟨above, below, hlayers, habove, -⟩ := visibleLayer_split hvis
  have hnone : ∀ g ∈ above, LowLevelFS.readDir g w p.toAbs = none := by
    intro g hg
    rw [World.memory_readDir_eq, objectAt_eq_none_iff.mp (habove g hg)]
    rfl
  have hfilter : above.filterMap (LowLevelFS.readDir · w p.toAbs) = [] := by
    rw [List.filterMap_eq_nil_iff]
    exact hnone
  obtain ⟨hnodup, -, hin⟩ := (memory_readDir_names hw _ p).1 l hl
  obtain ⟨extra, he, hiff⟩ := foldl_mergeEntries_eq_append l
    (below.filterMap (LowLevelFS.readDir · w p.toAbs))
  refine ⟨extra, ?_, ?_⟩
  · show o.readLayers w p.toAbs = some (l ++ extra)
    unfold readLayers
    rw [hlayers, List.filterMap_append, hfilter, List.nil_append, List.filterMap_cons, hl]
    dsimp only
    rw [List.foldl_cons, mergeEntries_nil hnodup, he]
  · rw [hiff]
    constructor
    · intro h g hg x hx
      rw [hlayers, List.mem_append, List.mem_cons] at hg
      rcases hg with hg | rfl | hg
      · exact absurd ((hw.fs g.index).objectAt_prefixClosed p [x] (habove g hg)) hx
      · exact hx
      · obtain ⟨lg, hlg⟩ := (memory_readDir_names hw g p).2 x hx
        obtain ⟨e, he, hex⟩ := (((memory_readDir_names hw g p).1 lg hlg).2.2 x).mpr hx
        obtain ⟨a, ha, hae⟩ := h lg (List.mem_filterMap.mpr ⟨g, hg, hlg⟩) e he
        exact (hin x).mp ⟨a, ha, hae.trans hex⟩
    · intro h lg hlg e he
      obtain ⟨g, hg, hlg⟩ := List.mem_filterMap.mp hlg
      obtain ⟨-, hnames, hing⟩ := (memory_readDir_names hw g p).1 lg hlg
      obtain ⟨x, hx⟩ := hnames e he
      have hgl : g ∈ o.layers := by
        rw [hlayers]
        exact List.mem_append_right above (List.mem_cons_of_mem _ hg)
      obtain ⟨a, ha, hax⟩ := (hin x).mpr (h g hgl x ((hing x).mp ⟨e, he, hx⟩))
      exact ⟨a, ha, hax.trans hx.symm⟩

end OverlayFS

variable {ι : Type} [DecidableEq ι] {w : World ι}

namespace Backend

def showing (b : Backend ι) (w : World ι) (path : AbsPath) : MemoryRef ι :=
  match b with
  | .memory f => f
  | .overlay o => o.visibleLayer w path

def ListsAlone (b : Backend ι) (w : World ι) (p : PathBuf) : Prop :=
  match b with
  | .memory _ => True
  | .overlay o => o.ListsAlone w p

theorem openWithHandle_read (b : Backend ι) (w : World ι) (path : AbsPath) {flags : Flags}
    (hro : OverlayFS.writes flags = false) (mode : Mode) :
    LowLevelFS.openWithHandle b w path flags mode =
      LowLevelFS.openWithHandle (b.showing w path) w path flags mode := by
  cases b with
  | memory f => rfl
  | overlay o => exact if_neg (by rw [hro]; decide)

theorem readDir_of_fs (b : Backend ι) (path : AbsPath) {w' : World ι} (h : w'.fs = w.fs) :
    LowLevelFS.readDir b w' path = LowLevelFS.readDir b w path := by
  cases w
  cases w'
  cases h
  cases b <;> rfl

theorem readDir_eq_append (hw : w.WF) (b : Backend ι) {p : PathBuf} {l : List VfsDirEntry}
    (hl : LowLevelFS.readDir (b.showing w p.toAbs) w p.toAbs = some l) :
    ∃ extra, LowLevelFS.readDir b w p.toAbs = some (l ++ extra) ∧
      (extra = [] ↔ b.ListsAlone w p) := by
  cases b with
  | memory f => exact ⟨[], by rw [List.append_nil]; exact hl, iff_of_true rfl trivial⟩
  | overlay o => exact OverlayFS.readDir_eq_append hw hl

end Backend

theorem World.memory_open_read (hw : w.WF) (f : MemoryRef ι) (p : PathBuf) {flags : Flags}
    (hro : OverlayFS.writes flags = false) (mode : Mode) :
    (LowLevelFS.openWithHandle f w p.toAbs flags mode).2.fs = w.fs ∧
      ∀ h, (LowLevelFS.openWithHandle f w p.toAbs flags mode).1.opened = some h →
        h.nodes = f ∧ (w.fs f.index).resolveNames p = some h.node := by
  have hcreat : ¬ flags.has O_CREAT = true := fun h => by
    have hwr : OverlayFS.writes flags = true := Flags.has_of_has_part (by decide) h
    rw [hro] at hwr
    cases hwr
  have hd : LowLevelFS.openWithHandle f w p.toAbs flags mode =
      (openedFile f (openNode (w.state f) p.toAbs flags mode).1,
        w.put f (openNode (w.state f) p.toAbs flags mode).2) := rfl
  have hput (sys : Sys) : (w.put f ⟨w.fs f.index, sys⟩).fs = w.fs := by rw [put_self]
  rw [hd, openNode_eq]
  rcases openAt_cases (m := w.state f) (hw.fs f.index) _ _ flags mode with
    ⟨sys', he, -⟩ | ⟨node, hn, he⟩ | ⟨m', d, x, n, -, hc, -⟩
  · rw [he]
    exact ⟨hput sys', by simp [openedFile]⟩
  · obtain ⟨sys', he', -, ho, -⟩ := openFound_cases (w.state f) node flags
    rw [he, he']
    refine ⟨hput sys', ?_⟩
    intro h hh
    simp only [openedFile, ho] at hh
    split_ifs at hh
    · cases hh
      refine ⟨rfl, ?_⟩
      rw [← resolve_toAbs]
      exact hn
    · simp at hh
  · exact absurd hc hcreat

/-- What a reader learns of a file from its record: its name, its kind and its inode. -/
def Dirent.facts (r : Dirent) : List UInt8 × Option VfsEntryKind × Nat :=
  (r.dName, kindOfType r.dType, r.dIno)

def VfsDirEntry.facts (inodeForPath : List (List UInt8) → Nat) (parentPath : PathBuf)
    (e : VfsDirEntry) : List UInt8 × Option VfsEntryKind × Nat :=
  (e.name, some e.kind, e.ino.getD (inodeForPath (entryPath parentPath e.name)))

theorem dirent_facts (inodeForPath : List (List UInt8) → Nat) (parentPath : PathBuf)
    (e : VfsDirEntry) (offset : Nat) :
    (dirent inodeForPath parentPath e offset).facts = e.facts inodeForPath parentPath := by
  simp [Dirent.facts, VfsDirEntry.facts, dirent]

namespace Vfs

variable {v v' : Vfs ι} {fd : Int} {f : MemoryRef ι} {n : NodeId}

theorem Scanning.scan_facts (h : Scanning fd f n v) (h0 : offsetOf fd v = 0)
    (calls : List (Bool × Int))
    (hend : ∃ dirpIsNull count rs,
      (v.run (calls.map fun c => .getdents64 fd c.1 c.2)).answer fd dirpIsNull count =
        some (0, rs)) {info : FdInfo (MemoryOpenedFile ι)} (hi : v.fds[fd]? = some info)
    {l : List VfsDirEntry} (hl : (v.world.fs f.index).readNodeDir n = some l) :
    (scan fd v (calls.map fun c => .getdents64 fd c.1 c.2)).map Dirent.facts =
      (dotEntries ++ l).map (VfsDirEntry.facts v.inodeForPath info.path) := by
  set items := (dotEntries ++ l).map (VfsDirEntry.facts v.inodeForPath info.path) with hitems
  have hcalls : ∀ op ∈ calls.map fun c => VfsOp.getdents64 fd c.1 c.2,
      ∃ dirpIsNull count, op = .getdents64 fd dirpIsNull count := by
    intro op hop
    obtain ⟨c, -, rfl⟩ := List.mem_map.mp hop
    exact ⟨c.1, c.2, rfl⟩
  -- the calls move only the offset
  let Inv : Vfs ι → Prop := fun u => Scanning fd f n u ∧ u.world = v.world ∧
    u.inodeForPath = v.inodeForPath ∧ ∃ i, u.fds[fd]? = some i ∧ i.path = info.path
  have hstep (u : Vfs ι) (op : VfsOp) (hu : Inv u)
      (hop : ∃ dirpIsNull count, op = .getdents64 fd dirpIsNull count) :
      Inv (u.step op) ∧ ∃ k, items = items ∧ offsetOf fd (u.step op) = offsetOf fd u + k ∧
        (u.recordsFor fd op).map Dirent.facts = (items.drop (offsetOf fd u)).take k := by
    obtain ⟨hs, hw, hino, i, hi', hpath⟩ := hu
    obtain ⟨dirpIsNull, count, rfl⟩ := hop
    obtain ⟨i', l', k, hi'', -, hl', hnew, hw', hino', hmap⟩ := hs.read_entries dirpIsNull count
    cases hi'.symm.trans hi''
    rw [hw] at hl'
    cases hl.symm.trans hl'
    refine ⟨⟨hs.kept trivial, hw'.trans hw, hino'.trans hino, _, hnew, hpath⟩, k, rfl, ?_, ?_⟩
    · simp [offsetOf, hi', hnew]
    · have hoff : offsetOf fd u = i.dirOffset := by simp [offsetOf, hi']
      rw [hoff, hitems, ← hino, ← hpath]
      exact hmap fun e offset => dirent_facts _ _ e offset
  have hinv : Inv v := ⟨h, rfl, rfl, info, hi, rfl⟩
  have hall : Runs.EveryStep step
      (fun _ op => ∃ dirpIsNull count, op = .getdents64 fd dirpIsNull count) v
      (calls.map fun c => .getdents64 fd c.1 c.2) := .of_forall_mem hcalls
  have hfinal : Inv (v.run (calls.map fun c => .getdents64 fd c.1 c.2)) :=
    hall.inv Inv (fun u op hu hop => (hstep u op hu hop).1) hinv
  obtain ⟨dirpIsNull, count, rs, hr⟩ := hend
  have hlast := hfinal.1.read_zero hr
  obtain ⟨l', hl', hnames⟩ := (h.wf.world.fs f.index).readNodeDir_names h.dir
  cases hl.symm.trans hl'
  have hlen : items.length ≤ offsetOf fd (v.run (calls.map fun c => .getdents64 fd c.1 c.2)) := by
    have hcount := congrArg List.length hnames
    simp only [List.length_map] at hcount
    rw [hfinal.2.1] at hlast
    simp only [World.listed, List.length_cons, List.length_map] at hlast
    simp only [hitems, List.length_map, List.length_append, dotEntries, List.length_cons,
      List.length_nil]
    omega
  have hout := Scans.take_append_outputs (fun _ => items) (hall.imp Inv hstep hinv)
  rw [h0, List.take_zero, List.nil_append] at hout
  rw [scan_map, hout]
  exact List.take_of_length_le hlen

/-- The two listings of a directory opened for reading agree if and only if the layer
that answered the open holds all names that the overlay shows there. -/
theorem listings_agree_iff (hv : v.WF) (path : Path) {flags : Flags}
    (hro : OverlayFS.writes flags = false) (mode : Mode)
    (ho : v.openPath path flags mode = (fd, v')) (hfd : 0 ≤ fd)
    (hh : v'.handleOf fd = some ⟨f, n⟩) (hdir : (v'.world.fs f.index).isDir n = true)
    (calls : List (Bool × Int))
    (hend : ∃ dirpIsNull count rs,
      (v'.run (calls.map fun c => .getdents64 fd c.1 c.2)).answer fd dirpIsNull count =
        some (0, rs)) :
    (∃ l, v'.readDir path = some l ∧
        (scan fd v' (calls.map fun c => .getdents64 fd c.1 c.2)).map Dirent.facts =
          (dotEntries ++ l).map (VfsDirEntry.facts v'.inodeForPath (v.resolvePath path))) ↔
      (v.fsAt (v.absolutePathToFs (v.resolvePath path)).1).ListsAlone v.world
        (v.absolutePathToFs (v.resolvePath path)).2 := by
  have hstep := step_spec hv (.openPath path flags mode)
  have hv' : v.step (.openPath path flags mode) = v' := congrArg Prod.snd ho
  rw [hv'] at hstep
  set b := v.fsAt (v.absolutePathToFs (v.resolvePath path)).1 with hb
  set p := (v.absolutePathToFs (v.resolvePath path)).2 with hp
  set r := LowLevelFS.openWithHandle b v.world p.toAbs flags mode with hr
  have htrack : (v.setWorld r.2).trackOpen r.1 (v.resolvePath path) = (fd, v') := ho
  have hrfd : r.1.fd = fd := by
    rw [← RootVFS.trackOpen_fst, htrack]
  have hworld : v'.world = r.2 := by
    have hw := (v.setWorld r.2).trackOpen_world r.1 (v.resolvePath path)
    rwa [htrack] at hw
  have hi : v'.fds[fd]? = some ⟨v.resolvePath path, 0, r.1.opened⟩ := by
    have ht := (v.setWorld r.2).trackOpen_getElem? r.1 (v.resolvePath path) fd
    rwa [htrack, if_pos ⟨hrfd ▸ hfd, hrfd.symm⟩] at ht
  have hopened : r.1.opened = some ⟨f, n⟩ := by
    obtain ⟨-, info, hi', hio⟩ := RootVFS.handleOf_eq_some hh
    cases hi.symm.trans hi'
    exact hio
  -- the open found the node in the layer that shows the path
  have hread := Backend.openWithHandle_read b v.world p.toAbs hro mode
  obtain ⟨hfs, hfound⟩ := World.memory_open_read hv.world (b.showing v.world p.toAbs) p hro mode
  rw [← hread, ← hr] at hfs hfound
  obtain ⟨hf, hn⟩ := hfound ⟨f, n⟩ hopened
  have hf' : f = b.showing v.world p.toAbs := hf
  have hfs' : v'.world.fs = v.world.fs := by rw [hworld, hfs]
  rw [hfs'] at hdir
  obtain ⟨l, hl, -⟩ := (hv.world.fs f.index).readNodeDir_names hdir
  have hscanning : Scanning fd f n v' := by
    refine ⟨hstep.wf hv, ?_, ⟨_, hi, hopened⟩, by rw [hfs']; exact hdir⟩
    have hok := (Backend.openWithHandle_spec hv.world b p.toAbs flags mode).2.fresh
    rw [hworld, ← hrfd]
    exact (hok (hrfd ▸ hfd)).2
  have hoff : offsetOf fd v' = 0 := by simp [offsetOf, hi]
  have hscan := hscanning.scan_facts hoff calls hend hi (by rw [hfs']; exact hl)
  -- and the path still leads to the same places
  have hlist : v'.readDir path = LowLevelFS.readDir b v.world p.toAbs := by
    obtain ⟨fds, hfds⟩ : ∃ fds, v' = { v.setWorld r.2 with fds } := by
      have hv'' : ((v.setWorld r.2).trackOpen r.1 (v.resolvePath path)).2 = v' :=
        congrArg Prod.snd htrack
      unfold RootVFS.trackOpen at hv''
      split_ifs at hv''
      · exact ⟨_, hv''.symm⟩
      · exact ⟨_, hv''.symm⟩
    rw [hfds]
    exact Backend.readDir_of_fs b p.toAbs hfs
  have hshow : LowLevelFS.readDir (b.showing v.world p.toAbs) v.world p.toAbs = some l := by
    rw [World.memory_readDir_eq, hn, ← hf']
    exact hl
  obtain ⟨extra, he, hiff⟩ := Backend.readDir_eq_append hv.world b hshow
  rw [hscan, hlist, he, ← hiff]
  constructor
  · rintro ⟨l', hl', heq⟩
    cases hl'
    have hlen := congrArg List.length heq
    simp only [List.length_map, List.length_append] at hlen
    exact List.length_eq_zero_iff.mp (by omega)
  · rintro rfl
    exact ⟨l, by rw [List.append_nil], rfl⟩

def holdsA : Vfs Unit :=
  (newMemory (fun _ => 0) .boot).run [.openPath (.abs (PathBuf.toAbs [.a])) O_CREAT 0o644]

theorem listings_agree_holdsA :
    ∃ l, (holdsA.openPath (.abs (PathBuf.toAbs [])) 0 0).2.readDir (.abs (PathBuf.toAbs [])) = some l ∧
      (scan 6 (holdsA.openPath (.abs (PathBuf.toAbs [])) 0 0).2 [.getdents64 6 false 1000]).map
          Dirent.facts =
        (dotEntries ++ l).map (VfsDirEntry.facts (fun _ => 0) []) := by
  have hmem : holdsA.fsAt (holdsA.absolutePathToFs (holdsA.resolvePath
      (.abs (PathBuf.toAbs [])))).1 = .memory ⟨()⟩ := by decide +kernel
  have hwf : holdsA.WF := run_wf (newMemory_wf _ _) _
  have ho : holdsA.openPath (.abs (PathBuf.toAbs [])) 0 0 =
      (6, (holdsA.openPath (.abs (PathBuf.toAbs [])) 0 0).2) := Prod.ext (by decide +kernel) rfl
  have hh : (holdsA.openPath (.abs (PathBuf.toAbs [])) 0 0).2.handleOf 6 = some ⟨⟨()⟩, 1⟩ := by
    decide +kernel
  refine (listings_agree_iff hwf (.abs (PathBuf.toAbs [])) (by decide) 0 ho (by decide) hh
    (by decide +kernel) [(false, 1000)] ⟨false, 1000, [], by decide +kernel⟩).mpr ?_
  rw [hmem]
  trivial

/-- `/a` is in the base only: `read_dir` shows it, `getdents64` does not. -/
def openedRoot : Int × Vfs (Fin 2) :=
  RootVFS.openPath (RootVFS.new (.overlay OverlayFS.twoLayers) (fun _ => 0) OverlayFS.baseOnly)
    (.abs (PathBuf.toAbs [])) 0 0

theorem listings_differ :
    0 ≤ openedRoot.1 ∧ openedRoot.2.handleOf openedRoot.1 = some ⟨⟨0⟩, 1⟩ ∧
      openedRoot.2.readDir (.abs (PathBuf.toAbs [])) = some [⟨FileName.a.bytes, .file, some 3⟩] ∧
      (scan openedRoot.1 openedRoot.2 [.getdents64 openedRoot.1 false 1000]).map (·.dName) =
        [dotName, dotDotName] ∧
      (openedRoot.2.run [.getdents64 openedRoot.1 false 1000]).answer openedRoot.1 false 1000 =
        some (0, []) := by
  refine ⟨?_, ?_, ?_, ?_, ?_⟩ <;> decide +kernel

end Vfs

end SandboxVfs
