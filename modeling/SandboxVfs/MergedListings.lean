import SandboxVfs.HostPaths
import SandboxVfs.Mounts
import SandboxVfs.OverlayListings
import SandboxVfs.OverlayTree

/-! The merged listing of an overlay, name by name: what it shows under a name is what the
first layer that lists the name shows. -/

namespace SandboxVfs

open MemoryFS LayeredNames

namespace OverlayFS

def entryNamed (b : List UInt8) (es : List VfsDirEntry) : Option VfsDirEntry :=
  es.find? (·.name = b)

theorem entryNamed_eq_none_iff {b : List UInt8} {es : List VfsDirEntry} :
    entryNamed b es = none ↔ ¬ ∃ e ∈ es, e.name = b := by
  simp [entryNamed]

theorem entryNamed_append (b : List UInt8) (es es' : List VfsDirEntry) :
    entryNamed b (es ++ es') = (entryNamed b es).or (entryNamed b es') := List.find?_append

theorem entryNamed_cons (b : List UInt8) (e : VfsDirEntry) (es : List VfsDirEntry) :
    entryNamed b (e :: es) = (entryNamed b [e]).or (entryNamed b es) := entryNamed_append b [e] es

theorem entryNamed_mergeEntries (b : List UInt8) (acc layer : List VfsDirEntry) :
    entryNamed b (mergeEntries acc layer) = (entryNamed b acc).or (entryNamed b layer) := by
  unfold mergeEntries
  induction layer generalizing acc with
  | nil => simp [entryNamed]
  | cons e layer ih =>
    rw [List.foldl_cons, ih, entryNamed_cons b e layer]
    split_ifs with hany
    · by_cases hb : e.name = b
      · -- the name is taken, so the entry of `acc` stays in front
        have hsome : entryNamed b acc ≠ none := by
          rw [ne_eq, entryNamed_eq_none_iff, not_not, ← hb]
          simpa using hany
        obtain ⟨a, ha⟩ := Option.ne_none_iff_exists'.mp hsome
        simp [ha]
      · have hnone : entryNamed b [e] = none := by simp [entryNamed, hb]
        rw [hnone, Option.none_or]
    · rw [entryNamed_append, Option.or_assoc]

theorem mergeEntries_nodup {acc : List VfsDirEntry} (layer : List VfsDirEntry)
    (h : (acc.map (·.name)).Nodup) : ((mergeEntries acc layer).map (·.name)).Nodup := by
  unfold mergeEntries
  induction layer generalizing acc with
  | nil => exact h
  | cons e layer ih =>
    rw [List.foldl_cons]
    split_ifs with hany
    · exact ih h
    · apply ih
      rw [List.map_append]
      refine List.nodup_append.mpr ⟨h, List.nodup_singleton _, ?_⟩
      intro b hb c hc hbc
      obtain ⟨a, ha, rfl⟩ := List.mem_map.mp hb
      have hc' : c = e.name := List.mem_singleton.mp hc
      exact hany (List.any_eq_true.mpr ⟨a, ha, by simpa using hbc.trans hc'⟩)

theorem foldl_mergeEntries (b : List UInt8) (acc : List VfsDirEntry) (ls : List (List VfsDirEntry))
    (h : (acc.map (·.name)).Nodup) :
    ((ls.foldl mergeEntries acc).map (·.name)).Nodup ∧
      entryNamed b (ls.foldl mergeEntries acc) =
        (entryNamed b acc).or (ls.findSome? (entryNamed b)) := by
  induction ls generalizing acc with
  | nil => exact ⟨h, by simp⟩
  | cons l ls ih =>
    obtain ⟨hn, he⟩ := ih (mergeEntries acc l) (mergeEntries_nodup l h)
    refine ⟨hn, ?_⟩
    rw [List.foldl_cons, he, entryNamed_mergeEntries, Option.or_assoc, List.findSome?_cons]
    cases entryNamed b l <;> rfl

theorem filter_of_entryNamed {b : List UInt8} {es : List VfsDirEntry} {e : VfsDirEntry}
    (hn : (es.map (·.name)).Nodup) (he : entryNamed b es = some e) :
    es.filter (·.name = b) = [e] := by
  induction es with
  | nil => cases he
  | cons a es ih =>
    rw [List.map_cons, List.nodup_cons] at hn
    by_cases ha : a.name = b
    · have hae : a = e := by simpa [entryNamed, ha] using he
      have hrest : es.filter (·.name = b) = [] := by
        rw [List.filter_eq_nil_iff]
        intro c hc hcb
        have hcb' : c.name = b := by simpa using hcb
        exact hn.1 (by rw [ha, ← hcb']; exact List.mem_map_of_mem hc)
      rw [List.filter_cons_of_pos (by simpa using ha), hrest, hae]
    · rw [List.filter_cons_of_neg (by simpa using ha)]
      exact ih hn.2 (by simpa [entryNamed, ha] using he)

theorem findSome?_filterMap {α β γ : Type*} (f : α → Option β) (g : β → Option γ) (l : List α) :
    (l.filterMap f).findSome? g = l.findSome? fun a => (f a).bind g := by
  induction l with
  | nil => rfl
  | cons a l ih => cases h : f a <;> simp [h, ih, List.findSome?_cons]

section

variable {F H W : Type} [LowLevelFS F H W] (o : OverlayFS F) (w : W) (path : AbsPath)

/-- A path is found when some layer finds it. -/
theorem access_eq_zero_iff :
    LowLevelFS.access o w path F_OK = 0 ↔ ∃ f ∈ o.layers, LowLevelFS.access f w path F_OK = 0 := by
  constructor
  · intro h
    exact ⟨_, o.visibleLayer_mem w path, h⟩
  · rintro ⟨f, hf, h⟩
    show LowLevelFS.access (o.visibleLayer w path) w path F_OK = 0
    unfold visibleLayer
    split_ifs with htop
    · exact htop
    · simp only [layers, List.mem_cons, List.mem_append, Option.mem_toList, List.not_mem_nil,
        or_false] at hf
      cases hm : o.middle with
      | none =>
        rcases hf with rfl | hf | rfl
        · exact absurd h htop
        · rw [hm] at hf
          cases hf
        · exact h
      | some m =>
        dsimp only
        split_ifs with hmid
        · exact hmid
        · rcases hf with rfl | hf | rfl
          · exact absurd h htop
          · rw [hm] at hf
            cases hf
            exact absurd h hmid
          · exact h

/-- The listing is `none` when that of every layer is. Otherwise it has each name once, with
the entry of the first layer that lists the name. -/
theorem readDir_first :
    (LowLevelFS.readDir o w path = none ↔ ∀ f ∈ o.layers, LowLevelFS.readDir f w path = none) ∧
      ∀ es, LowLevelFS.readDir o w path = some es →
        (es.map (·.name)).Nodup ∧ ∀ b, entryNamed b es =
          o.layers.findSome? fun f => (LowLevelFS.readDir f w path).bind (entryNamed b) := by
  have hd : LowLevelFS.readDir o w path = o.readLayers w path := rfl
  have hnil := List.filterMap_eq_nil_iff (f := fun f => LowLevelFS.readDir f w path) (l := o.layers)
  rw [hd, readLayers]
  cases hl : o.layers.filterMap (LowLevelFS.readDir · w path) with
  | nil => exact ⟨iff_of_true rfl (hnil.mp hl), fun es hes => by cases hes⟩
  | cons l ls =>
    constructor
    · refine iff_of_false (Option.some_ne_none _) fun hall => ?_
      rw [hnil.mpr hall] at hl
      cases hl
    · intro es hes
      cases hes
      have hfold (b : List UInt8) := foldl_mergeEntries b [] (l :: ls) List.nodup_nil
      refine ⟨(hfold []).1, fun b => ?_⟩
      rw [(hfold b).2, ← hl, findSome?_filterMap]
      rfl

end

end OverlayFS

theorem MemoryFS.WF.readNodeDir_entryNamed {fs : MemoryFS} {next : NodeId} (h : fs.WF next)
    (d : NodeId) (x : FileName) :
    (fs.readNodeDir d).bind (OverlayFS.entryNamed x.bytes) =
      (fs.entryAt d x).map fun c => fs.dirEntry (x, c) := by
  rw [h.readNodeDir_eq]
  cases hes : fs.entriesOf d with
  | none => simp [entryAt, hes]
  | some es =>
    rw [entryAt_of_entriesOf hes, Option.map_some, Option.bind_some, OverlayFS.entryNamed,
      List.find?_map]
    cases hf : es.toList.find? ((fun e : VfsDirEntry => decide (e.name = x.bytes)) ∘ fs.dirEntry) with
    | none =>
      cases hx : es[x]? with
      | none => rfl
      | some c =>
        have hmem : (x, c) ∈ es.toList := Std.ExtTreeMap.mem_toList_iff_getElem?_eq_some.mpr hx
        simpa [dirEntry] using List.find?_eq_none.mp hf _ hmem
    | some e =>
      have hfound := List.find?_some hf
      have hname : e.1.bytes = x.bytes := of_decide_eq_true hfound
      have hget := Std.ExtTreeMap.mem_toList_iff_getElem?_eq_some.mp (List.mem_of_find?_eq_some hf)
      have hx : e.1 = x := FileName.ext hname
      rw [hx] at hget
      rw [hget, Option.map_some, Option.map_some, ← hx]

variable {ι : Type} [DecidableEq ι]

def Stat.object (st : Stat) : NodeId × VfsEntryKind := (st.stIno, if st.isDir then .dir else .file)

namespace World

variable {w : World ι}

theorem memory_stat_object (hw : w.WF) (hm : ∀ i, (w.fs i).ModesMasked) (f : MemoryRef ι)
    (q : PathBuf) :
    (LowLevelFS.stat f w q.toAbs).map Stat.object = (w.fs f.index).objectAt q := by
  have hino := memory_stat_ino hw f q
  have hdir := memory_stat_isDir_iff hw hm f q
  cases hst : LowLevelFS.stat f w q.toAbs with
  | none =>
    rw [hst, Option.map_none] at hino
    rw [Option.map_none, objectAt_eq_none_iff.mpr hino.symm]
  | some st =>
    rw [hst, Option.map_some] at hino
    have hkind : st.isDir = (w.fs f.index).isDir st.stIno := by
      rw [Bool.eq_iff_iff]
      constructor
      · intro hd
        obtain ⟨c, hc, hcd⟩ := hdir.mp ⟨st, hst, hd⟩
        cases hino.trans hc
        exact hcd
      · intro hd
        obtain ⟨st', hst', hd'⟩ := hdir.mpr ⟨st.stIno, hino.symm, hd⟩
        cases hst.symm.trans hst'
        exact hd'
    rw [Option.map_some, objectAt, ← hino, Option.map_some, Stat.object, entryKind, hkind]

theorem memory_entryNamed (hw : w.WF) (f : MemoryRef ι) (p : PathBuf) (x : FileName) :
    (LowLevelFS.readDir f w p.toAbs).bind (OverlayFS.entryNamed x.bytes) =
      ((w.fs f.index).objectAt (p ++ [x])).map fun v => ⟨x.bytes, v.2, some v.1⟩ := by
  have hwf := hw.fs f.index
  rw [World.memory_readDir_eq, objectAt, hwf.resolveNames_concat]
  cases (w.fs f.index).resolveNames p with
  | none => rfl
  | some d =>
    rw [Option.bind_some, Option.bind_some, hwf.readNodeDir_entryNamed, Option.map_map]
    rfl

end World

namespace OverlayFS

variable {o : OverlayFS (MemoryRef ι)} {w : World ι}

/-- The listing of `d` and the lookups of the paths below it say the same. -/
structure ListsLookups (o : OverlayFS (MemoryRef ι)) (w : World ι) (d : PathBuf) : Prop where
  none_iff : LowLevelFS.readDir o w d.toAbs = none ↔
    ∀ f ∈ o.layers, ¬ ∃ st, LowLevelFS.stat f w d.toAbs = some st ∧ st.isDir = true
  names : ∀ es, LowLevelFS.readDir o w d.toAbs = some es → ∀ x : FileName,
    (∃ e ∈ es, e.name = x.bytes) ↔ (LowLevelFS.stat o w (PathBuf.toAbs (d ++ [x]))).isSome = true
  entry : ∀ es, LowLevelFS.readDir o w d.toAbs = some es → ∀ (x : FileName) (st : Stat),
    LowLevelFS.stat o w (PathBuf.toAbs (d ++ [x])) = some st →
      es.filter (·.name = x.bytes) = [⟨x.bytes, st.object.2, some st.object.1⟩]

theorem entryNamed_readDir (hw : w.WF) {d : PathBuf} {es : List VfsDirEntry}
    (hes : LowLevelFS.readDir o w d.toAbs = some es) (x : FileName) :
    entryNamed x.bytes es =
      (lookup (o.objects w) (d ++ [x])).map fun v => ⟨x.bytes, v.2, some v.1⟩ := by
  rw [((o.readDir_first w d.toAbs).2 es hes).2, lookup, objects, List.findSome?_map,
    List.map_findSome?]
  congr 1
  funext f
  exact World.memory_entryNamed hw f d x

theorem listsLookups (hw : w.WF) (hm : ∀ i, (w.fs i).ModesMasked) (o : OverlayFS (MemoryRef ι))
    (d : PathBuf) : o.ListsLookups w d := by
  have hstat (q : PathBuf) : (LowLevelFS.stat o w q.toAbs).map Stat.object =
      lookup (o.objects w) q := by
    rw [← visibleObject_eq_lookup]
    exact World.memory_stat_object hw hm (o.visibleLayer w q.toAbs) q
  refine ⟨?_, ?_, ?_⟩
  · rw [(o.readDir_first w d.toAbs).1]
    refine forall_congr' fun f => forall_congr' fun _ => ?_
    rw [World.memory_stat_isDir_iff hw hm, ← World.memory_readDir_isSome_iff hw f d,
      Option.not_isSome_iff_eq_none]
  · intro es hes x
    have hentry := entryNamed_readDir hw hes x
    rw [← hstat] at hentry
    rw [← not_iff_not, ← entryNamed_eq_none_iff, hentry, Option.not_isSome_iff_eq_none]
    simp
  · intro es hes x st hst
    have hentry := entryNamed_readDir hw hes x
    rw [← hstat, hst] at hentry
    exact filter_of_entryNamed ((o.readDir_first w d.toAbs).2 es hes).1 hentry

/-- In every state of a run, for every overlay of its file systems, what is listed in a
directory is what is found below it. -/
theorem run_listsLookups {v : Vfs ι} (hv : v.WF) (hm : ∀ i, (v.world.fs i).ModesMasked)
    (ops : List VfsOp) (o : OverlayFS (MemoryRef ι)) (d : PathBuf) :
    o.ListsLookups (v.run ops).world d :=
  listsLookups (Vfs.run_wf hv ops).world (Vfs.run_modesMasked hv hm ops) o d

/-- The base has `/d` and the top a file there; below it `/d/a` of the base is in sight. -/
def coveredD : List VfsOp :=
  [.mkdir (.abs (PathBuf.toAbs [.m, .d])) 0o755, .mkdir (.abs (PathBuf.toAbs [.m, .d, .a])) 0o755,
    .openPath (.abs (PathBuf.toAbs [.d])) O_CREAT 0o644]

theorem coveredD_listsLookups :
    twoLayers.ListsLookups ((Vfs.mountedAt [.m]).run coveredD).world [.d] :=
  run_listsLookups (Vfs.mountedAt_memoryBacked [.m]).wf (Vfs.mountedAt_memoryBacked [.m]).masked
    coveredD twoLayers [.d]

end OverlayFS

namespace OverlayFS

variable {S : Type} {o : OverlayFS (PlainFS ι S)} {w : HostWorld ι S} {d : PathBuf}

/-- A listing, if there is one, has every name of `N` that is accessible in the directory. `N`
is any set of names, such as that of those which a C string can carry. -/
def ListsAll (o : OverlayFS (PlainFS ι S)) (w : HostWorld ι S) (N : Set FileName) (d : PathBuf) :
    Prop :=
  ∀ es, LowLevelFS.readDir o w d.toAbs = some es → ∀ x ∈ N,
    LowLevelFS.access o w (PathBuf.toAbs (d ++ [x])) F_OK = 0 → ∃ e ∈ es, e.name = x.bytes

/-- A `MemoryFS` of the overlay has a directory at `d`. -/
def SomeMemoryDir (o : OverlayFS (PlainFS ι S)) (w : HostWorld ι S) (d : PathBuf) : Prop :=
  ∃ f, PlainFS.memory f ∈ o.layers ∧ ∃ n, (w.memory.fs f.index).resolveNames d = some n ∧
    (w.memory.fs f.index).isDir n = true

/-- What a `BindFS` of the overlay has in `d`, a `MemoryFS` of it has as well. -/
def BindsCovered (o : OverlayFS (PlainFS ι S)) (w : HostWorld ι S) (N : Set FileName)
    (d : PathBuf) : Prop :=
  ∀ b, PlainFS.bind b ∈ o.layers → ∀ x ∈ N,
    w.libc.access w.host (cString (b.translateCPath (PathBuf.toAbs (d ++ [x])))) F_OK = 0 →
      ∃ f, PlainFS.memory f ∈ o.layers ∧
        ((w.memory.fs f.index).resolveNames (d ++ [x])).isSome = true

theorem readDir_isSome_iff (hw : w.memory.WF) :
    (LowLevelFS.readDir o w d.toAbs).isSome = true ↔ o.SomeMemoryDir w d := by
  have hmemory (f : MemoryRef ι) :
      (LowLevelFS.readDir (PlainFS.memory f : PlainFS ι S) w d.toAbs).isSome =
      true ↔ ∃ n, (w.memory.fs f.index).resolveNames d = some n ∧
        (w.memory.fs f.index).isDir n = true :=
    World.memory_readDir_isSome_iff hw f d
  rw [← Option.ne_none_iff_isSome, ne_eq, (o.readDir_first w d.toAbs).1]
  constructor
  · intro h
    push Not at h
    obtain ⟨f, hf, hsome⟩ := h
    cases f with
    | bind b => exact absurd rfl hsome
    | memory f => exact ⟨f, hf, (hmemory f).mp (Option.ne_none_iff_isSome.mp hsome)⟩
  · rintro ⟨f, hf, hdir⟩ hnone
    have hsome := (hmemory f).mpr hdir
    rw [hnone _ hf] at hsome
    cases hsome

theorem mem_listing_iff (hw : w.memory.WF) {es : List VfsDirEntry}
    (hes : LowLevelFS.readDir o w d.toAbs = some es) (x : FileName) :
    (∃ e ∈ es, e.name = x.bytes) ↔ ∃ f, PlainFS.memory f ∈ o.layers ∧
      ((w.memory.fs f.index).resolveNames (d ++ [x])).isSome = true := by
  have hmemory (f : MemoryRef ι) :
      ((LowLevelFS.readDir (PlainFS.memory f : PlainFS ι S) w d.toAbs).bind
      (entryNamed x.bytes)).isSome = ((w.memory.fs f.index).resolveNames (d ++ [x])).isSome := by
    have he : (LowLevelFS.readDir (PlainFS.memory f : PlainFS ι S) w d.toAbs).bind
        (entryNamed x.bytes) = _ := World.memory_entryNamed hw f d x
    rw [he, Option.isSome_map, objectAt, Option.isSome_map]
  rw [← not_iff_not, ← entryNamed_eq_none_iff, ((o.readDir_first w d.toAbs).2 es hes).2,
    List.findSome?_eq_none_iff]
  push Not
  constructor
  · intro h f hf
    rw [← hmemory, h _ hf]
    decide
  · intro h f hf
    cases f with
    | bind b => rfl
    | memory f =>
      have hno := h f hf
      rw [← hmemory] at hno
      exact Option.not_isSome_iff_eq_none.mp hno

/-- A listing is complete if and only if there is none, or what the host has in the directory
is in memory as well. -/
theorem listsAll_iff (hw : w.memory.WF) (N : Set FileName) :
    o.ListsAll w N d ↔ ¬ o.SomeMemoryDir w d ∨ o.BindsCovered w N d := by
  have haccess (x : FileName) := o.access_eq_zero_iff w (PathBuf.toAbs (d ++ [x]))
  constructor
  · intro h
    by_cases hdir : o.SomeMemoryDir w d
    swap
    · exact Or.inl hdir
    obtain ⟨es, hes⟩ := Option.isSome_iff_exists.mp ((readDir_isSome_iff hw).mpr hdir)
    refine Or.inr fun b hb x hxN hx => (mem_listing_iff hw hes x).mp (h es hes x hxN ?_)
    exact (haccess x).mpr ⟨.bind b, hb, hx⟩
  · rintro (hno | hcov) es hes x hxN hx
    · exact absurd ((readDir_isSome_iff hw).mp (by rw [hes]; rfl)) hno
    · obtain ⟨f, hf, hfx⟩ := (haccess x).mp hx
      refine (mem_listing_iff hw hes x).mpr ?_
      cases f with
      | bind b => exact hcov b hf x hxN hfx
      | memory f =>
        refine ⟨f, hf, ?_⟩
        have hres : LowLevelFS.access f w.memory (PathBuf.toAbs (d ++ [x])) F_OK = 0 := hfx
        rw [access_toAbs] at hres
        exact Option.ne_none_iff_isSome.mp hres

end OverlayFS

def BackendCall.after {F H W : Type} [LowLevelFS F H W] (f : F) (w : W) : BackendCall → W
  | .access _ _ | .stat _ | .readDir _ => w
  | .openPath path flags mode => (LowLevelFS.openWithHandle f w path flags mode).2
  | .mkdir path mode => (LowLevelFS.mkdir f w path mode).2
  | .unlink path => (LowLevelFS.unlink f w path).2
  | .rmdir path => (LowLevelFS.rmdir f w path).2
  | .rename oldPath newPath => (LowLevelFS.rename f w oldPath newPath).2
  | .chmod path mode => (LowLevelFS.chmod f w path mode).2

def Keeps {F H W : Type} [LowLevelFS F H W] (P : W → Prop) (f : F) : Prop :=
  ∀ (w : W) (c : BackendCall), P w → P (c.after f w)

section

variable {F H W : Type} [LowLevelFS F H W] {P : W → Prop} {o : OverlayFS F}

theorem Keeps.ensureTopParentDirs (h : Keeps P o.top) {w : W} (hw : P w) (path : AbsPath) :
    P (o.ensureTopParentDirs w path) := by
  have hround (w : W) (p : AbsPath) (hw : P w) : P (o.ensureTopDir w p) := by
    unfold OverlayFS.ensureTopDir
    split_ifs
    · exact h w (.mkdir p 0o755) hw
    · exact hw
  unfold OverlayFS.ensureTopParentDirs
  split
  · exact hw
  · split_ifs
    · exact hw
    · exact Runs.foldl_inv P hround hw _

theorem Keeps.overlay (h : ∀ f ∈ o.layers, Keeps P f) : Keeps P o := by
  have htop : Keeps P o.top := h o.top List.mem_cons_self
  intro w c hw
  have hvisible (path : AbsPath) := h _ (o.visibleLayer_mem w path)
  have hacting (path : AbsPath) := h _ (o.actingLayer_mem w path)
  cases c with
  | openPath path flags mode =>
    show P (if _ then _ else _ : OpenResult H × W).2
    split_ifs
    · exact htop _ (.openPath path flags mode) (htop.ensureTopParentDirs hw path)
    · exact hvisible path w (.openPath path flags mode) hw
  | mkdir path mode => exact htop _ (.mkdir path mode) (htop.ensureTopParentDirs hw path)
  | unlink path => exact hacting path w (.unlink path) hw
  | rmdir path => exact hacting path w (.rmdir path) hw
  | rename oldPath newPath =>
    show P (if _ then _ else _ : Int × W).2
    split_ifs
    · exact htop _ (.rename oldPath newPath) (htop.ensureTopParentDirs hw newPath)
    · exact hvisible oldPath w (.rename oldPath newPath) hw
  | chmod path mode => exact hvisible path w (.chmod path mode) hw
  | _ => exact hw

end

theorem PlainFS.keeps_wf {S : Type} (f : PlainFS ι S) :
    Keeps (fun w : HostWorld ι S => w.memory.WF) f := by
  intro w c hw
  have hw : w.memory.WF := hw
  cases f with
  | bind b => cases c <;> exact hw
  | memory f =>
    cases c with
    | openPath path flags mode => exact (World.memory_openWithHandle hw f path flags mode).1.wf hw
    | mkdir path mode => exact (World.memory_mkdir hw f path mode).wf hw
    | unlink path => exact (World.memory_remove hw f path .file).wf hw
    | rmdir path => exact (World.memory_remove hw f path .dir).wf hw
    | rename oldPath newPath => exact (World.memory_rename hw f oldPath newPath).wf hw
    | chmod path mode => exact (World.memory_chmod f path mode).wf hw
    | _ => exact hw

namespace OverlayFS

/-- In every state that calls of an overlay lead to, the listing of a directory is complete
if and only if no layer lists it, or memory has what the host has in it. -/
theorem run_listsAll_iff {S : Type} {w : HostWorld ι S} (hw : w.memory.WF)
    (o : OverlayFS (PlainFS ι S)) (calls : List BackendCall) (N : Set FileName) (d : PathBuf) :
    o.ListsAll (calls.foldl (fun w c => c.after o w) w) N d ↔
      ¬ o.SomeMemoryDir (calls.foldl (fun w c => c.after o w) w) d ∨
        o.BindsCovered (calls.foldl (fun w c => c.after o w) w) N d :=
  listsAll_iff (Runs.foldl_inv (fun w : HostWorld ι S => w.memory.WF)
    (Keeps.overlay fun f _ => f.keeps_wf) hw calls) N

/-- A host that has these paths and refuses every change. -/
def hostWith (paths : List HostPath) : Libc Unit where
  access _ path _ := if path ∈ paths then 0 else -1
  openPath _ _ _ _ := (-1, ())
  mkdir _ _ _ := (-1, ())
  unlink _ _ := (-1, ())
  rmdir _ _ := (-1, ())
  rename _ _ _ := (-1, ())
  chmod _ _ _ := (-1, ())
  stat _ _ := none

def overHost : OverlayFS (PlainFS (Fin 2) Unit) where
  top := .memory World.fst
  middle := none
  base := .bind ⟨[47]⟩

/-- The host has `/`, `/d` and `/d/a`. -/
def hostA : HostWorld (Fin 2) Unit :=
  ⟨World.fresh 2 .boot, (), hostWith [hostPath [47] [], hostPath [47] [.d], hostPath [47] [.d, .a]]⟩

/-- Opening `/d/a` for writing makes `/d` and `/d/a` in memory. -/
def writeA : List BackendCall := [.openPath (PathBuf.toAbs [.d, .a]) (O_CREAT ||| O_WRONLY) 0o644]

theorem listsAll_writeA :
    (LowLevelFS.readDir overHost (writeA.foldl (fun w c => c.after overHost w) hostA)
        (PathBuf.toAbs [.d])).map (·.map (·.name)) = some [FileName.a.bytes] ∧
      overHost.ListsAll (writeA.foldl (fun w c => c.after overHost w) hostA) {x | 0 ∉ x.bytes}
        [.d] := by
  refine ⟨by decide +kernel, (run_listsAll_iff (World.fresh_wf 2 .boot) overHost writeA
    {x | 0 ∉ x.bytes} [.d]).mpr (Or.inr ?_)⟩
  intro b hb x hxN hx
  have hroot : b = ⟨[47]⟩ := by simpa [overHost, layers] using hb
  have hlibc : (writeA.foldl (fun w c => c.after overHost w) hostA).libc = hostA.libc := rfl
  have hnul : ∀ y ∈ [FileName.d, x], 0 ∉ y.bytes := by
    intro y hy
    rcases List.mem_pair.mp hy with rfl | rfl
    · decide
    · exact hxN
  rw [hlibc, hroot, List.cons_append, List.nil_append,
    BindFS.cString_translateCPath (by decide) hnul] at hx
  have hin : hostPath [47] [.d, x] ∈
      [hostPath [47] [], hostPath [47] [.d], hostPath [47] [.d, .a]] := by
    by_contra hno
    exact absurd ((if_neg hno).symm.trans hx) (by decide)
  simp only [List.mem_cons, List.not_mem_nil, or_false] at hin
  have hxa : x = .a := by
    rcases hin with he | he | he <;> simpa using hostPath_inj he
  subst hxa
  exact ⟨World.fst, List.mem_cons_self, by decide +kernel⟩

/-- `/d` was copied up into memory, which lists nothing. -/
theorem not_listsAll_mkdirD :
    ¬ overHost.ListsAll ([BackendCall.mkdir (PathBuf.toAbs [.d]) 0o755].foldl
      (fun w c => c.after overHost w) hostA) {x | 0 ∉ x.bytes} [.d] := by
  intro h
  obtain ⟨e, he, -⟩ := h [] (by decide +kernel) .a (by decide) (by decide +kernel)
  cases he

end OverlayFS

end SandboxVfs
