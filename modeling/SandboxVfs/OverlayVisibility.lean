import SandboxVfs.Library.LayeredNames
import SandboxVfs.ReadOnlyLayers
import SandboxVfs.TopParents

/-! What an overlay shows is a lookup in the stack of its layers. Removing and
renaming act in one layer, and the stack decides what comes into sight after that. -/

namespace SandboxVfs

open MemoryFS NameGraph LayeredNames

namespace MemoryFS

def objectAt (fs : MemoryFS) (p : PathBuf) : Option (NodeId × VfsEntryKind) :=
  (fs.resolveNames p).map fun c => (c, fs.entryKind c)

variable {fs fs' : MemoryFS} {next : NodeId}

theorem objectAt_eq_none_iff {p : PathBuf} : fs.objectAt p = none ↔ fs.resolveNames p = none :=
  Option.map_eq_none_iff

theorem WF.objectAt_eq (h : fs.WF next) (p : PathBuf) :
    fs.objectAt p = (fs.view p).map fun v => (v.1, if v.2.1 then .dir else .file) := by
  unfold objectAt view
  cases hp : fs.resolveNames p with
  | none => rfl
  | some c =>
    obtain ⟨i, hi⟩ := Option.isSome_iff_exists.mp (h.mem_heap c (h.resolveNames_mem hp))
    simp [hi, entryKind, isDir_eq_inode]

theorem WF.objectAt_prefixClosed (h : fs.WF next) : PrefixClosed fs.objectAt := by
  intro p s hp
  rw [objectAt_eq_none_iff] at hp ⊢
  exact h.resolveNames_none_below (List.prefix_append p s) hp

theorem Created.objectAt {d : NodeId} {x : FileName} {n : Inode} (h : fs.WF next)
    (hc : Created fs fs' d x n) (hid : n.id = next) {p q : PathBuf}
    (hp : fs.resolveNames p = some d) (hq : q ≠ p ++ [x]) : fs'.objectAt q = fs.objectAt q := by
  have hr := congrFun (hc.resolveNames h hid hp) q
  simp only [addPath, hq, if_false] at hr
  unfold MemoryFS.objectAt
  rw [hr]
  cases hc' : fs.resolveNames q with
  | none => rfl
  | some c =>
    have hne : c ≠ n.id := by
      rintro rfl
      exact h.not_mem_fresh hid.ge (h.resolveNames_mem hc')
    simp [entryKind, hc.isDir_eq, hne]

theorem Removed.objectAt {parent c : NodeId} {name : FileName} (h : fs.WF next)
    (hr : Removed fs fs' parent name c) {p : PathBuf} (hp : fs.resolveNames p = some parent) :
    fs'.objectAt = erasePath fs.objectAt (p ++ [name]) := by
  funext q
  have hkind (j : NodeId) : fs'.entryKind j = fs.entryKind j := by
    rw [entryKind, hr.isDir_eq, entryKind]
  simp only [MemoryFS.objectAt, hr.resolveNames h hp, erasePath, hkind]
  split_ifs <;> rfl

theorem Moved.objectAt {old new : PathBuf} {a b c : NodeId} {x y : FileName}
    {replaced : Option NodeId} (hm : Moved fs fs' a x b y c replaced)
    (hp : fs'.resolveNames = movePath fs.resolveNames old new) :
    fs'.objectAt = movePath fs.objectAt old new := by
  funext q
  have hkind (j : NodeId) : fs'.entryKind j = fs.entryKind j := by
    rw [entryKind, hm.isDir_eq, entryKind]
  simp only [MemoryFS.objectAt, hp, movePath, hkind]
  split_ifs <;> rfl

end MemoryFS

theorem forall_mem_ne_iff {α : Type*} {l above below : List α} {a : α}
    (hl : l = above ++ a :: below) (hn : l.Nodup) {P : α → Prop} :
    (∀ b ∈ l, b ≠ a → P b) ↔ ∀ b ∈ above ++ below, P b := by
  subst hl
  have hperm := List.perm_middle.nodup_iff.mp hn
  constructor
  · intro h b hb
    refine h b (List.perm_middle.mem_iff.mpr (List.mem_cons_of_mem a hb)) ?_
    rintro rfl
    exact (List.nodup_cons.mp hperm).1 hb
  · intro h b hb hne
    exact h b ((List.mem_cons.mp (List.perm_middle.mem_iff.mp hb)).resolve_left hne)

variable {ι : Type} [DecidableEq ι]

namespace OverlayFS

def objects (o : OverlayFS (MemoryRef ι)) (w : World ι) :
    List (Layer FileName (NodeId × VfsEntryKind)) :=
  o.layers.map fun f => (w.fs f.index).objectAt

def visibleObject (o : OverlayFS (MemoryRef ι)) (w : World ι) (p : PathBuf) :
    Option (NodeId × VfsEntryKind) :=
  (o.visibleFs w p).objectAt p

def remove (o : OverlayFS (MemoryRef ι)) (w : World ι) (p : AbsPath) :
    VfsEntryKind → Int × World ι
  | .file => LowLevelFS.unlink o w p
  | .dir => LowLevelFS.rmdir o w p

variable {o : OverlayFS (MemoryRef ι)} {w w' : World ι}

theorem memory_access_iff (f : MemoryRef ι) (w : World ι) (p : PathBuf) (mode : Int) :
    LowLevelFS.access f w p.toAbs mode = 0 ↔ (w.fs f.index).objectAt p ≠ none := by
  rw [access_toAbs, ne_eq, ne_eq, objectAt_eq_none_iff]

theorem visibleLayer_split {p : PathBuf} (h : lookup (o.objects w) p ≠ none) :
    ∃ above below, o.layers = above ++ o.visibleLayer w p.toAbs :: below ∧
      (∀ g ∈ above, (w.fs g.index).objectAt p = none) ∧
      (o.visibleFs w p).objectAt p ≠ none := by
  have hacc (f : MemoryRef ι) : LowLevelFS.access f w p.toAbs F_OK = 0 ↔
      (w.fs f.index).objectAt p ≠ none := memory_access_iff f w p F_OK
  simp only [visibleFs, visibleLayer, hacc, layers]
  by_cases ht : (w.fs o.top.index).objectAt p = none
  · cases hm : o.middle with
    | none =>
      refine ⟨[o.top], [], by simp [ht], by simpa using ht, ?_⟩
      simpa [objects, layers, hm, lookup_eq_none_iff, ht] using h
    | some m =>
      by_cases hmid : (w.fs m.index).objectAt p = none
      · refine ⟨[o.top, m], [], by simp [ht, hmid], by simp [ht, hmid], ?_⟩
        simpa [objects, layers, hm, lookup_eq_none_iff, ht, hmid] using h
      · exact ⟨[o.top], [o.base], by simp [ht, hmid], by simp [ht], by simp [ht, hmid]⟩
  · exact ⟨[], o.middle.toList ++ [o.base], by simp [ht], by simp, by simp [ht]⟩

theorem visibleObject_eq_lookup (o : OverlayFS (MemoryRef ι)) (w : World ι) (p : PathBuf) :
    o.visibleObject w p = lookup (o.objects w) p := by
  by_cases h : lookup (o.objects w) p = none
  · rw [h]
    have hmem : (o.visibleFs w p).objectAt ∈ o.objects w :=
      List.mem_map.mpr ⟨_, o.visibleLayer_mem w p.toAbs, rfl⟩
    exact lookup_eq_none_iff.mp h (o.visibleFs w p).objectAt hmem
  · obtain ⟨above, below, hl, habove, hvis⟩ := visibleLayer_split h
    obtain ⟨v, hv⟩ := Option.ne_none_iff_exists'.mp hvis
    have ha : lookup (above.map fun f => (w.fs f.index).objectAt) p = none := by
      rw [lookup_eq_none_iff]
      intro g hg
      obtain ⟨f, hf, rfl⟩ := List.mem_map.mp hg
      exact habove f hf
    have hv' : (w.fs (o.visibleLayer w p.toAbs).index).objectAt p = some v := hv
    rw [objects, hl, List.map_append, List.map_cons, lookup_append, lookup_cons, ha, hv']
    exact hv

theorem access_iff (o : OverlayFS (MemoryRef ι)) (w : World ι) (p : PathBuf) (mode : Int) :
    LowLevelFS.access o w p.toAbs mode = 0 ↔ lookup (o.objects w) p ≠ none := by
  rw [← visibleObject_eq_lookup]
  exact memory_access_iff (o.visibleLayer w p.toAbs) w p mode

theorem actingLayer_eq_visibleLayer (o : OverlayFS (MemoryRef ι)) (w : World ι) (p : AbsPath) :
    o.actingLayer w p = o.visibleLayer w p := by
  unfold actingLayer
  split_ifs with h
  · exact (if_pos h).symm
  · rfl

omit [DecidableEq ι] in
theorem objects_exchange {above below : List (MemoryRef ι)} {f : MemoryRef ι}
    (hl : o.layers = above ++ f :: below) (hown : o.layers.Nodup)
    (hfs : ∀ j, j ≠ f.index → w'.fs j = w.fs j) :
    o.objects w' = above.map (fun g => (w.fs g.index).objectAt) ++
      (w'.fs f.index).objectAt :: below.map (fun g => (w.fs g.index).objectAt) := by
  rw [hl, List.nodup_append, List.nodup_cons] at hown
  obtain ⟨-, ⟨hfb, -⟩, hdis⟩ := hown
  have hkeep (g : MemoryRef ι) (hg : g ≠ f) :
      (w'.fs g.index).objectAt = (w.fs g.index).objectAt := by
    rw [hfs]
    exact fun he => hg (congrArg MemoryRef.mk he)
  rw [objects, hl, List.map_append, List.map_cons]
  congr 1
  · exact List.map_congr_left fun g hg => hkeep g (hdis g hg f (by simp))
  · congr 1
    exact List.map_congr_left fun g hg => hkeep g fun he => hfb (he ▸ hg)

omit [DecidableEq ι] in
theorem prefixClosed_of_mem (hw : w.WF) {fs : List (MemoryRef ι)}
    {g : Layer FileName (NodeId × VfsEntryKind)}
    (hg : g ∈ fs.map fun f => (w.fs f.index).objectAt) : PrefixClosed g := by
  obtain ⟨f, -, rfl⟩ := List.mem_map.mp hg
  exact (hw.fs f.index).objectAt_prefixClosed

theorem mergeEntries_mem {entries layerEntries : List VfsDirEntry} {e : VfsDirEntry}
    (h : e ∈ mergeEntries entries layerEntries) : e ∈ entries ∨ e ∈ layerEntries := by
  unfold mergeEntries at h
  induction layerEntries generalizing entries with
  | nil => exact Or.inl h
  | cons a l ih =>
    rw [List.foldl_cons] at h
    rcases ih h with hh | hh
    · split_ifs at hh
      · exact Or.inl hh
      · rcases List.mem_append.mp hh with hh | hh
        · exact Or.inl hh
        · exact Or.inr (List.mem_cons.mpr (Or.inl (List.mem_singleton.mp hh)))
    · exact Or.inr (List.mem_cons_of_mem a hh)

theorem foldl_mergeEntries_mem {ls : List (List VfsDirEntry)} {acc : List VfsDirEntry}
    {e : VfsDirEntry} (h : e ∈ ls.foldl mergeEntries acc) : e ∈ acc ∨ ∃ l ∈ ls, e ∈ l := by
  induction ls generalizing acc with
  | nil => exact Or.inl h
  | cons l ls ih =>
    rcases ih h with hh | ⟨l', hl', he⟩
    · rcases mergeEntries_mem hh with hh | hh
      · exact Or.inl hh
      · exact Or.inr ⟨l, List.mem_cons_self, hh⟩
    · exact Or.inr ⟨l', List.mem_cons_of_mem l hl', he⟩

theorem mem_readDir {p : AbsPath} {es : List VfsDirEntry}
    (h : LowLevelFS.readDir o w p = some es) {e : VfsDirEntry} (he : e ∈ es) :
    ∃ f ∈ o.layers, ∃ l, LowLevelFS.readDir f w p = some l ∧ e ∈ l := by
  change o.readLayers w p = some es at h
  unfold readLayers at h
  split at h
  · cases h
  · cases h
    rcases foldl_mergeEntries_mem he with hh | ⟨l, hl, hel⟩
    · cases hh
    · obtain ⟨f, hf, hfl⟩ := List.mem_filterMap.mp hl
      exact ⟨f, hf, l, hfl, hel⟩

theorem readDir_isSome {p : AbsPath} {f : MemoryRef ι} (hf : f ∈ o.layers) {l : List VfsDirEntry}
    (hl : LowLevelFS.readDir f w p = some l) : ∃ es, LowLevelFS.readDir o w p = some es := by
  change ∃ es, o.readLayers w p = some es
  unfold readLayers
  split
  · rename_i hnil
    have hm : l ∈ o.layers.filterMap (LowLevelFS.readDir · w p) :=
      List.mem_filterMap.mpr ⟨f, hf, hl⟩
    rw [hnil] at hm
    cases hm
  · exact ⟨_, rfl⟩

theorem remove_eq (o : OverlayFS (MemoryRef ι)) (w : World ι) (p : AbsPath)
    (kind : VfsEntryKind) :
    o.remove w p kind =
      (((w.fs (o.visibleLayer w p).index).removeNodeAt p kind).1,
        w.putFs (o.visibleLayer w p) ((w.fs (o.visibleLayer w p).index).removeNodeAt p kind).2) := by
  rw [← actingLayer_eq_visibleLayer]
  cases kind <;> rfl

/-- What the caller of `unlink` or `rmdir` may expect of a call that returned 0. -/
structure ReallyRemoved (o : OverlayFS (MemoryRef ι)) (w w' : World ι) (p : PathBuf)
    (kind : VfsEntryKind) : Prop where
  access : LowLevelFS.access o w' p.toAbs F_OK ≠ 0
  listing : ∀ es, LowLevelFS.readDir o w' (PathBuf.toAbs p.dropLast) = some es →
    ∀ e ∈ es, ∀ x, p.getLast? = some x → e.name ≠ x.bytes
  below : ∀ s, LowLevelFS.access o w' (PathBuf.toAbs (p ++ s)) F_OK ≠ 0
  was_empty : kind = .dir → LowLevelFS.readDir o w p.toAbs = some []

theorem listing_of_hidden (hw : w.WF) {q : PathBuf} {x : FileName}
    (h : lookup (o.objects w) (q ++ [x]) = none) {es : List VfsDirEntry}
    (hes : LowLevelFS.readDir o w (PathBuf.toAbs q) = some es) {e : VfsDirEntry} (he : e ∈ es) :
    e.name ≠ x.bytes := by
  intro hname
  obtain ⟨f, hf, l, hl, hel⟩ := mem_readDir hes he
  rw [World.memory_readDir_eq] at hl
  obtain ⟨d, hd, hl⟩ := Option.bind_eq_some_iff.mp hl
  obtain ⟨y, c, hy, hc⟩ := (hw.fs f.index).mem_readNodeDir hl hel
  have hxy : x = y := FileName.ext (hname.symm.trans hy)
  subst hxy
  have hnone := lookup_eq_none_iff.mp h _ (List.mem_map_of_mem hf)
  rw [objectAt_eq_none_iff, (hw.fs f.index).resolveNames_concat, hd, Option.bind_some, hc] at hnone
  cases hnone

theorem listing_of_sole (hw : w.WF) {p : PathBuf} {f : MemoryRef ι} (hf : f ∈ o.layers)
    {c : NodeId} (hc : (w.fs f.index).resolveNames p = some c)
    (hk : (w.fs f.index).kindMatches c .dir = true)
    (hothers : ∀ g ∈ o.layers, g ≠ f → (w.fs g.index).resolveNames p = none) :
    LowLevelFS.readDir o w p.toAbs = some [] := by
  obtain ⟨es, hes, hempty⟩ := (Option.any_eq_true _ _).mp hk
  have hl : LowLevelFS.readDir f w p.toAbs = some [] := by
    have hnil : es = ∅ := Std.ExtTreeMap.isEmpty_iff.mp hempty
    rw [World.memory_readDir_eq, hc, Option.bind_some, (hw.fs f.index).readNodeDir_eq, hes, hnil]
    simp
  obtain ⟨l, hlist⟩ := readDir_isSome hf hl
  rw [hlist, Option.some.injEq]
  rw [List.eq_nil_iff_forall_not_mem]
  intro e he
  obtain ⟨g, hg, l', hl', hel⟩ := mem_readDir hlist he
  by_cases hgf : g = f
  · subst hgf
    rw [hl] at hl'
    cases hl'
    cases hel
  · rw [World.memory_readDir_eq, hothers g hg hgf] at hl'
    cases hl'

/-- A removal that returned 0 removed the path from sight if and only if no layer but
the one it acted in has the path. -/
theorem reallyRemoved_iff (hw : w.WF) (hown : o.layers.Nodup) (p : PathBuf)
    (kind : VfsEntryKind) (h0 : (o.remove w p.toAbs kind).1 = 0) :
    ReallyRemoved o w (o.remove w p.toAbs kind).2 p kind ↔
      ∀ g ∈ o.layers, g ≠ o.visibleLayer w p.toAbs → (w.fs g.index).resolveNames p = none := by
  have he := remove_eq o w p.toAbs kind
  have hwf : (o.remove w p.toAbs kind).2.WF := by
    rw [he]
    exact (World.memory_remove hw _ _ _).wf hw
  rw [he] at h0
  have hwv := hw.fs (o.visibleLayer w p.toAbs).index
  rcases removeNodeAt_toAbs_cases hwv p kind with
    hr | ⟨fs', q, x, d, c, hr, rfl, hd, hc, hk, hrem, -⟩
  · rw [hr] at h0
    cases h0
  · have hlook : lookup (o.objects w) (q ++ [x]) ≠ none := by
      rw [← visibleObject_eq_lookup]
      show (w.fs _).objectAt (q ++ [x]) ≠ none
      rw [ne_eq, objectAt_eq_none_iff, hc]
      simp
    obtain ⟨above, below, hl, -, -⟩ := visibleLayer_split hlook
    have hothers : (∀ g ∈ o.layers, g ≠ o.visibleLayer w (PathBuf.toAbs (q ++ [x])) →
          (w.fs g.index).resolveNames (q ++ [x]) = none) ↔
        ∀ g ∈ above.map (fun g => (w.fs g.index).objectAt) ++
          below.map (fun g => (w.fs g.index).objectAt), g (q ++ [x]) = none := by
      rw [forall_mem_ne_iff hl hown, ← List.map_append, List.forall_mem_map]
      simp only [objectAt_eq_none_iff]
    have hclosed : ∀ g ∈ above.map (fun g => (w.fs g.index).objectAt) ++
        below.map (fun g => (w.fs g.index).objectAt), PrefixClosed g := by
      rw [← List.map_append]
      exact fun g hg => prefixClosed_of_mem hw hg
    have hstack : o.objects (o.remove w (PathBuf.toAbs (q ++ [x])) kind).2 =
        above.map (fun g => (w.fs g.index).objectAt) ++
          erasePath (w.fs (o.visibleLayer w (PathBuf.toAbs (q ++ [x]))).index).objectAt (q ++ [x]) ::
            below.map (fun g => (w.fs g.index).objectAt) := by
      rw [he, hr, ← hrem.objectAt hwv hd]
      dsimp only
      rw [objects_exchange hl hown fun j hj => World.putFs_fs_ne w _ fs' hj, World.putFs_fs]
    have hiff := lookup_erase_iff
      (f := (w.fs (o.visibleLayer w (PathBuf.toAbs (q ++ [x]))).index).objectAt) hclosed (q ++ [x])
    rw [← hstack] at hiff
    rw [hothers, ← hiff]
    constructor
    · intro hrr s
      by_contra hs
      exact hrr.below s ((access_iff _ _ _ _).mpr hs)
    · intro hh
      have hgone := hh []
      rw [List.append_nil] at hgone
      refine ⟨?_, ?_, ?_, ?_⟩
      · exact fun ha => (access_iff _ _ _ _).mp ha hgone
      · intro es hes e hmem y hy
        rw [List.getLast?_concat, Option.some.injEq] at hy
        subst hy
        rw [List.dropLast_concat] at hes
        exact listing_of_hidden hwf hgone hes hmem
      · exact fun s ha => (access_iff _ _ _ _).mp ha (hh s)
      · rintro rfl
        exact listing_of_sole hw (o.visibleLayer_mem w _) hc hk (hothers.mpr (hiff.mp hh))

def bothHold : World (Fin 2) :=
  (LowLevelFS.openWithHandle twoLayers.top baseOnly (PathBuf.toAbs [.a]) O_CREAT 0o644).2

theorem bothHold_wf : bothHold.WF :=
  (World.memory_openWithHandle baseOnly_wf _ _ _ _).1.wf baseOnly_wf

theorem reallyRemoved_baseOnly :
    ReallyRemoved twoLayers baseOnly (twoLayers.remove baseOnly (PathBuf.toAbs [.a]) .file).2
      [.a] .file :=
  (reallyRemoved_iff baseOnly_wf (by decide) [.a] .file (by decide +kernel)).mpr
    (by decide +kernel)

theorem not_reallyRemoved_bothHold :
    (twoLayers.remove bothHold (PathBuf.toAbs [.a]) .file).1 = 0 ∧
      ¬ ReallyRemoved twoLayers bothHold
        (twoLayers.remove bothHold (PathBuf.toAbs [.a]) .file).2 [.a] .file := by
  refine ⟨by decide +kernel, ?_⟩
  intro h
  exact h.access (by decide +kernel)

theorem ensureTopParentDirs_objectAt (hw : w.WF) (o : OverlayFS (MemoryRef ι))
    {new q : PathBuf} (hq : ¬ q <+: new.dropLast) :
    ((o.ensureTopParentDirs w new.toAbs).fs o.top.index).objectAt q =
      (w.fs o.top.index).objectAt q := by
  have hwf := (World.ensureTopParentDirs_grows hw o new.toAbs).wf hw
  rw [(hwf.fs _).objectAt_eq, (hw.fs _).objectAt_eq, ensured_view_eq hw fun hm => hq hm.2.1]

/-- Renaming in the layer `f` of a stack, where no layer above has the old path. -/
theorem layer_rename_iff (hw : w.WF) (hown : o.layers.Nodup) {above below : List (MemoryRef ι)}
    {f : MemoryRef ι} (hl : o.layers = above ++ f :: below) {old new : PathBuf} (hne : old ≠ new)
    (habove : ∀ g ∈ above, (w.fs g.index).objectAt old = none) {fs' : MemoryFS}
    (hr : (w.fs f.index).renameNodeAt old.toAbs new.toAbs = some fs') :
    ((∀ r, lookup (o.objects (w.putFs f fs')) (new ++ r) = lookup (o.objects w) (old ++ r)) ∧
        ∀ r, lookup (o.objects (w.putFs f fs')) (old ++ r) = none) ↔
      (∀ g ∈ above ++ below, (w.fs g.index).objectAt old = none) ∧
        (∀ g ∈ above, (w.fs g.index).objectAt new = none) ∧
        ∀ g ∈ below, ∀ r, (w.fs g.index).objectAt (new ++ r) ≠ none →
          (w.fs f.index).objectAt (old ++ r) ≠ none := by
  have hwf := hw.fs f.index
  obtain ⟨h₁, h₂⟩ := hwf.not_prefix_of_renamed hne hr
  obtain ⟨pa, x, a, pb, y, b, c, replaced, -, -, -, -, hc, hm, -, -, hp⟩ :=
    renameNodeAt_toAbs hwf hne hr
  have hstack : o.objects (w.putFs f fs') = above.map (fun g => (w.fs g.index).objectAt) ++
      movePath (w.fs f.index).objectAt old new ::
        below.map (fun g => (w.fs g.index).objectAt) := by
    rw [objects_exchange hl hown fun j hj => World.putFs_fs_ne w f fs' hj,
      World.putFs_fs, hm.objectAt hp]
  have hstack₀ : o.objects w = above.map (fun g => (w.fs g.index).objectAt) ++
      (w.fs f.index).objectAt :: below.map (fun g => (w.fs g.index).objectAt) :=
    objects_exchange hl hown fun _ _ => rfl
  have hclosed : ∀ g ∈ o.objects w, PrefixClosed g := fun g hg => prefixClosed_of_mem hw hg
  rw [hstack₀] at hclosed
  rw [hstack, hstack₀, lookup_move_iff hclosed h₁ h₂ ?_ ?_ ?_]
  · simp only [← List.map_append, List.forall_mem_map]
  · rw [ne_eq, objectAt_eq_none_iff, hc]
    simp
  · simpa only [List.forall_mem_map] using habove
  · -- a node of another layer is another node
    rw [← List.map_append, List.forall_mem_map]
    intro g hg p q v hv hgv
    obtain ⟨i, hi, rfl⟩ := Option.map_eq_some_iff.mp hv
    obtain ⟨j, hj, hji⟩ := Option.map_eq_some_iff.mp hgv
    have hij : j = i := congrArg Prod.fst hji
    subst hij
    have hgi := (hw.fs g.index).mem_heap j ((hw.fs g.index).resolveNames_mem hj)
    have hfi := hwf.mem_heap j (hwf.resolveNames_mem hi)
    have hgf : g = f := by
      refine congrArg MemoryRef.mk (hw.apart g.index f.index j ?_ ?_)
      · exact Option.isSome_iff_ne_none.mp hgi
      · exact Option.isSome_iff_ne_none.mp hfi
    exact (forall_mem_ne_iff (P := fun b => b ≠ f) hl hown).mp (fun b _ hb => hb) g hg hgf

def layersAbove (o : OverlayFS (MemoryRef ι)) (f : MemoryRef ι) : List (MemoryRef ι) :=
  o.layers.takeWhile (· ≠ f)

def layersBelow (o : OverlayFS (MemoryRef ι)) (f : MemoryRef ι) : List (MemoryRef ι) :=
  (o.layers.dropWhile (· ≠ f)).tail

theorem layers_split {above below : List (MemoryRef ι)} {f : MemoryRef ι}
    (hl : o.layers = above ++ f :: below) (hown : o.layers.Nodup) :
    o.layersAbove f = above ∧ o.layersBelow f = below := by
  have hne : ∀ g ∈ above, g ≠ f := by
    intro g hg
    rw [hl, List.nodup_append] at hown
    exact hown.2.2 g hg f (by simp)
  have hpos : ∀ g ∈ above, decide (g ≠ f) = true := fun g hg => by simpa using hne g hg
  unfold layersAbove layersBelow
  rw [hl, List.takeWhile_append_of_pos hpos, List.dropWhile_append_of_pos hpos]
  simp

/-- What the caller of `rename` may expect of a call that returned 0. -/
structure ReallyMoved (o : OverlayFS (MemoryRef ι)) (w w' : World ι) (old new : PathBuf) :
    Prop where
  arrived : ∀ r, o.visibleObject w' (new ++ r) = o.visibleObject w (old ++ r)
  gone : ∀ r, o.visibleObject w' (old ++ r) = none

/-- The other layers have nothing at the old path, and nothing at the new one that
would show in front of or behind what was moved in `f`. -/
structure Unshadowed (o : OverlayFS (MemoryRef ι)) (w : World ι) (f : MemoryRef ι)
    (old new : PathBuf) : Prop where
  source : ∀ g ∈ o.layers, g ≠ f → (w.fs g.index).objectAt old = none
  above : ∀ g ∈ o.layersAbove f, (w.fs g.index).objectAt new = none
  below : ∀ g ∈ o.layersBelow f, ∀ r, (w.fs g.index).objectAt (new ++ r) ≠ none →
    (w.fs f.index).objectAt (old ++ r) ≠ none

theorem memory_rename_eq_zero {f : MemoryRef ι} {w : World ι} {oldPath newPath : AbsPath}
    (h : (LowLevelFS.rename f w oldPath newPath).1 = 0) :
    ∃ fs', (w.fs f.index).renameNodeAt oldPath newPath = some fs' ∧
      (LowLevelFS.rename f w oldPath newPath).2 = w.putFs f fs' := by
  cases he : (w.fs f.index).renameNodeAt oldPath newPath with
  | none => simp [LowLevelFS.rename, he] at h
  | some fs' => exact ⟨fs', rfl, by simp [LowLevelFS.rename, he]⟩

theorem reallyMoved_in_layer_iff (hw : w.WF) (hown : o.layers.Nodup)
    {above below : List (MemoryRef ι)} {f : MemoryRef ι} (hl : o.layers = above ++ f :: below)
    {old new : PathBuf} (hne : old ≠ new)
    (habove : ∀ g ∈ above, (w.fs g.index).objectAt old = none) {fs' : MemoryFS}
    (hr : (w.fs f.index).renameNodeAt old.toAbs new.toAbs = some fs') :
    ReallyMoved o w (w.putFs f fs') old new ↔ Unshadowed o w f old new := by
  obtain ⟨ha, hb⟩ := layers_split hl hown
  have hh := layer_rename_iff hw hown hl hne habove hr
  have hothers := forall_mem_ne_iff (P := fun g => (w.fs g.index).objectAt old = none) hl hown
  constructor
  · rintro ⟨h₁, h₂⟩
    simp only [visibleObject_eq_lookup] at h₁ h₂
    obtain ⟨hs, ht, hu⟩ := hh.mp ⟨h₁, h₂⟩
    exact ⟨hothers.mpr hs, by rwa [ha], by rwa [hb]⟩
  · rintro ⟨hs, ht, hu⟩
    rw [ha] at ht
    rw [hb] at hu
    obtain ⟨h₁, h₂⟩ := hh.mpr ⟨hothers.mp hs, ht, hu⟩
    constructor
    · simpa only [visibleObject_eq_lookup] using h₁
    · simpa only [visibleObject_eq_lookup] using h₂

/-- A rename that returned 0 moved what the overlay shows if and only if no other
layer is in the way. -/
theorem reallyMoved_iff (hw : w.WF) (hown : o.layers.Nodup) {old new : PathBuf}
    (hne : old ≠ new) (h0 : (LowLevelFS.rename o w old.toAbs new.toAbs).1 = 0) :
    ReallyMoved o w (LowLevelFS.rename o w old.toAbs new.toAbs).2 old new ↔
      Unshadowed o w (o.visibleLayer w old.toAbs) old new := by
  by_cases ht : o.missingInTop w old
  · have he : LowLevelFS.rename o w old.toAbs new.toAbs =
        LowLevelFS.rename (o.visibleLayer w old.toAbs) w old.toAbs new.toAbs := if_neg ht
    rw [he] at h0 ⊢
    obtain ⟨fs', hr, hw'⟩ := memory_rename_eq_zero h0
    have hvis : o.visibleObject w old ≠ none := by
      obtain ⟨pa, x, a, pb, y, b, c, replaced, -, -, -, -, hc, -⟩ :=
        renameNodeAt_toAbs (hw.fs _) hne hr
      show (w.fs _).objectAt old ≠ none
      rw [ne_eq, objectAt_eq_none_iff, hc]
      simp
    rw [visibleObject_eq_lookup] at hvis
    obtain ⟨above, below, hl, habove, -⟩ := visibleLayer_split hvis
    rw [hw']
    exact reallyMoved_in_layer_iff hw hown hl hne habove hr
  · have htop : LowLevelFS.access o.top w old.toAbs F_OK = 0 := not_not.mp ht
    have he : LowLevelFS.rename o w old.toAbs new.toAbs =
        LowLevelFS.rename o.top (o.ensureTopParentDirs w new.toAbs) old.toAbs new.toAbs :=
      if_pos htop
    have hvis : o.visibleLayer w old.toAbs = o.top := if_pos htop
    have hp := World.ensureTopParentDirs_grows hw o new.toAbs
    rw [he] at h0 ⊢
    obtain ⟨fs', hr, hw'⟩ := memory_rename_eq_zero h0
    obtain ⟨-, h₂⟩ := ((hp.wf hw).fs _).not_prefix_of_renamed hne hr
    rw [hw', hvis]
    -- the parents that were made are neither at the old path nor below it or the new one
    have htopEq (r : PathBuf) : ((o.ensureTopParentDirs w new.toAbs).fs o.top.index).objectAt
        (old ++ r) = (w.fs o.top.index).objectAt (old ++ r) := by
      apply ensureTopParentDirs_objectAt hw
      intro hpre
      exact h₂ ((List.prefix_append old r).trans (hpre.trans (List.dropLast_prefix new)))
    have hother (g : MemoryRef ι) (hg : g ≠ o.top) :
        (o.ensureTopParentDirs w new.toAbs).fs g.index = w.fs g.index :=
      hp.fs_eq fun hgi => hg (congrArg MemoryRef.mk hgi)
    have hlook (r : PathBuf) : o.visibleObject (o.ensureTopParentDirs w new.toAbs) (old ++ r) =
        o.visibleObject w (old ++ r) := by
      rw [visibleObject_eq_lookup, visibleObject_eq_lookup]
      apply lookup_congr
      intro g _
      by_cases hg : g = o.top
      · subst hg
        exact htopEq r
      · rw [hother g hg]
    have hl : o.layers = [] ++ o.top :: (o.middle.toList ++ [o.base]) := rfl
    obtain ⟨-, hbelow⟩ := layers_split hl hown
    have hbne : ∀ g ∈ o.layersBelow o.top, g ≠ o.top := by
      rw [hbelow]
      exact fun g hg he => top_not_mem_lower hown (he ▸ hg)
    have hiff := reallyMoved_in_layer_iff (hp.wf hw) hown hl hne (by simp) hr
    have hmoved : ReallyMoved o (o.ensureTopParentDirs w new.toAbs)
          ((o.ensureTopParentDirs w new.toAbs).putFs o.top fs') old new ↔
        ReallyMoved o w ((o.ensureTopParentDirs w new.toAbs).putFs o.top fs') old new := by
      constructor
      · rintro ⟨ha, hg⟩
        exact ⟨fun r => (ha r).trans (hlook r), hg⟩
      · rintro ⟨ha, hg⟩
        exact ⟨fun r => (ha r).trans (hlook r).symm, hg⟩
    have hun : Unshadowed o (o.ensureTopParentDirs w new.toAbs) o.top old new ↔
        Unshadowed o w o.top old new := by
      have habove : o.layersAbove o.top = [] := (layers_split hl hown).1
      constructor
      · rintro ⟨hs, -, hu⟩
        refine ⟨fun g hg hgne => ?_, by simp [habove], fun g hg r => ?_⟩
        · rw [← hother g hgne]
          exact hs g hg hgne
        · rw [← hother g (hbne g hg), ← htopEq r]
          exact hu g hg r
      · rintro ⟨hs, -, hu⟩
        refine ⟨fun g hg hgne => ?_, by simp [habove], fun g hg r => ?_⟩
        · rw [hother g hgne]
          exact hs g hg hgne
        · rw [hother g (hbne g hg), htopEq r]
          exact hu g hg r
    rw [← hmoved, hiff, hun]

theorem reallyMoved_baseOnly :
    ReallyMoved twoLayers baseOnly
      (LowLevelFS.rename twoLayers baseOnly (PathBuf.toAbs [.a]) (PathBuf.toAbs [.b])).2
      [.a] [.b] := by
  refine (reallyMoved_iff baseOnly_wf (by decide) (by decide) (by decide +kernel)).mpr
    ⟨by decide +kernel, by decide +kernel, ?_⟩
  have hbelow : twoLayers.layersBelow
      (twoLayers.visibleLayer baseOnly (PathBuf.toAbs [.a])) = [] := by decide +kernel
  simp [hbelow]

theorem not_reallyMoved_bothHold :
    (LowLevelFS.rename twoLayers bothHold (PathBuf.toAbs [.a]) (PathBuf.toAbs [.b])).1 = 0 ∧
      ¬ ReallyMoved twoLayers bothHold
        (LowLevelFS.rename twoLayers bothHold (PathBuf.toAbs [.a]) (PathBuf.toAbs [.b])).2
        [.a] [.b] := by
  refine ⟨by decide +kernel, ?_⟩
  intro h
  have hgone := h.gone []
  exact absurd hgone (by decide +kernel)

end OverlayFS

end SandboxVfs
