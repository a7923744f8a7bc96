import SandboxVfs.AlikeRuns
import SandboxVfs.BackendSteps
import SandboxVfs.MemoryTrees

/-! No run tells memory file systems from directory trees. -/

namespace SandboxVfs

open FileTrees MemoryFS

variable {ι : Type} [DecidableEq ι]

/-- Every file system holds the trees of one forest. -/
structure World.HasTrees (w : World ι) (w' : TreeWorld ι) : Prop where
  wf : w.WF
  sys : w'.sys = w.sys
  trees : ∀ i, (w.fs i).HasTree (w'.forest i)

def asTree (f : MemoryRef ι) : TreeRef ι := ⟨f.index⟩

/-- Handles go together when they are on one object, which is there. -/
def treePairing (ι : Type) : Pairing (MemoryOpenedFile ι) (TreeHandle ι) (World ι) (TreeWorld ι) where
  worlds := World.HasTrees
  handles w _ h h' := h' = ⟨asTree h.nodes, h.node⟩ ∧ ((w.fs h.nodes.index).inodeOf h.node).isSome

variable {w u : World ι} {w' u' : TreeWorld ι} {S : Set ι}

namespace World.HasTrees

omit [DecidableEq ι] in
theorem goes (hc : World.Changes S w u) (hu : u.HasTrees u') : (treePairing ι).Goes w w' u u' := by
  refine ⟨hu, ?_⟩
  rintro h h' ⟨rfl, hk⟩
  obtain ⟨n, hn⟩ := Option.isSome_iff_exists.mp hk
  obtain ⟨n', hn', -⟩ := hc.kept hn
  exact ⟨rfl, by rw [hn']; rfl⟩

theorem put (h : w.HasTrees w') (f : MemoryRef ι) {m : MemoryState} (hwf : (w.put f m).WF)
    (hsys : u'.sys = m.sys) (hf : m.fs.HasTree (u'.forest f.index))
    (hother : ∀ i, i ≠ f.index → u'.forest i = w'.forest i) : (w.put f m).HasTrees u' := by
  refine ⟨hwf, hsys, fun i => ?_⟩
  by_cases hi : i = f.index
  · subst hi
    rwa [World.put_fs]
  · rw [World.put_fs_ne w f m hi, hother i hi]
    exact h.trees i

theorem newFd (h : w.HasTrees w') (f : MemoryRef ι) :
    (w.put f ⟨w.fs f.index, w.sys.newFd.2⟩).HasTrees w'.newFd.2 := by
  refine h.put f ?_ ?_ (h.trees f.index) fun i _ => rfl
  · exact (World.Grow.wf (S := Set.univ) h.wf (World.idle_put w f w.sys.newFd_later))
  · show w'.sys.newFd.2 = _
    rw [h.sys]

omit [DecidableEq ι] in
theorem canMake_iff (h : w.HasTrees w') {i : ι} {d : NodeId} {pl : TreePlace} {x : FileName}
    (hd : FileForest.At (w'.forest i) d pl) :
    (w'.forest i).CanMake pl.1 pl.2 x ↔
      (w.fs i).isDir d = true ∧ (w.fs i).entryAt d x = none := by
  have ht := h.trees i
  have hw := h.wf.fs i
  obtain ⟨e, he, ho⟩ := hd
  have hdir : e.dir = (w.fs i).isDir d := entryOf_dir ((ht.look_at hw ⟨e, he, ho⟩).symm.trans he)
  constructor
  · rintro ⟨⟨e', he', hdir'⟩, ha⟩
    cases he.symm.trans he'
    exact ⟨hdir.symm.trans hdir', (ht.look_child_eq_none hw ⟨e, he, ho⟩).mp ha⟩
  · rintro ⟨hd, ha⟩
    exact ⟨⟨e, he, hdir.trans hd⟩, (ht.look_child_eq_none hw ⟨e, he, ho⟩).mpr ha⟩

theorem createNodeInDir_of_not {m : MemoryState} {d : NodeId} {x : FileName}
    (h : ¬ (m.fs.isDir d = true ∧ m.fs.entryAt d x = none)) (kind : VfsEntryKind) (mode : Mode) :
    createNodeInDir m d x kind mode = (none, m) := by
  unfold createNodeInDir
  cases he : m.fs.entriesOf d with
  | none => rfl
  | some es =>
    have hx : x ∈ es := by
      by_contra hx
      exact h ⟨by simp [isDir, he], by rw [entryAt_of_entriesOf he]; simpa using hx⟩
    dsimp only
    rw [if_pos hx]

theorem createNodeInDir_of_can {m : MemoryState} {d : NodeId} {x : FileName}
    (h : m.fs.isDir d = true ∧ m.fs.entryAt d x = none) (kind : VfsEntryKind) (mode : Mode) :
    (m.sys.takeId.newFd.1 < 0 ∧
        createNodeInDir m d x kind mode = (none, ⟨m.fs, m.sys.takeId.newFd.2⟩)) ∨
      (0 ≤ m.sys.takeId.newFd.1 ∧
        ∃ m', createNodeInDir m d x kind mode = (some m.sys.nextNodeId, m')) := by
  obtain ⟨es, he⟩ := isDir_iff_entries.mp h.1
  have hx : x ∉ es := by
    have ha := h.2
    rw [entryAt_of_entriesOf he] at ha
    simpa using ha
  unfold createNodeInDir
  rw [he]
  dsimp only
  rw [if_neg hx]
  by_cases hfd : m.sys.takeId.newFd.1 < 0
  · rw [if_pos hfd]
    exact Or.inl ⟨hfd, rfl⟩
  · rw [if_neg hfd]
    exact Or.inr ⟨not_lt.mp hfd, _, rfl⟩

/-- A node and what lies in the tree for it. -/
structure SameMade (u : World ι) (f : MemoryRef ι) (dir : Bool) (id : NodeId) (e : TreeEntry) :
    Prop where
  object : e.object = id
  isDir : e.dir = dir
  node : (u.fs f.index).isDir id = dir
  known : ((u.fs f.index).inodeOf id).isSome

theorem makeAt (h : w.HasTrees w') (f : MemoryRef ι)
    {target : Option (NodeId × FileName)} {target' : Option (TreePlace × FileName)}
    (ht : Option.Rel (HasTree.SameTarget (w'.forest f.index)) target target') (kind : VfsEntryKind)
    (mode : Mode) :
    (w.put f (createAt (w.state f) target kind mode).2).HasTrees
        (w'.makeAt (asTree f) target' kind mode).2 ∧
      Option.Rel (SameMade (w.put f (createAt (w.state f) target kind mode).2) f (kind == .dir))
        (createAt (w.state f) target kind mode).1 (w'.makeAt (asTree f) target' kind mode).1 := by
  have hwf := (World.createAt_spec h.wf f target kind mode).wf h.wf
  have hsame : w.put f (w.state f) = w := by rw [World.state, World.put_self]
  cases ht with
  | none =>
    rw [show createAt (w.state f) none kind mode = (none, w.state f) from rfl, hsame]
    exact ⟨h, .none⟩
  | some hat =>
    rename_i a b
    obtain ⟨d, x⟩ := a
    obtain ⟨pl, y⟩ := b
    obtain ⟨hd, hxy⟩ := hat
    cases hxy
    have hat : createAt (w.state f) (some (d, x)) kind mode =
        createNodeInDir (w.state f) d x kind mode := rfl
    rw [hat] at hwf ⊢
    have hcan := h.canMake_iff (x := x) hd
    by_cases hm : (w'.forest f.index).CanMake pl.1 pl.2 x
    · have hfd' : w'.takeId.newFd.1 = w.sys.takeId.newFd.1 := by
        show w'.sys.takeId.newFd.1 = _
        rw [h.sys]
      rcases createNodeInDir_of_can (m := w.state f) (hcan.mp hm) kind mode with
        ⟨hfd, he⟩ | ⟨hfd, m', he⟩
      · rw [he] at hwf ⊢
        rw [TreeWorld.makeAt_refused (f := asTree f) hm (hfd'.trans_lt hfd)]
        refine ⟨h.put f hwf ?_ (h.trees f.index) fun i _ => rfl, .none⟩
        show w'.sys.takeId.newFd.2 = _
        rw [h.sys]
        rfl
      · obtain ⟨-, -, hsys, hc⟩ := createNodeInDir_made (h.wf.fs f.index) he
        change Created (w.fs f.index) m'.fs d x
          (newNode w.sys.nextNodeId d kind mode w.sys.takeId.newFd.1).inode at hc
        rw [he] at hwf ⊢
        rw [TreeWorld.makeAt_made (f := asTree f) hm (hfd.trans_eq hfd'.symm)]
        have hentry : w'.newEntry kind mode =
            treeEntry (newNode w.sys.nextNodeId d kind mode w.sys.takeId.newFd.1).inode := by
          rw [newNode_inode, TreeWorld.newEntry, hfd', h.sys]
          rfl
        have hid : (newNode w.sys.nextNodeId d kind mode w.sys.takeId.newFd.1).inode.id =
            w.sys.nextNodeId := by rw [newNode_inode]
        constructor
        · refine h.put f hwf ?_ ?_ fun i hi => Function.update_of_ne hi _ _
          · show w'.sys.takeId.newFd.2 = _
            rw [h.sys, hsys]
            rfl
          · show m'.fs.HasTree (Function.update w'.forest f.index _ f.index)
            rw [Function.update_self]
            exact hc.hasTree (h.wf.fs f.index) (h.trees f.index) hid hd hm hentry
              (w'.unused f.index)
        · have hi : m'.fs.inodeOf w.sys.nextNodeId =
              some (newNode w.sys.nextNodeId d kind mode w.sys.takeId.newFd.1).inode := by
            rw [hc.inodeOf, hid, if_pos rfl]
          refine .some ⟨?_, ?_, ?_, ?_⟩
          · show w'.sys.nextNodeId = _
            rw [h.sys]
            rfl
          · rfl
          · rw [World.put_fs, isDir_eq_inode]
            show (m'.fs.inodeOf w.sys.nextNodeId).any (·.isDir) = _
            rw [hi, newNode_inode, Option.any_some]
          · rw [World.put_fs]
            show (m'.fs.inodeOf w.sys.nextNodeId).isSome
            rw [hi]
            rfl
    · rw [TreeWorld.makeAt_of_not (f := asTree f) hm,
        createNodeInDir_of_not (m := w.state f) (fun hh => hm (hcan.mpr hh)), hsame]
      exact ⟨h, .none⟩

theorem openEntry (h : w.HasTrees w') (f : MemoryRef ι) {dir : Bool} {id : NodeId} {e : TreeEntry}
    (hs : SameMade w f dir id e) (flags : Flags) :
    (treePairing ι).SameOpen w w'
      (openedFile f (openFound (w.state f) id flags).1,
        w.put f (openFound (w.state f) id flags).2)
      (w'.openEntry (asTree f) e flags) := by
  have hnode : (w.state f).fs.isDir id = e.dir := hs.node.trans hs.isDir.symm
  have hfd : w'.newFd.1 = w.sys.newFd.1 := by
    show w'.sys.newFd.1 = _
    rw [h.sys]
  unfold openFound TreeWorld.openEntry
  rw [hnode]
  by_cases hd : (flags.has O_DIRECTORY && !e.dir) = true
  · rw [if_pos hd, if_pos hd, World.state, World.put_self]
    exact ⟨rfl, .none, .refl h⟩
  · rw [if_neg hd, if_neg hd]
    have hnew := h.newFd f
    have hgo : (treePairing ι).Goes w w' (w.put f ⟨w.fs f.index, w.sys.newFd.2⟩) w'.newFd.2 :=
      goes (S := Set.univ) (.single (.grow (World.idle_put w f w.sys.newFd_later))) hnew
    refine ⟨hfd.symm, ?_, hgo⟩
    show Option.Rel _ (Option.map _ (if w.sys.newFd.1 < 0 then none else some id))
      (if w'.newFd.1 < 0 then none else some (⟨asTree f, e.object⟩ : TreeHandle ι))
    rw [hfd]
    split_ifs
    · exact .none
    · have hh : (treePairing ι).handles w w' ⟨f, id⟩ ⟨asTree f, e.object⟩ :=
        ⟨by rw [hs.object], hs.known⟩
      exact .some (hgo.handles _ _ hh)

theorem openAt (h : w.HasTrees w') (f : MemoryRef ι) {existing : Option NodeId}
    {existing' : Option TreeEntry} {target : Option (NodeId × FileName)}
    {target' : Option (TreePlace × FileName)}
    (he : Option.Rel (fun id e => SameMade w f e.dir id e) existing existing')
    (ht : Option.Rel (HasTree.SameTarget (w'.forest f.index)) target target') (flags : Flags)
    (mode : Mode) :
    (treePairing ι).SameOpen w w'
      (openedFile f (MemoryFS.openAt (w.state f) existing target flags mode).1,
        w.put f (MemoryFS.openAt (w.state f) existing target flags mode).2)
      (w'.openAt (asTree f) existing' target' flags mode) := by
  have hsame : (treePairing ι).SameOpen w w'
      (openedFile f (⟨-1, none⟩ : OpenResult NodeId), w.put f (w.state f)) (⟨-1, none⟩, w') := by
    rw [World.state, World.put_self]
    exact ⟨rfl, .none, .refl h⟩
  unfold MemoryFS.openAt openResolvedNode TreeWorld.openAt
  cases he with
  | some hs =>
    dsimp only
    split_ifs
    · exact hsame
    · exact h.openEntry f hs flags
  | none =>
    dsimp only
    split_ifs
    · obtain ⟨hu, hr⟩ := h.makeAt f ht .file mode
      have hgr := World.createAt_spec h.wf f target .file mode
      have hgo : (treePairing ι).Goes w w' _ _ := goes hgr.changes hu
      cases hc : createAt (w.state f) target .file mode with
      | mk r m =>
        cases hc' : w'.makeAt (asTree f) target' .file mode with
        | mk r' u' =>
          rw [hc, hc'] at hr hu hgo
          cases hr with
          | none => exact ⟨rfl, .none, hgo⟩
          | some hs =>
            rename_i id e
            have ho := hu.openEntry f hs flags
            have hst : (w.put f m).state f = m := by simp [World.state, World.put]
            rw [hst, World.put_put] at ho
            exact hgo.sameOpen ho
    · exact hsame

theorem putFs (h : w.HasTrees w') (f : MemoryRef ι) {fs : MemoryFS} {t : FileTree}
    (hc : World.Changes S w (w.putFs f fs)) (hfs : fs.HasTree t)
    (hin : t.Within (w'.forest (asTree f).index)) :
    (treePairing ι).Same w w' (0, w.putFs f fs)
      (0, w'.put (asTree f) t (w'.within_fresh hin)) := by
  refine ⟨rfl, goes hc ⟨hc.wf h.wf, h.sys, fun i => ?_⟩⟩
  by_cases hi : i = f.index
  · subst hi
    show ((w.putFs f fs).fs f.index).HasTree (Function.update w'.forest f.index t f.index)
    rwa [World.putFs_fs, Function.update_self]
  · show ((w.putFs f fs).fs i).HasTree (Function.update w'.forest f.index t i)
    rw [World.putFs_fs_ne w f fs hi, Function.update_of_ne hi]
    exact h.trees i

omit [DecidableEq ι] in
theorem leaf_iff (h : w.HasTrees w') {i : ι} {c : NodeId} {pl : TreePlace}
    (hc : FileForest.At (w'.forest i) c pl) :
    (w'.forest i).Leaf pl.1 pl.2 ↔ (w.fs i).Childless c := by
  rw [childless_iff]
  exact forall_congr' fun x => (h.trees i).look_child_eq_none (h.wf.fs i) hc

omit [DecidableEq ι] in
theorem canRemove_iff (h : w.HasTrees w') (i : ι) (p : PathBuf) (kind : VfsEntryKind) :
    FileTree.CanRemove (w'.forest i) p kind ↔
      ∃ c, (w.fs i).resolveNames p = some c ∧ (w.fs i).kindMatches c kind = true := by
  have ht := h.trees i
  have hw := h.wf.fs i
  have hkind (c : NodeId) : (w.fs i).kindMatches c kind = true ↔
      (w.fs i).isDir c = (kind == .dir) ∧ (w.fs i).Childless c := by
    cases kind <;> cases hd : (w.fs i).isDir c <;> simp_all [kindMatches, Childless, isDir]
  unfold FileTree.CanRemove
  rw [ht.look_path hw]
  constructor
  · rintro ⟨e, he, hdir, hl⟩
    obtain ⟨c, hc, he⟩ := Option.bind_eq_some_iff.mp he
    refine ⟨c, hc, (hkind c).mpr ⟨(entryOf_dir he).symm.trans hdir, ?_⟩⟩
    exact (h.leaf_iff (ht.at_path hw hc)).mp hl
  · rintro ⟨c, hc, hk⟩
    obtain ⟨hdir, hl⟩ := (hkind c).mp hk
    obtain ⟨-, -, e, he⟩ := (ht.at_iff hw).mp (ht.at_path hw hc)
    exact ⟨e, by rw [hc, Option.bind_some, he], (entryOf_dir he).trans hdir,
      (h.leaf_iff (ht.at_path hw hc)).mpr hl⟩

theorem remove (h : w.HasTrees w') (f : MemoryRef ι) (p : PathBuf) (kind : VfsEntryKind) :
    (treePairing ι).Same w w'
      (((w.fs f.index).removeNodeAt p.toAbs kind).1,
        w.putFs f ((w.fs f.index).removeNodeAt p.toAbs kind).2)
      (w'.remove (asTree f) p kind) := by
  have hc := World.memory_remove h.wf f p.toAbs kind
  have hcan := h.canRemove_iff f.index p kind
  have hiff := removeNodeAt_toAbs_iff (h.wf.fs f.index) p kind
  rcases removeNodeAt_toAbs_cases (h.wf.fs f.index) p kind with
    he | ⟨fs', q, x, d, c, he, rfl, hq, hp, hk, hr, -⟩
  · have hnot : ¬ (p ≠ [] ∧ FileTree.CanRemove (w'.forest f.index) p kind) := by
      rw [hcan, ← hiff, he]
      show ¬ (-1 : Int) = 0
      decide
    rw [he, TreeWorld.remove_of_not (f := asTree f) hnot]
    show (treePairing ι).Same w w' (-1, w.putFs f (w.fs f.index)) (-1, w')
    rw [World.putFs_self]
    exact ⟨rfl, .refl h⟩
  · have hyes : q ++ [x] ≠ [] ∧ FileTree.CanRemove (w'.forest f.index) (q ++ [x]) kind := by
      rw [hcan, ← hiff, he]
    rw [he] at hc ⊢
    rw [TreeWorld.remove_of_can (f := asTree f) hyes]
    refine h.putFs f hc ?_ (FileForest.clear_within hyes.1)
    obtain ⟨e, hl, -⟩ := hyes.2
    rw [show FileForest.clear (w'.forest (asTree f).index) (q ++ [x]) hyes.1 = _ from
      FileForest.clear_of_some hyes.1 hl]
    exact hr.hasTree (h.wf.fs f.index) (h.trees f.index)
      ((h.trees f.index).at_path (h.wf.fs f.index) hq) hl hyes.1

omit [DecidableEq ι] in
theorem canMove_iff (h : w.HasTrees w') (i : ι) {old new : PathBuf} (hne : old ≠ new) :
    (w'.forest i).CanMove old new ↔ (w.fs i).CanMove old new := by
  have ht := h.trees i
  have hw := h.wf.fs i
  have hlook {p : PathBuf} {e : TreeEntry} (he : (w'.forest i).look (w'.forest i).root p = some e) :
      ∃ c, (w.fs i).resolveNames p = some c ∧ e.dir = (w.fs i).isDir c ∧
        (w'.forest i).At c ((w'.forest i).root, p) := by
    rw [ht.look_path hw] at he
    obtain ⟨c, hc, he⟩ := Option.bind_eq_some_iff.mp he
    exact ⟨c, hc, entryOf_dir he, ht.at_path hw hc⟩
  have hnode {p : PathBuf} {c : NodeId} (hc : (w.fs i).resolveNames p = some c) :
      ∃ e, (w'.forest i).look (w'.forest i).root p = some e ∧ e.dir = (w.fs i).isDir c := by
    obtain ⟨-, -, e, he⟩ := (ht.at_iff hw).mp (ht.at_path hw hc)
    exact ⟨e, by rw [ht.look_path hw, hc, Option.bind_some, he], entryOf_dir he⟩
  constructor
  · rintro ⟨-, hold, hnew, ⟨e, he, hguard, hrep⟩, ⟨d, hd, hdir⟩⟩
    obtain ⟨c, hc, hec, -⟩ := hlook he
    obtain ⟨b, hb, hdb, -⟩ := hlook hd
    refine ⟨hne, hold, hnew, ⟨c, hc, fun hcd => hguard (hec.trans hcd), fun r hr => ?_⟩,
      b, hb, hdb.symm.trans hdir⟩
    obtain ⟨e', he', her⟩ := hnode hr
    obtain ⟨hsame, hl⟩ := hrep e' he'
    exact canReplaceNode_iff.mpr ⟨hec.symm.trans (hsame.symm.trans her),
      (h.leaf_iff (ht.at_path hw hr)).mp hl⟩
  · rintro ⟨-, hold, hnew, ⟨c, hc, hguard, hrep⟩, ⟨b, hb, hdir⟩⟩
    obtain ⟨e, he, hec⟩ := hnode hc
    obtain ⟨d, hd, hdb⟩ := hnode hb
    refine ⟨hne, hold, hnew, ⟨e, he, fun hed => hguard (hec.symm.trans hed), fun e' he' => ?_⟩,
      d, hd, hdb.trans hdir⟩
    obtain ⟨r, hr, her, hat⟩ := hlook he'
    obtain ⟨hsame, hl⟩ := canReplaceNode_iff.mp (hrep r hr)
    exact ⟨her.trans (hsame.symm.trans hec.symm), (h.leaf_iff hat).mpr hl⟩

theorem rename (h : w.HasTrees w') (f : MemoryRef ι) (old new : PathBuf) :
    (treePairing ι).Same w w' (LowLevelFS.rename f w old.toAbs new.toAbs)
      (w'.rename (asTree f) old new) := by
  have hc := World.memory_rename h.wf f old.toAbs new.toAbs
  have hw := h.wf.fs f.index
  have ht := h.trees f.index
  have hrefl (r : Int) : (treePairing ι).Same w w' (r, w) (r, w') := ⟨rfl, .refl h⟩
  by_cases hne : old = new
  · subst hne
    rw [TreeWorld.rename_same]
    simp only [LowLevelFS.rename, renameNodeAt_same]
    by_cases hp : old = []
    · rw [if_pos hp, if_pos hp]
      exact hrefl (-1)
    · rw [if_neg hp, if_neg hp]
      show (treePairing ι).Same w w' (0, w.putFs f (w.fs f.index)) (0, w')
      rw [World.putFs_self]
      exact hrefl 0
  · have hiff := (renameNodeAt_isSome_iff hw hne).trans (h.canMove_iff f.index hne).symm
    simp only [LowLevelFS.rename] at hc ⊢
    cases hr : (w.fs f.index).renameNodeAt old.toAbs new.toAbs with
    | none =>
      rw [hr, Option.isSome_none] at hiff
      rw [TreeWorld.rename_of_not (f := asTree f) hne fun hcan => by cases hiff.mpr hcan]
      exact hrefl (-1)
    | some fs' =>
      rw [hr, Option.isSome_some] at hiff
      have hcan := hiff.mp rfl
      rw [hr] at hc
      rw [TreeWorld.rename_of_can (f := asTree f) hne hcan]
      refine h.putFs f hc ?_ (FileForest.move_within hcan)
      obtain ⟨pa, x, a, pb, y, b, c, replaced, rfl, rfl, ha, hb, -, hm, -⟩ :=
        renameNodeAt_toAbs hw hne hr
      exact hm.hasTree hw ht (ht.at_path hw ha) (ht.at_path hw hb) hcan

theorem chmod (h : w.HasTrees w') (f : MemoryRef ι) (p : PathBuf) (mode : Mode) :
    (treePairing ι).Same w w' (LowLevelFS.chmod f w p.toAbs mode)
      (w'.setMode (asTree f) p mode) := by
  have hch := World.memory_chmod f p.toAbs mode (w := w)
  have hw := h.wf.fs f.index
  have ht := h.trees f.index
  have hlook := ht.look_path hw p
  simp only [LowLevelFS.chmod] at hch ⊢
  unfold TreeWorld.setMode
  cases hr : (w.fs f.index).chmod p.toAbs mode with
  | none =>
    have hp : (w.fs f.index).resolveNames p = none := by
      rw [← MemoryFS.resolve_toAbs]
      exact Option.map_eq_none_iff.mp hr
    have hnone : (w'.forest (asTree f).index).look (w'.forest (asTree f).index).root p = none := by
      rw [show (asTree f).index = f.index from rfl, hlook, hp]
      rfl
    rw [hnone]
    exact ⟨rfl, .refl h⟩
  | some fs' =>
    obtain ⟨c, hp, hs⟩ := chmod_cases hr
    rw [MemoryFS.resolve_toAbs] at hp
    have hat := ht.at_path hw hp
    obtain ⟨e, he, -⟩ := id hat
    have hsome : (w'.forest (asTree f).index).look (w'.forest (asTree f).index).root p = some e := he
    rw [hr] at hch
    rw [hsome]
    exact h.putFs f hch (hs.hasTree hw ht hat) (FileForest.change_within _)

omit [DecidableEq ι] in
theorem node_at (h : w.HasTrees w') {i : ι} {c : NodeId} {pl : TreePlace}
    (hc : FileForest.At (w'.forest i) c pl) :
    ∃ n e, (w.fs i).heap c = some n ∧ (w.fs i).entryOf c = some e ∧
      (w'.forest i).look pl.1 pl.2 = some e ∧
      (w.fs i).statNode w.sys n = FileTree.stat (w'.forest i) w'.sys pl e ∧
      (w.fs i).readNodeDir c = FileTree.list (w'.forest i) pl e := by
  have ht := h.trees i
  have hw := h.wf.fs i
  obtain ⟨-, -, e, he⟩ := (ht.at_iff hw).mp hc
  obtain ⟨n', hn', -⟩ := Option.map_eq_some_iff.mp he
  obtain ⟨n, hn, -⟩ := Option.map_eq_some_iff.mp hn'
  refine ⟨n, e, hn, he, (ht.look_at hw hc).trans he, ?_, ht.readNodeDir_at hw hc he⟩
  rw [h.sys]
  exact ht.statNode_at hw hc hn he w.sys

omit [DecidableEq ι] in
theorem found_at (h : w.HasTrees w') (f : MemoryRef ι) {c : Option NodeId} {pl : Option TreePlace}
    (hc : Option.Rel (w'.forest f.index).At c pl) :
    Option.Rel (fun id e => SameMade w f e.dir id e) c
      (pl.bind fun pl => (w'.forest f.index).look pl.1 pl.2) := by
  cases hc with
  | none => exact .none
  | some hat =>
    obtain ⟨n, e, hn, he, hl, -⟩ := h.node_at hat
    rw [Option.bind_some, hl]
    refine .some ⟨(h.wf.fs f.index).entryOf_object he, rfl, (entryOf_dir he).symm, ?_⟩
    rw [inodeOf, hn]
    rfl

omit [DecidableEq ι] in
theorem found_path (h : w.HasTrees w') (f : MemoryRef ι) (p : PathBuf) :
    Option.Rel (fun id e => SameMade w f e.dir id e) ((w.fs f.index).resolveNames p)
      ((w'.forest f.index).look (w'.forest f.index).root p) := by
  have ht := h.trees f.index
  have hw := h.wf.fs f.index
  cases hc : (w.fs f.index).resolveNames p with
  | none =>
    rw [ht.look_path hw, hc]
    exact .none
  | some c => exact h.found_at f (.some (ht.at_path hw hc))

omit [DecidableEq ι] in
theorem made_status {f : MemoryRef ι} {dir : Bool} {r : Option NodeId} {r' : Option TreeEntry}
    (h : Option.Rel (SameMade u f dir) r r') :
    createdStatus r = if r'.isSome then 0 else -1 := by
  cases h <;> rfl

end World.HasTrees

theorem memory_alike (f : MemoryRef ι) : Alike (treePairing ι) f (asTree f) where
  access w w' h p mode := by
    have hat := World.HasTrees.found_path h f p
    show (if ((w.fs f.index).resolve p.toAbs).isSome then (0 : Int) else -1) =
      if ((w'.forest f.index).look (w'.forest f.index).root p.toAbs.names).isSome then 0 else -1
    rw [MemoryFS.resolve_toAbs, PathBuf.names_toAbs]
    cases hc : (w.fs f.index).resolveNames p <;>
      cases hl : (w'.forest f.index).look (w'.forest f.index).root p <;>
      rw [hc, hl] at hat <;> cases hat <;> rfl
  openWithHandle w w' h p flags mode := by
    have ho := World.HasTrees.openAt h f (World.HasTrees.found_path h f p)
      ((World.HasTrees.trees h f.index).target_at (h.wf.fs f.index) p) flags mode
    show (treePairing ι).SameOpen w w'
      (openedFile f (openNode (w.state f) p.toAbs flags mode).1,
        w.put f (openNode (w.state f) p.toAbs flags mode).2)
      (w'.openAt (asTree f)
        ((w'.forest f.index).look (w'.forest f.index).root p.toAbs.names)
        (FileTree.target (w'.forest f.index) p.toAbs) flags mode)
    rwa [openNode_eq, show (w.state f).fs.resolve p.toAbs = _ from MemoryFS.resolve_toAbs _ p,
      PathBuf.names_toAbs]
  mkdir w w' h p mode := by
    obtain ⟨hu, hr⟩ := World.HasTrees.makeAt h f
      ((World.HasTrees.trees h f.index).target_at (h.wf.fs f.index) p) .dir mode
    show (treePairing ι).Same w w' (createdStatus (createNode (w.state f) p.toAbs .dir mode).1,
      w.put f (createNode (w.state f) p.toAbs .dir mode).2) _
    rw [createNode_eq]
    exact ⟨World.HasTrees.made_status hr,
      World.HasTrees.goes (World.createAt_spec h.wf f _ .dir mode).changes hu⟩
  unlink w w' h p := by
    show (treePairing ι).Same w w' _ (w'.remove (asTree f) p.toAbs.names .file)
    rw [PathBuf.names_toAbs]
    exact World.HasTrees.remove h f p .file
  rmdir w w' h p := by
    show (treePairing ι).Same w w' _ (w'.remove (asTree f) p.toAbs.names .dir)
    rw [PathBuf.names_toAbs]
    exact World.HasTrees.remove h f p .dir
  rename w w' h old new := by
    show (treePairing ι).Same w w' _ (w'.rename (asTree f) old.toAbs.names new.toAbs.names)
    rw [PathBuf.names_toAbs, PathBuf.names_toAbs]
    exact World.HasTrees.rename h f old new
  chmod w w' h p mode := by
    show (treePairing ι).Same w w' _ (w'.setMode (asTree f) p.toAbs.names mode)
    rw [PathBuf.names_toAbs]
    exact World.HasTrees.chmod h f p mode
  stat w w' h p := by
    have ht := World.HasTrees.trees h f.index
    have hw := h.wf.fs f.index
    show (((w.fs f.index).resolve p.toAbs).bind fun c => ((w.fs f.index).heap c).bind fun n =>
        some ((w.fs f.index).statNode w.sys n)) =
      ((w'.forest f.index).look (w'.forest f.index).root p.toAbs.names).map
        (FileTree.stat (w'.forest f.index) w'.sys ((w'.forest f.index).root, p.toAbs.names))
    rw [MemoryFS.resolve_toAbs, PathBuf.names_toAbs]
    cases hc : (w.fs f.index).resolveNames p with
    | none =>
      rw [ht.look_path hw, hc]
      rfl
    | some c =>
      obtain ⟨n, e, hn, -, hl, hst, -⟩ := World.HasTrees.node_at h (ht.at_path hw hc)
      rw [Option.bind_some, hn, Option.bind_some, hl, Option.map_some, hst]
  readDir w w' h p := by
    have ht := World.HasTrees.trees h f.index
    have hw := h.wf.fs f.index
    show ((w.fs f.index).resolve p.toAbs).bind (w.fs f.index).readNodeDir =
      ((w'.forest f.index).look (w'.forest f.index).root p.toAbs.names).bind
        (FileTree.list (w'.forest f.index) ((w'.forest f.index).root, p.toAbs.names))
    rw [MemoryFS.resolve_toAbs, PathBuf.names_toAbs]
    cases hc : (w.fs f.index).resolveNames p with
    | none =>
      rw [ht.look_path hw, hc]
      rfl
    | some c =>
      obtain ⟨n, e, -, -, hl, -, hd⟩ := World.HasTrees.node_at h (ht.at_path hw hc)
      rw [Option.bind_some, hl, Option.bind_some, hd]

theorem handles_alike : AlikeHandles (treePairing ι) where
  stat w w' h h' hw hh := by
    obtain ⟨rfl, hk⟩ := hh
    obtain ⟨pl, hat⟩ := (World.HasTrees.trees hw h.nodes.index).placed h.node hk
    obtain ⟨n, e, hn, -, hl, hst, -⟩ := World.HasTrees.node_at hw hat
    have hstat : OpenedFile.stat h w = (w.fs h.nodes.index).statNode w.sys n := by
      unfold OpenedFile.stat instOpenedFileMemoryOpenedFileWorld
      dsimp only
      rw [hn]
    rw [hstat]
    show _ = (((w'.forest h.nodes.index).locate h.node).bind fun pl =>
          ((w'.forest h.nodes.index).look pl.1 pl.2).map
            (FileTree.stat (w'.forest h.nodes.index) w'.sys pl)).getD {}
    rw [hat.locate, Option.bind_some, hl, Option.map_some, Option.getD_some, ← hst]
  openChild w w' h h' hw hh path flags mode := by
    obtain ⟨rfl, hk⟩ := hh
    cases path with
    | abs p => exact .none
    | rel p =>
      obtain ⟨pl, hat⟩ := (World.HasTrees.trees hw h.nodes.index).placed h.node hk
      have ht := World.HasTrees.trees hw h.nodes.index
      have hwf := hw.wf.fs h.nodes.index
      have ho := World.HasTrees.openAt hw h.nodes
        (World.HasTrees.found_at hw h.nodes (ht.resolveRelative_at hwf hat p))
        (ht.relativeTarget_at hwf hat p) flags mode
      refine .some ?_
      show (treePairing ι).SameOpen w w'
        (openedFile h.nodes (openNodeRelative (w.state h.nodes) h.node p flags mode).1,
          w.put h.nodes (openNodeRelative (w.state h.nodes) h.node p flags mode).2)
        (w'.openAt (asTree h.nodes)
          ((((w'.forest h.nodes.index).locate h.node).bind
            (FileTree.walkFrom (w'.forest h.nodes.index) · p)).bind fun pl =>
              (w'.forest h.nodes.index).look pl.1 pl.2)
          (((w'.forest h.nodes.index).locate h.node).bind
            (FileTree.relativeTarget (w'.forest h.nodes.index) · p)) flags mode)
      rw [openNodeRelative_eq, hat.locate, Option.bind_some, Option.bind_some]
      exact ho
  mkdirChild w w' h h' hw hh path mode := by
    obtain ⟨rfl, hk⟩ := hh
    cases path with
    | abs p => exact .none
    | rel p =>
      obtain ⟨pl, hat⟩ := (World.HasTrees.trees hw h.nodes.index).placed h.node hk
      have ht := World.HasTrees.trees hw h.nodes.index
      obtain ⟨hu, hr⟩ := World.HasTrees.makeAt hw h.nodes
        (ht.relativeTarget_at (hw.wf.fs h.nodes.index) hat p) .dir mode
      refine .some ?_
      show (treePairing ι).Same w w'
        (createdStatus (createRelativeNode (w.state h.nodes) h.node p .dir mode).1,
          w.put h.nodes (createRelativeNode (w.state h.nodes) h.node p .dir mode).2)
        (if (w'.makeAt (asTree h.nodes) (((w'.forest h.nodes.index).locate h.node).bind
            (FileTree.relativeTarget (w'.forest h.nodes.index) · p)) .dir mode).1.isSome
          then 0 else -1,
          (w'.makeAt (asTree h.nodes) (((w'.forest h.nodes.index).locate h.node).bind
            (FileTree.relativeTarget (w'.forest h.nodes.index) · p)) .dir mode).2)
      rw [createRelativeNode_eq, hat.locate, Option.bind_some]
      exact ⟨World.HasTrees.made_status hr,
        World.HasTrees.goes (World.createAt_spec hw.wf h.nodes _ .dir mode).changes hu⟩
  readDir w w' h h' hw hh := by
    obtain ⟨rfl, hk⟩ := hh
    obtain ⟨pl, hat⟩ := (World.HasTrees.trees hw h.nodes.index).placed h.node hk
    obtain ⟨n, e, -, -, hl, -, hd⟩ := World.HasTrees.node_at hw hat
    show (w.fs h.nodes.index).readNodeDir h.node =
      ((w'.forest h.nodes.index).locate h.node).bind fun pl =>
        ((w'.forest h.nodes.index).look pl.1 pl.2).bind
          (FileTree.list (w'.forest h.nodes.index) pl)
    rw [hat.locate, Option.bind_some, hl, Option.bind_some, hd]

def TreeWorld.new (n : Nat) (sys : Sys) : TreeWorld (Fin n) where
  forest i := .single ⟨(World.madeSys sys i).nextNodeId, true,
    ⟨0o755, (World.madeSys sys i).takeId.newFd.1⟩⟩ rfl
  sys := World.madeSys sys n
  fresh := by
    intro i r p e he
    obtain ⟨-, he⟩ := Option.ite_none_right_eq_some.mp he
    rw [← Option.some.inj he, World.madeSys_next, World.madeSys_next]
    exact Nat.add_lt_add_left i.isLt _

theorem World.fresh_hasTrees (n : Nat) (sys : Sys) :
    (World.fresh n sys).HasTrees (TreeWorld.new n sys) :=
  ⟨World.fresh_wf n sys, rfl, fun i => new_hasTree (World.madeSys sys i)⟩

def World.elsewhere (live : Finset Int) (w : World ι) : World ι :=
  { w with sys := { w.sys with live } }

def TreeWorld.elsewhere (live : Finset Int) (w : TreeWorld ι) : TreeWorld ι :=
  { w with sys := { w.sys with live }, fresh := w.fresh }

omit [DecidableEq ι] in
theorem World.HasTrees.elsewhere (live : Finset Int) (h : w.HasTrees w') :
    (treePairing ι).Goes w w' (w.elsewhere live) (w'.elsewhere live) := by
  refine ⟨⟨⟨h.wf.fs, h.wf.apart⟩, ?_, h.trees⟩, fun _ _ hh => hh⟩
  show { w'.sys with live } = { w.sys with live }
  rw [h.sys]

namespace RootVFS

/-- Whatever is mounted, plain file systems and overlays of them to any depth: a program
gets the same answers as from directory trees. -/
theorem outputs_trees {k n : Nat} (sys : Sys) (root : Stacked (MemoryRef (Fin k)) n)
    (mounts : PathBuf → Option (Stacked (MemoryRef (Fin k)) n))
    (inodeForPath : List (List UInt8) → Nat) (calls : List VfsCall) :
    Runs.outputs (call World.elsewhere)
        { RootVFS.new root inodeForPath (World.fresh k sys) with mounts } calls =
      Runs.outputs (call TreeWorld.elsewhere)
        { RootVFS.new (Stacked.map asTree n root) inodeForPath (TreeWorld.new k sys) with
          mounts := fun p => (mounts p).map (Stacked.map asTree n) } calls := by
  refine outputs_alike (fun s => Stacked.alike memory_alike n s) handles_alike
    (fun live w w' h => World.HasTrees.elsewhere live h) ?_ calls
  refine ⟨rfl, fun _ => rfl, rfl, rfl, World.fresh_hasTrees k sys, fun fd => ?_⟩
  have hw : ((∅ : Std.ExtTreeMap Int (FdInfo (MemoryOpenedFile (Fin k))) compare))[fd]? = none :=
    Std.ExtTreeMap.getElem?_empty
  have hw' : ((∅ : Std.ExtTreeMap Int (FdInfo (TreeHandle (Fin k))) compare))[fd]? = none :=
    Std.ExtTreeMap.getElem?_empty
  show Option.Rel _ (∅ : Std.ExtTreeMap Int _ compare)[fd]? (∅ : Std.ExtTreeMap Int _ compare)[fd]?
  rw [hw, hw']
  exact .none

end RootVFS

def Backend.asTrees : Backend ι → Stacked (TreeRef ι) 1
  | .memory f => .inl (asTree f)
  | .overlay o => .inr (o.map asTree)

theorem Backend.alike (b : Backend ι) : Alike (treePairing ι) b b.asTrees := by
  cases b with
  | memory f =>
    have h := memory_alike f
    exact ⟨h.access, h.openWithHandle, h.mkdir, h.unlink, h.rmdir, h.rename, h.chmod, h.stat,
      h.readDir⟩
  | overlay o =>
    have h := o.alike memory_alike
    exact ⟨h.access, h.openWithHandle, h.mkdir, h.unlink, h.rmdir, h.rename, h.chmod, h.stat,
      h.readDir⟩

theorem Vfs.step_eq_callOp (v : Vfs ι) (op : VfsOp) :
    v.step op = (v.callOp World.elsewhere op).2 := by
  cases op with
  | getdents64 fd dirpIsNull count =>
    unfold Vfs.step RootVFS.callOp
    dsimp only
    cases v.getdents64 fd dirpIsNull count <;> rfl
  | _ => rfl

theorem Vfs.run_eq_final (v : Vfs ι) (ops : List VfsOp) :
    v.run ops = Runs.final (RootVFS.callOp World.elsewhere) v ops := by
  induction ops generalizing v with
  | nil => rfl
  | cons op ops ih => exact (ih (v.step op)).trans (by rw [v.step_eq_callOp]; rfl)

/-- Along a run of `Vfs` the node maps hold the trees of the run over trees. -/
theorem Vfs.run_hasTrees {v : Vfs ι}
    {v' : RootVFS (Stacked (TreeRef ι) 1) (TreeHandle ι) (TreeWorld ι)}
    (h : RootVFS.Paired (treePairing ι) Backend.asTrees v v') (ops : List VfsOp) :
    (v.run ops).world.HasTrees (Runs.final (RootVFS.callOp TreeWorld.elsewhere) v' ops).world := by
  have hsim : Runs.Simulates (RootVFS.callOp World.elsewhere) (RootVFS.callOp TreeWorld.elsewhere)
      (fun _ _ => True) (RootVFS.Paired (treePairing ι) (Backend.asTrees (ι := ι))) :=
    fun v v' op hv _ =>
      have hc := hv.callOp Backend.alike handles_alike
        (fun live w w' h => World.HasTrees.elsewhere live h) op
      ⟨hc.answer, hc.paired⟩
  rw [v.run_eq_final]
  exact (hsim.related h (.of_forall_mem (P := fun _ => True) fun _ _ => trivial)
    (List.prefix_refl ops)).world

end SandboxVfs
