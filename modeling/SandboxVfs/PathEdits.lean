import SandboxVfs.HandleRoutes
import SandboxVfs.ListingBounds
import SandboxVfs.ReadOnlyLayers

/-! What a call changes about paths: once it has made the parents that it needs in a top
layer, at most one memory file system gets, loses or moves a path. -/

namespace SandboxVfs

open MemoryFS NameGraph LayeredNames

inductive PathEdit where
  | creates (target : Option (NodeId × FileName)) (kind : VfsEntryKind)
  | removes (path : PathBuf) (kind : VfsEntryKind)
  | renames (oldPath newPath : PathBuf)

namespace PathEdit

variable {m : MemoryState}

def Allowed (m : MemoryState) : PathEdit → Prop
  | creates target _ => CanCreate m target
  | removes path kind => m.fs.CanRemove path kind
  | renames oldPath newPath => m.fs.CanMove oldPath newPath

def apply (m : MemoryState) : PathEdit → Layer FileName (NodeId × VfsEntryKind)
  | creates target kind => fun p =>
    if m.fs.resolveParent (PathBuf.toAbs p) = target then some (m.sys.nextNodeId, kind)
    else m.fs.objectAt p
  | removes path _ => erasePath m.fs.objectAt path
  | renames oldPath newPath => movePath m.fs.objectAt oldPath newPath

open Classical in
noncomputable def result (m : MemoryState) (e : PathEdit) :
    Layer FileName (NodeId × VfsEntryKind) :=
  if e.Allowed m then e.apply m else m.fs.objectAt

theorem result_of_allowed {e : PathEdit} (h : e.Allowed m) : e.result m = e.apply m := if_pos h

theorem result_of_not_allowed {e : PathEdit} (h : ¬ e.Allowed m) : e.result m = m.fs.objectAt :=
  if_neg h

theorem objectAt_of_view {fs fs' : MemoryFS} {next next' : NodeId} (h : fs.WF next)
    (h' : fs'.WF next') (hv : fs'.view = fs.view) : fs'.objectAt = fs.objectAt := by
  funext p
  rw [h.objectAt_eq, h'.objectAt_eq, hv]

theorem createAt_result (h : m.fs.WF m.sys.nextNodeId) (target : Option (NodeId × FileName))
    (kind : VfsEntryKind) (mode : Mode) :
    (createAt m target kind mode).2.fs.objectAt = (creates target kind).result m := by
  rcases createAt_cases h target kind mode with
    ⟨sys', he, -⟩ | ⟨m', d, x, n, he, rfl, hid, -, hdir, -, hc⟩
  · have hno : ¬ (creates target kind).Allowed m :=
      (createAt_view_iff h target kind mode).mp (by rw [he])
    rw [result_of_not_allowed hno, he]
  · by_cases hcan : (creates (some (d, x)) kind).Allowed m
    · rw [result_of_allowed hcan, he]
      obtain ⟨d', x', q, ht, hq, -⟩ := hcan
      cases ht
      funext p
      have hparent : m.fs.resolveParent p.toAbs = some (d, x) ↔ p = q ++ [x] := by
        constructor
        · intro hp
          obtain ⟨r, rfl, hr⟩ := resolveParent_toAbs_eq_some hp
          rw [h.resolveNames_inj hr hq]
        · rintro rfl
          rw [resolveParent_toAbs_concat, hq]
          rfl
      simp only [apply, hparent]
      split_ifs with hp
      · have hkind : m'.fs.entryKind n.id = kind := by
          rw [entryKind, hc.isDir_eq, if_pos rfl, hdir]
          cases kind <;> rfl
        rw [hp, MemoryFS.objectAt, hc.resolveNames h hid hq, addPath, if_pos rfl,
          Option.map_some, hkind,
          hid]
      · exact hc.objectAt h hid hq hp
    · have hv := (createAt_view_iff h (some (d, x)) kind mode).mpr hcan
      rw [he] at hv
      rw [result_of_not_allowed hcan, he]
      exact objectAt_of_view h (hc.wf h hid) hv

theorem removeNodeAt_result (h : m.fs.WF m.sys.nextNodeId) (p : PathBuf) (kind : VfsEntryKind) :
    (m.fs.removeNodeAt p.toAbs kind).2.objectAt = (removes p kind).result m := by
  have hcan : m.fs.CanRemove p kind ↔ (m.fs.removeNodeAt p.toAbs kind).1 = 0 :=
    (removeNodeAt_toAbs_iff h p kind).symm
  rcases removeNodeAt_toAbs_cases h p kind with he | ⟨fs', q, x, d, c, he, rfl, hq, -, -, hr, -⟩
  · have hno : ¬ (removes p kind).Allowed m := by
      intro hh
      have hz := hcan.mp hh
      rw [he] at hz
      cases hz
    rw [result_of_not_allowed hno, he]
  · have hyes : (removes (q ++ [x]) kind).Allowed m := hcan.mpr (by rw [he])
    rw [result_of_allowed hyes, he]
    exact hr.objectAt h hq

theorem renameNodeAt_result (h : m.fs.WF m.sys.nextNodeId) (old new : PathBuf) :
    ((m.fs.renameNodeAt old.toAbs new.toAbs).getD m.fs).objectAt = (renames old new).result m := by
  by_cases hne : old = new
  · subst hne
    have hno : ¬ (renames old old).Allowed m := fun hh => CanMove.ne hh rfl
    rw [renameNodeAt_same, result_of_not_allowed hno]
    split_ifs <;> rfl
  · have hcan : (renames old new).Allowed m ↔ _ := (renameNodeAt_isSome_iff h hne).symm
    cases hr : m.fs.renameNodeAt old.toAbs new.toAbs with
    | none =>
      rw [result_of_not_allowed (by simp [hcan, hr])]
      rfl
    | some fs' =>
      obtain ⟨pa, x, a, pb, y, b, c, replaced, -, -, -, -, -, hm, -, -, hp⟩ :=
        renameNodeAt_toAbs h hne hr
      rw [result_of_allowed (by simp [hcan, hr])]
      exact hm.objectAt hp

theorem openAt_result (h : m.fs.WF m.sys.nextNodeId) {existing : Option NodeId}
    {target : Option (NodeId × FileName)}
    (hex : CanCreate m target → existing = none) (flags : Flags) (mode : Mode) :
    (openAt m existing target flags mode).2.fs.objectAt =
      if flags.has O_CREAT then (creates target .file).result m else m.fs.objectAt := by
  cases existing with
  | some node =>
    have hno : ¬ (creates target .file).Allowed m := fun hc => by cases hex hc
    rw [openAt_fs_some, result_of_not_allowed hno, ite_self]
  | none =>
    rw [openAt_fs_none]
    split_ifs
    · exact createAt_result h target .file mode
    · rfl

/-- The edit takes the path `p` away. -/
def Vacates (p : PathBuf) : PathEdit → Prop
  | creates _ _ => False
  | removes path _ => path = p
  | renames oldPath _ => oldPath = p

/-- The edit puts at `p` what was elsewhere. -/
def Fills (p : PathBuf) : PathEdit → Prop
  | renames _ newPath => newPath = p
  | _ => False

/-- The edit moves what is at `q`, or what replaces it, with everything above. -/
def Carries (q : PathBuf) : PathEdit → Prop
  | renames oldPath newPath => oldPath <+: q ∨ newPath <+: q
  | _ => False

/-- The edit puts at `p` what is new, or what was elsewhere. -/
def Puts (m : MemoryState) (p : PathBuf) : PathEdit → Prop
  | creates target _ => m.fs.resolveParent (PathBuf.toAbs p) = target
  | removes _ _ => False
  | renames _ newPath => newPath = p

/-- Where a rename takes what it leaves at `q` from, if it leaves anything there. -/
def origin (q : PathBuf) : PathEdit → Option PathBuf
  | renames oldPath newPath =>
    if newPath <+: q then some (oldPath ++ q.drop newPath.length)
    else if oldPath <+: q then none
    else some q
  | _ => some q

variable {e : PathEdit} {q : PathBuf} {x : FileName}

theorem source_of_canMove {old new : PathBuf} (h : m.fs.CanMove old new) :
    m.fs.objectAt old ≠ none := by
  obtain ⟨c, hc, -⟩ := h.source
  simp [objectAt_eq_none_iff, hc]

theorem vacates_inj {p p' : PathBuf} (h : e.Vacates p) (h' : e.Vacates p') : p = p' := by
  cases e with
  | creates target kind => exact h.elim
  | removes path kind => exact h.symm.trans h'
  | renames old new => exact h.symm.trans h'

theorem source_of_vacates {p : PathBuf} (ha : e.Allowed m) (h : e.Vacates p) :
    m.fs.objectAt p ≠ none := by
  cases e with
  | creates target kind => exact h.elim
  | removes path kind =>
    cases h
    obtain ⟨-, c, hc, -⟩ := ha
    simp [objectAt_eq_none_iff, hc]
  | renames old new =>
    cases h
    exact source_of_canMove ha

theorem apply_of_fills {p : PathBuf} (ha : e.Allowed m) (h : e.Fills p) : e.apply m p ≠ none := by
  cases e with
  | renames old new =>
    cases h
    simpa [apply, movePath] using source_of_canMove ha
  | _ => exact h.elim

theorem vacated_of_apply (h : m.fs.WF m.sys.nextNodeId) (ha : e.Allowed m) (hq : ¬ e.Carries q)
    (hx : m.fs.objectAt (q ++ [x]) ≠ none) (hx' : e.apply m (q ++ [x]) = none) :
    e.Vacates (q ++ [x]) := by
  cases e with
  | creates target kind =>
    simp only [apply] at hx'
    split_ifs at hx'
    exact hx hx'
  | removes p kind =>
    obtain ⟨-, c, hc, hk⟩ := ha
    simp only [apply, erasePath] at hx'
    split_ifs at hx' with hp
    · obtain ⟨s, hs⟩ := hp
      obtain ⟨d, hd⟩ := Option.ne_none_iff_exists'.mp (objectAt_eq_none_iff.not.mp hx)
      rw [← hs] at hd
      have hnil := h.eq_nil_of_childless hc (childless_of_kindMatches hk) hd
      rwa [hnil, List.append_nil] at hs
    · exact absurd hx' hx
  | renames old new =>
    have hno : ¬ old <+: q ∧ ¬ new <+: q := not_or.mp hq
    simp only [apply, movePath] at hx'
    split_ifs at hx' with hn ho
    · rw [(List.prefix_concat_iff.mp hn).resolve_right hno.2, List.drop_length,
        List.append_nil] at hx'
      exact absurd hx' (source_of_canMove ha)
    · exact (List.prefix_concat_iff.mp ho).resolve_right hno.1
    · exact absurd hx' hx

theorem apply_of_carries (h : m.fs.WF m.sys.nextNodeId) (ha : e.Allowed m) (hc : e.Carries q)
    (r : PathBuf) : e.apply m (q ++ r) = (e.origin q).bind fun s => m.fs.objectAt (s ++ r) := by
  cases e with
  | renames old new =>
    obtain ⟨fs', hr⟩ := Option.isSome_iff_exists.mp
      ((renameNodeAt_isSome_iff h (CanMove.ne ha)).mpr ha)
    obtain ⟨hnew, hold⟩ := h.not_prefix_of_renamed (CanMove.ne ha) hr
    show movePath m.fs.objectAt old new (q ++ r) = _
    by_cases hq : new <+: q
    · obtain ⟨s, rfl⟩ := hq
      rw [origin, if_pos (List.prefix_append new s), List.drop_left, List.append_assoc, movePath_below,
        Option.bind_some, List.append_assoc]
    · obtain ⟨s, rfl⟩ := hc.resolve_right hq
      rw [origin, if_neg hq, if_pos (List.prefix_append old s), List.append_assoc,
        movePath_old hnew hold]
      rfl
  | _ => exact hc.elim

/-- An edit that moves nothing from or to `q`, and takes no name away there, leaves at `q`
what it finds and what it puts there. -/
theorem apply_concat_iff (hc : ¬ e.Carries q) (hv : ¬ e.Vacates (q ++ [x]))
    (hr : ∀ path kind, e = .removes path kind → m.fs.objectAt (q ++ [x]) = none)
    (ha : e.Allowed m) :
    e.apply m (q ++ [x]) ≠ none ↔ m.fs.objectAt (q ++ [x]) ≠ none ∨ e.Puts m (q ++ [x]) := by
  cases e with
  | creates target kind =>
    simp only [apply, Puts]
    split_ifs with ht <;> simp [ht]
  | removes path kind =>
    rw [hr path kind rfl]
    simp only [apply, erasePath, Puts]
    split_ifs <;> simp [hr path kind rfl]
  | renames old new =>
    have hno : ¬ old <+: q ∧ ¬ new <+: q := not_or.mp hc
    have hold : ¬ old <+: q ++ [x] := fun hp => hv ((List.prefix_concat_iff.mp hp).resolve_right hno.1)
    by_cases hn : new = q ++ [x]
    · subst hn
      exact iff_of_true (apply_of_fills ha rfl) (Or.inr rfl)
    · have hnew : ¬ new <+: q ++ [x] := fun hp =>
        hn ((List.prefix_concat_iff.mp hp).resolve_right hno.2)
      simp [apply, movePath, hold, hnew, Puts, hn]

/-- Such an edit leaves a directory at `q` if there is one, or if it makes it. -/
theorem apply_dir_iff (hc : ¬ e.Carries q)
    (hr : ∀ path kind, e = .removes path kind →
      ¬ ∃ u, m.fs.objectAt q = some u ∧ u.2 = .dir)
    (ha : e.Allowed m) (h : m.fs.WF m.sys.nextNodeId) :
    (∃ u, e.apply m q = some u ∧ u.2 = .dir) ↔
      (∃ u, m.fs.objectAt q = some u ∧ u.2 = .dir) ∨
        ∃ target, e = .creates target .dir ∧ e.Puts m q := by
  cases e with
  | creates target kind =>
    simp only [apply, Puts]
    split_ifs with ht
    · have hnone : m.fs.objectAt q = none := by
        obtain ⟨d, x, r, rfl, -, hd, hx, -⟩ := ha
        exact objectAt_eq_none_iff.mpr ((h.vacant_iff q).mp ⟨d, x, ht, hd, hx⟩).1
      cases kind <;> simp [hnone, ht]
    · simp [ht]
  | removes path kind =>
    refine iff_of_false ?_ ?_
    · rintro ⟨u, hu, hdir⟩
      simp only [apply, erasePath] at hu
      split_ifs at hu
      exact hr path kind rfl ⟨u, hu, hdir⟩
    · rintro (hu | ⟨target, he, -⟩)
      · exact hr path kind rfl hu
      · cases he
  | renames old new =>
    have hno : ¬ old <+: q ∧ ¬ new <+: q := not_or.mp hc
    simp [apply, movePath, hno]

theorem not_carries_of_vacates (h : m.fs.WF m.sys.nextNodeId) (ha : e.Allowed m)
    (hv : e.Vacates (q ++ [x])) : ¬ e.Carries q := by
  cases e with
  | creates target kind => exact hv.elim
  | removes p kind => exact id
  | renames old new =>
    cases hv
    rintro (ho | hn)
    · have hlen := ho.length_le
      simp at hlen
    · obtain ⟨fs', hr⟩ := Option.isSome_iff_exists.mp
        ((renameNodeAt_isSome_iff h (CanMove.ne ha)).mpr ha)
      exact (h.not_prefix_of_renamed (CanMove.ne ha) hr).1 (hn.trans (List.prefix_append q [x]))

theorem apply_of_vacates (h : m.fs.WF m.sys.nextNodeId) (ha : e.Allowed m)
    (hv : e.Vacates (q ++ [x])) : e.apply m q = m.fs.objectAt q := by
  have hno := not_carries_of_vacates h ha hv
  cases e with
  | creates target kind => exact hv.elim
  | removes p kind =>
    cases hv
    refine if_neg fun hp => ?_
    have hlen := hp.length_le
    simp at hlen
  | renames old new =>
    have hno : ¬ old <+: q ∧ ¬ new <+: q := not_or.mp hno
    simp [apply, movePath, hno]

theorem kept_of_apply (h : m.fs.WF m.sys.nextNodeId) (ha : e.Allowed m)
    (hv : e.Vacates (q ++ [x])) {y : FileName} (hy : e.apply m (q ++ [y]) ≠ none) :
    y ≠ x ∧ (m.fs.objectAt (q ++ [y]) ≠ none ∨ e.Fills (q ++ [y])) := by
  have hno := not_carries_of_vacates h ha hv
  cases e with
  | creates target kind => exact hv.elim
  | removes p kind =>
    cases hv
    simp only [apply, erasePath] at hy
    split_ifs at hy with hp
    · exact absurd rfl hy
    · refine ⟨?_, Or.inl hy⟩
      rintro rfl
      exact hp List.prefix_rfl
  | renames old new =>
    cases hv
    have hno : ¬ q ++ [x] <+: q ∧ ¬ new <+: q := not_or.mp hno
    simp only [apply, movePath] at hy
    split_ifs at hy with hn ho
    · have hnew := (List.prefix_concat_iff.mp hn).resolve_right hno.2
      refine ⟨?_, Or.inr hnew⟩
      rintro rfl
      exact CanMove.ne ha hnew.symm
    · exact absurd rfl hy
    · refine ⟨?_, Or.inl hy⟩
      rintro rfl
      exact ho List.prefix_rfl

end PathEdit

variable {ι : Type} [DecidableEq ι]

namespace World

variable {w w' : World ι} {S : Set ι}

def objects (w : World ι) (f : MemoryRef ι) : Layer FileName (NodeId × VfsEntryKind) :=
  (w.fs f.index).objectAt

noncomputable def edited (w : World ι) (f : MemoryRef ι) (e : PathEdit) :
    MemoryRef ι → Layer FileName (NodeId × VfsEntryKind) :=
  Function.update w.objects f (e.result (w.state f))

omit [DecidableEq ι] in
theorem objects_congr (h : w'.fs = w.fs) : w'.objects = w.objects := by
  funext f
  rw [objects, objects, h]

theorem objects_put (w : World ι) (f : MemoryRef ι) (m : MemoryState) :
    (w.put f m).objects = Function.update w.objects f m.fs.objectAt := by
  funext g
  by_cases hg : g = f
  · subst hg
    rw [Function.update_self, objects, put_fs]
  · rw [Function.update_of_ne hg, objects, put_fs_ne w f m fun hi => hg (congrArg MemoryRef.mk hi),
      objects]

theorem objects_putFs (w : World ι) (f : MemoryRef ι) (fs : MemoryFS) :
    (w.putFs f fs).objects = Function.update w.objects f fs.objectAt :=
  objects_put w f ⟨fs, w.sys⟩

omit [DecidableEq ι] in
theorem Grows.objects (hw : w.WF) (h : Grows S w w') {f : MemoryRef ι} {p : PathBuf}
    {v : NodeId × VfsEntryKind} (hv : w.objects f p = some v) : w'.objects f p = some v := by
  obtain ⟨c, hc, rfl⟩ := Option.map_eq_some_iff.mp hv
  have hroot : (w'.fs f.index).root = (w.fs f.index).root := by
    refine h.changes.fs_inv (P := fun fs => fs.root = (w.fs f.index).root) ?_ rfl
    intro fs fs' hch hr
    rw [hch.root, hr]
  have hc' : (w'.fs f.index).resolveNames p = some c := by
    rw [(hw.fs f.index).resolveNames_eq] at hc
    rw [((h.wf hw).fs f.index).resolveNames_eq, hroot]
    exact walk_of_le (fun _ _ _ hx => h.entryAt hx) hc
  have hkind :=
    h.changes.isDir_eq ((hw.fs f.index).mem_heap c ((hw.fs f.index).resolveNames_mem hc))
  show ((w'.fs f.index).resolveNames p).map _ = _
  rw [hc', Option.map_some, entryKind, hkind]
  rfl

end World

namespace Vfs

variable {v : Vfs ι}

/-- What a call that may create does by path: the world it has made ready, and the edit
that it then asks for. -/
def createEdit (v : Vfs ι) (p : PathBuf) (writing : Bool) (made : Option VfsEntryKind) :
    World ι × Option (MemoryRef ι × PathEdit) :=
  let target := v.absolutePathToFs p
  let f := (v.fsAt target.1).layerFor v.world target.2 writing
  let w := (v.fsAt target.1).readied v.world target.2 writing
  (w, made.map fun kind => (f, .creates ((w.fs f.index).resolveParent target.2.toAbs) kind))

def childEdit (v : Vfs ι) (h : MemoryOpenedFile ι) (p : RelPath) (made : Option VfsEntryKind) :
    World ι × Option (MemoryRef ι × PathEdit) :=
  (v.world, made.map fun kind =>
    (h.nodes, .creates ((v.world.fs h.nodes.index).resolveRelativeParent h.node p) kind))

/-- `openat` and `mkdirat` start from the handle of a directory, or go by path. -/
def createEditAt (v : Vfs ι) (dirfd : Int) (path : Path) (writing : Bool)
    (made : Option VfsEntryKind) : World ι × Option (MemoryRef ι × PathEdit) :=
  match path with
  | .abs p => v.createEdit (normalizeAbsolute p) writing made
  | .rel p =>
    match v.handleOf dirfd with
    | some h => v.childEdit h p made
    | none =>
      (v.resolveOpenatPath dirfd (.rel p)).elim (v.world, none) (v.createEdit · writing made)

def removeEdit (v : Vfs ι) (p : PathBuf) (kind : VfsEntryKind) :
    World ι × Option (MemoryRef ι × PathEdit) :=
  let target := v.absolutePathToFs p
  (v.world, some ((v.fsAt target.1).acting v.world target.2.toAbs, .removes target.2 kind))

def renameEdit (v : Vfs ι) (oldPath newPath : PathBuf) :
    World ι × Option (MemoryRef ι × PathEdit) :=
  let old := v.absolutePathToFs oldPath
  let new := v.absolutePathToFs newPath
  if old.1 = new.1 then
    ((v.fsAt old.1).preparedFor v.world old.2.toAbs new.2.toAbs,
      some ((v.fsAt old.1).acting v.world old.2.toAbs, .renames old.2 new.2))
  else (v.world, none)

def createdKind (flags : Flags) : Option VfsEntryKind :=
  if flags.has O_CREAT then some .file else none

def edit (v : Vfs ι) : VfsOp → World ι × Option (MemoryRef ι × PathEdit)
  | .openPath path flags _ =>
    v.createEdit (v.resolvePath path) (OverlayFS.writes flags) (createdKind flags)
  | .openat dirfd path flags _ =>
    v.createEditAt dirfd path (OverlayFS.writes flags) (createdKind flags)
  | .mkdir path _ => v.createEdit (v.resolvePath path) true (some .dir)
  | .mkdirat dirfd path _ => v.createEditAt dirfd path true (some .dir)
  | .unlink path => v.removeEdit (v.resolvePath path) .file
  | .rmdir path => v.removeEdit (v.resolvePath path) .dir
  | .unlinkat dirfd path flags =>
    (v.resolveOpenatPath dirfd path).elim (v.world, none)
      (v.removeEdit · (if flags.has AT_REMOVEDIR then .dir else .file))
  | .rename oldPath newPath => v.renameEdit (v.resolvePath oldPath) (v.resolvePath newPath)
  | .renameat oldDirfd oldPath newDirfd newPath =>
    match v.resolveOpenatPath oldDirfd oldPath, v.resolveOpenatPath newDirfd newPath with
    | some old, some new => v.renameEdit old new
    | _, _ => (v.world, none)
  | _ => (v.world, none)

/-- Where the paths of the file systems lead once an edit was tried. -/
noncomputable def objectsAfter (r : World ι × Option (MemoryRef ι × PathEdit)) :
    MemoryRef ι → Layer FileName (NodeId × VfsEntryKind) :=
  r.2.elim r.1.objects fun e => r.1.edited e.1 e.2

theorem open_objects {w : World ι} (hw : w.WF) (f : MemoryRef ι) {existing : Option NodeId}
    {target : Option (NodeId × FileName)}
    (hex : CanCreate (w.state f) target → existing = none) (flags : Flags) (mode : Mode) :
    (w.put f (openAt (w.state f) existing target flags mode).2).objects =
      objectsAfter (w, (createdKind flags).map fun kind => (f, .creates target kind)) := by
  rw [World.objects_put, PathEdit.openAt_result (m := w.state f) (hw.fs f.index) hex]
  unfold createdKind
  split_ifs
  · rfl
  · exact Function.update_eq_self f w.objects

theorem create_objects {w : World ι} (hw : w.WF) (f : MemoryRef ι)
    (target : Option (NodeId × FileName)) (kind : VfsEntryKind) (mode : Mode) :
    (w.put f (createAt (w.state f) target kind mode).2).objects =
      objectsAfter (w, some (f, .creates target kind)) := by
  rw [World.objects_put, PathEdit.createAt_result (m := w.state f) (hw.fs f.index)]
  rfl

theorem openVirtual_objects (hv : v.WF) (p : PathBuf) (flags : Flags) (mode : Mode) :
    (v.openVirtual p flags mode).2.world.objects =
      objectsAfter (v.createEdit p (OverlayFS.writes flags) (createdKind flags)) := by
  have hwf := (Backend.readied_grows hv.world (v.fsAt (v.absolutePathToFs p).1)
    (v.absolutePathToFs p).2 (OverlayFS.writes flags)).wf hv.world
  have he : (v.openVirtual p flags mode).2.world =
      (LowLevelFS.openWithHandle (v.fsAt (v.absolutePathToFs p).1) v.world
        (v.absolutePathToFs p).2.toAbs flags mode).2 := RootVFS.trackOpen_world _ _ _
  rw [he, Backend.openWithHandle_eq]
  dsimp only
  rw [openNode_eq, resolve_toAbs]
  refine open_objects hwf _ ?_ flags mode
  rintro ⟨d, x, q, ht, hq, hd, hx, -⟩
  exact (((hwf.fs _).vacant_iff _).mp ⟨d, x, ht, hd, hx⟩).1

theorem mkdirVirtual_objects (hv : v.WF) (p : PathBuf) (mode : Mode) :
    (v.dispatch (fun fs w p => LowLevelFS.mkdir fs w p mode) p).2.world.objects =
      objectsAfter (v.createEdit p true (some .dir)) := by
  have hwf := (Backend.readied_grows hv.world (v.fsAt (v.absolutePathToFs p).1)
    (v.absolutePathToFs p).2 true).wf hv.world
  show (LowLevelFS.mkdir (v.fsAt (v.absolutePathToFs p).1) v.world _ mode).2.objects = _
  rw [Backend.mkdir_eq]
  dsimp only
  rw [createNode_eq]
  exact create_objects hwf _ _ .dir mode

theorem openat_objects (hv : v.WF) (dirfd : Int) (path : Path) (flags : Flags) (mode : Mode) :
    (v.openat dirfd path flags mode).2.world.objects =
      objectsAfter (v.createEditAt dirfd path (OverlayFS.writes flags) (createdKind flags)) := by
  cases path with
  | abs p => exact openVirtual_objects hv _ flags mode
  | rel p =>
    cases hh : v.handleOf dirfd with
    | none =>
      rw [RootVFS.openat_of_no_handle hh]
      simp only [createEditAt, hh]
      cases v.resolveOpenatPath dirfd (.rel p) with
      | none => rfl
      | some path => exact openVirtual_objects hv path flags mode
    | some h =>
      obtain ⟨path, -, he⟩ := RootVFS.openat_of_handle hh p flags mode rfl
      rw [he, RootVFS.trackOpen_world]
      simp only [createEditAt, hh]
      dsimp only [RootVFS.setWorld]
      rw [openNodeRelative_eq]
      refine open_objects hv.world h.nodes ?_ flags mode
      rintro ⟨d, x, q, ht, -, -, hx, -⟩
      exact ((hv.world.fs h.nodes.index).resolveRelative_of_parent ht).trans hx

theorem mkdirat_objects (hv : v.WF) (dirfd : Int) (path : Path) (mode : Mode) :
    (v.mkdirat dirfd path mode).2.world.objects =
      objectsAfter (v.createEditAt dirfd path true (some .dir)) := by
  cases path with
  | abs p => exact mkdirVirtual_objects hv _ mode
  | rel p =>
    cases hh : v.handleOf dirfd with
    | none =>
      rw [RootVFS.mkdirat_of_no_handle hh]
      simp only [createEditAt, hh]
      cases v.resolveOpenatPath dirfd (.rel p) with
      | none => rfl
      | some path => exact mkdirVirtual_objects hv path mode
    | some h =>
      rw [RootVFS.mkdirat_of_handle hh p mode rfl]
      simp only [createEditAt, hh]
      dsimp only [RootVFS.setWorld]
      rw [createRelativeNode_eq]
      exact create_objects hv.world h.nodes _ .dir mode

theorem remove_objects (hv : v.WF) (p : PathBuf) (kind : VfsEntryKind)
    {op : Backend ι → World ι → AbsPath → Int × World ι}
    (hop : ∀ b path, (op b v.world path).2 = v.world.putFs (b.acting v.world path)
      ((v.world.fs (b.acting v.world path).index).removeNodeAt path kind).2) :
    (v.dispatch op p).2.world.objects = objectsAfter (v.removeEdit p kind) := by
  show (op _ v.world _).2.objects = _
  rw [hop, World.objects_putFs]
  exact congrArg _ (PathEdit.removeNodeAt_result (m := v.world.state _) (hv.world.fs _) _ kind)

theorem renameVirtual_objects (hv : v.WF) (oldPath newPath : PathBuf) :
    (v.renameVirtual oldPath newPath).2.world.objects =
      objectsAfter (v.renameEdit oldPath newPath) := by
  rw [renameVirtual_world]
  unfold renameEdit
  dsimp only
  split_ifs with hsame
  · have hwf := (Backend.preparedFor_grows hv.world (v.fsAt (v.absolutePathToFs oldPath).1)
      (v.absolutePathToFs oldPath).2.toAbs (v.absolutePathToFs newPath).2.toAbs).wf hv.world
    rw [Backend.rename_eq, OverlayFS.rename_world, World.objects_putFs]
    exact congrArg _ (PathEdit.renameNodeAt_result (m := World.state _ _) (hwf.fs _) _ _)
  · rfl

theorem chmod_objects (hv : v.WF) (f : MemoryRef ι) (path : AbsPath) (mode : Mode) :
    (LowLevelFS.chmod f v.world path mode).2.objects = v.world.objects := by
  rw [OverlayFS.chmod_world, World.objects_putFs]
  cases hc : (v.world.fs f.index).chmod path mode with
  | none => exact Function.update_eq_self f v.world.objects
  | some fs' =>
    obtain ⟨id, -, hm⟩ := chmod_cases hc
    have hobj : fs'.objectAt = (v.world.fs f.index).objectAt := by
      funext p
      have hkind (c : NodeId) : fs'.entryKind c = (v.world.fs f.index).entryKind c := by
        rw [entryKind, hm.isDir_eq, entryKind]
      rw [objectAt, hm.resolveNames (hv.world.fs f.index), objectAt]
      simp only [hkind]
    rw [Option.getD_some, hobj]
    exact Function.update_eq_self f v.world.objects

/-- What the edit of a call says is what the call does. -/
theorem step_objects (hv : v.WF) (op : VfsOp) :
    (v.step op).world.objects = objectsAfter (v.edit op) := by
  cases op with
  | openPath path flags mode => exact openVirtual_objects hv _ flags mode
  | openat dirfd path flags mode => exact openat_objects hv dirfd path flags mode
  | mkdir path mode => exact mkdirVirtual_objects hv _ mode
  | mkdirat dirfd path mode => exact mkdirat_objects hv dirfd path mode
  | unlink path => exact remove_objects hv _ .file fun b p => by rw [Backend.unlink_eq]; rfl
  | rmdir path => exact remove_objects hv _ .dir fun b p => by rw [Backend.rmdir_eq]; rfl
  | unlinkat dirfd path flags =>
    cases hp : v.resolveOpenatPath dirfd path with
    | none =>
      simp only [step, edit, RootVFS.unlinkat, hp]
      rfl
    | some p =>
      simp only [step, edit, RootVFS.unlinkat, hp]
      split_ifs
      · exact remove_objects hv p .dir fun b p => by rw [Backend.rmdir_eq]; rfl
      · exact remove_objects hv p .file fun b p => by rw [Backend.unlink_eq]; rfl
  | rename oldPath newPath =>
    simp only [step, RootVFS.rename, RootVFS.renameat, RootVFS.resolveOpenatPath_cwd]
    exact renameVirtual_objects hv _ _
  | renameat oldDirfd oldPath newDirfd newPath =>
    cases hold : v.resolveOpenatPath oldDirfd oldPath with
    | none =>
      simp only [step, edit, RootVFS.renameat, hold]
      rfl
    | some old =>
      cases hnew : v.resolveOpenatPath newDirfd newPath with
      | none =>
        simp only [step, edit, RootVFS.renameat, hold, hnew]
        rfl
      | some new =>
        simp only [step, edit, RootVFS.renameat, hold, hnew]
        exact renameVirtual_objects hv old new
  | chmod path mode =>
    show (LowLevelFS.chmod (v.fsAt _) v.world _ mode).2.objects = v.world.objects
    cases v.fsAt (v.absolutePathToFs (v.resolvePath path)).1 with
    | memory f => exact chmod_objects hv f _ mode
    | overlay o => exact chmod_objects hv _ _ mode
  | forgetFd fd => rfl
  | cloneFd oldfd newfd =>
    exact World.objects_congr (congrArg World.fs (RootVFS.cloneFd_world v oldfd newfd))
  | setCwd path => rfl
  | getdents64 fd dirpIsNull count =>
    rcases getdents64_step_cases v fd dirpIsNull count with he | ⟨info, n, he, -⟩ <;> rw [he] <;>
      rfl
  | elsewhere live => rfl

end Vfs

end SandboxVfs
