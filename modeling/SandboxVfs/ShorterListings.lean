import SandboxVfs.MergedListings
import SandboxVfs.PathEdits

/-! When a directory gets shorter behind a descriptor that is listed by its path. -/

namespace SandboxVfs

open MemoryFS LayeredNames NameGraph

variable {ι : Type} [DecidableEq ι]

theorem length_eq_ncard {es : List VfsDirEntry} {s : Set FileName}
    (hn : (es.map (·.name)).Nodup) (hb : ∀ e ∈ es, ∃ x : FileName, e.name = x.bytes)
    (hs : ∀ x, x ∈ s ↔ ∃ e ∈ es, e.name = x.bytes) : es.length = s.ncard := by
  have hinj : Function.Injective FileName.bytes := fun a b h => FileName.ext h
  have himage : FileName.bytes '' s = ↑(es.map (·.name)).toFinset := by
    ext b
    simp only [Set.mem_image, List.coe_toFinset, List.mem_map, Set.mem_ofPred_eq]
    constructor
    · rintro ⟨x, hx, rfl⟩
      exact (hs x).mp hx
    · rintro ⟨e, he, rfl⟩
      obtain ⟨x, hx⟩ := hb e he
      exact ⟨x, (hs x).mpr ⟨e, he, hx⟩, hx.symm⟩
  rw [← Set.ncard_image_of_injective s hinj, himage, Set.ncard_coe_finset,
    List.toFinset_card_of_nodup hn, List.length_map]

namespace Backend

variable {w : World ι}

omit [DecidableEq ι] in
theorem names_finite (hw : w.WF) (b : Backend ι) (q : PathBuf) :
    (names b.layers w.objects q).Finite := by
  have hone (f : MemoryRef ι) : {x | w.objects f (q ++ [x]) ≠ none}.Finite := by
    cases hq : (w.fs f.index).resolveNames q with
    | none =>
      have hempty : {x | w.objects f (q ++ [x]) ≠ none} = ∅ := by
        ext x
        simp [World.objects, objectAt_eq_none_iff, (hw.fs f.index).resolveNames_concat, hq]
      rw [hempty]
      exact Set.finite_empty
    | some d =>
      refine ((w.fs f.index).namesIn d).finite_toSet.subset fun x hx => ?_
      have hsome : (w.fs f.index).entryAt d x ≠ none := by
        simpa [World.objects, objectAt_eq_none_iff, (hw.fs f.index).resolveNames_concat, hq]
          using hx
      exact mem_namesIn.mpr (Option.ne_none_iff_exists'.mp hsome)
  have hunion : names b.layers w.objects q =
      ⋃ f ∈ {f | f ∈ b.layers}, {x | w.objects f (q ++ [x]) ≠ none} := by
    ext x
    simp [names]
  rw [hunion]
  exact b.layers.finite_toSet.biUnion fun f _ => hone f

theorem readDir_names (hw : w.WF) (b : Backend ι) (q : PathBuf) :
    ((LowLevelFS.readDir b w q.toAbs).isSome = true ↔
        HasDir OverlayFS.IsDirObject b.layers w.objects q) ∧
      ∀ es, LowLevelFS.readDir b w q.toAbs = some es →
        es.length = (names b.layers w.objects q).ncard := by
  cases b with
  | memory f =>
    refine ⟨?_, fun es hes => ?_⟩
    · have hread : LowLevelFS.readDir (Backend.memory f) w q.toAbs =
          LowLevelFS.readDir f w q.toAbs := rfl
      rw [hread, World.memory_readDir_isSome_iff hw, ← OverlayFS.isDirObject_iff]
      simp [HasDir, layers, World.objects]
    · obtain ⟨hn, hb, hmem⟩ := (OverlayFS.memory_readDir_names hw f q).1 es hes
      refine length_eq_ncard hn hb fun x => ?_
      rw [hmem]
      simp [names, layers, World.objects]
  | overlay o =>
    obtain ⟨hnone, hsome⟩ := o.readDir_first w q.toAbs
    refine ⟨?_, fun es hes => ?_⟩
    · show (LowLevelFS.readDir o w q.toAbs).isSome = true ↔ _
      rw [← Option.ne_none_iff_isSome, ne_eq, hnone]
      push Not
      refine exists_congr fun f => and_congr_right fun _ => ?_
      rw [Option.ne_none_iff_isSome]
      exact (World.memory_readDir_isSome_iff hw f q).trans (OverlayFS.isDirObject_iff _ q).symm
    · refine length_eq_ncard (hsome es hes).1 (fun e he => ?_) fun x => ?_
      · obtain ⟨f, -, l, hl, hel⟩ := OverlayFS.mem_readDir hes he
        exact ((OverlayFS.memory_readDir_names hw f q).1 l hl).2.1 e hel
      · have hentry := OverlayFS.entryNamed_readDir hw hes x
        rw [← not_iff_not, ← OverlayFS.entryNamed_eq_none_iff, hentry, Option.map_eq_none_iff,
          lookup_eq_none_iff]
        simp [names, layers, OverlayFS.objects, World.objects]

end Backend

theorem MemoryFS.WF.dirObject_above {fs : MemoryFS} {next : NodeId} (h : fs.WF next) {q : PathBuf}
    {x : FileName} (hx : fs.objectAt (q ++ [x]) ≠ none) :
    ∃ v, fs.objectAt q = some v ∧ OverlayFS.IsDirObject v := by
  obtain ⟨c, hc⟩ := Option.ne_none_iff_exists'.mp (objectAt_eq_none_iff.not.mp hx)
  obtain ⟨d, hd, hdir⟩ := h.resolveNames_of_append hc
  exact (OverlayFS.isDirObject_iff fs q).mpr ⟨d, hd, hdir (by simp)⟩

namespace Vfs

variable {v : Vfs ι} {op : VfsOp}

def served (v : Vfs ι) (p : PathBuf) : Backend ι × PathBuf :=
  (v.fsAt (v.absolutePathToFs p).1, (v.absolutePathToFs p).2)

def namesAt (v : Vfs ι) (F : MemoryRef ι → Layer FileName (NodeId × VfsEntryKind)) (p : PathBuf) :
    Set FileName :=
  names (v.served p).1.layers F (v.served p).2

def HasDirAt (v : Vfs ι) (F : MemoryRef ι → Layer FileName (NodeId × VfsEntryKind)) (p : PathBuf) :
    Prop :=
  HasDir OverlayFS.IsDirObject (v.served p).1.layers F (v.served p).2

/-- The call changes, by `e`, a file system that `p` leads to. -/
def Edits (v : Vfs ι) (op : VfsOp) (p : PathBuf) (f : MemoryRef ι) (e : PathEdit) : Prop :=
  (v.edit op).2 = some (f, e) ∧ e.Allowed ((v.edit op).1.state f) ∧ f ∈ (v.served p).1.layers

/-- The call takes a name away from `p` that no other layer has there, and puts no new one
there, when all `n` entries were read. -/
def TakesReadName (v : Vfs ι) (op : VfsOp) (p : PathBuf) (n : Nat) : Prop :=
  let w := (v.edit op).1
  let q := (v.served p).2
  ∃ f e x, v.Edits op p f e ∧ e.Vacates (q ++ [x]) ∧
    (∀ g ∈ (v.served p).1.layers, g ≠ f → w.objects g (q ++ [x]) = none) ∧
    (∀ y, e.Fills (q ++ [y]) → y ∈ v.namesAt w.objects p) ∧
    n = 2 + (v.namesAt w.objects p).ncard

/-- A rename takes the directory at `p` away, or puts another one there. The names where it
comes from, and those that the other layers have at `p`, are fewer than were read. -/
def MovesShorterDir (v : Vfs ι) (op : VfsOp) (p : PathBuf) (n : Nat) : Prop :=
  let w := (v.edit op).1
  let q := (v.served p).2
  ∃ f e, v.Edits op p f e ∧ e.Carries q ∧
    ((∃ s, e.origin q = some s ∧ ∃ u, w.objects f s = some u ∧ OverlayFS.IsDirObject u) ∨
      ∃ g ∈ (v.served p).1.layers, g ≠ f ∧ ∃ u, w.objects g q = some u ∧ OverlayFS.IsDirObject u) ∧
    2 + {x | (∃ s, e.origin q = some s ∧ w.objects f (s ++ [x]) ≠ none) ∨
      ∃ g ∈ (v.served p).1.layers, g ≠ f ∧ w.objects g (q ++ [x]) ≠ none}.ncard < n

/-- The call makes a directory at `p`, where there was none, for itself or as a parent that
it needs. The names that it puts there are fewer than were read. -/
def MakesShorterDir (v : Vfs ι) (op : VfsOp) (p : PathBuf) (n : Nat) : Prop :=
  let w := (v.edit op).1
  let q := (v.served p).2
  ¬ v.HasDirAt v.world.objects p ∧ (∀ f e, v.Edits op p f e → ¬ e.Carries q) ∧
    (v.HasDirAt w.objects p ∨
      ∃ f target, v.Edits op p f (.creates target .dir) ∧
        (PathEdit.creates target .dir).Puts (w.state f) q) ∧
    2 + (v.namesAt w.objects p ∪
      {x | ∃ f e, v.Edits op p f e ∧ e.Puts (w.state f) (q ++ [x])}).ncard < n

theorem objectsAfter_of_none {r : World ι × Option (MemoryRef ι × PathEdit)} (h : r.2 = none) :
    objectsAfter r = r.1.objects := by
  rw [objectsAfter, h]
  rfl

theorem objectsAfter_of_edit {r : World ι × Option (MemoryRef ι × PathEdit)} {f : MemoryRef ι}
    {e : PathEdit} (h : r.2 = some (f, e)) :
    objectsAfter r = Function.update r.1.objects f (e.result (r.1.state f)) := by
  rw [objectsAfter, h]
  rfl

/-- What a call asks for: nothing, a new entry by path or below a handle, a removal, or a
rename. -/
theorem edit_cases (v : Vfs ι) (op : VfsOp) :
    v.edit op = (v.world, none) ∨
      (∃ p writing made, v.edit op = v.createEdit p writing made) ∨
      (∃ h p made, v.edit op = v.childEdit h p made) ∨
      (∃ p kind, v.edit op = v.removeEdit p kind) ∨
      ∃ old new, v.edit op = v.renameEdit old new := by
  have hat (dirfd : Int) (path : Path) (writing : Bool) (made : Option VfsEntryKind) :
      v.createEditAt dirfd path writing made = (v.world, none) ∨
        (∃ p, v.createEditAt dirfd path writing made = v.createEdit p writing made) ∨
        ∃ h p, v.createEditAt dirfd path writing made = v.childEdit h p made := by
    cases path with
    | abs p => exact Or.inr (Or.inl ⟨_, rfl⟩)
    | rel p =>
      unfold createEditAt
      dsimp only
      cases v.handleOf dirfd with
      | some h => exact Or.inr (Or.inr ⟨h, p, rfl⟩)
      | none =>
        cases v.resolveOpenatPath dirfd (.rel p) with
        | none => exact Or.inl rfl
        | some p => exact Or.inr (Or.inl ⟨p, rfl⟩)
  cases op with
  | openPath path flags mode => exact Or.inr (Or.inl ⟨_, _, _, rfl⟩)
  | openat dirfd path flags mode =>
    rcases hat dirfd path (OverlayFS.writes flags) (createdKind flags) with he | ⟨p, he⟩ | ⟨h, p, he⟩
    · exact Or.inl he
    · exact Or.inr (Or.inl ⟨p, _, _, he⟩)
    · exact Or.inr (Or.inr (Or.inl ⟨h, p, _, he⟩))
  | mkdir path mode => exact Or.inr (Or.inl ⟨_, _, _, rfl⟩)
  | mkdirat dirfd path mode =>
    rcases hat dirfd path true (some .dir) with he | ⟨p, he⟩ | ⟨h, p, he⟩
    · exact Or.inl he
    · exact Or.inr (Or.inl ⟨p, _, _, he⟩)
    · exact Or.inr (Or.inr (Or.inl ⟨h, p, _, he⟩))
  | unlink path => exact Or.inr (Or.inr (Or.inr (Or.inl ⟨_, _, rfl⟩)))
  | rmdir path => exact Or.inr (Or.inr (Or.inr (Or.inl ⟨_, _, rfl⟩)))
  | unlinkat dirfd path flags =>
    simp only [edit]
    cases v.resolveOpenatPath dirfd path with
    | none => exact Or.inl rfl
    | some p => exact Or.inr (Or.inr (Or.inr (Or.inl ⟨p, _, rfl⟩)))
  | rename oldPath newPath => exact Or.inr (Or.inr (Or.inr (Or.inr ⟨_, _, rfl⟩)))
  | renameat oldDirfd oldPath newDirfd newPath =>
    simp only [edit]
    cases v.resolveOpenatPath oldDirfd oldPath with
    | none => exact Or.inl rfl
    | some old =>
      cases v.resolveOpenatPath newDirfd newPath with
      | none => exact Or.inl rfl
      | some new => exact Or.inr (Or.inr (Or.inr (Or.inr ⟨old, new, rfl⟩)))
  | _ => exact Or.inl rfl

theorem edit_grows (hv : v.WF) (op : VfsOp) :
    World.Grows Set.univ v.world (v.edit op).1 := by
  rcases v.edit_cases op with he | ⟨p, writing, made, he⟩ | ⟨h, p, made, he⟩ | ⟨p, kind, he⟩ |
    ⟨old, new, he⟩
  · exact he ▸ .refl
  · rw [he]
    exact (Backend.readied_grows hv.world _ _ writing).mono (Set.subset_univ _)
  · exact he ▸ .refl
  · exact he ▸ .refl
  · rw [he, renameEdit]
    split_ifs
    · exact (Backend.preparedFor_grows hv.world _ _ _).mono (Set.subset_univ _)
    · exact .refl

/-- What a call takes away is there before it: a rename makes parents only for a path that
the top layer has. -/
theorem vacated_before {f : MemoryRef ι} {e : PathEdit} {r : PathBuf}
    (he : (v.edit op).2 = some (f, e)) (ha : e.Allowed ((v.edit op).1.state f))
    (hr : e.Vacates r) : v.world.objects f r ≠ none := by
  have hw : (v.edit op).1.objects f r ≠ none := PathEdit.source_of_vacates ha hr
  rcases v.edit_cases op with hop | ⟨p, writing, made, hop⟩ | ⟨h, p, made, hop⟩ | ⟨p, kind, hop⟩ |
    ⟨old, new, hop⟩ <;> rw [hop] at he hw
  · cases he
  · obtain ⟨kind, -, hk⟩ := Option.map_eq_some_iff.mp he
    cases hk
    exact hr.elim
  · obtain ⟨kind, -, hk⟩ := Option.map_eq_some_iff.mp he
    cases hk
    exact hr.elim
  · exact hw
  · unfold renameEdit at he hw
    dsimp only at he hw
    split_ifs at he hw
    cases he
    cases hr
    cases hb : v.fsAt (v.absolutePathToFs old).1 with
    | memory f =>
      rw [hb] at hw
      exact hw
    | overlay o =>
      rw [hb] at hw
      by_cases htop : LowLevelFS.access o.top v.world (v.absolutePathToFs old).2.toAbs F_OK = 0
      · have hacting : (Backend.overlay o).acting v.world (v.absolutePathToFs old).2.toAbs = o.top :=
          if_pos htop
        rw [hacting]
        exact (OverlayFS.memory_access_iff o.top v.world _ F_OK).mp htop
      · have hsame : (Backend.overlay o).preparedFor v.world (v.absolutePathToFs old).2.toAbs
            (v.absolutePathToFs new).2.toAbs = v.world := if_neg htop
        rw [hsame] at hw
        exact hw

theorem edit_removes {f : MemoryRef ι} {path : PathBuf} {kind : VfsEntryKind}
    (he : (v.edit op).2 = some (f, .removes path kind)) : (v.edit op).1 = v.world := by
  rcases v.edit_cases op with hop | ⟨p, writing, made, hop⟩ | ⟨h, p, made, hop⟩ | ⟨p, kind, hop⟩ |
    ⟨old, new, hop⟩ <;> rw [hop] at he ⊢
  · obtain ⟨kind, -, hk⟩ := Option.map_eq_some_iff.mp he
    cases hk
  · rfl
  · rfl
  · unfold renameEdit at he
    dsimp only at he
    split_ifs at he
    cases he

theorem Edits.objectsAfter {p : PathBuf} {f : MemoryRef ι} {e : PathEdit} (h : v.Edits op p f e) :
    objectsAfter (v.edit op) =
      Function.update (v.edit op).1.objects f (e.apply ((v.edit op).1.state f)) := by
  rw [objectsAfter_of_edit h.1, PathEdit.result_of_allowed h.2.1]

theorem Edits.unique {p : PathBuf} {f f' : MemoryRef ι} {e e' : PathEdit} (h : v.Edits op p f e)
    (h' : v.Edits op p f' e') : f' = f ∧ e' = e := by
  cases h.1.symm.trans h'.1
  exact ⟨rfl, rfl⟩

theorem objectsAfter_of_no_edit {p : PathBuf} (h : ∀ f e, ¬ v.Edits op p f e) :
    ∀ g ∈ (v.served p).1.layers, objectsAfter (v.edit op) g = (v.edit op).1.objects g := by
  intro g hg
  cases he : (v.edit op).2 with
  | none => rw [objectsAfter_of_none he]
  | some fe =>
    obtain ⟨f, e⟩ := fe
    rw [objectsAfter_of_edit he]
    by_cases hgf : g = f
    · subst hgf
      rw [Function.update_self, PathEdit.result_of_not_allowed fun ha => h g e ⟨he, ha, hg⟩]
      rfl
    · rw [Function.update_of_ne hgf]

/-- A name that a call leaves nobody with is that of a path it took away. -/
theorem lost_name (hv : v.WF) {p : PathBuf} {x : FileName}
    (hx : x ∈ v.namesAt (v.edit op).1.objects p)
    (hx' : x ∉ v.namesAt (objectsAfter (v.edit op)) p) :
    ∃ f e, v.Edits op p f e ∧ (e.Carries (v.served p).2 ∨ e.Vacates ((v.served p).2 ++ [x])) ∧
      ∀ g ∈ (v.served p).1.layers, g ≠ f →
        (v.edit op).1.objects g ((v.served p).2 ++ [x]) = none := by
  have hw := (edit_grows hv op).wf hv.world
  by_cases hedit : ∃ f e, v.Edits op p f e
  · obtain ⟨f, e, he⟩ := hedit
    rw [he.objectsAfter] at hx'
    obtain ⟨-, hfx, hgone, hothers⟩ := lost_of_update hx hx'
    refine ⟨f, e, he, or_iff_not_imp_left.mpr fun hcar => ?_, hothers⟩
    exact PathEdit.vacated_of_apply (m := (v.edit op).1.state f) (hw.fs f.index) he.2.1 hcar hfx
      hgone
  · push Not at hedit
    obtain ⟨g, hg, hgx⟩ := hx
    exact absurd ⟨g, hg, by rwa [objectsAfter_of_no_edit hedit g hg]⟩ hx'

theorem filled_name {f : MemoryRef ι} {e : PathEdit} {p : PathBuf} {y : FileName}
    (he : v.Edits op p f e) (hy : e.Fills ((v.served p).2 ++ [y])) :
    y ∈ v.namesAt (objectsAfter (v.edit op)) p := by
  rw [he.objectsAfter]
  exact mem_names_update.mpr (Or.inl ⟨he.2.2, PathEdit.apply_of_fills he.2.1 hy⟩)

/-- The names that are left when the call has taken away the last entry under `x`. -/
theorem names_of_vacates (hv : v.WF) {f : MemoryRef ι} {e : PathEdit} {p : PathBuf} {x : FileName}
    (he : v.Edits op p f e) (hvac : e.Vacates ((v.served p).2 ++ [x]))
    (hothers : ∀ g ∈ (v.served p).1.layers, g ≠ f →
      (v.edit op).1.objects g ((v.served p).2 ++ [x]) = none)
    (hfills : ∀ y, e.Fills ((v.served p).2 ++ [y]) → y ∈ v.namesAt (v.edit op).1.objects p) :
    v.namesAt (objectsAfter (v.edit op)) p ⊆ v.namesAt (v.edit op).1.objects p \ {x} := by
  have hw := (edit_grows hv op).wf hv.world
  intro y hy
  rw [he.objectsAfter] at hy
  rcases mem_names_update.mp hy with ⟨hf, hfy⟩ | ⟨g, hg, hgf, hgy⟩
  · obtain ⟨hne, hhad | hfill⟩ :=
      PathEdit.kept_of_apply (m := (v.edit op).1.state f) (hw.fs f.index) he.2.1 hvac hfy
    · exact ⟨⟨f, hf, hhad⟩, hne⟩
    · exact ⟨hfills y hfill, hne⟩
  · refine ⟨⟨g, hg, hgy⟩, ?_⟩
    rintro rfl
    exact hgy (hothers g hg hgf)

/-- What a rename that carries `p` leaves there. -/
theorem carried_spec (hv : v.WF) {p : PathBuf} {f : MemoryRef ι} {e : PathEdit}
    (he : v.Edits op p f e) (hcar : e.Carries (v.served p).2) :
    (v.HasDirAt (objectsAfter (v.edit op)) p ↔
        (∃ s, e.origin (v.served p).2 = some s ∧
            ∃ u, (v.edit op).1.objects f s = some u ∧ OverlayFS.IsDirObject u) ∨
          ∃ g ∈ (v.served p).1.layers, g ≠ f ∧
            ∃ u, (v.edit op).1.objects g (v.served p).2 = some u ∧ OverlayFS.IsDirObject u) ∧
      v.namesAt (objectsAfter (v.edit op)) p =
        {x | (∃ s, e.origin (v.served p).2 = some s ∧ (v.edit op).1.objects f (s ++ [x]) ≠ none) ∨
          ∃ g ∈ (v.served p).1.layers, g ≠ f ∧
            (v.edit op).1.objects g ((v.served p).2 ++ [x]) ≠ none} := by
  have hw := (edit_grows hv op).wf hv.world
  have happ (r : PathBuf) : e.apply ((v.edit op).1.state f) ((v.served p).2 ++ r) =
      (e.origin (v.served p).2).bind fun s => (v.edit op).1.objects f (s ++ r) :=
    PathEdit.apply_of_carries (hw.fs f.index) he.2.1 hcar r
  have hself := happ []
  simp only [List.append_nil] at hself
  constructor
  · rw [HasDirAt, he.objectsAfter, hasDir_update, and_iff_right he.2.2, hself]
    cases e.origin (v.served p).2 <;> simp
  · ext x
    rw [namesAt, he.objectsAfter, mem_names_update, and_iff_right he.2.2, happ]
    cases e.origin (v.served p).2 <;> simp

/-- What a call leaves at `p` where there is no directory, if nothing is carried. -/
theorem made_spec (hv : v.WF) {p : PathBuf} (hdir : ¬ v.HasDirAt v.world.objects p)
    (hcar : ∀ f e, v.Edits op p f e → ¬ e.Carries (v.served p).2) :
    (v.HasDirAt (objectsAfter (v.edit op)) p ↔ v.HasDirAt (v.edit op).1.objects p ∨
        ∃ f target, v.Edits op p f (.creates target .dir) ∧
          (PathEdit.creates target .dir).Puts ((v.edit op).1.state f) (v.served p).2) ∧
      v.namesAt (objectsAfter (v.edit op)) p = v.namesAt (v.edit op).1.objects p ∪
        {x | ∃ f e, v.Edits op p f e ∧ e.Puts ((v.edit op).1.state f) ((v.served p).2 ++ [x])} := by
  have hw := (edit_grows hv op).wf hv.world
  by_cases hedit : ∃ f e, v.Edits op p f e
  · obtain ⟨f, e, he⟩ := hedit
    have hbelow (x : FileName) : v.world.objects f ((v.served p).2 ++ [x]) = none := by
      by_contra hx
      exact hdir ⟨f, he.2.2, (hv.world.fs f.index).dirObject_above hx⟩
    have hvac (x : FileName) : ¬ e.Vacates ((v.served p).2 ++ [x]) := fun hx =>
      vacated_before he.1 he.2.1 hx (hbelow x)
    have hremoves {path : PathBuf} {kind : VfsEntryKind} (hk : e = .removes path kind) :
        (v.edit op).1 = v.world := edit_removes (hk ▸ he.1)
    have hputs (x : FileName) : (∃ f e, v.Edits op p f e ∧
        e.Puts ((v.edit op).1.state f) ((v.served p).2 ++ [x])) ↔
          e.Puts ((v.edit op).1.state f) ((v.served p).2 ++ [x]) := by
      constructor
      · rintro ⟨f', e', he', hx⟩
        obtain ⟨rfl, rfl⟩ := he.unique he'
        exact hx
      · exact fun hx => ⟨f, e, he, hx⟩
    constructor
    · have happ := PathEdit.apply_dir_iff (m := (v.edit op).1.state f) (hcar f e he)
        (fun path kind hk hu => hdir ⟨f, he.2.2, by rwa [← hremoves hk]⟩) he.2.1 (hw.fs f.index)
      have hmakes : (∃ f target, v.Edits op p f (.creates target .dir) ∧
          (PathEdit.creates target .dir).Puts ((v.edit op).1.state f) (v.served p).2) ↔
            ∃ target, e = .creates target .dir ∧
              e.Puts ((v.edit op).1.state f) (v.served p).2 := by
        constructor
        · rintro ⟨f', target, he', hq⟩
          obtain ⟨rfl, rfl⟩ := he.unique he'
          exact ⟨target, rfl, hq⟩
        · rintro ⟨target, rfl, hq⟩
          exact ⟨f, target, he, hq⟩
      rw [hmakes, HasDirAt, HasDirAt, he.objectsAfter, hasDir_update, hasDir_iff _ he.2.2,
        and_iff_right he.2.2, or_right_comm]
      exact or_congr_left happ
    · ext x
      have happ := PathEdit.apply_concat_iff (m := (v.edit op).1.state f) (hcar f e he) (hvac x)
        (fun path kind hk => by rw [← hbelow x, ← hremoves hk]; rfl) he.2.1
      rw [namesAt, he.objectsAfter, mem_names_update, and_iff_right he.2.2, happ, Set.mem_union,
        namesAt, mem_names_iff he.2.2, Set.mem_ofPred_eq, hputs]
      exact or_right_comm
  · push Not at hedit
    have hsame := objectsAfter_of_no_edit hedit
    constructor
    · rw [HasDirAt, hasDir_congr hsame]
      refine (or_iff_left ?_).symm
      rintro ⟨f, target, he, -⟩
      exact hedit f _ he
    · rw [namesAt, names_congr hsame]
      refine (Set.union_eq_self_of_subset_right ?_).symm
      rintro x ⟨f, e, he, -⟩
      exact absurd he (hedit f e)

/-- For a directory of which no more was read than it has, the call leaves less there exactly
when it takes a name that was read, or puts a shorter directory there. -/
theorem shorter_iff (hv : v.WF) (op : VfsOp) (p : PathBuf) {n : Nat}
    (hn : v.HasDirAt v.world.objects p → n ≤ 2 + (v.namesAt v.world.objects p).ncard) :
    (v.HasDirAt (objectsAfter (v.edit op)) p ∧
        2 + (v.namesAt (objectsAfter (v.edit op)) p).ncard < n) ↔
      v.TakesReadName op p n ∨ v.MovesShorterDir op p n ∨ v.MakesShorterDir op p n := by
  have hgrow := edit_grows hv op
  have hw := hgrow.wf hv.world
  have hfin : (v.namesAt (v.edit op).1.objects p).Finite :=
    Backend.names_finite hw (v.served p).1 (v.served p).2
  have hfin' : (v.namesAt (objectsAfter (v.edit op)) p).Finite := by
    rw [← step_objects hv op]
    exact Backend.names_finite (step_wf hv op).world (v.served p).1 (v.served p).2
  have hle : (v.namesAt v.world.objects p).ncard ≤ (v.namesAt (v.edit op).1.objects p).ncard := by
    refine Set.ncard_le_ncard (names_mono fun f _ r hr => ?_) hfin
    obtain ⟨u, hu⟩ := Option.ne_none_iff_exists'.mp hr
    rw [hgrow.objects hv.world hu]
    exact Option.some_ne_none u
  constructor
  · rintro ⟨hdir', hlt⟩
    by_cases hcar : ∃ f e, v.Edits op p f e ∧ e.Carries (v.served p).2
    · obtain ⟨f, e, he, hcar⟩ := hcar
      obtain ⟨hdir, hnames⟩ := carried_spec hv he hcar
      exact Or.inr (Or.inl ⟨f, e, he, hcar, hdir.mp hdir', hnames ▸ hlt⟩)
    push Not at hcar
    by_cases hdir : v.HasDirAt v.world.objects p
    swap
    · obtain ⟨hmade, hnames⟩ := made_spec hv hdir hcar
      exact Or.inr (Or.inr ⟨hdir, hcar, hmade.mp hdir', hnames ▸ hlt⟩)
    have hread := hn hdir
    obtain ⟨x, hx, hx'⟩ : ∃ x ∈ v.namesAt (v.edit op).1.objects p,
        x ∉ v.namesAt (objectsAfter (v.edit op)) p := by
      by_contra hall
      push Not at hall
      have hcard := Set.ncard_le_ncard hall hfin'
      omega
    obtain ⟨f, e, he, hwhere, hothers⟩ := lost_name hv hx hx'
    have hvac := hwhere.resolve_left (hcar f e he)
    -- no other name is lost, so that only one entry is missing
    have hrest : v.namesAt (v.edit op).1.objects p \ {x} ⊆
        v.namesAt (objectsAfter (v.edit op)) p := by
      rintro z ⟨hz, hzx⟩
      by_contra hz'
      obtain ⟨f', e', he', hwhere', -⟩ := lost_name hv hz hz'
      obtain ⟨rfl, rfl⟩ := he.unique he'
      have hsame := PathEdit.vacates_inj hvac (hwhere'.resolve_left (hcar f' e' he))
      exact hzx (by simpa using hsame.symm)
    have hone := Set.ncard_sdiff_singleton_add_one hx hfin
    have hcard := Set.ncard_le_ncard hrest hfin'
    refine Or.inl ⟨f, e, x, he, hvac, hothers, fun y hy => ?_, by omega⟩
    by_contra hnew
    have hsub : insert y (v.namesAt (v.edit op).1.objects p \ {x}) ⊆
        v.namesAt (objectsAfter (v.edit op)) p :=
      Set.insert_subset (filled_name he hy) hrest
    have hinsert := Set.ncard_insert_of_notMem (fun hh => hnew hh.1)
      (hfin.subset (Set.sdiff_subset (t := {x})))
    have hcard' := Set.ncard_le_ncard hsub hfin'
    omega
  · rintro (⟨f, e, x, he, hvac, hothers, hfills, rfl⟩ | ⟨f, e, he, hcar, hdir, hlt⟩ |
      ⟨hdir, hcar, hmade, hlt⟩)
    · have hx : (v.edit op).1.objects f ((v.served p).2 ++ [x]) ≠ none :=
        PathEdit.source_of_vacates he.2.1 hvac
      have hmem : x ∈ v.namesAt (v.edit op).1.objects p := ⟨f, he.2.2, hx⟩
      have hone := Set.ncard_sdiff_singleton_add_one hmem hfin
      have hcard := Set.ncard_le_ncard (names_of_vacates hv he hvac hothers hfills)
        (hfin.subset Set.sdiff_subset)
      refine ⟨⟨f, he.2.2, ?_⟩, by omega⟩
      rw [he.objectsAfter, Function.update_self,
        PathEdit.apply_of_vacates (m := (v.edit op).1.state f) (hw.fs f.index) he.2.1 hvac]
      exact (hw.fs f.index).dirObject_above hx
    · obtain ⟨hdir', hnames⟩ := carried_spec hv he hcar
      exact ⟨hdir'.mpr hdir, hnames ▸ hlt⟩
    · obtain ⟨hmade', hnames⟩ := made_spec hv hdir hcar
      exact ⟨hmade'.mpr hmade, hnames ▸ hlt⟩

/-- What a listing by path makes of the bound. -/
theorem inRange_by_path_iff (hw : v.world.WF) {info : FdInfo (MemoryOpenedFile ι)}
    (hb : ListsByPath v.world info) :
    v.InRange info ↔ (v.HasDirAt v.world.objects info.path →
      info.dirOffset ≤ 2 + (v.namesAt v.world.objects info.path).ncard) := by
  obtain ⟨hdir, hlen⟩ := Backend.readDir_names hw (v.served info.path).1 (v.served info.path).2
  have hread : v.readDir (.abs info.path.toAbs) =
      LowLevelFS.readDir (v.served info.path).1 v.world (v.served info.path).2.toAbs := by
    simp only [RootVFS.readDir, RootVFS.resolvePath, normalizeAbsolute_toAbs]
    rfl
  rw [InRange, dirEntries_by_path hw hb, hread]
  constructor
  · intro h hd
    obtain ⟨es, hes⟩ := Option.isSome_iff_exists.mp (hdir.mpr hd)
    have hle := h (dotEntries ++ es) (by rw [hes]; rfl)
    have hlen := hlen es hes
    rw [List.length_append, hlen] at hle
    exact hle
  · intro h entries he
    obtain ⟨es, hes, rfl⟩ := Option.map_eq_some_iff.mp he
    have hle := h (hdir.mp (by rw [hes]; rfl))
    have hlen := hlen es hes
    rw [List.length_append, hlen]
    exact hle

/-- The call is an open that returns the number `fd`. -/
def OpensAs (v : Vfs ι) (op : VfsOp) (fd : Int) : Prop :=
  0 ≤ fd ∧ match op with
    | .openPath path flags mode => (v.openPath path flags mode).1 = fd
    | .openat dirfd path flags mode => (v.openat dirfd path flags mode).1 = fd
    | _ => False

omit [DecidableEq ι] in
theorem Opening.fds {r : Int × Vfs ι} (h : Opening v r) (fd : Int) :
    (¬ (0 ≤ fd ∧ r.1 = fd) → r.2.fds[fd]? = v.fds[fd]?) ∧
      (0 ≤ fd → r.1 = fd → ∀ info, r.2.fds[fd]? = some info → info.dirOffset = 0) := by
  rcases h with rfl | ⟨result, world, path, -, -, rfl⟩
  · refine ⟨fun _ => rfl, fun hfd he => ?_⟩
    have hneg : (-1 : Int) = fd := he
    omega
  · unfold RootVFS.trackOpen
    split_ifs with hr
    · simp only [RootVFS.getElem?_insert_fd]
      constructor
      · intro hne
        refine if_neg ?_
        rintro rfl
        exact hne ⟨hr, rfl⟩
      · rintro - rfl info hi
        rw [if_pos rfl] at hi
        cases hi
        rfl
    · refine ⟨fun _ => rfl, fun hfd he => ?_⟩
      have hsame : result.fd = fd := he
      omega

theorem offset_of_opensAs (hv : v.WF) {fd : Int} (hopen : v.OpensAs op fd)
    {info : FdInfo (MemoryOpenedFile ι)} (hi : (v.step op).fds[fd]? = some info) :
    info.dirOffset = 0 := by
  cases op with
  | openPath path flags mode =>
    exact ((openVirtual_opening hv _ flags mode).fds fd).2 hopen.1 hopen.2 info hi
  | openat dirfd path flags mode =>
    exact ((openat_opening hv dirfd path flags mode).fds fd).2 hopen.1 hopen.2 info hi
  | _ => exact hopen.2.elim

theorem kept_of_edit (hv : v.WF) {op : VfsOp} (hne : v.edit op ≠ (v.world, none)) {fd : Int}
    (hopen : ¬ v.OpensAs op fd) : (v.step op).fds[fd]? = v.fds[fd]? := by
  cases op with
  | openPath path flags mode => exact ((openVirtual_opening hv _ flags mode).fds fd).1 hopen
  | openat dirfd path flags mode => exact ((openat_opening hv dirfd path flags mode).fds fd).1 hopen
  | mkdir path mode => rfl
  | mkdirat dirfd path mode => exact congrArg (·[fd]?) (mkdirat_fds v dirfd path mode)
  | unlink path => rfl
  | rmdir path => rfl
  | unlinkat dirfd path flags => exact congrArg (·[fd]?) (unlinkat_fds v dirfd path flags)
  | rename oldPath newPath => exact congrArg (·[fd]?) (renameat_fds v _ oldPath _ newPath)
  | renameat oldDirfd oldPath newDirfd newPath =>
    exact congrArg (·[fd]?) (renameat_fds v oldDirfd oldPath newDirfd newPath)
  | _ => exact absurd rfl hne

/-- A call makes the directory shorter that a descriptor is listed from by path. -/
def ShrinksByPath (v : Vfs ι) (op : VfsOp) : Prop :=
  ∃ (fd : Int) (info : FdInfo (MemoryOpenedFile ι)), v.fds[fd]? = some info ∧
    ListsByPath v.world info ∧ ¬ v.OpensAs op fd ∧
      (v.TakesReadName op info.path info.dirOffset ∨
        v.MovesShorterDir op info.path info.dirOffset ∨
        v.MakesShorterDir op info.path info.dirOffset)

theorem inRange_by_path_after (hv : v.WF) (hb : InBounds v) {fd : Int}
    {info : FdInfo (MemoryOpenedFile ι)} (hi : v.fds[fd]? = some info)
    (hp : ListsByPath v.world info) (op : VfsOp) :
    (v.step op).InRange info ↔
      ¬ (v.TakesReadName op info.path info.dirOffset ∨
        v.MovesShorterDir op info.path info.dirOffset ∨
        v.MakesShorterDir op info.path info.dirOffset) := by
  have hs := step_spec hv op
  have hp' : ListsByPath (v.step op).world info := by
    intro h ho
    obtain ⟨h', ho', hk⟩ := hv.handle fd info hi
    cases ho.symm.trans ho'
    rw [hs.isDir_eq hk]
    exact hp h ho
  have hserved : (v.step op).served info.path = v.served info.path := by
    have hat (key : Option PathBuf) : (v.step op).fsAt key = v.fsAt key := by
      cases key <;> simp [RootVFS.fsAt, hs.root_eq, hs.mounts_eq]
    rw [served, absolutePathToFs_of_mounts hs.mounts_eq, hat, served]
  rw [inRange_by_path_iff (step_wf hv op).world hp', HasDirAt, namesAt, hserved,
    step_objects hv op, ← shorter_iff hv op info.path
      ((inRange_by_path_iff hv.world hp).mp (hb fd info hi)), not_and, not_lt]
  rfl

/-- A call leaves every offset within its listing unless it takes a name that was read, or
makes the directory at a path shorter. -/
theorem step_inBounds_iff (hv : v.WF) (hb : InBounds v) (op : VfsOp) :
    InBounds (v.step op) ↔ ¬ v.TakesRead op ∧ ¬ v.ShrinksByPath op := by
  have hs := step_spec hv op
  have hw := (hs.wf hv).world
  have htakes := step_takesOnly hv op
  have hdir {fd : Int} {info : FdInfo (MemoryOpenedFile ι)} (hi : v.fds[fd]? = some info)
      {f : MemoryRef ι} {d : NodeId} (ho : info.opened = some ⟨f, d⟩) :
      ((v.step op).world.fs f.index).isDir d = (v.world.fs f.index).isDir d := by
    obtain ⟨h, hh, hk⟩ := hv.handle fd info hi
    cases ho.symm.trans hh
    exact hs.isDir_eq hk
  constructor
  · intro hb'
    constructor
    · rintro ⟨fd, info, f, d, w, hi, ho, hd, ht, hoff⟩
      have hlost := (htakes.taken w f d ht).2
      have hin := hb' fd info (by rw [ht.fds, hi])
      rw [inRange_dir_iff hw ho ((hdir hi ho).trans hd)] at hin
      omega
    · rintro ⟨fd, info, hi, hp, hopen, hshort⟩
      have hout := mt (inRange_by_path_after hv hb hi hp op).mp (not_not.mpr hshort)
      by_cases hne : v.edit op = (v.world, none)
      · -- a call without an edit leaves the names as they are
        have hread := (inRange_by_path_iff hv.world hp).mp (hb fd info hi)
        obtain ⟨hd, hlt⟩ := (shorter_iff hv op info.path hread).mpr hshort
        rw [hne] at hd hlt
        exact absurd (hread hd) (not_le.mpr hlt)
      · exact hout (hb' fd info (by rw [kept_of_edit hv hne hopen, hi]))
  · rintro ⟨hread, hpath⟩ fd info hi
    rcases hs.inRange hb hi with hz | hi₀ | hin
    · intro entries _
      omega
    · by_cases hopen : v.OpensAs op fd
      · intro entries _
        have hz := offset_of_opensAs hv hopen hi
        omega
      by_cases hp : ListsByPath v.world info
      · exact (inRange_by_path_after hv hb hi₀ hp op).mpr fun hshort =>
          hpath ⟨fd, info, hi₀, hp, hopen, hshort⟩
      · obtain ⟨⟨f, d⟩, ho, hd⟩ : ∃ h, info.opened = some h ∧
            (v.world.fs h.nodes.index).isDir h.node = true := by
          simpa [ListsByPath] using hp
        have hin := hb fd info hi₀
        rw [inRange_dir_iff hv.world ho hd] at hin
        rw [inRange_dir_iff hw ho ((hdir hi₀ ho).trans hd)]
        by_cases ht : ∃ w, v.TakesName op w f d
        · obtain ⟨w, ht⟩ := ht
          obtain ⟨hle, hlost⟩ := htakes.taken w f d ht
          have hne : info.dirOffset ≠ 2 + w.nameCount f d := fun he =>
            hread ⟨fd, info, f, d, w, hi₀, ho, hd, ht, he⟩
          omega
        · have hle := htakes.kept f d fun w hw => ht ⟨w, hw⟩
          omega
    · exact hin

/-- From a table without entries, `getdents64` can take its slice in every state of a run if
and only if no call of the run takes a name that some descriptor has read past, and none
leaves the path of a descriptor that is listed by it with a shorter directory. -/
theorem run_inBounds_iff (hv : v.WF) (hfds : v.fds = ∅) (ops : List VfsOp) :
    (∀ l, l <+: ops → InBounds (v.run l)) ↔
      Runs.EveryStep step (fun v op => ¬ v.TakesRead op ∧ ¬ v.ShrinksByPath op) v ops := by
  refine Runs.forall_prefix_iff (P := InBounds) (fun v op hs => step_wf hs op)
    (fun v op hs hb => step_inBounds_iff hs hb op) hv ?_ ops
  intro fd info hi
  simp [hfds] at hi

theorem not_shrinksByPath (h : (v.fds.toList.all fun e => decide (e.2.dirOffset < 2) ||
    e.2.opened.any fun h => (v.world.fs h.nodes.index).isDir h.node) = true) :
    ¬ v.ShrinksByPath op := by
  rintro ⟨fd, info, hi, hp, -, hshort⟩
  have hall := List.all_eq_true.mp h (fd, info)
    (Std.ExtTreeMap.mem_toList_iff_getElem?_eq_some.mpr hi)
  have hless : info.dirOffset < 2 := by
    by_contra hlt
    obtain ⟨o, ho, hdir⟩ : ∃ o, info.opened = some o ∧
        (v.world.fs o.nodes.index).isDir o.node = true := by
      simpa [hlt, Option.any_eq_true] using hall
    rw [hp o ho] at hdir
    cases hdir
  rcases hshort with ⟨f, e, x, -, -, -, -, hn⟩ | ⟨f, e, -, -, -, hlt⟩ | ⟨-, -, -, hlt⟩ <;> omega

/-- Two files in `/d`, whose descriptor is 9; after the call that reads two dot entries and
one of them, the other is removed. -/
def partlyReadD : List VfsOp :=
  [.mkdir (.abs (PathBuf.toAbs [.d])) 0o755,
    .openPath (.abs (PathBuf.toAbs [.d, .a])) O_CREAT 0o644,
    .openPath (.abs (PathBuf.toAbs [.d, .x])) O_CREAT 0o644,
    .openPath (.abs (PathBuf.toAbs [.d])) 0 0,
    .getdents64 9 false 72, .unlink (.abs (PathBuf.toAbs [.d, .x]))]

theorem inBounds_partlyReadD :
    InBounds ((newMemory (fun _ => 0) .boot).run partlyReadD) := by
  refine (run_inBounds_iff (newMemory_wf _ _) rfl partlyReadD).mpr
    ⟨⟨?_, not_shrinksByPath (by decide +kernel)⟩, ⟨?_, not_shrinksByPath (by decide +kernel)⟩,
      ⟨?_, not_shrinksByPath (by decide +kernel)⟩, ⟨?_, not_shrinksByPath (by decide +kernel)⟩,
      ⟨?_, not_shrinksByPath (by decide +kernel)⟩, ⟨?_, not_shrinksByPath (by decide +kernel)⟩,
      trivial⟩ _ List.prefix_rfl
  case refine_6 =>
    rintro ⟨fd, info, f, d, w, hi, -, -, ⟨rfl, rfl, -, hd⟩, hoff⟩
    -- no descriptor has read past three entries, and there are four
    have hat : ((((newMemory (fun _ => 0) .boot).run (partlyReadD.take 5)).world.fs
        ()).resolveNames [.d]) = some 2 := by decide +kernel
    have hcount : ((((newMemory (fun _ => 0) .boot).run (partlyReadD.take 5)).world.nameCount
        ⟨()⟩ 2)) = 2 := by decide +kernel
    have hall : (((newMemory (fun _ => 0) .boot).run (partlyReadD.take 5)).fds.toList.all
        fun e => decide (e.2.dirOffset ≤ 3)) = true := by decide +kernel
    have hle := List.all_eq_true.mp hall (fd, info)
      (Std.ExtTreeMap.mem_toList_iff_getElem?_eq_some.mpr hi)
    cases hat.symm.trans hd
    have hfour : info.dirOffset = 2 + 2 := hoff.trans (congrArg (2 + ·) hcount)
    simp [hfour] at hle
  all_goals
    rintro ⟨fd, info, f, d, w, -, -, -, ht, -⟩
    exact ht

def readD : List VfsOp :=
  [.mkdir (.abs (PathBuf.toAbs [.d])) 0o755,
    .openPath (.abs (PathBuf.toAbs [.d, .x])) O_CREAT 0o644,
    .openPath (.abs (PathBuf.toAbs [.d])) 0 0,
    .getdents64 7 false 1000]

theorem unlink_overtakes_readD :
    ¬ InBounds ((newMemory (fun _ => 0) .boot).run
      (readD ++ [.unlink (.abs (PathBuf.toAbs [.d, .x]))])) := by
  intro hb
  have hi : ((newMemory (fun _ => 0) .boot).run
      (readD ++ [.unlink (.abs (PathBuf.toAbs [.d, .x]))])).fds[(7 : Int)]? =
        some ⟨[.d], 3, some ⟨⟨()⟩, 2⟩⟩ := by decide +kernel
  have he : ((newMemory (fun _ => 0) .boot).run
      (readD ++ [.unlink (.abs (PathBuf.toAbs [.d, .x]))])).dirEntries
        ⟨[.d], 3, some ⟨⟨()⟩, 2⟩⟩ = some dotEntries := by decide +kernel
  have hle := hb 7 _ hi _ he
  exact absurd hle (by decide)

end Vfs

end SandboxVfs
