import SandboxVfs.Library.Acyclic
import SandboxVfs.MemoryCalls

/-! Renaming in a memory file system: what it does to the paths, when it succeeds, and
how a directory can end up below itself. -/

namespace SandboxVfs

open MemoryFS NameGraph

theorem AbsPath.names_of_fileName {path : AbsPath} {x : FileName}
    (h : path.fileName = some x) : path.names = path.names.dropLast ++ [x] := by
  unfold AbsPath.fileName at h
  unfold AbsPath.names
  rcases List.eq_nil_or_concat path.components with hnil | ⟨cs, c, hcs⟩
  · simp [hnil, lastName] at h
  · rw [hcs, List.concat_eq_append, lastName_concat] at h
    rw [hcs, List.concat_eq_append]
    simp [h]

namespace World

def madeAD : World (Fin 2) :=
  two.calls [.mkdir fst (PathBuf.toAbs [.a]) 0o755,
    .openWithHandle fst (PathBuf.toAbs [.a, .b]) O_CREAT 0o644,
    .mkdir fst (PathBuf.toAbs [.d]) 0o755]

theorem madeAD_wf : madeAD.WF := calls_wf (fresh_wf 2 .boot) _

end World

namespace MemoryFS

variable {fs fs' : MemoryFS} {next : NodeId}

/-- What was at or below `old` is now at the same place below `new`. -/
structure Relocated (fs fs' : MemoryFS) (old new : PathBuf) : Prop where
  subtree : ∀ r : PathBuf,
    fs'.resolve (PathBuf.toAbs (new ++ r)) = fs.resolve (PathBuf.toAbs (old ++ r)) ∧
      fs'.view (new ++ r) = fs.view (old ++ r)
  vacated : ∀ r : PathBuf, fs'.resolve (PathBuf.toAbs (old ++ r)) = none
  elsewhere : ∀ p : PathBuf, ¬ old <+: p → ¬ new <+: p →
    fs'.resolve p.toAbs = fs.resolve p.toAbs ∧ fs'.view p = fs.view p
  parent : ∃ c b, fs.resolve old.toAbs = some c ∧
    fs'.resolve (PathBuf.toAbs new.dropLast) = some b ∧ fs'.parentOf c = some b
  replaced : ∀ r, fs.resolve new.toAbs = some r → fs.Childless r ∧ r ∉ fs'.nodes ∧
    ∃ i, fs'.inodeOf r = some i ∧ i.links = 0 ∧ i.parent = none

theorem Moved.inodeOf_kept {a b c : NodeId} {x y : FileName} {replaced : Option NodeId}
    (hm : Moved fs fs' a x b y c replaced) {j : NodeId} (hj : replaced ≠ some j) :
    (fs'.inodeOf j).map (fun i => (j, i.isDir, i.mode)) =
      (fs.inodeOf j).map (fun i => (j, i.isDir, i.mode)) := by
  rw [hm.inodeOf]
  split_ifs
  · simp [Function.comp_def]
  · rfl

theorem rename_relocates (h : fs.WF next) {old new : PathBuf} (hne : old ≠ new)
    (hr : fs.renameNodeAt old.toAbs new.toAbs = some fs') : Relocated fs fs' old new := by
  obtain ⟨hno, hon⟩ := h.not_prefix_of_renamed hne hr
  obtain ⟨pa, x, a, pb, y, b, c, replaced, rfl, rfl, ha, hb, hc, hm, hcan, hsub, hres⟩ :=
    renameNodeAt_toAbs h hne hr
  have hnew : fs.resolveNames (pb ++ [y]) = replaced := by
    rw [h.resolveNames_concat, hb]
    exact hm.replaced_eq
  -- the replaced node has one path only, which the others are not
  have hkept {p : PathBuf} (hp : p ≠ pb ++ [y]) {j : NodeId} (hj : fs.resolveNames p = some j) :
      replaced ≠ some j := by
    rintro rfl
    exact hp (h.resolveNames_inj hj hnew)
  have hview {p q : PathBuf} (hp : p ≠ pb ++ [y])
      (hq : fs'.resolveNames q = fs.resolveNames p) : fs'.view q = fs.view p := by
    unfold view
    rw [hq]
    cases hj : fs.resolveNames p with
    | none => rfl
    | some j => exact hm.inodeOf_kept (hkept hp hj)
  constructor
  · intro r
    have hat : fs'.resolveNames (pb ++ [y] ++ r) = fs.resolveNames (pa ++ [x] ++ r) := by
      rw [hres, movePath_below]
    refine ⟨by simpa only [resolve_toAbs] using hat, hview ?_ hat⟩
    intro he
    exact hon ⟨r, he⟩
  · intro r
    have hnpre : ¬ pb ++ [y] <+: pa ++ [x] ++ r := by
      intro hpre
      rcases List.prefix_or_prefix_of_prefix hpre (List.prefix_append _ r) with hp | hp
      · exact hno hp
      · exact hon hp
    rw [resolve_toAbs, hres, movePath, if_neg hnpre, if_pos (List.prefix_append _ r)]
  · intro p hop hnp
    have hat : fs'.resolveNames p = fs.resolveNames p := by
      rw [hres, movePath, if_neg hnp, if_neg hop]
    refine ⟨by simpa only [resolve_toAbs] using hat, hview ?_ hat⟩
    rintro rfl
    exact hnp List.prefix_rfl
  · have hbnew : ¬ pb ++ [y] <+: pb := by
      intro hpre
      have := hpre.length_le
      simp at this
    refine ⟨c, b, by rw [resolve_toAbs, hc], ?_, ?_⟩
    · rw [List.dropLast_concat, resolve_toAbs, hres, movePath, if_neg hbnew, if_neg hsub, hb]
    · obtain ⟨i, hi, -⟩ := h.entry_inode a x c hm.present
      rw [parentOf_eq_inode, hm.inodeOf, if_pos rfl, hi]
      rfl
  · intro r hr
    rw [resolve_toAbs, hnew] at hr
    subst hr
    have hrc : r ≠ c := fun he => hm.ne (by rw [he])
    obtain ⟨i, hi, -⟩ := h.entry_inode b y r hm.replaced_eq
    refine ⟨childless_of_canReplace (hcan r rfl), ?_, i.dropped, ?_, rfl, rfl⟩
    · rw [hm.nodes]
      exact Finset.notMem_erase r fs.nodes
    · rw [hm.inodeOf, if_neg hrc, if_pos rfl, hi]
      rfl

theorem relocated_madeAD :
    let fs := World.madeAD.fs World.fst.index
    ∃ fs', fs.renameNodeAt (PathBuf.toAbs [.a]) (PathBuf.toAbs [.d]) = some fs' ∧
      Relocated fs fs' [.a] [.d] := by
  intro fs
  obtain ⟨fs', hr⟩ : ∃ fs', fs.renameNodeAt (PathBuf.toAbs [.a]) (PathBuf.toAbs [.d]) = some fs' :=
    Option.isSome_iff_exists.mp (by decide +kernel)
  exact ⟨fs', hr, rename_relocates (World.madeAD_wf.fs World.fst.index) (by decide) hr⟩

/-- When POSIX `rename` succeeds in a tree without symbolic links. -/
def PosixRename (fs : MemoryFS) (old new : PathBuf) : Prop :=
  old ≠ [] ∧ new ≠ [] ∧ ¬ (old <+: new ∧ old ≠ new) ∧
    (∃ d, fs.resolve (PathBuf.toAbs new.dropLast) = some d ∧ fs.isDir d = true) ∧
    ∃ c, fs.resolve old.toAbs = some c ∧
      ∀ r, fs.resolve new.toAbs = some r →
        r = c ∨ (fs.isDir c = false ∧ fs.isDir r = false) ∨
          (fs.isDir c = true ∧ fs.isDir r = true ∧ fs.Childless r)

theorem canReplaceNode_posix (fs : MemoryFS) (c r : NodeId) :
    fs.canReplaceNode c r = true ↔
      (fs.isDir c = false ∧ fs.isDir r = false) ∨
        (fs.isDir c = true ∧ fs.isDir r = true ∧ fs.Childless r) := by
  rw [canReplaceNode_iff]
  cases hr : fs.isDir r with
  | false =>
    have hempty : fs.Childless r := fun hd => absurd hd (by simp [hr])
    simp [hempty]
  | true => simp

/-- For two different paths the checks of the code are those of POSIX. -/
theorem canMove_iff_posixRename (h : fs.WF next) {old new : PathBuf} (hne : old ≠ new) :
    fs.CanMove old new ↔ fs.PosixRename old new := by
  simp only [PosixRename, resolve_toAbs, ← canReplaceNode_posix]
  constructor
  · intro hm
    obtain ⟨c, hc, hguard, hcan⟩ := hm.source
    refine ⟨hm.old_ne, hm.new_ne, ?_, hm.target, c, hc, fun r hr => Or.inr (hcan r hr)⟩
    rintro ⟨hpre, -⟩
    -- below a file there is no directory that could be the parent
    obtain ⟨b, hb, hbd⟩ := hm.target
    obtain ⟨s, rfl⟩ := hpre
    have hs : s ≠ [] := by
      rintro rfl
      exact hne (List.append_nil old).symm
    rw [List.dropLast_append_of_ne_nil hs] at hb
    obtain ⟨e, he, hed⟩ := h.resolveNames_of_append hb
    rw [hc] at he
    cases he
    by_cases hnil : s.dropLast = []
    · rw [hnil, List.append_nil, hc] at hb
      cases hb
      exact hguard hbd (List.prefix_append old s)
    · exact hguard (hed hnil) (List.prefix_append old s)
  · rintro ⟨hold, hnew, hbelow, htarget, c, hc, hcan⟩
    refine ⟨hne, hold, hnew, ⟨c, hc, fun _ hpre => hbelow ⟨hpre, hne⟩, ?_⟩, htarget⟩
    intro r hr
    rcases hcan r hr with rfl | hh
    · exact absurd (h.resolveNames_inj hc hr) hne
    · exact hh

/-- A path that leads nowhere can be renamed to itself. -/
def IdleRename (fs : MemoryFS) (old new : PathBuf) : Prop :=
  old = new ∧ old ≠ [] ∧ fs.resolve old.toAbs = none

theorem rename_posix_iff (h : fs.WF next) (old new : PathBuf) :
    ((fs.renameNodeAt old.toAbs new.toAbs).isSome = true ↔ fs.PosixRename old new) ↔
      ¬ fs.IdleRename old new := by
  by_cases hne : old = new
  · subst hne
    have hposix : fs.PosixRename old old ↔ old ≠ [] ∧ (fs.resolve old.toAbs).isSome = true := by
      constructor
      · rintro ⟨hold, -, -, -, c, hc, -⟩
        exact ⟨hold, by rw [hc]; rfl⟩
      · rintro ⟨hold, hs⟩
        obtain ⟨c, hc⟩ := Option.isSome_iff_exists.mp hs
        refine ⟨hold, hold, fun hh => hh.2 rfl, ?_, c, hc, ?_⟩
        · rw [resolve_toAbs, ← List.dropLast_append_getLast hold] at hc
          obtain ⟨d, hd, hdir⟩ := h.resolveNames_of_append hc
          exact ⟨d, by rw [resolve_toAbs, hd], hdir (by simp)⟩
        · intro r hr
          exact Or.inl (Option.some.inj (hr.symm.trans hc))
    rw [hposix, renameNodeAt_same]
    by_cases hnil : old = []
    · simp [hnil, IdleRename]
    · cases hr : fs.resolve old.toAbs <;> simp [hnil, IdleRename, hr]
  · have hidle : ¬ fs.IdleRename old new := fun hh => hne hh.1
    rw [renameNodeAt_isSome_iff h hne, canMove_iff_posixRename h hne]
    exact iff_of_true Iff.rfl hidle

theorem resolveParent_eq_some_iff {path : AbsPath} {d : NodeId} {x : FileName} :
    fs.resolveParent path = some (d, x) ↔
      path.fileName = some x ∧ fs.resolveNames path.names.dropLast = some d := by
  unfold resolveParent AbsPath.parent AbsPath.fileName AbsPath.names
  rcases List.eq_nil_or_concat path.components with hnil | ⟨cs, c, hcs⟩
  · simp [hnil, lastName]
  · have hfilter : cs.filter (· ≠ .curDir) = cs := by
      have hall : ∀ e ∈ cs ++ [c], e ≠ .curDir := by
        intro e he
        rw [← List.concat_eq_append, ← hcs] at he
        simpa using (List.mem_filter.mp he).2
      exact List.filter_eq_self.mpr fun e he => by simpa using hall e (List.mem_append_left _ he)
    have hparent : fs.resolve ⟨cs⟩ = fs.resolveNames (cs.filterMap Component.name?) := by
      rw [resolve, AbsPath.names, AbsPath.components, hfilter]
    rw [hcs, List.concat_eq_append]
    cases c with
    | normal y =>
      simp only [List.append_eq_nil_iff, List.cons_ne_nil, and_false, if_false, Option.bind_eq_bind,
        Option.bind_some, List.dropLast_concat, hparent, lastName_concat, Component.name?,
        List.filterMap_append, List.filterMap_cons, List.filterMap_nil]
      cases fs.resolveNames (cs.filterMap Component.name?) <;> simp [and_comm]
    | curDir => simp [Component.name?]
    | parentDir => simp [Component.name?]

/-- Between two places: the target has to be a directory and the source an entry, which
may not be a directory whose path the new one starts with. What is in the way must be
replaceable. -/
theorem renameEntry_isSome_iff (h : fs.WF next) (oldPath newPath : AbsPath) {a b : NodeId}
    {x y : FileName} :
    (fs.renameEntry oldPath newPath (a, x) (b, y)).isSome = true ↔
      fs.isDir b = true ∧ ∃ c, fs.entryAt a x = some c ∧
        (fs.isDir c = true → newPath.startsWith oldPath = false) ∧
        ∀ r, fs.entryAt b y = some r → r = c ∨ fs.canReplaceNode c r = true := by
  have hmem {d e : NodeId} {z : FileName} (hz : fs.entryAt d z = some e) :
      fs.nodeFromMap e = some e := nodeFromMap_eq_some.mpr ⟨h.entry_mem d z e hz, rfl⟩
  unfold renameEntry
  cases hea : fs.entriesOf a with
  | none => simp [entryAt, hea]
  | some es =>
    cases heb : fs.entriesOf b with
    | none => simp [isDir, heb]
    | some es' =>
      have hdb : fs.isDir b = true := by simp [isDir, heb]
      simp only [Option.bind_eq_bind, Option.bind_some, hdb, true_and]
      cases hx : fs.entryAt a x with
      | none =>
        have hes : es[x]? = none := by rwa [entryAt_of_entriesOf hea] at hx
        split_ifs <;> simp [renameWithin, renameAcross, hes]
      | some c =>
        have hes : es[x]? = some c := by rwa [entryAt_of_entriesOf hea] at hx
        have hy : es'[y]? = fs.entryAt b y := (entryAt_of_entriesOf heb y).symm
        simp only [Option.some.injEq, exists_eq_left']
        by_cases hg : fs.isDir c = true ∧ newPath.startsWith oldPath = true
        · split_ifs <;> simp [renameWithin, renameAcross, hes, hmem hx, hg]
        · have hok : fs.isDir c = true → newPath.startsWith oldPath = false := by
            intro hd
            simpa [hd] using hg
          rw [and_iff_right hok]
          by_cases hab : a = b
          · subst hab
            cases hea.symm.trans heb
            cases hr : fs.entryAt a y with
            | none => simp [renameWithin, hes, hmem hx, hg, hy, hr, clearTarget]
            | some r =>
              by_cases hrc : r = c
              · simp [renameWithin, hes, hmem hx, hg, hy, hr, hrc]
              · simp [renameWithin, hes, hmem hx, hg, hy, hr, hrc, clearTarget, hmem hr]
          · cases hr : fs.entryAt b y with
            | none => simp [renameAcross, hes, hmem hx, hg, hy, hr, hab]
            | some r =>
              by_cases hrc : r = c
              · simp [renameAcross, hes, hmem hx, hg, hy, hr, hrc, hab]
              · simp [renameAcross, hes, hmem hx, hg, hy, hr, hrc, hab, hmem hr]

theorem renameNodeAt_abs_isSome_iff (fs : MemoryFS) (old new : AbsPath) :
    (fs.renameNodeAt old new).isSome = true ↔
      old.isRoot = false ∧ new.isRoot = false ∧ (old.components = new.components ∨
        ∃ s t, fs.resolveParent old = some s ∧ fs.resolveParent new = some t ∧
          (fs.renameEntry old new s t).isSome = true) := by
  unfold renameNodeAt
  cases ho : old.isRoot <;> cases hn : new.isRoot <;>
    simp only [Bool.or_false, Bool.or_true, Bool.false_eq_true, if_true, if_false, Option.isSome_none,
      false_and, and_false, true_and, Bool.true_eq_false]
  split_ifs with hsame
  · simp [hsame]
  · cases hs : fs.resolveParent old with
    | none => simp [hsame]
    | some s =>
      cases ht : fs.resolveParent new with
      | none => simp [hsame]
      | some t => simp [hsame]

theorem WF.resolve_of_fileName (h : fs.WF next) {path : AbsPath} {x : FileName}
    (hx : path.fileName = some x) :
    fs.resolve path = (fs.resolveNames path.names.dropLast).bind (fs.entryAt · x) := by
  rw [resolve, AbsPath.names_of_fileName hx, h.resolveNames_concat, List.dropLast_concat]

/-- `rename` succeeds and puts a directory into itself or below itself. -/
def PlacesBelow (fs : MemoryFS) (old new : AbsPath) : Prop :=
  (fs.renameNodeAt old new).isSome = true ∧ ∃ c b y, fs.resolve old = some c ∧
    fs.isDir c = true ∧ fs.resolveParent new = some (b, y) ∧ Reaches fs.entryAt c b

/-- The names on the way to `new` lead through the directory `old`, which the guard does
not see as it compares the components, and nothing else is in the way. -/
structure EscapesGuard (fs : MemoryFS) (old new : AbsPath) : Prop where
  old_name : old.fileName.isSome = true
  new_name : new.fileName.isSome = true
  below : old.names <+: new.names.dropLast
  unseen : new.startsWith old = false
  nodes : ∃ c b, fs.resolve old = some c ∧ fs.isDir c = true ∧
    fs.resolveNames new.names.dropLast = some b ∧ fs.isDir b = true ∧
    ∀ r, fs.resolve new = some r → fs.canReplaceNode c r = true

theorem placesBelow_iff (h : fs.WF next) (old new : AbsPath) :
    fs.PlacesBelow old new ↔ fs.EscapesGuard old new := by
  constructor
  · rintro ⟨hs, c, b, y, hc, hcd, hb, s, hreach⟩
    obtain ⟨hy, hnb⟩ := resolveParent_eq_some_iff.mp hb
    -- the lookup of the new parent goes through the moved directory
    have hpre : old.names <+: new.names.dropLast := by
      refine ⟨s, h.resolveNames_inj ?_ hnb⟩
      rw [h.resolveNames_append, ← resolve, hc, Option.bind_some, hreach]
    have hne : old.names ≠ new.names := by
      intro he
      have hlen := hpre.length_le
      rw [he, AbsPath.names_of_fileName hy, List.dropLast_concat, List.length_append] at hlen
      simp at hlen
    obtain ⟨-, -, hcase⟩ := (renameNodeAt_abs_isSome_iff fs old new).mp hs
    rcases hcase with hsame | ⟨⟨a, x⟩, t, ha, hb', hr⟩
    · exact absurd (by rw [AbsPath.names, AbsPath.names, hsame]) hne
    · cases hb.symm.trans hb'
      obtain ⟨hx, hna⟩ := resolveParent_eq_some_iff.mp ha
      obtain ⟨hbd, c', hc', hguard, hcan⟩ := (renameEntry_isSome_iff h old new).mp hr
      have hcc : c' = c := by
        rw [h.resolve_of_fileName hx, hna, Option.bind_some, hc'] at hc
        exact Option.some.inj hc
      subst hcc
      refine ⟨by rw [hx]; rfl, by rw [hy]; rfl, hpre, hguard hcd, c', b, hc, hcd, hnb, hbd, ?_⟩
      intro r hrn
      rw [h.resolve_of_fileName hy, hnb, Option.bind_some] at hrn
      rcases hcan r hrn with rfl | hh
      · refine absurd (h.resolveNames_inj hc ?_) hne
        rw [AbsPath.names_of_fileName hy, h.resolveNames_concat, hnb, Option.bind_some, hrn]
      · exact hh
  · rintro ⟨hold, hnew, hpre, hunseen, c, b, hc, hcd, hnb, hbd, hcan⟩
    obtain ⟨x, hx⟩ := Option.isSome_iff_exists.mp hold
    obtain ⟨y, hy⟩ := Option.isSome_iff_exists.mp hnew
    obtain ⟨a, hna, hca⟩ : ∃ a, fs.resolveNames old.names.dropLast = some a ∧
        fs.entryAt a x = some c := by
      rw [h.resolve_of_fileName hx] at hc
      exact Option.bind_eq_some_iff.mp hc
    have hb : fs.resolveParent new = some (b, y) := resolveParent_eq_some_iff.mpr ⟨hy, hnb⟩
    have hroot {path : AbsPath} {z : FileName} (hz : path.fileName = some z) :
        path.isRoot = false := by
      rw [AbsPath.isRoot, List.isEmpty_eq_false_iff]
      intro hnil
      simp [AbsPath.fileName, hnil, lastName] at hz
    refine ⟨?_, c, b, y, hc, hcd, hb, ?_⟩
    · refine (renameNodeAt_abs_isSome_iff fs old new).mpr ⟨hroot hx, hroot hy, Or.inr
        ⟨(a, x), (b, y), resolveParent_eq_some_iff.mpr ⟨hx, hna⟩, hb, ?_⟩⟩
      refine (renameEntry_isSome_iff h old new).mpr ⟨hbd, c, hca, fun _ => hunseen, ?_⟩
      intro r hr
      refine Or.inr (hcan r ?_)
      rw [h.resolve_of_fileName hy, hnb, Option.bind_some, hr]
    · obtain ⟨s, hs⟩ := hpre
      refine ⟨s, ?_⟩
      rw [← hs, h.resolveNames_append, ← resolve, hc, Option.bind_some] at hnb
      exact hnb

theorem Created.acyclic {d : NodeId} {x : FileName} {n : Inode} (hc : Created fs fs' d x n)
    (h : fs.WF next) (hid : n.id = next) (hac : Acyclic fs.entryAt) : Acyclic fs'.entryAt := by
  have hfresh (y : FileName) : fs.entryAt n.id y = none :=
    entryAt_eq_none_of_heap (inodeOf_eq_none.mp (h.heap_fresh hid.ge)) y
  refine hac.of_link (b := d) (c := n.id) ?_ ?_
  · rintro ⟨s, hs⟩
    cases s with
    | nil =>
      cases hs
      obtain ⟨es, he⟩ := isDir_iff_entries.mp hc.dir
      have hnone : fs.heap n.id = none := inodeOf_eq_none.mp (h.heap_fresh hid.ge)
      simp [entriesOf, hnone] at he
    | cons y s => simp [walk, hfresh] at hs
  · rintro e m ⟨z, hz⟩
    rw [hc.entryAt] at hz
    split_ifs at hz with hd
    · exact Or.inr ⟨hd.1, (Option.some.inj hz).symm⟩
    · exact Or.inl ⟨z, hz⟩

theorem Removed.acyclic {d c : NodeId} {x : FileName} (hr : Removed fs fs' d x c)
    (hac : Acyclic fs.entryAt) : Acyclic fs'.entryAt := by
  refine hac.mono ?_
  rintro e m ⟨z, hz⟩
  rw [hr.entryAt] at hz
  split_ifs at hz
  exact ⟨z, hz⟩

theorem Moved.acyclic_iff {a b c : NodeId} {x y : FileName} {replaced : Option NodeId}
    (hm : Moved fs fs' a x b y c replaced) (hac : Acyclic fs.entryAt) :
    Acyclic fs'.entryAt ↔ ¬ Reaches fs.entryAt c b := by
  have hent : fs'.entryAt = setEdge (setEdge fs.entryAt a x none) b y (some c) := by
    funext d z
    exact hm.entryAt d z
  rw [hent]
  exact hac.move_iff hm.present

theorem isDir_of_reaches {c b : NodeId} (h : Reaches fs.entryAt c b) (hb : fs.isDir b = true) :
    fs.isDir c = true := by
  obtain ⟨s, hs⟩ := h
  cases s with
  | nil =>
    cases hs
    exact hb
  | cons z s =>
    obtain ⟨e, he, -⟩ := Option.bind_eq_some_iff.mp hs
    exact entryAt_isDir he

theorem rename_acyclic_iff (h : fs.WF next) (hac : Acyclic fs.entryAt) (old new : AbsPath) :
    Acyclic ((fs.renameNodeAt old new).getD fs).entryAt ↔ ¬ fs.PlacesBelow old new := by
  cases hr : fs.renameNodeAt old new with
  | none =>
    refine iff_of_true hac ?_
    rintro ⟨hs, -⟩
    simp [hr] at hs
  | some fs' =>
    rw [Option.getD_some]
    rcases renameNodeAt_cases h hr with ⟨rfl, he⟩ | ⟨a, x, b, y, c, replaced, ha, hb, hm, -, -⟩
    · refine iff_of_true hac ?_
      rintro ⟨-, c, b, y, hc, -, hb, hreach⟩
      obtain ⟨hy, hnb⟩ := resolveParent_eq_some_iff.mp hb
      -- the entry at the target is the directory itself, whose parent is not below it
      have hold : fs'.resolveParent old = some (b, y) := by
        rcases he with he | he
        · rw [← hb]
          simp only [resolveParent, AbsPath.parent, AbsPath.fileName, he]
        · rw [he, hb]
      obtain ⟨hx, hna⟩ := resolveParent_eq_some_iff.mp hold
      rw [h.resolve_of_fileName hx, hna, Option.bind_some] at hc
      exact hac b (Relation.TransGen.head' ⟨y, hc⟩ (reaches_iff_links.mp hreach))
    · rw [hm.acyclic_iff hac]
      have hc : fs.resolve old = some c := by
        obtain ⟨hx, hna⟩ := resolveParent_eq_some_iff.mp ha
        rw [h.resolve_of_fileName hx, hna, Option.bind_some]
        exact hm.present
      have hiff : fs.PlacesBelow old new ↔ Reaches fs.entryAt c b := by
        constructor
        · rintro ⟨-, c', b', y', hc', -, hb', hreach⟩
          cases hc.symm.trans hc'
          cases hb.symm.trans hb'
          exact hreach
        · intro hreach
          exact ⟨by rw [hr]; rfl, c, b, y, hc, isDir_of_reaches hreach hm.dir, hb, hreach⟩
      rw [hiff]

end MemoryFS

namespace World

variable {ι : Type} [DecidableEq ι] {w : World ι}

theorem call_rename_status (w : World ι) (f : MemoryRef ι) (old new : AbsPath) :
    (w.call (.rename f old new)).1 =
      if ((w.fs f.index).renameNodeAt old new).isSome = true then 0 else -1 := by
  cases hr : (w.fs f.index).renameNodeAt old new <;> simp [call, LowLevelFS.rename, hr]

/-- `rename` decides as POSIX does, and says -1 when it does not rename, except that a
missing path can be renamed to itself. -/
theorem rename_decides_iff (hw : w.WF) (f : MemoryRef ι) (old new : PathBuf) :
    (((w.call (.rename f old.toAbs new.toAbs)).1 = 0 ↔ (w.fs f.index).PosixRename old new) ∧
        ((w.call (.rename f old.toAbs new.toAbs)).1 ≠ 0 →
          (w.call (.rename f old.toAbs new.toAbs)).1 = -1)) ↔
      ¬ (old = new ∧ old ≠ [] ∧ (w.fs f.index).resolve old.toAbs = none) := by
  have hzero : (w.call (.rename f old.toAbs new.toAbs)).1 = 0 ↔
      ((w.fs f.index).renameNodeAt old.toAbs new.toAbs).isSome = true := by
    rw [call_rename_status]
    split_ifs with hs <;> simp [hs]
  have hother : (w.call (.rename f old.toAbs new.toAbs)).1 ≠ 0 →
      (w.call (.rename f old.toAbs new.toAbs)).1 = -1 := by
    rw [call_rename_status]
    split_ifs <;> simp
  rw [hzero, and_iff_left hother]
  exact rename_posix_iff (hw.fs f.index) old new

theorem rename_decides_madeAD :
    (madeAD.call (.rename fst (PathBuf.toAbs [.a]) (PathBuf.toAbs [.d]))).1 = 0 ↔
      (madeAD.fs fst.index).PosixRename [.a] [.d] := by
  refine ((rename_decides_iff madeAD_wf fst [.a] [.d]).mpr ?_).1
  rintro ⟨hsame, -⟩
  exact absurd hsame (by decide)

/-- `rename("/x", "/x")` returns 0 where there is no `/x`. -/
theorem not_rename_decides :
    ¬ ∀ old new : PathBuf, (madeAD.call (.rename fst old.toAbs new.toAbs)).1 = 0 ↔
      (madeAD.fs fst.index).PosixRename old new := by
  intro h
  obtain ⟨-, -, -, -, c, hc, -⟩ := (h [.x] [.x]).mp (by decide +kernel)
  have hnone : (madeAD.fs fst.index).resolve (PathBuf.toAbs [.x]) = none := by decide +kernel
  rw [hnone] at hc
  cases hc

def PlacesBelow (w : World ι) : MemoryCall ι → Prop
  | .rename f old new => (w.fs f.index).PlacesBelow old new
  | _ => False

def EscapesGuard (w : World ι) : MemoryCall ι → Prop
  | .rename f old new => (w.fs f.index).EscapesGuard old new
  | _ => False

omit [DecidableEq ι] in
theorem placesBelow_iff (hw : w.WF) (c : MemoryCall ι) : w.PlacesBelow c ↔ w.EscapesGuard c := by
  cases c with
  | rename f old new => exact MemoryFS.placesBelow_iff (hw.fs f.index) old new
  | _ => exact Iff.rfl

/-- Along any calls, no directory is moved below itself as long as no `rename` gets a
directory past the guard. -/
theorem calls_placesBelow_iff (hw : w.WF) (cs : List (MemoryCall ι)) :
    Runs.EveryStep step (fun w c => ¬ w.PlacesBelow c) w cs ↔
      Runs.EveryStep step (fun w c => ¬ w.EscapesGuard c) w cs := by
  constructor
  · intro h
    exact h.imp WF (fun w c hw hc => ⟨step_wf hw c, mt (placesBelow_iff hw c).mpr hc⟩) hw
  · intro h
    exact h.imp WF (fun w c hw hc => ⟨step_wf hw c, mt (placesBelow_iff hw c).mp hc⟩) hw

/-- A path with `..` that leads up, where the lookup skips it. -/
theorem placesBelow_movedUp :
    Runs.EveryStep step (fun w c => ¬ w.PlacesBelow c) two
      [.mkdir fst (PathBuf.toAbs [.a]) 0o755, .mkdir fst (PathBuf.toAbs [.a, .b]) 0o755,
        .rename fst (PathBuf.toAbs [.a, .b]) ⟨[.normal .a, .parentDir, .normal .d]⟩] := by
  refine (calls_placesBelow_iff (fresh_wf 2 .boot) _).mpr ⟨not_false, not_false, ?_, trivial⟩
  rintro ⟨-, -, hbelow, -⟩
  exact absurd hbelow (by decide)

/-- `rename("/a", "/../a/b")` puts the directory `/a` into itself. -/
theorem not_placesBelow_madeAD :
    ¬ ∀ old new : AbsPath, ¬ madeAD.PlacesBelow (.rename fst old new) := by
  intro h
  refine h (PathBuf.toAbs [.a]) ⟨[.parentDir, .normal .a, .normal .x]⟩ ?_
  refine ⟨by decide +kernel, 3, 3, .x, by decide +kernel, by decide +kernel, by decide +kernel, ?_⟩
  exact Reaches.root _ 3

def Acyclic (w : World ι) : Prop := ∀ i, NameGraph.Acyclic (w.fs i).entryAt

omit [DecidableEq ι] in
theorem Acyclic.of_grows {S : Set ι} {w' : World ι} (hw : w.WF) (hac : w.Acyclic)
    (h : Grows S w w') : w'.Acyclic := by
  induction h with
  | refl => exact hac
  | @tail u u' hu hg ih =>
    intro j
    cases hg with
    | idle hfs hs =>
      rw [hfs]
      exact ih j
    | created i d x n hi hid hc hfs hs =>
      by_cases hj : j = i
      · subst hj
        exact hc.acyclic ((Grows.wf hw hu).fs j) hid (ih j)
      · rw [hfs j hj]
        exact ih j

theorem Acyclic.putFs_iff (hac : w.Acyclic) (f : MemoryRef ι) (fs : MemoryFS) :
    (w.putFs f fs).Acyclic ↔ NameGraph.Acyclic fs.entryAt := by
  constructor
  · intro h
    have hf := h f.index
    rwa [putFs_fs] at hf
  · intro h j
    by_cases hj : j = f.index
    · subst hj
      rwa [putFs_fs]
    · rw [putFs_fs_ne w f fs hj]
      exact hac j

theorem Acyclic.remove (hw : w.WF) (hac : w.Acyclic) (f : MemoryRef ι) (path : AbsPath)
    (kind : VfsEntryKind) :
    (w.putFs f ((w.fs f.index).removeNodeAt path kind).2).Acyclic := by
  rw [hac.putFs_iff]
  rcases removeNodeAt_cases (hw.fs f.index) path kind with he | ⟨d, x, c, -, -, -, hr⟩
  · rw [he]
    exact hac f.index
  · exact hr.acyclic (hac f.index)

theorem step_rename (w : World ι) (f : MemoryRef ι) (old new : AbsPath) :
    w.step (.rename f old new) =
      w.putFs f (((w.fs f.index).renameNodeAt old new).getD (w.fs f.index)) := by
  cases hr : (w.fs f.index).renameNodeAt old new <;>
    simp [step, call, LowLevelFS.rename, hr]

theorem step_acyclic_iff (hw : w.WF) (hac : w.Acyclic) (c : MemoryCall ι) :
    (w.step c).Acyclic ↔ ¬ w.EscapesGuard c := by
  cases c with
  | rename f old new =>
    rw [step_rename, hac.putFs_iff]
    exact (rename_acyclic_iff (hw.fs f.index) (hac f.index) old new).trans
      (not_congr (MemoryFS.placesBelow_iff (hw.fs f.index) old new))
  | openWithHandle f path flags mode =>
    refine iff_of_true ?_ not_false
    rw [step, call_openWithHandle]
    exact hac.of_grows hw (openAt_grows hw f _ _ flags mode)
  | openChild h path flags mode =>
    refine iff_of_true ?_ not_false
    rw [step, call_openChild]
    exact hac.of_grows hw (openAt_grows hw h.nodes _ _ flags mode)
  | mkdir f path mode =>
    exact iff_of_true (hac.of_grows hw (memory_mkdir hw f path mode)) not_false
  | mkdirChild h path mode =>
    refine iff_of_true ?_ not_false
    rw [step, call_mkdirChild]
    exact hac.of_grows hw (createAt_spec hw h.nodes _ .dir mode)
  | unlink f path => exact iff_of_true (hac.remove hw f path .file) not_false
  | rmdir f path => exact iff_of_true (hac.remove hw f path .dir) not_false
  | chmod f path mode =>
    refine iff_of_true ?_ not_false
    cases hr : (w.fs f.index).chmod path mode with
    | none =>
      have he : w.step (.chmod f path mode) = w := by simp [step, call, LowLevelFS.chmod, hr]
      rw [he]
      exact hac
    | some fs' =>
      obtain ⟨id, -, hm⟩ := chmod_cases hr
      have he : w.step (.chmod f path mode) = w.putFs f fs' := by
        simp [step, call, LowLevelFS.chmod, hr]
      have hent : fs'.entryAt = (w.fs f.index).entryAt := by
        funext d x
        exact hm.entryAt d x
      rw [he, hac.putFs_iff, hent]
      exact hac f.index
  | elsewhere live => exact iff_of_true hac not_false

/-- In every state of a run no directory is below itself, exactly as long as the guard
holds. -/
theorem calls_acyclic_iff (hw : w.WF) (hac : w.Acyclic) (cs : List (MemoryCall ι)) :
    (∀ l, l <+: cs → (w.calls l).Acyclic) ↔
      Runs.EveryStep step (fun w c => ¬ w.EscapesGuard c) w cs := by
  have hinv (w : World ι) (c : MemoryCall ι) (hw : w.WF) : (w.step c).WF := step_wf hw c
  have hstep (w : World ι) (c : MemoryCall ι) (hw : w.WF) (hac : w.Acyclic) :
      (w.step c).Acyclic ↔ ¬ w.EscapesGuard c := step_acyclic_iff hw hac c
  exact Runs.forall_prefix_iff hinv hstep hw hac cs

end World

end SandboxVfs
