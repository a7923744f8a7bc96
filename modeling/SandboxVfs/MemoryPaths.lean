import SandboxVfs.MemoryOps

/-! The operations of `MemoryFS` on normalised paths, where a lookup is a walk in
a tree and every change is one of the three changes of its paths. -/

namespace SandboxVfs

open NameGraph

namespace MemoryFS

variable {fs fs' : MemoryFS} {next : NodeId}

theorem resolve_toAbs (fs : MemoryFS) (p : PathBuf) : fs.resolve p.toAbs = fs.resolveNames p := by
  simp [resolve]

theorem resolveParent_toAbs_concat (fs : MemoryFS) (p : PathBuf) (x : FileName) :
    fs.resolveParent (PathBuf.toAbs (p ++ [x])) = (fs.resolveNames p).map (·, x) := by
  simp only [resolveParent, PathBuf.parent_toAbs_concat, PathBuf.fileName_toAbs_concat,
    Option.bind_eq_bind, Option.bind_some, resolve_toAbs]
  cases fs.resolveNames p <;> rfl

@[simp] theorem resolveParent_toAbs_nil (fs : MemoryFS) :
    fs.resolveParent (PathBuf.toAbs []) = none := by
  simp [resolveParent]

theorem resolveParent_toAbs_eq_some {p : PathBuf} {d : NodeId} {x : FileName}
    (h : fs.resolveParent p.toAbs = some (d, x)) :
    ∃ q, p = q ++ [x] ∧ fs.resolveNames q = some d := by
  rcases List.eq_nil_or_concat p with rfl | ⟨q, y, rfl⟩
  · simp at h
  · rw [List.concat_eq_append] at h ⊢
    rw [resolveParent_toAbs_concat] at h
    obtain ⟨d', hd, he⟩ := Option.map_eq_some_iff.mp h
    cases he
    exact ⟨q, rfl, hd⟩

theorem WF.resolveNames_fun (h : fs.WF next) : fs.resolveNames = walk fs.entryAt fs.root :=
  funext h.resolveNames_eq

theorem WF.resolveNames_concat (h : fs.WF next) (p : PathBuf) (x : FileName) :
    fs.resolveNames (p ++ [x]) = (fs.resolveNames p).bind (fs.entryAt · x) := by
  simp only [h.resolveNames_fun, walk_concat]

theorem WF.resolveNames_append (h : fs.WF next) (p s : PathBuf) :
    fs.resolveNames (p ++ s) = (fs.resolveNames p).bind (walk fs.entryAt · s) := by
  simp only [h.resolveNames_fun, walk_append]

theorem WF.resolveNames_mem (h : fs.WF next) {p : PathBuf} {c : NodeId}
    (hp : fs.resolveNames p = some c) : c ∈ fs.nodes := by
  rcases List.eq_nil_or_concat p with rfl | ⟨q, x, rfl⟩
  · rw [h.resolveNames_nil] at hp
    cases hp
    exact h.root_mem
  · rw [List.concat_eq_append, h.resolveNames_concat] at hp
    obtain ⟨d, -, hd⟩ := Option.bind_eq_some_iff.mp hp
    exact h.entry_mem d x c hd

theorem WF.resolveNames_inj (h : fs.WF next) {p q : PathBuf} {c : NodeId}
    (hp : fs.resolveNames p = some c) (hq : fs.resolveNames q = some c) : p = q := by
  rw [h.resolveNames_eq] at hp hq
  exact h.isTree p q c hp hq

theorem WF.resolveNames_of_append (h : fs.WF next) {p s : PathBuf} {c : NodeId}
    (hp : fs.resolveNames (p ++ s) = some c) :
    ∃ d, fs.resolveNames p = some d ∧ (s ≠ [] → fs.isDir d = true) := by
  rw [h.resolveNames_append] at hp
  obtain ⟨d, hd, hs⟩ := Option.bind_eq_some_iff.mp hp
  refine ⟨d, hd, ?_⟩
  intro hne
  obtain ⟨x, s, rfl⟩ := List.exists_cons_of_ne_nil hne
  obtain ⟨e, he, -⟩ := Option.bind_eq_some_iff.mp hs
  exact entryAt_isDir he

theorem WF.resolveNames_none_below (h : fs.WF next) {p q : PathBuf} (hpq : p <+: q)
    (hp : fs.resolveNames p = none) : fs.resolveNames q = none := by
  obtain ⟨s, rfl⟩ := hpq
  rw [h.resolveNames_append, hp]
  rfl

theorem Created.resolveNames {parent : NodeId} {name : FileName} {n : Inode} (h : fs.WF next)
    (hc : Created fs fs' parent name n) (hid : n.id = next) {p : PathBuf}
    (hp : fs.resolveNames p = some parent) :
    fs'.resolveNames = addPath fs.resolveNames (p ++ [name]) n.id := by
  have hent : fs'.entryAt = setEdge fs.entryAt parent name (some n.id) := by
    funext d x
    exact hc.entryAt d x
  have hne : n.id ≠ parent := by
    rintro rfl
    exact absurd hc.dir (by simp [isDir_eq_inode, hc.fresh])
  rw [(hc.wf h hid).resolveNames_fun, h.resolveNames_fun, hc.root, hent]
  apply walk_add h.isTree _ hc.absent _ hne
  · rw [← h.resolveNames_eq, hp]
  · intro y
    exact entryAt_eq_none_of_heap (inodeOf_eq_none.mp hc.fresh) y

theorem Created.resolveNames_detached {parent : NodeId} {name : FileName} {n : Inode}
    (h : fs.WF next) (hc : Created fs fs' parent name n) (hid : n.id = next)
    (hp : ∀ p, fs.resolveNames p ≠ some parent) : fs'.resolveNames = fs.resolveNames := by
  rw [(hc.wf h hid).resolveNames_fun, h.resolveNames_fun, hc.root]
  funext q
  apply walk_congr
  intro p d hd x
  rw [hc.entryAt, if_neg]
  rintro ⟨rfl, -⟩
  exact hp p (by rw [h.resolveNames_eq, hd])

theorem Removed.resolveNames {parent c : NodeId} {name : FileName} (h : fs.WF next)
    (hr : Removed fs fs' parent name c) {p : PathBuf} (hp : fs.resolveNames p = some parent) :
    fs'.resolveNames = erasePath fs.resolveNames (p ++ [name]) := by
  have hent : fs'.entryAt = setEdge fs.entryAt parent name none := by
    funext d x
    exact hr.entryAt d x
  rw [(hr.wf h).resolveNames_fun, h.resolveNames_fun, hr.root, hent]
  exact walk_erase h.isTree (by rw [← h.resolveNames_eq, hp])

theorem Moved.resolveNames {a b c : NodeId} {x y : FileName} {replaced : Option NodeId}
    (h : fs.WF next) (hm : Moved fs fs' a x b y c replaced) {pa pb : PathBuf}
    (ha : fs.resolveNames pa = some a) (hb : fs.resolveNames pb = some b)
    (hsub : ¬ (pa ++ [x]) <+: pb) :
    fs'.resolveNames = movePath fs.resolveNames (pa ++ [x]) (pb ++ [y]) := by
  have hent : fs'.entryAt = setEdge (setEdge fs.entryAt a x none) b y (some c) := by
    funext d z
    exact hm.entryAt d z
  rw [h.resolveNames_eq] at ha hb
  rw [(hm.wf h).resolveNames_fun, h.resolveNames_fun, hm.root, hent]
  exact walk_move h.isTree ha hm.present hb hsub

theorem ModeSet.resolveNames {id : NodeId} {mode : Mode} (h : fs.WF next)
    (hs : ModeSet fs fs' id mode) : fs'.resolveNames = fs.resolveNames := by
  have hent : fs'.entryAt = fs.entryAt := by
    funext d x
    exact hs.entryAt d x
  rw [(hs.wf h).resolveNames_fun, h.resolveNames_fun, hs.root, hent]

theorem removeNodeAt_toAbs_iff (h : fs.WF next) (p : PathBuf) (kind : VfsEntryKind) :
    (fs.removeNodeAt p.toAbs kind).1 = 0 ↔
      p ≠ [] ∧ ∃ c, fs.resolveNames p = some c ∧ fs.kindMatches c kind = true := by
  rw [removeNodeAt_eq_zero_iff h]
  rcases List.eq_nil_or_concat p with rfl | ⟨q, x, rfl⟩
  · simp
  · simp only [List.concat_eq_append, PathBuf.isRoot_toAbs, resolveParent_toAbs_concat,
      h.resolveNames_concat]
    constructor
    · rintro ⟨-, d, z, c, hd, hc, hk⟩
      obtain ⟨d', hd', he⟩ := Option.map_eq_some_iff.mp hd
      cases he
      exact ⟨by simp, c, by simp [hd', hc], hk⟩
    · rintro ⟨-, c, hc, hk⟩
      obtain ⟨d, hd, hx⟩ := Option.bind_eq_some_iff.mp hc
      exact ⟨by simp, d, x, c, by simp [hd], hx, hk⟩

theorem removeNodeAt_toAbs_cases (h : fs.WF next) (p : PathBuf) (kind : VfsEntryKind) :
    fs.removeNodeAt p.toAbs kind = (-1, fs) ∨
      ∃ fs' q x d c, fs.removeNodeAt p.toAbs kind = (0, fs') ∧ p = q ++ [x] ∧
        fs.resolveNames q = some d ∧ fs.resolveNames p = some c ∧ fs.kindMatches c kind = true ∧
        Removed fs fs' d x c ∧ fs'.resolveNames = erasePath fs.resolveNames p := by
  rcases removeNodeAt_cases h p.toAbs kind with hh | ⟨d, x, c, hd, hk, hz, hr⟩
  · exact Or.inl hh
  · right
    obtain ⟨q, rfl, hq⟩ := resolveParent_toAbs_eq_some hd
    refine ⟨_, q, x, d, c, Prod.ext hz rfl, rfl, hq, ?_, hk, hr, hr.resolveNames h hq⟩
    rw [h.resolveNames_concat, hq]
    exact hr.present

/-- The lexical guard, together with the shape of the tree, keeps a node from being
moved below itself. -/
theorem not_below_of_guard (h : fs.WF next) {pa pb : PathBuf} {x y : FileName} {b c : NodeId}
    (hc : fs.resolveNames (pa ++ [x]) = some c) (hb : fs.resolveNames pb = some b)
    (hdir : fs.isDir b = true)
    (hguard : fs.isDir c = true →
      (PathBuf.toAbs (pb ++ [y])).startsWith (PathBuf.toAbs (pa ++ [x])) = false) :
    ¬ (pa ++ [x]) <+: pb := by
  intro hpre
  have hcd : fs.isDir c = true := by
    obtain ⟨s, rfl⟩ := hpre
    by_cases hs : s = []
    · subst hs
      rw [List.append_nil, hc] at hb
      cases hb
      exact hdir
    · obtain ⟨d, hd, hdd⟩ := h.resolveNames_of_append hb
      rw [hc] at hd
      cases hd
      exact hdd hs
  have hh := hguard hcd
  rw [Bool.eq_false_iff, ne_eq, PathBuf.startsWith_toAbs] at hh
  exact hh (hpre.trans (List.prefix_append _ _))

/-- A successful rename of a path to a different one moved the subtree. -/
theorem renameNodeAt_toAbs (h : fs.WF next) {old new : PathBuf} (hne : old ≠ new)
    (hr : fs.renameNodeAt old.toAbs new.toAbs = some fs') :
    ∃ pa x a pb y b c replaced, old = pa ++ [x] ∧ new = pb ++ [y] ∧
      fs.resolveNames pa = some a ∧ fs.resolveNames pb = some b ∧
      fs.resolveNames old = some c ∧ Moved fs fs' a x b y c replaced ∧
      (∀ r, replaced = some r → fs.canReplaceNode c r = true) ∧ ¬ old <+: pb ∧
      fs'.resolveNames = movePath fs.resolveNames old new := by
  rcases renameNodeAt_cases h hr with ⟨-, he⟩ | ⟨a, x, b, y, c, replaced, ha, hb, hm, hcan, hg⟩
  · rcases he with he | he
    · exact absurd (PathBuf.components_toAbs_inj.mp he) hne
    · exfalso
      -- equal parents and names would make the paths equal
      unfold renameNodeAt at hr
      split_ifs at hr with hroot hsame
      · exact hne (PathBuf.components_toAbs_inj.mp hsame)
      · obtain ⟨⟨a, x⟩, ha, -⟩ := Option.bind_eq_some_iff.mp hr
        obtain ⟨pa, rfl, hpa⟩ := resolveParent_toAbs_eq_some ha
        obtain ⟨pb, rfl, hpb⟩ := resolveParent_toAbs_eq_some (he ▸ ha)
        exact hne (by rw [h.resolveNames_inj hpa hpb])
  · obtain ⟨pa, rfl, hpa⟩ := resolveParent_toAbs_eq_some ha
    obtain ⟨pb, rfl, hpb⟩ := resolveParent_toAbs_eq_some hb
    have hc : fs.resolveNames (pa ++ [x]) = some c := by
      rw [h.resolveNames_concat, hpa]
      exact hm.present
    have hsub := not_below_of_guard h hc hpb hm.dir hg
    exact ⟨pa, x, a, pb, y, b, c, replaced, rfl, rfl, hpa, hpb, hc, hm, hcan, hsub,
      hm.resolveNames h hpa hpb hsub⟩

def Childless (fs : MemoryFS) (c : NodeId) : Prop :=
  fs.isDir c = true → (fs.entriesOf c).any (·.isEmpty) = true

theorem childless_iff {c : NodeId} : fs.Childless c ↔ ∀ x, fs.entryAt c x = none := by
  constructor
  · intro h x
    cases hb : fs.entryAt c x with
    | none => rfl
    | some b =>
      obtain ⟨es, he, hes⟩ := Option.bind_eq_some_iff.mp hb
      have hemp := h (entryAt_isDir hb)
      rw [he, Option.any_some, Std.ExtTreeMap.isEmpty_iff] at hemp
      subst hemp
      simp at hes
  · intro h hd
    rw [@entriesOf_eq_of_entryAt fs c ∅ hd (by simpa using h)]
    rfl

theorem canReplaceNode_iff {c r : NodeId} :
    fs.canReplaceNode c r = true ↔ fs.isDir c = fs.isDir r ∧ fs.Childless r := by
  unfold canReplaceNode Childless
  cases hc : fs.isDir c <;> cases hr : fs.isDir r <;> simp_all [isDir]

theorem childless_of_kindMatches {c : NodeId} {kind : VfsEntryKind}
    (h : fs.kindMatches c kind = true) : fs.Childless c := by
  intro hd
  cases kind with
  | file => simp [kindMatches, hd] at h
  | dir => exact h

theorem childless_of_canReplace {c r : NodeId} (h : fs.canReplaceNode c r = true) :
    fs.Childless r := (canReplaceNode_iff.mp h).2

theorem WF.eq_nil_of_childless (h : fs.WF next) {p s : PathBuf} {c e : NodeId}
    (hc : fs.resolveNames p = some c) (hempty : fs.Childless c)
    (hs : fs.resolveNames (p ++ s) = some e) : s = [] := by
  cases s with
  | nil => rfl
  | cons x s =>
    rw [h.resolveNames_append, hc, Option.bind_some] at hs
    obtain ⟨b, hb, -⟩ := Option.bind_eq_some_iff.mp hs
    rw [childless_iff.mp hempty x] at hb
    cases hb

/-- A path that was moved away is not an ancestor of its new place, nor below it. -/
theorem WF.not_prefix_of_renamed (h : fs.WF next) {old new : PathBuf} (hne : old ≠ new)
    (hr : fs.renameNodeAt old.toAbs new.toAbs = some fs') : ¬ new <+: old ∧ ¬ old <+: new := by
  obtain ⟨pa, x, a, pb, y, b, c, replaced, rfl, rfl, -, hb, hc, hm, hcan, hsub, -⟩ :=
    renameNodeAt_toAbs h hne hr
  constructor
  · rintro ⟨s, hs⟩
    rw [← hs] at hc
    obtain ⟨r, hr', -⟩ := h.resolveNames_of_append hc
    have hrep : replaced = some r := by
      rw [h.resolveNames_concat, hb] at hr'
      exact hm.replaced_eq.symm.trans hr'
    -- what was replaced has nothing below it
    have hnil := h.eq_nil_of_childless hr' (childless_of_canReplace (hcan r hrep)) hc
    subst hnil
    exact hne (by simpa using hs.symm)
  · intro hpre
    rcases List.prefix_concat_iff.mp hpre with he | hpre
    · exact hne he
    · exact hsub hpre

/-- What `rename` asks of two different paths. -/
structure CanMove (fs : MemoryFS) (old new : PathBuf) : Prop where
  ne : old ≠ new
  old_ne : old ≠ []
  new_ne : new ≠ []
  source : ∃ c, fs.resolveNames old = some c ∧ (fs.isDir c = true → ¬ old <+: new) ∧
    ∀ r, fs.resolveNames new = some r → fs.canReplaceNode c r = true
  target : ∃ b, fs.resolveNames new.dropLast = some b ∧ fs.isDir b = true

theorem renameNodeAt_isSome_iff (h : fs.WF next) {old new : PathBuf} (hne : old ≠ new) :
    (fs.renameNodeAt old.toAbs new.toAbs).isSome = true ↔ fs.CanMove old new := by
  constructor
  · intro hs
    obtain ⟨fs', hr⟩ := Option.isSome_iff_exists.mp hs
    obtain ⟨pa, x, a, pb, y, b, c, replaced, rfl, rfl, ha, hb, hc, hm, hcan, hsub, -⟩ :=
      renameNodeAt_toAbs h hne hr
    refine ⟨hne, by simp, by simp, ⟨c, hc, ?_, ?_⟩, b, by simpa using hb, hm.dir⟩
    · intro _ hpre
      rcases List.prefix_concat_iff.mp hpre with he | hpre
      · exact hne he
      · exact hsub hpre
    · intro r hr'
      apply hcan
      rw [h.resolveNames_concat, hb] at hr'
      exact hm.replaced_eq.symm.trans hr'
  · rintro ⟨-, hold, hnew, ⟨c, hc, hguard, hcan⟩, b, hb, hdb⟩
    obtain ⟨pa, x, rfl⟩ := (List.eq_nil_or_concat old).resolve_left hold
    obtain ⟨pb, y, rfl⟩ := (List.eq_nil_or_concat new).resolve_left hnew
    simp only [List.concat_eq_append, List.dropLast_concat] at *
    obtain ⟨a, ha, hx⟩ := Option.bind_eq_some_iff.mp ((h.resolveNames_concat pa x).symm.trans hc)
    have hy : fs.resolveNames (pb ++ [y]) = fs.entryAt b y := by
      rw [h.resolveNames_concat, hb]
      rfl
    obtain ⟨es, he, hes⟩ := Option.bind_eq_some_iff.mp hx
    obtain ⟨es', he'⟩ := isDir_iff_entries.mp hdb
    have hmem (d e : NodeId) (z : FileName) (hz : fs.entryAt d z = some e) :
        fs.nodeFromMap e = some e :=
      nodeFromMap_eq_some.mpr ⟨h.entry_mem d z e hz, rfl⟩
    have hg : ¬ (fs.isDir c = true ∧ pa ++ [x] <+: pb ++ [y]) := fun hh => hguard hh.1 hh.2
    -- the target entry is not the moved node itself, which has one path only
    have hother : es'[y]? ≠ some c := by
      intro hyc
      rw [← entryAt_of_entriesOf he', ← hy] at hyc
      exact hne (h.resolveNames_inj hc hyc)
    have hreplace (r : NodeId) (hr : es'[y]? = some r) :
        fs.nodeFromMap r = some r ∧ fs.canReplaceNode c r = true := by
      rw [← entryAt_of_entriesOf he'] at hr
      exact ⟨hmem b r y hr, hcan r (hy.trans hr)⟩
    have hcm := hmem a c x hx
    simp only [renameNodeAt, renameEntry, PathBuf.isRoot_toAbs, PathBuf.components_toAbs_inj, hne,
      resolveParent_toAbs_concat, ha, hb, he, he', Option.map_some, Option.bind_eq_bind,
      Option.bind_some]
    by_cases hab : a = b
    · subst hab
      cases he.symm.trans he'
      simp only [renameWithin, hes]
      cases hr : es[y]? with
      | none => simp [clearTarget, hcm, hg]
      | some r =>
        obtain ⟨hrm, hrc⟩ := hreplace r hr
        have hrc' : r ≠ c := fun hh => hother (hh ▸ hr)
        simp [clearTarget, hcm, hg, hrm, hrc, hrc']
    · simp only [renameAcross, hes, hab]
      cases hr : es'[y]? with
      | none => simp [hcm, hg]
      | some r =>
        obtain ⟨hrm, hrc⟩ := hreplace r hr
        have hrc' : r ≠ c := fun hh => hother (hh ▸ hr)
        simp [hcm, hg, hrm, hrc, hrc']

theorem renameNodeAt_same (fs : MemoryFS) (p : PathBuf) :
    fs.renameNodeAt p.toAbs p.toAbs = if p = [] then none else some fs := by
  simp [renameNodeAt]

def dirEntry (fs : MemoryFS) (e : FileName × NodeId) : VfsDirEntry :=
  { name := e.1.bytes, kind := fs.entryKind e.2, ino := some e.2 }

theorem mapM_option_eq_map {α β : Type*} {f : α → Option β} {g : α → β} {l : List α}
    (h : ∀ a ∈ l, f a = some (g a)) : l.mapM f = some (l.map g) := by
  induction l with
  | nil => rfl
  | cons a l ih =>
    have ha := h a (List.mem_cons_self)
    have hl := ih fun b hb => h b (List.mem_cons_of_mem a hb)
    simp [List.mapM_cons, ha, hl]

theorem entryAt_of_mem_toList {d : NodeId} {es : Entries} (he : fs.entriesOf d = some es)
    {e : FileName × NodeId} (hm : e ∈ es.toList) : fs.entryAt d e.1 = some e.2 := by
  rw [entryAt_of_entriesOf he]
  exact Std.ExtTreeMap.mem_toList_iff_getElem?_eq_some.mp hm

theorem WF.readNodeDir_eq (h : fs.WF next) (id : NodeId) :
    fs.readNodeDir id = (fs.entriesOf id).map fun es => es.toList.map fs.dirEntry := by
  unfold readNodeDir
  cases he : fs.entriesOf id with
  | none => rfl
  | some es =>
    refine mapM_option_eq_map ?_
    intro e hm
    have hmem := h.entry_mem id e.1 e.2 (entryAt_of_mem_toList he hm)
    simp [nodeFromMap, hmem, dirEntry]

theorem WF.mem_readNodeDir (h : fs.WF next) {id : NodeId} {l : List VfsDirEntry}
    (hl : fs.readNodeDir id = some l) {e : VfsDirEntry} (he : e ∈ l) :
    ∃ x c, e.name = x.bytes ∧ fs.entryAt id x = some c := by
  rw [h.readNodeDir_eq] at hl
  obtain ⟨es, hes, rfl⟩ := Option.map_eq_some_iff.mp hl
  obtain ⟨a, ha, rfl⟩ := List.mem_map.mp he
  exact ⟨a.1, a.2, rfl, entryAt_of_mem_toList hes ha⟩

theorem createNode_toAbs (m : MemoryState) (p : PathBuf) (x : FileName) (kind : VfsEntryKind)
    (mode : Mode) :
    createNode m (PathBuf.toAbs (p ++ [x])) kind mode =
      match m.fs.resolveNames p with
      | none => (none, m)
      | some d => createNodeInDir m d x kind mode := by
  rw [createNode, resolveParent_toAbs_concat]
  cases m.fs.resolveNames p <;> rfl

end MemoryFS

end SandboxVfs
