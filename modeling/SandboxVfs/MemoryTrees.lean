import SandboxVfs.MemoryPaths
import SandboxVfs.Listings
import SandboxVfs.Orphans
import SandboxVfs.TreeBackends

/-! The directory trees that the nodes of a memory file system hold, and what each change
of the nodes does to them. -/

namespace SandboxVfs

open NameGraph FileTrees

namespace MemoryFS

/-- The root is on top of a tree, and so is a node that has left the map. -/
def Top (fs : MemoryFS) (r : NodeId) : Prop := r = fs.root ∨ r ∉ fs.nodes

instance (fs : MemoryFS) (r : NodeId) : Decidable (fs.Top r) :=
  inferInstanceAs (Decidable (_ ∨ _))

def treeEntry (i : Inode) : TreeEntry := ⟨i.id, i.isDir, ⟨i.mode, i.backingFd⟩⟩

def entryOf (fs : MemoryFS) (c : NodeId) : Option TreeEntry := (fs.inodeOf c).map treeEntry

def lookFrom (fs : MemoryFS) (r : NodeId) (p : PathBuf) : Option TreeEntry :=
  if fs.Top r then (walk fs.entryAt r p).bind fs.entryOf else none

/-- A node that has left the map has no parent. -/
def NoParentOutside (fs : MemoryFS) : Prop :=
  ∀ c i, fs.inodeOf c = some i → c ∉ fs.nodes → i.parent = none

/-- The trees are those that the nodes hold, and every node is in one. -/
structure HasTree (fs : MemoryFS) (t : FileTree) : Prop where
  root : t.root = fs.root
  look : ∀ r p, t.look r p = fs.lookFrom r p
  placed : ∀ c, (fs.inodeOf c).isSome → ∃ pl, t.At c pl
  linked : fs.LinksInMap
  outside : fs.NoParentOutside

variable {fs fs' : MemoryFS} {next : NodeId} {t : FileTree} {c d r : NodeId} {p q : PathBuf}
  {x : FileName} {pl : TreePlace}

theorem WF.entryOf_object (hw : fs.WF next) {e : TreeEntry} (h : fs.entryOf c = some e) :
    e.object = c := by
  obtain ⟨i, hi, rfl⟩ := Option.map_eq_some_iff.mp h
  exact (hw.heap_id c i hi).1

theorem entryOf_dir {e : TreeEntry} (h : fs.entryOf c = some e) : e.dir = fs.isDir c := by
  obtain ⟨i, hi, rfl⟩ := Option.map_eq_some_iff.mp h
  simp [isDir_eq_inode, hi, treeEntry]

theorem WF.entry_known (hw : fs.WF next) (h : fs.entryAt d x = some c) :
    ∃ e, fs.entryOf c = some e := by
  obtain ⟨i, hi, -⟩ := hw.entry_inode d x c h
  exact ⟨treeEntry i, by rw [entryOf, hi]; rfl⟩

namespace HasTree

variable (ht : fs.HasTree t) (hw : fs.WF next)

include ht hw

theorem at_iff : t.At c (r, p) ↔
    fs.Top r ∧ walk fs.entryAt r p = some c ∧ ∃ e, fs.entryOf c = some e := by
  unfold FileForest.At
  simp only [ht.look, lookFrom]
  constructor
  · rintro ⟨e, he, rfl⟩
    split_ifs at he with htop
    obtain ⟨c, hc, he⟩ := Option.bind_eq_some_iff.mp he
    cases hw.entryOf_object he
    exact ⟨htop, hc, e, he⟩
  · rintro ⟨htop, hc, e, he⟩
    refine ⟨e, ?_, hw.entryOf_object he⟩
    rw [if_pos htop, hc, Option.bind_some, he]

theorem look_at (h : t.At c pl) : t.look pl.1 pl.2 = fs.entryOf c := by
  obtain ⟨htop, hc, -⟩ := (ht.at_iff hw).mp h
  rw [ht.look, lookFrom, if_pos htop, hc, Option.bind_some]

theorem look_child (h : t.At d (r, p)) (x : FileName) :
    t.look r (p ++ [x]) = (fs.entryAt d x).bind fs.entryOf := by
  obtain ⟨htop, hd, -⟩ := (ht.at_iff hw).mp h
  rw [ht.look, lookFrom, if_pos htop, walk_concat, hd, Option.bind_some]

theorem look_child_eq_none (h : t.At d (r, p)) :
    t.look r (p ++ [x]) = none ↔ fs.entryAt d x = none := by
  rw [ht.look_child hw h]
  cases hx : fs.entryAt d x with
  | none => simp
  | some c =>
    obtain ⟨e, he⟩ := hw.entry_known hx
    simp [he]

theorem at_child (h : t.At d (r, p)) (hx : fs.entryAt d x = some c) : t.At c (r, p ++ [x]) := by
  obtain ⟨htop, hd, -⟩ := (ht.at_iff hw).mp h
  refine (ht.at_iff hw).mpr ⟨htop, ?_, hw.entry_known hx⟩
  rw [walk_concat, hd, Option.bind_some, hx]

theorem at_path (h : fs.resolveNames p = some c) : t.At c (t.root, p) := by
  rw [hw.resolveNames_eq] at h
  refine (ht.at_iff hw).mpr ⟨Or.inl ht.root, by rw [ht.root, h], ?_⟩
  obtain ⟨i, hi⟩ := Option.isSome_iff_exists.mp
    (hw.mem_heap c (hw.resolveNames_mem ((hw.resolveNames_eq p).trans h)))
  exact ⟨treeEntry i, by rw [entryOf, hi]; rfl⟩

theorem look_path (p : PathBuf) : t.look t.root p = (fs.resolveNames p).bind fs.entryOf := by
  have htop : fs.Top t.root := Or.inl ht.root
  rw [ht.look, lookFrom, if_pos htop, hw.resolveNames_eq, ht.root]

theorem isTree (h : t.At d (r, p)) : IsTree fs.entryAt r := by
  obtain ⟨htop, -, -⟩ := (ht.at_iff hw).mp h
  obtain ⟨e, he, -⟩ := h
  obtain ⟨e', he', ho⟩ := FileForest.look_top he
  have hr : t.At r (r, []) := ⟨e', he', ho⟩
  intro q s n hq hs
  have hat (z : PathBuf) (hz : walk fs.entryAt r z = some n) : t.At n (r, z) := by
    refine (ht.at_iff hw).mpr ⟨htop, hz, ?_⟩
    rcases List.eq_nil_or_concat z with rfl | ⟨z, y, rfl⟩
    · cases hz
      exact ((ht.at_iff hw).mp hr).2.2
    · rw [List.concat_eq_append] at hz
      obtain ⟨b, -, hy⟩ := walk_concat_eq_some hz
      exact hw.entry_known hy
  exact congrArg Prod.snd ((hat q hq).unique (hat s hs))

theorem walk_ne (h : t.At d (r, p)) {s : NodeId} (hs : fs.Top s) (hne : s ≠ r) :
    walk fs.entryAt s q ≠ some d := by
  intro hq
  have hd := ((ht.at_iff hw).mp h).2.2
  have hh := h.unique ((ht.at_iff hw).mpr ⟨hs, hq, hd⟩)
  exact hne (congrArg Prod.fst hh).symm

theorem unreached (h : t.At d (r, p)) {s : NodeId} (hs : fs.Top s) (hne : s ≠ r) :
    ¬ Reaches fs.entryAt s d := by
  rintro ⟨q, hq⟩
  exact ht.walk_ne hw h hs hne hq

end HasTree

theorem Created.noParentOutside {n : Inode} (hc : Created fs fs' d x n)
    (ho : fs.NoParentOutside) : fs'.NoParentOutside := by
  intro j i hi hj
  rw [hc.nodes, Finset.mem_insert, not_or] at hj
  rw [hc.inodeOf, if_neg hj.1] at hi
  exact ho j i hi hj.2

theorem Removed.noParentOutside (hr : Removed fs fs' d x c) (ho : fs.NoParentOutside) :
    fs'.NoParentOutside := by
  intro j i hi hj
  rw [hr.inodeOf] at hi
  split_ifs at hi with hjc
  · obtain ⟨k, -, rfl⟩ := Option.map_eq_some_iff.mp hi
    rfl
  · refine ho j i hi fun hm => hj ?_
    rw [hr.nodes]
    exact Finset.mem_erase.mpr ⟨hjc, hm⟩

theorem Moved.noParentOutside {a b : NodeId} {y : FileName} {replaced : Option NodeId}
    (hw : fs.WF next) (hm : Moved fs fs' a x b y c replaced) (ho : fs.NoParentOutside) :
    fs'.NoParentOutside := by
  intro j i hi hj
  rw [hm.mem_nodes] at hj
  rw [hm.inodeOf] at hi
  split_ifs at hi with hjc hrep
  · exact absurd ⟨hjc ▸ hw.entry_mem a x c hm.present, hjc ▸ hm.ne⟩ hj
  · obtain ⟨k, -, rfl⟩ := Option.map_eq_some_iff.mp hi
    rfl
  · exact ho j i hi fun hmem => hj ⟨hmem, hrep⟩

theorem ModeSet.noParentOutside {mode : Mode} (hs : ModeSet fs fs' c mode)
    (ho : fs.NoParentOutside) : fs'.NoParentOutside := by
  intro j i hi hj
  rw [hs.nodes] at hj
  rw [hs.inodeOf] at hi
  split_ifs at hi
  · obtain ⟨k, hk, rfl⟩ := Option.map_eq_some_iff.mp hi
    exact ho j k hk hj
  · exact ho j i hi hj

theorem entryOf_congr {f : Inode → Inode} (hf : ∀ i, treeEntry (f i) = treeEntry i)
    (h : ∀ j, fs'.inodeOf j = fs.inodeOf j ∨ fs'.inodeOf j = (fs.inodeOf j).map f) :
    fs'.entryOf = fs.entryOf := by
  funext j
  unfold entryOf
  rcases h j with hj | hj
  · rw [hj]
  · rw [hj, Option.map_map, show treeEntry ∘ f = treeEntry from funext hf]

theorem lookFrom_congr (htop : fs'.Top r ↔ fs.Top r)
    (hwalk : fs.Top r → walk fs'.entryAt r p = walk fs.entryAt r p)
    (hent : ∀ c, walk fs.entryAt r p = some c → fs'.entryOf c = fs.entryOf c) :
    fs'.lookFrom r p = fs.lookFrom r p := by
  unfold lookFrom
  by_cases h : fs.Top r
  · rw [if_pos h, if_pos (htop.mpr h), hwalk h]
    cases hc : walk fs.entryAt r p with
    | none => rfl
    | some c => exact hent c hc
  · rw [if_neg h, if_neg fun hh => h (htop.mp hh)]

theorem HasTree.top_at (ht : fs.HasTree t) (hw : fs.WF next) (h : t.At d (r, p)) :
    fs.Top r ∧ ∃ e, fs.entryOf r = some e := by
  obtain ⟨htop, -, -⟩ := (ht.at_iff hw).mp h
  obtain ⟨e, he, -⟩ := h
  obtain ⟨e', he', -⟩ := FileForest.look_top he
  rw [ht.look, lookFrom, if_pos htop, walk_nil, Option.bind_some] at he'
  exact ⟨htop, e', he'⟩

theorem Created.hasTree (hw : fs.WF next) (ht : fs.HasTree t) {n : Inode}
    (hc : Created fs fs' d x n) (hid : n.id = next) (hd : t.At d (r, p)) (hm : t.CanMake r p x)
    {e : TreeEntry} (he : e = treeEntry n) (hu : t.Unused e.object) :
    fs'.HasTree (t.make r p x e hm hu) := by
  subst he
  have hent : fs'.entryAt = setEdge fs.entryAt d x (some n.id) := by
    funext e y
    exact hc.entryAt e y
  have hunknown : fs.entryOf n.id = none := by rw [entryOf, hc.fresh, Option.map_none]
  have hleaf (y : FileName) : fs.entryAt n.id y = none :=
    entryAt_eq_none_of_heap (inodeOf_eq_none.mp hc.fresh) y
  have hold (j : NodeId) (hj : j ≠ n.id) : fs'.entryOf j = fs.entryOf j := by
    rw [entryOf, entryOf, hc.inodeOf, if_neg hj]
  obtain ⟨htopr, hwd, e, he⟩ := (ht.at_iff hw).mp hd
  have hrne : r ≠ n.id := by
    rintro rfl
    obtain ⟨-, e', he'⟩ := ht.top_at hw hd
    rw [hunknown] at he'
    cases he'
  have hdne : n.id ≠ d := by
    rintro rfl
    rw [hunknown] at he
    cases he
  -- a walk that starts elsewhere does not come to the new node
  have hmet (s : NodeId) (q : PathBuf) (hs : s ≠ n.id) : walk fs.entryAt s q ≠ some n.id := by
    intro hq
    rcases List.eq_nil_or_concat q with rfl | ⟨q, y, rfl⟩
    · exact hs (Option.some.inj hq)
    · rw [List.concat_eq_append] at hq
      obtain ⟨b, -, hy⟩ := walk_concat_eq_some hq
      obtain ⟨e', he'⟩ := hw.entry_known hy
      rw [hunknown] at he'
      cases he'
  have htops (s : NodeId) (hs : s ≠ n.id) : fs'.Top s ↔ fs.Top s := by
    simp [Top, hc.root, hc.nodes, hs]
  refine ⟨ht.root.trans hc.root.symm, ?_, ?_, hc.linksInMap ht.linked,
    hc.noParentOutside ht.outside⟩
  · intro s q
    show t.madeLook r p x (treeEntry n) s q = fs'.lookFrom s q
    unfold FileForest.madeLook
    by_cases hs : s = n.id
    · subst hs
      have hnot : ¬ fs'.Top n.id := by
        rintro (hr | hr)
        · rw [hc.root] at hr
          exact hw.not_mem_fresh hid.ge (hr ▸ hw.root_mem)
        · exact hr (by rw [hc.nodes]; exact Finset.mem_insert_self _ _)
      rw [if_neg fun hh => hrne hh.1.symm, ht.look, lookFrom, lookFrom, if_neg hnot]
      cases q with
      | nil => simp [hunknown]
      | cons y q => simp [walk, hleaf]
    · split_ifs with hq
      · obtain ⟨rfl, rfl⟩ := hq
        rw [lookFrom, if_pos ((htops s hs).mpr htopr), hent,
          walk_add (ht.isTree hw hd) hwd hc.absent hleaf hdne, addPath, if_pos rfl,
          Option.bind_some, entryOf, hc.inodeOf, if_pos rfl, Option.map_some]
      · rw [ht.look]
        refine (lookFrom_congr (htops s hs) ?_ fun c hcw => hold c ?_).symm
        · intro htop
          rw [hent]
          by_cases hsr : s = r
          · subst hsr
            rw [walk_add (ht.isTree hw hd) hwd hc.absent hleaf hdne, addPath,
              if_neg fun hh => hq ⟨rfl, hh⟩]
          · exact walk_setEdge_of_unreached x _ (ht.unreached hw hd htop hsr) q
        · rintro rfl
          exact hmet s q hs hcw
  · intro c hk
    by_cases hcn : c = n.id
    · exact ⟨(r, p ++ [x]), treeEntry n, by simp [FileForest.make, FileForest.madeLook],
        hcn ▸ rfl⟩
    · rw [hc.inodeOf, if_neg hcn] at hk
      obtain ⟨pl, e', he', ho⟩ := ht.placed c hk
      exact ⟨pl, e', FileForest.madeLook_of_some hm he', ho⟩

theorem HasTree.not_reaches (ht : fs.HasTree t) (hw : fs.WF next) (hd : t.At d (r, p))
    (hx : fs.entryAt d x = some c) : ¬ Reaches fs.entryAt c d := by
  rintro ⟨z, hz⟩
  obtain ⟨-, hwd, -⟩ := (ht.at_iff hw).mp hd
  have hc : walk fs.entryAt r (p ++ [x]) = some c := by
    rw [walk_concat, hwd, Option.bind_some, hx]
  have hlen := congrArg List.length ((ht.isTree hw hd).path_eq_of_walk hc hz hwd)
  simp at hlen

theorem Removed.hasTree (hw : fs.WF next) (ht : fs.HasTree t) (hr : Removed fs fs' d x c)
    (hd : t.At d (t.root, p)) {e : TreeEntry} (he : t.look t.root (p ++ [x]) = some e)
    (hne : p ++ [x] ≠ []) : fs'.HasTree (t.remove t.root (p ++ [x]) e he hne) := by
  have hent : fs'.entryAt = setEdge fs.entryAt d x none := by
    funext b y
    exact hr.entryAt b y
  have hkeep : fs'.entryOf = fs.entryOf :=
    entryOf_congr (f := Inode.dropped) (fun i => rfl) fun j => by
      rw [hr.inodeOf]
      split_ifs <;> simp
  obtain ⟨htopr, hwd, -⟩ := (ht.at_iff hw).mp hd
  have hc := ht.at_child hw hd hr.present
  obtain ⟨-, hwc, -⟩ := (ht.at_iff hw).mp hc
  have hobj : e.object = c := by
    obtain ⟨e', he', ho⟩ := hc
    cases he.symm.trans he'
    exact ho
  have hcr : c ≠ fs.root := hw.entry_ne_root d x c hr.present
  have hmem : c ∈ fs.nodes := hw.entry_mem d x c hr.present
  have htopc : fs'.Top c := Or.inr (by rw [hr.nodes]; exact Finset.notMem_erase c _)
  have htops (s : NodeId) (hs : s ≠ c) : fs'.Top s ↔ fs.Top s := by
    simp [Top, hr.root, hr.nodes, hs]
  refine ⟨ht.root.trans hr.root.symm, ?_, ?_, hr.linksInMap ht.linked,
    hr.noParentOutside ht.outside⟩
  · intro s q
    show t.removedLook t.root (p ++ [x]) e.object s q = fs'.lookFrom s q
    rw [hobj]
    unfold FileForest.removedLook
    split_ifs with hs hroot
    · subst hs
      rw [ht.look, lookFrom, lookFrom, if_pos htopr, if_pos htopc, walk_append, hwc,
        Option.bind_some, hkeep, hent,
        walk_setEdge_of_unreached x none (ht.not_reaches hw hd hr.present)]
    · obtain ⟨rfl, hq⟩ := hroot
      rw [lookFrom, hent, walk_erase (ht.isTree hw hd) hwd, erasePath, if_pos hq]
      simp
    · rw [ht.look]
      refine (lookFrom_congr (htops s hs) (fun htop => ?_) fun c _ => by rw [hkeep]).symm
      rw [hent]
      by_cases hsr : s = t.root
      · subst hsr
        rw [walk_erase (ht.isTree hw hd) hwd, erasePath, if_neg fun hh => hroot ⟨rfl, hh⟩]
      · exact walk_setEdge_of_unreached x _ (ht.unreached hw hd htop hsr) q
  · intro j hj
    have hj' : (fs.inodeOf j).isSome := by
      rw [hr.inodeOf] at hj
      split_ifs at hj <;> simpa using hj
    obtain ⟨⟨s, q⟩, e', he', ho⟩ := ht.placed j hj'
    by_cases hq : s = t.root ∧ p ++ [x] <+: q
    · obtain ⟨rfl, z, rfl⟩ := hq
      exact ⟨(e.object, z), e', by simpa [FileForest.remove, FileForest.removedLook] using he', ho⟩
    · refine ⟨(s, q), e', ?_, ho⟩
      refine (FileForest.removedLook_other (fun hs => ?_) hq).trans he'
      -- what is taken out was not on top before
      rw [hs] at he'
      obtain ⟨e'', he'', -⟩ := FileForest.look_top he'
      rw [FileForest.look_object_nil he hne] at he''
      cases he''

/-- A place is lost only for what comes to lie elsewhere. -/
theorem HasTree.placed_of (ht : fs.HasTree t) {t' : FileTree}
    (hknown : ∀ j, (fs'.inodeOf j).isSome → (fs.inodeOf j).isSome)
    (hmoved : ∀ s q e, t.look s q = some e → ∃ s' q' e', t'.look s' q' = some e' ∧
      e'.object = e.object) (j : NodeId) (hj : (fs'.inodeOf j).isSome) : ∃ pl, t'.At j pl := by
  obtain ⟨⟨s, q⟩, e, he, ho⟩ := ht.placed j (hknown j hj)
  obtain ⟨s', q', e', he', ho'⟩ := hmoved s q e he
  exact ⟨(s', q'), e', he', ho'.trans ho⟩

theorem Moved.hasTree {a b : NodeId} {y : FileName} {replaced : Option NodeId} {pa pb : PathBuf}
    (hw : fs.WF next) (ht : fs.HasTree t) (hm : Moved fs fs' a x b y c replaced)
    (ha : t.At a (t.root, pa)) (hb : t.At b (t.root, pb))
    (hcan : t.CanMove (pa ++ [x]) (pb ++ [y])) :
    fs'.HasTree (t.move (pa ++ [x]) (pb ++ [y]) hcan) := by
  have hent : fs'.entryAt = setEdge (setEdge fs.entryAt a x none) b y (some c) := by
    funext d z
    exact hm.entryAt d z
  have hkeep : fs'.entryOf = fs.entryOf := by
    funext j
    rw [entryOf, entryOf, hm.inodeOf]
    split_ifs
    · rw [Option.map_map]
      rfl
    · rw [Option.map_map]
      rfl
    · rfl
  obtain ⟨htopr, hwa, -⟩ := (ht.at_iff hw).mp ha
  obtain ⟨-, hwb, -⟩ := (ht.at_iff hw).mp hb
  have hrep : t.look t.root (pb ++ [y]) = replaced.bind fs.entryOf := by
    rw [ht.look_child hw hb, hm.replaced_eq]
  have hrepAt (r : NodeId) (hr : replaced = some r) : t.At r (t.root, pb ++ [y]) :=
    ht.at_child hw hb (hm.replaced_eq.trans hr)
  -- nothing lies in what is replaced
  have hleaf (r : NodeId) (hr : replaced = some r) (z : FileName) : fs'.entryAt r z = none := by
    obtain ⟨e, he, -⟩ := hrepAt r hr
    obtain ⟨_, _, _, hl⟩ := hcan.source
    have hz := (ht.look_child_eq_none hw (hrepAt r hr)).mp ((hl e he).2 z)
    rw [hm.entryAt, if_neg, hz]
    · split_ifs <;> rfl
    · rintro ⟨rfl, -⟩
      have hlen := congrArg (fun pl : TreePlace => pl.2.length) (hb.unique (hrepAt r hr))
      simp at hlen
  have htops (s : NodeId) : fs'.Top s ↔ fs.Top s ∨ replaced = some s := by
    rw [Top, Top, hm.root, hm.mem_nodes]
    tauto
  refine ⟨(FileForest.move_root hcan).trans (ht.root.trans hm.root.symm), ?_, ?_,
    hm.linksInMap ht.linked,
    hm.noParentOutside hw ht.outside⟩
  · intro s q
    by_cases hs : s = t.root
    · subst hs
      rw [FileForest.move_look_main, lookFrom, if_pos ((htops _).mpr (Or.inl htopr)), hkeep, hent,
        walk_move (ht.isTree hw ha) hwa hm.present hwb
          (fun hpre => hcan.outside (by rwa [List.dropLast_concat])), movePath]
      simp only [ht.look, lookFrom, if_pos htopr]
      split_ifs <;> rfl
    · by_cases hr : replaced = some s
      · obtain ⟨e, he, ho⟩ := hrepAt s hr
        subst ho
        rw [FileForest.move_look_replaced hcan he, lookFrom,
          if_pos ((htops e.object).mpr (Or.inr hr)), hkeep]
        cases q with
        | nil =>
          rw [List.append_nil, hrep, hr]
          rfl
        | cons z q =>
          have hz : t.look t.root (pb ++ [y] ++ [z]) = none := by
            obtain ⟨_, _, _, hl⟩ := hcan.source
            exact (hl e he).2 z
          rw [FileForest.look_none_below hz (q := pb ++ [y] ++ z :: q) ⟨q, by simp⟩, walk,
            hleaf e.object hr]
          rfl
      · rw [FileForest.move_look_other hcan hs, ht.look]
        · refine (lookFrom_congr ((htops s).trans (or_iff_left hr)) (fun htop => ?_)
            fun j _ => by rw [hkeep]).symm
          have hfrom {d : NodeId} {q : PathBuf} (hd : t.At d (t.root, q)) :
              ¬ Reaches fs.entryAt s d := ht.unreached hw hd htop hs
          have hb' : ¬ Reaches (setEdge fs.entryAt a x none) s b := by
            rintro ⟨z, hz⟩
            rw [walk_setEdge_of_unreached x none (hfrom ha)] at hz
            exact hfrom hb ⟨z, hz⟩
          rw [hent, walk_setEdge_of_unreached y _ hb', walk_setEdge_of_unreached x _ (hfrom ha)]
        · intro e he ho
          rw [hrep] at he
          obtain ⟨r, hr', he'⟩ := Option.bind_eq_some_iff.mp he
          rw [hw.entryOf_object he'] at ho
          exact hr (ho ▸ hr')
  · refine ht.placed_of ?_ ?_
    · intro j hj
      rw [hm.inodeOf] at hj
      split_ifs at hj <;> simpa using hj
    · intro s q e he
      by_cases hs : s = t.root
      · subst hs
        by_cases hold : pa ++ [x] <+: q
        · obtain ⟨z, rfl⟩ := hold
          refine ⟨t.root, pb ++ [y] ++ z, e, ?_, rfl⟩
          rw [FileForest.move_look_main, if_pos (List.prefix_append _ z), List.drop_left, he]
        · by_cases hnew : pb ++ [y] <+: q
          · obtain ⟨z, rfl⟩ := hnew
            obtain ⟨e', he'⟩ := FileForest.look_prefix he
            exact ⟨e'.object, z, e, (FileForest.move_look_replaced hcan he').trans he, rfl⟩
          · refine ⟨t.root, q, e, ?_, rfl⟩
            rw [FileForest.move_look_main, if_neg hnew, if_neg hold, he]
      · refine ⟨s, q, e, ?_, rfl⟩
        rw [FileForest.move_look_other hcan hs, he]
        intro e' he' ho
        obtain ⟨e'', he'', -⟩ := FileForest.look_top he
        rw [← ho, FileForest.look_object_nil he' hcan.new_ne] at he''
        cases he''

theorem ModeSet.hasTree {mode : Mode} (hw : fs.WF next) (ht : fs.HasTree t)
    (hs : ModeSet fs fs' c mode) (hc : t.At c (r, p)) :
    fs'.HasTree (t.change r p ({ · with mode := mode })) := by
  have hent : fs'.entryAt = fs.entryAt := by
    funext d x
    exact hs.entryAt d x
  have hentry (j : NodeId) : fs'.entryOf j =
      (fs.entryOf j).map fun e => if j = c then e.change ({ · with mode := mode }) else e := by
    rw [entryOf, entryOf, hs.inodeOf]
    split_ifs
    · rw [Option.map_map, Option.map_map]
      rfl
    · rw [Option.map_map]
      rfl
  have htops (s : NodeId) : fs'.Top s ↔ fs.Top s := by rw [Top, Top, hs.root, hs.nodes]
  refine ⟨ht.root.trans hs.root.symm, ?_, ?_, hs.linksInMap ht.linked,
    hs.noParentOutside ht.outside⟩
  · intro s q
    show t.changedLook r p _ s q = fs'.lookFrom s q
    rw [FileForest.changedLook, ht.look, lookFrom, lookFrom, hent]
    by_cases htop : fs.Top s
    · rw [if_pos htop, if_pos ((htops s).mpr htop)]
      cases hq : walk fs.entryAt s q with
      | none => rfl
      | some j =>
        rw [Option.bind_some, Option.bind_some, hentry]
        cases hj : fs.entryOf j with
        | none => rfl
        | some e =>
          have hat : t.At j (s, q) := (ht.at_iff hw).mpr ⟨htop, hq, e, hj⟩
          have hiff : (s = r ∧ q = p) ↔ j = c := by
            constructor
            · rintro ⟨rfl, rfl⟩
              obtain ⟨e₁, he₁, rfl⟩ := hat
              obtain ⟨e₂, he₂, rfl⟩ := hc
              rw [Option.some.inj (he₁.symm.trans he₂)]
            · rintro rfl
              exact Prod.ext_iff.mp (hat.unique hc)
          rw [Option.map_some, Option.map_some]
          simp only [hiff]
    · rw [if_neg htop, if_neg fun hh => htop ((htops s).mp hh)]
      rfl
  · refine ht.placed_of ?_ ?_
    · intro j hj
      rw [hs.inodeOf] at hj
      split_ifs at hj <;> simpa using hj
    · intro s q e he
      obtain ⟨d, hd, -⟩ := FileForest.changedLook_of_some (r := r) (p := p)
        (f := ({ · with mode := mode })) he
      obtain ⟨e', he', ho, -⟩ := FileForest.changedLook_eq_some hd
      cases he.symm.trans he'
      exact ⟨s, q, d, hd, ho⟩

theorem new_hasTree (sys : Sys) :
    (new sys).fs.HasTree (.single ⟨sys.nextNodeId, true, ⟨0o755, sys.takeId.newFd.1⟩⟩ rfl) := by
  have hwalk (r : NodeId) (p : PathBuf) :
      walk (new sys).fs.entryAt r p = if p = [] then some r else none := by
    cases p with
    | nil => rfl
    | cons x p => simp [walk, new_entryAt]
  refine ⟨rfl, ?_, ?_, ?_, ?_⟩
  · intro r p
    rw [lookFrom, hwalk]
    by_cases hp : p = []
    · subst hp
      by_cases hr : r = sys.nextNodeId
      · subst hr
        have htop : (new sys).fs.Top sys.nextNodeId := Or.inl rfl
        rw [if_pos htop, if_pos rfl, Option.bind_some, entryOf, new_inodeOf, if_pos rfl]
        exact if_pos ⟨rfl, rfl⟩
      · simp [FileForest.single, hr, entryOf, new_inodeOf]
    · simp [FileForest.single, hp]
  · intro c hc
    rw [new_inodeOf] at hc
    split_ifs at hc with h
    · subst h
      exact ⟨(sys.nextNodeId, []), _, if_pos ⟨rfl, rfl⟩, rfl⟩
    · cases hc
  · intro c i hi
    rw [new_inodeOf] at hi
    split_ifs at hi with h
    · cases hi
      simp [new, h]
  · intro c i hi hc
    rw [new_inodeOf] at hi
    split_ifs at hi with h
    · exact absurd (by simp [new, h]) hc

open Std.DTreeMap.Internal in
theorem values_eq (es : Entries) : es.values = es.toList.map (·.2) := by
  obtain ⟨⟨m⟩⟩ := es
  induction m using Quotient.ind with
  | _ m =>
    show m.inner.values = (Impl.Const.toList m.inner).map (·.2)
    rw [Impl.values_eq_map_snd, Impl.Const.toList_eq_toListModel_map, List.map_map]
    rfl

namespace HasTree

variable (ht : fs.HasTree t) (hw : fs.WF next)

include ht hw

theorem above_at (hc : t.At c pl) :
    Option.Rel t.At ((fs.parentOf c).bind fs.nodeFromMap) (t.above pl) := by
  obtain ⟨r, p⟩ := pl
  obtain ⟨htop, hwc, e, he⟩ := (ht.at_iff hw).mp hc
  unfold FileForest.above
  rcases List.eq_nil_or_concat p with rfl | ⟨q, x, rfl⟩
  · cases hwc
    by_cases hr : c = t.root
    · subst hr
      rw [ht.root, hw.root_parent, Option.bind_some, nodeFromMap, if_pos hw.root_mem]
      simp only [true_or, if_true, List.dropLast_nil]
      exact .some (ht.root ▸ hc)
    · have hmem := htop.resolve_left (fun hh => hr (hh.trans ht.root.symm))
      obtain ⟨i, hi, -⟩ := Option.map_eq_some_iff.mp he
      have hp : fs.parentOf c = none := by
        rw [parentOf_eq_inode, hi]
        exact ht.outside c i hi hmem
      rw [hp, if_neg (by simp [hr])]
      exact .none
  · rw [List.concat_eq_append] at hwc hc ⊢
    obtain ⟨d, hd, hx⟩ := walk_concat_eq_some hwc
    have hdat : t.At d (r, q) := by
      refine (ht.at_iff hw).mpr ⟨htop, hd, ?_⟩
      rcases List.eq_nil_or_concat q with rfl | ⟨q, y, rfl⟩
      · cases hd
        exact (ht.top_at hw hc).2
      · rw [List.concat_eq_append] at hd
        obtain ⟨b, -, hy⟩ := walk_concat_eq_some hd
        exact hw.entry_known hy
    rw [hw.entry_parent hx, Option.bind_some, nodeFromMap]
    have hiff : d ∈ fs.nodes ↔ r = t.root ∨ 2 ≤ (q ++ [x]).length := by
      rcases List.eq_nil_or_concat q with rfl | ⟨q, y, rfl⟩
      · cases hd
        simp only [List.nil_append, List.length_singleton]
        rw [ht.root]
        constructor
        · exact fun hm => Or.inl (htop.resolve_right (not_not.mpr hm))
        · rintro (rfl | hlen)
          · exact hw.root_mem
          · omega
      · rw [List.concat_eq_append] at hd ⊢
        obtain ⟨b, -, hy⟩ := walk_concat_eq_some hd
        simp [hw.entry_mem b y d hy]
    by_cases hm : d ∈ fs.nodes
    · rw [if_pos hm, if_pos (hiff.mp hm), List.dropLast_concat]
      exact .some hdat
    · rw [if_neg hm, if_neg fun hh => hm (hiff.mpr hh)]
      exact .none

theorem stepRelative_at (hc : t.At c pl) (comp : Component) :
    Option.Rel t.At (fs.stepRelative c comp) (FileTree.stepRelative t pl comp) := by
  cases comp with
  | curDir => exact .some hc
  | parentDir => exact ht.above_at hw hc
  | normal x =>
    show Option.Rel t.At (fs.edge c x) (t.child pl x)
    rw [hw.edge_eq]
    unfold FileForest.child
    rw [ht.look_child hw hc]
    cases hx : fs.entryAt c x with
    | none => exact .none
    | some d =>
      obtain ⟨e, he⟩ := hw.entry_known hx
      rw [Option.bind_some, he]
      exact .some (ht.at_child hw hc hx)

theorem resolveRelative_at (hc : t.At c pl) (path : RelPath) :
    Option.Rel t.At (fs.resolveRelative c path) (FileTree.walkFrom t pl path) := by
  unfold resolveRelative FileTree.walkFrom
  generalize path.components = comps
  induction comps generalizing c pl with
  | nil => exact .some hc
  | cons comp comps ih =>
    rw [List.foldlM_cons, List.foldlM_cons]
    have hs := ht.stepRelative_at hw hc comp
    cases hn : fs.stepRelative c comp <;> cases hn' : FileTree.stepRelative t pl comp <;>
      rw [hn, hn'] at hs <;> cases hs
    · exact .none
    · exact ih (by assumption)

def SameTarget (t : FileTree) (a : NodeId × FileName) (b : TreePlace × FileName) : Prop :=
  t.At a.1 b.1 ∧ a.2 = b.2

theorem relativeTarget_at (hc : t.At c pl) (path : RelPath) :
    Option.Rel (SameTarget t) (fs.resolveRelativeParent c path)
      (FileTree.relativeTarget t pl path) := by
  unfold resolveRelativeParent FileTree.relativeTarget
  cases path.parent with
  | none => exact .none
  | some parent =>
    simp only [Option.bind_eq_bind, Option.bind_some]
    have hp := ht.resolveRelative_at hw hc parent
    cases hn : fs.resolveRelative c parent <;> cases hn' : FileTree.walkFrom t pl parent <;>
      rw [hn, hn'] at hp <;> cases hp
    · exact .none
    · rename_i hat
      cases path.fileName with
      | none => exact .none
      | some x => exact .some ⟨hat, rfl⟩

theorem target_at (p : PathBuf) :
    Option.Rel (SameTarget t) (fs.resolveParent p.toAbs) (FileTree.target t p.toAbs) := by
  rcases List.eq_nil_or_concat p with rfl | ⟨q, x, rfl⟩
  · rw [resolveParent_toAbs_nil]
    simp only [FileTree.target, PathBuf.parent_toAbs_nil]
    exact .none
  · rw [List.concat_eq_append, resolveParent_toAbs_concat]
    simp only [FileTree.target, PathBuf.parent_toAbs_concat, PathBuf.fileName_toAbs_concat,
      PathBuf.names_toAbs, Option.bind_eq_bind, Option.bind_some, ht.look_path hw]
    cases hq : fs.resolveNames q with
    | none => exact .none
    | some d =>
      have hat := ht.at_path hw hq
      obtain ⟨-, -, e, he⟩ := (ht.at_iff hw).mp hat
      rw [Option.map_some, Option.bind_some, he]
      exact .some ⟨hat, rfl⟩

theorem names_at (hd : t.At d (r, p)) : t.names r p = fs.namesIn d := by
  refine FileForest.Lists.names ⟨?_, ?_⟩
  · unfold namesIn
    cases fs.entriesOf d with
    | none => exact .nil
    | some es => exact es.ordered_keys
  · intro x
    rw [mem_namesIn, ht.look_child hw hd]
    constructor
    · rintro ⟨c, hc⟩
      obtain ⟨e, he⟩ := hw.entry_known hc
      exact ⟨e, by rw [hc, Option.bind_some, he]⟩
    · rintro ⟨e, he⟩
      obtain ⟨c, hc, -⟩ := Option.bind_eq_some_iff.mp he
      exact ⟨c, hc⟩

theorem readNodeDir_at (hd : t.At d pl) {e : TreeEntry} (he : fs.entryOf d = some e) :
    fs.readNodeDir d = FileTree.list t pl e := by
  obtain ⟨r, p⟩ := pl
  rw [hw.readNodeDir_eq, FileTree.list, ht.names_at hw hd, entryOf_dir he, namesIn]
  cases hes : fs.entriesOf d with
  | none => simp [isDir, hes]
  | some es =>
    rw [isDir, hes, Option.isSome_some, if_pos rfl, Option.map_some, Option.elim_some,
      ← Std.ExtTreeMap.map_fst_toList_eq_keys, List.filterMap_map, Option.some.injEq,
      ← List.filterMap_eq_map]
    refine List.filterMap_congr fun a ha => ?_
    have hx := entryAt_of_mem_toList hes ha
    obtain ⟨e', he'⟩ := hw.entry_known hx
    simp only [Function.comp_apply, ht.look_child hw hd, hx, Option.bind_some, he',
      Option.map_some, Option.some.injEq]
    unfold dirEntry FileTree.dirEntry entryKind
    rw [entryOf_dir he', hw.entryOf_object he']

theorem links_at (hd : t.At d pl) {n : Node} (hn : fs.heap d = some n) :
    n.links = 0 ↔ pl.2 = [] ∧ pl.1 ≠ t.root := by
  obtain ⟨r, p⟩ := pl
  obtain ⟨htop, hwd, -⟩ := (ht.at_iff hw).mp hd
  have hlink : n.links ≠ 0 ↔ d ∈ fs.nodes :=
    ht.linked d n.inode (by rw [inodeOf, hn, Option.map_some])
  rw [← not_iff_not, ← ne_eq, hlink, ht.root]
  rcases List.eq_nil_or_concat p with rfl | ⟨q, x, rfl⟩
  · cases hwd
    simp only [true_and, not_not]
    constructor
    · exact fun hm => htop.resolve_right (not_not.mpr hm)
    · rintro rfl
      exact hw.root_mem
  · rw [List.concat_eq_append] at hwd
    obtain ⟨b, -, hx⟩ := walk_concat_eq_some hwd
    simp [hw.entry_mem b x d hx]

theorem linkCount_at (hd : t.At d pl) {n : Node} (hn : fs.heap d = some n) {e : TreeEntry}
    (he : fs.entryOf d = some e) : fs.linkCount n = FileTree.linkCount t pl e := by
  have hdir : e.dir = n.kind.entries?.isSome := by
    rw [entryOf_dir he, isDir, entriesOf, hn, Option.bind_some]
  unfold linkCount FileTree.linkCount
  by_cases hl : n.links = 0
  · rw [if_pos hl, if_pos ((ht.links_at hw hd hn).mp hl)]
  · rw [if_neg hl, if_neg fun hh => hl ((ht.links_at hw hd hn).mpr hh)]
    cases hk : n.kind with
    | file fd =>
      rw [hk] at hdir
      rw [hdir]
      rfl
    | directory es fd =>
      rw [hk] at hdir
      have hes : fs.entriesOf d = some es := by rw [entriesOf, hn, Option.bind_some, hk]; rfl
      dsimp only
      rw [if_pos (by rw [hdir]; rfl), ht.names_at hw hd, namesIn, hes, Option.elim_some,
        ← Std.ExtTreeMap.map_fst_toList_eq_keys, values_eq, List.countP_map, List.countP_map]
      congr 1
      refine List.countP_congr fun a ha => ?_
      have hx := entryAt_of_mem_toList hes ha
      obtain ⟨e', he'⟩ := hw.entry_known hx
      have hm := hw.entry_mem d a.1 a.2 hx
      simp [nodeFromMap, hm, ht.look_child hw hd, hx, he', entryOf_dir he']

theorem statNode_at (hd : t.At d pl) {n : Node} (hn : fs.heap d = some n) {e : TreeEntry}
    (he : fs.entryOf d = some e) (sys : Sys) : fs.statNode sys n = FileTree.stat t sys pl e := by
  have hi : treeEntry n.inode = e := by
    rw [entryOf, inodeOf, hn, Option.map_some, Option.map_some] at he
    exact Option.some.inj he
  unfold statNode FileTree.stat
  rw [ht.linkCount_at hw hd hn he, ← hi]
  cases hk : n.kind <;>
    simp [treeEntry, Node.inode, NodeKind.entries?, NodeKind.backingFd, hk]

end HasTree

end MemoryFS

end SandboxVfs
