import SandboxVfs.CallShares
import SandboxVfs.Library.Runs

/-! Two calls on one `MemoryFS`: when what they have seen stays valid until they act on it,
they leave a whole tree that shows what both report. -/

namespace SandboxVfs

open LockedPrograms NameGraph

namespace MemoryFS

def callShares : Discipline Bool Lock Act MemoryState Share where
  apply := Act.apply
  same := Lock.Same
  same_refl := Lock.same_refl
  same_trans := Lock.same_trans
  keeps := Grows
  keeps_refl := .refl
  keeps_trans _ _ _ h h' := h.trans h'
  below _ _ _ := True
  allowed a m := a.StillValid m
  inv gs m := Sound (gs false) (gs true) m

namespace Locked

variable {i : Bool} {g g' : Share} {held : List (Lock × Bool)} {K : MemoryState → Prop} {α : Type}
  {m : MemoryState} {b c d : NodeId} {x y : FileName}

/-- Both calls see the same, each from its side. -/
theorem inv_iff (i : Bool) {gs : Bool → Share} :
    callShares.inv gs m ↔ Sound (gs i) (gs !i) m := by
  cases i with
  | false => exact Iff.rfl
  | true => exact ⟨Sound.symm, Sound.symm⟩

theorem permits_share {a : Act} (hm : callShares.Sees i g m)
    (hd : ∀ d, a.dir? = some d → (.entries d, true) ∈ held)
    (h : ∀ o, Sound g o m → Sound g' o (a.apply m)) : callShares.Permits i g held a m g' := by
  obtain ⟨gs, hg, hinv⟩ := hm
  have hf : Fresh m := hinv.fresh
  refine ⟨fun _ hl => Act.apply_same hf hd hl, Act.apply_grows hf a, fun gs hg hinv => ?_⟩
  rw [inv_iff i] at hinv ⊢
  rw [Function.update_self, Function.update_of_ne (by simp)]
  exact h _ (hg ▸ hinv)

theorem quiet_nodes {a : Act} (ha : a.Quiet) : (a.apply m).fs.nodes = m.fs.nodes := by
  cases a <;> first | rfl | exact absurd ha not_false

theorem quiet_dir {a : Act} (ha : a.Quiet) : a.dir? = none := by
  cases a <;> first | rfl | exact absurd ha not_false

theorem callShares_reads : Reads callShares where
  apply_look _ := rfl
  leaf _ _ _ _ := trivial
  quiet i g held m a hm ha := by
    refine permits_share hm (fun d hd => ?_) fun o h => ?_
    · rw [quiet_dir ha] at hd
      cases hd
    · exact h.same (Act.apply_fresh h.fresh a) (Act.apply_grows h.fresh a)
        (Act.apply_entryAt h.fresh (quiet_dir ha)) (quiet_nodes ha)

theorem act_share {a : Act} {f : MemoryState → α} {Q : α → Share → MemoryState → Prop}
    (hK : callShares.Stable i g held K) (hd : ∀ d, a.dir? = some d → (.entries d, true) ∈ held)
    (g' : MemoryState → Share)
    (h : ∀ m o, K m → a.StillValid m → Sound g o m → Sound (g' m) o (a.apply m))
    (hQ : ∀ m o, K m → Sound g o m → Sound (g' m) o (a.apply m) → Q (f m) (g' m) (a.apply m)) :
    Triple callShares i held g K (.act a fun m => .done (f m)) Q := by
  refine Triple.act hK fun m hm hk hv => ⟨g' m, permits_share hm hd fun o => h m o hk hv, ?_⟩
  obtain ⟨gs, rfl, hinv⟩ := hm
  have hs := (inv_iff i).mp hinv
  exact hQ m _ hk hs (h m _ hk hv hs)

theorem mem_held {d : NodeId} (ho : held = [(.entries d, true)]) :
    ∀ b, some d = some b → (Lock.entries b, true) ∈ held := by
  rintro b hb
  cases hb
  rw [ho]
  exact List.mem_singleton_self _

theorem isDir_stable (d : NodeId) : callShares.Stable i g held fun m => m.fs.isDir d = true :=
  Discipline.Stable.of_keeps fun _ _ h hd => Grows.dir h hd

theorem entry_stable_share (d : NodeId) (x : FileName) (r : Option NodeId) :
    callShares.Stable i g [(.entries d, true)] fun m => m.fs.entryAt d x = r :=
  Discipline.Stable.of_guard (List.mem_singleton_self _)
    fun m m' (hs : ∀ x, m'.fs.entryAt d x = m.fs.entryAt d x) hk => (hs x).trans hk

abbrev Anyhow : MemoryState → Prop := fun _ => True

theorem anyhow_stable : callShares.Stable i g held Anyhow := Discipline.stable_true

/-- What the call was to do is done, or nothing is. -/
def Ends (P : α → Effect → Prop) (r : Option α) (g : Share) (_ : MemoryState) : Prop :=
  r.elim (g = .idle) fun a => ∃ e, g.Returns e ∧ P a e

theorem ends_none {P : α → Effect → Prop} : Ends P none .idle m := rfl

theorem ends_some {P : α → Effect → Prop} {a : α} {e : Effect} (h : P a e) :
    Ends P (some a) (.ended e) m := ⟨e, Or.inl rfl, h⟩

/-- The new node and the entry that was made for it. -/
def Made (name : Option FileName) (t : NodeId × Effect) (e : Effect) : Prop :=
  t.2 = e ∧ ∃ d x, name = some x ∧ e = .created d x t.1

def Removed (r e : Effect) : Prop := r = e ∧ ∃ c, e = .removed c

def Renamed (name : Option FileName) (r e : Effect) : Prop :=
  r = e ∧ ∃ c b y replaced, name = some y ∧ e = .moved c b y replaced

theorem create_share (parent : NodeId) (kind : VfsEntryKind) (mode : Mode)
    (hK : callShares.Stable i .idle held fun m =>
      m.fs.isDir d = true ∧ m.fs.entryAt d x = none) :
    Triple callShares i held .idle (fun m => m.fs.isDir d = true ∧ m.fs.entryAt d x = none)
      (create parent kind mode) fun r g' m => g' = r.elim .idle .born ∧
        m.fs.isDir d = true ∧ m.fs.entryAt d x = none := by
  refine act_share hK nofun
    (fun m => if m.sys.takeId.newFd.1 < 0 then .idle else .born m.sys.nextNodeId)
    (fun m o _ _ h => ?_) fun m o hk h _ => ⟨?_, ?_, ?_⟩
  · split_ifs with hfd
    · refine h.same (Act.apply_fresh h.fresh _) (Act.apply_grows h.fresh _)
        (Act.apply_entryAt h.fresh rfl) ?_
      simp [Act.apply, hfd]
    · exact h.create hfd
  · split_ifs <;> rfl
  · exact (Act.apply_grows h.fresh _).dir hk.1
  · exact (Act.apply_entryAt h.fresh rfl d x).trans hk.2

theorem createNodeInDir_share (parent : NodeId) (name : FileName) (kind : VfsEntryKind)
    (mode : Mode) : Triple callShares i [] .idle Anyhow (createNodeInDir parent name kind mode)
      fun r g' _ => g' = r.elim .idle fun n => .ended (.created parent name n) := by
  have hdir {g : Share} {held : List (Lock × Bool)} :
      callShares.Stable i g held fun m => m.fs.isDir parent = true := isDir_stable parent
  have hfree {g : Share} : callShares.Stable i g [(.entries parent, true)] fun m =>
      m.fs.isDir parent = true ∧ m.fs.entryAt parent name = none :=
    hdir.and (entry_stable_share parent name none)
  refine look_bind callShares_reads anyhow_stable fun dir => Triple.ite (fun hd => ?_) fun _ =>
    Triple.pure fun _ _ => rfl
  subst hd
  refine Triple.imp (fun _ hk => hk.2) (fun _ _ _ hq => hq) (Triple.holding hdir
    (fun _ _ _ _ => trivial) (fun _ _ => Discipline.Stable.const) ?_)
  refine look_bind callShares_reads hdir fun there =>
    Triple.ite (fun _ => Triple.pure fun _ _ => rfl)
    fun hn => ?_
  have hnone : ∀ m : MemoryState, m.fs.isDir parent = true ∧
      (m.fs.entryAt parent name).isSome = there →
      m.fs.isDir parent = true ∧ m.fs.entryAt parent name = none := by
    rintro m ⟨hd, rfl⟩
    exact ⟨hd, Option.not_isSome_iff_eq_none.mp hn⟩
  refine Triple.imp hnone (fun _ _ _ hq => hq) (Triple.bindSome
    (create_share parent kind mode hfree) (fun _ _ hq => hq.1) fun id _ => Triple.subst ?_)
  refine Triple.bind (Q := fun _ (g' : Share) (m : MemoryState) => g' = .made id ∧
      m.fs.isDir parent = true ∧ m.fs.entryAt parent name = none) ?_ fun _ _ => Triple.subst ?_
  · exact Triple.holding hfree (fun _ _ _ _ => trivial)
      (fun _ _ => Discipline.Stable.const.and (hfree.cons _))
      (act_share (hfree.cons _) nofun (fun _ => .made id) (fun m o _ _ h => h.mapInsert)
        fun m o hk h _ => ⟨rfl, hk⟩)
  · exact Triple.bind (act_share hfree (mem_held rfl) (fun _ => .ended (.created parent name id))
      (fun m o hk hv h => h.insertMade hk.1 hk.2 hv) fun _ _ _ _ _ => rfl)
      fun _ _ => Triple.pure fun _ hq => hq

theorem createEntry_share (parent : NodeId) (name : FileName) (kind : VfsEntryKind)
    (mode : Mode) : Triple callShares i [] .idle Anyhow (createEntry parent name kind mode)
      (Ends (Made (some name))) := by
  refine Triple.bindSome (createNodeInDir_share parent name kind mode) (fun _ _ hq => hq) ?_
  refine fun id _ => Triple.pure ?_
  rintro _ rfl
  exact ends_some ⟨rfl, parent, name, rfl, rfl⟩

theorem lookup_share {β : Type} {p : Prog (Option α)} {f : α → Prog (Option β)}
    {P : β → Effect → Prop} (hp : Keeps callShares i [] .idle Anyhow p)
    (hf : ∀ a, Triple callShares i [] .idle Anyhow (f a) (Ends P)) :
    Triple callShares i [] .idle Anyhow (p.bindSome f) (Ends P) :=
  hp.bindSome (fun _ _ => ends_none) hf

theorem createNode_share (path : AbsPath) (kind : VfsEntryKind) (mode : Mode) :
    Triple callShares i [] .idle Anyhow (createNode path kind mode)
      (Ends (Made path.fileName)) := by
  refine resolveParent_bindSome callShares_reads anyhow_stable (fun _ _ => ends_none) ?_
  intro d x hx
  rw [hx]
  exact createEntry_share d x kind mode

theorem createRelativeNode_share (start : NodeId) (path : RelPath) (kind : VfsEntryKind)
    (mode : Mode) : Triple callShares i [] .idle Anyhow (createRelativeNode start path kind mode)
      (Ends (Made path.fileName)) := by
  refine Triple.elim (fun _ => Triple.pure fun _ _ => ends_none) fun parent _ => ?_
  refine Triple.elim (fun _ => Triple.pure fun _ _ => ends_none) fun name hname => ?_
  rw [hname]
  exact lookup_share (resolveRelative_keeps callShares_reads anyhow_stable start parent)
    fun d => createEntry_share d name kind mode

theorem remove_share (K' : MemoryState → Prop) (g' : Share) {c? : Option NodeId}
    (hK : callShares.Stable i g [(.entries d, true)] K)
    (h : ∀ m o, (Act.entryRemove d x c?).StillValid m → Sound g o m →
      Sound g' o ((Act.entryRemove d x c?).apply m))
    (hkept : ∀ m, Fresh m → K m → K' ((Act.entryRemove d x c?).apply m)) :
    Triple callShares i [(.entries d, true)] g K (perform (.entryRemove d x c?)) fun _ g'' m =>
      g'' = g' ∧ K' m :=
  act_share hK (mem_held rfl) (fun _ => g') (fun m o _ hv hs => h m o hv hs)
    fun m _ hk hs _ => ⟨rfl, hkept m hs.fresh hk⟩

theorem mapRemove_share {K' : MemoryState → Prop} {id : NodeId} (g' : Share)
    (hK : callShares.Stable i g held K) (hK' : callShares.Stable i g' held K')
    (h : ∀ m o, K m → (Act.mapRemove id).StillValid m → Sound g o m →
      Sound g' o ((Act.mapRemove id).apply m))
    (hkept : ∀ m, K m → K' ((Act.mapRemove id).apply m)) :
    Triple callShares i held g K (writing .nodes (.mapRemove id)) fun _ g'' m =>
      g'' = g' ∧ K' m := by
  refine Triple.holding hK (fun _ _ _ _ => trivial) (fun _ g'' => ?_)
    (act_share (hK.cons _) nofun (fun _ => g') h fun m o hk _ _ => ⟨rfl, hkept m hk⟩)
  rintro m m' hr ⟨rfl, hk⟩
  exact ⟨rfl, hK'.cons _ m m' hr hk⟩

/-- The node loses its parent and its link before its place in the map. -/
theorem dropNode_share {K' : MemoryState → Prop} {id : NodeId} (g' : Share)
    (hK : callShares.Stable i g held K) (hK' : callShares.Stable i g' held K')
    (h : ∀ m o, K m → (Act.mapRemove id).StillValid m → Sound g o m →
      Sound g' o ((Act.mapRemove id).apply m))
    (hkept : ∀ m, K m → K' ((Act.mapRemove id).apply m)) :
    Triple callShares i held g K (dropNode id) fun _ g'' m => g'' = g' ∧ K' m := by
  have hwrite {l : Lock} {a : Act} (ha : a.Quiet) : Keeps callShares i held g K (writing l a) :=
    writing_keeps callShares_reads hK (fun _ _ _ _ => trivial) ha
  exact (hwrite (a := .setParent id none) trivial).bind fun _ =>
    (hwrite (a := .clearLinks id) trivial).bind fun _ => mapRemove_share g' hK hK' h hkept

theorem removeEntry_share (parent : NodeId) (name : FileName) (kind : VfsEntryKind) :
    Triple callShares i [] .idle Anyhow (removeEntry parent name kind) (Ends Removed) := by
  have ho := entries_only parent true
  refine (look_keeps callShares_reads anyhow_stable _).bind fun _ => Triple.ite (fun _ => ?_)
    fun _ => Triple.pure fun _ _ => ends_none
  refine Triple.holding anyhow_stable (fun _ _ _ _ => trivial)
    (fun _ _ => Discipline.Stable.const) ?_
  refine (look_keeps callShares_reads anyhow_stable _).bindSome (fun _ _ => ends_none) fun id => ?_
  refine nodeFromMap_bind callShares_reads anyhow_stable ho ?_ ?_
  · exact Triple.bind (remove_share Anyhow .idle anyhow_stable (fun m o hv h => h.removeStale hv)
      fun _ _ hk => hk) fun _ _ => Triple.subst (Triple.pure fun _ _ => ends_none)
  · refine (kindMatches_keeps callShares_reads anyhow_stable (fun _ _ _ _ => trivial) kind).bind
      fun _ => Triple.ite (fun _ => ?_) fun _ => Triple.pure fun _ _ => ends_none
    refine Triple.bind (remove_share Anyhow (.dropping id (.removed id)) anyhow_stable
      (fun m o hv h => h.removeForGood hv) fun _ _ hk => hk) fun _ _ => Triple.subst ?_
    refine Triple.bind (dropNode_share (.ended (.removed id)) anyhow_stable anyhow_stable
      (fun m o _ hv h => h.drop hv) fun _ hk => hk) fun _ _ => Triple.subst ?_
    exact Triple.pure fun _ _ => ends_some ⟨rfl, id, rfl⟩

theorem removeNodeAt_share (path : AbsPath) (kind : VfsEntryKind) :
    Triple callShares i [] .idle Anyhow (removeNodeAt path kind) (Ends Removed) :=
  Triple.ite (fun _ => Triple.pure fun _ _ => ends_none) fun _ =>
    lookup_share (resolveParent_keeps callShares_reads anyhow_stable path)
      fun t => removeEntry_share t.1 t.2 kind

/-- A rename has nothing to do when the node has the new name. -/
def sought (c b : NodeId) (y : FileName) (there : Option NodeId) : Share :=
  if there = some c then .ended (.moved c b y none) else .idle

theorem look_share (hK : callShares.Stable i .idle held K) (c b : NodeId) (y : FileName) :
    Triple callShares i held .idle K (look (·.fs.entryAt b y)) fun there g' m =>
      g' = sought c b y there ∧ K m ∧ m.fs.entryAt b y = there := by
  refine act_share hK nofun (fun m => sought c b y (m.fs.entryAt b y))
    (fun m o _ _ h => ?_) fun m _ hk _ _ => ⟨rfl, hk, rfl⟩
  show Sound _ o m
  unfold sought
  split_ifs with hy
  · exact h.found hy
  · exact h

theorem insert_share {t : Option (NodeId × FileName × NodeId)} {f : MemoryState → α}
    (hK : callShares.Stable i (.working (some c) t) [(.entries b, true)] K)
    (hdir : ∀ m, K m → m.fs.isDir b = true)
    (ht : ∀ m, K m → ∀ d x k, t = some (d, x, k) → (d = b ∧ x = y) ∧ m.fs.entryAt b y = some k) :
    Triple callShares i [(.entries b, true)] (.working (some c) t) K
      (.act (.entryInsert b y c) fun m => .done (f m)) fun a g' _ => ∃ m, K m ∧ f m = a ∧
        (g' = .ended (.moved c b y (m.fs.entryAt b y)) ∨ ∃ r, m.fs.entryAt b y = some r ∧
          (∀ s, t = some s → s.2.2 ≠ r) ∧ g' = .dropping r (.moved c b y (some r))) := by
  refine act_share hK (mem_held rfl) (fun m => Share.attached m.fs c b y)
    (fun m o hk hv h => h.insertLoose (hdir m hk) (ht m hk) hv) fun m o hk h _ => ⟨m, hk, rfl, ?_⟩
  rcases attached_cases m.fs c b y with ⟨ha, -⟩ | ⟨r, ha, he, hy⟩
  · exact Or.inl ha
  · refine Or.inr ⟨r, hy, ?_, ha⟩
    rintro s hs rfl
    exact (h.mine.gone s hs).not_mem (edge_eq_some.mp he).2

/-- The entries under the two names of a rename in one directory. -/
structure Within (d : NodeId) (x y : FileName) (c : NodeId) (there : Option NodeId)
    (m : MemoryState) : Prop where
  isDir : m.fs.isDir d = true
  old : m.fs.entryAt d x = some c
  new : m.fs.entryAt d y = there

theorem within_stable (there : Option NodeId) :
    callShares.Stable i g [(.entries d, true)] (Within d x y c there) := by
  intro m m' hr hk
  have hs : ∀ x, m'.fs.entryAt d x = m.fs.entryAt d x := hr.same _ (List.mem_singleton_self _)
  exact ⟨Grows.dir hr.keeps hk.isDir, (hs x).trans hk.old, (hs y).trans hk.new⟩

theorem clearTarget_share (node : NodeId) (there : Option NodeId) :
    Triple callShares i [(.entries d, true)] .idle (Within d x y c there)
      (clearTarget node there) fun r g' m => r.elim (g' = .idle) fun _ =>
        g' = .working none (there.map (d, y, ·)) ∧ Within d x y c there m := by
  cases there with
  | none => exact Triple.pure fun _ hk => ⟨rfl, hk⟩
  | some k =>
    have hK {g : Share} :=
      within_stable (i := i) (g := g) (d := d) (x := x) (y := y) (c := c) (some k)
    refine nodeFromMap_bindSome callShares_reads hK (entries_only d true) (fun _ _ => rfl) ?_
    refine (canReplaceNode_keeps callShares_reads hK node (fun _ _ _ _ => trivial)).bind fun _ =>
      Triple.ite (fun _ => ?_) fun _ => Triple.pure fun _ _ => rfl
    refine Triple.bind (dropNode_share (.working none (some (d, y, k))) hK hK
      (fun m o hk hv h => h.clear hk.new hv) fun m hk => ⟨hk.isDir, hk.old, hk.new⟩) fun _ _ =>
        Triple.subst ?_
    exact Triple.pure fun _ hk => ⟨rfl, hk⟩

theorem renameWithin_share (oldPath newPath : AbsPath) (parent : NodeId)
    (oldName newName : FileName) :
    Triple callShares i [] .idle (fun m => m.fs.isDir parent = true)
      (renameWithin oldPath newPath parent oldName newName) (Ends (Renamed (some newName))) := by
  have hdir {g : Share} {held : List (Lock × Bool)} :
      callShares.Stable i g held fun m => m.fs.isDir parent = true := isDir_stable parent
  refine Triple.holding hdir (fun _ _ _ _ => trivial) (fun _ _ => Discipline.Stable.const) ?_
  refine look_bindSome callShares_reads hdir (fun _ _ => ends_none) fun oldId => ?_
  have hold {g : Share} : callShares.Stable i g [(.entries parent, true)] fun m =>
      m.fs.isDir parent = true ∧ m.fs.entryAt parent oldName = some oldId :=
    hdir.and (entry_stable_share parent oldName _)
  refine nodeFromMap_bindSome callShares_reads hold (entries_only parent true)
    (fun _ _ => ends_none) ?_
  refine (look_keeps callShares_reads hold _).bind fun _ => Triple.ite
    (fun _ => Triple.pure fun _ _ => ends_none) fun _ => ?_
  refine Triple.bind (look_share hold oldId parent newName) fun there _ => Triple.subst ?_
  refine Triple.ite (fun hthere => ?_) fun hthere => ?_
  · rw [sought, if_pos hthere]
    exact Triple.pure fun _ _ => ends_some ⟨rfl, oldId, parent, newName, none, rfl, rfl⟩
  rw [sought, if_neg hthere]
  refine Triple.imp (fun m hk => ⟨hk.1.1, hk.1.2, hk.2⟩) (fun _ _ _ hq => hq)
    (Triple.bindSome (clearTarget_share oldId there) (fun _ _ hq => hq) fun _ _ => Triple.subst ?_)
  refine Triple.bind (remove_share (fun m => m.fs.isDir parent = true ∧
    m.fs.entryAt parent newName = there) (.working (some oldId) _) (within_stable there)
      (fun m o hv h => h.removeLoose hv) fun m hf hk => ?_) fun _ _ => Triple.subst ?_
  · refine ⟨(Act.apply_grows hf _).dir hk.isDir, ?_⟩
    refine (eraseEntry_entryAt m.fs parent oldName parent newName).trans ?_
    rw [if_neg, hk.new]
    rintro ⟨-, rfl⟩
    exact hthere (hk.new.symm.trans hk.old)
  refine Triple.bind (insert_share (y := newName) (f := fun _ => ())
    (hdir.and (entry_stable_share parent newName there)) (fun m hk => hk.1) fun m hk d x k hs => ?_)
      fun _ g' => Triple.pure fun m hq => ?_
  · obtain ⟨r, hr, he⟩ := Option.map_eq_some_iff.mp hs
    cases he
    exact ⟨⟨rfl, rfl⟩, hk.2.trans hr⟩
  · obtain ⟨m, hk, -, rfl | ⟨r, hr, hne, -⟩⟩ := hq
    · rw [hk.2]
      exact ends_some ⟨rfl, oldId, parent, newName, there, rfl, rfl⟩
    · exact absurd rfl (hne (parent, newName, r) (by rw [← hk.2, hr]; rfl))

theorem replaced_share {e : Effect} {r : NodeId}
    (he : ∀ m takes done, e.Stands m takes done → done r)
    (hg : g = .ended e ∨ g = .dropping r e) :
    Triple callShares i held g Anyhow (writing .nodes (.mapRemove r)) fun _ g' _ =>
      g' = .ended e ∧ True := by
  refine mapRemove_share (.ended e) anyhow_stable anyhow_stable
    (fun m o _ hv h => ?_) fun _ _ => trivial
  rcases hg with rfl | rfl
  · obtain ⟨hgone, -⟩ | hr := he _ _ _ h.mine.stands
    · exact h.same (Act.apply_fresh h.fresh _) (Act.apply_grows h.fresh _) (fun _ _ => rfl)
        (Finset.erase_eq_of_notMem hgone)
    · cases hr
  · exact h.drop hv

theorem attach_share (node newParent : NodeId) (newName : FileName) :
    Triple callShares i [] (.working (some node) none) (fun m => m.fs.isDir newParent = true)
      (attach node newParent newName) fun there g' _ =>
        g' = .ended (.moved node newParent newName there) := by
  have ho := entries_only newParent true
  have hquiet {g : Share} {l : Lock} {a : Act} (ha : a.Quiet) :
      Keeps callShares i [(.entries newParent, true)] g Anyhow (writing l a) :=
    writing_keeps callShares_reads anyhow_stable (fun _ _ _ _ => trivial) ha
  refine Triple.holding (isDir_stable newParent) (fun _ _ _ _ => trivial)
    (fun _ _ => Discipline.Stable.const) ?_
  refine Triple.bind (insert_share (f := fun m => m.fs.entryAt newParent newName)
    (isDir_stable newParent) (fun _ hk => hk) nofun) fun there g => ?_
  refine Triple.imp (K := fun _ => g = .ended (.moved node newParent newName there) ∨
    ∃ r, there = some r ∧ g = .dropping r (.moved node newParent newName there)) ?_
    (fun _ _ _ hq => hq) ?_
  · rintro _ ⟨m, -, rfl, hg | ⟨r, hr, -, hg⟩⟩
    · exact Or.inl hg
    · exact Or.inr ⟨r, hr, by rw [hr]; exact hg⟩
  refine Triple.bind (Q := fun _ (g' : Share) (_ : MemoryState) =>
      g' = .ended (.moved node newParent newName there) ∧ True) (Triple.elim (fun hnone => ?_) ?_)
    fun _ _ => Triple.subst ((hquiet (a := .setParent _ _) trivial).bind fun _ =>
      Triple.pure fun _ _ => rfl)
  · refine Triple.pure fun m hk => ⟨hk.resolve_right ?_, trivial⟩
    rintro ⟨r, hr, -⟩
    cases hnone.symm.trans hr
  rintro r rfl m hm hk
  refine (nodeFromMap_keeps callShares_reads anyhow_stable ho r).bind (fun replaced? => ?_)
    m hm trivial
  refine Keeps.bind (Triple.elim (fun _ => pure_keeps _) fun replaced _ =>
    (hquiet (a := .setParent replaced none) trivial).bind fun _ =>
      hquiet (a := .clearLinks replaced) trivial) fun _ =>
        replaced_share (fun m t d hs => hs.2 r rfl) ?_
  refine hk.imp_right ?_
  rintro ⟨r', hr, hg⟩
  cases hr
  exact hg

theorem move_share (oldParent newParent : NodeId) (oldName newName : FileName) (node : NodeId) :
    Triple callShares i [] .idle (fun m => m.fs.isDir newParent = true)
      (move oldParent newParent oldName newName node) (Ends (Renamed (some newName))) := by
  have hdir {g : Share} {held : List (Lock × Bool)} :
      callShares.Stable i g held fun m => m.fs.isDir newParent = true := isDir_stable newParent
  refine Triple.bind (Triple.holding hdir (fun _ _ _ _ => trivial)
    (fun _ _ => Discipline.Stable.const.and hdir)
    (remove_share (fun m => m.fs.isDir newParent = true) (.working (some node) none) hdir
      (fun m o hv h => h.removeLoose hv) fun m hf hk => (Act.apply_grows hf _).dir hk))
    fun _ _ => Triple.subst ?_
  refine Triple.bind (attach_share node newParent newName) fun there _ => Triple.pure ?_
  rintro _ rfl
  exact ends_some ⟨rfl, node, newParent, newName, there, rfl, rfl⟩

theorem renameAcross_share (oldPath newPath : AbsPath) (oldParent newParent : NodeId)
    (oldName newName : FileName) :
    Triple callShares i [] .idle (fun m => m.fs.isDir newParent = true)
      (renameAcross oldPath newPath oldParent newParent oldName newName)
      (Ends (Renamed (some newName))) := by
  have hdir {g : Share} {held : List (Lock × Bool)} :
      callShares.Stable i g held fun m => m.fs.isDir newParent = true := isDir_stable newParent
  refine (reading_keeps callShares_reads hdir (fun _ _ _ _ => trivial) _).bindSome
    (fun _ _ => ends_none) fun oldId => ?_
  refine nodeFromMap_bindSome callShares_reads hdir none_only (fun _ _ => ends_none) ?_
  refine (look_keeps callShares_reads hdir _).bind fun _ => Triple.ite
    (fun _ => Triple.pure fun _ _ => ends_none) fun _ => ?_
  refine Triple.bind (Q := fun there (g' : Share) (m : MemoryState) =>
    g' = sought oldId newParent newName there ∧ m.fs.isDir newParent = true)
    (Triple.holding hdir (fun _ _ _ _ => trivial) (fun _ _ => Discipline.Stable.const.and hdir)
      ((look_share hdir oldId newParent newName).imp (fun _ hk => hk)
        fun _ _ _ hq => ⟨hq.1, hq.2.1⟩)) fun there _ => Triple.subst ?_
  refine Triple.elim (fun hnone => ?_) fun r hr => Triple.ite (fun hsame => ?_) fun hsame => ?_
  · rw [sought, hnone, if_neg nofun]
    exact move_share oldParent newParent oldName newName oldId
  · rw [sought, if_pos (hr.trans (congrArg some hsame))]
    exact Triple.pure fun _ _ => ends_some ⟨rfl, oldId, newParent, newName, none, rfl, rfl⟩
  · rw [sought, hr, if_neg fun hh => hsame (Option.some.inj hh)]
    refine nodeFromMap_bindSome callShares_reads hdir none_only (fun _ _ => ends_none) ?_
    exact (canReplaceNode_keeps callShares_reads hdir oldId (fun _ _ _ _ => trivial)).bind fun _ =>
      Triple.ite (fun _ => move_share oldParent newParent oldName newName oldId)
        fun _ => Triple.pure fun _ _ => ends_none

theorem renameNodeAt_share (oldPath newPath : AbsPath) :
    Triple callShares i [] .idle Anyhow (renameNodeAt oldPath newPath) (Ends fun r e =>
      Renamed newPath.fileName r e ∨
        (r = e ∧ e = .unchanged ∧ oldPath.components = newPath.components)) := by
  refine Triple.ite (fun _ => Triple.pure fun _ _ => ends_none) fun _ => Triple.ite ?_ fun _ => ?_
  · exact fun hsame => Triple.pure fun _ _ =>
      ⟨.unchanged, Or.inr ⟨rfl, rfl⟩, Or.inr ⟨rfl, rfl, hsame⟩⟩
  refine lookup_share (resolveParent_keeps callShares_reads anyhow_stable oldPath) fun old => ?_
  refine resolveParent_bindSome callShares_reads anyhow_stable (fun _ _ => ends_none) ?_
  intro d y hy
  rw [hy]
  refine (look_keeps callShares_reads anyhow_stable _).bind fun _ => ?_
  refine look_bind callShares_reads anyhow_stable fun dir => Triple.ite (fun hd => ?_)
    fun _ => Triple.pure fun _ _ => ends_none
  have hdir : dir = true := (Bool.and_eq_true_iff.mp hd).2
  have hleft (r : Option Effect) (g : Share) (m : MemoryState)
      (h : Ends (Renamed (some y)) r g m) : Ends (fun r e => Renamed (some y) r e ∨
        (r = e ∧ e = .unchanged ∧ oldPath.components = newPath.components)) r g m := by
    cases r with
    | none => exact h
    | some e =>
      obtain ⟨e', hg, hr⟩ := h
      exact ⟨e', hg, Or.inl hr⟩
  refine Triple.ite (fun hsame => ?_) fun _ => ?_
  · have hk : ∀ m : MemoryState, True ∧ m.fs.isDir d = dir → m.fs.isDir old.1 = true := by
      rintro m ⟨-, hm⟩
      rw [hsame, hm, hdir]
    exact (renameWithin_share oldPath newPath old.1 old.2 y).imp hk hleft
  · have hk : ∀ m : MemoryState, True ∧ m.fs.isDir d = dir → m.fs.isDir d = true :=
      fun m hm => hm.2.trans hdir
    exact (renameAcross_share oldPath newPath old.1 d old.2 y).imp hk hleft

def Opened (name : Option FileName) (r : OpenResult NodeId × Effect) (g : Share)
    (_ : MemoryState) : Prop :=
  g.Returns r.2 ∧ (0 ≤ r.1.fd → r.2 = .unchanged ∨
    ∃ d x n, name = some x ∧ r.1.opened = some n ∧ r.2 = .created d x n)

theorem opened_unchanged (name : Option FileName) (r : OpenResult NodeId) :
    Opened name (r, .unchanged) .idle m := ⟨Or.inr ⟨rfl, rfl⟩, fun _ => Or.inl rfl⟩

theorem openResolvedNode_share {name : Option FileName}
    {create : Prog (Option (NodeId × Effect))}
    (hc : Triple callShares i [] .idle Anyhow create (Ends (Made name)))
    (existing : Option NodeId) (flags : Flags) :
    Triple callShares i [] .idle Anyhow (openResolvedNode existing create flags)
      (Opened name) := by
  refine Triple.elim (fun _ => Triple.ite (fun _ => Triple.bind hc fun made g => ?_)
    fun _ => Triple.pure fun _ _ => opened_unchanged _ _) fun node _ => Triple.ite
      (fun _ => Triple.pure fun _ _ => opened_unchanged _ _) fun _ => ?_
  · refine Triple.elim (fun hn => ?_) fun t ht => ?_
    · subst hn
      refine Triple.pure ?_
      rintro m rfl
      exact opened_unchanged _ _
    · subst ht
      intro m hm hk
      obtain ⟨e, hg, rfl, d, x, hx, he⟩ := hk
      refine Triple.bind (openFound_known callShares_reads anyhow_stable t.1 flags)
        (fun r _ => Triple.subst (Triple.pure fun _ hq => ⟨hg, fun hfd => ?_⟩)) m hm trivial
      exact Or.inr ⟨d, x, t.1, hx, hq.2 hfd, he⟩
  · refine Triple.bind (openFound_known callShares_reads anyhow_stable node flags)
      fun r _ => Triple.subst (Triple.pure fun _ _ => opened_unchanged _ _)

theorem openNode_share (path : AbsPath) (flags : Flags) (mode : Mode) :
    Triple callShares i [] .idle Anyhow (openNode path flags mode) (Opened path.fileName) :=
  (resolve_keeps callShares_reads anyhow_stable path).bind fun existing =>
    openResolvedNode_share (createNode_share path .file mode) existing flags

theorem openNodeRelative_share (start : NodeId) (path : RelPath) (flags : Flags) (mode : Mode) :
    Triple callShares i [] .idle Anyhow (openNodeRelative start path flags mode)
      (Opened path.fileName) :=
  (resolveRelative_keeps callShares_reads anyhow_stable start path).bind fun existing =>
    openResolvedNode_share (createRelativeNode_share start path .file mode) existing flags

def Reported (call : FsCall) (r : FsAnswer × Effect) (g : Share) : Prop :=
  g.Returns r.2 ∧ call.Reports r.1 r.2

theorem reading_call {call : FsCall} {p : Prog α} {f : α → FsAnswer}
    (hp : Keeps callShares i [] .idle Anyhow p)
    (h : ∀ a, call.Reports (f a) .unchanged) :
    Triple callShares i [] .idle Anyhow (p >>= fun a => pure (f a, .unchanged))
      fun r g' _ => Reported call r g' :=
  hp.bind fun a => Triple.pure fun _ _ => ⟨Or.inr ⟨rfl, rfl⟩, h a⟩

theorem status_call (call : FsCall) {p : Prog (Option α)} {P : α → Effect → Prop}
    (f : Option α → Int) (effect : Option α → Effect)
    (hp : Triple callShares i [] .idle Anyhow p (Ends P)) (hnone : effect none = .unchanged)
    (hsome : ∀ a e, P a e → effect (some a) = e)
    (hfail : call.Reports (.status (f none)) .unchanged)
    (h : ∀ a e, P a e → call.Reports (.status (f (some a))) e) :
    Triple callShares i [] .idle Anyhow (p >>= fun a => pure (.status (f a), effect a))
      fun r g' _ => Reported call r g' := by
  refine Triple.bind hp fun a g => Triple.pure ?_
  intro m hq
  cases a with
  | none =>
    cases hq
    refine ⟨Or.inr ⟨rfl, hnone⟩, ?_⟩
    dsimp only
    rw [hnone]
    exact hfail
  | some a =>
    obtain ⟨e, hg, hP⟩ := hq
    obtain rfl := hsome a e hP
    exact ⟨hg, h a _ hP⟩

theorem traced_share (call : FsCall) :
    Triple callShares i [] .idle Anyhow call.traced fun r g' _ => Reported call r g' := by
  have hD := callShares_reads
  have hK {g : Share} : callShares.Stable i g [] Anyhow := anyhow_stable
  cases call with
  | access path => exact reading_call (resolve_keeps hD hK path) fun _ => trivial
  | openWithHandle path flags mode =>
    exact Triple.bind (openNode_share path flags mode) fun r g => Triple.pure fun _ hq => hq
  | mkdir path mode =>
    refine status_call (.mkdir path mode) (fun r => createdStatus (r.map (·.1)))
      (fun r => r.elim .unchanged Prod.snd) (createNode_share path .dir mode) rfl
      (fun t e h => h.1) (fun h => absurd h (by decide)) ?_
    rintro t e ⟨-, d, x, hx, he⟩ _
    exact ⟨d, x, t.1, hx, he⟩
  | unlink path =>
    exact status_call (.unlink path) (fun r => if r.isSome then 0 else -1) (·.getD .unchanged)
      (removeNodeAt_share path .file) rfl (fun r e h => h.1) (fun h => absurd h (by decide))
      fun _ _ h _ => h.2
  | rmdir path =>
    exact status_call (.rmdir path) (fun r => if r.isSome then 0 else -1) (·.getD .unchanged)
      (removeNodeAt_share path .dir) rfl (fun r e h => h.1) (fun h => absurd h (by decide))
      fun _ _ h _ => h.2
  | rename oldPath newPath =>
    refine status_call (.rename oldPath newPath) (fun r => if r.isSome then 0 else -1)
      (·.getD .unchanged) (renameNodeAt_share oldPath newPath) rfl
      (fun r e h => h.elim (fun h => h.1) fun h => h.1) (fun h => absurd h (by decide)) ?_
    rintro r e (h | h) _
    · exact Or.inr h.2
    · exact Or.inl h.2.2
  | chmod path mode => exact reading_call (chmod_keeps hD hK path mode) fun _ => trivial
  | stat path =>
    exact reading_call ((resolve_keeps hD hK path).andThen fun node =>
      (statNode_keeps hD hK node).bind fun _ => pure_keeps _) fun _ => trivial
  | readDir path =>
    exact reading_call ((resolve_keeps hD hK path).andThen fun node =>
      readNodeDir_keeps hD hK node) fun _ => trivial
  | openChild node path flags mode =>
    exact Triple.bind (openNodeRelative_share node path flags mode)
      fun r g => Triple.pure fun _ hq => hq
  | mkdirChild node path mode =>
    refine status_call (.mkdirChild node path mode) (fun r => createdStatus (r.map (·.1)))
      (fun r => r.elim .unchanged Prod.snd) (createRelativeNode_share node path .dir mode) rfl
      (fun t e h => h.1)
      (fun h => absurd h (by decide)) ?_
    rintro t e ⟨-, d, x, hx, he⟩ _
    exact ⟨d, x, t.1, hx, he⟩
  | nodeStat node => exact reading_call (statNode_keeps hD hK node) fun _ => trivial
  | nodeReadDir node => exact reading_call (readNodeDir_keeps hD hK node) fun _ => trivial

end Locked

/-- A thread that is done has given back its guards, and its call is over. -/
def Over (calls : Bool → FsCall) (i : Bool) (r : FsAnswer × Effect) (g : Share)
    (held : List (Lock × Bool)) : Prop := held = [] ∧ Locked.Reported (calls i) r g

theorem whole_sound {m : MemoryState} (h : m.fs.Whole m.sys.nextNodeId) :
    Sound .idle .idle m := by
  have hw := h.wf
  have hedge : m.fs.edge = m.fs.entryAt := hw.edge_eq
  have hidle : Share.idle.Holds .idle m := .of_none rfl rfl (fun c e hc => by cases hc) trivial
  refine ⟨fresh_of_wf hw, fun n hn => ?_, ?_, (fun c hc => by cases hc), (fun hh => by cases hh),
    fun d x c he => Or.inl (hw.entry_mem d x c he), hidle, hidle⟩
  · have hk := hw.mem_heap n hn
    rwa [inodeOf, Option.isSome_map] at hk
  · have hroots : Roots .idle .idle m = {m.fs.root} := by
      ext c
      simp [Roots, Share.idle, Share.root]
    rw [hedge, hroots]
    exact h.isForest

section

variable {m : MemoryState} {g o : Share} {e e' : Effect} {n : NodeId}

theorem Share.Returns.root (h : g.Returns e) : g.root = none := by
  rcases h with rfl | ⟨rfl, -⟩ <;> rfl

theorem Share.Returns.cleared (h : g.Returns e) : g.cleared = none := by
  rcases h with rfl | ⟨rfl, -⟩ <;> rfl

theorem Share.Returns.effect (h : g.Returns e) : g.effect = e := by
  rcases h with rfl | ⟨rfl, rfl⟩ <;> rfl

theorem Sound.tree (h : Sound g o m) (hg : g.Returns e) (ho : o.Returns e') :
    IsForest m.fs.entryAt {n | n ∈ m.fs.nodes} {m.fs.root} := by
  have hedge : m.fs.edge = m.fs.entryAt := by
    funext d x
    ext c
    rw [edge_eq_some, and_iff_left_iff_imp]
    intro he
    rcases h.listed d x c he with hh | hh | hh
    · exact hh
    · cases hg.cleared.symm.trans hh
    · cases ho.cleared.symm.trans hh
  have hroots : Roots g o m = {m.fs.root} := by
    rw [roots_of_none hg.root]
    ext c
    simp [ho.root]
  rw [← hedge, ← hroots]
  exact h.forest

theorem Gone.unnamed (h : Gone g o m n)
    (hf : IsForest m.fs.entryAt {n | n ∈ m.fs.nodes} {m.fs.root}) :
    n ∉ m.fs.nodes ∧ ∀ d x, m.fs.entryAt d x ≠ some n :=
  ⟨h.not_mem, fun d x he => h.not_mem (hf.target d x n he)⟩

theorem done_gone (hg : g.Returns e) (h : Gone g o m n ∨ g.root = some n) : Gone g o m n := by
  refine h.resolve_right fun hr => ?_
  cases hg.root.symm.trans hr

theorem Share.Takes.accounts (h : o.Takes m n) (ho : o.Returns e')
    (hs : Sound g o m) (hf : IsForest m.fs.entryAt {n | n ∈ m.fs.nodes} {m.fs.root}) :
    e'.Accounts m.fs n := by
  cases h with
  | loose t hh => exact absurd (hh ▸ ho.root) fun hn => by cases hn
  | cleared d x hh => cases ho.cleared.symm.trans hh
  | moved b y replaced hh hb =>
    rw [ho.effect] at hh
    rw [hh]
    exact Or.inl ⟨rfl, hb⟩
  | took hh =>
    have hstands := hs.other.stands
    rw [ho.effect] at hh hstands
    cases e' with
    | unchanged => exact absurd hh id
    | created d x k => exact absurd hh id
    | removed c => exact hh
    | moved c b y replaced =>
      obtain ⟨hr, hkind⟩ := hh
      have hgone := (done_gone ho (hstands.2 n hr)).not_mem
      refine Or.inr ⟨hr, canReplaceNode_iff.mpr ⟨hkind.isDir, childless_iff.mpr fun x => ?_⟩⟩
      cases hx : m.fs.entryAt n x with
      | none => rfl
      | some k => exact absurd (hf.source n x k hx) hgone

theorem Sound.shown (h : Sound g o m) (hg : g.Returns e) (ho : o.Returns e') :
    e.Shown m.fs e' := by
  have hf := h.tree hg ho
  have htakes {n : NodeId} (ht : o.Takes m n) : e'.Accounts m.fs n := ht.accounts ho h hf
  have hgone {n : NodeId} (hn : Gone g o m n ∨ g.root = some n) :
      n ∉ m.fs.nodes ∧ ∀ d x, m.fs.entryAt d x ≠ some n := (done_gone hg hn).unnamed hf
  have hs := h.mine.stands
  rw [hg.effect] at hs
  cases e with
  | unchanged => trivial
  | created d x n =>
    rcases hs with hs | hs
    · exact Or.inl ⟨hf.target d x n hs, hs⟩
    · exact Or.inr (htakes hs)
  | removed c => exact hgone hs
  | moved c b y replaced =>
    refine ⟨?_, fun r hr => hgone (hs.2 r hr)⟩
    rcases hs.1 with hs | hs
    · exact Or.inl ⟨hf.target b y c hs, hs⟩
    · exact Or.inr (htakes hs)

end

namespace Calls

variable {calls : Bool → FsCall} {c : Calls}

def Inv (calls : Bool → FsCall) (c : Calls) : Prop :=
  ∃ gs, c.Orderly callShares (Over calls) gs

theorem start_inv {m : MemoryState} (h : m.fs.Whole m.sys.nextNodeId) (calls : Bool → FsCall) :
    Inv calls (start m calls) := by
  refine ⟨fun _ => .idle, whole_sound h, fun i => ?_, fun _ _ _ _ hh => absurd hh List.not_mem_nil⟩
  refine (Locked.traced_share (i := i) (calls i) m ⟨fun _ => .idle, rfl, whole_sound h⟩
    trivial).imp ?_
  exact fun _ _ _ _ hq => ⟨hq.1, hq.2.2⟩

theorem turn_inv {i : Bool} (h : Inv calls c) (hv : c.StillValid i) : Inv calls (c.turn i) := by
  obtain ⟨gs, ho⟩ := h
  rcases LockedPrograms.Config.turn_cases Act.apply c i with he | hs
  · show Inv calls (LockedPrograms.Config.turn Act.apply c i)
    rw [he]
    exact ⟨gs, ho⟩
  · obtain ⟨g, ho'⟩ := ho.step hv hs
    exact ⟨_, ho'⟩

/-- When both calls have returned, nothing is in hand any more. -/
theorem Inv.settled (h : Inv calls c) (hret : c.Finished) : Settled calls c := by
  obtain ⟨gs, ho⟩ := h
  have hover (i : Bool) :
      ∃ r, (c.worker i).prog = .done r ∧ Locked.Reported (calls i) r (gs i) := by
    obtain ⟨r, hr⟩ := hret i
    have hw := ho.worker i
    rw [hr] at hw
    exact ⟨r, hr, hw.2⟩
  have heffect (i : Bool) : (gs i).Returns (c.effect i) := by
    obtain ⟨r, hr, hreturns, -⟩ := hover i
    rwa [effect, hr]
  have hsound (i : Bool) : Sound (gs i) (gs !i) c.state := (Locked.inv_iff i).mp ho.inv
  have hf := (hsound false).tree (heffect false) (heffect !false)
  have hreach {d : NodeId} (hd : d ∈ c.state.fs.nodes) :
      Reaches c.state.fs.entryAt c.state.fs.root d := by
    obtain ⟨r, rfl, hr⟩ := hf.reached d hd
    exact hr
  refine ⟨fun d x n _ he => hf.target d x n he, hf.once, hf.acyclic,
    fun d x n he => hreach (hf.source d x n he), fun i answer effect hd => ?_⟩
  obtain ⟨r, hr, hreturns, hreports⟩ := hover i
  cases hd.symm.trans hr
  exact ⟨hreports, (hsound i).shown hreturns (heffect !i)⟩

end Calls

/-- The file is node 2 and the directory node 3. -/
def fileAndDir : MemoryState :=
  let made := (createNode (MemoryFS.new .boot) (PathBuf.toAbs [.a]) .file 0o644).2
  (createNode made (PathBuf.toAbs [.d]) .dir 0o755).2

theorem fileAndDir_whole : fileAndDir.fs.Whole fileAndDir.sys.nextNodeId :=
  ((new_whole .boot).createNode _ _ _).createNode _ _ _

/-- A stronger condition that can be evaluated: what is put into a directory is empty, and
replaces nothing. -/
def Act.plain (m : MemoryState) : Act → Bool
  | .entryInsert d x id => d ∈ m.fs.nodes ∧ id ≠ d ∧ m.fs.entryAt d x = none ∧
    (m.fs.entriesOf id).all (·.isEmpty)
  | .entryRemove d x (some c) => m.fs.entryAt d x = some c ∧ c ∈ m.fs.nodes
  | .entryRemove _ _ none => false
  | .mapRemove c => (m.fs.entriesOf c).all (·.isEmpty)
  | _ => true

theorem childless_of_all {m : MemoryState} {c : NodeId}
    (h : (m.fs.entriesOf c).all (·.isEmpty) = true) : m.fs.Childless c := by
  intro hd
  obtain ⟨es, he⟩ := isDir_iff_entries.mp hd
  rw [he] at h ⊢
  exact h

theorem Act.plain.stillValid {m : MemoryState} {a : Act} (h : a.plain m = true) :
    a.StillValid m := by
  cases a with
  | entryInsert d x id =>
    obtain ⟨hd, hne, hfree, hempty⟩ := of_decide_eq_true h
    refine ⟨hd, fun hr => ?_, fun there hx => by cases hfree.symm.trans hx⟩
    rw [reaches_iff_links] at hr
    rcases Relation.ReflTransGen.cases_head hr with rfl | ⟨c, ⟨z, hz⟩, -⟩
    · exact hne rfl
    · cases (childless_iff.mp (childless_of_all hempty) z).symm.trans hz
  | entryRemove d x c? =>
    cases c? with
    | none => cases h
    | some c => exact (of_decide_eq_true h : m.fs.entryAt d x = some c ∧ c ∈ m.fs.nodes)
  | mapRemove c => exact childless_of_all h
  | _ => trivial

namespace Calls

def Plain (c : Calls) (i : Bool) : Prop :=
  match (c.worker i).prog with
  | .act a _ => a.plain c.state = true
  | _ => True

instance (c : Calls) (i : Bool) : Decidable (c.Plain i) := by
  unfold Plain
  split <;> infer_instance

theorem Plain.stillValid {c : Calls} {i : Bool} (h : c.Plain i) : c.StillValid i := by
  intro a p hp
  rw [Plain, hp] at h
  exact Act.plain.stillValid h

/-- `mkdir("/d/b")` has its parent at hand when `rename("/d", "/b")` begins and ends. -/
def mkdirAndRename : Bool → FsCall
  | false => .mkdir (PathBuf.toAbs [.d, .b]) 0o755
  | true => .rename (PathBuf.toAbs [.d]) (PathBuf.toAbs [.b])

def renameBetween : List Bool :=
  List.replicate 12 false ++ List.replicate 24 true ++ List.replicate 9 false

def status (c : Calls) (i : Bool) : Option Int :=
  match (c.worker i).prog with
  | .done (.status r, _) => some r
  | _ => none

/-- `unlink("/a")` comes between the checks of `rename("/a", "/d/b")` and its first change. -/
def renameAndUnlink : Bool → FsCall
  | false => .rename (PathBuf.toAbs [.a]) (PathBuf.toAbs [.d, .b])
  | true => .unlink (PathBuf.toAbs [.a])

def unlinkBetween : List Bool :=
  List.replicate 27 false ++ List.replicate 22 true ++ List.replicate 9 false

theorem not_settled_of_dangling {calls : Bool → FsCall} {c : Calls} {d n : NodeId} {x : FileName}
    (hx : c.state.fs.entryAt d x = some n) (hn : n ∉ c.state.fs.nodes) : ¬ Settled calls c :=
  fun h => hn (h.in_map d x n (h.joined d x n hx) hx)

/-- `open("/d/x", O_CREAT)` makes its file when `rmdir("/d")` has seen that `/d` is empty,
and has not yet taken its entry out. -/
def rmdirAndOpen : Bool → FsCall
  | false => .rmdir (PathBuf.toAbs [.d])
  | true => .openWithHandle (PathBuf.toAbs [.d, .x]) O_CREAT 0o644

def openBetween : List Bool :=
  List.replicate 26 true ++ List.replicate 14 false ++ List.replicate 11 true ++
    List.replicate 11 false

theorem not_settled_of_detached {calls : Bool → FsCall} {c : Calls} {i : Bool} {d n : NodeId}
    {x : FileName} (he : c.effect i = .removed d) (hx : c.state.fs.entryAt d x = some n)
    (hd : d ≠ c.state.fs.root) : ¬ Settled calls c := by
  intro h
  obtain ⟨answer, hp⟩ : ∃ answer, (c.worker i).prog = .done (answer, .removed d) := by
    unfold effect at he
    cases hp : (c.worker i).prog with
    | done r =>
      rw [hp] at he
      exact ⟨r.1, congrArg Prog.done (Prod.ext rfl he)⟩
    | _ => rw [hp] at he; cases he
  have hnone : ∀ b y, c.state.fs.entryAt b y ≠ some d := (h.shown i answer _ hp).2.2
  have hreach := reaches_iff_links.mp (h.joined d x n hx)
  rcases Relation.ReflTransGen.cases_tail hreach with hroot | ⟨b, -, y, hy⟩
  · exact hd hroot
  · exact hnone b y hy

theorem not_settled_openBetween :
    ((start fileAndDir rmdirAndOpen).run openBetween).status false = some 0 ∧
      ((start fileAndDir rmdirAndOpen).run openBetween).effect true = .created 3 .x 4 ∧
      ¬ Settled rmdirAndOpen ((start fileAndDir rmdirAndOpen).run openBetween) := by
  refine ⟨by decide +kernel, by decide +kernel, ?_⟩
  exact not_settled_of_detached (i := false) (d := 3) (x := .x) (n := 4) (by decide +kernel)
    (by decide +kernel) (by decide +kernel)

end Calls

end MemoryFS

end SandboxVfs
