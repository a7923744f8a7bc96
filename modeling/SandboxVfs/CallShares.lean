import SandboxVfs.Interleavings
import SandboxVfs.LockedReads

/-! What two calls on one `MemoryFS` have under way between two of their actions, and what
holds of the tree all along. -/

namespace SandboxVfs

open LockedPrograms NameGraph

namespace MemoryFS

variable {m m' : MemoryState} {b c d n : NodeId} {x y : FileName}

/-- No action undoes this: a node stays, with its kind. -/
structure Grows (m m' : MemoryState) : Prop where
  root : m'.fs.root = m.fs.root
  known : ∀ n, (m.fs.heap n).isSome → (m'.fs.heap n).isSome
  isDir : ∀ n, (m.fs.heap n).isSome → m'.fs.isDir n = m.fs.isDir n

theorem Grows.refl (m : MemoryState) : Grows m m := ⟨rfl, fun _ h => h, fun _ _ => rfl⟩

theorem Grows.trans {m₁ m₂ m₃ : MemoryState} (h : Grows m₁ m₂) (h' : Grows m₂ m₃) :
    Grows m₁ m₃ :=
  ⟨h'.root.trans h.root, fun n hn => h'.known n (h.known n hn),
    fun n hn => (h'.isDir n (h.known n hn)).trans (h.isDir n hn)⟩

theorem Grows.of_heap (hr : m'.fs.root = m.fs.root) (hh : m'.fs.heap = m.fs.heap) : Grows m m' :=
  ⟨hr, fun n hn => by rwa [hh], fun n _ => by simp [MemoryFS.isDir, entriesOf, hh]⟩

theorem known_of_isDir (h : m.fs.isDir d = true) : (m.fs.heap d).isSome := by
  obtain ⟨es, he⟩ := isDir_iff_entries.mp h
  cases hd : m.fs.heap d with
  | none => simp [entriesOf, hd] at he
  | some node => rfl

theorem Grows.dir (h : Grows m m') (hd : m.fs.isDir d = true) : m'.fs.isDir d = true :=
  (h.isDir d (known_of_isDir hd)).trans hd

theorem setNode_grows {fs : MemoryFS} {sys : Sys} {id : NodeId} {f : Node → Node}
    (hf : ∀ n, (f n).kind = n.kind) : Grows ⟨fs, sys⟩ ⟨fs.setNode id f, sys⟩ := by
  refine ⟨rfl, fun n hn => ?_, fun n _ => ?_⟩
  · show ((fs.setNode id f).heap n).isSome
    rw [heap_setNode]
    split_ifs
    · rwa [Option.isSome_map]
    · exact hn
  · show ((fs.setNode id f).entriesOf n).isSome = (fs.entriesOf n).isSome
    rw [entriesOf_setNode fs id f hf]

theorem setEntries_grows (fs : MemoryFS) (sys : Sys) (d : NodeId) (es : Entries) :
    Grows ⟨fs, sys⟩ ⟨fs.setEntries d es, sys⟩ := by
  refine ⟨rfl, fun n hn => ?_, fun n _ => ?_⟩
  · show ((fs.setEntries d es).heap n).isSome
    rw [setEntries, heap_setNode]
    split_ifs
    · rwa [Option.isSome_map]
    · exact hn
  · show (fs.setEntries d es).isDir n = fs.isDir n
    rw [isDir_eq_inode, inodeOf_setEntries, ← isDir_eq_inode]

theorem Act.apply_grows (hm : Fresh m) (a : Act) : Grows m (a.apply m) := by
  cases a with
  | look => exact .refl m
  | create parent kind mode =>
    unfold Act.apply
    dsimp only
    split_ifs with hfd
    · exact .of_heap rfl rfl
    · have hne {n : NodeId} (hn : (m.fs.heap n).isSome) : n ≠ m.sys.nextNodeId := by
        rintro rfl
        rw [hm _ le_rfl] at hn
        cases hn
      refine ⟨rfl, fun n hn => ?_, fun n hn => ?_⟩
      · simp [Function.update_of_ne (hne hn), hn]
      · simp [isDir, entriesOf, Function.update_of_ne (hne hn)]
  | openBacking => exact .of_heap rfl rfl
  | mapInsert id => exact .of_heap rfl rfl
  | mapRemove id => exact .of_heap rfl rfl
  | entryInsert d x c =>
    show Grows m ⟨m.fs.insertEntry d x c, m.sys⟩
    unfold insertEntry
    cases m.fs.entriesOf d with
    | none => exact .refl m
    | some es => exact setEntries_grows m.fs m.sys d _
  | entryRemove d x c =>
    show Grows m ⟨m.fs.eraseEntry d x, m.sys⟩
    unfold eraseEntry
    cases m.fs.entriesOf d with
    | none => exact .refl m
    | some es => exact setEntries_grows m.fs m.sys d _
  | setParent id parent => exact setNode_grows fun _ => rfl
  | clearLinks id => exact setNode_grows fun _ => rfl
  | setMode id mode => exact setNode_grows fun _ => rfl

/-- How far a call has come with the tree. `working` has taken the first node out of its
directory, and the second one, which is still named there, out of the map. -/
inductive Share where
  | working (loose : Option NodeId) (cleared : Option (NodeId × FileName × NodeId))
  | born (n : NodeId)
  | made (n : NodeId)
  | dropping (c : NodeId) (effect : Effect)
  | ended (effect : Effect)

namespace Share

def idle : Share := .working none none

/-- A node of the map that no entry names. -/
def root : Share → Option NodeId
  | working loose _ => loose
  | made n => some n
  | dropping c _ => some c
  | _ => none

def cleared : Share → Option (NodeId × FileName × NodeId)
  | working _ t => t
  | _ => none

def unborn : Share → Option NodeId
  | born n => some n
  | _ => none

def effect : Share → Effect
  | dropping _ e => e
  | ended e => e
  | _ => .unchanged

def Returns (g : Share) (e : Effect) : Prop := g = .ended e ∨ g = .idle ∧ e = .unchanged

end Share

/-- Nobody can find the node any more. -/
structure Gone (g o : Share) (m : MemoryState) (c : NodeId) : Prop where
  not_mem : c ∉ m.fs.nodes
  known : (m.fs.heap c).isSome
  mine : g.unborn ≠ some c
  other : o.unborn ≠ some c

theorem Gone.symm {g o : Share} (h : Gone g o m c) : Gone o g m c :=
  ⟨h.not_mem, h.known, h.other, h.mine⟩

structure SameKind (m : MemoryState) (c n : NodeId) : Prop where
  left : (m.fs.heap c).isSome
  right : (m.fs.heap n).isSome
  isDir : m.fs.isDir c = m.fs.isDir n

theorem SameKind.grows (h : SameKind m c n) (hg : Grows m m') : SameKind m' c n :=
  ⟨hg.known c h.left, hg.known n h.right,
    (hg.isDir c h.left).trans (h.isDir.trans (hg.isDir n h.right).symm)⟩

theorem sameKind_of_canReplace (hc : (m.fs.heap c).isSome) (hn : (m.fs.heap n).isSome)
    (h : m.fs.canReplaceNode c n = true) : SameKind m c n := ⟨hc, hn, (canReplaceNode_iff.mp h).1⟩

/-- The call has taken the node away for good. -/
def Effect.Took (m : MemoryState) (n : NodeId) : Effect → Prop
  | .removed c => c = n
  | .moved c _ _ replaced => replaced = some n ∧ SameKind m c n
  | _ => False

theorem Effect.Took.grows {e : Effect} (h : e.Took m n) (hg : Grows m m') : e.Took m' n := by
  cases e with
  | unchanged => exact h
  | created d x k => exact h
  | removed c => exact h
  | moved c b y replaced => exact ⟨h.1, h.2.grows hg⟩

/-- The call has the node in hand, has taken it away, or has put it where it is. -/
inductive Share.Takes (m : MemoryState) (n : NodeId) (g : Share) : Prop
  | loose (t : Option (NodeId × FileName × NodeId)) (h : g = .working (some n) t)
  | cleared (d : NodeId) (x : FileName) (h : g.cleared = some (d, x, n))
  | took (h : g.effect.Took m n)
  | moved (b : NodeId) (y : FileName) (replaced : Option NodeId)
      (h : g.effect = .moved n b y replaced) (hb : m.fs.entryAt b y = some n)

/-- The effect can still be seen, or was taken away. -/
def Effect.Stands (m : MemoryState) (takes done : NodeId → Prop) : Effect → Prop
  | .unchanged => True
  | .created d x n => m.fs.entryAt d x = some n ∨ takes n
  | .removed c => done c
  | .moved c b y replaced =>
    (m.fs.entryAt b y = some c ∨ takes c) ∧ ∀ r, replaced = some r → done r

theorem Effect.Stands.mono {e : Effect} {takes takes' done done' : NodeId → Prop}
    (h : e.Stands m takes done)
    (he : ∀ d x n, m.fs.entryAt d x = some n → m'.fs.entryAt d x = some n ∨ takes' n)
    (ht : ∀ n, takes n → takes' n) (hd : ∀ n, done n → done' n) : e.Stands m' takes' done' := by
  have hentry {d x n} (hh : m.fs.entryAt d x = some n ∨ takes n) :
      m'.fs.entryAt d x = some n ∨ takes' n :=
    hh.elim (he d x n) fun hn => Or.inr (ht n hn)
  cases e with
  | unchanged => trivial
  | created d x n => exact hentry h
  | removed c => exact hd c h
  | moved c b y replaced => exact ⟨hentry h.1, fun r hr => hd r (h.2 r hr)⟩

/-- What holds of one call, next to the other one. -/
structure Share.Holds (g o : Share) (m : MemoryState) : Prop where
  born : ∀ n, g.unborn = some n → n ∉ m.fs.nodes ∧ (m.fs.heap n).isSome ∧ o.unborn ≠ some n
  gone : ∀ t, g.cleared = some t → Gone g o m t.2.2
  took : ∀ c e, g = .dropping c e → e.Took m c
  stands : g.effect.Stands m (fun n => o.Takes m n) fun c => Gone g o m c ∨ g.root = some c

theorem Share.Holds.of_none {g o : Share} (hunborn : g.unborn = none) (hcleared : g.cleared = none)
    (hdropping : ∀ c e, g ≠ .dropping c e)
    (hstands : g.effect.Stands m (fun n => o.Takes m n) fun c => Gone g o m c ∨ g.root = some c) :
    g.Holds o m where
  born n hn := by cases hunborn.symm.trans hn
  gone t ht := by cases hcleared.symm.trans ht
  took c e he := absurd he (hdropping c e)
  stands := hstands

def Roots (g o : Share) (m : MemoryState) : Set NodeId :=
  {c | g.root = some c} ∪ {c | c = m.fs.root ∨ o.root = some c}

/-- What holds of the tree while two calls are under way. -/
structure Sound (g o : Share) (m : MemoryState) : Prop where
  fresh : Fresh m
  known : ∀ n ∈ m.fs.nodes, (m.fs.heap n).isSome
  forest : IsForest m.fs.edge {n | n ∈ m.fs.nodes} (Roots g o m)
  apart : ∀ c, g.root = some c → ¬ (c = m.fs.root ∨ o.root = some c)
  top : o.root ≠ some m.fs.root
  listed : ∀ d x c, m.fs.entryAt d x = some c →
    c ∈ m.fs.nodes ∨ g.cleared = some (d, x, c) ∨ o.cleared = some (d, x, c)
  mine : g.Holds o m
  other : o.Holds g m

section

variable {g g' o : Share}

theorem edge_eq_some {fs : MemoryFS} :
    fs.edge d x = some c ↔ fs.entryAt d x = some c ∧ c ∈ fs.nodes := by
  rw [edge_eq, Option.bind_eq_some_iff]
  constructor
  · rintro ⟨k, hk, hm⟩
    obtain ⟨hmem, rfl⟩ := nodeFromMap_eq_some.mp hm
    exact ⟨hk, hmem⟩
  · rintro ⟨hk, hmem⟩
    exact ⟨c, hk, nodeFromMap_eq_some.mpr ⟨hmem, rfl⟩⟩

theorem roots_comm (g o : Share) (m : MemoryState) : Roots g o m = Roots o g m := by
  ext c
  simp only [Roots, Set.mem_union, Set.mem_ofPred_eq]
  tauto

theorem roots_of_some (h : g.root = some c) :
    Roots g o m = insert c {c | c = m.fs.root ∨ o.root = some c} := by
  ext k
  simp [Roots, h, eq_comm]

theorem roots_of_none (h : g.root = none) :
    Roots g o m = {c | c = m.fs.root ∨ o.root = some c} := by
  ext k
  simp [Roots, h]

theorem Sound.symm (h : Sound g o m) : Sound o g m := by
  refine ⟨h.fresh, h.known, roots_comm g o m ▸ h.forest, ?_, ?_, ?_, h.other, h.mine⟩
  · rintro c ho (rfl | hg)
    · exact h.top ho
    · exact h.apart c hg (Or.inr ho)
  · exact fun hg => h.apart _ hg (Or.inl rfl)
  · intro d x c he
    rcases h.listed d x c he with hh | hh | hh
    · exact Or.inl hh
    · exact Or.inr (Or.inr hh)
    · exact Or.inr (Or.inl hh)

theorem effect_of_cleared {t : NodeId × FileName × NodeId} (h : g.cleared = some t) :
    g.effect = .unchanged := by
  cases g <;> first | rfl | cases h

theorem Share.Holds.after (h : o.Holds g m) (hg : Grows m m')
    (hgone : ∀ c, Gone g o m c → Gone g' o m' c)
    (hborn : ∀ n, o.unborn = some n → n ∉ m'.fs.nodes ∧ g'.unborn ≠ some n)
    (hentry : o.cleared = none → ∀ d x n, m.fs.entryAt d x = some n →
      m'.fs.entryAt d x = some n ∨ g'.Takes m' n)
    (htakes : ∀ n, g.Takes m n → g'.Takes m' n) : o.Holds g' m' := by
  refine ⟨fun n hn => ?_, fun t ht => (hgone _ (h.gone t ht).symm).symm,
    fun c e he => (h.took c e he).grows hg, ?_⟩
  · exact ⟨(hborn n hn).1, hg.known n (h.born n hn).2.1, (hborn n hn).2⟩
  · cases ht : o.cleared with
    | some t =>
      rw [effect_of_cleared ht]
      trivial
    | none =>
      refine h.stands.mono (hentry ht) htakes fun n hn => ?_
      exact hn.imp_left fun hh => (hgone n hh.symm).symm

/-- One step of the first call. -/
theorem Sound.step (h : Sound g o m) (hf : Fresh m') (hg : Grows m m')
    (hknown : ∀ n ∈ m'.fs.nodes, n ∈ m.fs.nodes ∨ (m.fs.heap n).isSome)
    (hforest : IsForest m'.fs.edge {n | n ∈ m'.fs.nodes} (Roots g' o m'))
    (hapart : ∀ c, g'.root = some c → ¬ (c = m.fs.root ∨ o.root = some c))
    (hlisted : ∀ d x c, m'.fs.entryAt d x = some c →
      c ∈ m'.fs.nodes ∨ g'.cleared = some (d, x, c) ∨ o.cleared = some (d, x, c))
    (hgone : ∀ c, Gone g o m c → Gone g' o m' c)
    (hborn : ∀ n, o.unborn = some n → n ∉ m'.fs.nodes ∧ g'.unborn ≠ some n)
    (hentry : o.cleared = none → ∀ d x n, m.fs.entryAt d x = some n →
      m'.fs.entryAt d x = some n ∨ g'.Takes m' n)
    (htakes : ∀ n, g.Takes m n → g'.Takes m' n) (hmine : g'.Holds o m') : Sound g' o m' where
  fresh := hf
  known n hn := hg.known n ((hknown n hn).elim (h.known n) id)
  forest := hforest
  apart := by rwa [hg.root]
  top := by
    rw [hg.root]
    exact h.top
  listed := hlisted
  mine := hmine
  other := h.other.after hg hgone hborn hentry htakes

theorem Sound.shrink (h : Sound g o m) (hf : Fresh m') (hg : Grows m m')
    (hnodes : m'.fs.nodes ⊆ m.fs.nodes) (hunborn : g'.unborn = none)
    (hforest : IsForest m'.fs.edge {n | n ∈ m'.fs.nodes} (Roots g' o m'))
    (hapart : ∀ c, g'.root = some c → ¬ (c = m.fs.root ∨ o.root = some c))
    (hlisted : ∀ d x c, m'.fs.entryAt d x = some c →
      c ∈ m'.fs.nodes ∨ g'.cleared = some (d, x, c) ∨ o.cleared = some (d, x, c))
    (hentry : o.cleared = none → ∀ d x n, m.fs.entryAt d x = some n →
      m'.fs.entryAt d x = some n ∨ g'.Takes m' n)
    (htakes : ∀ n, g.Takes m n → g'.Takes m' n)
    (hmine : (∀ c, Gone g o m c → Gone g' o m' c) → g'.Holds o m') : Sound g' o m' := by
  have hnone {n : NodeId} : g'.unborn ≠ some n := by simp [hunborn]
  have hgone (c : NodeId) (hc : Gone g o m c) : Gone g' o m' c :=
    ⟨fun hn => hc.not_mem (hnodes hn), hg.known c hc.known, hnone, hc.other⟩
  exact h.step hf hg (fun n hn => Or.inl (hnodes hn)) hforest hapart hlisted hgone
    (fun n hn => ⟨fun hh => (h.other.born n hn).1 (hnodes hh), hnone⟩) hentry htakes (hmine hgone)

theorem Share.Takes.same {g : Share} (h : g.Takes m n) (hg : Grows m m')
    (he : ∀ d x, m'.fs.entryAt d x = m.fs.entryAt d x) : g.Takes m' n := by
  cases h with
  | loose t h => exact .loose t h
  | cleared d x h => exact .cleared d x h
  | took h => exact .took (h.grows hg)
  | moved b y replaced h hb => exact .moved b y replaced h ((he b y).trans hb)

theorem edge_congr {fs fs' : MemoryFS} (he : ∀ d x, fs'.entryAt d x = fs.entryAt d x)
    (hn : fs'.nodes = fs.nodes) : fs'.edge = fs.edge := by
  funext d x
  ext c
  rw [edge_eq_some, edge_eq_some, he, hn]

theorem Sound.same (h : Sound g o m) (hf : Fresh m') (hg : Grows m m')
    (he : ∀ d x, m'.fs.entryAt d x = m.fs.entryAt d x) (hn : m'.fs.nodes = m.fs.nodes) :
    Sound g o m' := by
  have hgone (c : NodeId) (hc : Gone g o m c) : Gone g o m' c :=
    ⟨hn ▸ hc.not_mem, hg.known c hc.known, hc.mine, hc.other⟩
  have hentry (d : NodeId) (x : FileName) (n : NodeId) (hh : m.fs.entryAt d x = some n) :
      m'.fs.entryAt d x = some n := (he d x).trans hh
  have hroots : Roots g o m' = Roots g o m := by
    unfold Roots
    rw [hg.root]
  refine h.step hf hg (fun n hmem => Or.inl (hn ▸ hmem)) ?_ h.apart ?_ hgone ?_
    (fun _ d x n hh => Or.inl (hentry d x n hh)) (fun n ht => ht.same hg he) ?_
  · rw [edge_congr he hn, hroots, hn]
    exact h.forest
  · intro d x c hh
    rw [hn]
    exact h.listed d x c ((he d x).symm.trans hh)
  · rw [hn]
    exact fun n hb => ⟨(h.other.born n hb).1, (h.other.born n hb).2.2⟩
  · refine h.mine.after hg (fun c hc => (hgone c hc.symm).symm) ?_
      (fun _ d x n hh => Or.inl (hentry d x n hh)) fun n ht => ht.same hg he
    rw [hn]
    exact fun n hb => ⟨(h.mine.born n hb).1, (h.mine.born n hb).2.2⟩

theorem idle_takes : ¬ Share.idle.Takes m n := by
  intro h
  cases h with
  | loose t h => cases h
  | cleared d x h => cases h
  | took h => exact h
  | moved b y replaced h hb => cases h

theorem Sound.create (h : Sound .idle o m) {parent : NodeId} {kind : VfsEntryKind} {mode : Mode}
    (hfd : ¬ m.sys.takeId.newFd.1 < 0) :
    Sound (.born m.sys.nextNodeId) o ((Act.create parent kind mode).apply m) := by
  have hf := Act.apply_fresh h.fresh (.create parent kind mode)
  have hg := Act.apply_grows h.fresh (.create parent kind mode)
  have he := Act.apply_entryAt h.fresh (a := .create parent kind mode) rfl
  have hnew : m.fs.heap m.sys.nextNodeId = none := h.fresh _ le_rfl
  have hne {n : NodeId} (hn : (m.fs.heap n).isSome) : n ≠ m.sys.nextNodeId := by
    rintro rfl
    rw [hnew] at hn
    cases hn
  have hn : ((Act.create parent kind mode).apply m).fs.nodes = m.fs.nodes := by
    simp [Act.apply, hfd]
  have hmade : (((Act.create parent kind mode).apply m).fs.heap m.sys.nextNodeId).isSome := by
    simp [Act.apply, hfd]
  have hsame := h.same hf hg he hn
  refine h.step hf hg (fun n hmem => Or.inl (hn ▸ hmem)) hsame.forest (fun c hc => by cases hc)
    hsame.listed (fun c hc => ⟨hn ▸ hc.not_mem, hg.known c hc.known, ?_, hc.other⟩) ?_
    (fun _ d x n hh => Or.inl ((he d x).trans hh)) (fun n ht => absurd ht idle_takes) ?_
  · exact fun hh => hne hc.known (Option.some.inj hh).symm
  · intro n hb
    obtain ⟨hmem, hknown, -⟩ := h.other.born n hb
    rw [hn]
    exact ⟨hmem, fun hh => hne hknown (Option.some.inj hh).symm⟩
  · refine ⟨fun n hb => ?_, (fun t ht => by cases ht), (fun c e hc => by cases hc), trivial⟩
    cases hb
    rw [hn]
    refine ⟨fun hmem => hne (h.known _ hmem) rfl, hmade, fun hb => ?_⟩
    exact hne (h.other.born _ hb).2.1 rfl

theorem Sound.mapInsert (h : Sound (.born n) o m) :
    Sound (.made n) o ((Act.mapInsert n).apply m) := by
  have hg := Act.apply_grows h.fresh (.mapInsert n)
  obtain ⟨hmem, hknown, hother⟩ := h.mine.born n rfl
  have hne {d : NodeId} {x : FileName} {c : NodeId} (he : m.fs.entryAt d x = some c) : c ≠ n := by
    rintro rfl
    rcases h.listed d x c he with hh | hh | hh
    · exact hmem hh
    · cases hh
    · exact (h.other.gone _ hh).other rfl
  have hedge : ((Act.mapInsert n).apply m).fs.edge = m.fs.edge := by
    funext d x
    ext c
    rw [edge_eq_some, edge_eq_some]
    refine and_congr_right fun he => ?_
    show c ∈ insert n m.fs.nodes ↔ _
    rw [Finset.mem_insert, or_iff_right (hne he)]
  have hkept (c : NodeId) (hc : c ∈ m.fs.nodes) : c ∈ ((Act.mapInsert n).apply m).fs.nodes :=
    Finset.mem_insert_of_mem hc
  refine h.step (Act.apply_fresh h.fresh _) hg ?_ ?_ ?_ ?_ ?_ ?_ (fun _ d x k hh => Or.inl hh) ?_ ?_
  · intro k hk
    rcases Finset.mem_insert.mp hk with rfl | hk
    · exact Or.inr hknown
    · exact Or.inl hk
  · have hroots := h.forest.addRoot (n := n) hmem
    rw [roots_of_none rfl] at hroots
    rw [hedge, roots_of_some (g := .made n) rfl]
    refine Eq.subst (motive := fun s => IsForest _ s _) ?_ hroots
    ext k
    simp [Act.apply]
  · rintro c hc (rfl | ho)
    · cases hc
      exact hmem (h.forest.root_mem _ (Or.inr (Or.inl rfl)))
    · cases hc
      exact hmem (h.forest.root_mem _ (Or.inr (Or.inr ho)))
  · exact fun d x c hh => (h.listed d x c hh).imp_left (hkept c)
  · refine fun c hc => ⟨fun hh => ?_, hc.known, (fun hh => by cases hh), hc.other⟩
    rcases Finset.mem_insert.mp hh with rfl | hh
    · exact hc.mine rfl
    · exact hc.not_mem hh
  · refine fun k hk => ⟨fun hh => ?_, (fun hh => by cases hh)⟩
    rcases Finset.mem_insert.mp hh with rfl | hh
    · exact hother hk
    · exact (h.other.born k hk).1 hh
  · intro k ht
    cases ht with
    | loose t hh => cases hh
    | cleared d x hh => cases hh
    | took hh => exact absurd hh id
    | moved b y replaced hh hb => cases hh
  · exact .of_none rfl rfl (fun c e hc => by cases hc) trivial

theorem insertEntry_nodes (fs : MemoryFS) (b : NodeId) (y : FileName) (c : NodeId) :
    (fs.insertEntry b y c).nodes = fs.nodes := by
  unfold insertEntry
  cases fs.entriesOf b <;> rfl

theorem eraseEntry_nodes (fs : MemoryFS) (a : NodeId) (x : FileName) :
    (fs.eraseEntry a x).nodes = fs.nodes := by
  unfold eraseEntry
  cases fs.entriesOf a <;> rfl

theorem insertEntry_edge {fs : MemoryFS} (hdir : fs.isDir b = true) (hc : c ∈ fs.nodes) :
    (fs.insertEntry b y c).edge = setEdge fs.edge b y (some c) := by
  funext d x
  ext k
  rw [edge_eq_some, insertEntry_entryAt, insertEntry_nodes]
  by_cases hd : d = b ∧ x = y
  · rw [if_pos ⟨hd.1, hd.2, hdir⟩, setEdge, if_pos hd]
    refine ⟨fun hh => hh.1, fun hh => ⟨hh, ?_⟩⟩
    cases hh
    exact hc
  · rw [if_neg fun hh => hd ⟨hh.1, hh.2.1⟩, setEdge, if_neg hd, edge_eq_some]

theorem eraseEntry_edge (fs : MemoryFS) (a : NodeId) (x : FileName) :
    (fs.eraseEntry a x).edge = setEdge fs.edge a x none := by
  funext d z
  ext k
  rw [edge_eq_some, eraseEntry_entryAt, eraseEntry_nodes]
  by_cases hd : d = a ∧ z = x
  · simp [hd, setEdge]
  · rw [if_neg hd, setEdge, if_neg hd, edge_eq_some]

theorem Sound.insert (h : Sound g o m) (hc : g.root = some c) (hdir : m.fs.isDir b = true)
    (hv : (Act.entryInsert b y c).StillValid m) (hunborn : g'.unborn = none)
    (hroot : g'.root = m.fs.edge b y)
    (hname : ∀ d x k, g.cleared = some (d, x, k) → d = b ∧ x = y)
    (hentry : ∀ n, m.fs.entryAt b y = some n → g'.Takes ((Act.entryInsert b y c).apply m) n)
    (htakes : ∀ n, g.Takes m n → g'.Takes ((Act.entryInsert b y c).apply m) n)
    (hmine : (∀ k, Gone g o m k → Gone g' o ((Act.entryInsert b y c).apply m) k) →
      g'.Holds o ((Act.entryInsert b y c).apply m)) :
    Sound g' o ((Act.entryInsert b y c).apply m) := by
  obtain ⟨hb, hbelow, -⟩ := hv
  have hmem : c ∈ m.fs.nodes := h.forest.root_mem c (Or.inl hc)
  have hg := Act.apply_grows h.fresh (.entryInsert b y c)
  have hroots : Roots g' o ((Act.entryInsert b y c).apply m) = Roots g' o m := by
    unfold Roots
    rw [hg.root]
  have hf := h.forest
  rw [roots_of_some hc] at hf
  have hless : ¬ Reaches m.fs.edge c b := fun hr => hbelow
    (Reaches.lift (fun _ => True) (fun d x k he _ =>
      ⟨trivial, (Reaches.root _ d).step (edge_eq_some.mp he).1⟩) hr trivial)
  refine h.shrink (Act.apply_fresh h.fresh _) hg (insertEntry_nodes m.fs b y c).subset hunborn
    ?_ ?_ ?_ (fun _ d x n hh => ?_) htakes hmine
  · rw [hroots]
    show IsForest (m.fs.insertEntry b y c).edge {n | n ∈ (m.fs.insertEntry b y c).nodes} _
    rw [insertEntry_edge hdir hmem, insertEntry_nodes]
    cases he : m.fs.edge b y with
    | none =>
      rw [roots_of_none (hroot.trans he)]
      exact hf.attach (h.apart c hc) hb he hless
    | some r =>
      rw [roots_of_some (hroot.trans he)]
      exact hf.replace (h.apart c hc) hb he hless
  · intro r hr hh
    refine h.forest.root_top r ?_ b y (hroot.symm.trans hr)
    exact Or.inr hh
  · intro d x k hh
    have hh' := (insertEntry_entryAt m.fs b y c d x).symm.trans hh
    show k ∈ (m.fs.insertEntry b y c).nodes ∨ _
    rw [insertEntry_nodes]
    split_ifs at hh' with hd
    · cases hh'
      exact Or.inl hmem
    · rcases h.listed d x k hh' with hk | hk | hk
      · exact Or.inl hk
      · exact absurd ⟨(hname d x k hk).1, (hname d x k hk).2, hdir⟩ hd
      · exact Or.inr (Or.inr hk)
  · by_cases hd : d = b ∧ x = y
    · obtain ⟨rfl, rfl⟩ := hd
      exact Or.inr (hentry n hh)
    · exact Or.inl ((insertEntry_entryAt m.fs b y c d x).trans
        ((if_neg fun hh => hd ⟨hh.1, hh.2.1⟩).trans hh))

theorem insert_self (hdir : m.fs.isDir b = true) :
    ((Act.entryInsert b y c).apply m).fs.entryAt b y = some c :=
  (insertEntry_entryAt m.fs b y c b y).trans (if_pos ⟨rfl, rfl, hdir⟩)

theorem Sound.insertMade (h : Sound (.made n) o m) (hdir : m.fs.isDir d = true)
    (hfree : m.fs.entryAt d x = none) (hv : (Act.entryInsert d x n).StillValid m) :
    Sound (.ended (.created d x n)) o ((Act.entryInsert d x n).apply m) := by
  have hnone : m.fs.edge d x = none := by simp [edge_eq, hfree]
  refine h.insert rfl hdir hv rfl hnone.symm (fun d x k hk => by cases hk) ?_ ?_ fun _ => ?_
  · intro k hk
    cases hfree.symm.trans hk
  · intro k ht
    cases ht with
    | loose t hh => cases hh
    | cleared d x hh => cases hh
    | took hh => exact absurd hh id
    | moved b y replaced hh hb => cases hh
  · exact .of_none rfl rfl (fun c e hc => by cases hc) (Or.inl (insert_self hdir))

def Share.attached (fs : MemoryFS) (c b : NodeId) (y : FileName) : Share :=
  (fs.edge b y).elim (.ended (.moved c b y (fs.entryAt b y))) fun r =>
    .dropping r (.moved c b y (some r))

theorem attached_cases (fs : MemoryFS) (c b : NodeId) (y : FileName) :
    Share.attached fs c b y = .ended (.moved c b y (fs.entryAt b y)) ∧ fs.edge b y = none ∨
      ∃ r, Share.attached fs c b y = .dropping r (.moved c b y (some r)) ∧
        fs.edge b y = some r ∧ fs.entryAt b y = some r := by
  unfold Share.attached
  cases he : fs.edge b y with
  | none => exact Or.inl ⟨rfl, rfl⟩
  | some r => exact Or.inr ⟨r, rfl, rfl, (edge_eq_some.mp he).1⟩

theorem Sound.insertLoose {t : Option (NodeId × FileName × NodeId)}
    (h : Sound (.working (some c) t) o m) (hdir : m.fs.isDir b = true)
    (ht : ∀ d x k, t = some (d, x, k) → (d = b ∧ x = y) ∧ m.fs.entryAt b y = some k)
    (hv : (Act.entryInsert b y c).StillValid m) :
    Sound (.attached m.fs c b y) o ((Act.entryInsert b y c).apply m) := by
  have hg := Act.apply_grows h.fresh (.entryInsert b y c)
  have hknown : (m.fs.heap c).isSome := h.known c (h.forest.root_mem c (Or.inl rfl))
  have heff : (Share.attached m.fs c b y).effect = .moved c b y (m.fs.entryAt b y) := by
    rcases attached_cases m.fs c b y with ⟨ha, -⟩ | ⟨r, ha, -, he⟩
    · rw [ha]
      rfl
    · rw [ha, he]
      rfl
  -- what was there under the name is gone, or is a root now
  have hthere (k : NodeId) (hk : m.fs.entryAt b y = some k) :
      SameKind m c k ∧ (Gone (.working (some c) t) o m k ∨
        Share.attached m.fs c b y = .dropping k (.moved c b y (some k))) := by
    have hfound : (m.fs.heap k).isSome ∧ (Gone (.working (some c) t) o m k ∨
        Share.attached m.fs c b y = .dropping k (.moved c b y (some k))) := by
      rcases h.listed b y k hk with hmem | hh | hh
      · refine ⟨h.known k hmem, Or.inr ?_⟩
        simp [Share.attached, edge_eq_some.mpr ⟨hk, hmem⟩]
      · exact ⟨(h.mine.gone _ hh).known, Or.inl (h.mine.gone _ hh)⟩
      · exact ⟨(h.other.gone _ hh).known, Or.inl (h.other.gone _ hh).symm⟩
    exact ⟨sameKind_of_canReplace hknown hfound.1 (hv.2.2 k hk), hfound.2⟩
  have htook (k : NodeId) (hk : m.fs.entryAt b y = some k) :
      (Share.attached m.fs c b y).effect.Took ((Act.entryInsert b y c).apply m) k := by
    rw [heff]
    exact ⟨hk, (hthere k hk).1.grows hg⟩
  have hstands (hgone : ∀ k, Gone (.working (some c) t) o m k →
      Gone (.attached m.fs c b y) o ((Act.entryInsert b y c).apply m) k) :
      (Share.attached m.fs c b y).effect.Stands ((Act.entryInsert b y c).apply m)
        (fun n => o.Takes ((Act.entryInsert b y c).apply m) n) fun k =>
          Gone (.attached m.fs c b y) o ((Act.entryInsert b y c).apply m) k ∨
            (Share.attached m.fs c b y).root = some k := by
    rw [heff]
    refine ⟨Or.inl (insert_self hdir), fun r hr => ?_⟩
    rcases (hthere r hr).2 with hh | hh
    · exact Or.inl (hgone r hh)
    · exact Or.inr (by rw [hh]; rfl)
  refine h.insert rfl hdir hv ?_ ?_ (fun d x k hh => (ht d x k hh).1)
    (fun n hn => .took (htook n hn)) ?_ ?_
  · rcases attached_cases m.fs c b y with ⟨ha, -⟩ | ⟨r, ha, -⟩ <;> rw [ha] <;> rfl
  · rcases attached_cases m.fs c b y with ⟨ha, he⟩ | ⟨r, ha, he, -⟩ <;> rw [ha, he] <;> rfl
  · intro n hn
    cases hn with
    | loose t hh =>
      cases hh
      exact .moved b y _ heff (insert_self hdir)
    | cleared d x hh => exact .took (htook n (ht d x n hh).2)
    | took hh => exact absurd hh id
    | moved b y replaced hh hb => cases hh
  · intro hgone
    refine ⟨?_, ?_, ?_, hstands hgone⟩
    · intro k hk
      rcases attached_cases m.fs c b y with ⟨ha, -⟩ | ⟨r, ha, -⟩ <;> rw [ha] at hk <;> cases hk
    · intro s hs
      rcases attached_cases m.fs c b y with ⟨ha, -⟩ | ⟨r, ha, -⟩ <;> rw [ha] at hs <;> cases hs
    · intro k e hk
      rcases attached_cases m.fs c b y with ⟨ha, -⟩ | ⟨r, ha, -, he⟩
      · rw [ha] at hk
        cases hk
      · have htr := htook r he
        rw [ha] at hk htr
        cases hk
        exact htr

theorem Sound.remove {t : Option (NodeId × FileName × NodeId)} (h : Sound (.working none t) o m)
    (hx : m.fs.entryAt d x = some c) (hc : c ∈ m.fs.nodes) (hunborn : g'.unborn = none)
    (hroot : g'.root = some c) (hcleared : g'.cleared = t)
    (htaken : g'.Takes ((Act.entryRemove d x (some c)).apply m) c)
    (hmine : (∀ k, Gone (.working none t) o m k →
      Gone g' o ((Act.entryRemove d x (some c)).apply m) k) →
      g'.Holds o ((Act.entryRemove d x (some c)).apply m)) :
    Sound g' o ((Act.entryRemove d x (some c)).apply m) := by
  have hg := Act.apply_grows h.fresh (.entryRemove d x (some c))
  have hedge : m.fs.edge d x = some c := edge_eq_some.mpr ⟨hx, hc⟩
  have hf := h.forest
  rw [roots_of_none rfl] at hf
  refine h.shrink (Act.apply_fresh h.fresh _) hg (eraseEntry_nodes m.fs d x).subset hunborn
    ?_ ?_ ?_ (fun _ b y n hh => ?_) ?_ hmine
  · rw [roots_of_some hroot, hg.root]
    show IsForest (m.fs.eraseEntry d x).edge {n | n ∈ (m.fs.eraseEntry d x).nodes} _
    rw [eraseEntry_edge, eraseEntry_nodes]
    exact hf.detach hedge
  · intro k hk hh
    cases hroot.symm.trans hk
    exact hf.root_top c hh d x hedge
  · intro b y k hh
    have hh' := (eraseEntry_entryAt m.fs d x b y).symm.trans hh
    show k ∈ (m.fs.eraseEntry d x).nodes ∨ _
    rw [eraseEntry_nodes, hcleared]
    split_ifs at hh'
    exact h.listed b y k hh'
  · by_cases hd : b = d ∧ y = x
    · obtain ⟨rfl, rfl⟩ := hd
      cases hx.symm.trans hh
      exact Or.inr htaken
    · exact Or.inl ((eraseEntry_entryAt m.fs d x b y).trans ((if_neg hd).trans hh))
  · intro n hn
    cases hn with
    | loose t hh => cases hh
    | cleared b y hh => exact .cleared b y (hcleared.trans hh)
    | took hh => exact absurd hh id
    | moved b y replaced hh hb => cases hh

theorem Sound.removeLoose {t : Option (NodeId × FileName × NodeId)}
    (h : Sound (.working none t) o m) (hv : (Act.entryRemove d x (some c)).StillValid m) :
    Sound (.working (some c) t) o ((Act.entryRemove d x (some c)).apply m) :=
  h.remove hv.1 hv.2 rfl rfl rfl (.loose t rfl) fun hgone =>
    ⟨(fun n hn => by cases hn), fun s hs => hgone _ (h.mine.gone s hs),
      (fun k e hk => by cases hk), trivial⟩

theorem Sound.removeForGood (h : Sound .idle o m)
    (hv : (Act.entryRemove d x (some c)).StillValid m) :
    Sound (.dropping c (.removed c)) o ((Act.entryRemove d x (some c)).apply m) := by
  refine h.remove hv.1 hv.2 rfl rfl rfl (.took rfl) fun _ =>
    ⟨(fun n hn => by cases hn), (fun s hs => by cases hs), fun k e hk => ?_, Or.inr rfl⟩
  cases hk
  exact rfl

/-- An entry for nothing. -/
theorem Sound.removeStale (h : Sound .idle o m) (hv : (Act.entryRemove d x none).StillValid m) :
    Sound .idle o ((Act.entryRemove d x none).apply m) := by
  have hg := Act.apply_grows h.fresh (.entryRemove d x none)
  have hnone : m.fs.edge d x = none := by
    cases he : m.fs.edge d x with
    | none => rfl
    | some c => exact absurd (edge_eq_some.mp he).2 (hv c (edge_eq_some.mp he).1)
  refine h.shrink (Act.apply_fresh h.fresh _) hg (eraseEntry_nodes m.fs d x).subset rfl ?_
    (fun c hc => by cases hc) ?_ (fun ho b y n hh => ?_) (fun n hn => absurd hn idle_takes)
    fun _ => .of_none rfl rfl (fun c e hc => by cases hc) trivial
  · have hset : setEdge m.fs.edge d x none = m.fs.edge := by
      funext b y
      unfold setEdge
      split_ifs with hb
      · rw [hb.1, hb.2, hnone]
      · rfl
    rw [roots_of_none rfl, hg.root]
    show IsForest (m.fs.eraseEntry d x).edge {n | n ∈ (m.fs.eraseEntry d x).nodes} _
    rw [eraseEntry_edge, eraseEntry_nodes, hset, ← roots_of_none (g := .idle) rfl]
    exact h.forest
  · intro b y k hh
    have hh' := (eraseEntry_entryAt m.fs d x b y).symm.trans hh
    show k ∈ (m.fs.eraseEntry d x).nodes ∨ _
    rw [eraseEntry_nodes]
    split_ifs at hh'
    exact h.listed b y k hh'
  · by_cases hb : b = d ∧ y = x
    · obtain ⟨rfl, rfl⟩ := hb
      rcases h.listed b y n hh with hn | hn | hn
      · exact absurd hn (hv n hh)
      · cases hn
      · rw [ho] at hn
        cases hn
    · exact Or.inl ((eraseEntry_entryAt m.fs d x b y).trans ((if_neg hb).trans hh))

theorem mapRemove_edge {fs : MemoryFS} (hr : ∀ d x, fs.edge d x ≠ some c) :
    ({ fs with nodes := fs.nodes.erase c } : MemoryFS).edge = fs.edge := by
  funext d x
  ext k
  rw [edge_eq_some, edge_eq_some]
  show fs.entryAt d x = some k ∧ k ∈ fs.nodes.erase c ↔ _
  rw [Finset.mem_erase]
  constructor
  · exact fun hh => ⟨hh.1, hh.2.2⟩
  · refine fun hh => ⟨hh.1, ?_, hh.2⟩
    rintro rfl
    exact hr d x (edge_eq_some.mpr hh)

/-- The only way to the node is cut. -/
theorem mapRemove_edge_set {fs : MemoryFS} (hy : fs.edge d y = some c)
    (honce : ∀ b x, fs.edge b x = some c → b = d ∧ x = y) :
    ({ fs with nodes := fs.nodes.erase c } : MemoryFS).edge = setEdge fs.edge d y none := by
  funext b x
  ext k
  rw [edge_eq_some]
  show fs.entryAt b x = some k ∧ k ∈ fs.nodes.erase c ↔ _
  rw [Finset.mem_erase]
  unfold setEdge
  split_ifs with hb
  · refine iff_of_false ?_ fun hh => by cases hh
    rintro ⟨hk, hne, -⟩
    rw [hb.1, hb.2, (edge_eq_some.mp hy).1] at hk
    exact hne (Option.some.inj hk).symm
  · rw [edge_eq_some]
    refine and_congr_right fun hk => ⟨fun hh => hh.2, fun hmem => ⟨?_, hmem⟩⟩
    rintro rfl
    exact hb (honce b x (edge_eq_some.mpr ⟨hk, hmem⟩))

theorem childless_edge {fs : MemoryFS} (h : fs.Childless c) (x : FileName) :
    fs.edge c x = none := by
  rw [edge_eq, childless_iff.mp h x]
  rfl

theorem erase_eq_diff (s : Finset NodeId) (c : NodeId) :
    {n | n ∈ s.erase c} = {n | n ∈ s} \ {c} := by
  ext n
  simp [and_comm]

theorem Sound.drop {e : Effect} (h : Sound (.dropping c e) o m)
    (hv : (Act.mapRemove c).StillValid m) : Sound (.ended e) o ((Act.mapRemove c).apply m) := by
  have hg := Act.apply_grows h.fresh (.mapRemove c)
  have hf := h.forest
  have htop (d : NodeId) (x : FileName) : m.fs.edge d x ≠ some c := hf.root_top c (Or.inl rfl) d x
  have hedge := mapRemove_edge htop
  have htaken : e.Took m c := h.mine.took c e rfl
  rw [roots_of_some rfl] at hf
  refine h.shrink (Act.apply_fresh h.fresh _) hg (Finset.erase_subset c _) rfl ?_
    (fun k hk => by cases hk) ?_ (fun _ d x n hh => Or.inl hh) ?_
    fun hgone => .of_none rfl rfl (fun k e' hk => by cases hk) ?_
  · rw [roots_of_none rfl, hg.root]
    show IsForest ({ m.fs with nodes := m.fs.nodes.erase c } : MemoryFS).edge
      {n | n ∈ m.fs.nodes.erase c} _
    rw [hedge, erase_eq_diff]
    exact hf.dropRoot (h.apart c rfl) (childless_edge hv)
  · intro d x k hh
    refine (h.listed d x k hh).imp (fun hk => Finset.mem_erase.mpr ⟨?_, hk⟩) fun hk =>
      Or.inr (hk.resolve_left fun hh => by cases hh)
    rintro rfl
    exact h.forest.root_top k (Or.inl rfl) d x (edge_eq_some.mpr ⟨hh, hk⟩)
  · intro n hn
    cases hn with
    | loose t hh => cases hh
    | cleared d x hh => cases hh
    | took hh => exact .took (hh.grows hg)
    | moved b y replaced hh hb => exact .moved b y replaced hh hb
  · refine h.mine.stands.mono (fun d x n hh => Or.inl hh) (fun n hn => hn.same hg fun _ _ => rfl) ?_
    rintro k (hk | hk)
    · exact Or.inl (hgone k hk)
    · cases hk
      exact Or.inl ⟨Finset.notMem_erase c _, h.known c (h.forest.root_mem c (Or.inl rfl)),
        (fun hh => by cases hh), fun ho => (h.other.born c ho).1 (h.forest.root_mem c (Or.inl rfl))⟩

/-- The node that will be replaced is dropped while its entry is there. -/
theorem Sound.clear (h : Sound .idle o m) (hy : m.fs.entryAt d y = some c)
    (hv : (Act.mapRemove c).StillValid m) :
    Sound (.working none (some (d, y, c))) o ((Act.mapRemove c).apply m) := by
  have hg := Act.apply_grows h.fresh (.mapRemove c)
  have hf := h.forest
  have hfound : (m.fs.heap c).isSome ∧ o.unborn ≠ some c := by
    rcases h.listed d y c hy with hh | hh | hh
    · exact ⟨h.known c hh, fun ho => (h.other.born c ho).1 hh⟩
    · cases hh
    · exact ⟨(h.other.gone _ hh).known, (h.other.gone _ hh).mine⟩
  refine h.shrink (Act.apply_fresh h.fresh _) hg (Finset.erase_subset c _) rfl ?_
    (fun k hk => by cases hk) ?_ (fun _ d x n hh => Or.inl hh) (fun n hn => absurd hn idle_takes)
    fun _ => ⟨(fun n hn => by cases hn), fun t ht => ?_, (fun k e hk => by cases hk), trivial⟩
  · rw [roots_of_none rfl] at hf
    rw [roots_of_none rfl, hg.root]
    show IsForest ({ m.fs with nodes := m.fs.nodes.erase c } : MemoryFS).edge
      {n | n ∈ m.fs.nodes.erase c} _
    by_cases hc : c ∈ m.fs.nodes
    · have hedge : m.fs.edge d y = some c := edge_eq_some.mpr ⟨hy, hc⟩
      have hset := mapRemove_edge_set hedge fun b x he => hf.once b x d y c he hedge
      rw [hset, erase_eq_diff]
      refine (hf.detach hedge).dropRoot (fun hr => hf.root_top c hr d y hedge) fun x => ?_
      unfold setEdge
      split_ifs
      · rfl
      · exact childless_edge hv x
    · rw [Finset.erase_eq_of_notMem hc]
      exact hf
  · intro b x k hh
    by_cases hk : k = c
    · subst hk
      by_cases hmem : k ∈ m.fs.nodes
      · obtain ⟨rfl, rfl⟩ := hf.once b x d y k (edge_eq_some.mpr ⟨hh, hmem⟩)
          (edge_eq_some.mpr ⟨hy, hmem⟩)
        exact Or.inr (Or.inl rfl)
      · rcases h.listed b x k hh with hn | hn | hn
        · exact absurd hn hmem
        · cases hn
        · exact Or.inr (Or.inr hn)
    · refine (h.listed b x k hh).imp (fun hn => Finset.mem_erase.mpr ⟨hk, hn⟩) fun hn =>
        Or.inr (hn.resolve_left fun hh => by cases hh)
  · cases ht
    exact ⟨Finset.notMem_erase c _, hfound.1, (fun hh => by cases hh), hfound.2⟩

theorem Sound.found (h : Sound .idle o m) (hy : m.fs.entryAt b y = some c) :
    Sound (.ended (.moved c b y none)) o m := by
  refine h.shrink h.fresh (.refl m) (Finset.Subset.refl _) rfl h.forest
    (fun k hk => by cases hk) h.listed (fun _ d x n hh => Or.inl hh)
    (fun n hn => absurd hn idle_takes)
    fun _ => .of_none rfl rfl (fun k e hk => by cases hk) ⟨Or.inl hy, (fun r hr => by cases hr)⟩

end

end MemoryFS

end SandboxVfs
