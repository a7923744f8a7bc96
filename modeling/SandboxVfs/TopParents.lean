import SandboxVfs.BackendSteps
import SandboxVfs.NamespaceView

/-! Exactly which directories an overlay makes in its top layer before it writes there,
and how many descriptors that takes. -/

namespace SandboxVfs

open MemoryFS NameGraph

/-- The kernel has a descriptor for each of the next `n` calls. -/
def Sys.grants : Sys → Nat → Bool
  | _, 0 => true
  | s, n + 1 => decide (0 ≤ s.newFd.1) && s.newFd.2.grants n

theorem Sys.takeId_grants (s : Sys) (n : Nat) : s.takeId.grants n = s.grants n := by
  induction n generalizing s with
  | zero => rfl
  | succ n ih =>
    show (decide (0 ≤ s.newFd.1) && s.newFd.2.takeId.grants n) = _
    rw [ih]
    rfl

def extensions (a : PathBuf) : List FileName → List PathBuf
  | [] => []
  | x :: xs => (a ++ [x]) :: extensions (a ++ [x]) xs

theorem extensions_append (a : PathBuf) (xs ys : List FileName) :
    extensions a (xs ++ ys) = extensions a xs ++ extensions (a ++ xs) ys := by
  induction xs generalizing a with
  | nil => simp [extensions]
  | cons x xs ih => simp [extensions, ih]

theorem extensions_eq_inits (a xs : PathBuf) :
    extensions a xs = xs.inits.tail.map (a ++ ·) := by
  induction xs generalizing a with
  | nil => rfl
  | cons x xs ih =>
    obtain ⟨l, hl⟩ : ∃ l, xs.inits = [] :: l := ⟨xs.inits.tail, by cases xs <;> rfl⟩
    simp [extensions, ih, hl]

theorem filter_inits_ne_nil (q : PathBuf) : q.inits.filter (!·.isEmpty) = q.inits.tail := by
  cases q with
  | nil => rfl
  | cons x q => simp [List.filter_eq_self]

theorem mem_extensions {a r xs : PathBuf} (h : r ∈ extensions a xs) :
    ∃ s, r = a ++ s ∧ s <+: xs := by
  rw [extensions_eq_inits] at h
  obtain ⟨s, hs, rfl⟩ := List.mem_map.mp h
  exact ⟨s, rfl, (List.mem_inits s xs).mp (List.mem_of_mem_tail hs)⟩

namespace MemoryFS

variable {fs fs' : MemoryFS} {next : NodeId}

theorem Created.view {d : NodeId} {x : FileName} {n : Inode} (h : fs.WF next)
    (hc : Created fs fs' d x n) (hid : n.id = next) {p : PathBuf}
    (hp : fs.resolveNames p = some d) :
    fs'.view = addPath fs.view (p ++ [x]) (n.id, n.isDir, n.mode) := by
  funext q
  simp only [MemoryFS.view, hc.resolveNames h hid hp, addPath]
  split_ifs with hq
  · simp [hc.inodeOf]
  · cases hr : fs.resolveNames q with
    | none => rfl
    | some c =>
      have hne : c ≠ n.id := by
        rintro rfl
        exact h.not_mem_fresh hid.ge (h.resolveNames_mem hr)
      simp [hc.inodeOf, hne]

theorem WF.view_eq_none_iff (h : fs.WF next) {p : PathBuf} :
    fs.view p = none ↔ fs.resolveNames p = none := by
  rw [← h.view_node, Option.map_eq_none_iff]

theorem isDir_of_view {p : PathBuf} {c : NodeId} {d : Bool} {mode : Mode}
    (hv : fs.view p = some (c, d, mode)) : fs.resolveNames p = some c ∧ fs.isDir c = d := by
  obtain ⟨c', hp, hi⟩ := Option.bind_eq_some_iff.mp hv
  obtain ⟨i, hi', he⟩ := Option.map_eq_some_iff.mp hi
  cases he
  exact ⟨hp, by rw [isDir_eq_inode, hi']; rfl⟩

def missing (fs : MemoryFS) (q : PathBuf) : Nat := q.inits.countP fun r => fs.resolveNames r = none

/-- Directories can be made down to `q`: no file is in the way, and the kernel has a
descriptor for each. -/
def CanMakeDirs (m : MemoryState) (q : PathBuf) : Prop :=
  (∀ r c, r <+: q → m.fs.resolveNames r = some c → m.fs.isDir c = true) ∧
    m.sys.grants (m.fs.missing q) = true

theorem WF.exists_deepest (h : fs.WF next) (q : PathBuf) :
    ∃ a xs c, q = a ++ xs ∧ fs.resolveNames a = some c ∧
      ∀ x ∈ xs.head?, fs.resolveNames (a ++ [x]) = none := by
  induction q using List.reverseRecOn with
  | nil => exact ⟨[], [], fs.root, rfl, h.resolveNames_nil, by simp⟩
  | append_singleton q y ih =>
    obtain ⟨a, xs, c, rfl, ha, hx⟩ := ih
    cases xs with
    | cons x xs => exact ⟨a, x :: xs ++ [y], c, by simp, ha, hx⟩
    | nil =>
      cases hy : fs.resolveNames (a ++ [y]) with
      | none => exact ⟨a, [y], c, by simp, ha, by simpa using hy⟩
      | some c' => exact ⟨a ++ [y], [], c', by simp, hy, by simp⟩

/-- One round of the loop in the top layer. -/
def ensureDir (m : MemoryState) (p : PathBuf) : MemoryState :=
  if m.fs.resolveNames p = none then (createNode m p.toAbs .dir 0o755).2 else m

theorem ensureDirs_of_exists {m : MemoryState} {ps : List PathBuf}
    (h : ∀ p ∈ ps, m.fs.resolveNames p ≠ none) : ps.foldl ensureDir m = m := by
  induction ps with
  | nil => rfl
  | cons p ps ih =>
    have hp : ensureDir m p = m := if_neg (h p List.mem_cons_self)
    rw [List.foldl_cons, hp]
    exact ih fun q hq => h q (List.mem_cons_of_mem p hq)

theorem ensureDirs_of_missing {m : MemoryState} (h : m.fs.WF m.sys.nextNodeId) {a : PathBuf}
    (ha : m.fs.resolveNames a = none) (xs : List FileName) :
    (extensions a xs).foldl ensureDir m = m := by
  induction xs generalizing a with
  | nil => rfl
  | cons x xs ih =>
    have hx : m.fs.resolveNames (a ++ [x]) = none :=
      h.resolveNames_none_below (List.prefix_append a [x]) ha
    have hm : ensureDir m (a ++ [x]) = m := by
      rw [ensureDir, if_pos hx, createNode_toAbs, ha]
    rw [extensions, List.foldl_cons, hm]
    exact ih hx

theorem grants_one_iff (s : Sys) : s.grants 1 = true ↔ 0 ≤ s.kernel.answer s.calls s.live := by
  rw [Sys.grants, Sys.grants, Bool.and_true, decide_eq_true_iff]
  rfl

theorem createNodeInDir_granted {m : MemoryState} (h : m.fs.WF m.sys.nextNodeId) {d : NodeId}
    {x : FileName} (hd : m.fs.isDir d = true) (hx : m.fs.entryAt d x = none)
    (hg : m.sys.grants 1 = true) (kind : VfsEntryKind) (mode : Mode) :
    ∃ n m', createNodeInDir m d x kind mode = (some n.id, m') ∧ n.id = m.sys.nextNodeId ∧
      n.isDir = (kind == .dir) ∧ n.mode = mode &&& 0o7777 ∧ Created m.fs m'.fs d x n ∧
      m'.fs.WF m'.sys.nextNodeId ∧ ∀ k, m'.sys.grants k = m.sys.grants (k + 1) := by
  have hk := (grants_one_iff m.sys).mp hg
  obtain ⟨id, hid⟩ := Option.isSome_iff_exists.mp
    ((createNodeInDir_isSome_iff m d x kind mode).mpr ⟨hd, hx, hk⟩)
  have hc : createNodeInDir m d x kind mode = (some id, (createNodeInDir m d x kind mode).2) :=
    Prod.ext hid rfl
  obtain ⟨rfl, hl, n, hn, hdir, hmode, hcr⟩ := createNodeInDir_some h hc
  have hsys : (createNodeInDir m d x kind mode).2.sys = m.sys.takeId.newFd.2 := by
    obtain ⟨es, he⟩ := isDir_iff_entries.mp hd
    have hname : x ∉ es := by
      rw [entryAt_of_entriesOf he] at hx
      simpa using hx
    have hpos : ¬ m.sys.takeId.newFd.1 < 0 := not_lt.mpr hk
    simp only [createNodeInDir, he, hname, hpos, if_false]
  refine ⟨n, _, hn.symm ▸ hc, hn, hdir, hmode, hcr, (hcr.wf h hn).mono hl.next, ?_⟩
  intro k
  have hpos : decide (0 ≤ m.sys.newFd.1) = true := decide_eq_true hk
  rw [hsys, Sys.grants, hpos, Bool.true_and]
  show m.sys.newFd.2.takeId.grants k = _
  exact Sys.takeId_grants _ k

theorem createNodeInDir_refused {m : MemoryState} {d : NodeId} {x : FileName}
    (h : ¬ (m.fs.isDir d = true ∧ m.fs.entryAt d x = none ∧ m.sys.grants 1 = true))
    (kind : VfsEntryKind) (mode : Mode) :
    (createNodeInDir m d x kind mode).1 = none ∧
      (createNodeInDir m d x kind mode).2.fs = m.fs := by
  rw [grants_one_iff, ← createNodeInDir_isSome_iff m d x kind mode,
    Option.not_isSome_iff_eq_none] at h
  exact ⟨h, createNodeInDir_none (Prod.ext h rfl)⟩

theorem ensureDir_cases {m : MemoryState} (h : m.fs.WF m.sys.nextNodeId) {a : PathBuf}
    {c : NodeId} {x : FileName} (ha : m.fs.resolveNames a = some c)
    (hx : m.fs.resolveNames (a ++ [x]) = none) :
    (ensureDir m (a ++ [x])).fs.WF (ensureDir m (a ++ [x])).sys.nextNodeId ∧
      (¬ (m.fs.isDir c = true ∧ m.sys.grants 1 = true) ∧ (ensureDir m (a ++ [x])).fs = m.fs ∨
        (m.fs.isDir c = true ∧ m.sys.grants 1 = true) ∧
          (∀ k, (ensureDir m (a ++ [x])).sys.grants k = m.sys.grants (k + 1)) ∧
          ∃ id, (ensureDir m (a ++ [x])).fs.isDir id = true ∧
            (ensureDir m (a ++ [x])).fs.view =
              addPath m.fs.view (a ++ [x]) (id, true, 0o755)) := by
  have hent : m.fs.entryAt c x = none := by
    rwa [h.resolveNames_concat, ha] at hx
  have hm : ensureDir m (a ++ [x]) = (createNodeInDir m c x .dir 0o755).2 := by
    rw [ensureDir, if_pos hx, createNode_toAbs, ha]
  rw [hm]
  by_cases hyes : m.fs.isDir c = true ∧ m.sys.grants 1 = true
  · obtain ⟨n, m', hc, hid, hdir, hmode, hcr, hwf, hgrants⟩ :=
      createNodeInDir_granted h hyes.1 hent hyes.2 .dir 0o755
    rw [hc]
    refine ⟨hwf, Or.inr ⟨hyes, hgrants, n.id, ?_, ?_⟩⟩
    · rw [hcr.isDir_eq, if_pos rfl, hdir]
      rfl
    · rw [hcr.view h hid ha, hdir, hmode]
      rfl
  · have hfs := (createNodeInDir_refused
      (fun hh : _ ∧ m.fs.entryAt c x = none ∧ _ => hyes ⟨hh.1, hh.2.2⟩) .dir 0o755).2
    refine ⟨?_, Or.inl ⟨hyes, hfs⟩⟩
    rw [hfs]
    exact h.mono (createNodeInDir_later m c x .dir 0o755).next

/-- What the loop does from an existing path `a` down along `xs`: the paths become
directories as long as the kernel has descriptors, and no other path changes. -/
structure MadeBelow (m m' : MemoryState) (a : PathBuf) (c : NodeId) (xs : List FileName) :
    Prop where
  kept : ∀ r, ¬ (a <+: r ∧ r ≠ a ∧ r <+: a ++ xs) → m'.fs.view r = m.fs.view r
  made : ∀ s, s <+: xs → s ≠ [] → m.fs.isDir c = true ∧ m.sys.grants s.length = true →
    ∃ id, m'.fs.view (a ++ s) = some (id, true, 0o755)
  refused : ∀ s, s <+: xs → s ≠ [] → ¬ (m.fs.isDir c = true ∧ m.sys.grants s.length = true) →
    m'.fs.view (a ++ s) = none
  grants : m.fs.isDir c = true → m.sys.grants xs.length = true →
    ∀ n, m'.sys.grants n = m.sys.grants (xs.length + n)

theorem ensureDirs_below {m : MemoryState} (h : m.fs.WF m.sys.nextNodeId) {a : PathBuf}
    {c : NodeId} (ha : m.fs.resolveNames a = some c) (xs : List FileName)
    (hx : ∀ x ∈ xs.head?, m.fs.resolveNames (a ++ [x]) = none) :
    MadeBelow m ((extensions a xs).foldl ensureDir m) a c xs := by
  induction xs generalizing a c m with
  | nil =>
    refine ⟨fun r _ => rfl, ?_, ?_, ?_⟩
    · intro s hs hne
      exact absurd (List.prefix_nil.mp hs) hne
    · intro s hs hne
      exact absurd (List.prefix_nil.mp hs) hne
    · intro _ _ n
      rw [List.length_nil, Nat.zero_add]
      rfl
  | cons x xs ih =>
    have hx₁ : m.fs.resolveNames (a ++ [x]) = none := hx x rfl
    rw [extensions, List.foldl_cons]
    obtain ⟨hwf, ⟨hno, hfs⟩ | ⟨hyes, hg, id, hd, hview⟩⟩ := ensureDir_cases h ha hx₁
    · -- nothing was made, so nothing is made below
      rw [ensureDirs_of_missing hwf (hfs ▸ hx₁) xs]
      have hnone (n : Nat) : ¬ (m.fs.isDir c = true ∧ m.sys.grants (n + 1) = true) := by
        rintro ⟨hd, hg⟩
        rw [Sys.grants, Bool.and_eq_true] at hg
        refine hno ⟨hd, ?_⟩
        rw [Sys.grants, hg.1]
        rfl
      refine ⟨fun r _ => by rw [hfs], ?_, ?_, fun hd hg => absurd ⟨hd, hg⟩ (hnone _)⟩
      · intro s hs hne hh
        obtain ⟨y, s, rfl⟩ := List.exists_cons_of_ne_nil hne
        exact absurd hh (hnone _)
      · intro s hs hne _
        obtain ⟨y, s, rfl⟩ := List.exists_cons_of_ne_nil hne
        obtain ⟨rfl, -⟩ := List.cons_prefix_cons.mp hs
        rw [hfs, h.view_eq_none_iff]
        exact h.resolveNames_none_below ⟨s, by simp⟩ hx₁
    · have hv : (ensureDir m (a ++ [x])).fs.view (a ++ [x]) = some (id, true, 0o755) := by
        rw [hview, addPath, if_pos rfl]
      obtain ⟨hid, -⟩ := isDir_of_view hv
      have hnext : ∀ y ∈ xs.head?,
          (ensureDir m (a ++ [x])).fs.resolveNames (a ++ [x] ++ [y]) = none := by
        intro y _
        rw [← hwf.view_eq_none_iff, hview, addPath, if_neg (by simp), h.view_eq_none_iff]
        exact h.resolveNames_none_below (List.prefix_append _ _) hx₁
      have hrest := ih hwf hid hnext
      refine ⟨?_, ?_, ?_, ?_⟩
      · intro r hr
        rw [hrest.kept, hview, addPath, if_neg]
        · rintro rfl
          exact hr ⟨List.prefix_append _ _, by simp, ⟨xs, by simp⟩⟩
        · rintro ⟨h₁, h₂, h₃⟩
          refine hr ⟨(List.prefix_append _ _).trans h₁, ?_, by simpa using h₃⟩
          rintro rfl
          have hlen := h₁.length_le
          simp at hlen
      · intro s hs hne hh
        obtain ⟨y, s, rfl⟩ := List.exists_cons_of_ne_nil hne
        obtain ⟨rfl, hs'⟩ := List.cons_prefix_cons.mp hs
        rw [List.append_cons a y s]
        by_cases hnil : s = []
        · subst hnil
          rw [List.append_nil, hrest.kept _ fun hh => hh.2.1 rfl]
          exact ⟨id, hv⟩
        · exact hrest.made s hs' hnil ⟨hd, (hg _).trans hh.2⟩
      · intro s hs hne hh
        obtain ⟨y, s, rfl⟩ := List.exists_cons_of_ne_nil hne
        obtain ⟨rfl, hs'⟩ := List.cons_prefix_cons.mp hs
        rw [List.append_cons a y s]
        by_cases hnil : s = []
        · subst hnil
          exact absurd hyes hh
        · exact hrest.refused s hs' hnil fun hh' => hh ⟨hyes.1, (hg _).symm.trans hh'.2⟩
      · intro _ hgr n
        rw [hrest.grants hd ((hg _).trans hgr) n, hg]
        congr 1
        rw [List.length_cons]
        omega

/-- The same from the root: the directories of `q` that are missing are made, down to the
first for which the kernel has no descriptor. -/
structure MadeDown (m m' : MemoryState) (q : PathBuf) : Prop where
  kept : ∀ r, ¬ (r <+: q ∧ m.fs.resolveNames r = none) → m'.fs.view r = m.fs.view r
  made : ∀ r, r <+: q → m.fs.resolveNames r = none → CanMakeDirs m r →
    ∃ id, m'.fs.view r = some (id, true, 0o755)
  refused : ∀ r, r <+: q → m.fs.resolveNames r = none → ¬ CanMakeDirs m r →
    m'.fs.view r = none
  grants : CanMakeDirs m q → ∀ n, m'.sys.grants n = m.sys.grants (m.fs.missing q + n)

theorem ensureDirs_down {m : MemoryState} (h : m.fs.WF m.sys.nextNodeId) (q : PathBuf) :
    MadeDown m ((extensions [] q).foldl ensureDir m) q := by
  obtain ⟨a, xs, c, rfl, ha, hx⟩ := h.exists_deepest q
  have hbelow := ensureDirs_below h ha xs hx
  rw [extensions_append, List.foldl_append, List.nil_append, ensureDirs_of_exists (m := m)]
  swap
  · intro p hp
    obtain ⟨s, rfl, hs⟩ := mem_extensions hp
    intro hnone
    rw [h.resolveNames_none_below hs hnone] at ha
    cases ha
  -- the prefixes of the path that are missing are those below `a`
  have hexists (r : PathBuf) (hr : r <+: a) : m.fs.resolveNames r ≠ none := by
    intro hnone
    rw [h.resolveNames_none_below hr hnone] at ha
    cases ha
  have hmissing (s : List FileName) (hs : s <+: xs) (hne : s ≠ []) :
      m.fs.resolveNames (a ++ s) = none := by
    obtain ⟨y, s, rfl⟩ := List.exists_cons_of_ne_nil hne
    obtain ⟨t, rfl⟩ := hs
    exact h.resolveNames_none_below ⟨s, by simp⟩ (hx y rfl)
  have hcount (s : List FileName) (hs : s <+: xs) : m.fs.missing (a ++ s) = s.length := by
    have htail (l : List FileName) : l.inits.tail.length = l.length := by simp
    rw [missing, List.inits_append, List.countP_append, List.countP_map, ← htail s]
    have hzero : a.inits.countP (fun r => m.fs.resolveNames r = none) = 0 := by
      rw [List.countP_eq_zero]
      intro r hr
      simpa using hexists r ((List.mem_inits r a).mp hr)
    rw [hzero, Nat.zero_add, List.countP_eq_length]
    intro r hr
    have hr' : r <+: s := (List.mem_inits r s).mp (List.mem_of_mem_tail hr)
    have hne : r ≠ [] := by
      rintro rfl
      cases s <;> simp at hr
    simpa using hmissing r (hr'.trans hs) hne
  have hsplit (r : PathBuf) (hr : r <+: a ++ xs) :
      r <+: a ∨ ∃ s, r = a ++ s ∧ s <+: xs ∧ s ≠ [] := by
    rcases List.prefix_or_prefix_of_prefix hr (List.prefix_append a xs) with hra | hra
    · exact Or.inl hra
    · obtain ⟨s, rfl⟩ := hra
      by_cases hs : s = []
      · subst hs
        exact Or.inl (by simp)
      · exact Or.inr ⟨s, rfl, (List.prefix_append_right_inj a).mp hr, hs⟩
  have hcan (s : List FileName) (hs : s <+: xs) :
      CanMakeDirs m (a ++ s) ↔ m.fs.isDir c = true ∧ m.sys.grants s.length = true := by
    rw [CanMakeDirs, hcount s hs]
    refine and_congr_left fun _ => ⟨fun hh => hh a c (List.prefix_append a s) ha, ?_⟩
    intro hd r c' hr hc'
    rcases hsplit r (hr.trans ((List.prefix_append_right_inj a).mpr hs)) with
      ⟨t, rfl⟩ | ⟨s', rfl, hs', hne⟩
    · obtain ⟨d, hd', hdir⟩ := h.resolveNames_of_append ha
      cases hd'.symm.trans hc'
      by_cases ht : t = []
      · subst ht
        rw [List.append_nil, hc'] at ha
        cases ha
        exact hd
      · exact hdir ht
    · rw [hmissing s' hs' hne] at hc'
      cases hc'
  refine ⟨?_, ?_, ?_, ?_⟩
  · intro r hr
    refine hbelow.kept r ?_
    rintro ⟨⟨s, rfl⟩, hne, hs⟩
    refine hr ⟨hs, hmissing s ((List.prefix_append_right_inj a).mp hs) ?_⟩
    rintro rfl
    exact hne (List.append_nil a)
  · intro r hr hnone hc
    obtain ⟨s, rfl, hs, hne⟩ := (hsplit r hr).resolve_left fun hra => hexists r hra hnone
    exact hbelow.made s hs hne ((hcan s hs).mp hc)
  · intro r hr hnone hc
    obtain ⟨s, rfl, hs, hne⟩ := (hsplit r hr).resolve_left fun hra => hexists r hra hnone
    exact hbelow.refused s hs hne fun hh => hc ((hcan s hs).mpr hh)
  · intro hc n
    obtain ⟨hd, hg⟩ := (hcan xs List.prefix_rfl).mp hc
    rw [hbelow.grants hd hg n, hcount xs List.prefix_rfl]

end MemoryFS

variable {ι : Type} [DecidableEq ι]

namespace OverlayFS

/-- The parent of `p` is not in the top layer, but in one below. -/
def MakesParents (o : OverlayFS (MemoryRef ι)) (w : World ι) (p : PathBuf) : Prop :=
  (w.fs o.top.index).resolveNames p.dropLast = none ∧
    ∃ g ∈ o.lower, (w.fs g.index).resolveNames p.dropLast ≠ none

instance (o : OverlayFS (MemoryRef ι)) (w : World ι) (p : PathBuf) :
    Decidable (o.MakesParents w p) := inferInstanceAs (Decidable (_ ∧ _))

/-- A write to `p` makes the directory `r` in the top layer. -/
def MakesDir (o : OverlayFS (MemoryRef ι)) (w : World ι) (p r : PathBuf) : Prop :=
  o.MakesParents w p ∧ r <+: p.dropLast ∧ (w.fs o.top.index).resolveNames r = none ∧
    CanMakeDirs (w.state o.top) r

/-- A write to `p` has its parent in the top layer, as a directory. -/
def HasTopParent (o : OverlayFS (MemoryRef ι)) (w : World ι) (p : PathBuf) : Prop :=
  (∃ d, (w.fs o.top.index).resolveNames p.dropLast = some d ∧
      (w.fs o.top.index).isDir d = true) ∨ o.MakesDir w p p.dropLast

def parentCost (o : OverlayFS (MemoryRef ι)) (w : World ι) (p : PathBuf) : Nat :=
  if o.MakesParents w p then (w.fs o.top.index).missing p.dropLast else 0

variable {o : OverlayFS (MemoryRef ι)} {w : World ι} {p r : PathBuf}

theorem access_toAbs (f : MemoryRef ι) (w : World ι) (p : PathBuf) (mode : Int) :
    LowLevelFS.access f w p.toAbs mode = 0 ↔ (w.fs f.index).resolveNames p ≠ none := by
  have hd : LowLevelFS.access f w p.toAbs mode =
      if ((w.fs f.index).resolve p.toAbs).isSome then 0 else -1 := rfl
  rw [hd, resolve_toAbs, ← Option.isSome_iff_ne_none]
  split_ifs with h <;> simp [h]

theorem foldl_ensureTopDir (o : OverlayFS (MemoryRef ι)) (ps : List PathBuf) (w : World ι) :
    (ps.map PathBuf.toAbs).foldl o.ensureTopDir w =
      w.put o.top (ps.foldl ensureDir (w.state o.top)) := by
  induction ps generalizing w with
  | nil =>
    show w = w.put o.top ⟨w.fs o.top.index, w.sys⟩
    rw [World.put_self]
  | cons p ps ih =>
    have hround : o.ensureTopDir w p.toAbs = w.put o.top (ensureDir (w.state o.top) p) := by
      by_cases hp : (w.fs o.top.index).resolveNames p = none
      · have hacc : LowLevelFS.access o.top w p.toAbs F_OK ≠ 0 :=
          fun ha => (access_toAbs _ _ _ _).mp ha hp
        have hdir : ensureDir (w.state o.top) p =
            (createNode (w.state o.top) p.toAbs .dir 0o755).2 := if_pos hp
        rw [ensureTopDir, if_pos hacc, hdir]
        rfl
      · have hacc : ¬ LowLevelFS.access o.top w p.toAbs F_OK ≠ 0 :=
          not_not.mpr ((access_toAbs _ _ _ _).mpr hp)
        have hdir : ensureDir (w.state o.top) p = w.state o.top := if_neg hp
        rw [ensureTopDir, if_neg hacc, hdir]
        show w = w.put o.top ⟨w.fs o.top.index, w.sys⟩
        rw [World.put_self]
    have hstate : (w.put o.top (ensureDir (w.state o.top) p)).state o.top =
        ensureDir (w.state o.top) p := by
      rw [World.state, World.put_fs]
      rfl
    rw [List.map_cons, List.foldl_cons, List.foldl_cons, ih, hround, hstate, World.put_put]

theorem ensureTopParentDirs_eq (hw : w.WF) (o : OverlayFS (MemoryRef ι)) (p : PathBuf) :
    o.ensureTopParentDirs w p.toAbs =
      if o.MakesParents w p then
        w.put o.top ((extensions [] p.dropLast).foldl ensureDir (w.state o.top))
      else w := by
  unfold ensureTopParentDirs
  rw [PathBuf.parent_toAbs]
  by_cases hp : p = []
  · subst hp
    have hno : ¬ o.MakesParents w [] := by
      rintro ⟨hnone, -⟩
      have hroot := (hw.fs o.top.index).resolveNames_nil
      exact absurd (hroot.symm.trans hnone) (by simp)
    rw [if_pos rfl, if_neg hno]
  · rw [if_neg hp]
    dsimp only
    have hbelow : o.pathExistsBelowTop w (PathBuf.toAbs p.dropLast) = true ↔
        ∃ g ∈ o.lower, (w.fs g.index).resolveNames p.dropLast ≠ none := by
      unfold pathExistsBelowTop lower
      cases o.middle with
      | none => simp [access_toAbs]
      | some m => simp [access_toAbs]
    have hcond : (decide (LowLevelFS.access o.top w (PathBuf.toAbs p.dropLast) F_OK = 0) ||
        !o.pathExistsBelowTop w (PathBuf.toAbs p.dropLast)) = true ↔ ¬ o.MakesParents w p := by
      rw [Bool.or_eq_true, decide_eq_true_iff, access_toAbs, Bool.not_eq_true',
        ← Bool.not_eq_true, hbelow, MakesParents, not_and_or]
    by_cases hm : o.MakesParents w p
    · rw [if_neg fun hh => hcond.mp hh hm, if_pos hm, ← foldl_ensureTopDir,
        PathBuf.ancestors_toAbs, ← List.map_reverse, List.reverse_reverse]
      have hpaths : (p.dropLast.inits.map PathBuf.toAbs).filter (!·.isRoot) =
          (extensions [] p.dropLast).map PathBuf.toAbs := by
        rw [List.filter_map, extensions_eq_inits, ← filter_inits_ne_nil]
        simp [Function.comp_def]
      rw [hpaths]
    · rw [if_pos (hcond.mpr hm), if_neg hm]

/-- The top layer after the loop. -/
theorem ensured_down (hw : w.WF) (hm : o.MakesParents w p) :
    MadeDown (w.state o.top) ((o.ensureTopParentDirs w p.toAbs).state o.top) p.dropLast := by
  have hstate : (o.ensureTopParentDirs w p.toAbs).state o.top =
      (extensions [] p.dropLast).foldl ensureDir (w.state o.top) := by
    rw [ensureTopParentDirs_eq hw, if_pos hm, World.state, World.put_fs]
    rfl
  rw [hstate]
  exact ensureDirs_down (m := w.state o.top) (hw.fs o.top.index) p.dropLast

theorem ensured_view_eq (hw : w.WF) (h : ¬ o.MakesDir w p r) :
    ((o.ensureTopParentDirs w p.toAbs).fs o.top.index).view r = (w.fs o.top.index).view r := by
  by_cases hm : o.MakesParents w p
  · have hdown := ensured_down hw hm
    by_cases hr : r <+: p.dropLast ∧ (w.fs o.top.index).resolveNames r = none
    · have hnone := hdown.refused r hr.1 hr.2 fun hc => h ⟨hm, hr.1, hr.2, hc⟩
      exact hnone.trans ((hw.fs _).view_eq_none_iff.mpr hr.2).symm
    · exact hdown.kept r hr
  · rw [ensureTopParentDirs_eq hw, if_neg hm]

theorem ensured_view_made (hw : w.WF) (h : o.MakesDir w p r) :
    ∃ id, ((o.ensureTopParentDirs w p.toAbs).fs o.top.index).view r = some (id, true, 0o755) :=
  (ensured_down hw h.1).made r h.2.1 h.2.2.1 h.2.2.2

theorem ensured_view_of_exists (hw : w.WF) (h : (w.fs o.top.index).resolveNames r ≠ none) :
    ((o.ensureTopParentDirs w p.toAbs).fs o.top.index).view r = (w.fs o.top.index).view r :=
  ensured_view_eq hw fun hm => h hm.2.2.1

omit [DecidableEq ι] in
theorem not_makesDir_self (hp : p ≠ []) (w : World ι) : ¬ o.MakesDir w p p := by
  rintro ⟨-, hpre, -⟩
  have hlen := hpre.length_le
  have hpos := List.length_pos_iff.mpr hp
  rw [List.length_dropLast] at hlen
  omega

theorem ensured_hasParent_iff (hw : w.WF) :
    (∃ d, ((o.ensureTopParentDirs w p.toAbs).fs o.top.index).resolveNames p.dropLast = some d ∧
        ((o.ensureTopParentDirs w p.toAbs).fs o.top.index).isDir d = true) ↔
      o.HasTopParent w p := by
  have hwf := (World.ensureTopParentDirs_grows hw o p.toAbs).wf hw
  by_cases hm : o.MakesDir w p p.dropLast
  · refine iff_of_true ?_ (Or.inr hm)
    obtain ⟨id, hv⟩ := ensured_view_made hw hm
    exact ⟨id, isDir_of_view hv⟩
  · have hv := ensured_view_eq hw hm
    have hview (fs : MemoryFS) (next : NodeId) (hfs : fs.WF next) :
        (∃ d, fs.resolveNames p.dropLast = some d ∧ fs.isDir d = true) ↔
          ∃ d mode, fs.view p.dropLast = some (d, true, mode) := by
      constructor
      · rintro ⟨d, hd, hdir⟩
        obtain ⟨i, hi⟩ := Option.isSome_iff_exists.mp (hfs.mem_heap d (hfs.resolveNames_mem hd))
        have hdi : i.isDir = true := by
          rw [isDir_eq_inode, hi] at hdir
          exact hdir
        exact ⟨d, i.mode, by simp [MemoryFS.view, hd, hi, hdi]⟩
      · rintro ⟨d, mode, hd⟩
        exact ⟨d, isDir_of_view hd⟩
    rw [hview _ _ (hwf.fs _), hv, ← hview _ _ (hw.fs _), HasTopParent]
    exact (or_iff_left hm).symm

theorem ensured_grants (hw : w.WF)
    (h : o.MakesParents w p → CanMakeDirs (w.state o.top) p.dropLast) (n : Nat) :
    (o.ensureTopParentDirs w p.toAbs).sys.grants n = w.sys.grants (o.parentCost w p + n) := by
  by_cases hm : o.MakesParents w p
  · have hg := (ensured_down hw hm).grants (h hm) n
    rw [parentCost, if_pos hm]
    exact hg
  · rw [ensureTopParentDirs_eq hw, if_neg hm, parentCost, if_neg hm, Nat.zero_add]

end OverlayFS

end SandboxVfs
