import SandboxVfs.MaterializedDirs
import SandboxVfs.PathDispatch
import SandboxVfs.RecordLengths

/-! What a removal through the hooks does to the host, and to a temporary directory that was
made there past them. -/

namespace SandboxVfs

variable {ι : Type}

/-- What `required_dir_from_env` and `static VFS` make sure of, and the C library. -/
structure HooksVfs.Configured (b : HooksBackend ι) (v : HooksVfs ι) : Prop where
  root : v.root = b.fs
  mounts : ∀ p fs, v.mounts p = some fs → ∃ f, fs = .inl (.memory f)
  libc : v.world.libc.ActsOnTree
  dirs : ∀ upper lower, b = .overlay upper lower →
    (0 ∉ upper.root ∧ v.world.host.Roots upper.root) ∧ 0 ∉ lower.root ∧ v.world.host.Roots lower.root

/-- A mount point lies at the path or above it. -/
def HooksVfs.Mounted (v : HooksVfs ι) (path : HostPath) : Prop :=
  (v.absolutePathToFs (v.resolvePath (.fromCStr (pathToCstring path)))).1 ≠ none

structure TempPath (p : PathBuf) : Prop where
  ne_nil : p ≠ []
  nul : ∀ x ∈ p, 0 ∉ x.bytes
  apart : ∀ (u : PathBuf) x, u ≠ [] → u ++ p ≠ p ++ [x]

theorem TempPath.nul_concat {p : PathBuf} (hp : TempPath p) {x : FileName} (hx : 0 ∉ x.bytes) :
    ∀ y ∈ p ++ [x], 0 ∉ y.bytes := by
  intro y hy
  rcases List.mem_append.mp hy with hy | hy
  · exact hp.nul y hy
  · rw [List.mem_singleton.mp hy]
    exact hx

namespace HooksVfs

variable [DecidableEq ι] {b : HooksBackend ι} {v : HooksVfs ι} {w : HostWorld ι HostFs}
  {p q : PathBuf} {kind : VfsEntryKind}

def removeIn (kind : VfsEntryKind) (fs : HooksFS ι) (w : HostWorld ι HostFs) (path : AbsPath) :
    HostWorld ι HostFs :=
  match kind with
  | .dir => (LowLevelFS.rmdir fs w path).2
  | .file => (LowLevelFS.unlink fs w path).2

def libcRemove (kind : VfsEntryKind) (v : HooksVfs ι) (path : List UInt8) : HooksVfs ι :=
  match kind with
  | .dir => v.libcRmdir path
  | .file => v.libcUnlink path

theorem cleanupEntry_eq (path : HostPath) (v : HooksVfs ι) (e : VfsDirEntry) :
    cleanupEntry path v e = libcRemove e.kind v (pathToCstring (joinHost path e.name)) := by
  cases he : e.kind <;> simp [cleanupEntry, libcRemove, he]

omit [DecidableEq ι] in
theorem resolvePath_hostPath (v : HooksVfs ι) (hq : ∀ x ∈ q, 0 ∉ x.bytes) :
    v.resolvePath (.fromCStr (pathToCstring (hostPath [47] q))) = q := by
  rw [pathToCstring, fromCStr_hostPath hq, RootVFS.resolvePath, normalizeAbsolute_toAbs]

omit [DecidableEq ι] in
theorem mounted_hostPath (v : HooksVfs ι) (hq : ∀ x ∈ q, 0 ∉ x.bytes) :
    v.Mounted (hostPath [47] q) ↔ (v.absolutePathToFs q).1 ≠ none := by
  rw [Mounted, resolvePath_hostPath v hq]

theorem libcRemove_hostPath (kind : VfsEntryKind) (v : HooksVfs ι) (hq : ∀ x ∈ q, 0 ∉ x.bytes) :
    libcRemove kind v (pathToCstring (hostPath [47] q)) =
      v.setWorld (removeIn kind (v.fsAt (v.absolutePathToFs q).1) v.world
        (v.absolutePathToFs q).2.toAbs) := by
  have hres := resolvePath_hostPath v hq
  cases kind with
  | dir =>
    rw [libcRemove, libcRmdir, RootVFS.rmdir, hres]
    rfl
  | file =>
    rw [libcRemove, libcUnlink, RootVFS.unlink, hres]
    rfl

theorem removeIn_memory (kind : VfsEntryKind) (f : MemoryRef ι) (w : HostWorld ι HostFs)
    (path : AbsPath) : ∃ m, removeIn kind (.inl (.memory f)) w path = w.setMemory m := by
  cases kind with
  | dir => exact ⟨_, rfl⟩
  | file => exact ⟨_, rfl⟩

/-- The root of the bind that a call for `q` goes to. -/
def actingRoot (upper lower : BindFS) (h : HostFs) (q : PathBuf) : HostPath :=
  if h.access (hostPath upper.root q) F_OK = 0 then upper.root else lower.root

theorem removeIn_bind (hl : w.libc.ActsOnTree) {c : BindFS} (hc : 0 ∉ c.root)
    (hq : ∀ x ∈ q, 0 ∉ x.bytes) (kind : VfsEntryKind) :
    removeIn kind (.inl (.bind c)) w q.toAbs =
      w.setHost (w.host.remove kind (hostPath c.root q)).2 := by
  have hpath := BindFS.cString_translateCPath hc hq
  cases kind with
  | dir =>
    show w.setHost (w.libc.rmdir w.host (cString (c.translateCPath q.toAbs))).2 = _
    rw [hpath, hl.rmdir]
    rfl
  | file =>
    show w.setHost (w.libc.unlink w.host (cString (c.translateCPath q.toAbs))).2 = _
    rw [hpath, hl.unlink]
    rfl

theorem removeIn_overlay (hl : w.libc.ActsOnTree) {upper lower : BindFS} (hu : 0 ∉ upper.root)
    (hlow : 0 ∉ lower.root) (hq : ∀ x ∈ q, 0 ∉ x.bytes) (kind : VfsEntryKind) :
    removeIn kind (.inr ⟨.bind upper, none, .bind lower⟩) w q.toAbs =
      w.setHost (w.host.remove kind (hostPath (actingRoot upper lower w.host q) q)).2 := by
  let o : OverlayFS (PlainFS ι HostFs) := ⟨.bind upper, none, .bind lower⟩
  have haccess : LowLevelFS.access o.top w q.toAbs F_OK =
      w.host.access (hostPath upper.root q) F_OK := by
    show w.libc.access w.host (cString (upper.translateCPath q.toAbs)) F_OK = _
    rw [BindFS.cString_translateCPath hu hq, hl.access]
  have hlayer : o.actingLayer w q.toAbs =
      if w.host.access (hostPath upper.root q) F_OK = 0 then .bind upper else .bind lower := by
    rw [OverlayFS.actingLayer, OverlayFS.visibleLayer, haccess]
    split_ifs <;> rfl
  have hstep : removeIn kind (.inr o) w q.toAbs =
      removeIn kind (.inl (o.actingLayer w q.toAbs)) w q.toAbs := by
    cases kind <;> rfl
  rw [hstep, hlayer, actingRoot]
  split_ifs
  · exact removeIn_bind hl hu hq kind
  · exact removeIn_bind hl hlow hq kind

theorem libcRemove_memory (hv : v.Configured b) (hq : ∀ x ∈ q, 0 ∉ x.bytes)
    (hm : (v.absolutePathToFs q).1 ≠ none ∨ ∃ f, b = .memory f) (kind : VfsEntryKind)
    (w : HostWorld ι HostFs) :
    ∃ m, libcRemove kind (v.setWorld w) (pathToCstring (hostPath [47] q)) =
      v.setWorld (w.setMemory m) := by
  have hfs : ∃ f, v.fsAt (v.absolutePathToFs q).1 = .inl (.memory f) := by
    cases hk : (v.absolutePathToFs q).1 with
    | none =>
      obtain ⟨f, rfl⟩ := hm.resolve_left fun hne => hne hk
      exact ⟨f, hv.root⟩
    | some m =>
      have hmount := ((RootVFS.absolutePathToFs_longest (v := v) q).mount m hk).2.2.1
      rw [hk] at hmount
      exact hv.mounts m _ hmount
  obtain ⟨f, hf⟩ := hfs
  obtain ⟨m, hremove⟩ := removeIn_memory kind f w (v.absolutePathToFs q).2.toAbs
  refine ⟨m, ?_⟩
  rw [libcRemove_hostPath kind _ hq, ← hremove, ← hf]
  rfl

variable {upper lower : BindFS}

theorem libcRemove_overlay (hv : v.Configured (.overlay upper lower)) (hl : w.libc = v.world.libc)
    (hq : ∀ x ∈ q, 0 ∉ x.bytes) (hm : (v.absolutePathToFs q).1 = none) (kind : VfsEntryKind) :
    libcRemove kind (v.setWorld w) (pathToCstring (hostPath [47] q)) =
      v.setWorld (w.setHost (w.host.remove kind (hostPath (actingRoot upper lower w.host q) q)).2) := by
  obtain ⟨⟨hu, -⟩, hlow, -⟩ := hv.dirs upper lower rfl
  have hpath : (v.absolutePathToFs q).2 = q := by
    have hwhole := v.absolutePathToFs_path q
    rwa [hm] at hwhole
  have hfs : v.fsAt (v.absolutePathToFs q).1 = .inr ⟨.bind upper, none, .bind lower⟩ := by
    rw [hm]
    exact hv.root
  rw [libcRemove_hostPath kind _ hq]
  show v.setWorld (removeIn kind (v.fsAt (v.absolutePathToFs q).1) w
    (v.absolutePathToFs q).2.toAbs) = _
  rw [hfs, hpath, removeIn_overlay (hl ▸ hv.libc) hu hlow hq]

/-- On the host a call takes away one place that ends in its path, or none. -/
theorem libcRemove_cases (hv : v.Configured b) (hl : w.libc = v.world.libc) (hne : q ≠ [])
    (hq : ∀ x ∈ q, 0 ∉ x.bytes) (kind : VfsEntryKind) :
    ∃ w', libcRemove kind (v.setWorld w) (pathToCstring (hostPath [47] q)) = v.setWorld w' ∧
      w'.libc = v.world.libc ∧
      (w'.host = w.host ∨ (v.absolutePathToFs q).1 = none ∧
        ∃ u : PathBuf, w.host.removeAt kind (u ++ q) = some w'.host) := by
  by_cases hm : (v.absolutePathToFs q).1 ≠ none ∨ ∃ f, b = .memory f
  · obtain ⟨m, he⟩ := libcRemove_memory hv hq hm kind w
    exact ⟨w.setMemory m, he, hl, Or.inl rfl⟩
  · obtain ⟨hnone, hb⟩ := not_or.mp hm
    cases b with
    | memory f => exact absurd ⟨f, rfl⟩ hb
    | overlay upper lower =>
      have he := libcRemove_overlay hv hl hq (not_not.mp hnone) kind
      refine ⟨_, he, hl, ?_⟩
      rcases w.host.remove_cases kind (actingRoot upper lower w.host q) hne with hsame | hat
      · exact Or.inl hsame
      · exact Or.inr ⟨not_not.mp hnone, _, hat⟩

theorem libcRemove_keeps (hv : v.Configured b) (hl : w.libc = v.world.libc) (hne : q ≠ [])
    (hq : ∀ x ∈ q, 0 ∉ x.bytes) (kind : VfsEntryKind) {r : PathBuf}
    (hkeep : (v.absolutePathToFs q).1 = none → ∀ u : PathBuf, r ≠ u ++ q)
    (hn : w.host.node r ≠ none) :
    ∃ w', libcRemove kind (v.setWorld w) (pathToCstring (hostPath [47] q)) = v.setWorld w' ∧
      w'.libc = v.world.libc ∧ w'.host.node r ≠ none := by
  obtain ⟨w', he, hl', hhost⟩ := libcRemove_cases hv hl hne hq kind
  refine ⟨w', he, hl', ?_⟩
  rcases hhost with hsame | ⟨hfree, u, hat⟩
  · rwa [hsame]
  · rw [(HostFs.removeAt_eq_some hat).2.2, if_neg (hkeep hfree u)]
    exact hn

structure Listing (entries : List VfsDirEntry) : Prop where
  names : ∀ e ∈ entries, e.name = dotName ∨ e.name = dotDotName ∨
    ∃ x : FileName, e.name = x.bytes ∧ 0 ∉ x.bytes
  distinct : (entries.map (·.name)).Nodup

def Named (e : VfsDirEntry) : Prop := ∃ x : FileName, e.name = x.bytes ∧ 0 ∉ x.bytes

theorem readDir_listing (hv : v.Configured b) (hw : v.world.memory.WF)
    (hnul : v.world.memory.NamesIn fun x => 0 ∉ x.bytes) {path : Path} {entries : List VfsDirEntry}
    (hread : v.readDir path = some entries) : Listing entries := by
  have hmem (f : MemoryRef ι) (p : AbsPath)
      (hf : LowLevelFS.readDir f v.world.memory p = some entries) : Listing entries := by
    have hwf := hw.fs f.index
    obtain ⟨d, -, hl⟩ := Option.bind_eq_some_iff.mp hf
    have hnames : entries.map (·.name) = ((v.world.memory.fs f.index).namesIn d).map (·.bytes) := by
      cases hd : (v.world.memory.fs f.index).isDir d with
      | true =>
        obtain ⟨l, hl', hn⟩ := hwf.readNodeDir_names hd
        cases hl.symm.trans hl'
        exact hn
      | false => cases (hwf.readNodeDir_file hd).symm.trans hl
    constructor
    · intro e he
      obtain ⟨x, c, hx, hc⟩ := hwf.mem_readNodeDir hl he
      exact Or.inr (Or.inr ⟨x, hx, hnul f.index d x c hc⟩)
    · rw [hnames]
      exact ((v.world.memory.fs f.index).namesIn_nodup d).map fun _ _ h => FileName.ext h
  cases hk : (v.absolutePathToFs (v.resolvePath path)).1 with
  | none =>
    have hread' : LowLevelFS.readDir b.fs v.world (v.absolutePathToFs (v.resolvePath path)).2.toAbs =
        some entries := by
      rw [← hread, RootVFS.readDir, hk, ← hv.root]
      rfl
    cases b with
    | memory f => exact hmem f _ hread'
    | overlay upper lower => cases hread'
  | some m =>
    have hmount := ((RootVFS.absolutePathToFs_longest (v := v) (v.resolvePath path)).mount m hk).2.2.1
    obtain ⟨f, hf⟩ := hv.mounts m _ hmount
    rw [RootVFS.readDir, hf] at hread
    exact hmem f _ hread

theorem cleanupEntry_hostPath (hp : p ≠ []) {e : VfsDirEntry} {x : FileName}
    (he : e.name = x.bytes) (v : HooksVfs ι) :
    cleanupEntry (hostPath [47] p) v e =
      libcRemove e.kind v (pathToCstring (hostPath [47] (p ++ [x]))) := by
  rw [cleanupEntry_eq, he, joinHost_hostPath hp]

theorem cleanupEntries_keeps (hv : v.Configured b) (hp : TempPath p) {r : PathBuf}
    {entries : List VfsDirEntry} (hnames : ∀ e ∈ entries, Named e)
    (hkeep : ∀ e ∈ entries, ∀ x : FileName, e.name = x.bytes →
      (v.absolutePathToFs (p ++ [x])).1 = none → ∀ u : PathBuf, r ≠ u ++ (p ++ [x]))
    (hl : w.libc = v.world.libc) (hn : w.host.node r ≠ none) :
    ∃ w', entries.foldl (cleanupEntry (hostPath [47] p)) (v.setWorld w) = v.setWorld w' ∧
      w'.libc = v.world.libc ∧ w'.host.node r ≠ none := by
  induction entries generalizing w with
  | nil => exact ⟨w, rfl, hl, hn⟩
  | cons e entries ih =>
    obtain ⟨y, hy, hnul⟩ := hnames e List.mem_cons_self
    have hne : p ++ [y] ≠ [] := by simp
    obtain ⟨w', he, hl', hn'⟩ := libcRemove_keeps hv hl hne (hp.nul_concat hnul) e.kind
      (hkeep e List.mem_cons_self y hy) hn
    rw [List.foldl_cons, cleanupEntry_hostPath hp.ne_nil hy, he]
    exact ih (fun e' he' => hnames e' (List.mem_cons_of_mem e he'))
      (fun e' he' => hkeep e' (List.mem_cons_of_mem e he')) hl' hn'

theorem cleanupEntries_top (hv : v.Configured b) (hp : TempPath p) {entries : List VfsDirEntry}
    (hnames : ∀ e ∈ entries, Named e) (hl : w.libc = v.world.libc) (hn : w.host.node p ≠ none) :
    ∃ w', entries.foldl (cleanupEntry (hostPath [47] p)) (v.setWorld w) = v.setWorld w' ∧
      w'.libc = v.world.libc ∧ w'.host.node p ≠ none := by
  apply cleanupEntries_keeps hv hp hnames _ hl hn
  intro e _ x _ _ u hplace
  have hlen := congrArg List.length hplace
  simp at hlen
  omega

/-- What is left in the directory keeps it. -/
theorem cleanup_child (hv : v.Configured b) (hp : TempPath p) {x : FileName}
    {entries : List VfsDirEntry} (hnames : ∀ e ∈ entries, Named e)
    (hkeep : ∀ e ∈ entries, e.name = x.bytes → v.Mounted (hostPath [47] (p ++ [x])))
    (hl : w.libc = v.world.libc) (hn : w.host.node (p ++ [x]) ≠ none) :
    ((cleanupMaterializedDir (v.setWorld w) ⟨hostPath [47] p, entries⟩).world.host.node p) ≠ none := by
  have hplace : ∀ e ∈ entries.reverse, ∀ y : FileName, e.name = y.bytes →
      (v.absolutePathToFs (p ++ [y])).1 = none → ∀ u : PathBuf, p ++ [x] ≠ u ++ (p ++ [y]) := by
    intro e he y hy hfree u hplace
    -- the same length leaves no room for a root in front
    have hlen := congrArg List.length hplace
    have hu : u = [] := by simpa using hlen
    subst hu
    have hxy : x = y := by simpa using hplace
    subst hxy
    obtain ⟨z, hz, hnul⟩ := hnames e (List.mem_reverse.mp he)
    have hxz : x = z := FileName.ext (hy.symm.trans hz)
    subst hxz
    have hm := hkeep e (List.mem_reverse.mp he) hy
    exact (mounted_hostPath v (hp.nul_concat hnul)).mp hm hfree
  obtain ⟨w₁, he, hl₁, hn₁⟩ := cleanupEntries_keeps hv hp
    (fun e he => hnames e (List.mem_reverse.mp he)) hplace hl hn
  have htop : (v.absolutePathToFs p).1 = none → ∀ u : PathBuf, p ++ [x] ≠ u ++ p := by
    intro _ u htop
    rcases eq_or_ne u [] with rfl | hu
    · simp at htop
    · exact hp.apart u x hu htop.symm
  obtain ⟨w₂, hlast, -, hn₂⟩ := libcRemove_keeps hv hl₁ hp.ne_nil hp.nul .dir htop hn₁
  have hclean : cleanupMaterializedDir (v.setWorld w) ⟨hostPath [47] p, entries⟩ = v.setWorld w₂ := by
    rw [cleanupMaterializedDir, he]
    exact hlast
  have hdir := w₂.host.isDir_parent (p := p ++ [x]) (by simp) hn₂
  rw [List.dropLast_concat, HostFs.isDir_iff] at hdir
  rw [hclean]
  show w₂.host.node p ≠ none
  simp [hdir]

theorem cleanup_memory (hv : v.Configured b) (hp : TempPath p)
    (hm : (v.absolutePathToFs p).1 ≠ none ∨ ∃ f, b = .memory f) {entries : List VfsDirEntry}
    (hnames : ∀ e ∈ entries, Named e) (hl : w.libc = v.world.libc) (hn : w.host.node p ≠ none) :
    (cleanupMaterializedDir (v.setWorld w) ⟨hostPath [47] p, entries⟩).world.host.node p ≠ none := by
  have hrev : ∀ e ∈ entries.reverse, Named e := fun e he => hnames e (List.mem_reverse.mp he)
  obtain ⟨w₁, he, -, hn₁⟩ := cleanupEntries_top hv hp hrev hl hn
  obtain ⟨m, hlast⟩ := libcRemove_memory hv hp.nul hm .dir w₁
  have hclean : cleanupMaterializedDir (v.setWorld w) ⟨hostPath [47] p, entries⟩ =
      v.setWorld (w₁.setMemory m) := by
    rw [cleanupMaterializedDir, he]
    exact hlast
  rw [hclean]
  exact hn₁

/-- The calls go to a bind of the host's root: the upper one, or the lower one where the
upper one has nothing. -/
def ToHostRoot (upper lower : BindFS) (h : HostFs) (p : PathBuf) : Prop :=
  h.rootPlace upper.root = [] ∨
    h.rootPlace lower.root = [] ∧ h.access (hostPath upper.root p) F_OK ≠ 0

variable {h₀ h : HostFs} {made : FileName → Option VfsEntryKind}

theorem access_eq_zero_iff {root : HostPath} (hr : h.Roots root) (hq : q ≠ []) :
    h.access (hostPath root q) F_OK = 0 ↔ h.node (h.rootPlace root ++ q) ≠ none := by
  rw [HostFs.access_eq_zero_iff, hr.find hq]

theorem node_elsewhere (hh : h₀.Holds h p made) (hp : TempPath p) {u : PathBuf} (hu : u ≠ [])
    (hq : q = p ∨ ∃ x, q = p ++ [x]) : h.node (u ++ q) = h₀.node (u ++ q) := by
  apply hh.other
  · intro he
    have hlen := congrArg List.length he
    rcases hq with rfl | ⟨x, rfl⟩
    · exact hu (by simpa using he)
    · have hpos := List.length_pos_iff.mpr hu
      simp at hlen
      omega
  · intro y he
    rcases hq with rfl | ⟨x, rfl⟩
    · exact hp.apart u y hu he
    · have hlen := congrArg List.length he
      exact hu (by simpa using hlen)

theorem actingRoot_of_toHostRoot (hfree : h₀.node p = none) (hh : h₀.Holds h p made)
    (hp : TempPath p) (hu : h₀.Roots upper.root) (hreach : ToHostRoot upper lower h₀ p)
    (hq : q = p ∨ ∃ x, q = p ++ [x]) (hn : h.node q ≠ none) :
    h.rootPlace (actingRoot upper lower h q) = [] := by
  have hne : q ≠ [] := by
    rcases hq with rfl | ⟨x, rfl⟩
    · exact hp.ne_nil
    · simp
  by_cases hroot : h₀.rootPlace upper.root = []
  · have hup : h.rootPlace upper.root = [] := (hh.rootPlace upper.root).trans hroot
    have hzero : h.access (hostPath upper.root q) F_OK = 0 := by
      rw [access_eq_zero_iff (hh.roots hfree hu) hne, hup]
      exact hn
    rw [actingRoot, if_pos hzero, hup]
  · obtain ⟨hlow, hno⟩ := hreach.resolve_left hroot
    rw [Ne, access_eq_zero_iff hu hp.ne_nil, not_not] at hno
    have hnone : h₀.node (h₀.rootPlace upper.root ++ q) = none := by
      rcases hq with rfl | ⟨x, rfl⟩
      · exact hno
      · rw [← List.append_assoc]
        exact HostFs.node_below hno x
    have hmiss : ¬ h.access (hostPath upper.root q) F_OK = 0 := by
      rw [access_eq_zero_iff (hh.roots hfree hu) hne, hh.rootPlace,
        node_elsewhere hh hp hroot hq, hnone]
      simp
    rw [actingRoot, if_neg hmiss, hh.rootPlace, hlow]

theorem toHostRoot_of_actingRoot (hfree : h₀.node p = none) (hh : h₀.Holds h p made)
    (hp : TempPath p) (hu : h₀.Roots upper.root)
    (hroot : h.rootPlace (actingRoot upper lower h p) = []) : ToHostRoot upper lower h₀ p := by
  by_cases hup : h₀.rootPlace upper.root = []
  · exact Or.inl hup
  · have hzero := access_eq_zero_iff (hh.roots hfree hu) hp.ne_nil
    rw [hh.rootPlace, node_elsewhere hh hp hup (Or.inl rfl), ← hh.rootPlace] at hzero
    rw [actingRoot] at hroot
    split_ifs at hroot with hacc
    · exact absurd ((hh.rootPlace upper.root).symm.trans hroot) hup
    · refine Or.inr ⟨(hh.rootPlace lower.root).symm.trans hroot, ?_⟩
      rw [Ne, access_eq_zero_iff hu hp.ne_nil, ← hh.rootPlace, ← hzero]
      exact hacc

theorem actingRoot_roots (hfree : h₀.node p = none) (hh : h₀.Holds h p made)
    (hu : h₀.Roots upper.root) (hlow : h₀.Roots lower.root) (q : PathBuf) :
    h.Roots (actingRoot upper lower h q) := by
  rw [actingRoot]
  split_ifs
  · exact hh.roots hfree hu
  · exact hh.roots hfree hlow

def madeOf (entries : List VfsDirEntry) (x : FileName) : Option VfsEntryKind :=
  (entries.find? (·.name = x.bytes)).map (·.kind)

theorem madeOf_concat {entries : List VfsDirEntry} {e : VfsDirEntry} {x : FileName}
    (he : e.name = x.bytes) (hnew : ∀ c ∈ entries, c.name ≠ e.name) :
    madeOf entries x = none ∧
      madeOf (entries ++ [e]) = Function.update (madeOf entries) x (some e.kind) := by
  have hnone : entries.find? (·.name = x.bytes) = none := by
    rw [List.find?_eq_none]
    intro c hc
    simpa [← he] using hnew c hc
  constructor
  · rw [madeOf, hnone]
    rfl
  · funext y
    by_cases hy : y = x
    · subst hy
      simp [madeOf, hnone, he]
    · have hne : ¬ e.name = y.bytes := fun h => hy (FileName.ext (h.symm.trans he))
      simp [madeOf, hy, hne, List.find?_append]

theorem madeOf_ne_none {entries : List VfsDirEntry} {e : VfsDirEntry} {x : FileName}
    (hmem : e ∈ entries) (he : e.name = x.bytes) : madeOf entries x ≠ none := by
  intro hnone
  have hfind := List.find?_eq_none.mp (Option.map_eq_none_iff.mp hnone) e hmem
  simp [he] at hfind

theorem update_madeOf {entries : List VfsDirEntry} {e : VfsDirEntry} {x : FileName}
    (he : e.name = x.bytes) (hnew : ∀ c ∈ entries, c.name ≠ e.name) :
    Function.update (madeOf (entries ++ [e])) x none = madeOf entries := by
  obtain ⟨hnone, hmade⟩ := madeOf_concat he hnew
  rw [hmade, Function.update_idem, ← hnone, Function.update_eq_self]

omit [DecidableEq ι] in
theorem remove_entry (hv : v.Configured (.overlay upper lower)) (hfree : v.world.host.node p = none)
    (hh : v.world.host.Holds h p made) {x : FileName} (hk : made x = some kind) :
    let root := actingRoot upper lower h (p ++ [x])
    let h' := (h.remove kind (hostPath root (p ++ [x]))).2
    (h.rootPlace root = [] → v.world.host.Holds h' p (Function.update made x none)) ∧
      (h.rootPlace root ≠ [] → h'.node (p ++ [x]) ≠ none) := by
  intro root h'
  obtain ⟨⟨-, hu⟩, -, hlow⟩ := hv.dirs upper lower rfl
  have hroots : h.Roots root := actingRoot_roots hfree hh hu hlow (p ++ [x])
  have hnode : (h.node (p ++ [x])).map HostNode.kind = some kind := (hh.below x).trans hk
  constructor
  · intro hnil
    have hat : h.removeAt kind (h.rootPlace root ++ (p ++ [x])) = some h' := by
      apply hroots.remove_eq (by simp)
      · rwa [hnil]
      · rw [hnil]
        exact hh.noEntries_child hfree x
    rw [hnil, List.nil_append] at hat
    obtain ⟨hc, hr, hn⟩ := HostFs.removeAt_eq_some hat
    exact hh.update (n := none) hn hc hr
  · intro hne hnone
    rcases h.remove_cases kind root (q := p ++ [x]) (by simp) with hsame | hat
    · have hsame' : h' = h := hsame
      rw [hsame'] at hnone
      simp [hnone] at hnode
    · rw [(HostFs.removeAt_eq_some hat).2.2, if_neg] at hnone
      · simp [hnone] at hnode
      · intro hplace
        have hlen := congrArg List.length hplace
        exact hne (by simpa using hlen)

theorem libcRemove_setHost (hv : v.Configured (.overlay upper lower)) (hq : ∀ x ∈ q, 0 ∉ x.bytes)
    (hm : (v.absolutePathToFs q).1 = none) (kind : VfsEntryKind) (h : HostFs) :
    libcRemove kind (v.setHost h) (pathToCstring (hostPath [47] q)) =
      v.setHost (h.remove kind (hostPath (actingRoot upper lower h q) q)).2 :=
  libcRemove_overlay (w := v.world.setHost h) hv rfl hq hm kind

theorem cleanup_concat (path : HostPath) (v : HooksVfs ι) (entries : List VfsDirEntry)
    (e : VfsDirEntry) :
    cleanupMaterializedDir v ⟨path, entries ++ [e]⟩ =
      cleanupMaterializedDir (cleanupEntry path v e) ⟨path, entries⟩ := by
  simp [cleanupMaterializedDir]

omit [DecidableEq ι] in
theorem remove_top (hv : v.Configured (.overlay upper lower)) (hp : TempPath p)
    (hfree : v.world.host.node p = none) (hh : v.world.host.Holds h p fun _ => none) :
    let h' := (h.remove .dir (hostPath (actingRoot upper lower h p) p)).2
    (ToHostRoot upper lower v.world.host p → h'.nodes = v.world.host.nodes) ∧
      (¬ ToHostRoot upper lower v.world.host p → h'.node p ≠ none) := by
  intro h'
  obtain ⟨⟨-, hu⟩, -, hlow⟩ := hv.dirs upper lower rfl
  constructor
  · intro hreach
    have hnil := actingRoot_of_toHostRoot hfree hh hp hu hreach (Or.inl rfl) (by simp [hh.top])
    have hat : h.removeAt .dir (h.rootPlace (actingRoot upper lower h p) ++ p) = some h' := by
      apply (actingRoot_roots hfree hh hu hlow p).remove_eq hp.ne_nil
      · rw [hnil, List.nil_append, hh.top]
        rfl
      · rw [hnil]
        exact hh.noEntries_top fun _ => rfl
    rw [hnil, List.nil_append] at hat
    exact hh.restored hfree (fun _ => rfl) (HostFs.removeAt_eq_some hat).2.2
  · intro hreach
    rcases h.remove_cases .dir (actingRoot upper lower h p) hp.ne_nil with hsame | hat
    · have hsame' : h' = h := hsame
      rw [hsame', hh.top]
      simp
    · rw [(HostFs.removeAt_eq_some hat).2.2, if_neg, hh.top]
      · simp
      · intro hplace
        apply hreach
        apply toHostRoot_of_actingRoot hfree hh hp hu
        simpa using hplace

theorem cleanup_overlay (hv : v.Configured (.overlay upper lower)) (hp : TempPath p)
    (hfree : v.world.host.node p = none) (hm : (v.absolutePathToFs p).1 = none)
    {entries : List VfsDirEntry} (hnames : ∀ e ∈ entries, Named e)
    (hdistinct : (entries.map (·.name)).Nodup)
    (hun : ∀ e ∈ entries, ¬ v.Mounted (joinHost (hostPath [47] p) e.name))
    (hh : v.world.host.Holds h p (madeOf entries)) :
    let v' := cleanupMaterializedDir (v.setHost h) ⟨hostPath [47] p, entries⟩
    (ToHostRoot upper lower v.world.host p → ∃ h', v' = v.setHost h' ∧
      h'.nodes = v.world.host.nodes) ∧
      (¬ ToHostRoot upper lower v.world.host p → v'.world.host.node p ≠ none) := by
  have hu := (hv.dirs upper lower rfl).1.2
  induction entries using List.reverseRecOn generalizing h with
  | nil =>
    have hlast : cleanupMaterializedDir (v.setHost h) ⟨hostPath [47] p, []⟩ =
        v.setHost (h.remove .dir (hostPath (actingRoot upper lower h p) p)).2 :=
      libcRemove_setHost hv hp.nul hm .dir h
    obtain ⟨hgone, hleft⟩ := remove_top hv hp hfree hh
    rw [hlast]
    exact ⟨fun hreach => ⟨_, rfl, hgone hreach⟩, hleft⟩
  | append_singleton entries e ih =>
    obtain ⟨x, hx, hnul⟩ := hnames e (by simp)
    have hnew : ∀ c ∈ entries, c.name ≠ e.name := by
      rw [List.map_append, List.nodup_append] at hdistinct
      intro c hc
      exact hdistinct.2.2 _ (List.mem_map_of_mem hc) _ (by simp)
    have hmade : madeOf (entries ++ [e]) x = some e.kind := by
      rw [(madeOf_concat hx hnew).2, Function.update_self]
    have hfirst : (v.absolutePathToFs (p ++ [x])).1 = none := by
      have hnot := hun e (by simp)
      rw [hx, joinHost_hostPath hp.ne_nil, mounted_hostPath v (hp.nul_concat hnul)] at hnot
      exact not_not.mp hnot
    have hrest : ∀ e ∈ entries, Named e := fun e he => hnames e (List.mem_append_left _ he)
    let root := actingRoot upper lower h (p ++ [x])
    let h' := (h.remove e.kind (hostPath root (p ++ [x]))).2
    have hstep : cleanupMaterializedDir (v.setHost h) ⟨hostPath [47] p, entries ++ [e]⟩ =
        cleanupMaterializedDir (v.setHost h') ⟨hostPath [47] p, entries⟩ := by
      rw [cleanup_concat, cleanupEntry_hostPath hp.ne_nil hx]
      rw [libcRemove_setHost hv (hp.nul_concat hnul) hfirst]
    rw [hstep]
    obtain ⟨hgone, hleft⟩ := remove_entry hv hfree hh hmade
    by_cases hnil : h.rootPlace root = []
    · have hh' := hgone hnil
      rw [update_madeOf hx hnew] at hh'
      apply ih hrest
      · rw [List.map_append, List.nodup_append] at hdistinct
        exact hdistinct.1
      · exact fun e he => hun e (List.mem_append_left _ he)
      · exact hh'
    · have hno : ¬ ToHostRoot upper lower v.world.host p := by
        intro hreach
        apply hnil
        apply actingRoot_of_toHostRoot hfree hh hp hu hreach (Or.inr ⟨x, rfl⟩)
        intro hnone
        have hb := (hh.below x).trans hmade
        simp [hnone] at hb
      refine ⟨fun hreach => absurd hreach hno, fun _ => ?_⟩
      apply cleanup_child (w := v.world.setHost h') hv hp hrest _ rfl (hleft hnil)
      intro c hc hcx
      exact absurd (hcx.trans hx.symm) (hnew c hc)

end HooksVfs

end SandboxVfs
