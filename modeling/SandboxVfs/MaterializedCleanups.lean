import SandboxVfs.HookedRemovals

/-! When the cleanup of a materialised directory gives the host back as it was. -/

namespace SandboxVfs

variable {ι : Type}

namespace HooksVfs

variable [DecidableEq ι] {b : HooksBackend ι} {v : HooksVfs ι} {p q : PathBuf} {h : HostFs}
  {made : FileName → Option VfsEntryKind}

def callsFor : VfsEntryKind → Nat
  | .dir => 1
  | .file => 2

/-- Up to the first `mkdir` or `open` that is refused, from call `n` on, every `close`
succeeds and no entry is a mount point. -/
def LoopClean (v : HooksVfs ι) (path : HostPath) : Nat → List VfsDirEntry → Prop
  | _, [] => True
  | n, e :: entries =>
    if e.name = dotName ∨ e.name = dotDotName then LoopClean v path n entries
    else v.world.host.refuses n = true ∨
      ¬ (e.kind = .file ∧ v.world.host.refuses (n + 1) = true) ∧ ¬ v.Mounted (joinHost path e.name) ∧
        LoopClean v path (n + callsFor e.kind) entries

/-- The cleanup that follows, if `materialize_dir` has not failed and done it itself. -/
def finish : Option MaterializedDir × HooksVfs ι → HooksVfs ι
  | (none, v) => v
  | (some materialized, v) => v.cleanupMaterializedDir materialized

omit [DecidableEq ι] in
theorem callOrigMkdir_eq (hv : v.Configured b) (h : HostFs) (path : List UInt8) (mode : Mode) :
    callOrigMkdir (v.setHost h) path mode =
      ((h.mkdir (cString path) mode).1, v.setHost (h.mkdir (cString path) mode).2) := by
  show ((v.world.libc.mkdir h _ _).1, v.setHost (v.world.libc.mkdir h _ _).2) = _
  rw [hv.libc.mkdir]

omit [DecidableEq ι] in
theorem callOrigOpen_eq (hv : v.Configured b) (h : HostFs) (path : List UInt8) (flags : Flags)
    (mode : Mode) :
    callOrigOpen (v.setHost h) path flags mode =
      ((h.openPath (cString path) flags mode).1, v.setHost (h.openPath (cString path) flags mode).2) := by
  show ((v.world.libc.openPath h _ _ _).1, v.setHost (v.world.libc.openPath h _ _ _).2) = _
  rw [hv.libc.openPath]

theorem cString_hostPath (hq : ∀ x ∈ q, 0 ∉ x.bytes) :
    cString (pathToCstring (hostPath [47] q)) = hostPath [47] q :=
  cString_nul (not_mem_hostPath (by decide) (by decide) hq)

omit [DecidableEq ι] in
theorem materializeEntry_spec (hv : v.Configured b) (hp : TempPath p)
    (hh : v.world.host.Holds h p made) {e : VfsDirEntry} {x : FileName} (hx : e.name = x.bytes)
    (hnul : 0 ∉ x.bytes) (hm : made x = none) :
    ∃ r h', materializeEntry (v.setHost h) (hostPath [47] p) e = (r, v.setHost h') ∧
      (h.refuses h.calls = true ∧ r ≠ 0 ∧ v.world.host.Holds h' p made ∨
        h.refuses h.calls = false ∧ v.world.host.Holds h' p (Function.update made x (some e.kind)) ∧
          (e.kind = .file ∧ h.refuses (h.calls + 1) = true ∧ r ≠ 0 ∨
            ¬ (e.kind = .file ∧ h.refuses (h.calls + 1) = true) ∧ r = 0 ∧
              h'.calls = h.calls + callsFor e.kind)) := by
  have hpath : cString (pathToCstring (joinHost (hostPath [47] p) e.name)) =
      hostPath [47] (p ++ [x]) := by
    rw [hx, joinHost_hostPath hp.ne_nil, cString_hostPath (hp.nul_concat hnul)]
  have hne : p ++ [x] ≠ [] := by simp
  cases hk : e.kind with
  | dir =>
    have hcall : materializeEntry (v.setHost h) (hostPath [47] p) e =
        ((h.mkdir (hostPath [47] (p ++ [x])) 0o700).1,
          v.setHost (h.mkdir (hostPath [47] (p ++ [x])) 0o700).2) := by
      simp only [materializeEntry, hk, callOrigMkdir_eq hv, hpath]
    refine ⟨_, _, hcall, ?_⟩
    rw [HostFs.mkdir_hostPath hne]
    by_cases href : h.refuses h.calls = true
    · rw [if_pos href]
      exact Or.inl ⟨href, by simp, hh.called⟩
    · obtain ⟨h', hmk, hcalls, hh'⟩ := hh.mkdirAt_child hm
      rw [if_neg href, hmk]
      refine Or.inr ⟨by simpa using href, hh'.called, Or.inr ⟨by simp, rfl, ?_⟩⟩
      show h'.calls + 1 = h.calls + 1
      rw [hcalls]
  | file =>
    let opened := h.openPath (hostPath [47] (p ++ [x])) (O_CREAT ||| O_WRONLY ||| O_TRUNC) 0o600
    have hcall : materializeEntry (v.setHost h) (hostPath [47] p) e =
        if opened.1 < 0 then (-1, v.setHost opened.2)
        else ((opened.2.close opened.1).1, v.setHost (opened.2.close opened.1).2) := by
      simp only [materializeEntry, hk, callOrigOpen_eq hv, hpath]
      rfl
    rw [hcall]
    by_cases href : h.refuses h.calls = true
    · have hopen : opened = (-1, h.called) := by
        show h.openPath _ _ _ = _
        rw [HostFs.openPath_hostPath hne, if_pos href]
      rw [hopen]
      exact ⟨-1, h.called, rfl, Or.inl ⟨href, by decide, hh.called⟩⟩
    · have hcreat : (O_CREAT ||| O_WRONLY ||| O_TRUNC).has O_CREAT = true := by decide
      obtain ⟨h', hop, hcalls, hh'⟩ := hh.openAt_child hm hcreat
      have hopen : opened = ((h.calls : Int), h'.called) := by
        show h.openPath _ _ _ = _
        rw [HostFs.openPath_hostPath hne, if_neg href, hop]
      have hrefuses : h'.refuses = h.refuses := hh'.refuses.trans hh.refuses.symm
      have hpos : ¬ (h.calls : Int) < 0 := by omega
      rw [hopen, if_neg hpos]
      refine ⟨_, _, rfl, Or.inr ⟨by simpa using href, hh'.called.called, ?_⟩⟩
      have hclose : (h'.called.close h.calls).1 =
          if h.refuses (h.calls + 1) = true then -1 else 0 := by
        show (if h'.refuses (h'.calls + 1) = true then (-1 : Int) else 0) = _
        rw [hrefuses, hcalls]
      rw [hclose]
      by_cases hc : h.refuses (h.calls + 1) = true
      · exact Or.inl ⟨rfl, hc, by simp [hc]⟩
      · refine Or.inr ⟨fun hh => hc hh.2, if_neg hc, ?_⟩
        show h'.calls + 1 + 1 = h.calls + 2
        rw [hcalls]

/-- What the loop leaves for the cleanup: exactly the entries made, or one more. -/
structure LeftBy (v : HooksVfs ι) (p : PathBuf) (created made : List VfsDirEntry) (h : HostFs)
    (clean : Prop) : Prop where
  named : ∀ e ∈ created ++ made, Named e
  distinct : ((created ++ made).map (·.name)).Nodup
  outcome : clean ∧ v.world.host.Holds h p (madeOf (created ++ made)) ∧
      (∀ e ∈ made, ¬ v.Mounted (joinHost (hostPath [47] p) e.name)) ∨
    ¬ clean ∧ ∃ x : FileName, h.node (p ++ [x]) ≠ none ∧
      ∀ e ∈ created ++ made, e.name = x.bytes → v.Mounted (hostPath [47] (p ++ [x]))

omit [DecidableEq ι] in
theorem LeftBy.called {created made : List VfsDirEntry} {clean : Prop}
    (hleft : LeftBy v p created made h clean) : LeftBy v p created made h.called clean :=
  ⟨hleft.named, hleft.distinct,
    hleft.outcome.imp (fun ⟨hclean, hh, hun⟩ => ⟨hclean, hh.called, hun⟩) id⟩

omit [DecidableEq ι] in
theorem LeftBy.congr {created made : List VfsDirEntry} {clean clean' : Prop}
    (hleft : LeftBy v p created made h clean) (hiff : clean ↔ clean') :
    LeftBy v p created made h clean' := by
  rwa [← propext hiff]

omit [DecidableEq ι] in
/-- Where the loop stops, nothing is made any more. -/
theorem LeftBy.stop {created : List VfsDirEntry} {clean : Prop} (hcreated : ∀ e ∈ created, Named e)
    (hdistinct : (created.map (·.name)).Nodup)
    (hout : clean ∧ v.world.host.Holds h p (madeOf created) ∨
      ¬ clean ∧ ∃ x : FileName, h.node (p ++ [x]) ≠ none ∧ ∀ e ∈ created, e.name ≠ x.bytes) :
    LeftBy v p created [] h clean := by
  have hcreated' : ∀ e ∈ created ++ [], Named e := by simpa using hcreated
  refine ⟨hcreated', by simpa using hdistinct, ?_⟩
  rcases hout with ⟨hclean, hh⟩ | ⟨hclean, x, hx, hnot⟩
  · exact Or.inl ⟨hclean, by simpa using hh, by simp⟩
  · refine Or.inr ⟨hclean, x, hx, fun e he hex => ?_⟩
    rw [List.append_nil] at he
    exact absurd hex (hnot e he)

omit [DecidableEq ι] in
theorem LeftBy.cons {created made : List VfsDirEntry} {clean : Prop} (hp : TempPath p)
    {e : VfsDirEntry} {x : FileName} (hx : e.name = x.bytes)
    (hleft : LeftBy v p (created ++ [e]) made h clean) :
    LeftBy v p created (e :: made) h (¬ v.Mounted (joinHost (hostPath [47] p) e.name) ∧ clean) := by
  have hassoc : created ++ [e] ++ made = created ++ e :: made := by simp
  have hname : joinHost (hostPath [47] p) e.name = hostPath [47] (p ++ [x]) := by
    rw [hx, joinHost_hostPath hp.ne_nil]
  obtain ⟨hnamed, hdistinct, hout⟩ := hleft
  rw [hassoc] at hnamed hdistinct hout
  refine ⟨hnamed, hdistinct, ?_⟩
  rcases hout with ⟨hclean, hh, hun⟩ | ⟨hclean, y, hy, hkeep⟩
  · by_cases hm : v.Mounted (joinHost (hostPath [47] p) e.name)
    · refine Or.inr ⟨fun hno => hno.1 hm, x, ?_, fun _ _ _ => hname ▸ hm⟩
      intro hmiss
      have hb := hh.below x
      rw [hmiss] at hb
      exact madeOf_ne_none (e := e) (by simp) hx hb.symm
    · refine Or.inl ⟨⟨hm, hclean⟩, hh, ?_⟩
      intro c hc
      rcases List.mem_cons.mp hc with rfl | hc
      · exact hm
      · exact hun c hc
  · exact Or.inr ⟨fun hno => hclean hno.2, y, hy, hkeep⟩

def EndsWith (v : HooksVfs ι) (p : PathBuf) (made : List VfsDirEntry) (h : HostFs)
    (r : Option MaterializedDir × HooksVfs ι) : Prop :=
  r = (some ⟨hostPath [47] p, made⟩, v.setHost h) ∨
    r = (none, cleanupMaterializedDir (v.setHost h) ⟨hostPath [47] p, made⟩)

theorem materializeEntries_spec (hv : v.Configured b) (hp : TempPath p)
    {entries created : List VfsDirEntry} (hh : v.world.host.Holds h p (madeOf created))
    (hnames : ∀ e ∈ entries, e.name = dotName ∨ e.name = dotDotName ∨ Named e)
    (hcreated : ∀ e ∈ created, Named e) (hdistinct : ((created ++ entries).map (·.name)).Nodup) :
    ∃ made h', EndsWith v p (created ++ made) h'
        (materializeEntries (hostPath [47] p) (v.setHost h) created entries) ∧
      LeftBy v p created made h' (v.LoopClean (hostPath [47] p) h.calls entries) := by
  induction entries generalizing created h with
  | nil =>
    have hdone : EndsWith v p (created ++ []) h
        (materializeEntries (hostPath [47] p) (v.setHost h) created []) :=
      Or.inl (by simp [materializeEntries])
    have hcreatedDistinct : (created.map (·.name)).Nodup := by simpa using hdistinct
    exact ⟨[], h, hdone, LeftBy.stop hcreated hcreatedDistinct (Or.inl ⟨trivial, hh⟩)⟩
  | cons e entries ih =>
    have hrest : ∀ e ∈ entries, e.name = dotName ∨ e.name = dotDotName ∨ Named e :=
      fun c hc => hnames c (List.mem_cons_of_mem e hc)
    by_cases hdot : e.name = dotName ∨ e.name = dotDotName
    · have hsub : ((created ++ entries).map (·.name)).Nodup :=
        hdistinct.sublist (((List.sublist_cons_self e entries).append_left created).map _)
      rw [materializeEntries, if_pos hdot, LoopClean, if_pos hdot]
      exact ih hh hrest hcreated hsub
    · have hnamed : Named e := by
        rcases hnames e List.mem_cons_self with hd | hd | hn
        · exact absurd (Or.inl hd) hdot
        · exact absurd (Or.inr hd) hdot
        · exact hn
      obtain ⟨x, hx, hnul⟩ := hnamed
      have hparts := hdistinct
      rw [List.map_append, List.nodup_append] at hparts
      have hnew : ∀ c ∈ created, c.name ≠ e.name :=
        fun c hc => hparts.2.2 _ (List.mem_map_of_mem hc) _ (by simp)
      obtain ⟨hnone, hmade⟩ := madeOf_concat hx hnew
      have hrefuses : h.refuses = v.world.host.refuses := hh.refuses
      rw [materializeEntries, if_neg hdot, LoopClean, if_neg hdot, ← hrefuses]
      obtain ⟨r, h', hcall, hout⟩ := materializeEntry_spec hv hp hh hx hnul hnone
      rw [hcall]
      -- the three ways in which the entry can end
      rcases hout with ⟨href, hr, hh'⟩ | ⟨href, hh', ⟨hfile, hclose, hr⟩ | ⟨hok, hr, hcalls⟩⟩
      · exact ⟨[], h', Or.inr (by simp [hr]), LeftBy.stop hcreated hparts.1 (Or.inl ⟨Or.inl href, hh'⟩)⟩
      · refine ⟨[], h', Or.inr (by simp [hr]), LeftBy.stop hcreated hparts.1 (Or.inr ⟨?_, x, ?_, ?_⟩)⟩
        · simp [href, hfile, hclose]
        · intro hmiss
          have hb := hh'.below x
          simp [hmiss] at hb
        · intro c hc hcx
          exact hnew c hc (hcx.trans hx.symm)
      · rw [← hmade] at hh'
        have hcreated' : ∀ c ∈ created ++ [e], Named c := by
          intro c hc
          rcases List.mem_append.mp hc with hc | hc
          · exact hcreated c hc
          · rw [List.mem_singleton.mp hc]
            exact ⟨x, hx, hnul⟩
        obtain ⟨made, h'', hends, hleft⟩ := ih hh' hrest hcreated' (by simpa using hdistinct)
        have hassoc : created ++ [e] ++ made = created ++ e :: made := by simp
        rw [hassoc] at hends
        rw [hcalls] at hleft
        refine ⟨e :: made, h'', by simpa [hr] using hends, (hleft.cons hp hx).congr ?_⟩
        simp [href, hok]

end HooksVfs

theorem decimal_digit {n : Nat} {d : UInt8} (hd : d ∈ decimal n) : 48 ≤ d.toNat ∧ d.toNat ≤ 57 := by
  obtain ⟨c, hc, rfl⟩ := List.mem_map.mp hd
  have hdigit : 48 ≤ c.toNat ∧ c.toNat ≤ 57 :=
    Char.isDigit_iff_toNat.mp (Nat.isDigit_of_mem_toDigits (by decide) le_rfl hc)
  rw [UInt8.toNat_ofNat_of_lt' (show c.toNat < 256 by omega)]
  omega

def tmpName : FileName where
  bytes := [116, 109, 112]
  ne_nil := by simp
  no_slash := by simp
  ne_dot := by simp
  ne_dot_dot := by simp

def materializedName (processId next : Nat) : FileName where
  bytes := [115, 97, 110, 100, 98, 111, 120, 45, 118, 102, 115, 45, 111, 112, 101, 110, 100, 105, 114,
    45] ++ decimal processId ++ [45] ++ decimal next
  ne_nil := by simp
  no_slash := by
    intro hmem
    have hno (n : Nat) : 47 ∉ decimal n := by
      intro hd
      have hdigit := decimal_digit hd
      simp at hdigit
    simp [hno] at hmem
  ne_dot := by simp
  ne_dot_dot := by simp

theorem materializedPath_eq (processId next : Nat) :
    materializedPath processId next = hostPath [47] [tmpName, materializedName processId next] := by
  simp [materializedPath, hostPath, separator, tmpName, materializedName, List.intercalate_cons_cons]

theorem tempPath (processId next : Nat) : TempPath [tmpName, materializedName processId next] where
  ne_nil := by simp
  nul := by
    have hno (n : Nat) : 0 ∉ decimal n := by
      intro hd
      have hdigit := decimal_digit hd
      simp at hdigit
    intro x hx
    rcases List.mem_pair.mp hx with rfl | rfl
    · decide
    · simp [materializedName, hno]
  apart := by
    intro u x hu he
    have hlen := congrArg List.length he
    obtain ⟨a, rfl⟩ := List.length_eq_one_iff.mp (by simpa using hlen : u.length = 1)
    have hsecond : tmpName = materializedName processId next := by
      simp at he
      exact he.2.1
    have hbytes := congrArg FileName.bytes hsecond
    simp [tmpName, materializedName] at hbytes

namespace HooksVfs

variable [DecidableEq ι] {b : HooksBackend ι} {v : HooksVfs ι} {p : PathBuf}

/-- The host is as before, and so are the backends. -/
structure Undone (v v' : HooksVfs ι) : Prop where
  host : v'.world.host.nodes = v.world.host.nodes
  memory : v'.world.memory.fs = v.world.memory.fs
  root : v'.root = v.root
  mounts : v'.mounts = v.mounts

def MakesTemp (v : HooksVfs ι) (path : HostPath) : Prop :=
  let p := v.resolvePath (.fromCStr (pathToCstring path))
  v.world.host.refuses v.world.host.calls = false ∧ v.world.host.node p = none ∧
    v.world.host.isDir p.dropLast = true

/-- The hooks take removals of the path to the host's root. -/
def Reaches (b : HooksBackend ι) (v : HooksVfs ι) (path : HostPath) : Prop :=
  ¬ v.Mounted path ∧
    match b with
    | .memory _ => False
    | .overlay upper lower =>
      ToHostRoot upper lower v.world.host (v.resolvePath (.fromCStr (pathToCstring path)))

theorem cleanup_undone_iff (hv : v.Configured b) (hp : TempPath p)
    (hfree : v.world.host.node p = none) {h : HostFs} {made : List VfsDirEntry} {clean : Prop}
    (hleft : LeftBy v p [] made h clean) :
    Undone v (cleanupMaterializedDir (v.setHost h) ⟨hostPath [47] p, made⟩) ↔
      v.Reaches b (hostPath [47] p) ∧ clean := by
  -- the directory was not there before
  have hnot {v' : HooksVfs ι} (hn : v'.world.host.node p ≠ none) : ¬ Undone v v' := by
    intro hundone
    apply hn
    show v'.world.host.nodes[p]? = none
    rw [hundone.host]
    exact hfree
  have hnamed : ∀ e ∈ made, Named e := hleft.named
  have hdistinct : (made.map (·.name)).Nodup := hleft.distinct
  have hset : v.setHost h = v.setWorld (v.world.setHost h) := rfl
  unfold Reaches
  rw [hset, mounted_hostPath v hp.nul, resolvePath_hostPath v hp.nul]
  rcases hleft.outcome with ⟨hclean, hh, hun⟩ | ⟨hclean, x, hx, hkeep⟩
  · rw [and_iff_left hclean]
    have htop : h.node p ≠ none := by simp [hh.top]
    by_cases hmem : (v.absolutePathToFs p).1 ≠ none ∨ ∃ f, b = .memory f
    · refine iff_of_false (hnot (cleanup_memory hv hp hmem hnamed rfl htop)) ?_
      rintro ⟨hunmounted, hreach⟩
      obtain ⟨f, rfl⟩ := hmem.resolve_left hunmounted
      exact hreach
    · obtain ⟨hunmounted, hb⟩ := not_or.mp hmem
      cases b with
      | memory f => exact absurd ⟨f, rfl⟩ hb
      | overlay upper lower =>
        rw [← hset]
        obtain ⟨hgone, hstays⟩ := cleanup_overlay hv hp hfree (not_not.mp hunmounted) hnamed
          hdistinct hun hh
        constructor
        · intro hundone
          refine ⟨hunmounted, ?_⟩
          by_contra hno
          exact hnot (hstays hno) hundone
        · rintro ⟨-, hreach⟩
          obtain ⟨g, hg, hnodes⟩ := hgone hreach
          have hg' : cleanupMaterializedDir (v.setHost h) ⟨hostPath [47] p, made⟩ = v.setHost g := hg
          rw [hg']
          exact ⟨hnodes, rfl, rfl, rfl⟩
  · refine iff_of_false (hnot (cleanup_child hv hp hnamed hkeep rfl hx)) ?_
    exact fun hh => hclean hh.2

theorem materializeDir_cases (hv : v.Configured b) (hp : TempPath p) {entries : List VfsDirEntry}
    (he : Listing entries) :
    ¬ v.MakesTemp (hostPath [47] p) ∧
        v.materializeDir (hostPath [47] p) entries = (none, v.setHost v.world.host.called) ∨
      v.MakesTemp (hostPath [47] p) ∧ v.world.host.node p = none ∧
        ∃ made h, EndsWith v p made h (v.materializeDir (hostPath [47] p) entries) ∧
          LeftBy v p [] made h (v.LoopClean (hostPath [47] p) (v.world.host.calls + 1) entries) := by
  have hmade : v.MakesTemp (hostPath [47] p) ↔ v.world.host.refuses v.world.host.calls = false ∧
      ∃ h', v.world.host.mkdirAt p = some h' := by
    rw [MakesTemp, resolvePath_hostPath v hp.nul]
    refine and_congr_right fun _ => ?_
    unfold HostFs.mkdirAt
    split_ifs with hc
    · exact iff_of_true hc.2 ⟨_, rfl⟩
    · exact iff_of_false (fun h => hc ⟨hp.ne_nil, h⟩) (by simp)
  have hcall : v.callOrigMkdir (pathToCstring (hostPath [47] p)) 0o700 =
      ((v.world.host.mkdir (hostPath [47] p) 0o700).1,
        v.setHost (v.world.host.mkdir (hostPath [47] p) 0o700).2) := by
    have hmkdir := callOrigMkdir_eq hv v.world.host (pathToCstring (hostPath [47] p)) 0o700
    rwa [cString_hostPath hp.nul] at hmkdir
  rw [materializeDir, hcall, HostFs.mkdir_hostPath hp.ne_nil]
  by_cases href : v.world.host.refuses v.world.host.calls = true
  · refine Or.inl ⟨fun hm => ?_, by simp [href]⟩
    rw [(hmade.mp hm).1] at href
    cases href
  · have hno : v.world.host.refuses v.world.host.calls = false := by simpa using href
    cases hmk : v.world.host.mkdirAt p with
    | none =>
      refine Or.inl ⟨fun hm => ?_, by simp [href]⟩
      obtain ⟨-, h', hh'⟩ := hmade.mp hm
      cases hmk.symm.trans hh'
    | some h' =>
      obtain ⟨hfree, hcalls, hholds⟩ := HostFs.mkdirAt_top hp.ne_nil hmk
      have hnone : ∀ e ∈ ([] : List VfsDirEntry), Named e := by simp
      obtain ⟨made, h'', hends, hleft⟩ := materializeEntries_spec hv hp hholds.called he.names hnone
        (by simpa using he.distinct)
      have hcount : h'.called.calls = v.world.host.calls + 1 := by
        show h'.calls + 1 = _
        rw [hcalls]
      rw [hcount] at hleft
      refine Or.inr ⟨hmade.mpr ⟨hno, h', hmk⟩, hfree, made, h'', ?_, hleft⟩
      rw [if_neg href]
      exact hends

omit [DecidableEq ι] in
theorem undone_called (v v' : HooksVfs ι) :
    Undone v (v'.setHost v'.world.host.called) ↔ Undone v v' :=
  ⟨fun h => ⟨h.host, h.memory, h.root, h.mounts⟩, fun h => ⟨h.host, h.memory, h.root, h.mounts⟩⟩

theorem finish_undone_iff (hv : v.Configured b) (hp : TempPath p) {entries : List VfsDirEntry}
    (he : Listing entries) :
    Undone v (finish (v.materializeDir (hostPath [47] p) entries)) ↔
      ¬ v.MakesTemp (hostPath [47] p) ∨ v.Reaches b (hostPath [47] p) ∧
        v.LoopClean (hostPath [47] p) (v.world.host.calls + 1) entries := by
  rcases materializeDir_cases hv hp he with ⟨hm, hr⟩ | ⟨hm, hfree, made, h, hends, hleft⟩
  · rw [hr]
    exact iff_of_true ⟨rfl, rfl, rfl, rfl⟩ (Or.inl hm)
  · rw [or_iff_right (not_not_intro hm), ← cleanup_undone_iff hv hp hfree hleft]
    rcases hends with hr | hr
    · rw [hr, finish]
    · rw [hr, finish]

end HooksVfs

namespace DirHooks

open HooksVfs

variable [DecidableEq ι] {b : HooksBackend ι} {s : DirHooks ι} {p : PathBuf} {dirp : Nat}

theorem callOrig_closed (hnew : s.materializedDirs[dirp]? = none) (name : List UInt8) :
    (let r := s.callOrig name
      if r.1 then r.2.closedir dirp else r.2).vfs = s.vfs.setHost s.vfs.world.host.called := by
  have hnew' : (s.callOrig name).2.materializedDirs[dirp]? = none := hnew
  dsimp only
  split_ifs
  · simp only [closedir, hnew']
    rfl
  · rfl

theorem closedir_insert (s : DirHooks ι) (materialized : MaterializedDir) :
    (closedir { s with materializedDirs := s.materializedDirs.insert dirp materialized } dirp).vfs =
      s.vfs.cleanupMaterializedDir materialized := by
  simp [closedir]

theorem openedAndClosed_undone_iff (hv : s.vfs.Configured b) (hnew : s.materializedDirs[dirp]? = none)
    {name : List UInt8} {entries : List VfsDirEntry}
    (hread : s.vfs.readDir (.fromCStr name) = some entries) (he : Listing entries) (hp : TempPath p)
    (hpath : materializedPath s.processId s.next = hostPath [47] p) :
    Undone s.vfs (s.openedAndClosed name dirp).vfs ↔
      ¬ s.vfs.MakesTemp (hostPath [47] p) ∨ s.vfs.Reaches b (hostPath [47] p) ∧
        s.vfs.LoopClean (hostPath [47] p) (s.vfs.world.host.calls + 1) entries := by
  rcases materializeDir_cases hv hp he with ⟨hm, hr⟩ | ⟨hm, hfree, made, h, hends, hleft⟩
  · have hvfs : (s.openedAndClosed name dirp).vfs = s.vfs.setHost s.vfs.world.host.called.called := by
      simp only [openedAndClosed, opendir, hread, hpath, hr]
      exact callOrig_closed (s := { s with
        vfs := s.vfs.setHost s.vfs.world.host.called, next := s.next + 1 }) hnew name
    rw [hvfs]
    exact iff_of_true ⟨rfl, rfl, rfl, rfl⟩ (Or.inl hm)
  · rw [or_iff_right (not_not_intro hm)]
    let materialized : MaterializedDir := ⟨hostPath [47] p, made⟩
    rcases hends with hr | hr
    · have hleft' := hleft.called
      let opened := ({ s with vfs := s.vfs.setHost h, next := s.next + 1 } : DirHooks ι).callOrig
        (pathToCstring (hostPath [47] p))
      have hopened : opened.2.vfs = s.vfs.setHost h.called := rfl
      rw [← cleanup_undone_iff hv hp hfree hleft']
      cases ho : opened.1 with
      | true =>
        have hvfs : (s.openedAndClosed name dirp).vfs =
            opened.2.vfs.cleanupMaterializedDir materialized := by
          simp only [openedAndClosed, opendir, hread, hpath, hr]
          rw [if_pos ho]
          exact closedir_insert opened.2 materialized
        rw [hvfs, hopened]
      | false =>
        have hvfs : (s.openedAndClosed name dirp).vfs =
            (opened.2.vfs.cleanupMaterializedDir materialized).setHost
              (opened.2.vfs.cleanupMaterializedDir materialized).world.host.called := by
          simp only [openedAndClosed, opendir, hread, hpath, hr]
          rw [if_neg (show ¬ opened.1 = true by simp [ho])]
          exact callOrig_closed (s := { opened.2 with
            vfs := opened.2.vfs.cleanupMaterializedDir materialized }) hnew name
        rw [hvfs, undone_called, hopened]
    · have hvfs : (s.openedAndClosed name dirp).vfs =
          ((s.vfs.setHost h).cleanupMaterializedDir materialized).setHost
            ((s.vfs.setHost h).cleanupMaterializedDir materialized).world.host.called := by
        simp only [openedAndClosed, opendir, hread, hpath, hr]
        exact callOrig_closed (s := { s with
          vfs := (s.vfs.setHost h).cleanupMaterializedDir materialized, next := s.next + 1 }) hnew name
      rw [hvfs, undone_called]
      exact cleanup_undone_iff hv hp hfree hleft

end DirHooks

namespace HooksVfs

variable [DecidableEq ι] {b : HooksBackend ι} {v : HooksVfs ι}

/-- What was made in the temporary directory is gone, and all else is as it was, if and only if
nothing was made, or the removals reach the host's root and no file is left half made. The
cleanup is the one of `materialize_dir`, or that of the hooks. -/
theorem materialized_undone_iff (hv : v.Configured b) {entries : List VfsDirEntry}
    (he : Listing entries) (processId next : Nat) :
    let path := materializedPath processId next
    let condition := ¬ v.MakesTemp path ∨
      v.Reaches b path ∧ v.LoopClean path (v.world.host.calls + 1) entries
    (Undone v (finish (v.materializeDir path entries)) ↔ condition) ∧
      ∀ (s : DirHooks ι) (name : List UInt8) (dirp : Nat), s.vfs = v → s.processId = processId →
        s.next = next → s.materializedDirs[dirp]? = none → v.readDir (.fromCStr name) = some entries →
        (Undone v (s.openedAndClosed name dirp).vfs ↔ condition) := by
  intro path condition
  have hp := tempPath processId next
  have hpath : path = hostPath [47] [tmpName, materializedName processId next] :=
    materializedPath_eq processId next
  constructor
  · show _ ↔ ¬ v.MakesTemp path ∨ v.Reaches b path ∧ v.LoopClean path _ entries
    rw [hpath]
    exact finish_undone_iff hv hp he
  · rintro s name dirp rfl rfl rfl hnew hread
    show _ ↔ ¬ s.vfs.MakesTemp path ∨ s.vfs.Reaches b path ∧ s.vfs.LoopClean path _ entries
    rw [hpath]
    exact DirHooks.openedAndClosed_undone_iff hv hnew hread he hp hpath

def tmpHost (refuses : Nat → Bool) : HostFs :=
  let host : HostFs :=
    { nodes := (∅ : Std.ExtTreeMap PathBuf HostNode compare).insert [] .dir
      cwd := []
      refuses := refuses
      calls := 0
      root_dir := by rw [HostFs.node_insert, if_pos rfl]
      parent_dir := by
        intro p hp hne
        rw [HostFs.node_insert, if_neg hp] at hne
        simp at hne }
  [[tmpName], [.b]].foldl (fun host p => (host.mkdirAt p).getD host) host

def treeLibc : Libc HostFs where
  access := HostFs.access
  openPath := HostFs.openPath
  mkdir := HostFs.mkdir
  unlink := HostFs.unlink
  rmdir := HostFs.rmdir
  rename host _ _ := (-1, host)
  chmod host _ _ := (-1, host)
  stat _ _ := none

theorem treeLibc_actsOnTree : treeLibc.ActsOnTree := ⟨rfl, rfl, rfl, rfl, rfl⟩

def hooksWorld (refuses : Nat → Bool) : HostWorld Unit HostFs :=
  let memory : World Unit := ⟨fun _ => (MemoryFS.new .boot).fs, (MemoryFS.new .boot).sys⟩
  { memory := (LowLevelFS.mkdir (⟨()⟩ : MemoryRef Unit) memory (PathBuf.toAbs [.d]) 0o755).2
    host := tmpHost refuses
    libc := treeLibc }

/-- `/b` over the root of the host, and in memory a `/m` with a directory in it. -/
def overRoot (refuses : Nat → Bool) : HooksVfs Unit :=
  staticVfs (.overlay ⟨[47, 98]⟩ ⟨[47]⟩) (some ([.m], ⟨()⟩)) (fun _ => 0) (hooksWorld refuses)

def dirEntry (x : FileName) (kind : VfsEntryKind) : VfsDirEntry := ⟨x.bytes, kind, some 2⟩

theorem overRoot_configured :
    (overRoot fun _ => false).Configured (.overlay ⟨[47, 98]⟩ ⟨[47]⟩) where
  root := rfl
  mounts := by
    intro p fs h
    have hupdate : Function.update (fun _ => none) [FileName.m] (some (.inl (.memory ⟨()⟩))) p =
      some fs := h
    by_cases hp : p = [FileName.m]
    · subst hp
      rw [Function.update_self] at hupdate
      cases hupdate
      exact ⟨_, rfl⟩
    · rw [Function.update_of_ne hp] at hupdate
      cases hupdate
  libc := treeLibc_actsOnTree
  dirs := by
    rintro upper lower h
    cases h
    exact ⟨⟨by decide, [.b], by decide +kernel, by decide +kernel⟩, by decide,
      HostFs.roots_slash _⟩

theorem overRoot_undone :
    let v := overRoot fun _ => false
    let s : DirHooks Unit := ⟨v, ∅, 1, 0⟩
    Undone v (finish (v.materializeDir (materializedPath 1 0) [dirEntry .d .dir])) ∧
      Undone v (s.openedAndClosed [47, 109, 0] 7).vfs := by
  intro v s
  have hlisting : Listing [dirEntry .d .dir] := by
    refine ⟨fun e he => ?_, by simp⟩
    rw [List.mem_singleton.mp he]
    exact Or.inr (Or.inr ⟨.d, rfl, by decide⟩)
  obtain ⟨hdir, hhooks⟩ := materialized_undone_iff overRoot_configured hlisting 1 0
  have hcondition : ¬ v.MakesTemp (materializedPath 1 0) ∨
      v.Reaches (.overlay ⟨[47, 98]⟩ ⟨[47]⟩) (materializedPath 1 0) ∧
        v.LoopClean (materializedPath 1 0) (v.world.host.calls + 1) [dirEntry .d .dir] := by
    refine Or.inr ⟨⟨?_, ?_⟩, ?_⟩
    · intro hm
      exact hm (by decide +kernel)
    · exact Or.inr ⟨by decide +kernel, by decide +kernel⟩
    · rw [LoopClean, if_neg (by decide)]
      exact Or.inr ⟨by simp [dirEntry], fun hm => hm (by decide +kernel), trivial⟩
  refine ⟨hdir.mpr hcondition, (hhooks s [47, 109, 0] 7 rfl rfl rfl rfl ?_).mpr hcondition⟩
  decide +kernel

/-- In memory the removals do not reach the host; and a file that does not close is not among
those that are removed. -/
theorem not_undone :
    ¬ Undone (staticVfs (.memory ⟨()⟩) none (fun _ => 0) (hooksWorld fun _ => false))
      (finish ((staticVfs (.memory ⟨()⟩) none (fun _ => 0) (hooksWorld fun _ => false)).materializeDir
        (materializedPath 1 0) [])) ∧
    ¬ Undone (overRoot (· = 2))
      (finish ((overRoot (· = 2)).materializeDir (materializedPath 1 0) [dirEntry .f .file])) := by
  constructor
  · intro h
    have hmade : (finish ((staticVfs (.memory ⟨()⟩) none (fun _ => 0)
        (hooksWorld fun _ => false)).materializeDir (materializedPath 1 0) [])).world.host.node
          [tmpName, materializedName 1 0] = some .dir := by decide +kernel
    have hfree : (hooksWorld fun _ => false).host.node [tmpName, materializedName 1 0] = none := by
      decide +kernel
    rw [HostFs.node, h.host] at hmade
    cases hfree.symm.trans hmade
  · intro h
    have hmade : (finish ((overRoot (· = 2)).materializeDir (materializedPath 1 0)
        [dirEntry .f .file])).world.host.node [tmpName, materializedName 1 0] = some .dir := by
      decide +kernel
    have hfree : (overRoot (· = 2)).world.host.node [tmpName, materializedName 1 0] = none := by
      decide +kernel
    rw [HostFs.node, h.host] at hmade
    cases hfree.symm.trans hmade

end HooksVfs

end SandboxVfs
