import SandboxVfs.BackingFiles

/-! File contents. The program reads and writes through the kernel, by numbers that the
file system has given it; the file system has numbers of its own among them. -/

namespace SandboxVfs

open MemoryFS OpenFiles

variable {ι P C Q R : Type} [DecidableEq ι] {K : FileKernel Flags P C Q R}

/-- The descriptors of a program as it sees them: each is open on a node. -/
structure Descriptors (ι P C : Type) where
  numbers : Finset Int
  files : OpenFiles (MemoryOpenedFile ι) Nat Flags P C

namespace Vfs

def Private (v : Vfs ι) (fd : Int) : Prop := ∃ h, v.referenced h = true ∧ v.backingFd h = fd

/-- The node is referred to, or it has just been given up. -/
def Held (v : Vfs ι) (o : Option (MemoryOpenedFile ι)) (h : MemoryOpenedFile ι) : Prop :=
  v.referenced h = true ∨ o = some h

/-- The kernel's open files `s` are those of the program and those behind the nodes, and a
node that has been `made` has the file `φ` of it. -/
structure Shows (K : FileKernel Flags P C Q R) (v : Vfs ι) (o : Option (MemoryOpenedFile ι))
    (made : MemoryOpenedFile ι → Prop) (φ : MemoryOpenedFile ι → Nat)
    (s : OpenFiles Nat Nat Flags P C) (u : Descriptors ι P C) : Prop where
  mirrors : Mirrors K φ made (· ∈ u.numbers) s u.files
  held : ∀ h, v.Held o h → made h
  known : ∀ h, made h → v.Known h
  live : ∀ fd, fd ∈ v.live ↔ fd ∈ u.numbers ∨ ∃ h, v.Held o h ∧ v.backingFd h = fd
  apart : ∀ h, v.Held o h → v.backingFd h ∉ u.numbers
  backing : ∀ h, v.Held o h → s.fileAt (v.backingFd h) = some (φ h)
  tracked : ∀ fd, v.opened fd = u.files.fileAt fd
  table : ∀ fd, u.files.table fd ≠ none → fd ∈ u.numbers
  named : ∀ h, made h → φ h ≤ v.calls
  young : ∀ fd d, s.table fd = some d → d ≤ v.calls
  empty : ∀ h, ¬ made h → u.files.content h = K.empty

variable {v v' : Vfs ι} {o : Option (MemoryOpenedFile ι)} {made : MemoryOpenedFile ι → Prop}
  {φ : MemoryOpenedFile ι → Nat} {s : OpenFiles Nat Nat Flags P C} {u : Descriptors ι P C}
  {h : MemoryOpenedFile ι} {fd : Int}

theorem Shows.backing_injective (hs : Shows K v o made φ s u) {h h' : MemoryOpenedFile ι}
    (hh : v.Held o h) (hh' : v.Held o h') (he : v.backingFd h = v.backingFd h') : h = h' := by
  have hfile := (hs.backing h hh).symm.trans ((congrArg s.fileAt he).trans (hs.backing h' hh'))
  exact hs.mirrors.injective h h' (hs.held h hh) (hs.held h' hh') (Option.some.inj hfile)

theorem Shows.opened_mem (hs : Shows K v o made φ s u) (ho : v.opened fd ≠ none) :
    fd ∈ u.numbers := by
  refine hs.table fd fun ht => ho ?_
  rw [hs.tracked, fileAt, ht]
  rfl

theorem Shows.mem_numbers (hs : Shows K v none made φ s u) (hfd : fd ∈ v.live)
    (hp : ¬ v.Private fd) : fd ∈ u.numbers := by
  rcases (hs.live fd).mp hfd with hn | ⟨h, hh, hb⟩
  · exact hn
  · exact absurd ⟨h, hh.resolve_right (by simp), hb⟩ hp

theorem Shows.congr {o' : Option (MemoryOpenedFile ι)} (hs : Shows K v o made φ s u)
    (hlive : v'.live = v.live) (hopened : ∀ fd, v'.opened fd = v.opened fd)
    (hheld : ∀ h, v'.Held o' h ↔ v.Held o h) (hknown : ∀ h, v.Known h → v'.Known h)
    (hback : ∀ h, v.Known h → v'.backingFd h = v.backingFd h) (hcalls : v.calls ≤ v'.calls) :
    Shows K v' o' made φ s u := by
  have hb (h : MemoryOpenedFile ι) (hh : v.Held o h) : v'.backingFd h = v.backingFd h :=
    hback h (hs.known h (hs.held h hh))
  refine ⟨hs.mirrors, fun h hh => hs.held h ((hheld h).mp hh), fun h hh => hknown h (hs.known h hh),
    fun fd => ?_, fun h hh => ?_, fun h hh => ?_, fun fd => (hopened fd).trans (hs.tracked fd),
    hs.table, fun h hh => (hs.named h hh).trans hcalls,
    fun fd d hd => (hs.young fd d hd).trans hcalls, hs.empty⟩
  · rw [hlive, hs.live]
    refine or_congr_right (exists_congr fun h => ?_)
    rw [hheld]
    exact and_congr_right fun hh => by rw [hb h hh]
  · have hh' := (hheld h).mp hh
    rw [hb h hh']
    exact hs.apart h hh'
  · have hh' := (hheld h).mp hh
    rw [hb h hh']
    exact hs.backing h hh'

theorem GivesUp.held_iff (hg : GivesUp v v' o) (h : MemoryOpenedFile ι) :
    v'.Held o h ↔ v.Held none h := by
  unfold Held
  simp only [referenced_iff, hg.inMap, hg.opened, reduceCtorEq, or_false]
  tauto

theorem GivesUp.shows (hg : GivesUp v v' o) (hs : Shows K v none made φ s u) :
    Shows K v' o made φ s u :=
  hs.congr hg.live hg.opened hg.held_iff hg.known hg.backingFd hg.calls

/-- The number of a later call is that of no description. -/
theorem Shows.young_ne (hs : Shows K v o made φ s u) {number : Nat} (hnumber : v.calls < number)
    (fd : Int) : s.table fd ≠ some number :=
  fun hd => absurd (hs.young fd number hd) (not_le.mpr hnumber)

theorem Shows.seen_ne (hs : Shows K v o made φ s u) {number : Nat} (hnumber : v.calls < number)
    (fd : Int) : u.files.table fd ≠ some number := by
  intro hd
  have hfd : fd ∈ u.numbers := hs.table fd (by simp [hd])
  exact hs.young_ne hnumber fd ((hs.mirrors.table fd hfd).trans hd)

/-- The kernel has made a file behind the program's back. -/
theorem Shows.create_mirrors (hs : Shows K v o made φ s u) (hfd : fd ∉ u.numbers) {number : Nat}
    (hnumber : v.calls < number) (flags : Flags) :
    Mirrors K φ made (· ∈ u.numbers) (s.create K fd number number flags) u.files := by
  refine hs.mirrors.behind (fun fd' hfd' => ?_) (fun fd' d hfd' hd => ?_) fun h' hh => ?_
  · rw [create_table, openAs_table, if_neg]
    rintro rfl
    exact hfd hfd'
  · rw [create_description, openAs_description, if_neg]
    rintro rfl
    exact hs.young_ne hnumber fd' hd
  · rw [create_content, if_neg]
    have hnamed := hs.named h' hh
    omega

theorem Made.held_iff (hm : Made v v' h fd) (h' : MemoryOpenedFile ι) :
    v'.Held none h' ↔ v.Held none h' ∨ h' = h := by
  unfold Held
  simp only [referenced_iff, hm.inMap, hm.opened, reduceCtorEq, or_false]
  tauto

theorem Made.shows (hm : Made v v' h fd) (hfd : 0 ≤ fd) (hs : Shows K v none made φ s u) :
    Shows K v' none (fun h' => made h' ∨ h' = h) (Function.update φ h v'.calls)
      (s.kernelCall K (.memfdCreate fd v'.calls)) u := by
  have hcalls : v.calls < v'.calls := by
    rw [hm.calls]
    exact Nat.lt_succ_self _
  have hnew : ¬ made h := fun hh => hm.unknown (hs.known h hh)
  have hout : fd ∉ u.numbers := fun hh => hm.fresh ((hs.live fd).mpr (Or.inl hh))
  have hheld := hm.held_iff
  have hold {h' : MemoryOpenedFile ι} (hh : v.Held none h') : v'.backingFd h' = v.backingFd h' :=
    hm.backingFd h' (hs.known h' (hs.held h' hh))
  have hne {h' : MemoryOpenedFile ι} (hh : v.Held none h') : h' ≠ h := by
    rintro rfl
    exact hnew (hs.held h' hh)
  have hlive {h' : MemoryOpenedFile ι} (hh : v.Held none h') : v.backingFd h' ∈ v.live :=
    (hs.live _).mpr (Or.inr ⟨h', hh, rfl⟩)
  have hkernel : s.kernelCall K (.memfdCreate fd v'.calls) =
      s.create K fd v'.calls v'.calls O_RDWR := if_neg (not_lt.mpr hfd)
  rw [hkernel]
  -- the new file becomes that of `h`
  refine ⟨(hs.create_mirrors hout hcalls O_RDWR).adopt hnew (fun h' hh => ?_) ?_,
    ?_, ?_, ?_, ?_, ?_, ?_, hs.table, ?_, ?_, ?_⟩
  · exact (lt_of_le_of_lt (hs.named h' hh) hcalls).ne
  · rw [create_content, if_pos rfl, hs.empty h hnew]
  · intro h' hh
    exact ((hheld h').mp hh).imp_left (hs.held h')
  · rintro h' (hh | rfl)
    · exact (hm.known h').mpr (Or.inl (hs.known h' hh))
    · exact (hm.known h').mpr (Or.inr rfl)
  · intro fd'
    rw [hm.live, Finset.mem_insert, hs.live]
    constructor
    · rintro (rfl | hn | ⟨h', hh, hb⟩)
      · exact Or.inr ⟨h, (hheld h).mpr (Or.inr rfl), hm.backing⟩
      · exact Or.inl hn
      · exact Or.inr ⟨h', (hheld h').mpr (Or.inl hh), (hold hh).trans hb⟩
    · rintro (hn | ⟨h', hh, hb⟩)
      · exact Or.inr (Or.inl hn)
      · rcases (hheld h').mp hh with hh | rfl
        · exact Or.inr (Or.inr ⟨h', hh, (hold hh).symm.trans hb⟩)
        · exact Or.inl (hb.symm.trans hm.backing)
  · intro h' hh
    rcases (hheld h').mp hh with hh | rfl
    · rw [hold hh]
      exact hs.apart h' hh
    · rw [hm.backing]
      exact hout
  · intro h' hh
    rcases (hheld h').mp hh with hh | rfl
    · rw [hold hh, create_fileAt, openAs_fileAt _ _ _ _ _ _ (hs.young_ne hcalls), if_neg,
        hs.backing h' hh, Function.update_of_ne (hne hh)]
      intro hb
      exact hm.fresh (hb ▸ hlive hh)
    · rw [hm.backing, create_fileAt, openAs_fileAt _ _ _ _ _ _ (hs.young_ne hcalls), if_pos rfl,
        Function.update_self]
  · exact fun fd' => (hm.opened fd').trans (hs.tracked fd')
  · rintro h' (hh | rfl)
    · have hne : h' ≠ h := by
        rintro rfl
        exact hnew hh
      rw [Function.update_of_ne hne]
      exact (hs.named h' hh).trans hcalls.le
    · rw [Function.update_self]
  · intro fd' d hd
    rw [create_table, openAs_table] at hd
    split_ifs at hd
    · cases hd
      exact le_rfl
    · exact (hs.young fd' d hd).trans hcalls.le
  · intro h' hh
    exact hs.empty h' fun hm => hh (Or.inl hm)

theorem Opened.held_iff (ho : Opened v v' h fd) (hr : v.referenced h = true)
    (hs : Shows K v none made φ s u) (h' : MemoryOpenedFile ι) :
    v'.Held none h' ↔ v.Held none h' := by
  have hmap : v'.inMap h' = v.inMap h' := by simp only [inMap, ho.world]
  unfold Held
  simp only [referenced_iff, hmap, ho.opened, reduceCtorEq, or_false]
  constructor
  · rintro (hm | ⟨fd', hh⟩)
    · exact Or.inl hm
    · split_ifs at hh
      · cases hh
        exact (referenced_iff h).mp hr
      · exact Or.inr ⟨fd', hh⟩
  · rintro (hm | ⟨fd', hh⟩)
    · exact Or.inl hm
    · by_cases hfd' : fd' = fd
      · -- a number that is not in use has no entry
        exact absurd (hfd' ▸ (hs.live fd').mpr (Or.inl (hs.opened_mem (by simp [hh])))) ho.fresh
      · exact Or.inr ⟨fd', by rw [if_neg hfd', hh]⟩

theorem Opened.shows (hK : LookupFlagsApart K) (ho : Opened v v' h fd) (hfd : 0 ≤ fd)
    (hr : v.referenced h = true) (flags : Flags) (hs : Shows K v none made φ s u) :
    Shows K v' none made φ
      (s.kernelCall K (.openBacking (v.backingFd h) (backingFlags flags) fd v'.calls))
      ⟨insert fd u.numbers, u.files.openAs K fd v'.calls h flags⟩ := by
  have hcalls : v.calls < v'.calls := by
    rw [ho.calls]
    exact Nat.lt_succ_self _
  have hheldh : v.Held none h := Or.inl hr
  have hback (h' : MemoryOpenedFile ι) : v'.backingFd h' = v.backingFd h' := by
    simp only [backingFd, ho.world]
  have hheld := ho.held_iff hr hs
  have hlive {h' : MemoryOpenedFile ι} (hh : v.Held none h') : v.backingFd h' ≠ fd := by
    intro he
    exact ho.fresh ((hs.live fd).mpr (Or.inr ⟨h', hh, he⟩))
  have hkernel : s.kernelCall K (.openBacking (v.backingFd h) (backingFlags flags) fd v'.calls) =
      s.openAs K fd v'.calls (φ h) (backingFlags flags) := by
    simp only [kernelCall, if_neg (not_lt.mpr hfd), hs.backing h hheldh]
  rw [hkernel]
  refine ⟨?_, ?_, ?_, ?_, ?_, ?_, ?_, ?_, ?_, ?_, ?_⟩
  · refine (hs.mirrors.openAs (hs.held h hheldh) fd v'.calls (hK.opens flags)
      (hK.io flags)).mono fun fd' hfd' => ?_
    exact (Finset.mem_insert.mp hfd').symm
  · exact fun h' hh => hs.held h' ((hheld h').mp hh)
  · intro h' hh
    have hk := hs.known h' hh
    rwa [Known, ho.world]
  · intro fd'
    simp only [ho.live, Finset.mem_insert, hs.live, hheld, hback]
    tauto
  · intro h' hh
    rw [hback, Finset.mem_insert]
    rintro (hb | hn)
    · exact hlive ((hheld h').mp hh) hb
    · exact hs.apart h' ((hheld h').mp hh) hn
  · intro h' hh
    have hh' := (hheld h').mp hh
    rw [hback, openAs_fileAt _ _ _ _ _ _ (hs.young_ne hcalls), if_neg (hlive hh'),
      hs.backing h' hh']
  · intro fd'
    rw [ho.opened, openAs_fileAt _ _ _ _ _ _ (hs.seen_ne hcalls), hs.tracked]
  · intro fd' hfd'
    rw [openAs_table] at hfd'
    rw [Finset.mem_insert]
    by_cases he : fd' = fd
    · exact Or.inl he
    · rw [if_neg he] at hfd'
      exact Or.inr (hs.table fd' hfd')
  · exact fun h' hh => (hs.named h' hh).trans hcalls.le
  · intro fd' d hd
    rw [openAs_table] at hd
    split_ifs at hd
    · cases hd
      exact le_rfl
    · exact (hs.young fd' d hd).trans hcalls.le
  · intro h' hh
    rw [openAs_content, if_neg]
    · exact hs.empty h' hh
    · rintro rfl
      exact hh (hs.held _ hheldh)

end Vfs

/-- The program gets the number `fd` for a node, if the open has not failed. -/
def Descriptors.opens (K : FileKernel Flags P C Q R) (u : Descriptors ι P C) (fd : Int)
    (number : Nat) (h : MemoryOpenedFile ι) (flags : Flags) : Descriptors ι P C :=
  if 0 ≤ fd then ⟨insert fd u.numbers, u.files.openAs K fd number h flags⟩ else u

namespace Vfs

variable {v v' : Vfs ι} {o : Option (MemoryOpenedFile ι)} {made : MemoryOpenedFile ι → Prop}
  {φ : MemoryOpenedFile ι → Nat} {s : OpenFiles Nat Nat Flags P C} {u : Descriptors ι P C}
  {h : MemoryOpenedFile ι} {fd : Int}

theorem openedFound_shows (hK : LookupFlagsApart K) (hs : Shows K v none made φ s u)
    (f : MemoryRef ι) (node : NodeId) (flags : Flags) (path : PathBuf)
    (hr : v.referenced ⟨f, node⟩ = true) :
    let r := v.openedFound f node flags path
    Shows K r.2 none made φ ((openFoundCalls (v.world.state f) node flags).foldl (.kernelCall K) s)
      (u.opens K r.1 r.2.calls ⟨f, node⟩ flags) := by
  intro r
  rcases openedFound_asks v f node flags path with ⟨hneg, hg, hc⟩ | ⟨hfd, ho, hc⟩
  · rw [foldl_refused K s hc, Descriptors.opens, if_neg (not_le.mpr hneg)]
    exact hg.shows hs
  · rw [hc, Descriptors.opens, if_pos hfd]
    exact ho.shows hK hfd hr flags hs

theorem put_state (w : World ι) (f : MemoryRef ι) (m : MemoryState) : (w.put f m).state f = m := by
  simp [World.state, World.put]

theorem openedAt_shows (hK : LookupFlagsApart K) (hv : v.WF) (hs : Shows K v none made φ s u)
    (f : MemoryRef ι) (existing : Option NodeId) (target : Option (NodeId × FileName))
    (flags : Flags) (mode : Mode) (path : PathBuf)
    (hr : ∀ node, existing = some node → v.referenced ⟨f, node⟩ = true) :
    let r := v.openedAt f existing target flags mode path
    ∃ made' φ', Shows K r.2 none made' φ'
      ((openCalls (v.world.state f) existing target flags mode).foldl (.kernelCall K) s)
      (u.opens K r.1 r.2.calls (v.landed (f, existing)) flags) := by
  intro r
  have hrefused {m : MemoryState} (hm : openAt (v.world.state f) existing target flags mode =
      (⟨-1, none⟩, m)) (hg : GivesUp v (v.setWorld (v.world.put f m)) none) :
      Shows K r.2 none made φ s (u.opens K r.1 r.2.calls (v.landed (f, existing)) flags) := by
    have hr : r = (-1, v.setWorld (v.world.put f m)) := by
      show v.openedAt f existing target flags mode path = _
      rw [openedAt, hm]
      rfl
    rw [hr, Descriptors.opens, if_neg (by decide : ¬ (0 : Int) ≤ -1)]
    exact hg.shows hs
  have hself : GivesUp v (v.setWorld (v.world.put f (v.world.state f))) none :=
    put_givesUp v f rfl rfl le_rfl
  cases existing with
  | some node =>
    by_cases hexcl : (flags &&& (O_CREAT ||| O_EXCL) == O_CREAT ||| O_EXCL) = true
    · have hc : openCalls (v.world.state f) (some node) target flags mode = [] := if_pos hexcl
      rw [hc]
      exact ⟨made, φ, hrefused (if_pos hexcl) hself⟩
    · have hc : openCalls (v.world.state f) (some node) target flags mode =
          openFoundCalls (v.world.state f) node flags := if_neg hexcl
      have he : openAt (v.world.state f) (some node) target flags mode =
          openFound (v.world.state f) node flags := if_neg hexcl
      have hr' : r = v.openedFound f node flags path := by
        show v.openedAt f (some node) target flags mode path = _
        rw [openedAt, he]
        rfl
      rw [hc, hr']
      exact ⟨made, φ, openedFound_shows hK hs f node flags path (hr node rfl)⟩
  | none =>
    by_cases hcreat : flags.has O_CREAT = true
    · have hasks := createAt_asks hv f target .file mode
      cases hat : createAt (v.world.state f) target .file mode with
      | mk created m =>
      rw [hat] at hasks
      rcases hasks with ⟨rfl, hg, hnone⟩ | ⟨fd, rfl, hfd, hm, hcreate⟩
      · have he : openAt (v.world.state f) none target flags mode = (⟨-1, none⟩, m) := by
          simp only [openAt, openResolvedNode, hcreat, if_true, hat]
        have hc : openCalls (v.world.state f) none target flags mode =
            createCalls (v.world.state f) target := by
          simp only [openCalls, hcreat, if_true, hat, List.append_nil]
        rw [hc, foldl_refused K s hnone]
        exact ⟨made, φ, hrefused he hg⟩
      · have he : openAt (v.world.state f) none target flags mode =
            openFound m v.world.sys.nextNodeId flags := by
          simp only [openAt, openResolvedNode, hcreat, if_true, hat]
        have hc : openCalls (v.world.state f) none target flags mode =
            createCalls (v.world.state f) target ++
              openFoundCalls m v.world.sys.nextNodeId flags := by
          simp only [openCalls, hcreat, if_true, hat]
        have hr' : r = openedFound (v.setWorld (v.world.put f m)) f v.world.sys.nextNodeId flags
            path := by
          show v.openedAt f none target flags mode path = _
          rw [openedAt, he, openedFound]
          show (v.setWorld (v.world.put f _)).trackOpen _ path =
            (v.setWorld ((v.world.put f m).put f
                (openFound ((v.world.put f m).state f) _ _).2)).trackOpen
              (openedFile f (openFound ((v.world.put f m).state f) _ _).1) path
          rw [put_state, World.put_put]
        have hmade := hm.shows hfd hs
        have hopen := openedFound_shows hK hmade f v.world.sys.nextNodeId flags path
          ((referenced_iff _).mpr (Or.inl ((hm.inMap _).mpr (Or.inr rfl))))
        rw [← hr'] at hopen
        rw [hc, hcreate, List.foldl_append]
        have hstate : RootVFS.world (v.setWorld (v.world.put f m)) = v.world.put f m := rfl
        rw [hstate, put_state] at hopen
        exact ⟨_, _, hopen⟩
    · have hc : openCalls (v.world.state f) none target flags mode = [] := if_neg hcreat
      rw [hc]
      exact ⟨made, φ, hrefused (if_neg hcreat) hself⟩

theorem MakeAsks.shows (hv : v.WF) {op : VfsOp} (ha : MakeAsks v op v')
    (hs : Shows K v none made φ s u) :
    ∃ made' φ', Shows K v' none made' φ' ((v.kernelCalls op).foldl (.kernelCall K) s) u := by
  rcases ha with ⟨hc, rfl⟩ | ⟨f, target, mode, hc, rfl⟩
  · rw [hc]
    exact ⟨made, φ, hs⟩
  · rw [hc]
    rcases createAt_asks hv f target .dir mode with ⟨-, hg, hnone⟩ | ⟨fd, -, hfd, hm, hcreate⟩
    · rw [foldl_refused K s hnone]
      exact ⟨made, φ, hg.shows hs⟩
    · rw [hcreate]
      exact ⟨_, _, hm.shows hfd hs⟩

end Vfs

/-- What a hook does to the descriptors of the program, when each open goes straight to the
node that it has found or made. -/
def Descriptors.hook (K : FileKernel Flags P C Q R) (u : Descriptors ι P C) (v : Vfs ι) :
    HookCall → Descriptors ι P C
  | .vfs op =>
    match v.found op with
    | none => u
    | some t =>
      u.opens K (v.answered op) (v.effect (.vfs op)).1.calls (v.landed t) (Vfs.openFlags op)
  | .close fd => ⟨u.numbers.erase fd, u.files.close fd⟩
  | .dup oldfd newfd =>
    if oldfd ∈ u.numbers ∧ 0 ≤ newfd then ⟨insert newfd u.numbers, u.files.dup oldfd newfd⟩ else u

/-- What it does to the files that the kernel holds open, destructors apart. -/
def OpenFiles.hook (K : FileKernel Flags P C Q R) (s : OpenFiles Nat Nat Flags P C) (v : Vfs ι) :
    HookCall → OpenFiles Nat Nat Flags P C
  | .vfs op => (v.kernelCalls op).foldl (.kernelCall K) s
  | .close _ => s
  | .dup oldfd newfd => if oldfd ∈ v.live ∧ 0 ≤ newfd then s.dup oldfd newfd else s

namespace Vfs

variable {v v' : Vfs ι} {o : Option (MemoryOpenedFile ι)} {made : MemoryOpenedFile ι → Prop}
  {φ : MemoryOpenedFile ι → Nat} {s : OpenFiles Nat Nat Flags P C} {u : Descriptors ι P C}
  {h : MemoryOpenedFile ι} {fd oldfd newfd : Int}

theorem effect_vfs_shows (hK : LookupFlagsApart K) (hv : v.Ready) (op : VfsOp)
    (hs : Shows K v none made φ s u) :
    ∃ made' φ', Shows K (v.effect (.vfs op)).1 (v.effect (.vfs op)).2 made' φ'
      (s.hook K v (.vfs op)) (u.hook K v (.vfs op)) := by
  have hstay (hans : v.answered op = -1) : u.hook K v (.vfs op) = u := by
    simp only [Descriptors.hook, hans, Descriptors.opens]
    cases v.found op <;> rfl
  rw [hv.effect_vfs_snd, OpenFiles.hook]
  rcases effect_vfs_asks hv op with ⟨ha, hrem⟩ | ⟨hans, ha, hrem⟩ | ⟨hans, hc, hg⟩
  · rw [hrem]
    rcases ha with ⟨hc, he⟩ | ⟨f, existing, target, mode, path, hfound, href, hc, he⟩
    · obtain ⟨hans, hv'⟩ := Prod.mk.inj he
      rw [hstay hans, hc, hv']
      exact ⟨made, φ, hs⟩
    · obtain ⟨hans, hv'⟩ := Prod.mk.inj he
      rw [Descriptors.hook, hfound, hc, hv', hans]
      exact openedAt_shows hK hv.wf hs f existing target (openFlags op) mode path href
  · rw [hrem, hstay hans]
    exact ha.shows hv.wf hs
  · rw [hstay hans, hc]
    exact ⟨made, φ, hg.shows hs⟩

theorem closed_held_iff (v : Vfs ι) (fd : Int) (h : MemoryOpenedFile ι) :
    Held (v.closed fd) (v.opened fd) h ↔ v.Held none h := by
  have hmap : (v.closed fd).inMap h = v.inMap h := rfl
  unfold Held
  simp only [referenced_iff, hmap, closed_opened, reduceCtorEq, or_false, or_assoc]
  refine or_congr_right ⟨?_, ?_⟩
  · rintro (⟨fd', hh⟩ | hh)
    · split_ifs at hh
      exact ⟨fd', hh⟩
    · exact ⟨fd, hh⟩
  · rintro ⟨fd', hh⟩
    by_cases he : fd' = fd
    · exact Or.inr (he ▸ hh)
    · exact Or.inl ⟨fd', by rw [if_neg he, hh]⟩

theorem effect_close_shows (hp : ¬ v.Private fd) (hs : Shows K v none made φ s u) :
    Shows K (v.effect (.close fd)).1 (v.effect (.close fd)).2 made φ s
      (u.hook K v (.close fd)) := by
  have hmirrors : Mirrors K φ made (· ∈ u.numbers.erase fd) s (u.files.close fd) :=
    (hs.mirrors.close fd).mono fun fd' hfd' => (Finset.mem_erase.mp hfd').symm
  have htable (fd' : Int) (hfd' : (u.files.close fd).table fd' ≠ none) :
      fd' ∈ u.numbers.erase fd := by
    rw [close_table] at hfd'
    split_ifs at hfd' with he
    · exact absurd rfl hfd'
    · exact Finset.mem_erase.mpr ⟨he, hs.table fd' hfd'⟩
  by_cases hfd : fd ∈ v.live
  · rw [effect_close hfd]
    have hheld := v.closed_held_iff fd
    have hne {h : MemoryOpenedFile ι} (hh : v.Held none h) : v.backingFd h ≠ fd :=
      fun hb => hp ⟨h, hh.resolve_right (by simp), hb⟩
    refine ⟨hmirrors, fun h hh => hs.held h ((hheld h).mp hh), hs.known, fun fd' => ?_,
      fun h hh hb => hs.apart h ((hheld h).mp hh) (Finset.mem_of_mem_erase hb),
      fun h hh => hs.backing h ((hheld h).mp hh), fun fd' => ?_, htable, hs.named, hs.young,
      hs.empty⟩
    · show fd' ∈ (v.closed fd).live ↔ fd' ∈ u.numbers.erase fd ∨ _
      rw [closed_live, Finset.mem_erase, Finset.mem_erase, hs.live]
      constructor
      · rintro ⟨he, hn | ⟨h, hh, hb⟩⟩
        · exact Or.inl ⟨he, hn⟩
        · exact Or.inr ⟨h, (hheld h).mpr hh, hb⟩
      · rintro (⟨he, hn⟩ | ⟨h, hh, hb⟩)
        · exact ⟨he, Or.inl hn⟩
        · have hh' := (hheld h).mp hh
          exact ⟨fun he => hne hh' (hb.trans he), Or.inr ⟨h, hh', hb⟩⟩
    · show (v.closed fd).opened fd' = (u.files.close fd).fileAt fd'
      rw [closed_opened, close_fileAt, hs.tracked]
  · rw [effect_close_of_notMem hfd]
    have hout : u.numbers.erase fd = u.numbers :=
      Finset.erase_eq_of_notMem fun hh => hfd ((hs.live fd).mpr (Or.inl hh))
    rw [hout] at hmirrors htable
    have hsame : u.hook K v (.close fd) = ⟨u.numbers, u.files.close fd⟩ := by
      rw [Descriptors.hook, hout]
    rw [hsame]
    refine ⟨hmirrors, hs.held, hs.known, hs.live, hs.apart, hs.backing, fun fd' => ?_, htable,
      hs.named, hs.young, hs.empty⟩
    show v.opened fd' = (u.files.close fd).fileAt fd'
    rw [close_fileAt, hs.tracked]
    split_ifs with he
    · have hnone : u.files.table fd = none := by
        by_contra hne
        exact hfd ((hs.live fd).mpr (Or.inl (hs.table fd hne)))
      rw [he, fileAt, hnone]
      rfl
    · rfl

theorem duplicated_held_iff (v : Vfs ι) (oldfd newfd : Int) (h : MemoryOpenedFile ι) :
    Held (v.duplicated oldfd newfd) (v.opened newfd) h ↔ v.Held none h := by
  unfold Held
  simp only [referenced_iff, duplicated_inMap, duplicated_opened, reduceCtorEq, or_false,
    or_assoc]
  refine or_congr_right ⟨?_, ?_⟩
  · rintro (⟨fd', hh⟩ | hh)
    · split_ifs at hh
      · exact ⟨oldfd, hh⟩
      · exact ⟨fd', hh⟩
    · exact ⟨newfd, hh⟩
  · rintro ⟨fd', hh⟩
    by_cases he : fd' = newfd
    · exact Or.inr (he ▸ hh)
    · exact Or.inl ⟨fd', by rw [if_neg he, hh]⟩

theorem effect_dup_shows (hold : ¬ v.Private oldfd) (hnew : ¬ v.Private newfd)
    (hs : Shows K v none made φ s u) :
    Shows K (v.effect (.dup oldfd newfd)).1 (v.effect (.dup oldfd newfd)).2 made φ
      (s.hook K v (.dup oldfd newfd)) (u.hook K v (.dup oldfd newfd)) := by
  have hmem : oldfd ∈ v.live ↔ oldfd ∈ u.numbers :=
    ⟨fun hh => hs.mem_numbers hh hold, fun hh => (hs.live oldfd).mpr (Or.inl hh)⟩
  by_cases hdup : oldfd ∈ v.live ∧ 0 ≤ newfd
  · have hdup' : oldfd ∈ u.numbers ∧ 0 ≤ newfd := hdup.imp_left hmem.mp
    rw [effect_dup hdup, OpenFiles.hook, if_pos hdup, Descriptors.hook, if_pos hdup']
    have hheld := v.duplicated_held_iff oldfd newfd
    have hknown (h : MemoryOpenedFile ι) : Known (v.duplicated oldfd newfd) h ↔ v.Known h := by
      unfold Known
      rw [duplicated_world]
      rfl
    have hcalls : calls (v.duplicated oldfd newfd) = v.calls := by
      rw [calls, duplicated_world]
      rfl
    have hne {h : MemoryOpenedFile ι} (hh : v.Held none h) : v.backingFd h ≠ newfd :=
      fun hb => hnew ⟨h, hh.resolve_right (by simp), hb⟩
    refine ⟨?_, fun h hh => hs.held h ((hheld h).mp hh), fun h hh => (hknown h).mpr (hs.known h hh),
      fun fd => ?_, fun h hh => ?_, fun h hh => ?_, fun fd => ?_, fun fd hfd => ?_,
      fun h hh => hcalls ▸ hs.named h hh, fun fd d hd => ?_, hs.empty⟩
    · exact (hs.mirrors.dup hdup'.1 newfd).mono fun fd hfd => (Finset.mem_insert.mp hfd).symm
    · simp only [duplicated_live, Finset.mem_insert, hs.live, hheld, duplicated_backingFd, or_assoc]
    · rw [duplicated_backingFd, Finset.mem_insert]
      rintro (hb | hn)
      · exact hne ((hheld h).mp hh) hb
      · exact hs.apart h ((hheld h).mp hh) hn
    · have hh' := (hheld h).mp hh
      rw [duplicated_backingFd, dup_fileAt, if_neg (hne hh'), hs.backing h hh']
    · rw [duplicated_opened, dup_fileAt, hs.tracked, hs.tracked]
    · rw [dup_table] at hfd
      rw [Finset.mem_insert]
      by_cases he : fd = newfd
      · exact Or.inl he
      · rw [if_neg he] at hfd
        exact Or.inr (hs.table fd hfd)
    · rw [hcalls]
      rw [dup_table] at hd
      split_ifs at hd
      · exact hs.young oldfd d hd
      · exact hs.young fd d hd
  · have hdup' : ¬ (oldfd ∈ u.numbers ∧ 0 ≤ newfd) := fun hh => hdup (hh.imp_left hmem.mpr)
    rw [effect_dup_of_not hdup, OpenFiles.hook, if_neg hdup, Descriptors.hook, if_neg hdup']
    exact hs

theorem closeHook_of_untracked (hno : v.fds[fd]? = none) (hfd : fd ∈ v.live) :
    closeHook v.live.card fd v = v.closed fd := by
  obtain ⟨n, hn⟩ := Nat.exists_eq_add_one.mpr (Finset.card_pos.mpr ⟨fd, hfd⟩)
  have hopened : v.opened fd = none := by
    rw [opened, hno]
    rfl
  rw [hn]
  show discard (closeHook n) (v.effect (.close fd)) = _
  rw [effect_close hfd, hopened]
  rfl

/-- The node that is dropped takes its backing file with it. -/
theorem Shows.discard (hv : v.WF) (hs : Shows K v o made φ s u) :
    Shows K (discard (closeHook v.live.card) (v, o)) none made φ s u := by
  have hkeep (hheld : ∀ h, v.Held none h ↔ v.Held o h) : Shows K v none made φ s u :=
    hs.congr rfl (fun _ => rfl) hheld (fun _ hh => hh) (fun _ _ => rfl) le_rfl
  cases o with
  | none => exact hs
  | some h =>
    by_cases hr : v.referenced h = true
    · have he : Vfs.discard (closeHook v.live.card) (v, some h) = v := if_pos hr
      rw [he]
      refine hkeep fun h' => ⟨fun hh => Or.inl (hh.resolve_right (by simp)), ?_⟩
      rintro (hh | hh)
      · exact Or.inl hh
      · cases hh
        exact Or.inl hr
    · have hheldh : v.Held (some h) h := Or.inr rfl
      have hlive : v.backingFd h ∈ v.live := (hs.live _).mpr (Or.inr ⟨h, hheldh, rfl⟩)
      have hno : v.opened (v.backingFd h) = none := by
        by_contra hne
        exact hs.apart h hheldh (hs.opened_mem hne)
      have hfds : v.fds[v.backingFd h]? = none := by
        cases hi : v.fds[v.backingFd h]? with
        | none => rfl
        | some info =>
          obtain ⟨g, hg, -⟩ := hv.handle _ info hi
          simp [opened, hi, hg] at hno
      have he : Vfs.discard (closeHook v.live.card) (v, some h) = v.closed (v.backingFd h) := by
        rw [← closeHook_of_untracked hfds hlive]
        exact if_neg hr
      rw [he]
      have hopened (fd : Int) : opened (v.closed (v.backingFd h)) fd = v.opened fd := by
        rw [closed_opened]
        split_ifs with hfd
        · rw [hfd, hno]
        · rfl
      have hheld (h' : MemoryOpenedFile ι) :
          Held (v.closed (v.backingFd h)) none h' ↔ v.referenced h' = true := by
        have hmap : (v.closed (v.backingFd h)).inMap h' = v.inMap h' := rfl
        unfold Held
        simp only [referenced_iff, hmap, hopened, reduceCtorEq, or_false]
      have hne {h' : MemoryOpenedFile ι} (hh : v.referenced h' = true) :
          v.backingFd h' ≠ v.backingFd h := by
        intro hb
        exact hr (hs.backing_injective (Or.inl hh) hheldh hb ▸ hh)
      refine ⟨hs.mirrors, fun h' hh => hs.held h' (Or.inl ((hheld h').mp hh)), hs.known,
        fun fd => ?_, fun h' hh => hs.apart h' (Or.inl ((hheld h').mp hh)),
        fun h' hh => hs.backing h' (Or.inl ((hheld h').mp hh)),
        fun fd => (hopened fd).trans (hs.tracked fd), hs.table, hs.named, hs.young, hs.empty⟩
      rw [closed_live, Finset.mem_erase, hs.live]
      constructor
      · rintro ⟨hfd, hn | ⟨h', hh | hh, hb⟩⟩
        · exact Or.inl hn
        · exact Or.inr ⟨h', (hheld h').mpr hh, hb⟩
        · cases hh
          exact absurd hb.symm hfd
      · rintro (hn | ⟨h', hh, hb⟩)
        · refine ⟨?_, Or.inl hn⟩
          rintro rfl
          exact hs.apart h hheldh hn
        · have hh' := (hheld h').mp hh
          exact ⟨fun hfd => hne hh' (hb.trans hfd), Or.inr ⟨h', Or.inl hh', hb⟩⟩

theorem Shows.keep (hs : Shows K v o made φ s u) : Shows K v o made φ (s.keep v.live) u := by
  have htable {fd : Int} (hfd : fd ∈ v.live) : (s.keep v.live).table fd = s.table fd :=
    if_pos hfd
  refine ⟨?_, hs.held, hs.known, hs.live, hs.apart, fun h hh => ?_, hs.tracked, hs.table, hs.named,
    fun fd d hd => ?_, hs.empty⟩
  · exact hs.mirrors.behind (fun fd hfd => htable ((hs.live fd).mpr (Or.inl hfd)))
      (fun _ _ _ _ => rfl) fun _ _ => rfl
  · rw [keep_fileAt, if_pos ((hs.live _).mpr (Or.inr ⟨h, hh, rfl⟩)), hs.backing h hh]
  · rw [keep_table] at hd
    split_ifs at hd
    exact hs.young fd d hd

end Vfs

end SandboxVfs
