import SandboxVfs.FileContents
import SandboxVfs.Library.Simulations
import SandboxVfs.TreeRuns

/-! Whole programs: hooked calls, and calls that go past the file system to the kernel. -/

namespace SandboxVfs

open MemoryFS OpenFiles

/-- The kernel, as far as backing files need it. `Q` are the calls on the contents of a file,
`read`, `write` and the like, and its own `getdents64` is one of them. -/
structure BackingKernel (P C Q R : Type) extends FileKernel Flags P C Q R where
  fstat : C → Stat
  getdents64 : Bool → Int → Q

variable {ι P C Q R : Type} [DecidableEq ι] (K : BackingKernel P C Q R)

/-- The calls of `Q` have no hook. -/
inductive ProgramCall (Q : Type) where
  | hook (c : HookCall)
  | access (path : Path) (mode : Int)
  | stat (path : Path)
  | fstat (fd : Int)
  | io (fd : Int) (q : Q)

/-- The numbers that a call names, other than as the start of a lookup. -/
def ProgramCall.numbers : ProgramCall Q → List Int
  | .hook (.vfs (.getdents64 fd _ _)) => [fd]
  | .hook (.close fd) => [fd]
  | .hook (.dup oldfd newfd) => [oldfd, newfd]
  | .fstat fd | .io fd _ => [fd]
  | _ => []

/-- The answer of `RootVFS`, or that of the kernel; a number of the program may also be open
on nothing, or on a file of somebody else. -/
inductive Answer (R : Type) where
  | vfs (a : VfsAnswer)
  | kernel (r : R)
  | badFd
  | foreign
  deriving DecidableEq

namespace Vfs

def hookAnswer (v : Vfs ι) : HookCall → VfsAnswer
  | .vfs op => (v.callOp World.elsewhere op).1
  | .close fd => .status (if fd ∈ v.live then 0 else -1)
  | .dup oldfd newfd => .status (if oldfd ∈ v.live ∧ 0 ≤ newfd then newfd else -1)

/-- A `getdents64` that `RootVFS` has no answer to, or panics on, is the kernel's. -/
def passedOn (v : Vfs ι) : HookCall → Option (Int × Q)
  | .vfs (.getdents64 fd dirpIsNull count) =>
    match v.getdents64 fd dirpIsNull count with
    | .returned (some _, _) => none
    | .returned (none, _) | .panicked => some (fd, K.getdents64 dirpIsNull count)
  | _ => none

end Vfs

structure Machine (ι P C : Type) where
  process : Process ι
  files : OpenFiles Nat Nat Flags P C

structure Program (ι P C : Type) where
  process : Process ι
  seen : Descriptors ι P C

namespace Machine

/-- The process with a kernel that reports what it has in its files. -/
def reporting (m : Machine ι P C) : Vfs ι :=
  let w := m.process.vfs.world
  let fstat n fd :=
    match m.files.fileAt fd with
    | none => w.sys.kernel.fstat n fd
    | some f => K.fstat (m.files.content f)
  m.process.vfs.setWorld { w with sys := { w.sys with kernel := { w.sys.kernel with fstat } } }

def io (m : Machine ι P C) (fd : Int) (q : Q) : Answer R × Machine ι P C :=
  match m.files.io K.toFileKernel fd q with
  | none => (if fd ∈ m.process.vfs.live then .foreign else .badFd, m)
  | some r => (.kernel r.1, { m with files := r.2 })

/-- `none` is a call that never returns. A backing file has no entry in the table, so two
rounds of the hook of `fstat` are enough (`Sim.fstat`). -/
def call (m : Machine ι P C) : ProgramCall Q → Option (Answer R × Machine ι P C)
  | .hook c =>
    match m.process.vfs.passedOn K c with
    | some t => some (m.io K t.1 t.2)
    | none =>
      (m.process.call c).map fun p =>
        (.vfs (m.process.vfs.hookAnswer c),
          ⟨p, (m.files.hook K.toFileKernel m.process.vfs c).keep p.vfs.live⟩)
  | .access path mode => some (.vfs (.status (m.process.vfs.access path mode)), m)
  | .stat path => some (.vfs (.stat ((m.reporting K).stat path)), m)
  | .fstat fd => ((m.reporting K).fstatHook 2 fd).map fun st => (.vfs (.stat st), m)
  | .io fd q => some (m.io K fd q)

/-- The program leaves the numbers of the backing files alone. -/
def Allows (m : Machine ι P C) (c : ProgramCall Q) : Prop :=
  ∀ fd ∈ c.numbers, ¬ m.process.vfs.Private fd

/-- The state before the first call: `others` are in use, each node has an empty memfd, and
nothing else is open. -/
structure Fresh (m : Machine ι P C) (others : Finset Int) (φ : MemoryOpenedFile ι → Nat) :
    Prop where
  ready : m.process.vfs.Ready
  free : m.process.fdsHeld = false
  fds : ∀ fd : Int, m.process.vfs.fds[fd]? = none
  live : ∀ fd, fd ∈ m.process.vfs.live ↔ fd ∈ others ∨ m.process.vfs.Private fd
  apart : ∀ fd ∈ others, ¬ m.process.vfs.Private fd
  backing : ∀ h, m.process.vfs.referenced h = true →
    m.files.fileAt (m.process.vfs.backingFd h) = some (φ h) ∧ φ h ≤ m.process.vfs.calls ∧
      m.files.content (φ h) = K.empty
  injective : ∀ h h', m.process.vfs.referenced h = true → m.process.vfs.referenced h' = true →
    φ h = φ h' → h = h'
  table : ∀ fd d, m.files.table fd = some d → m.process.vfs.Private fd ∧ d ≤ m.process.vfs.calls

def program (m : Machine ι P C) (others : Finset Int) : Program ι P C :=
  ⟨m.process, others, ⟨fun _ => none, fun _ => none, fun _ => K.empty⟩⟩

end Machine

namespace Program

/-- What a node is, with the contents that the program has put there. -/
def statOf (p : Program ι P C) (h : MemoryOpenedFile ι) : Option Stat :=
  let w := p.process.vfs.world
  let fstat _ _ := K.fstat (p.seen.files.content h)
  ((w.fs h.nodes.index).heap h.node).map
    ((w.fs h.nodes.index).statNode { w.sys with kernel := { w.sys.kernel with fstat } })

def stat (p : Program ι P C) (path : Path) : Option Stat :=
  (p.process.vfs.foundAt (p.process.vfs.resolvePath path)).bind fun t =>
    t.2.bind fun node => p.statOf K ⟨t.1, node⟩

def fstat (p : Program ι P C) (fd : Int) : Option Stat :=
  if fd ∈ p.seen.numbers then
    match p.seen.files.fileAt fd with
    | none => some (p.process.vfs.world.sys.kernel.fstat p.process.vfs.calls fd)
    | some h => p.statOf K h
  else none

def io (p : Program ι P C) (fd : Int) (q : Q) : Answer R × Program ι P C :=
  match p.seen.files.io K.toFileKernel fd q with
  | none => (if fd ∈ p.seen.numbers then .foreign else .badFd, p)
  | some r => (.kernel r.1, { p with seen := { p.seen with files := r.2 } })

def call (p : Program ι P C) : ProgramCall Q → Option (Answer R × Program ι P C)
  | .hook c =>
    match p.process.vfs.passedOn K c with
    | some t => some (p.io K t.1 t.2)
    | none =>
      (p.process.call c).map fun q =>
        (.vfs (p.process.vfs.hookAnswer c), ⟨q, p.seen.hook K.toFileKernel p.process.vfs c⟩)
  | .access path mode => some (.vfs (.status (p.process.vfs.access path mode)), p)
  | .stat path => some (.vfs (.stat (p.stat K path)), p)
  | .fstat fd => some (.vfs (.stat (p.fstat K fd)), p)
  | .io fd q => some (p.io K fd q)

end Program

namespace Machine

variable {K} {m : Machine ι P C} {p : Program ι P C} {fd : Int} {h : MemoryOpenedFile ι}

variable (K) in
/-- The kernel's files are those that the program sees. -/
structure Sim (m : Machine ι P C) (p : Program ι P C) : Prop where
  process : p.process = m.process
  free : m.process.fdsHeld = false
  ready : m.process.vfs.Ready
  closed : ∀ fd, m.files.table fd ≠ none → fd ∈ m.process.vfs.live
  shows : ∃ made φ, m.process.vfs.Shows K.toFileKernel none made φ m.files p.seen

theorem Fresh.sim {others : Finset Int} {φ : MemoryOpenedFile ι → Nat}
    (hm : m.Fresh K others φ) : Sim K m (m.program K others) := by
  have hheld (h : MemoryOpenedFile ι) :
      m.process.vfs.Held none h ↔ m.process.vfs.referenced h = true := by
    simp [Vfs.Held]
  have hopened (fd : Int) : m.process.vfs.opened fd = none := by
    rw [Vfs.opened, hm.fds]
    rfl
  refine ⟨rfl, hm.free, hm.ready, fun fd hfd => ?_,
    fun h => m.process.vfs.referenced h = true, φ, ?_⟩
  · obtain ⟨d, hd⟩ := Option.ne_none_iff_exists'.mp hfd
    exact (hm.live fd).mpr (Or.inr (hm.table fd d hd).1)
  refine ⟨⟨fun fd hfd => ?_, fun fd d _ hd => absurd hd (by simp [program]),
    fun h hh => (hm.backing h hh).2.2, hm.injective⟩, fun h hh => (hheld h).mp hh, fun h hh => ?_,
    fun fd => ?_, fun h hh hb => hm.apart _ hb ⟨h, (hheld h).mp hh, rfl⟩,
    fun h hh => (hm.backing h ((hheld h).mp hh)).1, hopened, fun fd hfd => absurd rfl hfd,
    fun h hh => (hm.backing h hh).2.1, fun fd d hd => (hm.table fd d hd).2, fun _ _ => rfl⟩
  · by_contra hne
    obtain ⟨d, hd⟩ := Option.ne_none_iff_exists'.mp hne
    exact hm.apart fd hfd (hm.table fd d hd).1
  · rcases (Vfs.referenced_iff h).mp hh with hin | ⟨fd, ho⟩
    · exact hm.ready.wf.known_of_inMap hin
    · exact hm.ready.wf.known_of_opened ho
  · rw [hm.live]
    refine or_congr_right (exists_congr fun h => ?_)
    rw [hheld]

theorem Sim.hooked (hK : LookupFlagsApart K.toFileKernel) (hs : Sim K m p) {c : HookCall}
    (hok : m.Allows (ProgramCall.hook (Q := Q) c)) :
    Sim K
      ⟨⟨m.process.vfs.hookStep c, false⟩,
        (m.files.hook K.toFileKernel m.process.vfs c).keep (m.process.vfs.hookStep c).live⟩
      ⟨⟨m.process.vfs.hookStep c, false⟩, p.seen.hook K.toFileKernel m.process.vfs c⟩ := by
  obtain ⟨made, φ, hshows⟩ := hs.shows
  have heff : ∃ made' φ', Vfs.Shows K.toFileKernel (m.process.vfs.effect c).1
      (m.process.vfs.effect c).2 made' φ' (m.files.hook K.toFileKernel m.process.vfs c)
      (p.seen.hook K.toFileKernel m.process.vfs c) := by
    cases c with
    | vfs op => exact Vfs.effect_vfs_shows hK hs.ready op hshows
    | close fd =>
      exact ⟨made, φ, Vfs.effect_close_shows (hok fd (by simp [ProgramCall.numbers])) hshows⟩
    | dup oldfd newfd =>
      exact ⟨made, φ, Vfs.effect_dup_shows (hok oldfd (by simp [ProgramCall.numbers]))
        (hok newfd (by simp [ProgramCall.numbers])) hshows⟩
  obtain ⟨made', φ', heff⟩ := heff
  refine ⟨rfl, rfl, Vfs.hookStep_ready hs.ready c, fun fd hfd => ?_, made', φ', ?_⟩
  · change ((m.files.hook K.toFileKernel m.process.vfs c).keep
      (m.process.vfs.hookStep c).live).table fd ≠ none at hfd
    rw [keep_table] at hfd
    by_contra hlive
    exact hfd (if_neg hlive)
  · exact (heff.discard (hs.ready.effect c).wf).keep

/-- A number that is neither the program's nor the file system's is not open. -/
theorem Sim.table_eq_none (hs : Sim K m p) (hp : ¬ m.process.vfs.Private fd)
    (hfd : fd ∉ p.seen.numbers) :
    fd ∉ m.process.vfs.live ∧ m.files.table fd = none ∧ p.seen.files.table fd = none := by
  obtain ⟨made, φ, hshows⟩ := hs.shows
  have hlive : fd ∉ m.process.vfs.live := fun hh => hfd (hshows.mem_numbers hh hp)
  refine ⟨hlive, ?_, ?_⟩
  · by_contra hne
    exact hlive (hs.closed fd hne)
  · by_contra hne
    exact hfd (hshows.table fd hne)

theorem Sim.io (hs : Sim K m p) (hp : ¬ m.process.vfs.Private fd) (q : Q) :
    (m.io K fd q).1 = (p.io K fd q).1 ∧ Sim K (m.io K fd q).2 (p.io K fd q).2 := by
  obtain ⟨made, φ, hshows⟩ := hs.shows
  unfold Machine.io Program.io
  by_cases hfd : fd ∈ p.seen.numbers
  · have hlive : fd ∈ m.process.vfs.live := (hshows.live fd).mpr (Or.inl hfd)
    rcases hshows.mirrors.io hfd q with ⟨he, he'⟩ | ⟨r, s, t, he, he', hmirrors⟩
    · rw [he, he']
      exact ⟨by simp [hlive, hfd], hs⟩
    rw [he, he']
    refine ⟨rfl, hs.process, hs.free, hs.ready, fun fd' hfd' => hs.closed fd' ?_, made, φ, ?_⟩
    · rwa [← io_table he]
    · refine ⟨hmirrors, hshows.held, hshows.known, hshows.live, hshows.apart, fun h hh => ?_,
        fun fd' => ?_, fun fd' hfd' => hshows.table fd' ?_, hshows.named, fun fd' d hd => ?_,
        fun h hh => ?_⟩
      · exact (io_fileAt he _).trans (hshows.backing h hh)
      · exact (hshows.tracked fd').trans (io_fileAt he' fd').symm
      · rwa [← io_table he']
      · exact hshows.young fd' d ((congrFun (io_table he) fd').symm.trans hd)
      · refine (io_content he' ?_).trans (hshows.empty h hh)
        intro hf
        exact hh (hshows.mirrors.used_of_fileAt hfd hf)
  · obtain ⟨hlive, hk, hq⟩ := hs.table_eq_none hp hfd
    have hm : m.files.io K.toFileKernel fd q = none := by simp [OpenFiles.io, hk]
    have hu : p.seen.files.io K.toFileKernel fd q = none := by simp [OpenFiles.io, hq]
    rw [hm, hu]
    exact ⟨by simp [hlive, hfd], hs⟩

omit [DecidableEq ι] in
theorem reporting_fstat {f : Nat} (hf : m.files.fileAt fd = some f) (n : Nat) :
    (m.reporting K).world.sys.kernel.fstat n fd = K.fstat (m.files.content f) := by
  simp [reporting, RootVFS.setWorld, hf]

omit [DecidableEq ι] in
theorem reporting_fstat_of_none (hf : m.files.fileAt fd = none) (n : Nat) :
    (m.reporting K).world.sys.kernel.fstat n fd = m.process.vfs.world.sys.kernel.fstat n fd := by
  simp [reporting, RootVFS.setWorld, hf]

theorem Sim.statNode_eq (hs : Sim K m p) (hr : m.process.vfs.referenced h = true) {node : Node}
    (hnode : (m.process.vfs.world.fs h.nodes.index).heap h.node = some node) :
    p.statOf K h =
      some ((m.process.vfs.world.fs h.nodes.index).statNode (m.reporting K).world.sys node) := by
  obtain ⟨made, φ, hshows⟩ := hs.shows
  have hheld : m.process.vfs.Held none h := Or.inl hr
  unfold Program.statOf
  dsimp only
  rw [hs.process, hnode, Option.map_some]
  congr 1
  cases hk : node.kind with
  | directory es b => simp [statNode, hk]
  | file b =>
    have hb : m.process.vfs.backingFd h = b := by
      simp [Vfs.backingFd, hnode, hk, NodeKind.backingFd]
    have hfile := hshows.backing h hheld
    rw [hb] at hfile
    have hcontent := hshows.mirrors.content h (hshows.held h hheld)
    simp [statNode, hk, reporting_fstat hfile, hcontent]

theorem Sim.stat (hs : Sim K m p) (path : Path) : (m.reporting K).stat path = p.stat K path := by
  obtain ⟨f, hf⟩ := hs.ready.memory.fsAt
    (m.process.vfs.absolutePathToFs (m.process.vfs.resolvePath path)).1
  have hfound : m.process.vfs.foundAt (m.process.vfs.resolvePath path) =
      some (f, (m.process.vfs.world.fs f.index).resolve
        (m.process.vfs.absolutePathToFs (m.process.vfs.resolvePath path)).2.toAbs) := by
    simp [Vfs.foundAt, hf]
  have hstat : (m.reporting K).stat path = LowLevelFS.stat f (m.reporting K).world
      (m.process.vfs.absolutePathToFs (m.process.vfs.resolvePath path)).2.toAbs := by
    show LowLevelFS.stat (m.process.vfs.fsAt (m.process.vfs.absolutePathToFs
      (m.process.vfs.resolvePath path)).1) _ _ = _
    rw [hf]
    rfl
  rw [hstat, Program.stat, hs.process, hfound, Option.bind_some]
  show ((m.process.vfs.world.fs f.index).resolve _).bind _ = _
  refine Option.bind_congr fun node hn => ?_
  have hmem : node ∈ (m.process.vfs.world.fs f.index).nodes :=
    (hs.ready.wf.world.fs f.index).resolveNames_mem hn
  obtain ⟨i, hi⟩ := Option.isSome_iff_exists.mp
    (hs.ready.wf.known_of_inMap (h := ⟨f, node⟩) (decide_eq_true hmem))
  obtain ⟨n, hnode, -⟩ := Option.map_eq_some_iff.mp hi
  rw [hs.statNode_eq (Vfs.referenced_of_mem hmem) hnode]
  show ((m.process.vfs.world.fs f.index).heap node).bind _ = _
  rw [hnode]
  rfl

theorem Sim.fstat (hs : Sim K m p) (hp : ¬ m.process.vfs.Private fd) :
    (m.reporting K).fstatHook 2 fd = some (p.fstat K fd) := by
  obtain ⟨made, φ, hshows⟩ := hs.shows
  have hopened (fd : Int) : (m.reporting K).opened fd = m.process.vfs.opened fd := rfl
  -- a number without an entry is the kernel's
  have hkernel (n : Nat) {b : Int} (hb : m.process.vfs.opened b = none)
      (hlive : b ∈ m.process.vfs.live) : (m.reporting K).fstatHook (n + 1) b =
        some (some ((m.reporting K).world.sys.kernel.fstat m.process.vfs.calls b)) := by
    simp only [Vfs.fstatHook, hopened, hb]
    exact congrArg some (if_pos hlive)
  by_cases hfd : fd ∈ p.seen.numbers
  · have hlive : fd ∈ m.process.vfs.live := (hshows.live fd).mpr (Or.inl hfd)
    rw [Program.fstat, if_pos hfd, ← hshows.tracked]
    cases ho : m.process.vfs.opened fd with
    | none =>
      have hnone : m.files.fileAt fd = none := by
        rw [hshows.mirrors.fileAt hfd, ← hshows.tracked, ho]
        rfl
      rw [hkernel 1 ho hlive, reporting_fstat_of_none hnone, hs.process]
    | some h =>
      have href : m.process.vfs.referenced h = true :=
        (Vfs.referenced_iff h).mpr (Or.inr ⟨fd, ho⟩)
      have hv : (m.reporting K).WF :=
        ⟨⟨hs.ready.wf.world.fs, hs.ready.wf.world.apart⟩, hs.ready.wf.handle⟩
      obtain ⟨node, hnode, hstat⟩ := Vfs.fstatHook_succ hv ho 1
      have hbacking : (m.reporting K).fileBacking h = m.process.vfs.fileBacking h := rfl
      dsimp only
      rw [hstat, hs.statNode_eq href hnode, hbacking, Vfs.fileBacking]
      by_cases hdir : (m.process.vfs.world.fs h.nodes.index).isDir h.node = true
      · rw [if_pos hdir]
        rfl
      · have hno : m.process.vfs.opened (m.process.vfs.backingFd h) = none := by
          by_contra hne
          exact hshows.apart h (Or.inl href) (hshows.opened_mem hne)
        have hlive' : m.process.vfs.backingFd h ∈ m.process.vfs.live :=
          (hshows.live _).mpr (Or.inr ⟨h, Or.inl href, rfl⟩)
        have hnode' : (m.process.vfs.world.fs h.nodes.index).heap h.node = some node := hnode
        rw [if_neg hdir]
        simp only [hkernel 0 hno hlive', Option.map_some]
        -- the fields of the second answer are those that the first has from the kernel
        cases hk : node.kind with
        | directory es b =>
          exact absurd (by simp [isDir, entriesOf, hnode', hk, NodeKind.entries?]) hdir
        | file b =>
          have hb : m.process.vfs.backingFd h = b := by
            simp [Vfs.backingFd, hnode', hk, NodeKind.backingFd]
          simp only [hb, Stat.over, statNode, hk]
          rfl
  · obtain ⟨hlive, -⟩ := hs.table_eq_none hp hfd
    have hno : m.process.vfs.opened fd = none := by
      by_contra hne
      exact hfd (hshows.opened_mem hne)
    rw [Program.fstat, if_neg hfd]
    simp only [Vfs.fstatHook, hopened, hno]
    rw [if_neg (show fd ∉ (m.reporting K).live from hlive)]

theorem matches_program (hK : LookupFlagsApart K.toFileKernel) :
    Runs.Matches (call K) (Program.call K) (Allows (ι := ι)) (Sim K) := by
  intro m p c hs hok
  have hio {fd : Int} (hp : ¬ m.process.vfs.Private fd) (q : Q) :
      ∃ r s t, some (m.io K fd q) = some (r, s) ∧ some (p.io K fd q) = some (r, t) ∧ Sim K s t := by
    obtain ⟨hr, hsim⟩ := hs.io hp q
    exact ⟨_, _, _, rfl, congrArg some (Prod.ext hr.symm rfl), hsim⟩
  cases c with
  | hook c =>
    simp only [call, Program.call, hs.process]
    cases ht : m.process.vfs.passedOn K c with
    | some t =>
      refine Or.inr (hio (hok t.1 ?_) t.2)
      unfold Vfs.passedOn at ht
      split at ht
      · split at ht <;> cases ht
        all_goals simp [ProgramCall.numbers]
      · cases ht
    | none =>
      have hfree : m.process = ⟨m.process.vfs, false⟩ := by
        rw [← hs.free]
      rcases Process.call_cases m.process.vfs c with ⟨he, -⟩ | ⟨he, -⟩
      · rw [← hfree] at he
        exact Or.inl ⟨by rw [he]; rfl, by rw [he]; rfl⟩
      · rw [← hfree] at he
        exact Or.inr ⟨_, _, _, by rw [he]; rfl, by rw [he]; rfl, hs.hooked hK hok⟩
  | access path mode => exact Or.inr ⟨_, _, _, rfl, by rw [← hs.process]; rfl, hs⟩
  | stat path => exact Or.inr ⟨_, _, _, rfl, by rw [hs.stat]; rfl, hs⟩
  | fstat fd =>
    have hst := hs.fstat (hok fd (List.mem_singleton_self fd))
    exact Or.inr ⟨_, m, p, by rw [call, hst]; rfl, rfl, hs⟩
  | io fd q => exact Or.inr (hio (hok fd (List.mem_singleton_self fd)) q)

/-- The program's own numbers are not private, and neither are those that are not in use. -/
theorem Sim.allows (hK : LookupFlagsApart K.toFileKernel) (hs : Sim K m p)
    {calls : List (ProgramCall Q)}
    (hok : Runs.EveryCall (Program.call K)
      (fun p c => ∀ fd ∈ c.numbers, fd ∈ p.seen.numbers ∨ fd ∉ p.process.vfs.live) p calls) :
    Runs.EveryCall (call K) Allows m calls := by
  induction calls generalizing m p with
  | nil => trivial
  | cons c calls ih =>
    have hc : m.Allows c := by
      rintro fd hfd ⟨h, hh, rfl⟩
      obtain ⟨made, φ, hshows⟩ := hs.shows
      rcases hok.1 _ hfd with hn | hlive
      · exact hshows.apart h (Or.inl hh) hn
      · rw [hs.process] at hlive
        exact hlive ((hshows.live _).mpr (Or.inr ⟨h, Or.inl hh, rfl⟩))
    refine ⟨hc, fun r hr => ?_⟩
    rcases matches_program hK m p c hs hc with ⟨he, -⟩ | ⟨a, m', p', he, he', hsim⟩
    · rw [he] at hr
      cases hr
    · rw [he] at hr
      cases hr
      exact ih hsim (hok.2 _ he')

end Machine

inductive Whence where
  | set
  | cur
  | «end»
  deriving DecidableEq

inductive FileCall where
  | read (count : Nat)
  | write (bytes : List UInt8)
  | lseek (offset : Int) (whence : Whence)
  | ftruncate (length : Int)
  | getdents64
  deriving DecidableEq

structure FileResult where
  status : Int
  bytes : List UInt8 := []
  deriving DecidableEq

/-- Bytes at a place, after zeros if the file is too short. -/
def overwrite (content : List UInt8) (offset : Nat) (bytes : List UInt8) : List UInt8 :=
  content.take offset ++ List.replicate (offset - content.length) 0 ++ bytes ++
    content.drop (offset + bytes.length)

def resize (content : List UInt8) (length : Nat) : List UInt8 :=
  content.take length ++ List.replicate (length - content.length) 0

def seekFrom (whence : Whence) (offset length : Nat) : Int :=
  match whence with
  | .set => 0
  | .cur => offset
  | .end => length

def Flags.reads (flags : Flags) : Bool :=
  !flags.has O_PATH && (flags &&& O_ACCMODE == O_RDONLY || flags &&& O_ACCMODE == O_RDWR)

def Flags.writes (flags : Flags) : Bool :=
  !flags.has O_PATH && (flags &&& O_ACCMODE == O_WRONLY || flags &&& O_ACCMODE == O_RDWR)

/-- The most that one `read` or `write` moves, and the longest file. -/
def MAX_RW_COUNT : Nat := 0x7ffff000
def MAX_FILE_SIZE : Nat := 2 ^ 63 - 1

def linuxIo (flags : Flags) (offset : Nat) (content : List UInt8) (q : FileCall) :
    FileResult × Nat × List UInt8 :=
  let refused := (⟨-1, []⟩, offset, content)
  match q with
  | .read count =>
    if flags.reads then
      let bytes := (content.drop offset).take (min count MAX_RW_COUNT)
      (⟨bytes.length, bytes⟩, offset + bytes.length, content)
    else refused
  | .write bytes =>
    let start := if flags.has O_APPEND then content.length else offset
    if !flags.writes then refused
    else if bytes = [] then (⟨0, []⟩, offset, content)
    else if MAX_FILE_SIZE ≤ start then refused
    else
      let bytes := bytes.take (min MAX_RW_COUNT (MAX_FILE_SIZE - start))
      (⟨bytes.length, []⟩, start + bytes.length, overwrite content start bytes)
  | .lseek delta whence =>
    let target := seekFrom whence offset content.length + delta
    if flags.has O_PATH || target < 0 || MAX_FILE_SIZE < target then refused
    else (⟨target, []⟩, target.toNat, content)
  | .ftruncate length =>
    if !flags.writes || length < 0 || MAX_FILE_SIZE < length then refused
    else (⟨0, []⟩, offset, resize content length.toNat)
  | .getdents64 => refused

def linuxFiles : BackingKernel Nat (List UInt8) FileCall FileResult where
  empty := []
  start := 0
  opens flags content := if flags.has O_TRUNC && !flags.has O_PATH then [] else content
  io := linuxIo
  fstat content :=
    { stMode := S_IFREG ||| 0o777, stNlink := 0, stSize := content.length
      stBlocks := 8 * ((content.length + 4095) / 4096), stBlksize := 4096 }
  getdents64 _ _ := .getdents64

theorem backingFlags_and (flags : Flags) {mask : Flags}
    (h : ~~~(O_CREAT ||| O_EXCL ||| O_NOFOLLOW ||| O_DIRECTORY) &&& mask = mask) :
    backingFlags flags &&& mask = flags &&& mask := by
  rw [backingFlags, BitVec.and_assoc, h]

theorem linuxFiles_lookupFlagsApart : LookupFlagsApart linuxFiles.toFileKernel := by
  have hpath (flags : Flags) : (backingFlags flags).has O_PATH = flags.has O_PATH := by
    unfold Flags.has
    rw [backingFlags_and flags (by decide)]
  have htrunc (flags : Flags) : (backingFlags flags).has O_TRUNC = flags.has O_TRUNC := by
    unfold Flags.has
    rw [backingFlags_and flags (by decide)]
  have happend (flags : Flags) : (backingFlags flags).has O_APPEND = flags.has O_APPEND := by
    unfold Flags.has
    rw [backingFlags_and flags (by decide)]
  have hmode (flags : Flags) : backingFlags flags &&& O_ACCMODE = flags &&& O_ACCMODE :=
    backingFlags_and flags (by decide)
  have hreads (flags : Flags) : (backingFlags flags).reads = flags.reads := by
    simp only [Flags.reads, hpath, hmode]
  have hwrites (flags : Flags) : (backingFlags flags).writes = flags.writes := by
    simp only [Flags.writes, hpath, hmode]
  constructor
  · intro flags
    funext content
    simp only [linuxFiles, hpath, htrunc]
  · intro flags
    funext offset content q
    cases q <;> simp only [linuxFiles, linuxIo, hpath, happend, hreads, hwrites]

namespace Machine

variable {K} {m m' : Machine ι P C}

def started : Machine Unit Nat (List UInt8) where
  process := ⟨Vfs.newMemory (fun _ => 0) .boot, false⟩
  files := OpenFiles.kernelCall linuxFiles.toFileKernel
    ⟨fun _ => none, fun _ => none, fun _ => []⟩ (.memfdCreate 3 1)

theorem started_referenced {h : MemoryOpenedFile Unit}
    (hh : started.process.vfs.referenced h = true) : h = ⟨⟨()⟩, 1⟩ := by
  obtain ⟨⟨⟨⟩⟩, id⟩ := h
  rcases (Vfs.referenced_iff _).mp hh with hin | ⟨fd, ho⟩
  · have hid : id ∈ ({1} : Finset NodeId) := of_decide_eq_true hin
    rw [Finset.mem_singleton.mp hid]
  · cases ho

theorem started_fresh : started.Fresh linuxFiles {0, 1, 2} fun _ => 1 := by
  have hroot : started.process.vfs.referenced ⟨⟨()⟩, 1⟩ = true := by decide +kernel
  have hback : started.process.vfs.backingFd ⟨⟨()⟩, 1⟩ = 3 := by decide +kernel
  have hprivate (fd : Int) : started.process.vfs.Private fd ↔ fd = 3 := by
    constructor
    · rintro ⟨h, hh, rfl⟩
      rw [started_referenced hh, hback]
    · rintro rfl
      exact ⟨_, hroot, hback⟩
  have hlive : started.process.vfs.live = {3, 0, 1, 2} := by decide +kernel
  refine ⟨Process.newMemory_ready _ _, rfl, fun _ => rfl, fun fd => ?_, fun fd hfd => ?_,
    fun h hh => ?_,
    fun h h' hh hh' _ => (started_referenced hh).trans (started_referenced hh').symm,
    fun fd d hd => ?_⟩
  · rw [hlive, Finset.mem_insert, hprivate, or_comm]
  · rw [hprivate]
    rintro rfl
    exact absurd hfd (by decide)
  · rw [started_referenced hh, hback]
    exact ⟨rfl, by decide +kernel, rfl⟩
  · have hd' : (if fd = 3 then some 1 else none) = some d := by
      simpa [started, OpenFiles.kernelCall, create_table, openAs_table] using hd
    rw [hprivate]
    split_ifs at hd' with he
    cases hd'
    exact ⟨he, by decide +kernel⟩

/-- A file is written, loses its name and is read back through a copy of the descriptor. -/
def rewriting : List (ProgramCall FileCall) :=
  [.hook (.vfs (.openPath (.abs (PathBuf.toAbs [.f])) (O_RDWR ||| O_CREAT) 0o644)),
    .io 5 (.write [104, 105]), .hook (.dup 5 6), .stat (.abs (PathBuf.toAbs [.f])),
    .hook Process.unlinkF, .hook (.close 5), .io 5 (.read 10), .io 6 (.lseek 0 .set),
    .io 6 (.read 10), .fstat 6]

theorem started_allows : Runs.EveryCall (call linuxFiles) Allows started rewriting :=
  started_fresh.sim.allows linuxFiles_lookupFlagsApart (by decide +kernel)

/-- A program that leaves the private numbers alone cannot tell the backing files from
files that are the nodes themselves: every answer is what it would be if each descriptor
were open on the node that its open has found or made, and the calls that never return are
the same. -/
theorem run_contents (hK : LookupFlagsApart K.toFileKernel) {others : Finset Int}
    {φ : MemoryOpenedFile ι → Nat} (hm : m.Fresh K others φ) (calls : List (ProgramCall Q))
    (hok : Runs.EveryCall (call K) Allows m calls) :
    Runs.answers (call K) m calls = Runs.answers (Program.call K) (m.program K others) calls :=
  (matches_program hK).answers_eq hm.sim hok

theorem run_contents_rewriting :
    Runs.answers (call linuxFiles) started rewriting =
        Runs.answers (Program.call linuxFiles) (started.program linuxFiles {0, 1, 2}) rewriting ∧
      Runs.answers (Program.call linuxFiles) (started.program linuxFiles {0, 1, 2}) rewriting =
        [.vfs (.status 5), .kernel ⟨2, []⟩, .vfs (.status 6), .vfs (.stat (some
            { stMode := S_IFREG ||| 0o644, stIno := 2, stNlink := 1, stSize := 2, stBlocks := 8
              stBlksize := 4096 })),
          .vfs (.status 0), .vfs (.status 0), .badFd, .kernel ⟨0, []⟩, .kernel ⟨2, [104, 105]⟩,
          .vfs (.stat (some
            { stMode := S_IFREG ||| 0o644, stIno := 2, stNlink := 0, stSize := 2, stBlocks := 8
              stBlksize := 4096 }))] :=
  ⟨run_contents linuxFiles_lookupFlagsApart started_fresh rewriting started_allows,
    by decide +kernel⟩

/-- The last number of a file without a name cannot be closed. -/
example : Runs.after (call linuxFiles) started (rewriting ++ [.hook (.close 6)]) = none := by
  decide +kernel

/-- In every state that such a run reaches the numbers in use are those that the program has
got and not given back, and one for each node that is still referred to. No number is both,
and no two nodes share one. -/
theorem run_numbers (hK : LookupFlagsApart K.toFileKernel) {others : Finset Int}
    {φ : MemoryOpenedFile ι → Nat} (hm : m.Fresh K others φ) {calls : List (ProgramCall Q)}
    (hok : Runs.EveryCall (call K) Allows m calls)
    (hcalls : Runs.after (call K) m calls = some m') :
    ∃ p', Runs.after (Program.call K) (m.program K others) calls = some p' ∧
      (∀ fd, fd ∈ m'.process.vfs.live ↔ fd ∈ p'.seen.numbers ∨ m'.process.vfs.Private fd) ∧
      (∀ fd ∈ p'.seen.numbers, ¬ m'.process.vfs.Private fd) ∧
      ∀ h h', m'.process.vfs.referenced h = true → m'.process.vfs.referenced h' = true →
        m'.process.vfs.backingFd h = m'.process.vfs.backingFd h' → h = h' := by
  obtain ⟨p', hp', hsim⟩ := (matches_program hK).after hm.sim hok hcalls
  obtain ⟨made, φ', hs⟩ := hsim.shows
  refine ⟨p', hp', fun fd => ?_, ?_,
    fun h h' hh hh' => hs.backing_injective (Or.inl hh) (Or.inl hh')⟩
  · rw [hs.live]
    refine or_congr_right (exists_congr fun h => and_congr_left fun _ => ?_)
    exact or_iff_left (by simp)
  · rintro fd hfd ⟨h, hh, rfl⟩
    exact hs.apart h (Or.inl hh) hfd

/-- In the end the standard descriptors and the copy are left, and the numbers behind the
root and the file without a name. -/
theorem run_numbers_rewriting :
    ∃ m' p', Runs.after (call linuxFiles) started rewriting = some m' ∧
      Runs.after (Program.call linuxFiles) (started.program linuxFiles {0, 1, 2}) rewriting =
        some p' ∧ p'.seen.numbers = {0, 1, 2, 6} ∧ m'.process.vfs.live = {0, 1, 2, 3, 4, 6} ∧
      ∀ fd, fd ∈ m'.process.vfs.live ↔ fd ∈ p'.seen.numbers ∨ m'.process.vfs.Private fd := by
  have hafter : (Runs.after (call linuxFiles) started rewriting).isSome = true := by decide +kernel
  obtain ⟨m', hm'⟩ := Option.isSome_iff_exists.mp hafter
  obtain ⟨p', hp', hlive, -⟩ :=
    run_numbers linuxFiles_lookupFlagsApart started_fresh started_allows hm'
  refine ⟨m', p', hm', hp', ?_, ?_, hlive⟩
  · have hnumbers : (Runs.after (Program.call linuxFiles)
        (started.program linuxFiles {0, 1, 2}) rewriting).map (·.seen.numbers) =
          some {0, 1, 2, 6} := by decide +kernel
    rw [hp'] at hnumbers
    exact Option.some.inj hnumbers
  · have hnumbers : (Runs.after (call linuxFiles) started rewriting).map (·.process.vfs.live) =
        some {0, 1, 2, 3, 4, 6} := by decide +kernel
    rw [hm'] at hnumbers
    exact Option.some.inj hnumbers

/-- In every state that such a run reaches a descriptor is open on the backing file of the
node that the table has for it. -/
theorem run_tracked (hK : LookupFlagsApart K.toFileKernel) {others : Finset Int}
    {φ : MemoryOpenedFile ι → Nat} (hm : m.Fresh K others φ) {calls : List (ProgramCall Q)}
    (hok : Runs.EveryCall (call K) Allows m calls)
    (hcalls : Runs.after (call K) m calls = some m') {fd : Int} {h : MemoryOpenedFile ι}
    (ho : m'.process.vfs.opened fd = some h) :
    ∃ file, m'.files.fileAt fd = some file ∧
      m'.files.fileAt (m'.process.vfs.backingFd h) = some file := by
  obtain ⟨p', -, hsim⟩ := (matches_program hK).after hm.sim hok hcalls
  obtain ⟨made, φ', hs⟩ := hsim.shows
  have hheld : m'.process.vfs.Held none h := Or.inl ((Vfs.referenced_iff h).mpr (Or.inr ⟨fd, ho⟩))
  have hfd : fd ∈ p'.seen.numbers := hs.opened_mem (by rw [ho]; exact Option.some_ne_none h)
  refine ⟨φ' h, ?_, hs.backing h hheld⟩
  rw [hs.mirrors.fileAt hfd, ← hs.tracked, ho]
  rfl

/-- A copy of the descriptor of a file without a name. -/
theorem run_tracked_rewriting :
    ∃ m' h file, Runs.after (call linuxFiles) started rewriting = some m' ∧
      m'.process.vfs.opened 6 = some h ∧ m'.process.vfs.inMap h = false ∧
      m'.files.fileAt 6 = some file ∧
      m'.files.fileAt (m'.process.vfs.backingFd h) = some file := by
  have hafter : (Runs.after (call linuxFiles) started rewriting).isSome = true := by decide +kernel
  obtain ⟨m', hm'⟩ := Option.isSome_iff_exists.mp hafter
  have hopened : (Runs.after (call linuxFiles) started rewriting).map
      (fun m => (m.process.vfs.opened 6, m.process.vfs.inMap ⟨⟨()⟩, 2⟩)) =
        some (some ⟨⟨()⟩, 2⟩, false) := by decide +kernel
  rw [hm'] at hopened
  obtain ⟨ho, hmap⟩ := Prod.mk.inj (Option.some.inj hopened)
  obtain ⟨file, hfile, hback⟩ :=
    run_tracked linuxFiles_lookupFlagsApart started_fresh started_allows hm' ho
  exact ⟨m', _, file, hm', ho, hmap, hfile, hback⟩

end Machine

end SandboxVfs
