import SandboxVfs.Library.LastSteps
import SandboxVfs.RootVfs

/-! The hooks of `open`, `close` and `dup` in any number of threads. Each call takes two
steps: what the kernel does, and the update of the table of descriptors. -/

namespace SandboxVfs

/-- What a number stands for in the kernel: a file that a virtual open has made, with the
handle that came with it, or any other file. -/
inductive OpenFile (H : Type) where
  | foreign
  | virtual (opened : Option H)
  deriving DecidableEq, Repr

inductive Update (H : Type) where
  | trackOpen (result : OpenResult H) (path : PathBuf)
  | forgetFd (fd : Int)
  | cloneFd (oldfd newfd : Int)
  deriving DecidableEq, Repr

/-- The process: the table, the kernel's table, and what the threads have still to do. -/
structure Hooks (B H W T : Type) where
  vfs : RootVFS B H W
  kernel : Int → Option (OpenFile H)
  pending : T → Option (Update H)

/-- A step of a thread. The kernel answers an open with any free number or -1, and a
duplication with any number; `foreign` is an open that no hook sees. -/
inductive HookStep (H W T : Type) where
  | opened (thread : T) (path : PathBuf) (result : OpenResult H) (world : W)
  | closed (thread : T) (fd : Int)
  | duplicated (thread : T) (oldfd newfd : Int)
  | foreign (fd : Int)
  | update (thread : T)

namespace Hooks

variable {B H W T : Type} [DecidableEq T] (s : Hooks B H W T)

/-- The number whose entry an update writes. -/
def target : Update H → Option Int
  | .trackOpen result _ => if 0 ≤ result.fd then some result.fd else none
  | .forgetFd fd => some fd
  | .cloneFd _ newfd => some newfd

def apply (v : RootVFS B H W) : Update H → RootVFS B H W
  | .trackOpen result path => (v.trackOpen result path).2
  | .forgetFd fd => v.forgetFd fd
  | .cloneFd oldfd newfd => v.cloneFd oldfd newfd

def wait (thread : T) (u : Update H) : Hooks B H W T :=
  { s with pending := Function.update s.pending thread (some u) }

/-- A step that cannot be taken changes nothing: the kernel refuses a number that is not
open, does not hand out one that is, and a thread makes one call at a time. -/
def step : HookStep H W T → Hooks B H W T
  | .opened thread path result world =>
    if s.pending thread = none ∧ (0 ≤ result.fd → s.kernel result.fd = none) then
      { s with
        vfs := s.vfs.setWorld world
        kernel :=
          if 0 ≤ result.fd then
            Function.update s.kernel result.fd (some (.virtual result.opened))
          else s.kernel }.wait thread (.trackOpen result path)
    else s
  | .closed thread fd =>
    if s.pending thread = none ∧ s.kernel fd ≠ none then
      { s with kernel := Function.update s.kernel fd none }.wait thread (.forgetFd fd)
    else s
  | .duplicated thread oldfd newfd =>
    if s.pending thread = none ∧ s.kernel oldfd ≠ none then
      { s with kernel := Function.update s.kernel newfd (s.kernel oldfd) }.wait thread
        (.cloneFd oldfd newfd)
    else s
  | .foreign fd =>
    if s.kernel fd = none then
      { s with kernel := Function.update s.kernel fd (some .foreign) }
    else s
  | .update thread =>
    match s.pending thread with
    | none => s
    | some u =>
      { s with vfs := apply s.vfs u, pending := Function.update s.pending thread none }

def run (steps : List (HookStep H W T)) : Hooks B H W T := steps.foldl step s

def Idle : Prop := ∀ thread, s.pending thread = none

def recorded (fd : Int) : Option (Option H) := s.vfs.fds[fd]?.map (·.opened)

/-- The handle of the file behind a number that comes from a virtual open. -/
def denoted (fd : Int) : Option (Option H) :=
  match s.kernel fd with
  | some (.virtual opened) => some opened
  | _ => none

/-- The table has an entry for exactly the open numbers that come from virtual opens, each
with the right handle. -/
def Exact : Prop := ∀ fd, s.recorded fd = s.denoted fd

/-- The update is still right for what the kernel has under the number by now. -/
def Fits : Update H → Prop
  | .trackOpen result _ => 0 ≤ result.fd → s.denoted result.fd = some result.opened
  | .forgetFd fd => s.denoted fd = none
  | .cloneFd oldfd newfd => s.denoted newfd = s.recorded oldfd

def Updates (fd : Int) (s : Hooks B H W T) (o : HookStep H W T) : Prop :=
  ∃ thread u, o = .update thread ∧ s.pending thread = some u ∧ target u = some fd

def UpdateFits (s : Hooks B H W T) (o : HookStep H W T) : Prop :=
  ∀ thread u, o = .update thread → s.pending thread = some u → s.Fits u

/-- A thread has still to write the entry of the number. -/
def Due (fd : Int) (s : Hooks B H W T) : Prop :=
  ∃ thread u, s.pending thread = some u ∧ target u = some fd

variable {s} {fd : Int}

omit [DecidableEq T] in
theorem Idle.not_due (h : s.Idle) (fd : Int) : ¬ Due fd s := by
  rintro ⟨thread, u, hu, -⟩
  rw [h thread] at hu
  cases hu

omit [DecidableEq T] in
theorem recorded_apply_of_ne {u : Update H} (h : target u ≠ some fd) (v : RootVFS B H W) :
    (apply v u).fds[fd]? = v.fds[fd]? := by
  cases u with
  | trackOpen result path =>
    show (v.trackOpen result path).2.fds[fd]? = _
    rw [RootVFS.trackOpen_getElem?, if_neg]
    rintro ⟨hpos, rfl⟩
    exact h (if_pos hpos)
  | forgetFd fd' =>
    have hne : fd ≠ fd' := fun he => h (congrArg some he.symm)
    show (v.forgetFd fd').fds[fd]? = _
    rw [RootVFS.forgetFd_getElem?, if_neg hne]
  | cloneFd oldfd newfd =>
    have hne : fd ≠ newfd := fun he => h (congrArg some he.symm)
    show (v.cloneFd oldfd newfd).fds[fd]? = _
    rw [RootVFS.cloneFd_getElem?, if_neg hne]

theorem begun {s' : Hooks B H W T} {thread : T} {u : Update H} (hidle : s.pending thread = none)
    (hp : s'.pending = Function.update s.pending thread (some u))
    (hk : ∀ fd, target u ≠ some fd → s'.kernel fd = s.kernel fd)
    (hf : s'.vfs.fds = s.vfs.fds) (hend : ¬ Due fd s') :
    ¬ Due fd s ∧ (s'.recorded fd = s'.denoted fd ↔ s.recorded fd = s.denoted fd) := by
  have htarget : target u ≠ some fd := fun ht =>
    hend ⟨thread, u, by rw [hp, Function.update_self], ht⟩
  constructor
  · rintro ⟨thread', u', hu', ht'⟩
    have hne : thread' ≠ thread := by
      rintro rfl
      rw [hidle] at hu'
      cases hu'
    exact hend ⟨thread', u', by rw [hp, Function.update_of_ne hne, hu'], ht'⟩
  · unfold recorded denoted
    rw [hk fd htarget, hf]

/-- Where no update is due after a step that is none itself, the step has not touched the
number. -/
theorem step_of_not_updates (o : HookStep H W T) (hno : ¬ Updates fd s o)
    (hend : ¬ Due fd (s.step o)) :
    ¬ Due fd s ∧ ((s.step o).recorded fd = (s.step o).denoted fd ↔
      s.recorded fd = s.denoted fd) := by
  cases o with
  | opened thread path result world =>
    simp only [step] at hend ⊢
    split_ifs at hend ⊢ with hc hpos
    · refine begun hc.1 rfl (fun fd' hne => ?_) rfl hend
      have hfd : fd' ≠ result.fd := by
        rintro rfl
        exact hne (if_pos hpos)
      exact Function.update_of_ne hfd _ _
    · exact begun hc.1 rfl (fun _ _ => rfl) rfl hend
    · exact ⟨hend, Iff.rfl⟩
  | closed thread fd' =>
    simp only [step] at hend ⊢
    split_ifs at hend ⊢ with hc
    · refine begun hc.1 rfl (fun fd'' hne => ?_) rfl hend
      have hfd : fd'' ≠ fd' := fun he => hne (congrArg some he.symm)
      exact Function.update_of_ne hfd _ _
    · exact ⟨hend, Iff.rfl⟩
  | duplicated thread oldfd newfd =>
    simp only [step] at hend ⊢
    split_ifs at hend ⊢ with hc
    · refine begun hc.1 rfl (fun fd' hne => ?_) rfl hend
      have hfd : fd' ≠ newfd := fun he => hne (congrArg some he.symm)
      exact Function.update_of_ne hfd _ _
    · exact ⟨hend, Iff.rfl⟩
  | foreign fd' =>
    simp only [step] at hend ⊢
    split_ifs at hend ⊢ with hc
    · refine ⟨hend, ?_⟩
      have hden : denoted { s with kernel := Function.update s.kernel fd' (some .foreign) } fd =
          s.denoted fd := by
        unfold denoted
        by_cases he : fd = fd'
        · subst he
          simp [hc]
        · simp [Function.update_of_ne he]
      rw [hden]
      rfl
    · exact ⟨hend, Iff.rfl⟩
  | update thread =>
    cases hu : s.pending thread with
    | none =>
      have hstep : s.step (.update thread) = s := by simp only [step, hu]
      rw [hstep] at hend ⊢
      exact ⟨hend, Iff.rfl⟩
    | some u =>
      have htarget : target u ≠ some fd := fun ht => hno ⟨thread, u, rfl, hu, ht⟩
      simp only [step, hu] at hend ⊢
      constructor
      · rintro ⟨thread', u', hu', ht'⟩
        have hne : thread' ≠ thread := by
          rintro rfl
          cases hu.symm.trans hu'
          exact htarget ht'
        exact hend ⟨thread', u', (Function.update_of_ne hne _ _).trans hu', ht'⟩
      · unfold recorded
        rw [recorded_apply_of_ne htarget]
        rfl

omit [DecidableEq T] in
theorem updateFits_iff {thread : T} {u : Update H} (hu : s.pending thread = some u) :
    UpdateFits s (.update thread : HookStep H W T) ↔ s.Fits u := by
  constructor
  · intro h
    exact h thread u rfl hu
  · rintro h thread' u' he hu'
    cases he
    cases hu.symm.trans hu'
    exact h

/-- The entry that an update writes is right if and only if the update fits. -/
theorem step_of_updates (o : HookStep H W T) (h : Updates fd s o) :
    (s.step o).recorded fd = (s.step o).denoted fd ↔ UpdateFits s o := by
  obtain ⟨thread, u, rfl, hu, ht⟩ := h
  rw [updateFits_iff hu]
  simp only [step, hu]
  show ((apply s.vfs u).fds[fd]?).map (·.opened) = s.denoted fd ↔ _
  cases u with
  | trackOpen result path =>
    have hpos : 0 ≤ result.fd := by
      by_contra hneg
      simp [target, hneg] at ht
    have hfd : result.fd = fd := by simpa [target, hpos] using ht
    subst hfd
    show ((s.vfs.trackOpen result path).2.fds[result.fd]?).map (·.opened) = _ ↔ _
    rw [RootVFS.trackOpen_getElem?, if_pos ⟨hpos, rfl⟩]
    exact ⟨fun h _ => h.symm, fun h => (h hpos).symm⟩
  | forgetFd fd' =>
    have hfd : fd' = fd := Option.some.inj ht
    subst hfd
    show ((s.vfs.forgetFd fd').fds[fd']?).map (·.opened) = _ ↔ _
    rw [RootVFS.forgetFd_getElem?, if_pos rfl]
    exact eq_comm
  | cloneFd oldfd newfd =>
    have hfd : newfd = fd := Option.some.inj ht
    subst hfd
    show ((s.vfs.cloneFd oldfd newfd).fds[newfd]?).map (·.opened) = _ ↔ _
    rw [RootVFS.cloneFd_getElem?, if_pos rfl]
    exact eq_comm

theorem recorded_eq_iff (he : s.Exact) {steps : List (HookStep H W T)} {fd : Int}
    (hend : ¬ Due fd (s.run steps)) :
    (s.run steps).recorded fd = (s.run steps).denoted fd ↔
      Runs.LastStep step (Updates fd) UpdateFits s steps := by
  have hsame := Runs.same_iff (Due fd) (fun s : Hooks B H W T => s.recorded fd = s.denoted fd)
    (fun _ o => step_of_not_updates o) (fun _ o => step_of_updates o) hend
  exact hsame.trans (and_iff_left fun _ => he fd)

/-- When all calls of any number of threads have returned, the table is exact if and only
if, for every number, the last update of its entry still fitted. -/
theorem fds_exact_iff (he : s.Exact) (steps : List (HookStep H W T))
    (hidle : (s.run steps).Idle) :
    (s.run steps).Exact ↔ ∀ fd, Runs.LastStep step (Updates fd) UpdateFits s steps :=
  forall_congr' fun fd => recorded_eq_iff he (hidle.not_due fd)

theorem recorded_of_fits (he : s.Exact) {steps : List (HookStep H W T)}
    (hfits : Runs.EveryStep step UpdateFits s steps) {fd : Int} (hend : ¬ Due fd (s.run steps)) :
    (s.run steps).recorded fd = (s.run steps).denoted fd :=
  (recorded_eq_iff he hend).mpr hfits.lastStep

/-- An open that no other thread interrupts is the one of `RootVFS`. -/
theorem uninterrupted_open [LowLevelFS B H W] {thread : T} (hidle : s.pending thread = none)
    (path : PathBuf) (flag : Flags) (mode : Mode) :
    let target := s.vfs.absolutePathToFs path
    let r := LowLevelFS.openWithHandle (s.vfs.fsAt target.1) s.vfs.world target.2.toAbs flag mode
    (0 ≤ r.1.fd → s.kernel r.1.fd = none) →
      (s.run [.opened thread path r.1 r.2, .update thread]).vfs =
        (s.vfs.openVirtual path flag mode).2 := by
  intro target r hfree
  have hstep : s.step (.opened thread path r.1 r.2) = wait _ thread (.trackOpen r.1 path) :=
    if_pos ⟨hidle, hfree⟩
  show ((s.step (.opened thread path r.1 r.2)).step (.update thread)).vfs = _
  rw [hstep]
  simp only [step, wait, Function.update_self]
  rfl

def twoThreads : Hooks Unit Nat Unit Bool where
  vfs := RootVFS.new () (fun _ => 0) ()
  kernel fd := if 0 ≤ fd ∧ fd ≤ 2 then some .foreign else none
  pending _ := none

theorem exact_twoThreads : twoThreads.Exact := by
  intro fd
  have hrec : twoThreads.recorded fd = none := rfl
  rw [hrec]
  unfold denoted twoThreads
  dsimp only
  split_ifs <;> rfl

/-- Both threads open, and one closes what it has opened before the other is through. -/
def overlapping : List (HookStep Nat Unit Bool) :=
  [.opened true [] ⟨3, some 7⟩ (), .opened false [] ⟨4, some 8⟩ (), .update true, .closed true 3,
    .update false, .update true]

theorem exact_overlapping :
    (twoThreads.run overlapping).recorded 4 = some (some 8) ∧
      (twoThreads.run overlapping).Exact := by
  refine ⟨by decide +kernel, (fds_exact_iff exact_twoThreads overlapping ?_).mpr fun fd => ?_⟩
  · show ∀ thread, (twoThreads.run overlapping).pending thread = none
    decide +kernel
  · have hbegin {s : Hooks Unit Nat Unit Bool} {o : HookStep Nat Unit Bool}
        (h : ∀ thread, o ≠ .update thread) : UpdateFits s o := fun thread _ he => absurd he (h thread)
    apply Runs.EveryStep.lastStep
    refine ⟨hbegin nofun, hbegin nofun, (updateFits_iff rfl).mpr fun _ => ?_, hbegin nofun,
      (updateFits_iff rfl).mpr fun _ => ?_, (updateFits_iff rfl).mpr ?_, trivial⟩
    all_goals rfl

/-- The number that one thread has closed goes to an open of the other before it is
forgotten. -/
def forgottenLate : List (HookStep Nat Unit Bool) :=
  [.opened true [] ⟨3, some 7⟩ (), .update true, .closed true 3, .opened false [] ⟨3, some 8⟩ (),
    .update false, .update true]

theorem forgottenLate_lost :
    twoThreads.Exact ∧ twoThreads.Idle ∧ (twoThreads.run forgottenLate).Idle ∧
      (twoThreads.run forgottenLate).denoted 3 = some (some 8) ∧
      (twoThreads.run forgottenLate).recorded 3 = none := by
  refine ⟨exact_twoThreads, fun _ => rfl, ?_, by decide +kernel, by decide +kernel⟩
  show ∀ thread, (twoThreads.run forgottenLate).pending thread = none
  decide +kernel

end Hooks

end SandboxVfs
