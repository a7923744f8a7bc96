import SandboxVfs.NamespaceTree
import SandboxVfs.Processes

/-! The write lock of the table of descriptors. A reference that the table gives up goes
away while the lock is held; when it is the last one to a node, the destructor of the node
closes its backing file through the hook, and the hook wants the lock again. -/

namespace SandboxVfs

variable {ι : Type} [DecidableEq ι]

/-- A process between two steps of a call, with the lock of the table. -/
structure Process (ι : Type) where
  vfs : Vfs ι
  fdsHeld : Bool

namespace Process

/-- `fds.write()`. `none` is a call that waits for itself. -/
def lockFds (s : Process ι) : Option (Process ι) :=
  if s.fdsHeld then none else some { s with fdsHeld := true }

/-- A reference goes away, and the node with the last one; `Drop for Node` closes its
backing file. -/
def discard (close : Int → Process ι → Option (Process ι)) (s : Process ι) :
    Option (MemoryOpenedFile ι) → Option (Process ι)
  | none => some s
  | some h => if s.vfs.referenced h then some s else close (s.vfs.backingFd h) s

/-- A hooked call, for which `close` is the hook that a destructor runs. -/
def callWith (close : Int → Process ι → Option (Process ι)) (c : HookCall) (s : Process ι) :
    Option (Process ι) :=
  let r := s.vfs.effect c
  if s.vfs.updatesTable c then do
    let s ← s.lockFds
    let s ← discard close { s with vfs := r.1 } r.2
    return { s with fdsHeld := false }
  else discard close { s with vfs := r.1 } r.2

/-- The hook of `close` with a bound on the calls inside one another. -/
def close : Nat → Int → Process ι → Option (Process ι)
  | 0, _, _ => none
  | n + 1, fd, s => callWith (close n) (.close fd) s

/-- Two calls of `close` inside one another are all that ever run (`close_eq`). -/
def call (s : Process ι) (c : HookCall) : Option (Process ι) := callWith (close 2) c s

end Process

namespace Process

open Vfs

variable {v : Vfs ι}

theorem close_held (n : Nat) (fd : Int) (v : Vfs ι) :
    close (n + 1) fd ⟨v, true⟩ = if fd ∈ v.live then none else some ⟨v, true⟩ := by
  by_cases hfd : fd ∈ v.live
  · simp [close, callWith, updatesTable, hfd, lockFds]
  · simp [close, callWith, updatesTable, hfd, effect_close_of_notMem, discard]

/-- The number of a backing file that a destructor closes is open. -/
def DropCloses (r : Vfs ι × Option (MemoryOpenedFile ι)) : Prop := ∃ b ∈ r.1.live, Drops r b

theorem discard_held (n : Nat) (r : Vfs ι × Option (MemoryOpenedFile ι)) :
    discard (close (n + 1)) ⟨r.1, true⟩ r.2 = none ∧ DropCloses r ∨
      discard (close (n + 1)) ⟨r.1, true⟩ r.2 = some ⟨r.1, true⟩ ∧ ¬ DropCloses r := by
  obtain ⟨v, o⟩ := r
  cases o with
  | none => exact Or.inr ⟨rfl, fun ⟨b, _, h, hh, _⟩ => by cases hh⟩
  | some h =>
    simp only [discard, close_held]
    by_cases hr : v.referenced h = true
    · refine Or.inr ⟨if_pos hr, ?_⟩
      rintro ⟨b, -, h', hh, hr', -⟩
      cases hh
      rw [hr] at hr'
      cases hr'
    · rw [if_neg hr]
      by_cases hb : v.backingFd h ∈ v.live
      · exact Or.inl ⟨if_pos hb, _, hb, h, rfl, by simpa using hr, rfl⟩
      · refine Or.inr ⟨if_neg hb, ?_⟩
        rintro ⟨b, hb', h', hh, -, rfl⟩
        cases hh
        exact hb hb'

theorem callWith_updates (n : Nat) {c : HookCall} (hc : v.updatesTable c = true) :
    callWith (close (n + 1)) c ⟨v, false⟩ = none ∧ DropCloses (v.effect c) ∨
      callWith (close (n + 1)) c ⟨v, false⟩ = some ⟨(v.effect c).1, false⟩ ∧
        ¬ DropCloses (v.effect c) := by
  simp only [callWith, hc, lockFds]
  rcases discard_held n (v.effect c) with ⟨he, hd⟩ | ⟨he, hd⟩
  · exact Or.inl ⟨by simp [he], hd⟩
  · exact Or.inr ⟨by simp [he], hd⟩

theorem close_eq (n : Nat) (fd : Int) (s : Process ι) : close (n + 2) fd s = close 2 fd s := by
  obtain ⟨v, held⟩ := s
  cases held with
  | true => rw [close_held, close_held]
  | false =>
    by_cases hfd : fd ∈ v.live
    · have hc : v.updatesTable (.close fd) = true := decide_eq_true hfd
      show callWith (close (n + 1)) _ _ = callWith (close 1) _ _
      rcases callWith_updates n hc with ⟨he, hd⟩ | ⟨he, hd⟩ <;>
        rcases callWith_updates 0 hc with ⟨he', hd'⟩ | ⟨he', hd'⟩
      · rw [he, he']
      · exact absurd hd hd'
      · exact absurd hd' hd
      · rw [he, he']
    · simp [close, callWith, updatesTable, hfd, effect_close_of_notMem, discard]

/-- The hook of `close` runs itself in the destructors. -/
theorem close_unfold (fd : Int) (s : Process ι) : close 2 fd s = callWith (close 2) (.close fd) s :=
  (close_eq 1 fd s).symm

/-- The call asks for the lock that it holds: a destructor that runs under the lock closes
something, or one does that runs in the `close` of another. -/
def Stuck (v : Vfs ι) (c : HookCall) : Prop :=
  ∃ b ∈ (v.effect c).1.live, Drops (v.effect c) b ∧
    (v.updatesTable c = true ∨ DropCloses ((v.effect c).1.effect (.close b)))

theorem discard_eq {r : Vfs ι × Option (MemoryOpenedFile ι)} (h : ¬ DropCloses r) (n : Nat) :
    Vfs.discard (closeHook n) r = r.1 := by
  rcases discard_cases (closeHook n) r with ⟨he, -⟩ | ⟨b, hd, -, he⟩
  · exact he
  · rw [he]
    exact closeHook_of_notMem n fun hb => h ⟨b, hb, hd⟩

theorem hookStep_eq {c : HookCall} (h : ¬ DropCloses (v.effect c)) : v.hookStep c = (v.effect c).1 :=
  discard_eq h _

/-- A call that does not wait for itself does what it does without the lock. -/
theorem call_cases (v : Vfs ι) (c : HookCall) :
    call ⟨v, false⟩ c = none ∧ Stuck v c ∨
      call ⟨v, false⟩ c = some ⟨v.hookStep c, false⟩ ∧ ¬ Stuck v c := by
  by_cases hc : v.updatesTable c = true
  · rcases callWith_updates 1 hc with ⟨he, b, hb, hd⟩ | ⟨he, hd⟩
    · exact Or.inl ⟨he, b, hb, hd, Or.inl hc⟩
    · rw [hookStep_eq hd]
      exact Or.inr ⟨he, fun ⟨b, hb, hs, _⟩ => hd ⟨b, hb, hs⟩⟩
  · have hcall : call ⟨v, false⟩ c =
        discard (close 2) ⟨(v.effect c).1, false⟩ (v.effect c).2 := by
      simp [call, callWith, hc]
    rw [hcall]
    by_cases hd : DropCloses (v.effect c)
    · obtain ⟨b, hb, h, hh, hr, rfl⟩ := hd
      have hupd : (v.effect c).1.updatesTable (.close ((v.effect c).1.backingFd h)) = true :=
        decide_eq_true hb
      have hdisc : discard (close 2) ⟨(v.effect c).1, false⟩ (v.effect c).2 =
          callWith (close 1) (.close ((v.effect c).1.backingFd h)) ⟨(v.effect c).1, false⟩ := by
        rw [hh]
        simp [discard, hr, close]
      rw [hdisc]
      rcases callWith_updates 0 hupd with ⟨he, hd'⟩ | ⟨he, hd'⟩
      · exact Or.inl ⟨he, _, hb, ⟨h, hh, hr, rfl⟩, Or.inr hd'⟩
      · right
        obtain ⟨n, hn⟩ := Nat.exists_eq_add_one.mpr (Finset.card_pos.mpr ⟨_, hb⟩)
        have hhook : v.hookStep c =
            Vfs.discard (closeHook n) ((v.effect c).1.effect (.close ((v.effect c).1.backingFd h))) := by
          rw [hookStep, hn, Vfs.discard, hh]
          simp only [hr, Bool.false_eq_true, if_false]
          rfl
        rw [hhook, discard_eq hd']
        refine ⟨he, ?_⟩
        rintro ⟨b, -, ⟨h', hh', -, rfl⟩, hupd' | hd''⟩
        · exact hc hupd'
        · cases hh.symm.trans hh'
          exact hd' hd''
    · rw [hookStep_eq hd]
      refine Or.inr ⟨?_, fun ⟨b, hb, hs, _⟩ => hd ⟨b, hb, hs⟩⟩
      cases hh : (v.effect c).2 with
      | none => rfl
      | some h =>
        by_cases hr : (v.effect c).1.referenced h = true
        · exact if_pos hr
        · have hb : (v.effect c).1.backingFd h ∉ (v.effect c).1.live :=
            fun hb => hd ⟨_, hb, h, hh, by simpa using hr, rfl⟩
          have hclose : close 2 ((v.effect c).1.backingFd h) ⟨(v.effect c).1, false⟩ =
              some ⟨(v.effect c).1, false⟩ := by
            simp [close, callWith, updatesTable, hb, effect_close_of_notMem, discard]
          simp only [discard, if_neg hr, hclose]

end Process

namespace Vfs

variable {v : Vfs ι}

/-- The call discards the last reference to a node while it holds the lock, and another
number is that of the backing file. -/
def Deadlocks (v : Vfs ι) : HookCall → Prop
  | .close fd => fd ∈ v.live ∧ ∃ b ∈ v.live, b ≠ fd ∧ v.LastEntry fd b
  | .dup oldfd newfd =>
    (oldfd ∈ v.live ∧ 0 ≤ newfd) ∧ oldfd ≠ newfd ∧ ∃ b ∈ v.live, v.LastEntry newfd b
  | .vfs op =>
    ∃ h, v.removed op = some h ∧ (∀ fd, v.opened fd ≠ some h) ∧ v.backingFd h ∈ v.live ∧
      ∃ b ∈ v.live, b ≠ v.backingFd h ∧ v.LastEntry (v.backingFd h) b

theorem dropCloses_close_iff {fd : Int} (hfd : fd ∈ v.live) :
    Process.DropCloses (v.effect (.close fd)) ↔ ∃ b ∈ v.live, b ≠ fd ∧ v.LastEntry fd b := by
  have hlive : (v.effect (.close fd)).1.live = v.live.erase fd := by
    rw [effect_close hfd, closed_live]
  simp only [Process.DropCloses, hlive, drops_close_iff hfd, Finset.mem_erase]
  refine exists_congr fun b => ?_
  tauto

theorem stuck_iff (hv : v.Ready) (c : HookCall) : Process.Stuck v c ↔ v.Deadlocks c := by
  cases c with
  | close fd =>
    by_cases hfd : fd ∈ v.live
    · have hupd : v.updatesTable (.close fd) = true := decide_eq_true hfd
      simp only [Process.Stuck, hupd, true_or, and_true, Deadlocks, hfd, true_and]
      exact dropCloses_close_iff hfd
    · refine iff_of_false ?_ fun hd => hfd hd.1
      rintro ⟨b, -, ⟨h, hh, -⟩, -⟩
      rw [effect_close_of_notMem hfd] at hh
      cases hh
  | dup oldfd newfd =>
    by_cases hdup : oldfd ∈ v.live ∧ 0 ≤ newfd
    · have hupd : v.updatesTable (.dup oldfd newfd) = true := decide_eq_true hdup
      simp only [Process.Stuck, hupd, true_or, and_true, Deadlocks, hdup, true_and,
        drops_dup_iff hdup]
      constructor
      · rintro ⟨b, hb, hne, hlast⟩
        refine ⟨hne, b, ?_, hlast⟩
        -- a number with an entry is open before the call
        obtain ⟨h, ho, -⟩ := hlast
        have hnew : newfd ∈ v.live := by
          by_contra hnew
          rw [hv.opened_eq_none hnew] at ho
          cases ho
        rw [effect_dup hdup, duplicated_live, Finset.insert_eq_of_mem hnew] at hb
        exact hb
      · rintro ⟨hne, b, hb, hlast⟩
        refine ⟨b, ?_, hne, hlast⟩
        rw [effect_dup hdup, duplicated_live]
        exact Finset.mem_insert_of_mem hb
    · refine iff_of_false ?_ fun hd => hdup hd.1
      rintro ⟨b, -, ⟨h, hh, -⟩, -⟩
      rw [effect_dup_of_not hdup] at hh
      cases hh
  | vfs op =>
    constructor
    · rintro ⟨b, hb, hd, hs⟩
      obtain ⟨h, hr, hno, rfl⟩ := (drops_vfs_iff hv).mp hd
      obtain ⟨heff, hupd⟩ := effect_of_removed hr
      have hlive : (v.step op).live = v.live := (removed_spec hv.wf hr).2.2.1
      rw [heff, hlive] at hb
      rw [hupd, heff] at hs
      have hs' := hs.resolve_left Bool.false_ne_true
      rw [dropCloses_close_iff (hlive ▸ hb), hlive] at hs'
      simp only [lastEntry_step_iff hv hr hno] at hs'
      exact ⟨h, hr, hno, hb, hs'⟩
    · rintro ⟨h, hr, hno, hb, hlast⟩
      obtain ⟨heff, -⟩ := effect_of_removed hr
      have hlive : (v.step op).live = v.live := (removed_spec hv.wf hr).2.2.1
      refine ⟨v.backingFd h, ?_, (drops_vfs_iff hv).mpr ⟨h, hr, hno, rfl⟩, Or.inr ?_⟩
      · rwa [heff, hlive]
      · rw [heff, dropCloses_close_iff (hlive ▸ hb), hlive]
        simpa only [lastEntry_step_iff hv hr hno] using hlast

end Vfs

namespace Process

def step (s : Option (Process ι)) (c : HookCall) : Option (Process ι) := s.bind (·.call c)

def run (s : Option (Process ι)) (calls : List HookCall) : Option (Process ι) :=
  calls.foldl step s

theorem run_none (calls : List HookCall) : run (none : Option (Process ι)) calls = none := by
  induction calls with
  | nil => rfl
  | cons c calls ih => exact ih

/-- A run of hooked calls never asks for the lock of the table while it holds it, as long
as no call discards the last reference to a node under the lock, with the number of its
backing file open. -/
theorem run_isSome_iff {v : Vfs ι} (hv : v.Ready) (calls : List HookCall) :
    (run (some ⟨v, false⟩) calls).isSome = true ↔
      Runs.EveryStep step (fun s c => ∀ p, s = some p → ¬ p.vfs.Deadlocks c) (some ⟨v, false⟩)
        calls := by
  induction calls generalizing v with
  | nil => exact iff_of_true rfl trivial
  | cons c calls ih =>
    have hrun : run (some ⟨v, false⟩) (c :: calls) = run (call ⟨v, false⟩ c) calls := rfl
    have hhead : (∀ p : Process ι, some ⟨v, false⟩ = some p → ¬ p.vfs.Deadlocks c) ↔
        ¬ Stuck v c := by
      rw [Vfs.stuck_iff hv]
      constructor
      · intro h
        exact h _ rfl
      · rintro h p he
        cases he
        exact h
    rw [hrun]
    simp only [Runs.EveryStep, hhead]
    rcases call_cases v c with ⟨he, hd⟩ | ⟨he, hd⟩
    · rw [he, run_none]
      exact iff_of_false (by simp) fun h => h.1 hd
    · have hstep : step (some ⟨v, false⟩) c = some ⟨v.hookStep c, false⟩ := he
      rw [he, hstep, ih (Vfs.hookStep_ready hv c)]
      exact (and_iff_right hd).symm

theorem newMemory_ready (inodeForPath : List (List UInt8) → Nat) (sys : Sys) :
    (Vfs.newMemory inodeForPath sys).Ready where
  wf := Vfs.newMemory_wf inodeForPath sys
  memory := ⟨⟨_, rfl⟩, fun _ _ h => by cases h⟩
  live := by
    intro fd hfd
    simp [Vfs.newMemory, RootVFS.new] at hfd

def started : Option (Process Unit) := some ⟨Vfs.newMemory (fun _ => 0) .boot, false⟩

def createF : HookCall := .vfs (.openPath (.abs (PathBuf.toAbs [.f])) O_CREAT 0o644)
def unlinkF : HookCall := .vfs (.unlink (.abs (PathBuf.toAbs [.f])))

/-- The file is closed first, and the map has the last reference. -/
theorem isSome_createF :
    (run started [createF, .close 5, unlinkF]).isSome = true ∧
      Runs.EveryStep step (fun s c => ∀ p, s = some p → ¬ p.vfs.Deadlocks c) started
        [createF, .close 5, unlinkF] :=
  ⟨by decide +kernel, (run_isSome_iff (newMemory_ready _ _) _).mp (by decide +kernel)⟩

/-- The name goes first, and `close` discards the last reference. -/
theorem unlinked_close_waits : run started [createF, unlinkF, .close 5] = none := by
  rw [← Option.not_isSome_iff_eq_none]
  decide +kernel

end Process

end SandboxVfs
