import SandboxVfs.LockedCalls
import SandboxVfs.WholeTrees

/-! Two calls on one `MemoryFS`, lock by lock in any order, and what they should leave
behind. -/

namespace SandboxVfs

open LockedPrograms NameGraph

namespace MemoryFS

/-- Two threads with a call each. A call returns its answer and what it has done. -/
abbrev Calls := LockedPrograms.Config Bool Lock Act MemoryState (FsAnswer × Effect)

namespace Calls

def start (m : MemoryState) (calls : Bool → FsCall) : Calls :=
  ⟨m, fun i => ⟨(calls i).traced, []⟩⟩

abbrev turn : Calls → Bool → Calls := LockedPrograms.Config.turn Act.apply

def run (c : Calls) (schedule : List Bool) : Calls := schedule.foldl turn c

def effect (c : Calls) (i : Bool) : Effect :=
  match (c.worker i).prog with
  | .done r => r.2
  | _ => .unchanged

end Calls

/-- What a call has seen under an earlier lock is still so when it acts on it. -/
def Act.StillValid (m : MemoryState) : Act → Prop
  | .entryInsert d x id => d ∈ m.fs.nodes ∧ ¬ Reaches m.fs.entryAt id d ∧
    ∀ there, m.fs.entryAt d x = some there → m.fs.canReplaceNode id there = true
  | .entryRemove d x (some c) => m.fs.entryAt d x = some c ∧ c ∈ m.fs.nodes
  | .entryRemove d x none => ∀ c, m.fs.entryAt d x = some c → c ∉ m.fs.nodes
  | .mapRemove c => m.fs.Childless c
  | _ => True

def Calls.StillValid (c : Calls) (i : Bool) : Prop :=
  ∀ a p, (c.worker i).prog = .act a p → a.StillValid c.state

/-- The node is where the other call has put it, or went as that call may take it. -/
def Effect.Accounts (fs : MemoryFS) (n : NodeId) : Effect → Prop
  | .removed c => c = n
  | .moved c b y replaced =>
    c = n ∧ fs.entryAt b y = some n ∨ replaced = some n ∧ fs.canReplaceNode c n = true
  | _ => False

/-- The effect of a call can be seen, except for what the other call has done since. -/
def Effect.Shown (fs : MemoryFS) (effect other : Effect) : Prop :=
  match effect with
  | .unchanged => True
  | .created d x n => n ∈ fs.nodes ∧ fs.entryAt d x = some n ∨ other.Accounts fs n
  | .removed c => c ∉ fs.nodes ∧ ∀ d x, fs.entryAt d x ≠ some c
  | .moved c b y replaced =>
    (c ∈ fs.nodes ∧ fs.entryAt b y = some c ∨ other.Accounts fs c) ∧
      ∀ r, replaced = some r → r ∉ fs.nodes ∧ ∀ d x, fs.entryAt d x ≠ some r

/-- A call that returns success has done what it is for. A rename has nothing to do when
the two paths are the same, and an open when the file is there. -/
def FsCall.Reports : FsCall → FsAnswer → Effect → Prop
  | .mkdir path _, .status r, e => r = 0 → ∃ d x n, path.fileName = some x ∧ e = .created d x n
  | .mkdirChild _ path _, .status r, e =>
    r = 0 → ∃ d x n, path.fileName = some x ∧ e = .created d x n
  | .unlink _, .status r, e => r = 0 → ∃ c, e = .removed c
  | .rmdir _, .status r, e => r = 0 → ∃ c, e = .removed c
  | .rename oldPath newPath, .status r, e =>
    r = 0 → oldPath.components = newPath.components ∨
      ∃ c b y replaced, newPath.fileName = some y ∧ e = .moved c b y replaced
  | .openWithHandle path _ _, .opened r, e =>
    0 ≤ r.fd → e = .unchanged ∨
      ∃ d x n, path.fileName = some x ∧ r.opened = some n ∧ e = .created d x n
  | .openChild _ path _ _, .opened r, e =>
    0 ≤ r.fd → e = .unchanged ∨
      ∃ d x n, path.fileName = some x ∧ r.opened = some n ∧ e = .created d x n
  | _, _, _ => True

/-- The directories hang together, and both calls have done what they report. -/
structure Calls.Settled (calls : Bool → FsCall) (c : Calls) : Prop where
  in_map : ∀ d x n, Reaches c.state.fs.entryAt c.state.fs.root d →
    c.state.fs.entryAt d x = some n → n ∈ c.state.fs.nodes
  once : ∀ a x b y n, c.state.fs.entryAt a x = some n → c.state.fs.entryAt b y = some n →
    a = b ∧ x = y
  acyclic : Acyclic c.state.fs.entryAt
  joined : ∀ d x n, c.state.fs.entryAt d x = some n → Reaches c.state.fs.entryAt c.state.fs.root d
  shown : ∀ i answer effect, (c.worker i).prog = .done (answer, effect) →
    (calls i).Reports answer effect ∧ effect.Shown c.state.fs (c.effect !i)

end MemoryFS

end SandboxVfs
