import SandboxVfs.LockedReads
import SandboxVfs.WholeTrees

/-! Threads that share a `MemoryFS` do not wait for each other in a circle, as long as no
directory comes to lie below itself. -/

namespace SandboxVfs

open LockedPrograms NameGraph

namespace MemoryFS

/-- The entries of a directory come before the entries of what is in it, and all entries
before the other locks. -/
def Lock.Below (m : MemoryState) : Lock → Lock → Prop
  | .entries d, .entries c => Link m.fs.entryAt d c
  | .entries _, _ => True
  | _, _ => False

def lockOrder (T : Type) : Discipline T Lock Act MemoryState Unit where
  apply := Act.apply
  same := Lock.Same
  same_refl := Lock.same_refl
  same_trans := Lock.same_trans
  keeps _ _ := True
  keeps_refl _ := trivial
  keeps_trans _ _ _ _ _ := trivial
  below := Lock.Below
  allowed _ _ := True
  inv _ := Fresh

theorem below_entries {m : MemoryState} {l l' : Lock}
    (h : Relation.TransGen (Lock.Below m) l l') :
    ∃ d, l = .entries d ∧ ∀ c, l' = .entries c → Relation.TransGen (Link m.fs.entryAt) d c := by
  have hfrom {l l' : Lock} (h : Lock.Below m l l') : ∃ d, l = .entries d := by
    cases l with
    | entries d => exact ⟨d, rfl⟩
    | nodes => exact absurd h id
    | parent i => exact absurd h id
    | mode i => exact absurd h id
    | links i => exact absurd h id
  induction h with
  | single h =>
    obtain ⟨d, rfl⟩ := hfrom h
    refine ⟨d, rfl, ?_⟩
    rintro c rfl
    exact .single h
  | tail _ h ih =>
    obtain ⟨d, rfl, hd⟩ := ih
    obtain ⟨e, rfl⟩ := hfrom h
    refine ⟨d, rfl, ?_⟩
    rintro c rfl
    exact (hd e rfl).tail h

theorem below_irrefl {m : MemoryState} (h : Acyclic m.fs.entryAt) (l : Lock) :
    ¬ Relation.TransGen (Lock.Below m) l l := by
  intro hl
  obtain ⟨d, rfl, hd⟩ := below_entries hl
  exact h d (hd d rfl)

namespace Locked

variable {T : Type} [DecidableEq T] {i : T} {α β : Type} {held : List (Lock × Bool)}
  {K : MemoryState → Prop} {l : Lock} {write : Bool} {p : Prog α}

/-- With these guards and this knowledge, the program keeps to the order, and gives back
whatever it takes. -/
abbrev Ok (i : T) (held : List (Lock × Bool)) (K : MemoryState → Prop) (p : Prog α) : Prop :=
  Triple (lockOrder T) i held () K p fun _ _ _ => True

abbrev Stable (i : T) (held : List (Lock × Bool)) (K : MemoryState → Prop) : Prop :=
  (lockOrder T).Stable i () held K

abbrev Anything : MemoryState → Prop := fun _ => True

theorem permits {a : Act} {m : MemoryState} (hm : (lockOrder T).Sees i () m)
    (h : ∀ d, a.dir? = some d → (.entries d, true) ∈ held) :
    (lockOrder T).Permits i () held a m () := by
  obtain ⟨_, _, hf⟩ := hm
  exact ⟨fun _ hl => Act.apply_same hf h hl, trivial, fun _ _ _ => Act.apply_fresh hf a⟩

theorem lockOrder_reads : Reads (lockOrder T) where
  apply_look _ := rfl
  leaf m d l hl := by
    cases l with
    | entries c => exact absurd hl id
    | _ => trivial
  quiet i _ held m a hm ha := by
    refine permits hm fun d hd => ?_
    cases a with
    | entryInsert d x c => exact absurd ha not_false
    | entryRemove d x c => exact absurd ha not_false
    | _ => cases hd

omit [DecidableEq T] in
theorem stable_anything : Stable i held Anything := Discipline.stable_true

theorem Ok.imp {K' : MemoryState → Prop} (hk : ∀ m, K m → K' m) (h : Ok i held K' p) :
    Ok i held K p := Triple.imp hk (fun _ _ _ hh => hh) h

theorem Ok.of_anything (h : Ok i held Anything p) : Ok i held K p := h.imp fun _ _ => trivial

theorem Keeps.ok (h : Keeps (lockOrder T) i held () K p) : Ok i held K p :=
  Triple.imp (fun _ hk => hk) (fun _ _ _ _ => trivial) h

theorem pure_ok (a : α) : Ok i held K (pure a : Prog α) := Triple.pure fun _ _ => trivial

theorem bind_ok {f : α → Prog β} (hp : Ok i held K p) (hf : ∀ a, Ok i held Anything (f a)) :
    Ok i held K (p >>= f) := Triple.bind hp fun a _ => hf a

theorem bindSome_ok {p : Prog (Option α)} {f : α → Prog (Option β)} (hp : Ok i held K p)
    (hf : ∀ a, Ok i held Anything (f a)) : Ok i held K (p.bindSome f) :=
  Triple.bindSome hp (fun _ _ _ => trivial) fun a _ => hf a

theorem act_ok {a : Act} {f : MemoryState → α}
    (h : ∀ d, a.dir? = some d → (.entries d, true) ∈ held) :
    Ok i held K (.act a fun m => .done (f m)) :=
  Ok.of_anything (Triple.act stable_anything fun _ hm _ _ => ⟨(), permits hm h, trivial⟩)

theorem holding_ok (hK : Stable i held K)
    (hb : ∀ m, K m → ∀ h ∈ held, Lock.Below m h.1 l)
    (hp : Ok i ((l, write) :: held) Anything p) : Ok i held K (.holding l write p) :=
  Triple.holding hK hb (fun _ _ => stable_anything) hp.of_anything

theorem writing_ok {a : Act} (hl : l.Leaf) (ha : a.dir? = none) (ho : OnlyEntries held) :
    Ok i held Anything (writing l a) :=
  holding_ok stable_anything (leaf_below (lockOrder_reads (T := T)) hl ho)
    (act_ok fun d hd => by rw [ha] at hd; cases hd)

/-- The entries of what is an entry of the locked directory. -/
theorem child_below (d c : NodeId) (x : FileName) (m : MemoryState)
    (hc : m.fs.entryAt d x = some c) :
    ∀ h ∈ [(Lock.entries d, true)], Lock.Below m h.1 (.entries c) := by
  intro h hh
  rw [List.mem_singleton.mp hh]
  exact ⟨x, hc⟩

omit [DecidableEq T] in
theorem entry_stable (write : Bool) (d : NodeId) (x : FileName) (o : Option NodeId) :
    Stable i [(.entries d, write)] fun m => m.fs.entryAt d x = o :=
  Discipline.Stable.of_guard (List.mem_singleton_self _)
    fun m m' (hs : ∀ x, m'.fs.entryAt d x = m.fs.entryAt d x) hk => (hs x).trans hk

theorem createNodeInDir_ok (parent : NodeId) (name : FileName) (kind : VfsEntryKind)
    (mode : Mode) : Ok i [] Anything (createNodeInDir parent name kind mode) := by
  refine (look_keeps lockOrder_reads stable_anything _).bind fun _ =>
    Triple.ite (fun _ => ?_) fun _ => pure_ok none
  refine holding_ok stable_anything unheld_below ?_
  refine (look_keeps lockOrder_reads stable_anything _).bind fun _ =>
    Triple.ite (fun _ => pure_ok none) fun _ => bindSome_ok (act_ok fun d hd => by cases hd) ?_
  refine fun id => bind_ok (writing_ok trivial rfl (entries_only parent true)) fun _ =>
    bind_ok (act_ok fun d hd => ?_) fun _ => pure_ok _
  cases hd
  exact List.mem_singleton_self _

theorem createEntry_ok (parent : NodeId) (name : FileName) (kind : VfsEntryKind)
    (mode : Mode) : Ok i [] Anything (createEntry parent name kind mode) :=
  bindSome_ok (createNodeInDir_ok parent name kind mode) fun _ => pure_ok _

theorem createNode_ok (path : AbsPath) (kind : VfsEntryKind) (mode : Mode) :
    Ok i [] Anything (createNode path kind mode) :=
  (resolveParent_keeps lockOrder_reads stable_anything path).bindSome (fun _ _ => trivial)
    fun t => createEntry_ok t.1 t.2 kind mode

theorem createRelativeNode_ok (start : NodeId) (path : RelPath) (kind : VfsEntryKind)
    (mode : Mode) : Ok i [] Anything (createRelativeNode start path kind mode) :=
  Triple.elim (fun _ => pure_ok none) fun parentPath _ =>
    Triple.elim (fun _ => pure_ok none) fun name _ =>
      (resolveRelative_keeps lockOrder_reads stable_anything start parentPath).bindSome
        (fun _ _ => trivial) fun parent => createEntry_ok parent name kind mode

theorem dropNode_ok (ho : OnlyEntries held) (id : NodeId) : Ok i held Anything (dropNode id) :=
  bind_ok (writing_ok trivial rfl ho) fun _ =>
    bind_ok (writing_ok trivial rfl ho) fun _ => writing_ok trivial rfl ho

theorem entryRemove_ok (d : NodeId) (x : FileName) (c : Option NodeId) :
    Ok i [(.entries d, true)] Anything (perform (.entryRemove d x c)) := by
  refine act_ok fun b hb => ?_
  cases hb
  exact List.mem_singleton_self _

theorem entryInsert_ok (d : NodeId) (x : FileName) (c : NodeId) :
    Ok i [(.entries d, true)] Anything (perform (.entryInsert d x c)) := by
  refine act_ok fun b hb => ?_
  cases hb
  exact List.mem_singleton_self _

theorem removeEntry_ok (parent : NodeId) (name : FileName) (kind : VfsEntryKind) :
    Ok i [] Anything (removeEntry parent name kind) := by
  have ho := entries_only parent true
  refine (look_keeps lockOrder_reads stable_anything _).bind fun _ =>
    Triple.ite (fun _ => ?_) fun _ => pure_ok none
  refine holding_ok stable_anything unheld_below ?_
  refine look_bindSome lockOrder_reads stable_anything (fun _ _ => trivial) fun id => ?_
  have hK := entry_stable (i := i) true parent name (some id)
  refine Triple.imp (fun _ hk => hk.2) (fun _ _ _ hh => hh)
    (nodeFromMap_bind lockOrder_reads hK ho ?_ ?_)
  · exact bind_ok (entryRemove_ok parent name none).of_anything fun _ => pure_ok none
  · have hb := child_below parent id name
    refine bind_ok (kindMatches_keeps lockOrder_reads hK hb kind).ok fun _ =>
      Triple.ite (fun _ => ?_) fun _ => pure_ok none
    exact bind_ok (entryRemove_ok parent name _) fun _ =>
      bind_ok (dropNode_ok ho id) fun _ => pure_ok _

theorem removeNodeAt_ok (path : AbsPath) (kind : VfsEntryKind) :
    Ok i [] Anything (removeNodeAt path kind) :=
  Triple.ite (fun _ => pure_ok none) fun _ =>
    (resolveParent_keeps lockOrder_reads stable_anything path).bindSome (fun _ _ => trivial)
      fun t => removeEntry_ok t.1 t.2 kind

theorem clearTarget_ok (d : NodeId) (y : FileName) (node : NodeId) (there : Option NodeId) :
    Ok i [(.entries d, true)] (fun m => m.fs.entryAt d y = there) (clearTarget node there) := by
  have ho := entries_only d true
  refine Triple.elim (fun _ => pure_ok _) fun id hid => ?_
  subst hid
  have hK := entry_stable (i := i) true d y (some id)
  refine nodeFromMap_bindSome lockOrder_reads hK ho (fun _ _ => trivial) ?_
  refine bind_ok (canReplaceNode_keeps lockOrder_reads hK node (child_below d id y)).ok fun _ => ?_
  exact Triple.ite (fun _ => bind_ok (dropNode_ok ho id) fun _ => pure_ok _) fun _ => pure_ok none

theorem renameWithin_ok (oldPath newPath : AbsPath) (parent : NodeId)
    (oldName newName : FileName) :
    Ok i [] Anything (renameWithin oldPath newPath parent oldName newName) := by
  have ho := entries_only parent true
  have hfind (f : MemoryState → Option NodeId) : Keeps (lockOrder T) i [(.entries parent, true)] ()
      Anything (look f) := look_keeps lockOrder_reads stable_anything f
  refine holding_ok stable_anything unheld_below ?_
  refine (hfind _).bindSome (fun _ _ => trivial) fun oldId => ?_
  refine (nodeFromMap_keeps lockOrder_reads stable_anything ho oldId).bindSome
    (fun _ _ => trivial) fun node => ?_
  refine (look_keeps lockOrder_reads stable_anything _).bind fun _ =>
    Triple.ite (fun _ => pure_ok none) fun _ => ?_
  refine look_bind lockOrder_reads stable_anything fun there =>
    Triple.ite (fun _ => pure_ok _) fun _ => ?_
  refine Ok.imp (fun _ hk => hk.2) (bindSome_ok (clearTarget_ok parent newName node there) ?_)
  exact fun _ => bind_ok (entryRemove_ok parent oldName _) fun _ =>
    bind_ok (entryInsert_ok parent newName oldId) fun _ => pure_ok _

theorem attach_ok (node newParent : NodeId) (newName : FileName) :
    Ok i [] Anything (attach node newParent newName) := by
  have ho := entries_only newParent true
  refine holding_ok stable_anything unheld_below (bind_ok (act_ok fun d hd => ?_) fun there => ?_)
  · cases hd
    exact List.mem_singleton_self _
  refine bind_ok (Triple.elim (fun _ => pure_ok _) fun id _ => ?_) fun _ =>
    bind_ok (writing_ok trivial rfl ho) fun _ => pure_ok _
  refine (nodeFromMap_keeps lockOrder_reads stable_anything ho id).bind fun o => ?_
  refine bind_ok (Triple.elim (fun _ => pure_ok _) fun _ _ => ?_) fun _ => writing_ok trivial rfl ho
  exact bind_ok (writing_ok trivial rfl ho) fun _ => writing_ok trivial rfl ho

theorem move_ok (oldParent newParent : NodeId) (oldName newName : FileName) (node : NodeId) :
    Ok i [] Anything (move oldParent newParent oldName newName node) :=
  bind_ok (holding_ok stable_anything unheld_below (entryRemove_ok oldParent oldName _)) fun _ =>
    bind_ok (attach_ok node newParent newName) fun _ => pure_ok _

theorem renameAcross_ok (oldPath newPath : AbsPath) (oldParent newParent : NodeId)
    (oldName newName : FileName) :
    Ok i [] Anything (renameAcross oldPath newPath oldParent newParent oldName newName) := by
  have hread {α : Type} (l : Lock) (f : MemoryState → α) :
      Keeps (lockOrder T) i [] () Anything (reading l f) :=
    reading_keeps lockOrder_reads stable_anything unheld_below f
  have hmap (id : NodeId) : Keeps (lockOrder T) i [] () Anything (nodeFromMap id) :=
    nodeFromMap_keeps lockOrder_reads stable_anything none_only id
  refine (hread _ _).bindSome (fun _ _ => trivial) fun oldId => (hmap oldId).bindSome
    (fun _ _ => trivial) fun node => ?_
  refine (look_keeps lockOrder_reads stable_anything _).bind fun _ =>
    Triple.ite (fun _ => pure_ok none) fun _ => ?_
  refine (hread _ _).bind fun there => Triple.elim (fun _ => move_ok _ _ _ _ _) fun id _ => ?_
  refine Triple.ite (fun _ => pure_ok _) fun _ => (hmap id).bindSome (fun _ _ => trivial) ?_
  exact fun replaced =>
    (canReplaceNode_keeps lockOrder_reads stable_anything node unheld_below).bind fun _ =>
      Triple.ite (fun _ => move_ok _ _ _ _ _) fun _ => pure_ok none

theorem renameNodeAt_ok (oldPath newPath : AbsPath) :
    Ok i [] Anything (renameNodeAt oldPath newPath) := by
  have hparent (path : AbsPath) : Keeps (lockOrder T) i [] () Anything (resolveParent path) :=
    resolveParent_keeps lockOrder_reads stable_anything path
  have hdir (id : NodeId) : Keeps (lockOrder T) i [] () Anything (isDir id) :=
    look_keeps lockOrder_reads stable_anything _
  refine Triple.ite (fun _ => pure_ok none) fun _ => Triple.ite (fun _ => pure_ok _) fun _ => ?_
  refine (hparent oldPath).bindSome (fun _ _ => trivial) fun old =>
    (hparent newPath).bindSome (fun _ _ => trivial) fun new =>
      (hdir old.1).bind fun _ => (hdir new.1).bind fun _ => ?_
  refine Triple.ite (fun _ => Triple.ite (fun _ => ?_) fun _ => ?_) fun _ => pure_ok none
  · exact renameWithin_ok oldPath newPath old.1 old.2 new.2
  · exact renameAcross_ok oldPath newPath old.1 new.1 old.2 new.2

theorem openResolvedNode_ok {create : Prog (Option (NodeId × Effect))}
    (hc : Ok i [] Anything create) (existing : Option NodeId) (flags : Flags) :
    Ok i [] Anything (openResolvedNode existing create flags) := by
  have hfound (node : NodeId) : Keeps (lockOrder T) i [] () Anything (openFound node flags) :=
    (openFound_known lockOrder_reads stable_anything node flags).imp (fun _ hk => hk)
      fun _ _ _ hq => ⟨hq.1, hq.2.1⟩
  refine Triple.elim
    (fun _ => Triple.ite (fun _ => bind_ok hc fun made => ?_) fun _ => pure_ok _) ?_
  · exact Triple.elim (fun _ => pure_ok _) fun t _ => (hfound t.1).bind fun _ => pure_ok _
  · exact fun node _ => Triple.ite (fun _ => pure_ok _) fun _ =>
      (hfound node).bind fun _ => pure_ok _

theorem openNode_ok (path : AbsPath) (flags : Flags) (mode : Mode) :
    Ok i [] Anything (openNode path flags mode) :=
  (resolve_keeps lockOrder_reads stable_anything path).bind fun _ =>
    openResolvedNode_ok (createNode_ok path .file mode) _ flags

theorem openNodeRelative_ok (start : NodeId) (path : RelPath) (flags : Flags) (mode : Mode) :
    Ok i [] Anything (openNodeRelative start path flags mode) :=
  (resolveRelative_keeps lockOrder_reads stable_anything start path).bind fun _ =>
    openResolvedNode_ok (createRelativeNode_ok start path .file mode) _ flags

theorem call_ok (call : FsCall) : Ok i [] Anything call.locked := by
  have hret {α β : Type} {p : Prog α} (f : α → β) (hp : Ok i [] Anything p) :
      Ok i [] Anything (p >>= fun a => pure (f a)) := bind_ok hp fun _ => pure_ok _
  have hD : Reads (lockOrder T) := lockOrder_reads
  have hK : Stable i [] Anything := stable_anything
  refine hret Prod.fst ?_
  cases call with
  | access path => exact hret _ (resolve_keeps hD hK path).ok
  | openWithHandle path flags mode => exact hret _ (openNode_ok path flags mode)
  | mkdir path mode => exact hret _ (createNode_ok path .dir mode)
  | unlink path => exact hret _ (removeNodeAt_ok path .file)
  | rmdir path => exact hret _ (removeNodeAt_ok path .dir)
  | rename oldPath newPath => exact hret _ (renameNodeAt_ok oldPath newPath)
  | chmod path mode => exact hret _ (chmod_keeps hD hK path mode).ok
  | stat path =>
    exact hret _ (bindSome_ok (resolve_keeps hD hK path).ok fun node =>
      hret _ (statNode_keeps hD hK node).ok)
  | readDir path =>
    exact hret _ (bindSome_ok (resolve_keeps hD hK path).ok fun node =>
      (readNodeDir_keeps hD hK node).ok)
  | openChild node path flags mode => exact hret _ (openNodeRelative_ok node path flags mode)
  | mkdirChild node path mode => exact hret _ (createRelativeNode_ok node path .dir mode)
  | nodeStat node => exact hret _ (statNode_keeps hD hK node).ok
  | nodeReadDir node => exact hret _ (readNodeDir_keeps hD hK node).ok

end Locked

/-- What a thread does: one call after the other, each chosen by the answers so far. -/
inductive Client where
  | done
  | call (c : FsCall) (next : FsAnswer → Client)

def Client.prog : Client → Locked.Prog Unit
  | .done => pure ()
  | .call c next => c.locked >>= fun a => (next a).prog

theorem Client.prog_ok {T : Type} [DecidableEq T] (i : T) (client : Client) :
    Locked.Ok i [] Locked.Anything client.prog := by
  induction client with
  | done => exact Locked.pure_ok ()
  | call c next ih => exact Locked.bind_ok (Locked.call_ok c) ih

abbrev Threads (T : Type) := LockedPrograms.Config T Lock Act MemoryState Unit

variable {T : Type} [DecidableEq T] {m : MemoryState} {clients : T → Client} {c c' : Threads T}

def Threads.start (m : MemoryState) (clients : T → Client) : Threads T :=
  ⟨m, fun i => ⟨(clients i).prog, []⟩⟩

/-- The thread does not put a node into a directory that is the node itself or lies below it. -/
def Threads.Careful (c : Threads T) (i : T) : Prop :=
  ∀ d x id p, (c.worker i).prog = .act (.entryInsert d x id) p →
    ¬ Reaches c.state.fs.entryAt id d

def Threads.Goes (c c' : Threads T) : Prop :=
  ∃ i, c.Careful i ∧ LockedPrograms.Config.Step Act.apply c i c'

/-- A thread that is done has given back its guards. -/
def Returned (_ : T) (_ : Unit) (_ : Unit) (held : List (Lock × Bool)) : Prop := held = []

theorem start_orderly (hm : Fresh m) (clients : T → Client) :
    (Threads.start m clients).Orderly (lockOrder T) Returned fun _ => () where
  inv := hm
  worker i :=
    ((clients i).prog_ok i m ⟨fun _ => (), rfl, hm⟩ trivial).imp fun _ _ _ _ h => h.1
  alone _ _ _ _ hh := absurd hh List.not_mem_nil

theorem step_acyclic {i : T} (ho : Fresh c.state) (ha : Acyclic c.state.fs.entryAt)
    (hi : c.Careful i) (hs : LockedPrograms.Config.Step Act.apply c i c') :
    Acyclic c'.state.fs.entryAt := by
  cases hs with
  | acquire hp hf => exact ha
  | release hp => exact ha
  | @act a p hp =>
    show Acyclic (a.apply c.state).fs.entryAt
    cases hdir : a.dir? with
    | none =>
      rw [show (a.apply c.state).fs.entryAt = c.state.fs.entryAt from
        funext fun d => funext fun x => Act.apply_entryAt ho hdir d x]
      exact ha
    | some b =>
      cases a with
      | entryInsert d y id =>
        refine ha.of_link (hi d y id p hp) fun n m hl => ?_
        obtain ⟨x, hx⟩ := hl
        rw [show (Act.entryInsert d y id).apply c.state =
          ⟨c.state.fs.insertEntry d y id, c.state.sys⟩ from rfl, insertEntry_entryAt] at hx
        split_ifs at hx with hd
        · exact Or.inr ⟨hd.1, (Option.some.inj hx).symm⟩
        · exact Or.inl ⟨x, hx⟩
      | entryRemove d y e =>
        refine ha.mono fun n m hl => ?_
        obtain ⟨x, hx⟩ := hl
        rw [show (Act.entryRemove d y e).apply c.state =
          ⟨c.state.fs.eraseEntry d y, c.state.sys⟩ from rfl, eraseEntry_entryAt] at hx
        split_ifs at hx
        exact ⟨x, hx⟩
      | _ => cases hdir

theorem run_inv (hm : Fresh m) (ha : Acyclic m.fs.entryAt)
    (h : Relation.ReflTransGen Threads.Goes (Threads.start m clients) c) :
    (∃ gs, c.Orderly (lockOrder T) Returned gs) ∧ Acyclic c.state.fs.entryAt := by
  induction h with
  | refl => exact ⟨⟨_, start_orderly hm clients⟩, ha⟩
  | tail _ hg ih =>
    obtain ⟨⟨gs, ho⟩, hac⟩ := ih
    obtain ⟨i, hi, hs⟩ := hg
    obtain ⟨g, ho'⟩ := ho.step (fun _ _ _ => trivial) hs
    exact ⟨⟨_, ho'⟩, step_acyclic ho.inv hac hi hs⟩

/-- No circle of threads that wait for each other, and no run without an end. -/
theorem threads_return [Finite T] (hm : Fresh m) (ha : Acyclic m.fs.entryAt)
    (clients : T → Client) :
    (∀ c, Relation.ReflTransGen Threads.Goes (Threads.start m clients) c →
      c.Finished ∨ ∃ i, c.CanGo i) ∧
    ¬ ∃ run : Nat → Threads T,
      ∀ n, ∃ i, LockedPrograms.Config.Step Act.apply (run n) i (run (n + 1)) := by
  refine ⟨fun c h => ?_, ?_⟩
  · obtain ⟨⟨gs, ho⟩, hac⟩ := run_inv hm ha h
    exact ho.canGo (fun _ _ _ _ hh => hh) (below_irrefl hac)
  · rintro ⟨run, hrun⟩
    have hwf : IsWellFounded (Threads T)
        fun c' c => ∃ i, LockedPrograms.Config.Step Act.apply c i c' :=
      ⟨LockedPrograms.Config.step_wf Act.apply⟩
    obtain ⟨n, hn⟩ := WellFounded.not_rel_apply_succ (h := hwf) run
    exact hn (hrun n)

def xAndD : MemoryState :=
  let made := (MemoryFS.createNode (MemoryFS.new .boot) (PathBuf.toAbs [.x]) .dir 0o755).2
  (MemoryFS.createNode made (PathBuf.toAbs [.d]) .dir 0o755).2

theorem xAndD_whole : xAndD.fs.Whole xAndD.sys.nextNodeId :=
  ((new_whole .boot).createNode _ _ _).createNode _ _ _

def Client.only (c : FsCall) : Client := .call c fun _ => .done

/-- Two renames that put each directory into the other one, and the removals of both. -/
def crossedRenames : Fin 4 → Client
  | 0 => .only (.rename (PathBuf.toAbs [.x]) (PathBuf.toAbs [.d, .b]))
  | 1 => .only (.rename (PathBuf.toAbs [.d]) (PathBuf.toAbs [.x, .a]))
  | 2 => .only (.rmdir (PathBuf.toAbs [.x, .a]))
  | 3 => .only (.rmdir (PathBuf.toAbs [.d, .b]))

theorem xAndD_threads_return :
    (∀ c, Relation.ReflTransGen Threads.Goes (Threads.start xAndD crossedRenames) c →
      c.Finished ∨ ∃ i, c.CanGo i) ∧
    ¬ ∃ run : Nat → Threads (Fin 4), ∀ n, ∃ i,
      LockedPrograms.Config.Step Act.apply (run n) i (run (n + 1)) :=
  threads_return (fresh_of_wf xAndD_whole.wf) xAndD_whole.acyclic crossedRenames

/-- All four have found the parents that they need before the first entry is moved. -/
def crossedSchedule : List (Fin 4) :=
  List.replicate 12 2 ++ List.replicate 12 3 ++ List.replicate 27 0 ++ List.replicate 27 1 ++
    List.replicate 9 0 ++ List.replicate 9 1 ++ List.replicate 6 2 ++ List.replicate 6 3

/-- Each directory is then an entry of the other one. Each removal has locked the one and
asks for the other. -/
theorem crossedRenames_stuck :
    ∃ c, Relation.ReflTransGen
        (fun c c' => ∃ i, LockedPrograms.Config.Step Act.apply c i c')
        (Threads.start xAndD crossedRenames) c ∧
      ¬ c.Finished ∧ ∀ i c', ¬ LockedPrograms.Config.Step Act.apply c i c' := by
  have hrun : ((Threads.start xAndD crossedRenames).play Act.apply crossedSchedule).any
      (fun c => decide ((∀ i, (c.go Act.apply i).isNone) ∧ (c.worker 2).prog.returned = false)) =
        true := by decide +kernel
  obtain ⟨c, hc, h⟩ := (Option.any_eq_true _ _).mp hrun
  obtain ⟨hgo, hret⟩ := of_decide_eq_true h
  refine ⟨c, LockedPrograms.Config.play_steps hc, fun hfin => ?_, fun i c' hs => ?_⟩
  · obtain ⟨a, ha⟩ := hfin 2
    rw [ha] at hret
    cases hret
  · have hsome := LockedPrograms.Config.go_eq_some_iff.mpr hs
    have hnone := hgo i
    rw [hsome] at hnone
    cases hnone

end MemoryFS

end SandboxVfs
