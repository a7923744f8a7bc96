import SandboxVfs.LockedCalls

/-! What the calls of a `MemoryFS` do under their locks before they change anything. Neither
what a thread knows nor what it has under way is lost by it. -/

namespace SandboxVfs

open LockedPrograms

namespace MemoryFS

/-- What a lock protects of the namespace. -/
def Lock.Same : Lock → MemoryState → MemoryState → Prop
  | .entries d, m, m' => ∀ x, m'.fs.entryAt d x = m.fs.entryAt d x
  | _, _, _ => True

theorem Lock.same_refl (l : Lock) (m : MemoryState) : l.Same m m := by
  cases l with
  | entries d => exact fun _ => rfl
  | _ => trivial

theorem Lock.same_trans (l : Lock) (m₁ m₂ m₃ : MemoryState) (h : l.Same m₁ m₂)
    (h' : l.Same m₂ m₃) : l.Same m₁ m₃ := by
  cases l with
  | entries d => exact fun x => (h' x).trans (h x)
  | _ => trivial

theorem Act.apply_same {m : MemoryState} (hm : Fresh m) {a : Act} {held : List (Lock × Bool)}
    (ha : ∀ d, a.dir? = some d → (.entries d, true) ∈ held) {l : Lock}
    (hl : (l, true) ∉ held) : l.Same m (a.apply m) := by
  cases l with
  | entries d => exact Act.apply_entryAt_ne hm fun hd => hl (ha d hd)
  | _ => trivial

/-- A lock that may be taken while entries are locked. -/
def Lock.Leaf : Lock → Prop
  | .entries _ => False
  | _ => True

/-- An action that leaves entries, kinds and the node map as they are. -/
def Act.Quiet : Act → Prop
  | .look | .openBacking | .setParent _ _ | .clearLinks _ | .setMode _ _ => True
  | _ => False

variable {T G : Type} [DecidableEq T]

/-- The quiet actions are always permitted, and the order puts entries first. -/
structure Reads (D : Discipline T Lock Act MemoryState G) : Prop where
  apply_look : ∀ m, D.apply .look m = m
  leaf : ∀ m d l, l.Leaf → D.below m (.entries d) l
  quiet : ∀ i g held m a, D.Sees i g m → a.Quiet → D.Permits i g held a m g

namespace Locked

variable {D : Discipline T Lock Act MemoryState G} {i : T} {g : G} {held : List (Lock × Bool)}
  {K : MemoryState → Prop} {α β : Type} {l : Lock} {write : Bool} {p : Prog α}

abbrev Keeps (D : Discipline T Lock Act MemoryState G) (i : T) (held : List (Lock × Bool)) (g : G)
    (K : MemoryState → Prop) (p : Prog α) : Prop :=
  Triple D i held g K p fun _ g' m => g' = g ∧ K m

theorem pure_keeps (a : α) : Keeps D i held g K (pure a : Prog α) :=
  Triple.pure fun _ hk => ⟨rfl, hk⟩

theorem Keeps.bind {f : α → Prog β} {R : β → G → MemoryState → Prop} (hp : Keeps D i held g K p)
    (hf : ∀ a, Triple D i held g K (f a) R) : Triple D i held g K (p >>= f) R :=
  Triple.bind hp fun a _ => (hf a).subst

theorem Keeps.bindSome {p : Prog (Option α)} {f : α → Prog (Option β)}
    {R : Option β → G → MemoryState → Prop} (hp : Keeps D i held g K p)
    (hnone : ∀ m, K m → R none g m) (hf : ∀ a, Triple D i held g K (f a) R) :
    Triple D i held g K (p.bindSome f) R :=
  hp.bind fun _ => Triple.elim (fun _ => Triple.pure hnone) fun a _ => hf a

theorem Keeps.andThen {p : Prog (Option α)} {f : α → Prog (Option β)} (hp : Keeps D i held g K p)
    (hf : ∀ a, Keeps D i held g K (f a)) : Keeps D i held g K (p.bindSome f) :=
  hp.bindSome (fun _ hk => ⟨rfl, hk⟩) hf

theorem Keeps.holding (hK : D.Stable i g held K) (hb : ∀ m, K m → ∀ h ∈ held, D.below m h.1 l)
    (hp : Keeps D i ((l, write) :: held) g K p) : Keeps D i held g K (.holding l write p) := by
  refine Triple.holding hK hb (fun a g' m m' hr hq => ?_) hp
  obtain ⟨rfl, hk⟩ := hq
  exact ⟨rfl, hK.cons _ m m' hr hk⟩

theorem unheld_below {P : MemoryState → Lock → Lock → Prop} :
    ∀ m, K m → ∀ h ∈ ([] : List (Lock × Bool)), P m h.1 l :=
  fun _ _ _ hh => absurd hh List.not_mem_nil

def OnlyEntries (held : List (Lock × Bool)) : Prop := ∀ h ∈ held, ∃ d, h.1 = .entries d

theorem none_only : OnlyEntries [] := fun _ hh => absurd hh List.not_mem_nil

theorem entries_only (d : NodeId) (write : Bool) : OnlyEntries [(.entries d, write)] := by
  intro h hh
  rw [List.mem_singleton.mp hh]
  exact ⟨d, rfl⟩

theorem leaf_below (hD : Reads D) (hl : l.Leaf) (ho : OnlyEntries held) :
    ∀ m, K m → ∀ h ∈ held, D.below m h.1 l := by
  intro m _ h hh
  obtain ⟨d, hd⟩ := ho h hh
  rw [hd]
  exact hD.leaf m d l hl

theorem act_known (hD : Reads D) (hK : D.Stable i g held K) {a : Act} (ha : a.Quiet)
    {f : MemoryState → α} : Triple D i held g K (.act a fun m => .done (f m)) fun r g' m =>
      g' = g ∧ K m ∧ ∃ m, f m = r := by
  refine Triple.act hK fun m hm hk _ => ?_
  have hp := hD.quiet i g held m a hm ha
  obtain ⟨gs, hg, hinv⟩ := hm
  refine ⟨g, hp, rfl, hK m _ ⟨⟨gs, hg, ?_⟩, hp.keeps, fun h hh => ?_⟩ hk, m, rfl⟩
  · rw [← Function.update_eq_self i gs, hg]
    exact hp.inv gs hg hinv
  · exact (hD.quiet i g [] m a ⟨gs, hg, hinv⟩ ha).frame h.1 List.not_mem_nil

theorem act_keeps (hD : Reads D) (hK : D.Stable i g held K) {a : Act} (ha : a.Quiet)
    {f : MemoryState → α} : Keeps D i held g K (.act a fun m => .done (f m)) :=
  (act_known hD hK ha).imp (fun _ hk => hk) fun _ _ _ hq => ⟨hq.1, hq.2.1⟩

theorem look_known (hD : Reads D) (hK : D.Stable i g held K) (f : MemoryState → α) :
    Triple D i held g K (look f) fun a g' m => g' = g ∧ K m ∧ f m = a := by
  refine Triple.act hK fun m hm hk _ => ⟨g, hD.quiet i g held m .look hm trivial, rfl, ?_⟩
  rw [hD.apply_look]
  exact ⟨hk, rfl⟩

theorem look_keeps (hD : Reads D) (hK : D.Stable i g held K) (f : MemoryState → α) :
    Keeps D i held g K (look f) :=
  (look_known hD hK f).imp (fun _ hk => hk) fun _ _ _ hq => ⟨hq.1, hq.2.1⟩

theorem look_bind (hD : Reads D) (hK : D.Stable i g held K) {f : MemoryState → α}
    {q : α → Prog β} {R : β → G → MemoryState → Prop}
    (h : ∀ a, Triple D i held g (fun m => K m ∧ f m = a) (q a) R) :
    Triple D i held g K (look f >>= q) R :=
  Triple.bind (look_known hD hK f) fun a _ => (h a).subst

theorem look_bindSome (hD : Reads D) (hK : D.Stable i g held K) {f : MemoryState → Option α}
    {q : α → Prog (Option β)} {R : Option β → G → MemoryState → Prop}
    (hnone : ∀ m, K m → R none g m)
    (h : ∀ a, Triple D i held g (fun m => K m ∧ f m = some a) (q a) R) :
    Triple D i held g K ((look f).bindSome q) R := by
  refine look_bind hD hK fun o => Triple.elim (fun _ => Triple.pure fun m hk => hnone m hk.1) ?_
  rintro a rfl
  exact h a

/-- What was read under a lock of its own has been so, and may be so no more. -/
theorem reading_known (hD : Reads D) (hK : D.Stable i g held K)
    (hb : ∀ m, K m → ∀ h ∈ held, D.below m h.1 l) (f : MemoryState → α) :
    Triple D i held g K (reading l f) fun a g' m => g' = g ∧ K m ∧ ∃ m, f m = a := by
  refine Triple.holding hK hb (fun a g' m m' hr hq => ?_)
    ((look_known hD (hK.cons _) f).imp (fun _ hk => hk) fun _ _ m hq => ⟨hq.1, hq.2.1, m, hq.2.2⟩)
  obtain ⟨rfl, hk, ha⟩ := hq
  exact ⟨rfl, hK.cons _ m m' hr hk, ha⟩

theorem reading_keeps (hD : Reads D) (hK : D.Stable i g held K)
    (hb : ∀ m, K m → ∀ h ∈ held, D.below m h.1 l) (f : MemoryState → α) :
    Keeps D i held g K (reading l f) :=
  (reading_known hD hK hb f).imp (fun _ hk => hk) fun _ _ _ hq => ⟨hq.1, hq.2.1⟩

theorem writing_keeps (hD : Reads D) (hK : D.Stable i g held K)
    (hb : ∀ m, K m → ∀ h ∈ held, D.below m h.1 l) {a : Act} (ha : a.Quiet) :
    Keeps D i held g K (writing l a) := Keeps.holding hK hb (act_keeps hD (hK.cons _) ha)

theorem nodeFromMap_bind (hD : Reads D) (hK : D.Stable i g held K) (ho : OnlyEntries held)
    {id : NodeId} {q : Prog β} {f : NodeId → Prog β} {R : β → G → MemoryState → Prop}
    (hq : Triple D i held g K q R) (hf : Triple D i held g K (f id) R) :
    Triple D i held g K (nodeFromMap id >>= fun o => o.elim q f) R := by
  have hb : ∀ m, K m → ∀ h ∈ held, D.below m h.1 .nodes := leaf_below hD trivial ho
  refine Triple.bind (reading_known hD hK hb _) fun o g' m hm hr => ?_
  obtain ⟨rfl, hk, m', hm'⟩ := hr
  refine Triple.elim (fun _ => hq) (fun node hn => ?_) m hm hk
  obtain ⟨-, rfl⟩ := nodeFromMap_eq_some.mp (hm'.trans hn)
  exact hf

theorem nodeFromMap_bindSome (hD : Reads D) (hK : D.Stable i g held K) (ho : OnlyEntries held)
    {id : NodeId} {f : NodeId → Prog (Option β)} {R : Option β → G → MemoryState → Prop}
    (hnone : ∀ m, K m → R none g m) (hf : Triple D i held g K (f id) R) :
    Triple D i held g K ((nodeFromMap id).bindSome f) R :=
  nodeFromMap_bind hD hK ho (Triple.pure hnone) hf

theorem nodeFromMap_keeps (hD : Reads D) (hK : D.Stable i g held K) (ho : OnlyEntries held)
    (id : NodeId) : Keeps D i held g K (nodeFromMap id) :=
  reading_keeps hD hK (leaf_below hD (l := .nodes) trivial ho) _

/-- The check looks into the directory itself, whose parent may be locked. -/
theorem isEmpty_keeps (hD : Reads D) (hK : D.Stable i g held K) {c : NodeId}
    (hb : ∀ m, K m → ∀ h ∈ held, D.below m h.1 (.entries c)) : Keeps D i held g K (isEmpty c) :=
  reading_keeps hD hK hb _

theorem kindMatches_keeps (hD : Reads D) (hK : D.Stable i g held K) {c : NodeId}
    (hb : ∀ m, K m → ∀ h ∈ held, D.below m h.1 (.entries c)) (kind : VfsEntryKind) :
    Keeps D i held g K (kindMatches c kind) := by
  cases kind with
  | file => exact (look_keeps hD hK _).bind fun _ => pure_keeps _
  | dir =>
    exact (look_keeps hD hK _).bind fun _ =>
      Triple.ite (fun _ => isEmpty_keeps hD hK hb) fun _ => pure_keeps _

theorem canReplaceNode_keeps (hD : Reads D) (hK : D.Stable i g held K) (source : NodeId)
    {c : NodeId} (hb : ∀ m, K m → ∀ h ∈ held, D.below m h.1 (.entries c)) :
    Keeps D i held g K (canReplaceNode source c) :=
  (look_keeps hD hK _).bind fun _ => Triple.ite
    (fun _ => (look_keeps hD hK _).bind fun _ =>
      Triple.ite (fun _ => isEmpty_keeps hD hK hb) fun _ => pure_keeps _)
    fun _ => (look_keeps hD hK _).bind fun _ => pure_keeps _

section

variable (hD : Reads D) (hK : D.Stable i g [] K)

include hD hK

theorem child_keeps (node : NodeId) (name : FileName) : Keeps D i [] g K (child node name) :=
  (look_keeps hD hK _).bind fun _ =>
    Triple.ite
      (fun _ => (reading_keeps hD hK unheld_below _).andThen (nodeFromMap_keeps hD hK none_only))
      fun _ => pure_keeps none

theorem resolveNames_keeps (node : NodeId) (p : List FileName) :
    Keeps D i [] g K (resolveNames node p) := by
  induction p generalizing node with
  | nil => exact pure_keeps _
  | cons x p ih => exact (child_keeps hD hK node x).andThen ih

theorem resolve_keeps (path : AbsPath) : Keeps D i [] g K (resolve path) :=
  (look_keeps hD hK _).bind fun root =>
    (nodeFromMap_keeps hD hK none_only root).andThen fun node =>
      resolveNames_keeps hD hK node path.names

theorem resolveParent_known (path : AbsPath) :
    Triple D i [] g K (resolveParent path) fun r g' m =>
      g' = g ∧ K m ∧ ∀ t, r = some t → path.fileName = some t.2 := by
  refine Triple.elim (fun _ => Triple.pure fun _ hk => ⟨rfl, hk, nofun⟩) fun parent _ => ?_
  refine (resolve_keeps hD hK parent).bindSome (fun _ hk => ⟨rfl, hk, nofun⟩) fun d => ?_
  refine Triple.pure fun _ hk => ⟨rfl, hk, fun t ht => ?_⟩
  obtain ⟨x, hx, rfl⟩ := Option.map_eq_some_iff.mp ht
  exact hx

theorem resolveParent_keeps (path : AbsPath) : Keeps D i [] g K (resolveParent path) :=
  (resolveParent_known hD hK path).imp (fun _ hk => hk) fun _ _ _ hq => ⟨hq.1, hq.2.1⟩

theorem resolveParent_bindSome {path : AbsPath} {f : NodeId × FileName → Prog (Option β)}
    {R : Option β → G → MemoryState → Prop} (hnone : ∀ m, K m → R none g m)
    (hf : ∀ d x, path.fileName = some x → Triple D i [] g K (f (d, x)) R) :
    Triple D i [] g K ((resolveParent path).bindSome f) R := by
  refine Triple.bind (resolveParent_known hD hK path) fun r g' => Triple.subst ?_
  refine Triple.elim (fun _ => Triple.pure fun m hk => hnone m hk.1) fun t ht m hm hk => ?_
  exact hf t.1 t.2 (hk.2 t ht) m hm hk.1

theorem stepRelative_keeps (node : NodeId) (c : Component) :
    Keeps D i [] g K (stepRelative node c) := by
  cases c with
  | curDir => exact pure_keeps _
  | normal name => exact child_keeps hD hK node name
  | parentDir =>
    exact (reading_keeps hD hK unheld_below _).andThen (nodeFromMap_keeps hD hK none_only)

theorem resolveRelative_keeps (start : NodeId) (path : RelPath) :
    Keeps D i [] g K (resolveRelative start path) := by
  unfold resolveRelative
  induction path.components generalizing start with
  | nil => exact pure_keeps _
  | cons c cs ih => exact (stepRelative_keeps hD hK start c).andThen ih

theorem chmod_keeps (path : AbsPath) (mode : Mode) : Keeps D i [] g K (chmod path mode) :=
  (resolve_keeps hD hK path).andThen fun _ =>
    (writing_keeps hD hK unheld_below (a := .setMode _ _) trivial).bind fun _ => pure_keeps _

theorem openFound_known (node : NodeId) (flags : Flags) :
    Triple D i [] g K (openFound node flags) fun r g' m =>
      g' = g ∧ K m ∧ (0 ≤ r.fd → r.opened = some node) := by
  refine (look_keeps hD hK _).bind fun _ => Triple.ite (fun _ => ?_) fun _ => ?_
  · exact Triple.pure fun _ hk => ⟨rfl, hk, fun hfd => absurd hfd (by simp)⟩
  · refine (act_known hD hK (a := .openBacking) trivial).imp (fun _ hk => hk) fun r _ _ hq => ?_
    obtain ⟨hg, hk, m, rfl⟩ := hq
    exact ⟨hg, hk, fun hfd => if_neg (not_lt.mpr hfd)⟩

omit hK in
theorem countDirs_keeps (hK : D.Stable i g held K) (ho : OnlyEntries held) (ids : List NodeId) :
    Keeps D i held g K (countDirs ids) := by
  induction ids with
  | nil => exact pure_keeps _
  | cons id ids ih =>
    exact (nodeFromMap_keeps hD hK ho id).bind fun o =>
      Keeps.bind (Triple.elim (fun _ => pure_keeps _) fun _ _ => look_keeps hD hK _) fun _ =>
        ih.bind fun _ => pure_keeps _

theorem linkCount_keeps (id : NodeId) : Keeps D i [] g K (linkCount id) := by
  refine (reading_keeps hD hK unheld_below _).bind fun _ => Triple.ite (fun _ => pure_keeps _) fun _ =>
    (look_keeps hD hK _).bind fun _ => Triple.ite (fun _ => ?_) fun _ => pure_keeps _
  exact Keeps.holding hK unheld_below ((look_keeps hD (hK.cons _) _).bind fun _ =>
    (countDirs_keeps hD (hK.cons _) (entries_only id false) _).bind fun _ => pure_keeps _)

theorem statNode_keeps (id : NodeId) : Keeps D i [] g K (statNode id) :=
  (look_keeps hD hK _).bind fun _ => (look_keeps hD hK _).bind fun _ =>
    (reading_keeps hD hK unheld_below _).bind fun _ =>
      (linkCount_keeps hD hK id).bind fun _ => pure_keeps _

omit hK in
theorem listEntries_keeps (hK : D.Stable i g held K) (ho : OnlyEntries held)
    (es : List (FileName × NodeId)) : Keeps D i held g K (listEntries es) := by
  induction es with
  | nil => exact pure_keeps _
  | cons e es ih =>
    exact (nodeFromMap_keeps hD hK ho e.2).andThen fun _ => (look_keeps hD hK _).bind fun _ =>
      ih.andThen fun _ => pure_keeps _

theorem readNodeDir_keeps (id : NodeId) : Keeps D i [] g K (readNodeDir id) :=
  (look_keeps hD hK _).bind fun _ => Triple.ite
    (fun _ => Keeps.holding hK unheld_below ((look_keeps hD (hK.cons _) _).bind fun _ =>
      listEntries_keeps hD (hK.cons _) (entries_only id false) _))
    fun _ => pure_keeps none

end

end Locked

end MemoryFS

end SandboxVfs
