import Mathlib

/-! Programs that take and give back locks, and threads that run them side by side. Locks
that are asked for upwards in an order cannot make all threads wait, also when the order
depends on what the locks protect. -/

namespace SandboxVfs.LockedPrograms

variable {T L A σ G α β : Type}

/-- An action is one change of the state. The program goes on with the state before it. -/
inductive Prog (L A σ α : Type) where
  | done (a : α)
  | acquire (l : L) (write : Bool) (next : Prog L A σ α)
  | release (l : L) (next : Prog L A σ α)
  | act (a : A) (next : σ → Prog L A σ α)

namespace Prog

def bind : Prog L A σ α → (α → Prog L A σ β) → Prog L A σ β
  | .done a, f => f a
  | .acquire l write p, f => .acquire l write (p.bind f)
  | .release l p, f => .release l (p.bind f)
  | .act a p, f => .act a fun s => (p s).bind f

instance : Monad (Prog L A σ) where
  pure := .done
  bind := bind

theorem bind_eq (p : Prog L A σ α) (f : α → Prog L A σ β) : p >>= f = p.bind f := rfl

def bindSome (p : Prog L A σ (Option α)) (f : α → Prog L A σ (Option β)) :
    Prog L A σ (Option β) :=
  p >>= fun o => o.elim (pure none) f

/-- A guard that lives as long as the body. -/
def holding (l : L) (write : Bool) (body : Prog L A σ α) : Prog L A σ α :=
  .acquire l write (body.bind fun a => .release l (.done a))

def returned : Prog L A σ α → Bool
  | .done _ => true
  | _ => false

/-- What the program does when nobody else runs. -/
def alone (apply : A → σ → σ) : Prog L A σ α → σ → α × σ
  | .done a, s => (a, s)
  | .acquire _ _ p, s => p.alone apply s
  | .release _ p, s => p.alone apply s
  | .act a p, s => (p s).alone apply (apply a s)

variable {apply : A → σ → σ}

theorem alone_bind (p : Prog L A σ α) (f : α → Prog L A σ β) (s : σ) :
    (p >>= f).alone apply s = (f (p.alone apply s).1).alone apply (p.alone apply s).2 := by
  rw [bind_eq]
  induction p generalizing s with
  | done a => rfl
  | acquire l write p ih => exact ih s
  | release l p ih => exact ih s
  | act a p ih => exact ih s (apply a s)

@[simp] theorem alone_pure (a : α) (s : σ) :
    (pure a : Prog L A σ α).alone apply s = (a, s) := rfl

@[simp] theorem alone_holding (l : L) (write : Bool) (body : Prog L A σ α) (s : σ) :
    (holding l write body).alone apply s = body.alone apply s :=
  alone_bind body (fun a => .release l (.done a)) s

theorem alone_bindSome (p : Prog L A σ (Option α)) (f : α → Prog L A σ (Option β)) (s : σ) :
    (p.bindSome f).alone apply s =
      (p.alone apply s).1.elim (none, (p.alone apply s).2)
        fun a => (f a).alone apply (p.alone apply s).2 := by
  rw [bindSome, alone_bind]
  cases (p.alone apply s).1 <;> rfl

theorem eq_done_of_returned {p : Prog L A σ α} (h : p.returned = true) : ∃ a, p = .done a := by
  cases p with
  | done a => exact ⟨a, rfl⟩
  | _ => cases h

/-- What is left to do after one step. -/
inductive After : Prog L A σ α → Prog L A σ α → Prop
  | acquire (l : L) (write : Bool) (p : Prog L A σ α) : After p (.acquire l write p)
  | release (l : L) (p : Prog L A σ α) : After p (.release l p)
  | act (a : A) (p : σ → Prog L A σ α) (s : σ) : After (p s) (.act a p)

theorem after_wf : WellFounded (After (L := L) (A := A) (σ := σ) (α := α)) := by
  constructor
  intro p
  induction p with
  | done a => exact ⟨_, fun q h => by cases h⟩
  | acquire l write p ih => exact ⟨_, fun q h => by cases h; exact ih⟩
  | release l p ih => exact ⟨_, fun q h => by cases h; exact ih⟩
  | act a p ih => exact ⟨_, fun q h => by cases h; exact ih _⟩

end Prog

/-- The program that a thread has still to run, and the guards that it has. -/
structure Worker (L A σ α : Type) where
  prog : Prog L A σ α
  held : List (L × Bool)

structure Config (T L A σ α : Type) where
  state : σ
  worker : T → Worker L A σ α

namespace Config

variable [DecidableEq T] [DecidableEq L]

/-- A lock may be shared by those who only read. -/
def Free (c : Config T L A σ α) (l : L) (write : Bool) : Prop :=
  ∀ j, ∀ h ∈ (c.worker j).held, h.1 = l → write = false ∧ h.2 = false

def set (c : Config T L A σ α) (s : σ) (i : T) (w : Worker L A σ α) : Config T L A σ α :=
  ⟨s, Function.update c.worker i w⟩

inductive Step (apply : A → σ → σ) (c : Config T L A σ α) (i : T) : Config T L A σ α → Prop
  | acquire {l : L} {write : Bool} {p : Prog L A σ α}
      (hp : (c.worker i).prog = .acquire l write p) (hf : c.Free l write) :
      Step apply c i (c.set c.state i ⟨p, (l, write) :: (c.worker i).held⟩)
  | release {l : L} {p : Prog L A σ α} (hp : (c.worker i).prog = .release l p) :
      Step apply c i (c.set c.state i ⟨p, (c.worker i).held.eraseP (·.1 = l)⟩)
  | act {a : A} {p : σ → Prog L A σ α} (hp : (c.worker i).prog = .act a p) :
      Step apply c i (c.set (apply a c.state) i ⟨p c.state, (c.worker i).held⟩)

instance [Fintype T] (c : Config T L A σ α) (l : L) (write : Bool) : Decidable (c.Free l write) :=
  inferInstanceAs (Decidable (∀ j, ∀ h ∈ (c.worker j).held, h.1 = l → write = false ∧ h.2 = false))

/-- The step of the thread, if it can take one. -/
def go [Fintype T] (apply : A → σ → σ) (c : Config T L A σ α) (i : T) :
    Option (Config T L A σ α) :=
  match (c.worker i).prog with
  | .done _ => none
  | .acquire l write p =>
    if c.Free l write then some (c.set c.state i ⟨p, (l, write) :: (c.worker i).held⟩) else none
  | .release l p => some (c.set c.state i ⟨p, (c.worker i).held.eraseP (·.1 = l)⟩)
  | .act a p => some (c.set (apply a c.state) i ⟨p c.state, (c.worker i).held⟩)

/-- The thread goes on under every policy for the locks: it does not ask for one, or for one
that nobody has. -/
def CanGo (c : Config T L A σ α) (i : T) : Prop :=
  match (c.worker i).prog with
  | .done _ => False
  | .acquire l _ _ => ∀ j, ∀ h ∈ (c.worker j).held, h.1 ≠ l
  | .release _ _ => True
  | .act _ _ => True

def Finished (c : Config T L A σ α) : Prop := ∀ i, ∃ a, (c.worker i).prog = .done a

variable {apply : A → σ → σ} {c c' : Config T L A σ α} {i j : T}

omit [DecidableEq L] in
@[simp] theorem set_self (s : σ) (i : T) (w : Worker L A σ α) : (c.set s i w).worker i = w := by
  simp [set]

omit [DecidableEq L] in
theorem set_ne (s : σ) (w : Worker L A σ α) (h : j ≠ i) :
    (c.set s i w).worker j = c.worker j := by
  simp [set, h]

theorem Step.after (h : Step apply c i c') :
    (c'.worker i).prog.After (c.worker i).prog ∧ ∀ j, j ≠ i → c'.worker j = c.worker j := by
  cases h with
  | acquire hp hf => exact ⟨by rw [set_self, hp]; exact .acquire .., fun j => set_ne _ _⟩
  | release hp => exact ⟨by rw [set_self, hp]; exact .release .., fun j => set_ne _ _⟩
  | act hp => exact ⟨by rw [set_self, hp]; exact .act .., fun j => set_ne _ _⟩

theorem go_eq_some_iff [Fintype T] : c.go apply i = some c' ↔ Step apply c i c' := by
  constructor
  · intro h
    unfold go at h
    cases hp : (c.worker i).prog with
    | done a => simp [hp] at h
    | acquire l write p =>
      simp only [hp] at h
      obtain ⟨hf, hc⟩ := Option.ite_none_right_eq_some.mp h
      exact Option.some.inj hc ▸ .acquire hp hf
    | release l p =>
      simp only [hp] at h
      exact Option.some.inj h ▸ .release hp
    | act a p =>
      simp only [hp] at h
      exact Option.some.inj h ▸ .act hp
  · intro h
    unfold go
    cases h with
    | acquire hp hf => simp [hp, hf]
    | release hp => simp [hp]
    | act hp => simp [hp]

def play [Fintype T] (apply : A → σ → σ) (c : Config T L A σ α) (schedule : List T) :
    Option (Config T L A σ α) := schedule.foldlM (fun c i => c.go apply i) c

theorem play_steps [Fintype T] {schedule : List T} (h : c.play apply schedule = some c') :
    Relation.ReflTransGen (fun c c' => ∃ i, Step apply c i c') c c' := by
  unfold play at h
  induction schedule generalizing c with
  | nil =>
    cases h
    exact .refl
  | cons i schedule ih =>
    obtain ⟨c₁, hc₁, h⟩ := Option.bind_eq_some_iff.mp h
    exact (ih h).head ⟨i, go_eq_some_iff.mp hc₁⟩

/-- Finitely many threads take finitely many steps. -/
theorem step_wf [Finite T] (apply : A → σ → σ) :
    WellFounded fun c' c : Config T L A σ α => ∃ i, Step apply c i c' := by
  have hlex : WellFounded (Pi.Lex (WellOrderingRel (α := T))
      fun {_} => Prog.After (L := L) (A := A) (σ := σ) (α := α)) :=
    Pi.Lex.wellFounded WellOrderingRel fun _ => Prog.after_wf
  refine Subrelation.wf ?_ (InvImage.wf (fun c : Config T L A σ α => fun i => (c.worker i).prog) hlex)
  rintro c' c ⟨i, h⟩
  refine ⟨i, fun j hj => ?_, h.after.1⟩
  have hne : j ≠ i := by
    rintro rfl
    exact irrefl j hj
  exact congrArg Worker.prog (h.after.2 j hne)

/-- The turn of a thread. One that has to wait, or that has finished, does nothing. -/
def turn [Fintype T] (apply : A → σ → σ) (c : Config T L A σ α) (i : T) : Config T L A σ α :=
  (c.go apply i).getD c

theorem turn_cases [Fintype T] (apply : A → σ → σ) (c : Config T L A σ α) (i : T) :
    c.turn apply i = c ∨ Step apply c i (c.turn apply i) := by
  unfold turn
  cases hc : c.go apply i with
  | none => exact Or.inl rfl
  | some c' => exact Or.inr (go_eq_some_iff.mp hc)

end Config

/-- What each lock protects, what no action undoes, in which order locks may be taken, when
an action may be performed, and what holds of the state and of all that the threads have
under way. -/
structure Discipline (T L A σ G : Type) where
  apply : A → σ → σ
  same : L → σ → σ → Prop
  same_refl : ∀ l s, same l s s
  same_trans : ∀ l s₁ s₂ s₃, same l s₁ s₂ → same l s₂ s₃ → same l s₁ s₃
  keeps : σ → σ → Prop
  keeps_refl : ∀ s, keeps s s
  keeps_trans : ∀ s₁ s₂ s₃, keeps s₁ s₂ → keeps s₂ s₃ → keeps s₁ s₃
  below : σ → L → L → Prop
  allowed : A → σ → Prop
  inv : (T → G) → σ → Prop

namespace Discipline

variable (D : Discipline T L A σ G) (i : T) {g : G} {held : List (L × Bool)} {s s' s'' : σ}

/-- The invariant, as the thread sees it that has `g` under way. -/
def Sees (g : G) (s : σ) : Prop := ∃ gs, gs i = g ∧ D.inv gs s

/-- What the others may do to the state of a thread that has these guards. -/
structure Rely (g : G) (held : List (L × Bool)) (s s' : σ) : Prop where
  sees : D.Sees i g s'
  keeps : D.keeps s s'
  same : ∀ h ∈ held, D.same h.1 s s'

/-- What the thread knows is protected by its guards. -/
def Stable (g : G) (held : List (L × Bool)) (K : σ → Prop) : Prop :=
  ∀ s s', D.Rely i g held s s' → K s → K s'

variable {D i}

theorem Rely.refl (h : D.Sees i g s) : D.Rely i g held s s :=
  ⟨h, D.keeps_refl s, fun h _ => D.same_refl h.1 s⟩

theorem Rely.trans (h : D.Rely i g held s s') (h' : D.Rely i g held s' s'') :
    D.Rely i g held s s'' :=
  ⟨h'.sees, D.keeps_trans s s' s'' h.keeps h'.keeps,
    fun x hx => D.same_trans x.1 s s' s'' (h.same x hx) (h'.same x hx)⟩

theorem stable_true : D.Stable i g held fun _ => True := fun _ _ _ _ => trivial

theorem Stable.and {K K' : σ → Prop} (h : D.Stable i g held K) (h' : D.Stable i g held K') :
    D.Stable i g held fun s => K s ∧ K' s :=
  fun s s' hr hk => ⟨h s s' hr hk.1, h' s s' hr hk.2⟩

theorem Stable.const {P : Prop} : D.Stable i g held fun _ => P := fun _ _ _ h => h

theorem Stable.of_guard {K : σ → Prop} {l : L} {write : Bool} (hl : (l, write) ∈ held)
    (h : ∀ s s', D.same l s s' → K s → K s') : D.Stable i g held K :=
  fun s s' hr hk => h s s' (hr.same (l, write) hl) hk

theorem Stable.of_keeps {K : σ → Prop} (h : ∀ s s', D.keeps s s' → K s → K s') :
    D.Stable i g held K := fun s s' hr hk => h s s' hr.keeps hk

theorem Stable.cons {K : σ → Prop} (h : D.Stable i g held K) (x : L × Bool) :
    D.Stable i g (x :: held) K :=
  fun s s' hr hk => h s s' ⟨hr.sees, hr.keeps, fun y hy => hr.same y (List.mem_cons_of_mem x hy)⟩ hk

end Discipline

variable [DecidableEq T] [DecidableEq L] (D : Discipline T L A σ G) (i : T)

/-- The thread may perform the action, and then has `g'` under way. -/
structure Discipline.Permits (g : G) (held : List (L × Bool)) (a : A) (s : σ) (g' : G) :
    Prop where
  frame : ∀ l, (l, true) ∉ held → D.same l s (D.apply a s)
  keeps : D.keeps s (D.apply a s)
  inv : ∀ gs, gs i = g → D.inv gs s → D.inv (Function.update gs i g') (D.apply a s)

namespace Prog

/-- Whatever the others do in between: the program asks for locks in the order, changes
only what it has locked for writing, keeps the invariant, and what it returns meets the
condition. -/
def Orderly (Q : α → G → List (L × Bool) → σ → Prop) :
    Prog L A σ α → G → List (L × Bool) → σ → Prop
  | .done a, g, held, s => Q a g held s
  | .acquire l write p, g, held, s => ∀ s', D.Rely i g held s s' →
      (∀ h ∈ held, D.below s' h.1 l) ∧ p.Orderly Q g ((l, write) :: held) s'
  | .release l p, g, held, s => ∀ s', D.Rely i g held s s' →
      p.Orderly Q g (held.eraseP (·.1 = l)) s'
  | .act a p, g, held, s => ∀ s', D.Rely i g held s s' → D.allowed a s' →
      ∃ g', D.Permits i g held a s' g' ∧ (p s').Orderly Q g' held (D.apply a s')

end Prog

variable {D i} {held : List (L × Bool)} {g g' : G} {s s' : σ} {l : L}

namespace Prog.Orderly

variable {Q : α → G → List (L × Bool) → σ → Prop} {R : β → G → List (L × Bool) → σ → Prop}
  {p : Prog L A σ α}

theorem rely (hQ : ∀ a g held s s', D.Rely i g held s s' → Q a g held s → Q a g held s')
    (h : p.Orderly D i Q g held s) (hr : D.Rely i g held s s') : p.Orderly D i Q g held s' := by
  cases p with
  | done a => exact hQ a g held s s' hr h
  | acquire l write p => exact fun s'' hr' => h s'' (hr.trans hr')
  | release l p => exact fun s'' hr' => h s'' (hr.trans hr')
  | act a p => exact fun s'' hr' => h s'' (hr.trans hr')

theorem imp {Q' : α → G → List (L × Bool) → σ → Prop}
    (hQ : ∀ a g held s, Q a g held s → Q' a g held s) (h : p.Orderly D i Q g held s) :
    p.Orderly D i Q' g held s := by
  induction p generalizing g held s with
  | done a => exact hQ a g held s h
  | acquire l write p ih => exact fun s' hr => ⟨(h s' hr).1, ih (h s' hr).2⟩
  | release l p ih => exact fun s' hr => ih (h s' hr)
  | act a p ih =>
    intro s' hr ha
    obtain ⟨g', hp, ho⟩ := h s' hr ha
    exact ⟨g', hp, ih s' ho⟩

theorem bind {f : α → Prog L A σ β}
    (h : p.Orderly D i (fun a g held s => (f a).Orderly D i R g held s) g held s) :
    (p >>= f).Orderly D i R g held s := by
  rw [bind_eq]
  induction p generalizing g held s with
  | done a => exact h
  | acquire l write p ih => exact fun s' hr => ⟨(h s' hr).1, ih (h s' hr).2⟩
  | release l p ih => exact fun s' hr => ih (h s' hr)
  | act a p ih =>
    intro s' hr ha
    obtain ⟨g', hp, ho⟩ := h s' hr ha
    exact ⟨g', hp, ih s' ho⟩

end Prog.Orderly

/-- With these guards, this under way and this knowledge, the program is orderly and gives
back whatever it takes. -/
def Triple (D : Discipline T L A σ G) (i : T) (held : List (L × Bool)) (g : G) (K : σ → Prop)
    (p : Prog L A σ α) (Q : α → G → σ → Prop) : Prop :=
  ∀ s, D.Sees i g s → K s →
    p.Orderly D i (fun a g' held' s' => held' = held ∧ D.Sees i g' s' ∧ Q a g' s') g held s

namespace Triple

variable {K K' : σ → Prop} {p : Prog L A σ α} {Q Q' : α → G → σ → Prop} {R : β → G → σ → Prop}
  {write : Bool}

theorem imp (hK : ∀ s, K' s → K s) (hQ : ∀ a g s, Q a g s → Q' a g s)
    (h : Triple D i held g K p Q) : Triple D i held g K' p Q' :=
  fun s hs hk => (h s hs (hK s hk)).imp fun a g _ s hh => ⟨hh.1, hh.2.1, hQ a g s hh.2.2⟩

theorem pure {a : α} (h : ∀ s, K s → Q a g s) : Triple D i held g K (pure a) Q :=
  fun s hs hk => ⟨rfl, hs, h s hk⟩

theorem bind {f : α → Prog L A σ β} (hp : Triple D i held g K p Q)
    (hf : ∀ a g', Triple D i held g' (Q a g') (f a) R) : Triple D i held g K (p >>= f) R := by
  intro s hs hk
  refine Prog.Orderly.bind ((hp s hs hk).imp ?_)
  rintro a g' held' s' ⟨rfl, hs', hq⟩
  exact hf a g' s' hs' hq

theorem subst (h : Triple D i held g K p Q) : Triple D i held g' (fun s => g' = g ∧ K s) p Q := by
  rintro s hs ⟨rfl, hk⟩
  exact h s hs hk

theorem elim {o : Option α} {q : Prog L A σ β} {f : α → Prog L A σ β}
    (hq : o = none → Triple D i held g K q R) (hf : ∀ a, o = some a → Triple D i held g K (f a) R) :
    Triple D i held g K (o.elim q f) R := by
  cases o with
  | none => exact hq rfl
  | some a => exact hf a rfl

theorem ite {c : Prop} [Decidable c] {p q : Prog L A σ α} (hp : c → Triple D i held g K p Q)
    (hq : ¬ c → Triple D i held g K q Q) : Triple D i held g K (if c then p else q) Q := by
  split_ifs with h
  · exact hp h
  · exact hq h

theorem bindSome {p : Prog L A σ (Option α)} {f : α → Prog L A σ (Option β)}
    {Q : Option α → G → σ → Prop} {R : Option β → G → σ → Prop} (hp : Triple D i held g K p Q)
    (hnone : ∀ g s, Q none g s → R none g s)
    (hf : ∀ a g', Triple D i held g' (Q (some a) g') (f a) R) :
    Triple D i held g K (p.bindSome f) R := by
  refine hp.bind fun o g' => ?_
  cases o with
  | none => exact .pure (hnone g')
  | some a => exact hf a g'

theorem act {a : A} {f : σ → α} (hK : D.Stable i g held K)
    (h : ∀ s, D.Sees i g s → K s → D.allowed a s →
      ∃ g', D.Permits i g held a s g' ∧ Q (f s) g' (D.apply a s)) :
    Triple D i held g K (.act a fun s => .done (f s)) Q := by
  intro s _ hk s' hr ha
  obtain ⟨gs, hg, hinv⟩ := hr.sees
  obtain ⟨g', hp, hq⟩ := h s' hr.sees (hK s s' hr hk) ha
  exact ⟨g', hp, rfl, ⟨_, Function.update_self i g' gs, hp.inv gs hg hinv⟩, hq⟩

theorem holding (hK : D.Stable i g held K) (hb : ∀ s, K s → ∀ h ∈ held, D.below s h.1 l)
    (hQ : ∀ a g', D.Stable i g' ((l, write) :: held) (Q a g'))
    (h : Triple D i ((l, write) :: held) g K p Q) :
    Triple D i held g K (Prog.holding l write p) Q := by
  intro s _ hk s' hr
  have hk' := hK s s' hr hk
  refine ⟨hb s' hk', Prog.Orderly.bind ((h s' hr.sees hk').imp ?_)⟩
  rintro a g' held' s'' ⟨rfl, hs'', hq⟩ s₃ hr₃
  rw [List.eraseP_cons_of_pos (by simp)]
  exact ⟨rfl, hr₃.sees, hQ a g' s'' s₃ hr₃ hq⟩

end Triple

namespace Config

variable {c c' : Config T L A σ α} {gs : T → G} {Q : T → α → G → List (L × Bool) → Prop}

structure Orderly (D : Discipline T L A σ G) (Q : T → α → G → List (L × Bool) → Prop)
    (c : Config T L A σ α) (gs : T → G) : Prop where
  inv : D.inv gs c.state
  worker : ∀ i, (c.worker i).prog.Orderly D i (fun a g held _ => Q i a g held) (gs i)
    (c.worker i).held c.state
  alone : ∀ i j, i ≠ j → ∀ h ∈ (c.worker i).held, ∀ h' ∈ (c.worker j).held, h.1 = h'.1 →
    h.2 = false ∧ h'.2 = false

theorem Orderly.set (h : c.Orderly D Q gs) {w : Worker L A σ α}
    (hinv : D.inv (Function.update gs i g) s)
    (hw : w.prog.Orderly D i (fun a g held _ => Q i a g held) g w.held s)
    (hkeeps : D.keeps c.state s) (hsame : ∀ l, (l, true) ∉ (c.worker i).held → D.same l c.state s)
    (hheld : ∀ x ∈ w.held, x ∈ (c.worker i).held ∨ c.Free x.1 x.2) :
    (c.set s i w).Orderly D Q (Function.update gs i g) := by
  have hfree {j : T} (hj : j ≠ i) : ∀ x ∈ w.held, ∀ x' ∈ (c.worker j).held, x.1 = x'.1 →
      x.2 = false ∧ x'.2 = false := by
    intro x hx x' hx' he
    rcases hheld x hx with hmem | hfree
    · exact h.alone i j hj.symm x hmem x' hx' he
    · exact hfree j x' hx' he.symm
  refine ⟨hinv, fun j => ?_, fun j k hjk x hx x' hx' he => ?_⟩
  · by_cases hj : j = i
    · subst hj
      rw [set_self, Function.update_self]
      exact hw
    · rw [set_ne s w hj, Function.update_of_ne hj]
      refine (h.worker j).rely (fun _ _ _ _ _ _ hQ => hQ) ⟨⟨_, ?_, hinv⟩, hkeeps, fun x hx => ?_⟩
      · exact Function.update_of_ne hj g gs
      · refine hsame x.1 fun hi => ?_
        have := h.alone i j (Ne.symm hj) (x.1, true) hi x hx rfl
        exact absurd this.1 (by simp)
  · by_cases hj : j = i
    · subst hj
      rw [set_self] at hx
      rw [set_ne s w hjk.symm] at hx'
      exact hfree hjk.symm x hx x' hx' he
    · rw [set_ne s w hj] at hx
      by_cases hk : k = i
      · subst hk
        rw [set_self] at hx'
        exact (hfree hj x' hx' x hx he.symm).symm
      · rw [set_ne s w hk] at hx'
        exact h.alone j k hjk x hx x' hx' he

/-- The action that the thread performs next, if it is one, may be performed. -/
def Allowed (D : Discipline T L A σ G) (c : Config T L A σ α) (i : T) : Prop :=
  ∀ a p, (c.worker i).prog = .act a p → D.allowed a c.state

theorem Orderly.step (h : c.Orderly D Q gs) (ha : c.Allowed D i) (hs : Step D.apply c i c') :
    ∃ g, c'.Orderly D Q (Function.update gs i g) := by
  have hw := h.worker i
  have hr : D.Rely i (gs i) (c.worker i).held c.state c.state := .refl ⟨gs, rfl, h.inv⟩
  have hkeep : D.inv (Function.update gs i (gs i)) c.state := by
    rw [Function.update_eq_self]
    exact h.inv
  have hsame (l : L) (_ : (l, true) ∉ (c.worker i).held) : D.same l c.state c.state :=
    D.same_refl l c.state
  cases hs with
  | acquire hp hf =>
    rw [hp] at hw
    refine ⟨gs i, h.set hkeep (hw c.state hr).2 (D.keeps_refl _) hsame fun x hx => ?_⟩
    rcases List.mem_cons.mp hx with rfl | hx
    · exact Or.inr hf
    · exact Or.inl hx
  | release hp =>
    rw [hp] at hw
    exact ⟨gs i, h.set hkeep (hw c.state hr) (D.keeps_refl _) hsame
      fun x hx => Or.inl (List.mem_of_mem_eraseP hx)⟩
  | act hp =>
    rw [hp] at hw
    obtain ⟨g', hp, ho⟩ := hw c.state hr (ha _ _ hp)
    exact ⟨g', h.set (hp.inv gs rfl h.inv) ho hp.keeps hp.frame fun x hx => Or.inl hx⟩

def Wants (c : Config T L A σ α) (i : T) (l : L) : Prop :=
  ∃ write p, (c.worker i).prog = .acquire l write p

omit [DecidableEq T] [DecidableEq L] in
theorem wants_of_not_canGo (h : ¬ c.CanGo i) (hd : ¬ ∃ a, (c.worker i).prog = .done a) :
    ∃ l, c.Wants i l ∧ ∃ j, ∃ x ∈ (c.worker j).held, x.1 = l := by
  unfold CanGo at h
  cases hp : (c.worker i).prog with
  | done a => exact absurd ⟨a, hp⟩ hd
  | acquire l write p =>
    rw [hp] at h
    dsimp only at h
    push Not at h
    exact ⟨l, ⟨write, p, hp⟩, h⟩
  | release l p =>
    rw [hp] at h
    exact absurd trivial h
  | act a p =>
    rw [hp] at h
    exact absurd trivial h

theorem Orderly.wants_of_held (h : c.Orderly D Q gs) (hQ : ∀ i a g held, Q i a g held → held = [])
    (hno : ∀ i, ¬ c.CanGo i) {x : L × Bool} (hx : x ∈ (c.worker i).held) :
    ∃ l, c.Wants i l ∧ D.below c.state x.1 l := by
  have hw := h.worker i
  have hd : ¬ ∃ a, (c.worker i).prog = .done a := by
    rintro ⟨a, ha⟩
    rw [ha] at hw
    exact List.ne_nil_of_mem hx (hQ i a (gs i) _ hw)
  obtain ⟨l, ⟨write, p, hp⟩, -⟩ := wants_of_not_canGo (hno i) hd
  rw [hp] at hw
  exact ⟨l, ⟨write, p, hp⟩, (hw c.state (.refl ⟨gs, rfl, h.inv⟩)).1 x hx⟩

/-- When no thread can go on, the locks that are waited for go round in a circle. -/
theorem Orderly.canGo [Finite T] (h : c.Orderly D Q gs)
    (hQ : ∀ i a g held, Q i a g held → held = [])
    (ha : ∀ l, ¬ Relation.TransGen (D.below c.state) l l) : c.Finished ∨ ∃ i, c.CanGo i := by
  by_contra hno
  push Not at hno
  obtain ⟨hfin, hno⟩ := hno
  let Ahead (j i : T) : Prop :=
    ∃ l m, c.Wants i l ∧ c.Wants j m ∧ Relation.TransGen (D.below c.state) l m
  have hone {i : T} {l m : L} (hl : c.Wants i l) (hm : c.Wants i m) : l = m := by
    obtain ⟨_, _, hp⟩ := hl
    obtain ⟨_, _, hq⟩ := hm
    cases hp.symm.trans hq
    rfl
  have : IsTrans T Ahead := ⟨by
    rintro a b d ⟨l, m, hl, hm, hlm⟩ ⟨l', m', hl', hm', hlm'⟩
    cases hone hl hm'
    exact ⟨l', m, hl', hm, hlm'.trans hlm⟩⟩
  have : Std.Irrefl Ahead := ⟨by
    rintro a ⟨l, m, hl, hm, hlm⟩
    cases hone hl hm
    exact ha l hlm⟩
  have hwf := Finite.wellFounded_of_trans_of_irrefl Ahead
  -- of the threads that wait, one whose lock nobody who waits is ahead of
  obtain ⟨i, hi⟩ : ∃ i, ∃ l, c.Wants i l := by
    unfold Finished at hfin
    push Not at hfin
    obtain ⟨i, hi⟩ := hfin
    obtain ⟨l, hl, -⟩ := wants_of_not_canGo (hno i) fun hd => hd.elim hi
    exact ⟨i, l, hl⟩
  obtain ⟨k, ⟨l, hl⟩, hmin⟩ := hwf.has_min {i | ∃ l, c.Wants i l} ⟨i, hi⟩
  have hnd : ¬ ∃ a, (c.worker k).prog = .done a := by
    rintro ⟨a, hd⟩
    obtain ⟨_, _, hp⟩ := hl
    cases hp.symm.trans hd
  obtain ⟨m, hm, j, x, hx, rfl⟩ := wants_of_not_canGo (hno k) hnd
  obtain ⟨n, hn, hb⟩ := h.wants_of_held hQ hno hx
  exact hmin j ⟨n, hn⟩ ⟨x.1, n, hm, hn, .single hb⟩

end Config

end SandboxVfs.LockedPrograms
