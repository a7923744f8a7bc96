import Mathlib

/-! Graphs whose edges carry names: a node and a name lead to at most one node.
A graph is a tree below its root when no node is the end of two walks. -/

namespace SandboxVfs.NameGraph

variable {N L : Type*}

abbrev Edges (N L : Type*) := N → L → Option N

def walk (e : Edges N L) : N → List L → Option N
  | n, [] => some n
  | n, x :: xs => (e n x).bind fun m => walk e m xs

@[simp] theorem walk_nil (e : Edges N L) (n : N) : walk e n [] = some n := rfl

theorem walk_append (e : Edges N L) (n : N) (p q : List L) :
    walk e n (p ++ q) = (walk e n p).bind fun m => walk e m q := by
  induction p generalizing n with
  | nil => rfl
  | cons x xs ih =>
    simp only [List.cons_append, walk, Option.bind_assoc]
    exact congrArg _ (funext fun m => ih m)

theorem walk_concat (e : Edges N L) (n : N) (p : List L) (x : L) :
    walk e n (p ++ [x]) = (walk e n p).bind fun m => e m x := by
  rw [walk_append]
  congr 1
  funext m
  simp [walk]

theorem walk_concat_eq_some {e : Edges N L} {n m : N} {p : List L} {x : L}
    (h : walk e n (p ++ [x]) = some m) : ∃ d, walk e n p = some d ∧ e d x = some m := by
  rw [walk_concat] at h
  exact Option.bind_eq_some_iff.mp h

theorem walk_of_le {e e' : Edges N L} (h : ∀ n x m, e n x = some m → e' n x = some m)
    {r n : N} {p : List L} (hp : walk e r p = some n) : walk e' r p = some n := by
  induction p generalizing r with
  | nil => exact hp
  | cons x p ih =>
    obtain ⟨m, hx, hm⟩ := Option.bind_eq_some_iff.mp hp
    show (e' r x).bind _ = _
    rw [h r x m hx]
    exact ih hm

theorem walk_congr {e e' : Edges N L} {r : N}
    (h : ∀ p n, walk e r p = some n → ∀ x, e' n x = e n x) (p : List L) :
    walk e' r p = walk e r p := by
  induction p using List.reverseRecOn with
  | nil => rfl
  | append_singleton p x ih =>
    rw [walk_concat, walk_concat, ih]
    cases hp : walk e r p with
    | none => rfl
    | some n => exact h p n hp x

def Reaches (e : Edges N L) (r n : N) : Prop := ∃ p, walk e r p = some n

/-- No node has two walks from the root. Cycles, shared nodes and edges back
to the root are all excluded by this. -/
def IsTree (e : Edges N L) (r : N) : Prop :=
  ∀ p q n, walk e r p = some n → walk e r q = some n → p = q

theorem Reaches.root (e : Edges N L) (r : N) : Reaches e r r := ⟨[], rfl⟩

theorem Reaches.step {e : Edges N L} {r d n : N} {x : L} (h : Reaches e r d)
    (hx : e d x = some n) : Reaches e r n := by
  obtain ⟨p, hp⟩ := h
  exact ⟨p ++ [x], by rw [walk_concat, hp]; exact hx⟩

theorem Reaches.trans {e : Edges N L} {r d n : N} (h : Reaches e r d) (h' : Reaches e d n) :
    Reaches e r n := by
  obtain ⟨p, hp⟩ := h
  obtain ⟨q, hq⟩ := h'
  exact ⟨p ++ q, by rw [walk_append, hp]; exact hq⟩

theorem Reaches.lift {e e' : Edges N L} {r n : N} (Q : N → Prop)
    (h : ∀ d x m, e d x = some m → Q m → Q d ∧ Reaches e' d m) (hr : Reaches e r n) (hn : Q n) :
    Reaches e' r n := by
  obtain ⟨p, hp⟩ := hr
  induction p using List.reverseRecOn generalizing n with
  | nil =>
    cases hp
    exact Reaches.root e' r
  | append_singleton p x ih =>
    obtain ⟨d, hd, hx⟩ := walk_concat_eq_some hp
    obtain ⟨hq, hdn⟩ := h d x n hx hn
    exact (ih hq hd).trans hdn

/-- When only what leads to `c` may be lost, a node is reached as before or from `c`. -/
theorem Reaches.split {e e' : Edges N L} {r n c : N}
    (h : ∀ d x m, e d x = some m → m = c ∨ Reaches e' d m) (hr : Reaches e r n) :
    Reaches e' r n ∨ Reaches e' c n := by
  obtain ⟨p, hp⟩ := hr
  induction p using List.reverseRecOn generalizing n with
  | nil =>
    cases hp
    exact Or.inl (Reaches.root e' r)
  | append_singleton p x ih =>
    obtain ⟨d, hd, hx⟩ := walk_concat_eq_some hp
    rcases h d x n hx with rfl | hdn
    · exact Or.inr (Reaches.root e' n)
    · exact (ih hd).imp (·.trans hdn) (·.trans hdn)

theorem IsTree.entry_ne_root {e : Edges N L} {r d : N} {x : L} (ht : IsTree e r)
    (hd : Reaches e r d) : e d x ≠ some r := by
  intro hx
  obtain ⟨p, hp⟩ := hd
  have hh := ht (p ++ [x]) [] r (by rw [walk_concat, hp]; exact hx) rfl
  simp at hh

theorem IsTree.entry_unique {e : Edges N L} {r a b n : N} {x y : L} (ht : IsTree e r)
    (ha : Reaches e r a) (hx : e a x = some n) (hb : Reaches e r b) (hy : e b y = some n) :
    a = b ∧ x = y := by
  obtain ⟨p, hp⟩ := ha
  obtain ⟨q, hq⟩ := hb
  have hh := ht (p ++ [x]) (q ++ [y]) n (by rw [walk_concat, hp]; exact hx)
    (by rw [walk_concat, hq]; exact hy)
  obtain ⟨hpq, hxy⟩ := List.append_inj' hh rfl
  subst hpq
  exact ⟨Option.some.inj (hp.symm.trans hq), by simpa using hxy⟩

theorem IsTree.exists_entry {e : Edges N L} {r n : N} (h : Reaches e r n) (hn : n ≠ r) :
    ∃ d x, Reaches e r d ∧ e d x = some n := by
  obtain ⟨p, hp⟩ := h
  rcases List.eq_nil_or_concat p with rfl | ⟨q, x, rfl⟩
  · exact absurd (Option.some.inj hp).symm hn
  · rw [List.concat_eq_append] at hp
    obtain ⟨d, hd, hx⟩ := walk_concat_eq_some hp
    exact ⟨d, x, ⟨q, hd⟩, hx⟩

theorem IsTree.path_eq_of_walk {e : Edges N L} {r n m : N} {p s : List L} (ht : IsTree e r)
    (hp : walk e r p = some n) (hs : walk e n s = some m) {q : List L}
    (hq : walk e r q = some m) : q = p ++ s :=
  ht q (p ++ s) m hq (by rw [walk_append, hp]; exact hs)

theorem IsTree.congr {e e' : Edges N L} {r : N} (ht : IsTree e r)
    (h : ∀ p n, walk e r p = some n → ∀ x, e' n x = e n x) : IsTree e' r := by
  intro p q n hp hq
  rw [walk_congr h] at hp hq
  exact ht p q n hp hq

section

variable [DecidableEq L]

/-- The paths at and below `p` are gone. -/
def erasePath (f : List L → Option N) (p : List L) : List L → Option N :=
  fun q => if p <+: q then none else f q

/-- What was below `old` is below `new`, and replaces what was there. -/
def movePath (f : List L → Option N) (old new : List L) : List L → Option N :=
  fun q => if new <+: q then f (old ++ q.drop new.length) else if old <+: q then none else f q

def addPath (f : List L → Option N) (p : List L) (n : N) : List L → Option N :=
  fun q => if q = p then some n else f q

theorem movePath_below (f : List L → Option N) (old new s : List L) :
    movePath f old new (new ++ s) = f (old ++ s) := by
  simp [movePath]

theorem IsTree.of_erase {e e' : Edges N L} {r : N} {p : List L} (ht : IsTree e r)
    (h : walk e' r = erasePath (walk e r) p) : IsTree e' r := by
  intro q s n hq hs
  rw [h] at hq hs
  simp only [erasePath] at hq hs
  split_ifs at hq hs
  exact ht q s n hq hs

end

section

variable [DecidableEq N] [DecidableEq L]

def setEdge (e : Edges N L) (d : N) (x : L) (t : Option N) : Edges N L :=
  fun n y => if n = d ∧ y = x then t else e n y

@[simp] theorem setEdge_self (e : Edges N L) (d : N) (x : L) (t : Option N) :
    setEdge e d x t d x = t := by simp [setEdge]

theorem setEdge_ne {e : Edges N L} {d n : N} {x y : L} {t : Option N} (h : ¬ (n = d ∧ y = x)) :
    setEdge e d x t n y = e n y := by simp [setEdge, h]

theorem walk_setEdge_outside {e : Edges N L} {r d : N} {p : List L} (ht : IsTree e r)
    (hd : walk e r p = some d) (x : L) (t : Option N) (q : List L) (h : ¬ (p ++ [x]) <+: q) :
    walk (setEdge e d x t) r q = walk e r q := by
  induction q using List.reverseRecOn with
  | nil => rfl
  | append_singleton q y ih =>
    have hq : ¬ (p ++ [x]) <+: q := fun hh => h (hh.trans (List.prefix_append _ _))
    rw [walk_concat, walk_concat, ih hq]
    cases hw : walk e r q with
    | none => rfl
    | some n =>
      apply setEdge_ne
      rintro ⟨rfl, rfl⟩
      exact h (by rw [ht q p n hw hd])

/-- Below a node that does not lead to the changed directory nothing changes. -/
theorem walk_setEdge_of_unreached {e : Edges N L} {n d : N} (x : L) (t : Option N)
    (h : ¬ Reaches e n d) (s : List L) : walk (setEdge e d x t) n s = walk e n s := by
  apply walk_congr
  intro p m hp y
  apply setEdge_ne
  rintro ⟨rfl, -⟩
  exact h ⟨p, hp⟩

theorem walk_setEdge_through {e : Edges N L} {r d : N} {p : List L} (ht : IsTree e r)
    (hd : walk e r p = some d) (x : L) (t : Option N) (s : List L) :
    walk (setEdge e d x t) r (p ++ x :: s) =
      t.bind fun n => walk (setEdge e d x t) n s := by
  have hp : walk (setEdge e d x t) r p = some d := by
    rw [walk_setEdge_outside ht hd, hd]
    intro hh
    have := hh.length_le
    simp at this
  rw [walk_append, hp]
  simp [walk]

theorem walk_erase {e : Edges N L} {r d : N} {p : List L} {x : L} (ht : IsTree e r)
    (hd : walk e r p = some d) :
    walk (setEdge e d x none) r = erasePath (walk e r) (p ++ [x]) := by
  funext q
  by_cases h : (p ++ [x]) <+: q
  · obtain ⟨s, rfl⟩ := h
    rw [erasePath, if_pos (List.prefix_append _ _), List.append_assoc, List.singleton_append]
    exact walk_setEdge_through ht hd x none s
  · simpa [erasePath, h] using walk_setEdge_outside ht hd x none q h

/-- A fresh node without entries of its own adds exactly one path. -/
theorem walk_add {e : Edges N L} {r d n : N} {p : List L} {x : L} (ht : IsTree e r)
    (hd : walk e r p = some d) (hx : e d x = none) (hleaf : ∀ y, e n y = none) (hn : n ≠ d) :
    walk (setEdge e d x (some n)) r = addPath (walk e r) (p ++ [x]) n := by
  funext q
  by_cases h : (p ++ [x]) <+: q
  · obtain ⟨s, rfl⟩ := h
    rw [List.append_assoc, List.singleton_append, walk_setEdge_through ht hd]
    cases s with
    | nil => simp [addPath]
    | cons y s =>
      have he : walk e r (p ++ x :: y :: s) = none := by simp [walk_append, hd, walk, hx]
      have hne : ¬ (n = d ∧ y = x) := fun hh => hn hh.1
      simp [addPath, walk, setEdge_ne hne, hleaf y, he]
  · have hq : q ≠ p ++ [x] := by
      rintro rfl
      exact h List.prefix_rfl
    simpa [addPath, hq] using walk_setEdge_outside ht hd x (some n) q h

/-- Taking an entry out and putting it in elsewhere, not below itself, moves the
whole subtree. The entry that was at the new place, if any, is lost. -/
theorem walk_move {e : Edges N L} {r a b n : N} {pa pb : List L} {x y : L} (ht : IsTree e r)
    (ha : walk e r pa = some a) (hx : e a x = some n) (hb : walk e r pb = some b)
    (hsub : ¬ (pa ++ [x]) <+: pb) :
    walk (setEdge (setEdge e a x none) b y (some n)) r =
      movePath (walk e r) (pa ++ [x]) (pb ++ [y]) := by
  have ht' : IsTree (setEdge e a x none) r := ht.of_erase (walk_erase ht ha)
  have hb' : walk (setEdge e a x none) r pb = some b := by
    rw [walk_setEdge_outside ht ha x none pb hsub, hb]
  have hn : walk e r (pa ++ [x]) = some n := by rw [walk_concat, ha]; exact hx
  have hna : ¬ Reaches e n a := by
    rintro ⟨s, hs⟩
    have := congrArg List.length (ht.path_eq_of_walk hn hs ha)
    simp at this
  have hnb : ¬ Reaches (setEdge e a x none) n b := by
    rintro ⟨s, hs⟩
    rw [walk_setEdge_of_unreached x none hna] at hs
    exact hsub ⟨s, (ht.path_eq_of_walk hn hs hb).symm⟩
  funext q
  by_cases h : (pb ++ [y]) <+: q
  · obtain ⟨s, rfl⟩ := h
    rw [movePath_below, List.append_assoc, List.singleton_append, walk_setEdge_through ht' hb',
      Option.bind_some, walk_setEdge_of_unreached y _ hnb, walk_setEdge_of_unreached x _ hna,
      walk_append, hn, Option.bind_some]
  · rw [walk_setEdge_outside ht' hb' y (some n) q h, walk_erase ht ha]
    simp [movePath, erasePath, h]

end

end SandboxVfs.NameGraph
