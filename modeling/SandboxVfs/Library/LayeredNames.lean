import SandboxVfs.Library.NameGraph

/-! Partial maps over paths, stacked. A lookup takes the first map that has the
path, so what one map loses may come into sight in another. -/

namespace SandboxVfs.LayeredNames

open NameGraph

variable {L V : Type*}

abbrev Layer (L V : Type*) := List L → Option V

def lookup (ls : List (Layer L V)) (p : List L) : Option V := ls.findSome? (· p)

/-- Nothing is below what is not there. -/
def PrefixClosed (f : Layer L V) : Prop := ∀ p s, f p = none → f (p ++ s) = none

theorem lookup_eq_none_iff {ls : List (Layer L V)} {p : List L} :
    lookup ls p = none ↔ ∀ f ∈ ls, f p = none := List.findSome?_eq_none_iff

theorem lookup_append (as bs : List (Layer L V)) (p : List L) :
    lookup (as ++ bs) p = (lookup as p).or (lookup bs p) := List.findSome?_append

theorem lookup_cons (f : Layer L V) (ls : List (Layer L V)) (p : List L) :
    lookup (f :: ls) p = (f p).or (lookup ls p) := by
  unfold lookup
  rw [List.findSome?_cons]
  cases f p <;> rfl

theorem lookup_congr {α : Type*} {ls : List α} {F G : α → Layer L V} {p : List L}
    (h : ∀ a ∈ ls, F a p = G a p) : lookup (ls.map F) p = lookup (ls.map G) p := by
  induction ls with
  | nil => rfl
  | cons a ls ih =>
    rw [List.map_cons, List.map_cons, lookup_cons, lookup_cons, h a List.mem_cons_self,
      ih fun b hb => h b (List.mem_cons_of_mem a hb)]

theorem lookup_middle_eq_none_iff {above below : List (Layer L V)} {f : Layer L V} {p : List L} :
    lookup (above ++ f :: below) p = none ↔ f p = none ∧ ∀ g ∈ above ++ below, g p = none := by
  rw [lookup_eq_none_iff]
  constructor
  · intro h
    refine ⟨h f (by simp), ?_⟩
    intro g hg
    rcases List.mem_append.mp hg with hg | hg
    · exact h g (by simp [hg])
    · exact h g (by simp [hg])
  · rintro ⟨hf, h⟩ g hg
    rcases List.mem_append.mp hg with hg | hg
    · exact h g (by simp [hg])
    · rcases List.mem_cons.mp hg with rfl | hg
      · exact hf
      · exact h g (by simp [hg])

section

variable (dir : V → Prop)

/-- In what the layers have at one path, front to back: if there is a directory at all, the
first of them is one. -/
def Solid : List (Option V) → Prop
  | [] => True
  | none :: vs => Solid vs
  | some v :: vs => dir v ∨ ∀ u, some u ∈ vs → ¬ dir u

variable {dir}

theorem solid_append_of_none {as vs : List (Option V)} (h : ∀ a ∈ as, a = none) :
    Solid dir (as ++ vs) ↔ Solid dir vs := by
  induction as with
  | nil => rfl
  | cons a as ih =>
    have ha : a = none := h a List.mem_cons_self
    subst ha
    exact ih fun a ha => h a (List.mem_cons_of_mem _ ha)

theorem solid_of_no_dir {vs : List (Option V)} (h : ∀ u, some u ∈ vs → ¬ dir u) :
    Solid dir vs := by
  induction vs with
  | nil => trivial
  | cons a vs ih =>
    have htail : ∀ u, some u ∈ vs → ¬ dir u := fun u hu => h u (List.mem_cons_of_mem _ hu)
    cases a with
    | none => exact ih htail
    | some v => exact Or.inr htail

/-- What a lookup in the stack says about it. -/
theorem solid_iff_lookup {ls : List (Layer L V)} {p : List L} :
    Solid dir (ls.map (· p)) ↔
      ((∃ f ∈ ls, ∃ v, f p = some v ∧ dir v) → ∃ v, lookup ls p = some v ∧ dir v) := by
  induction ls with
  | nil => simp [Solid]
  | cons f ls ih =>
    rw [List.map_cons, lookup_cons]
    cases hf : f p with
    | none => simpa [Solid, hf] using ih
    | some v =>
      constructor
      · rintro (hv | hno) ⟨g, hg, u, hu, hdir⟩
        · exact ⟨v, rfl, hv⟩
        · rcases List.mem_cons.mp hg with rfl | hg
          · cases hf.symm.trans hu
            exact ⟨v, rfl, hdir⟩
          · exact absurd hdir (hno u (List.mem_map.mpr ⟨g, hg, hu⟩))
      · intro h
        by_cases hv : dir v
        · exact Or.inl hv
        · right
          intro u hu hdir
          obtain ⟨g, hg, hgu⟩ := List.mem_map.mp hu
          obtain ⟨v', hv', hdir'⟩ := h ⟨g, List.mem_cons_of_mem f hg, u, hgu, hdir⟩
          cases hv'
          exact hv hdir'

end

section

variable {A : Type*} {ls : List A} {F G : A → Layer L V} {q : List L}

/-- The names below `q` in all the layers together. -/
def names (ls : List A) (F : A → Layer L V) (q : List L) : Set L :=
  {x | ∃ a ∈ ls, F a (q ++ [x]) ≠ none}

/-- Some layer has a directory at `q`. -/
def HasDir (dir : V → Prop) (ls : List A) (F : A → Layer L V) (q : List L) : Prop :=
  ∃ a ∈ ls, ∃ v, F a q = some v ∧ dir v

theorem names_mono (h : ∀ a ∈ ls, ∀ p, F a p ≠ none → G a p ≠ none) :
    names ls F q ⊆ names ls G q := by
  rintro x ⟨a, ha, hx⟩
  exact ⟨a, ha, h a ha _ hx⟩

theorem names_congr (h : ∀ a ∈ ls, F a = G a) : names ls F q = names ls G q := by
  ext x
  refine exists_congr fun a => and_congr_right fun ha => ?_
  rw [h a ha]

theorem hasDir_congr {dir : V → Prop} (h : ∀ a ∈ ls, F a = G a) :
    HasDir dir ls F q ↔ HasDir dir ls G q := by
  refine exists_congr fun a => and_congr_right fun ha => ?_
  rw [h a ha]

variable [DecidableEq A] {a : A} {f : Layer L V} {x : L}

theorem exists_mem_update (P : Layer L V → Prop) :
    (∃ b ∈ ls, P (Function.update F a f b)) ↔ a ∈ ls ∧ P f ∨ ∃ b ∈ ls, b ≠ a ∧ P (F b) := by
  constructor
  · rintro ⟨b, hb, hx⟩
    by_cases hba : b = a
    · subst hba
      rw [Function.update_self] at hx
      exact Or.inl ⟨hb, hx⟩
    · rw [Function.update_of_ne hba] at hx
      exact Or.inr ⟨b, hb, hba, hx⟩
  · rintro (⟨ha, hx⟩ | ⟨b, hb, hba, hx⟩)
    · exact ⟨a, ha, by rwa [Function.update_self]⟩
    · exact ⟨b, hb, by rwa [Function.update_of_ne hba]⟩

theorem mem_names_update :
    x ∈ names ls (Function.update F a f) q ↔
      a ∈ ls ∧ f (q ++ [x]) ≠ none ∨ ∃ b ∈ ls, b ≠ a ∧ F b (q ++ [x]) ≠ none :=
  exists_mem_update fun g => g (q ++ [x]) ≠ none

theorem hasDir_update (dir : V → Prop) :
    HasDir dir ls (Function.update F a f) q ↔
      a ∈ ls ∧ (∃ v, f q = some v ∧ dir v) ∨ ∃ b ∈ ls, b ≠ a ∧ ∃ v, F b q = some v ∧ dir v :=
  exists_mem_update fun g => ∃ v, g q = some v ∧ dir v

theorem mem_names_iff (ha : a ∈ ls) :
    x ∈ names ls F q ↔ F a (q ++ [x]) ≠ none ∨ ∃ b ∈ ls, b ≠ a ∧ F b (q ++ [x]) ≠ none := by
  have h : x ∈ names ls (Function.update F a (F a)) q ↔ _ := mem_names_update
  rwa [Function.update_eq_self, and_iff_right ha] at h

theorem hasDir_iff (dir : V → Prop) (ha : a ∈ ls) :
    HasDir dir ls F q ↔
      (∃ v, F a q = some v ∧ dir v) ∨ ∃ b ∈ ls, b ≠ a ∧ ∃ v, F b q = some v ∧ dir v := by
  have h : HasDir dir ls (Function.update F a (F a)) q ↔ _ := hasDir_update dir
  rwa [Function.update_eq_self, and_iff_right ha] at h

theorem lost_of_update (hx : x ∈ names ls F q) (hx' : x ∉ names ls (Function.update F a f) q) :
    a ∈ ls ∧ F a (q ++ [x]) ≠ none ∧ f (q ++ [x]) = none ∧
      ∀ b ∈ ls, b ≠ a → F b (q ++ [x]) = none := by
  rw [mem_names_update] at hx'
  push Not at hx'
  obtain ⟨b, hb, hbx⟩ := hx
  have hba : b = a := by
    by_contra hne
    exact hbx (hx'.2 b hb hne)
  subst hba
  exact ⟨hb, hbx, hx'.1 hb, hx'.2⟩

end

variable [DecidableEq L] {above below : List (Layer L V)} {f : Layer L V}

/-- Erasing a path in one layer hides it from the stack, with everything below it,
if and only if no other layer has it. -/
theorem lookup_erase_iff (hclosed : ∀ g ∈ above ++ below, PrefixClosed g) (p : List L) :
    (∀ s, lookup (above ++ erasePath f p :: below) (p ++ s) = none) ↔
      ∀ g ∈ above ++ below, g p = none := by
  constructor
  · intro h
    have hh := lookup_middle_eq_none_iff.mp (h [])
    simpa using hh.2
  · intro h s
    rw [lookup_middle_eq_none_iff]
    refine ⟨by simp [erasePath], ?_⟩
    intro g hg
    exact hclosed g hg p s (h g hg)

theorem movePath_old {old new : List L} (h₁ : ¬ new <+: old) (h₂ : ¬ old <+: new)
    (f : Layer L V) (r : List L) : movePath f old new (old ++ r) = none := by
  have hne : ¬ new <+: old ++ r := by
    intro hh
    rcases List.prefix_or_prefix_of_prefix hh (List.prefix_append old r) with h | h
    · exact h₁ h
    · exact h₂ h
  simp [movePath, hne]

/-- Moving a path in the first layer that has it moves what the stack shows, if and
only if no other layer has the old path, no layer above the new one, and the layers
below have at the new path only what the move covers. -/
theorem lookup_move_iff (hclosed : ∀ g ∈ above ++ f :: below, PrefixClosed g)
    {old new : List L} (h₁ : ¬ new <+: old) (h₂ : ¬ old <+: new) (hold : f old ≠ none)
    (habove : ∀ g ∈ above, g old = none)
    (hapart : ∀ g ∈ above ++ below, ∀ p q v, f p = some v → g q ≠ some v) :
    ((∀ r, lookup (above ++ movePath f old new :: below) (new ++ r) =
          lookup (above ++ f :: below) (old ++ r)) ∧
        ∀ r, lookup (above ++ movePath f old new :: below) (old ++ r) = none) ↔
      (∀ g ∈ above ++ below, g old = none) ∧ (∀ g ∈ above, g new = none) ∧
        ∀ g ∈ below, ∀ r, g (new ++ r) ≠ none → f (old ++ r) ≠ none := by
  have hfst (r : List L) : movePath f old new (new ++ r) = f (old ++ r) := movePath_below f old new r
  have habove' (r : List L) : lookup above (old ++ r) = none := by
    rw [lookup_eq_none_iff]
    intro g hg
    exact hclosed g (by simp [hg]) old r (habove g hg)
  obtain ⟨v, hv⟩ := Option.ne_none_iff_exists'.mp hold
  constructor
  · rintro ⟨hnew, hgone⟩
    have hothers : ∀ g ∈ above ++ below, g old = none := by
      have hh := lookup_middle_eq_none_iff.mp (hgone [])
      simpa using hh.2
    refine ⟨hothers, ?_, ?_⟩
    · -- a layer above would show a node of its own instead
      have hh := hnew []
      simp only [List.append_nil] at hh
      have hlook : lookup (above ++ f :: below) old = some v := by
        have ha := habove' []
        rw [List.append_nil] at ha
        rw [lookup_append, ha, lookup_cons, hv]
        rfl
      rw [hlook, lookup_append] at hh
      cases ha : lookup above new with
      | none => exact lookup_eq_none_iff.mp ha
      | some u =>
        rw [ha] at hh
        obtain ⟨g, hg, hgu⟩ := List.exists_of_findSome?_eq_some ha
        exact absurd (hgu.trans hh) (hapart g (by simp [hg]) old new v hv)
    · intro g hg r hgr hfr
      have hh := hnew r
      have hbelow : lookup below (old ++ r) = none := by
        rw [lookup_eq_none_iff]
        intro g' hg'
        exact hclosed g' (by simp [hg']) old r (hothers g' (by simp [hg']))
      have hright : lookup (above ++ f :: below) (old ++ r) = none := by
        rw [lookup_append, habove', lookup_cons, hfr, hbelow]
        rfl
      rw [hright, lookup_middle_eq_none_iff] at hh
      exact hgr (hh.2 g (by simp [hg]))
  · rintro ⟨hothers, hnew, hbelow⟩
    constructor
    · intro r
      have ha : lookup above (new ++ r) = none := by
        rw [lookup_eq_none_iff]
        intro g hg
        exact hclosed g (by simp [hg]) new r (hnew g hg)
      rw [lookup_append, lookup_append, lookup_cons, lookup_cons, ha, habove', hfst]
      cases hfr : f (old ++ r) with
      | some u => rfl
      | none =>
        have hl : lookup below (new ++ r) = none := by
          rw [lookup_eq_none_iff]
          intro g hg
          by_contra hgr
          exact hbelow g hg r hgr hfr
        have hr : lookup below (old ++ r) = none := by
          rw [lookup_eq_none_iff]
          intro g hg
          exact hclosed g (by simp [hg]) old r (hothers g (by simp [hg]))
        simp [hl, hr]
    · intro r
      rw [lookup_middle_eq_none_iff]
      refine ⟨movePath_old h₁ h₂ f r, ?_⟩
      intro g hg
      refine hclosed g ?_ old r (hothers g hg)
      rcases List.mem_append.mp hg with hg | hg
      · simp [hg]
      · simp [hg]

end SandboxVfs.LayeredNames
