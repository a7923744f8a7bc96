import Mathlib

/-! Runs of a deterministic machine: a fold of its step over a list of inputs. -/

namespace SandboxVfs.Runs

variable {S O : Type*} {step : S → O → S}

theorem foldl_inv (Inv : S → Prop) (h : ∀ s o, Inv s → Inv (step s o)) {s : S} (hs : Inv s)
    (os : List O) : Inv (os.foldl step s) := by
  induction os generalizing s with
  | nil => exact hs
  | cons o os ih => exact ih (h s o hs)

/-- Each step of the run meets a condition on the state before it. -/
def EveryStep (step : S → O → S) (ok : S → O → Prop) : S → List O → Prop
  | _, [] => True
  | s, o :: os => ok s o ∧ EveryStep step ok (step s o) os

variable {ok : S → O → Prop}

instance [∀ s o, Decidable (ok s o)] : ∀ s os, Decidable (EveryStep step ok s os)
  | _, [] => .isTrue trivial
  | s, o :: os =>
    have : Decidable (EveryStep step ok (step s o) os) := instDecidableEveryStep (step s o) os
    inferInstanceAs (Decidable (_ ∧ _))

theorem EveryStep.append {s : S} {os os' : List O} (h : EveryStep step ok s os)
    (h' : EveryStep step ok (os.foldl step s) os') : EveryStep step ok s (os ++ os') := by
  induction os generalizing s with
  | nil => exact h'
  | cons o os ih => exact ⟨h.1, ih h.2 h'⟩

theorem EveryStep.imp {ok' : S → O → Prop} (Inv : S → Prop)
    (h : ∀ s o, Inv s → ok s o → Inv (step s o) ∧ ok' s o) {s : S} {os : List O}
    (hok : EveryStep step ok s os) (hs : Inv s) : EveryStep step ok' s os := by
  induction os generalizing s with
  | nil => trivial
  | cons o os ih =>
    obtain ⟨hinv, hok'⟩ := h s o hs hok.1
    exact ⟨hok', ih hok.2 hinv⟩

theorem EveryStep.and {ok' : S → O → Prop} {s : S} {os : List O} (h : EveryStep step ok s os)
    (h' : EveryStep step ok' s os) : EveryStep step (fun s o => ok s o ∧ ok' s o) s os := by
  induction os generalizing s with
  | nil => trivial
  | cons o os ih => exact ⟨⟨h.1, h'.1⟩, ih h.2 h'.2⟩

theorem EveryStep.of_forall_mem {s : S} {os : List O} {P : O → Prop} (h : ∀ o ∈ os, P o) :
    EveryStep step (fun _ o => P o) s os := by
  induction os generalizing s with
  | nil => trivial
  | cons o os ih =>
    exact ⟨h o List.mem_cons_self, ih fun o' ho => h o' (List.mem_cons_of_mem o ho)⟩

theorem EveryStep.of_forall_prefix {P : S → Prop} {s : S} {os : List O}
    (h : ∀ l, l <+: os → P (l.foldl step s)) :
    EveryStep step (fun s o => P s ∧ P (step s o)) s os := by
  induction os generalizing s with
  | nil => trivial
  | cons o os ih =>
    refine ⟨⟨h [] List.nil_prefix, h [o] (List.prefix_append [o] os)⟩, ih ?_⟩
    intro l hl
    exact h (o :: l) (List.cons_prefix_cons.mpr ⟨rfl, hl⟩)

theorem EveryStep.inv (Inv : S → Prop) (hinv : ∀ s o, Inv s → ok s o → Inv (step s o)) {s : S}
    {os : List O} (h : EveryStep step ok s os) (hs : Inv s) : Inv (os.foldl step s) := by
  induction os generalizing s with
  | nil => exact hs
  | cons o os ih => exact ih h.2 (hinv s o hs h.1)

/-- It holds in every state of the run. -/
theorem EveryStep.inv_of_prefix (Inv : S → Prop) (hinv : ∀ s o, Inv s → ok s o → Inv (step s o))
    {s : S} {os l : List O} (h : EveryStep step ok s os) (hs : Inv s) (hl : l <+: os) :
    Inv (l.foldl step s) := by
  induction os generalizing s l with
  | nil =>
    rw [List.prefix_nil.mp hl]
    exact hs
  | cons o os ih =>
    cases l with
    | nil => exact hs
    | cons o' l =>
      obtain ⟨rfl, hl'⟩ := List.cons_prefix_cons.mp hl
      rw [List.foldl_cons]
      exact ih h.2 (hinv s o' hs h.1) hl'

/-- When the condition on a step decides whether it keeps `P`, the condition on all
steps decides whether `P` holds in every state of the run. -/
theorem forall_prefix_iff {P Inv : S → Prop} (hinv : ∀ s o, Inv s → Inv (step s o))
    (h : ∀ s o, Inv s → P s → (P (step s o) ↔ ok s o)) {s : S} (hs : Inv s) (hp : P s)
    (os : List O) :
    (∀ l, l <+: os → P (l.foldl step s)) ↔ EveryStep step ok s os := by
  induction os generalizing s with
  | nil =>
    refine iff_of_true ?_ trivial
    intro l hl
    rw [List.prefix_nil.mp hl]
    exact hp
  | cons o os ih =>
    constructor
    · intro hh
      have hstep : P (step s o) := hh [o] (List.prefix_append [o] os)
      refine ⟨(h s o hs hp).mp hstep, (ih (hinv s o hs) hstep).mp ?_⟩
      intro l hl
      exact hh (o :: l) (List.cons_prefix_cons.mpr ⟨rfl, hl⟩)
    · rintro ⟨hok, hrest⟩ l hl
      have hstep := (h s o hs hp).mpr hok
      cases l with
      | nil => exact hp
      | cons o' l =>
        obtain ⟨rfl, hl'⟩ := List.cons_prefix_cons.mp hl
        exact (ih (hinv s o' hs) hstep).mpr hrest l hl'

end SandboxVfs.Runs
