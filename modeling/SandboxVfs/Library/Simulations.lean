import SandboxVfs.Library.Runs

/-! Two machines side by side. Each step gives an output; a call may also never return. -/

namespace SandboxVfs.Runs

variable {S T O R : Type*}

def outputs (step : S → O → R × S) : S → List O → List R
  | _, [] => []
  | s, o :: os => (step s o).1 :: outputs step (step s o).2 os

def final (step : S → O → R × S) (s : S) (os : List O) : S :=
  os.foldl (fun s o => (step s o).2) s

variable {step : S → O → R × S} {step' : T → O → R × T} {ok : S → O → Prop}

/-- What steps from related states have to do, when they meet the condition. -/
def Simulates (step : S → O → R × S) (step' : T → O → R × T) (ok : S → O → Prop)
    (Sim : S → T → Prop) : Prop :=
  ∀ s t o, Sim s t → ok s o → (step s o).1 = (step' t o).1 ∧ Sim (step s o).2 (step' t o).2

variable {Sim : S → T → Prop} {s : S} {t : T} {os l : List O}

theorem Simulates.outputs_eq (h : Simulates step step' ok Sim) (hs : Sim s t)
    (hok : EveryStep (fun s o => (step s o).2) ok s os) :
    outputs step s os = outputs step' t os := by
  induction os generalizing s t with
  | nil => rfl
  | cons o os ih =>
    obtain ⟨hout, hsim⟩ := h s t o hs hok.1
    rw [outputs, outputs, hout, ih hsim hok.2]

theorem Simulates.related (h : Simulates step step' ok Sim) (hs : Sim s t)
    (hok : EveryStep (fun s o => (step s o).2) ok s os) (hl : l <+: os) :
    Sim (final step s l) (final step' t l) := by
  induction os generalizing s t l with
  | nil =>
    rw [List.prefix_nil.mp hl]
    exact hs
  | cons o os ih =>
    cases l with
    | nil => exact hs
    | cons o' l =>
      obtain ⟨rfl, hl'⟩ := List.cons_prefix_cons.mp hl
      obtain ⟨-, hsim⟩ := h s t o' hs hok.1
      show Sim (final step (step s o').2 l) (final step' (step' t o').2 l)
      exact ih hsim hok.2 hl'

section

/-- The answers up to the first call that does not return. -/
def answers (call : S → O → Option (R × S)) : S → List O → List R
  | _, [] => []
  | s, o :: os => (call s o).elim [] fun r => r.1 :: answers call r.2 os

/-- The state after calls that all return. -/
def after (call : S → O → Option (R × S)) : S → List O → Option S
  | s, [] => some s
  | s, o :: os => (call s o).bind fun r => after call r.2 os

/-- Each call that is made meets a condition on the state before it. -/
def EveryCall (call : S → O → Option (R × S)) (ok : S → O → Prop) : S → List O → Prop
  | _, [] => True
  | s, o :: os => ok s o ∧ ∀ r ∈ call s o, EveryCall call ok r.2 os

variable {call : S → O → Option (R × S)} {call' : T → O → Option (R × T)}

instance [∀ s o, Decidable (ok s o)] : ∀ s os, Decidable (EveryCall call ok s os)
  | _, [] => .isTrue trivial
  | s, o :: os =>
    have (r : R × S) : Decidable (EveryCall call ok r.2 os) := instDecidableEveryCall r.2 os
    inferInstanceAs (Decidable (_ ∧ ∀ r ∈ call s o, _))

/-- What calls in related states have to do: either both return, or neither does. -/
def Matches (call : S → O → Option (R × S)) (call' : T → O → Option (R × T)) (ok : S → O → Prop)
    (Sim : S → T → Prop) : Prop :=
  ∀ s t o, Sim s t → ok s o → (call s o = none ∧ call' t o = none) ∨
    ∃ r s' t', call s o = some (r, s') ∧ call' t o = some (r, t') ∧ Sim s' t'

theorem Matches.answers_eq (h : Matches call call' ok Sim) (hs : Sim s t)
    (hok : EveryCall call ok s os) : answers call s os = answers call' t os := by
  induction os generalizing s t with
  | nil => rfl
  | cons o os ih =>
    rcases h s t o hs hok.1 with ⟨he, he'⟩ | ⟨r, s', t', he, he', hsim⟩
    · simp [answers, he, he']
    · simp [answers, he, he', ih hsim (hok.2 _ he)]

theorem Matches.after (h : Matches call call' ok Sim) (hs : Sim s t)
    (hok : EveryCall call ok s os) {s' : S} (ha : after call s os = some s') :
    ∃ t', Runs.after call' t os = some t' ∧ Sim s' t' := by
  induction os generalizing s t with
  | nil =>
    cases ha
    exact ⟨t, rfl, hs⟩
  | cons o os ih =>
    rcases h s t o hs hok.1 with ⟨he, -⟩ | ⟨r, u, u', he, he', hsim⟩
    · simp [Runs.after, he] at ha
    · simp only [Runs.after, he, Option.bind_some] at ha
      simpa [Runs.after, he'] using ih hsim (hok.2 _ he) ha

end

end SandboxVfs.Runs
