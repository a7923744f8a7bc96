import SandboxVfs.Library.Runs

/-! Reading a list piece by piece from a position that is remembered, while the list
may change between the reads. -/

namespace SandboxVfs.Scans

open Runs

variable {S O α : Type*} [BEq α] [LawfulBEq α] {step : S → O → S} {out : S → O → List α}
  {items : S → List α} {pos : S → Nat} {x : α}

def outputs (step : S → O → S) (out : S → O → List α) : S → List O → List α
  | _, [] => []
  | s, o :: os => out s o ++ outputs step out (step s o) os

def passed (items : S → List α) (pos : S → Nat) (x : α) (s : S) : Nat :=
  ((items s).take (pos s)).count x

/-- A step is fair to `x` when it delivers it as often as the position passes it. -/
def Fair (step : S → O → S) (out : S → O → List α) (items : S → List α) (pos : S → Nat) (x : α)
    (s : S) (o : O) : Prop :=
  passed items pos x s + (out s o).count x = passed items pos x (step s o)

omit [LawfulBEq α] in
theorem Fair.of_read {s : S} {o : O} {k : Nat} (hi : items (step s o) = items s)
    (hp : pos (step s o) = pos s + k) (ho : out s o = ((items s).drop (pos s)).take k) :
    Fair step out items pos x s o := by
  unfold Fair passed
  rw [hi, hp, ho, List.take_add, List.count_append]

/-- Between two reads an element that stays may not be carried over the position. -/
theorem Fair.of_change {s : S} {o : O} (hn : (items s).Nodup) (hn' : (items (step s o)).Nodup)
    (hp : pos (step s o) = pos s) (ho : out s o = [])
    (h : x ∈ (items s).take (pos s) ↔ x ∈ (items (step s o)).take (pos s)) :
    Fair step out items pos x s o := by
  have hone := List.nodup_iff_count_le_one.mp (hn.sublist (List.take_sublist (pos s) (items s))) x
  have hone' := List.nodup_iff_count_le_one.mp
    (hn'.sublist (List.take_sublist (pos s) (items (step s o)))) x
  rw [← List.count_pos_iff, ← List.count_pos_iff] at h
  unfold Fair passed
  rw [hp, ho, List.count_nil]
  omega

omit [LawfulBEq α] in
theorem passed_add_outputs {s : S} {os : List O}
    (h : EveryStep step (Fair step out items pos x) s os) :
    passed items pos x s + (outputs step out s os).count x =
      passed items pos x (os.foldl step s) := by
  induction os generalizing s with
  | nil => rfl
  | cons o os ih =>
    have ho : passed items pos x s + (out s o).count x = passed items pos x (step s o) := h.1
    have hr := ih h.2
    rw [outputs, List.count_append, List.foldl_cons]
    omega

omit [BEq α] [LawfulBEq α] in
theorem take_append_outputs (items : S → List α) {s : S} {os : List O}
    (h : EveryStep step (fun s o => ∃ k, items (step s o) = items s ∧
      pos (step s o) = pos s + k ∧ out s o = ((items s).drop (pos s)).take k) s os) :
    (items s).take (pos s) ++ outputs step out s os =
      (items s).take (pos (os.foldl step s)) := by
  induction os generalizing s with
  | nil => simp [outputs]
  | cons o os ih =>
    obtain ⟨k, hi, hp, ho⟩ := h.1
    have hr := ih h.2
    rw [hi, hp, List.take_add, List.append_assoc] at hr
    rw [outputs, ho, List.foldl_cons, hr]

/-- A scan from the start to the end that is fair to an element delivers it once. -/
theorem count_outputs {s : S} {os : List O}
    (h : EveryStep step (Fair step out items pos x) s os) (h0 : pos s = 0)
    (hend : (items (os.foldl step s)).length ≤ pos (os.foldl step s))
    (hn : (items (os.foldl step s)).Nodup) (hx : x ∈ items (os.foldl step s)) :
    (outputs step out s os).count x = 1 := by
  have hh := passed_add_outputs h
  simp only [passed, h0, List.take_zero, List.count_nil, List.take_of_length_le hend,
    List.count_eq_one_of_mem hn hx] at hh
  omega

end SandboxVfs.Scans
