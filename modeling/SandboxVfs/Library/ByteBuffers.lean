import Mathlib.Data.List.Basic
import Mathlib.Tactic.Ring
import Mathlib.Tactic.NormNum

/-! Memory by addresses, what is stored in it, and numbers of fixed width with the least
byte first. -/

namespace SandboxVfs.ByteBuffers

/-- The least `n` bytes of a number. -/
def leBytes : Nat → Nat → List UInt8
  | 0, _ => []
  | n + 1, v => UInt8.ofNat v :: leBytes n (v / 256)

def leValue : List UInt8 → Nat
  | [] => 0
  | b :: bs => b.toNat + 256 * leValue bs

@[simp]
theorem length_leBytes (n v : Nat) : (leBytes n v).length = n := by
  induction n generalizing v with
  | zero => rfl
  | succ n ih => simp [leBytes, ih]

theorem leValue_leBytes (n v : Nat) : leValue (leBytes n v) = v % 256 ^ n := by
  induction n generalizing v with
  | zero => simp [leBytes, leValue, Nat.mod_one]
  | succ n ih =>
    rw [leBytes, leValue, ih, pow_succ', Nat.mod_mul]
    simp

abbrev Memory := Nat → UInt8

def store (mem : Memory) (a : Nat) (bs : List UInt8) : Memory :=
  fun k => if k < a then mem k else (bs[k - a]?).getD (mem k)

def load (mem : Memory) (a n : Nat) : List UInt8 := (List.range n).map fun k => mem (a + k)

@[simp]
theorem store_nil (mem : Memory) (a : Nat) : store mem a [] = mem := by
  funext k
  simp [store]

theorem store_outside {mem : Memory} {a k : Nat} {bs : List UInt8}
    (h : ¬ (a ≤ k ∧ k < a + bs.length)) : store mem a bs k = mem k := by
  unfold store
  split_ifs with hk
  · rfl
  · rw [List.getElem?_eq_none (by omega)]
    rfl

theorem store_append (mem : Memory) (a : Nat) (bs cs : List UInt8) :
    store (store mem a bs) (a + bs.length) cs = store mem a (bs ++ cs) := by
  funext k
  simp only [store]
  by_cases hk : k < a
  · simp [hk, show k < a + bs.length by omega]
  · by_cases hb : k < a + bs.length
    · have hlen : k - a < bs.length := by omega
      simp [hk, hb, hlen, List.getElem?_append_left hlen]
    · have hlen : bs.length ≤ k - a := by omega
      have hsub : k - (a + bs.length) = k - a - bs.length := by omega
      simp [hk, hb, hsub, List.getElem?_append_right hlen, List.getElem?_eq_none hlen]

theorem load_store (mem : Memory) (a : Nat) (bs : List UInt8) :
    load (store mem a bs) a bs.length = bs := by
  apply List.ext_getElem
  · simp [load]
  · intro k hk hk'
    simp [load, store, hk']

end SandboxVfs.ByteBuffers
