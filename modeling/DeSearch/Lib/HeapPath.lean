import Mathlib.Algebra.Order.Ring.Nat
import Mathlib.Data.List.Basic

/-!
# Paths in a heap-numbered tree

The nodes of a complete binary tree are numbered as in a heap: the root is 1 and the parent of `n`
is `n / 2`. So the node `j` levels above `n` is `n >>> j`, and two nodes have the same ancestors
from the first common one on. A tree of values is a function of the node. The values on the path
from a leaf upwards can be read off, and written back.
-/

namespace HeapPath

/-- A node of the lowest level, `d` levels below the root. -/
def IsLeaf (d n : Nat) : Prop := 2 ^ d ≤ n ∧ n < 2 ^ (d + 1)

theorem shiftRight_le (n : Nat) {i j : Nat} (h : i ≤ j) : n >>> j ≤ n >>> i := by
  obtain ⟨k, rfl⟩ := Nat.exists_eq_add_of_le h
  rw [Nat.shiftRight_add]
  exact Nat.shiftRight_le _ _

/-- Further up the path there are smaller numbers. -/
theorem lt_of_shiftRight_lt {n i j : Nat} (h : n >>> i < n >>> j) : j < i := by
  by_contra hle
  exact absurd h (Nat.not_lt.2 (shiftRight_le n (Nat.not_lt.1 hle)))

theorem shiftRight_eq_of_le {m n i j : Nat} (h : m >>> i = n >>> i) (hij : i ≤ j) :
    m >>> j = n >>> j := by
  obtain ⟨k, rfl⟩ := Nat.exists_eq_add_of_le hij
  rw [Nat.shiftRight_add, Nat.shiftRight_add, h]

theorem IsLeaf.shiftRight {d n j : Nat} (h : IsLeaf d n) (hj : j ≤ d) :
    IsLeaf (d - j) (n >>> j) := by
  obtain ⟨k, rfl⟩ := Nat.exists_eq_add_of_le hj
  rw [Nat.add_sub_cancel_left, Nat.shiftRight_eq_div_pow]
  constructor
  · rw [Nat.le_div_iff_mul_le (Nat.two_pow_pos j), ← pow_add, Nat.add_comm]
    exact h.1
  · rw [Nat.div_lt_iff_lt_mul (Nat.two_pow_pos j), ← pow_add, Nat.add_right_comm, Nat.add_comm k]
    exact h.2

/-- The number of a node tells its level. -/
theorem IsLeaf.log2_eq {d n : Nat} (h : IsLeaf d n) : Nat.log2 n = d := by
  have hne : n ≠ 0 := by
    intro hzero
    have hpos := Nat.two_pow_pos d
    have hle := h.1
    omega
  exact (Nat.log2_eq_iff hne).2 h

section
variable {α : Type*} (f : Nat → α) (len leaf : Nat) (vs : List α)

/-- The values on a path, from the leaf upwards. -/
def read : List α := (List.range len).map fun j => f (leaf >>> j)

/-- The tree with other values on a path. A node has its level from its number. -/
def write (n : Nat) : α :=
  let j := len - 1 - Nat.log2 n
  if leaf >>> j = n then vs.getD j (f n) else f n

theorem length_read : (read f len leaf).length = len := by simp [read]

theorem getElem?_read {j : Nat} (h : j < len) : (read f len leaf)[j]? = some (f (leaf >>> j)) := by
  simp [read, h]

variable {f len leaf vs}

theorem on_or_off (n : Nat) : (∃ j < len, leaf >>> j = n) ∨ ∀ j < len, leaf >>> j ≠ n := by
  by_cases h : ∃ j < len, leaf >>> j = n
  · exact .inl h
  · exact .inr fun j hj heq => h ⟨j, hj, heq⟩

/-- Nodes off the path keep their values. -/
theorem write_of_ne {n : Nat} (hlen : 0 < len) (h : ∀ j < len, leaf >>> j ≠ n) :
    write f len leaf vs n = f n := if_neg (h _ (by omega))

/-- The nodes of the path get the new values. -/
theorem write_shiftRight {d j : Nat} {v : α} (hleaf : IsLeaf d leaf) (hj : j ≤ d)
    (hv : vs[j]? = some v) : write f (d + 1) leaf vs (leaf >>> j) = v := by
  have hlevel : d + 1 - 1 - Nat.log2 (leaf >>> j) = j := by
    rw [(hleaf.shiftRight hj).log2_eq]
    omega
  rw [write, hlevel, if_pos rfl, List.getD_eq_getElem?_getD, hv]
  rfl

end

end HeapPath
