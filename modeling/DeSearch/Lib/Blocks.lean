import Mathlib.Algebra.Order.Ring.Nat
import Mathlib.Tactic.Ring

/-!
# Memory in blocks

A memory is a function from addresses to values. It may be kept as blocks of a fixed size, and a
range of it read by fetching all blocks that the range touches (`slice_blocks`).
-/

namespace Blocks

variable {α : Type*} (f : Nat → α)

/-- `n` cells of a memory. -/
def cells (start n : Nat) : List α := (List.range n).map fun i => f (start + i)

@[simp] theorem length_cells (start n : Nat) : (cells f start n).length = n := by simp [cells]

theorem cells_append (start m n : Nat) :
    cells f start (m + n) = cells f start m ++ cells f (start + m) n := by
  rw [cells, cells, cells, List.range_add, List.map_append, List.map_map]
  congr 1
  exact List.map_congr_left fun i _ => by simp [Nat.add_assoc]

theorem drop_cells (start : Nat) {n k : Nat} (h : k ≤ n) :
    (cells f start n).drop k = cells f (start + k) (n - k) := by
  obtain ⟨m, rfl⟩ := Nat.exists_eq_add_of_le h
  rw [cells_append, List.drop_left' (length_cells f start k), Nat.add_sub_cancel_left]

theorem take_cells (start : Nat) {n k : Nat} (h : k ≤ n) :
    (cells f start n).take k = cells f start k := by
  obtain ⟨m, rfl⟩ := Nat.exists_eq_add_of_le h
  rw [cells_append, List.take_left' (length_cells f start k)]

/-- Blocks one after the other. -/
theorem flatMap_cells (size start count : Nat) :
    ((List.range count).flatMap fun k => cells f ((start + k) * size) size) =
      cells f (start * size) (count * size) := by
  induction count with
  | zero => simp [cells]
  | succ count ih =>
      rw [List.range_succ, List.flatMap_append, ih, List.flatMap_singleton, Nat.succ_mul,
        cells_append, Nat.add_mul]

/-- **Reading a range** through the blocks it touches. -/
theorem slice_blocks {size : Nat} (hsize : 0 < size) (offset length : Nat) :
    ((((List.range ((offset + length) / size - offset / size + 1)).flatMap fun k =>
      cells f ((offset / size + k) * size) size).drop (offset % size)).take length) =
        cells f offset length := by
  have hoffset := Nat.div_add_mod' offset size
  have hend := Nat.div_add_mod' (offset + length) size
  have hrest := Nat.mod_lt (offset + length) hsize
  have hle : offset / size ≤ (offset + length) / size := Nat.div_le_div_right (by omega)
  -- The blocks end behind the range.
  have hcount : ((offset + length) / size - offset / size + 1) * size =
      (offset + length) / size * size - offset / size * size + size := by
    rw [Nat.succ_mul, Nat.sub_mul]
  have hmul := Nat.mul_le_mul_right size hle
  rw [flatMap_cells, drop_cells f _ (by omega), take_cells f _ (by omega), hoffset]

end Blocks
