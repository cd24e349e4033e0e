import Mathlib.Data.List.Perm.Basic
import Mathlib.Data.List.TakeWhile

/-!
# Chained hash tables

How `libstdc++` lays out an `unordered_map`. All elements stand in one list, those of a bucket
next to each other. A new element goes to the front of its bucket, and to the front of the list if
its bucket is empty. When there are more elements than buckets, the table takes a larger number of
buckets and places its elements anew. Clearing a table keeps the number of its buckets.
-/

namespace Buckets

variable {α : Type*} (hash : α → Nat)

/-- Put an element into a list with `n` buckets. -/
def place (n : Nat) (l : List α) (x : α) : List α :=
  if l.any fun y => hash y % n = hash x % n then
    l.takeWhile (fun y => hash y % n ≠ hash x % n) ++
      x :: l.dropWhile (fun y => hash y % n ≠ hash x % n)
  else x :: l

/-- The numbers of buckets a table grows through. -/
def sizes : List Nat := [13, 29, 59, 127, 257, 541, 1109, 2357, 5087, 10273, 20753, 42043]

/-- The number of buckets for one more element. A table that was never used has one bucket, and
no room. -/
def grow (n count : Nat) : Nat :=
  if count < n ∧ n ≠ 1 then n else (sizes.find? fun k => max 12 (2 * n) ≤ k).getD n

/-- Insert an element: the number of buckets and the list. -/
def insert (t : Nat × List α) (x : α) : Nat × List α :=
  let n := grow t.1 t.2.length
  let l := if n = t.1 then t.2 else t.2.foldl (place hash n) []
  (n, place hash n l x)

/-- Insert elements into a table that is empty and has `n` buckets. -/
def insertAll (n : Nat) (l : List α) : Nat × List α := l.foldl (insert hash) (n, [])

variable {hash}

theorem place_perm (n : Nat) (l : List α) (x : α) : (place hash n l x).Perm (x :: l) := by
  unfold place
  split_ifs
  · exact List.perm_middle.trans (.cons x (by rw [List.takeWhile_append_dropWhile]))
  · exact .refl _

theorem foldl_place_perm (n : Nat) (l acc : List α) :
    (l.foldl (place hash n) acc).Perm (acc ++ l) := by
  induction l generalizing acc with
  | nil => simp
  | cons x l ih =>
      refine (ih _).trans (((place_perm n acc x).append_right l).trans ?_)
      exact List.perm_middle.symm

theorem insert_perm (t : Nat × List α) (x : α) : (insert hash t x).2.Perm (x :: t.2) := by
  refine (place_perm _ _ x).trans (.cons x ?_)
  split_ifs
  · exact .refl _
  · exact foldl_place_perm _ _ _

/-- A table holds what was inserted. -/
theorem insertAll_perm (n : Nat) (l : List α) : (insertAll hash n l).2.Perm l := by
  have hacc : ∀ t : Nat × List α, (l.foldl (insert hash) t).2.Perm (t.2 ++ l) := by
    induction l with
    | nil => simp
    | cons x l ih =>
        intro t
        refine (ih _).trans (((insert_perm t x).append_right l).trans ?_)
        exact List.perm_middle.symm
  exact hacc (n, [])

end Buckets
