import DeSearch.JsonProof

/-!
# The size of printed values

How long the text of a value is, from the sizes of its parts. What goes around a part depends on its
kind and, for the members of an object, on the depth.
-/

namespace DeSearch

namespace JSON

theorem escape_append (s t : Bytes) : escape (s ++ t) = escape s ++ escape t :=
  List.flatMap_append

theorem length_pad (d : Nat) : (pad d).length = 2 * d := List.length_replicate

theorem length_dump_string (d : Nat) (s : Bytes) :
    ((string s).dump d).length = (escape s).length + 2 := by
  simp [dump]

theorem length_dump_object (d : Nat) (m : List (Bytes × JSON)) :
    ((object m).dump d).length = (dumpMembers d m).length + 2 * (d - 1) + 4 := by
  have hopen : (ascii "\x7b\n").length = 2 := rfl
  have hclose : (ascii "\x7d").length = 1 := rfl
  simp only [dump, List.length_append, List.length_cons, length_pad, hopen, hclose]
  omega

theorem length_dump_array (d : Nat) (l : List JSON) :
    ((array l).dump d).length = (dumpElems d l).length + 2 := by
  have hopen : (ascii "[").length = 1 := rfl
  have hclose : (ascii "]").length = 1 := rfl
  simp only [dump, List.length_append, hopen, hclose]
  omega

theorem length_dumpMembers_singleton (d : Nat) (k : Bytes) (v : JSON) :
    (dumpMembers d [(k, v)]).length = (v.dump (d + 1)).length + (2 * d + k.length + 5) := by
  have hcolon : (ascii "\" : ").length = 4 := rfl
  simp only [dumpMembers, List.length_append, List.length_cons, length_pad, hcolon]
  omega

theorem length_dumpMembers_cons (d : Nat) (k : Bytes) (v : JSON) (p : Bytes × JSON)
    (m : List (Bytes × JSON)) :
    (dumpMembers d ((k, v) :: p :: m)).length =
      (v.dump (d + 1)).length + (2 * d + k.length + 7) + (dumpMembers d (p :: m)).length := by
  have hcolon : (ascii "\" : ").length = 4 := rfl
  rw [dumpMembers_cons]
  simp only [List.length_append, List.length_cons, length_pad, hcolon]
  omega

theorem length_dumpElems_cons (d : Nat) (v w : JSON) (l : List JSON) :
    (dumpElems d (v :: w :: l)).length =
      (v.dump (d + 1)).length + 2 + (dumpElems d (w :: l)).length := by
  rw [dumpElems_cons, List.length_append, List.length_cons, List.length_cons]
  omega

/-- The size of an array whose elements have a known size. -/
theorem length_dumpElems {α : Type} {f : α → JSON} {size : α → Nat} {d : Nat} {l : List α}
    (h : ∀ a ∈ l, ((f a).dump (d + 1)).length = size a) (hl : l ≠ []) :
    (dumpElems d (l.map f)).length + 2 = (l.map fun a => size a + 2).sum := by
  induction l with
  | nil => exact absurd rfl hl
  | cons a l ih =>
      rw [List.forall_mem_cons] at h
      cases l with
      | nil => rw [List.map_singleton, dumpElems, h.1, List.map_singleton, List.sum_singleton]
      | cons a' l =>
          have hrest := ih h.2 (List.cons_ne_nil _ _)
          rw [List.map_cons, List.map_cons, length_dumpElems_cons, h.1, List.map_cons,
            List.sum_cons, ← hrest, List.map_cons]
          omega

/-- The size of an array of strings. -/
theorem length_dump_strings {l : List Bytes} (h : l ≠ []) (d : Nat) :
    ((array (l.map string)).dump d).length = (l.map fun s => (escape s).length + 4).sum := by
  rw [length_dump_array, length_dumpElems (fun s _ => length_dump_string (d + 1) s) h]

end JSON

end DeSearch
