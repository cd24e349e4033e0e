import Mathlib.Data.List.Basic

/-!
# Slots

A list of slots, some of which are free. What the others hold is not lost when something is put into
a free slot, and nothing else is lost when a slot is set free.
-/

namespace Slots

variable {α : Type*} {free : α → Prop} {l : List α} {k : Nat} {x y b : α}

theorem mem_set_iff (hk : l[k]? = some x) :
    b ∈ l.set k y ↔ b = y ∨ ∃ j, j ≠ k ∧ l[j]? = some b := by
  obtain ⟨hlt, -⟩ := List.getElem?_eq_some_iff.1 hk
  rw [List.mem_iff_getElem?]
  constructor
  · intro h
    obtain ⟨j, hj⟩ := h
    by_cases hjk : j = k
    · subst hjk
      rw [List.getElem?_set_self hlt] at hj
      exact .inl (Option.some.inj hj).symm
    · rw [List.getElem?_set_ne (Ne.symm hjk)] at hj
      exact .inr ⟨j, hjk, hj⟩
  · intro h
    obtain rfl | ⟨j, hjk, hj⟩ := h
    · exact ⟨k, List.getElem?_set_self hlt⟩
    · exact ⟨j, by rw [List.getElem?_set_ne (Ne.symm hjk), hj]⟩

theorem mem_iff_of_slot (hk : l[k]? = some x) : b ∈ l ↔ b = x ∨ ∃ j, j ≠ k ∧ l[j]? = some b := by
  have h := mem_set_iff (y := x) (b := b) hk
  obtain ⟨hlt, rfl⟩ := List.getElem?_eq_some_iff.1 hk
  rwa [List.set_getElem_self] at h

/-- Something is put into a free slot. -/
theorem mem_set_of_free (hk : l[k]? = some x) (hx : free x) (hb : ¬free b) :
    b ∈ l.set k y ↔ b = y ∨ b ∈ l := by
  have hne : b ≠ x := fun heq => hb (heq ▸ hx)
  rw [mem_set_iff hk, mem_iff_of_slot hk]
  simp [hne]

/-- A slot is set free. -/
theorem mem_set_free (hk : l[k]? = some x) (hy : free y) (hb : ¬free b) :
    b ∈ l.set k y ∨ b = x ↔ b ∈ l := by
  have hne : b ≠ y := fun heq => hb (heq ▸ hy)
  rw [mem_set_iff hk, mem_iff_of_slot hk]
  simp [hne, or_comm]

end Slots
