import Mathlib.Data.List.Perm.Subperm
import Mathlib.Data.List.NodupEquivFin
import Mathlib.Algebra.Order.BigOperators.Group.List
import Mathlib.Algebra.Order.Ring.Nat

/-!
# Counting

Each source produces at most one thing. If there are as many different things as sources, then
every source has produced one, and nothing else can come. A part of a list weighs no more than the
whole. And if some numbers are left out, each of the others stands behind those before it that are
kept.
-/

namespace Counting

variable {α β : Type*} {R : α → β → Prop} {sources : List α} {things : List β}

/-- Every source has produced one of the things. -/
theorem exists_of_length_le (hR : ∀ a b c, R a b → R a c → b = c) (hnodup : things.Nodup)
    (hsource : ∀ b ∈ things, ∃ a ∈ sources, R a b) (hlen : sources.length ≤ things.length) :
    ∀ a ∈ sources, ∃ b ∈ things, R a b := by
  choose f hf hRf using hsource
  -- the sources of the things: as many as there are things, and so all of them
  have hinj : (things.attach.map fun b => f b.1 b.2).Nodup := by
    refine (List.nodup_attach.2 hnodup).map_on ?_
    intro b _ c _ heq
    have hb := hRf b.1 b.2
    rw [heq] at hb
    exact Subtype.ext (hR _ _ _ hb (hRf c.1 c.2))
  have hsub : (things.attach.map fun b => f b.1 b.2) ⊆ sources := by
    intro a ha
    obtain ⟨b, -, rfl⟩ := List.mem_map.1 ha
    exact hf b.1 b.2
  have hperm := (hinj.subperm hsub).perm_of_length_le (by simpa using hlen)
  intro a ha
  obtain ⟨b, -, rfl⟩ := List.mem_map.1 (hperm.mem_iff.2 ha)
  exact ⟨b.1, b.2, hRf b.1 b.2⟩

/-- Nothing else can come. -/
theorem mem_of_length_le (hR : ∀ a b c, R a b → R a c → b = c) (hnodup : things.Nodup)
    (hsource : ∀ b ∈ things, ∃ a ∈ sources, R a b) (hlen : sources.length ≤ things.length)
    {a : α} {b : β} (ha : a ∈ sources) (hab : R a b) : b ∈ things := by
  obtain ⟨c, hc, hac⟩ := exists_of_length_le hR hnodup hsource hlen a ha
  rwa [hR a b c hab hac]

/-- What is taken from a list, in whatever order, weighs no more than the list. -/
theorem sum_map_le_of_subperm (weight : α → Nat) {xs ys : List α} (h : xs.Subperm ys) :
    (xs.map weight).sum ≤ (ys.map weight).sum := by
  obtain ⟨zs, hperm, hsub⟩ := h
  rw [← (hperm.map weight).sum_nat]
  exact (hsub.map weight).sum_le_sum fun _ _ => Nat.zero_le _

/-- A number that is kept stands behind those before it that are kept. -/
theorem getElem?_filter_range_length (p : Nat → Bool) {i n : Nat} (hi : i < n) (hp : p i) :
    ((List.range n).filter p)[((List.range i).filter p).length]? = some i := by
  obtain ⟨m, rfl⟩ := Nat.exists_eq_add_of_lt hi
  rw [Nat.add_assoc, Nat.add_comm m, ← Nat.add_assoc, List.range_add, List.range_succ,
    List.append_assoc, List.filter_append, List.singleton_append, List.filter_cons_of_pos hp]
  simp

/-- Where a number that is kept stands: behind those before it that are kept. -/
theorem getElem?_filter_range_iff (p : Nat → Bool) {i j n : Nat} (hi : i < n) (hp : p i) :
    ((List.range n).filter p)[j]? = some i ↔ ((List.range i).filter p).length = j := by
  have hat := getElem?_filter_range_length p hi hp
  constructor
  · intro h
    have hlt := (List.getElem?_eq_some_iff.1 hat).1
    exact (List.getElem?_inj hlt (List.nodup_range.filter p)).1 (hat.trans h.symm)
  · rintro rfl
    exact hat

end Counting
