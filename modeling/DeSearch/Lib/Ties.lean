import Mathlib.Data.List.Perm.Basic
import Mathlib.Order.Lattice

/-!
# Sorting with ties

A list of strings is sorted by a key that some of them share. The order of strings with the same key
is then not determined, and the strings may be joined in several ways.

* `flatten_eq_of_perm`: strings that may change places give the same text in both orders, so all
  sorted orders give the same text.
* `exists_swap`: any two strings with the same key may change places.
-/

namespace Ties

variable {α κ : Type*} [LinearOrder κ]

/-- A list in the order of a key. -/
def Sorted {β : Type*} (key : β → κ) (l : List β) : Prop := l.Pairwise fun a b => key a ≤ key b

theorem append_flatten_comm {a : List α} {u : List (List α)} (h : ∀ x ∈ u, a ++ x = x ++ a) :
    a ++ u.flatten = u.flatten ++ a := by
  induction u with
  | nil => simp
  | cons x u ih =>
      rw [List.forall_mem_cons] at h
      rw [List.flatten_cons, ← List.append_assoc, h.1, List.append_assoc, ih h.2,
        List.append_assoc]

/-- Two sorted orders give the same text, if strings with the same key do in both orders. -/
theorem flatten_eq_of_perm {key : List α → κ} {r r' : List (List α)} (hperm : r.Perm r')
    (hr : Sorted key r) (hr' : Sorted key r')
    (hc : ∀ x ∈ r, ∀ y ∈ r, key x = key y → x ++ y = y ++ x) : r.flatten = r'.flatten := by
  induction r generalizing r' with
  | nil => rw [List.nil_perm.1 hperm]
  | cons a r ih =>
      obtain ⟨u, v, rfl⟩ := List.append_of_mem (hperm.subset List.mem_cons_self)
      have hrest : r.Perm (u ++ v) := (hperm.trans List.perm_middle).cons_inv
      obtain ⟨hle, hr⟩ := List.pairwise_cons.1 hr
      have hsub : (u ++ v).Sublist (u ++ a :: v) := (List.sublist_cons_self a v).append_left u
      have hih := ih hrest hr (hr'.sublist hsub) fun x hx y hy =>
        hc x (List.mem_cons_of_mem _ hx) y (List.mem_cons_of_mem _ hy)
      -- what stands before `a` on the right has the same key
      have hcomm : ∀ x ∈ u, a ++ x = x ++ a := by
        intro x hx
        have hxr : x ∈ r := hrest.mem_iff.2 (List.mem_append_left v hx)
        have hxa : key x ≤ key a :=
          (List.pairwise_append.1 hr').2.2 x hx a List.mem_cons_self
        exact hc a List.mem_cons_self x (List.mem_cons_of_mem _ hxr)
          (le_antisymm (hle x hxr) hxa)
      rw [List.flatten_cons, hih, List.flatten_append, List.flatten_append, List.flatten_cons,
        ← List.append_assoc, append_flatten_comm hcomm, List.append_assoc]

section

variable {β : Type*} (key : β → κ)

theorem exists_sorted (l : List β) : ∃ s, s.Perm l ∧ Sorted key s := by
  refine ⟨l.mergeSort fun a b => key a ≤ key b, List.mergeSort_perm _ _, ?_⟩
  refine (List.pairwise_mergeSort ?_ ?_ _).imp fun h => of_decide_eq_true h
  · intro a b c hab hbc
    exact decide_eq_true ((of_decide_eq_true hab).trans (of_decide_eq_true hbc))
  · intro a b
    simpa using le_total (key a) (key b)

/-- A sorted order in two parts, the elements with a smaller key and the others. -/
theorem exists_sorted_parts (l : List β) (k : κ) : ∃ u v, (u ++ v).Perm l ∧ Sorted key u ∧
    Sorted key v ∧ (∀ z ∈ u, key z < k) ∧ ∀ z ∈ v, k ≤ key z := by
  obtain ⟨s, hs, hsorted⟩ := exists_sorted key l
  refine ⟨s.filter fun z => key z < k, s.filter fun z => !decide (key z < k),
    (List.filter_append_perm _ s).trans hs, hsorted.filter _, hsorted.filter _, ?_, ?_⟩
  · simp
  · simp

variable {key}

/-- Two elements with the same key between the smaller and the larger ones. -/
theorem sorted_between {u v : List β} {a b : β} {k : κ} (hu : Sorted key u) (hv : Sorted key v)
    (hsmall : ∀ z ∈ u, key z < k) (hlarge : ∀ z ∈ v, k ≤ key z) (ha : key a = k) (hb : key b = k) :
    Sorted key (u ++ a :: b :: v) := by
  refine List.pairwise_append.2 ⟨hu, ?_, fun z hz w hw => (hsmall z hz).le.trans ?_⟩
  · simp only [List.pairwise_cons, List.forall_mem_cons, ha, hb]
    exact ⟨⟨le_rfl, hlarge⟩, hlarge, hv⟩
  · simp only [List.mem_cons] at hw
    rcases hw with rfl | rfl | hw
    · exact ha.ge
    · exact hb.ge
    · exact hlarge w hw

variable (key) in
/-- Any two elements with the same key may stand next to each other, either way round. -/
theorem exists_swap [DecidableEq β] {l : List β} {x y : β} (hx : x ∈ l) (hy : y ∈ l) (hne : x ≠ y)
    (hkey : key x = key y) :
    ∃ u v, (u ++ x :: y :: v).Perm l ∧ Sorted key (u ++ x :: y :: v) ∧
      Sorted key (u ++ y :: x :: v) := by
  have hpair : (x :: y :: (l.erase x).erase y).Perm l := by
    have hy' : y ∈ l.erase x := (List.mem_erase_of_ne hne.symm).2 hy
    exact ((List.perm_cons_erase hy').symm.cons x).trans (List.perm_cons_erase hx).symm
  obtain ⟨u, v, hperm, hu, hv, hsmall, hlarge⟩ :=
    exists_sorted_parts key ((l.erase x).erase y) (key x)
  refine ⟨u, v, ?_, sorted_between hu hv hsmall hlarge rfl hkey.symm,
    sorted_between hu hv hsmall hlarge hkey.symm rfl⟩
  have hfront : (u ++ x :: y :: v).Perm (x :: y :: (u ++ v)) :=
    List.perm_middle.trans (List.perm_middle.cons x)
  exact hfront.trans (((hperm.cons y).cons x).trans hpair)

end

/-- Strings that give different texts in the two orders. -/
theorem append_comm_of_swap {u v : List (List α)} {x y : List α}
    (h : (u ++ x :: y :: v).flatten = (u ++ y :: x :: v).flatten) : x ++ y = y ++ x := by
  simp only [List.flatten_append, List.flatten_cons, ← List.append_assoc] at h
  have h' := List.append_cancel_right h
  rw [List.append_assoc, List.append_assoc] at h'
  exact List.append_cancel_left h'

end Ties
