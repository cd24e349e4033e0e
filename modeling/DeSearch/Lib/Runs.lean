import Mathlib.Data.List.Basic

/-!
# Runs of a text

A scanner cuts a text into runs. A letter joins the run that is open; a separator closes it, and may
leave something at the start of the next one. A run that is closed while it is empty is dropped.

The main rule is `mem_runs`: every run is what a separator has left, or what was there at first,
with all the letters up to the next separator.
-/

namespace Runs

variable {α : Type*}

/-- The run that is closed, unless it is empty. -/
def close : List α → List (List α)
  | [] => []
  | c :: s => [c :: s]

/-- The runs of a text, with the run that is open. `start` is `none` for a letter, and what is left
at the start of the next run for a separator. -/
def runs (start : α → Option (List α)) : List α → List α → List (List α)
  | current, [] => close current
  | current, c :: s =>
      match start c with
      | none => runs start (current ++ [c]) s
      | some left => close current ++ runs start left s

variable {start : α → Option (List α)} {current s w : List α} {c : α}

theorem mem_close : w ∈ close current ↔ w ≠ [] ∧ w = current := by
  cases current with
  | nil =>
      simp only [close, List.not_mem_nil, false_iff, not_and]
      exact fun hne heq => hne heq
  | cons c current =>
      simp only [close, List.mem_singleton]
      constructor
      · rintro rfl
        exact ⟨List.cons_ne_nil _ _, rfl⟩
      · exact fun h => h.2

theorem runs_letter (h : start c = none) (current s : List α) :
    runs start current (c :: s) = runs start (current ++ [c]) s := by
  rw [runs, h]

theorem runs_separator {left : List α} (h : start c = some left) (current s : List α) :
    runs start current (c :: s) = close current ++ runs start left s := by
  rw [runs, h]

/-- A separator cuts a text in two. -/
theorem runs_append_separator {left : List α} (h : start c = some left) (current s t : List α) :
    runs start current (s ++ c :: t) = runs start current s ++ runs start left t := by
  induction s generalizing current with
  | nil => rw [List.nil_append, runs_separator h, runs]
  | cons d s ih =>
      rw [List.cons_append]
      cases hd : start d with
      | none => rw [runs_letter hd, runs_letter hd, ih]
      | some left' => rw [runs_separator hd, runs_separator hd, ih, List.append_assoc]

/-- Separators that leave nothing close the run once. -/
theorem runs_separators {seps : List α} (hne : seps ≠ []) (h : ∀ c ∈ seps, start c = some [])
    (current s : List α) : runs start current (seps ++ s) = close current ++ runs start [] s := by
  induction seps generalizing current with
  | nil => exact absurd rfl hne
  | cons c seps ih =>
      rw [List.forall_mem_cons] at h
      rw [List.cons_append, runs_separator h.1]
      cases seps with
      | nil => rfl
      | cons d seps => rw [ih (List.cons_ne_nil _ _) h.2, close, List.nil_append]

theorem runs_letters {u : List α} (h : ∀ c ∈ u, start c = none) (current s : List α) :
    runs start current (u ++ s) = runs start (current ++ u) s := by
  induction u generalizing current with
  | nil => rw [List.nil_append, List.append_nil]
  | cons c u ih =>
      rw [List.forall_mem_cons] at h
      rw [List.cons_append, runs_letter h.1, ih h.2, List.append_assoc, List.singleton_append]

/-- Every element adds one run at most. -/
theorem length_runs_le (start : α → Option (List α)) (current s : List α) :
    (runs start current s).length ≤ s.length + 1 := by
  have hclose : ∀ current : List α, (close current).length ≤ 1 := by
    intro current
    cases current with
    | nil => exact Nat.zero_le _
    | cons c s => exact Nat.le_refl _
  induction s generalizing current with
  | nil => exact hclose current
  | cons c s ih =>
      rw [List.length_cons]
      cases hc : start c with
      | none =>
          rw [runs_letter hc]
          exact Nat.le_succ_of_le (ih _)
      | some left =>
          rw [runs_separator hc, List.length_append]
          have hone := hclose current
          have hrest := ih left
          omega

variable (start) in
/-- The text is made of letters. -/
def Letters (u : List α) : Prop := ∀ c ∈ u, start c = none

variable (start) in
/-- The text does not go on with a letter. -/
def Stops (s : List α) : Prop := ∀ c ∈ s.head?, start c ≠ none

/-- Letters up to the end of the text, or up to a separator, with something in front of them. -/
def Joins (start : α → Option (List α)) (front s w : List α) : Prop :=
  ∃ u rest, s = u ++ rest ∧ Letters start u ∧ Stops start rest ∧ w = front ++ u

theorem joins_nil : Joins start current [] w ↔ w = current := by
  constructor
  · rintro ⟨u, rest, hsplit, -, -, rfl⟩
    rw [(List.append_eq_nil_iff.1 hsplit.symm).1, List.append_nil]
  · rintro rfl
    exact ⟨[], [], rfl, by simp [Letters], by simp [Stops], by simp⟩

theorem joins_letter (h : start c = none) :
    Joins start current (c :: s) w ↔ Joins start (current ++ [c]) s w := by
  constructor
  · rintro ⟨u, rest, hsplit, hu, hrest, rfl⟩
    cases u with
    | nil =>
        rw [List.nil_append] at hsplit
        exact absurd h (hrest c (by rw [← hsplit]; rfl))
    | cons d u =>
        obtain ⟨rfl, rfl⟩ := List.cons.inj hsplit
        exact ⟨u, rest, rfl, fun x hx => hu x (List.mem_cons_of_mem _ hx), hrest, by simp⟩
  · rintro ⟨u, rest, rfl, hu, hrest, rfl⟩
    exact ⟨c :: u, rest, rfl, List.forall_mem_cons.2 ⟨h, hu⟩, hrest, by simp⟩

theorem joins_separator {left : List α} (h : start c = some left) :
    Joins start current (c :: s) w ↔ w = current := by
  constructor
  · rintro ⟨u, rest, hsplit, hu, -, rfl⟩
    cases u with
    | nil => rw [List.append_nil]
    | cons d u =>
        obtain ⟨rfl, -⟩ := List.cons.inj hsplit
        rw [hu c List.mem_cons_self] at h
        cases h
  · rintro rfl
    refine ⟨[], c :: s, rfl, by simp [Letters], ?_, by simp⟩
    simp [Stops, h]

/-- What the runs of a text are. -/
theorem mem_runs : w ∈ runs start current s ↔ w ≠ [] ∧ (Joins start current s w ∨
    ∃ front c left rest, s = front ++ c :: rest ∧ start c = some left ∧
      Joins start left rest w) := by
  induction s generalizing current with
  | nil =>
      rw [runs, mem_close, joins_nil]
      simp
  | cons c s ih =>
      -- a separator further behind, or this one
      have hsplit : (∃ front d left rest, c :: s = front ++ d :: rest ∧ start d = some left ∧
          Joins start left rest w) ↔ (∃ left, start c = some left ∧ Joins start left s w) ∨
            ∃ front d left rest, s = front ++ d :: rest ∧ start d = some left ∧
              Joins start left rest w := by
        constructor
        · rintro ⟨front, d, left, rest, heq, hd, hjoins⟩
          cases front with
          | nil =>
              obtain ⟨rfl, rfl⟩ := List.cons.inj heq
              exact .inl ⟨left, hd, hjoins⟩
          | cons d' front =>
              obtain ⟨rfl, rfl⟩ := List.cons.inj heq
              exact .inr ⟨front, d, left, rest, rfl, hd, hjoins⟩
        · rintro (⟨left, hc, hjoins⟩ | ⟨front, d, left, rest, rfl, hd, hjoins⟩)
          · exact ⟨[], c, left, s, rfl, hc, hjoins⟩
          · exact ⟨c :: front, d, left, rest, rfl, hd, hjoins⟩
      rw [hsplit]
      cases hc : start c with
      | none =>
          rw [runs_letter hc, ih, joins_letter hc]
          simp
      | some left =>
          rw [runs_separator hc, List.mem_append, mem_close, ih, joins_separator hc]
          simp only [Option.some.injEq, exists_eq_left', and_or_left]

end Runs
