import Mathlib.Data.List.Basic

/-!
# Runs of a machine

A machine has states and takes actions one at a time; `step` says what an action does. A run is a
list of actions. A run *meets* a condition when each of its actions does, in the state it is taken
in. Since every beginning of a run is a run, a property of the last state of all runs is a
property of every state reached.
-/

namespace Run

variable {σ α : Type*} (step : α → σ → σ)

/-- The state after a run. -/
def exec (s : σ) (as : List α) : σ := as.foldl (fun s a => step a s) s

/-- Every action of the run meets the condition where it is taken. -/
def Meets (ok : σ → α → Prop) : σ → List α → Prop
  | _, [] => True
  | s, a :: as => ok s a ∧ Meets ok (step a s) as

instance Meets.decidable (ok : σ → α → Prop) [∀ s a, Decidable (ok s a)] :
    ∀ s as, Decidable (Meets step ok s as)
  | _, [] => .isTrue trivial
  | s, a :: as =>
      have := Meets.decidable ok (step a s) as
      inferInstanceAs (Decidable (ok s a ∧ Meets step ok (step a s) as))

variable {step} {ok ok' : σ → α → Prop} {s : σ} {as bs : List α}

@[simp] theorem exec_nil : exec step s [] = s := rfl

@[simp] theorem exec_cons (a : α) : exec step s (a :: as) = exec step (step a s) as := rfl

@[simp] theorem exec_append : exec step s (as ++ bs) = exec step (exec step s as) bs :=
  List.foldl_append

@[simp] theorem meets_nil : Meets step ok s [] := trivial

@[simp] theorem meets_cons (a : α) :
    Meets step ok s (a :: as) ↔ ok s a ∧ Meets step ok (step a s) as := Iff.rfl

@[simp] theorem meets_append :
    Meets step ok s (as ++ bs) ↔ Meets step ok s as ∧ Meets step ok (exec step s as) bs := by
  induction as generalizing s with
  | nil => simp
  | cons a as ih => simp [ih, and_assoc]

/-- Each action of the run, in the state that the actions before it lead to. -/
theorem meets_iff_split :
    Meets step ok s as ↔ ∀ bs a cs, as = bs ++ a :: cs → ok (exec step s bs) a := by
  induction as generalizing s with
  | nil => exact iff_of_true trivial fun bs a cs h => by simp at h
  | cons a as ih =>
      rw [meets_cons, ih]
      constructor
      · rintro ⟨ha, hrest⟩ bs b cs h
        cases bs with
        | nil =>
            obtain ⟨rfl, -⟩ := List.cons.inj h
            exact ha
        | cons b' bs =>
            obtain ⟨rfl, htail⟩ := List.cons.inj h
            exact hrest bs b cs htail
      · intro h
        exact ⟨h [] a as rfl, fun bs b cs hbs => h (a :: bs) b cs (by rw [hbs, List.cons_append])⟩

theorem Meets.mono (h : ∀ s a, ok s a → ok' s a) (hm : Meets step ok s as) :
    Meets step ok' s as := by
  induction as generalizing s with
  | nil => trivial
  | cons a as ih => exact ⟨h s a hm.1, ih hm.2⟩

theorem Meets.and (h : Meets step ok s as) (h' : Meets step ok' s as) :
    Meets step (fun s a => ok s a ∧ ok' s a) s as := by
  induction as generalizing s with
  | nil => trivial
  | cons a as ih => exact ⟨⟨h.1, h'.1⟩, ih h.2 h'.2⟩

theorem meets_of_forall (h : ∀ s, ∀ a ∈ as, ok s a) : Meets step ok s as := by
  induction as generalizing s with
  | nil => trivial
  | cons a as ih =>
      exact ⟨h s a List.mem_cons_self, ih fun s b hb => h s b (List.mem_cons_of_mem a hb)⟩

/-- What every action preserves holds after the run. -/
theorem Meets.invariant {I : σ → Prop} (hm : Meets step ok s as) (h₀ : I s)
    (hstep : ∀ s a, ok s a → I s → I (step a s)) : I (exec step s as) := by
  induction as generalizing s with
  | nil => exact h₀
  | cons a as ih => exact ih hm.2 (hstep s a hm.1 h₀)

/-- **Simulation.** A relation to another machine that every action preserves. -/
theorem Meets.simulation {τ : Type*} {step' : α → τ → τ} {R : σ → τ → Prop} {t : τ}
    (hm : Meets step ok s as) (h₀ : R s t)
    (hstep : ∀ s t a, ok s a → R s t → R (step a s) (step' a t)) :
    R (exec step s as) (exec step' t as) := by
  induction as generalizing s t with
  | nil => exact h₀
  | cons a as ih => exact ih hm.2 (hstep s t a hm.1 h₀)

/-- What every action preserves wherever it is taken holds after every run. -/
theorem exec_invariant {I : σ → Prop} (as : List α) (h₀ : I s) (hstep : ∀ s a, I s → I (step a s)) :
    I (exec step s as) := by
  induction as generalizing s with
  | nil => exact h₀
  | cons a as ih => exact ih (hstep s a h₀)

/-- A preorder that every action respects relates the first state of a run to the last. -/
theorem exec_mono {r : σ → σ → Prop} (hrefl : ∀ s, r s s)
    (htrans : ∀ {s t u}, r s t → r t u → r s u) (hstep : ∀ s a, r s (step a s)) :
    r s (exec step s as) := by
  induction as generalizing s with
  | nil => exact hrefl s
  | cons a as ih => exact htrans (hstep s a) ih

/-! ## Runs from one state to another -/

variable (step ok)

/-- A run that meets the condition leads from one state to another. -/
structure Leads (s : σ) (as : List α) (s' : σ) : Prop where
  meets : Meets step ok s as
  exec_eq : exec step s as = s'

variable {step ok} {s' s'' : σ}

theorem Leads.nil : Leads step ok s [] s := ⟨trivial, rfl⟩

theorem Leads.cons {a : α} (ha : ok s a) (hs : step a s = s') (h : Leads step ok s' as s'') :
    Leads step ok s (a :: as) s'' := by
  subst hs
  exact ⟨⟨ha, h.meets⟩, h.exec_eq⟩

theorem Leads.append (h : Leads step ok s as s') (h' : Leads step ok s' bs s'') :
    Leads step ok s (as ++ bs) s'' := by
  obtain ⟨hm, rfl⟩ := h
  exact ⟨meets_append.2 ⟨hm, h'.meets⟩, by rw [exec_append, h'.exec_eq]⟩

end Run
