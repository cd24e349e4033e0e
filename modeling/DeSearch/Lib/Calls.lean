import Mathlib.Data.Set.Basic

/-!
# Programs that call a service

A program calls the operations of some service and goes on with what they return. The service is a
handler with a state of its own, so that one program can be run against several of them: against an
implementation and against its specification. If each call agrees, so does the whole run
(`Agree.run`), and the programs make the same calls (`calls_eq`).

* `run`: the result of a program under a handler.
* `calls`: the calls it makes.
* `Meets`: every call it makes meets a condition on the call and the service's state.
* `Only`: the calls it can make, whatever they return.
-/

namespace Calls

/-- A program with calls in `Op`, which return an `Ret` each. -/
inductive Prog (ε Op Ret α : Type) where
  | done (a : α)
  | fail (e : ε)
  | call (op : Op) (next : Ret → Prog ε Op Ret α)

section
variable {ε Op Ret σ τ α β : Type}

namespace Prog

/-- One program after the other. -/
def bind : Prog ε Op Ret α → (α → Prog ε Op Ret β) → Prog ε Op Ret β
  | done a, f => f a
  | fail e, _ => fail e
  | call op next, f => call op fun r => (next r).bind f

instance : Monad (Prog ε Op Ret) where
  pure := done
  bind := bind

@[simp] theorem pure_eq (a : α) : (pure a : Prog ε Op Ret α) = done a := rfl

@[simp] theorem done_bind (a : α) (f : α → Prog ε Op Ret β) : (done a >>= f) = f a := rfl

@[simp] theorem fail_bind (e : ε) (f : α → Prog ε Op Ret β) : (fail e >>= f) = fail e := rfl

@[simp] theorem call_bind (op : Op) (next : Ret → Prog ε Op Ret α) (f : α → Prog ε Op Ret β) :
    (call op next >>= f) = call op fun r => next r >>= f := rfl

theorem bind_done (x : Prog ε Op Ret α) : x >>= done = x := by
  induction x with
  | done a => rfl
  | fail e => rfl
  | call op next ih => rw [call_bind, funext ih]

theorem bind_assoc {γ : Type} (x : Prog ε Op Ret α) (f : α → Prog ε Op Ret β)
    (g : β → Prog ε Op Ret γ) : x >>= f >>= g = x >>= fun a => f a >>= g := by
  induction x with
  | done a => rfl
  | fail e => rfl
  | call op next ih => rw [call_bind, call_bind, call_bind, funext ih]

instance : LawfulMonad (Prog ε Op Ret) :=
  LawfulMonad.mk' _ bind_done (fun _ _ => rfl) bind_assoc

/-- A single call. -/
def access (op : Op) : Prog ε Op Ret Ret := call op done

/-- A computation that makes no call. -/
def lift : Except ε α → Prog ε Op Ret α
  | .ok a => done a
  | .error e => fail e

end Prog

open Prog

/-! ## Runs -/

section
variable (handle : Op → σ → Except ε (Ret × σ))

/-- The result of a program, with the last state of the service. -/
def run : Prog ε Op Ret α → σ → Except ε (α × σ)
  | done a, s => .ok (a, s)
  | fail e, _ => .error e
  | call op next, s =>
      match handle op s with
      | .ok (r, s) => run (next r) s
      | .error e => .error e

/-- The calls of a run. The last one may have failed. -/
def calls : Prog ε Op Ret α → σ → List Op
  | done _, _ => []
  | fail _, _ => []
  | call op next, s =>
      op :: match handle op s with
        | .ok (r, s) => calls (next r) s
        | .error _ => []

/-- Every call of a run meets `ok`. -/
inductive Meets (ok : Op → σ → Prop) : Prog ε Op Ret α → σ → Prop where
  | done (a : α) (s : σ) : Meets ok (done a) s
  | fail (e : ε) (s : σ) : Meets ok (fail e) s
  | call {op : Op} {next : Ret → Prog ε Op Ret α} {s : σ} (h : ok op s)
      (hnext : ∀ r s', handle op s = .ok (r, s') → Meets ok (next r) s') : Meets ok (call op next) s

end

/-- All calls that a program can make meet `ok`. -/
inductive Only (ok : Op → Prop) : Prog ε Op Ret α → Prop where
  | done (a : α) : Only ok (done a)
  | fail (e : ε) : Only ok (fail e)
  | call {op : Op} {next : Ret → Prog ε Op Ret α} (h : ok op) (hnext : ∀ r, Only ok (next r)) :
      Only ok (call op next)

variable {handle : Op → σ → Except ε (Ret × σ)} {ok : Op → σ → Prop} {s s' : σ}

theorem meets_call {op : Op} {next : Ret → Prog ε Op Ret α} :
    Meets handle ok (call op next) s ↔
      ok op s ∧ ∀ r s', handle op s = .ok (r, s') → Meets handle ok (next r) s' := by
  constructor
  · intro h
    cases h with
    | call h hnext => exact ⟨h, hnext⟩
  · intro h
    exact .call h.1 h.2

instance decidableMeets [∀ op s, Decidable (ok op s)] :
    ∀ (x : Prog ε Op Ret α) (s : σ), Decidable (Meets handle ok x s)
  | done a, s => isTrue (.done a s)
  | fail e, s => isTrue (.fail e s)
  | call op next, s =>
      match hop : handle op s with
      | .error e => decidable_of_iff (ok op s) (by simp [meets_call, hop])
      | .ok (r, s') =>
          have := decidableMeets (next r) s'
          decidable_of_iff (ok op s ∧ Meets handle ok (next r) s') (by simp [meets_call, hop])

@[simp] theorem run_pure (a : α) : run handle (pure a : Prog ε Op Ret α) s = .ok (a, s) := rfl

@[simp] theorem run_lift (x : Except ε α) :
    run handle (lift x) s = x.map fun a => (a, s) := by
  cases x <;> rfl

theorem run_access (op : Op) : run handle (access op) s = handle op s := by
  rw [access, run]
  cases handle op s <;> rfl

theorem run_bind (x : Prog ε Op Ret α) (f : α → Prog ε Op Ret β) (s : σ) :
    run handle (x >>= f) s = run handle x s >>= fun r => run handle (f r.1) r.2 := by
  induction x generalizing s with
  | done a => rfl
  | fail e => rfl
  | call op next ih =>
      rw [call_bind, run, run]
      cases handle op s with
      | error e => rfl
      | ok r => exact ih r.1 r.2

theorem run_bind_eq_ok {x : Prog ε Op Ret α} {f : α → Prog ε Op Ret β} {b : β} :
    run handle (x >>= f) s = .ok (b, s') ↔
      ∃ a t, run handle x s = .ok (a, t) ∧ run handle (f a) t = .ok (b, s') := by
  rw [run_bind]
  cases run handle x s with
  | error e =>
      constructor
      · intro h
        cases h
      · intro h
        obtain ⟨a, t, h, -⟩ := h
        cases h
  | ok r =>
      constructor
      · intro h
        exact ⟨r.1, r.2, rfl, h⟩
      · intro h
        obtain ⟨a, t, hr, h⟩ := h
        cases hr
        exact h

@[simp] theorem calls_pure (a : α) : calls handle (pure a : Prog ε Op Ret α) s = [] := rfl

@[simp] theorem calls_lift (x : Except ε α) : calls handle (lift x) s = [] := by
  cases x <;> rfl

theorem calls_access (op : Op) : calls handle (access op) s = [op] := by
  rw [access, calls]
  cases handle op s <;> rfl

theorem calls_bind_of_ok {x : Prog ε Op Ret α} {a : α} (h : run handle x s = .ok (a, s'))
    (f : α → Prog ε Op Ret β) :
    calls handle (x >>= f) s = calls handle x s ++ calls handle (f a) s' := by
  induction x generalizing s with
  | done b =>
      cases h
      rfl
  | fail e => cases h
  | call op next ih =>
      rw [run] at h
      rw [call_bind, calls, calls]
      cases hop : handle op s with
      | error e =>
          rw [hop] at h
          cases h
      | ok r =>
          rw [hop] at h
          exact congrArg (op :: ·) (ih r.1 h)

/-! ## Conditions on calls -/

theorem meets_bind {x : Prog ε Op Ret α} {f : α → Prog ε Op Ret β} :
    Meets handle ok (x >>= f) s ↔ Meets handle ok x s ∧
      ∀ a s', run handle x s = .ok (a, s') → Meets handle ok (f a) s' := by
  induction x generalizing s with
  | done a =>
      constructor
      · intro h
        refine ⟨.done a s, fun a s' hrun => ?_⟩
        cases hrun
        exact h
      · intro h
        exact h.2 a s rfl
  | fail e => exact ⟨fun _ => ⟨.fail e s, fun a s' hrun => nomatch hrun⟩, fun _ => .fail e s⟩
  | call op next ih =>
      rw [call_bind, meets_call, meets_call]
      constructor
      · intro h
        refine ⟨⟨h.1, fun r s' hop => ((ih r).1 (h.2 r s' hop)).1⟩, fun a s' hrun => ?_⟩
        rw [run] at hrun
        cases hop : handle op s with
        | error e =>
            rw [hop] at hrun
            cases hrun
        | ok r =>
            rw [hop] at hrun
            exact ((ih r.1).1 (h.2 r.1 r.2 hop)).2 a s' hrun
      · intro h
        refine ⟨h.1.1, fun r s' hop => (ih r).2 ⟨h.1.2 r s' hop, fun a s'' hrun => h.2 a s'' ?_⟩⟩
        rw [run, hop]
        exact hrun

theorem Meets.bind {x : Prog ε Op Ret α} {f : α → Prog ε Op Ret β} (hx : Meets handle ok x s)
    (hf : ∀ a s', run handle x s = .ok (a, s') → Meets handle ok (f a) s') :
    Meets handle ok (x >>= f) s :=
  meets_bind.2 ⟨hx, hf⟩

theorem meets_pure (a : α) (s : σ) : Meets handle ok (pure a : Prog ε Op Ret α) s := .done a s

theorem meets_lift (x : Except ε α) : Meets handle ok (lift x) s := by
  cases x with
  | ok a => exact .done a s
  | error e => exact .fail e s

theorem meets_access {op : Op} (h : ok op s) :
    Meets handle ok (access op : Prog ε Op Ret Ret) s :=
  .call h fun r s' _ => .done r s'

section
variable {only : Op → Prop}

theorem Only.bind {x : Prog ε Op Ret α} {f : α → Prog ε Op Ret β} (hx : Only only x)
    (hf : ∀ a, Only only (f a)) : Only only (x >>= f) := by
  induction hx with
  | done a => exact hf a
  | fail e => exact .fail e
  | call h _ ih => exact .call h ih

theorem only_pure (a : α) : Only only (pure a : Prog ε Op Ret α) := .done a

theorem only_lift (x : Except ε α) : Only only (lift x : Prog ε Op Ret α) := by
  cases x with
  | ok a => exact .done a
  | error e => exact .fail e

theorem only_access {op : Op} (h : only op) : Only only (access op : Prog ε Op Ret Ret) :=
  .call h fun r => .done r

theorem only_mapM {f : β → Prog ε Op Ret α} {l : List β} (h : ∀ b ∈ l, Only only (f b)) :
    Only only (l.mapM f) := by
  induction l with
  | nil => exact only_pure []
  | cons b l ih =>
      rw [List.forall_mem_cons] at h
      rw [List.mapM_cons]
      exact h.1.bind fun a => (ih h.2).bind fun as => only_pure (a :: as)

theorem Only.meets {x : Prog ε Op Ret α} (hx : Only only x) (h : ∀ op s, only op → ok op s)
    (s : σ) : Meets handle ok x s := by
  induction hx generalizing s with
  | done a => exact .done a s
  | fail e => exact .fail e s
  | call hop _ ih => exact .call (h _ s hop) fun r s' _ => ih r s'

end

/-! ## Two services -/

/-- Two results agree if both are the same fault, or the same value with related states. -/
inductive Agree (R : σ → τ → Prop) : Except ε (α × σ) → Except ε (α × τ) → Prop where
  | ok (a : α) {s : σ} {t : τ} (h : R s t) : Agree R (.ok (a, s)) (.ok (a, t))
  | error (e : ε) : Agree R (.error e) (.error e)

theorem Agree.bind {υ : Type} {R : σ → τ → Prop} {R' : σ → υ → Prop} {x : Except ε (α × σ)}
    {y : Except ε (α × τ)} {f : α × σ → Except ε (β × σ)} {g : α × τ → Except ε (β × υ)}
    (h : Agree R x y)
    (hf : ∀ a s t, y = .ok (a, t) → R s t → Agree R' (f (a, s)) (g (a, t))) :
    Agree R' (x >>= f) (y >>= g) := by
  cases h with
  | error e => exact .error e
  | ok a hst => exact hf a _ _ rfl hst

theorem Agree.exists_of_ok {R : σ → τ → Prop} {a : α} {s : σ} {y : Except ε (α × τ)}
    (h : Agree R (.ok (a, s)) y) : ∃ t, y = .ok (a, t) ∧ R s t := by
  cases h with
  | ok _ hst => exact ⟨_, rfl, hst⟩

theorem Agree.mono {R R' : σ → τ → Prop} (hR : ∀ s t, R s t → R' s t) {x : Except ε (α × σ)}
    {y : Except ε (α × τ)} (h : Agree R x y) : Agree R' x y := by
  cases h with
  | error e => exact .error e
  | ok a hst => exact .ok a (hR _ _ hst)

theorem Agree.map_fst {R : σ → τ → Prop} {x : Except ε (α × σ)} {y : Except ε (α × τ)}
    (h : Agree R x y) : x.map Prod.fst = y.map Prod.fst := by
  cases h <;> rfl

variable {R : σ → τ → Prop} {handle' : Op → τ → Except ε (Ret × τ)} {ok' : Op → τ → Prop} {t : τ}

/-- **Simulation.** If calls that meet the conditions agree, a run whose calls meet them agrees. -/
theorem Agree.run
    (hstep : ∀ op s t, R s t → ok op s → ok' op t → Agree R (handle op s) (handle' op t))
    {x : Prog ε Op Ret α} (hs : R s t) (hx : Meets handle ok x s) (hx' : Meets handle' ok' x t) :
    Agree R (run handle x s) (run handle' x t) ∧ calls handle x s = calls handle' x t := by
  induction x generalizing s t with
  | done a => exact ⟨.ok a hs, rfl⟩
  | fail e => exact ⟨.error e, rfl⟩
  | call op next ih =>
      rw [meets_call] at hx hx'
      rw [Calls.run, Calls.run, calls, calls]
      have hop := hstep op s t hs hx.1 hx'.1
      generalize hr : handle op s = r at hop
      generalize hr' : handle' op t = r' at hop
      cases hop with
      | error e => exact ⟨.error e, rfl⟩
      | ok a hst =>
          obtain ⟨hrun, hcalls⟩ := ih a hst (hx.2 a _ hr) (hx'.2 a _ hr')
          exact ⟨hrun, congrArg (op :: ·) hcalls⟩

end

end Calls
