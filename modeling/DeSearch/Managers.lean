import DeSearch.Ledger
import DeSearch.Epochs

/-!
# Several managers

Any executor may become a manager, so several of them may run `increment_epoch` at once. It reads
the epoch three times and writes the next one without looking again. As long as nobody enters
`increment_epoch` while another manager is inside, the epochs are closed one after another
(`closed_in_order_of_alone`). Two managers that close the same epoch together skip the next one:
it ends up behind the current epoch and has no root hash (`epoch_without_rootHash`).
-/

namespace DeSearch

open Run

/-! ## The system -/

/-- Any number of managers and executors over one Kanban. -/
structure Fleet where
  kanban : Kanban
  managers : Nat → Manager
  procs : Nat → Executor

/-- The managers have just been started, and the epoch is the first. -/
def Fleet.init (C : Crypto) : Fleet :=
  ⟨Kanban.empty.set .epoch (epochPacket C 1), fun _ => .init, fun _ => .idle⟩

/-- What can happen next. -/
inductive FleetAction where
  | manager (q : Nat)
  | exec (p : Nat) (answers : Inputs)
  | crash (p : Nat)

/-- The effect of an action. -/
def Deployment.fleetStep (D : Deployment) : FleetAction → Fleet → Fleet
  | .manager q, f =>
      let r := (f.managers q).step D.platform D.sort f.kanban
      { f with managers := Function.update f.managers q r.1, kanban := r.2 }
  | .exec p answers, f =>
      let r := (f.procs p).step D.platform (D.role p) answers f.kanban
      { f with procs := Function.update f.procs p r.1, kanban := r.2 }
  | .crash p, f => { f with procs := Function.update f.procs p .idle }

/-- The state of a run from the start. -/
def Deployment.fleetRun (D : Deployment) (as : List FleetAction) : Fleet :=
  exec D.fleetStep (.init D.platform.crypto) as

/-- The system as it is with manager `q` only. -/
def Fleet.view (f : Fleet) (q : Nat) : State := ⟨f.kanban, f.managers q, f.procs⟩

/-- That system in place of the part it is of. -/
def Fleet.put (f : Fleet) (q : Nat) (s : State) : Fleet :=
  ⟨s.kanban, Function.update f.managers q s.manager, s.procs⟩

/-- An action of the system that has only manager `q`. -/
def FleetAction.of (q : Nat) : Action → FleetAction
  | .manager => .manager q
  | .exec p answers => .exec p answers
  | .crash p => .crash p

theorem Deployment.fleetStep_put (D : Deployment) (f : Fleet) (q : Nat) (a : Action) (s : State) :
    D.fleetStep (.of q a) (f.put q s) = f.put q (D.step a s) := by
  cases a with
  | manager => simp [Deployment.fleetStep, Deployment.step, FleetAction.of, Fleet.put]
  | _ => rfl

/-- As long as only one manager moves, the system is one with that manager. -/
theorem Fleet.leads_put {D : Deployment} {ok : Fleet → FleetAction → Prop} {f : Fleet} {q : Nat}
    {s s' : State} {as : List Action}
    (h : Leads D.step (fun s a => ok (f.put q s) (.of q a)) s as s') :
    Leads D.fleetStep ok (f.put q s) (as.map (.of q)) (f.put q s') := by
  obtain ⟨hmeets, rfl⟩ := h
  induction as generalizing s with
  | nil => exact .nil
  | cons a as ih => exact .cons hmeets.1 (D.fleetStep_put f q a s) (ih hmeets.2)

theorem Fleet.put_managers_of_ne {f : Fleet} {q q' : Nat} (h : q' ≠ q) (s : State) :
    (f.put q s).managers q' = f.managers q' :=
  Function.update_of_ne h _ _

theorem Fleet.put_view (f : Fleet) (q : Nat) : f.put q (f.view q) = f := by
  rw [put, view, Function.update_eq_self]

theorem Fleet.leads_view {D : Deployment} {ok : Fleet → FleetAction → Prop} {f : Fleet} {q : Nat}
    {s' : State} {as : List Action}
    (h : Leads D.step (fun s a => ok (f.put q s) (.of q a)) (f.view q) as s') :
    Leads D.fleetStep ok f (as.map (.of q)) (f.put q s') := by
  have hlead := leads_put h
  rwa [put_view] at hlead

/-! ## Closing epochs one after another -/

namespace ManagerAt

/-- Not in `increment_epoch`, or in it before the epoch was read. -/
def Outside : ManagerAt → Prop
  | boot | openEpoch | testEpoch | readEpoch => True
  | _ => False

/-- Closing an epoch whose root hash is still to be written. -/
def Before (e : Int) : ManagerAt → Prop
  | readEpochInt c | commit c _ => c = e
  | count c n => c = e ∧ n = e
  | _ => False

/-- Closing an epoch whose root hash is written. -/
def After (e : Int) : ManagerAt → Prop
  | reread c => c = e
  | increment c n => c = e ∧ n = e + 1
  | _ => False

end ManagerAt

/-- A manager reads the epoch that it is going to close while all others are outside. The epoch is
not the last one that is an `int`. -/
def Alone (P : Platform) (f : Fleet) : FleetAction → Prop
  | .manager q => (f.managers q).pc = .readEpoch →
      getEpochInt P.runtime P.crypto f.kanban ≠ some (2 ^ 31 - 1) ∧
      ∀ q' ≠ q, (f.managers q').pc.Outside
  | _ => True

/-- The epoch of the Kanban, if its root hash is not yet written and nobody closes it; if the
manager that closes it has yet to write its root hash; and if that manager has written it. -/
inductive Closing (P : Platform) (f : Fleet) (e : Int) : Prop where
  | idle (hout : ∀ q, (f.managers q).pc.Outside) (hroot : f.kanban.get (.rootHash e) = none)
  | before (q : Nat) (hpc : (f.managers q).pc.Before e) (hmax : e < 2 ^ 31 - 1)
      (hout : ∀ q' ≠ q, (f.managers q').pc.Outside) (hroot : f.kanban.get (.rootHash e) = none)
  | after (q : Nat) (hpc : (f.managers q).pc.After e) (hmax : e < 2 ^ 31 - 1)
      (hout : ∀ q' ≠ q, (f.managers q').pc.Outside)
      (hroot : (f.kanban.get (.rootHash e)).isSome)

/-- All epochs before the current one are closed, and no later one is. -/
structure InOrder (P : Platform) (f : Fleet) (e : Int) : Prop where
  epoch : EpochIs P f.kanban e
  pos : 1 ≤ e
  roots : ∀ k, 1 ≤ k → k < e → (f.kanban.get (.rootHash k)).isSome
  later : ∀ k, e < k → f.kanban.get (.rootHash k) = none
  closing : Closing P f e

/-- What an action may change: the epoch by one, if it has a root hash, and no root hash. -/
structure Advances (P : Platform) (kb : Kanban) (e : Int) (kb' : Kanban) (e' : Int) : Prop where
  epoch : e' = e ∨ e' = e + 1 ∧ (kb.get (.rootHash e)).isSome
  kept : ∀ k v, kb.get (.rootHash k) = some v → kb'.get (.rootHash k) = some v

section

variable {P : Platform} {L : LastCharSort} {kb : Kanban} {m : Manager} {e : Int}

/-- The stores agree on the epoch and on the root hashes. -/
structure SameEpochs (kb kb' : Kanban) : Prop where
  epoch : kb'.get .epoch = kb.get .epoch
  roots : ∀ k, kb'.get (.rootHash k) = kb.get (.rootHash k)

theorem SameEpochs.refl (kb : Kanban) : SameEpochs kb kb := ⟨rfl, fun _ => rfl⟩

theorem SameEpochs.of_eq {kb' : Kanban} (h : kb' = kb) : SameEpochs kb kb' := h ▸ .refl kb

theorem sameEpochs_set {k : Key} (hepoch : .epoch ≠ k) (hroot : ∀ c, .rootHash c ≠ k) (v : Bytes) :
    SameEpochs kb (kb.set k v) :=
  ⟨Kanban.get_set_of_ne _ hepoch _, fun c => Kanban.get_set_of_ne _ (hroot c) _⟩

theorem SameEpochs.epochIs {kb' : Kanban} (h : SameEpochs kb kb') (he : EpochIs P kb e) :
    EpochIs P kb' e :=
  ⟨he.1, h.epoch.trans he.2⟩

theorem SameEpochs.advances {kb' : Kanban} (h : SameEpochs kb kb') : Advances P kb e kb' e :=
  ⟨.inl rfl, fun k _ hv => (h.roots k).trans hv⟩

/-- A manager outside changes nothing, and enters only where it reads the epoch. -/
theorem Manager.step_outside (he : EpochIs P kb e) (hpos : 1 ≤ e) (hout : m.pc.Outside) :
    SameEpochs kb (m.step P L kb).2 ∧ ((m.step P L kb).1.pc.Outside ∨
      m.pc = .readEpoch ∧ (m.step P L kb).1.pc.Before e) := by
  obtain ⟨pc, b⟩ := m
  cases pc with
  | boot => exact ⟨sameEpochs_set (by simp) (by simp) _, .inl trivial⟩
  | openEpoch => exact ⟨sameEpochs_set (by simp) (by simp) _, .inl trivial⟩
  | testEpoch =>
      rw [Manager.step_testEpoch (by omega) he.2]
      exact ⟨.refl _, .inl trivial⟩
  | readEpoch =>
      rw [Manager.step_readEpoch he.1 he.2]
      exact ⟨.refl _, .inr ⟨rfl, rfl⟩⟩
  | _ => exact hout.elim

/-- A manager that closes the epoch goes on or writes the root hash. -/
theorem Manager.step_before (he : EpochIs P kb e) (hpc : m.pc.Before e) :
    (m.step P L kb).2 = kb ∧ (m.step P L kb).1.pc.Before e ∨
      ∃ v, (m.step P L kb).2 = kb.set (.rootHash e) v ∧ (m.step P L kb).1.pc.After e := by
  obtain ⟨pc, b⟩ := m
  cases pc with
  | readEpochInt c =>
      obtain rfl : c = e := hpc
      rw [Manager.step_readEpochInt he.1 he.2]
      exact .inl ⟨rfl, rfl, rfl⟩
  | count c n =>
      obtain ⟨rfl, rfl⟩ := hpc
      by_cases henough : expectedKeySize n ≤ (stdSet (kb.smembers n)).length
      · rw [Manager.step_count henough]
        exact .inl ⟨rfl, rfl⟩
      · have hwait : (⟨.count n n, b⟩ : Manager).step P L kb = (⟨.count n n, b⟩, kb) := by
          simp only [Manager.step, if_neg henough]
        rw [hwait]
        exact .inl ⟨rfl, rfl, rfl⟩
  | commit c keys =>
      obtain rfl : c = e := hpc
      exact .inr ⟨_, rfl, rfl⟩
  | _ => exact hpc.elim

/-- A manager that has written the root hash goes on or writes the next epoch. -/
theorem Manager.step_after (he : EpochIs P kb e) (hmax : e < 2 ^ 31 - 1) (hpos : 1 ≤ e)
    (hpc : m.pc.After e) :
    (m.step P L kb).2 = kb ∧ (m.step P L kb).1.pc.After e ∨
      (m.step P L kb).2 = kb.set .epoch (epochPacket P.crypto (e + 1)) ∧
        (m.step P L kb).1.pc.Outside := by
  obtain ⟨pc, b⟩ := m
  cases pc with
  | reread c =>
      obtain rfl : c = e := hpc
      have hnext : wrapInt (c + 1) = c + 1 := wrapInt_of_isInt ⟨by omega, by omega⟩
      rw [Manager.step_reread he.1 he.2]
      exact .inl ⟨rfl, rfl, hnext⟩
  | increment c n =>
      obtain ⟨rfl, rfl⟩ := hpc
      exact .inr ⟨rfl, trivial⟩
  | _ => exact hpc.elim

end

theorem ManagerAt.Outside.not_before {pc : ManagerAt} {e : Int} (h : pc.Outside) :
    ¬pc.Before e := by
  cases pc <;> first | exact id | exact h.elim

theorem ManagerAt.Outside.not_after {pc : ManagerAt} {e : Int} (h : pc.Outside) :
    ¬pc.After e := by
  cases pc <;> first | exact id | exact h.elim

section

variable {D : Deployment} {P : Platform} {f f' : Fleet} {e : Int}

/-- Managers that stay outside do not matter. -/
theorem Closing.congr (h : Closing P f e) (hkb : SameEpochs f.kanban f'.kanban)
    (hm : ∀ q, f'.managers q = f.managers q ∨
      (f.managers q).pc.Outside ∧ (f'.managers q).pc.Outside) : Closing P f' e := by
  have hout : ∀ q, (f.managers q).pc.Outside → (f'.managers q).pc.Outside := fun q hq =>
    (hm q).elim (fun heq => heq ▸ hq) And.right
  cases h with
  | idle hall hroot => exact .idle (fun q => hout q (hall q)) ((hkb.roots e).trans hroot)
  | before q hpc hmax hothers hroot =>
      refine .before q ?_ hmax (fun q' hne => hout q' (hothers q' hne)) ((hkb.roots e).trans hroot)
      exact (hm q).elim (fun heq => heq ▸ hpc) fun h => absurd hpc h.1.not_before
  | after q hpc hmax hothers hroot =>
      refine .after q ?_ hmax (fun q' hne => hout q' (hothers q' hne))
        ((hkb.roots e).symm ▸ hroot)
      exact (hm q).elim (fun heq => heq ▸ hpc) fun h => absurd hpc h.1.not_after

theorem InOrder.of_sameEpochs (h : InOrder P f e) (hkb : SameEpochs f.kanban f'.kanban)
    (hclosing : Closing P f' e) : InOrder P f' e where
  epoch := hkb.epochIs h.epoch
  pos := h.pos
  roots k h1 hk := (hkb.roots k).symm ▸ h.roots k h1 hk
  later k hk := (hkb.roots k).trans (h.later k hk)
  closing := hclosing

/-- The root hash is written once. -/
theorem InOrder.commit (h : InOrder P f e) (hroot : f.kanban.get (.rootHash e) = none) {v : Bytes}
    (hkb : f'.kanban = f.kanban.set (.rootHash e) v) (hclosing : Closing P f' e) :
    InOrder P f' e ∧ Advances P f.kanban e f'.kanban e := by
  have hne : ∀ k ≠ e, f'.kanban.get (.rootHash k) = f.kanban.get (.rootHash k) := fun k hk => by
    rw [hkb, Kanban.get_set_of_ne _ (by simpa using hk)]
  refine ⟨⟨hkb ▸ h.epoch.set (by simp) v, h.pos, fun k h1 hk => ?_, fun k hk => ?_, hclosing⟩,
    .inl rfl, fun k v' hv' => ?_⟩
  · rw [hne k (by omega)]
    exact h.roots k h1 hk
  · rw [hne k (by omega)]
    exact h.later k hk
  · rw [hne k fun hk => by rw [hk, hroot] at hv'; cases hv']
    exact hv'

/-- The epoch is moved on once it has a root hash. -/
theorem InOrder.increment (h : InOrder P f e) (hmax : e < 2 ^ 31 - 1)
    (hroot : (f.kanban.get (.rootHash e)).isSome)
    (hkb : f'.kanban = f.kanban.set .epoch (epochPacket P.crypto (e + 1)))
    (hout : ∀ q, (f'.managers q).pc.Outside) :
    InOrder P f' (e + 1) ∧ Advances P f.kanban e f'.kanban (e + 1) := by
  have hpos := h.pos
  have hroots : ∀ k, f'.kanban.get (.rootHash k) = f.kanban.get (.rootHash k) := fun k => by
    rw [hkb, Kanban.get_set_of_ne _ (by simp)]
  refine ⟨⟨hkb ▸ epochIs_set_epoch P f.kanban ⟨by omega, by omega⟩, by omega, fun k h1 hk => ?_,
    fun k hk => ?_, .idle hout ?_⟩, .inr ⟨rfl, hroot⟩, fun k v hv => (hroots k).trans hv⟩
  · rw [hroots k]
    rcases (Int.lt_add_one_iff.1 hk).lt_or_eq with hlt | rfl
    · exact h.roots k h1 hlt
    · exact hroot
  · rw [hroots k]
    exact h.later k (by omega)
  · rw [hroots]
    exact h.later _ (by omega)

/-- A manager that is outside may enter if it is alone. -/
theorem InOrder.manager_outside (h : InOrder D.platform f e) {q : Nat}
    (ha : Alone D.platform f (.manager q)) (hq : (f.managers q).pc.Outside) :
    InOrder D.platform (D.fleetStep (.manager q) f) e ∧
      Advances D.platform f.kanban e (D.fleetStep (.manager q) f).kanban e := by
  obtain ⟨hkb, hpc⟩ := Manager.step_outside (L := D.sort) h.epoch h.pos hq
  refine ⟨h.of_sameEpochs hkb ?_, hkb.advances⟩
  rcases hpc with hpc | ⟨hread, hpc⟩
  · refine h.closing.congr hkb fun q' => ?_
    by_cases hne : q' = q
    · subst hne
      exact .inr ⟨hq, by simpa [Deployment.fleetStep] using hpc⟩
    · exact .inl (Function.update_of_ne hne _ _)
  · obtain ⟨hmax, hothers⟩ := ha hread
    rw [h.epoch.getEpochInt] at hmax
    have hlt : e < 2 ^ 31 - 1 := by
      have := h.epoch.1.2
      have hne : e ≠ 2 ^ 31 - 1 := fun heq => hmax (congrArg some heq)
      omega
    have hothers' : ∀ q' ≠ q, ((D.fleetStep (.manager q) f).managers q').pc.Outside := by
      intro q' hne
      simpa only [Deployment.fleetStep, Function.update_of_ne hne] using hothers q' hne
    refine .before q (by simpa [Deployment.fleetStep] using hpc) hlt hothers'
      ((hkb.roots e).trans ?_)
    cases h.closing with
    | idle _ hroot | before _ _ _ _ hroot => exact hroot
    | after q' hafter =>
        by_cases hne : q' = q
        · subst hne
          exact absurd hafter hq.not_after
        · exact absurd hafter (hothers q' hne).not_after

theorem InOrder.manager (h : InOrder D.platform f e) {q : Nat}
    (ha : Alone D.platform f (.manager q)) :
    ∃ e', InOrder D.platform (D.fleetStep (.manager q) f) e' ∧
      Advances D.platform f.kanban e (D.fleetStep (.manager q) f).kanban e' := by
  have hself : (D.fleetStep (.manager q) f).managers q =
      ((f.managers q).step D.platform D.sort f.kanban).1 := Function.update_self _ _ _
  have hothers : (∀ q' ≠ q, (f.managers q').pc.Outside) →
      ∀ q' ≠ q, ((D.fleetStep (.manager q) f).managers q').pc.Outside := fun hout q' hq' => by
    rw [show (D.fleetStep (.manager q) f).managers q' = f.managers q' from
      Function.update_of_ne hq' _ _]
    exact hout q' hq'
  cases h.closing with
  | idle hout _ => exact ⟨e, h.manager_outside ha (hout q)⟩
  | before q₀ hpc hmax hout hroot =>
      by_cases hq : q = q₀
      · subst hq
        rcases Manager.step_before (L := D.sort) h.epoch hpc with ⟨hkb, hpc'⟩ | ⟨v, hkb, hpc'⟩
        · have hsame := SameEpochs.of_eq hkb
          exact ⟨e, h.of_sameEpochs hsame (.before q (hself ▸ hpc') hmax (hothers hout)
            ((hsame.roots e).trans hroot)), hsame.advances⟩
        · refine ⟨e, h.commit hroot hkb (.after q (hself ▸ hpc') hmax (hothers hout) ?_)⟩
          rw [show (D.fleetStep (.manager q) f).kanban = _ from hkb, Kanban.get_set_self]
          rfl
      · exact ⟨e, h.manager_outside ha (hout q hq)⟩
  | after q₀ hpc hmax hout hroot =>
      by_cases hq : q = q₀
      · subst hq
        rcases Manager.step_after (L := D.sort) h.epoch hmax h.pos hpc with
          ⟨hkb, hpc'⟩ | ⟨hkb, hpc'⟩
        · have hsame := SameEpochs.of_eq hkb
          exact ⟨e, h.of_sameEpochs hsame (.after q (hself ▸ hpc') hmax (hothers hout)
            ((hsame.roots e).symm ▸ hroot)), hsame.advances⟩
        · refine ⟨e + 1, h.increment hmax hroot hkb fun q' => ?_⟩
          by_cases hq' : q' = q
          · rw [hq', hself]
            exact hpc'
          · exact hothers hout q' hq'
      · exact ⟨e, h.manager_outside ha (hout q hq)⟩

theorem InOrder.step (h : InOrder D.platform f e) {a : FleetAction} (ha : Alone D.platform f a) :
    ∃ e', InOrder D.platform (D.fleetStep a f) e' ∧
      Advances D.platform f.kanban e (D.fleetStep a f).kanban e' := by
  cases a with
  | manager q => exact h.manager ha
  | exec p answers =>
      have hl := (Executor.step_spec D.platform (D.role p) answers f.kanban (f.procs p)).ledger_eq
      have hkb : SameEpochs f.kanban (D.fleetStep (.exec p answers) f).kanban :=
        ⟨Kanban.get_of_ledger_eq hl rfl, fun _ => Kanban.get_of_ledger_eq hl rfl⟩
      exact ⟨e, h.of_sameEpochs hkb (h.closing.congr hkb fun _ => .inl rfl), hkb.advances⟩
  | crash p =>
      have hkb : SameEpochs f.kanban (D.fleetStep (.crash p) f).kanban := .refl _
      exact ⟨e, h.of_sameEpochs hkb (h.closing.congr hkb fun _ => .inl rfl), hkb.advances⟩

theorem inOrder_init (P : Platform) : InOrder P (.init P.crypto) 1 where
  epoch := epochIs_set_epoch P .empty (by decide)
  pos := le_rfl
  roots k h1 hk := by omega
  later _ _ := rfl
  closing := .idle (fun _ => trivial) rfl

/-- From one state of a run to a later one. -/
theorem InOrder.run (h : InOrder D.platform f e) {as : List FleetAction}
    (hm : Meets D.fleetStep (Alone D.platform) f as) :
    ∃ e', InOrder D.platform (exec D.fleetStep f as) e' ∧ e ≤ e' ∧
      ∀ k v, f.kanban.get (.rootHash k) = some v →
        (exec D.fleetStep f as).kanban.get (.rootHash k) = some v := by
  induction as generalizing f e with
  | nil => exact ⟨e, h, le_rfl, fun _ _ hv => hv⟩
  | cons a as ih =>
      obtain ⟨e₁, h₁, hadv⟩ := h.step hm.1
      obtain ⟨e', h', hle, hkept⟩ := ih h₁ hm.2
      refine ⟨e', h', ?_, fun k v hv => hkept k v (hadv.kept k v hv)⟩
      rcases hadv.epoch with rfl | ⟨rfl, -⟩
      · exact hle
      · omega

end

/-- **Several managers.** In every run in which no manager starts to close an epoch while another
one is closing it, the root hash of every epoch below the current one exists; from any state to any
later one the epoch does not decrease and no root hash changes; and each action moves the epoch by
at most one, and only if it has a root hash. -/
theorem closed_in_order_of_alone (D : Deployment) (as bs : List FleetAction)
    (h : Meets D.fleetStep (Alone D.platform) (.init D.platform.crypto) (as ++ bs)) :
    ∃ e e', EpochIs D.platform (D.fleetRun as).kanban e ∧
      EpochIs D.platform (D.fleetRun (as ++ bs)).kanban e' ∧
      (∀ k, 1 ≤ k → k < e → ((D.fleetRun as).kanban.get (.rootHash k)).isSome) ∧
      e ≤ e' ∧
      (∀ k v, (D.fleetRun as).kanban.get (.rootHash k) = some v →
        (D.fleetRun (as ++ bs)).kanban.get (.rootHash k) = some v) ∧
      (bs.length = 1 → e' = e ∨
        e' = e + 1 ∧ ((D.fleetRun as).kanban.get (.rootHash e)).isSome) := by
  rw [meets_append] at h
  obtain ⟨e, hin, -⟩ := (inOrder_init D.platform).run h.1
  obtain ⟨e', hin', hle, hkept⟩ := hin.run h.2
  rw [Deployment.fleetRun, Deployment.fleetRun, exec_append]
  refine ⟨e, e', hin.epoch, hin'.epoch, hin.roots, hle, hkept, fun hone => ?_⟩
  obtain ⟨a, rfl⟩ := List.length_eq_one_iff.1 hone
  obtain ⟨e₁, hin₁, hadv⟩ := hin.step h.2.1
  obtain rfl := Option.some.inj (hin'.epoch.getEpochInt.symm.trans hin₁.epoch.getEpochInt)
  exact hadv.epoch

/-! ## Two managers -/

/-- The store when the first manager waits for witness keys. -/
def sampleOpened : Kanban :=
  (((Fleet.init sampleCrypto).kanban.set .shardingMax (decimal indexPoolMax)).set .blockId
    (toDecimal startSteemBlockId))

/-- The store after a crawler has done the first epoch. -/
def sampleCrawled : Kanban :=
  sampleOpened.crawled 1 startSteemBlockId (sampleCrawl startSteemBlockId)
    (itemsKey startSteemBlockId) 1 itemsPoolMax

theorem get_epoch_sampleOpened : sampleOpened.get .epoch = some (epochPacket sampleCrypto 1) := rfl

theorem get_epoch_sampleCrawled : sampleCrawled.get .epoch = some (epochPacket sampleCrypto 1) :=
  (Kanban.get_crawled_of_ne _ _ fun _ _ _ => by simp).trans get_epoch_sampleOpened

theorem get_blockId_sampleOpened :
    (sampleOpened.get .blockId).bind stoi = some startSteemBlockId := by
  have hget : sampleOpened.get .blockId = some (toDecimal startSteemBlockId) := rfl
  rw [hget, Option.bind_some, stoi_toDecimal (by decide)]

/-- The first manager waits for witness keys. -/
def sampleFleet (kb : Kanban) : Fleet :=
  (Fleet.init sampleCrypto).put 0 ⟨kb, ⟨.count 1 1, secondBlockId⟩, fun _ => .idle⟩

theorem alone_of_ne {P : Platform} {f : Fleet} {q : Nat} (h : (f.managers q).pc ≠ .readEpoch) :
    Alone P f (.manager q) := fun hread => absurd hread h

theorem leads_sampleOpened : Leads sampleDeployment.fleetStep (Alone samplePlatform)
    (.init sampleCrypto) ((List.replicate 5 .manager).map (.of 0)) (sampleFleet sampleOpened) := by
  have hget : ∀ b, (((Fleet.init sampleCrypto).kanban.set .shardingMax
      (decimal indexPoolMax)).set .blockId b).get .epoch = some (epochPacket sampleCrypto 1) :=
    fun _ => rfl
  have hread : Leads sampleDeployment.step
      (fun s a => Alone samplePlatform ((Fleet.init sampleCrypto).put 0 s) (.of 0 a))
      (State.init.mgr ⟨.boot, startSteemBlockId⟩ (Fleet.init sampleCrypto).kanban)
      (List.replicate 5 .manager)
      (State.init.mgr ⟨.count 1 1, secondBlockId⟩ sampleOpened) := by
    refine .cons (alone_of_ne nofun) (Deployment.step_mgr rfl) ?_
    refine .cons (alone_of_ne nofun) (Deployment.step_mgr rfl) ?_
    refine .cons (alone_of_ne nofun)
      (Deployment.step_mgr (Manager.step_testEpoch (by decide) (hget _))) ?_
    refine .cons (fun _ => ⟨?_, ?_⟩)
      (Deployment.step_mgr (Manager.step_readEpoch (by decide) (hget _))) ?_
    · have hepoch : getEpochInt sampleRuntime sampleCrypto sampleOpened = some 1 :=
        getEpochInt_epochPacket (by decide) get_epoch_sampleOpened
      exact fun hmax => absurd (hepoch.symm.trans hmax) (by decide)
    · intro q hq
      rw [Fleet.put_managers_of_ne hq]
      trivial
    refine .cons (alone_of_ne nofun)
      (Deployment.step_mgr (Manager.step_readEpochInt (by decide) (hget _))) .nil
  exact Fleet.leads_view hread

/-- Nothing is asked of a run. -/
theorem lenient_true : Lenient fun _ _ => True := ⟨fun _ => trivial, fun _ _ _ _ => trivial⟩

theorem leads_sampleCrawled : ∃ as, (∀ a ∈ as, a ≠ .manager) ∧
    Leads sampleDeployment.step (fun _ _ => True)
      ⟨sampleOpened, ⟨.count 1 1, secondBlockId⟩, fun _ => .idle⟩ as
      ⟨sampleCrawled, ⟨.count 1 1, secondBlockId⟩, fun _ => .idle⟩ := by
  have hturn := leads_crawlTurn (D := sampleDeployment) (p := 0)
    (m := ⟨.count 1 1, secondBlockId⟩) (f := fun _ => .idle) lenient_true rfl rfl le_rfl
    (getEpochInt_epochPacket (by decide) get_epoch_sampleOpened) (by decide)
    get_blockId_sampleOpened (crawlCall_sample startSteemBlockId)
    (witnessKey_sampleCrawl startSteemBlockId) (fun _ => rfl) trivial fun _ _ => trivial
  have hdone : Executor.enter (.crawl 1 startSteemBlockId (1 + itemsPoolMax)) = .idle := rfl
  rw [hdone, Function.update_eq_self_iff.2 rfl] at hturn
  refine ⟨_, fun a ha => ?_, hturn⟩
  rcases List.mem_append.1 ha with ha | ha
  · rw [List.eq_of_mem_replicate ha]
    exact nofun
  · obtain ⟨xs, rfl⟩ := exists_exec_of_mem_crawlActions _ _ ha
    exact nofun

theorem leads_sampleFleet : ∃ as, Leads sampleDeployment.fleetStep (Alone samplePlatform)
    (.init sampleCrypto) as (sampleFleet sampleCrawled) := by
  obtain ⟨as, hne, hturn⟩ := leads_sampleCrawled
  refine ⟨_, leads_sampleOpened.append (Fleet.leads_put ⟨meets_of_forall ?_, hturn.exec_eq⟩)⟩
  intro s a ha
  cases a with
  | manager => exact absurd rfl (hne _ ha)
  | _ => trivial

theorem enough_sampleCrawled : expectedKeySize 1 ≤ (stdSet (sampleCrawled.smembers 1)).length :=
  Kanban.enough_crawled _ _ _ (List.Nodup.of_append_left nodup_itemsKeys)

/-- One manager closes the first epoch while the others are outside. -/
theorem leads_sampleClosed : ∃ as, Leads sampleDeployment.fleetStep (Alone samplePlatform)
    (.init sampleCrypto) as ((Fleet.init sampleCrypto).put 0 (State.init.mgr
      ⟨.openEpoch, secondBlockId⟩
      (sampleCrawled.closed sampleCrypto sampleDeployment.sort 1))) := by
  obtain ⟨as, hfleet⟩ := leads_sampleFleet
  have hepoch : (sampleCrawled.set (.rootHash 1) (rootHashOf sampleCrypto sampleDeployment.sort
      (sampleCrawled.smembers 1))).get .epoch = some (epochPacket sampleCrypto 1) :=
    (Kanban.get_set_of_ne _ (by simp) _).trans get_epoch_sampleCrawled
  have hclose : Leads sampleDeployment.step
      (fun s a => Alone samplePlatform ((Fleet.init sampleCrypto).put 0 s) (.of 0 a))
      (State.init.mgr ⟨.count 1 1, secondBlockId⟩ sampleCrawled) (List.replicate 4 .manager)
      (State.init.mgr ⟨.openEpoch, secondBlockId⟩
        (sampleCrawled.closed sampleCrypto sampleDeployment.sort 1)) := by
    refine .cons (alone_of_ne nofun)
      (Deployment.step_mgr (Manager.step_count enough_sampleCrawled)) ?_
    refine .cons (alone_of_ne nofun) (Deployment.step_mgr rfl) ?_
    refine .cons (alone_of_ne nofun)
      (Deployment.step_mgr (Manager.step_reread (by decide) hepoch)) ?_
    exact .cons (alone_of_ne nofun) (Deployment.step_mgr rfl) .nil
  exact ⟨_, hfleet.append (Fleet.leads_put hclose)⟩

/-- The run that closes the first epoch. -/
theorem closed_in_order_first : ∃ as,
    EpochIs samplePlatform (sampleDeployment.fleetRun as).kanban 2 ∧
    ((sampleDeployment.fleetRun as).kanban.get (.rootHash 1)).isSome := by
  obtain ⟨as, hclosed⟩ := leads_sampleClosed
  have hepoch : EpochIs samplePlatform (sampleDeployment.fleetRun as).kanban 2 := by
    rw [show sampleDeployment.fleetRun as = _ from hclosed.exec_eq]
    exact ⟨by decide, Kanban.get_set_self _ _ _⟩
  obtain ⟨e, e', he, -, hroots, -⟩ := closed_in_order_of_alone sampleDeployment as []
    (by rw [List.append_nil]; exact hclosed.meets)
  obtain rfl := Option.some.inj (he.getEpochInt.symm.trans hepoch.getEpochInt)
  exact ⟨as, hepoch, hroots 1 le_rfl (by decide)⟩

/-- The store after a second manager has written the root hash of the first epoch. -/
def sampleCommitted : Kanban :=
  ((sampleCrawled.set .shardingMax (decimal indexPoolMax)).set .blockId
    (toDecimal startSteemBlockId)).set (.rootHash 1)
      (rootHashOf sampleCrypto sampleDeployment.sort (sampleCrawled.smembers 1))

theorem get_epoch_sampleCommitted :
    sampleCommitted.get .epoch = some (epochPacket sampleCrypto 1) := by
  rw [sampleCommitted, Kanban.get_set_of_ne _ (by simp), Kanban.get_set_of_ne _ (by simp),
    Kanban.get_set_of_ne _ (by simp), get_epoch_sampleCrawled]

theorem get_rootHash_sampleCommitted : sampleCommitted.get (.rootHash 2) = none := by
  rw [sampleCommitted, Kanban.get_set_of_ne _ (by simp), Kanban.get_set_of_ne _ (by simp),
    Kanban.get_set_of_ne _ (by simp), sampleCrawled,
    Kanban.get_crawled_of_ne _ _ fun _ _ _ => by simp]
  rfl

theorem leads_sampleCommitted : Leads sampleDeployment.step (fun _ _ => True)
    (State.init.mgr .init sampleCrawled) (List.replicate 7 .manager)
    (State.init.mgr ⟨.reread 1, secondBlockId⟩ sampleCommitted) := by
  have hepoch : (sampleCrawled.set .shardingMax (decimal indexPoolMax)).get .epoch =
      some (epochPacket sampleCrypto 1) :=
    (Kanban.get_set_of_ne _ (by simp) _).trans get_epoch_sampleCrawled
  have hopen := leads_open (D := sampleDeployment) (s := .init) (b := startSteemBlockId)
    lenient_true (by decide) (by decide) hepoch
  exact leads_manager lenient_true rfl
    (hopen.append (leads_commit lenient_true enough_sampleCrawled))

/-- Two managers and idle executors. -/
def Fleet.two (m₀ m₁ : Manager) (kb : Kanban) : Fleet where
  kanban := kb
  managers q := if q = 0 then m₀ else if q = 1 then m₁ else .init
  procs _ := .idle

theorem sampleFleet_eq (kb : Kanban) :
    sampleFleet kb = .two ⟨.count 1 1, secondBlockId⟩ .init kb := by
  simp only [sampleFleet, Fleet.put, Fleet.two, Fleet.mk.injEq, true_and, and_true]
  funext q
  by_cases hq : q = 0 <;> simp [hq, Fleet.init]

section

variable {D : Deployment} {m₀ m₁ m : Manager} {kb kb' : Kanban} {as : List Action}

theorem leads_two_first (m₁ : Manager)
    (h : Leads D.step (fun _ _ => True) (State.init.mgr m₀ kb) as (State.init.mgr m kb')) :
    Leads D.fleetStep (fun _ _ => True) (.two m₀ m₁ kb) (as.map (.of 0)) (.two m m₁ kb') := by
  have hput : (Fleet.two m₀ m₁ kb).put 0 (State.init.mgr m kb') = .two m m₁ kb' := by
    simp only [Fleet.put, Fleet.two, State.mgr, State.init, Fleet.mk.injEq, true_and, and_true]
    funext q
    by_cases hq : q = 0 <;> simp [hq]
  exact hput ▸ Fleet.leads_view h

theorem leads_two_second (m₀ : Manager)
    (h : Leads D.step (fun _ _ => True) (State.init.mgr m₁ kb) as (State.init.mgr m kb')) :
    Leads D.fleetStep (fun _ _ => True) (.two m₀ m₁ kb) (as.map (.of 1)) (.two m₀ m kb') := by
  have hput : (Fleet.two m₀ m₁ kb).put 1 (State.init.mgr m kb') = .two m₀ m kb' := by
    simp only [Fleet.put, Fleet.two, State.mgr, State.init, Fleet.mk.injEq, true_and, and_true]
    funext q
    by_cases hq : q = 1 <;> simp [hq]
  exact hput ▸ Fleet.leads_view h

end

/-- **A skipped epoch.** Two managers close the first epoch together. The second one reads the
epoch again when the first one has moved it to 2, and moves it to 3: epoch 2 is over and has no
root hash. -/
theorem epoch_without_rootHash : ∃ as,
    EpochIs samplePlatform (sampleDeployment.fleetRun as).kanban 3 ∧
    (sampleDeployment.fleetRun as).kanban.get (.rootHash 2) = none := by
  obtain ⟨as, hfleet⟩ := leads_sampleFleet
  rw [sampleFleet_eq] at hfleet
  have hsecond := leads_two_second ⟨.count 1 1, secondBlockId⟩ leads_sampleCommitted
  have hfirst := leads_two_first ⟨.reread 1, secondBlockId⟩
    (leads_close (D := sampleDeployment) (s := .init) (b := secondBlockId) lenient_true (by decide)
      get_epoch_sampleCommitted enough_sampleCrawled)
  have hclosed : (sampleCommitted.closed sampleCrypto sampleDeployment.sort 1).get .epoch =
      some (epochPacket sampleCrypto 2) := Kanban.get_set_self _ _ _
  have hlast := leads_two_second ⟨.openEpoch, secondBlockId⟩
    (leads_manager (D := sampleDeployment) (s := .init) (m := ⟨.reread 1, secondBlockId⟩)
      lenient_true (Manager.step_reread (by decide) hclosed)
      (leads_manager lenient_true rfl .nil))
  have hstart : Leads sampleDeployment.fleetStep (fun _ _ => True) (.init sampleCrypto) as _ :=
    ⟨hfleet.meets.mono fun _ _ _ => trivial, hfleet.exec_eq⟩
  have hrun := ((hstart.append hsecond).append hfirst).append hlast
  obtain ⟨bs, hexec⟩ : ∃ bs, sampleDeployment.fleetRun bs = _ := ⟨_, hrun.exec_eq⟩
  refine ⟨bs, ?_⟩
  rw [hexec]
  refine ⟨⟨by decide, Kanban.get_set_self _ _ _⟩, ?_⟩
  rw [Fleet.two, Kanban.get_set_of_ne _ (by simp), Kanban.closed, Kanban.get_set_of_ne _ (by simp),
    Kanban.get_set_of_ne _ (by simp), get_rootHash_sampleCommitted]

end DeSearch
