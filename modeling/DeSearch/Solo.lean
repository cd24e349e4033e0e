import DeSearch.Commitment

/-!
# One executor of each role

With one crawler, one indexer and one reducer that do not crash, nobody else writes the shards an
executor works on. So every shard is put once (`Single.agrees`), and the indexer, which never leaves
a turn half done, has its cursor where it belongs (`Single.cursorAligned`).
-/

namespace DeSearch

open Run

namespace Executor

variable {P : Platform} {role : Role} {answers : Inputs} {kb kb' : Kanban} {x x' : Executor}

/-! ## What an executor knows of its shard -/

/-- Between `o_check_key` and `o_put_key`. -/
def Claims (t : Task) : Executor → Prop
  | gather t' _ | put t' _ => t' = t
  | _ => False

/-- After `o_put_key` the value is there. -/
def Backed (kb : Kanban) : Executor → Prop
  | hset t out | sadd t out _ | copy t out => kb.Stored t.key out.data
  | _ => True

theorem not_claims_enter (t t' : Task) : ¬(enter t').Claims t := by
  unfold enter
  split_ifs <;> exact id

theorem backed_enter (t : Task) : (enter t).Backed kb := by
  unfold enter
  split_ifs <;> trivial

theorem Backed.mono (h : x.Backed kb) (hext : kb.Extends kb') : x.Backed kb' := by
  cases x with
  | hset t out | sadd t out k | copy t out => exact hext.sets h
  | _ => trivial

theorem Step.backed (h : Step P role answers kb x x' kb') (hx : x.Backed kb) : x'.Backed kb' := by
  have hmono := hx.mono h.extends
  cases h with
  | base | skip | copy => exact backed_enter _
  | @start e => rcases start_spec role e with h | h | ⟨t, h⟩ <;> (rw [h]; trivial)
  | call =>
      unfold Executor.call
      split <;> trivial
  | put => exact List.mem_cons_self
  | hset => exact hmono
  | sadd =>
      unfold Executor.appended
      split
      · split_ifs
        · exact hmono
        · exact backed_enter _
      · exact backed_enter _
  | _ => trivial

/-- An executor takes up a shard only if it is missing. -/
theorem Step.claims (h : Step P role answers kb x x' kb') {t : Task} (hc : x'.Claims t) :
    kb' = kb ∧ (kb.get t.key = none ∨ x.Claims t) := by
  cases h with
  | base | skip | copy => exact absurd hc (not_claims_enter _ _)
  | @start e =>
      rcases start_spec role e with h | h | ⟨t', h⟩ <;> (rw [h] at hc; exact hc.elim)
  | absent hnone =>
      obtain rfl := hc
      exact ⟨rfl, .inl hnone⟩
  | wait | take => exact ⟨rfl, .inr hc⟩
  | call =>
      unfold Executor.call at hc
      split at hc
      · exact ⟨rfl, .inr hc⟩
      · exact hc.elim
  | sadd =>
      unfold Executor.appended at hc
      split at hc
      · split_ifs at hc
        · exact hc.elim
        · exact absurd hc (not_claims_enter _ _)
      · exact absurd hc (not_claims_enter _ _)
  | _ => exact hc.elim

end Executor

/-! ## The indexer's turns -/

/-- The index was stored. -/
def Kanban.Indexed (kb : Kanban) (e : Int) (i : Nat) : Prop := ∃ v, kb.Stored (.index e i) v

section

variable (ix : Int → Nat → Prop)

/-- The indexes of the epoch up to shard `n` are there, and no others. -/
def IndexedUpto (e : Int) (n : Nat) : Prop := ∀ i, 1 ≤ i → i ≤ indexPoolMax → (ix e i ↔ i ≤ n)

/-- All indexes of the epoch are there, or none is. -/
def IndexedWhole (e : Int) : Prop := IndexedUpto ix e 0 ∨ IndexedUpto ix e indexPoolMax

/-- Of the epoch that the indexer works on, the shards it has passed are there and its cursor is
where it belongs, or all are there and it passes over them. The other epochs are done or not
begun. -/
def Executor.InTurn : Executor → Prop
  | .check t => (∀ e ≠ t.epoch, IndexedWhole ix e) ∧ (IndexedUpto ix t.epoch indexPoolMax ∨
      IndexedUpto ix t.epoch (t.shard - 1) ∧ t.CursorAligned)
  | .gather t _ | .put t _ => (∀ e ≠ t.epoch, IndexedWhole ix e) ∧
      IndexedUpto ix t.epoch (t.shard - 1) ∧ t.CursorAligned
  | .hset t _ | .sadd t _ _ | .copy t _ => (∀ e ≠ t.epoch, IndexedWhole ix e) ∧
      IndexedUpto ix t.epoch t.shard ∧ t.CursorAligned
  | _ => ∀ e, IndexedWhole ix e

end

section

variable {ix : Int → Nat → Prop} {P : Platform} {answers : Inputs} {kb kb' : Kanban}
  {x x' : Executor}

theorem IndexedUpto.whole {e : Int} {n : Nat} (h : IndexedUpto ix e n) (hn : indexPoolMax ≤ n) :
    IndexedWhole ix e :=
  .inr fun i h1 hi => (h i h1 hi).trans ⟨fun _ => hi, fun _ => hi.trans hn⟩

theorem Kanban.indexed_iff {e : Int} {i : Nat} :
    kb.Indexed e i ↔ ∃ v, kb.get (.index e i) = some v := by
  constructor
  · rintro ⟨v, hv⟩
    obtain ⟨w, hw, -⟩ := Kanban.exists_get_of_mem hv
    exact ⟨w, hw⟩
  · rintro ⟨v, hv⟩
    exact ⟨v, Kanban.mem_of_get hv⟩

theorem Kanban.indexed_set_index {e e' : Int} {i i' : Nat} {v : Bytes} :
    (kb.set (.index e i) v).Indexed e' i' ↔ e' = e ∧ i' = i ∨ kb.Indexed e' i' := by
  constructor
  · rintro ⟨w, hw⟩
    rcases List.mem_cons.1 hw with heq | hold
    · cases heq
      exact .inl ⟨rfl, rfl⟩
    · exact .inr ⟨w, hold⟩
  · rintro (⟨rfl, rfl⟩ | ⟨w, hw⟩)
    · exact ⟨v, List.mem_cons_self⟩
    · exact ⟨w, List.mem_cons_of_mem _ hw⟩

/-- The index of one epoch changes nothing about another. -/
theorem IndexedWhole.set_index {e e' : Int} (h : IndexedWhole kb.Indexed e') (he : e' ≠ e) (i : Nat)
    (v : Bytes) : IndexedWhole (kb.set (.index e i) v).Indexed e' := by
  have hsame : ∀ i', (kb.set (.index e i) v).Indexed e' i' ↔ kb.Indexed e' i' :=
    fun i' => Kanban.indexed_set_index.trans (or_iff_right fun h => he h.1)
  exact h.imp (fun h i' h1 hi => (hsame i').trans (h i' h1 hi))
    fun h i' h1 hi => (hsame i').trans (h i' h1 hi)

/-- The indexes of an epoch up to the next shard. -/
theorem IndexedUpto.set_index {e : Int} {i : Nat} (h : IndexedUpto kb.Indexed e (i - 1))
    (hi : 1 ≤ i) (v : Bytes) : IndexedUpto (kb.set (.index e i) v).Indexed e i := by
  intro i' h1 hi'
  rw [Kanban.indexed_set_index, h i' h1 hi']
  omega

theorem Kanban.indexed_set_of_ne {k : Key} (hk : ∀ e i, .index e i ≠ k) (v : Bytes) :
    (kb.set k v).Indexed = kb.Indexed := by
  funext e i
  refine propext ⟨?_, fun ⟨w, hw⟩ => ⟨w, List.mem_cons_of_mem _ hw⟩⟩
  rintro ⟨w, hw⟩
  rcases List.mem_cons.1 hw with heq | hold
  · cases heq
    exact absurd rfl (hk e i)
  · exact ⟨w, hold⟩

namespace Executor

theorem inTurn_enter {e : Int} {i pos : Nat} (hothers : ∀ e' ≠ e, IndexedWhole ix e')
    (h : IndexedUpto ix e indexPoolMax ∨
      IndexedUpto ix e (i - 1) ∧ (Task.index e i pos).CursorAligned) :
    (enter (.index e i pos)).InTurn ix := by
  unfold enter
  split_ifs with hle
  · exact ⟨hothers, h⟩
  · have hlt : indexPoolMax < i := not_le.1 hle
    intro e'
    by_cases he : e' = e
    · subst he
      rcases h with hfull | ⟨hupto, -⟩
      · exact .inr hfull
      · exact hupto.whole (by omega)
    · exact hothers e' he

/-- The next shard's cursor is where it belongs. -/
theorem inTurn_finish {e : Int} {i pos : Nat} (hi : 1 ≤ i) (hothers : ∀ e' ≠ e, IndexedWhole ix e')
    (hupto : IndexedUpto ix e i) (hpos : (Task.index e i pos).CursorAligned) :
    (enter (Task.index e i pos).finish).InTurn ix := by
  refine inTurn_enter hothers (.inr ⟨hupto, ?_⟩)
  obtain rfl : pos = (i - 1) * indexBulkMax + 1 := hpos
  have hb : indexBulkMax = 4 := rfl
  change (i - 1) * indexBulkMax + 1 + indexBulkMax = (i + 1 - 1) * indexBulkMax + 1
  rw [hb]
  omega

/-- What the indexer works on. -/
theorem InRole.exists_index (h : x.InRole .indexer) {t : Task} (ht : x.task = some t) :
    ∃ e i pos, t = .index e i pos ∧ 1 ≤ i ∧ i ≤ indexPoolMax := by
  obtain ⟨hr, hrange⟩ := h.all t ht
  cases t with
  | index e i pos => exact ⟨e, i, pos, rfl, hrange.2⟩
  | _ => cases hr

/-- What a step of the indexer does to its turn. -/
theorem Step.inTurn (h : Step P .indexer answers kb x x' kb') (hrole : x.InRole .indexer)
    (hx : x.InTurn kb.Indexed)
    (hcall : ∀ t xs, Calls kb answers x t xs → (t.call P xs).isSome)
    (hkey : ∀ t out, x = .hset t out → witnessKey P.runtime out.witness ≠ none) :
    x'.InTurn kb'.Indexed := by
  cases h with
  | noEpoch | noBase => exact hx
  | @start e =>
      change (doIndex e).InTurn _
      unfold doIndex
      split_ifs
      · exact hx
      · exact hx
      · refine inTurn_enter (fun e' _ => hx e') ?_
        rcases hx e with hnone | hfull
        · exact .inr ⟨hnone, rfl⟩
        · exact .inl hfull
  | base => cases hrole.base _ rfl
  | skip hv =>
      obtain ⟨e, i, pos, rfl, h1, hi⟩ := hrole.exists_index rfl
      obtain ⟨hothers, hfull | ⟨hupto, -⟩⟩ := hx
      · exact inTurn_enter hothers (.inl hfull)
      · have := (hupto i h1 hi).1 (Kanban.indexed_iff.2 ⟨_, hv⟩)
        change i ≤ i - 1 at this
        omega
  | absent hnone =>
      obtain ⟨e, i, pos, rfl, h1, hi⟩ := hrole.exists_index rfl
      refine ⟨hx.1, hx.2.resolve_left fun hfull => ?_⟩
      obtain ⟨v, hv⟩ := Kanban.indexed_iff.1 ((hfull i h1 hi).2 hi)
      exact absurd (hnone.symm.trans hv) nofun
  | wait | take => exact hx
  | @call t got xs hc =>
      obtain ⟨out, hout⟩ := Option.isSome_iff_exists.1 (hcall _ _ hc)
      unfold Executor.call
      rw [hout]
      exact hx
  | @put _ out =>
      obtain ⟨e, i, pos, rfl, h1, hi⟩ := hrole.exists_index rfl
      obtain ⟨hothers, hupto, hpos⟩ := hx
      exact ⟨fun e' he' => (hothers e' he').set_index he' i _, hupto.set_index h1 _, hpos⟩
  | noKey hnone => exact absurd hnone (hkey _ _ rfl)
  | hset => exact hx
  | sadd =>
      obtain ⟨e, i, pos, rfl, h1, hi⟩ := hrole.exists_index rfl
      unfold Executor.appended
      dsimp only
      split_ifs
      · exact hx
      · exact inTurn_finish h1 hx.1 hx.2.1 hx.2.2
  | copy =>
      obtain ⟨e, i, pos, rfl, h1, hi⟩ := hrole.exists_index rfl
      rw [Kanban.indexed_set_of_ne (by simp)]
      exact inTurn_finish h1 hx.1 hx.2.1 hx.2.2

end Executor

end

/-! ## One executor of each role -/

/-- Only the one executor of a role takes steps, and none crashes. -/
def Solo (D : Deployment) (one : Role → Nat) : Action → Prop
  | .manager => True
  | .exec p _ => p = one (D.role p)
  | .crash _ => False

variable (P : Platform) in
/-- The call returns, and its output fits the buffer. -/
def Task.Succeeds (t : Task) (xs : Inputs) : Prop := (t.call P xs).isSome ∧ t.Fits P xs

theorem Executor.Claims.task_eq {x : Executor} {t : Task} (h : x.Claims t) :
    x.task = some t := by
  cases x with
  | gather t' got | put t' out => exact congrArg some h
  | _ => exact h.elim

/-- What holds with one executor of each role. -/
structure Single (D : Deployment) (one : Role → Nat) (s : State) : Prop where
  idle : ∀ p, p ≠ one (D.role p) → s.procs p = .idle
  inRole : ∀ p, (s.procs p).InRole (D.role p)
  absent : ∀ p t v, (s.procs p).Claims t → ¬s.kanban.Stored t.key v
  backed : ∀ p, (s.procs p).Backed s.kanban
  first : ∀ i v, s.kanban.Stored (.globalIndex 2 i) v → s.kanban.Stored (.index 2 i) v
  agrees : ∀ k, k.isData → s.kanban.Agrees k
  inTurn : ∀ p, p = one (D.role p) → D.role p = .indexer →
    (s.procs p).InTurn s.kanban.Indexed

namespace Single

variable {D : Deployment} {one : Role → Nat} {src : Source} {F : Task → Inputs → Prop}
  {s : State}

theorem init : Single D one .init where
  idle _ _ := rfl
  inRole _ := Executor.inRole_idle
  absent _ _ _ h := h.elim
  backed _ := trivial
  first _ _ h := absurd h List.not_mem_nil
  agrees _ _ _ _ h := absurd h List.not_mem_nil
  inTurn _ _ _ e := .inl fun i h1 _ => iff_of_false (fun ⟨_, h⟩ => absurd h List.not_mem_nil)
    (by omega)

theorem manager (h : Single D one s) : Single D one (D.step .manager s) := by
  have hl : s.kanban.LedgerOnly (D.step .manager s).kanban :=
    Manager.ledgerOnly_step (P := D.platform) (L := D.sort) s.manager
  have hold : ∀ {k v}, Key.isData k → (D.step .manager s).kanban.Stored k v →
      s.kanban.Stored k v := fun hk hkv =>
    (hl.sets _ _ hkv).resolve_right (by simp [hk])
  have hindexed : (D.step .manager s).kanban.Indexed = s.kanban.Indexed := by
    funext e i
    exact propext ⟨fun ⟨v, hv⟩ => ⟨v, hold rfl hv⟩, fun ⟨v, hv⟩ => ⟨v, hl.mono hv⟩⟩
  exact ⟨h.idle, h.inRole, fun p t v hc hv => h.absent p t v hc (hold t.isData_key hv),
    fun p => (h.backed p).mono hl.extends, fun i v hv => hl.mono (h.first i v (hold rfl hv)),
    fun k hk v w hv hw => h.agrees k hk v w (hold hk hv) (hold hk hw),
    fun p hp hr => hindexed ▸ h.inTurn p hp hr⟩

/-- Executors of different roles write different keys. -/
theorem role_ne (h : Single D one s) {p q : Nat} (hp : p = one (D.role p)) (hq : q ≠ p)
    (hbusy : s.procs q ≠ .idle) : D.role q ≠ D.role p := by
  intro heq
  have hone : q = one (D.role q) := by_contra fun hne => hbusy (h.idle q hne)
  exact hq (hone.trans (heq ▸ hp.symm))

theorem task_inRange (h : Single D one s) {p : Nat} {t : Task}
    (ht : (s.procs p).task = some t) : t.role = D.role p ∧ t.InRange :=
  (h.inRole p).all t ht

/-- What a step adds to the values, with what is known of the executor that adds it. -/
theorem stored (h : Single D one s) (htr : Traced D.platform src F s) {p : Nat}
    {answers : Inputs} {k : Key} {v : Bytes}
    (hkv : (D.step (.exec p answers) s).kanban.Stored k v) :
    s.kanban.Stored k v ∨
      (∃ t out, s.procs p = .put t out ∧ k = t.key ∧ out.data = v ∧ t.role = D.role p ∧
        t.InRange) ∨
      ∃ i pos out, s.procs p = .copy (.index 2 i pos) out ∧ k = .globalIndex 2 i ∧ out.data = v ∧
        D.role p = .indexer := by
  have hstep := Executor.step_spec D.platform (D.role p) answers s.kanban (s.procs p)
  rcases hstep.stored hkv with hold | ⟨t, out, hv, ⟨hx, hkey⟩ | ⟨hx, hkey⟩⟩
  · exact .inl hold
  · obtain ⟨hrole, hrange⟩ := h.task_inRange (t := t) (by rw [hx]; rfl)
    exact .inr (.inl ⟨t, out, hx, hkey, hv, hrole, hrange⟩)
  · have hm := htr.procs p
    rw [hx] at hm
    obtain ⟨-, i, pos, rfl⟩ := hm
    obtain ⟨hrole, -⟩ := h.task_inRange (t := .index 2 i pos) (by rw [hx]; rfl)
    exact .inr (.inr ⟨i, pos, out, hx, hkey, hv, hrole.symm⟩)

/-- Nobody else writes the shard that an executor works on. -/
theorem absent_exec (h : Single D one s) (htr : Traced D.platform src F s) {p q : Nat}
    {answers : Inputs} (hp : p = one (D.role p)) {t : Task} {v : Bytes}
    (hc : ((D.step (.exec p answers) s).procs q).Claims t) :
    ¬(D.step (.exec p answers) s).kanban.Stored t.key v := by
  intro hv
  have hstep := Executor.step_spec D.platform (D.role p) answers s.kanban (s.procs p)
  by_cases hq : q = p
  · subst hq
    rw [show (D.step (.exec q answers) s).procs q = _ from Function.update_self _ _ _] at hc
    obtain ⟨hkb, hnone | hbefore⟩ := hstep.claims hc
    · have hv' : s.kanban.Stored t.key v := hkb ▸ hv
      obtain ⟨w, hw, -⟩ := Kanban.exists_get_of_mem hv'
      exact absurd (hnone.symm.trans hw) nofun
    · exact h.absent q t v hbefore (hkb ▸ hv)
  · rw [show (D.step (.exec p answers) s).procs q = s.procs q from
      Function.update_of_ne hq _ _] at hc
    obtain ⟨hrole, hrange⟩ := h.task_inRange hc.task_eq
    rcases h.stored htr hv with hold | ⟨t', out, -, hkey, -, hrole', -⟩ | ⟨i, pos, out, -, hkey, -⟩
    · exact h.absent q t v hc hold
    · have hne := h.role_ne hp hq fun hidle => by rw [hidle] at hc; exact hc
      exact hne (hrole.symm.trans ((Task.role_eq_of_key_eq hkey).trans hrole'))
    · cases t <;> cases hkey
      exact absurd hrange.1 (by decide)

/-- A shard is put once. -/
theorem agrees_exec (h : Single D one s) (htr : Traced D.platform src F s) {p : Nat}
    {answers : Inputs} {k : Key} (hk : k.isData) :
    (D.step (.exec p answers) s).kanban.Agrees k := by
  have hput : ∀ {t out v}, s.procs p = .put t out → ¬s.kanban.Stored t.key v := fun hx =>
    h.absent p _ _ (by rw [hx]; rfl)
  have hcopy : ∀ {i pos out v}, s.procs p = .copy (.index 2 i pos) out →
      s.kanban.Stored (.globalIndex 2 i) v → v = out.data := by
    intro i pos out v hx hv
    have hback := h.backed p
    rw [hx] at hback
    exact h.agrees (.index 2 i) rfl v out.data (h.first i v hv) hback
  intro v w hv hw
  rcases h.stored htr hv with hv | ⟨t, out, hx, rfl, rfl, -⟩ | ⟨i, pos, out, hx, rfl, rfl, -⟩
  · rcases h.stored htr hw with hw | ⟨t, out, hx, rfl, rfl, -⟩ | ⟨i, pos, out, hx, rfl, rfl, -⟩
    · exact h.agrees k hk v w hv hw
    · exact absurd hv (hput hx)
    · exact hcopy hx hv
  · rcases h.stored htr hw with hw | ⟨t', out', hx', -, rfl, -⟩ | ⟨i, pos, out', hx', -⟩
    · exact absurd hw (hput hx)
    · cases hx.symm.trans hx'
      rfl
    · cases hx.symm.trans hx'
  · rcases h.stored htr hw with hw | ⟨t', out', hx', -⟩ | ⟨i', pos', out', hx', -, rfl, -⟩
    · exact (hcopy hx hw).symm
    · cases hx.symm.trans hx'
    · cases hx.symm.trans hx'
      rfl

theorem first_exec (h : Single D one s) (htr : Traced D.platform src F s) {p : Nat}
    {answers : Inputs} {i : Nat} {v : Bytes}
    (hv : (D.step (.exec p answers) s).kanban.Stored (.globalIndex 2 i) v) :
    (D.step (.exec p answers) s).kanban.Stored (.index 2 i) v := by
  have hext : s.kanban.Extends (D.step (.exec p answers) s).kanban := D.extends_step _
  rcases h.stored htr hv with hold | ⟨t, out, -, hkey, -, -, hrange⟩ |
    ⟨i', pos, out, hx, hkey, rfl, -⟩
  · exact hext.sets (h.first i v hold)
  · cases t <;> cases hkey
    exact absurd hrange.1 (by decide)
  · cases hkey
    have hback := h.backed p
    rw [hx] at hback
    exact hext.sets hback

theorem indexed_exec (h : Single D one s) (htr : Traced D.platform src F s) {p : Nat}
    {answers : Inputs} (hp : D.role p ≠ .indexer) :
    (D.step (.exec p answers) s).kanban.Indexed = s.kanban.Indexed := by
  have hext : s.kanban.Extends (D.step (.exec p answers) s).kanban := D.extends_step _
  funext e i
  refine propext ⟨fun ⟨v, hv⟩ => ?_, fun ⟨v, hv⟩ => ⟨v, hext.sets hv⟩⟩
  rcases h.stored htr hv with hold | ⟨t, out, -, hkey, -, hrole, -⟩ | ⟨_, _, _, -, hkey, -⟩
  · exact ⟨v, hold⟩
  · cases t <;> cases hkey
    exact absurd hrole.symm hp
  · cases hkey

theorem exec (h : Single D one s) (htr : Traced D.platform src F s)
    (hF : ∀ t xs, F t xs → t.Fits D.platform xs) {p : Nat} {answers : Inputs}
    (hp : p = one (D.role p))
    (hcall : ∀ t xs, (s.procs p).Calls s.kanban answers t xs → (t.call D.platform xs).isSome) :
    Single D one (D.step (.exec p answers) s) := by
  have hstep := Executor.step_spec D.platform (D.role p) answers s.kanban (s.procs p)
  refine ⟨fun q hq => ?_, ?_, fun q t v hc => h.absent_exec htr hp hc, ?_,
    fun i v hv => h.first_exec htr hv, fun k hk => h.agrees_exec htr hk, fun q hq hr => ?_⟩
  · have hne : q ≠ p := by
      rintro rfl
      exact hq hp
    exact (Function.update_of_ne hne _ _).trans (h.idle q hq)
  · intro q
    by_cases hq : q = p
    · subst hq
      rw [show (D.step (.exec q answers) s).procs q = _ from Function.update_self _ _ _]
      exact hstep.inRole (h.inRole q)
    · rw [show (D.step (.exec p answers) s).procs q = _ from Function.update_of_ne hq _ _]
      exact h.inRole q
  · exact (Function.forall_update_iff _ fun _ => Executor.Backed _).2
      ⟨hstep.backed (h.backed p), fun q _ => (h.backed q).mono hstep.extends⟩
  · by_cases hqp : q = p
    · subst hqp
      rw [show (D.step (.exec q answers) s).procs q = _ from Function.update_self _ _ _]
      rw [hr] at hstep
      have hrole := h.inRole q
      rw [hr] at hrole
      have hturn := hstep.inTurn hrole (h.inTurn q hq hr) hcall fun t out hx => by
        have hm := htr.procs q
        rw [hx] at hm
        rw [hm.1.witnessKey_eq hF]
        exact nofun
      rw [← hr] at hturn
      exact hturn
    · rw [show (D.step (.exec p answers) s).procs q = _ from Function.update_of_ne hqp _ _]
      have hother : D.role p ≠ .indexer := fun hpr => hqp (by rw [hq, hp, hr, hpr])
      rw [h.indexed_exec htr hother]
      exact h.inTurn q hq hr

/-- Every index is built with the cursor where it belongs. -/
theorem cursorAligned (h : Single D one s) {p : Nat} {answers : Inputs}
    (hp : p = one (D.role p)) {t : Task} {xs : Inputs}
    (hc : (s.procs p).Calls s.kanban answers t xs) : t.InRange ∧ t.CursorAligned := by
  obtain ⟨got, hx, -⟩ := hc
  obtain ⟨hrole, hrange⟩ := h.task_inRange (t := t) (by rw [hx]; rfl)
  refine ⟨hrange, ?_⟩
  cases t with
  | index e i pos =>
      have hturn := h.inTurn p hp hrole.symm
      rw [hx] at hturn
      exact hturn.2.2
  | _ => trivial

end Single

/-- What holds of the calls with one executor of each role. -/
def Task.Regulated (P : Platform) (t : Task) (xs : Inputs) : Prop :=
  t.InRange ∧ t.CursorAligned ∧ t.Succeeds P xs

/-- One executor of each role, none of which crashes, and calls that return what fits. -/
def Undisturbed (D : Deployment) (one : Role → Nat) (src : Source) (s : State) (a : Action) :
    Prop :=
  Solo D one a ∧ Answered src s a ∧ CallsMeet (Task.Succeeds D.platform) s a

section

variable {D : Deployment} {one : Role → Nat} {src : Source} {s : State} {a : Action}

theorem Single.step (h : Single D one s)
    (htr : Traced D.platform src (Task.Regulated D.platform) s) (ha : Undisturbed D one src s a) :
    Single D one (D.step a s) ∧
      Traced D.platform src (Task.Regulated D.platform) (D.step a s) := by
  obtain ⟨hsolo, hans, hcall⟩ := ha
  cases a with
  | manager => exact ⟨h.manager, htr.manager⟩
  | exec p answers =>
      refine ⟨h.exec htr (fun t xs hF => hF.2.2.2) hsolo fun t xs hc => (hcall t xs hc).1,
        htr.exec hans fun t xs hc => ?_⟩
      obtain ⟨hrange, hcursor⟩ := h.cursorAligned hsolo hc
      exact ⟨hrange, hcursor, hcall t xs hc⟩
  | crash p => exact hsolo.elim

end

end DeSearch
