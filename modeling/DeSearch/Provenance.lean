import DeSearch.System
import DeSearch.CrawlSize

/-!
# Where stored values come from

`Executor.Step` says once what a step of an executor can do, and the invariants follow from it.

* `Executor.InRole`: what holds of the loop variables of every executor.
* `Traced`: every value, witness and witness key in Kanban comes from an enclave call on inputs
  that were downloaded or stored.
-/

namespace DeSearch

open Run

/-! ## What a step can do -/

namespace Executor

/-- The next step of an executor is its enclave call, on these inputs. A crawler has no keys to
wait for: its inputs are the answers of the block source. -/
def Calls (kb : Kanban) (answers : Inputs) (x : Executor) (t : Task) (xs : Inputs) : Prop :=
  ∃ got, x = gather t got ∧
    ((t.inputs[got.length]? = none ∧ xs = answers) ∨
      ∃ k v, t.inputs[got.length]? = some k ∧ kb.get k = some v ∧
        ¬got.length + 1 < t.inputs.length ∧ xs = ⟨got ++ [v], answers.order⟩)

/-- One step of an executor, and the store after it. -/
inductive Step (P : Platform) (role : Role) (answers : Inputs) (kb : Kanban) :
    Executor → Executor → Kanban → Prop where
  | noEpoch : getEpochInt P.runtime P.crypto kb = none → Step P role answers kb idle idle kb
  | start {e} : getEpochInt P.runtime P.crypto kb = some e →
      Step P role answers kb idle (start role e) kb
  | noBase {e} : (kb.get .blockId).bind stoi = none →
      Step P role answers kb (readBase e) idle kb
  | base {e b} : (kb.get .blockId).bind stoi = some b →
      Step P role answers kb (readBase e) (enter (.crawl e b 1)) kb
  | skip {t v} : kb.get t.key = some v → Step P role answers kb (check t) (enter t.skip) kb
  | absent {t} : kb.get t.key = none → Step P role answers kb (check t) (gather t []) kb
  | wait {t got} : Step P role answers kb (gather t got) (gather t got) kb
  | take {t got k v} : t.inputs[got.length]? = some k → kb.get k = some v →
      got.length + 1 < t.inputs.length →
      Step P role answers kb (gather t got) (gather t (got ++ [v])) kb
  | call {t got xs} : Calls kb answers (gather t got) t xs →
      Step P role answers kb (gather t got) (call P t xs) kb
  | put {t out} : Step P role answers kb (put t out) (hset t out) (kb.set t.key out.data)
  | noKey {t out} : witnessKey P.runtime out.witness = none →
      Step P role answers kb (hset t out) idle kb
  | hset {t out k} : witnessKey P.runtime out.witness = some k →
      Step P role answers kb (hset t out) (sadd t out k) (kb.hset k out.witness)
  | sadd {t out k} : Step P role answers kb (sadd t out k) (appended t out) (kb.sadd t.epoch k)
  | copy {t out} : Step P role answers kb (copy t out) (enter t.finish)
      (kb.set (.globalIndex t.epoch t.shard) out.data)

/-- No turn starts in the middle of a shard. -/
theorem start_spec (role : Role) (e : Int) :
    Executor.start role e = idle ∨ Executor.start role e = readBase e ∨
      ∃ t, Executor.start role e = check t := by
  have henter : ∀ t, enter t = idle ∨ enter t = readBase e ∨ ∃ t', enter t = check t' := by
    intro t
    unfold enter
    split_ifs
    · exact .inr (.inr ⟨t, rfl⟩)
    · exact .inl rfl
  cases role with
  | crawler =>
      simp only [Executor.start, doCrawl]
      split_ifs
      · exact .inl rfl
      · exact .inr (.inl rfl)
  | indexer =>
      simp only [Executor.start, doIndex]
      split_ifs
      · exact .inl rfl
      · exact .inl rfl
      · exact henter _
  | reducer =>
      simp only [Executor.start, doReduce]
      split_ifs
      · exact .inl rfl
      · exact .inl rfl
      · exact henter _

theorem step_spec (P : Platform) (role : Role) (answers : Inputs) (kb : Kanban)
    (x : Executor) :
    Step P role answers kb x (x.step P role answers kb).1 (x.step P role answers kb).2 := by
  cases x with
  | idle =>
      rw [step]
      split
      · exact .noEpoch ‹_›
      · exact .start ‹_›
  | readBase e =>
      rw [step]
      split
      · exact .noBase ‹_›
      · exact .base ‹_›
  | check t =>
      rw [step]
      split
      · exact .skip ‹_›
      · exact .absent ‹_›
  | gather t got =>
      rw [step]
      split
      · exact .call ⟨got, rfl, .inl ⟨‹_›, rfl⟩⟩
      · split
        · exact .wait
        · split_ifs with hlast
          · exact .take ‹_› ‹_› hlast
          · exact .call ⟨got, rfl, .inr ⟨_, _, ‹_›, ‹_›, hlast, rfl⟩⟩
  | put t out => exact .put
  | hset t out =>
      rw [step]
      split
      · exact .noKey ‹_›
      · exact .hset ‹_›
  | sadd t out k => exact .sadd
  | copy t out => exact .copy

theorem Step.extends {P : Platform} {role : Role} {answers : Inputs} {kb kb' : Kanban}
    {x x' : Executor} (h : Step P role answers kb x x' kb') : kb.Extends kb' := by
  cases h with
  | put => exact kb.extends_set _ _
  | hset => exact kb.extends_hset _ _
  | sadd => exact kb.extends_sadd _ _
  | copy => exact kb.extends_set _ _
  | _ => exact .refl kb

/-! ## Loop variables -/

/-- The loop variables of an executor inside its loop. -/
def task : Executor → Option Task
  | idle => none
  | readBase _ => none
  | check t => some t
  | gather t _ => some t
  | put t _ => some t
  | hset t _ => some t
  | sadd t _ _ => some t
  | copy t _ => some t

/-- The loop variables, if there are any, have a property. -/
def All (Q : Task → Prop) (x : Executor) : Prop := ∀ t, x.task = some t → Q t

variable {Q : Task → Prop}

@[simp] theorem all_idle : All Q idle := fun _ h => by cases h

@[simp] theorem all_readBase (e : Int) : All Q (readBase e) := fun _ h => by cases h

theorem all_of_task {x : Executor} {t : Task} (hx : x.task = some t) (h : Q t) : All Q x :=
  fun t' ht' => by
    rw [hx] at ht'
    cases ht'
    exact h

theorem all_enter {t : Task} (h : t.shard ≤ t.poolMax → Q t) : All Q (enter t) := by
  unfold enter
  split_ifs with hle
  · exact all_of_task rfl (h hle)
  · exact all_idle

theorem all_call {P : Platform} {t : Task} {xs : Inputs} (h : Q t) : All Q (call P t xs) := by
  unfold call
  split
  · exact all_of_task rfl h
  · exact all_idle

theorem all_appended {t : Task} {out : Output} (h : Q t)
    (hfinish : t.finish.shard ≤ t.finish.poolMax → Q t.finish) : All Q (appended t out) := by
  unfold Executor.appended
  split
  · split_ifs
    · exact all_of_task rfl h
    · exact all_enter hfinish
  · exact all_enter hfinish

/-- A property of the loop variables that holds when a loop is entered and is kept by both ways
of going on to the next shard holds after every step. -/
theorem Step.all {P : Platform} {role : Role} {answers : Inputs} {kb kb' : Kanban}
    {x x' : Executor} (h : Step P role answers kb x x' kb') (hx : All Q x)
    (hstart : ∀ e, getEpochInt P.runtime P.crypto kb = some e → All Q (Executor.start role e))
    (hbase : ∀ e b, x = readBase e → (kb.get .blockId).bind stoi = some b →
      All Q (enter (.crawl e b 1)))
    (hskip : ∀ t, Q t → t.skip.shard ≤ t.skip.poolMax → Q t.skip)
    (hfinish : ∀ t, Q t → t.finish.shard ≤ t.finish.poolMax → Q t.finish) : All Q x' := by
  cases h with
  | noEpoch | noBase | noKey => exact all_idle
  | start he => exact hstart _ he
  | base hb => exact hbase _ _ rfl hb
  | skip => exact all_enter (hskip _ (hx _ rfl))
  | absent | wait | take | put | hset => exact all_of_task rfl (hx _ rfl)
  | call => exact all_call (hx _ rfl)
  | sadd => exact all_appended (hx _ rfl) (hfinish _ (hx _ rfl))
  | copy => exact all_enter (hfinish _ (hx _ rfl))

end Executor

/-! ## Loops and roles -/

/-- The role whose loop has these loop variables. -/
def Task.role : Task → Role
  | .crawl _ _ _ => .crawler
  | .index _ _ _ => .indexer
  | .reduce _ _ => .reducer

theorem Task.role_eq_of_key_eq {t t' : Task} (h : t.key = t'.key) : t.role = t'.role := by
  cases t <;> cases t' <;> first | rfl | cases h

/-- The loop variables are those of a shard of their epoch. -/
def Task.InRange : Task → Prop
  | .crawl _ _ i => 1 ≤ i ∧ i ≤ itemsPoolMax
  | .index e i _ => 2 ≤ e ∧ 1 ≤ i ∧ i ≤ indexPoolMax
  | .reduce e i => 3 ≤ e ∧ 1 ≤ i ∧ i ≤ indexPoolMax

theorem Task.InRange.shard {t : Task} (h : t.InRange) : 1 ≤ t.shard ∧ t.shard ≤ t.poolMax := by
  cases t with
  | crawl e b i => exact h
  | index e i pos => exact h.2
  | reduce e i => exact h.2

/-- The executor is in the loop of its role. -/
structure Executor.InRole (role : Role) (x : Executor) : Prop where
  all : x.All fun t => t.role = role ∧ t.InRange
  base : ∀ e, x = .readBase e → role = .crawler

namespace Executor

variable {P : Platform} {role : Role} {answers : Inputs} {kb kb' : Kanban} {x x' : Executor}

theorem inRole_idle : InRole role idle := ⟨all_idle, fun _ h => by cases h⟩

theorem enter_ne_readBase (t : Task) (e : Int) : enter t ≠ readBase e := by
  unfold enter
  split_ifs <;> exact nofun

theorem start_inRole (role : Role) (e : Int) :
    (Executor.start role e).All (fun t => t.role = role ∧ t.InRange) := by
  cases role with
  | crawler =>
      change (doCrawl e).All _
      unfold doCrawl
      split_ifs
      · exact all_idle
      · exact all_readBase e
  | indexer =>
      change (doIndex e).All _
      unfold doIndex
      split_ifs with h₁ h₂
      · exact all_idle
      · exact all_idle
      · exact all_enter fun hle => ⟨rfl, by omega, le_rfl, hle⟩
  | reducer =>
      change (doReduce e).All _
      unfold doReduce
      split_ifs with h₁ h₂
      · exact all_idle
      · exact all_idle
      · exact all_enter fun hle => ⟨rfl, by omega, le_rfl, hle⟩

theorem start_eq_readBase {role : Role} {e e' : Int} (h : Executor.start role e = readBase e') :
    role = .crawler := by
  cases role with
  | crawler => rfl
  | indexer =>
      change doIndex e = _ at h
      unfold doIndex at h
      split_ifs at h
      exact absurd h (enter_ne_readBase _ _)
  | reducer =>
      change doReduce e = _ at h
      unfold doReduce at h
      split_ifs at h
      exact absurd h (enter_ne_readBase _ _)

/-- An executor stays in the loop of its role. -/
theorem Step.inRole (h : Step P role answers kb x x' kb') (hx : x.InRole role) :
    x'.InRole role := by
  refine ⟨h.all hx.all (fun e _ => start_inRole role e) (fun e b hb _ => ?_) ?_ ?_, fun e he => ?_⟩
  · exact all_enter fun hle => ⟨(hx.base e hb).symm, le_rfl, hle⟩
  · rintro t ⟨hrole, hrange⟩ hle
    cases t with
    | crawl e b i => exact ⟨hrole, by omega, hle⟩
    | index e i pos => exact ⟨hrole, hrange.1, by omega, hle⟩
    | reduce e i => exact ⟨hrole, hrange.1, by omega, hle⟩
  · rintro t ⟨hrole, hrange⟩ hle
    cases t with
    | crawl e b i => exact ⟨hrole, by omega, hle⟩
    | index e i pos => exact ⟨hrole, hrange.1, by omega, hle⟩
    | reduce e i => exact ⟨hrole, hrange.1, by omega, hle⟩
  · cases h with
    | start => exact start_eq_readBase he
    | base | skip | copy => exact absurd he (enter_ne_readBase _ _)
    | call =>
        unfold Executor.call at he
        split at he <;> cases he
    | sadd =>
        unfold Executor.appended at he
        split at he
        · split_ifs at he
          exact absurd he (enter_ne_readBase _ _)
        · exact absurd he (enter_ne_readBase _ _)
    | _ => cases he

end Executor

/-! ## Provenance -/

/-- The value was stored under the key at some time. -/
def Kanban.Stored (kb : Kanban) (k : Key) (v : Bytes) : Prop := (k, v) ∈ kb.sets

/-- The keys of the three kinds of shards. -/
def Key.isData : Key → Bool
  | items _ _ => true
  | index _ _ => true
  | globalIndex _ _ => true
  | _ => false

theorem Task.isData_key (t : Task) : t.key.isData := by cases t <;> rfl

section

variable (P : Platform) (src : Source) (F : Task → Inputs → Prop)

/-- The inputs of a call are answers of the block source, or were stored under the keys that the
executor waits for. -/
def Sourced (kb : Kanban) : Task → Inputs → Prop
  | .crawl e b i, xs => List.Forall₂ src.Answers (Task.crawl e b i).blocks xs.values
  | t, xs => List.Forall₂ kb.Stored t.inputs xs.values

/-- The output of an enclave call on such inputs, which also meet `F`. -/
def Made (kb : Kanban) (t : Task) (out : Output) : Prop :=
  ∃ xs, F t xs ∧ Sourced src kb t xs ∧ t.call P xs = some out

/-- A task may write a value under this key: its own, or that of the first global index. -/
def Task.Writes (t : Task) (k : Key) : Prop :=
  k = t.key ∨ ∃ i pos, t = .index 2 i pos ∧ k = .globalIndex 2 i

/-- What an executor holds was made by its enclave, and what it has published is in Kanban. -/
def Executor.Traced (kb : Kanban) : Executor → Prop
  | .gather t got => List.Forall₂ kb.Stored (t.inputs.take got.length) got ∧
      (t.inputs ≠ [] → got.length < t.inputs.length)
  | .put t out => Made P src F kb t out
  | .hset t out => Made P src F kb t out ∧ kb.Stored t.key out.data
  | .sadd t out k => Made P src F kb t out ∧ kb.Stored t.key out.data ∧
      witnessKey P.runtime out.witness = some k ∧ (k, out.witness) ∈ kb.hsets
  | .copy t out => Made P src F kb t out ∧ ∃ i pos, t = .index 2 i pos
  | _ => True

/-- Everything in Kanban was made by an enclave. -/
structure Traced (s : State) : Prop where
  procs : ∀ p, (s.procs p).Traced P src F s.kanban
  data : ∀ k v, s.kanban.Stored k v → k.isData → ∃ t out, Made P src F s.kanban t out ∧
    out.data = v ∧ t.Writes k
  records : ∀ k w, (k, w) ∈ s.kanban.hsets → ∃ t out, Made P src F s.kanban t out ∧
    out.witness = w ∧ witnessKey P.runtime w = some k
  members : ∀ e k, (e, k) ∈ s.kanban.sadds → ∃ t out, Made P src F s.kanban t out ∧ t.epoch = e ∧
    s.kanban.Stored t.key out.data ∧ witnessKey P.runtime out.witness = some k ∧
    (k, out.witness) ∈ s.kanban.hsets

end

section

variable {P : Platform} {src : Source} {F : Task → Inputs → Prop} {kb kb' : Kanban}

theorem Sourced.mono (h : kb.Extends kb') {t : Task} {xs : Inputs}
    (hs : Sourced src kb t xs) : Sourced src kb' t xs := by
  cases t with
  | crawl e b i => exact hs
  | index e i pos => exact List.Forall₂.imp (fun _ _ hkv => h.sets hkv) hs
  | reduce e i => exact List.Forall₂.imp (fun _ _ hkv => h.sets hkv) hs

theorem Made.mono (h : kb.Extends kb') {t : Task} {out : Output} (hm : Made P src F kb t out) :
    Made P src F kb' t out := by
  obtain ⟨xs, hF, hs, hcall⟩ := hm
  exact ⟨xs, hF, hs.mono h, hcall⟩

theorem Executor.Traced.mono (h : kb.Extends kb') {x : Executor} (hx : x.Traced P src F kb) :
    x.Traced P src F kb' := by
  cases x with
  | gather t got => exact ⟨hx.1.imp fun _ _ hkv => h.sets hkv, hx.2⟩
  | put t out => exact Made.mono h hx
  | hset t out => exact ⟨hx.1.mono h, h.sets hx.2⟩
  | sadd t out k => exact ⟨hx.1.mono h, h.sets hx.2.1, hx.2.2.1, h.hsets hx.2.2.2⟩
  | copy t out => exact ⟨hx.1.mono h, hx.2⟩
  | _ => trivial

theorem Executor.traced_enter (t : Task) : (enter t).Traced P src F kb := by
  unfold enter
  split_ifs <;> trivial

theorem Executor.traced_start (role : Role) (e : Int) : (start role e).Traced P src F kb := by
  rcases start_spec role e with h | h | ⟨t, h⟩ <;> (rw [h]; trivial)

theorem Executor.traced_call {t : Task} {xs : Inputs} (hF : F t xs)
    (hs : Sourced src kb t xs) : (call P t xs).Traced P src F kb := by
  unfold call
  split
  · exact ⟨xs, hF, hs, ‹_›⟩
  · trivial

/-- The inputs an executor ends up with are all stored, or all downloaded. -/
theorem Executor.Calls.sourced {answers : Inputs} {x : Executor} {t : Task}
    {xs : Inputs} (h : Calls kb answers x t xs) (hx : x.Traced P src F kb)
    (hans : ∀ e b i got, x = gather (.crawl e b i) got →
      List.Forall₂ src.Answers (Task.crawl e b i).blocks answers.values) : Sourced src kb t xs := by
  obtain ⟨got, rfl, ⟨hnone, rfl⟩ | ⟨k, v, hk, hv, hlast, rfl⟩⟩ := h
  · have hle : t.inputs.length ≤ got.length := List.getElem?_eq_none_iff.1 hnone
    cases t with
    | crawl e b i => exact hans e b i got rfl
    | index e i pos =>
        have := hx.2 (by simp [Task.inputs, indexBulkMax])
        omega
    | reduce e i =>
        have := hx.2 (List.cons_ne_nil _ _)
        omega
  · obtain ⟨hlt, rfl⟩ := List.getElem?_eq_some_iff.1 hk
    have hall : List.Forall₂ kb.Stored t.inputs (got ++ [v]) := by
      have htake : t.inputs = t.inputs.take got.length ++ [t.inputs[got.length]] := by
        rw [← List.take_succ_eq_append_getElem hlt, List.take_of_length_le (by omega)]
      rw [htake]
      exact List.rel_append hx.1 (.cons (Kanban.mem_of_get hv) .nil)
    cases t with
    | crawl e b i => exact absurd hlt (Nat.not_lt_zero _)
    | index e i pos => exact hall
    | reduce e i => exact hall

/-- A step leaves an executor that is traced in the new store. -/
theorem Executor.Step.traced {role : Role} {answers : Inputs} {x x' : Executor}
    (h : Step P role answers kb x x' kb') (hx : x.Traced P src F kb)
    (hans : ∀ e b i got, x = gather (.crawl e b i) got →
      List.Forall₂ src.Answers (Task.crawl e b i).blocks answers.values)
    (hcall : ∀ t xs, Calls kb answers x t xs → F t xs) : x'.Traced P src F kb' := by
  have hmono := hx.mono h.extends
  cases h with
  | noEpoch | noBase | noKey => trivial
  | start => exact traced_start _ _
  | base | skip | copy => exact traced_enter _
  | absent => exact ⟨.nil, List.length_pos_of_ne_nil⟩
  | wait => exact hmono
  | @take t got k v hk hv hlt =>
      obtain ⟨hlt', rfl⟩ := List.getElem?_eq_some_iff.1 hk
      refine ⟨?_, fun _ => by simpa using hlt⟩
      rw [List.length_append, List.length_singleton, List.take_succ_eq_append_getElem hlt']
      exact List.rel_append hx.1 (.cons (Kanban.mem_of_get hv) .nil)
  | call hc => exact traced_call (hcall _ _ hc) (hc.sourced hx hans)
  | put => exact ⟨hmono, List.mem_cons_self⟩
  | hset hk => exact ⟨hmono.1, hmono.2, hk, List.mem_cons_self⟩
  | @sadd t out k =>
      unfold Executor.appended
      split
      · split_ifs with he
        · exact ⟨hmono.1, _, _, by rw [he]⟩
        · exact traced_enter _
      · exact traced_enter _

/-- What a step adds to the values: what the executor was about to put. -/
theorem Executor.Step.stored {role : Role} {answers : Inputs} {x x' : Executor}
    (h : Step P role answers kb x x' kb') {k : Key} {v : Bytes} (hkv : kb'.Stored k v) :
    kb.Stored k v ∨ ∃ t out, out.data = v ∧
      (x = .put t out ∧ k = t.key ∨ x = .copy t out ∧ k = .globalIndex t.epoch t.shard) := by
  cases h with
  | @put t out =>
      rcases List.mem_cons.1 hkv with heq | hold
      · cases heq
        exact .inr ⟨t, out, rfl, .inl ⟨rfl, rfl⟩⟩
      · exact .inl hold
  | @copy t out =>
      rcases List.mem_cons.1 hkv with heq | hold
      · cases heq
        exact .inr ⟨t, out, rfl, .inr ⟨rfl, rfl⟩⟩
      · exact .inl hold
  | _ => exact .inl hkv

/-- What a step adds to the witnesses: that of the executor's output, under its own key. -/
theorem Executor.Step.mem_hsets {role : Role} {answers : Inputs} {x x' : Executor}
    (h : Step P role answers kb x x' kb') {k w : Bytes} (hk : (k, w) ∈ kb'.hsets) :
    (k, w) ∈ kb.hsets ∨ ∃ t out, x = .hset t out ∧ out.witness = w ∧
      witnessKey P.runtime w = some k := by
  cases h with
  | @hset t out k' hkey =>
      rcases List.mem_cons.1 hk with heq | hold
      · cases heq
        exact .inr ⟨t, out, rfl, rfl, hkey⟩
      · exact .inl hold
  | _ => exact .inl hk

/-- What a step adds to the witness sets: the key the executor was about to add. -/
theorem Executor.Step.mem_sadds {role : Role} {answers : Inputs} {x x' : Executor}
    (h : Step P role answers kb x x' kb') {e : Int} {k : Bytes} (hk : (e, k) ∈ kb'.sadds) :
    (e, k) ∈ kb.sadds ∨ ∃ t out, x = .sadd t out k ∧ t.epoch = e := by
  cases h with
  | @sadd t out k' =>
      rcases List.mem_cons.1 hk with heq | hold
      · cases heq
        exact .inr ⟨t, out, rfl, rfl⟩
      · exact .inl hold
  | _ => exact .inl hk

end

/-! ## Steps of the manager -/

section

variable {P : Platform} {L : LastCharSort} {kb : Kanban}

/-- The manager writes no shard and no witness. -/
structure Kanban.LedgerOnly (kb kb' : Kanban) : Prop where
  sets : ∀ k v, kb'.Stored k v → kb.Stored k v ∨ k.isData = false
  mono : kb.sets ⊆ kb'.sets
  hsets : kb'.hsets = kb.hsets
  sadds : kb'.sadds = kb.sadds

theorem Kanban.LedgerOnly.refl (kb : Kanban) : kb.LedgerOnly kb :=
  ⟨fun _ _ h => .inl h, fun _ h => h, rfl, rfl⟩

theorem Kanban.LedgerOnly.set {k : Key} (hk : k.isData = false) (v : Bytes) :
    kb.LedgerOnly (kb.set k v) :=
  ⟨fun _ _ h => (List.mem_cons.1 h).elim (fun heq => by cases heq; exact .inr hk) .inl,
    List.subset_cons_self _ _, rfl, rfl⟩

theorem Kanban.LedgerOnly.extends {kb' : Kanban} (h : kb.LedgerOnly kb') : kb.Extends kb' :=
  ⟨h.mono, by rw [h.hsets]; exact fun _ hx => hx, by rw [h.sadds]; exact fun _ hx => hx⟩

theorem Manager.ledgerOnly_step (m : Manager) : kb.LedgerOnly (m.step P L kb).2 := by
  obtain ⟨pc, blockId⟩ := m
  cases pc with
  | boot | openEpoch | setFirst | commit | increment => exact .set rfl _
  | count currentEpoch currentEpochInt =>
      rw [Manager.step]
      dsimp only
      split_ifs <;> exact .refl kb
  | _ => exact .refl kb

end

/-! ## Whole runs -/

section

variable {D : Deployment} {src : Source} {F : Task → Inputs → Prop} {s : State}

/-- An action extends the log. -/
theorem Deployment.extends_step (a : Action) : s.kanban.Extends (D.step a s).kanban := by
  cases a with
  | manager => exact (Manager.ledgerOnly_step s.manager).extends
  | exec p answers => exact (Executor.step_spec _ _ answers _ (s.procs p)).extends
  | crash p => exact .refl _

theorem Traced.manager (h : Traced D.platform src F s) :
    Traced D.platform src F (D.step .manager s) := by
  have hl : s.kanban.LedgerOnly (D.step .manager s).kanban :=
    Manager.ledgerOnly_step (P := D.platform) (L := D.sort) s.manager
  have hext := hl.extends
  refine ⟨fun p => (h.procs p).mono hext, fun k v hkv hk => ?_, fun k w hkw => ?_,
    fun e k hek => ?_⟩
  · rcases hl.sets k v hkv with hold | hno
    · obtain ⟨t, out, hm, hv, hw⟩ := h.data k v hold hk
      exact ⟨t, out, hm.mono hext, hv, hw⟩
    · rw [hno] at hk
      cases hk
  · rw [hl.hsets] at hkw
    obtain ⟨t, out, hm, hw⟩ := h.records k w hkw
    exact ⟨t, out, hm.mono hext, hw⟩
  · rw [hl.sadds] at hek
    obtain ⟨t, out, hm, he, hst, hkey, hhash⟩ := h.members e k hek
    exact ⟨t, out, hm.mono hext, he, hext.sets hst, hkey, hext.hsets hhash⟩

theorem Traced.exec {p : Nat} {answers : Inputs} (h : Traced D.platform src F s)
    (hans : Answered src s (.exec p answers))
    (hcall : ∀ t xs, (s.procs p).Calls s.kanban answers t xs → F t xs) :
    Traced D.platform src F (D.step (.exec p answers) s) := by
  have hstep := Executor.step_spec D.platform (D.role p) answers s.kanban (s.procs p)
  have hext := hstep.extends
  refine ⟨?_, fun k v hkv hk => ?_, fun k w hkw => ?_, fun e k hek => ?_⟩
  · exact (Function.forall_update_iff _ fun _ => Executor.Traced _ _ _ _).2
      ⟨hstep.traced (h.procs p) hans hcall, fun q _ => (h.procs q).mono hext⟩
  · rcases hstep.stored hkv with hold | ⟨t, out, hv, ⟨hx, hkey⟩ | ⟨hx, hkey⟩⟩
    · obtain ⟨t, out, hm, hv, hw⟩ := h.data k v hold hk
      exact ⟨t, out, hm.mono hext, hv, hw⟩
    · have hm := h.procs p
      rw [hx] at hm
      exact ⟨t, out, Made.mono hext hm, hv, .inl hkey⟩
    · have hm := h.procs p
      rw [hx] at hm
      obtain ⟨hm, i, pos, rfl⟩ := hm
      exact ⟨_, out, hm.mono hext, hv, .inr ⟨i, pos, rfl, hkey⟩⟩
  · rcases hstep.mem_hsets hkw with hold | ⟨t, out, hx, hw⟩
    · obtain ⟨t, out, hm, hw⟩ := h.records k w hold
      exact ⟨t, out, hm.mono hext, hw⟩
    · have hm := h.procs p
      rw [hx] at hm
      exact ⟨t, out, hm.1.mono hext, hw⟩
  · rcases hstep.mem_sadds hek with hold | ⟨t, out, hx, he⟩
    · obtain ⟨t, out, hm, he, hst, hkey, hhash⟩ := h.members e k hold
      exact ⟨t, out, hm.mono hext, he, hext.sets hst, hkey, hext.hsets hhash⟩
    · have hm := h.procs p
      rw [hx] at hm
      exact ⟨t, out, hm.1.mono hext, he, hext.sets hm.2.1, hm.2.2.1, hext.hsets hm.2.2.2⟩

theorem Traced.crash (h : Traced D.platform src F s) (p : Nat) :
    Traced D.platform src F (D.step (.crash p) s) := by
  refine ⟨?_, h.data, h.records, h.members⟩
  exact (Function.forall_update_iff _ fun _ => Executor.Traced _ _ _ _).2
    ⟨trivial, fun q _ => h.procs q⟩

theorem traced_init : Traced D.platform src F .init :=
  ⟨fun _ => trivial, fun _ _ h => absurd h List.not_mem_nil,
    fun _ _ h => absurd h List.not_mem_nil, fun _ _ h => absurd h List.not_mem_nil⟩

/-- Every executor's call meets `F`. -/
def CallsMeet (F : Task → Inputs → Prop) (s : State) : Action → Prop
  | .exec p answers => ∀ t xs, (s.procs p).Calls s.kanban answers t xs → F t xs
  | _ => True

theorem Traced.step {a : Action} (h : Traced D.platform src F s) (hans : Answered src s a)
    (hcall : CallsMeet F s a) : Traced D.platform src F (D.step a s) := by
  cases a with
  | manager => exact h.manager
  | exec p answers => exact h.exec hans hcall
  | crash p => exact h.crash p

/-- In a run whose calls meet `F`, everything is made by such calls. -/
theorem traced_of_meets {as : List Action} (hans : Meets D.step (Answered src) .init as)
    (hcalls : Meets D.step (CallsMeet F) .init as) :
    Traced D.platform src F (exec D.step .init as) :=
  (hans.and hcalls).invariant traced_init fun _ _ ha hs => hs.step ha.1 ha.2

end

/-! ## Outputs that fit their buffers -/

section

variable (P : Platform)

/-- The output of a task's call inside the enclave. -/
def Task.output : Task → Inputs → Option Bytes
  | crawl _ _ _, xs => crawlOutput P xs.values
  | index _ _ _, xs => indexOutput P xs.order xs.values
  | reduce _ _, ⟨[globalIndex, newIndex], order⟩ => mergeOutput order globalIndex newIndex
  | reduce _ _, _ => none

/-- The size of the output buffer of the role. -/
def Task.bufferSize : Task → Nat
  | crawl _ _ _ => outputMaxLength
  | index _ _ _ => indexOutputMaxLength
  | reduce _ _ => reducerOutputMaxLength

/-- The output is smaller than the buffer. -/
def Task.Fits (t : Task) (xs : Inputs) : Prop :=
  ∀ output, t.output P xs = some output → output.length < t.bufferSize

end

/-- `TAG` of the role's witnesses. -/
def Task.tag : Task → Bytes
  | crawl _ _ _ => ascii "STEEMIT CRAWLER"
  | index _ _ _ => ascii "STEEMIT INDEXER"
  | reduce _ _ => ascii "STEEMIT REDUCER"

/-- What `FUNC` of the role's witnesses is the hash of, without its NUL. -/
def Task.func : Task → Bytes
  | crawl _ _ _ => ascii "cralwer"
  | index _ _ _ => ascii "indexer"
  | reduce _ _ => ascii "reducer"

/-- What a call gets from its executor: as many inputs as the role gathers, and from the block
source C strings. -/
def Task.Admits : Task → List Bytes → Prop
  | crawl _ _ _, xs => xs.length = itemsBulkMax ∧ ∀ x ∈ xs, NulFree x
  | index _ _ _, xs => xs.length = indexBulkMax
  | reduce _ _, xs => xs.length = 2

/-- The inputs as the enclave has them, which it lists in the witness. -/
def Task.listed : Task → List Bytes → List Bytes
  | index _ _ _, xs => xs.map cString
  | _, xs => xs

section

variable {P : Platform} {src : Source} {F : Task → Inputs → Prop} {kb : Kanban} {t : Task}
  {xs : Inputs} {out : Output}

theorem exists_of_forall₂ {α β : Type} {r : α → β → Prop} {l : List α} {l' : List β}
    (h : List.Forall₂ r l l') {a : α} (ha : a ∈ l) : ∃ b ∈ l', r a b := by
  induction h with
  | nil => exact absurd ha List.not_mem_nil
  | @cons a' b l l' hab _ ih =>
      rcases List.mem_cons.1 ha with rfl | ha
      · exact ⟨b, List.mem_cons_self, hab⟩
      · obtain ⟨b', hb', hr⟩ := ih ha
        exact ⟨b', List.mem_cons_of_mem b hb', hr⟩

theorem Sourced.admits (hs : Sourced src kb t xs) : t.Admits xs.values := by
  cases t with
  | crawl e b i =>
      refine ⟨?_, fun x hx => ?_⟩
      · rw [← List.Forall₂.length_eq hs]
        rfl
      · obtain ⟨n, -, hn⟩ := exists_of_forall₂ (List.Forall₂.flip hs) hx
        exact src.nulFree hn
  | index e i pos => exact (List.Forall₂.length_eq hs).symm
  | reduce e i => exact (List.Forall₂.length_eq hs).symm

/-- What a crawler makes of its blocks always fits. -/
theorem Task.Admits.fits_crawl {e b : Int} {i : Nat} (h : (Task.crawl e b i).Admits xs.values) :
    (Task.crawl e b i).Fits P xs := fun _ houtput =>
  crawlOutput_length_lt h.2 (h.1.trans_le (by decide)) houtput

/-- The witness of a call lists the inputs and the output, which is also what is put if it fits. -/
theorem Sourced.call_eq_some (hs : Sourced src kb t xs) (h : t.call P xs = some out) :
    ∃ output, t.output P xs = some output ∧
      out.witness = createWitness P.crypto t.tag t.func (t.listed xs.values) output ∧
      (output.length < t.bufferSize → out.data = output) := by
  have hadmits := hs.admits
  cases t with
  | crawl e b i => exact crawlCall_eq_some hadmits.2 (by rw [hadmits.1]; decide) h
  | index e i pos =>
      have hlen : xs.values.length = indexBulkMax := hadmits
      obtain ⟨output, houtput, hwitness, hread⟩ :=
        indexCall_eq_some (by rw [hlen]; decide) (Task.indexCall_of_call h)
      exact ⟨output, houtput, hwitness, data_eq_of_lt hread⟩
  | reduce e i =>
      match xs, h with
      | ⟨[g, n], order⟩, h =>
          obtain ⟨output, houtput, hwitness, hread⟩ := mergeCall_eq_some h
          exact ⟨output, houtput, hwitness, data_eq_of_lt hread⟩

/-- The witness of an output that fits is filed under the hash of what is put. -/
theorem Made.witnessKey_eq (hF : ∀ t xs, F t xs → t.Fits P xs)
    (h : Made P src F kb t out) :
    witnessKey P.runtime out.witness = some (P.crypto.sha256 out.data) := by
  obtain ⟨xs, hFt, hs, hcall⟩ := h
  obtain ⟨output, houtput, hwitness, hdata⟩ := hs.call_eq_some hcall
  rw [hdata (hF t xs hFt output houtput), hwitness, witnessKey_createWitness]

end

end DeSearch
