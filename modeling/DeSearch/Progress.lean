import DeSearch.Provenance

/-!
# Executors left alone finish their shards

What an executor does when no other process acts in between: a crawler publishes one shard after
the other (`leads_crawlShards`), an indexer likewise (`leads_indexShard`), and the manager opens
the first epoch (`leads_boot`) and closes an epoch whose witnesses are all there (`leads_close`).
The results say both that the run exists under a condition on its steps and where it leads.
-/

namespace DeSearch

open Run

/-! ## The state after a step -/

/-- The state with another executor `p` and another store. -/
def State.upd (s : State) (p : Nat) (x : Executor) (kb : Kanban) : State :=
  { s with procs := Function.update s.procs p x, kanban := kb }

namespace State

variable (s : State) (p q : Nat) (x y : Executor) (kb kb' : Kanban)

@[simp] theorem upd_kanban : (s.upd p x kb).kanban = kb := rfl

@[simp] theorem upd_manager : (s.upd p x kb).manager = s.manager := rfl

@[simp] theorem upd_procs_self : (s.upd p x kb).procs p = x := Function.update_self _ _ _

@[simp] theorem upd_upd : (s.upd p x kb).upd p y kb' = s.upd p y kb' := by
  simp [upd]

theorem upd_idle_kanban {s : State} {p : Nat} (h : s.procs p = .idle) (kb : Kanban) :
    s.upd p .idle kb = { s with kanban := kb } := by
  rw [upd, ← h, Function.update_eq_self]

theorem upd_eq_self {s : State} {p : Nat} {x : Executor} (h : s.procs p = x) :
    s.upd p x s.kanban = s := by
  rw [upd, ← h, Function.update_eq_self]

end State

/-- A step of an executor that neither reads the block number nor gathers inputs meets the
condition, and so does a step of the manager. -/
structure Lenient (ok : State → Action → Prop) : Prop where
  manager : ∀ s, ok s .manager
  exec : ∀ s p, (∀ e, s.procs p ≠ .readBase e) → (∀ t got, s.procs p ≠ .gather t got) →
    ok s (.exec p (.plain []))

theorem Lenient.and {ok ok' : State → Action → Prop} (h : Lenient ok) (h' : Lenient ok') :
    Lenient fun s a => ok s a ∧ ok' s a where
  manager s := ⟨h.manager s, h'.manager s⟩
  exec s p hbase hgather := ⟨h.exec s p hbase hgather, h'.exec s p hbase hgather⟩

section

variable {src : Source} {F : Task → Inputs → Prop} {s : State} {p : Nat} {kb : Kanban}
  {e b : Int} {i pos : Nat} {got : List Bytes} {answers : Inputs}

theorem answered_of_ne_gather (h : ∀ t got, s.procs p ≠ .gather t got) :
    Answered src s (.exec p answers) :=
  fun _ _ _ _ hp => absurd hp (h _ _)

theorem answered_index : Answered src (s.upd p (.gather (.index e i pos) got) kb)
    (.exec p answers) := by
  intro e' b' i' got' hp
  rw [State.upd_procs_self] at hp
  cases hp

theorem answered_reduce : Answered src (s.upd p (.gather (.reduce e i) got) kb)
    (.exec p answers) := by
  intro e' b' i' got' hp
  rw [State.upd_procs_self] at hp
  cases hp

theorem answered_crawl (h : List.Forall₂ src.Answers (Task.crawl e b i).blocks answers.values) :
    Answered src (s.upd p (.gather (.crawl e b i) got) kb) (.exec p answers) := by
  intro e' b' i' got' hp
  rw [State.upd_procs_self] at hp
  cases hp
  exact h

theorem callsMeet_of_ne_gather (h : ∀ t got, s.procs p ≠ .gather t got) :
    CallsMeet F s (.exec p answers) :=
  fun _ _ ⟨_, hp, _⟩ => absurd hp (h _ _)

theorem callsMeet_gather {t : Task} (h : ∀ xs, F t xs) :
    CallsMeet F (s.upd p (.gather t got) kb) (.exec p answers) := by
  rintro t' xs ⟨got', hp, -⟩
  rw [State.upd_procs_self] at hp
  cases hp
  exact h xs

theorem callsMeet_crawl (h : F (.crawl e b i) answers) :
    CallsMeet F (s.upd p (.gather (.crawl e b i) got) kb) (.exec p answers) := by
  rintro t xs ⟨got', hp, ⟨-, rfl⟩ | ⟨k, v, hk, -⟩⟩
  · rw [State.upd_procs_self] at hp
    cases hp
    exact h
  · rw [State.upd_procs_self] at hp
    cases hp
    cases hk

/-- An indexer that takes its inputs one by one. -/
theorem callsMeet_index {v₀ v₁ v₂ v₃ : Bytes}
    (h : F (.index e i pos) ⟨[v₀, v₁, v₂, v₃], answers.order⟩)
    (h₃ : kb.get (.items (e - 1) (pos + 3)) = some v₃) {n : Nat} (hn : n < 4) :
    CallsMeet F (s.upd p (.gather (.index e i pos) ([v₀, v₁, v₂, v₃].take n)) kb)
      (.exec p answers) := by
  rintro t xs ⟨got', hp, hcall⟩
  rw [State.upd_procs_self] at hp
  cases hp
  have hlen : ([v₀, v₁, v₂, v₃].take n).length = n := by
    rw [List.length_take]
    exact min_eq_left (Nat.le_of_lt hn)
  rw [hlen] at hcall
  have hcount : (Task.index e i pos).inputs.length = 4 := by simp [Task.inputs, indexBulkMax]
  rcases hcall with ⟨hnone, -⟩ | ⟨k, v, hk, hv, hlast, rfl⟩
  · rw [List.getElem?_eq_none_iff] at hnone
    omega
  · obtain rfl : n = 3 := by omega
    obtain rfl : k = .items (e - 1) (pos + 3) := (Option.some.inj hk).symm
    rw [State.upd_kanban, h₃] at hv
    cases hv
    exact h

/-- A reducer that takes its two inputs. -/
theorem callsMeet_reduce {global new : Bytes} (h : F (.reduce e i) ⟨[global, new], answers.order⟩)
    (hnew : kb.get (.index e i) = some new) {n : Nat} (hn : n < 2) :
    CallsMeet F (s.upd p (.gather (.reduce e i) ([global, new].take n)) kb) (.exec p answers) := by
  rintro t xs ⟨got, hp, hcall⟩
  rw [State.upd_procs_self] at hp
  cases hp
  have hlen : ([global, new].take n).length = n := by
    rw [List.length_take]
    exact min_eq_left (Nat.le_of_lt hn)
  rw [hlen] at hcall
  rcases hcall with ⟨hnone, -⟩ | ⟨k, v, hk, hv, hlast, rfl⟩
  · rw [List.getElem?_eq_none_iff] at hnone
    exact absurd hnone (not_le.2 hn)
  · obtain rfl : n = 1 := by
      have : ¬n + 1 < 2 := hlast
      omega
    obtain rfl : k = .index e i := (Option.some.inj hk).symm
    rw [State.upd_kanban, hnew] at hv
    cases hv
    exact h

theorem lenient_answered (src : Source) : Lenient (Answered src) where
  manager _ := trivial
  exec _ _ _ hgather := answered_of_ne_gather hgather

theorem lenient_callsMeet (F : Task → Inputs → Prop) : Lenient (CallsMeet F) where
  manager _ := trivial
  exec _ _ _ hgather := callsMeet_of_ne_gather hgather

end

section

variable {D : Deployment} {ok : State → Action → Prop} {s : State} {p : Nat} {kb : Kanban}

theorem Deployment.step_exec {x x' : Executor} {kb' : Kanban} {answers : Inputs}
    (h : x.step D.platform (D.role p) answers kb = (x', kb')) :
    D.step (.exec p answers) (s.upd p x kb) = s.upd p x' kb' := by
  simp only [Deployment.step, State.upd_procs_self, State.upd_kanban, h]
  exact State.upd_upd s p x x' kb kb'

/-- A step that the condition does not look at. -/
theorem leads_step (hok : Lenient ok) {x x' : Executor} {kb' : Kanban} {as : List Action}
    {s' : State} (hbase : ∀ e, x ≠ .readBase e) (hgather : ∀ t got, x ≠ .gather t got)
    (h : x.step D.platform (D.role p) (.plain []) kb = (x', kb'))
    (h' : Leads D.step ok (s.upd p x' kb') as s') :
    Leads D.step ok (s.upd p x kb) (.exec p (.plain []) :: as) s' := by
  refine .cons (hok.exec _ _ ?_ ?_) (Deployment.step_exec h) h'
  · simpa using hbase
  · simpa using hgather

/-! ## Publishing -/

/-- The store after `o_put_key` and `o_append_witness`. -/
def Kanban.publish (kb : Kanban) (t : Task) (out : Output) (k : Bytes) : Kanban :=
  ((kb.set t.key out.data).hset k out.witness).sadd t.epoch k

theorem leads_put (hok : Lenient ok) (kb : Kanban) (t : Task) (out : Output) :
    Leads D.step ok (s.upd p (.put t out) kb) [.exec p (.plain [])]
      (s.upd p (.hset t out) (kb.set t.key out.data)) :=
  leads_step hok (by simp) (by simp) rfl .nil

theorem leads_publish (hok : Lenient ok) (kb : Kanban) {t : Task} {out : Output} {k : Bytes}
    (hk : witnessKey D.platform.runtime out.witness = some k) :
    Leads D.step ok (s.upd p (.put t out) kb) (List.replicate 3 (.exec p (.plain [])))
      (s.upd p (.appended t out) (kb.publish t out k)) := by
  have hset : (Executor.hset t out).step D.platform (D.role p) (.plain []) (kb.set t.key out.data) =
      (.sadd t out k, (kb.set t.key out.data).hset k out.witness) := by
    rw [Executor.step, hk]
  refine leads_step hok (by simp) (by simp) rfl (leads_step hok (by simp) (by simp) hset ?_)
  exact leads_step hok (by simp) (by simp) rfl .nil

theorem Executor.step_check_absent {P : Platform} {role : Role} {answers : Inputs} {t : Task}
    (h : kb.get t.key = none) :
    (Executor.check t).step P role answers kb = (.gather t [], kb) := by
  rw [Executor.step, h]

theorem Executor.step_check_present {P : Platform} {role : Role} {answers : Inputs} {t : Task}
    {v : Bytes} (h : kb.get t.key = some v) :
    (Executor.check t).step P role answers kb = (.enter t.skip, kb) := by
  rw [Executor.step, h]

theorem Executor.enter_of_le {t : Task} (h : t.shard ≤ t.poolMax) : enter t = check t := if_pos h

/-! ## Crawlers -/

/-- The beginning of a crawler's turn: it reads the epoch and the block number. -/
theorem leads_doCrawl (hok : Lenient ok) {e b : Int} (hrole : D.role p = .crawler)
    (he : getEpochInt D.platform.runtime D.platform.crypto kb = some e) (hne : e ≠ -1)
    (hb : (kb.get .blockId).bind stoi = some b)
    (hbase : ok (s.upd p (.readBase e) kb) (.exec p (.plain []))) :
    Leads D.step ok (s.upd p .idle kb) (List.replicate 2 (.exec p (.plain [])))
      (s.upd p (.enter (.crawl e b 1)) kb) := by
  have hstart : Executor.idle.step D.platform (D.role p) (.plain []) kb = (.readBase e, kb) := by
    rw [Executor.step, he, hrole]
    simp only [Executor.start, Executor.doCrawl, if_neg hne]
  have hread : (Executor.readBase e).step D.platform (D.role p) (.plain []) kb =
      (.enter (.crawl e b 1), kb) := by
    rw [Executor.step, hb]
  exact leads_step hok (by simp) (by simp) hstart (.cons hbase (Deployment.step_exec hread) .nil)

/-- A crawler and a shard that is missing, up to the output. -/
theorem leads_download (hok : Lenient ok) {e b : Int} {i : Nat} {xs : List Bytes} {out : Output}
    (hi : i ≤ itemsPoolMax) (habsent : kb.get (.items e i) = none)
    (hcall : crawlCall D.platform xs = some out)
    (hdownload : ok (s.upd p (.gather (.crawl e b i) []) kb) (.exec p (.plain xs))) :
    Leads D.step ok (s.upd p (.enter (.crawl e b i)) kb) [.exec p (.plain []), .exec p (.plain xs)]
      (s.upd p (.put (.crawl e b i) out) kb) := by
  have hgather : (Executor.gather (.crawl e b i) []).step D.platform (D.role p) (.plain xs) kb =
      (.put (.crawl e b i) out, kb) := by
    change (Executor.call D.platform (.crawl e b i) (.plain xs), kb) = _
    rw [Executor.call, show (Task.crawl e b i).call D.platform (.plain xs) = some out from hcall]
  rw [Executor.enter_of_le (t := .crawl e b i) hi]
  exact leads_step hok (by simp) (by simp) (Executor.step_check_absent (t := .crawl e b i) habsent)
    (.cons hdownload (Deployment.step_exec hgather) .nil)

theorem leads_crawlShard (hok : Lenient ok) {e b : Int} {i : Nat} {xs : List Bytes} {out : Output}
    {k : Bytes} (hi : i ≤ itemsPoolMax) (habsent : kb.get (.items e i) = none)
    (hcall : crawlCall D.platform xs = some out)
    (hk : witnessKey D.platform.runtime out.witness = some k)
    (hdownload : ok (s.upd p (.gather (.crawl e b i) []) kb) (.exec p (.plain xs))) :
    Leads D.step ok (s.upd p (.enter (.crawl e b i)) kb)
      ([.exec p (.plain []), .exec p (.plain xs)] ++ List.replicate 3 (.exec p (.plain [])))
      (s.upd p (.enter (.crawl e b (i + 1))) (kb.publish (.crawl e b i) out k)) :=
  (leads_download hok hi habsent hcall hdownload).append (leads_publish hok kb hk)

/-- The actions of a crawler that goes through `n` missing shards from shard `i` on, with the
answers it gets for each. -/
def crawlActions (p : Nat) (answers : Nat → List Bytes) : Nat → Nat → List Action
  | _, 0 => []
  | i, n + 1 => [.exec p (.plain []), .exec p (.plain (answers i))] ++
      List.replicate 3 (.exec p (.plain [])) ++
      crawlActions p answers (i + 1) n

theorem exists_exec_of_mem_crawlActions {answers : Nat → List Bytes} {a : Action} (i n : Nat)
    (h : a ∈ crawlActions p answers i n) : ∃ xs, a = .exec p xs := by
  induction n generalizing i with
  | zero => exact absurd h List.not_mem_nil
  | succ n ih =>
      rw [crawlActions, List.mem_append] at h
      rcases h with h | h
      · simp only [List.cons_append, List.nil_append, List.mem_cons, List.mem_replicate] at h
        rcases h with rfl | rfl | ⟨-, rfl⟩ <;> exact ⟨_, rfl⟩
      · exact ih (i + 1) h

/-- The store after them. -/
def Kanban.crawled (kb : Kanban) (e b : Int) (outs : Nat → Output) (keys : Nat → Bytes) :
    Nat → Nat → Kanban
  | _, 0 => kb
  | i, n + 1 => (kb.publish (.crawl e b i) (outs i) (keys i)).crawled e b outs keys (i + 1) n

theorem Kanban.get_publish (kb : Kanban) (t : Task) (out : Output) (k : Bytes) (k' : Key) :
    (kb.publish t out k).get k' = if k' = t.key then some out.data else kb.get k' := by
  rw [publish, get_sadd, get_hset, get_set]

/-- A crawler left alone publishes every missing shard. -/
theorem leads_crawlShards (hok : Lenient ok) {e b : Int} {answers : Nat → List Bytes}
    {outs : Nat → Output} {keys : Nat → Bytes}
    (hcall : ∀ i, crawlCall D.platform (answers i) = some (outs i))
    (hk : ∀ i, witnessKey D.platform.runtime (outs i).witness = some (keys i))
    (hdownload : ∀ i kb, ok (s.upd p (.gather (.crawl e b i) []) kb) (.exec p (.plain (answers i))))
    (n i : Nat) (kb : Kanban) (hi : i + n ≤ itemsPoolMax + 1)
    (habsent : ∀ j, i ≤ j → j < i + n → kb.get (.items e j) = none) :
    Leads D.step ok (s.upd p (.enter (.crawl e b i)) kb) (crawlActions p answers i n)
      (s.upd p (.enter (.crawl e b (i + n))) (kb.crawled e b outs keys i n)) := by
  induction n generalizing i kb with
  | zero => exact .nil
  | succ n ih =>
      have hshard := leads_crawlShard (s := s) (p := p) (b := b) hok (i := i) (by omega)
        (habsent i le_rfl (by omega)) (hcall i) (hk i) (hdownload i kb)
      have hrest := ih (i + 1) (kb.publish (.crawl e b i) (outs i) (keys i)) (by omega) ?_
      · rw [show i + (n + 1) = i + 1 + n by omega]
        exact hshard.append hrest
      · intro j hj hj'
        rw [Kanban.get_publish, if_neg, habsent j (by omega) (by omega)]
        intro heq
        cases heq
        omega

/-! ## Indexers -/

/-- The beginning of an indexer's turn. -/
theorem leads_doIndex (hok : Lenient ok) {e : Int} (hrole : D.role p = .indexer)
    (he : getEpochInt D.platform.runtime D.platform.crypto kb = some e) (h2 : 2 ≤ e) :
    Leads D.step ok (s.upd p .idle kb) [.exec p (.plain [])]
      (s.upd p (.enter (.index e 1 1)) kb) := by
  have hstart : Executor.idle.step D.platform (D.role p) (.plain []) kb =
      (.enter (.index e 1 1), kb) := by
    rw [Executor.step, he, hrole]
    simp only [Executor.start, Executor.doIndex, if_neg (show ¬e = -1 by omega),
      if_neg (show ¬e ≤ 1 by omega)]
  exact leads_step hok (by simp) (by simp) hstart .nil

/-- An indexer skips a shard that is there. -/
theorem leads_skip (hok : Lenient ok) {t : Task} {v : Bytes} (hi : t.shard ≤ t.poolMax)
    (h : kb.get t.key = some v) :
    Leads D.step ok (s.upd p (.enter t) kb) [.exec p (.plain [])] (s.upd p (.enter t.skip) kb) := by
  rw [Executor.enter_of_le hi]
  exact leads_step hok (by simp) (by simp) (Executor.step_check_present h) .nil

/-- An indexer and a shard that is missing, up to the output. -/
theorem leads_gather (hok : Lenient ok) {e : Int} {i pos : Nat} {v₀ v₁ v₂ v₃ : Bytes}
    {out : Output} (hi : i ≤ indexPoolMax) (habsent : kb.get (.index e i) = none)
    (h₀ : kb.get (.items (e - 1) pos) = some v₀)
    (h₁ : kb.get (.items (e - 1) (pos + 1)) = some v₁)
    (h₂ : kb.get (.items (e - 1) (pos + 2)) = some v₂)
    (h₃ : kb.get (.items (e - 1) (pos + 3)) = some v₃)
    (hspare : spareBehind D.platform.runtime [v₀, v₁, v₂, v₃])
    (hcall : indexCall D.platform insertionOrder [v₀, v₁, v₂, v₃] = some out)
    (hget : ∀ n < 4, ok (s.upd p (.gather (.index e i pos) ([v₀, v₁, v₂, v₃].take n)) kb)
      (.exec p (.plain []))) :
    Leads D.step ok (s.upd p (.enter (.index e i pos)) kb) (List.replicate 5 (.exec p (.plain [])))
      (s.upd p (.put (.index e i pos) out) kb) := by
  have htake : ∀ (got : List Bytes) (k : Key) (v : Bytes),
      (Task.index e i pos).inputs[got.length]? = some k → kb.get k = some v →
      (Executor.gather (.index e i pos) got).step D.platform (D.role p) (.plain []) kb =
        if got.length + 1 < 4 then (.gather (.index e i pos) (got ++ [v]), kb)
        else (.call D.platform (.index e i pos) (.plain (got ++ [v])), kb) := by
    intro got k v hk hv
    rw [Executor.step, hk]
    simp only [hv]
    rfl
  have hdone : Executor.call D.platform (.index e i pos) (.plain [v₀, v₁, v₂, v₃]) =
      .put (.index e i pos) out := by
    rw [Executor.call, Inputs.plain, Task.call_index hspare, hcall]
  rw [Executor.enter_of_le (t := .index e i pos) hi]
  refine leads_step hok (by simp) (by simp)
    (Executor.step_check_absent (t := .index e i pos) habsent) ?_
  refine .cons (hget 0 (by decide)) (Deployment.step_exec (htake [] _ _ rfl h₀)) ?_
  refine .cons (hget 1 (by decide)) (Deployment.step_exec (htake [v₀] _ _ rfl h₁)) ?_
  refine .cons (hget 2 (by decide)) (Deployment.step_exec (htake [v₀, v₁] _ _ rfl h₂)) ?_
  refine .cons (hget 3 (by decide)) (Deployment.step_exec (htake [v₀, v₁, v₂] _ _ rfl h₃)) ?_
  change Leads D.step ok
    (s.upd p (.call D.platform (.index e i pos) (.plain [v₀, v₁, v₂, v₃])) kb) [] _
  rw [hdone]
  exact .nil

/-- The store after an indexer of epoch 2 has done a shard. -/
def Kanban.publishFirst (kb : Kanban) (i pos : Nat) (out : Output) (k : Bytes) : Kanban :=
  (kb.publish (.index 2 i pos) out k).set (.globalIndex 2 i) out.data

theorem leads_indexShard (hok : Lenient ok) {i pos : Nat} {v₀ v₁ v₂ v₃ : Bytes}
    {out : Output} {k : Bytes} (hi : i ≤ indexPoolMax) (habsent : kb.get (.index 2 i) = none)
    (h₀ : kb.get (.items 1 pos) = some v₀) (h₁ : kb.get (.items 1 (pos + 1)) = some v₁)
    (h₂ : kb.get (.items 1 (pos + 2)) = some v₂) (h₃ : kb.get (.items 1 (pos + 3)) = some v₃)
    (hspare : spareBehind D.platform.runtime [v₀, v₁, v₂, v₃])
    (hcall : indexCall D.platform insertionOrder [v₀, v₁, v₂, v₃] = some out)
    (hk : witnessKey D.platform.runtime out.witness = some k)
    (hget : ∀ n < 4, ok (s.upd p (.gather (.index 2 i pos) ([v₀, v₁, v₂, v₃].take n)) kb)
      (.exec p (.plain []))) :
    Leads D.step ok (s.upd p (.enter (.index 2 i pos)) kb) (List.replicate 9 (.exec p (.plain [])))
      (s.upd p (.enter (.index 2 (i + 1) (pos + indexBulkMax))) (kb.publishFirst i pos out k)) := by
  have hwork := (leads_gather hok hi habsent h₀ h₁ h₂ h₃ hspare hcall hget).append
    (leads_publish (s := s) (p := p) (t := .index 2 i pos) hok kb hk)
  exact hwork.append (leads_step hok nofun nofun rfl .nil)

/-- A reducer that starts its turn with the first shard, up to the output. -/
theorem leads_reduceShard (hok : Lenient ok) {e : Int} {global new : Bytes} {out : Output}
    (hrole : D.role p = .reducer)
    (he : getEpochInt D.platform.runtime D.platform.crypto kb = some e) (h3 : 3 ≤ e)
    (habsent : kb.get (.globalIndex e 1) = none)
    (hglobal : kb.get (.globalIndex (e - 1) 1) = some global)
    (hnew : kb.get (.index e 1) = some new)
    (hcall : mergeCall D.platform insertionOrder global new = some out)
    (hget : ∀ n < 2, ok (s.upd p (.gather (.reduce e 1) ([global, new].take n)) kb)
      (.exec p (.plain []))) :
    Leads D.step ok (s.upd p .idle kb) (List.replicate 4 (.exec p (.plain [])))
      (s.upd p (.put (.reduce e 1) out) kb) := by
  have hstart : Executor.idle.step D.platform (D.role p) (.plain []) kb =
      (.check (.reduce e 1), kb) := by
    rw [Executor.step, he, hrole]
    simp only [Executor.start, Executor.doReduce, if_neg (show ¬e = -1 by omega),
      if_neg (show ¬e ≤ 2 by omega)]
    rfl
  have htake : (Executor.gather (.reduce e 1) []).step D.platform (D.role p) (.plain []) kb =
      (.gather (.reduce e 1) [global], kb) := by
    rw [Executor.step, show (Task.reduce e 1).inputs[([] : List Bytes).length]? =
      some (.globalIndex (e - 1) 1) from rfl]
    simp only [hglobal]
    rfl
  have hlast : (Executor.gather (.reduce e 1) [global]).step D.platform (D.role p) (.plain []) kb =
      (.put (.reduce e 1) out, kb) := by
    rw [Executor.step, show (Task.reduce e 1).inputs[[global].length]? = some (.index e 1) from rfl]
    simp only [hnew]
    change (Executor.call D.platform (.reduce e 1) (.plain [global, new]), kb) = _
    rw [Executor.call,
      show (Task.reduce e 1).call D.platform (.plain [global, new]) = some out from hcall]
  refine leads_step hok (by simp) (by simp) hstart ?_
  refine leads_step hok (by simp) (by simp)
    (Executor.step_check_absent (t := .reduce e 1) habsent) ?_
  refine .cons (hget 0 (by decide)) (Deployment.step_exec htake) ?_
  exact .cons (hget 1 (by decide)) (Deployment.step_exec hlast) .nil

/-! ## The manager -/

/-- The state with another manager and another store. -/
def State.mgr (s : State) (m : Manager) (kb : Kanban) : State :=
  { s with manager := m, kanban := kb }

theorem Deployment.step_mgr {m m' : Manager} {kb' : Kanban}
    (h : m.step D.platform D.sort kb = (m', kb')) :
    D.step .manager (s.mgr m kb) = s.mgr m' kb' := by
  simp only [Deployment.step, State.mgr, h]

theorem leads_manager (hok : Lenient ok) {m m' : Manager} {kb' : Kanban} {as : List Action}
    {s' : State} (h : m.step D.platform D.sort kb = (m', kb'))
    (h' : Leads D.step ok (s.mgr m' kb') as s') :
    Leads D.step ok (s.mgr m kb) (.manager :: as) s' :=
  .cons (hok.manager _) (D.step_mgr h) h'

section

variable {P : Platform} {e b : Int}

theorem Manager.readInt_epochPacket (he : IsInt e)
    (h : kb.get .epoch = some (epochPacket P.crypto e)) (next : Int → ManagerAt) :
    Manager.readInt P kb next = next e := by
  rw [Manager.readInt, getEpochInt_epochPacket he h]

theorem Manager.testInit_epochPacket (he : e ≠ -1)
    (h : kb.get .epoch = some (epochPacket P.crypto e)) (missing found : ManagerAt) :
    Manager.testInit P kb missing found = found := by
  have hne : toDecimal e ≠ ascii "-1" := fun heq =>
    he (toDecimal_injective (heq.trans (by decide)))
  rw [Manager.testInit, getEpoch_epochPacket h]
  simp only [if_neg hne]

theorem Manager.testInit_none (h : kb.get .epoch = none) (missing found : ManagerAt) :
    Manager.testInit P kb missing found = missing := by
  rw [Manager.testInit, getEpoch, h]
  rfl

theorem Manager.step_testEpoch_none {L : LastCharSort} (h : kb.get .epoch = none) :
    (⟨.testEpoch, b⟩ : Manager).step P L kb = (⟨.initEpoch, b⟩, kb) := by
  simp only [Manager.step, Manager.testInit_none h]

theorem Manager.step_initEpoch_none {L : LastCharSort} (h : kb.get .epoch = none) :
    (⟨.initEpoch, b⟩ : Manager).step P L kb = (⟨.setFirst, b⟩, kb) := by
  simp only [Manager.step, Manager.testInit_none h]

theorem Manager.step_testEpoch {L : LastCharSort} (he : e ≠ -1)
    (h : kb.get .epoch = some (epochPacket P.crypto e)) :
    (⟨.testEpoch, b⟩ : Manager).step P L kb = (⟨.readEpoch, b⟩, kb) := by
  simp only [Manager.step, Manager.testInit_epochPacket he h]

theorem Manager.step_readEpoch {L : LastCharSort} (he : IsInt e)
    (h : kb.get .epoch = some (epochPacket P.crypto e)) :
    (⟨.readEpoch, b⟩ : Manager).step P L kb = (⟨.readEpochInt e, b⟩, kb) := by
  simp only [Manager.step, Manager.readInt_epochPacket he h]

theorem Manager.step_readEpochInt {L : LastCharSort} {c : Int} (he : IsInt e)
    (h : kb.get .epoch = some (epochPacket P.crypto e)) :
    (⟨.readEpochInt c, b⟩ : Manager).step P L kb = (⟨.count c e, b⟩, kb) := by
  simp only [Manager.step, Manager.readInt_epochPacket he h]

theorem Manager.step_count {L : LastCharSort} {c : Int}
    (h : expectedKeySize e ≤ (stdSet (kb.smembers c)).length) :
    (⟨.count c e, b⟩ : Manager).step P L kb = (⟨.commit c (stdSet (kb.smembers c)), b⟩, kb) := by
  simp only [Manager.step, if_pos h]

theorem Manager.step_reread {L : LastCharSort} {c : Int} (he : IsInt e)
    (h : kb.get .epoch = some (epochPacket P.crypto e)) :
    (⟨.reread c, b⟩ : Manager).step P L kb = (⟨.increment c (wrapInt (e + 1)), b⟩, kb) := by
  simp only [Manager.step, Manager.readInt_epochPacket he h]

end

/-- From the test for an epoch to the loop that counts witness keys. -/
theorem leads_count (hok : Lenient ok) {e b : Int} (he : IsInt e)
    (h : kb.get .epoch = some (epochPacket D.platform.crypto e)) :
    Leads D.step ok (s.mgr ⟨.readEpoch, b⟩ kb) (List.replicate 2 .manager)
      (s.mgr ⟨.count e e, b⟩ kb) := by
  exact leads_manager hok (Manager.step_readEpoch he h)
    (leads_manager hok (Manager.step_readEpochInt he h) .nil)

/-- The store in which the first epoch is open. -/
def Kanban.booted (C : Crypto) : Kanban :=
  ((Kanban.empty.set .shardingMax (decimal indexPoolMax)).set .blockId
    (toDecimal startSteemBlockId)).set .epoch (epochPacket C 1)

/-- The block number of the next epoch. -/
def nextBlockId (b : Int) : Int := wrapInt (b + itemsBulkMax * itemsPoolMax)

/-- A manager started on an empty Kanban opens the first epoch. -/
theorem leads_boot (hok : Lenient ok) :
    Leads D.step ok .init (List.replicate 7 .manager)
      (State.init.mgr ⟨.count 1 1, nextBlockId startSteemBlockId⟩
        (.booted D.platform.crypto)) := by
  have hopen : Leads D.step ok .init (List.replicate 5 .manager)
      (State.init.mgr ⟨.readEpoch, nextBlockId startSteemBlockId⟩
        (.booted D.platform.crypto)) := by
    change Leads D.step ok (State.init.mgr ⟨.boot, startSteemBlockId⟩ .empty) _ _
    refine leads_manager hok rfl (leads_manager hok rfl ?_)
    refine leads_manager hok (Manager.step_testEpoch_none rfl) ?_
    exact leads_manager hok (Manager.step_initEpoch_none rfl) (leads_manager hok rfl .nil)
  exact hopen.append (leads_count hok (by decide) (Kanban.get_set_self _ _ _))

/-- The store after an epoch was closed. -/
def Kanban.closed (kb : Kanban) (C : Crypto) (L : LastCharSort) (e : Int) : Kanban :=
  (kb.set (.rootHash e) (rootHashOf C L (kb.smembers e))).set .epoch
    (epochPacket C (wrapInt (e + 1)))

/-- The manager commits the keys of an epoch once there are enough of them. -/
theorem leads_commit (hok : Lenient ok) {e b : Int}
    (hcount : expectedKeySize e ≤ (stdSet (kb.smembers e)).length) :
    Leads D.step ok (s.mgr ⟨.count e e, b⟩ kb) (List.replicate 2 .manager)
      (s.mgr ⟨.reread e, b⟩ (kb.set (.rootHash e)
        (rootHashOf D.platform.crypto D.sort (kb.smembers e)))) := by
  exact leads_manager hok (Manager.step_count hcount) (leads_manager hok rfl .nil)

/-- It then reads the epoch again. -/
theorem leads_reread (hok : Lenient ok) {e b : Int} (he : IsInt e)
    (h : kb.get .epoch = some (epochPacket D.platform.crypto e))
    (hcount : expectedKeySize e ≤ (stdSet (kb.smembers e)).length) :
    Leads D.step ok (s.mgr ⟨.count e e, b⟩ kb) (List.replicate 3 .manager)
      (s.mgr ⟨.increment e (wrapInt (e + 1)), b⟩ (kb.set (.rootHash e)
        (rootHashOf D.platform.crypto D.sort (kb.smembers e)))) := by
  have hepoch : (kb.set (.rootHash e) (rootHashOf D.platform.crypto D.sort (kb.smembers e))).get
      .epoch = some (epochPacket D.platform.crypto e) :=
    (Kanban.get_set_of_ne _ (by simp) _).trans h
  exact (leads_commit hok hcount).append (leads_manager hok (Manager.step_reread he hepoch) .nil)

/-- The manager closes an epoch once there are enough witness keys. -/
theorem leads_close (hok : Lenient ok) {e b : Int} (he : IsInt e)
    (h : kb.get .epoch = some (epochPacket D.platform.crypto e))
    (hcount : expectedKeySize e ≤ (stdSet (kb.smembers e)).length) :
    Leads D.step ok (s.mgr ⟨.count e e, b⟩ kb) (List.replicate 4 .manager)
      (s.mgr ⟨.openEpoch, b⟩ (kb.closed D.platform.crypto D.sort e)) :=
  (leads_reread hok he h hcount).append (leads_manager hok rfl .nil)

/-- The manager opens the epoch that it closed the last one with. -/
theorem leads_open (hok : Lenient ok) {e b : Int} (he : IsInt e) (hne : e ≠ -1)
    (h : kb.get .epoch = some (epochPacket D.platform.crypto e)) :
    Leads D.step ok (s.mgr ⟨.openEpoch, b⟩ kb) (List.replicate 4 .manager)
      (s.mgr ⟨.count e e, nextBlockId b⟩ (kb.set .blockId (toDecimal b))) := by
  have hepoch : (kb.set .blockId (toDecimal b)).get .epoch =
      some (epochPacket D.platform.crypto e) := (Kanban.get_set_of_ne _ (by simp) _).trans h
  exact leads_manager hok rfl (leads_manager hok (Manager.step_testEpoch hne hepoch)
    (leads_count hok he hepoch))

end

end DeSearch
