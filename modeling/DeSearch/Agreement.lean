import DeSearch.BlockRange

/-!
# Replicas agree

`o_check_key` and `o_put_key` are two steps, so several replicas may publish one shard. That does
no harm as long as they publish the same value. They do if every crawler reads the block number of
its own epoch, no indexer builds a shard after one that it found there, calls on the same inputs
enumerate their hash maps in the same order, and the block source answers the same request the same
way (`Orderly`): then the key of a shard determines the task that makes it
(`Task.Canonical.eq_of_key_eq`), by induction over the epochs the inputs of that task, and so the
value (`Traced.made_unique`).

So a value never changes (`shard_value_stable`). A crawler that read the block number of another
epoch overwrites a value that others have read (`stale_crawler_overwrites`).
-/

namespace DeSearch

open Run

/-! ## The task behind a key -/

/-- The block source answers the same request the same way. -/
def Source.Deterministic (src : Source) : Prop :=
  ∀ n x y, src.Answers n x → src.Answers n y → x = y

/-- The loop variables of an executor that does its shard as it should. -/
def Task.Canonical (t : Task) : Prop := t.Regular (fun _ => True) ∧ t.CursorAligned

/-- The hash maps of a call are enumerated in this order, which only depends on the call: the
replicas run the same build, and earlier calls leave no trace. -/
def OrderedBy (ord : Task → List Bytes → HashOrder) (t : Task) (xs : Inputs) : Prop :=
  xs.order = ord t xs.values

/-- Every crawler reads the block number in the round of its epoch, and every call enumerates its
hash maps in the order that belongs to it. -/
def Steady (src : Source) (ord : Task → List Bytes → HashOrder) (s : State) (a : Action) : Prop :=
  Answered src s a ∧ BaseCurrent (fun _ => True) s a ∧ CallsMeet (OrderedBy ord) s a

/-- And no indexer builds a shard with its cursor out of place. -/
def Orderly (src : Source) (ord : Task → List Bytes → HashOrder) (s : State) (a : Action) : Prop :=
  Steady src ord s a ∧ CallsMeet (fun t _ => t.CursorAligned) s a

theorem meets_orderly_iff {D : Deployment} {src : Source} {ord : Task → List Bytes → HashOrder}
    {as : List Action} : Meets D.step (Orderly src ord) .init as ↔
      Meets D.step (Steady src ord) .init as ∧ D.BuiltInOrder as := by
  rw [builtInOrder_iff]
  exact ⟨fun h => ⟨h.mono fun _ _ ha => ha.1, h.mono fun _ _ ha => ha.2⟩, fun h => h.1.and h.2⟩

theorem Task.Canonical.eq_of_key_eq {t t' : Task} (h : t.Canonical) (h' : t'.Canonical)
    (hkey : t.key = t'.key) : t = t' := by
  cases t <;> cases t' <;> cases hkey
  · rw [h.1.1, h'.1.1]
  · rw [h.2, h'.2]
  · rfl

theorem Task.isData_of_mem_inputs {t : Task} {k : Key} (hk : k ∈ t.inputs) : k.isData := by
  cases t with
  | crawl e b i => exact absurd hk List.not_mem_nil
  | index e i pos =>
      obtain ⟨j, -, rfl⟩ := List.mem_map.1 hk
      rfl
  | reduce e i =>
      rcases List.mem_pair.1 hk with rfl | rfl <;> rfl

theorem eq_of_forall₂ {α β : Type} {R : α → β → Prop} {l : List α} {xs ys : List β}
    (hR : ∀ a ∈ l, ∀ x y, R a x → R a y → x = y) (hx : List.Forall₂ R l xs)
    (hy : List.Forall₂ R l ys) : xs = ys := by
  induction hx generalizing ys with
  | nil =>
      cases hy
      rfl
  | cons ha _ ih =>
      cases hy with
      | cons ha' hrest =>
          rw [List.forall_mem_cons] at hR
          rw [hR.1 _ _ ha ha', ih hR.2 hrest]

/-! ## The value behind a key -/

/-- All values ever stored under the key are the same. -/
def Kanban.Agrees (kb : Kanban) (k : Key) : Prop :=
  ∀ v w, kb.Stored k v → kb.Stored k w → v = w

section

variable {P : Platform} {src : Source} {F : Task → Inputs → Prop} {s : State}
  {t t' : Task} {out out' : Output} {ord : Task → List Bytes → HashOrder}

theorem Made.unique (hsrc : src.Deterministic) (hord : ∀ t xs, F t xs → OrderedBy ord t xs)
    {kb : Kanban} (h : Made P src F kb t out) (h' : Made P src F kb t out')
    (hin : ∀ k ∈ t.inputs, kb.Agrees k) : out = out' := by
  obtain ⟨xs, hx, hs, hcall⟩ := h
  obtain ⟨ys, hy, hs', hcall'⟩ := h'
  have hvalues : xs.values = ys.values := by
    cases t with
    | crawl e b i => exact eq_of_forall₂ (fun n _ => hsrc n) hs hs'
    | index e i pos => exact eq_of_forall₂ hin hs hs'
    | reduce e i => exact eq_of_forall₂ hin hs hs'
  have horder : xs.order = ys.order := by rw [hord t xs hx, hord t ys hy, hvalues]
  obtain rfl : xs = ys := by
    cases xs
    cases ys
    cases hvalues
    cases horder
    rfl
  exact Option.some.inj (hcall.symm.trans hcall')

theorem Made.canonical (hF : ∀ t xs, F t xs → t.Canonical) {kb : Kanban}
    (h : Made P src F kb t out) : t.Canonical := by
  obtain ⟨xs, hFt, -⟩ := h
  exact hF t xs hFt

variable (hsrc : src.Deterministic) (hF : ∀ t xs, F t xs → t.Canonical)
  (hord : ∀ t xs, F t xs → OrderedBy ord t xs) (h : Traced P src F s)

include hF h

/-- A global index is the copy of an index of epoch 2, or a merge in a later epoch. -/
theorem Traced.made_globalIndex {e : Int} {i : Nat} {v : Bytes}
    (hv : s.kanban.Stored (.globalIndex e i) v) :
    (e = 2 ∧ ∃ pos out, Made P src F s.kanban (.index 2 i pos) out ∧ out.data = v) ∨
      3 ≤ e ∧ ∃ out, Made P src F s.kanban (.reduce e i) out ∧ out.data = v := by
  obtain ⟨t, out, hm, hdata, hkey | ⟨i', pos, rfl, hkey⟩⟩ := h.data _ v hv rfl
  · cases t with
    | reduce e' i' =>
        cases hkey
        exact .inr ⟨(hm.canonical hF).1.1, out, hm, hdata⟩
    | _ => cases hkey
  · cases hkey
    exact .inl ⟨rfl, pos, out, hm, hdata⟩

include hsrc hord

theorem Traced.agrees_items (e : Int) (i : Nat) : s.kanban.Agrees (.items e i) := by
  intro v w hv hw
  obtain ⟨t, out, hm, rfl, hkey | ⟨_, _, -, hkey⟩⟩ := h.data _ v hv rfl
  · obtain ⟨t', out', hm', rfl, hkey' | ⟨_, _, -, hkey'⟩⟩ := h.data _ w hw rfl
    · obtain rfl := (hm.canonical hF).eq_of_key_eq (hm'.canonical hF) (hkey.symm.trans hkey')
      rw [hm.unique hsrc hord hm' ?_]
      cases t with
      | crawl => exact fun k hk => absurd hk List.not_mem_nil
      | _ => cases hkey
    · cases hkey'
  · cases hkey

/-- Two calls for one index shard have the same output. -/
theorem Traced.made_index_unique {e : Int} {i pos pos' : Nat}
    (hm : Made P src F s.kanban (.index e i pos) out)
    (hm' : Made P src F s.kanban (.index e i pos') out') : out = out' := by
  have heq := (hm.canonical hF).eq_of_key_eq (hm'.canonical hF) rfl
  rw [← heq] at hm'
  refine hm.unique hsrc hord hm' fun k hk => ?_
  obtain ⟨j, -, rfl⟩ := List.mem_map.1 hk
  exact h.agrees_items hsrc hF hord _ _

theorem Traced.agrees_index (e : Int) (i : Nat) : s.kanban.Agrees (.index e i) := by
  have hmade : ∀ v, s.kanban.Stored (.index e i) v →
      ∃ pos out, Made P src F s.kanban (.index e i pos) out ∧ out.data = v := by
    intro v hv
    obtain ⟨t, out, hm, hdata, hkey | ⟨_, _, -, hkey⟩⟩ := h.data _ v hv rfl
    · cases t with
      | index e' i' pos =>
          cases hkey
          exact ⟨pos, out, hm, hdata⟩
      | _ => cases hkey
    · cases hkey
  intro v w hv hw
  obtain ⟨pos, out, hm, rfl⟩ := hmade v hv
  obtain ⟨pos', out', hm', rfl⟩ := hmade w hw
  rw [h.made_index_unique hsrc hF hord hm hm']

theorem Traced.agrees_globalIndex (e : Int) (i : Nat) : s.kanban.Agrees (.globalIndex e i) := by
  -- by induction on the number of merges behind the key
  suffices hn : ∀ n : Nat, s.kanban.Agrees (.globalIndex (n + 2) i) by
    intro v w hv hw
    have h2 : 2 ≤ e := by
      rcases h.made_globalIndex hF hv with ⟨rfl, -⟩ | ⟨h3, -⟩ <;> omega
    have := hn (e - 2).toNat
    rw [show ((e - 2).toNat : Int) + 2 = e by omega] at this
    exact this v w hv hw
  intro n
  induction n with
  | zero =>
      intro v w hv hw
      rcases h.made_globalIndex hF hv with ⟨-, pos, out, hm, rfl⟩ | ⟨h3, -⟩
      · rcases h.made_globalIndex hF hw with ⟨-, pos', out', hm', rfl⟩ | ⟨h3, -⟩
        · rw [h.made_index_unique hsrc hF hord hm hm']
        · omega
      · omega
  | succ n ih =>
      have hprev : ((n + 1 : Nat) : Int) + 2 - 1 = n + 2 := by omega
      intro v w hv hw
      rcases h.made_globalIndex hF hv with ⟨h2, -⟩ | ⟨-, out, hm, rfl⟩
      · omega
      · rcases h.made_globalIndex hF hw with ⟨h2, -⟩ | ⟨-, out', hm', rfl⟩
        · omega
        · rw [hm.unique hsrc hord hm' ?_]
          intro k hk
          rw [Task.inputs, hprev, List.mem_pair] at hk
          rcases hk with rfl | rfl
          · exact ih
          · exact h.agrees_index hsrc hF hord _ _

theorem Traced.agrees {k : Key} (hk : k.isData) : s.kanban.Agrees k := by
  cases k with
  | items e i => exact h.agrees_items hsrc hF hord e i
  | index e i => exact h.agrees_index hsrc hF hord e i
  | globalIndex e i => exact h.agrees_globalIndex hsrc hF hord e i
  | _ => cases hk

/-- **Agreement.** The key determines the output. -/
theorem Traced.made_unique (hm : Made P src F s.kanban t out)
    (hm' : Made P src F s.kanban t' out') (hkey : t.key = t'.key) : out = out' := by
  obtain rfl := (hm.canonical hF).eq_of_key_eq (hm'.canonical hF) hkey
  exact hm.unique hsrc hord hm' fun k hk => h.agrees hsrc hF hord (Task.isData_of_mem_inputs hk)

end

/-! ## Runs -/

section

variable {D : Deployment} {src : Source} {ord : Task → List Bytes → HashOrder}
  {G : Task → Inputs → Prop} {as : List Action}

theorem extends_exec (s : State) (bs : List Action) :
    s.kanban.Extends (exec D.step s bs).kanban :=
  exec_mono (r := fun s t : State => s.kanban.Extends t.kanban) (fun _ => .refl _)
    Kanban.Extends.trans fun _ a => D.extends_step a

/-- In an orderly run everything is made by canonical tasks. -/
theorem traced_orderly_and
    (h : Meets D.step (fun s a => Orderly src ord s a ∧ CallsMeet G s a) .init as) :
    Traced D.platform src (fun t xs => t.Canonical ∧ OrderedBy ord t xs ∧ G t xs)
      (exec D.step .init as) := by
  have hregular : Meets D.step (fun s a => Answered src s a ∧ BaseCurrent (fun _ => True) s a ∧
      CallsMeet (fun t xs => t.CursorAligned ∧ OrderedBy ord t xs ∧ G t xs) s a) .init as := by
    refine h.mono fun s a ⟨⟨⟨hans, hbase, horder⟩, hcursor⟩, hG⟩ => ⟨hans, hbase, ?_⟩
    cases a with
    | exec p answers => exact fun t xs hc => ⟨hcursor t xs hc, horder t xs hc, hG t xs hc⟩
    | _ => trivial
  simpa only [Task.Canonical, and_assoc] using traced_regular hregular

theorem traced_orderly (h : Meets D.step (Orderly src ord) .init as) :
    Traced D.platform src (fun t xs => t.Canonical ∧ OrderedBy ord t xs ∧ True)
      (exec D.step .init as) :=
  traced_orderly_and (h.mono fun s a ha => ⟨ha, by cases a <;> simp [CallsMeet]⟩)

end

/-- **First writer wins.** In an orderly run the value of a shard never changes. -/
theorem shard_value_stable (D : Deployment) (src : Source) (hsrc : src.Deterministic)
    (ord : Task → List Bytes → HashOrder) (as bs : List Action)
    (h : Meets D.step (Steady src ord) .init (as ++ bs)) (hbuilt : D.BuiltInOrder (as ++ bs))
    (k : Key) (v : Bytes) (hk : k.isData) (hv : (exec D.step .init as).kanban.get k = some v) :
    (exec D.step .init (as ++ bs)).kanban.get k = some v := by
  have hagrees := (traced_orderly (meets_orderly_iff.2 ⟨h, hbuilt⟩)).agrees hsrc
    (fun _ _ hc => hc.1) (fun _ _ hc => hc.2.1) hk
  have hstored : (exec D.step .init (as ++ bs)).kanban.Stored k v := by
    rw [exec_append]
    exact (extends_exec _ bs).sets (Kanban.mem_of_get hv)
  obtain ⟨w, hw, hmem⟩ := Kanban.exists_get_of_mem hstored
  rw [hw, hagrees w v hmem hstored]

/-! ## A stale crawler -/

/-- The store in which the second epoch is open. -/
def openedSecond : Kanban := sampleFirst.set .blockId (toDecimal secondBlockId)

/-- The second epoch is open, and crawler 1 is still about to put blocks of the first. -/
def afterStale : State :=
  ⟨openedSecond, ⟨.count 2 2, nextBlockId secondBlockId⟩,
    Function.update (fun _ => .idle) 1 staleCrawler⟩

theorem get_openedSecond_of_ne {k : Key} (hk : k ≠ .blockId) :
    openedSecond.get k = sampleFirst.get k :=
  Kanban.get_set_of_ne _ hk _

theorem leads_afterStale : ∃ as,
    Leads sampleDeployment.step (Answered sampleSource) .init as afterStale := by
  obtain ⟨as, hstale⟩ := leads_staleCrawler
  exact ⟨_, hstale.append (leads_open (D := sampleDeployment)
    (s := afterFirst.upd 1 staleCrawler sampleFirst) (lenient_answered sampleSource) (by decide)
    (by decide) get_sampleFirst_epoch)⟩

/-- The store after crawler 0 has done `n` shards of the second epoch. -/
def secondTurn (n : Nat) : Kanban :=
  openedSecond.crawled 2 secondBlockId (sampleCrawl secondBlockId) (itemsKey secondBlockId) 1 n

theorem get_secondTurn_of_ne {k : Key} (n : Nat) (hk : ∀ j, k ≠ .items 2 j)
    (hblock : k ≠ .blockId) : (secondTurn n).get k = sampleFirst.get k := by
  rw [secondTurn, Kanban.get_crawled_of_ne _ _ fun j _ _ => hk j, get_openedSecond_of_ne hblock]

/-- The state then. -/
def afterTurn (n : Nat) : State :=
  ⟨secondTurn n, afterStale.manager,
    Function.update afterStale.procs 0 (.enter (.crawl 2 secondBlockId (1 + n)))⟩

theorem leads_afterTurn {n : Nat} (hn : n ≤ itemsPoolMax) : ∃ as,
    Leads sampleDeployment.step (Answered sampleSource) .init as (afterTurn n) := by
  obtain ⟨as, hstale⟩ := leads_afterStale
  have hepoch : openedSecond.get .epoch = some (epochPacket sampleCrypto 2) :=
    (get_openedSecond_of_ne (by simp)).trans get_sampleFirst_epoch
  have hbase : (openedSecond.get .blockId).bind stoi = some secondBlockId := by
    rw [openedSecond, Kanban.get_set_self, Option.bind_some, stoi_toDecimal (by decide)]
  have hturn := leads_crawlTurn (D := sampleDeployment) (m := afterStale.manager)
    (f := afterStale.procs) (p := 0) (lenient_answered sampleSource) rfl rfl hn
    (getEpochInt_epochPacket (by decide) hepoch) (by decide) hbase
    (crawlCall_sample secondBlockId) (witnessKey_sampleCrawl secondBlockId)
    (fun j => (get_openedSecond_of_ne (by simp)).trans
      (get_sampleFirst_of_ne (by simp) (by simp) (by simp)))
    (answered_of_ne_gather (by simp))
    fun i kb => answered_crawl (s := ⟨kb, afterStale.manager, afterStale.procs⟩)
      (sample_answers _ _ _)
  exact ⟨_, hstale.append hturn⟩

/-- **A stale crawler overwrites a shard.** Crawler 0 has published the first shard of epoch 2;
then crawler 1 puts its own, made of other blocks, under the same key. -/
theorem stale_crawler_overwrites : ∃ as bs k v,
    Meets sampleDeployment.step (Answered sampleSource) .init (as ++ bs) ∧ k.isData ∧
    (exec sampleDeployment.step .init as).kanban.get k = some v ∧
    (exec sampleDeployment.step .init (as ++ bs)).kanban.get k ≠ some v := by
  obtain ⟨as, hturn⟩ := leads_afterTurn (n := 1) (by decide)
  have hput := leads_put (D := sampleDeployment) (s := afterTurn 1) (p := 1)
    (lenient_answered sampleSource) (secondTurn 1) (.crawl 2 startSteemBlockId 1)
    (sampleCrawl startSteemBlockId 1)
  have hself : (afterTurn 1).upd 1 staleCrawler (secondTurn 1) = afterTurn 1 :=
    State.upd_eq_self rfl
  have hrun := hturn.append (hself ▸ hput)
  refine ⟨as, [.exec 1 (.plain [])], .items 2 1, sampleItems secondBlockId 1, hrun.meets, rfl, ?_,
    ?_⟩
  · rw [hturn.exec_eq]
    exact (Kanban.get_crawled 1 1 le_rfl (by decide)).trans (by rw [data_sampleCrawl])
  · rw [hrun.exec_eq]
    change ((secondTurn 1).set (.items 2 1) (sampleCrawl startSteemBlockId 1).data).get
      (.items 2 1) ≠ _
    rw [Kanban.get_set_self, data_sampleCrawl, ne_eq, Option.some.injEq]
    exact sampleItems_ne.symm

theorem deterministic_sampleSource : sampleSource.Deterministic :=
  fun _ _ _ hx hy => hx.trans hy.symm

/-- Hash maps in the order of insertion, in every call. -/
def plainOrder : Task → List Bytes → HashOrder := fun _ _ => insertionOrder

theorem lenient_orderly (src : Source) : Lenient (Orderly src plainOrder) :=
  ((lenient_answered src).and ((lenient_baseCurrent _).and (lenient_callsMeet _))).and
    (lenient_callsMeet _)

theorem orderly_sampleBase : Orderly sampleSource plainOrder
    ⟨.booted sampleCrypto, ⟨.count 1 1, secondBlockId⟩,
      Function.update (fun _ => .idle) 0 (.readBase 1)⟩ (.exec 0 (.plain [])) := by
  refine ⟨⟨answered_of_ne_gather (by simp), fun e he => ?_, callsMeet_of_ne_gather (by simp)⟩,
    callsMeet_of_ne_gather (by simp)⟩
  cases he
  exact ⟨rfl, trivial⟩

theorem orderly_sampleDownload (i : Nat) (kb : Kanban) (m : Manager) (f : Nat → Executor) :
    Orderly sampleSource plainOrder ⟨kb, m,
      Function.update f 0 (.gather (.crawl 1 startSteemBlockId i) [])⟩
      (.exec 0 (.plain (sampleAnswers startSteemBlockId i))) :=
  ⟨⟨answered_crawl (s := ⟨kb, m, f⟩) (sample_answers _ _ _),
    baseCurrent_of_ne_readBase (by simp), callsMeet_crawl (s := ⟨kb, m, f⟩) rfl⟩,
    callsMeet_gather (s := ⟨kb, m, f⟩) fun _ => trivial⟩

/-- The first epoch of the small deployment is orderly: its shards stay as they are while the
manager closes it. -/
theorem shard_value_stable_first_epoch :
    Meets sampleDeployment.step (Steady sampleSource plainOrder) .init
      (turnActions ++ List.replicate 4 .manager) ∧
    sampleDeployment.BuiltInOrder (turnActions ++ List.replicate 4 .manager) ∧
    (exec sampleDeployment.step .init turnActions).kanban.get (.items 1 1) =
      some (sampleItems startSteemBlockId 1) ∧
    (exec sampleDeployment.step .init (turnActions ++ List.replicate 4 .manager)).kanban.get
      (.items 1 1) = some (sampleItems startSteemBlockId 1) := by
  have hturn := leads_sampleTurn (lenient_orderly sampleSource) orderly_sampleBase
    orderly_sampleDownload
  obtain ⟨hmeets, hbuilt⟩ := meets_orderly_iff.1 (leads_sampleFirst (lenient_orderly sampleSource)
    orderly_sampleBase orderly_sampleDownload).meets
  have hget : (exec sampleDeployment.step .init turnActions).kanban.get (.items 1 1) =
      some (sampleItems startSteemBlockId 1) := by
    rw [hturn.exec_eq]
    exact (Kanban.get_crawled _ _ le_rfl (by decide)).trans (by rw [data_sampleCrawl])
  exact ⟨hmeets, hbuilt, hget, shard_value_stable sampleDeployment sampleSource
    deterministic_sampleSource plainOrder _ _ hmeets hbuilt (.items 1 1) _ rfl hget⟩

end DeSearch
