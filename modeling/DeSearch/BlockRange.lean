import DeSearch.Ledger
import DeSearch.Cursor

/-!
# Which blocks an item batch is made of

The manager writes the epoch and the first block number of the epoch in two steps, the epoch
first; a crawler reads them in two steps, the epoch first. A crawler that reads the block number
of its own epoch makes each batch from the blocks of its shard (`itemsFromBlocks_of_baseCurrent`).
One that comes between the two writes crawls the blocks of the last epoch again
(`stale_base_not_itemsFromBlocks`).
-/

namespace DeSearch

open Run

/-! ## Tasks with the right block number -/

/-- What holds of the loop variables: the shard is in range, and the block number of a crawler is
that of its epoch, which is one with the property `Q`. -/
def Task.Regular (Q : Int → Prop) : Task → Prop
  | .crawl e b i => b = blockBase e ∧ 1 ≤ e ∧ Q e ∧ 1 ≤ i ∧ i ≤ itemsPoolMax
  | .index e i _ => 2 ≤ e ∧ 1 ≤ i ∧ i ≤ indexPoolMax
  | .reduce e i => 3 ≤ e ∧ 1 ≤ i ∧ i ≤ indexPoolMax

/-- A crawler that reads the block number does so in the round of its epoch: the manager has set
the block number once for each epoch so far, that of the crawler included. -/
def BaseCurrent (Q : Int → Prop) (s : State) : Action → Prop
  | .exec p _ => ∀ e, s.procs p = .readBase e → (s.kanban.rounds : Int) = e ∧ Q e
  | _ => True

section

variable {Q : Int → Prop}

theorem Executor.regular_start (role : Role) (e : Int) :
    (Executor.start role e).All (Task.Regular Q) := by
  cases role with
  | crawler =>
      change (doCrawl e).All _
      unfold doCrawl
      split_ifs
      · exact all_idle
      · exact all_readBase e
  | indexer =>
      change (doIndex e).All _
      unfold doIndex
      split_ifs with h₁ h₂
      · exact all_idle
      · exact all_idle
      · exact all_enter fun hle => ⟨by omega, le_rfl, hle⟩
  | reducer =>
      change (doReduce e).All _
      unfold doReduce
      split_ifs with h₁ h₂
      · exact all_idle
      · exact all_idle
      · exact all_enter fun hle => ⟨by omega, le_rfl, hle⟩

theorem Task.Regular.skip {t : Task} (h : t.Regular Q) (hle : t.skip.shard ≤ t.skip.poolMax) :
    t.skip.Regular Q := by
  cases t with
  | crawl e b i => exact ⟨h.1, h.2.1, h.2.2.1, by omega, hle⟩
  | index e i pos => exact ⟨h.1, by omega, hle⟩
  | reduce e i => exact ⟨h.1, by omega, hle⟩

theorem Task.Regular.finish {t : Task} (h : t.Regular Q)
    (hle : t.finish.shard ≤ t.finish.poolMax) : t.finish.Regular Q := by
  cases t with
  | crawl e b i => exact ⟨h.1, h.2.1, h.2.2.1, by omega, hle⟩
  | index e i pos => exact ⟨h.1, by omega, hle⟩
  | reduce e i => exact ⟨h.1, by omega, hle⟩

/-- The block number a crawler reads in the round of its epoch. -/
theorem Rounds.eq_blockBase {s : State} (h : Rounds s) {e b : Int}
    (he : (s.kanban.rounds : Int) = e) (hb : (s.kanban.get .blockId).bind stoi = some b) :
    b = blockBase e ∧ 1 ≤ e := by
  rw [h.current] at hb
  split_ifs at hb with h0
  · cases hb
  · rw [Option.bind_some, stoi_toDecimal (isInt_blockBase _), Option.some.injEq] at hb
    exact ⟨by rw [← hb, he], by omega⟩

/-- The loop variables of all executors stay regular. -/
theorem regular_step {D : Deployment} {s : State} {a : Action} (hr : Rounds s)
    (h : ∀ p, (s.procs p).All (Task.Regular Q)) (ha : BaseCurrent Q s a) :
    ∀ p, ((D.step a s).procs p).All (Task.Regular Q) := by
  cases a with
  | manager => exact h
  | exec p answers =>
      refine (Function.forall_update_iff _ fun _ => Executor.All _).2 ⟨?_, fun q _ => h q⟩
      refine (Executor.step_spec D.platform (D.role p) answers s.kanban (s.procs p)).all (h p)
        (fun e _ => Executor.regular_start _ e) (fun e b hx hb => ?_)
        (fun _ ht => ht.skip) (fun _ ht => ht.finish)
      obtain ⟨hround, hQ⟩ := ha e hx
      obtain ⟨rfl, h1⟩ := hr.eq_blockBase hround hb
      exact Executor.all_enter fun hle => ⟨rfl, h1, hQ, le_rfl, hle⟩
  | crash p =>
      exact (Function.forall_update_iff _ fun _ => Executor.All _).2
        ⟨Executor.all_idle, fun q _ => h q⟩

/-- In a run whose crawlers read the block number of their epoch, everything is made by calls of
regular tasks. -/
theorem traced_regular {D : Deployment} {src : Source} {G : Task → Inputs → Prop}
    {as : List Action} (h : Meets D.step
      (fun s a => Answered src s a ∧ BaseCurrent Q s a ∧ CallsMeet G s a) .init as) :
    Traced D.platform src (fun t xs => t.Regular Q ∧ G t xs) (exec D.step .init as) := by
  have hinv : Rounds (exec D.step .init as) ∧
      (∀ p, ((exec D.step .init as).procs p).All (Task.Regular Q)) ∧
      Traced D.platform src (fun t xs => t.Regular Q ∧ G t xs) (exec D.step .init as) := by
    refine h.invariant (I := fun s => Rounds s ∧ (∀ p, (s.procs p).All (Task.Regular Q)) ∧
      Traced D.platform src (fun t xs => t.Regular Q ∧ G t xs) s)
      ⟨rounds_init, fun _ => Executor.all_idle, traced_init⟩ ?_
    rintro s a ⟨hans, hbase, hcall⟩ ⟨hr, hreg, htr⟩
    refine ⟨hr.step a, regular_step hr hreg hbase, htr.step hans ?_⟩
    cases a with
    | exec p answers =>
        rintro t xs hc
        refine ⟨?_, hcall t xs hc⟩
        obtain ⟨got, hx, -⟩ := hc
        exact hreg p t (by rw [hx]; rfl)
    | _ => trivial
  exact hinv.2.2

theorem lenient_baseCurrent (Q : Int → Prop) : Lenient (BaseCurrent Q) where
  manager _ := trivial
  exec _ _ hbase _ := fun e hx => absurd hx (hbase e)

theorem baseCurrent_of_ne_readBase {s : State} {p : Nat} {answers : Inputs}
    (h : ∀ e, s.procs p ≠ .readBase e) : BaseCurrent Q s (.exec p answers) :=
  fun e hx => absurd hx (h e)

end

/-! ## Blocks -/

/-- The blocks of a shard. -/
def blockNumbers (e : Int) (i : Nat) : List Int :=
  (List.range itemsBulkMax).map fun j : Nat =>
    startSteemBlockId + (e - 1) * itemsPoolMax * itemsBulkMax + ((i : Int) - 1) * itemsBulkMax +
      (j + 1)

/-- Every item batch ever stored was made of the blocks of its shard. -/
def ItemsFromBlocks (P : Platform) (src : Source) (kb : Kanban) : Prop :=
  ∀ e i v, kb.Stored (.items e i) v →
    ∃ blocks out, List.Forall₂ src.Answers (blockNumbers e i) blocks ∧
      crawlCall P blocks = some out ∧ out.data = v

/-- The block numbers of the epoch are values of `int`. -/
def IntBlocks (e : Int) : Prop := startSteemBlockId + e * itemsPoolMax * itemsBulkMax < 2 ^ 31

instance (e : Int) : Decidable (IntBlocks e) := inferInstanceAs (Decidable (_ < _))

theorem mem_blockNumbers {e n : Int} {i : Nat} : n ∈ blockNumbers e i ↔
    startSteemBlockId + (e - 1) * 1024 + ((i : Int) - 1) * 64 < n ∧
      n ≤ startSteemBlockId + (e - 1) * 1024 + ((i : Int) - 1) * 64 + 64 := by
  simp only [blockNumbers, List.mem_map, List.mem_range, itemsPoolMax, itemsBulkMax]
  constructor
  · rintro ⟨j, hj, rfl⟩
    constructor <;> (push_cast; omega)
  · rintro ⟨hlt, hle⟩
    refine ⟨(n - (startSteemBlockId + (e - 1) * 1024 + ((i : Int) - 1) * 64) - 1).toNat, ?_, ?_⟩
    · omega
    · push_cast
      omega

/-- The shards of all epochs are a partition of the blocks. -/
theorem existsUnique_blockNumbers {n : Int} (hn : startSteemBlockId < n) :
    ∃! shard : Int × Nat, 1 ≤ shard.1 ∧ 1 ≤ shard.2 ∧ shard.2 ≤ itemsPoolMax ∧
      n ∈ blockNumbers shard.1 shard.2 := by
  have h16 : itemsPoolMax = 16 := rfl
  simp only [mem_blockNumbers, h16]
  refine ⟨((n - startSteemBlockId - 1) / 1024 + 1,
    ((n - startSteemBlockId - 1) % 1024 / 64).toNat + 1), by simp only; omega, ?_⟩
  rintro ⟨e, i⟩ ⟨he, h1, hle, hlo, hhi⟩
  simp only at he h1 hle hlo hhi
  rw [Prod.mk.injEq]
  omega

theorem blocks_of_regular {e b : Int} {i : Nat} (h : (Task.crawl e b i).Regular IntBlocks) :
    (Task.crawl e b i).blocks = blockNumbers e i := by
  obtain ⟨rfl, h1, hint, hi, hle⟩ := h
  have h16 : itemsPoolMax = 16 := rfl
  have h64 : itemsBulkMax = 64 := rfl
  have hstart : startSteemBlockId = 62396745 := rfl
  simp only [IntBlocks, h16, h64, hstart] at hint
  have hbase : blockBase e = 62396745 + (e - 1) * 1024 := by
    have : startSteemBlockId + (e - 1) * (itemsBulkMax * itemsPoolMax) =
        62396745 + (e - 1) * 1024 := rfl
    rw [blockBase, this]
    exact wrapInt_of_isInt ⟨by omega, by omega⟩
  refine List.map_congr_left fun j hj => ?_
  rw [List.mem_range] at hj
  simp only [hbase, h16, h64, hstart]
  push_cast
  rw [wrapInt_of_isInt ⟨by omega, by omega⟩]
  ring

/-- **Crawling.** In a run in which every crawler reads the block number in the round of its
epoch, every item batch ever stored is made of exactly the blocks of its shard; and every block is
in exactly one shard of exactly one epoch. -/
theorem itemsFromBlocks_of_baseCurrent (D : Deployment) (src : Source) (as : List Action)
    (h : Meets D.step (fun s a => Answered src s a ∧ BaseCurrent IntBlocks s a) .init as) :
    ItemsFromBlocks D.platform src (exec D.step .init as).kanban ∧
      ∀ n, startSteemBlockId < n → ∃! shard : Int × Nat, 1 ≤ shard.1 ∧ 1 ≤ shard.2 ∧
        shard.2 ≤ itemsPoolMax ∧ n ∈ blockNumbers shard.1 shard.2 := by
  refine ⟨fun e i v hv => ?_, fun n hn => existsUnique_blockNumbers hn⟩
  have htraced := traced_regular (Q := IntBlocks) (G := fun _ _ => True)
    (h.mono fun s a ha => ⟨ha.1, ha.2, by cases a <;> simp [CallsMeet]⟩)
  obtain ⟨t, out, ⟨xs, ⟨hreg, -⟩, hs, hcall⟩, hdata, hkey | ⟨_, _, -, hkey⟩⟩ :=
    htraced.data _ v hv rfl
  · cases t with
    | crawl e' b i' =>
        cases hkey
        have hs' : List.Forall₂ src.Answers (Task.crawl e b i).blocks xs.values := hs
        rw [blocks_of_regular hreg] at hs'
        exact ⟨xs.values, out, hs', hcall, hdata⟩
    | _ => cases hkey
  · cases hkey

/-! ## A stale block number -/

/-- Crawler 1 comes after the manager has set epoch 2 and before it sets its block number. It is
about to put the first blocks of epoch 1 as those of epoch 2. -/
def staleCrawler : Executor :=
  .put (.crawl 2 startSteemBlockId 1) (sampleCrawl startSteemBlockId 1)

theorem leads_staleCrawler : ∃ as, Leads sampleDeployment.step (Answered sampleSource) .init as
    (afterFirst.upd 1 staleCrawler sampleFirst) := by
  have hok := lenient_answered sampleSource
  have hepoch : getEpochInt sampleRuntime sampleCrypto sampleFirst = some 2 :=
    getEpochInt_epochPacket (by decide) get_sampleFirst_epoch
  have hbase : (sampleFirst.get .blockId).bind stoi = some startSteemBlockId := by
    rw [get_sampleFirst_of_ne (by simp) (by simp) (by simp)]
    exact Kanban.get_blockId_booted _
  have hstart := leads_doCrawl (D := sampleDeployment) (s := afterFirst) (p := 1) hok rfl hepoch
    (by decide) hbase (answered_of_ne_gather (by simp))
  rw [show afterFirst.upd 1 .idle sampleFirst = afterFirst from State.upd_eq_self rfl] at hstart
  have habsent : sampleFirst.get (.items 2 1) = none :=
    get_sampleFirst_of_ne (by simp) (by simp) (by simp)
  have hdownload := leads_download (D := sampleDeployment) (s := afterFirst) (p := 1) hok
    (by decide) habsent (crawlCall_sample startSteemBlockId 1)
    (answered_crawl (sample_answers _ _ _))
  exact ⟨_, leads_sampleFirst_answered.append (hstart.append hdownload)⟩

theorem sampleItems_ne : sampleItems secondBlockId 1 ≠ sampleItems startSteemBlockId 1 := by
  intro heq
  have hkeys : itemsKey secondBlockId 1 = itemsKey startSteemBlockId 1 := by
    rw [itemsKey_eq, itemsKey_eq, heq]
  exact List.disjoint_of_nodup_append nodup_keys (List.mem_map.2 ⟨1, by decide, rfl⟩)
    (List.mem_append_left _ (List.mem_map.2 ⟨1, by decide, hkeys⟩))

/-- **A crawler between the two writes.** The manager has set epoch 2 but not yet its block
number; a crawler that looks now stores the blocks of the first epoch as those of the second. -/
theorem stale_base_not_itemsFromBlocks : ∃ as,
    Meets sampleDeployment.step (Answered sampleSource) .init as ∧
      ¬ItemsFromBlocks samplePlatform sampleSource
        (exec sampleDeployment.step .init as).kanban := by
  obtain ⟨as, hstale⟩ := leads_staleCrawler
  have hput := leads_put (D := sampleDeployment) (s := afterFirst) (p := 1)
    (lenient_answered sampleSource) sampleFirst (.crawl 2 startSteemBlockId 1)
    (sampleCrawl startSteemBlockId 1)
  have hrun := hstale.append hput
  refine ⟨_, hrun.meets, ?_⟩
  rw [hrun.exec_eq]
  intro hblocks
  obtain ⟨blocks, out, hanswers, hcall, hdata⟩ := hblocks 2 1 _ List.mem_cons_self
  have hnumbers : blockNumbers 2 1 = (Task.crawl 0 secondBlockId 1).blocks := by decide
  have hxs : blocks = sampleAnswers secondBlockId 1 := by
    rw [hnumbers] at hanswers
    exact eq_map_of_forall₂ hanswers
  rw [hxs, crawlCall_sample, Option.some.injEq] at hcall
  rw [← hcall, data_sampleCrawl, data_sampleCrawl] at hdata
  exact sampleItems_ne hdata

/-- The first epoch of the small deployment is such a run, and it stores item batches. -/
theorem itemsFromBlocks_first_epoch :
    Meets sampleDeployment.step (fun s a => Answered sampleSource s a ∧ BaseCurrent IntBlocks s a)
      .init firstActions ∧
    (exec sampleDeployment.step .init firstActions).kanban.get (.items 1 1) =
      some (sampleItems startSteemBlockId 1) ∧
    ItemsFromBlocks samplePlatform sampleSource
      (exec sampleDeployment.step .init firstActions).kanban := by
  have hrun := leads_sampleFirst ((lenient_answered sampleSource).and
      (lenient_baseCurrent IntBlocks))
    ⟨answered_of_ne_gather (by simp), fun e he => by
      cases he
      exact ⟨rfl, by decide⟩⟩
    fun _ kb m f => ⟨answered_crawl (s := ⟨kb, m, f⟩) (sample_answers _ _ _),
      baseCurrent_of_ne_readBase (by simp)⟩
  refine ⟨hrun.meets, ?_, (itemsFromBlocks_of_baseCurrent _ sampleSource _ hrun.meets).1⟩
  rw [hrun.exec_eq]
  exact get_sampleFirst_items le_rfl (by decide)

end DeSearch
