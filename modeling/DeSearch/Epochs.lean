import DeSearch.Progress
import Mathlib.Data.List.NodupEquivFin
import Mathlib.Data.Nat.Digits.Lemmas

/-!
# Whole turns and whole epochs

One crawler goes through all shards of an epoch (`leads_crawlTurn`), one indexer through all
shards of epoch 2 (`leads_indexTurn`), and the manager then finds enough witness keys if the
outputs differ. So one crawler alone does the first epoch (`leads_firstTurn`), and the
manager can close it (`Kanban.enough_firstTurn`). The runs that show how the pipeline goes wrong
start with such an epoch (`leads_sampleFirst`).
-/

namespace DeSearch

open Run JSON

/-! ## The store after a crawler's turn -/

namespace Kanban

variable {kb : Kanban} {e b : Int} {outs : Nat → Output} {keys : Nat → Bytes}

theorem get_crawled_of_ne {k : Key} (n i : Nat)
    (hk : ∀ j, i ≤ j → j < i + n → k ≠ .items e j) :
    (kb.crawled e b outs keys i n).get k = kb.get k := by
  induction n generalizing kb i with
  | zero => rfl
  | succ n ih =>
      rw [crawled, ih (i + 1) fun j hj hj' => hk j (by omega) (by omega), get_publish]
      exact if_neg (hk i le_rfl (by omega))

theorem get_crawled {j : Nat} (n i : Nat) (hj : i ≤ j) (hj' : j < i + n) :
    (kb.crawled e b outs keys i n).get (.items e j) = some (outs j).data := by
  induction n generalizing kb i with
  | zero => omega
  | succ n ih =>
      rw [crawled]
      by_cases hij : i = j
      · subst hij
        rw [get_crawled_of_ne n (i + 1) fun j hj _ => by simp; omega, get_publish]
        exact if_pos rfl
      · exact ih (i + 1) (by omega) (by omega)

theorem stored_crawled {k : Key} {v : Bytes} (n i : Nat)
    (h : (kb.crawled e b outs keys i n).Stored k v) :
    kb.Stored k v ∨ ∃ j, i ≤ j ∧ j < i + n ∧ k = .items e j ∧ v = (outs j).data := by
  induction n generalizing kb i with
  | zero => exact .inl h
  | succ n ih =>
      rcases ih (i + 1) h with h | ⟨j, hj, hj', hkv⟩
      · rcases List.mem_cons.1 h with heq | h
        · cases heq
          exact .inr ⟨i, le_rfl, by omega, rfl, rfl⟩
        · exact .inl h
      · exact .inr ⟨j, by omega, by omega, hkv⟩

theorem hsets_crawled (n i : Nat) : (kb.crawled e b outs keys i n).hsets =
    ((List.range' i n).map fun j => (keys j, (outs j).witness)).reverse ++ kb.hsets := by
  induction n generalizing kb i with
  | zero => rfl
  | succ n ih =>
      rw [crawled, ih, List.range'_succ, List.map_cons, List.reverse_cons, List.append_assoc]
      rfl

theorem sadds_crawled (n i : Nat) : (kb.crawled e b outs keys i n).sadds =
    ((List.range' i n).map fun j => (e, keys j)).reverse ++ kb.sadds := by
  induction n generalizing kb i with
  | zero => rfl
  | succ n ih =>
      rw [crawled, ih, List.range'_succ, List.map_cons, List.reverse_cons, List.append_assoc]
      rfl

/-- The members of a set when keys were added one after another. -/
theorem mem_smembers_of_sadds {kb' : Kanban} {e' : Int} {k : Bytes} {n i : Nat}
    (h : kb'.sadds = ((List.range' i n).map fun j => (e, keys j)).reverse ++ kb.sadds) :
    k ∈ kb'.smembers e' ↔ k ∈ kb.smembers e' ∨ e' = e ∧ ∃ j, i ≤ j ∧ j < i + n ∧ k = keys j := by
  rw [mem_smembers, mem_smembers, h, List.mem_append, List.mem_reverse, List.mem_map, or_comm]
  refine or_congr_right ⟨?_, ?_⟩
  · rintro ⟨j, hj, heq⟩
    cases heq
    obtain ⟨hle, hlt⟩ := List.mem_range'_1.1 hj
    exact ⟨rfl, j, hle, hlt, rfl⟩
  · rintro ⟨rfl, j, hle, hlt, rfl⟩
    exact ⟨j, List.mem_range'_1.2 ⟨hle, hlt⟩, rfl⟩

theorem mem_smembers_crawled {e' : Int} {k : Bytes} (n i : Nat) :
    k ∈ (kb.crawled e b outs keys i n).smembers e' ↔
      k ∈ kb.smembers e' ∨ e' = e ∧ ∃ j, i ≤ j ∧ j < i + n ∧ k = keys j :=
  mem_smembers_of_sadds (sadds_crawled n i)

theorem mem_smembers_publish {t : Task} {out : Output} {k k' : Bytes} {e' : Int} :
    k' ∈ (kb.publish t out k).smembers e' ↔ k' ∈ kb.smembers e' ∨ e' = t.epoch ∧ k' = k := by
  simp only [mem_smembers, publish, sadd, List.mem_cons, Prod.mk.injEq, hset, set]
  tauto

theorem hget_publish (kb : Kanban) (t : Task) (out : Output) (k k' : Bytes) :
    (kb.publish t out k).hget k' = if k' = k then some out.witness else kb.hget k' := by
  change List.lookup k' ((k, out.witness) :: kb.hsets) = _
  by_cases h : k' = k
  · rw [if_pos h, h, List.lookup_cons_self]
  · rw [if_neg h, List.lookup_cons, beq_false_of_ne h]
    rfl

/-! ## The store after an indexer's turn -/

/-- The store after an indexer of epoch 2 has done `n` shards from shard `i` on, with the cursor
where it belongs. -/
def indexed (kb : Kanban) (outs : Nat → Output) (keys : Nat → Bytes) : Nat → Nat → Kanban
  | _, 0 => kb
  | i, n + 1 => (kb.publishFirst i ((i - 1) * indexBulkMax + 1) (outs i) (keys i)).indexed outs keys
      (i + 1) n

theorem get_publishFirst (kb : Kanban) (i pos : Nat) (out : Output) (k : Bytes) (k' : Key) :
    (kb.publishFirst i pos out k).get k' =
      if k' = .globalIndex 2 i ∨ k' = .index 2 i then some out.data else kb.get k' := by
  rw [publishFirst, get_set, get_publish]
  by_cases h₁ : k' = .globalIndex 2 i
  · simp [h₁]
  · by_cases h₂ : k' = .index 2 i
    · simp [h₂, Task.key]
    · rw [if_neg h₁, if_neg (not_or.2 ⟨h₁, h₂⟩)]
      exact if_neg h₂

theorem get_indexed_of_ne {k : Key} (n i : Nat)
    (hk : ∀ j, i ≤ j → j < i + n → k ≠ .globalIndex 2 j ∧ k ≠ .index 2 j) :
    (kb.indexed outs keys i n).get k = kb.get k := by
  induction n generalizing kb i with
  | zero => rfl
  | succ n ih =>
      rw [indexed, ih (i + 1) fun j hj hj' => hk j (by omega) (by omega), get_publishFirst,
        if_neg (not_or.2 (hk i le_rfl (by omega)))]

theorem get_indexed {j : Nat} {k : Key} (hk : k = .globalIndex 2 j ∨ k = .index 2 j) (n i : Nat)
    (hj : i ≤ j) (hj' : j < i + n) : (kb.indexed outs keys i n).get k = some (outs j).data := by
  induction n generalizing kb i with
  | zero => omega
  | succ n ih =>
      rw [indexed]
      by_cases hij : i = j
      · subst hij
        rw [get_indexed_of_ne n (i + 1) fun j hj _ => ?_, get_publishFirst, if_pos hk]
        rcases hk with rfl | rfl <;> simp <;> omega
      · exact ih (i + 1) (by omega) (by omega)

theorem stored_indexed {k : Key} {v : Bytes} (n i : Nat)
    (h : (kb.indexed outs keys i n).Stored k v) :
    kb.Stored k v ∨ ∃ j, i ≤ j ∧ j < i + n ∧ (k = .globalIndex 2 j ∨ k = .index 2 j) ∧
      v = (outs j).data := by
  induction n generalizing kb i with
  | zero => exact .inl h
  | succ n ih =>
      rcases ih (i + 1) h with h | ⟨j, hj, hj', hkv⟩
      · rcases List.mem_cons.1 h with heq | h
        · cases heq
          exact .inr ⟨i, le_rfl, by omega, .inl rfl, rfl⟩
        · rcases List.mem_cons.1 h with heq | h
          · cases heq
            exact .inr ⟨i, le_rfl, by omega, .inr rfl, rfl⟩
          · exact .inl h
      · exact .inr ⟨j, by omega, by omega, hkv⟩

theorem hsets_indexed (n i : Nat) : (kb.indexed outs keys i n).hsets =
    ((List.range' i n).map fun j => (keys j, (outs j).witness)).reverse ++ kb.hsets := by
  induction n generalizing kb i with
  | zero => rfl
  | succ n ih =>
      rw [indexed, ih, List.range'_succ, List.map_cons, List.reverse_cons, List.append_assoc]
      rfl

theorem sadds_indexed (n i : Nat) : (kb.indexed outs keys i n).sadds =
    ((List.range' i n).map fun j => (2, keys j)).reverse ++ kb.sadds := by
  induction n generalizing kb i with
  | zero => rfl
  | succ n ih =>
      rw [indexed, ih, List.range'_succ, List.map_cons, List.reverse_cons, List.append_assoc]
      rfl

theorem mem_smembers_indexed {e' : Int} {k : Bytes} (n i : Nat) :
    k ∈ (kb.indexed outs keys i n).smembers e' ↔
      k ∈ kb.smembers e' ∨ e' = 2 ∧ ∃ j, i ≤ j ∧ j < i + n ∧ k = keys j :=
  mem_smembers_of_sadds (sadds_indexed n i)

end Kanban

/-- A set that holds all of a list without repetitions is at least as large. -/
theorem length_le_stdSet {l keys : List Bytes} (hl : l.Nodup) (h : l ⊆ keys) :
    l.length ≤ (stdSet keys).length :=
  (hl.subperm fun _ hk => mem_stdSet.2 (h hk)).length_le

/-! ## Turns -/

section

variable {D : Deployment} {ok : State → Action → Prop} {kb : Kanban} {m : Manager}
  {f : Nat → Executor} {p : Nat}

/-- The first `n` shards of a crawler's turn, all missing. -/
theorem leads_crawlTurn (hok : Lenient ok) {e b : Int} {answers : Nat → List Bytes}
    {outs : Nat → Output} {keys : Nat → Bytes} {n : Nat} (hrole : D.role p = .crawler)
    (hidle : f p = .idle) (hn : n ≤ itemsPoolMax)
    (he : getEpochInt D.platform.runtime D.platform.crypto kb = some e) (hne : e ≠ -1)
    (hb : (kb.get .blockId).bind stoi = some b)
    (hcall : ∀ i, crawlCall D.platform (answers i) = some (outs i))
    (hk : ∀ i, witnessKey D.platform.runtime (outs i).witness = some (keys i))
    (habsent : ∀ j, kb.get (.items e j) = none)
    (hbase : ok ⟨kb, m, Function.update f p (.readBase e)⟩ (.exec p (.plain [])))
    (hdownload : ∀ i kb, ok ⟨kb, m, Function.update f p (.gather (.crawl e b i) [])⟩
      (.exec p (.plain (answers i)))) :
    Leads D.step ok ⟨kb, m, f⟩
      (List.replicate 2 (.exec p (.plain [])) ++ crawlActions p answers 1 n)
      ⟨kb.crawled e b outs keys 1 n, m, Function.update f p (.enter (.crawl e b (1 + n)))⟩ := by
  have hstart := leads_doCrawl (D := D) (s := ⟨kb, m, f⟩) hok hrole he hne hb hbase
  rw [State.upd_eq_self (s := ⟨kb, m, f⟩) hidle] at hstart
  exact hstart.append (leads_crawlShards (s := ⟨kb, m, f⟩) (p := p) hok hcall hk hdownload n 1 kb
    (by omega) fun j _ _ => habsent j)

/-- The item batches an indexer reads for a shard when its cursor is where it belongs. -/
def window (i : Nat) : List Nat :=
  (List.range indexBulkMax).map fun j => (i - 1) * indexBulkMax + 1 + j

theorem spareBehind_window {R : Runtime} {vals : Nat → Bytes}
    (h : ∀ j, 1 ≤ j → j ≤ itemsPoolMax → R.spare (vals j).length) {i : Nat} (h1 : 1 ≤ i)
    (hi : i ≤ indexPoolMax) : spareBehind R ((window i).map vals) := by
  have h4 : indexPoolMax = 4 := rfl
  have h16 : itemsPoolMax = 16 := rfl
  have hb : indexBulkMax = 4 := rfl
  rw [spareBehind, List.all_eq_true, List.forall_mem_map]
  intro j hj
  obtain ⟨d, hd, rfl⟩ := List.mem_map.1 hj
  rw [List.mem_range, hb] at hd
  exact h _ (by omega) (by rw [hb]; omega)

/-- An indexer left alone does `n` missing shards of epoch 2. -/
theorem leads_indexShards (hok : Lenient ok) {s : State} {vals : Nat → Bytes}
    {outs : Nat → Output} {keys : Nat → Bytes}
    (hspare : ∀ j, 1 ≤ j → j ≤ itemsPoolMax → D.platform.runtime.spare (vals j).length)
    (hcall : ∀ i, 1 ≤ i → i ≤ indexPoolMax →
      indexCall D.platform insertionOrder ((window i).map vals) = some (outs i))
    (hk : ∀ i, 1 ≤ i → i ≤ indexPoolMax →
      witnessKey D.platform.runtime (outs i).witness = some (keys i))
    (hget : ∀ i n kb, 1 ≤ i → i ≤ indexPoolMax → n < 4 →
      (∀ j, 1 ≤ j → j ≤ itemsPoolMax → kb.get (.items 1 j) = some (vals j)) →
      ok (s.upd p (.gather (.index 2 i ((i - 1) * indexBulkMax + 1))
        (((window i).map vals).take n)) kb) (.exec p (.plain [])))
    (n i : Nat) (kb : Kanban) (h1 : 1 ≤ i) (hi : i + n ≤ indexPoolMax + 1)
    (hitems : ∀ j, 1 ≤ j → j ≤ itemsPoolMax → kb.get (.items 1 j) = some (vals j))
    (habsent : ∀ j, i ≤ j → j < i + n → kb.get (.index 2 j) = none) :
    Leads D.step ok (s.upd p (.enter (.index 2 i ((i - 1) * indexBulkMax + 1))) kb)
      (List.replicate (9 * n) (.exec p (.plain [])))
      (s.upd p (.enter (.index 2 (i + n) ((i + n - 1) * indexBulkMax + 1)))
        (kb.indexed outs keys i n)) := by
  induction n generalizing i kb with
  | zero => exact .nil
  | succ n ih =>
      have h4 : indexPoolMax = 4 := rfl
      have h16 : itemsPoolMax = 16 := rfl
      have hb : indexBulkMax = 4 := rfl
      have hitem : ∀ d < 4, kb.get (.items 1 ((i - 1) * indexBulkMax + 1 + d)) =
          some (vals ((i - 1) * indexBulkMax + 1 + d)) := fun d hd =>
        hitems _ (by omega) (by rw [hb]; omega)
      have hroom := spareBehind_window hspare h1 (by omega)
      have hshard := leads_indexShard (D := D) (s := s) (p := p) hok (by omega)
        (habsent i le_rfl (by omega)) (hitem 0 (by decide)) (hitem 1 (by decide))
        (hitem 2 (by decide)) (hitem 3 (by decide)) hroom (hcall i h1 (by omega))
        (hk i h1 (by omega)) fun n hn => hget i n kb h1 (by omega) hn hitems
      have hnext : (i - 1) * indexBulkMax + 1 + indexBulkMax = (i + 1 - 1) * indexBulkMax + 1 := by
        rw [hb]
        omega
      rw [hnext] at hshard
      have hrest := ih (i + 1) (kb.publishFirst i ((i - 1) * indexBulkMax + 1) (outs i) (keys i))
        (by omega) (by omega) ?_ ?_
      · rw [show 9 * (n + 1) = 9 + 9 * n by omega, List.replicate_add,
          show i + (n + 1) = i + 1 + n by omega]
        exact hshard.append hrest
      · intro j hj hj'
        rw [Kanban.get_publishFirst, if_neg (by simp), hitems j hj hj']
      · intro j hj hj'
        rw [Kanban.get_publishFirst, if_neg (by simp; omega), habsent j (by omega) (by omega)]

/-- One indexer goes through all shards of epoch 2. -/
theorem leads_indexTurn (hok : Lenient ok) {vals : Nat → Bytes} {outs : Nat → Output}
    {keys : Nat → Bytes} (hrole : D.role p = .indexer) (hidle : f p = .idle)
    (he : getEpochInt D.platform.runtime D.platform.crypto kb = some 2)
    (hspare : ∀ j, 1 ≤ j → j ≤ itemsPoolMax → D.platform.runtime.spare (vals j).length)
    (hcall : ∀ i, 1 ≤ i → i ≤ indexPoolMax →
      indexCall D.platform insertionOrder ((window i).map vals) = some (outs i))
    (hk : ∀ i, 1 ≤ i → i ≤ indexPoolMax →
      witnessKey D.platform.runtime (outs i).witness = some (keys i))
    (hitems : ∀ j, 1 ≤ j → j ≤ itemsPoolMax → kb.get (.items 1 j) = some (vals j))
    (habsent : ∀ j, kb.get (.index 2 j) = none)
    (hget : ∀ i n kb, 1 ≤ i → i ≤ indexPoolMax → n < 4 →
      (∀ j, 1 ≤ j → j ≤ itemsPoolMax → kb.get (.items 1 j) = some (vals j)) →
      ok ⟨kb, m, Function.update f p (.gather (.index 2 i ((i - 1) * indexBulkMax + 1))
        (((window i).map vals).take n))⟩ (.exec p (.plain []))) :
    Leads D.step ok ⟨kb, m, f⟩ ([.exec p (.plain [])] ++ List.replicate 36 (.exec p (.plain [])))
      ⟨kb.indexed outs keys 1 4, m, f⟩ := by
  have hstart := leads_doIndex (D := D) (s := ⟨kb, m, f⟩) (p := p) hok hrole he (by decide)
  rw [State.upd_eq_self (s := ⟨kb, m, f⟩) hidle] at hstart
  have hwork := leads_indexShards (D := D) (s := ⟨kb, m, f⟩) (p := p) hok hspare hcall hk hget
    4 1 kb
    (by decide) (by decide) hitems fun j _ _ => habsent j
  have hdone : Executor.enter (.index 2 (1 + 4) ((1 + 4 - 1) * indexBulkMax + 1)) = .idle := rfl
  rw [hdone] at hwork
  have hend : (⟨kb, m, f⟩ : State).upd p .idle (kb.indexed outs keys 1 4) =
      ⟨kb.indexed outs keys 1 4, m, f⟩ := State.upd_idle_kanban hidle _
  rw [hend] at hwork
  exact hstart.append hwork

theorem Kanban.get_items_booted (C : Crypto) (e : Int) (j : Nat) :
    (Kanban.booted C).get (.items e j) = none := rfl

theorem Kanban.get_epoch_booted (C : Crypto) :
    (Kanban.booted C).get .epoch = some (epochPacket C 1) :=
  Kanban.get_set_self _ _ _

theorem Kanban.get_blockId_booted (C : Crypto) :
    ((Kanban.booted C).get .blockId).bind stoi = some startSteemBlockId := by
  have hget : (Kanban.booted C).get .blockId = some (toDecimal startSteemBlockId) := rfl
  rw [hget, Option.bind_some, stoi_toDecimal (by decide)]

/-- The store after one crawler has done the first epoch. -/
def Kanban.firstTurn (C : Crypto) (outs : Nat → Output) (keys : Nat → Bytes) : Kanban :=
  (Kanban.booted C).crawled 1 startSteemBlockId outs keys 1 itemsPoolMax

theorem Kanban.get_epoch_firstTurn (C : Crypto) (outs : Nat → Output) (keys : Nat → Bytes) :
    (Kanban.firstTurn C outs keys).get .epoch = some (epochPacket C 1) :=
  (Kanban.get_crawled_of_ne _ _ fun _ _ _ => by simp).trans (get_epoch_booted C)

/-- After a crawler's turn there are all the witness keys that the manager waits for. -/
theorem Kanban.enough_crawled (kb : Kanban) (b : Int) (outs : Nat → Output) {keys : Nat → Bytes}
    (hkeys : ((List.range' 1 itemsPoolMax).map keys).Nodup) :
    expectedKeySize 1 ≤
      (stdSet ((kb.crawled 1 b outs keys 1 itemsPoolMax).smembers 1)).length := by
  have hsub : (List.range' 1 itemsPoolMax).map keys ⊆
      (kb.crawled 1 b outs keys 1 itemsPoolMax).smembers 1 := by
    intro k hk
    obtain ⟨j, hj, rfl⟩ := List.mem_map.1 hk
    rw [List.mem_range'_1] at hj
    exact (Kanban.mem_smembers_crawled _ _).2 (.inr ⟨rfl, j, hj.1, hj.2, rfl⟩)
  have := length_le_stdSet hkeys hsub
  rwa [List.length_map, List.length_range'] at this

theorem Kanban.enough_firstTurn (C : Crypto) (outs : Nat → Output) {keys : Nat → Bytes}
    (hkeys : ((List.range' 1 itemsPoolMax).map keys).Nodup) :
    expectedKeySize 1 ≤ (stdSet ((Kanban.firstTurn C outs keys).smembers 1)).length :=
  enough_crawled _ _ _ hkeys

/-- One crawler alone publishes all shards of the first epoch. -/
theorem leads_firstTurn (hok : Lenient ok) {answers : Nat → List Bytes} {outs : Nat → Output}
    {keys : Nat → Bytes} (hrole : D.role p = .crawler)
    (hcall : ∀ i, crawlCall D.platform (answers i) = some (outs i))
    (hk : ∀ i, witnessKey D.platform.runtime (outs i).witness = some (keys i))
    (hbase : ok ⟨.booted D.platform.crypto, ⟨.count 1 1, nextBlockId startSteemBlockId⟩,
      Function.update (fun _ => .idle) p (.readBase 1)⟩ (.exec p (.plain [])))
    (hdownload : ∀ i kb m f,
      ok ⟨kb, m, Function.update f p (.gather (.crawl 1 startSteemBlockId i) [])⟩
        (.exec p (.plain (answers i)))) :
    Leads D.step ok .init
      (List.replicate 7 .manager ++
        (List.replicate 2 (.exec p (.plain [])) ++ crawlActions p answers 1 itemsPoolMax))
      ⟨.firstTurn D.platform.crypto outs keys, ⟨.count 1 1, nextBlockId startSteemBlockId⟩,
        fun _ => .idle⟩ := by
  have hturn := leads_crawlTurn (D := D) (p := p) hok hrole rfl le_rfl
    (getEpochInt_epochPacket (by decide) (Kanban.get_epoch_booted _)) (by decide)
    (Kanban.get_blockId_booted _) hcall hk (Kanban.get_items_booted _ _) hbase
    fun i kb => hdownload i kb _ _
  have hdone : Executor.enter (.crawl 1 startSteemBlockId (1 + itemsPoolMax)) = .idle := rfl
  rw [hdone, Function.update_eq_self_iff.2 rfl] at hturn
  exact (leads_boot hok).append hturn

/-- The manager then closes the epoch, if no two outputs have the same witness key. -/
theorem leads_firstEpoch (hok : Lenient ok) {answers : Nat → List Bytes} {outs : Nat → Output}
    {keys : Nat → Bytes} (hrole : D.role p = .crawler)
    (hcall : ∀ i, crawlCall D.platform (answers i) = some (outs i))
    (hk : ∀ i, witnessKey D.platform.runtime (outs i).witness = some (keys i))
    (hkeys : ((List.range' 1 itemsPoolMax).map keys).Nodup)
    (hbase : ok ⟨.booted D.platform.crypto, ⟨.count 1 1, nextBlockId startSteemBlockId⟩,
      Function.update (fun _ => .idle) p (.readBase 1)⟩ (.exec p (.plain [])))
    (hdownload : ∀ i kb m f,
      ok ⟨kb, m, Function.update f p (.gather (.crawl 1 startSteemBlockId i) [])⟩
        (.exec p (.plain (answers i)))) :
    Leads D.step ok .init
      (List.replicate 7 .manager ++
        (List.replicate 2 (.exec p (.plain [])) ++ crawlActions p answers 1 itemsPoolMax) ++
        List.replicate 4 .manager)
      ⟨(Kanban.firstTurn D.platform.crypto outs keys).closed D.platform.crypto D.sort 1,
        ⟨.openEpoch, nextBlockId startSteemBlockId⟩, fun _ => .idle⟩ :=
  (leads_firstTurn hok hrole hcall hk hbase hdownload).append
    (leads_close (s := .init) hok (by decide) (Kanban.get_epoch_firstTurn _ _ _)
      (Kanban.enough_firstTurn _ _ hkeys))

end

/-! ## A small deployment

Two crawlers, two indexers and reducers over a block source that answers every request with a
block without posts. The documents of a batch are then one hash (`crawlCall_sample`), so that whole
runs can be followed by hand. -/

/-- A block without posts. -/
def sampleBlock (n : Int) : JSON :=
  object [(ascii "result", object [(ascii "block",
    object [(ascii "block_id", string (toDecimal n))])])]

theorem plain_sampleBlock (n : Int) : Plain (sampleBlock n) :=
  ⟨⟨⟨ascii "result", rfl⟩, ⟨⟨⟨ascii "block", rfl⟩, ⟨⟨⟨ascii "block_id", rfl⟩, trivial, trivial⟩,
    List.pairwise_singleton _ _⟩, trivial⟩, List.pairwise_singleton _ _⟩, trivial⟩,
    List.pairwise_singleton _ _⟩

theorem nulFree_sampleBlock (n : Int) : NulFree ((sampleBlock n).dump 1) :=
  nulFree_dump (sampleBlock n) ⟨by decide, ⟨by decide, ⟨by decide, nulFree_toDecimal n, trivial⟩,
    trivial⟩, trivial⟩ 1

/-- A block source that always answers, and always the same. -/
def sampleSource : Source where
  Answers n x := x = (sampleBlock n).dump 1
  nulFree h := h ▸ nulFree_sampleBlock _

/-- Two crawlers, two indexers, and reducers. -/
def sampleDeployment : Deployment where
  platform := samplePlatform
  sort := ⟨List.insertionSort fun s t => s.getLastD 0 ≤ t.getLastD 0,
    fun l => List.perm_insertionSort _ l⟩
  role p := if p ≤ 1 then .crawler else if p ≤ 3 then .indexer else .reducer

/-- What a crawler downloads for a shard. -/
def sampleAnswers (b : Int) (i : Nat) : List Bytes :=
  (Task.crawl 0 b i).blocks.map fun n => (sampleBlock n).dump 1

/-- The one document of the shard. -/
def sampleDoc (b : Int) (i : Nat) : Bytes :=
  sampleCrypto.sha256 ((sampleBlock
    (wrapInt (b + ((i : Int) - 1) * itemsBulkMax + (0 + 1)))).dump 1)

/-- What it publishes. -/
def sampleItems (b : Int) (i : Nat) : Bytes := batchOf (sampleDoc b i)

theorem sampleItems_eq (b : Int) (i : Nat) : sampleItems b i = batchOf (sampleDoc b i) := rfl

theorem sampleDoc_hex (b : Int) (i : Nat) : ∀ c ∈ sampleDoc b i, isHex c :=
  sampleCrypto.sha256_hex _

theorem length_sampleDoc (b : Int) (i : Nat) : (sampleDoc b i).length = 64 :=
  sampleCrypto.sha256_length _

theorem length_sampleItems (b : Int) (i : Nat) : (sampleItems b i).length = 68 := by
  rw [sampleItems_eq, batchOf_eq (sampleDoc_hex b i), List.length_append, List.length_append,
    length_sampleDoc]
  decide

/-- The witness key of an item batch. -/
def itemsKey (b : Int) (i : Nat) : Bytes := sampleCrypto.sha256 (sampleItems b i)

theorem length_decimal_le {n k : Nat} (hk : 0 < k) (h : n < 10 ^ k) : (decimal n).length ≤ k := by
  unfold decimal
  split_ifs
  · exact hk
  · rw [List.length_map, List.length_reverse]
    exact (Nat.digits_length_le_iff (by decide) n).2 h

theorem length_sampleBlock {n : Int} (h : IsInt n) :
    ((sampleBlock n).dump 1).length < tempDigestLen := by
  have hdec : (decimal n.natAbs).length ≤ 10 := length_decimal_le (by decide) (by
    have := h.1
    have := h.2
    omega)
  have htext : (toDecimal n).length ≤ 11 := by
    unfold toDecimal
    split_ifs
    · exact Nat.succ_le_succ hdec
    · omega
  have hkeys : (ascii "result").length = 6 ∧ (ascii "block").length = 5 ∧
    (ascii "block_id").length = 8 := by decide
  have hmax : tempDigestLen = 65536 := rfl
  rw [sampleBlock]
  simp only [length_dump_object, length_dumpMembers_singleton, length_dump_string,
    escape_toDecimal]
  omega

theorem exists_of_mem_sampleAnswers {b : Int} {i : Nat} {x : Bytes} (h : x ∈ sampleAnswers b i) :
    ∃ n, IsInt n ∧ x = (sampleBlock n).dump 1 := by
  obtain ⟨n, hn, rfl⟩ := List.mem_map.1 h
  obtain ⟨j, -, rfl⟩ := List.mem_map.1 hn
  exact ⟨_, isInt_wrapInt _, rfl⟩

theorem sample_answers (e b : Int) (i : Nat) :
    List.Forall₂ sampleSource.Answers (Task.crawl e b i).blocks (sampleAnswers b i) :=
  List.forall₂_map_right_iff.2 (List.forall₂_same.2 fun _ _ => rfl)

theorem admits_sampleAnswers (e b : Int) (i : Nat) :
    (Task.crawl e b i).Admits (sampleAnswers b i) := by
  have hs : Sourced sampleSource .empty (.crawl e b i) (.plain (sampleAnswers b i)) :=
    sample_answers e b i
  exact hs.admits

theorem crawlOutput_sample (b : Int) (i : Nat) :
    crawlOutput samplePlatform (sampleAnswers b i) = some (sampleItems b i) := by
  have hlen : ∀ x ∈ sampleAnswers b i, x.length < tempDigestLen := fun x hx => by
    obtain ⟨n, hn, rfl⟩ := exists_of_mem_sampleAnswers hx
    exact length_sampleBlock hn
  have hload : (sampleAnswers b i).mapM (load sampleRuntime) =
      some ((Task.crawl 0 b i).blocks.map sampleBlock) :=
    mapM_map_some _ fun n _ => load_dump (plain_sampleBlock n) 1
  have hposts : ∀ j ∈ (Task.crawl 0 b i).blocks.map sampleBlock, blockPosts j = [] := by
    intro j hj
    obtain ⟨n, -, rfl⟩ := List.mem_map.1 hj
    rfl
  exact crawlOutput_of_no_posts (admits_sampleAnswers 0 b i).2 hlen hload hposts

theorem exists_crawlCall_sample (b : Int) (i : Nat) : ∃ out,
    crawlCall samplePlatform (sampleAnswers b i) = some out ∧ out.data = sampleItems b i ∧
      witnessKey sampleRuntime out.witness = some (itemsKey b i) := by
  obtain ⟨hlen, hnul⟩ := admits_sampleAnswers 0 b i
  have hsize := crawlOutput_length_lt hnul (hlen.trans_le (by decide)) (crawlOutput_sample b i)
  exact crawlCall_of_output hnul (hlen.trans_le (by decide)) (crawlOutput_sample b i) hsize

/-- The output of a crawler for a shard. -/
def sampleCrawl (b : Int) (i : Nat) : Output :=
  (crawlCall samplePlatform (sampleAnswers b i)).getD ⟨[], []⟩

theorem crawlCall_sample (b : Int) (i : Nat) :
    crawlCall samplePlatform (sampleAnswers b i) = some (sampleCrawl b i) := by
  obtain ⟨out, hout, -⟩ := exists_crawlCall_sample b i
  rw [sampleCrawl, hout]
  rfl

theorem data_sampleCrawl (b : Int) (i : Nat) : (sampleCrawl b i).data = sampleItems b i := by
  obtain ⟨out, hout, hdata, -⟩ := exists_crawlCall_sample b i
  rw [sampleCrawl, hout]
  exact hdata

theorem witnessKey_sampleCrawl (b : Int) (i : Nat) :
    witnessKey sampleRuntime (sampleCrawl b i).witness = some (itemsKey b i) := by
  obtain ⟨out, hout, -, hkey⟩ := exists_crawlCall_sample b i
  rw [sampleCrawl, hout]
  exact hkey

/-- The block number of the second epoch. -/
def secondBlockId : Int := nextBlockId startSteemBlockId

/-- No two batches of the first two epochs have the same hash. -/
theorem nodup_itemsKeys : ((List.range' 1 16).map (itemsKey startSteemBlockId) ++
    (List.range' 1 16).map (itemsKey secondBlockId)).Nodup := by
  decide +kernel

theorem itemsKey_eq (b : Int) (i : Nat) : itemsKey b i = sampleCrypto.sha256 (sampleItems b i) :=
  rfl

-- From here on these are just names: unfolding them computes hashes.
attribute [irreducible] sampleDoc sampleItems sampleCrawl itemsKey

/-- The store after crawler 0 has done the first epoch. -/
def sampleTurn : Kanban :=
  .firstTurn sampleCrypto (sampleCrawl startSteemBlockId) (itemsKey startSteemBlockId)

/-- The actions up to there. -/
def turnActions : List Action :=
  List.replicate 7 .manager ++ (List.replicate 2 (.exec 0 (.plain [])) ++
    crawlActions 0 (sampleAnswers startSteemBlockId) 1 itemsPoolMax)

/-- The store after the manager has closed the epoch. -/
def sampleFirst : Kanban :=
  sampleTurn.closed sampleCrypto sampleDeployment.sort 1

/-- The actions up to there. -/
def firstActions : List Action := turnActions ++ List.replicate 4 .manager

section

variable {ok : State → Action → Prop} (hok : Lenient ok)
  (hbase : ok ⟨.booted sampleCrypto, ⟨.count 1 1, secondBlockId⟩,
    Function.update (fun _ => .idle) 0 (.readBase 1)⟩ (.exec 0 (.plain [])))
  (hdownload : ∀ i kb m f,
    ok ⟨kb, m, Function.update f 0 (.gather (.crawl 1 startSteemBlockId i) [])⟩
      (.exec 0 (.plain (sampleAnswers startSteemBlockId i))))

include hok hbase hdownload

theorem leads_sampleTurn : Leads sampleDeployment.step ok .init turnActions
    ⟨sampleTurn, ⟨.count 1 1, secondBlockId⟩, fun _ => .idle⟩ :=
  leads_firstTurn (D := sampleDeployment) hok rfl (crawlCall_sample _) (witnessKey_sampleCrawl _)
    hbase hdownload

theorem leads_sampleFirst : Leads sampleDeployment.step ok .init firstActions
    ⟨sampleFirst, ⟨.openEpoch, secondBlockId⟩, fun _ => .idle⟩ :=
  leads_firstEpoch (D := sampleDeployment) hok rfl (crawlCall_sample _) (witnessKey_sampleCrawl _)
    (List.Nodup.of_append_left nodup_itemsKeys) hbase hdownload

end

theorem leads_sampleFirst_answered : Leads sampleDeployment.step (Answered sampleSource) .init
    firstActions ⟨sampleFirst, ⟨.openEpoch, secondBlockId⟩, fun _ => .idle⟩ :=
  leads_sampleFirst (lenient_answered _) (answered_of_ne_gather (by simp))
    fun _ kb m f => answered_crawl (s := ⟨kb, m, f⟩) (sample_answers _ _ _)

theorem get_sampleFirst_items {j : Nat} (h1 : 1 ≤ j) (h16 : j ≤ itemsPoolMax) :
    sampleFirst.get (.items 1 j) = some (sampleItems startSteemBlockId j) := by
  rw [sampleFirst, Kanban.closed, Kanban.get_set_of_ne _ (by simp),
    Kanban.get_set_of_ne _ (by simp), sampleTurn, Kanban.firstTurn,
    Kanban.get_crawled _ _ h1 (by omega), data_sampleCrawl]

theorem get_sampleFirst_of_ne {k : Key} (hitems : ∀ j, k ≠ .items 1 j)
    (hroot : k ≠ .rootHash 1) (hepoch : k ≠ .epoch) :
    sampleFirst.get k = (Kanban.booted sampleCrypto).get k := by
  rw [sampleFirst, Kanban.closed, Kanban.get_set_of_ne _ hepoch, Kanban.get_set_of_ne _ hroot,
    sampleTurn, Kanban.firstTurn, Kanban.get_crawled_of_ne _ _ fun j _ _ => hitems j]

theorem get_sampleFirst_epoch : sampleFirst.get .epoch = some (epochPacket sampleCrypto 2) :=
  Kanban.get_set_self _ _ _

/-- Nothing else was ever stored under the keys of the items. -/
theorem stored_sampleFirst_items {j : Nat} {v : Bytes} (h : sampleFirst.Stored (.items 1 j) v) :
    v = sampleItems startSteemBlockId j := by
  rcases List.mem_cons.1 h with heq | h
  · cases heq
  · rcases List.mem_cons.1 h with heq | h
    · cases heq
    · rcases Kanban.stored_crawled _ _ h with h | ⟨_, -, -, hkey, h⟩
      · simp [Kanban.Stored, Kanban.booted, Kanban.set, Kanban.empty] at h
      · cases hkey
        rw [h, data_sampleCrawl]

end DeSearch
