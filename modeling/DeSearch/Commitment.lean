import DeSearch.Agreement
import DeSearch.Lib.Counting

/-!
# Closing an epoch

The manager looks at nothing but the number of witness keys. In an orderly run each shard has one
witness key (`files_unique`), and there are no more shards than keys that the manager waits for
(`length_shards_le`). So when there are enough keys, they are the keys of all shards and no other
key will come: an epoch is complete when it is closed (`complete_of_epoch_change`), and its witness
set is final once the root hash is there (`witnessSet_stable`).
-/

namespace DeSearch

open Run

/-! ## The witness keys of an epoch -/

/-- The shards of an epoch. -/
def shards (e : Int) : List Key :=
  (List.range' 1 itemsPoolMax).map (.items e) ++
    (if 2 ≤ e then (List.range' 1 indexPoolMax).map (.index e) else []) ++
    (if 3 ≤ e then (List.range' 1 indexPoolMax).map (.globalIndex e) else [])

theorem length_shards_le (e : Int) : (shards e).length ≤ expectedKeySize e := by
  have h16 : itemsPoolMax = 16 := rfl
  have h4 : indexPoolMax = 4 := rfl
  unfold shards expectedKeySize
  split_ifs <;> simp [h16, h4] <;> omega

theorem Task.Canonical.inRange {t : Task} (h : t.Canonical) : t.InRange := by
  cases t with
  | crawl e b i => exact h.1.2.2.2
  | index e i pos => exact h.1
  | reduce e i => exact h.1

theorem Task.InRange.key_mem_shards {t : Task} (h : t.InRange) : t.key ∈ shards t.epoch := by
  have hrange : ∀ {n i : Nat}, 1 ≤ i → i ≤ n → i ∈ List.range' 1 n := fun h1 hi =>
    List.mem_range'_1.2 ⟨h1, by omega⟩
  cases t with
  | crawl e b i =>
      exact List.mem_append_left _ (List.mem_append_left _ (List.mem_map_of_mem (hrange h.1 h.2)))
  | index e i pos =>
      obtain ⟨h2, h1, hi⟩ := h
      refine List.mem_append_left _ (List.mem_append_right _ ?_)
      rw [if_pos (show 2 ≤ (Task.index e i pos).epoch from h2)]
      exact List.mem_map_of_mem (hrange h1 hi)
  | reduce e i =>
      obtain ⟨h3, h1, hi⟩ := h
      refine List.mem_append_right _ ?_
      rw [if_pos (show 3 ≤ (Task.reduce e i).epoch from h3)]
      exact List.mem_map_of_mem (hrange h1 hi)

section

variable {P : Platform} {src : Source} {F : Task → Inputs → Prop} {s : State} {e : Int}
  {l : List Bytes}

variable (P src F) in
/-- The shard has been made and put, and its witness has this key. -/
def Files (kb : Kanban) (key : Key) (k : Bytes) : Prop :=
  ∃ t out, Made P src F kb t out ∧ t.key = key ∧ kb.Stored key out.data ∧
    witnessKey P.runtime out.witness = some k ∧ (k, out.witness) ∈ kb.hsets

theorem files_of_mem (hF : ∀ t xs, F t xs → t.InRange) (h : Traced P src F s) {k : Bytes}
    (hk : k ∈ s.kanban.smembers e) : ∃ key ∈ shards e, Files P src F s.kanban key k := by
  obtain ⟨t, out, hm, rfl, hrest⟩ := h.members e k (Kanban.mem_smembers.1 hk)
  obtain ⟨xs, hFt, -⟩ := id hm
  exact ⟨t.key, (hF t xs hFt).key_mem_shards, t, out, hm, rfl, hrest⟩

theorem files_unique (hsrc : src.Deterministic) (hF : ∀ t xs, F t xs → t.Canonical)
    {ord : Task → List Bytes → HashOrder} (hord : ∀ t xs, F t xs → OrderedBy ord t xs)
    (h : Traced P src F s) (key : Key) (k k' : Bytes) (hk : Files P src F s.kanban key k)
    (hk' : Files P src F s.kanban key k') : k = k' := by
  obtain ⟨t, out, hm, hkey, -, hw, -⟩ := hk
  obtain ⟨t', out', hm', hkey', -, hw', -⟩ := hk'
  rw [h.made_unique hsrc hF hord hm hm' (hkey.trans hkey'.symm)] at hw
  exact Option.some.inj (hw.symm.trans hw')

section

variable (hF : ∀ t xs, F t xs → t.InRange) (h : Traced P src F s)
  (hunique : ∀ key k k', Files P src F s.kanban key k → Files P src F s.kanban key k' → k = k')

include hF h hunique

/-- If no shard has two witness keys, a quorum has those of all shards. -/
theorem Quorum.files (hq : Quorum s.kanban e l) :
    ∀ key ∈ shards e, ∃ k, Files P src F s.kanban key k := by
  intro key hkey
  obtain ⟨k, -, hk⟩ := Counting.exists_of_length_le hunique (nodup_stdSet l)
    (fun k hk => files_of_mem hF h (hq.sub (mem_stdSet.1 hk)))
    ((length_shards_le e).trans hq.enough) key hkey
  exact ⟨k, hk⟩

/-- A quorum is the whole witness set. -/
theorem Quorum.mem_iff (hq : Quorum s.kanban e l) (k : Bytes) :
    k ∈ l ↔ k ∈ s.kanban.smembers e := by
  refine ⟨fun hk => hq.sub hk, fun hk => ?_⟩
  obtain ⟨key, hkey, hfiles⟩ := files_of_mem hF h hk
  exact mem_stdSet.1 (Counting.mem_of_length_le hunique (nodup_stdSet l)
    (fun k hk => files_of_mem hF h (hq.sub (mem_stdSet.1 hk)))
    ((length_shards_le e).trans hq.enough) hkey hfiles)

end

end

theorem ledger_exec (D : Deployment) (as : List Action) :
    Ledger D.platform D.sort (exec D.step .init as) :=
  exec_invariant as (ledger_init _ _) fun _ a hs => hs.step a

/-- All shards of the epoch are there, each with a witness for its value. -/
def Complete (P : Platform) (kb : Kanban) (e : Int) : Prop :=
  ∀ key ∈ shards e, ∃ v w, kb.get key = some v ∧ kb.hget (P.crypto.sha256 v) = some w ∧
    witnessKey P.runtime w = some (P.crypto.sha256 v)

theorem Traced.complete {P : Platform} {src : Source} {F : Task → Inputs → Prop} {s : State}
    {e : Int} {l : List Bytes} (hsrc : src.Deterministic) (hF : ∀ t xs, F t xs → t.Canonical)
    {ord : Task → List Bytes → HashOrder} (hord : ∀ t xs, F t xs → OrderedBy ord t xs)
    (hfits : ∀ t xs, F t xs → t.Fits P xs) (h : Traced P src F s) (hq : Quorum s.kanban e l) :
    Complete P s.kanban e := by
  intro key hkey
  obtain ⟨k, t, out, hm, rfl, hstored, hw, hhash⟩ :=
    hq.files (fun t xs hc => (hF t xs hc).inRange) h (files_unique hsrc hF hord h) key hkey
  obtain ⟨v, hv, hmem⟩ := Kanban.exists_get_of_mem hstored
  obtain rfl : v = out.data := h.agrees hsrc hF hord t.isData_key v _ hmem hstored
  rw [hm.witnessKey_eq hfits, Option.some.injEq] at hw
  rw [← hw] at hhash
  obtain ⟨w, hget, hrec⟩ := exists_lookup_of_mem hhash
  obtain ⟨-, -, -, -, hkeyw⟩ := h.records _ w hrec
  exact ⟨_, w, hv, hget, hkeyw⟩

/-- The only step that takes the epoch from `e` to `e + 1` is the manager's, after it has stored
the root hash of `e`. -/
theorem Ledger.rootHash_of_epoch_change {D : Deployment} {s : State} {a : Action} {e : Int}
    (h : Ledger D.platform D.sort s)
    (he : getEpochInt D.platform.runtime D.platform.crypto s.kanban = some e)
    (he' : getEpochInt D.platform.runtime D.platform.crypto (D.step a s).kanban = some (e + 1)) :
    ∃ v, s.kanban.Stored (.rootHash e) v := by
  have hsame : (D.step a s).kanban.get .epoch ≠ s.kanban.get .epoch := by
    intro hget
    rw [getEpochInt, getEpoch, hget] at he'
    rw [getEpochInt, getEpoch, he'] at he
    simp at he
  cases a with
  | exec p answers =>
      have hstep := Executor.step_spec D.platform (D.role p) answers s.kanban (s.procs p)
      exact absurd (Kanban.get_of_ledger_eq hstep.ledger_eq rfl) hsame
  | crash p => exact absurd rfl hsame
  | manager =>
      obtain ⟨m', kb', hstep, heq⟩ := D.step_manager s
      rw [heq] at hsame he'
      obtain ⟨kb, m, procs⟩ := s
      have hpc := h.pc
      cases hstep with
      | boot | openEpoch | commit => exact absurd (Kanban.get_set_of_ne _ (by simp) _) hsame
      | setFirst =>
          have hminus : getEpochInt D.platform.runtime D.platform.crypto kb = some (-1) := hpc
          obtain rfl := Option.some.inj (hminus.symm.trans he)
          have hone := (epochIs_set_epoch D.platform kb (e := 1) (by decide)).getEpochInt
          exact absurd (hone.symm.trans he') (by simp)
      | increment =>
          obtain ⟨hc, -, hroot⟩ := hpc
          obtain rfl := Option.some.inj (hc.getEpochInt.symm.trans he)
          exact hroot
      | _ => exact absurd rfl hsame

/-- **Completeness.** In an orderly run whose outputs fit their buffers, whenever the epoch changes
from `e` to `e + 1` all shards of `e` are there, each with a witness for its value. -/
theorem complete_of_epoch_change (D : Deployment) (src : Source) (hsrc : src.Deterministic)
    (ord : Task → List Bytes → HashOrder) (as : List Action) (a : Action)
    (h : Meets D.step (fun s a => Steady src ord s a ∧ CallsMeet (Task.Fits D.platform) s a) .init
      (as ++ [a])) (hbuilt : D.BuiltInOrder (as ++ [a])) (e : Int)
    (he : getEpochInt D.platform.runtime D.platform.crypto (exec D.step .init as).kanban = some e)
    (he' : getEpochInt D.platform.runtime D.platform.crypto
      (exec D.step .init (as ++ [a])).kanban = some (e + 1)) :
    Complete D.platform (exec D.step .init (as ++ [a])).kanban e := by
  have hstep : exec D.step .init (as ++ [a]) = D.step a (exec D.step .init as) := exec_append
  rw [hstep] at he'
  obtain ⟨v, hv⟩ := (ledger_exec D as).rootHash_of_epoch_change he he'
  have hv' : (exec D.step .init (as ++ [a])).kanban.Stored (.rootHash e) v := by
    rw [hstep]
    exact (D.extends_step a).sets hv
  obtain ⟨l, hq, -⟩ := (ledger_exec D (as ++ [a])).roots e v hv'
  have hord := meets_orderly_iff.2 ⟨h.mono fun _ _ ha => ha.1, hbuilt⟩
  exact (traced_orderly_and (hord.and (h.mono fun _ _ ha => ha.2))).complete hsrc
    (fun _ _ hF => hF.1) (fun _ _ hF => hF.2.1) (fun _ _ hF => hF.2.2) hq

/-- **Commitment.** In an orderly run a witness set is final once its root hash is stored, and the
root hash is right from then on. -/
theorem witnessSet_stable (D : Deployment) (src : Source) (hsrc : src.Deterministic)
    (ord : Task → List Bytes → HashOrder) (as bs : List Action)
    (h : Meets D.step (Steady src ord) .init (as ++ bs)) (hbuilt : D.BuiltInOrder (as ++ bs))
    (e : Int) (hroot : (exec D.step .init as).kanban.get (.rootHash e) ≠ none) :
    (∀ k, k ∈ (exec D.step .init (as ++ bs)).kanban.smembers e ↔
      k ∈ (exec D.step .init as).kanban.smembers e) ∧
    checkRootHash D.platform.crypto D.sort (exec D.step .init (as ++ bs)).kanban e =
      some true := by
  have htr := traced_orderly (meets_orderly_iff.2 ⟨h, hbuilt⟩)
  have hmem := fun {l : List Bytes} (hq : Quorum (exec D.step .init (as ++ bs)).kanban e l) =>
    hq.mem_iff (fun _ _ hF => hF.1.inRange) htr (files_unique hsrc (fun _ _ hF => hF.1)
      (fun _ _ hF => hF.2.1) htr)
  have hext : (exec D.step .init as).kanban.Extends (exec D.step .init (as ++ bs)).kanban := by
    rw [exec_append]
    exact extends_exec _ bs
  obtain ⟨v, hv⟩ := Option.ne_none_iff_exists'.1 hroot
  constructor
  · obtain ⟨l, hq, -⟩ := (ledger_exec D as).roots e v (Kanban.mem_of_get hv)
    intro k
    refine ⟨fun hk => ?_, fun hk => ?_⟩
    · exact hq.sub ((hmem (hq.mono hext.sadds) k).2 hk)
    · exact Kanban.mem_smembers.2 (hext.sadds (Kanban.mem_smembers.1 hk))
  · obtain ⟨w, hw, hstored⟩ := Kanban.exists_get_of_mem (hext.sets (Kanban.mem_of_get hv))
    obtain ⟨l, hq, rfl⟩ := (ledger_exec D (as ++ bs)).roots e w hstored
    rw [checkRootHash_eq hw, Option.some.injEq, decide_eq_true_eq]
    exact rootHashOf_congr _ _ (hmem hq)

/-! ## Witness keys of a stale crawler -/

/-- The store after crawler 0 has done `n` shards of the second epoch, and indexer 2 all of
them. -/
def secondIndexed (n : Nat) : Kanban := (secondTurn n).indexed sampleIndex indexKey 1 4

/-- Its witness keys. -/
def secondKeys (n : Nat) : List Bytes :=
  (List.range' 1 n).map (itemsKey secondBlockId) ++ (List.range' 1 4).map indexKey

theorem get_secondIndexed_of_ne {k : Key} (n : Nat)
    (hk : ∀ j, k ≠ .globalIndex 2 j ∧ k ≠ .index 2 j) :
    (secondIndexed n).get k = (secondTurn n).get k :=
  Kanban.get_indexed_of_ne _ _ fun j _ _ => hk j

theorem get_secondIndexed_epoch (n : Nat) :
    (secondIndexed n).get .epoch = some (epochPacket sampleCrypto 2) := by
  rw [get_secondIndexed_of_ne n (by simp), get_secondTurn_of_ne n (by simp) (by simp),
    get_sampleFirst_epoch]

theorem mem_smembers_secondIndexed {n : Nat} {k : Bytes} :
    k ∈ (secondIndexed n).smembers 2 ↔ k ∈ secondKeys n := by
  have hfirst : k ∉ openedSecond.smembers 2 := by
    change k ∉ (Kanban.firstTurn _ _ _).smembers 2
    rw [Kanban.firstTurn, Kanban.mem_smembers_crawled]
    rintro (hmem | ⟨h2, -⟩)
    · cases hmem
    · cases h2
  rw [secondIndexed, Kanban.mem_smembers_indexed, secondTurn, Kanban.mem_smembers_crawled]
  simp only [hfirst, false_or, true_and, secondKeys, List.mem_append, List.mem_map,
    List.mem_range'_1, and_assoc, eq_comm]

/-- The state then. -/
def afterIndexed (n : Nat) : State :=
  ⟨secondIndexed n, afterStale.manager, (afterTurn n).procs⟩

theorem leads_afterIndexed {n : Nat} (hn : n ≤ itemsPoolMax) : ∃ as,
    Leads sampleDeployment.step (Answered sampleSource) .init as (afterIndexed n) := by
  obtain ⟨as, hturn⟩ := leads_afterTurn hn
  have hepoch : (secondTurn n).get .epoch = some (epochPacket sampleCrypto 2) :=
    (get_secondTurn_of_ne n (by simp) (by simp)).trans get_sampleFirst_epoch
  have hindex := leads_indexTurn (D := sampleDeployment) (m := afterStale.manager)
    (f := (afterTurn n).procs) (p := 2) (lenient_answered sampleSource) rfl rfl
    (getEpochInt_epochPacket (by decide) hepoch) (fun j _ _ => spare_sampleItems _ j)
    (fun i => indexCall_sample) (fun i => witnessKey_sampleIndex)
    (fun j h1 hj => (get_secondTurn_of_ne n (by simp) (by simp)).trans
      (get_sampleFirst_items h1 hj))
    (fun j => (get_secondTurn_of_ne n (by simp) (by simp)).trans
      (get_sampleFirst_of_ne (by simp) (by simp) (by simp)))
    fun i _ kb _ _ _ _ => answered_index (s := ⟨kb, afterStale.manager, (afterTurn n).procs⟩)
  exact ⟨_, hturn.append hindex⟩

/-- Crawler 1 publishes its stale shard. -/
theorem leads_stalePublish {s : State} (h : s.procs 1 = staleCrawler) :
    Leads sampleDeployment.step (Answered sampleSource) s (List.replicate 3 (.exec 1 (.plain [])))
      (s.upd 1 (.check (.crawl 2 startSteemBlockId 2)) (s.kanban.publish
        (.crawl 2 startSteemBlockId 1) (sampleCrawl startSteemBlockId 1)
        (itemsKey startSteemBlockId 1))) := by
  have hpublish := leads_publish (D := sampleDeployment) (s := s) (p := 1)
    (lenient_answered sampleSource) s.kanban (t := .crawl 2 startSteemBlockId 1)
    (witnessKey_sampleCrawl startSteemBlockId 1)
  rw [State.upd_eq_self (x := .put _ _) h] at hpublish
  exact hpublish

/-- The store in which crawler 0 has done 15 shards of the second epoch, indexer 2 all of them, and
crawler 1 its stale one. -/
def staleIndexed : Kanban :=
  (secondIndexed 15).publish (.crawl 2 startSteemBlockId 1) (sampleCrawl startSteemBlockId 1)
    (itemsKey startSteemBlockId 1)

theorem mem_smembers_staleIndexed {k : Bytes} :
    k ∈ staleIndexed.smembers 2 ↔ k ∈ itemsKey startSteemBlockId 1 :: secondKeys 15 := by
  rw [staleIndexed, Kanban.mem_smembers_publish, mem_smembers_secondIndexed, List.mem_cons]
  simp only [Task.epoch, true_and, or_comm]

theorem get_staleIndexed_last : staleIndexed.get (.items 2 16) = none := by
  rw [staleIndexed, Kanban.get_publish, if_neg (by simp [Task.key]),
    get_secondIndexed_of_ne 15 (by simp), secondTurn,
    Kanban.get_crawled_of_ne _ _ fun j _ hj => by simp; omega,
    get_openedSecond_of_ne (by simp), get_sampleFirst_of_ne (by simp) (by simp) (by simp)]
  rfl

theorem nodup_staleKeys : (itemsKey startSteemBlockId 1 :: secondKeys 15).Nodup := by
  refine nodup_keys.sublist ?_
  have hfirst : [1].Sublist (List.range' 1 16) := by decide
  have hsecond : (List.range' 1 15).Sublist (List.range' 1 16) := by decide
  exact (hfirst.map (itemsKey startSteemBlockId)).append
    ((hsecond.map (itemsKey secondBlockId)).append (.refl _))

/-- **An incomplete epoch is closed.** Crawler 0 has published 15 shards of epoch 2, and indexer 2
all of its own. The witness key of the stale shard is one more, and the manager closes the epoch
without the last shard. -/
theorem stale_crawler_not_complete : ∃ as a e,
    Meets sampleDeployment.step (Answered sampleSource) .init (as ++ [a]) ∧
    getEpochInt sampleRuntime sampleCrypto (exec sampleDeployment.step .init as).kanban = some e ∧
    getEpochInt sampleRuntime sampleCrypto
      (exec sampleDeployment.step .init (as ++ [a])).kanban = some (e + 1) ∧
    ¬Complete samplePlatform (exec sampleDeployment.step .init (as ++ [a])).kanban e := by
  obtain ⟨as, hindexed⟩ := leads_afterIndexed (n := 15) (by decide)
  have hpublish := leads_stalePublish (s := afterIndexed 15) rfl
  have hepoch : staleIndexed.get .epoch = some (epochPacket sampleCrypto 2) :=
    (Kanban.get_publish _ _ _ _ _).trans (get_secondIndexed_epoch 15)
  have hcount : expectedKeySize 2 ≤ (stdSet (staleIndexed.smembers 2)).length :=
    length_le_stdSet nodup_staleKeys fun k hk => mem_smembers_staleIndexed.2 hk
  have hclose := leads_reread (D := sampleDeployment) (b := nextBlockId secondBlockId)
    (s := (afterIndexed 15).upd 1 (.check (.crawl 2 startSteemBlockId 2)) staleIndexed)
    (lenient_answered sampleSource) (by decide) hepoch hcount
  have hbefore := hindexed.append (hpublish.append hclose)
  have hafter := hbefore.append
    (leads_manager (D := sampleDeployment) (lenient_answered sampleSource) rfl .nil)
  refine ⟨_, .manager, 2, hafter.meets, ?_, ?_, ?_⟩
  · rw [hbefore.exec_eq]
    exact getEpochInt_epochPacket (by decide) ((Kanban.get_set_of_ne _ (by simp) _).trans hepoch)
  · rw [hafter.exec_eq]
    exact getEpochInt_epochPacket (by decide) (Kanban.get_set_self _ _ _)
  · rw [hafter.exec_eq]
    intro hcomplete
    obtain ⟨v, w, hv, -⟩ := hcomplete (.items 2 16) (by decide)
    have hget : (staleIndexed.closed sampleCrypto sampleDeployment.sort 2).get (.items 2 16) =
        none := by
      rw [Kanban.closed, Kanban.get_set_of_ne _ (by simp), Kanban.get_set_of_ne _ (by simp),
        get_staleIndexed_last]
    exact absurd (hv.symm.trans hget) (by simp)

theorem rootHash_staleKeys : rootHashOf sampleCrypto sampleDeployment.sort (secondKeys 16) ≠
    rootHashOf sampleCrypto sampleDeployment.sort
      (itemsKey startSteemBlockId 1 :: secondKeys 16) := by
  decide +kernel

/-- The store in which all shards of the second epoch are there, and the root hash is set. -/
def committedSecond : Kanban :=
  (secondIndexed 16).set (.rootHash 2)
    (rootHashOf sampleCrypto sampleDeployment.sort ((secondIndexed 16).smembers 2))

theorem mem_smembers_committedSecond {k : Bytes} :
    k ∈ committedSecond.smembers 2 ↔ k ∈ secondKeys 16 := by
  rw [committedSecond, Kanban.smembers_set, mem_smembers_secondIndexed]

theorem get_committedSecond_rootHash : committedSecond.get (.rootHash 2) =
    some (rootHashOf sampleCrypto sampleDeployment.sort (secondKeys 16)) := by
  rw [committedSecond, Kanban.get_set_self,
    rootHashOf_congr _ _ fun _ => mem_smembers_secondIndexed]

theorem leads_committedSecond : ∃ as,
    Leads sampleDeployment.step (Answered sampleSource) .init as
      ((afterIndexed 16).mgr ⟨.reread 2, nextBlockId secondBlockId⟩ committedSecond) := by
  obtain ⟨as, hindexed⟩ := leads_afterIndexed (n := 16) (by decide)
  have hnodup : (secondKeys 16).Nodup := nodup_keys.of_append_right
  have hcount : expectedKeySize 2 ≤ (stdSet ((secondIndexed 16).smembers 2)).length :=
    length_le_stdSet hnodup fun k hk => mem_smembers_secondIndexed.2 hk
  exact ⟨_, hindexed.append (leads_commit (D := sampleDeployment) (s := afterIndexed 16)
    (b := nextBlockId secondBlockId) (lenient_answered sampleSource) hcount)⟩

/-- **A witness key after the root hash.** All shards of epoch 2 are there and the manager has
stored the root hash; then crawler 1 adds the witness key of its stale shard. -/
theorem stale_crawler_adds_key : ∃ as bs e,
    Meets sampleDeployment.step (Answered sampleSource) .init (as ++ bs) ∧
    (exec sampleDeployment.step .init as).kanban.get (.rootHash e) ≠ none ∧
    (∃ k, k ∈ (exec sampleDeployment.step .init (as ++ bs)).kanban.smembers e ∧
      k ∉ (exec sampleDeployment.step .init as).kanban.smembers e) ∧
    checkRootHash sampleCrypto sampleDeployment.sort
      (exec sampleDeployment.step .init (as ++ bs)).kanban e = some false := by
  obtain ⟨as, hbefore⟩ := leads_committedSecond
  have hpublish := leads_stalePublish (s := (afterIndexed 16).mgr
    ⟨.reread 2, nextBlockId secondBlockId⟩ committedSecond) rfl
  have hafter := hbefore.append hpublish
  have hkey : itemsKey startSteemBlockId 1 ∉ secondKeys 16 := fun hmem =>
    List.disjoint_of_nodup_append nodup_keys (List.mem_map.2 ⟨1, by decide, rfl⟩) hmem
  have hmem : ∀ k, k ∈ (exec sampleDeployment.step .init
      (as ++ List.replicate 3 (.exec 1 (.plain [])))).kanban.smembers 2 ↔
      k ∈ itemsKey startSteemBlockId 1 :: secondKeys 16 := by
    intro k
    rw [hafter.exec_eq, State.upd_kanban, Kanban.mem_smembers_publish, List.mem_cons, or_comm]
    exact or_congr (by simp [Task.epoch]) mem_smembers_committedSecond
  have hroot : (exec sampleDeployment.step .init
      (as ++ List.replicate 3 (.exec 1 (.plain [])))).kanban.get (.rootHash 2) =
      some (rootHashOf sampleCrypto sampleDeployment.sort (secondKeys 16)) := by
    rw [hafter.exec_eq, State.upd_kanban, Kanban.get_publish, if_neg (by simp [Task.key])]
    exact get_committedSecond_rootHash
  refine ⟨as, _, 2, hafter.meets, ?_, ⟨itemsKey startSteemBlockId 1, ?_, ?_⟩, ?_⟩
  · rw [hbefore.exec_eq]
    exact Option.ne_none_iff_exists'.2 ⟨_, get_committedSecond_rootHash⟩
  · exact (hmem _).2 List.mem_cons_self
  · rw [hbefore.exec_eq]
    exact fun h => hkey (mem_smembers_committedSecond.1 h)
  · rw [checkRootHash_eq hroot, rootHashOf_congr _ _ hmem, Option.some.injEq,
      decide_eq_false_iff_not]
    exact rootHash_staleKeys

/-! ## The first epoch -/

theorem lenient_orderly_fits (src : Source) (P : Platform) :
    Lenient fun s a => Orderly src plainOrder s a ∧ CallsMeet (Task.Fits P) s a :=
  (lenient_orderly src).and (lenient_callsMeet _)

/-- The first epoch of the small deployment is complete when it is closed. -/
theorem complete_first_epoch :
    Meets sampleDeployment.step (fun s a => Steady sampleSource plainOrder s a ∧
      CallsMeet (Task.Fits samplePlatform) s a) .init
      (turnActions ++ List.replicate 3 .manager ++ [.manager]) ∧
    sampleDeployment.BuiltInOrder (turnActions ++ List.replicate 3 .manager ++ [.manager]) ∧
    Complete samplePlatform (exec sampleDeployment.step .init
      (turnActions ++ List.replicate 3 .manager ++ [.manager])).kanban 1 := by
  have hturn := leads_sampleTurn (lenient_orderly_fits sampleSource samplePlatform)
    ⟨orderly_sampleBase, callsMeet_of_ne_gather (by simp)⟩
    fun i kb m f => ⟨orderly_sampleDownload i kb m f,
      callsMeet_crawl (s := ⟨kb, m, f⟩) (admits_sampleAnswers _ _ _).fits_crawl⟩
  have hbefore := hturn.append (leads_reread (D := sampleDeployment) (s := .init)
    (lenient_orderly_fits sampleSource samplePlatform) (by decide)
    (Kanban.get_epoch_firstTurn _ _ _) (Kanban.enough_firstTurn _ _
      (List.Nodup.of_append_left nodup_keys)))
  have hafter := hbefore.append (leads_manager (D := sampleDeployment)
    (lenient_orderly_fits sampleSource samplePlatform) rfl .nil)
  have hmeets := hafter.meets.mono fun _ _ h => And.intro h.1.1 h.2
  have hbuilt := (meets_orderly_iff.1 (hafter.meets.mono fun _ _ h => h.1)).2
  refine ⟨hmeets, hbuilt, complete_of_epoch_change sampleDeployment sampleSource
    deterministic_sampleSource plainOrder _ _ hmeets hbuilt 1 ?_ ?_⟩
  · rw [hbefore.exec_eq]
    exact getEpochInt_epochPacket (by decide)
      ((Kanban.get_set_of_ne _ (by simp) _).trans (Kanban.get_epoch_firstTurn _ _ _))
  · rw [hafter.exec_eq]
    exact getEpochInt_epochPacket (by decide) (Kanban.get_set_self _ _ _)

/-- Its witness set is final. -/
theorem witnessSet_stable_first_epoch :
    Meets sampleDeployment.step (Steady sampleSource plainOrder) .init
      (firstActions ++ List.replicate 4 .manager) ∧
    sampleDeployment.BuiltInOrder (firstActions ++ List.replicate 4 .manager) ∧
    (exec sampleDeployment.step .init firstActions).kanban.get (.rootHash 1) ≠ none ∧
    checkRootHash sampleCrypto sampleDeployment.sort (exec sampleDeployment.step .init
      (firstActions ++ List.replicate 4 .manager)).kanban 1 = some true := by
  have hfirst := leads_sampleFirst (lenient_orderly sampleSource) orderly_sampleBase
    orderly_sampleDownload
  obtain ⟨hmeets, hbuilt⟩ := meets_orderly_iff.1 (hfirst.append (leads_open (D := sampleDeployment)
    (s := afterFirst) (lenient_orderly sampleSource) (by decide) (by decide)
    get_sampleFirst_epoch)).meets
  have hroot : (exec sampleDeployment.step .init firstActions).kanban.get (.rootHash 1) ≠ none := by
    rw [hfirst.exec_eq]
    simp [sampleFirst, Kanban.closed]
  exact ⟨hmeets, hbuilt, hroot, (witnessSet_stable sampleDeployment sampleSource
    deterministic_sampleSource plainOrder _ _ hmeets hbuilt 1 hroot).2⟩

end DeSearch
