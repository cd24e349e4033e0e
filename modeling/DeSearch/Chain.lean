import DeSearch.Posts
import DeSearch.Epochs
import Mathlib.Algebra.Order.BigOperators.Group.List

/-!
# Runs over a chain of equal posts

A chain on which all posts are the same, and only the blocks differ in how many they have. What the
pipeline makes of the posts depends only on their number (`crawlOutput_chain`, `indexOutput_chain`),
so that a whole run can be followed: two parts of the chain that hold equally many posts look the
same to an indexer. A chain of blank posts needs only few bytes for each document.
-/

namespace DeSearch

open Run JSON

/-- A chain of equal posts. No block is without posts, and the posts of a shard fit its buffers. -/
structure Chain where
  /-- the body of each post -/
  body : Bytes
  /-- how many posts a block has -/
  count : Int → Nat
  unescaped : Unescaped body
  count_pos : ∀ n, 1 ≤ count n
  count_le : ∀ n, (body.length + 6) * count n ≤ 1000

theorem unescaped_alpha : Unescaped (ascii "alpha") := ⟨by decide, by decide⟩

/-- Sample words, and any hash. -/
def chainPlatform (C : Crypto) : Platform := { samplePlatform with crypto := C }

section

variable (c : Chain) (n : Nat)

/-- A block with `n` of the posts. -/
def Chain.block : Bytes := (postBlock (List.replicate n c.body)).dump 1

/-- A batch of them. -/
def Chain.batch : Bytes := postBatch (List.replicate n c.body)

/-- Their documents. -/
def Chain.docs : List Bytes := List.replicate n (postDoc c.body)

/-- Their index. -/
def Chain.blob : Bytes :=
  merge2Binary insertionOrder (digests (c.docs n)) (indexOf samplePlatform (c.docs n))

end

variable {c : Chain} {n m : Nat}

theorem unescaped_of_mem_replicate {body : Bytes} (h : body ∈ List.replicate n c.body) :
    Unescaped body := by
  rw [List.eq_of_mem_replicate h]
  exact c.unescaped

theorem flatten_map_replicate (ks : List Nat) (body : Bytes) :
    (ks.map fun k => List.replicate k body).flatten = List.replicate ks.sum body := by
  induction ks with
  | nil => rfl
  | cons k ks ih => rw [List.map_cons, List.flatten_cons, ih, List.sum_cons, List.replicate_add]

/-! ## A hash without collisions on a list -/

/-- A stand-in for the cryptography: a hash that numbers the messages of a list. -/
def tableCrypto (msgs : List Bytes) : Crypto where
  sha256 m := sigToString (natBytes 32 (msgs.idxOf m))
  sign m := natBytes 64 (fingerprint m)
  verify m sig := sig = natBytes 64 (fingerprint m)
  sha256_hex _ _ hc := isHex_of_mem_sigToString hc
  sha256_length m := by simp [length_sigToString, natBytes]
  sign_length := length_natBytes_fingerprint
  verify_sign := decide_fingerprint

theorem tableCrypto_injective {msgs : List Bytes} (hlen : msgs.length < 256) {m m' : Bytes}
    (hm : m ∈ msgs) (h : (tableCrypto msgs).sha256 m = (tableCrypto msgs).sha256 m') : m = m' := by
  have hbyte := congrArg List.head? (sigToString_injective h)
  have hle : msgs.idxOf m' ≤ msgs.length := List.idxOf_le_length
  have hlt : msgs.idxOf m < msgs.length := List.idxOf_lt_length_iff.2 hm
  have hidx : msgs.idxOf m = msgs.idxOf m' := by
    simp [natBytes, Fin.ext_iff, List.range_succ_eq_map] at hbyte
    omega
  exact (List.idxOf_inj hm).1 hidx

/-! ## Sizes -/

theorem length_chainBatch (h : 0 < n) : (c.batch n).length = (c.body.length + 6) * n := by
  rw [Chain.batch, length_postBatch (fun _ => unescaped_of_mem_replicate) (by simp; omega),
    List.map_replicate, List.sum_replicate_nat, Nat.mul_comm]

theorem chainBatch_injective (hn : 0 < n) (hm : 0 < m) (h : c.batch n = c.batch m) : n = m := by
  have hlen := congrArg List.length h
  rw [length_chainBatch hn, length_chainBatch hm] at hlen
  exact Nat.eq_of_mul_eq_mul_left (Nat.succ_pos _) hlen

theorem length_chainBlock (h : 0 < n) :
    (c.block n).length = (c.body.length + 161) * n + 107 := by
  rw [Chain.block, length_postBlock (fun _ => unescaped_of_mem_replicate) (by simp; omega),
    List.map_replicate, List.sum_replicate_nat, Nat.mul_comm]

theorem chainBlock_injective (hn : 0 < n) (hm : 0 < m) (h : c.block n = c.block m) : n = m := by
  have hlen := congrArg List.length h
  rw [length_chainBlock hn, length_chainBlock hm, Nat.add_right_cancel_iff] at hlen
  exact Nat.eq_of_mul_eq_mul_left (Nat.succ_pos _) hlen

theorem length_chainDocs : (c.docs n).length = n := List.length_replicate

theorem chainDocs_add : c.docs n ++ c.docs m = c.docs (n + m) :=
  List.replicate_append_replicate

/-- Only the posts matter for a batch and an index. -/
theorem chainBatch_congr {c c' : Chain} (h : c.body = c'.body) (n : Nat) :
    c.batch n = c'.batch n := by
  rw [Chain.batch, Chain.batch, h]

theorem chainBlob_congr {c c' : Chain} (h : c.body = c'.body) (n : Nat) : c.blob n = c'.blob n := by
  rw [Chain.blob, Chain.blob, Chain.docs, Chain.docs, h]

theorem length_wordsIn_le (text : Bytes) : (wordsIn text).length ≤ text.length + 1 := by
  rw [wordsIn, List.length_map]
  exact Runs.length_runs_le _ _ _

theorem blobSize_chainDocs_le (C : Crypto) (n : Nat) :
    blobSize (chainPlatform C) (c.docs n) ≤ 4 + 13 * ((c.body.length + 3) * n) := by
  have hsum : ((c.docs n).map fun doc => doc.length + 1).sum = (c.body.length + 3) * n := by
    rw [Chain.docs, List.map_replicate, List.sum_replicate_nat, postDoc, List.length_append]
    have hblanks : (ascii "  ").length = 2 := rfl
    rw [hblanks, Nat.mul_comm]
    congr 1
    omega
  rw [← hsum]
  refine blobSize_le fun doc _ => ?_
  rw [show (chainPlatform C).tokens doc = (wordsIn doc).map sphCRC32 from rfl, List.length_map]
  exact length_wordsIn_le doc

/-- The hash has no part in an index. -/
theorem indexOf_chainPlatform (C : Crypto) (docs : List Bytes) :
    indexOf (chainPlatform C) docs = indexOf samplePlatform docs := by
  have hyield : ∀ tbl docID, yieldAll (chainPlatform C) tbl docID docs =
      yieldAll samplePlatform tbl docID docs := by
    induction docs with
    | nil => exact fun _ _ => rfl
    | cons doc docs ih => exact fun _ _ => ih _ _
  exact congrArg (samplePlatform.stop.foldl Multimap.erase) (hyield _ _)

theorem nulFree_of_mem_chainDocs {doc : Bytes} (h : doc ∈ c.docs n) : NulFree doc := by
  rw [List.eq_of_mem_replicate h]
  exact c.unescaped.postDoc.2

theorem chainBlob_eq (C : Crypto) (n : Nat) : c.blob n =
    merge2Binary insertionOrder (digests (c.docs n)) (indexOf (chainPlatform C) (c.docs n)) := by
  rw [indexOf_chainPlatform, Chain.blob]

theorem length_chainBlob (C : Crypto) (h : n + 1 < 2 ^ 32) :
    (c.blob n).length = blobSize (chainPlatform C) (c.docs n) := by
  have hcount : (c.docs n).length + 1 < 2 ^ 32 := by rwa [length_chainDocs]
  rw [chainBlob_eq C, length_merge2Binary insertionOrder (indexes_indexOf hcount) hcount]

/-- More posts make a longer index. -/
theorem length_chainBlob_lt (h : n < m) (hm : m + 1 < 2 ^ 32) :
    (c.blob n).length < (c.blob m).length := by
  have hadd : c.docs n ++ c.docs (m - n) = c.docs m := by
    rw [chainDocs_add, Nat.add_sub_cancel' h.le]
  have hle := blobSize_le_append (P := chainPlatform sampleCrypto) (c.docs n) (c.docs (m - n))
    (by rwa [hadd, length_chainDocs])
  rw [hadd, length_chainDocs] at hle
  rw [length_chainBlob sampleCrypto (by omega), length_chainBlob sampleCrypto hm]
  omega

theorem chainBlob_injective (hn : n + 1 < 2 ^ 32) (hm : m + 1 < 2 ^ 32)
    (h : c.blob n = c.blob m) : n = m := by
  have hlen := congrArg List.length h
  rcases lt_trichotomy n m with hlt | heq | hlt
  · have := length_chainBlob_lt (c := c) hlt hm
    omega
  · exact heq
  · have := length_chainBlob_lt (c := c) hlt hn
    omega

theorem nulFree_chainBatch (n : Nat) : NulFree (c.batch n) := by
  refine nulFree_dump (array _) ?_ 1
  refine cleanElems_strings fun s hs => ?_
  rw [List.map_replicate] at hs
  rw [List.eq_of_mem_replicate hs]
  exact c.unescaped.postDoc.2

theorem nulFree_chainBlock (n : Nat) : NulFree (c.block n) :=
  nulFree_postBlock fun _ h => (unescaped_of_mem_replicate h).2

/-- The index of the documents is read back. -/
theorem represents_chainBlob (C : Crypto) (h : (c.body.length + 3) * n ≤ 100000000) :
    Represents (chainPlatform C) (c.docs n) (c.blob n) := by
  have hsize : blobSize (chainPlatform C) (c.docs n) < 2 ^ 31 :=
    (blobSize_chainDocs_le C n).trans_lt (by omega)
  have hle := length_le_blobSize (P := chainPlatform C) (c.docs n)
  rw [chainBlob_eq C]
  exact represents_merge2Binary insertionOrder (indexes_indexOf (by omega))
    (fun _ => nulFree_of_mem_chainDocs) hsize

/-! ## Blocks, batches and indexes are told apart by their first byte -/

theorem headD_chainBlock (n : Nat) : (c.block n).headD 0 = ch '\x7b' := rfl

theorem headD_chainBatch (n : Nat) : (c.batch n).headD 0 = ch '[' := rfl

/-- An index starts with the size of its posting lists, which are words. -/
theorem headD_merge2Binary (O : HashOrder) (digest : List Bytes) (tbl : IndexTbl) :
    ((merge2Binary O digest tbl).headD 0).val % 4 = 0 := by
  have hlen := length_index2Binary O tbl
  change (index2Binary O tbl).length % 256 % 4 = 0
  omega

theorem headD_chainBlob (n : Nat) : ((c.blob n).headD 0).val % 4 = 0 := headD_merge2Binary _ _ _

/-! ## Calls -/

theorem Chain.count_le_166 (c : Chain) (n : Int) : c.count n ≤ 166 := by
  have hle := c.count_le n
  have hmul : 6 * c.count n ≤ (c.body.length + 6) * c.count n :=
    Nat.mul_le_mul_right _ (Nat.le_add_left _ _)
  omega

/-- The counts of some blocks of the chain. -/
def Chain.Counts (c : Chain) (ks : List Nat) : Prop :=
  ks ≠ [] ∧ ∀ k ∈ ks, 1 ≤ k ∧ k ≤ 166 ∧ (c.body.length + 6) * k ≤ 1000

theorem Chain.Counts.sum_pos {ks : List Nat} (h : c.Counts ks) : 0 < ks.sum := by
  obtain ⟨k, ks, rfl⟩ := List.exists_cons_of_ne_nil h.1
  have := (h.2 k List.mem_cons_self).1
  rw [List.sum_cons]
  omega

theorem Chain.Counts.block_lt {ks : List Nat} (h : c.Counts ks) {k : Nat} (hk : k ∈ ks) :
    (c.block k).length < tempDigestLen := by
  obtain ⟨hpos, hle, hsize⟩ := h.2 k hk
  rw [length_chainBlock hpos, show tempDigestLen = 65536 from rfl]
  rw [Nat.add_mul] at hsize ⊢
  omega

variable (C : Crypto)

/-- A crawler makes one batch of all posts. -/
theorem crawlOutput_chain {ks : List Nat} (hk : c.Counts ks) :
    crawlOutput (chainPlatform C) (ks.map c.block) = some (c.batch ks.sum) := by
  have hblocks : ∀ bodies ∈ ks.map fun k => List.replicate k c.body,
      ∃ k ∈ ks, bodies = List.replicate k c.body := by
    intro bodies h
    obtain ⟨k, hk, rfl⟩ := List.mem_map.1 h
    exact ⟨k, hk, rfl⟩
  have hunesc : ∀ bodies ∈ ks.map fun k => List.replicate k c.body,
      ∀ body ∈ bodies, Unescaped body := by
    intro bodies h body hbody
    obtain ⟨k, -, rfl⟩ := hblocks bodies h
    exact unescaped_of_mem_replicate hbody
  have hshort : ∀ bodies ∈ ks.map fun k => List.replicate k c.body,
      ((postBlock bodies).dump 1).length < tempDigestLen := by
    intro bodies h
    obtain ⟨k, hmem, rfl⟩ := hblocks bodies h
    exact hk.block_lt hmem
  have hpos : (ks.map fun k => List.replicate k c.body).flatten ≠ [] := by
    rw [flatten_map_replicate, List.ne_nil_iff_length_pos, List.length_replicate]
    exact hk.sum_pos
  have houtput := crawlOutput_postBlock (P := chainPlatform C) hunesc hshort hpos
  rw [List.map_map, flatten_map_replicate] at houtput
  exact houtput

theorem documents_chainBatches (ns : List Nat) :
    documents (chainPlatform C) (ns.map c.batch) = some (c.docs ns.sum) := by
  induction ns with
  | nil => rfl
  | cons n ns ih =>
      have hhead : documents (chainPlatform C) [c.batch n] = some (c.docs n) := by
        rw [Chain.batch, documents_postBatch fun _ => unescaped_of_mem_replicate,
          List.map_replicate]
        rfl
      rw [List.map_cons, ← List.singleton_append, documents_append hhead ih, List.sum_cons,
        chainDocs_add]

/-- An indexer makes one index of all documents. -/
theorem indexOutput_chain {ns : List Nat}
    (hn : ∀ n ∈ ns, 0 < n ∧ (c.body.length + 6) * n < tempDigestLen) :
    indexOutput (chainPlatform C) insertionOrder (ns.map c.batch) = some (c.blob ns.sum) := by
  have hcstr : (ns.map c.batch).map cString = ns.map c.batch := by
    rw [List.map_map]
    exact List.map_congr_left fun n _ => cString_of_nulFree (nulFree_chainBatch n)
  have hshort : ∀ x ∈ ns.map c.batch, (cString x).length < tempDigestLen := by
    intro x hx
    obtain ⟨n, hmem, rfl⟩ := List.mem_map.1 hx
    rw [cString_of_nulFree (nulFree_chainBatch n), length_chainBatch (hn n hmem).1]
    exact (hn n hmem).2
  have hdocs : documents (chainPlatform C) ((ns.map c.batch).map cString) =
      some (c.docs ns.sum) := by
    rw [hcstr]
    exact documents_chainBatches C ns
  rw [indexOutput_of_documents insertionOrder hdocs hshort, chainBlob_eq C]

/-! ## The first epoch -/

/-- The block source of the chain. -/
def Chain.source (c : Chain) : Source where
  Answers n x := x = c.block (c.count n)
  nulFree h := h ▸ nulFree_chainBlock _

/-- One crawler, one indexer, and reducers. -/
def chainDeployment : Deployment where
  platform := chainPlatform C
  sort := sampleDeployment.sort
  role p := if p = 0 then .crawler else if p = 1 then .indexer else .reducer

section

variable (c : Chain) (b : Int) (i : Nat)

/-- How many posts the blocks of a shard have. -/
def Chain.counts : List Nat := (Task.crawl 0 b i).blocks.map c.count

/-- What the crawler downloads for the shard. -/
def Chain.answers : List Bytes := (c.counts b i).map c.block

/-- What the crawler publishes. -/
def Chain.crawl : Output := (crawlCall (chainPlatform C) (c.answers b i)).getD ⟨[], []⟩

/-- The witness key of the batch. -/
def Chain.key : Bytes := C.sha256 (c.batch (c.counts b i).sum)

theorem answers_chainAnswers (e : Int) :
    List.Forall₂ c.source.Answers (Task.crawl e b i).blocks (c.answers b i) := by
  rw [Chain.answers, Chain.counts, List.map_map]
  exact List.forall₂_map_right_iff.2 (List.forall₂_same.2 fun _ _ => rfl)

theorem admits_chainAnswers (e : Int) : (Task.crawl e b i).Admits (c.answers b i) := by
  have hs : Sourced c.source .empty (.crawl e b i) (.plain (c.answers b i)) :=
    answers_chainAnswers c b i e
  exact hs.admits

theorem length_chainCounts : (c.counts b i).length = 64 := by
  simp [Chain.counts, Task.blocks, itemsBulkMax]

end

variable {C}

theorem counts_chainCounts (c : Chain) (b : Int) (i : Nat) : c.Counts (c.counts b i) := by
  refine ⟨List.ne_nil_of_length_pos (by rw [length_chainCounts]; decide), fun k hk => ?_⟩
  obtain ⟨n, -, rfl⟩ := List.mem_map.1 hk
  exact ⟨c.count_pos n, c.count_le_166 n, c.count_le n⟩

theorem sum_chainCounts_pos (c : Chain) (b : Int) (i : Nat) : 0 < (c.counts b i).sum :=
  (counts_chainCounts c b i).sum_pos

theorem size_chainCounts (c : Chain) (b : Int) (i : Nat) :
    (c.body.length + 6) * (c.counts b i).sum ≤ 64000 := by
  have hsum := List.sum_le_card_nsmul ((c.counts b i).map ((c.body.length + 6) * ·)) 1000
    (List.forall_mem_map.2 fun k hk => ((counts_chainCounts c b i).2 k hk).2.2)
  rwa [List.sum_map_mul_left, List.map_id', List.length_map, length_chainCounts] at hsum

theorem chainCrawl_spec (b : Int) (i : Nat) :
    crawlCall (chainPlatform C) (c.answers b i) = some (c.crawl C b i) ∧
      (c.crawl C b i).data = c.batch (c.counts b i).sum ∧
      witnessKey sampleRuntime (c.crawl C b i).witness = some (c.key C b i) := by
  obtain ⟨hlen, hnul⟩ := admits_chainAnswers c b i 0
  have houtput := crawlOutput_chain C (counts_chainCounts c b i)
  have hfits := crawlOutput_length_lt hnul (hlen.trans_le (by decide)) houtput
  obtain ⟨out, hcall, hspec⟩ :=
    crawlCall_of_output hnul (hlen.trans_le (by decide)) houtput hfits
  have hout : c.crawl C b i = out := by rw [Chain.crawl, hcall, Option.getD_some]
  rw [hout]
  exact ⟨hcall, hspec⟩

theorem witness_chainCrawl (b : Int) (i : Nat) : (c.crawl C b i).witness =
    createCralwerWitness (chainPlatform C) (c.answers b i)
      (c.batch (c.counts b i).sum) := by
  obtain ⟨hlen, hnul⟩ := admits_chainAnswers c b i 0
  obtain ⟨output, houtput, hwitness, -⟩ :=
    crawlCall_eq_some hnul (hlen.trans_le (by decide)) (chainCrawl_spec (C := C)  b i).1
  obtain rfl := Option.some.inj
    ((crawlOutput_chain C (counts_chainCounts c b i)).symm.trans houtput)
  exact hwitness

/-- Batches of different sizes have different witness keys, if no two of them collide. -/
theorem nodup_chainKeys {msgs : List Bytes} (hlen : msgs.length < 256) (b : Int)
    (hmem : ∀ i ∈ List.range' 1 16, c.batch (c.counts b i).sum ∈ msgs)
    (hnodup : ((List.range' 1 16).map fun i => (c.counts b i).sum).Nodup) :
    ((List.range' 1 itemsPoolMax).map (c.key (tableCrypto msgs) b)).Nodup := by
  refine List.Nodup.map_on (fun i hi j hj heq => ?_) List.nodup_range'
  have hbatch := tableCrypto_injective hlen (hmem i hi) heq
  exact List.inj_on_of_nodup_map hnodup hi hj (chainBatch_injective
    (sum_chainCounts_pos c b i) (sum_chainCounts_pos c b j) hbatch)

variable (C c) in
/-- The store after the first epoch. -/
def Chain.first : Kanban :=
  (Kanban.firstTurn C (c.crawl C startSteemBlockId) (c.key C startSteemBlockId)).closed C
    sampleDeployment.sort 1

theorem get_chainFirst_items {j : Nat} (h1 : 1 ≤ j) (h16 : j ≤ itemsPoolMax) :
    (c.first C).get (.items 1 j) =
      some (c.batch (c.counts startSteemBlockId j).sum) := by
  rw [Chain.first, Kanban.closed, Kanban.get_set_of_ne _ (by simp),
    Kanban.get_set_of_ne _ (by simp), Kanban.firstTurn, Kanban.get_crawled _ _ h1 (by omega),
    (chainCrawl_spec _ _).2.1]

theorem get_chainFirst_of_ne {k : Key} (hitems : ∀ j, k ≠ .items 1 j) (hroot : k ≠ .rootHash 1)
    (hepoch : k ≠ .epoch) : (c.first C).get k = (Kanban.booted C).get k := by
  rw [Chain.first, Kanban.closed, Kanban.get_set_of_ne _ hepoch, Kanban.get_set_of_ne _ hroot,
    Kanban.firstTurn, Kanban.get_crawled_of_ne _ _ fun j _ _ => hitems j]

theorem get_chainFirst_epoch : (c.first C).get .epoch = some (epochPacket C 2) :=
  Kanban.get_set_self _ _ _

/-- One crawler does the first epoch, and the manager closes it. -/
theorem leads_chainFirst {ok : State → Action → Prop} (hok : Lenient ok)
    (hkeys : ((List.range' 1 itemsPoolMax).map (c.key C startSteemBlockId)).Nodup)
    (hbase : ok ⟨.booted C, ⟨.count 1 1, secondBlockId⟩,
      Function.update (fun _ => .idle) 0 (.readBase 1)⟩ (.exec 0 (.plain [])))
    (hdownload : ∀ i kb m f,
      ok ⟨kb, m, Function.update f 0 (.gather (.crawl 1 startSteemBlockId i) [])⟩
        (.exec 0 (.plain (c.answers startSteemBlockId i)))) :
    Leads (chainDeployment C).step ok .init
      (List.replicate 7 .manager ++ (List.replicate 2 (.exec 0 (.plain [])) ++
        crawlActions 0 (c.answers startSteemBlockId) 1 itemsPoolMax) ++
        List.replicate 4 .manager)
      ⟨c.first C, ⟨.openEpoch, secondBlockId⟩, fun _ => .idle⟩ :=
  leads_firstEpoch (D := chainDeployment C) hok rfl (fun i => (chainCrawl_spec _ i).1)
    (fun i => (chainCrawl_spec _ i).2.2) hkeys hbase hdownload

/-! ## The indexes of epoch 2 -/

section

variable (c : Chain) (i : Nat)

/-- The batches of an index shard of epoch 2. -/
def Chain.items (j : Nat) : Bytes := c.batch (c.counts startSteemBlockId j).sum

/-- How many documents it has. -/
def Chain.total : Nat := ((window i).map fun j => (c.counts startSteemBlockId j).sum).sum

end

variable (C c) in
/-- The output of the indexer for a shard. -/
def Chain.index (i : Nat) : Output :=
  (indexCall (chainPlatform C) insertionOrder ((window i).map c.items)).getD ⟨[], []⟩

theorem indexOutput_chainItems (i : Nat) :
    indexOutput (chainPlatform C) insertionOrder ((window i).map c.items) =
      some (c.blob (c.total i)) := by
  have hn : ∀ n ∈ (window i).map fun j => (c.counts startSteemBlockId j).sum,
      0 < n ∧ (c.body.length + 6) * n < tempDigestLen := by
    intro n h
    obtain ⟨j, -, rfl⟩ := List.mem_map.1 h
    exact ⟨sum_chainCounts_pos c _ j, (size_chainCounts c _ j).trans_lt (by decide)⟩
  have houtput := indexOutput_chain C hn
  rw [List.map_map] at houtput
  exact houtput

theorem size_chainTotal (c : Chain) (i : Nat) : (c.body.length + 6) * c.total i ≤ 256000 := by
  have hsum := List.sum_le_card_nsmul
    ((window i).map fun j => (c.body.length + 6) * (c.counts startSteemBlockId j).sum) 64000
    (List.forall_mem_map.2 fun j _ => size_chainCounts c startSteemBlockId j)
  rw [List.sum_map_mul_left, List.length_map, window, List.length_map, List.length_range] at hsum
  exact hsum

theorem chainTotal_lt (c : Chain) (i : Nat) : c.total i + 1 < 2 ^ 32 := by
  have hsize := size_chainTotal c i
  have hmul : 6 * c.total i ≤ (c.body.length + 6) * c.total i :=
    Nat.mul_le_mul_right _ (Nat.le_add_left _ _)
  omega

theorem length_chainBlob_total (c : Chain) (i : Nat) :
    (c.blob (c.total i)).length < indexOutputMaxLength := by
  have hsize := size_chainTotal c i
  have hmul : (c.body.length + 3) * c.total i ≤ (c.body.length + 6) * c.total i :=
    Nat.mul_le_mul_right _ (by omega)
  have hblob := blobSize_chainDocs_le (c := c) sampleCrypto (c.total i)
  rw [length_chainBlob sampleCrypto (chainTotal_lt c i),
    show indexOutputMaxLength = 67108864 from rfl]
  omega

theorem fits_chainItems (e : Int) (i pos : Nat) :
    (Task.index e i pos).Fits (chainPlatform C) (.plain ((window i).map c.items)) := by
  intro output houtput
  obtain rfl := Option.some.inj ((indexOutput_chainItems i).symm.trans houtput)
  exact length_chainBlob_total c i

theorem chainIndex_spec (i : Nat) :
    indexCall (chainPlatform C) insertionOrder ((window i).map c.items) = some (c.index C i) ∧
      (c.index C i).data = c.blob (c.total i) ∧
      witnessKey sampleRuntime (c.index C i).witness =
        some (C.sha256 (c.blob (c.total i))) := by
  have houtput := indexOutput_chainItems (c := c) (C := C) i
  have hlen : ((window i).map c.items).length ≤ 1000 := by
    rw [List.length_map, window, List.length_map, List.length_range]
    decide
  obtain ⟨out, hcall, hspec⟩ :=
    indexCall_of_output hlen houtput (length_chainBlob_total c i)
  have hout : c.index C i = out := by rw [Chain.index, hcall, Option.getD_some]
  rw [hout]
  exact ⟨hcall, hspec⟩

theorem witness_chainIndex (i : Nat) : (c.index C i).witness =
    createIndexerWitness (chainPlatform C) ((window i).map c.items)
      (c.blob (c.total i)) := by
  have hlen : ((window i).map c.items).length ≤ 1000 := by
    rw [List.length_map, window, List.length_map, List.length_range]
    decide
  have hcstr : ((window i).map c.items).map cString = (window i).map c.items := by
    rw [List.map_map]
    exact List.map_congr_left fun j _ => cString_of_nulFree (nulFree_chainBatch _)
  obtain ⟨output, houtput, hwitness, -⟩ :=
    indexCall_eq_some hlen (chainIndex_spec (C := C)  i).1
  obtain rfl := Option.some.inj ((indexOutput_chainItems i).symm.trans houtput)
  rw [hwitness, hcstr]

/-- The allocator leaves a byte behind each batch of the first epoch. -/
def Chain.Spare (c : Chain) : Prop := ∀ j ∈ List.range' 1 itemsPoolMax,
  sampleRuntime.spare ((c.body.length + 6) * (c.counts startSteemBlockId j).sum)

theorem Chain.Spare.items (h : c.Spare) {j : Nat} (h1 : 1 ≤ j) (hj : j ≤ itemsPoolMax) :
    sampleRuntime.spare (c.items j).length := by
  rw [Chain.items, length_chainBatch (sum_chainCounts_pos c _ j)]
  exact h j (List.mem_range'_1.2 ⟨h1, by omega⟩)

theorem chainIndex_call (hspare : c.Spare) {i : Nat} (h1 : 1 ≤ i) (hi : i ≤ indexPoolMax) (e : Int)
    (pos : Nat) : (Task.index e i pos).call (chainPlatform C) (.plain ((window i).map c.items)) =
      some (c.index C i) := by
  have hroom : spareBehind (chainPlatform C).runtime ((window i).map c.items) :=
    spareBehind_window (fun _ h1 hj => hspare.items h1 hj) h1 hi
  exact (Task.call_index hroom insertionOrder e i pos).trans (chainIndex_spec i).1

/-- One indexer does its turn in epoch 2. -/
theorem leads_chainIndexed {ok : State → Action → Prop} (hok : Lenient ok) (hspare : c.Spare)
    {kb : Kanban} {m : Manager} (hepoch : kb.get .epoch = some (epochPacket C 2))
    (hitems : ∀ j, 1 ≤ j → j ≤ itemsPoolMax → kb.get (.items 1 j) = some (c.items j))
    (habsent : ∀ j, kb.get (.index 2 j) = none)
    (hget : ∀ i n kb, 1 ≤ i → i ≤ indexPoolMax → n < 4 →
      (∀ j, 1 ≤ j → j ≤ itemsPoolMax → kb.get (.items 1 j) = some (c.items j)) →
      ok ⟨kb, m, Function.update (fun _ => .idle) 1 (.gather
        (.index 2 i ((i - 1) * indexBulkMax + 1)) (((window i).map c.items).take n))⟩
        (.exec 1 (.plain []))) :
    Leads (chainDeployment C).step ok ⟨kb, m, fun _ => .idle⟩
      ([.exec 1 (.plain [])] ++ List.replicate 36 (.exec 1 (.plain [])))
      ⟨kb.indexed (c.index C) (fun i => C.sha256 (c.blob (c.total i))) 1 4, m,
        fun _ => .idle⟩ :=
  leads_indexTurn (D := chainDeployment C) (p := 1) hok rfl rfl
    (getEpochInt_epochPacket (by decide) hepoch) (fun _ h1 hj => hspare.items h1 hj)
    (fun i _ _ => (chainIndex_spec i).1)
    (fun i _ _ => (chainIndex_spec i).2.2) hitems habsent hget

/-! ## Two epochs -/

section

variable (C : Crypto) (c : Chain)

/-- The batches of an epoch. -/
def Chain.batches (b : Int) : List Bytes :=
  (List.range' 1 itemsPoolMax).map fun j => c.batch (c.counts b j).sum

/-- The indexes of the second epoch. -/
def Chain.blobs : List Bytes := (List.range' 1 indexPoolMax).map fun i => c.blob (c.total i)

/-- The shards of the first two epochs. -/
def Chain.shards : List Bytes :=
  c.batches startSteemBlockId ++ (c.batches secondBlockId ++ c.blobs)

/-- The records of the batches of an epoch. -/
def Chain.crawlRecords (b : Int) : List (Bytes × Bytes) :=
  (List.range' 1 itemsPoolMax).map fun j => (c.key C b j, (c.crawl C b j).witness)

/-- The records of the indexes of the second epoch. -/
def Chain.indexRecords : List (Bytes × Bytes) :=
  (List.range' 1 indexPoolMax).map fun i =>
    (C.sha256 (c.blob (c.total i)), (c.index C i).witness)

/-- The records of the shards. -/
def Chain.records : List (Bytes × Bytes) :=
  c.crawlRecords C startSteemBlockId ++ (c.crawlRecords C secondBlockId ++ c.indexRecords C)

/-- The store after a crawler's turn in the second epoch. -/
def Chain.crawled : Kanban :=
  ((c.first C).set .blockId (toDecimal secondBlockId)).crawled 2 secondBlockId
    (c.crawl C secondBlockId) (c.key C secondBlockId) 1 itemsPoolMax

/-- And after an indexer's. -/
def Chain.indexed : Kanban :=
  (c.crawled C).indexed (c.index C) (fun i => C.sha256 (c.blob (c.total i))) 1
    indexPoolMax

/-- The store after the second epoch. -/
def Chain.second : Kanban := (c.indexed C).closed C sampleDeployment.sort 2

/-- What the manager, the crawler and the indexer do in the first two epochs. -/
def Chain.actions : List Action :=
  (List.replicate 7 .manager ++ (List.replicate 2 (.exec 0 (.plain [])) ++
    crawlActions 0 (c.answers startSteemBlockId) 1 itemsPoolMax) ++
    List.replicate 4 .manager) ++
  (List.replicate 4 .manager ++
    ((List.replicate 2 (.exec 0 (.plain [])) ++
      crawlActions 0 (c.answers secondBlockId) 1 itemsPoolMax) ++
      (([.exec 1 (.plain [])] ++ List.replicate 36 (.exec 1 (.plain []))) ++
        List.replicate 4 .manager)))

end

section

theorem map_fst_chainRecords :
    (c.records C).map Prod.fst = (c.shards).map C.sha256 := by
  simp only [Chain.records, Chain.crawlRecords, Chain.indexRecords, Chain.shards, Chain.batches,
    Chain.blobs, List.map_append, List.map_map]
  rfl

theorem hsets_chainSecond : (c.second C).hsets = (c.records C).reverse := by
  have hturn : (c.second C).hsets = (c.indexed C).hsets := rfl
  have hfirst : ((c.first C).set .blockId (toDecimal secondBlockId)).hsets =
      (Kanban.firstTurn C (c.crawl C startSteemBlockId)
        (c.key C startSteemBlockId)).hsets := rfl
  have hempty : (Kanban.booted C).hsets = [] := rfl
  rw [hturn, Chain.indexed, Kanban.hsets_indexed, Chain.crawled, Kanban.hsets_crawled, hfirst,
    Kanban.firstTurn, Kanban.hsets_crawled, hempty, Chain.records, List.reverse_append,
    List.reverse_append, List.append_nil, List.append_assoc]
  rfl

theorem get_chainCrawled_of_ne {k : Key} (hitems : ∀ j, k ≠ .items 2 j) (hk : k ≠ .blockId) :
    (c.crawled C).get k = (c.first C).get k := by
  rw [Chain.crawled, Kanban.get_crawled_of_ne _ _ fun j _ _ => hitems j, Kanban.get_set_of_ne _ hk]

theorem get_chainCrawled_epoch : (c.crawled C).get .epoch = some (epochPacket C 2) :=
  (get_chainCrawled_of_ne (by simp) (by simp)).trans get_chainFirst_epoch

theorem get_chainSecond_of_ne {k : Key} (hindex : ∀ j, k ≠ .globalIndex 2 j ∧ k ≠ .index 2 j)
    (hroot : k ≠ .rootHash 2) (hepoch : k ≠ .epoch) :
    (c.second C).get k = (c.crawled C).get k := by
  rw [Chain.second, Kanban.closed, Kanban.get_set_of_ne _ hepoch, Kanban.get_set_of_ne _ hroot,
    Chain.indexed, Kanban.get_indexed_of_ne _ _ fun j _ _ => hindex j]

theorem get_chainSecond_epoch : (c.second C).get .epoch = some (epochPacket C 3) :=
  Kanban.get_set_self _ _ _

theorem get_chainSecond_rootHash : (c.second C).get (.rootHash 1) =
    some (rootHashOf C sampleDeployment.sort ((Kanban.firstTurn C
      (c.crawl C startSteemBlockId) (c.key C startSteemBlockId)).smembers 1)) := by
  rw [get_chainSecond_of_ne (by simp) (by simp) (by simp),
    get_chainCrawled_of_ne (by simp) (by simp), Chain.first, Kanban.closed,
    Kanban.get_set_of_ne _ (by simp), Kanban.get_set_self]

theorem mem_smembers_chainSecond {k : Bytes} : k ∈ (c.second C).smembers 1 ↔
    k ∈ (Kanban.firstTurn C (c.crawl C startSteemBlockId)
      (c.key C startSteemBlockId)).smembers 1 := by
  change k ∈ (c.indexed C).smembers 1 ↔ _
  rw [Chain.indexed, Kanban.mem_smembers_indexed, Chain.crawled, Kanban.mem_smembers_crawled]
  change (k ∈ (Kanban.firstTurn C _ _).smembers 1 ∨ _) ∨ _ ↔ _
  simp

theorem getEpochInt_chainSecond :
    getEpochInt sampleRuntime C (c.second C) = some 3 :=
  getEpochInt_epochPacket (by decide) get_chainSecond_epoch

/-- There are enough witness keys to close the second epoch. -/
theorem enough_chainIndexed (hkeys : ((c.shards).map C.sha256).Nodup) :
    expectedKeySize 2 ≤ (stdSet ((c.indexed C).smembers 2)).length := by
  have hsecond : ((c.batches secondBlockId ++ c.blobs).map C.sha256).Nodup :=
    hkeys.sublist ((List.sublist_append_right _ _).map _)
  have hsub : (c.batches secondBlockId ++ c.blobs).map C.sha256 ⊆
      (c.indexed C).smembers 2 := by
    intro k hk
    rw [Chain.indexed, Kanban.mem_smembers_indexed, Chain.crawled, Kanban.mem_smembers_crawled]
    rw [List.map_append, List.mem_append, Chain.batches, Chain.blobs, List.map_map, List.map_map,
      List.mem_map, List.mem_map] at hk
    rcases hk with ⟨j, hj, rfl⟩ | ⟨j, hj, rfl⟩
    · rw [List.mem_range'_1] at hj
      exact .inl (.inr ⟨rfl, j, hj.1, hj.2, rfl⟩)
    · rw [List.mem_range'_1] at hj
      exact .inr ⟨rfl, j, hj.1, hj.2, rfl⟩
  have := length_le_stdSet hsecond hsub
  rwa [List.length_map, List.length_append, Chain.batches, Chain.blobs, List.length_map,
    List.length_map, List.length_range', List.length_range'] at this

/-- The crawler is executor 0, and the indexer is executor 1. -/
theorem of_mem_chainActions {a : Action} (h : a ∈ c.actions) :
    a = .manager ∨ ∃ xs, a = .exec 0 xs ∨ a = .exec 1 xs := by
  have hcrawl : ∀ b, a ∈ crawlActions 0 (c.answers b) 1 itemsPoolMax →
      a = .manager ∨ ∃ xs, a = .exec 0 xs ∨ a = .exec 1 xs := fun b hb => by
    obtain ⟨xs, rfl⟩ := exists_exec_of_mem_crawlActions _ _ hb
    exact .inr ⟨xs, .inl rfl⟩
  simp only [Chain.actions, List.mem_append, List.mem_replicate, List.mem_singleton] at h
  rcases h with ((⟨-, rfl⟩ | ⟨-, rfl⟩ | h) | ⟨-, rfl⟩) | ⟨-, rfl⟩ | (⟨-, rfl⟩ | h) |
    (rfl | ⟨-, rfl⟩) | ⟨-, rfl⟩
  case' inl.inl.inr.inr | inr.inr.inl.inr => exact hcrawl _ h
  all_goals simp

end

theorem Kanban.stored_set_iff {kb : Kanban} {k k' : Key} {v v' : Bytes} (h : k ≠ k') :
    (kb.set k' v').Stored k v ↔ kb.Stored k v :=
  List.mem_cons.trans (or_iff_right fun heq => h (Prod.mk.inj heq).1)

/-- Whatever is stored as a shard is one of the shards. -/
theorem stored_chainSecond {k : Key} {v : Bytes} (hk : k.isData)
    (h : (c.second C).Stored k v) : v ∈ c.shards := by
  have hne : ∀ {k' : Key}, k'.isData = false → k ≠ k' := fun hk' heq =>
    absurd (heq ▸ hk) (Bool.eq_false_iff.1 hk')
  have hbatch : ∀ {b : Int} {j : Nat}, 1 ≤ j → j < 1 + itemsPoolMax →
      v = (c.crawl C b j).data → v ∈ c.batches b := by
    intro b j h1 hj hv
    rw [hv, (chainCrawl_spec b j).2.1]
    exact List.mem_map.2 ⟨j, List.mem_range'_1.2 ⟨h1, hj⟩, rfl⟩
  rw [Chain.second, Kanban.closed, Kanban.stored_set_iff (hne rfl), Kanban.stored_set_iff (hne rfl),
    Chain.indexed] at h
  rcases Kanban.stored_indexed _ _ h with h | ⟨j, h1, hj, -, hv⟩
  · rw [Chain.crawled] at h
    rcases Kanban.stored_crawled _ _ h with h | ⟨j, h1, hj, -, hv⟩
    · rw [Kanban.stored_set_iff (hne rfl), Chain.first, Kanban.closed,
        Kanban.stored_set_iff (hne rfl), Kanban.stored_set_iff (hne rfl), Kanban.firstTurn] at h
      rcases Kanban.stored_crawled _ _ h with h | ⟨j, h1, hj, -, hv⟩
      · rw [Kanban.booted, Kanban.stored_set_iff (hne rfl), Kanban.stored_set_iff (hne rfl),
          Kanban.stored_set_iff (hne rfl)] at h
        exact absurd h List.not_mem_nil
      · exact List.mem_append_left _ (hbatch h1 hj hv)
    · exact List.mem_append_right _ (List.mem_append_left _ (hbatch h1 hj hv))
  · rw [hv, (chainIndex_spec j).2.1]
    exact List.mem_append_right _ (List.mem_append_right _
      (List.mem_map.2 ⟨j, List.mem_range'_1.2 ⟨h1, hj⟩, rfl⟩))

theorem get_chainSecond_global {i : Nat} (h1 : 1 ≤ i) (hi : i ≤ indexPoolMax) :
    (c.second C).get (.globalIndex 2 i) = some (c.blob (c.total i)) := by
  rw [Chain.second, Kanban.closed, Kanban.get_set_of_ne _ (by simp),
    Kanban.get_set_of_ne _ (by simp), Chain.indexed,
    Kanban.get_indexed (.inl rfl) _ _ h1 (by omega), (chainIndex_spec i).2.1]

theorem get_chainSecond_items {j : Nat} (h1 : 1 ≤ j) (hj : j ≤ itemsPoolMax) :
    (c.second C).get (.items 2 j) =
      some (c.batch (c.counts secondBlockId j).sum) := by
  rw [get_chainSecond_of_ne (by simp) (by simp) (by simp), Chain.crawled,
    Kanban.get_crawled _ _ h1 (by omega), (chainCrawl_spec _ _).2.1]

/-- One crawler and one indexer do the first two epochs, and the manager closes them. -/
theorem leads_chainSecond {ok : State → Action → Prop} (hok : Lenient ok) (hspare : c.Spare)
    (hkeys : ((c.shards).map C.sha256).Nodup)
    (hbase : ∀ e kb m f, ok ⟨kb, m, Function.update f 0 (.readBase e)⟩ (.exec 0 (.plain [])))
    (hdownload : ∀ e b i kb m f, ok ⟨kb, m, Function.update f 0 (.gather (.crawl e b i) [])⟩
      (.exec 0 (.plain (c.answers b i))))
    (hget : ∀ i n kb m, 1 ≤ i → i ≤ indexPoolMax → n < 4 →
      (∀ j, 1 ≤ j → j ≤ itemsPoolMax → kb.get (.items 1 j) = some (c.items j)) →
      ok ⟨kb, m, Function.update (fun _ => .idle) 1 (.gather
        (.index 2 i ((i - 1) * indexBulkMax + 1)) (((window i).map c.items).take n))⟩
        (.exec 1 (.plain []))) :
    Leads (chainDeployment C).step ok .init (c.actions)
      ⟨c.second C, ⟨.openEpoch, nextBlockId secondBlockId⟩, fun _ => .idle⟩ := by
  have hkeys1 : ((List.range' 1 itemsPoolMax).map (c.key C startSteemBlockId)).Nodup := by
    have := hkeys.sublist ((List.sublist_append_left _ _).map C.sha256)
    rwa [Chain.batches, List.map_map] at this
  have hfirst := leads_chainFirst hok hkeys1 (hbase _ _ _ _) (hdownload _ _)
  have hopen := leads_open (D := chainDeployment C) (s := .init) (b := secondBlockId) hok
    (by decide) (by decide) (get_chainFirst_epoch (c := c))
  have hepoch : ((c.first C).set .blockId (toDecimal secondBlockId)).get .epoch =
      some (epochPacket C 2) := (Kanban.get_set_of_ne _ (by simp) _).trans get_chainFirst_epoch
  have hblock : (((c.first C).set .blockId (toDecimal secondBlockId)).get .blockId).bind
      stoi = some secondBlockId := by
    rw [Kanban.get_set_self, Option.bind_some, stoi_toDecimal (by decide)]
  have hturn := leads_crawlTurn (D := chainDeployment C) (p := 0)
    (m := ⟨.count 2 2, nextBlockId secondBlockId⟩) (f := fun _ => .idle) hok rfl rfl le_rfl
    (getEpochInt_epochPacket (by decide) hepoch) (by decide) hblock
    (fun i => (chainCrawl_spec secondBlockId i).1)
    (fun i => (chainCrawl_spec secondBlockId i).2.2)
    (fun j => (Kanban.get_set_of_ne _ (by simp) _).trans
      (get_chainFirst_of_ne (by simp) (by simp) (by simp)))
    (hbase _ _ _ _) fun i kb => hdownload _ _ i kb _ _
  have hdone : Executor.enter (.crawl 2 secondBlockId (1 + itemsPoolMax)) = .idle := rfl
  rw [hdone, Function.update_eq_self_iff.2 rfl] at hturn
  have hindex := leads_chainIndexed hok hspare (m := ⟨.count 2 2, nextBlockId secondBlockId⟩)
    (get_chainCrawled_epoch (C := C) (c := c))
    (fun j h1 hj => (get_chainCrawled_of_ne (by simp) (by simp)).trans
      (get_chainFirst_items h1 hj))
    (fun j => (get_chainCrawled_of_ne (by simp) (by simp)).trans
      (get_chainFirst_of_ne (by simp) (by simp) (by simp)))
    fun i n kb => hget i n kb _
  have hepoch2 : (c.indexed C).get .epoch = some (epochPacket C 2) :=
    (Kanban.get_indexed_of_ne _ _ (by simp)).trans get_chainCrawled_epoch
  have hclose := leads_close (D := chainDeployment C) (s := .init)
    (b := nextBlockId secondBlockId) hok (by decide) hepoch2 (enough_chainIndexed hkeys)
  exact hfirst.append (hopen.append (hturn.append (hindex.append hclose)))

-- From here on these are just names: unfolding them computes texts.
attribute [irreducible] Chain.block Chain.batch Chain.docs Chain.blob Chain.items Chain.crawl
  Chain.index

end DeSearch
