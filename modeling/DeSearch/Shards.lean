import DeSearch.Blob
import DeSearch.CrawlSize

/-!
# What the executors put in the store

A batch is the text of a list of documents that is not empty, and a shard is a blob whose tables are
well formed, that has a document and is as long as its tables say. Crawlers put batches, indexers
make shards of batches, and reducers make shards of shards, whatever the blocks hold. This covers
the one case in which the value that is put is not the output of the call: an output that fills its
buffer exactly is not copied, and the buffer with its zeros reads as a blob without words.

* `mergeOutput_length_lt`: the output of a merge is longer than each of the two shards.
-/

namespace DeSearch

open JSON

variable {P : Platform}

/-! ## Batches -/

/-- The text of documents as a crawler prints it; there is at least one. -/
def Batch (v : Bytes) : Prop :=
  ∃ posts : List Bytes, posts ≠ [] ∧ (∀ post ∈ posts, NulFree post) ∧
    v = (array (posts.map string)).dump 1

theorem Batch.nulFree {v : Bytes} (h : Batch v) : NulFree v := by
  obtain ⟨posts, -, hnul, rfl⟩ := h
  exact nulFree_dump (array (posts.map string)) (cleanElems_strings hnul) 1

theorem Batch.cString_eq {v : Bytes} (h : Batch v) : cString v = v :=
  cString_of_nulFree h.nulFree

/-- An indexer finds a document in it. -/
theorem Batch.exists_load {v : Bytes} (h : Batch v) (R : Runtime) :
    ∃ batch, load R v = some batch ∧ batch.arrayRange ≠ [] := by
  obtain ⟨posts, hne, -, rfl⟩ := h
  have hplain : Plain (array (posts.map string)) := plainElems_strings posts
  exact ⟨_, load_dump hplain 1, fun hnil => hne (List.map_eq_nil_iff.1 hnil)⟩

theorem Batch.exists_documents {v : Bytes} (h : Batch v) (P : Platform) :
    ∃ docs, documents P [v] = some docs := by
  obtain ⟨batch, hload, -⟩ := h.exists_load P.runtime
  rw [documents, List.mapM_cons, hload]
  exact ⟨_, rfl⟩

theorem documents_ne_nil {v : Bytes} {vs docs : List Bytes} (hv : Batch v)
    (h : documents P (v :: vs) = some docs) : docs ≠ [] := by
  obtain ⟨batches, hbatches, rfl⟩ := Option.map_eq_some_iff.1 h
  obtain ⟨batch, hload, hne⟩ := hv.exists_load P.runtime
  rw [List.mapM_cons, hload] at hbatches
  obtain ⟨_, heq, hbatches⟩ := Option.bind_eq_some_iff.1 hbatches
  obtain rfl := Option.some.inj heq
  obtain ⟨rest, -, hrest⟩ := Option.bind_eq_some_iff.1 hbatches
  obtain rfl : batch :: rest = batches := by simpa using hrest
  rw [List.flatMap_cons]
  exact List.append_ne_nil_of_left_ne_nil (fun hnil => hne (List.map_eq_nil_iff.1 hnil)) _

/-- What a crawler makes of its blocks. -/
theorem batch_of_crawlOutput {xs : List Bytes} {output : Bytes} (hnul : ∀ x ∈ xs, NulFree x)
    (h : crawlOutput P xs = some output) : Batch output := by
  obtain ⟨ys, hys, hparse⟩ := Option.bind_eq_some_iff.1 h
  obtain rfl := binary2Digest_digest2Binary_some hnul hys
  obtain ⟨items, posts, hitems, hposts, rfl⟩ := exists_posts_of_parseSteemitItem hparse
  exact ⟨posts, postCandidates_ne_nil hposts, nulFree_postCandidates hnul hitems hposts, rfl⟩

/-! ## Shards -/

/-- The length of a blob with these tables. -/
def tablesSize (tbl : IndexTbl) (digest : List Bytes) : Nat :=
  4 + 4 * tbl.cells + (digest.map fun di => di.length + 1).sum

theorem length_merge2Binary_eq (O : HashOrder) (digest : List Bytes) (tbl : IndexTbl) :
    (merge2Binary O digest tbl).length = tablesSize tbl digest := by
  rw [merge2Binary, List.length_append, List.length_append, length_leBytes, length_index2Binary,
    length_digest2Binary, tablesSize]

theorem length_le_tablesSize (tbl : IndexTbl) (digest : List Bytes) :
    digest.length ≤ tablesSize tbl digest := by
  have hsum : digest.length ≤ (digest.map fun di => di.length + 1).sum := by
    induction digest with
    | nil => exact le_rfl
    | cons di digest ih =>
        rw [List.map_cons, List.sum_cons, List.length_cons]
        omega
  unfold tablesSize
  omega

/-- A blob with a document, well formed and without padding, of a size that fits an `int`. -/
structure Shard (v : Bytes) (tbl : IndexTbl) (digest : List Bytes) : Prop where
  read : readBlob v = some (tbl, digest)
  tables : WellFormed tbl digest
  ne_nil : digest ≠ []
  length_eq : v.length = tablesSize tbl digest
  int : v.length < 2 ^ 31

theorem digestMaxLength_lt : digestMaxLength < tempDigestLen := by decide

/-- What `Merge2Binary` makes of well-formed tables. -/
theorem exists_shard_merge2Binary (O : HashOrder) {tbl : IndexTbl} {digest : List Bytes}
    (h : WellFormed tbl digest) (hne : digest ≠ [])
    (hint : (merge2Binary O digest tbl).length < 2 ^ 31) :
    ∃ tbl', Shard (merge2Binary O digest tbl) tbl' digest := by
  have hindex : (index2Binary O tbl).length < 2 ^ 31 := by
    rw [merge2Binary, List.length_append, List.length_append] at hint
    omega
  obtain ⟨tbl', hread, hne', hfind⟩ := readBlob_merge2Binary O h.nulFree
    (fun di hdi => (h.length_le di hdi).trans_lt digestMaxLength_lt) h.zero_notMem hindex
  have hget := Multimap.get?_eq_of_noEmpty hne' h.noEmpty hfind
  refine ⟨tbl', hread, h.congr hget, hne, ?_, hint⟩
  rw [length_merge2Binary_eq, tablesSize, tablesSize, Multimap.cells_eq_of_get?_eq hget]

theorem merge2Binary_empty (O : HashOrder) (digest : List Bytes) :
    merge2Binary O digest Multimap.empty = leBytes 0 ++ digest2Binary digest := by
  have henum : O.enum Multimap.empty = [] := (O.perm Multimap.empty).eq_nil
  rw [merge2Binary, index2Binary, henum]
  rfl

/-- A buffer of zeros: a blob without words, whose documents are all empty. -/
theorem exists_shard_replicate (O : HashOrder) {n : Nat} (hn : 4 < n) (hint : n < 2 ^ 31) :
    ∃ tbl digest, Shard (List.replicate n 0) tbl digest := by
  have hdigest : ∀ k, digest2Binary (List.replicate k []) = List.replicate k 0 := by
    intro k
    induction k with
    | zero => rfl
    | succ k ih => exact congrArg (0 :: ·) ih
  have hblob : merge2Binary O (List.replicate (n - 4) []) Multimap.empty = List.replicate n 0 := by
    rw [merge2Binary_empty, hdigest, show leBytes 0 = List.replicate 4 0 from rfl,
      ← List.replicate_add, Nat.add_sub_cancel' hn.le]
  have hempty : ∀ di ∈ List.replicate (n - 4) ([] : Bytes), di = [] := fun di hdi =>
    List.eq_of_mem_replicate hdi
  have hwell : WellFormed Multimap.empty (List.replicate (n - 4) []) :=
    .of_find (fun di hdi => hempty di hdi ▸ nulFree_nil)
      (fun di hdi => hempty di hdi ▸ Nat.zero_le _) Multimap.noEmpty_empty
      fun w => ⟨.nil, fun _ hx => absurd hx List.not_mem_nil⟩
  have hne : List.replicate (n - 4) ([] : Bytes) ≠ [] :=
    List.ne_nil_of_length_pos (by rw [List.length_replicate]; omega)
  rw [← hblob]
  obtain ⟨tbl, h⟩ := exists_shard_merge2Binary O hwell hne
    (by rw [hblob, List.length_replicate]; exact hint)
  exact ⟨tbl, _, h⟩

/-- There is a NUL in every blob: in its header, or behind its first word. -/
theorem zero_mem_merge2Binary (O : HashOrder) (digest : List Bytes) (tbl : IndexTbl) :
    0 ∈ merge2Binary O digest tbl := by
  cases henum : O.enum tbl with
  | nil =>
      have hindex : index2Binary O tbl = [] := by
        rw [index2Binary, henum]
        rfl
      rw [merge2Binary, hindex]
      exact List.mem_append_left _ (by decide)
  | cons p l =>
      refine List.mem_append_left _ (List.mem_append_right _ ?_)
      rw [index2Binary, henum]
      refine List.mem_flatMap.2 ⟨0, ?_, by decide⟩
      exact List.mem_flatMap.2 ⟨p, List.mem_cons_self, by simp⟩

/-! ## Calls -/

/-- What is put of an output: the output, or a buffer of zeros if the output fills the buffer. -/
theorem data_of_readOut {size : Nat} {output data : Bytes}
    (h : readOut size (copyOut size output) output.length = some data) :
    output.length ≤ size ∧ (data = output ∨ data = List.replicate size 0) := by
  unfold readOut at h
  split_ifs at h with hle
  obtain rfl := Option.some.inj h
  refine ⟨hle, ?_⟩
  unfold copyOut
  split_ifs with hlt
  · exact .inl (List.take_left' rfl)
  · refine .inr ?_
    rw [List.nil_append, List.take_replicate]
    congr 1
    omega

/-- So whatever `Merge2Binary` makes of well-formed tables, a shard is put. -/
theorem exists_shard_of_readOut {O : HashOrder} {tbl : IndexTbl} {digest : List Bytes} {size : Nat}
    {data : Bytes} (h : WellFormed tbl digest) (hne : digest ≠ []) (hmin : 4 < size)
    (hmax : size < 2 ^ 31)
    (hread : readOut size (copyOut size (merge2Binary O digest tbl))
      (merge2Binary O digest tbl).length = some data) : ∃ tbl digest, Shard data tbl digest := by
  obtain ⟨hle, rfl | rfl⟩ := data_of_readOut hread
  · obtain ⟨tbl', hshard⟩ := exists_shard_merge2Binary O h hne (hle.trans_lt hmax)
    exact ⟨tbl', digest, hshard⟩
  · exact exists_shard_replicate O hmin hmax

/-- An indexer puts a shard, if what it is given starts with a batch. -/
theorem exists_shard_of_indexCall {O : HashOrder} {v : Bytes} {vs : List Bytes} {out : Output}
    (hv : Batch v) (hlen : (v :: vs).length ≤ 1000) (h : indexCall P O (v :: vs) = some out) :
    ∃ tbl digest, Shard out.data tbl digest := by
  obtain ⟨output, houtput, -, hread⟩ := indexCall_eq_some hlen h
  obtain ⟨docs, hdocs, rfl⟩ := exists_documents_of_indexOutput houtput
  have hmax : indexOutputMaxLength = 67108864 := rfl
  have hcount : docs.length + 1 < 2 ^ 32 := by
    have hle := (data_of_readOut hread).1
    have := length_le_merge2Binary O docs (indexOf P docs)
    omega
  have hne : docs ≠ [] := by
    rw [List.map_cons, hv.cString_eq] at hdocs
    exact documents_ne_nil hv hdocs
  exact exists_shard_of_readOut
    (wellFormed_of_indexes (indexes_indexOf hcount) (nulFree_documents hdocs) hcount)
    (fun hnil => hne (List.map_eq_nil_iff.1 hnil)) (by decide) (by decide) hread

section

variable {O : HashOrder} {v₁ v₂ output : Bytes} {tbl₁ tbl₂ : IndexTbl}
  {digest₁ digest₂ : List Bytes}
  (h₁ : Shard v₁ tbl₁ digest₁) (h₂ : Shard v₂ tbl₂ digest₂)

include h₁ h₂

theorem mergeOutput_eq_of_shards : mergeOutput O v₁ v₂ =
    some (merge2Binary O (digest₁ ++ digest₂)
      (mergeIndex O tbl₁ tbl₂ digest₁.length)) := by
  rw [mergeOutput, h₁.read, h₂.read]
  rfl

/-- **Merging adds.** The output of a merge is longer than each of the two shards: it has all the
words of both, and the documents of the other. -/
theorem mergeOutput_length_lt (h : mergeOutput O v₁ v₂ = some output) :
    v₁.length < output.length ∧ v₂.length < output.length := by
  rw [mergeOutput_eq_of_shards h₁ h₂] at h
  obtain rfl := Option.some.inj h
  have hpos : ∀ {digest : List Bytes}, digest ≠ [] →
      0 < (digest.map fun di => di.length + 1).sum := by
    intro digest hne
    obtain ⟨di, digest, rfl⟩ := List.exists_cons_of_ne_nil hne
    rw [List.map_cons, List.sum_cons]
    omega
  have hcells₁ : tbl₁.cells ≤ (mergeIndex O tbl₁ tbl₂ digest₁.length).cells := by
    refine Multimap.cells_le_of_find h₁.tables.noEmpty fun w => ?_
    rw [find_mergeIndex, List.length_append]
    exact Nat.le_add_right _ _
  have hcells₂ : tbl₂.cells ≤ (mergeIndex O tbl₁ tbl₂ digest₁.length).cells := by
    refine Multimap.cells_le_of_find h₂.tables.noEmpty fun w => ?_
    rw [find_mergeIndex, List.length_append, List.length_map]
    exact Nat.le_add_left _ _
  have hpos₁ := hpos h₁.ne_nil
  have hpos₂ := hpos h₂.ne_nil
  rw [length_merge2Binary_eq, h₁.length_eq, h₂.length_eq, tablesSize, tablesSize, tablesSize,
    List.map_append, List.sum_append]
  omega

/-- A reducer puts a shard, if it is given shards. -/
theorem exists_shard_of_mergeCall {out : Output} (h : mergeCall P O v₁ v₂ = some out) :
    ∃ tbl digest, Shard out.data tbl digest := by
  obtain ⟨output, houtput, -, hread⟩ := mergeCall_eq_some h
  rw [mergeOutput_eq_of_shards h₁ h₂] at houtput
  obtain rfl := Option.some.inj houtput
  have hcount₁ := length_le_tablesSize tbl₁ digest₁
  have hcount₂ := length_le_tablesSize tbl₂ digest₂
  have hint₁ := h₁.int
  have hint₂ := h₂.int
  rw [h₁.length_eq] at hint₁
  rw [h₂.length_eq] at hint₂
  exact exists_shard_of_readOut (h₁.tables.merge _ h₂.tables (by omega))
    (List.append_ne_nil_of_left_ne_nil h₁.ne_nil _) (by decide) (by decide) hread

end

/-! ## Merging indexes of documents -/

section

variable {O : HashOrder} {docs₁ docs₂ : List Bytes} {blob₁ blob₂ output : Bytes}
  (h₁ : Represents P docs₁ blob₁) (h₂ : Represents P docs₂ blob₂)
  (h : mergeOutput O blob₁ blob₂ = some output)

include h₁ h₂ h

theorem exists_tables_of_mergeOutput :
    ∃ tbl, output = merge2Binary O (digests (docs₁ ++ docs₂)) tbl ∧
      Indexes P (docs₁ ++ docs₂) tbl := by
  obtain ⟨-, tbl₁, hread₁, hidx₁⟩ := h₁
  obtain ⟨-, tbl₂, hread₂, hidx₂⟩ := h₂
  have hdig : digests docs₁ ++ digests docs₂ = digests (docs₁ ++ docs₂) := List.map_append.symm
  have hlen : (digests docs₁).length = docs₁.length := List.length_map _
  rw [mergeOutput, hread₁, hread₂] at h
  simp only [Option.bind_eq_bind, Option.bind_some, hdig, hlen, Option.pure_def,
    Option.some.injEq] at h
  exact ⟨_, h.symm, indexes_mergeIndex O hidx₁ hidx₂⟩

/-- The documents of the first index, and then those of the second. -/
theorem represents_mergeOutput (hint : output.length < 2 ^ 31) :
    (docs₁ ++ docs₂).length + 1 < 2 ^ 32 ∧ Represents P (docs₁ ++ docs₂) output := by
  obtain ⟨tbl, rfl, hidx⟩ := exists_tables_of_mergeOutput h₁ h₂ h
  refine represents_of_length _ (fun _ => hidx) ?_ hint
  exact fun doc hdoc => (List.mem_append.1 hdoc).elim (h₁.1 doc) (h₂.1 doc)

end

end DeSearch
