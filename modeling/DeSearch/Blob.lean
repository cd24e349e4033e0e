import DeSearch.IndexProof

/-!
# Index blobs

A blob is what travels between the stages: a digest table and an index table in one string of
bytes.

* `readBlob_merge2Binary_eq`: what `Merge2Binary` writes is read back exactly, for every order in
  which the hash map was enumerated.
* `PipelineBlob.wellFormed`: whatever `ecall_build_index` makes, and `ecall_do_merge` makes of
  that, decodes to digests that fit their place and to posting lists a querier can work with: none
  is empty, all are strictly increasing, and all docIDs have a digest.
-/

namespace DeSearch

open JSON

variable {P : Platform}

/-! ## Round trip -/

/-- **Round trip.** Reading back what `Merge2Binary` wrote gives the same digest table and the same
map. -/
theorem readBlob_merge2Binary_eq (O : HashOrder) {digest : List Bytes} {index : IndexTbl}
    (hnul : ∀ di ∈ digest, NulFree di) (hlen : ∀ di ∈ digest, di.length < tempDigestLen)
    (hne : ∀ p ∈ index.entries, p.2 ≠ []) (hz : ∀ p ∈ index.entries, 0 ∉ p.2)
    (hsize : (merge2Binary O digest index).length < 2 ^ 31) :
    ∃ tbl, readBlob (merge2Binary O digest index) = some (tbl, digest) ∧
      ∀ w, tbl.get? w = index.get? w := by
  have hindex : (index2Binary O index).length < 2 ^ 31 := by
    rw [merge2Binary, List.length_append, List.length_append] at hsize
    omega
  obtain ⟨tbl, hread, htbl, hfind⟩ := readBlob_merge2Binary O hnul hlen hz hindex
  exact ⟨tbl, hread, Multimap.get?_eq_of_noEmpty htbl hne hfind⟩

/-- A table with the key 0. -/
def roundTripTable : IndexTbl := Multimap.empty.pushAll [(0, 1), (7, 2), (0, 2)]

theorem readBlob_merge2Binary_eq_sample : ∃ tbl,
    readBlob (merge2Binary insertionOrder [[], ascii "two"] roundTripTable) =
      some (tbl, [[], ascii "two"]) ∧ ∀ w, tbl.get? w = roundTripTable.get? w := by
  refine readBlob_merge2Binary_eq _ ?_ ?_ ?_ ?_ ?_
  all_goals decide +kernel

/-! ## Blobs of the pipeline -/

/-- The blobs that come out of `ecall_build_index` and `ecall_do_merge`, complete and of a size
that fits an `int`. Each call may enumerate its hash maps in an order of its own. -/
inductive PipelineBlob (P : Platform) : Bytes → Prop
  | build {O : HashOrder} {indexInputs blob witness : Bytes} {size witnessSize : Nat}
      (call : ecallBuildIndex P O indexInputs size witnessSize =
        some (blob, blob.length, witness))
      (int : blob.length < 2 ^ 31) : PipelineBlob P blob
  | merge {O : HashOrder} {blob₁ blob₂ blob witness : Bytes} {size witnessSize : Nat}
      (left : PipelineBlob P blob₁) (right : PipelineBlob P blob₂)
      (call : ecallDoMerge P O blob₁ blob₂ size witnessSize =
        some (blob, blob.length, witness))
      (int : blob.length < 2 ^ 31) : PipelineBlob P blob

/-- What a querier relies on. -/
structure WellFormed (tbl : IndexTbl) (digest : List Bytes) : Prop where
  nulFree : ∀ di ∈ digest, NulFree di
  length_le : ∀ di ∈ digest, di.length ≤ digestMaxLength
  ne_nil : ∀ w docs, tbl.get? w = some docs → docs ≠ []
  increasing : ∀ w docs, tbl.get? w = some docs → docs.Pairwise (· < ·)
  in_range : ∀ w docs, tbl.get? w = some docs →
    ∀ docID ∈ docs, 1 ≤ docID.toNat ∧ docID.toNat ≤ digest.length

/-- A result that is reported with the size it has in the caller's buffer did fit it. -/
theorem eq_of_copyOut {size : Nat} {result blob : Bytes} (hblob : copyOut size result = blob)
    (hlen : result.length = blob.length) : result = blob := by
  subst hblob
  unfold copyOut at hlen ⊢
  split_ifs at hlen ⊢ with hsize
  · rfl
  · exact List.length_eq_zero_iff.1 hlen

theorem length_le_merge2Binary (O : HashOrder) (docs : List Bytes) (tbl : IndexTbl) :
    docs.length ≤ (merge2Binary O (digests docs) tbl).length := by
  have hsum : docs.length ≤ ((digests docs).map fun di => di.length + 1).sum := by
    rw [digests, List.map_map]
    induction docs with
    | nil => exact le_rfl
    | cons doc docs ih =>
        rw [List.map_cons, List.sum_cons, List.length_cons]
        simp only [Function.comp_apply]
        omega
  rw [merge2Binary, List.length_append, length_digest2Binary]
  omega

/-- The encoding of an index represents its documents, if only it fits an `int`. -/
theorem represents_of_length (O : HashOrder) {docs : List Bytes} {tbl : IndexTbl}
    (h : docs.length + 1 < 2 ^ 32 → Indexes P docs tbl) (hnul : ∀ doc ∈ docs, NulFree doc)
    (hint : (merge2Binary O (digests docs) tbl).length < 2 ^ 31) :
    docs.length + 1 < 2 ^ 32 ∧ Represents P docs (merge2Binary O (digests docs) tbl) := by
  have hcount : docs.length + 1 < 2 ^ 32 := by
    have := length_le_merge2Binary O docs tbl
    omega
  rw [length_merge2Binary O (h hcount) hcount] at hint
  exact ⟨hcount, represents_merge2Binary O (h hcount) hnul hint⟩

theorem represents_build {O : HashOrder} {indexInputs blob witness : Bytes}
    {size witnessSize : Nat}
    (call : ecallBuildIndex P O indexInputs size witnessSize =
      some (blob, blob.length, witness)) (int : blob.length < 2 ^ 31) :
    ∃ docs, docs.length + 1 < 2 ^ 32 ∧ Represents P docs blob := by
  obtain ⟨inputs, hinputs, call⟩ := Option.bind_eq_some_iff.1 call
  obtain ⟨tables, hbuild, call⟩ := Option.bind_eq_some_iff.1 call
  obtain ⟨docs, hdocs, rfl⟩ := Option.map_eq_some_iff.1 hbuild
  obtain ⟨hblob, hlen, -⟩ : copyOut size _ = blob ∧ _ = blob.length ∧ _ = witness := by
    simpa using call
  obtain rfl := eq_of_copyOut hblob hlen
  -- the inputs were read as C strings, so they are their own C strings
  have hcstring : inputs.map cString = inputs := by
    rw [List.map_congr_left fun x hx =>
      cString_of_nulFree (nulFree_of_binary2Digest hinputs x hx), List.map_id']
  rw [← hcstring] at hdocs
  exact ⟨docs, represents_of_length _ (fun hcount => indexes_indexOf hcount)
    (nulFree_documents hdocs) int⟩

theorem represents_merge {O : HashOrder} {docs₁ docs₂ : List Bytes}
    {blob₁ blob₂ blob witness : Bytes} {size witnessSize : Nat}
    (h₁ : Represents P docs₁ blob₁) (h₂ : Represents P docs₂ blob₂)
    (call : ecallDoMerge P O blob₁ blob₂ size witnessSize =
      some (blob, blob.length, witness)) (int : blob.length < 2 ^ 31) :
    (docs₁ ++ docs₂).length + 1 < 2 ^ 32 ∧ Represents P (docs₁ ++ docs₂) blob := by
  obtain ⟨hnul₁, tbl₁, hread₁, hidx₁⟩ := h₁
  obtain ⟨hnul₂, tbl₂, hread₂, hidx₂⟩ := h₂
  have hdig : digests docs₁ ++ digests docs₂ = digests (docs₁ ++ docs₂) := List.map_append.symm
  have hdigLen : (digests docs₁).length = docs₁.length := List.length_map _
  rw [ecallDoMerge, hread₁, hread₂] at call
  simp only [Option.bind_eq_bind, Option.bind_some, hdig, hdigLen, Option.pure_def,
    Option.some.injEq, Prod.mk.injEq] at call
  obtain ⟨hblob, hlen, -⟩ := call
  obtain rfl := eq_of_copyOut hblob hlen
  have hnul : ∀ doc ∈ docs₁ ++ docs₂, NulFree doc := fun doc hdoc =>
    (List.mem_append.1 hdoc).elim (hnul₁ doc) (hnul₂ doc)
  exact represents_of_length _ (fun _ => indexes_mergeIndex _ hidx₁ hidx₂) hnul int

/-- Every blob of the pipeline represents some list of documents. -/
theorem PipelineBlob.represents {blob : Bytes} (h : PipelineBlob P blob) :
    ∃ docs, docs.length + 1 < 2 ^ 32 ∧ Represents P docs blob := by
  induction h with
  | build call int => exact represents_build call int
  | merge _ _ call int ih₁ ih₂ =>
      obtain ⟨docs₁, -, h₁⟩ := ih₁
      obtain ⟨docs₂, -, h₂⟩ := ih₂
      exact ⟨docs₁ ++ docs₂, represents_merge h₁ h₂ call int⟩

theorem pairwise_postings (w : DWord) {docID : Nat} {docs : List Bytes}
    (hid : docID + docs.length ≤ 2 ^ 32) : (postings P w docID docs).Pairwise (· < ·) := by
  induction docs generalizing docID with
  | nil => exact List.Pairwise.nil
  | cons doc docs ih =>
      rw [List.length_cons] at hid
      have hrest : (postings P w (docID + 1) docs).Pairwise (· < ·) := ih (by omega)
      rw [postings]
      split_ifs
      · refine List.pairwise_cons.2 ⟨fun x hx => ?_, hrest⟩
        obtain ⟨n, hle, hlt, rfl⟩ := exists_of_mem_postings P hx
        rw [BitVec.lt_def, BitVec.toNat_ofNat, BitVec.toNat_ofNat, Nat.mod_eq_of_lt (by omega),
          Nat.mod_eq_of_lt (by omega)]
        omega
      · exact hrest

theorem Indexes.get?_eq_some {docs : List Bytes} {tbl : IndexTbl} (h : Indexes P docs tbl)
    {w : DWord} {docIDs : List DWord} (hget : tbl.get? w = some docIDs) :
    docIDs ≠ [] ∧ docIDs = postings P w 1 docs := by
  have hne : docIDs ≠ [] := h.noEmpty _ ((Multimap.listGet?_eq_some tbl.nodup).1 hget)
  have hfind := h.find w
  rw [Multimap.find, hget, Option.getD_some, lookup] at hfind
  split_ifs at hfind
  · exact absurd hfind hne
  · exact ⟨hne, hfind⟩

/-- The index of a list of documents is well formed over their digests. -/
theorem wellFormed_of_indexes {docs : List Bytes} {tbl : IndexTbl} (h : Indexes P docs tbl)
    (hnul : ∀ doc ∈ docs, NulFree doc) (hcount : docs.length + 1 < 2 ^ 32) :
    WellFormed tbl (digests docs) where
  nulFree di hdi := by
    obtain ⟨doc, hdoc, rfl⟩ := List.mem_map.1 hdi
    exact (hnul doc hdoc).take _
  length_le di hdi := by
    obtain ⟨doc, -, rfl⟩ := List.mem_map.1 hdi
    exact List.length_take_le _ _
  ne_nil w docIDs hget := (h.get?_eq_some hget).1
  increasing w docIDs hget := by
    rw [(h.get?_eq_some hget).2]
    exact pairwise_postings w (by omega)
  in_range w docIDs hget docID hdoc := by
    rw [(h.get?_eq_some hget).2] at hdoc
    obtain ⟨n, hle, hlt, rfl⟩ := exists_of_mem_postings P hdoc
    rw [BitVec.toNat_ofNat, Nat.mod_eq_of_lt (by omega), digests, List.length_map]
    omega

/-! ## Tables that stay well formed -/

namespace WellFormed

variable {tbl tbl₁ tbl₂ : IndexTbl} {digest digest₁ digest₂ : List Bytes}

theorem noEmpty (h : WellFormed tbl digest) : tbl.NoEmpty := fun p hp =>
  h.ne_nil p.1 p.2 ((Multimap.listGet?_eq_some tbl.nodup).2 hp)

/-- The lists that are read are increasing, also where nothing is found. -/
theorem find (h : WellFormed tbl digest) (w : DWord) : (tbl.find w).Pairwise (· < ·) ∧
    ∀ docID ∈ tbl.find w, 1 ≤ docID.toNat ∧ docID.toNat ≤ digest.length := by
  rw [Multimap.find]
  cases hget : tbl.get? w with
  | none => exact ⟨.nil, fun _ hx => absurd hx List.not_mem_nil⟩
  | some docs => exact ⟨h.increasing w docs hget, h.in_range w docs hget⟩

theorem zero_notMem (h : WellFormed tbl digest) : ∀ p ∈ tbl.entries, 0 ∉ p.2 := by
  intro p hp hz
  have := h.in_range p.1 p.2 ((Multimap.listGet?_eq_some tbl.nodup).2 hp) 0 hz
  simp at this

theorem of_find (hnul : ∀ di ∈ digest, NulFree di)
    (hlen : ∀ di ∈ digest, di.length ≤ digestMaxLength) (hne : tbl.NoEmpty)
    (hfind : ∀ w, (tbl.find w).Pairwise (· < ·) ∧
      ∀ docID ∈ tbl.find w, 1 ≤ docID.toNat ∧ docID.toNat ≤ digest.length) :
    WellFormed tbl digest := by
  have hget : ∀ {w docs}, tbl.get? w = some docs → tbl.find w = docs := fun h => by
    rw [Multimap.find, h, Option.getD_some]
  exact ⟨hnul, hlen, fun w docs h => hne _ ((Multimap.listGet?_eq_some tbl.nodup).1 h),
    fun w docs h => hget h ▸ (hfind w).1, fun w docs h => hget h ▸ (hfind w).2⟩

theorem congr (h : WellFormed tbl₁ digest) (heq : ∀ w, tbl₂.get? w = tbl₁.get? w) :
    WellFormed tbl₂ digest :=
  ⟨h.nulFree, h.length_le, fun w docs hget => h.ne_nil w docs (heq w ▸ hget),
    fun w docs hget => h.increasing w docs (heq w ▸ hget),
    fun w docs hget => h.in_range w docs (heq w ▸ hget)⟩

/-- A docID of the second table, moved behind the documents of the first. -/
theorem toNat_shift (h₂ : WellFormed tbl₂ digest₂) {n : Nat}
    (hcount : n + digest₂.length < 2 ^ 32) {w docID : DWord} (hdoc : docID ∈ tbl₂.find w) :
    (docID + BitVec.ofNat 32 n).toNat = docID.toNat + n := by
  have := (h₂.find w).2 docID hdoc
  rw [BitVec.toNat_add, BitVec.toNat_ofNat, Nat.mod_eq_of_lt (b := 2 ^ 32) (a := n) (by omega),
    Nat.mod_eq_of_lt (by omega)]

/-- Merging keeps tables well formed, as long as the documents can be numbered. -/
theorem merge (O : HashOrder) (h₁ : WellFormed tbl₁ digest₁) (h₂ : WellFormed tbl₂ digest₂)
    (hcount : digest₁.length + digest₂.length < 2 ^ 32) :
    WellFormed (mergeIndex O tbl₁ tbl₂ digest₁.length) (digest₁ ++ digest₂) := by
  refine .of_find (fun di hdi => (List.mem_append.1 hdi).elim (h₁.nulFree di) (h₂.nulFree di))
    (fun di hdi => (List.mem_append.1 hdi).elim (h₁.length_le di) (h₂.length_le di))
    (h₁.noEmpty.pushAll _) fun w => ?_
  obtain ⟨hinc₁, hrange₁⟩ := h₁.find w
  obtain ⟨hinc₂, hrange₂⟩ := h₂.find w
  have hshift : ∀ docID ∈ tbl₂.find w,
      (docID + BitVec.ofNat 32 digest₁.length).toNat = docID.toNat + digest₁.length :=
    fun docID hdoc => h₂.toNat_shift hcount hdoc
  rw [find_mergeIndex, List.length_append]
  refine ⟨List.pairwise_append.2 ⟨hinc₁, List.pairwise_map.2 ?_, ?_⟩, ?_⟩
  · refine hinc₂.imp_of_mem fun {a b} ha hb hab => ?_
    rw [BitVec.lt_def] at hab ⊢
    rw [hshift a ha, hshift b hb]
    omega
  · intro a ha b hb
    obtain ⟨c, hc, rfl⟩ := List.mem_map.1 hb
    have hle := (hrange₁ a ha).2
    have hpos := (hrange₂ c hc).1
    rw [BitVec.lt_def, hshift c hc]
    omega
  · intro docID hdoc
    rcases List.mem_append.1 hdoc with hdoc | hdoc
    · have := hrange₁ docID hdoc
      omega
    · obtain ⟨c, hc, rfl⟩ := List.mem_map.1 hdoc
      have := hrange₂ c hc
      rw [hshift c hc]
      omega

end WellFormed

/-- **Representation invariant.** Every blob of the pipeline decodes, to tables a querier can work
with. -/
theorem PipelineBlob.wellFormed {blob : Bytes} (h : PipelineBlob P blob) :
    ∃ tbl digest, readBlob blob = some (tbl, digest) ∧ WellFormed tbl digest := by
  obtain ⟨docs, hcount, hnul, tbl, hread, hidx⟩ := h.represents
  exact ⟨tbl, digests docs, hread, wellFormed_of_indexes hidx hnul hcount⟩

/-- The blob of a few documents on the sample platform. -/
def blobOf (docs : List Bytes) : Bytes :=
  merge2Binary insertionOrder (digests docs) (indexOf samplePlatform docs)

theorem pipelineBlob_two :
    PipelineBlob samplePlatform (blobOf [ascii "bravo", ascii "alpha"]) :=
  @PipelineBlob.build _ insertionOrder (digest2Binary [ascii "[\"bravo\", \"alpha\"]"]) _ []
    1000 0 (by decide +kernel) (by decide +kernel)

/-- Two indexes and their merge. -/
theorem PipelineBlob.wellFormed_sample : ∃ blob tbl digest,
    ecallDoMerge samplePlatform insertionOrder (blobOf [ascii "alpha"])
      (blobOf [ascii "bravo", ascii "alpha"]) 1000 0 = some (blob, blob.length, []) ∧
    readBlob blob = some (tbl, digest) ∧ WellFormed tbl digest := by
  have hone : PipelineBlob samplePlatform (blobOf [ascii "alpha"]) :=
    @PipelineBlob.build _ insertionOrder (digest2Binary [ascii "[\"alpha\"]"]) _ [] 1000 0
      (by decide +kernel) (by decide +kernel)
  have hcall : ecallDoMerge samplePlatform insertionOrder (blobOf [ascii "alpha"])
      (blobOf [ascii "bravo", ascii "alpha"]) 1000 0 =
        some (blobOf [ascii "alpha", ascii "bravo", ascii "alpha"],
          (blobOf [ascii "alpha", ascii "bravo", ascii "alpha"]).length, []) := by decide +kernel
  have hmerge : PipelineBlob samplePlatform
      (blobOf [ascii "alpha", ascii "bravo", ascii "alpha"]) :=
    @PipelineBlob.merge _ insertionOrder _ _ _ _ _ _ hone pipelineBlob_two hcall
      (by decide +kernel)
  obtain ⟨tbl, digest, hread, hwf⟩ := PipelineBlob.wellFormed hmerge
  exact ⟨_, tbl, digest, hcall, hread, hwf⟩

end DeSearch
