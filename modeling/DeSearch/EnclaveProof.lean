import DeSearch.IndexProof
import DeSearch.JsonSize

/-!
# Outputs and their witnesses

A call makes an output inside the enclave; the executor has what it finds in its buffers. The
witness is always small enough to be copied out, so it is filed under the hash of the output. The
value is the output itself if that fits its buffer (`crawlCall_eq_some`, `indexCall_eq_some`,
`mergeCall_eq_some`).
-/

namespace DeSearch

open JSON

variable {P : Platform}

/-! ## Witness texts fit their buffer -/

theorem cleanElems_strings {l : List Bytes} (h : ∀ s ∈ l, NulFree s) :
    CleanElems (l.map string) := by
  induction l with
  | nil => trivial
  | cons s l ih =>
      rw [List.forall_mem_cons] at h
      exact ⟨h.1, ih h.2⟩

theorem length_escape_sha256 (C : Crypto) (m : Bytes) : (escape (C.sha256 m)).length = 64 := by
  rw [escape_of_hex (C.sha256_hex m), C.sha256_length]

theorem length_escape_sign (C : Crypto) (m : Bytes) :
    (escape (sigToString (C.sign m))).length = 128 := by
  rw [escape_of_hex fun c hc => isHex_of_mem_sigToString hc, length_sigToString, C.sign_length]

theorem length_dump_signedJson (C : Crypto) (context : WitnessContext) (d : Nat) :
    ((signedJson C context).dump d).length = (escape context.bin).length +
      (dumpElems (d + 1) (context.ins.map string)).length + (escape context.out).length +
      (escape context.tag).length + (10 * d + 2 * (d - 1) + 190) := by
  have hkeys : (ascii "FUNC").length = 4 ∧ (ascii "IN").length = 2 ∧ (ascii "OUT").length = 3 ∧
    (ascii "SIG").length = 3 ∧ (ascii "TAG").length = 3 := by decide
  rw [signedJson, length_dump_object]
  simp only [length_dumpMembers_cons, length_dumpMembers_singleton, length_dump_string,
    length_dump_array, length_escape_sign]
  omega

theorem length_witnessText_le (C : Crypto) {tag : Bytes} (role : Bytes) (inputs : List Bytes)
    (output : Bytes) (htag : (escape tag).length ≤ 64) :
    (witnessText C (witnessOf C tag role inputs output)).length ≤ 68 * inputs.length + 1000 := by
  have hins : (dumpElems 2 ((inputs.map C.sha256).map string)).length ≤ 68 * inputs.length := by
    by_cases hne : inputs = []
    · subst hne
      exact Nat.zero_le _
    · have hsize := length_dumpElems (f := fun x => string (C.sha256 x)) (d := 2) (l := inputs)
        (fun x _ => length_dump_string 3 (C.sha256 x)) hne
      simp only [length_escape_sha256, List.map_const', List.sum_replicate_nat] at hsize
      rw [List.map_map]
      simp only [Function.comp_def]
      omega
  rw [witnessText_eq, witnessOf_eq, length_dump_signedJson]
  simp only [length_escape_sha256, Nat.reduceAdd]
  omega

theorem nulFree_witnessText (C : Crypto) {tag : Bytes} (role : Bytes) (inputs : List Bytes)
    (output : Bytes) (htag : NulFree tag) :
    NulFree (witnessText C (witnessOf C tag role inputs output)) := by
  have hsha : ∀ m, NulFree (C.sha256 m) := fun m => nulFree_of_hex (C.sha256_hex m)
  have hins : CleanElems ((inputs.map C.sha256).map string) := cleanElems_strings fun s hs => by
    obtain ⟨m, -, rfl⟩ := List.mem_map.1 hs
    exact hsha m
  rw [witnessText_eq, witnessOf_eq]
  refine nulFree_dump (signedJson C _) ?_ 1
  exact ⟨by decide, hsha _, by decide, hins, by decide, hsha _, by decide,
    nulFree_of_hex fun c hc => isHex_of_mem_sigToString hc, by decide, htag, trivial⟩

/-- A witness over at most 1000 inputs reaches the executor whole. -/
theorem cString_copyOut_witness {tag : Bytes} (role : Bytes) {inputs : List Bytes} (output : Bytes)
    (hlen : inputs.length ≤ 1000) (htag : (escape tag).length ≤ 64) (hnul : NulFree tag) :
    cString (copyOut witnessMaxLength (createWitness P.crypto tag role inputs output)) =
      createWitness P.crypto tag role inputs output := by
  have hsize := length_witnessText_le P.crypto role inputs output htag
  have hmax : witnessMaxLength = 1048576 := rfl
  have hcopy : copyOut witnessMaxLength (createWitness P.crypto tag role inputs output) =
      createWitness P.crypto tag role inputs output := by
    refine if_pos ?_
    rw [createWitness_eq]
    omega
  rw [hcopy, createWitness_eq]
  exact cString_of_nulFree (nulFree_witnessText P.crypto role inputs output hnul)

/-- It is filed under the hash of the output. -/
theorem witnessKey_copyOut {tag : Bytes} (role : Bytes) {inputs : List Bytes} (output : Bytes)
    (hlen : inputs.length ≤ 1000) (htag : (escape tag).length ≤ 64) (hnul : NulFree tag) :
    witnessKey P.runtime
      (cString (copyOut witnessMaxLength (createWitness P.crypto tag role inputs output))) =
        some (P.crypto.sha256 output) := by
  rw [cString_copyOut_witness role output hlen htag hnul, witnessKey_createWitness]

/-! ## Crawler -/

variable (P) in
/-- The output of `ecall_parse_items` inside the enclave. -/
def crawlOutput (xs : List Bytes) : Option Bytes :=
  (binary2Digest (digest2Binary xs)).bind (parseSteemitItem P)

theorem binary2Digest_digest2Binary_some {xs ys : List Bytes} (hnul : ∀ x ∈ xs, NulFree x)
    (h : binary2Digest (digest2Binary xs) = some ys) : ys = xs := by
  by_cases hlen : ∀ x ∈ xs, x.length < tempDigestLen
  · rw [binary2Digest_digest2Binary hnul hlen] at h
    exact (Option.some.inj h).symm
  · push Not at hlen
    obtain ⟨x, hx, hlen⟩ := hlen
    rw [binary2Digest_digest2Binary_overrun hnul hx hlen] at h
    cases h

theorem cleanMembers_lookup {m : List (Bytes × JSON)} (h : CleanMembers m) (k : Bytes) :
    Clean ((m.lookup k).getD null) := by
  induction m with
  | nil => trivial
  | cons p m ih =>
      obtain ⟨k', v⟩ := p
      rw [List.lookup_cons]
      split
      · exact h.2.1
      · exact ih h.2.2

theorem clean_get {j : JSON} (h : Clean j) (k : Bytes) : Clean (j.get k) := by
  cases j with
  | object m => exact cleanMembers_lookup h k
  | _ => trivial

theorem nulFree_blockPosts {item : JSON} (h : Clean item) : ∀ post ∈ blockPosts item,
    NulFree post := by
  intro post hpost
  obtain ⟨txn, htxn, hpost⟩ := List.mem_flatMap.1 hpost
  obtain ⟨op, hop, hpost⟩ := List.mem_filterMap.1 hpost
  have hclean : Clean op := clean_of_mem_arrayRange
    (clean_get (clean_of_mem_arrayRange (clean_get (clean_get (clean_get h _) _) _) htxn) _) hop
  split_ifs at hpost
  cases hpost
  refine nulFree_append.2 ⟨nulFree_append.2 ⟨nulFree_toStr ?_, by decide⟩, nulFree_toStr ?_⟩
  all_goals exact clean_get (clean_get hclean _) _

theorem exists_posts_of_parseSteemitItem {inputs : List Bytes} {output : Bytes}
    (h : parseSteemitItem P inputs = some output) :
    ∃ items posts, inputs.mapM (load P.runtime) = some items ∧
      postCandidates P items = some posts ∧ output = (array (posts.map string)).dump 1 := by
  obtain ⟨items, hitems, h⟩ := Option.bind_eq_some_iff.1 h
  obtain ⟨posts, hposts, h⟩ := Option.bind_eq_some_iff.1 h
  exact ⟨items, posts, hitems, hposts, by simpa using h.symm⟩

theorem nulFree_postCandidates {inputs : List Bytes} {items : List JSON} {posts : List Bytes}
    (hnul : ∀ x ∈ inputs, NulFree x) (hitems : inputs.mapM (load P.runtime) = some items)
    (hposts : postCandidates P items = some posts) : ∀ post ∈ posts, NulFree post := by
  intro post hpost
  unfold postCandidates at hposts
  split at hposts
  · obtain ⟨item, -, rfl⟩ := Option.map_eq_some_iff.1 hposts
    rw [List.mem_singleton.1 hpost]
    exact nulFree_of_hex (P.crypto.sha256_hex _)
  · cases hposts
    obtain ⟨item, hitem, hpost⟩ := List.mem_flatMap.1 hpost
    obtain ⟨x, hx, hload⟩ := mem_of_mapM_eq_some hitems item hitem
    exact nulFree_blockPosts (load_clean (hnul x hx) hload) post hpost

/-- The documents a crawler publishes have no NUL in them. -/
theorem nulFree_parseSteemitItem {inputs : List Bytes} {output : Bytes}
    (hnul : ∀ x ∈ inputs, NulFree x) (h : parseSteemitItem P inputs = some output) :
    NulFree output := by
  obtain ⟨items, posts, hitems, hposts, rfl⟩ := exists_posts_of_parseSteemitItem h
  exact nulFree_dump (array (posts.map string))
    (cleanElems_strings (nulFree_postCandidates hnul hitems hposts)) 1

/-- What a crawler takes out of its buffers. -/
theorem crawlCall_eq_some {xs : List Bytes} {out : Output} (hnul : ∀ x ∈ xs, NulFree x)
    (hlen : xs.length ≤ 1000) (h : crawlCall P xs = some out) :
    ∃ output, crawlOutput P xs = some output ∧ out.witness = createCralwerWitness P xs output ∧
      (output.length < outputMaxLength → out.data = output) := by
  obtain ⟨⟨o, w⟩, hecall, rfl⟩ := Option.map_eq_some_iff.1 h
  obtain ⟨items, hitems, hrest⟩ := Option.bind_eq_some_iff.1 hecall
  obtain ⟨output, hparse, hpure⟩ := Option.bind_eq_some_iff.1 hrest
  obtain rfl := binary2Digest_digest2Binary_some hnul hitems
  cases hpure
  refine ⟨output, ?_, cString_copyOut_witness _ output hlen (by decide) (by decide),
    fun hsize => ?_⟩
  · rw [crawlOutput, hitems, Option.bind_some, hparse]
  · change cString (copyOut outputMaxLength output) = output
    rw [copyOut, if_pos hsize, cString_of_nulFree (nulFree_parseSteemitItem hnul hparse)]

theorem crawlCall_of_output {xs : List Bytes} {output : Bytes} (hnul : ∀ x ∈ xs, NulFree x)
    (hlen : xs.length ≤ 1000) (h : crawlOutput P xs = some output)
    (hsize : output.length < outputMaxLength) :
    ∃ out, crawlCall P xs = some out ∧ out.data = output ∧
      witnessKey P.runtime out.witness = some (P.crypto.sha256 output) := by
  obtain ⟨items, hitems, hparse⟩ := Option.bind_eq_some_iff.1 h
  have hcall : ∃ out, crawlCall P xs = some out := by
    rw [crawlCall, ecallParseItems, hitems]
    simp [hparse]
  obtain ⟨out, hout⟩ := hcall
  obtain ⟨output', houtput, hwitness, hdata⟩ := crawlCall_eq_some hnul hlen hout
  obtain rfl : output = output' := Option.some.inj (h.symm.trans houtput)
  exact ⟨out, hout, hdata hsize, by rw [hwitness]; exact witnessKey_createWitness _ _ _ _⟩

/-- Blocks without posts: the only document is a hash of the first block. -/
theorem crawlOutput_of_no_posts {xs : List Bytes} {item : JSON} {items : List JSON}
    (hnul : ∀ x ∈ xs, NulFree x) (hlen : ∀ x ∈ xs, x.length < tempDigestLen)
    (hload : xs.mapM (load P.runtime) = some (item :: items))
    (hposts : ∀ j ∈ item :: items, blockPosts j = []) :
    crawlOutput P xs = some (batchOf (P.crypto.sha256 (item.dump 1))) := by
  have hnone : (item :: items).flatMap blockPosts = [] := List.flatMap_eq_nil_iff.2 hposts
  rw [crawlOutput, binary2Digest_digest2Binary hnul hlen, Option.bind_some, parseSteemitItem, hload]
  simp only [Option.bind_eq_bind, Option.bind_some, postCandidates, hnone]
  rfl

/-! ## Indexer and reducer -/

/-- The documents an indexer finds in a batch are the posts as they are printed in it. -/
theorem documents_strings (posts : List Bytes) :
    documents P [(array (posts.map string)).dump 1] = some (posts.map escape) := by
  have hplain : Plain (array (posts.map string)) := plainElems_strings _
  have hdocs : (posts.map string).map (fun item => trimString (item.dump 1)) =
      posts.map escape := by
    rw [List.map_map]
    refine List.map_congr_left fun post _ => ?_
    rw [Function.comp_apply, dump, trimString_quote]
  rw [documents, List.mapM_cons, load_dump hplain]
  simp only [List.mapM_nil, Option.bind_eq_bind, Option.bind_some, Option.pure_def,
    Option.map_some, List.flatMap_singleton, arrayRange, hdocs]

variable (P) in
/-- The output of `ecall_build_index` inside the enclave. -/
def indexOutput (O : HashOrder) (items : List Bytes) : Option Bytes := do
  let inputs ← binary2Digest (digest2Binary (items.map cString))
  let (digestTbl, indexTbl) ← buildIndex P inputs
  return merge2Binary O digestTbl indexTbl

/-- What is put of an output that fits its buffer. -/
theorem data_eq_of_lt {size : Nat} {output data : Bytes}
    (h : readOut size (copyOut size output) output.length = some data)
    (hlt : output.length < size) : data = output := by
  rw [readOut_copyOut hlt] at h
  exact (Option.some.inj h).symm

theorem exists_documents_of_indexOutput {O : HashOrder} {items : List Bytes} {output : Bytes}
    (h : indexOutput P O items = some output) :
    ∃ docs, documents P (items.map cString) = some docs ∧
      output = merge2Binary O (digests docs) (indexOf P docs) := by
  obtain ⟨inputs, hinputs, hrest⟩ := Option.bind_eq_some_iff.1 h
  obtain ⟨tables, hbuild, hpure⟩ := Option.bind_eq_some_iff.1 hrest
  obtain ⟨docs, hdocs, rfl⟩ := Option.map_eq_some_iff.1 hbuild
  obtain rfl := binary2Digest_digest2Binary_some (nulFree_map_cString items) hinputs
  cases hpure
  exact ⟨docs, hdocs, rfl⟩

theorem indexCall_eq_some {O : HashOrder} {items : List Bytes} {out : Output}
    (hlen : items.length ≤ 1000) (h : indexCall P O items = some out) :
    ∃ output, indexOutput P O items = some output ∧
      out.witness = createIndexerWitness P (items.map cString) output ∧
      readOut indexOutputMaxLength (copyOut indexOutputMaxLength output) output.length =
        some out.data := by
  obtain ⟨⟨o, n, w⟩, hecall, hout⟩ := Option.bind_eq_some_iff.1 h
  obtain ⟨data, hread, hpair⟩ := Option.bind_eq_some_iff.1 hout
  obtain ⟨inputs, hinputs, hrest⟩ := Option.bind_eq_some_iff.1 hecall
  obtain ⟨⟨digestTbl, indexTbl⟩, hbuild, hpure⟩ := Option.bind_eq_some_iff.1 hrest
  obtain rfl := binary2Digest_digest2Binary_some (nulFree_map_cString items) hinputs
  cases hpure
  cases hpair
  refine ⟨_, ?_, cString_copyOut_witness _ _ (by rwa [List.length_map]) (by decide) (by decide),
    hread⟩
  rw [indexOutput, hinputs]
  simp only [Option.bind_eq_bind, Option.bind_some, hbuild]
  rfl

theorem indexCall_of_output {O : HashOrder} {items : List Bytes} {output : Bytes}
    (hlen : items.length ≤ 1000) (h : indexOutput P O items = some output)
    (hsize : output.length < indexOutputMaxLength) :
    ∃ out, indexCall P O items = some out ∧ out.data = output ∧
      witnessKey P.runtime out.witness = some (P.crypto.sha256 output) := by
  obtain ⟨inputs, hinputs, hrest⟩ := Option.bind_eq_some_iff.1 h
  obtain ⟨⟨digestTbl, indexTbl⟩, hbuild, hpure⟩ := Option.bind_eq_some_iff.1 hrest
  cases hpure
  have hcall : ∃ out, indexCall P O items = some out := by
    rw [indexCall, ecallBuildIndex, hinputs]
    simp [hbuild, readOut_copyOut hsize]
  obtain ⟨out, hout⟩ := hcall
  obtain ⟨output', houtput, hwitness, hread⟩ := indexCall_eq_some hlen hout
  obtain rfl := Option.some.inj (h.symm.trans houtput)
  exact ⟨out, hout, data_eq_of_lt hread hsize,
    by rw [hwitness]; exact witnessKey_createWitness _ _ _ _⟩

theorem indexOutput_of_documents (O : HashOrder) {items docs : List Bytes}
    (hdocs : documents P (items.map cString) = some docs)
    (hlen : ∀ x ∈ items, (cString x).length < tempDigestLen) :
    indexOutput P O items = some (merge2Binary O (digests docs) (indexOf P docs)) := by
  rw [indexOutput, binary2Digest_inputs hlen]
  simp only [Option.bind_eq_bind, Option.bind_some, buildIndex, hdocs, Option.map_some]
  rfl

/-- The output of `ecall_do_merge` inside the enclave. -/
def mergeOutput (O : HashOrder) (index1 index2 : Bytes) : Option Bytes := do
  let (indexTbl1, digestTbl1) ← readBlob index1
  let (indexTbl2, digestTbl2) ← readBlob index2
  return merge2Binary O (digestTbl1 ++ digestTbl2)
    (mergeIndex O indexTbl1 indexTbl2 digestTbl1.length)

theorem mergeCall_eq_some {O : HashOrder} {index1 index2 : Bytes} {out : Output}
    (h : mergeCall P O index1 index2 = some out) :
    ∃ output, mergeOutput O index1 index2 = some output ∧
      out.witness = createReducerWitness P index1 index2 output ∧
      readOut reducerOutputMaxLength (copyOut reducerOutputMaxLength output) output.length =
        some out.data := by
  obtain ⟨⟨o, n, w⟩, hecall, hout⟩ := Option.bind_eq_some_iff.1 h
  obtain ⟨data, hread, hpair⟩ := Option.bind_eq_some_iff.1 hout
  obtain ⟨⟨tbl1, dig1⟩, h1, hrest⟩ := Option.bind_eq_some_iff.1 hecall
  obtain ⟨⟨tbl2, dig2⟩, h2, hpure⟩ := Option.bind_eq_some_iff.1 hrest
  cases hpure
  cases hpair
  refine ⟨_, ?_, cString_copyOut_witness _ _ (by simp) (by decide) (by decide), hread⟩
  rw [mergeOutput, h1, h2]
  rfl

end DeSearch
