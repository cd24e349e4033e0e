import DeSearch.Blob
import DeSearch.Posts
import DeSearch.Provenance

/-!
# From one stage to the next

What an executor stores is meant to be what its witness speaks of, and what the next enclave reads
is meant to be what was stored. Both depend on the size of a buffer.

* The enclave copies an output into the buffer of the executor only if it fits, but signs the
  witness and reports the size in any case, and the executor publishes whatever it finds.
  `faithful_publish_iff` gives the condition for every role and every capacity.
* The batches go into `ecall_build_index` through the scratch buffer of `Binary2Digest`.
  `hashChain_iff` gives the condition under which the indexer's witness lists the `OUT` of the
  crawlers' witnesses.
-/

namespace DeSearch

open JSON

variable {P : Platform}

/-! ## Publishing -/

/-- What comes of an enclave call and of what the executor does next. -/
inductive Outcome where
  /-- what it hands to `o_put_key` and to `o_append_witness` -/
  | published (out : Output)
  /-- it did not get to `o_put_key` -/
  | withheld
  /-- its `o_put_key` reads past the end of the buffer -/
  | overread
deriving DecidableEq

section

variable (P)

/-- The part of `do_index` and `do_reduce` after the call: the size that the enclave reports is
taken from the buffer. -/
def publishBuffer (capacity : Nat) : Option (Bytes × Nat × Bytes) → Outcome
  | none => .withheld
  | some (output, size, witness) =>
      match readOut capacity output size with
      | none => .overread
      | some data => .published ⟨data, cString witness⟩

/-- The part of `do_crawl` after the call: the buffer is read up to its first NUL. -/
def publishString : Option (Bytes × Bytes) → Outcome
  | none => .withheld
  | some (output, witness) => .published ⟨cString output, cString witness⟩

/-- The call of a role and what follows, with an output buffer of any capacity. -/
def Task.publish (capacity : Nat) : Task → Inputs → Outcome
  | crawl _ _ _, xs =>
      publishString (ecallParseItems P (digest2Binary xs.values) capacity witnessMaxLength)
  | index _ _ _, xs => publishBuffer capacity
      (ecallBuildIndex P xs.order (digest2Binary (xs.values.map cString)) capacity
        witnessMaxLength)
  | reduce _ _, ⟨[globalIndex, newIndex], order⟩ => publishBuffer capacity
      (ecallDoMerge P order globalIndex newIndex capacity witnessMaxLength)
  | reduce _ _, _ => .withheld

/-- How a call with this output should end: with a value whose hash is the `OUT` of the witness, or
with nothing if the output does not fit. -/
def Outcome.Faithful (capacity : Nat) (output : Bytes) : Outcome → Prop
  | published out => output.length < capacity ∧
      witnessKey P.runtime out.witness = some (P.crypto.sha256 out.data)
  | withheld => capacity ≤ output.length
  | overread => False

end

theorem publishBuffer_eq_published {capacity : Nat} {r : Option (Bytes × Nat × Bytes)}
    {out : Output} :
    (do
      let (output, size, witness) ← r
      let data ← readOut capacity output size
      return (⟨data, cString witness⟩ : Output)) = some out ↔
    publishBuffer capacity r = .published out := by
  cases r with
  | none => simp [publishBuffer]
  | some r =>
      obtain ⟨output, size, witness⟩ := r
      cases hread : readOut capacity output size <;> simp [publishBuffer, hread]

/-- With the capacity of the role this is the call of the pipeline, where the buffers that hold the
inputs of an indexer have a byte to spare. -/
theorem Task.call_eq_some_iff {t : Task} {xs : Inputs} {out : Output}
    (hspare : spareBehind P.runtime xs.values) :
    t.call P xs = some out ↔ t.publish P t.bufferSize xs = .published out := by
  cases t with
  | crawl e b i =>
      rw [Task.call, crawlCall, Task.publish, Task.bufferSize]
      cases ecallParseItems P (digest2Binary xs.values) outputMaxLength witnessMaxLength with
      | none => simp [publishString]
      | some r => simp [publishString]
  | index e i pos =>
      rw [Task.call, if_pos hspare]
      exact publishBuffer_eq_published
  | reduce e i =>
      obtain ⟨values, order⟩ := xs
      rcases values with _ | ⟨g, _ | ⟨n, _ | ⟨x, xs⟩⟩⟩
      case cons.cons.nil => exact publishBuffer_eq_published
      all_goals simp [Task.call, Task.publish]

/-- A buffer that is read by its reported size. -/
theorem faithful_publishBuffer {output w : Bytes}
    (hw : witnessKey P.runtime (cString w) = some (P.crypto.sha256 output)) (capacity : Nat) :
    (publishBuffer capacity (some (copyOut capacity output, output.length, w))).Faithful P
      capacity output ↔ output.length < capacity := by
  by_cases hlen : output.length < capacity
  · have hpub : publishBuffer capacity (some (copyOut capacity output, output.length, w)) =
        .published ⟨output, cString w⟩ := by
      rw [publishBuffer, readOut_copyOut hlen]
    rw [hpub]
    exact ⟨fun _ => hlen, fun _ => ⟨hlen, hw⟩⟩
  · refine iff_of_false ?_ hlen
    rw [publishBuffer]
    split
    · exact id
    · exact fun h => hlen h.1

/-- A buffer that is read as a C string. -/
theorem faithful_publishString {output w : Bytes} (hnul : NulFree output)
    (hw : witnessKey P.runtime (cString w) = some (P.crypto.sha256 output)) (capacity : Nat) :
    (publishString (some (copyOut capacity output, w))).Faithful P capacity output ↔
      output.length < capacity := by
  refine ⟨And.left, fun hlen => ⟨hlen, ?_⟩⟩
  rw [hw, copyOut, if_pos hlen, cString_of_nulFree hnul]

/-- **Published data and witnesses.** Whatever the role, the inputs and the capacity of the output
buffer: the value and the witness agree, or neither is published, exactly when the output is smaller
than the buffer. -/
theorem faithful_publish_iff {t : Task} {xs : Inputs} {output : Bytes} (hxs : t.Admits xs.values)
    (houtput : t.output P xs = some output) (capacity : Nat) :
    (t.publish P capacity xs).Faithful P capacity output ↔ output.length < capacity := by
  cases t with
  | crawl e b i =>
      obtain ⟨hcount, hnul⟩ := hxs
      obtain ⟨items, hitems, hparse⟩ := Option.bind_eq_some_iff.1 houtput
      obtain rfl := binary2Digest_digest2Binary_some hnul hitems
      rw [Task.publish, ecallParseItems, hitems]
      simp only [Option.bind_eq_bind, Option.bind_some, hparse]
      exact faithful_publishString (nulFree_parseSteemitItem hnul hparse)
        (witnessKey_copyOut _ output (by rw [hcount]; decide) (by decide) (by decide)) capacity
  | index e i pos =>
      have hcount : (xs.values.map cString).length ≤ 1000 := by
        rw [List.length_map, show xs.values.length = indexBulkMax from hxs]
        decide
      obtain ⟨inputs, hinputs, hrest⟩ := Option.bind_eq_some_iff.1 houtput
      obtain ⟨⟨digestTbl, indexTbl⟩, hbuild, hpure⟩ := Option.bind_eq_some_iff.1 hrest
      obtain rfl := binary2Digest_digest2Binary_some (nulFree_map_cString xs.values) hinputs
      cases hpure
      rw [Task.publish, ecallBuildIndex, hinputs]
      simp only [Option.bind_eq_bind, Option.bind_some, hbuild]
      exact faithful_publishBuffer
        (witnessKey_copyOut _ _ hcount (by decide) (by decide)) capacity
  | reduce e i =>
      obtain ⟨values, order⟩ := xs
      rcases values with _ | ⟨g, _ | ⟨n, _ | ⟨x, xs⟩⟩⟩
      case cons.cons.nil =>
          obtain ⟨⟨tbl1, digest1⟩, h1, hrest⟩ := Option.bind_eq_some_iff.1 houtput
          obtain ⟨⟨tbl2, digest2⟩, h2, hpure⟩ := Option.bind_eq_some_iff.1 hrest
          cases hpure
          rw [Task.publish, ecallDoMerge, h1, h2]
          exact faithful_publishBuffer (witnessKey_copyOut _ _ (by simp) (by decide) (by decide))
            capacity
      all_goals cases houtput

/-- Four batches of one document each. -/
def fourBatches : List Bytes :=
  [ascii "[\"alpha\"]", ascii "[\"bravo\"]", ascii "[\"delta\"]", ascii "[\"gamma\"]"]

/-- Their index, of 76 bytes. -/
def fourBlob : Bytes := blobOf [ascii "alpha", ascii "bravo", ascii "delta", ascii "gamma"]

theorem output_fourBatches :
    (Task.index 2 1 1).output samplePlatform (.plain fourBatches) = some fourBlob := by
  decide +kernel

/-- In a buffer of 77 bytes it is published with its witness. -/
theorem faithful_publish_fourBatches :
    ((Task.index 2 1 1).publish samplePlatform 77 (.plain fourBatches)).Faithful samplePlatform 77
      fourBlob := by
  have hadmits : (Task.index 2 1 1).Admits (Inputs.plain fourBatches).values := rfl
  rw [faithful_publish_iff hadmits output_fourBatches]
  decide +kernel

/-- A buffer of 76 bytes stays empty. The executor publishes it, and the witness speaks of
something else. -/
theorem empty_buffer_published : ∃ out,
    (Task.index 2 1 1).output samplePlatform (.plain fourBatches) = some fourBlob ∧
    ¬fourBlob.length < 76 ∧
    (Task.index 2 1 1).publish samplePlatform 76 (.plain fourBatches) = .published out ∧
    witnessKey sampleRuntime out.witness ≠ some (sampleCrypto.sha256 out.data) := by
  refine ⟨⟨List.replicate 76 0, cString (createIndexerWitness samplePlatform fourBatches fourBlob)⟩,
    output_fourBatches, by decide +kernel, by decide +kernel, by decide +kernel⟩

/-! ## From the crawlers to the indexer -/

variable (P) in
/-- A batch as a crawler publishes it, with its witness. -/
def Crawled (out : Output) : Prop :=
  ∃ blocks output, (Task.crawl 0 0 1).Admits blocks ∧ crawlOutput P blocks = some output ∧
    output.length < outputMaxLength ∧ crawlCall P blocks = some out

theorem Crawled.nulFree {out : Output} (h : Crawled P out) : NulFree out.data := by
  obtain ⟨blocks, output, -, -, -, hcall⟩ := h
  obtain ⟨r, -, rfl⟩ := Option.map_eq_some_iff.1 hcall
  exact nulFree_cString _

theorem Crawled.witnessKey_eq {out : Output} (h : Crawled P out) :
    witnessKey P.runtime out.witness = some (P.crypto.sha256 out.data) := by
  obtain ⟨blocks, output, ⟨hcount, hnul⟩, houtput, hlen, hcall⟩ := h
  obtain ⟨output', houtput', hwitness, hdata⟩ :=
    crawlCall_eq_some hnul (by rw [hcount]; decide) hcall
  obtain rfl := Option.some.inj (houtput.symm.trans houtput')
  rw [hwitness, hdata hlen]
  exact witnessKey_createWitness _ _ _ _

variable (P) in
/-- The indexer's enclave reads the batches as they are stored, and the `IN` of its witness is what
the crawlers' witnesses have as `OUT`. -/
def HashChain (outs : List Output) : Prop :=
  ∃ inputs, binary2Digest (digest2Binary (outs.map Output.data)) = some inputs ∧
    inputs = outs.map Output.data ∧
    ∀ index, ∃ ins, readIn P.runtime (createIndexerWitness P inputs index) = some ins ∧
      List.Forall₂ (fun out hash => witnessKey P.runtime out.witness = some hash) outs ins

/-- **Hash chain.** The indexer gets the batches the crawlers published, and lists them in its
witness, exactly when each is smaller than the scratch buffer of `Binary2Digest`. -/
theorem hashChain_iff {outs : List Output} (h : ∀ out ∈ outs, Crawled P out) :
    HashChain P outs ↔ ∀ out ∈ outs, out.data.length < tempDigestLen := by
  have hnul : ∀ x ∈ outs.map Output.data, NulFree x := by
    intro x hx
    obtain ⟨out, hout, rfl⟩ := List.mem_map.1 hx
    exact (h out hout).nulFree
  constructor
  · rintro ⟨inputs, hinputs, -⟩ out hout
    by_contra hlen
    rw [binary2Digest_digest2Binary_overrun hnul (List.mem_map_of_mem hout) (not_lt.1 hlen)]
      at hinputs
    cases hinputs
  · intro hlen
    have hlen' : ∀ x ∈ outs.map Output.data, x.length < tempDigestLen := by
      intro x hx
      obtain ⟨out, hout, rfl⟩ := List.mem_map.1 hx
      exact hlen out hout
    refine ⟨_, binary2Digest_digest2Binary hnul hlen', rfl, fun index => ?_⟩
    refine ⟨_, readIn_createWitness _ _ _ index, ?_⟩
    rw [List.map_map, List.forall₂_map_right_iff]
    exact List.forall₂_same.2 fun out hout => (h out hout).witnessKey_eq

theorem unescaped_replicate (n : Nat) : Unescaped (List.replicate n (ch 'a')) := by
  refine unescaped_of_hex fun c hc => ?_
  rw [List.eq_of_mem_replicate hc]
  decide

/-- What a crawler publishes of blocks with posts. -/
theorem exists_crawled_posts {blocks : List (List Bytes)} (hcount : blocks.length = itemsBulkMax)
    (h : ∀ bodies ∈ blocks, ∀ body ∈ bodies, Unescaped body)
    (hlen : ∀ bodies ∈ blocks, ((postBlock bodies).dump 1).length < tempDigestLen)
    (hne : blocks.flatten ≠ []) (hsize : (postBatch blocks.flatten).length < outputMaxLength) :
    ∃ out, Crawled P out ∧ out.data = postBatch blocks.flatten := by
  have hadmits : (Task.crawl 0 0 1).Admits
      (blocks.map fun bodies => (postBlock bodies).dump 1) := by
    refine ⟨by rw [List.length_map, hcount], fun x hx => ?_⟩
    obtain ⟨bodies, hbodies, rfl⟩ := List.mem_map.1 hx
    exact nulFree_postBlock fun body hbody => (h bodies hbodies body hbody).2
  have houtput := crawlOutput_postBlock (P := P) h hlen hne
  obtain ⟨out, hcall, hdata, -⟩ :=
    crawlCall_of_output hadmits.2 (by rw [hadmits.1]; decide) houtput hsize
  exact ⟨out, ⟨_, _, hadmits, houtput, hsize, hcall⟩, hdata⟩

/-- 64 blocks, each with one post of `n` letters. -/
theorem exists_crawled {n : Nat} (hn : n < 65000) :
    ∃ out, Crawled samplePlatform out ∧ out.data.length = itemsBulkMax * (n + 6) := by
  have hflat : (List.replicate itemsBulkMax [List.replicate n (ch 'a')]).flatten =
      List.replicate itemsBulkMax (List.replicate n (ch 'a')) := List.flatten_replicate_singleton
  have hunesc : ∀ body ∈ [List.replicate n (ch 'a')], Unescaped body :=
    List.forall_mem_singleton.2 (unescaped_replicate n)
  have hblock : ((postBlock [List.replicate n (ch 'a')]).dump 1).length < tempDigestLen := by
    rw [length_postBlock hunesc (by simp), List.map_singleton, List.sum_singleton,
      List.length_replicate, show tempDigestLen = 65536 from rfl]
    omega
  have hlen : (postBatch (List.replicate itemsBulkMax (List.replicate n (ch 'a')))).length =
      itemsBulkMax * (n + 6) := by
    rw [length_postBatch (fun body h => List.eq_of_mem_replicate h ▸ unescaped_replicate n)
      (by simp [itemsBulkMax]), List.map_replicate, List.sum_replicate_nat, List.length_replicate]
  obtain ⟨out, hout, hdata⟩ := @exists_crawled_posts samplePlatform
    (List.replicate itemsBulkMax [List.replicate n (ch 'a')]) List.length_replicate
    (fun bodies h => List.eq_of_mem_replicate h ▸ hunesc)
    (fun bodies h => List.eq_of_mem_replicate h ▸ hblock) (by rw [hflat]; simp [itemsBulkMax]) (by
      rw [hflat, hlen, show itemsBulkMax = 64 from rfl, show outputMaxLength = 16777216 from rfl]
      omega)
  exact ⟨out, hout, by rw [hdata, hflat, hlen]⟩

/-- Posts of 10 letters reach the indexer. -/
theorem hashChain_of_short_posts : ∃ out, Crawled samplePlatform out ∧
    HashChain samplePlatform [out] := by
  obtain ⟨out, hout, hlen⟩ := exists_crawled (n := 10) (by decide)
  refine ⟨out, hout, (hashChain_iff (fun o ho => List.mem_singleton.1 ho ▸ hout)).2 fun o ho => ?_⟩
  rw [List.mem_singleton.1 ho, hlen]
  decide

/-- A batch of 64 posts of 2000 letters overruns the scratch buffer. -/
theorem no_hashChain_of_long_posts : ∃ out, Crawled samplePlatform out ∧
    ¬HashChain samplePlatform [out] := by
  obtain ⟨out, hout, hlen⟩ := exists_crawled (n := 2000) (by decide)
  refine ⟨out, hout, ?_⟩
  rintro ⟨inputs, hinputs, -⟩
  rw [List.map_singleton, binary2Digest_digest2Binary_overrun
    (fun x hx => List.mem_singleton.1 hx ▸ hout.nulFree) (List.mem_singleton_self _)
    (by rw [hlen]; decide)] at hinputs
  cases hinputs

end DeSearch
