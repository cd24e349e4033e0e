import DeSearch.Completeness
import DeSearch.Shards

/-!
# The graph of the witnesses has no cycle

A stored witness leads from its `OUT` to every hash of its `IN`. Whatever the executors do, and
whatever the blocks hold, no path of such steps comes back to where it started, as long as no hash
collides and no block is itself an output (`witnesses_acyclic`).

Every step from one output to another lowers `depth`: an indexer comes from batches, in which there
is no NUL, to a blob, in which there is one, and a reducer comes to a blob that is longer than both
it was given. That the reducers' inputs have a document in them, without which a merge would not add
anything, goes back to the crawlers. For the same reason an audit of the stored witnesses always
ends (`retrievedSet_ends`).
-/

namespace DeSearch

open Run Relation

/-! ## The calls of a run -/

/-- An executor makes this call in the run. -/
def Deployment.Performs (D : Deployment) (as : List Action) (t : Task) (xs : Inputs) : Prop :=
  ∃ bs p answers cs, as = bs ++ .exec p answers :: cs ∧
    ((exec D.step .init bs).procs p).Calls (exec D.step .init bs).kanban answers t xs

section

variable {D : Deployment} {as : List Action} {F : Task → Inputs → Prop}

theorem callsMeet_iff_performs :
    Meets D.step (CallsMeet F) .init as ↔ ∀ t xs, D.Performs as t xs → F t xs := by
  rw [meets_iff_split]
  constructor
  · rintro h t xs ⟨bs, p, answers, cs, has, hcall⟩
    exact h bs _ cs has t xs hcall
  · intro h bs a cs has
    cases a with
    | exec p answers => exact fun t xs hcall => h t xs ⟨bs, p, answers, cs, has, hcall⟩
    | _ => trivial

end

/-! ## What the calls are given -/

/-- What a role is given by the others. -/
def Task.Proper : Task → Inputs → Prop
  | crawl _ _ _, _ => True
  | index _ _ _, xs => ∀ x ∈ xs.values, Batch x
  | reduce _ _, xs => ∀ x ∈ xs.values, ∃ tbl digest, Shard x tbl digest

/-- What a role puts. -/
def Task.Puts : Task → Bytes → Prop
  | crawl _ _ _, v => Batch v
  | _, v => ∃ tbl digest, Shard v tbl digest

section

variable {P : Platform} {src : Source} {F : Task → Inputs → Prop} {kb : Kanban} {t : Task}
  {xs : Inputs}

theorem Made.puts (hF : ∀ t xs, F t xs → t.Proper xs) {out : Output}
    (h : Made P src F kb t out) : t.Puts out.data := by
  obtain ⟨xs, hproper, hs, hcall⟩ := h
  have hadmits := hs.admits
  have hgiven := hF t xs hproper
  cases t with
  | crawl e b i =>
      obtain ⟨hlen, hnul⟩ := hadmits
      have h64 : itemsBulkMax = 64 := rfl
      obtain ⟨output, houtput, -, hdata⟩ := crawlCall_eq_some hnul (by omega) hcall
      rw [hdata (Task.Admits.fits_crawl (e := e) (b := b) (i := i) ⟨hlen, hnul⟩ output houtput)]
      exact batch_of_crawlOutput hnul houtput
  | index e i pos =>
      match xs, hadmits, hgiven, hcall with
      | ⟨v :: vs, O⟩, hlen, hgiven, hcall =>
          exact exists_shard_of_indexCall (hgiven v List.mem_cons_self)
            (hlen.trans_le (by decide)) (Task.indexCall_of_call hcall)
  | reduce e i =>
      match xs, hgiven, hcall with
      | ⟨[g, n], O⟩, hgiven, hcall =>
          obtain ⟨tbl₁, digest₁, h₁⟩ := hgiven g (by simp)
          obtain ⟨tbl₂, digest₂, h₂⟩ := hgiven n (by simp)
          exact exists_shard_of_mergeCall h₁ h₂ hcall

variable {s : State} (h : Traced P src F s) (hF : ∀ t xs, F t xs → t.Proper xs)

include h hF

theorem Traced.batch {e : Int} {i : Nat} {v : Bytes} (hv : s.kanban.Stored (.items e i) v) :
    Batch v := by
  obtain ⟨t, out, hm, rfl, hkey | ⟨_, _, -, hkey⟩⟩ := h.data _ v hv rfl
  · have hputs := hm.puts hF
    cases t with
    | crawl e b i => exact hputs
    | _ => cases hkey
  · cases hkey

theorem Traced.shard {k : Key} {v : Bytes}
    (hk : (∃ e i, k = .index e i) ∨ ∃ e i, k = .globalIndex e i) (hv : s.kanban.Stored k v) :
    ∃ tbl digest, Shard v tbl digest := by
  have hdata : k.isData := by rcases hk with ⟨e, i, rfl⟩ | ⟨e, i, rfl⟩ <;> rfl
  obtain ⟨t, out, hm, rfl, hkey⟩ := h.data _ v hv hdata
  have hputs := hm.puts hF
  cases t with
  | crawl e b i =>
      rcases hkey with rfl | ⟨_, _, hindex, -⟩
      · rcases hk with ⟨e, i, hk⟩ | ⟨e, i, hk⟩ <;> cases hk
      · cases hindex
  | _ => exact hputs

theorem Traced.proper (hs : Sourced src s.kanban t xs) : t.Proper xs := by
  cases t with
  | crawl e b i => trivial
  | index e i pos =>
      intro x hx
      obtain ⟨k, hk, hst⟩ := exists_of_forall₂ (List.Forall₂.flip hs) hx
      obtain ⟨j, -, rfl⟩ := List.mem_map.1 hk
      exact h.batch hF hst
  | reduce e i =>
      intro x hx
      obtain ⟨k, hk, hst⟩ := exists_of_forall₂ (List.Forall₂.flip hs) hx
      refine h.shard hF ?_ hst
      rcases List.mem_pair.1 hk with rfl | rfl
      · exact .inr ⟨_, _, rfl⟩
      · exact .inl ⟨_, _, rfl⟩

end

section

variable {D : Deployment} {src : Source} {as : List Action}
  (hans : Meets D.step (Answered src) .init as)

include hans

theorem traced_proper : Traced D.platform src Task.Proper (exec D.step .init as) := by
  refine hans.invariant traced_init fun s a ha hs => hs.step ha ?_
  cases a with
  | exec p answers =>
      exact fun t xs hcall => hs.proper (fun _ _ h => h) (hcall.sourced (hs.procs p) ha)
  | _ => trivial

/-- What a call of the run is given was downloaded, or put by the role before it. -/
theorem Deployment.Performs.given {t : Task} {xs : Inputs} (hp : D.Performs as t xs) :
    t.Admits xs.values ∧ t.Proper xs := by
  obtain ⟨bs, p, answers, cs, rfl, hcall⟩ := hp
  obtain ⟨hbefore, ha, -⟩ := meets_append.1 hans
  have htr := traced_proper hbefore
  have hs := hcall.sourced (htr.procs p) ha
  exact ⟨hs.admits, htr.proper (fun _ _ h => h) hs⟩

theorem traced_performs : Traced D.platform src (D.Performs as) (exec D.step .init as) :=
  traced_of_meets hans (callsMeet_iff_performs.2 fun _ _ h => h)

end

/-! ## The graph -/

/-- A stored witness whose `OUT` is `h` lists `h'`. -/
def Derives (R : Runtime) (kb : Kanban) (h h' : Bytes) : Prop :=
  ∃ k w ins, kb.hget k = some w ∧ witnessKey R w = some h ∧ readIn R w = some ins ∧ h' ∈ ins

/-- A byte string that is hashed in the run: an input or the output of a call. -/
def Deployment.HashedIn (D : Deployment) (as : List Action) (x : Bytes) : Prop :=
  ∃ t xs, D.Performs as t xs ∧ (x ∈ t.listed xs.values ∨ t.output D.platform xs = some x)

/-- How far an output is from the blocks: a batch is next to them, and a blob as far as it is
long. -/
def depth (v : Bytes) : Nat := if NulFree v then 0 else v.length + 1

theorem depth_of_nulFree {v : Bytes} (h : NulFree v) : depth v = 0 := if_pos h

theorem depth_le (v : Bytes) : depth v ≤ v.length + 1 := by
  unfold depth
  split_ifs
  · exact Nat.zero_le _
  · exact le_rfl

section

variable {P : Platform}

theorem zero_mem_of_indexOutput {O : HashOrder} {xs : List Bytes} {output : Bytes}
    (h : indexOutput P O xs = some output) : 0 ∈ output := by
  obtain ⟨docs, -, rfl⟩ := exists_documents_of_indexOutput h
  exact zero_mem_merge2Binary _ _ _

theorem zero_mem_of_mergeOutput {O : HashOrder} {index1 index2 output : Bytes}
    (h : mergeOutput O index1 index2 = some output) : 0 ∈ output := by
  obtain ⟨⟨tbl1, digest1⟩, -, h⟩ := Option.bind_eq_some_iff.1 h
  obtain ⟨⟨tbl2, digest2⟩, -, h⟩ := Option.bind_eq_some_iff.1 h
  obtain rfl := Option.some.inj h
  exact zero_mem_merge2Binary _ _ _

/-- There is a NUL in what an indexer or a reducer makes. -/
theorem Task.zero_mem_output {t : Task} {xs : Inputs} {output : Bytes} (ht : t.role ≠ .crawler)
    (h : t.output P xs = some output) : 0 ∈ output := by
  cases t with
  | crawl e b i => exact absurd rfl ht
  | index e i pos => exact zero_mem_of_indexOutput h
  | reduce e i =>
      match xs, h with
      | ⟨[g, n], O⟩, h => exact zero_mem_of_mergeOutput h

/-- A step of the graph that does not start at a batch goes down. -/
theorem Task.Proper.depth_lt {t : Task} {xs : Inputs} {x output : Bytes} (h : t.Proper xs)
    (ht : t.role ≠ .crawler) (hout : t.output P xs = some output) (hx : x ∈ t.listed xs.values) :
    depth x < depth output := by
  have hdepth : depth output = output.length + 1 :=
    if_neg (not_not.2 (Task.zero_mem_output ht hout))
  cases t with
  | crawl e b i => exact absurd rfl ht
  | index e i pos =>
      rw [depth_of_nulFree (nulFree_map_cString xs.values x hx), hdepth]
      exact Nat.succ_pos _
  | reduce e i =>
      match xs, h, hout, hx with
      | ⟨[g, n], O⟩, h, hout, hx =>
          obtain ⟨tbl₁, digest₁, h₁⟩ := h g (by simp)
          obtain ⟨tbl₂, digest₂, h₂⟩ := h n (by simp)
          have hlt := mergeOutput_length_lt h₁ h₂ hout
          have hle := depth_le x
          rcases List.mem_pair.1 hx with rfl | rfl <;> omega

end

/-- `h` is the hash of an output of this depth. -/
def Deployment.DepthOf (D : Deployment) (as : List Action) (h : Bytes) (n : Nat) : Prop :=
  ∃ t xs output, D.Performs as t xs ∧ t.output D.platform xs = some output ∧
    D.platform.crypto.sha256 output = h ∧ depth output = n

section

variable {D : Deployment} {src : Source} {as : List Action}
  (hans : Meets D.step (Answered src) .init as)

include hans

/-- What is known of a record in the store of the run. -/
theorem exists_performs_of_record {k w : Bytes}
    (hw : (exec D.step .init as).kanban.hget k = some w) :
    ∃ t xs output, D.Performs as t xs ∧ t.output D.platform xs = some output ∧
      D.platform.crypto.sha256 output = k ∧ witnessKey D.platform.runtime w = some k ∧
      readIn D.platform.runtime w = some ((t.listed xs.values).map D.platform.crypto.sha256) := by
  obtain ⟨t, out, ⟨xs, hperf, hs, hcall⟩, rfl, hkey⟩ :=
    (traced_performs hans).records k w (mem_of_lookup hw)
  obtain ⟨output, houtput, hwitness, -⟩ := hs.call_eq_some hcall
  refine ⟨t, xs, output, hperf, houtput, ?_, hkey, ?_⟩
  · rw [hwitness, witnessKey_createWitness] at hkey
    exact Option.some.inj hkey
  · rw [hwitness, readIn_createWitness]

variable (hcoll : Set.InjOn D.platform.crypto.sha256 {x | D.HashedIn as x})
  (hraw : ∀ e b i xs, D.Performs as (.crawl e b i) xs → ∀ x ∈ xs.values, ∀ t ys,
    D.Performs as t ys → t.output D.platform ys ≠ some x)

include hcoll

omit hans in
theorem depthOf_unique (h : Bytes) (n m : Nat) (hn : D.DepthOf as h n) (hm : D.DepthOf as h m) :
    n = m := by
  obtain ⟨t, xs, output, hperf, hout, rfl, rfl⟩ := hn
  obtain ⟨t', xs', output', hperf', hout', hsame, rfl⟩ := hm
  rw [hcoll ⟨t', xs', hperf', .inr hout'⟩ ⟨t, xs, hperf, .inr hout⟩ hsame]

include hraw

/-- A step of the graph to a hash that has a record itself goes down. -/
theorem Derives.depth_lt {h h' w : Bytes}
    (hd : Derives D.platform.runtime (exec D.step .init as).kanban h h')
    (hw : (exec D.step .init as).kanban.hget h' = some w) :
    ∃ n m, D.DepthOf as h n ∧ D.DepthOf as h' m ∧ m < n := by
  obtain ⟨k, v, ins, hv, hkey, hins, hmem⟩ := hd
  obtain ⟨t, xs, output, hperf, hout, hhash, hkey', hread⟩ := exists_performs_of_record hans hv
  obtain rfl := Option.some.inj (hkey'.symm.trans hkey)
  obtain rfl := Option.some.inj (hread.symm.trans hins)
  obtain ⟨x, hx, rfl⟩ := List.mem_map.1 hmem
  obtain ⟨t', xs', output', hperf', hout', hhash', -, -⟩ := exists_performs_of_record hans hw
  -- the input is what the other call has made, so it is no block
  obtain rfl := hcoll ⟨t', xs', hperf', .inr hout'⟩ ⟨t, xs, hperf, .inl hx⟩ hhash'
  have hrole : t.role ≠ .crawler := by
    cases t with
    | crawl e b i => exact absurd hout' (hraw e b i xs hperf _ hx t' xs' hperf')
    | index e i pos => exact Role.noConfusion
    | reduce e i => exact Role.noConfusion
  exact ⟨_, _, ⟨t, xs, output, hperf, hout, hhash, rfl⟩,
    ⟨t', xs', _, hperf', hout', rfl, rfl⟩, (hperf.given hans).2.depth_lt hrole hout hx⟩

theorem grounded_of_run (h : Bytes) : Grounded D.platform.runtime D.platform.crypto
    (exec D.step .init as).kanban h := by
  have hnode : ∀ (n : Nat) (h w : Bytes), D.DepthOf as h n →
      Accepted D.platform.runtime D.platform.crypto (exec D.step .init as).kanban h w →
      Grounded D.platform.runtime D.platform.crypto (exec D.step .init as).kanban h := by
    intro n
    induction n using Nat.strong_induction_on with
    | _ n ih =>
        intro h w hn hw
        obtain ⟨t, xs, output, -, -, -, hkey, hread⟩ := exists_performs_of_record hans hw.1
        refine .node hw hread fun h' hmem => ?_
        by_cases hterm : Terminal D.platform.runtime D.platform.crypto
            (exec D.step .init as).kanban h'
        · exact .terminal hterm
        · unfold Terminal at hterm
          push Not at hterm
          obtain ⟨w', hw'⟩ := hterm
          obtain ⟨n', m, hn', hm, hlt⟩ := Derives.depth_lt hans hcoll hraw
            ⟨h, w, _, hw.1, hkey, hread, hmem⟩ hw'.1
          obtain rfl := depthOf_unique hcoll h n n' hn hn'
          exact ih m hlt h' w' hm hw'
  by_cases hterm : Terminal D.platform.runtime D.platform.crypto (exec D.step .init as).kanban h
  · exact .terminal hterm
  · unfold Terminal at hterm
    push Not at hterm
    obtain ⟨w, hw⟩ := hterm
    obtain ⟨t, xs, output, hperf, hout, hhash, -, -⟩ := exists_performs_of_record hans hw.1
    exact hnode _ h w ⟨t, xs, output, hperf, hout, hhash, rfl⟩ hw

/-- **Audits end.** From whichever hashes it starts, the walk through the stored witnesses ends. -/
theorem retrievedSet_ends (scratchPad : List Bytes) : ∃ fuel leaves,
    retrievedSet D.platform.runtime D.platform.crypto (exec D.step .init as).kanban fuel
      scratchPad = some leaves :=
  exists_retrievedSet (traced_performs hans).genuine fun h _ =>
    grounded_of_run hans hcoll hraw h

end

/-- **The witness graph.** In every state of every run there is no way from an `OUT` back to it.
Merging always adds, every batch has a document, and no batch is a blob. -/
theorem witnesses_acyclic (D : Deployment) (src : Source) (as : List Action)
    (hans : Meets D.step (Answered src) .init as)
    (hcoll : Set.InjOn D.platform.crypto.sha256 {x | D.HashedIn as x})
    (hraw : ∀ e b i xs, D.Performs as (.crawl e b i) xs → ∀ x ∈ xs.values, ∀ t ys,
      D.Performs as t ys → t.output D.platform ys ≠ some x) :
    (∀ h, ¬TransGen (Derives D.platform.runtime (exec D.step .init as).kanban) h h) ∧
    (∀ e i g n O output, D.Performs as (.reduce e i) ⟨[g, n], O⟩ →
      mergeOutput O g n = some output →
        g.length < output.length ∧ n.length < output.length) ∧
    (∀ e b i xs output, D.Performs as (.crawl e b i) xs →
      crawlOutput D.platform xs.values = some output →
        (∃ docs, documents D.platform [output] = some docs ∧ docs ≠ []) ∧
        ∀ t ys, t.role ≠ .crawler → D.Performs as t ys →
          t.output D.platform ys ≠ some output) := by
  refine ⟨?_, fun e i g n O output hp hout => ?_, fun e b i xs output hp hout => ?_⟩
  · refine Walk.not_transGen_self (depthOf_unique hcoll) fun h h' h'' hd hd' => ?_
    obtain ⟨k, w, -, hw, hkey, -⟩ := hd'
    obtain ⟨-, -, -, -, -, -, hkey', -⟩ := exists_performs_of_record hans hw
    obtain rfl := Option.some.inj (hkey'.symm.trans hkey)
    exact hd.depth_lt hans hcoll hraw hw
  · obtain ⟨-, hgiven⟩ := hp.given hans
    obtain ⟨tbl₁, digest₁, h₁⟩ := hgiven g (by simp)
    obtain ⟨tbl₂, digest₂, h₂⟩ := hgiven n (by simp)
    exact mergeOutput_length_lt h₁ h₂ hout
  · have hbatch := batch_of_crawlOutput (hp.given hans).1.2 hout
    obtain ⟨docs, hdocs⟩ := hbatch.exists_documents D.platform
    refine ⟨⟨docs, hdocs, documents_ne_nil hbatch hdocs⟩, fun t ys ht _ hsame => ?_⟩
    exact hbatch.nulFree (Task.zero_mem_output ht hsame)

/-! ## Two epochs and a merge -/

/-- A hash that tells texts apart by their length and their first byte. -/
def sizeCrypto : Crypto :=
  { sampleCrypto with
    sha256 := fun m => sigToString (natBytes 32 (256 * m.length + (m.headD 0).val))
    sha256_hex := fun _ _ hc => isHex_of_mem_sigToString hc
    sha256_length := fun m => by simp [length_sigToString, natBytes] }

theorem sizeCrypto_inj {m m' : Bytes} (hm : m.length < 2 ^ 24) (hm' : m'.length < 2 ^ 24)
    (h : sizeCrypto.sha256 m = sizeCrypto.sha256 m') :
    m.length = m'.length ∧ m.headD 0 = m'.headD 0 := by
  have hbyte : ∀ i < 32, (256 * m.length + (m.headD 0).val) / 256 ^ i % 256 =
      (256 * m'.length + (m'.headD 0).val) / 256 ^ i % 256 := by
    intro i hi
    have hget := congrArg (·[i]?) (sigToString_injective h)
    simpa only [natBytes, List.getElem?_map, List.getElem?_range hi, Option.map_some,
      Option.some.injEq, Fin.ext_iff, Fin.val_ofNat] using hget
  have hlt := (m.headD 0).isLt
  have hlt' := (m'.headD 0).isLt
  -- both numbers have four bytes
  have hnat : 256 * m.length + (m.headD 0).val = 256 * m'.length + (m'.headD 0).val := by
    have hsmall : 256 * m.length + (m.headD 0).val < 2 ^ 32 := by omega
    have hsmall' : 256 * m'.length + (m'.headD 0).val < 2 ^ 32 := by omega
    have h0 := hbyte 0 (by decide)
    have h1 := hbyte 1 (by decide)
    have h2 := hbyte 2 (by decide)
    have h3 := hbyte 3 (by decide)
    generalize 256 * m.length + (m.headD 0).val = a at h0 h1 h2 h3 hsmall ⊢
    generalize 256 * m'.length + (m'.headD 0).val = b at h0 h1 h2 h3 hsmall' ⊢
    clear hbyte
    omega
  refine ⟨by omega, Fin.ext (by omega)⟩

/-- What a reducer makes of the first index of the second epoch and the equal one of the third. -/
structure TwinMerge (C : Crypto) (out : Output) : Prop where
  call : mergeCall (chainPlatform C) insertionOrder (twinChain.blob 278) (twinChain.blob 278) =
    some out
  output : mergeOutput insertionOrder (twinChain.blob 278) (twinChain.blob 278) = some out.data
  witness : out.witness =
    createReducerWitness (chainPlatform C) (twinChain.blob 278) (twinChain.blob 278) out.data
  represents : Represents (chainPlatform C) (twinChain.docs 556) out.data
  length_eq : out.data.length = (twinChain.blob 556).length

theorem length_twinBlob_lt {n : Nat} (h : n ≤ 556) : (twinChain.blob n).length < 2 ^ 24 := by
  have hle := blobSize_chainDocs_le (c := twinChain) sampleCrypto n
  have hbody : twinChain.body.length = 5 := rfl
  rw [hbody] at hle
  rw [length_chainBlob sampleCrypto (by omega)]
  omega

theorem exists_twinMerge (C : Crypto) : ∃ out, TwinMerge C out := by
  have hbody : twinChain.body.length = 5 := rfl
  have hrep := represents_chainBlob (c := twinChain) C (n := 278) (by rw [hbody]; decide)
  have hsize : blobSize (chainPlatform C) (twinChain.docs 278 ++ twinChain.docs 278) =
      (twinChain.blob 556).length := by
    rw [chainDocs_add, length_chainBlob C (by decide)]
  have hlt := length_twinBlob_lt (le_refl 556)
  obtain ⟨out, hcall, hdata⟩ := mergeCall_represents insertionOrder hrep hrep
    (by rw [hsize]; exact hlt.trans (by decide))
  obtain ⟨output, houtput, hwitness, hread⟩ := mergeCall_eq_some hcall
  obtain ⟨tbl, rfl, hidx⟩ := exists_tables_of_mergeOutput hrep hrep houtput
  have hlen := length_merge2Binary insertionOrder hidx
    (by rw [chainDocs_add, length_chainDocs]; decide)
  have heq := data_eq_of_lt hread (by rw [hlen, hsize]; exact hlt.trans (by decide))
  rw [chainDocs_add] at hdata
  refine ⟨out, hcall, ?_, ?_, hdata, ?_⟩
  · rw [heq]
    exact houtput
  · rw [heq]
    exact hwitness
  · rw [heq, hlen, hsize]

/-- The texts of a run over `twinChain` with this merge. -/
inductive TwinText (out : Output) : Bytes → Prop where
  | block {n : Nat} (h1 : 1 ≤ n) (hn : n ≤ 35) : TwinText out (twinChain.block n)
  | batch {n : Nat} (h1 : 1 ≤ n) (hn : n ≤ 10000) : TwinText out (twinChain.batch n)
  | blob {n : Nat} (hn : n ≤ 400) : TwinText out (twinChain.blob n)
  | merged : TwinText out out.data

theorem TwinMerge.headD {C : Crypto} {out : Output} (h : TwinMerge C out) :
    (out.data.headD 0).val % 4 = 0 := by
  obtain ⟨tbl, heq, -⟩ := exists_tables_of_mergeOutput (P := chainPlatform C)
    (represents_chainBlob (c := twinChain) C (n := 278) (by decide))
    (represents_chainBlob (c := twinChain) C (n := 278) (by decide)) h.output
  rw [heq]
  exact headD_merge2Binary _ _ _

section

variable {out : Output} (hm : TwinMerge sizeCrypto out)

include hm

theorem TwinText.length_lt {x : Bytes} (h : TwinText out x) : x.length < 2 ^ 24 := by
  have hbody : twinChain.body.length = 5 := rfl
  cases h with
  | block h1 hn =>
      rw [length_chainBlock h1, hbody]
      omega
  | batch h1 hn =>
      rw [length_chainBatch h1, hbody]
      omega
  | blob hn => exact length_twinBlob_lt (hn.trans (by decide))
  | merged =>
      rw [hm.length_eq]
      exact length_twinBlob_lt le_rfl

theorem sizeCrypto_injOn : Set.InjOn sizeCrypto.sha256 {x | TwinText out x} := by
  intro x hx y hy h
  obtain ⟨hlen, hhead⟩ := sizeCrypto_inj (hx.length_lt hm) (hy.length_lt hm) h
  have hblob : ∀ {n : Nat}, n ≤ 400 → (twinChain.blob n).length ≠ out.data.length := by
    intro n hn
    have := length_chainBlob_lt (c := twinChain) (show n < 556 by omega) (by decide)
    rw [hm.length_eq]
    omega
  have hmod := congrArg (fun b : Byte => b.val % 4) hhead
  -- texts of different kinds start differently, and texts of one kind differ in length
  cases hx with
  | block h1 hn =>
      cases hy with
      | block h1' hn' =>
          rw [length_chainBlock h1, length_chainBlock h1'] at hlen
          exact congrArg twinChain.block (Nat.eq_of_mul_eq_mul_left (Nat.succ_pos _)
            (Nat.add_right_cancel hlen))
      | batch => exact absurd hhead (by rw [headD_chainBlock, headD_chainBatch]; decide)
      | blob => exact absurd hmod (by simp only [headD_chainBlock, headD_chainBlob]; decide)
      | merged => exact absurd hmod (by simp only [headD_chainBlock, hm.headD]; decide)
  | batch h1 hn =>
      cases hy with
      | block => exact absurd hhead (by rw [headD_chainBlock, headD_chainBatch]; decide)
      | batch h1' hn' =>
          rw [length_chainBatch h1, length_chainBatch h1'] at hlen
          exact congrArg twinChain.batch (Nat.eq_of_mul_eq_mul_left (Nat.succ_pos _) hlen)
      | blob => exact absurd hmod (by simp only [headD_chainBatch, headD_chainBlob]; decide)
      | merged => exact absurd hmod (by simp only [headD_chainBatch, hm.headD]; decide)
  | @blob n hn =>
      cases hy with
      | block => exact absurd hmod (by simp only [headD_chainBlock, headD_chainBlob]; decide)
      | batch => exact absurd hmod (by simp only [headD_chainBatch, headD_chainBlob]; decide)
      | @blob m hn' =>
          rcases lt_trichotomy n m with hlt | rfl | hlt
          · have := length_chainBlob_lt (c := twinChain) hlt (by omega)
            omega
          · rfl
          · have := length_chainBlob_lt (c := twinChain) hlt (by omega)
            omega
      | merged => exact absurd hlen (hblob hn)
  | merged =>
      cases hy with
      | block => exact absurd hmod (by simp only [headD_chainBlock, hm.headD]; decide)
      | batch => exact absurd hmod (by simp only [headD_chainBatch, hm.headD]; decide)
      | blob hn => exact absurd hlen.symm (hblob hn)
      | merged => rfl

end

/-- What is hashed in a call of the run: blocks are only downloaded, never made. -/
def Task.OnTwin (P : Platform) (out : Output) (t : Task) (xs : Inputs) : Prop :=
  (∀ x ∈ t.listed xs.values, TwinText out x) ∧
  (t.role = .crawler → ∀ x ∈ xs.values, ∃ n, x = twinChain.block n) ∧
  ∀ output, t.output P xs = some output → TwinText out output ∧ ∀ n, output ≠ twinChain.block n

section

variable {C : Crypto} {out : Output}

theorem of_mem_twinCounts {b : Int} {i n : Nat} (h : n ∈ twinChain.counts b i) :
    1 ≤ n ∧ n ≤ 35 := by
  obtain ⟨k, -, rfl⟩ := List.mem_map.1 h
  exact twinCount_le k

theorem sum_twinCounts (b : Int) (i : Nat) :
    1 ≤ (twinChain.counts b i).sum ∧ (twinChain.counts b i).sum ≤ 10000 := by
  have hsize := size_chainCounts twinChain b i
  have hbody : twinChain.body.length = 5 := rfl
  rw [hbody] at hsize
  exact ⟨sum_chainCounts_pos twinChain b i, by omega⟩

/-- There is no NUL in a block. -/
theorem ne_block_of_zero_mem {x : Bytes} (h : 0 ∈ x) (n : Nat) : x ≠ twinChain.block n :=
  fun heq => nulFree_chainBlock n (heq ▸ h)

theorem onTwin_answers (e b : Int) (i : Nat) :
    (Task.crawl e b i).OnTwin (chainPlatform C) out (.plain (twinChain.answers b i)) := by
  refine ⟨List.forall_mem_map.2 fun n hn => ?_, fun _ => List.forall_mem_map.2 fun n _ => ⟨n, rfl⟩,
    fun output hout => ?_⟩
  · obtain ⟨h1, hn⟩ := of_mem_twinCounts hn
    exact .block h1 hn
  · obtain rfl := Option.some.inj
      ((crawlOutput_chain C (counts_chainCounts twinChain b i)).symm.trans hout)
    obtain ⟨h1, hn⟩ := sum_twinCounts b i
    refine ⟨.batch h1 hn, fun n heq => ?_⟩
    have hhead := congrArg (List.headD · 0) heq
    exact absurd hhead (by simp only [headD_chainBlock, headD_chainBatch]; decide)

/-- An indexer over four batches of the chain, or of the chain from the second epoch on. -/
theorem onTwin_items {c : Chain} (hbody : c.body = twinChain.body) {e : Int} {i pos : Nat}
    (htotal : c.total i ≤ 400) :
    (Task.index e i pos).OnTwin (chainPlatform C) out (.plain ((window i).map c.items)) := by
  refine ⟨?_, fun h => Role.noConfusion h, fun output hout => ?_⟩
  · intro x hx
    obtain ⟨y, hy, rfl⟩ := List.mem_map.1 hx
    obtain ⟨j, -, rfl⟩ := List.mem_map.1 hy
    have hsize := size_chainCounts c startSteemBlockId j
    rw [hbody, show twinChain.body.length = 5 from rfl] at hsize
    rw [Chain.items, cString_of_nulFree (nulFree_chainBatch _), chainBatch_congr hbody]
    exact .batch (sum_chainCounts_pos c _ j) (by omega)
  · have hzero := Task.zero_mem_output (t := .index e i pos) (by simp [Task.role]) hout
    obtain rfl := Option.some.inj ((indexOutput_chainItems i).symm.trans hout)
    rw [chainBlob_congr hbody] at hzero ⊢
    exact ⟨.blob htotal, ne_block_of_zero_mem hzero⟩

theorem TwinMerge.onTwin (hm : TwinMerge C out) (e : Int) (i : Nat) :
    (Task.reduce e i).OnTwin (chainPlatform C) out
      (.plain [twinChain.blob 278, twinChain.blob 278]) := by
  refine ⟨?_, fun h => Role.noConfusion h, fun output hout => ?_⟩
  · intro x hx
    rcases List.mem_pair.1 hx with rfl | rfl <;> exact .blob (by decide)
  · obtain rfl := Option.some.inj (hm.output.symm.trans hout)
    exact ⟨.merged, ne_block_of_zero_mem (zero_mem_of_mergeOutput hm.output)⟩

theorem total_twinChain_le {i : Nat} (h1 : 1 ≤ i) (hi : i ≤ indexPoolMax) :
    twinChain.total i ≤ 400 := by
  have htotal : ∀ i ∈ List.range' 1 indexPoolMax, twinChain.total i ≤ 400 := by decide +kernel
  exact htotal i (List.mem_range'_1.2 ⟨h1, by omega⟩)

theorem total_twinLater : twinLater.total 1 = 278 := by decide +kernel

theorem total_twinChain_one : twinChain.total 1 = 278 := by decide +kernel

/-- Two epochs, the first index of the third, and the reducer that merges it. -/
theorem leads_twinMerged {F : Task → Inputs → Prop} (hm : TwinMerge C out)
    (hkeys : (twinChain.shards.map C.sha256).Nodup)
    (hcrawl : ∀ e b i, F (.crawl e b i) (.plain (twinChain.answers b i)))
    (hindex : ∀ e i pos, 1 ≤ i → i ≤ indexPoolMax →
      F (.index e i pos) (.plain ((window i).map twinChain.items)))
    (hthird : F (.index 3 1 1) (.plain ((window 1).map twinLater.items)))
    (hmerge : F (.reduce 3 1) (.plain [twinChain.blob 278, twinChain.blob 278])) :
    ∃ as s, Leads (chainDeployment C).step
        (fun s a => Answered twinChain.source s a ∧ CallsMeet F s a) .init as s ∧
      s.kanban =
        (twinChain.third C twinLater).publish (.reduce 3 1) out (C.sha256 out.data) := by
  have hok := (lenient_answered twinChain.source).and (lenient_callsMeet F)
  obtain ⟨as, x, -, hrun⟩ := leads_chainThird spare_twinChain later_twinLater hkeys hcrawl hindex
    hthird
  generalize hs : State.upd ⟨twinChain.second C, ⟨.openEpoch, nextBlockId secondBlockId⟩,
    fun _ => .idle⟩ 1 x (twinChain.third C twinLater) = s at hrun
  have hidle : s.procs 2 = .idle := by
    rw [← hs]
    rfl
  have hkb : s.kanban = twinChain.third C twinLater := by
    rw [← hs]
    rfl
  have hnew : (twinChain.third C twinLater).get (.index 3 1) = some (twinChain.blob 278) := by
    have hkey : Key.index 3 1 = (Task.index 3 1 1).key := rfl
    rw [Chain.third, Kanban.get_publish, if_pos hkey, (chainIndex_spec 1).2.1,
      chainBlob_twinLater, total_twinChain_one]
  have hglobal : (twinChain.third C twinLater).get (.globalIndex (3 - 1) 1) =
      some (twinChain.blob 278) := by
    rw [get_chainThird (by simp), ← total_twinChain_one]
    exact get_chainSecond_global le_rfl (by decide)
  have habsent : (twinChain.third C twinLater).get (.globalIndex 3 1) = none :=
    (get_chainThird (by simp)).trans (get_chainThird_absent (.inr rfl))
  have hepoch : getEpochInt sampleRuntime C (twinChain.third C twinLater) = some 3 :=
    getEpochInt_epochPacket (by decide) ((get_chainThird (by simp)).trans get_chainSecond_epoch)
  have hreduce := leads_reduceShard (D := chainDeployment C) (s := s) (p := 2) hok rfl hepoch le_rfl
    habsent hglobal hnew hm.call fun n hn => ⟨answered_reduce, callsMeet_reduce hmerge hnew hn⟩
  rw [← hkb, State.upd_eq_self hidle, hkb] at hreduce
  have hkey : witnessKey sampleRuntime out.witness = some (C.sha256 out.data) := by
    rw [hm.witness]
    exact witnessKey_createWitness _ _ _ _
  have hpublish := leads_publish (D := chainDeployment C) (s := s) (p := 2) hok
    (twinChain.third C twinLater) (t := .reduce 3 1) hkey
  exact ⟨_, _, hrun.append (hreduce.append hpublish), rfl⟩

end

theorem twinText_of_mem_shards {x : Bytes} (hx : x ∈ twinChain.shards) : TwinText out x := by
  have hbatch : ∀ b, x ∈ twinChain.batches b → TwinText out x := by
    intro b hx
    obtain ⟨j, -, rfl⟩ := List.mem_map.1 hx
    obtain ⟨h1, hn⟩ := sum_twinCounts b j
    exact .batch h1 hn
  rw [Chain.shards, List.mem_append, List.mem_append] at hx
  rcases hx with hx | hx | hx
  · exact hbatch _ hx
  · exact hbatch _ hx
  · obtain ⟨i, hi, rfl⟩ := List.mem_map.1 hx
    rw [List.mem_range'_1] at hi
    exact .blob (total_twinChain_le hi.1 (by omega))

/-- Two epochs of one crawler and one indexer, and a merge in the third. -/
theorem witnesses_acyclic_twin : ∃ (as : List Action) (out : Output),
    getEpochInt sampleRuntime sizeCrypto
      (exec (chainDeployment sizeCrypto).step .init as).kanban = some 3 ∧
    Derives sampleRuntime (exec (chainDeployment sizeCrypto).step .init as).kanban
      (sizeCrypto.sha256 out.data) (sizeCrypto.sha256 (twinChain.blob 278)) ∧
    ∀ h, ¬TransGen (Derives sampleRuntime
      (exec (chainDeployment sizeCrypto).step .init as).kanban) h h := by
  obtain ⟨out, hm⟩ := exists_twinMerge sizeCrypto
  have hinj := sizeCrypto_injOn hm
  have hkeys : (twinChain.shards.map sizeCrypto.sha256).Nodup :=
    nodup_twinShards.map_on fun _ hx _ hy =>
      hinj (twinText_of_mem_shards hx) (twinText_of_mem_shards hy)
  obtain ⟨as, s, hrun, hkb⟩ := leads_twinMerged
    (F := Task.OnTwin (chainPlatform sizeCrypto) out) hm hkeys onTwin_answers
    (fun _ _ _ h1 hi => onTwin_items rfl (total_twinChain_le h1 hi))
    (onTwin_items (c := twinLater) rfl (by rw [total_twinLater]; decide)) (hm.onTwin 3 1)
  have hcalls := callsMeet_iff_performs.1 (hrun.meets.mono fun _ _ h => h.2)
  have hacyclic := (witnesses_acyclic (chainDeployment sizeCrypto) twinChain.source as
    (hrun.meets.mono fun _ _ h => h.1) ?_ ?_).1
  · rw [← hrun.exec_eq] at hkb
    refine ⟨as, out, ?_, ⟨sizeCrypto.sha256 out.data, out.witness,
      [twinChain.blob 278, twinChain.blob 278].map sizeCrypto.sha256, ?_, ?_, ?_,
      List.mem_cons_self⟩, hacyclic⟩
    · rw [hkb]
      refine getEpochInt_epochPacket (by decide) ?_
      rw [Kanban.get_publish, if_neg (by simp [Task.key]), get_chainThird (by simp),
        get_chainSecond_epoch]
    · rw [hkb, Kanban.hget_publish, if_pos rfl]
    · rw [hm.witness]
      exact witnessKey_createWitness _ _ _ _
    · rw [hm.witness]
      exact readIn_createWitness _ _ _ _
  · refine hinj.mono fun x hx => ?_
    obtain ⟨t, xs, hperf, hx | hx⟩ := hx
    · exact (hcalls t xs hperf).1 x hx
    · exact ((hcalls t xs hperf).2.2 x hx).1
  · intro e b i xs hperf x hx t ys hperf' hout
    obtain ⟨n, rfl⟩ := (hcalls _ xs hperf).2.1 rfl x hx
    exact ((hcalls t ys hperf').2.2 _ hout).2 n rfl

end DeSearch
