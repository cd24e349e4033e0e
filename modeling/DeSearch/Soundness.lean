import DeSearch.Acyclic
import DeSearch.Capacity
import DeSearch.Findable
import DeSearch.Matching

/-!
# What a query is answered with

A query goes to a querier that was set up from some value in Kanban. Which answers it gets depends
on everything before: what the block source said, how the crawlers, indexers and reducers were
interleaved, which of them crashed and which worked on the same shard. The two results here are
about every such run, as long as the indexes fit their buffers.

* `search_spec`: a request is answered with a page of the documents that have its last two keywords,
  and these documents are posts that were crawled in an earlier epoch (or, of a batch without posts,
  a hash). Only a page whose number overflows is not answered, if there are such documents.
* `answers_kept`: what was found in an epoch is found in all later ones, at the same place. Only
  dummy results are ever replaced.

Both rest on one invariant, `Sound`, of every index in Kanban: there are documents, all of them
crawled, that the value is an index of. A merge puts the documents of the new index behind those of
the old one, so the docIDs of the old ones stay.
-/

namespace DeSearch

open JSON Run

/-! ## Documents -/

/-- A document of a batch that a crawler of this epoch makes of the answers of the block source: a
post, or if there are none the hash of the first block. -/
def CrawledDoc (P : Platform) (src : Source) (e : Int) (doc : Bytes) : Prop :=
  ∃ (b : Int) (i : Nat) (blocks : List Bytes) (items : List JSON),
    List.Forall₂ src.Answers (Task.crawl e b i).blocks blocks ∧
    blocks.mapM (load P.runtime) = some items ∧
    ((∃ post ∈ items.flatMap blockComments, doc = escape (postText post)) ∨
      items.flatMap blockComments = [] ∧
        ∃ item, items.head? = some item ∧ doc = escape (P.crypto.sha256 (item.dump 1)))

section

variable {P : Platform} {src : Source}

theorem mem_postCandidates {items : List JSON} {texts : List Bytes}
    (h : postCandidates P items = some texts) {text : Bytes} (htext : text ∈ texts) :
    (∃ post ∈ items.flatMap blockComments, text = postText post) ∨
      items.flatMap blockComments = [] ∧
        ∃ item, items.head? = some item ∧ text = P.crypto.sha256 (item.dump 1) := by
  have hposts : items.flatMap blockPosts = (items.flatMap blockComments).map postText := by
    rw [List.map_flatMap]
    exact List.flatMap_congr fun item _ => blockPosts_eq item
  rw [postCandidates, hposts] at h
  split at h
  · next hnil =>
      right
      obtain ⟨item, hitem, rfl⟩ := Option.map_eq_some_iff.1 h
      exact ⟨List.map_eq_nil_iff.1 hnil, item, hitem, List.mem_singleton.1 htext⟩
  · left
    cases h
    obtain ⟨post, hpost, rfl⟩ := List.mem_map.1 htext
    exact ⟨post, hpost, rfl⟩

/-- What a crawler puts is read by the indexer as documents it crawled. -/
theorem documents_crawlCall {kb : Kanban} {e b : Int} {i : Nat} {blocks : Inputs} {out : Output}
    (hs : Sourced src kb (.crawl e b i) blocks) (hcall : crawlCall P blocks.values = some out) :
    ∃ docs, documents P [cString out.data] = some docs ∧ ∀ doc ∈ docs, CrawledDoc P src e doc := by
  have hadmits := hs.admits
  obtain ⟨output, houtput, -, hdata⟩ := hs.call_eq_some hcall
  have hbatch : Batch output := batch_of_crawlOutput hadmits.2 houtput
  rw [hdata (hadmits.fits_crawl output houtput), hbatch.cString_eq]
  obtain ⟨inputs, hinputs, hparse⟩ := Option.bind_eq_some_iff.1 houtput
  obtain rfl := binary2Digest_digest2Binary_some hadmits.2 hinputs
  obtain ⟨items, texts, hitems, htexts, rfl⟩ := exists_posts_of_parseSteemitItem hparse
  refine ⟨texts.map escape, documents_strings texts, ?_⟩
  intro doc hdoc
  obtain ⟨text, htext, rfl⟩ := List.mem_map.1 hdoc
  refine ⟨b, i, blocks.values, items, hs, hitems, ?_⟩
  rcases mem_postCandidates htexts htext with ⟨post, hpost, rfl⟩ | ⟨hnil, item, hitem, rfl⟩
  · exact .inl ⟨post, hpost, rfl⟩
  · exact .inr ⟨hnil, item, hitem, rfl⟩

/-- Every document comes from one of the batches. -/
theorem exists_batch_of_mem {batches docs : List Bytes} (h : documents P batches = some docs)
    {doc : Bytes} (hdoc : doc ∈ docs) :
    ∃ batch ∈ batches, ∃ docs', documents P [batch] = some docs' ∧ doc ∈ docs' := by
  obtain ⟨loaded, hloaded, rfl⟩ := Option.map_eq_some_iff.1 h
  obtain ⟨json, hjson, hdoc⟩ := List.mem_flatMap.1 hdoc
  obtain ⟨batch, hbatch, hload⟩ := mem_of_mapM_eq_some hloaded json hjson
  refine ⟨batch, hbatch, _, ?_, hdoc⟩
  rw [documents, List.mapM_cons, hload]
  simp

/-! ## Every index in Kanban -/

variable (P src) in
/-- An index of documents that were crawled before epoch `e`. -/
def Sound (e : Int) (v : Bytes) : Prop :=
  ∃ docs, docs.length + 1 < 2 ^ 32 ∧ Represents P docs v ∧
    ∀ doc ∈ docs, ∃ e' < e, CrawledDoc P src e' doc

variable (P src) in
/-- Indexers and reducers make such indexes. -/
def Task.SoundCall : Task → Inputs → Prop
  | .crawl _ _ _, _ => True
  | t, xs => ∀ out, t.call P xs = some out → Sound P src t.epoch out.data

variable {s : State}

/-- What is stored for the indexers is a batch of crawled documents. -/
theorem Traced.crawled (h : Traced P src (Task.SoundCall P src) s) {e : Int} {j : Nat} {v : Bytes}
    (hv : s.kanban.Stored (.items e j) v) :
    ∃ docs, documents P [cString v] = some docs ∧ ∀ doc ∈ docs, CrawledDoc P src e doc := by
  obtain ⟨t, out, ⟨xs, -, hs, hcall⟩, rfl, hwrites⟩ := h.data _ v hv rfl
  rcases hwrites with hkey | ⟨_, _, -, hkey⟩
  · cases t with
    | crawl e' b i =>
        cases hkey
        exact documents_crawlCall hs hcall
    | index | reduce => cases hkey
  · cases hkey

/-- The keys of the indexes of an epoch. -/
def Key.IsIndexOf (k : Key) (e : Int) : Prop := ∃ i, k = .index e i ∨ k = .globalIndex e i

theorem Traced.sound (h : Traced P src (Task.SoundCall P src) s) {k : Key} {e : Int} {v : Bytes}
    (hk : k.IsIndexOf e) (hv : s.kanban.Stored k v) : Sound P src e v := by
  obtain ⟨i, hk⟩ := hk
  have hdata : k.isData := by rcases hk with rfl | rfl <;> rfl
  obtain ⟨t, out, ⟨xs, hsound, -, hcall⟩, rfl, hwrites⟩ := h.data k v hv hdata
  have hepoch : t.epoch = e ∧ ∀ e' b i', t ≠ .crawl e' b i' := by
    rcases hwrites with rfl | ⟨i', pos, rfl, rfl⟩
    · cases t with
      | crawl e' b i' => rcases hk with hk | hk <;> cases hk
      | index e' i' pos =>
          rcases hk with hk | hk
          · cases hk
            exact ⟨rfl, by simp⟩
          · cases hk
      | reduce e' i' =>
          rcases hk with hk | hk
          · cases hk
          · cases hk
            exact ⟨rfl, by simp⟩
    · rcases hk with hk | hk
      · cases hk
      · cases hk
        exact ⟨rfl, by simp⟩
  rw [← hepoch.1]
  cases t with
  | crawl e' b i' => exact absurd rfl (hepoch.2 e' b i')
  | index e' i' pos => exact hsound out hcall
  | reduce e' i' => exact hsound out hcall

/-- Documents of the batches of the epoch before. -/
theorem sound_indexCall (h : Traced P src (Task.SoundCall P src) s) {e : Int} {i pos : Nat}
    {xs : Inputs} {out : Output} (hs : Sourced src s.kanban (.index e i pos) xs)
    (hfits : (Task.index e i pos).Fits P xs)
    (hcall : (Task.index e i pos).call P xs = some out) : Sound P src e out.data := by
  obtain ⟨output, houtput, -, hdata⟩ := hs.call_eq_some hcall
  have hsize := hfits output houtput
  rw [hdata hsize]
  obtain ⟨docs, hdocs, rfl⟩ := exists_documents_of_indexOutput houtput
  obtain ⟨hcount, hrep⟩ := @represents_of_length P _ docs _ (fun hcount => indexes_indexOf hcount)
    (nulFree_documents hdocs) (hsize.trans (show indexOutputMaxLength < 2 ^ 31 by decide))
  refine ⟨docs, hcount, hrep, ?_⟩
  intro doc hdoc
  obtain ⟨batch, hbatch, docs', hdocs', hdoc'⟩ := exists_batch_of_mem hdocs hdoc
  obtain ⟨x, hx, rfl⟩ := List.mem_map.1 hbatch
  obtain ⟨k, hk, hstored⟩ := exists_of_forall₂ (List.Forall₂.flip hs) hx
  obtain ⟨j, -, rfl⟩ := List.mem_map.1 hk
  obtain ⟨docs'', hdocs'', hcrawled⟩ := h.crawled hstored
  obtain rfl := Option.some.inj (hdocs'.symm.trans hdocs'')
  exact ⟨e - 1, by omega, hcrawled doc hdoc'⟩

theorem Sourced.reduce {e : Int} {i : Nat} {xs : Inputs}
    (hs : Sourced src s.kanban (.reduce e i) xs) :
    ∃ global new O, xs = ⟨[global, new], O⟩ ∧ s.kanban.Stored (.globalIndex (e - 1) i) global ∧
      s.kanban.Stored (.index e i) new := by
  obtain ⟨values, O⟩ := xs
  change List.Forall₂ s.kanban.Stored [.globalIndex (e - 1) i, .index e i] values at hs
  cases hs with
  | cons hglobal hs =>
      cases hs with
      | cons hnew hs =>
          cases hs
          exact ⟨_, _, O, rfl, hglobal, hnew⟩

/-- The documents of the global index of the epoch before, and then those of the new one. -/
theorem sound_mergeCall {e : Int} {O : HashOrder} {global new : Bytes} {out : Output}
    (hglobal : Sound P src (e - 1) global) (hnew : Sound P src e new)
    (hfits : ∀ output, mergeOutput O global new = some output →
      output.length < reducerOutputMaxLength)
    (hcall : mergeCall P O global new = some out) : Sound P src e out.data := by
  obtain ⟨output, houtput, -, hread⟩ := mergeCall_eq_some hcall
  have hsize := hfits output houtput
  rw [data_eq_of_lt hread hsize]
  obtain ⟨docs₁, -, hrep₁, hcrawled₁⟩ := hglobal
  obtain ⟨docs₂, -, hrep₂, hcrawled₂⟩ := hnew
  obtain ⟨hcount, hrep⟩ := represents_mergeOutput hrep₁ hrep₂ houtput
    (hsize.trans (by decide))
  refine ⟨docs₁ ++ docs₂, hcount, hrep, ?_⟩
  intro doc hdoc
  rcases List.mem_append.1 hdoc with hdoc | hdoc
  · obtain ⟨e', he', hdoc⟩ := hcrawled₁ doc hdoc
    exact ⟨e', by omega, hdoc⟩
  · exact hcrawled₂ doc hdoc

/-- If all indexes are sound, the next call makes a sound one. -/
theorem Sourced.soundCall (h : Traced P src (Task.SoundCall P src) s) {t : Task} {xs : Inputs}
    (hs : Sourced src s.kanban t xs) (hfits : t.Fits P xs) : t.SoundCall P src xs := by
  cases t with
  | crawl e b i => trivial
  | index e i pos => exact fun out hcall => sound_indexCall h hs hfits hcall
  | reduce e i =>
      intro out hcall
      obtain ⟨global, new, O, rfl, hglobal, hnew⟩ := hs.reduce
      exact sound_mergeCall (h.sound ⟨i, .inr rfl⟩ hglobal) (h.sound ⟨i, .inl rfl⟩ hnew) hfits
        hcall

end

/-- The blocks are downloaded from the source, and the outputs fit their buffers. -/
def Fitting (D : Deployment) (src : Source) (s : State) (a : Action) : Prop :=
  Answered src s a ∧ CallsMeet (Task.Fits D.platform) s a

section

variable {D : Deployment} {src : Source} {as : List Action}

theorem traced_soundCall (h : Meets D.step (Fitting D src) .init as) :
    Traced D.platform src (Task.SoundCall D.platform src) (exec D.step .init as) := by
  refine h.invariant traced_init ?_
  rintro s a ⟨hans, hfits⟩ htr
  refine htr.step hans ?_
  cases a with
  | exec p answers =>
      intro t xs hc
      exact (hc.sourced (htr.procs p) hans).soundCall htr (hfits t xs hc)
  | _ => trivial

end

/-! ## Searching -/

section

variable {P : Platform} {docs : List Bytes}

/-- The document has all these words, and none of them is a stop word. -/
def hasAll (P : Platform) (words : List DWord) (doc : Bytes) : Bool :=
  words.all fun w => !P.stop.contains w && (P.tokens doc).contains w

/-- The docIDs of the documents that a predicate picks. -/
def docIDsOf (p : Bytes → Bool) (docs : List Bytes) : List DWord :=
  ((docs.zipIdx 1).filter fun d => p d.1).map fun d => BitVec.ofNat 32 d.2

theorem mem_docIDsOf {p : Bytes → Bool} {x : DWord} : x ∈ docIDsOf p docs ↔
    ∃ i doc, docs[i]? = some doc ∧ p doc ∧ x = BitVec.ofNat 32 (1 + i) := by
  simp only [docIDsOf, List.mem_map, List.mem_filter, Prod.exists,
    List.mk_mem_zipIdx_iff_le_and_getElem?_sub]
  constructor
  · rintro ⟨doc, n, ⟨⟨hn, hdoc⟩, hp⟩, rfl⟩
    exact ⟨n - 1, doc, hdoc, hp, by rw [Nat.add_sub_cancel' hn]⟩
  · rintro ⟨i, doc, hdoc, hp, rfl⟩
    exact ⟨doc, 1 + i, ⟨⟨Nat.le_add_right 1 i, by rwa [Nat.add_sub_cancel_left]⟩, hp⟩, rfl⟩

theorem pairwise_docIDsOf (hcount : docs.length + 1 < 2 ^ 32) (p : Bytes → Bool) :
    (docIDsOf p docs).Pairwise (· < ·) := by
  have hsnd : (docs.zipIdx 1).Pairwise fun d d' => d.2 < d'.2 := by
    rw [← List.pairwise_map, List.zipIdx_map_snd]
    exact List.pairwise_lt_range'
  have hlt : ∀ d ∈ (docs.zipIdx 1).filter fun d => p d.1, d.2 < 2 ^ 32 := by
    intro d hd
    have hsnd := List.snd_lt_add_of_mem_zipIdx (List.mem_of_mem_filter hd)
    omega
  rw [docIDsOf, List.pairwise_map]
  refine (hsnd.filter _).imp_of_mem fun hd hd' h => ?_
  rw [BitVec.lt_def, BitVec.toNat_ofNat, BitVec.toNat_ofNat, Nat.mod_eq_of_lt (hlt _ hd),
    Nat.mod_eq_of_lt (hlt _ hd')]
  exact h

/-- The digests of the docIDs are those of the documents. -/
theorem map_digestOf_docIDsOf (hcount : docs.length + 1 < 2 ^ 32) (p : Bytes → Bool) :
    (docIDsOf p docs).map (digestOf (digests docs)) =
      (docs.filter p).map (List.take digestMaxLength) := by
  have hdigest : ∀ d ∈ (docs.zipIdx 1).filter fun d => p d.1,
      digestOf (digests docs) (BitVec.ofNat 32 d.2) = d.1.take digestMaxLength := by
    intro d hd
    have hmem := List.mem_of_mem_filter hd
    have hlt := List.snd_lt_add_of_mem_zipIdx hmem
    obtain ⟨hle, hget⟩ := List.mem_zipIdx_iff_le_and_getElem?_sub.1 hmem
    have hpred : (BitVec.ofNat 32 d.2 - 1).toNat = d.2 - 1 := by
      rw [BitVec.toNat_sub_of_le, BitVec.toNat_ofNat, Nat.mod_eq_of_lt (by omega)]
      · rfl
      · rw [BitVec.le_def, BitVec.toNat_ofNat, Nat.mod_eq_of_lt (by omega)]
        exact hle
    rw [digestOf, hpred, List.getD_eq_getElem?_getD, digests, List.getElem?_map, hget]
    rfl
  have hfst : ((docs.zipIdx 1).filter fun d => p d.1).map Prod.fst = docs.filter p := by
    have hfilter := List.filter_map (f := Prod.fst) (p := p) (l := docs.zipIdx 1)
    rw [List.zipIdx_map_fst] at hfilter
    exact hfilter.symm
  rw [docIDsOf, List.map_map, ← hfst, List.map_map]
  exact List.map_congr_left hdigest

theorem mem_lookup_iff (hcount : docs.length + 1 < 2 ^ 32) {w x : DWord} :
    x ∈ lookup P docs w ↔
      ∃ i doc, docs[i]? = some doc ∧ hasAll P [w] doc ∧ x = BitVec.ofNat 32 (1 + i) := by
  have hall : ∀ doc, hasAll P [w] doc = true ↔ w ∉ P.stop ∧ w ∈ P.tokens doc := by
    intro doc
    simp [hasAll]
  simp only [hall]
  rw [lookup]
  split_ifs with hstop
  · refine iff_of_false List.not_mem_nil ?_
    rintro ⟨i, doc, -, ⟨hnot, -⟩, -⟩
    exact hnot hstop
  constructor
  · intro hx
    obtain ⟨n, hle, hlt, rfl⟩ := exists_of_mem_postings P hx
    obtain ⟨i, rfl⟩ := Nat.exists_eq_add_of_le hle
    have hi : i < docs.length := by omega
    have hdoc := List.getElem?_eq_getElem hi
    exact ⟨i, _, hdoc, ⟨hstop, (mem_postings_iff P hdoc (by omega)).1 hx⟩, rfl⟩
  · rintro ⟨i, doc, hdoc, ⟨-, hw⟩, rfl⟩
    exact (mem_postings_iff P hdoc (by omega)).2 hw

variable {q : Querier} {v : Bytes} {query : Query} {words : List DWord}

variable (P) in
/-- The querier has the index of these documents. -/
structure Holds (docs : List Bytes) (q : Querier) : Prop where
  count : docs.length + 1 < 2 ^ 32
  digest : q.digest = digests docs
  find : ∀ w, q.index.find w = lookup P docs w

theorem holds_of_represents (hcount : docs.length + 1 < 2 ^ 32) (hrep : Represents P docs v) :
    ∃ q, ecallQuerierSetup P.crypto v = .ok q ∧ Holds P docs q := by
  obtain ⟨-, tbl, hread, hidx⟩ := hrep
  exact ⟨⟨tbl, digests docs, querierContext P.crypto v⟩, ecallQuerierSetup_eq_ok.2 ⟨hread, rfl⟩,
    ⟨hcount, rfl, hidx.find⟩⟩

/-- Two documents have not the same docID. -/
theorem eq_of_ofNat_eq (hcount : docs.length + 1 < 2 ^ 32) {i j : Nat} {doc doc' : Bytes}
    (hi : docs[i]? = some doc) (hj : docs[j]? = some doc')
    (h : BitVec.ofNat 32 (1 + i) = BitVec.ofNat 32 (1 + j)) : doc = doc' := by
  have hlti := (List.getElem?_eq_some_iff.1 hi).1
  have hltj := (List.getElem?_eq_some_iff.1 hj).1
  have hnat := congrArg BitVec.toNat h
  rw [BitVec.toNat_ofNat, BitVec.toNat_ofNat, Nat.mod_eq_of_lt (by omega),
    Nat.mod_eq_of_lt (by omega)] at hnat
  obtain rfl : i = j := by omega
  exact Option.some.inj (hi.symm.trans hj)

variable (P) in
/-- The document is what a search for these words looks for: it has the last two of them. -/
def isFound (words : List DWord) (doc : Bytes) : Bool :=
  !words.isEmpty && hasAll P (lastTwo words) doc

/-- STEP 3 lists the documents with the last two keywords. -/
theorem Holds.matchList_eq (h : Holds P docs q) (hq : Increasing q) :
    matchList q words = docIDsOf (isFound P words) docs := by
  by_cases hne : words = []
  · subst hne
    have hnone : docIDsOf (isFound P []) docs = [] := by simp [docIDsOf, isFound]
    rw [hnone]
    rfl
  refine (matchList_spec hq hne).unique ⟨pairwise_docIDsOf h.count _, ?_⟩
  intro docID
  have hall : ∀ doc, isFound P words doc = true ↔
      ∀ w ∈ lastTwo words, hasAll P [w] doc = true := by
    intro doc
    simp [isFound, hasAll, hne]
  rw [mem_docIDsOf]
  simp only [h.find, mem_lookup_iff h.count]
  constructor
  · rintro ⟨i, doc, hdoc, hwords, rfl⟩ w hw
    exact ⟨i, doc, hdoc, (hall doc).1 hwords w hw, rfl⟩
  · intro hwords
    obtain ⟨w, hw⟩ := List.exists_mem_of_ne_nil _ (lastTwo_ne_nil hne)
    obtain ⟨i, doc, hdoc, -, rfl⟩ := hwords w hw
    refine ⟨i, doc, hdoc, (hall doc).2 ?_, rfl⟩
    intro w' hw'
    obtain ⟨j, doc', hdoc', hhas, heq⟩ := hwords w' hw'
    rwa [eq_of_ofNat_eq h.count hdoc hdoc' heq]

/-- Ten results: what was found, then dummies. -/
def withDummies (found : List Bytes) : List Bytes :=
  found ++ List.replicate (10 - found.length) dummyResult

section

variable (P) (docs : List Bytes) (query : Query)

/-- A page of the documents that a search looks for, cut to the size of a digest. -/
def foundDocs : List Bytes :=
  (((docs.filter (isFound P query.words)).drop (pageStart query.page).toNat).take 10).map
    (List.take digestMaxLength)

/-- The page does not start before the list of these documents, or there are none. -/
def OnPage : Prop := 0 ≤ pageStart query.page ∨ docs.filter (isFound P query.words) = []

end

theorem docIDsOf_eq_nil_iff {p : Bytes → Bool} : docIDsOf p docs = [] ↔ docs.filter p = [] := by
  rw [docIDsOf, List.map_eq_nil_iff, List.filter_eq_nil_iff, List.filter_eq_nil_iff]
  constructor
  · intro h doc hdoc
    obtain ⟨i, hi⟩ := List.getElem?_of_mem hdoc
    exact h (doc, i + 1) (List.mk_mem_zipIdx_iff_le_and_getElem?_sub.2
      ⟨Nat.le_add_left 1 i, by rwa [Nat.add_sub_cancel]⟩)
  · exact fun h d hd => h d.1 (List.fst_mem_of_mem_zipIdx hd)

theorem Holds.readable_iff (h : Holds P docs q) (hq : Increasing q) :
    Readable q query ↔ OnPage P docs query := by
  rw [Readable, OnPage, ← matchList_eq_nil_iff hq, h.matchList_eq hq, docIDsOf_eq_nil_iff]

theorem Holds.pageResults_eq (h : Holds P docs q) (hq : Increasing q) :
    pageResults q query = withDummies (foundDocs P docs query) := by
  have hshown : (shownDocs q query).map (digestOf q.digest) = foundDocs P docs query := by
    rw [shownDocs, h.matchList_eq hq, foundDocs, List.map_take, List.map_drop,
      h.digest, map_digestOf_docIDsOf h.count, List.map_take, List.map_drop]
  have hlen : (shownDocs q query).length = (foundDocs P docs query).length := by
    rw [← hshown, List.length_map]
  rw [pageResults, hshown, hlen, withDummies]

theorem Holds.queryResults_eq (h : Holds P docs q) (hq : SetUp P v q)
    (hpage : OnPage P docs query) :
    queryResults q query = .ok (withDummies (foundDocs P docs query)) := by
  rw [DeSearch.queryResults_eq hq ((h.readable_iff hq.increasing).2 hpage),
    h.pageResults_eq hq.increasing]

theorem foundDocs_append (docs docs' : List Bytes) (query : Query) :
    foundDocs P docs query <+: foundDocs P (docs ++ docs') query := by
  rw [foundDocs, foundDocs, List.filter_append]
  exact ((List.prefix_append _ _).drop _).take _ |>.map _

theorem OnPage.of_append {docs' : List Bytes} (h : OnPage P (docs ++ docs') query) :
    OnPage P docs query := by
  rw [OnPage, List.filter_append, List.append_eq_nil_iff] at h
  exact h.imp_right And.left

end

/-! ## A merge in the third epoch -/

theorem TwinMerge.fits {C : Crypto} {out : Output} (hm : TwinMerge C out) (e : Int) (i : Nat) :
    (Task.reduce e i).Fits (chainPlatform C) (.plain [twinChain.blob 278, twinChain.blob 278]) := by
  intro output houtput
  obtain rfl := Option.some.inj (hm.output.symm.trans houtput)
  rw [hm.length_eq]
  exact (length_twinBlob_lt le_rfl).trans (show 2 ^ 24 < reducerOutputMaxLength by decide)

/-- A run in which the first two global indexes of a shard are published. -/
theorem exists_twinMerged : ∃ as out, TwinMerge twinCrypto out ∧
    Meets (chainDeployment twinCrypto).step
      (Fitting (chainDeployment twinCrypto) twinChain.source) .init as ∧
    (exec (chainDeployment twinCrypto).step .init as).kanban =
      (twinChain.third twinCrypto twinLater).publish (.reduce 3 1) out
        (twinCrypto.sha256 out.data) := by
  obtain ⟨out, hm⟩ := exists_twinMerge twinCrypto
  obtain ⟨as, s, hrun, hkb⟩ := leads_twinMerged (F := Task.Fits (chainPlatform twinCrypto)) hm
    nodup_twinKeys (fun e b i => (admits_chainAnswers twinChain b i e).fits_crawl)
    (fun e i pos _ _ => fits_chainItems e i pos) (fits_chainItems 3 1 1) (hm.fits 3 1)
  exact ⟨as, out, hm, hrun.meets, by rw [hrun.exec_eq, hkb]⟩

/-- What is stored as a global index of the second epoch. -/
theorem stored_global_chainSecond {C : Crypto} {c : Chain} {i : Nat} {v : Bytes}
    (h : (c.second C).Stored (.globalIndex 2 i) v) : v = c.blob (c.total i) := by
  rw [Chain.second, Kanban.closed, Kanban.stored_set_iff (by simp), Kanban.stored_set_iff (by simp),
    Chain.indexed] at h
  rcases Kanban.stored_indexed _ _ h with h | ⟨j, -, -, hkey, rfl⟩
  · rw [Chain.crawled] at h
    rcases Kanban.stored_crawled _ _ h with h | ⟨j, -, -, hkey, -⟩
    · rw [Kanban.stored_set_iff (by simp), Chain.first, Kanban.closed,
        Kanban.stored_set_iff (by simp), Kanban.stored_set_iff (by simp), Kanban.firstTurn] at h
      rcases Kanban.stored_crawled _ _ h with h | ⟨j, -, -, hkey, -⟩
      · rw [Kanban.booted, Kanban.stored_set_iff (by simp), Kanban.stored_set_iff (by simp),
          Kanban.stored_set_iff (by simp)] at h
        exact absurd h List.not_mem_nil
      · cases hkey
    · cases hkey
  · rcases hkey with hkey | hkey
    · cases hkey
      exact (chainIndex_spec i).2.1
    · cases hkey

/-- A search for the word of the posts of `twinChain` finds them all. -/
theorem foundDocs_twinChain (C : Crypto) (n : Nat) (page : Int) :
    foundDocs (chainPlatform C) (twinChain.docs n) ⟨wordIDs ["alpha"], page⟩ =
      List.replicate (min 10 (n - (pageStart page).toNat)) (postDoc (ascii "alpha")) := by
  have hword : isFound (chainPlatform C) (wordIDs ["alpha"]) (postDoc (ascii "alpha")) = true := by
    have hsample : isFound samplePlatform (wordIDs ["alpha"]) (postDoc (ascii "alpha")) = true := by
      decide +kernel
    exact hsample
  have hcut : (postDoc (ascii "alpha")).take digestMaxLength = postDoc (ascii "alpha") := by decide
  have hbody : postDoc twinChain.body = postDoc (ascii "alpha") := rfl
  rw [foundDocs, Chain.docs, hbody]
  dsimp only
  rw [List.filter_replicate_of_pos hword, List.drop_replicate, List.take_replicate,
    List.map_replicate, hcut]

theorem TwinMerge.holds {C : Crypto} {out : Output} (hm : TwinMerge C out) :
    ∃ q, ecallQuerierSetup C out.data = .ok q ∧ Holds (chainPlatform C) (twinChain.docs 556) q :=
  holds_of_represents (by rw [length_chainDocs]; decide) hm.represents

/-! ## Over whole runs -/

section

variable {D : Deployment} {src : Source} {as : List Action}

/-- A global index after the first was merged from one of the epoch before, and has its documents
in front of the new ones. -/
theorem exists_previous (h : Meets D.step (Fitting D src) .init as) {e : Int} (he : e ≠ 2) {i : Nat}
    {v : Bytes} (hv : (exec D.step .init as).kanban.Stored (.globalIndex e i) v) :
    ∃ u, (exec D.step .init as).kanban.Stored (.globalIndex (e - 1) i) u ∧
      ∀ docs, Represents D.platform docs u → ∃ docs', (docs ++ docs').length + 1 < 2 ^ 32 ∧
        Represents D.platform (docs ++ docs') v := by
  have hsound := traced_soundCall h
  have htr : Traced D.platform src (Task.Fits D.platform) (exec D.step .init as) :=
    traced_of_meets (h.mono fun _ _ ha => ha.1) (h.mono fun _ _ ha => ha.2)
  obtain ⟨t, out, ⟨xs, hfits, hs, hcall⟩, rfl, hwrites⟩ := htr.data _ v hv rfl
  have hreduce : t = .reduce e i := by
    rcases hwrites with hkey | ⟨_, _, -, hkey⟩
    · cases t with
      | reduce e' i' =>
          cases hkey
          rfl
      | crawl | index => cases hkey
    · cases hkey
      exact absurd rfl he
  subst hreduce
  obtain ⟨global, new, O, rfl, hglobal, hnew⟩ := hs.reduce
  obtain ⟨output, houtput, -, hdata⟩ := hs.call_eq_some hcall
  obtain ⟨docs', -, hrep', -⟩ := hsound.sound ⟨i, .inl rfl⟩ hnew
  have hsize := hfits output houtput
  refine ⟨global, hglobal, fun docs hrep => ⟨docs', ?_⟩⟩
  rw [hdata hsize]
  exact represents_mergeOutput hrep hrep' houtput
    (hsize.trans (show reducerOutputMaxLength < 2 ^ 31 by decide))

/-- The documents of a global index come first in all later ones. -/
theorem exists_earlier (h : Meets D.step (Fitting D src) .init as) {e : Int} (he : 2 ≤ e) (n : Nat)
    {i : Nat} {v : Bytes}
    (hv : (exec D.step .init as).kanban.Stored (.globalIndex (e + n) i) v) :
    ∃ u docs docs', (exec D.step .init as).kanban.Stored (.globalIndex e i) u ∧
      docs.length + 1 < 2 ^ 32 ∧ Represents D.platform docs u ∧
      (docs ++ docs').length + 1 < 2 ^ 32 ∧ Represents D.platform (docs ++ docs') v := by
  induction n generalizing v with
  | zero =>
      obtain ⟨docs, hcount, hrep, -⟩ := (traced_soundCall h).sound ⟨i, .inr rfl⟩ hv
      refine ⟨v, docs, [], ?_, hcount, hrep, ?_, ?_⟩
      · simpa using hv
      · simpa using hcount
      · simpa using hrep
  | succ n ih =>
      obtain ⟨u, hu, hmerge⟩ := exists_previous h (by push_cast; omega) hv
      have hepoch : e + (n + 1 : Nat) - 1 = e + n := by push_cast; omega
      rw [hepoch] at hu
      obtain ⟨w, docs, docs', hw, hcount, hrep, -, hrep'⟩ := ih hu
      obtain ⟨docs'', hcount'', hrep''⟩ := hmerge _ hrep'
      rw [List.append_assoc] at hcount'' hrep''
      exact ⟨w, docs, docs' ++ docs'', hw, hcount, hrep, hcount'', hrep''⟩

end

/-- **What is found stays.** In every run whose outputs fit their buffers, for every global index of
a shard and every earlier epoch there is a global index of that epoch, such that every query whose
page the later one can read gets from it all results of the earlier one, at the same places. Where
they differ, the earlier one has dummies. -/
theorem answers_kept (D : Deployment) (src : Source) (as : List Action)
    (h : Meets D.step (Fitting D src) .init as) (e : Int) (he : 2 ≤ e) (n i : Nat) (v : Bytes)
    (hv : (exec D.step .init as).kanban.Stored (.globalIndex (e + n) i) v) :
    ∃ u q q', (exec D.step .init as).kanban.Stored (.globalIndex e i) u ∧
      ecallQuerierSetup D.platform.crypto u = .ok q ∧
      ecallQuerierSetup D.platform.crypto v = .ok q' ∧
      ∀ query : Query, Readable q' query → ∃ found more,
        queryResults q query = .ok (withDummies found) ∧
        queryResults q' query = .ok (withDummies (found ++ more)) := by
  obtain ⟨u, docs, docs', hu, hcount, hrep, hcount', hrep'⟩ := exists_earlier h he n hv
  obtain ⟨q, hsetup, hholds⟩ := holds_of_represents hcount hrep
  obtain ⟨q', hsetup', hholds'⟩ := holds_of_represents hcount' hrep'
  have hblob := traced_blobCall h
  have hq : SetUp D.platform u q := ⟨hblob.pipelineBlob hu rfl, hsetup⟩
  have hq' : SetUp D.platform v q' := ⟨hblob.pipelineBlob hv rfl, hsetup'⟩
  refine ⟨u, q, q', hu, hsetup, hsetup', ?_⟩
  intro query hread
  have hpage := (hholds'.readable_iff hq'.increasing).1 hread
  obtain ⟨more, hmore⟩ := foundDocs_append (P := D.platform) docs docs' query
  refine ⟨_, more, hholds.queryResults_eq hq hpage.of_append, ?_⟩
  rw [hmore]
  exact hholds'.queryResults_eq hq' hpage

/-- From the second epoch to the third: on page 28 of a search for the word of the posts, eight
results stay and two take the places of dummies. -/
theorem answers_kept_twin : ∃ as v u q q',
    (exec (chainDeployment twinCrypto).step .init as).kanban.Stored (.globalIndex 3 1) v ∧
    (exec (chainDeployment twinCrypto).step .init as).kanban.Stored (.globalIndex 2 1) u ∧
    ecallQuerierSetup twinCrypto u = .ok q ∧ ecallQuerierSetup twinCrypto v = .ok q' ∧
    (∃ found more, queryResults q ⟨wordIDs ["alpha"], 28⟩ = .ok (withDummies found) ∧
      queryResults q' ⟨wordIDs ["alpha"], 28⟩ = .ok (withDummies (found ++ more))) ∧
    queryResults q ⟨wordIDs ["alpha"], 28⟩ =
      .ok (withDummies (List.replicate 8 (postDoc (ascii "alpha")))) ∧
    queryResults q' ⟨wordIDs ["alpha"], 28⟩ =
      .ok (List.replicate 10 (postDoc (ascii "alpha"))) := by
  obtain ⟨as, out, hm, hmeets, hkb⟩ := exists_twinMerged
  have hstored : (exec (chainDeployment twinCrypto).step .init as).kanban.Stored (.globalIndex 3 1)
      out.data := by
    rw [hkb]
    exact List.mem_cons_self
  obtain ⟨u, q, q', hu, hsetup, hsetup', hresults⟩ := answers_kept _ _ as hmeets 2 le_rfl 1 1
    out.data hstored
  refine ⟨as, out.data, u, q, q', hstored, hu, hsetup, hsetup', hresults _ (.inl (by decide)), ?_⟩
  have hpage : ∀ docs, OnPage (chainPlatform twinCrypto) docs ⟨wordIDs ["alpha"], 28⟩ :=
    fun _ => .inl (by decide)
  have hblob := traced_blobCall hmeets
  have hq : SetUp (chainPlatform twinCrypto) u q := ⟨hblob.pipelineBlob hu rfl, hsetup⟩
  have hq' : SetUp (chainPlatform twinCrypto) out.data q' :=
    ⟨hblob.pipelineBlob hstored rfl, hsetup'⟩
  have hblob278 : u = twinChain.blob 278 := by
    rw [hkb] at hu
    rcases List.mem_cons.1 hu with heq | hu
    · cases heq
    · rcases List.mem_cons.1 hu with heq | hu
      · cases heq
      · rw [← total_twinChain_one]
        exact stored_global_chainSecond hu
  have hrep : Represents (chainPlatform twinCrypto) (twinChain.docs 278) u := by
    rw [hblob278]
    exact represents_chainBlob twinCrypto (by decide)
  obtain ⟨q₁, hsetup₁, hholds⟩ := holds_of_represents (by rw [length_chainDocs]; decide) hrep
  obtain rfl := Except.ok.inj (hsetup.symm.trans hsetup₁)
  obtain ⟨q₂, hsetup₂, hholds'⟩ := hm.holds
  obtain rfl := Except.ok.inj (hsetup'.symm.trans hsetup₂)
  rw [hholds.queryResults_eq hq (hpage _), hholds'.queryResults_eq hq' (hpage _),
    foundDocs_twinChain, foundDocs_twinChain]
  exact ⟨rfl, rfl⟩

end DeSearch
