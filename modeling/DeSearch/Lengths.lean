import DeSearch.Response

/-!
# What the lengths of messages tell

An observer of the network sees how long a request and its response are. `go_search` pads its
request with `x` up to what the comment calls exactly 512 bytes, and a querier fills its answer up
to ten results with dummies of 256 bytes. Both leave the length to the message: the padding is
computed from the number of members of the JSON object, and the digests are shown as long as they
are, with their escapes.

* `requestLength_iff`: when two requests have the same length.
* `responseLength_iff`: when two responses of a querier have the same length, in terms of the
  digests and the posting lists of its shard.
-/

namespace DeSearch

open JSON

variable {P : Platform} {C : Crypto}

/-! ## Requests -/

/-- Number of bytes of the printed keywords and page. -/
def queryLength (keywords : Bytes) (page : Int) : Nat :=
  (escape keywords).length + (toDecimal page).length

theorem length_dump_queryJson (keywords : Bytes) (page : Int) :
    ((queryJson keywords page).dump 1).length = queryLength keywords page + 36 := by
  have hkeywords : (ascii "keywords").length = 8 := rfl
  have hpage : (ascii "page").length = 4 := rfl
  rw [queryJson, length_dump_object, length_dumpMembers_cons, length_dumpMembers_singleton,
    length_dump_string, length_dump_string, escape_toDecimal, hkeywords, hpage, queryLength]
  omega

/-- `JSON::size` counts the two members. -/
theorem length_composeQuery (keywords : Bytes) (page : Int) :
    (composeQuery keywords page).length = queryLength keywords page + 546 := by
  have hsize : (queryJson keywords page).size = 2 := rfl
  have hquery : composeQuery keywords page = (queryJson keywords page).dump 1 ++
      List.replicate (512 - (queryJson keywords page).size).toNat (ch 'x') := rfl
  rw [hquery, hsize, List.length_append, length_dump_queryJson, List.length_replicate]
  omega

/-- **Request lengths.** A request is longer than 512 bytes whatever is asked, and two requests have
the same length exactly if their keywords, as they are escaped, and their page numbers are equally
long together. -/
theorem requestLength_iff (keywords keywords' : Bytes) (page page' : Int) :
    (composeQuery keywords page).length ≠ 512 ∧
      ((composeQuery keywords page).length = (composeQuery keywords' page').length ↔
        queryLength keywords page = queryLength keywords' page') := by
  rw [length_composeQuery, length_composeQuery]
  omega

/-- Two short searches, told apart by the lengths of their requests. -/
theorem short_requests_differ :
    ((queryJson (ascii "a") 1).dump 1).length ≤ 512 ∧
      ((queryJson (ascii "ab") 1).dump 1).length ≤ 512 ∧
      (composeQuery (ascii "a") 1).length ≠ 512 ∧
      (composeQuery (ascii "a") 1).length ≠ (composeQuery (ascii "ab") 1).length := by
  have ha : queryLength (ascii "a") 1 = 2 := by decide
  have hab : queryLength (ascii "ab") 1 = 3 := by decide
  simp [length_dump_queryJson, length_composeQuery, ha, hab]

/-! ## Responses -/

/-- Number of bytes of the printed results. -/
def escapedLength (results : List Bytes) : Nat := (results.map fun r => (escape r).length).sum

theorem escapedLength_cons (r : Bytes) (results : List Bytes) :
    escapedLength (r :: results) = (escape r).length + escapedLength results := by
  rw [escapedLength, List.map_cons, List.sum_cons, escapedLength]

theorem length_dump_resultJson (result : Bytes) (position : Nat) :
    ((resultJson result position).dump 4).length =
      (escape result).length + ((toDecimal (position + 1)).length + 54) := by
  have hanswer : (ascii "answer").length = 6 := rfl
  have hnumber : (ascii "number").length = 6 := rfl
  rw [resultJson, length_dump_object, length_dumpMembers_cons, length_dumpMembers_singleton,
    length_dump_string, length_dump_string, escape_toDecimal, hanswer, hnumber]
  omega

theorem length_number_le {position : Nat} (h : position < 10) :
    (toDecimal (position + 1)).length ≤ 2 := by
  have hall : ∀ i < 10, (toDecimal ((i : Nat) + 1)).length ≤ 2 := by decide
  exact hall position h

/-- The results of a page cost their own length and an overhead. -/
theorem exists_length_dumpElems (n k : Nat) (h : k + n ≤ 10) :
    ∃ c ≤ 58 * n, ∀ results : List Bytes, results.length = n →
      (dumpElems 3 ((results.zipIdx k).map fun r => resultJson r.1 r.2)).length =
        escapedLength results + c := by
  induction n generalizing k with
  | zero =>
      refine ⟨0, le_rfl, fun results hlen => ?_⟩
      rw [List.length_eq_zero_iff.1 hlen]
      rfl
  | succ n ih =>
      obtain ⟨c, hc, hrest⟩ := ih (k + 1) (by omega)
      have hnumber : (toDecimal (k + 1)).length ≤ 2 := length_number_le (by omega)
      -- the last result has no separator behind it
      refine ⟨c + (toDecimal (k + 1)).length + 54 + if n = 0 then 0 else 2, ?_,
        fun results hlen => ?_⟩
      · split_ifs <;> omega
      obtain ⟨r, results, rfl⟩ := List.exists_cons_of_length_eq_add_one hlen
      have hlen' : results.length = n := by simpa using hlen
      have hr := length_dump_resultJson r k
      specialize hrest results hlen'
      cases results with
      | nil =>
          obtain rfl : n = 0 := by simpa using hlen'.symm
          have hc0 : c = 0 := by simpa [dumpElems, escapedLength] using hrest.symm
          change ((resultJson r k).dump 4).length = _
          rw [hr, hc0, if_pos rfl, escapedLength, List.map_singleton, List.sum_singleton]
          omega
      | cons r' results =>
          have hn : n ≠ 0 := by
            rw [← hlen']
            simp
          rw [List.zipIdx_cons, List.map_cons, List.zipIdx_cons, List.map_cons,
            length_dumpElems_cons, hr, if_neg hn]
          rw [List.zipIdx_cons, List.map_cons] at hrest
          rw [hrest, escapedLength_cons r]
          omega

/-- The witness of an answer has the same length whatever was asked and answered. -/
theorem length_dump_answerWitness (blob request response : Bytes) :
    ((signedJson C (answerContext C (querierContext C blob) request response)).dump 2).length =
      489 := by
  have hins : (dumpElems 3 [string (C.sha256 blob), string (C.sha256 request)]).length = 134 := by
    rw [length_dumpElems_cons, dumpElems, length_dump_string, length_dump_string,
      length_escape_sha256, length_escape_sha256]
  have htag : (escape (ascii "STEEMIT QUERIER")).length = 15 := rfl
  have hcontext : answerContext C (querierContext C blob) request response =
      ⟨ascii "STEEMIT QUERIER", [C.sha256 blob, C.sha256 request], C.sha256 response,
        C.sha256 (ascii "querier" ++ [0]), 4⟩ := rfl
  rw [hcontext, length_dump_signedJson, List.map_cons, List.map_cons, List.map_nil, hins, htag,
    length_escape_sha256, length_escape_sha256]

theorem exists_length_finalJson : ∃ c ≤ 2000, ∀ (C : Crypto) (blob request : Bytes)
    (results : List Bytes), results.length = 10 →
      ((finalJson C (querierContext C blob) request results).dump 1).length =
        escapedLength results + c := by
  obtain ⟨c, hc, helems⟩ := exists_length_dumpElems 10 0 le_rfl
  have hresponse : (ascii "response").length = 8 := rfl
  have hwitness : (ascii "witness").length = 7 := rfl
  have hresults : (ascii "results").length = 7 := rfl
  refine ⟨c + 548, by omega, fun C blob request results hlen => ?_⟩
  rw [finalJson, resultsJson_eq, length_dump_object, length_dumpMembers_cons,
    length_dumpMembers_singleton, length_dump_answerWitness, length_dump_object,
    length_dumpMembers_singleton, length_dump_array, helems results hlen, hresponse, hwitness,
    hresults]
  omega

theorem length_escape_le (s : Bytes) : (escape s).length ≤ 2 * s.length := by
  induction s with
  | nil => exact le_rfl
  | cons c s ih =>
      have hbyte : (escapeByte c).length ≤ 2 := by
        unfold escapeByte
        split_ifs <;> simp
      rw [show escape (c :: s) = escapeByte c ++ escape s from rfl, List.length_append,
        List.length_cons]
      omega

theorem escapedLength_append (results results' : List Bytes) :
    escapedLength (results ++ results') = escapedLength results + escapedLength results' := by
  rw [escapedLength, List.map_append, List.sum_append, escapedLength, escapedLength]

theorem escapedLength_le {results : List Bytes} {n : Nat} (h : ∀ r ∈ results, r.length ≤ n) :
    escapedLength results ≤ 2 * n * results.length := by
  induction results with
  | nil => exact Nat.zero_le _
  | cons r results ih =>
      rw [List.forall_mem_cons] at h
      have hr := length_escape_le r
      have hrest := ih h.2
      rw [escapedLength_cons, List.length_cons, Nat.mul_succ]
      omega

theorem escapedLength_dummies (n : Nat) :
    escapedLength (List.replicate n dummyResult) = digestMaxLength * n := by
  have hdummy : (escape dummyResult).length = digestMaxLength := by
    rw [escape, dummyResult, List.length_flatMap]
    decide +kernel
  rw [escapedLength, List.map_replicate, hdummy, List.sum_replicate_nat, Nat.mul_comm]

/-- The documents of the shard with the last two keywords, in the order of their docIDs. -/
def docsWith (q : Querier) (words : List DWord) : List DWord :=
  ((List.range' 1 q.digest.length).map (BitVec.ofNat 32)).filter fun docID =>
    HasLastTwo q words docID

/-- Those of them that come on a page. -/
def docsOnPage (q : Querier) (query : Query) : List DWord :=
  ((docsWith q query.words).drop (pageStart query.page).toNat).take 10

/-- Number of bytes of the digests on a page, as they are escaped, where a dummy stands for each
that is missing. -/
def pageLength (q : Querier) (query : Query) : Nat :=
  escapedLength ((docsOnPage q query).map (digestOf q.digest)) +
    digestMaxLength * (10 - (docsOnPage q query).length)

section

variable {blob : Bytes} {q : Querier}

/-- The documents of a shard can be numbered. -/
theorem SetUp.length_digest_lt (h : SetUp P blob q) : q.digest.length < 2 ^ 32 := by
  obtain ⟨docs, hcount, -, tbl, hread, -⟩ := h.1.represents
  have hdigest := (Prod.mk.inj (Option.some.inj (hread.symm.trans h.tables.1))).2
  rw [← hdigest, digests, List.length_map]
  omega

theorem pairwise_docIDs {n : Nat} (h : n < 2 ^ 32) :
    ((List.range' 1 n).map (BitVec.ofNat 32)).Pairwise (· < ·) := by
  refine List.pairwise_map.2 ((List.pairwise_lt_range' 1).imp_of_mem fun {a b} ha hb hab => ?_)
  rw [List.mem_range'_1] at ha hb
  rw [BitVec.lt_def, BitVec.toNat_ofNat, BitVec.toNat_ofNat, Nat.mod_eq_of_lt (by omega),
    Nat.mod_eq_of_lt (by omega)]
  exact hab

theorem mem_docIDs {n : Nat} {docID : DWord} (h : 1 ≤ docID.toNat ∧ docID.toNat ≤ n) :
    docID ∈ (List.range' 1 n).map (BitVec.ofNat 32) :=
  List.mem_map.2 ⟨docID.toNat, List.mem_range'_1.2 ⟨h.1, by omega⟩, by simp⟩

theorem SetUp.matchList_eq_docsWith (h : SetUp P blob q) (words : List DWord) :
    matchList q words = docsWith q words := by
  by_cases hne : words = []
  · subst hne
    refine (List.filter_eq_nil_iff.2 fun docID _ => ?_).symm
    simp [HasLastTwo]
  have hspec := matchList_spec h.increasing hne
  refine hspec.unique ⟨(pairwise_docIDs h.length_digest_lt).filter _, fun docID => ?_⟩
  rw [docsWith, List.mem_filter, decide_eq_true_iff, HasLastTwo, and_iff_right hne]
  refine and_iff_right_of_imp fun hall => ?_
  obtain ⟨w, hw⟩ := List.exists_mem_of_ne_nil _ (lastTwo_ne_nil hne)
  exact mem_docIDs ((h.tables.2.1.find w).2 docID (hall w hw))

theorem SetUp.shownDocs_eq (h : SetUp P blob q) (query : Query) :
    shownDocs q query = docsOnPage q query := by
  rw [shownDocs, h.matchList_eq_docsWith, docsOnPage]

theorem escapedLength_pageResults (h : SetUp P blob q) (query : Query) :
    escapedLength (pageResults q query) = pageLength q query := by
  rw [pageResults, escapedLength_append, escapedLength_dummies, h.shownDocs_eq, pageLength]

theorem pageLength_le (h : SetUp P blob q) (query : Query) : pageLength q query ≤ 5120 := by
  have hdigest : ∀ r ∈ (shownDocs q query).map (digestOf q.digest), r.length ≤ 256 := by
    intro r hr
    obtain ⟨docID, hdoc, rfl⟩ := List.mem_map.1 hr
    exact h.tables.2.1.length_le _ (h.digestAt_shown hdoc).2
  have hfound := escapedLength_le hdigest
  have hcount := length_shownDocs_le q query
  have hmax : digestMaxLength = 256 := rfl
  rw [List.length_map] at hfound
  rw [pageLength, ← h.shownDocs_eq, hmax]
  omega

/-- A response fits its buffer. -/
theorem length_finalJson_lt (h : SetUp P blob q) (request : Bytes) (query : Query) :
    ((finalJson P.crypto q.context request (pageResults q query)).dump 1).length < bufferSize := by
  obtain ⟨c, hc, hfinal⟩ := exists_length_finalJson
  have hle := pageLength_le h query
  have hbuffer : bufferSize = 10240 := rfl
  rw [h.tables.2.2, hfinal _ _ _ _ (length_pageResults q query), escapedLength_pageResults h]
  omega

/-- The length of a response is that of the results it shows and a constant. -/
theorem exists_length_response : ∃ c, ∀ {P : Platform} {blob : Bytes} {q : Querier},
    SetUp P blob q → ∀ {request : Bytes} {query : Query},
      parseRequest P request = .ok (some query) → Readable q query →
        ∃ response, ecallDoQuery P q request bufferSize = .ok response ∧
          response.length = pageLength q query + c := by
  obtain ⟨c, -, hfinal⟩ := exists_length_finalJson
  refine ⟨c, fun {P blob q} h {request query} hparse hpage => ?_⟩
  refine ⟨_, ecallDoQuery_eq h hparse hpage bufferSize, ?_⟩
  rw [copyOut, if_pos (length_finalJson_lt h request query), h.tables.2.2,
    hfinal _ _ _ _ (length_pageResults q query), escapedLength_pageResults h]

theorem readable_of_answered (h : SetUp P blob q) {request response : Bytes} {query : Query}
    {size : Nat} (hparse : parseRequest P request = .ok (some query))
    (hcall : ecallDoQuery P q request size = .ok response) : Readable q query := by
  by_contra hneg
  rw [ecallDoQuery_overflow h hparse hneg] at hcall
  cases hcall

/-- **Response lengths.** Two requests to a querier are answered by texts of the same length exactly
if the two pages can be read and the stored digests of the documents on them, as they are escaped
and with a dummy for each missing one, are equally long together. The documents on a page are taken
from those that stand in the posting lists of the last two keywords. -/
theorem responseLength_iff (h : SetUp P blob q) {request₁ request₂ : Bytes} {query₁ query₂ : Query}
    (h₁ : parseRequest P request₁ = .ok (some query₁))
    (h₂ : parseRequest P request₂ = .ok (some query₂)) :
    (∃ response₁ response₂, ecallDoQuery P q request₁ bufferSize = .ok response₁ ∧
      ecallDoQuery P q request₂ bufferSize = .ok response₂ ∧
      response₁.length = response₂.length) ↔
    (Readable q query₁ ∧ Readable q query₂) ∧ pageLength q query₁ = pageLength q query₂ := by
  obtain ⟨c, hlength⟩ := exists_length_response
  constructor
  · rintro ⟨response₁, response₂, hcall₁, hcall₂, heq⟩
    have hpage₁ := readable_of_answered h h₁ hcall₁
    have hpage₂ := readable_of_answered h h₂ hcall₂
    obtain ⟨_, hok₁, hlen₁⟩ := hlength h h₁ hpage₁
    obtain ⟨_, hok₂, hlen₂⟩ := hlength h h₂ hpage₂
    rw [hcall₁] at hok₁
    rw [hcall₂] at hok₂
    cases hok₁
    cases hok₂
    exact ⟨⟨hpage₁, hpage₂⟩, by omega⟩
  · rintro ⟨⟨hpage₁, hpage₂⟩, heq⟩
    obtain ⟨response₁, hcall₁, hlen₁⟩ := hlength h h₁ hpage₁
    obtain ⟨response₂, hcall₂, hlen₂⟩ := hlength h h₂ hpage₂
    exact ⟨response₁, response₂, hcall₁, hcall₂, by omega⟩

end

/-- The querier of the document `world`. -/
def worldQuerier : Querier :=
  ⟨indexOf samplePlatform [ascii "world"], [ascii "world"], querierContext sampleCrypto worldBlob⟩

theorem setUp_worldBlob : SetUp samplePlatform worldBlob worldQuerier := by
  refine ⟨@PipelineBlob.build _ insertionOrder (digest2Binary [ascii "[\"world\"]"]) _ [] 1000 0
    ?_ (by decide +kernel), ecallQuerierSetup_eq_ok.2 ⟨by decide +kernel, rfl⟩⟩
  decide +kernel

/-- A request for one word. -/
theorem parse_wordQuery {u : Bytes} (hne : u ≠ []) (hu : ∀ c ∈ u, isAlnum c) {page : Int}
    (hpage : IsInt page) : parseRequest samplePlatform (composeQuery u page) =
      .ok (some ⟨[sphCRC32 (lower u)], page⟩) := by
  rw [parseRequest_composeQuery (nulFree_of_alnum hu) hpage, tokens_sample_word hne hu]
  rfl

theorem parse_worldQuery {page : Int} (hpage : IsInt page) :
    parseRequest samplePlatform (composeQuery (ascii "world") page) =
      .ok (some ⟨[sphCRC32 (ascii "world")], page⟩) :=
  parse_wordQuery (u := ascii "world") (by decide) (by decide +kernel) hpage

/-- Two searches that find the same document. -/
theorem responseLength_same_page : ∃ response₁ response₂,
    ecallDoQuery samplePlatform worldQuerier (composeQuery (ascii "world") 1) bufferSize =
      .ok response₁ ∧
    ecallDoQuery samplePlatform worldQuerier (composeQuery (ascii "WORLD") 1) bufferSize =
      .ok response₂ ∧ response₁.length = response₂.length :=
  (responseLength_iff setUp_worldBlob (parse_worldQuery (by decide))
    (parse_wordQuery (u := ascii "WORLD") (by decide) (by decide +kernel) (by decide))).2
      ⟨⟨.inl (by decide), .inl (by decide)⟩, by decide +kernel⟩

/-- Page 1 has the one digest and nine dummies, page 2 has ten dummies. -/
theorem response_lengths_differ : ∃ blob q request₁ request₂ query₁ query₂ response₁ response₂,
    SetUp samplePlatform blob q ∧
    (parseRequest samplePlatform request₁ = .ok (some query₁) ∧ 1 ≤ query₁.page) ∧
    (parseRequest samplePlatform request₂ = .ok (some query₂) ∧ 1 ≤ query₂.page) ∧
    ecallDoQuery samplePlatform q request₁ bufferSize = .ok response₁ ∧
    ecallDoQuery samplePlatform q request₂ bufferSize = .ok response₂ ∧
    response₁.length ≠ response₂.length := by
  have h₁ := parse_worldQuery (show IsInt 1 by decide)
  have h₂ := parse_worldQuery (show IsInt 2 by decide)
  have hpage₁ : pageLength worldQuerier ⟨[sphCRC32 (ascii "world")], 1⟩ = 5 + 256 * 9 := by
    decide +kernel
  have hpage₂ : pageLength worldQuerier ⟨[sphCRC32 (ascii "world")], 2⟩ = 256 * 10 := by
    decide +kernel
  obtain ⟨c, hlength⟩ := exists_length_response
  obtain ⟨response₁, hcall₁, hlen₁⟩ := hlength setUp_worldBlob h₁ (.inl (by decide))
  obtain ⟨response₂, hcall₂, hlen₂⟩ := hlength setUp_worldBlob h₂ (.inl (by decide))
  exact ⟨_, _, _, _, _, _, response₁, response₂, setUp_worldBlob, ⟨h₁, by decide⟩,
    ⟨h₂, by decide⟩, hcall₁, hcall₂, by omega⟩

end DeSearch
