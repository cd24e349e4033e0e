import DeSearch.Blob
import DeSearch.QuerierProof

/-!
# What a response carries

A response is one JSON object with the ten results and the witness of the call. The witness commits
to the printed results as they stand alone, and the client prints them again after it parsed them
out of the whole text, where they were nested one level deeper.

* `matchList_spec`: STEP 3 finds the documents with the last two keywords.
* `queryResults_eq`: on the tables of a pipeline blob, a page is its digests and then dummies.
* `finalResponse_eq`: the text of a response is the printed form of `finalJson`.
* `answer_committed`: what the client shows is what the witness commits to.
-/

namespace DeSearch

open JSON

variable {P : Platform} {C : Crypto}

/-! ## Intersections -/

/-- `set_intersection` of increasing lists finds what both have. -/
theorem mem_intersection_iff {v1 v2 : List DWord} (h1 : v1.Pairwise (· < ·))
    (h2 : v2.Pairwise (· < ·)) {x : DWord} : x ∈ intersection v1 v2 ↔ x ∈ v1 ∧ x ∈ v2 := by
  induction v1 generalizing v2 with
  | nil => simp [intersection]
  | cons a v1 ih =>
      obtain ⟨ha, h1⟩ := List.pairwise_cons.1 h1
      rw [intersection]
      induction v2 with
      | nil => simp [advance]
      | cons b v2 ih2 =>
          obtain ⟨hb, h2'⟩ := List.pairwise_cons.1 h2
          rw [advance]
          split_ifs with hab hba
          · have hnot : a ∉ b :: v2 := by
              intro hmem
              rcases List.mem_cons.1 hmem with rfl | hmem
              · exact BitVec.lt_irrefl a hab
              · exact BitVec.lt_asymm hab (hb a hmem)
            rw [ih h1 h2]
            refine and_congr_left fun hx => ?_
            have hxa : x ≠ a := fun heq => hnot (heq ▸ hx)
            rw [List.mem_cons, or_iff_right hxa]
          · have hnot : b ∉ a :: v1 := by
              intro hmem
              rcases List.mem_cons.1 hmem with rfl | hmem
              · exact BitVec.lt_irrefl b hba
              · exact BitVec.lt_asymm hba (ha b hmem)
            rw [ih2 h2']
            refine and_congr_right fun hx => ?_
            have hxb : x ≠ b := fun heq => hnot (heq ▸ hx)
            rw [List.mem_cons, or_iff_right hxb]
          · obtain rfl : a = b := BitVec.le_antisymm (BitVec.not_lt.1 hba) (BitVec.not_lt.1 hab)
            rw [List.mem_cons, ih h1 h2', List.mem_cons, List.mem_cons, or_and_left]

/-! ## The match list -/

section

variable {q : Querier} {words : List DWord}

/-- `_this_vec` after STEP 3. -/
def matchList (q : Querier) (words : List DWord) : List DWord :=
  intersectLists [] none (words.map q.index.find)

theorem matchList_singleton (q : Querier) (w : DWord) : matchList q [w] = q.index.find w := rfl

theorem matchList_append_pair (q : Querier) (front : List DWord) (u v : DWord) :
    matchList q (front ++ [u, v]) = intersection (q.index.find u) (q.index.find v) := by
  rw [matchList, intersectLists_eq_commonDocs, lastTwo_append_pair, commonDocs]

/-- The ascending list of the documents with all the words. -/
structure Matches (q : Querier) (words docIDs : List DWord) : Prop where
  increasing : docIDs.Pairwise (· < ·)
  mem_iff : ∀ docID, docID ∈ docIDs ↔ ∀ w ∈ words, docID ∈ q.index.find w

/-- There is only one. -/
theorem Matches.unique {docIDs docIDs' : List DWord} (h : Matches q words docIDs)
    (h' : Matches q words docIDs') : docIDs = docIDs' := by
  have hperm : docIDs.Perm docIDs' :=
    (List.perm_ext_iff_of_nodup (h.increasing.imp BitVec.ne_of_lt)
      (h'.increasing.imp BitVec.ne_of_lt)).2 fun docID => by rw [h.mem_iff, h'.mem_iff]
  exact hperm.eq_of_pairwise (fun a b _ _ hab hba => absurd hba (BitVec.lt_asymm hab))
    h.increasing h'.increasing

/-- The lists of the shard are increasing, as `ecall_querier_setup` loads them from a blob of the
pipeline. -/
def Increasing (q : Querier) : Prop := ∀ w, (q.index.find w).Pairwise (· < ·)

/-- The match list of STEP 3 is what the last two keywords have in common. -/
theorem matchList_spec (hq : Increasing q) (hne : words ≠ []) :
    Matches q (lastTwo words) (matchList q words) := by
  rcases eq_singleton_or_append_pair hne with ⟨w, rfl⟩ | ⟨front, u, v, rfl⟩
  · rw [lastTwo_singleton, matchList_singleton]
    exact ⟨hq w, fun docID => by simp⟩
  · rw [lastTwo_append_pair, matchList_append_pair]
    refine ⟨(hq u).sublist (intersection_sublist _ _), fun docID => ?_⟩
    rw [mem_intersection_iff (hq u) (hq v)]
    simp

/-- The document stands in the posting lists of the last two keywords. -/
def HasLastTwo (q : Querier) (words : List DWord) (docID : DWord) : Prop :=
  words ≠ [] ∧ ∀ w ∈ lastTwo words, docID ∈ q.index.find w

instance (q : Querier) (words : List DWord) (docID : DWord) :
    Decidable (HasLastTwo q words docID) :=
  -- through the list, and not through all the words there are
  decidable_of_iff
    ((!words.isEmpty && (lastTwo words).all fun w => (q.index.find w).contains docID) = true)
    (by simp [HasLastTwo])

theorem mem_matchList (hq : Increasing q) {docID : DWord} :
    docID ∈ matchList q words ↔ HasLastTwo q words docID := by
  by_cases hne : words = []
  · subst hne
    exact iff_of_false List.not_mem_nil fun h => h.1 rfl
  · rw [(matchList_spec hq hne).mem_iff, HasLastTwo, and_iff_right hne]

theorem matchList_eq_nil_iff (hq : Increasing q) :
    matchList q words = [] ↔ ∀ docID, ¬HasLastTwo q words docID := by
  rw [List.eq_nil_iff_forall_not_mem]
  exact forall_congr' fun docID => not_congr (mem_matchList hq)

end

/-! ## The results -/

/-- `(page-1)*10`, as an `int`. -/
def pageStart (page : Int) : Int := wrapInt ((page - 1) * 10)

/-- The docIDs whose digests a request is answered with. -/
def shownDocs (q : Querier) (query : Query) : List DWord :=
  ((matchList q query.words).drop (pageStart query.page).toNat).take 10

/-- The digest of a docID that has one. -/
def digestOf (digest : List Bytes) (docID : DWord) : Bytes := digest.getD (docID - 1).toNat []

/-- A querier that was set up from a blob of the pipeline. -/
def SetUp (P : Platform) (blob : Bytes) (q : Querier) : Prop :=
  PipelineBlob P blob ∧ ecallQuerierSetup P.crypto blob = .ok q

theorem SetUp.tables {blob : Bytes} {q : Querier} (h : SetUp P blob q) :
    readBlob blob = some (q.index, q.digest) ∧ WellFormed q.index q.digest ∧
      q.context = querierContext P.crypto blob := by
  obtain ⟨hread, hcontext⟩ := ecallQuerierSetup_eq_ok.1 h.2
  obtain ⟨docs, hcount, hnul, tbl, hread', hidx⟩ := h.1.represents
  have hwf := wellFormed_of_indexes hidx hnul hcount
  obtain ⟨hindex, hdigest⟩ := Prod.mk.inj (Option.some.inj (hread'.symm.trans hread))
  rw [hindex, hdigest] at hwf
  exact ⟨hread, hwf, hcontext⟩

theorem SetUp.increasing {blob : Bytes} {q : Querier} (h : SetUp P blob q) : Increasing q :=
  fun w => (h.tables.2.1.find w).1

/-- Every docID of a list has a digest. -/
theorem pred_lt_of_mem_find {tbl : IndexTbl} {digest : List Bytes} (hwf : WellFormed tbl digest)
    {w docID : DWord} (h : docID ∈ tbl.find w) : (docID - 1).toNat < digest.length := by
  obtain ⟨hone, hle⟩ := (hwf.find w).2 docID h
  have hpred : (docID - 1).toNat = docID.toNat - 1 := BitVec.toNat_sub_of_le hone
  omega

theorem mem_digest_of_mem_find {tbl : IndexTbl} {digest : List Bytes} (hwf : WellFormed tbl digest)
    {w docID : DWord} (h : docID ∈ tbl.find w) :
    digestAt digest docID = .ok (digestOf digest docID) ∧ digestOf digest docID ∈ digest := by
  have hlt := pred_lt_of_mem_find hwf h
  rw [digestAt, digestOf, List.getD_eq_getElem?_getD, List.getElem?_eq_getElem hlt]
  exact ⟨rfl, List.getElem_mem hlt⟩

section

variable {blob : Bytes} {q : Querier} {query : Query}

theorem SetUp.digestAt_shown (h : SetUp P blob q) {docID : DWord}
    (hdoc : docID ∈ shownDocs q query) :
    digestAt q.digest docID = .ok (digestOf q.digest docID) ∧
      digestOf q.digest docID ∈ q.digest := by
  obtain ⟨w, -, hx⟩ := exists_word_of_mem (List.mem_of_mem_drop (List.mem_of_mem_take hdoc))
  exact mem_digest_of_mem_find h.tables.2.1 hx

/-- The ten results of a page: the digests of its documents, then dummies. -/
def pageResults (q : Querier) (query : Query) : List Bytes :=
  (shownDocs q query).map (digestOf q.digest) ++
    List.replicate (10 - (shownDocs q query).length) dummyResult

theorem length_shownDocs_le (q : Querier) (query : Query) : (shownDocs q query).length ≤ 10 := by
  rw [shownDocs, List.length_take]
  omega

theorem length_pageResults (q : Querier) (query : Query) : (pageResults q query).length = 10 := by
  have := length_shownDocs_le q query
  rw [pageResults, List.length_append, List.length_map, List.length_replicate]
  omega

/-- A page can be read: its offset is not negative, or no document has the last two keywords. -/
def Readable (q : Querier) (query : Query) : Prop :=
  0 ≤ pageStart query.page ∨ ∀ docID, ¬HasLastTwo q query.words docID

theorem SetUp.pageDocs_eq (h : SetUp P blob q) (hpage : Readable q query) :
    pageDocs (matchList q query.words) query.page = .ok (shownDocs q query) := by
  rcases hpage with hstart | hnone
  · exact pageDocs_of_nonneg _ hstart
  · rw [shownDocs, (matchList_eq_nil_iff h.increasing).2 hnone, pageDocs_nil, List.drop_nil,
      List.take_nil]

theorem queryResults_eq (h : SetUp P blob q) (hpage : Readable q query) :
    queryResults q query = .ok (pageResults q query) := by
  have hfound : (shownDocs q query).mapM (digestAt q.digest) =
      .ok ((shownDocs q query).map (digestOf q.digest)) :=
    mapM_eq_ok fun docID hdoc => (h.digestAt_shown hdoc).1
  rw [queryResults, ← matchList, tenResults, h.pageDocs_eq hpage]
  simp only [bind, Except.bind, hfound, pure, Except.pure, List.length_map, pageResults]

theorem queryResults_overflow (h : SetUp P blob q) (hpage : ¬Readable q query) :
    queryResults q query = .error .range := by
  rw [Readable, not_or, not_le, ← matchList_eq_nil_iff h.increasing] at hpage
  rw [queryResults, ← matchList, tenResults, pageDocs_of_neg hpage.2 hpage.1]
  rfl

end

/-! ## The witness of an answer -/

/-- The context of WITNESS: Part-2. -/
def answerContext (C : Crypto) (context : WitnessContext) (request response : Bytes) :
    WitnessContext :=
  { context with
    ins := context.ins ++ [C.sha256 request]
    out := C.sha256 response
    bin := C.sha256 (ascii "querier" ++ [0])
    stage := 4 }

theorem querierWitness_eq (context : WitnessContext) (request response : Bytes) :
    querierWitness C context request response =
      witnessText C (answerContext C context request response) := by
  simp [querierWitness, witnessFinalize, witnessFunc, witnessOutput, witnessInput, answerContext]

/-! ## The text as a value -/

/-- One of the results; its position counts from zero. -/
def resultJson (result : Bytes) (position : Nat) : JSON :=
  object [(ascii "answer", string result), (ascii "number", string (toDecimal (position + 1)))]

theorem resultsJson_eq (results : List Bytes) :
    resultsJson results =
      object [(ascii "results", array (results.zipIdx.map fun r => resultJson r.1 r.2))] :=
  rfl

/-- The whole response. -/
def finalJson (C : Crypto) (context : WitnessContext) (request : Bytes) (results : List Bytes) :
    JSON :=
  object [(ascii "response", resultsJson results),
    (ascii "witness",
      signedJson C (answerContext C context request ((resultsJson results).dump 1)))]

theorem finalResponse_eq (context : WitnessContext) (request : Bytes) (results : List Bytes) :
    finalResponse P context request results =
      .ok ((finalJson P.crypto context request results).dump 1) := by
  rw [finalResponse, querierWitness_eq, load_witnessText]
  rfl

/-- A request to a querier that is set up, of a page that can be read. -/
theorem ecallDoQuery_eq {blob request : Bytes} {q : Querier} {query : Query} (h : SetUp P blob q)
    (hparse : parseRequest P request = .ok (some query)) (hpage : Readable q query)
    (size : Nat) : ecallDoQuery P q request size =
      .ok (copyOut size ((finalJson P.crypto q.context request (pageResults q query)).dump 1)) := by
  rw [ecallDoQuery, hparse]
  simp only [bind, Except.bind, queryResults_eq h hpage, finalResponse_eq, pure, Except.pure]

theorem ecallDoQuery_overflow {blob request : Bytes} {q : Querier} {query : Query}
    (h : SetUp P blob q) (hparse : parseRequest P request = .ok (some query))
    (hpage : ¬Readable q query) (size : Nat) : ecallDoQuery P q request size = .error .range := by
  rw [ecallDoQuery, hparse]
  simp only [bind, Except.bind, queryResults_overflow h hpage]

theorem plain_resultJson (result : Bytes) (position : Nat) :
    Plain (resultJson result position) := by
  refine ⟨⟨⟨ascii "answer", rfl⟩, trivial, ⟨ascii "number", rfl⟩, trivial, trivial⟩, ?_⟩
  change [ascii "answer", ascii "number"].Pairwise (· < ·)
  decide

theorem plainElems_of_forall {l : List JSON} (h : ∀ j ∈ l, Plain j) : PlainElems l := by
  induction l with
  | nil => trivial
  | cons j l ih =>
      rw [List.forall_mem_cons] at h
      exact ⟨h.1, ih h.2⟩

theorem plain_resultsJson (results : List Bytes) : Plain (resultsJson results) := by
  rw [resultsJson_eq]
  refine ⟨⟨⟨ascii "results", rfl⟩, plainElems_of_forall fun j hj => ?_, trivial⟩, ?_⟩
  · obtain ⟨r, -, rfl⟩ := List.mem_map.1 hj
    exact plain_resultJson r.1 r.2
  · exact List.pairwise_singleton _ _

theorem plain_finalJson (context : WitnessContext) (request : Bytes) (results : List Bytes) :
    Plain (finalJson C context request results) := by
  refine ⟨⟨⟨ascii "response", rfl⟩, plain_resultsJson results, ⟨ascii "witness", rfl⟩,
    plain_signedJson _, trivial⟩, ?_⟩
  change [ascii "response", ascii "witness"].Pairwise (· < ·)
  decide

/-- Parsing a response gives the results and the witness back. -/
theorem load_finalJson (R : Runtime) (context : WitnessContext) (request : Bytes)
    (results : List Bytes) :
    load R ((finalJson C context request results).dump 1) =
      some (finalJson C context request results) :=
  load_dump (plain_finalJson context request results) 1

/-- **Committed answers.** Whatever the results are made of, the client prints the `response` it
parsed as the very text that the querier hashed, and the `OUT` of the `witness` next to it is that
hash. -/
theorem answer_committed (R : Runtime) (context : WitnessContext) (request : Bytes)
    (results : List Bytes) :
    ∃ finalAll parsed, finalResponse P context request results = .ok finalAll ∧
      load R finalAll = some parsed ∧
      (parsed.get (ascii "response")).dump 1 = (resultsJson results).dump 1 ∧
      (parsed.get (ascii "witness")).get (ascii "OUT") =
        string (P.crypto.sha256 ((resultsJson results).dump 1)) :=
  ⟨_, _, finalResponse_eq context request results, load_finalJson R context request results,
    rfl, rfl⟩

end DeSearch
