import DeSearch.Paging

/-!
# The bounds of a query

`querier_loop` receives a packet into a buffer of `BUFFER_SIZE` bytes, writes a terminator behind
it, and hands it to `ecall_do_query`, which writes its answer into another such buffer. The answer
always fits: ten results of at most 256 bytes stay below the size of the buffer even if every byte
of them is escaped.

On the way in nothing is checked. A packet that fills its buffer has its terminator behind the
buffer. The page number is whatever `strtol` makes of the request, and the offset of the page is
compared with the upper end of the match list only.

* `finalAll_fits`: when a request is answered, by a text that fits and is received as it is.
* `turn_safe_iff`: when one turn of the loop stays in the range of its buffers, vectors and `int`s.
* `queryResults_of_safe`: then the results are those of the page.
-/

namespace DeSearch

open JSON

variable {P : Platform} {blob request : Bytes} {q : Querier} {query : Query}

/-! ## The answer -/

/-- Ten results of at most `DIGEST_MAX_LENGTH` bytes. -/
def TenShort (results : List Bytes) : Prop :=
  results.length = 10 ∧ ∀ r ∈ results, r.length ≤ digestMaxLength

theorem length_finalJson_lt_of_tenShort (h : SetUp P blob q) (request : Bytes)
    {results : List Bytes} (hresults : TenShort results) :
    ((finalJson P.crypto q.context request results).dump 1).length < bufferSize := by
  obtain ⟨c, hc, hfinal⟩ := exists_length_finalJson
  have hle := escapedLength_le hresults.2
  have hmax : digestMaxLength = 256 := rfl
  have hbuffer : bufferSize = 10240 := rfl
  rw [hresults.1] at hle
  rw [h.tables.2.2, hfinal _ _ _ _ hresults.1]
  omega

theorem tenShort_pageResults (h : SetUp P blob q) (query : Query) :
    TenShort (pageResults q query) := by
  refine ⟨length_pageResults q query, fun r hr => ?_⟩
  rcases List.mem_append.1 hr with hr | hr
  · obtain ⟨docID, hdoc, rfl⟩ := List.mem_map.1 hr
    exact h.tables.2.1.length_le _ (h.digestAt_shown hdoc).2
  · rw [List.eq_of_mem_replicate hr, dummyResult, List.length_replicate]

/-- The results are those of the page, which could be read. -/
theorem queryResults_eq_ok (h : SetUp P blob q) {results : List Bytes}
    (hresults : queryResults q query = .ok results) :
    Readable q query ∧ results = pageResults q query := by
  have hpage : Readable q query := by
    by_contra hneg
    rw [queryResults_overflow h hneg] at hresults
    cases hresults
  rw [queryResults_eq h hpage] at hresults
  exact ⟨hpage, (Except.ok.inj hresults).symm⟩

/-- A text is copied out, and the client receives all of it with room for the terminator. -/
def Delivered (P : Platform) (q : Querier) (request finalAll : Bytes) : Prop :=
  finalAll.length < bufferSize ∧ ecallDoQuery P q request bufferSize = .ok finalAll ∧
    recvReply (cString finalAll) = some finalAll

/-- **No answer is too long.** The text of any ten results of at most `DIGEST_MAX_LENGTH` bytes with
their witness is shorter than the buffer, so the text of the results that a request finds is copied
and received, and an empty answer is never given. A request is answered exactly if its page can be
read: if the offset of the page is not negative, or no document stands in the posting lists of its
last two keywords. -/
theorem finalAll_fits (h : SetUp P blob q) (hparse : parseRequest P request = .ok (some query)) :
    (∀ results, TenShort results → ∃ finalAll,
      finalResponse P q.context request results = .ok finalAll ∧
        finalAll.length < bufferSize) ∧
    (∀ results, queryResults q query = .ok results → TenShort results ∧ ∃ finalAll,
      finalResponse P q.context request results = .ok finalAll ∧
        Delivered P q request finalAll) ∧
    ecallDoQuery P q request bufferSize ≠ .ok [] ∧
    ((∃ finalAll, Delivered P q request finalAll) ↔ Readable q query) := by
  have hdelivered : Readable q query → Delivered P q request
      ((finalJson P.crypto q.context request (pageResults q query)).dump 1) := by
    intro hpage
    have hfits := length_finalJson_lt_of_tenShort h request (tenShort_pageResults h query)
    have hnul := nulFree_finalJson h request query
    refine ⟨hfits, ?_, ?_⟩
    · rw [ecallDoQuery_eq h hparse hpage, copyOut, if_pos hfits]
    · rw [cString_of_nulFree hnul, recvReply, if_pos hfits, cString_of_nulFree hnul]
  refine ⟨fun results hten => ?_, fun results hresults => ?_, ?_, ?_⟩
  · exact ⟨_, finalResponse_eq _ _ _, length_finalJson_lt_of_tenShort h request hten⟩
  · obtain ⟨hpage, rfl⟩ := queryResults_eq_ok h hresults
    exact ⟨tenShort_pageResults h query, _, finalResponse_eq _ _ _, hdelivered hpage⟩
  · by_cases hpage : Readable q query
    · rw [(hdelivered hpage).2.1, finalJson, dump]
      simp
    · rw [ecallDoQuery_overflow h hparse hpage]
      simp
  · constructor
    · rintro ⟨finalAll, hall⟩
      exact readable_of_answered h hparse hall.2.1
    · intro hpage
      exact ⟨_, hdelivered hpage⟩

/-- The first page of a search for one word. -/
theorem finalAll_fits_world : ∃ finalAll,
    Delivered samplePlatform worldQuerier (composeQuery (ascii "world") 1) finalAll :=
  (finalAll_fits setUp_worldBlob (parse_worldQuery (by decide))).2.2.2.2 (.inl (by decide))

/-- A page whose offset overflows, of a search that finds a document. -/
theorem overflowing_page_unanswered : ∃ blob q request query, SetUp samplePlatform blob q ∧
    parseRequest samplePlatform request = .ok (some query) ∧ 1 ≤ query.page ∧
    ∀ finalAll, ecallDoQuery samplePlatform q request bufferSize ≠ .ok finalAll := by
  have hparse := parse_worldQuery (show IsInt 300000000 by decide)
  refine ⟨_, _, _, _, setUp_worldBlob, hparse, by decide, fun finalAll hcall => ?_⟩
  have hfound : HasLastTwo worldQuerier [sphCRC32 (ascii "world")] 1 := by decide +kernel
  rcases readable_of_answered setUp_worldBlob hparse hcall with hstart | hnone
  · exact absurd hstart (by decide)
  · exact hnone 1 hfound

/-! ## What a turn of the loop computes and reads -/

/-- One thing that can leave its range. -/
inductive Access where
  /-- the value of an `int` expression -/
  | int (n : Int)
  /-- the element of an array or a vector at a position -/
  | index (i : Int) (size : Nat)
  /-- an iterator at a position -/
  | iterator (i : Int) (size : Nat)
deriving DecidableEq

/-- An iterator may stand behind the last element, but is not read there. -/
def Access.Safe : Access → Prop
  | int n => IsInt n
  | index i size => 0 ≤ i ∧ i < size
  | iterator i size => 0 ≤ i ∧ i ≤ size

/-- STEP 3: `docID_lists` of this many words. -/
def listAccesses (n : Nat) : List Access :=
  (List.range n).flatMap fun i : Nat =>
    if 0 < i then [.int (i - 1), .index (i - 1) n, .index i n] else [.index 0 n]

/-- The loop of STEP 4, at position `i` of the match list with the rest of it. It breaks when
nothing is `left`. -/
def docAccesses (digestSize size : Nat) : Int → Int → List DWord → List Access
  | _, _, [] => []
  | left, i, docID :: docIDs =>
      [.index i size, .index (docID - 1).toNat digestSize, .int (left - 1)] ++
        if left - 1 = 0 then []
        else .iterator (i + 1) size :: docAccesses digestSize size (left - 1) (i + 1) docIDs

/-- STEP 3 to STEP 5 of `ecall_do_query`, and the loop that makes JSON of `q_results_list`. -/
def queryAccesses (q : Querier) (query : Query) : List Access :=
  let docIDs := matchList q query.words
  let start := (query.page - 1) * 10
  let found := (docIDs.drop start.toNat).take 10
  listAccesses query.words.length ++
    [.int (query.page - 1), .int start, .iterator start docIDs.length] ++
    (if start < docIDs.length then
      docAccesses q.digest.length docIDs.length 10 start (docIDs.drop start.toNat)
    else []) ++
    (List.range 10).map fun i : Nat => .index i (found.length + (10 - found.length))

/-- One turn of `querier_loop`, with `do_query`: the terminator, and then the query if there is one.
`recv` takes at most `BUFFER_SIZE` bytes of what was sent. -/
def turnAccesses (P : Platform) (currentEpochInt : Int) (q : Querier) (sent : Bytes) :
    List Access :=
  let request := sent.take bufferSize
  .index request.length bufferSize ::
    if currentEpochInt < 3 then []
    else
      match parseRequest P request with
      | .ok (some query) => queryAccesses q query
      | _ => []

/-! ## What stays in range -/

theorem listAccesses_safe {n : Nat} (hn : n ≤ 32) : ∀ a ∈ listAccesses n, a.Safe := by
  intro a ha
  obtain ⟨i, hi, ha⟩ := List.mem_flatMap.1 ha
  rw [List.mem_range] at hi
  split_ifs at ha with hpos
  · simp only [List.mem_cons, List.not_mem_nil, or_false] at ha
    rcases ha with rfl | rfl | rfl
    · exact ⟨by omega, by omega⟩
    · exact ⟨by omega, by omega⟩
    · exact ⟨by omega, by omega⟩
  · rw [List.mem_singleton] at ha
    subst ha
    exact ⟨le_rfl, by omega⟩

/-- The loop of STEP 4 stays in the match list, and every docID of it has a digest. -/
theorem docAccesses_safe {digestSize size : Nat} {left i : Int} {docIDs : List DWord}
    (hdocs : ∀ docID ∈ docIDs, (docID - 1).toNat < digestSize) (hleft : 1 ≤ left ∧ left ≤ 10)
    (hi : 0 ≤ i ∧ i + docIDs.length = size) :
    ∀ a ∈ docAccesses digestSize size left i docIDs, a.Safe := by
  induction docIDs generalizing left i with
  | nil => exact fun a ha => absurd ha List.not_mem_nil
  | cons docID docIDs ih =>
      rw [List.forall_mem_cons] at hdocs
      rw [List.length_cons] at hi
      have hrest : ∀ a ∈ (if left - 1 = 0 then []
          else Access.iterator (i + 1) size ::
            docAccesses digestSize size (left - 1) (i + 1) docIDs), a.Safe := by
        split_ifs with hbreak
        · exact fun a ha => absurd ha List.not_mem_nil
        · refine List.forall_mem_cons.2 ⟨⟨by omega, by omega⟩, ?_⟩
          exact ih hdocs.2 ⟨by omega, by omega⟩ ⟨by omega, by omega⟩
      refine List.forall_mem_append.2 ⟨?_, hrest⟩
      simp only [List.forall_mem_cons, List.not_mem_nil, false_implies, implies_true, and_true]
      exact ⟨⟨by omega, by omega⟩, ⟨by omega, by have := hdocs.1; omega⟩, by omega, by omega⟩

/-- The page starts in the match list, or right behind it. -/
def PageInRange (q : Querier) (query : Query) : Prop :=
  1 ≤ query.page ∧ (query.page - 1) * 10 ≤ (matchList q query.words).length

theorem queryAccesses_safe_iff (h : SetUp P blob q) (hwords : query.words.length ≤ 32) :
    (∀ a ∈ queryAccesses q query, a.Safe) ↔ PageInRange q query := by
  constructor
  · intro hsafe
    have hmem : Access.iterator ((query.page - 1) * 10) (matchList q query.words).length ∈
        queryAccesses q query := by
      simp [queryAccesses]
    obtain ⟨hlow, hhigh⟩ := hsafe _ hmem
    exact ⟨by omega, hhigh⟩
  · rintro ⟨hone, hend⟩
    have hlt := h.length_matchList_lt query.words
    simp only [queryAccesses, List.forall_mem_append]
    refine ⟨⟨⟨listAccesses_safe hwords, ?_⟩, ?_⟩, fun a ha => ?_⟩
    · simp only [List.forall_mem_cons, List.not_mem_nil, false_implies, implies_true, and_true]
      exact ⟨⟨by omega, by omega⟩, ⟨by omega, by omega⟩, by omega, hend⟩
    · split_ifs with hstart
      · refine docAccesses_safe (fun docID hdoc => ?_) (by decide) ⟨by omega, ?_⟩
        · obtain ⟨w, -, hx⟩ := exists_word_of_mem (List.mem_of_mem_drop hdoc)
          exact pred_lt_of_mem_find h.tables.2.1 hx
        · rw [List.length_drop]
          omega
      · exact fun a ha => absurd ha List.not_mem_nil
    · obtain ⟨i, hi, rfl⟩ := List.mem_map.1 ha
      rw [List.mem_range] at hi
      exact ⟨by omega, by omega⟩

/-- A query within its bounds is answered with the results of the page. -/
theorem queryResults_of_safe (h : SetUp P blob q) (hwords : query.words.length ≤ 32)
    (hsafe : ∀ a ∈ queryAccesses q query, a.Safe) :
    queryResults q query = .ok (pageResults q query) := by
  obtain ⟨hone, hend⟩ := (queryAccesses_safe_iff h hwords).1 hsafe
  have hlt := h.length_matchList_lt query.words
  refine queryResults_eq h (.inl ?_)
  rw [pageStart, wrapInt_of_isInt ⟨by omega, by omega⟩]
  omega

theorem length_queryWords_le (hparse : parseRequest P request = .ok (some query)) :
    query.words.length ≤ 32 := by
  rw [parseRequest] at hparse
  split at hparse
  · cases hparse
  · simp only at hparse
    split_ifs at hparse
    · cases hparse
    · cases hparse
      exact List.length_take_le _ _

/-- **Query bounds.** Whatever a client sends, one turn of the loop on a querier that is set up
computes without overflow and stays in its buffers and vectors exactly if the packet leaves room for
the terminator and, unless the epoch is too early for queries, the page asked for starts in the
match list or right behind it. -/
theorem turn_safe_iff (h : SetUp P blob q) (currentEpochInt : Int) (sent : Bytes) :
    (∀ a ∈ turnAccesses P currentEpochInt q sent, a.Safe) ↔
      sent.length < bufferSize ∧ (3 ≤ currentEpochInt → ∀ query,
        parseRequest P sent = .ok (some query) → PageInRange q query) := by
  rw [turnAccesses, List.forall_mem_cons]
  have hterm : (Access.index (sent.take bufferSize).length bufferSize).Safe ↔
      sent.length < bufferSize := by
    rw [Access.Safe, List.length_take]
    omega
  rw [hterm]
  refine and_congr_right fun hlen => ?_
  rw [List.take_of_length_le hlen.le]
  split_ifs with hepoch
  · refine iff_of_true (fun a ha => absurd ha List.not_mem_nil) fun hge => ?_
    omega
  · rw [forall_prop_of_true (not_lt.1 hepoch)]
    split
    · next query hparse =>
        rw [queryAccesses_safe_iff h (length_queryWords_le hparse), hparse]
        simp
    · next hother =>
        refine iff_of_true (fun a ha => absurd ha List.not_mem_nil) fun query hparse => ?_
        exact absurd hparse (hother query)

/-- The first page of a search for one word. -/
theorem turn_safe_world : SetUp samplePlatform worldBlob worldQuerier ∧
    ∀ a ∈ turnAccesses samplePlatform 3 worldQuerier (composeQuery (ascii "world") 1), a.Safe := by
  have hparse := parse_worldQuery (show IsInt 1 by decide)
  refine ⟨setUp_worldBlob, (turn_safe_iff setUp_worldBlob 3 _).2 ⟨?_, fun _ query hquery => ?_⟩⟩
  · rw [length_composeQuery]
    decide
  · rw [hparse] at hquery
    cases hquery
    exact ⟨le_rfl, by decide +kernel⟩

/-- A request without a page asks for page 0, which starts ten elements before the match list. A
packet of 10240 bytes has its terminator behind the buffer. -/
theorem query_leaves_range : ∃ blob q, SetUp samplePlatform blob q ∧
    (∃ a ∈ turnAccesses samplePlatform 3 q (ascii "\x7b\"keywords\": \"world\"\x7d"), ¬a.Safe) ∧
    ∃ a ∈ turnAccesses samplePlatform 3 q (List.replicate 10240 (ch ' ')), ¬a.Safe := by
  refine ⟨worldBlob, worldQuerier, setUp_worldBlob, ⟨.iterator (-10) 1, ?_, ?_⟩,
    ⟨.index 10240 10240, ?_, ?_⟩⟩
  · decide +kernel
  · exact fun hsafe => absurd hsafe.1 (by decide)
  · rw [turnAccesses, List.take_of_length_le (by rw [List.length_replicate]; exact le_rfl),
      List.length_replicate]
    exact List.mem_cons_self
  · exact fun hsafe => absurd hsafe.2 (by decide)

end DeSearch
