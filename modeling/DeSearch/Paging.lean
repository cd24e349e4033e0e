import DeSearch.ClientProof
import DeSearch.Lengths
import Mathlib.Tactic.IntervalCases

/-!
# Paging through the results

The results of a search lie in four partitions, each served by a querier of its own. `go_search`
asks all of them for the same page and shows one answer: page `P` of the user is page `⌈P / 4⌉` of
partition `(P - 1) % 4 + 1`. A querier answers with ten results of its match list, filled up with
dummies.

The two pagers fit together: on its way through the pages a user sees the match list of every
partition once and in order (`flatMap_shownAt`). What can go wrong is the request. It travels in a
buffer of fixed size and is parsed as a C string, so keywords with a NUL or of ten thousand bytes
are not answered at all.

* `paging_iff`: all pages are shown, and everything is on them, exactly if the keywords are free of
  NULs and the requests fit their buffer.
-/

namespace DeSearch

open JSON

variable {R : Runtime} {P : Platform}

/-! ## From the client to the queriers and back -/

/-- `get_live_querier`: the first node of each partition that has any, after a shuffle. -/
def getLiveQuerier (shuffle : List Bytes → List Bytes) (partitionLists : List (List Bytes)) :
    List Bytes :=
  partitionLists.filterMap fun partitionList => (shuffle partitionList).head?

/-- One turn of `querier_loop`, with `do_query`: what is sent back for a request. A request that
fills the buffer leaves no room for the terminator. -/
def answerRequest (P : Platform) (currentEpochInt : Int) (q : Querier) (request : Bytes) :
    Option Bytes :=
  if request.length < bufferSize then
    if currentEpochInt < 3 then some []
    else (ecallDoQuery P q request bufferSize).toOption.map cString
  else none

/-- What a client finds outside: the nodes listed for each partition, and the querier behind each
of them. -/
structure Network where
  epoch : Int
  lists : List (List Bytes)
  shuffle : List Bytes → List Bytes
  shuffle_perm : ∀ l, (shuffle l).Perm l
  serving : Bytes → Querier

namespace Network

variable (N : Network)

/-- The nodes that are asked, each with its reply. -/
def replies (P : Platform) (request : Bytes) : Option (List (Bytes × Bytes)) :=
  (getLiveQuerier N.shuffle N.lists).mapM fun node =>
    (answerRequest P N.epoch (N.serving node) request).map fun reply => (node, reply)

/-- `go_search`, with the replies to the request it sends: the answer it shows, if it does. -/
def search (R : Runtime) (P : Platform) (client : Client) (path : Bytes) :
    Option (Bytes × Client) := do
  let decoded ← urlDecode 0 none path
  let (keywords, qPage) ← splitPath decoded
  let page := wrapInt (strtol qPage)
  let nodes ← N.replies P (composeQuery keywords (realPage indexPoolMax page))
  match goSearch R client path nodes with
  | (.ok (_, answer), client) => return (answer, client)
  | (.error _, _) => none

/-- Each partition has exactly one live node, which is set up on the shard of the partition. -/
structure Live (R : Runtime) (P : Platform) (node blob : Nat → Bytes) : Prop where
  epoch : 3 ≤ N.epoch
  lists : N.lists = (List.range' 1 indexPoolMax).map fun p => [node p]
  port : ∀ p, 1 ≤ p → p ≤ indexPoolMax → HasPort R (node p)
  setUp : ∀ p, 1 ≤ p → p ≤ indexPoolMax → SetUp P (blob p) (N.serving (node p))

end Network

/-- The words a querier finds in the keywords. -/
def wordsOf (P : Platform) (keywords : Bytes) : List DWord :=
  (P.tokens ((string keywords).dump 1)).take 32

/-! ## The two pagers -/

theorem realPage_eq {page : Int} {r p : Nat} (hp : 1 ≤ p) (hp' : p ≤ 4)
    (h : page = 4 * r + p) : realPage indexPoolMax page = r + 1 := by
  have hmax : (indexPoolMax : Int) = 4 := rfl
  rw [realPage, hmax]
  omega

theorem pagePos_eq {page : Int} {r p : Nat} (hp : 1 ≤ p) (hp' : p ≤ 4)
    (h : page = 4 * r + p) : pagePos indexPoolMax page = p := by
  have hmax : (indexPoolMax : Int) = 4 := rfl
  rw [pagePos, hmax, Int.tmod_eq_emod_of_nonneg (by omega)]
  split_ifs <;> omega

/-- Every page of the user is one page of one partition. -/
theorem exists_page_eq {page : Int} {rounds : Nat} (hpos : 1 ≤ page)
    (hle : page ≤ 4 * rounds) : ∃ r p : Nat, r < rounds ∧ 1 ≤ p ∧ p ≤ 4 ∧ page = 4 * r + p :=
  ⟨((page - 1) / 4).toNat, ((page - 1) % 4).toNat + 1, by omega, by omega, by omega, by omega⟩

theorem pageStart_eq {r : Nat} (h : 10 * r < 2 ^ 31) : pageStart (r + 1) = 10 * r := by
  rw [pageStart, wrapInt_of_isInt ⟨by omega, by omega⟩]
  omega

namespace Network

/-- The docIDs on a page of the user. -/
def shownAt (N : Network) (node : Nat → Bytes) (words : List DWord) (page : Int) : List DWord :=
  shownDocs (N.serving (node (pagePos indexPoolMax page).toNat))
    ⟨words, realPage indexPoolMax page⟩

/-- The match list of a partition. -/
def matchesOf (N : Network) (node : Nat → Bytes) (words : List DWord) (p : Nat) : List DWord :=
  matchList (N.serving (node p)) words

end Network

/-- The pages on which a partition is shown, in `rounds` rounds through the partitions. -/
def pagesOf (rounds : Nat) (p : Nat) : List Int :=
  ((List.range (4 * rounds)).map fun n : Nat => (n : Int) + 1).filter fun page =>
    pagePos indexPoolMax page = p

theorem pagesOf_succ {p : Nat} (hp : 1 ≤ p) (hp' : p ≤ 4) (rounds : Nat) :
    pagesOf (rounds + 1) p = pagesOf rounds p ++ [4 * (rounds : Int) + p] := by
  have hone : ∀ i : Nat, 1 ≤ i → i ≤ 4 → ∀ n : Int, n = 4 * (rounds : Int) + i →
      [n].filter (fun page => pagePos indexPoolMax page = p) = if i = p then [n] else [] := by
    rintro i h1 h4 n rfl
    rw [List.filter_singleton, pagePos_eq h1 h4 rfl, Bool.cond_decide]
    simp only [Nat.cast_inj]
  rw [pagesOf, Nat.mul_succ, List.range_succ, List.range_succ, List.range_succ, List.range_succ]
  simp only [List.map_append, List.filter_append, List.map_singleton]
  rw [← pagesOf, hone 1 (by omega) (by omega) _ (by push_cast; omega),
    hone 2 (by omega) (by omega) _ (by push_cast; omega),
    hone 3 (by omega) (by omega) _ (by push_cast; omega),
    hone 4 (by omega) (by omega) _ (by push_cast; omega)]
  interval_cases p <;> simp [add_assoc]

/-- **Every docID once and in order.** The pages of a partition show its match list. -/
theorem Network.flatMap_shownAt (N : Network) (node : Nat → Bytes) (words : List DWord)
    {p rounds : Nat} (hp : 1 ≤ p) (hp' : p ≤ 4) (hint : 10 * rounds ≤ 2 ^ 31) :
    (pagesOf rounds p).flatMap (N.shownAt node words) =
      (N.matchesOf node words p).take (10 * rounds) := by
  induction rounds with
  | zero => simp [pagesOf]
  | succ r ih =>
      have hpage : N.shownAt node words (4 * (r : Int) + p) =
          ((N.matchesOf node words p).drop (10 * r)).take 10 := by
        rw [shownAt, pagePos_eq hp hp' rfl, realPage_eq hp hp' rfl, Int.toNat_natCast, shownDocs,
          pageStart_eq (by omega)]
        rfl
      rw [pagesOf_succ hp hp', List.flatMap_append, ih (by omega), List.flatMap_singleton, hpage,
        Nat.mul_succ, List.take_add]

theorem length_intersectLists_lt {n : Nat} {thisVec : List DWord} {prev : Option (List DWord)}
    {lists : List (List DWord)} (hvec : thisVec.length < n) (hprev : ∀ l ∈ prev, l.length < n)
    (hlists : ∀ l ∈ lists, l.length < n) : (intersectLists thisVec prev lists).length < n := by
  induction lists generalizing thisVec prev with
  | nil => cases prev <;> exact hvec
  | cons docIDs lists ih =>
      rw [List.forall_mem_cons] at hlists
      have hdocs : ∀ l ∈ some docIDs, l.length < n := by
        rintro l ⟨⟩
        exact hlists.1
      cases prev with
      | none => exact ih hlists.1 hdocs hlists.2
      | some l =>
          exact ih ((intersection_sublist l docIDs).length_le.trans_lt (hprev l rfl)) hdocs hlists.2

/-- An index of a size that fits an `int` has no longer match lists. -/
theorem SetUp.length_matchList_lt {blob : Bytes} {q : Querier} (h : SetUp P blob q)
    (words : List DWord) : (matchList q words).length < 2 ^ 29 := by
  refine length_intersectLists_lt (by decide) (by simp) fun l hl => ?_
  obtain ⟨w, -, rfl⟩ := List.mem_map.1 hl
  exact (find_loaded h.tables.1 w).2

/-! ## One page -/

theorem nulFree_pageResults {blob : Bytes} {q : Querier} (h : SetUp P blob q) (query : Query) :
    ∀ r ∈ pageResults q query, NulFree r := by
  intro r hr
  rcases List.mem_append.1 hr with hr | hr
  · obtain ⟨docID, hdoc, rfl⟩ := List.mem_map.1 hr
    exact h.tables.2.1.nulFree _ (h.digestAt_shown hdoc).2
  · rw [List.eq_of_mem_replicate hr]
    exact fun hz => absurd (List.eq_of_mem_replicate hz) (by decide)

theorem cleanElems_of_forall {l : List JSON} (h : ∀ j ∈ l, Clean j) : CleanElems l := by
  induction l with
  | nil => trivial
  | cons j l ih =>
      rw [List.forall_mem_cons] at h
      exact ⟨h.1, ih h.2⟩

theorem clean_resultsJson {results : List Bytes} (h : ∀ r ∈ results, NulFree r) :
    Clean (resultsJson results) := by
  rw [resultsJson_eq]
  refine ⟨by decide, cleanElems_of_forall fun j hj => ?_, trivial⟩
  obtain ⟨r, hr, rfl⟩ := List.mem_map.1 hj
  exact ⟨by decide, h r.1 (List.fst_mem_of_mem_zipIdx hr), by decide, nulFree_toDecimal _, trivial⟩

/-- A response holds no NUL. -/
theorem nulFree_finalJson {blob : Bytes} {q : Querier} (h : SetUp P blob q) (request : Bytes)
    (query : Query) :
    NulFree ((finalJson P.crypto q.context request (pageResults q query)).dump 1) := by
  have hsha : ∀ m, NulFree (P.crypto.sha256 m) := fun m => nulFree_of_hex (P.crypto.sha256_hex m)
  have hresults := clean_resultsJson (nulFree_pageResults h query)
  have hwitness : Clean (signedJson P.crypto (answerContext P.crypto
      (querierContext P.crypto blob) request ((resultsJson (pageResults q query)).dump 1))) :=
    ⟨by decide, hsha _, by decide, ⟨hsha _, hsha _, trivial⟩, by decide, hsha _, by decide,
      nulFree_of_hex fun c hc => isHex_of_mem_sigToString hc, by decide,
      show NulFree (ascii "STEEMIT QUERIER") by decide, trivial⟩
  have hclean : Clean (finalJson P.crypto (querierContext P.crypto blob) request
      (pageResults q query)) := ⟨by decide, hresults, by decide, hwitness, trivial⟩
  rw [h.tables.2.2]
  exact nulFree_dump _ hclean 1

/-- The text a client shows for a page. -/
def pageAnswer (q : Querier) (query : Query) : Bytes := (resultsJson (pageResults q query)).dump 1

/-- What a client gets for a request that a live querier can read. -/
theorem exists_answerRequest {blob request : Bytes} {q : Querier} {query : Query} {epoch : Int}
    (hepoch : 3 ≤ epoch) (h : SetUp P blob q) (hlen : request.length < bufferSize)
    (hparse : parseRequest P request = .ok (some query)) (hpage : Readable q query) :
    ∃ reply, answerRequest P epoch q request = some reply ∧
      Carries R reply [P.crypto.sha256 blob, P.crypto.sha256 request] (pageAnswer q query) := by
  have hfits := length_finalJson_lt h request query
  have hnul := nulFree_finalJson h request query
  have hreply : answerRequest P epoch q request =
      some ((finalJson P.crypto q.context request (pageResults q query)).dump 1) := by
    rw [answerRequest, if_pos hlen, if_neg (by omega), ecallDoQuery_eq h hparse hpage, copyOut,
      if_pos hfits]
    simp only [Except.toOption, Option.map_some, cString_of_nulFree hnul]
  have hins : readIn R (witnessText P.crypto (answerContext P.crypto q.context request
      ((resultsJson (pageResults q query)).dump 1))) =
        some [P.crypto.sha256 blob, P.crypto.sha256 request] := by
    rw [h.tables.2.2]
    refine readIn_of_signedText ?_ (load_witnessText _) rfl
    exact List.forall_mem_cons.2 ⟨P.crypto.sha256_hex _, List.forall_mem_singleton.2
      (P.crypto.sha256_hex _)⟩
  refine ⟨_, hreply, _, finalJson P.crypto q.context request (pageResults q query), ?_,
    load_finalJson R q.context request (pageResults q query), hins, rfl⟩
  rw [recvReply, if_pos hfits, cString_of_nulFree hnul]

/-! ## Requests that are not read -/

theorem parseString_unclosed (val s : Bytes) : parseString .plain val (escape s ++ [0]) = none := by
  induction s generalizing val with
  | nil => rfl
  | cons c s ih =>
      have hstep : escape (c :: s) = escapeByte c ++ escape s := rfl
      rw [hstep, List.append_assoc, parseString_escapeByte, ih]

/-- The part of a request that comes before the keywords. -/
def requestHead : Bytes := ascii "\x7b\n  \"keywords\" : \""

theorem load_unclosed (s : Bytes) : load R (requestHead ++ escape s) = none := by
  have hvalue : ∀ n, parseNext R n (consumeWs (32 :: ch '"' :: escape s ++ [0])) = none := by
    intro n
    cases n with
    | zero => rfl
    | succ n =>
        change (parseString .plain [] (escape s ++ [0])).map _ = none
        rw [parseString_unclosed]
        rfl
  have hobject : ∀ n, parseObject R n []
      (ch '"' :: escape (ascii "keywords") ++ ch '"' :: (ascii " : \"" ++ escape s ++ [0])) =
        none := by
    intro n
    cases n with
    | zero => rfl
    | succ n =>
        cases n with
        | zero => rfl
        | succ n =>
            have hcolon : consumeWs (ascii " : \"" ++ escape s ++ [0]) =
                ch ':' :: 32 :: ch '"' :: escape s ++ [0] := rfl
            rw [parseObject, parseNext_string]
            simp only [hcolon, List.cons_append, if_true]
            rw [← List.cons_append, ← List.cons_append, hvalue]
  have hnext : ∀ n, parseNext R n (requestHead ++ escape s ++ [0]) = none := by
    intro n
    cases n with
    | zero => rfl
    | succ n => exact hobject n
  rw [load, hnext]
  rfl

theorem composeQuery_head (keywords : Bytes) (page : Int) :
    ∃ rest, composeQuery keywords page = requestHead ++ (escape keywords ++ ch '"' :: rest) := by
  obtain ⟨pad, hpad⟩ : ∃ pad,
      composeQuery keywords page = (queryJson keywords page).dump 1 ++ pad := ⟨_, rfl⟩
  rw [hpad, queryJson, dump, dumpMembers_cons, dump]
  simp only [List.append_assoc, List.cons_append]
  exact ⟨_, rfl⟩

theorem cString_append_nul {s : Bytes} (h : NulFree s) (t : Bytes) : cString (s ++ 0 :: t) = s := by
  rw [cString, List.takeWhile_append_of_pos]
  · simp
  · exact fun c hc => decide_eq_true fun hz => h (hz ▸ hc)

/-- The request is cut at a NUL in the keywords, inside a string. -/
theorem parseRequest_of_nul {keywords : Bytes} (h : ¬NulFree keywords) (page : Int) :
    parseRequest P (composeQuery keywords page) = .error .exception := by
  obtain ⟨s, t, rfl, hs⟩ := List.eq_append_cons_of_mem (not_not.1 h)
  obtain ⟨rest, hrest⟩ := composeQuery_head (s ++ 0 :: t) page
  have hescape : escape (s ++ 0 :: t) = escape s ++ 0 :: escape t := by
    rw [escape, List.flatMap_append]
    rfl
  have hnul : NulFree (requestHead ++ escape s) :=
    nulFree_append.2 ⟨by decide, nulFree_escape hs⟩
  have hcut : cString (composeQuery (s ++ 0 :: t) page) = requestHead ++ escape s := by
    rw [hrest, hescape, List.append_assoc, ← List.append_assoc, List.cons_append]
    exact cString_append_nul hnul _
  rw [parseRequest, hcut, load_unclosed]

theorem answerRequest_of_nul {keywords : Bytes} {epoch : Int} (hepoch : 3 ≤ epoch)
    (h : ¬NulFree keywords) (q : Querier) (page : Int) :
    answerRequest P epoch q (composeQuery keywords page) = none := by
  have herror : ecallDoQuery P q (composeQuery keywords page) bufferSize = .error .exception := by
    rw [ecallDoQuery, parseRequest_of_nul h]
    rfl
  rw [answerRequest, herror, if_neg (not_lt.2 hepoch)]
  split_ifs <;> rfl

/-! ## A search -/

/-- A node that answers with a text, next to hashes. -/
def Answers (R : Runtime) (node : Bytes × Bytes) (answer : Bytes) : Prop :=
  HasPort R node.1 ∧ ∃ ins, ins ≠ [] ∧ Carries R node.2 ins answer

theorem exists_carried {nodes : List (Bytes × Bytes)} {answers : List Bytes}
    (h : List.Forall₂ (Answers R) nodes answers) (list : List Bytes) :
    ∃ carried list', List.Forall₂ (Replies R) nodes carried ∧
      collectIn list (carried.map Prod.fst) = some list' ∧ carried.map Prod.snd = answers := by
  induction h generalizing list with
  | nil => exact ⟨[], list, .nil, rfl, rfl⟩
  | @cons node answer nodes answers hnode _ ih =>
      obtain ⟨hport, ins, hne, hcarry⟩ := hnode
      obtain ⟨carried, list', hreplies, hlist, hsnd⟩ := ih (list ++ ins).dropLast
      refine ⟨(ins, answer) :: carried, list', .cons ⟨hport, hcarry⟩ hreplies, ?_, ?_⟩
      · rw [List.map_cons, collectIn, if_neg (List.append_ne_nil_of_right_ne_nil list hne), hlist]
      · rw [List.map_cons, hsnd]

/-- The answer at the position of the page is shown. -/
theorem exists_searchFor_eq (keywords : Bytes) {answer : Bytes} {page : Int} {client : Client}
    {poolMax : Nat} {nodes : List (Bytes × Bytes)} {answers : List Bytes}
    (hnodes : List.Forall₂ (Answers R) nodes answers)
    (hat : vectorAt (client.vResponse ++ answers) (pagePos poolMax page - 1) = some answer) :
    ∃ client', searchFor R poolMax client keywords page nodes =
        (.ok (composeQuery keywords (realPage poolMax page), answer), client') ∧
      client'.vResponse = [] := by
  obtain ⟨carried, list, hreplies, hlist, rfl⟩ := exists_carried hnodes []
  exact ⟨_, searchFor_eq_ok.2 ⟨rfl, carried, list, hreplies, hlist, hat, rfl⟩, rfl⟩

namespace Network

variable {N : Network} {node blob : Nat → Bytes}

theorem Live.getLiveQuerier_eq (h : N.Live R P node blob) :
    getLiveQuerier N.shuffle N.lists = (List.range' 1 indexPoolMax).map node := by
  have hone : ∀ x, N.shuffle [x] = [x] := fun x => List.perm_singleton.1 (N.shuffle_perm [x])
  rw [getLiveQuerier, h.lists, List.filterMap_map]
  simp only [Function.comp_def, hone, List.head?_cons]
  rw [List.filterMap_eq_map']

/-- All four queriers answer a readable request. -/
theorem Live.exists_answers (h : N.Live R P node blob) {keywords : Bytes} {r : Nat}
    (hr : 10 * r < 2 ^ 31) (hnul : NulFree keywords)
    (hlen : (composeQuery keywords (r + 1)).length < bufferSize) :
    ∃ nodes, N.replies P (composeQuery keywords (r + 1)) = some nodes ∧
      List.Forall₂ (Answers R) nodes ((List.range' 1 indexPoolMax).map fun i =>
        pageAnswer (N.serving (node i)) ⟨wordsOf P keywords, r + 1⟩) := by
  have hparse : parseRequest P (composeQuery keywords (r + 1)) =
      .ok (some ⟨wordsOf P keywords, r + 1⟩) :=
    parseRequest_composeQuery hnul ⟨by omega, by omega⟩
  have hstart : 0 ≤ pageStart ((r : Int) + 1) := by
    rw [pageStart_eq hr]
    omega
  have hanswer : ∀ i, 1 ≤ i → i ≤ indexPoolMax → ∃ reply,
      answerRequest P N.epoch (N.serving (node i)) (composeQuery keywords (r + 1)) = some reply ∧
        Answers R (node i, reply)
          (pageAnswer (N.serving (node i)) ⟨wordsOf P keywords, r + 1⟩) := by
    intro i h1 h4
    obtain ⟨reply, hreply, hcarry⟩ :=
      exists_answerRequest (R := R) h.epoch (h.setUp i h1 h4) hlen hparse (.inl hstart)
    exact ⟨reply, hreply, h.port i h1 h4, _, List.cons_ne_nil _ _, hcarry⟩
  choose! reply hreply hanswers using hanswer
  refine ⟨(List.range' 1 indexPoolMax).map fun i => (node i, reply i), ?_, ?_⟩
  · rw [replies, h.getLiveQuerier_eq]
    refine mapM_map_some _ fun i hi => ?_
    obtain ⟨h1, h4⟩ := List.mem_range'_1.1 hi
    rw [hreply i h1 (by omega), Option.map_some]
  · rw [List.forall₂_map_left_iff, List.forall₂_map_right_iff, List.forall₂_same]
    intro i hi
    obtain ⟨h1, h4⟩ := List.mem_range'_1.1 hi
    exact hanswers i h1 (by omega)

/-- The answer at the position of a page is its partition's. -/
theorem vectorAt_pagePos {page : Int} {r p : Nat} (hp : 1 ≤ p) (hp' : p ≤ 4)
    (hpage : page = 4 * r + p) (answer : Nat → Bytes) :
    vectorAt ((List.range' 1 indexPoolMax).map answer) (pagePos indexPoolMax page - 1) =
      some (answer p) := by
  have hlt : p - 1 < indexPoolMax := by
    have hmax : indexPoolMax = 4 := rfl
    omega
  rw [pagePos_eq hp hp' hpage, vectorAt, if_pos (by omega),
    show ((p : Int) - 1).toNat = p - 1 by omega, List.getElem?_map, List.getElem?_range' hlt,
    Option.map_some, show 1 + 1 * (p - 1) = p by omega]

/-- A page that is asked for in a readable request. -/
theorem Live.exists_search (h : N.Live R P node blob) {path keywords : Bytes} {page : Int}
    {r p : Nat} (hsplit : Splits path keywords page) (hp : 1 ≤ p) (hp' : p ≤ 4)
    (hpage : page = 4 * r + p) (hr : 10 * r < 2 ^ 31) (hnul : NulFree keywords)
    (hlen : (composeQuery keywords (realPage indexPoolMax page)).length < bufferSize)
    {client : Client} (hclient : client.vResponse = []) :
    ∃ client', N.search R P client path =
        some (pageAnswer (N.serving (node p)) ⟨wordsOf P keywords, r + 1⟩, client') ∧
      client'.vResponse = [] := by
  have hreal : realPage indexPoolMax page = r + 1 := realPage_eq hp hp' hpage
  rw [hreal] at hlen
  obtain ⟨nodes, hreplies, hnodes⟩ := h.exists_answers hr hnul hlen
  have hat := vectorAt_pagePos hp hp' hpage fun i =>
    pageAnswer (N.serving (node i)) ⟨wordsOf P keywords, r + 1⟩
  rw [← List.nil_append (List.map _ _), ← hclient] at hat
  obtain ⟨client', hsearch, hresponse⟩ := exists_searchFor_eq keywords hnodes hat
  rw [← goSearchAt_of_splits hsplit, ← goSearch] at hsearch
  obtain ⟨decoded, qPage, hdecode, hcut, hnumber⟩ := hsplit
  refine ⟨client', ?_, hresponse⟩
  simp only [search, hdecode, hcut, hnumber, hreal, hreplies, hsearch, Option.bind_eq_bind,
    Option.bind_some]
  rfl

/-- If a request is not answered, neither is the search. -/
theorem Live.search_eq_none (h : N.Live R P node blob) {path keywords : Bytes} {page : Int}
    (hsplit : Splits path keywords page)
    (hanswer : answerRequest P N.epoch (N.serving (node 1))
      (composeQuery keywords (realPage indexPoolMax page)) = none) (client : Client) :
    N.search R P client path = none := by
  obtain ⟨decoded, qPage, hdecode, hcut, hnumber⟩ := hsplit
  have hreplies : N.replies P (composeQuery keywords (realPage indexPoolMax page)) = none := by
    have hnodes : (List.range' 1 indexPoolMax).map node = [node 1, node 2, node 3, node 4] := rfl
    rw [replies, h.getLiveQuerier_eq, hnodes, List.mapM_cons, hanswer]
    rfl
  simp only [search, hdecode, hcut, hnumber, hreplies, Option.bind_eq_bind, Option.bind_some,
    Option.bind_none]

/-- A search for the page is answered with ten results: the digests of the documents on it, and then
dummies. -/
def PageShown (R : Runtime) (P : Platform) (N : Network) (node : Nat → Bytes)
    (keywords path : Bytes) (page : Int) : Prop :=
  ∀ client : Client, client.vResponse = [] → ∃ results client',
    N.search R P client path = some ((resultsJson results).dump 1, client') ∧
      client'.vResponse = [] ∧ results.length = 10 ∧
      ∃ dummies, results = (N.shownAt node (wordsOf P keywords) page).map
        (digestOf (N.serving (node (pagePos indexPoolMax page).toNat)).digest) ++
          List.replicate dummies dummyResult

/-- **Paging.** A user goes through the pages, `rounds` times through the partitions, until the
match lists of all partitions are exhausted. Every page is shown, with ten results, and the pages of
each partition show its match list once and in order, exactly if the keywords hold no NUL and no
request fills the buffer of the queriers. -/
theorem paging_iff (h : N.Live R P node blob) {keywords : Bytes} {path : Int → Bytes} {rounds : Nat}
    (hpath : ∀ page : Int, 1 ≤ page → page ≤ 4 * rounds → Splits (path page) keywords page)
    (hrounds : ∀ p, 1 ≤ p → p ≤ 4 →
      (N.matchesOf node (wordsOf P keywords) p).length ≤ 10 * rounds)
    (hlast : rounds = 1 ∨ ∃ p, 1 ≤ p ∧ p ≤ 4 ∧
      10 * (rounds - 1) < (N.matchesOf node (wordsOf P keywords) p).length) :
    ((∀ page : Int, 1 ≤ page → page ≤ 4 * rounds →
        PageShown R P N node keywords (path page) page) ∧
      ∀ p, 1 ≤ p → p ≤ 4 → (pagesOf rounds p).flatMap (N.shownAt node (wordsOf P keywords)) =
        N.matchesOf node (wordsOf P keywords) p) ↔
    NulFree keywords ∧ ∀ page : Int, 1 ≤ page → page ≤ 4 * rounds →
      (composeQuery keywords (realPage indexPoolMax page)).length < bufferSize := by
  have hint : 10 * rounds ≤ 2 ^ 31 := by
    obtain rfl | ⟨p, hp, hp', hlt⟩ := hlast
    · decide
    · have := (h.setUp p hp hp').length_matchList_lt (wordsOf P keywords)
      rw [matchesOf] at hlt
      omega
  have hpos : 0 < rounds := by
    by_contra hzero
    obtain rfl : rounds = 0 := by omega
    obtain hone | ⟨p, hp, hp', hlt⟩ := hlast
    · cases hone
    · have := hrounds p hp hp'
      omega
  constructor
  · rintro ⟨hshown, -⟩
    have hanswered : ∀ page : Int, 1 ≤ page → page ≤ 4 * rounds →
        answerRequest P N.epoch (N.serving (node 1))
          (composeQuery keywords (realPage indexPoolMax page)) ≠ none := by
      intro page h1 h4 hnone
      obtain ⟨results, client', hsearch, -⟩ := hshown page h1 h4 Client.init rfl
      rw [h.search_eq_none (hpath page h1 h4) hnone] at hsearch
      cases hsearch
    refine ⟨?_, fun page h1 h4 => ?_⟩
    · by_contra hnul
      exact hanswered 1 le_rfl (by omega) (answerRequest_of_nul h.epoch hnul _ _)
    · by_contra hlen
      exact hanswered page h1 h4 (if_neg hlen)
  · rintro ⟨hnul, hlen⟩
    refine ⟨fun page h1 h4 client hclient => ?_, fun p hp hp' => ?_⟩
    · obtain ⟨r, p, hr, hp, hp', hpage⟩ := exists_page_eq h1 h4
      obtain ⟨client', hsearch, hresponse⟩ := h.exists_search (hpath page h1 h4) hp hp' hpage
        (by omega) hnul (hlen page h1 h4) hclient
      refine ⟨_, client', hsearch, hresponse, length_pageResults _ _,
        10 - (shownDocs (N.serving (node p)) ⟨wordsOf P keywords, r + 1⟩).length, ?_⟩
      rw [shownAt, pagePos_eq hp hp' hpage, realPage_eq hp hp' hpage, Int.toNat_natCast]
      rfl
    · rw [N.flatMap_shownAt node _ hp hp' hint, List.take_of_length_le (hrounds p hp hp')]

end Network

/-! ## Four queriers with one document each -/

/-- Every partition has one node, and all serve the same one document. -/
def worldNetwork : Network where
  epoch := 3
  lists := [[sampleNode], [sampleNode], [sampleNode], [sampleNode]]
  shuffle := id
  shuffle_perm := List.Perm.refl
  serving _ := worldQuerier

theorem live_worldNetwork : worldNetwork.Live sampleRuntime samplePlatform (fun _ => sampleNode)
    fun _ => worldBlob where
  epoch := le_rfl
  lists := rfl
  port _ _ _ := hasPort_sampleNode
  setUp _ _ _ := setUp_worldBlob

/-- The path of a search for one word. -/
def worldPath (page : Int) : Bytes := ascii "/query/world/page/" ++ toDecimal page

theorem splits_worldPath {page : Int} (h1 : 1 ≤ page) (h4 : page ≤ 4) :
    Splits (worldPath page) (ascii "world") page := by
  have hdecode : urlDecode 0 none (worldPath page) = some (worldPath page) := by
    interval_cases page <;> decide +kernel
  have hcut : splitPath (worldPath page) = some (ascii "world", toDecimal page) := by
    interval_cases page <;> decide +kernel
  have hint : IsInt page := ⟨by omega, by omega⟩
  exact ⟨_, _, hdecode, hcut, by rw [strtol_toDecimal hint, wrapInt_of_isInt hint]⟩

/-- One round through the partitions shows the four documents. -/
theorem paging_worldNetwork :
    (∀ page : Int, 1 ≤ page → page ≤ 4 * (1 : Nat) → Network.PageShown sampleRuntime samplePlatform
      worldNetwork (fun _ => sampleNode) (ascii "world") (worldPath page) page) ∧
    ∀ p, 1 ≤ p → p ≤ 4 → (pagesOf 1 p).flatMap (worldNetwork.shownAt (fun _ => sampleNode)
        (wordsOf samplePlatform (ascii "world"))) =
      worldNetwork.matchesOf (fun _ => sampleNode) (wordsOf samplePlatform (ascii "world")) p := by
  have hsplit : ∀ page : Int, 1 ≤ page → page ≤ 4 * (1 : Nat) →
      Splits (worldPath page) (ascii "world") page := fun page h1 h4 => splits_worldPath h1 h4
  refine (Network.paging_iff live_worldNetwork hsplit (fun p _ _ => ?_) (.inl rfl)).2
    ⟨by decide, fun page h1 h4 => ?_⟩
  · have hmatch : matchList worldQuerier (wordsOf samplePlatform (ascii "world")) = [1] := by
      decide +kernel
    rw [Network.matchesOf, show worldNetwork.serving sampleNode = worldQuerier from rfl, hmatch]
    decide
  · obtain ⟨r, p, hr, hp, hp', hpage⟩ := exists_page_eq h1 h4
    obtain rfl : r = 0 := by omega
    rw [realPage_eq hp hp' hpage, length_composeQuery]
    decide

/-- Keywords with a NUL: the queriers read past the end of the request. -/
theorem nul_keyword_unanswered : ∃ (N : Network) (node blob : Nat → Bytes) (keywords path : Bytes),
    N.Live sampleRuntime samplePlatform node blob ∧ Splits path keywords 1 ∧
    ∀ client, N.search sampleRuntime samplePlatform client path = none := by
  have hsplit : Splits (ascii "/query/%00/page/1") [0] 1 :=
    ⟨ascii "/query/" ++ 0 :: ascii "/page/1", ascii "1", by decide +kernel, by decide +kernel,
      by decide +kernel⟩
  exact ⟨_, _, _, _, _, live_worldNetwork, hsplit, live_worldNetwork.search_eq_none hsplit
    (answerRequest_of_nul le_rfl (by decide) _ _)⟩

end DeSearch
