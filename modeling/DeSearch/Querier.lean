import DeSearch.Enclave
import DeSearch.Kanban

/-!
# The querier

A querier loads the global index of one partition (`ecall_querier_setup`) and answers requests from
it (`ecall_do_query`): the words of a request are looked up, the lists of documents are intersected,
and ten digests of the page asked for are sent back with a witness.

The blob comes from an untrusted store. So the two ways in which a call can go wrong are kept apart
here (`Fault`): an access out of range, after which anything may happen, and an exception that
nobody catches, which ends the process.

`ecall_do_query` looks a word up with `operator[]`, which adds an empty list for an unknown word.
No later lookup can tell, so the tables of the querier are left as they are here (`Session` has the
static variables as they change).
-/

namespace DeSearch

open JSON

/-- How a call can go wrong. -/
inductive Fault where
  /-- a read or a write out of range -/
  | range
  /-- an exception -/
  | exception
deriving DecidableEq

theorem bind_eq_ok {α β : Type} {x : Except Fault α} {f : α → Except Fault β} {b : β} :
    x >>= f = .ok b ↔ ∃ a, x = .ok a ∧ f a = .ok b := by
  cases x with
  | error e => exact iff_of_false (fun h => nomatch h) fun ⟨_, h, _⟩ => nomatch h
  | ok a => exact ⟨fun h => ⟨a, rfl, h⟩, fun ⟨_, ha, h⟩ => by cases ha; exact h⟩

/-! ## Taking a blob apart -/

/-- The `int` at the start of a blob. -/
def loadHeader (blob : Bytes) : Except Fault Int :=
  match readInt blob with
  | none => .error .range
  | some size => .ok size

/-- `Binary2Index`. A negative size becomes a huge one, at which `resize` throws. -/
def loadIndex (bin : Bytes) (size : Int) : Except Fault IndexTbl :=
  if size < 0 then .error .exception
  else
    match binary2Index bin size with
    | none => .error .range
    | some index => .ok index

/-- `Binary2Digest`. -/
def loadDigest (bin : Bytes) : Except Fault (List Bytes) :=
  match binary2Digest bin with
  | none => .error .range
  | some digest => .ok digest

/-- How `ecall_querier_setup` takes a blob apart. -/
def loadBlob (blob : Bytes) : Except Fault (IndexTbl × List Bytes) := do
  let size ← loadHeader blob
  let index ← loadIndex (blob.drop 4) size
  let digest ← loadDigest ((blob.drop 4).drop size.toNat)
  return (index, digest)

/-- How `ecall_do_merge` takes two blobs apart, in its order. -/
def loadBoth (index1 index2 : Bytes) :
    Except Fault ((IndexTbl × List Bytes) × (IndexTbl × List Bytes)) := do
  let indexSz1 ← loadHeader index1
  let indexSz2 ← loadHeader index2
  let indexTbl1 ← loadIndex (index1.drop 4) indexSz1
  let indexTbl2 ← loadIndex (index2.drop 4) indexSz2
  let digestTbl1 ← loadDigest ((index1.drop 4).drop indexSz1.toNat)
  let digestTbl2 ← loadDigest ((index2.drop 4).drop indexSz2.toNat)
  return ((indexTbl1, digestTbl1), (indexTbl2, digestTbl2))

/-! ## Setup -/

/-- The static variables of the querier's enclave. -/
structure Querier where
  index : IndexTbl
  digest : List Bytes
  /-- `querier_context_template` -/
  context : WitnessContext

/-- WITNESS: Part-1. -/
def querierContext (C : Crypto) (blob : Bytes) : WitnessContext :=
  witnessInput C (witnessInit .fresh (ascii "STEEMIT QUERIER")) blob

/-- `ecall_querier_setup`. -/
def ecallQuerierSetup (C : Crypto) (blob : Bytes) : Except Fault Querier := do
  let (index, digest) ← loadBlob blob
  return ⟨index, digest, querierContext C blob⟩

/-! ## Requests -/

/-- What a request asks for. -/
structure Query where
  /-- `q_wordID_list`, at most 32 words -/
  words : List DWord
  page : Int
deriving DecidableEq

/-- STEP 0 and STEP 1. A request without keywords or page is not answered. -/
def parseRequest (P : Platform) (request : Bytes) : Except Fault (Option Query) :=
  match load P.runtime (cString request) with
  | none => .error .exception
  | some j =>
      let keywords := (j.get (ascii "keywords")).dump 1
      let page := trimString ((j.get (ascii "page")).dump 1)
      if keywords = [] ∨ page = [] then .ok none
      else .ok (some ⟨(P.tokens keywords).take 32, wrapInt (strtol page)⟩)

/-! ## Documents -/

/-- `set_intersection` while the first range stands at `a`. -/
def advance (a : DWord) (rest : List DWord → List DWord) : List DWord → List DWord
  | [] => []
  | b :: v2 =>
      if a < b then rest (b :: v2) else if b < a then advance a rest v2 else a :: rest v2

/-- `intersection`, which is `set_intersection` of two vectors. -/
def intersection : List DWord → List DWord → List DWord
  | [] => fun _ => []
  | a :: v1 => advance a (intersection v1)

/-- STEP 3: `_this_vec` is assigned anew in each turn, from the list of this turn and the one
before. -/
def intersectLists (thisVec : List DWord) : Option (List DWord) → List (List DWord) → List DWord
  | _, [] => thisVec
  | none, docIDs :: lists => intersectLists docIDs (some docIDs) lists
  | some prev, docIDs :: lists => intersectLists (intersection prev docIDs) (some docIDs) lists

/-- STEP 4: the docIDs of the page. The offset is an `int`; if it overflowed, the first read is
before the start of the vector. -/
def pageDocs (docIDs : List DWord) (page : Int) : Except Fault (List DWord) :=
  let start := wrapInt ((page - 1) * 10)
  -- a vector without elements has no storage, and no offset is below the end of it
  if docIDs = [] then .ok []
  else if start < docIDs.length then
    if start < 0 then .error .range else .ok ((docIDs.drop start.toNat).take 10)
  else .ok []

/-- `q_digest_tbl[docID - 1]`. -/
def digestAt (digest : List Bytes) (docID : DWord) : Except Fault Bytes :=
  match digest[(docID - 1).toNat]? with
  | none => .error .range
  | some di => .ok di

/-- The dummy result of STEP 5. -/
def dummyResult : Bytes := List.replicate digestMaxLength (ch 'X')

/-- STEP 4 and STEP 5, with the way a digest is fetched as a parameter: ten results. -/
def tenResults (fetch : DWord → Except Fault Bytes) (docIDs : List DWord) (page : Int) :
    Except Fault (List Bytes) := do
  let shown ← pageDocs docIDs page
  let found ← shown.mapM fetch
  return found ++ List.replicate (10 - found.length) dummyResult

/-- STEP 2 to STEP 5. -/
def queryResults (q : Querier) (query : Query) : Except Fault (List Bytes) :=
  tenResults (digestAt q.digest) (intersectLists [] none (query.words.map q.index.find)) query.page

/-! ## Responses -/

/-- The results as JSON. -/
def resultsJson (results : List Bytes) : JSON :=
  null.set (ascii "results") (array (results.zipIdx.map fun r =>
    (null.set (ascii "number") (string (toDecimal (r.2 + 1)))).set (ascii "answer") (string r.1)))

/-- WITNESS: Part-2. -/
def querierWitness (C : Crypto) (context : WitnessContext) (request response : Bytes) : Bytes :=
  (witnessFinalize C (witnessFunc C (witnessOutput C (witnessInput C context request) response)
    (ascii "querier" ++ [0]))).2.getD []

/-- The results and their witness in one text. -/
def finalResponse (P : Platform) (context : WitnessContext) (request : Bytes)
    (results : List Bytes) : Except Fault Bytes :=
  match load P.runtime
      (querierWitness P.crypto context request ((resultsJson results).dump 1)) with
  | none => .error .exception
  | some witness =>
      let response := null.set (ascii "response") (resultsJson results)
      .ok ((response.set (ascii "witness") witness).dump 1)

/-- `ecall_do_query`: the contents of the response buffer. -/
def ecallDoQuery (P : Platform) (q : Querier) (request : Bytes) (responseSize : Nat) :
    Except Fault Bytes := do
  match ← parseRequest P request with
  | none => return []
  | some query =>
      let results ← queryResults q query
      let finalAll ← finalResponse P q.context request results
      return copyOut responseSize finalAll

/-- A querier that is set up and then serves some requests, each with the size of the buffer for
the response. -/
def serve (P : Platform) (blob : Bytes) (requests : List (Bytes × Nat)) :
    Except Fault (List Bytes) := do
  let q ← ecallQuerierSetup P.crypto blob
  requests.mapM fun r => ecallDoQuery P q r.1 r.2

end DeSearch
