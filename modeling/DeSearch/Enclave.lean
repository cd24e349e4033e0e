import DeSearch.Codec
import DeSearch.Tokens
import DeSearch.WitnessProof

/-!
# The three enclave calls of the pipeline

`ecall_parse_items` turns downloaded blocks into documents, `ecall_build_index` turns documents
into an index blob, and `ecall_do_merge` merges a blob into the global one. Each writes its
output and its witness into buffers of the caller, and only if they fit.

A call that runs into undefined behaviour, or leaves an exception uncaught, has no result. What
the code takes from elsewhere is a parameter (`Platform`): the tokenizer with its CRC and the
wordIDs of the stop words. The order in which a hash map is enumerated depends on the build of the
library and on what the process did before, so every call has its own.
-/

namespace DeSearch

open JSON

/-- What an enclave is linked against. -/
structure Platform where
  runtime : Runtime
  crypto : Crypto
  /-- The wordIDs the tokenizer and `sphCRC32` find in a document, in order. -/
  tokens : Bytes → List DWord
  /-- The wordIDs that `build_index` erases. -/
  stop : List DWord

/-- What a zeroed buffer of the caller holds after the call, up to trailing zeros: the result is
copied only if it is smaller than the buffer. -/
def copyOut (size : Nat) (result : Bytes) : Bytes :=
  if result.length < size then result else []

/-- The first `n` bytes of a zeroed buffer of `size` bytes with the given contents. -/
def readOut (size : Nat) (contents : Bytes) (n : Nat) : Option Bytes :=
  if n ≤ size then some ((contents ++ List.replicate size 0).take n) else none

theorem readOut_copyOut {size : Nat} {result : Bytes} (h : result.length < size) :
    readOut size (copyOut size result) result.length = some result := by
  rw [readOut, if_pos h.le, copyOut, if_pos h, List.take_left' rfl]

variable (P : Platform)

/-! ## Crawler -/

/-- The text of one `comment_operation`. -/
def postText (post : JSON) : Bytes :=
  ((post.get (ascii "value")).get (ascii "title")).toStr ++ ascii "  " ++
    ((post.get (ascii "value")).get (ascii "body")).toStr

/-- The posts of one parsed block. -/
def blockPosts (item : JSON) : List Bytes :=
  let transactions := ((item.get (ascii "result")).get (ascii "block")).get (ascii "transactions")
  transactions.arrayRange.flatMap fun txn =>
    (txn.get (ascii "operations")).arrayRange.filterMap fun post =>
      if (post.get (ascii "type")).toStr = ascii "comment_operation" then some (postText post)
      else none

/-- The posts of all blocks, or a hash of the first block if there are none. -/
def postCandidates (items : List JSON) : Option (List Bytes) :=
  match items.flatMap blockPosts with
  | [] => items.head?.map fun item => [P.crypto.sha256 (item.dump 1)]
  | posts => some posts

/-- `parse_steemit_item`. -/
def parseSteemitItem (inputs : List Bytes) : Option Bytes := do
  let items ← inputs.mapM (load P.runtime)
  let posts ← postCandidates P items
  return (array (posts.map string)).dump 1

/-- `create_cralwer_witness`. -/
def createCralwerWitness (inputs : List Bytes) (output : Bytes) : Bytes :=
  createWitness P.crypto (ascii "STEEMIT CRAWLER") (ascii "cralwer") inputs output

/-- `ecall_parse_items`: the contents of the two buffers. -/
def ecallParseItems (appInput : Bytes) (appOutputSize appWitnessSize : Nat) :
    Option (Bytes × Bytes) := do
  let items ← binary2Digest appInput
  let output ← parseSteemitItem P items
  return (copyOut appOutputSize output,
    copyOut appWitnessSize (createCralwerWitness P items output))

/-! ## Indexer -/

/-- `DIGEST_MAX_LENGTH`. -/
def digestMaxLength : Nat := 256

/-- One turn of the loop of `yield_index`: the docID is appended, and taken off again if it
stands there twice. -/
def appendDoc (docID : DWord) (docs : List DWord) : List DWord :=
  if docs.getLast? = some docID then docs else docs ++ [docID]

/-- `yield_index`. -/
def yieldIndex (tbl : IndexTbl) (docID : Nat) (doc : Bytes) : IndexTbl :=
  (P.tokens doc).foldl (fun tbl wordID => tbl.alter wordID (appendDoc (BitVec.ofNat 32 docID))) tbl

/-- The loop of `build_index` over the documents. -/
def yieldAll (tbl : IndexTbl) (docID : Nat) : List Bytes → IndexTbl
  | [] => tbl
  | doc :: docs => yieldAll (yieldIndex P tbl docID doc) (docID + 1) docs

/-- The index `build_index` leaves: every document, without the stop words. -/
def indexOf (docs : List Bytes) : IndexTbl :=
  P.stop.foldl Multimap.erase (yieldAll P Multimap.empty 1 docs)

/-- The documents of a list of item batches, each a JSON array. -/
def documents (inputs : List Bytes) : Option (List Bytes) :=
  (inputs.mapM (load P.runtime)).map fun batches =>
    batches.flatMap fun batch => batch.arrayRange.map fun item => trimString (item.dump 1)

/-- `build_index`: the digest table and the index. -/
def buildIndex (inputs : List Bytes) : Option (List Bytes × IndexTbl) :=
  (documents P inputs).map fun docs => (docs.map (List.take digestMaxLength), indexOf P docs)

/-- `create_indexer_witness`. -/
def createIndexerWitness (inputs : List Bytes) (index : Bytes) : Bytes :=
  createWitness P.crypto (ascii "STEEMIT INDEXER") (ascii "indexer") inputs index

/-- `ecall_build_index`: the contents of the output buffer, the size it reports, and the
contents of the witness buffer. -/
def ecallBuildIndex (O : HashOrder) (indexInputs : Bytes)
    (indexOutputSize indexWitnessSize : Nat) : Option (Bytes × Nat × Bytes) := do
  let inputs ← binary2Digest indexInputs
  let (digestTbl, indexTbl) ← buildIndex P inputs
  let output := merge2Binary O digestTbl indexTbl
  return (copyOut indexOutputSize output, output.length,
    copyOut indexWitnessSize (createIndexerWitness P inputs output))

/-! ## Reducer -/

/-- The merged index: the docIDs of the second table move behind the documents of the first. -/
def mergeIndex (O : HashOrder) (indexTbl1 indexTbl2 : IndexTbl) (offset : Nat) : IndexTbl :=
  indexTbl1.pushAll ((Multimap.pushesOf (O.enum indexTbl2)).map fun p =>
    (p.1, p.2 + BitVec.ofNat 32 offset))

/-- `create_reducer_witness`. -/
def createReducerWitness (index1 index2 newIndex : Bytes) : Bytes :=
  createWitness P.crypto (ascii "STEEMIT REDUCER") (ascii "reducer") [index1, index2] newIndex

/-- `ecall_do_merge`: the contents of the output buffer, the size it reports, and the contents
of the witness buffer. -/
def ecallDoMerge (O : HashOrder) (index1 index2 : Bytes) (newSz reducerWitnessSize : Nat) :
    Option (Bytes × Nat × Bytes) := do
  let (indexTbl1, digestTbl1) ← readBlob index1
  let (indexTbl2, digestTbl2) ← readBlob index2
  let newIndex := merge2Binary O (digestTbl1 ++ digestTbl2)
    (mergeIndex O indexTbl1 indexTbl2 digestTbl1.length)
  return (copyOut newSz newIndex, newIndex.length,
    copyOut reducerWitnessSize (createReducerWitness P index1 index2 newIndex))

/-! ## The calls as the executors make them -/

/-- `WITNESS_MAX_LENGTH`. -/
def witnessMaxLength : Nat := 2 ^ 20

/-- `OUTPUT_MAX_LENGTH`. -/
def outputMaxLength : Nat := 16 * 1024 * 1024

/-- `INDEX_OUTPUT_MAX_LENGTH`. -/
def indexOutputMaxLength : Nat := 64 * 1024 * 1024

/-- `REDUCER_OUTPUT_MAX_LENGTH`. -/
def reducerOutputMaxLength : Nat := 256 * 1024 * 1024

/-- What an executor has in hand after a call: the value it will put under the key of the shard,
and the text of the witness. -/
structure Output where
  data : Bytes
  witness : Bytes
deriving DecidableEq

/-- The call of `do_crawl`; both buffers are read as C strings. -/
def crawlCall (itemCandidates : List Bytes) : Option Output :=
  (ecallParseItems P (digest2Binary itemCandidates) outputMaxLength witnessMaxLength).map
    fun (output, witness) => ⟨cString output, cString witness⟩

/-- The call of `do_index` on the values of four item batches, each taken as a C string. -/
def indexCall (O : HashOrder) (items : List Bytes) : Option Output := do
  let (output, size, witness) ← ecallBuildIndex P O (digest2Binary (items.map cString))
    indexOutputMaxLength witnessMaxLength
  let data ← readOut indexOutputMaxLength output size
  return ⟨data, cString witness⟩

/-- The call of `do_reduce`. -/
def mergeCall (O : HashOrder) (globalIndex newIndex : Bytes) : Option Output := do
  let (output, size, witness) ← ecallDoMerge P O globalIndex newIndex reducerOutputMaxLength
    witnessMaxLength
  let data ← readOut reducerOutputMaxLength output size
  return ⟨data, cString witness⟩

/-! ## A platform to run the model on -/

theorem length_sigToString (sig : Bytes) : (sigToString sig).length = 2 * sig.length := by
  rw [sigToString, List.length_flatMap]
  simp [Nat.mul_comm]

/-- The low `k` bytes of a number. -/
def natBytes (k n : Nat) : Bytes := (List.range k).map fun i => Fin.ofNat 256 (n / 256 ^ i)

/-- A polynomial of the bytes of a message. -/
def fingerprint (m : Bytes) : Nat := m.foldl (fun h b => (257 * h + b.val + 1) % 2 ^ 256) 0

theorem length_natBytes_fingerprint : ∀ m, (natBytes 64 (fingerprint m)).length = 64 := by
  simp [natBytes]

theorem decide_fingerprint :
    ∀ m, decide (natBytes 64 (fingerprint m) = natBytes 64 (fingerprint m)) = true := by
  simp

/-- A stand-in for the cryptography, without collisions on the messages it is used on here. -/
def sampleCrypto : Crypto where
  sha256 m := sigToString (natBytes 32 (fingerprint m))
  sign m := natBytes 64 (fingerprint m)
  verify m sig := sig = natBytes 64 (fingerprint m)
  sha256_hex _ _ hc := isHex_of_mem_sigToString hc
  sha256_length m := by simp [length_sigToString, natBytes]
  sign_length := length_natBytes_fingerprint
  verify_sign := decide_fingerprint

/-- A stand-in for the C++ runtime, on which no `double` is ever printed. The allocator is glibc's:
buffers are made up to 24, 40, 56, ... bytes. -/
def sampleRuntime : Runtime where
  double _ _ := none
  scaled _ _ := ⟨ascii "0.000000", by decide, by decide +kernel⟩
  past _ _ := 0
  spare n := n < 24 || n % 16 != 8

/-- Words as the tokenizer finds them in plain text, and one of the stop words. -/
def samplePlatform : Platform where
  runtime := sampleRuntime
  crypto := sampleCrypto
  tokens doc := (wordsIn doc).map sphCRC32
  stop := [sphCRC32 (ascii "the")]

/-- Hash maps in the order of insertion. -/
def insertionOrder : HashOrder := ⟨fun tbl => tbl.entries, fun _ => List.Perm.refl _⟩

end DeSearch
