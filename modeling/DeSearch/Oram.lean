import DeSearch.Lib.Blocks
import DeSearch.Querier
import DeSearch.Vlb

/-!
# The ORAM querier

`oram_enclave_querier.cpp` serves the same requests as the plain querier, but keeps digests and
posting lists in two ORAM instances. Two digests share a block. The posting lists, encoded as in
`Vlb.lean`, lie one behind the other, and each word knows where its list starts and how long it is.

An ORAM instance is an array of blocks here. It is created for a fixed number of them, and an
access with an id beyond that number is out of range.
-/

namespace DeSearch

/-! ## Blocks -/

/-- `DIGEST_LENGTH` and `INDEX_BLOCK_SIZE`. -/
def blockSize : Nat := 512

/-- `DIGEST_BLOCK_NUM`. -/
def digestBlockNum : Nat := 1024 * 16

/-- `INDEX_BLOCK_NUM`. -/
def indexBlockNum : Nat := 1024 * 8

/-- An ORAM instance. -/
structure Oram where
  /-- `maxBlocks` -/
  count : Nat
  blocks : Nat → Bytes

/-- The data that `Block::reset` fills in. -/
def resetData (dataSize : Nat) : Bytes :=
  (List.range (dataSize - 1)).map (fun i => Fin.ofNat 256 (i % 26 + 65)) ++ [0]

namespace Oram

/-- `createNewORAMInstance`. -/
def create (count : Nat) : Oram := ⟨count, fun _ => resetData blockSize⟩

/-- `myZT_Access` with `'w'`. -/
def write (oram : Oram) (id : Nat) (block : Bytes) : Except Fault Oram :=
  if id < oram.count then .ok { oram with blocks := Function.update oram.blocks id block }
  else .error .range

/-- `myZT_Access` with `'r'`. -/
def read (oram : Oram) (id : Nat) : Except Fault Bytes :=
  if id < oram.count then .ok (oram.blocks id) else .error .range

end Oram

/-! ## Setup -/

/-- The 256 bytes from `data()` on, also where the string is shorter. -/
def halfBlock (R : Runtime) (di : Bytes) : Bytes := Blocks.cells (dataAt R di) 0 (blockSize / 2)

/-- The loop of `create_digest_oram` from `block_id` on, and the write behind it. `data_in` keeps
its contents from turn to turn. -/
def storeDigests (R : Runtime) (oram : Oram) (blockId : Nat) (dataIn : Bytes) :
    List Bytes → Except Fault Oram
  | [] => oram.write (blockId / 2) dataIn
  | di :: digest =>
      if blockId % 2 = 0 then
        storeDigests R oram (blockId + 1) (halfBlock R di ++ dataIn.drop (blockSize / 2)) digest
      else do
        let dataIn := dataIn.take (blockSize / 2) ++ halfBlock R di
        let oram ← oram.write (blockId / 2) dataIn
        storeDigests R oram (blockId + 1) dataIn digest

/-- `create_digest_oram`. -/
def createDigestOram (R : Runtime) (digest : List Bytes) : Except Fault Oram :=
  storeDigests R (.create digestBlockNum) 0 (List.replicate blockSize 0) digest

/-- The buffers of `vlb_index_tbl` in the order of its enumeration. A word without docIDs has no
entry there. -/
def vlbRecords (O : HashOrder) (index : IndexTbl) : List (DWord × Bytes) :=
  ((O.enum index).filter fun p => p.2 ≠ []).map fun p => (p.1, (VlbCoder.zipAll p.2).marshall)

/-- `g_offset` and `g_length`. -/
def layout (offset : Nat) : List (DWord × Bytes) → List (DWord × Nat × Nat)
  | [] => []
  | (wordID, buf) :: records =>
      (wordID, offset, buf.length) :: layout (offset + buf.length) records

/-- The linear buffer `temp`. -/
def linear (records : List (DWord × Bytes)) : Bytes := records.flatMap Prod.snd

/-- The last loop of `create_index_oram`. `temp` has one zero byte at its end, and the last block
may go beyond that. -/
def storeIndex (R : Runtime) (temp : Bytes) : Except Fault Oram :=
  (List.range (temp.length / blockSize + 1)).foldlM
    (fun oram blockId =>
      oram.write blockId (Blocks.cells (dataAt R temp) (blockId * blockSize) blockSize))
    (.create indexBlockNum)

/-- The static variables of the ORAM querier's enclave. -/
structure OramQuerier where
  digestOram : Oram
  indexOram : Oram
  layout : List (DWord × Nat × Nat)
  /-- `querier_context_template` -/
  context : WitnessContext

/-- `ecall_querier_setup` of the ORAM querier. -/
def oramQuerierSetup (P : Platform) (O : HashOrder) (blob : Bytes) : Except Fault OramQuerier := do
  let (index, digest) ← loadBlob blob
  let digestOram ← createDigestOram P.runtime digest
  let indexOram ← storeIndex P.runtime (linear (vlbRecords O index))
  return ⟨digestOram, indexOram, layout 0 (vlbRecords O index), querierContext P.crypto blob⟩

/-! ## Queries -/

/-- `data_out`: the blocks from `block_start` to `block_end`. -/
def readBlocks (oram : Oram) (blockStart blockEnd : Nat) : Except Fault Bytes := do
  let blocks ← (List.range (blockEnd - blockStart + 1)).mapM fun k => oram.read (blockStart + k)
  return blocks.flatten

/-- A decoder that runs out of its buffer is a fault. -/
def orRange {α : Type} : Option α → Except Fault α
  | none => .error .range
  | some a => .ok a

/-- `unmarshall_buffer_VLB` and `Dump_VLB`. -/
def decodeList (buffer : Bytes) : Except Fault (List DWord) :=
  orRange ((VlbCoder.unmarshall buffer).bind VlbCoder.dumpVlb)

/-- STEP 2 for one word. A word without an entry has length zero. -/
def oramLookup (q : OramQuerier) (wordID : DWord) : Except Fault (List DWord) :=
  match q.layout.lookup wordID with
  | none => .ok []
  | some (offset, length) =>
      if length = 0 then .ok []
      else do
        let dataOut ← readBlocks q.indexOram (offset / blockSize) ((offset + length) / blockSize)
        decodeList ((dataOut.drop (offset % blockSize)).take length)

/-- STEP 4 for one docID. `data_result` has a zero behind its 256 bytes. -/
def oramDigestAt (q : OramQuerier) (docID : DWord) : Except Fault Bytes := do
  let blockId := (docID - 1).toNat
  let dataOut ← q.digestOram.read (blockId / 2)
  return cString ((dataOut.drop (blockSize / 2 * (blockId % 2))).take (blockSize / 2))

/-- STEP 2 to STEP 5. -/
def oramResults (q : OramQuerier) (query : Query) : Except Fault (List Bytes) := do
  let docIDLists ← query.words.mapM (oramLookup q)
  tenResults (oramDigestAt q) (intersectLists [] none docIDLists) query.page

/-- `ecall_do_query` of the ORAM querier. -/
def oramDoQuery (P : Platform) (q : OramQuerier) (request : Bytes) (responseSize : Nat) :
    Except Fault Bytes := do
  match ← parseRequest P request with
  | none => return []
  | some query =>
      let results ← oramResults q query
      let finalAll ← finalResponse P q.context request results
      return copyOut responseSize finalAll

/-- An ORAM querier that is set up and then serves some requests. -/
def oramServe (P : Platform) (O : HashOrder) (blob : Bytes) (requests : List (Bytes × Nat)) :
    Except Fault (List Bytes) := do
  let q ← oramQuerierSetup P O blob
  requests.mapM fun r => oramDoQuery P q r.1 r.2

end DeSearch
