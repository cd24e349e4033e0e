import DeSearch.Lib.HeapPath
import DeSearch.Oram

/-!
# The Circuit ORAM

The ORAM instances of the querier are trees of buckets that lie outside the enclave
(`ZeroTrace/CircuitORAM_Enclave.cpp`), here as the querier creates them: with one level of recursion
and the oblivious flag set. A block has a label, the leaf to whose path it belongs, and `posmap`
knows the label of each id. An access reads the path of the block's label, takes the block out,
gives it a fresh label and puts it into the stash. Two evictions then move blocks from the stash and
the upper levels down the paths of two other leaves, one block at a time and into free slots only.

Buckets are numbered as in a heap: the root is 1, the children of `n` are `2n` and `2n + 1`, and the
leaves are `N` to `2N - 1`. So the bucket `j` levels above a leaf is `leaf >>> j`. The stash counts
as level 0 of a path, the root as level 1 and the leaf as level `D`. The registers that the source
sets to -1 are `none` here. The host is taken to be honest: encryption and hashes are left out.
-/

namespace DeSearch

/-! ## Blocks and parameters -/

/-- A serialized block without its nonce. -/
structure OramBlock where
  id : Nat
  treeLabel : Nat
  data : Bytes
deriving DecidableEq

/-- What `createNewORAMInstance` is given. -/
structure CircuitParams where
  /-- `Z` -/
  z : Nat
  /-- `max_blocks_level[0]`, which is also `gN`, the id of dummy blocks -/
  maxBlocks : Nat
  /-- `data_size` -/
  dataSize : Nat
  /-- `stash_size` -/
  stashSize : Nat
  z_pos : 0 < z
  /-- The blocks need more than one leaf. With a single one, `firstkbits` would shift a word by its
  whole width. -/
  z_lt : z < maxBlocks

/-- The logarithm to base two, rounded up. -/
def ceilLog (n : Nat) : Nat := if n ≤ 1 then 0 else Nat.log2 (n - 1) + 1

namespace CircuitParams

/-- `pD` of `BuildTreeLevel`. -/
def pD (p : CircuitParams) : Nat := ceilLog ((p.maxBlocks + p.z - 1) / p.z)

/-- `N_level[0]`: the number of leaves, and the bucket of the first leaf. -/
def leaves (p : CircuitParams) : Nat := 2 ^ p.pD

/-- `D_level[0]`: the number of buckets on a path. -/
def depth (p : CircuitParams) : Nat := p.pD + 1

/-- The instance of `create_digest_oram`. -/
def digest : CircuitParams := ⟨2, digestBlockNum, blockSize, 10, Nat.two_pos, by decide⟩

/-- The instance of `create_index_oram`. -/
def index : CircuitParams := ⟨2, indexBlockNum, blockSize, 10, Nat.two_pos, by decide⟩

end CircuitParams

namespace OramBlock

/-- `isBlockDummy`. -/
def IsDummy (gN : Nat) (b : OramBlock) : Prop := b.id = gN

instance (gN : Nat) : DecidablePred (IsDummy gN) := fun b => inferInstanceAs (Decidable (b.id = gN))

/-- `oset_block_as_dummy`. -/
def asDummy (gN : Nat) (b : OramBlock) : OramBlock := { b with id := gN }

end OramBlock

/-! ## The tree at the start -/

namespace CircuitParams
variable (p : CircuitParams)

/-- `Block::reset`. -/
def dummy : OramBlock where
  id := p.maxBlocks
  treeLabel := 0
  data := resetData p.dataSize

/-- `blocks_in_this_bucket` of the `j`-th leaf. The first `c` buckets get one block more. -/
def blocksIn (j : Nat) : Nat :=
  p.maxBlocks / p.leaves + if j < p.maxBlocks % p.leaves then 1 else 0

/-- `label` before the `j`-th leaf: the number of blocks in the leaves before it. -/
def firstLabel (j : Nat) : Nat := p.maxBlocks / p.leaves * j + min j (p.maxBlocks % p.leaves)

/-- The leaf that gets a block. -/
def leafOf (id : Nat) : Nat :=
  if id < (p.maxBlocks / p.leaves + 1) * (p.maxBlocks % p.leaves) then
    id / (p.maxBlocks / p.leaves + 1)
  else (id - p.maxBlocks % p.leaves) / (p.maxBlocks / p.leaves)

/-- The bucket of the `j`-th leaf. -/
def leafBucket (j : Nat) : List OramBlock :=
  (List.range p.z).map fun q =>
    if q < p.blocksIn j then { p.dummy with id := p.firstLabel j + q, treeLabel := p.leaves + j }
    else p.dummy

/-- The buckets that `BuildTreeLevel` uploads. -/
def buildTree (i : Nat) : List OramBlock :=
  if p.leaves ≤ i ∧ i < 2 * p.leaves then p.leafBucket (i - p.leaves)
  else if 1 ≤ i ∧ i < p.leaves then List.replicate p.z p.dummy
  else []

end CircuitParams

/-- An ORAM instance with the storage of its tree. -/
structure CircuitState where
  /-- The buckets that the host keeps. -/
  tree : Nat → List OramBlock
  /-- `recursive_stash[0]` -/
  stash : List OramBlock
  posmap : Nat → Nat
  /-- `access_counter[0]` -/
  accessCounter : BitVec 32
  /-- `serialized_result_block` -/
  resultBlock : OramBlock

/-- `Initialize`. The result block is not initialised. -/
def CircuitParams.initialized (p : CircuitParams) (raw : OramBlock) : CircuitState where
  tree := p.buildTree
  stash := List.replicate p.stashSize p.dummy
  posmap := fun id => p.leaves + p.leafOf id
  accessCounter := 0
  resultBlock := raw

/-! ## Paths -/

/-- `downloadPath`: the buckets from the leaf up to the root. -/
def downloadPath (D leaf : Nat) (tree : Nat → List OramBlock) : List (List OramBlock) :=
  HeapPath.read tree D leaf

/-- `uploadPath`. -/
def uploadPath (D leaf : Nat) (path : List (List OramBlock)) (tree : Nat → List OramBlock) :
    Nat → List OramBlock :=
  HeapPath.write tree D leaf path

/-! ## Eviction -/

/-- The order in which a level is scanned: the stash from its start, buckets from their last block,
as the pointer runs backwards through the path. -/
def scanned (level : Nat) (blocks : List OramBlock) : List OramBlock :=
  if level = 0 then blocks else blocks.reverse

/-- Where the `k`-th block of the scan lies in its level. -/
def slotOf (level : Nat) (blocks : List OramBlock) (k : Nat) : Nat :=
  if level = 0 then k else blocks.length - 1 - k

/-- A level of the path with its entries of `deepest` and `deepest_position`. -/
structure LevelInfo where
  level : Nat
  blocks : List OramBlock
  deepest : Option Nat
  position : Option Nat

/-- The registers of `prepare_deepest`, `deepest_position[i]` among them. -/
structure DeepestRegs where
  localDeepest : Nat
  goal : Option Nat
  src : Option Nat
  position : Option Nat
  positionInPath : Nat

/-- `goal` and `src` are given up where the goal is reached. -/
def DeepestRegs.reach (r : DeepestRegs) (i : Nat) : DeepestRegs :=
  if r.goal = some i then { r with src := none, goal := none } else r

section
variable (D gN leaf : Nat)

/-- One turn of the loop over `j`, for the `k`-th block of a level. -/
def matchLabel (k : Nat) (b : OramBlock) (r : DeepestRegs) (j : Nat) : DeepestRegs :=
  if b.treeLabel >>> j = leaf >>> j ∧ ¬b.IsDummy gN ∧ r.localDeepest < b.treeLabel >>> j then
    { r with localDeepest := b.treeLabel >>> j, position := some k, positionInPath := D - j }
  else r

/-- The `k`-th block of level `i`. `position_in_path > goal` compares unsigned numbers, so that it
is false if `goal` is -1; the comparison behind it is signed. -/
def scanBlock (i : Nat) (r : DeepestRegs) (bk : OramBlock × Nat) : DeepestRegs :=
  let r := { r with positionInPath := 0 }
  let r := (List.range (D - i)).foldl (matchLabel D gN leaf bk.2 bk.1) r
  let r := if r.goal.any (· < r.positionInPath) then { r with position := some bk.2 } else r
  if r.goal.all (· < r.positionInPath) ∧ i < r.positionInPath then
    { r with src := some i, goal := some r.positionInPath }
  else r

/-- The registers after level `i`. -/
def scanLevel (i : Nat) (r : DeepestRegs) (blocks : List OramBlock) : DeepestRegs :=
  (scanned i blocks).zipIdx.foldl (scanBlock D gN leaf i) { r.reach i with position := none }

/-- `prepare_deepest` from level `i` on. -/
def prepareDeepest : Nat → DeepestRegs → List (List OramBlock) → List LevelInfo
  | _, _, [] => []
  | i, r, blocks :: levels =>
      let deepest := if r.goal.any (i ≤ ·) then r.src else none
      let r := scanLevel D gN leaf i r blocks
      ⟨i, blocks, deepest, r.position⟩ :: prepareDeepest (i + 1) r levels

/-- `prepare_target`: `target`, and the registers `src` and `dest`. The loop runs from the leaf to
the root. -/
def prepareTarget : List LevelInfo → List (Option Nat) × Option Nat × Option Nat
  | [] => ([], none, none)
  | info :: infos =>
      let (targets, src, dest) := prepareTarget infos
      let target := if src = some info.level then dest else none
      let (src, dest) := if src = some info.level then (none, none) else (src, dest)
      let empty := ∃ b ∈ info.blocks, b.IsDummy gN
      if info.level ≠ 0 ∧ dest = none ∧ empty ∧ info.deepest ≠ none then
        (target :: targets, info.deepest, some info.level)
      else (target :: targets, src, dest)

/-- `target_position`: the first free slot of a bucket. -/
def targetPosition (info : LevelInfo) : Option Nat :=
  if info.level = 0 then none else info.blocks.findIdx? (fun b => b.IsDummy gN)

/-- The registers of `EvictOnceFast`: `hold` with the block that is held, `dest`, and `write_flag`
with the block to write. -/
structure EvictRegs where
  held : Option OramBlock
  dest : Option Nat
  write : Option OramBlock

/-- A block that is held for this level is to be written. -/
def EvictRegs.arrive (e : EvictRegs) (level : Nat) : EvictRegs :=
  if e.held ≠ none ∧ e.dest = some level then ⟨none, none, e.held⟩ else e

/-- The block that is taken from a level, and what it leaves. -/
def takeBlock (info : LevelInfo) (target : Option Nat) (held : Option OramBlock) :
    Option (OramBlock × List OramBlock) :=
  info.position.bind fun k =>
    (scanned info.level info.blocks)[k]?.bind fun b =>
      if target ≠ none ∧ (if info.level = 0 then ¬b.IsDummy gN else held = none) then
        some (b, info.blocks.set (slotOf info.level info.blocks k) (b.asDummy gN))
      else none

/-- The registers and the level after the scan for a block to take. -/
def pickUp (info : LevelInfo) (target : Option Nat) (e : EvictRegs) :
    EvictRegs × List OramBlock :=
  match takeBlock gN info target e.held with
  | some (b, blocks) => (⟨some b, target, e.write⟩, blocks)
  | none => (⟨e.held, if target ≠ none then target else e.dest, e.write⟩, info.blocks)

/-- The registers and the level after the block to write has been written. -/
def putDown (info : LevelInfo) (e : EvictRegs) (blocks : List OramBlock) :
    EvictRegs × List OramBlock :=
  match e.write, targetPosition gN info with
  | some b, some k => (⟨e.held, e.dest, none⟩, blocks.set k b)
  | _, _ => (e, blocks)

/-- One turn of `EvictOnceFast`. -/
def evictLevel (info : LevelInfo) (target : Option Nat) (e : EvictRegs) :
    EvictRegs × List OramBlock :=
  let (e, blocks) := pickUp gN info target (e.arrive info.level)
  putDown gN info e blocks

/-- `EvictOnceFast`. -/
def evictOnceFast : EvictRegs → List LevelInfo → List (Option Nat) → List (List OramBlock)
  | e, info :: infos, target :: targets =>
      let (e, blocks) := evictLevel gN info target e
      blocks :: evictOnceFast e infos targets
  | _, _, _ => []

/-- The levels of a path after an eviction, the stash first. -/
def evictLevels (levels : List (List OramBlock)) : List (List OramBlock) :=
  let infos := prepareDeepest D gN leaf 0 ⟨0, none, none, none, 0⟩ levels
  evictOnceFast gN ⟨none, none, none⟩ infos (prepareTarget gN infos).1

end

/-- `reverseBits`. -/
def reverseBits (n : BitVec 32) : BitVec 32 :=
  let n := (n >>> 1) &&& 0x55555555 ||| (n <<< 1) &&& 0xaaaaaaaa
  let n := (n >>> 2) &&& 0x33333333 ||| (n <<< 2) &&& 0xcccccccc
  let n := (n >>> 4) &&& 0x0f0f0f0f ||| (n <<< 4) &&& 0xf0f0f0f0
  let n := (n >>> 8) &&& 0x00ff00ff ||| (n <<< 8) &&& 0xff00ff00
  (n >>> 16) &&& 0x0000ffff ||| (n <<< 16) &&& 0xffff0000

/-- `firstkbits`, for a positive `k`. -/
def firstkbits (n : BitVec 32) (k : Nat) : Nat := (n >>> (32 - k)).toNat

/-- One of the two halves of `EvictionRoutine`. -/
def evictPath (p : CircuitParams) (leaf : Nat) (st : CircuitState) : CircuitState :=
  let path := downloadPath p.depth leaf st.tree
  match evictLevels p.depth p.maxBlocks leaf (st.stash :: path.reverse) with
  | stash :: levels =>
      { st with stash := stash, tree := uploadPath p.depth leaf levels.reverse st.tree }
  | [] => st

/-- `EvictionRoutine`. -/
def evictionRoutine (p : CircuitParams) (st : CircuitState) : CircuitState :=
  let ac := st.accessCounter
  let leafLeft := p.leaves + firstkbits (reverseBits ac) (p.depth - 1)
  let leafRight := p.leaves + firstkbits (reverseBits (ac + 1)) (p.depth - 1)
  let counter := if ac.toNat = p.leaves then 0 else ac + 2
  evictPath p leafRight (evictPath p leafLeft { st with accessCounter := counter })

/-! ## Access -/

/-- `opType`, with `data_in`. -/
inductive OramOp where
  | read
  | write (dataIn : Bytes)

/-- A call of `Access`, and the random number that it draws. -/
structure OramRequest where
  id : Nat
  op : OramOp
  random : Nat

/-- `pass_insert`. -/
def passInsert (gN : Nat) (block : OramBlock) : List OramBlock → List OramBlock
  | [] => []
  | b :: stash =>
      if ¬block.IsDummy gN ∧ b.IsDummy gN then block :: stash else b :: passInsert gN block stash

/-- The result block after the loops over the path and the stash. -/
def findBlock (gN id : Nat) (path : List (List OramBlock)) (stash : List OramBlock)
    (result : OramBlock) : OramBlock :=
  let result := path.flatten.foldl (fun result b => if b.id = id then b else result) result
  stash.foldl (fun result b => if b.id = id ∧ ¬b.IsDummy gN then b else result) result

/-- The path without a block. -/
def removeBlock (gN id : Nat) (path : List (List OramBlock)) : List (List OramBlock) :=
  path.map fun bucket => bucket.map fun b => if b.id = id then b.asDummy gN else b

/-- `CircuitORAM_FetchBlock`: the data that a read writes to `data_out`, and the state. A block that
is found in the stash stays there. -/
def fetchBlock (p : CircuitParams) (leaf newleaf : Nat) (op : OramOp) (id : Nat)
    (st : CircuitState) : Option Bytes × CircuitState :=
  let path := downloadPath p.depth leaf st.tree
  let result := findBlock p.maxBlocks id path st.stash st.resultBlock
  let (dataOut, result) :=
    match op with
    | .read => (some result.data, result)
    | .write dataIn => (none, { result with data := dataIn })
  let result := { result with treeLabel := newleaf }
  (dataOut,
    { st with
      tree := uploadPath p.depth leaf (removeBlock p.maxBlocks id path) st.tree
      stash := passInsert p.maxBlocks result st.stash
      resultBlock := result })

/-- `access`, for an id in the range of `posmap`: what it writes to `data_out`, and the state. -/
def access (p : CircuitParams) (st : CircuitState) (req : OramRequest) :
    Option Bytes × CircuitState :=
  let newleaf := p.leaves + req.random % p.leaves
  let leaf := st.posmap req.id
  let st := { st with posmap := Function.update st.posmap req.id newleaf }
  let (dataOut, st) := fetchBlock p leaf newleaf req.op req.id st
  (dataOut, evictionRoutine p st)

end DeSearch
