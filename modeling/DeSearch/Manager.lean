import DeSearch.KanbanProof
import DeSearch.Executor
import Mathlib.Data.List.Sort
import Mathlib.Data.List.Dedup

/-!
# The manager

`main.cpp` and `manager::increment_epoch`. The manager opens an epoch by setting the first block
number, waits until the witness set of the epoch is large enough, commits the set by a root hash
and writes the next epoch. It looks at nothing but the number of witness keys.

The root hash is taken over a sorted list, and so depends on the sorting algorithm where keys
compare equal. `std::sort` is a parameter: some permutation, the same for the same list.
-/

namespace DeSearch

/-- `START_STEEM_BLOCK_ID`. -/
def startSteemBlockId : Int := 62396745

/-- `std::sort` by the last character, of which only this matters: it permutes. -/
structure LastCharSort where
  sort : List Bytes → List Bytes
  perm : ∀ l, (sort l).Perm l

/-! ## Root hashes -/

/-- The elements of a `std::set<string>`, in its order. -/
def stdSet (keys : List Bytes) : List Bytes := keys.dedup.insertionSort (· ≤ ·)

theorem mem_stdSet {keys : List Bytes} {k : Bytes} : k ∈ stdSet keys ↔ k ∈ keys := by
  rw [stdSet, List.mem_insertionSort, List.mem_dedup]

theorem nodup_stdSet (keys : List Bytes) : (stdSet keys).Nodup :=
  (List.perm_insertionSort _ _).nodup_iff.2 keys.nodup_dedup

/-- A `std::set` knows only which elements it has. -/
theorem stdSet_congr {keys keys' : List Bytes} (h : ∀ k, k ∈ keys ↔ k ∈ keys') :
    stdSet keys = stdSet keys' := by
  have hperm : (stdSet keys).Perm (stdSet keys') :=
    (List.perm_ext_iff_of_nodup (nodup_stdSet _) (nodup_stdSet _)).2 fun k => by
      rw [mem_stdSet, mem_stdSet, h]
  exact hperm.eq_of_pairwise' (List.pairwise_insertionSort _ _) (List.pairwise_insertionSort _ _)

/-- The hash over all keys of an epoch. -/
def rootHashOf (C : Crypto) (L : LastCharSort) (keys : List Bytes) : Bytes :=
  C.sha256 (L.sort (stdSet keys)).flatten

theorem rootHashOf_congr (C : Crypto) (L : LastCharSort) {keys keys' : List Bytes}
    (h : ∀ k, k ∈ keys ↔ k ∈ keys') : rootHashOf C L keys = rootHashOf C L keys' := by
  rw [rootHashOf, rootHashOf, stdSet_congr h]

/-- `check_root_hash`. A missing root hash is dereferenced all the same. -/
def checkRootHash (C : Crypto) (L : LastCharSort) (kb : Kanban) (e : Int) : Option Bool :=
  (kb.get (.rootHash e)).map fun rootHash =>
    (cString rootHash).take 64 = rootHashOf C L (kb.smembers e)

/-- Checking a root hash compares two sets of witness keys. -/
theorem checkRootHash_eq {C : Crypto} {L : LastCharSort} {kb : Kanban} {e : Int} {l : List Bytes}
    (h : kb.get (.rootHash e) = some (rootHashOf C L l)) :
    checkRootHash C L kb e = some (decide (rootHashOf C L l = rootHashOf C L (kb.smembers e))) := by
  have htake : (cString (rootHashOf C L l)).take 64 = rootHashOf C L l := by
    have hnul : NulFree (rootHashOf C L l) := nulFree_of_hex (C.sha256_hex _)
    rw [cString_of_nulFree hnul]
    exact List.take_of_length_le (C.sha256_length _).le
  rw [checkRootHash, h, Option.map_some, htake]

/-! ## Epochs -/

/-- `expected_key_size`. -/
def expectedKeySize (e : Int) : Nat :=
  if e = 1 then itemsPoolMax
  else if e = 2 then itemsPoolMax + indexPoolMax
  else itemsPoolMax + indexPoolMax * 2

/-- Where the manager stands, with the locals of `increment_epoch`. The text `current_epoch` is
kept as the number it spells. -/
inductive ManagerAt where
  /-- before `SHARDING-MAX` is set -/
  | boot
  /-- at the top of the loop in `main` -/
  | openEpoch
  /-- before the test whether there is an epoch at all -/
  | testEpoch
  /-- in `init_epoch`, before its own test -/
  | initEpoch
  /-- in `init_epoch`, before the first epoch is set -/
  | setFirst
  | readEpoch
  | readEpochInt (currentEpoch : Int)
  /-- in the loop that waits for the witness keys -/
  | count (currentEpoch currentEpochInt : Int)
  /-- before the root hash is set -/
  | commit (currentEpoch : Int) (witnessKeys : List Bytes)
  /-- before the epoch is read again -/
  | reread (currentEpoch : Int)
  /-- before the new epoch is set -/
  | increment (currentEpoch newEpoch : Int)
  /-- after an uncaught exception -/
  | halted
deriving DecidableEq

/-- The manager: where it stands and its `static int steemit_block_id`. -/
structure Manager where
  pc : ManagerAt
  blockId : Int
deriving DecidableEq

/-- A manager just started. -/
def Manager.init : Manager := ⟨.boot, startSteemBlockId⟩

/-- Read the epoch and go on; `stoi` may throw. -/
def Manager.readInt (P : Platform) (kb : Kanban) (next : Int → ManagerAt) : ManagerAt :=
  match getEpochInt P.runtime P.crypto kb with
  | none => .halted
  | some e => next e

/-- Go on one way if there is no valid epoch yet, and another if there is. -/
def Manager.testInit (P : Platform) (kb : Kanban) (missing found : ManagerAt) : ManagerAt :=
  match getEpoch P.runtime P.crypto kb with
  | none => .halted
  | some s => if s = ascii "-1" then missing else found

/-- One step of the manager: where it stands next, and the store. -/
def Manager.step (P : Platform) (L : LastCharSort) (kb : Kanban) (m : Manager) :
    Manager × Kanban :=
  match m.pc with
  | .boot => ({ m with pc := .openEpoch }, kb.set .shardingMax (decimal indexPoolMax))
  | .openEpoch =>
      (⟨.testEpoch, wrapInt (m.blockId + itemsBulkMax * itemsPoolMax)⟩,
        kb.set .blockId (toDecimal m.blockId))
  | .testEpoch => ({ m with pc := testInit P kb .initEpoch .readEpoch }, kb)
  | .initEpoch => ({ m with pc := testInit P kb .setFirst .readEpoch }, kb)
  | .setFirst => ({ m with pc := .readEpoch }, kb.set .epoch (epochPacket P.crypto 1))
  | .readEpoch => ({ m with pc := readInt P kb .readEpochInt }, kb)
  | .readEpochInt currentEpoch => ({ m with pc := readInt P kb (.count currentEpoch) }, kb)
  | .count currentEpoch currentEpochInt =>
      let witnessKeys := stdSet (kb.smembers currentEpoch)
      if expectedKeySize currentEpochInt ≤ witnessKeys.length then
        ({ m with pc := .commit currentEpoch witnessKeys }, kb)
      else (m, kb)
  | .commit currentEpoch witnessKeys =>
      ({ m with pc := .reread currentEpoch },
        kb.set (.rootHash currentEpoch) (P.crypto.sha256 (L.sort witnessKeys).flatten))
  | .reread currentEpoch =>
      ({ m with pc := readInt P kb fun e => .increment currentEpoch (wrapInt (e + 1)) }, kb)
  | .increment _ newEpoch =>
      ({ m with pc := .openEpoch }, kb.set .epoch (epochPacket P.crypto newEpoch))
  | .halted => (m, kb)

end DeSearch
