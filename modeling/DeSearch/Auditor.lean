import DeSearch.Manager
import DeSearch.Lib.Walk

/-!
# The local auditor

`do_local_verify` (`local_auditor.cpp`) compares two sets of hashes. The *retrieved* set is what
a walk through the stored witnesses finds below the hashes it is asked to verify; the *expected*
set is what the crawler witnesses of the past epochs list as their inputs. The verdict is `pass`
if everything expected was retrieved.

All its reads of Kanban are taken from one state of the store. In STEP-1 the source erases a
rejected witness from the map it is iterating over, which leaves what follows undefined: an audit of
a store with such a witness has no result here. The walk of STEP-2 may not end, so it has fuel.
-/

namespace DeSearch

open JSON

/-- `HGETALL witness`. -/
def Kanban.hgetall (kb : Kanban) : List (Bytes × Bytes) :=
  (kb.hsets.map Prod.fst).dedup.filterMap fun k => (kb.hget k).map fun w => (k, w)

variable (R : Runtime) (C : Crypto) (L : LastCharSort)

/-! ## The retrieved set -/

/-- STEP-1: the stored witnesses, all of which `check_witness` has to accept. A text it cannot parse
ends the program, and one that it rejects is erased in the middle of the loop. -/
def kbWitness (kb : Kanban) : Option (List (Bytes × Bytes)) :=
  if ∀ w ∈ kb.hgetall, checkWitness R C w.2 = some true then some kb.hgetall else none

/-- One turn of STEP-2: a hash without a witness is a leaf, any other leads to the `IN` of its
witness. -/
def visitHash (records : List (Bytes × Bytes)) (top : Bytes) : Option (Walk.Visit Bytes) :=
  match records.lookup top with
  | none => some .leaf
  | some parent => (readIn R parent).map .inner

/-- STEP-2: `leaves_set`. -/
def leavesSet (records : List (Bytes × Bytes)) (fuel : Nat) (scratchPad : List Bytes) :
    Option (List Bytes) :=
  Walk.collect (visitHash R records) fuel scratchPad.reverse []

/-! ## The expected set -/

/-- The epochs of STEP-3: "we can only search 2 EPOCHes ago". -/
def auditedEpochs (currentEpochInt : Int) : List Int :=
  (List.range (currentEpochInt - 2).toNat).map fun n : Nat => (n : Int) + 1

/-- STEP-3: `witness_keys`. An epoch whose keys do not match its root hash is passed over. -/
def wellKeys (kb : Kanban) : List Int → Option (List Bytes)
  | [] => some []
  | e :: es => do
      let well ← checkRootHash C L kb e
      let keys ← wellKeys kb es
      return if well then kb.smembers e ++ keys else keys

/-- `func` in STEP-4. -/
def crawlerFunc : Bytes := C.sha256 (ascii "cralwer" ++ [0])

/-- STEP-4 for one witness: what it lists, if the crawlers' `func` stands anywhere in its text. -/
def crawlerIn (w : Bytes) : Option (List Bytes) :=
  if crawlerFunc C <:+: w then readIn R w else some []

/-- STEP-4: `items_set`. A key without a witness counts as an empty text. -/
def itemsSet (records : List (Bytes × Bytes)) : List Bytes → Option (List Bytes)
  | [] => some []
  | k :: ks => do
      let ins ← crawlerIn R C ((records.lookup k).getD [])
      let items ← itemsSet records ks
      return ins ++ items

/-- The expected set of an audit in the given epoch. -/
def expectedSet (kb : Kanban) (currentEpochInt : Int) : Option (List Bytes) := do
  let records ← kbWitness R C kb
  let witnessKeys ← wellKeys C L kb (auditedEpochs currentEpochInt)
  itemsSet R C records witnessKeys

/-- The retrieved set of an audit of the given hashes. -/
def retrievedSet (kb : Kanban) (fuel : Nat) (scratchPad : List Bytes) : Option (List Bytes) := do
  let records ← kbWitness R C kb
  leavesSet R records fuel scratchPad

/-! ## The verdict -/

/-- The request that `go_verify` composes for the auditor. -/
def verifyIn (witnessInList : List Bytes) : Bytes :=
  (null.set (ascii "IN") (array (witnessInList.map string))).dump 1

/-- STEP-1 to STEP-5, the slow path. -/
def slowPath (kb : Kanban) (fuel : Nat) (currentEpochInt : Int) (scratchPad : List Bytes) :
    Option Bool := do
  let leaves ← retrievedSet R C kb fuel scratchPad
  let items ← expectedSet R C L kb currentEpochInt
  return items.all (· ∈ leaves)

/-- `verify_results`. -/
def verifyResults (currentEpoch : Bytes) (pass : Bool) : Bytes :=
  ascii "epoch " ++ currentEpoch ++
    if pass then ascii ": end-to-end witness (completeness + freshness) verification pass"
    else ascii ": end-to-end witness (completeness + freshness) verification fail"

/-- `verify_cache` and `verify_epoch`. -/
structure VerifyCache where
  hashes : List Bytes
  epoch : Int

def VerifyCache.init : VerifyCache := ⟨[], 0⟩

/-- STEP-0: as many of the hashes are in the cache as the cache has elements. -/
def VerifyCache.Hit (cache : VerifyCache) (currentEpochInt : Int) (scratchPad : List Bytes) :
    Prop :=
  currentEpochInt = cache.epoch ∧ cache.hashes ≠ [] ∧
    cache.hashes.length = scratchPad.countP (· ∈ cache.hashes)

instance (cache : VerifyCache) (currentEpochInt : Int) (scratchPad : List Bytes) :
    Decidable (cache.Hit currentEpochInt scratchPad) :=
  inferInstanceAs (Decidable (_ ∧ _ ∧ _))

/-- STEP-0 in another epoch: the cache is cleared. -/
def VerifyCache.refresh (cache : VerifyCache) (currentEpochInt : Int) : VerifyCache :=
  if currentEpochInt = cache.epoch then cache else { cache with hashes := [] }

/-- `do_local_verify`: the text of the verdict, and the cache. -/
def doLocalVerify (kb : Kanban) (fuel : Nat) (cache : VerifyCache) (needsToVerify results : Bytes) :
    Option (Bytes × VerifyCache) := do
  let currentEpoch ← getEpoch R C kb
  let currentEpochInt ← getEpochInt R C kb
  if currentEpochInt < 3 then
    return (results, cache)
  let scratchPad ← readIn R needsToVerify
  if cache.Hit currentEpochInt scratchPad then
    return (verifyResults currentEpoch true, cache)
  let pass ← slowPath R C L kb fuel currentEpochInt scratchPad
  -- STEP-6: only what passed is remembered
  return (verifyResults currentEpoch pass,
    if pass then ⟨scratchPad, currentEpochInt⟩ else cache.refresh currentEpochInt)

end DeSearch
