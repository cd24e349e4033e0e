import DeSearch.Enclave
import DeSearch.KanbanProof

/-!
# Executors

`do_crawl`, `do_index` and `do_reduce`: the three loops that executors run for ever. Each reads
the epoch, then goes through the shards of its role. A shard whose key exists is skipped. For any
other shard the executor gathers the inputs, calls the enclave and publishes: the value under the
shard's key (`o_put_key`), the witness in the hash `witness` and its key in the set of the epoch
(`o_append_witness`), and in epoch 2 a copy of the index as the first global index.

One step of an executor is one Redis command, so that any other process may act between any two.
The loops differ in where they get their inputs and in how they go on to the next shard; what they
share is written once, over a `Task`.

What a step takes from outside is given to it (`Inputs`): what the block source answers, and the
order in which a call enumerates its hash maps.

A process that runs into undefined behaviour or an uncaught exception is gone; like any process
that died it may be started again. `do_index` writes a NUL behind every item batch it has got, and
so depends on the allocator to leave a byte there.
-/

namespace DeSearch

/-! ## Pipeline configuration -/

/-- `ITEMS_BULK_MAX`. -/
def itemsBulkMax : Nat := 64

/-- `ITEMS_POOL_MAX`. -/
def itemsPoolMax : Nat := 16

/-- `INDEX_BULK_MAX`. -/
def indexBulkMax : Nat := 4

/-- `INDEX_POOL_MAX`. -/
def indexPoolMax : Nat := itemsPoolMax / indexBulkMax

/-! ## Tasks -/

/-- The three executor binaries of the pipeline. -/
inductive Role where
  | crawler
  | indexer
  | reducer
deriving DecidableEq

/-- The loop variables of an executor: its epoch, its shard `i`, and what else its loop keeps: the
block number read from Kanban, or the cursor `items_pos`. -/
inductive Task where
  | crawl (epoch base : Int) (shard : Nat)
  | index (epoch : Int) (shard itemsPos : Nat)
  | reduce (epoch : Int) (shard : Nat)
deriving DecidableEq

namespace Task

def epoch : Task → Int
  | crawl e _ _ => e
  | index e _ _ => e
  | reduce e _ => e

def shard : Task → Nat
  | crawl _ _ i => i
  | index _ i _ => i
  | reduce _ i => i

/-- The bound of the loop. -/
def poolMax : Task → Nat
  | crawl _ _ _ => itemsPoolMax
  | index _ _ _ => indexPoolMax
  | reduce _ _ => indexPoolMax

/-- The key whose existence means that the shard is done. -/
def key : Task → Key
  | crawl e _ i => .items e i
  | index e i _ => .index e i
  | reduce e i => .globalIndex e i

/-- The loop variables after `continue`. -/
def skip : Task → Task
  | crawl e b i => crawl e b (i + 1)
  | index e i pos => index e (i + 1) pos
  | reduce e i => reduce e (i + 1)

/-- The loop variables at the end of the loop body. -/
def finish : Task → Task
  | crawl e b i => crawl e b (i + 1)
  | index e i pos => index e (i + 1) (pos + indexBulkMax)
  | reduce e i => reduce e (i + 1)

/-- The blocks a crawler downloads. -/
def blocks : Task → List Int
  | crawl _ b i => (List.range itemsBulkMax).map fun j : Nat =>
      wrapInt (b + ((i : Int) - 1) * itemsBulkMax + (j + 1))
  | _ => []

/-- The keys an indexer or a reducer waits for, in the order of its `o_get_key` calls. -/
def inputs : Task → List Key
  | crawl _ _ _ => []
  | index e _ pos => (List.range indexBulkMax).map fun j => .items (e - 1) (pos + j)
  | reduce e i => [.globalIndex (e - 1) i, .index e i]

end Task

/-! ## Calls -/

/-- What an enclave call is given, and the order in which it enumerates its hash maps. That depends
on the build of the process and on its earlier calls, so it is any order. -/
structure Inputs where
  values : List Bytes
  order : HashOrder

/-- Inputs with hash maps in the order of insertion. -/
def Inputs.plain (values : List Bytes) : Inputs := ⟨values, insertionOrder⟩

/-- There is room for the NUL that `do_index` writes behind each of its items. -/
def spareBehind (R : Runtime) (items : List Bytes) : Bool := items.all fun v => R.spare v.length

/-- The enclave call of the role. -/
def Task.call (P : Platform) : Task → Inputs → Option Output
  | crawl _ _ _, xs => crawlCall P xs.values
  | index _ _ _, xs =>
      if spareBehind P.runtime xs.values then indexCall P xs.order xs.values else none
  | reduce _ _, ⟨[globalIndex, newIndex], order⟩ => mergeCall P order globalIndex newIndex
  | reduce _ _, _ => none

theorem Task.call_index {P : Platform} {items : List Bytes} (h : spareBehind P.runtime items)
    (O : HashOrder) (e : Int) (i pos : Nat) :
    (Task.index e i pos).call P ⟨items, O⟩ = indexCall P O items := if_pos h

/-- A shard is built only if no item lies at the end of its buffer. -/
theorem Task.indexCall_of_call {P : Platform} {xs : Inputs} {out : Output} {e : Int} {i pos : Nat}
    (h : (Task.index e i pos).call P xs = some out) :
    indexCall P xs.order xs.values = some out := by
  rw [Task.call] at h
  split_ifs at h
  exact h

/-! ## Steps -/

/-- Where an executor stands. -/
inductive Executor where
  /-- between two turns of the role's loop, or not running -/
  | idle
  /-- a crawler about to read `Steemit-Block-ID` -/
  | readBase (epoch : Int)
  /-- before `o_check_key` -/
  | check (task : Task)
  /-- with some of its inputs -/
  | gather (task : Task) (got : List Bytes)
  /-- before `o_put_key` -/
  | put (task : Task) (out : Output)
  /-- in `o_append_witness`, before `hset` -/
  | hset (task : Task) (out : Output)
  /-- in `o_append_witness`, before `sadd` -/
  | sadd (task : Task) (out : Output) (witnessKey : Bytes)
  /-- an indexer of epoch 2 before its second `o_put_key` -/
  | copy (task : Task) (out : Output)
deriving DecidableEq

namespace Executor

/-- The test of the loop over the shards. -/
def enter (t : Task) : Executor := if t.shard ≤ t.poolMax then check t else idle

/-- The start of `do_crawl`. -/
def doCrawl (e : Int) : Executor := if e = -1 then idle else readBase e

/-- The start of `do_index`. -/
def doIndex (e : Int) : Executor :=
  if e = -1 then idle else if e ≤ 1 then idle else enter (.index e 1 1)

/-- The start of `do_reduce`. -/
def doReduce (e : Int) : Executor :=
  if e = -1 then idle else if e ≤ 2 then idle else enter (.reduce e 1)

/-- The start of a role's turn, with the epoch `get_epoch_int` returned. -/
def start : Role → Int → Executor
  | .crawler => doCrawl
  | .indexer => doIndex
  | .reducer => doReduce

/-- The enclave call, once all inputs are there. -/
def call (P : Platform) (t : Task) (xs : Inputs) : Executor :=
  match t.call P xs with
  | some out => put t out
  | none => idle

/-- What follows `o_append_witness`. -/
def appended (t : Task) (out : Output) : Executor :=
  match t with
  | .index e _ _ => if e = 2 then copy t out else enter t.finish
  | _ => enter t.finish

/-- One step of an executor. `answers` is what the block source returns to a crawler that
downloads its blocks, with the order for the hash maps of a call; no other step looks at it. -/
def step (P : Platform) (role : Role) (answers : Inputs) (kb : Kanban) :
    Executor → Executor × Kanban
  | idle =>
      match getEpochInt P.runtime P.crypto kb with
      | none => (idle, kb)
      | some e => (start role e, kb)
  | readBase e =>
      -- dereferencing a missing value is undefined, and `stoi` may throw
      match (kb.get .blockId).bind stoi with
      | none => (idle, kb)
      | some b => (enter (.crawl e b 1), kb)
  | check t =>
      match kb.get t.key with
      | some _ => (enter t.skip, kb)
      | none => (gather t [], kb)
  | gather t got =>
      match t.inputs[got.length]? with
      | none => (call P t answers, kb)
      | some k =>
          match kb.get k with
          -- `o_get_key` sleeps and tries again
          | none => (gather t got, kb)
          | some v =>
              if got.length + 1 < t.inputs.length then (gather t (got ++ [v]), kb)
              else (call P t ⟨got ++ [v], answers.order⟩, kb)
  | put t out => (hset t out, kb.set t.key out.data)
  | hset t out =>
      match witnessKey P.runtime out.witness with
      | none => (idle, kb)
      | some k => (sadd t out k, kb.hset k out.witness)
  | sadd t out k => (appended t out, kb.sadd t.epoch k)
  | copy t out => (enter t.finish, kb.set (.globalIndex t.epoch t.shard) out.data)

end Executor

end DeSearch
