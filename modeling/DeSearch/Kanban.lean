import DeSearch.WitnessProof

/-!
# Kanban

Kanban is a Redis server. The executors, the manager and the clients share nothing else, and each
Redis command is atomic. It is kept here as the log of its writes, latest first, so that "the
value stored now" is a lookup and "every value ever stored" is membership.

The ledger is part of it: the signed `EPOCH` packet and the root hashes, which only the manager
writes.
-/

namespace DeSearch

open JSON

/-! ## Integers -/

/-- A value of `int` after arithmetic that may have overflowed. -/
def wrapInt (n : Int) : Int := Int.bmod n (2 ^ 32)

/-- `n` is a value of `int`. -/
def IsInt (n : Int) : Prop := -2 ^ 31 ≤ n ∧ n < 2 ^ 31

instance (n : Int) : Decidable (IsInt n) := inferInstanceAs (Decidable (_ ∧ _))

theorem isInt_wrapInt (n : Int) : IsInt (wrapInt n) := by
  have h₁ := Int.le_bmod (x := n) (m := 2 ^ 32) (by decide)
  have h₂ := Int.bmod_lt (x := n) (m := 2 ^ 32) (by decide)
  constructor <;> (unfold wrapInt; omega)

theorem wrapInt_of_isInt {n : Int} (h : IsInt n) : wrapInt n = n :=
  Int.bmod_eq_of_le (by have := h.1; omega) (by have := h.2; omega)

theorem wrapInt_wrapInt_add (m n : Int) : wrapInt (wrapInt m + n) = wrapInt (m + n) :=
  Int.bmod_add_bmod

/-- Whether a numeral starts with a minus sign, and what follows its sign. -/
def splitSign : Bytes → Bool × Bytes
  | [] => (false, [])
  | c :: r =>
      if c = ch '-' then (true, r) else if c = ch '+' then (false, r) else (false, c :: r)

/-- `stoi(s, nullptr, 10)`: blanks, a sign, then digits up to the first other character. -/
def stoi (s : Bytes) : Option Int :=
  let (neg, r) := splitSign (s.dropWhile isSpace)
  let ds := r.takeWhile isDigit
  if ds = [] then none
  else
    let n : Int := if neg then -(digitsVal ds : Int) else digitsVal ds
    if IsInt n then some n else none

/-- `strtol(s, nullptr, 10)`. -/
def strtol (s : Bytes) : Int :=
  let (neg, r) := splitSign ((cString s).dropWhile isSpace)
  let n : Int := digitsVal (r.takeWhile isDigit)
  if neg then max (-2 ^ 63) (-n) else min (2 ^ 63 - 1) n

/-! ## Keys -/

/-- The keys of the store. -/
inductive Key where
  | epoch
  | blockId
  | shardingMax
  | items (e : Int) (i : Nat)
  | index (e : Int) (i : Nat)
  | globalIndex (e : Int) (i : Nat)
  | rootHash (e : Int)
  | witnessSet (e : Int)
  | witness
deriving DecidableEq

/-- The Redis key. -/
def Key.name : Key → Bytes
  | epoch => ascii "EPOCH"
  | blockId => ascii "Steemit-Block-ID"
  | shardingMax => ascii "SHARDING-MAX"
  | items e i => ascii "ITEMS-#EPOCH" ++ toDecimal e ++ ascii "-v" ++ decimal i
  | index e i => ascii "INDEX-#EPOCH" ++ toDecimal e ++ ascii "-v" ++ decimal i
  | globalIndex e i => ascii "GLOBAL-INDEX-#EPOCH" ++ toDecimal e ++ ascii "-v" ++ decimal i
  | rootHash e => ascii "ROOT-HASH-#EPOCH" ++ toDecimal e
  | witnessSet e => ascii "WITNESS-#EPOCH" ++ toDecimal e
  | witness => ascii "witness"

/-! ## The store -/

/-- The writes so far, latest first: `SET`, `HSET` on the hash `witness`, and `SADD` on the sets
`WITNESS-#EPOCHe`. -/
structure Kanban where
  sets : List (Key × Bytes)
  hsets : List (Bytes × Bytes)
  sadds : List (Int × Bytes)

section

variable {κ ν : Type} [BEq κ] [LawfulBEq κ] {k : κ} {v : ν} {log : List (κ × ν)}

/-- A lookup in a log finds an entry of the log. -/
theorem mem_of_lookup (h : log.lookup k = some v) : (k, v) ∈ log := by
  induction log with
  | nil => cases h
  | cons p log ih =>
      obtain ⟨k', v'⟩ := p
      by_cases hk : k = k'
      · subst hk
        rw [List.lookup_cons_self] at h
        cases h
        exact List.mem_cons_self
      · rw [List.lookup_cons, beq_false_of_ne hk] at h
        exact List.mem_cons_of_mem _ (ih h)

theorem exists_lookup_of_mem (h : (k, v) ∈ log) : ∃ w, log.lookup k = some w ∧ (k, w) ∈ log := by
  have hsome : log.lookup k ≠ none := by
    intro hnone
    rw [List.lookup_eq_none_iff] at hnone
    simpa using hnone _ h
  obtain ⟨w, hw⟩ := Option.ne_none_iff_exists'.1 hsome
  exact ⟨w, hw, mem_of_lookup hw⟩

/-- In a log with one entry for each key, a lookup finds that entry. -/
theorem lookup_eq_some_iff (hlog : ∀ k v v', (k, v) ∈ log → (k, v') ∈ log → v = v') :
    log.lookup k = some v ↔ (k, v) ∈ log := by
  refine ⟨mem_of_lookup, fun h => ?_⟩
  obtain ⟨w, hw, hmem⟩ := exists_lookup_of_mem h
  rw [hw, hlog k w v hmem h]

end

namespace Kanban

/-- A store nobody has written to. -/
def empty : Kanban := ⟨[], [], []⟩

/-- `GET`. -/
def get (kb : Kanban) (k : Key) : Option Bytes := kb.sets.lookup k

/-- `SET`. -/
def set (kb : Kanban) (k : Key) (v : Bytes) : Kanban := { kb with sets := (k, v) :: kb.sets }

/-- `HSET witness`. -/
def hset (kb : Kanban) (k v : Bytes) : Kanban := { kb with hsets := (k, v) :: kb.hsets }

/-- `SADD WITNESS-#EPOCHe`. -/
def sadd (kb : Kanban) (e : Int) (k : Bytes) : Kanban := { kb with sadds := (e, k) :: kb.sadds }

/-- `HGET witness`. -/
def hget (kb : Kanban) (k : Bytes) : Option Bytes := kb.hsets.lookup k

/-- `SMEMBERS WITNESS-#EPOCHe`, with repetitions. -/
def smembers (kb : Kanban) (e : Int) : List Bytes :=
  (kb.sadds.filter fun p => p.1 = e).map Prod.snd

@[simp] theorem get_empty (k : Key) : empty.get k = none := rfl

@[simp] theorem get_set_self (kb : Kanban) (k : Key) (v : Bytes) : (kb.set k v).get k = some v := by
  simp [get, set]

@[simp] theorem get_set_of_ne (kb : Kanban) {k k' : Key} (h : k' ≠ k) (v : Bytes) :
    (kb.set k v).get k' = kb.get k' := by
  rw [get, set, List.lookup_cons, beq_false_of_ne h]
  rfl

theorem get_set (kb : Kanban) (k k' : Key) (v : Bytes) :
    (kb.set k v).get k' = if k' = k then some v else kb.get k' := by
  split_ifs with h
  · rw [h, get_set_self]
  · exact get_set_of_ne kb h v

@[simp] theorem get_hset (kb : Kanban) (k v : Bytes) (k' : Key) :
    (kb.hset k v).get k' = kb.get k' := rfl

@[simp] theorem get_sadd (kb : Kanban) (e : Int) (k : Bytes) (k' : Key) :
    (kb.sadd e k).get k' = kb.get k' := rfl

@[simp] theorem smembers_set (kb : Kanban) (k : Key) (v : Bytes) (e : Int) :
    (kb.set k v).smembers e = kb.smembers e := rfl

@[simp] theorem smembers_hset (kb : Kanban) (k v : Bytes) (e : Int) :
    (kb.hset k v).smembers e = kb.smembers e := rfl

theorem mem_smembers {kb : Kanban} {e : Int} {k : Bytes} :
    k ∈ kb.smembers e ↔ (e, k) ∈ kb.sadds := by
  simp [smembers]

theorem mem_of_get {kb : Kanban} {k : Key} {v : Bytes} (h : kb.get k = some v) :
    (k, v) ∈ kb.sets :=
  mem_of_lookup h

theorem exists_get_of_mem {kb : Kanban} {k : Key} {v : Bytes} (h : (k, v) ∈ kb.sets) :
    ∃ w, kb.get k = some w ∧ (k, w) ∈ kb.sets :=
  exists_lookup_of_mem h

/-- Everything written before is still in the log. -/
structure Extends (kb kb' : Kanban) : Prop where
  sets : kb.sets ⊆ kb'.sets
  hsets : kb.hsets ⊆ kb'.hsets
  sadds : kb.sadds ⊆ kb'.sadds

theorem Extends.refl (kb : Kanban) : Extends kb kb := ⟨fun _ h => h, fun _ h => h, fun _ h => h⟩

theorem Extends.trans {kb₁ kb₂ kb₃ : Kanban} (h : Extends kb₁ kb₂) (h' : Extends kb₂ kb₃) :
    Extends kb₁ kb₃ :=
  ⟨List.Subset.trans h.sets h'.sets, List.Subset.trans h.hsets h'.hsets,
    List.Subset.trans h.sadds h'.sadds⟩

theorem extends_set (kb : Kanban) (k : Key) (v : Bytes) : Extends kb (kb.set k v) :=
  ⟨List.subset_cons_self _ _, fun _ h => h, fun _ h => h⟩

theorem extends_hset (kb : Kanban) (k v : Bytes) : Extends kb (kb.hset k v) :=
  ⟨fun _ h => h, List.subset_cons_self _ _, fun _ h => h⟩

theorem extends_sadd (kb : Kanban) (e : Int) (k : Bytes) : Extends kb (kb.sadd e k) :=
  ⟨fun _ h => h, fun _ h => h, List.subset_cons_self _ _⟩

end Kanban

/-! ## The epoch -/

/-- The packet the manager stores under `EPOCH`. -/
def epochPacket (C : Crypto) (e : Int) : Bytes :=
  ((null.set (ascii "EPOCH") (string (toDecimal e))).set (ascii "SIG")
    (string (sigToString (C.sign (toDecimal e))))).dump 1

/-- `get_epoch`: the signed text of the packet, or `-1`. -/
def getEpoch (R : Runtime) (C : Crypto) (kb : Kanban) : Option Bytes :=
  match kb.get .epoch with
  | none => some (ascii "-1")
  | some packet => (load R packet).map fun epochPacket =>
      let stringSig := (epochPacket.get (ascii "SIG")).toStr
      let stringEpoch := (epochPacket.get (ascii "EPOCH")).toStr
      if C.verify stringEpoch (stringToSig R stringSig) then stringEpoch else ascii "-1"

/-- `get_epoch_int`. -/
def getEpochInt (R : Runtime) (C : Crypto) (kb : Kanban) : Option Int :=
  (getEpoch R C kb).bind stoi

end DeSearch
