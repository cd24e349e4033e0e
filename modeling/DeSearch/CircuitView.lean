import DeSearch.CircuitOramProof
import DeSearch.Lib.Reveal
import Mathlib.SetTheory.Cardinal.Finite
import Mathlib.Tactic.IntervalCases

/-!
# What the host sees of the Circuit ORAM

The host serves `downloadPath_OCALL` and `uploadPath_OCALL` and so learns the leaves that are asked
for. An access asks for the leaf in `posmap` and then for the two leaves of `EvictionRoutine`. The
latter depend on the number of accesses only. The former is the sample that the access before drew
for the same block, so that it is fresh each time it is shown.

* `hostView` is what the host sees of a run of calls.
* `view_equidistributed`: once all blocks have been accessed, calls for any blocks, with any data,
  have the same views, each from equally many tapes of random numbers.
* `every_leaf_evicted`: the evictions go through all leaves.
-/

namespace DeSearch

open HeapPath (IsLeaf)

/-! ## Views -/

/-- A call out of the enclave. -/
inductive HostCall where
  | downloadPath (leaf : Nat)
  | uploadPath (leaf : Nat)
deriving DecidableEq

/-- The leaves `leaf_left` and `leaf_right` of `EvictionRoutine`. -/
def evictionLeaves (p : CircuitParams) (ac : BitVec 32) : List Nat :=
  [p.leaves + firstkbits (reverseBits ac) (p.depth - 1),
    p.leaves + firstkbits (reverseBits (ac + 1)) (p.depth - 1)]

/-- `access_counter[0]` after `EvictionRoutine`. -/
def nextCounter (p : CircuitParams) (ac : BitVec 32) : BitVec 32 :=
  if ac.toNat = p.leaves then 0 else ac + 2

/-- The calls for the leaf of an access and for those of its evictions. -/
def accessCalls (p : CircuitParams) (leaf : Nat) (ac : BitVec 32) : List HostCall :=
  (leaf :: evictionLeaves p ac).flatMap fun leaf => [.downloadPath leaf, .uploadPath leaf]

/-- What the host sees of a run. -/
def hostView (p : CircuitParams) : CircuitState → List OramRequest → List HostCall
  | _, [] => []
  | st, req :: reqs =>
      accessCalls p (st.posmap req.id) st.accessCounter ++ hostView p (p.step req st) reqs

section
variable (p : CircuitParams) (st : CircuitState) (req : OramRequest)

theorem accessCounter_evictPath (leaf : Nat) :
    (evictPath p leaf st).accessCounter = st.accessCounter := by
  obtain ⟨stash, path, -, -, heq⟩ := evictPath_eq p leaf st
  rw [heq]

theorem accessCounter_step : (p.step req st).accessCounter = nextCounter p st.accessCounter := by
  unfold CircuitParams.step access fetchBlock evictionRoutine
  rw [accessCounter_evictPath, accessCounter_evictPath]
  cases req.op <;> rfl

theorem posmap_step : (p.step req st).posmap =
    Function.update st.posmap req.id (p.leaves + req.random % p.leaves) := by
  unfold CircuitParams.step access fetchBlock evictionRoutine
  rw [posmap_evictPath, posmap_evictPath]

end

/-! ## Views from the leaves of the accesses -/

/-- What the host sees of accesses with these leaves, from a counter on. -/
def leafCalls (p : CircuitParams) : BitVec 32 → List Nat → List HostCall
  | _, [] => []
  | ac, leaf :: leaves => accessCalls p leaf ac ++ leafCalls p (nextCounter p ac) leaves

/-- A call of `Access` without its random number. -/
structure OramCall where
  id : Nat
  op : OramOp

/-- The calls, each with its random number of the tape. -/
def requests : List OramCall → (Nat → BitVec 32) → List OramRequest
  | [], _ => []
  | c :: calls, tape => ⟨c.id, c.op, (tape 0).toNat⟩ :: requests calls fun i => tape (i + 1)

/-- `newleaf` for a random number. -/
def newLabel (p : CircuitParams) (_id : Nat) (random : BitVec 32) : Nat :=
  p.leaves + random.toNat % p.leaves

/-- **The view** shows the labels that the calls look up in `posmap`, and nothing else of them. -/
theorem hostView_requests (p : CircuitParams) (calls : List OramCall) (st : CircuitState)
    (tape : Nat → BitVec 32) :
    hostView p st (requests calls tape) =
      leafCalls p st.accessCounter
        (Reveal.trace (newLabel p) st.posmap (calls.map OramCall.id) tape) := by
  induction calls generalizing st tape with
  | nil => rfl
  | cons c calls ih =>
      rw [requests, hostView, ih, accessCounter_step, posmap_step]
      rfl

/-- A finite tape, followed by zeros. -/
def padTape {n : Nat} (tape : Fin n → BitVec 32) (i : Nat) : BitVec 32 :=
  if h : i < n then tape ⟨i, h⟩ else 0

/-- The tapes under which the calls have this view. -/
def TapesOf (p : CircuitParams) (st : CircuitState) (calls : List OramCall) (n : Nat)
    (view : List HostCall) : Type :=
  {tape : Fin n → BitVec 32 // hostView p st (requests calls (padTape tape)) = view}

/-- **The view says nothing about the calls.** Let two runs begin with the same calls and go on with
equally many calls for blocks that these were for. Then every view comes from equally many tapes in
both, so that it is as likely in one as in the other if the random numbers are uniform. -/
theorem view_equidistributed (p : CircuitParams) (st : CircuitState)
    {fill calls calls' : List OramCall} (hlen : calls.length = calls'.length)
    (h : ∀ c ∈ calls, c.id ∈ fill.map OramCall.id)
    (h' : ∀ c ∈ calls', c.id ∈ fill.map OramCall.id) (view : List HostCall) :
    Nat.card (TapesOf p st (fill ++ calls) (fill ++ calls).length view) =
      Nat.card (TapesOf p st (fill ++ calls') (fill ++ calls).length view) := by
  have hmem {calls : List OramCall} (h : ∀ c ∈ calls, c.id ∈ fill.map OramCall.id) :
      ∀ k ∈ calls.map OramCall.id, k ∈ fill.map OramCall.id := by
    intro k hk
    obtain ⟨c, hc, rfl⟩ := List.mem_map.1 hk
    exact h c hc
  have halike : Reveal.Alike ((fill ++ calls).map OramCall.id)
      ((fill ++ calls').map OramCall.id) := by
    rw [List.map_append, List.map_append]
    exact Reveal.alike_append (by simpa using hlen) (hmem h) (hmem h')
  obtain ⟨π, hπ⟩ := @Reveal.Alike.exists_trace_eq Nat (BitVec 32) Nat _ (newLabel p) _ _ halike
    fun _ _ _ _ _ => rfl
  have hn : ((fill ++ calls).map OramCall.id).length = (fill ++ calls).length := List.length_map _
  -- the same tapes in another order
  let σ : Equiv.Perm (Fin (fill ++ calls).length) :=
    (finCongr hn).symm.trans (π.trans (finCongr hn))
  apply Nat.card_congr
  apply (Equiv.arrowCongr σ (Equiv.refl (BitVec 32))).subtypeEquiv
  intro tape
  rw [hostView_requests, hostView_requests]
  rw [hπ st.posmap (padTape tape) (padTape (Equiv.arrowCongr σ (Equiv.refl _) tape))]
  intro j
  have hj : j.1 < (fill ++ calls).length := hn ▸ j.2
  have hπj : (π j).1 < (fill ++ calls).length := hn ▸ (π j).2
  have hσ : σ ⟨j, hj⟩ = ⟨π j, hπj⟩ := rfl
  rw [padTape, padTape, dif_pos hj, dif_pos hπj, ← hσ]
  simp

/-- Two blocks are written; then one is read twice, or both are read once. The view is one that
occurs. -/
theorem view_equidistributed_reads :
    Nonempty (TapesOf .index (CircuitParams.index.initialized CircuitParams.index.dummy)
        ([⟨0, .write []⟩, ⟨1, .write []⟩] ++ [⟨0, .read⟩, ⟨0, .read⟩]) 4
        (leafCalls .index 0 [4096, 4096, 4796, 4896])) ∧
    Nat.card (TapesOf .index (CircuitParams.index.initialized CircuitParams.index.dummy)
        ([⟨0, .write []⟩, ⟨1, .write []⟩] ++ [⟨0, .read⟩, ⟨0, .read⟩]) 4
        (leafCalls .index 0 [4096, 4096, 4796, 4896])) =
      Nat.card (TapesOf .index (CircuitParams.index.initialized CircuitParams.index.dummy)
        ([⟨0, .write []⟩, ⟨1, .write []⟩] ++ [⟨0, .read⟩, ⟨1, .read⟩]) 4
        (leafCalls .index 0 [4096, 4096, 4796, 4896])) := by
  refine ⟨⟨fun i => [700, 0, 800, 0].get i, ?_⟩, ?_⟩
  · rw [hostView_requests]
    rfl
  · exact @view_equidistributed .index (CircuitParams.index.initialized CircuitParams.index.dummy)
      [⟨0, .write []⟩, ⟨1, .write []⟩] [⟨0, .read⟩, ⟨0, .read⟩] [⟨0, .read⟩, ⟨1, .read⟩] rfl
      (by simp) (by simp) (leafCalls .index 0 [4096, 4096, 4796, 4896])

/-! ## The order of the evictions -/

theorem reverseBits_eq (n : BitVec 32) : reverseBits n = n.reverse := by
  unfold reverseBits
  simp only [BitVec.ofNat_eq_ofNat, BitVec.natCast_eq_ofNat]
  apply BitVec.eq_of_getLsbD_eq
  intro i hi
  interval_cases i <;>
    simp only [BitVec.getLsbD_or, BitVec.getLsbD_and, BitVec.getLsbD_shiftLeft,
      BitVec.getLsbD_ushiftRight, BitVec.getLsbD_reverse, BitVec.getMsbD_eq_getLsbD,
      BitVec.getLsbD_ofNat, Nat.reducePow, Nat.reduceAdd, Nat.reduceSub, Nat.reduceLT,
      Nat.testBit_eq_decide_div_mod_eq, Nat.reduceDiv, Nat.reduceMod, Nat.reduceEqDiff,
      decide_true, decide_false, Bool.false_and, Bool.true_and, Bool.and_false, Bool.and_true,
      Bool.false_or, Bool.or_false, Bool.not_true, Bool.not_false]

/-- The leaf of a counter has the counter's low bits in reverse. -/
theorem testBit_firstkbits (n : BitVec 32) {k j : Nat} (hk : k ≤ 32) :
    (firstkbits (reverseBits n) k).testBit j = (decide (j < k) && n.getLsbD (k - 1 - j)) := by
  rw [firstkbits, reverseBits_eq, BitVec.testBit_toNat, BitVec.getLsbD_ushiftRight,
    BitVec.getLsbD_reverse, BitVec.getMsbD_eq_getLsbD]
  by_cases hj : j < k
  · have hlt : 32 - k + j < 32 := by omega
    have heq : 32 - 1 - (32 - k + j) = k - 1 - j := by omega
    simp [hj, hlt, heq]
  · have hge : ¬32 - k + j < 32 := by omega
    simp [hj, hge]

theorem firstkbits_reverseBits_lt (n : BitVec 32) {k : Nat} (hk : k ≤ 32) :
    firstkbits (reverseBits n) k < 2 ^ k := by
  apply Nat.lt_pow_two_of_testBit
  intro j hj
  rw [testBit_firstkbits n hk, decide_eq_false (Nat.not_lt.2 hj), Bool.false_and]

/-- Every leaf has its counter. -/
theorem exists_counter {j k : Nat} (hk : k ≤ 32) (hj : j < 2 ^ k) :
    ∃ c < 2 ^ k, firstkbits (reverseBits (BitVec.ofNat 32 c)) k = j := by
  refine ⟨firstkbits (reverseBits (BitVec.ofNat 32 j)) k, firstkbits_reverseBits_lt _ hk, ?_⟩
  apply Nat.eq_of_testBit_eq
  intro i
  rw [testBit_firstkbits _ hk, BitVec.getLsbD_ofNat, testBit_firstkbits _ hk, BitVec.getLsbD_ofNat]
  by_cases hi : i < k
  · have hmid : k - 1 - i < 32 := by omega
    have hin : k - 1 - i < k := by omega
    have hback : k - 1 - (k - 1 - i) = i := by omega
    have hi32 : i < 32 := by omega
    simp [hi, hmid, hin, hback, hi32]
  · have hout : j.testBit i = false :=
      Nat.testBit_lt_two_pow (hj.trans_le (Nat.pow_le_pow_right (by omega) (Nat.not_lt.1 hi)))
    rw [decide_eq_false hi, Bool.false_and, hout]

/-- The leaves of the evictions of a run. -/
def evicted (p : CircuitParams) : CircuitState → List OramRequest → List Nat
  | _, [] => []
  | st, req :: reqs => evictionLeaves p st.accessCounter ++ evicted p (p.step req st) reqs

section
variable {p : CircuitParams}

theorem mem_evicted {st : CircuitState} {reqs : List OramRequest} {leaf i : Nat}
    (hi : i < reqs.length)
    (h : leaf ∈ evictionLeaves p ((nextCounter p)^[i] st.accessCounter)) :
    leaf ∈ evicted p st reqs := by
  induction reqs generalizing st i with
  | nil => cases hi
  | cons req reqs ih =>
      rw [evicted, List.mem_append]
      cases i with
      | zero => exact .inl h
      | succ i =>
          right
          apply ih (Nat.lt_of_succ_lt_succ hi)
          rwa [accessCounter_step]

theorem accessCounter_exec (st : CircuitState) (reqs : List OramRequest) :
    (Run.exec p.step st reqs).accessCounter = (nextCounter p)^[reqs.length] st.accessCounter := by
  induction reqs generalizing st with
  | nil => rfl
  | cons req reqs ih =>
      rw [Run.exec_cons, ih, accessCounter_step]
      rfl

/-- The counter goes through the even numbers up to `N`, and then from 0 again. -/
theorem iterate_nextCounter {half : Nat} (hp : p.leaves = 2 * half) (hlt : p.leaves < 2 ^ 32)
    (n : Nat) : (nextCounter p)^[n] 0 = BitVec.ofNat 32 (2 * (n % (half + 1))) := by
  induction n with
  | zero => rfl
  | succ n ih =>
      have hpos := leaves_pos p
      have hone : 1 % (half + 1) = 1 := Nat.mod_eq_of_lt (by omega)
      have hmod : n % (half + 1) < half + 1 := Nat.mod_lt n (Nat.succ_pos half)
      rw [Function.iterate_succ_apply', ih, nextCounter, BitVec.toNat_ofNat,
        Nat.mod_eq_of_lt (by omega), Nat.add_mod_eq_ite, hone]
      by_cases hlast : n % (half + 1) = half
      · rw [if_pos (by omega), if_pos (by omega), hlast, Nat.sub_self]
        rfl
      · rw [if_neg (by omega), if_neg (by omega), Nat.mul_add_one, BitVec.ofNat_add]
        rfl

/-- Every remainder comes up among `m` numbers in a row. -/
theorem exists_add_mod_eq (a : Nat) {m r : Nat} (h : r < m) : ∃ i < m, (a + i) % m = r := by
  have hpos : 0 < m := Nat.zero_lt_of_lt h
  refine ⟨(r + (m - a % m)) % m, Nat.mod_lt _ hpos, ?_⟩
  have hsum : a + (r + (m - a % m)) = r + m * (a / m + 1) := by
    have hdiv := Nat.div_add_mod a m
    have hlt := Nat.mod_lt a hpos
    rw [Nat.mul_add_one]
    omega
  rw [Nat.add_mod_mod, hsum, Nat.add_mul_mod_self_left, Nat.mod_eq_of_lt h]

/-- A number or the one before it is even. -/
theorem mem_evictionLeaves (c : Nat) :
    p.leaves + firstkbits (reverseBits (BitVec.ofNat 32 c)) p.pD ∈
      evictionLeaves p (BitVec.ofNat 32 (2 * (c / 2))) := by
  obtain heven | hodd := Nat.mod_two_eq_zero_or_one c
  · rw [show 2 * (c / 2) = c by omega]
    exact List.mem_cons_self
  · have hsucc : BitVec.ofNat 32 (2 * (c / 2)) + 1 = BitVec.ofNat 32 c := by
      rw [show (1 : BitVec 32) = BitVec.ofNat 32 1 from rfl, ← BitVec.ofNat_add,
        show 2 * (c / 2) + 1 = c by omega]
    unfold evictionLeaves
    rw [hsucc]
    exact List.mem_cons_of_mem _ List.mem_cons_self

/-- There is more than one leaf. -/
theorem CircuitParams.pD_pos (p : CircuitParams) : 0 < p.pD := by
  have htwo : 2 ≤ (p.maxBlocks + p.z - 1) / p.z := by
    rw [Nat.le_div_iff_mul_le p.z_pos]
    have hlt := p.z_lt
    omega
  rw [CircuitParams.pD, ceilLog, if_neg (by omega)]
  exact Nat.succ_pos _

/-- **Every leaf is evicted**, from any state that calls lead to, by any `N / 2 + 1` calls in a
row. -/
theorem every_leaf_evicted (hp : p.pD < 32) (raw : OramBlock) (reqs : List OramRequest)
    {window : List OramRequest} (hwindow : p.leaves / 2 < window.length) {leaf : Nat}
    (hleaf : IsLeaf p.pD leaf) :
    leaf ∈ evicted p (Run.exec p.step (p.initialized raw) reqs) window := by
  obtain ⟨hlow, hhigh⟩ := hleaf
  have hj : leaf - p.leaves < 2 ^ p.pD := by
    rw [pow_succ] at hhigh
    rw [CircuitParams.leaves]
    omega
  have hsplit : p.leaves + (leaf - p.leaves) = leaf := Nat.add_sub_of_le hlow
  obtain ⟨c, hc, hleft⟩ := exists_counter (le_of_lt hp) hj
  have hmem := @mem_evictionLeaves p c
  rw [hleft, hsplit] at hmem
  have htwo : p.leaves = 2 * 2 ^ (p.pD - 1) := by
    rw [CircuitParams.leaves, ← pow_succ', Nat.sub_add_cancel p.pD_pos]
  have hlt : p.leaves < 2 ^ 32 := Nat.pow_lt_pow_right (by omega) hp
  have hhalf : c / 2 < 2 ^ (p.pD - 1) + 1 := by
    rw [CircuitParams.leaves] at htwo
    omega
  obtain ⟨i, hi, hmod⟩ := exists_add_mod_eq reqs.length hhalf
  apply mem_evicted (show i < window.length by omega)
  rw [accessCounter_exec, ← Function.iterate_add_apply, Nat.add_comm i]
  show leaf ∈ evictionLeaves p ((nextCounter p)^[reqs.length + i] 0)
  rw [iterate_nextCounter htwo hlt, hmod]
  exact hmem

/-- An instance with eight leaves. -/
def CircuitParams.eight : CircuitParams := ⟨2, 16, 8, 10, Nat.two_pos, by decide⟩

/-- Its last leaf. -/
theorem last_leaf_evicted :
    15 ∈ evicted .eight
      (Run.exec CircuitParams.eight.step (CircuitParams.eight.initialized ⟨0, 0, []⟩)
        [⟨3, .read, 5⟩, ⟨4, .write [], 6⟩])
      (List.replicate 5 ⟨0, .read, 7⟩) :=
  @every_leaf_evicted .eight (by decide) ⟨0, 0, []⟩ [⟨3, .read, 5⟩, ⟨4, .write [], 6⟩]
    (List.replicate 5 ⟨0, .read, 7⟩) (by decide) 15 ⟨by decide, by decide⟩

end

end DeSearch
