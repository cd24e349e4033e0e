import DeSearch.CircuitEvict
import DeSearch.Lib.Run

/-!
# The Circuit ORAM as an array

A state stores an array (`StoresArray`) if all copies of a block carry the data of the array, blocks
in the tree lie on the path of their label, and one copy of each block has the label in `posmap`.
The evictions keep this, for every leaf, and a fetch keeps it as long as no old copy survives a
write.

That is where the source falls short. A block that is found on the path is made a dummy there, but
a block that is found in the stash stays in the stash, so that the access leaves an old copy behind.
After reads the copies are alike and do no harm. After a write the old copy can be found in place of
the new one. Reads are right along every run that writes a block only when it is not in the stash
and none of its copies is off the path that the access reads (`Careful`).

The querier fills its instances once, block by block, and then only reads. Such runs meet the
condition (`careful_of_firstWrites`), and so the arrays in the model of the querier are what its
instances implement (`oram_of_firstWrites`).
-/

namespace DeSearch

open HeapPath (IsLeaf)

variable {p : CircuitParams} {st : CircuitState} {b : OramBlock}

/-! ## States -/

theorem not_isDummy {gN id : Nat} (hid : id < gN) (h : b.id = id) : ¬b.IsDummy gN :=
  fun hdummy => Nat.ne_of_lt hid (h.symm.trans hdummy)

/-- The block is in the stash or in the tree. -/
def CircuitState.Holds (st : CircuitState) (b : OramBlock) : Prop :=
  b ∈ st.stash ∨ ∃ n, b ∈ st.tree n

/-- The state stores an array. There may be several copies of a block, with different labels,
but all have the data of the array. Blocks in the tree lie on the path of their label, and one copy
of each block has the label that `posmap` knows. -/
structure StoresArray (p : CircuitParams) (st : CircuitState) (m : Nat → Bytes) : Prop where
  posmap : ∀ id < p.maxBlocks, IsLeaf p.pD (st.posmap id)
  block : ∀ b, ¬b.IsDummy p.maxBlocks → st.Holds b →
    b.id < p.maxBlocks ∧ IsLeaf p.pD b.treeLabel ∧ b.data = m b.id
  placed : ∀ n, ∀ b ∈ st.tree n, ¬b.IsDummy p.maxBlocks → ∃ j < p.depth, b.treeLabel >>> j = n
  found : ∀ id < p.maxBlocks, ∃ b, b.id = id ∧ b.treeLabel = st.posmap id ∧ st.Holds b

/-! ## Eviction -/

theorem length_downloadPath (D leaf : Nat) (tree : Nat → List OramBlock) :
    (downloadPath D leaf tree).length = D :=
  HeapPath.length_read tree D leaf

/-- The level of the `j`-th bucket from the leaf. -/
theorem getElem?_levels {α : Type*} {path : List α} {d j : Nat} (hlen : path.length = d)
    (h : j < d) (x : α) : (x :: path.reverse)[d - j]? = path[j]? := by
  obtain ⟨k, hk⟩ : ∃ k, d - j = k + 1 := ⟨d - j - 1, by omega⟩
  rw [hk, List.getElem?_cons_succ, List.getElem?_reverse (by omega)]
  congr 1
  omega

/-- An eviction replaces the stash and the buckets of a path. -/
theorem evictPath_eq (p : CircuitParams) (leaf : Nat) (st : CircuitState) :
    ∃ stash path, path.length = p.depth ∧
      evictLevels p.depth p.maxBlocks leaf
        (st.stash :: (downloadPath p.depth leaf st.tree).reverse) = stash :: path.reverse ∧
      evictPath p leaf st =
        { st with stash := stash, tree := uploadPath p.depth leaf path st.tree } := by
  have hlen := length_evictLevels p.depth p.maxBlocks leaf
    (st.stash :: (downloadPath p.depth leaf st.tree).reverse)
  rw [List.length_cons, List.length_reverse, length_downloadPath] at hlen
  unfold evictPath
  dsimp only
  cases hlevels : evictLevels p.depth p.maxBlocks leaf
      (st.stash :: (downloadPath p.depth leaf st.tree).reverse) with
  | nil => simp [hlevels] at hlen
  | cons stash levels =>
      rw [hlevels, List.length_cons] at hlen
      exact ⟨stash, levels.reverse, by rw [List.length_reverse]; omega, by simp, rfl⟩

theorem depth_pos (p : CircuitParams) : 0 < p.depth := Nat.succ_pos _

section
variable {leaf : Nat}

/-- The blocks of an uploaded path and of the buckets off the path. -/
theorem mem_uploadPath {path : List (List OramBlock)} {tree : Nat → List OramBlock} {n : Nat}
    (hleaf : IsLeaf p.pD leaf) (hlen : path.length = p.depth) :
    b ∈ uploadPath p.depth leaf path tree n ↔
      (∃ j bucket, leaf >>> j = n ∧ path[j]? = some bucket ∧ b ∈ bucket) ∨
        (∀ j < p.depth, leaf >>> j ≠ n) ∧ b ∈ tree n := by
  have hat {j : Nat} {bucket : List OramBlock} (hj : path[j]? = some bucket) :
      uploadPath p.depth leaf path tree (leaf >>> j) = bucket := by
    obtain ⟨hlt, -⟩ := List.getElem?_eq_some_iff.1 hj
    rw [hlen, CircuitParams.depth] at hlt
    exact HeapPath.write_shiftRight hleaf (Nat.le_of_lt_succ hlt) hj
  constructor
  · intro hmem
    obtain ⟨j, hj, rfl⟩ | hoff := @HeapPath.on_or_off p.depth leaf n
    · have hbucket := List.getElem?_eq_getElem (hlen.symm ▸ hj : j < path.length)
      rw [hat hbucket] at hmem
      exact .inl ⟨j, _, rfl, hbucket, hmem⟩
    · rw [uploadPath, HeapPath.write_of_ne (depth_pos p) hoff] at hmem
      exact .inr ⟨hoff, hmem⟩
  · intro h
    obtain ⟨j, bucket, rfl, hj, hmem⟩ | ⟨hoff, hmem⟩ := h
    · rwa [hat hj]
    · rwa [uploadPath, HeapPath.write_of_ne (depth_pos p) hoff]

/-- A state's blocks, those on a path told from those off it. -/
theorem holds_iff :
    st.Holds b ↔
      (∃ blocks ∈ st.stash :: (downloadPath p.depth leaf st.tree).reverse, b ∈ blocks) ∨
        ∃ n, (∀ j < p.depth, leaf >>> j ≠ n) ∧ b ∈ st.tree n := by
  have hlevels : (∃ blocks ∈ st.stash :: (downloadPath p.depth leaf st.tree).reverse, b ∈ blocks) ↔
      b ∈ st.stash ∨ ∃ j < p.depth, b ∈ st.tree (leaf >>> j) := by
    simp [downloadPath, HeapPath.read]
  rw [hlevels, or_assoc]
  refine or_congr_right ⟨fun h => ?_, fun h => ?_⟩
  · obtain ⟨n, hn⟩ := h
    obtain ⟨j, hj, rfl⟩ | hoff := @HeapPath.on_or_off p.depth leaf n
    · exact .inl ⟨j, hj, hn⟩
    · exact .inr ⟨n, hoff, hn⟩
  · obtain ⟨j, -, hn⟩ | ⟨n, -, hn⟩ := h
    · exact ⟨_, hn⟩
    · exact ⟨n, hn⟩

/-- No block is lost or made up. -/
theorem holds_evictPath (hleaf : IsLeaf p.pD leaf) (hb : ¬b.IsDummy p.maxBlocks) :
    (evictPath p leaf st).Holds b ↔ st.Holds b := by
  obtain ⟨stash, path, hlen, hlevels, hst⟩ := evictPath_eq p leaf st
  have hmem := @mem_evictLevels p.depth p.maxBlocks leaf
    (st.stash :: (downloadPath p.depth leaf st.tree).reverse) b hb
  rw [hlevels] at hmem
  rw [@holds_iff p st b leaf, ← hmem, hst, CircuitState.Holds]
  simp only [mem_uploadPath hleaf hlen, List.mem_cons, List.mem_reverse, exists_eq_or_imp]
  rw [or_assoc]
  refine or_congr_right ⟨fun h => ?_, fun h => ?_⟩
  · obtain ⟨n, ⟨j, bucket, -, hj, hbucket⟩ | hoff⟩ := h
    · exact .inl ⟨bucket, List.mem_of_getElem? hj, hbucket⟩
    · exact .inr ⟨n, hoff⟩
  · obtain ⟨bucket, hmem, hbucket⟩ | ⟨n, hoff⟩ := h
    · obtain ⟨j, hj⟩ := List.mem_iff_getElem?.1 hmem
      exact ⟨_, .inl ⟨j, bucket, rfl, hj, hbucket⟩⟩
    · exact ⟨n, .inr hoff⟩

/-- The stash only gets smaller. -/
theorem mem_stash_of_evictPath (hb : ¬b.IsDummy p.maxBlocks)
    (h : b ∈ (evictPath p leaf st).stash) : b ∈ st.stash := by
  obtain ⟨stash, path, hlen, hlevels, hst⟩ := evictPath_eq p leaf st
  rw [hst] at h
  have hzero : (stash :: path.reverse)[0]? = some stash := rfl
  rw [← hlevels] at hzero
  obtain hold | ⟨-, s, hs, -⟩ := placed_evictLevels rfl hzero h hb
  · exact hold
  · exact absurd hs (Nat.not_lt_zero s)

/-- A block that an eviction brings into a bucket comes from the stash or from a bucket further up,
and the bucket is on the path of its label. -/
theorem mem_tree_of_evictPath (hleaf : IsLeaf p.pD leaf) (hb : ¬b.IsDummy p.maxBlocks) {n : Nat}
    (h : b ∈ (evictPath p leaf st).tree n) :
    b ∈ st.tree n ∨ ∃ j < p.depth, b.treeLabel >>> j = n ∧
      (b ∈ st.stash ∨ ∃ i < p.depth, i ≠ 0 ∧ b ∈ st.tree (leaf >>> i)) := by
  obtain ⟨stash, path, hlen, hlevels, hst⟩ := evictPath_eq p leaf st
  rw [hst] at h
  obtain ⟨j, bucket, rfl, hj, hmem⟩ | ⟨-, hmem⟩ := (mem_uploadPath hleaf hlen).1 h
  · obtain ⟨hlt, -⟩ := List.getElem?_eq_some_iff.1 hj
    rw [hlen] at hlt
    have hnew : (evictLevels p.depth p.maxBlocks leaf
        (st.stash :: (downloadPath p.depth leaf st.tree).reverse))[p.depth - j]? = some bucket := by
      rw [hlevels, getElem?_levels hlen hlt, hj]
    have hold {i : Nat} (hi : i < p.depth) :
        (st.stash :: (downloadPath p.depth leaf st.tree).reverse)[p.depth - i]? =
          some (st.tree (leaf >>> i)) := by
      rw [getElem?_levels (length_downloadPath ..) hi]
      exact HeapPath.getElem?_read _ _ _ hi
    obtain hsame | ⟨hfits, s, hs, above, habove, hfrom⟩ :=
      placed_evictLevels (hold hlt) hnew hmem hb
    · exact .inl hsame
    · have hback : p.depth - (p.depth - j) = j := by omega
      refine .inr ⟨j, hlt, by rwa [OramBlock.Fits, hback] at hfits, ?_⟩
      cases s with
      | zero =>
          cases habove
          exact .inl hfrom
      | succ s =>
          have hup := @hold (p.depth - (s + 1)) (by omega)
          rw [show p.depth - (p.depth - (s + 1)) = s + 1 by omega, habove] at hup
          cases hup
          exact .inr ⟨p.depth - (s + 1), by omega, by omega, hfrom⟩
  · exact .inl hmem

theorem posmap_evictPath (p : CircuitParams) (leaf : Nat) (st : CircuitState) :
    (evictPath p leaf st).posmap = st.posmap := by
  obtain ⟨stash, path, -, -, hst⟩ := evictPath_eq p leaf st
  rw [hst]

theorem StoresArray.evictPath {m : Nat → Bytes} (h : StoresArray p st m)
    (hleaf : IsLeaf p.pD leaf) : StoresArray p (evictPath p leaf st) m := by
  refine ⟨?_, ?_, ?_, ?_⟩
  · rw [posmap_evictPath]
    exact h.posmap
  · intro b hb hheld
    exact h.block b hb ((holds_evictPath hleaf hb).1 hheld)
  · intro n b hmem hb
    obtain hold | ⟨j, hj, hlabel, -⟩ := mem_tree_of_evictPath hleaf hb hmem
    · exact h.placed n b hold hb
    · exact ⟨j, hj, hlabel⟩
  · intro id hid
    obtain ⟨b, rfl, hlabel, hheld⟩ := h.found id hid
    rw [posmap_evictPath]
    exact ⟨b, rfl, hlabel, (holds_evictPath hleaf (not_isDummy hid rfl)).2 hheld⟩

end

theorem isLeaf_add {j : Nat} (h : j < p.leaves) : IsLeaf p.pD (p.leaves + j) := by
  rw [CircuitParams.leaves] at h ⊢
  exact ⟨Nat.le_add_right _ _, by rw [pow_succ]; omega⟩

/-- The leaves of evictions are leaves. -/
theorem isLeaf_firstkbits (p : CircuitParams) (n : BitVec 32) :
    IsLeaf p.pD (p.leaves + firstkbits n (p.depth - 1)) := by
  have hlt : firstkbits n (p.depth - 1) < 2 ^ p.pD := by
    have hn := n.isLt
    rw [firstkbits, BitVec.toNat_ushiftRight, Nat.shiftRight_eq_div_pow, CircuitParams.depth,
      Nat.add_sub_cancel, Nat.div_lt_iff_lt_mul (Nat.two_pow_pos _), ← pow_add]
    exact lt_of_lt_of_le hn (Nat.pow_le_pow_right (by decide) (by omega))
  exact isLeaf_add hlt

theorem StoresArray.evictionRoutine {m : Nat → Bytes} (h : StoresArray p st m) :
    StoresArray p (evictionRoutine p st) m := by
  have hcounter (counter : BitVec 32) : StoresArray p { st with accessCounter := counter } m :=
    ⟨h.posmap, h.block, h.placed, h.found⟩
  unfold DeSearch.evictionRoutine
  apply StoresArray.evictPath _ (isLeaf_firstkbits p _)
  apply StoresArray.evictPath _ (isLeaf_firstkbits p _)
  apply hcounter

/-! ## Fetching a block -/

/-- The last element that meets a condition, as a loop finds it. -/
theorem foldl_last {α : Type*} (q : α → Prop) [DecidablePred q] (l : List α) (r : α) :
    (∃ x ∈ l, q x ∧ l.foldl (fun r x => if q x then x else r) r = x) ∨
      (∀ x ∈ l, ¬q x) ∧ l.foldl (fun r x => if q x then x else r) r = r := by
  induction l generalizing r with
  | nil => exact .inr ⟨by simp, rfl⟩
  | cons y l ih =>
      rw [List.foldl_cons]
      obtain ⟨x, hx, hq, heq⟩ | ⟨hnone, heq⟩ := ih (if q y then y else r)
      · exact .inl ⟨x, List.mem_cons_of_mem y hx, hq, heq⟩
      · by_cases hy : q y
        · exact .inl ⟨y, List.mem_cons_self, hy, by rw [heq, if_pos hy]⟩
        · refine .inr ⟨?_, by rw [heq, if_neg hy]⟩
          intro x hx
          obtain rfl | hmem := List.mem_cons.1 hx
          · exact hy
          · exact hnone x hmem

/-- The result block is a copy of the block, if there is one on the path or in the stash. -/
theorem findBlock_spec {leaf id : Nat} (result : OramBlock) (hid : id < p.maxBlocks)
    (h : (∃ j < p.depth, ∃ b ∈ st.tree (leaf >>> j), b.id = id) ∨ ∃ b ∈ st.stash, b.id = id) :
    (findBlock p.maxBlocks id (downloadPath p.depth leaf st.tree) st.stash result).id = id ∧
      st.Holds (findBlock p.maxBlocks id (downloadPath p.depth leaf st.tree) st.stash result) := by
  unfold findBlock
  dsimp only
  generalize hr : (downloadPath p.depth leaf st.tree).flatten.foldl _ result = r
  obtain ⟨b, hmem, ⟨hbid, -⟩, heq⟩ | ⟨hnone, heq⟩ :=
    foldl_last (fun b => b.id = id ∧ ¬b.IsDummy p.maxBlocks) st.stash r
  · rw [heq]
    exact ⟨hbid, .inl hmem⟩
  · rw [heq, ← hr]
    obtain ⟨b, hmem, hbid, heq'⟩ | ⟨hnone', -⟩ :=
      foldl_last (fun b => b.id = id) (downloadPath p.depth leaf st.tree).flatten result
    · rw [heq']
      refine ⟨hbid, .inr ?_⟩
      obtain ⟨bucket, hbucket, hb⟩ := List.mem_flatten.1 hmem
      obtain ⟨j, -, rfl⟩ := List.mem_map.1 hbucket
      exact ⟨_, hb⟩
    · exfalso
      obtain ⟨j, hj, b, hb, hbid⟩ | ⟨b, hb, hbid⟩ := h
      · have hbucket : st.tree (leaf >>> j) ∈ downloadPath p.depth leaf st.tree :=
          List.mem_map.2 ⟨j, List.mem_range.2 hj, rfl⟩
        exact hnone' b (List.mem_flatten.2 ⟨_, hbucket, hb⟩) hbid
      · exact hnone b hb ⟨hbid, not_isDummy hid hbid⟩

theorem mem_passInsert {gN : Nat} {block : OramBlock} {stash : List OramBlock}
    (hblock : ¬block.IsDummy gN) (hroom : ∃ d ∈ stash, d.IsDummy gN) (hb : ¬b.IsDummy gN) :
    b ∈ passInsert gN block stash ↔ b = block ∨ b ∈ stash := by
  induction stash with
  | nil => simp at hroom
  | cons d stash ih =>
      rw [passInsert]
      by_cases hd : d.IsDummy gN
      · have hne : b ≠ d := fun heq => hb (heq ▸ hd)
        rw [if_pos ⟨hblock, hd⟩]
        simp [hne]
      · have hroom' : ∃ d ∈ stash, d.IsDummy gN := by simpa [hd] using hroom
        rw [if_neg fun h => hd h.2, List.mem_cons, ih hroom', List.mem_cons, or_left_comm]

theorem length_removeBlock (gN id : Nat) (path : List (List OramBlock)) :
    (removeBlock gN id path).length = path.length :=
  List.length_map _

theorem getElem?_removeBlock {leaf id j : Nat} (hj : j < p.depth) :
    (removeBlock p.maxBlocks id (downloadPath p.depth leaf st.tree))[j]? =
      some ((st.tree (leaf >>> j)).map
        fun b => if b.id = id then b.asDummy p.maxBlocks else b) := by
  rw [removeBlock, List.getElem?_map, downloadPath, HeapPath.getElem?_read _ _ _ hj]
  rfl

theorem mem_map_asDummy {gN id : Nat} {bucket : List OramBlock} (hb : ¬b.IsDummy gN) :
    b ∈ bucket.map (fun b => if b.id = id then b.asDummy gN else b) ↔ b ∈ bucket ∧ b.id ≠ id := by
  rw [List.mem_map]
  constructor
  · intro h
    obtain ⟨x, hx, heq⟩ := h
    split_ifs at heq with hxid
    · exact absurd (heq ▸ isDummy_asDummy x) hb
    · exact heq ▸ ⟨hx, hxid⟩
  · intro h
    exact ⟨b, h.1, if_neg h.2⟩

/-- The copies of a block on a path are removed from the tree. -/
theorem mem_removeBlock {leaf id n : Nat} (hleaf : IsLeaf p.pD leaf)
    (hb : ¬b.IsDummy p.maxBlocks) :
    b ∈ uploadPath p.depth leaf
        (removeBlock p.maxBlocks id (downloadPath p.depth leaf st.tree)) st.tree n ↔
      b ∈ st.tree n ∧ (b.id = id → ∀ j < p.depth, leaf >>> j ≠ n) := by
  have hlen :
      (removeBlock p.maxBlocks id (downloadPath p.depth leaf st.tree)).length = p.depth := by
    rw [length_removeBlock, length_downloadPath]
  rw [mem_uploadPath hleaf hlen]
  constructor
  · intro h
    obtain ⟨j, bucket, rfl, hj, hmem⟩ | ⟨hoff, hmem⟩ := h
    · obtain ⟨hlt, -⟩ := List.getElem?_eq_some_iff.1 hj
      rw [getElem?_removeBlock (hlen ▸ hlt)] at hj
      cases hj
      obtain ⟨hmem, hid⟩ := (mem_map_asDummy hb).1 hmem
      exact ⟨hmem, fun h => absurd h hid⟩
    · exact ⟨hmem, fun _ => hoff⟩
  · intro h
    obtain ⟨hmem, hoff⟩ := h
    obtain ⟨j, hj, rfl⟩ | hoff' := @HeapPath.on_or_off p.depth leaf n
    · refine .inl ⟨j, _, rfl, getElem?_removeBlock hj, (mem_map_asDummy hb).2 ⟨hmem, ?_⟩⟩
      exact fun hid => hoff hid j hj rfl
    · exact .inr ⟨hoff', hmem⟩

/-! ## Access -/

/-- A call as it acts on an array. -/
def arrayStep (req : OramRequest) (m : Nat → Bytes) : Nat → Bytes :=
  match req.op with
  | .read => m
  | .write dataIn => Function.update m req.id dataIn

/-- No copy of the block is in the stash, and none lies off the path that an access reads. -/
def Gathered (p : CircuitParams) (st : CircuitState) (id : Nat) : Prop :=
  (∀ b ∈ st.stash, b.id ≠ id) ∧
    ∀ n, ∀ b ∈ st.tree n, b.id = id → ∃ j < p.depth, st.posmap id >>> j = n

/-- The stash has a free slot. -/
def Roomy (p : CircuitParams) (st : CircuitState) : Prop := ∃ b ∈ st.stash, b.IsDummy p.maxBlocks

/-- The block that an access finds. -/
theorem StoresArray.findBlock {m : Nat → Bytes} (h : StoresArray p st m) {id : Nat}
    (hid : id < p.maxBlocks) (result : OramBlock) :
    ∃ b, b.id = id ∧ b.data = m id ∧
      findBlock p.maxBlocks id (downloadPath p.depth (st.posmap id) st.tree) st.stash result =
        b := by
  have hcopy : (∃ j < p.depth, ∃ b ∈ st.tree (st.posmap id >>> j), b.id = id) ∨
      ∃ b ∈ st.stash, b.id = id := by
    obtain ⟨b, rfl, hlabel, hmem | ⟨n, hmem⟩⟩ := h.found id hid
    · exact .inr ⟨b, hmem, rfl⟩
    · obtain ⟨j, hj, rfl⟩ := h.placed n b hmem (not_isDummy hid rfl)
      exact .inl ⟨j, hj, b, hlabel ▸ hmem, rfl⟩
  obtain ⟨hbid, hheld⟩ := findBlock_spec result hid hcopy
  refine ⟨_, hbid, ?_, rfl⟩
  rw [(h.block _ (not_isDummy hid hbid) hheld).2.2, hbid]

/-- The data that a call writes to `data_out`. -/
def arrayOut (req : OramRequest) (m : Nat → Bytes) : Option Bytes :=
  match req.op with
  | .read => some (m req.id)
  | .write _ => none

/-- The block that a call puts into the stash. -/
def newBlock (p : CircuitParams) (req : OramRequest) (m : Nat → Bytes) : OramBlock :=
  ⟨req.id, p.leaves + req.random % p.leaves, arrayStep req m req.id⟩

/-- The state between the fetch and the evictions. -/
def fetched (p : CircuitParams) (req : OramRequest) (m : Nat → Bytes) (st : CircuitState) :
    CircuitState where
  tree := uploadPath p.depth (st.posmap req.id)
    (removeBlock p.maxBlocks req.id (downloadPath p.depth (st.posmap req.id) st.tree)) st.tree
  stash := passInsert p.maxBlocks (newBlock p req m) st.stash
  posmap := Function.update st.posmap req.id (p.leaves + req.random % p.leaves)
  accessCounter := st.accessCounter
  resultBlock := newBlock p req m

theorem StoresArray.access_eq {m : Nat → Bytes} (h : StoresArray p st m) {req : OramRequest}
    (hid : req.id < p.maxBlocks) :
    access p st req = (arrayOut req m, DeSearch.evictionRoutine p (fetched p req m st)) := by
  obtain ⟨b, hbid, hdata, hfind⟩ := h.findBlock hid st.resultBlock
  obtain ⟨id, op, random⟩ := req
  obtain ⟨id', label, data⟩ := b
  cases hbid
  cases hdata
  unfold access fetchBlock
  dsimp only
  rw [hfind]
  cases op with
  | read => rfl
  | write dataIn =>
      simp [fetched, newBlock, arrayStep, arrayOut]

theorem isLeaf_newleaf (p : CircuitParams) (random : Nat) :
    IsLeaf p.pD (p.leaves + random % p.leaves) :=
  isLeaf_add (Nat.mod_lt random (Nat.two_pow_pos p.pD))

theorem arrayStep_of_ne {req : OramRequest} {x : Nat} (h : x ≠ req.id) (m : Nat → Bytes) :
    arrayStep req m x = m x := by
  obtain ⟨id, op, random⟩ := req
  cases op with
  | read => rfl
  | write dataIn => exact Function.update_of_ne h dataIn m

theorem arrayStep_of_not_write {req : OramRequest} (h : ∀ dataIn, req.op ≠ .write dataIn)
    (m : Nat → Bytes) : arrayStep req m = m := by
  obtain ⟨id, op, random⟩ := req
  cases op with
  | read => rfl
  | write dataIn => exact absurd rfl (h dataIn)

section
variable {m : Nat → Bytes} {req : OramRequest}

theorem posmap_fetched_self :
    (fetched p req m st).posmap req.id = p.leaves + req.random % p.leaves :=
  Function.update_self ..

theorem posmap_fetched_of_ne {id : Nat} (h : id ≠ req.id) :
    (fetched p req m st).posmap id = st.posmap id :=
  Function.update_of_ne h ..

theorem mem_tree_fetched (hleaf : IsLeaf p.pD (st.posmap req.id)) {n : Nat}
    (hb : ¬b.IsDummy p.maxBlocks) :
    b ∈ (fetched p req m st).tree n ↔
      b ∈ st.tree n ∧ (b.id = req.id → ∀ j < p.depth, st.posmap req.id >>> j ≠ n) :=
  mem_removeBlock hleaf hb

theorem mem_stash_fetched (hid : req.id < p.maxBlocks) (hroom : Roomy p st)
    (hb : ¬b.IsDummy p.maxBlocks) :
    b ∈ (fetched p req m st).stash ↔ b = newBlock p req m ∨ b ∈ st.stash :=
  mem_passInsert (not_isDummy hid rfl) hroom hb

/-- **The fetch.** Old copies that are left have the data of the array: either nothing is written,
or there are none. -/
theorem StoresArray.fetched (h : StoresArray p st m) (hid : req.id < p.maxBlocks)
    (hroom : Roomy p st) (hwrite : ∀ dataIn, req.op = .write dataIn → Gathered p st req.id) :
    StoresArray p (fetched p req m st) (arrayStep req m) := by
  have hleaf := h.posmap req.id hid
  have hnew : ¬(newBlock p req m).IsDummy p.maxBlocks := not_isDummy hid rfl
  have hold {b : OramBlock} (hb : ¬b.IsDummy p.maxBlocks) (hst : st.Holds b)
      (hleft : b.id = req.id → ¬Gathered p st req.id) :
      b.id < p.maxBlocks ∧ IsLeaf p.pD b.treeLabel ∧ b.data = arrayStep req m b.id := by
    obtain ⟨hlt, hlabel, hdata⟩ := h.block b hb hst
    refine ⟨hlt, hlabel, ?_⟩
    by_cases heq : b.id = req.id
    · rw [arrayStep_of_not_write fun dataIn hop => hleft heq (hwrite dataIn hop), hdata]
    · rw [arrayStep_of_ne heq, hdata]
  refine ⟨?_, ?_, ?_, ?_⟩
  · intro id hid'
    by_cases heq : id = req.id
    · subst heq
      rw [posmap_fetched_self]
      exact isLeaf_newleaf p req.random
    · rw [posmap_fetched_of_ne heq]
      exact h.posmap id hid'
  · intro b hb hheld
    obtain hmem | ⟨n, hmem⟩ := hheld
    · obtain rfl | hmem := (mem_stash_fetched hid hroom hb).1 hmem
      · exact ⟨hid, isLeaf_newleaf p req.random, rfl⟩
      · exact hold hb (.inl hmem) fun heq hg => hg.1 b hmem heq
    · obtain ⟨hmem, hoff⟩ := (mem_tree_fetched hleaf hb).1 hmem
      refine hold hb (.inr ⟨n, hmem⟩) fun heq hg => ?_
      obtain ⟨j, hj, hn⟩ := hg.2 n b hmem heq
      exact hoff heq j hj hn
  · intro n b hmem hb
    exact h.placed n b ((mem_tree_fetched hleaf hb).1 hmem).1 hb
  · intro id hid'
    by_cases heq : id = req.id
    · subst heq
      exact ⟨newBlock p req m, rfl, posmap_fetched_self.symm,
        .inl ((mem_stash_fetched hid hroom hnew).2 (.inl rfl))⟩
    · obtain ⟨b, rfl, hlabel, hheld⟩ := h.found id hid'
      have hb : ¬b.IsDummy p.maxBlocks := not_isDummy hid' rfl
      refine ⟨b, rfl, hlabel.trans (posmap_fetched_of_ne heq).symm, ?_⟩
      obtain hmem | ⟨n, hmem⟩ := hheld
      · exact .inl ((mem_stash_fetched hid hroom hb).2 (.inr hmem))
      · exact .inr ⟨n, (mem_tree_fetched hleaf hb).2 ⟨hmem, fun h => absurd h heq⟩⟩

end

/-- A call as it acts on the state. -/
def CircuitParams.step (p : CircuitParams) (req : OramRequest) (st : CircuitState) :
    CircuitState :=
  (access p st req).2

/-- The id is in range, and `pass_insert` finds a free slot. -/
def Allowed (p : CircuitParams) (st : CircuitState) (req : OramRequest) : Prop :=
  req.id < p.maxBlocks ∧ Roomy p st

instance (p : CircuitParams) (st : CircuitState) (req : OramRequest) :
    Decidable (Allowed p st req) :=
  inferInstanceAs (Decidable (_ ∧ ∃ b ∈ st.stash, b.IsDummy p.maxBlocks))

/-- A call that is allowed, and writes no block of which there are other copies. -/
def Careful (p : CircuitParams) (st : CircuitState) (req : OramRequest) : Prop :=
  Allowed p st req ∧ ∀ dataIn, req.op = .write dataIn → Gathered p st req.id

/-- **One call.** -/
theorem StoresArray.step {m : Nat → Bytes} {req : OramRequest} (hc : Careful p st req)
    (h : StoresArray p st m) : StoresArray p (p.step req st) (arrayStep req m) := by
  obtain ⟨⟨hid, hroom⟩, hwrite⟩ := hc
  rw [CircuitParams.step, h.access_eq hid]
  dsimp only
  apply StoresArray.evictionRoutine
  exact h.fetched hid hroom hwrite

/-! ## The state at the start -/

theorem le_two_pow_ceilLog (n : Nat) : n ≤ 2 ^ ceilLog n := by
  unfold ceilLog
  split_ifs with h
  · simpa using h
  · have hlt := @Nat.lt_log2_self (n - 1)
    omega

/-- The leaves have room for all blocks. -/
theorem maxBlocks_le (p : CircuitParams) : p.maxBlocks ≤ p.z * p.leaves := by
  have hceil : (p.maxBlocks + p.z - 1) / p.z ≤ p.leaves := le_two_pow_ceilLog _
  have hdiv := Nat.lt_mul_div_succ (p.maxBlocks + p.z - 1) p.z_pos
  have hmul := Nat.mul_le_mul_left p.z hceil
  rw [Nat.mul_add] at hdiv
  omega

theorem blocksIn_le (p : CircuitParams) (j : Nat) : p.blocksIn j ≤ p.z := by
  have hle := maxBlocks_le p
  have hdiv := Nat.div_add_mod' p.maxBlocks p.leaves
  unfold CircuitParams.blocksIn
  split_ifs with hj
  · have hlt : p.maxBlocks / p.leaves * p.leaves < p.z * p.leaves := by omega
    exact Nat.lt_of_mul_lt_mul_right hlt
  · have hle' : p.maxBlocks / p.leaves * p.leaves ≤ p.z * p.leaves := by omega
    exact Nat.le_of_mul_le_mul_right hle' (Nat.two_pow_pos _)

theorem leaves_pos (p : CircuitParams) : 0 < p.leaves := Nat.two_pow_pos _

/-- `label` counts the blocks of each leaf. -/
theorem firstLabel_succ (p : CircuitParams) (j : Nat) :
    p.firstLabel (j + 1) = p.firstLabel j + p.blocksIn j := by
  unfold CircuitParams.firstLabel CircuitParams.blocksIn
  rw [Nat.mul_add_one]
  split_ifs <;> omega

theorem firstLabel_leaves (p : CircuitParams) : p.firstLabel p.leaves = p.maxBlocks := by
  have hmod := Nat.mod_lt p.maxBlocks (leaves_pos p)
  rw [CircuitParams.firstLabel, Nat.min_eq_right hmod.le, Nat.div_add_mod']

theorem firstLabel_mono (p : CircuitParams) {i j : Nat} (h : i ≤ j) :
    p.firstLabel i ≤ p.firstLabel j :=
  Nat.add_le_add (Nat.mul_le_mul_left _ h) (min_le_min_right _ h)

theorem firstLabel_add_lt {j q : Nat} (hj : j < p.leaves) (hq : q < p.blocksIn j) :
    p.firstLabel j + q < p.maxBlocks := by
  have hsucc := firstLabel_succ p j
  have hmono := firstLabel_mono p (show j + 1 ≤ p.leaves from hj)
  rw [firstLabel_leaves] at hmono
  omega

/-- A block is among the blocks of its leaf. -/
theorem leafOf_spec {id : Nat} (h : id < p.maxBlocks) :
    p.leafOf id < p.leaves ∧ p.firstLabel (p.leafOf id) ≤ id ∧
      id < p.firstLabel (p.leafOf id) + p.blocksIn (p.leafOf id) := by
  have hmod := Nat.mod_lt p.maxBlocks (leaves_pos p)
  have hdiv := Nat.div_add_mod' p.maxBlocks p.leaves
  rw [← firstLabel_succ]
  unfold CircuitParams.leafOf CircuitParams.firstLabel
  generalize p.maxBlocks / p.leaves = per at hdiv ⊢
  generalize p.maxBlocks % p.leaves = c at hdiv hmod ⊢
  split_ifs with hfirst
  · -- one of the leaves with a block more
    have hlt : id / (per + 1) < c := (Nat.div_lt_iff_lt_mul (by omega)).2 (by rwa [Nat.mul_comm])
    have hlow := Nat.mul_div_le id (per + 1)
    have hhigh := Nat.lt_mul_div_succ id (show 0 < per + 1 by omega)
    generalize id / (per + 1) = j at hlt hlow hhigh ⊢
    rw [Nat.min_eq_left (by omega), Nat.min_eq_left (by omega)]
    rw [Nat.add_mul] at hlow hhigh
    omega
  · have hper : 0 < per := by
      by_contra hzero
      obtain rfl : per = 0 := by omega
      omega
    rw [Nat.add_mul] at hfirst
    have hc : c ≤ (id - c) / per := (Nat.le_div_iff_mul_le hper).2 (by rw [Nat.mul_comm]; omega)
    have hlt : (id - c) / per < p.leaves :=
      (Nat.div_lt_iff_lt_mul hper).2 (by rw [Nat.mul_comm]; omega)
    have hlow := Nat.mul_div_le (id - c) per
    have hhigh := Nat.lt_mul_div_succ (id - c) hper
    generalize (id - c) / per = j at hc hlt hlow hhigh ⊢
    rw [Nat.min_eq_right hc, Nat.min_eq_right (by omega)]
    omega

/-- The real blocks of the first tree. -/
theorem mem_buildTree {n : Nat} (h : b ∈ p.buildTree n) (hb : ¬b.IsDummy p.maxBlocks) :
    ∃ j < p.leaves, ∃ q < p.blocksIn j, n = p.leaves + j ∧
      b = ⟨p.firstLabel j + q, p.leaves + j, p.dummy.data⟩ := by
  unfold CircuitParams.buildTree at h
  split_ifs at h with hleaf hinner
  · unfold CircuitParams.leafBucket at h
    obtain ⟨q, -, rfl⟩ := List.mem_map.1 h
    split_ifs at hb with hq
    · exact ⟨n - p.leaves, by omega, q, hq, by omega, by rw [if_pos hq]⟩
    · exact absurd rfl hb
  · rw [List.eq_of_mem_replicate h] at hb
    exact absurd rfl hb
  · cases h

theorem mem_leafBucket {id : Nat} (h : id < p.maxBlocks) :
    (⟨id, p.leaves + p.leafOf id, p.dummy.data⟩ : OramBlock) ∈
      p.buildTree (p.leaves + p.leafOf id) := by
  obtain ⟨hleaf, hlow, hhigh⟩ := leafOf_spec h
  have hle := blocksIn_le p (p.leafOf id)
  rw [CircuitParams.buildTree, if_pos (by omega), Nat.add_sub_cancel_left, CircuitParams.leafBucket]
  refine List.mem_map.2 ⟨id - p.firstLabel (p.leafOf id), List.mem_range.2 (by omega), ?_⟩
  rw [if_pos (by omega), Nat.add_sub_of_le hlow]

/-- **At the start** all blocks have the data that `Block::reset` fills in. -/
theorem storesArray_initialized (raw : OramBlock) :
    StoresArray p (p.initialized raw) fun _ => p.dummy.data := by
  have hstash : ∀ b ∈ (p.initialized raw).stash, b.IsDummy p.maxBlocks := by
    intro b hmem
    rw [List.eq_of_mem_replicate hmem]
    rfl
  refine ⟨?_, ?_, ?_, ?_⟩
  · intro id hid
    exact isLeaf_add (leafOf_spec hid).1
  · intro b hb hheld
    obtain hmem | ⟨n, hmem⟩ := hheld
    · exact absurd (hstash b hmem) hb
    · obtain ⟨j, hj, q, hq, rfl, rfl⟩ := mem_buildTree hmem hb
      exact ⟨firstLabel_add_lt hj hq, isLeaf_add hj, rfl⟩
  · intro n b hmem hb
    obtain ⟨j, hj, q, hq, rfl, rfl⟩ := mem_buildTree hmem hb
    exact ⟨0, depth_pos p, rfl⟩
  · intro id hid
    exact ⟨_, rfl, rfl, .inr ⟨_, mem_leafBucket hid⟩⟩

/-! ## Blocks that no call was for -/

/-- All copies of the block are in the bucket of its leaf. -/
def Untouched (st : CircuitState) (id : Nat) : Prop :=
  (∀ b ∈ st.stash, b.id ≠ id) ∧ ∀ n, ∀ b ∈ st.tree n, b.id = id → n = st.posmap id

section
variable {id : Nat}

theorem Untouched.gathered (h : Untouched st id) : Gathered p st id :=
  ⟨h.1, fun n b hmem heq => ⟨0, depth_pos p, (h.2 n b hmem heq).symm⟩⟩

/-- Only the leaf's own blocks are in its bucket. -/
theorem leafOf_eq {j q : Nat} (hj : j < p.leaves) (hq : q < p.blocksIn j) :
    p.leafOf (p.firstLabel j + q) = j := by
  have hsucc := firstLabel_succ p j
  obtain ⟨-, hlow, hhigh⟩ := leafOf_spec (firstLabel_add_lt hj hq)
  rw [← firstLabel_succ] at hhigh
  generalize p.leafOf (p.firstLabel j + q) = i at hlow hhigh
  by_contra hne
  obtain hlt | hgt := Nat.lt_or_gt_of_ne hne
  · have hle := firstLabel_mono p (show i + 1 ≤ j from hlt)
    omega
  · have hle := firstLabel_mono p (show j + 1 ≤ i from hgt)
    omega

theorem untouched_initialized (raw : OramBlock) (hid : id < p.maxBlocks) :
    Untouched (p.initialized raw) id := by
  constructor
  · intro b hmem
    rw [List.eq_of_mem_replicate hmem]
    exact Nat.ne_of_gt hid
  · intro n b hmem heq
    obtain ⟨j, hj, q, hq, rfl, rfl⟩ := mem_buildTree hmem (not_isDummy hid heq)
    rw [← heq]
    exact congrArg (p.leaves + ·) (leafOf_eq hj hq).symm

/-- An eviction takes nothing out of the leaves. -/
theorem Untouched.evictPath (h : Untouched st id) (hid : id < p.maxBlocks)
    (hpos : IsLeaf p.pD (st.posmap id)) {leaf : Nat} (hleaf : IsLeaf p.pD leaf) :
    Untouched (evictPath p leaf st) id := by
  constructor
  · intro b hmem heq
    exact h.1 b (mem_stash_of_evictPath (not_isDummy hid heq) hmem) heq
  · intro n b hmem heq
    rw [posmap_evictPath]
    obtain hold | ⟨j, -, -, hstash | ⟨i, hi, hne, hup⟩⟩ :=
      mem_tree_of_evictPath hleaf (not_isDummy hid heq) hmem
    · exact h.2 n b hold heq
    · exact absurd heq (h.1 b hstash)
    · -- the bucket further up would be the leaf
      have hsame := h.2 _ b hup heq
      have hlevel := (hleaf.shiftRight (Nat.le_of_lt_succ hi)).log2_eq
      rw [hsame, hpos.log2_eq] at hlevel
      rw [CircuitParams.depth] at hi
      omega

theorem Untouched.evictionRoutine (h : Untouched st id) (hid : id < p.maxBlocks)
    (hpos : IsLeaf p.pD (st.posmap id)) : Untouched (evictionRoutine p st) id := by
  unfold DeSearch.evictionRoutine
  apply Untouched.evictPath _ hid _ (isLeaf_firstkbits p _)
  · apply Untouched.evictPath _ hid _ (isLeaf_firstkbits p _)
    · exact h
    · exact hpos
  · rw [posmap_evictPath]
    exact hpos

/-- A call for another block leaves the block alone. -/
theorem Untouched.step {m : Nat → Bytes} {req : OramRequest} (h : Untouched st id)
    (hid : id < p.maxBlocks) (hne : id ≠ req.id) (hr : StoresArray p st m)
    (hallowed : Allowed p st req) : Untouched (p.step req st) id := by
  obtain ⟨hreq, hroom⟩ := hallowed
  have hpos := @posmap_fetched_of_ne p st m req id hne
  rw [CircuitParams.step, hr.access_eq hreq]
  dsimp only
  apply Untouched.evictionRoutine _ hid
  · rw [hpos]
    exact hr.posmap id hid
  · constructor
    · intro b hmem heq
      obtain rfl | hmem := (mem_stash_fetched hreq hroom (not_isDummy hid heq)).1 hmem
      · exact hne heq.symm
      · exact h.1 b hmem heq
    · intro n b hmem heq
      rw [hpos]
      exact h.2 n b ((mem_tree_fetched (hr.posmap req.id hreq) (not_isDummy hid heq)).1 hmem).1 heq

end

/-! ## Runs -/

/-- The data of the latest write to a block. -/
def lastWrite (id : Nat) (reqs : List OramRequest) : Option Bytes :=
  reqs.reverse.findSome? fun req =>
    match req.op with
    | .write dataIn => if req.id = id then some dataIn else none
    | .read => none

/-- An array holds what was written last. -/
theorem exec_arrayStep (m : Nat → Bytes) (reqs : List OramRequest) (id : Nat) :
    Run.exec arrayStep m reqs id = (lastWrite id reqs).getD (m id) := by
  induction reqs using List.reverseRecOn with
  | nil => rfl
  | append_singleton reqs req ih =>
      rw [Run.exec_append, Run.exec_cons, Run.exec_nil, lastWrite, List.reverse_append,
        List.reverse_singleton, List.singleton_append, List.findSome?_cons]
      obtain ⟨id', op, random⟩ := req
      cases op with
      | read => exact ih
      | write dataIn =>
          by_cases heq : id' = id
          · subst heq
            simp [arrayStep]
          · rw [arrayStep_of_ne (Ne.symm heq), ih]
            simp [heq, lastWrite]

/-- Along careful calls the state stores what an array would hold. -/
theorem storesArray_exec (raw : OramBlock) {reqs : List OramRequest}
    (h : Run.Meets p.step (Careful p) (p.initialized raw) reqs) :
    StoresArray p (Run.exec p.step (p.initialized raw) reqs)
      (Run.exec arrayStep (fun _ => p.dummy.data) reqs) :=
  h.simulation (storesArray_initialized raw) fun _ _ _ hc hr => hr.step hc

/-- **Reads.** In every run of calls with ids in range, in which `pass_insert` always finds a free
slot and no block is written while there are other copies of it, a read returns the data of the
latest earlier write, or what the block had at the start. -/
theorem read_eq_lastWrite (raw : OramBlock) {reqs : List OramRequest}
    (h : Run.Meets p.step (Careful p) (p.initialized raw) reqs) {id : Nat} (hid : id < p.maxBlocks)
    (random : Nat) :
    (access p (Run.exec p.step (p.initialized raw) reqs) ⟨id, .read, random⟩).1 =
      some ((lastWrite id reqs).getD p.dummy.data) := by
  rw [(storesArray_exec raw h).access_eq hid, ← exec_arrayStep (fun _ => p.dummy.data)]
  rfl

/-- The first write to a block is read back. -/
theorem read_after_write :
    (access .index (Run.exec CircuitParams.index.step
      (CircuitParams.index.initialized CircuitParams.index.dummy)
        [⟨0, .write (List.replicate blockSize 9), 5⟩]) ⟨0, .read, 7⟩).1 =
      some (List.replicate blockSize 9) :=
  @read_eq_lastWrite .index CircuitParams.index.dummy
    [⟨0, .write (List.replicate blockSize 9), 5⟩]
    ⟨⟨by decide +kernel, fun _ _ => (untouched_initialized _ (by decide)).gathered⟩, trivial⟩
    0 (by decide) 7

/-- Calls that bring a second copy of block 31 into the stash before the block is written. -/
def staleRequests : List OramRequest :=
  [⟨14, .read, 3072⟩, ⟨12, .read, 3328⟩, ⟨17, .read, 3328⟩, ⟨0, .read, 3328⟩,
    ⟨10, .read, 3072⟩, ⟨4, .read, 2080⟩, ⟨31, .read, 3072⟩,
    ⟨31, .write (List.replicate blockSize 9), 3072⟩]

/-- In the index ORAM a read then returns the data from before the write. -/
theorem read_stale :
    Run.Meets CircuitParams.index.step (Allowed .index)
        (CircuitParams.index.initialized CircuitParams.index.dummy) staleRequests ∧
      lastWrite 31 staleRequests = some (List.replicate blockSize 9) ∧
      (access .index (Run.exec CircuitParams.index.step
        (CircuitParams.index.initialized CircuitParams.index.dummy) staleRequests)
          ⟨31, .read, 0⟩).1 = some CircuitParams.index.dummy.data := by
  decide +kernel

/-! ## An instance that is filled and then read -/

/-- Every write is the first call for its block. -/
def FirstWrites (reqs : List OramRequest) : Prop :=
  reqs.Pairwise fun r req => ∀ dataIn, req.op = .write dataIn → req.id ≠ r.id

/-- Such writes are careful: the block is still in its leaf. -/
theorem careful_of_firstWrites (raw : OramBlock) {reqs : List OramRequest}
    (h : Run.Meets p.step (Allowed p) (p.initialized raw) reqs) (hfirst : FirstWrites reqs) :
    Run.Meets p.step (Careful p) (p.initialized raw) reqs ∧
      ∀ id < p.maxBlocks, (∀ r ∈ reqs, id ≠ r.id) →
        Untouched (Run.exec p.step (p.initialized raw) reqs) id := by
  induction reqs using List.reverseRecOn with
  | nil => exact ⟨trivial, fun id hid _ => untouched_initialized raw hid⟩
  | append_singleton reqs req ih =>
      obtain ⟨hbefore, -, hlast⟩ := List.pairwise_append.1 hfirst
      obtain ⟨hmeets, hreq, -⟩ := Run.meets_append.1 h
      obtain ⟨hcareful, huntouched⟩ := ih hmeets hbefore
      refine ⟨Run.meets_append.2 ⟨hcareful, ⟨hreq, ?_⟩, trivial⟩, ?_⟩
      · intro dataIn hop
        apply Untouched.gathered
        apply huntouched req.id hreq.1
        intro r hr
        exact hlast r hr req (List.mem_singleton_self req) dataIn hop
      · intro id hid hother
        rw [Run.exec_append]
        have hbefore' : ∀ r ∈ reqs, id ≠ r.id := fun r hr => hother r (List.mem_append_left _ hr)
        exact (huntouched id hid hbefore').step hid (hother req (by simp))
          (storesArray_exec raw hcareful) hreq

/-- The calls as the model of the querier takes them. -/
def Oram.calls (oram : Oram) (reqs : List OramRequest) : Except Fault Oram :=
  reqs.foldlM (fun oram req =>
    match req.op with
    | .read => .ok oram
    | .write dataIn => oram.write req.id dataIn) oram

theorem Oram.calls_eq {oram : Oram} {reqs : List OramRequest}
    (h : ∀ req ∈ reqs, req.id < oram.count) :
    oram.calls reqs = .ok { oram with blocks := Run.exec arrayStep oram.blocks reqs } := by
  induction reqs generalizing oram with
  | nil => rfl
  | cons req reqs ih =>
      have hhead := h req List.mem_cons_self
      have hrest {blocks : Nat → Bytes} := @ih { oram with blocks := blocks } fun r hr =>
        h r (List.mem_cons_of_mem req hr)
      obtain ⟨id, op, random⟩ := req
      rw [Oram.calls, List.foldlM_cons, Run.exec_cons]
      cases op with
      | read => exact hrest
      | write dataIn =>
          dsimp only
          rw [Oram.write, if_pos hhead]
          exact hrest

theorem allowed_of_mem {reqs : List OramRequest} (h : Run.Meets p.step (Allowed p) st reqs) :
    ∀ req ∈ reqs, req.id < p.maxBlocks := by
  intro req hmem
  obtain ⟨before, after, rfl⟩ := List.append_of_mem hmem
  exact (Run.meets_iff_split.1 h before req after rfl).1

/-- **The querier's instances** are filled once and then only read. If every write is the first call
for its block, a read returns what it returns in the querier's model, where an instance is an
array. -/
theorem oram_of_firstWrites (hsize : p.dataSize = blockSize) (raw : OramBlock)
    {reqs : List OramRequest} (h : Run.Meets p.step (Allowed p) (p.initialized raw) reqs)
    (hfirst : FirstWrites reqs) :
    ∃ oram, (Oram.create p.maxBlocks).calls reqs = .ok oram ∧
      ∀ id < p.maxBlocks, ∃ data, oram.read id = .ok data ∧
        ∀ random, (access p (Run.exec p.step (p.initialized raw) reqs) ⟨id, .read, random⟩).1 =
          some data := by
  have hr := storesArray_exec raw (careful_of_firstWrites raw h hfirst).1
  rw [CircuitParams.dummy, hsize] at hr
  refine ⟨_, Oram.calls_eq (allowed_of_mem h), fun id hid => ⟨_, if_pos hid, fun random => ?_⟩⟩
  rw [hr.access_eq hid]
  rfl

end DeSearch
