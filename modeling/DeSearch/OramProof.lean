import DeSearch.Blob
import DeSearch.Oram
import DeSearch.QuerierProof

/-!
# The ORAM querier refines the plain one

* `oramResults_eq_queryResults`: on a blob of the pipeline whose digests and posting lists fit the
  two ORAM instances, both queriers give the same ten results, and the same responses.

The proof goes through the relation `Simulates`: looking a word or a digest up in the ORAM gives
what the tables of the plain querier hold.
-/

namespace DeSearch

variable {P : Platform} {R : Runtime} {α β : Type}

theorem ok_bind (a : α) (f : α → Except Fault β) : (Except.ok a >>= f) = f a := rfl

theorem error_bind (e : Fault) (f : α → Except Fault β) : (Except.error e >>= f) = .error e := rfl

theorem mapM_congr {f g : α → Except Fault β} {l : List α} (h : ∀ a ∈ l, f a = g a) :
    l.mapM f = l.mapM g := by
  induction l with
  | nil => rfl
  | cons a l ih =>
      rw [List.forall_mem_cons] at h
      rw [List.mapM_cons, List.mapM_cons, h.1, ih h.2]

theorem Oram.write_of_lt {oram : Oram} {id : Nat} (h : id < oram.count) (block : Bytes) :
    oram.write id block = .ok ⟨oram.count, Function.update oram.blocks id block⟩ :=
  if_pos h

theorem Oram.write_of_le {oram : Oram} {id : Nat} (h : oram.count ≤ id) (block : Bytes) :
    oram.write id block = .error .range :=
  if_neg (not_lt.2 h)

/-! ## Digests -/

/-- The half of a block that belongs to digest number `j`. -/
def halfOf (block : Bytes) (j : Nat) : Bytes :=
  (block.drop (blockSize / 2 * (j % 2))).take (blockSize / 2)

/-- The digests lie in the blocks in pairs. -/
def HoldsDigests (R : Runtime) (blocks : Nat → Bytes) (digest : List Bytes) : Prop :=
  ∀ j di, digest[j]? = some di → halfOf (blocks (j / 2)) j = halfBlock R di

theorem getElem?_concat {l : List α} {a b : α} {j : Nat} (h : (l ++ [a])[j]? = some b) :
    l[j]? = some b ∨ j = l.length ∧ a = b := by
  rw [List.getElem?_append] at h
  split_ifs at h with hlt
  · exact .inl h
  · rcases hk : j - l.length with _ | k
    · exact .inr ⟨by omega, by simpa [hk] using h⟩
    · simp [hk] at h

theorem length_halfBlock (R : Runtime) (di : Bytes) : (halfBlock R di).length = blockSize / 2 :=
  Blocks.length_cells _ _ _

/-- A digest that starts a block. -/
theorem holdsDigests_even {blocks : Nat → Bytes} {done : List Bytes} {di dataIn rest : Bytes}
    (hlen : done.length % 2 = 0)
    (h : HoldsDigests R (Function.update blocks (done.length / 2) dataIn) done) :
    HoldsDigests R (Function.update blocks ((done.length + 1) / 2) (halfBlock R di ++ rest))
      (done ++ [di]) := by
  have hblock : (done.length + 1) / 2 = done.length / 2 := by omega
  rw [hblock]
  intro j dj hj
  rcases getElem?_concat hj with hj | ⟨rfl, rfl⟩
  · have hlt : j < done.length := (List.getElem?_eq_some_iff.1 hj).1
    have hold := h j dj hj
    rw [Function.update_of_ne (by omega)] at hold ⊢
    exact hold
  · rw [Function.update_self, halfOf, hlen, Nat.mul_zero, List.drop_zero,
      List.take_left' (length_halfBlock R di)]

/-- A digest that ends a block. -/
theorem holdsDigests_odd {blocks : Nat → Bytes} {done : List Bytes} {di dataIn : Bytes}
    (hlen : done.length % 2 = 1) (hdata : dataIn.length = blockSize)
    (h : HoldsDigests R (Function.update blocks (done.length / 2) dataIn) done) (next : Bytes) :
    HoldsDigests R (Function.update (Function.update blocks (done.length / 2)
      (dataIn.take (blockSize / 2) ++ halfBlock R di)) ((done.length + 1) / 2) next)
      (done ++ [di]) := by
  have hhalf : (dataIn.take (blockSize / 2)).length = blockSize / 2 := by
    rw [List.length_take, hdata]
    rfl
  intro j dj hj
  rcases getElem?_concat hj with hj | ⟨rfl, rfl⟩
  · have hlt : j < done.length := (List.getElem?_eq_some_iff.1 hj).1
    have hold := h j dj hj
    rw [Function.update_of_ne (by omega)]
    by_cases hlast : j / 2 = done.length / 2
    · -- the first half of this block came in the turn before
      have hj : j % 2 = 0 := by omega
      rw [hlast, Function.update_self, halfOf, hj, Nat.mul_zero, List.drop_zero] at hold ⊢
      rw [List.take_left' hhalf]
      exact hold
    · rw [Function.update_of_ne hlast] at hold ⊢
      exact hold
  · rw [Function.update_of_ne (by omega), Function.update_self, halfOf, hlen, Nat.mul_one,
      List.drop_left' hhalf, List.take_of_length_le (length_halfBlock R di).le]

/-- The loop keeps what it has stored, counting `data_in` as written. -/
theorem storeDigests_eq_ok {oram : Oram} {dataIn : Bytes} {done digest : List Bytes}
    (hdata : dataIn.length = blockSize)
    (hstored : HoldsDigests R (Function.update oram.blocks (done.length / 2) dataIn) done)
    (hfits : (done.length + digest.length) / 2 < oram.count) :
    ∃ blocks, storeDigests R oram done.length dataIn digest = .ok ⟨oram.count, blocks⟩ ∧
      HoldsDigests R blocks (done ++ digest) := by
  induction digest generalizing oram dataIn done with
  | nil =>
      refine ⟨_, if_pos hfits, ?_⟩
      rw [List.append_nil]
      exact hstored
  | cons di digest ih =>
      have hlen : (done ++ [di]).length = done.length + 1 := by simp
      have hfits' : ((done ++ [di]).length + digest.length) / 2 < oram.count := by
        rw [hlen]
        rw [List.length_cons] at hfits
        omega
      rw [storeDigests, List.append_cons, ← hlen]
      split_ifs with heven
      · refine ih ?_ ?_ hfits'
        · rw [List.length_append, length_halfBlock, List.length_drop, hdata]
          rfl
        · rw [hlen]
          exact holdsDigests_even heven hstored
      · have hroom : done.length / 2 < oram.count := by omega
        dsimp only
        rw [Oram.write_of_lt hroom]
        rw [ok_bind]
        refine ih ?_ ?_ ?_
        · rw [List.length_append, length_halfBlock, List.length_take, hdata]
          rfl
        · rw [hlen]
          exact holdsDigests_odd (by omega) hdata hstored _
        · exact hfits'

theorem storeDigests_eq_range {oram : Oram} {dataIn : Bytes} {blockId : Nat} {digest : List Bytes}
    (hfull : oram.count ≤ (blockId + digest.length) / 2) :
    storeDigests R oram blockId dataIn digest = .error .range := by
  induction digest generalizing oram dataIn blockId with
  | nil => exact if_neg (not_lt.2 hfull)
  | cons di digest ih =>
      rw [List.length_cons, ← Nat.add_assoc, Nat.add_right_comm] at hfull
      rw [storeDigests]
      split_ifs with heven
      · exact ih hfull
      · rcases Nat.lt_or_ge (blockId / 2) oram.count with hroom | hroom
        · dsimp only
          rw [Oram.write_of_lt hroom, ok_bind]
          refine ih ?_
          exact hfull
        · dsimp only
          rw [Oram.write_of_le hroom]
          rfl

theorem cells_dataAt {s : Bytes} {offset length : Nat} (h : offset + length ≤ s.length) :
    Blocks.cells (dataAt R s) offset length = (s.drop offset).take length := by
  refine List.ext_getElem (by simp; omega) fun i hi hi' => ?_
  rw [Blocks.length_cells] at hi
  have hlt : offset + i < s.length := by omega
  simp [Blocks.cells, dataAt, hlt]

/-- A digest is a C string in its half of the block. -/
theorem cString_halfBlock {di : Bytes} (hnul : NulFree di) (hlen : di.length ≤ digestMaxLength) :
    cString (halfBlock R di) = di := by
  obtain ⟨n, hn⟩ : ∃ n, blockSize / 2 = di.length + n := Nat.exists_eq_add_of_le hlen
  rw [halfBlock, hn, Blocks.cells_append, cells_dataAt (Nat.zero_add _).le, List.drop_zero,
    List.take_length, Nat.zero_add]
  -- behind the digest is the terminator, unless it fills its half
  have htail : cString (Blocks.cells (dataAt R di) di.length n) = [] := by
    cases n with
    | zero => rfl
    | succ n => simp [Blocks.cells, List.range_succ_eq_map, cString, dataAt]
  rw [cString, List.takeWhile_append, ← cString, cString_of_nulFree hnul, if_pos rfl, ← cString,
    htail, List.append_nil]

/-! ## Posting lists -/

theorem foldlM_write (oram : Oram) (f : Nat → Bytes) {n : Nat} (h : n ≤ oram.count) :
    (List.range n).foldlM (fun oram id => oram.write id (f id)) oram =
      .ok ⟨oram.count, fun id => if id < n then f id else oram.blocks id⟩ := by
  induction n with
  | zero => rfl
  | succ n ih =>
      rw [List.range_succ, List.foldlM_append, ih (by omega)]
      have hwrite : Oram.write ⟨oram.count, fun id => if id < n then f id else oram.blocks id⟩ n
          (f n) = .ok _ := if_pos (Nat.lt_of_succ_le h)
      rw [ok_bind, List.foldlM_cons, hwrite]
      refine congrArg (fun blocks => Except.ok (Oram.mk oram.count blocks)) (funext fun id => ?_)
      rcases Nat.lt_trichotomy id n with hlt | rfl | hgt
      · simp [hlt.ne, hlt, Nat.lt_succ_of_lt hlt]
      · simp
      · simp [hgt.ne', not_lt.2 hgt.le, not_lt.2 (Nat.succ_le_of_lt hgt)]

theorem foldlM_write_range (oram : Oram) (f : Nat → Bytes) {n : Nat} (h : oram.count < n) :
    (List.range n).foldlM (fun oram id => oram.write id (f id)) oram = .error .range := by
  obtain ⟨k, rfl⟩ := Nat.exists_eq_add_of_lt h
  rw [Nat.add_assoc, List.range_add, List.foldlM_append, foldlM_write oram f le_rfl,
    ok_bind, List.range_succ_eq_map, List.map_cons, List.foldlM_cons,
    Oram.write_of_le (Nat.le_add_right _ _), error_bind]

/-- The blocks of the buffer, one write after the other. -/
theorem storeIndex_eq_ok {temp : Bytes} (h : temp.length / blockSize < indexBlockNum) :
    storeIndex R temp = .ok ⟨indexBlockNum, fun id =>
      if id < temp.length / blockSize + 1 then
        Blocks.cells (dataAt R temp) (id * blockSize) blockSize
      else resetData blockSize⟩ :=
  foldlM_write (.create indexBlockNum) _ h

theorem storeIndex_eq_range {temp : Bytes} (h : indexBlockNum ≤ temp.length / blockSize) :
    storeIndex R temp = .error .range :=
  foldlM_write_range (.create indexBlockNum) _ (Nat.lt_succ_of_le h)

/-- A buffer that was stored is read back through the blocks it touches. -/
theorem readBlocks_storeIndex {temp : Bytes} {oram : Oram}
    (hfits : temp.length / blockSize < indexBlockNum) (hstore : storeIndex R temp = .ok oram)
    {offset length : Nat} (h : offset + length ≤ temp.length) :
    ∃ dataOut, readBlocks oram (offset / blockSize) ((offset + length) / blockSize) = .ok dataOut ∧
      (dataOut.drop (offset % blockSize)).take length = (temp.drop offset).take length := by
  rw [storeIndex_eq_ok hfits] at hstore
  cases hstore
  have hend : (offset + length) / blockSize ≤ temp.length / blockSize := Nat.div_le_div_right h
  have hstart : offset / blockSize ≤ (offset + length) / blockSize :=
    Nat.div_le_div_right (Nat.le_add_right _ _)
  refine ⟨((List.range ((offset + length) / blockSize - offset / blockSize + 1)).map fun k =>
    Blocks.cells (dataAt R temp) ((offset / blockSize + k) * blockSize) blockSize).flatten, ?_, ?_⟩
  · refine bind_eq_ok.2 ⟨_, mapM_eq_ok fun k hk => ?_, rfl⟩
    have hlt : offset / blockSize + k < temp.length / blockSize + 1 := by
      have := List.mem_range.1 hk
      omega
    have hcount : offset / blockSize + k < indexBlockNum := by omega
    exact (if_pos hcount).trans (congrArg Except.ok (if_pos hlt))
  · rw [← List.flatMap_def, Blocks.slice_blocks _ (by decide), cells_dataAt h]

/-- Where the layout says a buffer is, there it is. -/
theorem lookup_layout {records : List (DWord × Bytes)} {w : DWord} {buf : Bytes}
    (h : records.lookup w = some buf) (start : Nat) :
    ∃ pre post, linear records = pre ++ buf ++ post ∧
      (layout start records).lookup w = some (start + pre.length, buf.length) := by
  induction records generalizing start with
  | nil => exact nomatch h
  | cons r records ih =>
      obtain ⟨w', b⟩ := r
      rw [List.lookup_cons] at h
      rw [layout, List.lookup_cons]
      cases hw : w == w' with
      | true =>
          rw [hw] at h
          cases h
          exact ⟨[], linear records, rfl, rfl⟩
      | false =>
          rw [hw] at h
          obtain ⟨pre, post, hlinear, hlookup⟩ := ih h (start + b.length)
          refine ⟨b ++ pre, post, ?_, ?_⟩
          · rw [linear, List.flatMap_cons, ← linear, hlinear, List.append_assoc, List.append_assoc,
              List.append_assoc]
          · rw [List.length_append, ← Nat.add_assoc]
            exact hlookup

theorem lookup_layout_none {records : List (DWord × Bytes)} {w : DWord}
    (h : records.lookup w = none) (start : Nat) : (layout start records).lookup w = none := by
  induction records generalizing start with
  | nil => rfl
  | cons r records ih =>
      rw [List.lookup_cons] at h
      rw [layout, List.lookup_cons]
      cases hw : w == r.1 with
      | true => rw [hw] at h; exact nomatch h
      | false => rw [hw] at h; exact ih h _

theorem lookup_map (g : List DWord → Bytes) (l : List (DWord × List DWord)) (w : DWord) :
    (l.map fun p => (p.1, g p.2)).lookup w = (Multimap.listGet? w l).map g := by
  induction l with
  | nil => rfl
  | cons p l ih =>
      rw [List.map_cons, List.lookup_cons, Multimap.listGet?]
      by_cases h : p.1 = w
      · simp [h]
      · rw [if_neg h, beq_eq_false_iff_ne.2 (Ne.symm h)]
        exact ih

theorem lookup_vlbRecords (O : HashOrder) {index : IndexTbl} (hne : index.NoEmpty) (w : DWord) :
    (vlbRecords O index).lookup w =
      (index.get? w).map fun docIDs => (VlbCoder.zipAll docIDs).marshall := by
  have hall : (O.enum index).filter (fun p => p.2 ≠ []) = O.enum index :=
    List.filter_eq_self.2 fun p hp => by simpa using hne p ((O.perm index).mem_iff.1 hp)
  have hnodup : ((O.enum index).map Prod.fst).Nodup :=
    ((O.perm index).map Prod.fst).nodup_iff.2 index.nodup
  rw [vlbRecords, hall, lookup_map fun docIDs => (VlbCoder.zipAll docIDs).marshall,
    Multimap.listGet?_perm (O.perm index) hnodup, Multimap.get?]

/-- The bytes of all posting lists. -/
def vlbTotal (index : IndexTbl) : Nat :=
  ((index.entries.filter fun p => p.2 ≠ []).map fun p =>
    (VlbCoder.zipAll p.2).marshall.length).sum

theorem length_linear (O : HashOrder) (index : IndexTbl) :
    (linear (vlbRecords O index)).length = vlbTotal index := by
  rw [linear, List.length_flatMap, vlbRecords, List.map_map, vlbTotal]
  exact (((O.perm index).filter _).map _).sum_nat

/-! ## Simulation -/

/-- What the ORAM querier looks up is what the tables of the plain one hold. -/
structure Simulates (oq : OramQuerier) (q : Querier) : Prop where
  lookup : ∀ w, oramLookup oq w = .ok (q.index.find w)
  digestAt : ∀ w, ∀ docID ∈ q.index.find w, oramDigestAt oq docID = digestAt q.digest docID
  context : oq.context = q.context

theorem tenResults_congr {fetch fetch' : DWord → Except Fault Bytes} {docIDs : List DWord}
    (h : ∀ docID ∈ docIDs, fetch docID = fetch' docID) (page : Int) :
    tenResults fetch docIDs page = tenResults fetch' docIDs page := by
  have hshown : ∀ shown, pageDocs docIDs page = .ok shown →
      shown.mapM fetch = shown.mapM fetch' := by
    intro shown hpage
    refine mapM_congr fun docID hmem => h docID ?_
    unfold pageDocs at hpage
    dsimp only at hpage
    split_ifs at hpage
    · cases hpage
      exact absurd hmem List.not_mem_nil
    · cases hpage
      exact List.mem_of_mem_drop (List.mem_of_mem_take hmem)
    · cases hpage
      exact absurd hmem List.not_mem_nil
  unfold tenResults
  cases hpage : pageDocs docIDs page with
  | error e => rfl
  | ok shown => rw [ok_bind, ok_bind, hshown shown hpage]

theorem Simulates.results {oq : OramQuerier} {q : Querier} (h : Simulates oq q) (query : Query) :
    oramResults oq query = queryResults q query := by
  rw [oramResults, mapM_eq_ok fun w _ => h.lookup w, ok_bind, queryResults]
  refine tenResults_congr (fun docID hmem => ?_) _
  obtain ⟨w, -, hdoc⟩ := exists_word_of_mem hmem
  exact h.digestAt w docID hdoc

theorem Simulates.doQuery {oq : OramQuerier} {q : Querier} (h : Simulates oq q) (request : Bytes)
    (responseSize : Nat) :
    oramDoQuery P oq request responseSize = ecallDoQuery P q request responseSize := by
  unfold oramDoQuery ecallDoQuery
  rw [h.context]
  refine congrArg (parseRequest P request >>= ·) (funext fun parsed => ?_)
  cases parsed with
  | none => rfl
  | some query => simp only [h.results]

/-! ## Setup -/

/-- The digests and the posting lists have room in their ORAM instances. -/
def OramFits (blob : Bytes) : Prop :=
  ∀ index digest, readBlob blob = some (index, digest) →
    digest.length / 2 < digestBlockNum ∧ vlbTotal index / blockSize < indexBlockNum

theorem createDigestOram_eq_ok {digest : List Bytes} (h : digest.length / 2 < digestBlockNum) :
    ∃ blocks, createDigestOram R digest = .ok ⟨digestBlockNum, blocks⟩ ∧
      HoldsDigests R blocks digest := by
  have hstored : HoldsDigests R (Function.update (Oram.create digestBlockNum).blocks
      (([] : List Bytes).length / 2) (List.replicate blockSize 0)) [] := fun _ _ h => nomatch h
  refine storeDigests_eq_ok (List.length_replicate) hstored ?_
  rw [List.length_nil, Nat.zero_add]
  exact h

/-- A word is found in the ORAM as in the table. -/
theorem oramLookup_eq_find (O : HashOrder) {index : IndexTbl} {digest : List Bytes}
    (hwf : WellFormed index digest)
    (hloaded : ∀ w, 0 ∉ index.find w ∧ (index.find w).length < 2 ^ 29)
    (hfits : vlbTotal index / blockSize < indexBlockNum) {oq : OramQuerier}
    (hstore : storeIndex R (linear (vlbRecords O index)) = .ok oq.indexOram)
    (hlayout : oq.layout = layout 0 (vlbRecords O index)) (w : DWord) :
    oramLookup oq w = .ok (index.find w) := by
  have hne : index.NoEmpty := fun p hp =>
    hwf.ne_nil p.1 p.2 ((Multimap.listGet?_eq_some index.nodup).2 hp)
  have hrecord := lookup_vlbRecords O hne w
  rw [oramLookup, hlayout]
  cases hget : index.get? w with
  | none =>
      rw [hget] at hrecord
      rw [lookup_layout_none hrecord, Multimap.find, hget]
      rfl
  | some docIDs =>
      have hfind : index.find w = docIDs := by rw [Multimap.find, hget, Option.getD_some]
      obtain ⟨hz, hlen⟩ := hfind ▸ hloaded w
      rw [hget, Option.map_some] at hrecord
      obtain ⟨pre, post, hlinear, hlookup⟩ := lookup_layout hrecord 0
      have hroom : pre.length + (VlbCoder.zipAll docIDs).marshall.length ≤
          (linear (vlbRecords O index)).length := by
        rw [hlinear, List.length_append, List.length_append]
        omega
      rw [← length_linear O] at hfits
      obtain ⟨dataOut, hread, hslice⟩ := readBlocks_storeIndex hfits hstore hroom
      rw [hlinear, List.append_assoc, List.drop_left, List.take_left] at hslice
      rw [hlookup, Nat.zero_add]
      dsimp only
      rw [if_neg (VlbCoder.marshall_ne_nil _), hread, ok_bind, hslice, decodeList,
        VlbCoder.unmarshall_marshall, Option.bind_some,
        VlbCoder.dumpVlb_zipAll (hwf.increasing w docIDs hget) hz (by omega), orRange, hfind]

theorem toNat_pred_lt {docID : DWord} {n : Nat} (hpos : 1 ≤ docID.toNat) (hle : docID.toNat ≤ n) :
    (docID - 1).toNat < n := by
  rw [BitVec.toNat_sub_of_le (show (1 : DWord) ≤ docID from hpos)]
  exact lt_of_lt_of_le (Nat.sub_lt hpos Nat.one_pos) hle

/-- A digest is found in the ORAM as in the table. -/
theorem oramDigestAt_eq_digestAt {index : IndexTbl} {digest : List Bytes}
    (hwf : WellFormed index digest) (hfits : digest.length / 2 < digestBlockNum)
    {oq : OramQuerier} {blocks : Nat → Bytes} (horam : oq.digestOram = ⟨digestBlockNum, blocks⟩)
    (hholds : HoldsDigests R blocks digest) {docID : DWord} (hpos : 1 ≤ docID.toNat)
    (hle : docID.toNat ≤ digest.length) : oramDigestAt oq docID = digestAt digest docID := by
  have hlt := toNat_pred_lt hpos hle
  have hsome : digest[(docID - 1).toNat]? = some digest[(docID - 1).toNat] :=
    List.getElem?_eq_getElem hlt
  have hmem : digest[(docID - 1).toNat] ∈ digest := List.getElem_mem hlt
  have hread : oq.digestOram.read ((docID - 1).toNat / 2) =
      .ok (blocks ((docID - 1).toNat / 2)) := by
    have hcount : (docID - 1).toNat / 2 < digestBlockNum := by omega
    rw [horam]
    exact if_pos hcount
  have hhalf := hholds _ _ hsome
  rw [halfOf] at hhalf
  rw [oramDigestAt, digestAt, hsome]
  dsimp only
  rw [hread, ok_bind, hhalf, cString_halfBlock (hwf.nulFree _ hmem) (hwf.length_le _ hmem)]
  rfl

/-- On tables that fit, the two setups end in states that correspond. -/
theorem simulates_of_fits (O : HashOrder) {blob : Bytes} {index : IndexTbl} {digest : List Bytes}
    (hread : readBlob blob = some (index, digest)) (hwf : WellFormed index digest)
    (hdigest : digest.length / 2 < digestBlockNum)
    (hindex : vlbTotal index / blockSize < indexBlockNum) :
    ∃ oq, oramQuerierSetup P O blob = .ok oq ∧
      Simulates oq ⟨index, digest, querierContext P.crypto blob⟩ := by
  obtain ⟨blocks, hcreate, hholds⟩ := createDigestOram_eq_ok (R := P.runtime) hdigest
  have hlinear : (linear (vlbRecords O index)).length / blockSize < indexBlockNum := by
    rwa [length_linear]
  have hstore := storeIndex_eq_ok (R := P.runtime) hlinear
  refine ⟨⟨_, _, layout 0 (vlbRecords O index), querierContext P.crypto blob⟩,
    bind_eq_ok.2 ⟨_, loadBlob_eq_ok.2 hread, bind_eq_ok.2 ⟨_, hcreate, bind_eq_ok.2
      ⟨_, hstore, rfl⟩⟩⟩, ?_, ?_, rfl⟩
  · exact oramLookup_eq_find O hwf (find_loaded hread) hindex hstore rfl
  · intro w docID hmem
    obtain ⟨hpos, hle⟩ := (hwf.find _).2 _ hmem
    exact oramDigestAt_eq_digestAt hwf hdigest rfl hholds hpos hle

/-! ## Refinement -/

/-- Well-formed tables answer every query for a page within `int`, with ten results. -/
theorem exists_queryResults {index : IndexTbl} {digest : List Bytes} (hwf : WellFormed index digest)
    (context : WitnessContext) {query : Query} (hpage : 0 ≤ wrapInt ((query.page - 1) * 10)) :
    ∃ results, results.length = 10 ∧ queryResults ⟨index, digest, context⟩ query = .ok results := by
  have hfetch : ∀ docID ∈ intersectLists [] none (query.words.map index.find),
      digestAt digest docID = .ok (digest.getD (docID - 1).toNat []) := by
    intro docID hmem
    obtain ⟨w, -, hdoc⟩ := exists_word_of_mem hmem
    obtain ⟨hpos, hle⟩ := (hwf.find _).2 _ hdoc
    rw [digestAt, List.getD_eq_getElem?_getD, List.getElem?_eq_getElem (toNat_pred_lt hpos hle)]
    rfl
  refine ⟨_, ?_, bind_eq_ok.2 ⟨_, pageDocs_of_nonneg _ hpage, bind_eq_ok.2 ⟨_, mapM_eq_ok
    fun docID hmem => hfetch docID (List.mem_of_mem_drop (List.mem_of_mem_take hmem)), rfl⟩⟩⟩
  rw [List.length_append, List.length_replicate, List.length_map, List.length_take]
  omega

/-- **Refinement.** On a blob of the pipeline that fits, the ORAM querier gives the same ten results
as the plain one, and the same responses. -/
theorem oramResults_eq_queryResults (O : HashOrder) {blob : Bytes} (h : PipelineBlob P blob)
    (hfits : OramFits blob) : ∃ q oq,
    ecallQuerierSetup P.crypto blob = .ok q ∧ oramQuerierSetup P O blob = .ok oq ∧
    (∀ query, oramResults oq query = queryResults q query) ∧
    (∀ query : Query, 0 ≤ wrapInt ((query.page - 1) * 10) →
      ∃ results, results.length = 10 ∧ oramResults oq query = .ok results) ∧
    ∀ request responseSize,
      oramDoQuery P oq request responseSize = ecallDoQuery P q request responseSize := by
  obtain ⟨docs, hcount, hnul, index, hread, hidx⟩ := h.represents
  have hwf := wellFormed_of_indexes hidx hnul hcount
  obtain ⟨hdigest, hindex⟩ := hfits index _ hread
  obtain ⟨oq, hsetup, hsim⟩ := simulates_of_fits O hread hwf hdigest hindex
  refine ⟨_, oq, ecallQuerierSetup_eq_ok.2 ⟨hread, rfl⟩, hsetup, hsim.results, ?_, hsim.doQuery⟩
  intro query hpage
  rw [hsim.results]
  exact exists_queryResults hwf _ hpage

/-- The index of two documents. -/
theorem oramResults_eq_queryResults_sample : ∃ q oq,
    ecallQuerierSetup samplePlatform.crypto (blobOf [ascii "bravo", ascii "alpha"]) = .ok q ∧
    oramQuerierSetup samplePlatform insertionOrder
      (blobOf [ascii "bravo", ascii "alpha"]) = .ok oq ∧
    oramResults oq ⟨[sphCRC32 (ascii "alpha")], 1⟩ =
      queryResults q ⟨[sphCRC32 (ascii "alpha")], 1⟩ := by
  have hroom : (readBlob (blobOf [ascii "bravo", ascii "alpha"])).all fun t =>
      t.2.length / 2 < digestBlockNum ∧ vlbTotal t.1 / blockSize < indexBlockNum := by
    decide +kernel
  have hfits : OramFits (blobOf [ascii "bravo", ascii "alpha"]) := by
    intro index digest hread
    rw [hread] at hroom
    simpa using hroom
  obtain ⟨q, oq, hq, hoq, hresults, -⟩ :=
    oramResults_eq_queryResults insertionOrder pipelineBlob_two hfits
  exact ⟨q, oq, hq, hoq, hresults _⟩

end DeSearch
