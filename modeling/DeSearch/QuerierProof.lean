import DeSearch.Client
import DeSearch.EnclaveProof
import DeSearch.Querier

/-!
# Blobs from an untrusted store

Kanban may return any bytes for an index. Which of them can a querier load and serve, and a reducer
merge, without an access out of range?

`decoders_inRange_iff` gives the answer: the header must be there; the size in it must be a multiple
of four within the blob (a negative one ends the process before any access); no string among the
digests may fill the scratch buffer; and a word that can be asked for may only have docIDs that have
a digest. A request whose page overflows its offset is only served if nothing is found for it.
-/

namespace DeSearch

open JSON

variable {P : Platform} {α β : Type}

/-! ## Accesses in range -/

/-- No access was out of range. -/
def InRange (r : Except Fault α) : Prop := r ≠ .error .range

theorem inRange_ok (a : α) : InRange (.ok a : Except Fault α) := by
  intro h
  cases h

theorem inRange_exception : InRange (.error .exception : Except Fault α) := by
  intro h
  cases h

theorem inRange_bind {x : Except Fault α} {f : α → Except Fault β} :
    InRange (x >>= f) ↔ InRange x ∧ ∀ a, x = .ok a → InRange (f a) := by
  cases x with
  | error e =>
      cases e with
      | range => exact iff_of_false (fun h => h rfl) (fun h => h.1 rfl)
      | exception => exact iff_of_true inRange_exception ⟨inRange_exception, fun _ h => nomatch h⟩
  | ok a =>
      refine ⟨fun h => ⟨inRange_ok a, fun b hb => ?_⟩, fun h => h.2 a rfl⟩
      cases hb
      exact h

theorem inRange_mapM {f : α → Except Fault β} {l : List α} (h : ∀ a ∈ l, InRange (f a)) :
    InRange (l.mapM f) := by
  induction l with
  | nil => exact inRange_ok _
  | cons a l ih =>
      rw [List.forall_mem_cons] at h
      rw [List.mapM_cons]
      refine inRange_bind.2 ⟨h.1, fun b _ => inRange_bind.2 ⟨ih h.2, fun bs _ => inRange_ok _⟩⟩

/-! ## Taking blobs apart -/

/-- The index ends within the blob and is made of whole words. -/
def IndexFits (blob : Bytes) (size : Int) : Prop := size % 4 = 0 ∧ 4 + size ≤ blob.length

/-- No string behind the index fills the scratch buffer. -/
def ScratchFits (blob : Bytes) (size : Int) : Prop :=
  ∀ pre run c post, (blob.drop 4).drop size.toNat = pre ++ run ++ c :: post → NulFree run →
    run.length < tempDigestLen

theorem exists_readInt {blob : Bytes} : (∃ size, readInt blob = some size) ↔ 4 ≤ blob.length := by
  match blob with
  | [] | [_] | [_, _] | [_, _, _] => simp [readInt]
  | a :: b :: c :: d :: s => simp [readInt]

theorem inRange_loadHeader {blob : Bytes} :
    InRange (loadHeader blob) ↔ ∃ size, readInt blob = some size := by
  unfold loadHeader
  cases hsize : readInt blob with
  | none => simp [InRange]
  | some size => simp [InRange]

theorem loadHeader_eq_ok {blob : Bytes} {size : Int} :
    loadHeader blob = .ok size ↔ readInt blob = some size := by
  unfold loadHeader
  cases readInt blob <;> simp

theorem loadIndex_eq_ok {bin : Bytes} {size : Int} {index : IndexTbl} :
    loadIndex bin size = .ok index ↔ binary2Index bin size = some index := by
  unfold loadIndex
  split_ifs with hneg
  · simp [binary2Index, hneg]
  · cases binary2Index bin size <;> simp

theorem inRange_loadIndex {blob : Bytes} {size : Int} (hsize : readInt blob = some size) :
    InRange (loadIndex (blob.drop 4) size) ↔ size < 0 ∨ IndexFits blob size := by
  have hlen : 4 ≤ blob.length := exists_readInt.1 ⟨size, hsize⟩
  unfold loadIndex
  split_ifs with hneg
  · exact iff_of_true inRange_exception (.inl hneg)
  · have hfits : IndexFits blob size ↔
        ¬(size < 0 ∨ size % 4 ≠ 0 ∨ ((blob.drop 4).length : Int) < size) := by
      rw [IndexFits, List.length_drop]
      omega
    rw [or_iff_right hneg, hfits, binary2Index]
    split_ifs with hbad
    · exact iff_of_false (fun h => h rfl) (not_not.2 hbad)
    · exact iff_of_true (inRange_ok _) hbad

theorem exists_loadIndex {blob : Bytes} {size : Int} (hsize : readInt blob = some size) :
    (∃ index, loadIndex (blob.drop 4) size = .ok index) ↔ 0 ≤ size ∧ IndexFits blob size := by
  have hrange := inRange_loadIndex hsize
  unfold loadIndex at hrange ⊢
  split_ifs at hrange ⊢ with hneg
  · exact iff_of_false (fun ⟨_, h⟩ => nomatch h) fun h => absurd h.1 (not_le.2 hneg)
  · rw [or_iff_right hneg] at hrange
    rw [← hrange, and_iff_right (not_lt.1 hneg)]
    cases binary2Index (blob.drop 4) size <;> simp [InRange]

theorem loadDigest_eq_ok {bin : Bytes} {digest : List Bytes} :
    loadDigest bin = .ok digest ↔ binary2Digest bin = some digest := by
  unfold loadDigest
  cases binary2Digest bin <;> simp

theorem inRange_loadDigest {blob : Bytes} {size : Int} :
    InRange (loadDigest ((blob.drop 4).drop size.toNat)) ↔ ScratchFits blob size := by
  have hnone : InRange (loadDigest ((blob.drop 4).drop size.toNat)) ↔
      ¬binary2Digest ((blob.drop 4).drop size.toNat) = none := by
    unfold loadDigest
    cases binary2Digest ((blob.drop 4).drop size.toNat) <;> simp [InRange]
  rw [hnone, binary2Digest, Delimited.segments_eq_none_iff List.not_mem_nil (Nat.zero_le _),
    ScratchFits]
  simp only [List.nil_append, not_exists, not_and, not_le]
  rfl

/-- The blob can be taken apart in range. -/
def BlobFits (blob : Bytes) : Prop :=
  ∃ size, readInt blob = some size ∧ (size < 0 ∨ IndexFits blob size ∧ ScratchFits blob size)

theorem inRange_loadBlob {blob : Bytes} : InRange (loadBlob blob) ↔ BlobFits blob := by
  constructor
  · intro h
    obtain ⟨hheader, hrest⟩ := inRange_bind.1 h
    obtain ⟨size, hsize⟩ := inRange_loadHeader.1 hheader
    obtain ⟨hindex, hrest⟩ := inRange_bind.1 (hrest size (loadHeader_eq_ok.2 hsize))
    refine ⟨size, hsize, (lt_or_ge size 0).imp id fun hpos => ?_⟩
    have hfits := ((inRange_loadIndex hsize).1 hindex).resolve_left (not_lt.2 hpos)
    obtain ⟨index, hok⟩ := (exists_loadIndex hsize).2 ⟨hpos, hfits⟩
    exact ⟨hfits, inRange_loadDigest.1 (inRange_bind.1 (hrest index hok)).1⟩
  · rintro ⟨size, hsize, hcases⟩
    refine inRange_bind.2 ⟨inRange_loadHeader.2 ⟨size, hsize⟩, fun size' hsize' => ?_⟩
    obtain rfl := Option.some.inj (hsize.symm.trans (loadHeader_eq_ok.1 hsize'))
    refine inRange_bind.2 ⟨(inRange_loadIndex hsize).2 (hcases.imp_right And.left),
      fun index hok => inRange_bind.2 ⟨inRange_loadDigest.2 ?_, fun _ _ => inRange_ok _⟩⟩
    have hpos := ((exists_loadIndex hsize).1 ⟨index, hok⟩).1
    exact (hcases.resolve_left (not_lt.2 hpos)).2

/-- Two blobs can be taken apart in range, in the order of `ecall_do_merge`. -/
def BothFit (index1 index2 : Bytes) : Prop :=
  ∃ size1 size2, readInt index1 = some size1 ∧ readInt index2 = some size2 ∧
    (size1 < 0 ∨ IndexFits index1 size1 ∧ (size2 < 0 ∨ IndexFits index2 size2 ∧
      ScratchFits index1 size1 ∧ ScratchFits index2 size2))

theorem exists_loadDigest {blob : Bytes} {size : Int} (h : ScratchFits blob size) :
    ∃ digest, loadDigest ((blob.drop 4).drop size.toNat) = .ok digest := by
  have hrange := inRange_loadDigest.2 h
  unfold loadDigest at hrange ⊢
  cases hdigest : binary2Digest ((blob.drop 4).drop size.toNat) with
  | none => rw [hdigest] at hrange; exact absurd rfl hrange
  | some digest => exact ⟨digest, rfl⟩

theorem inRange_loadBoth {index1 index2 : Bytes} :
    InRange (loadBoth index1 index2) ↔ BothFit index1 index2 := by
  constructor
  · intro h
    obtain ⟨hheader1, hrest⟩ := inRange_bind.1 h
    obtain ⟨size1, hsize1⟩ := inRange_loadHeader.1 hheader1
    obtain ⟨hheader2, hrest⟩ := inRange_bind.1 (hrest size1 (loadHeader_eq_ok.2 hsize1))
    obtain ⟨size2, hsize2⟩ := inRange_loadHeader.1 hheader2
    obtain ⟨hindex1, hrest⟩ := inRange_bind.1 (hrest size2 (loadHeader_eq_ok.2 hsize2))
    refine ⟨size1, size2, hsize1, hsize2, (lt_or_ge size1 0).imp id fun hpos1 => ?_⟩
    have hfits1 := ((inRange_loadIndex hsize1).1 hindex1).resolve_left (not_lt.2 hpos1)
    obtain ⟨tbl1, hok1⟩ := (exists_loadIndex hsize1).2 ⟨hpos1, hfits1⟩
    obtain ⟨hindex2, hrest⟩ := inRange_bind.1 (hrest tbl1 hok1)
    refine ⟨hfits1, (lt_or_ge size2 0).imp id fun hpos2 => ?_⟩
    have hfits2 := ((inRange_loadIndex hsize2).1 hindex2).resolve_left (not_lt.2 hpos2)
    obtain ⟨tbl2, hok2⟩ := (exists_loadIndex hsize2).2 ⟨hpos2, hfits2⟩
    obtain ⟨hdigest1, hrest⟩ := inRange_bind.1 (hrest tbl2 hok2)
    have hscratch1 := inRange_loadDigest.1 hdigest1
    obtain ⟨digest1, hd1⟩ := exists_loadDigest hscratch1
    exact ⟨hfits2, hscratch1, inRange_loadDigest.1 (inRange_bind.1 (hrest digest1 hd1)).1⟩
  · rintro ⟨size1, size2, hsize1, hsize2, hcases⟩
    refine inRange_bind.2 ⟨inRange_loadHeader.2 ⟨size1, hsize1⟩, fun s1 hs1 => ?_⟩
    obtain rfl := Option.some.inj (hsize1.symm.trans (loadHeader_eq_ok.1 hs1))
    refine inRange_bind.2 ⟨inRange_loadHeader.2 ⟨size2, hsize2⟩, fun s2 hs2 => ?_⟩
    obtain rfl := Option.some.inj (hsize2.symm.trans (loadHeader_eq_ok.1 hs2))
    refine inRange_bind.2 ⟨(inRange_loadIndex hsize1).2 (hcases.imp_right And.left),
      fun tbl1 hok1 => ?_⟩
    have hpos1 := ((exists_loadIndex hsize1).1 ⟨tbl1, hok1⟩).1
    obtain ⟨-, hcases⟩ := hcases.resolve_left (not_lt.2 hpos1)
    refine inRange_bind.2 ⟨(inRange_loadIndex hsize2).2 (hcases.imp_right And.left),
      fun tbl2 hok2 => ?_⟩
    have hpos2 := ((exists_loadIndex hsize2).1 ⟨tbl2, hok2⟩).1
    obtain ⟨-, hscratch1, hscratch2⟩ := hcases.resolve_left (not_lt.2 hpos2)
    refine inRange_bind.2 ⟨inRange_loadDigest.2 hscratch1, fun _ _ => ?_⟩
    exact inRange_bind.2 ⟨inRange_loadDigest.2 hscratch2, fun _ _ => inRange_ok _⟩

theorem mapM_eq_ok {f : α → Except Fault β} {g : α → β} {l : List α}
    (h : ∀ a ∈ l, f a = .ok (g a)) : l.mapM f = .ok (l.map g) := by
  induction l with
  | nil => rfl
  | cons a l ih =>
      rw [List.forall_mem_cons] at h
      rw [List.mapM_cons, h.1, ih h.2]
      rfl

/-- A blob is taken apart here as in the pipeline. -/
theorem loadBlob_eq_ok {blob : Bytes} {index : IndexTbl} {digest : List Bytes} :
    loadBlob blob = .ok (index, digest) ↔ readBlob blob = some (index, digest) := by
  rw [readBlob_eq_some, loadBlob]
  simp only [bind_eq_ok, loadHeader_eq_ok, loadIndex_eq_ok, loadDigest_eq_ok]
  constructor
  · rintro ⟨size, hsize, index, hindex, digest, hdigest, heq⟩
    cases heq
    exact ⟨size, hsize, hindex, hdigest⟩
  · rintro ⟨size, hsize, hindex, hdigest⟩
    exact ⟨size, hsize, index, hindex, digest, hdigest, rfl⟩

/-- The reducer has a result when it could take both blobs apart. -/
theorem ecallDoMerge_isSome_iff {O : HashOrder} {index1 index2 : Bytes}
    {newSz witnessSize : Nat} :
    (ecallDoMerge P O index1 index2 newSz witnessSize).isSome ↔
      ∃ tables, loadBoth index1 index2 = .ok tables := by
  have htables : (∃ tables, loadBoth index1 index2 = .ok tables) ↔
      ∃ tables1 tables2, readBlob index1 = some tables1 ∧ readBlob index2 = some tables2 := by
    simp only [Prod.exists, readBlob_eq_some, loadBoth, bind_eq_ok, loadHeader_eq_ok,
      loadIndex_eq_ok, loadDigest_eq_ok]
    constructor
    · rintro ⟨_, _, _, _, s1, h1, s2, h2, t1, ht1, t2, ht2, d1, hd1, d2, hd2, -⟩
      exact ⟨t1, d1, t2, d2, ⟨s1, h1, ht1, hd1⟩, s2, h2, ht2, hd2⟩
    · rintro ⟨t1, d1, t2, d2, ⟨s1, h1, ht1, hd1⟩, s2, h2, ht2, hd2⟩
      exact ⟨t1, d1, t2, d2, s1, h1, s2, h2, t1, ht1, t2, ht2, d1, hd1, d2, hd2, rfl⟩
  rw [htables, ecallDoMerge]
  cases readBlob index1 <;> cases readBlob index2 <;> simp

/-! ## Requests -/

/-- A well-formed request: the keywords are a string, and the page is positive. -/
def WellFormedRequest (P : Platform) (request : Bytes) (query : Query) : Prop :=
  1 ≤ query.page ∧ parseRequest P request = .ok (some query) ∧
    ∃ j k, load P.runtime (cString request) = some j ∧ j.get (ascii "keywords") = string k

/-- The word can be asked for on its own. -/
def Asked (P : Platform) (w : DWord) : Prop :=
  ∃ k, NulFree k ∧ P.tokens ((string k).dump 1) = [w]

/-- What can be asked for along with other words can be asked for on its own. -/
def AskedAlone (P : Platform) : Prop :=
  ∀ k, NulFree k → ∀ w ∈ (P.tokens ((string k).dump 1)).take 32, Asked P w

theorem WellFormedRequest.words_eq {request : Bytes} {query : Query}
    (h : WellFormedRequest P request query) :
    ∃ k, NulFree k ∧ query.words = (P.tokens ((string k).dump 1)).take 32 := by
  obtain ⟨-, hparse, j, k, hload, hk⟩ := h
  have hclean : Clean (string k) := hk ▸ clean_get (load_clean (nulFree_cString _) hload) _
  refine ⟨k, hclean, ?_⟩
  rw [parseRequest, hload] at hparse
  simp only [hk] at hparse
  split_ifs at hparse
  · cases hparse
  · rw [← Option.some.inj (Except.ok.inj hparse)]

theorem strtol_toDecimal {n : Int} (h : IsInt n) : strtol (toDecimal n) = n := by
  obtain ⟨hlow, hhigh⟩ := h
  rw [strtol, cString_of_nulFree (nulFree_toDecimal n)]
  unfold toDecimal
  split_ifs with hn
  · have habs : -(n.natAbs : Int) = n := by omega
    simp only [splitSign_neg, takeWhile_isDigit_decimal, digitsVal_decimal, if_true, habs]
    omega
  · have habs : (n.natAbs : Int) = n := by omega
    simp only [splitSign_decimal, takeWhile_isDigit_decimal, digitsVal_decimal,
      Bool.false_eq_true, if_false, habs]
    omega

/-- The JSON in the request of a client. -/
def queryJson (k : Bytes) (page : Int) : JSON :=
  object [(ascii "keywords", string k), (ascii "page", string (toDecimal page))]

theorem load_composeQuery {R : Runtime} {k : Bytes} (hk : NulFree k) (page : Int) :
    load R (cString (composeQuery k page)) = some (queryJson k page) := by
  have hplain : Plain (queryJson k page) := by
    refine ⟨⟨⟨ascii "keywords", rfl⟩, trivial, ⟨ascii "page", rfl⟩, trivial, trivial⟩, ?_⟩
    change [ascii "keywords", ascii "page"].Pairwise (· < ·)
    decide
  have hclean : Clean (queryJson k page) :=
    ⟨by decide, hk, by decide, nulFree_toDecimal page, trivial⟩
  obtain ⟨pad, hpad, hquery⟩ : ∃ pad, NulFree pad ∧
      composeQuery k page = (queryJson k page).dump 1 ++ pad :=
    ⟨_, fun hz => absurd (List.eq_of_mem_replicate hz) (by decide), rfl⟩
  rw [hquery, cString_of_nulFree (nulFree_append.2 ⟨nulFree_dump _ hclean 1, hpad⟩),
    load_dump_append hplain]

/-- A querier reads the request of a client as it was meant. -/
theorem parseRequest_composeQuery {k : Bytes} (hk : NulFree k) {page : Int} (hpage : IsInt page) :
    parseRequest P (composeQuery k page) =
      .ok (some ⟨(P.tokens ((string k).dump 1)).take 32, page⟩) := by
  have hkeywords : (queryJson k page).get (ascii "keywords") = string k := rfl
  have hget : (queryJson k page).get (ascii "page") = string (toDecimal page) := rfl
  have htrim : trimString ((string (toDecimal page)).dump 1) = toDecimal page := by
    rw [dump, trimString_quote, escape_toDecimal]
  rw [parseRequest, load_composeQuery hk]
  simp only [hkeywords, hget, htrim]
  rw [if_neg, strtol_toDecimal hpage, wrapInt_of_isInt hpage]
  rintro (h | h)
  · cases h
  · exact toDecimal_ne_nil page h

theorem wellFormedRequest_composeQuery {k : Bytes} (hk : NulFree k) {page : Int}
    (hpos : 1 ≤ page) (hpage : IsInt page) : WellFormedRequest P (composeQuery k page)
      ⟨(P.tokens ((string k).dump 1)).take 32, page⟩ :=
  ⟨hpos, parseRequest_composeQuery hk hpage, _, k, load_composeQuery hk page, rfl⟩

/-! ## Answers -/

theorem advance_sublist {a : DWord} {rest : List DWord → List DWord} {v1 : List DWord}
    (h : ∀ v, (rest v).Sublist v1) (v2 : List DWord) : (advance a rest v2).Sublist (a :: v1) := by
  induction v2 with
  | nil => exact List.nil_sublist _
  | cons b v2 ih =>
      rw [advance]
      split_ifs
      · exact (h _).cons a
      · exact ih
      · exact (h _).cons_cons a

/-- What two lists have in common is taken from the first one. -/
theorem intersection_sublist (v1 v2 : List DWord) : (intersection v1 v2).Sublist v1 := by
  induction v1 generalizing v2 with
  | nil => exact List.nil_sublist _
  | cons a v1 ih => exact advance_sublist ih v2

theorem mem_intersectLists {x : DWord} {thisVec : List DWord} {prev : Option (List DWord)}
    {lists : List (List DWord)} (h : x ∈ intersectLists thisVec prev lists) :
    x ∈ thisVec ∨ x ∈ prev.getD [] ∨ ∃ docIDs ∈ lists, x ∈ docIDs := by
  induction lists generalizing thisVec prev with
  | nil => cases prev <;> exact .inl h
  | cons docIDs lists ih =>
      cases prev with
      | none =>
          rcases ih h with hx | hx | ⟨l, hl, hx⟩
          · exact .inr (.inr ⟨docIDs, List.mem_cons_self, hx⟩)
          · exact .inr (.inr ⟨docIDs, List.mem_cons_self, hx⟩)
          · exact .inr (.inr ⟨l, List.mem_cons_of_mem _ hl, hx⟩)
      | some prev =>
          rcases ih h with hx | hx | ⟨l, hl, hx⟩
          · exact .inr (.inl ((intersection_sublist _ _).subset hx))
          · exact .inr (.inr ⟨docIDs, List.mem_cons_self, hx⟩)
          · exact .inr (.inr ⟨l, List.mem_cons_of_mem _ hl, hx⟩)

/-- A document in the answer has one of the words. -/
theorem exists_word_of_mem {tbl : IndexTbl} {words : List DWord} {x : DWord}
    (h : x ∈ intersectLists [] none (words.map tbl.find)) : ∃ w ∈ words, x ∈ tbl.find w := by
  rcases mem_intersectLists h with hx | hx | ⟨docIDs, hmem, hx⟩
  · exact absurd hx List.not_mem_nil
  · exact absurd hx List.not_mem_nil
  · obtain ⟨w, hw, rfl⟩ := List.mem_map.1 hmem
    exact ⟨w, hw, hx⟩

/-- The last two keywords of a request, or its only one. -/
def lastTwo (words : List DWord) : List DWord := words.drop (words.length - 2)

theorem lastTwo_singleton (w : DWord) : lastTwo [w] = [w] := rfl

theorem lastTwo_append_pair (front : List DWord) (u v : DWord) :
    lastTwo (front ++ [u, v]) = [u, v] := by
  rw [lastTwo, List.length_append]
  exact List.drop_left

theorem eq_singleton_or_append_pair {words : List DWord} (h : words ≠ []) :
    (∃ w, words = [w]) ∨ ∃ front u v, words = front ++ [u, v] := by
  rcases List.eq_nil_or_concat words with rfl | ⟨front, v, rfl⟩
  · exact absurd rfl h
  rcases List.eq_nil_or_concat front with rfl | ⟨front, u, rfl⟩
  · exact .inl ⟨v, rfl⟩
  · exact .inr ⟨front, u, v, by simp⟩

theorem lastTwo_ne_nil {words : List DWord} (h : words ≠ []) : lastTwo words ≠ [] := by
  rcases eq_singleton_or_append_pair h with ⟨w, rfl⟩ | ⟨front, u, v, rfl⟩
  · exact List.cons_ne_nil _ _
  · rw [lastTwo_append_pair]
    exact List.cons_ne_nil _ _

theorem intersectLists_append_pair (thisVec : List DWord) (prev : Option (List DWord))
    (lists : List (List DWord)) (a b : List DWord) :
    intersectLists thisVec prev (lists ++ [a, b]) = intersection a b := by
  induction lists generalizing thisVec prev with
  | nil => cases prev <;> rfl
  | cons docIDs lists ih =>
      cases prev with
      | none => exact ih _ _
      | some prev => exact ih _ _

/-- What the posting lists of some keywords have in common, for one or two of them. -/
def commonDocs (tbl : IndexTbl) : List DWord → List DWord
  | [w] => tbl.find w
  | [u, v] => intersection (tbl.find u) (tbl.find v)
  | _ => []

/-- STEP 3 finds what the last two keywords have in common. -/
theorem intersectLists_eq_commonDocs (tbl : IndexTbl) (words : List DWord) :
    intersectLists [] none (words.map tbl.find) = commonDocs tbl (lastTwo words) := by
  by_cases hne : words = []
  · subst hne
    rfl
  rcases eq_singleton_or_append_pair hne with ⟨w, rfl⟩ | ⟨front, u, v, rfl⟩
  · rfl
  · rw [lastTwo_append_pair, List.map_append]
    exact intersectLists_append_pair [] none _ _ _

theorem pageDocs_nil (page : Int) : pageDocs [] page = .ok [] := by
  rw [pageDocs, if_pos rfl]

theorem pageDocs_of_nonneg (docIDs : List DWord) {page : Int}
    (h : 0 ≤ wrapInt ((page - 1) * 10)) :
    pageDocs docIDs page = .ok ((docIDs.drop (wrapInt ((page - 1) * 10)).toNat).take 10) := by
  rw [pageDocs]
  split_ifs with hnil hlt hneg
  · rw [hnil, List.drop_nil, List.take_nil]
  · exact absurd h (not_le.2 hneg)
  · rfl
  · rw [List.drop_eq_nil_of_le (by omega), List.take_nil]

theorem pageDocs_of_neg {docIDs : List DWord} (hne : docIDs ≠ []) {page : Int}
    (h : wrapInt ((page - 1) * 10) < 0) : pageDocs docIDs page = .error .range := by
  rw [pageDocs, if_neg hne, if_pos (by omega), if_pos h]

theorem digestAt_eq_ok {digest : List Bytes} {docID : DWord} (hz : docID ≠ 0) :
    (∃ di, digestAt digest docID = .ok di) ↔ docID.toNat ≤ digest.length := by
  have hpos : docID.toNat ≠ 0 := fun h => hz (BitVec.eq_of_toNat_eq h)
  have hpred : (docID - 1).toNat = docID.toNat - 1 := by
    have hone : (1 : DWord) ≤ docID := Nat.one_le_iff_ne_zero.2 hpos
    rw [BitVec.toNat_sub_of_le hone]
    rfl
  rw [digestAt, hpred]
  by_cases hle : docID.toNat ≤ digest.length
  · rw [List.getElem?_eq_getElem (by omega)]
    exact iff_of_true ⟨_, rfl⟩ hle
  · rw [List.getElem?_eq_none (by omega)]
    exact iff_of_false (fun ⟨_, h⟩ => nomatch h) hle

theorem digestAt_ne_exception (digest : List Bytes) (docID : DWord) :
    digestAt digest docID ≠ .error .exception := by
  unfold digestAt
  split <;> exact fun h => nomatch h

theorem exists_ok_of_inRange_mapM {f : α → Except Fault β} (hf : ∀ a, f a ≠ .error .exception)
    {l : List α} (h : InRange (l.mapM f)) : ∀ a ∈ l, ∃ b, f a = .ok b := by
  induction l with
  | nil => simp
  | cons a l ih =>
      rw [List.mapM_cons] at h
      obtain ⟨hhead, htail⟩ := inRange_bind.1 h
      obtain ⟨b, hb⟩ : ∃ b, f a = .ok b := by
        cases hfa : f a with
        | ok b => exact ⟨b, rfl⟩
        | error e =>
            cases e with
            | range => exact absurd hfa hhead
            | exception => exact absurd hfa (hf a)
      exact List.forall_mem_cons.2 ⟨⟨b, hb⟩, ih (inRange_bind.1 (htail b hb)).1⟩

/-- A word that can be asked for has only docIDs with a digest. -/
def DocsInRange (P : Platform) (blob : Bytes) : Prop :=
  ∀ tbl digest, readBlob blob = some (tbl, digest) →
    ∀ w, Asked P w → ∀ docID ∈ tbl.find w, docID.toNat ≤ digest.length

/-- A well-formed request whose page starts at an `int` that is not negative. -/
def Servable (P : Platform) (request : Bytes) : Prop :=
  ∃ query, WellFormedRequest P request query ∧ 0 ≤ wrapInt ((query.page - 1) * 10)

theorem find_loaded {blob : Bytes} {tbl : IndexTbl} {digest : List Bytes}
    (h : readBlob blob = some (tbl, digest)) (w : DWord) :
    0 ∉ tbl.find w ∧ (tbl.find w).length < 2 ^ 29 := by
  obtain ⟨size, hsize, hindex, -⟩ := readBlob_eq_some.1 h
  obtain ⟨hz, hlen⟩ := find_of_binary2Index hindex w
  have := readInt_lt hsize
  exact ⟨hz, by omega⟩

theorem inRange_finalResponse (context : WitnessContext) (request : Bytes) (results : List Bytes) :
    InRange (finalResponse P context request results) := by
  unfold finalResponse
  split
  · exact inRange_exception
  · exact inRange_ok _

theorem inRange_ecallDoQuery_of_results {q : Querier} {request : Bytes} {query : Query}
    (hparse : parseRequest P request = .ok (some query)) (h : InRange (queryResults q query))
    (size : Nat) : InRange (ecallDoQuery P q request size) := by
  rw [ecallDoQuery, hparse]
  refine inRange_bind.2 ⟨inRange_ok _, fun parsed hparsed => ?_⟩
  cases hparsed
  refine inRange_bind.2 ⟨h, fun results _ => ?_⟩
  exact inRange_bind.2 ⟨inRange_finalResponse _ _ _, fun _ _ => inRange_ok _⟩

/-- One request to a querier whose docIDs are in range. -/
theorem inRange_ecallDoQuery (halone : AskedAlone P) {blob : Bytes} {tbl : IndexTbl}
    {digest : List Bytes} (hread : readBlob blob = some (tbl, digest)) (hdocs : DocsInRange P blob)
    {request : Bytes} (hreq : Servable P request) (context : WitnessContext) (size : Nat) :
    InRange (ecallDoQuery P ⟨tbl, digest, context⟩ request size) := by
  obtain ⟨query, hwf, hpage⟩ := hreq
  obtain ⟨k, hk, hwords⟩ := hwf.words_eq
  have hresults : InRange (queryResults ⟨tbl, digest, context⟩ query) := by
    rw [queryResults, tenResults, pageDocs_of_nonneg _ hpage]
    refine inRange_bind.2 ⟨inRange_ok _, fun shown hshown => ?_⟩
    cases hshown
    refine inRange_bind.2 ⟨inRange_mapM fun docID hmem => ?_, fun _ _ => inRange_ok _⟩
    obtain ⟨w, hw, hx⟩ := exists_word_of_mem (List.mem_of_mem_drop (List.mem_of_mem_take hmem))
    rw [hwords] at hw
    have hz : docID ≠ 0 := fun h => (find_loaded hread w).1 (h ▸ hx)
    obtain ⟨di, hdi⟩ := (digestAt_eq_ok hz).2 (hdocs tbl digest hread w (halone k hk w hw) docID hx)
    rw [hdi]
    exact inRange_ok di
  exact inRange_ecallDoQuery_of_results hwf.2.1 hresults size

theorem ecallQuerierSetup_eq_ok {C : Crypto} {blob : Bytes} {q : Querier} :
    ecallQuerierSetup C blob = .ok q ↔
      readBlob blob = some (q.index, q.digest) ∧ q.context = querierContext C blob := by
  rw [← loadBlob_eq_ok, ecallQuerierSetup, bind_eq_ok]
  constructor
  · rintro ⟨⟨index, digest⟩, hload, heq⟩
    cases heq
    exact ⟨hload, rfl⟩
  · rintro ⟨hload, hcontext⟩
    refine ⟨_, hload, ?_⟩
    rw [← hcontext]
    rfl

/-! ## The decoders -/

/-- All requests that can be served are served in range. -/
def ServesInRange (P : Platform) (blob : Bytes) : Prop :=
  ∀ requests : List (Bytes × Nat), (∀ r ∈ requests, Servable P r.1) →
    InRange (serve P blob requests)

theorem servesInRange_of_fits (halone : AskedAlone P) {blob : Bytes} (hfits : BlobFits blob)
    (hdocs : DocsInRange P blob) : ServesInRange P blob := by
  intro requests hrequests
  have hsetup : InRange (ecallQuerierSetup P.crypto blob) :=
    inRange_bind.2 ⟨inRange_loadBlob.2 hfits, fun _ _ => inRange_ok _⟩
  refine inRange_bind.2 ⟨hsetup, fun q hq => inRange_mapM fun r hr => ?_⟩
  exact inRange_ecallDoQuery halone (ecallQuerierSetup_eq_ok.1 hq).1 hdocs (hrequests r hr)
    q.context r.2

/-- The page on which a docID stands. -/
theorem exists_page {docIDs : List DWord} {docID : DWord} (h : docID ∈ docIDs)
    (hlen : docIDs.length < 2 ^ 29) : ∃ page : Int, 1 ≤ page ∧ IsInt page ∧
      0 ≤ wrapInt ((page - 1) * 10) ∧
      docID ∈ (docIDs.drop (wrapInt ((page - 1) * 10)).toNat).take 10 := by
  obtain ⟨n, hn, rfl⟩ := List.getElem_of_mem h
  have hstart : wrapInt (((n / 10 : Nat) + 1 - 1 : Int) * 10) = (n / 10 * 10 : Nat) := by
    rw [wrapInt_of_isInt ⟨by omega, by omega⟩]
    omega
  refine ⟨(n / 10 : Nat) + 1, by omega, ⟨by omega, by omega⟩, by rw [hstart]; omega, ?_⟩
  rw [hstart, Int.toNat_natCast, List.mem_iff_getElem]
  have hoffset : n / 10 * 10 + n % 10 = n := Nat.div_add_mod' n 10
  refine ⟨n % 10, ?_, ?_⟩
  · rw [List.length_take, List.length_drop]
    omega
  · simp only [List.getElem_take, List.getElem_drop, hoffset]

/-- Where a served request is answered, its results are computed in range. -/
theorem inRange_queryResults_of_serve {blob request : Bytes} {query : Query} {size : Nat}
    {tbl : IndexTbl} {digest : List Bytes} (hread : readBlob blob = some (tbl, digest))
    (hparse : parseRequest P request = .ok (some query))
    (h : InRange (serve P blob [(request, size)])) :
    InRange (queryResults ⟨tbl, digest, querierContext P.crypto blob⟩ query) := by
  have hsetup : ecallQuerierSetup P.crypto blob =
      .ok ⟨tbl, digest, querierContext P.crypto blob⟩ := ecallQuerierSetup_eq_ok.2 ⟨hread, rfl⟩
  have hqueries := (inRange_bind.1 h).2 _ hsetup
  rw [List.mapM_cons] at hqueries
  have hquery := (inRange_bind.1 hqueries).1
  rw [ecallDoQuery, hparse] at hquery
  exact (inRange_bind.1 ((inRange_bind.1 hquery).2 _ rfl)).1

theorem docsInRange_of_serves {blob : Bytes} (h : ServesInRange P blob) : DocsInRange P blob := by
  intro tbl digest hread w ⟨k, hk, hw⟩ docID hmem
  obtain ⟨hz, hlen⟩ := find_loaded hread w
  obtain ⟨page, hpos, hint, hstart, hshown⟩ := exists_page hmem hlen
  have hwf := wellFormedRequest_composeQuery (P := P) hk hpos hint
  rw [hw] at hwf
  have hserve := h [(composeQuery k page, 0)] (by simpa using ⟨_, hwf, hstart⟩)
  have hresults := inRange_queryResults_of_serve hread hwf.2.1 hserve
  rw [queryResults, tenResults, pageDocs_of_nonneg _ hstart] at hresults
  have hfetch := (inRange_bind.1 ((inRange_bind.1 hresults).2 _ rfl)).1
  refine (digestAt_eq_ok (fun h0 => hz (h0 ▸ hmem))).1 ?_
  exact exists_ok_of_inRange_mapM (digestAt_ne_exception digest) hfetch docID hshown

/-- If the offset of the page overflows, the answer is read from before the vector, unless there is
nothing in it. -/
theorem inRange_serve_overflow_iff {blob request : Bytes} {query : Query} {size : Nat}
    {tbl : IndexTbl} {digest : List Bytes} (hread : readBlob blob = some (tbl, digest))
    (hreq : WellFormedRequest P request query) (hstart : wrapInt ((query.page - 1) * 10) < 0) :
    InRange (serve P blob [(request, size)]) ↔ commonDocs tbl (lastTwo query.words) = [] := by
  constructor
  · intro hserve
    have hresults := inRange_queryResults_of_serve hread hreq.2.1 hserve
    rw [queryResults, intersectLists_eq_commonDocs] at hresults
    by_contra hne
    exact (inRange_bind.1 hresults).1 (pageDocs_of_neg hne hstart)
  · intro hnil
    have hresults : InRange (queryResults ⟨tbl, digest, querierContext P.crypto blob⟩ query) := by
      rw [queryResults, intersectLists_eq_commonDocs, hnil, tenResults, pageDocs_nil]
      exact inRange_ok _
    have hsetup : ecallQuerierSetup P.crypto blob =
        .ok ⟨tbl, digest, querierContext P.crypto blob⟩ := ecallQuerierSetup_eq_ok.2 ⟨hread, rfl⟩
    rw [serve, hsetup]
    refine inRange_mapM fun r hr => ?_
    rw [List.mem_singleton.1 hr]
    exact inRange_ecallDoQuery_of_results hreq.2.1 hresults size

/-- **Untrusted blobs.** Whatever Kanban returns: a querier loads it and serves all well-formed
requests in range exactly when the blob has its shape and the docIDs that can be asked for have a
digest, as long as no page overflows its offset; a request whose page does is served in range
exactly when the posting lists of its last two keywords have nothing in common. `ecall_do_merge`
takes two blobs apart in range exactly when both have their shape. -/
theorem decoders_inRange_iff (halone : AskedAlone P) (blob index1 index2 : Bytes) :
    (ServesInRange P blob ↔ BlobFits blob ∧ DocsInRange P blob) ∧
    (∀ tbl digest request query size, readBlob blob = some (tbl, digest) →
      WellFormedRequest P request query → wrapInt ((query.page - 1) * 10) < 0 →
        (InRange (serve P blob [(request, size)]) ↔ commonDocs tbl (lastTwo query.words) = [])) ∧
    (InRange (loadBoth index1 index2) ↔ BothFit index1 index2) := by
  refine ⟨⟨fun h => ⟨?_, docsInRange_of_serves h⟩, fun h => servesInRange_of_fits halone h.1 h.2⟩,
    fun _ _ _ _ _ hread hreq hstart => inRange_serve_overflow_iff hread hreq hstart,
    inRange_loadBoth⟩
  exact inRange_loadBlob.1 (inRange_bind.1 (inRange_bind.1 (h [] (by simp))).1).1

theorem escape_of_alnum {text : Bytes} (h : ∀ c ∈ text, isAlnum c) : escape text = text := by
  have hbyte : ∀ c, isAlnum c → escapeByte c = [c] := by decide +kernel
  induction text with
  | nil => rfl
  | cons c text ih =>
      rw [List.forall_mem_cons] at h
      rw [show escape (c :: text) = escapeByte c ++ escape text from rfl, hbyte c h.1, ih h.2]
      rfl

/-- A request for one word. -/
theorem tokens_sample_word {u : Bytes} (hne : u ≠ []) (h : ∀ c ∈ u, isAlnum c) :
    samplePlatform.tokens ((string u).dump 1) = [sphCRC32 (lower u)] := by
  rw [dump, escape_of_alnum h]
  exact congrArg (List.map sphCRC32) (wordsIn_quoted hne h)

theorem nulFree_of_alnum {text : Bytes} (h : ∀ c ∈ text, isAlnum c) : NulFree text :=
  fun hzero => absurd (h 0 hzero) (by decide)

/-- Every word of a text can be asked for on its own. -/
theorem askedAlone_sample : AskedAlone samplePlatform := by
  intro k _ w hw
  obtain ⟨text, htext, rfl⟩ := List.mem_map.1 (List.mem_of_mem_take hw)
  obtain ⟨hne, halnum, hlower⟩ := alnum_of_mem_wordsIn htext
  refine ⟨text, nulFree_of_alnum halnum, ?_⟩
  rw [tokens_sample_word hne halnum, hlower]

/-- The blob of the document `world`. -/
def worldBlob : Bytes :=
  leBytes 12 ++ ofWords [sphCRC32 (ascii "world"), 1, 0] ++ (ascii "world" ++ [0])

/-- A querier serves it, and a reducer takes it apart. -/
theorem decoders_inRange_world : ServesInRange samplePlatform worldBlob ∧
    InRange (loadBoth worldBlob worldBlob) := by
  have hsize : readInt worldBlob = some 12 := by decide +kernel
  have hindex : IndexFits worldBlob 12 := ⟨rfl, by decide +kernel⟩
  have hread : readBlob worldBlob =
      some (Multimap.empty.alter (sphCRC32 (ascii "world")) (fun _ => [1]), [ascii "world"]) := by
    decide +kernel
  have hscratch : ScratchFits worldBlob 12 := by
    intro pre run c post heq _
    have hlen := congrArg List.length heq
    have htail : ((worldBlob.drop 4).drop (12 : Int).toNat).length = 6 := by decide +kernel
    rw [htail, List.length_append, List.length_append, List.length_cons] at hlen
    have hmax : tempDigestLen = 65536 := rfl
    omega
  have hdocs : DocsInRange samplePlatform worldBlob := by
    intro tbl digest hread' w _ docID hmem
    obtain ⟨rfl, rfl⟩ := Prod.mk.inj (Option.some.inj (hread.symm.trans hread'))
    rw [Multimap.find_alter] at hmem
    split_ifs at hmem
    · rw [List.mem_singleton.1 hmem]
      decide
    · exact absurd hmem List.not_mem_nil
  have h := decoders_inRange_iff askedAlone_sample worldBlob worldBlob worldBlob
  exact ⟨h.1.2 ⟨⟨12, hsize, .inr ⟨hindex, hscratch⟩⟩, hdocs⟩,
    h.2.2.2 ⟨12, 12, hsize, hsize, .inr ⟨hindex, .inr ⟨hindex, hscratch, hscratch⟩⟩⟩⟩

/-- A blob of 16 bytes with one word, the docID 5 and no digest at all, and a request for this
word. -/
theorem docID_without_digest : ∃ k w,
    WellFormedRequest samplePlatform (composeQuery k 1) ⟨[w], 1⟩ ∧
    ¬InRange (serve samplePlatform (leBytes 12 ++ ofWords [w, 5, 0])
      [(composeQuery k 1, 10240)]) := by
  have hword := tokens_sample_word (u := ascii "world") (by decide) (by decide +kernel)
  have hreq := wellFormedRequest_composeQuery (P := samplePlatform) (k := ascii "world")
    (by decide) (show (1 : Int) ≤ 1 by decide) (by decide)
  rw [hword] at hreq
  refine ⟨ascii "world", _, hreq, fun h => h ?_⟩
  decide +kernel

end DeSearch
