import DeSearch.Enclave

/-!
# The global index is the index of all documents

What an index is for: `lookup docs w` lists the numbers of the documents that contain the word
`w`. A blob *represents* a list of documents when it decodes to their digests and to a table that
reads as `lookup docs`. `ecall_build_index` makes such a blob, and `ecall_do_merge` turns blobs of
`docs₁` and `docs₂` into one of `docs₁ ++ docs₂`. So folding merges over the epochs of a shard is
the same as indexing all its documents at once.
-/

namespace DeSearch

open JSON

variable (P : Platform)

/-! ## What an index holds -/

/-- The numbers of the documents with a word, when the first document has number `docID`. -/
def postings (wordID : DWord) : Nat → List Bytes → List DWord
  | _, [] => []
  | docID, doc :: docs =>
      if wordID ∈ P.tokens doc then BitVec.ofNat 32 docID :: postings wordID (docID + 1) docs
      else postings wordID (docID + 1) docs

/-- What the index of a list of documents reads as. -/
def lookup (docs : List Bytes) (wordID : DWord) : List DWord :=
  if wordID ∈ P.stop then [] else postings P wordID 1 docs

/-- The digest table of a list of documents. -/
def digests (docs : List Bytes) : List Bytes := docs.map (List.take digestMaxLength)

theorem postings_append (w : DWord) (docID : Nat) (docs₁ docs₂ : List Bytes) :
    postings P w docID (docs₁ ++ docs₂) =
      postings P w docID docs₁ ++ postings P w (docID + docs₁.length) docs₂ := by
  induction docs₁ generalizing docID with
  | nil => rfl
  | cons doc docs₁ ih =>
      have hlen : docID + (doc :: docs₁).length = docID + 1 + docs₁.length := by
        rw [List.length_cons]
        omega
      rw [List.cons_append, postings, postings, ih, hlen]
      split_ifs <;> rfl

theorem postings_shift (w : DWord) (docID offset : Nat) (docs : List Bytes) :
    postings P w (docID + offset) docs =
      (postings P w docID docs).map (· + BitVec.ofNat 32 offset) := by
  induction docs generalizing docID with
  | nil => rfl
  | cons doc docs ih =>
      have hnext : docID + offset + 1 = docID + 1 + offset := by omega
      rw [postings, postings, hnext, ih]
      split_ifs
      · rw [List.map_cons, BitVec.ofNat_add]
      · rfl

/-- Appending documents moves the later numbers behind the earlier documents. -/
theorem lookup_append (docs₁ docs₂ : List Bytes) (w : DWord) :
    lookup P (docs₁ ++ docs₂) w =
      lookup P docs₁ w ++ (lookup P docs₂ w).map (· + BitVec.ofNat 32 docs₁.length) := by
  unfold lookup
  split_ifs
  · rfl
  · rw [postings_append, postings_shift]

theorem exists_of_mem_postings {w x : DWord} {docID : Nat} {docs : List Bytes}
    (h : x ∈ postings P w docID docs) :
    ∃ n, docID ≤ n ∧ n < docID + docs.length ∧ x = BitVec.ofNat 32 n := by
  induction docs generalizing docID with
  | nil => exact absurd h List.not_mem_nil
  | cons doc docs ih =>
      have hrest : x ∈ postings P w (docID + 1) docs →
          ∃ n, docID ≤ n ∧ n < docID + (doc :: docs).length ∧ x = BitVec.ofNat 32 n := by
        intro hx
        obtain ⟨n, hle, hlt, rfl⟩ := ih hx
        exact ⟨n, by omega, by rw [List.length_cons]; omega, rfl⟩
      rw [postings] at h
      split_ifs at h
      · rcases List.mem_cons.1 h with rfl | hx
        · exact ⟨docID, le_rfl, by rw [List.length_cons]; omega, rfl⟩
        · exact hrest hx
      · exact hrest h

/-- A document is in the list of a word exactly if the word is in the document. -/
theorem mem_postings_iff {w : DWord} {docID i : Nat} {docs : List Bytes} {doc : Bytes}
    (hdoc : docs[i]? = some doc) (hid : docID + docs.length ≤ 2 ^ 32) :
    BitVec.ofNat 32 (docID + i) ∈ postings P w docID docs ↔ w ∈ P.tokens doc := by
  have hinj : ∀ {m n : Nat}, m < 2 ^ 32 → n < 2 ^ 32 →
      BitVec.ofNat 32 m = BitVec.ofNat 32 n → m = n := by
    intro m n hm hn heq
    have := congrArg BitVec.toNat heq
    rwa [BitVec.toNat_ofNat, BitVec.toNat_ofNat, Nat.mod_eq_of_lt hm, Nat.mod_eq_of_lt hn] at this
  induction docs generalizing docID i with
  | nil => cases hdoc
  | cons d docs ih =>
      rw [List.length_cons] at hid
      rw [postings]
      cases i with
      | zero =>
          cases hdoc
          split_ifs with hw
          · exact iff_of_true List.mem_cons_self hw
          · refine iff_of_false (fun hmem => ?_) hw
            obtain ⟨n, hle, hlt, heq⟩ := exists_of_mem_postings P hmem
            have := hinj (by omega) (by omega) heq
            omega
      | succ i =>
          rw [List.getElem?_cons_succ] at hdoc
          have hi : i < docs.length := (List.getElem?_eq_some_iff.1 hdoc).1
          have hrest := ih hdoc (show docID + 1 + docs.length ≤ 2 ^ 32 by omega)
          rw [show docID + 1 + i = docID + (i + 1) by omega] at hrest
          split_ifs
          · refine List.mem_cons.trans (Iff.trans (or_iff_right fun heq => ?_) hrest)
            have := hinj (by omega) (by omega) heq
            omega
          · exact hrest

/-- A table without empty lists that reads as the index of the documents. -/
structure Indexes (docs : List Bytes) (tbl : IndexTbl) : Prop where
  noEmpty : tbl.NoEmpty
  find : ∀ w, tbl.find w = lookup P docs w

variable {P}

/-- Such tables are the same map. -/
theorem Indexes.get?_eq {docs : List Bytes} {tbl tbl' : IndexTbl} (h : Indexes P docs tbl)
    (h' : Indexes P docs tbl') (w : DWord) : tbl.get? w = tbl'.get? w :=
  Multimap.get?_eq_of_noEmpty h.noEmpty h'.noEmpty (fun k => (h.find k).trans (h'.find k).symm) w

theorem Indexes.zero_notMem {docs : List Bytes} {tbl : IndexTbl} (h : Indexes P docs tbl)
    (hlen : docs.length + 1 < 2 ^ 32) : ∀ p ∈ tbl.entries, 0 ∉ p.2 := by
  rintro ⟨w, vs⟩ hp hz
  rw [← Multimap.find_of_mem hp, h.find, lookup] at hz
  split_ifs at hz
  · exact absurd hz List.not_mem_nil
  · obtain ⟨n, hn, hn', heq⟩ := exists_of_mem_postings P hz
    have := congrArg BitVec.toNat heq
    rw [BitVec.toNat_ofNat, Nat.mod_eq_of_lt (by omega)] at this
    simp at this
    omega

/-! ## `build_index` -/

theorem appendDoc_appendDoc (docID : DWord) (docs : List DWord) :
    appendDoc docID (appendDoc docID docs) = appendDoc docID docs := by
  unfold appendDoc
  split_ifs with h <;> simp_all

theorem appendDoc_ne_nil (docID : DWord) (docs : List DWord) : appendDoc docID docs ≠ [] := by
  unfold appendDoc
  split_ifs with h
  · rintro rfl
    simp at h
  · simp

theorem appendDoc_of_lt {docID : Nat} {docs : List DWord} (hid : docID < 2 ^ 32)
    (h : ∀ x ∈ docs, x.toNat < docID) :
    appendDoc (BitVec.ofNat 32 docID) docs = docs ++ [BitVec.ofNat 32 docID] := by
  refine if_neg fun hlast => ?_
  have := h _ (List.mem_of_getLast? hlast)
  rw [BitVec.toNat_ofNat, Nat.mod_eq_of_lt hid] at this
  exact lt_irrefl _ this

/-- The loop over the documents appends their postings. The numbers already there are smaller, so
the de-duplication drops only what one document repeats. -/
theorem find_yieldAll (w : DWord) (docs : List Bytes) (tbl : IndexTbl) (docID : Nat)
    (hid : docID + docs.length ≤ 2 ^ 32) (h : ∀ x ∈ tbl.find w, x.toNat < docID) :
    (yieldAll P tbl docID docs).find w = tbl.find w ++ postings P w docID docs := by
  induction docs generalizing tbl docID with
  | nil => simp [yieldAll, postings]
  | cons doc docs ih =>
      rw [List.length_cons] at hid
      have hid' : docID < 2 ^ 32 := by omega
      have hstep : (yieldIndex P tbl docID doc).find w =
          if w ∈ P.tokens doc then tbl.find w ++ [BitVec.ofNat 32 docID] else tbl.find w := by
        rw [yieldIndex, Multimap.find_foldl_alter (appendDoc_appendDoc _),
          appendDoc_of_lt hid' h]
      have hnext : ∀ x ∈ (yieldIndex P tbl docID doc).find w, x.toNat < docID + 1 := by
        intro x hx
        rw [hstep] at hx
        split_ifs at hx
        · rcases List.mem_append.1 hx with hx | hx
          · exact (h x hx).trans (Nat.lt_succ_self _)
          · rw [List.mem_singleton.1 hx, BitVec.toNat_ofNat, Nat.mod_eq_of_lt hid']
            omega
        · exact (h x hx).trans (Nat.lt_succ_self _)
      rw [yieldAll, ih _ _ (by omega) hnext, hstep, postings]
      split_ifs <;> simp

theorem noEmpty_yieldAll (docs : List Bytes) {tbl : IndexTbl} (h : tbl.NoEmpty) (docID : Nat) :
    (yieldAll P tbl docID docs).NoEmpty := by
  induction docs generalizing tbl docID with
  | nil => exact h
  | cons doc docs ih => exact ih (h.foldl_alter (appendDoc_ne_nil _) _) _

theorem indexes_indexOf {docs : List Bytes} (hlen : docs.length + 1 < 2 ^ 32) :
    Indexes P docs (indexOf P docs) where
  noEmpty := (noEmpty_yieldAll docs Multimap.noEmpty_empty 1).foldl_erase _
  find w := by
    rw [indexOf, Multimap.find_foldl_erase, find_yieldAll w docs _ 1 (by omega) (by simp),
      Multimap.find_empty, List.nil_append]
    rfl

/-! ## `ecall_do_merge` -/

/-- What the merged table reads as does not depend on the order of enumeration. -/
theorem find_mergeIndex (O : HashOrder) (tbl₁ tbl₂ : IndexTbl) (offset : Nat) (w : DWord) :
    (mergeIndex O tbl₁ tbl₂ offset).find w =
      tbl₁.find w ++ (tbl₂.find w).map (· + BitVec.ofNat 32 offset) := by
  have hnd : ((O.enum tbl₂).map Prod.fst).Nodup :=
    ((O.perm tbl₂).map Prod.fst).nodup_iff.2 tbl₂.nodup
  have hpush : ((Multimap.pushesOf (O.enum tbl₂)).map fun p =>
        (p.1, p.2 + BitVec.ofNat 32 offset)).filterMap
          (fun p => if p.1 = w then some p.2 else none) =
      (tbl₂.find w).map (· + BitVec.ofNat 32 offset) := by
    rw [List.filterMap_map, Multimap.find, Multimap.get?,
      ← Multimap.listGet?_perm (O.perm tbl₂) hnd, ← Multimap.filterMap_pushesOf hnd,
      List.map_filterMap]
    refine List.filterMap_congr fun p _ => ?_
    simp only [Function.comp_apply]
    split_ifs <;> rfl
  rw [mergeIndex, Multimap.find_pushAll, hpush]

theorem indexes_mergeIndex (O : HashOrder) {docs₁ docs₂ : List Bytes} {tbl₁ tbl₂ : IndexTbl}
    (h₁ : Indexes P docs₁ tbl₁) (h₂ : Indexes P docs₂ tbl₂) :
    Indexes P (docs₁ ++ docs₂) (mergeIndex O tbl₁ tbl₂ docs₁.length) where
  noEmpty := h₁.noEmpty.pushAll _
  find w := by rw [find_mergeIndex, h₁.find, h₂.find, lookup_append]

/-! ## The documents of a list of batches -/

theorem documents_append {items₁ items₂ docs₁ docs₂ : List Bytes}
    (h₁ : documents P items₁ = some docs₁) (h₂ : documents P items₂ = some docs₂) :
    documents P (items₁ ++ items₂) = some (docs₁ ++ docs₂) := by
  obtain ⟨batches₁, hb₁, rfl⟩ := Option.map_eq_some_iff.1 h₁
  obtain ⟨batches₂, hb₂, rfl⟩ := Option.map_eq_some_iff.1 h₂
  rw [documents, List.mapM_append, hb₁, hb₂]
  simp

theorem nulFree_trimString {s : Bytes} (h : NulFree s) : NulFree (trimString s) :=
  NulFree.take (fun hz => h (List.mem_of_mem_drop hz)) _

theorem clean_of_mem_arrayRange {j v : JSON} (hj : Clean j) (hv : v ∈ j.arrayRange) :
    Clean v := by
  cases j with
  | array l =>
      have hl : CleanElems l := hj
      change v ∈ l at hv
      clear hj
      induction l with
      | nil => exact absurd hv List.not_mem_nil
      | cons w l ih =>
          rcases List.mem_cons.1 hv with rfl | hv
          · exact hl.1
          · exact ih hl.2 hv
  | _ => exact absurd hv List.not_mem_nil

theorem mem_of_mapM_eq_some {α β : Type} {f : α → Option β} {l : List α} {l' : List β}
    (h : l.mapM f = some l') : ∀ b ∈ l', ∃ a ∈ l, f a = some b := by
  induction l generalizing l' with
  | nil =>
      obtain rfl : [] = l' := by simpa using h
      simp
  | cons a l ih =>
      rw [List.mapM_cons] at h
      obtain ⟨b, hb, h⟩ := Option.bind_eq_some_iff.1 h
      obtain ⟨bs, hbs, h⟩ := Option.bind_eq_some_iff.1 h
      obtain rfl : b :: bs = l' := by simpa using h
      rintro c hc
      rcases List.mem_cons.1 hc with rfl | hc
      · exact ⟨a, List.mem_cons_self, hb⟩
      · obtain ⟨a', ha', hfa'⟩ := ih hbs c hc
        exact ⟨a', List.mem_cons_of_mem _ ha', hfa'⟩

theorem mapM_map_some {α β γ : Type} {f : β → Option γ} {g : α → β} {k : α → γ} (l : List α)
    (h : ∀ a ∈ l, f (g a) = some (k a)) : (l.map g).mapM f = some (l.map k) := by
  induction l with
  | nil => rfl
  | cons a l ih =>
      rw [List.forall_mem_cons] at h
      simp [List.mapM_cons, h.1, ih h.2]

/-- C strings parse into documents without a NUL. -/
theorem nulFree_documents {items docs : List Bytes}
    (h : documents P (items.map cString) = some docs) : ∀ doc ∈ docs, NulFree doc := by
  obtain ⟨batches, hb, rfl⟩ := Option.map_eq_some_iff.1 h
  intro doc hdoc
  obtain ⟨batch, hbatch, hdoc⟩ := List.mem_flatMap.1 hdoc
  obtain ⟨item, hitem, rfl⟩ := List.mem_map.1 hdoc
  obtain ⟨s, hs, hload⟩ := mem_of_mapM_eq_some hb batch hbatch
  obtain ⟨s₀, -, rfl⟩ := List.mem_map.1 hs
  have hclean := clean_of_mem_arrayRange (load_clean (nulFree_cString s₀) hload) hitem
  exact nulFree_trimString (nulFree_dump item hclean 1)

/-! ## Blobs that represent documents -/

variable (P) in
/-- The size of the blob of a list of documents. -/
def blobSize (docs : List Bytes) : Nat :=
  4 + 4 * (indexOf P docs).cells + (docs.map fun doc => min digestMaxLength doc.length + 1).sum

theorem length_le_sum_digests (docs : List Bytes) :
    docs.length ≤ (docs.map fun doc => min digestMaxLength doc.length + 1).sum := by
  induction docs with
  | nil => exact le_rfl
  | cons doc docs ih =>
      rw [List.map_cons, List.sum_cons, List.length_cons]
      omega

theorem length_le_blobSize (docs : List Bytes) : docs.length ≤ blobSize P docs := by
  have hle := length_le_sum_digests docs
  unfold blobSize
  omega

theorem length_appendDoc_le (docID : DWord) (docs : List DWord) :
    (appendDoc docID docs).length ≤ docs.length + 1 := by
  unfold appendDoc
  split_ifs <;> simp

theorem cells_yieldAll_le (docs : List Bytes) (tbl : IndexTbl) (docID : Nat) :
    (yieldAll P tbl docID docs).cells ≤
      tbl.cells + 3 * (docs.map fun doc => (P.tokens doc).length).sum := by
  induction docs generalizing tbl docID with
  | nil => exact le_rfl
  | cons doc docs ih =>
      have hstep : (yieldIndex P tbl docID doc).cells ≤ tbl.cells + 3 * (P.tokens doc).length :=
        Multimap.cells_foldl_alter_le (length_appendDoc_le _) _ _
      have hrest := ih (yieldIndex P tbl docID doc) (docID + 1)
      rw [yieldAll, List.map_cons, List.sum_cons]
      omega

/-- A document with no more words than characters takes thirteen bytes for each character at
most. -/
theorem blobSize_le {docs : List Bytes}
    (h : ∀ doc ∈ docs, (P.tokens doc).length ≤ doc.length + 1) :
    blobSize P docs ≤ 4 + 13 * (docs.map fun doc => doc.length + 1).sum := by
  have hcells : (indexOf P docs).cells ≤
      0 + 3 * (docs.map fun doc => (P.tokens doc).length).sum :=
    (Multimap.cells_foldl_erase_le _ _).trans (cells_yieldAll_le docs Multimap.empty 1)
  have hwords : (docs.map fun doc => (P.tokens doc).length).sum ≤
      (docs.map fun doc => doc.length + 1).sum := List.sum_le_sum h
  have hdigests : (docs.map fun doc => min digestMaxLength doc.length + 1).sum ≤
      (docs.map fun doc => doc.length + 1).sum :=
    List.sum_le_sum fun doc _ => Nat.add_le_add_right (Nat.min_le_right _ _) 1
  rw [blobSize]
  omega

theorem length_index2Binary (O : HashOrder) (tbl : IndexTbl) :
    (index2Binary O tbl).length = 4 * tbl.cells := by
  have hrec : ∀ rs : List (DWord × List DWord),
      (Delimited.records 0 rs).length = (rs.map fun r => r.2.length + 2).sum := by
    intro rs
    rw [Delimited.records, List.length_flatMap]
    congr 1
    exact List.map_congr_left fun r _ => by simp
  rw [index2Binary, length_ofWords, hrec, Multimap.cells, ((O.perm tbl).map _).sum_nat]

theorem length_merge2Binary (O : HashOrder) {docs : List Bytes} {tbl : IndexTbl}
    (h : Indexes P docs tbl) (hlen : docs.length + 1 < 2 ^ 32) :
    (merge2Binary O (digests docs) tbl).length = blobSize P docs := by
  have hcells : tbl.cells = (indexOf P docs).cells :=
    Multimap.cells_eq_of_get?_eq (h.get?_eq (indexes_indexOf hlen))
  have hdig : (digest2Binary (digests docs)).length =
      (docs.map fun doc => min digestMaxLength doc.length + 1).sum := by
    rw [length_digest2Binary, digests, List.map_map]
    congr 1
    exact List.map_congr_left fun doc _ => by simp
  rw [merge2Binary, List.length_append, List.length_append, length_leBytes, length_index2Binary,
    hcells, hdig, blobSize]

/-- Documents only ever add to the size, at least one byte each. -/
theorem blobSize_le_append (docs₁ docs₂ : List Bytes)
    (hlen : (docs₁ ++ docs₂).length + 1 < 2 ^ 32) :
    blobSize P docs₁ + docs₂.length ≤ blobSize P (docs₁ ++ docs₂) := by
  rw [List.length_append] at hlen
  have h₁ : Indexes P docs₁ (indexOf P docs₁) := indexes_indexOf (by omega)
  have h₂ : Indexes P docs₂ (indexOf P docs₂) := indexes_indexOf (by omega)
  have h₁₂ : Indexes P (docs₁ ++ docs₂) (indexOf P (docs₁ ++ docs₂)) :=
    indexes_indexOf (by rw [List.length_append]; omega)
  have hcells : (indexOf P docs₁).cells ≤ (indexOf P (docs₁ ++ docs₂)).cells := by
    rw [← Multimap.cells_eq_of_get?_eq ((indexes_mergeIndex insertionOrder h₁ h₂).get?_eq h₁₂)]
    refine Multimap.cells_le_of_find h₁.noEmpty fun w => ?_
    rw [find_mergeIndex, List.length_append]
    exact Nat.le_add_right _ _
  have hdigests := length_le_sum_digests docs₂
  unfold blobSize
  rw [List.map_append, List.sum_append]
  omega

variable (P) in
/-- The blob decodes to the digests and the index of the documents. -/
def Represents (docs : List Bytes) (blob : Bytes) : Prop :=
  (∀ doc ∈ docs, NulFree doc) ∧
    ∃ tbl, readBlob blob = some (tbl, digests docs) ∧ Indexes P docs tbl

theorem represents_merge2Binary (O : HashOrder) {docs : List Bytes} {tbl : IndexTbl}
    (h : Indexes P docs tbl) (hnul : ∀ doc ∈ docs, NulFree doc)
    (hsize : blobSize P docs < 2 ^ 31) :
    Represents P docs (merge2Binary O (digests docs) tbl) := by
  have hlen : docs.length + 1 < 2 ^ 32 := by
    have := length_le_blobSize (P := P) docs
    omega
  have hdigNul : ∀ di ∈ digests docs, NulFree di := by
    intro di hdi
    obtain ⟨doc, hdoc, rfl⟩ := List.mem_map.1 hdi
    exact (hnul doc hdoc).take _
  have hdigLen : ∀ di ∈ digests docs, di.length < tempDigestLen := by
    intro di hdi
    obtain ⟨doc, -, rfl⟩ := List.mem_map.1 hdi
    exact lt_of_le_of_lt (List.length_take_le _ _) (by decide)
  have hindex : (index2Binary O tbl).length < 2 ^ 31 := by
    have hwhole := length_merge2Binary O h hlen
    rw [merge2Binary, List.length_append, List.length_append] at hwhole
    omega
  obtain ⟨tbl', hread, hne, hfind⟩ :=
    readBlob_merge2Binary O hdigNul hdigLen (h.zero_notMem hlen) hindex
  exact ⟨hnul, tbl', hread, hne, fun w => (hfind w).trans (h.find w)⟩

/-- Two blobs of the same documents decode to the same digests and the same map. -/
theorem Represents.decode_eq {docs : List Bytes} {blob blob' : Bytes}
    (h : Represents P docs blob) (h' : Represents P docs blob') :
    ∃ tbl tbl' digest, readBlob blob = some (tbl, digest) ∧ readBlob blob' = some (tbl', digest) ∧
      ∀ w, tbl.get? w = tbl'.get? w := by
  obtain ⟨-, tbl, hread, hidx⟩ := h
  obtain ⟨-, tbl', hread', hidx'⟩ := h'
  exact ⟨tbl, tbl', digests docs, hread, hread', hidx.get?_eq hidx'⟩

/-! ## The calls of the indexer and the reducer -/

theorem binary2Digest_inputs {items : List Bytes}
    (hlen : ∀ x ∈ items, (cString x).length < tempDigestLen) :
    binary2Digest (digest2Binary (items.map cString)) = some (items.map cString) :=
  binary2Digest_digest2Binary (nulFree_map_cString items) (List.forall_mem_map.2 hlen)

theorem binary2Digest_overrun {items : List Bytes} {x : Bytes} (hx : x ∈ items)
    (hlen : tempDigestLen ≤ (cString x).length) :
    binary2Digest (digest2Binary (items.map cString)) = none :=
  binary2Digest_digest2Binary_overrun (nulFree_map_cString items) (List.mem_map_of_mem hx) hlen

/-- `ecall_build_index` on batches that fit the scratch buffer, with room for the output. -/
theorem ecallBuildIndex_represents (O : HashOrder) {items docs : List Bytes} {size : Nat}
    (witnessSize : Nat) (hdocs : documents P (items.map cString) = some docs)
    (hlen : ∀ x ∈ items, (cString x).length < tempDigestLen)
    (hsize : blobSize P docs < size) (hint : blobSize P docs < 2 ^ 31) :
    ∃ out witness, ecallBuildIndex P O (digest2Binary (items.map cString)) size witnessSize =
      some (out, out.length, witness) ∧ out.length = blobSize P docs ∧ Represents P docs out := by
  have hcount : docs.length + 1 < 2 ^ 32 := by
    have := length_le_blobSize (P := P) docs
    omega
  have hidx := indexes_indexOf (P := P) hcount
  have hout := length_merge2Binary O hidx hcount
  refine ⟨merge2Binary O (digests docs) (indexOf P docs), copyOut witnessSize
    (createIndexerWitness P (items.map cString) (merge2Binary O (digests docs) (indexOf P docs))),
    ?_, hout, represents_merge2Binary _ hidx (nulFree_documents hdocs) hint⟩
  rw [ecallBuildIndex, binary2Digest_inputs hlen]
  simp only [Option.bind_eq_bind, Option.bind_some, buildIndex, hdocs, Option.map_some]
  have hcopy : copyOut size (merge2Binary O (digests docs) (indexOf P docs)) =
      merge2Binary O (digests docs) (indexOf P docs) := if_pos (by rw [hout]; exact hsize)
  rw [digests] at hcopy
  rw [hcopy]
  rfl

theorem ecallBuildIndex_overrun (O : HashOrder) {items : List Bytes} {x : Bytes} (hx : x ∈ items)
    (hlen : tempDigestLen ≤ (cString x).length) (size witnessSize : Nat) :
    ecallBuildIndex P O (digest2Binary (items.map cString)) size witnessSize = none := by
  rw [ecallBuildIndex, binary2Digest_overrun hx hlen]
  rfl

theorem indexCall_represents (O : HashOrder) {items docs : List Bytes}
    (hdocs : documents P (items.map cString) = some docs)
    (hlen : ∀ x ∈ items, (cString x).length < tempDigestLen)
    (hsize : blobSize P docs < indexOutputMaxLength) :
    ∃ output, indexCall P O items = some output ∧ Represents P docs output.data := by
  obtain ⟨out, witness, hcall, hout, hrep⟩ := ecallBuildIndex_represents O
    witnessMaxLength hdocs hlen hsize (hsize.trans (by decide))
  refine ⟨⟨out, cString witness⟩, ?_, hrep⟩
  have hread : readOut indexOutputMaxLength out out.length = some out := by
    rw [readOut, if_pos (by omega), List.take_left' rfl]
  rw [indexCall, hcall]
  simp [hread]

theorem mergeCall_represents (O : HashOrder) {docs₁ docs₂ : List Bytes} {blob₁ blob₂ : Bytes}
    (h₁ : Represents P docs₁ blob₁) (h₂ : Represents P docs₂ blob₂)
    (hsize : blobSize P (docs₁ ++ docs₂) < reducerOutputMaxLength) :
    ∃ output, mergeCall P O blob₁ blob₂ = some output ∧
      Represents P (docs₁ ++ docs₂) output.data := by
  obtain ⟨hnul₁, tbl₁, hread₁, hidx₁⟩ := h₁
  obtain ⟨hnul₂, tbl₂, hread₂, hidx₂⟩ := h₂
  have hint : blobSize P (docs₁ ++ docs₂) < 2 ^ 31 := hsize.trans (by decide)
  have hcount : (docs₁ ++ docs₂).length + 1 < 2 ^ 32 := by
    have := length_le_blobSize (P := P) (docs₁ ++ docs₂)
    omega
  have hnul : ∀ doc ∈ docs₁ ++ docs₂, NulFree doc := fun doc hdoc =>
    (List.mem_append.1 hdoc).elim (hnul₁ doc) (hnul₂ doc)
  have hidx := indexes_mergeIndex O hidx₁ hidx₂
  have hout := length_merge2Binary O hidx hcount
  have hcall : mergeCall P O blob₁ blob₂ = some ⟨merge2Binary O (digests (docs₁ ++ docs₂))
      (mergeIndex O tbl₁ tbl₂ docs₁.length),
      cString (copyOut witnessMaxLength (createReducerWitness P blob₁ blob₂
        (merge2Binary O (digests (docs₁ ++ docs₂))
          (mergeIndex O tbl₁ tbl₂ docs₁.length))))⟩ := by
    have hdig : digests docs₁ ++ digests docs₂ = digests (docs₁ ++ docs₂) :=
      List.map_append.symm
    have hdigLen : (digests docs₁).length = docs₁.length := List.length_map _
    rw [mergeCall, ecallDoMerge, hread₁, hread₂]
    simp only [Option.bind_eq_bind, Option.bind_some, hdig, hdigLen, Option.pure_def]
    rw [readOut_copyOut (by rw [hout]; exact hsize)]
    rfl
  exact ⟨_, hcall, represents_merge2Binary _ hidx hnul hint⟩

/-! ## Folding merges over the epochs -/

/-- What a later epoch brings to a shard: its item batches, and the orders of its two calls. -/
structure LaterEpoch where
  items : List Bytes
  indexOrder : HashOrder
  mergeOrder : HashOrder

variable (P) in
/-- One epoch of a shard: the new index is merged into the global one. -/
def mergeEpoch (global : Bytes) (epoch : LaterEpoch) : Option Bytes := do
  let index ← indexCall P epoch.indexOrder epoch.items
  let merged ← mergeCall P epoch.mergeOrder global index.data
  return merged.data

variable (P) in
/-- The global index of a shard, from the item batches of each epoch: a copy of the first index,
into which `do_reduce` merges the later ones. -/
def globalIndexOf (O : HashOrder) (first : List Bytes) (later : List LaterEpoch) :
    Option Bytes := do
  let index ← indexCall P O first
  later.foldlM (mergeEpoch P) index.data

theorem foldlM_represents {later : List LaterEpoch} {docs : List (List Bytes)}
    {docs₀ : List Bytes} {global : Bytes} (hglobal : Represents P docs₀ global)
    (hdocs : List.Forall₂ (fun e d => documents P (e.items.map cString) = some d) later docs)
    (hlen : ∀ e ∈ later, ∀ x ∈ e.items, (cString x).length < tempDigestLen)
    (hindex : ∀ d ∈ docs, blobSize P d < indexOutputMaxLength)
    (hsize : blobSize P (docs₀ ++ docs.flatten) < reducerOutputMaxLength) :
    ∃ blob, later.foldlM (mergeEpoch P) global = some blob ∧
      Represents P (docs₀ ++ docs.flatten) blob := by
  induction hdocs generalizing docs₀ global with
  | nil => exact ⟨global, rfl, by simpa using hglobal⟩
  | @cons e d later docs hd hdocs ih =>
      rw [List.forall_mem_cons] at hlen hindex
      rw [List.flatten_cons, ← List.append_assoc] at hsize ⊢
      have hcount : (docs₀ ++ d ++ docs.flatten).length + 1 < 2 ^ 32 := by
        have := length_le_blobSize (P := P) (docs₀ ++ d ++ docs.flatten)
        have : reducerOutputMaxLength < 2 ^ 31 := by decide
        omega
      obtain ⟨index, hcall, hrep⟩ := indexCall_represents e.indexOrder hd hlen.1 hindex.1
      obtain ⟨merged, hmerge, hrep'⟩ := mergeCall_represents e.mergeOrder hglobal hrep
        (lt_of_le_of_lt ((Nat.le_add_right _ _).trans (blobSize_le_append _ _ hcount)) hsize)
      obtain ⟨blob, hfold, hblob⟩ := ih hrep' hlen.2 hindex.2 hsize
      refine ⟨blob, ?_, hblob⟩
      simpa [List.foldlM_cons, mergeEpoch, hcall, hmerge] using hfold

theorem globalIndexOf_represents (O : HashOrder) {first : List Bytes} {later : List LaterEpoch}
    {docs : List (List Bytes)}
    (hdocs : List.Forall₂ (fun items d => documents P (items.map cString) = some d)
      (first :: later.map LaterEpoch.items) docs)
    (hlen : ∀ items ∈ first :: later.map LaterEpoch.items, ∀ x ∈ items,
      (cString x).length < tempDigestLen)
    (hindex : ∀ d ∈ docs, blobSize P d < indexOutputMaxLength)
    (hsize : blobSize P docs.flatten < reducerOutputMaxLength) :
    ∃ blob, globalIndexOf P O first later = some blob ∧ Represents P docs.flatten blob := by
  cases hdocs with
  | @cons _ d _ docs hd hdocs =>
      rw [List.forall_mem_cons, List.forall_mem_map] at hlen
      rw [List.forall_mem_cons] at hindex
      obtain ⟨index, hcall, hrep⟩ := indexCall_represents O hd hlen.1 hindex.1
      obtain ⟨blob, hfold, hblob⟩ := foldlM_represents hrep (List.forall₂_map_left_iff.1 hdocs)
        hlen.2 hindex.2 hsize
      refine ⟨blob, ?_, hblob⟩
      simpa [globalIndexOf, hcall] using hfold

theorem documents_flatten {batches docs : List (List Bytes)}
    (hdocs : List.Forall₂ (fun items d => documents P (items.map cString) = some d)
      batches docs) : documents P (batches.flatten.map cString) = some docs.flatten := by
  induction hdocs with
  | nil => rfl
  | cons hd _ ih =>
      rw [List.flatten_cons, List.flatten_cons, List.map_append]
      exact documents_append hd ih

/-! ## The global index and the index of everything -/

variable (P) in
/-- The global index of a shard and one `ecall_build_index` on all its batches, with a buffer of
`size` bytes, both exist and decode to the same digest table and the same map. The first index and
the one index have any order; the later epochs bring theirs. -/
def MergesToOneIndex (first : List Bytes) (later : List LaterEpoch) (size witnessSize : Nat) :
    Prop :=
  ∀ O O', ∃ global out witness tbl tbl' digest,
    globalIndexOf P O first later = some global ∧
    ecallBuildIndex P O' (digest2Binary ((first :: later.map LaterEpoch.items).flatten.map cString))
      size witnessSize = some (out, out.length, witness) ∧
    readBlob global = some (tbl, digest) ∧ readBlob out = some (tbl', digest) ∧
    ∀ w, tbl.get? w = tbl'.get? w

/-- **Refinement.** If all sizes fit their integers and output buffers, the global index is the
index of all documents, exactly when every batch also fits the scratch buffer through which
`Binary2Digest` hands it to the enclave. -/
theorem mergesToOneIndex_iff {first : List Bytes} {later : List LaterEpoch}
    {docs : List (List Bytes)} {size : Nat} (witnessSize : Nat)
    (hdocs : List.Forall₂ (fun items d => documents P (items.map cString) = some d)
      (first :: later.map LaterEpoch.items) docs)
    (hindex : ∀ d ∈ docs, blobSize P d < indexOutputMaxLength)
    (hglobal : blobSize P docs.flatten < reducerOutputMaxLength)
    (hsize : blobSize P docs.flatten < size) :
    MergesToOneIndex P first later size witnessSize ↔
      ∀ items ∈ first :: later.map LaterEpoch.items, ∀ x ∈ items,
        (cString x).length < tempDigestLen := by
  constructor
  · intro h items hitems x hx
    obtain ⟨_, out, witness, _, _, _, -, hcall, -⟩ := h insertionOrder insertionOrder
    by_contra hlen
    have hmem : x ∈ (first :: later.map LaterEpoch.items).flatten :=
      List.mem_flatten.2 ⟨items, hitems, hx⟩
    rw [ecallBuildIndex_overrun _ hmem (not_lt.1 hlen)] at hcall
    cases hcall
  · intro hlen O O'
    have hlen' : ∀ x ∈ (first :: later.map LaterEpoch.items).flatten,
        (cString x).length < tempDigestLen := by
      intro x hx
      obtain ⟨items, hitems, hx⟩ := List.mem_flatten.1 hx
      exact hlen items hitems x hx
    obtain ⟨global, hfold, hrep⟩ := globalIndexOf_represents O hdocs hlen hindex hglobal
    obtain ⟨out, witness, hcall, -, hrep'⟩ := ecallBuildIndex_represents O'
      witnessSize (documents_flatten hdocs) hlen' hsize (hglobal.trans (by decide))
    obtain ⟨tbl, tbl', digest, hread, hread', hget⟩ := hrep.decode_eq hrep'
    exact ⟨global, out, witness, tbl, tbl', digest, hfold, hcall, hread, hread', hget⟩

/-- Two epochs of one batch each. -/
theorem mergesToOneIndex_two_epochs :
    MergesToOneIndex samplePlatform [ascii "[\"alpha\"]"]
      [⟨[ascii "[\"bravo\", \"alpha\"]"], insertionOrder, insertionOrder⟩]
      indexOutputMaxLength witnessMaxLength := by
  have hdocs : List.Forall₂ (fun items d => documents samplePlatform (items.map cString) = some d)
      [[ascii "[\"alpha\"]"], [ascii "[\"bravo\", \"alpha\"]"]]
      [[ascii "alpha"], [ascii "bravo", ascii "alpha"]] := by decide +kernel
  exact (mergesToOneIndex_iff witnessMaxLength hdocs (by decide +kernel) (by decide +kernel)
    (by decide +kernel)).2 (by decide +kernel)

/-! ## A batch that does not fit the scratch buffer -/

/-- The batch of one document. -/
def batchOf (doc : Bytes) : Bytes := (array [string doc]).dump 1

theorem batchOf_eq {doc : Bytes} (hdoc : ∀ c ∈ doc, isHex c) :
    batchOf doc = ascii "[\"" ++ doc ++ ascii "\"]" := by
  rw [batchOf, dump, dumpElems, dump, escape_of_hex hdoc]
  simp [ascii]

theorem documents_batchOf {doc : Bytes} (hdoc : ∀ c ∈ doc, isHex c) :
    documents P [batchOf doc] = some [doc] := by
  have hplain : Plain (array [string doc]) := ⟨trivial, trivial⟩
  have htrim : trimString ((string doc).dump 1) = doc := by
    rw [dump, trimString_quote, escape_of_hex hdoc]
  rw [documents, List.mapM_cons, batchOf, load_dump hplain]
  simp [arrayRange, htrim]

theorem blobSize_word {doc : Bytes} (hne : doc ≠ []) (hdoc : ∀ c ∈ doc, isAlnum c) :
    blobSize samplePlatform [doc] ≤ 4 + 4 * 3 + 257 := by
  have hcells : (indexOf samplePlatform [doc]).cells ≤ 3 := by
    have hone : samplePlatform.tokens doc = [sphCRC32 (lower doc)] :=
      congrArg (List.map sphCRC32) (wordsIn_of_alnum hne hdoc)
    refine (Multimap.cells_foldl_erase_le _ _).trans ?_
    rw [yieldAll, yieldIndex, hone]
    rfl
  have hmin : min digestMaxLength doc.length ≤ 256 := min_le_left _ _
  rw [blobSize, List.map_singleton, List.sum_singleton]
  omega

/-- A batch of a single document of 100000 letters fits every output buffer, and no global index
comes of it. -/
theorem long_batch_not_merged : ∃ batch docs,
    documents samplePlatform ([batch].map cString) = some docs ∧
    blobSize samplePlatform docs < indexOutputMaxLength ∧
    ¬MergesToOneIndex samplePlatform [batch] [] indexOutputMaxLength witnessMaxLength := by
  have hhex : ∀ c ∈ List.replicate 100000 (ch 'a'), isHex c := by
    intro c hc
    rw [List.eq_of_mem_replicate hc]
    decide
  have hnul : NulFree (batchOf (List.replicate 100000 (ch 'a'))) := by
    have ha : NulFree (List.replicate 100000 (ch 'a')) := fun hz =>
      absurd (List.eq_of_mem_replicate hz) (by decide)
    rw [batchOf_eq hhex]
    exact nulFree_append.2 ⟨nulFree_append.2 ⟨by decide, ha⟩, by decide⟩
  have hcstr := cString_of_nulFree hnul
  have hdocs : documents samplePlatform
      ([batchOf (List.replicate 100000 (ch 'a'))].map cString) =
        some [List.replicate 100000 (ch 'a')] := by
    rw [List.map_singleton, hcstr]
    exact documents_batchOf hhex
  have hsize : blobSize samplePlatform [List.replicate 100000 (ch 'a')] < 300 := by
    refine lt_of_le_of_lt (blobSize_word (List.cons_ne_nil _ _) ?_) (by decide)
    intro c hc
    rw [List.eq_of_mem_replicate hc]
    decide
  refine ⟨_, _, hdocs, hsize.trans (by decide), ?_⟩
  intro h
  obtain ⟨_, _, _, _, _, _, -, hcall, -⟩ := h insertionOrder insertionOrder
  have hlen : tempDigestLen ≤ (cString (batchOf (List.replicate 100000 (ch 'a')))).length := by
    rw [hcstr, batchOf_eq hhex, List.length_append, List.length_append, List.length_replicate]
    exact le_trans (by decide) (Nat.le_add_right _ _)
  have hover := ecallBuildIndex_overrun (P := samplePlatform) insertionOrder
    (List.mem_singleton_self _) hlen
    indexOutputMaxLength witnessMaxLength
  rw [List.map_nil, List.flatten_singleton, hover] at hcall
  cases hcall

end DeSearch
