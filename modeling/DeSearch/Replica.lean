import DeSearch.Blob

/-!
# Replicas

Two executors with the same role may work on the same shard, and the second to come finds the work
done. That a witness key is counted once, and that a root hash can be computed anew, rests on both
making the same bytes. They do not: `Index2Binary` writes the entries of an `unordered_map` in the
order in which the map hands them out, which is different for different libraries. The two
executors in the repository are built with two of them.

The tables do not depend on the order (`find_mergeIndex`), the bytes do.
`replica_independent_iff` says when not: when there is only one word.
-/

namespace DeSearch

open JSON

variable {P : Platform}

/-! ## Orders of enumeration -/

/-- An order in which a given key comes first. -/
def HashOrder.first (k : DWord) : HashOrder where
  enum tbl := tbl.entries.filter (·.1 = k) ++ tbl.entries.filter (¬·.1 = k)
  perm tbl := by simpa using List.filter_append_perm (fun p => decide (p.1 = k)) tbl.entries

theorem index2Binary_first {tbl : IndexTbl} {k : DWord} (h : tbl.HasKey k) :
    ∃ rest, index2Binary (.first k) tbl = leBytes k.toNat ++ rest := by
  obtain ⟨p, hp, rfl⟩ := List.mem_map.1 h
  have hmem : p ∈ tbl.entries.filter (·.1 = p.1) := List.mem_filter.2 ⟨hp, by simp⟩
  obtain ⟨⟨k, vs⟩, l, hl⟩ := List.exists_cons_of_ne_nil (List.ne_nil_of_mem hmem)
  have hk : k = p.1 := by
    have : (k, vs) ∈ tbl.entries.filter (·.1 = p.1) := hl ▸ List.mem_cons_self
    simpa using (List.mem_filter.1 this).2
  have henum : (HashOrder.first p.1).enum tbl =
      (k, vs) :: (l ++ tbl.entries.filter (¬·.1 = p.1)) := by
    change tbl.entries.filter (·.1 = p.1) ++ _ = _
    rw [hl, List.cons_append]
  rw [index2Binary, henum, Delimited.records_cons, ← hk]
  exact ⟨_, rfl⟩

theorem leBytes_append_inj {k k' : DWord} {s s' : Bytes}
    (h : leBytes k.toNat ++ s = leBytes k'.toNat ++ s') : k = k' := by
  have hwords := congrArg words h
  rw [leBytes, leBytes] at hwords
  simp only [List.cons_append, List.nil_append, words] at hwords
  rw [leNat_leBytes k.toNat k.isLt, leNat_leBytes k'.toNat k'.isLt] at hwords
  simpa using (List.cons.inj hwords).1

/-- Two words, two blobs. -/
theorem merge2Binary_first_inj (digest : List Bytes) {tbl tbl' : IndexTbl} {k k' : DWord}
    (hk : tbl.HasKey k) (hk' : tbl'.HasKey k')
    (h : merge2Binary (.first k) digest tbl = merge2Binary (.first k') digest tbl') : k = k' := by
  obtain ⟨rest, hrest⟩ := index2Binary_first hk
  obtain ⟨rest', hrest'⟩ := index2Binary_first hk'
  have hdrop := congrArg (List.drop 4) h
  rw [merge2Binary, merge2Binary, List.append_assoc, List.append_assoc,
    List.drop_left' (length_leBytes _), List.drop_left' (length_leBytes _), hrest, hrest',
    List.append_assoc, List.append_assoc] at hdrop
  exact leBytes_append_inj hdrop

/-- One word, one blob. -/
theorem merge2Binary_eq_of_one_key (O O' : HashOrder) (digest : List Bytes) {tbl tbl' : IndexTbl}
    (h : ∀ w, tbl.get? w = tbl'.get? w) (hone : ∀ k k', tbl.HasKey k → tbl.HasKey k' → k = k') :
    merge2Binary O digest tbl = merge2Binary O' digest tbl' := by
  have henum : O.enum tbl = O'.enum tbl' := Multimap.eq_of_perm_of_one_key hone
    (O.perm tbl).symm ((Multimap.entries_perm_of_get?_eq h).trans (O'.perm tbl').symm)
  rw [merge2Binary, merge2Binary, index2Binary, index2Binary, henum]

theorem eq_of_copyOut_eq {a b : Bytes} (h : ∀ size, copyOut size a = copyOut size b) : a = b := by
  have hsize := h (a.length + b.length + 1)
  rwa [copyOut, copyOut, if_pos (by omega), if_pos (by omega)] at hsize

/-! ## `ecall_build_index` -/

section

variable (P)

/-- The bytes and the witness of `ecall_build_index` are the same for all orders. -/
def BuildIndependent (indexInputs : Bytes) : Prop :=
  ∀ (O O' : HashOrder) (size witnessSize : Nat),
    ecallBuildIndex P O indexInputs size witnessSize =
      ecallBuildIndex P O' indexInputs size witnessSize

/-- The documents in the input of `ecall_build_index`. -/
def inputDocuments (indexInputs : Bytes) : Option (List Bytes) :=
  (binary2Digest indexInputs).bind (documents P)

/-- A word that the index of the documents will have. -/
def Occurs (docs : List Bytes) (w : DWord) : Prop := w ∉ P.stop ∧ ∃ doc ∈ docs, w ∈ P.tokens doc

end

theorem hasKey_yieldAll {tbl : IndexTbl} {docID : Nat} {docs : List Bytes} {w : DWord} :
    (yieldAll P tbl docID docs).HasKey w ↔ (∃ doc ∈ docs, w ∈ P.tokens doc) ∨ tbl.HasKey w := by
  induction docs generalizing tbl docID with
  | nil => simp [yieldAll]
  | cons doc docs ih =>
      rw [yieldAll, ih, yieldIndex, Multimap.hasKey_foldl_alter, List.exists_mem_cons_iff,
        ← or_assoc, or_comm (a := ∃ doc ∈ docs, w ∈ P.tokens doc)]

theorem hasKey_indexOf {docs : List Bytes} {w : DWord} :
    (indexOf P docs).HasKey w ↔ Occurs P docs w := by
  rw [indexOf, Multimap.hasKey_foldl_erase, hasKey_yieldAll, Occurs,
    or_iff_left (Multimap.not_hasKey_empty w)]

/-- The call with some order, on input that it can parse. -/
theorem exists_ecallBuildIndex {indexInputs : Bytes} {docs : List Bytes}
    (h : inputDocuments P indexInputs = some docs) : ∃ inputs,
    ∀ (O : HashOrder) (size witnessSize : Nat),
      ecallBuildIndex P O indexInputs size witnessSize =
        let output := merge2Binary O (digests docs) (indexOf P docs)
        some (copyOut size output, output.length,
          copyOut witnessSize (createIndexerWitness P inputs output)) := by
  obtain ⟨inputs, hinputs, hdocs⟩ := Option.bind_eq_some_iff.1 h
  refine ⟨inputs, fun O size witnessSize => ?_⟩
  rw [ecallBuildIndex, hinputs]
  simp only [Option.bind_eq_bind, Option.bind_some, buildIndex, hdocs, Option.map_some]
  rfl

theorem ecallBuildIndex_of_no_documents {indexInputs : Bytes}
    (h : inputDocuments P indexInputs = none) (O : HashOrder) (size witnessSize : Nat) :
    ecallBuildIndex P O indexInputs size witnessSize = none := by
  rw [ecallBuildIndex]
  cases hinputs : binary2Digest indexInputs with
  | none => rfl
  | some inputs =>
      have hdocs : documents P inputs = none := by
        rw [inputDocuments, hinputs] at h
        exact h
      simp [buildIndex, hdocs]

theorem buildIndependent_iff {indexInputs : Bytes} : BuildIndependent P indexInputs ↔
    ∀ docs, inputDocuments P indexInputs = some docs →
      ∀ w w', Occurs P docs w → Occurs P docs w' → w = w' := by
  constructor
  · intro h docs hdocs w w' hw hw'
    obtain ⟨inputs, hcall⟩ := exists_ecallBuildIndex hdocs
    refine merge2Binary_first_inj (digests docs) (hasKey_indexOf.2 hw) (hasKey_indexOf.2 hw')
      (eq_of_copyOut_eq fun size => ?_)
    have heq := h (.first w) (.first w') size 0
    rw [hcall, hcall] at heq
    exact (Prod.mk.inj (Option.some.inj heq)).1
  · intro h O O' size witnessSize
    cases hdocs : inputDocuments P indexInputs with
    | none =>
        rw [ecallBuildIndex_of_no_documents hdocs, ecallBuildIndex_of_no_documents hdocs]
    | some docs =>
        obtain ⟨inputs, hcall⟩ := exists_ecallBuildIndex hdocs
        rw [hcall, hcall, merge2Binary_eq_of_one_key O O' _ (fun _ => rfl) fun k k' hk hk' =>
            h docs hdocs k k' (hasKey_indexOf.1 hk) (hasKey_indexOf.1 hk')]

/-! ## `ecall_do_merge` -/

variable (P) in
/-- The bytes and the witness of `ecall_do_merge` are the same for all orders. -/
def MergeIndependent (index1 index2 : Bytes) : Prop :=
  ∀ (O O' : HashOrder) (newSz witnessSize : Nat),
    ecallDoMerge P O index1 index2 newSz witnessSize =
      ecallDoMerge P O' index1 index2 newSz witnessSize

theorem noEmpty_of_readBlob {blob : Bytes} {tbl : IndexTbl} {digest : List Bytes}
    (h : readBlob blob = some (tbl, digest)) : tbl.NoEmpty := by
  obtain ⟨size, -, hindex, -⟩ := readBlob_eq_some.1 h
  unfold binary2Index at hindex
  split_ifs at hindex
  cases hindex
  exact Multimap.noEmpty_empty.pushAll _

theorem hasKey_mergeIndex {O : HashOrder} {tbl₁ tbl₂ : IndexTbl} (h₂ : tbl₂.NoEmpty)
    {offset : Nat} {k : DWord} :
    (mergeIndex O tbl₁ tbl₂ offset).HasKey k ↔ tbl₁.HasKey k ∨ tbl₂.HasKey k := by
  have hpush : k ∈ ((Multimap.pushesOf (O.enum tbl₂)).map fun p =>
      (p.1, p.2 + BitVec.ofNat 32 offset)).map Prod.fst ↔ tbl₂.HasKey k := by
    have hne : ∀ p ∈ O.enum tbl₂, p.2 ≠ [] := fun p hp => h₂ p ((O.perm tbl₂).mem_iff.1 hp)
    rw [List.map_map, Multimap.HasKey, ← ((O.perm tbl₂).map Prod.fst).mem_iff,
      ← Multimap.mem_fst_pushesOf hne]
    rfl
  rw [mergeIndex, Multimap.hasKey_pushAll, hpush, or_comm]

theorem mergeIndependent_iff {index1 index2 : Bytes} : MergeIndependent P index1 index2 ↔
    ∀ tbl₁ digest₁ tbl₂ digest₂, readBlob index1 = some (tbl₁, digest₁) →
      readBlob index2 = some (tbl₂, digest₂) → ∀ w w', (tbl₁.HasKey w ∨ tbl₂.HasKey w) →
        (tbl₁.HasKey w' ∨ tbl₂.HasKey w') → w = w' := by
  constructor
  · intro h tbl₁ digest₁ tbl₂ digest₂ hread₁ hread₂ w w' hw hw'
    have hkey : ∀ O k, tbl₁.HasKey k ∨ tbl₂.HasKey k →
        (mergeIndex O tbl₁ tbl₂ digest₁.length).HasKey k := fun O k =>
      (hasKey_mergeIndex (noEmpty_of_readBlob hread₂)).2
    refine merge2Binary_first_inj (digest₁ ++ digest₂) (hkey (.first w) w hw)
      (hkey (.first w') w' hw') (eq_of_copyOut_eq fun size => ?_)
    have heq := h (.first w) (.first w') size 0
    rw [ecallDoMerge, ecallDoMerge, hread₁, hread₂] at heq
    exact (Prod.mk.inj (Option.some.inj heq)).1
  · intro h O O' newSz witnessSize
    rw [ecallDoMerge, ecallDoMerge]
    cases hread₁ : readBlob index1 with
    | none => rfl
    | some r₁ =>
        cases hread₂ : readBlob index2 with
        | none => rfl
        | some r₂ =>
            obtain ⟨tbl₁, digest₁⟩ := r₁
            obtain ⟨tbl₂, digest₂⟩ := r₂
            have hne₁ := noEmpty_of_readBlob hread₁
            have hne₂ := noEmpty_of_readBlob hread₂
            have hget : ∀ w, (mergeIndex O tbl₁ tbl₂ digest₁.length).get? w =
                (mergeIndex O' tbl₁ tbl₂ digest₁.length).get? w :=
              Multimap.get?_eq_of_noEmpty (hne₁.pushAll _) (hne₁.pushAll _) fun w => by
                rw [find_mergeIndex, find_mergeIndex]
            have hmerge := merge2Binary_eq_of_one_key O O' (digest₁ ++ digest₂) hget
              fun k k' hk hk' =>
                h _ _ _ _ hread₁ hread₂ k k' ((hasKey_mergeIndex hne₂).1 hk)
                  ((hasKey_mergeIndex hne₂).1 hk')
            simp only [Option.bind_eq_bind, Option.bind_some]
            rw [hmerge]

/-! ## Both calls -/

/-- **Replicas.** What `ecall_build_index` makes of its input is the same for every order in which
hash maps may be enumerated, exactly when all documents together have at most one indexed word;
what `ecall_do_merge` makes, exactly when the two indexes together have at most one. -/
theorem replica_independent_iff (P : Platform) (indexInputs index1 index2 : Bytes) :
    (BuildIndependent P indexInputs ↔ ∀ docs, inputDocuments P indexInputs = some docs →
      ∀ w w', Occurs P docs w → Occurs P docs w' → w = w') ∧
    (MergeIndependent P index1 index2 ↔
      ∀ tbl₁ digest₁ tbl₂ digest₂, readBlob index1 = some (tbl₁, digest₁) →
        readBlob index2 = some (tbl₂, digest₂) → ∀ w w', (tbl₁.HasKey w ∨ tbl₂.HasKey w) →
          (tbl₁.HasKey w' ∨ tbl₂.HasKey w') → w = w') :=
  ⟨buildIndependent_iff, mergeIndependent_iff⟩

/-- Two documents of one word each, and the two orders of these words. -/
theorem two_words_not_independent :
    ¬BuildIndependent samplePlatform (digest2Binary [ascii "[\"alpha\", \"bravo\"]"]) := by
  intro h
  have heq := h insertionOrder ⟨fun tbl => tbl.entries.reverse, fun _ => List.reverse_perm _⟩
    1000 0
  revert heq
  decide +kernel

end DeSearch
