import DeSearch.Lengths
import DeSearch.OramProof

/-!
# What a search matches

A request may have up to 32 keywords. STEP 3 of `ecall_do_query` goes through their lists of
documents and intersects each with the one before it. The result is assigned anew in every turn and
not carried along, so only the last two keywords decide (`matchList_spec`). Nothing is filtered
either: a stop word, which the indexer erases, has an empty list here, and next to the end of a
request it leaves nothing.

* `matchList_iff`: the match list is what all the keywords have in common exactly if a document with
  the last two keywords has all of them.
* `matchList_inserted_iff`: stop words that are inserted into a request change nothing exactly if
  they stay away from its last two keywords, or nothing was found anyway.
-/

namespace DeSearch

open JSON

variable {P : Platform} {q : Querier} {words words' : List DWord}

/-! ## What all the keywords have in common -/

/-- A document with the last two keywords has all of them. -/
def LastTwoDecide (q : Querier) (words : List DWord) : Prop :=
  ∀ docID, (∀ w ∈ lastTwo words, docID ∈ q.index.find w) → ∀ w ∈ words, docID ∈ q.index.find w

theorem matches_matchList (hq : Increasing q) (hne : words ≠ []) (h : LastTwoDecide q words) :
    Matches q words (matchList q words) := by
  obtain ⟨hinc, hmem⟩ := matchList_spec hq hne
  refine ⟨hinc, fun docID => ?_⟩
  rw [hmem]
  exact ⟨h docID, fun hall w hw => hall w (List.mem_of_mem_drop hw)⟩

/-- **Multi-keyword search.** The list that STEP 4 pages through is the ascending list of the
documents with all keywords exactly if a document with the last two keywords has all of them. Among
requests of that kind the order of the keywords does not matter, and more keywords never match more
documents. The ORAM querier pages through the same list. -/
theorem matchList_iff (hq : Increasing q) (hne : words ≠ []) :
    (Matches q words (matchList q words) ↔ LastTwoDecide q words) ∧
    (∀ words', LastTwoDecide q words → LastTwoDecide q words' → words'.Perm words →
      matchList q words' = matchList q words) ∧
    (∀ words', LastTwoDecide q words → LastTwoDecide q words' → words ⊆ words' →
      matchList q words' ⊆ matchList q words) ∧
    (∀ page, queryResults q ⟨words, page⟩ =
      tenResults (digestAt q.digest) (matchList q words) page) ∧
    ∀ oq, Simulates oq q → ∀ page, oramResults oq ⟨words, page⟩ =
      tenResults (oramDigestAt oq) (matchList q words) page := by
  refine ⟨⟨fun h docID hlast => ?_, matches_matchList hq hne⟩, fun words' h h' hperm => ?_,
    fun words' h h' hsub docID hdoc => ?_, fun _ => rfl, fun oq hsim page => ?_⟩
  · exact (h.mem_iff docID).1 ((matchList_spec hq hne).mem_iff docID |>.2 hlast)
  · have hne' : words' ≠ [] := fun hnil => hne (List.nil_perm.1 (hnil ▸ hperm))
    refine (matches_matchList hq hne' h').unique ?_
    obtain ⟨hinc, hmem⟩ := matches_matchList hq hne h
    refine ⟨hinc, fun docID => ?_⟩
    rw [hmem]
    exact ⟨fun hall w hw => hall w (hperm.mem_iff.1 hw),
      fun hall w hw => hall w (hperm.mem_iff.2 hw)⟩
  · have hne' : words' ≠ [] := by
      rintro rfl
      exact hne (List.subset_nil.1 hsub)
    have hall := ((matches_matchList hq hne' h').mem_iff docID).1 hdoc
    exact ((matches_matchList hq hne h).mem_iff docID).2 fun w hw => hall w (hsub hw)
  · have hlists : words.mapM (oramLookup oq) = .ok (words.map q.index.find) :=
      mapM_eq_ok fun w _ => hsim.lookup w
    rw [oramResults]
    simp only [hlists, bind, Except.bind]
    rfl

/-- Two documents, the second with a stop word. -/
def deltaDocs : List Bytes := [ascii "bravo delta", ascii "alpha the"]

def deltaBlob : Bytes :=
  merge2Binary insertionOrder deltaDocs (indexOf samplePlatform deltaDocs)

def deltaQuerier : Querier :=
  ⟨indexOf samplePlatform deltaDocs, deltaDocs, querierContext sampleCrypto deltaBlob⟩

theorem setUp_deltaBlob : SetUp samplePlatform deltaBlob deltaQuerier := by
  refine ⟨@PipelineBlob.build _ insertionOrder
    (digest2Binary [ascii "[\"bravo delta\",\"alpha the\"]"]) _ [] 1000 0 ?_ (by decide +kernel),
    ecallQuerierSetup_eq_ok.2 ⟨by decide +kernel, rfl⟩⟩
  decide +kernel

/-- The words of a search, by their numbers. -/
def wordIDs (words : List String) : List DWord := words.map fun w => sphCRC32 (ascii w)

/-- A search for two words. -/
theorem matchList_two_words : Matches deltaQuerier (wordIDs ["bravo", "delta"])
    (matchList deltaQuerier (wordIDs ["bravo", "delta"])) := by
  refine (matchList_iff setUp_deltaBlob.increasing (by simp [wordIDs])).1.2 fun docID h => h

theorem parse_deltaQuery :
    parseRequest samplePlatform (composeQuery (ascii "alpha bravo delta") 1) =
    .ok (some ⟨wordIDs ["alpha", "bravo", "delta"], 1⟩) := by
  have hwords : (samplePlatform.tokens ((string (ascii "alpha bravo delta")).dump 1)).take 32 =
      wordIDs ["alpha", "bravo", "delta"] := by
    decide +kernel
  rw [parseRequest_composeQuery (by decide) (by decide), hwords]

/-- A search for `alpha`, `bravo` and `delta` finds the document `bravo delta`. -/
theorem third_word_ignored : ∃ blob q request query, SetUp samplePlatform blob q ∧
    parseRequest samplePlatform request = .ok (some query) ∧ query.words.length = 3 ∧
    (∀ w ∈ query.words, w ∉ samplePlatform.stop) ∧
    ∃ docID ∈ matchList q query.words, ∃ w ∈ query.words, docID ∉ q.index.find w := by
  refine ⟨deltaBlob, deltaQuerier, _, _, setUp_deltaBlob, parse_deltaQuery, rfl, ?_, 1, ?_,
    sphCRC32 (ascii "alpha"), List.mem_cons_self, ?_⟩
  · have hstop : (wordIDs ["alpha", "bravo", "delta"]).all (· ∉ samplePlatform.stop) := by
      decide +kernel
    simpa only [List.all_eq_true, decide_eq_true_eq] using hstop
  · decide +kernel
  · decide +kernel

/-! ## Stop words -/

/-- The keywords after stop words were inserted anywhere. -/
inductive Inserted (stop : List DWord) : List DWord → List DWord → Prop
  | nil : Inserted stop [] []
  | keep (w : DWord) {words words' : List DWord} (h : Inserted stop words words') :
      Inserted stop (w :: words) (w :: words')
  | insert {w : DWord} {words words' : List DWord} (hw : w ∈ stop)
      (h : Inserted stop words words') : Inserted stop words (w :: words')

/-- A last keyword that is no stop word was there before. -/
theorem Inserted.exists_concat {stop front : List DWord} {w : DWord} (hw : w ∉ stop)
    (h : Inserted stop words (front ++ [w])) :
    ∃ front', words = front' ++ [w] ∧ Inserted stop front' front := by
  induction front generalizing words with
  | nil =>
      cases h with
      | keep _ h =>
          cases h
          exact ⟨[], rfl, .nil⟩
      | insert hstop _ => exact absurd hstop hw
  | cons c front ih =>
      cases h with
      | keep _ h =>
          obtain ⟨front', rfl, hfront⟩ := ih h
          exact ⟨c :: front', rfl, hfront.keep c⟩
      | insert hstop h =>
          obtain ⟨front', rfl, hfront⟩ := ih h
          exact ⟨front', rfl, hfront.insert hstop⟩

theorem Inserted.eq_nil {stop : List DWord} (h : Inserted stop words []) : words = [] := by
  cases h
  rfl

/-- A querier finds nothing under a stop word. -/
theorem SetUp.find_stop {blob : Bytes} (h : SetUp P blob q) {w : DWord} (hw : w ∈ P.stop) :
    q.index.find w = [] := by
  obtain ⟨docs, -, -, tbl, hread, hidx⟩ := h.1.represents
  have hindex : tbl = q.index :=
    (Prod.mk.inj (Option.some.inj (hread.symm.trans h.tables.1))).1
  rw [← hindex, hidx.find, lookup, if_pos hw]

theorem matchList_eq_nil_of_stop {blob : Bytes} (h : SetUp P blob q)
    (hstop : ∃ w ∈ lastTwo words, w ∈ P.stop) : matchList q words = [] := by
  obtain ⟨w, hw, hws⟩ := hstop
  have hne : words ≠ [] := by
    rintro rfl
    exact absurd hw List.not_mem_nil
  refine List.eq_nil_iff_forall_not_mem.2 fun docID hdoc => ?_
  have hfind := ((matchList_spec h.increasing hne).mem_iff docID).1 hdoc w hw
  rw [h.find_stop hws] at hfind
  exact absurd hfind List.not_mem_nil

/-- Stop words that are inserted further ahead make no difference. -/
theorem matchList_eq_of_inserted {stop : List DWord} (h : Inserted stop words words')
    (hlast : ∀ w ∈ lastTwo words', w ∉ stop) : matchList q words' = matchList q words := by
  by_cases hne : words' = []
  · subst hne
    rw [h.eq_nil]
  rcases eq_singleton_or_append_pair hne with ⟨w, rfl⟩ | ⟨front, u, v, rfl⟩
  · have hconcat : Inserted stop words ([] ++ [w]) := h
    obtain ⟨front', rfl, hfront⟩ := hconcat.exists_concat (hlast w List.mem_cons_self)
    rw [hfront.eq_nil]
    rfl
  · rw [lastTwo_append_pair] at hlast
    have hsplit : front ++ [u, v] = (front ++ [u]) ++ [v] := by simp
    rw [hsplit] at h
    obtain ⟨front₁, rfl, h₁⟩ := h.exists_concat (hlast v (by simp))
    obtain ⟨front₂, rfl, h₂⟩ := h₁.exists_concat (hlast u (by simp))
    rw [matchList_append_pair, List.append_assoc]
    exact (matchList_append_pair q front₂ u v).symm

/-- **Stop words.** Inserting stop words into a request leaves its match list unchanged exactly if
none of them comes to stand among the last two keywords, or if no document stood in the posting
lists of the last two keywords before. -/
theorem matchList_inserted_iff {blob : Bytes} (h : SetUp P blob q)
    (hins : Inserted P.stop words words') : matchList q words' = matchList q words ↔
      (∀ docID, ¬HasLastTwo q words docID) ∨ ∀ w ∈ lastTwo words', w ∉ P.stop := by
  by_cases hlast : ∀ w ∈ lastTwo words', w ∉ P.stop
  · exact iff_of_true (matchList_eq_of_inserted hins hlast) (.inr hlast)
  · have hnil : matchList q words' = [] := by
      refine matchList_eq_nil_of_stop h ?_
      simpa using hlast
    rw [hnil, or_iff_left hlast, ← matchList_eq_nil_iff h.increasing, eq_comm]

/-- A stop word in front. -/
theorem matchList_stop_first :
    matchList deltaQuerier (wordIDs ["the", "bravo", "delta"]) =
      matchList deltaQuerier (wordIDs ["bravo", "delta"]) := by
  have hins : Inserted samplePlatform.stop (wordIDs ["bravo", "delta"])
      (wordIDs ["the", "bravo", "delta"]) :=
    .insert (List.mem_singleton_self _) (.keep _ (.keep _ .nil))
  have hlast : (lastTwo (wordIDs ["the", "bravo", "delta"])).all (· ∉ samplePlatform.stop) := by
    decide +kernel
  refine (matchList_inserted_iff setUp_deltaBlob hins).2 (.inr ?_)
  simpa only [List.all_eq_true, decide_eq_true_eq] using hlast

/-- A stop word behind the only word. -/
theorem stop_word_spoils : ∃ blob q words words', SetUp samplePlatform blob q ∧
    Inserted samplePlatform.stop words words' ∧ (∃ w ∈ words, w ∉ samplePlatform.stop) ∧
    words'.length ≤ 32 ∧ matchList q words = [2] ∧ matchList q words' = [] :=
  ⟨deltaBlob, deltaQuerier, wordIDs ["alpha"], wordIDs ["alpha", "the"], setUp_deltaBlob,
    .keep _ (.insert (List.mem_singleton_self _) .nil),
    ⟨_, List.mem_cons_self, by decide +kernel⟩, by decide, by decide +kernel, by decide +kernel⟩

end DeSearch
