import DeSearch.Lib.Runs
import DeSearch.Posts

/-!
# Whether a posted word can be found

A post goes from its block into a batch of documents, and from there into an index. On this way its
title and body are escaped twice: `ToString` gives them out escaped, and the batch is printed. The
indexer reads the batch and prints every document again before it looks for words. So a newline in a
post comes to the tokenizer as two backslashes and the letter `n`, and the letter joins the word
behind it: of `two` and `words` in two lines, `two` and `nwords` are indexed.

* `findable_iff`: a word of a post can be found exactly if it does not come right behind such an
  escape, and the blocks and all the posts together fit the scratch buffer of `Binary2Digest`.
-/

namespace DeSearch

open JSON Runs

variable {P : Platform} {wordID : Bytes → DWord}

/-! ## Words -/

/-- The tokenizer finds the words of a document, and `sphCRC32` numbers them. -/
def Tokenizes (P : Platform) (wordID : Bytes → DWord) : Prop :=
  ∀ doc, P.tokens doc = (wordsIn doc).map wordID

theorem Tokenizes.length_le (h : Tokenizes P wordID) (doc : Bytes) :
    (P.tokens doc).length ≤ doc.length + 1 := by
  rw [h, List.length_map, wordsIn, List.length_map]
  exact length_runs_le _ _ _

/-! ## Texts that are escaped twice -/

/-- The letter in the escape of a control character. -/
def escapeLetter (c : Byte) : Bytes :=
  if c = 8 then [ch 'b']
  else if c = 12 then [ch 'f']
  else if c = 10 then [ch 'n']
  else if c = 13 then [ch 'r']
  else if c = 9 then [ch 't']
  else []

/-- As `wordStart`, but a control character leaves the letter of its escape. -/
def gluedStart (c : Byte) : Option Bytes := if isAlnum c then none else some (escapeLetter c)

theorem escape_escapeByte_of_isAlnum {c : Byte} (h : isAlnum c) : escape (escapeByte c) = [c] := by
  revert c
  decide +kernel

/-- What stands before that letter in the text that is escaped twice. -/
def escapeHead (c : Byte) : Bytes :=
  (escape (escapeByte c)).take ((escape (escapeByte c)).length - (escapeLetter c).length)

/-- What is no letter comes as some separators, and maybe a letter. -/
theorem escape_escapeByte_of_not_isAlnum {c : Byte} (h : ¬isAlnum c) :
    escapeHead c ≠ [] ∧ (∀ d ∈ escapeHead c, wordStart d = some []) ∧
      (∀ d ∈ escapeLetter c, wordStart d = none) ∧
      escape (escapeByte c) = escapeHead c ++ escapeLetter c := by
  have hall : escapeHead c ≠ [] ∧ (escapeHead c).all (fun d => wordStart d = some []) ∧
      (escapeLetter c).all (fun d => wordStart d = none) ∧
      escape (escapeByte c) = escapeHead c ++ escapeLetter c := by
    revert c
    decide +kernel
  simpa only [List.all_eq_true, decide_eq_true_eq] using hall

/-- The words of a text that was escaped twice. -/
theorem runs_escape_escape (current s : Bytes) :
    runs wordStart current (escape (escape s)) = runs gluedStart current s := by
  induction s generalizing current with
  | nil => rfl
  | cons c s ih =>
      have hcons : escape (c :: s) = escapeByte c ++ escape s := rfl
      rw [hcons, escape_append]
      by_cases hc : isAlnum c
      · have hglued : gluedStart c = none := if_pos hc
        have hplain : wordStart c = none := if_pos hc
        rw [escape_escapeByte_of_isAlnum hc, List.singleton_append, runs_letter hplain, ih,
          runs_letter hglued]
      · have hglued : gluedStart c = some (escapeLetter c) := if_neg hc
        obtain ⟨hne, hseps, hletter, heq⟩ := escape_escapeByte_of_not_isAlnum hc
        rw [heq, List.append_assoc, runs_separators hne hseps, runs_letters hletter,
          List.nil_append, ih, runs_separator hglued]

/-! ## Posts -/

/-- The text of a JSON string. -/
def textOf : JSON → Bytes
  | string s => s
  | _ => []

theorem toStr_eq (j : JSON) : j.toStr = escape (textOf j) := by
  cases j <;> rfl

def postTitle (post : JSON) : Bytes := textOf ((post.get (ascii "value")).get (ascii "title"))

def postBody (post : JSON) : Bytes := textOf ((post.get (ascii "value")).get (ascii "body"))

/-- The comment operations of a block. -/
def blockComments (item : JSON) : List JSON :=
  let transactions := ((item.get (ascii "result")).get (ascii "block")).get (ascii "transactions")
  transactions.arrayRange.flatMap fun txn =>
    (txn.get (ascii "operations")).arrayRange.filter fun post =>
      (post.get (ascii "type")).toStr = ascii "comment_operation"

theorem blockPosts_eq (item : JSON) : blockPosts item = (blockComments item).map postText := by
  rw [blockPosts, blockComments, List.map_flatMap]
  refine List.flatMap_congr fun txn _ => ?_
  rw [← List.filterMap_eq_map, List.filterMap_filter]
  refine List.filterMap_congr fun post _ => ?_
  simp

/-- The word, in whatever case, is among the words of the text when control characters leave the
letters of their escapes. -/
def Survives (w text : Bytes) : Prop := lower w ∈ (runs gluedStart [] text).map lower

/-- The words of the document of a post. -/
theorem mem_wordsIn_post (w : Bytes) (post : JSON) :
    lower w ∈ wordsIn (escape (postText post)) ↔
      Survives w (postTitle post) ∨ Survives w (postBody post) := by
  have hblank : wordStart 32 = some [] := by decide
  have hdoc : escape (postText post) = escape (escape (postTitle post)) ++
      32 :: 32 :: escape (escape (postBody post)) := by
    rw [postText, toStr_eq, toStr_eq, escape_append, escape_append, List.append_assoc]
    rfl
  rw [wordsIn, hdoc, runs_append_separator hblank, runs_separator hblank, close, List.nil_append,
    runs_escape_escape, runs_escape_escape, List.map_append, List.mem_append]
  rfl

/-- A blank, a tab or a newline. -/
def isBlank (c : Byte) : Prop := c = 32 ∨ c = 9 ∨ c = 10

/-- The word stands between blanks, or at an end of the text. -/
def Stands (w text : Bytes) : Prop :=
  ∃ front rest, text = front ++ (w ++ rest) ∧ (∀ c ∈ front.getLast?, isBlank c) ∧
    ∀ c ∈ rest.head?, isBlank c

/-- A word that stands at the start of a text or behind a character without a letter in its escape
survives. -/
theorem survives_of_stands {w front rest : Bytes} (hne : w ≠ []) (hw : ∀ c ∈ w, isAlnum c)
    (hfront : ∀ c ∈ front.getLast?, gluedStart c = some [])
    (hrest : ∀ c ∈ rest.head?, isBlank c) : Survives w (front ++ (w ++ rest)) := by
  have hjoins : Joins gluedStart [] (w ++ rest) w := by
    refine ⟨w, rest, rfl, fun c hc => if_pos (hw c hc), fun c hc => ?_, rfl⟩
    rcases hrest c hc with rfl | rfl | rfl
    · decide
    · decide
    · decide
  refine List.mem_map_of_mem (mem_runs.2 ⟨hne, ?_⟩)
  rcases List.eq_nil_or_concat front with rfl | ⟨front, c, rfl⟩
  · exact .inl hjoins
  · refine .inr ⟨front, c, [], w ++ rest, by simp, hfront c (by simp), hjoins⟩

/-! ## The way of a word into the index -/

/-- What `ecall_build_index` makes of the output of `ecall_parse_items` maps the word to a list with
the docID, in whatever order it goes through its table. -/
def Found (P : Platform) (blocks : List Bytes) (docID wordID : DWord) : Prop :=
  ∃ output witness₁, ecallParseItems P (digest2Binary blocks) outputMaxLength witnessMaxLength =
      some (output, witness₁) ∧
    ∀ O : HashOrder, ∃ blob size witness₂ tbl digest,
      ecallBuildIndex P O (digest2Binary [cString output]) indexOutputMaxLength witnessMaxLength =
        some (blob, size, witness₂) ∧
      readBlob blob = some (tbl, digest) ∧ docID ∈ tbl.find wordID

/-- The batch that is made of the posts of some blocks. -/
def batchText (items : List JSON) : Bytes :=
  (array (((items.flatMap blockComments).map postText).map string)).dump 1

/-- Number of bytes that a post takes in the batch: its title and body, escaped twice, with two
blanks, two quotes and a separator. -/
def postLength (post : JSON) : Nat :=
  (escape (escape (postTitle post))).length + (escape (escape (postBody post))).length + 6

section

variable {blocks : List Bytes} {items : List JSON} {i : Nat} {post : JSON}

theorem length_escape_postText (post : JSON) :
    (escape (postText post)).length + 4 = postLength post := by
  have hblanks : (escape (ascii "  ")).length = 2 := rfl
  rw [postText, toStr_eq, toStr_eq, escape_append, escape_append, List.length_append,
    List.length_append, ← postTitle, ← postBody, hblanks, postLength]
  omega

theorem length_batchText (hpost : (items.flatMap blockComments)[i]? = some post) :
    (batchText items).length = ((items.flatMap blockComments).map postLength).sum := by
  have hne : (items.flatMap blockComments).map postText ≠ [] := by
    intro hnil
    rw [List.map_eq_nil_iff.1 hnil] at hpost
    cases hpost
  rw [batchText, length_dump_strings hne, List.map_map]
  exact congrArg List.sum (List.map_congr_left fun post _ => length_escape_postText post)

theorem ecallParseItems_eq (hnul : ∀ x ∈ blocks, NulFree x)
    (hlen : ∀ x ∈ blocks, x.length < tempDigestLen)
    (hload : blocks.mapM (load P.runtime) = some items)
    (hpost : (items.flatMap blockComments)[i]? = some post) (size witnessSize : Nat) :
    ecallParseItems P (digest2Binary blocks) size witnessSize =
      some (copyOut size (batchText items),
        copyOut witnessSize (createCralwerWitness P blocks (batchText items))) ∧
    parseSteemitItem P blocks = some (batchText items) := by
  have hposts : items.flatMap blockPosts = (items.flatMap blockComments).map postText := by
    rw [List.map_flatMap]
    exact List.flatMap_congr fun item _ => blockPosts_eq item
  have hcand : postCandidates P items = some ((items.flatMap blockComments).map postText) := by
    rw [postCandidates, hposts]
    split
    · next hnil =>
        rw [List.map_eq_nil_iff.1 hnil] at hpost
        cases hpost
    · rfl
  have hparse : parseSteemitItem P blocks = some (batchText items) := by
    rw [parseSteemitItem, hload]
    simp only [Option.bind_eq_bind, Option.bind_some, hcand]
    rfl
  refine ⟨?_, hparse⟩
  rw [ecallParseItems, binary2Digest_digest2Binary hnul hlen]
  simp only [Option.bind_eq_bind, Option.bind_some, hparse]
  rfl

/-- An index with room for all words of a batch that fits the scratch buffer. -/
theorem blobSize_batch_lt (htok : Tokenizes P wordID)
    (hpost : (items.flatMap blockComments)[i]? = some post)
    (hbatch : (batchText items).length < tempDigestLen) :
    blobSize P (((items.flatMap blockComments).map postText).map escape) <
      indexOutputMaxLength := by
  have hne : (items.flatMap blockComments).map postText ≠ [] := by
    intro hnil
    rw [List.map_eq_nil_iff.1 hnil] at hpost
    cases hpost
  have hsize := @blobSize_le P (((items.flatMap blockComments).map postText).map escape)
    fun doc _ => htok.length_le doc
  have hsum : ((((items.flatMap blockComments).map postText).map escape).map
      fun doc => doc.length + 1).sum ≤ (batchText items).length := by
    rw [batchText, length_dump_strings hne, List.map_map]
    exact List.sum_le_sum fun doc _ => Nat.add_le_add_left (by decide) _
  have hmax : indexOutputMaxLength = 67108864 := rfl
  have htemp : tempDigestLen = 65536 := rfl
  omega

/-- A batch that does not fit the scratch buffer is not indexed. -/
theorem not_found_of_overrun {O : HashOrder} {output : Bytes} (hnul : NulFree output)
    (hlen : tempDigestLen ≤ output.length) {blob witness : Bytes} {size : Nat} {tbl : IndexTbl}
    {digest : List Bytes} {docID w : DWord}
    (hbuild : ecallBuildIndex P O (digest2Binary [cString (copyOut outputMaxLength output)])
      indexOutputMaxLength witnessMaxLength = some (blob, size, witness))
    (hread : readBlob blob = some (tbl, digest)) : docID ∉ tbl.find w := by
  rw [copyOut] at hbuild
  split_ifs at hbuild
  · have hover := @ecallBuildIndex_overrun P O [output] output List.mem_cons_self
      (by rwa [cString_of_nulFree hnul]) indexOutputMaxLength witnessMaxLength
    rw [List.map_singleton, hbuild] at hover
    cases hover
  · -- the crawler gives out nothing, and so there are no documents
    have hsize : blobSize P [] ≤ 4 := blobSize_le fun doc hdoc => absurd hdoc List.not_mem_nil
    obtain ⟨out, witness', hcall, -, hrep⟩ := @ecallBuildIndex_represents P O [[]] []
      indexOutputMaxLength witnessMaxLength rfl (by decide) (hsize.trans_lt (by decide))
      (hsize.trans_lt (by decide))
    rw [List.map_singleton, hbuild] at hcall
    cases hcall
    obtain ⟨-, tbl', hread', hidx⟩ := hrep
    rw [hread] at hread'
    cases hread'
    rw [hidx.find, lookup]
    split_ifs
    · exact List.not_mem_nil
    · exact List.not_mem_nil

/-- A batch that fits the scratch buffer is indexed, with the tokens of every post. -/
theorem exists_index_batch (htok : Tokenizes P wordID)
    (hpost : (items.flatMap blockComments)[i]? = some post) (hnul : NulFree (batchText items))
    (hbatch : (batchText items).length < tempDigestLen) {w : DWord} (hstop : w ∉ P.stop)
    (O : HashOrder) : ∃ blob size witness tbl digest,
      ecallBuildIndex P O (digest2Binary [cString (copyOut outputMaxLength (batchText items))])
          indexOutputMaxLength witnessMaxLength = some (blob, size, witness) ∧
        readBlob blob = some (tbl, digest) ∧
        (BitVec.ofNat 32 (1 + i) ∈ tbl.find w ↔ w ∈ P.tokens (escape (postText post))) := by
  have hsize := blobSize_batch_lt htok hpost hbatch
  have hcopy : copyOut outputMaxLength (batchText items) = batchText items :=
    if_pos (hbatch.trans (by decide))
  have hdocs : documents P ([batchText items].map cString) =
      some (((items.flatMap blockComments).map postText).map escape) := by
    rw [List.map_singleton, cString_of_nulFree hnul]
    exact documents_strings _
  obtain ⟨out, witness, hbuild, -, -, tbl, hread, hidx⟩ := ecallBuildIndex_represents O
    witnessMaxLength hdocs (by simpa [cString_of_nulFree hnul] using hbatch) hsize
    (hsize.trans (by decide))
  refine ⟨_, _, _, tbl, _, by rw [hcopy]; exact hbuild, hread, ?_⟩
  have hcount := @length_le_blobSize P (((items.flatMap blockComments).map postText).map escape)
  rw [hidx.find, lookup, if_neg hstop]
  refine mem_postings_iff P ?_ ?_
  · rw [List.getElem?_map, List.getElem?_map, hpost]
    rfl
  · have hmax : indexOutputMaxLength = 67108864 := rfl
    omega

/-- A word is found under the docID of a post exactly if the tokenizer finds it in the post's
document, and blocks and batch fit the scratch buffer. -/
theorem found_iff (htok : Tokenizes P wordID) (hnul : ∀ x ∈ blocks, NulFree x)
    (hload : blocks.mapM (load P.runtime) = some items)
    (hpost : (items.flatMap blockComments)[i]? = some post) {w : DWord} (hstop : w ∉ P.stop) :
    Found P blocks (BitVec.ofNat 32 (1 + i)) w ↔
      (∀ x ∈ blocks, x.length < tempDigestLen) ∧
        ((items.flatMap blockComments).map postLength).sum < tempDigestLen ∧
        w ∈ P.tokens (escape (postText post)) := by
  rw [← length_batchText hpost]
  by_cases hlen : ∀ x ∈ blocks, x.length < tempDigestLen
  swap
  · refine iff_of_false ?_ fun h => hlen h.1
    rintro ⟨output, witness₁, hparse, -⟩
    push Not at hlen
    obtain ⟨x, hx, hx'⟩ := hlen
    rw [ecallParseItems, binary2Digest_digest2Binary_overrun hnul hx hx'] at hparse
    cases hparse
  obtain ⟨hitems, hparse⟩ := ecallParseItems_eq hnul hlen hload hpost outputMaxLength
    witnessMaxLength
  have hbatchNul : NulFree (batchText items) := nulFree_parseSteemitItem hnul hparse
  by_cases hbatch : (batchText items).length < tempDigestLen
  swap
  · refine iff_of_false ?_ fun h => hbatch h.2.1
    rintro ⟨output, witness₁, hcall, hbuilt⟩
    obtain ⟨blob, size, witness₂, tbl, digest, hbuild, hread, hmem⟩ := hbuilt insertionOrder
    rw [hitems] at hcall
    cases hcall
    exact not_found_of_overrun hbatchNul (not_lt.1 hbatch) hbuild hread hmem
  rw [and_iff_right hlen, and_iff_right hbatch]
  have hindex := exists_index_batch htok hpost hbatchNul hbatch hstop
  constructor
  · rintro ⟨output, witness₁, hcall, hbuilt⟩
    rw [hitems] at hcall
    cases hcall
    obtain ⟨blob, size, witness₂, tbl, digest, hbuild, hread, hmem⟩ := hbuilt insertionOrder
    obtain ⟨blob', size', witness', tbl', digest', hbuild', hread', hfind⟩ := hindex insertionOrder
    rw [hbuild] at hbuild'
    cases hbuild'
    rw [hread] at hread'
    cases hread'
    exact hfind.1 hmem
  · intro hmem
    refine ⟨_, _, hitems, fun O => ?_⟩
    obtain ⟨blob, size, witness, tbl, digest, hbuild, hread, hfind⟩ := hindex O
    exact ⟨blob, size, witness, tbl, digest, hbuild, hread, hfind.2 hmem⟩

/-- **What is posted can be found.** Let the tokenizer find the runs of letters and digits, and let
no other word of a post have the wordID of this one. Then a word that is no stop word is mapped to a
list with the post's docID exactly if it is still a word of the title or the body when every
newline, tab and other control character leaves the letter of its escape in front of the next word,
and if every block and all the posts together fit the scratch buffer of `Binary2Digest`. -/
theorem findable_iff (htok : Tokenizes P wordID) (hnul : ∀ x ∈ blocks, NulFree x)
    (hload : blocks.mapM (load P.runtime) = some items)
    (hpost : (items.flatMap blockComments)[i]? = some post) {w : Bytes}
    (hstop : wordID (lower w) ∉ P.stop)
    (hcollide : ∀ u ∈ wordsIn (escape (postText post)), wordID u = wordID (lower w) →
      u = lower w) :
    Found P blocks (BitVec.ofNat 32 (1 + i)) (wordID (lower w)) ↔
      (∀ x ∈ blocks, x.length < tempDigestLen) ∧
        ((items.flatMap blockComments).map postLength).sum < tempDigestLen ∧
        (Survives w (postTitle post) ∨ Survives w (postBody post)) := by
  rw [found_iff htok hnul hload hpost hstop, htok, ← mem_wordsIn_post]
  refine and_congr_right fun _ => and_congr_right fun _ => ?_
  constructor
  · intro hmem
    obtain ⟨u, hu, heq⟩ := List.mem_map.1 hmem
    rwa [← hcollide u hu heq]
  · exact fun hmem => List.mem_map_of_mem hmem

end

/-! ## A post of two lines -/

/-- The word `alpha` in the first line, and the word `beta` in the second. -/
def twoLines : Bytes := ascii "alpha\nbeta"

theorem mapM_load_twoLines : [(postBlock [twoLines]).dump 1].mapM (load samplePlatform.runtime) =
    some [postBlock [twoLines]] := by
  rw [List.mapM_cons, load_dump (plain_postBlock _)]
  rfl

theorem comments_twoLines :
    ([postBlock [twoLines]].flatMap blockComments)[0]? = some (postOp twoLines) := rfl

theorem nulFree_twoLines : ∀ x ∈ [(postBlock [twoLines]).dump 1], NulFree x := by
  rw [List.forall_mem_singleton]
  refine nulFree_postBlock ?_
  rw [List.forall_mem_singleton]
  decide

/-- The word of the first line is found. -/
theorem first_line_found :
    Found samplePlatform [(postBlock [twoLines]).dump 1] 1 (sphCRC32 (lower (ascii "alpha"))) := by
  have hrest : ∀ c ∈ (ascii "\nbeta").head?, isBlank c := by
    rintro c ⟨⟩
    exact .inr (.inr rfl)
  refine (findable_iff (fun _ => rfl) nulFree_twoLines mapM_load_twoLines comments_twoLines
    (by decide +kernel) ?_).2 ⟨?_, ?_, .inr ?_⟩
  · decide +kernel
  · decide +kernel
  · decide +kernel
  · exact @survives_of_stands (ascii "alpha") [] (ascii "\nbeta") (by decide) (by decide +kernel)
      (by simp) hrest

/-- The word of the second line stands between a newline and the end, and is not found. -/
theorem second_line_not_found : ∃ (P : Platform) (wordID : Bytes → DWord) (blocks : List Bytes)
    (items : List JSON) (i : Nat) (post : JSON) (w : Bytes), Tokenizes P wordID ∧
    (∀ x ∈ blocks, NulFree x ∧ x.length < tempDigestLen) ∧
    ((items.flatMap blockComments).map postLength).sum < tempDigestLen ∧
    blocks.mapM (load P.runtime) = some items ∧
    (items.flatMap blockComments)[i]? = some post ∧
    (w ≠ [] ∧ (∀ c ∈ w, isAlnum c) ∧ Stands w (postBody post)) ∧
    wordID (lower w) ∉ P.stop ∧
    (∀ u ∈ wordsIn (escape (postText post)), wordID u = wordID (lower w) → u = lower w) ∧
    ¬Found P blocks (BitVec.ofNat 32 (1 + i)) (wordID (lower w)) := by
  have htok : Tokenizes samplePlatform sphCRC32 := fun _ => rfl
  have hstop : sphCRC32 (lower (ascii "beta")) ∉ samplePlatform.stop := by decide +kernel
  have hstands : Stands (ascii "beta") (postBody (postOp twoLines)) := by
    refine ⟨ascii "alpha\n", [], rfl, ?_, by simp⟩
    rintro c ⟨⟩
    exact .inr (.inr rfl)
  have hfound := found_iff htok nulFree_twoLines mapM_load_twoLines comments_twoLines hstop
  refine ⟨samplePlatform, sphCRC32, _, _, 0, postOp twoLines, ascii "beta", htok, ?_, ?_,
    mapM_load_twoLines, comments_twoLines, ⟨by decide, by decide +kernel, hstands⟩, hstop, ?_,
    fun h => ?_⟩
  · exact fun x hx => ⟨nulFree_twoLines x hx, by
      rw [List.mem_singleton.1 hx]
      decide +kernel⟩
  · decide +kernel
  · decide +kernel
  · exact absurd (hfound.1 h).2.2 (by decide +kernel)

end DeSearch
