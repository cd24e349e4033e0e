import DeSearch.EnclaveProof

/-!
# Blocks with posts

A block made from the posts it is to hold, and the way of these posts through the pipeline: a
crawler makes a batch of them (`crawlOutput_postBlock`), in which an indexer finds them again
(`documents_postBatch`). The sizes are exact, so it can be said what does and what does not fit a
buffer.
-/

namespace DeSearch

open JSON

variable {P : Platform}

/-- A `comment_operation` without a title. -/
def postOp (body : Bytes) : JSON :=
  object [(ascii "type", string (ascii "comment_operation")),
    (ascii "value", object [(ascii "body", string body), (ascii "title", string [])])]

/-- A block with a single transaction that holds all the posts. -/
def postBlock (bodies : List Bytes) : JSON :=
  object [(ascii "result", object [(ascii "block", object [(ascii "transactions",
    array [object [(ascii "operations", array (bodies.map postOp))]])])])]

/-- The document of a post: its empty title, two blanks, and its body. -/
def postDoc (body : Bytes) : Bytes := ascii "  " ++ body

/-- The batch of some posts. -/
def postBatch (bodies : List Bytes) : Bytes :=
  (array ((bodies.map postDoc).map string)).dump 1

/-- A text that JSON shows as it is. -/
def Unescaped (s : Bytes) : Prop := escape s = s ∧ NulFree s

theorem unescaped_of_hex {s : Bytes} (h : ∀ c ∈ s, isHex c) : Unescaped s :=
  ⟨escape_of_hex h, nulFree_of_hex h⟩

theorem Unescaped.postDoc {body : Bytes} (h : Unescaped body) : Unescaped (postDoc body) := by
  refine ⟨?_, nulFree_append.2 ⟨by decide, h.2⟩⟩
  have happ : escape (ascii "  " ++ body) = ascii "  " ++ escape body := rfl
  rw [DeSearch.postDoc, happ, h.1]

/-! ## Parsing a block -/

theorem plain_postOp (body : Bytes) : Plain (postOp body) := by
  refine ⟨⟨⟨ascii "type", rfl⟩, trivial, ⟨ascii "value", rfl⟩,
    ⟨⟨⟨ascii "body", rfl⟩, trivial, ⟨ascii "title", rfl⟩, trivial, trivial⟩, ?_⟩, trivial⟩, ?_⟩
  · change [ascii "body", ascii "title"].Pairwise (· < ·)
    decide
  · change [ascii "type", ascii "value"].Pairwise (· < ·)
    decide

theorem plain_postBlock (bodies : List Bytes) : Plain (postBlock bodies) := by
  have helems : PlainElems (bodies.map postOp) := by
    induction bodies with
    | nil => trivial
    | cons body bodies ih => exact ⟨plain_postOp body, ih⟩
  exact ⟨⟨⟨ascii "result", rfl⟩, ⟨⟨⟨ascii "block", rfl⟩, ⟨⟨⟨ascii "transactions", rfl⟩,
    ⟨⟨⟨⟨ascii "operations", rfl⟩, helems, trivial⟩, List.pairwise_singleton _ _⟩, trivial⟩,
    trivial⟩, List.pairwise_singleton _ _⟩, trivial⟩, List.pairwise_singleton _ _⟩, trivial⟩,
    List.pairwise_singleton _ _⟩

theorem nulFree_postBlock {bodies : List Bytes} (h : ∀ body ∈ bodies, NulFree body) :
    NulFree ((postBlock bodies).dump 1) := by
  have helems : CleanElems (bodies.map postOp) := by
    induction bodies with
    | nil => trivial
    | cons body bodies ih =>
        rw [List.forall_mem_cons] at h
        have htype : NulFree (ascii "comment_operation") := by decide
        exact ⟨⟨by decide, htype, by decide, ⟨by decide, h.1, by decide, nulFree_nil, trivial⟩,
          trivial⟩, ih h.2⟩
  refine nulFree_dump (postBlock bodies) ?_ 1
  exact ⟨by decide, ⟨by decide, ⟨by decide, ⟨⟨by decide, helems, trivial⟩, trivial⟩, trivial⟩,
    trivial⟩, trivial⟩

theorem blockPosts_postBlock {bodies : List Bytes} (h : ∀ body ∈ bodies, Unescaped body) :
    blockPosts (postBlock bodies) = bodies.map postDoc := by
  have hpost : ∀ body ∈ bodies, postText (postOp body) = postDoc body := by
    intro body hbody
    have htext : postText (postOp body) = ascii "  " ++ escape body := rfl
    rw [htext, (h body hbody).1, postDoc]
  have hblock : blockPosts (postBlock bodies) = (bodies.map postOp).filterMap (fun post =>
      if (post.get (ascii "type")).toStr = ascii "comment_operation" then some (postText post)
      else none) := List.flatMap_singleton _ _
  rw [hblock, List.filterMap_map, ← List.filterMap_eq_map]
  refine List.filterMap_congr fun body hbody => ?_
  rw [Function.comp_apply, Function.comp_apply, ← hpost body hbody]
  exact if_pos rfl

/-! ## Sizes -/

theorem length_postBatch {bodies : List Bytes} (h : ∀ body ∈ bodies, Unescaped body)
    (hne : bodies ≠ []) :
    (postBatch bodies).length = (bodies.map fun body => body.length + 6).sum := by
  have hdocs : bodies.map postDoc ≠ [] := fun hnil => hne (List.map_eq_nil_iff.1 hnil)
  rw [postBatch, length_dump_strings hdocs, List.map_map]
  congr 1
  refine List.map_congr_left fun body hbody => ?_
  rw [Function.comp_apply, (h body hbody).postDoc.1, postDoc, List.length_append]
  have hblanks : (ascii "  ").length = 2 := rfl
  omega

theorem length_dump_postOp {body : Bytes} (h : Unescaped body) :
    ((postOp body).dump 7).length = body.length + 159 := by
  have htype : (escape (ascii "comment_operation")).length = 17 := by decide
  have htitle : (escape []).length = 0 := rfl
  rw [postOp, length_dump_object, length_dumpMembers_cons, length_dump_string, htype,
    length_dumpMembers_singleton, length_dump_object, length_dumpMembers_cons, length_dump_string,
    h.1, length_dumpMembers_singleton, length_dump_string, htitle]
  have hkeys : (ascii "type").length = 4 ∧ (ascii "value").length = 5 ∧
    (ascii "body").length = 4 ∧ (ascii "title").length = 5 := by decide
  omega

theorem length_postBlock {bodies : List Bytes} (h : ∀ body ∈ bodies, Unescaped body)
    (hne : bodies ≠ []) : ((postBlock bodies).dump 1).length =
      (bodies.map fun body => body.length + 159 + 2).sum + 107 := by
  have hops : (dumpElems 6 (bodies.map postOp)).length + 2 =
      (bodies.map fun body => body.length + 159 + 2).sum :=
    length_dumpElems (fun body hbody => length_dump_postOp (h body hbody)) hne
  have hkeys : (ascii "result").length = 6 ∧ (ascii "block").length = 5 ∧
    (ascii "transactions").length = 12 ∧ (ascii "operations").length = 10 := by decide
  rw [postBlock]
  simp only [length_dump_object, length_dumpMembers_singleton, length_dump_array]
  rw [dumpElems, length_dump_object, length_dumpMembers_singleton, length_dump_array]
  simp only [Nat.reduceAdd]
  omega

/-! ## The way through the pipeline -/

/-- The batch a crawler makes of some blocks. -/
theorem crawlOutput_postBlock {blocks : List (List Bytes)}
    (h : ∀ bodies ∈ blocks, ∀ body ∈ bodies, Unescaped body)
    (hlen : ∀ bodies ∈ blocks, ((postBlock bodies).dump 1).length < tempDigestLen)
    (hne : blocks.flatten ≠ []) :
    crawlOutput P (blocks.map fun bodies => (postBlock bodies).dump 1) =
      some (postBatch blocks.flatten) := by
  have hnul : ∀ x ∈ blocks.map fun bodies => (postBlock bodies).dump 1, NulFree x := by
    intro x hx
    obtain ⟨bodies, hbodies, rfl⟩ := List.mem_map.1 hx
    exact nulFree_postBlock fun body hbody => (h bodies hbodies body hbody).2
  have hlen' : ∀ x ∈ blocks.map fun bodies => (postBlock bodies).dump 1,
      x.length < tempDigestLen := by
    intro x hx
    obtain ⟨bodies, hbodies, rfl⟩ := List.mem_map.1 hx
    exact hlen bodies hbodies
  have hload : (blocks.map fun bodies => (postBlock bodies).dump 1).mapM (load P.runtime) =
      some (blocks.map postBlock) :=
    mapM_map_some blocks fun bodies _ => load_dump (plain_postBlock bodies) 1
  have hposts : (blocks.map postBlock).flatMap blockPosts = blocks.flatten.map postDoc := by
    rw [List.flatMap_map, List.map_flatten, ← List.flatMap_def]
    exact List.flatMap_congr fun bodies hbodies => blockPosts_postBlock (h bodies hbodies)
  have hcand : postCandidates P (blocks.map postBlock) = some (blocks.flatten.map postDoc) := by
    rw [postCandidates, hposts]
    split
    · exact absurd (List.map_eq_nil_iff.1 ‹_›) hne
    · rfl
  rw [crawlOutput, binary2Digest_digest2Binary hnul hlen', Option.bind_some, parseSteemitItem,
    hload]
  simp only [Option.bind_eq_bind, Option.bind_some, hcand]
  rfl

/-- The documents an indexer finds in a batch. -/
theorem documents_postBatch {bodies : List Bytes} (h : ∀ body ∈ bodies, Unescaped body) :
    documents P [postBatch bodies] = some (bodies.map postDoc) := by
  rw [postBatch, documents_strings, List.map_map]
  refine congrArg some (List.map_congr_left fun body hbody => ?_)
  rw [Function.comp_apply, (h body hbody).postDoc.1]

end DeSearch
