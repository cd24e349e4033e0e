import DeSearch.EnclaveProof
import DeSearch.JsonText

/-!
# The size of a batch

A crawler publishes the titles and bodies of the posts in its blocks, escaped twice over: once where
they are taken out of the block and once where the batch is printed. This makes a text at most three
times as long as it is in the block. A block that a crawler can take in is shorter than 64 KB, so
that a batch always fits the buffer it is copied to (`crawlOutput_length_lt`).
-/

namespace DeSearch

open JSON

namespace JSON

/-! ## Texts that are escaped twice -/

/-- The size of a text that is escaped twice. -/
def weight (s : Bytes) : Nat := (escape (escape s)).length

@[simp] theorem weight_nil : weight [] = 0 := rfl

theorem weight_append (s t : Bytes) : weight (s ++ t) = weight s + weight t := by
  rw [weight, escape_append, escape_append, List.length_append, weight, weight]

theorem weight_singleton_le (c : Byte) : weight [c] ≤ 4 := by
  revert c
  decide +kernel

theorem weight_singleton_le_three {c : Byte} (hq : c ≠ ch '"') (hb : c ≠ ch '\\') :
    weight [c] ≤ 3 := by
  revert c
  decide +kernel

theorem weight_singleton_of_isHex {c : Byte} (h : isHex c) : weight [c] = 1 := by
  revert c
  decide +kernel

/-- What `parse_string` has read but not yet used. -/
def StringMode.pending : StringMode → Nat
  | .escape => 3
  | _ => 0

/-- A string takes up a third of its weight in the text. -/
theorem weight_parseString {mode : StringMode} {val s v r : Bytes}
    (h : parseString mode val s = some (v, r)) (hne : v ≠ []) :
    weight v + 3 * r.length ≤ weight val + 3 * s.length + mode.pending := by
  induction s generalizing mode val with
  | nil => cases mode <;> simp [parseString] at h
  | cons c s ih =>
      cases mode with
      | plain =>
          simp only [parseString] at h
          split_ifs at h with hq hb
          · obtain ⟨rfl, rfl⟩ := by simpa using h
            simp only [List.length_cons]
            omega
          · have := ih h
            simp only [List.length_cons, StringMode.pending] at this ⊢
            omega
          · have hc := weight_singleton_le_three hq hb
            have := ih h
            rw [weight_append] at this
            simp only [List.length_cons, StringMode.pending] at this ⊢
            omega
      | escape =>
          simp only [parseString] at h
          split_ifs at h with hu
          · have hwu : weight [ch '\\', ch 'u'] = 5 := by decide
            have := ih h
            rw [weight_append, hwu] at this
            simp only [List.length_cons, StringMode.pending] at this ⊢
            omega
          · have hc := weight_singleton_le (unescapeByte c)
            have := ih h
            rw [weight_append] at this
            simp only [List.length_cons, StringMode.pending] at this ⊢
            omega
      | hex k back =>
          simp only [parseString] at h
          split_ifs at h with hhex hk
          · have hc := weight_singleton_of_isHex hhex
            have := ih h
            rw [weight_append] at this
            simp only [List.length_cons, StringMode.pending] at this ⊢
            omega
          · have hc := weight_singleton_of_isHex hhex
            have := ih h
            rw [weight_append] at this
            simp only [List.length_cons, StringMode.pending] at this ⊢
            omega
          · obtain ⟨rfl, -⟩ := by simpa using h
            exact absurd rfl hne

theorem consumes_weight : Consumes fun s xs r =>
    (xs.map weight).sum + 3 * r.length ≤ 3 * s.length where
  skip hr := by
    have := hr.length_le
    simp only [List.map_nil, List.sum_nil]
    omega
  comp h h' := by
    rw [List.map_append, List.sum_append]
    omega
  mono h hsub := by
    have := Counting.sum_map_le_of_subperm weight hsub
    omega
  str {s v r} h := by
    rw [List.map_singleton, List.sum_singleton]
    by_cases hne : v = []
    · have := (parseString_suffix List.suffix_rfl (by simp) h).1.length_le
      rw [hne, weight_nil]
      omega
    · simpa [StringMode.pending] using weight_parseString h hne

/-- The size of all strings of a value, escaped twice. -/
def totalWeight (j : JSON) : Nat := ((strings j).map weight).sum

theorem totalWeight_load_le {R : Runtime} {s : Bytes} {j : JSON} (h : load R s = some j) :
    totalWeight j ≤ 3 * (s.length + 1) := by
  obtain ⟨r, hr⟩ := load_consumes consumes_weight h
  rw [List.length_append, List.length_singleton] at hr
  exact (Nat.le_add_right _ _).trans hr

/-! ## Parts of a value -/

theorem strings_lookup_sublist (m : List (Bytes × JSON)) (k : Bytes) :
    (strings ((m.lookup k).getD null)).Sublist (stringsMembers m) := by
  induction m with
  | nil => exact List.Sublist.refl _
  | cons p m ih =>
      obtain ⟨k', v⟩ := p
      rw [stringsMembers, List.lookup_cons]
      split
      · exact List.sublist_append_left _ _
      · exact ih.trans (List.sublist_append_right _ _)

theorem strings_get_sublist (j : JSON) (k : Bytes) : (strings (j.get k)).Sublist (strings j) := by
  cases j with
  | object m => exact strings_lookup_sublist m k
  | _ => exact List.nil_sublist _

theorem totalWeight_get_le (j : JSON) (k : Bytes) : totalWeight (j.get k) ≤ totalWeight j :=
  Counting.sum_map_le_of_subperm weight (strings_get_sublist j k).subperm

/-- Two members have no strings in common. -/
theorem totalWeight_get_add_get_le (j : JSON) {k k' : Bytes} (hne : k ≠ k') :
    totalWeight (j.get k) + totalWeight (j.get k') ≤ totalWeight j := by
  have hlookup : ∀ (m : List (Bytes × JSON)) (k : Bytes),
      totalWeight ((m.lookup k).getD null) ≤ ((stringsMembers m).map weight).sum :=
    fun m k => Counting.sum_map_le_of_subperm weight (strings_lookup_sublist m k).subperm
  cases j with
  | object m =>
      change totalWeight ((m.lookup k).getD null) + totalWeight ((m.lookup k').getD null) ≤
        ((stringsMembers m).map weight).sum
      induction m with
      | nil => exact le_rfl
      | cons p m ih =>
          obtain ⟨k₀, v⟩ := p
          have hskip : ∀ {k}, k ≠ k₀ → ((k₀, v) :: m).lookup k = m.lookup k := fun {k} hk => by
            rw [List.lookup_cons, beq_false_of_ne hk]
          rw [stringsMembers, List.map_append, List.sum_append]
          -- at most one of the two keys is that of the first member
          by_cases hk : k = k₀
          · subst hk
            rw [List.lookup_cons_self, hskip hne.symm]
            exact Nat.add_le_add_left (hlookup m k') _
          · rw [hskip hk]
            by_cases hk' : k' = k₀
            · subst hk'
              rw [List.lookup_cons_self, Nat.add_comm]
              exact Nat.add_le_add_left (hlookup m k) _
            · rw [hskip hk']
              exact ih.trans (Nat.le_add_left _ _)
  | _ => exact Nat.zero_le _

theorem sum_totalWeight_arrayRange_le (j : JSON) :
    (j.arrayRange.map totalWeight).sum ≤ totalWeight j := by
  cases j with
  | array l =>
      change (l.map totalWeight).sum ≤ ((stringsElems l).map weight).sum
      induction l with
      | nil => exact le_rfl
      | cons v l ih =>
          rw [List.map_cons, List.sum_cons, stringsElems, List.map_append, List.sum_append]
          exact Nat.add_le_add_left ih _
  | _ => exact Nat.zero_le _

end JSON

/-! ## The posts of a block -/

theorem length_escape_toStr (j : JSON) : (escape j.toStr).length ≤ totalWeight j := by
  cases j with
  | string s => exact (Nat.add_zero _).ge
  | _ => exact Nat.zero_le _

/-- What the batch takes for a post, with its quotes and the separator. -/
def postSize (post : Bytes) : Nat := (escape post).length + 4

/-- The `type` of a post makes up for its quotes, blanks and separator. -/
theorem postSize_postText_le {post : JSON}
    (h : (post.get (ascii "type")).toStr = ascii "comment_operation") :
    postSize (postText post) ≤ totalWeight post := by
  have htype := length_escape_toStr (post.get (ascii "type"))
  have hlen : (escape (ascii "comment_operation")).length = 17 := by decide
  have htitle := length_escape_toStr ((post.get (ascii "value")).get (ascii "title"))
  have hbody := length_escape_toStr ((post.get (ascii "value")).get (ascii "body"))
  have hvalue := totalWeight_get_add_get_le (post.get (ascii "value"))
    (show ascii "title" ≠ ascii "body" by decide)
  have hpost := totalWeight_get_add_get_le post (show ascii "type" ≠ ascii "value" by decide)
  have hblanks : (escape (ascii "  ")).length = 2 := by decide
  rw [h, hlen] at htype
  rw [postSize, postText, escape_append, escape_append, List.length_append, List.length_append,
    hblanks]
  omega

theorem sum_filterMap_le {α β : Type} {f : α → Option β} {size : β → Nat} {bound : α → Nat}
    (h : ∀ a b, f a = some b → size b ≤ bound a) (l : List α) :
    ((l.filterMap f).map size).sum ≤ (l.map bound).sum := by
  induction l with
  | nil => exact le_rfl
  | cons a l ih =>
      rw [List.map_cons, List.sum_cons, List.filterMap_cons]
      split
      · exact ih.trans (Nat.le_add_left _ _)
      · rw [List.map_cons, List.sum_cons]
        exact Nat.add_le_add (h a _ ‹_›) ih

theorem sum_flatMap_le {α β : Type} {f : α → List β} {size : β → Nat} {bound : α → Nat}
    {l : List α} (h : ∀ a ∈ l, ((f a).map size).sum ≤ bound a) :
    ((l.flatMap f).map size).sum ≤ (l.map bound).sum := by
  induction l with
  | nil => exact le_rfl
  | cons a l ih =>
      rw [List.forall_mem_cons] at h
      rw [List.flatMap_cons, List.map_append, List.sum_append, List.map_cons, List.sum_cons]
      exact Nat.add_le_add h.1 (ih h.2)

theorem sum_postSize_blockPosts_le (item : JSON) :
    ((blockPosts item).map postSize).sum ≤ totalWeight item := by
  have htxn : ∀ txn : JSON, (((txn.get (ascii "operations")).arrayRange.filterMap fun post =>
      if (post.get (ascii "type")).toStr = ascii "comment_operation" then some (postText post)
      else none).map postSize).sum ≤ totalWeight txn := by
    intro txn
    refine (sum_filterMap_le (fun post text h => ?_) _).trans
      ((sum_totalWeight_arrayRange_le _).trans (totalWeight_get_le txn _))
    split_ifs at h with htype
    obtain rfl := Option.some.inj h
    exact postSize_postText_le htype
  refine (sum_flatMap_le fun txn _ => htxn txn).trans ((sum_totalWeight_arrayRange_le _).trans ?_)
  exact (totalWeight_get_le _ _).trans ((totalWeight_get_le _ _).trans (totalWeight_get_le _ _))

/-! ## The batch -/

/-- Parsing some blocks yields at most three times their size. -/
theorem sum_totalWeight_mapM_le {R : Runtime} {xs : List Bytes} {items : List JSON}
    (h : xs.mapM (load R) = some items) :
    (items.map totalWeight).sum ≤ (xs.map fun x => 3 * (x.length + 1)).sum := by
  induction xs generalizing items with
  | nil =>
      obtain rfl : [] = items := by simpa using h
      exact le_rfl
  | cons x xs ih =>
      rw [List.mapM_cons] at h
      obtain ⟨item, hitem, h⟩ := Option.bind_eq_some_iff.1 h
      obtain ⟨rest, hrest, h⟩ := Option.bind_eq_some_iff.1 h
      obtain rfl : item :: rest = items := by simpa using h
      rw [List.map_cons, List.sum_cons, List.map_cons, List.sum_cons]
      exact Nat.add_le_add (totalWeight_load_le hitem) (ih hrest)

variable {P : Platform}

/-- There is always a document. -/
theorem postCandidates_ne_nil {items : List JSON} {posts : List Bytes}
    (h : postCandidates P items = some posts) : posts ≠ [] := by
  unfold postCandidates at h
  split at h
  · obtain ⟨item, -, rfl⟩ := Option.map_eq_some_iff.1 h
    exact List.cons_ne_nil _ _
  · cases h
    assumption

theorem sum_postSize_postCandidates_le {items : List JSON} {posts : List Bytes}
    (h : postCandidates P items = some posts) :
    (posts.map postSize).sum ≤ (items.map totalWeight).sum + 68 := by
  unfold postCandidates at h
  split at h
  · obtain ⟨item, -, rfl⟩ := Option.map_eq_some_iff.1 h
    rw [List.map_singleton, List.sum_singleton, postSize, escape_of_hex (P.crypto.sha256_hex _),
      P.crypto.sha256_length]
    exact Nat.le_add_left _ _
  · cases h
    exact (sum_flatMap_le fun item _ => sum_postSize_blockPosts_le item).trans
      (Nat.le_add_right _ _)

/-- **A batch always fits.** Whatever the blocks hold, their batch is smaller than the buffer. -/
theorem crawlOutput_length_lt {xs : List Bytes} {output : Bytes} (hnul : ∀ x ∈ xs, NulFree x)
    (hcount : xs.length ≤ 64) (h : crawlOutput P xs = some output) :
    output.length < outputMaxLength := by
  obtain ⟨ys, hys, hparse⟩ := Option.bind_eq_some_iff.1 h
  have hblock : ∀ x ∈ xs, 3 * (x.length + 1) ≤ 3 * tempDigestLen := by
    intro x hx
    by_contra hlong
    rw [binary2Digest_digest2Binary_overrun hnul hx (by omega)] at hys
    cases hys
  obtain rfl := binary2Digest_digest2Binary_some hnul hys
  obtain ⟨items, posts, hitems, hposts, rfl⟩ := exists_posts_of_parseSteemitItem hparse
  calc ((array (posts.map string)).dump 1).length
      = (posts.map postSize).sum := length_dump_strings (postCandidates_ne_nil hposts) 1
    _ ≤ (items.map totalWeight).sum + 68 := sum_postSize_postCandidates_le hposts
    _ ≤ (ys.map fun x => 3 * (x.length + 1)).sum + 68 :=
        Nat.add_le_add_right (sum_totalWeight_mapM_le hitems) _
    _ ≤ ys.length * (3 * tempDigestLen) + 68 := by
        refine Nat.add_le_add_right ?_ _
        simpa using List.sum_le_card_nsmul (ys.map fun x => 3 * (x.length + 1)) _
          (List.forall_mem_map.2 hblock)
    _ ≤ 64 * (3 * tempDigestLen) + 68 := Nat.add_le_add_right (Nat.mul_le_mul_right _ hcount) _
    _ < outputMaxLength := by decide

end DeSearch
