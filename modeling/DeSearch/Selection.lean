import DeSearch.Lib.Counting
import DeSearch.Paging

/-!
# Which answer is shown

`go_search` asks one node of every partition that has any and puts the answers into `v_response`, in
the order of the partitions. It then shows the answer at the position of the page's partition.
`get_live_querier` leaves out the partitions without a live node and "still returns the list", so
the answers behind a missing partition move up: the answer of another partition is shown, or none is
at that position. A search that throws leaves the answers it has in `v_response`, and those of the
next search come behind them.

* `selection_iff`: when the right answer is shown, for any number of partitions, live or not, and
  any number of answers that were left behind.
* `inPlace_all_iff`: it is for every page exactly if every partition is live.
-/

namespace DeSearch

open JSON Counting

variable {R : Runtime} {shuffle : List Bytes → List Bytes} {lists : List (List Bytes)}
  {reply : Nat → Bytes} {carried : Nat → List Bytes × Bytes} {path keywords : Bytes} {page : Int}
  {client : Client}

/-! ## The nodes that are asked -/

/-- Partition `i + 1` has a live node. -/
def LiveAt (lists : List (List Bytes)) (i : Nat) : Prop := lists.getD i [] ≠ []

instance (lists : List (List Bytes)) : DecidablePred (LiveAt lists) :=
  fun i => inferInstanceAs (Decidable (lists.getD i [] ≠ []))

theorem LiveAt.mem {i : Nat} (h : LiveAt lists i) : lists.getD i [] ∈ lists := by
  rw [LiveAt, List.getD_eq_getElem?_getD] at h
  rw [List.getD_eq_getElem?_getD]
  cases hi : lists[i]? with
  | none => exact absurd (by rw [hi, Option.getD_none]) h
  | some l => exact List.mem_of_getElem? hi

/-- The nodes of `get_live_querier`, each with its reply. -/
def asked (shuffle : List Bytes → List Bytes) (lists : List (List Bytes)) (reply : Nat → Bytes) :
    List (Bytes × Bytes) :=
  (List.range lists.length).filterMap fun i =>
    (shuffle (lists.getD i [])).head?.map fun node => (node, reply i)

theorem map_getD_range (lists : List (List Bytes)) :
    (List.range lists.length).map (fun i => lists.getD i []) = lists := by
  refine List.ext_getElem (by simp) fun i _ hi => ?_
  rw [List.getElem_map, List.getElem_range, List.getD_eq_getElem?_getD,
    List.getElem?_eq_getElem hi, Option.getD_some]

theorem map_fst_asked :
    (asked shuffle lists reply).map Prod.fst = getLiveQuerier shuffle lists := by
  conv_rhs => rw [getLiveQuerier, ← map_getD_range lists, List.filterMap_map]
  rw [asked, List.map_filterMap]
  simp only [Option.map_map, Function.comp_def, Option.map_id']

/-! ## The answers in the vector -/

/-- The partitions in the order of their answers. -/
def livePartitions (lists : List (List Bytes)) : List Nat :=
  (List.range lists.length).filter fun i => LiveAt lists i

/-- Every live partition has sent a reply that can be read, and there is always a hash to take away
from those that were collected. -/
structure Replied (R : Runtime) (lists : List (List Bytes)) (reply : Nat → Bytes)
    (carried : Nat → List Bytes × Bytes) : Prop where
  carries : ∀ i, LiveAt lists i → Carries R (reply i) (carried i).1 (carried i).2
  collects : ∃ list, collectIn [] ((livePartitions lists).map fun i => (carried i).1) = some list

/-- The node that is asked for a partition. -/
def firstNode (shuffle : List Bytes → List Bytes) (lists : List (List Bytes)) (i : Nat) : Bytes :=
  (shuffle (lists.getD i [])).headD []

theorem head?_shuffle (hshuffle : ∀ l, (shuffle l).Perm l) (i : Nat) :
    (shuffle (lists.getD i [])).head? =
      if LiveAt lists i then some (firstNode shuffle lists i) else none := by
  rw [firstNode]
  cases hnodes : shuffle (lists.getD i []) with
  | nil =>
      have hperm := hshuffle (lists.getD i [])
      rw [hnodes] at hperm
      rw [if_neg fun hlive : LiveAt lists i => hlive (List.nil_perm.1 hperm)]
      rfl
  | cons node nodes =>
      have hlive : LiveAt lists i := by
        intro hnil
        have hperm := hshuffle (lists.getD i [])
        rw [hnodes, hnil] at hperm
        cases List.perm_nil.1 hperm
      rw [if_pos hlive]
      rfl

theorem firstNode_mem (hshuffle : ∀ l, (shuffle l).Perm l) {i : Nat} (h : LiveAt lists i) :
    firstNode shuffle lists i ∈ lists.getD i [] := by
  have hhead := @head?_shuffle shuffle lists hshuffle i
  rw [if_pos h] at hhead
  exact (hshuffle _).mem_iff.1 (List.mem_of_mem_head? hhead)

theorem asked_eq (hshuffle : ∀ l, (shuffle l).Perm l) : asked shuffle lists reply =
    (livePartitions lists).map fun i => (firstNode shuffle lists i, reply i) := by
  rw [asked, livePartitions, ← List.filterMap_eq_map, List.filterMap_filter]
  refine List.filterMap_congr fun i _ => ?_
  rw [head?_shuffle hshuffle]
  by_cases hlive : LiveAt lists i
  · simp [hlive]
  · simp [hlive]

theorem LiveAt.lt {i : Nat} (h : LiveAt lists i) : i < lists.length := by
  by_contra hle
  refine h ?_
  rw [List.getD_eq_getElem?_getD, List.getElem?_eq_none (not_lt.1 hle), Option.getD_none]

theorem mem_livePartitions {i : Nat} : i ∈ livePartitions lists ↔ LiveAt lists i := by
  rw [livePartitions, List.mem_filter, List.mem_range, decide_eq_true_iff]
  exact and_iff_right_of_imp LiveAt.lt

/-- What the loop of `go_search` collects. -/
theorem replies_asked (hshuffle : ∀ l, (shuffle l).Perm l)
    (hports : ∀ l ∈ lists, ∀ node ∈ l, HasPort R node) (hreplied : Replied R lists reply carried) :
    List.Forall₂ (Replies R) (asked shuffle lists reply) ((livePartitions lists).map carried) := by
  rw [asked_eq hshuffle, List.forall₂_map_left_iff, List.forall₂_map_right_iff, List.forall₂_same]
  intro i hi
  have hlive := mem_livePartitions.1 hi
  exact ⟨hports _ hlive.mem _ (firstNode_mem hshuffle hlive), hreplied.carries i hlive⟩

/-- A loop that gets to its end has read a reply of every live partition. -/
theorem exists_replied (hshuffle : ∀ l, (shuffle l).Perm l) {all : List (List Bytes × Bytes)}
    (hreplies : List.Forall₂ (Replies R) (asked shuffle lists reply) all) {list : List Bytes}
    (hlist : collectIn [] (all.map Prod.fst) = some list) :
    ∃ carried, Replied R lists reply carried := by
  -- a reply carries one thing at most
  have hone : ∀ i, ∃ carry : List Bytes × Bytes, ∀ carry' : List Bytes × Bytes,
      Carries R (reply i) carry'.1 carry'.2 → carry = carry' := by
    intro i
    by_cases hread : ∃ carry : List Bytes × Bytes, Carries R (reply i) carry.1 carry.2
    · obtain ⟨carry, hcarry⟩ := hread
      refine ⟨carry, fun carry' hcarry' => ?_⟩
      obtain ⟨hins, hanswer⟩ := hcarry.unique hcarry'
      exact Prod.ext hins hanswer
    · exact ⟨([], []), fun carry' hcarry' => absurd ⟨carry', hcarry'⟩ hread⟩
  choose carried hcarried using hone
  have hall : ∀ {is : List Nat} {all : List (List Bytes × Bytes)},
      List.Forall₂ (fun i carry => Replies R (firstNode shuffle lists i, reply i) carry) is all →
      all = is.map carried ∧ ∀ i ∈ is, Carries R (reply i) (carried i).1 (carried i).2 := by
    intro is all h
    induction h with
    | nil => exact ⟨rfl, fun i hi => absurd hi List.not_mem_nil⟩
    | @cons i carry is all hreply _ ih =>
        obtain rfl := hcarried i carry hreply.2
        exact ⟨by rw [List.map_cons, ih.1], List.forall_mem_cons.2 ⟨hreply.2, ih.2⟩⟩
  rw [asked_eq hshuffle, List.forall₂_map_left_iff] at hreplies
  obtain ⟨rfl, hread⟩ := hall hreplies
  refine ⟨carried, fun i hlive => hread i (mem_livePartitions.2 hlive), list, ?_⟩
  rw [List.map_map] at hlist
  exact hlist

/-! ## The position of a page -/

/-- The partition of a page, counted from zero. -/
def pagePartition (poolMax : Nat) (page : Int) : Nat := ((page - 1) % poolMax).toNat

theorem pagePartition_lt {poolMax : Nat} (hmax : 0 < poolMax) (page : Int) :
    pagePartition poolMax page < poolMax := by
  have hlt := Int.emod_lt_of_pos (page - 1) (Int.natCast_pos.2 hmax)
  have hnonneg := Int.emod_nonneg (page - 1) (Int.natCast_ne_zero.2 hmax.ne')
  rw [pagePartition]
  omega

theorem pagePos_eq_pagePartition {poolMax : Nat} (hmax : 0 < poolMax) (hpage : 1 ≤ page) :
    pagePos poolMax page = pagePartition poolMax page + 1 := by
  have hpos : (0 : Int) < poolMax := Int.natCast_pos.2 hmax
  have hdiv := Int.emod_add_mul_ediv page poolMax
  have hlt := Int.emod_lt_of_pos page hpos
  have hnonneg := Int.emod_nonneg page hpos.ne'
  rw [pagePos, pagePartition, Int.tmod_eq_emod_of_nonneg (by omega)]
  split_ifs with hzero
  · have hpred : (page - 1) % poolMax = poolMax - 1 := by
      have hsplit : page - 1 = (poolMax - 1) + poolMax * (page / poolMax - 1) := by
        rw [mul_sub, mul_one]
        omega
      rw [hsplit, Int.add_mul_emod_self_left, Int.emod_eq_of_lt (by omega) (by omega)]
    rw [hpred]
    omega
  · have hpred : (page - 1) % poolMax = page % poolMax - 1 := by
      have hsplit : page - 1 = (page % poolMax - 1) + poolMax * (page / poolMax) := by omega
      rw [hsplit, Int.add_mul_emod_self_left, Int.emod_eq_of_lt (by omega) (by omega)]
    rw [hpred]
    omega

theorem vectorAt_natCast (v : List Bytes) (i : Nat) : vectorAt v ((i : Int) + 1 - 1) = v[i]? := by
  rw [vectorAt, if_pos (by omega)]
  congr 1
  omega

/-! ## When the right answer is shown -/

/-- Whatever is answered, a search for the page reads `v_response` in range, and shows the answer of
the page's partition if that is live. -/
def ShownRight (R : Runtime) (shuffle : List Bytes → List Bytes) (lists : List (List Bytes))
    (client : Client) (path : Bytes) (page : Int) : Prop :=
  ∀ reply carried, Replied R lists reply carried → ∃ request shown client',
    goSearchAt R lists.length client path (asked shuffle lists reply) =
        (.ok (request, shown), client') ∧
      (LiveAt lists (pagePartition lists.length page) →
        shown = (carried (pagePartition lists.length page)).2)

/-- With as many answers left behind, there are enough of them, and in case the partition of the
page is live, the answers before its own make up for the partitions that are missing before it. -/
def InPlace (lists : List (List Bytes)) (left : Nat) (page : Int) : Prop :=
  pagePartition lists.length page < left + (livePartitions lists).length ∧
    (LiveAt lists (pagePartition lists.length page) →
      left + ((List.range (pagePartition lists.length page)).filter fun i =>
        LiveAt lists i).length = pagePartition lists.length page)

/-- One partition answers with one word, and all others with another. -/
def twoAnswers (i : Nat) (own other : Bytes) (j : Nat) : Bytes := if j = i then own else other

theorem replied_two (R : Runtime) (lists : List (List Bytes)) (i : Nat) {own other : Bytes}
    (hown : recvReply (unsignedReply own) = some (unsignedReply own))
    (hother : recvReply (unsignedReply other) = some (unsignedReply other)) :
    Replied R lists (fun j => unsignedReply (twoAnswers i own other j)) fun j =>
      ([auditWitness.out, ascii "query"], (string (twoAnswers i own other j)).dump 1) where
  carries j _ := by
    refine carries_unsignedReply ?_
    unfold twoAnswers
    split_ifs
    · exact hown
    · exact hother
  collects := by
    have hcollect : ∀ (is : List Nat) (list : List Bytes), ∃ list', collectIn list
        (is.map fun _ => [auditWitness.out, ascii "query"]) = some list' := by
      intro is
      induction is with
      | nil => exact fun list => ⟨list, rfl⟩
      | cons i is ih =>
          intro list
          rw [List.map_cons, collectIn, if_neg (by simp)]
          exact ih _
    exact hcollect _ []

/-- The answer at a position: one that was left behind, or that of a live partition. -/
theorem getElem?_answers (left : List Bytes) (k : Nat) :
    (left ++ ((livePartitions lists).map carried).map Prod.snd)[k]? =
      if k < left.length then left[k]?
      else ((livePartitions lists)[k - left.length]?).map fun i => (carried i).2 := by
  split_ifs with hlt
  · exact List.getElem?_append_left hlt
  · rw [List.getElem?_append_right (not_lt.1 hlt), List.getElem?_map, List.getElem?_map,
      Option.map_map]
    rfl

/-- The answer of a live partition stands at the position of its page if it is in place. -/
theorem InPlace.getElem?_answers {left : List Bytes} (h : InPlace lists left.length page)
    (hlt : pagePartition lists.length page < lists.length)
    (hlive : LiveAt lists (pagePartition lists.length page))
    (carried : Nat → List Bytes × Bytes) :
    (left ++ ((livePartitions lists).map carried).map Prod.snd)[pagePartition lists.length page]? =
      some (carried (pagePartition lists.length page)).2 := by
  have hplace := h.2 hlive
  have hself : (livePartitions lists)[pagePartition lists.length page - left.length]? =
      some (pagePartition lists.length page) :=
    (getElem?_filter_range_iff _ hlt (by simpa using hlive)).2 (by omega)
  rw [DeSearch.getElem?_answers, if_neg (by omega), hself]
  rfl

/-- And if it stands there whatever is answered, it is in place. Two sets of replies are enough: the
page's own partition and all others change their answers. -/
theorem inPlace_of_answers {left : List Bytes}
    (hlt : pagePartition lists.length page < lists.length)
    (h : ∀ reply carried, Replied R lists reply carried → ∃ shown,
      (left ++ ((livePartitions lists).map carried).map Prod.snd)[
        pagePartition lists.length page]? = some shown ∧
      (LiveAt lists (pagePartition lists.length page) →
        shown = (carried (pagePartition lists.length page)).2)) :
    InPlace lists left.length page := by
  rw [InPlace]
  generalize pagePartition lists.length page = k at hlt h
  have hrecv : ∀ word ∈ [ascii "alpha", ascii "beta"],
      recvReply (unsignedReply word) = some (unsignedReply word) := by decide +kernel
  rw [List.forall_mem_cons, List.forall_mem_singleton] at hrecv
  obtain ⟨halpha, hbeta⟩ := hrecv
  obtain ⟨shown, hat, hown⟩ := h _ _ (replied_two R lists k halpha hbeta)
  obtain ⟨shown', hat', hown'⟩ := h _ _ (replied_two R lists k hbeta halpha)
  rw [twoAnswers, if_pos rfl] at hown hown'
  refine ⟨by simpa using (List.getElem?_eq_some_iff.1 hat).1, fun hlive => ?_⟩
  rw [getElem?_answers, hown hlive] at hat
  rw [getElem?_answers, hown' hlive] at hat'
  split_ifs at hat hat' with hleft
  · exact absurd (Option.some.inj (hat.symm.trans hat')) (by decide)
  · obtain ⟨j, hj, hanswer⟩ := Option.map_eq_some_iff.1 hat
    have hsame : j = k := by
      by_contra hother
      rw [twoAnswers, if_neg hother] at hanswer
      exact absurd hanswer (by decide)
    subst hsame
    have hcount := (getElem?_filter_range_iff _ hlt (by simpa using hlive)).1 hj
    omega

/-- A search that can read the replies shows what stands at the position of the page. -/
theorem shown_iff (hne : lists ≠ []) (hshuffle : ∀ l, (shuffle l).Perm l)
    (hports : ∀ l ∈ lists, ∀ node ∈ l, HasPort R node) (hsplit : Splits path keywords page)
    (hpage : 1 ≤ page) {client : Client} (hreplied : Replied R lists reply carried)
    {shown : Bytes} :
    (∃ request client', goSearchAt R lists.length client path (asked shuffle lists reply) =
        (.ok (request, shown), client')) ↔
      (client.vResponse ++ ((livePartitions lists).map carried).map Prod.snd)[
        pagePartition lists.length page]? = some shown := by
  have hreplies := replies_asked hshuffle hports hreplied
  obtain ⟨list, hlist⟩ := hreplied.collects
  rw [← vectorAt_natCast, ← pagePos_eq_pagePartition (List.length_pos_iff.2 hne) hpage]
  simp only [goSearchAt_of_splits hsplit, searchFor_eq_ok]
  constructor
  · rintro ⟨request, client', -, all, -, hall, -, hat, -⟩
    rwa [List.right_unique_forall₂' replies_rightUnique hall hreplies] at hat
  · intro hat
    refine ⟨_, _, rfl, _, list, hreplies, ?_, hat, rfl⟩
    rw [List.map_map]
    exact hlist

/-- **Page selection.** For any number of partitions, any of them live, and any answers that earlier
searches left behind: a search shows nothing unless it can read the replies of all live partitions.
If it can, it reads `v_response` in range and shows the answer of the page's partition exactly if
there are enough answers and, in case the partition of the page is live, those left behind are as
many as the partitions missing before it. -/
theorem selection_iff (hne : lists ≠ []) (hshuffle : ∀ l, (shuffle l).Perm l)
    (hports : ∀ l ∈ lists, ∀ node ∈ l, HasPort R node) (hsplit : Splits path keywords page)
    (hpage : 1 ≤ page) (client : Client) :
    (∀ reply, (¬∃ carried, Replied R lists reply carried) → ∀ result client',
      goSearchAt R lists.length client path (asked shuffle lists reply) ≠ (.ok result, client')) ∧
    (ShownRight R shuffle lists client path page ↔
      InPlace lists client.vResponse.length page) := by
  have hlt := pagePartition_lt (List.length_pos_iff.2 hne) page
  refine ⟨fun reply hnone result client' hresult => ?_, ?_, ?_⟩
  · rw [goSearchAt_of_splits hsplit] at hresult
    obtain ⟨-, all, list, hall, hlist, -⟩ := searchFor_eq_ok.1 hresult
    exact hnone (exists_replied hshuffle hall hlist)
  · intro hright
    refine @inPlace_of_answers R lists page _ hlt fun reply carried hreplied => ?_
    obtain ⟨request, shown, client', hshown, hlive⟩ := hright reply carried hreplied
    refine ⟨shown, ?_, hlive⟩
    exact (shown_iff hne hshuffle hports hsplit hpage hreplied).1 ⟨request, client', hshown⟩
  · intro hplace reply carried hreplied
    have hin : pagePartition lists.length page <
        (client.vResponse ++ ((livePartitions lists).map carried).map Prod.snd).length := by
      simpa using hplace.1
    obtain ⟨request, client', hshown⟩ :=
      (shown_iff hne hshuffle hports hsplit hpage hreplied).2 (List.getElem?_eq_getElem hin)
    refine ⟨request, _, client', hshown, fun hlive => ?_⟩
    have hat := hplace.getElem?_answers hlt hlive carried
    rw [List.getElem?_eq_getElem hin] at hat
    exact Option.some.inj hat

/-- With nothing left behind, every page is in place exactly if every partition is live. -/
theorem inPlace_all_iff (hne : lists ≠ []) :
    (∀ page, 1 ≤ page → InPlace lists 0 page) ↔ ∀ i < lists.length, LiveAt lists i := by
  have hmax : 0 < lists.length := List.length_pos_iff.2 hne
  constructor
  · intro h i hi
    have hpage : pagePartition lists.length lists.length = lists.length - 1 := by
      rw [pagePartition, Int.emod_eq_of_lt (by omega) (by omega)]
      omega
    have hcount := (h lists.length (by omega)).1
    rw [hpage, livePartitions] at hcount
    have hall : (livePartitions lists).length = (List.range lists.length).length := by
      have hle := List.length_filter_le (fun i => decide (LiveAt lists i)) (List.range lists.length)
      rw [List.length_range] at hle ⊢
      rw [livePartitions]
      omega
    simpa using List.length_filter_eq_length_iff.1 hall i (List.mem_range.2 hi)
  · intro hlive page hpage
    have hlt := pagePartition_lt hmax page
    have hall : ∀ n ≤ lists.length, ((List.range n).filter fun i => LiveAt lists i).length = n := by
      intro n hn
      rw [List.filter_eq_self.2 fun i hi => ?_, List.length_range]
      have hi' := List.mem_range.1 hi
      simpa using hlive i (by omega)
    rw [InPlace, livePartitions, hall _ le_rfl, hall _ hlt.le]
    exact ⟨by omega, fun _ => by omega⟩

/-- All four partitions are live. -/
theorem selection_all_live : ShownRight sampleRuntime id
    [[sampleNode], [sampleNode], [sampleNode], [sampleNode]] .init (worldPath 2) 2 := by
  refine (selection_iff (by simp) List.Perm.refl ?_ (splits_worldPath (by decide) (by decide))
    (by decide) .init).2.2 ((inPlace_all_iff (by simp)).2 (by decide) 2 (by decide))
  intro l hl node hnode
  simp only [List.mem_cons, List.not_mem_nil, or_false, or_self] at hl
  rw [hl, List.mem_singleton] at hnode
  rw [hnode]
  exact hasPort_sampleNode

/-- The first of four partitions has no live node. Page 2 shows the answer of partition 3, and page
4 reads behind the last answer. -/
theorem missing_partition_shifts : ∃ reply answer : Nat → Bytes,
    (∀ i, ∃ ins, ins ≠ [] ∧ Carries sampleRuntime (reply i) ins (answer i)) ∧
    (goSearch sampleRuntime .init (worldPath 2)
      (asked id [[], [sampleNode], [sampleNode], [sampleNode]] reply)).1 =
        .ok (composeQuery (ascii "world") 1, answer 2) ∧ answer 2 ≠ answer 1 ∧
    (goSearch sampleRuntime .init (worldPath 4)
      (asked id [[], [sampleNode], [sampleNode], [sampleNode]] reply)).1 = .error .range := by
  -- partition 2 answers `alpha`, and the others answer `beta`
  have hcarries : ∀ i, Carries sampleRuntime
      (unsignedReply (twoAnswers 1 (ascii "alpha") (ascii "beta") i))
      [auditWitness.out, ascii "query"]
      ((string (twoAnswers 1 (ascii "alpha") (ascii "beta") i)).dump 1) := by
    intro i
    refine carries_unsignedReply ?_
    unfold twoAnswers
    split_ifs <;> decide +kernel
  have hreplies : ∀ i, Replies sampleRuntime
      (sampleNode, unsignedReply (twoAnswers 1 (ascii "alpha") (ascii "beta") i))
      ([auditWitness.out, ascii "query"],
        (string (twoAnswers 1 (ascii "alpha") (ascii "beta") i)).dump 1) :=
    fun i => ⟨hasPort_sampleNode, hcarries i⟩
  have hthree := List.Forall₂.cons (hreplies 1) (.cons (hreplies 2) (.cons (hreplies 3) .nil))
  have hshown : ∀ {page : Int}, 1 ≤ page → page ≤ 4 →
      goSearch sampleRuntime .init (worldPath page) (asked id
        [[], [sampleNode], [sampleNode], [sampleNode]] fun i =>
          unsignedReply (twoAnswers 1 (ascii "alpha") (ascii "beta") i)) = _ := fun h1 h4 =>
    (goSearchAt_of_splits (splits_worldPath h1 h4)).trans (searchFor_of_replies hthree rfl)
  refine ⟨_, _, fun i => ⟨_, by simp, hcarries i⟩, ?_, by decide, ?_⟩
  · rw [hshown (by decide) (by decide)]
    rfl
  · rw [hshown (by decide) (by decide)]
    rfl

end DeSearch
