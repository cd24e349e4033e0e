import DeSearch.Client
import DeSearch.Audit

/-!
# What a verified search says

`go_verify` audits the hashes that `go_search` took from the `IN` lists of the replies. Neither of
them looks at the signature of a querier's witness, at its `OUT`, or at the answer that is shown.

* `goSearchAt_eq_ok`: what a search collects and shows.
* `pass_covers_items_not_answer`: a pass says that everything the auditor expects lies below those
  hashes, and the verdict is the same for all replies with the same `IN` lists, whatever they
  answer.
* `unsigned_answer_passes`: so an answer that nobody signed passes.
-/

namespace DeSearch

open JSON Relation

variable {R : Runtime} {C : Crypto} {L : LastCharSort} {kb : Kanban}

/-! ## Replies -/

/-- A reply arrives, lists `ins` in its witness and gives an answer. -/
def Carries (R : Runtime) (reply : Bytes) (ins : List Bytes) (answer : Bytes) : Prop :=
  ∃ response parsed, recvReply reply = some response ∧ load R response = some parsed ∧
    readIn R ((parsed.get (ascii "witness")).dump 1) = some ins ∧
    (parsed.get (ascii "response")).dump 1 = answer

/-- Two nodes with the same description, whose replies list the same hashes. -/
def SameIn (R : Runtime) (node node' : Bytes × Bytes) : Prop :=
  node.1 = node'.1 ∧ ∃ ins answer answer', Carries R node.2 ins answer ∧
    Carries R node'.2 ins answer'

theorem Carries.unique {reply : Bytes} {ins ins' : List Bytes} {answer answer' : Bytes}
    (h : Carries R reply ins answer) (h' : Carries R reply ins' answer') :
    ins = ins' ∧ answer = answer' := by
  obtain ⟨response, parsed, hrecv, hload, hins, rfl⟩ := h
  obtain ⟨response', parsed', hrecv', hload', hins', rfl⟩ := h'
  obtain rfl := Option.some.inj (hrecv.symm.trans hrecv')
  obtain rfl := Option.some.inj (hload.symm.trans hload')
  exact ⟨Option.some.inj (hins.symm.trans hins'), rfl⟩

/-- The port of a node can be read from its description. -/
def HasPort (R : Runtime) (node : Bytes) : Prop :=
  ∃ info port, load R node = some info ∧ stoi ((info.get (ascii "port")).dump 1) = some port

/-- A node that can be asked, and what its reply lists and answers. -/
def Replies (R : Runtime) (node : Bytes × Bytes) (carried : List Bytes × Bytes) : Prop :=
  HasPort R node.1 ∧ Carries R node.2 carried.1 carried.2

theorem replies_rightUnique : Relator.RightUnique (Replies R) := by
  intro node carried carried' h h'
  obtain ⟨hins, hanswer⟩ := h.2.unique h'.2
  exact Prod.ext hins hanswer

/-- `witness_in_list` after some replies: each adds its `IN` list, and then the last entry goes. A
reply with an empty list takes an entry of those before it. -/
def collectIn : List Bytes → List (List Bytes) → Option (List Bytes)
  | list, [] => some list
  | list, ins :: inLists =>
      if list ++ ins = [] then none else collectIn (list ++ ins).dropLast inLists

/-- `go_search` cuts the path into these keywords and this page number. -/
def Splits (path keywords : Bytes) (page : Int) : Prop :=
  ∃ decoded qPage, urlDecode 0 none path = some decoded ∧
    splitPath decoded = some (keywords, qPage) ∧ wrapInt (strtol qPage) = page

section

variable {client client' client₁ : Client} {node node' : Bytes × Bytes}
  {nodes nodes' : List (Bytes × Bytes)} {carried : List (List Bytes × Bytes)} {poolMax : Nat}
  {path keywords sent answer : Bytes} {page : Int}

theorem orElse_eq_ok {α : Type} {fault : Fault} {o : Option α} {a : α} :
    fault.orElse o = .ok a ↔ o = some a := by
  cases o <;> simp [Fault.orElse]

theorem extractWitness_eq_ok {list list' : List Bytes} {witness : Bytes} :
    extractWitness R list witness = .ok list' ↔
      ∃ ins, readIn R witness = some ins ∧ list ++ ins ≠ [] ∧ (list ++ ins).dropLast = list' := by
  unfold extractWitness
  cases readIn R witness with
  | none => simp
  | some ins =>
      simp only [Option.some.injEq, exists_eq_left']
      split_ifs with hnil
      · exact iff_of_false (fun h => nomatch h) fun h => h.1 hnil
      · rw [Except.ok.injEq, and_iff_right hnil]

/-- What one turn of the search does. -/
theorem askNode_eq_ok : askNode R client node = .ok client₁ ↔
    ∃ carried, Replies R node carried ∧ client.witnessInList ++ carried.1 ≠ [] ∧
      client₁ = ⟨(client.witnessInList ++ carried.1).dropLast, client.vResponse ++ [carried.2],
        client.cache⟩ := by
  simp only [askNode, bind_eq_ok, orElse_eq_ok, extractWitness_eq_ok]
  constructor
  · rintro ⟨info, hinfo, port, hport, response, hrecv, parsed, hload, list, ⟨ins, hins, hnil, rfl⟩,
      heq⟩
    exact ⟨(ins, _), ⟨⟨info, port, hinfo, hport⟩, response, parsed, hrecv, hload, hins, rfl⟩, hnil,
      (Except.ok.inj heq).symm⟩
  · rintro ⟨⟨ins, answer⟩, ⟨⟨info, port, hinfo, hport⟩, response, parsed, hrecv, hload, hins, rfl⟩,
      hnil, rfl⟩
    exact ⟨info, hinfo, port, hport, response, hrecv, parsed, hload, _, ⟨ins, hins, hnil, rfl⟩, rfl⟩

/-- The loop gets to its end exactly if all nodes reply, and the list is never empty when an entry
has to go. -/
theorem askNodes_eq_none : askNodes R client nodes = (none, client₁) ↔
    ∃ carried, List.Forall₂ (Replies R) nodes carried ∧
      collectIn client.witnessInList (carried.map Prod.fst) = some client₁.witnessInList ∧
      client₁.vResponse = client.vResponse ++ carried.map Prod.snd ∧
      client₁.cache = client.cache := by
  induction nodes generalizing client with
  | nil =>
      simp only [List.forall₂_nil_left_iff, exists_eq_left, List.map_nil, List.append_nil,
        collectIn, askNodes, Prod.mk.injEq, true_and, Option.some.injEq]
      rw [Client.ext_iff]
      exact ⟨fun h => ⟨h.1, h.2.1.symm, h.2.2.symm⟩, fun h => ⟨h.1, h.2.1.symm, h.2.2.symm⟩⟩
  | cons node nodes ih =>
      rw [askNodes]
      constructor
      · intro h
        cases hask : askNode R client node with
        | error fault =>
            rw [hask] at h
            cases h
        | ok client₂ =>
            rw [hask] at h
            obtain ⟨carry, hreply, hnil, rfl⟩ := askNode_eq_ok.1 hask
            obtain ⟨carried, hreplies, hlist, hresponse, hcache⟩ := ih.1 h
            refine ⟨carry :: carried, .cons hreply hreplies, ?_, ?_, hcache⟩
            · rw [List.map_cons, collectIn, if_neg hnil]
              exact hlist
            · rw [hresponse, List.map_cons, List.append_assoc]
              rfl
      · rintro ⟨carried, hreplies, hlist, hresponse, hcache⟩
        cases hreplies with
        | @cons _ carry _ carried hreply hreplies =>
            rw [List.map_cons, collectIn] at hlist
            split_ifs at hlist with hnil
            rw [askNode_eq_ok.2 ⟨carry, hreply, hnil, rfl⟩]
            refine ih.2 ⟨carried, hreplies, hlist, ?_, hcache⟩
            rw [hresponse, List.map_cons, List.append_assoc]
            rfl

/-- A search that can read all replies shows the answer at the position of its page, if there is
one. -/
theorem searchFor_of_replies {list : List Bytes} (hreplies : List.Forall₂ (Replies R) nodes carried)
    (hlist : collectIn [] (carried.map Prod.fst) = some list) :
    searchFor R poolMax client keywords page nodes =
      match vectorAt (client.vResponse ++ carried.map Prod.snd) (pagePos poolMax page - 1) with
      | none => (.error .range, ⟨list, client.vResponse ++ carried.map Prod.snd, client.cache⟩)
      | some answer => (.ok (composeQuery keywords (realPage poolMax page), answer),
          ⟨list, [], client.cache⟩) := by
  have hask : askNodes R { client with witnessInList := [] } nodes =
      (none, ⟨list, client.vResponse ++ carried.map Prod.snd, client.cache⟩) :=
    askNodes_eq_none.2 ⟨carried, hreplies, hlist, rfl, rfl⟩
  cases hat : vectorAt (client.vResponse ++ carried.map Prod.snd) (pagePos poolMax page - 1) with
  | none => simp only [searchFor, hask, hat]
  | some answer => simp only [searchFor, hask, hat]

/-- What a search for some keywords collects and shows. -/
theorem searchFor_eq_ok :
    searchFor R poolMax client keywords page nodes = (.ok (sent, answer), client₁) ↔
      sent = composeQuery keywords (realPage poolMax page) ∧
      ∃ carried list, List.Forall₂ (Replies R) nodes carried ∧
        collectIn [] (carried.map Prod.fst) = some list ∧
        vectorAt (client.vResponse ++ carried.map Prod.snd) (pagePos poolMax page - 1) =
          some answer ∧ client₁ = ⟨list, [], client.cache⟩ := by
  constructor
  · intro h
    rw [searchFor] at h
    rcases hask : askNodes R { client with witnessInList := [] } nodes with ⟨_ | fault, client₂⟩
    · obtain ⟨carried, hreplies, hlist, hresponse, hcache⟩ := askNodes_eq_none.1 hask
      simp only [hask] at h
      split at h
      · cases h
      · next answer' hat =>
          obtain ⟨hok, rfl⟩ := Prod.mk.inj h
          obtain ⟨rfl, rfl⟩ := Prod.mk.inj (Except.ok.inj hok)
          refine ⟨rfl, carried, client₂.witnessInList, hreplies, hlist, hresponse ▸ hat, ?_⟩
          rw [hcache]
    · simp only [hask] at h
      cases h
  · rintro ⟨rfl, carried, list, hreplies, hlist, hat, rfl⟩
    rw [searchFor_of_replies hreplies hlist, hat]

theorem goSearchAt_of_splits (hsplit : Splits path keywords page) :
    goSearchAt R poolMax client path nodes = searchFor R poolMax client keywords page nodes := by
  obtain ⟨decoded, qPage, hdecode, hcut, rfl⟩ := hsplit
  simp only [goSearchAt, hdecode, hcut]

theorem goSearchAt_eq_ok :
    goSearchAt R poolMax client path nodes = (.ok (sent, answer), client₁) ↔
      ∃ keywords page, Splits path keywords page ∧
        searchFor R poolMax client keywords page nodes = (.ok (sent, answer), client₁) := by
  constructor
  · intro h
    cases hdecode : urlDecode 0 none path with
    | none =>
        simp only [goSearchAt, hdecode] at h
        cases h
    | some decoded =>
        cases hcut : splitPath decoded with
        | none =>
            simp only [goSearchAt, hdecode, hcut] at h
            cases h
        | some cut =>
            have hsplit : Splits path cut.1 (wrapInt (strtol cut.2)) :=
              ⟨decoded, cut.2, hdecode, hcut, rfl⟩
            exact ⟨_, _, hsplit, (goSearchAt_of_splits hsplit).symm.trans h⟩
  · rintro ⟨keywords, page, hsplit, h⟩
    rw [goSearchAt_of_splits hsplit, h]

/-- Replies with the same hashes carry other answers. -/
theorem exists_carried_of_sameIn (hsame : List.Forall₂ (SameIn R) nodes nodes')
    (h : List.Forall₂ (Replies R) nodes carried) :
    ∃ carried', List.Forall₂ (Replies R) nodes' carried' ∧
      carried'.map Prod.fst = carried.map Prod.fst := by
  induction hsame generalizing carried with
  | nil =>
      cases h
      exact ⟨[], .nil, rfl⟩
  | cons hnode _ ih =>
      cases h with
      | cons hreply hreplies =>
          obtain ⟨heq, ins, answer, answer', hcarry, hcarry'⟩ := hnode
          obtain ⟨carried', hreplies', hins⟩ := ih hreplies
          refine ⟨(ins, answer') :: carried', .cons ⟨heq ▸ hreply.1, hcarry'⟩ hreplies', ?_⟩
          rw [List.map_cons, List.map_cons, hins, (hreply.2.unique hcarry).1]

/-- An index in range of a vector is in range of every vector of that length. -/
theorem exists_vectorAt {v v' : List Bytes} {i : Int} {a : Bytes} (h : vectorAt v i = some a)
    (hlen : v.length = v'.length) : ∃ a', vectorAt v' i = some a' := by
  unfold vectorAt at h ⊢
  split_ifs at h ⊢ with hi
  obtain ⟨hlt, -⟩ := List.getElem?_eq_some_iff.1 h
  rw [hlen] at hlt
  exact ⟨_, List.getElem?_eq_getElem hlt⟩

theorem mem_of_vectorAt {v : List Bytes} {i : Int} {a : Bytes} (h : vectorAt v i = some a) :
    a ∈ v := by
  unfold vectorAt at h
  split_ifs at h
  exact List.mem_of_getElem? h

/-- Another set of answers to the same hashes is sent the same request, and collects the same. -/
theorem goSearch_sameIn (hsame : List.Forall₂ (SameIn R) nodes nodes')
    (h : goSearch R client path nodes = (.ok (sent, answer), client₁)) :
    ∃ answer', goSearch R client path nodes' = (.ok (sent, answer'), client₁) := by
  obtain ⟨keywords, page, hsplit, hsearch⟩ := goSearchAt_eq_ok.1 h
  obtain ⟨rfl, carried, list, hreplies, hlist, hat, rfl⟩ := searchFor_eq_ok.1 hsearch
  obtain ⟨carried', hreplies', hins⟩ := exists_carried_of_sameIn hsame hreplies
  have hlen : (client.vResponse ++ carried.map Prod.snd).length =
      (client.vResponse ++ carried'.map Prod.snd).length := by
    have hcount := congrArg List.length hins
    simp only [List.length_map] at hcount
    simp only [List.length_append, List.length_map, hcount]
  obtain ⟨answer', hat'⟩ := exists_vectorAt hat hlen
  refine ⟨answer', goSearchAt_eq_ok.2 ⟨keywords, page, hsplit, searchFor_eq_ok.2
    ⟨rfl, carried', list, hreplies', hins ▸ hlist, hat', rfl⟩⟩⟩

theorem exists_node_of_mem (h : List.Forall₂ (Replies R) nodes carried) {carry : List Bytes × Bytes}
    (hmem : carry ∈ carried) : ∃ node ∈ nodes, Replies R node carry := by
  induction h with
  | nil => exact absurd hmem List.not_mem_nil
  | @cons node _ nodes _ hreply _ ih =>
      rcases List.mem_cons.1 hmem with rfl | hmem
      · exact ⟨node, List.mem_cons_self, hreply⟩
      · obtain ⟨node', hnode', hreply'⟩ := ih hmem
        exact ⟨node', List.mem_cons_of_mem _ hnode', hreply'⟩

/-- A reply that lists these hashes. -/
def ListsIn (R : Runtime) (node : Bytes × Bytes) (ins : List Bytes) : Prop :=
  ∃ answer, Carries R node.2 ins answer

/-- A search that found no answers of earlier ones collects the hashes of the replies, and shows one
of their answers. -/
theorem goSearch_shows (h : goSearch R client path nodes = (.ok (sent, answer), client₁))
    (hempty : client.vResponse = []) :
    (∃ inLists, List.Forall₂ (ListsIn R) nodes inLists ∧
      collectIn [] inLists = some client₁.witnessInList) ∧
    ∃ node ∈ nodes, ∃ ins, Carries R node.2 ins answer := by
  obtain ⟨keywords, page, -, hsearch⟩ := goSearchAt_eq_ok.1 h
  obtain ⟨-, carried, list, hreplies, hlist, hat, rfl⟩ := searchFor_eq_ok.1 hsearch
  refine ⟨⟨carried.map Prod.fst, ?_, hlist⟩, ?_⟩
  · rw [List.forall₂_map_right_iff]
    exact hreplies.imp fun node carry hreply => ⟨_, hreply.2⟩
  · have hmem := mem_of_vectorAt hat
    rw [hempty, List.nil_append] at hmem
    obtain ⟨carry, hcarry, rfl⟩ := List.mem_map.1 hmem
    obtain ⟨node, hnode, hreply⟩ := exists_node_of_mem hreplies hcarry
    exact ⟨node, hnode, carry.1, hreply.2⟩

end

/-! ## Verdicts -/

/-- What the web server shows if `go_verify` does not run the auditor. -/
def placeholder : Bytes := verifyResponse (ascii "Please search first!")

theorem verifyResponse_injective : Function.Injective verifyResponse := by
  have hdump : ∀ v : JSON, (null.set (ascii "results") v).dump 1 =
      ascii "\x7b\n  \"results\" : " ++ (v.dump 2 ++ ascii "\n\x7d") := by
    intro v
    simp only [JSON.set, dump, dumpMembers, List.append_assoc]
    rfl
  intro results results' h
  rw [verifyResponse, verifyResponse, hdump, hdump] at h
  exact JSON.string.inj (dump_append_eq_string (List.append_cancel_left h)).1

theorem verifyResults_ne (epoch : Bytes) (pass : Bool) :
    verifyResults epoch pass ≠ ascii "Please search first!" := by
  intro h
  exact absurd (List.cons.inj h).1 (by decide)

theorem pass_of_verifyResults {epoch epoch' : Bytes} {pass : Bool}
    (h : verifyResults epoch pass = verifyResults epoch' true) : pass = true := by
  cases pass with
  | true => rfl
  | false =>
      have hlast := congrArg List.getLast? h
      rw [verifyResults, verifyResults, List.getLast?_append_of_ne_nil _ (by decide),
        List.getLast?_append_of_ne_nil _ (by decide)] at hlast
      exact absurd hlast (by decide)

/-- How `go_verify` comes to show a pass. -/
theorem goVerify_pass {fuel : Nat} {client client' : Client} {epoch : Bytes}
    (h : goVerify R C L kb fuel client placeholder =
      some (verifyResponse (verifyResults epoch true), client')) :
    ∃ E, getEpochInt R C kb = some E ∧ 3 ≤ E ∧
      (client.cache.Hit E (client.witnessInList.map escape) ∨
        slowPath R C L kb fuel E (client.witnessInList.map escape) = some true) := by
  unfold goVerify at h
  split_ifs at h with hnil
  · have heq := verifyResponse_injective (Prod.mk.inj (Option.some.inj h)).1
    exact absurd heq.symm (verifyResults_ne _ _)
  · obtain ⟨⟨results, cache⟩, hverify, heq⟩ := Option.map_eq_some_iff.1 h
    obtain rfl : results = verifyResults epoch true :=
      verifyResponse_injective (Prod.mk.inj heq).1
    obtain ⟨currentEpoch, hepoch, hverify⟩ := Option.bind_eq_some_iff.1 hverify
    obtain ⟨E, hE, hverify⟩ := Option.bind_eq_some_iff.1 hverify
    refine ⟨E, hE, ?_⟩
    split_ifs at hverify with hlt
    · exact absurd (Prod.mk.inj (Option.some.inj hverify)).1.symm (verifyResults_ne _ _)
    · obtain ⟨scratchPad, hpad, hverify⟩ := Option.bind_eq_some_iff.1 hverify
      obtain rfl := Option.some.inj ((readIn_verifyIn _).symm.trans hpad)
      refine ⟨by omega, ?_⟩
      split_ifs at hverify with hhit
      · exact .inl hhit
      · obtain ⟨pass, hslow, heq⟩ := Option.bind_eq_some_iff.1 hverify
        obtain rfl := pass_of_verifyResults (Prod.mk.inj (Option.some.inj heq)).1
        exact .inr hslow

/-- **What a pass covers.** After a search that found no answers of earlier ones, the auditor is
handed the hashes collected from the replies, and the answer shown is that of a reply. A pass that
does not come from the cache says that all the auditor expects can be reached from those hashes.
Every other set of replies with the same hashes gives the same verdict, whatever is answered. -/
theorem pass_covers_items_not_answer (client client₁ : Client) (path sent answer : Bytes)
    (nodes nodes' : List (Bytes × Bytes)) (hempty : client.vResponse = [])
    (hsame : List.Forall₂ (SameIn R) nodes nodes')
    (hsearch : goSearch R client path nodes = (.ok (sent, answer), client₁)) :
    ((∃ inLists, List.Forall₂ (ListsIn R) nodes inLists ∧
        collectIn [] inLists = some client₁.witnessInList) ∧
      ∃ node ∈ nodes, ∃ ins, Carries R node.2 ins answer) ∧
    ∃ answer' client₁', goSearch R client path nodes' = (.ok (sent, answer'), client₁') ∧
      (∃ node ∈ nodes', ∃ ins, Carries R node.2 ins answer') ∧
      ∀ kb fuel, goVerify R C L kb fuel client₁' placeholder =
          goVerify R C L kb fuel client₁ placeholder ∧
        ∀ epoch client₂, goVerify R C L kb fuel client₁ placeholder =
            some (verifyResponse (verifyResults epoch true), client₂) →
          ∃ E, getEpochInt R C kb = some E ∧
            (client₁.cache.Hit E (client₁.witnessInList.map escape) ∨
              ∀ h, Listed R C L kb E h →
                ∃ y ∈ client₁.witnessInList.map escape, ReflTransGen (Points R C kb) y h) := by
  obtain ⟨answer', hsearch'⟩ := goSearch_sameIn hsame hsearch
  refine ⟨goSearch_shows hsearch hempty, answer', client₁, hsearch',
    (goSearch_shows hsearch' hempty).2, fun kb fuel => ⟨rfl, ?_⟩⟩
  intro epoch client₂ hpass
  obtain ⟨E, hE, -, hhit | hslow⟩ := goVerify_pass hpass
  · exact ⟨E, hE, .inl hhit⟩
  · refine ⟨E, hE, .inr fun h hlisted => ?_⟩
    obtain ⟨leaves, items, hleaves, hitems, hall⟩ := slowPath_eq_true.1 hslow
    have hleaf := hall h ((mem_expectedSet hitems h).2 hlisted)
    exact ((mem_retrievedSet hleaves h).1 hleaf).2

/-! ## An answer nobody signed -/

/-- How a querier registers. -/
def sampleNode : Bytes := ascii "\x7b \"addr\" : \"127.0.0.1\", \"port\" : 8080 \x7d"

/-- A reply with any answer, and a witness that is no more than an `IN` list. -/
def unsignedReply (answer : Bytes) : Bytes :=
  (object [(ascii "response", string answer), (ascii "witness", object [(ascii "IN",
    array ([auditWitness.out, ascii "query"].map string))])]).dump 1

theorem hasPort_sampleNode : HasPort sampleRuntime sampleNode := by
  have hport : ((load sampleRuntime sampleNode).bind fun info =>
      stoi ((info.get (ascii "port")).dump 1)) = some 8080 := by decide +kernel
  obtain ⟨info, hload, hstoi⟩ := Option.bind_eq_some_iff.1 hport
  exact ⟨info, 8080, hload, hstoi⟩

theorem escape_auditWitness_out : escape auditWitness.out = auditWitness.out :=
  escape_of_hex filled_auditWitness.hex.2.1

theorem carries_unsignedReply {answer : Bytes}
    (h : recvReply (unsignedReply answer) = some (unsignedReply answer)) :
    Carries R (unsignedReply answer) [auditWitness.out, ascii "query"]
      ((string answer).dump 1) := by
  have hplain : Plain (object [(ascii "response", string answer), (ascii "witness",
      object [(ascii "IN", array ([auditWitness.out, ascii "query"].map string))])]) := by
    refine ⟨⟨⟨ascii "response", rfl⟩, trivial, ⟨ascii "witness", rfl⟩, ⟨⟨⟨ascii "IN", rfl⟩,
      plainElems_strings _, trivial⟩, List.pairwise_singleton _ _⟩, trivial⟩, ?_⟩
    change [ascii "response", ascii "witness"].Pairwise (· < ·)
    decide
  refine ⟨_, _, h, load_dump hplain 1, ?_, rfl⟩
  refine (readIn_verifyIn [auditWitness.out, ascii "query"]).trans ?_
  rw [List.map_cons, escape_auditWitness_out]
  rfl

/-- The search for one word, with one querier. -/
theorem goSearch_unsignedReply {answer : Bytes}
    (h : recvReply (unsignedReply answer) = some (unsignedReply answer)) :
    goSearch sampleRuntime .init (ascii "/query/world/page/1")
        [(sampleNode, unsignedReply answer)] =
      (.ok (composeQuery (ascii "world") 1, (string answer).dump 1),
        ⟨[auditWitness.out], [], .init⟩) := by
  have hsplit : Splits (ascii "/query/world/page/1") (ascii "world") 1 :=
    ⟨ascii "/query/world/page/1", ascii "1", by decide +kernel, by decide +kernel,
      by decide +kernel⟩
  refine goSearchAt_eq_ok.2 ⟨_, _, hsplit, searchFor_eq_ok.2 ⟨rfl,
    [([auditWitness.out, ascii "query"], (string answer).dump 1)], [auditWitness.out], ?_, rfl, rfl,
    rfl⟩⟩
  exact .cons ⟨hasPort_sampleNode, carries_unsignedReply h⟩ .nil

theorem goVerify_auditWitness :
    goVerify sampleRuntime sampleCrypto sampleDeployment.sort intactStore 3
        ⟨[auditWitness.out], [], .init⟩ placeholder =
      some (verifyResponse (verifyResults (ascii "3") true),
        ⟨[auditWitness.out], [], ⟨[auditWitness.out], 3⟩⟩) := by
  have hslow := slowPath_intactStore retrievedSet_intactStore List.mem_cons_self
  have hread : readIn sampleRuntime (verifyIn [auditWitness.out]) = some [auditWitness.out] := by
    rw [readIn_verifyIn, List.map_singleton, escape_auditWitness_out]
  have hmiss : ¬VerifyCache.init.Hit 3 [auditWitness.out] := fun h => h.2.1 rfl
  rw [goVerify, if_neg (List.cons_ne_nil _ _), doLocalVerify_slow getEpoch_intactStore
    ledgerAt_intactStore.epoch le_rfl hread hmiss hslow, Option.map_some, if_pos rfl]

/-- A reply with a made-up answer and an unsigned witness is searched, audited and passed. -/
theorem unsigned_answer_passes :
    Unforged sampleRuntime sampleCrypto (· = auditWitness) intactStore ∧
      ∃ sent answer client client', goSearch sampleRuntime .init (ascii "/query/world/page/1")
          [(sampleNode, unsignedReply (ascii "made up"))] = (.ok (sent, answer), client) ∧
        goVerify sampleRuntime sampleCrypto sampleDeployment.sort intactStore 3 client
          placeholder = some (verifyResponse (verifyResults (ascii "3") true), client') ∧
        ¬∃ context, context = auditWitness ∧ context.out = sampleCrypto.sha256 answer := by
  refine ⟨unforged_of_auditWitness fun k w hw => hget_emptiedStore hw, _, _, _, _,
    goSearch_unsignedReply (by decide +kernel), goVerify_auditWitness, ?_⟩
  rintro ⟨context, rfl, hout⟩
  exact absurd hout (by decide +kernel)

/-- Two answers, one verdict. -/
theorem pass_covers_items_not_answer_sample :
    ∃ answer' client₁', goSearch sampleRuntime .init (ascii "/query/world/page/1")
        [(sampleNode, unsignedReply (ascii "another"))] =
          (.ok (composeQuery (ascii "world") 1, answer'), client₁') ∧
      (goVerify sampleRuntime sampleCrypto sampleDeployment.sort intactStore 3 client₁'
          placeholder).map Prod.fst =
        some (verifyResponse (verifyResults (ascii "3") true)) := by
  have hsame : List.Forall₂ (SameIn sampleRuntime)
      [(sampleNode, unsignedReply (ascii "made up"))]
      [(sampleNode, unsignedReply (ascii "another"))] :=
    .cons ⟨rfl, _, _, _, carries_unsignedReply (by decide +kernel),
      carries_unsignedReply (by decide +kernel)⟩ .nil
  obtain ⟨-, answer', client₁', hsearch, -, hverdict⟩ :=
    pass_covers_items_not_answer (C := sampleCrypto) (L := sampleDeployment.sort) _ _ _ _ _ _ _
      rfl hsame (goSearch_unsignedReply (by decide +kernel))
  refine ⟨answer', client₁', hsearch, ?_⟩
  rw [(hverdict intactStore 3).1, goVerify_auditWitness]
  rfl

end DeSearch
