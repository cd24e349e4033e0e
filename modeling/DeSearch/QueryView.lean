import DeSearch.CircuitQuerier

/-!
# What the host sees of a query

The host that keeps the trees of the two Circuit ORAMs sees which instance is accessed and for which
leaves. The leaves tell nothing (`CircuitView.lean`), but the number of accesses does: a query makes
one for each block that the posting lists of its words touch, and one for each digest on its page.

* `view_of_pattern`: nothing else shows. Requests with the same numbers of accesses have the same
  views, up to the order of the random numbers.
* `pattern_of_view`: these numbers do show, in every single view.
-/

namespace DeSearch

open Calls

variable {P : Platform} {O : HashOrder} {blob : Bytes} {q : Querier}

/-! ## Views of two instances -/

/-- What the host sees of calls: the instance and the leaves. -/
def ztView : ZtState → List ZtCall → List (OramInstance × HostCall)
  | _, [] => []
  | s, c :: cs =>
      match ztAccess c s with
      | .ok (_, s') =>
          (accessCalls c.inst.params ((s.circuits c.inst).posmap c.id)
            (s.circuits c.inst).accessCounter).map (Prod.mk c.inst) ++ ztView s' cs
      | .error _ => []

/-- What the host sees of a program. -/
def hostSees {α : Type} (x : ZtProg α) (s : ZtState) : List (OramInstance × HostCall) :=
  ztView s (calls ztAccess x s)

/-- What the host sees of accesses with these leaves. -/
def instCalls : (OramInstance → BitVec 32) → List (OramInstance × Nat) →
    List (OramInstance × HostCall)
  | _, [] => []
  | counters, (inst, leaf) :: rest =>
      (accessCalls inst.params leaf (counters inst)).map (Prod.mk inst) ++
        instCalls (Function.update counters inst (nextCounter inst.params (counters inst))) rest

/-- The entry of `posmap` that a call looks up. -/
def ZtCall.key (c : ZtCall) : OramInstance × Nat := (c.inst, c.id)

/-- The label that replaces it. -/
def keyLabel (key : OramInstance × Nat) : BitVec 32 → Nat := newLabel key.1.params key.2

/-- The two position maps as one table. -/
def ZtState.table (s : ZtState) (key : OramInstance × Nat) : Nat := (s.circuits key.1).posmap key.2

/-- `access_counter[0]` of both. -/
def ZtState.counters (s : ZtState) (inst : OramInstance) : BitVec 32 :=
  (s.circuits inst).accessCounter

/-- The call is in range. -/
def ZtCall.InRange (c : ZtCall) : Prop := c.id < c.inst.params.maxBlocks

/-- The state after a call in range. -/
def ZtState.next (c : ZtCall) (s : ZtState) : ZtState where
  circuits := Function.update s.circuits c.inst
    (c.inst.params.step ⟨c.id, c.op, (s.tape 0).toNat⟩ (s.circuits c.inst))
  tape := fun i => s.tape (i + 1)

theorem ztAccess_eq {c : ZtCall} (h : c.InRange) (s : ZtState) :
    ∃ dataOut, ztAccess c s = .ok (dataOut, s.next c) := by
  unfold ZtCall.InRange at h
  unfold ztAccess ZtState.next CircuitParams.step
  rw [if_pos h]
  generalize access c.inst.params (s.circuits c.inst) _ = r
  exact ⟨r.1.getD [], rfl⟩

theorem counters_next (c : ZtCall) (s : ZtState) : (s.next c).counters =
    Function.update s.counters c.inst (nextCounter c.inst.params (s.counters c.inst)) := by
  funext inst
  by_cases heq : inst = c.inst
  · subst heq
    simp only [ZtState.counters, ZtState.next, Function.update_self, accessCounter_step]
  · simp only [ZtState.counters, ZtState.next, Function.update_of_ne heq]

theorem table_next (c : ZtCall) (s : ZtState) : (s.next c).table =
    Function.update s.table c.key (keyLabel c.key (s.tape 0)) := by
  funext key
  obtain ⟨inst, id⟩ := key
  obtain ⟨inst', id', op⟩ := c
  by_cases heq : inst = inst'
  · subst heq
    simp only [ZtState.table, ZtState.next, Function.update_self, posmap_step]
    by_cases hid : id = id'
    · subst hid
      simp only [ZtCall.key, Function.update_self]
      rfl
    · have hkey : (inst, id) ≠ (inst, id') := fun h => hid (Prod.mk.inj h).2
      simp only [ZtCall.key, Function.update_of_ne hid, Function.update_of_ne hkey, ZtState.table]
  · have hkey : (inst, id) ≠ (inst', id') := fun h => heq (Prod.mk.inj h).1
    simp only [ZtState.table, ZtState.next, ZtCall.key, Function.update_of_ne heq,
      Function.update_of_ne hkey]

/-- The view shows the labels that the calls look up, and nothing else of them. -/
theorem ztView_eq (cs : List ZtCall) (h : ∀ c ∈ cs, c.InRange) (s : ZtState) :
    ztView s cs = instCalls s.counters ((cs.map ZtCall.inst).zip
      (Reveal.trace keyLabel s.table (cs.map ZtCall.key) s.tape)) := by
  induction cs generalizing s with
  | nil => rfl
  | cons c cs ih =>
      rw [List.forall_mem_cons] at h
      obtain ⟨dataOut, haccess⟩ := ztAccess_eq h.1 s
      rw [ztView, haccess]
      dsimp only
      rw [ih h.2, counters_next, table_next]
      rfl

/-- Calls for blocks that calls in range were for. -/
theorem inRange_append {fill cs : List ZtCall} (hrange : ∀ c ∈ fill, c.InRange)
    (hkey : ∀ c ∈ cs, c.key ∈ fill.map ZtCall.key) : ∀ c ∈ fill ++ cs, c.InRange := by
  intro c hc
  rw [List.mem_append] at hc
  obtain hc | hc := hc
  · exact hrange c hc
  · obtain ⟨d, hd, heq⟩ := List.mem_map.1 (hkey c hc)
    obtain ⟨hi, hid⟩ := Prod.mk.inj heq
    have hd' := hrange d hd
    unfold ZtCall.InRange at hd' ⊢
    rwa [← hi, ← hid]

/-- Two sequences of calls for the same instances, each for blocks of a common first part. -/
theorem exists_perm_ztView {fill cs cs' : List ZtCall}
    (hinst : cs.map ZtCall.inst = cs'.map ZtCall.inst)
    (hkey : ∀ c ∈ cs, c.key ∈ fill.map ZtCall.key) (hkey' : ∀ c ∈ cs', c.key ∈ fill.map ZtCall.key)
    (hrange : ∀ c ∈ fill, c.InRange) :
    ∃ n, ∃ π : Equiv.Perm (Fin n), ∀ s s' : ZtState, s.circuits = s'.circuits →
      (∀ j, s'.tape (π j) = s.tape j) → ztView s (fill ++ cs) = ztView s' (fill ++ cs') := by
  have halike : Reveal.Alike ((fill ++ cs).map ZtCall.key) ((fill ++ cs').map ZtCall.key) := by
    have hlen := congrArg List.length hinst
    rw [List.map_append, List.map_append]
    apply Reveal.alike_append
    · simpa using hlen
    · simpa using hkey
    · simpa using hkey'
  have hinsts : (fill ++ cs).map ZtCall.inst = (fill ++ cs').map ZtCall.inst := by
    rw [List.map_append, List.map_append, hinst]
  have hlabel : ∀ (i : ℕ) (k k' : OramInstance × Nat),
      ((fill ++ cs).map ZtCall.key)[i]? = some k → ((fill ++ cs').map ZtCall.key)[i]? = some k' →
        keyLabel k = keyLabel k' := by
    intro i k k' hk hk'
    have hget := congrArg (·[i]?) hinsts
    rw [List.getElem?_map] at hk hk'
    simp only [List.getElem?_map] at hget
    cases hc : (fill ++ cs)[i]? with
    | none =>
        rw [hc] at hk
        cases hk
    | some c =>
        cases hc' : (fill ++ cs')[i]? with
        | none =>
            rw [hc'] at hk'
            cases hk'
        | some c' =>
            rw [hc] at hk hget
            rw [hc'] at hk' hget
            cases hk
            cases hk'
            exact congrArg (fun inst : OramInstance => newLabel inst.params 0)
              (Option.some.inj hget)
  obtain ⟨π, hπ⟩ := halike.exists_trace_eq hlabel
  refine ⟨_, π, ?_⟩
  intro s s' hsame htape
  have htable : s.table = s'.table := by
    unfold ZtState.table
    rw [hsame]
  have hcounters : s.counters = s'.counters := by
    unfold ZtState.counters
    rw [hsame]
  rw [ztView_eq _ (inRange_append hrange hkey), ztView_eq _ (inRange_append hrange hkey'), hinsts,
    ← htable, ← hcounters, hπ s.table s.tape s'.tape htape]

/-! ## The calls of a request -/

/-- The blocks that hold the posting list of a word. -/
def wordBlocks (layout : List (DWord × Nat × Nat)) (wordID : DWord) : List Nat :=
  match layout.lookup wordID with
  | none => []
  | some (offset, length) =>
      if length = 0 then []
      else (List.range ((offset + length) / blockSize - offset / blockSize + 1)).map
        (offset / blockSize + ·)

/-- The reads of a query: the blocks of its words, then those of the digests on its page. -/
def queryCalls (layout : List (DWord × Nat × Nat)) (q : Querier) (query : Query) : List ZtCall :=
  query.words.flatMap (fun w => (wordBlocks layout w).map fun id => ⟨.index, id, .read⟩) ++
    (shownDocs q query).map fun docID => ⟨.digest, (docID - 1).toNat / 2, .read⟩

/-- The reads of a request. One without keywords or page makes none. -/
def requestCalls (P : Platform) (layout : List (DWord × Nat × Nat)) (q : Querier)
    (request : Bytes) : List ZtCall :=
  match parseRequest P request with
  | .ok (some query) => queryCalls layout q query
  | _ => []

section
variable {oq : OramQuerier} {α β : Type}

/-- On arrays that hold the model's blocks, the program makes these calls. -/
def Makes (oq : OramQuerier) (x : ZtProg α) (cs : List ZtCall) : Prop :=
  ∀ t, Mirrors t oq → calls arrayAccess x t = cs

theorem Computes.exists_run {x : ZtProg α} {a : α} (h : Computes oq x (.ok a)) {t : ZtArrays}
    (ht : Mirrors t oq) : ∃ t', run arrayAccess x t = .ok (a, t') ∧ Mirrors t' oq := by
  have hagree := h t ht
  generalize run arrayAccess x t = r at hagree
  cases hagree with
  | ok _ hm => exact ⟨_, rfl, hm⟩

theorem Makes.bind {x : ZtProg α} {a : α} {f : α → ZtProg β} {cs cs' : List ZtCall}
    (hx : Computes oq x (.ok a)) (hcs : Makes oq x cs) (hcs' : Makes oq (f a) cs') :
    Makes oq (x >>= f) (cs ++ cs') := by
  intro t ht
  obtain ⟨t', hrun, ht'⟩ := hx.exists_run ht
  rw [calls_bind_of_ok hrun, hcs t ht, hcs' t' ht']

theorem Makes.lift_bind {a : α} {f : α → ZtProg β} {cs : List ZtCall} (h : Makes oq (f a) cs) :
    Makes oq (Prog.lift (.ok a) >>= f) cs :=
  h

theorem Makes.bind_last {x : ZtProg α} {a : α} {f : α → ZtProg β} {cs : List ZtCall}
    (hx : Computes oq x (.ok a)) (hcs : Makes oq x cs) (hlast : Makes oq (f a) []) :
    Makes oq (x >>= f) cs := by
  have h := Makes.bind hx hcs hlast
  rwa [List.append_nil] at h

theorem makes_lift (y : Except Fault α) : Makes oq (Prog.lift y) [] := fun _ _ => calls_lift y

theorem Makes.mapM {f : β → ZtProg α} {g : β → α} {cs : β → List ZtCall} {l : List β}
    (hf : ∀ b ∈ l, Computes oq (f b) (.ok (g b))) (h : ∀ b ∈ l, Makes oq (f b) (cs b)) :
    Makes oq (l.mapM f) (l.flatMap cs) := by
  induction l with
  | nil => exact makes_lift (.ok [])
  | cons b l ih =>
      rw [List.forall_mem_cons] at hf h
      have hrest : Computes oq (l.mapM f) (.ok (l.map g)) := by
        have hmap := Computes.mapM hf.2
        rwa [mapM_eq_ok fun _ _ => rfl] at hmap
      rw [List.mapM_cons, List.flatMap_cons]
      exact Makes.bind hf.1 h.1 (Makes.bind_last hrest (ih hf.2 h.2) (makes_lift (.ok _)))

theorem makes_ztRead {inst : OramInstance} (id : Nat) :
    Makes oq (ztRead inst id) [⟨inst, id, .read⟩] :=
  fun _ _ => calls_access _

theorem makes_digestAtZt (docID : DWord) :
    Makes oq (digestAtZt docID) [⟨.digest, (docID - 1).toNat / 2, .read⟩] := by
  intro t _
  unfold digestAtZt ztRead Prog.access
  dsimp only
  rw [Prog.call_bind, calls]
  split <;> rfl

theorem makes_lookupZt {w : DWord}
    (h : ∀ id ∈ wordBlocks oq.layout w, id < oq.indexOram.count) :
    Makes oq (lookupZt oq.layout w)
      ((wordBlocks oq.layout w).map fun id => ⟨.index, id, .read⟩) := by
  unfold wordBlocks at h
  unfold lookupZt wordBlocks
  cases hw : oq.layout.lookup w with
  | none => exact makes_lift (.ok [])
  | some r =>
      obtain ⟨offset, length⟩ := r
      rw [hw] at h
      dsimp only at h ⊢
      split_ifs at h ⊢ with hlen
      · exact makes_lift (.ok [])
      · have hread : ∀ k ∈ List.range ((offset + length) / blockSize - offset / blockSize + 1),
            Computes oq (ztRead .index (offset / blockSize + k))
              (.ok (oq.indexOram.blocks (offset / blockSize + k))) := by
          intro k hk
          have hok : oq.indexOram.read (offset / blockSize + k) = .ok _ :=
            if_pos (h _ (List.mem_map.2 ⟨k, hk, rfl⟩))
          rw [← hok]
          exact computes_ztRead (fun _ ht => ht.index) _
        have hblocks := Computes.mapM hread
        rw [mapM_eq_ok fun _ _ => rfl] at hblocks
        have hcalls := Makes.mapM hread fun k _ => makes_ztRead (offset / blockSize + k)
        have hread : Computes oq (readBlocksZt (offset / blockSize) ((offset + length) / blockSize))
            (.ok _) := hblocks.bind fun blocks => Computes.lift (.ok blocks.flatten)
        have hcalls : Makes oq (readBlocksZt (offset / blockSize) ((offset + length) / blockSize))
            _ := Makes.bind_last hblocks hcalls (makes_lift (.ok _))
        rw [List.map_map, List.map_eq_flatMap]
        exact Makes.bind_last hread hcalls (makes_lift _)

/-- The calls of a query whose reads are in range. -/
theorem makes_resultsZt {query : Query} (h : SetUp P blob q) (hsim : Simulates oq q)
    (hpage : Readable q query)
    (hindex : ∀ w ∈ query.words, ∀ id ∈ wordBlocks oq.layout w, id < oq.indexOram.count)
    (hdigest : ∀ docID ∈ shownDocs q query,
      oramDigestAt oq docID = .ok (digestOf q.digest docID)) :
    Makes oq (resultsZt oq.layout query) (queryCalls oq.layout q query) := by
  have hlookup : ∀ w ∈ query.words, Computes oq (lookupZt oq.layout w) (.ok (q.index.find w)) := by
    intro w _
    rw [← hsim.lookup w]
    exact computes_lookupZt w
  have hlists := Computes.mapM hlookup
  rw [mapM_eq_ok fun _ _ => rfl] at hlists
  have hfetch : ∀ docID ∈ shownDocs q query, Computes oq (digestAtZt docID)
      (.ok (digestOf q.digest docID)) := by
    intro docID hdoc
    rw [← hdigest docID hdoc]
    exact computes_digestAtZt docID
  have hfound := Computes.mapM hfetch
  rw [mapM_eq_ok fun _ _ => rfl] at hfound
  have hreads : Makes oq ((shownDocs q query).mapM digestAtZt)
      ((shownDocs q query).map fun docID => ⟨.digest, (docID - 1).toNat / 2, .read⟩) := by
    rw [List.map_eq_flatMap]
    exact Makes.mapM hfetch fun docID _ => makes_digestAtZt docID
  unfold resultsZt queryCalls
  apply Makes.bind hlists (Makes.mapM hlookup fun w hw => makes_lookupZt (hindex w hw))
  rw [← matchList, h.pageDocs_eq hpage]
  exact Makes.lift_bind (Makes.bind_last hfound hreads (makes_lift (.ok _)))

/-- The calls of a request that is answered. -/
theorem makes_doQueryZt (h : SetUp P blob q) (hsim : Simulates oq q) {request : Bytes} {size : Nat}
    {response : Bytes} (hanswer : ecallDoQuery P q request size = .ok response)
    (hindex : ∀ w, ∀ id ∈ wordBlocks oq.layout w, id < oq.indexOram.count) :
    Makes oq (doQueryZt P oq.statics request size) (requestCalls P oq.layout q request) := by
  unfold requestCalls doQueryZt
  cases hparse : parseRequest P request with
  | error e =>
      rw [ecallDoQuery, hparse] at hanswer
      cases hanswer
  | ok parsed =>
      cases parsed with
      | none => exact Makes.lift_bind (makes_lift (.ok []))
      | some query =>
          have hpage : Readable q query := by
            by_contra hnot
            rw [ecallDoQuery_overflow h hparse hnot] at hanswer
            cases hanswer
          have hdigest : ∀ docID ∈ shownDocs q query,
              oramDigestAt oq docID = .ok (digestOf q.digest docID) := by
            intro docID hdoc
            obtain ⟨w, -, hmem⟩ :=
              exists_word_of_mem (List.mem_of_mem_drop (List.mem_of_mem_take hdoc))
            rw [hsim.digestAt w docID hmem]
            exact (h.digestAt_shown hdoc).1
          have hresults := makes_resultsZt h hsim hpage (fun w _ => hindex w) hdigest
          have hcomputes := @computes_resultsZt oq query
          rw [hsim.results, queryResults_eq h hpage] at hcomputes
          apply Makes.lift_bind
          refine Makes.bind_last hcomputes hresults ?_
          rw [finalResponse_eq]
          exact Makes.lift_bind (makes_lift (.ok _))

end

/-! ## The calls of the setup -/

section
variable {α : Type} {t t' : ZtArrays}

theorem touched_arrayAccess {c : ZtCall} {r : Bytes × ZtArrays} (h : arrayAccess c t = .ok r) :
    c.InRange ∧ r.2.touched = Function.update t.touched c.inst (c.id :: t.touched c.inst) := by
  rw [arrayAccess] at h
  split_ifs at h with hid
  cases h
  exact ⟨hid, rfl⟩

/-- What a run on arrays has touched is what it has called. -/
theorem touched_of_run {x : ZtProg α} {a : α} (h : run arrayAccess x t = .ok (a, t')) :
    (∀ c ∈ calls arrayAccess x t, c.InRange) ∧ ∀ inst id,
      id ∈ t'.touched inst ↔
        id ∈ t.touched inst ∨ (inst, id) ∈ (calls arrayAccess x t).map ZtCall.key := by
  induction x generalizing t with
  | done b =>
      cases h
      exact ⟨fun c hc => absurd hc List.not_mem_nil, fun inst id => by simp [calls]⟩
  | fail e => cases h
  | call c next ih =>
      rw [run] at h
      rw [calls]
      cases hc : arrayAccess c t with
      | error e =>
          rw [hc] at h
          cases h
      | ok r =>
          rw [hc] at h
          obtain ⟨hrange, htouched⟩ := ih r.1 h
          obtain ⟨hid, hnext⟩ := touched_arrayAccess hc
          refine ⟨List.forall_mem_cons.2 ⟨hid, hrange⟩, ?_⟩
          intro inst id
          rw [htouched, hnext, List.map_cons, List.mem_cons, ZtCall.key]
          by_cases heq : inst = c.inst
          · subst heq
            rw [Function.update_self, List.mem_cons, Prod.mk.injEq, or_assoc]
            simp only [true_and]
            exact or_left_comm
          · have hkey : (inst, id) ≠ (c.inst, c.id) := fun h => heq (Prod.mk.inj h).1
            simp only [Function.update_of_ne heq, hkey, false_or]

theorem touched_storeDigestsZt {R : Runtime} {blockId : Nat} {dataIn : Bytes} {digest : List Bytes}
    (h : run arrayAccess (storeDigestsZt R blockId dataIn digest) t = .ok ((), t')) {j : Nat}
    (hlow : blockId / 2 ≤ j) (hhigh : j ≤ (blockId + digest.length) / 2) :
    j ∈ t'.touched .digest := by
  induction digest generalizing t blockId dataIn with
  | nil =>
      obtain rfl : j = blockId / 2 := by
        rw [List.length_nil] at hhigh
        omega
      rw [touched_ztWrite h, Function.update_self]
      exact List.mem_cons_self
  | cons di digest ih =>
      rw [List.length_cons, ← Nat.add_assoc, Nat.add_right_comm] at hhigh
      rw [storeDigestsZt] at h
      split_ifs at h with heven
      · exact ih h (by omega) hhigh
      · obtain ⟨_, t₁, hwrite, hrest⟩ := run_bind_eq_ok.1 h
        by_cases hj : j = blockId / 2
        · apply ((touched_of_run hrest).2 _ _).2
          left
          rw [touched_ztWrite hwrite, Function.update_self, hj]
          exact List.mem_cons_self
        · exact ih hrest (by omega) hhigh

theorem touched_forM_ztWrite {inst : OramInstance} {f : Nat → Bytes} {ids : List Nat}
    (h : run arrayAccess (ids.forM fun id => ztWrite inst id (f id)) t = .ok ((), t')) {j : Nat}
    (hj : j ∈ ids) : j ∈ t'.touched inst := by
  induction ids generalizing t with
  | nil => cases hj
  | cons id ids ih =>
      obtain ⟨_, t₁, hwrite, hrest⟩ := run_bind_eq_ok.1 h
      rw [List.mem_cons] at hj
      obtain rfl | hj := hj
      · apply ((touched_of_run hrest).2 _ _).2
        left
        rw [touched_ztWrite hwrite, Function.update_self]
        exact List.mem_cons_self
      · exact ih hrest hj

/-- The blocks of the digests and of the posting lists have been written. -/
theorem touched_setupZt {statics : OramStatics}
    (h : run arrayAccess (setupZt P O blob) arrayStart = .ok (statics, t)) :
    ∃ index digest, loadBlob blob = .ok (index, digest) ∧
      (∀ j ≤ digest.length / 2, j ∈ t.touched .digest) ∧
      ∀ j ≤ (linear (vlbRecords O index)).length / blockSize, j ∈ t.touched .index := by
  obtain ⟨tables, t₁, hload, h⟩ := run_bind_eq_ok.1 h
  rw [run_lift] at hload
  cases hblob : loadBlob blob with
  | error e =>
      rw [hblob] at hload
      cases hload
  | ok loaded =>
      rw [hblob] at hload
      cases hload
      obtain ⟨_, t₂, hdigest, h⟩ := run_bind_eq_ok.1 h
      obtain ⟨_, t₃, hindex, h⟩ := run_bind_eq_ok.1 h
      cases h
      refine ⟨tables.1, tables.2, rfl, ?_, ?_⟩
      · intro j hj
        apply ((touched_of_run hindex).2 _ _).2
        left
        exact touched_storeDigestsZt hdigest (by omega) (by omega)
      · intro j hj
        exact touched_forM_ztWrite hindex (List.mem_range.2 (by omega))

end

/-! ## What shows -/

/-- How many blocks of the index and how many digests a request reads. -/
def requestReads (P : Platform) (O : HashOrder) (q : Querier) (request : Bytes) : Nat × Nat :=
  match parseRequest P request with
  | .ok (some query) =>
      ((query.words.map fun w => (wordBlocks (layout 0 (vlbRecords O q.index)) w).length).sum,
        (shownDocs q query).length)
  | _ => (0, 0)

theorem map_inst_requestCalls (request : Bytes) :
    (requestCalls P (layout 0 (vlbRecords O q.index)) q request).map ZtCall.inst =
      List.replicate (requestReads P O q request).1 .index ++
        List.replicate (requestReads P O q request).2 .digest := by
  have hwords : ∀ words : List DWord, (words.flatMap fun w =>
      (wordBlocks (layout 0 (vlbRecords O q.index)) w).map fun id =>
        (⟨.index, id, .read⟩ : ZtCall)).map ZtCall.inst =
      List.replicate (words.map fun w =>
        (wordBlocks (layout 0 (vlbRecords O q.index)) w).length).sum .index := by
    intro words
    induction words with
    | nil => rfl
    | cons w words ih =>
        rw [List.flatMap_cons, List.map_append, ih, List.map_cons, List.sum_cons,
          List.replicate_add, List.map_map]
        exact congrArg (· ++ _) List.map_const'
  unfold requestCalls requestReads
  split
  · unfold queryCalls
    rw [List.map_append, hwords, List.map_map]
    exact congrArg (_ ++ ·) List.map_const'
  · rfl

/-- A posting list lies within the blocks that were written. -/
theorem wordBlocks_le {w : DWord} {id : Nat} {index : IndexTbl}
    (h : id ∈ wordBlocks (layout 0 (vlbRecords O index)) w) :
    id ≤ (linear (vlbRecords O index)).length / blockSize := by
  unfold wordBlocks at h
  cases hrecord : (vlbRecords O index).lookup w with
  | none =>
      rw [lookup_layout_none hrecord] at h
      cases h
  | some buf =>
      obtain ⟨pre, post, hlinear, hlookup⟩ := lookup_layout hrecord 0
      rw [hlookup, Nat.zero_add] at h
      dsimp only at h
      split_ifs at h with hlen
      · cases h
      · obtain ⟨k, hk, rfl⟩ := List.mem_map.1 h
        have hend : (pre.length + buf.length) / blockSize ≤
            (linear (vlbRecords O index)).length / blockSize := by
          apply Nat.div_le_div_right
          rw [hlinear, List.length_append, List.length_append]
          omega
        have hstart : pre.length / blockSize ≤ (pre.length + buf.length) / blockSize :=
          Nat.div_le_div_right (Nat.le_add_right _ _)
        rw [List.mem_range] at hk
        omega

/-- The layout of a setup that succeeds. -/
theorem layout_of_setup {index : IndexTbl} {digest : List Bytes} {oq : OramQuerier}
    (hread : readBlob blob = some (index, digest)) (h : oramQuerierSetup P O blob = .ok oq) :
    oq.layout = layout 0 (vlbRecords O index) := by
  rw [oramQuerierSetup, loadBlob_eq_ok.2 hread, ok_bind] at h
  obtain ⟨digestOram, -, h⟩ := bind_eq_ok.1 h
  obtain ⟨indexOram, -, h⟩ := bind_eq_ok.1 h
  cases h
  rfl

/-- A page that the plain querier answers shows digests that were stored. -/
theorem pred_div_le (h : SetUp P blob q) {query : Query} {docID : DWord}
    (hdoc : docID ∈ shownDocs q query) : (docID - 1).toNat / 2 ≤ q.digest.length / 2 := by
  obtain ⟨w, -, hmem⟩ := exists_word_of_mem (List.mem_of_mem_drop (List.mem_of_mem_take hdoc))
  exact Nat.div_le_div_right (pred_lt_of_mem_find h.tables.2.1 hmem).le

/-- The calls of a querier that answers all requests: those of the setup, and then for each request
reads of blocks that were written there. -/
theorem calls_serveZt (O : HashOrder) (h : SetUp P blob q) (hfits : OramFits blob) :
    ∃ fill : List ZtCall, (∀ c ∈ fill, c.InRange) ∧
      (∀ request, ∀ c ∈ requestCalls P (layout 0 (vlbRecords O q.index)) q request,
        c.key ∈ fill.map ZtCall.key) ∧
      ∀ requests : List (Bytes × Nat),
        (∀ r ∈ requests, ∃ response, ecallDoQuery P q r.1 r.2 = .ok response) →
        calls arrayAccess (serveZt P O blob requests) arrayStart =
          fill ++ requests.flatMap fun r =>
            requestCalls P (layout 0 (vlbRecords O q.index)) q r.1 := by
  obtain ⟨hread, hwf, hcontext⟩ := h.tables
  obtain ⟨hdigest, hindex⟩ := hfits q.index q.digest hread
  obtain ⟨oq, hsetup, hsim⟩ := simulates_of_fits (P := P) O hread hwf hdigest hindex
  rw [← hcontext] at hsim
  have hlayout : oq.layout = layout 0 (vlbRecords O q.index) := layout_of_setup hread hsetup
  have hagree := agree_setupZt (P := P) O blob
  rw [hsetup] at hagree
  generalize hrun : run arrayAccess (setupZt P O blob) arrayStart = r at hagree
  cases hagree with
  | @ok _ t _ ht =>
      obtain ⟨hrange, htouched⟩ := touched_of_run hrun
      obtain ⟨index, digest, hload, hdigests, hlists⟩ := touched_setupZt hrun
      obtain ⟨rfl, rfl⟩ := Prod.mk.inj (Option.some.inj ((loadBlob_eq_ok.1 hload).symm.trans hread))
      have hkey : ∀ {inst id}, id ∈ t.touched inst →
          (inst, id) ∈ (calls arrayAccess (setupZt P O blob) arrayStart).map ZtCall.key := by
        intro inst id hid
        exact ((htouched inst id).1 hid).resolve_left List.not_mem_nil
      refine ⟨_, hrange, ?_, ?_⟩
      · intro request c hc
        unfold requestCalls at hc
        split at hc
        · obtain hc | hc := List.mem_append.1 hc
          · obtain ⟨w, -, hc⟩ := List.mem_flatMap.1 hc
            obtain ⟨id, hid, rfl⟩ := List.mem_map.1 hc
            exact hkey (hlists id (wordBlocks_le hid))
          · obtain ⟨docID, hdoc, rfl⟩ := List.mem_map.1 hc
            exact hkey (hdigests _ (pred_div_le h hdoc))
        · cases hc
      · intro requests hok
        have hblocks : ∀ w, ∀ id ∈ wordBlocks oq.layout w, id < oq.indexOram.count := by
          intro w id hid
          rw [hlayout] at hid
          have hle := wordBlocks_le hid
          rw [length_linear] at hle
          rw [ht.index]
          exact hle.trans_lt hindex
        have hcomputes : ∀ r ∈ requests, Computes oq (doQueryZt P oq.statics r.1 r.2)
            (.ok ((ecallDoQuery P q r.1 r.2).toOption.getD [])) := by
          intro r hr
          obtain ⟨response, hresponse⟩ := hok r hr
          have hquery := @computes_doQueryZt P oq r.1 r.2
          rw [hsim.doQuery, hresponse] at hquery
          rwa [hresponse]
        have hmakes : ∀ r ∈ requests, Makes oq (doQueryZt P oq.statics r.1 r.2)
            (requestCalls P oq.layout q r.1) := by
          intro r hr
          obtain ⟨response, hresponse⟩ := hok r hr
          exact makes_doQueryZt h hsim hresponse hblocks
        rw [serveZt, calls_bind_of_ok hrun, ← hlayout]
        exact congrArg (_ ++ ·) (Makes.mapM hcomputes hmakes t ht)

/-- The instances that requests access, one after the other. -/
def accessPattern (P : Platform) (O : HashOrder) (q : Querier) (requests : List (Bytes × Nat)) :
    List OramInstance :=
  requests.flatMap fun r =>
    List.replicate (requestReads P O q r.1).1 .index ++
      List.replicate (requestReads P O q r.1).2 .digest

theorem map_inst_flatMap (O : HashOrder) (requests : List (Bytes × Nat)) :
    (requests.flatMap fun r =>
      requestCalls P (layout 0 (vlbRecords O q.index)) q r.1).map ZtCall.inst =
      accessPattern P O q requests := by
  rw [List.map_flatMap, accessPattern]
  simp only [map_inst_requestCalls]

/-- **What does not show.** Two runs of a querier in which all requests are answered and the
instances are accessed in the same order show the host the same, but for the order of the random
numbers. -/
theorem view_of_pattern (O : HashOrder) (h : SetUp P blob q) (hfits : OramFits blob)
    {requests requests' : List (Bytes × Nat)}
    (hok : ∀ r ∈ requests, ∃ response, ecallDoQuery P q r.1 r.2 = .ok response)
    (hok' : ∀ r ∈ requests', ∃ response, ecallDoQuery P q r.1 r.2 = .ok response)
    (hpattern : accessPattern P O q requests = accessPattern P O q requests')
    (raw : OramInstance → OramBlock) :
    ∃ n, ∃ π : Equiv.Perm (Fin n), ∀ tape tape', (∀ j, tape' (π j) = tape j) →
      Meets ztAccess HasRoom (serveZt P O blob requests) (ztStart raw tape) →
      Meets ztAccess HasRoom (serveZt P O blob requests') (ztStart raw tape') →
      hostSees (serveZt P O blob requests) (ztStart raw tape) =
        hostSees (serveZt P O blob requests') (ztStart raw tape') := by
  obtain ⟨fill, hrange, hkeys, hcalls⟩ := calls_serveZt O h hfits
  have hmem : ∀ requests : List (Bytes × Nat), ∀ c ∈ requests.flatMap fun r =>
      requestCalls P (layout 0 (vlbRecords O q.index)) q r.1, c.key ∈ fill.map ZtCall.key := by
    intro requests c hc
    obtain ⟨r, -, hc⟩ := List.mem_flatMap.1 hc
    exact hkeys r.1 c hc
  rw [← map_inst_flatMap, ← map_inst_flatMap] at hpattern
  obtain ⟨n, π, hπ⟩ := exists_perm_ztView hpattern (hmem requests) (hmem requests') hrange
  refine ⟨n, π, ?_⟩
  intro tape tape' htape hroom hroom'
  rw [hostSees, hostSees, (agree_serveZt hroom).2, (agree_serveZt hroom').2, hcalls _ hok,
    hcalls _ hok']
  exact hπ _ _ rfl htape

theorem answered_delta {keywords : Bytes} (hk : NulFree keywords) :
    ∀ r ∈ [(composeQuery keywords 1, bufferSize)],
      ∃ response, ecallDoQuery samplePlatform deltaQuerier r.1 r.2 = .ok response := by
  have hpage : 0 ≤ pageStart 1 := by decide
  intro r hr
  rw [List.mem_singleton.1 hr]
  exact ⟨_, ecallDoQuery_eq setUp_deltaBlob (parse_composeQuery keywords hk) (.inl hpage) _⟩

/-- Searches for `bravo` and for `alpha` read equally many blocks, though they find different
documents. -/
theorem accessPattern_bravo :
    accessPattern samplePlatform insertionOrder deltaQuerier
        [(composeQuery (ascii "bravo") 1, bufferSize)] =
      accessPattern samplePlatform insertionOrder deltaQuerier
        [(composeQuery (ascii "alpha") 1, bufferSize)] := by
  simp only [accessPattern, requestReads, List.flatMap_cons, List.flatMap_nil,
    parse_composeQuery (ascii "bravo") (by decide), parse_composeQuery (ascii "alpha") (by decide)]
  decide +kernel

/-- Searches for two words in different documents. -/
theorem view_of_pattern_bravo : ∃ n, ∃ π : Equiv.Perm (Fin n), ∀ tape tape',
    (∀ j, tape' (π j) = tape j) →
      Meets ztAccess HasRoom (serveZt samplePlatform insertionOrder deltaBlob
        [(composeQuery (ascii "bravo") 1, bufferSize)])
        (ztStart (fun inst => inst.params.dummy) tape) →
      Meets ztAccess HasRoom (serveZt samplePlatform insertionOrder deltaBlob
        [(composeQuery (ascii "alpha") 1, bufferSize)])
        (ztStart (fun inst => inst.params.dummy) tape') →
      hostSees (serveZt samplePlatform insertionOrder deltaBlob
        [(composeQuery (ascii "bravo") 1, bufferSize)])
        (ztStart (fun inst => inst.params.dummy) tape) =
      hostSees (serveZt samplePlatform insertionOrder deltaBlob
        [(composeQuery (ascii "alpha") 1, bufferSize)])
        (ztStart (fun inst => inst.params.dummy) tape') :=
  view_of_pattern insertionOrder setUp_deltaBlob oramFits_deltaBlob
    (answered_delta (by decide)) (answered_delta (by decide)) accessPattern_bravo
    fun inst => inst.params.dummy

theorem map_fst_instCalls (counters : OramInstance → BitVec 32)
    (accesses : List (OramInstance × Nat)) :
    (instCalls counters accesses).map Prod.fst =
      (accesses.map Prod.fst).flatMap (List.replicate 6) := by
  induction accesses generalizing counters with
  | nil => rfl
  | cons a accesses ih =>
      rw [instCalls, List.map_append, ih]
      rfl

/-- An access shows as six calls. -/
theorem map_fst_ztView {cs : List ZtCall} (h : ∀ c ∈ cs, c.InRange) (s : ZtState) :
    (ztView s cs).map Prod.fst = (cs.map ZtCall.inst).flatMap (List.replicate 6) := by
  rw [ztView_eq cs h, map_fst_instCalls, List.map_fst_zip]
  rw [Reveal.length_trace, List.length_map, List.length_map]

theorem flatMap_replicate_inj {l l' : List OramInstance}
    (h : l.flatMap (List.replicate 6) = l'.flatMap (List.replicate 6)) : l = l' := by
  induction l generalizing l' with
  | nil =>
      cases l' with
      | nil => rfl
      | cons a l' => cases h
  | cons a l ih =>
      cases l' with
      | nil => cases h
      | cons a' l' =>
          rw [List.flatMap_cons, List.flatMap_cons] at h
          obtain ⟨hhead, htail⟩ := List.append_inj h (by simp)
          rw [ih htail, (List.cons.inj hhead).1]

/-- **What shows.** From its view the host can tell in which order the instances are accessed. -/
theorem pattern_of_view (O : HashOrder) (h : SetUp P blob q) (hfits : OramFits blob)
    {requests requests' : List (Bytes × Nat)}
    (hok : ∀ r ∈ requests, ∃ response, ecallDoQuery P q r.1 r.2 = .ok response)
    (hok' : ∀ r ∈ requests', ∃ response, ecallDoQuery P q r.1 r.2 = .ok response)
    {raw : OramInstance → OramBlock} {tape tape' : Nat → BitVec 32}
    (hroom : Meets ztAccess HasRoom (serveZt P O blob requests) (ztStart raw tape))
    (hroom' : Meets ztAccess HasRoom (serveZt P O blob requests') (ztStart raw tape'))
    (hview : hostSees (serveZt P O blob requests) (ztStart raw tape) =
      hostSees (serveZt P O blob requests') (ztStart raw tape')) :
    accessPattern P O q requests = accessPattern P O q requests' := by
  obtain ⟨fill, hrange, hkeys, hcalls⟩ := calls_serveZt O h hfits
  have hin : ∀ requests : List (Bytes × Nat), ∀ c ∈ fill ++ requests.flatMap fun r =>
      requestCalls P (layout 0 (vlbRecords O q.index)) q r.1, c.InRange := by
    intro requests
    apply inRange_append hrange
    intro c hc
    obtain ⟨r, -, hc⟩ := List.mem_flatMap.1 hc
    exact hkeys r.1 c hc
  rw [hostSees, hostSees, (agree_serveZt hroom).2, (agree_serveZt hroom').2, hcalls _ hok,
    hcalls _ hok'] at hview
  have hinst := congrArg (List.map Prod.fst) hview
  rw [map_fst_ztView (hin requests), map_fst_ztView (hin requests')] at hinst
  have happend := flatMap_replicate_inj hinst
  rw [List.map_append, List.map_append, map_inst_flatMap, map_inst_flatMap] at happend
  exact List.append_cancel_left happend

theorem parse_bravo {keywords : Bytes} (h : keywords ∈ [ascii "bravo", ascii "Bravo"]) :
    NulFree keywords ∧ parseRequest samplePlatform (composeQuery keywords 1) =
      .ok (some ⟨[sphCRC32 (ascii "bravo")], 1⟩) := by
  have hk : NulFree keywords := by
    revert keywords
    decide
  have hwords : (samplePlatform.tokens ((JSON.string keywords).dump 1)).take 32 =
      [sphCRC32 (ascii "bravo")] := by
    revert keywords
    decide +kernel
  rw [parse_composeQuery keywords hk, hwords]
  exact ⟨hk, rfl⟩

/-- Two searches for the same word. -/
theorem pattern_of_view_bravo :
    accessPattern samplePlatform insertionOrder deltaQuerier
        [(composeQuery (ascii "bravo") 1, bufferSize)] =
      accessPattern samplePlatform insertionOrder deltaQuerier
        [(composeQuery (ascii "Bravo") 1, bufferSize)] := by
  have hquery : Meets ztAccess HasRoom
      (setupZt samplePlatform insertionOrder deltaBlob >>= fun q =>
        resultsZt q.layout ⟨[sphCRC32 (ascii "bravo")], 1⟩)
      (ztStart (fun inst => inst.params.dummy) fun _ => 5) := by
    decide +kernel
  obtain ⟨hk, hparse⟩ := parse_bravo (List.mem_cons_self)
  obtain ⟨hk', hparse'⟩ := parse_bravo (List.mem_cons_of_mem (ascii "bravo") List.mem_cons_self)
  have hroom := meets_serveZt_single hparse hquery bufferSize
  have hroom' := meets_serveZt_single hparse' hquery bufferSize
  refine pattern_of_view _ setUp_deltaBlob oramFits_deltaBlob (answered_delta hk)
    (answered_delta hk') hroom hroom' ?_
  obtain ⟨fill, -, -, hcalls⟩ := calls_serveZt insertionOrder setUp_deltaBlob oramFits_deltaBlob
  rw [hostSees, hostSees, (agree_serveZt hroom).2, (agree_serveZt hroom').2,
    hcalls _ (answered_delta hk), hcalls _ (answered_delta hk')]
  simp only [List.flatMap_cons, List.flatMap_nil, requestCalls, hparse, hparse']

end DeSearch
