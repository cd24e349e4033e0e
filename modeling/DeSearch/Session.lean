import DeSearch.Lib.Buckets
import DeSearch.Lib.Run
import DeSearch.Replica
import DeSearch.Lengths

/-!
# Many calls in one process

The code of the enclave keeps its tables in static variables: they are filled by a call, and cleared
at its end or at the start of the next one. A lookup of a word adds it to the table of the querier.
Here the calls are functions on these variables (`Process.call`), and the functions on the arguments
of a call alone that the other modules use are what they come down to (`Process.Idle`).

One thing is left over from a call to the next: `clear` keeps the buckets of a hash map, and the
buckets decide the order in which `Index2Binary` writes the entries. So `ecall_build_index` gives
other bytes after other calls (`index_depends_on_history`), and nothing else does
(`stateless_iff`).
-/

namespace DeSearch

open Run

/-! ## The static variables -/

/-- A way to lay out hash maps. The order in which a map is enumerated depends on the buckets it had
when it was last empty and on what was inserted since. -/
structure HashTable where
  Buckets : Type
  fresh : Buckets
  /-- the buckets after these insertions and `clear` -/
  after : Buckets → IndexTbl → Buckets
  order : Buckets → IndexTbl → HashOrder

/-- The order of the hash maps that a call makes for itself. -/
def HashTable.ownOrder (T : HashTable) : HashOrder :=
  ⟨fun tbl => (T.order T.fresh tbl).enum tbl, fun tbl => (T.order T.fresh tbl).perm tbl⟩

/-- The static variables of the enclave code. -/
structure Process (T : HashTable) where
  itemCandidates : List Bytes
  iInputs : List Bytes
  iDigestTbl : List Bytes
  iIndexTbl : IndexTbl
  /-- the buckets of `i_index_tbl` -/
  iBuckets : T.Buckets
  /-- `q_index_tbl`, `q_digest_tbl` and `querier_context_template` -/
  querier : Querier

/-- A process just started. -/
def Process.fresh (T : HashTable) : Process T :=
  ⟨[], [], [], .empty, T.fresh, ⟨.empty, [], .fresh⟩⟩

/-- A call, without the sizes of the caller's buffers. -/
inductive Call where
  | parseItems (appInput : Bytes)
  | buildIndex (indexInputs : Bytes)
  | doMerge (index1 index2 : Bytes)
  | querierSetup (indexInput : Bytes)
  | doQuery (request : Bytes)

/-- What a call leaves in the caller's buffers. -/
inductive Reply where
  | items (output witness : Bytes)
  | index (output : Bytes) (size : Nat) (witness : Bytes)
  | ready
  | response (contents : Bytes)
deriving DecidableEq

/-! ## The calls -/

/-- `witness_clear`. -/
def witnessClear (context : WitnessContext) : WitnessContext :=
  { context with tag := [], ins := [], out := [], bin := [], stage := 0 }

/-- STEP 2 of `ecall_do_query`: `operator[]` of one word after the other. -/
def lookupAll : IndexTbl → List DWord → List (List DWord) × IndexTbl
  | tbl, [] => ([], tbl)
  | tbl, w :: ws =>
      let tbl' := tbl.alter w id
      let r := lookupAll tbl' ws
      (tbl'.find w :: r.1, r.2)

section

variable {T : HashTable} (P : Platform)

/-- `ecall_parse_items`. -/
def Process.parseItems (appInput : Bytes) (outputSize witnessSize : Nat) (s : Process T) :
    Option (Reply × Process T) := do
  let items ← binary2Digest appInput
  let itemCandidates := s.itemCandidates ++ items
  let output ← parseSteemitItem P itemCandidates
  return (.items (copyOut outputSize output)
    (copyOut witnessSize (createCralwerWitness P itemCandidates output)),
    { s with itemCandidates := [] })

/-- `ecall_build_index`. -/
def Process.buildIndex (indexInputs : Bytes) (outputSize witnessSize : Nat) (s : Process T) :
    Option (Reply × Process T) := do
  let inputs ← binary2Digest indexInputs
  let iInputs := s.iInputs ++ inputs
  let docs ← documents P iInputs
  let iDigestTbl := s.iDigestTbl ++ docs
  let filled := yieldAll P s.iIndexTbl 1 iDigestTbl
  let output := merge2Binary (T.order s.iBuckets filled)
    (iDigestTbl.map (List.take digestMaxLength)) (P.stop.foldl Multimap.erase filled)
  return (.index (copyOut outputSize output) output.length
    (copyOut witnessSize (createIndexerWitness P iInputs output)),
    { s with
      iInputs := [], iDigestTbl := [], iIndexTbl := .empty, iBuckets := T.after s.iBuckets filled })

/-- `ecall_do_merge`, which has no static variables. -/
def Process.doMerge (index1 index2 : Bytes) (outputSize witnessSize : Nat) (s : Process T) :
    Option (Reply × Process T) := do
  let (output, size, witness) ← ecallDoMerge P T.ownOrder index1 index2 outputSize witnessSize
  return (.index output size witness, s)

/-- `ecall_querier_setup`. -/
def Process.querierSetup (indexInput : Bytes) (s : Process T) : Option (Reply × Process T) :=
  match loadBlob indexInput with
  | .error _ => none
  | .ok (index, digest) =>
      let context := witnessInput P.crypto
        (witnessInit (witnessClear s.querier.context) (ascii "STEEMIT QUERIER")) indexInput
      some (.ready, { s with querier := ⟨index, digest, context⟩ })

/-- `ecall_do_query`. -/
def Process.doQuery (request : Bytes) (responseSize : Nat) (s : Process T) :
    Option (Reply × Process T) :=
  match parseRequest P request with
  | .error _ => none
  | .ok none => some (.response [], s)
  | .ok (some query) =>
      let (docIDLists, index) := lookupAll s.querier.index query.words
      let response : Except Fault Bytes := do
        let results ← tenResults (digestAt s.querier.digest) (intersectLists [] none docIDLists)
          query.page
        let finalAll ← finalResponse P s.querier.context request results
        return copyOut responseSize finalAll
      match response with
      | .error _ => none
      | .ok contents =>
          some (.response contents, { s with querier := { s.querier with index := index } })

/-- A call, with the sizes of the caller's buffers. -/
def Process.call (c : Call) (outputSize witnessSize : Nat) :
    Process T → Option (Reply × Process T) :=
  match c with
  | .parseItems appInput => parseItems P appInput outputSize witnessSize
  | .buildIndex indexInputs => buildIndex P indexInputs outputSize witnessSize
  | .doMerge index1 index2 => doMerge P index1 index2 outputSize witnessSize
  | .querierSetup indexInput => querierSetup P indexInput
  | .doQuery request => doQuery P request outputSize

end

/-- A call with the sizes of its buffers. -/
structure SizedCall where
  call : Call
  outputSize : Nat
  witnessSize : Nat

section

variable (P : Platform) (T : HashTable)

/-- The process after a call; a fault ends it. -/
def callStep (c : SizedCall) (s : Option (Process T)) : Option (Process T) :=
  s.bind fun s => (s.call P c.call c.outputSize c.witnessSize).map Prod.snd

/-- The process after a sequence of calls. -/
def Process.run (cs : List SizedCall) : Option (Process T) :=
  exec (callStep P T) (some (.fresh T)) cs

/-- What the last call of a sequence gives. -/
def lastReply (cs : List SizedCall) (c : Call) (outputSize witnessSize : Nat) : Option Reply :=
  (Process.run P T cs).bind fun s => (s.call P c outputSize witnessSize).map Prod.fst

end

/-! ## Calls of an idle process -/

section

variable {P : Platform} {T : HashTable} {s s' : Process T} {outputSize witnessSize : Nat}

/-- Between calls, the tables of the pipeline are empty. -/
structure Process.Idle (s : Process T) : Prop where
  itemCandidates : s.itemCandidates = []
  iInputs : s.iInputs = []
  iDigestTbl : s.iDigestTbl = []
  iIndexTbl : s.iIndexTbl = .empty

variable (P) in
/-- What `build_index` fills its table with. -/
def filledBy (indexInputs : Bytes) : IndexTbl :=
  yieldAll P .empty 1 ((inputDocuments P indexInputs).getD [])

theorem Process.Idle.parseItems (h : s.Idle) (appInput : Bytes) :
    s.parseItems P appInput outputSize witnessSize =
      (ecallParseItems P appInput outputSize witnessSize).map fun r => (.items r.1 r.2, s) := by
  obtain ⟨itemCandidates, _, _, _, _, _⟩ := s
  obtain rfl : itemCandidates = [] := h.itemCandidates
  simp only [Process.parseItems, ecallParseItems, List.nil_append]
  cases binary2Digest appInput with
  | none => rfl
  | some items => cases hout : parseSteemitItem P items <;> simp [hout]

theorem Process.Idle.buildIndex (h : s.Idle) (indexInputs : Bytes) :
    s.buildIndex P indexInputs outputSize witnessSize =
      (ecallBuildIndex P (T.order s.iBuckets (filledBy P indexInputs)) indexInputs outputSize
        witnessSize).map fun r => (.index r.1 r.2.1 r.2.2,
          { s with iBuckets := T.after s.iBuckets (filledBy P indexInputs) }) := by
  obtain ⟨_, iInputs, iDigestTbl, iIndexTbl, iBuckets, _⟩ := s
  obtain rfl : iInputs = [] := h.iInputs
  obtain rfl : iDigestTbl = [] := h.iDigestTbl
  obtain rfl : iIndexTbl = .empty := h.iIndexTbl
  simp only [Process.buildIndex, ecallBuildIndex, List.nil_append]
  cases hinputs : binary2Digest indexInputs with
  | none => rfl
  | some inputs =>
      have hfilled : filledBy P indexInputs =
          yieldAll P .empty 1 ((documents P inputs).getD []) := by
        rw [filledBy, inputDocuments, hinputs]
        rfl
      simp only [Option.bind_eq_bind, Option.bind_some, DeSearch.buildIndex]
      cases hdocs : documents P inputs with
      | none => rfl
      | some docs =>
          rw [hfilled, hdocs]
          rfl

theorem lookupAll_eq (tbl : IndexTbl) (ws : List DWord) :
    (lookupAll tbl ws).1 = ws.map tbl.find ∧
      ∀ w, (lookupAll tbl ws).2.find w = tbl.find w := by
  have htouch : ∀ (tbl : IndexTbl) w w', (tbl.alter w id).find w' = tbl.find w' := by
    intro tbl w w'
    rw [Multimap.find_alter]
    split_ifs with h
    · rw [h]
      rfl
    · rfl
  induction ws generalizing tbl with
  | nil => exact ⟨rfl, fun _ => rfl⟩
  | cons w ws ih =>
      obtain ⟨hlists, hfind⟩ := ih (tbl.alter w id)
      refine ⟨?_, fun w' => (hfind w').trans (htouch tbl w w')⟩
      rw [funext (htouch tbl w)] at hlists
      simp only [lookupAll, hlists, htouch, List.map_cons]

/-- The querier after a request: an unknown word has got an empty list. -/
theorem Process.doQuery_eq (P : Platform) (s : Process T) (request : Bytes) (outputSize : Nat) :
    ∃ index : IndexTbl, (∀ w, index.find w = s.querier.index.find w) ∧
      s.doQuery P request outputSize =
        (ecallDoQuery P s.querier request outputSize).toOption.map fun contents =>
          (.response contents, { s with querier := { s.querier with index := index } }) := by
  unfold Process.doQuery ecallDoQuery
  cases parseRequest P request with
  | error => exact ⟨s.querier.index, fun _ => rfl, rfl⟩
  | ok query? =>
      cases query? with
      | none => exact ⟨s.querier.index, fun _ => rfl, rfl⟩
      | some query =>
          obtain ⟨hlists, hfind⟩ := lookupAll_eq s.querier.index query.words
          refine ⟨_, hfind, ?_⟩
          simp only [hlists, bind, Except.bind, queryResults]
          cases tenResults (digestAt s.querier.digest)
            (intersectLists [] none (query.words.map s.querier.index.find)) query.page with
          | error => rfl
          | ok results =>
              cases hfinal : finalResponse P s.querier.context request results with
              | error => simp [hfinal, Except.toOption]
              | ok finalAll => simp [hfinal, Except.toOption, pure, Except.pure]

theorem Process.querierSetup_eq (s : Process T) (indexInput : Bytes) :
    s.querierSetup P indexInput = (ecallQuerierSetup P.crypto indexInput).toOption.map fun q =>
      (.ready, { s with querier := q }) := by
  unfold Process.querierSetup ecallQuerierSetup
  cases loadBlob indexInput <;> rfl

/-! ## What a call depends on -/

/-- The queriers answer alike. -/
structure Querier.Alike (q q' : Querier) : Prop where
  find : ∀ w, q.index.find w = q'.index.find w
  digest : q.digest = q'.digest
  context : q.context = q'.context

theorem Querier.Alike.refl (q : Querier) : q.Alike q := ⟨fun _ => rfl, rfl, rfl⟩

theorem Querier.Alike.ecallDoQuery_eq {q q' : Querier} (h : q.Alike q') (request : Bytes)
    (size : Nat) : ecallDoQuery P q request size = ecallDoQuery P q' request size := by
  obtain ⟨index, digest, context⟩ := q
  obtain ⟨index', digest', context'⟩ := q'
  obtain ⟨hfind, rfl, rfl⟩ := h
  simp only [ecallDoQuery, queryResults, funext hfind]

variable (P) in
/-- What a call gives when the table of the indexer has the given buckets and the querier is set up
as given. -/
def replyWith (buckets : T.Buckets) (q : Querier) (outputSize witnessSize : Nat) :
    Call → Option Reply
  | .parseItems appInput =>
      (ecallParseItems P appInput outputSize witnessSize).map fun r => .items r.1 r.2
  | .buildIndex indexInputs =>
      (ecallBuildIndex P (T.order buckets (filledBy P indexInputs)) indexInputs outputSize
        witnessSize).map fun r => .index r.1 r.2.1 r.2.2
  | .doMerge index1 index2 =>
      (ecallDoMerge P T.ownOrder index1 index2 outputSize witnessSize).map fun r =>
        .index r.1 r.2.1 r.2.2
  | .querierSetup indexInput =>
      (ecallQuerierSetup P.crypto indexInput).toOption.map fun _ => .ready
  | .doQuery request => (ecallDoQuery P q request outputSize).toOption.map .response

theorem Process.Idle.reply_eq (h : s.Idle) (c : Call) :
    (s.call P c outputSize witnessSize).map Prod.fst =
      replyWith P s.iBuckets s.querier outputSize witnessSize c := by
  cases c with
  | parseItems appInput =>
      rw [Process.call, h.parseItems, Option.map_map]
      rfl
  | buildIndex indexInputs =>
      rw [Process.call, h.buildIndex, Option.map_map]
      rfl
  | doMerge index1 index2 =>
      rw [Process.call, Process.doMerge, replyWith]
      cases ecallDoMerge P T.ownOrder index1 index2 outputSize witnessSize <;> rfl
  | querierSetup indexInput =>
      rw [Process.call, Process.querierSetup_eq, Option.map_map]
      rfl
  | doQuery request =>
      obtain ⟨index, -, heq⟩ := s.doQuery_eq P request outputSize
      rw [Process.call, heq, Option.map_map]
      rfl

/-- What a call changes. -/
inductive Process.Changes (P : Platform) (s : Process T) : Call → Process T → Prop
  | same {c : Call} (hbuild : ∀ x, c ≠ .buildIndex x) (hsetup : ∀ x, c ≠ .querierSetup x) :
      Changes P s c s
  | index (indexInputs : Bytes) : Changes P s (.buildIndex indexInputs)
      { s with iBuckets := T.after s.iBuckets (filledBy P indexInputs) }
  | querier {indexInput : Bytes} {q : Querier}
      (hq : ecallQuerierSetup P.crypto indexInput = .ok q) :
      Changes P s (.querierSetup indexInput) { s with querier := q }
  | words (request : Bytes) {index : IndexTbl}
      (hfind : ∀ w, index.find w = s.querier.index.find w) :
      Changes P s (.doQuery request) { s with querier := { s.querier with index := index } }

theorem Process.Idle.changes (h : s.Idle) {c : Call} {r : Reply}
    (hc : s.call P c outputSize witnessSize = some (r, s')) : s.Changes P c s' := by
  cases c with
  | parseItems appInput =>
      rw [Process.call, h.parseItems] at hc
      obtain ⟨_, -, heq⟩ := Option.map_eq_some_iff.1 hc
      cases heq
      exact .same (by simp) (by simp)
  | buildIndex indexInputs =>
      rw [Process.call, h.buildIndex] at hc
      obtain ⟨_, -, heq⟩ := Option.map_eq_some_iff.1 hc
      cases heq
      exact .index indexInputs
  | doMerge index1 index2 =>
      obtain ⟨_, -, heq⟩ := Option.bind_eq_some_iff.1 hc
      cases heq
      exact .same (by simp) (by simp)
  | querierSetup indexInput =>
      rw [Process.call, Process.querierSetup_eq] at hc
      obtain ⟨q, hq, heq⟩ := Option.map_eq_some_iff.1 hc
      cases heq
      refine .querier ?_
      cases hsetup : ecallQuerierSetup P.crypto indexInput with
      | error => rw [hsetup] at hq; cases hq
      | ok q' => rw [hsetup] at hq; cases hq; rfl
  | doQuery request =>
      obtain ⟨index, hfind, hquery⟩ := s.doQuery_eq P request outputSize
      rw [Process.call, hquery] at hc
      obtain ⟨_, -, heq⟩ := Option.map_eq_some_iff.1 hc
      cases heq
      exact .words request hfind

theorem Process.Idle.step (h : s.Idle) {c : Call} (hc : s.Changes P c s') : s'.Idle := by
  cases hc <;> exact ⟨h.itemCandidates, h.iInputs, h.iDigestTbl, h.iIndexTbl⟩

end

/-! ## Sequences of calls -/

/-- Calls of `ecall_querier_setup`. -/
def Call.isSetup : Call → Bool
  | .querierSetup _ => true
  | _ => false

/-- The latest call of `ecall_querier_setup`, if there is one. -/
def latestSetup (cs : List SizedCall) : List SizedCall :=
  (cs.reverse.find? fun c => c.call.isSetup).toList

/-- The calls before a call that it may depend on. -/
def needed (cs : List SizedCall) : Call → List SizedCall
  | .doQuery _ => latestSetup cs
  | _ => []

section

variable {P : Platform} {T : HashTable} {s s' : Process T} {cs : List SizedCall}

theorem Process.run_append_singleton (cs : List SizedCall) (c : SizedCall) :
    Process.run P T (cs ++ [c]) = callStep P T c (Process.run P T cs) := by
  rw [Process.run, exec_append]
  rfl

/-- The process after a sequence of calls: its tables are empty, its querier is as the latest set-up
left it, and its buckets are as the calls of `ecall_build_index` left them. -/
structure Process.After (P : Platform) (cs : List SizedCall) (s : Process T) : Prop where
  idle : s.Idle
  querier : ∃ s', Process.run P T (latestSetup cs) = some s' ∧ s'.Idle ∧
    s.querier.Alike s'.querier
  buckets : ∃ fills : List IndexTbl, s.iBuckets = fills.foldl T.after T.fresh ∧
    (fills ≠ [] ↔ ∃ c ∈ cs, ∃ x, c.call = .buildIndex x)

theorem Process.after_fresh : (Process.fresh T).After P [] :=
  ⟨⟨rfl, rfl, rfl, rfl⟩, ⟨_, rfl, ⟨rfl, rfl, rfl, rfl⟩, .refl _⟩, ⟨[], rfl, by simp⟩⟩

theorem latestSetup_append_of_not {c : SizedCall} (h : c.call.isSetup = false) :
    latestSetup (cs ++ [c]) = latestSetup cs := by
  simp [latestSetup, h]

theorem latestSetup_append_of_isSetup {c : SizedCall} (h : c.call.isSetup) :
    latestSetup (cs ++ [c]) = [c] := by
  simp [latestSetup, h]

theorem Process.After.step (h : s.After P cs) {c : SizedCall} (hc : s.Changes P c.call s') :
    s'.After P (cs ++ [c]) := by
  have hidle := h.idle.step hc
  obtain ⟨c, n, m⟩ := c
  obtain ⟨fills, hfills, hne⟩ := h.buckets
  cases hc with
  | same hbuild hsetup =>
      refine ⟨hidle, ?_, fills, hfills, ?_⟩
      · rw [latestSetup_append_of_not]
        · exact h.querier
        · cases c <;> first | rfl | exact absurd rfl (hsetup _)
      · rw [hne]
        simp [or_and_right, exists_or, hbuild]
  | index x =>
      refine ⟨hidle, ?_, fills ++ [filledBy P x], ?_, by simp⟩
      · rw [latestSetup_append_of_not rfl]
        exact h.querier
      · rw [List.foldl_append, ← hfills]
        rfl
  | @querier indexInput q hq =>
      refine ⟨hidle, ⟨{ Process.fresh T with querier := q }, ?_, ⟨rfl, rfl, rfl, rfl⟩, .refl _⟩,
        fills, hfills, by rw [hne]; simp [or_and_right, exists_or]⟩
      rw [latestSetup_append_of_isSetup rfl]
      change callStep P T _ (some (Process.fresh T)) = _
      rw [callStep, Option.bind_some, Process.call, Process.querierSetup_eq, hq]
      rfl
  | words request hfind =>
      obtain ⟨s₀, hrun, hidle₀, halike⟩ := h.querier
      refine ⟨hidle, ?_, fills, hfills, by rw [hne]; simp [or_and_right, exists_or]⟩
      rw [latestSetup_append_of_not rfl]
      exact ⟨s₀, hrun, hidle₀, fun w => (hfind w).trans (halike.find w), halike.digest,
        halike.context⟩

/-- The state after every sequence of calls that return. -/
theorem Process.after_run (h : Process.run P T cs = some s) : s.After P cs := by
  induction cs using List.reverseRecOn generalizing s with
  | nil =>
      obtain rfl := Option.some.inj h
      exact Process.after_fresh
  | append_singleton cs c ih =>
      rw [Process.run_append_singleton] at h
      obtain ⟨s₀, hrun, hmap⟩ := Option.bind_eq_some_iff.1 h
      obtain ⟨⟨r, s₁⟩, hcall, rfl⟩ := Option.map_eq_some_iff.1 hmap
      have hafter := ih hrun
      exact hafter.step (hafter.idle.changes hcall)

theorem lastReply_eq (h : Process.run P T cs = some s) (c : Call) (outputSize witnessSize : Nat) :
    lastReply P T cs c outputSize witnessSize =
      replyWith P s.iBuckets s.querier outputSize witnessSize c := by
  rw [lastReply, h, Option.bind_some, (Process.after_run h).idle.reply_eq]

end

/-- The results of a call do not depend on the calls before it, except that those of a query depend
on the latest set-up; whatever the sizes of the buffers and the layout of hash maps. -/
def HistoryFree (P : Platform) (cs : List SizedCall) (c : Call) : Prop :=
  ∀ (T : HashTable) (outputSize witnessSize : Nat),
    lastReply P T cs c outputSize witnessSize =
      lastReply P T (needed cs c) c outputSize witnessSize

/-- The calls return, whatever the layout of hash maps. -/
def Returns (P : Platform) (cs : List SizedCall) : Prop :=
  ∀ T, (Process.run P T cs).isSome

section

variable {P : Platform} {cs : List SizedCall} {c : Call}

/-- What a call other than `ecall_build_index` gives does not depend on the buckets, and only a
query depends on the querier. -/
theorem replyWith_eq {T : HashTable} (b b' : T.Buckets) {q q' : Querier}
    (outputSize witnessSize : Nat) (hbuild : ∀ x, c ≠ .buildIndex x)
    (hq : ∀ x, c = .doQuery x → q.Alike q') :
    replyWith P b q outputSize witnessSize c = replyWith P b' q' outputSize witnessSize c := by
  cases c with
  | buildIndex x => exact absurd rfl (hbuild x)
  | doQuery request => rw [replyWith, replyWith, (hq request rfl).ecallDoQuery_eq]
  | _ => rfl

theorem historyFree_of_not_build (h : Returns P cs) (hbuild : ∀ x, c ≠ .buildIndex x) :
    HistoryFree P cs c := by
  intro T outputSize witnessSize
  obtain ⟨s, hs⟩ := Option.isSome_iff_exists.1 (h T)
  obtain ⟨s₀, hs₀, -, halike⟩ := (Process.after_run hs).querier
  rw [lastReply_eq hs]
  cases c with
  | doQuery request =>
      rw [needed, lastReply_eq hs₀]
      exact replyWith_eq _ _ _ _ hbuild fun _ _ => halike
  | buildIndex x => exact absurd rfl (hbuild x)
  | _ =>
      change _ = lastReply P T [] _ _ _
      rw [lastReply_eq (s := Process.fresh T) rfl]
      exact replyWith_eq _ _ _ _ hbuild (by simp)

/-- A layout in which a table that has been used hands out one word first, and a new one
another. -/
def twoOrders (w w' : DWord) : HashTable where
  Buckets := Bool
  fresh := false
  after _ _ := true
  order used _ := if used then .first w else .first w'

theorem historyFree_build_iff (h : Returns P cs) {x : Bytes} :
    HistoryFree P cs (.buildIndex x) ↔ ((∃ c ∈ cs, ∃ y, c.call = .buildIndex y) →
      ∀ docs, inputDocuments P x = some docs →
        ∀ w w', Occurs P docs w → Occurs P docs w' → w = w') := by
  have hneeded : needed cs (.buildIndex x) = [] := rfl
  constructor
  · intro hfree hused docs hdocs w w' hw hw'
    obtain ⟨s, hs⟩ := Option.isSome_iff_exists.1 (h (twoOrders w w'))
    obtain ⟨fills, hfills, hne⟩ := (Process.after_run hs).buckets
    have hbuckets : s.iBuckets = true := by
      obtain ⟨tbls, tbl, rfl⟩ := (List.eq_nil_or_concat fills).resolve_left (hne.2 hused)
      rw [hfills, List.concat_eq_append, List.foldl_append]
      rfl
    obtain ⟨inputs, hcall⟩ := exists_ecallBuildIndex hdocs
    refine merge2Binary_first_inj (digests docs) (hasKey_indexOf.2 hw) (hasKey_indexOf.2 hw')
      (eq_of_copyOut_eq fun size => ?_)
    have heq := hfree (twoOrders w w') size 0
    rw [lastReply_eq hs, hneeded, lastReply_eq (s := Process.fresh _) rfl, replyWith, replyWith,
      hcall, hcall, hbuckets] at heq
    exact (Reply.index.inj (Option.some.inj heq)).1
  · intro hone T outputSize witnessSize
    obtain ⟨s, hs⟩ := Option.isSome_iff_exists.1 (h T)
    obtain ⟨fills, hfills, hne⟩ := (Process.after_run hs).buckets
    rw [lastReply_eq hs, hneeded, lastReply_eq (s := Process.fresh T) rfl, replyWith, replyWith]
    by_cases hused : fills = []
    · have hfresh : s.iBuckets = (Process.fresh T).iBuckets := by
        rw [hfills, hused]
        rfl
      rw [hfresh]
    · rw [buildIndependent_iff.2 (hone (hne.1 hused))
        (T.order s.iBuckets (filledBy P x)) (T.order (Process.fresh T).iBuckets (filledBy P x))]

/-- **Stateless code.** The results of a call of the enclave code are determined by its arguments
and, for a query, by the latest set-up, whatever the calls before it, unless it is a later call of
`ecall_build_index` whose documents have two words or more. -/
theorem stateless_iff (h : Returns P cs) (c : Call) : HistoryFree P cs c ↔
    ∀ x, c = .buildIndex x → (∃ c ∈ cs, ∃ y, c.call = .buildIndex y) →
      ∀ docs, inputDocuments P x = some docs →
        ∀ w w', Occurs P docs w → Occurs P docs w' → w = w' := by
  by_cases hbuild : ∃ x, c = .buildIndex x
  · obtain ⟨x, rfl⟩ := hbuild
    rw [historyFree_build_iff h]
    exact ⟨fun h' y hy => by cases hy; exact h', fun h' => h' x rfl⟩
  · rw [not_exists] at hbuild
    exact ⟨fun _ x hx => absurd hx (hbuild x), fun _ => historyFree_of_not_build h hbuild⟩

end

/-- An index is built, and a querier is set up. -/
def twoCalls : List SizedCall :=
  [⟨.buildIndex (digest2Binary [ascii "[\"world\"]"]), 1000, 1000⟩, ⟨.querierSetup worldBlob, 0, 0⟩]

theorem returns_twoCalls : Returns samplePlatform twoCalls := by
  intro T
  have hdocs : inputDocuments samplePlatform (digest2Binary [ascii "[\"world\"]"]) =
      some [ascii "world"] := by decide +kernel
  obtain ⟨inputs, hcall⟩ := exists_ecallBuildIndex hdocs
  have hidle : (Process.fresh T).Idle := ⟨rfl, rfl, rfl, rfl⟩
  rw [Process.run, twoCalls, exec_cons, callStep, Option.bind_some, Process.call, hidle.buildIndex,
    hcall, exec_cons, callStep]
  simp only [Option.map_some, Option.bind_some, Process.call, Process.querierSetup_eq]
  rw [setUp_worldBlob.2]
  rfl

/-- The answer to a query after these two calls is the one after the set-up alone. -/
theorem stateless_twoCalls :
    HistoryFree samplePlatform twoCalls (.doQuery (composeQuery (ascii "world") 1)) :=
  (stateless_iff returns_twoCalls _).2 fun _ hx => by cases hx

/-! ## Buckets -/

/-- Hash maps as `libstdc++` lays them out, if nothing was erased from them. -/
def chained : HashTable where
  Buckets := Nat
  fresh := 1
  after n filled := (Buckets.insertAll (fun p => p.1.toNat) n filled.entries).1
  order n _ := ⟨fun tbl => (Buckets.insertAll (fun p => p.1.toNat) n tbl.entries).2,
    fun tbl => Buckets.insertAll_perm n tbl.entries⟩

/-- A batch with one document of fourteen words. -/
def fourteenWords : Bytes :=
  ascii "[\"alpha bravo charlie delta echo foxtrot golf" ++
    ascii " hotel india juliet kilo lima mike november\"]"

/-- A document with fourteen words makes the table of the indexer grow from 13 buckets to 29. The
words of a later document are written in another order than in a process just started: with 13
buckets, two of them share one. -/
theorem index_depends_on_history :
    ∃ (P : Platform) (T : HashTable) (cs : List SizedCall) (x : Bytes) (size witnessSize : Nat),
      (Process.run P T cs).isSome ∧
      lastReply P T cs (.buildIndex x) size witnessSize ≠
        lastReply P T [] (.buildIndex x) size witnessSize := by
  refine ⟨samplePlatform, chained, [⟨.buildIndex (digest2Binary [fourteenWords]), 1000, 0⟩],
    digest2Binary [ascii "[\"alpha bravo kiwi\"]"], 1000, 0, ?_, ?_⟩ <;> decide +kernel

end DeSearch
