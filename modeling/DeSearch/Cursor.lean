import DeSearch.Epochs

/-!
# Which item batches an index shard is made of

`do_index` keeps a running cursor into the item batches and moves it only over shards that it
indexes itself. So the cursor counts the shards that the indexer found missing in this pass
(`Executor.AtShard`), and it is where it belongs as long as no shard was found there before one
that is missing. If that holds of every pass, each shard is made from its own four batches
(`indexedByWindow_of_builtInOrder`). An indexer that skipped a shard works on the next one with
the batches of the shard it skipped (`skipped_shard_not_indexedByWindow`).
-/

namespace DeSearch

open Run

/-- Every index ever stored was built from the item batches of its window, as stored at some
time. -/
def IndexedByWindow (P : Platform) (kb : Kanban) : Prop :=
  ∀ e i v, 2 ≤ e → 1 ≤ i → i ≤ indexPoolMax → kb.Stored (.index e i) v →
    ∃ batches order out, List.Forall₂ kb.Stored ((window i).map (Key.items (e - 1))) batches ∧
      indexCall P order batches = some out ∧ out.data = v

/-- An indexer's cursor stands at the first batch of its shard. -/
def Task.CursorAligned : Task → Prop
  | .index _ i pos => pos = (i - 1) * indexBulkMax + 1
  | _ => True

theorem mem_window {i j : Nat} : j ∈ window i ↔
    (i - 1) * indexBulkMax < j ∧ j ≤ (i - 1) * indexBulkMax + indexBulkMax := by
  simp only [window, List.mem_map, List.mem_range]
  constructor
  · rintro ⟨d, hd, rfl⟩
    omega
  · rintro ⟨hlt, hle⟩
    exact ⟨j - ((i - 1) * indexBulkMax + 1), by omega, by omega⟩

/-- The windows are a partition of the item batches. -/
theorem existsUnique_window {j : Nat} (h1 : 1 ≤ j) (hj : j ≤ itemsPoolMax) :
    ∃! i, (1 ≤ i ∧ i ≤ indexPoolMax) ∧ j ∈ window i := by
  have h4 : indexPoolMax = 4 := rfl
  have h16 : itemsPoolMax = 16 := rfl
  have hb : indexBulkMax = 4 := rfl
  simp only [mem_window, hb, h4]
  refine ⟨(j - 1) / 4 + 1, by omega, ?_⟩
  rintro i ⟨⟨hi1, hi4⟩, hlt, hle⟩
  omega

theorem inputs_of_cursorAligned {e : Int} {i pos : Nat} (h : (Task.index e i pos).CursorAligned) :
    (Task.index e i pos).inputs = (window i).map (Key.items (e - 1)) := by
  obtain rfl : pos = (i - 1) * indexBulkMax + 1 := h
  rw [Task.inputs, window, List.map_map]
  rfl

theorem Traced.indexedByWindow {P : Platform} {src : Source} {F : Task → Inputs → Prop}
    {s : State} (h : Traced P src F s) (hF : ∀ t xs, F t xs → t.CursorAligned) :
    IndexedByWindow P s.kanban := by
  intro e i v _ _ _ hv
  obtain ⟨t, out, ⟨xs, hFt, hs, hcall⟩, hdata, hkey | ⟨_, _, -, hkey⟩⟩ := h.data _ v hv rfl
  · cases t with
    | index e' i' pos =>
        cases hkey
        have hs' : List.Forall₂ s.kanban.Stored (Task.index e i pos).inputs xs.values := hs
        rw [inputs_of_cursorAligned (hF _ _ hFt)] at hs'
        exact ⟨xs.values, xs.order, out, hs', Task.indexCall_of_call hcall, hdata⟩
    | _ => cases hkey
  · cases hkey

/-! ## Passes

A pass is one turn of an executor through the shards of its loop. What the checks of the pass have
answered so far says where the executor stands. -/

/-- The answers of `o_check_key` in the current pass, after one more step: reading the epoch starts
a pass, and a check adds its answer. -/
def Executor.found (kb : Kanban) (answers : List Bool) : Executor → List Bool
  | .idle => []
  | .check t => answers ++ [(kb.get t.key).isSome]
  | _ => answers

/-- A run, together with the answers of `o_check_key` in the current pass of process `p`. -/
def Deployment.observe (D : Deployment) (p : Nat) (a : Action) (s : State × List Bool) :
    State × List Bool :=
  (D.step a s.1, match a with
    | .exec q _ => if q = p then (s.1.procs p).found s.1.kanban s.2 else s.2
    | _ => s.2)

/-- Those answers after a run. -/
def Deployment.pass (D : Deployment) (p : Nat) (as : List Action) : List Bool :=
  (exec (D.observe p) (.init, []) as).2

/-- After the actions `bs`, the indexer `p` is about to call `ecall_build_index`. -/
def Deployment.Builds (D : Deployment) (bs : List Action) (p : Nat) (answers : Inputs) (e : Int)
    (i pos : Nat) : Prop :=
  ∃ xs, ((exec D.step .init bs).procs p).Calls (exec D.step .init bs).kanban answers
    (.index e i pos) xs

/-- Whenever an indexer builds a shard, all checks of its pass found their shard missing. -/
def Deployment.BuiltInOrder (D : Deployment) (as : List Action) : Prop :=
  ∀ bs p answers cs e i pos, as = bs ++ .exec p answers :: cs → D.Builds bs p answers e i pos →
    true ∉ D.pass p bs

/-- Where the answers of a pass leave an indexer. The cursor has moved over the shards it found
missing. -/
def Executor.AtShard (answers : List Bool) : Executor → Prop
  | .idle => True
  | .readBase _ => False
  | .check t =>
      ∃ e, t = .index e (answers.length + 1) (answers.count false * indexBulkMax + 1)
  | .gather t _ | .put t _ | .hset t _ | .sadd t _ _ | .copy t _ =>
      ∃ e before, answers = before ++ [false] ∧
        t = .index e (before.length + 1) (before.count false * indexBulkMax + 1)

namespace Executor

variable {P : Platform} {answers : Inputs} {kb kb' : Kanban} {x x' : Executor} {found : List Bool}

theorem atShard_enter {e : Int} {i pos : Nat} (hi : i = found.length + 1)
    (hpos : pos = found.count false * indexBulkMax + 1) :
    (enter (.index e i pos)).AtShard found := by
  subst hi hpos
  unfold enter
  split_ifs
  · exact ⟨e, rfl⟩
  · trivial

/-- A shard that was built moves the cursor over one window. -/
theorem atShard_finish {t : Task} {e : Int} {before : List Bool}
    (ht : t = .index e (before.length + 1) (before.count false * indexBulkMax + 1)) :
    (enter t.finish).AtShard (before ++ [false]) := by
  subst ht
  refine atShard_enter (by simp) ?_
  rw [List.count_append, List.count_singleton_self, Nat.add_mul, Nat.one_mul]
  exact Nat.add_right_comm _ _ _

/-- What a step of an indexer does to its place in the pass. -/
theorem Step.atShard (h : Step P .indexer answers kb x x' kb') (hx : x.AtShard found) :
    x'.AtShard (x.found kb found) := by
  cases h with
  | noEpoch | noBase | noKey => trivial
  | @start e =>
      change (doIndex e).AtShard []
      unfold doIndex
      split_ifs
      · trivial
      · trivial
      · exact atShard_enter rfl rfl
  | base => exact hx.elim
  | skip hv =>
      obtain ⟨e, rfl⟩ := hx
      rw [Executor.found, hv]
      exact atShard_enter (by simp) (by simp)
  | absent hnone =>
      obtain ⟨e, rfl⟩ := hx
      rw [Executor.found, hnone]
      exact ⟨e, found, rfl, rfl⟩
  | wait | take => exact hx
  | call =>
      unfold Executor.call
      split
      · exact hx
      · trivial
  | put | hset => exact hx
  | @sadd t out k =>
      obtain ⟨e, before, rfl, rfl⟩ := hx
      change (if e = 2 then _ else _ : Executor).AtShard _
      split_ifs
      · exact ⟨e, before, rfl, rfl⟩
      · exact atShard_finish rfl
  | copy =>
      obtain ⟨e, before, rfl, ht⟩ := hx
      exact atShard_finish ht

/-- The cursor has moved with every shard if and only if no shard was there. -/
theorem AtShard.cursorAligned_iff {t : Task} {got : List Bytes}
    (hx : (gather t got).AtShard found) :
    t.CursorAligned ↔ true ∉ found := by
  obtain ⟨e, before, rfl, rfl⟩ := hx
  have hpos : (Task.index e (before.length + 1)
      (before.count false * indexBulkMax + 1)).CursorAligned ↔
      before.count false = before.length := by
    change before.count false * 4 + 1 = (before.length + 1 - 1) * 4 + 1 ↔ _
    omega
  rw [hpos, List.count_eq_length]
  simp only [List.mem_append, List.mem_singleton, reduceCtorEq, or_false]
  exact ⟨fun h htrue => absurd (h _ htrue) nofun, fun h there hthere => by
    cases there with
    | false => rfl
    | true => exact absurd hthere h⟩

end Executor

theorem observe_fst (D : Deployment) (p : Nat) (s : State × List Bool) (as : List Action) :
    (exec (D.observe p) s as).1 = exec D.step s.1 as := by
  induction as generalizing s with
  | nil => rfl
  | cons a as ih => exact ih _

/-- The answers of its pass say at any time where an indexer stands. -/
theorem atShard_pass (D : Deployment) {p : Nat} (hp : D.role p = .indexer) (as : List Action) :
    ((exec D.step .init as).procs p).AtShard (D.pass p as) := by
  have hinv : ((exec (D.observe p) (.init, []) as).1.procs p).AtShard (D.pass p as) := by
    refine exec_invariant (I := fun s : State × List Bool => (s.1.procs p).AtShard s.2) as
      trivial ?_
    rintro ⟨s, found⟩ a hx
    cases a with
    | manager => exact hx
    | exec q answers =>
        by_cases hq : q = p
        · subst hq
          have hstep := (s.procs q).step_spec D.platform (D.role q) answers s.kanban
          rw [hp] at hstep
          simpa [Deployment.observe, Deployment.step, hp] using hstep.atShard hx
        · simpa [Deployment.observe, Deployment.step, hq, Function.update_of_ne (Ne.symm hq)]
            using hx
    | crash q =>
        by_cases hq : q = p
        · subst hq
          simp [Deployment.observe, Deployment.step, Executor.AtShard]
        · simpa [Deployment.observe, Deployment.step, Function.update_of_ne (Ne.symm hq)] using hx
  rwa [observe_fst] at hinv

/-- An indexer's loop variables are those of an indexer. -/
theorem inRole_exec (D : Deployment) (as : List Action) (p : Nat) :
    ((exec D.step .init as).procs p).InRole (D.role p) := by
  refine exec_invariant (I := fun s : State => (s.procs p).InRole (D.role p)) as
    Executor.inRole_idle fun s a hx => ?_
  cases a with
  | manager => exact hx
  | exec q answers =>
      by_cases hq : q = p
      · subst hq
        have hstep := (s.procs q).step_spec D.platform (D.role q) answers s.kanban
        simpa [Deployment.step] using hstep.inRole hx
      · simpa [Deployment.step, Function.update_of_ne (Ne.symm hq)] using hx
  | crash q =>
      by_cases hq : q = p
      · subst hq
        simpa [Deployment.step] using Executor.inRole_idle
      · simpa [Deployment.step, Function.update_of_ne (Ne.symm hq)] using hx

/-- The cursor stands at the first batch of the shard that is built if and only if all checks of the
pass found their shard missing. -/
theorem Deployment.Builds.cursorAligned_iff {D : Deployment} {bs : List Action} {p : Nat}
    {answers : Inputs} {e : Int} {i pos : Nat} (h : D.Builds bs p answers e i pos) :
    (Task.index e i pos).CursorAligned ↔ true ∉ D.pass p bs := by
  obtain ⟨xs, got, hx, -⟩ := h
  have hrole := inRole_exec D bs p
  rw [hx] at hrole
  have hat := atShard_pass D (hrole.all _ rfl).1.symm bs
  rw [hx] at hat
  exact hat.cursorAligned_iff

theorem builtInOrder_iff (D : Deployment) (as : List Action) :
    D.BuiltInOrder as ↔ Meets D.step (CallsMeet fun t _ => t.CursorAligned) .init as := by
  rw [meets_iff_split]
  constructor
  · intro h bs a cs has
    cases a with
    | exec p answers =>
        intro t xs hcall
        cases t with
        | index e i pos =>
            have hbuilds : D.Builds bs p answers e i pos := ⟨xs, hcall⟩
            exact hbuilds.cursorAligned_iff.2 (h bs p answers cs e i pos has hbuilds)
        | _ => trivial
    | _ => trivial
  · intro h bs p answers cs e i pos has hbuilds
    obtain ⟨xs, hcall⟩ := id hbuilds
    exact hbuilds.cursorAligned_iff.1 (h bs _ cs has _ xs hcall)

/-- **Indexing.** The batches that an indexer waits for are those of the window of its shard if and
only if all checks of its pass found their shard missing. In a run in which that is so whenever a
shard is built, every index ever stored is made of exactly the batches of its window; and every
batch is in the window of exactly one shard. -/
theorem indexedByWindow_of_builtInOrder (D : Deployment) (src : Source) (as : List Action) :
    (∀ p answers e i pos, D.Builds as p answers e i pos →
      ((Task.index e i pos).inputs = (window i).map (Key.items (e - 1)) ↔ true ∉ D.pass p as)) ∧
    (Meets D.step (Answered src) .init as → D.BuiltInOrder as →
      IndexedByWindow D.platform (exec D.step .init as).kanban ∧
        ∀ j, 1 ≤ j → j ≤ itemsPoolMax → ∃! i, (1 ≤ i ∧ i ≤ indexPoolMax) ∧ j ∈ window i) := by
  refine ⟨fun p answers e i pos hbuilds => ?_, fun hans hord => ?_⟩
  · rw [← hbuilds.cursorAligned_iff]
    refine ⟨fun h => ?_, inputs_of_cursorAligned⟩
    exact (Key.items.inj (Option.some.inj (congrArg List.head? h))).2
  · have htraced : Traced D.platform src (fun t _ => t.CursorAligned) (exec D.step .init as) :=
      traced_of_meets hans ((builtInOrder_iff D as).1 hord)
    exact ⟨htraced.indexedByWindow fun _ _ ht => ht, fun _ h1 hj => existsUnique_window h1 hj⟩

/-! ## A skipped shard -/

/-- The documents of an index shard of epoch 2. -/
def sampleDocs (i : Nat) : List Bytes := (window i).map (sampleDoc startSteemBlockId)

/-- Their index, with hash maps in this order. -/
def sampleBlobIn (O : HashOrder) (i : Nat) : Bytes :=
  merge2Binary O (digests (sampleDocs i)) (indexOf samplePlatform (sampleDocs i))

/-- Their index. -/
def sampleBlob (i : Nat) : Bytes := sampleBlobIn insertionOrder i

/-- The witness key of an index of epoch 2. -/
def indexKey (i : Nat) : Bytes := sampleCrypto.sha256 (sampleBlob i)

theorem documents_batches (P : Platform) {docs : List Bytes}
    (h : ∀ doc ∈ docs, ∀ c ∈ doc, isHex c) :
    documents P ((docs.map batchOf).map cString) = some docs := by
  have hcstr : (docs.map batchOf).map cString = docs.map batchOf := by
    rw [List.map_map]
    refine List.map_congr_left fun doc hdoc => cString_of_nulFree ?_
    rw [batchOf_eq (h doc hdoc)]
    exact nulFree_append.2 ⟨nulFree_append.2 ⟨by decide, nulFree_of_hex (h doc hdoc)⟩, by decide⟩
  rw [hcstr]
  induction docs with
  | nil => rfl
  | cons doc docs ih =>
      rw [List.forall_mem_cons] at h
      have hrest : (docs.map batchOf).map cString = docs.map batchOf := by
        simpa using congrArg List.tail hcstr
      rw [List.map_cons, ← List.singleton_append]
      exact documents_append (documents_batchOf h.1) (ih h.2 hrest)

theorem map_sampleItems (i : Nat) :
    (window i).map (sampleItems startSteemBlockId) = (sampleDocs i).map batchOf := by
  rw [sampleDocs, List.map_map]
  exact List.map_congr_left fun j _ => sampleItems_eq _ j

theorem sampleDocs_hex (i : Nat) : ∀ doc ∈ sampleDocs i, ∀ c ∈ doc, isHex c := by
  intro doc hdoc
  obtain ⟨j, -, rfl⟩ := List.mem_map.1 hdoc
  exact sampleDoc_hex _ j

theorem length_sampleDocs (i : Nat) : (sampleDocs i).length = 4 := by
  rw [sampleDocs, List.length_map, window, List.length_map, List.length_range]
  rfl

theorem blobSize_sampleDocs : ∀ i ∈ List.range' 1 4,
    blobSize samplePlatform (sampleDocs i) < indexOutputMaxLength := by
  decide +kernel

section

variable (O : HashOrder) {i : Nat} (h1 : 1 ≤ i) (h4 : i ≤ indexPoolMax)

include h1 h4

theorem exists_indexCall_sample : ∃ out,
    indexCall samplePlatform O ((window i).map (sampleItems startSteemBlockId)) = some out ∧
      out.data = sampleBlobIn O i ∧
      witnessKey sampleRuntime out.witness = some (sampleCrypto.sha256 (sampleBlobIn O i)) := by
  have hdocs := documents_batches samplePlatform (sampleDocs_hex i)
  have hlen : ∀ x ∈ (sampleDocs i).map batchOf, (cString x).length < tempDigestLen := by
    rw [← map_sampleItems]
    intro x hx
    obtain ⟨j, -, rfl⟩ := List.mem_map.1 hx
    refine lt_of_le_of_lt (List.takeWhile_sublist _).length_le ?_
    rw [length_sampleItems]
    decide
  have hcount : (sampleDocs i).length + 1 < 2 ^ 32 := by rw [length_sampleDocs]; decide
  have hsize : (sampleBlobIn O i).length < indexOutputMaxLength := by
    rw [sampleBlobIn, length_merge2Binary O (indexes_indexOf hcount) hcount]
    exact blobSize_sampleDocs i (List.mem_range'_1.2 ⟨h1, Nat.lt_succ_of_le h4⟩)
  rw [map_sampleItems]
  refine indexCall_of_output ?_ (indexOutput_of_documents O hdocs hlen) hsize
  rw [List.length_map, length_sampleDocs]
  decide

end

/-- The output of an indexer for a shard of epoch 2. -/
def sampleIndex (i : Nat) : Output :=
  (indexCall samplePlatform insertionOrder
    ((window i).map (sampleItems startSteemBlockId))).getD ⟨[], []⟩

theorem spare_sampleItems (b : Int) (j : Nat) :
    sampleRuntime.spare (sampleItems b j).length := by
  rw [length_sampleItems]
  rfl

theorem spareBehind_sample (js : List Nat) :
    spareBehind sampleRuntime (js.map (sampleItems startSteemBlockId)) := by
  rw [spareBehind, List.all_eq_true, List.forall_mem_map]
  exact fun j _ => spare_sampleItems _ j

section

variable {i : Nat} (h1 : 1 ≤ i) (h4 : i ≤ indexPoolMax)

include h1 h4

theorem indexCall_sample :
    indexCall samplePlatform insertionOrder ((window i).map (sampleItems startSteemBlockId)) =
      some (sampleIndex i) := by
  obtain ⟨out, hout, -⟩ := exists_indexCall_sample insertionOrder h1 h4
  rw [sampleIndex, hout]
  rfl

theorem data_sampleIndex : (sampleIndex i).data = sampleBlob i := by
  obtain ⟨out, hout, hdata, -⟩ := exists_indexCall_sample insertionOrder h1 h4
  rw [sampleIndex, hout]
  exact hdata

theorem witnessKey_sampleIndex :
    witnessKey sampleRuntime (sampleIndex i).witness = some (indexKey i) := by
  obtain ⟨out, hout, -, hkey⟩ := exists_indexCall_sample insertionOrder h1 h4
  rw [sampleIndex, hout]
  exact hkey

end

/-- The outputs of the first two epochs have different hashes. -/
theorem nodup_keys : ((List.range' 1 16).map (itemsKey startSteemBlockId) ++
    ((List.range' 1 16).map (itemsKey secondBlockId) ++ (List.range' 1 4).map indexKey)).Nodup := by
  decide +kernel

/-- The digests are the same in every order. -/
theorem digests_eq_of_sampleBlobIn_eq {O O' : HashOrder} {i j : Nat}
    (h : sampleBlobIn O i = sampleBlobIn O' j) :
    digest2Binary (digests (sampleDocs i)) = digest2Binary (digests (sampleDocs j)) := by
  have hlen : ∀ i, (digest2Binary (digests (sampleDocs i))).length = 260 := by
    intro i
    have hdig : ∀ di ∈ digests (sampleDocs i), di.length + 1 = 65 := by
      intro di hdi
      obtain ⟨doc, hdoc, rfl⟩ := List.mem_map.1 hdi
      obtain ⟨j, -, rfl⟩ := List.mem_map.1 hdoc
      rw [List.length_take, length_sampleDoc]
      rfl
    rw [length_digest2Binary, List.map_congr_left hdig, List.map_const', List.sum_replicate_nat,
      digests, List.length_map, length_sampleDocs]
  exact List.append_inj_right' h (by rw [hlen, hlen])

/-- The first two shards have different documents. -/
theorem sampleBlobIn_ne (O O' : HashOrder) : sampleBlobIn O 1 ≠ sampleBlobIn O' 2 := fun h =>
  absurd (digests_eq_of_sampleBlobIn_eq h) (by decide +kernel)

theorem sampleBlob_eq (i : Nat) : sampleBlob i = sampleBlobIn insertionOrder i := rfl

-- From here on these are just names: unfolding them computes hashes.
attribute [irreducible] sampleBlobIn sampleBlob sampleIndex indexKey

theorem eq_map_of_forall₂ {α β : Type} {f : α → β} {l : List α} {l' : List β}
    (h : List.Forall₂ (fun a b => b = f a) l l') : l' = l.map f := by
  induction h with
  | nil => rfl
  | cons hab _ ih => rw [hab, ih, List.map_cons]

/-- The state after the first epoch. -/
def afterFirst : State := ⟨sampleFirst, ⟨.openEpoch, secondBlockId⟩, fun _ => .idle⟩

/-- Indexer 2 has put the first index of epoch 2. -/
def afterIndex : State :=
  afterFirst.upd 2 (.hset (.index 2 1 1) (sampleIndex 1))
    (sampleFirst.set (.index 2 1) (sampleBlob 1))

theorem leads_afterIndex {ok : State → Action → Prop} (hok : Lenient ok)
    (hget : ∀ got, ok (afterFirst.upd 2 (.gather (.index 2 1 1) got) sampleFirst)
      (.exec 2 (.plain []))) :
    Leads sampleDeployment.step ok afterFirst (List.replicate 7 (.exec 2 (.plain [])))
      afterIndex := by
  have hepoch : getEpochInt sampleRuntime sampleCrypto sampleFirst = some 2 :=
    getEpochInt_epochPacket (by decide) get_sampleFirst_epoch
  have hstart := leads_doIndex (D := sampleDeployment) (s := afterFirst) (p := 2) hok rfl hepoch
    le_rfl
  have hitems : ∀ j, 1 ≤ j → j ≤ 4 → sampleFirst.get (.items (2 - 1) j) =
      some (sampleItems startSteemBlockId j) := fun j h1 h4 =>
    get_sampleFirst_items h1 (h4.trans (by decide))
  have habsent : sampleFirst.get (.index 2 1) = none :=
    get_sampleFirst_of_ne (by simp) (by simp) (by simp)
  have hgather := leads_gather (D := sampleDeployment) (s := afterFirst) (p := 2) hok
    (by decide) habsent (hitems 1 (by decide) (by decide)) (hitems 2 (by decide) (by decide))
    (hitems 3 (by decide) (by decide)) (hitems 4 (by decide) (by decide))
    (spareBehind_sample (window 1)) (indexCall_sample (i := 1) le_rfl (by decide)) fun _ _ => hget _
  have hput := leads_put (D := sampleDeployment) (s := afterFirst) (p := 2) hok sampleFirst
    (.index 2 1 1) (sampleIndex 1)
  rw [data_sampleIndex le_rfl (by decide)] at hput
  rw [show afterFirst.upd 2 .idle sampleFirst = afterFirst from State.upd_eq_self rfl] at hstart
  exact hstart.append (hgather.append hput)

/-- Indexer 3 finds the first shard there and builds the second, with its cursor still at the
first batch. -/
theorem leads_skippedShard {ok : State → Action → Prop} (hok : Lenient ok)
    (hget : ∀ got, ok (afterIndex.upd 3 (.gather (.index 2 2 1) got) afterIndex.kanban)
      (.exec 3 (.plain []))) :
    Leads sampleDeployment.step ok afterIndex (List.replicate 8 (.exec 3 (.plain [])))
      (afterIndex.upd 3 (.hset (.index 2 2 1) (sampleIndex 1))
        (afterIndex.kanban.set (.index 2 2) (sampleBlob 1))) := by
  have hkb : ∀ k, k ≠ .index 2 1 → afterIndex.kanban.get k = sampleFirst.get k := fun k hk =>
    Kanban.get_set_of_ne _ hk _
  have hepoch : getEpochInt sampleRuntime sampleCrypto afterIndex.kanban = some 2 :=
    getEpochInt_epochPacket (by decide) ((hkb _ (by simp)).trans get_sampleFirst_epoch)
  have hstart := leads_doIndex (D := sampleDeployment) (s := afterIndex) (p := 3) hok rfl hepoch
    le_rfl
  have hskip := leads_skip (D := sampleDeployment) (s := afterIndex) (p := 3) hok
    (t := .index 2 1 1) (by decide) (Kanban.get_set_self sampleFirst (.index 2 1) (sampleBlob 1))
  have hitems : ∀ j, 1 ≤ j → j ≤ 4 → afterIndex.kanban.get (.items (2 - 1) j) =
      some (sampleItems startSteemBlockId j) := fun j h1 h4 =>
    (hkb _ (by simp)).trans (get_sampleFirst_items h1 (h4.trans (by decide)))
  have habsent : afterIndex.kanban.get (.index 2 2) = none :=
    (hkb _ (by simp)).trans (get_sampleFirst_of_ne (by simp) (by simp) (by simp))
  have hgather := leads_gather (D := sampleDeployment) (s := afterIndex) (p := 3) hok
    (by decide) habsent (hitems 1 (by decide) (by decide)) (hitems 2 (by decide) (by decide))
    (hitems 3 (by decide) (by decide)) (hitems 4 (by decide) (by decide))
    (spareBehind_sample (window 1)) (indexCall_sample (i := 1) le_rfl (by decide)) fun _ _ => hget _
  have hput := leads_put (D := sampleDeployment) (s := afterIndex) (p := 3) hok
    afterIndex.kanban (.index 2 2 1) (sampleIndex 1)
  rw [data_sampleIndex le_rfl (by decide)] at hput
  rw [State.upd_eq_self (s := afterIndex) (p := 3) (x := .idle) rfl] at hstart
  exact hstart.append (hskip.append (hgather.append hput))

/-- **A skipped shard.** The second shard of epoch 2 holds the index of the batches of the first,
which are then indexed twice. -/
theorem skipped_shard_not_indexedByWindow : ∃ as,
    Meets sampleDeployment.step (Answered sampleSource) .init as ∧
      ¬IndexedByWindow samplePlatform (exec sampleDeployment.step .init as).kanban := by
  have hrun := leads_sampleFirst_answered.append
    ((leads_afterIndex (lenient_answered _) fun _ => answered_index).append
      (leads_skippedShard (lenient_answered _) fun _ => answered_index))
  refine ⟨_, hrun.meets, ?_⟩
  rw [hrun.exec_eq]
  intro hwindow
  obtain ⟨batches, O, out, hbatches, hcall, hdata⟩ :=
    hwindow 2 2 (sampleBlob 1) le_rfl (by decide) (by decide) List.mem_cons_self
  have hfirst : ∀ j v, ((afterIndex.kanban.set (.index 2 2) (sampleBlob 1))).Stored
      (.items (2 - 1) j) v → v = sampleItems startSteemBlockId j := by
    intro j v hv
    rcases List.mem_cons.1 hv with heq | hv
    · cases heq
    · rcases List.mem_cons.1 hv with heq | hv
      · cases heq
      · exact stored_sampleFirst_items hv
  have heq : batches = (window 2).map (sampleItems startSteemBlockId) :=
    eq_map_of_forall₂ ((List.forall₂_map_left_iff.1 hbatches).imp hfirst)
  obtain ⟨out', hout, hdata', -⟩ := exists_indexCall_sample O (i := 2) (by decide) (by decide)
  rw [heq, hout, Option.some.injEq] at hcall
  rw [← hcall, hdata', sampleBlob_eq] at hdata
  exact sampleBlobIn_ne _ _ hdata.symm

/-- A run that builds the first shard of an epoch. -/
theorem indexedByWindow_first_index : ∃ as,
    Meets sampleDeployment.step (Answered sampleSource) .init as ∧
    sampleDeployment.BuiltInOrder as ∧
    (exec sampleDeployment.step .init as).kanban.Stored (.index 2 1) (sampleBlob 1) ∧
    IndexedByWindow samplePlatform (exec sampleDeployment.step .init as).kanban := by
  have hok := (lenient_answered sampleSource).and
    (lenient_callsMeet fun t _ => t.CursorAligned)
  have hrun := (leads_sampleFirst hok
      ⟨answered_of_ne_gather (by simp), callsMeet_of_ne_gather (by simp)⟩
      fun _ kb m f => ⟨answered_crawl (s := ⟨kb, m, f⟩) (sample_answers _ _ _),
        callsMeet_gather (s := ⟨kb, m, f⟩) fun _ => trivial⟩).append
    (leads_afterIndex hok fun _ => ⟨answered_index, callsMeet_gather fun _ => rfl⟩)
  have hans := hrun.meets.mono fun _ _ h => h.1
  have hord := (builtInOrder_iff _ _).2 (hrun.meets.mono fun _ _ h => h.2)
  refine ⟨_, hans, hord, ?_, ((indexedByWindow_of_builtInOrder _ sampleSource _).2 hans hord).1⟩
  rw [hrun.exec_eq]
  exact List.mem_cons_self

end DeSearch
