import DeSearch.CircuitView
import DeSearch.Lib.Calls
import DeSearch.Matching
import DeSearch.OramProof

/-!
# The ORAM querier on its Circuit ORAMs

In `Oram.lean` an ORAM instance is an array. Here the code of the querier is a program that calls
`myZT_Access`, and it is run twice: on arrays, which gives the functions of `Oram.lean` back
(`run_serveZt`), and on the two Circuit ORAMs.

* `circuitServe_eq_serve`: if `pass_insert` always finds a free slot, the querier on its Circuit
  ORAMs answers as the plain querier does.
-/

namespace DeSearch

open Calls

/-! ## The program -/

/-- `digest_oram` and `index_oram`. -/
inductive OramInstance where
  | digest
  | index
deriving DecidableEq

/-- What the instance is created with. -/
def OramInstance.params : OramInstance → CircuitParams
  | digest => .digest
  | index => .index

/-- A call of `myZT_Access`. -/
structure ZtCall where
  inst : OramInstance
  id : Nat
  op : OramOp

/-- Code that calls `myZT_Access`. A call returns what it writes to `data_out`. -/
abbrev ZtProg : Type → Type := Prog Fault ZtCall Bytes

/-- `myZT_Access` with `'r'`. -/
def ztRead (inst : OramInstance) (id : Nat) : ZtProg Bytes := Prog.access ⟨inst, id, .read⟩

/-- `myZT_Access` with `'w'`. -/
def ztWrite (inst : OramInstance) (id : Nat) (block : Bytes) : ZtProg Unit := do
  let _ ← Prog.access ⟨inst, id, .write block⟩

/-- The loop of `create_digest_oram`, and the write behind it. -/
def storeDigestsZt (R : Runtime) (blockId : Nat) (dataIn : Bytes) : List Bytes → ZtProg Unit
  | [] => ztWrite .digest (blockId / 2) dataIn
  | di :: digest =>
      if blockId % 2 = 0 then
        storeDigestsZt R (blockId + 1) (halfBlock R di ++ dataIn.drop (blockSize / 2)) digest
      else do
        let dataIn := dataIn.take (blockSize / 2) ++ halfBlock R di
        ztWrite .digest (blockId / 2) dataIn
        storeDigestsZt R (blockId + 1) dataIn digest

/-- The last loop of `create_index_oram`. -/
def storeIndexZt (R : Runtime) (temp : Bytes) : ZtProg Unit :=
  (List.range (temp.length / blockSize + 1)).forM fun blockId =>
    ztWrite .index blockId (Blocks.cells (dataAt R temp) (blockId * blockSize) blockSize)

/-- The static variables besides the instances: `g_offset` and `g_length`, and
`querier_context_template`. -/
structure OramStatics where
  layout : List (DWord × Nat × Nat)
  context : WitnessContext

/-- `ecall_querier_setup`. -/
def setupZt (P : Platform) (O : HashOrder) (blob : Bytes) : ZtProg OramStatics := do
  let (index, digest) ← Prog.lift (loadBlob blob)
  storeDigestsZt P.runtime 0 (List.replicate blockSize 0) digest
  storeIndexZt P.runtime (linear (vlbRecords O index))
  return ⟨layout 0 (vlbRecords O index), querierContext P.crypto blob⟩

/-- `data_out`: the blocks from `block_start` to `block_end`. -/
def readBlocksZt (blockStart blockEnd : Nat) : ZtProg Bytes := do
  let blocks ← (List.range (blockEnd - blockStart + 1)).mapM fun k =>
    ztRead .index (blockStart + k)
  return blocks.flatten

/-- STEP 2 for one word. -/
def lookupZt (layout : List (DWord × Nat × Nat)) (wordID : DWord) : ZtProg (List DWord) :=
  match layout.lookup wordID with
  | none => return []
  | some (offset, length) =>
      if length = 0 then return []
      else do
        let dataOut ← readBlocksZt (offset / blockSize) ((offset + length) / blockSize)
        Prog.lift (decodeList ((dataOut.drop (offset % blockSize)).take length))

/-- STEP 4 for one docID. -/
def digestAtZt (docID : DWord) : ZtProg Bytes := do
  let blockId := (docID - 1).toNat
  let dataOut ← ztRead .digest (blockId / 2)
  return cString ((dataOut.drop (blockSize / 2 * (blockId % 2))).take (blockSize / 2))

/-- STEP 2 to STEP 5. -/
def resultsZt (layout : List (DWord × Nat × Nat)) (query : Query) : ZtProg (List Bytes) := do
  let docIDLists ← query.words.mapM (lookupZt layout)
  let shown ← Prog.lift (pageDocs (intersectLists [] none docIDLists) query.page)
  let found ← shown.mapM digestAtZt
  return found ++ List.replicate (10 - found.length) dummyResult

/-- `ecall_do_query`. -/
def doQueryZt (P : Platform) (q : OramStatics) (request : Bytes) (responseSize : Nat) :
    ZtProg Bytes := do
  match ← Prog.lift (parseRequest P request) with
  | none => return []
  | some query =>
      let results ← resultsZt q.layout query
      let finalAll ← Prog.lift (finalResponse P q.context request results)
      return copyOut responseSize finalAll

/-- A querier that is set up and then serves some requests. -/
def serveZt (P : Platform) (O : HashOrder) (blob : Bytes) (requests : List (Bytes × Nat)) :
    ZtProg (List Bytes) := do
  let q ← setupZt P O blob
  requests.mapM fun r => doQueryZt P q r.1 r.2

/-! ## The two services -/

/-- The two Circuit ORAMs, and the random numbers to come. -/
structure ZtState where
  circuits : OramInstance → CircuitState
  tape : Nat → BitVec 32

/-- `myZT_Access`. -/
def ztAccess (c : ZtCall) (s : ZtState) : Except Fault (Bytes × ZtState) :=
  if c.id < c.inst.params.maxBlocks then
    let (dataOut, st) := access c.inst.params (s.circuits c.inst) ⟨c.id, c.op, (s.tape 0).toNat⟩
    .ok (dataOut.getD [], ⟨Function.update s.circuits c.inst st, fun i => s.tape (i + 1)⟩)
  else .error .range

/-- The instances as they are created. -/
def ztStart (raw : OramInstance → OramBlock) (tape : Nat → BitVec 32) : ZtState :=
  ⟨fun inst => inst.params.initialized (raw inst), tape⟩

/-- Two arrays of blocks, and the blocks that calls were for. -/
structure ZtArrays where
  blocks : OramInstance → Nat → Bytes
  touched : OramInstance → List Nat

/-- `myZT_Access` on arrays. -/
def arrayAccess (c : ZtCall) (t : ZtArrays) : Except Fault (Bytes × ZtArrays) :=
  if c.id < c.inst.params.maxBlocks then
    .ok ((arrayOut ⟨c.id, c.op, 0⟩ (t.blocks c.inst)).getD [],
      ⟨Function.update t.blocks c.inst (arrayStep ⟨c.id, c.op, 0⟩ (t.blocks c.inst)),
        Function.update t.touched c.inst (c.id :: t.touched c.inst)⟩)
  else .error .range

/-- The arrays at the start. -/
def arrayStart : ZtArrays := ⟨fun _ _ => resetData blockSize, fun _ => []⟩

/-! ## The program on arrays -/

section
variable {P : Platform} {R : Runtime} {t : ZtArrays}

/-- The arrays hold the blocks of the model's instances. -/
structure Mirrors (t : ZtArrays) (oq : OramQuerier) : Prop where
  digest : oq.digestOram = ⟨digestBlockNum, t.blocks .digest⟩
  index : oq.indexOram = ⟨indexBlockNum, t.blocks .index⟩

variable {oq : OramQuerier}

/-- On such arrays the program gives what the model's function gives, and writes nothing. -/
def Computes {α : Type} (oq : OramQuerier) (x : ZtProg α) (y : Except Fault α) : Prop :=
  ∀ t, Mirrors t oq →
    Agree (fun t _ => Mirrors t oq) (run arrayAccess x t) (y.map fun a => (a, ()))

section
variable {α β : Type}

theorem Computes.lift (y : Except Fault α) : Computes oq (Prog.lift y) y := by
  intro t ht
  rw [run_lift]
  cases y with
  | error e => exact .error e
  | ok a => exact .ok a ht

theorem Computes.bind {x : ZtProg α} {y : Except Fault α} {f : α → ZtProg β}
    {g : α → Except Fault β} (hx : Computes oq x y) (hf : ∀ a, Computes oq (f a) (g a)) :
    Computes oq (x >>= f) (y >>= g) := by
  intro t ht
  have hsplit : (y >>= g).map (fun b => (b, ())) =
      y.map (fun a => (a, ())) >>= fun r => (g r.1).map fun b => (b, ()) := by
    cases y <;> rfl
  rw [run_bind, hsplit]
  apply (hx t ht).bind
  intro a t' _ _ ht'
  exact hf a t' ht'

theorem Computes.mapM {f : β → ZtProg α} {g : β → Except Fault α} {l : List β}
    (h : ∀ b ∈ l, Computes oq (f b) (g b)) : Computes oq (l.mapM f) (l.mapM g) := by
  induction l with
  | nil => exact Computes.lift (.ok [])
  | cons b l ih =>
      rw [List.forall_mem_cons] at h
      rw [List.mapM_cons, List.mapM_cons]
      exact h.1.bind fun a => (ih h.2).bind fun as => Computes.lift (.ok (a :: as))

end

theorem arrayAccess_read (t : ZtArrays) (inst : OramInstance) (id : Nat) :
    arrayAccess ⟨inst, id, .read⟩ t =
      if id < inst.params.maxBlocks then
        .ok (t.blocks inst id,
          ⟨t.blocks, Function.update t.touched inst (id :: t.touched inst)⟩)
      else .error .range := by
  have hsame : Function.update t.blocks inst (t.blocks inst) = t.blocks :=
    Function.update_eq_self inst t.blocks
  rw [arrayAccess]
  simp only [arrayOut, arrayStep, Option.getD_some, hsame]

theorem computes_ztRead {inst : OramInstance} {oram : Oram}
    (h : ∀ t, Mirrors t oq → oram = ⟨inst.params.maxBlocks, t.blocks inst⟩) (id : Nat) :
    Computes oq (ztRead inst id) (oram.read id) := by
  intro t ht
  rw [ztRead, run_access, arrayAccess_read, h t ht, Oram.read]
  dsimp only
  split_ifs
  · exact .ok _ ⟨ht.digest, ht.index⟩
  · exact .error _

theorem computes_lookupZt (w : DWord) :
    Computes oq (lookupZt oq.layout w) (oramLookup oq w) := by
  unfold lookupZt oramLookup
  cases oq.layout.lookup w with
  | none => exact Computes.lift (.ok [])
  | some r =>
      obtain ⟨offset, length⟩ := r
      dsimp only
      split_ifs with hlen
      · exact Computes.lift (.ok [])
      · apply Computes.bind
        · apply Computes.bind
          · apply Computes.mapM
            intro k _
            exact computes_ztRead (fun _ ht => ht.index) _
          · intro blocks
            exact Computes.lift (.ok blocks.flatten)
        · intro dataOut
          exact Computes.lift _

theorem computes_digestAtZt (docID : DWord) :
    Computes oq (digestAtZt docID) (oramDigestAt oq docID) :=
  (computes_ztRead (fun _ ht => ht.digest) _).bind fun _ => Computes.lift (.ok _)

theorem computes_resultsZt (query : Query) :
    Computes oq (resultsZt oq.layout query) (oramResults oq query) := by
  apply (Computes.mapM fun w _ => computes_lookupZt w).bind
  intro docIDLists
  apply (Computes.lift _).bind
  intro shown
  apply (Computes.mapM fun docID _ => computes_digestAtZt docID).bind
  intro found
  exact Computes.lift (.ok _)

/-- The static variables besides the instances. -/
def OramQuerier.statics (oq : OramQuerier) : OramStatics := ⟨oq.layout, oq.context⟩

theorem computes_doQueryZt (request : Bytes) (responseSize : Nat) :
    Computes oq (doQueryZt P oq.statics request responseSize)
      (oramDoQuery P oq request responseSize) := by
  apply (Computes.lift _).bind
  intro parsed
  cases parsed with
  | none => exact Computes.lift (.ok [])
  | some query =>
      apply (computes_resultsZt query).bind
      intro results
      apply (Computes.lift _).bind
      intro finalAll
      exact Computes.lift (.ok _)

/-! ## Setup on arrays -/

/-- The array of one instance holds the model's blocks, and those of the other one are as before. -/
structure Part (inst : OramInstance) (t₀ t : ZtArrays) (oram : Oram) : Prop where
  blocks : oram = ⟨inst.params.maxBlocks, t.blocks inst⟩
  others : ∀ other, other ≠ inst →
    t.blocks other = t₀.blocks other ∧ t.touched other = t₀.touched other

variable {inst : OramInstance} {t₀ : ZtArrays} {oram : Oram}

theorem agree_ztWrite (h : Part inst t₀ t oram) (id : Nat) (block : Bytes) :
    Agree (Part inst t₀) (run arrayAccess (ztWrite inst id block) t)
      ((oram.write id block).map fun oram => ((), oram)) := by
  rw [ztWrite, run_bind, run_access, arrayAccess, h.blocks, Oram.write]
  dsimp only
  split_ifs
  · apply Agree.ok
    refine ⟨?_, ?_⟩
    · simp [arrayStep]
    · intro other hne
      obtain ⟨hblocks, htouched⟩ := h.others other hne
      simp only [Function.update_of_ne hne]
      exact ⟨hblocks, htouched⟩
  · exact .error _

theorem agree_write_bind (h : Part inst t₀ t oram) (id : Nat) (block : Bytes) {x : ZtProg Unit}
    {f : Oram → Except Fault Oram}
    (hx : ∀ t oram, Part inst t₀ t oram →
      Agree (Part inst t₀) (run arrayAccess x t) ((f oram).map fun oram => ((), oram))) :
    Agree (Part inst t₀) (run arrayAccess (ztWrite inst id block >>= fun _ => x) t)
      ((oram.write id block >>= f).map fun oram => ((), oram)) := by
  have hsplit : (oram.write id block >>= f).map (fun oram => ((), oram)) =
      (oram.write id block).map (fun oram => ((), oram)) >>=
        fun r => (f r.2).map fun oram => ((), oram) := by
    cases oram.write id block <;> rfl
  rw [run_bind, hsplit]
  apply (agree_ztWrite h id block).bind
  intro _ t' oram' _ h'
  exact hx t' oram' h'

theorem agree_storeDigestsZt (h : Part .digest t₀ t oram) (blockId : Nat) (dataIn : Bytes)
    (digest : List Bytes) :
    Agree (Part .digest t₀) (run arrayAccess (storeDigestsZt R blockId dataIn digest) t)
      ((storeDigests R oram blockId dataIn digest).map fun oram => ((), oram)) := by
  induction digest generalizing t oram blockId dataIn with
  | nil => exact agree_ztWrite h _ _
  | cons di digest ih =>
      rw [storeDigestsZt, storeDigests]
      split_ifs with heven
      · exact ih h _ _
      · exact agree_write_bind h _ _ fun t oram h => ih h _ _

theorem agree_forM_ztWrite (h : Part inst t₀ t oram) (f : Nat → Bytes) (ids : List Nat) :
    Agree (Part inst t₀) (run arrayAccess (ids.forM fun id => ztWrite inst id (f id)) t)
      ((ids.foldlM (fun (oram : Oram) id => oram.write id (f id)) oram).map
        fun oram => ((), oram)) := by
  induction ids generalizing t oram with
  | nil => exact .ok () h
  | cons id ids ih =>
      rw [List.foldlM_cons]
      exact agree_write_bind h _ _ fun t oram h => ih h

theorem part_arrayStart (inst : OramInstance) :
    Part inst arrayStart arrayStart (.create inst.params.maxBlocks) :=
  ⟨rfl, fun _ _ => ⟨rfl, rfl⟩⟩

/-- The program sets up what the model's setup gives. -/
theorem agree_setupZt (O : HashOrder) (blob : Bytes) :
    Agree Mirrors (run arrayAccess (setupZt P O blob) arrayStart)
      ((oramQuerierSetup P O blob).map fun oq => (oq.statics, oq)) := by
  unfold setupZt oramQuerierSetup
  rw [run_bind, run_lift]
  cases loadBlob blob with
  | error e => exact .error e
  | ok tables =>
      obtain ⟨index, digest⟩ := tables
      let statics : OramStatics := ⟨layout 0 (vlbRecords O index), querierContext P.crypto blob⟩
      -- the instances one after the other, as the program has them
      have hsplit : (do
          let digestOram ← createDigestOram P.runtime digest
          let indexOram ← storeIndex P.runtime (linear (vlbRecords O index))
          return OramQuerier.mk digestOram indexOram statics.layout statics.context).map
            (fun oq : OramQuerier => (oq.statics, oq)) =
          (createDigestOram P.runtime digest).map (fun oram => ((), oram)) >>= fun r =>
            (storeIndex P.runtime (linear (vlbRecords O index))).map (fun oram => ((), oram)) >>=
              fun r' => .ok (statics, ⟨r.2, r'.2, statics.layout, statics.context⟩) := by
        cases createDigestOram P.runtime digest <;> cases storeIndex P.runtime _ <;> rfl
      rw [ok_bind, hsplit]
      show Agree Mirrors (run arrayAccess (storeDigestsZt P.runtime 0 _ digest >>= fun _ =>
        storeIndexZt P.runtime _ >>= fun _ => pure statics) arrayStart) _
      rw [run_bind]
      apply (agree_storeDigestsZt (part_arrayStart .digest) 0 (List.replicate blockSize 0)
        digest).bind
      intro _ t oram _ hpart
      have hindex : Part .index t t (.create indexBlockNum) :=
        ⟨congrArg (Oram.mk indexBlockNum) (hpart.others .index (by decide)).1.symm,
          fun _ _ => ⟨rfl, rfl⟩⟩
      dsimp only
      rw [run_bind]
      apply (agree_forM_ztWrite hindex _ _).bind
      intro _ t' oram' _ hpart'
      refine .ok statics ⟨?_, hpart'.blocks⟩
      dsimp only
      rw [(hpart'.others .digest (by decide)).1]
      exact hpart.blocks

/-- **On arrays** the program is the querier of `Oram.lean`. -/
theorem run_serveZt (O : HashOrder) (blob : Bytes) (requests : List (Bytes × Nat)) :
    (run arrayAccess (serveZt P O blob requests) arrayStart).map Prod.fst =
      oramServe P O blob requests := by
  have hsplit : (oramServe P O blob requests).map (fun responses => (responses, ())) =
      (oramQuerierSetup P O blob).map (fun oq => (oq.statics, oq)) >>= fun r =>
        (requests.mapM fun req => oramDoQuery P r.2 req.1 req.2).map
          fun responses => (responses, ()) := by
    unfold oramServe
    cases oramQuerierSetup P O blob <;> rfl
  have hagree : Agree (fun _ _ => True) (run arrayAccess (serveZt P O blob requests) arrayStart)
      ((oramServe P O blob requests).map fun responses => (responses, ())) := by
    rw [serveZt, run_bind, hsplit]
    apply (agree_setupZt O blob).bind
    intro statics t oq hsetup ht
    have hstatics : statics = oq.statics := by
      cases hoq : oramQuerierSetup P O blob with
      | error e =>
          rw [hoq] at hsetup
          cases hsetup
      | ok oq =>
          rw [hoq] at hsetup
          cases hsetup
          rfl
    rw [hstatics]
    exact (Computes.mapM (fun r _ => computes_doQueryZt r.1 r.2) t ht).mono
      fun _ _ _ => trivial
  rw [hagree.map_fst]
  cases oramServe P O blob requests <;> rfl

end

/-! ## The blocks are written once -/

section
variable {P : Platform} {R : Runtime} {t : ZtArrays}

/-- A write is the first call for its block. -/
def Fresh (c : ZtCall) (t : ZtArrays) : Prop :=
  ∀ block, c.op = .write block → c.id ∉ t.touched c.inst

theorem meets_ztWrite {inst : OramInstance} {id : Nat} (h : id ∉ t.touched inst) (block : Bytes) :
    Meets arrayAccess Fresh (ztWrite inst id block) t :=
  (meets_access fun _ _ => h).bind fun _ s _ => meets_pure () s

/-- What a write leaves behind. -/
theorem touched_ztWrite {inst : OramInstance} {id : Nat} {block : Bytes} {t' : ZtArrays}
    (h : run arrayAccess (ztWrite inst id block) t = .ok ((), t')) :
    t'.touched = Function.update t.touched inst (id :: t.touched inst) := by
  rw [ztWrite, run_bind, run_access, arrayAccess] at h
  dsimp only at h
  split_ifs at h
  · cases h
    rfl
  · cases h

theorem meets_storeDigestsZt (blockId : Nat) (dataIn : Bytes) (digest : List Bytes)
    (h : ∀ id ∈ t.touched .digest, id < blockId / 2) :
    Meets arrayAccess Fresh (storeDigestsZt R blockId dataIn digest) t := by
  have hfresh : blockId / 2 ∉ t.touched .digest := fun hmem => lt_irrefl _ (h _ hmem)
  induction digest generalizing t blockId dataIn with
  | nil => exact meets_ztWrite hfresh dataIn
  | cons di digest ih =>
      rw [storeDigestsZt]
      split_ifs with heven
      · have hblock : (blockId + 1) / 2 = blockId / 2 := by omega
        apply ih
        · rwa [hblock]
        · rwa [hblock]
      · have hblock : (blockId + 1) / 2 = blockId / 2 + 1 := by omega
        apply (meets_ztWrite hfresh _).bind
        intro _ t' hrun
        have hbelow : ∀ id ∈ t'.touched .digest, id < (blockId + 1) / 2 := by
          rw [touched_ztWrite hrun, Function.update_self, List.forall_mem_cons, hblock]
          exact ⟨Nat.lt_succ_self _, fun id hid => (h id hid).trans (Nat.lt_succ_self _)⟩
        exact ih _ _ hbelow fun hmem => lt_irrefl _ (hbelow _ hmem)

theorem meets_forM_ztWrite {inst : OramInstance} (f : Nat → Bytes) {ids : List Nat}
    (hnodup : ids.Nodup) (h : ∀ id ∈ ids, id ∉ t.touched inst) :
    Meets arrayAccess Fresh (ids.forM fun id => ztWrite inst id (f id)) t := by
  induction ids generalizing t with
  | nil => exact meets_pure () t
  | cons id ids ih =>
      rw [List.nodup_cons] at hnodup
      rw [List.forall_mem_cons] at h
      apply (meets_ztWrite h.1 (f id)).bind
      intro _ t' hrun
      apply ih hnodup.2
      intro id' hid'
      rw [touched_ztWrite hrun, Function.update_self, List.mem_cons, not_or]
      exact ⟨fun heq => hnodup.1 (heq ▸ hid'), h.2 id' hid'⟩

theorem only_reads_ztRead (inst : OramInstance) (id : Nat) :
    Only (fun c => c.op = .read) (ztRead inst id) :=
  only_access rfl

theorem only_reads_lookupZt (layout : List (DWord × Nat × Nat)) (w : DWord) :
    Only (fun c => c.op = .read) (lookupZt layout w) := by
  unfold lookupZt
  cases layout.lookup w with
  | none => exact only_pure []
  | some r =>
      obtain ⟨offset, length⟩ := r
      dsimp only
      split_ifs with hlen
      · exact only_pure []
      · apply Only.bind
        · exact (only_mapM fun k _ => only_reads_ztRead _ _).bind fun _ => only_pure _
        · intro dataOut
          exact only_lift _

/-- A query writes nothing. -/
theorem only_reads_doQueryZt (q : OramStatics) (request : Bytes) (responseSize : Nat) :
    Only (fun c => c.op = .read) (doQueryZt P q request responseSize) := by
  apply (only_lift _).bind
  intro parsed
  cases parsed with
  | none => exact only_pure []
  | some query =>
      apply Only.bind
      · apply (only_mapM fun w _ => only_reads_lookupZt q.layout w).bind
        intro docIDLists
        apply (only_lift _).bind
        intro shown
        apply Only.bind
        · exact only_mapM fun docID _ => (only_reads_ztRead _ _).bind fun _ => only_pure _
        · intro found
          exact only_pure _
      · intro results
        exact (only_lift _).bind fun _ => only_pure _

/-- Every block is written by its first call. -/
theorem meets_serveZt (O : HashOrder) (blob : Bytes) (requests : List (Bytes × Nat)) :
    Meets arrayAccess Fresh (serveZt P O blob requests) arrayStart := by
  apply Meets.bind
  · apply (meets_lift _).bind
    intro tables t hload
    have hstart : t = arrayStart := by
      rw [run_lift] at hload
      cases hblob : loadBlob blob <;> rw [hblob] at hload <;> cases hload
      rfl
    subst hstart
    apply (meets_storeDigestsZt 0 _ tables.2 fun _ hid =>
      absurd hid List.not_mem_nil).bind
    intro _ t' hrun
    -- the digests leave the other instance alone
    have hagree := agree_storeDigestsZt (R := P.runtime) (part_arrayStart .digest) 0
      (List.replicate blockSize 0) tables.2
    rw [hrun] at hagree
    obtain ⟨oram, -, hpart⟩ := hagree.exists_of_ok
    refine (meets_forM_ztWrite _ List.nodup_range ?_).bind fun _ s _ => meets_pure _ s
    rw [(hpart.others .index (by decide)).2]
    exact fun id _ => List.not_mem_nil
  · intro q t _
    refine Only.meets (only_mapM fun r _ => only_reads_doQueryZt q r.1 r.2) ?_ t
    intro c t hread block hwrite
    rw [hread] at hwrite
    cases hwrite

end

/-! ## The program on Circuit ORAMs -/

section
variable {P : Platform} {s : ZtState} {t : ZtArrays}

/-- `pass_insert` finds a free slot. -/
def HasRoom (c : ZtCall) (s : ZtState) : Prop := Roomy c.inst.params (s.circuits c.inst)

instance (c : ZtCall) (s : ZtState) : Decidable (HasRoom c s) :=
  inferInstanceAs (Decidable (∃ b ∈ (s.circuits c.inst).stash, b.IsDummy c.inst.params.maxBlocks))

/-- The circuits store the arrays, and blocks that no call was for are where they were. -/
structure Implements (s : ZtState) (t : ZtArrays) : Prop where
  stores : ∀ inst, StoresArray inst.params (s.circuits inst) (t.blocks inst)
  untouched : ∀ inst, ∀ id < inst.params.maxBlocks, id ∉ t.touched inst →
    Untouched (s.circuits inst) id

theorem implements_start (raw : OramInstance → OramBlock) (tape : Nat → BitVec 32) :
    Implements (ztStart raw tape) arrayStart where
  stores inst := by
    have hdata : inst.params.dummy.data = resetData blockSize := by cases inst <;> rfl
    have hstores := @storesArray_initialized inst.params (raw inst)
    rwa [hdata] at hstores
  untouched inst id hid _ := untouched_initialized (raw inst) hid

/-- One call. -/
theorem agree_access {c : ZtCall} (h : Implements s t) (hroom : HasRoom c s) (hfresh : Fresh c t) :
    Agree Implements (ztAccess c s) (arrayAccess c t) := by
  obtain ⟨inst, id, op⟩ := c
  unfold ztAccess arrayAccess
  dsimp only
  split_ifs with hid
  · let req : OramRequest := ⟨id, op, (s.tape 0).toNat⟩
    have hallowed : Allowed inst.params (s.circuits inst) req := ⟨hid, hroom⟩
    have hcareful : Careful inst.params (s.circuits inst) req :=
      ⟨hallowed, fun block hop => (h.untouched inst id hid (hfresh block hop)).gathered⟩
    have hout : (access inst.params (s.circuits inst) req).1 = arrayOut req (t.blocks inst) :=
      congrArg Prod.fst ((h.stores inst).access_eq hid)
    show Agree Implements (.ok ((access inst.params (s.circuits inst) req).1.getD [],
      ⟨Function.update s.circuits inst (inst.params.step req (s.circuits inst)), _⟩)) _
    rw [hout]
    refine .ok _ ⟨?_, ?_⟩
    · intro other
      by_cases heq : other = inst
      · subst heq
        dsimp only
        rw [Function.update_self, Function.update_self]
        exact (h.stores other).step hcareful
      · dsimp only
        rw [Function.update_of_ne heq, Function.update_of_ne heq]
        exact h.stores other
    · intro other id' hid' hmem
      by_cases heq : other = inst
      · subst heq
        dsimp only at hmem ⊢
        rw [Function.update_self, List.mem_cons, not_or] at hmem
        rw [Function.update_self]
        exact (h.untouched other id' hid' hmem.2).step hid' hmem.1 (h.stores other) hallowed
      · dsimp only at hmem ⊢
        rw [Function.update_of_ne heq] at hmem ⊢
        exact h.untouched other id' hid' hmem
  · exact .error _

/-- The querier on its Circuit ORAMs. -/
def circuitServe (P : Platform) (O : HashOrder) (raw : OramInstance → OramBlock)
    (tape : Nat → BitVec 32) (blob : Bytes) (requests : List (Bytes × Nat)) :
    Except Fault (List Bytes) :=
  (run ztAccess (serveZt P O blob requests) (ztStart raw tape)).map Prod.fst

/-- A run that always has room goes as on arrays. -/
theorem agree_serveZt {O : HashOrder} {blob : Bytes} {raw : OramInstance → OramBlock}
    {tape : Nat → BitVec 32} {requests : List (Bytes × Nat)}
    (hroom : Meets ztAccess HasRoom (serveZt P O blob requests) (ztStart raw tape)) :
    Agree Implements (run ztAccess (serveZt P O blob requests) (ztStart raw tape))
        (run arrayAccess (serveZt P O blob requests) arrayStart) ∧
      calls ztAccess (serveZt P O blob requests) (ztStart raw tape) =
        calls arrayAccess (serveZt P O blob requests) arrayStart := by
  have hstep : ∀ c s t, Implements s t → HasRoom c s → Fresh c t →
      Agree Implements (ztAccess c s) (arrayAccess c t) :=
    fun _ _ _ h hroom hfresh => agree_access h hroom hfresh
  exact Agree.run hstep (implements_start raw tape) hroom (meets_serveZt O blob requests)

/-- **From the trees to the tables.** Let a blob of the pipeline fit the two instances, and let
`pass_insert` find a free slot in every access. Then the querier that keeps its tables in two
Circuit ORAMs answers all requests as the plain querier does. -/
theorem circuitServe_eq_serve (O : HashOrder) {blob : Bytes} (h : PipelineBlob P blob)
    (hfits : OramFits blob) (raw : OramInstance → OramBlock) (tape : Nat → BitVec 32)
    (requests : List (Bytes × Nat))
    (hroom : Meets ztAccess HasRoom (serveZt P O blob requests) (ztStart raw tape)) :
    circuitServe P O raw tape blob requests = serve P blob requests := by
  obtain ⟨docs, hcount, hnul, index, hread, hidx⟩ := h.represents
  have hwf := wellFormed_of_indexes hidx hnul hcount
  obtain ⟨hdigest, hindex⟩ := hfits index _ hread
  obtain ⟨oq, hsetup, hsim⟩ := simulates_of_fits O hread hwf hdigest hindex
  have hplain : ecallQuerierSetup P.crypto blob = .ok ⟨index, _, querierContext P.crypto blob⟩ :=
    ecallQuerierSetup_eq_ok.2 ⟨hread, rfl⟩
  rw [circuitServe, (agree_serveZt hroom).1.map_fst, run_serveZt, oramServe, serve, hsetup, hplain,
    ok_bind, ok_bind]
  exact mapM_congr fun r _ => hsim.doQuery r.1 r.2

end

theorem oramFits_deltaBlob : OramFits deltaBlob := by
  have hroom : (readBlob deltaBlob).all fun t =>
      t.2.length / 2 < digestBlockNum ∧ vlbTotal t.1 / blockSize < indexBlockNum := by
    decide +kernel
  intro index digest hread
  rw [hread] at hroom
  simpa using hroom

/-- Where a search has room, the response takes none. -/
theorem meets_serveZt_single {P : Platform} {O : HashOrder} {blob request : Bytes} {query : Query}
    {s : ZtState} (hparse : parseRequest P request = .ok (some query))
    (h : Meets ztAccess HasRoom (setupZt P O blob >>= fun q => resultsZt q.layout query) s)
    (size : Nat) : Meets ztAccess HasRoom (serveZt P O blob [(request, size)]) s := by
  rw [meets_bind] at h
  apply h.1.bind
  intro q s' hrun
  rw [List.mapM_cons, doQueryZt, hparse]
  have hrest : ∀ (results : List Bytes) (s : ZtState), Meets ztAccess HasRoom (do
      let finalAll ← Prog.lift (finalResponse P q.context request results)
      return copyOut size finalAll) s :=
    fun results s => (meets_lift _).bind fun _ s _ => meets_pure _ s
  exact ((h.2 q s' hrun).bind fun results s _ => hrest results s).bind fun _ s _ => meets_pure _ s

theorem parse_composeQuery (keywords : Bytes) (hk : NulFree keywords) :
    parseRequest samplePlatform (composeQuery keywords 1) =
      .ok (some ⟨(samplePlatform.tokens ((JSON.string keywords).dump 1)).take 32, 1⟩) :=
  parseRequest_composeQuery hk (by decide)

/-- A search in a shard of two documents. -/
theorem circuitServe_eq_serve_bravo :
    circuitServe samplePlatform insertionOrder (fun inst => inst.params.dummy) (fun _ => 5)
        deltaBlob [(composeQuery (ascii "bravo") 1, bufferSize)] =
      serve samplePlatform deltaBlob [(composeQuery (ascii "bravo") 1, bufferSize)] :=
  circuitServe_eq_serve _ setUp_deltaBlob.1 oramFits_deltaBlob _ _ _
    (meets_serveZt_single (parse_composeQuery (ascii "bravo") (by decide)) (by decide +kernel) _)

end DeSearch
