import DeSearch.BlockRange

/-!
# Crashes

A shard is published in several writes, and the other replicas look at the first of them only. An
executor that dies between that write and its last one leaves a shard that nobody will finish
(`stuck_after_crash`). As long as no executor dies there, every stored value has its witness key in
the set of its epoch or an executor that is about to add it (`Published`), and the pipeline is
never stuck (`not_stuck_of_crashesBetweenShards`).
-/

namespace DeSearch

open Run

/-! ## Stuck states -/

/-- Between `o_check_key` and the last write for a shard of the epoch. -/
def Executor.Busy (e : Int) : Executor → Prop
  | .gather t _ | .put t _ | .hset t _ | .sadd t _ _ | .copy t _ => t.epoch = e
  | _ => False

/-- The value under the key has no witness key in the set of the epoch. -/
def Unwitnessed (C : Crypto) (kb : Kanban) (e : Int) (k : Key) : Prop :=
  ∃ v, kb.get k = some v ∧ C.sha256 v ∉ kb.smembers e

/-- All shards of one kind are there. -/
def Kanban.HasAll (kb : Kanban) (key : Nat → Key) (n : Nat) : Prop :=
  ∀ i, 1 ≤ i → i ≤ n → kb.get (key i) ≠ none

/-- Nobody is working on the current epoch and nobody will, since the shards are there, but
something is missing that the manager or the reducers of the next epoch wait for. -/
def Stuck (P : Platform) (s : State) : Prop :=
  ∃ e, getEpochInt P.runtime P.crypto s.kanban = some e ∧ (∀ p, ¬(s.procs p).Busy e) ∧
    (s.kanban.HasAll (.items e) itemsPoolMax ∧
        (2 ≤ e → s.kanban.HasAll (.index e) indexPoolMax) ∧
        ((∃ i, 1 ≤ i ∧ i ≤ itemsPoolMax ∧ Unwitnessed P.crypto s.kanban e (.items e i)) ∨
          (2 ≤ e ∧ ∃ i, 1 ≤ i ∧ i ≤ indexPoolMax ∧ Unwitnessed P.crypto s.kanban e (.index e i)) ∨
          (e = 2 ∧ ∃ i, 1 ≤ i ∧ i ≤ indexPoolMax ∧ s.kanban.get (.globalIndex 2 i) = none)) ∨
      3 ≤ e ∧ s.kanban.HasAll (.globalIndex e) indexPoolMax ∧
        ∃ i, 1 ≤ i ∧ i ≤ indexPoolMax ∧ Unwitnessed P.crypto s.kanban e (.globalIndex e i))

/-! ## Executors that are publishing -/

/-- After `o_put_key` and before the last write for the shard. -/
def Executor.Publishing : Executor → Prop
  | .hset _ _ | .sadd _ _ _ | .copy _ _ => True
  | _ => False

/-- No executor dies while it is publishing. -/
def CrashesBetweenShards (s : State) : Action → Prop
  | .crash p => ¬(s.procs p).Publishing
  | _ => True

/-- About to add the witness key of a value. -/
def Executor.Appending (k : Key) (v : Bytes) : Executor → Prop
  | .hset t out | .sadd t out _ => t.key = k ∧ out.data = v
  | _ => False

/-- About to copy a first global index. -/
def Executor.Copying (i : Nat) : Executor → Prop
  | .hset t _ | .sadd t _ _ | .copy t _ => t.key = .index 2 i
  | _ => False

/-- An executor that copies has added the witness key. -/
def Executor.Appended (C : Crypto) (kb : Kanban) : Executor → Prop
  | .copy t out => (t.epoch, C.sha256 out.data) ∈ kb.sadds
  | _ => True

/-- Every stored value has its witness key in the set of its epoch, and every index of epoch 2 its
copy, or somebody is about to see to it. -/
structure Published (C : Crypto) (s : State) : Prop where
  appended : ∀ p, (s.procs p).Appended C s.kanban
  witness : ∀ t v, s.kanban.Stored (Task.key t) v →
    (t.epoch, C.sha256 v) ∈ s.kanban.sadds ∨ ∃ p, (s.procs p).Appending t.key v
  first : ∀ i v, s.kanban.Stored (.index 2 i) v →
    (∃ g, s.kanban.Stored (.globalIndex 2 i) g) ∨ ∃ p, (s.procs p).Copying i

/-! ## Steps -/

theorem Task.epoch_eq_of_key_eq {t t' : Task} (h : t.key = t'.key) : t.epoch = t'.epoch := by
  cases t <;> cases t' <;> cases h <;> rfl

section

variable {P : Platform} {src : Source} {F : Task → Inputs → Prop} {kb kb' : Kanban}
  {role : Role} {answers : Inputs} {x x' : Executor}

theorem Executor.Traced.sadd_key (hF : ∀ t xs, F t xs → t.Fits P xs) {t : Task} {out : Output}
    {k : Bytes} (h : (sadd t out k).Traced P src F kb) : k = P.crypto.sha256 out.data :=
  Option.some.inj (h.2.2.1.symm.trans (h.1.witnessKey_eq hF))

theorem Executor.Appended.mono {C : Crypto} (h : x.Appended C kb) (hs : kb.sadds ⊆ kb'.sadds) :
    x.Appended C kb' := by
  cases x with
  | copy t out => exact hs h
  | _ => trivial

theorem Executor.appended_enter (C : Crypto) (t : Task) : (enter t).Appended C kb := by
  unfold enter
  split_ifs <;> trivial

theorem Executor.Step.appended (hF : ∀ t xs, F t xs → t.Fits P xs)
    (h : Step P role answers kb x x' kb') (hx : x.Traced P src F kb) :
    x'.Appended P.crypto kb' := by
  cases h with
  | base | skip | copy => exact appended_enter _ _
  | @sadd t out k =>
      obtain rfl := hx.sadd_key hF
      unfold Executor.appended
      split
      · split_ifs
        · exact List.mem_cons_self
        · exact appended_enter _ _
      · exact appended_enter _ _
  | @start e =>
      rcases start_spec role e with h | h | ⟨t, h⟩ <;> (rw [h]; trivial)
  | call =>
      unfold Executor.call
      split <;> trivial
  | _ => trivial

/-- An executor that is about to add a witness key still is after its step, or has added it. -/
theorem Executor.Step.appending (hF : ∀ t xs, F t xs → t.Fits P xs)
    (h : Step P role answers kb x x' kb') (hx : x.Traced P src F kb) {t : Task} {v : Bytes}
    (hap : x.Appending t.key v) :
    x'.Appending t.key v ∨ (t.epoch, P.crypto.sha256 v) ∈ kb'.sadds := by
  cases h with
  | noKey hnone =>
      rw [hx.1.witnessKey_eq hF] at hnone
      cases hnone
  | hset => exact .inl hap
  | sadd =>
      obtain ⟨hkey, rfl⟩ := hap
      obtain rfl := hx.sadd_key hF
      rw [← Task.epoch_eq_of_key_eq hkey]
      exact .inr List.mem_cons_self
  | _ => exact hap.elim

/-- An executor that is about to copy a first global index still is after its step, or has. -/
theorem Executor.Step.copying (hF : ∀ t xs, F t xs → t.Fits P xs)
    (h : Step P role answers kb x x' kb') (hx : x.Traced P src F kb) {i : Nat}
    (hcp : x.Copying i) : x'.Copying i ∨ ∃ g, kb'.Stored (.globalIndex 2 i) g := by
  cases h with
  | noKey hnone =>
      rw [hx.1.witnessKey_eq hF] at hnone
      cases hnone
  | hset => exact .inl hcp
  | @sadd t out k =>
      cases t with
      | index e j pos =>
          cases hcp
          exact .inl rfl
      | _ => cases hcp
  | @copy t out =>
      cases t with
      | index e j pos =>
          cases hcp
          exact .inr ⟨_, List.mem_cons_self⟩
      | _ => cases hcp
  | _ => exact hcp.elim

end

section

variable {D : Deployment} {src : Source} {F : Task → Inputs → Prop} {s : State}

theorem Published.manager {C : Crypto} (h : Published C s) : Published C (D.step .manager s) := by
  have hl : s.kanban.LedgerOnly (D.step .manager s).kanban :=
    Manager.ledgerOnly_step (P := D.platform) (L := D.sort) s.manager
  have hold : ∀ {k v}, Key.isData k → (D.step .manager s).kanban.Stored k v →
      s.kanban.Stored k v := fun hk hkv =>
    (hl.sets _ _ hkv).resolve_right (by simp [hk])
  refine ⟨fun p => (h.appended p).mono hl.extends.sadds, fun t v hv => ?_, fun i v hv => ?_⟩
  · rw [hl.sadds]
    exact h.witness t v (hold t.isData_key hv)
  · exact (h.first i v (hold rfl hv)).imp_left fun ⟨g, hg⟩ => ⟨g, hl.mono hg⟩

theorem Published.crash {C : Crypto} {p : Nat} (h : Published C s)
    (hp : ¬(s.procs p).Publishing) : Published C (D.step (.crash p) s) := by
  have hother : ∀ {R : Executor → Prop}, (∀ x, R x → x.Publishing) → (∃ q, R (s.procs q)) →
      ∃ q, R ((D.step (.crash p) s).procs q) := by
    rintro R hR ⟨q, hq⟩
    refine ⟨q, ?_⟩
    change R (Function.update s.procs p .idle q)
    rwa [Function.update_of_ne]
    rintro rfl
    exact hp (hR _ hq)
  refine ⟨?_, fun t v hv => ?_, fun i v hv => ?_⟩
  · exact (Function.forall_update_iff _ fun _ => Executor.Appended C s.kanban).2
      ⟨trivial, fun q _ => h.appended q⟩
  · refine (h.witness t v hv).imp_right (hother fun x hx => ?_)
    cases x <;> trivial
  · refine (h.first i v hv).imp_right (hother fun x hx => ?_)
    cases x <;> trivial

theorem Published.exec (hF : ∀ t xs, F t xs → t.Fits D.platform xs) {p : Nat}
    {answers : Inputs} (h : Published D.platform.crypto s) (htr : Traced D.platform src F s) :
    Published D.platform.crypto (D.step (.exec p answers) s) := by
  have hstep := Executor.step_spec D.platform (D.role p) answers s.kanban (s.procs p)
  have hext := hstep.extends
  -- what some executor was about to do, it has done or is still about to do
  have hkeep : ∀ {R : Executor → Prop} {B : Prop}, (R (s.procs p) →
      R ((s.procs p).step D.platform (D.role p) answers s.kanban).1 ∨ B) →
      (∃ q, R (s.procs q)) → B ∨ ∃ q, R ((D.step (.exec p answers) s).procs q) := by
    rintro R B hR ⟨q, hq⟩
    by_cases hqp : q = p
    · subst hqp
      refine (hR hq).symm.imp_right fun hx => ⟨q, ?_⟩
      change R (Function.update s.procs q _ q)
      rwa [Function.update_self]
    · refine .inr ⟨q, ?_⟩
      change R (Function.update s.procs p _ q)
      rwa [Function.update_of_ne hqp]
  have hself : ∀ {R : Executor → Prop},
      R ((s.procs p).step D.platform (D.role p) answers s.kanban).1 →
      ∃ q, R ((D.step (.exec p answers) s).procs q) := fun {R} hx => by
    refine ⟨p, ?_⟩
    change R (Function.update s.procs p _ p)
    rwa [Function.update_self]
  refine ⟨?_, fun t v hv => ?_, fun i v hv => ?_⟩
  · refine (Function.forall_update_iff _ fun _ => Executor.Appended _ _).2
      ⟨hstep.appended hF (htr.procs p), fun q _ => (h.appended q).mono hext.sadds⟩
  · rcases hstep.stored hv with hold | ⟨t₀, out, rfl, ⟨hx, hkey⟩ | ⟨hx, hkey⟩⟩
    · rcases h.witness t v hold with hmem | hq
      · exact .inl (hext.sadds hmem)
      · exact hkeep (hstep.appending hF (htr.procs p)) hq
    · refine .inr (hself ?_)
      rw [hx]
      exact ⟨hkey.symm, rfl⟩
    · have hap := h.appended p
      rw [hx] at hap
      obtain rfl : t = .reduce t₀.epoch t₀.shard := by
        cases t <;> cases hkey
        rfl
      exact .inl (hext.sadds hap)
  · rcases hstep.stored hv with hold | ⟨t₀, out, rfl, ⟨hx, hkey⟩ | ⟨hx, hkey⟩⟩
    · rcases h.first i v hold with ⟨g, hg⟩ | hq
      · exact .inl ⟨g, hext.sets hg⟩
      · exact hkeep (hstep.copying hF (htr.procs p)) hq
    · refine .inr (hself ?_)
      rw [hx]
      exact hkey.symm
    · cases hkey

end

theorem published_init (C : Crypto) : Published C .init :=
  ⟨fun _ => trivial, fun _ _ h => absurd h List.not_mem_nil,
    fun _ _ h => absurd h List.not_mem_nil⟩

/-! ## The pipeline is not stuck -/

theorem Executor.Appending.busy {t : Task} {v : Bytes} {x : Executor}
    (h : x.Appending t.key v) : x.Busy t.epoch := by
  cases x with
  | hset t₀ out => exact Task.epoch_eq_of_key_eq h.1
  | sadd t₀ out k => exact Task.epoch_eq_of_key_eq h.1
  | _ => exact h.elim

theorem Executor.Copying.busy {i : Nat} {x : Executor} (h : x.Copying i) : x.Busy 2 := by
  have hepoch : ∀ t : Task, t.key = .index 2 i → t.epoch = 2 := fun t ht =>
    Task.epoch_eq_of_key_eq (show t.key = (Task.index 2 i 0).key from ht)
  cases x with
  | hset t out | sadd t out k | copy t out => exact hepoch t h
  | _ => exact h.elim

theorem Published.not_unwitnessed {C : Crypto} {s : State} (h : Published C s) (t : Task)
    (hidle : ∀ p, ¬(s.procs p).Busy t.epoch) : ¬Unwitnessed C s.kanban t.epoch t.key := by
  rintro ⟨v, hv, hno⟩
  rcases h.witness t v (Kanban.mem_of_get hv) with hmem | ⟨p, hp⟩
  · exact hno (Kanban.mem_smembers.2 hmem)
  · exact hidle p hp.busy

theorem Published.not_stuck {P : Platform} {s : State} (h : Published P.crypto s) :
    ¬Stuck P s := by
  rintro ⟨e, -, hidle, ⟨-, hindex, ⟨i, -, -, hno⟩ | ⟨-, i, -, -, hno⟩ | ⟨rfl, i, h1, hi, hnone⟩⟩ |
    ⟨-, -, i, -, -, hno⟩⟩
  · exact h.not_unwitnessed (.crawl e 0 i) hidle hno
  · exact h.not_unwitnessed (.index e i 0) hidle hno
  · obtain ⟨v, hv⟩ := Option.ne_none_iff_exists'.1 (hindex le_rfl i h1 hi)
    rcases h.first i v (Kanban.mem_of_get hv) with ⟨g, hg⟩ | ⟨p, hp⟩
    · obtain ⟨w, hw, -⟩ := Kanban.exists_get_of_mem hg
      rw [hnone] at hw
      cases hw
    · exact hidle p hp.busy
  · exact h.not_unwitnessed (.reduce e i) hidle hno

/-- **Crashes between shards.** In a run in which all outputs fit their buffers and no executor
dies between the first and the last write for a shard, no stuck state is reached. -/
theorem not_stuck_of_crashesBetweenShards (D : Deployment) (src : Source) (as : List Action)
    (h : Meets D.step (fun s a => Answered src s a ∧ CallsMeet (Task.Fits D.platform) s a ∧
      CrashesBetweenShards s a) .init as) :
    ¬Stuck D.platform (exec D.step .init as) := by
  have hinv : Traced D.platform src (Task.Fits D.platform) (exec D.step .init as) ∧
      Published D.platform.crypto (exec D.step .init as) := by
    refine h.invariant (I := fun s => Traced D.platform src (Task.Fits D.platform) s ∧
      Published D.platform.crypto s) ⟨traced_init, published_init _⟩ ?_
    rintro s a ⟨hans, hcall, hcrash⟩ ⟨htr, hpub⟩
    refine ⟨htr.step hans hcall, ?_⟩
    cases a with
    | manager => exact hpub.manager
    | exec p answers => exact hpub.exec (fun _ _ hf => hf) htr
    | crash p => exact hpub.crash hcrash
  exact hinv.2.not_stuck

/-! ## A crash while publishing -/

theorem lenient_crashesBetweenShards : Lenient CrashesBetweenShards where
  manager _ := trivial
  exec _ _ _ _ := trivial

/-- The first epoch is open. -/
def afterBoot : State := ⟨.booted sampleCrypto, ⟨.count 1 1, secondBlockId⟩, fun _ => .idle⟩

/-- Crawler 0 has put the first shard of the first epoch, and died. -/
def afterCrash : State :=
  ⟨(Kanban.booted sampleCrypto).set (.items 1 1) (sampleItems startSteemBlockId 1),
    ⟨.count 1 1, secondBlockId⟩, fun _ => .idle⟩

/-- The store when crawler 1 has done all the other shards. -/
def crashedTurn : Kanban :=
  afterCrash.kanban.crawled 1 startSteemBlockId (sampleCrawl startSteemBlockId)
    (itemsKey startSteemBlockId) 2 15

section

variable {ok : State → Action → Prop} (hok : Lenient ok)
  (hbase : ∀ kb m f p, ok ⟨kb, m, Function.update f p (.readBase 1)⟩ (.exec p (.plain [])))
  (hdownload : ∀ i kb m f p,
    ok ⟨kb, m, Function.update f p (.gather (.crawl 1 startSteemBlockId i) [])⟩
      (.exec p (.plain (sampleAnswers startSteemBlockId i))))
  (hcrash : ∀ s p, ok s (.crash p))

include hok hbase hdownload hcrash

theorem leads_afterCrash : ∃ as, Leads sampleDeployment.step ok .init as afterCrash := by
  have hboot : Leads sampleDeployment.step ok .init _ afterBoot := leads_boot hok
  have hstart := leads_doCrawl (D := sampleDeployment) (s := afterBoot) (p := 0) hok rfl
    (getEpochInt_epochPacket (by decide) (Kanban.get_epoch_booted sampleCrypto)) (by decide)
    (Kanban.get_blockId_booted sampleCrypto) (hbase _ _ _ _)
  rw [show afterBoot.upd 0 .idle (.booted sampleCrypto) = afterBoot from State.upd_eq_self rfl]
    at hstart
  have hdownload := leads_download (D := sampleDeployment) (s := afterBoot) (p := 0) hok (by decide)
    (Kanban.get_items_booted sampleCrypto 1 1) (crawlCall_sample startSteemBlockId 1)
    (hdownload 1 _ _ _ 0)
  have hput := leads_put (D := sampleDeployment) (s := afterBoot) (p := 0) hok
    (.booted sampleCrypto) (.crawl 1 startSteemBlockId 1) (sampleCrawl startSteemBlockId 1)
  have hrun := hboot.append (hstart.append (hdownload.append hput))
  refine ⟨_, hrun.append (.cons (hcrash _ 0) ?_ .nil)⟩
  rw [data_sampleCrawl]
  simp [Deployment.step, State.upd, afterBoot, afterCrash, Task.key]

theorem leads_crashedTurn : ∃ as, Leads sampleDeployment.step ok .init as
    ⟨crashedTurn, ⟨.count 1 1, secondBlockId⟩, fun _ => .idle⟩ := by
  obtain ⟨as, hcrashed⟩ := leads_afterCrash hok hbase hdownload hcrash
  have hget : ∀ k, k ≠ .items 1 1 → afterCrash.kanban.get k = (Kanban.booted sampleCrypto).get k :=
    fun k hk => Kanban.get_set_of_ne _ hk _
  have hstart := leads_doCrawl (D := sampleDeployment) (s := afterCrash) (p := 1) hok rfl
    (getEpochInt_epochPacket (by decide) ((hget _ (by simp)).trans (Kanban.get_epoch_booted _)))
    (by decide) (by rw [hget _ (by simp)]; exact Kanban.get_blockId_booted _) (hbase _ _ _ _)
  rw [State.upd_eq_self (s := afterCrash) (p := 1) (x := .idle) rfl] at hstart
  have hskip := leads_skip (D := sampleDeployment) (s := afterCrash) (p := 1) hok
    (t := .crawl 1 startSteemBlockId 1) (by decide)
    (Kanban.get_set_self (.booted sampleCrypto) (.items 1 1) (sampleItems startSteemBlockId 1))
  have hrest := leads_crawlShards (D := sampleDeployment) (s := afterCrash) (p := 1) hok
    (crawlCall_sample startSteemBlockId) (witnessKey_sampleCrawl startSteemBlockId)
    (fun i kb => hdownload i kb _ _ 1) 15 2 afterCrash.kanban (by decide) fun j hj _ => by
      rw [hget _ (by simp; omega)]
      rfl
  have hrun := hcrashed.append (hstart.append (hskip.append hrest))
  refine ⟨_, hrun.meets, hrun.exec_eq.trans ?_⟩
  have hdone : Executor.enter (.crawl 1 startSteemBlockId (2 + 15)) = .idle := rfl
  rw [hdone, State.upd_idle_kanban rfl]
  rfl

end

/-- **A crash while publishing.** Crawler 0 dies after it has put the first shard. Crawler 1 skips
that shard and does the others. Now every shard of the first epoch is there, but the witness key
of the first is not, and will never be. -/
theorem stuck_after_crash : ∃ as,
    Meets sampleDeployment.step (fun s a => Answered sampleSource s a ∧
      CallsMeet (Task.Fits samplePlatform) s a) .init as ∧
    Stuck samplePlatform (exec sampleDeployment.step .init as) := by
  obtain ⟨as, hrun⟩ := leads_crashedTurn
    ((lenient_answered sampleSource).and (lenient_callsMeet (Task.Fits samplePlatform)))
    (fun kb m f p => ⟨answered_of_ne_gather (by simp), callsMeet_of_ne_gather (by simp)⟩)
    (fun i kb m f p => ⟨answered_crawl (s := ⟨kb, m, f⟩) (sample_answers _ _ _),
      callsMeet_crawl (s := ⟨kb, m, f⟩) (admits_sampleAnswers _ _ _).fits_crawl⟩)
    fun s p => ⟨trivial, trivial⟩
  refine ⟨as, hrun.meets, ?_⟩
  rw [hrun.exec_eq]
  have hfirst : crashedTurn.get (.items 1 1) = some (sampleItems startSteemBlockId 1) := by
    rw [crashedTurn, Kanban.get_crawled_of_ne _ _ fun j hj _ => by simp; omega]
    exact Kanban.get_set_self _ _ _
  refine ⟨1, getEpochInt_epochPacket (by decide) ?_, fun p => id,
    .inl ⟨?_, fun h2 => absurd h2 (by decide), .inl ?_⟩⟩
  · rw [crashedTurn, Kanban.get_crawled_of_ne _ _ fun j hj _ => by simp]
    exact (Kanban.get_set_of_ne _ (by simp) _).trans (Kanban.get_epoch_booted _)
  · intro i h1 hi
    have h16 : itemsPoolMax = 16 := rfl
    by_cases hi1 : i = 1
    · rw [hi1, hfirst]
      simp
    · rw [crashedTurn, Kanban.get_crawled _ _ (by omega) (by omega)]
      simp
  · refine ⟨1, le_rfl, by decide, _, hfirst, ?_⟩
    change sampleCrypto.sha256 (sampleItems startSteemBlockId 1) ∉ crashedTurn.smembers 1
    rw [← itemsKey_eq, crashedTurn, Kanban.mem_smembers_crawled]
    rintro (hmem | ⟨-, j, hj, hj', heq⟩)
    · cases hmem
    · have := List.inj_on_of_nodup_map (List.Nodup.of_append_left nodup_keys)
        (List.mem_range'_1.2 ⟨le_rfl, by decide⟩) (List.mem_range'_1.2 ⟨by omega, by omega⟩) heq
      omega

/-- A run in which every shard of the first epoch is published, and a crawler dies after that. -/
theorem not_stuck_first_turn :
    Meets sampleDeployment.step (fun s a => Answered sampleSource s a ∧
      CallsMeet (Task.Fits samplePlatform) s a ∧ CrashesBetweenShards s a) .init
      (turnActions ++ [.crash 0]) ∧
    (exec sampleDeployment.step .init (turnActions ++ [.crash 0])).kanban.HasAll (.items 1)
      itemsPoolMax ∧
    ¬Stuck samplePlatform (exec sampleDeployment.step .init (turnActions ++ [.crash 0])) := by
  have hturn := leads_sampleTurn ((lenient_answered sampleSource).and
      ((lenient_callsMeet (Task.Fits samplePlatform)).and lenient_crashesBetweenShards))
    ⟨answered_of_ne_gather (by simp), callsMeet_of_ne_gather (by simp), trivial⟩
    fun i kb m f => ⟨answered_crawl (s := ⟨kb, m, f⟩) (sample_answers _ _ _),
      callsMeet_crawl (s := ⟨kb, m, f⟩) (admits_sampleAnswers _ _ _).fits_crawl, trivial⟩
  have hdie : Leads sampleDeployment.step (fun s a => Answered sampleSource s a ∧
      CallsMeet (Task.Fits samplePlatform) s a ∧ CrashesBetweenShards s a)
      ⟨sampleTurn, ⟨.count 1 1, secondBlockId⟩, fun _ => .idle⟩ [.crash 0]
      (sampleDeployment.step (.crash 0)
        ⟨sampleTurn, ⟨.count 1 1, secondBlockId⟩, fun _ => .idle⟩) :=
    .cons ⟨trivial, trivial, id⟩ rfl .nil
  have hrun := hturn.append hdie
  refine ⟨hrun.meets, ?_,
    not_stuck_of_crashesBetweenShards sampleDeployment sampleSource _ hrun.meets⟩
  rw [hrun.exec_eq]
  intro i h1 hi
  change sampleTurn.get (.items 1 i) ≠ none
  rw [sampleTurn, Kanban.firstTurn, Kanban.get_crawled _ _ h1 (by omega)]
  simp

end DeSearch
