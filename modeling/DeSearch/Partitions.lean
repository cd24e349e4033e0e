import DeSearch.Managers
import DeSearch.Registrations
import Mathlib.Tactic.IntervalCases

/-!
# Partitions

If a partition is drawn only while the epoch is the one that the set-up is for, then the draws for
an epoch are consecutive values of the counter, and as many queriers as there are partitions cover
all of them (`partitions_served`). A draw for the epoch before that comes in between leaves a
partition to nobody (`partition_unserved`).
-/

namespace DeSearch

open Run

/-! ## Partitions -/

/-- A partition is drawn while the epoch is the one that both reads have found, and the counter
still is an `int`. -/
def DrawsInEpoch (P : Platform) (s : Site) : SiteAction → Prop
  | .querier n => ∀ seen e m, (s.queriers n).pc = .draw seen e m →
      seen = e ∧ EpochIs P s.kanban e ∧ s.counter + 1 < 2 ^ 31
  | .rest _ => True

theorem DrawsInEpoch.readsAgree {P : Platform} {s : Site} {a : SiteAction}
    (h : DrawsInEpoch P s a) : ReadsAgree s a := by
  cases a with
  | querier n => exact fun seen e m hpc => (h seen e m hpc).1
  | rest kb => trivial

section

variable {P : Platform} {s s' : Site} {E : Int} {n : Nat} {draws drawn : List Node}

/-- The draws are the values of the counter in turn, and they are in the order of their epochs. -/
structure Drawn (P : Platform) (E : Int) (draws : List Node) (s : Site) : Prop where
  accurate : Accurate P E draws s
  opened : Opened P s.kanban
  maxPartition : ∀ n seen e m, (s.queriers n).pc = .draw seen e m → m = indexPoolMax
  counter : s.counter = draws.length
  partition : ∀ d t, d :: t <:+ draws → d.partition = partitionOf (t.length + 1)
  sorted : draws.Pairwise fun d d' => d'.epoch ≤ d.epoch
  upTo : ∀ d ∈ draws, d.epoch ≤ E

theorem Drawn.querier (h : Drawn P E draws s) (hdraw : DrawsInEpoch P s (.querier n))
    (hstep : s.Step P n drawn s') : Drawn P E (drawn ++ draws) s' := by
  have hacc := h.accurate.querier hdraw.readsAgree hstep
  refine ⟨hacc, hstep.kanban_eq ▸ h.opened, fun k seen e m hpc => ?_, ?_, ?_, ?_, ?_⟩
  · by_cases hk : k = n
    · subst hk
      cases hstep with
      | readMax _ hm =>
          rw [Site.queriers_goto_self] at hpc
          cases hpc
          exact h.opened.stoi_shardingMax hm
      | stay => exact h.maxPartition k seen e m hpc
      | _ => simp at hpc
    · exact h.maxPartition k seen e m (hstep.queriers_of_ne hk ▸ hpc)
  · cases hstep with
    | trap hpc hnone =>
        rw [h.maxPartition _ _ _ _ hpc, partitionId_of_lt (hdraw _ _ _ hpc).2.2] at hnone
        cases hnone
    | draw => rw [List.length_append, ← h.counter, Nat.add_comm, List.length_singleton]
    | _ => exact h.counter
  · cases hstep with
    | draw hpc hid =>
        intro d t hsuffix
        rcases List.suffix_cons_iff.1 hsuffix with heq | hsuffix
        · obtain ⟨rfl, rfl⟩ := List.cons.inj heq
          rw [h.maxPartition _ _ _ _ hpc, partitionId_of_lt (hdraw _ _ _ hpc).2.2] at hid
          rw [← h.counter]
          exact (Option.some.inj hid).symm
        · exact h.partition d t hsuffix
    | _ => exact h.partition
  · cases hstep with
    | draw hpc =>
        refine List.pairwise_cons.2 ⟨fun d hd => ?_, h.sorted⟩
        have he := (hdraw _ _ _ hpc).2.1
        obtain rfl := Option.some.inj (h.accurate.epoch.getEpochInt.symm.trans he.getEpochInt)
        exact h.upTo d hd
    | _ => exact h.sorted
  · cases hstep with
    | draw hpc =>
        have he := (hdraw _ _ _ hpc).2.1
        obtain rfl := Option.some.inj (h.accurate.epoch.getEpochInt.symm.trans he.getEpochInt)
        exact List.forall_mem_cons.2 ⟨le_rfl, h.upTo⟩
    | _ => exact h.upTo

/-- An action adds the draws of a querier, if it is one of its steps. -/
theorem Drawn.step (h : Drawn P E draws s) {a : SiteAction} (hrest : RestMoves P s a)
    (hdraw : DrawsInEpoch P s a) : ∃ E' drawn, Drawn P E' (drawn ++ draws) (siteStep P a s) ∧
      ∀ d ∈ drawn, a = .querier d.querier := by
  cases a with
  | querier n =>
      obtain ⟨drawn, hstep⟩ := s.step_spec P n
      exact ⟨E, drawn, h.querier hdraw hstep, fun d hd => by rw [hstep.querier_of_mem hd]⟩
  | rest kb =>
      obtain ⟨E', hle, hacc⟩ := h.accurate.rest hrest
      exact ⟨E', [], ⟨hacc, h.opened.moves hrest, h.maxPartition, h.counter, h.partition, h.sorted,
        fun d hd => (h.upTo d hd).trans hle⟩, fun _ hd => nomatch hd⟩

theorem drawn_init {kb : Kanban} (hkb : Opened P kb) : ∃ E, Drawn P E [] (.init kb) := by
  obtain ⟨E, hpos, hE⟩ := hkb.epoch
  exact ⟨E, {
    accurate := accurate_init hE hpos
    opened := hkb
    maxPartition := fun _ _ _ _ h => nomatch h
    counter := rfl
    partition := fun d t h => absurd (List.suffix_nil.1 h) (List.cons_ne_nil d t)
    sorted := .nil
    upTo := fun _ h => nomatch h }⟩

/-- Among draws in the order of their epochs, those of one epoch stand one after another. -/
theorem exists_draw_of_epoch {draws : List Node}
    (hsorted : draws.Pairwise fun d d' => d'.epoch ≤ d.epoch) (e : Int) {i : Nat}
    (hi : i < draws.countP fun d => d.epoch = e) :
    ∃ d t, d :: t <:+ draws ∧ d.epoch = e ∧
      t.length = (draws.countP fun d => d.epoch < e) + i := by
  induction draws with
  | nil => simp at hi
  | cons d draws ih =>
      rw [List.pairwise_cons] at hsorted
      rcases lt_trichotomy d.epoch e with hlt | rfl | hgt
      · have hnone : (d :: draws).countP (fun d => d.epoch = e) = 0 := by
          refine List.countP_eq_zero.2 (List.forall_mem_cons.2 ⟨by simpa using hlt.ne, ?_⟩)
          exact fun d' hd' => by simpa using ((hsorted.1 d' hd').trans_lt hlt).ne
        omega
      · have hlt : ∀ d' ∈ draws, d'.epoch ≠ d.epoch ↔ d'.epoch < d.epoch :=
          fun d' hd' => ⟨(hsorted.1 d' hd').lt_of_ne, ne_of_lt⟩
        have hlength : draws.length = (draws.countP fun d' => d'.epoch = d.epoch) +
            draws.countP fun d' => d'.epoch < d.epoch := by
          rw [draws.length_eq_countP_add_countP fun d' => d'.epoch = d.epoch]
          congr 1
          exact List.countP_congr fun d' hd' => by simpa using hlt d' hd'
        rw [List.countP_cons_of_pos (by simp)] at hi
        rw [List.countP_cons_of_neg (by simp)]
        rcases Nat.lt_succ_iff_lt_or_eq.1 hi with hi | rfl
        · obtain ⟨d', t, hsuffix, hd'⟩ := ih hsorted.2 hi
          exact ⟨d', t, hsuffix.trans (List.suffix_cons d draws), hd'⟩
        · exact ⟨d, draws, List.suffix_rfl, rfl, by omega⟩
      · rw [List.countP_cons_of_neg (by simpa using hgt.ne')] at hi
        rw [List.countP_cons_of_neg (by simpa using hgt.le)]
        obtain ⟨d', t, hsuffix, hd'⟩ := ih hsorted.2 hi
        exact ⟨d', t, hsuffix.trans (List.suffix_cons d draws), hd'⟩

/-- If every querier has drawn for an epoch, there are as many draws as queriers. -/
theorem le_countP_of_forall_mem {draws : List Node} {e : Int} {k : Nat}
    (h : ∀ n < k, ∃ p, (⟨e, p, n⟩ : Node) ∈ draws) :
    k ≤ draws.countP fun d => d.epoch = e := by
  have hsub : List.range k ⊆ (draws.filter fun d => d.epoch = e).map Node.querier := by
    intro n hn
    obtain ⟨p, hp⟩ := h n (List.mem_range.1 hn)
    exact List.mem_map.2 ⟨_, List.mem_filter.2 ⟨hp, by simp⟩, rfl⟩
  have hlength := (List.subperm_of_subset List.nodup_range hsub).length_le
  rwa [List.length_range, List.length_map, ← List.countP_eq_length_filter] at hlength

/-- As many values of the counter as there are partitions fall on all of them. -/
theorem exists_counter_of_partition (c : Nat) {p : Int} (hp : 1 ≤ p) (hp' : p ≤ indexPoolMax) :
    ∃ i < indexPoolMax, partitionOf (c + i + 1) = p := by
  have hfour : indexPoolMax = 4 := rfl
  simp only [partitionOf, hfour] at hp' ⊢
  exact ⟨(p.toNat + 2 - c % 4) % 4, by omega, by omega⟩

end

/-- If every querier that has drawn for an epoch is listed for it, and there are enough of them, all
partitions have a live node. -/
theorem Drawn.lrange_ne_nil {P : Platform} {E : Int} {draws : List Node} {s : Site}
    (h : Drawn P E draws s) (hsmall : ∀ d ∈ draws, d.querier < indexPoolMax) {e : Int}
    (hall : ∀ n < indexPoolMax, ∃ p, n ∈ s.lrange e p) {p : Int} (hp : 1 ≤ p)
    (hp' : p ≤ indexPoolMax) : s.lrange e p ≠ [] := by
  have hmem : ∀ n < indexPoolMax, ∃ p, (⟨e, p, n⟩ : Node) ∈ draws := fun n hn =>
    (hall n hn).imp fun p hp => h.accurate.nodes (Site.mem_lrange.1 hp)
  -- The draws of the epoch stand one after another, so one of them falls on the partition.
  obtain ⟨i, hi, hip⟩ := exists_counter_of_partition (draws.countP fun d => d.epoch < e) hp hp'
  obtain ⟨d, t, hsuffix, hde, hlength⟩ :=
    exists_draw_of_epoch h.sorted e (hi.trans_le (le_countP_of_forall_mem hmem))
  have hd : d ∈ draws := hsuffix.subset List.mem_cons_self
  -- Its querier is listed for the epoch, and it has drawn for it only once.
  obtain ⟨p', hlisted⟩ := hall d.querier (hsmall d hd)
  have hsame : d = ⟨e, p', d.querier⟩ :=
    List.inj_on_of_nodup_map h.accurate.unique hd
      (h.accurate.nodes (Site.mem_lrange.1 hlisted)) (Prod.ext hde rfl)
  have hpart : d.partition = p := by rw [h.partition d t hsuffix, hlength, hip]
  have hp'' : p' = p := by rw [← hpart, hsame]
  rw [hp''] at hlisted
  exact List.ne_nil_of_mem hlisted

/-- In such a run, all draws are those of its queriers. -/
theorem exists_drawn {P : Platform} {kb : Kanban} (hkb : Opened P kb) {as : List SiteAction}
    {k : Nat} (hpool : ∀ n, .querier n ∈ as → n < k)
    (h : Meets (siteStep P) (fun s a => RestMoves P s a ∧ DrawsInEpoch P s a) (.init kb) as) :
    ∃ E draws, Drawn P E draws (exec (siteStep P) (.init kb) as) ∧ ∀ d ∈ draws, d.querier < k := by
  have hmem : Meets (siteStep P) (fun _ a => ∀ n, a = .querier n → n < k) (.init kb) as :=
    meets_of_forall fun _ a ha n hn => hpool n (hn ▸ ha)
  refine (h.and hmem).invariant
    (I := fun s => ∃ E draws, Drawn P E draws s ∧ ∀ d ∈ draws, d.querier < k) ?_ ?_
  · obtain ⟨E, hE⟩ := drawn_init hkb
    exact ⟨E, [], hE, fun _ hd => nomatch hd⟩
  · rintro s a ⟨⟨hrest, hdraw⟩, hmem⟩ ⟨E, draws, h, hsmall⟩
    obtain ⟨E', drawn, h', hown⟩ := h.step hrest hdraw
    refine ⟨E', _, h', fun d hd => ?_⟩
    rcases List.mem_append.1 hd with hd | hd
    · exact hmem _ (hown d hd)
    · exact hsmall d hd

/-- **Every partition is served.** There are as many queriers as partitions. In every run in which
a partition is drawn only while the epoch is the one that `do_update` and `querier_setup` have read,
and while the counter is an `int`: if every querier is listed for an epoch, then all partitions have
a live node in it. -/
theorem partitions_served (P : Platform) {kb : Kanban} (hkb : Opened P kb) (as : List SiteAction)
    (hpool : ∀ n, .querier n ∈ as → n < indexPoolMax)
    (hrest : Meets (siteStep P) (RestMoves P) (.init kb) as)
    (hdraw : Meets (siteStep P) (DrawsInEpoch P) (.init kb) as) {e : Int}
    (hall : ∀ n < indexPoolMax, ∃ p, n ∈ (exec (siteStep P) (.init kb) as).lrange e p) {p : Int}
    (hp : 1 ≤ p) (hp' : p ≤ indexPoolMax) :
    (exec (siteStep P) (.init kb) as).lrange e p ≠ [] := by
  obtain ⟨E, draws, hdrawn, hsmall⟩ := exists_drawn hkb hpool (hrest.and hdraw)
  exact hdrawn.lrange_ne_nil hsmall hall hp hp'

/-- The four queriers set themselves up one after another. -/
def fourSetups : List SiteAction :=
  List.replicate 6 (.querier 0) ++ (List.replicate 6 (.querier 1) ++
    (List.replicate 6 (.querier 2) ++ List.replicate 6 (.querier 3)))

theorem leads_fourSetups {ok : Site → SiteAction → Prop} (hok : OnlyDraws ok)
    (hdraw : ∀ (s : Site) n, s.kanban = thirdEpoch → s.counter < 100 →
      ok (s.goto n (.draw 3 3 indexPoolMax)) (.querier n)) :
    Leads (siteStep samplePlatform) ok (.init thirdEpoch) fourSetups
      (((((Site.init thirdEpoch).serve 0 3 3 worldQuerier).serve 1 3 3 worldQuerier).serve 2 3 3
        worldQuerier).serve 3 3 3 worldQuerier) := by
  have hnext : ∀ {s : Site} {n : Nat}, s.kanban = thirdEpoch → s.queriers n = .init →
      s.counter < 100 → Leads (siteStep samplePlatform) ok s (List.replicate 6 (.querier n))
        (s.serve n 3 3 worldQuerier) := fun {s n} hkb hn hc =>
    Begun.leads_setup (hkb ▸ begun_thirdEpoch) hok (hdraw s n hkb hc) (by rw [hn]; rfl)
      (by rw [hn]; decide) le_rfl hc
  exact (hnext rfl rfl (by decide)).append ((hnext rfl rfl (by decide)).append
    ((hnext rfl rfl (by decide)).append (hnext rfl rfl (by decide))))

theorem onlyDraws_drawsInEpoch (P : Platform) : OnlyDraws (DrawsInEpoch P) :=
  fun _ _ h seen e m hpc => absurd hpc (h seen e m)

/-- The four queriers, set up in the third epoch. -/
theorem partitions_served_thirdEpoch :
    (exec (siteStep samplePlatform) (.init thirdEpoch) fourSetups).lrange 3 4 ≠ [] := by
  have hrest := leads_fourSetups (onlyDraws_restMoves samplePlatform) fun _ _ _ _ => trivial
  have hdraw := leads_fourSetups (onlyDraws_drawsInEpoch samplePlatform)
    fun s n hkb hc seen e m hpc => by
      rw [Site.queriers_goto_self] at hpc
      cases hpc
      have hc' : (s.goto n (.draw 3 3 indexPoolMax)).counter < 100 := hc
      exact ⟨rfl, hkb ▸ begun_thirdEpoch.epoch, by omega⟩
  refine partitions_served samplePlatform opened_thirdEpoch fourSetups ?_ hrest.meets hdraw.meets
    ?_ (by decide) (by decide)
  · intro n hn
    simp only [fourSetups, List.mem_append, List.mem_replicate, SiteAction.querier.injEq] at hn
    have hfour : indexPoolMax = 4 := rfl
    omega
  · rw [hrest.exec_eq]
    exact fun n hn => ⟨partitionOf (n + 1), by decide +revert⟩

/-- One of four queriers is about to draw a partition for the third epoch when the fourth begins. It
draws after two of the others have drawn for the fourth epoch, so that the draws for the fourth
epoch are not consecutive, and one of the partitions has no live node in it. -/
theorem partition_unserved :
    ∃ (P : Platform) (kb : Kanban) (as : List SiteAction), Opened P kb ∧
      (∀ n, .querier n ∈ as → n < indexPoolMax) ∧
      Meets (siteStep P) (RestMoves P) (.init kb) as ∧
      (∀ n < indexPoolMax, ∃ p, n ∈ (exec (siteStep P) (.init kb) as).lrange 4 p) ∧
      (exec (siteStep P) (.init kb) as).lrange 4 4 = [] := by
  have hok := onlyDraws_restMoves samplePlatform
  have hnext : ∀ {s : Site} {n : Nat}, s.kanban = fourthEpoch → (s.queriers n).pc = .watch →
      (s.queriers n).lastEpoch ≠ 4 → s.counter < 100 →
      Leads (siteStep samplePlatform) (RestMoves samplePlatform) s
        (List.replicate 6 (.querier n)) (s.serve n 4 4 worldQuerier) :=
    fun hkb hpc hlast hc =>
      Begun.leads_setup (hkb ▸ begun_fourthEpoch) hok trivial hpc hlast (by decide) hc
  have hwait := Site.leads_draw (P := samplePlatform) (s := .init thirdEpoch) (n := 3) hok rfl
    begun_thirdEpoch.epoch le_rfl (by decide) begun_thirdEpoch.shardingMax
  have hmove : Leads (siteStep samplePlatform) (RestMoves samplePlatform)
      ((Site.init thirdEpoch).goto 3 (.draw 3 3 indexPoolMax)) [.rest fourthEpoch]
      ((Site.init fourthEpoch).goto 3 (.draw 3 3 indexPoolMax)) :=
    .cons moves_fourthEpoch rfl .nil
  have hlate : Leads (siteStep samplePlatform) (RestMoves samplePlatform)
      ((((Site.init fourthEpoch).goto 3 (.draw 3 3 indexPoolMax)).serve 0 4 4 worldQuerier).serve 1
        4 4 worldQuerier) (List.replicate 3 (.querier 3)) _ :=
    Site.leads_serve hok trivial rfl (fun p hp hp' => by
      have hfour : indexPoolMax = 4 := rfl
      rw [hfour] at hp'
      interval_cases p <;> rfl) setUp_worldBlob.2 (by decide)
  have hrun := hwait.append (hmove.append ((hnext rfl rfl (by decide) (by decide)).append
    ((hnext rfl rfl (by decide) (by decide)).append (hlate.append
    ((hnext (n := 2) rfl rfl (by decide) (by decide)).append
    (hnext (n := 3) rfl rfl (by decide) (by decide)))))))
  refine ⟨samplePlatform, thirdEpoch, _, opened_thirdEpoch, ?_, hrun.meets, ?_⟩
  · intro n hn
    simp only [List.mem_append, List.mem_replicate, List.mem_singleton,
      SiteAction.querier.injEq, reduceCtorEq, false_or] at hn
    have hfour : indexPoolMax = 4 := rfl
    omega
  · rw [hrun.exec_eq]
    exact ⟨fun n hn => ⟨([2, 3, 1, 2] : List Int).getD n 0, by decide +revert⟩, by decide⟩

/-! ## Queriers beside a fleet -/

section

variable {D : Deployment} {P : Platform} {L : LastCharSort} {kb : Kanban} {f : Fleet} {e : Int}

theorem Manager.step_shardingMax (m : Manager) :
    (m.step P L kb).2.get .shardingMax = kb.get .shardingMax ∨
      (m.step P L kb).2.get .shardingMax = some (decimal indexPoolMax) := by
  obtain ⟨pc, blockId⟩ := m
  cases pc with
  | boot => exact .inr (Kanban.get_set_self _ _ _)
  | openEpoch | setFirst | commit | increment =>
      exact .inl (Kanban.get_set_of_ne _ (by simp) _)
  | count currentEpoch currentEpochInt =>
      rw [Manager.step]
      dsimp only
      split_ifs <;> exact .inl rfl
  | _ => exact .inl rfl

/-- What a fleet does whose managers close the epochs one at a time is what queriers expect. -/
theorem InOrder.moves (h : InOrder D.platform f e) {a : FleetAction} (ha : Alone D.platform f a) :
    Moves D.platform f.kanban (D.fleetStep a f).kanban := by
  obtain ⟨e', h', hadv⟩ := h.step ha
  refine ⟨?_, ?_, ?_⟩
  · cases a with
    | manager q => exact (Manager.ledgerOnly_step (f.managers q)).extends
    | exec p answers => exact (Executor.step_spec _ _ answers _ (f.procs p)).extends
    | crash p => exact .refl _
  · rcases hadv.epoch with rfl | ⟨rfl, -⟩
    · exact .inl (h'.epoch.2.trans h.epoch.2.symm)
    · exact .inr ⟨e, h.epoch, h'.epoch⟩
  · cases a with
    | manager q => exact Manager.step_shardingMax _
    | exec p answers =>
        have hspec := Executor.step_spec D.platform (D.role p) answers f.kanban (f.procs p)
        exact .inl (Kanban.get_of_ledger_eq hspec.ledger_eq rfl)
    | crash p => exact .inl rfl

/-- Queriers and a fleet that share a store. -/
def Deployment.jointStep (D : Deployment) : FleetAction ⊕ Nat → Fleet × Site → Fleet × Site
  | .inl a, (f, s) => (D.fleetStep a f, { s with kanban := (D.fleetStep a f).kanban })
  | .inr n, (f, s) => (f, s.querierStep D.platform n)

/-- The managers close one epoch at a time, and the queriers meet a condition. -/
def JointMeets (P : Platform) (ok : Site → SiteAction → Prop) (fs : Fleet × Site) :
    FleetAction ⊕ Nat → Prop
  | .inl a => Alone P fs.1 a
  | .inr n => ok fs.2 (.querier n)

/-- To the queriers, the fleet is the rest of the system. -/
theorem InOrder.exists_site_run {ok : Site → SiteAction → Prop} (hok : ∀ s kb, ok s (.rest kb))
    {s : Site} (h : InOrder D.platform f e) (hkb : s.kanban = f.kanban)
    {as : List (FleetAction ⊕ Nat)}
    (hm : Meets D.jointStep (JointMeets D.platform ok) (f, s) as) :
    ∃ bs, Leads (siteStep D.platform) (fun s a => RestMoves D.platform s a ∧ ok s a) s bs
      (exec D.jointStep (f, s) as).2 ∧ ∀ n, .querier n ∈ bs → .inr n ∈ as := by
  induction as generalizing f s e with
  | nil => exact ⟨[], .nil, fun _ hn => nomatch hn⟩
  | cons a as ih =>
      cases a with
      | inl a =>
          obtain ⟨e', h', -⟩ := h.step hm.1
          obtain ⟨bs, hlead, hmem⟩ := ih h' rfl hm.2
          have hmoves : Moves D.platform s.kanban (D.fleetStep a f).kanban := hkb ▸ h.moves hm.1
          refine ⟨.rest (D.fleetStep a f).kanban :: bs, .cons ⟨hmoves, hok _ _⟩ rfl hlead,
            fun n hn => ?_⟩
          rcases List.mem_cons.1 hn with heq | hn
          · cases heq
          · exact List.mem_cons_of_mem _ (hmem n hn)
      | inr k =>
          have hkb' := (s.kanban_querierStep (P := D.platform) k).trans hkb
          obtain ⟨bs, hlead, hmem⟩ := ih h hkb' hm.2
          refine ⟨.querier k :: bs, .cons ⟨trivial, hm.1⟩ rfl hlead, fun n hn => ?_⟩
          rcases List.mem_cons.1 hn with heq | hn
          · cases heq
            exact List.mem_cons_self
          · exact List.mem_cons_of_mem _ (hmem n hn)

end

theorem opened_fleet_init (P : Platform) : Opened P (Fleet.init P.crypto).kanban :=
  ⟨⟨1, le_rfl, (inOrder_init P).epoch⟩, fun _ hv => nomatch hv⟩

/-- **Every partition is served, in the whole system.** Managers, executors and as many queriers as
there are partitions run over one store. If the managers close one epoch at a time and the queriers
draw in the epoch of their set-up, then all partitions have a live node in every epoch for which
every querier is listed. -/
theorem fleet_partitions_served (D : Deployment) (as : List (FleetAction ⊕ Nat))
    (hpool : ∀ n, .inr n ∈ as → n < indexPoolMax)
    (hm : Meets D.jointStep (JointMeets D.platform (DrawsInEpoch D.platform))
      (.init D.platform.crypto, .init (Fleet.init D.platform.crypto).kanban) as) {e p : Int}
    (hall : ∀ n < indexPoolMax, ∃ p, n ∈ (exec D.jointStep
      (.init D.platform.crypto, .init (Fleet.init D.platform.crypto).kanban) as).2.lrange e p)
    (hp : 1 ≤ p) (hp' : p ≤ indexPoolMax) :
    (exec D.jointStep
      (.init D.platform.crypto, .init (Fleet.init D.platform.crypto).kanban) as).2.lrange e p ≠ []
    := by
  obtain ⟨bs, hlead, hmem⟩ := (inOrder_init D.platform).exists_site_run (fun _ _ => trivial) rfl hm
  rw [← hlead.exec_eq] at hall ⊢
  obtain ⟨E, draws, hdrawn, hsmall⟩ := exists_drawn (opened_fleet_init D.platform)
    (fun n hn => hpool n (hmem n hn)) hlead.meets
  exact hdrawn.lrange_ne_nil hsmall hall hp hp'

end DeSearch
