import DeSearch.Lengths
import DeSearch.LiveNodes
import Mathlib.Tactic.IntervalCases

/-!
# Registrations

`do_update` and `querier_setup` read the epoch one after the other, and `do_update` remembers the
one that it has read itself. As long as the two agree whenever a partition is drawn, a querier draws
at most once for an epoch (`Accurate`), and a querier that is listed for the current epoch has
loaded the index of the partition it is listed under (`registrations_accurate`). Otherwise a querier
may still be listed for a partition that it has given up (`stale_registration`).
-/

namespace DeSearch

open Run

/-! ## The rest of the system -/

section

variable {P : Platform} {kb kb' : Kanban} {e : Int}

theorem Moves.exists_epochIs (h : Moves P kb kb') (he : EpochIs P kb e) :
    ∃ e', e ≤ e' ∧ EpochIs P kb' e' := by
  rcases h.epoch with heq | ⟨e₀, he₀, hnext⟩
  · exact ⟨e, le_rfl, he.1, heq.trans he.2⟩
  · obtain rfl := Option.some.inj (he.getEpochInt.symm.trans he₀.getEpochInt)
    exact ⟨e + 1, by omega, hnext⟩

theorem Opened.moves (h : Opened P kb) (hm : Moves P kb kb') : Opened P kb' := by
  obtain ⟨e, hpos, he⟩ := h.epoch
  obtain ⟨e', hle, he'⟩ := hm.exists_epochIs he
  refine ⟨⟨e', hpos.trans hle, he'⟩, fun v hv => ?_⟩
  rcases hm.shardingMax with heq | heq
  · exact h.shardingMax v (heq ▸ hv)
  · exact (Option.some.inj (heq.symm.trans hv)).symm

/-- `get_sharding_max` finds the number of partitions. -/
theorem Opened.stoi_shardingMax (h : Opened P kb) {m : Int}
    (hm : (kb.get .shardingMax).bind stoi = some m) : m = indexPoolMax := by
  obtain ⟨v, hv, hstoi⟩ := Option.bind_eq_some_iff.1 hm
  have hread : stoi (decimal indexPoolMax) = some (indexPoolMax : Int) := by decide
  rw [h.shardingMax v hv, hread] at hstoi
  exact (Option.some.inj hstoi).symm

end

/-! ## Two epochs -/

/-- An epoch begins, and the global indexes of the one before are in the store. -/
def Kanban.begin (C : Crypto) (kb : Kanban) (e : Int) : Kanban :=
  ((((kb.set (.globalIndex (e - 1) 1) worldBlob).set (.globalIndex (e - 1) 2) worldBlob).set
    (.globalIndex (e - 1) 3) worldBlob).set (.globalIndex (e - 1) 4) worldBlob).set
    .epoch (epochPacket C e)

/-- Everything that a set-up for an epoch reads is there. -/
structure Begun (kb : Kanban) (e : Int) : Prop where
  epoch : EpochIs samplePlatform kb e
  shardingMax : kb.get .shardingMax = some (decimal indexPoolMax)
  index : ∀ p : Nat, 1 ≤ p → p ≤ indexPoolMax → kb.get (.globalIndex (e - 1) p) = some worldBlob

theorem begun_begin {kb : Kanban} {e : Int} (he : IsInt e)
    (hmax : kb.get .shardingMax = some (decimal indexPoolMax)) :
    Begun (kb.begin sampleCrypto e) e := by
  refine ⟨epochIs_set_epoch samplePlatform _ he, ?_, fun p hp hp' => ?_⟩
  · simpa [Kanban.begin] using hmax
  · have hfour : indexPoolMax = 4 := rfl
    rw [hfour] at hp'
    interval_cases p <;> simp [Kanban.begin]

/-- The queriers are started in the third epoch. -/
def thirdEpoch : Kanban :=
  (Kanban.empty.set .shardingMax (decimal indexPoolMax)).begin sampleCrypto 3

def fourthEpoch : Kanban := thirdEpoch.begin sampleCrypto 4

theorem begun_thirdEpoch : Begun thirdEpoch 3 :=
  begun_begin (by decide) (Kanban.get_set_self _ _ _)

theorem begun_fourthEpoch : Begun fourthEpoch 4 :=
  begun_begin (by decide) begun_thirdEpoch.shardingMax

theorem opened_thirdEpoch : Opened samplePlatform thirdEpoch :=
  ⟨⟨3, by decide, begun_thirdEpoch.epoch⟩, fun _ hv =>
    (Option.some.inj (begun_thirdEpoch.shardingMax.symm.trans hv)).symm⟩

theorem moves_fourthEpoch : Moves samplePlatform thirdEpoch fourthEpoch where
  grows := (Kanban.extends_set _ _ _).trans ((Kanban.extends_set _ _ _).trans
    ((Kanban.extends_set _ _ _).trans ((Kanban.extends_set _ _ _).trans
      (Kanban.extends_set _ _ _))))
  epoch := .inr ⟨3, begun_thirdEpoch.epoch, begun_fourthEpoch.epoch⟩
  shardingMax := .inr begun_fourthEpoch.shardingMax

section

variable {ok : Site → SiteAction → Prop} {s : Site} {n : Nat} {seen e : Int}

theorem Site.serve_goto (s : Site) (n : Nat) (pc : MonitorAt) (seen e : Int) (q : Querier) :
    (s.goto n pc).serve n seen e q = s.serve n seen e q := by
  simp [Site.serve, Site.goto, Site.put]

/-- The second half of a set-up. -/
theorem Begun.leads_serve (h : Begun s.kanban e) (hok : OnlyDraws ok)
    (hdraw : ok s (.querier n)) (hpc : (s.queriers n).pc = .draw seen e indexPoolMax)
    (hc : s.counter < 100) :
    Leads (siteStep samplePlatform) ok s (List.replicate 3 (.querier n))
      (s.serve n seen e worldQuerier) :=
  Site.leads_serve hok hdraw hpc h.index setUp_worldBlob.2 (by omega)

/-- A whole set-up. -/
theorem Begun.leads_setup (h : Begun s.kanban e) (hok : OnlyDraws ok)
    (hdraw : ok (s.goto n (.draw e e indexPoolMax)) (.querier n))
    (hpc : (s.queriers n).pc = .watch) (hlast : (s.queriers n).lastEpoch ≠ e) (hmin : 3 ≤ e)
    (hc : s.counter < 100) :
    Leads (siteStep samplePlatform) ok s (List.replicate 6 (.querier n))
      (s.serve n e e worldQuerier) := by
  have hfirst := Site.leads_draw hok hpc h.epoch hmin hlast h.shardingMax
  have hsecond := Begun.leads_serve (s := s.goto n (.draw e e indexPoolMax)) (n := n) h hok hdraw
    (congrArg Monitor.pc s.queriers_goto_self) hc
  rw [Site.serve_goto] at hsecond
  exact hfirst.append hsecond

end

theorem onlyDraws_restMoves (P : Platform) : OnlyDraws (RestMoves P) := fun _ _ _ => trivial

/-- The first querier has set itself up in the third epoch. -/
theorem leads_thirdEpoch {ok : Site → SiteAction → Prop} (hok : OnlyDraws ok)
    (hdraw : ok ((Site.init thirdEpoch).goto 0 (.draw 3 3 indexPoolMax)) (.querier 0)) :
    Leads (siteStep samplePlatform) ok (.init thirdEpoch) (List.replicate 6 (.querier 0))
      ((Site.init thirdEpoch).serve 0 3 3 worldQuerier) :=
  Begun.leads_setup begun_thirdEpoch hok hdraw rfl (by decide) (by decide) (by decide)

/-! ## One set-up an epoch -/

/-- A querier has loaded the index of the partition that it has drawn. -/
def Monitor.Serves (m : Monitor) (d : Node) : Prop :=
  ∃ q, m.loaded = some ⟨d.epoch - 1, d.partition, q⟩

/-- The draw is the latest one of its querier, and the only one for its epoch. -/
def Latest (draws : List Node) (d : Node) : Prop :=
  d ∈ draws ∧ ∀ d' ∈ draws, d'.querier = d.querier → d'.epoch < d.epoch ∨ d' = d

/-- What holds of a querier in epoch `E`, given all draws. -/
def Monitor.Holds (E : Int) (draws : List Node) (n : Nat) (m : Monitor) : Prop :=
  match m.pc with
  | .watch => m.lastEpoch ≤ E ∧
      ∀ d ∈ draws, d.querier = n → d.epoch ≤ m.lastEpoch ∧ (d.epoch = m.lastEpoch → m.Serves d)
  | .enter seen | .readMax seen _ | .draw seen _ _ => m.lastEpoch < seen ∧ seen ≤ E ∧
      ∀ d ∈ draws, d.querier = n → d.epoch ≤ m.lastEpoch
  | .fetch seen e id => seen = e ∧ seen ≤ E ∧ Latest draws ⟨e, id, n⟩
  | .register seen e id => seen = e ∧ seen ≤ E ∧ Latest draws ⟨e, id, n⟩ ∧ m.Serves ⟨e, id, n⟩
  | .gone => True

section

variable {P : Platform} {s : Site} {E E' : Int} {draws draws' : List Node} {n : Nat} {m : Monitor}

/-- Only the epoch and the draws of the querier itself matter. -/
theorem Monitor.Holds.mono (h : m.Holds E draws n) (hE : E ≤ E')
    (hd : ∀ d : Node, d.querier = n → (d ∈ draws' ↔ d ∈ draws)) : m.Holds E' draws' n := by
  have hpast : ∀ {p : Node → Prop}, (∀ d ∈ draws, d.querier = n → p d) →
      ∀ d ∈ draws', d.querier = n → p d :=
    fun hp d hmem hn => hp d ((hd d hn).1 hmem) hn
  have hlatest : ∀ {e id : Int}, Latest draws ⟨e, id, n⟩ → Latest draws' ⟨e, id, n⟩ :=
    fun hl => ⟨(hd _ rfl).2 hl.1, hpast hl.2⟩
  unfold Monitor.Holds at h ⊢
  split at h
  · exact ⟨h.1.trans hE, hpast h.2⟩
  · exact ⟨h.1, h.2.1.trans hE, hpast h.2.2⟩
  · exact ⟨h.1, h.2.1.trans hE, hpast h.2.2⟩
  · exact ⟨h.1, h.2.1.trans hE, hpast h.2.2⟩
  · exact ⟨h.1, h.2.1.trans hE, hlatest h.2.2⟩
  · exact ⟨h.1, h.2.1.trans hE, hlatest h.2.2.1, h.2.2.2⟩
  · trivial

/-- Both reads of the epoch agree whenever a partition is drawn. -/
def ReadsAgree (s : Site) : SiteAction → Prop
  | .querier n => ∀ seen e m, (s.queriers n).pc = .draw seen e m → seen = e
  | .rest _ => True

/-- In epoch `E`, after these draws (the latest first): every querier has drawn at most once for
each epoch, and has loaded what it has drawn last. -/
structure Accurate (P : Platform) (E : Int) (draws : List Node) (s : Site) : Prop where
  epoch : EpochIs P s.kanban E
  nodes : s.nodes ⊆ draws
  unique : (draws.map fun d => (d.epoch, d.querier)).Nodup
  holds : ∀ n, (s.queriers n).Holds E draws n

variable {s' : Site} {drawn : List Node}

theorem Monitor.Holds.step (h : (s.queriers n).Holds E draws n) (hE : EpochIs P s.kanban E)
    (hagree : ReadsAgree s (.querier n)) (hs : s.Step P n drawn s') :
    (s'.queriers n).Holds E (drawn ++ draws) n := by
  unfold Monitor.Holds at h
  cases hs with
  | stay => exact h
  | stop | trap => simp [Monitor.Holds]
  | watch hpc he hne =>
      rw [hpc] at h
      obtain rfl := Option.some.inj (hE.getEpochInt.symm.trans he)
      rw [Site.queriers_goto_self]
      exact ⟨lt_of_le_of_ne h.1 hne.symm, le_rfl, fun d hd hn => (h.2 d hd hn).1⟩
  | leave hpc =>
      rw [hpc] at h
      rw [Site.queriers_put_self]
      refine ⟨h.2.1, fun d hd hn => ?_⟩
      have hlt := (h.2.2 d hd hn).trans_lt h.1
      exact ⟨hlt.le, fun heq => absurd heq hlt.ne⟩
  | enter hpc =>
      rw [hpc] at h
      rw [Site.queriers_goto_self]
      exact h
  | readMax hpc =>
      rw [hpc] at h
      rw [Site.queriers_goto_self]
      exact h
  | @draw seen e _ id hpc =>
      rw [hpc] at h
      obtain rfl := hagree _ _ _ hpc
      simp only [Site.queriers_goto_self]
      refine ⟨rfl, h.2.1, List.mem_cons_self, fun d hd hn => ?_⟩
      rcases List.mem_cons.1 hd with heq | hd
      · exact .inr heq
      · exact .inl ((h.2.2 d hd hn).trans_lt h.1)
  | fetch hpc =>
      rw [hpc] at h
      rw [Site.queriers_put_self]
      exact ⟨h.1, h.2.1, h.2.2, _, rfl⟩
  | register hpc =>
      rw [hpc] at h
      obtain ⟨rfl, hle, hlatest, hserves⟩ := h
      simp only [Site.queriers_put_self]
      refine ⟨hle, fun d hd hn => ?_⟩
      rcases hlatest.2 d hd hn with hlt | rfl
      · exact ⟨hlt.le, fun heq => absurd heq hlt.ne⟩
      · exact ⟨le_rfl, fun _ => hserves⟩

/-- A querier draws for an epoch it has not drawn for before. -/
theorem Monitor.Holds.fresh {seen e k : Int} (h : m.Holds E draws n) (hpc : m.pc = .draw seen e k)
    (hseen : seen = e) : (e, n) ∉ draws.map fun d => (d.epoch, d.querier) := by
  rw [Monitor.Holds, hpc] at h
  intro hmem
  obtain ⟨d, hd, heq⟩ := List.mem_map.1 hmem
  obtain ⟨rfl, hn⟩ := Prod.mk.inj heq
  have := h.2.2 d hd hn
  omega

theorem Accurate.querier (h : Accurate P E draws s) (hagree : ReadsAgree s (.querier n))
    (hstep : s.Step P n drawn s') : Accurate P E (drawn ++ draws) s' := by
  refine ⟨hstep.kanban_eq ▸ h.epoch, ?_, ?_, fun k => ?_⟩
  · cases hstep with
    | draw => exact fun d hd => List.mem_cons_of_mem _ (h.nodes hd)
    | register hpc =>
        have hn := h.holds n
        rw [Monitor.Holds, hpc] at hn
        exact List.append_subset.2 ⟨h.nodes, by simpa using hn.2.2.1.1⟩
    | _ => exact h.nodes
  · cases hstep with
    | draw hpc =>
        exact List.nodup_cons.2 ⟨(h.holds n).fresh hpc (hagree _ _ _ hpc), h.unique⟩
    | _ => exact h.unique
  · by_cases hk : k = n
    · subst hk
      exact (h.holds k).step h.epoch hagree hstep
    · rw [hstep.queriers_of_ne hk]
      refine (h.holds k).mono le_rfl fun d hd => List.mem_append.trans (or_iff_right fun hmem => ?_)
      exact hk (hd.symm.trans (hstep.querier_of_mem hmem))

theorem Accurate.rest (h : Accurate P E draws s) {kb : Kanban} (hm : Moves P s.kanban kb) :
    ∃ E', E ≤ E' ∧ Accurate P E' draws { s with kanban := kb } := by
  obtain ⟨E', hle, hE'⟩ := hm.exists_epochIs h.epoch
  exact ⟨E', hle, hE', h.nodes, h.unique, fun n => (h.holds n).mono hle fun _ _ => Iff.rfl⟩

theorem Accurate.step (h : Accurate P E draws s) {a : SiteAction} (hrest : RestMoves P s a)
    (hagree : ReadsAgree s a) : ∃ E' draws', Accurate P E' draws' (siteStep P a s) := by
  cases a with
  | querier n =>
      obtain ⟨drawn, hstep⟩ := s.step_spec P n
      exact ⟨E, drawn ++ draws, h.querier hagree hstep⟩
  | rest kb =>
      obtain ⟨E', -, h'⟩ := h.rest hrest
      exact ⟨E', draws, h'⟩

theorem accurate_init {kb : Kanban} (hE : EpochIs P kb E) (hpos : 1 ≤ E) :
    Accurate P E [] (.init kb) :=
  ⟨hE, fun _ h => h, .nil, fun _ => ⟨by change (0 : Int) ≤ E; omega, fun _ h => nomatch h⟩⟩

/-! ## Registrations -/

/-- What a querier has loaded stood in the store under the name it has for it. -/
def LoadedFrom (P : Platform) (s : Site) : Prop :=
  ∀ n l, (s.queriers n).loaded = some l → ∃ blob,
    s.kanban.Stored (.globalIndex l.epoch l.id.toNat) blob ∧
      ecallQuerierSetup P.crypto blob = .ok l.tables

theorem Kanban.stored_of_globalIndex {kb : Kanban} {e id : Int} {blob : Bytes}
    (h : kb.globalIndex e id = some blob) : kb.Stored (.globalIndex e id.toNat) blob := by
  unfold Kanban.globalIndex at h
  split_ifs at h
  exact Kanban.mem_of_get h

theorem LoadedFrom.querier (h : LoadedFrom P s) : LoadedFrom P (s.querierStep P n) := by
  obtain ⟨drawn, hstep⟩ := s.step_spec P n
  generalize s.querierStep P n = s' at hstep ⊢
  intro k l hl
  rw [hstep.kanban_eq]
  by_cases hk : k = n
  · subst hk
    cases hstep with
    | fetch hpc hblob hq =>
        rw [Site.queriers_put_self] at hl
        obtain rfl := Option.some.inj hl
        exact ⟨_, Kanban.stored_of_globalIndex hblob, hq⟩
    | stay => exact h k l hl
    | _ => exact h k l (by simpa using hl)
  · exact h k l (hstep.queriers_of_ne hk ▸ hl)

theorem LoadedFrom.step (h : LoadedFrom P s) {a : SiteAction} (hrest : RestMoves P s a) :
    LoadedFrom P (siteStep P a s) := by
  cases a with
  | querier n => exact h.querier
  | rest kb =>
      intro n l hl
      obtain ⟨blob, hstored, hq⟩ := h n l hl
      exact ⟨blob, hrest.grows.sets hstored, hq⟩

end

/-- **Registrations are accurate.** In every run in which `do_update` and `querier_setup` have read
the same epoch whenever a partition is drawn: a querier that is listed for the current epoch and is
not in `querier_setup` has loaded the global index of the partition that it is listed under. -/
theorem registrations_accurate (P : Platform) {kb : Kanban} (hkb : Opened P kb)
    (as : List SiteAction) (hrest : Meets (siteStep P) (RestMoves P) (.init kb) as)
    (hagree : Meets (siteStep P) ReadsAgree (.init kb) as) {e p : Int} {n : Nat}
    (he : EpochIs P (exec (siteStep P) (.init kb) as).kanban e)
    (hlisted : n ∈ (exec (siteStep P) (.init kb) as).lrange e p)
    (hpc : ((exec (siteStep P) (.init kb) as).queriers n).pc = .watch) :
    ∃ q blob, ((exec (siteStep P) (.init kb) as).queriers n).loaded = some ⟨e - 1, p, q⟩ ∧
      (exec (siteStep P) (.init kb) as).kanban.Stored (.globalIndex (e - 1) p.toNat) blob ∧
      ecallQuerierSetup P.crypto blob = .ok q := by
  obtain ⟨e₀, hpos, he₀⟩ := hkb.epoch
  have hinv : (∃ E draws, Accurate P E draws (exec (siteStep P) (.init kb) as)) ∧
      LoadedFrom P (exec (siteStep P) (.init kb) as) := by
    refine (hrest.and hagree).invariant
      (I := fun s => (∃ E draws, Accurate P E draws s) ∧ LoadedFrom P s)
      ⟨⟨e₀, [], accurate_init he₀ hpos⟩, fun _ _ h => nomatch h⟩ ?_
    rintro s a ⟨hrest, hagree⟩ ⟨⟨E, draws, hacc⟩, hload⟩
    exact ⟨hacc.step hrest hagree, hload.step hrest⟩
  obtain ⟨⟨E, draws, hacc⟩, hload⟩ := hinv
  obtain rfl := Option.some.inj (hacc.epoch.getEpochInt.symm.trans he.getEpochInt)
  have hholds := hacc.holds n
  rw [Monitor.Holds, hpc] at hholds
  obtain ⟨hle, hserves⟩ := hholds.2 _ (hacc.nodes (Site.mem_lrange.1 hlisted)) rfl
  obtain ⟨q, hq⟩ := hserves (hle.antisymm hholds.1)
  obtain ⟨blob, hstored, hsetup⟩ := hload n _ hq
  exact ⟨q, blob, hq, hstored, hsetup⟩

theorem onlyDraws_readsAgree : OnlyDraws ReadsAgree :=
  fun _ _ h seen e m hpc => absurd hpc (h seen e m)

/-- One querier, set up in the third epoch. -/
theorem registrations_accurate_thirdEpoch :
    ∃ q blob, ((exec (siteStep samplePlatform) (.init thirdEpoch)
        (List.replicate 6 (.querier 0))).queriers 0).loaded = some ⟨3 - 1, 2, q⟩ ∧
      (exec (siteStep samplePlatform) (.init thirdEpoch)
        (List.replicate 6 (.querier 0))).kanban.Stored (.globalIndex (3 - 1) 2) blob ∧
      ecallQuerierSetup samplePlatform.crypto blob = .ok q := by
  have hrest := leads_thirdEpoch (onlyDraws_restMoves samplePlatform) trivial
  have hagree := leads_thirdEpoch onlyDraws_readsAgree fun seen e m hpc => by
      rw [Site.queriers_goto_self] at hpc
      cases hpc
      rfl
  refine registrations_accurate samplePlatform opened_thirdEpoch _ hrest.meets hagree.meets
    ?_ ?_ ?_
  all_goals rw [hrest.exec_eq]
  · exact begun_thirdEpoch.epoch
  · exact Site.mem_lrange.2 List.mem_cons_self
  · rfl

/-- The epoch changes after `do_update` has read it. The set-up is for the new epoch, but
`do_update` remembers the old one, so it sets the querier up once more, for another partition. The
list of the first one still has the querier. -/
theorem stale_registration :
    ∃ (P : Platform) (kb : Kanban) (as : List SiteAction), Opened P kb ∧
      Meets (siteStep P) (RestMoves P) (.init kb) as ∧
      EpochIs P (exec (siteStep P) (.init kb) as).kanban 4 ∧
      0 ∈ (exec (siteStep P) (.init kb) as).lrange 4 2 ∧
      ((exec (siteStep P) (.init kb) as).queriers 0).pc = .watch ∧
      ∃ q, ((exec (siteStep P) (.init kb) as).queriers 0).loaded = some ⟨3, 3, q⟩ := by
  have hok := onlyDraws_restMoves samplePlatform
  have hstep : (Site.init thirdEpoch).querierStep samplePlatform 0 =
      (Site.init thirdEpoch).goto 0 (.enter 3) :=
    Site.querierStep_watch rfl begun_thirdEpoch.epoch le_rfl (by decide)
  have hsee : Leads (siteStep samplePlatform) (RestMoves samplePlatform) (.init thirdEpoch)
      [.querier 0, .rest fourthEpoch] ((Site.init fourthEpoch).goto 0 (.enter 3)) :=
    .cons trivial hstep (.cons moves_fourthEpoch rfl .nil)
  have henter := Site.leads_enter (P := samplePlatform) (n := 0)
    (s := (Site.init fourthEpoch).goto 0 (.enter 3)) hok
    (congrArg Monitor.pc Site.queriers_goto_self) begun_fourthEpoch.epoch (by decide)
    begun_fourthEpoch.shardingMax
  rw [Site.goto_goto] at henter
  have hserve := Begun.leads_serve (n := 0)
    (s := (Site.init fourthEpoch).goto 0 (.draw 3 4 indexPoolMax)) begun_fourthEpoch hok trivial
    (congrArg Monitor.pc Site.queriers_goto_self) (by decide)
  rw [Site.serve_goto] at hserve
  have hagain := Begun.leads_setup (n := 0)
    (s := (Site.init fourthEpoch).serve 0 3 4 worldQuerier) begun_fourthEpoch hok trivial rfl
    (by decide) (by decide) (by decide)
  have hrun := hsee.append (henter.append (hserve.append hagain))
  refine ⟨samplePlatform, thirdEpoch, _, opened_thirdEpoch, hrun.meets, ?_⟩
  rw [hrun.exec_eq]
  exact ⟨begun_fourthEpoch.epoch, Site.mem_lrange.2 List.mem_cons_self, rfl, _, rfl⟩

end DeSearch
