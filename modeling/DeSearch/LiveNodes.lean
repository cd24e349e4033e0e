import DeSearch.Ledger
import DeSearch.Querier

/-!
# Live queriers

A querier runs `do_update` in the background: when the epoch has changed it calls `querier_setup`,
which draws a partition from a counter that all queriers share, waits for the global index of that
partition, loads it, and enters the querier in the list of the live nodes of the partition. Clients
pick the nodes that they ask from these lists.

Every access to the store is a step of its own, and between any two steps of a querier the other
queriers, the manager and the executors may move. What they do is an action `rest`: the store is
replaced by another one. `Moves` says which changes are theirs.

* `Site.step_spec`: what a step of a querier can do.
* `Site.leads_draw`, `Site.leads_serve`: a set-up that nobody interrupts, up to the draw and from
  there on.
-/

namespace DeSearch

open Run

/-! ## One querier -/

/-- Where `do_update` stands, with the locals of `do_update` and `querier_setup`: `seen` is the
epoch that `do_update` has read, and `epoch` the one that `querier_setup` has read. -/
inductive MonitorAt where
  /-- before `do_update` reads the epoch -/
  | watch
  /-- before `querier_setup` reads the epoch -/
  | enter (seen : Int)
  /-- before `get_sharding_max` -/
  | readMax (seen epoch : Int)
  /-- before `get_sharding_counter` -/
  | draw (seen epoch maxPartition : Int)
  /-- in the loop of `o_get_key` -/
  | fetch (seen epoch id : Int)
  /-- before `register_live_querier` -/
  | register (seen epoch id : Int)
  /-- after a fault -/
  | gone

/-- The index `GLOBAL-INDEX-#EPOCHepoch-vid` as a querier has loaded it. -/
structure Loaded where
  epoch : Int
  id : Int
  tables : Querier

/-- A querier: where its `do_update` stands, its `last_epoch`, and the index it has loaded. -/
structure Monitor where
  pc : MonitorAt
  lastEpoch : Int
  loaded : Option Loaded

/-- A querier just started. -/
def Monitor.init : Monitor := ⟨.watch, 0, none⟩

/-- `%` of two `int`s. -/
def remInt (a b : Int) : Option Int :=
  if b = 0 ∨ a = -2 ^ 31 ∧ b = -1 then none else some (a.tmod b)

/-- The partition that a value of `SHARD_COUNTER` stands for. -/
def partitionId (counter : Nat) (maxPartition : Int) : Option Int :=
  (remInt (wrapInt counter) maxPartition).map (· + 1)

/-- `GET GLOBAL-INDEX-#EPOCHe-vid`. Nobody writes one with a negative number. -/
def Kanban.globalIndex (kb : Kanban) (e id : Int) : Option Bytes :=
  if 0 ≤ id then kb.get (.globalIndex e id.toNat) else none

/-! ## All of them -/

/-- An entry of a list of live nodes, in `NODE-#EPOCHepoch-vpartition`. -/
structure Node where
  epoch : Int
  partition : Int
  querier : Nat
deriving DecidableEq

/-- The store with the keys of the queriers, and the queriers. -/
structure Site where
  kanban : Kanban
  /-- `SHARD_COUNTER` -/
  counter : Nat
  /-- all lists of live nodes, the oldest entry first -/
  nodes : List Node
  queriers : Nat → Monitor

/-- No querier has done anything yet. -/
def Site.init (kb : Kanban) : Site := ⟨kb, 0, [], fun _ => .init⟩

/-- `LRANGE NODE-#EPOCHe-vp`. -/
def Site.lrange (s : Site) (e p : Int) : List Nat :=
  (s.nodes.filter fun x => x.epoch = e ∧ x.partition = p).map Node.querier

/-- A querier moves and nothing else changes. -/
def Site.put (s : Site) (n : Nat) (m : Monitor) : Site :=
  { s with queriers := Function.update s.queriers n m }

/-- A querier goes on and remembers what it has. -/
def Site.goto (s : Site) (n : Nat) (pc : MonitorAt) : Site :=
  s.put n { s.queriers n with pc := pc }

/-- One step of a querier. -/
def Site.querierStep (P : Platform) (n : Nat) (s : Site) : Site :=
  match (s.queriers n).pc with
  | .watch =>
      match getEpochInt P.runtime P.crypto s.kanban with
      | none => s.goto n .gone
      | some e => if e < 3 ∨ e = (s.queriers n).lastEpoch then s else s.goto n (.enter e)
  | .enter seen =>
      match getEpochInt P.runtime P.crypto s.kanban with
      | none => s.goto n .gone
      | some e =>
          if e < 3 then s.put n { s.queriers n with pc := .watch, lastEpoch := seen }
          else s.goto n (.readMax seen e)
  | .readMax seen e =>
      match (s.kanban.get .shardingMax).bind stoi with
      | none => s.goto n .gone
      | some maxPartition => s.goto n (.draw seen e maxPartition)
  | .draw seen e maxPartition =>
      match partitionId (s.counter + 1) maxPartition with
      | none => { s.goto n .gone with counter := s.counter + 1 }
      | some id => { s.goto n (.fetch seen e id) with counter := s.counter + 1 }
  | .fetch seen e id =>
      match s.kanban.globalIndex (e - 1) id with
      | none => s
      | some blob =>
          match ecallQuerierSetup P.crypto blob with
          | .error _ => s.goto n .gone
          | .ok q =>
              s.put n { s.queriers n with pc := .register seen e id, loaded := some ⟨e - 1, id, q⟩ }
  | .register seen e id =>
      { s.put n { s.queriers n with pc := .watch, lastEpoch := seen } with
        nodes := s.nodes ++ [⟨e, id, n⟩] }
  | .gone => s

/-- What can happen next: a querier takes a step, or the rest of the system changes the store. -/
inductive SiteAction where
  | querier (n : Nat)
  | rest (kb : Kanban)

/-- The effect of an action. -/
def siteStep (P : Platform) : SiteAction → Site → Site
  | .querier n, s => s.querierStep P n
  | .rest kb, s => { s with kanban := kb }

/-- The changes of the manager and the executors: they only write, the epoch stays or becomes the
next one, and `SHARDING-MAX` is always set to the same number. -/
structure Moves (P : Platform) (kb kb' : Kanban) : Prop where
  grows : kb.Extends kb'
  epoch : kb'.get .epoch = kb.get .epoch ∨ ∃ e, EpochIs P kb e ∧ EpochIs P kb' (e + 1)
  shardingMax : kb'.get .shardingMax = kb.get .shardingMax ∨
    kb'.get .shardingMax = some (decimal indexPoolMax)

/-- The store when the queriers are started: there is an epoch, and if there is a `SHARDING-MAX` it
is the manager's. -/
structure Opened (P : Platform) (kb : Kanban) : Prop where
  epoch : ∃ e, 1 ≤ e ∧ EpochIs P kb e
  shardingMax : ∀ v, kb.get .shardingMax = some v → v = decimal indexPoolMax

/-- The rest of the system does what it does, and nothing else. -/
def RestMoves (P : Platform) (s : Site) : SiteAction → Prop
  | .querier _ => True
  | .rest kb => Moves P s.kanban kb

/-! ## What a step does -/

section

variable (P : Platform) (n : Nat) (s : Site)

/-- What a step of a querier can do: what it draws, and the site after it. -/
inductive Site.Step : List Node → Site → Prop
  | stay : Step [] s
  | stop : Step [] (s.goto n .gone)
  | trap {seen e m : Int} (hpc : (s.queriers n).pc = .draw seen e m)
      (hnone : partitionId (s.counter + 1) m = none) :
      Step [] { s.goto n .gone with counter := s.counter + 1 }
  | watch {e : Int} (hpc : (s.queriers n).pc = .watch)
      (he : getEpochInt P.runtime P.crypto s.kanban = some e)
      (hne : e ≠ (s.queriers n).lastEpoch) : Step [] (s.goto n (.enter e))
  | leave {seen : Int} (hpc : (s.queriers n).pc = .enter seen) :
      Step [] (s.put n { s.queriers n with pc := .watch, lastEpoch := seen })
  | enter {seen e : Int} (hpc : (s.queriers n).pc = .enter seen) :
      Step [] (s.goto n (.readMax seen e))
  | readMax {seen e m : Int} (hpc : (s.queriers n).pc = .readMax seen e)
      (hm : (s.kanban.get .shardingMax).bind stoi = some m) : Step [] (s.goto n (.draw seen e m))
  | draw {seen e m id : Int} (hpc : (s.queriers n).pc = .draw seen e m)
      (hid : partitionId (s.counter + 1) m = some id) :
      Step [⟨e, id, n⟩] { s.goto n (.fetch seen e id) with counter := s.counter + 1 }
  | fetch {seen e id : Int} {blob : Bytes} {q : Querier}
      (hpc : (s.queriers n).pc = .fetch seen e id)
      (hblob : s.kanban.globalIndex (e - 1) id = some blob)
      (hq : ecallQuerierSetup P.crypto blob = .ok q) :
      Step [] (s.put n
        { s.queriers n with pc := .register seen e id, loaded := some ⟨e - 1, id, q⟩ })
  | register {seen e id : Int} (hpc : (s.queriers n).pc = .register seen e id) :
      Step [] { s.put n { s.queriers n with pc := .watch, lastEpoch := seen } with
        nodes := s.nodes ++ [⟨e, id, n⟩] }

theorem Site.step_spec : ∃ drawn, s.Step P n drawn (s.querierStep P n) := by
  unfold Site.querierStep
  split
  case h_1 hpc =>
      split
      case h_1 => exact ⟨_, .stop⟩
      case h_2 e he =>
          split_ifs with h
          · exact ⟨_, .stay⟩
          · exact ⟨_, .watch hpc he fun heq => h (.inr heq)⟩
  case h_2 seen hpc =>
      split
      case h_1 => exact ⟨_, .stop⟩
      case h_2 e _ =>
          split_ifs
          · exact ⟨_, .leave hpc⟩
          · exact ⟨_, .enter hpc⟩
  case h_3 seen e hpc =>
      split
      case h_1 => exact ⟨_, .stop⟩
      case h_2 m hm => exact ⟨_, .readMax hpc hm⟩
  case h_4 seen e m hpc =>
      split
      case h_1 hnone => exact ⟨_, .trap hpc hnone⟩
      case h_2 id hid => exact ⟨_, .draw hpc hid⟩
  case h_5 seen e id hpc =>
      split
      case h_1 => exact ⟨_, .stay⟩
      case h_2 blob hblob =>
          split
          case h_1 => exact ⟨_, .stop⟩
          case h_2 q hq => exact ⟨_, .fetch hpc hblob hq⟩
  case h_6 seen e id hpc => exact ⟨_, .register hpc⟩
  case h_7 => exact ⟨_, .stay⟩

end

section

variable {P : Platform} {n k : Nat} {s s' : Site} {drawn : List Node} {m : Monitor}
  {pc : MonitorAt}

@[simp] theorem Site.kanban_put : (s.put n m).kanban = s.kanban := rfl

@[simp] theorem Site.kanban_goto : (s.goto n pc).kanban = s.kanban := rfl

@[simp] theorem Site.nodes_put : (s.put n m).nodes = s.nodes := rfl

@[simp] theorem Site.nodes_goto : (s.goto n pc).nodes = s.nodes := rfl

@[simp] theorem Site.counter_put : (s.put n m).counter = s.counter := rfl

@[simp] theorem Site.counter_goto : (s.goto n pc).counter = s.counter := rfl

@[simp] theorem Site.queriers_put_self : (s.put n m).queriers n = m := Function.update_self _ _ _

@[simp] theorem Site.queriers_goto_self :
    (s.goto n pc).queriers n = { s.queriers n with pc := pc } := Function.update_self _ _ _

/-- The queriers write no key of the rest of the system. -/
theorem Site.Step.kanban_eq (h : s.Step P n drawn s') : s'.kanban = s.kanban := by
  cases h <;> rfl

theorem Site.kanban_querierStep (s : Site) (n : Nat) : (s.querierStep P n).kanban = s.kanban := by
  obtain ⟨_, h⟩ := s.step_spec P n
  exact h.kanban_eq

/-- A step of a querier moves no other one. -/
theorem Site.Step.queriers_of_ne (h : s.Step P n drawn s') (hk : k ≠ n) :
    s'.queriers k = s.queriers k := by
  cases h with
  | stay => rfl
  | _ => exact Function.update_of_ne hk _ _

/-- It draws for itself only. -/
theorem Site.Step.querier_of_mem (h : s.Step P n drawn s') {d : Node} (hd : d ∈ drawn) :
    d.querier = n := by
  cases h with
  | draw => rw [List.mem_singleton.1 hd]
  | _ => exact absurd hd List.not_mem_nil

theorem Site.mem_lrange {e p : Int} :
    n ∈ s.lrange e p ↔ (⟨e, p, n⟩ : Node) ∈ s.nodes := by
  simp only [Site.lrange, List.mem_map, List.mem_filter, decide_eq_true_eq]
  constructor
  · rintro ⟨⟨_, _, _⟩, ⟨hmem, rfl, rfl⟩, rfl⟩
    exact hmem
  · exact fun hmem => ⟨_, ⟨hmem, rfl, rfl⟩, rfl⟩

end

/-! ## Set-ups followed by hand -/

/-- The partition that a value of the counter stands for if it is an `int`. -/
def partitionOf (c : Nat) : Int := ((c % indexPoolMax : Nat) : Int) + 1

theorem partitionOf_mem (c : Nat) : 0 ≤ partitionOf c ∧ 1 ≤ (partitionOf c).toNat ∧
    (partitionOf c).toNat ≤ indexPoolMax := by
  have hlt : c % indexPoolMax < indexPoolMax := Nat.mod_lt _ (by decide)
  unfold partitionOf
  omega

/-- The site after a querier has drawn, loaded an index and registered. -/
def Site.serve (s : Site) (n : Nat) (seen e : Int) (q : Querier) : Site :=
  { s with
    counter := s.counter + 1
    nodes := s.nodes ++ [⟨e, partitionOf (s.counter + 1), n⟩]
    queriers := Function.update s.queriers n
      ⟨.watch, seen, some ⟨e - 1, partitionOf (s.counter + 1), q⟩⟩ }

theorem partitionId_of_lt {c : Nat} (h : c < 2 ^ 31) :
    partitionId c indexPoolMax = some (partitionOf c) := by
  have hwrap : wrapInt c = c := wrapInt_of_isInt ⟨by omega, by omega⟩
  have hmod : (c : Int).tmod indexPoolMax = (c % indexPoolMax : Nat) := by
    rw [Int.tmod_eq_emod_of_nonneg (by omega)]
    rfl
  have hfour : (indexPoolMax : Int) = 4 := rfl
  have hmax : ¬((indexPoolMax : Int) = 0 ∨ (c : Int) = -2 ^ 31 ∧ (indexPoolMax : Int) = -1) := by
    omega
  rw [partitionId, hwrap, remInt, if_neg hmax, hmod]
  rfl

section

variable {P : Platform} {ok : Site → SiteAction → Prop} {s : Site} {n : Nat} {seen e : Int}

theorem Site.goto_goto (s : Site) (n : Nat) (pc pc' : MonitorAt) :
    (s.goto n pc).goto n pc' = s.goto n pc' := by
  simp [Site.goto, Site.put]

theorem Site.querierStep_watch (hpc : (s.queriers n).pc = .watch) (he : EpochIs P s.kanban e)
    (hmin : 3 ≤ e) (hlast : (s.queriers n).lastEpoch ≠ e) :
    s.querierStep P n = s.goto n (.enter e) := by
  have hgo : ¬(e < 3 ∨ e = (s.queriers n).lastEpoch) := by omega
  simp only [Site.querierStep, hpc, he.getEpochInt, if_neg hgo]

theorem Site.querierStep_enter (hpc : (s.queriers n).pc = .enter seen) (he : EpochIs P s.kanban e)
    (hmin : 3 ≤ e) : s.querierStep P n = s.goto n (.readMax seen e) := by
  simp only [Site.querierStep, hpc, he.getEpochInt, if_neg (Int.not_lt.2 hmin)]

theorem Site.querierStep_readMax (hpc : (s.queriers n).pc = .readMax seen e)
    (hmax : s.kanban.get .shardingMax = some (decimal indexPoolMax)) :
    s.querierStep P n = s.goto n (.draw seen e indexPoolMax) := by
  have hread : stoi (decimal indexPoolMax) = some (indexPoolMax : Int) := by decide
  simp only [Site.querierStep, hpc, hmax, Option.bind_some, hread]

theorem Site.querierStep_draw {m id : Int} (hpc : (s.queriers n).pc = .draw seen e m)
    (hid : partitionId (s.counter + 1) m = some id) :
    s.querierStep P n = { s.goto n (.fetch seen e id) with counter := s.counter + 1 } := by
  simp only [Site.querierStep, hpc, hid]

theorem Site.querierStep_fetch {id : Int} {blob : Bytes} {q : Querier}
    (hpc : (s.queriers n).pc = .fetch seen e id)
    (hblob : s.kanban.globalIndex (e - 1) id = some blob)
    (hq : ecallQuerierSetup P.crypto blob = .ok q) :
    s.querierStep P n = s.put n
      { s.queriers n with pc := .register seen e id, loaded := some ⟨e - 1, id, q⟩ } := by
  simp only [Site.querierStep, hpc, hblob, hq]

theorem Site.querierStep_register {id : Int} (hpc : (s.queriers n).pc = .register seen e id) :
    s.querierStep P n = { s.put n { s.queriers n with pc := .watch, lastEpoch := seen } with
      nodes := s.nodes ++ [⟨e, id, n⟩] } := by
  simp only [Site.querierStep, hpc]

/-- Nothing is asked of steps that draw no partition. -/
def OnlyDraws (ok : Site → SiteAction → Prop) : Prop :=
  ∀ s n, (∀ seen e m, (Site.queriers s n).pc ≠ .draw seen e m) → ok s (.querier n)

/-- The other reads of a set-up. -/
theorem Site.leads_enter (hok : OnlyDraws ok) (hpc : (s.queriers n).pc = .enter seen)
    (he : EpochIs P s.kanban e) (hmin : 3 ≤ e)
    (hmax : s.kanban.get .shardingMax = some (decimal indexPoolMax)) :
    Leads (siteStep P) ok s (List.replicate 2 (.querier n))
      (s.goto n (.draw seen e indexPoolMax)) := by
  have hpc' : ((s.goto n (.readMax seen e)).queriers n).pc = .readMax seen e := by simp
  refine .cons (hok s n (by simp [hpc])) (Site.querierStep_enter hpc he hmin) ?_
  refine .cons (hok _ n (by simp)) ?_ .nil
  exact (Site.querierStep_readMax hpc' hmax).trans (s.goto_goto n _ _)

/-- A querier is about to draw. -/
theorem Site.leads_draw (hok : OnlyDraws ok) (hpc : (s.queriers n).pc = .watch)
    (he : EpochIs P s.kanban e) (hmin : 3 ≤ e) (hlast : (s.queriers n).lastEpoch ≠ e)
    (hmax : s.kanban.get .shardingMax = some (decimal indexPoolMax)) :
    Leads (siteStep P) ok s (List.replicate 3 (.querier n))
      (s.goto n (.draw e e indexPoolMax)) := by
  have hpc' : ((s.goto n (.enter e)).queriers n).pc = .enter e := by simp
  refine .cons (hok s n (by simp [hpc])) (Site.querierStep_watch hpc he hmin hlast) ?_
  have hlead := Site.leads_enter (P := P) hok hpc' he hmin hmax
  rwa [Site.goto_goto] at hlead

/-- It loads the index and registers. -/
theorem Site.leads_fetch {id : Int} {blob : Bytes} {q : Querier} (hok : OnlyDraws ok)
    (hpc : (s.queriers n).pc = .fetch seen e id)
    (hblob : s.kanban.globalIndex (e - 1) id = some blob)
    (hq : ecallQuerierSetup P.crypto blob = .ok q) :
    Leads (siteStep P) ok s (List.replicate 2 (.querier n))
      { s.put n ⟨.watch, seen, some ⟨e - 1, id, q⟩⟩ with nodes := s.nodes ++ [⟨e, id, n⟩] } := by
  refine .cons (hok s n (by simp [hpc])) (Site.querierStep_fetch hpc hblob hq) ?_
  have hpc' := congrArg Monitor.pc (s.queriers_put_self (n := n)
    (m := { s.queriers n with pc := .register seen e id, loaded := some ⟨e - 1, id, q⟩ }))
  refine .cons (hok _ n (by simp)) ((Site.querierStep_register hpc').trans ?_) .nil
  simp [Site.put]

/-- It draws, loads the index and registers. -/
theorem Site.leads_serve {blob : Bytes} {q : Querier} (hok : OnlyDraws ok)
    (hdraw : ok s (.querier n)) (hpc : (s.queriers n).pc = .draw seen e indexPoolMax)
    (hindex : ∀ p : Nat, 1 ≤ p → p ≤ indexPoolMax →
      s.kanban.get (.globalIndex (e - 1) p) = some blob)
    (hq : ecallQuerierSetup P.crypto blob = .ok q) (hc : s.counter + 1 < 2 ^ 31) :
    Leads (siteStep P) ok s (List.replicate 3 (.querier n)) (s.serve n seen e q) := by
  have hget : s.kanban.globalIndex (e - 1) (partitionOf (s.counter + 1)) = some blob := by
    obtain ⟨hpos, hle, hle'⟩ := partitionOf_mem (s.counter + 1)
    rw [Kanban.globalIndex, if_pos hpos]
    exact hindex _ hle hle'
  have hdrawn := Site.querierStep_draw (P := P) hpc (partitionId_of_lt hc)
  have hpc' : ((s.querierStep P n).queriers n).pc =
      .fetch seen e (partitionOf (s.counter + 1)) := by
    rw [hdrawn]
    simp
  have hlead := Site.leads_fetch (P := P) hok hpc' (by rwa [s.kanban_querierStep]) hq
  refine ⟨⟨hdraw, hlead.meets⟩, hlead.exec_eq.trans ?_⟩
  rw [hdrawn]
  simp [Site.serve, Site.put, Site.goto]

end

end DeSearch
