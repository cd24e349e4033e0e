import DeSearch.AuditorProof
import DeSearch.Solo

/-!
# What the records list

With one executor of each role, everything a closed epoch needs is there once (`Single`), so the
auditor can follow the records from a global index down to the raw blocks, as long as no record is
replaced by one that lists other inputs (`RecordsKept`).

* `Settled`: what holds along such a run.
* `Settled.global_spec`: a global index leads to the indexes of all epochs up to its own.
* `Settled.reached_of_listed`: every block that the auditor expects is reached.
-/

namespace DeSearch

open Run Relation

/-! ## Records -/

/-- An executor that is about to file a witness finds no record with other inputs under its key,
and shows the crawlers' `func` only if it is a crawler. -/
def RecordsKept (P : Platform) (s : State) : Action → Prop
  | .exec p _ => ∀ t out k, s.procs p = .hset t out →
      witnessKey P.runtime out.witness = some k →
        (∀ w, s.kanban.hget k = some w → readIn P.runtime w = readIn P.runtime out.witness) ∧
        (crawlerFunc P.crypto <:+: out.witness → t.role = .crawler)
  | _ => True

section

variable (P : Platform) (src : Source) (F : Task → Inputs → Prop)

/-- Every record is the witness of a stored value, and two records of one value list the same
inputs. -/
structure Recorded (kb : Kanban) : Prop where
  filed : ∀ k w, (k, w) ∈ kb.hsets → ∃ t out, Made P src F kb t out ∧ out.witness = w ∧
    P.crypto.sha256 out.data = k ∧ kb.Stored t.key out.data ∧
    (crawlerFunc P.crypto <:+: w → t.role = .crawler)
  same : ∀ k w w', (k, w) ∈ kb.hsets → (k, w') ∈ kb.hsets →
    readIn P.runtime w = readIn P.runtime w'

end

section

variable {D : Deployment} {src : Source} {F : Task → Inputs → Prop} {s : State}

theorem Recorded.of_hsets_eq {kb kb' : Kanban} (h : Recorded D.platform src F kb)
    (hext : kb.Extends kb') (heq : kb'.hsets = kb.hsets) : Recorded D.platform src F kb' := by
  refine ⟨fun k w hw => ?_, fun k w w' hw hw' => h.same k w w' (heq ▸ hw) (heq ▸ hw')⟩
  obtain ⟨t, out, hm, hwit, hk, hst, hfunc⟩ := h.filed k w (heq ▸ hw)
  exact ⟨t, out, hm.mono hext, hwit, hk, hext.sets hst, hfunc⟩

/-- A new record lists what the record before it under the same key did. -/
theorem Recorded.exec (h : Recorded D.platform src F s.kanban) (htr : Traced D.platform src F s)
    (hF : ∀ t xs, F t xs → t.Fits D.platform xs) {p : Nat} {answers : Inputs}
    (ha : RecordsKept D.platform s (.exec p answers)) :
    Recorded D.platform src F (D.step (.exec p answers) s).kanban := by
  have hstep := Executor.step_spec D.platform (D.role p) answers s.kanban (s.procs p)
  have hext : s.kanban.Extends (D.step (.exec p answers) s).kanban := D.extends_step _
  -- the new record, next to an old one
  have hsame : ∀ {k w t out}, (k, w) ∈ s.kanban.hsets → s.procs p = .hset t out →
      witnessKey D.platform.runtime out.witness = some k →
        readIn D.platform.runtime w = readIn D.platform.runtime out.witness := by
    intro k w t out hw hx hk
    obtain ⟨w₀, hget, hmem⟩ := exists_lookup_of_mem hw
    exact (h.same k w w₀ hw hmem).trans ((ha t out k hx hk).1 w₀ hget)
  refine ⟨fun k w hw => ?_, fun k w w' hw hw' => ?_⟩
  · rcases hstep.mem_hsets hw with hold | ⟨t, out, hx, rfl, hk⟩
    · obtain ⟨t, out, hm, hwit, hk, hst, hfunc⟩ := h.filed k w hold
      exact ⟨t, out, hm.mono hext, hwit, hk, hext.sets hst, hfunc⟩
    · have hm := htr.procs p
      rw [hx] at hm
      rw [hm.1.witnessKey_eq hF, Option.some.injEq] at hk
      exact ⟨t, out, hm.1.mono hext, rfl, hk, hext.sets hm.2,
        (ha t out k hx (by rw [hm.1.witnessKey_eq hF, hk])).2⟩
  · rcases hstep.mem_hsets hw with hw | ⟨t, out, hx, rfl, hk⟩
    · rcases hstep.mem_hsets hw' with hw' | ⟨t', out', hx', rfl, hk'⟩
      · exact h.same k w w' hw hw'
      · exact hsame hw hx' hk'
    · rcases hstep.mem_hsets hw' with hw' | ⟨t', out', hx', rfl, -⟩
      · exact (hsame hw' hx hk).symm
      · cases hx.symm.trans hx'
        rfl

/-! ## Closed epochs -/

/-- The root hash of the epoch was stored. -/
def Kanban.Closed (kb : Kanban) (e : Int) : Prop := ∃ v, kb.Stored (.rootHash e) v

/-- All epochs before the current one are closed. -/
def ClosedBefore (P : Platform) (kb : Kanban) : Prop :=
  ∀ E, EpochIs P kb E → ∀ e, 1 ≤ e → e < E → kb.Closed e

theorem EpochIs.eq {P : Platform} {kb : Kanban} {e e' : Int} (h : EpochIs P kb e)
    (h' : EpochIs P kb e') : e = e' :=
  Option.some.inj (h.getEpochInt.symm.trans h'.getEpochInt)

theorem ClosedBefore.of_epoch_eq {P : Platform} {kb kb' : Kanban} (h : ClosedBefore P kb)
    (hext : kb.Extends kb') (heq : kb'.get .epoch = kb.get .epoch) : ClosedBefore P kb' := by
  intro E hE e h1 hlt
  obtain ⟨v, hv⟩ := h E ⟨hE.1, heq.symm.trans hE.2⟩ e h1 hlt
  exact ⟨v, hext.sets hv⟩

theorem ClosedBefore.manager (h : ClosedBefore D.platform s.kanban)
    (hl : Ledger D.platform D.sort s) : ClosedBefore D.platform (D.step .manager s).kanban := by
  have hext : s.kanban.Extends (D.step .manager s).kanban := D.extends_step .manager
  obtain ⟨m', kb', hstep, heq⟩ := D.step_manager s
  rw [heq] at hext ⊢
  obtain ⟨kb, m, procs⟩ := s
  have hpc := hl.pc
  cases hstep with
  | boot | openEpoch | commit => exact h.of_epoch_eq hext (Kanban.get_set_of_ne _ (by simp) _)
  | setFirst =>
      intro E hE e h1 hlt
      obtain rfl := hE.eq (epochIs_set_epoch D.platform kb (by decide))
      omega
  | @increment b c n =>
      obtain ⟨hc, rfl, v, hroot⟩ := hpc
      intro E hE e h1 hlt
      obtain rfl := hE.eq (epochIs_set_epoch D.platform kb (isInt_wrapInt _))
      by_cases hmax : IsInt (c + 1)
      · rw [wrapInt_of_isInt hmax] at hlt
        rcases (Int.lt_add_one_iff.1 hlt).lt_or_eq with hlt | rfl
        · obtain ⟨v', hv'⟩ := h c hc e h1 hlt
          exact ⟨v', hext.sets hv'⟩
        · exact ⟨v, hext.sets hroot⟩
      · have hlast : c = 2 ^ 31 - 1 := by
          have hlo := hc.1.1
          have hhi := hc.1.2
          by_contra hne
          exact hmax ⟨by omega, by omega⟩
        rw [hlast, show wrapInt (2 ^ 31 - 1 + 1) = -2 ^ 31 by decide] at hlt
        omega
  | _ => exact h.of_epoch_eq hext rfl

end

/-! ## Whole runs -/

/-- What holds in a run in which the records are kept. -/
structure Settled (D : Deployment) (one : Role → Nat) (src : Source) (s : State) : Prop where
  single : Single D one s
  traced : Traced D.platform src (Task.Regulated D.platform) s
  ledger : Ledger D.platform D.sort s
  closed : ClosedBefore D.platform s.kanban
  recorded : Recorded D.platform src (Task.Regulated D.platform) s.kanban

namespace Settled

variable {D : Deployment} {one : Role → Nat} {src : Source} {s : State}

theorem init : Settled D one src .init where
  single := .init
  traced := traced_init
  ledger := ledger_init _ _
  closed _ hE := absurd hE.2 nofun
  recorded := ⟨fun _ _ h => absurd h List.not_mem_nil, fun _ _ _ h => absurd h List.not_mem_nil⟩

theorem step {a : Action} (h : Settled D one src s) (ha : Undisturbed D one src s a)
    (hrec : RecordsKept D.platform s a) : Settled D one src (D.step a s) := by
  obtain ⟨hsingle, htraced⟩ := h.single.step h.traced ha
  have hext : s.kanban.Extends (D.step a s).kanban := D.extends_step a
  refine ⟨hsingle, htraced, h.ledger.step a, ?_, ?_⟩
  · cases a with
    | manager => exact h.closed.manager h.ledger
    | exec p answers =>
        have hstep := Executor.step_spec D.platform (D.role p) answers s.kanban (s.procs p)
        exact h.closed.of_epoch_eq hext (Kanban.get_of_ledger_eq hstep.ledger_eq rfl)
    | crash p => exact h.closed
  · cases a with
    | manager =>
        exact h.recorded.of_hsets_eq hext
          (Manager.ledgerOnly_step (P := D.platform) (L := D.sort) s.manager).hsets
    | exec p answers => exact h.recorded.exec h.traced (fun t xs hF => hF.2.2.2) hrec
    | crash p => exact h.recorded

end Settled

theorem settled_of_meets {D : Deployment} {one : Role → Nat} {src : Source} {as : List Action}
    (h : Meets D.step (fun s a => Undisturbed D one src s a ∧ RecordsKept D.platform s a) .init
      as) : Settled D one src (exec D.step .init as) :=
  h.invariant .init fun _ _ ha hs => hs.step ha.1 ha.2

/-! ## What the records list -/

section

variable {P : Platform} {src : Source} {F : Task → Inputs → Prop} {kb : Kanban}

variable (P kb) in
/-- The auditor finds these inputs in the record of a value. -/
def Lists (v : Bytes) (xs : List Bytes) : Prop :=
  ∃ w, Accepted P.runtime P.crypto kb (P.crypto.sha256 v) w ∧
    readIn P.runtime w = some (xs.map P.crypto.sha256)

theorem Lists.points {v x : Bytes} {xs : List Bytes} (h : Lists P kb v xs) (hx : x ∈ xs) :
    Points P.runtime P.crypto kb (P.crypto.sha256 v) (P.crypto.sha256 x) := by
  obtain ⟨w, hw, hins⟩ := h
  exact ⟨w, _, hw, hins, List.mem_map_of_mem hx⟩

theorem Lists.grounded {v : Bytes} {xs : List Bytes} (h : Lists P kb v xs)
    (hall : ∀ x ∈ xs, Grounded P.runtime P.crypto kb (P.crypto.sha256 x)) :
    Grounded P.runtime P.crypto kb (P.crypto.sha256 v) := by
  obtain ⟨w, hw, hins⟩ := h
  exact .node hw hins (List.forall_mem_map.2 hall)

/-- What the auditor reads in the witness of a call. -/
theorem Made.readIn_witness {t : Task} {out : Output} (hm : Made P src F kb t out) :
    ∃ xs, F t xs ∧ Sourced src kb t xs ∧
      checkWitness P.runtime P.crypto out.witness = some true ∧
      readIn P.runtime out.witness = some ((t.listed xs.values).map P.crypto.sha256) := by
  obtain ⟨xs, hF, hs, hcall⟩ := hm
  obtain ⟨output, -, hwitness, -⟩ := hs.call_eq_some hcall
  exact ⟨xs, hF, hs, by rw [hwitness, checkWitness_createWitness],
    by rw [hwitness, readIn_createWitness]⟩

theorem Recorded.accepted (h : Recorded P src F kb) {k w : Bytes} (hw : kb.hget k = some w) :
    Accepted P.runtime P.crypto kb k w := by
  obtain ⟨t, out, hm, rfl, -⟩ := h.filed k w (mem_of_lookup hw)
  obtain ⟨-, -, -, hcheck, -⟩ := hm.readIn_witness
  exact ⟨hw, hcheck⟩

theorem Traced.genuine {s : State} (h : Traced P src F s) :
    Genuine P.runtime P.crypto s.kanban := by
  intro k w hw
  obtain ⟨t, out, hm, rfl, -⟩ := h.records k w (mem_of_lookup hw)
  obtain ⟨-, -, -, hcheck, -⟩ := hm.readIn_witness
  exact hcheck

/-- The auditor finds the inputs of the call, whichever record is there. -/
theorem Recorded.lists (h : Recorded P src F kb) {t : Task} {out : Output}
    (hm : Made P src F kb t out)
    (hrec : (P.crypto.sha256 out.data, out.witness) ∈ kb.hsets) :
    ∃ xs, F t xs ∧ Sourced src kb t xs ∧ Lists P kb out.data (t.listed xs.values) := by
  obtain ⟨xs, hF, hs, -, hins⟩ := hm.readIn_witness
  obtain ⟨w, hget, hmem⟩ := exists_lookup_of_mem hrec
  exact ⟨xs, hF, hs, w, h.accepted hget, (h.same _ w _ hmem hrec).trans hins⟩

end

/-! ## The graph of the records -/

/-- A shard that was stored, or a block that the source may answer. -/
def Hashed (src : Source) (kb : Kanban) (x : Bytes) : Prop :=
  (∃ k, k.isData ∧ kb.Stored k x) ∨ ∃ n, src.Answers n x

namespace Settled

variable {D : Deployment} {one : Role → Nat} {src : Source} {s : State}
  (h : Settled D one src s)

include h

/-- A shard has one witness key, that of its value. -/
theorem files_unique_of_single (key : Key) (k k' : Bytes)
    (hk : Files D.platform src (Task.Regulated D.platform) s.kanban key k)
    (hk' : Files D.platform src (Task.Regulated D.platform) s.kanban key k') : k = k' := by
  obtain ⟨t, out, hm, rfl, hst, hw, -⟩ := hk
  obtain ⟨t', out', hm', -, hst', hw', -⟩ := hk'
  rw [hm.witnessKey_eq fun t xs hF => hF.2.2.2, Option.some.injEq] at hw
  rw [hm'.witnessKey_eq fun t xs hF => hF.2.2.2, Option.some.injEq] at hw'
  rw [← hw, ← hw', h.single.agrees t.key t.isData_key _ _ hst hst']

/-- Every shard of a closed epoch is there with a record. -/
theorem exists_made {e : Int} (hc : s.kanban.Closed e) {key : Key} (hkey : key ∈ shards e) :
    ∃ t out, Made D.platform src (Task.Regulated D.platform) s.kanban t out ∧ t.key = key ∧
      s.kanban.Stored key out.data ∧
      (D.platform.crypto.sha256 out.data, out.witness) ∈ s.kanban.hsets := by
  obtain ⟨v, hv⟩ := hc
  obtain ⟨l, hq, -⟩ := h.ledger.roots e v hv
  obtain ⟨k, t, out, hm, rfl, hst, hw, hrec⟩ :=
    hq.files (fun t xs hF => hF.1) h.traced h.files_unique_of_single key hkey
  rw [hm.witnessKey_eq fun t xs hF => hF.2.2.2, Option.some.injEq] at hw
  exact ⟨t, out, hm, rfl, hst, hw ▸ hrec⟩

/-- Its record lists its inputs. -/
theorem exists_lists {e : Int} (hc : s.kanban.Closed e) {key : Key} (hkey : key ∈ shards e)
    {v : Bytes} (hv : s.kanban.Stored key v) :
    ∃ t xs, t.key = key ∧ t.Regulated D.platform xs ∧ Sourced src s.kanban t xs ∧
      Lists D.platform s.kanban v (t.listed xs.values) := by
  obtain ⟨t, out, hm, rfl, hst, hrec⟩ := h.exists_made hc hkey
  obtain rfl := h.single.agrees t.key t.isData_key v _ hv hst
  obtain ⟨xs, hF, hs, hlists⟩ := h.recorded.lists hm hrec
  exact ⟨t, xs, rfl, hF, hs, hlists⟩

theorem lists_items {e : Int} {i : Nat} (hc : s.kanban.Closed e) (h1 : 1 ≤ i)
    (hi : i ≤ itemsPoolMax) {v : Bytes} (hv : s.kanban.Stored (.items e i) v) :
    ∃ xs, Lists D.platform s.kanban v xs ∧ ∀ x ∈ xs, ∃ n, src.Answers n x := by
  obtain ⟨t, xs, hkey, -, hs, hlists⟩ :=
    h.exists_lists hc (Task.InRange.key_mem_shards (t := .crawl e 0 i) ⟨h1, hi⟩) hv
  cases t <;> cases hkey
  refine ⟨xs.values, hlists, fun x hx => ?_⟩
  obtain ⟨n, -, hn⟩ := exists_of_forall₂ (List.Forall₂.flip hs) hx
  exact ⟨n, hn⟩

omit h in
/-- A batch is what an indexer takes it for. -/
theorem nulFree_items {F : Task → Inputs → Prop} (h : Traced D.platform src F s) {e : Int}
    {i : Nat} {v : Bytes} (hv : s.kanban.Stored (.items e i) v) : NulFree v := by
  obtain ⟨t, out, ⟨xs, -, -, hcall⟩, rfl, hkey | ⟨_, _, -, hkey⟩⟩ := h.data _ v hv rfl
  · cases t <;> cases hkey
    obtain ⟨⟨o, w⟩, -, rfl⟩ := Option.map_eq_some_iff.1 hcall
    exact nulFree_cString o
  · cases hkey

theorem lists_index {e : Int} {i : Nat} (hc : s.kanban.Closed e) (h2 : 2 ≤ e) (h1 : 1 ≤ i)
    (hi : i ≤ indexPoolMax) {v : Bytes} (hv : s.kanban.Stored (.index e i) v) :
    ∃ xs, Lists D.platform s.kanban v xs ∧
      List.Forall₂ s.kanban.Stored ((window i).map (.items (e - 1))) xs := by
  obtain ⟨t, xs, hkey, ⟨-, hcursor, -⟩, hs, hlists⟩ :=
    h.exists_lists hc (Task.InRange.key_mem_shards (t := .index e i 0) ⟨h2, h1, hi⟩) hv
  cases t with
  | index e' i' pos =>
      cases hkey
      have hs' : List.Forall₂ s.kanban.Stored (Task.index e i pos).inputs xs.values := hs
      rw [inputs_of_cursorAligned hcursor] at hs'
      have hcstr : (Task.index e i pos).listed xs.values = xs.values := by
        refine (List.map_congr_left fun x hx => ?_).trans (List.map_id xs.values)
        obtain ⟨k, hk, hst⟩ := exists_of_forall₂ (List.Forall₂.flip hs') hx
        obtain ⟨j, -, rfl⟩ := List.mem_map.1 hk
        exact cString_of_nulFree (nulFree_items h.traced hst)
      rw [hcstr] at hlists
      exact ⟨xs.values, hlists, hs'⟩
  | _ => cases hkey

theorem lists_global {e : Int} {i : Nat} (hc : s.kanban.Closed e) (h3 : 3 ≤ e) (h1 : 1 ≤ i)
    (hi : i ≤ indexPoolMax) {v : Bytes} (hv : s.kanban.Stored (.globalIndex e i) v) :
    ∃ g n, Lists D.platform s.kanban v [g, n] ∧ s.kanban.Stored (.globalIndex (e - 1) i) g ∧
      s.kanban.Stored (.index e i) n := by
  obtain ⟨t, xs, hkey, -, hs, hlists⟩ :=
    h.exists_lists hc (Task.InRange.key_mem_shards (t := .reduce e i) ⟨h3, h1, hi⟩) hv
  cases t with
  | reduce e' i' =>
      cases hkey
      have hs' : List.Forall₂ s.kanban.Stored [.globalIndex (e - 1) i, .index e i] xs.values := hs
      match xs, hs' with
      | ⟨[g, n], _⟩, .cons hg (.cons hn .nil) => exact ⟨g, n, hlists, hg, hn⟩
  | _ => cases hkey

/-! ## Every block is reached -/

/-- The hash of a block is not that of a shard. -/
theorem terminal_block (hcoll : Set.InjOn D.platform.crypto.sha256 {x | Hashed src s.kanban x})
    (hblocks : ∀ n x k, src.Answers n x → k.isData → ¬s.kanban.Stored k x) {n : Int} {x : Bytes}
    (hx : src.Answers n x) :
    Terminal D.platform.runtime D.platform.crypto s.kanban (D.platform.crypto.sha256 x) := by
  intro w hw
  obtain ⟨t, out, -, -, hk, hst, -⟩ := h.recorded.filed _ w (mem_of_lookup hw.1)
  obtain rfl := hcoll (.inl ⟨t.key, t.isData_key, hst⟩) (.inr ⟨n, hx⟩) hk
  exact hblocks n _ t.key hx t.isData_key hst

section

variable (hterm : ∀ n x, src.Answers n x →
  Terminal D.platform.runtime D.platform.crypto s.kanban (D.platform.crypto.sha256 x))

include hterm

theorem grounded_items {e : Int} {i : Nat} (hc : s.kanban.Closed e) (h1 : 1 ≤ i)
    (hi : i ≤ itemsPoolMax) {v : Bytes} (hv : s.kanban.Stored (.items e i) v) :
    Grounded D.platform.runtime D.platform.crypto s.kanban (D.platform.crypto.sha256 v) := by
  obtain ⟨xs, hlists, hxs⟩ := h.lists_items hc h1 hi hv
  refine hlists.grounded fun x hx => ?_
  obtain ⟨n, hn⟩ := hxs x hx
  exact .terminal (hterm n x hn)

theorem grounded_index {e : Int} {i : Nat} (hc : s.kanban.Closed e)
    (hc' : s.kanban.Closed (e - 1)) (h2 : 2 ≤ e) (h1 : 1 ≤ i) (hi : i ≤ indexPoolMax) {v : Bytes}
    (hv : s.kanban.Stored (.index e i) v) :
    Grounded D.platform.runtime D.platform.crypto s.kanban (D.platform.crypto.sha256 v) := by
  obtain ⟨xs, hlists, hxs⟩ := h.lists_index hc h2 h1 hi hv
  refine hlists.grounded fun x hx => ?_
  obtain ⟨k, hk, hst⟩ := exists_of_forall₂ (List.Forall₂.flip hxs) hx
  obtain ⟨j, hj, rfl⟩ := List.mem_map.1 hk
  obtain ⟨hj1, hj16⟩ := mem_window.1 hj
  have h4 : indexPoolMax = 4 := rfl
  have h16 : itemsPoolMax = 16 := rfl
  have hb : indexBulkMax = 4 := rfl
  rw [hb] at hj1 hj16
  exact h.grounded_items hterm hc' (by omega) (by omega) hst

/-- A global index leads to the indexes of all epochs up to its own. -/
theorem global_spec {i : Nat} (h1 : 1 ≤ i) (hi : i ≤ indexPoolMax) (n : Nat)
    (hc : ∀ e : Int, 1 ≤ e → e ≤ n + 2 → s.kanban.Closed e) {g : Bytes}
    (hg : s.kanban.Stored (.globalIndex (n + 2) i) g) :
    Grounded D.platform.runtime D.platform.crypto s.kanban (D.platform.crypto.sha256 g) ∧
      ∀ (e : Int) v, 2 ≤ e → e ≤ n + 2 → s.kanban.Stored (.index e i) v →
        ReflTransGen (Points D.platform.runtime D.platform.crypto s.kanban)
          (D.platform.crypto.sha256 g) (D.platform.crypto.sha256 v) := by
  -- down the chain of global indexes, of which the first is an index
  induction n generalizing g with
  | zero =>
      have hfirst := h.single.first i g hg
      refine ⟨h.grounded_index hterm (hc 2 (by decide) (by decide)) (hc 1 (by decide) (by decide))
        le_rfl h1 hi hfirst, fun e v h2 he hv => ?_⟩
      obtain rfl : e = 2 := by omega
      rw [h.single.agrees (.index 2 i) rfl g v hfirst hv]
  | succ n ih =>
      have hle : ∀ e : Int, e ≤ n + 2 → e ≤ (n + 1 : Nat) + 2 := fun e he => by omega
      obtain ⟨g', v', hlists, hg', hv'⟩ :=
        h.lists_global (hc _ (by omega) le_rfl) (by omega) h1 hi hg
      rw [show ((n + 1 : Nat) : Int) + 2 - 1 = n + 2 by omega] at hg'
      obtain ⟨hground, hreach⟩ := ih (fun e h1 he => hc e h1 (hle e he)) hg'
      have hground' := h.grounded_index hterm (hc _ (by omega) le_rfl)
        (hc _ (by omega) (by omega)) (by omega) h1 hi hv'
      refine ⟨hlists.grounded ?_, fun e v h2 he hv => ?_⟩
      · rw [List.forall_mem_cons, List.forall_mem_singleton]
        exact ⟨hground, hground'⟩
      · by_cases hlast : e = (n + 1 : Nat) + 2
        · subst hlast
          rw [h.single.agrees (.index _ i) rfl v v' hv hv']
          exact .single (hlists.points (by simp))
        · exact .head (hlists.points (by simp)) (hreach e v h2 (by omega) hv)

omit hterm in
/-- What the auditor expects are the blocks of the batches in the audited epochs. -/
theorem exists_batch_of_listed {E : Int} {x : Bytes}
    (hx : Listed D.platform.runtime D.platform.crypto D.sort s.kanban E x) :
    ∃ e i v xs, 1 ≤ e ∧ e ≤ E - 2 ∧ 1 ≤ i ∧ i ≤ itemsPoolMax ∧ s.kanban.Stored (.items e i) v ∧
      Lists D.platform s.kanban v xs ∧ (∀ y ∈ xs, ∃ n, src.Answers n y) ∧
      x ∈ xs.map D.platform.crypto.sha256 := by
  obtain ⟨e, k, w, ins, ⟨h1, hE⟩, -, hk, hw, hfunc, hins, hmem⟩ := hx
  obtain ⟨t, out, hm, rfl, hst, hkey, hrec⟩ :=
    h.traced.members e k (Kanban.mem_smembers.1 hk)
  rw [hm.witnessKey_eq fun t xs hF => hF.2.2.2, Option.some.injEq] at hkey
  subst hkey
  obtain ⟨xs, hF, hs, hlists⟩ := h.recorded.lists hm hrec
  obtain rfl : ins = (t.listed xs.values).map D.platform.crypto.sha256 := by
    obtain ⟨w', hw', hins'⟩ := hlists
    rw [Option.some.inj (hw'.1.symm.trans hw.1), hins] at hins'
    exact Option.some.inj hins'
  -- the record is a crawler's, so it lists as many inputs as a crawler has
  have hlen : (t.listed xs.values).length = 64 := by
    obtain ⟨t', out', hm', rfl, -, -, hrole⟩ := h.recorded.filed _ w (mem_of_lookup hw.1)
    obtain ⟨xs', -, hs', -, hins'⟩ := hm'.readIn_witness
    have heq := congrArg List.length (Option.some.inj (hins.symm.trans hins'))
    rw [List.length_map, List.length_map] at heq
    have hcrawl := hrole hfunc
    cases t' with
    | crawl e' b' i' => exact heq.trans (List.Forall₂.length_eq hs').symm
    | _ => cases hcrawl
  cases t with
  | crawl e b i =>
      refine ⟨e, i, out.data, xs.values, h1, hE, hF.1.1, hF.1.2, hst, hlists, fun y hy => ?_, hmem⟩
      obtain ⟨n, -, hn⟩ := exists_of_forall₂ (List.Forall₂.flip hs) hy
      exact ⟨n, hn⟩
  | index e i pos =>
      have h4 : 4 = xs.values.length := List.Forall₂.length_eq hs
      rw [Task.listed, List.length_map, ← h4] at hlen
      omega
  | reduce e i =>
      have h2 : 2 = xs.values.length := List.Forall₂.length_eq hs
      exact absurd (h2.trans hlen) (by decide)

/-- They are all reached from the global indexes. -/
theorem reached_of_listed {E : Int} (h3 : 3 ≤ E)
    (hc : ∀ e, 1 ≤ e → e < E → s.kanban.Closed e) {g : Nat → Bytes}
    (hg : ∀ i, 1 ≤ i → i ≤ indexPoolMax → s.kanban.Stored (.globalIndex (E - 1) i) (g i))
    {x : Bytes} (hx : Listed D.platform.runtime D.platform.crypto D.sort s.kanban E x) :
    Terminal D.platform.runtime D.platform.crypto s.kanban x ∧ ∃ i, 1 ≤ i ∧ i ≤ indexPoolMax ∧
      ReflTransGen (Points D.platform.runtime D.platform.crypto s.kanban)
        (D.platform.crypto.sha256 (g i)) x := by
  obtain ⟨e, j, v, xs, h1, hE, hj1, hj, hv, hlists, hxs, hmem⟩ := h.exists_batch_of_listed hx
  obtain ⟨y, hy, rfl⟩ := List.mem_map.1 hmem
  obtain ⟨n, hn⟩ := hxs y hy
  obtain ⟨i, ⟨⟨hi1, hi⟩, hwin⟩, -⟩ := existsUnique_window hj1 hj
  -- the batch is in an index of the epoch after it
  obtain ⟨t, out, -, -, hst, -⟩ := h.exists_made (hc (e + 1) (by omega) (by omega))
    (Task.InRange.key_mem_shards (t := .index (e + 1) i 0) ⟨by omega, hi1, hi⟩)
  obtain ⟨ys, hindex, hys⟩ :=
    h.lists_index (hc (e + 1) (by omega) (by omega)) (by omega) hi1 hi hst
  obtain ⟨v', hv', hst'⟩ := exists_of_forall₂ hys (List.mem_map_of_mem hwin)
  rw [show e + 1 - 1 = e by omega] at hst'
  obtain rfl := h.single.agrees (.items e j) rfl v v' hv hst'
  -- and this one in the global index
  obtain ⟨m, hm⟩ : ∃ m : Nat, E - 1 = m + 2 := ⟨(E - 3).toNat, by omega⟩
  have hglobal := hg i hi1 hi
  rw [hm] at hglobal
  obtain ⟨-, hreach⟩ := h.global_spec hterm hi1 hi m (fun e h1 he => hc e h1 (by omega)) hglobal
  refine ⟨hterm n y hn, i, hi1, hi, ?_⟩
  have hdown := hreach (e + 1) out.data (by omega) (by omega) hst
  exact (hdown.tail (hindex.points hv')).tail (hlists.points hy)

end

end Settled

end DeSearch
