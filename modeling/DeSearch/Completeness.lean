import DeSearch.Chain
import DeSearch.Records

/-!
# Audit completeness

The hash `witness` keeps one record for an output, the last one. As long as no record is replaced by
one that lists other inputs, every block that the auditor expects is retrieved (`audit_complete`).
Two indexes of the same documents in other batches have the same bytes, and then the batches of the
first are lost (`replaced_record_fails`).
-/

namespace DeSearch

open Run Relation JSON

/-- **Audit completeness.** One executor of each role, none of which crashes, with calls that
return what fits its buffers, a hash without collisions on the shards and the blocks, and no block
that is also a shard. In every run in which no record is replaced by one with other inputs, from
the third epoch on, the audit of the hashes of the last global indexes passes. -/
theorem audit_complete (D : Deployment) (one : Role → Nat) (src : Source) (as : List Action)
    (h : Meets D.step (fun s a => Undisturbed D one src s a ∧ RecordsKept D.platform s a) .init as)
    (hcoll : Set.InjOn D.platform.crypto.sha256
      {x | Hashed src (exec D.step .init as).kanban x})
    (hblocks : ∀ n x k, src.Answers n x → k.isData →
      ¬(exec D.step .init as).kanban.Stored k x)
    (E : Int) (h3 : 3 ≤ E)
    (hE : getEpochInt D.platform.runtime D.platform.crypto (exec D.step .init as).kanban = some E)
    (g : Nat → Bytes) (hg : ∀ i, 1 ≤ i → i ≤ indexPoolMax →
      (exec D.step .init as).kanban.get (.globalIndex (E - 1) i) = some (g i)) :
    ∃ fuel, slowPath D.platform.runtime D.platform.crypto D.sort (exec D.step .init as).kanban fuel
      E ((List.range' 1 indexPoolMax).map fun i => D.platform.crypto.sha256 (g i)) = some true := by
  have hs := settled_of_meets h
  generalize exec D.step .init as = s at *
  have hterm := fun n x (hx : src.Answers n x) => hs.terminal_block hcoll hblocks hx
  have hmem : ∀ i, i ∈ List.range' 1 indexPoolMax ↔ 1 ≤ i ∧ i ≤ indexPoolMax := fun i => by
    rw [List.mem_range'_1]
    omega
  have hclosed : ∀ e, 1 ≤ e → e < E → s.kanban.Closed e := by
    rcases hs.ledger.epoch with hnone | ⟨E', hE'⟩
    · rw [getEpochInt_none hnone] at hE
      cases hE
      exact absurd h3 (by decide)
    · obtain rfl := Option.some.inj (hE'.getEpochInt.symm.trans hE)
      exact hs.closed E' hE'
  have hglobal := fun i h1 hi => Kanban.mem_of_get (hg i h1 hi)
  have hroots : ∀ e, 1 ≤ e → e ≤ E - 2 →
      ∃ well, checkRootHash D.platform.crypto D.sort s.kanban e = some well := by
    intro e h1 he
    obtain ⟨v, hv⟩ := hclosed e h1 (by omega)
    obtain ⟨v', hget, -⟩ := Kanban.exists_get_of_mem hv
    exact ⟨_, by rw [checkRootHash, hget, Option.map_some]⟩
  obtain ⟨m, hm⟩ : ∃ m : Nat, E - 1 = m + 2 := ⟨(E - 3).toNat, by omega⟩
  obtain ⟨fuel, leaves, hleaves⟩ := exists_retrievedSet (C := D.platform.crypto)
    hs.traced.genuine (List.forall_mem_map.2 fun i hi => by
      obtain ⟨h1, hi⟩ := (hmem i).1 hi
      exact (hs.global_spec hterm h1 hi m (fun e h1 he => hclosed e h1 (by omega))
        (hm ▸ hglobal i h1 hi)).1)
  obtain ⟨items, hitems⟩ := exists_expectedSet hs.traced.genuine hroots
  refine ⟨fuel, slowPath_eq_true.2 ⟨leaves, items, hleaves, hitems, fun x hx => ?_⟩⟩
  obtain ⟨hx, i, h1, hi, hreach⟩ :=
    hs.reached_of_listed hterm h3 hclosed hglobal ((mem_expectedSet hitems x).1 hx)
  exact (mem_retrievedSet hleaves x).2 ⟨hx, _, List.mem_map_of_mem ((hmem i).2 ⟨h1, hi⟩), hreach⟩

/-! ## Runs in which no witness key is used twice -/

theorem traced_of_undisturbed {D : Deployment} {one : Role → Nat} {src : Source}
    {as : List Action} (h : Meets D.step (Undisturbed D one src) .init as) :
    Traced D.platform src (Task.Regulated D.platform) (exec D.step .init as) :=
  (h.invariant (I := fun s => Single D one s ∧
    Traced D.platform src (Task.Regulated D.platform) s) ⟨.init, traced_init⟩
    fun _ _ ha hs => hs.1.step hs.2 ha).2

theorem Executor.Step.hsets_suffix {P : Platform} {role : Role} {answers : Inputs}
    {kb kb' : Kanban} {x x' : Executor} (h : Step P role answers kb x x' kb') :
    kb.hsets <:+ kb'.hsets := by
  cases h with
  | hset => exact List.suffix_cons _ _
  | _ => exact List.suffix_rfl

theorem Deployment.hsets_suffix (D : Deployment) (s : State) (a : Action) :
    s.kanban.hsets <:+ (D.step a s).kanban.hsets := by
  cases a with
  | manager =>
      rw [show (D.step .manager s).kanban.hsets = s.kanban.hsets from
        (Manager.ledgerOnly_step (P := D.platform) (L := D.sort) s.manager).hsets]
  | exec p answers =>
      exact (Executor.step_spec D.platform (D.role p) answers s.kanban (s.procs p)).hsets_suffix
  | crash p => exact List.suffix_rfl

theorem Deployment.hsets_step_hset {D : Deployment} {s : State} {p : Nat} {answers : Inputs}
    {t : Task} {out : Output} {k : Bytes} (hx : s.procs p = .hset t out)
    (hk : witnessKey D.platform.runtime out.witness = some k) :
    (D.step (.exec p answers) s).kanban.hsets = (k, out.witness) :: s.kanban.hsets := by
  change ((s.procs p).step D.platform (D.role p) answers s.kanban).2.hsets = _
  rw [hx, Executor.step, hk]
  rfl

/-- If no witness key was used twice, the records were kept all along. -/
theorem recordsKept_of_nodup {D : Deployment} {one : Role → Nat} {src : Source}
    {as : List Action} (h : Meets D.step (Undisturbed D one src) .init as)
    (hnodup : ((exec D.step .init as).kanban.hsets.map Prod.fst).Nodup)
    (hfunc : ∀ (t : Task) ins output k,
      (k, createWitness D.platform.crypto t.tag t.func ins output) ∈
        (exec D.step .init as).kanban.hsets →
      crawlerFunc D.platform.crypto <:+: createWitness D.platform.crypto t.tag t.func ins output →
      t.role = .crawler) :
    Meets D.step (fun s a => Undisturbed D one src s a ∧ RecordsKept D.platform s a) .init as := by
  induction as using List.reverseRecOn with
  | nil => trivial
  | append_singleton as a ih =>
      obtain ⟨hmeets, ha, -⟩ := meets_append.1 h
      have hstep : exec D.step .init (as ++ [a]) = D.step a (exec D.step .init as) := exec_append
      rw [hstep] at hnodup hfunc
      have hsuffix := D.hsets_suffix (exec D.step .init as) a
      have hbefore := ih hmeets (hnodup.sublist (hsuffix.sublist.map _))
        fun t ins output k hk => hfunc t ins output k (hsuffix.subset hk)
      refine meets_append.2 ⟨hbefore, ⟨ha, ?_⟩, trivial⟩
      have htraced := traced_of_undisturbed hmeets
      generalize exec D.step .init as = s at *
      cases a with
      | exec p answers =>
          intro t out k hx hk
          rw [D.hsets_step_hset hx hk] at hnodup hfunc
          have hmade := htraced.procs p
          rw [hx] at hmade
          obtain ⟨xs, -, hs, hcall⟩ := hmade.1
          obtain ⟨output, -, hwitness, -⟩ := hs.call_eq_some hcall
          refine ⟨fun w hw => absurd (mem_of_lookup hw) fun hmem => ?_, fun hinfix => ?_⟩
          · exact (List.nodup_cons.1 hnodup).1 (List.mem_map.2 ⟨_, hmem, rfl⟩)
          · rw [hwitness] at hinfix hfunc
            exact hfunc t _ output k List.mem_cons_self hinfix
      | _ => trivial

/-! ## A hash that shows the crawlers' `func` -/

/-- The decimal digits of a number, the last one first. -/
def digitBytes (k n : Nat) : Bytes := (List.range k).map fun i => Fin.ofNat 256 (n / 10 ^ i % 10)

/-- What the crawlers' `func` is the hash of. -/
def crawlerTag : Bytes := ascii "cralwer" ++ [0]

/-- A hash that numbers the messages of a list in decimal digits. The crawlers' `func` has none. -/
def markedCrypto (msgs : List Bytes) : Crypto where
  sha256 m := sigToString
    (if m = crawlerTag then List.replicate 32 255 else digitBytes 32 (msgs.idxOf m))
  sign m := digitBytes 64 (fingerprint m)
  verify m sig := sig = digitBytes 64 (fingerprint m)
  sha256_hex _ _ hc := isHex_of_mem_sigToString hc
  sha256_length m := by
    rw [length_sigToString]
    split_ifs <;> simp [digitBytes]
  sign_length m := by simp [digitBytes]
  verify_sign m := by simp

theorem isDigit_of_mem_digitBytes {k n : Nat} {c : Byte} (h : c ∈ sigToString (digitBytes k n)) :
    isDigit c := by
  have hdigit : ∀ d < 10, isDigit (hexDigit (d / 16)) ∧ isDigit (hexDigit (d % 16)) := by decide
  obtain ⟨b, hb, hc⟩ := List.mem_flatMap.1 h
  obtain ⟨i, -, rfl⟩ := List.mem_map.1 hb
  have hval : (Fin.ofNat 256 (n / 10 ^ i % 10)).val = n / 10 ^ i % 10 :=
    Nat.mod_eq_of_lt (by omega)
  rw [hval] at hc
  obtain ⟨hhigh, hlow⟩ := hdigit (n / 10 ^ i % 10) (Nat.mod_lt _ (by decide))
  rcases List.mem_cons.1 hc with rfl | hc
  · exact hhigh
  · rw [List.mem_singleton.1 hc]
    exact hlow

theorem digitBytes_inj {a b : Nat} (ha : a < 1000) (hb : b < 1000)
    (h : digitBytes 32 a = digitBytes 32 b) : a = b := by
  have hdigit : ∀ i < 32, a / 10 ^ i % 10 = b / 10 ^ i % 10 := by
    intro i hi
    have hget := congrArg (·[i]?) h
    simp only [digitBytes, List.getElem?_map, List.getElem?_range hi, Option.map_some,
      Option.some.injEq, Fin.ext_iff, Fin.val_ofNat] at hget
    omega
  have h0 := hdigit 0 (by decide)
  have h1 := hdigit 1 (by decide)
  have h2 := hdigit 2 (by decide)
  omega

theorem markedCrypto_injOn {msgs : List Bytes} (hlen : msgs.length < 999)
    (hmark : crawlerTag ∉ msgs) : Set.InjOn (markedCrypto msgs).sha256 {m | m ∈ msgs} := by
  intro m hm m' hm' h
  have hne : ∀ {x}, x ∈ msgs → x ≠ crawlerTag := fun hx heq => hmark (heq ▸ hx)
  have hidx := sigToString_injective h
  rw [if_neg (hne hm), if_neg (hne hm')] at hidx
  have hle : ∀ x, msgs.idxOf x ≤ msgs.length := fun x => List.idxOf_le_length
  have := digitBytes_inj (by have := hle m; omega) (by have := hle m'; omega) hidx
  exact (List.idxOf_inj hm).1 this

/-- The letter that marks the crawlers' `func`. -/
theorem mark_mem_of_crawlerFunc {msgs : List Bytes} {w : Bytes}
    (h : crawlerFunc (markedCrypto msgs) <:+: w) : ch 'f' ∈ w := by
  refine h.subset ?_
  have hfunc : crawlerFunc (markedCrypto msgs) = sigToString (List.replicate 32 255) :=
    congrArg sigToString (if_pos rfl)
  rw [hfunc]
  decide

theorem mark_not_mem_sha256 {msgs : List Bytes} {m : Bytes} (h : m ≠ crawlerTag) :
    ch 'f' ∉ (markedCrypto msgs).sha256 m := by
  intro hmem
  change _ ∈ sigToString _ at hmem
  rw [if_neg h] at hmem
  exact absurd (isDigit_of_mem_digitBytes hmem) (by decide)

theorem mem_dumpElems_strings {c : Byte} {l : List Bytes} {d : Nat}
    (h : c ∈ dumpElems d (l.map string)) : c ∈ ascii "\", " ∨ ∃ s ∈ l, c ∈ escape s := by
  induction l with
  | nil => exact absurd h List.not_mem_nil
  | cons s l ih =>
      have hstr : c ∈ (string s).dump (d + 1) → c ∈ ascii "\", " ∨ c ∈ escape s := by
        intro hc
        rw [dump, List.cons_append, List.mem_cons, List.mem_append, List.mem_singleton] at hc
        rcases hc with rfl | hc | rfl
        · exact .inl (by decide)
        · exact .inr hc
        · exact .inl (by decide)
      have hhead : c ∈ (string s).dump (d + 1) →
          c ∈ ascii "\", " ∨ ∃ s' ∈ s :: l, c ∈ escape s' := fun hc =>
        (hstr hc).imp_right fun hs => ⟨s, List.mem_cons_self, hs⟩
      cases l with
      | nil => exact hhead h
      | cons s' l =>
          rw [List.map_cons, List.map_cons, dumpElems_cons, List.mem_append, List.mem_cons,
            List.mem_cons] at h
          rcases h with h | rfl | rfl | h
          · exact hhead h
          · exact .inl (by decide)
          · exact .inl (by decide)
          · rcases ih h with hlit | ⟨x, hx, hc⟩
            · exact .inl hlit
            · exact .inr ⟨x, List.mem_cons_of_mem s hx, hc⟩

/-- No witness of an indexer shows the crawlers' `func`. -/
theorem mark_not_mem_createIndexerWitness {msgs inputs : List Bytes} {output : Bytes}
    (hins : ∀ x ∈ inputs, x ≠ crawlerTag) (hout : output ≠ crawlerTag) :
    ch 'f' ∉ createWitness (markedCrypto msgs) (ascii "STEEMIT INDEXER") (ascii "indexer") inputs
      output := by
  have hsha : ∀ m, m ≠ crawlerTag → ch 'f' ∉ escape ((markedCrypto msgs).sha256 m) := by
    intro m hm
    rw [escape_of_hex ((markedCrypto msgs).sha256_hex m)]
    exact mark_not_mem_sha256 hm
  have hsig : ∀ m, ch 'f' ∉ escape (sigToString ((markedCrypto msgs).sign m)) := by
    intro m hmem
    rw [escape_of_hex fun c hc => isHex_of_mem_sigToString hc] at hmem
    exact absurd (isDigit_of_mem_digitBytes hmem) (by decide)
  have helems : ch 'f' ∉ dumpElems 2 ((inputs.map (markedCrypto msgs).sha256).map string) := by
    intro hmem
    rcases mem_dumpElems_strings hmem with hlit | ⟨s, hs, hc⟩
    · exact absurd hlit (by decide)
    · obtain ⟨x, hx, rfl⟩ := List.mem_map.1 hs
      exact hsha x (hins x hx) hc
  have hfunc := hsha (ascii "indexer" ++ [0]) (by decide)
  rw [createWitness_eq, witnessText_eq, witnessOf_eq, signedJson]
  simp only [dump, dumpMembers, List.mem_append, List.mem_cons, List.cons_append, not_or, hfunc,
    helems, hsha output hout, hsig]
  -- what is left is about the names and the punctuation
  repeat' apply And.intro
  all_goals decide

/-! ## Two windows with equally many posts -/

/-- How many posts the first block of each shard has besides one. The first four have as many
together as the first four of the second epoch. -/
def twinExtras : List Nat :=
  [1, 4, 7, 10] ++ List.range' 11 12 ++ ([2, 5, 6, 9] ++ 3 :: 23 :: List.range' 25 10)

/-- One post in each block, and these in the first block of each shard. -/
def twinCount (n : Int) : Nat :=
  if (n - startSteemBlockId - 1) % 64 = 0 then
    1 + twinExtras.getD ((n - startSteemBlockId - 1) / 64).toNat 0
  else 1

theorem twinCount_le (n : Int) : 1 ≤ twinCount n ∧ twinCount n ≤ 35 := by
  have hextra : ∀ i, twinExtras.getD i 0 ≤ 34 := by
    intro i
    rw [List.getD_eq_getElem?_getD]
    cases hi : twinExtras[i]? with
    | none => exact Nat.zero_le _
    | some x =>
        have hall : ∀ x ∈ twinExtras, x ≤ 34 := by decide
        exact hall x (List.mem_of_getElem? hi)
  unfold twinCount
  split_ifs
  · have := hextra ((n - startSteemBlockId - 1) / 64).toNat
    omega
  · omega

/-- A chain with so many posts of one word. -/
def twinChain : Chain where
  body := ascii "alpha"
  count := twinCount
  unescaped := unescaped_alpha
  count_pos n := (twinCount_le n).1
  count_le n := by
    have := (twinCount_le n).2
    change 11 * twinCount n ≤ 1000
    omega

/-- Its blocks and what is made of them. -/
def twinMessages : List Bytes :=
  (List.range' 1 35).map twinChain.block ++
    ((List.range' 65 34).map twinChain.batch ++ [278, 306, 322, 338].map twinChain.blob)

/-- A hash without collisions on them. -/
def twinCrypto : Crypto := markedCrypto twinMessages

theorem chainBlock_mem_twinMessages {m : Nat} (h1 : 1 ≤ m) (hm : m ≤ 35) :
    twinChain.block m ∈ twinMessages :=
  List.mem_append_left _ (List.mem_map_of_mem (List.mem_range'_1.2 ⟨h1, by omega⟩))

/-- The sizes of the batches. -/
theorem twinSums : (List.range' 1 itemsPoolMax).map
      (fun j => (twinChain.counts startSteemBlockId j).sum) ++
    (List.range' 1 itemsPoolMax).map (fun j => (twinChain.counts secondBlockId j).sum) =
      twinExtras.map (64 + ·) := by decide +kernel

/-- The sizes of the indexes. -/
theorem twinTotals : (List.range' 1 indexPoolMax).map twinChain.total = [278, 306, 322, 338] := by
  decide +kernel

theorem spare_twinChain : twinChain.Spare := by
  unfold Chain.Spare
  decide +kernel

theorem chainShards_twinChain : twinChain.shards =
    (twinExtras.map (64 + ·)).map twinChain.batch ++
      [278, 306, 322, 338].map twinChain.blob := by
  have hbatches : twinChain.batches startSteemBlockId ++ twinChain.batches secondBlockId =
      (twinExtras.map (64 + ·)).map twinChain.batch := by
    rw [← twinSums, List.map_append, List.map_map, List.map_map]
    rfl
  have hblobs : twinChain.blobs = [278, 306, 322, 338].map twinChain.blob := by
    rw [← twinTotals, List.map_map]
    rfl
  rw [Chain.shards, ← List.append_assoc, hbatches, hblobs]

theorem chainShards_subset_twinMessages : twinChain.shards ⊆ twinMessages := by
  have hextra : ∀ n ∈ twinExtras.map (64 + ·), n ∈ List.range' 65 34 := by decide
  rw [chainShards_twinChain]
  intro x hx
  refine List.mem_append_right _ ?_
  rcases List.mem_append.1 hx with hx | hx
  · obtain ⟨n, hn, rfl⟩ := List.mem_map.1 hx
    exact List.mem_append_left _ (List.mem_map_of_mem (hextra n hn))
  · exact List.mem_append_right _ hx

/-- What a shard starts with. -/
theorem headD_of_mem_chainShards {c : Chain} {x : Bytes} (h : x ∈ c.shards) :
    x.headD 0 = ch '[' ∨ (x.headD 0).val % 4 = 0 := by
  have hbatch : ∀ b, x ∈ c.batches b → x.headD 0 = ch '[' := by
    intro b hb
    obtain ⟨j, -, rfl⟩ := List.mem_map.1 hb
    exact headD_chainBatch _
  rcases List.mem_append.1 h with h | h
  · exact .inl (hbatch _ h)
  · rcases List.mem_append.1 h with h | h
    · exact .inl (hbatch _ h)
    · obtain ⟨i, -, rfl⟩ := List.mem_map.1 h
      exact .inr (headD_chainBlob _)

theorem crawlerTag_not_mem_twinMessages : crawlerTag ∉ twinMessages := by
  intro h
  rcases List.mem_append.1 h with h | h
  · obtain ⟨m, -, heq⟩ := List.mem_map.1 h
    exact absurd (headD_chainBlock (c := twinChain) m) (by rw [heq]; decide)
  · rcases List.mem_append.1 h with h | h
    · obtain ⟨m, -, heq⟩ := List.mem_map.1 h
      exact absurd (headD_chainBatch (c := twinChain) m) (by rw [heq]; decide)
    · obtain ⟨m, -, heq⟩ := List.mem_map.1 h
      exact absurd (headD_chainBlob (c := twinChain) m) (by rw [heq]; decide)

theorem twinCrypto_injOn : Set.InjOn twinCrypto.sha256 {m | m ∈ twinMessages} :=
  markedCrypto_injOn (by simp [twinMessages]) crawlerTag_not_mem_twinMessages

theorem nodup_twinShards : twinChain.shards.Nodup := by
  rw [chainShards_twinChain]
  refine List.Nodup.append (List.Nodup.map_on (fun n hn m hm => ?_) (by decide))
    (List.Nodup.map_on (fun n hn m hm => ?_) (by decide)) fun x hx hx' => ?_
  · have hpos : ∀ n ∈ twinExtras.map (64 + ·), 0 < n := by decide
    exact chainBatch_injective (hpos n hn) (hpos m hm)
  · have hlt : ∀ n ∈ [278, 306, 322, 338], n + 1 < 2 ^ 32 := by decide
    exact chainBlob_injective (hlt n hn) (hlt m hm)
  · obtain ⟨n, -, rfl⟩ := List.mem_map.1 hx
    obtain ⟨m, -, heq⟩ := List.mem_map.1 hx'
    exact absurd (headD_chainBlob (c := twinChain) m) (by rw [heq, headD_chainBatch]; decide)

theorem nodup_twinKeys : (twinChain.shards.map twinCrypto.sha256).Nodup :=
  nodup_twinShards.map_on fun _ hx _ hy =>
    twinCrypto_injOn (chainShards_subset_twinMessages hx) (chainShards_subset_twinMessages hy)

/-- No block is a shard. -/
theorem chainBlock_not_mem_chainShards {c : Chain} (m : Nat) : c.block m ∉ c.shards := by
  intro h
  have hhead := headD_of_mem_chainShards h
  rw [headD_chainBlock] at hhead
  exact absurd hhead (by decide)

/-! ## Two epochs of one crawler and one indexer -/

/-- The executors of `chainDeployment` that take steps. -/
def chainOne : Role → Nat
  | .crawler => 0
  | .indexer => 1
  | .reducer => 2

section

variable {C : Crypto} {c : Chain}

theorem succeeds_chainAnswers (e b : Int) (i : Nat) :
    (Task.crawl e b i).Succeeds (chainPlatform C) (.plain (c.answers b i)) :=
  ⟨Option.isSome_iff_exists.2 ⟨_, (chainCrawl_spec b i).1⟩,
    (admits_chainAnswers c b i e).fits_crawl⟩

theorem succeeds_chainItems (hspare : c.Spare) (e : Int) (i pos : Nat) (h1 : 1 ≤ i)
    (hi : i ≤ indexPoolMax) :
    (Task.index e i pos).Succeeds (chainPlatform C) (.plain ((window i).map c.items)) :=
  ⟨Option.isSome_iff_exists.2 ⟨_, chainIndex_call hspare h1 hi e pos⟩, fits_chainItems e i pos⟩

/-- The blocks are downloaded, and the calls meet what these calls do. -/
theorem leads_chainCalls {F : Task → Inputs → Prop} (hspare : c.Spare)
    (hkeys : (c.shards.map C.sha256).Nodup)
    (hcrawl : ∀ e b i, F (.crawl e b i) (.plain (c.answers b i)))
    (hindex : ∀ e i pos, 1 ≤ i → i ≤ indexPoolMax →
      F (.index e i pos) (.plain ((window i).map c.items))) :
    Leads (chainDeployment C).step
      (fun s a => Answered c.source s a ∧ CallsMeet F s a) .init c.actions
      ⟨c.second C, ⟨.openEpoch, nextBlockId secondBlockId⟩, fun _ => .idle⟩ := by
  have hwindow : ∀ i, 1 ≤ i → i ≤ indexPoolMax →
      (i - 1) * indexBulkMax + 1 + 3 ≤ itemsPoolMax := by decide
  refine leads_chainSecond ((lenient_answered _).and (lenient_callsMeet _)) hspare hkeys
    (fun e kb m f => ?_) (fun e b i kb m f => ?_) fun i n kb m h1 hi hn hitems => ?_
  · exact ⟨answered_of_ne_gather (by simp), callsMeet_of_ne_gather (by simp)⟩
  · exact ⟨answered_crawl (s := ⟨kb, m, f⟩) (answers_chainAnswers _ _ _ _),
      callsMeet_crawl (s := ⟨kb, m, f⟩) (hcrawl _ _ _)⟩
  · exact ⟨answered_index (s := ⟨kb, m, fun _ => .idle⟩),
      callsMeet_index (s := ⟨kb, m, fun _ => .idle⟩) (hindex 2 i _ h1 hi)
        (hitems _ (by omega) (hwindow i h1 hi)) hn⟩

theorem solo_of_exec {as : List Action}
    (h : ∀ a ∈ as, a = .manager ∨ ∃ xs, a = .exec 0 xs ∨ a = .exec 1 xs) {s : State} :
    Meets (chainDeployment C).step (fun _ a => Solo (chainDeployment C) chainOne a) s as := by
  refine meets_of_forall fun _ a ha => ?_
  rcases h a ha with rfl | ⟨xs, rfl | rfl⟩
  · trivial
  · rfl
  · rfl

theorem undisturbed_chainActions (hspare : c.Spare) (hkeys : (c.shards.map C.sha256).Nodup) :
    Leads (chainDeployment C).step (Undisturbed (chainDeployment C) chainOne c.source) .init
      c.actions
      ⟨c.second C, ⟨.openEpoch, nextBlockId secondBlockId⟩, fun _ => .idle⟩ := by
  have hcalls := leads_chainCalls (F := Task.Succeeds (chainPlatform C)) hspare hkeys
    succeeds_chainAnswers (succeeds_chainItems hspare)
  exact ⟨(solo_of_exec fun a ha => of_mem_chainActions ha).and hcalls.meets, hcalls.exec_eq⟩

end

theorem tag_eq_of_createWitness_eq {C : Crypto} {tag role tag' role' : Bytes}
    {ins ins' : List Bytes} {out out' : Bytes}
    (h : createWitness C tag role ins out = createWitness C tag' role' ins' out') : tag = tag' := by
  have hload := congrArg (load sampleRuntime) h
  rw [createWitness_eq, createWitness_eq, load_witnessText, load_witnessText, witnessOf_eq,
    witnessOf_eq, Option.some.injEq] at hload
  exact string.inj (congrArg (JSON.get · (ascii "TAG")) hload)

/-- In these two epochs no record is replaced. -/
theorem recordsKept_twin : Meets (chainDeployment twinCrypto).step
    (fun s a => Undisturbed (chainDeployment twinCrypto) chainOne twinChain.source s a ∧
      RecordsKept (chainPlatform twinCrypto) s a) .init twinChain.actions := by
  have hrun := undisturbed_chainActions (C := twinCrypto) spare_twinChain nodup_twinKeys
  refine recordsKept_of_nodup hrun.meets ?_ fun t ins output k hk hfunc => ?_
  · rw [hrun.exec_eq]
    change ((twinChain.second twinCrypto).hsets.map Prod.fst).Nodup
    rw [hsets_chainSecond, List.map_reverse, List.nodup_reverse, map_fst_chainRecords]
    exact nodup_twinKeys
  · rw [hrun.exec_eq] at hk
    change _ ∈ (twinChain.second twinCrypto).hsets at hk
    have hcrawl : ∀ b, (k, createWitness twinCrypto t.tag t.func ins output) ∈
        twinChain.crawlRecords twinCrypto b → t.role = .crawler := by
      intro b hb
      obtain ⟨j, -, heq⟩ := List.mem_map.1 hb
      have htag := (Prod.mk.inj heq).2
      rw [witness_chainCrawl] at htag
      have := tag_eq_of_createWitness_eq htag
      cases t with
      | crawl e b i => rfl
      | index e i pos =>
          exact absurd this (show ascii "STEEMIT CRAWLER" ≠ ascii "STEEMIT INDEXER" by decide)
      | reduce e i =>
          exact absurd this (show ascii "STEEMIT CRAWLER" ≠ ascii "STEEMIT REDUCER" by decide)
    rw [hsets_chainSecond, List.mem_reverse, Chain.records, List.mem_append, List.mem_append] at hk
    rcases hk with hk | hk | hk
    · exact hcrawl _ hk
    · exact hcrawl _ hk
    · obtain ⟨i, hi, heq⟩ := List.mem_map.1 hk
      have hw := (Prod.mk.inj heq).2
      rw [witness_chainIndex] at hw
      refine absurd (mark_mem_of_crawlerFunc hfunc) ?_
      rw [← hw]
      refine mark_not_mem_createIndexerWitness (fun x hx heq => ?_) fun heq => ?_
      · obtain ⟨j, -, rfl⟩ := List.mem_map.1 hx
        rw [Chain.items] at heq
        exact absurd (headD_chainBatch (c := twinChain) _) (by rw [heq]; decide)
      · exact absurd (headD_chainBlob (c := twinChain) _) (by rw [heq]; decide)

theorem hashed_twin {kb : Kanban} (h : ∀ k v, k.isData → kb.Stored k v → v ∈ twinChain.shards)
    {x : Bytes} (hx : Hashed twinChain.source kb x) : x ∈ twinMessages := by
  rcases hx with ⟨k, hk, hst⟩ | ⟨n, rfl⟩
  · exact chainShards_subset_twinMessages (h k x hk hst)
  · exact chainBlock_mem_twinMessages (twinCount_le n).1 (twinCount_le n).2

/-- The audit in epoch 3 of a run of one crawler and one indexer. -/
theorem audit_complete_twin : ∃ (as : List Action) (g : Nat → Bytes),
    getEpochInt sampleRuntime twinCrypto
      (exec (chainDeployment twinCrypto).step .init as).kanban = some 3 ∧
    (∀ i, 1 ≤ i → i ≤ indexPoolMax →
      (exec (chainDeployment twinCrypto).step .init as).kanban.get (.globalIndex 2 i) =
        some (g i)) ∧
    ∃ fuel, slowPath sampleRuntime twinCrypto sampleDeployment.sort
      (exec (chainDeployment twinCrypto).step .init as).kanban fuel 3
      ((List.range' 1 indexPoolMax).map fun i => twinCrypto.sha256 (g i)) = some true := by
  have hrun := undisturbed_chainActions (C := twinCrypto) spare_twinChain nodup_twinKeys
  have hkb : (exec (chainDeployment twinCrypto).step .init twinChain.actions).kanban =
      twinChain.second twinCrypto := by rw [hrun.exec_eq]
  have hstored : ∀ k v, k.isData →
      (exec (chainDeployment twinCrypto).step .init twinChain.actions).kanban.Stored k v →
        v ∈ twinChain.shards := by
    intro k v hk hst
    rw [hkb] at hst
    exact stored_chainSecond hk hst
  have hepoch : getEpochInt sampleRuntime twinCrypto
      (exec (chainDeployment twinCrypto).step .init twinChain.actions).kanban = some 3 := by
    rw [hkb, getEpochInt_chainSecond]
  have hglobal : ∀ i, 1 ≤ i → i ≤ indexPoolMax →
      (exec (chainDeployment twinCrypto).step .init twinChain.actions).kanban.get
        (.globalIndex 2 i) = some (twinChain.blob (twinChain.total i)) := by
    intro i h1 hi
    rw [hkb, get_chainSecond_global h1 hi]
  refine ⟨twinChain.actions, fun i => twinChain.blob (twinChain.total i), hepoch, hglobal, ?_⟩
  refine audit_complete (chainDeployment twinCrypto) chainOne twinChain.source _
    recordsKept_twin (twinCrypto_injOn.mono fun x hx => hashed_twin hstored hx) ?_ 3 le_rfl hepoch _
    hglobal
  rintro n x k rfl hk hst
  exact chainBlock_not_mem_chainShards _ (hstored k _ hk hst)

/-! ## A third epoch -/

section

variable (C : Crypto) (c later : Chain)

/-- The chain from the second epoch on, as far as the first index of the third epoch goes. -/
structure Chain.Later : Prop where
  spare : later.Spare
  items : ∀ j, 1 ≤ j → j ≤ 4 → later.items j = c.batch (c.counts secondBlockId j).sum

/-- The store after the indexer has published the first index of the third epoch. -/
def Chain.third : Kanban :=
  (c.second C).publish (.index 3 1 1) (later.index C 1) (C.sha256 (later.blob (later.total 1)))

end

section

variable {C : Crypto} {c later : Chain} {F : Task → Inputs → Prop}

theorem get_chainThird {k : Key} (h : k ≠ .index 3 1) :
    (c.third C later).get k = (c.second C).get k := by
  rw [Chain.third, Kanban.get_publish]
  exact if_neg h

theorem get_chainThird_absent {k : Key} (hk : k = .index 3 1 ∨ k = .globalIndex 3 1) :
    (c.second C).get k = none := by
  rcases hk with rfl | rfl <;>
    rw [get_chainSecond_of_ne (by simp) (by simp) (by simp),
      get_chainCrawled_of_ne (by simp) (by simp),
      get_chainFirst_of_ne (by simp) (by simp) (by simp)] <;>
    rfl

/-- One crawler and one indexer do the first two epochs, and the indexer begins the third. -/
theorem leads_chainThird (hspare : c.Spare) (hlater : c.Later later)
    (hkeys : (c.shards.map C.sha256).Nodup)
    (hcrawl : ∀ e b i, F (.crawl e b i) (.plain (c.answers b i)))
    (hindex : ∀ e i pos, 1 ≤ i → i ≤ indexPoolMax →
      F (.index e i pos) (.plain ((window i).map c.items)))
    (hthird : F (.index 3 1 1) (.plain ((window 1).map later.items))) :
    ∃ (as : List Action) (x : Executor),
      (∀ a ∈ as, a = .manager ∨ ∃ xs, a = .exec 0 xs ∨ a = .exec 1 xs) ∧
      Leads (chainDeployment C).step
        (fun s a => Answered c.source s a ∧ CallsMeet F s a) .init as
        (State.upd ⟨c.second C, ⟨.openEpoch, nextBlockId secondBlockId⟩, fun _ => .idle⟩ 1 x
          (c.third C later)) := by
  have hok := (lenient_answered c.source).and (lenient_callsMeet F)
  have hrun := leads_chainCalls hspare hkeys hcrawl hindex
  generalize hs : (⟨c.second C, ⟨.openEpoch, nextBlockId secondBlockId⟩,
    fun _ => .idle⟩ : State) = s at *
  have hidle : s.procs 1 = .idle := by rw [← hs]
  have hkb : s.kanban = c.second C := by rw [← hs]
  have hstart := leads_doIndex (D := chainDeployment C) (s := s) (p := 1) hok rfl
    (getEpochInt_chainSecond (C := C) (c := c)) (by decide)
  rw [← hkb, State.upd_eq_self hidle, hkb] at hstart
  have hitems : ∀ j, 1 ≤ j → j ≤ 4 → (c.second C).get (.items (3 - 1) j) =
      some (later.items j) := by
    intro j h1 hj
    rw [hlater.items j h1 hj]
    exact get_chainSecond_items h1 (hj.trans (by decide))
  have hgather := leads_gather (D := chainDeployment C) (s := s) (p := 1) hok
    (i := 1) (by decide) (get_chainThird_absent (.inl rfl)) (hitems 1 (by decide) (by decide))
    (hitems 2 (by decide) (by decide)) (hitems 3 (by decide) (by decide))
    (hitems 4 (by decide) (by decide))
    (spareBehind_window (fun _ h1 hj => hlater.spare.items h1 hj) le_rfl (by decide))
    (chainIndex_spec (c := later) (C := C) 1).1
    fun n hn => ⟨answered_index, callsMeet_index hthird (hitems 4 (by decide) (by decide)) hn⟩
  have hpublish := leads_publish (D := chainDeployment C) (s := s) (p := 1) hok (c.second C)
    (t := .index 3 1 1) (chainIndex_spec (c := later) (C := C) 1).2.2
  refine ⟨_, _, fun a ha => ?_, hrun.append (hstart.append (hgather.append hpublish))⟩
  simp only [List.mem_append, List.mem_singleton, List.mem_replicate] at ha
  rcases ha with ha | rfl | ⟨-, rfl⟩ | ⟨-, rfl⟩
  · exact of_mem_chainActions ha
  all_goals simp

end

/-! ## A replaced record -/

/-- The chain as it is from the second epoch on. -/
def twinLater : Chain :=
  { twinChain with
    count := fun n => twinCount (n + 1024)
    count_pos := fun n => twinChain.count_pos (n + 1024)
    count_le := fun n => twinChain.count_le (n + 1024) }

theorem spare_twinLater : twinLater.Spare := by
  unfold Chain.Spare
  decide +kernel

theorem later_twinLater : twinChain.Later twinLater := by
  refine ⟨spare_twinLater, fun j h1 hj => ?_⟩
  have hcounts : ∀ j ∈ List.range' 1 4,
      twinLater.counts startSteemBlockId j = twinChain.counts secondBlockId j := by
    decide +kernel
  have hbody : twinLater.body = twinChain.body := rfl
  rw [Chain.items, hcounts j (List.mem_range'_1.2 ⟨h1, by omega⟩), chainBatch_congr hbody]

/-- The first index of the third epoch has the bytes of the first one of the second. -/
theorem chainBlob_twinLater :
    twinLater.blob (twinLater.total 1) = twinChain.blob (twinChain.total 1) := by
  have htotal : twinLater.total 1 = twinChain.total 1 := by decide +kernel
  have hbody : twinLater.body = twinChain.body := rfl
  rw [htotal, chainBlob_congr hbody]

/-- The key of both. -/
def twinKey : Bytes := twinCrypto.sha256 (twinChain.blob (twinChain.total 1))

/-- The store after the indexer has published it. -/
def twinThird : Kanban := twinChain.third twinCrypto twinLater

theorem get_twinThird {k : Key} (h : k ≠ .index 3 1) :
    twinThird.get k = (twinChain.second twinCrypto).get k := get_chainThird h

theorem stored_twinThird {k : Key} {v : Bytes} (hk : k.isData) (h : twinThird.Stored k v) :
    v ∈ twinChain.shards := by
  rcases List.mem_cons.1 h with heq | h
  · rw [(Prod.mk.inj heq).2, (chainIndex_spec 1).2.1, chainBlob_twinLater]
    exact List.mem_append_right _ (List.mem_append_right _
      (List.mem_map.2 ⟨1, by decide, rfl⟩))
  · exact stored_chainSecond hk h

theorem leads_twinThird : ∃ (as : List Action) (x : Executor),
    Leads (chainDeployment twinCrypto).step
      (Undisturbed (chainDeployment twinCrypto) chainOne twinChain.source) .init as
      (State.upd ⟨twinChain.second twinCrypto, ⟨.openEpoch, nextBlockId secondBlockId⟩,
        fun _ => .idle⟩ 1 x twinThird) := by
  obtain ⟨as, x, has, hrun⟩ := leads_chainThird (F := Task.Succeeds (chainPlatform twinCrypto))
    spare_twinChain later_twinLater nodup_twinKeys succeeds_chainAnswers
    (succeeds_chainItems spare_twinChain)
    (succeeds_chainItems spare_twinLater 3 1 1 le_rfl (by decide))
  exact ⟨as, x, (solo_of_exec has).and hrun.meets, hrun.exec_eq⟩

theorem hget_chainSecond {C : Crypto} {c : Chain}
    (hkeys : (c.shards.map C.sha256).Nodup) {k w : Bytes} :
    (c.second C).hget k = some w ↔ (k, w) ∈ c.records C := by
  rw [Kanban.hget, hsets_chainSecond, lookup_eq_some_iff, List.mem_reverse]
  intro k v v' hv hv'
  rw [← map_fst_chainRecords] at hkeys
  exact (Prod.mk.inj (List.inj_on_of_nodup_map hkeys (List.mem_reverse.1 hv)
    (List.mem_reverse.1 hv') rfl)).2

theorem hget_twinThird {k : Bytes} : twinThird.hget k =
    if k = twinKey then some (twinLater.index twinCrypto 1).witness
    else (twinChain.second twinCrypto).hget k := by
  rw [twinThird, Chain.third, Kanban.hget_publish, chainBlob_twinLater, twinKey]

theorem lists_of_hget {P : Platform} {kb : Kanban} {v tag role out : Bytes} {xs : List Bytes}
    (h : kb.hget (P.crypto.sha256 v) = some (createWitness P.crypto tag role xs out)) :
    Lists P kb v xs :=
  ⟨_, ⟨h, checkWitness_createWitness _ _ _ _⟩, readIn_createWitness _ _ _ _⟩

theorem Lists.exists_of_points {P : Platform} {kb : Kanban} {v y : Bytes} {xs : List Bytes}
    (h : Lists P kb v xs) (hp : Points P.runtime P.crypto kb (P.crypto.sha256 v) y) :
    ∃ x ∈ xs, P.crypto.sha256 x = y := by
  obtain ⟨w, hw, hins⟩ := h
  obtain ⟨w', ins, hw', hins', hy⟩ := hp
  obtain rfl := Option.some.inj (hw.1.symm.trans hw'.1)
  obtain rfl := Option.some.inj (hins.symm.trans hins')
  exact List.mem_map.1 hy

/-- The batches of the first two epochs. -/
def IsBase (b : Int) : Prop := b = startSteemBlockId ∨ b = secondBlockId

theorem batch_mem_chainShards {c : Chain} {b : Int} {j : Nat} (hb : IsBase b) (h1 : 1 ≤ j)
    (hj : j ≤ itemsPoolMax) : c.batch (c.counts b j).sum ∈ c.shards := by
  have hmem : ∀ b, c.batch (c.counts b j).sum ∈ c.batches b := fun b =>
    List.mem_map.2 ⟨j, List.mem_range'_1.2 ⟨h1, by omega⟩, rfl⟩
  rcases hb with rfl | rfl
  · exact List.mem_append_left _ (hmem _)
  · exact List.mem_append_right _ (List.mem_append_left _ (hmem _))

theorem blob_mem_chainShards {c : Chain} {i : Nat} (h1 : 1 ≤ i) (hi : i ≤ indexPoolMax) :
    c.blob (c.total i) ∈ c.shards :=
  List.mem_append_right _ (List.mem_append_right _
    (List.mem_map.2 ⟨i, List.mem_range'_1.2 ⟨h1, by omega⟩, rfl⟩))

theorem hget_twin_batch {b : Int} {j : Nat} (hb : IsBase b) (h1 : 1 ≤ j) (hj : j ≤ itemsPoolMax) :
    twinThird.hget (twinCrypto.sha256 (twinChain.batch (twinChain.counts b j).sum)) =
      some (twinChain.crawl twinCrypto b j).witness := by
  have hne : twinCrypto.sha256 (twinChain.batch (twinChain.counts b j).sum) ≠ twinKey := by
    intro heq
    have hblob := twinCrypto_injOn
      (chainShards_subset_twinMessages (batch_mem_chainShards hb h1 hj))
      (chainShards_subset_twinMessages (blob_mem_chainShards (c := twinChain) le_rfl
        (by decide : 1 ≤ indexPoolMax))) heq
    refine absurd (headD_chainBlob (c := twinChain) (twinChain.total 1)) ?_
    rw [← hblob, headD_chainBatch]
    decide
  have hmem : ∀ b, (twinChain.key twinCrypto b j,
      (twinChain.crawl twinCrypto b j).witness) ∈ twinChain.crawlRecords twinCrypto b :=
    fun b => List.mem_map.2 ⟨j, List.mem_range'_1.2 ⟨h1, by omega⟩, rfl⟩
  rw [hget_twinThird, if_neg hne, hget_chainSecond nodup_twinKeys]
  rcases hb with rfl | rfl
  · exact List.mem_append_left _ (hmem _)
  · exact List.mem_append_right _ (List.mem_append_left _ (hmem _))

theorem lists_twin_batch {b : Int} {j : Nat} (hb : IsBase b) (h1 : 1 ≤ j) (hj : j ≤ itemsPoolMax) :
    Lists (chainPlatform twinCrypto) twinThird (twinChain.batch (twinChain.counts b j).sum)
      (twinChain.answers b j) := by
  have hget := hget_twin_batch hb h1 hj
  rw [witness_chainCrawl] at hget
  exact lists_of_hget hget

/-- The first index leads to the batches of the second epoch. -/
theorem lists_twin_first : Lists (chainPlatform twinCrypto) twinThird
    (twinChain.blob (twinChain.total 1)) ((window 1).map twinLater.items) := by
  have hget : twinThird.hget (twinCrypto.sha256 (twinChain.blob (twinChain.total 1))) =
      some (twinLater.index twinCrypto 1).witness := by
    rw [hget_twinThird]
    exact if_pos rfl
  rw [witness_chainIndex] at hget
  exact lists_of_hget hget

theorem lists_twin_blob {i : Nat} (h2 : 2 ≤ i) (hi : i ≤ indexPoolMax) :
    Lists (chainPlatform twinCrypto) twinThird (twinChain.blob (twinChain.total i))
      ((window i).map twinChain.items) := by
  have hne : twinCrypto.sha256 (twinChain.blob (twinChain.total i)) ≠ twinKey := by
    intro heq
    have hblob := twinCrypto_injOn
      (chainShards_subset_twinMessages (blob_mem_chainShards (by omega) hi))
      (chainShards_subset_twinMessages (blob_mem_chainShards (c := twinChain) le_rfl
        (by decide : 1 ≤ indexPoolMax))) heq
    have htotal : ∀ i ∈ List.range' 2 3, twinChain.total i ≠ twinChain.total 1 := by
      decide +kernel
    have h4 : indexPoolMax = 4 := rfl
    exact htotal i (List.mem_range'_1.2 ⟨h2, by omega⟩)
      (chainBlob_injective (chainTotal_lt _ i) (chainTotal_lt _ 1) hblob)
  have hget : twinThird.hget (twinCrypto.sha256 (twinChain.blob (twinChain.total i))) =
      some (twinChain.index twinCrypto i).witness := by
    rw [hget_twinThird, if_neg hne, hget_chainSecond nodup_twinKeys]
    exact List.mem_append_right _ (List.mem_append_right _
      (List.mem_map.2 ⟨i, List.mem_range'_1.2 ⟨by omega, by omega⟩, rfl⟩))
  rw [witness_chainIndex] at hget
  exact lists_of_hget hget

theorem terminal_twin_block {m : Nat} (h1 : 1 ≤ m) (hm : m ≤ 35) :
    Terminal sampleRuntime twinCrypto twinThird (twinCrypto.sha256 (twinChain.block m)) := by
  have hne : ∀ v ∈ twinChain.shards,
      twinCrypto.sha256 (twinChain.block m) ≠ twinCrypto.sha256 v := by
    intro v hv heq
    have := twinCrypto_injOn (chainBlock_mem_twinMessages h1 hm)
      (chainShards_subset_twinMessages hv) heq
    exact chainBlock_not_mem_chainShards _ (this ▸ hv)
  have hkey : twinCrypto.sha256 (twinChain.block m) ≠ twinKey :=
    hne _ (blob_mem_chainShards le_rfl (by decide))
  rintro w ⟨hget, -⟩
  rw [hget_twinThird, if_neg hkey, hget_chainSecond nodup_twinKeys] at hget
  have hmem : twinCrypto.sha256 (twinChain.block m) ∈ (twinChain.records twinCrypto).map Prod.fst :=
    List.mem_map.2 ⟨_, hget, rfl⟩
  rw [map_fst_chainRecords] at hmem
  obtain ⟨v, hv, heq⟩ := List.mem_map.1 hmem
  exact hne v hv heq.symm

/-- What the audit of the global indexes can come to: all but the batches that were in the first
index. -/
def TwinReached (h : Bytes) : Prop :=
  (∃ i, 1 ≤ i ∧ i ≤ indexPoolMax ∧ h = twinCrypto.sha256 (twinChain.blob (twinChain.total i))) ∨
  (∃ b j, (b = secondBlockId ∧ 1 ≤ j ∧ j ≤ 4 ∨ b = startSteemBlockId ∧ 5 ≤ j ∧ j ≤ 16) ∧
    h = twinCrypto.sha256 (twinChain.batch (twinChain.counts b j).sum)) ∨
  ∃ m, 1 ≤ m ∧ m ≤ 35 ∧ m ≠ 2 ∧ h = twinCrypto.sha256 (twinChain.block m)

theorem TwinReached.points {h h' : Bytes} (hr : TwinReached h)
    (hp : Points sampleRuntime twinCrypto twinThird h h') : TwinReached h' := by
  have h4 : indexPoolMax = 4 := rfl
  have h16 : itemsPoolMax = 16 := rfl
  have hb : indexBulkMax = 4 := rfl
  rcases hr with ⟨i, h1, hi, rfl⟩ | ⟨b, j, hbj, rfl⟩ | ⟨m, h1, hm, -, rfl⟩
  · by_cases hi1 : i = 1
    · subst hi1
      obtain ⟨x, hx, rfl⟩ := lists_twin_first.exists_of_points hp
      obtain ⟨j, hj, rfl⟩ := List.mem_map.1 hx
      rw [mem_window, hb] at hj
      rw [later_twinLater.items j (by omega) (by omega)]
      exact .inr (.inl ⟨_, j, .inl ⟨rfl, by omega, by omega⟩, rfl⟩)
    · obtain ⟨x, hx, rfl⟩ := (lists_twin_blob (by omega) hi).exists_of_points hp
      obtain ⟨j, hj, rfl⟩ := List.mem_map.1 hx
      rw [mem_window, hb] at hj
      rw [Chain.items]
      exact .inr (.inl ⟨_, j, .inr ⟨rfl, by omega, by omega⟩, rfl⟩)
  · have hcounts : (∀ j ∈ List.range' 1 4, ∀ m ∈ twinChain.counts secondBlockId j, m ≠ 2) ∧
        ∀ j ∈ List.range' 5 12, ∀ m ∈ twinChain.counts startSteemBlockId j, m ≠ 2 := by
      decide +kernel
    have hbase : IsBase b ∧ 1 ≤ j ∧ j ≤ itemsPoolMax ∧
        ∀ m ∈ twinChain.counts b j, m ≠ 2 := by
      rcases hbj with ⟨rfl, h1, hj⟩ | ⟨rfl, h5, hj⟩
      · exact ⟨.inr rfl, h1, by omega, hcounts.1 j (List.mem_range'_1.2 ⟨h1, by omega⟩)⟩
      · exact ⟨.inl rfl, by omega, by omega, hcounts.2 j (List.mem_range'_1.2 ⟨h5, by omega⟩)⟩
    obtain ⟨hb, h1, hj, hne⟩ := hbase
    obtain ⟨x, hx, rfl⟩ := (lists_twin_batch hb h1 hj).exists_of_points hp
    obtain ⟨m, hm, rfl⟩ := List.mem_map.1 hx
    have hmem := hm
    obtain ⟨n, -, rfl⟩ := List.mem_map.1 hm
    exact .inr (.inr ⟨_, (twinCount_le n).1, (twinCount_le n).2, hne _ hmem, rfl⟩)
  · obtain ⟨w, -, hw, -⟩ := hp
    exact absurd hw (terminal_twin_block h1 hm w)

theorem TwinReached.reaches {h h' : Bytes} (hr : TwinReached h)
    (hp : ReflTransGen (Points sampleRuntime twinCrypto twinThird) h h') : TwinReached h' := by
  induction hp with
  | refl => exact hr
  | tail _ hp ih => exact ih.points hp

theorem not_twinReached : ¬TwinReached (twinCrypto.sha256 (twinChain.block 2)) := by
  have hblock := chainBlock_mem_twinMessages (m := 2) (by decide) (by decide)
  have hshard : ∀ v ∈ twinChain.shards,
      twinCrypto.sha256 (twinChain.block 2) ≠ twinCrypto.sha256 v := by
    intro v hv heq
    have := twinCrypto_injOn hblock (chainShards_subset_twinMessages hv) heq
    exact chainBlock_not_mem_chainShards _ (this ▸ hv)
  rintro (⟨i, h1, hi, heq⟩ | ⟨b, j, hbj, heq⟩ | ⟨m, h1, hm, hne, heq⟩)
  · exact hshard _ (blob_mem_chainShards h1 hi) heq
  · refine hshard _ (batch_mem_chainShards ?_ ?_ ?_) heq
    · exact hbj.elim (fun h => .inr h.1) fun h => .inl h.1
    · omega
    · exact (show j ≤ 16 by omega)
  · have := twinCrypto_injOn hblock (chainBlock_mem_twinMessages h1 hm) heq
    exact hne (chainBlock_injective (by decide) h1 this).symm

theorem grounded_twin_batch {b : Int} {j : Nat} (hb : IsBase b) (h1 : 1 ≤ j)
    (hj : j ≤ itemsPoolMax) : Grounded sampleRuntime twinCrypto twinThird
      (twinCrypto.sha256 (twinChain.batch (twinChain.counts b j).sum)) := by
  refine (lists_twin_batch hb h1 hj).grounded fun x hx => ?_
  obtain ⟨m, hm, rfl⟩ := List.mem_map.1 hx
  obtain ⟨n, -, rfl⟩ := List.mem_map.1 hm
  exact .terminal (terminal_twin_block (twinCount_le n).1 (twinCount_le n).2)

theorem grounded_twin_blob {i : Nat} (h1 : 1 ≤ i) (hi : i ≤ indexPoolMax) :
    Grounded sampleRuntime twinCrypto twinThird
      (twinCrypto.sha256 (twinChain.blob (twinChain.total i))) := by
  have h4 : indexPoolMax = 4 := rfl
  have h16 : itemsPoolMax = 16 := rfl
  have hb : indexBulkMax = 4 := rfl
  by_cases hi1 : i = 1
  · subst hi1
    refine lists_twin_first.grounded fun x hx => ?_
    obtain ⟨j, hj, rfl⟩ := List.mem_map.1 hx
    rw [mem_window, hb] at hj
    rw [later_twinLater.items j (by omega) (by omega)]
    exact grounded_twin_batch (.inr rfl) (by omega) (by omega)
  · refine (lists_twin_blob (by omega) hi).grounded fun x hx => ?_
    obtain ⟨j, hj, rfl⟩ := List.mem_map.1 hx
    rw [mem_window, hb] at hj
    rw [Chain.items]
    exact grounded_twin_batch (.inl rfl) (by omega) (by omega)

theorem checkRootHash_twinThird :
    checkRootHash twinCrypto sampleDeployment.sort twinThird 1 = some true := by
  have hroot := (get_twinThird (by simp)).trans
    (get_chainSecond_rootHash (C := twinCrypto) (c := twinChain))
  rw [checkRootHash_eq hroot, Option.some.injEq, decide_eq_true_eq]
  refine rootHashOf_congr _ _ fun k => ?_
  rw [← mem_smembers_chainSecond, twinThird, Chain.third, Kanban.mem_smembers_publish]
  exact ⟨.inl, fun h => h.resolve_right fun h => absurd h.1 (by decide)⟩

/-- The block with two posts is expected. -/
theorem listed_twin : Listed sampleRuntime twinCrypto sampleDeployment.sort twinThird 3
    (twinCrypto.sha256 (twinChain.block 2)) := by
  have hget : twinThird.hget (twinCrypto.sha256
      (twinChain.batch (twinChain.counts startSteemBlockId 1).sum)) =
        some (twinChain.crawl twinCrypto startSteemBlockId 1).witness :=
    hget_twin_batch (.inl rfl) le_rfl (by decide)
  rw [witness_chainCrawl, createCralwerWitness] at hget
  refine ⟨1, _, _, _, by decide, checkRootHash_twinThird, ?_,
    ⟨hget, checkWitness_createWitness _ _ _ _⟩, ?_, readIn_createWitness _ _ _ _, ?_⟩
  · rw [twinThird, Chain.third, Kanban.mem_smembers_publish, mem_smembers_chainSecond,
      Kanban.firstTurn, Kanban.mem_smembers_crawled]
    exact .inl (.inr ⟨rfl, 1, le_rfl, by decide, rfl⟩)
  · have hshow := infix_witnessText (C := twinCrypto) ⟨ascii "STEEMIT CRAWLER", ascii "cralwer",
      twinChain.answers startSteemBlockId 1,
      twinChain.batch (twinChain.counts startSteemBlockId 1).sum, rfl⟩
    rw [← createWitness_eq, witnessOf_eq] at hshow
    exact hshow
  · refine List.mem_map_of_mem (List.mem_map_of_mem ?_)
    decide +kernel

/-- The walk from the indexes does not come to the block with two posts. -/
theorem not_mem_retrieved_twin {fuel : Nat} {leaves : List Bytes}
    (h : retrievedSet sampleRuntime twinCrypto twinThird fuel
      ((List.range' 1 indexPoolMax).map fun i =>
        twinCrypto.sha256 (twinChain.blob (twinChain.total i))) = some leaves) :
    twinCrypto.sha256 (twinChain.block 2) ∉ leaves := by
  intro hmem
  obtain ⟨-, y, hy, hreach⟩ := (mem_retrievedSet h _).1 hmem
  obtain ⟨i, hi, rfl⟩ := List.mem_map.1 hy
  rw [List.mem_range'_1] at hi
  exact not_twinReached (TwinReached.reaches (.inl ⟨i, hi.1, by omega, rfl⟩) hreach)

/-- **A replaced record.** One crawler and one indexer, undisturbed. The first index of epoch 3 has
the bytes of the first one of epoch 2, but is made of other batches. Its record takes the place of
the other, and the audit in epoch 3 does not find the blocks of the first four batches any more. -/
theorem replaced_record_fails : ∃ (as : List Action) (g : Nat → Bytes),
    Meets (chainDeployment twinCrypto).step
      (Undisturbed (chainDeployment twinCrypto) chainOne twinChain.source) .init as ∧
    Set.InjOn twinCrypto.sha256 {x | Hashed twinChain.source
      (exec (chainDeployment twinCrypto).step .init as).kanban x} ∧
    (∀ n x k, twinChain.source.Answers n x → k.isData →
      ¬(exec (chainDeployment twinCrypto).step .init as).kanban.Stored k x) ∧
    getEpochInt sampleRuntime twinCrypto
      (exec (chainDeployment twinCrypto).step .init as).kanban = some 3 ∧
    (∀ i, 1 ≤ i → i ≤ indexPoolMax →
      (exec (chainDeployment twinCrypto).step .init as).kanban.get (.globalIndex 2 i) =
        some (g i)) ∧
    (∃ fuel, slowPath sampleRuntime twinCrypto sampleDeployment.sort
      (exec (chainDeployment twinCrypto).step .init as).kanban fuel 3
      ((List.range' 1 indexPoolMax).map fun i => twinCrypto.sha256 (g i)) = some false) ∧
    ∀ fuel, slowPath sampleRuntime twinCrypto sampleDeployment.sort
      (exec (chainDeployment twinCrypto).step .init as).kanban fuel 3
      ((List.range' 1 indexPoolMax).map fun i => twinCrypto.sha256 (g i)) ≠ some true := by
  obtain ⟨as, x, hrun⟩ := leads_twinThird
  have hkb : (exec (chainDeployment twinCrypto).step .init as).kanban = twinThird := by
    rw [hrun.exec_eq, State.upd_kanban]
  refine ⟨as, fun i => twinChain.blob (twinChain.total i), hrun.meets, ?_⟩
  rw [hkb]
  have hstored := fun k v (hk : Key.isData k = true) => stored_twinThird (v := v) hk
  have hparse : Genuine sampleRuntime twinCrypto twinThird :=
    hkb ▸ (traced_of_undisturbed hrun.meets).genuine
  refine ⟨twinCrypto_injOn.mono fun x hx => hashed_twin hstored hx, ?_, ?_, ?_, ?_, ?_⟩
  · rintro n x k rfl hk hst
    exact chainBlock_not_mem_chainShards _ (hstored k _ hk hst)
  · exact getEpochInt_epochPacket (by decide)
      ((get_twinThird (by simp)).trans get_chainSecond_epoch)
  · exact fun i h1 hi => (get_twinThird (by simp)).trans
      (get_chainSecond_global h1 hi)
  · have hground : ∀ i ∈ List.range' 1 indexPoolMax, Grounded sampleRuntime twinCrypto twinThird
        (twinCrypto.sha256 (twinChain.blob (twinChain.total i))) := by
      intro i hi
      rw [List.mem_range'_1] at hi
      exact grounded_twin_blob hi.1 (by omega)
    obtain ⟨fuel, leaves, hleaves⟩ := exists_retrievedSet hparse (List.forall_mem_map.2 hground)
    obtain ⟨items, hitems⟩ := exists_expectedSet (L := sampleDeployment.sort) (E := 3) hparse
      fun e h1 he => ⟨true, (show e = 1 by omega) ▸ checkRootHash_twinThird⟩
    have hmem := (mem_expectedSet hitems _).2 listed_twin
    refine ⟨fuel, ?_⟩
    rw [slowPath, hleaves, hitems]
    refine congrArg some (List.all_eq_false.2 ⟨_, hmem, ?_⟩)
    simpa using not_mem_retrieved_twin hleaves
  · intro fuel h
    obtain ⟨leaves, items, hleaves, hitems, hall⟩ := slowPath_eq_true.1 h
    exact not_mem_retrieved_twin hleaves (hall _ ((mem_expectedSet hitems _).2 listed_twin))

end DeSearch
