import DeSearch.Provenance

/-!
# The ledger

The epoch, the first block number and the root hashes are written by the manager and by nobody
else. `Manager.Step` says once what a step of the manager can do. From it follow

* `Rounds`: the first block number is a function of how often the manager has set it;
* `Ledger`: where the manager stands tells the epoch, and every root hash is the hash of a set of
  witness keys that was large enough.
-/

namespace DeSearch

/-! ## The manager's part of the log -/

namespace Kanban

variable {kb kb' : Kanban} {k : Key} {v : Bytes}

/-- The writes that are not shards. -/
def ledger (kb : Kanban) : List (Key × Bytes) := kb.sets.filter fun p => !p.1.isData

theorem ledger_set_of_isData (hk : k.isData) : (kb.set k v).ledger = kb.ledger :=
  List.filter_cons_of_neg (by simp [hk])

theorem ledger_set (hk : k.isData = false) : (kb.set k v).ledger = (k, v) :: kb.ledger :=
  List.filter_cons_of_pos (by simp [hk])

theorem get_eq_lookup_ledger (hk : k.isData = false) : kb.get k = kb.ledger.lookup k := by
  obtain ⟨sets, hsets, sadds⟩ := kb
  change sets.lookup k = (sets.filter fun p => !p.1.isData).lookup k
  induction sets with
  | nil => rfl
  | cons p sets ih =>
      obtain ⟨k', v'⟩ := p
      by_cases hk' : k'.isData
      · have hne : k ≠ k' := by
          rintro rfl
          rw [hk] at hk'
          cases hk'
        rw [List.filter_cons_of_neg (by simp [hk']), List.lookup_cons, beq_false_of_ne hne, ih]
      · rw [List.filter_cons_of_pos (by simp [hk']), List.lookup_cons, List.lookup_cons, ih]

theorem get_of_ledger_eq (h : kb'.ledger = kb.ledger) (hk : k.isData = false) :
    kb'.get k = kb.get k := by
  rw [get_eq_lookup_ledger hk, get_eq_lookup_ledger hk, h]

theorem stored_iff_mem_ledger (hk : k.isData = false) : kb.Stored k v ↔ (k, v) ∈ kb.ledger := by
  simp [ledger, Stored, List.mem_filter, hk]

theorem getEpoch_of_ledger_eq (R : Runtime) (C : Crypto) (h : kb'.ledger = kb.ledger) :
    getEpoch R C kb' = getEpoch R C kb := by
  rw [getEpoch, getEpoch, get_of_ledger_eq h rfl]

theorem getEpochInt_of_ledger_eq (R : Runtime) (C : Crypto) (h : kb'.ledger = kb.ledger) :
    getEpochInt R C kb' = getEpochInt R C kb := by
  rw [getEpochInt, getEpochInt, getEpoch_of_ledger_eq R C h]

end Kanban

/-- An executor writes nothing to the ledger. -/
theorem Executor.Step.ledger_eq {P : Platform} {role : Role} {answers : Inputs}
    {kb kb' : Kanban} {x x' : Executor} (h : Step P role answers kb x x' kb') :
    kb'.ledger = kb.ledger := by
  cases h with
  | put => exact Kanban.ledger_set_of_isData (Task.isData_key _)
  | copy => exact Kanban.ledger_set_of_isData rfl
  | _ => rfl

/-! ## What the manager can do -/

namespace Manager

/-- One step of the manager, and the store after it. -/
inductive Step (P : Platform) (L : LastCharSort) (kb : Kanban) : Manager → Manager → Kanban → Prop
  where
  | boot {b} : Step P L kb ⟨.boot, b⟩ ⟨.openEpoch, b⟩ (kb.set .shardingMax (decimal indexPoolMax))
  | openEpoch {b} : Step P L kb ⟨.openEpoch, b⟩
      ⟨.testEpoch, wrapInt (b + itemsBulkMax * itemsPoolMax)⟩ (kb.set .blockId (toDecimal b))
  | testMissing {b} : getEpoch P.runtime P.crypto kb = some (ascii "-1") →
      Step P L kb ⟨.testEpoch, b⟩ ⟨.initEpoch, b⟩ kb
  | testFound {b t} : getEpoch P.runtime P.crypto kb = some t → t ≠ ascii "-1" →
      Step P L kb ⟨.testEpoch, b⟩ ⟨.readEpoch, b⟩ kb
  | initMissing {b} : getEpoch P.runtime P.crypto kb = some (ascii "-1") →
      Step P L kb ⟨.initEpoch, b⟩ ⟨.setFirst, b⟩ kb
  | initFound {b t} : getEpoch P.runtime P.crypto kb = some t → t ≠ ascii "-1" →
      Step P L kb ⟨.initEpoch, b⟩ ⟨.readEpoch, b⟩ kb
  | setFirst {b} : Step P L kb ⟨.setFirst, b⟩ ⟨.readEpoch, b⟩
      (kb.set .epoch (epochPacket P.crypto 1))
  | readEpoch {b e} : getEpochInt P.runtime P.crypto kb = some e →
      Step P L kb ⟨.readEpoch, b⟩ ⟨.readEpochInt e, b⟩ kb
  | readEpochInt {b c e} : getEpochInt P.runtime P.crypto kb = some e →
      Step P L kb ⟨.readEpochInt c, b⟩ ⟨.count c e, b⟩ kb
  | wait {b c e} : ¬expectedKeySize e ≤ (stdSet (kb.smembers c)).length →
      Step P L kb ⟨.count c e, b⟩ ⟨.count c e, b⟩ kb
  | count {b c e} : expectedKeySize e ≤ (stdSet (kb.smembers c)).length →
      Step P L kb ⟨.count c e, b⟩ ⟨.commit c (stdSet (kb.smembers c)), b⟩ kb
  | commit {b c keys} : Step P L kb ⟨.commit c keys, b⟩ ⟨.reread c, b⟩
      (kb.set (.rootHash c) (P.crypto.sha256 (L.sort keys).flatten))
  | reread {b c e} : getEpochInt P.runtime P.crypto kb = some e →
      Step P L kb ⟨.reread c, b⟩ ⟨.increment c (wrapInt (e + 1)), b⟩ kb
  | increment {b c n} : Step P L kb ⟨.increment c n, b⟩ ⟨.openEpoch, b⟩
      (kb.set .epoch (epochPacket P.crypto n))
  | halt {pc b} : Step P L kb ⟨pc, b⟩ ⟨.halted, b⟩ kb

variable {P : Platform} {L : LastCharSort} {kb : Kanban}

theorem testInit_spec (P : Platform) (kb : Kanban) (missing found : ManagerAt) :
    testInit P kb missing found = .halted ∨
      (getEpoch P.runtime P.crypto kb = some (ascii "-1") ∧
        testInit P kb missing found = missing) ∨
      ∃ t, getEpoch P.runtime P.crypto kb = some t ∧ t ≠ ascii "-1" ∧
        testInit P kb missing found = found := by
  unfold testInit
  split
  · exact .inl rfl
  · rename_i t ht
    split_ifs with heq
    · exact .inr (.inl ⟨by rw [ht, heq], rfl⟩)
    · exact .inr (.inr ⟨t, ht, heq, rfl⟩)

theorem readInt_spec (P : Platform) (kb : Kanban) (next : Int → ManagerAt) :
    readInt P kb next = .halted ∨
      ∃ e, getEpochInt P.runtime P.crypto kb = some e ∧ readInt P kb next = next e := by
  unfold readInt
  split
  · exact .inl rfl
  · exact .inr ⟨_, ‹_›, rfl⟩

theorem step_spec (m : Manager) : Step P L kb m (m.step P L kb).1 (m.step P L kb).2 := by
  obtain ⟨pc, b⟩ := m
  cases pc with
  | boot => exact .boot
  | openEpoch => exact .openEpoch
  | testEpoch =>
      rw [Manager.step]
      rcases testInit_spec P kb .initEpoch .readEpoch with
        heq | ⟨h, heq⟩ | ⟨t, h, hne, heq⟩
      · simpa only [heq] using .halt
      · simpa only [heq] using .testMissing h
      · simpa only [heq] using .testFound h hne
  | initEpoch =>
      rw [Manager.step]
      rcases testInit_spec P kb .setFirst .readEpoch with
        heq | ⟨h, heq⟩ | ⟨t, h, hne, heq⟩
      · simpa only [heq] using .halt
      · simpa only [heq] using .initMissing h
      · simpa only [heq] using .initFound h hne
  | setFirst => exact .setFirst
  | readEpoch =>
      rw [Manager.step]
      rcases readInt_spec P kb .readEpochInt with heq | ⟨e, h, heq⟩
      · simpa only [heq] using .halt
      · simpa only [heq] using .readEpoch h
  | readEpochInt c =>
      rw [Manager.step]
      rcases readInt_spec P kb (.count c) with heq | ⟨e, h, heq⟩
      · simpa only [heq] using .halt
      · simpa only [heq] using .readEpochInt h
  | count c e =>
      rw [Manager.step]
      dsimp only
      split_ifs with h
      · exact .count h
      · exact .wait h
  | commit c keys => exact .commit
  | reread c =>
      rw [Manager.step]
      rcases readInt_spec P kb fun e => .increment c (wrapInt (e + 1)) with
        heq | ⟨e, h, heq⟩
      · simpa only [heq] using .halt
      · simpa only [heq] using .reread h
  | increment c n => exact .increment
  | halted => exact .halt

end Manager

theorem Deployment.step_manager (D : Deployment) (s : State) : ∃ m kb,
    s.manager.Step D.platform D.sort s.kanban m kb ∧ D.step .manager s = ⟨kb, m, s.procs⟩ :=
  ⟨_, _, Manager.step_spec s.manager, rfl⟩

/-! ## Block numbers -/

/-- The block number an epoch starts after. -/
def blockBase (e : Int) : Int :=
  wrapInt (startSteemBlockId + (e - 1) * (itemsBulkMax * itemsPoolMax))

theorem isInt_blockBase (e : Int) : IsInt (blockBase e) := isInt_wrapInt _

theorem wrapInt_blockBase_add (e : Int) :
    wrapInt (blockBase e + itemsBulkMax * itemsPoolMax) = blockBase (e + 1) := by
  rw [blockBase, wrapInt_wrapInt_add, blockBase]
  congr 1
  ring

/-- How often the manager has set the first block number. -/
def Kanban.rounds (kb : Kanban) : Nat := kb.ledger.countP fun p => p.1 = .blockId

/-- The block numbers are those of the round the manager is in. -/
structure Rounds (s : State) : Prop where
  next : s.manager.blockId = blockBase (s.kanban.rounds + 1)
  current : s.kanban.get .blockId =
    if s.kanban.rounds = 0 then none else some (toDecimal (blockBase s.kanban.rounds))

namespace Rounds

variable {D : Deployment} {s s' : State}

theorem of_ledger_eq (h : Rounds s) (hl : s'.kanban.ledger = s.kanban.ledger)
    (hm : s'.manager.blockId = s.manager.blockId) : Rounds s' := by
  have hr : s'.kanban.rounds = s.kanban.rounds := by rw [Kanban.rounds, Kanban.rounds, hl]
  exact ⟨by rw [hm, hr, h.next], by rw [Kanban.get_of_ledger_eq hl rfl, hr, h.current]⟩

/-- Only the block number counts. -/
theorem of_set (h : Rounds s) {k : Key} {v : Bytes} (hk : k.isData = false) (hne : .blockId ≠ k)
    (hkb : s'.kanban = s.kanban.set k v) (hm : s'.manager.blockId = s.manager.blockId) :
    Rounds s' := by
  have hr : s'.kanban.rounds = s.kanban.rounds := by
    rw [hkb, Kanban.rounds, Kanban.ledger_set hk]
    exact List.countP_cons_of_neg (by simpa using hne.symm)
  exact ⟨by rw [hm, hr, h.next], by rw [hkb, Kanban.get_set_of_ne _ hne, ← hkb, hr, h.current]⟩

theorem manager (h : Rounds s) : Rounds (D.step .manager s) := by
  obtain ⟨m', kb', hstep, heq⟩ := D.step_manager s
  rw [heq]
  obtain ⟨kb, m, procs⟩ := s
  cases hstep with
  | boot => exact h.of_set rfl (by simp) rfl rfl
  | setFirst | increment => exact h.of_set rfl (by simp) rfl rfl
  | commit => exact h.of_set rfl (by simp) rfl rfl
  | @openEpoch b =>
      have hr : ∀ v, (kb.set .blockId v).rounds = kb.rounds + 1 := by
        intro v
        rw [Kanban.rounds, Kanban.ledger_set rfl]
        exact List.countP_cons_of_pos (by simp)
      obtain rfl : b = blockBase (kb.rounds + 1) := h.next
      refine ⟨?_, ?_⟩
      · simp only [hr, wrapInt_blockBase_add, Nat.cast_add, Nat.cast_one]
      · simp [hr]
  | _ => exact h.of_ledger_eq rfl rfl

theorem step (h : Rounds s) (a : Action) : Rounds (D.step a s) := by
  cases a with
  | manager => exact h.manager
  | exec p answers =>
      exact h.of_ledger_eq (Executor.step_spec _ (D.role p) answers _ (s.procs p)).ledger_eq rfl
  | crash p => exact h.of_ledger_eq rfl rfl

end Rounds

theorem rounds_init : Rounds .init := ⟨by decide, rfl⟩

/-! ## Epochs and root hashes -/

/-- Enough of the witness keys of an epoch to close it. -/
structure Quorum (kb : Kanban) (e : Int) (l : List Bytes) : Prop where
  sub : l ⊆ kb.smembers e
  enough : expectedKeySize e ≤ (stdSet l).length

section

variable (P : Platform) (L : LastCharSort)

/-- The epoch in Kanban. -/
def EpochIs (kb : Kanban) (e : Int) : Prop :=
  IsInt e ∧ kb.get .epoch = some (epochPacket P.crypto e)

/-- What holds where the manager stands. -/
def ManagerAt.Holds (kb : Kanban) : ManagerAt → Prop
  | initEpoch | setFirst => getEpochInt P.runtime P.crypto kb = some (-1)
  | readEpoch => ∃ e, EpochIs P kb e
  | readEpochInt c => EpochIs P kb c
  | count c n => EpochIs P kb c ∧ n = c
  | commit c keys => EpochIs P kb c ∧ ∃ l, Quorum kb c l ∧ keys = stdSet l
  | reread c => EpochIs P kb c ∧ ∃ h, kb.Stored (.rootHash c) h
  | increment c n => EpochIs P kb c ∧ n = wrapInt (c + 1) ∧ ∃ h, kb.Stored (.rootHash c) h
  | boot | openEpoch | testEpoch | halted => True

/-- The epoch is one the manager has set, and every root hash that of a quorum. -/
structure Ledger (s : State) : Prop where
  epoch : s.kanban.get .epoch = none ∨ ∃ e, EpochIs P s.kanban e
  pc : s.manager.pc.Holds P s.kanban
  roots : ∀ e h, s.kanban.Stored (.rootHash e) h →
    ∃ l, Quorum s.kanban e l ∧ h = rootHashOf P.crypto L l

end

section

variable {P : Platform} {L : LastCharSort} {kb kb' : Kanban} {e : Int}

theorem Quorum.mono {l : List Bytes} (h : Quorum kb e l) (hs : kb.sadds ⊆ kb'.sadds) :
    Quorum kb' e l :=
  ⟨fun _ hk => Kanban.mem_smembers.2 (hs (Kanban.mem_smembers.1 (h.sub hk))), h.enough⟩

theorem EpochIs.getEpochInt (h : EpochIs P kb e) :
    getEpochInt P.runtime P.crypto kb = some e :=
  getEpochInt_epochPacket h.1 h.2

theorem EpochIs.of_ledger_eq (h : EpochIs P kb e) (hl : kb'.ledger = kb.ledger) :
    EpochIs P kb' e :=
  ⟨h.1, by rw [Kanban.get_of_ledger_eq hl rfl, h.2]⟩

theorem EpochIs.set (h : EpochIs P kb e) {k : Key} (hk : .epoch ≠ k) (v : Bytes) :
    EpochIs P (kb.set k v) e :=
  ⟨h.1, by rw [Kanban.get_set_of_ne _ hk, h.2]⟩

theorem epochIs_set_epoch (P : Platform) (kb : Kanban) (he : IsInt e) :
    EpochIs P (kb.set .epoch (epochPacket P.crypto e)) e :=
  ⟨he, Kanban.get_set_self _ _ _⟩

theorem ManagerAt.Holds.of_ledger_eq {pc : ManagerAt} (h : pc.Holds P kb)
    (hl : kb'.ledger = kb.ledger) (hs : kb.sadds ⊆ kb'.sadds) : pc.Holds P kb' := by
  have hroot : ∀ c v, kb.Stored (.rootHash c) v → kb'.Stored (.rootHash c) v := fun c v hv => by
    rw [Kanban.stored_iff_mem_ledger rfl, hl]
    exact (Kanban.stored_iff_mem_ledger rfl).1 hv
  cases pc with
  | initEpoch | setFirst => exact (Kanban.getEpochInt_of_ledger_eq _ _ hl).trans h
  | readEpoch => exact h.imp fun e he => he.of_ledger_eq hl
  | readEpochInt c => exact EpochIs.of_ledger_eq h hl
  | count c n => exact ⟨h.1.of_ledger_eq hl, h.2⟩
  | commit c keys =>
      obtain ⟨he, l, hq, hkeys⟩ := h
      exact ⟨he.of_ledger_eq hl, l, hq.mono hs, hkeys⟩
  | reread c => exact ⟨h.1.of_ledger_eq hl, h.2.imp (hroot c)⟩
  | increment c n => exact ⟨h.1.of_ledger_eq hl, h.2.1, h.2.2.imp (hroot c)⟩
  | _ => trivial

end

namespace Ledger

variable {D : Deployment} {P : Platform} {L : LastCharSort} {s s' : State}

/-- Executors keep it: they leave the ledger alone, and the witness sets only grow. -/
theorem of_ledger_eq (h : Ledger P L s) (hl : s'.kanban.ledger = s.kanban.ledger)
    (hs : s.kanban.sadds ⊆ s'.kanban.sadds) (hm : s'.manager = s.manager) : Ledger P L s' := by
  refine ⟨?_, ?_, fun e v hv => ?_⟩
  · rw [Kanban.get_of_ledger_eq hl rfl]
    exact h.epoch.imp_right fun ⟨e, he⟩ => ⟨e, he.of_ledger_eq hl⟩
  · rw [hm]
    exact h.pc.of_ledger_eq hl hs
  · rw [Kanban.stored_iff_mem_ledger rfl, hl, ← Kanban.stored_iff_mem_ledger rfl] at hv
    obtain ⟨l, hq, hv⟩ := h.roots e v hv
    exact ⟨l, hq.mono hs, hv⟩

/-- The epoch is there when the text read from it is not `-1`. -/
theorem epochIs_of_getEpoch (h : Ledger P L s) {t : Bytes}
    (ht : getEpoch P.runtime P.crypto s.kanban = some t) (hne : t ≠ ascii "-1") :
    ∃ e, EpochIs P s.kanban e := by
  refine h.epoch.resolve_left fun hnone => hne ?_
  rw [getEpoch, hnone] at ht
  exact (Option.some.inj ht).symm

/-- Writing to the ledger: the new root hash, if it is one, has to be that of a quorum. -/
theorem of_set (h : Ledger P L s) {k : Key} {v : Bytes} (hkb : s'.kanban = s.kanban.set k v)
    (hepoch : .epoch ≠ k ∨ ∃ e, EpochIs P s'.kanban e) (hpc : s'.manager.pc.Holds P s'.kanban)
    (hroot : ∀ e, k = .rootHash e → ∃ l, Quorum s.kanban e l ∧ v = rootHashOf P.crypto L l) :
    Ledger P L s' := by
  refine ⟨?_, hpc, fun e v' hv' => ?_⟩
  · rcases hepoch with hne | hepoch
    · rw [hkb, Kanban.get_set_of_ne _ hne]
      exact h.epoch.imp_right fun ⟨e, he⟩ => ⟨e, he.set hne v⟩
    · exact .inr hepoch
  · have hold : ∃ l, Quorum s.kanban e l ∧ v' = rootHashOf P.crypto L l := by
      rw [hkb] at hv'
      rcases List.mem_cons.1 hv' with heq | hold
      · cases heq
        exact hroot e rfl
      · exact h.roots e v' hold
    obtain ⟨l, hq, rfl⟩ := hold
    exact ⟨l, hq.mono (by rw [hkb]; exact fun _ hx => hx), rfl⟩

theorem manager (h : Ledger D.platform D.sort s) :
    Ledger D.platform D.sort (D.step .manager s) := by
  obtain ⟨m', kb', hstep, heq⟩ := D.step_manager s
  rw [heq]
  obtain ⟨kb, m, procs⟩ := s
  have hpc := h.pc
  cases hstep with
  | boot | openEpoch => exact h.of_set rfl (.inl (by simp)) trivial (by simp)
  | testMissing hget | initMissing hget =>
      refine ⟨h.epoch, ?_, h.roots⟩
      change getEpochInt _ _ kb = some (-1)
      rw [getEpochInt, hget]
      decide
  | testFound hget hne | initFound hget hne =>
      exact ⟨h.epoch, h.epochIs_of_getEpoch hget hne, h.roots⟩
  | setFirst =>
      have hnew := epochIs_set_epoch D.platform kb (e := 1) (by decide)
      exact h.of_set rfl (.inr ⟨1, hnew⟩) ⟨1, hnew⟩ (by simp)
  | readEpoch hget =>
      obtain ⟨e, he⟩ : ∃ e, EpochIs D.platform kb e := hpc
      obtain rfl := Option.some.inj (he.getEpochInt.symm.trans hget)
      exact ⟨h.epoch, he, h.roots⟩
  | readEpochInt hget =>
      have he : EpochIs D.platform kb _ := hpc
      obtain rfl := Option.some.inj (he.getEpochInt.symm.trans hget)
      exact ⟨h.epoch, ⟨he, rfl⟩, h.roots⟩
  | wait => exact h
  | count henough =>
      obtain ⟨he, rfl⟩ := hpc
      exact ⟨h.epoch, ⟨he, _, ⟨fun _ hk => hk, henough⟩, rfl⟩, h.roots⟩
  | commit =>
      obtain ⟨he, l, hq, rfl⟩ := hpc
      refine h.of_set rfl (.inl (by simp)) ⟨he.set (by simp) _, _, List.mem_cons_self⟩ ?_
      intro e hk
      cases hk
      exact ⟨l, hq, rfl⟩
  | reread hget =>
      obtain ⟨he, hroot⟩ := hpc
      obtain rfl := Option.some.inj (he.getEpochInt.symm.trans hget)
      exact ⟨h.epoch, ⟨he, rfl, hroot⟩, h.roots⟩
  | increment =>
      obtain ⟨he, rfl, hroot⟩ := hpc
      exact h.of_set rfl (.inr ⟨_, epochIs_set_epoch _ _ (isInt_wrapInt _)⟩) trivial (by simp)
  | halt => exact ⟨h.epoch, trivial, h.roots⟩

theorem step (h : Ledger D.platform D.sort s) (a : Action) :
    Ledger D.platform D.sort (D.step a s) := by
  cases a with
  | manager => exact h.manager
  | exec p answers =>
      have hstep := Executor.step_spec D.platform (D.role p) answers s.kanban (s.procs p)
      exact h.of_ledger_eq hstep.ledger_eq hstep.extends.sadds rfl
  | crash p => exact h.of_ledger_eq rfl (fun _ hx => hx) rfl

end Ledger

theorem ledger_init (P : Platform) (L : LastCharSort) : Ledger P L .init :=
  ⟨.inl rfl, trivial, fun _ _ h => absurd h List.not_mem_nil⟩

end DeSearch
