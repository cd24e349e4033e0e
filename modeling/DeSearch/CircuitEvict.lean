import DeSearch.CircuitOram
import DeSearch.Lib.Slots

/-!
# An eviction loses no block

Three passes over a path work together. `prepare_deepest` finds for each level a block further up
that could be moved there; a level *offers* the block at its `deepest_position` (`Planned`).
`prepare_target` runs back from the leaf and picks moves that do not overlap, each into a bucket
with a free slot. `EvictOnceFast` carries the blocks down, holding at most one at a time.

What makes this work is that the registers are in step: whenever `local_deepest` grows, `goal`,
`src` and `deepest_position` are set as well, because `local_deepest` is never above the bucket that
`goal` stands for (`DeepestRegs.Bounded`). And a block is held when a level is entered exactly if
`prepare_target` was waiting for one when it left that level (`Entering`). So no block is lost or
made up (`mem_evictLevels`), and a block that was moved fits where it is (`placed_evictLevels`).
-/

namespace DeSearch

variable {D gN leaf : Nat}

/-- The block may lie on level `t` of the path. -/
def OramBlock.Fits (D leaf : Nat) (b : OramBlock) (t : Nat) : Prop :=
  b.treeLabel >>> (D - t) = leaf >>> (D - t)

theorem OramBlock.Fits.mono {b : OramBlock} {t t' : Nat} (h : b.Fits D leaf t') (hle : t ≤ t') :
    b.Fits D leaf t :=
  HeapPath.shiftRight_eq_of_le h (by omega)

/-- The block at `deepest_position` is a real one and fits level `t`. -/
def LevelInfo.Offers (D gN leaf : Nat) (info : LevelInfo) (t : Nat) : Prop :=
  ∃ k b, info.position = some k ∧ (scanned info.level info.blocks)[k]? = some b ∧
    ¬b.IsDummy gN ∧ b.Fits D leaf t

theorem getElem?_slotOf {level k : Nat} {blocks : List OramBlock} {b : OramBlock}
    (h : (scanned level blocks)[k]? = some b) : blocks[slotOf level blocks k]? = some b := by
  unfold scanned at h
  unfold slotOf
  split_ifs at h ⊢ with hlevel
  · exact h
  · obtain ⟨hlt, -⟩ := List.getElem?_eq_some_iff.1 h
    rw [List.length_reverse] at hlt
    rwa [List.getElem?_reverse hlt] at h

/-! ## `prepare_deepest` -/

/-- `local_deepest` is not above the bucket of the path that `goal` stands for. -/
def DeepestRegs.Bounded (D leaf : Nat) (r : DeepestRegs) : Prop :=
  ∀ g, r.goal = some g → leaf >>> (D - g) ≤ r.localDeepest

theorem foldl_matchLabel (k : Nat) (b : OramBlock) (r : DeepestRegs) (n : Nat) :
    let r' := (List.range n).foldl (matchLabel D gN leaf k b) { r with positionInPath := 0 }
    r'.goal = r.goal ∧ r'.src = r.src ∧
      (r'.positionInPath = 0 ∧ r'.position = r.position ∧ r'.localDeepest = r.localDeepest ∨
        ∃ j < n, r'.positionInPath = D - j ∧ r'.position = some k ∧ r'.localDeepest = leaf >>> j ∧
          r.localDeepest < leaf >>> j ∧ ¬b.IsDummy gN ∧ b.treeLabel >>> j = leaf >>> j) := by
  induction n with
  | zero => exact ⟨rfl, rfl, .inl ⟨rfl, rfl, rfl⟩⟩
  | succ n ih =>
      rw [List.range_succ, List.foldl_append, List.foldl_cons, List.foldl_nil]
      set r₁ := (List.range n).foldl (matchLabel D gN leaf k b) { r with positionInPath := 0 }
      obtain ⟨hgoal, hsrc, hcases⟩ := ih
      unfold matchLabel
      split_ifs with hmatch
      · obtain ⟨hlabel, hreal, hlt⟩ := hmatch
        refine ⟨hgoal, hsrc, .inr ⟨n, Nat.lt_succ_self n, rfl, rfl, hlabel, ?_, hreal, hlabel⟩⟩
        rw [hlabel] at hlt
        obtain ⟨-, -, hlocal⟩ | ⟨j, -, -, -, hlocal, hj, -⟩ := hcases
        · rwa [hlocal] at hlt
        · rw [hlocal] at hlt
          exact hj.trans hlt
      · refine ⟨hgoal, hsrc, hcases.imp_right fun h => ?_⟩
        obtain ⟨j, hj, hrest⟩ := h
        exact ⟨j, Nat.lt_succ_of_lt hj, hrest⟩

/-- A block either changes nothing, or becomes the new source. -/
theorem scanBlock_cases {i k : Nat} {b : OramBlock} {r r' : DeepestRegs} (h : r.Bounded D leaf)
    (hr : scanBlock D gN leaf i r (b, k) = r') :
    r'.Bounded D leaf ∧
      (r'.goal = r.goal ∧ r'.src = r.src ∧ r'.position = r.position ∨
        ∃ g, r'.goal = some g ∧ r'.src = some i ∧ r'.position = some k ∧
          ¬b.IsDummy gN ∧ b.Fits D leaf g) := by
  subst hr
  unfold scanBlock
  dsimp only
  obtain ⟨hgoal, hsrc, hcases⟩ := @foldl_matchLabel D gN leaf k b r (D - i)
  set r₁ := (List.range (D - i)).foldl (matchLabel D gN leaf k b) { r with positionInPath := 0 }
  obtain ⟨hpath, hpos, hlocal⟩ | ⟨j, hj, hpath, hpos, hlocal, hlt, hreal, hlabel⟩ := hcases
  · have hany : r₁.goal.any (fun g => decide (g < r₁.positionInPath)) = false := by
      simp [hpath]
    rw [hany, if_neg Bool.false_ne_true, if_neg (by omega)]
    refine ⟨?_, .inl ⟨hgoal, hsrc, hpos⟩⟩
    intro g hg
    rw [hlocal]
    exact h g (hgoal ▸ hg)
  · have hall : r₁.goal.all (fun g => decide (g < r₁.positionInPath)) = true := by
      rw [hgoal, hpath]
      cases hg : r.goal with
      | none => rfl
      | some g =>
          have hup := HeapPath.lt_of_shiftRight_lt (lt_of_le_of_lt (h g hg) hlt)
          simp only [Option.all_some, decide_eq_true_eq]
          omega
    -- the source is set, and `deepest_position` is the block's whichever flag set it
    have hset : (if r₁.goal.any (fun g => decide (g < r₁.positionInPath)) then
        { r₁ with position := some k } else r₁) = r₁ := by
      rw [← hpos]
      split_ifs <;> rfl
    rw [hset, if_pos ⟨hall, by omega⟩, hpath]
    have hback : D - (D - j) = j := by omega
    refine ⟨?_, .inr ⟨D - j, rfl, rfl, hpos, hreal, ?_⟩⟩
    · intro g hg
      cases hg
      rw [hback]
      exact hlocal.ge
    · rw [OramBlock.Fits, hback]
      exact hlabel

theorem DeepestRegs.Bounded.reach {r : DeepestRegs} (h : r.Bounded D leaf) (i : Nat) :
    (r.reach i).Bounded D leaf := by
  unfold DeepestRegs.reach
  split_ifs
  · intro g hg
    cases hg
  · exact h

/-- A level either leaves the source as it was, or is the new source and offers a block for the
goal. -/
def ScannedTo (D gN leaf i : Nat) (blocks : List OramBlock) (r r' : DeepestRegs) : Prop :=
  r'.Bounded D leaf ∧
    (r'.goal = r.goal ∧ r'.src = r.src ∨
      ∃ g, r'.goal = some g ∧ r'.src = some i ∧
        ∀ deepest, LevelInfo.Offers D gN leaf ⟨i, blocks, deepest, r'.position⟩ g)

theorem scannedTo_scanLevel {i : Nat} {r : DeepestRegs} (blocks : List OramBlock)
    (h : r.Bounded D leaf) :
    ScannedTo D gN leaf i blocks (r.reach i) (scanLevel D gN leaf i r blocks) := by
  refine List.foldlRecOn (motive := ScannedTo D gN leaf i blocks (r.reach i)) _ _
    ⟨h.reach i, .inl ⟨rfl, rfl⟩⟩ ?_
  intro r₁ hr₁ bk hmem
  obtain ⟨b, k⟩ := bk
  have hk : (scanned i blocks)[k]? = some b := List.mem_zipIdx_iff_getElem?.1 hmem
  obtain ⟨hbounded, hcases⟩ := hr₁
  obtain ⟨hbounded', hstep⟩ := scanBlock_cases hbounded rfl
  refine ⟨hbounded', ?_⟩
  obtain ⟨hgoal, hsrc, hpos⟩ | ⟨g, hgoal, hsrc, hpos, hreal, hfits⟩ := hstep
  · rw [hgoal, hsrc, hpos]
    exact hcases
  · exact .inr ⟨g, hgoal, hsrc, fun _ => ⟨k, b, hpos, hk, hreal, hfits⟩⟩

/-- What the passes after `prepare_deepest` rely on. -/
structure Planned (D gN leaf : Nat) (infos : List LevelInfo) : Prop where
  sorted : infos.Pairwise fun a b => a.level < b.level
  offers : infos.Pairwise fun a b => b.deepest = some a.level → a.Offers D gN leaf b.level
  deepest_lt : ∀ info ∈ infos, ∀ s, info.deepest = some s → s < info.level

theorem Planned.tail {info : LevelInfo} {infos : List LevelInfo}
    (h : Planned D gN leaf (info :: infos)) : Planned D gN leaf infos :=
  ⟨h.sorted.tail, h.offers.tail, fun info' hmem => h.deepest_lt info' (List.mem_cons_of_mem _ hmem)⟩

theorem le_level_of_mem {i : Nat} {r : DeepestRegs} {levels : List (List OramBlock)}
    {info : LevelInfo} (h : info ∈ prepareDeepest D gN leaf i r levels) : i ≤ info.level := by
  induction levels generalizing i r with
  | nil => cases h
  | cons blocks levels ih =>
      obtain rfl | htail := List.mem_cons.1 h
      · exact le_rfl
      · exact Nat.le_of_succ_le (ih htail)

theorem reach_src {r : DeepestRegs} {i s : Nat} (h : (r.reach i).src = some s) :
    r.src = some s ∧ (r.reach i).goal = r.goal := by
  unfold DeepestRegs.reach at h ⊢
  split_ifs at h ⊢
  · exact ⟨h, rfl⟩

/-- The source behind a level is the one from before, with its goal, or the level itself. -/
theorem ScannedTo.src_cases {i s : Nat} {blocks : List OramBlock} {r r' : DeepestRegs}
    (h : ScannedTo D gN leaf i blocks (r.reach i) r') (hs : r'.src = some s) :
    r.src = some s ∧ r'.goal = r.goal ∨
      s = i ∧ ∃ g, r'.goal = some g ∧
        ∀ deepest, LevelInfo.Offers D gN leaf ⟨i, blocks, deepest, r'.position⟩ g := by
  obtain ⟨-, ⟨hgoal, hkeep⟩ | ⟨g, hgoal, hnew, hoffers⟩⟩ := h
  · obtain ⟨hold, hreach⟩ := reach_src (hkeep ▸ hs)
    exact .inl ⟨hold, hgoal.trans hreach⟩
  · rw [hnew] at hs
    exact .inr ⟨(Option.some.inj hs).symm, g, hgoal, hoffers⟩

/-- `deepest[i]` is the source, if its goal is at or below the level. -/
theorem src_of_deepest {r : DeepestRegs} {i s : Nat}
    (h : (if r.goal.any (fun g => decide (i ≤ g)) then r.src else none) = some s) :
    r.src = some s ∧ ∃ g, r.goal = some g ∧ i ≤ g := by
  split_ifs at h with hany
  cases hg : r.goal with
  | none => simp [hg] at hany
  | some g => exact ⟨h, g, rfl, by simpa [hg] using hany⟩

/-- From level `i` on: sources from further up are the one in `src`, and `goal` reaches down to the
levels that have it. -/
theorem prepareDeepest_spec {i : Nat} {r : DeepestRegs} (h : r.Bounded D leaf)
    (hsrc : ∀ s, r.src = some s → s < i) (levels : List (List OramBlock)) :
    Planned D gN leaf (prepareDeepest D gN leaf i r levels) ∧
      ∀ info ∈ prepareDeepest D gN leaf i r levels, ∀ s < i, info.deepest = some s →
        r.src = some s ∧ ∃ g, r.goal = some g ∧ info.level ≤ g := by
  induction levels generalizing i r with
  | nil => exact ⟨⟨.nil, .nil, by simp [prepareDeepest]⟩, by simp [prepareDeepest]⟩
  | cons blocks levels ih =>
      rw [prepareDeepest]
      have hscanned := @scannedTo_scanLevel D gN leaf i r blocks h
      generalize scanLevel D gN leaf i r blocks = r' at hscanned ⊢
      have hsrc' : ∀ s, r'.src = some s → s < i + 1 := by
        intro s hs
        obtain ⟨hold, -⟩ | ⟨rfl, -⟩ := hscanned.src_cases hs
        · exact Nat.lt_succ_of_lt (hsrc s hold)
        · exact Nat.lt_succ_self s
      obtain ⟨hplanned, hrest⟩ := ih hscanned.1 hsrc'
      refine ⟨⟨?_, ?_, ?_⟩, ?_⟩
      · exact List.pairwise_cons.2 ⟨fun info hmem => le_level_of_mem hmem, hplanned.sorted⟩
      · refine List.pairwise_cons.2 ⟨fun info hmem hdeep => ?_, hplanned.offers⟩
        obtain ⟨hi, g, hg, hle⟩ := hrest info hmem i (Nat.lt_succ_self i) hdeep
        obtain ⟨hold, -⟩ | ⟨-, g', hg', hoffers⟩ := hscanned.src_cases hi
        · exact absurd (hsrc i hold) (Nat.lt_irrefl i)
        · rw [hg] at hg'
          cases hg'
          obtain ⟨k, b, hpos, hk, hreal, hfits⟩ := hoffers _
          exact ⟨k, b, hpos, hk, hreal, hfits.mono hle⟩
      · intro info hmem s hdeep
        obtain rfl | htail := List.mem_cons.1 hmem
        · exact hsrc s (src_of_deepest hdeep).1
        · exact hplanned.deepest_lt info htail s hdeep
      · intro info hmem s hs hdeep
        obtain rfl | htail := List.mem_cons.1 hmem
        · exact src_of_deepest hdeep
        · obtain ⟨hsrc₁, g, hg, hle⟩ := hrest info htail s (Nat.lt_succ_of_lt hs) hdeep
          obtain ⟨hold, hgoal⟩ | ⟨heq, -⟩ := hscanned.src_cases hsrc₁
          · exact ⟨hold, g, hgoal ▸ hg, hle⟩
          · exact absurd hs (Nat.not_lt.2 heq.ge)

theorem map_blocks_prepareDeepest (i : Nat) (r : DeepestRegs) (levels : List (List OramBlock)) :
    (prepareDeepest D gN leaf i r levels).map (·.blocks) = levels := by
  induction levels generalizing i r with
  | nil => rfl
  | cons blocks levels ih => rw [prepareDeepest, List.map_cons, ih]

theorem getElem?_prepareDeepest {i t : Nat} {r : DeepestRegs} {levels : List (List OramBlock)}
    {info : LevelInfo} (h : (prepareDeepest D gN leaf i r levels)[t]? = some info) :
    info.level = i + t ∧ levels[t]? = some info.blocks := by
  induction levels generalizing i r t with
  | nil => cases h
  | cons blocks levels ih =>
      cases t with
      | zero =>
          cases h
          exact ⟨rfl, rfl⟩
      | succ t =>
          obtain ⟨hlevel, hblocks⟩ := ih h
          exact ⟨by omega, hblocks⟩

/-! ## `prepare_target` -/

/-- What `prepare_target` waits for when it leaves a level: nothing, or a block for a bucket with a
free slot, from the source that this bucket's level has. -/
theorem prepareTarget_pending (infos : List LevelInfo) :
    (prepareTarget gN infos).2 = (none, none) ∨
      ∃ info ∈ infos, ∃ s, info.level ≠ 0 ∧ (∃ b ∈ info.blocks, b.IsDummy gN) ∧
        info.deepest = some s ∧ (prepareTarget gN infos).2 = (some s, some info.level) := by
  induction infos with
  | nil => exact .inl rfl
  | cons info infos ih =>
      have hnew (hlevel : info.level ≠ 0) (hempty : ∃ b ∈ info.blocks, b.IsDummy gN)
          (hdeep : info.deepest ≠ none) :
          ∃ info' ∈ info :: infos, ∃ s, info'.level ≠ 0 ∧ (∃ b ∈ info'.blocks, b.IsDummy gN) ∧
            info'.deepest = some s ∧
              (info.deepest, some info.level) = (some s, some info'.level) := by
        obtain ⟨s, hs⟩ := Option.ne_none_iff_exists'.1 hdeep
        exact ⟨info, List.mem_cons_self, s, hlevel, hempty, hs, by rw [hs]⟩
      rw [prepareTarget]
      dsimp only
      split_ifs with hclosed hopen hopen
      · exact .inr (hnew hopen.1 hopen.2.2.1 hopen.2.2.2)
      · exact .inl rfl
      · exact .inr (hnew hopen.1 hopen.2.2.1 hopen.2.2.2)
      · obtain hnone | ⟨info', hmem, s, hrest⟩ := ih
        · exact .inl hnone
        · exact .inr ⟨info', List.mem_cons_of_mem _ hmem, s, hrest⟩

/-- The source that is waited for lies further up. -/
theorem prepareTarget_src_ne {infos : List LevelInfo} (h : Planned D gN leaf infos) {s : Nat}
    (hs : (prepareTarget gN infos).2.1 = some s) : ∀ info ∈ infos, info.level ≠ s := by
  induction infos with
  | nil => simp
  | cons info infos ih =>
      rw [prepareTarget] at hs
      dsimp only at hs
      have hsorted := List.pairwise_cons.1 h.sorted
      have hnew : info.deepest = some s → ∀ info' ∈ info :: infos, info'.level ≠ s := by
        intro hdeep info' hmem
        have hlt := h.deepest_lt info List.mem_cons_self s hdeep
        obtain rfl | htail := List.mem_cons.1 hmem
        · omega
        · have hlt' := hsorted.1 info' htail
          omega
      split_ifs at hs with hclosed hopen hopen
      · exact hnew hs
      · exact hnew hs
      · intro info' hmem
        obtain rfl | htail := List.mem_cons.1 hmem
        · intro hlevel
          exact hclosed (hlevel ▸ hs)
        · exact ih h.tail hs info' htail

theorem length_prepareTarget (infos : List LevelInfo) :
    (prepareTarget gN infos).1.length = infos.length := by
  induction infos with
  | nil => rfl
  | cons info infos ih =>
      rw [prepareTarget]
      dsimp only
      split_ifs <;> simp [ih]

/-! ## `EvictOnceFast` -/

/-- A level with a free slot has a `target_position`. -/
theorem exists_targetPosition {info : LevelInfo} (hlevel : info.level ≠ 0)
    (h : ∃ b ∈ info.blocks, b.IsDummy gN) :
    ∃ k d, targetPosition gN info = some k ∧ info.blocks[k]? = some d ∧ d.IsDummy gN := by
  rw [targetPosition, if_neg hlevel]
  cases hfind : info.blocks.findIdx? (fun b => b.IsDummy gN) with
  | none =>
      obtain ⟨b, hmem, hb⟩ := h
      rw [List.findIdx?_eq_none_iff] at hfind
      exact absurd hb (by simpa using hfind b hmem)
  | some k =>
      obtain ⟨hlt, hk, -⟩ := List.findIdx?_eq_some_iff_getElem.1 hfind
      exact ⟨k, info.blocks[k], rfl, List.getElem?_eq_getElem hlt, by simpa using hk⟩

theorem isDummy_asDummy (b : OramBlock) : (b.asDummy gN).IsDummy gN := rfl

/-- A block `b` that fits level `t` is taken from `blocks`. Of the real blocks only this one is
missing from `rest`, and free slots stay free. -/
structure Taken (D gN leaf : Nat) (blocks : List OramBlock) (t : Nat) (b : OramBlock)
    (rest : List OramBlock) : Prop where
  real : ¬b.IsDummy gN
  fits : b.Fits D leaf t
  mem : b ∈ blocks
  mem_iff : ∀ x, ¬x.IsDummy gN → (x ∈ rest ∨ x = b ↔ x ∈ blocks)
  free : ∀ (k : Nat) (d : OramBlock), blocks[k]? = some d → d.IsDummy gN →
    ∃ d' : OramBlock, rest[k]? = some d' ∧ d'.IsDummy gN

theorem takeBlock_of_offers {info : LevelInfo} {t : Nat} (h : info.Offers D gN leaf t) :
    ∃ b rest, takeBlock gN info (some t) none = some (b, rest) ∧
      Taken D gN leaf info.blocks t b rest := by
  obtain ⟨k, b, hpos, hk, hreal, hfits⟩ := h
  have hslot := getElem?_slotOf hk
  refine ⟨b, info.blocks.set (slotOf info.level info.blocks k) (b.asDummy gN), ?_, hreal, hfits,
    List.mem_of_getElem? hslot, ?_, ?_⟩
  · rw [takeBlock, hpos, Option.bind_some, hk, Option.bind_some, if_pos]
    exact ⟨by simp, by split_ifs <;> simp [hreal]⟩
  · intro x hx
    exact Slots.mem_set_free hslot (isDummy_asDummy b) hx
  · intro j d hj hd
    by_cases hjk : slotOf info.level info.blocks k = j
    · subst hjk
      obtain ⟨hlt, -⟩ := List.getElem?_eq_some_iff.1 hslot
      exact ⟨_, List.getElem?_set_self hlt, isDummy_asDummy b⟩
    · exact ⟨d, by rw [List.getElem?_set_ne hjk, hj], hd⟩

theorem takeBlock_none (info : LevelInfo) (held : Option OramBlock) :
    takeBlock gN info none held = none := by
  unfold takeBlock
  cases info.position with
  | none => rfl
  | some k => cases (scanned info.level info.blocks)[k]? <;> simp

/-- The registers of `EvictOnceFast` when a level is entered that `prepare_target` left waiting for
a block for level `dest`, or for none. -/
structure Entering (gN : Nat) (e : EvictRegs) (dest : Option Nat) : Prop where
  write : e.write = none
  held : e.held = none ↔ dest = none
  dest : dest ≠ none → e.dest = dest
  real : ∀ b, e.held = some b → ¬b.IsDummy gN

theorem entering_some {b : OramBlock} (hb : ¬b.IsDummy gN) (t : Nat) :
    Entering gN ⟨some b, some t, none⟩ (some t) := by
  refine ⟨rfl, by simp, fun _ => rfl, ?_⟩
  intro x hx
  cases hx
  exact hb

/-- A block is held for the level that was waited for. -/
theorem Entering.holds {e : EvictRegs} {t : Nat} (h : Entering gN e (some t)) :
    ∃ w, e.held = some w ∧ e.dest = some t := by
  have hne : e.held ≠ none := fun hnone => by simpa using h.held.1 hnone
  obtain ⟨w, hw⟩ := Option.ne_none_iff_exists'.1 hne
  exact ⟨w, hw, h.dest (by simp)⟩

/-- What becomes of the blocks of one level and of the block that is held when it is entered:
nothing is lost, the level only gets a block that was held for it, and a block that is taken from it
fits where it goes. -/
structure Moved (D gN leaf : Nat) (info : LevelInfo) (e e' : EvictRegs)
    (blocks : List OramBlock) : Prop where
  mem_iff : ∀ b, ¬b.IsDummy gN →
    (b ∈ blocks ∨ e'.held = some b ↔ b ∈ info.blocks ∨ e.held = some b)
  mem : ∀ b ∈ blocks, ¬b.IsDummy gN →
    b ∈ info.blocks ∨ e.held = some b ∧ e.dest = some info.level
  held : ∀ b, e'.held = some b →
    e.held = some b ∧ e.dest = e'.dest ∨ b ∈ info.blocks ∧ ∃ t, e'.dest = some t ∧ b.Fits D leaf t

theorem pickUp_none (info : LevelInfo) (e : EvictRegs) :
    pickUp gN info none e = (e, info.blocks) := by
  rw [pickUp, takeBlock_none]
  rfl

theorem pickUp_of_takeBlock {info : LevelInfo} {t : Nat} {b : OramBlock} {blocks : List OramBlock}
    (h : takeBlock gN info (some t) none = some (b, blocks)) (dest : Option Nat)
    (write : Option OramBlock) :
    pickUp gN info (some t) ⟨none, dest, write⟩ = (⟨some b, some t, write⟩, blocks) := by
  rw [pickUp, h]

theorem putDown_none (info : LevelInfo) {e : EvictRegs} (h : e.write = none)
    (blocks : List OramBlock) : putDown gN info e blocks = (e, blocks) := by
  rw [putDown, h]

theorem putDown_some {info : LevelInfo} {k : Nat} (h : targetPosition gN info = some k)
    (held : Option OramBlock) (dest : Option Nat) (b : OramBlock) (blocks : List OramBlock) :
    putDown gN info ⟨held, dest, some b⟩ blocks = (⟨held, dest, none⟩, blocks.set k b) := by
  rw [putDown, h]

theorem arrive_of_ne {e : EvictRegs} {level : Nat} (h : e.held = none ∨ e.dest ≠ some level) :
    e.arrive level = e := by
  rw [EvictRegs.arrive, if_neg]
  intro hboth
  exact h.elim hboth.1 (· hboth.2)

theorem arrive_of_dest {e : EvictRegs} {level : Nat} {w : OramBlock} (hheld : e.held = some w)
    (hdest : e.dest = some level) : e.arrive level = ⟨none, none, some w⟩ := by
  simp [EvictRegs.arrive, hheld, hdest]

section
variable {info : LevelInfo} {e : EvictRegs}

/-- The level is passed by. -/
theorem moved_idle (hwrite : e.write = none) (h : e.held = none ∨ e.dest ≠ some info.level) :
    evictLevel gN info none e = (e, info.blocks) ∧ Moved D gN leaf info e e info.blocks := by
  constructor
  · rw [evictLevel, arrive_of_ne h, pickUp_none]
    exact putDown_none info hwrite _
  · exact ⟨fun b _ => Iff.rfl, fun b hb _ => .inl hb, fun b hb => .inl ⟨hb, rfl⟩⟩

/-- The block that is held is put into a free slot. -/
theorem moved_put {w d : OramBlock} {k : Nat} (hheld : e.held = some w)
    (hdest : e.dest = some info.level) (hk : targetPosition gN info = some k)
    (hslot : info.blocks[k]? = some d) (hd : d.IsDummy gN) :
    evictLevel gN info none e = (⟨none, none, none⟩, info.blocks.set k w) ∧
      Moved D gN leaf info e ⟨none, none, none⟩ (info.blocks.set k w) := by
  constructor
  · rw [evictLevel, arrive_of_dest hheld hdest, pickUp_none]
    exact putDown_some hk none none w _
  · have hput (b : OramBlock) (hb : ¬b.IsDummy gN) :
        b ∈ info.blocks.set k w ↔ b = w ∨ b ∈ info.blocks :=
      Slots.mem_set_of_free hslot hd hb
    refine ⟨?_, ?_, by simp⟩
    · intro b hb
      rw [hput b hb, hheld]
      simp [or_comm, eq_comm]
    · intro b hmem hb
      obtain rfl | hold := (hput b hb).1 hmem
      · exact .inr ⟨hheld, hdest⟩
      · exact .inl hold

/-- The offered block is taken; nothing was held. -/
theorem moved_take {t : Nat} (hwrite : e.write = none) (hheld : e.held = none)
    (hoffers : info.Offers D gN leaf t) :
    ∃ b blocks, evictLevel gN info (some t) e = (⟨some b, some t, none⟩, blocks) ∧
      ¬b.IsDummy gN ∧ Moved D gN leaf info e ⟨some b, some t, none⟩ blocks := by
  obtain ⟨b, rest, htake, htaken⟩ := takeBlock_of_offers hoffers
  obtain ⟨held, dest, write⟩ := e
  cases hheld
  cases hwrite
  refine ⟨b, rest, ?_, htaken.real, ?_, ?_, ?_⟩
  · rw [evictLevel, arrive_of_ne (.inl rfl), pickUp_of_takeBlock htake]
    exact putDown_none info rfl _
  · intro x hx
    simpa [eq_comm] using htaken.mem_iff x hx
  · intro x hmem hx
    exact .inl ((htaken.mem_iff x hx).1 (.inl hmem))
  · intro x hx
    cases hx
    exact .inr ⟨htaken.mem, t, rfl, htaken.fits⟩

/-- The offered block is taken and the one that was held is put down. -/
theorem moved_swap {t k : Nat} {w d : OramBlock} (hheld : e.held = some w)
    (hdest : e.dest = some info.level) (hk : targetPosition gN info = some k)
    (hslot : info.blocks[k]? = some d) (hd : d.IsDummy gN) (hoffers : info.Offers D gN leaf t) :
    ∃ b blocks, evictLevel gN info (some t) e = (⟨some b, some t, none⟩, blocks) ∧
      ¬b.IsDummy gN ∧ Moved D gN leaf info e ⟨some b, some t, none⟩ blocks := by
  obtain ⟨b, rest, htake, htaken⟩ := takeBlock_of_offers hoffers
  obtain ⟨d', hslot', hd'⟩ := htaken.free k d hslot hd
  have hput (x : OramBlock) (hx : ¬x.IsDummy gN) : x ∈ rest.set k w ↔ x = w ∨ x ∈ rest :=
    Slots.mem_set_of_free hslot' hd' hx
  refine ⟨b, rest.set k w, ?_, htaken.real, ?_, ?_, ?_⟩
  · rw [evictLevel, arrive_of_dest hheld hdest, pickUp_of_takeBlock htake]
    exact putDown_some hk (some b) (some t) w _
  · intro x hx
    rw [hput x hx, ← htaken.mem_iff x hx, hheld]
    simp [eq_comm, or_comm, or_left_comm]
  · intro x hmem hx
    obtain rfl | hold := (hput x hx).1 hmem
    · exact .inr ⟨hheld, hdest⟩
    · exact .inl ((htaken.mem_iff x hx).1 (.inl hold))
  · intro x hx
    cases hx
    exact .inr ⟨htaken.mem, t, rfl, htaken.fits⟩

end

/-- How `prepare_target` passes a level: what it was waiting for before (`src`, `dest`), the target
that it sets and what it waits for behind the level (`dest'`). -/
theorem prepareTarget_cons (info : LevelInfo) (infos : List LevelInfo) :
    ∃ target dest', (prepareTarget gN (info :: infos)).1 = target :: (prepareTarget gN infos).1 ∧
      (prepareTarget gN (info :: infos)).2.2 = dest' ∧
      ((prepareTarget gN infos).2.1 = some info.level ∧ target = (prepareTarget gN infos).2.2 ∧
          (dest' = none ∨
            dest' = some info.level ∧ info.level ≠ 0 ∧ ∃ b ∈ info.blocks, b.IsDummy gN) ∨
        (prepareTarget gN infos).2.1 ≠ some info.level ∧ target = none ∧
          (dest' = (prepareTarget gN infos).2.2 ∨
            (prepareTarget gN infos).2.2 = none ∧ dest' = some info.level ∧ info.level ≠ 0 ∧
              ∃ b ∈ info.blocks, b.IsDummy gN)) := by
  rw [prepareTarget]
  dsimp only
  split_ifs with hclosed hopen hopen
  · exact ⟨_, _, rfl, rfl, .inl ⟨hclosed, rfl, .inr ⟨rfl, hopen.1, hopen.2.2.1⟩⟩⟩
  · exact ⟨_, _, rfl, rfl, .inl ⟨hclosed, rfl, .inl rfl⟩⟩
  · exact ⟨_, _, rfl, rfl, .inr ⟨hclosed, rfl, .inr ⟨hopen.2.1, rfl, hopen.1, hopen.2.2.1⟩⟩⟩
  · exact ⟨_, _, rfl, rfl, .inr ⟨hclosed, rfl, .inl rfl⟩⟩

/-- One level of the eviction: what is held at its end is what `prepare_target` had been waiting for
when it entered the level. -/
theorem evictLevel_spec {info : LevelInfo} {infos : List LevelInfo} {e : EvictRegs}
    (h : Planned D gN leaf (info :: infos))
    (he : Entering gN e (prepareTarget gN (info :: infos)).2.2) :
    ∃ target e' blocks,
      (prepareTarget gN (info :: infos)).1 = target :: (prepareTarget gN infos).1 ∧
        evictLevel gN info target e = (e', blocks) ∧
        Entering gN e' (prepareTarget gN infos).2.2 ∧ Moved D gN leaf info e e' blocks := by
  obtain ⟨target, dest', htargets, hdest', hcases⟩ := @prepareTarget_cons gN info infos
  rw [hdest'] at he
  rw [htargets]
  obtain ⟨hsrc, rfl, hopen⟩ | ⟨-, rfl, hopen⟩ := hcases
  · -- the level is the source of the move that `prepare_target` is about
    obtain hnone | ⟨info', hmem, s, -, -, hdeep, hpending⟩ := @prepareTarget_pending gN infos
    · rw [hnone] at hsrc
      cases hsrc
    · rw [hpending] at hsrc ⊢
      cases hsrc
      have hoffers := (List.pairwise_cons.1 h.offers).1 info' hmem hdeep
      obtain rfl | ⟨rfl, hlevel, hempty⟩ := hopen
      · obtain ⟨b, blocks, hevict, hb, hmoved⟩ := moved_take he.write (he.held.2 rfl) hoffers
        exact ⟨_, _, blocks, rfl, hevict, entering_some hb _, hmoved⟩
      · obtain ⟨w, hw, hwdest⟩ := he.holds
        obtain ⟨k, d, hk, hslot, hd⟩ := exists_targetPosition hlevel hempty
        obtain ⟨b, blocks, hevict, hb, hmoved⟩ := moved_swap hw hwdest hk hslot hd hoffers
        exact ⟨_, _, blocks, rfl, hevict, entering_some hb _, hmoved⟩
  · obtain rfl | ⟨hrest, rfl, hlevel, hempty⟩ := hopen
    · -- the block that is held, if any, is for a level further down
      have hpass : e.held = none ∨ e.dest ≠ some info.level := by
        obtain hnone | ⟨info', hmem, s, -, -, -, hpending⟩ := @prepareTarget_pending gN infos
        · exact .inl (he.held.2 (by rw [hnone]))
        · rw [hpending] at he
          obtain ⟨w, -, hwdest⟩ := he.holds
          have hlt := (List.pairwise_cons.1 h.sorted).1 info' hmem
          rw [hwdest]
          exact .inr fun heq => Nat.ne_of_gt hlt (Option.some.inj heq)
      obtain ⟨hevict, hmoved⟩ := moved_idle he.write hpass
      exact ⟨_, _, _, rfl, hevict, he, hmoved⟩
    · obtain ⟨w, hw, hwdest⟩ := he.holds
      obtain ⟨k, d, hk, hslot, hd⟩ := exists_targetPosition hlevel hempty
      obtain ⟨hevict, hmoved⟩ := moved_put hw hwdest hk hslot hd
      exact ⟨_, _, _, rfl, hevict, ⟨rfl, by simp [hrest], by simp [hrest], by simp⟩, hmoved⟩

/-- **The levels from one on.** Together with the block that is held nothing is lost. -/
theorem mem_evictOnceFast {infos : List LevelInfo} {e : EvictRegs} (h : Planned D gN leaf infos)
    (he : Entering gN e (prepareTarget gN infos).2.2) {b : OramBlock} (hb : ¬b.IsDummy gN) :
    (∃ blocks ∈ evictOnceFast gN e infos (prepareTarget gN infos).1, b ∈ blocks) ↔
      e.held = some b ∨ ∃ info ∈ infos, b ∈ info.blocks := by
  induction infos generalizing e with
  | nil =>
      have hheld : e.held = none := he.held.2 rfl
      simp [evictOnceFast, hheld]
  | cons info infos ih =>
      obtain ⟨target, e', blocks, htargets, hevict, he', hmoved⟩ := evictLevel_spec h he
      have hlevel := hmoved.mem_iff b hb
      rw [htargets, evictOnceFast, hevict]
      simp only [List.mem_cons, exists_eq_or_imp]
      rw [ih h.tail he', ← or_assoc, hlevel]
      tauto

/-- A real block on a level was there before, was held for it, or comes from further up and fits. -/
theorem placed_evictOnceFast {infos : List LevelInfo} {e : EvictRegs} (h : Planned D gN leaf infos)
    (he : Entering gN e (prepareTarget gN infos).2.2) {t : Nat} {info : LevelInfo}
    {blocks : List OramBlock} (hinfo : infos[t]? = some info)
    (hblocks : (evictOnceFast gN e infos (prepareTarget gN infos).1)[t]? = some blocks)
    {b : OramBlock} (hmem : b ∈ blocks) (hb : ¬b.IsDummy gN) :
    b ∈ info.blocks ∨ e.held = some b ∧ e.dest = some info.level ∨
      b.Fits D leaf info.level ∧ ∃ info' ∈ infos, info'.level < info.level ∧ b ∈ info'.blocks := by
  induction infos generalizing e t with
  | nil => cases hinfo
  | cons info₀ infos ih =>
      obtain ⟨target, e', blocks₀, htargets, hevict, he', hmoved⟩ := evictLevel_spec h he
      rw [htargets, evictOnceFast, hevict] at hblocks
      cases t with
      | zero =>
          cases hinfo
          cases hblocks
          exact (hmoved.mem b hmem hb).imp_right .inl
      | succ t =>
          have hlt := (List.pairwise_cons.1 h.sorted).1 info (List.mem_of_getElem? hinfo)
          obtain hold | ⟨hheld, hdest⟩ | ⟨hfits, info', hmem', hup⟩ := ih h.tail he' hinfo hblocks
          · exact .inl hold
          · -- the block was carried here, from the first level or from before it
            obtain ⟨hsame, hdest'⟩ | ⟨hfrom, t', ht', hfits⟩ := hmoved.held b hheld
            · exact .inr (.inl ⟨hsame, hdest'.trans hdest⟩)
            · rw [hdest] at ht'
              cases ht'
              exact .inr (.inr ⟨hfits, info₀, List.mem_cons_self, hlt, hfrom⟩)
          · exact .inr (.inr ⟨hfits, info', List.mem_cons_of_mem _ hmem', hup⟩)

theorem length_evictOnceFast {infos : List LevelInfo} {targets : List (Option Nat)}
    (h : targets.length = infos.length) (e : EvictRegs) :
    (evictOnceFast gN e infos targets).length = infos.length := by
  induction infos generalizing targets e with
  | nil => rw [evictOnceFast] <;> simp
  | cons info infos ih =>
      cases targets with
      | nil => simp at h
      | cons target targets =>
          rw [evictOnceFast, List.length_cons, List.length_cons, ih (by simpa using h)]

/-! ## The three passes together -/

section
variable (D gN leaf) (levels : List (List OramBlock))

/-- The levels with what `prepare_deepest` finds out. -/
def levelInfos : List LevelInfo := prepareDeepest D gN leaf 0 ⟨0, none, none, none, 0⟩ levels

theorem planned_levelInfos : Planned D gN leaf (levelInfos D gN leaf levels) :=
  (prepareDeepest_spec (fun g hg => by cases hg) (fun s hs => by cases hs) levels).1

theorem map_blocks_levelInfos : (levelInfos D gN leaf levels).map (·.blocks) = levels :=
  map_blocks_prepareDeepest 0 _ levels

theorem length_levelInfos : (levelInfos D gN leaf levels).length = levels.length := by
  have h := congrArg List.length (map_blocks_levelInfos D gN leaf levels)
  rwa [List.length_map] at h

/-- At the stash `prepare_target` waits for nothing more. -/
theorem entering_levelInfos :
    Entering gN ⟨none, none, none⟩ (prepareTarget gN (levelInfos D gN leaf levels)).2.2 := by
  have hplanned := planned_levelInfos D gN leaf levels
  obtain hnone | ⟨info, hmem, s, -, -, hdeep, hpending⟩ :=
    @prepareTarget_pending gN (levelInfos D gN leaf levels)
  · rw [hnone]
    exact ⟨rfl, by simp, by simp, by simp⟩
  · -- the source is a level before `info`, but it is none of the levels
    obtain ⟨t, ht⟩ := List.mem_iff_getElem?.1 hmem
    obtain ⟨hlevel, -⟩ := getElem?_prepareDeepest ht
    have hlt := hplanned.deepest_lt info hmem s hdeep
    obtain ⟨hbound, -⟩ := List.getElem?_eq_some_iff.1 ht
    have hs := List.getElem?_eq_getElem (show s < (levelInfos D gN leaf levels).length by omega)
    obtain ⟨hlevels, -⟩ := getElem?_prepareDeepest hs
    exact absurd (hlevels.trans (Nat.zero_add s))
      (prepareTarget_src_ne hplanned (by rw [hpending]) _ (List.mem_of_getElem? hs))

theorem length_evictLevels : (evictLevels D gN leaf levels).length = levels.length := by
  rw [evictLevels, length_evictOnceFast (length_prepareTarget _)]
  exact length_levelInfos D gN leaf levels

variable {D gN leaf levels} {b : OramBlock}

/-- **No block is lost or made up.** -/
theorem mem_evictLevels (hb : ¬b.IsDummy gN) :
    (∃ blocks ∈ evictLevels D gN leaf levels, b ∈ blocks) ↔ ∃ blocks ∈ levels, b ∈ blocks := by
  have hspec := mem_evictOnceFast (planned_levelInfos D gN leaf levels)
    (entering_levelInfos D gN leaf levels) hb
  refine hspec.trans ?_
  conv_rhs => rw [← map_blocks_levelInfos D gN leaf levels]
  simp

/-- **Blocks stay or move down**, to where they fit. -/
theorem placed_evictLevels {t : Nat} {blocks blocks' : List OramBlock}
    (h : levels[t]? = some blocks) (h' : (evictLevels D gN leaf levels)[t]? = some blocks')
    (hmem : b ∈ blocks') (hb : ¬b.IsDummy gN) :
    b ∈ blocks ∨ b.Fits D leaf t ∧ ∃ s < t, ∃ above, levels[s]? = some above ∧ b ∈ above := by
  obtain ⟨hlt, -⟩ := List.getElem?_eq_some_iff.1 h
  rw [← length_levelInfos D gN leaf levels] at hlt
  have hinfo := List.getElem?_eq_getElem hlt
  obtain ⟨hlevel, hblocks⟩ := getElem?_prepareDeepest hinfo
  rw [h] at hblocks
  obtain hold | ⟨hheld, -⟩ | ⟨hfits, info', hmem', hup, hfrom⟩ :=
    placed_evictOnceFast (planned_levelInfos D gN leaf levels)
      (entering_levelInfos D gN leaf levels) hinfo h' hmem hb
  · exact .inl (Option.some.inj hblocks ▸ hold)
  · cases hheld
  · obtain ⟨s, hs⟩ := List.mem_iff_getElem?.1 hmem'
    obtain ⟨hlevel', hblocks'⟩ := getElem?_prepareDeepest hs
    rw [hlevel, Nat.zero_add] at hfits hup
    rw [hlevel', Nat.zero_add] at hup
    exact .inr ⟨hfits, s, hup, _, hblocks', hfrom⟩

end

end DeSearch
