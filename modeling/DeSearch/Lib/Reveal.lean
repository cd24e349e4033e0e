import Mathlib.Data.Fintype.Pi
import Mathlib.Logic.Equiv.Fintype

/-!
# Tables that are looked up and sampled anew

A table is looked up for one key after the other. Each look-up reveals the entry and replaces it by
a label made of a fresh sample. So a sample is revealed at most once, by the next look-up of the
same key (`Feeds`), and what is revealed does not depend on the keys beyond that: if two sequences
of keys reveal samples at the same places, a permutation of the samples takes what one of them
reveals to what the other one reveals.
-/

namespace Reveal

variable {κ Ω L : Type*}

/-! ## Which sample a look-up reveals -/

section
variable {ks : List κ}

/-- The sample that is drawn at `j` is revealed at `i`. -/
def Feeds (ks : List κ) (j i : ℕ) : Prop :=
  j < i ∧ i < ks.length ∧ ks[j]? = ks[i]? ∧ ∀ m, j < m → m < i → ks[m]? ≠ ks[i]?

theorem Feeds.lt_length {i j : ℕ} (h : Feeds ks j i) : j < ks.length := h.1.trans h.2.1

/-- A look-up reveals one sample. -/
theorem Feeds.left_unique {i j j' : ℕ} (h : Feeds ks j i) (h' : Feeds ks j' i) : j = j' := by
  obtain ⟨hlt, -, heq, hbetween⟩ := h
  obtain ⟨hlt', -, heq', hbetween'⟩ := h'
  by_contra hne
  obtain hjj | hjj := Nat.lt_or_gt_of_ne hne
  · exact hbetween j' hjj hlt' heq'
  · exact hbetween' j hjj hlt heq

/-- A sample is revealed once. -/
theorem Feeds.right_unique {i i' j : ℕ} (h : Feeds ks j i) (h' : Feeds ks j i') : i = i' := by
  obtain ⟨hlt, -, heq, hbetween⟩ := h
  obtain ⟨hlt', -, heq', hbetween'⟩ := h'
  by_contra hne
  obtain hii | hii := Nat.lt_or_gt_of_ne hne
  · exact hbetween' i hlt hii (heq.symm.trans heq')
  · exact hbetween i' hlt' hii (heq'.symm.trans heq)

/-- A key that was looked up before has a look-up that feeds this one. -/
theorem exists_feeds {i j : ℕ} (hj : j < i) (hi : i < ks.length) (h : ks[j]? = ks[i]?) :
    ∃ j', Feeds ks j' i := by
  classical
  let P : ℕ → Prop := fun m => m < i ∧ ks[m]? = ks[i]?
  have hP : P (Nat.findGreatest P i) := Nat.findGreatest_spec (le_of_lt hj) ⟨hj, h⟩
  refine ⟨Nat.findGreatest P i, hP.1, hi, hP.2, ?_⟩
  intro m hm hmi heq
  exact absurd (Nat.le_findGreatest (le_of_lt hmi) ⟨hmi, heq⟩) (Nat.not_le.2 hm)

end

/-! ## Look-ups -/

variable [DecidableEq κ] (label : κ → Ω → L)

/-- What the look-ups reveal. The `i`-th of them takes the `i`-th sample. -/
def trace (table : κ → L) : List κ → (ℕ → Ω) → List L
  | [], _ => []
  | k :: ks, tape =>
      table k :: trace (Function.update table k (label k (tape 0))) ks fun i => tape (i + 1)

/-- The table after the look-ups. -/
def final (table : κ → L) : List κ → (ℕ → Ω) → κ → L
  | [], _ => table
  | k :: ks, tape => final (Function.update table k (label k (tape 0))) ks fun i => tape (i + 1)

variable {label} {table : κ → L} {ks ks' : List κ} {tape : ℕ → Ω}

theorem length_trace : (trace label table ks tape).length = ks.length := by
  induction ks generalizing table tape with
  | nil => rfl
  | cons k ks ih => rw [trace, List.length_cons, ih, List.length_cons]

theorem trace_append : trace label table (ks ++ ks') tape =
    trace label table ks tape ++
      trace label (final label table ks tape) ks' fun i => tape (ks.length + i) := by
  induction ks generalizing table tape with
  | nil => simp [trace, final]
  | cons k ks ih =>
      rw [List.cons_append, trace, ih, trace, final, List.cons_append, List.length_cons]
      simp only [Nat.add_right_comm]

theorem final_append_singleton (k : κ) : final label table (ks ++ [k]) tape =
    Function.update (final label table ks tape) k (label k (tape ks.length)) := by
  induction ks generalizing table tape with
  | nil => rfl
  | cons k' ks ih =>
      rw [List.cons_append, final, ih, final]
      rfl

theorem final_of_last {k : κ} {j : ℕ} (hj : ks[j]? = some k)
    (hlast : ∀ m, j < m → ks[m]? ≠ some k) : final label table ks tape k = label k (tape j) := by
  induction ks using List.reverseRecOn with
  | nil => simp at hj
  | append_singleton ks k' ih =>
      rw [final_append_singleton]
      by_cases hk : k = k'
      · subst hk
        have hlen : j = ks.length := by
          by_contra hne
          have hlt := (List.getElem?_eq_some_iff.1 hj).1
          rw [List.length_append, List.length_singleton] at hlt
          exact hlast ks.length (by omega) (by simp)
        rw [hlen, Function.update_self]
      · have hlt : j < ks.length := by
          by_contra hge
          have hlt := (List.getElem?_eq_some_iff.1 hj).1
          rw [List.length_append, List.length_singleton] at hlt
          obtain rfl : j = ks.length := by omega
          simp at hj
          exact hk hj.symm
        rw [List.getElem?_append_left hlt] at hj
        rw [Function.update_of_ne hk]
        apply ih hj
        intro m hm heq
        apply hlast m hm
        rw [List.getElem?_append_left (List.getElem?_eq_some_iff.1 heq).1, heq]

theorem final_of_not_mem {k : κ} (h : k ∉ ks) : final label table ks tape k = table k := by
  induction ks generalizing table tape with
  | nil => rfl
  | cons k' ks ih =>
      rw [List.mem_cons, not_or] at h
      rw [final, ih h.2, Function.update_of_ne h.1]

/-- What a look-up reveals is the table after those before it. -/
theorem getElem?_trace {i : ℕ} {k : κ} (hk : ks[i]? = some k) :
    (trace label table ks tape)[i]? = some (final label table (ks.take i) tape k) := by
  obtain ⟨hlt, hget⟩ := List.getElem?_eq_some_iff.1 hk
  have hsplit : ks = ks.take i ++ k :: ks.drop (i + 1) := by
    rw [← hget, ← List.drop_eq_getElem_cons hlt, List.take_append_drop]
  have hlen : (trace label table (ks.take i) tape).length = i := by
    rw [length_trace, List.length_take, Nat.min_eq_left (le_of_lt hlt)]
  conv_lhs => rw [hsplit, trace_append]
  rw [List.getElem?_append_right hlen.le, hlen, Nat.sub_self]
  rfl

theorem getElem?_trace_of_feeds {i j : ℕ} {k : κ} (hk : ks[i]? = some k) (h : Feeds ks j i) :
    (trace label table ks tape)[i]? = some (label k (tape j)) := by
  obtain ⟨hlt, -, heq, hbetween⟩ := h
  rw [getElem?_trace hk]
  refine congrArg some (final_of_last ?_ ?_)
  · rw [List.getElem?_take_of_lt hlt, heq, hk]
  · intro m hm hmk
    have hmi : m < i := by
      have hlt := (List.getElem?_eq_some_iff.1 hmk).1
      rw [List.length_take] at hlt
      omega
    rw [List.getElem?_take_of_lt hmi] at hmk
    exact hbetween m hm hmi (hmk.trans hk.symm)

theorem getElem?_trace_of_first {i : ℕ} {k : κ} (hk : ks[i]? = some k)
    (h : ¬∃ j, Feeds ks j i) : (trace label table ks tape)[i]? = some (table k) := by
  rw [getElem?_trace hk]
  refine congrArg some (final_of_not_mem ?_)
  intro hmem
  obtain ⟨j, hj⟩ := List.mem_iff_getElem?.1 hmem
  have hji : j < i := by
    have hlt := (List.getElem?_eq_some_iff.1 hj).1
    rw [List.length_take] at hlt
    omega
  rw [List.getElem?_take_of_lt hji] at hj
  exact h (exists_feeds hji (List.getElem?_eq_some_iff.1 hk).1 (hj.trans hk.symm))

/-! ## Two sequences of keys -/

section
variable {κ : Type*} {ks ks' : List κ}

/-- The same look-ups reveal samples, and the others have the same key. -/
structure Alike (ks ks' : List κ) : Prop where
  length : ks.length = ks'.length
  feeds : ∀ i, (∃ j, Feeds ks j i) ↔ ∃ j, Feeds ks' j i
  first : ∀ i, (¬∃ j, Feeds ks j i) → ks[i]? = ks'[i]?

theorem Feeds.append {i j : ℕ} (h : Feeds ks j i) (rest : List κ) : Feeds (ks ++ rest) j i := by
  obtain ⟨hlt, hi, heq, hbetween⟩ := h
  refine ⟨hlt, by rw [List.length_append]; omega, ?_, ?_⟩
  · rwa [List.getElem?_append_left (hlt.trans hi), List.getElem?_append_left hi]
  · intro m hm hmi
    rw [List.getElem?_append_left (hmi.trans hi), List.getElem?_append_left hi]
    exact hbetween m hm hmi

theorem Feeds.of_append {i j : ℕ} {rest : List κ} (h : Feeds (ks ++ rest) j i)
    (hi : i < ks.length) : Feeds ks j i := by
  obtain ⟨hlt, -, heq, hbetween⟩ := h
  refine ⟨hlt, hi, ?_, ?_⟩
  · rwa [List.getElem?_append_left (hlt.trans hi), List.getElem?_append_left hi] at heq
  · intro m hm hmi
    have hne := hbetween m hm hmi
    rwa [List.getElem?_append_left (hmi.trans hi), List.getElem?_append_left hi] at hne

/-- A key of the first part that is looked up again is fed. -/
theorem exists_feeds_append {i : ℕ} {rest : List κ} (hrest : ∀ k ∈ rest, k ∈ ks)
    (hi : ks.length ≤ i) (hlt : i < (ks ++ rest).length) : ∃ j, Feeds (ks ++ rest) j i := by
  have hget : (ks ++ rest)[i]? = rest[i - ks.length]? := List.getElem?_append_right hi
  have hrange : i - ks.length < rest.length := by
    rw [List.length_append] at hlt
    omega
  obtain ⟨j, hj⟩ := List.mem_iff_getElem?.1 (hrest _ (List.getElem_mem hrange))
  have hjlt := (List.getElem?_eq_some_iff.1 hj).1
  apply exists_feeds (hjlt.trans_le hi) hlt
  rw [hget, List.getElem?_append_left hjlt, hj, List.getElem?_eq_getElem hrange]

/-- After a common first part, two sequences of keys from there. -/
theorem alike_append {fill ks ks' : List κ} (hlen : ks.length = ks'.length)
    (h : ∀ k ∈ ks, k ∈ fill) (h' : ∀ k ∈ ks', k ∈ fill) : Alike (fill ++ ks) (fill ++ ks') := by
  have hlen' : (fill ++ ks).length = (fill ++ ks').length := by
    rw [List.length_append, List.length_append, hlen]
  have hfeeds {ks ks' : List κ} (hlen' : (fill ++ ks).length = (fill ++ ks').length)
      (h' : ∀ k ∈ ks', k ∈ fill) {i j : ℕ} (hji : Feeds (fill ++ ks) j i) :
      ∃ j, Feeds (fill ++ ks') j i := by
    by_cases hi : i < fill.length
    · exact ⟨j, (hji.of_append hi).append ks'⟩
    · exact exists_feeds_append h' (Nat.not_lt.1 hi) (hlen' ▸ hji.2.1)
  refine ⟨hlen', fun i => ⟨?_, ?_⟩, ?_⟩
  · intro hex
    obtain ⟨j, hji⟩ := hex
    exact hfeeds hlen' h' hji
  · intro hex
    obtain ⟨j, hji⟩ := hex
    exact hfeeds hlen'.symm h hji
  · intro i hnone
    by_cases hi : i < fill.length
    · rw [List.getElem?_append_left hi, List.getElem?_append_left hi]
    · have hout : (fill ++ ks).length ≤ i := by
        by_contra hlt
        exact hnone (exists_feeds_append h (Nat.not_lt.1 hi) (Nat.not_le.1 hlt))
      rw [List.getElem?_eq_none hout, List.getElem?_eq_none (hlen' ▸ hout)]

/-- A sample of one sequence goes to the place where the other one draws the sample that it reveals
at the same time. -/
theorem Alike.exists_perm (h : Alike ks ks') :
    ∃ π : Equiv.Perm (Fin ks.length), ∀ (j : Fin ks.length) (i : ℕ), Feeds ks j i →
      Feeds ks' (π j) i := by
  classical
  let P : Fin ks.length → Prop := fun j => ∃ i, Feeds ks j i
  let Q : Fin ks.length → Prop := fun j => ∃ i, Feeds ks' j i
  have hto : ∀ j : {j // P j}, ∃ j' : {j // Q j}, ∀ i, Feeds ks j.1 i → Feeds ks' j'.1 i := by
    intro j
    obtain ⟨i, hji⟩ := j.2
    obtain ⟨j', hj'⟩ := (h.feeds i).1 ⟨j, hji⟩
    refine ⟨⟨⟨j', h.length ▸ hj'.lt_length⟩, i, hj'⟩, ?_⟩
    intro i' hi'
    exact hji.right_unique hi' ▸ hj'
  choose f hf using hto
  have hbij : Function.Bijective f := by
    constructor
    · intro a b hab
      obtain ⟨i, hi⟩ := a.2
      obtain ⟨i', hi'⟩ := b.2
      have ha := hf a i hi
      rw [hab] at ha
      obtain rfl := ha.right_unique (hf b i' hi')
      exact Subtype.ext (Fin.ext (hi.left_unique hi'))
    · intro b
      obtain ⟨i, hi⟩ := b.2
      obtain ⟨j, hj⟩ := (h.feeds i).2 ⟨b.1, hi⟩
      refine ⟨⟨⟨j, hj.lt_length⟩, i, hj⟩, Subtype.ext (Fin.ext ?_)⟩
      exact (hf ⟨⟨j, hj.lt_length⟩, i, hj⟩ i hj).left_unique hi
  refine ⟨(Equiv.ofBijective f hbij).extendSubtype, ?_⟩
  intro j i hji
  have hj : P j := ⟨i, hji⟩
  rw [Equiv.extendSubtype_apply_of_mem _ _ hj]
  exact hf ⟨j, hj⟩ i hji

end

/-- **What is revealed** by one sequence is revealed by the other one, with the samples in another
order. -/
theorem Alike.exists_trace_eq (h : Alike ks ks')
    (hlabel : ∀ (i : ℕ) (k k' : κ), ks[i]? = some k → ks'[i]? = some k' → label k = label k') :
    ∃ π : Equiv.Perm (Fin ks.length), ∀ (table : κ → L) (tape tape' : ℕ → Ω),
      (∀ j : Fin ks.length, tape' (π j) = tape j) →
        trace label table ks tape = trace label table ks' tape' := by
  obtain ⟨π, hπ⟩ := h.exists_perm
  refine ⟨π, fun table tape tape' htape => List.ext_getElem? fun i => ?_⟩
  by_cases hi : i < ks.length
  · have hk := List.getElem?_eq_getElem hi
    by_cases hfed : ∃ j, Feeds ks j i
    · obtain ⟨j, hji⟩ := hfed
      have hji' := hπ ⟨j, hji.lt_length⟩ i hji
      have hk' := List.getElem?_eq_getElem (h.length ▸ hi : i < ks'.length)
      rw [getElem?_trace_of_feeds hk hji, getElem?_trace_of_feeds hk' hji',
        hlabel i _ _ hk hk', htape ⟨j, hji.lt_length⟩]
    · have hk' := (h.first i hfed).symm.trans hk
      rw [getElem?_trace_of_first hk hfed,
        getElem?_trace_of_first hk' fun hex => hfed ((h.feeds i).2 hex)]
  · have hout := Nat.not_lt.1 hi
    rw [List.getElem?_eq_none (length_trace.le.trans hout),
      List.getElem?_eq_none (length_trace.le.trans (h.length ▸ hout))]

end Reveal
