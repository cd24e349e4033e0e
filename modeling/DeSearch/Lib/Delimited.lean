import DeSearch.Lib.Multimap

/-!
# Delimiter-based formats

Two ways to flatten nested lists with a delimiter `z`, and the loops that read them back.

* `terminate` writes each segment followed by `z`. `segments` reads them back through a scratch
  buffer of `limit` cells, one of which must stay free for the delimiter's sake.
* `records` writes a key, its values, and `z`. The key may be `z` itself: `pairs` knows that the
  first cell of a record is a key.
-/

namespace Delimited

variable {α : Type*} (z : α)

/-- Each segment followed by the delimiter. -/
def terminate (xs : List (List α)) : List α := xs.flatMap (· ++ [z])

/-- Each key, then its values, then the delimiter. -/
def records (rs : List (α × List α)) : List α := rs.flatMap fun r => r.1 :: r.2 ++ [z]

variable {z}

@[simp] theorem terminate_nil : terminate z [] = [] := rfl

theorem terminate_cons (x : List α) (xs : List (List α)) :
    terminate z (x :: xs) = x ++ z :: terminate z xs := by
  simp [terminate]

theorem records_cons (k : α) (vs : List α) (rs : List (α × List α)) :
    records z ((k, vs) :: rs) = k :: (vs ++ z :: records z rs) := by
  simp [records]

/-! ## Terminated segments -/

variable [DecidableEq α] (z)

/-- Cut a list at each delimiter, dropping a last piece without one. `cur` is the segment being
collected; there is no result when it does not leave room in a buffer of `limit` cells. -/
def segments (limit : Nat) (cur : List α) : List α → Option (List (List α))
  | [] => some []
  | a :: s =>
      if cur.length < limit then
        if a = z then (segments limit [] s).map (cur :: ·) else segments limit (cur ++ [a]) s
      else none

variable {z} {limit : Nat}

theorem segments_segment {cur x s : List α} (hx : z ∉ x) (hlen : (cur ++ x).length < limit) :
    segments z limit cur (x ++ z :: s) = (segments z limit [] s).map ((cur ++ x) :: ·) := by
  induction x generalizing cur with
  | nil =>
      rw [List.append_nil] at hlen ⊢
      simp [segments, hlen]
  | cons a x ih =>
      rw [List.mem_cons, not_or] at hx
      have hcur : cur.length < limit := by
        rw [List.length_append, List.length_cons] at hlen
        omega
      rw [List.cons_append, segments, if_pos hcur, if_neg (Ne.symm hx.1),
        ih hx.2 (by simpa using hlen)]
      simp

/-- **Round trip.** Segments without the delimiter that fit the buffer are read back, whatever
follows them. -/
theorem segments_terminate {xs : List (List α)} (hz : ∀ x ∈ xs, z ∉ x)
    (hlen : ∀ x ∈ xs, x.length < limit) (s : List α) :
    segments z limit [] (terminate z xs ++ s) = (segments z limit [] s).map (xs ++ ·) := by
  induction xs with
  | nil => simp
  | cons x xs ih =>
      rw [List.forall_mem_cons] at hz hlen
      have hx : segments z limit [] (x ++ z :: (terminate z xs ++ s)) = _ :=
        segments_segment hz.1 (by simpa using hlen.1)
      rw [terminate_cons, List.append_assoc, List.cons_append, hx, ih hz.2 hlen.2]
      simp [Function.comp_def]

theorem segments_terminate_self {xs : List (List α)} (hz : ∀ x ∈ xs, z ∉ x)
    (hlen : ∀ x ∈ xs, x.length < limit) : segments z limit [] (terminate z xs) = some xs := by
  simpa [segments] using segments_terminate hz hlen []

theorem segments_overrun {cur x s : List α} (hcur : cur.length ≤ limit) (hx : z ∉ x)
    (hlen : limit ≤ (cur ++ x).length) : segments z limit cur (x ++ z :: s) = none := by
  induction x generalizing cur with
  | nil =>
      rw [List.append_nil] at hlen
      rw [List.nil_append, segments, if_neg (by omega)]
  | cons a x ih =>
      rw [List.mem_cons, not_or] at hx
      rw [List.cons_append, segments]
      split_ifs with hlt ha
      · exact absurd ha.symm hx.1
      · exact ih (by simpa using Nat.succ_le_of_lt hlt) hx.2 (by simpa using hlen)
      · rfl

/-- A segment that fills the buffer leaves nothing to read. -/
theorem segments_terminate_overrun {xs : List (List α)} (hz : ∀ x ∈ xs, z ∉ x) {x : List α}
    (hx : x ∈ xs) (hlen : limit ≤ x.length) : segments z limit [] (terminate z xs) = none := by
  induction xs with
  | nil => exact absurd hx List.not_mem_nil
  | cons y xs ih =>
      rw [List.forall_mem_cons] at hz
      rw [terminate_cons]
      by_cases hy : y.length < limit
      · have hmem : x ∈ xs := (List.mem_cons.1 hx).resolve_left fun h => by
          subst h
          omega
        rw [segments_segment hz.1 (by simpa using hy), ih hz.2 hmem]
        rfl
      · exact segments_overrun (Nat.zero_le _) hz.1 (by simpa using hy)

/-- Whatever is read back is free of the delimiter. -/
theorem not_mem_of_segments {cur s : List α} {xs : List (List α)} (hcur : z ∉ cur)
    (h : segments z limit cur s = some xs) : ∀ x ∈ xs, z ∉ x := by
  induction s generalizing cur xs with
  | nil =>
      obtain rfl : [] = xs := by simpa [segments] using h
      simp
  | cons a s ih =>
      rw [segments] at h
      split_ifs at h with hlen ha
      · obtain ⟨ys, hys, rfl⟩ := Option.map_eq_some_iff.1 h
        exact List.forall_mem_cons.2 ⟨hcur, ih List.not_mem_nil hys⟩
      · exact ih (by simp [hcur, Ne.symm ha]) h

/-- There is no room exactly when as many cells as the buffer has stand in a row without a
delimiter and something follows. -/
theorem segments_eq_none_iff {cur s : List α} (hz : z ∉ cur) (hcur : cur.length ≤ limit) :
    segments z limit cur s = none ↔
      ∃ pre run c post, cur ++ s = pre ++ run ++ c :: post ∧ z ∉ run ∧ limit ≤ run.length := by
  induction s generalizing cur with
  | nil =>
      simp only [segments, reduceCtorEq, false_iff]
      rintro ⟨pre, run, c, post, heq, -, hlen⟩
      have := congrArg List.length heq
      simp only [List.length_append, List.length_cons, List.length_nil] at this
      omega
  | cons a s ih =>
      rw [segments]
      split_ifs with hlt ha
      · subst ha
        rw [Option.map_eq_none_iff, ih List.not_mem_nil (Nat.zero_le _)]
        constructor
        · rintro ⟨pre, run, c, post, heq, hrun, hlen⟩
          rw [List.nil_append] at heq
          exact ⟨cur ++ a :: pre, run, c, post, by simp [heq], hrun, hlen⟩
        · rintro ⟨pre, run, c, post, heq, hrun, hlen⟩
          -- the run starts behind the delimiter: what is before is too short for it
          rw [List.append_assoc, List.append_eq_append_iff] at heq
          obtain ⟨as, rfl, heq⟩ | ⟨bs, rfl, heq⟩ := heq
          · cases as with
            | nil =>
                cases run with
                | nil => exact absurd (Nat.lt_of_lt_of_le hlt hlen) (Nat.not_lt_zero _)
                | cons b run => exact absurd (List.cons.inj heq).1 fun h => hrun (by simp [h])
            | cons b as =>
                exact ⟨as, run, c, post, by simpa using (List.cons.inj heq).2, hrun, hlen⟩
          · obtain ⟨as, rfl, -⟩ | ⟨bs', rfl, hrest⟩ := List.append_eq_append_iff.1 heq
            · simp only [List.length_append] at hlt
              omega
            · cases bs' with
              | nil =>
                  simp only [List.length_append, List.length_nil] at hlt hlen
                  omega
              | cons b bs' => exact absurd (List.cons.inj hrest).1 fun h => hrun (by simp [h])
      · rw [ih (by simp [hz, Ne.symm ha]) (by simpa using Nat.succ_le_of_lt hlt),
          List.append_assoc]
        rfl
      · refine iff_of_true rfl ⟨[], cur, a, s, rfl, hz, by omega⟩

/-! ## Keyed records -/

variable (z)

/-- The (key, value) pairs a run of records spells. The state is the key of the record being
read, or nothing at the start of a record. -/
def pairs : Option α → List α → List (α × α)
  | _, [] => []
  | none, k :: s => pairs (some k) s
  | some k, v :: s => if v = z then pairs none s else (k, v) :: pairs (some k) s

variable {z}

theorem pairs_values {k : α} {vs : List α} (h : z ∉ vs) (s : List α) :
    pairs z (some k) (vs ++ z :: s) = vs.map (k, ·) ++ pairs z none s := by
  induction vs with
  | nil => simp [pairs]
  | cons v vs ih =>
      rw [List.mem_cons, not_or] at h
      rw [List.cons_append, pairs, if_neg (Ne.symm h.1), ih h.2]
      rfl

/-- A delimiter is never a value. -/
theorem ne_of_mem_pairs {k : Option α} {s : List α} : ∀ p ∈ pairs z k s, p.2 ≠ z := by
  induction s generalizing k with
  | nil => simp [pairs]
  | cons v s ih =>
      cases k with
      | none => exact ih
      | some k =>
          rw [pairs]
          split_ifs with hv
          · exact ih
          · exact List.forall_mem_cons.2 ⟨hv, ih⟩

theorem length_pairs_le (k : Option α) (s : List α) : (pairs z k s).length ≤ s.length := by
  induction s generalizing k with
  | nil => simp [pairs]
  | cons v s ih =>
      cases k with
      | none => exact Nat.le_succ_of_le (ih _)
      | some k =>
          rw [pairs]
          split_ifs
          · exact Nat.le_succ_of_le (ih _)
          · exact Nat.succ_le_succ (ih _)

/-- **Round trip.** Records whose values avoid the delimiter spell the pushes that build them. -/
theorem pairs_records {rs : List (α × List α)} (h : ∀ r ∈ rs, z ∉ r.2) :
    pairs z none (records z rs) = Multimap.pushesOf rs := by
  induction rs with
  | nil => rfl
  | cons r rs ih =>
      obtain ⟨k, vs⟩ := r
      rw [List.forall_mem_cons] at h
      rw [records_cons, pairs, pairs_values h.1, ih h.2]
      rfl

end Delimited
