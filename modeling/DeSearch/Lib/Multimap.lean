import DeSearch.Lib.Counting
import Mathlib.Data.List.Nodup
import Mathlib.Data.List.Perm.Basic

/-!
# Hash maps from keys to lists

A map from keys to lists of values, as `std::unordered_map<K, std::vector<V>>` holds it: a list of
entries in some order, no key twice. Reading a missing key gives the empty list. Two maps are the
same map when they agree on every key (`get?`), whatever the order of their entries.

The main rule is `find_pushAll`: a map built by pushing values one at a time holds, under each
key, the values pushed for that key in the order of the pushes.
-/

variable {κ ν : Type*}

/-- A map from keys to lists, as a list of entries without a repeated key. -/
structure Multimap (κ ν : Type*) where
  entries : List (κ × List ν)
  nodup : (entries.map Prod.fst).Nodup
deriving DecidableEq

namespace Multimap

/-- The map without entries. -/
def empty : Multimap κ ν := ⟨[], List.nodup_nil⟩

variable [DecidableEq κ]

/-! ## Entry lists -/

/-- The first entry of a key. -/
def listGet? (k : κ) : List (κ × List ν) → Option (List ν)
  | [] => none
  | (k', vs) :: l => if k' = k then some vs else listGet? k l

/-- Change the list of one key, adding the key at the end if it is missing. -/
def listAlter (k : κ) (f : List ν → List ν) : List (κ × List ν) → List (κ × List ν)
  | [] => [(k, f [])]
  | (k', vs) :: l => if k' = k then (k', f vs) :: l else (k', vs) :: listAlter k f l

theorem mem_fst_listAlter {k k' : κ} {f : List ν → List ν} {l : List (κ × List ν)} :
    k' ∈ (listAlter k f l).map Prod.fst ↔ k' = k ∨ k' ∈ l.map Prod.fst := by
  induction l with
  | nil => simp [listAlter]
  | cons p l ih =>
      obtain ⟨k₀, vs⟩ := p
      rw [listAlter]
      split_ifs with h
      · subst h
        simp
      · rw [List.map_cons, List.mem_cons, ih, List.map_cons, List.mem_cons]
        tauto

theorem nodup_listAlter {k : κ} {f : List ν → List ν} {l : List (κ × List ν)}
    (h : (l.map Prod.fst).Nodup) : ((listAlter k f l).map Prod.fst).Nodup := by
  induction l with
  | nil => simp [listAlter]
  | cons p l ih =>
      obtain ⟨k₀, vs⟩ := p
      rw [List.map_cons, List.nodup_cons] at h
      rw [listAlter]
      split_ifs with hk
      · simpa using h
      · rw [List.map_cons, List.nodup_cons, mem_fst_listAlter]
        exact ⟨fun hmem => hmem.elim hk h.1, ih h.2⟩

theorem listGet?_listAlter (k k' : κ) (f : List ν → List ν) (l : List (κ × List ν)) :
    listGet? k' (listAlter k f l) =
      if k = k' then some (f ((listGet? k l).getD [])) else listGet? k' l := by
  induction l with
  | nil => simp [listAlter, listGet?]
  | cons p l ih =>
      obtain ⟨k₀, vs⟩ := p
      rw [listAlter]
      by_cases h₀ : k₀ = k
      · subst h₀
        by_cases hk : k₀ = k' <;> simp [listGet?, hk]
      · rw [if_neg h₀]
        by_cases hk : k₀ = k'
        · have : k ≠ k' := fun h => h₀ (hk.trans h.symm)
          simp [listGet?, hk, this]
        · simp [listGet?, hk, h₀, ih]

theorem listGet?_eq_some {k : κ} {vs : List ν} {l : List (κ × List ν)}
    (h : (l.map Prod.fst).Nodup) : listGet? k l = some vs ↔ (k, vs) ∈ l := by
  induction l with
  | nil => simp [listGet?]
  | cons p l ih =>
      obtain ⟨k₀, ws⟩ := p
      rw [List.map_cons, List.nodup_cons] at h
      by_cases hk : k₀ = k
      · subst hk
        have hnot : ∀ ws, (k₀, ws) ∉ l := fun ws hmem =>
          h.1 (List.mem_map.2 ⟨_, hmem, rfl⟩)
        simp [listGet?, hnot, eq_comm]
      · have : k ≠ k₀ := Ne.symm hk
        simp [listGet?, hk, ih h.2, this]

/-- Reading a key does not depend on the order of the entries. -/
theorem listGet?_perm {l l' : List (κ × List ν)} (hp : l.Perm l')
    (h : (l.map Prod.fst).Nodup) (k : κ) : listGet? k l = listGet? k l' := by
  have h' : (l'.map Prod.fst).Nodup := (hp.map Prod.fst).nodup_iff.1 h
  ext vs
  rw [listGet?_eq_some h, listGet?_eq_some h', hp.mem_iff]

theorem listGet?_filter (k k' : κ) (l : List (κ × List ν)) :
    listGet? k' (l.filter fun p => p.1 ≠ k) = if k = k' then none else listGet? k' l := by
  induction l with
  | nil => simp [listGet?]
  | cons p l ih =>
      obtain ⟨k₀, vs⟩ := p
      by_cases h₀ : k₀ = k
      · subst h₀
        rw [List.filter_cons_of_neg (by simp), ih]
        by_cases hk : k₀ = k' <;> simp [hk, listGet?]
      · rw [List.filter_cons_of_pos (by simpa using h₀)]
        by_cases hk : k₀ = k'
        · have : k ≠ k' := fun h => h₀ (hk.trans h.symm)
          simp [listGet?, hk, this]
        · rw [listGet?, if_neg hk, ih, listGet?, if_neg hk]

/-! ## Maps -/

/-- `m.find(k)`. -/
def get? (m : Multimap κ ν) (k : κ) : Option (List ν) := listGet? k m.entries

/-- `m[k]`, as a value. -/
def find (m : Multimap κ ν) (k : κ) : List ν := (m.get? k).getD []

/-- Change the list of one key. -/
def alter (m : Multimap κ ν) (k : κ) (f : List ν → List ν) : Multimap κ ν :=
  ⟨listAlter k f m.entries, nodup_listAlter m.nodup⟩

/-- `m[k].push_back(v)`. -/
def push (m : Multimap κ ν) (k : κ) (v : ν) : Multimap κ ν := m.alter k (· ++ [v])

/-- `m[k].push_back(v)` for each pair of a list. -/
def pushAll (m : Multimap κ ν) (ps : List (κ × ν)) : Multimap κ ν :=
  ps.foldl (fun m p => m.push p.1 p.2) m

/-- `m.erase(k)`. -/
def erase (m : Multimap κ ν) (k : κ) : Multimap κ ν :=
  ⟨m.entries.filter fun p => p.1 ≠ k, m.nodup.sublist (List.filter_sublist.map _)⟩

/-- Every key has a non-empty list. -/
def NoEmpty (m : Multimap κ ν) : Prop := ∀ p ∈ m.entries, p.2 ≠ []

@[simp] theorem find_empty (k : κ) : (empty : Multimap κ ν).find k = [] := rfl

theorem find_alter (m : Multimap κ ν) (k k' : κ) (f : List ν → List ν) :
    (m.alter k f).find k' = if k = k' then f (m.find k) else m.find k' := by
  unfold find get? alter
  rw [listGet?_listAlter]
  split_ifs <;> rfl

theorem find_erase (m : Multimap κ ν) (k k' : κ) :
    (m.erase k).find k' = if k = k' then [] else m.find k' := by
  unfold find get? erase
  rw [listGet?_filter]
  split_ifs <;> rfl

/-- The values pushed for a key are appended in the order of the pushes. -/
theorem find_pushAll (m : Multimap κ ν) (ps : List (κ × ν)) (k : κ) :
    (m.pushAll ps).find k =
      m.find k ++ ps.filterMap fun p => if p.1 = k then some p.2 else none := by
  induction ps generalizing m with
  | nil => simp [pushAll]
  | cons p ps ih =>
      have hstep : m.pushAll (p :: ps) = (m.push p.1 p.2).pushAll ps := rfl
      rw [hstep, ih, push, find_alter, List.filterMap_cons]
      by_cases hk : p.1 = k
      · subst hk
        simp
      · simp [hk]

/-- Changing the lists of several keys by a function that changes a list once only. -/
theorem find_foldl_alter {f : List ν → List ν} (hf : ∀ vs, f (f vs) = f vs) (m : Multimap κ ν)
    (ks : List κ) (k : κ) :
    (ks.foldl (fun m k => m.alter k f) m).find k = if k ∈ ks then f (m.find k) else m.find k := by
  induction ks generalizing m with
  | nil => simp
  | cons k₀ ks ih =>
      rw [List.foldl_cons, ih, find_alter]
      by_cases hk : k₀ = k
      · subst hk
        simp [hf]
      · have : k ≠ k₀ := Ne.symm hk
        simp [hk, this]

theorem find_foldl_erase (m : Multimap κ ν) (ks : List κ) (k : κ) :
    (ks.foldl erase m).find k = if k ∈ ks then [] else m.find k := by
  induction ks generalizing m with
  | nil => simp
  | cons k₀ ks ih =>
      rw [List.foldl_cons, ih, find_erase]
      by_cases hk : k₀ = k
      · subst hk
        simp
      · have : k ≠ k₀ := Ne.symm hk
        simp [hk, this]

omit [DecidableEq κ] in
theorem noEmpty_empty : (empty : Multimap κ ν).NoEmpty := by simp [NoEmpty, empty]

theorem NoEmpty.alter {m : Multimap κ ν} (h : m.NoEmpty) {k : κ} {f : List ν → List ν}
    (hf : ∀ vs, f vs ≠ []) : (m.alter k f).NoEmpty := by
  obtain ⟨l, hl⟩ := m
  change ∀ p ∈ l, p.2 ≠ [] at h
  change ∀ p ∈ listAlter k f l, p.2 ≠ []
  clear hl
  induction l with
  | nil => simpa [listAlter] using hf []
  | cons p l ih =>
      obtain ⟨k₀, vs⟩ := p
      rw [List.forall_mem_cons] at h
      rw [listAlter]
      split_ifs
      · exact List.forall_mem_cons.2 ⟨hf vs, h.2⟩
      · exact List.forall_mem_cons.2 ⟨h.1, ih h.2⟩

theorem NoEmpty.pushAll {m : Multimap κ ν} (h : m.NoEmpty) (ps : List (κ × ν)) :
    (m.pushAll ps).NoEmpty := by
  induction ps generalizing m with
  | nil => exact h
  | cons p ps ih => exact ih (h.alter fun vs => by simp)

theorem NoEmpty.erase {m : Multimap κ ν} (h : m.NoEmpty) (k : κ) : (m.erase k).NoEmpty :=
  fun p hp => h p (List.mem_of_mem_filter hp)

theorem NoEmpty.foldl_alter {m : Multimap κ ν} (h : m.NoEmpty) {f : List ν → List ν}
    (hf : ∀ vs, f vs ≠ []) (ks : List κ) : (ks.foldl (fun m k => m.alter k f) m).NoEmpty := by
  induction ks generalizing m with
  | nil => exact h
  | cons k ks ih => exact ih (h.alter hf)

theorem NoEmpty.foldl_erase {m : Multimap κ ν} (h : m.NoEmpty) (ks : List κ) :
    (ks.foldl Multimap.erase m).NoEmpty := by
  induction ks generalizing m with
  | nil => exact h
  | cons k ks ih => exact ih (h.erase k)

/-- A map without empty lists is determined by the lists it reads as. -/
theorem get?_eq_of_noEmpty {m m' : Multimap κ ν} (h : m.NoEmpty) (h' : m'.NoEmpty)
    (hfind : ∀ k, m.find k = m'.find k) (k : κ) : m.get? k = m'.get? k := by
  have hne : ∀ {m : Multimap κ ν}, m.NoEmpty → ∀ {vs}, m.get? k = some vs → vs ≠ [] :=
    fun hm vs hvs => hm _ ((listGet?_eq_some (Multimap.nodup _)).1 hvs)
  have hk := hfind k
  unfold find at hk
  cases hm : m.get? k with
  | none =>
      cases hm' : m'.get? k with
      | none => rfl
      | some ws => exact absurd (by simpa [hm, hm'] using hk.symm) (hne h' hm')
  | some vs =>
      cases hm' : m'.get? k with
      | none => exact absurd (by simpa [hm, hm'] using hk) (hne h hm)
      | some ws => simpa [hm, hm'] using hk

/-- Maps that read the same under every key have the same entries. -/
theorem entries_perm_of_get?_eq {m m' : Multimap κ ν} (h : ∀ k, m.get? k = m'.get? k) :
    m.entries.Perm m'.entries := by
  refine (List.perm_ext_iff_of_nodup m.nodup.of_map m'.nodup.of_map).2 fun p => ?_
  obtain ⟨k, vs⟩ := p
  rw [← listGet?_eq_some m.nodup, ← listGet?_eq_some m'.nodup]
  exact iff_of_eq (congrArg (· = some vs) (h k))

/-! ## Keys -/

/-- The key has an entry. -/
def HasKey (m : Multimap κ ν) (k : κ) : Prop := k ∈ m.entries.map Prod.fst

omit [DecidableEq κ] in
theorem not_hasKey_empty (k : κ) : ¬(empty : Multimap κ ν).HasKey k := List.not_mem_nil

theorem hasKey_alter {m : Multimap κ ν} {k k' : κ} {f : List ν → List ν} :
    (m.alter k f).HasKey k' ↔ k' = k ∨ m.HasKey k' :=
  mem_fst_listAlter

theorem hasKey_foldl_alter {m : Multimap κ ν} {f : List ν → List ν} {ks : List κ} {k : κ} :
    (ks.foldl (fun m k => m.alter k f) m).HasKey k ↔ k ∈ ks ∨ m.HasKey k := by
  induction ks generalizing m with
  | nil => simp
  | cons k₀ ks ih =>
      rw [List.foldl_cons, ih, hasKey_alter, List.mem_cons]
      tauto

theorem hasKey_pushAll {m : Multimap κ ν} {ps : List (κ × ν)} {k : κ} :
    (m.pushAll ps).HasKey k ↔ k ∈ ps.map Prod.fst ∨ m.HasKey k := by
  induction ps generalizing m with
  | nil => simp [pushAll]
  | cons p ps ih =>
      have hstep : m.pushAll (p :: ps) = (m.push p.1 p.2).pushAll ps := rfl
      rw [hstep, ih, push, hasKey_alter, List.map_cons, List.mem_cons]
      tauto

theorem hasKey_foldl_erase {m : Multimap κ ν} {ks : List κ} {k : κ} :
    (ks.foldl erase m).HasKey k ↔ k ∉ ks ∧ m.HasKey k := by
  induction ks generalizing m with
  | nil => simp
  | cons k₀ ks ih =>
      have hstep : (m.erase k₀).HasKey k ↔ k ≠ k₀ ∧ m.HasKey k := by
        simp only [HasKey, erase, List.mem_map, List.mem_filter]
        constructor
        · rintro ⟨p, ⟨hp, hne⟩, rfl⟩
          exact ⟨by simpa using hne, p, hp, rfl⟩
        · rintro ⟨hne, p, hp, rfl⟩
          exact ⟨p, ⟨hp, by simpa using hne⟩, rfl⟩
      rw [List.foldl_cons, ih, hstep, List.mem_cons]
      tauto

omit [DecidableEq κ] in
/-- With at most one key there is only one order. -/
theorem eq_of_perm_of_one_key {m : Multimap κ ν} {l l' : List (κ × List ν)}
    (hone : ∀ k k', m.HasKey k → m.HasKey k' → k = k') (h : m.entries.Perm l)
    (h' : m.entries.Perm l') : l = l' := by
  obtain ⟨entries, hnodup⟩ := m
  match entries, hnodup, hone, h, h' with
  | [], _, _, h, h' => rw [List.nil_perm.1 h, List.nil_perm.1 h']
  | [p], _, _, h, h' => exact (List.singleton_perm.1 h).symm.trans (List.singleton_perm.1 h')
  | p :: q :: l, hnodup, hone, _, _ =>
      have hpq : p.1 = q.1 := hone p.1 q.1 (by simp [HasKey]) (by simp [HasKey])
      simp [hpq] at hnodup

/-- How many cells the entries take if each key takes two on top of its values. -/
def cells (m : Multimap κ ν) : Nat := (m.entries.map fun p => p.2.length + 2).sum

theorem cells_eq_of_get?_eq {m m' : Multimap κ ν} (h : ∀ k, m.get? k = m'.get? k) :
    m.cells = m'.cells :=
  ((entries_perm_of_get?_eq h).map _).sum_nat

/-- A change that adds one value at most takes three more cells at most. -/
theorem cells_alter_le {f : List ν → List ν} (hf : ∀ vs, (f vs).length ≤ vs.length + 1)
    (m : Multimap κ ν) (k : κ) : (m.alter k f).cells ≤ m.cells + 3 := by
  obtain ⟨l, hl⟩ := m
  change ((listAlter k f l).map fun p => p.2.length + 2).sum ≤
    (l.map fun p => p.2.length + 2).sum + 3
  clear hl
  induction l with
  | nil =>
      have hone := hf []
      simp only [listAlter, List.map_cons, List.map_nil, List.sum_cons, List.sum_nil,
        List.length_nil] at hone ⊢
      omega
  | cons p l ih =>
      obtain ⟨k₀, vs⟩ := p
      rw [listAlter]
      split_ifs
      · have hone := hf vs
        simp only [List.map_cons, List.sum_cons]
        omega
      · simp only [List.map_cons, List.sum_cons]
        omega

theorem cells_foldl_alter_le {f : List ν → List ν} (hf : ∀ vs, (f vs).length ≤ vs.length + 1)
    (ks : List κ) (m : Multimap κ ν) :
    (ks.foldl (fun m k => m.alter k f) m).cells ≤ m.cells + 3 * ks.length := by
  induction ks generalizing m with
  | nil => exact Nat.le_refl _
  | cons k ks ih =>
      have hstep := cells_alter_le hf m k
      have hrest := ih (m.alter k f)
      rw [List.foldl_cons, List.length_cons]
      omega

theorem cells_foldl_erase_le (ks : List κ) (m : Multimap κ ν) :
    (ks.foldl erase m).cells ≤ m.cells := by
  induction ks generalizing m with
  | nil => exact Nat.le_refl _
  | cons k ks ih =>
      refine (ih (m.erase k)).trans ?_
      exact Counting.sum_map_le_of_subperm _ List.filter_sublist.subperm

theorem find_of_mem {m : Multimap κ ν} {p : κ × List ν} (h : p ∈ m.entries) :
    m.find p.1 = p.2 := by
  rw [find, get?, (listGet?_eq_some m.nodup).2 h, Option.getD_some]

theorem cells_eq_sum_find (m : Multimap κ ν) :
    m.cells = ((m.entries.map Prod.fst).map fun k => (m.find k).length + 2).sum := by
  rw [cells, List.map_map]
  congr 1
  exact List.map_congr_left fun p hp => by rw [Function.comp_apply, find_of_mem hp]

/-- A map whose lists are nowhere shorter takes no fewer cells. -/
theorem cells_le_of_find {m m' : Multimap κ ν} (h : m.NoEmpty)
    (hle : ∀ k, (m.find k).length ≤ (m'.find k).length) : m.cells ≤ m'.cells := by
  have hkeys : m.entries.map Prod.fst ⊆ m'.entries.map Prod.fst := by
    intro k hk
    obtain ⟨p, hp, rfl⟩ := List.mem_map.1 hk
    have hlen := hle p.1
    rw [find_of_mem hp] at hlen
    have hne : m'.find p.1 ≠ [] := by
      intro hnil
      rw [hnil, List.length_nil, Nat.le_zero, List.length_eq_zero_iff] at hlen
      exact h p hp hlen
    cases hget : m'.get? p.1 with
    | none => exact absurd (by rw [find, hget, Option.getD_none]) hne
    | some vs => exact List.mem_map.2 ⟨_, (listGet?_eq_some m'.nodup).1 hget, rfl⟩
  rw [cells_eq_sum_find, cells_eq_sum_find]
  calc ((m.entries.map Prod.fst).map fun k => (m.find k).length + 2).sum
      ≤ ((m.entries.map Prod.fst).map fun k => (m'.find k).length + 2).sum :=
        List.sum_le_sum fun k _ => Nat.add_le_add_right (hle k) 2
    _ ≤ ((m'.entries.map Prod.fst).map fun k => (m'.find k).length + 2).sum :=
        Counting.sum_map_le_of_subperm _ (m.nodup.subperm hkeys)

/-! ## Enumerating a map -/

/-- The pushes that build up the entries of a list, one entry after the other. -/
def pushesOf (l : List (κ × List ν)) : List (κ × ν) := l.flatMap fun p => p.2.map (p.1, ·)

theorem filterMap_pushesOf {l : List (κ × List ν)} (h : (l.map Prod.fst).Nodup) (k : κ) :
    ((pushesOf l).filterMap fun p => if p.1 = k then some p.2 else none) =
      (listGet? k l).getD [] := by
  induction l with
  | nil => rfl
  | cons p l ih =>
      obtain ⟨k₀, vs⟩ := p
      rw [List.map_cons, List.nodup_cons] at h
      have hstep : pushesOf ((k₀, vs) :: l) = vs.map (k₀, ·) ++ pushesOf l := rfl
      rw [hstep, List.filterMap_append, List.filterMap_map, ih h.2]
      by_cases hk : k₀ = k
      · subst hk
        have hnone : listGet? k₀ l = none := by
          by_contra hne
          obtain ⟨ws, hws⟩ := Option.ne_none_iff_exists'.1 hne
          exact h.1 (List.mem_map.2 ⟨_, (listGet?_eq_some h.2).1 hws, rfl⟩)
        simp [listGet?, hnone]
      · simp [listGet?, hk]

omit [DecidableEq κ] in
theorem mem_fst_pushesOf {l : List (κ × List ν)} (h : ∀ p ∈ l, p.2 ≠ []) {k : κ} :
    k ∈ (pushesOf l).map Prod.fst ↔ k ∈ l.map Prod.fst := by
  simp only [pushesOf, List.mem_map, List.mem_flatMap]
  constructor
  · rintro ⟨_, ⟨p, hp, v, -, rfl⟩, rfl⟩
    exact ⟨p, hp, rfl⟩
  · rintro ⟨p, hp, rfl⟩
    obtain ⟨v, hv⟩ := List.exists_mem_of_ne_nil _ (h p hp)
    exact ⟨_, ⟨p, hp, v, hv, rfl⟩, rfl⟩

/-- Rebuilding a map from its entries, taken in any order, gives the same lists. -/
theorem find_pushAll_pushesOf {m : Multimap κ ν} {l : List (κ × List ν)}
    (hl : l.Perm m.entries) (k : κ) : (empty.pushAll (pushesOf l)).find k = m.find k := by
  have hnd : (l.map Prod.fst).Nodup := (hl.map Prod.fst).nodup_iff.2 m.nodup
  rw [find_pushAll, find_empty, List.nil_append, filterMap_pushesOf hnd,
    listGet?_perm hl hnd]
  rfl

end Multimap
