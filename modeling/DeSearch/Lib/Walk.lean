import Mathlib.Data.Fintype.Card
import Mathlib.Data.Set.Finite.Basic
import Mathlib.Logic.Relation

/-!
# Walking a graph with a work list

A walk keeps a stack of nodes and visits the top one. A leaf is collected; any other node is
replaced by its children, the last child on top. Nothing remembers which nodes were visited, so a
walk need not end, and it is run with fuel. A visit may also fail, and then the walk does.

A walk that ends has collected the leaves that can be reached from where it started, and nothing
else (`mem_collect`). It ends exactly if all paths from there end in leaves (`grounded_of_collect`,
`exists_collect`), and in a graph with finitely many inner nodes that is so exactly if none of them
leads into a cycle (`Grounded.not_transGen`, `grounded_of_acyclic`).
-/

namespace Walk

/-- What the visit of a node shows. -/
inductive Visit (α : Type*) where
  | leaf
  | inner (children : List α)

variable {α : Type*} (visit : α → Option (Visit α))

def Leaf (x : α) : Prop := visit x = some .leaf

def Edge (x y : α) : Prop := ∃ children, visit x = some (.inner children) ∧ y ∈ children

/-- The walk: the nodes still to visit, and the leaves collected so far. -/
def collect : Nat → List α → List α → Option (List α)
  | 0, _, _ => none
  | _ + 1, [], leaves => some leaves
  | n + 1, x :: work, leaves =>
      match visit x with
      | none => none
      | some .leaf => collect n work (x :: leaves)
      | some (.inner children) => collect n (children.reverse ++ work) leaves

variable {visit} {x y : α} {work acc leaves : List α} {n : Nat}

open Relation

/-- A path that starts in a leaf stays there. -/
theorem Leaf.reaches (hx : Leaf visit x) (h : ReflTransGen (Edge visit) x y) : y = x := by
  rcases h.cases_head with rfl | ⟨z, ⟨children, hvisit, -⟩, -⟩
  · rfl
  · rw [Leaf, hvisit] at hx
    cases hx

/-- A path from an inner node to a leaf goes through a child. -/
theorem Leaf.reached (hy : Leaf visit y) {children : List α}
    (hx : visit x = some (.inner children)) :
    ReflTransGen (Edge visit) x y ↔ ∃ z ∈ children, ReflTransGen (Edge visit) z y := by
  constructor
  · intro h
    rcases h.cases_head with rfl | ⟨z, ⟨children', hvisit, hz⟩, hzy⟩
    · rw [Leaf, hx] at hy
      cases hy
    · rw [hx] at hvisit
      cases hvisit
      exact ⟨z, hz, hzy⟩
  · rintro ⟨z, hz, hzy⟩
    exact .head ⟨children, hx, hz⟩ hzy

/-- A walk that ends has collected exactly the leaves within reach. -/
theorem mem_collect (h : collect visit n work acc = some leaves) :
    y ∈ leaves ↔ y ∈ acc ∨ Leaf visit y ∧ ∃ x ∈ work, ReflTransGen (Edge visit) x y := by
  -- along the walk: what is collected, or within reach of the work list, stays the same
  induction n generalizing work acc with
  | zero => cases h
  | succ n ih =>
      cases work with
      | nil =>
          cases h
          simp
      | cons x work =>
          rw [collect] at h
          cases hvisit : visit x with
          | none =>
              rw [hvisit] at h
              cases h
          | some v =>
              rw [hvisit] at h
              cases v with
              | leaf =>
                  rw [ih h]
                  constructor
                  · rintro (hy | ⟨hy, z, hz, hzy⟩)
                    · rcases List.mem_cons.1 hy with rfl | hy
                      · exact .inr ⟨hvisit, y, List.mem_cons_self, .refl⟩
                      · exact .inl hy
                    · exact .inr ⟨hy, z, List.mem_cons_of_mem _ hz, hzy⟩
                  · rintro (hy | ⟨hy, z, hz, hzy⟩)
                    · exact .inl (List.mem_cons_of_mem _ hy)
                    · rcases List.mem_cons.1 hz with rfl | hz
                      · have hyz : y = z := Leaf.reaches hvisit hzy
                        exact .inl (hyz ▸ List.mem_cons_self)
                      · exact .inr ⟨hy, z, hz, hzy⟩
              | inner children =>
                  rw [ih h]
                  refine or_congr_right (and_congr_right fun hy => ?_)
                  simp only [List.mem_append, List.mem_reverse, List.mem_cons, or_and_right,
                    exists_or, exists_eq_left, hy.reached hvisit]

/-- All paths from the node end in leaves. -/
inductive Grounded (visit : α → Option (Visit α)) : α → Prop where
  | leaf {x : α} (h : visit x = some .leaf) : Grounded visit x
  | inner {x : α} {children : List α} (h : visit x = some (.inner children))
      (hchildren : ∀ y ∈ children, Grounded visit y) : Grounded visit x

/-- The walk over the work list ends, whatever was collected before. -/
def Ends (visit : α → Option (Visit α)) (work : List α) : Prop :=
  ∀ acc, ∃ n leaves, collect visit n work acc = some leaves

theorem Ends.append {xs : List α} (hwork : Ends visit work)
    (h : ∀ x ∈ xs, ∀ work, Ends visit work → Ends visit (x :: work)) :
    Ends visit (xs ++ work) := by
  induction xs with
  | nil => exact hwork
  | cons x xs ih =>
      rw [List.forall_mem_cons] at h
      exact h.1 _ (ih h.2)

/-- A walk over a work list that ends still does with a grounded node on top. -/
theorem Grounded.ends_cons (hx : Grounded visit x) : ∀ work, Ends visit work →
    Ends visit (x :: work) := by
  induction hx with
  | leaf hvisit =>
      intro work hwork acc
      obtain ⟨n, leaves, hn⟩ := hwork (_ :: acc)
      refine ⟨n + 1, leaves, ?_⟩
      rw [collect, hvisit]
      exact hn
  | inner hvisit _ ih =>
      intro work hwork acc
      obtain ⟨n, leaves, hn⟩ := hwork.append (fun y hy => ih y (List.mem_reverse.1 hy)) acc
      refine ⟨n + 1, leaves, ?_⟩
      rw [collect, hvisit]
      exact hn

/-- A walk over grounded nodes ends. -/
theorem exists_collect (acc : List α) (h : ∀ x ∈ work, Grounded visit x) :
    ∃ n leaves, collect visit n work acc = some leaves := by
  have hnil : Ends visit [] := fun acc => ⟨1, acc, rfl⟩
  have hends := hnil.append fun x hx => (h x hx).ends_cons
  rw [List.append_nil] at hends
  exact hends acc

/-- A walk that ended started from grounded nodes. -/
theorem grounded_of_collect (h : collect visit n work acc = some leaves) :
    ∀ x ∈ work, Grounded visit x := by
  induction n generalizing work acc with
  | zero => cases h
  | succ n ih =>
      cases work with
      | nil => exact fun x hx => absurd hx List.not_mem_nil
      | cons x work =>
          rw [collect] at h
          rw [List.forall_mem_cons]
          cases hvisit : visit x with
          | none =>
              rw [hvisit] at h
              cases h
          | some v =>
              rw [hvisit] at h
              cases v with
              | leaf => exact ⟨.leaf hvisit, ih h⟩
              | inner children =>
                  obtain ⟨hchildren, hwork⟩ := List.forall_mem_append.1 (ih h)
                  exact ⟨.inner hvisit fun y hy => hchildren y (List.mem_reverse.2 hy), hwork⟩

/-! ## Cycles within reach -/

/-- No path from a grounded node leads into a cycle. -/
theorem Grounded.not_transGen (hx : Grounded visit x) :
    ∀ y, ReflTransGen (Edge visit) x y → ¬TransGen (Edge visit) y y := by
  induction hx with
  | leaf hvisit =>
      intro y hxy hcycle
      rw [Leaf.reaches hvisit hxy] at hcycle
      obtain ⟨z, ⟨children, hinner, -⟩, -⟩ := TransGen.head'_iff.1 hcycle
      rw [hvisit] at hinner
      cases hinner
  | @inner x children hvisit _ ih =>
      intro y hxy hcycle
      have hchild : ∀ {z}, Edge visit x z → z ∈ children := by
        rintro z ⟨children', hinner, hz⟩
        rw [hvisit] at hinner
        cases hinner
        exact hz
      rcases hxy.cases_head with rfl | ⟨z, hxz, hzy⟩
      · -- the cycle goes through a child, which reaches the node again
        obtain ⟨z, hxz, hzx⟩ := TransGen.head'_iff.1 hcycle
        exact ih z (hchild hxz) _ hzx hcycle
      · exact ih z (hchild hxz) y hzy hcycle

/-- In a graph with finitely many inner nodes, a node from which no path leads into a cycle or to a
visit that fails is grounded. -/
theorem grounded_of_acyclic (hfinite : {y | ∃ z, Edge visit y z}.Finite)
    (hvisit : ∀ y, ReflTransGen (Edge visit) x y → visit y ≠ none)
    (hacyclic : ∀ y, ReflTransGen (Edge visit) x y → ¬TransGen (Edge visit) y y) :
    Grounded visit x := by
  have hstep : ∀ y, ReflTransGen (Edge visit) x y → (∀ z, Edge visit y z → Grounded visit z) →
      Grounded visit y := by
    intro y hxy hall
    cases hv : visit y with
    | none => exact absurd hv (hvisit y hxy)
    | some v =>
        cases v with
        | leaf => exact .leaf hv
        | inner children => exact .inner hv fun z hz => hall z ⟨children, hv, hz⟩
  -- the inner nodes within reach, ordered by the paths between them
  let inner : Set α := {y | (∃ z, Edge visit y z) ∧ ReflTransGen (Edge visit) x y}
  have : Finite inner := (hfinite.subset fun y hy => hy.1).to_subtype
  let below : inner → inner → Prop := fun a b => TransGen (Edge visit) b.1 a.1
  have : IsTrans inner below := ⟨fun a b c hab hbc => TransGen.trans hbc hab⟩
  have : Std.Irrefl below := ⟨fun a ha => hacyclic a.1 a.2.2 ha⟩
  have hinner : ∀ y : inner, Grounded visit y.1 := by
    intro y
    induction y using (Finite.wellFounded_of_trans_of_irrefl below).induction with
    | _ y ih =>
        refine hstep y.1 y.2.2 fun z hz => ?_
        by_cases hzinner : ∃ w, Edge visit z w
        · exact ih ⟨z, hzinner, y.2.2.tail hz⟩ (.single hz)
        · exact hstep z (y.2.2.tail hz) fun w hw => absurd ⟨w, hw⟩ hzinner
  by_cases hx : ∃ z, Edge visit x z
  · exact hinner ⟨x, hx, .refl⟩
  · exact hstep x .refl fun w hw => absurd ⟨w, hw⟩ hx

/-! ## Graphs without a cycle -/

variable {edge : α → α → Prop} {rank : α → Nat → Prop}

/-- A rank that every edge to an inner node lowers goes down along every path. -/
theorem rank_lt_of_transGen (huniq : ∀ a n m, rank a n → rank a m → n = m)
    (hlower : ∀ a b c, edge a b → edge b c → ∃ n m, rank a n ∧ rank b m ∧ m < n) {a b c : α}
    (hpath : TransGen edge a b) (hinner : edge b c) :
    ∃ n m, rank a n ∧ rank b m ∧ m < n := by
  induction hpath generalizing c with
  | single hab => exact hlower a _ c hab hinner
  | tail _ hbb ih =>
      obtain ⟨n, m, hn, hm, hlt⟩ := ih hbb
      obtain ⟨m', k, hm', hk, hlt'⟩ := hlower _ _ c hbb hinner
      obtain rfl := huniq _ _ _ hm hm'
      exact ⟨n, k, hn, hk, Nat.lt_trans hlt' hlt⟩

/-- So there is no way back. -/
theorem not_transGen_self (huniq : ∀ a n m, rank a n → rank a m → n = m)
    (hlower : ∀ a b c, edge a b → edge b c → ∃ n m, rank a n ∧ rank b m ∧ m < n) (a : α) :
    ¬TransGen edge a a := by
  intro hpath
  obtain ⟨c, hac, -⟩ := TransGen.head'_iff.1 hpath
  obtain ⟨n, m, hn, hm, hlt⟩ := rank_lt_of_transGen huniq hlower hpath hac
  exact absurd (huniq a n m hn hm) (Nat.ne_of_gt hlt)

end Walk
