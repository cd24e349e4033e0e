import DeSearch.JsonProof
import Mathlib.Data.List.Perm.Subperm

/-!
# What a parsed value takes from its text

The parser reads the string values of a text off one after the other. So a fact about the strings
of a parsed value and the text they come from needs an argument for `parse_string` only, as long as
it passes on from one string to the next. `Consumes` says what that takes, and `load_consumes`
carries such a fact from one string to the whole value.

* `infix_of_load`: a hexadecimal string that was parsed stands in the text as it is.
-/

namespace DeSearch

namespace JSON

variable {R : Runtime}

/-! ## The strings of a value -/

mutual

/-- The string values in a value, in the order of the text. -/
def strings : JSON → List Bytes
  | null | boolean _ | integral _ | floating _ => []
  | string s => [s]
  | array l => stringsElems l
  | object m => stringsMembers m

def stringsElems : List JSON → List Bytes
  | [] => []
  | v :: l => strings v ++ stringsElems l

def stringsMembers : List (Bytes × JSON) → List Bytes
  | [] => []
  | (_, v) :: m => strings v ++ stringsMembers m

end

theorem stringsElems_append (l : List JSON) (v : JSON) :
    stringsElems (l ++ [v]) = stringsElems l ++ strings v := by
  induction l with
  | nil => simp [stringsElems]
  | cons w l ih => simp [stringsElems, ih]

/-- A member that is set replaces or joins the others. -/
theorem stringsMembers_mapSet (k : Bytes) (v : JSON) (m : List (Bytes × JSON)) :
    (stringsMembers (mapSet k v m)).Subperm (stringsMembers m ++ strings v) := by
  induction m with
  | nil =>
      simp only [mapSet, stringsMembers, List.append_nil, List.nil_append]
      exact List.Subperm.refl _
  | cons p m ih =>
      obtain ⟨k', v'⟩ := p
      rw [mapSet]
      split_ifs
      · simp only [stringsMembers]
        exact List.perm_append_comm.subperm
      · simp only [stringsMembers]
        exact List.perm_append_comm.subperm.trans
          ((List.sublist_append_right _ _).append_right _).subperm
      · simp only [stringsMembers, List.append_assoc]
        exact (List.subperm_append_left _).2 ih

theorem strings_get_subset {j : JSON} (k : Bytes) : strings (j.get k) ⊆ strings j := by
  cases j with
  | object m =>
      rw [get, strings]
      induction m with
      | nil => simp [strings]
      | cons p m ih =>
          obtain ⟨k', v⟩ := p
          rw [stringsMembers, List.lookup_cons]
          split
          · exact List.subset_append_left _ _
          · exact List.Subset.trans ih (List.subset_append_right _ _)
  | _ => simp [get, strings]

/-! ## The parser -/

/-- `T s xs r` is to say something about reading the strings `xs` between `s` and what is left of
it, `r`. It holds for skipped text and for one string, and passes on from one to the next. -/
structure Consumes (T : Bytes → List Bytes → Bytes → Prop) : Prop where
  skip : ∀ {s r}, r <:+ s → T s [] r
  comp : ∀ {s xs t ys r}, T s xs t → T t ys r → T s (xs ++ ys) r
  mono : ∀ {s xs ys r}, T s xs r → ys.Subperm xs → T s ys r
  str : ∀ {s v r}, parseString .plain [] s = some (v, r) → T s [v] r

theorem consumeWs_suffix (s : Bytes) : consumeWs s <:+ s := List.dropWhile_suffix _

theorem suffix_of_consumeWs {c : Byte} {s t : Bytes} (h : consumeWs s = c :: t) : t <:+ s :=
  (List.suffix_cons c t).trans (h ▸ consumeWs_suffix s)

theorem parseExponent_suffix {s r : Bytes} {e : Option Bytes} (h : parseExponent s = some (e, r)) :
    r <:+ s := by
  cases s with
  | nil => simp [parseExponent] at h
  | cons c s =>
      obtain ⟨n, d, u, hd, hr⟩ := parseExponent_eq_some h
      have hrest : d :: u <:+ c :: s := by
        rw [← hd]
        exact (List.dropWhile_suffix _).trans ((List.drop_suffix n s).trans (List.suffix_cons c s))
      rcases hr with rfl | rfl
      · exact hrest
      · exact (List.suffix_cons d r).trans hrest

/-- The shape of every successful branch of `parse_number`. -/
theorem suffix_of_map {α : Type} {o : Option α} {f : α → JSON} {s u r : Bytes} {j : JSON}
    (h : (o.map fun x => (f x, u)) = some (j, r)) (hf : ∀ x, strings (f x) = []) (hu : u <:+ s) :
    strings j = [] ∧ r <:+ s := by
  obtain ⟨x, -, heq⟩ := Option.map_eq_some_iff.1 h
  obtain ⟨rfl, rfl⟩ := Prod.mk.inj heq
  exact ⟨hf x, hu⟩

theorem parseNumber_suffix {s r : Bytes} {j : JSON} (h : parseNumber R s = some (j, r)) :
    strings j = [] ∧ r <:+ s := by
  have hrest : s.dropWhile numberChar <:+ s := List.dropWhile_suffix _
  unfold parseNumber at h
  cases hd : s.dropWhile numberChar with
  | nil => simp [hd] at h
  | cons c t =>
      rw [hd] at hrest
      have htail : t <:+ s := (List.suffix_cons c t).trans hrest
      simp only [hd] at h
      split at h
      · cases hx : parseExponent t with
        | none => simp [hx] at h
        | some p =>
            obtain ⟨e, u⟩ := p
            have hu : u <:+ s := (parseExponent_suffix hx).trans htail
            cases e with
            | none =>
                obtain ⟨rfl, rfl⟩ := by simpa [hx] using h
                exact ⟨rfl, hu⟩
            | some es =>
                simp only [hx] at h
                cases he : stol es with
                | none => simp [he] at h
                | some e =>
                    simp only [he] at h
                    split at h
                    · exact suffix_of_map h (fun _ => rfl) hu
                    · exact suffix_of_map h (fun _ => rfl) hu
      · split at h
        · split at h
          · exact suffix_of_map h (fun _ => rfl) hrest
          · exact suffix_of_map h (fun _ => rfl) hrest
        · obtain ⟨rfl, rfl⟩ := by simpa using h
          exact ⟨rfl, htail⟩

theorem parseBool_suffix (s : Bytes) : strings (parseBool s).1 = [] ∧ (parseBool s).2 <:+ s := by
  unfold parseBool
  split_ifs
  · exact ⟨rfl, List.drop_suffix 4 s⟩
  · exact ⟨rfl, List.drop_suffix 5 s⟩
  · exact ⟨rfl, List.suffix_rfl⟩

theorem parseNull_suffix (s : Bytes) : strings (parseNull s).1 = [] ∧ (parseNull s).2 <:+ s := by
  unfold parseNull
  split_ifs
  · exact ⟨rfl, List.drop_suffix 4 s⟩
  · exact ⟨rfl, List.suffix_rfl⟩

section

variable {T : Bytes → List Bytes → Bytes → Prop}

/-- `parse_next` with fuel `n` consumes its text as `T` says. -/
def NextConsumes (R : Runtime) (T : Bytes → List Bytes → Bytes → Prop) (n : Nat) : Prop :=
  ∀ s j r, parseNext R n s = some (j, r) → T s (strings j) r

/-- The same for the loop of `parse_array`, with what was read before it. -/
def ArrayConsumes (R : Runtime) (T : Bytes → List Bytes → Bytes → Prop) (n : Nat) : Prop :=
  ∀ s₀ l s j r, T s₀ (stringsElems l) s → parseArray R n l s = some (j, r) → T s₀ (strings j) r

def ObjectConsumes (R : Runtime) (T : Bytes → List Bytes → Bytes → Prop) (n : Nat) : Prop :=
  ∀ s₀ m s j r, T s₀ (stringsMembers m) s → parseObject R n m s = some (j, r) →
    T s₀ (strings j) r

theorem Consumes.after (hT : Consumes T) {s t r : Bytes} {xs : List Bytes} (h : T s xs t)
    (hr : r <:+ t) : T s xs r := by
  simpa using hT.comp h (hT.skip hr)

theorem Consumes.before (hT : Consumes T) {s t r : Bytes} {xs : List Bytes} (ht : t <:+ s)
    (h : T t xs r) : T s xs r := hT.comp (hT.skip ht) h

theorem Consumes.next_succ (hT : Consumes T) {n : Nat} (ihArray : ArrayConsumes R T n)
    (ihObject : ObjectConsumes R T n) : NextConsumes R T (n + 1) := by
  intro s j r h
  rw [parseNext] at h
  cases hd : consumeWs s with
  | nil => simp [hd] at h
  | cons c t =>
      have hws : c :: t <:+ s := hd ▸ consumeWs_suffix s
      have ht : t <:+ s := suffix_of_consumeWs hd
      simp only [hd] at h
      split at h
      · cases hu : consumeWs t with
        | nil => simp [hu] at h
        | cons d u =>
            have hrest : d :: u <:+ s := (hu ▸ consumeWs_suffix t).trans ht
            simp only [hu] at h
            split at h
            · obtain ⟨rfl, rfl⟩ := by simpa using h
              exact hT.skip ((List.suffix_cons d u).trans hrest)
            · exact ihArray s [] _ _ _ (hT.skip hrest) h
      split at h
      · cases hu : consumeWs t with
        | nil => simp [hu] at h
        | cons d u =>
            have hrest : d :: u <:+ s := (hu ▸ consumeWs_suffix t).trans ht
            simp only [hu] at h
            split at h
            · obtain ⟨rfl, rfl⟩ := by simpa using h
              exact hT.skip ((List.suffix_cons d u).trans hrest)
            · exact ihObject s [] _ _ _ (hT.skip hrest) h
      split at h
      · obtain ⟨⟨v, u⟩, hp, heq⟩ := Option.map_eq_some_iff.1 h
        obtain ⟨rfl, rfl⟩ := Prod.mk.inj heq
        exact hT.before ht (hT.str hp)
      -- the other values have no strings
      have hscalar : strings j = [] ∧ r <:+ c :: t := by
        split at h
        · rw [Option.some.injEq] at h
          simpa [h] using parseBool_suffix (c :: t)
        split at h
        · rw [Option.some.injEq] at h
          simpa [h] using parseNull_suffix (c :: t)
        split at h
        · exact parseNumber_suffix h
        · obtain ⟨rfl, rfl⟩ := by simpa using h
          exact ⟨rfl, List.suffix_rfl⟩
      rw [hscalar.1]
      exact hT.skip (hscalar.2.trans hws)

theorem Consumes.array_succ (hT : Consumes T) {n : Nat} (ihNext : NextConsumes R T n)
    (ihArray : ArrayConsumes R T n) : ArrayConsumes R T (n + 1) := by
  intro s₀ l s j r hl h
  rw [parseArray] at h
  cases hv : parseNext R n s with
  | none => simp [hv] at h
  | some p =>
      obtain ⟨v, t⟩ := p
      have hread : T s₀ (stringsElems (l ++ [v])) t := by
        rw [stringsElems_append]
        exact hT.comp hl (ihNext _ _ _ hv)
      simp only [hv] at h
      cases hd : consumeWs t with
      | nil => simp [hd] at h
      | cons c u =>
          simp only [hd] at h
          split at h
          · exact ihArray _ _ _ _ _ (hT.after hread (suffix_of_consumeWs hd)) h
          split at h
          · obtain ⟨rfl, rfl⟩ := by simpa using h
            exact hT.after hread (suffix_of_consumeWs hd)
          · obtain ⟨rfl, rfl⟩ := by simpa using h
            exact hT.mono (hT.after hread (hd ▸ consumeWs_suffix t)) (List.nil_subperm)

theorem Consumes.object_succ (hT : Consumes T) {n : Nat} (ihNext : NextConsumes R T n)
    (ihObject : ObjectConsumes R T n) : ObjectConsumes R T (n + 1) := by
  intro s₀ m s j r hm h
  rw [parseObject] at h
  cases hk : parseNext R n s with
  | none => simp [hk] at h
  | some p =>
      obtain ⟨k, t⟩ := p
      -- the key itself is no value of the object
      have hkey : T s₀ (stringsMembers m) t :=
        hT.mono (hT.comp hm (ihNext _ _ _ hk)) (List.sublist_append_left _ _).subperm
      simp only [hk] at h
      cases hd : consumeWs t with
      | nil => simp [hd] at h
      | cons c u =>
          simp only [hd] at h
          split at h
          · cases hv : parseNext R n (consumeWs u) with
            | none => simp [hv] at h
            | some q =>
                obtain ⟨v, w⟩ := q
                have hstart : T s₀ (stringsMembers m) (consumeWs u) :=
                  hT.after hkey ((consumeWs_suffix u).trans (suffix_of_consumeWs hd))
                have hmember : T s₀ (stringsMembers (mapSet k.toStr v m)) w :=
                  hT.mono (hT.comp hstart (ihNext _ _ _ hv)) (stringsMembers_mapSet _ _ _)
                simp only [hv] at h
                cases he : consumeWs w with
                | nil => simp [he] at h
                | cons d x =>
                    simp only [he] at h
                    split at h
                    · exact ihObject _ _ _ _ _ (hT.after hmember (suffix_of_consumeWs he)) h
                    split at h
                    · obtain ⟨rfl, rfl⟩ := by simpa using h
                      exact hT.after hmember (suffix_of_consumeWs he)
                    · obtain ⟨rfl, rfl⟩ := by simpa using h
                      exact hT.after hmember (he ▸ consumeWs_suffix w)
          · obtain ⟨rfl, rfl⟩ := by simpa using h
            exact hT.after hkey (hd ▸ consumeWs_suffix t)

theorem Consumes.parse (hT : Consumes T) (n : Nat) :
    NextConsumes R T n ∧ ArrayConsumes R T n ∧ ObjectConsumes R T n := by
  induction n with
  | zero =>
      refine ⟨?_, ?_, ?_⟩ <;> intro <;> intros <;> simp_all [parseNext, parseArray, parseObject]
  | succ n ih =>
      obtain ⟨ihNext, ihArray, ihObject⟩ := ih
      exact ⟨hT.next_succ ihArray ihObject, hT.array_succ ihNext ihArray,
        hT.object_succ ihNext ihObject⟩

/-- What holds of one string holds of all strings of a parsed text. -/
theorem load_consumes (hT : Consumes T) {s : Bytes} {j : JSON} (h : load R s = some j) :
    ∃ r, T (s ++ [0]) (strings j) r := by
  obtain ⟨⟨j', r⟩, hp, rfl⟩ := Option.map_eq_some_iff.1 h
  exact ⟨r, (hT.parse _).1 _ _ _ hp⟩

end

/-! ## Strings that stand in the text as they are -/

/-- `parse_string` goes on in the text `u` it started in, and only adds to what it has, unless a bad
escape throws that away. -/
theorem parseString_suffix {mode : StringMode} {val s v r u : Bytes} (hs : s <:+ u)
    (hmode : ∀ k back, mode = .hex k back → back <:+ u)
    (h : parseString mode val s = some (v, r)) : r <:+ u ∧ (v = [] ∨ val <+: v) := by
  induction s generalizing mode val with
  | nil => cases mode <;> simp [parseString] at h
  | cons c s ih =>
      have htail : s <:+ u := (List.suffix_cons c s).trans hs
      have hgrow : ∀ {t : Bytes}, r <:+ u ∧ (v = [] ∨ val ++ t <+: v) →
          r <:+ u ∧ (v = [] ∨ val <+: v) := by
        rintro t ⟨hr, hv⟩
        exact ⟨hr, hv.imp_right (List.prefix_append _ _).trans⟩
      cases mode with
      | plain =>
          simp only [parseString] at h
          split_ifs at h with h₁ h₂
          · obtain ⟨rfl, rfl⟩ := by simpa using h
            exact ⟨htail, .inr List.prefix_rfl⟩
          · exact ih htail (by simp) h
          · exact hgrow (ih htail (by simp) h)
      | escape =>
          simp only [parseString] at h
          split_ifs at h with h₁
          · refine hgrow (ih htail ?_ h)
            rintro k back hk
            cases hk
            exact hs
          · exact hgrow (ih htail (by simp) h)
      | hex k back =>
          have hback := hmode k back rfl
          simp only [parseString] at h
          split_ifs at h with h₁ h₂
          · exact hgrow (ih htail (by simp) h)
          · refine hgrow (ih htail ?_ h)
            rintro k' back' hk
            cases hk
            exact hback
          · obtain ⟨rfl, rfl⟩ := by simpa using h
            exact ⟨hback, .inl rfl⟩

theorem isHex_unescapeByte (d : Byte) : isHex (unescapeByte d) = false := by
  unfold unescapeByte
  split_ifs <;> rfl

/-- No escape stands for a hexadecimal digit. -/
theorem parseString_hex {val s v r : Bytes} (h : parseString .plain val s = some (v, r))
    (hne : v ≠ []) (hhex : ∀ c ∈ v, isHex c) : ∃ t, v = val ++ t ∧ t <+: s := by
  induction s generalizing val with
  | nil => simp [parseString] at h
  | cons c s ih =>
      simp only [parseString] at h
      split_ifs at h with h₁ h₂
      · obtain ⟨rfl, rfl⟩ := by simpa using h
        exact ⟨[], by simp, List.nil_prefix⟩
      · -- the first character an escape adds is none of the digits
        exfalso
        obtain ⟨d, t, hd, hprefix⟩ : ∃ d t, isHex d = false ∧ val ++ d :: t <+: v := by
          cases s with
          | nil => simp [parseString] at h
          | cons d s =>
              simp only [parseString] at h
              split_ifs at h with h₃
              · obtain hv | hv := (parseString_suffix (List.suffix_cons d s) (by
                  rintro k back hk
                  cases hk
                  exact List.suffix_rfl) h).2
                · exact absurd hv hne
                · exact ⟨ch '\\', [ch 'u'], rfl, hv⟩
              · obtain hv | hv := (parseString_suffix List.suffix_rfl (by simp) h).2
                · exact absurd hv hne
                · exact ⟨_, [], isHex_unescapeByte d, hv⟩
        have hmem : d ∈ v := hprefix.subset (List.mem_append_right _ List.mem_cons_self)
        rw [hhex d hmem] at hd
        cases hd
      · obtain ⟨t, rfl, ht⟩ := ih h
        exact ⟨c :: t, by simp, List.cons_prefix_cons.2 ⟨rfl, ht⟩⟩

theorem consumes_hex : Consumes fun s xs r =>
    r <:+ s ∧ ∀ v ∈ xs, v ≠ [] → (∀ c ∈ v, isHex c) → v <:+: s where
  skip hr := ⟨hr, by simp⟩
  comp := by
    rintro s xs t ys r ⟨hts, hxs⟩ ⟨hrt, hys⟩
    refine ⟨hrt.trans hts, fun v hv hne hhex => ?_⟩
    rcases List.mem_append.1 hv with hv | hv
    · exact hxs v hv hne hhex
    · exact (hys v hv hne hhex).trans hts.isInfix
  mono := fun ⟨hr, hxs⟩ hsub => ⟨hr, fun v hv => hxs v (hsub.subset hv)⟩
  str := by
    rintro s v r h
    refine ⟨(parseString_suffix List.suffix_rfl (by simp) h).1, fun x hx hne hhex => ?_⟩
    obtain rfl := List.mem_singleton.1 hx
    obtain ⟨t, rfl, ht⟩ := parseString_hex h hne hhex
    exact ht.isInfix

theorem infix_of_infix_append {v s : Bytes} {c : Byte} (h : v <:+: s ++ [c]) (hc : c ∉ v) :
    v <:+: s := by
  obtain ⟨a, b, heq⟩ := h
  rcases List.eq_nil_or_concat b with rfl | ⟨b, d, rfl⟩
  · rcases List.eq_nil_or_concat v with rfl | ⟨v, d, rfl⟩
    · exact List.nil_infix
    · rw [List.append_nil, List.concat_eq_append, ← List.append_assoc] at heq
      obtain rfl : d = c := by simpa using List.append_inj_right' heq rfl
      simp at hc
  · rw [List.concat_eq_append, ← List.append_assoc] at heq
    exact ⟨a, b, (List.append_inj_left' heq rfl)⟩

/-- A hexadecimal string that was parsed stands in the text as it is. -/
theorem infix_of_load {s v : Bytes} {j : JSON} (h : load R s = some j) (hv : v ∈ strings j)
    (hne : v ≠ []) (hhex : ∀ c ∈ v, isHex c) : v <:+: s := by
  obtain ⟨r, -, hall⟩ := load_consumes consumes_hex h
  exact infix_of_infix_append (hall v hv hne hhex) fun hz => absurd (hhex 0 hz) (by decide)

end JSON

end DeSearch
