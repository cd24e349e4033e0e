import DeSearch.Lib.Ties
import DeSearch.Manager

/-!
# The root digest

The manager hashes the witness keys of an epoch one after the other, and a client hashes them again
to compare. Both take the keys from a `std::set` and sort them, "a sorted list of the keys" in the
words of the README. The comparator looks at the last character of a key and at nothing else. So
`std::sort` may leave keys with the same last character in any order, and two programs agree only
where that order makes no difference.

* `rootDigest_iff`: the digest is a function of the key set exactly if any two keys with the same
  last character give the same text in both orders.
* `rootDetermined_iff_of_length`: for keys of one length, that is if no two of them have the same
  last character.
-/

namespace DeSearch

/-! ## The comparator -/

/-- A `char`, which is signed. -/
def signedChar (c : Byte) : Int := if c < 128 then c.val else c.val - 256

/-- `s1.back() < s2.back()`. An empty string has no last character. -/
def lessBack (s1 s2 : Bytes) : Option Bool := do
  let c1 ← s1.getLast?
  let c2 ← s2.getLast?
  return signedChar c1 < signedChar c2

/-- Any two of the keys can be compared. -/
def Comparable (keys : List Bytes) : Prop :=
  ∀ s1 ∈ keys, ∀ s2 ∈ keys, s1 ≠ s2 → (lessBack s1 s2).isSome

/-- No element compares less than one before it. -/
def LastCharSort.Ordered (L : LastCharSort) : Prop :=
  ∀ l, (L.sort l).Pairwise fun s1 s2 => lessBack s2 s1 ≠ some true

/-- `omni_string`, the text that is hashed. -/
def omniString (L : LastCharSort) (keys : List Bytes) : Bytes := (L.sort (stdSet keys)).flatten

theorem rootHashOf_eq (C : Crypto) (L : LastCharSort) (keys : List Bytes) :
    rootHashOf C L keys = C.sha256 (omniString L keys) := rfl

/-- **The digest is a function of the key set.** The sort is well defined, and whatever two programs
get from `std::sort`, each for its own reading of the same set, they hash the same text. -/
structure RootDetermined (keys : List Bytes) : Prop where
  comparable : Comparable keys
  omniString_eq : ∀ L L' : LastCharSort, L.Ordered → L'.Ordered → ∀ keys' : List Bytes,
    (∀ k, k ∈ keys' ↔ k ∈ keys) → omniString L keys = omniString L' keys'

/-! ## Keys by their last character -/

theorem signedChar_injective : Function.Injective signedChar := by
  intro c d h
  have hlt : ∀ c : Byte, c < 128 ↔ c.val < 128 := fun _ => Fin.lt_def
  simp only [signedChar, hlt] at h
  refine Fin.ext ?_
  split_ifs at h <;> omega

/-- The last character as a number. -/
def lastChar (s : Bytes) : Int := (s.getLast?.map signedChar).getD 0

theorem lessBack_eq {s1 s2 : Bytes} (h1 : s1 ≠ []) (h2 : s2 ≠ []) :
    lessBack s1 s2 = some (decide (lastChar s1 < lastChar s2)) := by
  simp [lessBack, lastChar, List.getLast?_eq_some_getLast h1, List.getLast?_eq_some_getLast h2]

theorem lastChar_eq_iff {s1 s2 : Bytes} (h1 : s1 ≠ []) (h2 : s2 ≠ []) :
    lastChar s1 = lastChar s2 ↔ s1.getLast? = s2.getLast? := by
  simp [lastChar, List.getLast?_eq_some_getLast h1, List.getLast?_eq_some_getLast h2,
    signedChar_injective.eq_iff]

theorem ne_nil_of_comparable {keys : List Bytes} (h : Comparable keys) {s1 s2 : Bytes}
    (h1 : s1 ∈ keys) (h2 : s2 ∈ keys) (hne : s1 ≠ s2) : s1 ≠ [] ∧ s2 ≠ [] := by
  have hsome := h s1 h1 s2 h2 hne
  constructor
  · rintro rfl
    cases hsome
  · rintro rfl
    cases hlast : s1.getLast? <;> simp [lessBack, hlast] at hsome

/-- What `std::sort` leaves of comparable keys is in the order of their last characters. -/
theorem LastCharSort.Ordered.sorted {L : LastCharSort} (hL : L.Ordered) {l : List Bytes}
    (hl : Comparable l) (hnodup : l.Nodup) : Ties.Sorted lastChar (L.sort l) := by
  have hdistinct : (L.sort l).Pairwise (· ≠ ·) := (L.perm l).nodup_iff.2 hnodup
  refine ((hL l).and hdistinct).imp_of_mem fun {s1 s2} h1 h2 h => ?_
  obtain ⟨hs1, hs2⟩ :=
    ne_nil_of_comparable hl ((L.perm l).mem_iff.1 h1) ((L.perm l).mem_iff.1 h2) h.2
  have hless := h.1
  rw [lessBack_eq hs2 hs1] at hless
  simpa using hless

/-! ## A sort for any order -/

/-- `std::sort` may leave any order of the last characters. -/
theorem exists_sort {l r : List Bytes} (hperm : r.Perm l) (hsorted : Ties.Sorted lastChar r) :
    ∃ L : LastCharSort, L.Ordered ∧ L.sort l = r := by
  have hother : ∀ l', ∃ r', r'.Perm l' ∧ Ties.Sorted lastChar r' ∧ (l' = l → r' = r) := by
    intro l'
    by_cases hl' : l' = l
    · exact ⟨r, hl' ▸ hperm, hsorted, fun _ => rfl⟩
    · obtain ⟨r', hr', hs'⟩ := Ties.exists_sorted lastChar l'
      exact ⟨r', hr', hs', fun h => absurd h hl'⟩
  choose sort hsort hsorted' hl using hother
  refine ⟨⟨sort, hsort⟩, fun l' => (hsorted' l').imp fun {s1 s2} hle hless => ?_, hl l rfl⟩
  by_cases hs : s1 = [] ∨ s2 = []
  · rcases hs with rfl | rfl
    · cases hlast : s2.getLast? <;> simp [lessBack, hlast] at hless
    · cases hless
  · obtain ⟨hs1, hs2⟩ := not_or.1 hs
    rw [lessBack_eq hs2 hs1] at hless
    have hlt : lastChar s2 < lastChar s1 := by simpa using hless
    omega

/-! ## When the digest is determined -/

theorem comparable_stdSet {keys : List Bytes} : Comparable (stdSet keys) ↔ Comparable keys := by
  simp only [Comparable, mem_stdSet]

/-- Keys that may change places must give the same text in both orders. -/
theorem RootDetermined.comm {keys : List Bytes} (h : RootDetermined keys) {x y : Bytes}
    (hx : x ∈ keys) (hy : y ∈ keys) (hlast : x.getLast? = y.getLast?) : x ++ y = y ++ x := by
  by_cases hne : x = y
  · rw [hne]
  obtain ⟨hx', hy'⟩ := ne_nil_of_comparable h.comparable hx hy hne
  obtain ⟨u, v, hperm, hxy, hyx⟩ := Ties.exists_swap lastChar (mem_stdSet.2 hx)
    (mem_stdSet.2 hy) hne ((lastChar_eq_iff hx' hy').2 hlast)
  have hswap : (u ++ y :: x :: v).Perm (u ++ x :: y :: v) :=
    (List.Perm.swap x y v).append_left u
  obtain ⟨L, hL, hsort⟩ := exists_sort hperm hxy
  obtain ⟨L', hL', hsort'⟩ := exists_sort (hswap.trans hperm) hyx
  have heq := h.omniString_eq L L' hL hL' keys fun _ => Iff.rfl
  rw [omniString, omniString, hsort, hsort'] at heq
  exact Ties.append_comm_of_swap heq

theorem rootDetermined_of_comm {keys : List Bytes} (hcomp : Comparable keys)
    (hcomm : ∀ x ∈ keys, ∀ y ∈ keys, x.getLast? = y.getLast? → x ++ y = y ++ x) :
    RootDetermined keys := by
  refine ⟨hcomp, fun L L' hL hL' keys' hkeys => ?_⟩
  rw [omniString, omniString, stdSet_congr hkeys]
  have hset := comparable_stdSet.2 hcomp
  refine Ties.flatten_eq_of_perm ((L.perm _).trans (L'.perm _).symm)
    (hL.sorted hset (nodup_stdSet keys)) (hL'.sorted hset (nodup_stdSet keys)) ?_
  intro x hx y hy hlast
  have hx' := mem_stdSet.1 ((L.perm _).mem_iff.1 hx)
  have hy' := mem_stdSet.1 ((L.perm _).mem_iff.1 hy)
  by_cases hne : x = y
  · rw [hne]
  obtain ⟨hxne, hyne⟩ := ne_nil_of_comparable hcomp hx' hy' hne
  exact hcomm x hx' y hy' ((lastChar_eq_iff hxne hyne).1 hlast)

/-- **Root digests.** The text that the manager hashes and the text that a client hashes are the
same, whatever `std::sort` returns, exactly if the keys can be compared and any two keys with the
same last character give the same text in both orders. -/
theorem rootDigest_iff (keys : List Bytes) : RootDetermined keys ↔
    Comparable keys ∧ ∀ x ∈ keys, ∀ y ∈ keys, x.getLast? = y.getLast? → x ++ y = y ++ x := by
  constructor
  · intro h
    exact ⟨h.comparable, fun x hx y hy => h.comm hx hy⟩
  · rintro ⟨hcomp, hcomm⟩
    exact rootDetermined_of_comm hcomp hcomm

/-- Two keys of 64 digits that end in the same digit. -/
def tiedKeys : List Bytes := [List.replicate 64 (ch '1'), ch '2' :: List.replicate 63 (ch '1')]

/-- They may be sorted either way. -/
theorem two_root_digests : ∃ (keys : List Bytes) (L L' : LastCharSort),
    (∀ k ∈ keys, k.length = 64 ∧ ∀ c ∈ k, isHex c) ∧ L.Ordered ∧ L'.Ordered ∧
      omniString L keys ≠ omniString L' keys := by
  have hset : stdSet tiedKeys = tiedKeys := by decide +kernel
  have hsorted : Ties.Sorted lastChar tiedKeys := by
    unfold Ties.Sorted
    decide +kernel
  have hsorted' : Ties.Sorted lastChar tiedKeys.reverse := by
    unfold Ties.Sorted
    decide +kernel
  obtain ⟨L, hL, hsort⟩ := exists_sort (List.Perm.refl _) hsorted
  obtain ⟨L', hL', hsort'⟩ := exists_sort (List.reverse_perm _) hsorted'
  refine ⟨tiedKeys, L, L', by decide +kernel, hL, hL', ?_⟩
  rw [omniString, omniString, hset, hsort, hsort']
  decide +kernel

/-- Keys of one length are hashed to a digest of their set exactly if no two of them have the same
last character. -/
theorem rootDetermined_iff_of_length {keys : List Bytes} {n : Nat}
    (hlen : ∀ k ∈ keys, k.length = n) :
    RootDetermined keys ↔ ∀ x ∈ keys, ∀ y ∈ keys, x.getLast? = y.getLast? → x = y := by
  constructor
  · intro h x hx y hy hlast
    have hcomm := h.comm hx hy hlast
    exact (List.append_inj hcomm (by rw [hlen x hx, hlen y hy])).1
  · intro h
    refine rootDetermined_of_comm (fun x hx y hy hne => ?_) fun x hx y hy hlast => ?_
    · have hnil : ∀ k ∈ keys, k ≠ [] := by
        rintro k hk rfl
        -- then all keys are empty, and the two are the same
        have hx0 : x = [] := List.length_eq_zero_iff.1 ((hlen x hx).trans (hlen [] hk).symm)
        have hy0 : y = [] := List.length_eq_zero_iff.1 ((hlen y hy).trans (hlen [] hk).symm)
        exact hne (hx0.trans hy0.symm)
      rw [lessBack_eq (hnil x hx) (hnil y hy)]
      rfl
    · rw [h x hx y hy hlast]

/-- The hexadecimal digits. -/
def hexDigits : List Byte := (List.finRange 256).filter isHex

/-- From the third epoch on the manager waits for more keys than there are digits, so some keys have
the same last character and the digest is not determined. -/
theorem not_rootDetermined_of_epoch {keys : List Bytes} {e : Int} (he : 3 ≤ e)
    (hnodup : keys.Nodup) (hkeys : ∀ k ∈ keys, k.length = 64 ∧ ∀ c ∈ k, isHex c)
    (hcount : expectedKeySize e ≤ keys.length) : ¬RootDetermined keys := by
  intro h
  have hinj := (rootDetermined_iff_of_length fun k hk => (hkeys k hk).1).1 h
  have hne : ∀ k ∈ keys, k ≠ [] := by
    rintro k hk rfl
    exact absurd (hkeys [] hk).1 (by decide)
  have hsub : keys.map List.getLast? ⊆ hexDigits.map some := by
    intro c hc
    obtain ⟨k, hk, rfl⟩ := List.mem_map.1 hc
    rw [List.getLast?_eq_some_getLast (hne k hk)]
    refine List.mem_map_of_mem (List.mem_filter.2 ⟨List.mem_finRange _, ?_⟩)
    exact (hkeys k hk).2 _ (List.getLast_mem _)
  have hlen := ((hnodup.map_on hinj).subperm hsub).length_le
  have hdigits : (hexDigits.map some).length = 22 := by decide +kernel
  have hsize : expectedKeySize e = 24 := by
    rw [expectedKeySize, if_neg (by omega), if_neg (by omega)]
    rfl
  rw [List.length_map] at hlen
  omega

end DeSearch
