import Mathlib.Data.BitVec
import Mathlib.Tactic.Abel
import Mathlib.Tactic.Common

/-!
# A flat memory of bytes

Words of any number of bytes are loaded and stored with the lowest byte first, at any address, and
addresses wrap around. A range of `n` bytes from `a` on is `Within a n`; two ranges without a common
byte are `Apart`.

* `load_store` and `load_congr_of_within`: what is read after a write.
* `store_load`: a word that is written back changes nothing.
* `copy_copy`: copying piece by piece is copying at once, if the source is not overwritten.
-/

namespace Memory

abbrev Addr := BitVec 64

abbrev Mem := Addr → BitVec 8

/-- The word of `n` bytes at `a`. -/
def load (mem : Mem) (a : Addr) : (n : Nat) → BitVec (8 * n)
  | 0 => 0#0
  | n + 1 => load mem (a + 1) n ++ mem a

/-- The memory with a word of `n` bytes at `a`. -/
def store (mem : Mem) (a : Addr) (n : Nat) (v : BitVec (8 * n)) : Mem := fun x =>
  if (x - a).toNat < n then v.extractLsb' (8 * (x - a).toNat) 8 else mem x

/-- `n` bytes copied from `src` to `dst`, as if all were read before any is written. -/
def copy (mem : Mem) (dst src : Addr) (n : Nat) : Mem := fun x =>
  if (x - dst).toNat < n then mem (src + (x - dst)) else mem x

/-! ## Ranges -/

/-- The address is one of the `n` from `a` on. -/
def Within (a : Addr) (n : Nat) (x : Addr) : Prop := (x - a).toNat < n

instance (a : Addr) (n : Nat) : DecidablePred (Within a n) :=
  fun x => inferInstanceAs (Decidable ((x - a).toNat < n))

/-- The ranges have no byte in common. -/
def Apart (a : Addr) (n : Nat) (b : Addr) (m : Nat) : Prop := ∀ x, Within a n x → ¬Within b m x

variable {mem mem' : Mem} {a b dst src x : Addr} {n m k l i j : Nat}

theorem Apart.symm (h : Apart a n b m) : Apart b m a n := fun x hb ha => h x ha hb

theorem toNat_ofNat_of_lt (h : i < 2 ^ 64) : (BitVec.ofNat 64 i).toNat = i := by
  rw [BitVec.toNat_ofNat, Nat.mod_eq_of_lt h]

theorem within_add (h : i < n) (hi : i < 2 ^ 64) : Within a n (a + BitVec.ofNat 64 i) := by
  unfold Within
  rwa [add_sub_cancel_left, toNat_ofNat_of_lt hi]

theorem Within.toNat_sub (h : Within (a + BitVec.ofNat 64 k) n x) (hlen : k + n ≤ 2 ^ 64) :
    (x - a).toNat = (x - (a + BitVec.ofNat 64 k)).toNat + k := by
  have hsplit : x - a = x - (a + BitVec.ofNat 64 k) + BitVec.ofNat 64 k := by abel
  unfold Within at h
  rw [hsplit, BitVec.toNat_add, toNat_ofNat_of_lt (by omega), Nat.mod_eq_of_lt (by omega)]

/-- A part of a range. -/
theorem Within.of_part (h : Within (a + BitVec.ofNat 64 k) n x) (hk : k + n ≤ m)
    (hm : m ≤ 2 ^ 64) : Within a m x := by
  have hsub := h.toNat_sub (by omega)
  unfold Within at h ⊢
  omega

/-- Two parts of a range, one behind the other. -/
theorem Within.not_before (h : Within (a + BitVec.ofNat 64 k) n x) (hlen : k + n ≤ 2 ^ 64) :
    ¬Within a k x := by
  have hsub := h.toNat_sub hlen
  unfold Within
  omega

theorem Apart.of_parts (h : Apart a n b m) (hk : k + i ≤ n) (hn : n ≤ 2 ^ 64) (hl : l + j ≤ m)
    (hm : m ≤ 2 ^ 64) :
    Apart (a + BitVec.ofNat 64 k) i (b + BitVec.ofNat 64 l) j :=
  fun x hx hx' => h x (hx.of_part hk hn) (hx'.of_part hl hm)

/-- A range that ends before the other starts. -/
theorem apart_of_le (h : a.toNat + n ≤ b.toNat) (hb : b.toNat + m ≤ 2 ^ 64) : Apart a n b m := by
  intro x hx hx'
  have hlt := x.isLt
  unfold Within at hx hx'
  rw [BitVec.toNat_sub] at hx hx'
  omega

/-! ## Loads and stores -/

theorem getLsbD_load (mem : Mem) (a : Addr) (hi : i < 8 * n) :
    (load mem a n).getLsbD i = (mem (a + BitVec.ofNat 64 (i / 8))).getLsbD (i % 8) := by
  induction n generalizing a i with
  | zero => exact absurd hi (Nat.not_lt_zero i)
  | succ n ih =>
      rw [load, BitVec.getLsbD_append]
      by_cases hlow : i < 8
      · simp [hlow, Nat.div_eq_of_lt hlow, Nat.mod_eq_of_lt hlow]
      · have hnext : a + 1 + BitVec.ofNat 64 ((i - 8) / 8) = a + BitVec.ofNat 64 (i / 8) := by
          have hdiv : i / 8 = 1 + (i - 8) / 8 := by omega
          rw [hdiv, BitVec.ofNat_add, add_assoc]
          rfl
        have hmod : (i - 8) % 8 = i % 8 := by omega
        rw [if_neg hlow, ih _ (by omega), hnext, hmod]

/-- A word depends on its bytes only. -/
theorem load_congr (h : ∀ i < n, mem (a + BitVec.ofNat 64 i) = mem' (a + BitVec.ofNat 64 i)) :
    load mem a n = load mem' a n := by
  apply BitVec.eq_of_getLsbD_eq
  intro i hi
  rw [getLsbD_load mem a hi, getLsbD_load mem' a hi, h _ (by omega)]

theorem load_congr_of_within (hn : n ≤ 2 ^ 64) (h : ∀ x, Within a n x → mem x = mem' x) :
    load mem a n = load mem' a n :=
  load_congr fun _ hi => h _ (within_add hi (by omega))

theorem store_of_not_within {v : BitVec (8 * n)} (h : ¬Within a n x) :
    store mem a n v x = mem x := if_neg h

theorem copy_of_within (h : Within dst n x) : copy mem dst src n x = mem (src + (x - dst)) :=
  if_pos h

theorem copy_of_not_within (h : ¬Within dst n x) : copy mem dst src n x = mem x := if_neg h

theorem store_congr {S : Addr → Prop} (h : ∀ x, S x → mem x = mem' x) (a : Addr) (n : Nat)
    (v : BitVec (8 * n)) : ∀ x, S x → store mem a n v x = store mem' a n v x := by
  intro x hx
  unfold store
  rw [h x hx]

theorem copy_congr {S : Addr → Prop} (hsrc : ∀ x, Within src n x → S x)
    (h : ∀ x, S x → mem x = mem' x) (dst : Addr) :
    ∀ x, S x → copy mem dst src n x = copy mem' dst src n x := by
  intro x hx
  by_cases hdst : Within dst n x
  · rw [copy_of_within hdst, copy_of_within hdst]
    apply h
    apply hsrc
    unfold Within
    rwa [add_sub_cancel_left]
  · rw [copy_of_not_within hdst, copy_of_not_within hdst, h x hx]

theorem load_store (hn : n ≤ 2 ^ 64) (v : BitVec (8 * n)) : load (store mem a n v) a n = v := by
  apply BitVec.eq_of_getLsbD_eq
  intro i hi
  have hdiv : i / 8 < n := by omega
  rw [getLsbD_load _ a hi, store]
  simp only [add_sub_cancel_left, toNat_ofNat_of_lt (show i / 8 < 2 ^ 64 by omega), hdiv, if_true]
  rw [BitVec.getLsbD_extractLsb', Nat.div_add_mod]
  simp [Nat.mod_lt]

theorem extractLsb'_load (mem : Mem) (a : Addr) (hk : k < n) :
    (load mem a n).extractLsb' (8 * k) 8 = mem (a + BitVec.ofNat 64 k) := by
  apply BitVec.eq_of_getLsbD_eq
  intro i hi
  rw [BitVec.getLsbD_extractLsb', getLsbD_load mem a (by omega)]
  have hdiv : (8 * k + i) / 8 = k := by omega
  have hmod : (8 * k + i) % 8 = i := by omega
  simp [hi, hdiv, hmod]

/-- A word that is moved is copied. -/
theorem store_load_eq_copy (mem : Mem) (dst src : Addr) (n : Nat) :
    store mem dst n (load mem src n) = copy mem dst src n := by
  funext x
  unfold store copy
  split_ifs with h
  · rw [extractLsb'_load mem src h, BitVec.ofNat_toNat, BitVec.setWidth_eq]
  · rfl

theorem copy_zero (mem : Mem) (dst src : Addr) : copy mem dst src 0 = mem :=
  funext fun _ => if_neg (Nat.not_lt_zero _)

theorem copy_self (mem : Mem) (a : Addr) (n : Nat) : copy mem a a n = mem := by
  funext x
  unfold copy
  split_ifs
  · rw [add_sub_cancel]
  · rfl

/-- A word that is written back changes nothing. -/
theorem store_load (mem : Mem) (a : Addr) (n : Nat) : store mem a n (load mem a n) = mem := by
  rw [store_load_eq_copy, copy_self]

/-- A copy in two pieces, each from the memory at the start. -/
theorem copy_add (mem : Mem) (dst src : Addr) (hlen : n + m ≤ 2 ^ 64) (x : Addr) :
    copy mem dst src (n + m) x = if Within dst n x then mem (src + (x - dst))
      else copy mem (dst + BitVec.ofNat 64 n) (src + BitVec.ofNat 64 n) m x := by
  by_cases hearly : Within dst n x
  · rw [if_pos hearly, copy_of_within (Nat.lt_of_lt_of_le hearly (Nat.le_add_right n m))]
  · rw [if_neg hearly]
    by_cases hlate : Within (dst + BitVec.ofNat 64 n) m x
    · have hfrom : src + BitVec.ofNat 64 n + (x - (dst + BitVec.ofNat 64 n)) = src + (x - dst) := by
        abel
      rw [copy_of_within hlate, copy_of_within (hlate.of_part le_rfl hlen), hfrom]
    · rw [copy_of_not_within hlate, copy_of_not_within]
      intro hlt
      apply hlate
      unfold Within at hearly hlt ⊢
      have hsub : x - (dst + BitVec.ofNat 64 n) = x - dst - BitVec.ofNat 64 n := by abel
      rw [hsub, BitVec.toNat_sub_of_le, toNat_ofNat_of_lt (by omega)]
      · omega
      · rw [BitVec.le_def, toNat_ofNat_of_lt (by omega)]
        omega

theorem copy_of_apart (h : Apart src k dst n) (hx : x.toNat < k) :
    copy mem dst a n (src + x) = mem (src + x) := by
  apply copy_of_not_within
  apply h
  unfold Within
  rwa [add_sub_cancel_left]

/-- Copying piece by piece is copying at once, if the source is not overwritten. -/
theorem copy_copy (mem : Mem) (hlen : n + m ≤ 2 ^ 64) (h : Apart src (n + m) dst (n + m)) :
    copy (copy mem dst src n) (dst + BitVec.ofNat 64 n) (src + BitVec.ofNat 64 n) m =
      copy mem dst src (n + m) := by
  have hfirst : Apart src (n + m) dst n :=
    fun x hx hx' => h x hx (Nat.lt_of_lt_of_le hx' (Nat.le_add_right n m))
  funext x
  rw [copy_add mem dst src hlen]
  by_cases hearly : Within dst n x
  · have hlate : ¬Within (dst + BitVec.ofNat 64 n) m x := fun hx => hx.not_before hlen hearly
    rw [if_pos hearly, copy_of_not_within hlate, copy_of_within hearly]
  · rw [if_neg hearly]
    by_cases hlate : Within (dst + BitVec.ofNat 64 n) m x
    · have hfrom : src + BitVec.ofNat 64 n + (x - (dst + BitVec.ofNat 64 n)) = src + (x - dst) := by
        abel
      rw [copy_of_within hlate, copy_of_within hlate, hfrom,
        copy_of_apart hfirst (hlate.of_part le_rfl hlen)]
    · rw [copy_of_not_within hlate, copy_of_not_within hlate, copy_of_not_within hearly]

/-- The pieces in the other order. -/
theorem copy_copy_back (mem : Mem) (hlen : n + m ≤ 2 ^ 64) (h : Apart src (n + m) dst (n + m)) :
    copy (copy mem (dst + BitVec.ofNat 64 n) (src + BitVec.ofNat 64 n) m) dst src n =
      copy mem dst src (n + m) := by
  have hfirst : Apart src (n + m) (dst + BitVec.ofNat 64 n) m :=
    fun x hx hx' => h x hx (hx'.of_part le_rfl hlen)
  funext x
  rw [copy_add mem dst src hlen]
  by_cases hearly : Within dst n x
  · rw [if_pos hearly, copy_of_within hearly,
      copy_of_apart hfirst (Nat.lt_of_lt_of_le hearly (Nat.le_add_right n m))]
  · rw [if_neg hearly, copy_of_not_within hearly]

end Memory
