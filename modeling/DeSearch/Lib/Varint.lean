import Mathlib.Algebra.Order.Ring.Nat
import Mathlib.Tactic.Ring

/-!
# Numbers in groups of seven bits

A number is written as groups of seven bits, low ones first, one to a byte. The eighth bit says that
more groups follow. So what is read back ends where the number ends, whatever comes after it.
-/

namespace Varint

/-- The groups of a number, at most `k` of them. -/
def encode : Nat → Nat → List (Fin 256)
  | 0, _ => []
  | k + 1, n =>
      if n < 128 then [Fin.ofNat 256 n] else Fin.ofNat 256 (n % 128 + 128) :: encode k (n / 128)

/-- The number at the front of a list, and what follows it. -/
def decode : List (Fin 256) → Option (Nat × List (Fin 256))
  | [] => none
  | b :: s =>
      if b.val < 128 then some (b.val, s)
      else (decode s).map fun r => (b.val % 128 + 128 * r.1, r.2)

/-- **Round trip.** -/
theorem decode_encode {k n : Nat} (h : n < 128 ^ (k + 1)) (s : List (Fin 256)) :
    decode (encode (k + 1) n ++ s) = some (n, s) := by
  induction k generalizing n with
  | zero =>
      have hn : n < 128 := by simpa using h
      rw [encode, if_pos hn, List.singleton_append, decode]
      rw [Fin.val_ofNat, Nat.mod_eq_of_lt (by omega), if_pos hn]
  | succ k ih =>
      rw [encode]
      split_ifs with hn
      · rw [List.singleton_append, decode, Fin.val_ofNat, Nat.mod_eq_of_lt (by omega), if_pos hn]
      · have hdiv : n / 128 < 128 ^ (k + 1) := by
          rw [Nat.div_lt_iff_lt_mul (by decide), ← pow_succ]
          exact h
        have hval : (Fin.ofNat 256 (n % 128 + 128)).val = n % 128 + 128 := by
          rw [Fin.val_ofNat, Nat.mod_eq_of_lt (by omega)]
        rw [List.cons_append, decode, if_neg (by rw [hval]; omega), ih hdiv, hval]
        have hmod : (n % 128 + 128) % 128 + 128 * (n / 128) = n := by omega
        rw [Option.map_some, hmod]

end Varint
