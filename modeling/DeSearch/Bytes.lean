import Mathlib.Algebra.Order.Ring.Nat
import Mathlib.Data.List.Lex
import Mathlib.Data.List.TakeWhile
import Mathlib.Order.Fin.Basic

/-!
# Byte strings

Everything DeSearch stores, signs or sends is a `std::string` or a `char *` buffer. Both are
byte lists here. A C string function sees only the bytes before the first NUL (`cString`), and
a 32-bit word lies in memory with its low byte first (`leBytes`).
-/

namespace DeSearch

/-- A `char` of the source. -/
abbrev Byte := Fin 256

scoped instance neZeroByte : NeZero 256 := ⟨by decide⟩

/-- A `std::string`, or the contents of a buffer. -/
abbrev Bytes := List Byte

/-- The byte of an ASCII character. -/
def ch (c : Char) : Byte := Fin.ofNat 256 c.toNat

@[simp] theorem ch_eq_ch (c d : Char) : ch c = ch d ↔ c.toNat % 256 = d.toNat % 256 := by
  simp [ch, Fin.ext_iff]

/-- The bytes of an ASCII literal. -/
def ascii (s : String) : Bytes := s.toList.map ch

/-! ## C strings -/

/-- What `strlen`, `strncpy` and the `const char *` constructors see of a buffer. -/
def cString (s : Bytes) : Bytes := s.takeWhile (· ≠ 0)

/-- No NUL byte occurs in the string. -/
def NulFree (s : Bytes) : Prop := 0 ∉ s

instance (s : Bytes) : Decidable (NulFree s) := inferInstanceAs (Decidable (0 ∉ s))

@[simp] theorem nulFree_nil : NulFree [] := List.not_mem_nil

@[simp] theorem nulFree_cons {b : Byte} {s : Bytes} :
    NulFree (b :: s) ↔ b ≠ 0 ∧ NulFree s := by
  simp only [NulFree, List.mem_cons, not_or, ne_comm]

@[simp] theorem nulFree_append {s t : Bytes} : NulFree (s ++ t) ↔ NulFree s ∧ NulFree t := by
  simp only [NulFree, List.mem_append, not_or]

theorem NulFree.take {s : Bytes} (h : NulFree s) (n : Nat) : NulFree (s.take n) :=
  fun hz => h (List.mem_of_mem_take hz)

theorem cString_of_nulFree {s : Bytes} (h : NulFree s) : cString s = s := by
  refine List.takeWhile_eq_self_iff.2 fun b hb => ?_
  have : b ≠ 0 := fun hb0 => h (hb0 ▸ hb)
  simpa using this

theorem nulFree_cString (s : Bytes) : NulFree (cString s) := by
  intro hz
  simpa using List.mem_takeWhile_imp hz

theorem nulFree_map_cString (items : List Bytes) : ∀ x ∈ items.map cString, NulFree x :=
  List.forall_mem_map.2 fun y _ => nulFree_cString y

/-! ## 32-bit words -/

/-- `DWORD`. -/
abbrev DWord := BitVec 32

/-- The four bytes of a 32-bit word in memory, low byte first. -/
def leBytes (n : Nat) : Bytes :=
  [Fin.ofNat 256 n, Fin.ofNat 256 (n / 2 ^ 8), Fin.ofNat 256 (n / 2 ^ 16),
    Fin.ofNat 256 (n / 2 ^ 24)]

/-- The word that four bytes spell. -/
def leNat (a b c d : Byte) : Nat :=
  a.val + 2 ^ 8 * b.val + 2 ^ 16 * c.val + 2 ^ 24 * d.val

theorem length_leBytes (n : Nat) : (leBytes n).length = 4 := rfl

/-- Writing a word and reading it back. -/
theorem leNat_leBytes (n : Nat) (h : n < 2 ^ 32) :
    leNat (Fin.ofNat 256 n) (Fin.ofNat 256 (n / 2 ^ 8)) (Fin.ofNat 256 (n / 2 ^ 16))
      (Fin.ofNat 256 (n / 2 ^ 24)) = n := by
  simp only [leNat, Fin.val_ofNat]
  omega

end DeSearch
