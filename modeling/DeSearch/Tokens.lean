import DeSearch.Json
import DeSearch.Lib.Runs

/-!
# Words and their numbers

The tokenizer is the one of Sphinx, and a parameter of the model. On plain English text it finds the
maximal runs of letters and digits and folds capital letters (`wordsIn`); `sphCRC32` numbers the
words it finds.
-/

namespace DeSearch

open JSON Runs

/-! ## Words -/

/-- An ASCII letter or a digit. -/
def isAlnum (c : Byte) : Bool := isDigit c || (97 ≤ c && c ≤ 122) || (65 ≤ c && c ≤ 90)

/-- Capital letters are folded. -/
def lowerByte (c : Byte) : Byte := if 65 ≤ c ∧ c ≤ 90 then c + 32 else c

def lower (w : Bytes) : Bytes := w.map lowerByte

/-- Letters and digits make up words, and nothing else does. -/
def wordStart (c : Byte) : Option Bytes := if isAlnum c then none else some []

/-- The words of a text, in lower case. -/
def wordsIn (text : Bytes) : List Bytes := (runs wordStart [] text).map lower

/-- A text of letters and digits is one word. -/
theorem wordsIn_of_alnum {text : Bytes} (hne : text ≠ []) (h : ∀ c ∈ text, isAlnum c) :
    wordsIn text = [lower text] := by
  have hletters : ∀ c ∈ text, wordStart c = none := fun c hc => if_pos (h c hc)
  have hruns := runs_letters hletters [] []
  rw [List.append_nil, List.nil_append] at hruns
  rw [wordsIn, hruns, runs]
  cases text with
  | nil => exact absurd rfl hne
  | cons c s => rfl

theorem isAlnum_lowerByte {c : Byte} (h : isAlnum c) :
    isAlnum (lowerByte c) ∧ lowerByte (lowerByte c) = lowerByte c := by
  revert c
  decide +kernel

/-- What a word of a text is made of. -/
theorem alnum_of_mem_wordsIn {text w : Bytes} (h : w ∈ wordsIn text) :
    w ≠ [] ∧ (∀ c ∈ w, isAlnum c) ∧ lower w = w := by
  obtain ⟨run, hrun, rfl⟩ := List.mem_map.1 h
  obtain ⟨hne, hjoins⟩ := mem_runs.1 hrun
  -- a separator leaves nothing, so a run is all letters
  have hletters : ∀ {s : Bytes}, Joins wordStart [] s run → ∀ c ∈ run, isAlnum c := by
    rintro s ⟨u, rest, -, hu, -, rfl⟩ c hc
    have hnone := hu c hc
    rw [wordStart] at hnone
    split_ifs at hnone with halnum
    exact halnum
  have hall : ∀ c ∈ run, isAlnum c := by
    rcases hjoins with hjoins | ⟨front, c, left, rest, -, hc, hjoins⟩
    · exact hletters hjoins
    · rw [wordStart] at hc
      split_ifs at hc
      cases hc
      exact hletters hjoins
  refine ⟨by simpa [lower] using hne, fun c hc => ?_, ?_⟩
  · obtain ⟨d, hd, rfl⟩ := List.mem_map.1 hc
    exact (isAlnum_lowerByte (hall d hd)).1
  · rw [lower, lower, List.map_map]
    exact List.map_congr_left fun c hc => (isAlnum_lowerByte (hall c hc)).2

/-- A word between quotes. -/
theorem wordsIn_quoted {text : Bytes} (hne : text ≠ []) (h : ∀ c ∈ text, isAlnum c) :
    wordsIn (34 :: (text ++ [34])) = [lower text] := by
  have hquote : wordStart 34 = some [] := by decide
  have hword := wordsIn_of_alnum hne h
  rw [wordsIn] at hword ⊢
  rw [runs_separator hquote, runs_append_separator hquote]
  simpa [close, runs] using hword

/-! ## Numbers -/

/-- One bit of the remainder. -/
def crcBit (n : Nat) : Nat := if n % 2 = 1 then (n / 2) ^^^ 0xEDB88320 else n / 2

/-- One turn of the loop of `sphCRC32`. The source has the eight bits in a table. -/
def crcByte (crc : Nat) (c : Byte) : Nat := crcBit^[8] (crc ^^^ c.val)

/-- `sphCRC32`. -/
def sphCRC32 (s : Bytes) : DWord := BitVec.ofNat 32 (s.foldl crcByte 0xFFFFFFFF ^^^ 0xFFFFFFFF)

example : sphCRC32 (ascii "123456789") = 0xCBF43926 := by decide +kernel

end DeSearch
