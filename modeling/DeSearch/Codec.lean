import DeSearch.Bytes
import DeSearch.Lib.Delimited

/-!
# Binary formats of digests and indexes

The codecs of `Utility.hpp`. A digest table is written as NUL-terminated strings. An index table
is written as 32-bit words: for each key the key, its document ids, and a zero. A blob puts the
two behind the byte length of the index.

The decoders return `none` where the source reads or writes out of range or throws. The order in
which an `unordered_map` is enumerated is not specified: it is a parameter (`HashOrder`).
-/

namespace DeSearch

/-! ## Digests -/

/-- `TEMP_DIGEST_LEN`: the scratch buffer of `Binary2Digest`. -/
def tempDigestLen : Nat := 64 * 1024

/-- `Digest2Binary`. `strncpy` copies a string up to its first NUL and fills the rest of its
place with NULs; one more NUL delimits it. -/
def digest2Binary (digest : List Bytes) : Bytes :=
  digest.flatMap fun di =>
    cString di ++ List.replicate (di.length - (cString di).length) 0 ++ [0]

/-- `Binary2Digest`: bytes are collected in the scratch buffer up to the next NUL. A string that
fills the whole buffer overruns it, or leaves it without a terminator. -/
def binary2Digest (bin : Bytes) : Option (List Bytes) :=
  Delimited.segments 0 tempDigestLen [] bin

theorem digest2Binary_eq_terminate {digest : List Bytes} (h : ∀ di ∈ digest, NulFree di) :
    digest2Binary digest = Delimited.terminate 0 digest := by
  refine List.flatMap_congr fun di hdi => ?_
  simp [cString_of_nulFree (h di hdi)]

theorem length_digest2Binary (digest : List Bytes) :
    (digest2Binary digest).length = (digest.map fun di => di.length + 1).sum := by
  have hle : ∀ di : Bytes, (cString di).length ≤ di.length := fun di =>
    (List.takeWhile_sublist _).length_le
  rw [digest2Binary, List.length_flatMap]
  congr 1
  refine List.map_congr_left fun di _ => ?_
  have := hle di
  simp
  omega

theorem binary2Digest_digest2Binary {digest : List Bytes} (h : ∀ di ∈ digest, NulFree di)
    (hlen : ∀ di ∈ digest, di.length < tempDigestLen) :
    binary2Digest (digest2Binary digest) = some digest := by
  rw [digest2Binary_eq_terminate h]
  exact Delimited.segments_terminate_self h hlen

/-- A string that fills the scratch buffer is the end of it. -/
theorem binary2Digest_digest2Binary_overrun {digest : List Bytes} {di : Bytes}
    (h : ∀ di ∈ digest, NulFree di) (hdi : di ∈ digest) (hlen : tempDigestLen ≤ di.length) :
    binary2Digest (digest2Binary digest) = none := by
  rw [digest2Binary_eq_terminate h]
  exact Delimited.segments_terminate_overrun h hdi hlen

theorem nulFree_of_binary2Digest {bin : Bytes} {digest : List Bytes}
    (h : binary2Digest bin = some digest) : ∀ di ∈ digest, NulFree di :=
  Delimited.not_mem_of_segments List.not_mem_nil h

/-! ## Indexes -/

/-- `unordered_map<DWORD, vector<DWORD>>`: wordID to docIDs. -/
abbrev IndexTbl := Multimap DWord DWord

/-- The order in which an `unordered_map` hands out its entries. -/
structure HashOrder where
  enum : IndexTbl → List (DWord × List DWord)
  perm : ∀ tbl, (enum tbl).Perm tbl.entries

/-- The words of a buffer; a last piece of less than four bytes is not one. -/
def words : Bytes → List DWord
  | a :: b :: c :: d :: s => BitVec.ofNat 32 (leNat a b c d) :: words s
  | _ => []

/-- A buffer holding the given words. -/
def ofWords (ws : List DWord) : Bytes := ws.flatMap fun w => leBytes w.toNat

/-- `Index2Binary`. -/
def index2Binary (O : HashOrder) (index : IndexTbl) : Bytes :=
  ofWords (Delimited.records 0 (O.enum index))

/-- `Binary2Index` on the buffer that starts at `index_bin`. A negative size makes `resize`
throw, a size that is no multiple of four overruns `recovery_vector`, and a size beyond the
buffer reads past it. -/
def binary2Index (bin : Bytes) (size : Int) : Option IndexTbl :=
  if size < 0 ∨ size % 4 ≠ 0 ∨ (bin.length : Int) < size then none
  else some (Multimap.empty.pushAll (Delimited.pairs 0 none (words (bin.take size.toNat))))

theorem length_ofWords (ws : List DWord) : (ofWords ws).length = 4 * ws.length := by
  simp only [ofWords, List.length_flatMap, length_leBytes]
  simp [Nat.mul_comm]

theorem length_words_le (s : Bytes) : 4 * (words s).length ≤ s.length := by
  fun_induction words s with
  | case1 a b c d s ih =>
      simp only [List.length_cons]
      omega
  | case2 => exact Nat.zero_le _

theorem words_ofWords (ws : List DWord) : words (ofWords ws) = ws := by
  induction ws with
  | nil => rfl
  | cons w ws ih =>
      have hcons : ofWords (w :: ws) = leBytes w.toNat ++ ofWords ws := rfl
      rw [hcons, leBytes]
      simp only [List.cons_append, List.nil_append, words, ih]
      rw [leNat_leBytes w.toNat w.isLt, BitVec.ofNat_toNat, BitVec.setWidth_eq]

/-- An index without the docID 0 is read back, for every order of enumeration. -/
theorem binary2Index_index2Binary (O : HashOrder) {index : IndexTbl}
    (hz : ∀ p ∈ index.entries, 0 ∉ p.2) (s : Bytes) :
    ∃ tbl, binary2Index (index2Binary O index ++ s) (index2Binary O index).length = some tbl ∧
      tbl.NoEmpty ∧ ∀ w, tbl.find w = index.find w := by
  have hz' : ∀ p ∈ O.enum index, (0 : DWord) ∉ p.2 := fun p hp =>
    hz p ((O.perm index).mem_iff.1 hp)
  have hsize : (index2Binary O index).length % 4 = 0 := by
    rw [index2Binary, length_ofWords]
    omega
  have hok : ¬(((index2Binary O index).length : Int) < 0 ∨
      ((index2Binary O index).length : Int) % 4 ≠ 0 ∨
      ((index2Binary O index ++ s).length : Int) < (index2Binary O index).length) := by
    rw [List.length_append]
    omega
  refine ⟨_, if_neg hok, Multimap.noEmpty_empty.pushAll _, fun w => ?_⟩
  rw [Int.toNat_natCast, List.take_left' rfl, index2Binary, words_ofWords,
    Delimited.pairs_records hz', Multimap.find_pushAll_pushesOf (O.perm index)]

/-- The lists of a decoded index have no zero in them, and together fit its size. -/
theorem find_of_binary2Index {bin : Bytes} {size : Int} {tbl : IndexTbl}
    (h : binary2Index bin size = some tbl) (w : DWord) :
    0 ∉ tbl.find w ∧ 4 * ((tbl.find w).length : Int) ≤ size := by
  unfold binary2Index at h
  split_ifs at h with hbad
  obtain rfl := Option.some.inj h
  rw [Multimap.find_pushAll, Multimap.find_empty, List.nil_append]
  constructor
  · intro hz
    obtain ⟨p, hp, heq⟩ := List.mem_filterMap.1 hz
    split_ifs at heq
    exact Delimited.ne_of_mem_pairs p hp (Option.some.inj heq)
  · have hlen := List.length_filterMap_le
      (fun p => if p.1 = w then some p.2 else none)
      (Delimited.pairs (0 : DWord) none (words (bin.take size.toNat)))
    have hpairs := Delimited.length_pairs_le (z := (0 : DWord)) none (words (bin.take size.toNat))
    have hwords := length_words_le (bin.take size.toNat)
    have htake := List.length_take_le size.toNat bin
    omega

/-! ## Blobs -/

/-- `Merge2Binary`. -/
def merge2Binary (O : HashOrder) (digest : List Bytes) (index : IndexTbl) : Bytes :=
  leBytes (index2Binary O index).length ++ index2Binary O index ++ digest2Binary digest

/-- The `int` at the start of a blob. -/
def readInt : Bytes → Option Int
  | a :: b :: c :: d :: _ => some (Int.bmod (leNat a b c d) (2 ^ 32))
  | _ => none

/-- How `ecall_do_merge` and `ecall_querier_setup` take a blob apart: the index size, the index
of that size, and the digests in the rest. -/
def readBlob (blob : Bytes) : Option (IndexTbl × List Bytes) :=
  match readInt blob with
  | none => none
  | some size =>
      match binary2Index (blob.drop 4) size with
      | none => none
      | some index => (binary2Digest ((blob.drop 4).drop size.toNat)).map fun digest =>
          (index, digest)

theorem readInt_lt {blob : Bytes} {size : Int} (h : readInt blob = some size) : size < 2 ^ 31 := by
  unfold readInt at h
  split at h
  · obtain rfl := Option.some.inj h
    exact Int.bmod_lt (by decide)
  · cases h

theorem readBlob_eq_some {blob : Bytes} {index : IndexTbl} {digest : List Bytes} :
    readBlob blob = some (index, digest) ↔ ∃ size, readInt blob = some size ∧
      binary2Index (blob.drop 4) size = some index ∧
      binary2Digest ((blob.drop 4).drop size.toNat) = some digest := by
  unfold readBlob
  constructor
  · intro h
    split at h
    · cases h
    · split at h
      · cases h
      · obtain ⟨digest, hdigest, heq⟩ := Option.map_eq_some_iff.1 h
        cases heq
        exact ⟨_, ‹_›, ‹_›, hdigest⟩
  · rintro ⟨size, hsize, hindex, hdigest⟩
    simp only [hsize, hindex, hdigest, Option.map_some]

/-- Reading back what `Merge2Binary` wrote. -/
theorem readBlob_merge2Binary (O : HashOrder) {digest : List Bytes} {index : IndexTbl}
    (hnul : ∀ di ∈ digest, NulFree di) (hlen : ∀ di ∈ digest, di.length < tempDigestLen)
    (hz : ∀ p ∈ index.entries, 0 ∉ p.2) (hsize : (index2Binary O index).length < 2 ^ 31) :
    ∃ tbl, readBlob (merge2Binary O digest index) = some (tbl, digest) ∧
      tbl.NoEmpty ∧ ∀ w, tbl.find w = index.find w := by
  obtain ⟨tbl, htbl, hne, hfind⟩ := binary2Index_index2Binary O hz (digest2Binary digest)
  refine ⟨tbl, ?_, hne, hfind⟩
  have hint :
      readInt (merge2Binary O digest index) = some ((index2Binary O index).length : Int) := by
    rw [merge2Binary, leBytes]
    simp only [List.cons_append, readInt]
    rw [leNat_leBytes _ (by omega), Int.bmod_eq_of_le (by omega) (by omega)]
  have hdrop : (merge2Binary O digest index).drop 4 =
      index2Binary O index ++ digest2Binary digest := by
    rw [merge2Binary, List.append_assoc]
    rfl
  rw [readBlob, hint]
  simp only [hdrop, htbl, Int.toNat_natCast, List.drop_left' rfl,
    binary2Digest_digest2Binary hnul hlen, Option.map_some]

end DeSearch
