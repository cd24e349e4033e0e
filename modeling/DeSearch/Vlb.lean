import DeSearch.Codec
import DeSearch.Lib.Varint
import Mathlib.Data.List.Chain

/-!
# Variable length bytes

`_VLB_coder` keeps a list of docIDs as the differences between neighbours, each in groups of seven
bits. The ORAM querier holds its posting lists in this form (`Zip`), writes them to a buffer
(`marshall_VLB_to_buffer`) and decodes them from there for each query (`Dump_VLB`).

A list of docIDs other than zero comes back unchanged if no two neighbours are equal, also where it
decreases and a difference wraps around. No other list would: `Zip` drops a docID equal to the last
one, and `Dump_VLB` ends at a zero. The buffer's size is an `int`, which bounds the encoding.
-/

namespace DeSearch

/-! ## Words -/

/-- `ZipDword`. A `DWORD` has at most five groups, so the loop is left in the fifth turn. -/
def zipDword : Nat → DWord → Bytes
  | 0, _ => []
  | turns + 1, uValue =>
      let bOut := uValue &&& 0x7f
      let uValue := uValue >>> 7
      if uValue = 0 then [Fin.ofNat 256 bOut.toNat]
      else Fin.ofNat 256 (bOut ||| 0x80).toNat :: zipDword turns uValue

/-- `UnzipDword`: the value and where the pointer stands behind it. The loop ends at a byte without
the high bit; without one it runs out of the buffer. -/
def unzipDword (uValue : DWord) (iOff : Nat) : Bytes → Option (DWord × Bytes)
  | [] => none
  | bIn :: pIn =>
      let uValue := uValue + (BitVec.ofNat 32 (bIn.val &&& 0x7f)) <<< iOff
      if bIn.val &&& 0x80 = 0 then some (uValue, pIn) else unzipDword uValue (iOff + 7) pIn

theorem and_low_bits (n : Nat) : n &&& 0x7f = n % 128 := Nat.and_two_pow_sub_one_eq_mod n 7

theorem and_high_bit : ∀ b : Byte, b.val &&& 0x80 = 0 ↔ b.val < 128 := by decide +kernel

theorem or_high_bit : ∀ n < 128, n ||| 0x80 = n + 128 := by decide

theorem zipDword_eq (turns : Nat) (uValue : DWord) :
    zipDword turns uValue = Varint.encode turns uValue.toNat := by
  induction turns generalizing uValue with
  | zero => rfl
  | succ turns ih =>
      have hlow : (uValue &&& 0x7f).toNat = uValue.toNat % 128 := by
        rw [BitVec.toNat_and]
        exact and_low_bits _
      have hshift : (uValue >>> 7).toNat = uValue.toNat / 128 := by
        rw [BitVec.toNat_ushiftRight, Nat.shiftRight_eq_div_pow]
      have hor : ((uValue &&& 0x7f) ||| 0x80).toNat = uValue.toNat % 128 + 128 := by
        rw [BitVec.toNat_or, hlow]
        exact or_high_bit _ (Nat.mod_lt _ (by decide))
      have hzero : uValue >>> 7 = 0 ↔ uValue.toNat < 128 := by
        rw [← BitVec.toNat_inj, hshift]
        exact Nat.div_eq_zero_iff_lt (by decide)
      simp only [zipDword, Varint.encode, hzero, hor, hlow, ih, hshift]
      split_ifs with hsmall
      · rw [Nat.mod_eq_of_lt hsmall]
      · rfl

theorem unzipDword_of_decode {s r : Bytes} {n : Nat} (h : Varint.decode s = some (n, r))
    (uValue : DWord) (iOff : Nat) :
    unzipDword uValue iOff s = some (uValue + BitVec.ofNat 32 (n * 2 ^ iOff), r) := by
  induction s generalizing n uValue iOff with
  | nil => exact nomatch h
  | cons bIn pIn ih =>
      have hgroup : BitVec.ofNat 32 (bIn.val % 128) <<< iOff =
          BitVec.ofNat 32 (bIn.val % 128 * 2 ^ iOff) := by
        apply BitVec.eq_of_toNat_eq
        simp [BitVec.toNat_shiftLeft, Nat.shiftLeft_eq]
      rw [Varint.decode] at h
      rw [unzipDword, and_low_bits]
      simp only [and_high_bit]
      split_ifs at h ⊢ with hsmall
      · cases h
        rw [hgroup, Nat.mod_eq_of_lt hsmall]
      · obtain ⟨⟨m, r'⟩, hrest, heq⟩ := Option.map_eq_some_iff.1 h
        cases heq
        rw [ih hrest, hgroup, BitVec.add_assoc, ← BitVec.ofNat_add]
        congr 4
        ring

/-- A word comes back, whatever follows it and however many turns the loop may take. -/
theorem unzipDword_zipDword_of_le {turns : Nat} (h : 5 ≤ turns) (uValue : DWord) (s : Bytes) :
    unzipDword 0 0 (zipDword turns uValue ++ s) = some (uValue, s) := by
  obtain ⟨k, rfl⟩ : ∃ k, turns = k + 4 + 1 := ⟨turns - 5, by omega⟩
  have hfive : uValue.toNat < 128 ^ 5 := lt_of_lt_of_le uValue.isLt (by decide)
  have hlt : uValue.toNat < 128 ^ (k + 4 + 1) :=
    lt_of_lt_of_le hfive (Nat.pow_le_pow_right (by decide) (by omega))
  rw [zipDword_eq, unzipDword_of_decode (Varint.decode_encode hlt s)]
  simp

theorem unzipDword_zipDword (uValue : DWord) (s : Bytes) :
    unzipDword 0 0 (zipDword 5 uValue ++ s) = some (uValue, s) :=
  unzipDword_zipDword_of_le le_rfl uValue s

theorem zipDword_ne_nil (turns : Nat) (uValue : DWord) : zipDword (turns + 1) uValue ≠ [] := by
  rw [zipDword]
  split_ifs <;> simp

theorem length_zipDword_le (turns : Nat) (uValue : DWord) :
    (zipDword turns uValue).length ≤ turns := by
  induction turns generalizing uValue with
  | zero => exact le_rfl
  | succ turns ih =>
      rw [zipDword]
      split_ifs
      · exact Nat.succ_le_succ (Nat.zero_le _)
      · exact Nat.succ_le_succ (ih _)

/-! ## The coder -/

/-- `_VLB_coder`. The pointer `m_pCur` only matters while a list is decoded, see `dumpFrom`. -/
structure VlbCoder where
  /-- `m_pHits` -/
  hits : Bytes
  /-- `m_uLastHit` -/
  lastHit : DWord
  /-- `m_iLeft` -/
  left : DWord
  /-- `m_uLast` -/
  last : DWord
  /-- `m_bInit` -/
  bInit : Bool
deriving DecidableEq

namespace VlbCoder

/-- The constructor. -/
def new : VlbCoder := ⟨[], 0, 0, 0, false⟩

/-- `Zip`: appends a docID, unless it repeats the last one. -/
def zip (c : VlbCoder) (uValue : DWord) : VlbCoder :=
  if uValue - c.lastHit = 0 then c
  else
    { c with
      hits := c.hits ++ zipDword 5 (uValue - c.lastHit)
      lastHit := uValue
      left := c.left + 1
      bInit := true }

/-- The coder of a list. -/
def zipAll (docIDs : List DWord) : VlbCoder := docIDs.foldl zip new

/-- The bytes that `marshall_VLB_to_buffer` writes. -/
def marshall (c : VlbCoder) : Bytes :=
  c.hits ++ ofWords [c.lastHit, c.left, c.last, if c.bInit then 1 else 0]

/-- The `int total_size` of `marshall_VLB_to_buffer`. -/
def totalSize (c : VlbCoder) : BitVec 32 := 16 + BitVec.ofNat 32 c.hits.length

/-- `marshall_VLB_to_buffer`. The buffer is allocated with the `int`: if that is not the number of
bytes written, `malloc` fails or the bytes go past the end. -/
def marshallVlbToBuffer (c : VlbCoder) : Option Bytes :=
  if c.totalSize.toInt = c.marshall.length then some c.marshall else none

/-- A coder from its bytes and the four words behind them. -/
def ofHits (hits : Bytes) : List DWord → Option VlbCoder
  | [lastHit, left, last, bInit] => some ⟨hits, lastHit, left, last, bInit ≠ 0⟩
  | _ => none

/-- `unmarshall_buffer_VLB` of a buffer of the given contents. -/
def unmarshall (buffer : Bytes) : Option VlbCoder :=
  ofHits (buffer.take (buffer.length - 16)) (words (buffer.drop (buffer.length - 16)))

/-- The loop of `Dump_VLB`, with `m_iLeft`, `m_uLast` and what `m_pCur` points to. `Unzip` returns
zero when nothing is left. -/
def dumpFrom : Nat → DWord → Bytes → Option (List DWord)
  | 0, _, _ => some []
  | left + 1, last, cur =>
      match unzipDword 0 0 cur with
      | none => none
      | some (uValue, cur) =>
          if last + uValue = 0 then some []
          else (dumpFrom left (last + uValue) cur).map ((last + uValue) :: ·)

/-- `Dump_VLB`. It decodes a copy, whose `m_bInit` is false, so that `m_pCur` is set to the start
of `m_pHits`. -/
def dumpVlb (c : VlbCoder) : Option (List DWord) := dumpFrom c.left.toNat c.last c.hits

/-! ## Round trip -/

/-- The differences of a list, encoded. -/
def deltas (lastHit : DWord) : List DWord → Bytes
  | [] => []
  | docID :: docIDs => zipDword 5 (docID - lastHit) ++ deltas docID docIDs

theorem zip_of_ne {c : VlbCoder} {docID : DWord} (h : c.lastHit ≠ docID) :
    c.zip docID = ⟨c.hits ++ zipDword 5 (docID - c.lastHit), docID, c.left + 1, c.last, true⟩ := by
  have hne : docID - c.lastHit ≠ 0 := by
    intro heq
    exact h ((BitVec.sub_eq_iff_eq_add.1 heq).trans (BitVec.zero_add _)).symm
  rw [zip, if_neg hne]

theorem foldl_zip {c : VlbCoder} {docIDs : List DWord}
    (h : (c.lastHit :: docIDs).IsChain (· ≠ ·)) :
    (docIDs.foldl zip c).hits = c.hits ++ deltas c.lastHit docIDs ∧
      (docIDs.foldl zip c).left = c.left + BitVec.ofNat 32 docIDs.length ∧
      (docIDs.foldl zip c).last = c.last := by
  induction docIDs generalizing c with
  | nil => simp [deltas]
  | cons docID docIDs ih =>
      obtain ⟨hne, hrest⟩ := List.isChain_cons_cons.1 h
      rw [List.foldl_cons, zip_of_ne hne]
      obtain ⟨hhits, hleft, hlast⟩ := ih (c := ⟨_, docID, c.left + 1, c.last, true⟩) hrest
      refine ⟨hhits.trans (List.append_assoc _ _ _), hleft.trans ?_, hlast⟩
      rw [BitVec.add_assoc, List.length_cons, Nat.add_comm, BitVec.ofNat_add]
      rfl

theorem dumpFrom_deltas {docIDs : List DWord} (h : 0 ∉ docIDs) (lastHit : DWord) :
    dumpFrom docIDs.length lastHit (deltas lastHit docIDs) = some docIDs := by
  induction docIDs generalizing lastHit with
  | nil => rfl
  | cons docID docIDs ih =>
      rw [List.mem_cons, not_or] at h
      rw [List.length_cons, dumpFrom, deltas, unzipDword_zipDword]
      have hsum : lastHit + (docID - lastHit) = docID := by
        rw [BitVec.add_comm, BitVec.sub_add_cancel]
      simp only [hsum, if_neg (Ne.symm h.1), ih h.2, Option.map_some]

theorem length_marshall (c : VlbCoder) : c.marshall.length = c.hits.length + 16 := by
  rw [marshall, List.length_append, length_ofWords]
  rfl

/-- A docID takes five bytes at most. -/
theorem length_hits_foldl_le (docIDs : List DWord) (c : VlbCoder) :
    (docIDs.foldl zip c).hits.length ≤ c.hits.length + 5 * docIDs.length := by
  induction docIDs generalizing c with
  | nil => exact le_rfl
  | cons docID docIDs ih =>
      have hstep : (c.zip docID).hits.length ≤ c.hits.length + 5 := by
        rw [zip]
        split_ifs
        · exact Nat.le_add_right _ _
        · rw [List.length_append]
          exact Nat.add_le_add_left (length_zipDword_le 5 _) _
      have hrest := ih (c.zip docID)
      rw [List.foldl_cons, List.length_cons]
      omega

theorem length_marshall_zipAll_le (docIDs : List DWord) :
    (zipAll docIDs).marshall.length ≤ 5 * docIDs.length + 16 := by
  have hhits : (zipAll docIDs).hits.length ≤ 0 + 5 * docIDs.length :=
    length_hits_foldl_le docIDs new
  rw [length_marshall]
  omega

theorem unmarshall_marshall (c : VlbCoder) : unmarshall c.marshall = some c := by
  have hsize : c.marshall.length - 16 = c.hits.length := by rw [length_marshall]; omega
  have hflag : decide ((if c.bInit then 1 else 0 : DWord) ≠ 0) = c.bInit := by
    cases c.bInit <;> rfl
  rw [unmarshall, hsize, marshall, List.drop_left, List.take_left, words_ofWords, ofHits, hflag]

theorem length_le_deltas (docIDs : List DWord) (lastHit : DWord) :
    docIDs.length ≤ (deltas lastHit docIDs).length := by
  induction docIDs generalizing lastHit with
  | nil => simp [deltas]
  | cons docID docIDs ih =>
      have hpos : 0 < (zipDword 5 (docID - lastHit)).length :=
        List.length_pos_iff.2 (zipDword_ne_nil 4 _)
      have hrest := ih docID
      rw [deltas, List.length_append, List.length_cons]
      omega

theorem isChain_new {docIDs : List DWord} (h : docIDs.IsChain (· ≠ ·)) (hz : 0 ∉ docIDs) :
    (new.lastHit :: docIDs).IsChain (· ≠ ·) := by
  apply h.cons
  intro docID hhead hzero
  apply hz
  rw [show 0 = docID from hzero]
  exact List.mem_of_mem_head? hhead

theorem hits_zipAll {docIDs : List DWord} (h : docIDs.IsChain (· ≠ ·)) (hz : 0 ∉ docIDs) :
    (zipAll docIDs).hits = deltas 0 docIDs :=
  (foldl_zip (isChain_new h hz)).1

/-- **Round trip** of a list without equal neighbours. -/
theorem dumpVlb_zipAll_of_ne {docIDs : List DWord} (h : docIDs.IsChain (· ≠ ·)) (hz : 0 ∉ docIDs)
    (hlen : docIDs.length < 2 ^ 32) : dumpVlb (zipAll docIDs) = some docIDs := by
  obtain ⟨hhits, hleft, hlast⟩ := foldl_zip (isChain_new h hz)
  rw [dumpVlb, zipAll, hhits, hleft, hlast]
  have hcount : (new.left + BitVec.ofNat 32 docIDs.length).toNat = docIDs.length := by
    rw [show new.left = 0#32 from rfl, BitVec.zero_add, BitVec.toNat_ofNat, Nat.mod_eq_of_lt hlen]
  rw [hcount]
  exact dumpFrom_deltas hz 0

/-- **Round trip** of a strictly increasing list. -/
theorem dumpVlb_zipAll {docIDs : List DWord} (h : docIDs.Pairwise (· < ·)) (hz : 0 ∉ docIDs)
    (hlen : docIDs.length < 2 ^ 32) : dumpVlb (zipAll docIDs) = some docIDs := by
  refine dumpVlb_zipAll_of_ne (h.isChain.imp ?_) hz hlen
  intro docID next hlt heq
  exact BitVec.lt_irrefl next (heq ▸ hlt)

theorem totalSize_eq_iff (c : VlbCoder) :
    c.totalSize.toInt = c.marshall.length ↔ c.hits.length + 16 < 2 ^ 31 := by
  have hsize : c.totalSize.toNat = (c.hits.length + 16) % 2 ^ 32 := by
    rw [totalSize, BitVec.toNat_add, BitVec.toNat_ofNat, Nat.add_mod_mod, Nat.add_comm]
    rfl
  rw [BitVec.toInt_eq_toNat_cond, hsize, length_marshall]
  split_ifs <;> omega

/-- The whole way, from a list to its buffer and back, and the single words on it. -/
theorem buffer_roundtrip_iff {docIDs : List DWord} (h : docIDs.IsChain (· ≠ ·)) (hz : 0 ∉ docIDs) :
    (((zipAll docIDs).marshallVlbToBuffer.bind unmarshall).bind dumpVlb = some docIDs ↔
      (deltas 0 docIDs).length + 16 < 2 ^ 31) ∧
    ∀ turns ≥ 5, ∀ uValue s,
      unzipDword 0 0 (zipDword turns uValue ++ s) = some (uValue, s) := by
  refine ⟨?_, fun turns hturns => unzipDword_zipDword_of_le hturns⟩
  rw [← hits_zipAll h hz, ← totalSize_eq_iff, marshallVlbToBuffer]
  by_cases hsize : (zipAll docIDs).totalSize.toInt = (zipAll docIDs).marshall.length
  · have hshort := (totalSize_eq_iff _).1 hsize
    rw [hits_zipAll h hz] at hshort
    have hlen := length_le_deltas docIDs 0
    have hback := dumpVlb_zipAll_of_ne h hz (by omega)
    simp [hsize, unmarshall_marshall, hback]
  · simp [hsize]

theorem buffer_roundtrip_decreasing :
    (((zipAll [7, 3, 0xffffffff]).marshallVlbToBuffer.bind unmarshall).bind dumpVlb =
      some [7, 3, 0xffffffff]) :=
  (buffer_roundtrip_iff (by decide) (by decide)).1.2 (by decide)

/-- A list of two values in turn. -/
def alternating : Nat → DWord → DWord → List DWord
  | 0, _, _ => []
  | n + 1, a, b => a :: alternating n b a

theorem length_alternating (n : Nat) (a b : DWord) : (alternating n a b).length = n := by
  induction n generalizing a b with
  | zero => rfl
  | succ n ih => rw [alternating, List.length_cons, ih]

theorem isChain_alternating (n : Nat) {a b : DWord} (h : a ≠ b) :
    (alternating n a b).IsChain (· ≠ ·) := by
  induction n generalizing a b with
  | zero => exact List.isChain_nil
  | succ n ih =>
      apply (ih h.symm).cons
      intro docID hhead
      cases n with
      | zero => simp [alternating] at hhead
      | succ n =>
          obtain rfl : b = docID := by simpa [alternating] using hhead
          exact h

theorem zero_notMem_alternating (n : Nat) {a b : DWord} (ha : 0 ≠ a) (hb : 0 ≠ b) :
    0 ∉ alternating n a b := by
  induction n generalizing a b with
  | zero => exact List.not_mem_nil
  | succ n ih =>
      rw [alternating, List.mem_cons, not_or]
      exact ⟨ha, ih hb ha⟩

/-- With a difference for every docID the encoding outgrows the `int`. -/
theorem buffer_too_large :
    (alternating (2 ^ 31) 1 2).IsChain (· ≠ ·) ∧ 0 ∉ alternating (2 ^ 31) 1 2 ∧
      ((zipAll (alternating (2 ^ 31) 1 2)).marshallVlbToBuffer.bind unmarshall).bind dumpVlb ≠
        some (alternating (2 ^ 31) 1 2) := by
  have hchain : (alternating (2 ^ 31) 1 2).IsChain (· ≠ ·) := isChain_alternating _ (by decide)
  have hz : 0 ∉ alternating (2 ^ 31) 1 2 := zero_notMem_alternating _ (by decide) (by decide)
  refine ⟨hchain, hz, ?_⟩
  have hsize : (zipAll (alternating (2 ^ 31) 1 2)).totalSize.toInt ≠
      (zipAll (alternating (2 ^ 31) 1 2)).marshall.length := by
    intro heq
    have hshort := (totalSize_eq_iff _).1 heq
    have hlen := length_le_deltas (alternating (2 ^ 31) 1 2) 0
    rw [hits_zipAll hchain hz] at hshort
    rw [length_alternating] at hlen
    omega
  rw [marshallVlbToBuffer, if_neg hsize]
  exact Option.some_ne_none _ ∘ Eq.symm

theorem marshall_ne_nil (c : VlbCoder) : c.marshall.length ≠ 0 := by
  rw [length_marshall]
  omega

end VlbCoder

end DeSearch
