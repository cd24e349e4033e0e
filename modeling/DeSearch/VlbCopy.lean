import DeSearch.Vlb

/-!
# Copies of a coder

`Vlb` keeps of a `_VLB_coder` what its list depends on. Here it is the object itself, with the
pointer `m_pCur` into the byte vector and the flag `m_bInit` that says whether the pointer was set.

The copy constructor assigns neither of the two. A copy whose raw flag is false reads its bytes from
the start, also when the original is half read; with a raw flag of true it reads wherever the raw
pointer points. Moreover the first `Zip` sets the pointer, so that it dangles as soon as a later
`Zip` makes the vector reallocate. `copy_same_iff` says for every history of `Zip` and `Unzip` and
for all raw values when a copy returns what the original returns.
-/

namespace DeSearch

/-! ## The object -/

/-- A `vector<BYTE>`. The number of its buffer grows with each reallocation, which tells pointers
into an earlier buffer from those into the current one. -/
structure ByteVector where
  bytes : Bytes
  capacity : Nat
  buffer : Nat
deriving DecidableEq

/-- `push_back`, given the capacity that a full vector grows to. -/
def ByteVector.pushBack (grow : Nat → Nat) (v : ByteVector) (b : Byte) : ByteVector :=
  if v.bytes.length < v.capacity then ⟨v.bytes ++ [b], v.capacity, v.buffer⟩
  else ⟨v.bytes ++ [b], grow v.capacity, v.buffer + 1⟩

/-- A `const BYTE *`: into a buffer of the vector, or a raw value with the memory found there. -/
inductive Cursor where
  | null
  | into (buffer pos : Nat)
  | raw (memory : Bytes)
deriving DecidableEq

namespace Cursor

/-- The bytes that can be read at the pointer. -/
def bytes (v : ByteVector) : Cursor → Option Bytes
  | null => none
  | into buffer pos => if buffer = v.buffer then some (v.bytes.drop pos) else none
  | raw memory => some memory

/-- The pointer some bytes further on. -/
def advance (n : Nat) : Cursor → Cursor
  | null => null
  | into buffer pos => into buffer (pos + n)
  | raw memory => raw (memory.drop n)

/-- The pointer is into an earlier buffer, which has been released. -/
def Dangling (v : ByteVector) : Cursor → Prop
  | into buffer _ => buffer ≠ v.buffer
  | _ => False

instance (v : ByteVector) : DecidablePred (Dangling v)
  | null => inferInstanceAs (Decidable False)
  | into buffer _ => inferInstanceAs (Decidable (buffer ≠ v.buffer))
  | raw _ => inferInstanceAs (Decidable False)

end Cursor

/-- `_VLB_coder` with all its fields. -/
structure VlbObject where
  /-- `m_pHits` -/
  hits : ByteVector
  /-- `m_uLastHit` -/
  lastHit : DWord
  /-- `m_iLeft` -/
  left : DWord
  /-- `m_uLast` -/
  last : DWord
  /-- `m_pCur` -/
  cur : Cursor
  /-- `m_bInit` -/
  bInit : Bool
deriving DecidableEq

namespace VlbObject

/-- The default constructor. -/
def new : VlbObject := ⟨⟨[], 0, 0⟩, 0, 0, 0, .null, false⟩

/-- The copy constructor, given the raw values of the two fields it does not assign. -/
def copy (src : VlbObject) (bInit : Bool) (memory : Bytes) : VlbObject where
  hits := ⟨src.hits.bytes, src.hits.bytes.length, 1⟩
  lastHit := src.lastHit
  left := src.left
  last := src.last
  cur := .raw memory
  bInit := bInit

/-- Sets `m_pCur` if `m_bInit` is false, as both `Zip` and `Unzip` do. -/
def start (c : VlbObject) : VlbObject :=
  if c.bInit then c else { c with cur := .into c.hits.buffer 0, bInit := true }

/-- `Zip`. -/
def zip (grow : Nat → Nat) (c : VlbObject) (uValue : DWord) : VlbObject :=
  if uValue - c.lastHit = 0 then c
  else
    start
      { c with
        hits := (zipDword 5 (uValue - c.lastHit)).foldl (ByteVector.pushBack grow) c.hits
        lastHit := uValue
        left := c.left + 1 }

/-- The bytes that the next `Unzip` reads. -/
def view (c : VlbObject) : Option Bytes := c.start.cur.bytes c.hits

/-- The coder with a word read, of which the rest of the bytes is left. -/
def skip (c : VlbObject) (pIn : Bytes) (uValue : DWord) (rest : Bytes) : VlbObject :=
  { c with
    cur := c.cur.advance (pIn.length - rest.length)
    last := c.last + uValue
    left := c.left - 1 }

/-- `Unzip`. There is no result if the pointer cannot be read. -/
def unzip (c : VlbObject) : Option (DWord × VlbObject) :=
  if c.left = 0 then some (0, c)
  else
    c.view.bind fun pIn =>
      (unzipDword 0 0 pIn).map fun r => (c.last + r.1, c.start.skip pIn r.1 r.2)

/-- What a number of calls of `Unzip` return. -/
def unzips : Nat → VlbObject → Option (List DWord)
  | 0, _ => some []
  | n + 1, c => c.unzip.bind fun r => (unzips n r.2).map (r.1 :: ·)

/-- Two coders return the same, for as long as they are asked. -/
def Same (c c' : VlbObject) : Prop := ∀ n, ∃ vs, c.unzips n = some vs ∧ c'.unzips n = some vs

/-- `m_pCur` points into a buffer that has been released. -/
def Dangling (c : VlbObject) : Prop := c.cur.Dangling c.hits

instance (c : VlbObject) : Decidable c.Dangling :=
  inferInstanceAs (Decidable (c.cur.Dangling c.hits))

/-- The coder as `Vlb` has it. -/
def toCoder (c : VlbObject) : VlbCoder := ⟨c.hits.bytes, c.lastHit, c.left, c.last, c.bInit⟩

theorem bytes_foldl_pushBack (grow : Nat → Nat) (bs : Bytes) (v : ByteVector) :
    (bs.foldl (ByteVector.pushBack grow) v).bytes = v.bytes ++ bs := by
  induction bs generalizing v with
  | nil => simp
  | cons b bs ih =>
      have hpush : (v.pushBack grow b).bytes = v.bytes ++ [b] := by
        unfold ByteVector.pushBack
        split_ifs <;> rfl
      rw [List.foldl_cons, ih, hpush, List.append_assoc, List.singleton_append]

@[simp] theorem start_hits (c : VlbObject) : c.start.hits = c.hits := by
  unfold start
  split_ifs <;> rfl

@[simp] theorem start_lastHit (c : VlbObject) : c.start.lastHit = c.lastHit := by
  unfold start
  split_ifs <;> rfl

@[simp] theorem start_left (c : VlbObject) : c.start.left = c.left := by
  unfold start
  split_ifs <;> rfl

@[simp] theorem start_last (c : VlbObject) : c.start.last = c.last := by
  unfold start
  split_ifs <;> rfl

@[simp] theorem start_bInit (c : VlbObject) : c.start.bInit = true := by
  unfold start
  split_ifs with h
  · exact h
  · rfl

theorem start_of_bInit {c : VlbObject} (h : c.bInit = true) : c.start = c := if_pos h

/-- `Zip` on the object is `Zip` on the coder. -/
theorem toCoder_zip (grow : Nat → Nat) (c : VlbObject) (uValue : DWord) :
    (c.zip grow uValue).toCoder = c.toCoder.zip uValue := by
  have hlast : c.toCoder.lastHit = c.lastHit := rfl
  rw [zip, VlbCoder.zip, hlast]
  by_cases h : uValue - c.lastHit = 0
  · rw [if_pos h, if_pos h]
  · rw [if_neg h, if_neg h]
    simp [toCoder, bytes_foldl_pushBack]

/-! ## What a coder returns -/

/-- A number of words at the front of some bytes. -/
def decodes : Nat → Bytes → Option (List DWord)
  | 0, _ => some []
  | n + 1, pIn => (unzipDword 0 0 pIn).bind fun r => (decodes n r.2).map (r.1 :: ·)

/-- The running sums of some differences. -/
def sums (last : DWord) : List DWord → List DWord
  | [] => []
  | d :: ds => (last + d) :: sums (last + d) ds

/-- The encodings of some differences, one after the other. -/
def encoded (ds : List DWord) : Bytes := ds.flatMap (zipDword 5)

theorem sums_injective {last : DWord} {ds ds' : List DWord} (h : sums last ds = sums last ds') :
    ds = ds' := by
  induction ds generalizing last ds' with
  | nil =>
      cases ds' with
      | nil => rfl
      | cons d' ds' => cases h
  | cons d ds ih =>
      cases ds' with
      | nil => cases h
      | cons d' ds' =>
          obtain ⟨hd, hds⟩ := List.cons.inj h
          obtain rfl : d = d' := (BitVec.add_right_inj last).1 hd
          rw [ih hds]

theorem decodes_encoded {n : Nat} {ds : List DWord} (h : n ≤ ds.length) :
    decodes n (encoded ds) = some (ds.take n) := by
  induction n generalizing ds with
  | zero => simp [decodes]
  | succ n ih =>
      cases ds with
      | nil => simp at h
      | cons d ds =>
          have hrest := ih (Nat.le_of_succ_le_succ h)
          simp only [encoded, List.flatMap_cons, decodes, unzipDword_zipDword, Option.bind_some]
          simp only [encoded] at hrest
          simp [hrest]

theorem decodes_take {n k : Nat} {pIn : Bytes} {ds : List DWord} (h : decodes n pIn = some ds)
    (hk : k ≤ n) : decodes k pIn = some (ds.take k) := by
  induction k generalizing n pIn ds with
  | zero => simp [decodes]
  | succ k ih =>
      obtain ⟨n, rfl⟩ : ∃ m, n = m + 1 := ⟨n - 1, by omega⟩
      obtain ⟨r, hword, hrest⟩ := Option.bind_eq_some_iff.1 h
      obtain ⟨ds', hds', rfl⟩ := Option.map_eq_some_iff.1 hrest
      rw [decodes, hword, Option.bind_some, ih hds' (Nat.le_of_succ_le_succ hk)]
      rfl

theorem suffix_of_unzipDword {uValue v : DWord} {iOff : Nat} {pIn rest : Bytes}
    (h : unzipDword uValue iOff pIn = some (v, rest)) : rest <:+ pIn := by
  induction pIn generalizing uValue iOff with
  | nil => cases h
  | cons bIn pIn ih =>
      rw [unzipDword] at h
      by_cases hlast : bIn.val &&& 0x80 = 0
      · rw [if_pos hlast] at h
        cases h
        exact List.suffix_cons bIn _
      · rw [if_neg hlast] at h
        exact (ih h).trans (List.suffix_cons bIn pIn)

theorem bytes_advance {v : ByteVector} {cur : Cursor} {pIn rest : Bytes}
    (h : cur.bytes v = some pIn) (hsuffix : rest <:+ pIn) :
    (cur.advance (pIn.length - rest.length)).bytes v = some rest := by
  have hrest := List.suffix_iff_eq_drop.1 hsuffix
  cases cur with
  | null => cases h
  | into buffer pos =>
      rw [Cursor.bytes] at h
      split_ifs at h with hcur
      cases h
      rw [Cursor.advance, Cursor.bytes, if_pos hcur, ← List.drop_drop, ← hrest]
  | raw memory =>
      cases h
      rw [Cursor.advance, Cursor.bytes, ← hrest]

/-- One call of `Unzip` while there is something left. -/
theorem unzip_eq {c : VlbObject} {pIn rest : Bytes} {v : DWord} (hleft : c.left ≠ 0)
    (hview : c.view = some pIn) (hword : unzipDword 0 0 pIn = some (v, rest)) :
    ∃ c', c.unzip = some (c.last + v, c') ∧ c'.view = some rest ∧ c'.left = c.left - 1 ∧
      c'.last = c.last + v := by
  refine ⟨c.start.skip pIn v rest, ?_, ?_, ?_, ?_⟩
  · rw [unzip, if_neg hleft, hview, Option.bind_some, hword, Option.map_some]
  · have hset : (c.start.skip pIn v rest).bInit = true := start_bInit c
    have hhits : (c.start.skip pIn v rest).hits = c.hits := start_hits c
    rw [view, start_of_bInit hset, hhits]
    exact bytes_advance hview (suffix_of_unzipDword hword)
  · rw [skip, start_left]
  · rw [skip, start_last]

theorem unzips_of_left_eq_zero {c : VlbObject} (h : c.left = 0) (n : Nat) :
    c.unzips n = some (List.replicate n 0) := by
  induction n with
  | zero => rfl
  | succ n ih =>
      rw [unzips, unzip, if_pos h, Option.bind_some, ih]
      rfl

theorem unzips_of_view_eq_none {c : VlbObject} (hleft : c.left ≠ 0) (hview : c.view = none)
    (n : Nat) : c.unzips (n + 1) = none := by
  rw [unzips, unzip, if_neg hleft, hview]
  rfl

/-- While something is left the words are read off, and zeros are returned from then on. -/
theorem unzips_of_view {c : VlbObject} {pIn : Bytes} (hview : c.view = some pIn) (n : Nat) :
    c.unzips n = (decodes (min n c.left.toNat) pIn).map fun ds =>
      sums c.last ds ++ List.replicate (n - c.left.toNat) 0 := by
  induction n generalizing c pIn with
  | zero => simp [unzips, decodes, sums]
  | succ n ih =>
      by_cases hleft : c.left = 0
      · simp [unzips_of_left_eq_zero hleft, hleft, decodes, sums]
      · have hpos : c.left.toNat ≠ 0 := by
          intro hzero
          exact hleft (BitVec.eq_of_toNat_eq hzero)
        have hpred : (c.left - 1).toNat = c.left.toNat - 1 := by bv_omega
        have hmin : min (n + 1) c.left.toNat = min n (c.left - 1).toNat + 1 := by omega
        have hsub : n + 1 - c.left.toNat = n - (c.left - 1).toNat := by omega
        cases hword : unzipDword 0 0 pIn with
        | none =>
            rw [unzips, unzip, if_neg hleft, hview, Option.bind_some, hword, hmin, decodes, hword]
            rfl
        | some r =>
            obtain ⟨v, rest⟩ := r
            obtain ⟨c', hunzip, hview', hleft', hlast'⟩ := unzip_eq hleft hview hword
            rw [unzips, hunzip, Option.bind_some, ih hview', hleft', hlast', hmin, hsub, decodes,
              hword, Option.bind_some]
            cases decodes (min n (c.left - 1).toNat) rest <;> simp [sums]

theorem unzips_of_decodes {c : VlbObject} {ds : List DWord}
    (h : c.view.bind (decodes c.left.toNat) = some ds) (n : Nat) :
    c.unzips n = some (sums c.last (ds.take (min n c.left.toNat)) ++
      List.replicate (n - c.left.toNat) 0) := by
  obtain ⟨pIn, hview, hdecode⟩ := Option.bind_eq_some_iff.1 h
  rw [unzips_of_view hview, decodes_take hdecode (Nat.min_le_right _ _), Option.map_some]

theorem decodes_of_unzips {c : VlbObject} {vs : List DWord} (hleft : c.left ≠ 0)
    (h : c.unzips c.left.toNat = some vs) :
    ∃ ds, c.view.bind (decodes c.left.toNat) = some ds ∧ vs = sums c.last ds := by
  obtain ⟨n, hn⟩ : ∃ n, c.left.toNat = n + 1 :=
    Nat.exists_eq_succ_of_ne_zero fun hzero => hleft (BitVec.eq_of_toNat_eq hzero)
  cases hview : c.view with
  | none =>
      rw [hn, unzips_of_view_eq_none hleft hview] at h
      cases h
  | some pIn =>
      rw [unzips_of_view hview, Nat.min_self, Nat.sub_self] at h
      obtain ⟨ds, hds, rfl⟩ := Option.map_eq_some_iff.1 h
      exact ⟨ds, hds, by simp⟩

/-- Coders that agree in `m_iLeft` and `m_uLast` return the same if the bytes they read hold the
same words. -/
theorem same_iff {c c' : VlbObject} (hleft : c'.left = c.left) (hlast : c'.last = c.last) :
    c.Same c' ↔ c.left = 0 ∨ ∃ ds, c.view.bind (decodes c.left.toNat) = some ds ∧
      c'.view.bind (decodes c.left.toNat) = some ds := by
  constructor
  · intro hsame
    by_cases hzero : c.left = 0
    · exact .inl hzero
    · obtain ⟨vs, h, h'⟩ := hsame c.left.toNat
      obtain ⟨ds, hds, hvs⟩ := decodes_of_unzips hzero h
      rw [← hleft] at h' hzero
      obtain ⟨ds', hds', hvs'⟩ := decodes_of_unzips hzero h'
      rw [hlast, hvs] at hvs'
      rw [← sums_injective hvs', hleft] at hds'
      exact .inr ⟨ds, hds, hds'⟩
  · intro h n
    obtain hzero | ⟨ds, hds, hds'⟩ := h
    · exact ⟨_, unzips_of_left_eq_zero hzero n, unzips_of_left_eq_zero (hleft.trans hzero) n⟩
    · rw [← hleft] at hds'
      refine ⟨_, unzips_of_decodes hds n, ?_⟩
      rw [unzips_of_decodes hds' n, hleft, hlast]

/-! ## Histories -/

/-- A call of the coder. -/
inductive Call where
  | zip (uValue : DWord)
  | unzip

/-- What the calls so far amount to: the differences written, and how many of them were read. -/
structure History where
  written : List DWord
  read : Nat
  lastHit : DWord

namespace History

/-- How many differences are left, in a `DWORD`. -/
def left (h : History) : Nat := (h.written.length - h.read) % 2 ^ 32

/-- The differences that are left. -/
def remaining (h : History) : List DWord := (h.written.drop h.read).take h.left

def step (h : History) : Call → History
  | .zip uValue =>
      if uValue - h.lastHit = 0 then h
      else ⟨h.written ++ [uValue - h.lastHit], h.read, uValue⟩
  | .unzip => if h.left = 0 then h else { h with read := h.read + 1 }

/-- The history of some calls. -/
def ofCalls (calls : List Call) : History := calls.foldl step ⟨[], 0, 0⟩

theorem read_lt {h : History} (hleft : h.left ≠ 0) : h.read < h.written.length := by
  have hle : h.left ≤ h.written.length - h.read := Nat.mod_le _ _
  omega

theorem written_ne_nil {h : History} (hleft : h.left ≠ 0) : h.written ≠ [] := by
  intro hnil
  have hlt := read_lt hleft
  simp [hnil] at hlt

theorem left_le (h : History) : h.left ≤ h.written.length - h.read := Nat.mod_le _ _

theorem length_remaining (h : History) : h.remaining.length = h.left := by
  rw [remaining, List.length_take, List.length_drop, Nat.min_eq_left h.left_le]

end History

/-- One call; the value that `Unzip` returns is not needed here. -/
def call (grow : Nat → Nat) (c : VlbObject) : Call → Option VlbObject
  | .zip uValue => some (c.zip grow uValue)
  | .unzip => c.unzip.map (·.2)

/-- The calls, one after the other. -/
def run (grow : Nat → Nat) (calls : List Call) : Option VlbObject := calls.foldlM (call grow) new

/-- How a coder and its history belong together. The pointer need not be into the current buffer,
but it stands where the unread differences start. -/
structure Tracks (h : History) (c : VlbObject) : Prop where
  bytes : c.hits.bytes = encoded h.written
  read_le : h.read ≤ h.written.length
  left : c.left = BitVec.ofNat 32 (h.written.length - h.read)
  lastHit : c.lastHit = h.lastHit
  unset : h.written = [] → c.bInit = false
  cur : h.written ≠ [] → c.bInit = true ∧
    ∃ buffer, c.cur = .into buffer (encoded (h.written.take h.read)).length

section
variable {grow : Nat → Nat} {h : History} {c c' : VlbObject}

theorem Tracks.left_toNat (ht : Tracks h c) : c.left.toNat = h.left := by
  rw [ht.left, BitVec.toNat_ofNat, History.left]

theorem Tracks.left_eq_zero_iff (ht : Tracks h c) : c.left = 0 ↔ h.left = 0 := by
  rw [← ht.left_toNat]
  exact ⟨fun hzero => by simp [hzero], fun hzero => BitVec.eq_of_toNat_eq hzero⟩

theorem encoded_append (ds ds' : List DWord) : encoded (ds ++ ds') = encoded ds ++ encoded ds' :=
  List.flatMap_append

theorem drop_encoded_take (ds : List DWord) (n : Nat) :
    (encoded ds).drop (encoded (ds.take n)).length = encoded (ds.drop n) := by
  conv_lhs => rw [← List.take_append_drop n ds, encoded_append]
  rw [List.take_append_drop, List.drop_left]

/-- The original reads on behind what it has read, unless its pointer dangles. -/
theorem Tracks.view (ht : Tracks h c) (hleft : h.left ≠ 0) :
    c.view = if c.Dangling then none else some (encoded (h.written.drop h.read)) := by
  obtain ⟨hinit, buffer, hcur⟩ := ht.cur (History.written_ne_nil hleft)
  rw [VlbObject.view, start_of_bInit hinit, hcur, Cursor.bytes, ht.bytes, drop_encoded_take]
  have hiff : c.Dangling ↔ buffer ≠ c.hits.buffer := by
    rw [Dangling, hcur, Cursor.Dangling]
  by_cases hbuffer : buffer = c.hits.buffer <;> simp [hiff, hbuffer]

theorem tracks_new : Tracks ⟨[], 0, 0⟩ new :=
  ⟨rfl, le_rfl, rfl, rfl, fun _ => rfl, fun hne => absurd rfl hne⟩

theorem Tracks.zip (ht : Tracks h c) (uValue : DWord) :
    Tracks (h.step (.zip uValue)) (c.zip grow uValue) := by
  unfold History.step VlbObject.zip
  rw [ht.lastHit]
  by_cases hdup : uValue - h.lastHit = 0
  · simpa [hdup] using ht
  · simp only [hdup, if_false]
    have hle := ht.read_le
    refine ⟨?_, ?_, ?_, by simp, by simp, ?_⟩
    · simp [bytes_foldl_pushBack, ht.bytes, encoded]
    · simp only [List.length_append]
      omega
    · rw [start_left, ht.left, List.length_append, List.length_singleton,
        Nat.sub_add_comm ht.read_le, BitVec.ofNat_add]
      rfl
    · intro _
      refine ⟨start_bInit _, ?_⟩
      rw [List.take_append_of_le_length ht.read_le]
      by_cases hnil : h.written = []
      · -- the first value sets the pointer
        simp [start, ht.unset hnil, hnil, encoded]
      · obtain ⟨hinit, buffer, hcur⟩ := ht.cur hnil
        exact ⟨buffer, by simp [start, hinit, hcur]⟩

theorem Tracks.unzip {uValue : DWord} (ht : Tracks h c) (hunzip : c.unzip = some (uValue, c')) :
    Tracks (h.step .unzip) c' := by
  unfold History.step
  dsimp only
  by_cases hleft : h.left = 0
  · rw [VlbObject.unzip, if_pos (ht.left_eq_zero_iff.2 hleft)] at hunzip
    cases hunzip
    simpa [hleft] using ht
  · have hlt := History.read_lt hleft
    have hne := History.written_ne_nil hleft
    obtain ⟨hinit, buffer, hcur⟩ := ht.cur hne
    rw [VlbObject.unzip, if_neg (mt ht.left_eq_zero_iff.1 hleft), ht.view hleft] at hunzip
    split_ifs at hunzip with hdangling
    · cases hunzip
    · rw [List.drop_eq_getElem_cons hlt, encoded, List.flatMap_cons, Option.bind_some,
        unzipDword_zipDword, Option.map_some] at hunzip
      cases hunzip
      rw [if_neg hleft, start_of_bInit hinit]
      refine ⟨ht.bytes, hlt, ?_, ht.lastHit, fun hnil => absurd hnil hne, ?_⟩
      · rw [skip, ht.left]
        have hcount : h.written.length - h.read = h.written.length - (h.read + 1) + 1 := by omega
        rw [hcount, BitVec.ofNat_add]
        exact BitVec.add_sub_cancel _ _
      · intro _
        refine ⟨hinit, buffer, ?_⟩
        rw [skip, hcur, Cursor.advance, ← List.take_append_getElem hlt, encoded_append]
        simp [encoded]

theorem Tracks.call {k : Call} (ht : Tracks h c) (hcall : c.call grow k = some c') :
    Tracks (h.step k) c' := by
  cases k with
  | zip uValue =>
      cases hcall
      exact ht.zip uValue
  | unzip =>
      obtain ⟨⟨uValue, c₁⟩, hunzip, rfl⟩ := Option.map_eq_some_iff.1 hcall
      exact ht.unzip hunzip

theorem Tracks.foldlM {calls : List Call} (ht : Tracks h c)
    (hrun : calls.foldlM (VlbObject.call grow) c = some c') :
    Tracks (calls.foldl History.step h) c' := by
  induction calls generalizing h c with
  | nil =>
      cases hrun
      exact ht
  | cons k calls ih =>
      obtain ⟨c₁, hcall, hrest⟩ := Option.bind_eq_some_iff.1 hrun
      exact ih (ht.call hcall) hrest

theorem tracks_run {calls : List Call} (hrun : run grow calls = some c) :
    Tracks (.ofCalls calls) c :=
  tracks_new.foldlM hrun

/-- The bytes that a copy reads. -/
theorem view_copy (c : VlbObject) (bInit : Bool) (memory : Bytes) :
    (c.copy bInit memory).view = some (if bInit then memory else c.hits.bytes) := by
  cases bInit <;> simp [view, copy, start, Cursor.bytes]

/-! ## Copies -/

/-- **Copies.** After any calls, and for any raw values of the fields that are not assigned, a copy
returns what the original returns exactly if nothing is left, or the original's pointer does not
dangle and the differences that are left are also found where the copy reads: in the memory at the
raw pointer, or among the first differences written. -/
theorem copy_same_iff {calls : List Call} (hrun : run grow calls = some c) (bInit : Bool)
    (memory : Bytes) :
    c.Same (c.copy bInit memory) ↔
      (History.ofCalls calls).remaining = [] ∨
      ¬c.Dangling ∧
        if bInit then
          decodes (History.ofCalls calls).remaining.length memory =
            some (History.ofCalls calls).remaining
        else
          (History.ofCalls calls).written.take (History.ofCalls calls).remaining.length =
            (History.ofCalls calls).remaining := by
  have ht := tracks_run hrun
  generalize History.ofCalls calls = h at ht
  have hle := h.left_le
  have hsame := @same_iff c (c.copy bInit memory) rfl rfl
  rw [hsame, view_copy, Option.bind_some, ht.left_eq_zero_iff, ht.left_toNat,
    ← List.length_eq_zero_iff, h.length_remaining]
  refine or_congr_right' fun hleft => ?_
  have hown : decodes h.left (encoded (h.written.drop h.read)) = some h.remaining := by
    apply decodes_encoded
    rw [List.length_drop]
    exact hle
  have hstart : decodes h.left c.hits.bytes = some (h.written.take h.left) := by
    rw [ht.bytes]
    exact decodes_encoded (by omega)
  rw [ht.view hleft]
  by_cases hdangling : c.Dangling
  · simp [hdangling]
  · cases bInit <;> simp [hdangling, hown, hstart, eq_comm]

end

/-- The growth of a full `vector`: it doubles. -/
def doubled (capacity : Nat) : Nat := max 1 (2 * capacity)

/-- The growth of a `vector` that has room for sixteen bytes from the start. -/
def roomy (capacity : Nat) : Nat := max 16 (2 * capacity)

/-- A coder of three values that nothing has been read of, and a copy with a flag of false. -/
theorem copy_same_unread : ∃ c, run roomy [.zip 7, .zip 300, .zip 301] = some c ∧
    c.unzips 3 = some [7, 300, 301] ∧ c.Same (c.copy false []) := by
  refine ⟨_, rfl, by decide, ?_⟩
  exact (@copy_same_iff roomy _ [.zip 7, .zip 300, .zip 301] rfl false []).2
    (.inr ⟨by decide, by decide⟩)

theorem not_same_of_unzips {c c' : VlbObject} {n : Nat} {vs vs' : List DWord}
    (h : c.unzips n = some vs) (h' : c'.unzips n = some vs') (hne : vs ≠ vs') : ¬c.Same c' := by
  intro hsame
  obtain ⟨us, hus, hus'⟩ := hsame n
  rw [h] at hus
  rw [h', ← hus] at hus'
  exact hne (Option.some.inj hus').symm

/-- With a raw flag of true the copy reads other memory. With a flag of false the copy of a half
read coder starts over: after 16384 it returns 32768, not 16385. -/
theorem copy_differs :
    (∃ c, run doubled [.zip 1] = some c ∧ ¬c.Same (c.copy true [5])) ∧
      ∃ c, run doubled [.zip 16384, .zip 16385, .unzip] = some c ∧
        c.unzips 1 = some [16385] ∧ (c.copy false []).unzips 1 = some [32768] ∧
        ¬c.Same (c.copy false []) := by
  refine ⟨⟨_, rfl, ?_⟩, _, rfl, rfl, rfl, ?_⟩
  · exact @not_same_of_unzips _ _ 1 [1] [5] rfl rfl (by decide)
  · exact @not_same_of_unzips _ _ 1 [16385] [32768] rfl rfl (by decide)

-- The calls of the unit test: the vector has been reallocated when the original is read.
example : (run doubled ([14, 15, 16, 17, 18, 19].map .zip)).map (fun c => decide c.Dangling) =
    some true := by decide

/-! ## `Dump_VLB` -/

/-- The loop of `Dump_VLB`: `Unzip` until it returns zero. -/
def dumpLoop : Nat → VlbObject → Option (List DWord)
  | 0, _ => none
  | turns + 1, c => c.unzip.bind fun r =>
      if r.1 = 0 then some [] else (dumpLoop turns r.2).map (r.1 :: ·)

theorem dumpLoop_of_view {c : VlbObject} {pIn : Bytes} (hview : c.view = some pIn) {turns : Nat}
    (h : c.left.toNat < turns) :
    dumpLoop turns c = VlbCoder.dumpFrom c.left.toNat c.last pIn := by
  induction turns generalizing c pIn with
  | zero => omega
  | succ turns ih =>
      by_cases hleft : c.left = 0
      · rw [dumpLoop, unzip, if_pos hleft, hleft]
        rfl
      · have hpred : c.left.toNat = (c.left - 1).toNat + 1 := by bv_omega
        rw [dumpLoop, hpred, VlbCoder.dumpFrom]
        cases hword : unzipDword 0 0 pIn with
        | none =>
            rw [unzip, if_neg hleft, hview, Option.bind_some, hword]
            rfl
        | some r =>
            obtain ⟨v, rest⟩ := r
            obtain ⟨c', hunzip, hview', hleft', hlast'⟩ := unzip_eq hleft hview hword
            have hturns : c'.left.toNat < turns := by
              rw [hleft']
              omega
            rw [hunzip, Option.bind_some, ih hview' hturns, hleft', hlast']

/-- On a copy whose flag is false, the loop returns what `Vlb` takes `Dump_VLB` to return. -/
theorem dumpLoop_copy (c : VlbObject) (memory : Bytes) {turns : Nat} (h : c.left.toNat < turns) :
    dumpLoop turns (c.copy false memory) = c.toCoder.dumpVlb :=
  dumpLoop_of_view (view_copy c false memory) h

end VlbObject

end DeSearch
