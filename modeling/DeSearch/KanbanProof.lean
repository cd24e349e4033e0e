import DeSearch.Kanban
import Mathlib.Data.Fin.VecNotation
import Mathlib.Data.Fintype.Basic

/-!
# Keys and epochs are read as they were written

* `Key.name_injective`: different keys have different names, so the store may be addressed by
  `Key`.
* `getEpochInt_epochPacket`: every role reads the epoch the manager signed.
-/

namespace DeSearch

open JSON

variable {R : Runtime} {C : Crypto}

/-! ## Decimal numerals -/

theorem digitsVal_append (s : Bytes) (c : Byte) :
    digitsVal (s ++ [c]) = 10 * digitsVal s + (c.val - 48) := by
  simp [digitsVal]

theorem digitsVal_digits {ds : List Nat} (h : ∀ d ∈ ds, d < 10) :
    digitsVal (ds.reverse.map fun d => Fin.ofNat 256 (48 + d)) = Nat.ofDigits 10 ds := by
  induction ds with
  | nil => rfl
  | cons d ds ih =>
      rw [List.forall_mem_cons] at h
      have hd : (48 + d) % 256 - 48 = d := by omega
      rw [List.reverse_cons, List.map_append, List.map_singleton, digitsVal_append, ih h.2,
        Nat.ofDigits_cons, Fin.val_ofNat, hd]
      omega

theorem digitsVal_decimal (n : Nat) : digitsVal (decimal n) = n := by
  unfold decimal
  split_ifs with h
  · rw [h]
    rfl
  · rw [digitsVal_digits fun d hd => Nat.digits_lt_base (by decide) hd, Nat.ofDigits_digits]

theorem decimal_injective : Function.Injective decimal := fun m n h => by
  rw [← digitsVal_decimal m, h, digitsVal_decimal]

theorem isDigit_iff {c : Byte} : isDigit c ↔ 48 ≤ c.val ∧ c.val ≤ 57 := by
  simp [isDigit, Fin.le_def]

theorem isSpace_of_isDigit {c : Byte} (h : isDigit c) : isSpace c = false := by
  have h48 := (isDigit_iff.1 h).1
  have h32 : c ≠ 32 := fun hc => absurd (hc ▸ h48) (by decide)
  have h13 : ¬c ≤ 13 := fun hc => by
    have : c.val ≤ 13 := hc
    omega
  simp [isSpace, h32, h13]

theorem exists_cons_decimal (n : Nat) : ∃ c s, decimal n = c :: s ∧ isDigit c :=
  match hd : decimal n with
  | [] => absurd hd (decimal_ne_nil n)
  | c :: s => ⟨c, s, rfl, isDigit_of_mem_decimal (hd ▸ List.mem_cons_self)⟩

theorem takeWhile_isDigit_decimal (n : Nat) : (decimal n).takeWhile isDigit = decimal n :=
  List.takeWhile_eq_self_iff.2 fun _ hc => isDigit_of_mem_decimal hc

theorem splitSign_decimal (n : Nat) :
    splitSign ((decimal n).dropWhile isSpace) = (false, decimal n) := by
  obtain ⟨c, s, hc, hdigit⟩ := exists_cons_decimal n
  have hminus : c ≠ ch '-' := fun hc => absurd (hc ▸ hdigit) (by decide)
  have hplus : c ≠ ch '+' := fun hc => absurd (hc ▸ hdigit) (by decide)
  rw [hc, List.dropWhile_cons, isSpace_of_isDigit hdigit]
  simp only [Bool.false_eq_true, if_false, splitSign, if_neg hminus, if_neg hplus]

theorem splitSign_neg (n : Nat) :
    splitSign ((ch '-' :: decimal n).dropWhile isSpace) = (true, decimal n) := rfl

/-- `stoi` reads what `to_string` wrote. -/
theorem stoi_toDecimal {n : Int} (h : IsInt n) : stoi (toDecimal n) = some n := by
  unfold toDecimal
  split_ifs with hn
  · have habs : -(n.natAbs : Int) = n := by omega
    simp only [stoi, splitSign_neg, takeWhile_isDigit_decimal, digitsVal_decimal,
      if_neg (decimal_ne_nil _), if_true, habs, if_pos h]
  · have habs : (n.natAbs : Int) = n := by omega
    simp only [stoi, splitSign_decimal, takeWhile_isDigit_decimal, digitsVal_decimal,
      if_neg (decimal_ne_nil _), Bool.false_eq_true, if_false, habs, if_pos h]

theorem toDecimal_ne_v {n : Int} {c : Byte} (h : c ∈ toDecimal n) : c ≠ ch 'v' := by
  rintro rfl
  exact absurd (mem_toDecimal h) (by decide)

theorem toDecimal_injective : Function.Injective toDecimal := by
  have hsign : ∀ m n : Nat, ch '-' :: decimal m ≠ decimal n := fun m n h => by
    have : ch '-' ∈ decimal n := h ▸ List.mem_cons_self
    exact absurd (isDigit_of_mem_decimal this) (by decide)
  intro m n h
  unfold toDecimal at h
  split_ifs at h with hm hn hn
  · have := decimal_injective (List.cons.inj h).2
    omega
  · exact absurd h (hsign _ _)
  · exact absurd h.symm (hsign _ _)
  · have := decimal_injective h
    omega

/-! ## Keys -/

/-- An epoch and a shard number are read off the end of a key. -/
theorem shardName_inj {e e' : Int} {i i' : Nat}
    (h : toDecimal e ++ ascii "-v" ++ decimal i = toDecimal e' ++ ascii "-v" ++ decimal i') :
    e = e' ∧ i = i' := by
  have hsplit : ∀ (e : Int) (i : Nat),
      (toDecimal e ++ ascii "-v" ++ decimal i).takeWhile (· ≠ ch 'v') =
        toDecimal e ++ [ch '-'] := by
    intro e i
    have htext : toDecimal e ++ ascii "-v" ++ decimal i =
        (toDecimal e ++ [ch '-']) ++ ch 'v' :: decimal i := by
      simp [ascii]
    have hall : ∀ c ∈ toDecimal e ++ [ch '-'], decide (c ≠ ch 'v') = true := by
      intro c hc
      rcases List.mem_append.1 hc with hc | hc
      · simpa using toDecimal_ne_v hc
      · rw [List.mem_singleton.1 hc]
        decide
    rw [htext, List.takeWhile_append_of_pos hall, List.takeWhile_cons]
    simp
  have he : toDecimal e = toDecimal e' := by
    have := congrArg (List.takeWhile (· ≠ ch 'v')) h
    rw [hsplit, hsplit] at this
    exact List.append_cancel_right this
  rw [he] at h
  exact ⟨toDecimal_injective he, decimal_injective (List.append_cancel_left h)⟩

/-- The number of a key's constructor. -/
def Key.kind : Key → Fin 9
  | epoch => 0
  | blockId => 1
  | shardingMax => 2
  | items _ _ => 3
  | index _ _ => 4
  | globalIndex _ _ => 5
  | rootHash _ => 6
  | witnessSet _ => 7
  | witness => 8

/-- Two bytes tell the kinds of keys apart. -/
theorem Key.kind_eq_of_name_eq {k k' : Key} (h : k.name = k'.name) : k.kind = k'.kind := by
  let start : Fin 9 → Bytes := ![ascii "EP", ascii "St", ascii "SH", ascii "IT", ascii "IN",
    ascii "GL", ascii "RO", ascii "WI", ascii "wi"]
  have hstart : ∀ m n, start m = start n → m = n := by decide
  have hname : ∀ k : Key, k.name.take 2 = start k.kind := fun k => by cases k <;> rfl
  exact hstart _ _ (by rw [← hname, ← hname, h])

/-- Different keys have different names. -/
theorem Key.name_injective : Function.Injective Key.name := by
  have hshard : ∀ {t : Bytes} {e e' : Int} {i i' : Nat},
      t ++ toDecimal e ++ ascii "-v" ++ decimal i = t ++ toDecimal e' ++ ascii "-v" ++ decimal i' →
      e = e' ∧ i = i' := by
    intro t e e' i i' h
    rw [List.append_assoc, List.append_assoc, List.append_assoc, List.append_assoc] at h
    have := List.append_cancel_left h
    rw [← List.append_assoc, ← List.append_assoc] at this
    exact shardName_inj this
  intro k k' h
  have hkind := kind_eq_of_name_eq h
  cases k <;> cases k' <;> try rfl
  case items.items => obtain ⟨rfl, rfl⟩ := hshard h; rfl
  case index.index => obtain ⟨rfl, rfl⟩ := hshard h; rfl
  case globalIndex.globalIndex => obtain ⟨rfl, rfl⟩ := hshard h; rfl
  case rootHash.rootHash => rw [toDecimal_injective (List.append_cancel_left h)]
  case witnessSet.witnessSet => rw [toDecimal_injective (List.append_cancel_left h)]
  all_goals cases hkind

/-! ## Epoch packets -/

theorem escape_toDecimal (n : Int) : escape (toDecimal n) = toDecimal n := by
  have hdec : ∀ m, escape (decimal m) = decimal m := fun m =>
    escape_of_hex fun c hc => by simp [isHex, isDigit_of_mem_decimal hc]
  unfold toDecimal
  split_ifs
  · have hcons : escape (ch '-' :: decimal n.natAbs) = ch '-' :: escape (decimal n.natAbs) := rfl
    rw [hcons, hdec]
  · exact hdec _

/-- Reading back the packet of an epoch. -/
theorem getEpoch_epochPacket {kb : Kanban} {e : Int}
    (h : kb.get .epoch = some (epochPacket C e)) : getEpoch R C kb = some (toDecimal e) := by
  have hplain : Plain (object [(ascii "EPOCH", string (toDecimal e)),
      (ascii "SIG", string (sigToString (C.sign (toDecimal e))))]) := by
    refine ⟨⟨⟨ascii "EPOCH", rfl⟩, trivial, ⟨ascii "SIG", rfl⟩, trivial, trivial⟩, ?_⟩
    change [ascii "EPOCH", ascii "SIG"].Pairwise (· < ·)
    decide
  have hload : load R (epochPacket C e) = some (object [(ascii "EPOCH", string (toDecimal e)),
      (ascii "SIG", string (sigToString (C.sign (toDecimal e))))]) := load_dump hplain 1
  have hsig : escape (sigToString (C.sign (toDecimal e))) = sigToString (C.sign (toDecimal e)) :=
    escape_of_hex fun c hc => isHex_of_mem_sigToString hc
  have hverify := C.verify_sign (toDecimal e)
  rw [getEpoch, h]
  simp only [hload, Option.map_some]
  have hgetSig : ((object [(ascii "EPOCH", string (toDecimal e)),
      (ascii "SIG", string (sigToString (C.sign (toDecimal e))))]).get (ascii "SIG")).toStr =
        sigToString (C.sign (toDecimal e)) := hsig
  have hgetEpoch : ((object [(ascii "EPOCH", string (toDecimal e)),
      (ascii "SIG", string (sigToString (C.sign (toDecimal e))))]).get (ascii "EPOCH")).toStr =
        toDecimal e := escape_toDecimal e
  rw [hgetSig, hgetEpoch, stringToSig_sigToString (C.sign_length _), hverify]
  rfl

theorem getEpochInt_epochPacket {kb : Kanban} {e : Int} (he : IsInt e)
    (h : kb.get .epoch = some (epochPacket C e)) : getEpochInt R C kb = some e := by
  rw [getEpochInt, getEpoch_epochPacket h, Option.bind_some, stoi_toDecimal he]

theorem getEpochInt_none {kb : Kanban} (h : kb.get .epoch = none) :
    getEpochInt R C kb = some (-1) := by
  rw [getEpochInt, getEpoch, h]
  rfl

end DeSearch
