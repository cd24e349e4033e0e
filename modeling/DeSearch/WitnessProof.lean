import DeSearch.Witness

/-!
# Witnesses: what is read back from a signed text

* `load_witnessText`: parsing a signed witness gives its five fields.
* `witnessKey_createWitness`: `o_append_witness` files a witness under the hash of its output.
* `witness_checks`: the auditor accepts it, and reads the fields of its context.
-/

namespace DeSearch

open JSON

variable {R : Runtime} {C : Crypto}

/-! ## The JSON of a witness -/

/-- The four signed fields in the order of the `std::map`. -/
theorem set_fields (tag ins out func : JSON) :
    (((null.set (ascii "TAG") tag).set (ascii "IN") ins).set (ascii "OUT") out).set
      (ascii "FUNC") func =
    object [(ascii "FUNC", func), (ascii "IN", ins), (ascii "OUT", out), (ascii "TAG", tag)] :=
  rfl

theorem witnessJson_eq (context : WitnessContext) :
    witnessJson context = object [(ascii "FUNC", string context.bin),
      (ascii "IN", array (context.ins.map string)), (ascii "OUT", string context.out),
      (ascii "TAG", string context.tag)] :=
  set_fields _ _ _ _

/-- The signed witness as a value. -/
def signedJson (C : Crypto) (context : WitnessContext) : JSON :=
  object [(ascii "FUNC", string context.bin), (ascii "IN", array (context.ins.map string)),
    (ascii "OUT", string context.out),
    (ascii "SIG", string (sigToString (C.sign (witnessMessage context)))),
    (ascii "TAG", string context.tag)]

theorem witnessText_eq (context : WitnessContext) :
    witnessText C context = (signedJson C context).dump 1 := rfl

theorem plainElems_strings (l : List Bytes) : PlainElems (l.map string) := by
  induction l with
  | nil => trivial
  | cons s l ih => exact ⟨trivial, ih⟩

theorem plain_signedJson (context : WitnessContext) : Plain (signedJson C context) := by
  refine ⟨⟨⟨ascii "FUNC", rfl⟩, trivial, ⟨ascii "IN", rfl⟩, plainElems_strings _,
    ⟨ascii "OUT", rfl⟩, trivial, ⟨ascii "SIG", rfl⟩, trivial, ⟨ascii "TAG", rfl⟩, trivial,
    trivial⟩, ?_⟩
  change [ascii "FUNC", ascii "IN", ascii "OUT", ascii "SIG", ascii "TAG"].Pairwise (· < ·)
  decide

/-- Parsing a signed witness gives its fields back. -/
theorem load_witnessText (context : WitnessContext) :
    load R (witnessText C context) = some (signedJson C context) :=
  load_dump (plain_signedJson context) 1

/-! ## What a signature covers -/

/-- The printed form of the four signed fields. -/
theorem dump_fields (func ins out tag : JSON) :
    (object [(ascii "FUNC", func), (ascii "IN", ins), (ascii "OUT", out), (ascii "TAG", tag)]).dump
        1 =
      ascii "\x7b\n  \"FUNC\" : " ++ (func.dump 2 ++ (ascii ",\n  \"IN\" : " ++ (ins.dump 2 ++
        (ascii ",\n  \"OUT\" : " ++ (out.dump 2 ++ (ascii ",\n  \"TAG\" : " ++ (tag.dump 2 ++
          ascii "\n\x7d"))))))) := by
  simp only [dump, dumpMembers, List.append_assoc]
  rfl

/-- A text with the signature of a context has the fields of that context. -/
theorem fields_of_signedText {original : JSON} {context : WitnessContext}
    (h : signedText original = witnessMessage context) :
    original.get (ascii "FUNC") = string context.bin ∧
      original.get (ascii "IN") = array (context.ins.map string) ∧
      original.get (ascii "OUT") = string context.out ∧
      original.get (ascii "TAG") = string context.tag := by
  rw [signedText, set_fields, witnessMessage, witnessJson_eq, dump_fields, dump_fields] at h
  -- the two texts are compared from left to right, one field after the other
  obtain ⟨hfunc, h⟩ := dump_append_eq_string (List.append_cancel_left h)
  obtain ⟨hins, h⟩ := dump_append_eq_strings (List.append_cancel_left h)
  obtain ⟨hout, h⟩ := dump_append_eq_string (List.append_cancel_left h)
  exact ⟨hfunc, hins, hout, (dump_append_eq_string (List.append_cancel_left h)).1⟩

theorem signedText_ne_toDecimal (original : JSON) (e : Int) :
    signedText original ≠ toDecimal e := by
  intro h
  have hbrace : ch '\x7b' ∈ toDecimal e := by
    rw [← h, signedText, set_fields, dump_fields]
    exact List.mem_cons_self
  exact absurd (mem_toDecimal hbrace) (by decide)

/-! ## Hashes print as themselves -/

theorem isHex_hexDigit : ∀ n < 16, isHex (hexDigit n) := by decide

theorem isHex_of_mem_sigToString {sig : Bytes} {c : Byte} (h : c ∈ sigToString sig) :
    isHex c := by
  obtain ⟨b, -, hc⟩ := List.mem_flatMap.1 h
  rcases List.mem_cons.1 hc with rfl | hc
  · exact isHex_hexDigit _ (by omega)
  · rw [List.mem_singleton.1 hc]
    exact isHex_hexDigit _ (by omega)

theorem escapeByte_of_isHex {c : Byte} (h : isHex c) : escapeByte c = [c] := by
  have hrange : 48 ≤ c.val ∧ c.val ≤ 57 ∨ 97 ≤ c.val ∧ c.val ≤ 102 ∨
      65 ≤ c.val ∧ c.val ≤ 70 := by
    simpa [isHex, isDigit, Fin.le_def, or_assoc] using h
  unfold escapeByte
  split_ifs with h1 h2 h3 h4 h5 h6 h7
  case neg => rfl
  all_goals
    subst c
    exact absurd hrange (by decide)

theorem escape_of_hex {s : Bytes} (h : ∀ c ∈ s, isHex c) : escape s = s := by
  induction s with
  | nil => rfl
  | cons c s ih =>
      rw [List.forall_mem_cons] at h
      have hstep : escape (c :: s) = escapeByte c ++ escape s := rfl
      rw [hstep, escapeByte_of_isHex h.1, ih h.2]
      rfl

theorem nulFree_of_hex {s : Bytes} (h : ∀ c ∈ s, isHex c) : NulFree s :=
  fun hz => absurd (h 0 hz) (by decide)

theorem trimString_quote (s : Bytes) : trimString (ch '"' :: s ++ [ch '"']) = s := by
  simp [trimString]

/-! ## The context the three roles fill -/

theorem foldl_witnessInput (context : WitnessContext) (inputs : List Bytes) :
    (inputs.foldl (witnessInput C) context).ins = context.ins ++ inputs.map C.sha256 ∧
      (inputs.foldl (witnessInput C) context).tag = context.tag ∧
      (context.stage ≠ 3 → (inputs.foldl (witnessInput C) context).stage ≠ 3) := by
  induction inputs generalizing context with
  | nil => simp
  | cons x inputs ih =>
      obtain ⟨hins, htag, hstage⟩ := ih (witnessInput C context x)
      refine ⟨?_, htag, fun _ => hstage (by simp [witnessInput])⟩
      rw [List.foldl_cons, hins]
      simp [witnessInput]

/-- The context after the five calls, for any identifier of the function and whatever the context
held as its stage before. -/
theorem witnessFunc_eq (stage : Nat) (tag : Bytes) (inputs : List Bytes) (output func : Bytes) :
    witnessFunc C (witnessOutput C (inputs.foldl (witnessInput C)
      (witnessInit { WitnessContext.fresh with stage := stage } tag)) output) func =
        ⟨tag, inputs.map C.sha256, C.sha256 output, C.sha256 func, 4⟩ := by
  obtain ⟨hins, htag, hstage⟩ := foldl_witnessInput (C := C)
    (witnessInit { WitnessContext.fresh with stage := stage } tag) inputs
  have h3 := hstage (by simp [witnessInit])
  unfold witnessFunc witnessOutput
  rw [if_neg h3]
  simp only [hins, htag]
  rfl

theorem witnessOf_eq (tag role : Bytes) (inputs : List Bytes) (output : Bytes) :
    witnessOf C tag role inputs output =
      ⟨tag, inputs.map C.sha256, C.sha256 output, C.sha256 (role ++ [0]), 4⟩ :=
  witnessFunc_eq 0 tag inputs output (role ++ [0])

theorem createWitness_eq (tag role : Bytes) (inputs : List Bytes) (output : Bytes) :
    createWitness C tag role inputs output =
      witnessText C (witnessOf C tag role inputs output) := by
  simp [createWitness, witnessFinalize, witnessOf_eq]

/-- A witness is filed under the hash of its output. -/
theorem witnessKey_createWitness (tag role : Bytes) (inputs : List Bytes) (output : Bytes) :
    witnessKey R (createWitness C tag role inputs output) = some (C.sha256 output) := by
  have hget : (signedJson C (witnessOf C tag role inputs output)).get (ascii "OUT") =
      string (C.sha256 output) := by
    rw [witnessOf_eq]
    rfl
  rw [witnessKey, createWitness_eq, load_witnessText, Option.map_some, hget, dump,
    trimString_quote, escape_of_hex (C.sha256_hex output)]

/-! ## Signatures in hexadecimal -/

theorem hexVal_hexDigit : ∀ n < 16, hexVal (hexDigit n) = some n := by decide

theorem hexPair_hexDigit (b : Byte) :
    hexPair (hexDigit (b.val / 16)) (hexDigit (b.val % 16)) = b := by
  have hb : 16 * (b.val / 16) + b.val % 16 = b.val := Nat.div_add_mod b.val 16
  rw [hexPair, hexVal_hexDigit _ (by omega)]
  simp only [hexVal_hexDigit _ (show b.val % 16 < 16 by omega), hb]
  exact Fin.ofNat_val_eq_self b

theorem getElem?_sigToString (sig : Bytes) (i : Nat) :
    (sigToString sig)[2 * i]? = sig[i]?.map (fun b => hexDigit (b.val / 16)) ∧
      (sigToString sig)[2 * i + 1]? = sig[i]?.map (fun b => hexDigit (b.val % 16)) := by
  induction sig generalizing i with
  | nil => exact ⟨rfl, rfl⟩
  | cons b sig ih =>
      cases i with
      | zero => exact ⟨rfl, rfl⟩
      | succ i => exact ih i

theorem sigToString_injective {s t : Bytes} (h : sigToString s = sigToString t) : s = t := by
  refine List.ext_getElem? fun i => ?_
  obtain ⟨hs, hs'⟩ := getElem?_sigToString s i
  obtain ⟨ht, ht'⟩ := getElem?_sigToString t i
  rw [h, ht] at hs
  rw [h, ht'] at hs'
  cases hsi : s[i]? with
  | none => simpa [hsi] using hs
  | some b =>
      obtain ⟨b', hti, hhigh⟩ := Option.map_eq_some_iff.1 (hs.trans (by rw [hsi, Option.map_some]))
      rw [hti, hsi, Option.map_some, Option.map_some, Option.some.injEq] at hs'
      rw [hti, ← hexPair_hexDigit b, ← hhigh, ← hs', hexPair_hexDigit]

/-- A printed signature is read back. -/
theorem stringToSig_sigToString {sig : Bytes} (h : sig.length = 64) :
    stringToSig R (sigToString sig) = sig := by
  have hlen : (sigToString sig).length = 128 := by
    rw [sigToString, List.length_flatMap]
    simp [h]
  refine List.ext_getElem (by simp [stringToSig, h]) fun i hi hi' => ?_
  obtain ⟨heven, hodd⟩ := getElem?_sigToString sig i
  have hi64 : i < 64 := by simpa [stringToSig] using hi
  rw [List.getElem?_eq_getElem hi', Option.map_some] at heven hodd
  simp only [stringToSig, List.getElem_map, List.getElem_range, dataAt, hlen,
    if_pos (show 2 * i < 128 by omega), if_pos (show 2 * i + 1 < 128 by omega),
    List.getD_eq_getElem?_getD, heven, hodd, Option.getD_some, hexPair_hexDigit]

/-! ## Witnesses that enclaves sign -/

/-- The witness was filled by the calls the enclaves make. -/
def WitnessContext.Filled (C : Crypto) (context : WitnessContext) : Prop :=
  ∃ tag role inputs output, context = witnessOf C tag role inputs output

section

variable {context : WitnessContext}

theorem WitnessContext.Filled.hex (h : context.Filled C) :
    (∀ x ∈ context.ins, ∀ c ∈ x, isHex c) ∧ (∀ c ∈ context.out, isHex c) ∧
      ∀ c ∈ context.bin, isHex c := by
  obtain ⟨tag, role, inputs, output, rfl⟩ := h
  rw [witnessOf_eq]
  refine ⟨fun x hx => ?_, C.sha256_hex _, C.sha256_hex _⟩
  obtain ⟨m, -, rfl⟩ := List.mem_map.1 hx
  exact C.sha256_hex m

/-- `check_witness` accepts the text of a signed witness. -/
theorem checkWitness_witnessText : checkWitness R C (witnessText C context) = some true := by
  have hsig : ((signedJson C context).get (ascii "SIG")).toStr =
      sigToString (C.sign (witnessMessage context)) :=
    escape_of_hex fun c hc => isHex_of_mem_sigToString hc
  have hmessage : signedText (signedJson C context) = witnessMessage context := rfl
  rw [checkWitness, load_witnessText, Option.map_some, hsig, hmessage,
    stringToSig_sigToString (C.sign_length _), C.verify_sign]

theorem map_escape_of_hex {l : List Bytes} (h : ∀ x ∈ l, ∀ c ∈ x, isHex c) :
    l.map escape = l := by
  rw [List.map_congr_left fun x hx => escape_of_hex (h x hx), List.map_id']

/-- What the auditor reads as `IN`, from any text with the signature of the context. -/
theorem readIn_of_signedText {w : Bytes} {original : JSON}
    (hins : ∀ x ∈ context.ins, ∀ c ∈ x, isHex c) (hload : load R w = some original)
    (h : signedText original = witnessMessage context) : readIn R w = some context.ins := by
  have hmap : (context.ins.map string).map toStr = context.ins.map escape := by
    rw [List.map_map]
    rfl
  rw [readIn, hload, Option.map_some, (fields_of_signedText h).2.1, arrayRange, hmap,
    map_escape_of_hex hins]

/-- What `o_append_witness` reads as the key, from any text with the signature. -/
theorem witnessKey_of_signedText {w : Bytes} {original : JSON} (hfilled : context.Filled C)
    (hload : load R w = some original) (h : signedText original = witnessMessage context) :
    witnessKey R w = some context.out := by
  rw [witnessKey, hload, Option.map_some, (fields_of_signedText h).2.2.1, dump,
    trimString_quote, escape_of_hex hfilled.hex.2.1]

theorem readIn_witnessText (hfilled : context.Filled C) :
    readIn R (witnessText C context) = some context.ins :=
  readIn_of_signedText hfilled.hex.1 (load_witnessText context) rfl

theorem readIn_createWitness (tag role : Bytes) (inputs : List Bytes) (output : Bytes) :
    readIn R (createWitness C tag role inputs output) = some (inputs.map C.sha256) := by
  rw [createWitness_eq, readIn_witnessText ⟨_, _, _, _, rfl⟩, witnessOf_eq]

theorem checkWitness_createWitness (tag role : Bytes) (inputs : List Bytes) (output : Bytes) :
    checkWitness R C (createWitness C tag role inputs output) = some true := by
  rw [createWitness_eq, checkWitness_witnessText]

/-- The text of a witness shows its `FUNC`. -/
theorem infix_witnessText (hfilled : context.Filled C) :
    context.bin <:+: witnessText C context := by
  rw [witnessText_eq, signedJson, dump, dumpMembers_cons, dump, escape_of_hex hfilled.hex.2.2]
  simp only [List.append_assoc, List.cons_append]
  exact ⟨ascii "\x7b\n  \"FUNC\" : \"", _, by simp only [List.append_assoc]; rfl⟩

end

/-- **Signing and checking agree.** Whatever the tag, the inputs, the output and the identifier of
the function are, the text that `witness_finalize` returns is accepted by `check_witness`, and what
is parsed from it are the fields of the context. -/
theorem witness_checks (R : Runtime) (stage : Nat) (tag : Bytes) (inputs : List Bytes)
    (output func : Bytes) :
    ∃ context w original,
      context = witnessFunc C (witnessOutput C (inputs.foldl (witnessInput C)
        (witnessInit { WitnessContext.fresh with stage := stage } tag)) output) func ∧
      (witnessFinalize C context).2 = some w ∧ checkWitness R C w = some true ∧
      load R w = some original ∧ original.get (ascii "OUT") = string context.out ∧
      original.get (ascii "FUNC") = string context.bin ∧ readIn R w = some context.ins ∧
      context.ins = inputs.map C.sha256 ∧ context.out = C.sha256 output ∧
      context.bin = C.sha256 func := by
  have hins : ∀ x ∈ inputs.map C.sha256, ∀ c ∈ x, isHex c := by
    intro x hx
    obtain ⟨m, -, rfl⟩ := List.mem_map.1 hx
    exact C.sha256_hex m
  refine ⟨⟨tag, inputs.map C.sha256, C.sha256 output, C.sha256 func, 4⟩, _, _,
    (witnessFunc_eq stage tag inputs output func).symm, rfl, checkWitness_witnessText,
    load_witnessText _, rfl, rfl, ?_, rfl, rfl, rfl⟩
  exact readIn_of_signedText hins (load_witnessText _) rfl

end DeSearch
