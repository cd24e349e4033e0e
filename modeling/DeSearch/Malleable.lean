import DeSearch.Audit
import DeSearch.JsonText

/-!
# What an accepted text is taken for

`check_witness` verifies four fields of a parsed text, printed anew. Texts that differ in anything
else, in further or repeated members, in blanks or in escapes, are accepted with the same signature.
`do_local_verify` reads the `IN` list from the parsed text, which the signature covers. Whether the
text is the witness of a crawler it decides on the raw text, by looking for the hash of the
crawlers' tag anywhere in it.

* `accepted_text_iff`: an accepted text has the `IN` list of a signed witness, and it is taken for
  what that witness is unless the hash stands in it without being its `FUNC`.
-/

namespace DeSearch

open JSON

variable {R : Runtime} {C : Crypto} {Signed : WitnessContext → Prop} {w : Bytes}

/-- Signatures cannot be forged: if the text verifies, what it verifies was signed, as a witness by
an enclave, or as an epoch by the manager, who has the same key. -/
def Authentic (R : Runtime) (C : Crypto) (Signed : WitnessContext → Prop) (w : Bytes) : Prop :=
  ∀ original, load R w = some original →
    C.verify (signedText original) (stringToSig R (original.get (ascii "SIG")).toStr) = true →
    (∃ s, Signed s ∧ signedText original = witnessMessage s) ∨
      ∃ e, signedText original = toDecimal e

/-- The four signed fields of the text are those of the witness. -/
def SignedAs (R : Runtime) (w : Bytes) (s : WitnessContext) : Prop :=
  ∃ original, load R w = some original ∧ signedText original = witnessMessage s

/-- Where the crawlers' `func` stands in the text, it is the `FUNC` of the text. -/
def FuncInPlace (R : Runtime) (C : Crypto) (w : Bytes) : Prop :=
  crawlerFunc C <:+: w →
    ∃ original, load R w = some original ∧ original.get (ascii "FUNC") = string (crawlerFunc C)

theorem crawlerFunc_ne_nil : crawlerFunc C ≠ [] := by
  intro h
  have hlen := C.sha256_length (ascii "cralwer" ++ [0])
  rw [← crawlerFunc, h] at hlen
  cases hlen

/-- The text of a crawler's witness shows the crawlers' `func`, however it is written. -/
theorem SignedAs.infix {s : WitnessContext} (h : SignedAs R w s) (hbin : s.bin = crawlerFunc C) :
    crawlerFunc C <:+: w := by
  obtain ⟨original, hload, heq⟩ := h
  have hfunc : strings (original.get (ascii "FUNC")) = [crawlerFunc C] := by
    rw [(fields_of_signedText heq).1, hbin]
    rfl
  have hmem : crawlerFunc C ∈ strings original := by
    refine strings_get_subset (ascii "FUNC") ?_
    rw [hfunc]
    exact List.mem_singleton_self _
  exact infix_of_load hload hmem crawlerFunc_ne_nil (C.sha256_hex _)

theorem SignedAs.funcInPlace_iff {s : WitnessContext} (h : SignedAs R w s) :
    FuncInPlace R C w ↔ (crawlerFunc C <:+: w ↔ s.bin = crawlerFunc C) := by
  obtain ⟨original, hload, heq⟩ := h
  have hfunc := (fields_of_signedText heq).1
  constructor
  · intro hplace
    refine ⟨fun hin => ?_, SignedAs.infix ⟨original, hload, heq⟩⟩
    obtain ⟨original', hload', hfunc'⟩ := hplace hin
    rw [hload] at hload'
    cases hload'
    rw [hfunc] at hfunc'
    exact JSON.string.inj hfunc'
  · intro hiff hin
    exact ⟨original, hload, by rw [hfunc, hiff.1 hin]⟩

/-- **Accepted texts.** For every text that `check_witness` accepts there is a signed witness with
the `IN` list that is read from the text; and STEP-4 takes the text for a crawler's witness exactly
if that witness is one, if and only if the crawlers' `func` stands in the text as its `FUNC` or not
at all. -/
theorem accepted_text_iff (hfilled : ∀ s, Signed s → s.Filled C) (hauth : Authentic R C Signed w)
    (hacc : checkWitness R C w = some true) :
    ∃ s, Signed s ∧ SignedAs R w s ∧ readIn R w = some s.ins ∧
      ((crawlerFunc C <:+: w ↔ s.bin = crawlerFunc C) ↔ FuncInPlace R C w) := by
  obtain ⟨original, hload, hverify⟩ := Option.map_eq_some_iff.1 hacc
  rcases hauth original hload hverify with ⟨s, hsigned, heq⟩ | ⟨e, he⟩
  · have has : SignedAs R w s := ⟨original, hload, heq⟩
    exact ⟨s, hsigned, has, readIn_of_signedText (hfilled s hsigned).hex.1 hload heq,
      has.funcInPlace_iff.symm⟩
  · exact absurd he (signedText_ne_toDecimal original e)

/-! ## A further member -/

/-- A signed witness with a further member. -/
def extendedJson (C : Crypto) (s : WitnessContext) (value : Bytes) : JSON :=
  object [(ascii "FUNC", string s.bin), (ascii "IN", array (s.ins.map string)),
    (ascii "OUT", string s.out),
    (ascii "SIG", string (sigToString (C.sign (witnessMessage s)))),
    (ascii "TAG", string s.tag), (ascii "X", string value)]

theorem plain_extendedJson (s : WitnessContext) (value : Bytes) :
    Plain (extendedJson C s value) := by
  refine ⟨⟨⟨ascii "FUNC", rfl⟩, trivial, ⟨ascii "IN", rfl⟩, plainElems_strings _,
    ⟨ascii "OUT", rfl⟩, trivial, ⟨ascii "SIG", rfl⟩, trivial, ⟨ascii "TAG", rfl⟩, trivial,
    ⟨ascii "X", rfl⟩, trivial, trivial⟩, ?_⟩
  change [ascii "FUNC", ascii "IN", ascii "OUT", ascii "SIG", ascii "TAG",
    ascii "X"].Pairwise (· < ·)
  decide

theorem load_extendedJson (s : WitnessContext) (value : Bytes) :
    load R ((extendedJson C s value).dump 1) = some (extendedJson C s value) :=
  load_dump (plain_extendedJson s value) 1

theorem signedText_extendedJson (s : WitnessContext) (value : Bytes) :
    signedText (extendedJson C s value) = witnessMessage s := rfl

theorem checkWitness_extendedJson (s : WitnessContext) (value : Bytes) :
    checkWitness R C ((extendedJson C s value).dump 1) = some true := by
  have hsig : ((extendedJson C s value).get (ascii "SIG")).toStr =
      sigToString (C.sign (witnessMessage s)) :=
    escape_of_hex fun c hc => isHex_of_mem_sigToString hc
  rw [checkWitness, load_extendedJson, Option.map_some, hsig, signedText_extendedJson,
    stringToSig_sigToString (C.sign_length _), C.verify_sign]

theorem authentic_extendedJson (s : WitnessContext) (value : Bytes) :
    Authentic R C (· = s) ((extendedJson C s value).dump 1) := by
  intro original hload _
  rw [load_extendedJson] at hload
  cases hload
  exact .inl ⟨s, rfl, signedText_extendedJson s value⟩

/-- The witness of an indexer. -/
def indexWitness : WitnessContext :=
  witnessOf sampleCrypto (ascii "STEEMIT INDEXER") (ascii "indexer") [auditDocs] []

theorem indexWitness_bin : indexWitness.bin ≠ crawlerFunc sampleCrypto := by
  rw [indexWitness, witnessOf_eq]
  decide +kernel

/-- A further member that says nothing of crawlers. -/
theorem accepted_text_indexer : ∃ s, s = indexWitness ∧
    SignedAs sampleRuntime ((extendedJson sampleCrypto indexWitness []).dump 1) s ∧
    readIn sampleRuntime ((extendedJson sampleCrypto indexWitness []).dump 1) = some s.ins ∧
    ((crawlerFunc sampleCrypto <:+: (extendedJson sampleCrypto indexWitness []).dump 1 ↔
      s.bin = crawlerFunc sampleCrypto) ↔ FuncInPlace sampleRuntime sampleCrypto
        ((extendedJson sampleCrypto indexWitness []).dump 1)) :=
  accepted_text_iff (fun _ hs => hs ▸ ⟨_, _, _, _, rfl⟩) (authentic_extendedJson indexWitness [])
    (checkWitness_extendedJson indexWitness [])

/-- The witness of an indexer with the crawlers' `func` in a further member is accepted and taken
for the witness of a crawler. -/
theorem extended_witness_misread : ∃ w,
    checkWitness sampleRuntime sampleCrypto w = some true ∧
    Authentic sampleRuntime sampleCrypto (· = indexWitness) w ∧
    ¬∃ s, s = indexWitness ∧ readIn sampleRuntime w = some s.ins ∧
      (crawlerFunc sampleCrypto <:+: w ↔ s.bin = crawlerFunc sampleCrypto) := by
  refine ⟨_, checkWitness_extendedJson indexWitness (crawlerFunc sampleCrypto),
    authentic_extendedJson indexWitness _, ?_⟩
  rintro ⟨s, rfl, -, hiff⟩
  have hmem : crawlerFunc sampleCrypto ∈
      strings (extendedJson sampleCrypto indexWitness (crawlerFunc sampleCrypto)) := by
    simp [extendedJson, strings, stringsMembers]
  have hin := infix_of_load (load_extendedJson (R := sampleRuntime) indexWitness _) hmem
    crawlerFunc_ne_nil (sampleCrypto.sha256_hex _)
  exact indexWitness_bin (hiff.1 hin)

end DeSearch
