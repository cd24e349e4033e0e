import DeSearch.JsonProof

/-!
# Witnesses

A witness records what an enclave did: the hashes of its inputs, the hash of its one output, the
hash of its role's tag, and an Ed25519 signature over the printed JSON of these. The enclave side
(`enclave_witness.cpp`) fills a context through five calls and signs at the last one. The client
side (`check_witness`) parses the stored text, prints the four signed fields again and verifies.

SHA-256 and Ed25519 are OpenSSL's and HACL*'s; they are parameters here (`Crypto`), with what
their printed forms look like and that a signature verifies.
-/

namespace DeSearch

open JSON

/-- The cryptography the programs link against, under the hard-coded key pair. -/
structure Crypto where
  /-- `sha256_string`: the digest in lower-case hexadecimal. -/
  sha256 : Bytes → Bytes
  /-- `ed25519_sign` with `skey`. -/
  sign : Bytes → Bytes
  /-- `ed25519_verify` with `pkey`. -/
  verify : Bytes → Bytes → Bool
  sha256_hex : ∀ m, ∀ c ∈ sha256 m, isHex c
  sha256_length : ∀ m, (sha256 m).length = 64
  sign_length : ∀ m, (sign m).length = 64
  verify_sign : ∀ m, verify m (sign m) = true

/-! ## Hexadecimal text -/

/-- One digit of `%02x`. -/
def hexDigit (n : Nat) : Byte := if n < 10 then Fin.ofNat 256 (48 + n) else Fin.ofNat 256 (87 + n)

/-- `ed25519_sig_to_string`. -/
def sigToString (sig : Bytes) : Bytes :=
  sig.flatMap fun b => [hexDigit (b.val / 16), hexDigit (b.val % 16)]

/-- The value of a hexadecimal digit. -/
def hexVal (c : Byte) : Option Nat :=
  if isDigit c then some (c.val - 48)
  else if 97 ≤ c ∧ c ≤ 102 then some (c.val - 87)
  else if 65 ≤ c ∧ c ≤ 70 then some (c.val - 55)
  else none

/-- `strtol(temp, 0, 16)` on a two-character string, stored in a byte. -/
def hexPair (a b : Byte) : Byte :=
  match hexVal a with
  | some x =>
      match hexVal b with
      | some y => Fin.ofNat 256 (16 * x + y)
      | none => Fin.ofNat 256 x
  | none =>
      if isSpace a ∨ a = ch '+' then Fin.ofNat 256 ((hexVal b).getD 0)
      else if a = ch '-' then Fin.ofNat 256 (256 - (hexVal b).getD 0)
      else 0

/-- `s.data()[i]`, also past the terminator. -/
def dataAt (R : Runtime) (s : Bytes) (i : Nat) : Byte :=
  if i < s.length then s.getD i 0 else if i = s.length then 0 else R.past s (i - s.length - 1)

/-- `ed25519_string_to_sig`: 128 characters are read whatever the length of the string. -/
def stringToSig (R : Runtime) (s : Bytes) : Bytes :=
  (List.range 64).map fun i => hexPair (dataAt R s (2 * i)) (dataAt R s (2 * i + 1))

/-! ## The enclave side -/

/-- `witness_context`. -/
structure WitnessContext where
  tag : Bytes
  ins : List Bytes
  out : Bytes
  bin : Bytes
  stage : Nat

/-- A context as C++ constructs it, before `witness_init`. -/
def WitnessContext.fresh : WitnessContext := ⟨[], [], [], [], 0⟩

/-- `witness_init`. -/
def witnessInit (context : WitnessContext) (tag : Bytes) : WitnessContext :=
  { context with tag := tag, stage := 1 }

/-- `witness_input`. -/
def witnessInput (C : Crypto) (context : WitnessContext) (data : Bytes) : WitnessContext :=
  { context with ins := context.ins ++ [C.sha256 data], stage := 2 }

/-- `witness_output`. -/
def witnessOutput (C : Crypto) (context : WitnessContext) (data : Bytes) : WitnessContext :=
  if context.stage = 3 then context else { context with out := C.sha256 data, stage := 3 }

/-- `witness_func`. -/
def witnessFunc (C : Crypto) (context : WitnessContext) (data : Bytes) : WitnessContext :=
  if context.stage = 4 then context else { context with bin := C.sha256 data, stage := 4 }

/-- The unsigned JSON of a context. -/
def witnessJson (context : WitnessContext) : JSON :=
  ((((null.set (ascii "TAG") (string context.tag)).set (ascii "IN")
    (array (context.ins.map string))).set (ascii "OUT") (string context.out)).set (ascii "FUNC")
      (string context.bin))

/-- The text an enclave signs. -/
def witnessMessage (context : WitnessContext) : Bytes := (witnessJson context).dump 1

/-- The text of a signed witness. -/
def witnessText (C : Crypto) (context : WitnessContext) : Bytes :=
  ((witnessJson context).set (ascii "SIG")
    (string (sigToString (C.sign (witnessMessage context))))).dump 1

/-- `witness_finalize`: the signed text, unless the context was finalized before. -/
def witnessFinalize (C : Crypto) (context : WitnessContext) : WitnessContext × Option Bytes :=
  if context.stage = 5 then (context, none)
  else ({ context with stage := 5 }, some (witnessText C context))

/-- The context after the calls of `create_cralwer_witness`, `create_indexer_witness` and
`create_reducer_witness`: the inputs one by one, the output, the role's tag with its NUL. -/
def witnessOf (C : Crypto) (tag role : Bytes) (inputs : List Bytes) (output : Bytes) :
    WitnessContext :=
  witnessFunc C (witnessOutput C (inputs.foldl (witnessInput C)
    (witnessInit .fresh tag)) output) (role ++ [0])

/-- The text of the witness the three `create_..._witness` functions return. -/
def createWitness (C : Crypto) (tag role : Bytes) (inputs : List Bytes) (output : Bytes) : Bytes :=
  (witnessFinalize C (witnessOf C tag role inputs output)).2.getD []

/-! ## The client side -/

/-- The text `check_witness` verifies: four fields of the parsed witness, printed again. -/
def signedText (original : JSON) : Bytes :=
  ((((null.set (ascii "TAG") (original.get (ascii "TAG"))).set (ascii "IN")
    (original.get (ascii "IN"))).set (ascii "OUT") (original.get (ascii "OUT"))).set
      (ascii "FUNC") (original.get (ascii "FUNC"))).dump 1

/-- `check_witness`. -/
def checkWitness (R : Runtime) (C : Crypto) (text : Bytes) : Option Bool :=
  (load R text).map fun original =>
    C.verify (signedText original) (stringToSig R (original.get (ascii "SIG")).toStr)

/-- How `do_local_verify` reads the `IN` list of a witness text. -/
def readIn (R : Runtime) (text : Bytes) : Option (List Bytes) :=
  (load R text).map fun j => (j.get (ascii "IN")).arrayRange.map toStr

/-- `trim_string`: the string without its first and last character. -/
def trimString (s : Bytes) : Bytes := (s.drop 1).take (s.length - 2)

/-- The key under which `o_append_witness` files a witness: its `OUT`, as printed, without the
quotes. -/
def witnessKey (R : Runtime) (text : Bytes) : Option Bytes :=
  (load R text).map fun j => trimString ((j.get (ascii "OUT")).dump 1)

end DeSearch
