import DeSearch.Enclave

/-!
# One output per witness

`witness_init` opens a context. Then `witness_input`, `witness_output`, `witness_func` and
`witness_finalize` may come in any order and number. The field `stage` is there "in case of revert":
a second output is to fail, and so is a second signature. But every call compares it with its own
number only, and then overwrites it. So `stage` tells no more than what the last call was, and a
repetition is refused only right after the call it repeats.

* `stage_runCalls`: `stage` is the number of the last call.
* `mem_signedTexts`: which calls sign, and what.
* `singleOutput_iff`: a context keeps to one output exactly if its outputs stand next to each other,
  its finalizations do too, and an output comes before them.
-/

namespace DeSearch

open JSON

variable {R : Runtime} {C : Crypto}

/-! ## Sequences of calls -/

/-- A call on a context after `witness_init`. -/
inductive WitnessCall where
  | input (data : Bytes)
  | output (data : Bytes)
  | func (data : Bytes)
  | finalize
deriving DecidableEq

namespace WitnessCall

/-- The context after the call. -/
def step (C : Crypto) (call : WitnessCall) (context : WitnessContext) : WitnessContext :=
  match call with
  | input data => witnessInput C context data
  | output data => witnessOutput C context data
  | func data => witnessFunc C context data
  | finalize => (witnessFinalize C context).1

/-- The text that the call signs, if any. -/
def signed (C : Crypto) (call : WitnessCall) (context : WitnessContext) : Option Bytes :=
  match call with
  | finalize => (witnessFinalize C context).2
  | _ => none

/-- The number that the call leaves in `stage`. -/
def stage : WitnessCall → Nat
  | input _ => 2
  | output _ => 3
  | func _ => 4
  | finalize => 5

/-- The data of an output. -/
def outputData : WitnessCall → Option Bytes
  | output data => some data
  | _ => none

def isOutput (call : WitnessCall) : Bool := call.outputData.isSome

def isFinalize (call : WitnessCall) : Bool := call = finalize

end WitnessCall

open WitnessCall

/-- The context after a sequence of calls. -/
def runCalls (C : Crypto) (context : WitnessContext) (calls : List WitnessCall) : WitnessContext :=
  calls.foldl (fun context call => call.step C context) context

/-- The texts that a sequence of calls signs. -/
def signedTexts (C : Crypto) : WitnessContext → List WitnessCall → List Bytes
  | _, [] => []
  | context, call :: calls =>
      (call.signed C context).toList ++ signedTexts C (call.step C context) calls

/-- The data of the first output. -/
def firstOutput (calls : List WitnessCall) : Option Bytes := calls.findSome? outputData

/-- **One output.** At most one witness is signed, its `OUT` is the hash of the first output, and
the outputs after the first one change nothing. -/
structure SingleOutput (R : Runtime) (C : Crypto) (context : WitnessContext)
    (calls : List WitnessCall) : Prop where
  once : (signedTexts C context calls).length ≤ 1
  out : ∀ w ∈ signedTexts C context calls, ∃ data j, firstOutput calls = some data ∧
    load R w = some j ∧ j.get (ascii "OUT") = string (C.sha256 data)
  later : ∀ before data after, calls = before ++ .output data :: after →
    (∃ c ∈ before, c.isOutput) →
      runCalls C context (before ++ [.output data]) = runCalls C context before

/-- Between two calls of a kind there are only calls of that kind. -/
def Together (kind : WitnessCall → Bool) (calls : List WitnessCall) : Prop :=
  ∀ before first between last after, calls = before ++ first :: (between ++ last :: after) →
    kind first → kind last → ∀ c ∈ between, kind c

theorem Together.of_append {kind : WitnessCall → Bool} (before after : List WitnessCall)
    (h : Together kind (before ++ after)) : Together kind before := by
  rintro front first between last rest rfl
  exact h front first between last (rest ++ after) (by simp)

/-! ## What the stage knows -/

section

variable {context : WitnessContext} {before after calls : List WitnessCall} {call : WitnessCall}

theorem stage_step (call : WitnessCall) (context : WitnessContext) :
    (call.step C context).stage = call.stage := by
  cases call with
  | input data => rfl
  | output data =>
      change (witnessOutput C context data).stage = 3
      unfold witnessOutput
      split_ifs with h
      · exact h
      · rfl
  | func data =>
      change (witnessFunc C context data).stage = 4
      unfold witnessFunc
      split_ifs with h
      · exact h
      · rfl
  | finalize =>
      change (witnessFinalize C context).1.stage = 5
      unfold witnessFinalize
      split_ifs with h
      · exact h
      · rfl

@[simp] theorem runCalls_nil : runCalls C context [] = context := rfl

theorem runCalls_append (context : WitnessContext) (before after : List WitnessCall) :
    runCalls C context (before ++ after) = runCalls C (runCalls C context before) after :=
  List.foldl_append

theorem runCalls_concat (context : WitnessContext) (before : List WitnessCall)
    (call : WitnessCall) :
    runCalls C context (before ++ [call]) = call.step C (runCalls C context before) :=
  runCalls_append context before [call]

/-- The stage is the number of the last call. -/
theorem stage_runCalls (context : WitnessContext) (before : List WitnessCall) (call : WitnessCall) :
    (runCalls C context (before ++ [call])).stage = call.stage := by
  rw [runCalls_concat, stage_step]

theorem stage_eq_three_iff : call.stage = 3 ↔ call.isOutput := by
  cases call <;> simp [WitnessCall.stage, isOutput, outputData]

theorem exists_output (h : call.isOutput) : ∃ data, call = .output data := by
  cases call with
  | output data => exact ⟨data, rfl⟩
  | _ => cases h

theorem stage_eq_five_iff : call.stage = 5 ↔ call.isFinalize := by
  cases call <;> simp [WitnessCall.stage, isFinalize]

/-- A context that did not start with this number has it only after such a call. -/
theorem exists_last_of_stage {n : Nat} (hstart : context.stage ≠ n)
    (h : (runCalls C context before).stage = n) :
    ∃ front last, before = front ++ [last] ∧ last.stage = n := by
  rcases List.eq_nil_or_concat before with rfl | ⟨front, last, rfl⟩
  · exact absurd h hstart
  · rw [List.concat_eq_append, stage_runCalls] at h
    exact ⟨front, last, List.concat_eq_append, h⟩

/-! ## Signatures -/

theorem signed_eq_some {w : Bytes} : call.signed C context = some w ↔
    call = .finalize ∧ context.stage ≠ 5 ∧ w = witnessText C context := by
  cases call with
  | finalize =>
      change (witnessFinalize C context).2 = some w ↔ _
      unfold witnessFinalize
      split_ifs with h
      · simp [h]
      · simp [h, eq_comm]
  | _ => simp [signed]

theorem signedTexts_append (context : WitnessContext) (before after : List WitnessCall) :
    signedTexts C context (before ++ after) =
      signedTexts C context before ++ signedTexts C (runCalls C context before) after := by
  induction before generalizing context with
  | nil => rfl
  | cons call before ih =>
      rw [List.cons_append, signedTexts, ih, signedTexts, List.append_assoc]
      rfl

/-- The first signature of a sequence of calls. -/
theorem exists_first_signature (h : signedTexts C context calls ≠ []) :
    ∃ before after, calls = before ++ .finalize :: after ∧
      (runCalls C context before).stage ≠ 5 ∧
      signedTexts C context calls = witnessText C (runCalls C context before) ::
        signedTexts C (runCalls C context (before ++ [.finalize])) after := by
  induction calls generalizing context with
  | nil => exact absurd rfl h
  | cons call calls ih =>
      cases hsigned : call.signed C context with
      | some w =>
          obtain ⟨rfl, hstage, rfl⟩ := signed_eq_some.1 hsigned
          refine ⟨[], calls, rfl, hstage, ?_⟩
          rw [signedTexts, hsigned]
          rfl
      | none =>
          have htexts : signedTexts C context (call :: calls) =
              signedTexts C (call.step C context) calls := by
            rw [signedTexts, hsigned]
            rfl
          rw [htexts] at h ⊢
          obtain ⟨before, after, rfl, hstage, heq⟩ := ih h
          exact ⟨call :: before, after, rfl, hstage, heq⟩

/-- Which calls sign, and what. -/
theorem mem_signedTexts {w : Bytes} : w ∈ signedTexts C context calls ↔
    ∃ before after, calls = before ++ .finalize :: after ∧
      (runCalls C context before).stage ≠ 5 ∧ w = witnessText C (runCalls C context before) := by
  constructor
  · intro h
    induction calls generalizing context with
    | nil => exact absurd h List.not_mem_nil
    | cons call calls ih =>
        rcases List.mem_append.1 h with h | h
        · obtain ⟨rfl, hstage, hw⟩ := signed_eq_some.1 (Option.mem_toList.1 h)
          exact ⟨[], calls, rfl, hstage, hw⟩
        · obtain ⟨before, after, rfl, hstage, hw⟩ := ih h
          exact ⟨call :: before, after, rfl, hstage, hw⟩
  · rintro ⟨before, after, rfl, hstage, rfl⟩
    have hsigned : WitnessCall.finalize.signed C (runCalls C context before) =
        some (witnessText C (runCalls C context before)) := signed_eq_some.2 ⟨rfl, hstage, rfl⟩
    rw [signedTexts_append, signedTexts, hsigned]
    simp

theorem signedTexts_ne_nil (hstart : context.stage ≠ 5) (h : .finalize ∈ calls) :
    signedTexts C context calls ≠ [] := by
  obtain ⟨before, after, rfl, hfirst⟩ := List.eq_append_cons_of_mem h
  refine List.ne_nil_of_mem (mem_signedTexts.2 ⟨before, after, rfl, fun hstage => ?_, rfl⟩)
  obtain ⟨front, last, rfl, hlast⟩ := exists_last_of_stage hstart hstage
  have hfinal : last = .finalize := by simpa [isFinalize] using stage_eq_five_iff.1 hlast
  exact hfirst (by simp [hfinal])

/-- At most one signature: the finalizations stand next to each other. -/
theorem length_signedTexts_le_one_iff (hstart : context.stage ≠ 5) :
    (signedTexts C context calls).length ≤ 1 ↔ Together isFinalize calls := by
  constructor
  · rintro hlen before first between last after rfl hfirst hlast c hc
    by_contra hother
    -- a call of another kind in between opens the context for a second signature
    obtain ⟨b₁, b₂, rfl⟩ := List.append_of_mem hc
    have hsplit : before ++ first :: ((b₁ ++ c :: b₂) ++ last :: after) =
        (before ++ [first]) ++ ((b₁ ++ [c]) ++ (b₂ ++ last :: after)) := by simp
    have hmem₁ : WitnessCall.finalize ∈ before ++ [first] := by
      simp [show first = .finalize by simpa [isFinalize] using hfirst]
    have hmem₂ : WitnessCall.finalize ∈ b₂ ++ last :: after := by
      simp [show last = .finalize by simpa [isFinalize] using hlast]
    have hopen : (runCalls C (runCalls C context (before ++ [first])) (b₁ ++ [c])).stage ≠ 5 := by
      rw [stage_runCalls]
      exact fun h => hother (stage_eq_five_iff.1 h)
    have h₁ := List.length_pos_iff.2 (signedTexts_ne_nil (C := C) hstart hmem₁)
    have h₂ := List.length_pos_iff.2 (signedTexts_ne_nil (C := C) hopen hmem₂)
    rw [hsplit, signedTexts_append, signedTexts_append _ (b₁ ++ [c]), List.length_append,
      List.length_append] at hlen
    omega
  · intro htogether
    by_contra hlen
    have hne : signedTexts C context calls ≠ [] := by
      rintro h
      simp [h] at hlen
    obtain ⟨before, after, rfl, -, heq⟩ := exists_first_signature hne
    have hne' : signedTexts C (runCalls C context (before ++ [.finalize])) after ≠ [] := by
      rintro h
      simp [heq, h] at hlen
    obtain ⟨between, after, rfl, hstage, -⟩ := exists_first_signature hne'
    -- the second signature comes after a call of another kind
    rw [← runCalls_append] at hstage
    rcases List.eq_nil_or_concat between with rfl | ⟨between, c, rfl⟩
    · rw [List.append_nil, stage_runCalls] at hstage
      exact hstage rfl
    · rw [List.concat_eq_append, ← List.append_assoc, stage_runCalls] at hstage
      exact hstage (stage_eq_five_iff.2
        (htogether _ _ _ _ after rfl rfl rfl c (by simp)))

/-! ## Outputs -/

theorem out_step_of_not_output (h : ¬call.isOutput) : (call.step C context).out = context.out := by
  cases call with
  | output data => exact absurd rfl h
  | input data => rfl
  | func data =>
      change (witnessFunc C context data).out = context.out
      unfold witnessFunc
      split_ifs <;> rfl
  | finalize =>
      change (witnessFinalize C context).1.out = context.out
      unfold witnessFinalize
      split_ifs <;> rfl

/-- The outputs after the first one change nothing: they stand next to each other. -/
theorem later_outputs_iff :
    (∀ before data after, calls = before ++ .output data :: after →
      (∃ c ∈ before, c.isOutput) →
        runCalls C context (before ++ [.output data]) = runCalls C context before) ↔
    Together isOutput calls := by
  constructor
  · rintro hlater before first between last after rfl hfirst hlast c hc
    by_contra hother
    -- the first output behind the call of another kind has an effect
    obtain ⟨b₁, b₂, rfl⟩ := List.append_of_mem hc
    obtain ⟨x, hx⟩ : ∃ x, (b₂ ++ last :: after).find? isOutput = some x :=
      Option.isSome_iff_exists.1 (List.find?_isSome.2 ⟨last, by simp, hlast⟩)
    obtain ⟨hout, u, v, huv, hu⟩ := List.find?_eq_some_iff_append.1 hx
    obtain ⟨data, rfl⟩ := exists_output hout
    have heq := hlater (before ++ first :: b₁ ++ [c] ++ u) data v (by simp [← huv])
      ⟨first, by simp, hfirst⟩
    have hstage := stage_runCalls (C := C) context (before ++ first :: b₁ ++ [c] ++ u)
      (.output data)
    rw [heq, runCalls_append] at hstage
    have hopen : (runCalls C context (before ++ first :: b₁ ++ [c])).stage ≠ 3 := by
      rw [stage_runCalls]
      exact fun h => hother (stage_eq_three_iff.1 h)
    obtain ⟨front, y, rfl, hy⟩ := exists_last_of_stage hopen hstage
    have hnot := hu y (by simp)
    rw [stage_eq_three_iff.1 hy] at hnot
    cases hnot
  · rintro htogether before data after rfl ⟨c, hc, hout⟩
    obtain ⟨b₁, b₂, rfl⟩ := List.append_of_mem hc
    have hstage : (runCalls C context (b₁ ++ c :: b₂)).stage = 3 := by
      rcases List.eq_nil_or_concat b₂ with rfl | ⟨b, last, rfl⟩
      · rw [stage_runCalls]
        exact stage_eq_three_iff.2 hout
      · have hlast : last.isOutput :=
          htogether b₁ c (b.concat last) (.output data) after (by simp) hout rfl last (by simp)
        rw [List.concat_eq_append, ← List.cons_append, ← List.append_assoc, stage_runCalls]
        exact stage_eq_three_iff.2 hlast
    rw [runCalls_concat]
    exact if_pos hstage

theorem firstOutput_append_of_mem (h : ∃ c ∈ before, c.isOutput) (after : List WitnessCall) :
    firstOutput (before ++ after) = firstOutput before := by
  have hsome : (firstOutput before).isSome := by
    rw [firstOutput, List.findSome?_isSome_iff]
    exact h
  rw [firstOutput, List.findSome?_append, ← firstOutput, Option.or_of_isSome hsome]

/-- Without an output the field keeps what it had. -/
theorem out_runCalls_of_no_output (h : ∀ c ∈ before, ¬c.isOutput) :
    (runCalls C context before).out = context.out := by
  induction before generalizing context with
  | nil => rfl
  | cons call before ih =>
      rw [List.forall_mem_cons] at h
      exact (ih h.2).trans (out_step_of_not_output h.1)

/-- The first output sets the field. -/
theorem out_runCalls_first_output (hstart : context.stage ≠ 3) (h : ∀ c ∈ before, ¬c.isOutput)
    (data : Bytes) : (runCalls C context (before ++ [.output data])).out = C.sha256 data := by
  have hstage : (runCalls C context before).stage ≠ 3 := by
    intro hthree
    obtain ⟨front, last, rfl, hlast⟩ := exists_last_of_stage hstart hthree
    exact h last (by simp) (stage_eq_three_iff.1 hlast)
  rw [runCalls_concat]
  change (witnessOutput C (runCalls C context before) data).out = _
  rw [witnessOutput, if_neg hstage]

/-- With outputs that stand next to each other, the field is the hash of the first one. -/
theorem out_runCalls (hstart : context.stage ≠ 3) (h : Together isOutput before)
    (hex : ∃ c ∈ before, c.isOutput) :
    ∃ data, firstOutput before = some data ∧
      (runCalls C context before).out = C.sha256 data := by
  obtain ⟨x, hx⟩ : ∃ x, before.find? isOutput = some x :=
    Option.isSome_iff_exists.1 (List.find?_isSome.2 hex)
  obtain ⟨hout, u, v, rfl, hu⟩ := List.find?_eq_some_iff_append.1 hx
  obtain ⟨data, rfl⟩ := exists_output hout
  have hnone : ∀ c ∈ u, ¬c.isOutput := by simpa using hu
  have hfirst : firstOutput (u ++ .output data :: v) = some data := by
    rw [firstOutput, List.findSome?_append, List.findSome?_eq_none_iff.2 fun c hc => by
      simpa [isOutput] using hnone c hc]
    rfl
  refine ⟨data, hfirst, ?_⟩
  have hlater := (@later_outputs_iff C context _).2 h
  clear hx hfirst h hex
  -- behind the first output nothing changes the field
  induction v using List.reverseRecOn with
  | nil => exact out_runCalls_first_output hstart hnone data
  | append_singleton v c ih =>
      have hrest : (runCalls C context (u ++ .output data :: v)).out = C.sha256 data :=
        ih fun before data' after heq => hlater before data' (after ++ [c]) <| by
          rw [← List.cons_append, ← List.append_assoc, heq, List.append_assoc, List.cons_append]
      rw [← List.cons_append, ← List.append_assoc]
      by_cases hc : c.isOutput
      · obtain ⟨data', rfl⟩ := exists_output hc
        rw [hlater (u ++ .output data :: v) data' [] (by simp) ⟨.output data, by simp, rfl⟩]
        exact hrest
      · rw [runCalls_concat, out_step_of_not_output hc]
        exact hrest

end

/-! ## One output -/

/-- Before a finalization there is an output, unless the context came with its hash. -/
def OutputFirst (C : Crypto) (context : WitnessContext) (calls : List WitnessCall) : Prop :=
  ∀ before after, calls = before ++ .finalize :: after → (∃ c ∈ before, c.isOutput) ∨
    ∃ data, firstOutput calls = some data ∧ context.out = C.sha256 data

theorem stage_witnessInit (context : WitnessContext) (tag : Bytes) :
    (witnessInit context tag).stage = 1 := rfl

theorem singleOutput_of_together {context : WitnessContext} {calls : List WitnessCall} (tag : Bytes)
    (houtputs : Together isOutput calls) (hfinals : Together isFinalize calls)
    (hfirst : OutputFirst C context calls) : SingleOutput R C (witnessInit context tag) calls := by
  have hthree : (witnessInit context tag).stage ≠ 3 := by simp [stage_witnessInit]
  have hfive : (witnessInit context tag).stage ≠ 5 := by simp [stage_witnessInit]
  refine ⟨(length_signedTexts_le_one_iff hfive).2 hfinals, fun w hw => ?_,
    later_outputs_iff.2 houtputs⟩
  obtain ⟨before, after, rfl, -, rfl⟩ := mem_signedTexts.1 hw
  obtain ⟨data, hdata, hout⟩ : ∃ data, firstOutput (before ++ .finalize :: after) = some data ∧
      (runCalls C (witnessInit context tag) before).out = C.sha256 data := by
    by_cases hex : ∃ c ∈ before, c.isOutput
    · obtain ⟨data, hdata, hout⟩ := out_runCalls (C := C) hthree (houtputs.of_append before _) hex
      exact ⟨data, by rw [firstOutput_append_of_mem hex, hdata], hout⟩
    · obtain ⟨data, hdata, hout⟩ := (hfirst before after rfl).resolve_left hex
      refine ⟨data, hdata, ?_⟩
      rw [out_runCalls_of_no_output fun c hc hc' => hex ⟨c, hc, hc'⟩]
      exact hout
  exact ⟨data, _, hdata, load_witnessText _, congrArg string hout⟩

/-- The first finalization signs the field as `witness_init` found it, if no output comes before. -/
theorem outputFirst_of_singleOutput {context : WitnessContext} {tag : Bytes}
    {calls : List WitnessCall} (h : SingleOutput R C (witnessInit context tag) calls) :
    OutputFirst C context calls := by
  intro before after hcalls
  by_contra hnone
  obtain ⟨hnooutput, hnohash⟩ := not_or.1 hnone
  have hfive : (witnessInit context tag).stage ≠ 5 := by simp [stage_witnessInit]
  have hmem : WitnessCall.finalize ∈ before ++ [.finalize] := by simp
  obtain ⟨front, rest, hsplit, hstage, -⟩ :=
    exists_first_signature (signedTexts_ne_nil (C := C) hfive hmem)
  have hfront : ∀ c ∈ front, ¬c.isOutput := by
    intro c hc hout
    have hc' : c ∈ before ++ [.finalize] := by simp [hsplit, hc]
    rcases List.mem_append.1 hc' with hc' | hc'
    · exact hnooutput ⟨c, hc', hout⟩
    · rw [List.mem_singleton.1 hc'] at hout
      cases hout
  have hcalls' : calls = front ++ .finalize :: (rest ++ after) := by
    rw [hcalls, ← List.cons_append, ← List.append_assoc, ← hsplit]
    simp
  obtain ⟨data, j, hdata, hj, hout⟩ := h.out _ (mem_signedTexts.2 ⟨front, _, hcalls', hstage, rfl⟩)
  rw [load_witnessText] at hj
  cases hj
  have hfield : (runCalls C (witnessInit context tag) front).out = C.sha256 data :=
    JSON.string.inj hout
  rw [out_runCalls_of_no_output hfront] at hfield
  exact hnohash ⟨data, hdata, hfield⟩

/-- **MISO.** For every sequence of calls on an initialized context: at most one witness is signed,
it carries the hash of the first output, and later outputs change nothing, exactly if the outputs
stand next to each other, the finalizations stand next to each other, and an output comes first. -/
theorem singleOutput_iff (context : WitnessContext) (tag : Bytes) (calls : List WitnessCall) :
    SingleOutput R C (witnessInit context tag) calls ↔
      Together isOutput calls ∧ Together isFinalize calls ∧ OutputFirst C context calls := by
  constructor
  · intro h
    have hfive : (witnessInit context tag).stage ≠ 5 := by simp [stage_witnessInit]
    exact ⟨later_outputs_iff.1 h.later, (length_signedTexts_le_one_iff hfive).1 h.once,
      outputFirst_of_singleOutput h⟩
  · rintro ⟨houtputs, hfinals, hfirst⟩
    exact singleOutput_of_together tag houtputs hfinals hfirst

/-- An output after `witness_func` replaces the first one, and a `witness_func` after the signature
makes room for another signature. -/
theorem second_output_signed : ∃ calls w w' j,
    firstOutput calls = some (ascii "a") ∧
    signedTexts sampleCrypto (witnessInit .fresh (ascii "TAG")) calls = [w, w'] ∧
    load sampleRuntime w = some j ∧
    j.get (ascii "OUT") = string (sampleCrypto.sha256 (ascii "b")) ∧
    sampleCrypto.sha256 (ascii "b") ≠ sampleCrypto.sha256 (ascii "a") :=
  ⟨[.output (ascii "a"), .func [], .output (ascii "b"), .finalize, .func [], .finalize], _, _, _,
    rfl, rfl, load_witnessText _, rfl, by decide +kernel⟩

/-- A kind of which there is at most one call stands together. -/
theorem together_of_countP_le {kind : WitnessCall → Bool} {calls : List WitnessCall}
    (h : calls.countP kind ≤ 1) : Together kind calls := by
  rintro before first between last after rfl hfirst hlast
  rw [List.countP_append, List.countP_cons_of_pos hfirst, List.countP_append,
    List.countP_cons_of_pos hlast] at h
  omega

/-- The calls of `create_cralwer_witness`, `create_indexer_witness` and
`create_reducer_witness`, up to the signature. -/
def roleCalls (role : Bytes) (inputs : List Bytes) (output : Bytes) : List WitnessCall :=
  inputs.map .input ++ [.output output, .func (role ++ [0])]

theorem runCalls_roleCalls (tag role output : Bytes) (inputs : List Bytes) :
    runCalls C (witnessInit .fresh tag) (roleCalls role inputs output) =
      witnessOf C tag role inputs output := by
  rw [roleCalls, runCalls, List.foldl_append, List.foldl_map]
  rfl

theorem isOutput_roleCalls (role output : Bytes) (inputs : List Bytes) :
    (roleCalls role inputs output).countP isOutput = 1 ∧
      (roleCalls role inputs output).countP isFinalize = 0 := by
  have hnone : ∀ kind : WitnessCall → Bool, (∀ data, ¬kind (.input data)) →
      (inputs.map .input).countP kind = 0 := by
    intro kind hkind
    rw [List.countP_eq_zero]
    intro c hc
    obtain ⟨data, -, rfl⟩ := List.mem_map.1 hc
    exact hkind data
  constructor
  · rw [roleCalls, List.countP_append, hnone isOutput (by simp [isOutput, outputData])]
    rfl
  · rw [roleCalls, List.countP_append, hnone isFinalize (by simp [isFinalize])]
    rfl

/-- The roles of the pipeline keep to one output. -/
theorem singleOutput_role (tag role output : Bytes) (inputs : List Bytes) :
    SingleOutput R C (witnessInit .fresh tag) (roleCalls role inputs output ++ [.finalize]) := by
  obtain ⟨houtput, hfinal⟩ := isOutput_roleCalls role output inputs
  refine singleOutput_of_together tag (together_of_countP_le ?_) (together_of_countP_le ?_)
    fun before after hcalls => .inl ?_
  · rw [List.countP_append, houtput]
    exact Nat.le_refl 1
  · rw [List.countP_append, hfinal]
    exact Nat.le_refl 1
  · have hbefore : before = roleCalls role inputs output := by
      rcases List.eq_nil_or_concat after with rfl | ⟨after, c, rfl⟩
      · exact (List.append_cancel_right hcalls).symm
      · rw [List.concat_eq_append, ← List.cons_append, ← List.append_assoc] at hcalls
        rw [(List.append_inj' hcalls rfl).1, List.countP_append, List.countP_cons_of_pos rfl]
          at hfinal
        omega
    rw [hbefore]
    exact List.countP_pos_iff.1 (by omega)

end DeSearch
