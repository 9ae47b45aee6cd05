import Marigold.NotePool.Stateful

/-!
# Transaction validation in isolation

`processes/transaction_validator/tx_validation_in_isolation.rs`: the checks that need neither the
header nor the UTXO set. The signatures in a finality-anchor payload are checked by code outside
this development.
-/

namespace Marigold

/-- The pool op of a note-pool transaction. -/
def Transaction.poolOp (tx : Transaction) : Option NotePool.PoolOp :=
  if tx.subnetworkId = SubnetworkId.notePool then NotePool.PoolOp.decodePayload tx.payload else none

end Marigold

namespace Marigold.Consensus

open Lib NotePool Outcome

/-- Why the payload of a finality-anchor transaction was refused. -/
inductive AnchorPayloadError where
  | unavailable
  | malformed
  | invalid
  deriving DecidableEq, Repr

inductive TxRuleError where
  | noTxInputs
  | malformedNotePoolPayload
  | invalidNotePoolOp (e : PoolOpValidationError)
  | invalidNotePoolOpInContext (e : PoolOpContextError)
  | finalityAnchor (e : AnchorPayloadError)
  | txDuplicateInputs
  | txHasGas (reason : String)
  | unknownTxVersion (version : UInt16)
  | tooManyInputs (count limit : Nat)
  | tooManyOutputs (count limit : Nat)
  | tooBigSignatureScript (i limit : Nat)
  | tooBigScriptPublicKey (i limit : Nat)
  | notFinalized (i : Nat)
  | coinbaseHasInputs (count : Nat)
  | coinbaseTooManyOutputs (count limit : Nat)
  | coinbaseScriptPublicKeyTooLong (i : Nat)
  | coinbaseNonZeroMassCommitment
  | immatureCoinbaseSpend (i : Nat) (outpoint : TransactionOutpoint)
      (daaScore povDaaScore maturity : UInt64)
  | inputAmountOverflow
  | inputAmountTooHigh
  | txOutZero (i : Nat)
  | txOutTooHigh (i : Nat)
  | outputsValueOverflow
  | totalTxOutTooHigh
  | spendTooHigh (spent available : UInt64)
  | sequenceLockConditionsAreNotMet
  | missingTxOutpoints
  | signatureInvalid
  | signatureEmpty
  | massIncomputable
  | wrongMass (calculated committed : UInt64)
  | subnetworksDisabled (id : SubnetworkId)
  | covenantBindingInV0 (i : Nat)
  | sigopCountInV1 (i : Nat) (count : UInt8)
  | computeBudgetInV0 (i : Nat) (budget : UInt16)
  | covenantsError
  deriving DecidableEq, Repr

abbrev TxResult := Except TxRuleError

/-- 210 million coins of 10^8 sompi. -/
def maxSompi : UInt64 := 210000000 * 100000000

/-- `TransactionValidator`, without its caches. -/
structure TransactionValidator where
  maxTxInputs : Nat
  maxTxOutputs : Nat
  /-- Outputs are numbered by `u32`; the configured limits are far below. -/
  outputsNumbered : maxTxOutputs ≤ 2 ^ 32
  maxSignatureScriptLen : Nat
  maxScriptPublicKeyLen : Nat
  coinbasePayloadScriptPublicKeyMaxLen : UInt8
  coinbaseMaturity : UInt64
  ghostdagK : UInt16
  wideLanesActivation : UInt64
  /-- What the checks of the trustees' signatures say about an anchor payload. -/
  anchorPayload : Bytes → Except AnchorPayloadError Unit
  /-- `calc_contextual_masses`. -/
  storageMass : Transaction → List UtxoEntry → Option UInt64
  /-- `CovenantsContext::from_tx` succeeds. -/
  covenantsValid : Transaction → List UtxoEntry → Bool
  /-- The script engine accepts the input with the given index, with the given block as the
  context of sequencing commitments. -/
  scriptValid : Hash → Transaction → List UtxoEntry → Nat → Bool

/-- `ForkActivation::is_active`. -/
def isActive (activation daaScore : UInt64) : Bool := daaScore ≥ activation

section Checks

variable (V : TransactionValidator) (tx : Transaction)

def checkTransactionInputsCount : TxResult Unit :=
  if !tx.isCoinbase && tx.inputs.isEmpty && tx.subnetworkId != SubnetworkId.notePool &&
      tx.subnetworkId != SubnetworkId.finalityAnchor then .error .noTxInputs
  else if tx.inputs.length > V.maxTxInputs then
    .error (.tooManyInputs tx.inputs.length V.maxTxInputs)
  else .ok ()

def checkTransactionSignatureScripts : TxResult Unit :=
  match tx.inputs.findIdx? fun input => input.signatureScript.length > V.maxSignatureScriptLen with
  | some i => .error (.tooBigSignatureScript i V.maxSignatureScriptLen)
  | none => .ok ()

/-- The limit in the error is the one for inputs, as in the source. -/
def checkTransactionOutputsCount : TxResult Unit :=
  if tx.isCoinbase then .ok ()
  else if tx.outputs.length > V.maxTxOutputs then
    .error (.tooManyOutputs tx.outputs.length V.maxTxInputs)
  else .ok ()

def checkTransactionScriptPublicKeys : TxResult Unit :=
  match tx.outputs.findIdx? fun output =>
      output.scriptPublicKey.script.length > V.maxScriptPublicKeyLen with
  | some i => .error (.tooBigScriptPublicKey i V.maxScriptPublicKeyLen)
  | none => .ok ()

def checkCoinbaseInIsolation : TxResult Unit :=
  if !tx.isCoinbase then .ok ()
  else if !tx.inputs.isEmpty then .error (.coinbaseHasInputs tx.inputs.length)
  else if tx.storageMass > 0 then .error .coinbaseNonZeroMassCommitment
  else if tx.outputs.length > V.ghostdagK.toNat + 2 then
    .error (.coinbaseTooManyOutputs tx.outputs.length (V.ghostdagK.toNat + 2))
  else
    match tx.outputs.findIdx? fun output => output.scriptPublicKey.script.length >
        V.coinbasePayloadScriptPublicKeyMaxLen.toNat with
    | some i => .error (.coinbaseScriptPublicKeyTooLong i)
    | none => .ok ()

/-- The loop of `check_transaction_output_value_ranges`, from output `i` on. -/
def checkOutputValues : Nat → UInt64 → List TransactionOutput → TxResult Unit
  | _, _, [] => .ok ()
  | i, total, output :: rest =>
    if output.value = 0 then .error (.txOutZero i)
    else if output.value > maxSompi then .error (.txOutTooHigh i)
    else if total.toNat + output.value.toNat ≥ 2 ^ 64 then .error .outputsValueOverflow
    else if total + output.value > maxSompi then .error .totalTxOutTooHigh
    else checkOutputValues (i + 1) (total + output.value) rest

def checkTransactionOutputValueRanges : TxResult Unit := checkOutputValues 0 0 tx.outputs

def checkDuplicateTransactionInputs : TxResult Unit :=
  if (tx.inputs.map TransactionInput.previousOutpoint).Nodup then .ok ()
  else .error .txDuplicateInputs

/-- Reserved ids: one byte and nineteen zeroes. -/
def isSystemLane (id : SubnetworkId) : Bool := id.asBytes.drop 1 == List.replicate 19 0

def checkGas : TxResult Unit :=
  if tx.gas = 0 then .ok ()
  else if tx.version < 1 then
    .error (.txHasGas "gas is only allowed for Toccata-or-newer tx versions")
  else if !isSystemLane tx.subnetworkId then .ok ()
  else .error (.txHasGas "native / system subnetworks must use zero gas")

def checkTransactionSubnetwork (wideLanes : Bool) : TxResult Unit :=
  let tagLen := if wideLanes then 5 else 4
  let bytes := tx.subnetworkId.asBytes
  if isSystemLane tx.subnetworkId then
    if bytes.head? = some 0 ∨ bytes.head? = some 1 then .ok ()
    else .error (.subnetworksDisabled tx.subnetworkId)
  else if tx.version ≥ 1 ∧ bytes.drop tagLen = List.replicate (20 - tagLen) 0 then .ok ()
  else .error (.subnetworksDisabled tx.subnetworkId)

def checkTransactionVersion : TxResult Unit :=
  if tx.version > 1 then .error (.unknownTxVersion tx.version) else .ok ()

def sigopCountInV1 : Nat → List TransactionInput → TxResult Unit
  | _, [] => .ok ()
  | i, input :: rest =>
    match input.computeCommit with
    | .sigopCount n => .error (.sigopCountInV1 i n)
    | .computeBudget _ => sigopCountInV1 (i + 1) rest

def computeBudgetInV0 : Nat → List TransactionInput → TxResult Unit
  | _, [] => .ok ()
  | i, input :: rest =>
    match input.computeCommit with
    | .sigopCount _ => computeBudgetInV0 (i + 1) rest
    | .computeBudget n => .error (.computeBudgetInV0 i n)

def covenantBindingInV0 : TxResult Unit :=
  match tx.outputs.findIdx? fun output => output.covenant.isSome with
  | some i => .error (.covenantBindingInV0 i)
  | none => .ok ()

def checkTxVersionSpecificFields : TxResult Unit :=
  if tx.version > 0 then sigopCountInV1 0 tx.inputs
  else do
    computeBudgetInV0 0 tx.inputs
    covenantBindingInV0 tx

def checkNotePoolPayload : TxResult Unit :=
  if tx.subnetworkId != SubnetworkId.notePool then .ok ()
  else
    match PoolOp.decodePayload tx.payload with
    | none => .error .malformedNotePoolPayload
    | some op => (validateStateless op).mapError .invalidNotePoolOp

def checkFinalityAnchorPayload : TxResult Unit :=
  if tx.subnetworkId != SubnetworkId.finalityAnchor then .ok ()
  else (V.anchorPayload tx.payload).mapError .finalityAnchor

def validateTxInIsolation (povDaaScore : UInt64) : TxResult Unit := do
  checkTransactionInputsCount V tx
  checkTransactionSignatureScripts V tx
  checkTransactionOutputsCount V tx
  checkTransactionScriptPublicKeys V tx
  checkCoinbaseInIsolation V tx
  checkTransactionOutputValueRanges tx
  checkDuplicateTransactionInputs tx
  checkGas tx
  checkTransactionSubnetwork tx (isActive V.wideLanesActivation povDaaScore)
  checkTransactionVersion tx
  checkTxVersionSpecificFields tx
  checkNotePoolPayload tx
  checkFinalityAnchorPayload V tx

end Checks

/-! ## What acceptance means -/

/-- What isolation guarantees to the rest of the pipeline. -/
structure TxWellFormed (V : TransactionValidator) (tx : Transaction) : Prop where
  funded : tx.inputs = [] → tx.isCoinbase = true ∨ tx.subnetworkId = SubnetworkId.notePool ∨
    tx.subnetworkId = SubnetworkId.finalityAnchor
  outputsCount : tx.isCoinbase = false → tx.outputs.length ≤ V.maxTxOutputs
  coinbase : tx.isCoinbase = true → tx.inputs = [] ∧ tx.outputs.length ≤ V.ghostdagK.toNat + 2
  positive : ∀ output ∈ tx.outputs, 0 < output.value.toNat
  total : (tx.outputs.map fun output => output.value.toNat).sum ≤ maxSompi.toNat
  inputsNodup : (tx.inputs.map TransactionInput.previousOutpoint).Nodup
  version : tx.version ≤ 1
  covenants : tx.version = 0 → ∀ output ∈ tx.outputs, output.covenant = none
  poolOp : tx.subnetworkId = SubnetworkId.notePool → ∃ op, tx.poolOp = some op ∧ op.WellFormed

private theorem checkOutputValues_ok {i : Nat} {total : UInt64} {outputs : List TransactionOutput}
    (within : total.toNat ≤ maxSompi.toNat) (done : checkOutputValues i total outputs = .ok ()) :
    (∀ output ∈ outputs, 0 < output.value.toNat) ∧
      total.toNat + (outputs.map fun output => output.value.toNat).sum ≤ maxSompi.toNat := by
  induction outputs generalizing i total with
  | nil => simpa using within
  | cons output rest ih =>
    unfold checkOutputValues at done
    split_ifs at done with zero high overflow above
    have fits : (total + output.value).toNat = total.toNat + output.value.toNat := by
      rw [UInt64.toNat_add, Nat.mod_eq_of_lt (Nat.not_le.mp overflow)]
    obtain ⟨positive, bounded⟩ := ih (UInt64.le_iff_toNat_le.mp (UInt64.not_lt.mp above)) done
    constructor
    · rw [List.forall_mem_cons]
      refine ⟨Nat.pos_of_ne_zero fun none => zero ?_, positive⟩
      exact UInt64.toNat_inj.mp none
    · rw [fits] at bounded
      rw [List.map_cons, List.sum_cons]
      omega

variable {tx : Transaction} {V : TransactionValidator}

private theorem covenantBindingInV0_ok (done : covenantBindingInV0 tx = .ok ()) :
    ∀ output ∈ tx.outputs, output.covenant = none := by
  unfold covenantBindingInV0 at done
  split at done
  · cases done
  next none => simpa [List.findIdx?_eq_none_iff] using none

private theorem checkTxVersionSpecificFields_ok (done : checkTxVersionSpecificFields tx = .ok ())
    (zero : tx.version = 0) : ∀ output ∈ tx.outputs, output.covenant = none := by
  unfold checkTxVersionSpecificFields at done
  rw [zero, if_neg (by decide)] at done
  obtain ⟨_, _, done⟩ := bind_eq_ok.mp done
  exact covenantBindingInV0_ok done

private theorem checkNotePoolPayload_ok (done : checkNotePoolPayload tx = .ok ())
    (lane : tx.subnetworkId = SubnetworkId.notePool) : ∃ op, tx.poolOp = some op ∧ op.WellFormed := by
  unfold checkNotePoolPayload at done
  rw [if_neg (by simp [lane])] at done
  split at done
  · cases done
  next op decoded =>
    refine ⟨op, by rw [Transaction.poolOp, if_pos lane, decoded], ?_⟩
    apply (validateStateless_ok_iff op).mp
    cases checked : validateStateless op with
    | error e => simp [checked, Except.mapError] at done
    | ok => rfl

private theorem checkTransactionInputsCount_ok (done : checkTransactionInputsCount V tx = .ok ())
    (unfunded : tx.inputs = []) :
    tx.isCoinbase = true ∨ tx.subnetworkId = SubnetworkId.notePool ∨ tx.subnetworkId = SubnetworkId.finalityAnchor := by
  unfold checkTransactionInputsCount at done
  split_ifs at done with refused
  rw [unfunded] at refused
  by_contra other
  simp_all

private theorem checkCoinbaseInIsolation_ok (done : checkCoinbaseInIsolation V tx = .ok ())
    (coinbase : tx.isCoinbase = true) : tx.inputs = [] ∧ tx.outputs.length ≤ V.ghostdagK.toNat + 2 := by
  unfold checkCoinbaseInIsolation at done
  rw [coinbase] at done
  split_ifs at done with _ inputs _ many
  · simp_all
  · exact ⟨by simpa using inputs, Nat.not_lt.mp many⟩

theorem validateTxInIsolation_ok {pov : UInt64} (done : validateTxInIsolation V tx pov = .ok ()) :
    TxWellFormed V tx := by
  unfold validateTxInIsolation at done
  obtain ⟨_, inputs, done⟩ := bind_eq_ok.mp done
  obtain ⟨_, _, done⟩ := bind_eq_ok.mp done
  obtain ⟨_, outputs, done⟩ := bind_eq_ok.mp done
  obtain ⟨_, _, done⟩ := bind_eq_ok.mp done
  obtain ⟨_, coinbase, done⟩ := bind_eq_ok.mp done
  obtain ⟨_, values, done⟩ := bind_eq_ok.mp done
  obtain ⟨_, nodup, done⟩ := bind_eq_ok.mp done
  obtain ⟨_, _, done⟩ := bind_eq_ok.mp done
  obtain ⟨_, _, done⟩ := bind_eq_ok.mp done
  obtain ⟨_, version, done⟩ := bind_eq_ok.mp done
  obtain ⟨_, fields, done⟩ := bind_eq_ok.mp done
  obtain ⟨_, payload, _⟩ := bind_eq_ok.mp done
  have ranges := checkOutputValues_ok (Nat.zero_le _) values
  refine ⟨checkTransactionInputsCount_ok inputs, ?_, checkCoinbaseInIsolation_ok coinbase, ranges.1,
    ?_, ?_, ?_, checkTxVersionSpecificFields_ok fields, checkNotePoolPayload_ok payload⟩
  · intro ordinary
    rw [checkTransactionOutputsCount, ordinary, if_neg Bool.false_ne_true] at outputs
    split_ifs at outputs with many
    exact Nat.not_lt.mp many
  · simpa using ranges.2
  · rw [checkDuplicateTransactionInputs] at nodup
    split_ifs at nodup with distinct
    exact distinct
  · rw [checkTransactionVersion] at version
    split_ifs at version with unknown
    exact UInt16.not_lt.mp unknown

end Marigold.Consensus
