import Marigold.Consensus.TxInIsolation
import Marigold.Core.TxCodes

/-!
# Signature hashes

`hashing/sighash.rs` and `hashing/sighash_type.rs`. The preimage of a signature hash holds hashes of the parts of
the transaction that its type promises to bind, and the zero hash for the others. The hashes that are the same for
all inputs of a transaction are computed once and reused.
-/

namespace Marigold.Script

open Lib Transaction

/-! ## Hash types -/

def sigHashAll : UInt8 := 0b00000001

def sigHashNone : UInt8 := 0b00000010

def sigHashSingle : UInt8 := 0b00000100

def sigHashAnyOneCanPay : UInt8 := 0b10000000

/-- The bits that say which outputs are signed. -/
def sigHashMask : UInt8 := 0b00000111

def allowedSigHashTypesValues : List UInt8 :=
  [sigHashAll, sigHashNone, sigHashSingle, sigHashAll ||| sigHashAnyOneCanPay, sigHashNone ||| sigHashAnyOneCanPay,
    sigHashSingle ||| sigHashAnyOneCanPay]

/-- A type that `from_u8` lets pass. -/
structure SigHashType where
  val : UInt8
  allowed : val ∈ allowedSigHashTypesValues
  deriving DecidableEq

namespace SigHashType

def fromU8 (val : UInt8) : Option SigHashType :=
  if allowed : val ∈ allowedSigHashTypesValues then some ⟨val, allowed⟩ else none

variable (t : SigHashType)

def isSighashAll : Bool := t.val &&& sigHashMask == sigHashAll

def isSighashNone : Bool := t.val &&& sigHashMask == sigHashNone

def isSighashSingle : Bool := t.val &&& sigHashMask == sigHashSingle

def isSighashAnyoneCanPay : Bool := t.val &&& sigHashAnyOneCanPay == sigHashAnyOneCanPay

/-- Each type is of one of the three kinds. -/
theorem kinds : (t.isSighashAll = true ∧ t.isSighashNone = false ∧ t.isSighashSingle = false) ∨
    (t.isSighashAll = false ∧ t.isSighashNone = true ∧ t.isSighashSingle = false) ∨
    (t.isSighashAll = false ∧ t.isSighashNone = false ∧ t.isSighashSingle = true) := by
  obtain ⟨val, allowed⟩ := t
  simp only [allowedSigHashTypesValues, List.mem_cons, List.not_mem_nil, or_false] at allowed
  simp only [isSighashAll, isSighashNone, isSighashSingle]
  rcases allowed with rfl | rfl | rfl | rfl | rfl | rfl <;> decide

end SigHashType

/-! ## Reused values -/

/-- What is the same for all inputs of a transaction. -/
structure SigHashReusedValues where
  previousOutputsHash : Option Hash
  sequencesHash : Option Hash
  sigOpCountsHash : Option Hash
  outputsHash : Option Hash
  payloadHash : Option Hash

namespace SigHashReusedValues

def new : SigHashReusedValues := ⟨none, none, none, none, none⟩

end SigHashReusedValues

/-- A computation that may reuse values. -/
abbrev Reusing (α : Type) := StateM SigHashReusedValues α

/-- The value of a cell; it is stored if it is not there. -/
def reuse (cell : SigHashReusedValues → Option Hash)
    (store : SigHashReusedValues → Hash → SigHashReusedValues) (hash : Hash) : Reusing Hash := fun reused =>
  match cell reused with
  | some known => (known, reused)
  | none => (hash, store reused hash)

section Hashing

variable (H : Bytes → Hash) (tx : Transaction) (t : SigHashType)

def previousOutputsBytes : Bytes := tx.inputs.flatMap fun input => writeOutpoint input.previousOutpoint

def previousOutputsHash : Reusing Hash :=
  if t.isSighashAnyoneCanPay then pure Hash.zero
  else reuse (·.previousOutputsHash) (fun reused hash => { reused with previousOutputsHash := some hash })
    (H (previousOutputsBytes tx))

def sequencesBytes : Bytes := tx.inputs.flatMap fun input => u64LE input.sequence

def sequencesHash : Reusing Hash :=
  if t.isSighashSingle || t.isSighashAnyoneCanPay || t.isSighashNone then pure Hash.zero
  else reuse (·.sequencesHash) (fun reused hash => { reused with sequencesHash := some hash }) (H (sequencesBytes tx))

/-- `compute_commit.sig_op_count().unwrap_or(0)`. -/
def sigOpCount : ComputeCommit → UInt8
  | .sigopCount n => n
  | .computeBudget _ => 0

def sigOpCountsBytes : Bytes := tx.inputs.map fun input => sigOpCount input.computeCommit

def sigOpCountsHash : Reusing Hash :=
  if t.isSighashAnyoneCanPay then pure Hash.zero
  else reuse (·.sigOpCountsHash) (fun reused hash => { reused with sigOpCountsHash := some hash })
    (H (sigOpCountsBytes tx))

/-- Only a version 0 transaction has counts. -/
def sigOpCountsPart : Reusing Bytes :=
  if tx.version < 1 then do return (← sigOpCountsHash H tx t).asBytes else pure []

def payloadHash : Reusing Hash :=
  if tx.subnetworkId.isNative && tx.payload.isEmpty then pure Hash.zero
  else reuse (·.payloadHash) (fun reused hash => { reused with payloadHash := some hash })
    (H (writeVarBytes tx.payload))

def outputsBytes : Bytes := tx.outputs.flatMap (writeOutput tx.version)

/-- A single output is hashed anew; without it the hash is zero. -/
def outputsHash (inputIndex : Nat) : Reusing Hash :=
  if t.isSighashNone then pure Hash.zero
  else if t.isSighashSingle then
    match tx.outputs[inputIndex]? with
    | none => pure Hash.zero
    | some output => pure (H (writeOutput tx.version output))
  else reuse (·.outputsHash) (fun reused hash => { reused with outputsHash := some hash }) (H (outputsBytes tx))

end Hashing

/-- An input of a transaction with the entry that it spends. -/
structure PopulatedInput where
  tx : Transaction
  index : Nat
  input : TransactionInput
  entry : UtxoEntry
  inside : tx.inputs[index]? = some input

/-- What `calc_schnorr_signature_hash` hashes. -/
def signaturePreimage (H : Bytes → Hash) (p : PopulatedInput) (t : SigHashType) : Reusing Bytes := do
  let tx := p.tx
  let previousOutputs ← previousOutputsHash H tx t
  let sequences ← sequencesHash H tx t
  let sigOpCounts ← sigOpCountsPart H tx t
  let outputs ← outputsHash H tx t p.index
  let payload ← payloadHash H tx
  return u16LE tx.version ++ previousOutputs.asBytes ++ sequences.asBytes ++ sigOpCounts ++
    writeOutpoint p.input.previousOutpoint ++ writeScriptPublicKey p.entry.scriptPublicKey ++ u64LE p.entry.amount ++
    u64LE p.input.sequence ++ (if tx.version < 1 then [sigOpCount p.input.computeCommit] else []) ++
    outputs.asBytes ++ u64LE tx.lockTime ++ tx.subnetworkId.asBytes ++ u64LE tx.gas ++ payload.asBytes ++ [t.val]

def calcSchnorrSignatureHash (H : Bytes → Hash) (p : PopulatedInput) (t : SigHashType) : Reusing Hash := do
  return H (← signaturePreimage H p t)

/-- The hash for ECDSA signatures is a hash of the one for Schnorr signatures. -/
def calcEcdsaSignatureHash (H HE : Bytes → Hash) (p : PopulatedInput) (t : SigHashType) : Reusing Hash := do
  return HE (← calcSchnorrSignatureHash H p t).asBytes

/-! ## Without reuse -/

section Values

variable (H : Bytes → Hash) (tx : Transaction) (t : SigHashType)

def previousOutputsValue : Hash := if t.isSighashAnyoneCanPay then Hash.zero else H (previousOutputsBytes tx)

def sequencesValue : Hash :=
  if t.isSighashSingle || t.isSighashAnyoneCanPay || t.isSighashNone then Hash.zero else H (sequencesBytes tx)

def sigOpCountsValue : Hash := if t.isSighashAnyoneCanPay then Hash.zero else H (sigOpCountsBytes tx)

def payloadValue : Hash :=
  if tx.subnetworkId.isNative && tx.payload.isEmpty then Hash.zero else H (writeVarBytes tx.payload)

def outputsValue (inputIndex : Nat) : Hash :=
  if t.isSighashNone then Hash.zero
  else if t.isSighashSingle then (tx.outputs[inputIndex]?).elim Hash.zero fun output => H (writeOutput tx.version output)
  else H (outputsBytes tx)

/-- What is stored is what would be computed. -/
structure ReusedOf (reused : SigHashReusedValues) : Prop where
  previousOutputs : ∀ h, reused.previousOutputsHash = some h → h = H (previousOutputsBytes tx)
  sequences : ∀ h, reused.sequencesHash = some h → h = H (sequencesBytes tx)
  sigOpCounts : ∀ h, reused.sigOpCountsHash = some h → h = H (sigOpCountsBytes tx)
  outputs : ∀ h, reused.outputsHash = some h → h = H (outputsBytes tx)
  payload : ∀ h, reused.payloadHash = some h → h = H (writeVarBytes tx.payload)

/-- Whatever was computed before for inputs of the transaction, this is the result. -/
def Computes {α : Type} (c : Reusing α) (a : α) : Prop :=
  ∀ reused, ReusedOf H tx reused → (c reused).1 = a ∧ ReusedOf H tx (c reused).2

end Values

variable {H : Bytes → Hash} {tx : Transaction} {t : SigHashType}

theorem reusedOf_new : ReusedOf H tx .new := by
  refine ⟨?_, ?_, ?_, ?_, ?_⟩ <;> exact fun _ none => nomatch none

namespace Computes

variable {α β : Type} {a : α} {b : β} {c : Reusing α}

theorem pure (a : α) : Computes H tx (Pure.pure a) a := fun _ of => ⟨rfl, of⟩

theorem bind {f : α → Reusing β} (first : Computes H tx c a) (second : Computes H tx (f a) b) :
    Computes H tx (c >>= f) b := by
  intro reused of
  obtain ⟨value, later⟩ := first reused of
  change (f (c reused).1 (c reused).2).1 = b ∧ ReusedOf H tx (f (c reused).1 (c reused).2).2
  rw [value]
  exact second _ later

theorem ite {p : Prop} [Decidable p] {c' : Reusing α} {a' : α} (first : Computes H tx c a)
    (second : Computes H tx c' a') : Computes H tx (if p then c else c') (if p then a else a') := by
  split
  · exact first
  · exact second

theorem reuse {cell : SigHashReusedValues → Option Hash} {store : SigHashReusedValues → Hash → SigHashReusedValues}
    {hash : Hash} (known : ∀ reused, ReusedOf H tx reused → ∀ h, cell reused = some h → h = hash)
    (stored : ∀ reused, ReusedOf H tx reused → ReusedOf H tx (store reused hash)) :
    Computes H tx (Script.reuse cell store hash) hash := by
  intro reused of
  rw [Script.reuse]
  split
  next h there => exact ⟨known reused of h there, of⟩
  · exact ⟨rfl, stored reused of⟩

end Computes

theorem computes_previousOutputsHash : Computes H tx (previousOutputsHash H tx t) (previousOutputsValue H tx t) := by
  refine Computes.ite (.pure _) (.reuse (fun _ of => of.previousOutputs) fun reused of => ?_)
  exact ⟨fun _ same => (Option.some.inj same).symm, of.sequences, of.sigOpCounts, of.outputs, of.payload⟩

theorem computes_sequencesHash : Computes H tx (sequencesHash H tx t) (sequencesValue H tx t) := by
  refine Computes.ite (.pure _) (.reuse (fun _ of => of.sequences) fun reused of => ?_)
  exact ⟨of.previousOutputs, fun _ same => (Option.some.inj same).symm, of.sigOpCounts, of.outputs, of.payload⟩

theorem computes_sigOpCountsHash : Computes H tx (sigOpCountsHash H tx t) (sigOpCountsValue H tx t) := by
  refine Computes.ite (.pure _) (.reuse (fun _ of => of.sigOpCounts) fun reused of => ?_)
  exact ⟨of.previousOutputs, of.sequences, fun _ same => (Option.some.inj same).symm, of.outputs, of.payload⟩

theorem computes_payloadHash : Computes H tx (payloadHash H tx) (payloadValue H tx) := by
  refine Computes.ite (.pure _) (.reuse (fun _ of => of.payload) fun reused of => ?_)
  exact ⟨of.previousOutputs, of.sequences, of.sigOpCounts, of.outputs, fun _ same => (Option.some.inj same).symm⟩

theorem computes_outputsHash (inputIndex : Nat) :
    Computes H tx (outputsHash H tx t inputIndex) (outputsValue H tx t inputIndex) := by
  refine Computes.ite (.pure _) (Computes.ite ?_ (.reuse (fun _ of => of.outputs) fun reused of => ?_))
  · cases tx.outputs[inputIndex]? <;> exact .pure _
  · exact ⟨of.previousOutputs, of.sequences, of.sigOpCounts, fun _ same => (Option.some.inj same).symm, of.payload⟩

/-- The preimage as it is without reuse. -/
def preimageValue (H : Bytes → Hash) (p : PopulatedInput) (t : SigHashType) : Bytes :=
  u16LE p.tx.version ++ (previousOutputsValue H p.tx t).asBytes ++ (sequencesValue H p.tx t).asBytes ++
    (if p.tx.version < 1 then (sigOpCountsValue H p.tx t).asBytes else []) ++
    writeOutpoint p.input.previousOutpoint ++ writeScriptPublicKey p.entry.scriptPublicKey ++ u64LE p.entry.amount ++
    u64LE p.input.sequence ++ (if p.tx.version < 1 then [sigOpCount p.input.computeCommit] else []) ++
    (outputsValue H p.tx t p.index).asBytes ++ u64LE p.tx.lockTime ++ p.tx.subnetworkId.asBytes ++ u64LE p.tx.gas ++
    (payloadValue H p.tx).asBytes ++ [t.val]

theorem computes_signaturePreimage (p : PopulatedInput) (t : SigHashType) :
    Computes H p.tx (signaturePreimage H p t) (preimageValue H p t) := by
  have counts : Computes H p.tx (sigOpCountsPart H p.tx t)
      (if p.tx.version < 1 then (sigOpCountsValue H p.tx t).asBytes else []) :=
    Computes.ite (Computes.bind computes_sigOpCountsHash (.pure _)) (.pure _)
  refine Computes.bind computes_previousOutputsHash (Computes.bind computes_sequencesHash ?_)
  refine Computes.bind counts ?_
  exact Computes.bind (computes_outputsHash p.index) (Computes.bind computes_payloadHash (.pure _))

theorem computes_calcSchnorrSignatureHash (p : PopulatedInput) (t : SigHashType) :
    Computes H p.tx (calcSchnorrSignatureHash H p t) (H (preimageValue H p t)) :=
  (computes_signaturePreimage p t).bind (.pure (H (preimageValue H p t)))

theorem computes_calcEcdsaSignatureHash (HE : Bytes → Hash) (p : PopulatedInput) (t : SigHashType) :
    Computes H p.tx (calcEcdsaSignatureHash H HE p t) (HE (H (preimageValue H p t)).asBytes) :=
  (computes_calcSchnorrSignatureHash p t).bind (.pure (HE (H (preimageValue H p t)).asBytes))

/-- The values left by earlier calls for inputs of the same transaction. -/
inductive Used (H : Bytes → Hash) (tx : Transaction) : SigHashReusedValues → Prop
  | new : Used H tx .new
  | step {reused : SigHashReusedValues} (p : PopulatedInput) (same : p.tx = tx) (t : SigHashType)
      (before : Used H tx reused) : Used H tx (calcSchnorrSignatureHash H p t reused).2

theorem reusedOf_of_used {reused : SigHashReusedValues} (used : Used H tx reused) : ReusedOf H tx reused := by
  induction used with
  | new => exact reusedOf_new
  | step p same t _ ih =>
    subst same
    exact (computes_calcSchnorrSignatureHash p t _ ih).2

/-! ## What is bound -/

namespace PopulatedInput

/-- What is hashed on the way to the preimage. -/
def innerBytes (p : PopulatedInput) : List Bytes :=
  [previousOutputsBytes p.tx, sequencesBytes p.tx, sigOpCountsBytes p.tx, outputsBytes p.tx, writeVarBytes p.tx.payload] ++
    (p.tx.outputs[p.index]?.map (writeOutput p.tx.version)).toList

/-- Lengths are `usize`s. -/
structure Sized (p : PopulatedInput) : Prop where
  payload : Transaction.Countable p.tx.payload
  spent : Transaction.Countable p.entry.scriptPublicKey.script
  outputs : ∀ output ∈ p.tx.outputs, Transaction.Countable output.scriptPublicKey.script

end PopulatedInput

/-- What two signed inputs have in common whose hashes are the same. -/
structure Bound (a b : PopulatedInput) (ta tb : SigHashType) : Prop where
  hashType : ta = tb
  version : a.tx.version = b.tx.version
  outpoint : a.input.previousOutpoint = b.input.previousOutpoint
  script : a.entry.scriptPublicKey = b.entry.scriptPublicKey
  amount : a.entry.amount = b.entry.amount
  sequence : a.input.sequence = b.input.sequence
  lockTime : a.tx.lockTime = b.tx.lockTime
  subnetworkId : a.tx.subnetworkId = b.tx.subnetworkId
  gas : a.tx.gas = b.tx.gas
  payload : a.tx.payload = b.tx.payload
  outputs : ta.isSighashAll = true → a.tx.outputs = b.tx.outputs
  output : ta.isSighashSingle = true → a.tx.outputs[a.index]? = b.tx.outputs[b.index]?
  outpoints : ta.isSighashAnyoneCanPay = false →
    a.tx.inputs.map TransactionInput.previousOutpoint = b.tx.inputs.map TransactionInput.previousOutpoint
  sequences : ta.isSighashAnyoneCanPay = false → ta.isSighashAll = true →
    a.tx.inputs.map TransactionInput.sequence = b.tx.inputs.map TransactionInput.sequence

variable {a b : PopulatedInput} {ta tb : SigHashType}

theorem delimits_subnetworkId : Delimits (fun _ => True) SubnetworkId.asBytes := by
  refine .fixed (fun id => beBytes_length ..) fun x y same => ?_
  have read := congrArg readBE same
  have bits : (256 : Nat) ^ 20 = 2 ^ 160 := (Nat.pow_mul 2 8 20).symm
  rw [SubnetworkId.asBytes, SubnetworkId.asBytes, readBE_beBytes, readBE_beBytes, bits, Nat.mod_eq_of_lt x.isLt,
    Nat.mod_eq_of_lt y.isLt] at read
  exact BitVec.eq_of_toNat_eq read

/-- The fields of the preimage, with hashes for the parts that are hashed. -/
structure Fields (H : Bytes → Hash) (a b : PopulatedInput) (ta tb : SigHashType) : Prop where
  hashType : ta = tb
  version : a.tx.version = b.tx.version
  outpoint : a.input.previousOutpoint = b.input.previousOutpoint
  script : a.entry.scriptPublicKey = b.entry.scriptPublicKey
  amount : a.entry.amount = b.entry.amount
  sequence : a.input.sequence = b.input.sequence
  lockTime : a.tx.lockTime = b.tx.lockTime
  subnetworkId : a.tx.subnetworkId = b.tx.subnetworkId
  gas : a.tx.gas = b.tx.gas
  previousOutputs : previousOutputsValue H a.tx ta = previousOutputsValue H b.tx tb
  sequences : sequencesValue H a.tx ta = sequencesValue H b.tx tb
  outputs : outputsValue H a.tx ta a.index = outputsValue H b.tx tb b.index
  payload : payloadValue H a.tx = payloadValue H b.tx

theorem fields_of_preimage (sizedA : a.Sized) (sizedB : b.Sized)
    (same : preimageValue H a ta = preimageValue H b tb) : Fields H a b ta tb := by
  simp only [preimageValue, List.append_assoc] at same
  obtain ⟨version, same₁⟩ := delimits_u16 trivial trivial same
  obtain ⟨previousOutputs, same₂⟩ := delimits_hash trivial trivial same₁
  obtain ⟨sequences, same₃⟩ := delimits_hash trivial trivial same₂
  -- the version is the same, so the counts are in both or in neither
  have counts : ∀ {x y : Bytes}, (if a.tx.version < 1 then (sigOpCountsValue H a.tx ta).asBytes else []) ++ x =
      (if b.tx.version < 1 then (sigOpCountsValue H b.tx tb).asBytes else []) ++ y → x = y := by
    intro x y rest
    rw [version] at rest
    split at rest
    · exact (delimits_hash trivial trivial rest).2
    · exact rest
  have count : ∀ {x y : Bytes}, (if a.tx.version < 1 then [sigOpCount a.input.computeCommit] else []) ++ x =
      (if b.tx.version < 1 then [sigOpCount b.input.computeCommit] else []) ++ y → x = y := by
    intro x y rest
    rw [version] at rest
    split at rest
    · exact (List.cons.inj rest).2
    · exact rest
  obtain ⟨outpoint, same₄⟩ := delimits_outpoint trivial trivial (counts same₃)
  obtain ⟨script, same₅⟩ := delimits_scriptPublicKey sizedA.spent sizedB.spent same₄
  obtain ⟨amount, same₆⟩ := delimits_u64 trivial trivial same₅
  obtain ⟨sequence, same₇⟩ := delimits_u64 trivial trivial same₆
  obtain ⟨outputs, same₈⟩ := delimits_hash trivial trivial (count same₇)
  obtain ⟨lockTime, same₉⟩ := delimits_u64 trivial trivial same₈
  obtain ⟨subnetworkId, same₁₀⟩ := delimits_subnetworkId trivial trivial same₉
  obtain ⟨gas, same₁₁⟩ := delimits_u64 trivial trivial same₁₀
  obtain ⟨payload, same₁₂⟩ := delimits_hash trivial trivial same₁₁
  have hashType : ta = tb := by
    cases ta
    cases tb
    cases same₁₂
    rfl
  exact ⟨hashType, version, outpoint, script, amount, sequence, lockTime, subnetworkId, gas, previousOutputs,
    sequences, outputs, payload⟩

/-- The inner hashes of the two do not collide, and none of them is the zero hash. -/
structure Collisionless (H : Bytes → Hash) (a b : PopulatedInput) : Prop where
  injective : ∀ x ∈ a.innerBytes, ∀ y ∈ b.innerBytes, H x = H y → x = y
  left : ∀ x ∈ a.innerBytes, H x ≠ Hash.zero
  right : ∀ y ∈ b.innerBytes, H y ≠ Hash.zero

namespace Fields

section

variable (fields : Fields H a b ta tb) (free : Collisionless H a b)

include fields free

theorem outpoints_eq (fixed : ta.isSighashAnyoneCanPay = false) :
    a.tx.inputs.map TransactionInput.previousOutpoint = b.tx.inputs.map TransactionInput.previousOutpoint := by
  have hashes := fields.previousOutputs
  rw [← fields.hashType, previousOutputsValue, previousOutputsValue, fixed, if_neg Bool.false_ne_true,
    if_neg Bool.false_ne_true] at hashes
  have bytes := free.injective _ (by simp [PopulatedInput.innerBytes]) _ (by simp [PopulatedInput.innerBytes]) hashes
  rw [previousOutputsBytes, previousOutputsBytes, ← List.flatMap_map (f := TransactionInput.previousOutpoint),
    ← List.flatMap_map (f := TransactionInput.previousOutpoint)] at bytes
  refine delimits_outpoint.flatMap (fun outpoint empty => ?_) (fun _ _ => trivial) (fun _ _ => trivial) bytes
  have length := congrArg List.length empty
  simp [writeOutpoint] at length

theorem sequences_eq (fixed : ta.isSighashAnyoneCanPay = false) (all : ta.isSighashAll = true) :
    a.tx.inputs.map TransactionInput.sequence = b.tx.inputs.map TransactionInput.sequence := by
  have kinds := ta.kinds
  have hashes := fields.sequences
  have neither : (ta.isSighashSingle || ta.isSighashAnyoneCanPay || ta.isSighashNone) = false := by
    rw [fixed]
    grind
  rw [← fields.hashType, sequencesValue, sequencesValue, neither, if_neg Bool.false_ne_true,
    if_neg Bool.false_ne_true] at hashes
  have bytes := free.injective _ (by simp [PopulatedInput.innerBytes]) _ (by simp [PopulatedInput.innerBytes]) hashes
  rw [sequencesBytes, sequencesBytes, ← List.flatMap_map (f := TransactionInput.sequence),
    ← List.flatMap_map (f := TransactionInput.sequence)] at bytes
  refine delimits_u64.flatMap (fun sequence empty => ?_) (fun _ _ => trivial) (fun _ _ => trivial) bytes
  have length := congrArg List.length empty
  simp at length

section

variable (codedA : ∀ output ∈ a.tx.outputs, OutputCoded a.tx.version output)
  (codedB : ∀ output ∈ b.tx.outputs, OutputCoded b.tx.version output)

include codedA codedB

theorem outputs_eq (all : ta.isSighashAll = true) : a.tx.outputs = b.tx.outputs := by
  have none : ta.isSighashNone = false := by
    have kinds := ta.kinds
    grind
  have single : ta.isSighashSingle = false := by
    have kinds := ta.kinds
    grind
  have hashes := fields.outputs
  simp only [← fields.hashType, outputsValue, none, single, Bool.false_eq_true, if_false] at hashes
  have bytes := free.injective _ (by simp [PopulatedInput.innerBytes]) _ (by simp [PopulatedInput.innerBytes]) hashes
  rw [outputsBytes, outputsBytes, ← fields.version] at bytes
  exact (delimits_output a.tx.version).flatMap (writeOutput_ne_nil _) codedA (fields.version ▸ codedB) bytes

theorem output_eq (single : ta.isSighashSingle = true) : a.tx.outputs[a.index]? = b.tx.outputs[b.index]? := by
  have none : ta.isSighashNone = false := by
    have kinds := ta.kinds
    grind
  have hashes := fields.outputs
  simp only [← fields.hashType, outputsValue, none, single, Bool.false_eq_true, if_false, if_true] at hashes
  cases foundA : a.tx.outputs[a.index]? with
  | none =>
    cases foundB : b.tx.outputs[b.index]? with
    | none => rfl
    | some output =>
      rw [foundA, foundB] at hashes
      exact absurd hashes.symm (free.right _ (by simp [PopulatedInput.innerBytes, foundB]))
  | some output =>
    cases foundB : b.tx.outputs[b.index]? with
    | none =>
      rw [foundA, foundB] at hashes
      exact absurd hashes (free.left _ (by simp [PopulatedInput.innerBytes, foundA]))
    | some other =>
      rw [foundA, foundB] at hashes
      have bytes := free.injective _ (by simp [PopulatedInput.innerBytes, foundA]) _
        (by simp [PopulatedInput.innerBytes, foundB]) hashes
      have coded := codedB other (List.mem_of_getElem? foundB)
      rw [← fields.version] at bytes coded
      rw [(delimits_output a.tx.version).inj (codedA output (List.mem_of_getElem? foundA)) coded bytes]

end

theorem payload_eq (sizedA : Transaction.Countable a.tx.payload) (sizedB : Transaction.Countable b.tx.payload) :
    a.tx.payload = b.tx.payload := by
  have hashes := fields.payload
  have inA : writeVarBytes a.tx.payload ∈ a.innerBytes := by simp [PopulatedInput.innerBytes]
  have inB : writeVarBytes b.tx.payload ∈ b.innerBytes := by simp [PopulatedInput.innerBytes]
  rw [payloadValue, payloadValue, fields.subnetworkId] at hashes
  -- the hash is zero exactly for the empty payload of a native transaction
  split at hashes
  next emptyA =>
    split at hashes
    next emptyB =>
      simp only [Bool.and_eq_true, List.isEmpty_iff] at emptyA emptyB
      rw [emptyA.2, emptyB.2]
    · exact absurd hashes.symm (free.right _ inB)
  · split at hashes
    · exact absurd hashes (free.left _ inA)
    · exact delimits_varBytes.inj sizedA sizedB (free.injective _ inA _ inB hashes)

end

end Fields

open Consensus in
/-- Whatever was hashed before, the preimage is the one without reuse; and two inputs of valid transactions with the
same preimage have everything in common that their type promises. -/
theorem signaturePreimage_binds {V V' : TransactionValidator} {pov pov' : UInt64} {reused reused' : SigHashReusedValues}
    (usedA : Used H a.tx reused) (usedB : Used H b.tx reused') (validA : validateTxInIsolation V a.tx pov = .ok ())
    (validB : validateTxInIsolation V' b.tx pov' = .ok ()) (sizedA : a.Sized) (sizedB : b.Sized)
    (free : Collisionless H a b) :
    (signaturePreimage H a ta reused).1 = (signaturePreimage H a ta .new).1 ∧
      (calcSchnorrSignatureHash H a ta reused).1 = (calcSchnorrSignatureHash H a ta .new).1 ∧
      ((signaturePreimage H a ta reused).1 = (signaturePreimage H b tb reused').1 → Bound a b ta tb) := by
  have valueA := (computes_signaturePreimage a ta reused (reusedOf_of_used usedA)).1
  have valueNew := (computes_signaturePreimage a ta .new (reusedOf_new (H := H))).1
  have valueB := (computes_signaturePreimage b tb reused' (reusedOf_of_used usedB)).1
  refine ⟨valueA.trans valueNew.symm, ?_, fun same => ?_⟩
  · change H (signaturePreimage H a ta reused).1 = H (signaturePreimage H a ta .new).1
    rw [valueA, valueNew]
  · rw [valueA, valueB] at same
    have fields := fields_of_preimage sizedA sizedB same
    have coded : ∀ {V : TransactionValidator} {pov : UInt64} {p : PopulatedInput},
        validateTxInIsolation V p.tx pov = .ok () → p.Sized →
          ∀ output ∈ p.tx.outputs, OutputCoded p.tx.version output := by
      intro V pov p valid sized output member
      refine ⟨sized.outputs output member, fun old => ?_⟩
      have zero : p.tx.version = 0 := by
        rw [ge_iff_le, UInt16.le_iff_toNat_le] at old
        exact UInt16.toNat_inj.mp (Nat.lt_one_iff.mp (Nat.not_le.mp old))
      exact (validateTxInIsolation_ok valid).covenants zero output member
    exact ⟨fields.hashType, fields.version, fields.outpoint, fields.script, fields.amount, fields.sequence,
      fields.lockTime, fields.subnetworkId, fields.gas, fields.payload_eq free sizedA.payload sizedB.payload,
      fields.outputs_eq free (coded validA sizedA) (coded validB sizedB),
      fields.output_eq free (coded validA sizedA) (coded validB sizedB), fields.outpoints_eq free,
      fields.sequences_eq free⟩

namespace Sample

theorem ten_numbered : 10 ≤ 2 ^ 32 := by decide

def validator : Consensus.TransactionValidator where
  maxTxInputs := 10
  maxTxOutputs := 10
  outputsNumbered := ten_numbered
  maxSignatureScriptLen := 10
  maxScriptPublicKeyLen := 10
  coinbasePayloadScriptPublicKeyMaxLen := 10
  coinbaseMaturity := 10
  ghostdagK := 10
  wideLanesActivation := 10
  anchorPayload _ := .ok ()
  storageMass _ _ := some 0
  covenantsValid _ _ := true
  scriptValid _ _ _ _ := true

def input : TransactionInput := ⟨⟨1, 0⟩, [], 0, .computeBudget 0⟩

/-- A transaction that pays the given amount. -/
def paying (value : UInt64) : PopulatedInput where
  tx := ⟨1, [input], [⟨value, ⟨0, [1]⟩, some ⟨0, 5⟩⟩], 0, SubnetworkId.native, 0, [], 0⟩
  index := 0
  input := input
  entry := ⟨10, ⟨0, [2]⟩, 0, false, some 5⟩
  inside := rfl

def none : SigHashType := ⟨sigHashNone, by decide⟩

def hash (bs : Bytes) : Hash := BitVec.ofNat 256 (readLE bs * 257 + bs.length + 1)

theorem sized (value : UInt64) : (paying value).Sized := by
  refine ⟨by simp [Transaction.Countable, paying], by simp [Transaction.Countable, paying], fun output member => ?_⟩
  cases List.mem_singleton.mp member
  simp [Transaction.Countable]

end Sample

open Sample Consensus in
/-- A signature that leaves the outputs open is one for both amounts. -/
theorem signaturePreimage_binds_none :
    (signaturePreimage hash (paying 1) none .new).1 = (signaturePreimage hash (paying 2) none .new).1 ∧
      Bound (paying 1) (paying 2) none none := by
  have same : (signaturePreimage hash (paying 1) none .new).1 =
      (signaturePreimage hash (paying 2) none .new).1 := by decide +kernel
  have validA : validateTxInIsolation validator (paying 1).tx 0 = .ok () := by decide +kernel
  have validB : validateTxInIsolation validator (paying 2).tx 0 = .ok () := by decide +kernel
  have free : Collisionless hash (paying 1) (paying 2) :=
    ⟨by decide +kernel, by decide +kernel, by decide +kernel⟩
  exact ⟨same, (signaturePreimage_binds .new .new validA validB (sized 1) (sized 2) free).2.2 same⟩

end Marigold.Script
