import Marigold.Core.Hash

/-!
# Transactions

The data of `consensus/core/src/tx.rs` and the transaction id of `hashing/tx.rs`. The id leaves out
signature scripts, compute commitments and the storage mass.
-/

namespace Marigold

open Lib

/-! ## Subnetworks -/

/-- Twenty bytes, most significant first. -/
abbrev SubnetworkId := BitVec 160

namespace SubnetworkId

variable (id : SubnetworkId)

def asBytes : Bytes := beBytes 20 id.toNat

def fromByte (b : UInt8) : SubnetworkId := BitVec.ofNat 160 (b.toNat * 2 ^ 152)

def fromNamespace (a b c d : UInt8) : SubnetworkId :=
  BitVec.ofNat 160 (readBE [a, b, c, d] * 2 ^ 128)

def native : SubnetworkId := fromByte 0

def coinbase : SubnetworkId := fromByte 1

def registry : SubnetworkId := fromByte 2

/-- "POOL". -/
def notePool : SubnetworkId := fromNamespace 0x50 0x4f 0x4f 0x4c

/-- "ANCR". -/
def finalityAnchor : SubnetworkId := fromNamespace 0x41 0x4e 0x43 0x52

def isBuiltin : Bool := id == coinbase || id == registry

def isNative : Bool := id == native

def isBuiltinOrNative : Bool := isNative id || isBuiltin id

end SubnetworkId

/-! ## Transactions and UTXO entries -/

abbrev TransactionId := Hash

structure TransactionOutpoint where
  transactionId : TransactionId
  index : UInt32
  deriving DecidableEq, Repr

structure ScriptPublicKey where
  version : UInt16
  script : Bytes
  deriving DecidableEq, Repr

/-- Version 0 inputs commit to a sigop count, later versions to a compute budget. -/
inductive ComputeCommit where
  | sigopCount (n : UInt8)
  | computeBudget (n : UInt16)
  deriving DecidableEq, Repr

structure TransactionInput where
  previousOutpoint : TransactionOutpoint
  signatureScript : Bytes
  sequence : UInt64
  computeCommit : ComputeCommit
  deriving DecidableEq, Repr

structure CovenantBinding where
  authorizingInput : UInt16
  covenantId : Hash
  deriving DecidableEq, Repr

structure TransactionOutput where
  value : UInt64
  scriptPublicKey : ScriptPublicKey
  covenant : Option CovenantBinding
  deriving DecidableEq, Repr

structure UtxoEntry where
  amount : UInt64
  scriptPublicKey : ScriptPublicKey
  blockDaaScore : UInt64
  isCoinbase : Bool
  covenantId : Option Hash
  deriving DecidableEq, Repr

structure Transaction where
  version : UInt16
  inputs : List TransactionInput
  outputs : List TransactionOutput
  lockTime : UInt64
  subnetworkId : SubnetworkId
  gas : UInt64
  payload : Bytes
  storageMass : UInt64
  deriving DecidableEq, Repr

namespace Transaction

def isCoinbase (tx : Transaction) : Bool := tx.subnetworkId == SubnetworkId.coinbase

/-! ## Transaction ids -/

def writeLen (n : Nat) : Bytes := leBytes 8 n

def writeVarBytes (bs : Bytes) : Bytes := writeLen bs.length ++ bs

def writeOutpoint (o : TransactionOutpoint) : Bytes := o.transactionId.asBytes ++ u32LE o.index

/-- `write_input` under `EXCLUDE_SIGNATURE_SCRIPT | EXCLUDE_MASS_COMMIT`. -/
def writeInputForId (input : TransactionInput) : Bytes :=
  writeOutpoint input.previousOutpoint ++ writeVarBytes [] ++ u64LE input.sequence

def writeCovenant : Option CovenantBinding → Bytes
  | none => [0]
  | some covenant => [1] ++ u16LE covenant.authorizingInput ++ covenant.covenantId.asBytes

def writeOutput (version : UInt16) (output : TransactionOutput) : Bytes :=
  u64LE output.value ++ u16LE output.scriptPublicKey.version ++ writeVarBytes output.scriptPublicKey.script ++
    if version ≥ 1 then writeCovenant output.covenant else []

/-- `write_transaction` with signature scripts and mass commitments excluded; the payload is
replaced by the empty one under `EXCLUDE_PAYLOAD`. -/
def writeTransactionForId (tx : Transaction) (payload : Bytes) : Bytes :=
  u16LE tx.version ++ writeLen tx.inputs.length ++ tx.inputs.flatMap writeInputForId ++
    writeLen tx.outputs.length ++ tx.outputs.flatMap (writeOutput tx.version) ++
    u64LE tx.lockTime ++ tx.subnetworkId.asBytes ++ u64LE tx.gas ++ writeVarBytes payload

variable (H : Hashers)

def idV0 (tx : Transaction) : TransactionId :=
  H.transactionID (writeTransactionForId tx tx.payload)

/-- `ZERO_PAYLOAD_DIGEST`, the digest of the empty payload. -/
def zeroPayloadDigest : Hash := Hash.fromBytes
  [156, 12, 162, 172, 180, 94, 146, 255, 230, 206, 180, 174, 41, 24, 139, 53, 200, 45, 150, 118,
    205, 211, 206, 6, 127, 214, 204, 195, 10, 156, 74, 56]

def payloadDigest (payload : Bytes) : Hash :=
  if payload.isEmpty then zeroPayloadDigest else H.payloadDigest payload

def idV1 (tx : Transaction) : TransactionId :=
  H.transactionV1Id ((payloadDigest H tx.payload).asBytes ++ (H.transactionRest (writeTransactionForId tx [])).asBytes)

def id (tx : Transaction) : TransactionId :=
  if tx.version == 0 then idV0 H tx else idV1 H tx

end Transaction

end Marigold
