import Marigold.Core.Hash
import Marigold.Lib.Borsh

/-!
# Note pool types

The wire types of `consensus/core/src/notepool/mod.rs`: notes, locks, signed groups and the four
pool operations a transaction's payload can carry.
-/

namespace Marigold.NotePool

open Lib

def poolProtocolVersion : UInt8 := 1

def poolFreshnessWindow : UInt64 := 36000

/-- An x-only public key: 32 bytes, kept like a hash. -/
abbrev PublicKey := Hash

/-- A BIP340 signature: 64 bytes. -/
abbrev Signature := BitVec 512

inductive DenominationTag where
  | d0_01 | d0_1 | d1 | d10 | d100 | d1000 | d10000 | d100000
  deriving DecidableEq, Repr

namespace DenominationTag

def petals : DenominationTag → UInt64
  | d0_01 => 1000000
  | d0_1 => 10000000
  | d1 => 100000000
  | d10 => 1000000000
  | d100 => 10000000000
  | d1000 => 100000000000
  | d10000 => 1000000000000
  | d100000 => 10000000000000

/-- `d as u8`. -/
def toByte : DenominationTag → UInt8
  | d0_01 => 0
  | d0_1 => 1
  | d1 => 2
  | d10 => 3
  | d100 => 4
  | d1000 => 5
  | d10000 => 6
  | d100000 => 7

def tryFrom (b : UInt8) : Option DenominationTag :=
  match b.toNat with
  | 0 => some d0_01
  | 1 => some d0_1
  | 2 => some d1
  | 3 => some d10
  | 4 => some d100
  | 5 => some d1000
  | 6 => some d10000
  | 7 => some d100000
  | _ => none

theorem tryFrom_toByte (d : DenominationTag) : tryFrom d.toByte = some d := by cases d <;> rfl

theorem toByte_of_tryFrom {b : UInt8} {d : DenominationTag} (read : tryFrom b = some d) : d.toByte = b := by
  unfold tryFrom at read
  apply UInt8.toNat_inj.mp
  split at read <;> simp_all <;> subst read <;> rfl

theorem petals_le (d : DenominationTag) : d.petals.toNat ≤ 10 ^ 13 := by cases d <;> decide

theorem petals_pos (d : DenominationTag) : 0 < d.petals.toNat := by cases d <;> decide

end DenominationTag

/-- A note as a payload states it; its serial is derived from the creating transaction. -/
structure NewNote where
  d : DenominationTag
  pk : PublicKey
  deriving DecidableEq, Repr

structure NoteLock where
  refundPk : PublicKey
  untilDaa : UInt64
  deriving DecidableEq, Repr

/-- A live pool entry. -/
structure PoolEntry where
  note : NewNote
  lock : Option NoteLock
  deriving DecidableEq, Repr

namespace PoolEntry

def unlocked (note : NewNote) : PoolEntry := ⟨note, none⟩

def locked (note : NewNote) (lock : NoteLock) : PoolEntry := ⟨note, some lock⟩

def d (entry : PoolEntry) : DenominationTag := entry.note.d

def pk (entry : PoolEntry) : PublicKey := entry.note.pk

/-- The key that may consume the note: its own until the lock lapses, the refund key after. -/
def spendingPk (entry : PoolEntry) (povDaaScore : UInt64) : PublicKey :=
  match entry.lock with
  | some lock => if povDaaScore ≥ lock.untilDaa then lock.refundPk else entry.note.pk
  | none => entry.note.pk

end PoolEntry

/-- A lock on one of an op's produced notes, by index into `produced`. -/
structure ProducedLock where
  index : UInt32
  lock : NoteLock
  deriving DecidableEq, Repr

structure SignedGroup where
  serials : List Hash
  signature : Signature
  deriving DecidableEq, Repr

structure FreshnessAnchor where
  anchorDaaScore : UInt64
  deriving DecidableEq, Repr

structure MintOp where
  newNotes : List NewNote
  deriving DecidableEq, Repr

structure TransferOp where
  consumed : List SignedGroup
  produced : List NewNote
  freshness : FreshnessAnchor
  deriving DecidableEq, Repr

structure TransferLockedOp where
  consumed : List SignedGroup
  produced : List NewNote
  locks : List ProducedLock
  freshness : FreshnessAnchor
  deriving DecidableEq, Repr

/-- One step of joining the locks to the produced notes; an index past the end is ignored. -/
def joinLock (entries : List PoolEntry) (l : ProducedLock) : List PoolEntry :=
  entries.modify l.index.toNat fun entry => { entry with lock := some l.lock }

/-- The produced notes as pool entries, locks joined in. -/
def TransferLockedOp.producedEntries (op : TransferLockedOp) : List PoolEntry :=
  op.locks.foldl joinLock (op.produced.map PoolEntry.unlocked)

structure RedeemOp where
  consumed : List SignedGroup
  freshness : FreshnessAnchor
  deriving DecidableEq, Repr

inductive PoolOp where
  | mint (op : MintOp)
  | transfer (op : TransferOp)
  | redeem (op : RedeemOp)
  | transferLocked (op : TransferLockedOp)
  deriving DecidableEq, Repr

namespace PoolOp

/-- The borsh tag, also the `op_type` byte of the signing hash. -/
def opType : PoolOp → UInt8
  | mint _ => 0
  | transfer _ => 1
  | redeem _ => 2
  | transferLocked _ => 3

def consumedGroups : PoolOp → List SignedGroup
  | mint _ => []
  | transfer op => op.consumed
  | redeem op => op.consumed
  | transferLocked op => op.consumed

def consumedSerials (op : PoolOp) : List Hash := op.consumedGroups.flatMap SignedGroup.serials

end PoolOp

/-! ## Payload decoding -/

def readHash : Reader Hash := do return Hash.fromBytes (← Reader.array 32)

def readSignature : Reader Signature := do return BitVec.ofNat 512 (readBE (← Reader.array 64))

def readDenominationTag : Reader DenominationTag := do
  let tag ← Reader.byte
  (DenominationTag.tryFrom tag : Option DenominationTag)

def readNewNote : Reader NewNote := do return ⟨← readDenominationTag, ← readHash⟩

def readNoteLock : Reader NoteLock := do return ⟨← readHash, ← Reader.u64⟩

def readProducedLock : Reader ProducedLock := do return ⟨← Reader.u32, ← readNoteLock⟩

def readSignedGroup : Reader SignedGroup := do return ⟨← Reader.vec readHash, ← readSignature⟩

def readFreshnessAnchor : Reader FreshnessAnchor := do return ⟨← Reader.u64⟩

def readTransferOp : Reader TransferOp := do
  return ⟨← Reader.vec readSignedGroup, ← Reader.vec readNewNote, ← readFreshnessAnchor⟩

def readTransferLockedOp : Reader TransferLockedOp := do
  return ⟨← Reader.vec readSignedGroup, ← Reader.vec readNewNote, ← Reader.vec readProducedLock, ← readFreshnessAnchor⟩

def readRedeemOp : Reader RedeemOp := do
  return ⟨← Reader.vec readSignedGroup, ← readFreshnessAnchor⟩

def readPoolOp : Reader PoolOp := do
  match (← Reader.byte).toNat with
  | 0 => return .mint ⟨← Reader.vec readNewNote⟩
  | 1 => return .transfer (← readTransferOp)
  | 2 => return .redeem (← readRedeemOp)
  | 3 => return .transferLocked (← readTransferLockedOp)
  | _ => failure

/-- `None` on any malformed encoding, trailing bytes included. -/
def PoolOp.decodePayload (payload : Bytes) : Option PoolOp := Reader.tryFromSlice readPoolOp payload

end Marigold.NotePool
