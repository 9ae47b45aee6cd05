import Marigold.Core.Outcome
import Marigold.NotePool.Types

/-!
# Pool-op payloads

`PoolOp::encode_payload`, the borsh encoding that `decode_payload` reads. Each payload that is accepted is the
encoding of one operation: there is no other spelling of a tag, a denomination or a length, and nothing may
follow the operation.
-/

namespace Marigold.NotePool

open Lib

/-! ## Encoding -/

def writeHash : Writer Hash := fun h => some h.asBytes

def writeSignature : Writer Signature := fun signature => some (beBytes 64 signature.toNat)

def writeDenominationTag : Writer DenominationTag := fun d => some [d.toByte]

def writeNewNote : Writer NewNote := fun note => do
  return (← writeDenominationTag note.d) ++ (← writeHash note.pk)

def writeNoteLock : Writer NoteLock := fun lock => do
  return (← writeHash lock.refundPk) ++ (← Writer.u64 lock.untilDaa)

def writeProducedLock : Writer ProducedLock := fun l => do
  return (← Writer.u32 l.index) ++ (← writeNoteLock l.lock)

def writeSignedGroup : Writer SignedGroup := fun group => do
  return (← Writer.vec writeHash group.serials) ++ (← writeSignature group.signature)

def writeFreshnessAnchor : Writer FreshnessAnchor := fun freshness => Writer.u64 freshness.anchorDaaScore

def writeTransferOp : Writer TransferOp := fun op => do
  return (← Writer.vec writeSignedGroup op.consumed) ++ (← Writer.vec writeNewNote op.produced) ++
    (← writeFreshnessAnchor op.freshness)

def writeTransferLockedOp : Writer TransferLockedOp := fun op => do
  return (← Writer.vec writeSignedGroup op.consumed) ++ (← Writer.vec writeNewNote op.produced) ++
    (← Writer.vec writeProducedLock op.locks) ++ (← writeFreshnessAnchor op.freshness)

def writeRedeemOp : Writer RedeemOp := fun op => do
  return (← Writer.vec writeSignedGroup op.consumed) ++ (← writeFreshnessAnchor op.freshness)

/-- What follows the tag. -/
def writeBody : Writer PoolOp
  | .mint op => Writer.vec writeNewNote op.newNotes
  | .transfer op => writeTransferOp op
  | .redeem op => writeRedeemOp op
  | .transferLocked op => writeTransferLockedOp op

/-- The tag is the position of the variant. -/
def writePoolOp : Writer PoolOp := fun op => do return [op.opType] ++ (← writeBody op)

/-- `expect`s that the operation can be serialized. -/
def PoolOp.encodePayload (op : PoolOp) : Outcome Empty Bytes := Outcome.expect (writePoolOp op)

/-! ## Parts -/

theorem inverse_hash : Inverse readHash writeHash :=
  Inverse.fixed Hash.asBytes_length Hash.fromBytes_asBytes fun _ => Hash.asBytes_fromBytes

theorem inverse_signature : Inverse readSignature writeSignature := by
  have bits : (256 : Nat) ^ 64 = 2 ^ 512 := (Nat.pow_mul 2 8 64).symm
  refine Inverse.fixed (fun _ => beBytes_length ..) (fun signature => ?_) fun bs width => ?_
  · rw [readBE_beBytes, bits, Nat.mod_eq_of_lt signature.isLt, BitVec.ofNat_toNat, BitVec.setWidth_eq]
  · have fits : readBE bs < 2 ^ 512 := bits ▸ width ▸ readBE_lt bs
    rw [BitVec.toNat_ofNat, Nat.mod_eq_of_lt fits, ← width, beBytes_readBE]

theorem inverse_denominationTag : Inverse readDenominationTag writeDenominationTag := by
  intro bs d rest
  cases bs with
  | nil => simp [readDenominationTag, Reader.byte, writeDenominationTag, Bind.bind, StateT.bind]
  | cons b others =>
    have runs : readDenominationTag (b :: others) = some (d, rest) ↔
        DenominationTag.tryFrom b = some d ∧ others = rest := by
      cases found : DenominationTag.tryFrom b <;>
        simp [readDenominationTag, Reader.byte, Bind.bind, StateT.bind, found, liftM, monadLift, MonadLift.monadLift,
          StateT.lift]
    rw [runs]
    simp only [writeDenominationTag, Option.some_inj, exists_eq_left', true_and, List.cons_append, List.nil_append,
      List.cons.injEq]
    refine and_congr_left fun _ => ⟨fun read => (DenominationTag.toByte_of_tryFrom read).symm, ?_⟩
    rintro rfl
    exact DenominationTag.tryFrom_toByte d

theorem inverse_newNote : Inverse readNewNote writeNewNote :=
  InverseOn.bind inverse_denominationTag NewNote.d fun d =>
    InverseOn.map inverse_hash NewNote.pk (fun _ => rfl) fun note => by cases note; simp [eq_comm]

theorem inverse_noteLock : Inverse readNoteLock writeNoteLock :=
  InverseOn.bind inverse_hash NoteLock.refundPk fun refundPk =>
    InverseOn.map Inverse.u64 NoteLock.untilDaa (fun _ => rfl) fun lock => by cases lock; simp [eq_comm]

theorem inverse_producedLock : Inverse readProducedLock writeProducedLock :=
  InverseOn.bind Inverse.u32 ProducedLock.index fun index =>
    InverseOn.map inverse_noteLock ProducedLock.lock (fun _ => rfl) fun l => by cases l; simp [eq_comm]

theorem inverse_signedGroup : Inverse readSignedGroup writeSignedGroup :=
  InverseOn.bind inverse_hash.vec SignedGroup.serials fun serials =>
    InverseOn.map inverse_signature SignedGroup.signature (fun _ => rfl) fun group => by cases group; simp [eq_comm]

theorem inverse_freshnessAnchor : Inverse readFreshnessAnchor writeFreshnessAnchor :=
  InverseOn.map Inverse.u64 FreshnessAnchor.anchorDaaScore (fun _ => rfl) fun freshness => by cases freshness; simp

theorem inverse_redeemOp : Inverse readRedeemOp writeRedeemOp :=
  InverseOn.bind inverse_signedGroup.vec RedeemOp.consumed fun consumed =>
    InverseOn.map inverse_freshnessAnchor RedeemOp.freshness (fun _ => rfl) fun op => by cases op; simp [eq_comm]

theorem inverse_transferOp : Inverse readTransferOp writeTransferOp := by
  have nested : Inverse readTransferOp _ :=
    InverseOn.bind inverse_signedGroup.vec TransferOp.consumed fun consumed =>
      InverseOn.bind inverse_newNote.vec TransferOp.produced fun produced =>
        InverseOn.map inverse_freshnessAnchor TransferOp.freshness (fun _ => rfl) fun op => by
          cases op; simp [eq_comm, and_comm]
  exact nested.congr (fun _ => Iff.rfl) fun op _ => by simp [writeTransferOp, Option.bind_assoc]

theorem inverse_transferLockedOp : Inverse readTransferLockedOp writeTransferLockedOp := by
  have nested : Inverse readTransferLockedOp _ :=
    InverseOn.bind inverse_signedGroup.vec TransferLockedOp.consumed fun consumed =>
      InverseOn.bind inverse_newNote.vec TransferLockedOp.produced fun produced =>
        InverseOn.bind inverse_producedLock.vec TransferLockedOp.locks fun locks =>
          InverseOn.map inverse_freshnessAnchor TransferLockedOp.freshness (fun _ => rfl) fun op => by cases op; grind
  exact nested.congr (fun _ => Iff.rfl) fun op _ => by simp [writeTransferLockedOp, Option.bind_assoc]

theorem inverse_body (tag : UInt8) : InverseOn (fun op : PoolOp => op.opType = tag ∧ True) (match tag.toNat with
      | 0 => return .mint ⟨← Reader.vec readNewNote⟩
      | 1 => return .transfer (← readTransferOp)
      | 2 => return .redeem (← readRedeemOp)
      | 3 => return .transferLocked (← readTransferLockedOp)
      | _ => failure) writeBody := by
  have tags : tag = 0 ∨ tag = 1 ∨ tag = 2 ∨ tag = 3 ∨ 3 < tag.toNat := by
    simp only [← UInt8.toNat_inj]
    change tag.toNat = 0 ∨ tag.toNat = 1 ∨ tag.toNat = 2 ∨ tag.toNat = 3 ∨ 3 < tag.toNat
    omega
  rcases tags with rfl | rfl | rfl | rfl | unassigned
  · refine InverseOn.congr (InverseOn.variant (f := fun notes => PoolOp.mint ⟨notes⟩) inverse_newNote.vec fun _ => rfl)
      (fun op => ?_) fun _ _ => rfl
    cases op with
    | mint op => exact ⟨fun _ => ⟨rfl, trivial⟩, fun _ => ⟨op.newNotes, rfl⟩⟩
    | _ => simp [PoolOp.opType]
  · refine (InverseOn.variant (f := PoolOp.transfer) inverse_transferOp fun _ => rfl).congr (fun op => ?_) fun _ _ => rfl
    cases op <;> simp [PoolOp.opType]
  · refine (InverseOn.variant (f := PoolOp.redeem) inverse_redeemOp fun _ => rfl).congr (fun op => ?_) fun _ _ => rfl
    cases op <;> simp [PoolOp.opType]
  · refine (InverseOn.variant (f := PoolOp.transferLocked) inverse_transferLockedOp fun _ => rfl).congr (fun op => ?_) fun _ _ => rfl
    cases op <;> simp [PoolOp.opType]
  · split
    next is => omega
    next is => omega
    next is => omega
    next is => omega
    · refine InverseOn.failure fun op is => ?_
      obtain ⟨rfl, -⟩ := is
      cases op <;> simp [PoolOp.opType] at unassigned

theorem inverse_poolOp : Inverse readPoolOp writePoolOp :=
  (InverseOn.bind Inverse.byte PoolOp.opType inverse_body).congr (fun _ => Iff.rfl) fun _ _ => rfl

/-- A payload decodes to an operation if and only if it is what the operation encodes to. -/
theorem decodePayload_iff_encodePayload (payload : Bytes) (op : PoolOp) :
    PoolOp.decodePayload payload = some op ↔ op.encodePayload = .ok payload := by
  rw [PoolOp.decodePayload, inverse_poolOp.tryFromSlice, PoolOp.encodePayload]
  cases writePoolOp op <;> simp [Outcome.expect, Outcome.panicked]

end Marigold.NotePool
