import Marigold.Core.Outcome
import Marigold.NotePool.Types

/-!
# Finality anchors

`consensus/core/src/finality_anchor/mod.rs`: what the trustees sign, how it is encoded, and the
checks that need nothing but the bytes and the pinned keys.
-/

namespace Marigold.Finality

open Lib NotePool

def trusteeCount : Nat := 5

def anchorQuorum : Nat := 3

/-- Index `i` belongs to bit `i` of a signer bitmap. -/
abbrev TrusteeKeys := Fin trusteeCount → PublicKey

/-- A quorum's certification of a block. -/
structure FinalityAnchor where
  anchoredBlock : Hash
  anchoredDaaScore : UInt64
  signerBitmap : UInt8
  /-- One for each set bit, ascending. -/
  signatures : List Signature
  deriving DecidableEq, Repr

/-- One trustee's part of an anchor. -/
structure AnchorAttestation where
  anchoredBlock : Hash
  anchoredDaaScore : UInt64
  signature : Signature
  deriving DecidableEq, Repr

structure EquivocationEvidence where
  trusteeIndex : UInt8
  first : AnchorAttestation
  second : AnchorAttestation
  deriving DecidableEq, Repr

inductive AnchorPayload where
  | anchor (anchor : FinalityAnchor)
  | equivocation (evidence : EquivocationEvidence)
  deriving DecidableEq, Repr

inductive FinalityAnchorError where
  | bitmapOutOfRange (bitmap : UInt8)
  | signatureCountMismatch (expected actual : Nat)
  | belowQuorum (signers : Nat)
  | badSignature (trustee : UInt8)
  | badTrusteeKey (trustee : UInt8)
  | trusteeIndexOutOfRange (trustee : UInt8)
  | sameBlock
  | scoresNotWithinInterval (gap interval : UInt64)
  deriving DecidableEq, Repr

/-! ## Wire format -/

def readFinalityAnchor : Reader FinalityAnchor := do
  return ⟨← readHash, ← Reader.u64, ← Reader.byte, ← Reader.vec readSignature⟩

def readAttestation : Reader AnchorAttestation := do
  return ⟨← readHash, ← Reader.u64, ← readSignature⟩

def readEvidence : Reader EquivocationEvidence := do
  return ⟨← Reader.byte, ← readAttestation, ← readAttestation⟩

def readAnchorPayload : Reader AnchorPayload := do
  match (← Reader.byte).toNat with
  | 0 => return .anchor (← readFinalityAnchor)
  | 1 => return .equivocation (← readEvidence)
  | _ => failure

/-- `None` on any malformed encoding, trailing bytes included. -/
def AnchorPayload.decodePayload (payload : Bytes) : Option AnchorPayload :=
  Reader.tryFromSlice readAnchorPayload payload

/-! ## Verification -/

/-- BIP340 and the hash the trustees sign. -/
structure AnchorCrypto where
  /-- `FinalityAnchorSigningHash`. -/
  signingHasher : Bytes → Hash
  /-- `XOnlyPublicKey::from_slice` succeeds. -/
  validKey : PublicKey → Bool
  verify : Signature → Hash → PublicKey → Bool

section Verification

variable (C : AnchorCrypto)

def signingHash (anchoredBlock : Hash) (anchoredDaaScore : UInt64) : Hash :=
  C.signingHasher (anchoredBlock.asBytes ++ u64LE anchoredDaaScore)

/-- The set bits among the trustees', ascending. -/
def bitmapSigners (signerBitmap : UInt8) : List (Fin trusteeCount) :=
  (List.finRange trusteeCount).filter fun i => signerBitmap.toNat.testBit i

/-- `count_ones`. -/
def countOnes (bitmap : UInt8) : Nat :=
  ((List.range 8).filter fun i => bitmap.toNat.testBit i).length

def validateAnchorShape (anchor : FinalityAnchor) : Except FinalityAnchorError Unit :=
  if anchor.signerBitmap.toNat >>> trusteeCount ≠ 0 then
    .error (.bitmapOutOfRange anchor.signerBitmap)
  else if countOnes anchor.signerBitmap ≠ anchor.signatures.length then
    .error (.signatureCountMismatch (countOnes anchor.signerBitmap) anchor.signatures.length)
  else if countOnes anchor.signerBitmap < anchorQuorum then
    .error (.belowQuorum (countOnes anchor.signerBitmap))
  else .ok ()

def verifyOne (key : PublicKey) (trustee : UInt8) (msgHash : Hash) (signature : Signature) :
    Except FinalityAnchorError Unit :=
  if !C.validKey key then .error (.badTrusteeKey trustee)
  else if C.verify signature msgHash key then .ok ()
  else .error (.badSignature trustee)

def verifyAll (trusteeKeys : TrusteeKeys) (msgHash : Hash) :
    List (Signature × Fin trusteeCount) → Except FinalityAnchorError Unit
  | [] => .ok ()
  | (signature, trustee) :: rest => do
    verifyOne C (trusteeKeys trustee) (UInt8.ofNat trustee) msgHash signature
    verifyAll trusteeKeys msgHash rest

def verifyAnchor (anchor : FinalityAnchor) (trusteeKeys : TrusteeKeys) : Except FinalityAnchorError Unit := do
  validateAnchorShape anchor
  verifyAll C trusteeKeys (signingHash C anchor.anchoredBlock anchor.anchoredDaaScore)
    (anchor.signatures.zip (bitmapSigners anchor.signerBitmap))

/-- `abs_diff`. -/
def absDiff (a b : UInt64) : UInt64 := if a < b then b - a else a - b

def verifyAttestation (key : PublicKey) (trustee : UInt8) (attestation : AnchorAttestation) :
    Except FinalityAnchorError Unit :=
  verifyOne C key trustee (signingHash C attestation.anchoredBlock attestation.anchoredDaaScore) attestation.signature

/-- Different blocks, less than an interval apart, both signed by the accused. -/
def verifyEquivocationEvidence (evidence : EquivocationEvidence) (trusteeKeys : TrusteeKeys)
    (intervalAt : UInt64 → UInt64) : Except FinalityAnchorError Unit :=
  if inRange : evidence.trusteeIndex.toNat < trusteeCount then
    let gap := absDiff evidence.first.anchoredDaaScore evidence.second.anchoredDaaScore
    let interval := intervalAt (max evidence.first.anchoredDaaScore evidence.second.anchoredDaaScore)
    if evidence.first.anchoredBlock = evidence.second.anchoredBlock then .error .sameBlock
    else if gap ≥ interval then .error (.scoresNotWithinInterval gap interval)
    else do
      let key := trusteeKeys ⟨evidence.trusteeIndex.toNat, inRange⟩
      verifyAttestation C key evidence.trusteeIndex evidence.first
      verifyAttestation C key evidence.trusteeIndex evidence.second
  else .error (.trusteeIndexOutOfRange evidence.trusteeIndex)

end Verification

/-- `FinalityAnchorParams`; without keys the mechanism is off. -/
structure FinalityAnchorParams where
  trustees : Option TrusteeKeys
  depth : UInt64
  launchInterval : UInt64

namespace FinalityAnchorParams

/-- One value at every score. -/
def cadenceInterval (P : FinalityAnchorParams) (_daaScore : UInt64) : UInt64 := P.launchInterval

/-- Three intervals past the depth. -/
def stalenessBound (P : FinalityAnchorParams) (daaScore : UInt64) : UInt64 :=
  P.depth + 3 * P.cadenceInterval daaScore

end FinalityAnchorParams

/-! ## What a verified anchor carries -/

section Verified

variable {C : AnchorCrypto} {keys : TrusteeKeys} {anchor : FinalityAnchor}

/-- The trustee's signature is among those of the anchor, and valid. -/
def SignedBy (C : AnchorCrypto) (keys : TrusteeKeys) (anchor : FinalityAnchor) (trustee : Fin trusteeCount) : Prop :=
  ∃ signature ∈ anchor.signatures, C.validKey (keys trustee) = true ∧
    C.verify signature (signingHash C anchor.anchoredBlock anchor.anchoredDaaScore) (keys trustee) = true

theorem verifyOne_eq_ok {key : PublicKey} {trustee : UInt8} {msgHash : Hash} {signature : Signature} :
    verifyOne C key trustee msgHash signature = .ok () ↔
      C.validKey key = true ∧ C.verify signature msgHash key = true := by
  unfold verifyOne
  cases C.validKey key <;> cases C.verify signature msgHash key <;> simp

theorem verifyAll_eq_ok {msgHash : Hash} {pairs : List (Signature × Fin trusteeCount)} :
    verifyAll C keys msgHash pairs = .ok () ↔ ∀ pair ∈ pairs,
      C.validKey (keys pair.2) = true ∧ C.verify pair.1 msgHash (keys pair.2) = true := by
  induction pairs with
  | nil => simp [verifyAll]
  | cons pair rest ih =>
    rw [verifyAll, Outcome.bind_eq_ok, List.forall_mem_cons, ← ih]
    constructor
    · rintro ⟨_, first, rest⟩
      exact ⟨verifyOne_eq_ok.mp first, rest⟩
    · rintro ⟨first, rest⟩
      exact ⟨(), verifyOne_eq_ok.mpr first, rest⟩

theorem bitmapSigners_length {bitmap : UInt8} (inRange : bitmap.toNat >>> trusteeCount = 0) :
    (bitmapSigners bitmap).length = countOnes bitmap := by
  have every : ∀ n : Fin 256, n.val >>> trusteeCount = 0 →
      ((List.finRange trusteeCount).filter fun i : Fin trusteeCount => n.val.testBit i.val).length =
        ((List.range 8).filter fun i => n.val.testBit i).length := by decide +kernel
  exact every ⟨bitmap.toNat, bitmap.toNat_lt⟩ inRange

/-- Every signer of a verified anchor signed it, and they are a quorum. -/
theorem verifyAnchor_signed (verified : verifyAnchor C anchor keys = .ok ()) :
    anchorQuorum ≤ (bitmapSigners anchor.signerBitmap).length ∧
      ∀ trustee ∈ bitmapSigners anchor.signerBitmap, SignedBy C keys anchor trustee := by
  obtain ⟨_, shape, all⟩ := Outcome.bind_eq_ok.mp verified
  unfold validateAnchorShape at shape
  split at shape
  · cases shape
  next inRange =>
    split at shape
    · cases shape
    next counted =>
      split at shape
      · cases shape
      next quorum =>
        rw [not_not] at inRange counted
        have signers := bitmapSigners_length inRange
        refine ⟨by omega, fun trustee member => ?_⟩
        -- There are as many signatures as signers, so each signer has one of its own.
        obtain ⟨i, inside, rfl⟩ := List.mem_iff_getElem.mp member
        have within : i < anchor.signatures.length := by omega
        have paired : (anchor.signatures[i], (bitmapSigners anchor.signerBitmap)[i]) ∈
            anchor.signatures.zip (bitmapSigners anchor.signerBitmap) :=
          List.mem_iff_getElem.mpr ⟨i, by simp [within, inside], by simp⟩
        exact ⟨_, List.getElem_mem within, verifyAll_eq_ok.mp all _ paired⟩

end Verified

end Marigold.Finality
