import Marigold.Consensus.Walk
import Marigold.Finality.Anchor

/-!
# The anchor ratchet

How anchors become a node's latest one. The virtual processor scans the chain blocks it adopts for
anchors and evidence (`collect_finality_anchor_updates`) and writes the outcome with the new virtual
state (`commit_virtual_state`). Gossip (`apply_external_finality_anchor`) writes the same store
under its lock, at any time in between.
-/

namespace Marigold.Finality

open Lib NotePool Consensus

structure StoredAnchor where
  anchoredBlock : Hash
  anchoredDaaScore : UInt64
  deriving DecidableEq, Repr

/-- The trustee does not count in chains that contain the accepting block. -/
structure DenyListEntry where
  trusteeIndex : UInt8
  acceptingBlock : Hash
  deriving DecidableEq, Repr

/-- `DbFinalityAnchorStore`. -/
structure AnchorStore where
  latest : Option StoredAnchor
  denyList : List DenyListEntry
  latestFull : Option FinalityAnchor
  pending : Option FinalityAnchor

def FinalityAnchor.stored (anchor : FinalityAnchor) : StoredAnchor :=
  ⟨anchor.anchoredBlock, anchor.anchoredDaaScore⟩

namespace AnchorStore

def empty : AnchorStore := ⟨none, [], none, none⟩

variable (store : AnchorStore)

/-- `set_latest_direct`, and `set_latest_batch` with `set_latest_full_batch`. Neither looks at the
anchor it replaces. -/
def setLatest (anchor : FinalityAnchor) : AnchorStore :=
  { store with latest := some anchor.stored, latestFull := some anchor }

def setPending (anchor : FinalityAnchor) : AnchorStore :=
  { store with pending := some anchor }

def clearPending : AnchorStore := { store with pending := none }

/-- Exact duplicates are skipped. -/
def pushEntry (entries : List DenyListEntry) (entry : DenyListEntry) : List DenyListEntry :=
  if entry ∈ entries then entries else entries ++ [entry]

def appendDenyEntries (newEntries : List DenyListEntry) : AnchorStore :=
  { store with denyList := newEntries.foldl pushEntry store.denyList }

end AnchorStore

/-- What the node knows of the DAG at some moment. -/
structure DagView where
  /-- `headers_store.get_daa_score`. -/
  daaScore : Hash → Option UInt64
  isChainAncestorOf : Hash → Hash → Bool
  bodyTips : List Hash
  /-- The selected parent of virtual. -/
  sink : Hash
  acceptanceData : Hash → Option (List MergesetBlockAcceptanceData)
  blockTransactions : Hash → Option (List Transaction)

namespace DagView

def isChainAncestorOfAnyBodyTip (view : DagView) (block : Hash) : Bool :=
  view.bodyTips.any (view.isChainAncestorOf block)

/-- Known at its claimed score, and on the selected chain of some body tip. -/
def locallyVerifiable (view : DagView) (anchor : FinalityAnchor) : Bool :=
  (view.daaScore anchor.anchoredBlock).any (· == anchor.anchoredDaaScore) &&
    view.isChainAncestorOfAnyBodyTip anchor.anchoredBlock

/-- The anchor payloads a chain block accepted. Whatever is missing or malformed has no effect. -/
def acceptedPayloads (view : DagView) (acceptingBlock : Hash) : List AnchorPayload :=
  ((view.acceptanceData acceptingBlock).getD []).flatMap fun mergesetData =>
    let txs := (view.blockTransactions mergesetData.blockHash).getD []
    mergesetData.acceptedTransactions.filterMap fun entry => do
      let tx ← txs[entry.indexWithinBlock.toNat]?
      if tx.subnetworkId = SubnetworkId.finalityAnchor then
        AnchorPayload.decodePayload tx.payload
      else none

end DagView

/-- A deny entry for the trustee binds in the chain of the given block. -/
def deniedIn (denyList : List DenyListEntry) (view : DagView) (pov : Hash) (trustee : UInt8) : Bool :=
  denyList.any fun entry =>
    entry.trusteeIndex == trustee && view.isChainAncestorOf entry.acceptingBlock pov

/-- The signers that are not disqualified. -/
def countable (denied : UInt8 → Bool) (anchor : FinalityAnchor) : List (Fin trusteeCount) :=
  (bitmapSigners anchor.signerBitmap).filter fun i => !denied (UInt8.ofNat i)

structure AnchorRules where
  crypto : AnchorCrypto
  params : FinalityAnchorParams

/-! ## Gossip -/

inductive ExternalAnchorOutcome where
  | ratcheted
  | pending
  | ignored
  deriving DecidableEq, Repr

/-- `apply_external_finality_anchor`, under the write lock of the store. -/
def applyExternalFinalityAnchor (R : AnchorRules) (view : DagView) (store : AnchorStore)
    (anchor : FinalityAnchor) : ExternalAnchorOutcome × AnchorStore :=
  match R.params.trustees with
  | none => (.ignored, store)
  | some trustees =>
    match verifyAnchor R.crypto anchor trustees with
    | .error _ => (.ignored, store)
    | .ok _ =>
      if (countable (deniedIn store.denyList view view.sink) anchor).length < anchorQuorum then
        (.ignored, store)
      else if store.latest.any fun best => anchor.anchoredDaaScore ≤ best.anchoredDaaScore then
        (.ignored, store)
      else if view.locallyVerifiable anchor then (.ratcheted, store.setLatest anchor)
      else if store.pending.any fun best => anchor.anchoredDaaScore ≤ best.anchoredDaaScore then
        (.ignored, store)
      else (.pending, store.setPending anchor)

/-! ## Virtual resolution -/

structure AnchorStateUpdates where
  newLatest : Option FinalityAnchor
  newDenyEntries : List DenyListEntry
  clearPending : Bool

/-- The variables of the scan over the adopted chain blocks. -/
structure Scan where
  bestScore : Option UInt64
  updates : AnchorStateUpdates

section Scan

variable (R : AnchorRules) (trustees : TrusteeKeys) (view : DagView)
  (storedDeny : List DenyListEntry) (acceptingBlock : Hash) (acceptingDaaScore : UInt64)

variable (scan : Scan)

/-- Disqualified for the accepting block, by a stored entry or by one of this scan. -/
def Scan.denied (trustee : UInt8) : Bool :=
  deniedIn storedDeny view acceptingBlock trustee ||
    scan.updates.newDenyEntries.any fun entry => entry.trusteeIndex == trustee

def scanEvidence (evidence : EquivocationEvidence) : Scan :=
  match verifyEquivocationEvidence R.crypto evidence trustees R.params.cadenceInterval with
  | .error _ => scan
  | .ok _ =>
    if scan.denied view storedDeny acceptingBlock evidence.trusteeIndex then scan
    else { scan with updates := { scan.updates with
      newDenyEntries := scan.updates.newDenyEntries ++ [⟨evidence.trusteeIndex, acceptingBlock⟩] } }

/-- The anchored block is deep enough, has the claimed score and is on the accepting block's
selected chain, and enough signers are left. -/
def anchorTakesEffect (anchor : FinalityAnchor) : Bool :=
  !decide (acceptingDaaScore.toNat - anchor.anchoredDaaScore.toNat < R.params.depth.toNat) &&
    (view.daaScore anchor.anchoredBlock).any (· == anchor.anchoredDaaScore) &&
    view.isChainAncestorOf anchor.anchoredBlock acceptingBlock &&
    !decide ((countable (scan.denied view storedDeny acceptingBlock) anchor).length < anchorQuorum)

def scanAnchor (anchor : FinalityAnchor) : Scan :=
  match verifyAnchor R.crypto anchor trustees with
  | .error _ => scan
  | .ok _ =>
    if anchorTakesEffect R view storedDeny acceptingBlock acceptingDaaScore scan anchor &&
        scan.bestScore.all (· < anchor.anchoredDaaScore) then
      ⟨some anchor.anchoredDaaScore, { scan.updates with newLatest := some anchor }⟩
    else scan

def scanPayload : AnchorPayload → Scan
  | .equivocation evidence =>
    scanEvidence R trustees view storedDeny acceptingBlock scan evidence
  | .anchor anchor =>
    scanAnchor R trustees view storedDeny acceptingBlock acceptingDaaScore scan anchor

def scanBlock (acceptingBlock : Hash) : Outcome Empty Scan := do
  let acceptingDaaScore ← Outcome.expect (view.daaScore acceptingBlock)
  return (view.acceptedPayloads acceptingBlock).foldl
    (scanPayload R trustees view storedDeny acceptingBlock acceptingDaaScore) scan

/-- The scan of `collect_finality_anchor_updates`, from the split point up to the new sink. -/
def scanChainPath (storedLatest : Option StoredAnchor) (added : List Hash) : Outcome Empty Scan :=
  added.foldlM (scanBlock R trustees view storedDeny)
    ⟨storedLatest.map StoredAnchor.anchoredDaaScore, ⟨none, [], false⟩⟩

end Scan

/-- The end of `collect_finality_anchor_updates`: a pending anchor is dropped once it is superseded,
and promoted once its block is verifiable. -/
def promotePending (view : DagView) (scan : Scan) : Option FinalityAnchor → AnchorStateUpdates
  | none => scan.updates
  | some pending =>
    if scan.bestScore.any (· ≥ pending.anchoredDaaScore) then
      { scan.updates with clearPending := true }
    else if view.locallyVerifiable pending then
      { scan.updates with newLatest := some pending, clearPending := true }
    else scan.updates

/-- The part of `commit_virtual_state` about anchors; updates that say nothing write nothing. -/
def AnchorStore.commit (store : AnchorStore) (updates : AnchorStateUpdates) : AnchorStore :=
  let store := store.appendDenyEntries updates.newDenyEntries
  let store := updates.newLatest.elim store store.setLatest
  if updates.clearPending then store.clearPending else store

end Marigold.Finality
