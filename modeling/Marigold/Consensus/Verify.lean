import Marigold.Consensus.Walk
import Marigold.NotePool.Commitment

/-!
# Chain qualification

`verify_expected_utxo_state`: a block can be on the selected chain if its header commits to the state
its mergeset leads to, its coinbase pays what the mergeset earned, and its own transactions are all
valid in that state. Blocks replay their selected parent relying on the last point.
-/

namespace Marigold.Consensus

open Lib NotePool Utxo

section Verify

variable {M : Type} (V : VirtualProcessor M) (ctx : UtxoProcessingContext M)
  (ghostdagData : GhostdagData) (block : Block)

def verifyUtxoCommitment : Outcome RuleError Unit :=
  let expected := V.muHash.finalize ctx.multisetHash
  if expected ≠ block.header.utxoCommitment then
    .reject (.badUTXOCommitment block.header.hash block.header.utxoCommitment expected)
  else .ok ()

def verifyPoolCommitment (poolState : PoolCollection) (poolDiff : PoolDiff) : Outcome RuleError Unit :=
  let expected := recomputePoolCommitment V.crypto.hashers poolState poolDiff ctx.mergesetPoolDiff
  if expected ≠ block.header.poolCommitment then
    .reject (.badPoolCommitment block.header.hash block.header.poolCommitment expected)
  else .ok ()

def verifyAcceptedIdMerkleRoot : Outcome RuleError Unit :=
  let expected := V.recomputeSeqCommit ctx ghostdagData block.header
  if expected ≠ block.header.acceptedIdMerkleRoot then
    .reject (.badAcceptedIDMerkleRoot block.header.hash block.header.acceptedIdMerkleRoot expected)
  else .ok ()

def verifyCoinbaseTransaction (coinbase : Transaction) : Outcome RuleError Unit := do
  let data ← Outcome.unwrap (V.coinbaseManager.deserializeCoinbasePayload coinbase.payload)
  let expected ← Outcome.unwrapRule (V.coinbaseManager.expectedCoinbaseTransaction
    block.header.daaScore data.minerData ghostdagData ctx.mergesetRewards
    (V.mergesetNonDaa block.header.hash))
  if V.txHash coinbase ≠ V.txHash expected then .reject .badCoinbaseTransaction else return ()

def verifyHeaderPruningPoint : Outcome RuleError Unit :=
  let expected := V.expectedHeaderPruningPoint ghostdagData
  if expected ≠ block.header.pruningPoint then
    .reject (.wrongHeaderPruningPoint expected block.header.pruningPoint)
  else .ok ()

def verifyFirstParent : Outcome RuleError Unit := do
  let firstParent ← Outcome.expect block.header.directParents.head?
  if firstParent ≠ ghostdagData.selectedParent then
    .reject (.wrongSelectedParentOrder block.header.hash ghostdagData.selectedParent firstParent)
  else return ()

/-- The block's own transactions, fully validated in the state after its mergeset. -/
def verifyTransactions (utxoView : UtxoView) (poolView : PoolView) : Outcome RuleError Unit := do
  let validated ← validateTransactionsInParallel V.toTxContext block.transactions
    (composedUtxoView utxoView ctx.mergesetDiff) (composedPoolView poolView ctx.mergesetPoolDiff)
    block.header.daaScore .full ghostdagData.selectedParent
  let count := block.transactions.length - 1
  if validated.length < count then
    .reject (.invalidTransactionsInUtxoContext (count - validated.length) count)
  else return ()

/-- `utxoView` and `poolView` are those of the selected parent, the latter `poolState` with
`poolDiff`. -/
def verifyExpectedUtxoState (utxoView : UtxoView) (poolView : PoolView)
    (poolState : PoolCollection) (poolDiff : PoolDiff) : Outcome RuleError Unit := do
  verifyUtxoCommitment V ctx block
  verifyPoolCommitment V ctx block poolState poolDiff
  verifyAcceptedIdMerkleRoot V ctx ghostdagData block
  let coinbase ← Outcome.expect block.transactions.head?
  verifyCoinbaseTransaction V ctx ghostdagData block coinbase
  verifyHeaderPruningPoint V ghostdagData block
  verifyFirstParent ghostdagData block
  verifyTransactions V ctx ghostdagData block utxoView poolView

end Verify

end Marigold.Consensus
