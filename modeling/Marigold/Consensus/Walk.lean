import Marigold.Consensus.Body

/-!
# The walk over a mergeset

`calculate_utxo_state` (`virtual_processor/utxo_validation.rs`): from the state of the selected
parent, the state of a block with the given mergeset. The transactions of each merged block are
validated against one snapshot and the valid ones merged into two diffs, the UTXO one and the pool
one. MuHash is kept abstract, as a type of multisets with its operations.
-/

namespace Marigold.Consensus

open Lib NotePool Utxo

structure MuHashOps (M : Type) where
  new : M
  addUtxo : M → TransactionOutpoint → UtxoEntry → M
  removeUtxo : M → TransactionOutpoint → UtxoEntry → M
  combine : M → M → M
  finalize : M → Hash

/-- `add_transaction` of `MuHashExtensions`. -/
def MuHashOps.addTransaction {M : Type} (mu : MuHashOps M) (H : Hashers) (m : M)
    (vtx : ValidatedTransaction) (blockDaaScore : UInt64) : M :=
  let m := (spentEntries vtx.tx vtx.entries).foldl (fun m e => mu.removeUtxo m e.1 e.2) m
  (createdEntries H vtx.tx blockDaaScore).foldl (fun m e => mu.addUtxo m e.1 e.2) m

structure AcceptedTxEntry where
  transactionId : TransactionId
  indexWithinBlock : UInt32
  deriving DecidableEq, Repr

structure MergesetBlockAcceptanceData where
  blockHash : Hash
  acceptedTransactions : List AcceptedTxEntry
  deriving DecidableEq, Repr

structure UtxoProcessingContext (M : Type) where
  multisetHash : M
  mergesetDiff : UtxoDiff
  mergesetPoolDiff : PoolDiff
  acceptedTxIds : List TransactionId
  acceptedTxVersions : List UInt16
  mergesetAcceptanceData : List MergesetBlockAcceptanceData
  mergesetRewards : Map Hash BlockRewardData

def UtxoProcessingContext.new {M : Type} (selectedParentMultisetHash : M) : UtxoProcessingContext M :=
  ⟨selectedParentMultisetHash, .empty, .empty, [], [], [], ∅⟩

/-- The walk and its callers; body validation happened before with the same services. Sequencing
commitments, pruning points and the DAA window are computed by other parts of the node. -/
structure VirtualProcessor (M : Type) extends BodyProcessor where
  muHash : MuHashOps M
  /-- The hash of a whole transaction. -/
  txHash : Transaction → Hash
  recomputeSeqCommit : UtxoProcessingContext M → GhostdagData → Header → Hash
  expectedHeaderPruningPoint : GhostdagData → Hash
  mergesetNonDaa : Hash → List Hash

/-- `ValidatedTransaction::new_coinbase`. -/
def ValidatedTransaction.coinbase (tx : Transaction) : ValidatedTransaction := ⟨tx, [], 0, none⟩

/-- All valid transactions but the coinbase, in order, with their indices in the block. -/
def validateTransactionsInParallel {ε : Type} (T : TxContext) (txs : List Transaction)
    (utxoView : UtxoView) (poolView : PoolView) (povDaaScore : UInt64)
    (flags : TxValidationFlags) (selectedParent : Hash) :
    Outcome ε (List (ValidatedTransaction × UInt32)) :=
  Outcome.filterOk (fun (item : Transaction × Nat) => do
    let vtx ← validateTransactionInUtxoContext T item.1 utxoView poolView povDaaScore flags selectedParent
    return (vtx, UInt32.ofNat item.2)) (txs.zipIdx.drop 1)

section Walk

variable {M : Type} (V : VirtualProcessor M)

/-- The multiset of the accepted transactions of a block, combined one by one. -/
def innerMultiset (vtxs : List (ValidatedTransaction × UInt32)) (povDaaScore : UInt64) : M :=
  vtxs.foldl (fun m vtx => V.muHash.combine m
    (V.muHash.addTransaction V.crypto.hashers V.muHash.new vtx.1 povDaaScore)) V.muHash.new

/-- `with_diff_in_place(&pool_op.diff).unwrap()` for a pool op. -/
def mergePoolOp (diff : PoolDiff) (poolOp : Option ValidatedPoolOp) : Outcome Empty PoolDiff :=
  match poolOp with
  | none => .ok diff
  | some op =>
    match diff.withDiffInPlace op.diff with
    | (.ok _, merged) => .ok merged
    | (.error _, _) => .panicked .unwrap

/-- The loop over the validated transactions of a block, with the fees so far. -/
def mergeTransaction (povDaaScore : UInt64) (acc : UtxoProcessingContext M × UInt64)
    (vtx : ValidatedTransaction × UInt32) : Outcome Empty (UtxoProcessingContext M × UInt64) := do
  let ctx := acc.1
  let diff ← Outcome.unwrap (ctx.mergesetDiff.addTransaction V.crypto.hashers vtx.1.tx vtx.1.entries povDaaScore)
  let poolDiff ← mergePoolOp ctx.mergesetPoolDiff vtx.1.validatedPoolOp
  let blockFee ← Outcome.add acc.2 vtx.1.calculatedFee
  return ({ ctx with
    mergesetDiff := diff
    mergesetPoolDiff := poolDiff
    acceptedTxIds := ctx.acceptedTxIds ++ [vtx.1.tx.id V.crypto.hashers]
    acceptedTxVersions := ctx.acceptedTxVersions ++ [vtx.1.tx.version] }, blockFee)

def acceptanceData (block : Block) (coinbase : List AcceptedTxEntry)
    (vtxs : List (ValidatedTransaction × UInt32)) : MergesetBlockAcceptanceData :=
  ⟨block.header.hash, coinbase ++ vtxs.map fun vtx => ⟨vtx.1.tx.id V.crypto.hashers, vtx.2⟩⟩

/-- The reward data recorded for a merged block. -/
def rewardData (block : Block) (blockFee : UInt64) : Outcome Empty BlockRewardData := do
  let coinbase ← Outcome.expect block.transactions.head?
  let data ← Outcome.unwrap (V.coinbaseManager.deserializeCoinbasePayload coinbase.payload)
  return ⟨data.subsidy, blockFee, data.minerData.scriptPublicKey⟩

/-- One iteration of the loop over the mergeset. -/
def mergeBlock (utxoView : UtxoView) (poolView : PoolView) (povDaaScore : UInt64)
    (selectedParent : Hash) (flags : TxValidationFlags) (coinbase : List AcceptedTxEntry)
    (ctx : UtxoProcessingContext M) (block : Block) : Outcome Empty (UtxoProcessingContext M) := do
  let vtxs ← validateTransactionsInParallel V.toTxContext block.transactions
    (composedUtxoView utxoView ctx.mergesetDiff) (composedPoolView poolView ctx.mergesetPoolDiff)
    povDaaScore flags selectedParent
  let combined := { ctx with
    multisetHash := V.muHash.combine ctx.multisetHash (innerMultiset V vtxs povDaaScore) }
  let (merged, blockFee) ← vtxs.foldlM (mergeTransaction V povDaaScore) (combined, 0)
  let reward ← rewardData V block blockFee
  return { merged with
    mergesetAcceptanceData := merged.mergesetAcceptanceData ++ [acceptanceData V block coinbase vtxs]
    mergesetRewards := merged.mergesetRewards.insert block.header.hash reward }

/-- The coinbase of the selected parent comes before everything else. -/
def acceptCoinbase (povDaaScore : UInt64) (ctx : UtxoProcessingContext M) (coinbase : Transaction) :
    Outcome Empty (UtxoProcessingContext M) := do
  let diff ← Outcome.unwrap (ctx.mergesetDiff.addTransaction V.crypto.hashers coinbase [] povDaaScore)
  return { ctx with
    mergesetDiff := diff
    multisetHash := V.muHash.addTransaction V.crypto.hashers ctx.multisetHash (.coinbase coinbase) povDaaScore }

/-- `calculate_utxo_state`: `mergeset` is the mergeset without the selected parent, in consensus
order. The selected parent's transactions are replayed without script checks. -/
def calculateUtxoState (ctx : UtxoProcessingContext M) (selectedParent : Block)
    (mergeset : List Block) (utxoView : UtxoView) (poolView : PoolView) (povDaaScore : UInt64) :
    Outcome Empty (UtxoProcessingContext M) := do
  let coinbase ← Outcome.expect selectedParent.transactions.head?
  let ctx ← acceptCoinbase V povDaaScore ctx coinbase
  let ctx ← mergeBlock V utxoView poolView povDaaScore selectedParent.header.hash .skipScriptChecks
    [⟨coinbase.id V.crypto.hashers, 0⟩] ctx selectedParent
  mergeset.foldlM (mergeBlock V utxoView poolView povDaaScore selectedParent.header.hash .full []) ctx

end Walk

end Marigold.Consensus
