import Marigold.Consensus.Dag
import Marigold.NotePool.Store

/-!
# Moving between chain blocks

`calculate_utxo_state_relatively` (`virtual_processor/processor.rs`): two accumulated diffs lead from
the virtual stores to the state of some chain block. To move to another block, the stored diffs are
taken out in reverse down to the split point, then put in upwards; blocks that were never a chain
block are computed and verified on the way, and stored or disqualified.
-/

namespace Marigold.Consensus

open Lib NotePool Utxo

inductive BlockStatus where
  | invalid
  | utxoValid
  | utxoPendingVerification
  | disqualifiedFromChain
  | headerOnly
  deriving DecidableEq, Repr

/-- What is stored for the blocks that have been chain blocks. -/
structure ChainStores (M : Type) where
  utxoDiffs : Map Hash UtxoDiff
  notepoolDiffs : Map Hash PoolDiff
  utxoMultisets : Map Hash M
  acceptanceData : Map Hash (List MergesetBlockAcceptanceData)
  statuses : Hash → BlockStatus

/-- The stored state of virtual: the two sets, the sink, and the diffs from the sink to virtual. -/
structure VirtualStores where
  utxoSet : UtxoCollection
  poolState : DbNotePoolStore
  sink : Hash
  utxoDiff : UtxoDiff
  poolDiff : PoolDiff

/-- Diffs from the virtual stores to a block's state. -/
structure Accumulated where
  diff : UtxoDiff
  poolDiff : PoolDiff

/-- A walk between chain blocks, and the block its diffs belong to. -/
structure ChainWalk (M : Type) extends Accumulated where
  diffPoint : Hash
  stores : ChainStores M

/-- `insert_batch`: no store overwrites a row. -/
def insertNew {V : Type} (store : Map Hash V) (hash : Hash) (v : V) : Outcome Empty (Map Hash V) :=
  if hash ∈ store then .panicked .unwrap else .ok (store.insert hash v)

/-- `unwrap` on the result of a call that has changed its receiver. -/
def unwrapInPlace {ε D : Type} : Except ε Unit × D → Outcome Empty D
  | (.ok (), d) => .ok d
  | (.error _, _) => .panicked .unwrap

def Accumulated.withDiffs (acc : Accumulated) (diff : UtxoDiff) (poolDiff : PoolDiff) : Outcome Empty Accumulated := do
  let merged ← unwrapInPlace (acc.diff.withDiffInPlace diff)
  let mergedPool ← unwrapInPlace (acc.poolDiff.withDiffInPlace poolDiff)
  return ⟨merged, mergedPool⟩

namespace VirtualStores

/-- The UTXO view of the block the diffs belong to. -/
def utxoView (virtual : VirtualStores) (acc : Accumulated) : UtxoView :=
  composedUtxoView virtual.utxoSet.lookup acc.diff

def poolView (virtual : VirtualStores) (acc : Accumulated) : PoolView :=
  composedPoolView virtual.poolState.getNote acc.poolDiff

end VirtualStores

section Walk

variable {M : Type}

variable (stores : ChainStores M)

def ChainStores.disqualify (block : Hash) : ChainStores M :=
  { stores with statuses := Function.update stores.statuses block .disqualifiedFromChain }

def commitUtxoState (current : Hash) (ctx : UtxoProcessingContext M) : Outcome Empty (ChainStores M) := do
  return {
    utxoDiffs := ← insertNew stores.utxoDiffs current ctx.mergesetDiff
    notepoolDiffs := ← insertNew stores.notepoolDiffs current ctx.mergesetPoolDiff
    utxoMultisets := ← insertNew stores.utxoMultisets current ctx.multisetHash
    acceptanceData := ← insertNew stores.acceptanceData current ctx.mergesetAcceptanceData
    statuses := Function.update stores.statuses current .utxoValid }

/-- The stored diffs of a block. -/
def ChainStores.diffs (block : Hash) : Outcome Empty (UtxoDiff × PoolDiff) := do
  return (← Outcome.expect (stores.utxoDiffs.lookup block), ← Outcome.expect (stores.notepoolDiffs.lookup block))

variable (V : VirtualProcessor M) (D : Dag) (virtual : VirtualStores)

/-- The walk down to the split point. -/
def unwind (stores : ChainStores M) (target : Hash) : List Hash → Accumulated → Outcome Empty (Hash × Accumulated)
  | [], _ => .panicked .unwrap
  | current :: rest, acc =>
    if D.isChainAncestorOf current target then .ok (current, acc)
    else do
      let (diff, poolDiff) ← stores.diffs current
      let acc ← acc.withDiffs diff.reversed poolDiff.reversed
      unwind stores target rest acc

variable (walk : ChainWalk M)

/-- A block that is not stored yet: its state is computed, and verified against its header. -/
def verifyChainBlock (selectedParent current : Hash) : Outcome Empty (ChainWalk M) := do
  let multiset ← Outcome.expect (walk.stores.utxoMultisets.lookup selectedParent)
  let utxoView := virtual.utxoView walk.toAccumulated
  let poolView := virtual.poolView walk.toAccumulated
  let ctx ← calculateUtxoState V (.new multiset) (D.block (D.selectedParent current))
    (D.mergesetBlocks current) utxoView poolView (D.header current).daaScore
  match verifyExpectedUtxoState V ctx (D.ghostdagData current) (D.block current) utxoView poolView
      virtual.poolState.toMap walk.poolDiff with
  | .error (.panic cause) => .panicked cause
  | .error (.rule _) => return { walk with stores := walk.stores.disqualify current }
  | .ok () =>
    let acc ← walk.withDiffs ctx.mergesetDiff ctx.mergesetPoolDiff
    return ⟨acc, current, ← commitUtxoState walk.stores current ctx⟩

/-- One step up, from the selected parent to the next chain block. -/
def climb (step : Hash × Hash) : Outcome Empty (ChainWalk M) :=
  if step.1 ≠ walk.diffPoint then
    .ok { walk with stores := walk.stores.disqualify step.2 }
  else
    match walk.stores.utxoDiffs.lookup step.2 with
    | some _ => do
      let (diff, poolDiff) ← walk.stores.diffs step.2
      let acc ← walk.withDiffs diff poolDiff
      return ⟨acc, step.2, walk.stores⟩
    | none =>
      if walk.stores.statuses step.2 = .disqualifiedFromChain then .ok walk
      else verifyChainBlock V D virtual walk step.1 step.2

/-- From the block the walk is at towards `target`; it ends at the top-most valid block of its chain,
or does not move if `target` is known to be disqualified. -/
def calculateUtxoStateRelatively (target : Hash) : Outcome Empty (ChainWalk M) :=
  if walk.stores.statuses target = .disqualifiedFromChain then .ok walk
  else do
    let (splitPoint, acc) ← unwind D walk.stores target (D.backwardChain walk.diffPoint) walk.toAccumulated
    let chain := D.forwardChain splitPoint target
    (chain.zip chain.tail).foldlM (climb V D virtual) ⟨acc, splitPoint, walk.stores⟩

/-- The start of a virtual resolution: virtual's own diffs, reversed, lead to the sink. -/
def ChainWalk.fromSink (virtual : VirtualStores) (stores : ChainStores M) : ChainWalk M :=
  ⟨⟨virtual.utxoDiff.reversed, virtual.poolDiff.reversed⟩, virtual.sink, stores⟩

/-- One candidate after another. -/
def tryCandidates (candidates : List Hash) : Outcome Empty (ChainWalk M) :=
  candidates.foldlM (calculateUtxoStateRelatively V D virtual) walk

/-- `calculate_virtual_state` and `commit_virtual_state` with the walk's block as sink: virtual's own
mergeset is walked over, and the accumulated diffs are written to the stores. -/
def commitVirtualState (mergeset : List Block) (daaScore : UInt64) : Outcome Empty VirtualStores := do
  let multiset ← Outcome.expect (walk.stores.utxoMultisets.lookup walk.diffPoint)
  let ctx ← calculateUtxoState V (.new multiset) (D.block walk.diffPoint) mergeset
    (virtual.utxoView walk.toAccumulated) (virtual.poolView walk.toAccumulated) daaScore
  let acc ← walk.withDiffs ctx.mergesetDiff ctx.mergesetPoolDiff
  return {
    utxoSet := virtual.utxoSet.writeDiff acc.diff
    poolState := virtual.poolState.apply acc.poolDiff
    sink := walk.diffPoint
    utxoDiff := ctx.mergesetDiff
    poolDiff := ctx.mergesetPoolDiff }

end Walk

end Marigold.Consensus
