import Marigold.Consensus.Replay

/-!
# The selected chain

A chain block is qualified against the state of its selected parent, and its own state is that one
with the diffs of its mergeset. A run follows the chain from genesis, whose only transaction is its
coinbase, and keeps the history of everything accepted.
-/

namespace Marigold

open Lib NotePool Utxo Consensus

/-- The state with the diffs of a walk. -/
def Ledger.compose {M : Type} (ledger : Ledger) (ctx : UtxoProcessingContext M) : Ledger :=
  ⟨composedUtxoView ledger.utxos ctx.mergesetDiff, composedPoolView ledger.pool ctx.mergesetPoolDiff⟩

namespace Consensus

/-- A chain block, the state its own transactions are valid in, and the multiset kept for it. -/
structure ChainTip (M : Type) where
  block : Block
  ledger : Ledger
  multiset : M

section Chain

variable {M : Type}

variable (V : VirtualProcessor M)

/-- The walk of a block, or of virtual, with the tip as selected parent. -/
def ChainTip.walk (tip : ChainTip M) (mergeset : List Block) (pov : UInt64) : Outcome Empty (UtxoProcessingContext M) :=
  calculateUtxoState V (.new tip.multiset) tip.block mergeset tip.ledger.utxos tip.ledger.pool pov

/-- The next block of the chain: the walk over its mergeset succeeds and qualifies it. -/
structure Extends (V : VirtualProcessor M) (tip : ChainTip M) (next : Block) (mergeset : List Block)
    (ctx : UtxoProcessingContext M) : Prop where
  bodies : ∀ block ∈ next :: mergeset, BodyValid V.toBodyProcessor block
  walked : tip.walk V mergeset next.header.daaScore = .ok ctx
  qualified : ∃ ghostdagData poolState poolDiff, ghostdagData.selectedParent = tip.block.header.hash ∧
    composedPoolView poolState.lookup poolDiff = tip.ledger.pool ∧
    verifyExpectedUtxoState V ctx ghostdagData next tip.ledger.utxos tip.ledger.pool poolState poolDiff = .ok ()

/-- The transactions a walk accepts: the coinbase of the tip, then those of the merged blocks. -/
def acceptedBy (tip : ChainTip M) (mergeset : List Block) (coinbase : Transaction) (pov : UInt64) : List Transaction :=
  coinbase :: traceTxs (WalkInput.result V pov tip.ledger tip.block mergeset coinbase).2

/-- The blocks a chain consists of or has merged, the transactions it has accepted, and the ids the
walks have recorded as accepted. -/
structure ChainHistory where
  blocks : List Block
  accepted : List Transaction
  acceptedTxIds : List TransactionId

/-- The history with one more chain block. -/
def ChainHistory.next (history : ChainHistory) (V : VirtualProcessor M) (tip : ChainTip M)
    (block : Block) (mergeset : List Block) (ctx : UtxoProcessingContext M)
    (coinbase : Transaction) : ChainHistory where
  blocks := history.blocks ++ block :: mergeset
  accepted := history.accepted ++ acceptedBy V tip mergeset coinbase block.header.daaScore
  acceptedTxIds := history.acceptedTxIds ++ ctx.acceptedTxIds

/-- From one tip with its history to another one, block by block. -/
inductive Reaches (V : VirtualProcessor M) (start : ChainHistory) (origin : ChainTip M) :
    ChainHistory → ChainTip M → Prop where
  | refl : Reaches V start origin start origin
  | next {history : ChainHistory} {tip : ChainTip M} {block : Block} {mergeset : List Block}
      {ctx : UtxoProcessingContext M} {coinbase : Transaction}
      (run : Reaches V start origin history tip) (extends_ : Extends V tip block mergeset ctx)
      (first : tip.block.transactions.head? = some coinbase) :
      Reaches V start origin (history.next V tip block mergeset ctx coinbase)
        ⟨block, tip.ledger.compose ctx, ctx.multisetHash⟩

/-- The genesis block, over an empty state. -/
def genesisTip (genesis : Block) : ChainTip M :=
  ⟨genesis, ⟨fun _ => none, fun _ => none⟩, V.muHash.new⟩

/-- A run of the chain from genesis. -/
abbrev Chain (genesis : Block) : ChainHistory → ChainTip M → Prop :=
  Reaches V ⟨[genesis], [], []⟩ (genesisTip V genesis)

/-- All transactions of the block but its coinbase were fully validated in the given state. -/
def FullyValidated (block : Block) (ledger : Ledger) : Prop :=
  ∃ selectedParent, ∀ tx ∈ block.transactions.drop 1, ∃ vtx,
    validateTransactionInUtxoContext V.toTxContext tx ledger.utxos ledger.pool
      block.header.daaScore .full selectedParent = .ok vtx

variable {V : VirtualProcessor M}

private theorem mem_traceTxs {T : TxContext} {pov : UInt64} {selectedParent : Hash}
    {steps : List MergeStep} {ledger : Ledger} {tx : Transaction}
    (member : tx ∈ traceTxs (walkTrace T pov selectedParent ledger steps)) :
    ∃ step ∈ steps, tx ∈ step.block.transactions.drop 1 := by
  induction steps generalizing ledger with
  | nil => cases member
  | cons step rest ih =>
    rw [walkTrace, traceTxs, List.flatMap_cons, List.mem_append] at member
    rcases member with here | later
    · exact ⟨step, .head _, acceptedOf_sublist.subset here⟩
    · obtain ⟨step', inRest, found⟩ := ih later
      exact ⟨step', .tail _ inRest, found⟩

/-- What a walk accepts from the blocks is no coinbase. -/
theorem isCoinbase_of_trace {tip : ChainTip M} {mergeset : List Block}
    (wellFormed : ∀ b ∈ tip.block :: mergeset, BlockWellFormed V.toBodyProcessor b) {pov : UInt64}
    {coinbase tx : Transaction}
    (member : tx ∈ traceTxs (WalkInput.result V pov tip.ledger tip.block mergeset coinbase).2) :
    tx.isCoinbase = false := by
  obtain ⟨step, inSteps, found⟩ := mem_traceTxs member
  obtain ⟨_, rest, whole, _, others, _⟩ := (wellFormed _ (WalkInput.steps_mem inSteps)).coinbase
  rw [whole] at found
  exact others tx found

theorem Extends.fullyValidated {tip : ChainTip M} {next : Block} {mergeset : List Block}
    {ctx : UtxoProcessingContext M} (extends_ : Extends V tip next mergeset ctx) :
    FullyValidated V next (tip.ledger.compose ctx) := by
  obtain ⟨ghostdagData, poolState, poolDiff, _, _, qualified⟩ := extends_.qualified
  obtain ⟨validated, done, all⟩ := verifyExpectedUtxoState_validates qualified
  refine ⟨ghostdagData.selectedParent, fun tx member => ?_⟩
  have numbered : tx ∈ (next.transactions.zipIdx.drop 1).map Prod.fst := by
    rwa [List.map_drop, List.zipIdx_map_fst]
  obtain ⟨item, inBlock, rfl⟩ := List.mem_map.mp numbered
  obtain ⟨_, run⟩ := Outcome.filterOk_all done all item inBlock
  obtain ⟨vtx, valid, _⟩ := Outcome.bind_eq_ok.mp run
  exact ⟨vtx, valid⟩

/-- Every block of a chain has been fully validated in the state it is the tip with. -/
theorem Reaches.fullyValidated {start history : ChainHistory} {origin tip : ChainTip M}
    (run : Reaches V start origin history tip) (before : FullyValidated V origin.block origin.ledger) :
    FullyValidated V tip.block tip.ledger := by
  cases run with
  | refl => exact before
  | next _ extends_ _ => exact extends_.fullyValidated

end Chain

end Consensus

end Marigold
