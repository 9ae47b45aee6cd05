import Marigold.Consensus.Chain

/-!
# Spends are signed

On a chain a note disappears from the pool only if its owner signed for it. The transaction that
consumes it may be accepted by a replay that checks no signature; but the block replayed is on the
chain, so all its transactions had been fully validated in the same state.
-/

namespace Marigold.Consensus

open Lib NotePool Utxo Outcome

section Touched

variable {M : Type} {V : VirtualProcessor M} {pov : UInt64} {utxoView : UtxoView}
  {poolView : PoolView} {selectedParent : Hash} {flags : TxValidationFlags} {sn : Hash}
  {entry : PoolEntry} {op : PoolOp} {ctx ctx' : UtxoProcessingContext M} {block : Block}

/-- The validated transaction changes nothing under the serial. -/
def Untouched (sn : Hash) (vtx : ValidatedTransaction) : Prop :=
  ∀ v, vtx.validatedPoolOp = some v → v.diff.cell sn = ⟨none, none⟩

private theorem mergePoolOp_untouched {diff diff' : PoolDiff} {vtx : ValidatedTransaction}
    (done : mergePoolOp diff vtx.validatedPoolOp = .ok diff') (silent : diff.cell sn = ⟨none, none⟩)
    (untouched : Untouched sn vtx) : diff'.cell sn = ⟨none, none⟩ := by
  cases validated : vtx.validatedPoolOp with
  | none =>
    rw [validated] at done
    rwa [← Except.ok.inj done]
  | some v =>
    rw [validated, mergePoolOp] at done
    rcases PoolDiff.withDiffInPlace_cases diff v.diff with
      ⟨_, _, failed⟩ | ⟨_, _, failed⟩ | ⟨merged, ok, cells⟩
    · simp [failed, Outcome.panicked] at done
    · simp [failed, Outcome.panicked] at done
    · rw [ok] at done
      cases done
      rw [cells, silent, untouched v validated]
      rfl

private theorem mergeTransactions_untouched (vtxs : List (ValidatedTransaction × UInt32))
    {acc acc' : UtxoProcessingContext M × UInt64} (done : vtxs.foldlM (mergeTransaction V pov) acc = .ok acc')
    (silent : acc.1.mergesetPoolDiff.cell sn = ⟨none, none⟩) (untouched : ∀ vtx ∈ vtxs, Untouched sn vtx.1) :
    acc'.1.mergesetPoolDiff.cell sn = ⟨none, none⟩ := by
  induction vtxs generalizing acc with
  | nil =>
    cases done
    exact silent
  | cons vtx rest ih =>
    obtain ⟨acc₁, first, done⟩ := foldlM_cons_eq_ok.mp done
    obtain ⟨_, _, _, merged, _, same⟩ := mergeTransaction_eq_ok.mp first
    rw [List.forall_mem_cons] at untouched
    apply ih done _ untouched.2
    rw [same]
    exact mergePoolOp_untouched merged silent untouched.1

theorem consumed_of_touched {H : Hashers} {txId : TransactionId} {v : ValidatedPoolOp}
    (effect : OpEffect H txId op poolView v) (live : poolView sn = some entry)
    (touched : v.diff.cell sn ≠ ⟨none, none⟩) : sn ∈ op.consumedSerials := by
  by_contra kept
  have notCreated : sn ∉ (op.createdNotes H txId).map Prod.fst := by
    intro created
    exact nomatch live.symm.trans (effect.fits.fresh sn created)
  have silent := effect.silent sn notCreated
  obtain ⟨_, read⟩ := effect.reads sn
  -- Nothing is added, so a change is a removal, and then the op would have to consume the serial.
  have unchanged : (op.update H txId).apply poolView sn = some entry := by
    rw [← live]
    apply Update.apply_of_notMem
    intro inKeys
    exact (List.mem_append.mp inKeys).elim kept notCreated
  rw [unchanged] at read
  apply touched
  apply Cell.ext silent
  cases removes : (v.diff.cell sn).remove with
  | none => rfl
  | some old => simp [Cell.apply, silent, removes] at read

/-- A transaction of the block that consumes the serial and is recorded as accepted. -/
structure AcceptedSpend (V : VirtualProcessor M) (ctx : UtxoProcessingContext M) (block : Block)
    (tx : Transaction) (op : PoolOp) (sn : Hash) : Prop where
  inBlock : tx ∈ block.transactions.drop 1
  decoded : tx.poolOp = some op
  consumed : sn ∈ op.consumedSerials
  recorded : ∃ data ∈ ctx.mergesetAcceptanceData, data.blockHash = block.header.hash ∧
    ∃ item ∈ data.acceptedTransactions, item.transactionId = tx.id V.crypto.hashers

theorem AcceptedSpend.later {tx : Transaction} (spend : AcceptedSpend V ctx block tx op sn)
    {rest : List MergesetBlockAcceptanceData}
    (extended : ctx'.mergesetAcceptanceData = ctx.mergesetAcceptanceData ++ rest) :
    AcceptedSpend V ctx' block tx op sn := by
  obtain ⟨data, member, found⟩ := spend.recorded
  refine ⟨spend.inBlock, spend.decoded, spend.consumed, data, ?_, found⟩
  rw [extended]
  exact List.mem_append_left rest member

/-- A block merged while the diff says nothing about a live serial: it stays so, or a transaction of
the block consumes the entry that was live before the walk. -/
theorem mergeBlock_touches {coinbase : List AcceptedTxEntry}
    (done : mergeBlock V utxoView poolView pov selectedParent flags coinbase ctx block = .ok ctx')
    (silent : ctx.mergesetPoolDiff.cell sn = ⟨none, none⟩) (live : poolView sn = some entry) :
    ctx'.mergesetPoolDiff.cell sn = ⟨none, none⟩ ∨
      ∃ tx op, ∃ ledger : Ledger, ∃ vtx, AcceptedSpend V ctx' block tx op sn ∧ ledger.pool sn = some entry ∧
        validateTransactionInUtxoContext V.toTxContext tx ledger.utxos ledger.pool pov flags
          selectedParent = .ok vtx := by
  obtain ⟨vtxs, merged, _, _, validated, looped, -, rfl⟩ := mergeBlock_eq_ok done
  have snapshot : composedPoolView poolView ctx.mergesetPoolDiff sn = some entry := by
    rw [composedPoolView_eq, silent, live]
    rfl
  by_cases untouched : ∀ vtx ∈ vtxs, Untouched sn vtx.1
  · exact .inl (mergeTransactions_untouched vtxs looped silent untouched)
  · right
    obtain ⟨⟨vtx, index⟩, member, touched⟩ : ∃ vtx ∈ vtxs, ¬ Untouched sn vtx.1 := by
      simpa using untouched
    obtain ⟨v, op', touches⟩ : ∃ v, vtx.validatedPoolOp = some v ∧ v.diff.cell sn ≠ ⟨none, none⟩ := by
      simpa [Untouched] using touched
    have inBlock : vtx ∈ acceptedOf V.toTxContext block.transactions
        ⟨composedUtxoView utxoView ctx.mergesetDiff, composedPoolView poolView ctx.mergesetPoolDiff⟩
        pov flags selectedParent := by
      rw [← validateTransactionsInParallel_fst validated]
      exact List.mem_map.mpr ⟨_, member, rfl⟩
    obtain ⟨inBlock, valid⟩ := acceptedIn_of_mem inBlock
    rcases (validateTransactionInUtxoContext_accepted valid).pool with
      ⟨_, none⟩ | ⟨op, v', decoded, some, effect⟩
    · exact nomatch op'.symm.trans none
    · cases op'.symm.trans some
      refine ⟨vtx.tx, op, _, vtx, ⟨inBlock, decoded, consumed_of_touched effect snapshot touches, ?_⟩, snapshot, valid⟩
      refine ⟨_, List.mem_append_right _ (List.mem_singleton.mpr rfl), rfl,
        ⟨vtx.tx.id V.crypto.hashers, index⟩, List.mem_append_right _ ?_, rfl⟩
      exact List.mem_map.mpr ⟨_, member, rfl⟩

/-- The fully validated part of the mergeset: the first block to touch the serial consumes it. -/
theorem mergeBlocks_touches (blocks : List Block)
    (done : blocks.foldlM (mergeBlock V utxoView poolView pov selectedParent .full []) ctx = .ok ctx')
    (silent : ctx.mergesetPoolDiff.cell sn = ⟨none, none⟩) (live : poolView sn = some entry) :
    ctx'.mergesetPoolDiff.cell sn = ⟨none, none⟩ ∨
      ∃ block ∈ blocks, ∃ tx op, ∃ ledger : Ledger, ∃ vtx, AcceptedSpend V ctx' block tx op sn ∧
        ledger.pool sn = some entry ∧
        validateTransactionInUtxoContext V.toTxContext tx ledger.utxos ledger.pool pov .full
          selectedParent = .ok vtx := by
  induction blocks generalizing ctx with
  | nil =>
    cases done
    exact .inl silent
  | cons block rest ih =>
    obtain ⟨ctx₁, first, done⟩ := foldlM_cons_eq_ok.mp done
    rcases mergeBlock_touches first silent live with silent₁ | ⟨tx, op, ledger, vtx, spend, found⟩
    · rcases ih done silent₁ with still | ⟨block', member, found⟩
      · exact .inl still
      · exact .inr ⟨block', .tail _ member, found⟩
    · obtain ⟨_, extended⟩ := mergeBlocks_acceptanceData rest done
      exact .inr ⟨block, .head _, tx, op, ledger, vtx, spend.later extended, found⟩

end Touched

/-- On every chain: a note live at a tip and not live after a walk over it, for the next chain block
or for virtual, was consumed by an accepted transaction with a signature of the key that could spend
it. The signature was checked when the transaction was fully validated: at the tip's own score if the
tip holds it, at the score of the walk otherwise. -/
theorem chain_spends_authorized {M : Type} (V : VirtualProcessor M) (genesis : Block)
    (alone : genesis.transactions.drop 1 = []) (history : ChainHistory) (tip : ChainTip M)
    (run : Chain V genesis history tip) (mergeset : List Block) (pov : UInt64)
    (ctx : UtxoProcessingContext M) (walked : tip.walk V mergeset pov = .ok ctx) (sn : Hash)
    (entry : PoolEntry) (live : tip.ledger.pool sn = some entry)
    (gone : (tip.ledger.compose ctx).pool sn = none) :
    ∃ block tx op p,
      (block = tip.block ∧ p = tip.block.header.daaScore ∨ block ∈ mergeset ∧ p = pov) ∧
      AcceptedSpend V ctx block tx op sn ∧
      (∃ ledger : Ledger, ∃ selectedParent vtx, ledger.pool sn = some entry ∧
        validateTransactionInUtxoContext V.toTxContext tx ledger.utxos ledger.pool p .full
          selectedParent = .ok vtx) ∧
      SpendAuthorized V.crypto op tx.outputs p sn entry := by
  obtain ⟨selectedParent, qualified⟩ := run.fullyValidated ⟨0, by simp [genesisTip, alone]⟩
  rw [ChainTip.walk, calculateUtxoState] at walked
  obtain ⟨coinbase, _, walked⟩ := bind_eq_ok.mp walked
  obtain ⟨ctx₀, accepted, walked⟩ := bind_eq_ok.mp walked
  obtain ⟨ctx₁, replayed, walked⟩ := bind_eq_ok.mp walked
  -- The coinbase leaves the pool alone.
  have silent : ctx₀.mergesetPoolDiff.cell sn = ⟨none, none⟩ := by
    obtain ⟨_, _, accepted⟩ := bind_eq_ok.mp accepted
    obtain rfl := Except.ok.inj accepted
    rfl
  rcases mergeBlock_touches replayed silent live with silent₁ | ⟨tx, op, _, _, spend, _, _⟩
  · rcases mergeBlocks_touches mergeset walked silent₁ live with
      still | ⟨block, member, tx, op, ledger, vtx, spend, there, valid⟩
    · change composedPoolView tip.ledger.pool ctx.mergesetPoolDiff sn = none at gone
      rw [composedPoolView_eq, still, live] at gone
      cases gone
    · exact ⟨block, tx, op, pov, .inr ⟨member, rfl⟩, spend, ⟨ledger, _, vtx, there, valid⟩,
        validateTransactionInUtxoContext_authorized valid spend.decoded sn spend.consumed entry there⟩
  · -- The replay checked no signature, but the tip's own qualification did, in the same state.
    obtain ⟨_, extended⟩ := mergeBlocks_acceptanceData mergeset walked
    obtain ⟨vtx, valid⟩ := qualified tx spend.inBlock
    exact ⟨tip.block, tx, op, _, .inl ⟨rfl, rfl⟩, spend.later extended,
      ⟨tip.ledger, selectedParent, vtx, live, valid⟩,
      validateTransactionInUtxoContext_authorized valid spend.decoded sn spend.consumed entry live⟩

namespace Sample

def genesis : Block := block 1 0 0 [earlierCoinbase]

/-- The note `mint 0 7` makes. -/
def mintedSerial : Hash := serialHash hashers ((mint 0 7).id hashers) 0

/-- Turns the note back into an output. -/
def redeem : Transaction where
  version := 1
  inputs := []
  outputs := [⟨100000000, ⟨0, []⟩, none⟩]
  lockTime := 0
  subnetworkId := SubnetworkId.notePool
  gas := 0
  payload := [2] ++ u32LE 1 ++ u32LE 1 ++ Hash.asBytes mintedSerial ++ List.replicate 64 0 ++ u64LE 15
  storageMass := 0

/-- Its coinbase pays the fee of the mint. -/
def redeeming : Block := block 3 2 20 [coinbase 4 [100000000], redeem]

/-- What the walk of a block leaves that merges nothing but the tip. -/
def walked (tip : ChainTip Unit) (next : Block) : UtxoProcessingContext Unit :=
  (tip.walk node [] next.header.daaScore).toOption.getD (.new ())

def advance (tip : ChainTip Unit) (next : Block) : ChainTip Unit :=
  ⟨next, tip.ledger.compose (walked tip next), (walked tip next).multisetHash⟩

def mintingTip : ChainTip Unit := advance (genesisTip node genesis) minting

def redeemingTip : ChainTip Unit := advance mintingTip redeeming

theorem eq_ok_of_isSome {ε : Type} {x : Outcome ε Unit} (ok : x.toOption.isSome = true) : x = .ok () := by
  cases x with
  | error e => cases ok
  | ok _ => rfl

theorem extends_minting :
    Extends node (genesisTip node genesis) minting [] (walked (genesisTip node genesis) minting) where
  bodies := List.forall_mem_singleton.mpr ⟨⟨_, rfl⟩, rfl⟩
  walked := rfl
  qualified := ⟨mintingGhostdag, ∅, .empty, rfl, rfl, rfl⟩

set_option maxRecDepth 4000 in
theorem extends_redeeming : Extends node mintingTip redeeming [] (walked mintingTip redeeming) where
  bodies := List.forall_mem_singleton.mpr ⟨⟨_, rfl⟩, rfl⟩
  walked := rfl
  qualified := ⟨⟨0, 2, [2], []⟩, ∅, .empty, rfl, rfl, eq_ok_of_isSome (by decide +kernel)⟩

/-- Genesis, a block that mints a note and a block that redeems it. -/
theorem chain_redeeming : ∃ history, Chain node genesis history redeemingTip :=
  ⟨_, .next (.next .refl extends_minting rfl) extends_redeeming rfl⟩

end Sample

open Sample in
set_option maxRecDepth 4000 in
/-- The minted note is redeemed: it is gone after the walk over the redeeming block, which replays
it at score 30; the signature was checked at score 20. -/
theorem chain_spends_authorized_redeem :
    ∃ tx op, AcceptedSpend node (walked redeemingTip (block 4 3 30 []))
        redeeming tx op mintedSerial ∧
      SpendAuthorized node.crypto op tx.outputs 20 mintedSerial (.unlocked ⟨.d1, 7⟩) := by
  obtain ⟨history, run⟩ := chain_redeeming
  obtain ⟨block, tx, op, p, place, spend, _, authorized⟩ :=
    chain_spends_authorized node genesis rfl history redeemingTip run [] 30
      (walked redeemingTip (block 4 3 30 [])) rfl mintedSerial
      (.unlocked ⟨.d1, 7⟩) rfl rfl
  obtain ⟨rfl, rfl⟩ | ⟨none, _⟩ := place
  · exact ⟨tx, op, spend, authorized⟩
  · cases none

end Marigold.Consensus
