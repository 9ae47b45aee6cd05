import Marigold.Consensus.Conservation
import Marigold.Consensus.Verify

/-!
# Replay of the selected parent

A block on the selected chain was qualified with every one of its transactions fully validated, at
its own DAA score. A child that replays it skips scripts, signatures and freshness. The checks that
are left only get easier with a later score, so the replay accepts what qualification accepted, with
the same diffs and fees.
-/

namespace Marigold.Consensus

open Lib NotePool Utxo Outcome

section Qualified

variable {M : Type} {V : VirtualProcessor M} {ctx : UtxoProcessingContext M}
  {ghostdagData : GhostdagData} {block : Block} {utxoView : UtxoView} {poolView : PoolView}
  {poolState : PoolCollection} {poolDiff : PoolDiff}

theorem verifyExpectedUtxoState_validates
    (qualified : verifyExpectedUtxoState V ctx ghostdagData block utxoView poolView poolState poolDiff = .ok ()) :
    ∃ validated, (validateTransactionsInParallel V.toTxContext block.transactions
        (composedUtxoView utxoView ctx.mergesetDiff) (composedPoolView poolView ctx.mergesetPoolDiff)
        block.header.daaScore .full ghostdagData.selectedParent : Outcome RuleError _) =
        .ok validated ∧ (block.transactions.zipIdx.drop 1).length ≤ validated.length := by
  unfold verifyExpectedUtxoState at qualified
  obtain ⟨_, _, qualified⟩ := bind_eq_ok.mp qualified
  obtain ⟨_, _, qualified⟩ := bind_eq_ok.mp qualified
  obtain ⟨_, _, qualified⟩ := bind_eq_ok.mp qualified
  obtain ⟨_, _, qualified⟩ := bind_eq_ok.mp qualified
  obtain ⟨_, _, qualified⟩ := bind_eq_ok.mp qualified
  obtain ⟨_, _, qualified⟩ := bind_eq_ok.mp qualified
  obtain ⟨_, _, qualified⟩ := bind_eq_ok.mp qualified
  obtain ⟨validated, done, qualified⟩ := bind_eq_ok.mp qualified
  refine ⟨validated, done, ?_⟩
  simp only at qualified
  split_ifs at qualified with few
  · simp [Outcome.reject] at qualified
  · simpa using Nat.not_lt.mp few

end Qualified

theorem addTransaction_coinbase {H : Hashers} {coinbase : Transaction} (pov : UInt64)
    (few : coinbase.outputs.length ≤ 2 ^ 32) : ∃ diff, UtxoDiff.empty.addTransaction H coinbase [] pov = .ok diff ∧
      ∀ outpoint ∉ (createdEntries H coinbase pov).map Prod.fst, diff.cell outpoint = ⟨none, none⟩ := by
  have spent : spentEntries coinbase [] = [] := by simp [spentEntries]
  -- Any base will do, so the empty one: there a valid cell can only add.
  have start : UtxoDiff.empty.Reads (fun _ => none) (fun _ => none) := Represents.empty _
  obtain ⟨diff, added, reads⟩ : ∃ diff, UtxoDiff.empty.addTransaction H coinbase [] pov = .ok diff ∧
      diff.Reads (fun _ => none) (UtxoDiff.applyTransaction (fun _ => none)
        (spentEntries coinbase []) (createdEntries H coinbase pov)) :=
    UtxoDiff.addTransaction_reads start (by simp [spent]) (by simp [spent])
      (createdEntries_nodup few) (by simp [spent]) (by simp)
  refine ⟨diff, added, fun outpoint other => ?_⟩
  obtain ⟨valid, read⟩ := reads outpoint
  have nothing : UtxoDiff.applyTransaction (fun _ => none) (spentEntries coinbase [])
      (createdEntries H coinbase pov) outpoint = none := by
    simp [UtxoDiff.applyTransaction, addAll, lookup_eq_none_of_notMem other, spent]
  rw [nothing] at read
  apply Cell.ext
  · cases adds : (diff.cell outpoint).add with
    | none => rfl
    | some entry => cases (Cell.apply_of_add adds none).symm.trans read
  · cases removes : (diff.cell outpoint).remove with
    | none => rfl
    | some entry => cases valid.removed entry removes

/-! ## What the walk records of a block -/

section Acceptance

variable {M : Type} {V : VirtualProcessor M} {pov : UInt64} {utxoView : UtxoView}
  {poolView : PoolView} {selectedParent : Hash}

theorem mergeBlock_acceptanceData {ctx ctx' : UtxoProcessingContext M} {block : Block}
    {flags : TxValidationFlags} {coinbase : List AcceptedTxEntry}
    (done : mergeBlock V utxoView poolView pov selectedParent flags coinbase ctx block = .ok ctx') :
    ∃ vtxs, validateTransactionsInParallel V.toTxContext block.transactions
        (composedUtxoView utxoView ctx.mergesetDiff) (composedPoolView poolView ctx.mergesetPoolDiff)
        pov flags selectedParent = (.ok vtxs : Outcome Empty _) ∧
      ctx'.mergesetAcceptanceData = ctx.mergesetAcceptanceData ++ [acceptanceData V block coinbase vtxs] := by
  obtain ⟨vtxs, merged, blockFee, reward, validated, -, -, rfl⟩ := mergeBlock_eq_ok done
  exact ⟨vtxs, validated, rfl⟩

theorem mergeBlocks_acceptanceData {ctx ctx' : UtxoProcessingContext M} (blocks : List Block)
    (done : blocks.foldlM (mergeBlock V utxoView poolView pov selectedParent .full []) ctx = .ok ctx') :
    ∃ rest, ctx'.mergesetAcceptanceData = ctx.mergesetAcceptanceData ++ rest := by
  induction blocks generalizing ctx with
  | nil =>
    cases done
    exact ⟨[], (List.append_nil _).symm⟩
  | cons block others ih =>
    obtain ⟨ctx₁, first, done⟩ := foldlM_cons_eq_ok.mp done
    obtain ⟨_, _, recorded⟩ := mergeBlock_acceptanceData first
    obtain ⟨rest, later⟩ := ih done
    exact ⟨_, by rw [later, recorded, List.append_assoc]⟩

end Acceptance

/-! ## Qualification and replay -/

section Replay

variable {M : Type} {V : VirtualProcessor M} {block : Block} {pov : UInt64} {utxoView : UtxoView}
  {poolView : PoolView} {selectedParent : Hash} {coinbase : Transaction} {diff : UtxoDiff} {ε : Type}
  {validated : List (ValidatedTransaction × UInt32)}

section

variable (wellFormed : BlockWellFormed V.toBodyProcessor block) (first : block.transactions.head? = some coinbase)
  (silent : ∀ outpoint ∉ (createdEntries V.crypto.hashers coinbase pov).map Prod.fst, diff.cell outpoint = ⟨none, none⟩)

include wellFormed first silent

/-- The coinbase of the replayed block does not get between its own transactions and their inputs. -/
private theorem replay_reads {tx : Transaction} (member : tx ∈ block.transactions) :
    ∀ input ∈ tx.inputs, composedUtxoView utxoView diff input.previousOutpoint = utxoView input.previousOutpoint := by
  intro input inTx
  have spent : input.previousOutpoint ∈ block.spentOutpoints :=
    List.mem_flatMap.mpr ⟨tx, member, List.mem_map_of_mem inTx⟩
  have other : input.previousOutpoint ∉ (createdEntries V.crypto.hashers coinbase pov).map Prod.fst := by
    rw [createdEntries_keys]
    intro created
    exact wellFormed.unchained _ spent (List.mem_flatMap.mpr ⟨coinbase, List.mem_of_mem_head? first, created⟩)
  rw [composedUtxoView_eq, silent _ other]
  rfl

/-- A block all of whose transactions were fully validated is replayed with the same result. -/
theorem validateTransactionsInParallel_replay {ε' : Type} (later : NotBefore pov block.header.daaScore)
    (done : (validateTransactionsInParallel V.toTxContext block.transactions utxoView poolView
      block.header.daaScore .full selectedParent : Outcome ε _) = .ok validated)
    (all : (block.transactions.zipIdx.drop 1).length ≤ validated.length) :
    (validateTransactionsInParallel V.toTxContext block.transactions
      (composedUtxoView utxoView diff) poolView pov .skipScriptChecks block.header.hash :
      Outcome ε' _) = .ok validated := by
  have results := filterOk_all done all
  -- Item by item the replay computes what qualification computed.
  have same : ∀ item ∈ block.transactions.zipIdx.drop 1, (do
        let vtx ← validateTransactionInUtxoContext V.toTxContext item.1
          (composedUtxoView utxoView diff) poolView pov .skipScriptChecks block.header.hash
        return (vtx, UInt32.ofNat item.2) : Outcome TxRuleError _) =
      (do
        let vtx ← validateTransactionInUtxoContext V.toTxContext item.1 utxoView poolView
          block.header.daaScore .full selectedParent
        return (vtx, UInt32.ofNat item.2)) := by
    intro item member
    obtain ⟨_, run⟩ := results item member
    obtain ⟨vtx, valid, _⟩ := bind_eq_ok.mp run
    have inBlock : item.1 ∈ block.transactions :=
      List.fst_mem_of_mem_zipIdx (List.mem_of_mem_drop member)
    have again : validateTransactionInUtxoContext V.toTxContext item.1
        (composedUtxoView utxoView diff) poolView pov .skipScriptChecks block.header.hash =
        .ok vtx :=
      validateTransactionInUtxoContext_replay later (replay_reads wellFormed first silent inBlock) valid
    rw [valid, again]
  obtain ⟨safe, rfl⟩ := filterOk_eq_ok.mp done
  unfold validateTransactionsInParallel
  rw [filterOk_congr same]
  exact filterOk_eq_ok.mpr ⟨safe, rfl⟩

end

private theorem validated_items {flags : TxValidationFlags}
    (done : (validateTransactionsInParallel V.toTxContext block.transactions utxoView poolView
      pov flags selectedParent : Outcome ε _) = .ok validated)
    (all : (block.transactions.zipIdx.drop 1).length ≤ validated.length) :
    validated.map (fun vtx => (vtx.1.tx, vtx.2)) =
      (block.transactions.zipIdx.drop 1).map fun item => (item.1, UInt32.ofNat item.2) := by
  apply filterOk_map_eq done all
  intro item _ vtx run
  obtain ⟨_, valid, same⟩ := bind_eq_ok.mp run
  rw [← Except.ok.inj same, (validateTransactionInUtxoContext_accepted valid).whole]

end Replay

/-- A qualified block `block`, replayed by any child as its selected parent, at any score that is
not below its own also as an `i64`: every transaction is accepted, in order, with the entries, pool
diff, petals and fee its own full validation computed. -/
theorem calculateUtxoState_replays_selectedParent {M : Type} (V : VirtualProcessor M) (m : M)
    (ctx : UtxoProcessingContext M) (ghostdagData : GhostdagData) (block : Block)
    (utxoView : UtxoView) (poolView : PoolView) (poolState : PoolCollection) (poolDiff : PoolDiff)
    (pov : UInt64) (body : BodyValid V.toBodyProcessor block)
    (qualified : verifyExpectedUtxoState V ctx ghostdagData block utxoView poolView poolState
      poolDiff = .ok ())
    (later : NotBefore pov block.header.daaScore) :
    ∃ coinbase start validated,
      block.transactions.head? = some coinbase ∧
      (validateTransactionsInParallel V.toTxContext block.transactions
        (composedUtxoView utxoView ctx.mergesetDiff) (composedPoolView poolView ctx.mergesetPoolDiff)
        block.header.daaScore .full ghostdagData.selectedParent : Outcome RuleError _) =
          .ok validated ∧
      validated.map (fun vtx => vtx.1.tx) = block.transactions.drop 1 ∧
      acceptCoinbase V pov (.new m) coinbase = .ok start ∧
      (validateTransactionsInParallel V.toTxContext block.transactions
        (composedUtxoView (composedUtxoView utxoView ctx.mergesetDiff) start.mergesetDiff)
        (composedPoolView (composedPoolView poolView ctx.mergesetPoolDiff) start.mergesetPoolDiff)
        pov .skipScriptChecks block.header.hash : Outcome Empty _) = .ok validated ∧
      ∀ mergeset ctx', calculateUtxoState V (.new m) block mergeset
          (composedUtxoView utxoView ctx.mergesetDiff)
          (composedPoolView poolView ctx.mergesetPoolDiff) pov = .ok ctx' →
        ∃ rest, ctx'.mergesetAcceptanceData = ⟨block.header.hash, block.transactions.zipIdx.map
          fun item => ⟨item.1.id V.crypto.hashers, UInt32.ofNat item.2⟩⟩ :: rest := by
  have wellFormed := body.wellFormed
  obtain ⟨coinbase, others, whole, isCoinbase, _⟩ := wellFormed.coinbase
  have first : block.transactions.head? = some coinbase := by rw [whole, List.head?_cons]
  have isolated := wellFormed.isolated coinbase (List.mem_of_mem_head? first)
  obtain ⟨validated, done, all⟩ := verifyExpectedUtxoState_validates qualified
  obtain ⟨diff, added, silent⟩ :=
    addTransaction_coinbase (H := V.crypto.hashers) pov isolated.fewOutputs
  have accepted : acceptCoinbase V pov (.new m) coinbase = .ok { UtxoProcessingContext.new m with
      mergesetDiff := diff
      multisetHash := V.muHash.addTransaction V.crypto.hashers m (.coinbase coinbase) pov } := by
    simp only [acceptCoinbase, UtxoProcessingContext.new, added]
    rfl
  have items := validated_items done all
  have again : (validateTransactionsInParallel V.toTxContext block.transactions
      (composedUtxoView (composedUtxoView utxoView ctx.mergesetDiff) diff)
      (composedPoolView (composedPoolView poolView ctx.mergesetPoolDiff) PoolDiff.empty)
      pov .skipScriptChecks block.header.hash : Outcome Empty _) = .ok validated := by
    rw [(PoolDiff.empty_reads _).composed]
    exact validateTransactionsInParallel_replay wellFormed first silent later done all
  refine ⟨coinbase, _, validated, first, done, ?_, accepted, again, ?_⟩
  · have txs := congrArg (List.map Prod.fst) items
    rw [List.map_map, List.map_map] at txs
    refine txs.trans ?_
    change (block.transactions.zipIdx.drop 1).map Prod.fst = _
    rw [List.map_drop, List.zipIdx_map_fst]
  · intro mergeset ctx' walked
    rw [calculateUtxoState, first] at walked
    obtain ⟨_, here, walked⟩ := bind_eq_ok.mp walked
    obtain rfl := Except.ok.inj here
    obtain ⟨_, accepted', walked⟩ := bind_eq_ok.mp walked
    obtain rfl := Except.ok.inj (accepted.symm.trans accepted')
    obtain ⟨ctx₁, merged, walked⟩ := bind_eq_ok.mp walked
    obtain ⟨vtxs, validated', recorded⟩ := mergeBlock_acceptanceData merged
    obtain rfl := Except.ok.inj (again.symm.trans validated')
    obtain ⟨rest, later⟩ := mergeBlocks_acceptanceData mergeset walked
    have entries : validated.map (fun vtx =>
        (⟨vtx.1.tx.id V.crypto.hashers, vtx.2⟩ : AcceptedTxEntry)) =
        (block.transactions.zipIdx.drop 1).map fun item =>
          ⟨item.1.id V.crypto.hashers, UInt32.ofNat item.2⟩ := by
      have named := congrArg (List.map fun item : Transaction × UInt32 =>
        (⟨item.1.id V.crypto.hashers, item.2⟩ : AcceptedTxEntry)) items
      rwa [List.map_map, List.map_map] at named
    refine ⟨rest, ?_⟩
    rw [later, recorded, acceptanceData, entries, whole]
    rfl

namespace Sample

def grandparent : Block := block 1 0 5 [coinbase 2 []]

/-- A block at score 10 with the mint of a note. -/
def minting : Block := block 2 1 10 [coinbase 3 [], mint 0 7]

def mintingGhostdag : GhostdagData := ⟨0, 1, [1], []⟩

/-- The context of `minting` after its mergeset. -/
def mintingContext : Option (UtxoProcessingContext Unit) :=
  (calculateUtxoState node (.new ()) grandparent [] state.utxos.lookup state.pool.lookup 10).toOption

end Sample

open Sample in
/-- Qualified at score 10, replayed at score 20. -/
theorem calculateUtxoState_replays_selectedParent_mint :
    ∃ ctx start validated, mintingContext = some ctx ∧
      acceptCoinbase node 20 (.new ()) (coinbase 3 []) = .ok start ∧
      (validateTransactionsInParallel node.toTxContext minting.transactions
        (composedUtxoView (composedUtxoView state.utxos.lookup ctx.mergesetDiff) start.mergesetDiff)
        (composedPoolView (composedPoolView state.pool.lookup ctx.mergesetPoolDiff)
          start.mergesetPoolDiff)
        20 .skipScriptChecks 2 : Outcome Empty _) = .ok validated ∧
      validated.map (fun vtx => vtx.1.tx) = [mint 0 7] := by
  obtain ⟨coinbase, start, validated, first, _, all, accepted, replayed, _⟩ :=
    calculateUtxoState_replays_selectedParent node () _ mintingGhostdag minting
      state.utxos.lookup state.pool.lookup state.pool .empty 20
      ⟨⟨_, rfl⟩, rfl⟩
      (show verifyExpectedUtxoState node (mintingContext.get rfl)
        mintingGhostdag minting state.utxos.lookup state.pool.lookup
        state.pool .empty = .ok () from rfl)
      ⟨by decide, by decide⟩
  obtain rfl := Option.some.inj first
  exact ⟨_, start, validated, (Option.some_get _).symm, accepted, replayed, all⟩

open Sample in
/-- The same block replayed at score 2^63: as an `i64` that is before every sequence lock, and the
mint is dropped. -/
theorem calculateUtxoState_replay_drops_mint :
    ∃ ctx start, mintingContext = some ctx ∧
      BodyValid node.toBodyProcessor minting ∧
      verifyExpectedUtxoState node ctx mintingGhostdag minting
        state.utxos.lookup state.pool.lookup state.pool .empty = .ok () ∧
      minting.header.daaScore ≤ 9223372036854775808 ∧
      acceptCoinbase node 9223372036854775808 (.new ()) (coinbase 3 []) = .ok start ∧
      (validateTransactionsInParallel node.toTxContext minting.transactions
        (composedUtxoView (composedUtxoView state.utxos.lookup ctx.mergesetDiff) start.mergesetDiff)
        (composedPoolView (composedPoolView state.pool.lookup ctx.mergesetPoolDiff)
          start.mergesetPoolDiff)
        9223372036854775808 .skipScriptChecks 2 : Outcome Empty _) = .ok [] :=
  ⟨_, _, rfl, ⟨⟨_, rfl⟩, rfl⟩, rfl, by decide, rfl, rfl⟩

end Marigold.Consensus
