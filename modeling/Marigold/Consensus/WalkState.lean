import Marigold.Consensus.History
import Marigold.Consensus.Walk

/-!
# What the walk keeps

The two diffs of the walk stand for a ledger over the selected parent's one. Accepting a validated
transaction changes the diffs as it changes the ledger, and the ledger stays consistent with the
history of accepted transactions.
-/

namespace Marigold.Consensus

open Lib NotePool Utxo

/-- The diffs read as `ledger` over `base` and add nothing over a live entry of it, and `history`
explains both ledgers. -/
structure WalkState (H : Hashers) (txs : Set Transaction) (base : Ledger)
    (history : List Transaction) (ledger : Ledger) (diff : UtxoDiff) (poolDiff : PoolDiff) :
    Prop where
  consistent : Consistent H history ledger
  known : ∀ t ∈ history, t ∈ txs
  reads : diff.Reads base.utxos ledger.utxos
  poolReads : poolDiff.Reads base.pool ledger.pool
  adds : ∀ outpoint, (diff.cell outpoint).add.isSome → base.utxos outpoint = none
  poolAdds : ∀ sn, (poolDiff.cell sn).add.isSome → base.pool sn = none
  baseUtxos : ∀ outpoint entry, base.utxos outpoint = some entry → ∃ t ∈ history, t.id H = outpoint.transactionId
  baseNotes : ∀ sn entry, base.pool sn = some entry → ∃ t ∈ history, sn ∈ (poolUpdate H t).created.map Prod.fst

theorem walkState_start {H : Hashers} {txs : Set Transaction} {base : Ledger}
    {history : List Transaction} (consistent : Consistent H history base) (known : ∀ t ∈ history, t ∈ txs) :
    WalkState H txs base history base .empty .empty where
  consistent := consistent
  known := known
  reads := Represents.empty base.utxos
  poolReads := PoolDiff.empty_reads base.pool
  adds outpoint added := by cases added
  poolAdds sn added := by cases added
  baseUtxos outpoint entry live := by
    obtain ⟨t, inHistory, created⟩ := consistent.utxos outpoint entry live
    exact ⟨t, inHistory, (createdEntries_id (List.mem_map_of_mem created)).symm⟩
  baseNotes sn entry live := by
    obtain ⟨t, inHistory, created⟩ := consistent.notes sn entry live
    exact ⟨t, inHistory, List.mem_map_of_mem created⟩

section Step

variable {H : Hashers} {txs : Set Transaction} {base ledger : Ledger} {history : List Transaction}
  {diff : UtxoDiff} {poolDiff : PoolDiff} {tx : Transaction} {pov : UInt64}

section

variable (state : WalkState H txs base history ledger diff poolDiff) (new : NewTo H history tx)

include state new

private theorem WalkState.outputs_fresh {outpoint : TransactionOutpoint}
    (created : outpoint ∈ (createdEntries H tx pov).map Prod.fst) :
    ledger.utxos outpoint = none ∧ base.utxos outpoint = none := by
  constructor
  · cases live : ledger.utxos outpoint with
    | none => rfl
    | some entry =>
      obtain ⟨t, inHistory, explained⟩ := state.consistent.utxos outpoint entry live
      exact absurd ⟨t, inHistory, (createdEntries_id (List.mem_map_of_mem explained)).symm⟩ (new.outpoint created)
  · cases live : base.utxos outpoint with
    | none => rfl
    | some entry => exact absurd (state.baseUtxos outpoint entry live) (new.outpoint created)

theorem WalkState.utxoUpdate_fits (few : tx.outputs.length ≤ 2 ^ 32)
    (nodup : (tx.inputs.map TransactionInput.previousOutpoint).Nodup)
    (live : ∀ outpoint ∈ tx.inputs.map TransactionInput.previousOutpoint, (ledger.utxos outpoint).isSome) :
    (utxoUpdate H tx pov).Fits ledger.utxos where
  spentNodup := nodup
  live := live
  createdNodup := createdEntries_nodup few
  fresh _ created := (state.outputs_fresh new created).1

end

theorem zip_reads {K V : Type} {view : K → Option V} {keys : List K} {values : List V}
    (reads : keys.map view = values.map some) :
    (keys.zip values).map Prod.fst = keys ∧ ∀ p ∈ keys.zip values, view p.1 = some p.2 := by
  induction keys generalizing values with
  | nil => simp
  | cons k rest ih =>
    cases values with
    | nil => simp at reads
    | cons v others =>
      rw [List.map_cons, List.map_cons, List.cons.injEq] at reads
      obtain ⟨keys, each⟩ := ih reads.2
      rw [List.zip_cons_cons, List.map_cons, keys, List.forall_mem_cons]
      exact ⟨rfl, reads.1, each⟩

variable (state : WalkState H txs base history ledger diff poolDiff) (new : NewTo H history tx)
  (fits : (utxoUpdate H tx pov).Fits ledger.utxos)

include state new fits

theorem WalkState.addTransaction {entries : List UtxoEntry}
    (populated : (tx.inputs.map TransactionInput.previousOutpoint).map ledger.utxos = entries.map some) :
    ∃ diff', diff.addTransaction H tx entries pov = .ok diff' ∧
      diff'.Reads base.utxos ((utxoUpdate H tx pov).apply ledger.utxos) ∧
      ∀ outpoint, (diff'.cell outpoint).add.isSome → base.utxos outpoint = none := by
  obtain ⟨keys, there⟩ := zip_reads populated
  have spent : (spentEntries tx entries).map Prod.fst = tx.inputs.map TransactionInput.previousOutpoint := keys
  have absent : ∀ p ∈ createdEntries H tx pov,
      removeAll ledger.utxos ((spentEntries tx entries).map Prod.fst) p.1 = none := by
    intro p created
    have fresh := (state.outputs_fresh new (List.mem_map_of_mem created)).1
    simp [removeAll, fresh]
  -- Nothing at these outpoints is live in the base, so no entry can be taken for another one.
  have faithful : ∀ p ∈ createdEntries H tx pov, ∀ old, base.utxos p.1 = some old →
      sameDaaScore old p.2 → old = p.2 := by
    intro p created old live
    cases live.symm.trans (state.outputs_fresh new (List.mem_map_of_mem created)).2
  obtain ⟨diff', added, reads⟩ := UtxoDiff.addTransaction_reads state.reads
    (spent ▸ fits.spentNodup) there fits.createdNodup absent faithful
  refine ⟨diff', added, by rwa [UtxoDiff.applyTransaction, spent] at reads, ?_⟩
  intro outpoint adds
  rcases UtxoDiff.addTransaction_adds added adds with before | created
  · exact state.adds outpoint before
  · exact (state.outputs_fresh new created).2

/-- Everything the walk keeps, after a transaction that does to the diffs what it does to the
ledger. -/
theorem WalkState.next (free : NoCollisions H txs) (member : tx ∈ txs)
    (fitsPool : (poolUpdate H tx).Fits ledger.pool) {diff' : UtxoDiff} {poolDiff' : PoolDiff}
    (reads : diff'.Reads base.utxos ((utxoUpdate H tx pov).apply ledger.utxos))
    (poolReads : poolDiff'.Reads base.pool ((poolUpdate H tx).apply ledger.pool))
    (adds : ∀ outpoint, (diff'.cell outpoint).add.isSome → base.utxos outpoint = none)
    (poolAdds : ∀ sn, (poolDiff'.cell sn).add.isSome → base.pool sn = none) :
    WalkState H txs base (history ++ [tx]) (ledger.accept H pov tx) diff' poolDiff' where
  consistent := state.consistent.accept free state.known member new fits fitsPool
  known t inAll := by
    rcases List.mem_append.mp inAll with inHistory | last
    · exact state.known t inHistory
    · rwa [List.mem_singleton.mp last]
  reads := reads
  poolReads := poolReads
  adds := adds
  poolAdds := poolAdds
  baseUtxos outpoint entry live := by
    obtain ⟨t, inHistory, origin⟩ := state.baseUtxos outpoint entry live
    exact ⟨t, List.mem_append_left _ inHistory, origin⟩
  baseNotes sn entry live := by
    obtain ⟨t, inHistory, origin⟩ := state.baseNotes sn entry live
    exact ⟨t, List.mem_append_left _ inHistory, origin⟩

end Step

section Accepted

variable {T : TxContext} {txs : Set Transaction} {base ledger : Ledger} {history : List Transaction}
  {diff : UtxoDiff} {poolDiff : PoolDiff} {vtx : ValidatedTransaction}

variable (state : WalkState T.crypto.hashers txs base history ledger diff poolDiff)
  (free : NoCollisions T.crypto.hashers txs) (member : vtx.tx ∈ txs)
  (accepted : AcceptedIn T ledger vtx)

include state free member accepted

private theorem WalkState.mergePoolOp (new : NewTo T.crypto.hashers history vtx.tx) :
    ∃ poolDiff', mergePoolOp poolDiff vtx.validatedPoolOp = .ok poolDiff' ∧
      poolDiff'.Reads base.pool ((poolUpdate T.crypto.hashers vtx.tx).apply ledger.pool) ∧
      ∀ sn, (poolDiff'.cell sn).add.isSome → base.pool sn = none := by
  rcases accepted.pool with ⟨noOp, validated⟩ | ⟨op, v, decoded, validated, effect⟩
  · refine ⟨poolDiff, by rw [validated]; rfl, ?_, state.poolAdds⟩
    have still : (poolUpdate T.crypto.hashers vtx.tx).apply ledger.pool = ledger.pool := by
      funext sn
      rw [poolUpdate, noOp]
      exact Update.apply_of_notMem (by simp [Update.keys])
    rw [still]
    exact state.poolReads
  · have update : poolUpdate T.crypto.hashers vtx.tx = op.update T.crypto.hashers (vtx.tx.id T.crypto.hashers) := by
      rw [poolUpdate, decoded]
      rfl
    -- A serial the op adds is one of its own, and none of those is live in the base.
    have fresh : ∀ sn, (v.diff.cell sn).add.isSome → base.pool sn = none := by
      intro sn added
      have created : sn ∈ (poolUpdate T.crypto.hashers vtx.tx).created.map Prod.fst := by
        by_contra other
        rw [update] at other
        rw [effect.silent sn other] at added
        cases added
      cases live : base.pool sn with
      | none => rfl
      | some old =>
        exact absurd (state.baseNotes sn old live) (new.serial free state.known member created)
    have faithful : ∀ sn note old, (v.diff.cell sn).add = some note → base.pool sn = some old → old = note := by
      intro sn note old added live
      cases live.symm.trans (fresh sn (by simp [added]))
    obtain ⟨merged, done, reads⟩ :=
      PoolDiff.withDiffInPlace_reads state.poolReads effect.reads faithful
    refine ⟨merged, by rw [validated, Consensus.mergePoolOp, done], update ▸ reads, ?_⟩
    intro sn adds
    rcases PoolDiff.withDiffInPlace_adds done adds with before | added
    · exact state.poolAdds sn before
    · exact fresh sn added

theorem WalkState.accept (pov : UInt64) (wellFormed : TxWellFormed T.validator vtx.tx) :
    (utxoUpdate T.crypto.hashers vtx.tx pov).Fits ledger.utxos ∧ ∃ diff' poolDiff',
        diff.addTransaction T.crypto.hashers vtx.tx vtx.entries pov = .ok diff' ∧
        Consensus.mergePoolOp poolDiff vtx.validatedPoolOp = .ok poolDiff' ∧
        WalkState T.crypto.hashers txs base (history ++ [vtx.tx])
          (ledger.accept T.crypto.hashers pov vtx.tx) diff' poolDiff' := by
  have new := newTo_of_accepted state.consistent free state.known member wellFormed accepted
  have fits : (utxoUpdate T.crypto.hashers vtx.tx pov).Fits ledger.utxos :=
    state.utxoUpdate_fits new wellFormed.fewOutputs wellFormed.inputsNodup
      fun outpoint input => inputs_live accepted input
  have populated : (vtx.tx.inputs.map TransactionInput.previousOutpoint).map ledger.utxos = vtx.entries.map some := by
    rw [← accepted.entries, List.map_map]
    rfl
  obtain ⟨diff', added, reads, adds⟩ := state.addTransaction new fits populated
  obtain ⟨poolDiff', merged, poolReads, poolAdds⟩ := state.mergePoolOp free member accepted new
  exact ⟨fits, diff', poolDiff', added, merged,
    state.next new fits free member (poolUpdate_fits accepted) reads poolReads adds poolAdds⟩

end Accepted

end Marigold.Consensus
