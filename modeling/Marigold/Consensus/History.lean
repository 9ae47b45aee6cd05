import Marigold.Consensus.Ledger

/-!
# Histories

A ledger that grew out of accepted transactions is consistent with their history: each live entry
was created by one of them and nothing they spent is live. A transaction that can be accepted into
such a ledger is not in its history, unless it creates nothing.
-/

namespace Marigold.Consensus

open Lib NotePool Utxo

/-! ## Ids and serials -/

/-- Equal in everything a transaction id covers. -/
structure SameForId (a b : Transaction) : Prop where
  version : a.version = b.version
  inputs : a.inputs.map (fun input => (input.previousOutpoint, input.sequence)) =
    b.inputs.map fun input => (input.previousOutpoint, input.sequence)
  outputs : a.outputs.map (fun output => (output.value, output.scriptPublicKey)) =
    b.outputs.map fun output => (output.value, output.scriptPublicKey)
  covenants : a.version ≠ 0 → a.outputs.map TransactionOutput.covenant = b.outputs.map TransactionOutput.covenant
  lockTime : a.lockTime = b.lockTime
  subnetworkId : a.subnetworkId = b.subnetworkId
  gas : a.gas = b.gas
  payload : a.payload = b.payload

/-- Among the given transactions, ids determine what they cover and serials their origin. -/
structure NoCollisions (H : Hashers) (txs : Set Transaction) : Prop where
  ids : ∀ a ∈ txs, ∀ b ∈ txs, a.id H = b.id H → SameForId a b
  serials : ∀ a ∈ txs, ∀ b ∈ txs, ∀ sn, sn ∈ (poolUpdate H a).created.map Prod.fst →
    sn ∈ (poolUpdate H b).created.map Prod.fst → a.id H = b.id H

section SameForId

variable {a b : Transaction}

theorem SameForId.outpoints (same : SameForId a b) :
    a.inputs.map TransactionInput.previousOutpoint = b.inputs.map TransactionInput.previousOutpoint := by
  have first := congrArg (List.map Prod.fst) same.inputs
  rwa [List.map_map, List.map_map] at first

theorem SameForId.poolOp (same : SameForId a b) : a.poolOp = b.poolOp := by
  rw [Transaction.poolOp, Transaction.poolOp, same.subnetworkId, same.payload]

theorem SameForId.isCoinbase (same : SameForId a b) : a.isCoinbase = b.isCoinbase := by
  rw [Transaction.isCoinbase, Transaction.isCoinbase, same.subnetworkId]

end SameForId

theorem noCollisions_of_nodup {H : Hashers} {txs : List Transaction} (ids : (txs.map (Transaction.id H)).Nodup)
    (serials : (txs.flatMap fun tx => (poolUpdate H tx).created.map Prod.fst).Nodup) :
    NoCollisions H {tx | tx ∈ txs} where
  ids a inA b inB same := by
    obtain rfl := List.inj_on_of_nodup_map ids inA inB same
    exact ⟨rfl, rfl, rfl, fun _ => rfl, rfl, rfl, rfl, rfl⟩
  serials a inA b inB sn createdA createdB := by
    by_contra differ
    have symm : Std.Symm (Function.onFun List.Disjoint fun tx => (poolUpdate H tx).created.map Prod.fst) :=
      ⟨fun _ _ apart _ inB inA => apart inA inB⟩
    exact (List.nodup_flatMap.mp serials).2.forall inA inB (fun same => differ (same ▸ rfl)) createdA createdB

/-! ## Consistency -/

/-- The history explains the ledger. -/
structure Consistent (H : Hashers) (history : List Transaction) (ledger : Ledger) : Prop where
  utxos : ∀ outpoint entry, ledger.utxos outpoint = some entry →
    ∃ t ∈ history, (outpoint, entry) ∈ createdEntries H t entry.blockDaaScore
  notes : ∀ sn entry, ledger.pool sn = some entry → ∃ t ∈ history, (sn, entry) ∈ (poolUpdate H t).created
  spent : ∀ t ∈ history, ∀ outpoint ∈ t.inputs.map TransactionInput.previousOutpoint,
    ledger.utxos outpoint = none ∧ ∃ t' ∈ history, t'.id H = outpoint.transactionId
  consumed : ∀ t ∈ history, ∀ sn ∈ (poolUpdate H t).spent,
    ledger.pool sn = none ∧ ∃ t' ∈ history, sn ∈ (poolUpdate H t').created.map Prod.fst

theorem consistent_nil (H : Hashers) : Consistent H [] ⟨fun _ => none, fun _ => none⟩ :=
  ⟨by simp, by simp, by simp, by simp⟩

/-- The transaction has an id of its own, or leaves no trace. -/
def NewTo (H : Hashers) (history : List Transaction) (tx : Transaction) : Prop :=
  (∀ t ∈ history, t.id H ≠ tx.id H) ∨ (tx.outputs = [] ∧ tx.poolOp = none)

section Accept

variable {H : Hashers} {history : List Transaction} {ledger : Ledger} {tx : Transaction}
  {daaScore : UInt64} {txs : Set Transaction}

theorem NewTo.outpoint {outpoint : TransactionOutpoint} (new : NewTo H history tx)
    (created : outpoint ∈ (createdEntries H tx daaScore).map Prod.fst) :
    ¬ ∃ t ∈ history, t.id H = outpoint.transactionId := by
  rintro ⟨t, inHistory, same⟩
  rw [createdEntries_id created] at same
  rcases new with fresh | ⟨none, _⟩
  · exact fresh t inHistory same
  · simp [createdEntries, none] at created

theorem NewTo.serial {sn : Hash} (free : NoCollisions H txs) (known : ∀ t ∈ history, t ∈ txs)
    (member : tx ∈ txs) (new : NewTo H history tx) (created : sn ∈ (poolUpdate H tx).created.map Prod.fst) :
    ¬ ∃ t ∈ history, sn ∈ (poolUpdate H t).created.map Prod.fst := by
  rintro ⟨t, inHistory, before⟩
  rcases new with fresh | ⟨_, noOp⟩
  · exact fresh t inHistory (free.serials t (known t inHistory) tx member sn before created)
  · simp [poolUpdate, noOp] at created

theorem Consistent.accept (consistent : Consistent H history ledger) (free : NoCollisions H txs)
    (known : ∀ t ∈ history, t ∈ txs) (member : tx ∈ txs) (new : NewTo H history tx)
    (fits : (utxoUpdate H tx daaScore).Fits ledger.utxos) (fitsPool : (poolUpdate H tx).Fits ledger.pool) :
    Consistent H (history ++ [tx]) (ledger.accept H daaScore tx) where
  utxos outpoint entry live := by
    rcases Update.apply_eq_some live with ⟨before, _⟩ | created
    · obtain ⟨t, inHistory, explained⟩ := consistent.utxos outpoint entry before
      exact ⟨t, List.mem_append_left _ inHistory, explained⟩
    · refine ⟨tx, List.mem_append_right _ (List.mem_singleton.mpr rfl), ?_⟩
      rw [createdEntries_score created]
      exact created
  notes sn entry live := by
    rcases Update.apply_eq_some live with ⟨before, _⟩ | created
    · obtain ⟨t, inHistory, explained⟩ := consistent.notes sn entry before
      exact ⟨t, List.mem_append_left _ inHistory, explained⟩
    · exact ⟨tx, List.mem_append_right _ (List.mem_singleton.mpr rfl), created⟩
  spent t inAll outpoint input := by
    -- Old inputs have their creators in the history, so the new transaction cannot revive them.
    rcases List.mem_append.mp inAll with inHistory | last
    · obtain ⟨gone, t', inHistory', origin⟩ := consistent.spent t inHistory outpoint input
      refine ⟨Update.apply_of_gone gone fun created => ?_, t', List.mem_append_left _ inHistory', origin⟩
      exact new.outpoint created ⟨t', inHistory', origin⟩
    · obtain rfl := List.mem_singleton.mp last
      obtain ⟨entry, there⟩ := Option.isSome_iff_exists.mp (fits.live outpoint input)
      obtain ⟨t', inHistory', explained⟩ := consistent.utxos outpoint entry there
      exact ⟨fits.takes_out input, t', List.mem_append_left _ inHistory',
        (createdEntries_id (List.mem_map_of_mem explained)).symm⟩
  consumed t inAll sn input := by
    rcases List.mem_append.mp inAll with inHistory | last
    · obtain ⟨gone, t', inHistory', origin⟩ := consistent.consumed t inHistory sn input
      refine ⟨Update.apply_of_gone gone fun created => ?_, t', List.mem_append_left _ inHistory', origin⟩
      exact new.serial free known member created ⟨t', inHistory', origin⟩
    · obtain rfl := List.mem_singleton.mp last
      obtain ⟨entry, there⟩ := Option.isSome_iff_exists.mp (fitsPool.live sn input)
      obtain ⟨t', inHistory', explained⟩ := consistent.notes sn entry there
      exact ⟨fitsPool.takes_out input, t', List.mem_append_left _ inHistory', List.mem_map_of_mem explained⟩

end Accept

/-! ## Nothing is accepted twice -/

private theorem mints_of_consumes_nothing {op : PoolOp} (wellFormed : op.WellFormed)
    (none : op.consumedSerials = []) : ∃ note, note ∈ op.producedEntries := by
  have inhabited : ∀ groups : List SignedGroup, groups ≠ [] → GroupsWellFormed groups →
      groups.flatMap SignedGroup.serials ≠ [] := by
    intro groups nonempty grouped empty
    obtain ⟨group, member⟩ := List.exists_mem_of_ne_nil groups nonempty
    exact grouped.2.1 group member (List.flatMap_eq_nil_iff.mp empty group member)
  cases op with
  | mint op =>
    obtain ⟨note, member⟩ := List.exists_mem_of_ne_nil _ wellFormed.1
    exact ⟨.unlocked note, List.mem_map_of_mem member⟩
  | transfer op => exact absurd none (inhabited op.consumed wellFormed.1 wellFormed.2.2)
  | redeem op => exact absurd none (inhabited op.consumed wellFormed.1 wellFormed.2)
  | transferLocked op =>
    exact absurd none (inhabited op.consumed wellFormed.1 wellFormed.2.2.2.2)

private theorem producedPetals_pos {H : Hashers} {txId : TransactionId} {op : PoolOp}
    {view : PoolView} {v : ValidatedPoolOp} (effect : OpEffect H txId op view v)
    (produces : ∃ note, note ∈ op.producedEntries) : 0 < v.producedPetals.toNat := by
  obtain ⟨note, member⟩ := produces
  obtain ⟨i, inside, here⟩ := List.mem_iff_getElem.mp member
  have created : (serialHash H txId (UInt32.ofNat i), note) ∈ op.createdNotes H txId := by
    rw [PoolOp.createdNotes, withSerials, List.mem_mapIdx]
    exact ⟨i, inside, by rw [here]⟩
  rw [effect.producedPetals]
  have counted : note.petals ∈ (op.createdNotes H txId).map fun note => note.2.petals :=
    List.mem_map.mpr ⟨_, created, rfl⟩
  exact Nat.lt_of_lt_of_le note.note.d.petals_pos (List.single_le_sum (by simp) _ counted)

section Repeat

variable {T : TxContext} {history : List Transaction} {ledger : Ledger}
  {vtx : ValidatedTransaction} {txs : Set Transaction}

private theorem creates_nothing (wellFormed : TxWellFormed T.validator vtx.tx) (accepted : AcceptedIn T ledger vtx)
    (noInputs : vtx.tx.inputs = []) (noSerials : (poolUpdate T.crypto.hashers vtx.tx).spent = []) :
    vtx.tx.outputs = [] ∧ vtx.tx.poolOp = none := by
  have entries : vtx.entries = [] := by simpa [noInputs] using accepted.entries.symm
  have value := accepted.value
  rw [entries, List.map_nil, List.sum_nil, Nat.zero_add] at value
  have noOutputs : outputsValue vtx.tx = 0 → vtx.tx.outputs = [] := by
    intro zero
    by_contra some
    obtain ⟨output, member⟩ := List.exists_mem_of_ne_nil _ some
    have positive := wellFormed.positive output member
    have counted : output.value.toNat ∈ vtx.tx.outputs.map fun output => output.value.toNat :=
      List.mem_map.mpr ⟨output, member, rfl⟩
    have bounded := List.single_le_sum (by simp) _ counted
    rw [outputsValue] at zero
    omega
  rcases accepted.pool with ⟨noOp, validated⟩ | ⟨op, v, decoded, validated, effect⟩
  · rw [validated] at value
    refine ⟨noOutputs ?_, noOp⟩
    have zero : (consumedPetals none).toNat = 0 := rfl
    rw [outputsValue]
    omega
  · -- A well-formed op that consumes nothing mints, and a mint has to be paid for.
    have lane : vtx.tx.subnetworkId = SubnetworkId.notePool := by
      by_contra other
      simp [Transaction.poolOp, other] at decoded
    obtain ⟨op', decoded', opWellFormed⟩ := wellFormed.poolOp lane
    cases decoded.symm.trans decoded'
    rw [poolUpdate, decoded] at noSerials
    have positive := producedPetals_pos effect (mints_of_consumes_nothing opWellFormed noSerials)
    have consumed : v.consumedPetals.toNat = 0 := by
      have none : op.consumedSerials = [] := noSerials
      rw [effect.consumedPetals, none]
      rfl
    simp only [validated, consumedPetals, producedPetals, Option.elim_some] at value
    omega

theorem newTo_of_accepted (consistent : Consistent T.crypto.hashers history ledger)
    (free : NoCollisions T.crypto.hashers txs) (known : ∀ t ∈ history, t ∈ txs)
    (member : vtx.tx ∈ txs) (wellFormed : TxWellFormed T.validator vtx.tx)
    (accepted : AcceptedIn T ledger vtx) : NewTo T.crypto.hashers history vtx.tx := by
  by_cases repeated : ∃ t ∈ history, t.id T.crypto.hashers = vtx.tx.id T.crypto.hashers
  · obtain ⟨t, inHistory, sameId⟩ := repeated
    have same := free.ids t (known t inHistory) vtx.tx member sameId
    -- Everything it spends was spent when its twin was accepted.
    have noInputs : vtx.tx.inputs.map TransactionInput.previousOutpoint = [] := by
      by_contra some
      obtain ⟨outpoint, input⟩ := List.exists_mem_of_ne_nil _ some
      have live := inputs_live accepted input
      rw [← same.outpoints] at input
      rw [(consistent.spent t inHistory outpoint input).1] at live
      cases live
    have noSerials : (poolUpdate T.crypto.hashers vtx.tx).spent = [] := by
      by_contra some
      obtain ⟨sn, input⟩ := List.exists_mem_of_ne_nil _ some
      have live := (poolUpdate_fits accepted).live sn input
      have twin : (poolUpdate T.crypto.hashers t).spent = (poolUpdate T.crypto.hashers vtx.tx).spent := by
        unfold poolUpdate
        rw [same.poolOp, sameId]
      rw [← twin] at input
      rw [(consistent.consumed t inHistory sn input).1] at live
      cases live
    exact .inr (creates_nothing wellFormed accepted (List.map_eq_nil_iff.mp noInputs) noSerials)
  · exact .inl fun t inHistory same => repeated ⟨t, inHistory, same⟩

end Repeat

end Marigold.Consensus
