import Marigold.Consensus.TxInContext

/-!
# The two ledgers

What the virtual state stands for: live outpoints and live notes, changed by accepting one
transaction after another. The history of accepted transactions explains every live entry, and
nothing a transaction of the history spent is live. With ids and serials that do not collide, that
is why no transaction is accepted twice.
-/

namespace Marigold

open Lib NotePool Utxo

/-- Live outpoints and live notes. -/
@[ext] structure Ledger where
  utxos : UtxoView
  pool : PoolView

namespace Consensus

section Updates

variable (H : Hashers)

/-- What a transaction does to the UTXO set. -/
def utxoUpdate (tx : Transaction) (daaScore : UInt64) : Update TransactionOutpoint UtxoEntry :=
  ⟨tx.inputs.map TransactionInput.previousOutpoint, createdEntries H tx daaScore⟩

/-- What a transaction does to the pool. -/
def poolUpdate (tx : Transaction) : Update Hash PoolEntry :=
  tx.poolOp.elim ⟨[], []⟩ (PoolOp.update H (tx.id H))

end Updates

end Consensus

open Consensus

namespace Ledger

variable (H : Hashers) (daaScore : UInt64)

variable (ledger : Ledger)

def accept (tx : Transaction) : Ledger :=
  ⟨(utxoUpdate H tx daaScore).apply ledger.utxos, (poolUpdate H tx).apply ledger.pool⟩

variable (txs : List Transaction)

def acceptAll : Ledger :=
  txs.foldl (accept H daaScore) ledger

theorem acceptAll_utxos : (ledger.acceptAll H daaScore txs).utxos =
      Update.applyAll (txs.map fun tx => utxoUpdate H tx daaScore) ledger.utxos := by
  induction txs generalizing ledger with
  | nil => rfl
  | cons tx rest ih => exact ih (ledger.accept H daaScore tx)

theorem acceptAll_pool :
    (ledger.acceptAll H daaScore txs).pool = Update.applyAll (txs.map (poolUpdate H)) ledger.pool := by
  induction txs generalizing ledger with
  | nil => rfl
  | cons tx rest ih => exact ih (ledger.accept H daaScore tx)

end Ledger

namespace Consensus

/-! ## Accepted transactions fit -/

theorem createdEntries_keys (H : Hashers) (tx : Transaction) (daaScore : UInt64) :
    (createdEntries H tx daaScore).map Prod.fst =
      (List.range tx.outputs.length).map fun i => ⟨tx.id H, UInt32.ofNat i⟩ := by
  apply List.ext_getElem
  · simp [createdEntries]
  · intro i _ _
    simp [createdEntries]

variable {H : Hashers} {tx : Transaction} {daaScore : UInt64} {outpoint : TransactionOutpoint}

theorem createdEntries_id (member : outpoint ∈ (createdEntries H tx daaScore).map Prod.fst) :
    outpoint.transactionId = tx.id H := by
  rw [createdEntries_keys] at member
  obtain ⟨i, _, rfl⟩ := List.mem_map.mp member
  rfl

theorem createdEntries_score {entry : UtxoEntry} (member : (outpoint, entry) ∈ createdEntries H tx daaScore) :
    entry.blockDaaScore = daaScore := by
  unfold createdEntries at member
  obtain ⟨i, inside, same⟩ := List.mem_mapIdx.mp member
  rw [← (Prod.mk.inj same).2]
  rfl

theorem createdEntries_nodup (few : tx.outputs.length ≤ 2 ^ 32) :
    ((createdEntries H tx daaScore).map Prod.fst).Nodup := by
  rw [createdEntries_keys]
  refine List.Nodup.map_on ?_ List.nodup_range
  intro i hi j hj same
  rw [List.mem_range] at hi hj
  have index := (TransactionOutpoint.mk.inj same).2
  have number := congrArg UInt32.toNat index
  rwa [UInt32.toNat_ofNat_of_lt' (by simp [UInt32.size]; omega),
    UInt32.toNat_ofNat_of_lt' (by simp [UInt32.size]; omega)] at number

theorem TxWellFormed.fewOutputs {V : TransactionValidator} (wellFormed : TxWellFormed V tx) :
    tx.outputs.length ≤ 2 ^ 32 := by
  cases coinbase : tx.isCoinbase with
  | false => exact (wellFormed.outputsCount coinbase).trans V.outputsNumbered
  | true =>
    have limit := (wellFormed.coinbase coinbase).2
    have bound := V.ghostdagK.toNat_lt
    omega

section Accepted

variable {T : TxContext} {tx : Transaction} {vtx : ValidatedTransaction} {ledger ledger' : Ledger}

/-- `TxAccepted` against a ledger. -/
abbrev AcceptedIn (T : TxContext) (ledger : Ledger) (vtx : ValidatedTransaction) : Prop :=
  TxAccepted T vtx.tx ledger.utxos ledger.pool vtx

theorem poolUpdate_fits (accepted : AcceptedIn T ledger vtx) :
    (poolUpdate T.crypto.hashers vtx.tx).Fits ledger.pool := by
  unfold poolUpdate
  rcases accepted.pool with ⟨none, _⟩ | ⟨op, v, decoded, _, effect⟩
  · rw [none]
    exact ⟨List.nodup_nil, by simp, List.nodup_nil, by simp⟩
  · rw [decoded]
    exact effect.fits

theorem inputs_live (accepted : AcceptedIn T ledger vtx) {outpoint : TransactionOutpoint}
    (member : outpoint ∈ vtx.tx.inputs.map TransactionInput.previousOutpoint) : (ledger.utxos outpoint).isSome := by
  obtain ⟨input, inTx, rfl⟩ := List.mem_map.mp member
  have read : ledger.utxos input.previousOutpoint ∈
      vtx.tx.inputs.map fun input => ledger.utxos input.previousOutpoint :=
    List.mem_map_of_mem inTx
  rw [accepted.entries] at read
  obtain ⟨entry, _, found⟩ := List.mem_map.mp read
  rw [← found]
  rfl

theorem AcceptedIn.of_agree (accepted : AcceptedIn T ledger vtx)
    (inputs : ∀ outpoint ∈ vtx.tx.inputs.map TransactionInput.previousOutpoint,
      ledger'.utxos outpoint = ledger.utxos outpoint)
    (serials : ∀ sn ∈ (poolUpdate T.crypto.hashers vtx.tx).keys, ledger'.pool sn = ledger.pool sn) :
    AcceptedIn T ledger' vtx := by
  refine ⟨rfl, ?_, ?_, accepted.value⟩
  · rw [← accepted.entries]
    apply List.map_congr_left
    intro input member
    exact inputs _ (List.mem_map_of_mem member)
  · rcases accepted.pool with none | ⟨op, v, decoded, validated, effect⟩
    · exact .inl none
    · rw [poolUpdate, decoded] at serials
      refine .inr ⟨op, v, decoded, validated, effect.fits.of_agree serials,
        effect.reads_of_agree serials, effect.silent, ?_, effect.producedPetals⟩
      rw [effect.consumedPetals]
      congr 1
      apply List.map_congr_left
      intro sn member
      rw [Totals.valueAt, Totals.valueAt, serials sn (List.mem_append_left _ member)]

end Accepted

/-! ## Value -/

/-- The value of an output. -/
def amountOf (entry : UtxoEntry) : Nat := entry.amount.toNat

/-- UTXO amounts and petals of live notes together sum up to `n`. -/
def Worth (ledger : Ledger) (n : Nat) : Prop :=
  ∃ amounts petals, Totals amountOf ledger.utxos amounts ∧ Totals PoolEntry.petals ledger.pool petals ∧
    amounts + petals = n

/-- The sum of a transaction's outputs. -/
def outputsValue (tx : Transaction) : Nat := (tx.outputs.map fun output => output.value.toNat).sum

theorem createdEntries_value (H : Hashers) (tx : Transaction) (daaScore : UInt64) :
    ((createdEntries H tx daaScore).map fun entry => amountOf entry.2).sum = outputsValue tx := by
  have values : (createdEntries H tx daaScore).map (fun entry => amountOf entry.2) =
      tx.outputs.map fun output => output.value.toNat := by
    apply List.ext_getElem
    · simp [createdEntries]
    · intro i _ _
      simp [createdEntries, amountOf, outputEntry]
  rw [values, outputsValue]

section Value

variable {T : TxContext} {vtx : ValidatedTransaction} {ledger : Ledger} {daaScore : UInt64} {n : Nat}

private theorem inputs_value (accepted : AcceptedIn T ledger vtx) :
    ((vtx.tx.inputs.map TransactionInput.previousOutpoint).map (Totals.valueAt amountOf ledger.utxos)).sum =
      (vtx.entries.map fun entry => entry.amount.toNat).sum := by
  have reads := congrArg (List.map fun entry : Option UtxoEntry => entry.elim 0 amountOf) accepted.entries
  simp only [List.map_map] at reads ⊢
  exact congrArg List.sum reads

private theorem poolUpdate_petals (accepted : AcceptedIn T ledger vtx) : ((poolUpdate T.crypto.hashers vtx.tx).spent.map
        (Totals.valueAt PoolEntry.petals ledger.pool)).sum = (consumedPetals vtx.validatedPoolOp).toNat ∧
      ((poolUpdate T.crypto.hashers vtx.tx).created.map fun note => note.2.petals).sum =
        (producedPetals vtx.validatedPoolOp).toNat := by
  unfold poolUpdate
  rcases accepted.pool with ⟨none, validated⟩ | ⟨op, v, decoded, validated, effect⟩
  · rw [none, validated]
    exact ⟨rfl, rfl⟩
  · rw [decoded, validated]
    exact ⟨effect.consumedPetals.symm, effect.producedPetals.symm⟩

theorem worth_accept (accepted : AcceptedIn T ledger vtx)
    (fits : (utxoUpdate T.crypto.hashers vtx.tx daaScore).Fits ledger.utxos) (before : Worth ledger n) :
    ∃ n', Worth (ledger.accept T.crypto.hashers daaScore vtx.tx) n' ∧ n' + vtx.calculatedFee.toNat = n := by
  obtain ⟨amounts, petals, utxos, notes, rfl⟩ := before
  obtain ⟨amounts', utxos', moved⟩ := utxos.update fits
  obtain ⟨petals', notes', movedNotes⟩ := notes.update (poolUpdate_fits accepted)
  obtain ⟨consumed, produced⟩ := poolUpdate_petals accepted
  rw [consumed, produced] at movedNotes
  have spent := inputs_value accepted
  have created := createdEntries_value T.crypto.hashers vtx.tx daaScore
  have value := accepted.value
  simp only [utxoUpdate] at moved
  rw [spent, created, outputsValue] at moved
  exact ⟨amounts' + petals', ⟨amounts', petals', utxos', notes', rfl⟩, by omega⟩

end Value

theorem worth_coinbase {coinbase : Transaction} {ledger : Ledger} {n : Nat}
    (noInputs : coinbase.inputs = []) (noOp : coinbase.poolOp = none)
    (fits : (utxoUpdate H coinbase daaScore).Fits ledger.utxos) (before : Worth ledger n) :
    Worth (ledger.accept H daaScore coinbase) (n + outputsValue coinbase) := by
  obtain ⟨amounts, petals, utxos, notes, rfl⟩ := before
  obtain ⟨amounts', utxos', moved⟩ := utxos.update fits
  have created := createdEntries_value H coinbase daaScore
  simp only [utxoUpdate, noInputs, List.map_nil, List.sum_nil] at moved
  rw [created] at moved
  have same : (ledger.accept H daaScore coinbase).pool = ledger.pool := by
    funext sn
    simp only [Ledger.accept, poolUpdate, noOp, Option.elim_none]
    exact Update.apply_of_notMem (by simp [Update.keys])
  refine ⟨amounts', petals, utxos', ?_, by omega⟩
  rw [same]
  exact notes

end Consensus

end Marigold
