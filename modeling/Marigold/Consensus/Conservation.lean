import Marigold.Consensus.WalkSpec

/-!
# Conservation of value

The mergeset walk over stored collections. Amounts of live outputs, petals of live notes and the
fees recorded for the merged blocks together stay what they were, with the outputs of the selected
parent's coinbase added. The sums are exact: the walk returns, so no `u64` sum in it overflowed.

The walk does not look whether an outpoint it adds is live already. That it never is follows from
what a state that grew out of transactions satisfies, and from coinbases that are not repeated.
-/

namespace Marigold.Consensus

open Lib NotePool Utxo

/-- The collections a state is stored in. -/
structure StoredState where
  utxos : UtxoCollection
  pool : PoolCollection

namespace StoredState

variable (state : StoredState)

def ledger : Ledger := ⟨state.utxos.lookup, state.pool.lookup⟩

def amounts : Nat := state.utxos.total amountOf

def petals : Nat := state.pool.total PoolEntry.petals

def writeDiffs (diff : UtxoDiff) (poolDiff : PoolDiff) : StoredState :=
  ⟨state.utxos.writeDiff diff, state.pool.writeDiff poolDiff⟩

theorem worth : Worth state.ledger (state.amounts + state.petals) :=
  ⟨_, _, Totals.of_map state.utxos, Totals.of_map state.pool, rfl⟩

variable {state}

theorem worth_unique {n : Nat} (worth : Worth state.ledger n) : n = state.amounts + state.petals := by
  obtain ⟨amounts, petals, utxos, notes, rfl⟩ := worth
  rw [utxos.unique (Totals.of_map state.utxos), notes.unique (Totals.of_map state.pool)]
  rfl

theorem ledger_writeDiffs {diff : UtxoDiff} {poolDiff : PoolDiff}
    {after : Ledger} (reads : diff.Reads state.ledger.utxos after.utxos)
    (poolReads : poolDiff.Reads state.ledger.pool after.pool) : (state.writeDiffs diff poolDiff).ledger = after := by
  apply Ledger.ext
  · funext outpoint
    rw [← reads.composed]
    exact UtxoCollection.lookup_writeDiff state.utxos diff outpoint
  · funext sn
    rw [← poolReads.composed]
    exact PoolCollection.lookup_writeDiff state.pool poolDiff sn

end StoredState

/-- The block passed body validation, in isolation and in the context of its header. -/
def BodyValid (B : BodyProcessor) (block : Block) : Prop :=
  (∃ mass, validateBodyInIsolation B block = .ok mass) ∧ validateBodyInContext B block = .ok ()

theorem BodyValid.wellFormed {B : BodyProcessor} {block : Block} (valid : BodyValid B block) :
    BlockWellFormed B block := by
  obtain ⟨⟨mass, isolation⟩, context⟩ := valid
  exact blockWellFormed_of_validated isolation context

theorem calculateUtxoState_conserves {M : Type} (V : VirtualProcessor M) (m : M)
    (history : List Transaction) (state : StoredState) (selectedParent : Block)
    (mergeset : List Block) (coinbase : Transaction) (pov : UInt64)
    (amounts : state.amounts ≤ maxSompi.toNat) (petals : state.petals ≤ maxSompi.toNat)
    (bodies : ∀ block ∈ selectedParent :: mergeset, BodyValid V.toBodyProcessor block)
    (hashes : ((selectedParent :: mergeset).map fun block => block.header.hash).Nodup)
    (consistent : Consistent V.crypto.hashers history state.ledger)
    (free : NoCollisions V.crypto.hashers (involved history (selectedParent :: mergeset)))
    (first : selectedParent.transactions.head? = some coinbase)
    (coinbaseNew : ∀ t ∈ history, t.id V.crypto.hashers ≠ coinbase.id V.crypto.hashers)
    (inRange : InRange V state.ledger) (povInRange : ScoreInRange V.validator pov) :
    ∃ ctx, calculateUtxoState V (.new m) selectedParent mergeset state.utxos.lookup
        state.pool.lookup pov = .ok ctx ∧
      (state.writeDiffs ctx.mergesetDiff ctx.mergesetPoolDiff).amounts +
          (state.writeDiffs ctx.mergesetDiff ctx.mergesetPoolDiff).petals +
          recordedFees ctx.mergesetRewards =
        state.amounts + state.petals + outputsValue coinbase := by
  have input : WalkInput V history state.ledger selectedParent mergeset :=
    ⟨consistent, fun block member => (bodies block member).wellFormed, free,
      fun cb here => Option.some.inj (first.symm.trans here) ▸ coinbaseNew⟩
  obtain ⟨_, first', _, wellFormed, _⟩ := input.coinbase
  obtain rfl := Option.some.inj (first.symm.trans first')
  have minted : outputsValue coinbase ≤ maxSompi.toNat := wellFormed.total
  rw [maxSompi_toNat] at amounts petals minted
  obtain ⟨ctx, done⟩ := Outcome.ok_of_safe fun _ => input.calculateUtxoState_safe first
    (fun _ => ⟨⟨_, state.worth, by omega⟩, inRange, povInRange⟩) (m := m)
  refine ⟨ctx, done, ?_⟩
  obtain ⟨walked, _, recorded⟩ := input.calculateUtxoState_ok first rfl done
  obtain ⟨n, worthAfter, conserved⟩ := input.worth_result first rfl state.worth
  rw [← StoredState.ledger_writeDiffs walked.reads walked.poolReads] at worthAfter
  rw [← StoredState.worth_unique worthAfter, recorded hashes]
  exact conserved

/-! ## A small node

Hash functions that tell the transactions below apart, and services that accept everything. -/

namespace Sample

def hashers : Hashers where
  transactionID := Hash.fromBytes
  payloadDigest := Hash.fromBytes
  transactionRest := Hash.fromBytes
  transactionV1Id bs := Hash.fromBytes (bs.take 32)
  notePoolLeaf := Hash.fromBytes
  notePoolSerial := Hash.fromBytes
  notePoolSigning := Hash.fromBytes
  notePoolOutputs := Hash.fromBytes
  notePoolSmt _ := 0
  notePoolSmtCollapsed _ := 0

def validator : TransactionValidator where
  maxTxInputs := 10
  maxTxOutputs := 10
  outputsNumbered := by decide
  maxSignatureScriptLen := 100
  maxScriptPublicKeyLen := 100
  coinbasePayloadScriptPublicKeyMaxLen := 150
  coinbaseMaturity := 0
  ghostdagK := 10
  wideLanesActivation := 0
  anchorPayload _ := .error .unavailable
  storageMass _ _ := some 0
  covenantsValid _ _ := true
  scriptValid _ _ _ _ := true

def node : VirtualProcessor Unit where
  crypto := ⟨hashers, fun _ => true, fun _ _ _ => true⟩
  validator := validator
  noteLocksActivation := 0
  coinbaseManager := ⟨150, 204, fun _ => 0⟩
  calcHashMerkleRoot _ := 0
  nonContextualMasses _ := (0, 0)
  computeMassLimit := 0
  transientMassLimit := 0
  storageMassLimit := 0
  lanesPerBlock := 10
  gasPerLane := 0
  hasBody _ := true
  pastMedianTime _ := 0
  muHash := ⟨(), fun _ _ _ => (), fun _ _ _ => (), fun _ _ => (), fun _ => 0⟩
  txHash tx := tx.id hashers
  recomputeSeqCommit _ _ _ := 0
  expectedHeaderPruningPoint _ := 0
  mergesetNonDaa _ := []

/-- A coinbase with a payload of its own. -/
def coinbase (extraData : UInt8) (values : List UInt64) : Transaction where
  version := 1
  inputs := []
  outputs := values.map fun value => ⟨value, ⟨0, []⟩, none⟩
  lockTime := 0
  subnetworkId := SubnetworkId.coinbase
  gas := 0
  payload := List.replicate 19 0 ++ [extraData]
  storageMass := 0

def earlierCoinbase : Transaction := coinbase 1 [200000000]

/-- Pays an output of the earlier coinbase into a note of one coin, and the rest as a fee. -/
def mint (index : UInt32) (pk : PublicKey) : Transaction where
  version := 1
  inputs := [⟨⟨earlierCoinbase.id hashers, index⟩, [], 0, .computeBudget 0⟩]
  outputs := []
  lockTime := 0
  subnetworkId := SubnetworkId.notePool
  gas := 0
  payload := [0] ++ u32LE 1 ++ [2] ++ Hash.asBytes pk
  storageMass := 0

def block (hash parent : Hash) (daaScore : UInt64) (transactions : List Transaction) : Block :=
  ⟨⟨hash, [parent], 0, 0, 0, 0, daaScore, 0, 0⟩, transactions⟩

/-- What the earlier coinbase left behind. -/
def state : StoredState :=
  ⟨(∅ : UtxoCollection).insert ⟨earlierCoinbase.id hashers, 0⟩ ⟨200000000, ⟨0, []⟩, 0, true, none⟩, ∅⟩

def parent : Block := block 1 0 5 [coinbase 2 [500], mint 0 7]

private theorem live_iff {outpoint : TransactionOutpoint} {entry : UtxoEntry} :
    state.ledger.utxos outpoint = some entry ↔ outpoint = ⟨earlierCoinbase.id hashers, 0⟩ ∧
      ⟨200000000, ⟨0, []⟩, 0, true, none⟩ = entry := by
  simp only [StoredState.ledger, state, Map.lookup_insert_eq, AList.lookup_empty,
    Option.ite_none_right_eq_some, Option.some.injEq]

theorem consistent : Consistent hashers [earlierCoinbase] state.ledger where
  utxos outpoint entry live := by
    obtain ⟨rfl, rfl⟩ := live_iff.mp live
    exact ⟨earlierCoinbase, List.mem_singleton.mpr rfl, by decide +kernel⟩
  notes sn entry live := by cases live
  spent t member outpoint input := by
    obtain rfl := List.mem_singleton.mp member
    cases input
  consumed t member sn input := by
    obtain rfl := List.mem_singleton.mp member
    cases input

theorem inRange : InRange node state.ledger := by
  intro outpoint entry live
  obtain ⟨_, rfl⟩ := live_iff.mp live
  exact ⟨by decide, by decide⟩

end Sample

open Sample in
/-- A selected parent that mints a note from an earlier coinbase's output. -/
theorem calculateUtxoState_conserves_mint :
    ∃ ctx, calculateUtxoState node (.new ()) parent [] state.utxos.lookup
        state.pool.lookup 10 = .ok ctx ∧
      (state.writeDiffs ctx.mergesetDiff ctx.mergesetPoolDiff).amounts +
          (state.writeDiffs ctx.mergesetDiff ctx.mergesetPoolDiff).petals +
          recordedFees ctx.mergesetRewards = 200000000 + 0 + 500 := by
  have bodies : ∀ block ∈ [parent], BodyValid node.toBodyProcessor block := by
    rw [List.forall_mem_singleton]
    exact ⟨⟨_, rfl⟩, rfl⟩
  have free : NoCollisions Sample.hashers (involved [earlierCoinbase] [parent]) := by
    rw [involved_eq]
    exact noCollisions_of_nodup (by decide +kernel) (by decide +kernel)
  exact calculateUtxoState_conserves node () [earlierCoinbase] state
    parent [] (coinbase 2 [500]) 10 (by decide +kernel) (by decide +kernel) bodies
    (by decide +kernel) consistent free rfl (by decide +kernel) inRange
    ⟨by decide, by decide⟩

open Sample in
/-- A state that holds the output of the selected parent's coinbase already: the walk puts the new
entry over the old one, and the old amount is gone. -/
theorem calculateUtxoState_overwrites_coinbase :
    BodyValid node.toBodyProcessor (block 1 0 5 [earlierCoinbase]) ∧
      state.amounts ≤ maxSompi.toNat ∧ state.petals ≤ maxSompi.toNat ∧
      ∃ ctx, calculateUtxoState node (.new ()) (block 1 0 5 [earlierCoinbase]) []
          state.utxos.lookup state.pool.lookup 10 = .ok ctx ∧
        (state.writeDiffs ctx.mergesetDiff ctx.mergesetPoolDiff).amounts +
            (state.writeDiffs ctx.mergesetDiff ctx.mergesetPoolDiff).petals +
            recordedFees ctx.mergesetRewards = 200000000 ∧
        state.amounts + state.petals + outputsValue earlierCoinbase =
          400000000 :=
  ⟨⟨⟨_, rfl⟩, rfl⟩, by decide +kernel, by decide +kernel, _, rfl, by decide +kernel,
    by decide +kernel⟩

end Marigold.Consensus
