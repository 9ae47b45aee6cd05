import Marigold.Consensus.Coinbase
import Marigold.Consensus.TxInContext

/-!
# Block bodies

`pipeline/body_processor`: what a block body has to satisfy before its transactions are looked at in
UTXO context. The walk over a mergeset relies on these checks for every conflict between two
transactions of one block.
-/

namespace Marigold.Consensus

open Lib NotePool Utxo Outcome

structure Header where
  hash : Hash
  directParents : List Hash
  hashMerkleRoot : Hash
  acceptedIdMerkleRoot : Hash
  utxoCommitment : Hash
  poolCommitment : Hash
  daaScore : UInt64
  blueScore : UInt64
  pruningPoint : Hash

structure Block where
  header : Header
  transactions : List Transaction

inductive RuleError where
  | missingParents (missing : List Hash)
  | badMerkleRoot (header calculated : Hash)
  | noTransactions
  | firstTxNotCoinbase
  | multipleCoinbases (i : Nat)
  | badCoinbasePayload (e : CoinbaseError)
  | badCoinbasePayloadBlueScore (payload header : UInt64)
  | wrongSubsidy (expected payload : UInt64)
  | txInIsolationValidationFailed (id : TransactionId) (e : TxRuleError)
  | txInContextFailed (id : TransactionId) (e : TxRuleError)
  | exceedsComputeMassLimit (mass limit : UInt64)
  | exceedsTransientMassLimit (mass limit : UInt64)
  | exceedsStorageMassLimit (mass limit : UInt64)
  | exceedsLanesPerBlockLimit (lanes limit : Nat)
  | exceedsGasPerLaneLimit (lane : SubnetworkId) (gas limit : UInt64)
  | duplicateTransactions (id : TransactionId)
  | doubleSpendInSameBlock (outpoint : TransactionOutpoint)
  | doubleSerialSpendInSameBlock (sn : Hash)
  | chainedTransaction (outpoint : TransactionOutpoint)
  | badUTXOCommitment (block header expected : Hash)
  | badPoolCommitment (block header expected : Hash)
  | badAcceptedIDMerkleRoot (block header expected : Hash)
  | badCoinbaseTransaction
  | wrongHeaderPruningPoint (expected header : Hash)
  | wrongSelectedParentOrder (block selectedParent firstParent : Hash)
  | invalidTransactionsInUtxoContext (invalid count : Nat)
  deriving DecidableEq

/-- `BlockBodyProcessor`, and what it takes from other parts: Merkle roots, masses, which blocks
have a body, past median times. -/
structure BodyProcessor extends TxContext where
  coinbaseManager : CoinbaseManager
  calcHashMerkleRoot : List Transaction → Hash
  /-- Compute mass and transient mass. -/
  nonContextualMasses : Transaction → UInt64 × UInt64
  computeMassLimit : UInt64
  transientMassLimit : UInt64
  storageMassLimit : UInt64
  lanesPerBlock : Nat
  gasPerLane : UInt64
  hasBody : Hash → Bool
  pastMedianTime : Hash → UInt64

def saturatingAdd (a b : UInt64) : UInt64 :=
  if a.toNat + b.toNat < 2 ^ 64 then a + b else UInt64.ofNat (2 ^ 64 - 1)

/-- The first element that occurred before, as a set filled in order finds it. -/
def firstRepeated {α : Type} [DecidableEq α] (seen : List α) : List α → Option α
  | [] => none
  | a :: rest => if a ∈ seen then some a else firstRepeated (a :: seen) rest

/-- The checks that no item of a block occurs twice. -/
def checkNoneRepeated {α : Type} [DecidableEq α] (e : α → RuleError) (items : List α) : Except RuleError Unit :=
  match firstRepeated [] items with
  | some a => .error (e a)
  | none => .ok ()

section Isolation

variable (B : BodyProcessor) (block : Block)

def checkHasTransactions : Except RuleError Unit :=
  if block.transactions.isEmpty then .error .noTransactions else .ok ()

def checkHashMerkleRoot : Except RuleError Unit :=
  let calculated := B.calcHashMerkleRoot block.transactions
  if calculated ≠ block.header.hashMerkleRoot then
    .error (.badMerkleRoot block.header.hashMerkleRoot calculated)
  else .ok ()

def checkOnlyOneCoinbase : Except RuleError Unit :=
  match block.transactions with
  | [] => .error .noTransactions
  | first :: rest =>
    if !first.isCoinbase then .error .firstTxNotCoinbase
    else
      match rest.findIdx? Transaction.isCoinbase with
      | some i => .error (.multipleCoinbases i)
      | none => .ok ()

def checkTransactionsInIsolation (daaScore : UInt64) : List Transaction → Except RuleError Unit
  | [] => .ok ()
  | tx :: rest =>
    match validateTxInIsolation B.validator tx daaScore with
    | .error e => .error (.txInIsolationValidationFailed (tx.id B.crypto.hashers) e)
    | .ok _ => checkTransactionsInIsolation daaScore rest

/-- The masses summed so far and the gas used in each lane. -/
structure BlockMass where
  compute : UInt64
  transient : UInt64
  storage : UInt64
  lanes : Map SubnetworkId UInt64

/-- A lane's gas with one more transaction; a new lane needs room. -/
def laneGas (mass : BlockMass) (tx : Transaction) : Except RuleError UInt64 :=
  match mass.lanes.lookup tx.subnetworkId with
  | some gas => .ok (saturatingAdd gas tx.gas)
  | none =>
    if mass.lanes.entries.length ≥ B.lanesPerBlock then
      .error (.exceedsLanesPerBlockLimit (mass.lanes.entries.length + 1) B.lanesPerBlock)
    else .ok tx.gas

def addToLane (mass : BlockMass) (tx : Transaction) : Except RuleError BlockMass :=
  if tx.isCoinbase then .ok mass
  else do
    let gas ← laneGas B mass tx
    if gas > B.gasPerLane then
      .error (.exceedsGasPerLaneLimit tx.subnetworkId gas B.gasPerLane)
    else return { mass with lanes := mass.lanes.insert tx.subnetworkId gas }

def addMass (mass : BlockMass) (tx : Transaction) : Except RuleError BlockMass :=
  let masses := B.nonContextualMasses tx
  let compute := saturatingAdd mass.compute masses.1
  let transient := saturatingAdd mass.transient masses.2
  let storage := saturatingAdd mass.storage tx.storageMass
  if compute > B.computeMassLimit then .error (.exceedsComputeMassLimit compute B.computeMassLimit)
  else if transient > B.transientMassLimit then
    .error (.exceedsTransientMassLimit transient B.transientMassLimit)
  else if storage > B.storageMassLimit then
    .error (.exceedsStorageMassLimit storage B.storageMassLimit)
  else addToLane B ⟨compute, transient, storage, mass.lanes⟩ tx

def checkBlockMass : Except RuleError BlockMass :=
  block.transactions.foldlM (addMass B) ⟨0, 0, 0, ∅⟩

def checkDuplicateTransactions : Except RuleError Unit :=
  checkNoneRepeated .duplicateTransactions (block.transactions.map (Transaction.id B.crypto.hashers))

/-- The outpoints all transactions of the block spend. -/
def Block.spentOutpoints : List TransactionOutpoint :=
  block.transactions.flatMap fun tx => tx.inputs.map TransactionInput.previousOutpoint

def checkBlockDoubleSpends : Except RuleError Unit :=
  checkNoneRepeated .doubleSpendInSameBlock block.spentOutpoints

/-- The serials a transaction consumes. -/
def consumedSerialsOf (tx : Transaction) : List Hash := tx.poolOp.elim [] PoolOp.consumedSerials

def checkBlockDoubleSerials : Except RuleError Unit :=
  checkNoneRepeated .doubleSerialSpendInSameBlock (block.transactions.flatMap consumedSerialsOf)

/-- The outpoints a transaction creates. -/
def createdOutpoints (H : Hashers) (tx : Transaction) : List TransactionOutpoint :=
  (List.range tx.outputs.length).map fun i => ⟨tx.id H, UInt32.ofNat i⟩

def checkNoChainedTransactions : Except RuleError Unit :=
  let created := block.transactions.flatMap (createdOutpoints B.crypto.hashers)
  match block.spentOutpoints.find? fun outpoint => decide (outpoint ∈ created) with
  | some outpoint => .error (.chainedTransaction outpoint)
  | none => .ok ()

def validateBodyInIsolation : Except RuleError BlockMass := do
  checkHasTransactions block
  checkHashMerkleRoot B block
  checkOnlyOneCoinbase block
  checkTransactionsInIsolation B block.header.daaScore block.transactions
  let mass ← checkBlockMass B block
  checkDuplicateTransactions B block
  checkBlockDoubleSpends block
  checkBlockDoubleSerials block
  checkNoChainedTransactions B block
  return mass

end Isolation

/-! ## In the context of the header -/

section Context

variable (B : BodyProcessor) (block : Block)

def lockTimeThreshold : UInt64 := 500000000000

/-- What the lock time is compared with; `none` for a finalized transaction. -/
def lockTimeArg (tx : Transaction) : Option UInt64 :=
  if tx.lockTime = 0 then none
  else if tx.lockTime < lockTimeThreshold then some block.header.daaScore
  else some (B.pastMedianTime block.header.hash)

def checkTxIsFinalized (tx : Transaction) : Except RuleError Unit :=
  match lockTimeArg B block tx with
  | none => .ok ()
  | some timeOrDaaScore =>
    if tx.lockTime < timeOrDaaScore then .ok ()
    else
      match tx.inputs.findIdx? fun input => input.sequence != UInt64.ofNat (2 ^ 64 - 1) with
      | some i => .error (.txInContextFailed (tx.id B.crypto.hashers) (.notFinalized i))
      | none => .ok ()

def checkParentBodiesExist : Except RuleError Unit :=
  let missing := block.header.directParents.filter fun parent => !B.hasBody parent
  if missing ≠ [] then .error (.missingParents missing) else .ok ()

def checkCoinbaseBlueScoreAndSubsidy : Except RuleError Unit :=
  match block.transactions with
  | [] => .error .noTransactions
  | coinbase :: _ =>
    match B.coinbaseManager.deserializeCoinbasePayload coinbase.payload with
    | .error e => .error (.badCoinbasePayload e)
    | .ok data =>
      let expected := B.coinbaseManager.calcBlockSubsidy block.header.daaScore
      if data.blueScore ≠ block.header.blueScore then
        .error (.badCoinbasePayloadBlueScore data.blueScore block.header.blueScore)
      else if data.subsidy ≠ expected then .error (.wrongSubsidy expected data.subsidy)
      else .ok ()

def validateBodyInContext : Except RuleError Unit := do
  checkParentBodiesExist B block
  checkCoinbaseBlueScoreAndSubsidy B block
  block.transactions.forM (checkTxIsFinalized B block)

end Context

/-! ## What body validation guarantees -/

/-- `transactions[0]` is the coinbase, the rest are ordinary and do not get in each other's way. -/
structure BlockWellFormed (B : BodyProcessor) (block : Block) : Prop where
  coinbase : ∃ coinbase rest, block.transactions = coinbase :: rest ∧ coinbase.isCoinbase = true ∧
    (∀ tx ∈ rest, tx.isCoinbase = false) ∧
    ∃ data, B.coinbaseManager.deserializeCoinbasePayload coinbase.payload = .ok data
  isolated : ∀ tx ∈ block.transactions, TxWellFormed B.validator tx
  ids : (block.transactions.map (Transaction.id B.crypto.hashers)).Nodup
  spends : block.spentOutpoints.Nodup
  serials : (block.transactions.flatMap consumedSerialsOf).Nodup
  unchained : ∀ outpoint ∈ block.spentOutpoints,
    outpoint ∉ block.transactions.flatMap (createdOutpoints B.crypto.hashers)

variable {α : Type} {items : List α} {B : BodyProcessor} {block : Block}

theorem firstRepeated_eq_none [DecidableEq α] {seen : List α} :
    firstRepeated seen items = none ↔ items.Nodup ∧ ∀ a ∈ items, a ∉ seen := by
  induction items generalizing seen with
  | nil => simp [firstRepeated]
  | cons a rest ih =>
    unfold firstRepeated
    split_ifs with known
    · simp [known]
    · rw [ih]
      simp only [List.mem_cons, not_or, List.nodup_cons, forall_eq_or_imp]
      constructor
      · rintro ⟨nodup, apart⟩
        exact ⟨⟨fun member => (apart a member).1 rfl, nodup⟩, known, fun b hb => (apart b hb).2⟩
      · rintro ⟨⟨head, nodup⟩, _, apart⟩
        exact ⟨nodup, fun b hb => ⟨fun same => head (same ▸ hb), apart b hb⟩⟩

private theorem checkNoneRepeated_ok [DecidableEq α] {e : α → RuleError}
    (done : checkNoneRepeated e items = .ok ()) : items.Nodup := by
  unfold checkNoneRepeated at done
  split at done
  · cases done
  next none => exact (firstRepeated_eq_none.mp none).1

private theorem checkTransactionsInIsolation_ok {daaScore : UInt64} {txs : List Transaction}
    (done : checkTransactionsInIsolation B daaScore txs = .ok ()) : ∀ tx ∈ txs, TxWellFormed B.validator tx := by
  induction txs with
  | nil => simp
  | cons tx rest ih =>
    unfold checkTransactionsInIsolation at done
    split at done
    · cases done
    next valid =>
      rw [List.forall_mem_cons]
      exact ⟨validateTxInIsolation_ok valid, ih done⟩

private theorem checkOnlyOneCoinbase_ok (done : checkOnlyOneCoinbase block = .ok ()) :
    ∃ coinbase rest, block.transactions = coinbase :: rest ∧ coinbase.isCoinbase = true ∧
      ∀ tx ∈ rest, tx.isCoinbase = false := by
  unfold checkOnlyOneCoinbase at done
  split at done
  · cases done
  next first rest whole =>
    split_ifs at done with ordinary
    split at done
    · cases done
    next none =>
      exact ⟨first, rest, whole, by simpa using ordinary, List.findIdx?_eq_none_iff.mp none⟩

private theorem checkCoinbaseBlueScoreAndSubsidy_ok {coinbase : Transaction}
    {rest : List Transaction} (whole : block.transactions = coinbase :: rest)
    (done : checkCoinbaseBlueScoreAndSubsidy B block = .ok ()) :
    ∃ data, B.coinbaseManager.deserializeCoinbasePayload coinbase.payload = .ok data := by
  unfold checkCoinbaseBlueScoreAndSubsidy at done
  rw [whole] at done
  simp only at done
  split at done
  · cases done
  next data decoded => exact ⟨data, decoded⟩

theorem blockWellFormed_of_validated {mass : BlockMass} (isolation : validateBodyInIsolation B block = .ok mass)
    (context : validateBodyInContext B block = .ok ()) : BlockWellFormed B block := by
  unfold validateBodyInIsolation at isolation
  obtain ⟨_, _, isolation⟩ := bind_eq_ok.mp isolation
  obtain ⟨_, _, isolation⟩ := bind_eq_ok.mp isolation
  obtain ⟨_, coinbases, isolation⟩ := bind_eq_ok.mp isolation
  obtain ⟨_, isolated, isolation⟩ := bind_eq_ok.mp isolation
  obtain ⟨_, _, isolation⟩ := bind_eq_ok.mp isolation
  obtain ⟨_, ids, isolation⟩ := bind_eq_ok.mp isolation
  obtain ⟨_, spends, isolation⟩ := bind_eq_ok.mp isolation
  obtain ⟨_, serials, isolation⟩ := bind_eq_ok.mp isolation
  obtain ⟨_, unchained, _⟩ := bind_eq_ok.mp isolation
  unfold validateBodyInContext at context
  obtain ⟨_, _, context⟩ := bind_eq_ok.mp context
  obtain ⟨_, payload, _⟩ := bind_eq_ok.mp context
  obtain ⟨coinbase, rest, whole, first, ordinary⟩ := checkOnlyOneCoinbase_ok coinbases
  refine ⟨⟨coinbase, rest, whole, first, ordinary, checkCoinbaseBlueScoreAndSubsidy_ok whole payload⟩,
    checkTransactionsInIsolation_ok isolated, checkNoneRepeated_ok ids, checkNoneRepeated_ok spends,
    checkNoneRepeated_ok serials, ?_⟩
  unfold checkNoChainedTransactions at unchained
  simp only at unchained
  split at unchained
  · cases unchained
  next none => simpa using none

end Marigold.Consensus
