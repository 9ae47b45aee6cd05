import Marigold.Consensus.Body
import Marigold.Lib.Calls
import Marigold.Lib.Reach
import Marigold.Mining.Selectors

/-!
# The transactions pool

`mempool/model/transactions_pool.rs` with its indexes: who spends which outpoint, who consumes which serial,
which transaction spends outputs of which other, the ready transactions and the total size. Feerates are
quotients of floating-point numbers; how two of them compare is a parameter.
-/

namespace Marigold.Mining

open Lib Consensus

/-- `mempool::errors::RuleError`. -/
inductive RuleError where
  | rejectMissingOutpoint
  | rejectImpossibleOutpoint
  | rejectCoinbase (id : TransactionId)
  | rejectDuplicate (id : TransactionId)
  | rejectAlreadyAccepted (id : TransactionId)
  | rejectDisallowedOrphan (id : TransactionId)
  | rejectDoubleSpendInMempool (outpoint : TransactionOutpoint) (owner : TransactionId)
  | rejectSerialConflictInMempool (serial : Hash) (owner : TransactionId)
  | rejectRbfNoDoubleSpend
  | rejectRbfTooManyDoubleSpendingTransactions
  | rejectMempoolIsFull
  | rejectMissingTransaction (id : TransactionId)
  | rejectDuplicateOrphan (id : TransactionId)
  | rejectBadOrphanMass (mass limit : Nat)
  | rejectDoubleSpendOrphan (id other : TransactionId)
  | rejectOrphanPoolIsFull (count limit : Nat)
  | rejectMissingOrphanTransaction (id : TransactionId)
  | rejectMissingOrphanOutpoint (i : Nat) (id : TransactionId) (outpoint : TransactionOutpoint)
  /-- A block limit or a standardness rule. -/
  | rejectNonStandard (id : TransactionId) (reason : String)
  | rejectTxRule (e : TxRuleError)
  deriving DecidableEq, Repr

abbrev RuleResult := Except RuleError

/-- A method that changes `S`. -/
abbrev Action (S α : Type) := Call S (Failure RuleError) α

namespace Action

variable {S T α : Type}

def reject (e : RuleError) : Action S α := Call.fail (.rule e)

/-- `?` on a result that leaves the state as it is. -/
def check (result : RuleResult α) : Action S α := Call.ofExcept (Outcome.ofExcept id result)

/-- `assert!`. -/
def assert (holds : Bool) : Action S Unit := if holds then pure () else Call.fail (.panic .unwrap)

def expect (found : Option α) : Action S α := Call.ofExcept (Outcome.expect found)

/-- A rule error is handled by the caller, a panic is not. -/
def attempt (c : Action S α) : Action S (Option α) := fun s =>
  match c s with
  | (.ok a, s') => (.ok (some a), s')
  | (.error (.rule _), s') => (.ok none, s')
  | (.error (.panic cause), s') => (.error (.panic cause), s')

end Action

/-! ## Transactions -/

/-- A transaction and what is known about it; one entry for each input. -/
structure MutableTransaction where
  tx : Transaction
  entries : List (Option UtxoEntry)
  calculatedFee : Option UInt64
  /-- Compute mass and transient mass. -/
  calculatedNonContextualMasses : Option (UInt64 × UInt64)
  sized : entries.length = tx.inputs.length

namespace MutableTransaction

def fromTx (tx : Transaction) : MutableTransaction :=
  ⟨tx, List.replicate tx.inputs.length none, none, none, List.length_replicate⟩

variable (mtx : MutableTransaction)

def isVerifiable : Bool := mtx.entries.all Option.isSome

def isFullyPopulated : Bool :=
  mtx.isVerifiable && mtx.calculatedFee.isSome && mtx.calculatedNonContextualMasses.isSome

/-- Each input's entry, set from the input and what it was. -/
def setEntries (f : TransactionInput → Option UtxoEntry → Option UtxoEntry) :
    MutableTransaction :=
  { mtx with entries := List.zipWith f mtx.tx.inputs mtx.entries
             sized := by rw [List.length_zipWith, mtx.sized, Nat.min_self] }

def spends : List TransactionOutpoint :=
  mtx.tx.inputs.map TransactionInput.previousOutpoint

/-- The transactions whose outputs are spent. -/
def parents : List TransactionId := mtx.spends.map TransactionOutpoint.transactionId

def consumedSerials : List Hash := consumedSerialsOf mtx.tx

def hasParentInSet (ids : List TransactionId) : Bool :=
  mtx.parents.any fun id => decide (id ∈ ids)

end MutableTransaction

inductive Priority where
  /-- Provenance is P2P. -/
  | low
  /-- Provenance is RPC submit. -/
  | high
  deriving DecidableEq, Repr

inductive Orphan where
  | forbidden
  | allowed
  deriving DecidableEq, Repr

inductive RbfPolicy where
  | forbidden
  | allowed
  | mandatory
  deriving DecidableEq, Repr

structure MempoolTransaction where
  mtx : MutableTransaction
  priority : Priority
  addedAtDaaScore : UInt64

structure Config where
  idOf : Transaction → TransactionId
  maximumTransactionCount : Nat
  mempoolSizeLimit : Nat
  maximumOrphanTransactionCount : Nat
  maximumOrphanTransactionNormalizedMass : Nat
  orphanExpireIntervalDaaScore : UInt64
  orphanExpireScanIntervalDaaScore : UInt64
  acceptedTransactionExpireIntervalDaaScore : UInt64
  acceptOwnBelowFloor : Bool
  feeIsBelowRelayFloor : MutableTransaction → Bool
  validateInIsolation : MutableTransaction → RuleResult Unit
  validateInContext : MutableTransaction → Priority → RuleResult Unit
  /-- `mempool_estimated_bytes`. -/
  estimatedBytes : MutableTransaction → Nat
  /-- `normalized_max` of the non-contextual masses alone, and with the storage mass. -/
  normalizedNonContextual : UInt64 × UInt64 → Nat
  normalizedMass : UInt64 × UInt64 → UInt64 → Nat
  /-- Whether a fee for a mass is a higher feerate than another. -/
  feerateAbove : UInt64 × Nat → UInt64 × Nat → Bool
  /-- `total_cmp` of the weights of two fees for their masses. -/
  compareWeights : UInt64 × Nat → UInt64 × Nat → Ordering
  compareWeights_self : ∀ feerate, compareWeights feerate feerate = .eq

variable (C : Config)

def MutableTransaction.id (mtx : MutableTransaction) : TransactionId := C.idOf mtx.tx

/-- `calculated_feerate`: the fee and the mass it is divided by. -/
def MutableTransaction.calculatedFeerate (mtx : MutableTransaction) : Option (UInt64 × Nat) :=
  match mtx.calculatedNonContextualMasses, mtx.calculatedFee with
  | some masses, some fee => some (fee, C.normalizedMass masses mtx.tx.storageMass)
  | _, _ => none

/-! ## The frontier -/

namespace FeerateTransactionKey

/-- `expect`s that fee and masses are known. -/
def fromTx (mtx : MutableTransaction) : Option FeerateTransactionKey :=
  (mtx.calculatedFeerate C).map fun feerate => ⟨feerate.1, feerate.2, mtx.tx⟩

/-- By feerate, then by fee, then by id. -/
def cmp (a b : FeerateTransactionKey) : Ordering :=
  (C.compareWeights (a.fee, a.mass) (b.fee, b.mass)).then
    ((compareOfLessAndEq a.fee b.fee).then (compareOfLessAndEq (C.idOf a.tx) (C.idOf b.tx)))

end FeerateTransactionKey

namespace Frontier

def empty : Frontier := ⟨[], 0⟩

/-- Before the first key that is greater. -/
def place (key : FeerateTransactionKey) : List FeerateTransactionKey → List FeerateTransactionKey
  | [] => [key]
  | other :: rest => if key.cmp C other = .lt then key :: other :: rest else other :: place key rest

def insert (F : Frontier) (key : FeerateTransactionKey) : Frontier :=
  if F.searchTree.any fun other => other.cmp C key = .eq then F
  else ⟨place C key F.searchTree, F.totalMass + key.mass⟩

def remove (F : Frontier) (key : FeerateTransactionKey) : Outcome RuleError Frontier :=
  if F.searchTree.any fun other => other.cmp C key = .eq then
    if F.totalMass < key.mass then Outcome.panicked .overflow
    else .ok ⟨F.searchTree.filter fun other => other.cmp C key ≠ .eq, F.totalMass - key.mass⟩
  else .ok F

end Frontier

/-! ## Pools -/

abbrev MempoolTransactionCollection := Map TransactionId MempoolTransaction

abbrev TransactionsEdges := Map TransactionId (List TransactionId)

namespace Pool

variable (all : MempoolTransactionCollection)

def has (id : TransactionId) : Bool := (all.lookup id).isSome

variable {all}

theorem has_of_lookup {id : TransactionId} {tx : MempoolTransaction}
    (there : all.lookup id = some tx) : has all id = true := by
  rw [has, there]
  rfl

theorem has_eq_false {id : TransactionId} : has all id = false ↔ all.lookup id = none := by
  rw [has, Option.isSome_eq_false_iff, Option.isNone_iff_eq_none]

def edgesOf (edges : TransactionsEdges) (id : TransactionId) : List TransactionId :=
  (edges.lookup id).getD []

variable (all)

def getParentTransactionIdsInPool (mtx : MutableTransaction) : List TransactionId :=
  (mtx.parents.filter fun id => has all id).dedup

/-- What is directly or indirectly chained to a transaction of the pool. -/
def getRedeemerIdsInPool (chained : TransactionsEdges) (id : TransactionId) : List TransactionId :=
  if has all id then Reach.search (edgesOf chained) (has all) (all.keys.length + 1) ([], [id]) else []

end Pool

structure TransactionsPool where
  allTransactions : MempoolTransactionCollection
  parentTransactions : TransactionsEdges
  chainedTransactions : TransactionsEdges
  readyTransactions : Frontier
  estimatedSize : Nat
  /-- `MempoolUtxoSet::outpoint_owner_id`. -/
  outpointOwnerId : Map TransactionOutpoint TransactionId
  /-- `MempoolPoolNoteSet::serial_owner_id`. -/
  serialOwnerId : Map Hash TransactionId

namespace TransactionsPool

def empty : TransactionsPool := ⟨∅, ∅, ∅, Frontier.empty, 0, ∅, ∅⟩

variable (pool : TransactionsPool)

def len : Nat := pool.allTransactions.entries.length

variable (id : TransactionId)

/-- One more transaction chained to a parent. -/
def chain (chained : TransactionsEdges) (parent : TransactionId) : TransactionsEdges :=
  chained.insert parent ((Pool.edgesOf chained parent).insert id)

variable (transaction : MempoolTransaction)

def insertReady : Action TransactionsPool Unit := do
  let key ← Action.expect (FeerateTransactionKey.fromTx C transaction.mtx)
  Call.update fun pool => { pool with readyTransactions := pool.readyTransactions.insert C key }

/-- The transaction itself, and what it spends and consumes. -/
def addEntries (transactionSize : Nat) (pool : TransactionsPool) :
    TransactionsPool :=
  let id := transaction.mtx.id C
  { pool with
    outpointOwnerId := Map.putMany pool.outpointOwnerId (transaction.mtx.spends.map fun outpoint => (outpoint, id))
    serialOwnerId := Map.putMany pool.serialOwnerId (transaction.mtx.consumedSerials.map fun serial => (serial, id))
    estimatedSize := pool.estimatedSize + transactionSize
    allTransactions := pool.allTransactions.insert id transaction }

def addMempoolTransaction (transactionSize : Nat) : Action TransactionsPool Unit := do
  let id := transaction.mtx.id C
  let pool ← Call.read fun pool => pool
  Action.assert (!Pool.has pool.allTransactions id)
  Action.assert transaction.mtx.isFullyPopulated
  let parents := Pool.getParentTransactionIdsInPool pool.allTransactions transaction.mtx
  Call.update fun pool => { pool with parentTransactions := pool.parentTransactions.insert id parents }
  if parents = [] then insertReady C transaction else pure ()
  Call.update fun pool => { pool with chainedTransactions := parents.foldl (chain id) pool.chainedTransactions }
  Call.update (addEntries C transaction transactionSize)

def unchain (chained : TransactionsEdges) (parent : TransactionId) : TransactionsEdges :=
  match chained.lookup parent with
  | some chains => chained.insert parent (chains.erase id)
  | none => chained

/-- The parents of a removed transaction no longer have it chained to them. -/
def unlinkParents (pool : TransactionsPool) : TransactionsPool :=
  let parents := Pool.edgesOf pool.parentTransactions id
  { pool with chainedTransactions := parents.foldl (unchain id) pool.chainedTransactions }

/-- A transaction chained to a removed one has one parent less, and is ready if that was the last. -/
def unlinkChain (id chain : TransactionId) : Action TransactionsPool Unit := do
  let pool ← Call.read fun pool => pool
  match pool.parentTransactions.lookup chain with
  | none => pure ()
  | some parents =>
    Call.update fun pool => { pool with parentTransactions := pool.parentTransactions.insert chain (parents.erase id) }
    if parents.erase id = [] then do
      let tx ← Action.expect (pool.allTransactions.lookup chain)
      insertReady C tx
    else pure ()

def removeReady : Action TransactionsPool Unit := do
  let key ← Action.expect (FeerateTransactionKey.fromTx C transaction.mtx)
  let pool ← Call.read fun pool => pool
  let ready ← Call.ofExcept (pool.readyTransactions.remove C key)
  Call.update fun pool => { pool with readyTransactions := ready }

/-- `self.estimated_size -= size`. -/
def subtractSize (size : Nat) : Action TransactionsPool Unit := do
  let pool ← Call.read fun pool => pool
  if pool.estimatedSize < size then Call.fail (.panic .overflow)
  else Call.update fun pool => { pool with estimatedSize := pool.estimatedSize - size }

/-- Removes the transaction from all relational sets and indexes. -/
def removeTransaction : Action TransactionsPool MempoolTransaction := do
  Call.update (unlinkParents id)
  let chains ← Call.read fun pool => Pool.edgesOf pool.chainedTransactions id
  Call.forEach (unlinkChain C id) chains
  Call.update fun pool => { pool with parentTransactions := pool.parentTransactions.erase id
                                      chainedTransactions := pool.chainedTransactions.erase id }
  let pool ← Call.read fun pool => pool
  match pool.allTransactions.lookup id with
  | none => Action.reject (.rejectMissingTransaction id)
  | some removed => do
    Call.update fun pool => { pool with allTransactions := pool.allTransactions.erase id }
    removeReady C removed
    Call.update fun pool =>
      { pool with outpointOwnerId := Map.deleteMany pool.outpointOwnerId removed.mtx.spends
                  serialOwnerId := Map.deleteMany pool.serialOwnerId removed.mtx.consumedSerials }
    subtractSize (C.estimatedBytes removed.mtx)
    let pool ← Call.read fun pool => pool
    Action.assert (pool.allTransactions.entries ≠ [] ∨ pool.estimatedSize = 0)
    pure removed

variable (transaction : MutableTransaction)

def updateRevalidatedTransaction : Action TransactionsPool Bool := do
  let pool ← Call.read fun pool => pool
  match pool.allTransactions.lookup (transaction.id C) with
  | none => pure false
  | some tx => do
    subtractSize (C.estimatedBytes tx.mtx)
    Call.update fun pool =>
      { pool with allTransactions := pool.allTransactions.insert (transaction.id C) { tx with mtx := transaction }
                  estimatedSize := pool.estimatedSize + C.estimatedBytes transaction }
    pure true

/-- The ready transactions of low priority, lowest feerate first, until enough room would be made. -/
def selectForEviction (pool : TransactionsPool) (transaction : MutableTransaction) (transactionSize : Nat)
    (feerateThreshold : UInt64 × Nat) :
    List FeerateTransactionKey → List TransactionId → Nat → Outcome RuleError (List TransactionId)
  | [], _, _ => Outcome.reject .rejectMempoolIsFull
  | key :: rest, txsToRemove, selectionOverallSize => do
    let tx ← Outcome.expect (pool.allTransactions.lookup (C.idOf key.tx))
    let id := tx.mtx.id C
    if tx.priority ≠ .low then
      selectForEviction pool transaction transactionSize feerateThreshold rest txsToRemove selectionOverallSize
    else
      let redeemers := Pool.getRedeemerIdsInPool pool.allTransactions pool.chainedTransactions id
      if transaction.hasParentInSet (redeemers ++ [id]) then
        selectForEviction pool transaction transactionSize feerateThreshold rest txsToRemove selectionOverallSize
      else
        let feerate ← Outcome.expect (tx.mtx.calculatedFeerate C)
        if C.feerateAbove feerate feerateThreshold then Outcome.reject .rejectMempoolIsFull
        else
          let txsToRemove := txsToRemove ++ [id]
          let selectionOverallSize := selectionOverallSize + C.estimatedBytes tx.mtx
          if pool.len + 1 < txsToRemove.length ∨ pool.estimatedSize + transactionSize < selectionOverallSize then
            Outcome.panicked .overflow
          else if pool.len + 1 - txsToRemove.length ≤ C.maximumTransactionCount ∧
              pool.estimatedSize + transactionSize - selectionOverallSize ≤ C.mempoolSizeLimit then
            .ok txsToRemove
          else
            selectForEviction pool transaction transactionSize feerateThreshold rest txsToRemove selectionOverallSize

def hasRoomFor (transactionSize : Nat) : Bool :=
  pool.len < C.maximumTransactionCount ∧ pool.estimatedSize + transactionSize ≤ C.mempoolSizeLimit

/-- The transactions to evict to make room for `transaction`. -/
def limitTransactionCount (transactionSize : Nat) : Outcome RuleError (List TransactionId) :=
  if pool.hasRoomFor C transactionSize then .ok []
  else do
    let feerateThreshold ← Outcome.expect (transaction.calculatedFeerate C)
    selectForEviction C pool transaction transactionSize feerateThreshold pool.readyTransactions.searchTree [] 0

/-! ## Conflicts -/

/-- The outpoints the transaction spends that another transaction of the pool owns, with their owners. -/
def conflicts : List (TransactionOutpoint × TransactionId) :=
  transaction.spends.filterMap fun outpoint =>
    match pool.outpointOwnerId.lookup outpoint with
    | some owner => if owner ≠ transaction.id C then some (outpoint, owner) else none
    | none => none

def checkDoubleSpends : RuleResult Unit :=
  match pool.conflicts C transaction with
  | [] => .ok ()
  | (outpoint, owner) :: _ => .error (.rejectDoubleSpendInMempool outpoint owner)

/-- The first of each owner's. -/
def firstOfEach : List TransactionId → List (TransactionOutpoint × TransactionId) →
    List (TransactionOutpoint × TransactionId)
  | _, [] => []
  | visited, doubleSpend :: rest =>
    if doubleSpend.2 ∈ visited then firstOfEach visited rest
    else doubleSpend :: firstOfEach (doubleSpend.2 :: visited) rest

def getDoubleSpendTransactionIds : List (TransactionOutpoint × TransactionId) :=
  firstOfEach [] (pool.conflicts C transaction)

def checkSerialConflicts : RuleResult Unit :=
  match transaction.consumedSerials.findSome? fun serial =>
      match pool.serialOwnerId.lookup serial with
      | some owner => if owner ≠ transaction.id C then some (serial, owner) else none
      | none => none with
  | none => .ok ()
  | some (serial, owner) => .error (.rejectSerialConflictInMempool serial owner)

end TransactionsPool

/-! ## Orphans -/

structure OrphanPool where
  allOrphans : MempoolTransactionCollection
  chainedOrphans : TransactionsEdges
  outpointOwnerId : Map TransactionOutpoint TransactionId
  lastExpireScan : UInt64

namespace OrphanPool

def empty : OrphanPool := ⟨∅, ∅, ∅, 0⟩

variable (pool : OrphanPool)

def len : Nat := pool.allOrphans.entries.length

def outpointOrphan (outpoint : TransactionOutpoint) : Option MempoolTransaction :=
  (pool.outpointOwnerId.lookup outpoint).bind pool.allOrphans.lookup

variable (id : TransactionId)

/-- The outpoints of a transaction's outputs. -/
def outputsOf (tx : Transaction) : List TransactionOutpoint :=
  (List.range tx.outputs.length).map fun i => ⟨id, UInt32.ofNat i⟩

variable (virtualDaaScore : UInt64)

variable (transaction : MutableTransaction)

def addOrphan (priority : Priority) (pool : OrphanPool) : OrphanPool :=
  let id := transaction.id C
  let owners := Map.putMany pool.outpointOwnerId (transaction.spends.map fun outpoint => (outpoint, id))
  let incoming := (Pool.getParentTransactionIdsInPool pool.allOrphans transaction).foldl
    (TransactionsPool.chain id) pool.chainedOrphans
  let children := (outputsOf id transaction.tx).filterMap fun outpoint =>
    ((owners.lookup outpoint).bind pool.allOrphans.lookup).map fun orphan => orphan.mtx.id C
  { pool with
    outpointOwnerId := owners
    chainedOrphans := children.foldl (fun chained child => TransactionsPool.chain child chained id) incoming
    allOrphans := pool.allOrphans.insert id ⟨transaction, priority, virtualDaaScore⟩ }

/-- An orphan is no longer chained to a parent; an empty entry is dropped. -/
def unchainOrphan (chained : TransactionsEdges) (parent : TransactionId) : TransactionsEdges :=
  match chained.lookup parent with
  | none => chained
  | some chains => if chains.erase id = [] then chained.erase parent else chained.insert parent (chains.erase id)

/-- The last input whose outpoint is not registered. -/
def missingOwner (owners : Map TransactionOutpoint TransactionId) (transaction : MutableTransaction) :
    Option (Nat × TransactionOutpoint) :=
  (transaction.spends.zipIdx.foldl
    (fun (state : Map TransactionOutpoint TransactionId × Option (Nat × TransactionOutpoint)) entry =>
      (state.1.erase entry.1, if (state.1.lookup entry.1).isNone then some (entry.2, entry.1) else state.2))
    (owners, none)).2

def removeSingleOrphan : Action OrphanPool MempoolTransaction := do
  let pool ← Call.read fun pool => pool
  match pool.allOrphans.lookup id with
  | none => Action.reject (.rejectMissingOrphanTransaction id)
  | some transaction => do
    let left := pool.allOrphans.erase id
    let parents := Pool.getParentTransactionIdsInPool left transaction.mtx
    Call.update fun pool =>
      { pool with
        allOrphans := left
        chainedOrphans := (parents.foldl (unchainOrphan id) pool.chainedOrphans).erase id
        outpointOwnerId := Map.deleteMany pool.outpointOwnerId transaction.mtx.spends }
    match missingOwner pool.outpointOwnerId transaction.mtx with
    | none => pure transaction
    | some (i, outpoint) => Action.reject (.rejectMissingOrphanOutpoint i (transaction.mtx.id C) outpoint)

/-- Each of them, up to the first error. -/
def removeEach : List TransactionId → Action OrphanPool (List MempoolTransaction)
  | [] => pure []
  | id :: rest => do
    let removed ← removeSingleOrphan C id
    let others ← removeEach rest
    pure (removed :: others)

def removeOrphan (removeRedeemers : Bool) : Action OrphanPool (List MempoolTransaction) := do
  let pool ← Call.read fun pool => pool
  if Pool.has pool.allOrphans id then
    let redeemers := Pool.getRedeemerIdsInPool pool.allOrphans pool.chainedOrphans id
    removeEach C (id :: if removeRedeemers then redeemers else [])
  else pure []

def removeRedeemersOf : Action OrphanPool (List MempoolTransaction) := do
  let pool ← Call.read fun pool => pool
  removeEach C (Pool.getRedeemerIdsInPool pool.allOrphans pool.chainedOrphans id)

/-- The orphan that spends an outpoint forgets the entries it had from a removed transaction. -/
def forgetEntries (removed : TransactionId) (pool : OrphanPool) (outpoint : TransactionOutpoint) : OrphanPool :=
  match pool.outpointOwnerId.lookup outpoint with
  | none => pool
  | some id =>
    match pool.allOrphans.lookup id with
    | none => pool
    | some orphan =>
      let mtx := orphan.mtx.setEntries fun input entry =>
        if input.previousOutpoint.transactionId = removed then none else entry
      { pool with allOrphans := pool.allOrphans.insert id { orphan with mtx } }

def updateOrphansAfterTransactionRemoved (removed : MempoolTransaction) (removeRedeemers : Bool) :
    Action OrphanPool (List MempoolTransaction) := do
  let id := removed.mtx.id C
  if removeRedeemers then removeRedeemersOf C id
  else do
    Call.update fun pool => (outputsOf id removed.mtx.tx).foldl (forgetEntries id) pool
    pure []

/-- Evicts orphans of low priority until there is room for one more. -/
def limitOrphanPoolSize : Nat → Action OrphanPool Unit
  | 0 => pure ()
  | fuel + 1 => do
    let pool ← Call.read fun pool => pool
    if pool.len + 1 > C.maximumOrphanTransactionCount then
      match pool.allOrphans.entries.find? fun entry => entry.2.priority = .low with
      | none => Action.reject (.rejectOrphanPoolIsFull pool.len C.maximumOrphanTransactionCount)
      | some entry => do
        let _ ← removeOrphan C (entry.2.mtx.id C) false
        limitOrphanPoolSize fuel
    else pure ()

def checkOrphanDuplicate : RuleResult Unit :=
  if Pool.has pool.allOrphans (transaction.id C) then .error (.rejectDuplicateOrphan (transaction.id C)) else .ok ()

def checkOrphanMass (masses : UInt64 × UInt64) : RuleResult Unit :=
  let mass := C.normalizedNonContextual masses
  if mass > C.maximumOrphanTransactionNormalizedMass then
    .error (.rejectBadOrphanMass mass C.maximumOrphanTransactionNormalizedMass)
  else .ok ()

def checkOrphanDoubleSpend : RuleResult Unit :=
  match transaction.spends.findSome? fun outpoint =>
      (pool.outpointOrphan outpoint).filter fun orphan => orphan.mtx.id C ≠ transaction.id C with
  | some orphan => .error (.rejectDoubleSpendOrphan (transaction.id C) (orphan.mtx.id C))
  | none => .ok ()

def tryAddOrphan (priority : Priority) : Action OrphanPool Unit :=
  if C.maximumOrphanTransactionCount = 0 then pure ()
  else do
    let pool ← Call.read fun pool => pool
    Action.check (checkOrphanDuplicate C pool transaction)
    let masses ← Action.expect transaction.calculatedNonContextualMasses
    Action.check (checkOrphanMass C masses)
    Action.check (checkOrphanDoubleSpend C pool transaction)
    limitOrphanPoolSize C (pool.len + 1)
    Call.update (addOrphan C virtualDaaScore transaction priority)

/-- `expire_low_priority_transactions`. -/
def expireLowPriorityTransactions : Action OrphanPool Unit := do
  let pool ← Call.read fun pool => pool
  if virtualDaaScore < Consensus.saturatingAdd pool.lastExpireScan C.orphanExpireScanIntervalDaaScore then pure ()
  else do
    let expired := pool.allOrphans.entries.filter fun entry => entry.2.priority = .low ∧
      virtualDaaScore > Consensus.saturatingAdd entry.2.addedAtDaaScore C.orphanExpireIntervalDaaScore
    Call.forEach (fun entry => do
      let _ ← removeOrphan C (entry.2.mtx.id C) false
      pure ()) expired
    Call.update fun pool => { pool with lastExpireScan := virtualDaaScore }

end OrphanPool

end Marigold.Mining
