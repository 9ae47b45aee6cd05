import Marigold.Mining.Pool

/-!
# The mempool

`mempool/*.rs`: how transactions get in and out. A transaction is checked against the mempool, validated by
consensus without a lock on the mempool, and then inserted; a new block takes its transactions out and evicts
what it double spends.
-/

namespace Marigold.Mining

open Lib Consensus

structure Mempool where
  transactionPool : TransactionsPool
  orphanPool : OrphanPool
  /-- The transactions of recent blocks, with the DAA scores of the blocks. -/
  acceptedTransactions : Map TransactionId UInt64
  /-- Own-wallet transactions below the relay floor, never announced. -/
  withheldFromRelay : Finset TransactionId

/-- What the mempool asks consensus. -/
structure ConsensusApi where
  virtualDaaScore : UInt64
  virtualUtxos : Utxo.UtxoView
  calculateTransactionNonContextualMasses : Transaction → Except TxRuleError (UInt64 × UInt64)
  /-- In isolation and in the context of the header. -/
  validateWithoutUtxos : Transaction → Except TxRuleError Unit
  /-- In the context of the populated entries, given feerates to exceed: storage mass and fee. -/
  validateWithUtxos : MutableTransaction → List (UInt64 × Nat) → Except TxRuleError (UInt64 × UInt64)

/-- `From<TxRuleError> for RuleError`. -/
def RuleError.ofTxRule : TxRuleError → RuleError
  | .missingTxOutpoints => .rejectMissingOutpoint
  | e => .rejectTxRule e

namespace Mempool

variable (C : Config)

def empty : Mempool := ⟨TransactionsPool.empty, OrphanPool.empty, ∅, ∅⟩

/-- `is_withheld_from_relay`. -/
def isWithheldFromRelay (m : Mempool) (id : TransactionId) : Bool := decide (id ∈ m.withheldFromRelay)

variable {α : Type}

def onPool (c : Action TransactionsPool α) : Action Mempool α := fun m =>
  ((c m.transactionPool).1, { m with transactionPool := (c m.transactionPool).2 })

def onOrphans (c : Action OrphanPool α) : Action Mempool α := fun m =>
  ((c m.orphanPool).1, { m with orphanPool := (c m.orphanPool).2 })

/-! ## Removal -/

/-- One of the transactions a removal takes out of the pool. -/
def removeFromPool (removeRedeemers : Bool) (id : TransactionId) : Action Mempool Unit := do
  let tx ← onPool (TransactionsPool.removeTransaction C id)
  let _ ← onOrphans (OrphanPool.updateOrphansAfterTransactionRemoved C tx removeRedeemers)
  pure ()

def unmark (id : TransactionId) (m : Mempool) : Mempool :=
  { m with withheldFromRelay := m.withheldFromRelay.erase id }

/-- A transaction that is an orphan is only looked for among the orphans. -/
def takeOut (id : TransactionId) (removeRedeemers : Bool) : Action Mempool Unit := do
  let m ← Call.read fun m => m
  if Pool.has m.orphanPool.allOrphans id then do
    let _ ← onOrphans (OrphanPool.removeOrphan C id true)
    pure ()
  else if Pool.has m.transactionPool.allTransactions id then
    let redeemers := Pool.getRedeemerIdsInPool m.transactionPool.allTransactions
      m.transactionPool.chainedTransactions id
    Call.forEach (removeFromPool C removeRedeemers) (id :: if removeRedeemers then redeemers else [])
  else pure ()

/-- Only the mark of the transaction itself is removed with it. -/
def removeTransaction (id : TransactionId) (removeRedeemers : Bool) : Action Mempool Unit := do
  Call.update (unmark id)
  takeOut C id removeRedeemers

/-! ## Replace by fee -/

variable (pool : TransactionsPool)

variable (transaction : MutableTransaction)

variable (doubleSpend : TransactionOutpoint × TransactionId)

/-- The owner of a double spend, if the transaction pays a higher feerate. -/
def validateDoubleSpendingTransaction : RuleResult MempoolTransaction :=
  let conflict := .error (.rejectDoubleSpendInMempool doubleSpend.1 doubleSpend.2)
  match pool.allTransactions.lookup doubleSpend.2 with
  | none => conflict
  | some owner =>
    match transaction.calculatedFeerate C, owner.mtx.calculatedFeerate C with
    | some feerate, some doubleSpendFeerate =>
      if C.feerateAbove feerate doubleSpendFeerate then .ok owner else conflict
    | _, _ => conflict

def getDoubleSpendFeerate : RuleResult (UInt64 × Nat) :=
  match (pool.allTransactions.lookup doubleSpend.2).bind fun owner => owner.mtx.calculatedFeerate C with
  | some feerate => .ok feerate
  | none => .error (.rejectDoubleSpendInMempool doubleSpend.1 doubleSpend.2)

/-- The feerates the transaction has to exceed. -/
def getReplaceByFeeConstraint : RbfPolicy → RuleResult (List (UInt64 × Nat))
  | .forbidden => do
    pool.checkDoubleSpends C transaction
    return []
  | .allowed => (pool.getDoubleSpendTransactionIds C transaction).mapM (getDoubleSpendFeerate C pool)
  | .mandatory =>
    match pool.getDoubleSpendTransactionIds C transaction with
    | [] => .error .rejectRbfNoDoubleSpend
    | [doubleSpend] => [doubleSpend].mapM (getDoubleSpendFeerate C pool)
    | _ => .error .rejectRbfTooManyDoubleSpendingTransactions

def validateReplaceByFeePolicyConstraints : RbfPolicy → RuleResult Unit
  | .forbidden => pool.checkDoubleSpends C transaction
  | .allowed => .ok ()
  | .mandatory =>
    match (pool.getDoubleSpendTransactionIds C transaction).length with
    | 0 => .error .rejectRbfNoDoubleSpend
    | 1 => .ok ()
    | _ => .error .rejectRbfTooManyDoubleSpendingTransactions

/-- All double spends are checked before the first of their owners is removed. -/
def replace (doubleSpends : List (TransactionOutpoint × TransactionId)) : Action Mempool (Option Transaction) := do
  let m ← Call.read fun m => m
  let owners ← Action.check (doubleSpends.mapM fun doubleSpend =>
      validateDoubleSpendingTransaction C m.transactionPool transaction doubleSpend)
  Call.forEach (fun doubleSpend => removeTransaction C doubleSpend.2 true) doubleSpends
  pure (owners.head?.map fun owner => owner.mtx.tx)

def executeReplaceByFee : RbfPolicy → Action Mempool (Option Transaction)
  | .forbidden => do
    let m ← Call.read fun m => m
    Action.check (m.transactionPool.checkDoubleSpends C transaction)
    pure none
  | .allowed => do
    let m ← Call.read fun m => m
    replace C transaction (m.transactionPool.getDoubleSpendTransactionIds C transaction)
  | .mandatory => do
    let m ← Call.read fun m => m
    match m.transactionPool.getDoubleSpendTransactionIds C transaction with
    | [] => Action.reject .rejectRbfNoDoubleSpend
    | [doubleSpend] => replace C transaction [doubleSpend]
    | _ => Action.reject .rejectRbfTooManyDoubleSpendingTransactions

/-! ## Insertion -/

def unacceptedDaaScore : UInt64 := UInt64.ofNat (2 ^ 64 - 1)

def entryOf (output : TransactionOutput) : UtxoEntry :=
  ⟨output.value, output.scriptPublicKey, unacceptedDaaScore, false, output.covenant.map CovenantBinding.covenantId⟩

/-- The output an outpoint names, if its transaction is in the pool; an error if it has no such output. -/
def poolOutput (outpoint : TransactionOutpoint) : RuleResult (Option TransactionOutput) :=
  match pool.allTransactions.lookup outpoint.transactionId with
  | none => .ok none
  | some parent =>
    match parent.mtx.tx.outputs[outpoint.index.toNat]? with
    | none => .error .rejectImpossibleOutpoint
    | some output => .ok (some output)

def populateMempoolEntries : RuleResult MutableTransaction := do
  let _ ← transaction.spends.mapM (poolOutput pool)
  return transaction.setEntries fun input entry =>
    match poolOutput pool input.previousOutpoint with
    | .ok (some output) => some (entryOf output)
    | _ => entry

def validateTransactionUnacceptance (m : Mempool) (id : TransactionId) : RuleResult Unit :=
  if (m.acceptedTransactions.lookup id).isSome then .error (.rejectAlreadyAccepted id) else .ok ()

def validateTransactionNotDuplicate (m : Mempool) (id : TransactionId) : RuleResult Unit :=
  if Pool.has m.transactionPool.allTransactions id then .error (.rejectDuplicate id) else .ok ()

/-- The transaction with what the mempool knows of its inputs, and the feerates it has to exceed. -/
def preValidateAndPopulateTransaction (consensus : ConsensusApi) (m : Mempool) (transaction : MutableTransaction)
    (rbfPolicy : RbfPolicy) : RuleResult (MutableTransaction × List (UInt64 × Nat)) := do
  let id := transaction.id C
  if transaction.tx.isCoinbase then .error (.rejectCoinbase id)
  validateTransactionUnacceptance m id
  validateTransactionNotDuplicate m id
  match consensus.calculateTransactionNonContextualMasses transaction.tx with
  | .error e => .error (.ofTxRule e)
  | .ok masses => do
    let transaction := { transaction with calculatedNonContextualMasses := some masses }
    C.validateInIsolation transaction
    let feerateThreshold ← getReplaceByFeeConstraint C m.transactionPool transaction rbfPolicy
    m.transactionPool.checkSerialConflicts C transaction
    let transaction ← populateMempoolEntries m.transactionPool transaction
    return (transaction, feerateThreshold)

end Mempool

/-- `validate_mempool_transaction`: an entry that is there is preferred to the one of the virtual UTXO set. The
transaction is also returned, as far as it was populated, if it is not valid. -/
def ConsensusApi.validateMempoolTransaction (consensus : ConsensusApi) (transaction : MutableTransaction)
    (feerateThreshold : List (UInt64 × Nat)) : RuleResult Unit × MutableTransaction :=
  match consensus.validateWithoutUtxos transaction.tx with
  | .error e => (.error (.ofTxRule e), transaction)
  | .ok _ =>
    let populated := transaction.setEntries fun input entry =>
      entry <|> consensus.virtualUtxos input.previousOutpoint
    if populated.isVerifiable then
      match consensus.validateWithUtxos populated feerateThreshold with
      | .error e => (.error (.ofTxRule e), populated)
      | .ok (storageMass, fee) =>
        (.ok (), { populated with tx := { populated.tx with storageMass }, calculatedFee := some fee
                                  sized := populated.sized })
    else (.error .rejectMissingOutpoint, populated)

namespace Mempool

variable (C : Config)

/-- Evicts one after the other until there is room. -/
def makeRoom (transactionSize : Nat) : List TransactionId → Action Mempool Unit
  | [] => pure ()
  | id :: rest => do
    removeTransaction C id true
    let m ← Call.read fun m => m
    if m.transactionPool.hasRoomFor C transactionSize then pure () else makeRoom transactionSize rest

/-- What was removed by a replacement, and the transaction if it was accepted. -/
structure TransactionPostValidation where
  removed : Option Transaction
  accepted : Option Transaction

/-- Accepted under the own-wallet exemption. -/
def exempt (transaction : MutableTransaction) (priority : Priority) : Bool :=
  priority = .high ∧ C.acceptOwnBelowFloor ∧ C.feeIsBelowRelayFloor transaction

def mark (id : TransactionId) (m : Mempool) : Mempool := { m with withheldFromRelay := insert id m.withheldFromRelay }

variable (consensus : ConsensusApi)

/-- A transaction that consensus accepts. It is marked before the checks that follow. -/
def insertValid (transaction : MutableTransaction) (priority : Priority)
    (rbfPolicy : RbfPolicy) : Action Mempool TransactionPostValidation := do
  Action.check (C.validateInContext transaction priority)
  let withheld := exempt C transaction priority
  Call.update fun m => if withheld then mark (transaction.id C) m else m
  let m ← Call.read fun m => m
  Action.check (m.transactionPool.checkSerialConflicts C transaction)
  let removed ← executeReplaceByFee C transaction rbfPolicy
  let transactionSize := C.estimatedBytes transaction
  let m ← Call.read fun m => m
  let txsToRemove ← Call.ofExcept (m.transactionPool.limitTransactionCount C transaction transactionSize)
  makeRoom C transactionSize txsToRemove
  let m ← Call.read fun m => m
  Action.assert (m.transactionPool.hasRoomFor C transactionSize)
  onPool (TransactionsPool.addMempoolTransaction C
    ⟨transaction, if withheld then .low else priority, consensus.virtualDaaScore⟩ transactionSize)
  pure ⟨removed, some transaction.tx⟩

def postValidateAndInsertTransaction (validationResult : RuleResult Unit)
    (transaction : MutableTransaction) (priority : Priority) (orphan : Orphan) (rbfPolicy : RbfPolicy) :
    Action Mempool TransactionPostValidation := do
  let id := transaction.id C
  let m ← Call.read fun m => m
  Action.check (validateTransactionUnacceptance m id)
  Action.check (validateTransactionNotDuplicate m id)
  match validationResult with
  | .ok _ => insertValid C consensus transaction priority rbfPolicy
  | .error .rejectMissingOutpoint =>
    if orphan = .forbidden then Action.reject (.rejectDisallowedOrphan id)
    else do
      Action.check (validateReplaceByFeePolicyConstraints C m.transactionPool transaction rbfPolicy)
      onOrphans (OrphanPool.tryAddOrphan C consensus.virtualDaaScore transaction priority)
      pure ⟨none, none⟩
  | .error e => Action.reject e

/-! ## Orphans no more -/

/-- `get_orphan_transaction_rbf_policy`. -/
def orphanRbfPolicy : Priority → RbfPolicy
  | .high => .forbidden
  | .low => .allowed

/-- Takes an orphan out of the orphan pool. -/
def unorphanTransaction (id : TransactionId) : Action Mempool MempoolTransaction := do
  let transactions ← onOrphans (OrphanPool.removeOrphan C id false)
  match transactions with
  | [transaction] => do
    let m ← Call.read fun m => m
    Action.check (validateTransactionUnacceptance m (transaction.mtx.id C))
    Action.check (validateReplaceByFeePolicyConstraints C m.transactionPool transaction.mtx
      (orphanRbfPolicy transaction.priority))
    pure transaction
  | _ => Call.fail (.panic .unwrap)

/-- The first input that spends the outpoint gets its entry, unless it has one. -/
def fillFirst (outpoint : TransactionOutpoint) (entry : UtxoEntry) :
    List TransactionInput → List (Option UtxoEntry) → List (Option UtxoEntry)
  | input :: inputs, old :: entries =>
    if input.previousOutpoint = outpoint then (if old.isNone then some entry else old) :: entries
    else old :: fillFirst outpoint entry inputs entries
  | _, entries => entries

variable (outpoint : TransactionOutpoint)

theorem length_fillFirst (entry : UtxoEntry) (inputs : List TransactionInput)
    (entries : List (Option UtxoEntry)) : (fillFirst outpoint entry inputs entries).length = entries.length := by
  induction inputs generalizing entries with
  | nil => rfl
  | cons input inputs ih =>
    cases entries with
    | nil => rfl
    | cons old entries =>
      rw [fillFirst]
      split
      · rfl
      · rw [List.length_cons, List.length_cons, ih]

/-- An orphan that spends an output of an accepted transaction learns of the output. -/
def fillOrphan (output : TransactionOutput) (pool : OrphanPool) : OrphanPool × Option TransactionId :=
  match pool.outpointOwnerId.lookup outpoint with
  | none => (pool, none)
  | some key =>
    match pool.allOrphans.lookup key with
    | none => (pool, none)
    | some orphan =>
      let mtx := { orphan.mtx with
        entries := fillFirst outpoint (entryOf output) orphan.mtx.tx.inputs orphan.mtx.entries
        sized := by rw [length_fillFirst, orphan.mtx.sized] }
      ({ pool with allOrphans := pool.allOrphans.insert key { orphan with mtx } },
        if mtx.entries ≠ orphan.mtx.entries ∧ mtx.isVerifiable then some (orphan.mtx.id C) else none)

def unorphanOutput (output : TransactionOutput) : Action Mempool (Option MempoolTransaction) := do
  let m ← Call.read fun m => m
  let (orphans, orphanId) := fillOrphan C outpoint output m.orphanPool
  Call.update fun m => { m with orphanPool := orphans }
  match orphanId with
  | none => pure none
  | some id => Action.attempt (unorphanTransaction C id)

/-- The orphans that an accepted transaction makes complete, taken out of the orphan pool. -/
def unorphanOutputs : List (TransactionOutpoint × TransactionOutput) → Action Mempool (List MempoolTransaction)
  | [] => pure []
  | (outpoint, output) :: rest => do
    let unorphaned ← unorphanOutput C outpoint output
    let others ← unorphanOutputs rest
    pure (unorphaned.toList ++ others)

variable (transaction : Transaction)

def getUnorphanedTransactionsAfterAcceptedTransaction : Action Mempool (List MempoolTransaction) :=
  unorphanOutputs C ((OrphanPool.outputsOf (C.idOf transaction) transaction).zip transaction.outputs)

/-- `validate_and_insert_mutable_transaction`, with no other change to the mempool while consensus validates. -/
def validateAndInsertMutableTransaction (transaction : MutableTransaction)
    (priority : Priority) (orphan : Orphan) (rbfPolicy : RbfPolicy) :
    Action Mempool (TransactionPostValidation × List MempoolTransaction) := do
  let m ← Call.read fun m => m
  let (transaction, feerateThreshold) ← Action.check
    (preValidateAndPopulateTransaction C consensus m transaction rbfPolicy)
  let (validationResult, transaction) := consensus.validateMempoolTransaction transaction feerateThreshold
  let result ← postValidateAndInsertTransaction C consensus validationResult transaction priority orphan rbfPolicy
  match result.accepted with
  | none => pure (result, [])
  | some accepted => do
    let unorphaned ← getUnorphanedTransactionsAfterAcceptedTransaction C accepted
    pure (result, unorphaned)

/-! ## New blocks -/

/-- The owners of what a transaction of a block takes are removed with what is chained to them. -/
def removeOwners (owners : List TransactionId) : Action Mempool Unit :=
  Call.forEach (fun owner => removeTransaction C owner true) owners.dedup

def removeDoubleSpends : Action Mempool Unit := do
  let m ← Call.read fun m => m
  removeOwners C (transaction.inputs.filterMap fun input =>
    m.transactionPool.outpointOwnerId.lookup input.previousOutpoint)

def removeSerialConflicts : Action Mempool Unit := do
  let m ← Call.read fun m => m
  removeOwners C ((consumedSerialsOf transaction).filterMap m.transactionPool.serialOwnerId.lookup)

def handleNewBlockTransaction (blockDaaScore : UInt64) (transaction : Transaction) :
    Action Mempool (List MempoolTransaction) := do
  let id := C.idOf transaction
  let m ← Call.read fun m => m
  if Pool.has m.orphanPool.allOrphans id then pure () else removeTransaction C id false
  removeDoubleSpends C transaction
  removeSerialConflicts C transaction
  let _ ← onOrphans (OrphanPool.removeOrphan C id false)
  Call.update fun m => { m with acceptedTransactions := m.acceptedTransactions.insert id blockDaaScore }
  getUnorphanedTransactionsAfterAcceptedTransaction C transaction

def handleEach (blockDaaScore : UInt64) : List Transaction → Action Mempool (List MempoolTransaction)
  | [] => pure []
  | transaction :: rest => do
    let unorphaned ← handleNewBlockTransaction C blockDaaScore transaction
    let others ← handleEach blockDaaScore rest
    pure (unorphaned ++ others)

/-- All but the coinbase. -/
def handleNewBlockTransactions (blockDaaScore : UInt64) (blockTransactions : List Transaction) :
    Action Mempool (List MempoolTransaction) :=
  handleEach C blockDaaScore blockTransactions.tail

def expireAcceptedTransactions (virtualDaaScore : UInt64) (m : Mempool) : Mempool :=
  { m with acceptedTransactions := m.acceptedTransactions.retain fun id =>
      ((m.acceptedTransactions.lookup id).all fun daaScore =>
        decide (virtualDaaScore ≤ Consensus.saturatingAdd daaScore C.acceptedTransactionExpireIntervalDaaScore)) }

end Mempool

end Marigold.Mining
