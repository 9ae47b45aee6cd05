import Marigold.Mining.Indexes

/-!
# What every operation of the mempool keeps

Whatever an operation does, it removes transactions from the pool and orphans from the orphan pool, changes what
is known of orphans, and writes down marks and accepted ids; besides that it may add one transaction or one
orphan. A property that the first kind of change keeps is kept by every operation up to what is added.
-/

namespace Marigold.Mining

open Lib Call

variable {C : Config} {α : Type} {B : Failure RuleError → Prop}

/-- A rule error, not a panic. -/
def IsRule (e : Failure RuleError) : Prop := ∃ rule, e = .rule rule

theorem rules_allowed (rule : RuleError) : IsRule (.rule rule) := ⟨rule, rfl⟩

namespace Action

variable {S : Type} {P : S → Prop}

theorem check_safe (rules : ∀ rule, B (.rule rule)) (result : RuleResult α) : Safe P B (check result) := by
  refine Safe.ofExcept fun e failed => ?_
  cases result with
  | ok a => cases failed
  | error rule =>
    cases failed
    exact rules rule

theorem wp_attempt {c : Action S α} {s : S} (done : wp c (fun _ => P) (fun e s' => B e ∧ P s') s) :
    wp (attempt c) (fun _ => P) (fun e s' => (B e ∧ ¬IsRule e) ∧ P s') s := by
  rw [wp] at done ⊢
  rw [attempt]
  rcases ran : c s with ⟨(cause | rule) | a, s'⟩
  · rw [ran] at done
    refine ⟨⟨done.1, ?_⟩, done.2⟩
    rintro ⟨_, same⟩
    cases same
  · rw [ran] at done
    exact done.2
  · rw [ran] at done
    exact done

end Action

/-! ## Orphans -/

namespace OrphanPool

/-- Kept by the removal of an orphan and by changes to the entries of one. -/
structure Closed (C : Config) (P : OrphanPool → Prop) : Prop where
  remove : ∀ {pool id tx}, P pool → pool.allOrphans.lookup id = some tx → ∀ chained,
    P { pool with allOrphans := pool.allOrphans.erase id, chainedOrphans := chained
                  outpointOwnerId := Map.deleteMany pool.outpointOwnerId tx.mtx.spends }
  rewrite : ∀ {pool id} {tx tx' : MempoolTransaction}, P pool → pool.allOrphans.lookup id = some tx →
    tx'.mtx.tx = tx.mtx.tx → P { pool with allOrphans := pool.allOrphans.insert id tx' }
  scan : ∀ {pool}, P pool → ∀ score, P { pool with lastExpireScan := score }

namespace Closed

variable {P : OrphanPool → Prop}

variable (closed : Closed C P)

include closed

theorem removeSingleOrphan (rules : ∀ rule, B (.rule rule)) (id : TransactionId) :
    Safe P B (removeSingleOrphan C id) := by
  intro pool before
  simp only [OrphanPool.removeSingleOrphan, wp_bind, wp_read]
  cases there : pool.allOrphans.lookup id with
  | none => exact ⟨rules _, before⟩
  | some transaction =>
    have after := closed.remove before there
    simp only [wp_bind, wp_update]
    cases missingOwner pool.outpointOwnerId transaction.mtx with
    | none => exact after _
    | some missing => exact ⟨rules _, after _⟩

theorem removeEach (rules : ∀ rule, B (.rule rule)) (ids : List TransactionId) : Safe P B (removeEach C ids) := by
  induction ids with
  | nil => exact .pure _
  | cons id rest ih => exact (closed.removeSingleOrphan rules id).bind fun _ => ih.bind fun _ => .pure _

theorem removeOrphan (rules : ∀ rule, B (.rule rule)) (id : TransactionId) (removeRedeemers : Bool) :
    Safe P B (removeOrphan C id removeRedeemers) := by
  refine Safe.bind (.read _) fun pool => ?_
  split
  · exact closed.removeEach rules _
  · exact .pure _

theorem forgetEntries {pool : OrphanPool} (before : P pool) (removed : TransactionId)
    (outpoint : TransactionOutpoint) : P (forgetEntries removed pool outpoint) := by
  rw [OrphanPool.forgetEntries]
  split
  · exact before
  · split
    · exact before
    next orphan found => exact closed.rewrite before found rfl

theorem updateOrphansAfterTransactionRemoved (rules : ∀ rule, B (.rule rule))
    (removed : MempoolTransaction) (removeRedeemers : Bool) :
    Safe P B (updateOrphansAfterTransactionRemoved C removed removeRedeemers) := by
  rw [OrphanPool.updateOrphansAfterTransactionRemoved]
  split
  · exact Safe.bind (.read _) fun pool => closed.removeEach rules _
  · refine Safe.bind (.update fun pool before => ?_) fun _ => .pure _
    generalize outputsOf (removed.mtx.id C) removed.mtx.tx = outpoints
    induction outpoints generalizing pool with
    | nil => exact before
    | cons outpoint rest ih => exact ih _ (closed.forgetEntries before _ outpoint)

theorem limitOrphanPoolSize (rules : ∀ rule, B (.rule rule)) (fuel : Nat) : Safe P B (limitOrphanPoolSize C fuel) := by
  induction fuel with
  | zero => exact .pure _
  | succ fuel ih =>
    refine Safe.bind (.read _) fun pool => ?_
    split
    · split
      · exact .fail (rules _)
      · exact (closed.removeOrphan rules _ _).bind fun _ => ih
    · exact .pure _

theorem expireLowPriorityTransactions (rules : ∀ rule, B (.rule rule)) (virtualDaaScore : UInt64) :
    Safe P B (expireLowPriorityTransactions C virtualDaaScore) := by
  refine Safe.bind (.read _) fun pool => ?_
  split
  · exact .pure _
  · refine Safe.bind (.forEach fun entry _ => ?_) fun _ => .update fun pool before => ?_
    · exact (closed.removeOrphan rules _ _).bind fun _ => .pure _
    · exact closed.scan before virtualDaaScore

end Closed

end OrphanPool

/-! ## The mempool -/

namespace Mempool

section Steps

variable {m : Mempool} {Q : α → Mempool → Prop} {E : Failure RuleError → Mempool → Prop}

@[simp] theorem wp_onPool {c : Action TransactionsPool α} : wp (onPool c) Q E m ↔
    wp c (fun a pool => Q a { m with transactionPool := pool })
      (fun e pool => E e { m with transactionPool := pool }) m.transactionPool := by
  rcases ran : c m.transactionPool with ⟨e | a, pool⟩ <;> simp [wp, onPool, ran]

@[simp] theorem wp_onOrphans {c : Action OrphanPool α} : wp (onOrphans c) Q E m ↔
    wp c (fun a pool => Q a { m with orphanPool := pool })
      (fun e pool => E e { m with orphanPool := pool }) m.orphanPool := by
  rcases ran : c m.orphanPool with ⟨e | a, pool⟩ <;> simp [wp, onOrphans, ran]

end Steps

/-! ## Replacement -/

section Replacement

variable {m : Mempool}

theorem mem_firstOfEach {owner : TransactionId} {doubleSpends : List (TransactionOutpoint × TransactionId)}
    {visited : List TransactionId} : owner ∈ (TransactionsPool.firstOfEach visited doubleSpends).map Prod.snd ↔
      owner ∉ visited ∧ owner ∈ doubleSpends.map Prod.snd := by
  induction doubleSpends generalizing visited with
  | nil => simp [TransactionsPool.firstOfEach]
  | cons doubleSpend rest ih =>
    rw [TransactionsPool.firstOfEach]
    split
    next old =>
      rw [ih, List.map_cons, List.mem_cons]
      refine and_congr_right fun new => ?_
      have other : owner ≠ doubleSpend.2 := fun same => new (same ▸ old)
      rw [or_iff_right other]
    next new =>
      rw [List.map_cons, List.mem_cons, ih, List.map_cons, List.mem_cons, List.mem_cons, not_or]
      by_cases same : owner = doubleSpend.2
      · simp [same, new]
      · simp [same]

/-- The transactions that a replacement removes. -/
def replacedBy (C : Config) (m : Mempool) (transaction : MutableTransaction) : List TransactionId :=
  (m.transactionPool.getDoubleSpendTransactionIds C transaction).map Prod.snd

theorem mem_replacedBy {transaction : MutableTransaction} {owner : TransactionId} :
    owner ∈ replacedBy C m transaction ↔ owner ≠ transaction.id C ∧
      ∃ outpoint ∈ transaction.spends, m.transactionPool.outpointOwnerId.lookup outpoint = some owner := by
  rw [replacedBy, TransactionsPool.getDoubleSpendTransactionIds, mem_firstOfEach, and_iff_right List.not_mem_nil]
  simp only [TransactionsPool.conflicts, List.mem_map, List.mem_filterMap]
  constructor
  · rintro ⟨⟨outpoint, owner'⟩, ⟨outpoint', spent, found⟩, rfl⟩
    split at found
    next owner'' owned =>
      split at found
      next other =>
        cases found
        exact ⟨other, outpoint, spent, owned⟩
      · cases found
    · cases found
  · rintro ⟨other, outpoint, spent, owned⟩
    exact ⟨(outpoint, owner), ⟨outpoint, spent, by simp [owned, other]⟩, rfl⟩

end Replacement

/-! ## Closure -/

/-- Kept by the removal of the transactions in `Ids`, by changes to the orphans and to the accepted ids. -/
structure Closed (C : Config) (Ids : TransactionId → Prop) (B : Failure RuleError → Prop) (P : Mempool → Prop) : Prop where
  rules : ∀ rule, B (.rule rule)
  removeTransaction : ∀ id removeRedeemers, Ids id → Safe P B (removeTransaction C id removeRedeemers)
  orphans : ∀ {m}, P m → OrphanPool.Closed C fun orphans => P { m with orphanPool := orphans }
  accept : ∀ {m}, P m → ∀ accepted, P { m with acceptedTransactions := accepted }
  unorphanOutput : ∀ outpoint output, Safe P B (unorphanOutput C outpoint output)

theorem onOrphans_safe {P : Mempool → Prop} {c : Action OrphanPool α}
    (safe : ∀ m, P m → Safe (fun orphans => P { m with orphanPool := orphans }) B c) :
    Safe P B (onOrphans c) := fun m before => wp_onOrphans.mpr (safe m before _ before)

/-- What can be done to the mempool. A transaction is inserted with whatever consensus said about it, while the
mempool may have changed since it was prepared. -/
inductive Op where
  | insert (consensus : ConsensusApi) (validationResult : RuleResult Unit) (transaction : MutableTransaction)
      (priority : Priority) (orphan : Orphan) (rbfPolicy : RbfPolicy)
  | remove (id : TransactionId) (removeRedeemers : Bool)
  | revalidate (transaction : MutableTransaction)
  | newBlock (blockDaaScore : UInt64) (blockTransactions : List Transaction)
  | expireOrphans (virtualDaaScore : UInt64)
  | expireAccepted (virtualDaaScore : UInt64)

/-- An insertion, with the search for orphans it completes. -/
def insertAndUnorphan (C : Config) (consensus : ConsensusApi) (validationResult : RuleResult Unit)
    (transaction : MutableTransaction) (priority : Priority) (orphan : Orphan) (rbfPolicy : RbfPolicy) :
    Action Mempool Unit := do
  let result ← postValidateAndInsertTransaction C consensus validationResult transaction priority orphan rbfPolicy
  match result.accepted with
  | none => pure ()
  | some accepted => do
    let _ ← getUnorphanedTransactionsAfterAcceptedTransaction C accepted
    pure ()

def Op.run (C : Config) : Op → Action Mempool Unit
  | .insert consensus validationResult transaction priority orphan rbfPolicy =>
    insertAndUnorphan C consensus validationResult transaction priority orphan rbfPolicy
  | .remove id removeRedeemers => removeTransaction C id removeRedeemers
  | .revalidate transaction => do
    let _ ← onPool (TransactionsPool.updateRevalidatedTransaction C transaction)
    pure ()
  | .newBlock blockDaaScore blockTransactions => do
    let _ ← handleNewBlockTransactions C blockDaaScore blockTransactions
    pure ()
  | .expireOrphans virtualDaaScore => onOrphans (OrphanPool.expireLowPriorityTransactions C virtualDaaScore)
  | .expireAccepted virtualDaaScore => update (expireAcceptedTransactions C virtualDaaScore)

/-- What the callers make sure of: masses are calculated first, consensus accepts no transaction it could not
populate, and what is revalidated is a transaction of the pool. -/
def Op.Sound (C : Config) (m : Mempool) : Op → Prop
  | .insert _ validationResult transaction _ _ _ => transaction.calculatedNonContextualMasses.isSome ∧
      (validationResult = .ok () → transaction.isFullyPopulated = true)
  | .revalidate transaction => ∀ old, m.transactionPool.allTransactions.lookup (transaction.id C) = some old →
      TransactionsPool.Revalidates C old.mtx transaction
  | _ => True

/-- No orphan is inserted into the transactions pool. -/
def Op.NoOrphan (C : Config) (m : Mempool) : Op → Prop
  | .insert _ validationResult transaction _ _ _ =>
    validationResult = .ok () → Pool.has m.orphanPool.allOrphans (transaction.id C) = false
  | _ => True

/-- Nothing is inserted or validated anew. -/
def Op.OnlyRemoves : Op → Prop
  | .insert .. => False
  | .revalidate _ => False
  | _ => True

/-- Reachable from the empty mempool, through successes and errors. -/
inductive Reachable (C : Config) (Allowed : Mempool → Op → Prop) : Mempool → Prop
  | empty : Reachable C Allowed .empty
  | step {m : Mempool} {op : Op} (before : Reachable C Allowed m) (sound : op.Sound C m) (allowed : Allowed m op) :
      Reachable C Allowed (op.run C m).2

namespace Closed

variable {Ids : TransactionId → Prop} {P Q : Mempool → Prop}

theorem unorphanOutput_safe (orphans : ∀ {m}, P m → OrphanPool.Closed C fun orphans => P { m with orphanPool := orphans })
    (outpoint : TransactionOutpoint) (output : TransactionOutput) :
    Safe P (fun _ => True) (Mempool.unorphanOutput C outpoint output) := by
  intro m before
  simp only [Mempool.unorphanOutput, wp_bind, wp_read, wp_update]
  have filled : P { m with orphanPool := (fillOrphan C outpoint output m.orphanPool).1 } := by
    rw [fillOrphan]
    split
    · exact before
    · split
      · exact before
      next orphan found => exact (orphans before).rewrite before found rfl
  have taken : ∀ id, Safe P (fun _ => True) (Mempool.unorphanTransaction C id) := by
    refine fun id => Safe.bind (onOrphans_safe fun m before => ?_) fun transactions => ?_
    · exact (orphans before).removeOrphan (fun _ => trivial) id false
    · split
      · exact Safe.bind (.read _) fun m => (Action.check_safe (fun _ => trivial) _).bind fun _ =>
          (Action.check_safe (fun _ => trivial) _).bind fun _ => .pure _
      · exact .fail trivial
  split
  · exact filled
  · exact wp_mono (Action.wp_attempt (taken _ _ filled)) (fun _ _ done => done) fun _ _ failed =>
      ⟨trivial, failed.2⟩

theorem of_removals (pool : ∀ id, Safe P (fun _ => True) (onPool (TransactionsPool.removeTransaction C id)))
    (orphans : ∀ {m}, P m → OrphanPool.Closed C fun orphans => P { m with orphanPool := orphans })
    (accept : ∀ {m}, P m → ∀ accepted, P { m with acceptedTransactions := accepted })
    (remark : ∀ {m}, P m → ∀ marks, P { m with withheldFromRelay := marks }) :
    Closed C (fun _ => True) (fun _ => True) P := by
  refine ⟨fun _ => trivial, fun id removeRedeemers _ => ?_, orphans, accept, unorphanOutput_safe orphans⟩
  refine Safe.bind (.update fun _ before => remark before _) fun _ => Safe.bind (.read _) fun m => ?_
  split
  · refine Safe.bind (onOrphans_safe fun m before => ?_) fun _ => .pure _
    exact (orphans before).removeOrphan (fun _ => trivial) id true
  · split
    · refine Safe.forEach fun id _ => (pool id).bind fun tx => ?_
      refine Safe.bind (onOrphans_safe fun m before => ?_) fun _ => .pure _
      exact (orphans before).updateOrphansAfterTransactionRemoved (fun _ => trivial) tx removeRedeemers
    · exact .pure _

theorem of_pool {P : TransactionsPool → Prop}
    (pool : ∀ id, Safe P (fun _ => True) (TransactionsPool.removeTransaction C id)) :
    Closed C (fun _ => True) (fun _ => True) fun m => P m.transactionPool :=
  of_removals (fun id m before => wp_onPool.mpr (pool id _ before))
    (fun _ => ⟨fun before _ _ => before, fun before _ _ => before, fun before _ => before⟩)
    (fun before _ => before) fun before _ => before

theorem replace (closed : Closed C Ids B P) (transaction : MutableTransaction)
    {doubleSpends : List (TransactionOutpoint × TransactionId)} (inside : ∀ item ∈ doubleSpends, Ids item.2) :
    Safe P B (replace C transaction doubleSpends) :=
  Safe.bind (.read _) fun _ => (Action.check_safe closed.rules _).bind fun _ =>
    (Safe.forEach fun item member => closed.removeTransaction item.2 true (inside item member)).bind fun _ => .pure _

theorem executeReplaceByFee (closed : Closed C Ids B P) {transaction : MutableTransaction}
    (inside : ∀ id, id ≠ transaction.id C → Ids id) (rbfPolicy : RbfPolicy) :
    Safe P B (executeReplaceByFee C transaction rbfPolicy) := by
  have others : ∀ m : Mempool, ∀ item ∈ m.transactionPool.getDoubleSpendTransactionIds C transaction, Ids item.2 :=
    fun m item member => inside item.2 (mem_replacedBy.mp (List.mem_map_of_mem member)).1
  cases rbfPolicy with
  | forbidden => exact Safe.bind (.read _) fun m => (Action.check_safe closed.rules _).bind fun _ => .pure _
  | allowed => exact Safe.bind (.read _) fun m => closed.replace transaction (others m)
  | mandatory =>
    refine Safe.bind (.read _) fun m => ?_
    split
    · exact .fail (closed.rules _)
    next doubleSpend only => exact closed.replace transaction (only ▸ others m)
    · exact .fail (closed.rules _)

theorem makeRoom (closed : Closed C Ids B P) (size : Nat) {ids : List TransactionId} (inside : ∀ id ∈ ids, Ids id) :
    Safe P B (makeRoom C size ids) := by
  induction ids with
  | nil => exact .pure ()
  | cons id rest ih =>
    obtain ⟨first, rest⟩ := List.forall_mem_cons.mp inside
    refine (closed.removeTransaction id true first).bind fun _ => Safe.bind (.read _) fun m => ?_
    split
    · exact .pure ()
    · exact ih rest

/-! ### Orphans no more, and new blocks -/

theorem unorphanOutputs_safe (each : ∀ outpoint output, Safe P B (Mempool.unorphanOutput C outpoint output))
    (outputs : List (TransactionOutpoint × TransactionOutput)) : Safe P B (unorphanOutputs C outputs) := by
  induction outputs with
  | nil => exact .pure _
  | cons output rest ih => exact (each output.1 output.2).bind fun _ => ih.bind fun _ => .pure _

theorem unorphanOutputs (closed : Closed C Ids B P) (outputs : List (TransactionOutpoint × TransactionOutput)) :
    Safe P B (Mempool.unorphanOutputs C outputs) := unorphanOutputs_safe closed.unorphanOutput outputs

section

variable (closed : Closed C (fun _ => True) B P)
include closed

theorem handleNewBlockTransaction (blockDaaScore : UInt64) (tx : Transaction) :
    Safe P B (handleNewBlockTransaction C blockDaaScore tx) := by
  have removeOwners : ∀ owners, Safe P B (removeOwners C owners) := fun owners =>
    .forEach fun owner _ => closed.removeTransaction owner true trivial
  refine Safe.bind (.read _) fun m => ?_
  extract_lets later
  have rest : Safe P B (later ()) := by
    refine Safe.bind (Safe.bind (.read _) fun m => removeOwners _) fun _ => ?_
    refine Safe.bind (Safe.bind (.read _) fun m => removeOwners _) fun _ => ?_
    refine Safe.bind (onOrphans_safe fun m before => ?_) fun _ => ?_
    · exact (closed.orphans before).removeOrphan closed.rules _ false
    · exact Safe.bind (.update fun m before => closed.accept before _) fun _ => closed.unorphanOutputs _
  split
  · exact rest
  · exact (closed.removeTransaction _ false trivial).bind fun _ => rest

theorem handleEach (blockDaaScore : UInt64) (transactions : List Transaction) :
    Safe P B (handleEach C blockDaaScore transactions) := by
  induction transactions with
  | nil => exact .pure _
  | cons tx rest ih => exact (closed.handleNewBlockTransaction blockDaaScore tx).bind fun _ => ih.bind fun _ => .pure _

theorem run {op : Op} (removes : op.OnlyRemoves) : Safe P B (op.run C) := by
  cases op with
  | insert => exact removes.elim
  | revalidate => exact removes.elim
  | remove id removeRedeemers => exact closed.removeTransaction id removeRedeemers trivial
  | newBlock blockDaaScore blockTransactions => exact (closed.handleEach blockDaaScore _).bind fun _ => .pure _
  | expireOrphans virtualDaaScore =>
    exact onOrphans_safe fun m before =>
      (closed.orphans before).expireLowPriorityTransactions closed.rules virtualDaaScore
  | expireAccepted virtualDaaScore => exact .update fun m before => closed.accept before _

end

/-! ### Insertion -/

theorem andThen {c : Action Mempool α} {β : Type} {f : α → Action Mempool β} {m : Mempool}
    (safe : Safe P (fun _ => True) c) (weaker : ∀ m, P m → Q m) (before : P m)
    (rest : ∀ a m', P m' → wp (f a) (fun _ => Q) (fun _ => Q) m') : wp (c >>= f) (fun _ => Q) (fun _ => Q) m := by
  rw [wp_bind]
  exact wp_mono (safe m before) (fun a m' => rest a m') fun _ m' failed => weaker m' failed.2

variable {m : Mempool} {consensus : ConsensusApi} {transaction : MutableTransaction}

section

variable (closed : Closed C (fun _ => True) (fun _ => True) P) (weaker : ∀ m, P m → Q m)
  (remark : ∀ {m}, P m → ∀ marks, P { m with withheldFromRelay := marks }) (before : P m)
  (priority : Priority)

include closed weaker remark before priority

/-- What is removed to make way for the transaction keeps `P`, and with it `Q` holds. -/
theorem insertValid (rbfPolicy : RbfPolicy) (add : ∀ m tx size, P m → tx.mtx = transaction →
      wp (onPool (TransactionsPool.addMempoolTransaction C tx size)) (fun _ => Q) (fun _ => Q) m) :
    wp (insertValid C consensus transaction priority rbfPolicy) (fun _ => Q) (fun _ => Q) m := by
  rw [Mempool.insertValid]
  refine andThen (Action.check_safe closed.rules _) weaker before fun _ _ before => ?_
  refine andThen (.update fun m' before => ?_) weaker before fun _ _ before => ?_
  · split
    · exact remark before _
    · exact before
  refine andThen (.read _) weaker before fun _ _ before => ?_
  refine andThen (Action.check_safe closed.rules _) weaker before fun _ _ before => ?_
  refine andThen (closed.executeReplaceByFee (fun _ _ => trivial) rbfPolicy) weaker before fun _ _ before => ?_
  refine andThen (.read _) weaker before fun _ _ before => ?_
  refine andThen (.ofExcept fun _ _ => trivial) weaker before fun _ _ before => ?_
  refine andThen (closed.makeRoom _ fun _ _ => trivial) weaker before fun _ _ before => ?_
  refine andThen (.read _) weaker before fun _ _ before => ?_
  rw [wp_bind, Action.wp_assert]
  refine ⟨fun _ => ?_, fun _ => weaker _ before⟩
  rw [wp_bind]
  exact add _ _ _ before rfl

theorem postValidateAndInsertTransaction {validationResult : RuleResult Unit} (orphan : Orphan) (rbfPolicy : RbfPolicy)
    (add : validationResult = .ok () → ∀ m tx size, P m → tx.mtx = transaction →
      wp (onPool (TransactionsPool.addMempoolTransaction C tx size)) (fun _ => Q) (fun _ => Q) m)
    (addOrphan : validationResult = .error .rejectMissingOutpoint → ∀ m virtualDaaScore, P m →
      m.transactionPool.allTransactions.lookup (transaction.id C) = none →
      wp (onOrphans (OrphanPool.tryAddOrphan C virtualDaaScore transaction priority)) (fun _ => Q) (fun _ => Q) m) :
    wp (postValidateAndInsertTransaction C consensus validationResult transaction priority orphan rbfPolicy)
      (fun _ => Q) (fun _ => Q) m := by
  simp only [Mempool.postValidateAndInsertTransaction, wp_bind, wp_read, Action.wp_check]
  refine ⟨fun _ _ => ⟨fun _ notDuplicate => ?_, fun _ _ => weaker m before⟩, fun _ _ => weaker m before⟩
  split
  · exact closed.insertValid weaker remark before priority rbfPolicy (add rfl)
  · split
    · exact weaker m before
    · simp only [wp_bind, Action.wp_check]
      refine ⟨fun _ _ => addOrphan rfl m _ before ?_, fun _ _ => weaker m before⟩
      rw [validateTransactionNotDuplicate] at notDuplicate
      split at notDuplicate
      · cases notDuplicate
      next absent => exact Option.not_isSome_iff_eq_none.mp absent
  · exact weaker m before

/-! ### Runs -/

end

/-- What each kind of change that is not a removal has to keep, in one step from `m`. -/
structure Steps (C : Config) (P Q : Mempool → Prop) (m : Mempool) (op : Op) : Prop where
  add : ∀ {consensus transaction priority orphan rbfPolicy},
    op = .insert consensus (.ok ()) transaction priority orphan rbfPolicy → ∀ m tx size, P m → tx.mtx = transaction →
      wp (onPool (TransactionsPool.addMempoolTransaction C tx size)) (fun _ => Q) (fun _ => Q) m
  addOrphan : ∀ {consensus transaction priority orphan rbfPolicy},
    op = .insert consensus (.error .rejectMissingOutpoint) transaction priority orphan rbfPolicy →
      ∀ m virtualDaaScore, P m → m.transactionPool.allTransactions.lookup (transaction.id C) = none →
      wp (onOrphans (OrphanPool.tryAddOrphan C virtualDaaScore transaction priority)) (fun _ => Q) (fun _ => Q) m
  revalidate : ∀ {transaction}, op = .revalidate transaction →
    wp (onPool (TransactionsPool.updateRevalidatedTransaction C transaction)) (fun _ => Q) (fun _ => Q) m

/-- An operation gets from `P` to `Q` if what it adds or validates anew does. -/
theorem run_add {op : Op} (closed : Closed C (fun _ => True) (fun _ => True) P)
    (closed' : Closed C Ids (fun _ => True) Q) (weaker : ∀ m, P m → Q m)
    (remark : ∀ {m}, P m → ∀ marks, P { m with withheldFromRelay := marks }) (before : P m) (steps : Steps C P Q m op) :
    wp (op.run C) (fun _ => Q) (fun _ => Q) m := by
  have kept : op.OnlyRemoves → wp (op.run C) (fun _ => Q) (fun _ => Q) m := fun removes =>
    wp_mono (closed.run removes m before) (fun _ m' => weaker m') fun _ m' failed => weaker m' failed.2
  cases op with
  | insert consensus validationResult transaction priority orphan rbfPolicy =>
    simp only [Op.run, insertAndUnorphan, wp_bind]
    refine wp_imp (closed.postValidateAndInsertTransaction weaker remark before priority orphan rbfPolicy
      (fun ok => steps.add (by rw [ok])) fun missing => steps.addOrphan (by rw [missing]))
      fun result m₁ after => ?_
    split
    · exact after
    · rw [wp_bind]
      exact wp_mono (closed'.unorphanOutputs _ m₁ after) (fun _ _ later => later) fun _ _ failed => failed.2
  | revalidate transaction =>
    rw [Op.run, wp_bind]
    exact steps.revalidate rfl
  | _ => exact kept trivial

end Closed

theorem Reachable.keeps {Allowed : Mempool → Op → Prop} {P : Mempool → Prop} {m : Mempool}
    (reachable : Reachable C Allowed m) (start : P .empty)
    (step : ∀ m (op : Op), P m → op.Sound C m → Allowed m op → wp (op.run C) (fun _ => P) (fun _ => P) m) : P m := by
  induction reachable with
  | empty => exact start
  | @step m op _ sound allowed ih =>
    have done := step m op ih sound allowed
    rw [wp] at done
    split at done
    next ran => rwa [ran]
    next ran => rwa [ran]

end Mempool

end Marigold.Mining
