import Marigold.Mining.Changes

/-!
# A mempool without conflicts

The indexes of the transactions pool are kept by every operation of the mempool, as long as no transaction is
inserted while it is among the orphans: a transaction that is in both pools is removed from one of them only.
-/

namespace Marigold.Mining

open Lib Call

variable {C : Config}

/-! ## Orphans -/

namespace OrphanPool

/-- No new orphans. -/
def Fewer (before after : OrphanPool) : Prop :=
  ∀ id, Pool.has after.allOrphans id = true → Pool.has before.allOrphans id = true

/-- Each orphan is under its own id. -/
def Ids (C : Config) (pool : OrphanPool) : Prop :=
  ∀ id tx, pool.allOrphans.lookup id = some tx → tx.mtx.id C = id

variable {pool pool' : OrphanPool}

theorem Ids.insert {id : TransactionId} {tx : MempoolTransaction} (ids : Ids C pool)
    (all : pool'.allOrphans = pool.allOrphans.insert id tx) (own : tx.mtx.id C = id) : Ids C pool' := by
  intro other tx' there
  rcases Map.lookup_of_insert (all ▸ there) with ⟨rfl, rfl⟩ | before
  · exact own
  · exact ids other tx' before

/-- The orphans that are left, with the transactions they were. -/
def Thinned (before after : OrphanPool) : Prop :=
  ∀ id tx, after.allOrphans.lookup id = some tx → ∃ tx', before.allOrphans.lookup id = some tx' ∧ tx.mtx.tx = tx'.mtx.tx

theorem Thinned.refl (pool : OrphanPool) : Thinned pool pool := fun _ tx there => ⟨tx, there, rfl⟩

theorem Thinned.fewer (thinned : Thinned pool pool') : Fewer pool pool' := by
  intro id there
  obtain ⟨tx, there⟩ := Option.isSome_iff_exists.mp there
  obtain ⟨tx', before, -⟩ := thinned id tx there
  exact Pool.has_of_lookup before

theorem Thinned.ids (thinned : Thinned pool pool') (ids : Ids C pool) : Ids C pool' := by
  intro id tx there
  obtain ⟨tx', before, same⟩ := thinned id tx there
  rw [MutableTransaction.id, same]
  exact ids id tx' before

theorem thinned_closed (start : OrphanPool) : Closed C (Thinned start) := by
  refine ⟨fun {pool id tx} thinned there _ id' tx' found => ?_, fun {pool id tx tx'} thinned there same id' found there' => ?_,
    fun thinned _ => thinned⟩
  · exact thinned id' tx' (Map.lookup_of_erase found)
  · rcases Map.lookup_of_insert there' with ⟨rfl, rfl⟩ | before
    · obtain ⟨before, there', same'⟩ := thinned _ tx there
      exact ⟨before, there', same.trans same'⟩
    · exact thinned id' found before

theorem closed_of_thinned {P : OrphanPool → Prop} (keeps : ∀ {pool pool'}, P pool → Thinned pool pool' → P pool') :
    Closed C P :=
  ⟨fun before found chained => keeps before ((thinned_closed (C := C) _).remove (.refl _) found chained),
    fun before found same => keeps before ((thinned_closed (C := C) _).rewrite (.refl _) found same),
    fun before score => keeps before ((thinned_closed (C := C) _).scan (.refl _) score)⟩

theorem tryAddOrphan_spec {transaction : MutableTransaction} (ids : Ids C pool) (virtualDaaScore : UInt64)
    (priority : Priority) (known : transaction.calculatedNonContextualMasses.isSome) :
    let Added (after : OrphanPool) := Ids C after ∧ ∀ id, Pool.has after.allOrphans id = true →
      id = transaction.id C ∨ Pool.has pool.allOrphans id = true
    wp (tryAddOrphan C virtualDaaScore transaction priority) (fun _ => Added)
      (fun e after => IsRule e ∧ Added after) pool := by
  intro Added
  have same : Added pool := ⟨ids, fun _ there => .inr there⟩
  obtain ⟨masses, found⟩ := Option.isSome_iff_exists.mp known
  rw [tryAddOrphan]
  split
  · exact same
  · simp only [found, wp_bind, wp_read, Action.wp_check, Action.wp_expect_some]
    refine ⟨fun _ _ => ⟨fun _ _ => ⟨fun _ _ => ?_, fun e _ => ⟨⟨e, rfl⟩, same⟩⟩, fun e _ => ⟨⟨e, rfl⟩, same⟩⟩,
      fun e _ => ⟨⟨e, rfl⟩, same⟩⟩
    have limited := (thinned_closed (C := C) pool).limitOrphanPoolSize rules_allowed
    refine wp_mono (limited (pool.len + 1) pool (.refl pool)) (fun _ pool' done => ?_)
      fun e pool' failed => ⟨failed.1, failed.2.ids ids, fun id there => .inr (failed.2.fewer id there)⟩
    rw [wp_update]
    refine ⟨(done.ids ids).insert rfl rfl, fun id there => ?_⟩
    rw [addOrphan, Pool.has, Map.lookup_insert_eq] at there
    split at there
    next here => exact .inl here
    · exact .inr (done.fewer id there)

end OrphanPool

/-! ## The mempool -/

namespace Mempool

/-- The indexes are in order, and no transaction of the pool is among the orphans. -/
structure Inv (C : Config) (m : Mempool) : Prop where
  pool : m.transactionPool.Ok C
  apart : ∀ id, Pool.has m.orphanPool.allOrphans id = true → m.transactionPool.allTransactions.lookup id = none
  orphanIds : m.orphanPool.Ids C

/-- Transactions and orphans are only removed. -/
structure Shrinks (m m' : Mempool) : Prop where
  pool : ∀ id tx, m'.transactionPool.allTransactions.lookup id = some tx →
    m.transactionPool.allTransactions.lookup id = some tx
  orphans : OrphanPool.Fewer m.orphanPool m'.orphanPool

theorem Shrinks.refl (m : Mempool) : Shrinks m m := ⟨fun _ _ there => there, fun _ there => there⟩

variable {m m' : Mempool} {id : TransactionId} {α : Type} {Q : α → Mempool → Prop}
  {E : Failure RuleError → Mempool → Prop} {ids : List TransactionId} {pool pool' : TransactionsPool}

theorem Shrinks.trans {m'' : Mempool} (first : Shrinks m m') (second : Shrinks m' m'') : Shrinks m m'' :=
  ⟨fun id tx there => first.pool id tx (second.pool id tx there), fun id there => first.orphans id (second.orphans id there)⟩

theorem Shrinks.lookup_none (shrinks : Shrinks m m') (gone : m.transactionPool.allTransactions.lookup id = none) :
    m'.transactionPool.allTransactions.lookup id = none :=
  Option.eq_none_iff_forall_ne_some.mpr fun tx there => nomatch gone.symm.trans (shrinks.pool id tx there)

/-- A rule error after which the mempool is in order, with nothing new in it. -/
structure Refused (C : Config) (m : Mempool) (e : Failure RuleError) (m' : Mempool) : Prop where
  rule : IsRule e
  inv : Inv C m'
  shrinks : Shrinks m m'

theorem Refused.after {m'' : Mempool} {e : Failure RuleError} (refused : Refused C m' e m'') (first : Shrinks m m') :
    Refused C m e m'' := ⟨refused.rule, refused.inv, first.trans refused.shrinks⟩

theorem Inv.shrink (inv : Inv C m) (shrinks : Shrinks m m') (ok : m'.transactionPool.Ok C)
    (ids : m'.orphanPool.Ids C) : Inv C m' := by
  refine ⟨ok, fun id there => ?_, ids⟩
  exact shrinks.lookup_none (inv.apart id (shrinks.orphans id there))

theorem inv_orphans (start m : Mempool) : OrphanPool.Closed C fun orphans =>
    Inv C { m with orphanPool := orphans } ∧ Shrinks start { m with orphanPool := orphans } := by
  refine OrphanPool.closed_of_thinned fun {before after} both thinned => ?_
  have shrinks : Shrinks { m with orphanPool := before } { m with orphanPool := after } :=
    ⟨fun _ _ there => there, thinned.fewer⟩
  exact ⟨both.1.shrink shrinks both.1.pool (thinned.ids both.1.orphanIds), both.2.trans shrinks⟩

theorem onOrphans_spec {c : Action OrphanPool α} (safe : ∀ {P : OrphanPool → Prop}, OrphanPool.Closed C P →
    Safe P IsRule c) (inv : Inv C m) :
    wp (onOrphans c) (fun _ m' => Inv C m' ∧ Shrinks m m' ∧ m'.transactionPool = m.transactionPool)
      (Refused C m) m := by
  rw [wp_onOrphans]
  exact wp_mono (safe (inv_orphans m m) m.orphanPool ⟨inv, .refl m⟩)
    (fun _ _ done => ⟨done.1, done.2, rfl⟩) fun _ _ failed => ⟨failed.1, failed.2.1, failed.2.2⟩

theorem Inv.remark (inv : Inv C m) (marks : Finset TransactionId) : Inv C { m with withheldFromRelay := marks } :=
  ⟨inv.pool, inv.apart, inv.orphanIds⟩

/-! ## Removal -/

/-- Exactly these transactions are gone from the pool; the edges between the others are as they were. -/
structure Cut (ids : List TransactionId) (pool pool' : TransactionsPool) : Prop where
  all : ∀ id, pool'.allTransactions.lookup id = if id ∈ ids then none else pool.allTransactions.lookup id
  chained : ∀ p c, p ∉ ids → c ∉ ids →
    (c ∈ Pool.edgesOf pool'.chainedTransactions p ↔ c ∈ Pool.edgesOf pool.chainedTransactions p)

theorem Cut.refl (pool : TransactionsPool) : Cut [] pool pool := ⟨fun _ => by simp, fun _ _ _ _ => Iff.rfl⟩

theorem Cut.concat {ids' : List TransactionId} {pool'' : TransactionsPool} (first : Cut ids pool pool')
    (second : Cut ids' pool' pool'') : Cut (ids ++ ids') pool pool'' := by
  refine ⟨fun id => ?_, fun p c notP notC => ?_⟩
  · rw [second.all, first.all]
    by_cases one : id ∈ ids <;> by_cases two : id ∈ ids' <;> simp [one, two]
  · rw [List.mem_append, not_or] at notP notC
    rw [second.chained p c notP.2 notC.2, first.chained p c notP.1 notC.1]

theorem Cut.sub (cut : Cut ids pool pool') {tx : MempoolTransaction}
    (there : pool'.allTransactions.lookup id = some tx) : pool.allTransactions.lookup id = some tx := by
  rw [cut.all] at there
  split at there
  · cases there
  · exact there

theorem removeFromPool_spec (inv : Inv C m) (removeRedeemers : Bool) (id : TransactionId) :
    wp (removeFromPool C removeRedeemers id)
      (fun _ m' => Inv C m' ∧ Shrinks m m' ∧ Cut [id] m.transactionPool m'.transactionPool) (Refused C m) m := by
  simp only [removeFromPool, wp_bind, wp_onPool]
  refine wp_mono (TransactionsPool.removeTransaction_spec inv.pool id) (fun tx pool removed => ?_)
    fun e pool failed => ?_
  · have cut : Cut [id] m.transactionPool pool := by
      refine ⟨fun other => ?_, fun p c notP notC => ?_⟩
      · rw [removed.all, Map.lookup_erase_eq]
        simp only [List.mem_singleton]
      · rw [List.mem_singleton] at notP notC
        exact removed.chained p c notP notC
    have shrinks : Shrinks m { m with transactionPool := pool } := ⟨fun _ _ => cut.sub, fun _ there => there⟩
    refine wp_mono (onOrphans_spec (fun closed =>
      closed.updateOrphansAfterTransactionRemoved rules_allowed tx removeRedeemers)
      (inv.shrink shrinks removed.ok inv.orphanIds)) (fun _ m' done => ?_) fun _ _ failed => failed.after shrinks
    exact ⟨done.1, shrinks.trans done.2.1, done.2.2.symm ▸ cut⟩
  · have shrinks : Shrinks m { m with transactionPool := pool } := by
      refine ⟨fun id tx there => ?_, fun _ there => there⟩
      change pool.allTransactions.lookup id = some tx at there
      rwa [failed.2.2.1] at there
    exact ⟨failed.1, inv.shrink shrinks failed.2.2.2 inv.orphanIds, shrinks⟩

/-- What a removal takes out of the pool: nothing if the transaction is an orphan. -/
def removedBy (m : Mempool) (id : TransactionId) (removeRedeemers : Bool) : List TransactionId :=
  if Pool.has m.orphanPool.allOrphans id then []
  else if Pool.has m.transactionPool.allTransactions id then
    id :: if removeRedeemers then Pool.getRedeemerIdsInPool m.transactionPool.allTransactions
      m.transactionPool.chainedTransactions id else []
  else []

theorem removeEachFromPool_spec (inv : Inv C m) (removeRedeemers : Bool) (ids : List TransactionId) :
    wp (forEach (removeFromPool C removeRedeemers) ids)
      (fun _ m' => Inv C m' ∧ Shrinks m m' ∧ Cut ids m.transactionPool m'.transactionPool) (Refused C m) m := by
  induction ids generalizing m with
  | nil => exact ⟨inv, .refl m, Cut.refl _⟩
  | cons id rest ih =>
    rw [forEach, wp_bind]
    refine wp_imp (removeFromPool_spec inv removeRedeemers id) fun _ m₁ first => ?_
    refine wp_mono (ih first.1) (fun _ m₂ second => ?_) fun _ _ failed => failed.after first.2.1
    exact ⟨second.1, first.2.1.trans second.2.1, first.2.2.concat second.2.2⟩

theorem takeOut_spec (inv : Inv C m) (id : TransactionId) (removeRedeemers : Bool) : wp (takeOut C id removeRedeemers)
      (fun _ m' => Inv C m' ∧ Shrinks m m' ∧ Cut (m.removedBy id removeRedeemers) m.transactionPool m'.transactionPool)
      (Refused C m) m := by
  simp only [takeOut, removedBy, wp_bind, wp_read]
  split
  · rw [wp_bind]
    refine wp_imp (onOrphans_spec (fun closed => closed.removeOrphan rules_allowed id true) inv) fun _ m' done => ?_
    exact ⟨done.1, done.2.1, done.2.2.symm ▸ Cut.refl _⟩
  · split
    · exact removeEachFromPool_spec inv removeRedeemers _
    · exact ⟨inv, .refl m, Cut.refl _⟩

theorem removeTransaction_spec (inv : Inv C m) (id : TransactionId) (removeRedeemers : Bool) :
    wp (removeTransaction C id removeRedeemers)
      (fun _ m' => Inv C m' ∧ Shrinks m m' ∧ Cut (m.removedBy id removeRedeemers) m.transactionPool m'.transactionPool)
      (Refused C m) m := by
  rw [removeTransaction, wp_bind, wp_update]
  refine wp_mono (takeOut_spec (inv.remark _) id removeRedeemers) (fun _ m' done => ?_) fun e m' failed => ?_
  · exact ⟨done.1, ⟨done.2.1.pool, done.2.1.orphans⟩, done.2.2⟩
  · exact ⟨failed.rule, failed.inv, failed.shrinks.pool, failed.shrinks.orphans⟩

theorem lookup_of_removedBy (inv : Inv C m) {removeRedeemers : Bool}
    (cut : Cut (m.removedBy id removeRedeemers) m.transactionPool m'.transactionPool) :
    m'.transactionPool.allTransactions.lookup id = none := by
  cases there : m.transactionPool.allTransactions.lookup id with
  | none => exact Option.eq_none_iff_forall_ne_some.mpr fun tx found => nomatch there.symm.trans (cut.sub found)
  | some tx =>
    have noOrphan : ¬Pool.has m.orphanPool.allOrphans id = true :=
      fun orphan => nomatch (inv.apart id orphan).symm.trans there
    rw [cut.all, removedBy, if_neg noOrphan, if_pos (Pool.has_of_lookup there), if_pos (.head _ ..)]

/-- Each transaction in turn is removed with its redeemers. Marks may change besides. -/
inductive RemovedAll (C : Config) : List TransactionId → Mempool → Mempool → Prop
  | nil {m m' : Mempool} (pool : m'.transactionPool = m.transactionPool) (orphans : m'.orphanPool = m.orphanPool) :
      RemovedAll C [] m m'
  | cons {m m₁ m' : Mempool} {id : TransactionId} {rest : List TransactionId} (inv : Inv C m₁) (shrinks : Shrinks m m₁)
      (cut : Cut (m.removedBy id true) m.transactionPool m₁.transactionPool) (later : RemovedAll C rest m₁ m') :
      RemovedAll C (id :: rest) m m'

namespace RemovedAll

variable {ids : List TransactionId}

theorem inv (removed : RemovedAll C ids m m') (start : Inv C m) : Inv C m' := by
  induction removed with
  | nil pool orphans => exact ⟨pool ▸ start.pool, pool ▸ orphans ▸ start.apart, orphans ▸ start.orphanIds⟩
  | cons next _ _ _ ih => exact ih next

theorem shrinks (removed : RemovedAll C ids m m') : Shrinks m m' := by
  induction removed with
  | nil pool orphans => exact ⟨fun id tx there => pool ▸ there, fun id there => orphans ▸ there⟩
  | cons _ first _ _ ih => exact first.trans ih

theorem of_remark {marks : Finset TransactionId} (removed : RemovedAll C ids { m with withheldFromRelay := marks } m') :
    RemovedAll C ids m m' := by
  cases removed with
  | nil pool orphans => exact .nil pool orphans
  | cons inv shrinks cut later => exact .cons inv ⟨shrinks.pool, shrinks.orphans⟩ cut later

theorem gone (removed : RemovedAll C ids m m') (start : Inv C m) :
    ∀ id ∈ ids, m'.transactionPool.allTransactions.lookup id = none := by
  induction removed with
  | nil => simp
  | cons next _ cut later ih =>
    intro id member
    rcases List.mem_cons.mp member with rfl | member
    · -- it is gone after its own removal, and stays so
      exact later.shrinks.lookup_none (lookup_of_removedBy start cut)
    · exact ih next id member

end RemovedAll

theorem removeAll_spec {β : Type} (inv : Inv C m) (key : β → TransactionId) (items : List β) :
    wp (forEach (fun item => removeTransaction C (key item) true) items)
      (fun _ m' => RemovedAll C (items.map key) m m') (Refused C m) m := by
  induction items generalizing m with
  | nil => exact .nil rfl rfl
  | cons item rest ih =>
    rw [forEach, wp_bind]
    refine wp_imp (removeTransaction_spec inv (key item) true) fun _ m₁ first => ?_
    refine wp_mono (ih first.1) (fun _ m₂ later => ?_) fun _ _ failed => failed.after first.2.1
    exact .cons first.1 first.2.1 first.2.2 later

/-! ## Replacement -/

theorem replace_spec (inv : Inv C m) (transaction : MutableTransaction)
    (doubleSpends : List (TransactionOutpoint × TransactionId)) : wp (replace C transaction doubleSpends)
      (fun _ m' => RemovedAll C (doubleSpends.map Prod.snd) m m') (Refused C m) m := by
  simp only [replace, wp_bind, wp_read, Action.wp_check]
  refine ⟨fun _ _ => ?_, fun e _ => ⟨⟨e, rfl⟩, inv, .refl m⟩⟩
  exact wp_imp (removeAll_spec inv Prod.snd doubleSpends) fun _ _ done => done

theorem executeReplaceByFee_spec (inv : Inv C m) (transaction : MutableTransaction) (rbfPolicy : RbfPolicy) :
    wp (executeReplaceByFee C transaction rbfPolicy) (fun _ m' => RemovedAll C (replacedBy C m transaction) m m')
      (Refused C m) m := by
  cases rbfPolicy with
  | forbidden =>
    simp only [executeReplaceByFee, wp_bind, wp_read, Action.wp_check, wp_pure]
    refine ⟨fun _ passed => ?_, fun e _ => ⟨⟨e, rfl⟩, inv, .refl m⟩⟩
    have none : m.transactionPool.conflicts C transaction = [] := by
      rw [TransactionsPool.checkDoubleSpends] at passed
      split at passed
      next none => exact none
      · cases passed
    rw [replacedBy, TransactionsPool.getDoubleSpendTransactionIds, none]
    exact .nil rfl rfl
  | allowed =>
    simp only [executeReplaceByFee, wp_bind, wp_read]
    exact replace_spec inv transaction _
  | mandatory =>
    simp only [executeReplaceByFee, replacedBy, wp_bind, wp_read]
    split
    · exact ⟨⟨_, rfl⟩, inv, .refl m⟩
    next doubleSpend only =>
      rw [only]
      exact replace_spec inv transaction [doubleSpend]
    · exact ⟨⟨_, rfl⟩, inv, .refl m⟩

theorem RemovedAll.unowned (removed : RemovedAll C (replacedBy C m transaction) m m') (inv : Inv C m)
    (fresh : m.transactionPool.allTransactions.lookup (transaction.id C) = none) :
    ∀ outpoint ∈ transaction.spends, m'.transactionPool.outpointOwnerId.lookup outpoint = none := by
  intro outpoint spent
  refine Option.eq_none_iff_forall_ne_some.mpr fun owner owned => ?_
  have before :=
    inv.pool.outpoints.lookup_of_submap (removed.inv inv).pool.outpoints removed.shrinks.pool owned
  obtain ⟨tx, there, -⟩ := ((removed.inv inv).pool.outpoints outpoint owner).mp owned
  have other : owner ≠ transaction.id C := by
    rintro rfl
    exact nomatch fresh.symm.trans (removed.shrinks.pool _ tx there)
  have gone := removed.gone inv owner (mem_replacedBy.mpr ⟨other, outpoint, spent, before⟩)
  exact nomatch gone.symm.trans there

/-! ## Room -/

theorem makeRoom_spec (inv : Inv C m) {size : Nat}
    (enough : ∀ m', RemovedAll C ids m m' → m'.transactionPool.hasRoomFor C size = true) : wp (makeRoom C size ids)
      (fun _ m' => m'.transactionPool.hasRoomFor C size = true ∧ ∃ evicted, evicted <+: ids ∧ RemovedAll C evicted m m')
      (Refused C m) m := by
  induction ids generalizing m with
  | nil => exact ⟨enough m (.nil rfl rfl), [], List.nil_prefix, .nil rfl rfl⟩
  | cons id rest ih =>
    simp only [makeRoom, wp_bind]
    refine wp_imp (removeTransaction_spec inv id true) fun _ m₁ first => ?_
    simp only [wp_bind, wp_read]
    split
    next room =>
      refine ⟨room, [id], List.prefix_append [id] rest, ?_⟩
      exact .cons first.1 first.2.1 first.2.2 (.nil rfl rfl)
    · refine wp_mono (ih first.1 fun m' later => enough m' (.cons first.1 first.2.1 first.2.2 later))
        (fun _ m₂ done => ?_) fun _ _ failed => failed.after first.2.1
      obtain ⟨room, evicted, part, later⟩ := done
      exact ⟨room, id :: evicted, List.prefix_cons_inj id |>.mpr part, .cons first.1 first.2.1 first.2.2 later⟩

/-! ## Insertion -/

/-- What an insertion does: the double spends are removed, some more to make room, and the transaction is added. -/
structure Inserts (C : Config) (transaction : MutableTransaction) (m m₁ m₂ m' : Mempool) : Prop where
  replaced : RemovedAll C (replacedBy C m transaction) m m₁
  evicted : ∃ chosen evicted, m₁.transactionPool.MakesRoom C transaction (C.estimatedBytes transaction) chosen ∧
    evicted <+: chosen ∧ RemovedAll C evicted m₁ m₂
  fresh : m.transactionPool.allTransactions.lookup (transaction.id C) = none
  added : ∃ tx : MempoolTransaction, tx.mtx = transaction ∧
    m'.transactionPool.allTransactions = m₂.transactionPool.allTransactions.insert (transaction.id C) tx
  ok : m'.transactionPool.Ok C
  orphans : m'.orphanPool = m₂.orphanPool

theorem unowned_of_checkSerialConflicts (ok : m.transactionPool.Ok C)
    (fresh : m.transactionPool.allTransactions.lookup (transaction.id C) = none)
    (passed : m.transactionPool.checkSerialConflicts C transaction = .ok ()) :
    ∀ serial ∈ transaction.consumedSerials, m.transactionPool.serialOwnerId.lookup serial = none := by
  intro serial consumed
  rw [TransactionsPool.checkSerialConflicts] at passed
  split at passed
  next free =>
    refine Option.eq_none_iff_forall_ne_some.mpr fun owner owned => ?_
    have this := List.findSome?_eq_none_iff.mp free serial consumed
    simp only [owned, ite_eq_right_iff, reduceCtorEq, imp_false, not_not] at this
    obtain ⟨tx, there, -⟩ := (ok.serials serial owner).mp owned
    rw [this, fresh] at there
    cases there
  · cases passed

variable {consensus : ConsensusApi} {transaction : MutableTransaction}

/-- An insertion keeps the pools apart if the transaction is no orphan. -/
theorem Inserts.inv {m₁ m₂ : Mempool} (inserts : Inserts C transaction m m₁ m₂ m') (inv : Inv C m)
    (noOrphan : Pool.has m.orphanPool.allOrphans (transaction.id C) = false) : Inv C m' := by
  obtain ⟨chosen, evicted, -, -, removed⟩ := inserts.evicted
  obtain ⟨tx, -, all⟩ := inserts.added
  have inv₂ := removed.inv (inserts.replaced.inv inv)
  have shrinks : Shrinks m m₂ := inserts.replaced.shrinks.trans removed.shrinks
  refine ⟨inserts.ok, fun id there => ?_, inserts.orphans ▸ inv₂.orphanIds⟩
  rw [inserts.orphans] at there
  rw [all, Map.lookup_insert_eq, if_neg, inv₂.apart id there]
  rintro rfl
  exact nomatch noOrphan.symm.trans (shrinks.orphans _ there)

theorem insertValid_spec (inv : Inv C m) (fresh : m.transactionPool.allTransactions.lookup (transaction.id C) = none)
    (populated : transaction.isFullyPopulated = true) (priority : Priority) (rbfPolicy : RbfPolicy) :
    wp (insertValid C consensus transaction priority rbfPolicy)
      (fun result m' => result.accepted = some transaction.tx ∧ ∃ m₁ m₂, Inserts C transaction m m₁ m₂ m')
      (fun e m' => IsRule e ∧ Inv C m') m := by
  simp only [insertValid, wp_bind, Action.wp_check, wp_update, wp_read]
  -- the mark changes nothing that the insertion rests on
  obtain ⟨marks, marked⟩ : ∃ marks, (if exempt C transaction priority = true then mark (transaction.id C) m else m) =
      { m with withheldFromRelay := marks } := by
    split
    · exact ⟨_, rfl⟩
    · exact ⟨_, rfl⟩
  rw [marked]
  have invMarked : Inv C { m with withheldFromRelay := marks } := inv.remark marks
  refine ⟨fun _ _ => ⟨fun _ serials => ?_, fun e _ => ⟨⟨e, rfl⟩, invMarked⟩⟩, fun e _ => ⟨⟨e, rfl⟩, inv⟩⟩
  have free := unowned_of_checkSerialConflicts inv.pool fresh serials
  refine wp_mono (executeReplaceByFee_spec invMarked transaction rbfPolicy) (fun _ m₁ replaced => ?_)
    fun _ _ failed => ⟨failed.rule, failed.inv⟩
  have replaced := replaced.of_remark
  have inv₁ := replaced.inv inv
  simp only [wp_bind, wp_read]
  rcases TransactionsPool.limitTransactionCount_spec inv₁.pool (C.estimatedBytes transaction)
    (TransactionsPool.calculatedFeerate_of_populated populated) with ⟨e, full⟩ | ⟨chosen, limited, makes⟩
  · rw [full]
    exact ⟨⟨e, rfl⟩, inv₁⟩
  · rw [limited, wp_ofExcept_ok, wp_bind]
    have enough : ∀ m', RemovedAll C chosen m₁ m' →
        m'.transactionPool.hasRoomFor C (C.estimatedBytes transaction) = true := fun m' removed =>
      makes.hasRoomFor inv₁.pool (removed.inv inv₁).pool removed.shrinks.pool (removed.gone inv₁)
    refine wp_mono (makeRoom_spec inv₁ enough) (fun _ m₂ done => ?_) fun _ _ failed => ⟨failed.rule, failed.inv⟩
    obtain ⟨room, evicted, part, removed⟩ := done
    have inv₂ := removed.inv inv₁
    have shrinks : Shrinks m m₂ := replaced.shrinks.trans removed.shrinks
    simp only [wp_bind, wp_read, Action.wp_assert, room, forall_const, Bool.true_eq_false, false_implies,
      and_true, wp_onPool]
    refine wp_total (TransactionsPool.addMempoolTransaction_spec inv₂.pool ⟨shrinks.lookup_none fresh, populated,
      room, ?_, ?_⟩) fun _ pool added => ?_
    · refine fun outpoint spent => Option.eq_none_iff_forall_ne_some.mpr fun owner owned => ?_
      cases (replaced.unowned inv fresh outpoint spent).symm.trans
        (inv₁.pool.outpoints.lookup_of_submap inv₂.pool.outpoints removed.shrinks.pool owned)
    · refine fun serial consumed => Option.eq_none_iff_forall_ne_some.mpr fun owner owned => ?_
      cases (free serial consumed).symm.trans (inv.pool.serials.lookup_of_submap inv₂.pool.serials shrinks.pool owned)
    · exact ⟨rfl, m₁, m₂, replaced, ⟨chosen, evicted, makes, part, removed⟩, fresh, ⟨_, rfl, added.2⟩, added.1, rfl⟩

theorem postValidateAndInsertTransaction_spec (inv : Inv C m) {validationResult : RuleResult Unit}
    (known : transaction.calculatedNonContextualMasses.isSome)
    (valid : validationResult = .ok () → transaction.isFullyPopulated = true)
    (priority : Priority) (orphan : Orphan) (rbfPolicy : RbfPolicy) :
    wp (postValidateAndInsertTransaction C consensus validationResult transaction priority orphan rbfPolicy)
      (fun result m' =>
        ((validationResult = .ok () → Pool.has m.orphanPool.allOrphans (transaction.id C) = false) → Inv C m') ∧
        (result.accepted.isSome → validationResult = .ok () ∧ result.accepted = some transaction.tx ∧
          ∃ m₁ m₂, Inserts C transaction m m₁ m₂ m')) (fun e m' => IsRule e ∧ Inv C m') m := by
  simp only [postValidateAndInsertTransaction, wp_bind, wp_read, Action.wp_check]
  refine ⟨fun _ _ => ⟨fun _ notDuplicate => ?_, fun e _ => ⟨⟨e, rfl⟩, inv⟩⟩, fun e _ => ⟨⟨e, rfl⟩, inv⟩⟩
  have fresh : m.transactionPool.allTransactions.lookup (transaction.id C) = none := by
    rw [validateTransactionNotDuplicate] at notDuplicate
    split at notDuplicate
    · cases notDuplicate
    next absent => exact Option.not_isSome_iff_eq_none.mp absent
  split
  · refine wp_imp (insertValid_spec inv fresh (valid rfl) priority rbfPolicy) fun result m' done => ?_
    obtain ⟨accepted, m₁, m₂, inserts⟩ := done
    exact ⟨fun noOrphan => inserts.inv inv (noOrphan rfl), fun _ => ⟨rfl, accepted, m₁, m₂, inserts⟩⟩
  · split
    · exact ⟨⟨_, rfl⟩, inv⟩
    · simp only [wp_bind, Action.wp_check, wp_onOrphans]
      refine ⟨fun _ _ => ?_, fun e _ => ⟨⟨e, rfl⟩, inv⟩⟩
      -- the new orphan is not in the pool, the others were orphans before
      have kept : ∀ pool : OrphanPool, pool.Ids C → (∀ id, Pool.has pool.allOrphans id = true →
          id = transaction.id C ∨ Pool.has m.orphanPool.allOrphans id = true) →
          Inv C { m with orphanPool := pool } := by
        intro pool ids few
        refine ⟨inv.pool, fun id there => ?_, ids⟩
        rcases few id there with rfl | before
        · exact fresh
        · exact inv.apart id before
      refine wp_mono (OrphanPool.tryAddOrphan_spec inv.orphanIds consensus.virtualDaaScore priority known)
        (fun _ pool done => ?_) fun e pool failed => ⟨failed.1, kept pool failed.2.1 failed.2.2⟩
      exact ⟨fun _ => kept pool done.1 done.2, fun none => by cases none⟩
  · exact ⟨⟨_, rfl⟩, inv⟩

/-! ## Orphans no more -/

theorem unorphanTransaction_spec {start : Mempool} (inv : Inv C m) (shrinks : Shrinks start m)
    (there : Pool.has m.orphanPool.allOrphans id = true) :
    wp (unorphanTransaction C id) (fun _ m' => Inv C m' ∧ Shrinks start m')
      (fun e m' => IsRule e ∧ Inv C m' ∧ Shrinks start m') m := by
  simp only [unorphanTransaction, OrphanPool.removeOrphan, wp_bind, wp_onOrphans, wp_read, there, if_true,
    Bool.false_eq_true, if_false, OrphanPool.removeEach]
  -- the list that is returned has one transaction, so the assertion on its length holds
  refine wp_mono ((inv_orphans start m).removeSingleOrphan rules_allowed id m.orphanPool ⟨inv, shrinks⟩)
    (fun tx pool done => ?_) fun e pool failed => failed
  simp only [wp_bind, wp_pure, wp_read, Action.wp_check]
  exact ⟨fun _ _ => ⟨fun _ _ => done, fun e _ => ⟨⟨e, rfl⟩, done⟩⟩, fun e _ => ⟨⟨e, rfl⟩, done⟩⟩

theorem fillOrphan_spec {orphans : OrphanPool} (ids : orphans.Ids C) (outpoint : TransactionOutpoint)
    (output : TransactionOutput) : orphans.Thinned (fillOrphan C outpoint output orphans).1 ∧
      ∀ id, (fillOrphan C outpoint output orphans).2 = some id →
        Pool.has (fillOrphan C outpoint output orphans).1.allOrphans id = true := by
  rw [fillOrphan]
  split
  · exact ⟨.refl orphans, fun _ none => by cases none⟩
  next key _ =>
    split
    · exact ⟨.refl orphans, fun _ none => by cases none⟩
    next orphan found =>
      refine ⟨(OrphanPool.thinned_closed (C := C) orphans).rewrite (.refl orphans) found rfl, fun id named => ?_⟩
      have own : orphan.mtx.id C = id := by
        simp only [Option.ite_none_right_eq_some, Option.some_inj] at named
        exact named.2
      rw [← own, ids key orphan found, Pool.has, Map.lookup_insert_eq, if_pos rfl]
      rfl

theorem unorphanOutput_safe (start : Mempool) (outpoint : TransactionOutpoint) (output : TransactionOutput) :
    Safe (fun m => Inv C m ∧ Shrinks start m) (fun _ => False) (unorphanOutput C outpoint output) := by
  rintro m ⟨inv, shrinks⟩
  obtain ⟨thinned, named⟩ := fillOrphan_spec inv.orphanIds outpoint output
  have filled : Shrinks m { m with orphanPool := (fillOrphan C outpoint output m.orphanPool).1 } :=
    ⟨fun _ _ there => there, thinned.fewer⟩
  have inv' := inv.shrink filled inv.pool (thinned.ids inv.orphanIds)
  have shrinks' : Shrinks start _ := shrinks.trans filled
  simp only [unorphanOutput, wp_bind, wp_read, wp_update]
  split
  · exact ⟨inv', shrinks'⟩
  next id complete =>
    have taken := Action.wp_attempt (unorphanTransaction_spec inv' shrinks' (named id complete))
    exact wp_mono taken (fun _ _ done => done) fun _ _ failed => ⟨failed.1.2 failed.1.1, failed.2⟩

theorem inv_closed (start : Mempool) : Closed C (fun _ => True) IsRule fun m => Inv C m ∧ Shrinks start m := by
  refine ⟨rules_allowed, fun id removeRedeemers _ m both => ?_, fun {m} _ => inv_orphans start m,
    fun both _ => ⟨⟨both.1.pool, both.1.apart, both.1.orphanIds⟩, both.2.pool, both.2.orphans⟩, fun outpoint output m both => ?_⟩
  · refine wp_mono (removeTransaction_spec both.1 id removeRedeemers) (fun _ m' done => ?_) fun _ m' failed => ?_
    · exact ⟨done.1, both.2.trans done.2.1⟩
    · exact ⟨failed.rule, failed.inv, both.2.trans failed.shrinks⟩
  · exact wp_mono (unorphanOutput_safe start outpoint output m both) (fun _ _ done => done) fun _ _ never => never.1.elim

/-! ## Runs -/

theorem Op.run_spec {op : Op} (inv : Inv C m) (sound : op.Sound C m) (noOrphan : op.NoOrphan C m) :
    wp (op.run C) (fun _ m' => Inv C m') (fun e m' => IsRule e ∧ Inv C m') m := by
  have kept : op.OnlyRemoves → wp (op.run C) (fun _ m' => Inv C m') (fun e m' => IsRule e ∧ Inv C m') m :=
    fun removes => wp_mono ((inv_closed m).run removes m ⟨inv, .refl m⟩) (fun _ _ done => done.1)
      fun _ _ failed => ⟨failed.1, failed.2.1⟩
  cases op with
  | insert consensus validationResult transaction priority orphan rbfPolicy =>
    simp only [run, insertAndUnorphan, wp_bind]
    refine wp_imp (postValidateAndInsertTransaction_spec inv sound.1 sound.2 priority orphan rbfPolicy)
      fun result m₁ done => ?_
    split
    · exact done.1 noOrphan
    next accepted _ =>
      rw [wp_bind]
      exact wp_mono ((inv_closed m₁).unorphanOutputs _ m₁ ⟨done.1 noOrphan, .refl m₁⟩)
        (fun _ _ later => later.1) fun _ _ failed => ⟨failed.1, failed.2.1⟩
  | revalidate transaction =>
    simp only [run, wp_bind, wp_onPool]
    refine wp_total (TransactionsPool.updateRevalidatedTransaction_spec inv.pool sound) fun _ pool done => ?_
    refine ⟨done.1, fun id there => ?_, inv.orphanIds⟩
    have same := done.2 id
    rw [inv.apart id there] at same
    exact Option.not_isSome_iff_eq_none.mp (by rw [same]; exact Bool.false_ne_true)
  | _ => exact kept trivial

theorem inv_of_reachable (reachable : Reachable C (fun m op => op.NoOrphan C m) m) : Inv C m := by
  refine reachable.keeps ⟨TransactionsPool.empty_ok, fun id there => (nomatch there), fun id tx there => nomatch there⟩
    fun m op inv sound noOrphan => ?_
  exact wp_mono (Op.run_spec inv sound noOrphan) (fun _ _ done => done) fun _ _ failed => failed.2

/-- What the indexes and counters of the transactions pool are for. -/
structure ConflictFree (C : Config) (pool : TransactionsPool) : Prop where
  outpoints : ∀ id id' tx tx', pool.allTransactions.lookup id = some tx → pool.allTransactions.lookup id' = some tx' →
    ∀ outpoint ∈ tx.mtx.spends, outpoint ∈ tx'.mtx.spends → id = id'
  serials : ∀ id id' tx tx', pool.allTransactions.lookup id = some tx → pool.allTransactions.lookup id' = some tx' →
    ∀ serial ∈ tx.mtx.consumedSerials, serial ∈ tx'.mtx.consumedSerials → id = id'
  outpointOwners : ∀ outpoint id, pool.outpointOwnerId.lookup outpoint = some id ↔
    ∃ tx, pool.allTransactions.lookup id = some tx ∧ outpoint ∈ tx.mtx.spends
  serialOwners : ∀ serial id, pool.serialOwnerId.lookup serial = some id ↔
    ∃ tx, pool.allTransactions.lookup id = some tx ∧ serial ∈ tx.mtx.consumedSerials
  size : pool.estimatedSize = (pool.allTransactions.entries.map fun entry => C.estimatedBytes entry.2.mtx).sum
  count : pool.allTransactions.entries.length ≤ C.maximumTransactionCount
  bytes : pool.estimatedSize ≤ C.mempoolSizeLimit

/-- In every run in which no orphan is inserted the mempool has no conflicts and keeps its limits, and the next
step does not panic. -/
theorem reachable_conflictFree (reachable : Reachable C (fun m op => op.NoOrphan C m) m) :
    ConflictFree C m.transactionPool ∧ ∀ op : Op, op.Sound C m → op.NoOrphan C m →
      ∀ cause, (op.run C m).1 ≠ .error (.panic cause) := by
  have inv := inv_of_reachable reachable
  constructor
  · exact ⟨fun id id' tx tx' there there' outpoint spent spent' =>
        inv.pool.outpoints.unique there spent there' spent',
      fun id id' tx tx' there there' serial consumed consumed' =>
        inv.pool.serials.unique there consumed there' consumed',
      inv.pool.outpoints, inv.pool.serials, inv.pool.size, inv.pool.count, inv.pool.bytes⟩
  · intro op sound noOrphan cause panicked
    have done := Op.run_spec inv sound noOrphan
    rw [wp] at done
    split at done
    next ran => rw [ran] at panicked; cases panicked
    next ran =>
      rw [ran] at panicked
      cases panicked
      obtain ⟨⟨rule, same⟩, -⟩ := done
      cases same

namespace Sample

/-- Ids are lock times, feerates are compared by the fee alone. -/
def config : Config where
  idOf tx := BitVec.ofNat 256 tx.lockTime.toNat
  maximumTransactionCount := 10
  mempoolSizeLimit := 1000
  maximumOrphanTransactionCount := 10
  maximumOrphanTransactionNormalizedMass := 1000
  orphanExpireIntervalDaaScore := 10
  orphanExpireScanIntervalDaaScore := 10
  acceptedTransactionExpireIntervalDaaScore := 10
  acceptOwnBelowFloor := false
  feeIsBelowRelayFloor _ := false
  validateInIsolation _ := .ok ()
  validateInContext _ _ := .ok ()
  estimatedBytes _ := 100
  normalizedNonContextual masses := masses.1.toNat
  normalizedMass masses _ := masses.1.toNat
  feerateAbove a b := a.1 > b.1
  compareWeights _ _ := .eq
  compareWeights_self _ := rfl

def api : ConsensusApi where
  virtualDaaScore := 5
  virtualUtxos _ := none
  calculateTransactionNonContextualMasses _ := .ok (10, 10)
  validateWithoutUtxos _ := .ok ()
  validateWithUtxos _ _ := .ok (0, 0)

def outpoint : TransactionOutpoint := ⟨99, 0⟩

def spender (id : UInt64) : Transaction where
  version := 0
  inputs := [⟨outpoint, [], 0, .sigopCount 0⟩]
  outputs := [⟨50, ⟨0, []⟩, none⟩]
  lockTime := id
  subnetworkId := SubnetworkId.native
  gas := 0
  payload := []
  storageMass := 0

def populated (id fee : UInt64) : MutableTransaction :=
  ⟨spender id, [some ⟨100, ⟨0, []⟩, 0, false, none⟩], some fee, some (10, 10), rfl⟩

/-- The transaction comes while its input is missing. -/
def submitEarly (id : UInt64) : Op :=
  .insert api (.error .rejectMissingOutpoint) ⟨spender id, [none], none, some (10, 10), rfl⟩ .low .allowed .allowed

def submit (id fee : UInt64) : Op := .insert api (.ok ()) (populated id fee) .low .allowed .allowed

def replaced : Mempool := ((submit 2 8).run config ((submit 1 7).run config .empty).2).2

theorem reachable_resubmitted :
    Reachable config (fun _ _ => True) ((submit 1 7).run config ((submitEarly 1).run config .empty).2).2 :=
  .step (.step .empty ⟨rfl, fun ok => nomatch ok⟩ trivial) ⟨rfl, fun _ => rfl⟩ trivial

end Sample

open Sample in
theorem reachable_conflictFree_replaced :
    ConflictFree config replaced.transactionPool ∧ ∀ op : Op, op.Sound config replaced → op.NoOrphan config replaced →
      ∀ cause, (op.run config replaced).1 ≠ .error (.panic cause) := by
  have first : Reachable config (fun m op => op.NoOrphan config m) ((submit 1 7).run config .empty).2 :=
    .step .empty ⟨rfl, fun _ => rfl⟩ fun _ => rfl
  exact reachable_conflictFree (m := replaced) (.step first ⟨rfl, fun _ => rfl⟩ fun _ => rfl)

open Sample in
/-- An orphan that is inserted is in both pools. The replacement then removes the orphan, not the transaction. -/
theorem replaced_orphan_conflicts :
    ∃ m, Reachable config (fun _ _ => True) m ∧ ∃ tx tx', m.transactionPool.allTransactions.lookup 1 = some tx ∧
      m.transactionPool.allTransactions.lookup 2 = some tx' ∧ outpoint ∈ tx.mtx.spends ∧ outpoint ∈ tx'.mtx.spends ∧
      m.transactionPool.outpointOwnerId.lookup outpoint = some 2 := by
  have replacement := @Reachable.step _ _ _ (submit 2 8) reachable_resubmitted ⟨rfl, fun _ => rfl⟩ trivial
  exact ⟨_, replacement, ⟨populated 1 7, .low, 5⟩, ⟨populated 2 8, .low, 5⟩, rfl, rfl, by decide, by decide, rfl⟩

end Mempool

end Marigold.Mining
