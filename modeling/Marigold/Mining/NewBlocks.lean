import Marigold.Mining.Minable
import Marigold.Mining.Relations

/-!
# New blocks

A new block takes its transactions out of the mempool and evicts what they double spend. That this succeeds rests
on the two pools being apart, on the chained transactions being in an order, so that no transaction is chained to
itself, and on the orphans owning what they spend.
-/

namespace Marigold.Mining

open Lib Call

variable {C : Config}

theorem MutableTransaction.spends_of_tx {a b : MutableTransaction} (same : a.tx = b.tx) : a.spends = b.spends := by
  rw [spends, same, spends]

namespace TransactionsPool

variable {pool : TransactionsPool} {id : TransactionId}

/-! ## The order of the pool -/

/-- Every edge leads to a transaction that was added before. -/
def Ranked (E : TransactionId → TransactionId → Prop) (_ : MempoolTransactionCollection) : Prop :=
  ∃ rank : TransactionId → Nat, ∀ c p, E c p → rank p < rank c

theorem ranked_stable : Stable Ranked := by
  refine ⟨fun ranked _ => ?_, fun ranked _ _ => ranked⟩
  obtain ⟨rank, before⟩ := ranked
  exact ⟨rank, fun c p edge => before c p edge.1⟩

theorem admits_ranked (all : MempoolTransactionCollection) (transaction : MutableTransaction) :
    Admits C Ranked all transaction := by
  rintro E all' tx rfl ⟨rank, before⟩ - fresh inside
  have other : ∀ id, Pool.has all' id = true → id ≠ tx.mtx.id C := by
    rintro id there rfl
    rw [Pool.has, fresh] at there
    cases there
  -- the new transaction comes after all its parents, and nothing comes after it
  let parents := (Pool.getParentTransactionIdsInPool all' tx.mtx).toFinset
  refine ⟨fun id => if id = tx.mtx.id C then parents.sup rank + 1 else rank id, fun c p edge => ?_⟩
  dsimp only
  rcases edge with old | ⟨rfl, member⟩
  · rw [if_neg (other c (inside c p old).1), if_neg (other p (inside c p old).2)]
    exact before c p old
  · have there : Pool.has all' p = true := by
      rw [Pool.getParentTransactionIdsInPool, List.mem_dedup, List.mem_filter] at member
      exact member.2
    rw [if_pos rfl, if_neg (other p there)]
    exact Nat.lt_succ_of_le (Finset.le_sup (List.mem_toFinset.mpr member))

theorem Related.nodup_redeemers (related : Related C Ranked pool) (there : Pool.has pool.allTransactions id = true) :
    (id :: Pool.getRedeemerIdsInPool pool.allTransactions pool.chainedTransactions id).Nodup := by
  obtain ⟨E, ⟨rank, before⟩, related⟩ := related
  refine List.nodup_cons.mpr ⟨fun itself => ?_, ?_⟩
  · rw [mem_redeemers there] at itself
    have later : ∀ other, Relation.TransGen (Reach.Edge (Pool.edgesOf pool.chainedTransactions)
        (Pool.has pool.allTransactions)) id other → rank id < rank other := by
      intro other path
      induction path with
      | single edge => exact before _ _ ((related.chained _ _).mp edge.1)
      | tail _ edge ih => exact ih.trans (before _ _ ((related.chained _ _).mp edge.1))
    exact Nat.lt_irrefl _ (later id itself)
  · rw [Pool.getRedeemerIdsInPool, if_pos there]
    have finite : ∀ k, Pool.has pool.allTransactions k = true → k ∈ pool.allTransactions.keys :=
      fun k isKnown => AList.lookup_isSome.mp isKnown
    exact (Reach.searching_search finite).once

theorem has_of_mem_redeemers (there : Pool.has pool.allTransactions id = true) {other : TransactionId}
    (member : other ∈ Pool.getRedeemerIdsInPool pool.allTransactions pool.chainedTransactions id) :
    Pool.has pool.allTransactions other = true := by
  cases (mem_redeemers there).mp member with
  | single edge => exact edge.2
  | tail _ edge => exact edge.2

end TransactionsPool

/-! ## Orphans -/

namespace OrphanPool

variable {pool pool' : OrphanPool} {id : TransactionId} {tx : MempoolTransaction} {transaction : MutableTransaction}

/-- Each orphan owns what it spends, each outpoint once, and is no coinbase transaction. -/
structure Ok (C : Config) (pool : OrphanPool) : Prop where
  ids : Ids C pool
  owners : Owns (fun tx => tx.mtx.spends) pool.allOrphans pool.outpointOwnerId
  distinct : ∀ id tx, pool.allOrphans.lookup id = some tx → tx.mtx.spends.Nodup
  noCoinbase : ∀ id tx, pool.allOrphans.lookup id = some tx → tx.mtx.tx.isCoinbase = false

theorem empty_ok : Ok C empty :=
  ⟨fun _ _ there => (nomatch there), Owns.empty, fun _ _ there => (nomatch there), fun _ _ there => nomatch there⟩

theorem Thinned.ok (thinned : Thinned pool pool') (ok : pool.Ok C)
    (owners : Owns (fun tx => tx.mtx.spends) pool'.allOrphans pool'.outpointOwnerId) : pool'.Ok C := by
  refine ⟨thinned.ids ok.ids, owners, fun id tx there => ?_, fun id tx there => ?_⟩
  · obtain ⟨tx', before, same⟩ := thinned id tx there
    rw [MutableTransaction.spends_of_tx same]
    exact ok.distinct id tx' before
  · obtain ⟨tx', before, same⟩ := thinned id tx there
    rw [same]
    exact ok.noCoinbase id tx' before

theorem ok_closed : Closed C (Ok C) := by
  have closed := fun pool => thinned_closed (C := C) pool
  refine ⟨fun {pool id tx} ok there chained => ?_, fun {pool id tx tx'} ok there same => ?_,
    fun {pool} ok score => ((closed pool).scan (.refl pool) score).ok ok ok.owners⟩
  · exact ((closed pool).remove (.refl pool) there chained).ok ok (ok.owners.take there)
  · exact ((closed pool).rewrite (.refl pool) there same).ok ok
      (ok.owners.replace there (MutableTransaction.spends_of_tx same))

theorem unowned_of_checkOrphanDoubleSpend (ok : pool.Ok C) (fresh : checkOrphanDuplicate C pool transaction = .ok ())
    (passed : checkOrphanDoubleSpend C pool transaction = .ok ()) :
    ∀ outpoint ∈ transaction.spends, pool.outpointOwnerId.lookup outpoint = none := by
  intro outpoint spent
  refine Option.eq_none_iff_forall_ne_some.mpr fun owner owned => ?_
  obtain ⟨tx, there, -⟩ := (ok.owners outpoint owner).mp owned
  rw [checkOrphanDoubleSpend] at passed
  split at passed
  · cases passed
  next free =>
    have this := List.findSome?_eq_none_iff.mp free outpoint spent
    rw [outpointOrphan, owned, Option.bind_some, there, Option.filter_eq_none_iff] at this
    have same : tx.mtx.id C = transaction.id C := by simpa using this tx rfl
    rw [checkOrphanDuplicate, ← same, ok.ids owner tx there, Pool.has, there] at fresh
    cases fresh

theorem Ok.add {start : OrphanPool} (ok : pool.Ok C) (before : start.Ok C) (thinned : Thinned start pool)
    (duplicate : checkOrphanDuplicate C start transaction = .ok ())
    (doubleSpend : checkOrphanDoubleSpend C start transaction = .ok ()) (virtualDaaScore : UInt64) (priority : Priority)
    (distinct : transaction.spends.Nodup) (noCoinbase : transaction.tx.isCoinbase = false) :
    Ok C (addOrphan C virtualDaaScore transaction priority pool) := by
  have fresh : pool.allOrphans.lookup (transaction.id C) = none := by
    refine Option.eq_none_iff_forall_ne_some.mpr fun tx there => ?_
    obtain ⟨tx', there', -⟩ := thinned _ tx there
    rw [checkOrphanDuplicate, Pool.has, there'] at duplicate
    cases duplicate
  have free : ∀ outpoint ∈ transaction.spends, pool.outpointOwnerId.lookup outpoint = none := by
    intro outpoint spent
    refine Option.eq_none_iff_forall_ne_some.mpr fun owner owned => ?_
    obtain ⟨tx, there, spends⟩ := (ok.owners outpoint owner).mp owned
    obtain ⟨tx', there', same⟩ := thinned owner tx there
    have old : start.outpointOwnerId.lookup outpoint = some owner := by
      refine (before.owners outpoint owner).mpr ⟨tx', there', ?_⟩
      change outpoint ∈ tx'.mtx.spends
      rwa [← MutableTransaction.spends_of_tx same]
    cases (unowned_of_checkOrphanDoubleSpend before duplicate doubleSpend outpoint spent).symm.trans old
  refine ⟨ok.ids.insert rfl rfl, ok.owners.put fresh free, fun id tx there => ?_, fun id tx there => ?_⟩
  · rcases Map.lookup_of_insert there with ⟨-, rfl⟩ | old
    · exact distinct
    · exact ok.distinct id tx old
  · rcases Map.lookup_of_insert there with ⟨-, rfl⟩ | old
    · exact noCoinbase
    · exact ok.noCoinbase id tx old

theorem tryAddOrphan_ok (ok : pool.Ok C) (virtualDaaScore : UInt64) (priority : Priority)
    (distinct : transaction.spends.Nodup) (noCoinbase : transaction.tx.isCoinbase = false) :
    wp (tryAddOrphan C virtualDaaScore transaction priority) (fun _ => Ok C) (fun _ => Ok C) pool := by
  rw [tryAddOrphan]
  split
  · exact ok
  · simp only [wp_bind, wp_read, Action.wp_check]
    refine ⟨fun _ duplicate => ?_, fun _ _ => ok⟩
    cases transaction.calculatedNonContextualMasses with
    | none => exact ok
    | some masses =>
      simp only [Action.wp_expect_some, wp_bind, Action.wp_check]
      refine ⟨fun _ _ => ⟨fun _ doubleSpend => ?_, fun _ _ => ok⟩, fun _ _ => ok⟩
      have kept := (ok_closed (C := C)).limitOrphanPoolSize rules_allowed (pool.len + 1) pool ok
      have thin := (thinned_closed (C := C) pool).limitOrphanPoolSize rules_allowed (pool.len + 1) pool
        fun id tx there => ⟨tx, there, rfl⟩
      refine wp_mono (wp_and kept thin) (fun _ after both => ?_) fun _ _ failed => failed.1.2
      rw [wp_update]
      exact both.1.add ok both.2 duplicate doubleSpend virtualDaaScore priority distinct noCoinbase

theorem missingOwner_eq_none (ok : pool.Ok C) (there : pool.allOrphans.lookup id = some tx) :
    missingOwner pool.outpointOwnerId tx.mtx = none := by
  have owned : ∀ outpoint ∈ tx.mtx.spends, (pool.outpointOwnerId.lookup outpoint).isSome := by
    intro outpoint spent
    rw [(ok.owners outpoint id).mpr ⟨tx, there, spent⟩]
    rfl
  have distinct := ok.distinct id tx there
  rw [missingOwner]
  generalize pool.outpointOwnerId = owners at owned
  generalize 0 = start
  revert owned distinct
  generalize tx.mtx.spends = spends
  intro distinct owned
  -- each outpoint is owned until it is its turn
  induction spends generalizing owners start with
  | nil => rfl
  | cons outpoint rest ih =>
    obtain ⟨new, distinct⟩ := List.nodup_cons.mp distinct
    obtain ⟨first, owned⟩ := List.forall_mem_cons.mp owned
    have has : (owners.lookup outpoint).isNone = false := by rw [Option.isNone_eq_false_iff]; exact first
    rw [List.zipIdx_cons, List.foldl_cons]
    simp only [has, Bool.false_eq_true, if_false]
    refine ih _ _ distinct fun other member => ?_
    rw [Map.lookup_erase_eq, if_neg]
    · exact owned other member
    · rintro rfl
      exact new member

theorem removeOrphan_spec (ok : pool.Ok C) (id : TransactionId) :
    wp (removeOrphan C id false) (fun _ pool' => Pool.has pool'.allOrphans id = false) (fun _ _ => False) pool := by
  simp only [removeOrphan, wp_bind, wp_read]
  split
  next present =>
    obtain ⟨tx, there⟩ := Option.isSome_iff_exists.mp present
    simp only [Bool.false_eq_true, if_false, removeEach, removeSingleOrphan, wp_bind, wp_read, there,
      wp_update, missingOwner_eq_none ok there, wp_pure]
    rw [Pool.has, Map.lookup_erase_eq, if_pos rfl]
    rfl
  next absent => simpa using absent

end OrphanPool

/-! ## The mempool -/

namespace Mempool

variable {m m' : Mempool} {id : TransactionId} {α : Type}

/-- Nothing is chained to itself, the orphans are in order, and no transaction is a coinbase transaction. -/
structure Ordered (C : Config) (m : Mempool) : Prop where
  ranked : TransactionsPool.Related C TransactionsPool.Ranked m.transactionPool
  orphans : m.orphanPool.Ok C
  noCoinbase : ∀ id tx, m.transactionPool.allTransactions.lookup id = some tx → tx.mtx.tx.isCoinbase = false

theorem Ordered.remark (ordered : Ordered C m) (marks : Finset TransactionId) :
    Ordered C { m with withheldFromRelay := marks } := ⟨ordered.ranked, ordered.orphans, ordered.noCoinbase⟩

theorem ordered_closed : Closed C (fun _ => True) (fun _ => True) (Ordered C) := by
  refine .of_removals (fun id m ordered => ?_) (fun ordered => ?_)
    (fun ordered _ => ⟨ordered.ranked, ordered.orphans, ordered.noCoinbase⟩) fun ordered marks => ordered.remark marks
  · rw [wp_onPool]
    have removed := removeTransaction_keeps TransactionsPool.ranked_stable ordered.ranked id
    refine wp_mono removed (fun _ _ done => ?_) fun _ _ failed => ?_
    · exact ⟨done.1, ordered.orphans, fun id tx there => ordered.noCoinbase id tx (done.2 id tx there)⟩
    · exact ⟨trivial, failed.1, ordered.orphans, fun id tx there => ordered.noCoinbase id tx (failed.2 id tx there)⟩
  · have closed := OrphanPool.ok_closed (C := C)
    exact ⟨fun now there chained => ⟨now.ranked, closed.remove now.orphans there chained, now.noCoinbase⟩,
      fun now there same => ⟨now.ranked, closed.rewrite now.orphans there same, now.noCoinbase⟩,
      fun now score => ⟨now.ranked, closed.scan now.orphans score, now.noCoinbase⟩⟩

/-- The pools are in order, and apart. -/
structure Settled (C : Config) (m : Mempool) : Prop where
  inv : Inv C m
  ordered : Ordered C m

theorem Settled.after {c : Action Mempool α} (settled : Settled C m)
    (returns : wp c (fun _ _ => True) (fun _ _ => False) m) {Q : Mempool → Prop}
    (spec : wp c (fun _ m' => Inv C m' ∧ Shrinks m m' ∧ Q m') (fun _ _ => True) m)
    (safe : Safe (Ordered C) (fun _ => True) c) :
    wp c (fun _ m' => Settled C m' ∧ Shrinks m m' ∧ Q m') (fun _ _ => False) m := by
  refine wp_mono (wp_and (wp_and returns spec) (safe m settled.ordered)) (fun _ m' all => ?_)
    fun _ _ failed => failed.1.1
  exact ⟨⟨all.1.2.1, all.2⟩, all.1.2.2⟩

/-! ### Removals that do not fail -/

theorem removeFromPool_returns (inv : Inv C m) (removeRedeemers : Bool)
    (there : Pool.has m.transactionPool.allTransactions id = true) :
    wp (removeFromPool C removeRedeemers id) (fun _ _ => True) (fun _ _ => False) m := by
  simp only [removeFromPool, wp_bind, wp_onPool]
  refine wp_mono (TransactionsPool.removeTransaction_spec inv.pool id) (fun tx pool removed => ?_) fun _ _ failed => ?_
  · rw [wp_onOrphans]
    have own := inv.pool.ids id tx removed.there
    have noOrphan : ¬Pool.has m.orphanPool.allOrphans id = true := by
      intro orphan
      cases (inv.apart id orphan).symm.trans removed.there
    rw [OrphanPool.updateOrphansAfterTransactionRemoved]
    split
    · -- what is no orphan has no redeemers among the orphans
      rw [own, OrphanPool.removeRedeemersOf, wp_bind, wp_read, Pool.getRedeemerIdsInPool, if_neg noOrphan]
      trivial
    · trivial
  · rw [Pool.has, failed.2.1] at there
    cases there

theorem removeEachFromPool_returns (inv : Inv C m) (removeRedeemers : Bool) {ids : List TransactionId}
    (once : ids.Nodup) (there : ∀ id ∈ ids, Pool.has m.transactionPool.allTransactions id = true) :
    wp (forEach (removeFromPool C removeRedeemers) ids) (fun _ _ => True) (fun _ _ => False) m := by
  induction ids generalizing m with
  | nil => trivial
  | cons id rest ih =>
    obtain ⟨new, once⟩ := List.nodup_cons.mp once
    obtain ⟨here, there⟩ := List.forall_mem_cons.mp there
    rw [forEach, wp_bind]
    refine wp_mono (wp_and (removeFromPool_returns inv removeRedeemers here)
      (removeFromPool_spec inv removeRedeemers id)) (fun _ m₁ done => ?_) fun _ _ failed => failed.1
    obtain ⟨-, inv₁, -, cut⟩ := done
    refine ih inv₁ once fun other member => ?_
    rw [Pool.has, cut.all, if_neg]
    · exact there other member
    · rw [List.mem_singleton]
      rintro rfl
      exact new member

theorem Shrinks.noOrphan (shrinks : Shrinks m m') (noOrphan : Pool.has m.orphanPool.allOrphans id = false) :
    Pool.has m'.orphanPool.allOrphans id = false := by
  rw [← Bool.not_eq_true] at noOrphan ⊢
  exact fun orphan => noOrphan (shrinks.orphans id orphan)

section

variable (settled : Settled C m)

include settled

theorem removeTransaction_returns (noOrphan : Pool.has m.orphanPool.allOrphans id = false) (removeRedeemers : Bool) :
    wp (removeTransaction C id removeRedeemers) (fun _ _ => True) (fun _ _ => False) m := by
  simp only [removeTransaction, takeOut, wp_bind, wp_update, wp_read]
  rw [if_neg (by rw [show (unmark id m).orphanPool = m.orphanPool from rfl, noOrphan]; exact Bool.false_ne_true)]
  split
  next there =>
    have once := settled.ordered.ranked.nodup_redeemers there
    refine removeEachFromPool_returns (settled.inv.remark _) removeRedeemers ?_ fun other member => ?_
    · split
      · exact once
      · exact List.nodup_singleton id
    · rcases List.mem_cons.mp member with rfl | redeemer
      · exact there
      · split at redeemer
        · exact TransactionsPool.has_of_mem_redeemers there redeemer
        · cases redeemer
  · trivial

theorem removeTransaction_settled (noOrphan : Pool.has m.orphanPool.allOrphans id = false) (removeRedeemers : Bool) :
    wp (removeTransaction C id removeRedeemers) (fun _ m' => Settled C m' ∧ Shrinks m m' ∧
      m'.transactionPool.allTransactions.lookup id = none) (fun _ _ => False) m := by
  refine settled.after (removeTransaction_returns settled noOrphan removeRedeemers) ?_
    (ordered_closed.removeTransaction id removeRedeemers trivial)
  refine wp_mono (removeTransaction_spec settled.inv id removeRedeemers) (fun _ m' done => ?_) fun _ _ _ => trivial
  exact ⟨done.1, done.2.1, lookup_of_removedBy settled.inv done.2.2⟩

theorem removeOwners_settled {owners : List TransactionId}
    (noOrphan : ∀ owner ∈ owners, Pool.has m.orphanPool.allOrphans owner = false) :
    wp (removeOwners C owners) (fun _ m' => Settled C m' ∧ Shrinks m m' ∧
      ∀ owner ∈ owners, m'.transactionPool.allTransactions.lookup owner = none) (fun _ _ => False) m := by
  have each : ∀ ids : List TransactionId, ∀ m, Settled C m →
      (∀ owner ∈ ids, Pool.has m.orphanPool.allOrphans owner = false) →
      wp (forEach (fun owner => removeTransaction C owner true) ids) (fun _ m' => Settled C m' ∧ Shrinks m m' ∧
        ∀ owner ∈ ids, m'.transactionPool.allTransactions.lookup owner = none) (fun _ _ => False) m := by
    intro ids
    induction ids with
    | nil => exact fun m settled _ => ⟨settled, .refl m, by simp⟩
    | cons id rest ih =>
      intro m settled noOrphan
      obtain ⟨here, later⟩ := List.forall_mem_cons.mp noOrphan
      rw [forEach, wp_bind]
      refine wp_total (removeTransaction_settled settled here true) fun _ m₁ first => ?_
      refine wp_total (ih m₁ first.1 fun owner member => first.2.1.noOrphan (later owner member)) fun _ m₂ second => ?_
      refine ⟨second.1, first.2.1.trans second.2.1, List.forall_mem_cons.mpr ⟨?_, second.2.2⟩⟩
      exact second.2.1.lookup_none first.2.2
  refine wp_total (each owners.dedup m settled fun owner member => noOrphan owner (List.mem_dedup.mp member))
    fun _ m' done => ?_
  exact ⟨done.1, done.2.1, fun owner member => done.2.2 owner (List.mem_dedup.mpr member)⟩

theorem removeTakers_settled {K : Type} [DecidableEq K] {takes : MempoolTransaction → List K}
    {owner : Map K TransactionId} (owns : Owns takes m.transactionPool.allTransactions owner) (items : List K) :
    wp (removeOwners C (items.filterMap owner.lookup)) (fun _ m' => Settled C m' ∧ Shrinks m m' ∧
      ∀ id other, m'.transactionPool.allTransactions.lookup id = some other → ∀ item ∈ items, item ∉ takes other)
      (fun _ _ => False) m := by
  have noOrphan : ∀ id ∈ items.filterMap owner.lookup, Pool.has m.orphanPool.allOrphans id = false := by
    intro id member
    obtain ⟨item, -, owned⟩ := List.mem_filterMap.mp member
    obtain ⟨tx, there, -⟩ := (owns item id).mp owned
    rw [← Bool.not_eq_true]
    exact fun orphan => nomatch (settled.inv.apart id orphan).symm.trans there
  refine wp_total (removeOwners_settled settled noOrphan) fun _ m' done => ?_
  refine ⟨done.1, done.2.1, fun id other there item member taken => ?_⟩
  have owned := (owns item id).mpr ⟨other, done.2.1.pool id other there, taken⟩
  have gone := done.2.2 id (List.mem_filterMap.mpr ⟨item, member, owned⟩)
  exact nomatch gone.symm.trans there

theorem removeDoubleSpends_settled (tx : Transaction) :
    wp (removeDoubleSpends C tx) (fun _ m' => Settled C m' ∧ Shrinks m m' ∧
      ∀ id other, m'.transactionPool.allTransactions.lookup id = some other → ∀ input ∈ tx.inputs,
        input.previousOutpoint ∉ other.mtx.spends) (fun _ _ => False) m := by
  have owners : (tx.inputs.filterMap fun input => m.transactionPool.outpointOwnerId.lookup input.previousOutpoint) =
      (tx.inputs.map TransactionInput.previousOutpoint).filterMap m.transactionPool.outpointOwnerId.lookup := by
    rw [List.filterMap_map]
    rfl
  rw [removeDoubleSpends, wp_bind, wp_read, owners]
  refine wp_total (removeTakers_settled settled settled.inv.pool.outpoints _) fun _ m' done => ?_
  exact ⟨done.1, done.2.1, fun id other there input member => done.2.2 id other there _ (List.mem_map_of_mem member)⟩

theorem removeSerialConflicts_settled (tx : Transaction) :
    wp (removeSerialConflicts C tx) (fun _ m' => Settled C m' ∧ Shrinks m m' ∧
      ∀ id other, m'.transactionPool.allTransactions.lookup id = some other →
        ∀ serial ∈ Consensus.consumedSerialsOf tx, serial ∉ other.mtx.consumedSerials) (fun _ _ => False) m := by
  rw [removeSerialConflicts, wp_bind, wp_read]
  exact removeTakers_settled settled settled.inv.pool.serials _

theorem removeOrphan_settled (id : TransactionId) :
    wp (onOrphans (OrphanPool.removeOrphan C id false)) (fun _ m' => Settled C m' ∧ Shrinks m m' ∧
      Pool.has m'.orphanPool.allOrphans id = false) (fun _ _ => False) m := by
  have gone : wp (onOrphans (OrphanPool.removeOrphan C id false))
      (fun _ m' => Pool.has m'.orphanPool.allOrphans id = false) (fun _ _ => False) m :=
    wp_onOrphans.mpr (OrphanPool.removeOrphan_spec settled.ordered.orphans id)
  refine settled.after ?_ ?_ (onOrphans_safe fun _ ordered =>
    (ordered_closed.orphans ordered).removeOrphan (fun _ => trivial) id false)
  · exact wp_total gone fun _ _ _ => trivial
  · have spec := onOrphans_spec (fun closed => closed.removeOrphan rules_allowed id false) settled.inv
    exact wp_mono (wp_and spec gone) (fun _ _ both => ⟨both.1.1, both.1.2.1, both.2⟩) fun _ _ _ => trivial

theorem unorphanOutputs_settled (outputs : List (TransactionOutpoint × TransactionOutput)) :
    wp (unorphanOutputs C outputs) (fun _ m' => Settled C m' ∧ Shrinks m m') (fun _ _ => False) m := by
  have safe := Closed.unorphanOutputs_safe (unorphanOutput_safe (C := C) m) outputs m ⟨settled.inv, .refl m⟩
  exact wp_mono (wp_and safe (ordered_closed.unorphanOutputs outputs m settled.ordered))
    (fun _ _ both => ⟨⟨both.1.1, both.2⟩, both.1.2⟩) fun _ _ failed => failed.1.1

/-! ### Blocks -/

end

/-- The transaction is in neither pool, and no transaction of the pool takes what it takes. -/
structure Cleared (C : Config) (tx : Transaction) (m : Mempool) : Prop where
  pool : m.transactionPool.allTransactions.lookup (C.idOf tx) = none
  orphan : Pool.has m.orphanPool.allOrphans (C.idOf tx) = false
  outpoints : ∀ id other, m.transactionPool.allTransactions.lookup id = some other → ∀ input ∈ tx.inputs,
    input.previousOutpoint ∉ other.mtx.spends
  serials : ∀ id other, m.transactionPool.allTransactions.lookup id = some other →
    ∀ serial ∈ Consensus.consumedSerialsOf tx, serial ∉ other.mtx.consumedSerials

theorem Cleared.shrink {tx : Transaction} (cleared : Cleared C tx m) (shrinks : Shrinks m m') : Cleared C tx m' :=
  ⟨shrinks.lookup_none cleared.pool, shrinks.noOrphan cleared.orphan,
    fun id other there => cleared.outpoints id other (shrinks.pool id other there),
    fun id other there => cleared.serials id other (shrinks.pool id other there)⟩

theorem clear_settled (settled : Settled C m) (blockDaaScore : UInt64) (tx : Transaction)
    (gone : m.transactionPool.allTransactions.lookup (C.idOf tx) = none) :
    wp (do
      removeDoubleSpends C tx
      removeSerialConflicts C tx
      let _ ← onOrphans (OrphanPool.removeOrphan C (C.idOf tx) false)
      update fun m => { m with acceptedTransactions := m.acceptedTransactions.insert (C.idOf tx) blockDaaScore }
      getUnorphanedTransactionsAfterAcceptedTransaction C tx)
      (fun _ m' => Settled C m' ∧ Shrinks m m' ∧ Cleared C tx m') (fun _ _ => False) m := by
  rw [wp_bind]
  refine wp_total (removeDoubleSpends_settled settled tx) fun _ m₁ first => ?_
  obtain ⟨settled₁, shrinks₁, outpoints⟩ := first
  rw [wp_bind]
  refine wp_total (removeSerialConflicts_settled settled₁ tx) fun _ m₂ second => ?_
  obtain ⟨settled₂, shrinks₂, serials⟩ := second
  rw [wp_bind]
  refine wp_total (removeOrphan_settled settled₂ (C.idOf tx)) fun _ m₃ third => ?_
  obtain ⟨settled₃, shrinks₃, orphan⟩ := third
  have accepted : Settled C { m₃ with acceptedTransactions := m₃.acceptedTransactions.insert (C.idOf tx) blockDaaScore } :=
    ⟨⟨settled₃.inv.pool, settled₃.inv.apart, settled₃.inv.orphanIds⟩, ordered_closed.accept settled₃.ordered _⟩
  rw [wp_bind, wp_update]
  refine wp_total (unorphanOutputs_settled accepted _) fun _ m₄ last => ?_
  have shrinks₄ : Shrinks m₃ m₄ := ⟨last.2.pool, last.2.orphans⟩
  have whole : Shrinks m m₃ := (shrinks₁.trans shrinks₂).trans shrinks₃
  have cleared : Cleared C tx m₃ := by
    refine ⟨whole.lookup_none gone, orphan, fun id other there input member => ?_, fun id other there => ?_⟩
    · exact outpoints id other (shrinks₂.pool id other (shrinks₃.pool id other there)) input member
    · exact serials id other (shrinks₃.pool id other there)
  exact ⟨last.1, whole.trans shrinks₄, cleared.shrink shrinks₄⟩

theorem handleNewBlockTransaction_settled (settled : Settled C m) (blockDaaScore : UInt64) (tx : Transaction) :
    wp (handleNewBlockTransaction C blockDaaScore tx)
      (fun _ m' => Settled C m' ∧ Shrinks m m' ∧ Cleared C tx m') (fun _ _ => False) m := by
  rw [handleNewBlockTransaction, wp_bind, wp_read]
  split
  next orphan => exact clear_settled settled blockDaaScore tx (settled.inv.apart _ orphan)
  next noOrphan =>
    rw [wp_bind]
    refine wp_total (removeTransaction_settled settled (Bool.not_eq_true _ ▸ noOrphan) false) fun _ m₁ first => ?_
    refine wp_total (clear_settled first.1 blockDaaScore tx first.2.2) fun _ m₂ second => ?_
    exact ⟨second.1, first.2.1.trans second.2.1, second.2.2⟩

theorem handleEach_settled (settled : Settled C m) (blockDaaScore : UInt64) (txs : List Transaction) :
    wp (handleEach C blockDaaScore txs)
      (fun _ m' => Settled C m' ∧ Shrinks m m' ∧ ∀ tx ∈ txs, Cleared C tx m') (fun _ _ => False) m := by
  induction txs generalizing m with
  | nil => exact ⟨settled, .refl m, by simp⟩
  | cons tx rest ih =>
    simp only [handleEach, wp_bind]
    refine wp_total (handleNewBlockTransaction_settled settled blockDaaScore tx) fun _ m₁ first => ?_
    rw [wp_bind]
    refine wp_total (ih first.1) fun _ m₂ second => ?_
    refine ⟨second.1, first.2.1.trans second.2.1, List.forall_mem_cons.mpr ⟨?_, second.2.2⟩⟩
    exact first.2.2.shrink second.2.1

/-! ### Runs -/

/-- What was checked before: no coinbase transaction is submitted, and consensus looks for the outputs that a
transaction spends after it made sure that none is spent twice. -/
def Op.Wellformed : Op → Prop
  | .insert _ validationResult transaction _ _ _ => transaction.tx.isCoinbase = false ∧
      (validationResult = .error .rejectMissingOutpoint → transaction.spends.Nodup)
  | _ => True

theorem addMempoolTransaction_ordered (ordered : Ordered C m) {tx : MempoolTransaction}
    (noCoinbase : tx.mtx.tx.isCoinbase = false) (size : Nat) :
    wp (onPool (TransactionsPool.addMempoolTransaction C tx size)) (fun _ => Ordered C) (fun _ => Ordered C) m := by
  obtain ⟨E, ranked, related⟩ := ordered.ranked
  rw [wp_onPool]
  refine wp_mono (TransactionsPool.addMempoolTransaction_related related tx size) (fun _ pool added => ?_)
    fun _ pool same => ?_
  · obtain ⟨fresh, all, linked⟩ := added
    refine ⟨⟨_, ?_, linked⟩, ordered.orphans, fun id tx' there => ?_⟩
    · exact TransactionsPool.admits_ranked _ tx.mtx E _ tx rfl ranked (fun _ _ there => there) fresh
        fun c p edge => (related.inside c p edge).2
    · rcases Map.lookup_of_insert (all ▸ there) with ⟨-, rfl⟩ | before
      · exact noCoinbase
      · exact ordered.noCoinbase id tx' before
  · subst same
    exact ⟨ordered.ranked, ordered.orphans, ordered.noCoinbase⟩

theorem updateRevalidatedTransaction_ordered (ordered : Ordered C m) {transaction : MutableTransaction}
    (same : ∀ old, m.transactionPool.allTransactions.lookup (transaction.id C) = some old →
      TransactionsPool.Revalidates C old.mtx transaction) :
    wp (onPool (TransactionsPool.updateRevalidatedTransaction C transaction)) (fun _ => Ordered C)
      (fun _ => Ordered C) m := by
  have ranked := TransactionsPool.updateRevalidatedTransaction_related TransactionsPool.ranked_stable ordered.ranked same
  have noCoinbase : let None (pool : TransactionsPool) := ∀ id tx, pool.allTransactions.lookup id = some tx →
        tx.mtx.tx.isCoinbase = false
      wp (TransactionsPool.updateRevalidatedTransaction C transaction) (fun _ => None) (fun _ => None)
        m.transactionPool := by
    intro None
    simp only [TransactionsPool.updateRevalidatedTransaction, TransactionsPool.subtractSize, wp_bind, wp_read]
    cases there : m.transactionPool.allTransactions.lookup (transaction.id C) with
    | none => exact ordered.noCoinbase
    | some old =>
      simp only [wp_bind, wp_read]
      split
      · exact ordered.noCoinbase
      · intro id tx found
        rcases Map.lookup_of_insert found with ⟨-, rfl⟩ | before
        · rw [(same old there).tx]
          exact ordered.noCoinbase _ old there
        · exact ordered.noCoinbase id tx before
  rw [wp_onPool]
  exact wp_mono (wp_and ranked noCoinbase) (fun _ _ both => ⟨both.1, ordered.orphans, both.2⟩)
    fun _ _ both => ⟨both.1, ordered.orphans, both.2⟩

theorem ordered_of_reachable {Allowed : Mempool → Op → Prop} (wellformed : ∀ m op, Allowed m op → op.Wellformed)
    (reachable : Reachable C Allowed m) : Ordered C m := by
  refine reachable.keeps ⟨⟨_, ⟨fun _ => 0, fun _ _ never => never.elim⟩, TransactionsPool.empty_relatedBy⟩,
    OrphanPool.empty_ok, fun id tx there => nomatch there⟩ fun m op ordered sound allowed => ?_
  have formed := wellformed m op allowed
  refine ordered_closed.run_add ordered_closed (fun _ ordered => ordered) (fun ordered marks => ordered.remark marks) ordered ⟨?_, ?_, ?_⟩
  · rintro consensus transaction priority orphan rbfPolicy rfl m' tx size ordered' rfl
    exact addMempoolTransaction_ordered ordered' formed.1 size
  · rintro consensus transaction priority orphan rbfPolicy rfl m' score ordered' -
    rw [wp_onOrphans]
    have added := OrphanPool.tryAddOrphan_ok ordered'.orphans score priority (formed.2 rfl) formed.1
    exact wp_mono added (fun _ _ ok => ⟨ordered'.ranked, ok, ordered'.noCoinbase⟩)
      fun _ _ ok => ⟨ordered'.ranked, ok, ordered'.noCoinbase⟩
  · rintro transaction rfl
    exact updateRevalidatedTransaction_ordered ordered sound

theorem Reachable.mono {Allowed Allowed' : Mempool → Op → Prop} (more : ∀ m op, Allowed m op → Allowed' m op)
    (reachable : Reachable C Allowed m) : Reachable C Allowed' m := by
  induction reachable with
  | empty => exact .empty
  | step _ sound allowed ih => exact .step ih sound (more _ _ allowed)

/-- In every run in which no orphan is inserted, no transaction is in both pools. A new block is handled without an
error, and after it none of its transactions is in either pool, and none in the pool takes what they take. -/
theorem handleNewBlockTransactions_clears
    (reachable : Reachable C (fun m op => op.NoOrphan C m ∧ op.Wellformed) m) :
    (∀ id, Pool.has m.orphanPool.allOrphans id = true → m.transactionPool.allTransactions.lookup id = none) ∧
    ∀ blockDaaScore coinbase txs, coinbase.isCoinbase = true → ∃ unorphaned m',
      handleNewBlockTransactions C blockDaaScore (coinbase :: txs) m = (.ok unorphaned, m') ∧
      (∀ tx ∈ txs, Cleared C tx m') ∧
      ∀ id tx, m'.transactionPool.allTransactions.lookup id = some tx ∨ m'.orphanPool.allOrphans.lookup id = some tx →
        tx.mtx.tx ≠ coinbase := by
  have inv : Inv C m := inv_of_reachable (reachable.mono fun _ _ allowed => allowed.1)
  have ordered : Ordered C m := ordered_of_reachable (fun _ _ allowed => allowed.2) reachable
  refine ⟨inv.apart, fun blockDaaScore coinbase txs isCoinbase => ?_⟩
  have done := handleEach_settled ⟨inv, ordered⟩ blockDaaScore txs
  rw [wp] at done
  split at done
  next unorphaned m' ran =>
    obtain ⟨settled, -, cleared⟩ := done
    refine ⟨unorphaned, m', ran, cleared, fun id tx there same => ?_⟩
    have other : tx.mtx.tx.isCoinbase = false := by
      rcases there with there | there
      · exact settled.ordered.noCoinbase id tx there
      · exact settled.ordered.orphans.noCoinbase id tx there
    rw [same, isCoinbase] at other
    cases other
  next => exact done.elim

open Mempool.Sample in
/-- A transaction that is an orphan and is submitted again is in both pools, and the block that has it leaves it in
the transactions pool. -/
theorem resubmitted_orphan_not_cleared :
    ∃ m, Reachable config (fun _ _ => True) m ∧ Pool.has m.orphanPool.allOrphans 1 = true ∧
      Pool.has m.transactionPool.allTransactions 1 = true ∧ ∃ unorphaned m',
        handleNewBlockTransactions config 5 [{ spender 0 with subnetworkId := SubnetworkId.coinbase }, spender 1] m =
          (.ok unorphaned, m') ∧ Pool.has m'.transactionPool.allTransactions 1 = true :=
  ⟨_, reachable_resubmitted, rfl, rfl, _, _, rfl, rfl⟩

open Mempool.Sample in
theorem handleNewBlockTransactions_clears_replaced :
    ∃ unorphaned m', handleNewBlockTransactions config 5
      [{ spender 0 with subnetworkId := SubnetworkId.coinbase }, spender 2] replaced = (.ok unorphaned, m') ∧
      Cleared config (spender 2) m' := by
  have first : Reachable config (fun m op => op.NoOrphan config m ∧ op.Wellformed) ((submit 1 7).run config .empty).2 :=
    .step .empty ⟨rfl, fun _ => rfl⟩ ⟨fun _ => rfl, rfl, fun ok => nomatch ok⟩
  have both : Reachable config (fun m op => op.NoOrphan config m ∧ op.Wellformed) replaced :=
    .step first ⟨rfl, fun _ => rfl⟩ ⟨fun _ => rfl, rfl, fun ok => nomatch ok⟩
  obtain ⟨unorphaned, m', ran, cleared, -⟩ := (handleNewBlockTransactions_clears both).2 5
    { spender 0 with subnetworkId := SubnetworkId.coinbase } [spender 2] rfl
  exact ⟨unorphaned, m', ran, cleared (spender 2) (List.mem_singleton.mpr rfl)⟩

end Mempool

end Marigold.Mining
