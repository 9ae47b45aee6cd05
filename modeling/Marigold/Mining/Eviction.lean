import Marigold.Mining.Minable
import Marigold.Mining.Relations

/-!
# Making room

`limit_transaction_count` selects ready transactions of low priority whose feerate is not above that of the incoming
transaction, and none that has a parent of it chained to it. What is chained to a selected transaction is removed
with it, and is not looked at.
-/

namespace Marigold.Mining

open Lib

variable {C : Config}

namespace TransactionsPool

variable {pool : TransactionsPool} {transaction : MutableTransaction} {threshold : UInt64 × Nat} {id : TransactionId}
  {size : Nat} {ids chosen : List TransactionId}

/-- Of low priority, and not of a higher feerate. -/
def Cheap (C : Config) (threshold : UInt64 × Nat) (tx : MempoolTransaction) : Prop :=
  tx.priority = .low ∧ ∀ feerate, tx.mtx.calculatedFeerate C = some feerate → C.feerateAbove feerate threshold = false

theorem selectForEviction_cheap (ok : pool.Ok C) {keys : List FeerateTransactionKey} {selected : Nat}
    (before : ∀ id ∈ ids, ∀ tx, pool.allTransactions.lookup id = some tx → Cheap C threshold tx)
    (done : selectForEviction C pool transaction size threshold keys ids selected = .ok chosen) :
    ∀ id ∈ chosen, ∀ tx, pool.allTransactions.lookup id = some tx → Cheap C threshold tx := by
  induction keys generalizing ids selected with
  | nil => cases done
  | cons key rest ih =>
    rw [selectForEviction] at done
    obtain ⟨tx, found, done⟩ := Outcome.bind_eq_ok.mp done
    have there := Outcome.expect_eq_ok.mp found
    have own : tx.mtx.id C = C.idOf key.tx := ok.ids _ tx there
    dsimp only at done
    split at done
    · exact ih before done
    next low =>
      split at done
      · exact ih before done
      · obtain ⟨feerate, known, done⟩ := Outcome.bind_eq_ok.mp done
        have rate := Outcome.expect_eq_ok.mp known
        split at done
        · cases done
        next below =>
          have cheap : Cheap C threshold tx := by
            refine ⟨not_not.mp low, fun feerate' rate' => ?_⟩
            cases rate.symm.trans rate'
            exact Bool.eq_false_of_not_eq_true below
          have more : ∀ id ∈ ids ++ [tx.mtx.id C], ∀ tx, pool.allTransactions.lookup id = some tx →
              Cheap C threshold tx := by
            intro id member tx' there'
            rcases List.mem_append.mp member with old | new
            · exact before id old tx' there'
            · rw [List.mem_singleton.mp new, own, there] at there'
              cases there'
              exact cheap
          split at done
          · cases done
          · split at done
            · cases done
              exact more
            · exact ih more done

theorem limitTransactionCount_cheap (ok : pool.Ok C) (rate : transaction.calculatedFeerate C = some threshold)
    (limited : limitTransactionCount C pool transaction size = .ok chosen) :
    ∀ id ∈ chosen, ∀ tx, pool.allTransactions.lookup id = some tx → Cheap C threshold tx := by
  rw [limitTransactionCount] at limited
  split at limited
  · cases limited
    exact fun _ member => by cases member
  · rw [rate] at limited
    have none : ∀ id ∈ ([] : List TransactionId), ∀ tx, pool.allTransactions.lookup id = some tx →
        Cheap C threshold tx := by simp
    exact selectForEviction_cheap ok none limited

/-! ## Ancestors -/

/-- A transaction of the pool that `transaction` spends from, directly or through others. -/
def Ancestor (pool : TransactionsPool) (transaction : MutableTransaction) (id : TransactionId) : Prop :=
  Pool.has pool.allTransactions id = true ∧ ∃ parent ∈ transaction.parents,
    Relation.ReflTransGen (fun p c => SpendsFrom pool.allTransactions c p) id parent

/-- The same along the transactions that are recorded as chained. -/
def ChainedAncestor (pool : TransactionsPool) (transaction : MutableTransaction) (id : TransactionId) : Prop :=
  Pool.has pool.allTransactions id = true ∧ ∃ parent ∈ transaction.parents,
    Relation.ReflTransGen (Reach.Edge (Pool.edgesOf pool.chainedTransactions) (Pool.has pool.allTransactions)) id parent

/-- Nothing that a selected transaction reaches is an ancestor along the chains. -/
theorem Evictable.not_chainedAncestor (evictable : Evictable C pool transaction ids) (hit : pool.Hit ids id) :
    ¬pool.ChainedAncestor transaction id := by
  rintro ⟨-, parent, member, path⟩
  obtain ⟨root, chosen, there, before⟩ := hit
  have unrelated := evictable.unrelated root chosen
  rw [MutableTransaction.hasParentInSet, List.any_eq_false] at unrelated
  refine unrelated parent member (decide_eq_true ?_)
  rw [List.mem_append, List.mem_singleton, mem_redeemers there]
  exact (Relation.reflTransGen_iff_eq_or_transGen.mp (before.trans path)).symm

end TransactionsPool

/-! ## What is removed -/

namespace Mempool

open TransactionsPool

variable {m m' : Mempool} {transaction : MutableTransaction} {threshold : UInt64 × Nat}

/-- In the pool before, not after. -/
def Evicted (m m' : Mempool) (id : TransactionId) (tx : MempoolTransaction) : Prop :=
  m.transactionPool.allTransactions.lookup id = some tx ∧ m'.transactionPool.allTransactions.lookup id = none

theorem Evicted.hit {size : Nat} {chosen : List TransactionId} (inv : Inv C m)
    (enough : ∀ m', RemovedAll C chosen m m' → m'.transactionPool.hasRoomFor C size = true)
    (ran : makeRoom C size chosen m = (.ok (), m')) {id : TransactionId} {tx : MempoolTransaction}
    (evicted : Evicted m m' id tx) : m.transactionPool.Hit chosen id := by
  obtain ⟨-, some, part, removed⟩ := Call.wp_ok (makeRoom_spec inv enough) ran
  have gone := Bool.not_eq_true _ ▸ Pool.has_eq_false.mpr evicted.2
  rw [(removed.pruned inv).left, not_and, not_not] at gone
  obtain ⟨root, member, known, path⟩ := gone (Pool.has_of_lookup evicted.1)
  exact ⟨root, part.subset member, known, path⟩

namespace Sample

/-- There is room for two transactions. -/
def small : Config := { config with maximumTransactionCount := 2 }

/-- Pays more than any other, of high priority, and spends the output of transaction 1. -/
def submitDear : Op :=
  .insert api (.ok ()) ⟨childTx, [some ⟨50, ⟨0, []⟩, 0, false, none⟩], some 100, some (10, 10), by decide⟩ .high
    .allowed .allowed

def full : Mempool := (submitDear.run small ((submit 1 7).run small .empty).2).2

/-- Spends something else, and pays a little more than transaction 1. -/
def incoming : MutableTransaction :=
  ⟨{ spender 3 with inputs := [⟨⟨98, 0⟩, [], 0, .sigopCount 0⟩] }, [some ⟨100, ⟨0, []⟩, 0, false, none⟩], some 8,
    some (10, 10), by decide⟩

def cleared : Mempool := (makeRoom small 100 [1] full).2

end Sample

end Mempool

end Marigold.Mining
