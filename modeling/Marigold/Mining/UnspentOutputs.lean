import Marigold.Mining.Minable
import Marigold.Mining.Relations

/-!
# The unspent outputs of the pool

Beside the owners of what is spent, `mempool/model/utxo_set.rs` keeps a map of the outputs of the pool that are
unspent. A transaction that is added should take what it spends out of the map, but takes out outpoints of its own
instead. The map has all outputs of the pool, and is exact only while none of them is spent in the pool.
-/

namespace Marigold.Mining

open Lib Call Utxo

variable {C : Config}

/-! ## The map -/

namespace MempoolUtxoSet

/-- The outpoint that is removed for an input is the transaction's own with the index of the input. -/
def addTransaction (C : Config) (transaction : MutableTransaction) (unspent : UtxoCollection) : UtxoCollection :=
  let transactionId := transaction.id C
  let own : List TransactionOutpoint :=
    (List.range transaction.tx.inputs.length).map fun i => ⟨transactionId, UInt32.ofNat i⟩
  let entries := transaction.tx.outputs.map Mempool.entryOf
  (Map.deleteMany unspent own).putMany ((OrphanPool.outputsOf transactionId transaction.tx).zip entries)

/-- What the transaction spends of transactions that are in the pool is restored; its own outputs are removed. -/
def removeTransaction (C : Config) (transaction : MutableTransaction) (parentIdsInPool : List TransactionId)
    (unspent : UtxoCollection) : UtxoCollection :=
  let restored := transaction.populatedInputs.filterMap fun (input, entry) =>
    if input.previousOutpoint.transactionId ∈ parentIdsInPool then entry.map (input.previousOutpoint, ·) else none
  Map.deleteMany (unspent.putMany restored) (OrphanPool.outputsOf (transaction.id C) transaction.tx)

end MempoolUtxoSet

/-- The pool, and before it the unspent outputs that it keeps. -/
abbrev OutputsPool := UtxoCollection × TransactionsPool

namespace OutputsPool

def addMempoolTransaction (C : Config) (transaction : MempoolTransaction) (transactionSize : Nat) :
    Action OutputsPool Unit := do
  outside (TransactionsPool.addMempoolTransaction C transaction transactionSize)
  update fun s => (MempoolUtxoSet.addTransaction C transaction.mtx s.1, s.2)

/-- The parents are looked for after the transaction is out of the pool. -/
def removeTransaction (C : Config) (id : TransactionId) : Action OutputsPool MempoolTransaction := do
  let removed ← outside (TransactionsPool.removeTransaction C id)
  update fun s => (MempoolUtxoSet.removeTransaction C removed.mtx
    (Pool.getParentTransactionIdsInPool s.2.allTransactions removed.mtx) s.1, s.2)
  return removed

/-! ## Runs -/

variable (all : MempoolTransactionCollection)

/-- An output of a transaction of the pool. -/
def Created (outpoint : TransactionOutpoint) : Prop :=
  ∃ tx, all.lookup outpoint.transactionId = some tx ∧ outpoint ∈ OrphanPool.outputsOf outpoint.transactionId tx.mtx.tx

def Spent (outpoint : TransactionOutpoint) : Prop :=
  ∃ id tx, all.lookup id = some tx ∧ outpoint ∈ tx.mtx.spends

/-- What the transactions spend of each other are outputs that are there. -/
def Wellspent : Prop :=
  ∀ entry ∈ all.entries, ∀ outpoint ∈ entry.2.mtx.spends, ∀ parent ∈ all.lookup outpoint.transactionId,
    outpoint ∈ OrphanPool.outputsOf outpoint.transactionId parent.mtx.tx

/-- The map has the outputs of the pool that no transaction of the pool spends. -/
def Exact (s : OutputsPool) : Prop :=
  ∀ outpoint, (s.1.lookup outpoint).isSome ↔ Created s.2.allTransactions outpoint ∧ ¬Spent s.2.allTransactions outpoint

/-- Additions and removals that succeed. -/
inductive Reachable (C : Config) : OutputsPool → Prop
  | new : Reachable C (∅, TransactionsPool.empty)
  | add {s s' : OutputsPool} {tx : MempoolTransaction} {size : Nat} (before : Reachable C s)
      (wellspent : Wellspent (s.2.allTransactions.insert (tx.mtx.id C) tx))
      (added : addMempoolTransaction C tx size s = (.ok (), s')) : Reachable C s'
  | remove {s s' : OutputsPool} {id : TransactionId} {tx : MempoolTransaction} (before : Reachable C s)
      (removed : removeTransaction C id s = (.ok tx, s')) : Reachable C s'

/-- The map has all outputs of the pool. -/
structure Kept (C : Config) (s : OutputsPool) : Prop where
  related : ∃ E, TransactionsPool.RelatedBy C E s.2
  wellspent : Wellspent s.2.allTransactions
  outputs : ∀ outpoint, (s.1.lookup outpoint).isSome ↔ Created s.2.allTransactions outpoint

variable {s s' : OutputsPool} {tx : MempoolTransaction} {id : TransactionId} {size : Nat} {outpoint : TransactionOutpoint}
  {all : MempoolTransactionCollection} {mtx : MutableTransaction} {unspent : UtxoCollection}

theorem transactionId_of_mem {tx : Transaction} (member : outpoint ∈ OrphanPool.outputsOf id tx) :
    outpoint.transactionId = id := by
  obtain ⟨i, -, rfl⟩ := List.mem_map.mp member
  rfl

theorem isSome_addTransaction (absent : outpoint.transactionId = mtx.id C → unspent.lookup outpoint = none) :
    ((MempoolUtxoSet.addTransaction C mtx unspent).lookup outpoint).isSome ↔
      outpoint ∈ OrphanPool.outputsOf (mtx.id C) mtx.tx ∨ (unspent.lookup outpoint).isSome := by
  rw [MempoolUtxoSet.addTransaction, Map.isSome_putMany, Map.lookup_deleteMany,
    List.map_fst_zip (by simp [OrphanPool.outputsOf])]
  split
  next member =>
    obtain ⟨i, -, rfl⟩ := List.mem_map.mp member
    rw [absent rfl]
  · exact Iff.rfl

theorem isSome_removeTransaction {parents : List TransactionId}
    (there : outpoint ∈ mtx.spends → outpoint.transactionId ∈ parents → (unspent.lookup outpoint).isSome) :
    ((MempoolUtxoSet.removeTransaction C mtx parents unspent).lookup outpoint).isSome ↔
      outpoint ∉ OrphanPool.outputsOf (mtx.id C) mtx.tx ∧ (unspent.lookup outpoint).isSome := by
  rw [MempoolUtxoSet.removeTransaction, Map.lookup_deleteMany]
  split
  next member => simp [member]
  next other =>
    rw [Map.isSome_putMany, and_iff_right other, or_iff_right_iff_imp]
    intro restored
    obtain ⟨row, member, rfl⟩ := List.mem_map.mp restored
    obtain ⟨⟨input, entry⟩, inside, found⟩ := List.mem_filterMap.mp member
    simp only [Option.ite_none_right_eq_some, Option.map_eq_some_iff] at found
    obtain ⟨known, entry, -, rfl⟩ := found
    exact there (List.mem_map_of_mem (List.of_mem_zip inside).1) known

theorem created_insert (fresh : all.lookup id = none) :
    Created (all.insert id tx) outpoint ↔ outpoint ∈ OrphanPool.outputsOf id tx.mtx.tx ∨ Created all outpoint := by
  simp only [Created, Map.lookup_insert_eq]
  by_cases same : outpoint.transactionId = id
  · subst same
    simp [fresh]
  · simp only [same, if_false, iff_or_self]
    exact fun member => absurd (transactionId_of_mem member) same

theorem created_erase (there : all.lookup id = some tx) :
    Created (all.erase id) outpoint ↔ outpoint ∉ OrphanPool.outputsOf id tx.mtx.tx ∧ Created all outpoint := by
  simp only [Created, Map.lookup_erase_eq]
  by_cases same : outpoint.transactionId = id
  · subst same
    simp [there]
  · simp only [same, if_false, iff_and_self]
    exact fun _ member => same (transactionId_of_mem member)

theorem Kept.add (kept : Kept C s) (wellspent : Wellspent (s.2.allTransactions.insert (tx.mtx.id C) tx)) :
    wp (addMempoolTransaction C tx size) (fun _ => Kept C) (fun _ _ => True) s := by
  obtain ⟨E, related⟩ := kept.related
  rw [addMempoolTransaction, wp_bind, wp_outside]
  refine wp_mono (TransactionsPool.addMempoolTransaction_related related tx size) (fun _ pool after => ?_) fun _ _ _ => trivial
  obtain ⟨fresh, all, related⟩ := after
  refine ⟨⟨_, related⟩, all ▸ wellspent, fun outpoint => ?_⟩
  -- outpoints of its own are not in the map yet
  have absent : outpoint.transactionId = tx.mtx.id C → s.1.lookup outpoint = none := by
    intro own
    rw [← Option.not_isSome_iff_eq_none, kept.outputs, Created, own, fresh]
    simp
  change ((MempoolUtxoSet.addTransaction C tx.mtx s.1).lookup outpoint).isSome ↔ Created pool.allTransactions outpoint
  rw [isSome_addTransaction absent, kept.outputs, all, created_insert fresh]

theorem Kept.remove (kept : Kept C s) (id : TransactionId) :
    wp (removeTransaction C id) (fun _ => Kept C) (fun _ _ => True) s := by
  obtain ⟨E, related⟩ := kept.related
  have own := related.ids id
  rw [removeTransaction, wp_bind, wp_outside]
  refine wp_mono (TransactionsPool.removeTransaction_related related id) (fun tx pool after => ?_) fun _ _ _ => trivial
  obtain ⟨⟨related, sub⟩, there, all⟩ := after
  refine ⟨⟨_, related⟩, fun entry member spent mine parent found => ?_, fun outpoint => ?_⟩
  · have before := sub entry.1 entry.2 (Map.lookup_eq_some_iff.mpr member)
    exact kept.wellspent entry (Map.lookup_eq_some_iff.mp before) spent mine parent (sub _ parent found)
  · have restored : outpoint ∈ tx.mtx.spends → outpoint.transactionId ∈
        Pool.getParentTransactionIdsInPool pool.allTransactions tx.mtx → (s.1.lookup outpoint).isSome := by
      intro spent inPool
      rw [Pool.getParentTransactionIdsInPool, List.mem_dedup, List.mem_filter] at inPool
      obtain ⟨parent, found⟩ := Option.isSome_iff_exists.mp inPool.2
      rw [kept.outputs]
      have before := sub _ parent found
      exact ⟨parent, before, kept.wellspent ⟨id, tx⟩ (Map.lookup_eq_some_iff.mp there) outpoint spent parent before⟩
    change ((MempoolUtxoSet.removeTransaction C tx.mtx _ s.1).lookup outpoint).isSome ↔ Created pool.allTransactions outpoint
    rw [isSome_removeTransaction restored, kept.outputs, all, own tx there, created_erase there]

theorem kept_of_reachable (reachable : Reachable C s) : Kept C s := by
  induction reachable with
  | new =>
    refine ⟨⟨_, TransactionsPool.empty_relatedBy⟩, fun entry member => (nomatch member), fun outpoint => ?_⟩
    exact ⟨fun some => (nomatch some), fun created => nomatch created.choose_spec.1⟩
  | add _ wellspent added ih => exact wp_ok (Q := fun _ => Kept C) (ih.add wellspent) added
  | remove _ removed ih => exact wp_ok (Q := fun _ => Kept C) (ih.remove _) removed

/-- After every sequence of additions and removals the map is exact if and only if no output of the pool is spent in
the pool. -/
theorem reachable_exact_iff (reachable : Reachable C s) :
    Exact s ↔ ∀ outpoint, Created s.2.allTransactions outpoint → ¬Spent s.2.allTransactions outpoint := by
  have kept := kept_of_reachable reachable
  refine forall_congr' fun outpoint => ?_
  rw [kept.outputs, iff_self_and]

namespace Sample

open Mempool.Sample

def pooled (id : UInt64) (spent : TransactionOutpoint) : MempoolTransaction :=
  ⟨⟨(spending id [spent]).tx, .replicate 1 (some ⟨50, ⟨0, []⟩, 0, false, none⟩), some 7, some (10, 10), rfl⟩, .low, 5⟩

/-- A transaction, and one that spends its output. -/
def pair : OutputsPool := (addMempoolTransaction config (pooled 2 ⟨1, 0⟩) 100
  (addMempoolTransaction config (pooled 1 ⟨99, 0⟩) 100 (∅, .empty)).2).2

theorem pair_reachable : Reachable config pair := by
  have first := @Reachable.add config _ _ (pooled 1 ⟨99, 0⟩) 100 .new (by unfold Wellspent; decide) rfl
  exact @Reachable.add _ _ _ (pooled 2 ⟨1, 0⟩) 100 first (by unfold Wellspent; decide) rfl

end Sample

open OutputsPool.Sample in
/-- The output of the first transaction is in the map, though the second one spends it. -/
theorem spent_output_kept : ∃ s, Reachable Mempool.Sample.config s ∧ ¬Exact s := by
  refine ⟨pair, pair_reachable, fun exact' => ?_⟩
  have unspent := ((exact' ⟨1, 0⟩).mp rfl).2
  exact unspent ⟨2, pooled 2 ⟨1, 0⟩, rfl, by decide⟩

open OutputsPool.Sample in
theorem reachable_exact_iff_pair : Exact pair ↔
    ∀ outpoint, Created pair.2.allTransactions outpoint → ¬Spent pair.2.allTransactions outpoint :=
  reachable_exact_iff pair_reachable

end OutputsPool

end Marigold.Mining
