import Marigold.NotePool.Diff
import Marigold.NotePool.Hashing
import Marigold.Smt.Tree

/-!
# The pool commitment

`recompute_pool_commitment` of the virtual processor and the pool's SMT store
(`model/stores/notepool_smt.rs`): a sparse Merkle tree over the live notes, from scratch or kept up to
date diff by diff.
-/

namespace Marigold.NotePool

open Lib Smt

variable (H : Hashers)

/-- `NotePoolSmt` with its collapsed hasher. -/
def smtHasher : SmtHasher := ⟨H.notePoolSmt, H.notePoolSmtCollapsed⟩

/-- The leaves of a pool. -/
def poolLeaves (pool : PoolCollection) : List LeafUpdate :=
  pool.entries.map fun entry => ⟨entry.1, leafHashEntry H entry.2⟩

/-- The root of a new tree over the pool. -/
def poolRoot (pool : PoolCollection) : Hash :=
  (computeRootUpdate (smtHasher H) (fun _ => none) (emptyRoot (smtHasher H)) (.fromUnsorted (poolLeaves H pool))).1

/-- The stored pool with the two diffs applied in turn, and the root of a new tree over it. -/
def recomputePoolCommitment (poolState : PoolCollection) (poolDiff mergesetPoolDiff : PoolDiff) : Hash :=
  let entries := (poolState.writeDiff poolDiff).writeDiff mergesetPoolDiff
  (computeRootUpdate (smtHasher H) (fun _ => none) (emptyRoot (smtHasher H)) (.fromUnsorted (poolLeaves H entries))).1

theorem poolLeaves_nodup (pool : PoolCollection) : ((poolLeaves H pool).map LeafUpdate.key).Nodup := by
  have keys : (poolLeaves H pool).map LeafUpdate.key = pool.keys := by
    simp [poolLeaves, AList.keys, List.keys]
  rw [keys]
  exact pool.keys_nodup

theorem poolRoot_congr {pool pool' : PoolCollection}
    (same : ∀ sn, pool.lookup sn = pool'.lookup sn) : poolRoot H pool = poolRoot H pool' := by
  have entries : pool.entries.Perm pool'.entries :=
    List.lookup_ext pool.nodupKeys pool'.nodupKeys fun sn entry => by
      have here := same sn
      unfold AList.lookup at here
      rw [here]
  have leaves : (poolLeaves H pool).Perm (poolLeaves H pool') := entries.map _
  rw [poolRoot, poolRoot, SortedLeafUpdates.fromUnsorted_congr (poolLeaves_nodup H pool) leaves]

theorem recomputePoolCommitment_congr {poolState poolState' : PoolCollection} {poolDiff poolDiff' : PoolDiff}
    (same : composedPoolView poolState.lookup poolDiff = composedPoolView poolState'.lookup poolDiff')
    (mergesetPoolDiff : PoolDiff) : recomputePoolCommitment H poolState poolDiff mergesetPoolDiff =
      recomputePoolCommitment H poolState' poolDiff' mergesetPoolDiff := by
  refine poolRoot_congr H fun sn => ?_
  rw [PoolCollection.lookup_writeDiff, PoolCollection.lookup_writeDiff]
  have views : (poolState.writeDiff poolDiff).lookup = (poolState'.writeDiff poolDiff').lookup := by
    funext sn
    rw [PoolCollection.lookup_writeDiff, PoolCollection.lookup_writeDiff, same]
  rw [views]

end Marigold.NotePool
