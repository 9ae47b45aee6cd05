import Marigold.Lib.Table
import Marigold.NotePool.Commitment
import Marigold.Smt.Streaming

/-!
# The stored pool commitment

`model/stores/notepool_smt.rs`: the branch nodes and the root of the tree over the live notes, kept up to
date diff by diff or rebuilt in one pass over the sorted notes. Its root does not depend on how the pool
came to hold what it holds.
-/

namespace Marigold.NotePool

open Lib Smt

structure DbNotePoolSmtStore where
  access : Map BranchKey Node
  /-- Absent until the first write. -/
  root : Option Hash

/-- The updates of a diff: removals first, so that an addition of the same serial counts. -/
def diffUpdates (H : Hashers) (diff : PoolDiff) : SortedLeafUpdates :=
  diff.add.entries.foldl (fun updates row => updates.insert ⟨row.1, leafHashEntry H row.2⟩)
    (diff.remove.entries.foldl (fun updates row => updates.insert ⟨row.1, Hash.zero⟩) .empty)

namespace DbNotePoolSmtStore

def empty : DbNotePoolSmtStore := ⟨∅, none⟩

def getNode (store : DbNotePoolSmtStore) : SmtStore := fun key => store.access.lookup key

variable (H : Hashers)

def currentRoot (store : DbNotePoolSmtStore) : Hash :=
  store.root.getD (emptyRoot (smtHasher H))

/-- `apply_leaf_updates`. -/
def applyLeafUpdates (store : DbNotePoolSmtStore) (updates : SortedLeafUpdates) : Hash × DbNotePoolSmtStore :=
  let (newRoot, changes) := computeRootUpdate (smtHasher H) store.getNode (store.currentRoot H) updates
  (newRoot, ⟨changes.entries.foldl insertNode store.access, some newRoot⟩)

/-- `apply_diff` and `apply_diff_batch`. -/
def applyDiff (store : DbNotePoolSmtStore) (diff : PoolDiff) : Hash × DbNotePoolSmtStore :=
  store.applyLeafUpdates H (diffUpdates H diff)

def unapplyDiff (store : DbNotePoolSmtStore) (diff : PoolDiff) : Hash × DbNotePoolSmtStore :=
  store.applyDiff H diff.reversed

/-- The nodes go, and the root is that of the empty tree. -/
def clear (_ : DbNotePoolSmtStore) : DbNotePoolSmtStore :=
  ⟨∅, some (emptyRoot (smtHasher H))⟩

/-- `rebuild_from_sorted_leaves`: nodes are written as they are finished, also those of a stream that
fails later; the root only at the end. -/
def rebuildFromSortedLeaves (store : DbNotePoolSmtStore) (expectedCount : Nat)
    (leaves : List CollapsedLeaf) : Except StreamError Hash × DbNotePoolSmtStore :=
  let (error, builder, _) := feedAll (smtHasher H) (.new (smtHasher H) expectedCount) leaves
  let access := store.access.putMany builder.sink
  match error with
  | some error => (.error error, { store with access })
  | none =>
    match builder.finish with
    | .error error => (.error error, { store with access })
    | .ok (root, _) => (.ok root, ⟨access, some root⟩)

end DbNotePoolSmtStore

/-! ## The leaves of a pool -/

/-- The leaf hash of every serial. -/
def poolLeafMap (H : Hashers) (view : PoolView) : LeafMap := fun sn =>
  ((view sn).map (leafHashEntry H)).getD Hash.zero

/-- No entry has the leaf hash that stands for no leaf. -/
def LeavesNonzero (H : Hashers) : Prop := ∀ entry, leafHashEntry H entry ≠ Hash.zero

/-- No two live serials agree on their first 255 bits. -/
def SerialsApart (view : PoolView) : Prop := ∀ sn, (view sn).isSome → view (twin sn) = none

section Leaves

variable {H : Hashers} {view : PoolView}

theorem poolLeafMap_ne_zero (nonzero : LeavesNonzero H) {sn : Hash} :
    poolLeafMap H view sn ≠ Hash.zero ↔ (view sn).isSome := by
  unfold poolLeafMap
  cases view sn with
  | none => simp
  | some entry => simpa using nonzero entry

theorem twinFree_of_apart (nonzero : LeavesNonzero H) (apart : SerialsApart view) : TwinFree (poolLeafMap H view) := by
  intro sn live
  have absent := apart sn ((poolLeafMap_ne_zero nonzero).mp live)
  simp [poolLeafMap, absent]

private theorem written_insertAll (f : PoolEntry → Hash) (pool : PoolCollection)
    (updates : SortedLeafUpdates) (sn : Hash) :
    written (pool.entries.foldl (fun updates row => updates.insert ⟨row.1, f row.2⟩) updates).updates sn =
      ((pool.lookup sn).map f).or (written updates.updates sn) := by
  rw [Map.foldl_entries_local (fun updates row => updates.insert ⟨row.1, f row.2⟩)
    (fun (updates : SortedLeafUpdates) sn => written updates.updates sn) (fun entry _ => some (f entry))
    (fun updates sn entry => by rw [written_insert, if_pos rfl])
    (fun updates sn entry sn' differ => by rw [written_insert, if_neg differ])]
  cases pool.lookup sn <;> rfl

theorem written_diffUpdates (H : Hashers) (diff : PoolDiff) (sn : Hash) : written (diffUpdates H diff).updates sn =
      ((diff.cell sn).add.map (leafHashEntry H)).or ((diff.cell sn).remove.map fun _ => Hash.zero) := by
  rw [diffUpdates, written_insertAll (leafHashEntry H), written_insertAll fun _ => Hash.zero]
  simp [PoolDiff.cell, SortedLeafUpdates.empty]

theorem applied_diffUpdates (H : Hashers) (view : PoolView) (diff : PoolDiff) :
    applied (poolLeafMap H view) (diffUpdates H diff).updates = poolLeafMap H (composedPoolView view diff) := by
  funext sn
  rw [applied, written_diffUpdates]
  simp only [poolLeafMap, composedPoolView_eq]
  obtain ⟨add, remove⟩ := diff.cell sn
  cases add <;> cases remove <;> rfl

theorem deletesPresent_diffUpdates (nonzero : LeavesNonzero H) {diff : PoolDiff} (valid : diff.ValidOver view) :
    DeletesPresent (poolLeafMap H view) (diffUpdates H diff).updates := by
  intro u member cleared
  have set := written_of_mem (diffUpdates H diff) member
  rw [written_diffUpdates, cleared] at set
  have removes := (valid u.key).removed
  refine (poolLeafMap_ne_zero nonzero).mpr ?_
  cases adds : (diff.cell u.key).add with
  | some entry =>
    rw [adds] at set
    exact absurd (Option.some.inj set) (nonzero entry)
  | none =>
    rw [adds] at set
    obtain ⟨entry, there, -⟩ := Option.map_eq_some_iff.mp set
    rw [removes entry there]
    rfl

end Leaves

/-! ## The nodes in the store -/

namespace DbNotePoolSmtStore

variable {H : Hashers} {store : DbNotePoolSmtStore} {view : PoolView}

/-- The store has the nodes of the pool, and its root. -/
structure Commits (H : Hashers) (store : DbNotePoolSmtStore) (view : PoolView) : Prop where
  nodes : Represents (smtHasher H) store.getNode (poolLeafMap H view)
  root : store.currentRoot H = canonRoot (smtHasher H) (poolLeafMap H view)

theorem commits_empty (H : Hashers) : Commits H empty fun _ => none where
  nodes := represents_empty (smtHasher H)
  root := (canonRoot_noLeaves (smtHasher H)).symm

theorem Commits.applyDiff (commits : Commits H store view) (nonzero : LeavesNonzero H)
    (apart : SerialsApart view) {diff : PoolDiff} (valid : diff.ValidOver view) :
    Commits H (store.applyDiff H diff).2 (composedPoolView view diff) := by
  obtain ⟨nodes, root⟩ := overlaid_exact commits.nodes (twinFree_of_apart nonzero apart)
    (deletesPresent_diffUpdates nonzero valid)
  rw [applied_diffUpdates, ← commits.root] at nodes root
  refine ⟨?_, root⟩
  have written : (store.applyDiff H diff).2.getNode =
      overlaid (smtHasher H) store.getNode (store.currentRoot H) (diffUpdates H diff) :=
    funext fun key => lookup_insertNodes store.access _ key
  rw [written]
  exact nodes

theorem rebuildFromSortedLeaves_of_ok {expectedCount : Nat} {leaves : List CollapsedLeaf} {root : Hash}
    {writes : Writes} (rebuilt : Smt.rebuildFromSortedLeaves (smtHasher H) expectedCount leaves = .ok (root, writes)) :
    store.rebuildFromSortedLeaves H expectedCount leaves = (.ok root, ⟨store.access.putMany writes, some root⟩) := by
  unfold Smt.rebuildFromSortedLeaves at rebuilt
  rw [foldlM_feed_eq_feedAll] at rebuilt
  unfold rebuildFromSortedLeaves
  generalize feedAll (smtHasher H) (.new (smtHasher H) expectedCount) leaves = fed at rebuilt ⊢
  obtain ⟨error, builder, pulled⟩ := fed
  cases error with
  | some error => cases rebuilt
  | none =>
    change builder.finish = .ok (root, writes) at rebuilt
    have sink : builder.sink = writes := by
      unfold StreamingSmtBuilder.finish at rebuilt
      split at rebuilt
      · exact congrArg Prod.snd (Except.ok.inj rebuilt)
      · cases rebuilt
    simp only [rebuilt, sink]

/-- The leaves of a pool in ascending order of their serials. -/
structure Streams (H : Hashers) (view : PoolView) (leaves : List CollapsedLeaf) : Prop where
  ascending : Ascending leaves
  listed : ∀ sn leafHash, ⟨sn, leafHash⟩ ∈ leaves ↔ (view sn).map (leafHashEntry H) = some leafHash

variable {leaves : List CollapsedLeaf}

theorem Streams.nonzero (streams : Streams H view leaves) (nonzero : LeavesNonzero H) :
    ∀ leaf ∈ leaves, leaf.leafHash ≠ Hash.zero := by
  intro leaf there
  obtain ⟨entry, -, same⟩ := Option.map_eq_some_iff.mp ((streams.listed _ _).mp there)
  rw [← same]
  exact nonzero entry

theorem Streams.applied (streams : Streams H view leaves) :
    Smt.applied noLeaves (leafUpdates leaves streams.ascending).updates = poolLeafMap H view := by
  funext sn
  rw [Smt.applied, poolLeafMap]
  congr 1
  cases set : Smt.written (leafUpdates leaves streams.ascending).updates sn with
  | some leafHash =>
    obtain ⟨leaf, there, same⟩ := List.mem_map.mp (Smt.mem_of_written set)
    cases same
    exact ((streams.listed _ _).mp there).symm
  | none =>
    cases here : (view sn).map (leafHashEntry H) with
    | none => rfl
    | some leafHash =>
      have listed := (streams.listed _ _).mpr here
      exact absurd rfl (Smt.written_eq_none.mp set _ (List.mem_map_of_mem listed))

theorem commits_rebuilt (streams : Streams H view leaves) (nonzero : LeavesNonzero H) (store : DbNotePoolSmtStore) :
    ∃ rebuilt, (store.clear H).rebuildFromSortedLeaves H leaves.length leaves =
        (.ok (canonRoot (smtHasher H) (poolLeafMap H view)), rebuilt) ∧ Commits H rebuilt view := by
  have present := streams.nonzero nonzero
  obtain ⟨writes, run, wrote⟩ := rebuild_of_ascending (smtHasher H) streams.ascending present
  have nodes := scratch_represents (smtHasher H) streams.ascending present
  rw [streams.applied] at run nodes
  have written : ∀ key, (Map.putMany (∅ : Map BranchKey Node) writes).lookup key = overlaid (smtHasher H)
      (fun _ => none) (emptyRoot (smtHasher H)) (leafUpdates leaves streams.ascending) key := by
    intro key
    rw [Map.lookup_putMany, Map.written_of_graph (wrote.mem_iff present key)]
    exact Option.or_none
  rw [← funext written] at nodes
  exact ⟨_, rebuildFromSortedLeaves_of_ok run, nodes, Option.getD_some⟩

end DbNotePoolSmtStore

/-! ## History independence -/

/-- Stores reached by valid diffs, applied or unapplied, with no two live serials ever too close. -/
inductive Reached (H : Hashers) : DbNotePoolSmtStore → PoolView → Prop
  | empty : Reached H .empty fun _ => none
  | applied {store : DbNotePoolSmtStore} {view : PoolView} {diff : PoolDiff} (before : Reached H store view)
    (valid : diff.ValidOver view) (apart : SerialsApart (composedPoolView view diff)) :
    Reached H (store.applyDiff H diff).2 (composedPoolView view diff)
  | unapplied {store : DbNotePoolSmtStore} {view : PoolView} {diff : PoolDiff}
    (before : Reached H store view) (valid : diff.reversed.ValidOver view)
    (apart : SerialsApart (composedPoolView view diff.reversed)) :
    Reached H (store.unapplyDiff H diff).2 (composedPoolView view diff.reversed)

section Reached

variable {H : Hashers} {store : DbNotePoolSmtStore} {view : PoolView}

theorem Reached.apart (reached : Reached H store view) : SerialsApart view := by
  cases reached with
  | empty => exact fun _ live => nomatch live
  | applied _ _ apart => exact apart
  | unapplied _ _ apart => exact apart

theorem Reached.commits (reached : Reached H store view) (nonzero : LeavesNonzero H) : store.Commits H view := by
  induction reached with
  | empty => exact DbNotePoolSmtStore.commits_empty H
  | applied before valid _ ih => exact ih.applyDiff nonzero before.apart valid
  | unapplied before valid _ ih => exact ih.applyDiff nonzero before.apart valid

theorem poolRoot_eq_canonRoot (H : Hashers) (pool : PoolCollection) :
    poolRoot H pool = canonRoot (smtHasher H) (poolLeafMap H pool.lookup) := by
  rw [poolRoot, computeRootUpdate_scratch]
  congr 1
  funext sn
  rw [applied, SortedLeafUpdates.fromUnsorted, poolLeaves, List.foldl_map, written_insertAll (leafHashEntry H)]
  simp [SortedLeafUpdates.empty, poolLeafMap, noLeaves]

/-- The stored root depends only on the notes that are live: it is the root recomputed over any base and
two diffs that give these notes, and the root of a rebuild over them. -/
theorem currentRoot_history_independent (nonzero : LeavesNonzero H) (reached : Reached H store view) :
    (∀ poolState poolDiff mergesetPoolDiff,
      composedPoolView (composedPoolView poolState.lookup poolDiff) mergesetPoolDiff = view →
      recomputePoolCommitment H poolState poolDiff mergesetPoolDiff = store.currentRoot H) ∧
    ∀ (other : DbNotePoolSmtStore) (leaves : List CollapsedLeaf), DbNotePoolSmtStore.Streams H view leaves →
      ((other.clear H).rebuildFromSortedLeaves H leaves.length leaves).1 = .ok (store.currentRoot H) := by
  have commits := reached.commits nonzero
  constructor
  · intro poolState poolDiff mergesetPoolDiff same
    have lookup : ((poolState.writeDiff poolDiff).writeDiff mergesetPoolDiff).lookup = view := by
      rw [← same]
      funext sn
      rw [PoolCollection.lookup_writeDiff]
      congr 1
      exact funext fun sn => PoolCollection.lookup_writeDiff poolState poolDiff sn
    change poolRoot H ((poolState.writeDiff poolDiff).writeDiff mergesetPoolDiff) = _
    rw [poolRoot_eq_canonRoot, commits.root, ← lookup]
  · intro other leaves streams
    obtain ⟨rebuilt, run, -⟩ := DbNotePoolSmtStore.commits_rebuilt streams nonzero other
    rw [run, commits.root]

end Reached

namespace Sample

/-- Every leaf hash is 1. -/
def hashers : Hashers := ⟨fun _ => 0, fun _ => 0, fun _ => 0, fun _ => 0, fun _ => 1, fun _ => 0, fun _ => 0,
  fun _ => 0, fun bytes => BitVec.ofNat 256 bytes.length, fun _ => 3⟩

def oneNote : PoolView := composedPoolView (fun _ => none) (createNote 1 plainNote)

theorem oneNote_eq (sn : Hash) : oneNote sn = if sn = 1 then some plainNote else none := by
  rw [oneNote, composedPoolView_eq]
  change (⟨((∅ : PoolCollection).insert 1 plainNote).lookup sn, none⟩ : Cell PoolEntry).apply none = _
  rw [Map.lookup_insert_eq]
  split <;> rfl

theorem oneNote_apart : SerialsApart oneNote := by
  intro sn live
  rw [oneNote_eq] at live
  obtain rfl : sn = 1 := by simpa using live
  rw [oneNote_eq]
  decide

theorem reached_oneNote :
    Reached hashers (DbNotePoolSmtStore.empty.applyDiff hashers (createNote 1 plainNote)).2 oneNote :=
  .applied .empty (createNote_valid rfl) oneNote_apart

theorem streams_oneNote : DbNotePoolSmtStore.Streams hashers oneNote [⟨1, 1⟩] where
  ascending := List.pairwise_singleton _ _
  listed sn leafHash := by
    rw [oneNote_eq, List.mem_singleton, CollapsedLeaf.mk.injEq]
    by_cases here : sn = 1
    · simp [here, leafHashEntry, hashers, eq_comm]
    · rw [if_neg here]
      exact iff_of_false (fun same => here same.1) (by simp)

end Sample

open Sample in
theorem currentRoot_history_independent_oneNote :
    recomputePoolCommitment hashers onePool .empty .empty =
      (DbNotePoolSmtStore.empty.applyDiff hashers (createNote 1 plainNote)).2.currentRoot hashers ∧
    ((DbNotePoolSmtStore.empty.clear hashers).rebuildFromSortedLeaves hashers 1 [⟨1, 1⟩]).1 =
      .ok ((DbNotePoolSmtStore.empty.applyDiff hashers (createNote 1 plainNote)).2.currentRoot hashers) := by
  obtain ⟨recomputed, rebuilt⟩ := currentRoot_history_independent (H := hashers)
    (fun _ => by simp [leafHashEntry, hashers, Hash.zero]) reached_oneNote
  refine ⟨recomputed onePool .empty .empty (funext fun sn => ?_), rebuilt .empty _ streams_oneNote⟩
  rw [oneNote_eq, composedPoolView_eq, composedPoolView_eq, PoolDiff.cell_empty]
  exact Map.lookup_insert_eq ∅ 1 sn plainNote

end Marigold.NotePool
